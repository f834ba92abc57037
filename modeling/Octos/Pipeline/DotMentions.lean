/-
# `Octos.Pipeline.DotMentions` — naming a node again

A node is named by its own statement, by a member line of a subgraph, and by the
ends of edges.  The last of these only fills in nodes that are missing.  The other
two insert what they say, and a bare mention says nothing: it puts the node back to
the defaults (`declared_kept_iff`).

    a [handler=shell]  subgraph s { a }      the node `a` is not a shell node
    subgraph s { a }  a [handler=shell]      it is
-/
import Octos.Pipeline.DotItems
import Octos.Pipeline.DotRoundTrip

namespace Octos.Pipeline

variable {env : DotEnv}

/-! ## Declarations -/

/-- The nodes a statement of a subgraph declares, with their attribute lists. -/
def Member.declared : Member → List (String × Option Attributes)
  | .node id attrs => [(id, attrs)]
  | _ => []

/-- The nodes a statement declares, inside subgraphs too. -/
def Item.declared : Item → List (String × Option Attributes)
  | .node id attrs => [(id, attrs)]
  | .subgraph _ members => members.flatMap Member.declared
  | _ => []

/-- All declarations of a document, in order. -/
def declarations (items : List Item) : List (String × Option Attributes) :=
  items.flatMap Item.declared

/-- What a declaration does to the nodes. -/
def declare (env : DotEnv) (nodes : Table String PipelineNode) (d : String × Option Attributes) :
    Table String PipelineNode :=
  nodes.insert d.1 (buildNode env d.1 (d.2.getD ∅))

theorem members_nodes (members : List Member) : ∀ s : OpenSubgraph,
    (members.foldl (Member.apply env) s).graph.nodes =
      (members.flatMap Member.declared).foldl (declare env) s.graph.nodes := by
  induction members with
  | nil => exact fun _ => rfl
  | cons m members ih =>
      intro s
      rw [List.foldl_cons, ih, List.flatMap_cons, List.foldl_append]
      cases m <;> rfl

theorem items_nodes (items : List Item) : ∀ graph : PipelineGraph,
    (items.foldl (Item.apply env) graph).nodes =
      (declarations items).foldl (declare env) graph.nodes := by
  induction items with
  | nil => exact fun _ => rfl
  | cons item items ih =>
      intro graph
      rw [List.foldl_cons, ih]
      show List.foldl _ _ _ = List.foldl _ _ (item.declared ++ declarations items)
      rw [List.foldl_append]
      cases item with
      | subgraph id members =>
          show List.foldl _ (members.foldl (Member.apply env) _).graph.nodes _ = _
          rw [members_nodes]
          rfl
      | _ => rfl

/-- Declarations of other nodes leave a node alone. -/
theorem declare_other {id : String} : ∀ (ds : List (String × Option Attributes))
    (nodes : Table String PipelineNode), (∀ a, (id, a) ∉ ds) →
    (ds.foldl (declare env) nodes)[id]? = nodes[id]? := by
  intro ds
  induction ds with
  | nil => exact fun _ _ => rfl
  | cons d ds ih =>
      intro nodes hnot
      rw [List.foldl_cons, ih _ (fun a ha => hnot a (List.mem_cons_of_mem _ ha))]
      refine Table.get_insert_ne _ _ ?_
      rintro rfl
      exact hnot d.2 List.mem_cons_self

/-- The last declaration counts. -/
theorem declare_last {id : String} {a : Option Attributes} (xs ys : List (String × Option Attributes))
    (nodes : Table String PipelineNode) (hnot : ∀ a, (id, a) ∉ ys) :
    ((xs ++ (id, a) :: ys).foldl (declare env) nodes)[id]? = some (buildNode env id (a.getD ∅)) := by
  rw [List.foldl_append, List.foldl_cons, declare_other ys _ hnot]
  exact Table.get_insert_self _ _ _

/-! ## The ends of edges -/

theorem ensureNode_keeps {nodes : Table String PipelineNode} {id x : String} {node : PipelineNode}
    (h : nodes[x]? = some node) : (ensureNode nodes id)[x]? = some node := by
  unfold ensureNode
  split
  · exact h
  · next hnone =>
      refine (Table.get_insert_ne _ _ ?_).trans h
      rintro rfl
      rw [h] at hnone
      exact hnone rfl

/-- The ends of edges fill in only. -/
theorem ensureEndpoints_keeps {graph : PipelineGraph} {x : String} {node : PipelineNode}
    (h : graph.nodes[x]? = some node) : (ensureEndpoints graph).nodes[x]? = some node := by
  have hall : ∀ (edges : List PipelineEdge) (nodes : Table String PipelineNode),
      nodes[x]? = some node →
      (edges.foldl (fun nodes e => ensureNode (ensureNode nodes e.source) e.target) nodes)[x]? = some node := by
    intro edges
    induction edges with
    | nil => exact fun _ h => h
    | cons e edges ih => exact fun nodes h => ih _ (ensureNode_keeps (ensureNode_keeps h))
  exact hall graph.edges graph.nodes h

/-- The node of a declared id is that of its last declaration. -/
theorem graphOf_last {doc : String × List Item} {id : String} {a : Option Attributes}
    {xs ys : List (String × Option Attributes)} (h : declarations doc.2 = xs ++ (id, a) :: ys)
    (hnot : ∀ a, (id, a) ∉ ys) :
    (graphOf env doc).nodes[id]? = some (buildNode env id (a.getD ∅)) := by
  refine ensureEndpoints_keeps ?_
  rw [items_nodes, h]
  exact declare_last xs ys _ hnot

/-! ## Bare mentions -/

/-- `id` is declared with an attribute list, and from there on bare only; `later` are
the declarations that follow. -/
structure LastDeclared (items : List Item) (id : String) (attrs : Attributes)
    (later : List (String × Option Attributes)) : Prop where
  declared : ∃ earlier, declarations items = earlier ++ (id, some attrs) :: later
  bare : ∀ a, (id, a) ∈ later → a = none

/-- A bare mention leaves the defaults. -/
theorem LastDeclared.erased {doc : String × List Item} {id : String} {attrs : Attributes}
    {later : List (String × Option Attributes)} (h : LastDeclared doc.2 id attrs later)
    (hmention : (id, none) ∈ later) : (graphOf env doc).nodes[id]? = some { id } := by
  obtain ⟨earlier, hdecl⟩ := h.declared
  -- the last of the bare mentions
  obtain ⟨xs, ys, hsplit, hlast⟩ : ∃ xs ys, later = xs ++ (id, none) :: ys ∧ (id, none) ∉ ys := by
    obtain ⟨ys, xs, hrev, hfirst⟩ := List.eq_append_cons_of_mem (List.mem_reverse.mpr hmention)
    refine ⟨xs.reverse, ys.reverse, ?_, fun hmem => hfirst (List.mem_reverse.mp hmem)⟩
    rw [← List.reverse_reverse later, hrev]
    simp
  rw [hsplit] at hdecl
  have hwhole : declarations doc.2 = (earlier ++ (id, some attrs) :: xs) ++ (id, none) :: ys := by
    rw [hdecl, List.append_assoc, List.cons_append]
  rw [graphOf_last hwhole, Option.getD_none, buildNode_empty]
  intro a ha
  obtain rfl := h.bare a (hsplit ▸ List.mem_append_right _ (List.mem_cons_of_mem _ ha))
  exact hlast ha

/-- **Naming a node again.**  In a document that parses, a node that is declared with
an attribute list and stands bare from there on is left as declared exactly when
there is no bare mention, or nothing to lose; else it has the defaults. -/
theorem declared_kept_iff {text : String} {graph : PipelineGraph} (h : parseDot env text = .ok graph) :
    ∃ doc, readDoc env text = .ok doc ∧ ∀ id attrs later, LastDeclared doc.2 id attrs later →
      (graph.nodes[id]? = some (buildNode env id attrs) ↔
        (id, none) ∉ later ∨ buildNode env id attrs = { id }) ∧
      ((id, none) ∈ later → graph.nodes[id]? = some { id }) := by
  rw [parseDot_items] at h
  cases hdoc : readDoc env text with
  | error e =>
      rw [hdoc] at h
      cases h
  | ok doc =>
      rw [hdoc] at h
      obtain rfl : graphOf env doc = graph := Except.ok.inj h
      refine ⟨doc, rfl, ?_⟩
      intro id attrs later hlast
      refine ⟨?_, hlast.erased⟩
      by_cases hmention : (id, none) ∈ later
      · rw [hlast.erased hmention]
        constructor
        · intro hsame
          exact Or.inr (Option.some.inj hsame).symm
        · intro hnothing
          rw [hnothing.resolve_left (not_not_intro hmention)]
      · refine iff_of_true ?_ (Or.inl hmention)
        obtain ⟨earlier, hdecl⟩ := hlast.declared
        refine graphOf_last hdecl ?_
        intro a ha
        obtain rfl := hlast.bare a ha
        exact hmention ha

/-- A shell node that is listed in a subgraph first. -/
def listedFirst : String := "digraph G \x7bsubgraph s \x7ba\x7d a [handler=shell]\x7d"

/-- The same node, listed afterwards. -/
def listedAfter : String := "digraph G \x7ba [handler=shell] subgraph s \x7ba\x7d\x7d"

/-- Two declarations of one node, the first or the second of them bare. -/
theorem two_declarations {text : String} {first second : Bool}
    (h : (match parseDot asciiEnv text, readDoc asciiEnv text with
      | .ok _, .ok doc => decide ((declarations doc.2).map (fun d => (d.1, d.2.isSome)) = [("a", first), ("a", second)])
      | _, _ => false) = true) :
    ∃ graph doc a b, parseDot asciiEnv text = .ok graph ∧ readDoc asciiEnv text = .ok doc ∧
      declarations doc.2 = [("a", a), ("a", b)] ∧ a.isSome = first ∧ b.isSome = second := by
  revert h
  cases hparse : parseDot asciiEnv text with
  | error e => exact fun h => nomatch h
  | ok graph =>
      cases hread : readDoc asciiEnv text with
      | error e => exact fun h => nomatch h
      | ok doc =>
          intro h
          have hmap := of_decide_eq_true h
          match hdecl : declarations doc.2, hmap with
          | [(x, a), (y, b)], hmap =>
              simp only [List.map_cons, List.map_nil, List.cons.injEq, Prod.mk.injEq, and_true] at hmap
              obtain ⟨⟨rfl, ha⟩, rfl, hb⟩ := hmap
              exact ⟨graph, doc, a, b, rfl, rfl, hdecl, ha, hb⟩

theorem declared_kept_iff_listed_first :
    ∃ graph attrs, parseDot asciiEnv listedFirst = .ok graph ∧
      graph.nodes["a"]? = some (buildNode asciiEnv "a" attrs) := by
  obtain ⟨graph, doc, a, b, hparse, hread, hdecl, ha, hb⟩ :=
    @two_declarations listedFirst false true (by rfl)
  obtain ⟨doc', hread', hkept⟩ := declared_kept_iff hparse
  obtain rfl := Except.ok.inj (hread.symm.trans hread')
  obtain ⟨attrs, rfl⟩ := Option.isSome_iff_exists.mp hb
  have hlast : LastDeclared doc.2 "a" attrs [] :=
    ⟨⟨[("a", a)], hdecl⟩, fun _ h => (List.not_mem_nil h).elim⟩
  exact ⟨graph, attrs, hparse, (hkept "a" attrs [] hlast).1.mpr (Or.inl List.not_mem_nil)⟩

/-- **Listing a declared node in a subgraph erases it**: the shell node becomes one
with the defaults. -/
theorem listing_erases :
    ¬∀ (text : String) (graph : PipelineGraph) (doc : String × List Item),
      parseDot asciiEnv text = .ok graph → readDoc asciiEnv text = .ok doc →
      ∀ id attrs later, LastDeclared doc.2 id attrs later →
        graph.nodes[id]? = some (buildNode asciiEnv id attrs) := by
  intro hclaim
  obtain ⟨graph, doc, a, b, hparse, hread, hdecl, ha, hb⟩ :=
    @two_declarations listedAfter true false (by rfl)
  obtain ⟨attrs, rfl⟩ := Option.isSome_iff_exists.mp ha
  obtain rfl : b = none := by simpa using hb
  have hlast : LastDeclared doc.2 "a" attrs [("a", none)] := by
    refine ⟨⟨[], hdecl⟩, ?_⟩
    intro x hx
    simpa using hx
  have hkept := hclaim listedAfter graph doc hparse hread "a" attrs [("a", none)] hlast
  have hshell : (match readDoc asciiEnv listedAfter with
      | .ok doc => (declarations doc.2).head?.any (fun d =>
          decide ((buildNode asciiEnv "a" (d.2.getD ∅)).handler = .shell))
      | .error _ => false) = true := by rfl
  have hcodergen : (match parseDot asciiEnv listedAfter with
      | .ok graph => graph.nodes["a"]?.any (fun node => decide (node.handler = .codergen))
      | .error _ => false) = true := by rfl
  rw [hread] at hshell
  simp only [hdecl, List.head?_cons, Option.any_some, Option.getD_some, decide_eq_true_eq] at hshell
  rw [hparse] at hcodergen
  simp only [hkept, Option.any_some, decide_eq_true_eq] at hcodergen
  rw [hshell] at hcodergen
  cases hcodergen

end Octos.Pipeline
