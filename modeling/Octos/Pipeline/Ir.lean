/-
# `Octos.Pipeline.Ir` — the typed form a model writes, and its compiler

`ir.rs`.  A program names kinds of a closed palette and carries no handlers or
tools; `contractFor` says what each kind may do, and `compile` puts that into the
graph.  The ids and edges of the graph are those of the program, and the
capabilities of a node are its kind's (`compile_spec`), except in one place: a
sub-agent node may name a model, and the compiler takes it.  So what the program
says beyond its ids, edges and kinds does reach a capability, exactly where there
is a sub-agent node (`capability_lock_iff`).
-/
import Octos.Pipeline.Graph

namespace Octos.Pipeline

/-! ## Programs -/

/-- The palette, with what the program may say of each kind. -/
inductive IrNodeKind
  | research (prompt : String) (maxOutputTokens maxIterations : Option U32)
  | transform (prompt : String)
  | synthesize (prompt : String) (maxOutputTokens maxIterations : Option U32)
  | report (prompt : String) (maxOutputTokens maxIterations : Option U32)
  | gate
  | fanout (planPrompt : Option String) (workerPrompt converge : String) (maxTasks : Option U32)
  | codeReview (prompt : String) (scope : Option String)
  | codeEdit (prompt : String) (files : Option (List String))
  | shellCheck (command : String) (timeoutSecs : Option U64)
  | subAgent (task : String) (tools : Option (List String)) (model : Option String)
  | notify (message : String) (channel : Option String)
  | wait (seconds : Option U64) (untilCondition : Option String) (timeoutSecs : Option U64)

/-- The kinds by themselves: the `type` tags. -/
inductive Palette
  | research
  | transform
  | synthesize
  | report
  | gate
  | fanout
  | codeReview
  | codeEdit
  | shellCheck
  | subAgent
  | notify
  | wait
  deriving DecidableEq

def IrNodeKind.palette : IrNodeKind → Palette
  | .research _ _ _ => .research
  | .transform _ => .transform
  | .synthesize _ _ _ => .synthesize
  | .report _ _ _ => .report
  | .gate => .gate
  | .fanout _ _ _ _ => .fanout
  | .codeReview _ _ => .codeReview
  | .codeEdit _ _ => .codeEdit
  | .shellCheck _ _ => .shellCheck
  | .subAgent _ _ _ => .subAgent
  | .notify _ _ => .notify
  | .wait _ _ _ => .wait

structure IrNode where
  id : String
  kind : IrNodeKind

structure IrEdge where
  source : String
  target : String
  condition : Option String := none
  backEdge : Bool := false
  deriving DecidableEq

structure PipelineIr where
  id : String
  label : Option String := none
  nodes : List IrNode
  edges : List IrEdge := []

/-! ## Contracts -/

structure PaletteContract where
  handler : HandlerKind
  allowedTools : List String
  model : Option String

/-- `contract_for`. -/
def contractFor : IrNodeKind → PaletteContract
  | .research _ _ _ => ⟨.codergen, ["web_search", "web_fetch", "read_file"], some "cheap"⟩
  | .transform _ => ⟨.codergen, ["read_file"], some "cheap"⟩
  | .synthesize _ _ _ => ⟨.codergen, ["read_file"], some "strong"⟩
  | .report _ _ _ => ⟨.codergen, ["read_file", "write_file"], some "strong"⟩
  | .gate => ⟨.gate, [], none⟩
  | .fanout _ _ _ _ =>
      ⟨.dynamicParallel, ["web_search", "web_fetch", "read_file", "write_file"], some "cheap"⟩
  | .codeReview _ _ => ⟨.codergen, ["read_file", "grep", "glob", "list_dir"], some "strong"⟩
  | .codeEdit _ _ =>
      ⟨.codergen, ["read_file", "write_file", "edit_file", "grep", "glob"], some "strong"⟩
  | .shellCheck _ _ => ⟨.shellCheck, [], none⟩
  | .subAgent _ _ _ => ⟨.codergen, ["spawn"], some "strong"⟩
  | .notify _ _ => ⟨.notify, [], none⟩
  | .wait _ _ _ => ⟨.wait, [], none⟩

/-- A contract is a matter of the kind. -/
theorem contractFor_palette {k k' : IrNodeKind} (h : k.palette = k'.palette) :
    contractFor k = contractFor k' := by
  cases k <;> cases k' <;> first | rfl | cases h

/-! ## Compiling -/

/-- The text in front of a delegated task, and the one behind it. -/
def delegation (task : String) : String :=
  "You are a delegator. Your ONLY tool is `spawn`. Use it to create a sub-agent that completes " ++
    "this task:\n\n" ++ task ++ "\n\nReturn the sub-agent's final output as your result."

/-- What the program's own fields do to a node. -/
def IrNodeKind.fill (node : PipelineNode) : IrNodeKind → PipelineNode
  | .research prompt maxOutputTokens maxIterations
  | .synthesize prompt maxOutputTokens maxIterations
  | .report prompt maxOutputTokens maxIterations =>
      { node with prompt := some prompt, maxOutputTokens, maxIterations }
  | .transform prompt => { node with prompt := some prompt }
  | .gate => node
  | .fanout planPrompt workerPrompt converge maxTasks =>
      { node with
        prompt := planPrompt, workerPrompt := some workerPrompt, converge := some converge, maxTasks }
  | .codeReview prompt scope => { node with prompt := some prompt, label := scope }
  | .codeEdit prompt files =>
      { node with prompt := some prompt, label := (files.map (", ".intercalate ·)).or node.label }
  | .shellCheck command timeoutSecs =>
      { node with
        prompt := some command, label := some "shell_check", timeoutSecs := some (timeoutSecs.getD 60) }
  | .subAgent task tools model =>
      { node with
        prompt := some (delegation task)
        label := (tools.map (fun ts => "subagent:" ++ ",".intercalate ts)).or node.label
        -- the one place where a capability comes from the program
        model := model.or node.model }
  | .notify message channel =>
      { node with prompt := some message, label := channel.or (some "notify") }
  | .wait (some s) _ _ =>
      { node with
        prompt := some ("wait " ++ toString s.toNat ++ "s"), timeoutSecs := some s, label := some "wait" }
  | .wait none (some cond) timeoutSecs =>
      { node with
        prompt := some ("wait until " ++ cond), timeoutSecs := some (timeoutSecs.getD 300)
        label := some "wait" }
  | .wait none none _ => { node with label := some "wait" }

def compileNode (n : IrNode) : PipelineNode :=
  let contract := contractFor n.kind
  n.kind.fill
    { id := n.id, handler := contract.handler, tools := contract.allowedTools, model := contract.model }

inductive CompileError
  | duplicateNode (id : String)
  | unknownSource (id : String)
  | unknownTarget (id : String)
  deriving DecidableEq

def CompileError.message : CompileError → String
  | .duplicateNode id => "duplicate node id '" ++ id ++ "'"
  | .unknownSource id => "edge source '" ++ id ++ "' is not a declared node"
  | .unknownTarget id => "edge target '" ++ id ++ "' is not a declared node"

def compileNodes : List IrNode → Table String PipelineNode →
    Except CompileError (Table String PipelineNode)
  | [], nodes => .ok nodes
  | n :: ns, nodes =>
      if nodes[n.id]?.isSome then .error (.duplicateNode n.id)
      else compileNodes ns (nodes.insert n.id (compileNode n))

/-- A back edge carries the label that the cycle rule knows. -/
def compileEdge (e : IrEdge) : PipelineEdge :=
  { source := e.source, target := e.target
    label := if e.backEdge then some "back_edge" else none
    condition := e.condition, weight := .finite 1 }

def compileEdges (nodes : Table String PipelineNode) :
    List IrEdge → Except CompileError (List PipelineEdge)
  | [] => .ok []
  | e :: es =>
      if nodes[e.source]?.isNone then .error (.unknownSource e.source)
      else if nodes[e.target]?.isNone then .error (.unknownTarget e.target)
      else do
        let edges ← compileEdges nodes es
        return compileEdge e :: edges

def compile (ir : PipelineIr) : Except CompileError PipelineGraph := do
  let nodes ← compileNodes ir.nodes ∅
  let edges ← compileEdges nodes ir.edges
  return { id := ir.id, label := ir.label, maxTotalTokens := none, nodes, edges }

/-! ## What compiles -/

def PipelineIr.ids (ir : PipelineIr) : List String :=
  ir.nodes.map IrNode.id

/-- Ids are distinct, and edges are between them. -/
structure PipelineIr.Proper (ir : PipelineIr) : Prop where
  unique : ir.ids.Nodup
  edges : ∀ e ∈ ir.edges, e.source ∈ ir.ids ∧ e.target ∈ ir.ids

/-- The nodes of a program as a table. -/
def nodeTable (ns : List IrNode) (nodes : Table String PipelineNode) : Table String PipelineNode :=
  ns.foldl (fun nodes n => nodes.insert n.id (compileNode n)) nodes

theorem nodeTable_other {x : String} : ∀ (ns : List IrNode) (nodes : Table String PipelineNode),
    x ∉ ns.map IrNode.id → (nodeTable ns nodes)[x]? = nodes[x]? := by
  intro ns
  induction ns with
  | nil => exact fun _ _ => rfl
  | cons n ns ih =>
      intro nodes hx
      rw [List.map_cons, List.mem_cons, not_or] at hx
      exact (ih _ hx.2).trans (Table.get_insert_ne _ _ (fun h => hx.1 h.symm))

theorem nodeTable_get {n : IrNode} : ∀ (ns : List IrNode) (nodes : Table String PipelineNode),
    (ns.map IrNode.id).Nodup → n ∈ ns → (nodeTable ns nodes)[n.id]? = some (compileNode n) := by
  intro ns
  induction ns with
  | nil => exact fun _ _ h => (List.not_mem_nil h).elim
  | cons m ns ih =>
      intro nodes hnd hn
      rw [List.map_cons, List.nodup_cons] at hnd
      rcases List.mem_cons.mp hn with rfl | hn
      · exact (nodeTable_other ns _ hnd.1).trans (Table.get_insert_self _ _ _)
      · exact ih _ hnd.2 hn

theorem compileNodes_iff {nodes' : Table String PipelineNode} : ∀ {ns : List IrNode}
    {nodes : Table String PipelineNode},
    compileNodes ns nodes = .ok nodes' ↔
      (ns.map IrNode.id).Nodup ∧ (∀ n ∈ ns, nodes[n.id]? = none) ∧ nodes' = nodeTable ns nodes := by
  intro ns
  induction ns with
  | nil =>
      intro nodes
      simp [compileNodes, nodeTable, eq_comm]
  | cons n ns ih =>
      intro nodes
      rw [compileNodes, List.map_cons, List.nodup_cons]
      cases hn : nodes[n.id]? with
      | some node =>
          rw [if_pos Option.isSome_some]
          refine iff_of_false (fun h => nomatch h) ?_
          rintro ⟨-, hnone, -⟩
          have hfresh := hnone n List.mem_cons_self
          rw [hn] at hfresh
          cases hfresh
      | none =>
          rw [if_neg (by simp), ih]
          have hfresh : (∀ m ∈ ns, (nodes.insert n.id (compileNode n))[m.id]? = none) ↔
              n.id ∉ ns.map IrNode.id ∧ ∀ m ∈ ns, nodes[m.id]? = none := by
            constructor
            · intro h
              refine ⟨?_, ?_⟩
              · intro hmem
                obtain ⟨m, hm, hid⟩ := List.mem_map.mp hmem
                have hnone := h m hm
                rw [hid, Table.get_insert_self] at hnone
                cases hnone
              · intro m hm
                have hnone := h m hm
                rw [Table.get_insert] at hnone
                split at hnone
                · cases hnone
                · exact hnone
            · rintro ⟨hout, hall⟩ m hm
              refine (Table.get_insert_ne _ _ ?_).trans (hall m hm)
              intro hid
              exact hout (hid ▸ List.mem_map_of_mem hm)
          rw [hfresh]
          show _ ↔ _ ∧ _ ∧ nodes' = nodeTable ns (nodes.insert n.id (compileNode n))
          simp only [List.forall_mem_cons, hn, true_and]
          tauto

theorem compileEdges_iff {nodes : Table String PipelineNode} : ∀ {es : List IrEdge} {edges : List PipelineEdge},
    compileEdges nodes es = .ok edges ↔
      (∀ e ∈ es, nodes[e.source]?.isSome = true ∧ nodes[e.target]?.isSome = true) ∧
        edges = es.map compileEdge := by
  intro es
  induction es with
  | nil =>
      intro edges
      rw [compileEdges, Except.ok.injEq]
      exact ⟨fun h => ⟨fun _ he => (List.not_mem_nil he).elim, h.symm⟩, fun h => h.2.symm⟩
  | cons e es ih =>
      intro edges
      rw [compileEdges]
      cases hs : nodes[e.source]? with
      | none =>
          refine iff_of_false (fun h => nomatch h) ?_
          rintro ⟨hall, -⟩
          have hsource := (hall e List.mem_cons_self).1
          rw [hs] at hsource
          cases hsource
      | some source =>
          cases ht : nodes[e.target]? with
          | none =>
              refine iff_of_false (fun h => nomatch h) ?_
              rintro ⟨hall, -⟩
              have htarget := (hall e List.mem_cons_self).2
              rw [ht] at htarget
              cases htarget
          | some target =>
              simp only [Option.isNone_some, Bool.false_eq_true, if_false, bind_ok, ih, pure_ok,
                List.forall_mem_cons, hs, ht, Option.isSome_some, and_self, true_and, List.map_cons]
              constructor
              · rintro ⟨es', ⟨hall, rfl⟩, rfl⟩
                exact ⟨hall, rfl⟩
              · rintro ⟨hall, rfl⟩
                exact ⟨_, ⟨hall, rfl⟩, rfl⟩

/-- **What compiles, and to what.** -/
theorem compile_iff {ir : PipelineIr} {graph : PipelineGraph} :
    compile ir = .ok graph ↔ ir.Proper ∧ graph =
      { id := ir.id, label := ir.label, maxTotalTokens := none, nodes := nodeTable ir.nodes ∅,
        edges := ir.edges.map compileEdge } := by
  have hdeclared : ir.ids.Nodup → ∀ x, (nodeTable ir.nodes ∅)[x]?.isSome = true ↔ x ∈ ir.ids := by
    intro hnd x
    by_cases hx : x ∈ ir.ids
    · obtain ⟨n, hn, rfl⟩ := List.mem_map.mp hx
      rw [nodeTable_get ir.nodes ∅ hnd hn]
      exact iff_of_true rfl hx
    · have hnone : (nodeTable ir.nodes ∅)[x]? = none :=
        (nodeTable_other ir.nodes ∅ hx).trans Std.ExtTreeMap.getElem?_empty
      rw [hnone]
      exact iff_of_false Bool.false_ne_true hx
  have hempty : ∀ n ∈ ir.nodes, (∅ : Table String PipelineNode)[n.id]? = none :=
    fun _ _ => Std.ExtTreeMap.getElem?_empty
  simp only [compile, bind_ok, compileNodes_iff, compileEdges_iff, pure_ok]
  constructor
  · rintro ⟨nodes, ⟨hnd, -, rfl⟩, edges, ⟨hall, rfl⟩, rfl⟩
    refine ⟨⟨hnd, ?_⟩, rfl⟩
    intro e he
    exact ⟨(hdeclared hnd _).mp (hall e he).1, (hdeclared hnd _).mp (hall e he).2⟩
  · rintro ⟨hproper, rfl⟩
    refine ⟨_, ⟨hproper.unique, hempty, rfl⟩, _, ⟨?_, rfl⟩, rfl⟩
    intro e he
    exact ⟨(hdeclared hproper.unique _).mpr (hproper.edges e he).1,
      (hdeclared hproper.unique _).mpr (hproper.edges e he).2⟩

/-! ## Capabilities -/

/-- The model a program names for a node. -/
def IrNodeKind.override : IrNodeKind → Option String
  | .subAgent _ _ model => model
  | _ => none

/-- A kind that may name one. -/
theorem IrNodeKind.override_palette {k : IrNodeKind} (h : k.palette ≠ .subAgent) : k.override = none := by
  cases k with
  | subAgent => exact absurd rfl h
  | _ => rfl

/-- The program fills in neither handler nor tools, and no model but that. -/
theorem fill_capability (k : IrNodeKind) (node : PipelineNode) :
    (k.fill node).id = node.id ∧ (k.fill node).handler = node.handler ∧ (k.fill node).tools = node.tools ∧
      (k.fill node).model = k.override.or node.model := by
  cases k with
  | wait seconds cond timeout => cases seconds <;> cases cond <;> exact ⟨rfl, rfl, rfl, rfl⟩
  | _ => exact ⟨rfl, rfl, rfl, rfl⟩

theorem compileNode_capability (n : IrNode) :
    (compileNode n).id = n.id ∧ (compileNode n).handler = (contractFor n.kind).handler ∧
      (compileNode n).tools = (contractFor n.kind).allowedTools ∧
      (compileNode n).model = n.kind.override.or (contractFor n.kind).model :=
  fill_capability n.kind _

/-- The same ids, edges and kinds. -/
structure SameShape (ir ir' : PipelineIr) : Prop where
  nodes : ir'.nodes.map (fun n => (n.id, n.kind.palette)) = ir.nodes.map (fun n => (n.id, n.kind.palette))
  edges : ir'.edges = ir.edges

/-- The nodes of two graphs may do the same. -/
def SameCapabilities (g g' : PipelineGraph) : Prop :=
  ∀ (x : String) (node node' : PipelineNode), g.nodes[x]? = some node → g'.nodes[x]? = some node' →
    node.handler = node'.handler ∧ node.tools = node'.tools ∧ node.model = node'.model

theorem SameShape.ids {ir ir' : PipelineIr} (h : SameShape ir ir') : ir'.ids = ir.ids := by
  have hfst := congrArg (List.map Prod.fst) h.nodes
  rw [List.map_map, List.map_map] at hfst
  exact hfst

/-- Nodes of the same id have the same kind. -/
theorem SameShape.palette {ir ir' : PipelineIr} (h : SameShape ir ir') (hnd : ir.ids.Nodup) {n n' : IrNode}
    (hn : n ∈ ir.nodes) (hn' : n' ∈ ir'.nodes) (hid : n'.id = n.id) : n'.kind.palette = n.kind.palette := by
  have hmem : (n'.id, n'.kind.palette) ∈ ir.nodes.map (fun n => (n.id, n.kind.palette)) :=
    h.nodes ▸ List.mem_map_of_mem hn'
  obtain ⟨m, hm, heq⟩ := List.mem_map.mp hmem
  obtain ⟨hmid, hpal⟩ := Prod.mk.inj heq
  obtain rfl := List.inj_on_of_nodup_map hnd hm hn (hmid.trans hid)
  exact hpal.symm

/-- The node of a row is that of a program's node. -/
theorem compile_row {ir : PipelineIr} {g : PipelineGraph} (h : compile ir = .ok g) {x : String}
    {node : PipelineNode} (hx : g.nodes[x]? = some node) : ∃ n ∈ ir.nodes, n.id = x ∧ node = compileNode n := by
  obtain ⟨hproper, rfl⟩ := compile_iff.mp h
  by_cases hmem : x ∈ ir.ids
  · obtain ⟨n, hn, rfl⟩ := List.mem_map.mp hmem
    exact ⟨n, hn, rfl, Option.some.inj (hx.symm.trans (nodeTable_get ir.nodes ∅ hproper.unique hn))⟩
  · have hnone := nodeTable_other ir.nodes ∅ hmem
    rw [Std.ExtTreeMap.getElem?_empty] at hnone
    exact absurd (hx.symm.trans hnone) (Option.some_ne_none _)

theorem compile_get {ir : PipelineIr} {g : PipelineGraph} (h : compile ir = .ok g) {n : IrNode}
    (hn : n ∈ ir.nodes) : g.nodes[n.id]? = some (compileNode n) := by
  obtain ⟨hproper, rfl⟩ := compile_iff.mp h
  exact nodeTable_get ir.nodes ∅ hproper.unique hn

/-- The program with another model named wherever one may be. -/
def IrNode.withModel (model : String) (n : IrNode) : IrNode :=
  match n.kind with
  | .subAgent task tools _ => { n with kind := .subAgent task tools (some model) }
  | _ => n

theorem IrNode.withModel_shape (model : String) (n : IrNode) :
    ((n.withModel model).id, (n.withModel model).kind.palette) = (n.id, n.kind.palette) := by
  obtain ⟨id, kind⟩ := n
  cases kind <;> rfl

/-- With a sub-agent node, another program of the same shape has other
capabilities. -/
theorem subAgent_unlocked {ir : PipelineIr} {g : PipelineGraph} (h : compile ir = .ok g) {n : IrNode}
    (hn : n ∈ ir.nodes) (hsub : n.kind.palette = .subAgent) :
    ∃ ir' g', SameShape ir ir' ∧ compile ir' = .ok g' ∧ ¬SameCapabilities g g' := by
  obtain ⟨hproper, rfl⟩ := compile_iff.mp h
  obtain ⟨model, hmodel⟩ : ∃ model, (compileNode n).model = some model := by
    obtain ⟨id, kind⟩ := n
    cases kind with
    | subAgent task tools override => cases override <;> exact ⟨_, rfl⟩
    | _ => cases hsub
  -- any name but the one the node has
  have hshape : SameShape ir { ir with nodes := ir.nodes.map (IrNode.withModel (model ++ "x")) } := by
    refine ⟨?_, rfl⟩
    rw [List.map_map]
    exact List.map_congr_left (fun m _ => IrNode.withModel_shape _ m)
  have hproper' : PipelineIr.Proper { ir with nodes := ir.nodes.map (IrNode.withModel (model ++ "x")) } :=
    ⟨hshape.ids ▸ hproper.unique, hshape.ids ▸ hproper.edges⟩
  refine ⟨_, _, hshape, compile_iff.mpr ⟨hproper', rfl⟩, ?_⟩
  intro hsame
  have hrow := nodeTable_get (ir.nodes.map (IrNode.withModel (model ++ "x"))) ∅ hproper'.unique
    (List.mem_map_of_mem hn)
  have hid : (n.withModel (model ++ "x")).id = n.id := (Prod.mk.inj (IrNode.withModel_shape _ n)).1
  rw [hid] at hrow
  have heq := (hsame n.id _ _ (nodeTable_get ir.nodes ∅ hproper.unique hn) hrow).2.2
  have hother : (compileNode (n.withModel (model ++ "x"))).model = some (model ++ "x") := by
    obtain ⟨id, kind⟩ := n
    cases kind with
    | subAgent => rfl
    | _ => cases hsub
  rw [hmodel, hother] at heq
  have hlen := congrArg String.length (Option.some.inj heq)
  rw [String.length_append] at hlen
  have hx : "x".length = 1 := rfl
  omega

/-- **The capability lock.**  The graph of a program that compiles has the ids of
the program and, in order, its edges, and handler and tools of every node are
those of its kind's contract.  The model is the contract's unless the program
names another one, which only a sub-agent node may.  So programs of the same ids,
edges and kinds compile to the same capabilities exactly when there is no
sub-agent node. -/
theorem capability_lock_iff {ir : PipelineIr} {g : PipelineGraph} (h : compile ir = .ok g) :
    (∀ x, (∃ node, g.nodes[x]? = some node) ↔ x ∈ ir.ids) ∧
    List.Forall₂ (fun e e' => e'.source = e.source ∧ e'.target = e.target ∧ e'.condition = e.condition ∧
      (e'.label = some "back_edge" ↔ e.backEdge = true)) ir.edges g.edges ∧
    (∀ n ∈ ir.nodes, ∃ node, g.nodes[n.id]? = some node ∧ node.id = n.id ∧
      node.handler = (contractFor n.kind).handler ∧ node.tools = (contractFor n.kind).allowedTools ∧
      (node.model = (contractFor n.kind).model ↔
        n.kind.override = none ∨ n.kind.override = (contractFor n.kind).model)) ∧
    ((∀ ir' g', SameShape ir ir' → compile ir' = .ok g' → SameCapabilities g g') ↔
      ∀ n ∈ ir.nodes, n.kind.palette ≠ .subAgent) := by
  obtain ⟨hproper, hg⟩ := compile_iff.mp h
  refine ⟨?_, ?_, ?_, ?_⟩
  · intro x
    constructor
    · rintro ⟨node, hx⟩
      obtain ⟨n, hn, rfl, -⟩ := compile_row h hx
      exact List.mem_map_of_mem hn
    · intro hx
      obtain ⟨n, hn, rfl⟩ := List.mem_map.mp hx
      exact ⟨_, compile_get h hn⟩
  · rw [hg, List.forall₂_map_right_iff]
    refine List.forall₂_same.mpr ?_
    intro e _
    refine ⟨rfl, rfl, rfl, ?_⟩
    show (if e.backEdge then some "back_edge" else none) = some "back_edge" ↔ _
    cases e.backEdge <;> simp
  · intro n hn
    obtain ⟨hid, hhandler, htools, hmodel⟩ := compileNode_capability n
    refine ⟨compileNode n, compile_get h hn, hid, hhandler, htools, ?_⟩
    rw [hmodel]
    cases n.kind.override <;> simp
  · constructor
    · intro hlocked n hn hsub
      obtain ⟨ir', g', hshape, hg', hdiff⟩ := subAgent_unlocked h hn hsub
      exact hdiff (hlocked ir' g' hshape hg')
    · intro hnone ir' g' hshape hg' x node node' hx hx'
      obtain ⟨n, hn, rfl, rfl⟩ := compile_row h hx
      obtain ⟨n', hn', hid, rfl⟩ := compile_row hg' hx'
      have hpal := hshape.palette hproper.unique hn hn' hid
      obtain ⟨-, hhandler, htools, hmodel⟩ := compileNode_capability n
      obtain ⟨-, hhandler', htools', hmodel'⟩ := compileNode_capability n'
      have hover := IrNodeKind.override_palette (hnone n hn)
      have hover' := IrNodeKind.override_palette (hpal ▸ hnone n hn)
      rw [contractFor_palette hpal] at hhandler' htools' hmodel'
      rw [hhandler, hhandler', htools, htools', hmodel, hmodel', hover, hover']
      exact ⟨rfl, rfl, rfl⟩

/-- A search, and a report that may send it back. -/
def searchAndReport : PipelineIr :=
  { id := "demo"
    nodes := [⟨"r", .research "find" none none⟩, ⟨"s", .report "write" none none⟩]
    edges := [⟨"r", "s", none, false⟩, ⟨"s", "r", some "outcome.contains(\"retry\")", true⟩] }

theorem capability_lock_search_and_report :
    ∃ g, compile searchAndReport = .ok g ∧
      ∀ ir' g', SameShape searchAndReport ir' → compile ir' = .ok g' → SameCapabilities g g' := by
  have hproper : searchAndReport.Proper := ⟨by decide, by decide⟩
  have hcompile := compile_iff.mpr ⟨hproper, rfl⟩
  refine ⟨_, hcompile, (capability_lock_iff hcompile).2.2.2.mpr ?_⟩
  intro n hn
  simp only [searchAndReport, List.mem_cons, List.not_mem_nil, or_false] at hn
  rcases hn with rfl | rfl
  · exact fun h => nomatch h
  · exact fun h => nomatch h

/-- **The lock is open in one place**: a sub-agent node runs on the model that the
program names. -/
theorem subAgent_takes_its_model :
    ¬∀ ir g, compile ir = .ok g → ∀ n ∈ ir.nodes, ∀ node, g.nodes[n.id]? = some node →
      node.handler = (contractFor n.kind).handler ∧ node.tools = (contractFor n.kind).allowedTools ∧
        node.model = (contractFor n.kind).model := by
  intro hclaim
  have hproper : PipelineIr.Proper { id := "p", nodes := [⟨"n", .subAgent "look" none (some "opus")⟩] } :=
    ⟨by decide, by decide⟩
  have hcompile := compile_iff.mpr ⟨hproper, rfl⟩
  have hmodel := (hclaim _ _ hcompile _ List.mem_cons_self _ (compile_get hcompile List.mem_cons_self)).2.2
  exact absurd hmodel (by decide)

end Octos.Pipeline
