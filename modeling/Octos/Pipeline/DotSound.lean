/-
# `Octos.Pipeline.DotSound` — what the parser accepts is well formed

Two facts about every input.  The loops of the parser never run out of fuel
(`parseDot_fuel`): each turn reads at least one character.  And a graph that is
answered is well formed (`parseDot_wellFormed`), whatever the order and nesting of
the statements was.

The second one is an invariant of the graph under construction: while edges are
being read, an id may be mentioned by an edge only, and the nodes for those ids
come at the very end.
-/
import Octos.Pipeline.Dot

namespace Octos.Pipeline

open Text

/-! ## Fuel -/

section Fuel

variable {α β : Type} {rest : α → List Char} {rest' : β → List Char} {n m : Nat} {env : DotEnv}
  {size : Nat} {input : List Char}

/-- At most `n` characters are left, and the fuel was enough. -/
def Within (rest : α → List Char) (n : Nat) : Except DotError α → Prop
  | .ok a => (rest a).length ≤ n
  | .error e => e ≠ .outOfFuel

theorem Within.bind {r : Except DotError α} {f : α → Except DotError β} (h : Within rest n r)
    (hf : ∀ a, (rest a).length ≤ n → Within rest' m (f a)) : Within rest' m (r >>= f) := by
  cases r with
  | error e => exact h
  | ok a => exact hf a h

theorem Within.mono {r : Except DotError α} (h : Within rest n r) (hle : n ≤ m) :
    Within rest m r := by
  cases r with
  | error e => exact h
  | ok a => exact le_trans h hle

theorem skip_length : ∀ (input : List Char) (mode : Skipping),
    (skip mode input).length ≤ input.length := by
  intro input
  induction input with
  | nil =>
      intro mode
      cases mode <;> exact le_refl _
  | cons ch rest ih =>
      intro mode
      have hnext : ∀ mode, (skip mode rest).length ≤ (ch :: rest).length :=
        fun mode => (ih mode).trans (Nat.le_succ _)
      cases mode with
      | blanks =>
          rw [skip]
          split
          · exact hnext _
          · split
            · exact hnext _
            · split
              · exact hnext _
              · exact le_refl _
      | line =>
          rw [skip]
          split <;> exact hnext _
      | opening => exact hnext _
      | block =>
          rw [skip]
          split <;> exact hnext _
      | closing => exact hnext _

theorem skipWs_length (input : List Char) : (skipWs input).length ≤ input.length :=
  skip_length input .blanks

theorem skipOptionalSemicolon_length (input : List Char) :
    (skipOptionalSemicolon input).length ≤ input.length := by
  have hskip := skipWs_length input
  rw [skipOptionalSemicolon]
  split
  · next rest hrest =>
      rw [hrest, List.length_cons] at hskip
      omega
  · exact hskip

/-- A word takes a character at least. -/
theorem parseWord_within {isWord : Char → Bool} {e : DotError} (he : e ≠ .outOfFuel)
    (hn : input.length ≤ n + 1) : Within Prod.snd n (parseWord isWord e input) := by
  have hlen := congrArg List.length (List.takeWhile_append_dropWhile (p := isWord) (l := input))
  rw [List.length_append] at hlen
  rw [parseWord]
  split
  · exact he
  · next hne =>
      have := List.length_pos_of_ne_nil hne
      show (input.dropWhile isWord).length ≤ n
      omega

theorem tryKeyword_length {kw : String} {after : List Char}
    (h : tryKeyword env kw input = some after) : after.length < input.length := by
  have hword : Within Prod.snd (input.length - 1)
      (parseIdentifier env .expectedNode input) := parseWord_within (by decide) (by omega)
  rw [tryKeyword] at h
  split at h
  · next id tail hparse =>
      rw [hparse] at hword
      have hle : tail.length ≤ input.length - 1 := hword
      split at h
      · obtain rfl := Option.some.inj h
        have hpos : input ≠ [] := by
          rintro rfl
          cases hparse
        have := List.length_pos_of_ne_nil hpos
        omega
      · cases h
  · cases h

theorem expectChar_within {ch : Char} {e : DotError} (he : e ≠ .outOfFuel)
    (hn : input.length ≤ n + 1) : Within id n (expectChar ch e input) := by
  rw [expectChar.eq_def]
  split
  · split
    · rw [List.length_cons] at hn
      exact Nat.le_of_succ_le_succ hn
    · exact he
  · exact he

theorem parseQuotedString_within : ∀ (input : List Char),
    Within Prod.snd input.length (parseQuotedString input) := by
  intro input
  fun_induction parseQuotedString input with
  | case1 => exact nofun
  | case2 rest => exact Nat.le_succ _
  | case3 => exact nofun
  | case4 ch rest ih =>
      refine ih.bind ?_
      rintro ⟨text, tail⟩ htail
      have hle : tail.length ≤ ('\\' :: ch :: rest).length := by
        simp only [List.length_cons]
        exact htail.trans (by omega)
      dsimp only
      split <;> exact hle
  | case5 ch rest _ _ _ ih =>
      refine ih.bind ?_
      rintro ⟨text, tail⟩ htail
      exact htail.trans (Nat.le_succ _)

theorem parseValue_within (hn : input.length ≤ n) : Within Prod.snd n (parseValue env size input) := by
  rw [parseValue.eq_def]
  split
  · next rest =>
      refine (parseQuotedString_within rest).bind ?_
      rintro ⟨text, tail⟩ htail
      rw [List.length_cons] at hn
      exact htail.trans (by omega)
  · exact parseWord_within nofun (by omega)

theorem attributeLoop_within : ∀ {fuel : Nat} {input : List Char} {attrs : Attributes},
    input.length < fuel →
    Within Prod.snd input.length (attributeLoop env size fuel input attrs) := by
  intro fuel
  induction fuel with
  | zero => intro input attrs h; omega
  | succ fuel ih =>
      intro input attrs h
      have hskip := skipWs_length input
      -- a recursive call on what is shorter
      have hnext : ∀ {tail : List Char} {attrs : Attributes}, tail.length < input.length →
          Within Prod.snd input.length (attributeLoop env size fuel tail attrs) := by
        intro tail attrs htail
        exact (ih (by omega)).mono (by omega)
      rw [attributeLoop]
      split
      · exact nofun
      · next tail hrest =>
          rw [hrest, List.length_cons] at hskip
          show tail.length ≤ _
          omega
      · next tail hrest =>
          rw [hrest, List.length_cons] at hskip
          exact hnext (by omega)
      · next tail hrest =>
          rw [hrest, List.length_cons] at hskip
          exact hnext (by omega)
      · next hne _ _ _ =>
          have hpos : 0 < (skipWs input).length := List.length_pos_of_ne_nil hne
          have hkey : Within Prod.snd (input.length - 1)
              (parseIdentifier env .expectedAttributeName (skipWs input)) :=
            parseWord_within nofun (by omega)
          refine hkey.bind ?_
          rintro ⟨key, tail⟩ (htail : tail.length ≤ _)
          have htail' := skipWs_length tail
          have heq : Within id (input.length - 1) (expectChar '=' .expectedEquals (skipWs tail)) :=
            expectChar_within nofun (by omega)
          refine heq.bind ?_
          intro tail (htail : tail.length ≤ _)
          have htail' := skipWs_length tail
          have hvalue : Within Prod.snd (input.length - 1) (parseValue env size (skipWs tail)) :=
            parseValue_within (by omega)
          refine hvalue.bind ?_
          rintro ⟨value, tail⟩ (htail : tail.length ≤ _)
          exact hnext (by omega)

theorem parseAttributes_within (hn : input.length ≤ n) :
    Within Prod.snd n (parseAttributes env size input) := by
  rw [parseAttributes.eq_def]
  split
  · next tail =>
      rw [List.length_cons] at hn
      exact (attributeLoop_within (Nat.lt_succ_self _)).mono (by omega)
  · exact hn

theorem chainLoop_within : ∀ {fuel : Nat} {input : List Char}, input.length < fuel →
    Within Prod.snd input.length (chainLoop env fuel input) := by
  intro fuel
  induction fuel with
  | zero => intro input h; omega
  | succ fuel ih =>
      intro input h
      have hskip := skipWs_length input
      have hnext : Within Prod.snd input.length
          (parseIdentifier env .expectedNodeAfterArrow (skipWs input)) :=
        parseWord_within nofun (by omega)
      rw [chainLoop]
      refine hnext.bind ?_
      rintro ⟨next, tail⟩ (htail : tail.length ≤ _)
      have htail' := skipWs_length tail
      dsimp only
      split
      · next after hafter =>
          rw [hafter] at htail'
          simp only [List.length_cons] at htail'
          have hchain : Within Prod.snd after.length (chainLoop env fuel after) := ih (by omega)
          refine hchain.bind ?_
          rintro ⟨ids, last⟩ (hlast : last.length ≤ _)
          show last.length ≤ _
          omega
      · show (skipWs tail).length ≤ _
        omega

theorem parseEdgeChain_within {graph : PipelineGraph} {first : String} (hn : input.length ≤ n) :
    Within (fun r => r.2.2) n (parseEdgeChain env size graph first input) := by
  have hchain : Within Prod.snd input.length (chainLoop env (input.length + 1) input) :=
    chainLoop_within (Nat.lt_succ_self _)
  rw [parseEdgeChain]
  refine hchain.bind ?_
  rintro ⟨ids, tail⟩ (htail : tail.length ≤ _)
  have htail' := skipWs_length tail
  have hattrs : Within Prod.snd n (parseAttributes env size (skipWs tail)) :=
    parseAttributes_within (by omega)
  refine hattrs.bind ?_
  rintro ⟨attrs, last⟩ hlast
  exact hlast

/-- A statement of a subgraph takes a character at least. -/
theorem subgraphStatement_within {s : OpenSubgraph} (hn : input.length ≤ n + 1) :
    Within Prod.snd n (subgraphStatement env size s input) := by
  have hdone : ∀ {s : OpenSubgraph} {last : List Char}, last.length ≤ n →
      Within Prod.snd n
        (pure (s, skipOptionalSemicolon last) : Except DotError (OpenSubgraph × List Char)) := by
    intro s last hlast
    exact (skipOptionalSemicolon_length last).trans hlast
  rw [subgraphStatement]
  split
  · next tail hkeyword =>
      have htail := tryKeyword_length hkeyword
      have htail' := skipWs_length tail
      have hattrs : Within Prod.snd n (parseAttributes env size (skipWs tail)) :=
        parseAttributes_within (by omega)
      refine hattrs.bind ?_
      rintro ⟨attrs, last⟩ hlast
      exact hdone hlast
  · have hfirst : Within Prod.snd n (parseIdentifier env .expectedNodeInSubgraph input) :=
      parseWord_within nofun hn
    refine hfirst.bind ?_
    rintro ⟨first, tail⟩ (htail : tail.length ≤ _)
    have htail' := skipWs_length tail
    dsimp only
    split
    · next after hafter =>
        rw [hafter] at htail'
        simp only [List.length_cons] at htail'
        have hchain : Within (fun r => r.2.2) n (parseEdgeChain env size s.graph first after) :=
          parseEdgeChain_within (by omega)
        refine hchain.bind ?_
        rintro ⟨graph, chain, last⟩ hlast
        exact hdone hlast
    · have hattrs : Within Prod.snd n (parseAttributes env size (skipWs tail)) :=
        parseAttributes_within (by omega)
      refine hattrs.bind ?_
      rintro ⟨attrs, last⟩ hlast
      exact hdone hlast

theorem subgraphLoop_within {sub : String} : ∀ {fuel : Nat} {input : List Char} {s : OpenSubgraph},
    input.length < fuel → Within Prod.snd input.length (subgraphLoop env size sub fuel input s) := by
  intro fuel
  induction fuel with
  | zero => intro input s h; omega
  | succ fuel ih =>
      intro input s h
      have hskip := skipWs_length input
      rw [subgraphLoop]
      split
      · exact nofun
      · next tail hrest =>
          rw [hrest, List.length_cons] at hskip
          show tail.length ≤ _
          omega
      · next hne _ =>
          have hpos : 0 < (skipWs input).length := List.length_pos_of_ne_nil hne
          have hstatement : Within Prod.snd (input.length - 1)
              (subgraphStatement env size s (skipWs input)) := subgraphStatement_within (by omega)
          refine hstatement.bind ?_
          rintro ⟨s, last⟩ (hlast : last.length ≤ _)
          exact (ih (show last.length < fuel by omega)).mono (show last.length ≤ _ by omega)

theorem parseSubgraph_within {graph : PipelineGraph} (hn : input.length ≤ n) :
    Within Prod.snd n (parseSubgraph env size graph input) := by
  have hskip := skipWs_length input
  have hname : Within Prod.snd n (parseIdentifier env .expectedSubgraphName (skipWs input)) :=
    parseWord_within nofun (by omega)
  rw [parseSubgraph]
  refine hname.bind ?_
  rintro ⟨name, tail⟩ (htail : tail.length ≤ _)
  have htail' := skipWs_length tail
  have hbrace : Within id n (expectChar '{' .expectedSubgraphBrace (skipWs tail)) :=
    expectChar_within nofun (by omega)
  refine hbrace.bind ?_
  intro tail (htail : tail.length ≤ _)
  exact (subgraphLoop_within (Nat.lt_succ_self _)).mono htail

theorem skipBareValue_within (hn : input.length ≤ n) : Within id n (skipBareValue env input) := by
  rw [skipBareValue.eq_def]
  split
  · next tail =>
      refine (parseQuotedString_within tail).bind ?_
      rintro ⟨text, last⟩ hlast
      rw [List.length_cons] at hn
      exact hlast.trans (by omega)
  · split
    · next word tail hword =>
        have hle : Within Prod.snd n (parseIdentifier env .expectedNode input) :=
          parseWord_within nofun (by omega)
        rw [hword] at hle
        exact hle
    · exact hn

/-- A statement takes a character at least. -/
theorem parseStatement_within {graph : PipelineGraph} (hn : input.length ≤ n + 1) :
    Within Prod.snd n (parseStatement env size graph input) := by
  have hdone : ∀ {graph : PipelineGraph} {last : List Char}, last.length ≤ n →
      Within Prod.snd n
        (pure (graph, skipOptionalSemicolon last) : Except DotError (PipelineGraph × List Char)) := by
    intro graph last hlast
    exact (skipOptionalSemicolon_length last).trans hlast
  rw [parseStatement]
  split
  · next tail hkeyword =>
      have htail := tryKeyword_length hkeyword
      have htail' := skipWs_length tail
      have hattrs : Within Prod.snd n (parseAttributes env size (skipWs tail)) :=
        parseAttributes_within (by omega)
      refine hattrs.bind ?_
      rintro ⟨attrs, last⟩ hlast
      exact hdone hlast
  · split
    · next tail hkeyword =>
        have htail := tryKeyword_length hkeyword
        have hsub : Within Prod.snd n (parseSubgraph env size graph tail) :=
          parseSubgraph_within (by omega)
        refine hsub.bind ?_
        rintro ⟨graph, last⟩ hlast
        exact hdone hlast
    · have hfirst : Within Prod.snd n (parseIdentifier env .expectedNode input) :=
        parseWord_within nofun hn
      refine hfirst.bind ?_
      rintro ⟨first, tail⟩ (htail : tail.length ≤ _)
      have htail' := skipWs_length tail
      dsimp only
      split
      · next after hafter =>
          rw [hafter] at htail'
          simp only [List.length_cons] at htail'
          have hchain : Within (fun r => r.2.2) n (parseEdgeChain env size graph first after) :=
            parseEdgeChain_within (by omega)
          refine hchain.bind ?_
          rintro ⟨graph, chain, last⟩ hlast
          exact hdone hlast
      · next after hafter =>
          rw [hafter, List.length_cons] at htail'
          have hafter' := skipWs_length after
          have hbare : Within id n (skipBareValue env (skipWs after)) :=
            skipBareValue_within (by omega)
          refine hbare.bind ?_
          intro last hlast
          exact hdone hlast
      · have hattrs : Within Prod.snd n (parseAttributes env size (skipWs tail)) :=
          parseAttributes_within (by omega)
        refine hattrs.bind ?_
        rintro ⟨attrs, last⟩ hlast
        exact hdone hlast

/-- The fuel was enough. -/
def Fuelled (r : Except DotError α) : Prop :=
  r ≠ .error .outOfFuel

theorem Within.fuelled {r : Except DotError α} {f : α → Except DotError β} (h : Within rest n r)
    (hf : ∀ a, (rest a).length ≤ n → Fuelled (f a)) : Fuelled (r >>= f) := by
  cases r with
  | error e =>
      intro heq
      exact h (Except.error.inj heq)
  | ok a => exact hf a h

theorem statementLoop_fuelled : ∀ {fuel : Nat} {input : List Char} {graph : PipelineGraph},
    input.length < fuel → Fuelled (statementLoop env size fuel input graph) := by
  intro fuel
  induction fuel with
  | zero => intro input graph h; omega
  | succ fuel ih =>
      intro input graph h
      have hskip := skipWs_length input
      rw [statementLoop]
      split
      · exact nofun
      · exact nofun
      · next hne _ =>
          have hpos : 0 < (skipWs input).length := List.length_pos_of_ne_nil hne
          have hstatement : Within Prod.snd (input.length - 1)
              (parseStatement env size graph (skipWs input)) := parseStatement_within (by omega)
          refine hstatement.fuelled ?_
          rintro ⟨graph, tail⟩ (htail : tail.length ≤ _)
          exact ih (by omega)

theorem parseHeader_within : Within Prod.snd input.length (parseHeader env input) := by
  have hskip := skipWs_length input
  rw [parseHeader]
  split
  · exact nofun
  · next tail hkeyword =>
      have htail := tryKeyword_length hkeyword
      have htail' := skipWs_length tail
      have hname : Within Prod.snd input.length (parseGraphName env (skipWs tail)) := by
        rw [parseGraphName.eq_def]
        split
        · next last hlast =>
            rw [hlast] at htail'
            show ('{' :: last).length ≤ _
            omega
        · exact parseWord_within nofun (by omega)
      refine hname.bind ?_
      rintro ⟨name, last⟩ (hlast : last.length ≤ _)
      have hlast' := skipWs_length last
      have hbrace : Within id input.length (expectChar '{' .expectedBrace (skipWs last)) :=
        expectChar_within nofun (by omega)
      refine hbrace.bind ?_
      intro last hlast
      exact hlast

/-- **The loops never run out of fuel.** -/
theorem parseDot_fuel (env : DotEnv) (input : String) :
    parseDot env input ≠ .error .outOfFuel := by
  show Fuelled (parseDot env input)
  rw [parseDot]
  refine parseHeader_within.fuelled ?_
  rintro ⟨name, tail⟩ _
  have hloop : Fuelled (statementLoop env (utf8Length input.toList) (tail.length + 1) tail
      (emptyGraph (boundGraphId name))) := statementLoop_fuelled (Nat.lt_succ_self _)
  intro heq
  dsimp only at heq
  rcases bind_error.mp heq with herr | ⟨graph, _, herr⟩
  · exact hloop herr
  · cases herr

end Fuel

/-! ## The graph under construction -/

section Building

variable {g g' : PipelineGraph} {env : DotEnv} {size : Nat} {input last : List Char}

/-- A node, or an end of an edge. -/
def Mentioned (g : PipelineGraph) (x : String) : Prop :=
  g.hasNode x = true ∨ ∃ e ∈ g.edges, e.source = x ∨ e.target = x

/-- Every node comes from a list of attributes, under its own id. -/
def Built (env : DotEnv) (nodes : Table String PipelineNode) : Prop :=
  ∀ (x : String) (node : PipelineNode), nodes[x]? = some node →
    ∃ attrs, node = buildNode env x attrs

structure Coherent (env : DotEnv) (g : PipelineGraph) : Prop where
  built : Built env g.nodes
  members : ∀ sub ∈ g.subgraphs, ∀ x ∈ sub.nodeIds, Mentioned g x

/-- What a statement does. -/
structure Builds (env : DotEnv) (g g' : PipelineGraph) : Prop where
  sameId : g'.id = g.id
  mentions : ∀ x, Mentioned g x → Mentioned g' x
  coherent : Coherent env g → Coherent env g'

theorem Builds.trans {g'' : PipelineGraph} (h : Builds env g g') (h' : Builds env g' g'') :
    Builds env g g'' where
  sameId := h'.sameId.trans h.sameId
  mentions x hx := h'.mentions x (h.mentions x hx)
  coherent hg := h'.coherent (h.coherent hg)

theorem hasNode_iff {x : String} : g.hasNode x = true ↔ ∃ node, g.nodes[x]? = some node :=
  Option.isSome_iff_exists

theorem declareNode_builds {id : String} {attrs : Attributes} :
    Builds env g (declareNode env id attrs g) := by
  have hmentions : ∀ x, Mentioned g x → Mentioned (declareNode env id attrs g) x := by
    rintro x (hnode | hedge)
    · exact Or.inl (hasNode_iff.mpr (Table.exists_insert _ _ (hasNode_iff.mp hnode)))
    · exact Or.inr hedge
  refine ⟨rfl, hmentions, ?_⟩
  intro hg
  constructor
  · intro x node hx
    rcases Table.of_get_insert hx with ⟨rfl, rfl⟩ | ⟨_, hold⟩
    · exact ⟨attrs, rfl⟩
    · exact hg.built x node hold
  · intro sub hsub x hx
    exact hmentions x (hg.members sub hsub x hx)

theorem declareNode_mentions {id : String} {attrs : Attributes} :
    Mentioned (declareNode env id attrs g) id :=
  Or.inl (hasNode_iff.mpr ⟨_, Table.get_insert_self _ _ _⟩)

theorem edges_builds {edges : List PipelineEdge} :
    Builds env g { g with edges := g.edges ++ edges } := by
  have hmentions : ∀ x, Mentioned g x → Mentioned { g with edges := g.edges ++ edges } x := by
    rintro x (hnode | ⟨e, he, hx⟩)
    · exact Or.inl hnode
    · exact Or.inr ⟨e, List.mem_append_left _ he, hx⟩
  exact ⟨rfl, hmentions, fun hg =>
    ⟨hg.built, fun sub hsub x hx => hmentions x (hg.members sub hsub x hx)⟩⟩

theorem applyGraphAttrs_builds {attrs : Attributes} : Builds env g (applyGraphAttrs attrs g) :=
  ⟨rfl, fun _ hx => hx, fun hg => ⟨hg.built, hg.members⟩⟩

theorem subgraph_builds {sub : Subgraph} (h : ∀ x ∈ sub.nodeIds, Mentioned g x) :
    Builds env g { g with subgraphs := g.subgraphs ++ [sub] } := by
  refine ⟨rfl, fun _ hx => hx, ?_⟩
  intro hg
  refine ⟨hg.built, ?_⟩
  intro sub' hsub' x hx
  rcases List.mem_append.mp hsub' with hold | hnew
  · exact hg.members sub' hold x hx
  · obtain rfl := List.mem_singleton.mp hnew
    exact h x hx

/-! ## Edge chains -/

theorem chainLoop_ne_nil : ∀ {fuel : Nat} {input last : List Char} {ids : List String},
    chainLoop env fuel input = .ok (ids, last) → ids ≠ [] := by
  intro fuel
  cases fuel with
  | zero => intro input last ids h; cases h
  | succ fuel =>
      intro input last ids h
      rw [chainLoop] at h
      obtain ⟨⟨next, tail⟩, _, h⟩ := bind_ok.mp h
      dsimp only at h
      split at h
      · obtain ⟨⟨more, tail⟩, _, h⟩ := bind_ok.mp h
        obtain ⟨rfl, rfl⟩ := Prod.mk.inj (pure_ok.mp h)
        exact List.cons_ne_nil _ _
      · obtain ⟨rfl, rfl⟩ := Prod.mk.inj (pure_ok.mp h)
        exact List.cons_ne_nil _ _

/-- Every id of a chain ends one of its edges. -/
theorem chainEdges_mentions {attrs : Attributes} : ∀ {ids : List String} {first : String},
    ids ≠ [] → ∀ x ∈ first :: ids,
      ∃ e ∈ chainEdges env attrs first ids, e.source = x ∨ e.target = x := by
  intro ids
  induction ids with
  | nil => intro first hne; exact absurd rfl hne
  | cons next ids ih =>
      intro first _ x hx
      rw [chainEdges]
      rcases List.mem_cons.mp hx with rfl | hx
      · exact ⟨_, List.mem_cons_self, Or.inl rfl⟩
      · rcases List.mem_cons.mp hx with rfl | hmore
        · exact ⟨_, List.mem_cons_self, Or.inr rfl⟩
        · obtain ⟨e, he, hends⟩ := ih (List.ne_nil_of_mem hmore) x hx
          exact ⟨e, List.mem_cons_of_mem _ he, hends⟩

theorem parseEdgeChain_builds {first : String} {chain : List String}
    (h : parseEdgeChain env size g first input = .ok (g', chain, last)) :
    Builds env g g' ∧ ∀ x ∈ chain, Mentioned g' x := by
  rw [parseEdgeChain] at h
  obtain ⟨⟨ids, tail⟩, hchain, h⟩ := bind_ok.mp h
  obtain ⟨⟨attrs, tail⟩, _, h⟩ := bind_ok.mp h
  obtain ⟨rfl, hpair⟩ := Prod.mk.inj (pure_ok.mp h)
  obtain ⟨rfl, rfl⟩ := Prod.mk.inj hpair
  refine ⟨edges_builds, ?_⟩
  intro x hx
  obtain ⟨e, he, hends⟩ := chainEdges_mentions (chainLoop_ne_nil hchain) x hx
  exact Or.inr ⟨e, List.mem_append_right _ he, hends⟩

/-! ## Subgraphs -/

theorem mem_addMembers {ids : List String} : ∀ {members : List String} {x : String},
    x ∈ addMembers members ids ↔ x ∈ members ∨ x ∈ ids := by
  induction ids with
  | nil =>
      intro members x
      show x ∈ members ↔ _
      simp
  | cons id ids ih =>
      intro members x
      show x ∈ addMembers (if id ∈ members then members else members ++ [id]) ids ↔ _
      rw [ih, List.mem_cons, ← or_assoc]
      refine or_congr_left ?_
      split
      · next hmem =>
          refine ⟨Or.inl, ?_⟩
          rintro (hx | rfl)
          · exact hx
          · exact hmem
      · rw [List.mem_append, List.mem_singleton]

theorem subgraphStatement_builds {s s' : OpenSubgraph} (hmembers : ∀ x ∈ s.members, Mentioned s.graph x)
    (h : subgraphStatement env size s input = .ok (s', last)) :
    Builds env s.graph s'.graph ∧ ∀ x ∈ s'.members, Mentioned s'.graph x := by
  rw [subgraphStatement] at h
  split at h
  · obtain ⟨⟨attrs, tail⟩, _, h⟩ := bind_ok.mp h
    obtain ⟨rfl, rfl⟩ := Prod.mk.inj (pure_ok.mp h)
    exact ⟨⟨rfl, fun _ hx => hx, fun hg => hg⟩, hmembers⟩
  · obtain ⟨⟨first, tail⟩, _, h⟩ := bind_ok.mp h
    dsimp only at h
    split at h
    · obtain ⟨⟨g₁, chain, tail⟩, hchain, h⟩ := bind_ok.mp h
      obtain ⟨rfl, rfl⟩ := Prod.mk.inj (pure_ok.mp h)
      obtain ⟨hbuilds, hchain⟩ := parseEdgeChain_builds hchain
      refine ⟨hbuilds, ?_⟩
      intro x hx
      rcases mem_addMembers.mp hx with hx | hx
      · exact hbuilds.mentions x (hmembers x hx)
      · exact hchain x hx
    · obtain ⟨⟨attrs, tail⟩, _, h⟩ := bind_ok.mp h
      obtain ⟨rfl, rfl⟩ := Prod.mk.inj (pure_ok.mp h)
      refine ⟨declareNode_builds, ?_⟩
      intro x hx
      rcases mem_addMembers.mp hx with hx | hx
      · exact declareNode_builds.mentions x (hmembers x hx)
      · obtain rfl := List.mem_singleton.mp hx
        exact declareNode_mentions

theorem subgraphLoop_builds {sub : String} : ∀ {fuel : Nat} {input last : List Char}
    {s : OpenSubgraph} {g' : PipelineGraph}, (∀ x ∈ s.members, Mentioned s.graph x) →
    subgraphLoop env size sub fuel input s = .ok (g', last) → Builds env s.graph g' := by
  intro fuel
  induction fuel with
  | zero => intro input last s g' _ h; cases h
  | succ fuel ih =>
      intro input last s g' hmembers h
      rw [subgraphLoop] at h
      split at h
      · cases h
      · obtain ⟨rfl, rfl⟩ := Prod.mk.inj (Except.ok.inj h)
        exact subgraph_builds hmembers
      · obtain ⟨⟨s₁, tail⟩, hstatement, h⟩ := bind_ok.mp h
        obtain ⟨hbuilds, hmembers₁⟩ := subgraphStatement_builds hmembers hstatement
        exact hbuilds.trans (ih hmembers₁ h)

theorem parseSubgraph_builds (h : parseSubgraph env size g input = .ok (g', last)) :
    Builds env g g' := by
  rw [parseSubgraph] at h
  obtain ⟨⟨name, tail⟩, _, h⟩ := bind_ok.mp h
  obtain ⟨tail, _, h⟩ := bind_ok.mp h
  have hnone : ∀ x ∈ ([] : List String), Mentioned g x := fun _ hx => absurd hx List.not_mem_nil
  exact subgraphLoop_builds hnone h

/-! ## Statements -/

theorem parseStatement_builds (h : parseStatement env size g input = .ok (g', last)) :
    Builds env g g' := by
  rw [parseStatement] at h
  split at h
  · obtain ⟨⟨attrs, tail⟩, _, h⟩ := bind_ok.mp h
    obtain ⟨rfl, rfl⟩ := Prod.mk.inj (pure_ok.mp h)
    exact applyGraphAttrs_builds
  · split at h
    · obtain ⟨⟨g₁, tail⟩, hsub, h⟩ := bind_ok.mp h
      obtain ⟨rfl, rfl⟩ := Prod.mk.inj (pure_ok.mp h)
      exact parseSubgraph_builds hsub
    · obtain ⟨⟨first, tail⟩, _, h⟩ := bind_ok.mp h
      dsimp only at h
      split at h
      · obtain ⟨⟨g₁, chain, tail⟩, hchain, h⟩ := bind_ok.mp h
        obtain ⟨rfl, rfl⟩ := Prod.mk.inj (pure_ok.mp h)
        exact (parseEdgeChain_builds hchain).1
      · obtain ⟨tail, _, h⟩ := bind_ok.mp h
        obtain ⟨rfl, rfl⟩ := Prod.mk.inj (pure_ok.mp h)
        exact ⟨rfl, fun _ hx => hx, fun hg => hg⟩
      · obtain ⟨⟨attrs, tail⟩, _, h⟩ := bind_ok.mp h
        obtain ⟨rfl, rfl⟩ := Prod.mk.inj (pure_ok.mp h)
        exact declareNode_builds

theorem statementLoop_builds : ∀ {fuel : Nat} {input : List Char} {g g' : PipelineGraph},
    statementLoop env size fuel input g = .ok g' → Builds env g g' := by
  intro fuel
  induction fuel with
  | zero => intro input g g' h; cases h
  | succ fuel ih =>
      intro input g g' h
      rw [statementLoop] at h
      split at h
      · cases h
      · obtain rfl := Except.ok.inj h
        exact ⟨rfl, fun _ hx => hx, fun hg => hg⟩
      · obtain ⟨⟨g₁, tail⟩, hstatement, h⟩ := bind_ok.mp h
        exact (parseStatement_builds hstatement).trans (ih h)

/-! ## The ends of edges -/

theorem buildNode_empty (id : String) : buildNode env id ∅ = { id } := by
  have hnone : ∀ key : String, (∅ : Attributes)[key]? = none :=
    fun _ => Std.ExtTreeMap.getElem?_empty
  have htools : parseTools ∅ = [] := by rw [parseTools, hnone]
  have hcheckpoints : parseCheckpoints ∅ = [] := by rw [parseCheckpoints, hnone]
  rw [buildNode, htools, hcheckpoints]
  simp only [hnone]
  rfl

theorem ensureNode_spec {nodes : Table String PipelineNode} {id : String} :
    (∀ (x : String), (∃ node, nodes[x]? = some node) → ∃ node, (ensureNode nodes id)[x]? = some node) ∧
      (∃ node, (ensureNode nodes id)[id]? = some node) ∧
      (Built env nodes → Built env (ensureNode nodes id)) := by
  rw [ensureNode]
  split
  · next hsome => exact ⟨fun _ h => h, Option.isSome_iff_exists.mp hsome, fun h => h⟩
  · refine ⟨fun x h => Table.exists_insert _ _ h, ⟨_, Table.get_insert_self _ _ _⟩, ?_⟩
    intro hbuilt x node hx
    rcases Table.of_get_insert hx with ⟨rfl, rfl⟩ | ⟨_, hold⟩
    · exact ⟨∅, (buildNode_empty id).symm⟩
    · exact hbuilt x node hold

theorem ensureEndpoints_loop : ∀ (edges : List PipelineEdge) (nodes : Table String PipelineNode),
    Built env nodes →
    let final := edges.foldl (fun nodes e => ensureNode (ensureNode nodes e.source) e.target) nodes
    (∀ (x : String), ((∃ node, nodes[x]? = some node) ∨ ∃ e ∈ edges, e.source = x ∨ e.target = x) →
      ∃ node, final[x]? = some node) ∧ Built env final := by
  intro edges
  induction edges with
  | nil =>
      intro nodes hbuilt
      refine ⟨?_, hbuilt⟩
      rintro x (h | ⟨e, he, _⟩)
      · exact h
      · cases he
  | cons e edges ih =>
      intro nodes hbuilt
      obtain ⟨hkeep₁, hsource, hbuilt₁⟩ := @ensureNode_spec env nodes e.source
      obtain ⟨hkeep₂, htarget, hbuilt₂⟩ := @ensureNode_spec env (ensureNode nodes e.source) e.target
      obtain ⟨hall, hfinal⟩ := ih _ (hbuilt₂ (hbuilt₁ hbuilt))
      refine ⟨?_, hfinal⟩
      rintro x (h | ⟨e', he', hends⟩)
      · exact hall x (Or.inl (hkeep₂ x (hkeep₁ x h)))
      · rcases List.mem_cons.mp he' with rfl | he'
        · refine hall x (Or.inl ?_)
          rcases hends with rfl | rfl
          · exact hkeep₂ _ hsource
          · exact htarget
        · exact hall x (Or.inr ⟨e', he', hends⟩)

/-- Every node has its own id, and edges and subgraphs are about nodes. -/
structure WellFormed (g : PipelineGraph) : Prop where
  own : ∀ (x : String) (node : PipelineNode), g.nodes[x]? = some node → node.id = x
  edges : ∀ e ∈ g.edges, g.hasNode e.source = true ∧ g.hasNode e.target = true
  members : ∀ sub ∈ g.subgraphs, ∀ x ∈ sub.nodeIds, g.hasNode x = true

theorem ensureEndpoints_wellFormed (h : Coherent env g) :
    WellFormed (ensureEndpoints g) ∧ Built env (ensureEndpoints g).nodes := by
  obtain ⟨hall, hbuilt⟩ := ensureEndpoints_loop g.edges g.nodes h.built
  have hnode : ∀ x, Mentioned g x → (ensureEndpoints g).hasNode x = true := by
    intro x hx
    exact hasNode_iff.mpr (hall x (hx.imp_left hasNode_iff.mp))
  refine ⟨⟨?_, ?_, ?_⟩, hbuilt⟩
  · intro x node hx
    obtain ⟨attrs, rfl⟩ := hbuilt x node hx
    rfl
  · intro e he
    exact ⟨hnode _ (Or.inr ⟨e, he, Or.inl rfl⟩), hnode _ (Or.inr ⟨e, he, Or.inr rfl⟩)⟩
  · intro sub hsub x hx
    exact hnode x (h.members sub hsub x hx)

/-! ## The id -/

theorem lastBoundary_spec (text : List Char) : ∀ n,
    lastBoundary text n ≤ n ∧ isCharBoundary text (lastBoundary text n) = true ∧
      ∀ m, m ≤ n → isCharBoundary text m = true → m ≤ lastBoundary text n := by
  intro n
  induction n with
  | zero =>
      refine ⟨le_refl _, ?_, fun m hm _ => hm⟩
      cases text <;> rfl
  | succ n ih =>
      rw [lastBoundary]
      split
      · next hboundary => exact ⟨le_refl _, hboundary, fun m hm _ => hm⟩
      · next hboundary =>
          refine ⟨ih.1.trans (Nat.le_succ n), ih.2.1, ?_⟩
          intro m hm hcut
          refine ih.2.2 m ?_ hcut
          refine Nat.le_of_lt_succ (lt_of_le_of_ne hm ?_)
          rintro rfl
          exact hboundary hcut

/-- `short` is the longest prefix of whole characters of `name` with at most so
many bytes. -/
structure CutAt (bound : Nat) (name short : List Char) : Prop where
  isPrefix : short <+: name
  fits : utf8Length short ≤ bound
  longest : ∀ other, other <+: name → utf8Length other ≤ bound → utf8Length other ≤ utf8Length short

theorem isCharBoundary_of_isPrefix : ∀ {short name : List Char}, short <+: name →
    isCharBoundary name (utf8Length short) = true := by
  intro short
  induction short with
  | nil =>
      intro name _
      cases name <;> rfl
  | cons ch short ih =>
      intro name h
      cases name with
      | nil => simp at h
      | cons ch' name =>
          obtain ⟨rfl, hshort⟩ := List.cons_prefix_cons.mp h
          have hpos := ch.utf8Size_pos
          have hlen : utf8Length (ch :: short) = ch.utf8Size + utf8Length short := by
            simp [utf8Length]
          obtain ⟨n, hn⟩ : ∃ n, ch.utf8Size + utf8Length short = n + 1 :=
            ⟨ch.utf8Size + utf8Length short - 1, by omega⟩
          rw [hlen, hn]
          simp only [isCharBoundary, Bool.and_eq_true, decide_eq_true_eq]
          refine ⟨by omega, ?_⟩
          rw [← hn, Nat.add_sub_cancel_left]
          exact ih hshort

theorem utf8Length_le_of_isPrefix {short name : List Char} (h : short <+: name) :
    utf8Length short ≤ utf8Length name := by
  obtain ⟨tail, rfl⟩ := h
  simp [utf8Length]

theorem boundGraphId_cut (id : String) :
    CutAt maxGraphIdBytes id.toList (boundGraphId id).toList := by
  rw [boundGraphId]
  split
  · next hfits => exact ⟨List.prefix_rfl, hfits, fun other hother _ => utf8Length_le_of_isPrefix hother⟩
  · obtain ⟨hle, hboundary, hlast⟩ := lastBoundary_spec id.toList maxGraphIdBytes
    rw [String.toList_ofList]
    refine ⟨takeBytes_isPrefix _ _, ?_, ?_⟩
    · rw [utf8Length_takeBytes hboundary]
      exact hle
    · intro other hother hfits
      rw [utf8Length_takeBytes hboundary]
      exact hlast _ hfits (isCharBoundary_of_isPrefix hother)

theorem parseDot_builds {text : String} (h : parseDot env text = .ok g) :
    WellFormed g ∧ Built env g.nodes ∧
      ∃ name tail, parseHeader env text.toList = .ok (name, tail) ∧ g.id = boundGraphId name := by
  rw [parseDot] at h
  obtain ⟨⟨name, tail⟩, hheader, h⟩ := bind_ok.mp h
  obtain ⟨g₁, hloop, h⟩ := bind_ok.mp h
  obtain rfl := pure_ok.mp h
  have hbuilds := statementLoop_builds hloop
  have hempty : Coherent env (emptyGraph (boundGraphId name)) := by
    constructor
    · intro x node hx
      simp [emptyGraph] at hx
    · exact nofun
  obtain ⟨hwellFormed, hbuilt⟩ := ensureEndpoints_wellFormed (hbuilds.coherent hempty)
  exact ⟨hwellFormed, hbuilt, name, tail, hheader, hbuilds.sameId⟩

/-- **An accepted graph is well formed**, and its id is the name in the header, cut
to its bound. -/
theorem parseDot_wellFormed {text : String} (h : parseDot env text = .ok g) :
    WellFormed g ∧ ∃ name tail, parseHeader env text.toList = .ok (name, tail) ∧
      CutAt maxGraphIdBytes name.toList g.id.toList := by
  obtain ⟨hwellFormed, _, name, tail, hheader, hid⟩ := parseDot_builds h
  refine ⟨hwellFormed, name, tail, hheader, ?_⟩
  rw [hid]
  exact boundGraphId_cut name

end Building

end Octos.Pipeline
