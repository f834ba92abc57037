/-
# `Octos.Pipeline.WalkSteps` — what one iteration of the walk does

Every branch of an iteration meets one specification (`StepSpec`):

    effect   which nodes were dispatched, and that nothing recorded is lost
    leads    where it goes on: along an edge, or from a fan-out to its converge
    panics   only where the weights leave nothing to pick

and the iterations that go on are of two kinds (`Advance`): short cuts, which
are a function of the tables, and counted visits.
-/
import Octos.Pipeline.Walk

namespace Octos.Pipeline

variable {g : PipelineGraph} {cfg : WalkConfig} {tick : Tick} {s t s' : WalkState}

/-! ## Edge selection -/

theorem minString_mem : ∀ {l : List String} {m : String}, minString l = some m → m ∈ l := by
  intro l
  induction l with
  | nil => intro m h; cases h
  | cons x l ih =>
      intro m h
      rw [minString] at h
      split at h
      · obtain rfl := Option.some.inj h
        exact List.mem_cons_self
      · next n hn =>
          split at h
          · obtain rfl := Option.some.inj h
            exact List.mem_cons_of_mem _ (ih hn)
          · obtain rfl := Option.some.inj h
            exact List.mem_cons_self

theorem pickByWeight_mem {es : List PipelineEdge} {id : String} (h : pickByWeight es = some id) :
    ∃ e ∈ es, e.target = id := by
  obtain ⟨e, he, rfl⟩ := List.mem_map.mp (minString_mem h)
  exact ⟨e, (List.mem_filter.mp he).1, rfl⟩

def Weight.isFinite : Weight → Bool
  | .finite _ => true
  | _ => false

theorem conditionMatches_sub {o : NodeOutcome} : ∀ {es ms : List PipelineEdge},
    conditionMatches o es = some ms → ∀ e ∈ ms, e ∈ es := by
  intro es
  induction es with
  | nil =>
      intro ms h e he
      obtain rfl := Option.some.inj h
      cases he
  | cons e' es ih =>
      intro ms h e he
      rw [conditionMatches] at h
      split at h
      · exact List.mem_cons_of_mem _ (ih h e he)
      · split at h
        · cases h
        · obtain ⟨rest, hrest, rfl⟩ := Option.map_eq_some_iff.mp h
          rcases List.mem_cons.mp he with rfl | he
          · exact List.mem_cons_self
          · exact List.mem_cons_of_mem _ (ih hrest e he)
        · exact List.mem_cons_of_mem _ (ih h e he)

theorem mem_outgoing {id : String} {e : PipelineEdge} :
    e ∈ outgoing g id ↔ e ∈ g.edges ∧ e.source = id := by
  rw [outgoing, List.mem_filter, beq_iff_eq]

/-- **A selected node is the target of an edge.** -/
theorem selectNextEdge_next {current id : String} {o : NodeOutcome}
    (h : selectNextEdge g current o = .next id) : ∃ e ∈ outgoing g current, e.target = id := by
  have hpick : ∀ {p : Option String}, Selection.ofPick p = .next id → p = some id := by
    intro p hp
    cases p with
    | none => cases hp
    | some x => rw [Selection.next.inj hp]
  rw [selectNextEdge] at h
  split at h
  · cases h
  · split at h
    · cases h
    · next e es hmatch =>
        obtain ⟨e', he', ht⟩ := pickByWeight_mem (hpick h)
        exact ⟨e', conditionMatches_sub hmatch e' he', ht⟩
    · split at h
      · next next hnext =>
          obtain rfl := Selection.next.inj h
          rw [suggestedEdge, Option.filter_eq_some_iff] at hnext
          obtain ⟨e, he, ht⟩ := List.any_eq_true.mp hnext.2
          exact ⟨e, he, by simpa using ht⟩
      · split at h
        · next e he =>
            obtain rfl := Selection.next.inj h
            exact ⟨e, List.mem_of_find?_eq_some he, rfl⟩
        · dsimp only at h
          split at h
          · exact List.mem_map.mp (minString_mem (hpick h))
          · obtain ⟨e, he, ht⟩ := pickByWeight_mem (hpick h)
            exact ⟨e, (List.mem_filter.mp he).1, ht⟩

/-- From a fan-out to the node its workers converge on. -/
def Jumps (g : PipelineGraph) (a b : String) : Prop :=
  ∃ node, g.nodes[a]? = some node ∧ (node.handler = .parallel ∨ node.handler = .dynamicParallel) ∧
    node.converge = some b

/-- The walk may go from one node to the other. -/
def Leads (g : PipelineGraph) (a b : String) : Prop :=
  Reach.Adj g.pairs a b ∨ Jumps g a b

theorem selected_adj {current id : String} {o : NodeOutcome}
    (h : selectNextEdge g current o = .next id) : Reach.Adj g.pairs current id := by
  obtain ⟨e, he, rfl⟩ := selectNextEdge_next h
  obtain ⟨hedge, rfl⟩ := mem_outgoing.mp he
  exact adj_pairs.mpr ⟨e, hedge, rfl, rfl⟩

/-- The state an iteration leaves behind. -/
def afterward : WalkNext → WalkState
  | .inl s => s
  | .inr r => r.2

/-- What is dispatched: nothing, the current node, or the current node as a
fan-out with its targets. -/
inductive Dispatches (g : PipelineGraph) (s t : WalkState) : Prop
  | nothing : t.log = s.log → t.parallelExecuted = s.parallelExecuted → Dispatches g s t
  | node : t.log = s.log ++ [s.current] → t.parallelExecuted = s.parallelExecuted →
      Dispatches g s t
  | fanout {node : PipelineNode} : g.nodes[s.current]? = some node → node.handler = .parallel →
      t.log = s.log ++ s.current :: fanoutTargets g s.current →
      t.parallelExecuted = fanoutTargets g s.current ++ s.parallelExecuted → Dispatches g s t

/-- What an iteration does to the tables. -/
structure Effect (g : PipelineGraph) (s t : WalkState) : Prop where
  dispatches : Dispatches g s t
  keeps : ∀ n : String, (∃ o, s.completed[n]? = some o) → ∃ o, t.completed[n]? = some o
  records : ∀ n ∈ t.parallelExecuted, n ∈ s.parallelExecuted ∨ ∃ o, t.completed[n]? = some o
  visits : t.visitCounts = s.visitCounts

structure StepSpec (g : PipelineGraph) (s : WalkState) (r : WalkNext) : Prop where
  effect : Effect g s (afterward r)
  leads : ∀ s', r = .inl s' → Leads g s.current s'.current
  panics : ∀ t, r = .inr (.panicked, t) → ∃ o, selectNextEdge g s.current o = .panicked

theorem Effect.refl : Effect g s s where
  dispatches := .nothing rfl rfl
  keeps _ h := h
  records _ h := Or.inl h
  visits := rfl

/-- Writing an outcome and moving changes nothing else. -/
theorem Effect.put {id current : String} {o : NodeOutcome} {tokens : TokenUsage}
    (h : Effect g s t) : Effect g s { t with
      completed := t.completed.insert id o, totalTokens := tokens, current := current } where
  dispatches := by
    cases h.dispatches with
    | nothing hl hp => exact .nothing hl hp
    | node hl hp => exact .node hl hp
    | fanout hnode hkind hl hp => exact .fanout hnode hkind hl hp
  keeps n hn := Table.exists_insert _ _ (h.keeps n hn)
  records n hn := (h.records n hn).imp_right (Table.exists_insert _ _)
  visits := h.visits

theorem Effect.goTo {current : String} (h : Effect g s t) :
    Effect g s { t with current := current } where
  dispatches := by
    cases h.dispatches with
    | nothing hl hp => exact .nothing hl hp
    | node hl hp => exact .node hl hp
    | fanout hnode hkind hl hp => exact .fanout hnode hkind hl hp
  keeps := h.keeps
  records := h.records
  visits := h.visits

theorem StepSpec.stop {ending : WalkEnd} (h : Effect g s t) (hne : ending ≠ .panicked) :
    StepSpec g s (.inr (ending, t)) where
  effect := h
  leads _ h := nomatch h
  panics _ h := absurd (Prod.mk.inj (Sum.inr.inj h)).1 hne

theorem result_ne {output : String} {success : Bool} {files : List (List String)} :
    s.result output success files ≠ .panicked := nofun

/-- **Following an edge.** -/
theorem follow_spec {o : NodeOutcome} {ending : WalkEnd} (h : Effect g s t)
    (hcurrent : t.current = s.current) (hne : ending ≠ .panicked) :
    StepSpec g s (follow g t o ending) := by
  rw [follow, hcurrent]
  cases hsel : selectNextEdge g s.current o with
  | next id =>
      refine ⟨h.goTo, ?_, nofun⟩
      intro s' hs'
      obtain rfl := Sum.inl.inj hs'
      exact Or.inl (selected_adj hsel)
  | stop => exact .stop h hne
  | invalid => exact .stop h nofun
  | panicked => exact ⟨h, nofun, fun _ _ => ⟨o, hsel⟩⟩

/-- **Converging.** -/
theorem convergeTo_spec {node : PipelineNode} {convergeId kind merged : String}
    {outcomes : List (String × NodeOutcome)} {usage : TokenUsage} (h : Effect g s t)
    (hjump : Jumps g s.current convergeId) :
    StepSpec g s (convergeTo node convergeId kind outcomes merged usage t) := by
  rw [convergeTo]
  dsimp only
  split
  · exact .stop h.put nofun
  · refine ⟨h.put, ?_, nofun⟩
    intro s' hs'
    obtain rfl := Sum.inl.inj hs'
    exact Or.inr hjump

/-- Recording outcomes loses none and gets all of them. -/
theorem exists_insertAll {n : String} : ∀ (outcomes : List (String × NodeOutcome))
    (completed : Table String NodeOutcome),
    (∃ o, completed[n]? = some o) ∨ n ∈ outcomes.map Prod.fst →
      ∃ o, (outcomes.foldl (fun t o => t.insert o.1 o.2) completed)[n]? = some o := by
  intro outcomes
  induction outcomes with
  | nil =>
      rintro completed (h | h)
      · exact h
      · cases h
  | cons x outcomes ih =>
      intro completed h
      rw [List.foldl_cons]
      refine ih _ ?_
      rcases h with h | h
      · exact Or.inl (Table.exists_insert _ _ h)
      · rcases List.mem_cons.mp h with rfl | h
        · exact Or.inl ⟨_, Table.get_insert_self _ _ _⟩
        · exact Or.inr h

theorem parallelFanout_spec {node : PipelineNode} (hnode : g.nodes[s.current]? = some node)
    (hkind : node.handler = .parallel) : StepSpec g s (parallelFanout g cfg tick node s) := by
  rw [parallelFanout]
  split
  · exact .stop .refl nofun
  · next convergeId hconverge =>
      dsimp only
      split
      · exact .stop .refl nofun
      · split
        · exact .stop .refl nofun
        · split
          · exact .stop .refl nofun
          · split
            · exact .stop .refl nofun
            · refine convergeTo_spec ⟨.fanout hnode hkind rfl rfl, ?_, ?_, rfl⟩
                ⟨node, hnode, Or.inl hkind, hconverge⟩
              · intro n hn
                exact exists_insertAll _ _ (Or.inl hn)
              · intro n hn
                refine (List.mem_append.mp hn).symm.imp_right ?_
                intro htarget
                refine exists_insertAll _ _ (Or.inr ?_)
                rw [List.map_map]
                obtain ⟨i, hi⟩ := List.mem_iff_getElem?.mp htarget
                exact List.mem_map.mpr ⟨(n, i), List.mem_zipIdx_iff_getElem?.mpr hi, rfl⟩

theorem dynamicFanout_spec {node : PipelineNode} (hnode : g.nodes[s.current]? = some node)
    (hkind : node.handler = .dynamicParallel) :
    StepSpec g s (dynamicFanout g cfg tick node s) := by
  have hplanned : ∀ tokens : TokenUsage,
      Effect g s { s with totalTokens := tokens, log := s.log ++ [s.current] } := by
    intro tokens
    exact ⟨.node rfl rfl, fun _ h => h, fun _ h => Or.inl h, rfl⟩
  rw [dynamicFanout]
  split
  · exact .stop .refl nofun
  · next convergeId hconverge =>
      split
      · exact .stop .refl nofun
      · dsimp only
        split
        · exact .stop (hplanned _) nofun
        · split
          · exact .stop (hplanned _) nofun
          · refine convergeTo_spec ⟨.node rfl rfl, ?_, fun _ h => Or.inl h, rfl⟩
              ⟨node, hnode, Or.inr hkind, hconverge⟩
            intro n hn
            exact exists_insertAll _ _ (Or.inl hn)

theorem returnsAfter_ne {node : PipelineNode} {o : NodeOutcome} {ending : WalkEnd}
    (h : returnsAfter g node o s = some ending) : ending ≠ .panicked := by
  rw [returnsAfter] at h
  split at h
  · obtain rfl := Option.some.inj h
    exact nofun
  · split at h
    · obtain rfl := Option.some.inj h
      exact nofun
    · split at h
      · obtain rfl := Option.some.inj h
        exact nofun
      · cases h

theorem runNode_spec {node : PipelineNode} : StepSpec g s (runNode g tick node s) := by
  have hlogged : Effect g s { s with log := s.log ++ [s.current] } :=
    ⟨.node rfl rfl, fun _ h => h, fun _ h => Or.inl h, rfl⟩
  rw [runNode]
  split
  · exact .stop .refl nofun
  · split
    · exact .stop .refl nofun
    · dsimp only
      split
      · exact .stop hlogged nofun
      · exact .stop hlogged nofun
      · exact follow_spec hlogged.put rfl nofun
      · next o hran =>
          split
          · next ending hreturns => exact .stop hlogged.put (returnsAfter_ne hreturns)
          · exact follow_spec hlogged.put rfl nofun

theorem visitNode_spec {node : PipelineNode} (hnode : g.nodes[s.current]? = some node) :
    StepSpec g s (visitNode g cfg tick node s) := by
  rw [visitNode]
  split
  · exact .stop .refl nofun
  · exact .stop .refl nofun
  · exact follow_spec Effect.refl.put rfl nofun
  · split
    · next hkind => exact parallelFanout_spec hnode hkind
    · split
      · next hkind => exact dynamicFanout_spec hnode hkind
      · exact runNode_spec

/-! ## Short cuts and visits -/

/-- The outcome a node is passed by with, if it is: that of the fan-out it ran
in, or the pass a checkpoint stands for. -/
def shortOutcome (cfg : WalkConfig) (s : WalkState) (id : String) : Option NodeOutcome :=
  if id ∈ s.parallelExecuted then s.completed[id]?
  else if id ∈ cfg.resumeSkip then some (plainOutcome id .pass "")
  else none

/-- Where a short cut leads. -/
def shortNext (g : PipelineGraph) (cfg : WalkConfig) (s : WalkState) (id : String) :
    Option String :=
  (shortOutcome cfg s id).bind (fun o =>
    match selectNextEdge g id o with
    | .next next => some next
    | _ => none)

/-- Neither short cut applies to the current node. -/
def Uncut (cfg : WalkConfig) (s : WalkState) : Prop :=
  s.current ∉ s.parallelExecuted ∧ s.current ∉ cfg.resumeSkip

/-- The nodes run by a fan-out have an outcome. -/
def Recorded (s : WalkState) : Prop :=
  ∀ n ∈ s.parallelExecuted, ∃ o, s.completed[n]? = some o

theorem walkStep_uncut {node : PipelineNode} (hnode : g.nodes[s.current]? = some node)
    (h : Uncut cfg s) : walkStep g cfg tick s = visitNode g cfg tick node s.visit := by
  rw [walkStep, hnode]
  dsimp only
  rw [if_neg h.1, if_neg h.2]

/-- A state a short cut passes through. -/
structure CutState (s t : WalkState) : Prop where
  eq : t = { s with completed := t.completed }
  keeps : ∀ n : String, (∃ o, s.completed[n]? = some o) → ∃ o, t.completed[n]? = some o
  same : ∀ n ∈ s.parallelExecuted, t.completed[n]? = s.completed[n]?

/-- **A short cut follows an edge by the outcome it stands for.** -/
theorem walkStep_cut {node : PipelineNode} (hnode : g.nodes[s.current]? = some node)
    (hrecorded : Recorded s) (h : ¬ Uncut cfg s) :
    ∃ o t ending, shortOutcome cfg s s.current = some o ∧ CutState s t ∧ ending ≠ .panicked ∧
      ∀ tick, walkStep g cfg tick s = follow g t o ending := by
  by_cases hin : s.current ∈ s.parallelExecuted
  · obtain ⟨o, ho⟩ := hrecorded _ hin
    refine ⟨o, s, s.result o.content (o.status == .pass) [], ?_,
      ⟨rfl, fun _ h => h, fun _ _ => rfl⟩, result_ne, ?_⟩
    · rw [shortOutcome, if_pos hin, ho]
    · intro tick
      rw [walkStep, hnode]
      dsimp only
      rw [if_pos hin, ho]
  · have hskip : s.current ∈ cfg.resumeSkip := by
      by_contra hout
      exact h ⟨hin, hout⟩
    refine ⟨plainOutcome s.current .pass "", { s with
      completed := s.completed.insert s.current (plainOutcome s.current .pass "") },
      s.result "" true [], ?_, ⟨rfl, ?_, ?_⟩, result_ne, ?_⟩
    · rw [shortOutcome, if_neg hin, if_pos hskip]
    · intro n hn
      exact Table.exists_insert _ _ hn
    · intro n hn
      refine Table.get_insert_ne _ _ ?_
      rintro rfl
      exact hin hn
    · intro tick
      rw [walkStep, hnode]
      dsimp only
      rw [if_neg hin, if_pos hskip]
      rfl

theorem follow_inl {o : NodeOutcome} {ending : WalkEnd} (h : follow g t o ending = .inl s') :
    selectNextEdge g t.current o = .next s'.current ∧ s' = { t with current := s'.current } := by
  rw [follow] at h
  split at h
  · next id hsel =>
      obtain rfl := Sum.inl.inj h
      exact ⟨hsel, rfl⟩
  · cases h
  · cases h
  · cases h

/-- **What an iteration does**, with the visit counter it starts from left open. -/
theorem walkStep_spec (hrecorded : Recorded s) :
    ∃ counts, StepSpec g { s with visitCounts := counts } (walkStep g cfg tick s) := by
  cases hnode : g.nodes[s.current]? with
  | none =>
      refine ⟨s.visitCounts, ?_⟩
      rw [walkStep, hnode]
      exact .stop .refl nofun
  | some node =>
      by_cases h : Uncut cfg s
      · rw [walkStep_uncut hnode h]
        exact ⟨s.visit.visitCounts, visitNode_spec hnode⟩
      · obtain ⟨o, t, ending, -, hcut, hne, hstep⟩ := walkStep_cut hnode hrecorded h
        rw [hstep tick]
        refine ⟨s.visitCounts, follow_spec ⟨?_, hcut.keeps, ?_, ?_⟩ ?_ hne⟩
        · rw [hcut.eq]
          exact .nothing rfl rfl
        · rw [hcut.eq]
          exact fun n hn => Or.inl hn
        · rw [hcut.eq]
        · rw [hcut.eq]

/-- A short cut dispatches nothing and goes along an edge. -/
theorem walkStep_cut_spec (tick : Tick) (hrecorded : Recorded s) (h : ¬ Uncut cfg s) :
    (afterward (walkStep g cfg tick s)).log = s.log ∧
      (afterward (walkStep g cfg tick s)).parallelExecuted = s.parallelExecuted ∧
      ∀ s', walkStep g cfg tick s = .inl s' → Reach.Adj g.pairs s.current s'.current := by
  cases hnode : g.nodes[s.current]? with
  | none =>
      rw [walkStep, hnode]
      exact ⟨rfl, rfl, nofun⟩
  | some node =>
      obtain ⟨o, t, ending, -, hcut, -, hstep⟩ := walkStep_cut hnode hrecorded h
      rw [hstep tick]
      have hafter : ∃ id, afterward (follow g t o ending) = { t with current := id } := by
        rw [follow]
        cases selectNextEdge g t.current o with
        | next id => exact ⟨id, rfl⟩
        | stop => exact ⟨t.current, rfl⟩
        | invalid => exact ⟨t.current, rfl⟩
        | panicked => exact ⟨t.current, rfl⟩
      obtain ⟨id, hid⟩ := hafter
      rw [hid, hcut.eq]
      refine ⟨rfl, rfl, ?_⟩
      intro s' hs'
      have hsel := selected_adj (follow_inl hs').1
      exact hsel

/-- The nodes a fan-out ran keep their outcome. -/
theorem walkStep_recorded (hrecorded : Recorded s) :
    Recorded (afterward (walkStep g cfg tick s)) := by
  obtain ⟨counts, hspec⟩ : ∃ counts,
      StepSpec g { s with visitCounts := counts } (walkStep g cfg tick s) := walkStep_spec hrecorded
  intro n hn
  rcases hspec.effect.records n hn with hold | hnew
  · exact hspec.effect.keeps n (hrecorded n hold)
  · exact hnew

end Octos.Pipeline
