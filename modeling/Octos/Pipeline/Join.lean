/-
# `Octos.Pipeline.Join` — what a join waits for, and what it gets

The firing rules of `Octos.Pipeline.Dag` parse a condition each time they read
one, so each of them may fail.  On a validated graph none does, and the two
functions the scheduler decides by have plain values:

    firedForwardInto   the sources of `firedEdges`, in edge order
    dagNodeReadiness   not ready while a predecessor is unsettled; after that a
                       function of what the predecessors settled to

The second part is the frame of readiness: it reads the tables at the forward
predecessors only, so whatever keeps these entries keeps it.
-/
import Octos.Pipeline.Dag

namespace Octos.Pipeline

variable {g : PipelineGraph}

/-! ## Firing -/

/-- The condition on an edge of a validated graph has a value. -/
theorem Validated.conditionHolds (h : Validated g) {e : PipelineEdge} (he : e ∈ g.edges)
    {cond : String} (hc : e.condition = some cond) (o : NodeOutcome) :
    ∃ b, conditionHolds cond o = some b := by
  obtain ⟨expr, hexpr⟩ := h.parses e he cond hc
  exact ⟨evaluate o expr, by rw [Pipeline.conditionHolds, hexpr, Option.map_some]⟩

theorem Validated.firesNormally (h : Validated g) {e : PipelineEdge} (he : e ∈ g.edges)
    (o : NodeOutcome) (coe : Bool) : ∃ b, dagEdgeFiresNormally g e o coe = some b := by
  rw [dagEdgeFiresNormally]
  cases hc : e.condition with
  | some cond => exact h.conditionHolds he hc o
  | none =>
      dsimp only
      split
      · exact ⟨_, rfl⟩
      · exact ⟨_, rfl⟩

theorem Validated.conditionMatches (h : Validated g) (o : NodeOutcome) {es : List PipelineEdge}
    (hes : ∀ e ∈ es, e ∈ g.edges) : ∃ b, anyConditionMatches o es = some b := by
  induction es with
  | nil => exact ⟨false, rfl⟩
  | cons e es ih =>
      have hrest := ih (fun e' he' => hes e' (List.mem_cons_of_mem _ he'))
      rw [anyConditionMatches]
      cases hc : e.condition with
      | none => exact hrest
      | some cond =>
          obtain ⟨b, hb⟩ := h.conditionHolds (hes e List.mem_cons_self) hc o
          simp only [hb]
          cases b with
          | true => exact ⟨true, rfl⟩
          | false => exact hrest

theorem Validated.forwardEdgeFires (h : Validated g) {e : PipelineEdge} (he : e ∈ g.edges)
    (o : NodeOutcome) (coe : Bool) : ∃ b, dagForwardEdgeFires g e o coe = some b := by
  obtain ⟨b, hb⟩ := h.firesNormally he o coe
  have hsub : ∀ e' ∈ g.edges.filter (fun e' => e'.source == e.source && !edgeIsBack g e'),
      e' ∈ g.edges := fun e' he' => (List.mem_filter.mp he').1
  obtain ⟨c, hc⟩ := h.conditionMatches o hsub
  simp only [dagForwardEdgeFires, hb, hc, Option.bind_eq_bind, Option.bind_some]
  cases b with
  | true => exact ⟨true, rfl⟩
  | false =>
      simp only [Bool.false_eq_true, if_false]
      split
      · exact ⟨false, rfl⟩
      · cases c with
        | true => exact ⟨false, rfl⟩
        | false => exact ⟨_, rfl⟩

/-- The source of the edge completed, and the edge fires. -/
def edgeFired (g : PipelineGraph) (completed : Table String NodeOutcome) (e : PipelineEdge) :
    Bool :=
  completed[e.source]?.any (fun o =>
    dagForwardEdgeFires g e o (continueOnError g e.source) == some true)

/-- The forward edges into a node that fired, in graph-edge order. -/
def firedEdges (g : PipelineGraph) (id : String) (completed : Table String NodeOutcome) :
    List PipelineEdge :=
  g.edges.filter (fun e => e.target == id && !edgeIsBack g e && edgeFired g completed e)

theorem firedAmong_eq (h : Validated g) {id : String} {completed : Table String NodeOutcome}
    {es : List PipelineEdge} (hes : ∀ e ∈ es, e ∈ g.edges) :
    firedAmong g id completed es = some
      ((es.filter (fun e => e.target == id && !edgeIsBack g e && edgeFired g completed e)).map
        PipelineEdge.source) := by
  induction es with
  | nil => rfl
  | cons e es ih =>
      have hrest := ih (fun e' he' => hes e' (List.mem_cons_of_mem _ he'))
      rw [firedAmong, List.filter_cons]
      cases hinto : e.target == id && !edgeIsBack g e with
      | false => simpa using hrest
      | true =>
          cases hsrc : completed[e.source]? with
          | none => simpa [edgeFired, hsrc] using hrest
          | some o =>
              obtain ⟨b, hb⟩ := h.forwardEdgeFires (hes e List.mem_cons_self) o
                (continueOnError g e.source)
              have hfired : edgeFired g completed e = b := by
                simp only [edgeFired, hsrc, Option.any_some, hb]
                cases b <;> rfl
              simp only [if_true, hb, hrest, hfired, Bool.true_and, Option.bind_eq_bind,
                Option.bind_some]
              cases b <;> rfl

/-- **What fired into a node.** -/
theorem Validated.firedForwardInto (h : Validated g) (id : String)
    (completed : Table String NodeOutcome) :
    firedForwardInto g id completed =
      some ((firedEdges g id completed).map PipelineEdge.source) :=
  firedAmong_eq h (fun _ he => he)

theorem mem_firedEdges {id : String} {completed : Table String NodeOutcome} {e : PipelineEdge} :
    e ∈ firedEdges g id completed ↔
      e ∈ g.edges ∧ e.target = id ∧ edgeIsBack g e = false ∧ edgeFired g completed e = true := by
  simp only [firedEdges, List.mem_filter, Bool.and_eq_true, beq_iff_eq, Bool.not_eq_true',
    and_assoc]

/-- Only a completed source fires. -/
theorem completed_of_fired {id p : String} {completed : Table String NodeOutcome}
    (hp : p ∈ (firedEdges g id completed).map PipelineEdge.source) :
    ∃ o, completed[p]? = some o := by
  obtain ⟨e, he, rfl⟩ := List.mem_map.mp hp
  have hfired := (mem_firedEdges.mp he).2.2.2
  rw [edgeFired] at hfired
  obtain ⟨o, ho, -⟩ := (Option.any_eq_true _ _).mp hfired
  exact ⟨o, ho⟩

/-! ## Readiness -/

/-- What a node becomes once its predecessors are settled. -/
def joinReadiness (g : PipelineGraph) (id : String) (completed : Table String NodeOutcome)
    (pruned : Table String PruneReason) : NodeReadiness :=
  let fired := (firedEdges g id completed).map PipelineEdge.source
  if (forwardPreds g id).isEmpty then .runnable
  else if (forwardPreds g id).any (missingRequired g id completed pruned fired) then
    .prune .failure
  else if fired.isEmpty then .prune .optional
  else .runnable

/-- **The readiness of a node.** -/
theorem Validated.readiness (h : Validated g) (id : String) (completed : Table String NodeOutcome)
    (pruned : Table String PruneReason) :
    dagNodeReadiness g id completed pruned =
      if ∀ p ∈ forwardPreds g id, isSettled completed pruned p = true then
        some (joinReadiness g id completed pruned)
      else some .notReady := by
  simp only [dagNodeReadiness, joinReadiness, h.firedForwardInto, Bool.not_eq_true', Option.bind_eq_bind,
    Option.bind_some, ← List.all_eq_true]
  cases hall : (forwardPreds g id).all (isSettled completed pruned) with
  | false => rfl
  | true =>
      simp only [Bool.true_eq_false, if_false, if_true]
      split
      · rfl
      · split
        · rfl
        · split
          · rfl
          · rfl

/-- The readiness of a join is never "not ready". -/
theorem joinReadiness_ne (id : String) (completed : Table String NodeOutcome)
    (pruned : Table String PruneReason) :
    joinReadiness g id completed pruned = .runnable ∨
      ∃ r, joinReadiness g id completed pruned = .prune r := by
  rw [joinReadiness]
  split
  · exact Or.inl rfl
  · split
    · exact Or.inr ⟨_, rfl⟩
    · split
      · exact Or.inr ⟨_, rfl⟩
      · exact Or.inl rfl

/-- A node that is ready has its predecessors settled. -/
theorem Validated.settled_of_ready (h : Validated g) {id : String}
    {completed : Table String NodeOutcome} {pruned : Table String PruneReason} {r : NodeReadiness}
    (hr : dagNodeReadiness g id completed pruned = some r) (hne : r ≠ .notReady) :
    (∀ p ∈ forwardPreds g id, isSettled completed pruned p = true) ∧
      joinReadiness g id completed pruned = r := by
  rw [h.readiness] at hr
  split at hr
  · next hall => exact ⟨hall, Option.some.inj hr⟩
  · exact absurd (Option.some.inj hr).symm hne

/-! ## The frame -/

section Frame

variable {id : String} {t t' : Table String NodeOutcome} {q q' : Table String PruneReason}

theorem firedEdges_congr (hc : ∀ p ∈ forwardPreds g id, t[p]? = t'[p]?) :
    firedEdges g id t = firedEdges g id t' := by
  refine List.filter_congr ?_
  intro e he
  cases hinto : e.target == id && !edgeIsBack g e with
  | false => rfl
  | true =>
      simp only [Bool.and_eq_true, beq_iff_eq, Bool.not_eq_true'] at hinto
      have hpred : e.source ∈ forwardPreds g id :=
        mem_forwardPreds.mpr ⟨e, he, hinto.2, rfl, hinto.1⟩
      rw [Bool.true_and, Bool.true_and, edgeFired, edgeFired, hc _ hpred]

/-- **Readiness reads the tables at the forward predecessors only.** -/
theorem joinReadiness_congr (hc : ∀ p ∈ forwardPreds g id, t[p]? = t'[p]?)
    (hq : ∀ p ∈ forwardPreds g id, q[p]? = q'[p]?) :
    joinReadiness g id t q = joinReadiness g id t' q' := by
  have hany : ∀ fired, (forwardPreds g id).any (missingRequired g id t q fired) =
      (forwardPreds g id).any (missingRequired g id t' q' fired) := by
    intro fired
    rw [Bool.eq_iff_iff, List.any_eq_true, List.any_eq_true]
    refine exists_congr (fun p => and_congr_right ?_)
    intro hp
    rw [missingRequired, missingRequired, hc p hp, hq p hp]
  rw [joinReadiness, joinReadiness, firedEdges_congr hc, hany]

/-- A node that is ready stays ready, to the same end, when its predecessors'
entries are kept. -/
theorem Validated.readiness_frame (h : Validated g) {r : NodeReadiness}
    (hr : dagNodeReadiness g id t q = some r) (hne : r ≠ .notReady)
    (hc : ∀ p ∈ forwardPreds g id, isSettled t q p = true → t[p]? = t'[p]?)
    (hq : ∀ p ∈ forwardPreds g id, isSettled t q p = true → q[p]? = q'[p]?) :
    dagNodeReadiness g id t' q' = some r := by
  obtain ⟨hall, hjoin⟩ := h.settled_of_ready hr hne
  have hc' : ∀ p ∈ forwardPreds g id, t[p]? = t'[p]? := fun p hp => hc p hp (hall p hp)
  have hq' : ∀ p ∈ forwardPreds g id, q[p]? = q'[p]? := fun p hp => hq p hp (hall p hp)
  have hall' : ∀ p ∈ forwardPreds g id, isSettled t' q' p = true := by
    intro p hp
    rw [isSettled, ← hc' p hp, ← hq' p hp]
    exact hall p hp
  rw [h.readiness, if_pos hall', ← joinReadiness_congr hc' hq', hjoin]

end Frame

/-! ## What a runnable join has -/

/-- A required input is missing from a completed predecessor: an unconditional
forward edge out of it waits for a success it did not have. -/
def owedSuccess (g : PipelineGraph) (completed : Table String NodeOutcome) (p id : String) : Prop :=
  (∃ e ∈ g.edges, e.source = p ∧ e.target = id ∧ edgeIsBack g e = false ∧ e.condition = none) ∧
    (∃ o, completed[p]? = some o ∧ (o.status = .fail ∨ o.status = .error)) ∧
      continueOnError g p = false

theorem missingRequired_pruned {id p : String} {completed : Table String NodeOutcome}
    {pruned : Table String PruneReason} {fired : List String} (hp : p ∉ fired)
    (hpruned : pruned[p]? = some .failure) :
    missingRequired g id completed pruned fired p = true := by
  rw [missingRequired, if_neg (fun h => hp (List.contains_iff_mem.mp h)), hpruned]

theorem missingRequired_completed {id p : String} {completed : Table String NodeOutcome}
    {pruned : Table String PruneReason} {fired : List String} (hp : p ∉ fired)
    (hpruned : pruned[p]? = none) :
    missingRequired g id completed pruned fired p = true ↔ owedSuccess g completed p id := by
  rw [missingRequired, if_neg (fun h => hp (List.contains_iff_mem.mp h)), hpruned]
  simp only [Bool.and_eq_true, List.any_eq_true, beq_iff_eq, Bool.not_eq_true', Option.isNone_iff_eq_none,
    Option.any_eq_true, hasFailed, Bool.or_eq_true, owedSuccess, and_assoc]

/-- **A runnable join.**  Of each predecessor the edge fired, or it was an
optional branch not taken, or it completed without owing a success; and some
edge fired. -/
theorem Validated.runnable_join (h : Validated g) {id : String}
    {completed : Table String NodeOutcome} {pruned : Table String PruneReason}
    (hr : dagNodeReadiness g id completed pruned = some .runnable) (hne : forwardPreds g id ≠ []) :
    (∀ p ∈ forwardPreds g id,
      p ∈ (firedEdges g id completed).map PipelineEdge.source ∨ pruned[p]? = some .optional ∨
        pruned[p]? = none ∧ ¬ owedSuccess g completed p id) ∧ firedEdges g id completed ≠ [] := by
  obtain ⟨-, hjoin⟩ := h.settled_of_ready hr (by simp)
  rw [joinReadiness] at hjoin
  rw [if_neg (by simpa using hne)] at hjoin
  split at hjoin
  · exact absurd hjoin (by simp)
  · next hmissing =>
      split at hjoin
      · exact absurd hjoin (by simp)
      · next hfired =>
          refine ⟨?_, by simpa using hfired⟩
          intro p hp
          by_cases hin : p ∈ (firedEdges g id completed).map PipelineEdge.source
          · exact Or.inl hin
          · rw [Bool.not_eq_true, List.any_eq_false] at hmissing
            refine Or.inr ?_
            cases hpruned : pruned[p]? with
            | none =>
                refine Or.inr ⟨rfl, ?_⟩
                intro howed
                exact hmissing p hp ((missingRequired_completed hin hpruned).mpr howed)
            | some r =>
                cases r with
                | optional => exact Or.inl rfl
                | failure => exact absurd (missingRequired_pruned hin hpruned) (hmissing p hp)

/-- A failure-pruned predecessor decides a join. -/
theorem Validated.join_of_failure (h : Validated g) {id p : String}
    {completed : Table String NodeOutcome} {pruned : Table String PruneReason} {r : NodeReadiness}
    (hr : dagNodeReadiness g id completed pruned = some r) (hne : r ≠ .notReady)
    (hp : p ∈ forwardPreds g id) (hpruned : pruned[p]? = some .failure)
    (hnone : completed[p]? = none) : r = .prune .failure := by
  obtain ⟨-, hjoin⟩ := h.settled_of_ready hr hne
  have hunfired : p ∉ (firedEdges g id completed).map PipelineEdge.source := by
    intro hfired
    obtain ⟨o, ho⟩ := completed_of_fired hfired
    rw [hnone] at ho
    cases ho
  have hmissing : (forwardPreds g id).any (missingRequired g id completed pruned
      ((firedEdges g id completed).map PipelineEdge.source)) = true :=
    List.any_eq_true.mpr ⟨p, hp, missingRequired_pruned hunfired hpruned⟩
  rw [← hjoin, joinReadiness]
  rw [if_neg (by simpa using List.ne_nil_of_mem hp), if_pos hmissing]

end Octos.Pipeline
