/-
# `Octos.Pipeline.DagMoves` — the passes of the scheduler, and what they move

A pass of the scheduler is one of four (`Pass`), or it ends the run (`Stop`), and
the tables undergo only three kinds of change (`Move`):

    settle   an unsettled node whose predecessors let it run
    prune    an unsettled node whose predecessors rule it out
    retry    a back-edge target with retries left: its region is un-settled

A run is made of moves, so an invariant has three cases, and the eager retry,
which is two moves in one pass, needs none of its own.
-/
import Octos.Pipeline.Join
import Octos.Lib.Run

namespace Octos.Pipeline

open Reach

variable {g : PipelineGraph} {userInput : String} {s s' : DagState}

/-! ## What is next -/

theorem findRunnable_some {id : String} (h : findRunnable g s = some id) :
    g.hasNode id = true ∧ s.settled id = false ∧ s.readiness g id = some .runnable := by
  have hp := List.find?_some h
  have hmem := List.mem_of_find?_eq_some h
  simp only [Bool.and_eq_true, Bool.not_eq_true', beq_iff_eq] at hp
  exact ⟨mem_nodeIds.mp hmem, hp.1, hp.2⟩

theorem findRunnable_none {id : String} (h : findRunnable g s = none) (hnode : g.hasNode id = true)
    (hfree : s.settled id = false) : s.readiness g id ≠ some .runnable := by
  intro hready
  have hfalse := List.find?_eq_none.mp h id (mem_nodeIds.mpr hnode)
  simp [hfree, hready] at hfalse

theorem findPrunable_some {id : String} {reason : PruneReason}
    (h : findPrunable g s = some (id, reason)) :
    g.hasNode id = true ∧ s.settled id = false ∧ s.readiness g id = some (.prune reason) := by
  obtain ⟨m, hm, hp⟩ := List.exists_of_findSome?_eq_some h
  split at hp
  · cases hp
  · next hfree =>
      split at hp
      · next r hr =>
          obtain ⟨rfl, rfl⟩ := Prod.mk.inj (Option.some.inj hp)
          exact ⟨mem_nodeIds.mp hm, by simpa using hfree, hr⟩
      · cases hp

theorem findPrunable_none {id : String} {reason : PruneReason} (h : findPrunable g s = none)
    (hnode : g.hasNode id = true) (hfree : s.settled id = false) :
    s.readiness g id ≠ some (.prune reason) := by
  intro hready
  have hfalse := List.findSome?_eq_none_iff.mp h id (mem_nodeIds.mpr hnode)
  simp [hfree, hready] at hfalse

/-- What each answer says about the tables. -/
def NextSpec (g : PipelineGraph) (userInput : String) (s : DagState) : DagNext → Prop
  | .execute id input => findRunnable g s = some id ∧
      ∃ fired, firedForwardInto g id s.completed = some fired ∧
        input = nodeInput s userInput fired s.feedback[id]?
  | .prune id reason => findPrunable g s = some (id, reason)
  | .retry target feedback => (target, feedback) ∈ firedBack g s ∧ s.retries target < maxNodeRuns
  | .quiesce => findRunnable g s = none ∧ findPrunable g s = none
  | _ => True

theorem dagNext_spec : NextSpec g userInput s (dagNext g userInput s) := by
  rw [dagNext]
  split
  · next id hid =>
      split
      · trivial
      · split
        · trivial
        · next fired hfired => exact ⟨hid, fired, hfired, rfl⟩
  · next hrun =>
      split
      · next hprune => exact hprune
      · next hprune =>
          split
          · next target feedback hfind =>
              exact ⟨List.mem_of_find?_eq_some hfind, by simpa using List.find?_some hfind⟩
          · exact ⟨hrun, hprune⟩

theorem dagNext_is {next : DagNext} (h : dagNext g userInput s = next) :
    NextSpec g userInput s next :=
  h ▸ dagNext_spec

/-! ## Passes -/

/-- The passes that do not end the run. -/
inductive Pass (g : PipelineGraph) (userInput : String) (s : DagState) : NodeRun → DagState → Prop
  | settled {id input : String} {o : NodeOutcome} :
      dagNext g userInput s = .execute id input →
      eagerRetry g id o (settleNode id input o s) = none →
      Pass g userInput s (.ran o) (settleNode id input o s)
  | repeated {id input target : String} {o : NodeOutcome} :
      dagNext g userInput s = .execute id input →
      eagerRetry g id o (settleNode id input o s) = some target →
      Pass g userInput s (.ran o) (retryRegion g target o (settleNode id input o s))
  | pruned {run : NodeRun} {id : String} {reason : PruneReason} :
      dagNext g userInput s = .prune id reason → Pass g userInput s run (pruneNode id reason s)
  | retried {run : NodeRun} {target : String} {o : NodeOutcome} :
      dagNext g userInput s = .retry target o → Pass g userInput s run (retryRegion g target o s)

/-- The passes that do. -/
inductive Stop (g : PipelineGraph) (userInput : String) (s : DagState) : DagEnd → DagState → Prop
  | quiet : dagNext g userInput s = .quiesce → Stop g userInput s .quiescent s
  | before {ending : DagEnd} : ending ≠ .quiescent → Stop g userInput s ending s
  | refused {ending : DagEnd} {id input : String} {run : NodeRun} :
      dagNext g userInput s = .execute id input → ending ≠ .quiescent →
      Stop g userInput s ending (s.record (.executed id input run))
  | after {ending : DagEnd} {id input : String} {o : NodeOutcome} :
      dagNext g userInput s = .execute id input → ending ≠ .quiescent →
      Stop g userInput s ending (settleNode id input o s)

theorem Stop.quiescent (h : Stop g userInput s .quiescent s') :
    s' = s ∧ dagNext g userInput s = .quiesce := by
  cases h with
  | quiet hnext => exact ⟨rfl, hnext⟩
  | before hne => exact absurd rfl hne
  | refused _ hne => exact absurd rfl hne
  | after _ hne => exact absurd rfl hne

theorem stopsAfter_ne {id : String} {o : NodeOutcome} {total : TokenUsage} {ending : DagEnd}
    (h : stopsAfter g id o total = some ending) : ending ≠ .quiescent := by
  rw [stopsAfter] at h
  split at h
  · obtain rfl := Option.some.inj h
    simp
  · split at h
    · obtain rfl := Option.some.inj h
      simp
    · split at h
      · obtain rfl := Option.some.inj h
        simp
      · cases h

/-- **What a pass does.** -/
theorem dagStep_cases (run : NodeRun) :
    (∃ s', dagStep g userInput run s = .inl s' ∧ Pass g userInput s run s') ∨
      ∃ ending s', dagStep g userInput run s = .inr (ending, s') ∧
        Stop g userInput s ending s' := by
  rw [dagStep]
  cases hnext : dagNext g userInput s with
  | exhausted id => exact Or.inr ⟨_, _, rfl, .before (by simp)⟩
  | invalid => exact Or.inr ⟨_, _, rfl, .before (by simp)⟩
  | prune id reason => exact Or.inl ⟨_, rfl, .pruned hnext⟩
  | retry target o => exact Or.inl ⟨_, rfl, .retried hnext⟩
  | quiesce => exact Or.inr ⟨_, _, rfl, .quiet hnext⟩
  | execute id input =>
      cases run with
      | aborted reason => exact Or.inr ⟨_, _, rfl, .refused hnext (by simp)⟩
      | failed error => exact Or.inr ⟨_, _, rfl, .refused hnext (by simp)⟩
      | ran o =>
          dsimp only
          split
          · next ending hstop => exact Or.inr ⟨_, _, rfl, .after hnext (stopsAfter_ne hstop)⟩
          · split
            · next target heager => exact Or.inl ⟨_, rfl, .repeated hnext heager⟩
            · next heager => exact Or.inl ⟨_, rfl, .settled hnext heager⟩

theorem dagStep_pass {run : NodeRun} (h : dagStep g userInput run s = .inl s') :
    Pass g userInput s run s' := by
  rcases dagStep_cases (g := g) (s := s) run with ⟨t, ht, hpass⟩ | ⟨ending, t, ht, -⟩
  · rw [h] at ht
    obtain rfl := Sum.inl.inj ht
    exact hpass
  · rw [h] at ht
    cases ht

theorem dagStep_stop {run : NodeRun} {ending : DagEnd}
    (h : dagStep g userInput run s = .inr (ending, s')) : Stop g userInput s ending s' := by
  rcases dagStep_cases (g := g) (s := s) run with ⟨t, ht, -⟩ | ⟨ending', t, ht, hstop⟩
  · rw [h] at ht
    cases ht
  · rw [h] at ht
    obtain ⟨rfl, rfl⟩ := Prod.mk.inj (Sum.inr.inj ht)
    exact hstop

/-! ## Moves -/

/-- The distinct targets of the back edges. -/
def backTargets (g : PipelineGraph) : Finset String :=
  ((g.edges.filter (edgeIsBack g)).map PipelineEdge.target).toFinset

/-- The changes the tables undergo. -/
inductive Move (g : PipelineGraph) (s : DagState) : DagState → Prop
  | settle {id input : String} {o : NodeOutcome} : g.hasNode id = true → s.settled id = false →
      s.readiness g id = some .runnable → Move g s (settleNode id input o s)
  | prune {id : String} {reason : PruneReason} : g.hasNode id = true → s.settled id = false →
      s.readiness g id = some (.prune reason) → Move g s (pruneNode id reason s)
  | retry {target : String} {o : NodeOutcome} : target ∈ backTargets g →
      s.retries target < maxNodeRuns → Move g s (retryRegion g target o s)

theorem mem_backTargets {e : PipelineEdge} (he : e ∈ g.edges) (hback : edgeIsBack g e = true) :
    e.target ∈ backTargets g :=
  List.mem_toFinset.mpr (List.mem_map_of_mem (List.mem_filter.mpr ⟨he, hback⟩))

theorem firedBack_target {target : String} {o : NodeOutcome} (h : (target, o) ∈ firedBack g s) :
    target ∈ backTargets g := by
  obtain ⟨e, he, hfires⟩ := List.mem_filterMap.mp h
  obtain ⟨hedge, hback⟩ := List.mem_filter.mp he
  split at hfires
  · cases hfires
  · split at hfires
    · obtain ⟨rfl, -⟩ := Prod.mk.inj (Option.some.inj hfires)
      exact mem_backTargets hedge hback
    · cases hfires

theorem eagerRetry_target {id target : String} {o : NodeOutcome}
    (h : eagerRetry g id o s = some target) :
    target ∈ backTargets g ∧ s.retries target < maxNodeRuns := by
  obtain ⟨e, he, rfl⟩ := Option.map_eq_some_iff.mp h
  have hmem := (List.mem_filter.mp (List.mem_of_find?_eq_some he))
  have hp := List.find?_some he
  simp only [Bool.and_eq_true, decide_eq_true_eq, beq_iff_eq] at hp hmem
  exact ⟨mem_backTargets hmem.1 hmem.2.2, hp.2⟩

theorem settle_move {id input : String} {o : NodeOutcome}
    (h : dagNext g userInput s = .execute id input) : Move g s (settleNode id input o s) := by
  obtain ⟨hnode, hfree, hready⟩ := findRunnable_some (dagNext_is h).1
  exact .settle hnode hfree hready

/-- **A pass is one move, or a settling and a retry.** -/
theorem Pass.moves {run : NodeRun} (h : Pass g userInput s run s') :
    Relation.TransGen (Move g) s s' := by
  cases h with
  | settled hnext _ => exact .single (settle_move hnext)
  | repeated hnext heager =>
      obtain ⟨ht, hleft⟩ := eagerRetry_target heager
      exact .tail (.single (settle_move hnext)) (.retry ht hleft)
  | pruned hnext =>
      obtain ⟨hnode, hfree, hready⟩ := findPrunable_some (dagNext_is hnext)
      exact .single (.prune hnode hfree hready)
  | retried hnext =>
      obtain ⟨hfired, hleft⟩ := dagNext_is hnext
      exact .single (.retry (firedBack_target hfired) hleft)

/-- A pass of the scheduler, as a step. -/
def dagPass (g : PipelineGraph) (userInput : String) (s : DagState) (run : NodeRun)
    (s' : DagState) : Prop :=
  dagStep g userInput run s = .inl s'

/-- What every move keeps, every run keeps. -/
theorem Move.invariant {I : DagState → Prop} (hkeep : ∀ s s', I s → Move g s s' → I s')
    {rs : List NodeRun} (hrun : Run (dagPass g userInput) s rs s') (hs : I s) : I s' := by
  refine hrun.invariant ?_ hs
  intro a run b ha hpass
  have hmoves := (dagStep_pass hpass).moves
  clear hpass
  induction hmoves with
  | single hm => exact hkeep _ _ ha hm
  | tail _ hm ih => exact hkeep _ _ ih hm

/-- A finished loop is a run and a last pass. -/
theorem dagLoop_run {runs : Nat → NodeRun} {fuel : Nat} {ending : DagEnd} :
    ∀ {s : DagState}, dagLoop g userInput runs fuel s = some (ending, s') →
      ∃ rs last run, Run (dagPass g userInput) s rs last ∧
        dagStep g userInput run last = .inr (ending, s') := by
  induction fuel with
  | zero =>
      intro s h
      cases h
  | succ fuel ih =>
      intro s h
      rw [dagLoop] at h
      split at h
      · next t hstep =>
          obtain ⟨rs, last, run, hrun, hend⟩ := ih h
          exact ⟨_, last, run, (Run.single hstep).append hrun, hend⟩
      · next r hstep =>
          obtain rfl := Option.some.inj h
          exact ⟨[], s, _, .nil s, hstep⟩

end Octos.Pipeline
