/-
# `Octos.Pipeline.DagVerdict` — the verdict of a scheduled run

`dag_build_result` derives success from the final tables, and from a flag that
`execute_graph_dag` raises at every failure prune.  A retry takes entries out of
the `pruned` table but leaves the flag: after a run that un-settled a failure
prune and then passed everywhere the two disagree.
In the run of `repairGraph` below `a` fails first; `b` is failure-pruned before
`p` is pruned and `x` can run, and `x` asks for the retry of `a`.  In the second
round `a` and `b` pass.
-/
import Octos.Pipeline.DagRuns

namespace Octos.Pipeline

variable {g : PipelineGraph} {userInput : String} {s s' : DagState}

/-- A node that completed and fired no forward edge. -/
def Terminal (g : PipelineGraph) (s : DagState) (n : String) : Prop :=
  (∃ o, s.completed[n]? = some o) ∧
    ∀ e ∈ g.edges, e.source = n → edgeIsBack g e = false → edgeFired g s.completed e = false

/-- What the verdict of a quiescent run is about. -/
structure Succeeded (g : PipelineGraph) (s : DagState) : Prop where
  ended : ∃ n, Terminal g s n
  passed : ∀ n o, Terminal g s n → s.completed[n]? = some o → o.status = .pass
  complete : ∀ n : String, s.pruned[n]? ≠ some .failure

theorem mem_dagTerminalNodes {n : String} :
    n ∈ dagTerminalNodes g s.completed ↔ Terminal g s n := by
  simp only [dagTerminalNodes, List.mem_map, List.mem_filter, Prod.exists, exists_and_right,
    exists_eq_right, Table.mem_rows, Bool.not_eq_true', List.any_eq_false, Bool.and_eq_true,
    beq_iff_eq, not_and, Bool.not_eq_true, Terminal, and_imp]
  constructor
  · rintro ⟨o, ho, hnone⟩
    refine ⟨⟨o, ho⟩, ?_⟩
    rintro e he rfl hforward
    have hquiet := hnone e he rfl hforward
    rw [edgeFired, ho, Option.any_some]
    cases hfires : dagForwardEdgeFires g e o (continueOnError g e.source) with
    | none => rfl
    | some b =>
        rw [hfires] at hquiet
        obtain rfl : b = false := hquiet
        rfl
  · rintro ⟨⟨o, ho⟩, hnone⟩
    refine ⟨o, ho, ?_⟩
    rintro e he rfl hforward
    have hquiet := hnone e he rfl hforward
    rw [edgeFired, ho, Option.any_some] at hquiet
    cases hfires : dagForwardEdgeFires g e o (continueOnError g e.source) with
    | none => rfl
    | some b =>
        rw [hfires] at hquiet
        cases b with
        | false => rfl
        | true => cases hquiet

/-- **What the code reports at quiescence**: the terminals, and the flag. -/
theorem quiescent_success {r : PipelineResult} (hr : dagResult g .quiescent s = some r) :
    r.success = true ↔ (∃ n, Terminal g s n) ∧
      (∀ n o, Terminal g s n → s.completed[n]? = some o → o.status = .pass) ∧
        s.anyFailurePrune = false := by
  obtain rfl := Option.some.inj hr
  simp only [dagBuildResult, Option.getD_none, Bool.and_eq_true, Bool.not_eq_true',
    List.isEmpty_eq_false_iff_exists_mem, List.all_eq_true, List.mem_filterMap,
    mem_dagTerminalNodes, beq_iff_eq, and_assoc]
  refine and_congr_right (fun _ => and_congr_left (fun _ => ?_))
  constructor
  · intro h n o hn ho
    exact h o ⟨n, hn, ho⟩
  · rintro h o ⟨n, hn, ho⟩
    exact h n o hn ho

/-! ## The flag and the table -/

/-- The target whose region a pass un-settles, if it does. -/
def retriedTarget (g : PipelineGraph) (userInput : String) (s : DagState) (run : NodeRun) :
    Option String :=
  match dagNext g userInput s, run with
  | .execute id input, .ran o => eagerRetry g id o (settleNode id input o s)
  | .retry target _, _ => some target
  | _, _ => none

/-- The pass un-settles no failure-pruned node. -/
def KeepsFailures (g : PipelineGraph) (userInput : String) (s : DagState) (run : NodeRun) : Prop :=
  ∀ target, retriedTarget g userInput s run = some target →
    ∀ n ∈ forwardReachable g target, s.pruned[n]? ≠ some .failure

/-- The flag says whether the table has a failure. -/
def Flagged (s : DagState) : Prop :=
  s.anyFailurePrune = true ↔ ∃ n : String, s.pruned[n]? = some .failure

theorem Flagged.iff (hs : Flagged s) :
    s.anyFailurePrune = true ↔ ∃ n : String, s.pruned[n]? = some .failure := hs

theorem Flagged.retry {target : String} {o : NodeOutcome} (hs : Flagged s)
    (hkeep : ∀ n ∈ forwardReachable g target, s.pruned[n]? ≠ some .failure) :
    Flagged (retryRegion g target o s) := by
  refine Iff.trans hs (exists_congr ?_)
  intro n
  rw [retryRegion_pruned]
  split
  · next hin => simp [hkeep n hin]
  · rfl

theorem Flagged.pass {run : NodeRun} (hs : Flagged s) (hpass : Pass g userInput s run s')
    (hkeep : KeepsFailures g userInput s run) : Flagged s' := by
  cases hpass with
  | settled _ _ => exact hs
  | @repeated id input target o hnext heager =>
      have hsettled : Flagged (settleNode id input o s) := hs
      refine hsettled.retry (hkeep target ?_)
      simp only [retriedTarget, hnext, heager]
  | @retried _ target o hnext =>
      refine hs.retry (hkeep target ?_)
      simp only [retriedTarget, hnext]
  | @pruned _ id reason hnext =>
      obtain ⟨-, hfree, -⟩ := findPrunable_some (dagNext_is hnext)
      have hnew := (settled_eq_false.mp hfree).2
      show (s.anyFailurePrune || decide (reason = .failure)) = true ↔
        ∃ n : String, (s.pruned.insert id reason)[n]? = some .failure
      rw [Bool.or_eq_true, decide_eq_true_eq, hs.iff]
      constructor
      · rintro (⟨n, hn⟩ | rfl)
        · refine ⟨n, ?_⟩
          rw [Table.get_insert_ne _ _ (fun h => by rw [h, hn] at hnew; cases hnew), hn]
        · exact ⟨id, Table.get_insert_self _ _ _⟩
      · rintro ⟨n, hn⟩
        rcases Table.of_get_insert hn with ⟨-, hreason⟩ | ⟨-, hn⟩
        · exact Or.inr hreason
        · exact Or.inl ⟨n, hn⟩

/-- A pass that un-settles no failure prune. -/
def keptPass (g : PipelineGraph) (userInput : String) (s : DagState) (run : NodeRun)
    (s' : DagState) : Prop :=
  dagPass g userInput s run s' ∧ KeepsFailures g userInput s run

theorem Flagged.run {rs : List NodeRun} (hrun : Run (keptPass g userInput) .start rs s) :
    Flagged s := by
  refine hrun.invariant (fun a run b ha hpass => ha.pass (dagStep_pass hpass.1) hpass.2) ?_
  simp [Flagged, DagState.start]

/-- **The verdict depends on how the run ended**, in every run in which no retry
un-settles a failure-pruned node. -/
theorem dag_verdict_of_kept {rs : List NodeRun} (hrun : Run (keptPass g userInput) .start rs s)
    {last : NodeRun} (hend : dagStep g userInput last s = .inr (.quiescent, s'))
    {r : PipelineResult} (hr : dagResult g .quiescent s' = some r) :
    r.success = true ↔ Succeeded g s' := by
  obtain ⟨rfl, -⟩ := (dagStep_stop hend).quiescent
  have hflag : s'.anyFailurePrune = false ↔ ∀ n : String, s'.pruned[n]? ≠ some .failure := by
    rw [← Bool.not_eq_true, (Flagged.run hrun).iff, not_exists]
  rw [quiescent_success hr, hflag]
  constructor
  · rintro ⟨hended, hpassed, hcomplete⟩
    exact ⟨hended, hpassed, hcomplete⟩
  · intro h
    exact ⟨h.ended, h.passed, h.complete⟩

/-- Without a failure prune no retry can un-settle one. -/
theorem kept_of_unflagged {rs : List NodeRun} (hrun : Run (dagPass g userInput) .start rs s)
    (hflag : s.anyFailurePrune = false) : Run (keptPass g userInput) .start rs s := by
  induction hrun with
  | nil => exact .nil _
  | @snoc t u rs run hrun hpass ih =>
      have hbefore : t.anyFailurePrune = false := by
        cases dagStep_pass hpass with
        | settled _ _ => exact hflag
        | repeated _ _ => exact hflag
        | pruned _ => exact (Bool.or_eq_false_iff.mp hflag).1
        | retried _ => exact hflag
      have hkept := ih hbefore
      refine .snoc hkept ⟨hpass, ?_⟩
      intro target _ n _ hn
      rw [(Flagged.run hkept).iff.mpr ⟨n, hn⟩] at hbefore
      cases hbefore

/-- A run of the repair loop in which nothing fails. -/
theorem dag_verdict_of_kept_repair : ∃ s r, executeGraphDag repairGraph "go" passRuns 20 =
      some (.quiescent, s) ∧ dagResult repairGraph .quiescent s = some r ∧
        (r.success = true ↔ Succeeded repairGraph s) := by
  obtain ⟨⟨ending, s⟩, hloop, hfacts⟩ : ∃ x, executeGraphDag repairGraph "go" passRuns 20 = some x ∧
      (decide (x.1 = .quiescent) && !x.2.anyFailurePrune) = true :=
    (Option.any_eq_true _ _).mp (by decide +kernel)
  simp only [Bool.and_eq_true, decide_eq_true_eq, Bool.not_eq_true'] at hfacts
  obtain ⟨rfl, hflag⟩ := hfacts
  obtain ⟨rs, last, run, hrun, hend⟩ := dagLoop_run hloop
  obtain ⟨rfl, -⟩ := (dagStep_stop hend).quiescent
  exact ⟨s, _, hloop, rfl, dag_verdict_of_kept (kept_of_unflagged hrun hflag) hend rfl⟩

/-! ## The disagreement -/

/-- The final tables meet what the verdict is about, and the verdict is that the
run failed. -/
theorem repair_reported_failed :
    hasErrors (diagnostics repairGraph) = false ∧ graphIsDagSchedulable repairGraph = true ∧
      ∃ s r, executeGraphDag repairGraph "go" repairRuns 20 = some (.quiescent, s) ∧
        dagResult repairGraph .quiescent s = some r ∧ Succeeded repairGraph s ∧
          r.success = false := by
  refine ⟨by decide +kernel, by decide +kernel, ?_⟩
  obtain ⟨⟨ending, s⟩, hrun, hfacts⟩ : ∃ x, executeGraphDag repairGraph "go" repairRuns 20 = some x ∧
      (decide (x.1 = .quiescent) && decide (dagTerminalNodes repairGraph x.2.completed = ["b"]) &&
        x.2.completed["b"]?.any (fun o => o.status == .pass) &&
        x.2.pruned.toList.all (fun e => e.2 != .failure) && x.2.anyFailurePrune) = true :=
    (Option.any_eq_true _ _).mp (by decide +kernel)
  simp only [Bool.and_eq_true, decide_eq_true_eq, and_assoc] at hfacts
  obtain ⟨rfl, hterminal, hpass, hpruned, hflag⟩ := hfacts
  have hb : ∀ n, Terminal repairGraph s n ↔ n = "b" := by
    intro n
    rw [← mem_dagTerminalNodes, hterminal, List.mem_singleton]
  refine ⟨s, _, hrun, rfl, ⟨⟨"b", (hb "b").mpr rfl⟩, ?_, ?_⟩, ?_⟩
  · intro n o hn ho
    obtain rfl := (hb n).mp hn
    rw [ho, Option.any_some, beq_iff_eq] at hpass
    exact hpass
  · intro n hn
    have hne := List.all_eq_true.mp hpruned _ (Table.mem_rows.mpr hn)
    simp at hne
  · show (_ && !s.anyFailurePrune) = false
    rw [hflag, Bool.not_true, Bool.and_false]

end Octos.Pipeline
