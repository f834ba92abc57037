/-
# `Octos.Pipeline.DagRuns` — what every run of the scheduler keeps

    Sound      settled nodes are settled for a reason that still holds
    Counted    a node ran at most once for each retry that could un-settle it
    Fed        the pending critiques are those the history has

What makes a retry harmless is that a region is closed under forward edges: what
stays settled has all of its predecessors outside, unchanged.  What makes the
whole terminate is `potential`: a retry spends one of the ten its target has,
and between two retries every move settles a node.
-/
import Octos.Pipeline.DagMoves

namespace Octos.Pipeline

open Reach

variable {g : PipelineGraph} {userInput : String} {s s' : DagState}

/-! ## The tables after a move -/

theorem settled_iff {id : String} :
    s.settled id = true ↔ (∃ o, s.completed[id]? = some o) ∨ ∃ r, s.pruned[id]? = some r := by
  rw [DagState.settled, isSettled, Bool.or_eq_true, Option.isSome_iff_exists,
    Option.isSome_iff_exists]

theorem settled_eq_false {id : String} :
    s.settled id = false ↔ s.completed[id]? = none ∧ s.pruned[id]? = none := by
  rw [DagState.settled, isSettled, Bool.or_eq_false_iff, Option.isSome_eq_false_iff,
    Option.isSome_eq_false_iff, Option.isNone_iff_eq_none, Option.isNone_iff_eq_none]

theorem settleNode_settled {id input n : String} {o : NodeOutcome} :
    (settleNode id input o s).settled n = (decide (id = n) || s.settled n) := by
  show ((s.completed.insert id o)[n]?.isSome || s.pruned[n]?.isSome) = _
  rw [Table.get_insert]
  by_cases hn : id = n
  · simp [hn]
  · simp [hn, DagState.settled, isSettled]

theorem pruneNode_settled {id n : String} {reason : PruneReason} :
    (pruneNode id reason s).settled n = (decide (id = n) || s.settled n) := by
  show (s.completed[n]?.isSome || (s.pruned.insert id reason)[n]?.isSome) = _
  rw [Table.get_insert]
  by_cases hn : id = n
  · simp [hn]
  · simp [hn, DagState.settled, isSettled]

section Region

variable {target n : String} {o : NodeOutcome}

theorem retryRegion_completed : (retryRegion g target o s).completed[n]? =
    if n ∈ forwardReachable g target then none else s.completed[n]? :=
  Table.get_foldl_erase _ _ _

theorem retryRegion_pruned : (retryRegion g target o s).pruned[n]? =
    if n ∈ forwardReachable g target then none else s.pruned[n]? :=
  Table.get_foldl_erase _ _ _

theorem retryRegion_settled : (retryRegion g target o s).settled n =
    (decide (n ∉ forwardReachable g target) && s.settled n) := by
  show ((retryRegion g target o s).completed[n]?.isSome ||
    (retryRegion g target o s).pruned[n]?.isSome) = _
  rw [retryRegion_completed, retryRegion_pruned]
  by_cases hn : n ∈ forwardReachable g target
  · simp [hn]
  · simp [hn, DagState.settled, isSettled]

theorem retryRegion_retries : (retryRegion g target o s).retries n =
    s.retries n + if target = n then 1 else 0 := by
  show ((s.retryCount.insert target (s.retries target + 1))[n]?).getD 0 = _
  rw [Table.get_insert]
  split
  · next hn => rw [← hn, Option.getD_some]
  · rw [Nat.add_zero, DagState.retries]

end Region

theorem record_executions {e : DagEvent} : (s.record e).executions =
    s.executions ++ (match e with | .executed id _ _ => [id] | _ => []) := by
  rw [DagState.executions, DagState.record, List.filterMap_append, DagState.executions]
  cases e <;> rfl

theorem settleNode_executions {id input : String} {o : NodeOutcome} :
    (settleNode id input o s).executions = s.executions ++ [id] :=
  record_executions (e := .executed id input (.ran o))

theorem pruneNode_executions {id : String} {reason : PruneReason} :
    (pruneNode id reason s).executions = s.executions :=
  (record_executions (e := .pruned id reason)).trans (List.append_nil _)

theorem retryRegion_executions {target : String} {o : NodeOutcome} :
    (retryRegion g target o s).executions = s.executions :=
  (record_executions (e := .retried target o)).trans (List.append_nil _)

/-! ## Settled for a reason that holds -/

structure Sound (g : PipelineGraph) (s : DagState) : Prop where
  disjoint : ∀ (id : String) r, s.pruned[id]? = some r → s.completed[id]? = none
  nodes : ∀ id, s.settled id = true → g.hasNode id = true
  completed : ∀ (id : String) o, s.completed[id]? = some o → s.readiness g id = some .runnable
  pruned : ∀ (id : String) r, s.pruned[id]? = some r → s.readiness g id = some (.prune r)

theorem Sound.start : Sound g .start where
  disjoint id r h := by simp [DagState.start] at h
  nodes id h := by simp [DagState.start, DagState.settled, isSettled] at h
  completed id o h := by simp [DagState.start] at h
  pruned id r h := by simp [DagState.start] at h

/-- Settling one more node leaves what was decided. -/
theorem Validated.readiness_extend (h : Validated g) {n id : String} {r : NodeReadiness}
    (hfree : s.settled n = false) (hcompleted : ∀ p, p ≠ n → s.completed[p]? = s'.completed[p]?)
    (hpruned : ∀ p, p ≠ n → s.pruned[p]? = s'.pruned[p]?) (hr : s.readiness g id = some r)
    (hne : r ≠ .notReady) : s'.readiness g id = some r := by
  have hother : ∀ p, isSettled s.completed s.pruned p = true → p ≠ n := by
    rintro p hp rfl
    exact absurd hp (by rw [← DagState.settled, hfree]; simp)
  exact h.readiness_frame hr hne (fun p _ hp => hcompleted p (hother p hp))
    (fun p _ hp => hpruned p (hother p hp))

/-- So does un-settling a region, outside of it. -/
theorem Validated.readiness_retry (h : Validated g) {target id : String} {o : NodeOutcome}
    {r : NodeReadiness} (hout : id ∉ forwardReachable g target) (hr : s.readiness g id = some r)
    (hne : r ≠ .notReady) : (retryRegion g target o s).readiness g id = some r := by
  have hpred : ∀ p ∈ forwardPreds g id, p ∉ forwardReachable g target := by
    intro p hp hin
    exact hout (forwardReachable_closed hin (mem_forwardPreds.mp hp))
  refine h.readiness_frame hr hne ?_ ?_
  · intro p hp _
    rw [retryRegion_completed, if_neg (hpred p hp)]
  · intro p hp _
    rw [retryRegion_pruned, if_neg (hpred p hp)]

/-- **Every move keeps it.** -/
theorem Sound.move (h : Validated g) (hs : Sound g s) (hm : Move g s s') : Sound g s' := by
  cases hm with
  | @settle id input o hnode hfree hready =>
      obtain ⟨hc, hp⟩ := settled_eq_false.mp hfree
      have hext : ∀ {n r}, s.readiness g n = some r → r ≠ .notReady →
          (settleNode id input o s).readiness g n = some r :=
        h.readiness_extend hfree (fun p hne => (Table.get_insert_ne _ _ hne.symm).symm)
          (fun p _ => rfl)
      refine ⟨?_, ?_, ?_, ?_⟩
      · intro n r hn
        have hne : id ≠ n := by
          rintro rfl
          rw [show (settleNode id input o s).pruned = s.pruned from rfl, hp] at hn
          cases hn
        rw [show (settleNode id input o s).completed = s.completed.insert id o from rfl,
          Table.get_insert_ne _ _ hne]
        exact hs.disjoint n r hn
      · intro n hn
        rw [settleNode_settled, Bool.or_eq_true, decide_eq_true_eq] at hn
        rcases hn with rfl | hn
        · exact hnode
        · exact hs.nodes n hn
      · intro n o' hn
        rcases Table.of_get_insert hn with ⟨rfl, -⟩ | ⟨-, hn⟩
        · exact hext hready (by simp)
        · exact hext (hs.completed n o' hn) (by simp)
      · intro n r hn
        exact hext (hs.pruned n r hn) (by simp)
  | @prune id reason hnode hfree hready =>
      obtain ⟨hc, hp⟩ := settled_eq_false.mp hfree
      have hext : ∀ {n r}, s.readiness g n = some r → r ≠ .notReady →
          (pruneNode id reason s).readiness g n = some r :=
        h.readiness_extend hfree (fun p _ => rfl)
          (fun p hne => (Table.get_insert_ne _ _ hne.symm).symm)
      refine ⟨?_, ?_, ?_, ?_⟩
      · intro n r hn
        rcases Table.of_get_insert hn with ⟨rfl, -⟩ | ⟨-, hn⟩
        · exact hc
        · exact hs.disjoint n r hn
      · intro n hn
        rw [pruneNode_settled, Bool.or_eq_true, decide_eq_true_eq] at hn
        rcases hn with rfl | hn
        · exact hnode
        · exact hs.nodes n hn
      · intro n o hn
        exact hext (hs.completed n o hn) (by simp)
      · intro n r hn
        rcases Table.of_get_insert hn with ⟨rfl, rfl⟩ | ⟨-, hn⟩
        · exact hext hready (by simp)
        · exact hext (hs.pruned n r hn) (by simp)
  | @retry target o ht hleft =>
      refine ⟨?_, ?_, ?_, ?_⟩
      · intro n r hn
        rw [retryRegion_pruned] at hn
        rw [retryRegion_completed]
        split at hn
        · cases hn
        · next hout => rw [if_neg hout, hs.disjoint n r hn]
      · intro n hn
        rw [retryRegion_settled, Bool.and_eq_true] at hn
        exact hs.nodes n hn.2
      · intro n o' hn
        rw [retryRegion_completed] at hn
        split at hn
        · cases hn
        · next hout => exact h.readiness_retry hout (hs.completed n o' hn) (by simp)
      · intro n r hn
        rw [retryRegion_pruned] at hn
        split at hn
        · cases hn
        · next hout => exact h.readiness_retry hout (hs.pruned n r hn) (by simp)

/-- A settled node is ready. -/
theorem Sound.ready (hs : Sound g s) {id : String} (hset : s.settled id = true) :
    ∃ r, s.readiness g id = some r ∧ r ≠ .notReady := by
  rcases settled_iff.mp hset with ⟨o, ho⟩ | ⟨r, hr⟩
  · exact ⟨.runnable, hs.completed id o ho, by simp⟩
  · exact ⟨.prune r, hs.pruned id r hr, by simp⟩

/-! ## How often a node runs -/

/-- The back-edge targets whose region contains a node. -/
def regionsOver (g : PipelineGraph) (n : String) : Finset String :=
  (backTargets g).filter (fun t => n ∈ forwardReachable g t)

/-- The retries that could un-settle a node. -/
def regionRetries (g : PipelineGraph) (s : DagState) (n : String) : Nat :=
  ∑ t ∈ regionsOver g n, s.retries t

structure Counted (g : PipelineGraph) (s : DagState) : Prop where
  retries : ∀ t, s.retries t ≤ maxNodeRuns
  executions : ∀ n, s.executions.count n ≤ (s.settled n).toNat + regionRetries g s n

theorem Counted.start : Counted g .start where
  retries t := by simp [DagState.start, DagState.retries]
  executions n := by simp [DagState.start, DagState.executions]

theorem regionRetries_retry {target n : String} {o : NodeOutcome} :
    regionRetries g (retryRegion g target o s) n =
      regionRetries g s n + if target ∈ regionsOver g n then 1 else 0 := by
  simp only [regionRetries, retryRegion_retries, Finset.sum_add_distrib, Finset.sum_ite_eq]

theorem Counted.move (hs : Counted g s) (hm : Move g s s') : Counted g s' := by
  cases hm with
  | @settle id input o hnode hfree hready =>
      refine ⟨hs.retries, ?_⟩
      intro n
      have hn := hs.executions n
      rw [settleNode_executions, List.count_append, settleNode_settled,
        show regionRetries g (settleNode id input o s) n = regionRetries g s n from rfl]
      by_cases hid : id = n
      · subst hid
        rw [hfree] at hn
        simp at hn ⊢
        omega
      · simp [hid] at hn ⊢
        exact hn
  | @prune id reason hnode hfree hready =>
      refine ⟨hs.retries, ?_⟩
      intro n
      have hn := hs.executions n
      rw [pruneNode_executions, pruneNode_settled,
        show regionRetries g (pruneNode id reason s) n = regionRetries g s n from rfl]
      by_cases hid : id = n
      · subst hid
        rw [hfree] at hn
        simp at hn ⊢
        omega
      · simpa [hid] using hn
  | @retry target o ht hleft =>
      refine ⟨?_, ?_⟩
      · intro t
        rw [retryRegion_retries]
        split
        · next heq => exact heq ▸ hleft
        · exact hs.retries t
      · intro n
        have hn := hs.executions n
        rw [retryRegion_executions, retryRegion_settled, regionRetries_retry]
        -- in the region the retry pays for the lost entry
        by_cases hin : n ∈ forwardReachable g target
        · have hover : target ∈ regionsOver g n := Finset.mem_filter.mpr ⟨ht, hin⟩
          have hle := Bool.toNat_le (s.settled n)
          simp only [hin, hover, not_true_eq_false, decide_false, Bool.false_and, Bool.toNat_false,
            if_true]
          omega
        · simp only [hin, not_false_eq_true, decide_true, Bool.true_and]
          omega

theorem regionRetries_le (hs : Counted g s) (n : String) :
    regionRetries g s n ≤ maxNodeRuns * (regionsOver g n).card := by
  have hle := Finset.sum_le_card_nsmul (regionsOver g n) s.retries maxNodeRuns
    (fun t _ => hs.retries t)
  rw [smul_eq_mul, Nat.mul_comm] at hle
  exact hle

/-- **A node runs once, and ten times more for each target that can repeat it**,
the run the scheduler stops at included. -/
theorem Counted.stop (hs : Counted g s) {ending : DagEnd} (hstop : Stop g userInput s ending s')
    (n : String) : s'.executions.count n ≤ 1 + maxNodeRuns * (regionsOver g n).card := by
  have hbound := regionRetries_le hs n
  have hn := hs.executions n
  have hone := Bool.toNat_le (s.settled n)
  -- a node that is executed was unsettled, so its count had one to spare
  have hnext : ∀ {id input : String}, dagNext g userInput s = .execute id input →
      (s.executions ++ [id]).count n ≤ 1 + regionRetries g s n := by
    intro id input hexec
    obtain ⟨-, hfree, -⟩ := findRunnable_some (dagNext_is hexec).1
    rw [List.count_append]
    by_cases hid : id = n
    · subst hid
      rw [hfree] at hn
      simp at hn ⊢
      omega
    · simp [hid]
      omega
  cases hstop with
  | quiet _ => omega
  | before _ => omega
  | refused hexec _ =>
      rw [record_executions]
      have := hnext hexec
      dsimp only
      omega
  | after hexec _ =>
      rw [settleNode_executions]
      have := hnext hexec
      omega

/-! ## Termination -/

/-- The nodes still to be settled. -/
def openNodes (g : PipelineGraph) (s : DagState) : Finset String :=
  g.nodeIds.toFinset.filter (fun id => s.settled id = false)

/-- The retries left, then the nodes to settle. -/
def potential (g : PipelineGraph) (s : DagState) : Nat :=
  (∑ t ∈ backTargets g, (maxNodeRuns - s.retries t)) * (g.nodeIds.toFinset.card + 1) +
    (openNodes g s).card

/-- Settling a node closes it. -/
theorem openNodes_lt (s' : DagState) {id : String} (hnode : g.hasNode id = true) (hfree : s.settled id = false)
    (hset : ∀ n, s'.settled n = (decide (id = n) || s.settled n)) :
    (openNodes g s').card < (openNodes g s).card := by
  refine Finset.card_lt_card (Finset.ssubset_iff_of_subset ?_ |>.mpr ⟨id, ?_, ?_⟩)
  · intro n hn
    simp only [openNodes, Finset.mem_filter, hset, Bool.or_eq_false_iff] at hn ⊢
    exact ⟨hn.1, hn.2.2⟩
  · simp only [openNodes, Finset.mem_filter, List.mem_toFinset]
    exact ⟨mem_nodeIds.mpr hnode, hfree⟩
  · simp [openNodes, hset]

/-- **Every move lowers the potential.** -/
theorem Move.potential_lt (hm : Move g s s') : potential g s' < potential g s := by
  cases hm with
  | @settle id input o hnode hfree hready =>
      have hlt := openNodes_lt (settleNode id input o s) hnode hfree
        (fun n => settleNode_settled)
      exact Nat.add_lt_add_left hlt _
  | @prune id reason hnode hfree hready =>
      have hlt := openNodes_lt (pruneNode id reason s) hnode hfree
        (fun n => pruneNode_settled)
      exact Nat.add_lt_add_left hlt _
  | @retry target o ht hleft =>
      have hsum : ∑ t ∈ backTargets g, (maxNodeRuns - (retryRegion g target o s).retries t) <
          ∑ t ∈ backTargets g, (maxNodeRuns - s.retries t) := by
        refine Finset.sum_lt_sum ?_ ⟨target, ht, ?_⟩
        · intro t _
          rw [retryRegion_retries]
          omega
        · rw [retryRegion_retries, if_pos rfl]
          omega
      have hopen : (openNodes g (retryRegion g target o s)).card ≤ g.nodeIds.toFinset.card :=
        Finset.card_filter_le _ _
      have hmul := Nat.mul_le_mul_right (g.nodeIds.toFinset.card + 1) hsum
      rw [Nat.succ_mul] at hmul
      simp only [potential]
      omega

theorem Pass.potential_lt {run : NodeRun} (h : Pass g userInput s run s') :
    potential g s' < potential g s := by
  have hmoves := h.moves
  clear h
  induction hmoves with
  | single hm => exact hm.potential_lt
  | tail _ hm ih => exact hm.potential_lt.trans ih

/-- The loop ends within as many passes as the potential counts. -/
theorem dagLoop_ends (runs : Nat → NodeRun) : ∀ {fuel : Nat} {s : DagState}, potential g s < fuel →
    ∃ ending s', dagLoop g userInput runs fuel s = some (ending, s') := by
  intro fuel
  induction fuel with
  | zero => intro s h; omega
  | succ fuel ih =>
      intro s h
      rw [dagLoop]
      split
      · next t hstep =>
          have hlt := (dagStep_pass hstep).potential_lt
          exact ih (by omega)
      · next r hstep => exact ⟨r.1, r.2, rfl⟩

/-! ## Quiescence -/

/-- **Without a runnable and a prunable node every node is settled**: of the
unsettled ones, a least one along forward edges has its predecessors settled. -/
theorem all_settled (h : Validated g) (hrun : findRunnable g s = none)
    (hprune : findPrunable g s = none) {n : String} (hnode : g.hasNode n = true) :
    s.settled n = true := by
  by_contra hn
  rw [Bool.not_eq_true] at hn
  obtain ⟨m, hm, hfree, hmin⟩ := h.forward_acyclic.exists_minimal
    (P := fun id => s.settled id = false) (mem_nodeIds.mpr hnode) hn
  rw [mem_nodeIds] at hm
  have hpreds : ∀ p ∈ forwardPreds g m, isSettled s.completed s.pruned p = true := by
    intro p hp
    have hforward := mem_forwardPreds.mp hp
    have hopen := hmin p (mem_nodeIds.mpr (h.forward_nodes hforward).1) hforward
    rw [Bool.not_eq_false] at hopen
    exact hopen
  have hready : s.readiness g m = some (joinReadiness g m s.completed s.pruned) := by
    rw [DagState.readiness, h.readiness, if_pos hpreds]
  rcases joinReadiness_ne (g := g) m s.completed s.pruned with hjoin | ⟨r, hjoin⟩
  · exact findRunnable_none hrun hm hfree (by rw [hready, hjoin])
  · exact findPrunable_none hprune hm hfree (by rw [hready, hjoin])

/-- **The scheduler terminates.**  Whatever the successive executions answer, on
a validated graph the run ends; no node runs more often than once and ten times
for each distinct back-edge target whose region contains it; and a run that ends
by quiescence has each node in exactly one of the two tables. -/
theorem dag_terminates (hrules : hasErrors (dagRules g) = false) (userInput : String)
    (runs : Nat → NodeRun) :
    ∃ fuel ending s, executeGraphDag g userInput runs fuel = some (ending, s) ∧
      (∀ n, s.executions.count n ≤ 1 + 10 * (regionsOver g n).card) ∧
      (ending = .quiescent → ∀ n, g.hasNode n = true →
        s.completed.contains n = !s.pruned.contains n) := by
  have h := Validated.of_rules hrules
  obtain ⟨ending, s, hs⟩ : ∃ ending s,
      executeGraphDag g userInput runs (potential g .start + 1) = some (ending, s) :=
    dagLoop_ends runs (Nat.lt_succ_self _)
  obtain ⟨rs, last, run, hrun, hend⟩ := dagLoop_run hs
  have hstop := dagStep_stop hend
  refine ⟨_, ending, s, hs, ?_, ?_⟩
  · intro n
    have hcounted := Move.invariant (fun _ _ => Counted.move) hrun Counted.start
    exact hcounted.stop hstop n
  · rintro rfl n hnode
    have hsound := Move.invariant (fun _ _ => Sound.move h) hrun Sound.start
    obtain ⟨rfl, hnext⟩ := hstop.quiescent
    obtain ⟨hrunnable, hprunable⟩ := dagNext_is hnext
    have hset := all_settled h hrunnable hprunable hnode
    cases hp : s.pruned[n]? with
    | none =>
        rcases settled_iff.mp hset with ⟨o, ho⟩ | ⟨r, hr⟩
        · simp [Std.ExtTreeMap.contains_eq_isSome_getElem?, hp, ho]
        · rw [hp] at hr
          cases hr
    | some r =>
        have hc := hsound.disjoint n r hp
        simp [Std.ExtTreeMap.contains_eq_isSome_getElem?, hp, hc]

theorem dag_terminates_repair : hasErrors (dagRules repairGraph) = false ∧
    ∃ fuel ending s, executeGraphDag repairGraph "go" repairRuns fuel = some (ending, s) ∧
      (∀ n, s.executions.count n ≤ 1 + 10 * (regionsOver repairGraph n).card) ∧
      (ending = .quiescent → ∀ n, repairGraph.hasNode n = true →
        s.completed.contains n = !s.pruned.contains n) :=
  have hrules : hasErrors (dagRules repairGraph) = false := by decide +kernel
  ⟨hrules, dag_terminates hrules "go" repairRuns⟩

/-! ## What a join gets -/

/-- The critique a node waits to be run with: that of its last retry, unless it
ran since. -/
def pendingFeedback (id : String) (log : List DagEvent) : Option NodeOutcome :=
  log.foldl (fun pending event =>
    match event with
    | .executed n _ _ => if n = id then none else pending
    | .retried target feedback => if target = id then some feedback else pending
    | .pruned _ _ => pending) none

def Fed (s : DagState) : Prop :=
  ∀ id : String, s.feedback[id]? = pendingFeedback id s.log

theorem Fed.start : Fed .start := by
  intro id
  simp [DagState.start, pendingFeedback]

theorem Fed.move (hs : Fed s) (hm : Move g s s') : Fed s' := by
  intro n
  cases hm with
  | @settle id input o _ _ _ =>
      show (s.feedback.erase id)[n]? = pendingFeedback n (s.log ++ [_])
      rw [Table.get_erase, pendingFeedback, List.foldl_append, ← pendingFeedback, ← hs n]
      rfl
  | @prune id reason _ _ _ =>
      show s.feedback[n]? = pendingFeedback n (s.log ++ [_])
      rw [pendingFeedback, List.foldl_append, ← pendingFeedback, ← hs n]
      rfl
  | @retry target o _ _ =>
      show (s.feedback.insert target o)[n]? = pendingFeedback n (s.log ++ [_])
      rw [Table.get_insert, pendingFeedback, List.foldl_append, ← pendingFeedback, ← hs n]
      rfl

/-- The contents the fired edges into a node bring, in graph-edge order. -/
def arrivals (g : PipelineGraph) (s : DagState) (id : String) : List String :=
  (firedEdges g id s.completed).filterMap (fun e =>
    s.completed[e.source]?.map NodeOutcome.content)

theorem arrivals_ne {id : String} (h : firedEdges g id s.completed ≠ []) :
    arrivals g s id ≠ [] := by
  obtain ⟨e, he⟩ := List.exists_mem_of_ne_nil _ h
  obtain ⟨o, ho⟩ := completed_of_fired (List.mem_map_of_mem he)
  exact List.ne_nil_of_mem (List.mem_filterMap.mpr ⟨e, he, by rw [ho, Option.map_some]⟩)

/-- A failure-pruned node fails everything behind it that is ready. -/
theorem Sound.failure_spreads (h : Validated g) (hs : Sound g s) {p n : String}
    (hp : s.pruned[p]? = some .failure) (hpath : Relation.TransGen (Forward g) p n)
    {r : NodeReadiness} (hr : s.readiness g n = some r) (hne : r ≠ .notReady) :
    r = .prune .failure := by
  induction hpath generalizing r with
  | single hpn =>
      exact h.join_of_failure hr hne (mem_forwardPreds.mpr hpn) hp (hs.disjoint p _ hp)
  | @tail b c _ hbc ih =>
      have hb := mem_forwardPreds.mpr hbc
      have hset : s.settled b = true := (h.settled_of_ready hr hne).1 b hb
      obtain ⟨rb, hrb, hrbne⟩ := hs.ready hset
      obtain rfl := ih hrb hrbne
      rcases settled_iff.mp hset with ⟨o, ho⟩ | ⟨reason, hreason⟩
      · rw [hs.completed b o ho] at hrb
        cases hrb
      · rw [hs.pruned b reason hreason] at hrb
        obtain rfl := NodeReadiness.prune.inj (Option.some.inj hrb)
        exact h.join_of_failure hr hne hb hreason (hs.disjoint b _ hreason)

/-- **Joins are fail-closed.**  Whenever a run executes a node with forward
predecessors, all of them are settled; each fired into the node, or was an
optional branch, or completed without owing it a success; nothing upstream of
the node is failure-pruned; and its input is what the fired edges bring, then
the pending critique. -/
theorem dag_joins_fail_closed (hrules : hasErrors (dagRules g) = false)
    (hs : Reachable (dagPass g userInput) .start s) {id input : String}
    (hnext : dagNext g userInput s = .execute id input) (hroot : forwardPreds g id ≠ []) :
    (∀ p ∈ forwardPreds g id, s.settled p = true ∧
      ((∃ e ∈ firedEdges g id s.completed, e.source = p) ∨ s.pruned[p]? = some .optional ∨
        (∃ o, s.completed[p]? = some o) ∧ ¬ owedSuccess g s.completed p id)) ∧
    (∀ p, s.pruned[p]? = some .failure → ¬ Relation.TransGen (Forward g) p id) ∧
    input = joinParts (arrivals g s id ++
      ((pendingFeedback id s.log).map NodeOutcome.content).toList) := by
  have h := Validated.of_rules hrules
  obtain ⟨rs, hrun⟩ := hs
  have hsound := Move.invariant (fun _ _ => Sound.move h) hrun Sound.start
  have hfed := Move.invariant (fun _ _ => Fed.move) hrun Fed.start
  obtain ⟨hrunnable, fired, hfired, hinput⟩ := dagNext_is hnext
  obtain ⟨-, -, hready⟩ := findRunnable_some hrunnable
  obtain ⟨hjoin, hne⟩ := h.runnable_join hready hroot
  have hset := (h.settled_of_ready hready (by simp)).1
  refine ⟨?_, ?_, ?_⟩
  · intro p hp
    refine ⟨hset p hp, ?_⟩
    rcases hjoin p hp with hin | hopt | ⟨hnone, howed⟩
    · obtain ⟨e, he, rfl⟩ := List.mem_map.mp hin
      exact Or.inl ⟨e, he, rfl⟩
    · exact Or.inr (Or.inl hopt)
    · refine Or.inr (Or.inr ⟨?_, howed⟩)
      rcases settled_iff.mp (hset p hp) with hcompleted | ⟨r, hr⟩
      · exact hcompleted
      · rw [hnone] at hr
        cases hr
  · intro p hp hpath
    have hfailed := hsound.failure_spreads h hp hpath hready (by simp)
    cases hfailed
  · rw [h.firedForwardInto] at hfired
    obtain rfl := Option.some.inj hfired
    have hparts : inputParts s ((firedEdges g id s.completed).map PipelineEdge.source)
        s.feedback[id]? = arrivals g s id ++
          ((pendingFeedback id s.log).map NodeOutcome.content).toList := by
      rw [inputParts, hfed id, List.filterMap_map, List.map_filterMap]
      rfl
    rw [hinput, nodeInput, hparts]
    have hsome : (arrivals g s id ++
        ((pendingFeedback id s.log).map NodeOutcome.content).toList).isEmpty = false := by
      simp [arrivals_ne hne]
    simp only [hsome, Bool.false_eq_true, if_false]

/-- The second node of the repair loop is handed the output of the first. -/
theorem dag_joins_fail_closed_repair : ∃ s,
    Reachable (dagPass repairGraph "go") .start s ∧
      dagNext repairGraph "go" s = .execute "a" "out" ∧
      (∀ p, s.pruned[p]? = some .failure → ¬ Relation.TransGen (Forward repairGraph) p "a") ∧
      "out" = joinParts (arrivals repairGraph s "a" ++
        ((pendingFeedback "a" s.log).map NodeOutcome.content).toList) := by
  obtain ⟨s, hstep, hnext⟩ : ∃ s, (dagStep repairGraph "go" (ranWith .pass) .start).getLeft? = some s ∧
      decide (dagNext repairGraph "go" s = .execute "a" "out") = true :=
    (Option.any_eq_true _ _).mp (by decide +kernel)
  have hs : Reachable (dagPass repairGraph "go") .start s :=
    Reachable.refl.tail (Sum.getLeft?_eq_some_iff.mp hstep)
  have hjoin := dag_joins_fail_closed (by decide +kernel) hs (of_decide_eq_true hnext) (by decide +kernel)
  exact ⟨s, hs, of_decide_eq_true hnext, hjoin.2.1, hjoin.2.2⟩

end Octos.Pipeline
