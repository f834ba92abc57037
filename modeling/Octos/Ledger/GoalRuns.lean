/-
# `Octos.Ledger.GoalRuns` — goal rows along every interleaving

Any number of processes write the ledger; each call is atomic, so a run is a
sequence of calls.  What one call can do to one row is said once (`Change`), and
both results are read off it: terminal statuses stay and the counters only grow
(`goal_rows_monotone`), and which runs keep an active goal within its budget
(`active_within_budget`).

The activation guard stands in every statement that writes a status.  The settle
of a cleared goal raises the counters of whatever row it finds and leaves the
status alone.
-/
import Octos.Ledger.Goals
import Octos.Lib.Run

namespace Octos.Ledger

/-! ## Calls -/

/-- The writers of the goals table, and the other writers a process may call in
between: they append findings and replace tasks. -/
inductive LedgerOp
  | createGoal (g : Goal)
  | upsertGoal (g : Goal)
  | createGoalIfAbsent (g : Goal)
  | casGoalStatus (goalId newStatus expectedStatus : String)
      (expectedUpdatedAtMs updatedAtMs : U64)
  | updateGoalStatus (goalId status : String) (expectedRevision updatedAtMs : U64)
  | commitStateWithAudit (goalId newStatus : String) (expectedRevision updatedAtMs : U64)
      (finding : Option Finding) (decision : Option Decision)
  | stampGoalCleared (g : Goal)
  | settleClearedGoalCostDelta (goalId : String)
      (frozenBaseTokens tokensDelta frozenBaseTimeSeconds timeDelta updatedAtMs : U64)
  | appendFinding (f : Finding)
  | writeTasks (tasks : Table String String)

/-- The ledger a call leaves, if it commits. -/
def LedgerOp.run : LedgerOp → GoalLedger → Except LedgerError GoalLedger
  | .createGoal g, l => Ledger.createGoal g l
  | .upsertGoal g, l => Prod.snd <$> Ledger.upsertGoal g l
  | .createGoalIfAbsent g, l => Prod.snd <$> Ledger.createGoalIfAbsent g l
  | .casGoalStatus goalId newStatus expectedStatus expectedUpdatedAtMs updatedAtMs, l =>
      Prod.snd <$>
        Ledger.casGoalStatus goalId newStatus expectedStatus expectedUpdatedAtMs updatedAtMs l
  | .updateGoalStatus goalId status expectedRevision updatedAtMs, l =>
      Ledger.updateGoalStatus goalId status expectedRevision updatedAtMs l
  | .commitStateWithAudit goalId newStatus expectedRevision updatedAtMs finding decision, l =>
      Prod.snd <$>
        Ledger.commitStateWithAudit goalId newStatus expectedRevision updatedAtMs finding decision l
  | .stampGoalCleared g, l => Ledger.stampGoalCleared g l
  | .settleClearedGoalCostDelta goalId baseTokens tokensDelta baseTime timeDelta updatedAtMs, l =>
      Prod.snd <$> Ledger.settleClearedGoalCostDelta goalId baseTokens tokensDelta baseTime timeDelta
        updatedAtMs l
  | .appendFinding f, l => Ledger.appendFinding f l
  | .writeTasks tasks, l => .ok { l with tasks := tasks }

/-- A call that fails is rolled back. -/
def LedgerOp.exec (op : LedgerOp) (l : GoalLedger) : GoalLedger :=
  match op.run l with
  | .ok l' => l'
  | .error _ => l

def LedgerStep (l : GoalLedger) (op : LedgerOp) (l' : GoalLedger) : Prop :=
  l' = op.exec l

variable {l l' : GoalLedger} {op : LedgerOp} {id : String} {row row' : GoalRow}

/-! ## What a call does to a row -/

/-- The row a call leaves under a goal id in place of the one it found. -/
inductive Change : LedgerOp → String → Option GoalRow → GoalRow → Prop
  | insert {op : LedgerOp} {id : String} {g : Goal} {row : GoalRow} (h : goalsInsert g = .ok row) :
      Change op id none row
  | upsert {op : LedgerOp} {id : String} {g : Goal} {row excluded : GoalRow}
      (h : goalsInsert g = .ok excluded) (hadmits : upsertAdmits row excluded = true) :
      Change op id (some row) (upsertMerge row excluded)
  | status {op : LedgerOp} {id status : String} {row : GoalRow} {revision updatedAtMs : Nat}
      (h : isTerminal row.status = false) :
      Change op id (some row) { row with
        status := activated status row.tokensUsed row.tokenBudget
        revision := revision
        updatedAtMs := updatedAtMs }
  | stampNew {op : LedgerOp} {id : String} {g : Goal} {row : GoalRow}
      (h : goalsInsert g = .ok row) : Change op id none { row with status := "cleared" }
  | stamp {op : LedgerOp} {id : String} {g : Goal} {row excluded : GoalRow}
      (h : goalsInsert g = .ok excluded) :
      Change op id (some row) (stampMerge row { excluded with status := "cleared" })
  | settle {id : String} {row : GoalRow} {baseTokens tokensDelta baseTime timeDelta updatedAtMs : U64} :
      Change (.settleClearedGoalCostDelta id baseTokens tokensDelta baseTime timeDelta updatedAtMs)
        id (some row) (settleRow baseTokens.toNat tokensDelta.toNat baseTime.toNat timeDelta.toNat
          updatedAtMs.toNat row)

/-- The goals table changes at one id at most. -/
def Changes (op : LedgerOp) (l l' : GoalLedger) : Prop :=
  l'.goals = l.goals ∨
    ∃ id row, l'.goals = l.goals.insert id row ∧ Change op id l.goals[id]? row

theorem map_snd_ok {α : Type} {x : Except LedgerError (α × GoalLedger)}
    (h : Prod.snd <$> x = .ok l') : ∃ a, x = .ok (a, l') := by
  cases x with
  | error e => cases h
  | ok p =>
      obtain rfl := Except.ok.inj h
      exact ⟨p.1, rfl⟩

theorem createGoal_changes {g : Goal} (h : createGoal g l = .ok l') : Changes op l l' := by
  simp only [createGoal, bind_ok, guard_ok, pure_ok] at h
  obtain ⟨row, hrow, hnew, rfl⟩ := h
  have hnone : l.goals[g.goalId]? = none := by simpa using hnew
  refine Or.inr ⟨g.goalId, row, rfl, ?_⟩
  rw [hnone]
  exact .insert hrow

theorem upsertGoal_changes {g : Goal} {b : Bool} (h : upsertGoal g l = .ok (b, l')) :
    Changes op l l' := by
  simp only [upsertGoal, bind_ok] at h
  obtain ⟨excluded, hexcluded, h⟩ := h
  cases hold : l.goals[g.goalId]? with
  | none =>
      simp only [hold, pure_ok, Prod.mk.injEq] at h
      obtain ⟨-, rfl⟩ := h
      refine Or.inr ⟨g.goalId, excluded, rfl, ?_⟩
      rw [hold]
      exact .insert hexcluded
  | some row =>
      simp only [hold, return_ok, pure_ok, Prod.mk.injEq] at h
      rcases h with ⟨hadmits, -, rfl⟩ | ⟨-, -, rfl⟩
      · refine Or.inr ⟨g.goalId, _, rfl, ?_⟩
        rw [hold]
        exact .upsert hexcluded hadmits
      · exact Or.inl rfl

theorem createGoalIfAbsent_changes {g : Goal} {b : Bool}
    (h : createGoalIfAbsent g l = .ok (b, l')) : Changes op l l' := by
  simp only [createGoalIfAbsent, bind_ok] at h
  obtain ⟨row, hrow, h⟩ := h
  cases hold : l.goals[g.goalId]? with
  | none =>
      simp only [hold, pure_ok, Prod.mk.injEq] at h
      obtain ⟨-, rfl⟩ := h
      refine Or.inr ⟨g.goalId, row, rfl, ?_⟩
      rw [hold]
      exact .insert hrow
  | some _ =>
      simp only [hold, pure_ok, Prod.mk.injEq] at h
      obtain ⟨-, rfl⟩ := h
      exact Or.inl rfl

theorem casGoalStatus_changes {goalId new expected : String} {e u : U64} {b : Bool}
    (h : casGoalStatus goalId new expected e u l = .ok (b, l')) : Changes op l l' := by
  simp only [casGoalStatus, bind_ok] at h
  obtain ⟨u', -, e', -, h⟩ := h
  cases hold : l.goals[goalId]? with
  | none =>
      simp only [hold, pure_ok, Prod.mk.injEq] at h
      obtain ⟨-, rfl⟩ := h
      exact Or.inl rfl
  | some row =>
      simp only [hold, return_ok, pure_ok, Prod.mk.injEq] at h
      rcases h with ⟨⟨-, -, hterm⟩, -, rfl⟩ | ⟨-, -, rfl⟩
      · refine Or.inr ⟨goalId, _, rfl, ?_⟩
        rw [hold]
        exact .status hterm
      · exact Or.inl rfl

theorem reviseStatus_changes {goalId status : String} {r u : U64}
    (h : reviseStatus goalId status r u l = .ok (some l')) : Changes op l l' := by
  simp only [reviseStatus, bind_ok] at h
  obtain ⟨u', -, r', -, h⟩ := h
  cases hold : l.goals[goalId]? with
  | none =>
      simp only [hold, pure_ok] at h
      cases h
  | some row =>
      simp only [hold, return_ok, pure_ok] at h
      rcases h with ⟨⟨-, hterm⟩, h⟩ | ⟨-, h⟩
      · obtain rfl := Option.some.inj h
        refine Or.inr ⟨goalId, _, rfl, ?_⟩
        rw [hold]
        exact .status hterm
      · cases h

theorem updateGoalStatus_changes {goalId status : String} {r u : U64}
    (h : updateGoalStatus goalId status r u l = .ok l') : Changes op l l' := by
  simp only [updateGoalStatus, bind_ok] at h
  obtain ⟨revised, hrevised, h⟩ := h
  cases revised with
  | none => cases h
  | some l₁ =>
      obtain rfl := pure_ok.mp h
      exact reviseStatus_changes hrevised

/-- The audit rows leave the goals alone. -/
theorem insertFindingValidated_goals {f : Finding} {goalId : String}
    (h : insertFindingValidated f goalId l = .ok l') : l'.goals = l.goals := by
  simp only [insertFindingValidated, bind_ok, guard_ok, pure_ok] at h
  obtain ⟨-, -, -, -, -, -, -, -, -, -, -, rfl⟩ := h
  rfl

theorem insertDecision_goals {d : Decision} {goalId : String}
    (h : insertDecision d goalId l = .ok l') : l'.goals = l.goals := by
  simp only [insertDecision, bind_ok, guard_ok, pure_ok] at h
  obtain ⟨-, -, -, -, -, rfl⟩ := h
  rfl

theorem insertOptional_goals {α : Type} {insert : α → GoalLedger → Except LedgerError GoalLedger}
    {o : Option α} (hinsert : ∀ a l', insert a l = .ok l' → l'.goals = l.goals)
    (h : insertOptional insert o l = .ok l') : l'.goals = l.goals := by
  cases o with
  | none => rw [Except.ok.inj h]
  | some a => exact hinsert a l' h

theorem commitStateWithAudit_changes {goalId new stored : String} {r u : U64}
    {finding : Option Finding} {decision : Option Decision}
    (h : commitStateWithAudit goalId new r u finding decision l = .ok (stored, l')) :
    Changes op l l' := by
  simp only [commitStateWithAudit, bind_ok] at h
  obtain ⟨revised, hrevised, h⟩ := h
  cases revised with
  | none => cases h
  | some l₁ =>
      simp only [bind_ok, pure_ok, Prod.mk.injEq] at h
      obtain ⟨l₂, hfinding, l₃, hdecision, -, rfl⟩ := h
      have h₂ : l₂.goals = l₁.goals :=
        insertOptional_goals (fun f l' => insertFindingValidated_goals) hfinding
      have h₃ : l₃.goals = l₂.goals := by
        refine insertOptional_goals ?_ hdecision
        intro d l' hd
        split at hd
        · exact insertDecision_goals hd
        · rw [Except.ok.inj hd]
      have hgoals : l₃.goals = l₁.goals := h₃.trans h₂
      rcases reviseStatus_changes hrevised with h | ⟨id, row, h, hchange⟩
      · exact Or.inl (hgoals.trans h)
      · exact Or.inr ⟨id, row, hgoals.trans h, hchange⟩

theorem stampGoalCleared_changes {g : Goal} (h : stampGoalCleared g l = .ok l') :
    Changes op l l' := by
  simp only [stampGoalCleared, bind_ok] at h
  obtain ⟨excluded, hexcluded, h⟩ := h
  cases hold : l.goals[g.goalId]? with
  | none =>
      simp only [hold, pure_ok] at h
      obtain rfl := h
      refine Or.inr ⟨g.goalId, _, rfl, ?_⟩
      rw [hold]
      exact .stampNew hexcluded
  | some row =>
      simp only [hold, pure_ok] at h
      obtain rfl := h
      refine Or.inr ⟨g.goalId, _, rfl, ?_⟩
      rw [hold]
      exact .stamp hexcluded

theorem settle_changes {goalId : String} {b d bt dt u : U64} {answer : Bool}
    (h : settleClearedGoalCostDelta goalId b d bt dt u l = .ok (answer, l')) :
    Changes (.settleClearedGoalCostDelta goalId b d bt dt u) l l' := by
  simp only [settleClearedGoalCostDelta, bind_ok, bindU64_ok] at h
  obtain ⟨_, ⟨rfl, -⟩, _, ⟨rfl, -⟩, _, ⟨rfl, -⟩, _, ⟨rfl, -⟩, _, ⟨rfl, -⟩, h⟩ := h
  cases hold : l.goals[goalId]? with
  | none =>
      simp only [hold, pure_ok, Prod.mk.injEq] at h
      obtain ⟨-, rfl⟩ := h
      exact Or.inl rfl
  | some row =>
      simp only [hold, pure_ok, Prod.mk.injEq] at h
      obtain ⟨-, rfl⟩ := h
      refine Or.inr ⟨goalId, _, rfl, ?_⟩
      rw [hold]
      exact .settle

/-- **What a committed call does to the goals.** -/
theorem LedgerOp.run_changes (h : op.run l = .ok l') : Changes op l l' := by
  cases op with
  | createGoal g => exact createGoal_changes h
  | upsertGoal g =>
      obtain ⟨b, h⟩ := map_snd_ok h
      exact upsertGoal_changes h
  | createGoalIfAbsent g =>
      obtain ⟨b, h⟩ := map_snd_ok h
      exact createGoalIfAbsent_changes h
  | casGoalStatus goalId new expected e u =>
      obtain ⟨b, h⟩ := map_snd_ok h
      exact casGoalStatus_changes h
  | updateGoalStatus goalId status r u => exact updateGoalStatus_changes h
  | commitStateWithAudit goalId new r u finding decision =>
      obtain ⟨stored, h⟩ := map_snd_ok h
      exact commitStateWithAudit_changes h
  | stampGoalCleared g => exact stampGoalCleared_changes h
  | settleClearedGoalCostDelta goalId b d bt dt u =>
      obtain ⟨answer, h⟩ := map_snd_ok h
      exact settle_changes h
  | appendFinding f => exact Or.inl (insertFindingValidated_goals h)
  | writeTasks tasks =>
      obtain rfl := Except.ok.inj h
      exact Or.inl rfl

/-- **One call, one row**: it is there as before, or changed in one of the ways
listed. -/
theorem LedgerStep.change (h : LedgerStep l op l') (hrow : l'.goals[id]? = some row') :
    l.goals[id]? = some row' ∨ Change op id l.goals[id]? row' := by
  rw [LedgerStep, LedgerOp.exec] at h
  split at h
  · next l₁ hrun =>
      subst h
      rcases op.run_changes hrun with hsame | ⟨id₁, row₁, hins, hchange⟩
      · exact Or.inl (hsame ▸ hrow)
      · rw [hins] at hrow
        rcases Table.of_get_insert hrow with ⟨rfl, rfl⟩ | ⟨-, hold⟩
        · exact Or.inr hchange
        · exact Or.inl hold
  · subst h
    exact Or.inl hrow

/-- No call deletes a row. -/
theorem LedgerStep.stays (h : LedgerStep l op l') (hrow : l.goals[id]? = some row) :
    ∃ row', l'.goals[id]? = some row' := by
  rw [LedgerStep, LedgerOp.exec] at h
  split at h
  · next l₁ hrun =>
      subst h
      rcases op.run_changes hrun with hsame | ⟨id₁, row₁, hins, -⟩
      · exact ⟨row, hsame ▸ hrow⟩
      · rw [hins]
        exact Table.exists_insert _ _ ⟨row, hrow⟩
  · subst h
    exact ⟨row, hrow⟩

/-! ## Terminal statuses and counters -/

theorem isTerminal_iff {status : String} :
    isTerminal status = true ↔ status = "complete" ∨ status = "cleared" := by
  simp [isTerminal]

/-- A terminal status is left by no change. -/
theorem Change.sticky (h : Change op id (some row) row') (hterm : isTerminal row.status = true) :
    row'.status = row.status := by
  cases h with
  | upsert _ hadmits =>
      simp only [upsertAdmits, Bool.and_eq_true, Bool.not_eq_true', Bool.and_eq_false_imp,
        decide_eq_true_eq, decide_eq_false_iff_not, not_not] at hadmits
      obtain ⟨⟨-, hcomplete⟩, hcleared⟩ := hadmits
      rcases isTerminal_iff.mp hterm with hs | hs
      · exact (hcomplete hs).trans hs.symm
      · exact (hcleared hs).trans hs.symm
  | status hopen =>
      rw [hterm] at hopen
      cases hopen
  | stamp _ =>
      show (if row.status = "complete" then row.status else "cleared") = row.status
      rcases isTerminal_iff.mp hterm with hs | hs
      · rw [if_pos hs]
      · rw [hs]
        rfl
  | settle => rfl

/-- The sums of a settle stay in the range SQLite stores exactly. -/
def LedgerOp.InRange (l : GoalLedger) : LedgerOp → Prop
  | .settleClearedGoalCostDelta id baseTokens tokensDelta baseTime timeDelta _ =>
      ∀ row, l.goals[id]? = some row →
        max row.tokensUsed baseTokens.toNat + tokensDelta.toNat ≤ i64Max ∧
        max row.timeUsedSeconds baseTime.toNat + timeDelta.toNat ≤ i64Max
  | _ => True

/-- No change takes a counter back. -/
theorem Change.grows (h : Change op id (some row) row') (hrow : l.goals[id]? = some row)
    (hrange : op.InRange l) :
    row.tokensUsed ≤ row'.tokensUsed ∧ row.timeUsedSeconds ≤ row'.timeUsedSeconds := by
  cases h with
  | upsert _ hadmits =>
      simp only [upsertAdmits, Bool.and_eq_true, decide_eq_true_eq] at hadmits
      exact ⟨hadmits.1.1.2, le_max_left _ _⟩
  | status _ => exact ⟨le_refl _, le_refl _⟩
  | stamp _ => exact ⟨le_max_left _ _, le_max_left _ _⟩
  | settle =>
      obtain ⟨htokens, htime⟩ := hrange row hrow
      simp only [settleRow, sqlAdd_exact htokens, sqlAdd_exact htime]
      exact ⟨le_trans (le_max_left _ _) (Nat.le_add_right _ _),
        le_trans (le_max_left _ _) (Nat.le_add_right _ _)⟩

theorem LedgerStep.sticky (h : LedgerStep l op l') (hrow : l.goals[id]? = some row)
    (hterm : isTerminal row.status = true) :
    ∃ row', l'.goals[id]? = some row' ∧ row'.status = row.status := by
  obtain ⟨row', hrow'⟩ := h.stays hrow
  refine ⟨row', hrow', ?_⟩
  rcases h.change hrow' with hsame | hchange
  · rw [Option.some.inj (hrow.symm.trans hsame)]
  · rw [hrow] at hchange
    exact hchange.sticky hterm

theorem LedgerStep.grows (h : LedgerStep l op l') (hrange : op.InRange l)
    (hrow : l.goals[id]? = some row) :
    ∃ row', l'.goals[id]? = some row' ∧ row.tokensUsed ≤ row'.tokensUsed ∧
      row.timeUsedSeconds ≤ row'.timeUsedSeconds := by
  obtain ⟨row', hrow'⟩ := h.stays hrow
  refine ⟨row', hrow', ?_⟩
  rcases h.change hrow' with hsame | hchange
  · rw [Option.some.inj (hrow.symm.trans hsame)]
    exact ⟨le_refl _, le_refl _⟩
  · rw [hrow] at hchange
    exact hchange.grows hrow hrange

/-- A run whose settles are in range. -/
def InRangeRun : GoalLedger → List LedgerOp → GoalLedger → Prop :=
  Run (fun l op l' => LedgerStep l op l' ∧ op.InRange l)

/-- **Rows along every run.**  A terminal status never changes again, and the
counters never decrease, as far as SQLite stores them exactly. -/
theorem goal_rows_monotone {ops : List LedgerOp} (h : Run LedgerStep l ops l')
    (hrow : l.goals[id]? = some row) :
    ∃ row', l'.goals[id]? = some row' ∧
      (row.status = "complete" ∨ row.status = "cleared" → row'.status = row.status) ∧
      (InRangeRun l ops l' →
        row.tokensUsed ≤ row'.tokensUsed ∧ row.timeUsedSeconds ≤ row'.timeUsedSeconds) := by
  have hstays : ∃ row', l'.goals[id]? = some row' :=
    h.invariant (I := fun l => ∃ row', l.goals[id]? = some row')
      (fun _ _ _ hrow hstep => hstep.stays hrow.choose_spec) ⟨row, hrow⟩
  obtain ⟨row', hrow'⟩ := hstays
  refine ⟨row', hrow', ?_, ?_⟩
  · intro hterm
    have hsticky : ∃ row', l'.goals[id]? = some row' ∧ row'.status = row.status := by
      refine h.invariant (I := fun l => ∃ row', l.goals[id]? = some row' ∧
        row'.status = row.status) ?_ ⟨row, hrow, rfl⟩
      rintro s op t ⟨r, hr, hs⟩ hstep
      obtain ⟨r', hr', hs'⟩ := hstep.sticky hr (isTerminal_iff.mpr (hs ▸ hterm))
      exact ⟨r', hr', hs'.trans hs⟩
    obtain ⟨r, hr, hs⟩ := hsticky
    rw [Option.some.inj (hrow'.symm.trans hr)]
    exact hs
  · intro hrange
    have hgrows : ∃ row', l'.goals[id]? = some row' ∧ row.tokensUsed ≤ row'.tokensUsed ∧
        row.timeUsedSeconds ≤ row'.timeUsedSeconds := by
      refine Run.invariant (I := fun l => ∃ row', l.goals[id]? = some row' ∧
        row.tokensUsed ≤ row'.tokensUsed ∧ row.timeUsedSeconds ≤ row'.timeUsedSeconds) ?_ hrange
          ⟨row, hrow, le_refl _, le_refl _⟩
      rintro s op t ⟨r, hr, ht, hs⟩ ⟨hstep, hin⟩
      obtain ⟨r', hr', ht', hs'⟩ := hstep.grows hin hr
      exact ⟨r', hr', le_trans ht ht', le_trans hs hs'⟩
    obtain ⟨r, hr, hle⟩ := hgrows
    rw [Option.some.inj (hrow'.symm.trans hr)]
    exact hle

/-- The ledger a list of calls leaves. -/
def execAll (ops : List LedgerOp) (l : GoalLedger) : GoalLedger :=
  ops.foldl (fun l op => op.exec l) l

theorem execAll_run (ops : List LedgerOp) (l : GoalLedger) : Run LedgerStep l ops (execAll ops l) := by
  induction ops using List.reverseRecOn with
  | nil => exact .nil l
  | append_singleton ops op ih =>
      rw [execAll, List.foldl_append]
      exact .snoc ih rfl

/-- A goal with a budget of 100 tokens. -/
def sampleGoal (status : String) (tokensUsed updatedAtMs : U64) : Goal :=
  { goalId := "g", objective := "ship", status := status, tokensUsed := tokensUsed,
    tokenBudget := 100, timeUsedSeconds := 7, continuationsUsed := 0, revision := 0,
    createdAtMs := 1, updatedAtMs := updatedAtMs }

/-- A cleared goal is settled late; the stale `active` snapshot bounces off. -/
theorem goal_rows_monotone_cleared :
    ∃ row, (execAll [.settleClearedGoalCostDelta "g" 40 2 7 1 9,
        .upsertGoal (sampleGoal "active" 90 9)]
        (execAll [.stampGoalCleared (sampleGoal "active" 40 5)] .empty)).goals["g"]? = some row ∧
      row.status = "cleared" := by
  have hstart : ∃ row, (execAll [.stampGoalCleared (sampleGoal "active" 40 5)]
      .empty).goals["g"]? = some row ∧ row.status = "cleared" := by
    have h : ((execAll [.stampGoalCleared (sampleGoal "active" 40 5)] .empty).goals["g"]?).any
        (fun row => decide (row.status = "cleared")) = true := by rfl
    obtain ⟨row, hrow, hs⟩ := (Option.any_eq_true _ _).mp h
    exact ⟨row, hrow, of_decide_eq_true hs⟩
  obtain ⟨row, hrow, hs⟩ := hstart
  obtain ⟨row', hrow', hsticky, -⟩ := goal_rows_monotone (execAll_run _ _) hrow
  exact ⟨row', hrow', (hsticky (Or.inr hs)).trans hs⟩

/-! ## Active goals and their budget -/

def GoalRow.ActiveExhausted (row : GoalRow) : Prop :=
  row.status = "active" ∧ 0 < row.tokenBudget ∧ row.tokenBudget ≤ row.tokensUsed

/-- A settle that hits an active row with a budget leaves it below the budget. -/
def LedgerOp.SparesBudget (l : GoalLedger) : LedgerOp → Prop
  | .settleClearedGoalCostDelta id baseTokens tokensDelta _ _ _ =>
      ∀ row, l.goals[id]? = some row → row.status = "active" → 0 < row.tokenBudget →
        max row.tokensUsed baseTokens.toNat + tokensDelta.toNat < row.tokenBudget
  | _ => True

/-- What the rows carry along a run: the budget was bound as an `i64`. -/
structure GoalRow.Within (row : GoalRow) : Prop where
  bound : row.tokenBudget ≤ i64Max
  spared : ¬ row.ActiveExhausted

/-- The guard does what it says. -/
theorem activated_spares {status : String} {tokensUsed tokenBudget : Nat}
    (h : activated status tokensUsed tokenBudget = "active") :
    ¬ (0 < tokenBudget ∧ tokenBudget ≤ tokensUsed) := by
  intro hexhausted
  rw [activated] at h
  split at h
  · exact absurd h (by decide)
  · next hguard => exact hguard ⟨h, hexhausted⟩

theorem goalsInsert_within {g : Goal} (h : goalsInsert g = .ok row) : row.Within := by
  simp only [goalsInsert, bind_ok, pure_ok, bindU64_ok] at h
  obtain ⟨tokensUsed, -, tokenBudget, ⟨-, hle⟩, _, -, _, -, _, -, _, -, rfl⟩ := h
  exact ⟨hle, fun hex => activated_spares hex.1 hex.2⟩

/-- **One change.** -/
theorem Change.within {o : Option GoalRow} (h : Change op id o row') (ho : l.goals[id]? = o)
    (hold : ∀ row, o = some row → row.Within) (hspares : op.SparesBudget l) : row'.Within := by
  cases h with
  | insert h => exact goalsInsert_within h
  | upsert h _ =>
      have hwithin := goalsInsert_within h
      exact ⟨hwithin.bound, hwithin.spared⟩
  | status _ =>
      refine ⟨(hold _ rfl).bound, ?_⟩
      intro hex
      exact activated_spares hex.1 hex.2
  | stampNew h =>
      refine ⟨(goalsInsert_within h).bound, ?_⟩
      rintro ⟨hs, -⟩
      exact absurd (show "cleared" = "active" from hs) (by decide)
  | @stamp _ _ _ row _ h =>
      refine ⟨(goalsInsert_within h).bound, ?_⟩
      rintro ⟨hs, -⟩
      have hs : (if row.status = "complete" then row.status else "cleared") = "active" := hs
      split at hs
      · next hc =>
          rw [hc] at hs
          exact absurd hs (by decide)
      · exact absurd hs (by decide)
  | @settle _ row b d _ _ _ =>
      have hrow := hold row rfl
      refine ⟨hrow.bound, ?_⟩
      rintro ⟨hs, hbudget, hle⟩
      have hlt := hspares row ho hs hbudget
      have hbound := hrow.bound
      have hexact : sqlAdd (max row.tokensUsed b.toNat) d.toNat =
          max row.tokensUsed b.toNat + d.toNat := sqlAdd_exact (by omega)
      have hle : row.tokenBudget ≤ sqlAdd (max row.tokensUsed b.toNat) d.toNat := hle
      omega

/-- A run whose settles spare the budgets. -/
def SparingRun : GoalLedger → List LedgerOp → GoalLedger → Prop :=
  Run (fun l op l' => LedgerStep l op l' ∧ op.SparesBudget l)

/-- **No active goal is exhausted** along a run whose settles spare the
budgets. -/
theorem active_within_budget {ops : List LedgerOp} (h : SparingRun .empty ops l)
    (hrow : l.goals[id]? = some row) : ¬ row.ActiveExhausted := by
  have hall : ∀ (id : String) (row : GoalRow), l.goals[id]? = some row → row.Within := by
    refine Run.invariant
      (I := fun l => ∀ (id : String) (row : GoalRow), l.goals[id]? = some row → row.Within) ?_ h ?_
    · rintro s op t hs ⟨hstep, hspares⟩ id row hrow
      rcases hstep.change hrow with hsame | hchange
      · exact hs id row hsame
      · exact hchange.within rfl (fun r hr => hs id r hr) hspares
    · intro id row hrow
      simp [GoalLedger.empty] at hrow
  exact (hall id row hrow).spared

/-- A settle within the budget, then an upsert that runs out of it. -/
theorem active_within_budget_upserted :
    ∃ row, (execAll [.createGoal (sampleGoal "active" 0 1),
        .settleClearedGoalCostDelta "g" 0 10 7 1 2,
        .upsertGoal (sampleGoal "active" 100 3)] .empty).goals["g"]? = some row ∧
      ¬ row.ActiveExhausted := by
  have hcreated : ((execAll [.createGoal (sampleGoal "active" 0 1)] .empty).goals["g"]?).all
      (fun row => decide (max row.tokensUsed 0 + 10 < row.tokenBudget)) = true := by
    rfl
  have hspares : (LedgerOp.settleClearedGoalCostDelta "g" 0 10 7 1 2).SparesBudget
      (execAll [.createGoal (sampleGoal "active" 0 1)] .empty) := by
    intro row hrow _ _
    rw [hrow] at hcreated
    exact of_decide_eq_true hcreated
  have hrun : SparingRun .empty ([] ++ [.createGoal (sampleGoal "active" 0 1)] ++
      [.settleClearedGoalCostDelta "g" 0 10 7 1 2] ++ [.upsertGoal (sampleGoal "active" 100 3)]) _ :=
    .snoc (.snoc (.snoc (.nil _) ⟨rfl, trivial⟩) ⟨rfl, hspares⟩) ⟨rfl, trivial⟩
  have h : ((execAll [.createGoal (sampleGoal "active" 0 1),
      .settleClearedGoalCostDelta "g" 0 10 7 1 2,
      .upsertGoal (sampleGoal "active" 100 3)] .empty).goals["g"]?).isSome = true := by
    rfl
  obtain ⟨row, hrow⟩ := Option.isSome_iff_exists.mp h
  exact ⟨row, hrow, active_within_budget hrun hrow⟩

/-- A settle that arrives before the clear stamp exhausts an active goal. -/
theorem settle_exhausts_active :
    ∃ ops l row, Run LedgerStep .empty ops l ∧ l.goals["g"]? = some row ∧ row.ActiveExhausted := by
  have h : ((execAll [.createGoal (sampleGoal "active" 90 1),
      .settleClearedGoalCostDelta "g" 90 10 7 1 2] .empty).goals["g"]?).any
      (fun row => decide (row.status = "active" ∧ 0 < row.tokenBudget ∧
        row.tokenBudget ≤ row.tokensUsed)) = true := by rfl
  obtain ⟨row, hrow, hex⟩ := (Option.any_eq_true _ _).mp h
  have hex : row.status = "active" ∧ 0 < row.tokenBudget ∧ row.tokenBudget ≤ row.tokensUsed :=
    of_decide_eq_true hex
  exact ⟨_, _, row, execAll_run _ _, hrow, hex⟩

end Octos.Ledger
