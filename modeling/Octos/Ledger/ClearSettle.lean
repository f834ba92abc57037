/-
# `Octos.Ledger.ClearSettle` — the clear stamp and the late settles commute

A goal is cleared with the counters it had then, and turns that end afterwards are
charged to its row with the same counters as their base.  The stamp and the settles may
reach the ledger in any order.

Both fold the base in with a maximum, so from the first of them on the row is not below
the base, and every maximum behind it changes nothing: each delivery adds its delta.
-/
import Octos.Ledger.GoalRuns

namespace Octos.Ledger

/-- The charge of a turn that ended after the clear. -/
structure LateCharge where
  tokens : U64
  seconds : U64
  updatedAtMs : U64

/-- What reaches the ledger about a cleared goal. -/
inductive Delivery
  | stamp
  | settle (c : LateCharge)

/-- The call it is; a settle has the counters of the clear as its bases. -/
def Delivery.op (g : Goal) : Delivery → LedgerOp
  | .stamp => .stampGoalCleared g
  | .settle c => .settleClearedGoalCostDelta g.goalId g.tokensUsed c.tokens g.timeUsedSeconds c.seconds
      c.updatedAtMs

def Delivery.tokens : Delivery → Nat
  | .stamp => 0
  | .settle c => c.tokens.toNat

def Delivery.seconds : Delivery → Nat
  | .stamp => 0
  | .settle c => c.seconds.toNat

def Delivery.status : Delivery → String → String
  | .stamp, status => if status = "complete" then "complete" else "cleared"
  | .settle _, status => status

/-- The columns of the stamp are `i64`s. -/
structure Goal.Binds (g : Goal) : Prop where
  tokensUsed : g.tokensUsed.toNat ≤ i64Max
  tokenBudget : g.tokenBudget.toNat ≤ i64Max
  timeUsedSeconds : g.timeUsedSeconds.toNat ≤ i64Max
  revision : g.revision.toNat ≤ i64Max
  createdAtMs : g.createdAtMs.toNat ≤ i64Max
  updatedAtMs : g.updatedAtMs.toNat ≤ i64Max

/-- And those of a delivery. -/
def Delivery.Binds : Delivery → Prop
  | .stamp => True
  | .settle c => c.tokens.toNat ≤ i64Max ∧ c.seconds.toNat ≤ i64Max ∧ c.updatedAtMs.toNat ≤ i64Max

section Deliveries

variable {l : GoalLedger} {g : Goal} {row : GoalRow}

theorem bindU64_of_le {n : U64} (h : n.toNat ≤ i64Max) : bindU64 n = .ok n.toNat :=
  bindU64_ok.mpr ⟨rfl, h⟩

/-- The row that the stamp brings. -/
theorem Goal.Binds.insert (h : g.Binds) : ∃ excluded, goalsInsert g = .ok excluded ∧
    excluded.tokensUsed = g.tokensUsed.toNat ∧ excluded.timeUsedSeconds = g.timeUsedSeconds.toNat := by
  unfold goalsInsert
  rw [bindU64_of_le h.tokensUsed, bindU64_of_le h.tokenBudget, bindU64_of_le h.revision,
    bindU64_of_le h.createdAtMs, bindU64_of_le h.updatedAtMs, bindU64_of_le h.timeUsedSeconds]
  exact ⟨_, rfl, rfl, rfl⟩

/-- **One delivery** folds the base in and adds its delta. -/
theorem deliver_row (hg : g.Binds) {d : Delivery} (hd : d.Binds) (hrow : l.goals[g.goalId]? = some row)
    (htokens : max row.tokensUsed g.tokensUsed.toNat + d.tokens ≤ i64Max)
    (hseconds : max row.timeUsedSeconds g.timeUsedSeconds.toNat + d.seconds ≤ i64Max) :
    ∃ row', ((d.op g).exec l).goals[g.goalId]? = some row' ∧
      row'.tokensUsed = max row.tokensUsed g.tokensUsed.toNat + d.tokens ∧
      row'.timeUsedSeconds = max row.timeUsedSeconds g.timeUsedSeconds.toNat + d.seconds ∧
      row'.status = d.status row.status := by
  cases d with
  | stamp =>
      obtain ⟨excluded, hexcluded, htoken, htime⟩ := hg.insert
      have hrun : (Delivery.stamp.op g).run l = .ok { l with
          goals := l.goals.insert g.goalId (stampMerge row { excluded with status := "cleared" }) } := by
        show stampGoalCleared g l = _
        unfold stampGoalCleared
        rw [hexcluded]
        simp only [bind, Except.bind, hrow]
        rfl
      refine ⟨stampMerge row { excluded with status := "cleared" }, ?_, ?_, ?_, ?_⟩
      · rw [LedgerOp.exec, hrun]
        exact Table.get_insert_self _ _ _
      · rw [← htoken]
        rfl
      · rw [← htime]
        rfl
      · show (if row.status = "complete" then row.status else "cleared") =
          if row.status = "complete" then "complete" else "cleared"
        split
        · next hcomplete => exact hcomplete
        · rfl
  | settle c =>
      obtain ⟨hctokens, hcseconds, hcat⟩ := hd
      have hrun : ((Delivery.settle c).op g).run l = .ok { l with
          goals := l.goals.insert g.goalId (settleRow g.tokensUsed.toNat c.tokens.toNat g.timeUsedSeconds.toNat
            c.seconds.toNat c.updatedAtMs.toNat row) } := by
        show Prod.snd <$> settleClearedGoalCostDelta g.goalId g.tokensUsed c.tokens g.timeUsedSeconds c.seconds
          c.updatedAtMs l = _
        unfold settleClearedGoalCostDelta
        rw [bindU64_of_le hg.tokensUsed, bindU64_of_le hctokens, bindU64_of_le hcat,
          bindU64_of_le hg.timeUsedSeconds, bindU64_of_le hcseconds]
        simp only [bind, Except.bind, hrow]
        rfl
      refine ⟨settleRow g.tokensUsed.toNat c.tokens.toNat g.timeUsedSeconds.toNat c.seconds.toNat
        c.updatedAtMs.toNat row, ?_, sqlAdd_exact htokens, sqlAdd_exact hseconds, rfl⟩
      rw [LedgerOp.exec, hrun]
      exact Table.get_insert_self _ _ _

/-- **Any deliveries**, one after another. -/
theorem deliver_all (hg : g.Binds) : ∀ {ds : List Delivery} {l : GoalLedger} {row : GoalRow}, ds ≠ [] →
    (∀ d ∈ ds, d.Binds) → l.goals[g.goalId]? = some row →
    max row.tokensUsed g.tokensUsed.toNat + (ds.map Delivery.tokens).sum ≤ i64Max →
    max row.timeUsedSeconds g.timeUsedSeconds.toNat + (ds.map Delivery.seconds).sum ≤ i64Max →
    ∃ row', (execAll (ds.map (Delivery.op g)) l).goals[g.goalId]? = some row' ∧
      row'.tokensUsed = max row.tokensUsed g.tokensUsed.toNat + (ds.map Delivery.tokens).sum ∧
      row'.timeUsedSeconds = max row.timeUsedSeconds g.timeUsedSeconds.toNat + (ds.map Delivery.seconds).sum ∧
      row'.status = ds.foldl (fun status d => d.status status) row.status := by
  intro ds
  induction ds with
  | nil =>
      intro l row hne
      exact absurd rfl hne
  | cons d ds ih =>
      intro l row _ hbinds hrow htokens hseconds
      simp only [List.map_cons, List.sum_cons] at htokens hseconds ⊢
      obtain ⟨row₁, hrow₁, htokens₁, hseconds₁, hstatus₁⟩ := deliver_row hg (hbinds d List.mem_cons_self) hrow
        (by omega) (by omega)
      cases ds with
      | nil => exact ⟨row₁, hrow₁, by simpa using htokens₁, by simpa using hseconds₁, hstatus₁⟩
      | cons d' ds =>
          -- from here on the row is not below the base
          have hbase : max row₁.tokensUsed g.tokensUsed.toNat = row₁.tokensUsed := by omega
          have hbase' : max row₁.timeUsedSeconds g.timeUsedSeconds.toNat = row₁.timeUsedSeconds := by omega
          obtain ⟨row', hrow', htokens', hseconds', hstatus'⟩ := ih (List.cons_ne_nil d' ds)
            (fun e he => hbinds e (List.mem_cons_of_mem d he)) hrow₁ (by omega) (by omega)
          refine ⟨row', hrow', ?_, ?_, ?_⟩
          · rw [htokens', hbase, htokens₁, Nat.add_assoc]
          · rw [hseconds', hbase', hseconds₁, Nat.add_assoc]
          · rw [hstatus', hstatus₁]
            rfl

/-- Once the stamp is among the deliveries the goal is cleared, if it is not complete. -/
theorem deliver_status {ds : List Delivery} : ∀ {status : String}, .stamp ∈ ds →
    ds.foldl (fun status d => d.status status) status = if status = "complete" then "complete" else "cleared" := by
  have hsettled : ∀ (ds : List Delivery) (status : String), status = "complete" ∨ status = "cleared" →
      ds.foldl (fun status d => d.status status) status = status := by
    intro ds
    induction ds with
    | nil => exact fun _ _ => rfl
    | cons d ds ih =>
        intro status hstatus
        have hsame : d.status status = status := by
          cases d with
          | settle c => rfl
          | stamp =>
              rcases hstatus with rfl | rfl
              · rfl
              · rfl
        rw [List.foldl_cons, hsame]
        exact ih status hstatus
  induction ds with
  | nil =>
      intro status hmem
      cases hmem
  | cons d ds ih =>
      intro status hmem
      rw [List.foldl_cons]
      cases d with
      | stamp =>
          refine hsettled ds _ ?_
          show (if _ then _ else _) = _ ∨ (if _ then _ else _) = _
          split
          · exact Or.inl rfl
          · exact Or.inr rfl
      | settle c =>
          rcases List.mem_cons.mp hmem with hd | hrest
          · cases hd
          · exact ih hrest

end Deliveries

/-- **The clear stamp and the late settles commute**: in every order the row ends with
the larger of its counters and the base, and all deltas. -/
theorem clear_settles_commute {l : GoalLedger} {g : Goal} {row : GoalRow} {charges : List LateCharge}
    {ds : List Delivery} (hrow : l.goals[g.goalId]? = some row)
    (horder : ds.Perm (.stamp :: charges.map .settle)) (hg : g.Binds)
    (hcharges : ∀ c ∈ charges, (Delivery.settle c).Binds)
    (htokens : max row.tokensUsed g.tokensUsed.toNat + (charges.map (fun c => c.tokens.toNat)).sum ≤ i64Max)
    (hseconds : max row.timeUsedSeconds g.timeUsedSeconds.toNat + (charges.map (fun c => c.seconds.toNat)).sum ≤
      i64Max) :
    ∃ row', (execAll (ds.map (Delivery.op g)) l).goals[g.goalId]? = some row' ∧
      row'.tokensUsed = max row.tokensUsed g.tokensUsed.toNat + (charges.map (fun c => c.tokens.toNat)).sum ∧
      row'.timeUsedSeconds =
        max row.timeUsedSeconds g.timeUsedSeconds.toNat + (charges.map (fun c => c.seconds.toNat)).sum ∧
      row'.status = if row.status = "complete" then "complete" else "cleared" := by
  have htokensSum : (ds.map Delivery.tokens).sum = (charges.map (fun c => c.tokens.toNat)).sum := by
    rw [(horder.map Delivery.tokens).sum_eq, List.map_cons, List.sum_cons, List.map_map]
    exact Nat.zero_add _
  have hsecondsSum : (ds.map Delivery.seconds).sum = (charges.map (fun c => c.seconds.toNat)).sum := by
    rw [(horder.map Delivery.seconds).sum_eq, List.map_cons, List.sum_cons, List.map_map]
    exact Nat.zero_add _
  have hstamp : Delivery.stamp ∈ ds := horder.mem_iff.mpr List.mem_cons_self
  have hbinds : ∀ d ∈ ds, d.Binds := by
    intro d hd
    rcases List.mem_cons.mp (horder.mem_iff.mp hd) with rfl | hsettle
    · trivial
    · obtain ⟨c, hc, rfl⟩ := List.mem_map.mp hsettle
      exact hcharges c hc
  rw [← htokensSum] at htokens ⊢
  rw [← hsecondsSum] at hseconds ⊢
  rw [← deliver_status hstamp]
  exact deliver_all hg (List.ne_nil_of_mem hstamp) hbinds hrow htokens hseconds

/-- A charge that overtakes the stamp, and one behind it: the row lags the clear by
thirty tokens, and nothing is lost. -/
theorem clear_settles_commute_overtaken :
    ∃ row', (execAll ([Delivery.settle ⟨10, 2, 6⟩, .stamp, .settle ⟨5, 1, 7⟩].map
        (Delivery.op (sampleGoal "active" 70 5)))
        (execAll [.createGoal (sampleGoal "active" 40 1)] .empty)).goals["g"]? = some row' ∧
      row'.tokensUsed = 85 ∧ row'.timeUsedSeconds = 10 ∧ row'.status = "cleared" := by
  have hstart : ((execAll [.createGoal (sampleGoal "active" 40 1)] .empty).goals["g"]?).any (fun row =>
      decide (row.tokensUsed = 40 ∧ row.timeUsedSeconds = 7 ∧ row.status = "active")) = true := by
    rfl
  obtain ⟨row, hrow, hcolumns⟩ := (Option.any_eq_true _ _).mp hstart
  obtain ⟨ht, hs, hstatus⟩ := of_decide_eq_true hcolumns
  obtain ⟨row', hrow', htokens, hseconds, hcleared⟩ :=
    @clear_settles_commute _ (sampleGoal "active" 70 5) row [⟨10, 2, 6⟩, ⟨5, 1, 7⟩]
      [.settle ⟨10, 2, 6⟩, .stamp, .settle ⟨5, 1, 7⟩] hrow (List.Perm.swap _ _ _) (by constructor <;> decide)
      (by intro c hc; fin_cases hc <;> (refine ⟨?_, ?_, ?_⟩ <;> decide))
      (by rw [ht]; decide) (by rw [hs]; decide)
  rw [ht] at htokens
  rw [hs] at hseconds
  rw [hstatus] at hcleared
  exact ⟨row', hrow', htokens, hseconds, hcleared⟩

end Octos.Ledger
