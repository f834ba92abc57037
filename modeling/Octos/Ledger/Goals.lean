/-
# `Octos.Ledger.Goals` — the goal rows of the SQLite ledger

`sqlite_ledger.rs`: the eight writers of the `goals` table.  Every writer is one
SQL statement, or one transaction around it; what a statement does to the row
under its goal id is written out column by column, with the `WHERE` clause as a
condition on the row.

A bound `u64` above `i64::MAX` is refused before the statement runs.  A sum
that leaves the range of `i64` is a `REAL` in SQLite: `sqlAdd` follows it there.

The audit rows of `commit_state_with_audit` are in the same transaction, so a
finding or a decision that is refused takes the status write back with it.
-/
import Octos.Lib.Result
import Octos.Lib.Table
import Octos.Lib.Checked

namespace Octos.Ledger

/-! ## Numbers -/

/-- `i64::MAX`: the largest integer SQLite stores. -/
def i64Max : Nat := 2 ^ 63 - 1

/-- The nearest double, ties to even. -/
def toDouble (n : Nat) : Nat :=
  let ulp := 2 ^ (n.log2 - 52)
  let q := n / ulp
  let r := n % ulp
  (if ulp < 2 * r ∨ ulp = 2 * r ∧ q % 2 = 1 then q + 1 else q) * ulp

/-- SQLite's `+`: exact while it fits, a sum of doubles otherwise. -/
def sqlAdd (a b : Nat) : Nat :=
  if a + b ≤ i64Max then a + b else toDouble (toDouble a + toDouble b)

theorem sqlAdd_exact {a b : Nat} (h : a + b ≤ i64Max) : sqlAdd a b = a + b :=
  if_pos h

/-! ## Rows -/

/-- `Goal`: what a caller hands to a writer. -/
structure Goal where
  goalId : String
  objective : String
  status : String
  tokensUsed : U64
  tokenBudget : U64
  timeUsedSeconds : U64
  continuationsUsed : U32
  revision : U64
  createdAtMs : U64
  updatedAtMs : U64

/-- A row of `goals`, under its `goal_id`. -/
structure GoalRow where
  objective : String
  status : String
  tokensUsed : Nat
  tokenBudget : Nat
  continuationsUsed : Nat
  revision : Nat
  createdAtMs : Nat
  updatedAtMs : Nat
  timeUsedSeconds : Nat
  deriving DecidableEq

/-- The columns of a finding the writers read. -/
structure Finding where
  findingId : String
  taskId : Option String
  goalId : String
  supersedes : List String
  costTokens : U64
  createdAtMs : U64

/-- A row of `findings`, under its `finding_id`. -/
structure FindingRow where
  seq : Nat
  taskId : Option String
  goalId : String
  supersedes : List String
  costTokens : Nat
  deriving DecidableEq

structure Decision where
  decisionId : String
  taskId : Option String
  choice : String
  decidedAtMs : U64

/-- A row of `decisions`, under its `decision_id`. -/
structure DecisionRow where
  goalId : String
  taskId : Option String
  choice : String
  deriving DecidableEq

/-- The tables; a task is its goal. -/
structure GoalLedger where
  goals : Table String GoalRow
  tasks : Table String String
  findings : Table String FindingRow
  decisions : Table String DecisionRow

def GoalLedger.empty : GoalLedger :=
  { goals := ∅, tasks := ∅, findings := ∅, decisions := ∅ }

inductive LedgerError
  /-- A `u64` that is no `i64` does not bind. -/
  | outOfRange (value : Nat)
  | uniqueConstraint (table key : String)
  | foreignKey (table key : String)
  | report (message : String)
  deriving DecidableEq

/-- `ToSql for u64`. -/
def bindU64 (n : U64) : Except LedgerError Nat :=
  if n.toNat ≤ i64Max then .ok n.toNat else .error (.outOfRange n.toNat)

theorem bindU64_ok {n : U64} {m : Nat} : bindU64 n = .ok m ↔ n.toNat = m ∧ m ≤ i64Max := by
  unfold bindU64
  constructor
  · intro h
    split at h
    · next hle =>
        obtain rfl := Except.ok.inj h
        exact ⟨rfl, hle⟩
    · cases h
  · rintro ⟨rfl, hle⟩
    rw [if_pos hle]

/-! ## The statements -/

/-- The activation guard: an exhausted goal is not activated. -/
def activated (status : String) (tokensUsed tokenBudget : Nat) : String :=
  if status = "active" ∧ 0 < tokenBudget ∧ tokenBudget ≤ tokensUsed then "budget_limited"
  else status

/-- `status NOT IN ('complete', 'cleared')`, denied. -/
def isTerminal (status : String) : Bool :=
  status = "complete" || status = "cleared"

/-- The row of `GOALS_INSERT_HEAD`. -/
def goalsInsert (g : Goal) : Except LedgerError GoalRow := do
  let tokensUsed ← bindU64 g.tokensUsed
  let tokenBudget ← bindU64 g.tokenBudget
  let revision ← bindU64 g.revision
  let createdAtMs ← bindU64 g.createdAtMs
  let updatedAtMs ← bindU64 g.updatedAtMs
  let timeUsedSeconds ← bindU64 g.timeUsedSeconds
  return { objective := g.objective, status := activated g.status tokensUsed tokenBudget,
           tokensUsed := tokensUsed, tokenBudget := tokenBudget,
           continuationsUsed := g.continuationsUsed.toNat, revision := revision,
           createdAtMs := createdAtMs, updatedAtMs := updatedAtMs,
           timeUsedSeconds := timeUsedSeconds }

def createGoal (g : Goal) (l : GoalLedger) : Except LedgerError GoalLedger := do
  let row ← goalsInsert g
  if l.goals[g.goalId]?.isSome then throw (.uniqueConstraint "goals" g.goalId)
  return { l with goals := l.goals.insert g.goalId row }

/-- The `WHERE` clause of the upsert's update arm. -/
def upsertAdmits (row excluded : GoalRow) : Bool :=
  row.updatedAtMs ≤ excluded.updatedAtMs && row.tokensUsed ≤ excluded.tokensUsed &&
    !(row.status = "complete" && excluded.status ≠ "complete") &&
    !(row.status = "cleared" && excluded.status ≠ "cleared")

/-- Its `SET` list; `created_at_ms` and `revision` are preserved. -/
def upsertMerge (row excluded : GoalRow) : GoalRow :=
  { row with
    objective := excluded.objective
    status := excluded.status
    tokensUsed := excluded.tokensUsed
    tokenBudget := excluded.tokenBudget
    continuationsUsed := excluded.continuationsUsed
    timeUsedSeconds := max row.timeUsedSeconds excluded.timeUsedSeconds
    updatedAtMs := excluded.updatedAtMs }

/-- Answers whether the write was admitted. -/
def upsertGoal (g : Goal) (l : GoalLedger) : Except LedgerError (Bool × GoalLedger) := do
  let excluded ← goalsInsert g
  match l.goals[g.goalId]? with
  | none => return (true, { l with goals := l.goals.insert g.goalId excluded })
  | some row =>
      if upsertAdmits row excluded then
        return (true, { l with goals := l.goals.insert g.goalId (upsertMerge row excluded) })
      else return (false, l)

/-- `ON CONFLICT(goal_id) DO NOTHING`. -/
def createGoalIfAbsent (g : Goal) (l : GoalLedger) : Except LedgerError (Bool × GoalLedger) := do
  let row ← goalsInsert g
  match l.goals[g.goalId]? with
  | none => return (true, { l with goals := l.goals.insert g.goalId row })
  | some _ => return (false, l)

/-- The pair the row was read with must still be there. -/
def casGoalStatus (goalId newStatus expectedStatus : String)
    (expectedUpdatedAtMs updatedAtMs : U64) (l : GoalLedger) : Except LedgerError (Bool × GoalLedger) := do
  let updatedAtMs ← bindU64 updatedAtMs
  let expectedUpdatedAtMs ← bindU64 expectedUpdatedAtMs
  match l.goals[goalId]? with
  | none => return (false, l)
  | some row =>
      if row.status = expectedStatus ∧ row.updatedAtMs = expectedUpdatedAtMs ∧
          isTerminal row.status = false then
        return (true, { l with
          goals := l.goals.insert goalId { row with
            status := activated newStatus row.tokensUsed row.tokenBudget
            updatedAtMs := updatedAtMs } })
      else return (false, l)

/-- The revision-guarded update `update_goal_status` and
`commit_state_with_audit` share; `none` when no row was affected. -/
def reviseStatus (goalId status : String) (expectedRevision updatedAtMs : U64) (l : GoalLedger) :
    Except LedgerError (Option GoalLedger) := do
  let updatedAtMs ← bindU64 updatedAtMs
  let expectedRevision ← bindU64 expectedRevision
  match l.goals[goalId]? with
  | none => return none
  | some row =>
      if row.revision = expectedRevision ∧ isTerminal row.status = false then
        return some { l with
          goals := l.goals.insert goalId { row with
            status := activated status row.tokensUsed row.tokenBudget
            revision := sqlAdd row.revision 1
            updatedAtMs := updatedAtMs } }
      else return none

def updateGoalStatus (goalId status : String) (expectedRevision updatedAtMs : U64) (l : GoalLedger) :
    Except LedgerError GoalLedger := do
  match ← reviseStatus goalId status expectedRevision updatedAtMs l with
  | some l => return l
  | none =>
      throw (.report ("update_goal_status failed: goal " ++ goalId ++
        " not found or revision mismatch (expected " ++ toString expectedRevision.toNat ++ ")"))

/-! ## The audit -/

/-- `MAX(seq)` of the goal's findings, 0 without any. -/
def maxFindingSeq (l : GoalLedger) (goalId : String) : Nat :=
  ((l.findings.toList.filter (fun r => r.2.goalId == goalId)).map (fun r => r.2.seq)).foldl max 0

/-- The finding's task must belong to the goal. -/
def checkTaskGoal (l : GoalLedger) (goalId : String) : Option String → Except LedgerError Unit
  | none => .ok ()
  | some taskId =>
      match l.tasks[taskId]? with
      | none => .error (.report ("task " ++ taskId ++ " not found"))
      | some owner =>
          if owner ≠ goalId then
            .error (.report ("cross-goal FK violation: task " ++ taskId ++ " belongs to goal " ++
              owner ++ ", not goal " ++ goalId))
          else .ok ()

/-- Every overturn edge must name a finding of the goal. -/
def checkSupersedes (l : GoalLedger) (goalId : String) : List String → Except LedgerError Unit
  | [] => .ok ()
  | old :: rest =>
      match l.findings[old]? with
      | some row =>
          if row.goalId = goalId then checkSupersedes l goalId rest
          else .error (.report ("supersedes references unknown finding " ++ old ++ " in goal " ++
            goalId))
      | none =>
          .error (.report ("supersedes references unknown finding " ++ old ++ " in goal " ++ goalId))

/-- The validated insert of a finding: the next sequence of the goal. -/
def insertFindingValidated (f : Finding) (goalId : String) (l : GoalLedger) :
    Except LedgerError GoalLedger := do
  let nextSeq := maxFindingSeq l goalId + 1
  checkTaskGoal l goalId f.taskId
  checkSupersedes l goalId f.supersedes
  if i64Max < nextSeq then throw (.outOfRange nextSeq)
  let costTokens ← bindU64 f.costTokens
  let _ ← bindU64 f.createdAtMs
  if l.findings[f.findingId]?.isSome then throw (.uniqueConstraint "findings" f.findingId)
  if l.goals[goalId]?.isNone then throw (.foreignKey "goals" goalId)
  return { l with
    findings := l.findings.insert f.findingId
      { seq := nextSeq, taskId := f.taskId, goalId := goalId, supersedes := f.supersedes,
        costTokens := costTokens } }

def appendFinding (f : Finding) (l : GoalLedger) : Except LedgerError GoalLedger :=
  insertFindingValidated f f.goalId l

/-- `FOREIGN KEY (task_id) REFERENCES tasks(task_id)`. -/
def checkTaskExists (l : GoalLedger) : Option String → Except LedgerError Unit
  | none => .ok ()
  | some taskId => if l.tasks[taskId]?.isSome then .ok () else .error (.foreignKey "tasks" taskId)

/-- The decision row of the audit. -/
def insertDecision (d : Decision) (goalId : String) (l : GoalLedger) :
    Except LedgerError GoalLedger := do
  let _ ← bindU64 d.decidedAtMs
  if l.decisions[d.decisionId]?.isSome then throw (.uniqueConstraint "decisions" d.decisionId)
  checkTaskExists l d.taskId
  return { l with
    decisions := l.decisions.insert d.decisionId
      { goalId := goalId, taskId := d.taskId, choice := d.choice } }

/-- Do nothing without a record to insert. -/
def insertOptional {α : Type} (insert : α → GoalLedger → Except LedgerError GoalLedger) :
    Option α → GoalLedger → Except LedgerError GoalLedger
  | none, l => .ok l
  | some a, l => insert a l

/-- The stored status of a goal, as read back. -/
def storedStatus (goalId : String) (l : GoalLedger) : String :=
  match l.goals[goalId]? with
  | some row => row.status
  | none => ""

/-- Status, finding and decision in one transaction; the decision is skipped
when the guard overrode the requested status.  Answers the stored status. -/
def commitStateWithAudit (goalId newStatus : String) (expectedRevision updatedAtMs : U64)
    (finding : Option Finding) (decision : Option Decision) (l : GoalLedger) :
    Except LedgerError (String × GoalLedger) := do
  match ← reviseStatus goalId newStatus expectedRevision updatedAtMs l with
  | none =>
      throw (.report ("commit_state_with_audit failed: goal " ++ goalId ++
        " not found, revision mismatch, or terminal status"))
  | some l =>
      let stored := storedStatus goalId l
      let l ← insertOptional (fun f => insertFindingValidated f goalId) finding l
      let l ← insertOptional (fun d l =>
        if stored = newStatus then insertDecision d goalId l else .ok l) decision l
      return (stored, l)

/-! ## Clearing -/

/-- The update arm of the clear stamp. -/
def stampMerge (row excluded : GoalRow) : GoalRow :=
  { row with
    objective := excluded.objective
    status := if row.status = "complete" then row.status else "cleared"
    tokensUsed := max row.tokensUsed excluded.tokensUsed
    tokenBudget := excluded.tokenBudget
    continuationsUsed := max row.continuationsUsed excluded.continuationsUsed
    timeUsedSeconds := max row.timeUsedSeconds excluded.timeUsedSeconds
    updatedAtMs := max row.updatedAtMs excluded.updatedAtMs }

/-- The write of `stamp_goal_cleared`; the status it answers is read back by a
statement of its own. -/
def stampGoalCleared (g : Goal) (l : GoalLedger) : Except LedgerError GoalLedger := do
  let row ← goalsInsert g
  let excluded := { row with status := "cleared" }
  match l.goals[g.goalId]? with
  | none => return { l with goals := l.goals.insert g.goalId excluded }
  | some row => return { l with goals := l.goals.insert g.goalId (stampMerge row excluded) }

/-- The charge of a turn that ended after the clear. -/
def settleRow (frozenBaseTokens tokensDelta frozenBaseTimeSeconds timeDelta updatedAtMs : Nat)
    (row : GoalRow) : GoalRow :=
  { row with
    tokensUsed := sqlAdd (max row.tokensUsed frozenBaseTokens) tokensDelta
    timeUsedSeconds := sqlAdd (max row.timeUsedSeconds frozenBaseTimeSeconds) timeDelta
    updatedAtMs := max row.updatedAtMs updatedAtMs }

/-- Answers whether there was a row. -/
def settleClearedGoalCostDelta (goalId : String)
    (frozenBaseTokens tokensDelta frozenBaseTimeSeconds timeDelta updatedAtMs : U64) (l : GoalLedger) :
    Except LedgerError (Bool × GoalLedger) := do
  let frozenBaseTokens ← bindU64 frozenBaseTokens
  let tokensDelta ← bindU64 tokensDelta
  let updatedAtMs ← bindU64 updatedAtMs
  let frozenBaseTimeSeconds ← bindU64 frozenBaseTimeSeconds
  let timeDelta ← bindU64 timeDelta
  match l.goals[goalId]? with
  | none => return (false, l)
  | some row =>
      return (true, { l with
        goals := l.goals.insert goalId
          (settleRow frozenBaseTokens tokensDelta frozenBaseTimeSeconds timeDelta updatedAtMs
            row) })

end Octos.Ledger
