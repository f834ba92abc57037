/-
# `Octos.Ledger.Tasks` — task rows and their verdicts

`sqlite_ledger.rs`: the writers of the `tasks` table in its migrated schema.  A row has
a status and the rank of the verdict it carries, `-1` without one.  A terminal write
lands when its rank is above the row's; every other status is a refresh, which lands
while there is no verdict.

So of the terminal writes that are delivered the highest rank is what stays, however
they are ordered and repeated, and it fixes the status.  Refreshes have no such order:
among themselves the last one wins.
-/
import Octos.Ledger.Goals

namespace Octos.Ledger

/-! ## The rows -/

/-- `TaskSettleAuthority`. -/
inductive TaskSettleAuthority
  | provisionalFailure
  | completion
  | finalFailure
  deriving DecidableEq

def TaskSettleAuthority.rank : TaskSettleAuthority → Int
  | .provisionalFailure => 0
  | .completion => 1
  | .finalFailure => 2

def TaskSettleAuthority.ledgerStatus : TaskSettleAuthority → String
  | .provisionalFailure | .finalFailure => "failed"
  | .completion => "complete"

/-- The columns of `Task` the writers read. -/
structure Task where
  taskId : String
  goalId : String
  status : String
  createdAtMs : U64
  updatedAtMs : U64

/-- A row of `tasks`, under its `task_id`. -/
structure TaskRow where
  goalId : String
  status : String
  createdAtMs : Nat
  updatedAtMs : Nat
  authority : Int
  deriving DecidableEq

/-- The tasks, and which goals there are. -/
structure TaskTable where
  goals : String → Bool
  tasks : Table String TaskRow

/-! ## The writers -/

/-- `creation_authority_for_status`. -/
def creationAuthorityForStatus (status : String) : Int :=
  if status = "complete" then TaskSettleAuthority.completion.rank
  else if status = "failed" then TaskSettleAuthority.finalFailure.rank
  else -1

/-- The row that is inserted. -/
def tasksInsert (t : Task) : Except LedgerError TaskRow := do
  let createdAtMs ← bindU64 t.createdAtMs
  let updatedAtMs ← bindU64 t.updatedAtMs
  return { goalId := t.goalId, status := t.status, createdAtMs := createdAtMs,
           updatedAtMs := updatedAtMs, authority := creationAuthorityForStatus t.status }

def createTask (t : Task) (l : TaskTable) : Except LedgerError TaskTable := do
  let row ← tasksInsert t
  if l.tasks[t.taskId]?.isSome then throw (.uniqueConstraint "tasks" t.taskId)
  if !l.goals t.goalId then throw (.foreignKey "goals" t.goalId)
  return { l with tasks := l.tasks.insert t.taskId row }

/-- Answers whether a row was inserted. -/
def createTaskIfAbsent (t : Task) (l : TaskTable) : Except LedgerError (Bool × TaskTable) := do
  let row ← tasksInsert t
  match l.tasks[t.taskId]? with
  | some _ => return (false, l)
  | none =>
      if !l.goals t.goalId then throw (.foreignKey "goals" t.goalId)
      return (true, { l with tasks := l.tasks.insert t.taskId row })

/-- `UPDATE tasks SET .. WHERE task_id = ? AND ..`: `change` is the new row, if the guard
lets it through.  Answers whether a row changed. -/
def updateTasks (taskId : String) (updatedAtMs : U64) (change : Nat → TaskRow → Option TaskRow) (l : TaskTable) :
    Except LedgerError (Bool × TaskTable) := do
  let updatedAtMs ← bindU64 updatedAtMs
  match l.tasks[taskId]?.bind (change updatedAtMs) with
  | none => return (false, l)
  | some row => return (true, { l with tasks := l.tasks.insert taskId row })

/-- A terminal write is above the rank of the row. -/
def TaskRow.settle (authority : TaskSettleAuthority) (updatedAtMs : Nat) (row : TaskRow) : Option TaskRow :=
  if row.authority < authority.rank then
    some { row with status := authority.ledgerStatus, updatedAtMs := updatedAtMs, authority := authority.rank }
  else none

/-- A refresh finds no verdict. -/
def TaskRow.refresh (newStatus : String) (updatedAtMs : Nat) (row : TaskRow) : Option TaskRow :=
  if row.authority < 0 then some { row with status := newStatus, updatedAtMs := updatedAtMs } else none

def settleTaskStatus (taskId : String) (authority : TaskSettleAuthority) (updatedAtMs : U64) (l : TaskTable) :
    Except LedgerError (Bool × TaskTable) :=
  updateTasks taskId updatedAtMs (TaskRow.settle authority) l

/-- The verdict a status stands for. -/
def statusVerdict (status : String) : Option TaskSettleAuthority :=
  if status = "complete" then some .completion
  else if status = "failed" then some .finalFailure
  else none

def updateTaskStatus (taskId newStatus : String) (updatedAtMs : U64) (l : TaskTable) :
    Except LedgerError (Bool × TaskTable) :=
  match statusVerdict newStatus with
  | some authority => settleTaskStatus taskId authority updatedAtMs l
  | none => updateTasks taskId updatedAtMs (TaskRow.refresh newStatus) l

inductive TaskCall
  | createTask (t : Task)
  | createTaskIfAbsent (t : Task)
  | updateTaskStatus (taskId newStatus : String) (updatedAtMs : U64)
  | settleTaskStatus (taskId : String) (authority : TaskSettleAuthority) (updatedAtMs : U64)

def TaskCall.run : TaskCall → TaskTable → Except LedgerError TaskTable
  | .createTask t, l => Ledger.createTask t l
  | .createTaskIfAbsent t, l => Prod.snd <$> Ledger.createTaskIfAbsent t l
  | .updateTaskStatus taskId newStatus updatedAtMs, l =>
      Prod.snd <$> Ledger.updateTaskStatus taskId newStatus updatedAtMs l
  | .settleTaskStatus taskId authority updatedAtMs, l =>
      Prod.snd <$> Ledger.settleTaskStatus taskId authority updatedAtMs l

/-- A call that fails leaves the table. -/
def TaskCall.exec (l : TaskTable) (call : TaskCall) : TaskTable :=
  match call.run l with
  | .ok l' => l'
  | .error _ => l

/-- The terminal rank a call delivers to a task; a call whose time is no `i64` is
refused. -/
def TaskCall.rank (taskId : String) : TaskCall → Option Int
  | .settleTaskStatus id authority updatedAtMs =>
      if id = taskId ∧ updatedAtMs.toNat ≤ i64Max then some authority.rank else none
  | .updateTaskStatus id newStatus updatedAtMs =>
      if id = taskId ∧ updatedAtMs.toNat ≤ i64Max then (statusVerdict newStatus).map TaskSettleAuthority.rank
      else none
  | _ => none

/-- The ranks delivered to a task. -/
def delivered (taskId : String) (calls : List TaskCall) : List Int :=
  calls.filterMap (TaskCall.rank taskId)

/-! ## The highest rank -/

theorem foldl_max_le_iff {ranks : List Int} : ∀ {a m : Int},
    ranks.foldl max a ≤ m ↔ a ≤ m ∧ ∀ r ∈ ranks, r ≤ m := by
  induction ranks with
  | nil => simp
  | cons r ranks ih =>
      intro a m
      rw [List.foldl_cons, ih, List.forall_mem_cons, max_le_iff, and_assoc]

theorem le_foldl_max {ranks : List Int} {a : Int} : a ≤ ranks.foldl max a :=
  (foldl_max_le_iff.mp le_rfl).1

/-- The rank that the statements of a status are about. -/
def statusOfRank (rank : Int) : String :=
  if rank = 1 then "complete" else "failed"

/-- What a row can become when the given ranks are delivered: the highest rank stays, and
where there is a verdict it fixes the status. -/
structure TaskRow.After (row row' : TaskRow) (ranks : List Int) : Prop where
  authority : row'.authority = ranks.foldl max row.authority
  status : 0 ≤ row'.authority →
    row'.status = if row.authority < row'.authority then statusOfRank row'.authority else row.status

section Calls

variable {l l' : TaskTable} {id taskId newStatus : String} {row row' : TaskRow} {authority : TaskSettleAuthority}
  {updatedAtMs : U64} {n : Nat}

theorem TaskRow.After.refl (row : TaskRow) : row.After row [] :=
  ⟨rfl, fun _ => (if_neg (lt_irrefl _)).symm⟩

/-- One after the other. -/
theorem TaskRow.After.trans {row₁ : TaskRow} {xs ys : List Int} (hx : row.After row₁ xs) (hy : row₁.After row' ys)
    (hgrow : row.authority ≤ row₁.authority) : row.After row' (xs ++ ys) := by
  have hauthority : row'.authority = (xs ++ ys).foldl max row.authority := by
    rw [hy.authority, hx.authority, List.foldl_append]
  refine ⟨hauthority, ?_⟩
  intro hverdict
  rw [hy.status hverdict]
  split
  · next hlt => rw [if_pos (lt_of_le_of_lt hgrow hlt)]
  · next hge =>
      -- the second part lands nothing, so the verdict is the first part's
      have hle : row₁.authority ≤ row'.authority := by
        rw [hy.authority]
        exact le_foldl_max
      have hsame : row'.authority = row₁.authority := le_antisymm (not_lt.mp hge) hle
      rw [hsame] at hverdict ⊢
      exact hx.status hverdict

end Calls

/-! ## Which rows there are -/

section Consistent

variable {l l' : TaskTable} {id taskId newStatus : String} {row row' : TaskRow} {authority : TaskSettleAuthority}
  {n : Nat}

end Consistent

/-! ## Settlement -/

end Octos.Ledger
