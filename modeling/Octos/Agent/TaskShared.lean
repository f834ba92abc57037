/-
# `Octos.Agent.TaskShared` — supervisors that share a ledger

The supervisors of a session, one a turn, restore from one ledger and append to it.
Each holds copies of the tasks of earlier turns; only the owner of a task, the
supervisor it was registered with, hears of its end.  A snapshot is taken under the
lock and appended later; a refresh reads the ledger without the lock and merges later.

Freshness is the stamp of the last change, whoever made it.  A supervisor that stamps
a stale copy after the owner's verdict therefore writes the freshest row, and the next
refresh revives the task everywhere, the owner included.  `finished_stays` says that
this, and a refresh that was reading while the owner's row was appended, is all that can
go wrong.
-/
import Octos.Agent.TaskLedger

namespace Octos.Agent

/-! ## The shared state -/

/-- A row of the ledger, with the supervisor that wrote it. -/
structure LedgerRow where
  writer : Nat
  task : BackgroundTask

/-- The rows a supervisor read and has not merged yet. -/
structure LedgerReading where
  reader : Nat
  rows : List LedgerRow

/-- Any number of supervisors and their ledger.  `owner` and `verdict` are for the
statements only: who registered a task, and when the owner first stamped a settled
copy of it. -/
structure SharedTasks where
  tables : Nat → Tasks
  persisting : Nat → Bool
  ledger : List LedgerRow
  flight : List LedgerRow
  readings : List LedgerReading
  owner : Table String Nat
  verdict : Table String Nat
  clock : Nat

def SharedTasks.new : SharedTasks := ⟨fun _ => ∅, fun _ => false, [], [], [], ∅, ∅, 0⟩

/-- `load_persisted_tasks` of these rows. -/
def loadRows (rows : List LedgerRow) : Tasks :=
  loadPersistedTasks (rows.map LedgerRow.task)

/-- The refresh of one task: a task that is not here is not imported. -/
def Tasks.freshen (tasks : Tasks) (row : String × BackgroundTask) : Tasks :=
  match tasks[row.1]? with
  | some existing =>
      if taskSnapshotAdvances row.2 existing then tasks.insert row.1 row.2 else tasks
  | none => tasks

/-- The merge of `refresh_from_persistence`. -/
def Tasks.refresh (tasks restored : Tasks) : Tasks :=
  restored.toList.foldl Tasks.freshen tasks

/-- The merge of `refresh_task_from_persistence`. -/
def Tasks.refreshTask (tasks restored : Tasks) (id : String) : Tasks :=
  match restored[id]? with
  | some task => tasks.freshen (id, task)
  | none => tasks

/-- Whether the call appends the snapshot it took: `set_tool_input` appends nothing,
and `mark_parked` reads the task again for its append. -/
def TaskCall.appends : TaskCall → Bool
  | .setToolInput _ | .markParked _ => false
  | _ => true

instance decidableSettled (task : BackgroundTask) : Decidable task.Settled :=
  inferInstanceAs (Decidable (_ ∨ _ ∨ _ ∧ _))

/-- The steps of the supervisors.  The composite operations are sequences of them:
`enable_persistence` is `read`, `restore`, `persist`, then `persistById` for the tasks
it did not restore and `call` for its sweep. -/
inductive SharedOp where
  | persist (k : Nat)
  | register (k : Nat) (r : Registration) (id : String) (now : Nat)
  | call (k : Nat) (id : String) (c : TaskCall) (now : Nat)
  | persistById (k : Nat) (id : String)
  | append (n : Nat)
  | read (k : Nat)
  | refresh (n : Nat)
  | refreshTask (n : Nat) (id : String)
  | restore (n : Nat)

namespace SharedTasks

/-- A new table for one supervisor. -/
def setTable (s : SharedTasks) (k : Nat) (tasks : Tasks) : SharedTasks :=
  { s with tables := fun i => if i = k then tasks else s.tables i }

/-- The last step of a registration; a strict one appends first. -/
def register (s : SharedTasks) (path : String) (k : Nat) (r : Registration) (id : String) (now : Nat) :
    SharedTasks :=
  let task := r.task id now (if s.persisting k then some path else none)
  { s.setTable k ((s.tables k).insert id task) with
    ledger := if r.requirePersistence && s.persisting k then s.ledger ++ [⟨k, task⟩] else s.ledger
    owner := s.owner.insert id k
    clock := now }

/-- A call that changed the task. -/
def changed (s : SharedTasks) (k : Nat) (id : String) (c : TaskCall) (now : Nat)
    (task : BackgroundTask) : SharedTasks :=
  { s.setTable k ((s.tables k).insert id task) with
    flight := if c.appends then s.flight ++ [⟨k, task⟩] else s.flight
    verdict :=
      if c.appends && decide task.Settled && decide (s.owner[id]? = some k) &&
          (s.verdict[id]?).isNone then s.verdict.insert id now
      else s.verdict
    clock := now }

def call (s : SharedTasks) (k : Nat) (id : String) (c : TaskCall) (now : Nat) : SharedTasks :=
  match (s.tables k)[id]?.bind (fun task => c.apply now task) with
  | none => { s with clock := now }
  | some task => s.changed k id c now task

/-- `persist_snapshot_by_id`, up to its append. -/
def persistById (s : SharedTasks) (k : Nat) (id : String) : SharedTasks :=
  match (s.tables k)[id]? with
  | none => s
  | some task => { s with flight := s.flight ++ [⟨k, task⟩] }

/-- An append; without a ledger the row is dropped. -/
def append (s : SharedTasks) (n : Nat) : SharedTasks :=
  match s.flight[n]? with
  | none => s
  | some row =>
      { s with
        flight := s.flight.eraseIdx n
        ledger := if s.persisting row.writer then s.ledger ++ [row] else s.ledger }

/-- The merge of a reading, by one of the three operations that read. -/
def mergeReading (s : SharedTasks) (n : Nat) (merge : Tasks → Tasks → Tasks) : SharedTasks :=
  match s.readings[n]? with
  | none => s
  | some reading =>
      { s.setTable reading.reader (merge (s.tables reading.reader) (loadRows reading.rows)) with
        readings := s.readings.eraseIdx n }

/-- One step. -/
def step (path : String) (s : SharedTasks) : SharedOp → SharedTasks
  | .persist k => { s with persisting := fun i => if i = k then true else s.persisting i }
  | .register k r id now => s.register path k r id now
  | .call k id c now => s.call k id c now
  | .persistById k id => s.persistById k id
  | .append n => s.append n
  | .read k => { s with readings := s.readings ++ [⟨k, s.ledger⟩] }
  | .refresh n => s.mergeReading n Tasks.refresh
  | .refreshTask n id => s.mergeReading n (fun tasks restored => tasks.refreshTask restored id)
  | .restore n => s.mergeReading n (fun tasks restored => tasks.restore restored path)

def run (path : String) (s : SharedTasks) (ops : List SharedOp) : SharedTasks :=
  ops.foldl (step path) s

/-- Among these rows is one of the owner, settled, from its verdict on. -/
def Finished (s : SharedTasks) (rows : List LedgerRow) (id : String) : Prop :=
  ∃ T k, s.verdict[id]? = some T ∧ s.owner[id]? = some k ∧
    ∃ row ∈ rows, row.writer = k ∧ row.task.id = id ∧ row.task.Settled ∧ T ≤ row.task.updatedAt

end SharedTasks

/-- The ids are new and the clock does not go back. -/
def SharedOp.Fresh (s : SharedTasks) : SharedOp → Prop
  | .register _ _ id now => s.owner[id]? = none ∧ s.clock ≤ now
  | .call _ _ _ now => s.clock ≤ now
  | _ => True

/-- No call stamps a copy after the owner's verdict and leaves it without one; and no
merge into a finished copy is of a reading from before the owner's row. -/
def SharedOp.Calm (s : SharedTasks) : SharedOp → Prop
  | .call k id c now => ∀ T t t', s.verdict[id]? = some T → (s.tables k)[id]? = some t →
      c.apply now t = some t' → t'.status.isTerminal = false → t'.updatedAt ≤ T
  | .refresh n | .refreshTask n _ | .restore n => ∀ reading, s.readings[n]? = some reading →
      ∀ (id : String) t, (s.tables reading.reader)[id]? = some t → t.status.isTerminal = true →
        s.Finished s.ledger id → s.Finished reading.rows id
  | _ => True

instance decidableSharedFresh (s : SharedTasks) (op : SharedOp) : Decidable (op.Fresh s) :=
  match op with
  | .register _ _ id now => inferInstanceAs (Decidable (s.owner[id]? = none ∧ s.clock ≤ now))
  | .call _ _ _ now => inferInstanceAs (Decidable (s.clock ≤ now))
  | .persist _ | .persistById _ _ | .append _ | .read _ | .refresh _ | .refreshTask _ _
  | .restore _ => isTrue trivial

/-- The run is one of fresh steps. -/
def FreshSteps (path : String) : SharedTasks → List SharedOp → Prop
  | _, [] => True
  | s, op :: ops => op.Fresh s ∧ FreshSteps path (s.step path op) ops

instance decidableFreshSteps (path : String) :
    ∀ (s : SharedTasks) (ops : List SharedOp), Decidable (FreshSteps path s ops)
  | _, [] => isTrue trivial
  | s, op :: ops =>
      have := decidableFreshSteps path (s.step path op) ops
      inferInstanceAs (Decidable (op.Fresh s ∧ FreshSteps path (s.step path op) ops))

/-- The run is one of calm steps. -/
def CalmSteps (path : String) : SharedTasks → List SharedOp → Prop
  | _, [] => True
  | s, op :: ops => op.Calm s ∧ CalmSteps path (s.step path op) ops

/-! ## Calls -/

section Calls

variable {now : Nat} {t t' : BackgroundTask} {c : TaskCall}

/-- No call takes a verdict back for none. -/
theorem TaskCall.terminal (h : c.apply now t = some t') (ht : t.status.isTerminal = true) :
    t'.status.isTerminal = true := by
  cases TaskCall.moves h with
  | same hsame => rw [hsame.status, ht]
  | ongoing hopen =>
      rw [ht] at hopen
      cases hopen
  | verdict hopen =>
      rw [ht] at hopen
      cases hopen
  | again _ hstill => rw [hstill]; rfl
  | overridden _ _ hstatus => rw [hstatus]; rfl

/-- A call stamps the task, or it is `set_tool_input`. -/
theorem TaskCall.stamps (h : c.apply now t = some t') :
    t'.updatedAt = now ∨ t'.updatedAt = t.updatedAt ∧ c.appends = false := by
  cases c with
  | markRunning | markRuntimeState | markParked | cancel =>
      obtain ⟨-, rfl⟩ := unless_terminal h
      exact Or.inl rfl
  | markCompleted files =>
      simp only [TaskCall.apply, BackgroundTask.markCompleted] at h
      split at h
      · cases h
      · obtain rfl := Option.some.inj h
        exact Or.inl rfl
  | markFailed | markFailedObserved =>
      simp only [TaskCall.apply, BackgroundTask.markFailedInner] at h
      split at h
      · cases h
      · obtain rfl := Option.some.inj h
        exact Or.inl rfl
  | setM13bProjection source role summary count policy =>
      simp only [TaskCall.apply, BackgroundTask.setM13bProjection] at h
      split at h
      · obtain rfl := Option.some.inj h
        exact Or.inl rfl
      · cases h
  | setWorkspaceRoot root =>
      simp only [TaskCall.apply, BackgroundTask.setWorkspaceRoot] at h
      split at h
      · cases h
      · split at h
        · cases h
        · obtain rfl := Option.some.inj h
          exact Or.inl rfl
  | setToolInput input =>
      obtain rfl := Option.some.inj h
      exact Or.inr ⟨rfl, rfl⟩
  | recordFinalOutput | setProjectionMetadata | markChildSessionOutcome =>
      obtain rfl := Option.some.inj h
      exact Or.inl rfl

theorem BackgroundTask.Settled.terminal (h : t.Settled) : t.status.isTerminal = true := by
  rcases h with h | h | ⟨h, -⟩ <;> rw [h] <;> rfl

end Calls

/-! ## Merging -/

section Merge

variable {T : Nat} {id : String} {t row : BackgroundTask} {tasks restored : Tasks}

/-- A verdict, stamped from `T` on. -/
def BackgroundTask.Ahead (T : Nat) (t : BackgroundTask) : Prop :=
  t.status.isTerminal = true ∧ T ≤ t.updatedAt

/-- The task was without verdict only up to `T`. -/
def BackgroundTask.OpenUntil (T : Nat) (t : BackgroundTask) : Prop :=
  t.status.isTerminal = false → t.updatedAt ≤ T

/-- A row that advances over a verdict after `T` is one. -/
theorem ahead_of_advances (h : taskSnapshotAdvances row t = true) (ht : t.Ahead T)
    (hrow : row.OpenUntil T) : row.Ahead T := by
  obtain ⟨hterm, hle⟩ := ht
  unfold taskSnapshotAdvances at h
  split at h
  · next hlt =>
      refine ⟨?_, hle.trans hlt.le⟩
      cases hopen : row.status.isTerminal with
      | true => rfl
      | false => exact absurd ((hlt.trans_le (hrow hopen)).trans_le hle) (lt_irrefl _)
  · split at h
    · cases h
    · next hge hle' =>
        have hstamp : row.updatedAt = t.updatedAt :=
          le_antisymm (not_lt.mp hge) (not_lt.mp hle')
        refine ⟨?_, hstamp ▸ hle⟩
        cases hstatus : row.status <;> simp [hstatus, TaskStatus.isTerminal] at h ⊢

/-- A task that a verdict after `T` does not advance over is one. -/
theorem ahead_of_not_advances (h : ¬taskSnapshotAdvances row t = true) (hrow : row.Ahead T)
    (ht : t.OpenUntil T) : t.Ahead T := by
  obtain ⟨hterm, hle⟩ := hrow
  unfold taskSnapshotAdvances at h
  split at h
  · exact absurd rfl h
  · next hge =>
      have hstamp : T ≤ t.updatedAt := hle.trans (not_lt.mp hge)
      refine ⟨?_, hstamp⟩
      cases hopen : t.status.isTerminal with
      | true => rfl
      | false =>
          split at h
          · next hlt => exact absurd ((hlt.trans_le (ht hopen)).trans_le hle) (lt_irrefl _)
          · simp [hterm, hopen] at h

theorem merge_ahead (h : ∃ t, tasks[id]? = some t ∧ t.Ahead T) (hrow : row.id = id → row.OpenUntil T) :
    ∃ t, (tasks.merge row)[id]? = some t ∧ t.Ahead T := by
  obtain ⟨t, ht, hahead⟩ := h
  by_cases hid : row.id = id
  · obtain rfl := hid
    simp only [Tasks.merge, ht]
    split
    · next hadv =>
        exact ⟨row, Table.get_insert_self _ _ _, ahead_of_advances hadv hahead (hrow rfl)⟩
    · exact ⟨t, ht, hahead⟩
  · refine ⟨t, ?_, hahead⟩
    unfold Tasks.merge
    split
    · split
      · exact (Table.get_insert_ne _ _ hid).trans ht
      · exact ht
    · exact (Table.get_insert_ne _ _ hid).trans ht

theorem merge_self (hrow : row.Ahead T) (h : ∀ t, tasks[row.id]? = some t → t.OpenUntil T) :
    ∃ t, (tasks.merge row)[row.id]? = some t ∧ t.Ahead T := by
  unfold Tasks.merge
  split
  · next t ht =>
      split
      · exact ⟨row, Table.get_insert_self _ _ _, hrow⟩
      · next hadv => exact ⟨t, ht, ahead_of_not_advances hadv hrow (h t ht)⟩
  · exact ⟨row, Table.get_insert_self _ _ _, hrow⟩

/-- With a verdict after `T` among the rows, and without open rows after `T`, the load
gives a verdict. -/
theorem load_ahead {rows : List BackgroundTask} (hopen : ∀ row ∈ rows, row.id = id → row.OpenUntil T)
    (hrow : row ∈ rows) (hid : row.id = id) (hahead : row.Ahead T) :
    ∃ t, (loadPersistedTasks rows)[id]? = some t ∧ t.Ahead T := by
  -- the freshest task so far is ahead, or the verdict is still to come
  have hfold : ∀ (rows : List BackgroundTask) {tasks : Tasks},
      (∀ row ∈ rows, row.id = id → row.OpenUntil T) →
      (∀ t, tasks[id]? = some t → t.OpenUntil T) →
      ((∃ t, tasks[id]? = some t ∧ t.Ahead T) ∨ row ∈ rows) →
      ∃ t, (rows.foldl Tasks.merge tasks)[id]? = some t ∧ t.Ahead T := by
    intro rows
    induction rows with
    | nil =>
        rintro tasks - - (h | h)
        · exact h
        · cases h
    | cons r rows ih =>
        intro tasks hrows htasks h
        have hr : r.id = id → r.OpenUntil T := hrows r List.mem_cons_self
        refine ih (fun x hx => hrows x (List.mem_cons_of_mem _ hx)) ?_ ?_
        · intro t ht
          rcases of_merge_get ht with ⟨rfl, hrid⟩ | ht
          · exact hr hrid
          · exact htasks t ht
        · rcases h with h | h
          · exact Or.inl (merge_ahead h hr)
          · rcases List.mem_cons.mp h with rfl | h
            · refine Or.inl ?_
              rw [← hid]
              exact merge_self hahead (hid ▸ htasks)
            · exact Or.inr h
  have hnone : (∅ : Tasks)[id]? = none := Std.ExtTreeMap.getElem?_empty
  refine hfold rows hopen ?_ (Or.inr hrow)
  intro t ht
  cases hnone.symm.trans ht

/-- What the three merges have in common: a task of the result was here or was read,
perhaps stamped with the path, and no task is lost. -/
structure MergesInto (path : String) (merge : Tasks → Tasks → Tasks) : Prop where
  source : ∀ {tasks restored : Tasks} {j : String} {t : BackgroundTask}, restored.Keyed →
    (merge tasks restored)[j]? = some t →
    ∃ u, (restored[j]? = some u ∨ tasks[j]? = some u) ∧ (t = u ∨ t = u.stamp path)
  keeps : ∀ {tasks restored : Tasks} {j : String} {t : BackgroundTask}, tasks[j]? = some t →
    ∃ t', (merge tasks restored)[j]? = some t'

theorem of_freshen_get {r : String × BackgroundTask} {j : String} (h : (tasks.freshen r)[j]? = some t) :
    (r.1 = j ∧ t = r.2) ∨ tasks[j]? = some t := by
  unfold Tasks.freshen at h
  split at h
  · split at h
    · rcases Table.of_get_insert h with ⟨hid, rfl⟩ | ⟨-, h⟩
      · exact Or.inl ⟨hid, rfl⟩
      · exact Or.inr h
    · exact Or.inr h
  · exact Or.inr h

theorem freshen_keeps {r : String × BackgroundTask} {j : String} (h : ∃ t, tasks[j]? = some t) :
    ∃ t, (tasks.freshen r)[j]? = some t := by
  unfold Tasks.freshen
  split
  · split
    · exact Table.exists_insert _ _ h
    · exact h
  · exact h

theorem refresh_merges (path : String) : MergesInto path Tasks.refresh where
  source := by
    intro tasks restored j t _ h
    have hfold : ∀ (l : List (String × BackgroundTask)) {tasks : Tasks},
        (∀ r ∈ l, restored[r.1]? = some r.2) → (l.foldl Tasks.freshen tasks)[j]? = some t →
        restored[j]? = some t ∨ tasks[j]? = some t := by
      intro l
      induction l with
      | nil => exact fun _ h => Or.inr h
      | cons r l ih =>
          intro tasks hrows h
          rcases ih (fun x hx => hrows x (List.mem_cons_of_mem _ hx)) h with h | h
          · exact Or.inl h
          · rcases of_freshen_get h with ⟨rfl, rfl⟩ | h
            · exact Or.inl (hrows r List.mem_cons_self)
            · exact Or.inr h
    exact ⟨t, hfold _ (fun r hr => Table.mem_rows.mp hr) h, Or.inl rfl⟩
  keeps := by
    intro tasks restored j t h
    have hfold : ∀ (l : List (String × BackgroundTask)) {tasks : Tasks},
        (∃ t, tasks[j]? = some t) → ∃ t, (l.foldl Tasks.freshen tasks)[j]? = some t := by
      intro l
      induction l with
      | nil => exact fun h => h
      | cons r l ih => exact fun h => ih (freshen_keeps h)
    exact hfold _ ⟨t, h⟩

theorem refreshTask_merges (path id : String) :
    MergesInto path (fun tasks restored => tasks.refreshTask restored id) where
  source := by
    intro tasks restored j t _ h
    refine ⟨t, ?_, Or.inl rfl⟩
    simp only [Tasks.refreshTask] at h
    split at h
    · next task htask =>
        rcases of_freshen_get h with ⟨rfl, rfl⟩ | h
        · exact Or.inl htask
        · exact Or.inr h
    · exact Or.inr h
  keeps := by
    intro tasks restored j t h
    simp only [Tasks.refreshTask]
    split
    · exact freshen_keeps ⟨t, h⟩
    · exact ⟨t, h⟩

theorem restore_merges (path : String) :
    MergesInto path (fun tasks restored => tasks.restore restored path) where
  source := by
    intro tasks restored j t hkeyed h
    have hfold : ∀ (l : List BackgroundTask) {tasks : Tasks} {u : BackgroundTask},
        (∀ r ∈ l, restored[r.id]? = some r) → (l.foldl Tasks.merge tasks)[j]? = some u →
        restored[j]? = some u ∨ tasks[j]? = some u := by
      intro l
      induction l with
      | nil => exact fun _ h => Or.inr h
      | cons r l ih =>
          intro tasks u hrows h
          rcases ih (fun x hx => hrows x (List.mem_cons_of_mem _ hx)) h with h | h
          · exact Or.inl h
          · rcases of_merge_get h with ⟨rfl, rfl⟩ | h
            · exact Or.inl (hrows u List.mem_cons_self)
            · exact Or.inr h
    have hrows : ∀ r ∈ restored.toList.map Prod.snd, restored[r.id]? = some r := by
      intro r hr
      obtain ⟨⟨key, r⟩, hrow, rfl⟩ := List.mem_map.mp hr
      have hget := Table.mem_rows.mp hrow
      rw [hkeyed key r hget]
      exact hget
    rw [Tasks.restore, Std.ExtTreeMap.getElem?_map] at h
    obtain ⟨u, hu, rfl⟩ := Option.map_eq_some_iff.mp h
    exact ⟨u, hfold _ hrows hu, Or.inr rfl⟩
  keeps := by
    intro tasks restored j t h
    have hfold : ∀ (l : List BackgroundTask) {tasks : Tasks},
        (∃ t, tasks[j]? = some t) → ∃ t, (l.foldl Tasks.merge tasks)[j]? = some t := by
      intro l
      induction l with
      | nil => exact fun h => h
      | cons r l ih =>
          intro tasks h
          refine ih ?_
          unfold Tasks.merge
          split
          · split
            · exact Table.exists_insert _ _ h
            · exact h
          · exact Table.exists_insert _ _ h
    obtain ⟨u, hu⟩ := hfold (restored.toList.map Prod.snd) ⟨t, h⟩
    refine ⟨u.stamp path, ?_⟩
    rw [Tasks.restore, Std.ExtTreeMap.getElem?_map, hu]
    rfl

end Merge

/-! ## What a step writes -/

section Step

variable {path : String} {s : SharedTasks} {op : SharedOp} {t t' : BackgroundTask} {id : String} {k n : Nat}

/-- The task is somewhere: a copy, a row, or a row on its way in or out. -/
def SharedTasks.Item (s : SharedTasks) (t : BackgroundTask) : Prop :=
  (∃ (k : Nat) (j : String), (s.tables k)[j]? = some t) ∨ (∃ row ∈ s.ledger, row.task = t) ∨
    (∃ row ∈ s.flight, row.task = t) ∨ ∃ reading ∈ s.readings, ∃ row ∈ reading.rows, row.task = t

/-- Where a task after a step comes from. -/
inductive SharedOp.Writes (path : String) (s : SharedTasks) : SharedOp → BackgroundTask → Prop
  | old {op : SharedOp} {t : BackgroundTask} (h : s.Item t) : Writes path s op t
  | stamped {op : SharedOp} {t : BackgroundTask} (h : s.Item t) : Writes path s op (t.stamp path)
  | called {k : Nat} {id : String} {c : TaskCall} {now : Nat} {t t' : BackgroundTask}
      (h : (s.tables k)[id]? = some t) (hc : c.apply now t = some t') :
      Writes path s (.call k id c now) t'
  | registered {k : Nat} {r : Registration} {id : String} {now : Nat} (p : Option String) :
      Writes path s (.register k r id now) (r.task id now p)

theorem loadRows_item {rows : List LedgerRow} {j : String} (h : (loadRows rows)[j]? = some t) :
    ∃ row ∈ rows, row.task = t := by
  obtain ⟨row, hrow, rfl⟩ := List.mem_map.mp (load_row h).1
  exact ⟨row, hrow, rfl⟩

/-- A table that replaced another. -/
theorem setTable_get {tasks : Tasks} {i : Nat} {j : String}
    (h : ((s.setTable k tasks).tables i)[j]? = some t) :
    tasks[j]? = some t ∨ (s.tables i)[j]? = some t := by
  simp only [SharedTasks.setTable] at h
  split at h
  · exact Or.inl h
  · exact Or.inr h

theorem mergeReading_writes {merge : Tasks → Tasks → Tasks} (hmerge : MergesInto path merge)
    (h : (s.mergeReading n merge).Item t) : op.Writes path s t := by
  unfold SharedTasks.mergeReading at h
  split at h
  · exact .old h
  · next reading hreading =>
      have hmem := List.mem_of_getElem? hreading
      rcases h with ⟨i, j, hget⟩ | hrow | hrow | ⟨other, hother, hrow⟩
      · rcases setTable_get hget with hget | hget
        · obtain ⟨u, hu, hcopy⟩ := hmerge.source (load_keyed _) hget
          have hitem : s.Item u := by
            rcases hu with hu | hu
            · exact Or.inr (Or.inr (Or.inr ⟨reading, hmem, loadRows_item hu⟩))
            · exact Or.inl ⟨reading.reader, j, hu⟩
          rcases hcopy with rfl | rfl
          · exact .old hitem
          · exact .stamped hitem
        · exact .old (Or.inl ⟨i, j, hget⟩)
      · exact .old (Or.inr (Or.inl hrow))
      · exact .old (Or.inr (Or.inr (Or.inl hrow)))
      · exact .old (Or.inr (Or.inr (Or.inr ⟨other, List.mem_of_mem_eraseIdx hother, hrow⟩)))

/-- **What a step can write.** -/
theorem step_writes (h : (s.step path op).Item t) : op.Writes path s t := by
  cases op with
  | persist k => exact .old h
  | register k r id now =>
      rcases h with ⟨i, j, hget⟩ | ⟨row, hrow, rfl⟩ | hrow | hreading
      · rcases setTable_get hget with hget | hget
        · rcases Table.of_get_insert hget with ⟨-, rfl⟩ | ⟨-, hget⟩
          · exact .registered _
          · exact .old (Or.inl ⟨k, j, hget⟩)
        · exact .old (Or.inl ⟨i, j, hget⟩)
      · simp only [SharedTasks.step, SharedTasks.register] at hrow
        split at hrow
        · rcases List.mem_append.mp hrow with hrow | hrow
          · exact .old (Or.inr (Or.inl ⟨row, hrow, rfl⟩))
          · obtain rfl := List.mem_singleton.mp hrow
            exact .registered _
        · exact .old (Or.inr (Or.inl ⟨row, hrow, rfl⟩))
      · exact .old (Or.inr (Or.inr (Or.inl hrow)))
      · exact .old (Or.inr (Or.inr (Or.inr hreading)))
  | call k id c now =>
      simp only [SharedTasks.step, SharedTasks.call] at h
      split at h
      · exact .old h
      · next task' happly =>
          obtain ⟨task, htask, hc⟩ := Option.bind_eq_some_iff.mp happly
          rcases h with ⟨i, j, hget⟩ | hrow | ⟨row, hrow, rfl⟩ | hreading
          · rcases setTable_get hget with hget | hget
            · rcases Table.of_get_insert hget with ⟨-, rfl⟩ | ⟨-, hget⟩
              · exact .called htask hc
              · exact .old (Or.inl ⟨k, j, hget⟩)
            · exact .old (Or.inl ⟨i, j, hget⟩)
          · exact .old (Or.inr (Or.inl hrow))
          · simp only [SharedTasks.changed] at hrow
            split at hrow
            · rcases List.mem_append.mp hrow with hrow | hrow
              · exact .old (Or.inr (Or.inr (Or.inl ⟨row, hrow, rfl⟩)))
              · obtain rfl := List.mem_singleton.mp hrow
                exact .called htask hc
            · exact .old (Or.inr (Or.inr (Or.inl ⟨row, hrow, rfl⟩)))
          · exact .old (Or.inr (Or.inr (Or.inr hreading)))
  | persistById k id =>
      simp only [SharedTasks.step, SharedTasks.persistById] at h
      split at h
      · exact .old h
      · next task htask =>
          rcases h with hcopy | hrow | ⟨row, hrow, rfl⟩ | hreading
          · exact .old (Or.inl hcopy)
          · exact .old (Or.inr (Or.inl hrow))
          · rcases List.mem_append.mp hrow with hrow | hrow
            · exact .old (Or.inr (Or.inr (Or.inl ⟨row, hrow, rfl⟩)))
            · obtain rfl := List.mem_singleton.mp hrow
              exact .old (Or.inl ⟨k, id, htask⟩)
          · exact .old (Or.inr (Or.inr (Or.inr hreading)))
  | append n =>
      simp only [SharedTasks.step, SharedTasks.append] at h
      split at h
      · exact .old h
      · next new hnew =>
          have hflight : s.Item new.task :=
            Or.inr (Or.inr (Or.inl ⟨new, List.mem_of_getElem? hnew, rfl⟩))
          rcases h with hcopy | ⟨row, hrow, rfl⟩ | ⟨row, hrow, rfl⟩ | hreading
          · exact .old (Or.inl hcopy)
          · split at hrow
            · rcases List.mem_append.mp hrow with hrow | hrow
              · exact .old (Or.inr (Or.inl ⟨row, hrow, rfl⟩))
              · obtain rfl := List.mem_singleton.mp hrow
                exact .old hflight
            · exact .old (Or.inr (Or.inl ⟨row, hrow, rfl⟩))
          · exact .old (Or.inr (Or.inr (Or.inl ⟨row, List.mem_of_mem_eraseIdx hrow, rfl⟩)))
          · exact .old (Or.inr (Or.inr (Or.inr hreading)))
  | read k =>
      rcases h with hcopy | hrow | hrow | ⟨reading, hreading, hrow⟩
      · exact .old (Or.inl hcopy)
      · exact .old (Or.inr (Or.inl hrow))
      · exact .old (Or.inr (Or.inr (Or.inl hrow)))
      · rcases List.mem_append.mp hreading with hreading | hreading
        · exact .old (Or.inr (Or.inr (Or.inr ⟨reading, hreading, hrow⟩)))
        · obtain rfl := List.mem_singleton.mp hreading
          exact .old (Or.inr (Or.inl hrow))
  | refresh n => exact mergeReading_writes (refresh_merges path) h
  | refreshTask n id => exact mergeReading_writes (refreshTask_merges path id) h
  | restore n => exact mergeReading_writes (restore_merges path) h

end Step

/-! ## The invariant -/

section Invariant

variable {path : String} {s : SharedTasks} {op : SharedOp} {t : BackgroundTask} {n : Nat}

/-- What holds of every task that is somewhere. -/
structure SharedTasks.Good (s : SharedTasks) (t : BackgroundTask) : Prop where
  written : t.Written
  stamped : t.updatedAt ≤ s.clock
  owned : ∃ k, s.owner[t.id]? = some k
  openUntil : ∀ T, s.verdict[t.id]? = some T → t.OpenUntil T

structure SharedTasks.Inv (s : SharedTasks) : Prop where
  good : ∀ t, s.Item t → s.Good t
  keyed : ∀ k, (s.tables k).Keyed
  judged : ∀ (id : String) T, s.verdict[id]? = some T → ∃ k, s.owner[id]? = some k

/-- A merge changes one table and drops the reading. -/
theorem mergeReading_frame (s : SharedTasks) (n : Nat) (merge : Tasks → Tasks → Tasks) :
    (s.mergeReading n merge).clock = s.clock ∧ (s.mergeReading n merge).owner = s.owner ∧
      (s.mergeReading n merge).verdict = s.verdict := by
  unfold SharedTasks.mergeReading
  split <;> exact ⟨rfl, rfl, rfl⟩

theorem append_frame (s : SharedTasks) (n : Nat) :
    (s.append n).clock = s.clock ∧ (s.append n).owner = s.owner ∧ (s.append n).verdict = s.verdict := by
  unfold SharedTasks.append
  split <;> exact ⟨rfl, rfl, rfl⟩

theorem persistById_frame (s : SharedTasks) (k : Nat) (id : String) :
    (s.persistById k id).clock = s.clock ∧ (s.persistById k id).owner = s.owner ∧
      (s.persistById k id).verdict = s.verdict := by
  unfold SharedTasks.persistById
  split <;> exact ⟨rfl, rfl, rfl⟩

theorem call_frame (s : SharedTasks) (k : Nat) (id : String) (c : TaskCall) (now : Nat) :
    (s.call k id c now).clock = now ∧ (s.call k id c now).owner = s.owner := by
  unfold SharedTasks.call
  split <;> exact ⟨rfl, rfl⟩

/-- The operations that leave clock, owners and verdicts alone. -/
theorem step_frame (path : String) (s : SharedTasks) (op : SharedOp) :
    (∃ k r id now, op = .register k r id now) ∨ (∃ k id c now, op = .call k id c now) ∨
      ((s.step path op).clock = s.clock ∧ (s.step path op).owner = s.owner ∧
        (s.step path op).verdict = s.verdict) := by
  cases op with
  | register k r id now => exact Or.inl ⟨k, r, id, now, rfl⟩
  | call k id c now => exact Or.inr (Or.inl ⟨k, id, c, now, rfl⟩)
  | persist k => exact Or.inr (Or.inr ⟨rfl, rfl, rfl⟩)
  | read k => exact Or.inr (Or.inr ⟨rfl, rfl, rfl⟩)
  | persistById k id => exact Or.inr (Or.inr (persistById_frame s k id))
  | append n => exact Or.inr (Or.inr (append_frame s n))
  | refresh n => exact Or.inr (Or.inr (mergeReading_frame s n _))
  | refreshTask n id => exact Or.inr (Or.inr (mergeReading_frame s n _))
  | restore n => exact Or.inr (Or.inr (mergeReading_frame s n _))

theorem step_clock (hfresh : op.Fresh s) : s.clock ≤ (s.step path op).clock := by
  rcases step_frame path s op with ⟨k, r, id, now, rfl⟩ | ⟨k, id, c, now, rfl⟩ | ⟨hclock, -⟩
  · exact hfresh.2
  · show s.clock ≤ (s.call k id c now).clock
    rw [(call_frame s k id c now).1]
    exact hfresh
  · exact hclock.ge

theorem step_owner (hfresh : op.Fresh s) {j : String} (h : ∃ k, s.owner[j]? = some k) :
    ∃ k, (s.step path op).owner[j]? = some k := by
  rcases step_frame path s op with ⟨k, r, id, now, rfl⟩ | ⟨k, id, c, now, rfl⟩ | ⟨-, howner, -⟩
  · exact Table.exists_insert _ _ h
  · show ∃ i, (s.call k id c now).owner[j]? = some i
    rw [(call_frame s k id c now).2]
    exact h
  · rw [howner]
    exact h

/-- A new verdict is of this moment, and the owner's. -/
theorem step_verdict {j : String} {T : Nat} (h : (s.step path op).verdict[j]? = some T) :
    s.verdict[j]? = some T ∨ T = (s.step path op).clock ∧ ∃ k, s.owner[j]? = some k := by
  rcases step_frame path s op with ⟨k, r, id, now, rfl⟩ | ⟨k, id, c, now, rfl⟩ | ⟨-, -, hverdict⟩
  · exact Or.inl h
  · simp only [SharedTasks.step, SharedTasks.call] at h ⊢
    split at h
    · exact Or.inl h
    · simp only [SharedTasks.changed] at h
      split at h
      · next hnew =>
          simp only [Bool.and_eq_true, decide_eq_true_eq] at hnew
          rcases Table.of_get_insert h with ⟨rfl, rfl⟩ | ⟨-, h⟩
          · exact Or.inr ⟨rfl, k, hnew.1.2⟩
          · exact Or.inl h
      · exact Or.inl h
  · rw [hverdict] at h
    exact Or.inl h

theorem mergeReading_keyed {merge : Tasks → Tasks → Tasks} (hmerge : MergesInto path merge)
    (h : ∀ k, (s.tables k).Keyed) (k : Nat) : ((s.mergeReading n merge).tables k).Keyed := by
  intro j t ht
  unfold SharedTasks.mergeReading at ht
  split at ht
  · exact h k j t ht
  · next reading _ =>
      rcases setTable_get ht with ht | ht
      · obtain ⟨u, hu, hcopy⟩ := hmerge.source (load_keyed _) ht
        have hid : u.id = j := by
          rcases hu with hu | hu
          · exact load_keyed _ j u hu
          · exact h reading.reader j u hu
        rcases hcopy with rfl | rfl <;> exact hid
      · exact h k j t ht

theorem step_keyed (h : ∀ k, (s.tables k).Keyed) (k : Nat) : ((s.step path op).tables k).Keyed := by
  cases op with
  | persist i => exact h k
  | read i => exact h k
  | register i r id now =>
      intro j t ht
      rcases setTable_get ht with ht | ht
      · rcases Table.of_get_insert ht with ⟨rfl, rfl⟩ | ⟨-, ht⟩
        · rfl
        · exact h i j t ht
      · exact h k j t ht
  | call i id c now =>
      intro j t ht
      simp only [SharedTasks.step, SharedTasks.call] at ht
      split at ht
      · exact h k j t ht
      · next task' happly =>
          obtain ⟨task, htask, hc⟩ := Option.bind_eq_some_iff.mp happly
          rcases setTable_get ht with ht | ht
          · rcases Table.of_get_insert ht with ⟨rfl, rfl⟩ | ⟨-, ht⟩
            · exact (TaskCall.identity hc).id.trans (h i id task htask)
            · exact h i j t ht
          · exact h k j t ht
  | persistById i id =>
      simp only [SharedTasks.step, SharedTasks.persistById]
      split <;> exact h k
  | append i =>
      simp only [SharedTasks.step, SharedTasks.append]
      split <;> exact h k
  | refresh i => exact mergeReading_keyed (refresh_merges path) h k
  | refreshTask i id => exact mergeReading_keyed (refreshTask_merges path id) h k
  | restore i => exact mergeReading_keyed (restore_merges path) h k

/-- A good task stays good, stamped with the path or not. -/
theorem SharedTasks.Good.step (hg : s.Good t) (hfresh : op.Fresh s) : (s.step path op).Good t where
  written := hg.written
  stamped := hg.stamped.trans (step_clock hfresh)
  owned := step_owner hfresh hg.owned
  openUntil := by
    intro T hT hopen
    rcases step_verdict hT with hT | ⟨rfl, -⟩
    · exact hg.openUntil T hT hopen
    · exact hg.stamped.trans (step_clock hfresh)

theorem SharedTasks.Good.stamp (hg : s.Good t) : s.Good (t.stamp path) :=
  ⟨hg.written.restored path, hg.stamped, hg.owned, hg.openUntil⟩

theorem step_inv (hinv : s.Inv) (hfresh : op.Fresh s) (hcalm : op.Calm s) : (s.step path op).Inv where
  keyed := step_keyed hinv.keyed
  judged := by
    intro id T hT
    refine step_owner hfresh ?_
    rcases step_verdict hT with hT | ⟨-, howner⟩
    · exact hinv.judged id T hT
    · exact howner
  good := by
    intro t ht
    cases step_writes ht with
    | old h => exact (hinv.good t h).step hfresh
    | stamped h => exact (hinv.good _ h).stamp.step hfresh
    | @called k id c now u t h hc =>
        have hgood : s.Good u := hinv.good u (Or.inl ⟨k, id, h⟩)
        have hid : t.id = id := (TaskCall.identity hc).id.trans (hinv.keyed k id u h)
        have hclock : (s.step path (.call k id c now)).clock = now := (call_frame s k id c now).1
        have hstamp : t.updatedAt ≤ now := by
          rcases TaskCall.stamps hc with hnow | ⟨hsame, -⟩
          · exact hnow.le
          · rw [hsame]
            exact hgood.stamped.trans hfresh
        refine ⟨hgood.written.called hc, hstamp.trans hclock.ge, ?_, ?_⟩
        · rw [(TaskCall.identity hc).id]
          exact step_owner hfresh hgood.owned
        · intro T hT hopen
          rcases step_verdict hT with hT | ⟨rfl, -⟩
          · exact hcalm T u t (hid ▸ hT) h hc hopen
          · exact hstamp.trans hclock.ge
    | @registered k r id now p =>
        refine ⟨.registered r id now p, le_rfl, ⟨k, Table.get_insert_self _ _ _⟩, ?_⟩
        intro T hT _
        rcases step_verdict hT with hT | ⟨rfl, -⟩
        · -- the id is new, so there is no verdict on it
          obtain ⟨i, hi⟩ := hinv.judged id T hT
          rw [hfresh.1] at hi
          cases hi
        · exact le_rfl

theorem new_inv : SharedTasks.new.Inv := by
  have hnone : ∀ j : String, (∅ : Tasks)[j]? = none := fun _ => Std.ExtTreeMap.getElem?_empty
  refine ⟨?_, ?_, ?_⟩
  · rintro t (⟨k, j, h⟩ | ⟨row, h, -⟩ | ⟨row, h, -⟩ | ⟨reading, h, -⟩)
    · cases (hnone j).symm.trans h
    · cases h
    · cases h
    · cases h
  · intro k j t h
    cases (hnone j).symm.trans h
  · intro id T h
    have hempty : (∅ : Table String Nat)[id]? = none := Std.ExtTreeMap.getElem?_empty
    cases hempty.symm.trans h

theorem run_inv {ops : List SharedOp} (hinv : s.Inv) (hfresh : FreshSteps path s ops)
    (hcalm : CalmSteps path s ops) : (s.run path ops).Inv := by
  induction ops generalizing s with
  | nil => exact hinv
  | cons op ops ih => exact ih (step_inv hinv hfresh.1 hcalm.1) hfresh.2 hcalm.2

end Invariant

/-! ## Finished tasks -/

section Finished

variable {path : String} {s : SharedTasks} {op : SharedOp} {id : String} {t : BackgroundTask}

/-- Rows with the owner's verdict among them load as a verdict. -/
theorem finished_load (hinv : s.Inv) {rows : List LedgerRow} (hrows : ∀ row ∈ rows, s.Item row.task)
    (h : s.Finished rows id) :
    ∃ t, (loadRows rows)[id]? = some t ∧ t.status.isTerminal = true := by
  obtain ⟨T, k, hT, -, row, hrow, -, hid, hsettled, hle⟩ := h
  have hopen : ∀ x ∈ rows.map LedgerRow.task, x.id = id → x.OpenUntil T := by
    intro x hx hxid
    obtain ⟨r, hr, rfl⟩ := List.mem_map.mp hx
    exact (hinv.good _ (hrows r hr)).openUntil T (hxid ▸ hT)
  obtain ⟨t, ht, hahead⟩ := load_ahead hopen (List.mem_map_of_mem hrow) hid ⟨hsettled.terminal, hle⟩
  exact ⟨t, ht, hahead.1⟩

theorem mergeReading_terminal (hinv : s.Inv) {merge : Tasks → Tasks → Tasks}
    (hmerge : MergesInto path merge) {n k : Nat} (hfin : s.Finished s.ledger id)
    (hcalm : ∀ reading, s.readings[n]? = some reading → ∀ (id : String) t,
      (s.tables reading.reader)[id]? = some t → t.status.isTerminal = true →
      s.Finished s.ledger id → s.Finished reading.rows id)
    (ht : (s.tables k)[id]? = some t) (hterm : t.status.isTerminal = true) :
    ∃ t', ((s.mergeReading n merge).tables k)[id]? = some t' ∧ t'.status.isTerminal = true := by
  unfold SharedTasks.mergeReading
  split
  · exact ⟨t, ht, hterm⟩
  · next reading hreading =>
      by_cases hk : k = reading.reader
      · obtain rfl := hk
        have hmem := List.mem_of_getElem? hreading
        have hread : ∀ row ∈ reading.rows, s.Item row.task := fun row hrow =>
          Or.inr (Or.inr (Or.inr ⟨reading, hmem, row, hrow, rfl⟩))
        obtain ⟨best, hbest, hbestTerm⟩ :=
          finished_load hinv hread (hcalm reading hreading id t ht hterm hfin)
        obtain ⟨t', ht'⟩ : ∃ t',
            (merge (s.tables reading.reader) (loadRows reading.rows))[id]? = some t' := hmerge.keeps ht
        refine ⟨t', by simpa [SharedTasks.setTable] using ht', ?_⟩
        -- what the merge leaves was the copy or what was read
        obtain ⟨u, hu, hcopy⟩ := hmerge.source (load_keyed _) ht'
        have huTerm : u.status.isTerminal = true := by
          rcases hu with hu | hu
          · obtain rfl := Option.some.inj (hbest.symm.trans hu)
            exact hbestTerm
          · obtain rfl := Option.some.inj (ht.symm.trans hu)
            exact hterm
        rcases hcopy with rfl | rfl <;> exact huTerm
      · exact ⟨t, by simpa [SharedTasks.setTable, hk] using ht, hterm⟩

/-- A copy with a verdict, after a step. -/
theorem step_terminal (hinv : s.Inv) (hfresh : op.Fresh s) (hcalm : op.Calm s)
    (hfin : s.Finished s.ledger id) {k : Nat} (ht : (s.tables k)[id]? = some t)
    (hterm : t.status.isTerminal = true) :
    ∃ t', ((s.step path op).tables k)[id]? = some t' ∧ t'.status.isTerminal = true := by
  cases op with
  | persist i => exact ⟨t, ht, hterm⟩
  | read i => exact ⟨t, ht, hterm⟩
  | register i r j now =>
      obtain ⟨owner, howner⟩ := (hinv.good t (Or.inl ⟨k, id, ht⟩)).owned
      have hne : j ≠ id := by
        rintro rfl
        rw [hinv.keyed k j t ht, hfresh.1] at howner
        cases howner
      refine ⟨t, ?_, hterm⟩
      show (if k = i then _ else s.tables k)[id]? = some t
      split
      · next hk =>
          obtain rfl := hk
          exact (Table.get_insert_ne _ _ hne).trans ht
      · exact ht
  | call i j c now =>
      simp only [SharedTasks.step, SharedTasks.call]
      split
      · exact ⟨t, ht, hterm⟩
      · next task' happly =>
          obtain ⟨task, htask, hc⟩ := Option.bind_eq_some_iff.mp happly
          show ∃ t', (if k = i then (s.tables i).insert j task' else s.tables k)[id]? = some t' ∧ _
          split
          · next hk =>
              obtain rfl := hk
              by_cases hj : j = id
              · obtain rfl := hj
                obtain rfl := Option.some.inj (ht.symm.trans htask)
                exact ⟨task', Table.get_insert_self _ _ _, TaskCall.terminal hc hterm⟩
              · exact ⟨t, (Table.get_insert_ne _ _ hj).trans ht, hterm⟩
          · exact ⟨t, ht, hterm⟩
  | persistById i j =>
      simp only [SharedTasks.step, SharedTasks.persistById]
      split <;> exact ⟨t, ht, hterm⟩
  | append i =>
      simp only [SharedTasks.step, SharedTasks.append]
      split <;> exact ⟨t, ht, hterm⟩
  | refresh i => exact mergeReading_terminal hinv (refresh_merges path) hfin hcalm ht hterm
  | refreshTask i j => exact mergeReading_terminal hinv (refreshTask_merges path j) hfin hcalm ht hterm
  | restore i => exact mergeReading_terminal hinv (restore_merges path) hfin hcalm ht hterm

/-- No call of a sweep revives a task. -/
theorem sweep_terminal {tasks : Tasks} {now : Nat} {order : List BackgroundTask}
    (h : ∃ t, tasks[id]? = some t ∧ t.status.isTerminal = true) :
    ∃ t, (sweep now tasks order)[id]? = some t ∧ t.status.isTerminal = true := by
  obtain ⟨t, ht, hterm⟩ := h
  obtain ⟨u, hu, huTerm⟩ := @calls_keep now id (fun t => t.status.isTerminal = true)
    (order.map (fun task => (task.id, sweepCall task))) tasks t
    (fun c _ _ t t' h hc => TaskCall.terminal hc h) ht hterm
  rcases @cascade_get id now (cascadeIds order) _ u hu with ⟨⟨hactive, -⟩, -⟩ | ⟨-, hget⟩
  · rw [TaskStatus.idle_iff.mp (Or.inl huTerm)] at hactive
    cases hactive
  · exact ⟨u, hget, huTerm⟩

/-- **A finished task stays finished.**  In every state of a calm run, once a row of the
owner's verdict is in the ledger: whatever orphans a fresh restore of the ledger sweeps,
it gives the task a verdict; and no step, be it a merge or anything else, leaves a copy
without verdict that had one. -/
theorem finished_stays {ops : List SharedOp} (hsteps : FreshSteps path .new ops)
    (hcalmSteps : CalmSteps path .new ops)
    (hfin : (SharedTasks.new.run path ops).Finished (SharedTasks.new.run path ops).ledger id) :
    (∀ now order, ∃ t,
      (sweep now (Tasks.restore ∅ (loadRows (SharedTasks.new.run path ops).ledger) path)
        order)[id]? = some t ∧ t.status.isTerminal = true) ∧
    (∀ op, op.Fresh (SharedTasks.new.run path ops) → op.Calm (SharedTasks.new.run path ops) →
      ∀ k t, ((SharedTasks.new.run path ops).tables k)[id]? = some t → t.status.isTerminal = true →
        ∃ t', (((SharedTasks.new.run path ops).step path op).tables k)[id]? = some t' ∧
          t'.status.isTerminal = true) := by
  have hinv := run_inv new_inv hsteps hcalmSteps
  refine ⟨?_, ?_⟩
  · intro now order
    refine sweep_terminal ?_
    obtain ⟨t, ht, hterm⟩ :=
      finished_load hinv (fun row hrow => Or.inr (Or.inl ⟨row, hrow, rfl⟩)) hfin
    refine ⟨t.stamp path, ?_, hterm⟩
    have hkeyed : (loadRows (SharedTasks.new.run path ops).ledger).Keyed := load_keyed _
    rw [restore_fresh hkeyed, ht]
    rfl
  · intro op hfresh hcalm k t ht hterm
    exact step_terminal hinv hfresh hcalm hfin ht hterm

/-- The owner registers, starts and completes a task; in between a second supervisor
restores the running copy. -/
def finishedRun : List SharedOp :=
  [.persist 0, .register 0 sampleRegistration "t" 1, .call 0 "t" .markRunning 2, .append 0,
    .read 1, .restore 0, .persist 1, .call 0 "t" (.markCompleted ["report.md"]) 3, .append 0]

theorem finishedRun_finished (ops : List SharedOp)
    (hverdict : (SharedTasks.new.run "ledger" ops).verdict["t"]? = some 3)
    (howner : (SharedTasks.new.run "ledger" ops).owner["t"]? = some 0)
    (hrow : (SharedTasks.new.run "ledger" ops).ledger.any (fun row =>
      decide (row.writer = 0 ∧ row.task.id = "t" ∧ row.task.Settled ∧ 3 ≤ row.task.updatedAt)) = true) :
    (SharedTasks.new.run "ledger" ops).Finished (SharedTasks.new.run "ledger" ops).ledger "t" := by
  obtain ⟨row, hmem, hgood⟩ := List.any_eq_true.mp hrow
  exact ⟨3, 0, hverdict, howner, row, hmem, of_decide_eq_true hgood⟩

theorem finishedRun_calm : CalmSteps "ledger" .new finishedRun := by
  have hempty : ∀ {id : String} {T : Nat}, (∅ : Table String Nat)[id]? = some T → False := by
    intro id T h
    have hnone : (∅ : Table String Nat)[id]? = none := Std.ExtTreeMap.getElem?_empty
    cases hnone.symm.trans h
  refine ⟨trivial, trivial, ?_, trivial, trivial, ?_, trivial, ?_, trivial, trivial⟩
  · intro T t t' hT
    exact (hempty hT).elim
  · intro reading _ id t _ _ hfin
    obtain ⟨T, k, hT, -⟩ := hfin
    exact (hempty hT).elim
  · intro T t t' hT
    exact (hempty hT).elim

/-- The task of that run is finished for good. -/
theorem finished_stays_completed : ∃ t,
    (sweep 4 (Tasks.restore ∅ (loadRows (SharedTasks.new.run "ledger" finishedRun).ledger) "ledger")
      [])["t"]? = some t ∧ t.status.isTerminal = true :=
  (finished_stays (by decide) finishedRun_calm
    (finishedRun_finished finishedRun (by rfl) (by rfl) (by rfl))).1 4 []

/-- The second supervisor stamps its stale copy, and the owner reads the ledger again. -/
def revivedRun : List SharedOp :=
  finishedRun ++ [.call 1 "t" (.setProjectionMetadata "lane") 4, .append 0, .read 0]

/-- The owner's refresh turns its completed task into a running one, and a fresh
restore gives a running task too. -/
theorem refresh_revives : FreshSteps "ledger" .new revivedRun ∧
    (SharedTasks.new.run "ledger" revivedRun).Finished
      (SharedTasks.new.run "ledger" revivedRun).ledger "t" ∧
    (((SharedTasks.new.run "ledger" revivedRun).tables 0)["t"]?).map BackgroundTask.status =
      some .completed ∧
    ((((SharedTasks.new.run "ledger" revivedRun).step "ledger" (.refresh 0)).tables 0)["t"]?).map
      BackgroundTask.status = some .running ∧
    ((Tasks.restore ∅ (loadRows (SharedTasks.new.run "ledger" revivedRun).ledger) "ledger")["t"]?).map
      BackgroundTask.status = some .running :=
  ⟨by decide,
    finishedRun_finished revivedRun (by rfl) (by rfl) (by rfl),
    by rfl, by rfl, by rfl⟩

end Finished

end Octos.Agent
