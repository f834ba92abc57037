/-
# `Octos.Agent.FailureSignals` — the failure signal of a background task

A task that fails owes its caller a signal, but not before the caller's turn has
acknowledged the tool call.  `mark_failed` changes the status under the task lock and
notifies later, under another lock: with the acknowledgement there the signal goes out,
without it the signal is stashed, and the acknowledgement drains the stash.  A
completion drops what is stashed for its task.

The calls are split where they release a lock; what a call has still to do is in
`todo`, and any of it may be done next.

An observer's failure can be overridden.  When the completion comes between the failure
and its notification, there is nothing to drop yet, and the signal of a completed task
goes out.  `signals_due` is about the runs in which no completion comes so early.
-/
import Octos.Agent.TaskFanout

namespace Octos.Agent

/-! ## The stash -/

/-- `SpawnOnlyFailureSignal`, without the alternatives parsed from its message. -/
structure SpawnOnlyFailureSignal where
  taskId : String
  toolName : String
  toolInput : String
  errorMessage : String
  parentSessionKey : Option String
  originatingClientMessageId : Option String
  deriving DecidableEq

structure PendingFailure where
  toolCallId : String
  signal : SpawnOnlyFailureSignal
  deriving DecidableEq

/-- The sets behind the lock of the signals. -/
structure AckAndPending where
  synthAckEmittedToolCallIds : List String
  pending : Table String PendingFailure
  pendingInsertionOrder : List String
  emittedTaskIds : List String
  emittedInsertionOrder : List String

/-- `MAX_PENDING_FAILURES`. -/
def maxPendingFailures : Nat := 256

/-- `MAX_FAILURE_SIGNAL_EMITTED_IDS`. -/
def maxFailureSignalEmittedIds : Nat := 1024

/-- The oldest entry that is still in the map is dropped. -/
def evictPending : List String → Table String PendingFailure → List String × Table String PendingFailure
  | [], pending => ([], pending)
  | stale :: rest, pending =>
      if (pending[stale]?).isSome then (rest, pending.erase stale) else evictPending rest pending

/-- Ids are dropped from the front while there are too many. -/
def trimEmitted : List String → List String → List String × List String
  | [], emitted => ([], emitted)
  | stale :: rest, emitted =>
      if maxFailureSignalEmittedIds < emitted.length then trimEmitted rest (emitted.erase stale)
      else (stale :: rest, emitted)

namespace AckAndPending

variable (g : AckAndPending)

/-- `insert_pending`. -/
def insertPending (taskId : String) (value : PendingFailure) : AckAndPending :=
  if (g.pending[taskId]?).isSome then { g with pending := g.pending.insert taskId value }
  else
    let kept :=
      if maxPendingFailures ≤ g.pending.size then evictPending g.pendingInsertionOrder g.pending
      else (g.pendingInsertionOrder, g.pending)
    { g with
      pending := kept.2.insert taskId value
      pendingInsertionOrder := kept.1 ++ [taskId] }

/-- `remove_pending`. -/
def removePending (taskId : String) : AckAndPending :=
  if (g.pending[taskId]?).isSome then
    { g with
      pending := g.pending.erase taskId
      pendingInsertionOrder := g.pendingInsertionOrder.erase taskId }
  else g

/-- The entries that wait for a tool call. -/
def waitingFor (toolCallId : String) : List (String × PendingFailure) :=
  g.pending.toList.filter (fun r => decide (r.2.toolCallId = toolCallId))

/-- The acknowledgement and `drain_pending_for_tool_call`. -/
def acknowledge (toolCallId : String) : AckAndPending :=
  { g with
    synthAckEmittedToolCallIds := toolCallId :: g.synthAckEmittedToolCallIds
    pending := ((g.waitingFor toolCallId).map Prod.fst).foldl (fun p id => p.erase id) g.pending
    pendingInsertionOrder := g.pendingInsertionOrder.diff ((g.waitingFor toolCallId).map Prod.fst) }

/-- `mark_emitted`; `none` when the id was there. -/
def markEmitted (taskId : String) : Option AckAndPending :=
  if taskId ∈ g.emittedTaskIds then none
  else
    let kept := trimEmitted (g.emittedInsertionOrder ++ [taskId]) (g.emittedTaskIds ++ [taskId])
    some { g with emittedInsertionOrder := kept.1, emittedTaskIds := kept.2 }

end AckAndPending

/-! ## Calls in progress -/

/-- What a call has still to do: `mark_failed` to notify, `mark_completed` and `cancel`
to drop a stashed signal, `mark_synth_ack_emitted` to dispatch what it drained, and
anyone who marked a signal emitted to fire it. -/
inductive SignalDuty where
  | notify (task : BackgroundTask)
  | drop (id : String) (completed : Bool)
  | dispatch (signal : SpawnOnlyFailureSignal)
  | fire (signal : SpawnOnlyFailureSignal)

/-- The supervisor with its calls in progress.  For the statements: the ids that have
failed, in order, and those whose completion has returned. -/
structure SignalState where
  tasks : Tasks
  guard : AckAndPending
  todo : List SignalDuty
  fired : List SpawnOnlyFailureSignal
  failures : List String
  returned : List String

def SignalState.new : SignalState := ⟨∅, ⟨[], ∅, [], [], []⟩, [], [], [], []⟩

inductive SignalOp where
  | register (r : Registration) (id : String) (now : Nat)
  | call (id : String) (c : TaskCall) (now : Nat)
  | acknowledge (toolCallId : String)
  | act (n : Nat)

/-- Whether the call is a failure. -/
def TaskCall.isFailure : TaskCall → Bool
  | .markFailed _ | .markFailedObserved _ => true
  | _ => false

/-- The duties of a call that changed `task` into `task'`: a failure is notified once. -/
def TaskCall.duties (id : String) (task task' : BackgroundTask) : TaskCall → List SignalDuty
  | .markFailed _ | .markFailedObserved _ => if task.status = .failed then [] else [.notify task']
  | .markCompleted _ => [.drop id true]
  | .cancel => [.drop id false]
  | _ => []

/-- The signal of a failed task. -/
def BackgroundTask.failureSignal (task : BackgroundTask) : SpawnOnlyFailureSignal where
  taskId := task.id
  toolName := task.toolName
  toolInput := task.toolInput.getD "null"
  errorMessage := task.error.getD ""
  parentSessionKey := task.parentSessionKey
  originatingClientMessageId := task.originatingClientMessageId

namespace SignalState

/-- The status change of a call, under the task lock. -/
def call (s : SignalState) (id : String) (c : TaskCall) (now : Nat) : SignalState :=
  match s.tasks[id]? with
  | none => s
  | some task =>
      match c.apply now task with
      | none => s
      | some task' =>
          { s with
            tasks := s.tasks.insert id task'
            todo := s.todo ++ c.duties id task task'
            failures :=
              if c.isFailure && decide (task.status ≠ .failed) then s.failures ++ [id]
              else s.failures }

/-- The signal is marked emitted and is to be fired, unless it was marked before. -/
def emit (s : SignalState) (taskId : String) (signal : SpawnOnlyFailureSignal) : SignalState :=
  match s.guard.markEmitted taskId with
  | none => s
  | some guard => { s with guard := guard, todo := s.todo ++ [.fire signal] }

/-- `notify_failure`, up to the callback. -/
def notifyFailure (s : SignalState) (task : BackgroundTask) : SignalState :=
  if task.toolCallId.isEmpty then s
  else if task.id ∈ s.guard.emittedTaskIds then s
  else if task.toolCallId ∈ s.guard.synthAckEmittedToolCallIds then s.emit task.id task.failureSignal
  else { s with guard := s.guard.insertPending task.id ⟨task.toolCallId, task.failureSignal⟩ }

/-- `drain_pending_failure_for_task`, the end of a completion or a cancellation. -/
def dropPending (s : SignalState) (id : String) (completed : Bool) : SignalState :=
  { s with
    guard := if id.isEmpty then s.guard else s.guard.removePending id
    returned := if completed then s.returned ++ [id] else s.returned }

/-- `mark_synth_ack_emitted`, up to the dispatches. -/
def markSynthAckEmitted (s : SignalState) (toolCallId : String) : SignalState :=
  if toolCallId.isEmpty then s
  else
    { s with
      guard := s.guard.acknowledge toolCallId
      todo := s.todo ++
        (s.guard.waitingFor toolCallId).map (fun r => .dispatch r.2.signal) }

/-- One duty is done. -/
def perform (s : SignalState) : SignalDuty → SignalState
  | .notify task => s.notifyFailure task
  | .drop id completed => s.dropPending id completed
  | .dispatch signal => s.emit signal.taskId signal
  | .fire signal => { s with fired := s.fired ++ [signal] }

def step (s : SignalState) : SignalOp → SignalState
  | .register r id now => { s with tasks := s.tasks.insert id (r.task id now none) }
  | .call id c now => s.call id c now
  | .acknowledge toolCallId => s.markSynthAckEmitted toolCallId
  | .act n =>
      match s.todo[n]? with
      | none => s
      | some duty => { s with todo := s.todo.eraseIdx n }.perform duty

def run (s : SignalState) (ops : List SignalOp) : SignalState :=
  ops.foldl step s

/-- Fewer pending entries and failed tasks than the sets hold. -/
def Roomy (s : SignalState) : Prop :=
  s.guard.pending.size < maxPendingFailures ∧ s.failures.length < maxFailureSignalEmittedIds

end SignalState

/-- Ids are new, and an id is a text. -/
def SignalOp.Fresh (s : SignalState) : SignalOp → Prop
  | .register _ id _ => s.tasks[id]?.isNone = true ∧ id.isEmpty = false
  | _ => True

/-- The duty may lead to a signal of the task. -/
def SignalDuty.about (id : String) : SignalDuty → Bool
  | .notify task => decide (task.id = id) && !task.toolCallId.isEmpty
  | .dispatch signal | .fire signal => decide (signal.taskId = id)
  | .drop _ _ => false

/-- If the duty ends a completion, the failure of its task has been notified, and what
was drained for the task has been dispatched and fired. -/
def SignalState.calmAt (s : SignalState) (n : Nat) : Bool :=
  match s.todo[n]? with
  | some (.drop id true) => s.todo.all (fun duty => !duty.about id)
  | _ => true

/-- No completion ends too early. -/
def SignalOp.Calm (s : SignalState) : SignalOp → Prop
  | .act n => s.calmAt n = true
  | _ => True

/-- Fresh steps through roomy states. -/
def RoomySteps : SignalState → List SignalOp → Prop
  | s, [] => s.Roomy
  | s, op :: ops => s.Roomy ∧ op.Fresh s ∧ RoomySteps (s.step op) ops

/-- Calm steps. -/
def SignalState.CalmSteps : SignalState → List SignalOp → Prop
  | _, [] => True
  | s, op :: ops => op.Calm s ∧ CalmSteps (s.step op) ops

instance decidableRoomy (s : SignalState) : Decidable s.Roomy :=
  inferInstanceAs (Decidable (_ < _ ∧ _ < _))

instance decidableSignalFresh (s : SignalState) (op : SignalOp) : Decidable (op.Fresh s) :=
  match op with
  | .register _ id _ => inferInstanceAs (Decidable (s.tasks[id]?.isNone = true ∧ id.isEmpty = false))
  | .call _ _ _ | .acknowledge _ | .act _ => isTrue trivial

instance decidableSignalCalm (s : SignalState) (op : SignalOp) : Decidable (op.Calm s) :=
  match op with
  | .act n => inferInstanceAs (Decidable (s.calmAt n = true))
  | .call _ _ _ | .acknowledge _ | .register _ _ _ => isTrue trivial

instance decidableRoomySteps : ∀ (s : SignalState) (ops : List SignalOp), Decidable (RoomySteps s ops)
  | s, [] => inferInstanceAs (Decidable s.Roomy)
  | s, op :: ops =>
      have := decidableRoomySteps (s.step op) ops
      inferInstanceAs (Decidable (s.Roomy ∧ op.Fresh s ∧ RoomySteps (s.step op) ops))

instance decidableCalmSteps : ∀ (s : SignalState) (ops : List SignalOp), Decidable (s.CalmSteps ops)
  | _, [] => isTrue trivial
  | s, op :: ops =>
      have := decidableCalmSteps (s.step op) ops
      inferInstanceAs (Decidable (op.Calm s ∧ (s.step op).CalmSteps ops))

/-! ## The sets -/

section Guard

variable {g : AckAndPending} {id : String}

theorem insertPending_new (hroom : g.pending.size < maxPendingFailures) (hnew : g.pending[id]? = none)
    (value : PendingFailure) :
    g.insertPending id value =
      { g with
        pending := g.pending.insert id value
        pendingInsertionOrder := g.pendingInsertionOrder ++ [id] } := by
  simp only [AckAndPending.insertPending, hnew, Option.isSome_none, Bool.false_eq_true, if_false,
    if_neg (not_le.mpr hroom)]

theorem trimEmitted_short (order : List String) {emitted : List String}
    (h : emitted.length ≤ maxFailureSignalEmittedIds) : trimEmitted order emitted = (order, emitted) := by
  cases order with
  | nil => rfl
  | cons stale rest => rw [trimEmitted, if_neg (not_lt.mpr h)]

theorem markEmitted_new (hroom : g.emittedTaskIds.length < maxFailureSignalEmittedIds)
    (hnew : id ∉ g.emittedTaskIds) :
    g.markEmitted id = some
      { g with
        emittedInsertionOrder := g.emittedInsertionOrder ++ [id]
        emittedTaskIds := g.emittedTaskIds ++ [id] } := by
  have hlen : (g.emittedTaskIds ++ [id]).length ≤ maxFailureSignalEmittedIds := by
    rw [List.length_append]
    exact hroom
  simp only [AckAndPending.markEmitted, if_neg hnew, trimEmitted_short _ hlen]

theorem removePending_get (id j : String) :
    (g.removePending id).pending[j]? = if id = j then none else g.pending[j]? := by
  unfold AckAndPending.removePending
  split
  · exact Table.get_erase _ _ _
  · next hnone =>
      split
      · next hid => rw [← hid, Option.not_isSome_iff_eq_none.mp hnone]
      · rfl

theorem mem_waitingFor {toolCallId : String} {r : String × PendingFailure} :
    r ∈ g.waitingFor toolCallId ↔ g.pending[r.1]? = some r.2 ∧ r.2.toolCallId = toolCallId := by
  rw [AckAndPending.waitingFor, List.mem_filter, ← Table.mem_rows, decide_eq_true_eq]

theorem waitingFor_nodup (toolCallId : String) : ((g.waitingFor toolCallId).map Prod.fst).Nodup :=
  (Table.rows_keys_nodup g.pending).sublist (List.filter_sublist.map Prod.fst)

theorem acknowledge_get (toolCallId j : String) :
    (g.acknowledge toolCallId).pending[j]? =
      if j ∈ (g.waitingFor toolCallId).map Prod.fst then none else g.pending[j]? :=
  Table.get_foldl_erase _ _ _

/-- The map and the queue hold the same ids, each once. -/
def AckAndPending.Lockstep (g : AckAndPending) : Prop :=
  g.pendingInsertionOrder.Nodup ∧
    ∀ id, id ∈ g.pendingInsertionOrder ↔ (g.pending[id]?).isSome = true

theorem insertPending_lockstep (h : g.Lockstep) (hroom : g.pending.size < maxPendingFailures)
    (hnew : g.pending[id]? = none) (value : PendingFailure) : (g.insertPending id value).Lockstep := by
  obtain ⟨hnodup, hmem⟩ := h
  rw [insertPending_new hroom hnew]
  refine ⟨?_, ?_⟩
  · refine List.nodup_append.mpr ⟨hnodup, List.nodup_singleton id, ?_⟩
    rintro x hx y hy rfl
    obtain rfl := List.mem_singleton.mp hy
    rw [hmem, hnew] at hx
    cases hx
  · intro j
    rw [List.mem_append, List.mem_singleton, hmem, Table.get_insert]
    by_cases hj : id = j
    · simp [hj]
    · simp [hj, Ne.symm hj]

theorem removePending_lockstep (h : g.Lockstep) (id : String) : (g.removePending id).Lockstep := by
  obtain ⟨hnodup, hmem⟩ := h
  refine ⟨?_, ?_⟩
  · unfold AckAndPending.removePending
    split
    · exact hnodup.erase id
    · exact hnodup
  · intro j
    rw [removePending_get]
    unfold AckAndPending.removePending
    split
    · show j ∈ g.pendingInsertionOrder.erase id ↔ _
      rw [hnodup.mem_erase_iff, hmem]
      by_cases hj : id = j
      · simp [hj]
      · simp [hj, Ne.symm hj]
    · next hnone =>
        rw [hmem]
        split
        · next hid => simp [← hid, Option.not_isSome_iff_eq_none.mp hnone]
        · rfl

theorem acknowledge_lockstep (h : g.Lockstep) (toolCallId : String) :
    (g.acknowledge toolCallId).Lockstep := by
  obtain ⟨hnodup, hmem⟩ := h
  refine ⟨hnodup.diff, ?_⟩
  intro j
  rw [acknowledge_get]
  show j ∈ g.pendingInsertionOrder.diff _ ↔ _
  rw [hnodup.mem_sdiff_iff, hmem]
  split
  · next hj => simp [hj]
  · next hj => simp only [hj, not_false_eq_true, and_true]

end Guard

/-! ## The invariant -/

section Invariant

/-- A notification of the task that will not be skipped. -/
def SignalDuty.notifies (id : String) : SignalDuty → Bool
  | .notify task => decide (task.id = id) && !task.toolCallId.isEmpty
  | _ => false

def SignalDuty.dispatches (id : String) : SignalDuty → Bool
  | .dispatch signal => decide (signal.taskId = id)
  | _ => false

def SignalDuty.fires (id : String) : SignalDuty → Bool
  | .fire signal => decide (signal.taskId = id)
  | _ => false

/-- How often a signal of the task is stashed. -/
def stashCount (pending : Table String PendingFailure) (id : String) : Nat :=
  if (pending[id]?).isSome then 1 else 0

namespace SignalState

/-- How often a signal of the task is on its way and not yet emitted. -/
def waiting (s : SignalState) (id : String) : Nat :=
  s.todo.countP (SignalDuty.notifies id) + s.todo.countP (SignalDuty.dispatches id) +
    stashCount s.guard.pending id

/-- A failed task has one signal: on its way, to be fired, or fired. -/
structure Inv (s : SignalState) : Prop where
  sound : ∀ (id : String) t, s.tasks[id]? = some t → t.Sound ∧ t.id = id
  nodup : s.failures.Nodup
  failed : ∀ id ∈ s.failures, ∃ t, s.tasks[id]? = some t ∧ (t.status = .failed ∨ t.status = .completed)
  once : ∀ id, s.waiting id + s.guard.emittedTaskIds.count id ≤ s.failures.count id
  fires : ∀ id, s.todo.countP (SignalDuty.fires id) +
    (s.fired.map SpawnOnlyFailureSignal.taskId).count id = s.guard.emittedTaskIds.count id
  due : ∀ (id : String) t, s.tasks[id]? = some t → t.status = .failed → t.toolCallId.isEmpty = false →
    1 ≤ s.waiting id + s.guard.emittedTaskIds.count id
  ended : ∀ id completed, .drop id completed ∈ s.todo → ∃ t, s.tasks[id]? = some t ∧
    (t.status = .completed ∨ completed = false ∧ t.status = .cancelled)
  notified : ∀ task, .notify task ∈ s.todo → ∃ t, s.tasks[task.id]? = some t ∧
    t.toolCallId = task.toolCallId
  stashed : ∀ (id : String) p, s.guard.pending[id]? = some p → p.signal.taskId = id ∧
    p.toolCallId ∉ s.guard.synthAckEmittedToolCallIds ∧
    ∃ t, s.tasks[id]? = some t ∧ t.toolCallId = p.toolCallId
  lockstep : s.guard.Lockstep

end SignalState

variable {s : SignalState} {id : String} {duty : SignalDuty}

/-- The order of the duties does not matter. -/
theorem SignalState.Inv.perm (h : s.Inv) {todo : List SignalDuty} (hperm : s.todo.Perm todo) :
    ({ s with todo := todo } : SignalState).Inv where
  sound := h.sound
  nodup := h.nodup
  failed := h.failed
  once := by
    intro id
    have := h.once id
    simp only [SignalState.waiting, hperm.countP_eq] at this
    exact this
  fires := by
    intro id
    have := h.fires id
    simp only [hperm.countP_eq] at this
    exact this
  due := by
    intro id t ht hfailed hid
    have := h.due id t ht hfailed hid
    simp only [SignalState.waiting, hperm.countP_eq] at this
    exact this
  ended := fun id completed hmem => h.ended id completed (hperm.mem_iff.mpr hmem)
  notified := fun task hmem => h.notified task (hperm.mem_iff.mpr hmem)
  stashed := h.stashed
  lockstep := h.lockstep

/-- No id is emitted twice, and only failed tasks are. -/
theorem SignalState.Inv.emitted_room (h : s.Inv) (hroom : s.Roomy) :
    s.guard.emittedTaskIds.length < maxFailureSignalEmittedIds := by
  have hsub : s.guard.emittedTaskIds.Subperm s.failures := by
    refine List.subperm_ext_iff.mpr ?_
    intro id _
    have := h.once id
    omega
  exact hsub.length_le.trans_lt hroom.2

theorem SignalState.Inv.count_le (h : s.Inv) (id : String) : s.failures.count id ≤ 1 :=
  List.nodup_iff_count_le_one.mp h.nodup id

/-- The state before a duty is done. -/
def SignalState.withDuty (s : SignalState) (duty : SignalDuty) : SignalState :=
  { s with todo := duty :: s.todo }

theorem skip_inv (h : (s.withDuty duty).Inv) (hskip : ∀ id, duty.about id = false)
    (hkind : ∀ id, duty.fires id = false) : s.Inv := by
  have hnotifies : ∀ id, duty.notifies id = false := by
    intro id
    cases duty with
    | notify task => exact hskip id
    | drop | dispatch | fire => rfl
  have hdispatches : ∀ id, duty.dispatches id = false := by
    intro id
    cases duty with
    | dispatch signal => exact hskip id
    | drop | notify | fire => rfl
  refine ⟨h.sound, h.nodup, h.failed, ?_, ?_, ?_, ?_, ?_, h.stashed, h.lockstep⟩
  · intro id
    simpa [SignalState.withDuty, SignalState.waiting, hnotifies, hdispatches] using h.once id
  · intro id
    simpa [SignalState.withDuty, hkind] using h.fires id
  · intro id t ht hfailed hid
    simpa [SignalState.withDuty, SignalState.waiting, hnotifies, hdispatches] using
      h.due id t ht hfailed hid
  · exact fun id completed hmem => h.ended id completed (List.mem_cons_of_mem _ hmem)
  · exact fun task hmem => h.notified task (List.mem_cons_of_mem _ hmem)

/-- A signal on its way is marked emitted and is to be fired. -/
theorem emit_inv {signal : SpawnOnlyFailureSignal} (h : (s.withDuty duty).Inv) (hroom : s.Roomy)
    (hnotifies : ∀ id, (if duty.notifies id then 1 else 0) + (if duty.dispatches id then 1 else 0) =
      if signal.taskId = id then 1 else 0)
    (hkind : ∀ id, duty.fires id = false) : (s.emit signal.taskId signal).Inv := by
  have hweight : ∀ id, (s.withDuty duty).waiting id =
      s.waiting id + if signal.taskId = id then 1 else 0 := by
    intro id
    rw [← hnotifies id]
    simp only [SignalState.withDuty, SignalState.waiting, List.countP_cons]
    omega
  have honce : ∀ id, s.waiting id + (if signal.taskId = id then 1 else 0) +
      s.guard.emittedTaskIds.count id ≤ s.failures.count id := by
    intro id
    rw [← hweight]
    exact h.once id
  have hnew : signal.taskId ∉ s.guard.emittedTaskIds := by
    intro hmem
    have hone := honce signal.taskId
    have hle : s.failures.count signal.taskId ≤ 1 := h.count_le signal.taskId
    have hpos := List.count_pos_iff.mpr hmem
    rw [if_pos rfl] at hone
    omega
  have hlen : s.guard.emittedTaskIds.length < maxFailureSignalEmittedIds := h.emitted_room hroom
  rw [SignalState.emit, markEmitted_new hlen hnew]
  have hcount : ∀ id, (s.guard.emittedTaskIds ++ [signal.taskId]).count id =
      s.guard.emittedTaskIds.count id + if signal.taskId = id then 1 else 0 := by
    intro id
    simp [List.count_append, List.count_singleton]
  have hfire : ∀ id, (s.todo ++ [SignalDuty.fire signal]).countP (SignalDuty.fires id) =
      s.todo.countP (SignalDuty.fires id) + if signal.taskId = id then 1 else 0 := by
    intro id
    simp [List.countP_append, List.countP_singleton, SignalDuty.fires]
  have hrest : ∀ id, (s.todo ++ [SignalDuty.fire signal]).countP (SignalDuty.notifies id) =
        s.todo.countP (SignalDuty.notifies id) ∧
      (s.todo ++ [SignalDuty.fire signal]).countP (SignalDuty.dispatches id) =
        s.todo.countP (SignalDuty.dispatches id) := by
    intro id
    simp [List.countP_append, SignalDuty.notifies, SignalDuty.dispatches]
  refine ⟨h.sound, h.nodup, h.failed, ?_, ?_, ?_, ?_, ?_, h.stashed, h.lockstep⟩
  · intro id
    have hone := honce id
    simp only [SignalState.waiting, hrest, hcount] at hone ⊢
    omega
  · intro id
    have hsame : s.todo.countP (SignalDuty.fires id) +
        (s.fired.map SpawnOnlyFailureSignal.taskId).count id = s.guard.emittedTaskIds.count id := by
      simpa [SignalState.withDuty, hkind] using h.fires id
    simp only [hfire, hcount]
    omega
  · intro id t ht hfailed hid
    have hone := h.due id t ht hfailed hid
    rw [hweight] at hone
    simp only [SignalState.withDuty, SignalState.waiting, hrest, hcount] at hone ⊢
    omega
  · intro id completed hmem
    rcases List.mem_append.mp hmem with hmem | hmem
    · exact h.ended id completed (List.mem_cons_of_mem _ hmem)
    · cases List.mem_singleton.mp hmem
  · intro task hmem
    rcases List.mem_append.mp hmem with hmem | hmem
    · exact h.notified task (List.mem_cons_of_mem _ hmem)
    · cases List.mem_singleton.mp hmem

/-- Without the acknowledgement the signal is stashed. -/
theorem stash_inv {task : BackgroundTask} (h : (s.withDuty (.notify task)).Inv) (hroom : s.Roomy)
    (hid : task.toolCallId.isEmpty = false)
    (hack : task.toolCallId ∉ s.guard.synthAckEmittedToolCallIds) :
    ({ s with guard := s.guard.insertPending task.id ⟨task.toolCallId, task.failureSignal⟩ } :
      SignalState).Inv := by
  have hweight : ∀ id, (s.withDuty (.notify task)).waiting id =
      s.waiting id + if task.id = id then 1 else 0 := by
    intro id
    simp only [SignalState.withDuty, SignalState.waiting, List.countP_cons, SignalDuty.notifies,
      SignalDuty.dispatches, hid]
    by_cases heq : task.id = id
    · simp [heq]
      omega
    · simp [heq]
  have hnew : s.guard.pending[task.id]? = none := by
    cases hget : s.guard.pending[task.id]? with
    | none => rfl
    | some p =>
        have hone := h.once task.id
        have hle : s.failures.count task.id ≤ 1 := h.count_le task.id
        rw [hweight, if_pos rfl] at hone
        simp only [SignalState.withDuty, SignalState.waiting, stashCount, hget, Option.isSome_some,
          if_true] at hone
        omega
  rw [insertPending_new hroom.1 hnew]
  have hstash : ∀ id, stashCount (s.guard.pending.insert task.id ⟨task.toolCallId, task.failureSignal⟩) id =
      stashCount s.guard.pending id + if task.id = id then 1 else 0 := by
    intro id
    unfold stashCount
    rw [Table.get_insert]
    by_cases heq : task.id = id
    · rw [if_pos heq, if_pos heq, ← heq, hnew]
      rfl
    · rw [if_neg heq, if_neg heq, Nat.add_zero]
  refine ⟨h.sound, h.nodup, h.failed, ?_, ?_, ?_, ?_, ?_, ?_, ?_⟩
  · intro id
    have hone := h.once id
    rw [hweight] at hone
    simp only [SignalState.withDuty, SignalState.waiting, hstash] at hone ⊢
    omega
  · intro id
    simpa [SignalState.withDuty, SignalDuty.fires] using h.fires id
  · intro id t ht hfailed htool
    have hone := h.due id t ht hfailed htool
    rw [hweight] at hone
    simp only [SignalState.withDuty, SignalState.waiting, hstash] at hone ⊢
    omega
  · exact fun id completed hmem => h.ended id completed (List.mem_cons_of_mem _ hmem)
  · exact fun other hmem => h.notified other (List.mem_cons_of_mem _ hmem)
  · intro id p hp
    rcases Table.of_get_insert hp with ⟨rfl, rfl⟩ | ⟨-, hp⟩
    · exact ⟨rfl, hack, h.notified task List.mem_cons_self⟩
    · exact h.stashed id p hp
  · have hkept := insertPending_lockstep h.lockstep hroom.1 hnew ⟨task.toolCallId, task.failureSignal⟩
    have hguard := insertPending_new hroom.1 hnew ⟨task.toolCallId, task.failureSignal⟩
    rw [← hguard]
    exact hkept

/-- A completed or cancelled task loses its stashed signal. -/
theorem drop_inv {completed : Bool} (h : (s.withDuty (.drop id completed)).Inv) :
    (s.dropPending id completed).Inv := by
  obtain ⟨t, ht, hstatus⟩ := h.ended id completed List.mem_cons_self
  have hget : ∀ j, (s.dropPending id completed).guard.pending[j]? = s.guard.pending[j]? ∨
      id = j ∧ (s.dropPending id completed).guard.pending[j]? = none := by
    intro j
    simp only [SignalState.dropPending]
    split
    · exact Or.inl rfl
    · rw [removePending_get]
      split
      · next hj => exact Or.inr ⟨hj, rfl⟩
      · exact Or.inl rfl
  have hframe : (s.dropPending id completed).guard.emittedTaskIds = s.guard.emittedTaskIds ∧
      (s.dropPending id completed).guard.synthAckEmittedToolCallIds =
        s.guard.synthAckEmittedToolCallIds := by
    simp only [SignalState.dropPending]
    split
    · exact ⟨rfl, rfl⟩
    · unfold AckAndPending.removePending
      split <;> exact ⟨rfl, rfl⟩
  have hsame : ∀ j, (s.withDuty (.drop id completed)).waiting j = s.waiting j := by
    intro j
    simp [SignalState.withDuty, SignalState.waiting, SignalDuty.notifies, SignalDuty.dispatches]
  have hstash : ∀ j, stashCount (s.dropPending id completed).guard.pending j ≤
        stashCount s.guard.pending j ∧
      (id ≠ j → stashCount (s.dropPending id completed).guard.pending j =
        stashCount s.guard.pending j) := by
    intro j
    unfold stashCount
    rcases hget j with heq | ⟨rfl, hnone⟩
    · rw [heq]
      exact ⟨le_rfl, fun _ => rfl⟩
    · rw [hnone]
      exact ⟨Nat.zero_le _, fun hne => absurd rfl hne⟩
  refine ⟨h.sound, h.nodup, h.failed, ?_, ?_, ?_, ?_, ?_, ?_, ?_⟩
  · intro j
    have hone := h.once j
    have hle := (hstash j).1
    rw [hsame] at hone
    rw [hframe.1]
    simp only [SignalState.withDuty, SignalState.waiting, SignalState.dropPending] at hone hle ⊢
    omega
  · intro j
    rw [hframe.1]
    simpa [SignalState.withDuty, SignalState.dropPending, SignalDuty.fires] using h.fires j
  · intro j u hu hfailed htool
    -- the task of the dropped signal has another status
    have hne : id ≠ j := by
      rintro rfl
      obtain rfl := Option.some.inj (ht.symm.trans hu)
      rcases hstatus with hdone | ⟨-, hdone⟩ <;> rw [hfailed] at hdone <;> cases hdone
    have hone := h.due j u hu hfailed htool
    have heq := (hstash j).2 hne
    rw [hsame] at hone
    rw [hframe.1]
    simp only [SignalState.withDuty, SignalState.waiting, SignalState.dropPending] at hone heq ⊢
    omega
  · exact fun j b hmem => h.ended j b (List.mem_cons_of_mem _ hmem)
  · exact fun task hmem => h.notified task (List.mem_cons_of_mem _ hmem)
  · intro j p hp
    rw [hframe.2]
    rcases hget j with heq | ⟨-, hnone⟩
    · rw [heq] at hp
      exact h.stashed j p hp
    · rw [hnone] at hp
      cases hp
  · show (if id.isEmpty then s.guard else s.guard.removePending id).Lockstep
    split
    · exact h.lockstep
    · exact removePending_lockstep h.lockstep id

theorem fire_inv {signal : SpawnOnlyFailureSignal} (h : (s.withDuty (.fire signal)).Inv) :
    ({ s with fired := s.fired ++ [signal] } : SignalState).Inv := by
  refine ⟨h.sound, h.nodup, h.failed, ?_, ?_, ?_, ?_, ?_, h.stashed, h.lockstep⟩
  · intro id
    simpa [SignalState.withDuty, SignalState.waiting, SignalDuty.notifies, SignalDuty.dispatches]
      using h.once id
  · intro id
    have hsum := h.fires id
    simp only [SignalState.withDuty, List.countP_cons, SignalDuty.fires] at hsum
    simp only [List.map_append, List.map_cons, List.map_nil, List.count_append,
      List.count_singleton]
    by_cases heq : signal.taskId = id
    · simp [heq] at hsum ⊢
      omega
    · simp [heq] at hsum ⊢
      omega
  · intro id t ht hfailed htool
    simpa [SignalState.withDuty, SignalState.waiting, SignalDuty.notifies, SignalDuty.dispatches]
      using h.due id t ht hfailed htool
  · exact fun id completed hmem => h.ended id completed (List.mem_cons_of_mem _ hmem)
  · exact fun task hmem => h.notified task (List.mem_cons_of_mem _ hmem)

/-- **Doing a duty.** -/
theorem perform_inv (h : (s.withDuty duty).Inv) (hroom : s.Roomy) : (s.perform duty).Inv := by
  cases duty with
  | notify task =>
      simp only [SignalState.perform, SignalState.notifyFailure]
      split
      · next hid =>
          refine skip_inv h ?_ (fun _ => rfl)
          intro id
          simp [SignalDuty.about, hid]
      · next hid =>
          have htool : task.toolCallId.isEmpty = false := by simpa using hid
          have hcount : ∀ id, (if SignalDuty.notifies id (.notify task) then 1 else 0) +
              (if SignalDuty.dispatches id (.notify task) then 1 else 0) =
              if task.id = id then 1 else 0 := by
            intro id
            simp [SignalDuty.notifies, SignalDuty.dispatches, htool]
          split
          · next hemitted =>
              -- a signal that is on its way is not emitted
              have hone := h.once task.id
              have hle : s.failures.count task.id ≤ 1 := h.count_le task.id
              have hpos := List.count_pos_iff.mpr hemitted
              have hself := hcount task.id
              simp only [SignalState.withDuty, SignalState.waiting, List.countP_cons] at hone
              rw [if_pos rfl] at hself
              omega
          · split
            · exact @emit_inv s (.notify task) task.failureSignal h hroom hcount (fun _ => rfl)
            · next hack => exact stash_inv h hroom htool hack
  | drop id completed => exact drop_inv h
  | dispatch signal =>
      refine emit_inv h hroom ?_ (fun _ => rfl)
      intro id
      simp [SignalDuty.notifies, SignalDuty.dispatches]
  | fire signal => exact fire_inv h

/-- What a call owes: a first failure a notification, the end of a task the drop of its
signal, any other call nothing. -/
theorem duties_cases {c : TaskCall} {now : Nat} {t t' : BackgroundTask} (hc : c.apply now t = some t') :
    (c.isFailure = true ∧ t.status ≠ .failed ∧ t.status ≠ .completed ∧
        c.duties id t t' = [.notify t']) ∨
      ((c.isFailure && decide (t.status ≠ .failed)) = false ∧
        (t'.status = .failed → t.status = .failed) ∧
        ∀ duty ∈ c.duties id t t', ∃ completed, duty = .drop id completed ∧
          (t'.status = .completed ∨ completed = false ∧ t'.status = .cancelled)) := by
  have hfailure : ∀ {error : String} {observed : Bool}, c.isFailure = true →
      (c.duties id t t' = if t.status = .failed then [] else [.notify t']) →
      t.markFailedInner now error observed = some t' →
      (c.isFailure = true ∧ t.status ≠ .failed ∧ t.status ≠ .completed ∧
          c.duties id t t' = [.notify t']) ∨
        ((c.isFailure && decide (t.status ≠ .failed)) = false ∧
          (t'.status = .failed → t.status = .failed) ∧
          ∀ duty ∈ c.duties id t t', ∃ completed, duty = .drop id completed ∧
            (t'.status = .completed ∨ completed = false ∧ t'.status = .cancelled)) := by
    intro error observed hkind hduties happly
    simp only [BackgroundTask.markFailedInner] at happly
    split at happly
    · cases happly
    · next hopen =>
        by_cases hfailed : t.status = .failed
        · refine Or.inr ⟨by simp [hfailed], fun _ => hfailed, ?_⟩
          rw [hduties, if_pos hfailed]
          intro duty hmem
          cases hmem
        · refine Or.inl ⟨hkind, hfailed, fun hdone => hopen (Or.inr hdone), ?_⟩
          rw [hduties, if_neg hfailed]
  have hquiet : c.isFailure = false → c.duties id t t' = [] → (t'.status = .failed → t.status = .failed) →
      (c.isFailure && decide (t.status ≠ .failed)) = false ∧
        (t'.status = .failed → t.status = .failed) ∧
        ∀ duty ∈ c.duties id t t', ∃ completed, duty = .drop id completed ∧
          (t'.status = .completed ∨ completed = false ∧ t'.status = .cancelled) := by
    intro hkind hduties hstatus
    refine ⟨by rw [hkind]; rfl, hstatus, ?_⟩
    rw [hduties]
    intro duty hmem
    cases hmem
  cases c with
  | markFailed error => exact hfailure rfl rfl hc
  | markFailedObserved error => exact hfailure rfl rfl hc
  | markCompleted files =>
      have hdone : t'.status = .completed := by
        simp only [TaskCall.apply, BackgroundTask.markCompleted] at hc
        split at hc
        · cases hc
        · obtain rfl := Option.some.inj hc
          rfl
      refine Or.inr ⟨rfl, ?_, ?_⟩
      · intro hfailed
        rw [hdone] at hfailed
        cases hfailed
      · intro duty hmem
        exact ⟨true, List.mem_singleton.mp hmem, Or.inl hdone⟩
  | cancel =>
      obtain ⟨-, rfl⟩ := unless_terminal hc
      refine Or.inr ⟨rfl, ?_, ?_⟩
      · intro hfailed
        cases hfailed
      · intro duty hmem
        exact ⟨false, List.mem_singleton.mp hmem, Or.inr ⟨rfl, rfl⟩⟩
  | markRunning | markParked =>
      obtain ⟨-, rfl⟩ := unless_terminal hc
      exact Or.inr (hquiet rfl rfl (fun hfailed => by cases hfailed))
  | markRuntimeState =>
      obtain ⟨-, rfl⟩ := unless_terminal hc
      exact Or.inr (hquiet rfl rfl (fun hfailed => hfailed))
  | setM13bProjection source role summary count policy =>
      simp only [TaskCall.apply, BackgroundTask.setM13bProjection] at hc
      split at hc
      · obtain rfl := Option.some.inj hc
        exact Or.inr (hquiet rfl rfl (fun hfailed => hfailed))
      · cases hc
  | setWorkspaceRoot root =>
      simp only [TaskCall.apply, BackgroundTask.setWorkspaceRoot] at hc
      split at hc
      · cases hc
      · split at hc
        · cases hc
        · obtain rfl := Option.some.inj hc
          exact Or.inr (hquiet rfl rfl (fun hfailed => hfailed))
  | recordFinalOutput | setToolInput | setProjectionMetadata | markChildSessionOutcome =>
      obtain rfl := Option.some.inj hc
      exact Or.inr (hquiet rfl rfl (fun hfailed => hfailed))

/-- `Completed` and `Cancelled` stay. -/
theorem ended_kept {c : TaskCall} {now : Nat} {t t' : BackgroundTask} {completed : Bool} (hs : t.Sound)
    (h : t.status = .completed ∨ completed = false ∧ t.status = .cancelled)
    (hc : c.apply now t = some t') :
    t'.status = .completed ∨ completed = false ∧ t'.status = .cancelled := by
  have hfinal : t.Final := by
    rcases h with h | ⟨-, h⟩
    · exact BackgroundTask.Settled.final (Or.inl h) hs
    · exact BackgroundTask.Settled.final (Or.inr (Or.inl h)) hs
  rw [((TaskCall.moves hc).final hfinal).1]
  exact h

/-- A task that has failed is failed or completed ever after. -/
theorem failed_kept {c : TaskCall} {now : Nat} {t t' : BackgroundTask} (hs : t.Sound)
    (h : t.status = .failed ∨ t.status = .completed) (hc : c.apply now t = some t') :
    t'.status = .failed ∨ t'.status = .completed := by
  rcases h with h | h
  · rcases (TaskCall.moves hc).provisional h with hfailed | ⟨-, hdone, -⟩
    · exact Or.inl hfailed
    · exact Or.inr hdone
  · have hfinal : t.Final := BackgroundTask.Settled.final (Or.inl h) hs
    exact Or.inr (((TaskCall.moves hc).final hfinal).1.trans h)

/-- What a changed task keeps. -/
theorem insert_lookup {tasks : Tasks} {c : TaskCall} {now : Nat} {t t' : BackgroundTask}
    {P : BackgroundTask → Prop} (ht : tasks[id]? = some t) (hc : c.apply now t = some t')
    (hkeep : ∀ u u' : BackgroundTask, tasks[id]? = some u → P u → c.apply now u = some u' → P u')
    {j : String} (h : ∃ u, tasks[j]? = some u ∧ P u) : ∃ u, (tasks.insert id t')[j]? = some u ∧ P u := by
  obtain ⟨u, hu, hP⟩ := h
  rw [Table.get_insert]
  split
  · next hj =>
      subst hj
      obtain rfl := Option.some.inj (ht.symm.trans hu)
      exact ⟨t', rfl, hkeep t t' ht hP hc⟩
  · exact ⟨u, hu, hP⟩

section Changed

variable {c : TaskCall} {now : Nat} {t t' : BackgroundTask}

theorem changed_sound (h : s.Inv) (ht : s.tasks[id]? = some t) (hc : c.apply now t = some t')
    (j : String) (u : BackgroundTask) (hu : (s.tasks.insert id t')[j]? = some u) :
    u.Sound ∧ u.id = j := by
  obtain ⟨hs, htid⟩ := h.sound id t ht
  rcases Table.of_get_insert hu with ⟨rfl, rfl⟩ | ⟨-, hu⟩
  · exact ⟨(TaskCall.moves hc).sound hs, (TaskCall.identity hc).id.trans htid⟩
  · exact h.sound j u hu

theorem changed_failed (h : s.Inv) (ht : s.tasks[id]? = some t) (hc : c.apply now t = some t')
    {j : String} (hj : j ∈ s.failures) : ∃ u, (s.tasks.insert id t')[j]? = some u ∧
      (u.status = .failed ∨ u.status = .completed) :=
  insert_lookup ht hc (fun u _ hu hP hcu => failed_kept (h.sound id u hu).1 hP hcu) (h.failed j hj)

theorem changed_ended (h : s.Inv) (ht : s.tasks[id]? = some t) (hc : c.apply now t = some t')
    {j : String} {completed : Bool} (hj : .drop j completed ∈ s.todo) :
    ∃ u, (s.tasks.insert id t')[j]? = some u ∧
      (u.status = .completed ∨ completed = false ∧ u.status = .cancelled) :=
  insert_lookup ht hc (fun u _ hu hP hcu => ended_kept (h.sound id u hu).1 hP hcu)
    (h.ended j completed hj)

theorem changed_tool (ht : s.tasks[id]? = some t) (hc : c.apply now t = some t') {j tool : String}
    (hj : ∃ u, s.tasks[j]? = some u ∧ u.toolCallId = tool) :
    ∃ u, (s.tasks.insert id t')[j]? = some u ∧ u.toolCallId = tool :=
  insert_lookup ht hc (fun _ _ _ hP hcu => (TaskCall.identity hcu).toolCallId.trans hP) hj

/-- A first failure: the id is new among the failures, and its notification is due. -/
theorem first_failure_inv (h : s.Inv) (ht : s.tasks[id]? = some t) (hc : c.apply now t = some t')
    (hfirst : t.status ≠ .failed) (hnotDone : t.status ≠ .completed) (hstatus : t'.status = .failed) :
    ({ s with
      tasks := s.tasks.insert id t'
      todo := s.todo ++ [.notify t']
      failures := s.failures ++ [id] } : SignalState).Inv := by
  have htid := (h.sound id t ht).2
  have hsame := TaskCall.identity hc
  have hnew : id ∉ s.failures := by
    intro hmem
    obtain ⟨u, hu, hbefore⟩ := h.failed id hmem
    obtain rfl := Option.some.inj (ht.symm.trans hu)
    exact hbefore.elim hfirst hnotDone
  have hzero : s.failures.count id = 0 := List.count_eq_zero.mpr hnew
  have hnotify : ∀ j, (s.todo ++ [SignalDuty.notify t']).countP (SignalDuty.notifies j) =
      s.todo.countP (SignalDuty.notifies j) +
        if id = j ∧ t.toolCallId.isEmpty = false then 1 else 0 := by
    intro j
    simp [List.countP_append, List.countP_singleton, SignalDuty.notifies, hsame.id, htid,
      hsame.toolCallId]
  have hdispatch : ∀ j, (s.todo ++ [SignalDuty.notify t']).countP (SignalDuty.dispatches j) =
      s.todo.countP (SignalDuty.dispatches j) := by
    intro j
    simp [List.countP_append, SignalDuty.dispatches]
  have hcount : ∀ j, (s.failures ++ [id]).count j =
      s.failures.count j + if id = j then 1 else 0 := by
    intro j
    simp [List.count_append, List.count_singleton]
  refine ⟨changed_sound h ht hc, ?_, ?_, ?_, ?_, ?_, ?_, ?_, ?_, h.lockstep⟩
  · refine List.nodup_append.mpr ⟨h.nodup, List.nodup_singleton id, ?_⟩
    rintro x hx y hy rfl
    obtain rfl := List.mem_singleton.mp hy
    exact hnew hx
  · intro j hj
    rcases List.mem_append.mp hj with hj | hj
    · exact changed_failed h ht hc hj
    · obtain rfl := List.mem_singleton.mp hj
      exact ⟨t', Table.get_insert_self _ _ _, Or.inl hstatus⟩
  · intro j
    have hone := h.once j
    simp only [SignalState.waiting, hnotify, hdispatch, hcount] at hone ⊢
    have hle : (if id = j ∧ t.toolCallId.isEmpty = false then 1 else 0) ≤ if id = j then 1 else 0 := by
      split
      · next hboth => rw [if_pos hboth.1]
      · exact Nat.zero_le _
    omega
  · intro j
    simpa [List.countP_append, SignalDuty.fires] using h.fires j
  · intro j u hu hfailed htool
    simp only [SignalState.waiting, hnotify, hdispatch]
    rcases Table.of_get_insert hu with ⟨rfl, rfl⟩ | ⟨hne, hu⟩
    · rw [hsame.toolCallId] at htool
      simp only [htool, and_self, if_true]
      omega
    · have hone := h.due j u hu hfailed htool
      simp only [SignalState.waiting] at hone
      simp only [hne, false_and, if_false]
      omega
  · intro j completed hmem
    rcases List.mem_append.mp hmem with hmem | hmem
    · exact changed_ended h ht hc hmem
    · cases List.mem_singleton.mp hmem
  · intro task hmem
    rcases List.mem_append.mp hmem with hmem | hmem
    · exact changed_tool ht hc (h.notified task hmem)
    · cases List.mem_singleton.mp hmem
      rw [hsame.id, htid]
      exact ⟨t', Table.get_insert_self _ _ _, rfl⟩
  · intro j p hp
    obtain ⟨hid, hack, hlook⟩ := h.stashed j p hp
    exact ⟨hid, hack, changed_tool ht hc hlook⟩

/-- Any other call, with drops at most. -/
theorem other_call_inv (h : s.Inv) (ht : s.tasks[id]? = some t) (hc : c.apply now t = some t')
    (hback : t'.status = .failed → t.status = .failed) {duties : List SignalDuty}
    (hduties : ∀ duty ∈ duties, ∃ completed, duty = .drop id completed ∧
      (t'.status = .completed ∨ completed = false ∧ t'.status = .cancelled)) :
    ({ s with tasks := s.tasks.insert id t', todo := s.todo ++ duties } : SignalState).Inv := by
  have hsame := TaskCall.identity hc
  have hzero : ∀ (P : SignalDuty → Bool), (∀ completed, P (.drop id completed) = false) →
      (s.todo ++ duties).countP P = s.todo.countP P := by
    intro P hP
    rw [List.countP_append, Nat.add_eq_left, List.countP_eq_zero]
    intro duty hmem
    obtain ⟨completed, rfl, -⟩ := hduties duty hmem
    rw [hP completed]
    exact Bool.false_ne_true
  have hwaiting : ∀ j, ({ s with tasks := s.tasks.insert id t', todo := s.todo ++ duties } :
      SignalState).waiting j = s.waiting j := by
    intro j
    simp only [SignalState.waiting]
    rw [hzero (SignalDuty.notifies j) (fun _ => rfl), hzero (SignalDuty.dispatches j) (fun _ => rfl)]
  refine ⟨changed_sound h ht hc, h.nodup, fun j hj => changed_failed h ht hc hj, ?_, ?_, ?_, ?_, ?_, ?_,
    h.lockstep⟩
  · intro j
    rw [hwaiting]
    exact h.once j
  · intro j
    rw [hzero (SignalDuty.fires j) (fun _ => rfl)]
    exact h.fires j
  · intro j u hu hfailed htool
    rw [hwaiting]
    rcases Table.of_get_insert hu with ⟨rfl, rfl⟩ | ⟨-, hu⟩
    · rw [hsame.toolCallId] at htool
      exact h.due id t ht (hback hfailed) htool
    · exact h.due j u hu hfailed htool
  · intro j completed hmem
    rcases List.mem_append.mp hmem with hmem | hmem
    · exact changed_ended h ht hc hmem
    · obtain ⟨b, hdrop, hstatus⟩ := hduties _ hmem
      cases hdrop
      exact ⟨t', Table.get_insert_self _ _ _, hstatus⟩
  · intro task hmem
    rcases List.mem_append.mp hmem with hmem | hmem
    · exact changed_tool ht hc (h.notified task hmem)
    · obtain ⟨b, hdrop, -⟩ := hduties _ hmem
      cases hdrop
  · intro j p hp
    obtain ⟨hid, hack, hlook⟩ := h.stashed j p hp
    exact ⟨hid, hack, changed_tool ht hc hlook⟩

theorem isFailure_status (hkind : c.isFailure = true) (hc : c.apply now t = some t') :
    t'.status = .failed := by
  cases c with
  | markFailed | markFailedObserved =>
      simp only [TaskCall.apply, BackgroundTask.markFailedInner] at hc
      split at hc
      · cases hc
      · obtain rfl := Option.some.inj hc
        rfl
  | _ => cases hkind

end Changed

/-- **A call.** -/
theorem call_inv (h : s.Inv) (id : String) (c : TaskCall) (now : Nat) : (s.call id c now).Inv := by
  unfold SignalState.call
  split
  · exact h
  · next t ht =>
      split
      · exact h
      · next t' hc =>
          rcases @duties_cases id c now t t' hc with
            ⟨hkind, hfirst, hnotDone, hduties⟩ | ⟨hkind, hback, hduties⟩
          · rw [hduties, hkind, decide_eq_true hfirst, Bool.true_and, if_pos rfl]
            exact first_failure_inv h ht hc hfirst hnotDone (isFailure_status hkind hc)
          · rw [hkind, if_neg Bool.false_ne_true]
            exact other_call_inv h ht hc hback hduties

/-- **An acknowledgement**: what was stashed for the tool call is dispatched. -/
theorem acknowledge_inv (h : s.Inv) (toolCallId : String) : (s.markSynthAckEmitted toolCallId).Inv := by
  unfold SignalState.markSynthAckEmitted
  split
  · exact h
  · have hkeys : ∀ j, j ∈ (s.guard.waitingFor toolCallId).map Prod.fst ↔
        ∃ p, s.guard.pending[j]? = some p ∧ p.toolCallId = toolCallId := by
      intro j
      constructor
      · intro hj
        obtain ⟨r, hr, rfl⟩ := List.mem_map.mp hj
        exact ⟨r.2, mem_waitingFor.mp hr⟩
      · rintro ⟨p, hp⟩
        exact List.mem_map.mpr ⟨(j, p), mem_waitingFor.mpr hp, rfl⟩
    -- each drained entry is dispatched once
    have hdispatch : ∀ j, ((s.guard.waitingFor toolCallId).map
        (fun r => SignalDuty.dispatch r.2.signal)).countP (SignalDuty.dispatches j) =
        if j ∈ (s.guard.waitingFor toolCallId).map Prod.fst then 1 else 0 := by
      intro j
      rw [← (waitingFor_nodup toolCallId).count, List.countP_map, List.count, List.countP_map]
      refine List.countP_congr ?_
      intro r hr
      have hid := (h.stashed r.1 r.2 (mem_waitingFor.mp hr).1).1
      simp [SignalDuty.dispatches, hid]
    have hnone : ∀ (P : SignalDuty → Bool), (∀ signal, P (.dispatch signal) = false) →
        ((s.guard.waitingFor toolCallId).map (fun r => SignalDuty.dispatch r.2.signal)).countP P = 0 := by
      intro P hP
      rw [List.countP_eq_zero]
      intro duty hmem
      obtain ⟨r, -, rfl⟩ := List.mem_map.mp hmem
      rw [hP]
      exact Bool.false_ne_true
    have hstash : ∀ j, stashCount (s.guard.acknowledge toolCallId).pending j +
        (if j ∈ (s.guard.waitingFor toolCallId).map Prod.fst then 1 else 0) =
        stashCount s.guard.pending j := by
      intro j
      unfold stashCount
      rw [acknowledge_get]
      split
      · next hj =>
          obtain ⟨p, hp, -⟩ := (hkeys j).mp hj
          simp [hp]
      · rfl
    have hwaiting : ∀ j, ({ s with
        guard := s.guard.acknowledge toolCallId
        todo := s.todo ++ (s.guard.waitingFor toolCallId).map
          (fun r => SignalDuty.dispatch r.2.signal) } : SignalState).waiting j = s.waiting j := by
      intro j
      have hsum := hstash j
      simp only [SignalState.waiting, List.countP_append, hdispatch,
        hnone (SignalDuty.notifies j) (fun _ => rfl)]
      omega
    refine ⟨h.sound, h.nodup, h.failed, ?_, ?_, ?_, ?_, ?_, ?_, acknowledge_lockstep h.lockstep _⟩
    · intro j
      rw [hwaiting]
      exact h.once j
    · intro j
      rw [List.countP_append, hnone (SignalDuty.fires j) (fun _ => rfl), Nat.add_zero]
      exact h.fires j
    · intro j t ht hfailed htool
      rw [hwaiting]
      exact h.due j t ht hfailed htool
    · intro j completed hmem
      rcases List.mem_append.mp hmem with hmem | hmem
      · exact h.ended j completed hmem
      · obtain ⟨r, -, hr⟩ := List.mem_map.mp hmem
        cases hr
    · intro task hmem
      rcases List.mem_append.mp hmem with hmem | hmem
      · exact h.notified task hmem
      · obtain ⟨r, -, hr⟩ := List.mem_map.mp hmem
        cases hr
    · intro j p hp
      rw [show (s.guard.acknowledge toolCallId).pending[j]? = _ from acknowledge_get _ _] at hp
      split at hp
      · cases hp
      · next hj =>
          obtain ⟨hid, hack, hlook⟩ := h.stashed j p hp
          refine ⟨hid, ?_, hlook⟩
          show p.toolCallId ∉ toolCallId :: s.guard.synthAckEmittedToolCallIds
          intro hmem
          rcases List.mem_cons.mp hmem with heq | hmem
          · exact hj ((hkeys j).mpr ⟨p, hp, heq⟩)
          · exact hack hmem

theorem register_inv (h : s.Inv) {r : Registration} {now : Nat} (hfresh : s.tasks[id]? = none) :
    ({ s with tasks := s.tasks.insert id (r.task id now none) } : SignalState).Inv := by
  have hlook : ∀ {P : BackgroundTask → Prop} {j : String}, (∃ u, s.tasks[j]? = some u ∧ P u) →
      ∃ u, (s.tasks.insert id (r.task id now none))[j]? = some u ∧ P u := by
    rintro P j ⟨u, hu, hP⟩
    have hne : id ≠ j := by
      rintro rfl
      rw [hfresh] at hu
      cases hu
    exact ⟨u, (Table.get_insert_ne _ _ hne).trans hu, hP⟩
  refine ⟨?_, h.nodup, fun j hj => hlook (h.failed j hj), h.once, h.fires, ?_,
    fun j completed hj => hlook (h.ended j completed hj), fun task hj => hlook (h.notified task hj), ?_,
    h.lockstep⟩
  · intro j u hu
    rcases Table.of_get_insert hu with ⟨rfl, rfl⟩ | ⟨-, hu⟩
    · exact ⟨sound_persistent.registered r id now none, rfl⟩
    · exact h.sound j u hu
  · intro j u hu hfailed htool
    rcases Table.of_get_insert hu with ⟨rfl, rfl⟩ | ⟨-, hu⟩
    · cases hfailed
    · exact h.due j u hu hfailed htool
  · intro j p hp
    obtain ⟨hid, hack, htask⟩ := h.stashed j p hp
    exact ⟨hid, hack, hlook htask⟩

theorem step_signals (h : s.Inv) (hroom : s.Roomy) {op : SignalOp} (hfresh : op.Fresh s) :
    (s.step op).Inv := by
  cases op with
  | register r id now => exact register_inv h (Option.isNone_iff_eq_none.mp hfresh.1)
  | call id c now => exact call_inv h id c now
  | acknowledge toolCallId => exact acknowledge_inv h toolCallId
  | act n =>
      simp only [SignalState.step]
      split
      · exact h
      · next duty hduty =>
          refine perform_inv ?_ hroom
          obtain ⟨hn, rfl⟩ := List.getElem?_eq_some_iff.mp hduty
          exact h.perm (List.getElem_cons_eraseIdx_perm hn).symm

theorem new_signals : SignalState.new.Inv := by
  have htasks : ∀ j : String, (∅ : Tasks)[j]? = none := fun _ => Std.ExtTreeMap.getElem?_empty
  have hpending : ∀ j : String, (∅ : Table String PendingFailure)[j]? = none :=
    fun _ => Std.ExtTreeMap.getElem?_empty
  refine ⟨?_, List.nodup_nil, ?_, ?_, fun _ => rfl, ?_, ?_, ?_, ?_, List.nodup_nil, ?_⟩
  · intro j t ht
    cases (htasks j).symm.trans ht
  · intro j hj
    cases hj
  · intro j
    simp [SignalState.waiting, SignalState.new, stashCount]
  · intro j t ht
    cases (htasks j).symm.trans ht
  · intro j completed hmem
    cases hmem
  · intro task hmem
    cases hmem
  · intro j p hp
    cases (hpending j).symm.trans hp
  · intro j
    simp [SignalState.new]

/-- The invariant holds in every state of a run with room. -/
theorem run_signals {ops : List SignalOp} (h : s.Inv) (hsteps : RoomySteps s ops) : (s.run ops).Inv := by
  induction ops generalizing s with
  | nil => exact h
  | cons op ops ih => exact ih (step_signals h hsteps.1 hsteps.2.1) hsteps.2.2

end Invariant

/-! ## After a completion -/

section Silent

variable {s : SignalState} {id : String} {op : SignalOp}

/-- No signal of the task is under way, and none will be. -/
structure SignalState.Silent (s : SignalState) (id : String) : Prop where
  idle : ∀ duty ∈ s.todo, duty.about id = false
  unstashed : s.guard.pending[id]? = none
  completed : ∃ t, s.tasks[id]? = some t ∧ t.status = .completed

theorem evictPending_none {pending : Table String PendingFailure} (h : pending[id]? = none) :
    ∀ order, (evictPending order pending).2[id]? = none := by
  intro order
  induction order with
  | nil => exact h
  | cons stale rest ih =>
      rw [evictPending]
      split
      · rw [Table.get_erase, h, ite_self]
      · exact ih

theorem insertPending_none {g : AckAndPending} {k : String} (h : g.pending[id]? = none) (hne : k ≠ id)
    (value : PendingFailure) : (g.insertPending k value).pending[id]? = none := by
  simp only [AckAndPending.insertPending]
  split
  · exact (Table.get_insert_ne _ _ hne).trans h
  · split
    · exact (Table.get_insert_ne _ _ hne).trans (evictPending_none h _)
    · exact (Table.get_insert_ne _ _ hne).trans h

/-- Marking and firing the signal of another task. -/
theorem emit_silent (h : s.Silent id) {signal : SpawnOnlyFailureSignal} (hne : signal.taskId ≠ id)
    (taskId : String) : (s.emit taskId signal).Silent id := by
  unfold SignalState.emit
  split
  · exact h
  · next guard hguard =>
      refine ⟨?_, ?_, h.completed⟩
      · intro duty hmem
        rcases List.mem_append.mp hmem with hmem | hmem
        · exact h.idle duty hmem
        · obtain rfl := List.mem_singleton.mp hmem
          simp [SignalDuty.about, hne]
      · simp only [AckAndPending.markEmitted] at hguard
        split at hguard
        · cases hguard
        · obtain rfl := Option.some.inj hguard
          exact h.unstashed

theorem perform_silent {duty : SignalDuty} (h : s.Silent id) (hduty : duty.about id = false) :
    (s.perform duty).Silent id := by
  cases duty with
  | notify task =>
      simp only [SignalState.perform, SignalState.notifyFailure]
      split
      · exact h
      · next hid =>
          have hne : task.id ≠ id := by
            intro heq
            simp [SignalDuty.about, heq, hid] at hduty
          split
          · exact h
          · split
            · exact emit_silent h hne task.id
            · exact ⟨h.idle, insertPending_none h.unstashed hne _, h.completed⟩
  | drop k completed =>
      refine ⟨h.idle, ?_, h.completed⟩
      show (if k.isEmpty then s.guard else s.guard.removePending k).pending[id]? = none
      split
      · exact h.unstashed
      · rw [removePending_get, h.unstashed, ite_self]
  | dispatch signal => exact emit_silent h (of_decide_eq_false hduty) signal.taskId
  | fire signal => exact ⟨h.idle, h.unstashed, h.completed⟩

theorem step_silent (hinv : s.Inv) (h : s.Silent id) (hfresh : op.Fresh s) : (s.step op).Silent id := by
  cases op with
  | register r k now =>
      obtain ⟨t, ht, hdone⟩ := h.completed
      have hne : k ≠ id := by
        rintro rfl
        rw [Option.isNone_iff_eq_none.mp hfresh.1] at ht
        cases ht
      exact ⟨h.idle, h.unstashed, t, (Table.get_insert_ne _ _ hne).trans ht, hdone⟩
  | call k c now =>
      show (s.call k c now).Silent id
      unfold SignalState.call
      split
      · exact h
      · next t ht =>
          split
          · exact h
          · next t' hc =>
              have hcompleted := insert_lookup ht hc (fun u u' hu hP hcu => (by
                have hfinal := BackgroundTask.Settled.final (Or.inl hP) (hinv.sound k u hu).1
                exact ((TaskCall.moves hcu).final hfinal).1.trans hP)) h.completed
              refine ⟨?_, h.unstashed, hcompleted⟩
              intro duty hmem
              rcases List.mem_append.mp hmem with hmem | hmem
              · exact h.idle duty hmem
              · rcases @duties_cases k c now t t' hc with ⟨-, -, hnotDone, hduties⟩ | ⟨-, -, hduties⟩
                · rw [hduties] at hmem
                  obtain rfl := List.mem_singleton.mp hmem
                  -- the task that has failed is not the completed one
                  have hne : t'.id ≠ id := by
                    rw [(TaskCall.identity hc).id, (hinv.sound k t ht).2]
                    rintro rfl
                    obtain ⟨u, hu, hdone⟩ := h.completed
                    obtain rfl := Option.some.inj (ht.symm.trans hu)
                    exact hnotDone hdone
                  simp [SignalDuty.about, hne]
                · obtain ⟨completed, rfl, -⟩ := hduties duty hmem
                  rfl
  | acknowledge toolCallId =>
      show (s.markSynthAckEmitted toolCallId).Silent id
      unfold SignalState.markSynthAckEmitted
      split
      · exact h
      · refine ⟨?_, ?_, h.completed⟩
        · intro duty hmem
          rcases List.mem_append.mp hmem with hmem | hmem
          · exact h.idle duty hmem
          · obtain ⟨r, hr, rfl⟩ := List.mem_map.mp hmem
            have hget := (mem_waitingFor.mp hr).1
            have hne : r.2.signal.taskId ≠ id := by
              rw [(hinv.stashed r.1 r.2 hget).1]
              intro heq
              rw [heq, h.unstashed] at hget
              cases hget
            simp [SignalDuty.about, hne]
        · show (s.guard.acknowledge toolCallId).pending[id]? = none
          rw [acknowledge_get, h.unstashed, ite_self]
  | act n =>
      simp only [SignalState.step]
      split
      · exact h
      · next duty hduty =>
          refine perform_silent ?_ (h.idle duty (List.mem_of_getElem? hduty))
          exact ⟨fun x hx => h.idle x (List.mem_of_mem_eraseIdx hx), h.unstashed, h.completed⟩

/-- Marking a signal changes neither the tasks nor the record of calls. -/
theorem emit_frame (s : SignalState) (k : String) (signal : SpawnOnlyFailureSignal) :
    (s.emit k signal).tasks = s.tasks ∧ (s.emit k signal).fired = s.fired ∧
      (s.emit k signal).returned = s.returned := by
  unfold SignalState.emit
  split <;> exact ⟨rfl, rfl, rfl⟩

theorem notifyFailure_frame (s : SignalState) (task : BackgroundTask) :
    (s.notifyFailure task).tasks = s.tasks ∧ (s.notifyFailure task).fired = s.fired ∧
      (s.notifyFailure task).returned = s.returned := by
  unfold SignalState.notifyFailure
  split
  · exact ⟨rfl, rfl, rfl⟩
  · split
    · exact ⟨rfl, rfl, rfl⟩
    · split
      · exact emit_frame s _ _
      · exact ⟨rfl, rfl, rfl⟩

/-- Every task has a name, and completed tasks are silent once the completion has
returned. -/
structure SignalState.Quiet (s : SignalState) : Prop where
  named : ∀ (j : String) t, s.tasks[j]? = some t → j.isEmpty = false
  silent : ∀ id ∈ s.returned, s.Silent id

theorem step_named (h : ∀ (j : String) t, s.tasks[j]? = some t → j.isEmpty = false) (hfresh : op.Fresh s) :
    ∀ (j : String) t, (s.step op).tasks[j]? = some t → j.isEmpty = false := by
  intro j t ht
  cases op with
  | register r k now =>
      rcases Table.of_get_insert ht with ⟨rfl, -⟩ | ⟨-, ht⟩
      · exact hfresh.2
      · exact h j t ht
  | call k c now =>
      simp only [SignalState.step, SignalState.call] at ht
      split at ht
      · exact h j t ht
      · next u hu =>
          split at ht
          · exact h j t ht
          · rcases Table.of_get_insert ht with ⟨rfl, -⟩ | ⟨-, ht⟩
            · exact h k u hu
            · exact h j t ht
  | acknowledge toolCallId =>
      simp only [SignalState.step, SignalState.markSynthAckEmitted] at ht
      split at ht <;> exact h j t ht
  | act n =>
      have hperform : ∀ (s : SignalState) (duty : SignalDuty), (s.perform duty).tasks = s.tasks := by
        intro s duty
        cases duty with
        | notify task => exact (notifyFailure_frame s task).1
        | drop k completed => rfl
        | dispatch signal => exact (emit_frame s _ _).1
        | fire signal => rfl
      simp only [SignalState.step] at ht
      split at ht
      · exact h j t ht
      · rw [hperform] at ht
        exact h j t ht

/-- Who has returned after a step: those who had, and the completion that just ended. -/
theorem mem_returned (h : id ∈ (s.step op).returned) : id ∈ s.returned ∨
    ∃ n, op = .act n ∧ s.todo[n]? = some (.drop id true) := by
  cases op with
  | register r k now => exact Or.inl h
  | call k c now =>
      simp only [SignalState.step, SignalState.call] at h
      split at h
      · exact Or.inl h
      · split at h <;> exact Or.inl h
  | acknowledge toolCallId =>
      simp only [SignalState.step, SignalState.markSynthAckEmitted] at h
      split at h <;> exact Or.inl h
  | act n =>
      simp only [SignalState.step] at h
      split at h
      · exact Or.inl h
      · next duty hduty =>
          cases duty with
          | notify task =>
              rw [SignalState.perform, (notifyFailure_frame _ task).2.2] at h
              exact Or.inl h
          | drop k completed =>
              cases completed with
              | false => exact Or.inl h
              | true =>
                  rcases List.mem_append.mp h with h | h
                  · exact Or.inl h
                  · obtain rfl := List.mem_singleton.mp h
                    exact Or.inr ⟨n, rfl, hduty⟩
          | dispatch signal =>
              rw [SignalState.perform, (emit_frame _ _ _).2.2] at h
              exact Or.inl h
          | fire signal => exact Or.inl h

theorem step_quiet (hinv : s.Inv) (h : s.Quiet) (hfresh : op.Fresh s) (hcalm : op.Calm s) :
    (s.step op).Quiet := by
  refine ⟨step_named h.named hfresh, ?_⟩
  intro id hmem
  rcases mem_returned hmem with hmem | ⟨n, rfl, hduty⟩
  · exact step_silent hinv (h.silent id hmem) hfresh
  · -- the completion that ends here left nothing under way
    have hin := List.mem_of_getElem? hduty
    have hcalmAt : s.calmAt n = true := hcalm
    simp only [SignalState.calmAt, hduty, List.all_eq_true, Bool.not_eq_true'] at hcalmAt
    obtain ⟨t, ht, hstatus⟩ := hinv.ended id true hin
    have hdone : t.status = .completed := by
      rcases hstatus with hdone | ⟨hfalse, -⟩
      · exact hdone
      · cases hfalse
    have hstep : s.step (.act n) = ({ s with todo := s.todo.eraseIdx n } : SignalState).dropPending id true := by
      simp only [SignalState.step, hduty, SignalState.perform]
    rw [hstep]
    refine ⟨fun duty hd => hcalmAt duty (List.mem_of_mem_eraseIdx hd), ?_, t, ht, hdone⟩
    show (if id.isEmpty then s.guard else s.guard.removePending id).pending[id]? = none
    rw [h.named id t ht, if_neg Bool.false_ne_true, removePending_get, if_pos rfl]

theorem run_quiet {ops : List SignalOp} (hinv : s.Inv) (h : s.Quiet) (hsteps : RoomySteps s ops)
    (hcalm : s.CalmSteps ops) : (s.run ops).Quiet := by
  induction ops generalizing s with
  | nil => exact h
  | cons op ops ih =>
      exact ih (step_signals hinv hsteps.1 hsteps.2.1) (step_quiet hinv h hsteps.2.1 hcalm.1)
        hsteps.2.2 hcalm.2

/-- Only a duty to fire fires. -/
theorem step_fired (op : SignalOp) : (s.step op).fired = s.fired ∨
    ∃ (n : Nat) (signal : SpawnOnlyFailureSignal), s.todo[n]? = some (.fire signal) ∧
      (s.step op).fired = s.fired ++ [signal] := by
  cases op with
  | register r k now => exact Or.inl rfl
  | call k c now =>
      simp only [SignalState.step, SignalState.call]
      split
      · exact Or.inl rfl
      · split <;> exact Or.inl rfl
  | acknowledge toolCallId =>
      simp only [SignalState.step, SignalState.markSynthAckEmitted]
      split <;> exact Or.inl rfl
  | act n =>
      simp only [SignalState.step]
      split
      · exact Or.inl rfl
      · next duty hduty =>
          cases duty with
          | notify task => exact Or.inl (notifyFailure_frame _ task).2.1
          | drop k completed => exact Or.inl rfl
          | dispatch signal => exact Or.inl (emit_frame _ _ _).2.1
          | fire signal => exact Or.inr ⟨n, signal, hduty, rfl⟩

/-- **Failure signals are sent when due.**  In every state of a run with room in which
no completion ends too early: no signal has been fired twice; when no call is in
progress, every task that has failed, was not completed, and whose tool call has been
acknowledged has had its signal fired; once a completion has returned, no step fires a
signal of its task; and the stash and its queue hold the same ids. -/
theorem signals_due {ops : List SignalOp} (hsteps : RoomySteps .new ops)
    (hcalm : SignalState.new.CalmSteps ops) :
    ((SignalState.new.run ops).fired.map SpawnOnlyFailureSignal.taskId).Nodup ∧
    ((SignalState.new.run ops).todo = [] → ∀ id ∈ (SignalState.new.run ops).failures, ∀ t,
      (SignalState.new.run ops).tasks[id]? = some t → t.status ≠ .completed →
      t.toolCallId.isEmpty = false →
      t.toolCallId ∈ (SignalState.new.run ops).guard.synthAckEmittedToolCallIds →
      ∃ signal ∈ (SignalState.new.run ops).fired, signal.taskId = id) ∧
    (∀ id ∈ (SignalState.new.run ops).returned, ∀ op,
      ((SignalState.new.run ops).step op).fired.filter (fun signal => decide (signal.taskId = id)) =
        (SignalState.new.run ops).fired.filter (fun signal => decide (signal.taskId = id))) ∧
    (SignalState.new.run ops).guard.Lockstep := by
  have hinv := run_signals new_signals hsteps
  have hnew : SignalState.new.Quiet := by
    refine ⟨?_, fun id hid => by cases hid⟩
    intro j t ht
    have hnone : (∅ : Tasks)[j]? = none := Std.ExtTreeMap.getElem?_empty
    cases hnone.symm.trans ht
  have hquiet := run_quiet new_signals hnew hsteps hcalm
  refine ⟨?_, ?_, ?_, hinv.lockstep⟩
  · refine List.nodup_iff_count_le_one.mpr ?_
    intro id
    have hfires := hinv.fires id
    have honce := hinv.once id
    have hle := hinv.count_le id
    omega
  · intro hidle id hid t ht hnot htool hack
    have hfailed : t.status = .failed := by
      obtain ⟨u, hu, hstatus⟩ := hinv.failed id hid
      obtain rfl := Option.some.inj (ht.symm.trans hu)
      exact hstatus.resolve_right hnot
    have hdue := hinv.due id t ht hfailed htool
    have hfires := hinv.fires id
    -- a stashed signal waits for an acknowledgement that has not come
    have hstash : stashCount (SignalState.new.run ops).guard.pending id = 0 := by
      unfold stashCount
      cases hget : (SignalState.new.run ops).guard.pending[id]? with
      | none => rfl
      | some p =>
          obtain ⟨-, hnoAck, u, hu, hsame⟩ := hinv.stashed id p hget
          obtain rfl := Option.some.inj (ht.symm.trans hu)
          rw [← hsame] at hnoAck
          exact absurd hack hnoAck
    simp only [SignalState.waiting, hidle, List.countP_nil, hstash] at hdue hfires
    have hmem : id ∈ (SignalState.new.run ops).fired.map SpawnOnlyFailureSignal.taskId := by
      refine List.count_pos_iff.mp ?_
      omega
    exact List.mem_map.mp hmem
  · intro id hid op
    rcases @step_fired (SignalState.new.run ops) op with hsame | ⟨n, signal, hduty, hfired⟩
    · rw [hsame]
    · have hother := (hquiet.silent id hid).idle _ (List.mem_of_getElem? hduty)
      have hne : signal.taskId ≠ id := of_decide_eq_false hother
      rw [hfired, List.filter_append]
      simp [hne]

/-- A task fails before its tool call is acknowledged. -/
def stashedRun : List SignalOp :=
  [.register sampleRegistration "t" 1, .call "t" (.markFailed "lost") 2, .act 0,
    .acknowledge "call-1", .act 0, .act 0]

theorem signals_due_stashed : ∃ signal ∈ (SignalState.new.run stashedRun).fired, signal.taskId = "t" := by
  have hdue := (signals_due (by decide : RoomySteps .new stashedRun) (by decide)).2.1
  have hstatus : ((SignalState.new.run stashedRun).tasks["t"]?).map
      (fun t => (t.status, t.toolCallId)) = some (.failed, "call-1") := by
    rfl
  obtain ⟨t, ht, hpair⟩ := Option.map_eq_some_iff.mp hstatus
  obtain ⟨hfailed, htool⟩ := Prod.mk.inj hpair
  have hidle : (SignalState.new.run stashedRun).todo = [] :=
    List.length_eq_zero_iff.mp (by rfl)
  refine hdue hidle "t" (by decide) t ht ?_ ?_ ?_
  · rw [hfailed]
    decide
  · rw [htool]
    decide
  · rw [htool]
    decide

/-- An observer fails the task; before the notification the owner completes it. -/
def overtakenRun : List SignalOp :=
  [.register sampleRegistration "t" 1, .acknowledge "call-1",
    .call "t" (.markFailedObserved "fatal") 2, .call "t" (.markCompleted ["report.md"]) 3, .act 1, .act 0]

/-- The completion has returned, and then the signal is fired. -/
theorem signal_after_completion : RoomySteps .new overtakenRun ∧
    "t" ∈ (SignalState.new.run overtakenRun).returned ∧
    (SignalState.new.run overtakenRun).fired = [] ∧
    (((SignalState.new.run overtakenRun).step (.act 0)).fired.map SpawnOnlyFailureSignal.taskId) =
      ["t"] :=
  ⟨by decide, by decide, List.length_eq_zero_iff.mp (by decide),
    by rfl⟩

end Silent

end Octos.Agent
