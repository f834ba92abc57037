/-
# `Octos.Fleet.Store` — the tables of the kernel store and its log operations

`FleetKernelStore` is one embedded database with six tables.  Every operation
is one write transaction: it reads, checks its predicate and either commits all
of its writes or none.  An operation is therefore a function

    Store → Except StoreError (outcome × Store)

An `error` is an aborted transaction and carries no store.  A rejection is an
ordinary outcome returned with the store unchanged.  What the storage layer
itself may fail with (I/O, a cancelled task) writes nothing and is not
modelled.

This module has the tables, the typed outcomes, the reads shared by several
operations, and the two append-only logs: the decision log and the outbox with
its claim/ack protocol.  Identifiers minted with `Uuid::new_v4` are arguments.
-/
import Octos.Fleet.Keys
import Octos.Lib.Result

namespace Octos.Fleet

/-! ## Errors and outcomes -/

/-- The typed reasons a transaction aborts with; each constructor carries what
the source's message interpolates. -/
inductive StoreError
  /-- `invalid key component {c:?}: must be non-empty and free of control/NUL characters` -/
  | invalidKeyComponent (component : String)
  /-- `fleet {fleet_id} already exists` -/
  | fleetExists (fleetId : String)
  /-- `cannot create plan for unknown fleet …` / `cannot add child to unknown fleet …` -/
  | unknownFleet (fleetId : String)
  /-- `fleet {fleet_id} is a newer schema` -/
  | fleetNewerSchema (fleetId : String)
  /-- `{op}: fleet identity mismatch` -/
  | fleetIdentityMismatch (fleetId : String)
  /-- `plan for fleet {fleet_id} already exists` -/
  | planExists (fleetId : String)
  /-- `duplicate child {child_id} in fleet {fleet_id}` -/
  | duplicateChild (fleetId childId : String)
  /-- `cannot add child to terminal fleet {fleet_id}` -/
  | terminalFleet (fleetId : String)
  /-- `child {child_id} already exists in fleet {fleet_id}` -/
  | childExists (fleetId childId : String)
  /-- `mark_ready: unknown child {child_id} in fleet {fleet_id}` -/
  | unknownChild (fleetId childId : String)
  /-- `child {child_id} is a newer schema` -/
  | childNewerSchema (childId : String)
  /-- `mark_ready: child identity mismatch` -/
  | childIdentityMismatch (childId : String)
  /-- `reservation overflow launching {child_id}` -/
  | reservationOverflow (childId : String)
  /-- `lease-expiry overflow launching {child_id}` -/
  | leaseExpiryOverflow (childId : String)
  /-- `attempts_used overflow for {child_id}` -/
  | attemptsUsedOverflow (childId : String)
  /-- `committed-token overflow completing/escalating {child_id}` -/
  | committedOverflow (childId : String)
  /-- `child committed-token overflow for {child_id}` -/
  | childCommittedOverflow (childId : String)
  /-- `reservation underflow completing/escalating/interrupting {child_id}` -/
  | reservationUnderflow (childId : String)
  /-- `{op}: no plan for fleet {fleet_id}` -/
  | noPlan (fleetId : String)
  /-- `{op}: plan for {fleet_id} is a newer schema` -/
  | planNewerSchema (fleetId : String)
  /-- `{op}: plan identity mismatch for {fleet_id}` -/
  | planIdentityMismatch (fleetId : String)
  /-- `replan: no fleet {fleet_id}` -/
  | noFleet (fleetId : String)
  /-- `generation overflow re-planning {fleet_id}` -/
  | generationOverflow (fleetId : String)
  /-- `revision overflow re-planning/retitling/granting/denying … {fleet_id}` -/
  | revisionOverflow (fleetId : String)
  /-- `{op}: task {task_id} not in fleet {fleet_id}'s plan` -/
  | taskNotInPlan (fleetId taskId : String)
  /-- `corrupt outbox key {k:?}` -/
  | corruptOutboxKey (key : String)
  /-- `outbox sequence overflow` -/
  | outboxSequenceOverflow
  /-- `claim-expiry overflow` -/
  | claimExpiryOverflow
  /-- `ack: outbox sequence {sequence} not found` -/
  | outboxNotFound (sequence : U64)
  /-- `outbox event {sequence} is a newer schema` -/
  | outboxNewerSchema (sequence : U64)
  /-- `decision sequence overflow for {fleet_id}` -/
  | decisionSequenceOverflow (fleetId : String)
  deriving DecidableEq, Repr

/-- Result of a launch CAS; the rejections are values, not errors. -/
inductive LaunchOutcome
  | launched (attemptId : String)
  | rejectedNotReady
  | rejectedDoubleLaunch
  | rejectedBudgetExceeded
  | rejectedFleetTerminal
  deriving DecidableEq, Repr

/-- Result of a complete CAS; `superseded` is a stale or late attempt. -/
inductive CompleteOutcome
  | completed | superseded
  deriving DecidableEq, Repr

structure DenyEscalationOutcome where
  settled : CompleteOutcome
  fleetUnCompletable : Bool
  deriving DecidableEq, Repr

inductive MarkRunningOutcome
  | running | superseded
  deriving DecidableEq, Repr

/-- Result of a revision-fenced plan operation. -/
inductive PlanMutateOutcome
  | mutated (revision : U64)
  | revisionMismatch (actual : U64)
  | rejectedFleetTerminal
  | rejectedTerminalDepChange (taskId : String)
  | rejectedNotBlocked (taskId : String)
  deriving DecidableEq, Repr

inductive AckOutcome
  | acked | staleClaim
  deriving DecidableEq, Repr

structure InterruptedAttempt where
  fleetId : String
  childId : String
  attemptId : String
  deriving DecidableEq, Repr

/-! ## The tables -/

/-- The four state tables. -/
structure Tables where
  fleets : Table String FleetRecord
  children : Table String FleetChildRecord
  attempts : Table String Attempt
  plans : Table String DurablePlan

/-- The whole database: the state tables and the two logs. -/
structure Store extends Tables where
  decisionLog : Table String DecisionEntry
  outbox : Table String OutboxEvent

/-- The store `open` creates: every table present and empty. -/
def Store.empty : Store := ⟨⟨∅, ∅, ∅, ∅⟩, ∅, ∅⟩

/-- `Option::ok_or_else`. -/
def okOr {α : Type} (o : Option α) (e : StoreError) : Except StoreError α :=
  match o with
  | some a => .ok a
  | none => .error e

/-- Reject the first unsafe key component. -/
def ensureKeySafe : List String → Except StoreError Unit
  | [] => .ok ()
  | c :: cs =>
      if keyComponentIsSafe c then ensureKeySafe cs else .error (.invalidKeyComponent c)

theorem okOr_ok {α : Type} {o : Option α} {e : StoreError} {a : α} :
    okOr o e = .ok a ↔ o = some a := by
  cases o <;> simp [okOr]

theorem okOr_error {α : Type} {o : Option α} {e e' : StoreError} :
    okOr o e = .error e' ↔ o = none ∧ e = e' := by
  cases o <;> simp [okOr]

theorem ensureKeySafe_ok {cs : List String} {u : Unit} :
    ensureKeySafe cs = .ok u ↔ ∀ c ∈ cs, keyComponentIsSafe c = true := by
  induction cs with
  | nil => simp [ensureKeySafe]
  | cons c cs ih =>
      by_cases hc : keyComponentIsSafe c = true
      · simp [ensureKeySafe, hc, ih]
      · simp [ensureKeySafe, hc]

/-- The entry check fails with the first unsafe component. -/
theorem ensureKeySafe_error {cs : List String} {e : StoreError} (h : ensureKeySafe cs = .error e) :
    ∃ c ∈ cs, keyComponentIsSafe c = false ∧ e = .invalidKeyComponent c := by
  induction cs with
  | nil => simp [ensureKeySafe] at h
  | cons c cs ih =>
      by_cases hc : keyComponentIsSafe c = true
      · rw [ensureKeySafe, if_pos hc] at h
        obtain ⟨d, hd, hs, he⟩ := ih h
        exact ⟨d, List.mem_cons_of_mem _ hd, hs, he⟩
      · rw [ensureKeySafe, if_neg hc] at h
        exact ⟨c, List.mem_cons_self, by simpa using hc, (Except.error.inj h).symm⟩

/-- The key components of a plan, in the order the entry check visits them. -/
def planKeys (fleetId : String) (tasks : List PlanTask) : List String :=
  fleetId :: tasks.flatMap (fun t => t.taskId :: t.deps)

/-- A decoded fleet row. -/
def Tables.fleet? (t : Tables) (fleetId : String) : Option FleetRecord :=
  t.fleets[fleetId]?.bind decodeRow

/-- A decoded child row. -/
def Tables.child? (t : Tables) (fleetId childId : String) : Option FleetChildRecord :=
  t.children[childKey fleetId childId]?.bind decodeRow

/-- A decoded attempt row. -/
def Tables.attempt? (t : Tables) (childId attemptId : String) : Option Attempt :=
  t.attempts[attemptKey childId attemptId]?.bind decodeRow

/-- A decoded plan row. -/
def Tables.plan? (t : Tables) (fleetId : String) : Option DurablePlan :=
  t.plans[fleetId]?.bind decodeRow

/-- The `fleet_live` read of the operations that treat a missing, newer or
mismatched fleet row as not live. -/
def Tables.fleetLive (t : Tables) (fleetId : String) : Bool :=
  match t.fleet? fleetId with
  | some fleet => fleet.fleetId == fleetId && fleetIsLive fleet
  | none => false

/-- The decoded rows of a table, in key order. -/
def decodedRows {α : Type} [Versioned α] (t : Table String α) : List (String × α) :=
  t.toList.filterMap (fun r => (decodeRow r.2).map (fun v => (r.1, v)))

/-- The children a whole-table scan keeps: decodable and stored under their own
key. -/
def ownedChildren (children : Table String FleetChildRecord) : List FleetChildRecord :=
  ((decodedRows children).filter
    (fun r => childKey r.2.fleetId r.2.childId == r.1)).map Prod.snd

/-! ## Outbox -/

/-- A fresh, unclaimed outbox event; `eventId` is the minted id. -/
def outboxEvent (kind : FleetEventKind) (fleetId : String) (childId attemptId : Option String)
    (eventId : String) : OutboxEvent :=
  { schemaVersion := schemaVersionCurrent, sequence := 0, eventId := eventId,
    fleetId := fleetId, childId := childId, attemptId := attemptId, kind := kind,
    claimedBy := none, claimToken := none, claimExpiresAt := none, acked := false }

/-- The next outbox sequence: one past the last key, checked. -/
def nextSequence (outbox : Table String OutboxEvent) : Except StoreError U64 :=
  match outbox.toList.getLast? with
  | some (k, _) =>
      match parseU64 k with
      | some last => okOr (checkedAdd last 1) .outboxSequenceOverflow
      | none => .error (.corruptOutboxKey k)
  | none => .ok 1

/-- `append_outbox`: assign the next sequence and insert. -/
def appendOutbox (outbox : Table String OutboxEvent) (event : OutboxEvent) :
    Except StoreError (U64 × Table String OutboxEvent) := do
  let next ← nextSequence outbox
  let event := { event with sequence := next, schemaVersion := schemaVersionCurrent }
  return (next, outbox.insert (outboxKey next) event)

def appendEvent (event : OutboxEvent) (s : Store) : Except StoreError (U64 × Store) := do
  ensureKeySafe ([event.fleetId, event.eventId] ++ event.childId.toList ++ event.attemptId.toList)
  let (seq, outbox) ← appendOutbox s.outbox event
  return (seq, { s with outbox := outbox })

/-- A claim is free when there is none or when it has expired. -/
def OutboxEvent.claimFree (ev : OutboxEvent) (nowMs : U64) : Bool :=
  ev.claimedBy.isNone || (ev.claimExpiresAt.map (fun e => decide (e < nowMs))).getD true

/-- Claim the lowest-sequence unacked event whose claim is free; `claimToken`
is the minted token. -/
def claimNext (consumer : String) (nowMs ttlMs : U64) (claimToken : String) (s : Store) :
    Except StoreError (Option OutboxEvent × Store) := do
  let found := (decodedRows s.outbox).find? (fun r => !r.2.acked && r.2.claimFree nowMs)
  match found with
  | some (key, ev) =>
      let expires ← okOr (checkedAdd nowMs ttlMs) .claimExpiryOverflow
      let ev := { ev with
        claimedBy := some consumer, claimToken := some claimToken,
        claimExpiresAt := some expires }
      return (some ev, { s with outbox := s.outbox.insert key ev })
  | none => return (none, s)

/-- Acknowledge an event, fenced on its current claim. -/
def ack (sequence : U64) (consumer claimToken : String) (s : Store) :
    Except StoreError (AckOutcome × Store) := do
  let key := outboxKey sequence
  let row ← okOr s.outbox[key]? (.outboxNotFound sequence)
  let ev ← okOr (decodeRow row) (.outboxNewerSchema sequence)
  if ev.claimedBy = some consumer ∧ ev.claimToken = some claimToken then
    return (.acked, { s with outbox := s.outbox.insert key { ev with acked := true } })
  else
    return (.staleClaim, s)

/-! ## Decision log -/

/-- Append to a fleet's decision log under the next per-fleet sequence. -/
def appendDecision (fleetId actor : String) (kind : DecisionKind) (note : String) (nowMs : U64)
    (s : Store) : Except StoreError (U64 × Store) := do
  ensureKeySafe [fleetId]
  let seqs := s.decisionLog.toList.filterMap (fun r => decisionSeq r.1 fleetId)
  let max := seqs.foldl (fun m n => if m < n then n else m) 0
  let next ← okOr (checkedAdd max 1) (.decisionSequenceOverflow fleetId)
  let entry : DecisionEntry :=
    { schemaVersion := schemaVersionCurrent, seq := next, atMs := nowMs, actor := actor,
      kind := kind, note := note }
  return (next, { s with decisionLog := s.decisionLog.insert (decisionKey fleetId next) entry })

end Octos.Fleet
