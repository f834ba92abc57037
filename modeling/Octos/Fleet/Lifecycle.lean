/-
# `Octos.Fleet.Lifecycle` — creation, readiness, launch and settlement

The operations of `store.rs` that create a fleet and its children, promote a
child to `Ready`, launch an attempt, advance it and settle it.  Each definition
is the body of one write transaction, with its early returns in source order.

`complete_child` and `record_escalation` open with the same reads, the same
identity checks, the same liveness fence and the same four-part predicate; that
common opening is `settleFence`.
-/
import Octos.Fleet.Store

namespace Octos.Fleet

/-! ## Creation -/

/-- The row of a fresh fleet: generation 0, `Active`, nothing reserved. -/
def freshFleet (fleetId : String) (controllerSessionKey : SessionKey)
    (controllerWorkspaceRoot : Option String) (hasRuntimeHint : Option Bool)
    (profileId : String) (tokenBudget : U64) (hard : Bool) (nowMs : U64) : FleetRecord :=
  { schemaVersion := schemaVersionCurrent, fleetId := fleetId,
    controllerSessionKey := controllerSessionKey,
    controllerWorkspaceRoot := controllerWorkspaceRoot,
    controllerWorkspaceHasRuntimeHint := hasRuntimeHint, profileId := profileId,
    budget := { tokenBudget := tokenBudget, tokensReserved := 0, tokensCommitted := 0,
                hard := hard },
    status := .active, generation := 0, createdAtMs := nowMs, updatedAtMs := nowMs }

/-- The row of a fresh child. -/
def freshChild (fleetId childId : String) (deps : List String) (status : ChildStatus)
    (generation nowMs : U64) : FleetChildRecord :=
  { schemaVersion := schemaVersionCurrent, fleetId := fleetId, childId := childId,
    workerKind := .statelessTask, status := status, currentAttemptId := none,
    attemptsUsed := 0, outcome := none, tokensCommitted := 0, deps := deps,
    pendingEscalation := none, generation := generation, updatedAtMs := nowMs }

/-- A dep-free child starts `Ready`, a dep-gated one `Planned`. -/
def genesisStatus (deps : List String) : ChildStatus :=
  if deps.isEmpty then .ready else .planned

def createFleet (fleetId : String) (controllerSessionKey : SessionKey)
    (controllerWorkspaceRoot : Option String) (profileId : String) (tokenBudget : U64)
    (hard : Bool) (nowMs : U64) (s : Store) : Except StoreError Store := do
  ensureKeySafe [fleetId]
  if s.fleets[fleetId]?.isSome then throw (.fleetExists fleetId)
  let record := freshFleet fleetId controllerSessionKey controllerWorkspaceRoot none profileId
    tokenBudget hard nowMs
  return { s with fleets := s.fleets.insert fleetId record }

/-- Insert-only: an existing plan is never overwritten here. -/
def createPlan (plan : DurablePlan) (s : Store) : Except StoreError (PlanMutateOutcome × Store) := do
  ensureKeySafe (planKeys plan.fleetId plan.tasks)
  let plan := { plan with schemaVersion := schemaVersionCurrent }
  let row ← okOr s.fleets[plan.fleetId]? (.unknownFleet plan.fleetId)
  let fleet ← okOr (decodeRow row) (.fleetNewerSchema plan.fleetId)
  if fleet.fleetId ≠ plan.fleetId then throw (.fleetIdentityMismatch plan.fleetId)
  if !fleetIsLive fleet then return (.rejectedFleetTerminal, s)
  if s.plans[plan.fleetId]?.isSome then throw (.planExists plan.fleetId)
  return (.mutated plan.revision, { s with plans := s.plans.insert plan.fleetId plan })

/-- The child rows of a genesis plan, one per task; a repeated id aborts. -/
def createChildren (fleetId : String) (nowMs : U64) :
    List PlanTask → Table String FleetChildRecord →
      Except StoreError (Table String FleetChildRecord)
  | [], children => .ok children
  | t :: ts, children =>
      if children[childKey fleetId t.taskId]?.isSome then
        .error (.duplicateChild fleetId t.taskId)
      else
        createChildren fleetId nowMs ts
          (children.insert (childKey fleetId t.taskId)
            (freshChild fleetId t.taskId t.deps (genesisStatus t.deps) 0 nowMs))

/-- `create_fleet_with_plan_and_workspace_provenance`: fleet, children and plan
in one transaction. -/
def createFleetWithPlan (controllerSessionKey : SessionKey)
    (controllerWorkspaceRoot : Option String) (hasRuntimeHint : Option Bool)
    (profileId : String) (tokenBudget : U64) (hard : Bool) (plan : DurablePlan) (nowMs : U64)
    (s : Store) : Except StoreError Store := do
  let fleetId := plan.fleetId
  ensureKeySafe (planKeys fleetId plan.tasks)
  let plan := { plan with schemaVersion := schemaVersionCurrent }
  if s.fleets[fleetId]?.isSome then throw (.fleetExists fleetId)
  if s.plans[fleetId]?.isSome then throw (.planExists fleetId)
  let fleet := freshFleet fleetId controllerSessionKey controllerWorkspaceRoot hasRuntimeHint
    profileId tokenBudget hard nowMs
  let children ← createChildren fleetId nowMs plan.tasks s.children
  return { s with
    fleets := s.fleets.insert fleetId fleet
    children := children
    plans := s.plans.insert fleetId plan }

def addChild (fleetId childId : String) (deps : List String) (nowMs : U64) (s : Store) :
    Except StoreError Store := do
  ensureKeySafe ([fleetId, childId] ++ deps)
  let row ← okOr s.fleets[fleetId]? (.unknownFleet fleetId)
  let fleet ← okOr (decodeRow row) (.fleetNewerSchema fleetId)
  if !fleetIsLive fleet then throw (.terminalFleet fleetId)
  if s.children[childKey fleetId childId]?.isSome then throw (.childExists fleetId childId)
  let record := freshChild fleetId childId deps (genesisStatus deps) fleet.generation nowMs
  return { s with children := s.children.insert (childKey fleetId childId) record }

/-! ## Readiness -/

/-- A dependency counts only if its row owns the key it was read under and has
`Succeeded`. -/
def depMet (t : Tables) (fleetId dep : String) : Bool :=
  match t.child? fleetId dep with
  | some d => d.fleetId == fleetId && d.childId == dep && d.status == .succeeded
  | none => false

/-- Promote a `Planned` child whose dependencies have all `Succeeded`. -/
def markReady (fleetId childId : String) (nowMs : U64) (s : Store) :
    Except StoreError (Bool × Store) := do
  ensureKeySafe [fleetId, childId]
  if !s.fleetLive fleetId then return (false, s)
  let row ← okOr s.children[childKey fleetId childId]? (.unknownChild fleetId childId)
  let child ← okOr (decodeRow row) (.childNewerSchema childId)
  if child.fleetId ≠ fleetId ∨ child.childId ≠ childId then throw (.childIdentityMismatch childId)
  if child.status ≠ .planned then return (false, s)
  if child.deps.all (depMet s.toTables fleetId) then
    let child := { child with status := .ready, updatedAtMs := nowMs }
    return (true, { s with children := s.children.insert (childKey fleetId childId) child })
  else
    return (false, s)

/-- The promotion test of the collect loop. -/
def promotable (succeeded : List String) (c : FleetChildRecord) : Bool :=
  c.status == .planned && c.currentAttemptId.isNone &&
    c.deps.all (fun d => decide (d ∈ succeeded))

/-- `c.status == Ready && c.current_attempt_id.is_none()`. -/
def launchable (c : FleetChildRecord) : Bool :=
  c.status == .ready && c.currentAttemptId.isNone

/-- The loop of `resolve_and_collect_ready`: promote and write back, then
collect what is launchable. -/
def collectReady (fleetId : String) (succeeded : List String) (nowMs : U64) :
    List FleetChildRecord → Table String FleetChildRecord →
      Table String FleetChildRecord × List String
  | [], children => (children, [])
  | c :: cs, children =>
      if promotable succeeded c then
        let c' := { c with status := .ready, updatedAtMs := nowMs }
        let rest := collectReady fleetId succeeded nowMs cs
          (children.insert (childKey fleetId c.childId) c')
        (rest.1, if launchable c' then c'.childId :: rest.2 else rest.2)
      else
        let rest := collectReady fleetId succeeded nowMs cs children
        (rest.1, if launchable c then c.childId :: rest.2 else rest.2)

/-- The ids of the `Succeeded` rows. -/
def succeededIds (rows : List FleetChildRecord) : List String :=
  (rows.filter (fun c => c.status == .succeeded)).map FleetChildRecord.childId

/-- Resolve readiness and collect the launchable set in one transaction. -/
def resolveAndCollectReady (fleetId : String) (nowMs : U64) (s : Store) :
    Except StoreError (List String × Store) := do
  ensureKeySafe [fleetId]
  if !s.fleetLive fleetId then return ([], s)
  let recs := (ownedChildren s.children).filter (fun c => c.fleetId == fleetId)
  let out := collectReady fleetId (succeededIds recs) nowMs recs s.children
  return (out.2.insertionSort (· ≤ ·), { s with children := out.1 })

/-- A live fleet becomes `Cancelled`; anything else is a `false` no-op. -/
def cancelFleet (fleetId : String) (nowMs : U64) (s : Store) :
    Except StoreError (Bool × Store) := do
  ensureKeySafe [fleetId]
  match s.fleet? fleetId with
  | none => return (false, s)
  | some fleet =>
      if fleet.fleetId ≠ fleetId then throw (.fleetIdentityMismatch fleetId)
      if !fleetIsLive fleet then return (false, s)
      let fleet := { fleet with status := .cancelled, updatedAtMs := nowMs }
      return (true, { s with fleets := s.fleets.insert fleetId fleet })

/-! ## Launch -/

/-- The row of a fresh attempt: `Leased`, stamped with the fleet's generation. -/
def freshAttempt (fleetId childId attemptId : String) (generation : U64) (lease : Lease)
    (reservedTokens nowMs : U64) : Attempt :=
  { schemaVersion := schemaVersionCurrent, fleetId := fleetId, childId := childId,
    attemptId := attemptId, generation := generation, status := .leased, lease := lease,
    reservedTokens := reservedTokens, resultSnapshot := none, startedAtMs := nowMs,
    endedAtMs := none }

/-- Launch a `Ready` child under a fresh lease; `attemptId` and `eventId` are
the minted ids. -/
def launchChild (fleetId childId : String) (projectedTokens nowMs ownerEpoch leaseTtlMs : U64)
    (attemptId eventId : String) (s : Store) : Except StoreError (LaunchOutcome × Store) := do
  ensureKeySafe [fleetId, childId]
  let some child := s.child? fleetId childId | return (.rejectedNotReady, s)
  if child.fleetId ≠ fleetId ∨ child.childId ≠ childId then return (.rejectedNotReady, s)
  if child.status ≠ .ready then
    if (child.status = .launching ∨ child.status = .running) ∧ child.currentAttemptId.isSome then
      return (.rejectedDoubleLaunch, s)
    else
      return (.rejectedNotReady, s)
  if child.currentAttemptId.isSome then return (.rejectedDoubleLaunch, s)
  let some fleet := s.fleet? fleetId | return (.rejectedNotReady, s)
  if fleet.fleetId ≠ fleetId then return (.rejectedNotReady, s)
  if !fleetIsLive fleet then return (.rejectedFleetTerminal, s)
  if !fleet.budget.admits projectedTokens then return (.rejectedBudgetExceeded, s)
  let newReserved ← okOr (checkedAdd fleet.budget.tokensReserved projectedTokens)
    (.reservationOverflow childId)
  let leaseExpires ← okOr (checkedAdd nowMs leaseTtlMs) (.leaseExpiryOverflow childId)
  let attemptsUsed ← okOr (checkedAdd child.attemptsUsed 1) (.attemptsUsedOverflow childId)
  let child := { child with
    status := .launching, currentAttemptId := some attemptId, attemptsUsed := attemptsUsed,
    updatedAtMs := nowMs }
  let attempt := freshAttempt fleetId childId attemptId fleet.generation
    { ownerEpoch := ownerEpoch, expiresAtMs := leaseExpires } projectedTokens nowMs
  let fleet := { fleet with
    budget := { fleet.budget with tokensReserved := newReserved }, updatedAtMs := nowMs }
  let (_, outbox) ← appendOutbox s.outbox
    (outboxEvent .childLaunching fleetId (some childId) (some attemptId) eventId)
  return (.launched attemptId, { s with
    fleets := s.fleets.insert fleetId fleet
    children := s.children.insert (childKey fleetId childId) child
    attempts := s.attempts.insert (attemptKey childId attemptId) attempt
    outbox := outbox })

/-- Advance a leased attempt and its child to `Running`.  The fleet is reached
through the attempt row. -/
def markRunning (childId attemptId : String) (s : Store) :
    Except StoreError (MarkRunningOutcome × Store) := do
  ensureKeySafe [childId, attemptId]
  let some attempt := s.attempt? childId attemptId | return (.superseded, s)
  if attempt.childId ≠ childId ∨ attempt.attemptId ≠ attemptId then return (.superseded, s)
  let some child := s.child? attempt.fleetId childId | return (.superseded, s)
  if child.fleetId ≠ attempt.fleetId ∨ child.childId ≠ childId then return (.superseded, s)
  let some fleet := s.fleet? attempt.fleetId | return (.superseded, s)
  if fleet.fleetId ≠ attempt.fleetId then return (.superseded, s)
  if !fleetIsLive fleet then return (.superseded, s)
  if child.currentAttemptId ≠ some attemptId ∨ child.status ≠ .launching ∨
      attempt.status ≠ .leased ∨ attempt.generation ≠ fleet.generation then
    return (.superseded, s)
  return (.running, { s with
    attempts := s.attempts.insert (attemptKey childId attemptId)
      { attempt with status := .running }
    children := s.children.insert (childKey attempt.fleetId childId)
      { child with status := .running } })

/-! ## Settlement -/

/-- The rows a settlement works on. -/
structure Settling where
  child : FleetChildRecord
  attempt : Attempt
  fleet : FleetRecord

/-- The fence `complete_child` and `record_escalation` share: the three rows
exist and own their ids, the fleet is live, and the attempt is the child's
current one, `Running`, of this generation and under this owner's lease. -/
def settleFence (fleetId childId attemptId : String) (ownerEpoch : U64) (s : Store) :
    Option Settling := do
  let child ← s.child? fleetId childId
  let attempt ← s.attempt? childId attemptId
  let fleet ← s.fleet? fleetId
  if child.fleetId ≠ fleetId ∨ child.childId ≠ childId ∨ attempt.fleetId ≠ fleetId ∨
      attempt.childId ≠ childId ∨ attempt.attemptId ≠ attemptId ∨ fleet.fleetId ≠ fleetId then
    none
  else if !fleetIsLive fleet then none
  else if child.currentAttemptId = some attemptId ∧ attempt.status = .running ∧
      attempt.generation = fleet.generation ∧ attempt.lease.ownerEpoch = ownerEpoch then
    some ⟨child, attempt, fleet⟩
  else none

/-- The fleet row after a settlement: `actual` committed, the reservation
released. -/
def settleBudget (fleet : FleetRecord) (committed reserved nowMs : U64) : FleetRecord :=
  { fleet with
    budget := { fleet.budget with tokensCommitted := committed, tokensReserved := reserved },
    updatedAtMs := nowMs }

/-- Complete a running attempt: child terminal, attempt `Done`, budget settled,
`ChildDone` appended. -/
def completeChild (fleetId childId attemptId : String) (verdict : AcceptanceVerdict)
    (snapshot : ChildResultSnapshot) (actualTokens ownerEpoch nowMs : U64) (eventId : String)
    (s : Store) : Except StoreError (CompleteOutcome × Store) := do
  ensureKeySafe [fleetId, childId, attemptId]
  let some ⟨child, attempt, fleet⟩ := settleFence fleetId childId attemptId ownerEpoch s
    | return (.superseded, s)
  let newCommitted ← okOr (checkedAdd fleet.budget.tokensCommitted actualTokens)
    (.committedOverflow childId)
  let newReserved ← okOr (checkedSub fleet.budget.tokensReserved attempt.reservedTokens)
    (.reservationUnderflow childId)
  let childCommitted ← okOr (checkedAdd child.tokensCommitted actualTokens)
    (.childCommittedOverflow childId)
  let child := { child with
    status := if verdict.isAccepted then .succeeded else .failed, outcome := some verdict,
    tokensCommitted := childCommitted, updatedAtMs := nowMs }
  let attempt := { attempt with
    status := .done, resultSnapshot := some snapshot, endedAtMs := some nowMs }
  let (_, outbox) ← appendOutbox s.outbox
    (outboxEvent .childDone fleetId (some childId) (some attemptId) eventId)
  return (.completed, { s with
    fleets := s.fleets.insert fleetId (settleBudget fleet newCommitted newReserved nowMs)
    children := s.children.insert (childKey fleetId childId) child
    attempts := s.attempts.insert (attemptKey childId attemptId) attempt
    outbox := outbox })

/-- Record a mid-task escalation: the attempt yields, its real tokens are
committed and the child waits `Blocked` for the operator. -/
def recordEscalation (fleetId childId attemptId : String) (request : EscalationRequest)
    (actualTokens ownerEpoch nowMs : U64) (eventId : String) (s : Store) :
    Except StoreError (CompleteOutcome × Store) := do
  ensureKeySafe [fleetId, childId, attemptId]
  let some ⟨child, attempt, fleet⟩ := settleFence fleetId childId attemptId ownerEpoch s
    | return (.superseded, s)
  let newCommitted ← okOr (checkedAdd fleet.budget.tokensCommitted actualTokens)
    (.committedOverflow childId)
  let newReserved ← okOr (checkedSub fleet.budget.tokensReserved attempt.reservedTokens)
    (.reservationUnderflow childId)
  let childCommitted ← okOr (checkedAdd child.tokensCommitted actualTokens)
    (.childCommittedOverflow childId)
  let child := { child with
    status := .blocked, schemaVersion := schemaVersionCurrent,
    pendingEscalation := some request, currentAttemptId := none,
    tokensCommitted := childCommitted, updatedAtMs := nowMs }
  -- the attempt yielded: `Interrupted`, not `Done`, and no result
  let attempt := { attempt with status := .interrupted, endedAtMs := some nowMs }
  let (_, outbox) ← appendOutbox s.outbox
    (outboxEvent .childDone fleetId (some childId) (some attemptId) eventId)
  return (.completed, { s with
    fleets := s.fleets.insert fleetId (settleBudget fleet newCommitted newReserved nowMs)
    children := s.children.insert (childKey fleetId childId) child
    attempts := s.attempts.insert (attemptKey childId attemptId) attempt
    outbox := outbox })

end Octos.Fleet
