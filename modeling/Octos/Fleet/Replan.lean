/-
# `Octos.Fleet.Replan` — plan writers, escalation decisions and recovery

The operations of `store.rs` that rewrite a fleet's plan or move children in
bulk: `replan` (interrupt and restart), the two targeted plan edits
`retitle_task` and `set_task_grant`, the operator's `deny_escalation`, and the
boot pass `reconcile`.

`replan` is three loops inside one transaction.  The first takes every existing
child, interrupts its live attempt if it has one, and rewrites the row: a
survivor is recomputed from the new dependencies, a removed child is cancelled.
The second inserts a row for every task id that had none.  The plan and the
fleet row are written last.  The loops run over snapshots taken before the
first write, as in the source.
-/
import Octos.Fleet.Lifecycle

namespace Octos.Fleet

/-- Apply `g` to the first element satisfying `p`; `none` if there is none. -/
def modifyFirst {α : Type} (p : α → Bool) (g : α → α) : List α → Option (List α)
  | [] => none
  | a :: l => if p a then some (g a :: l) else (modifyFirst p g l).map (a :: ·)

/-! ## Replan -/

/-- The scan of the children table under the prefix `{fleet_id}\0`: each key of
the fleet with its id and, where the row decodes and owns that key, its record. -/
def fleetRows (fleetId : String) (children : Table String FleetChildRecord) :
    List (String × Option FleetChildRecord) :=
  children.toList.filterMap (fun r =>
    (stripPrefix (fleetId ++ "\x00") r.1).map (fun cid =>
      (cid, (decodeRow r.2).filter (fun rec => rec.fleetId == fleetId && rec.childId == cid))))

def existingChildren (fleetId : String) (children : Table String FleetChildRecord) :
    List FleetChildRecord :=
  (fleetRows fleetId children).filterMap Prod.snd

/-- Ids whose row is opaque; the new-task loop never overwrites them. -/
def undecodableIds (fleetId : String) (children : Table String FleetChildRecord) : List String :=
  ((fleetRows fleetId children).filter (fun r => r.2.isNone)).map Prod.fst

/-- The in-transaction freeze: the first task whose existing child is
`Succeeded` or `Failed` with different dependencies. -/
def terminalDepChange (existing : List FleetChildRecord) (tasks : List PlanTask) :
    Option String :=
  (tasks.find? (fun task =>
    match existing.find? (fun c => c.childId == task.taskId) with
    | some child =>
        decide (child.deps ≠ task.deps) && (child.status == .succeeded || child.status == .failed)
    | none => false)).map PlanTask.taskId

/-- The live attempt a child points at, if its row owns its key. -/
def liveAttempt (fleetId : String) (child : FleetChildRecord) (attempts : Table String Attempt) :
    Option Attempt := do
  let aid ← child.currentAttemptId
  let att ← attempts[attemptKey child.childId aid]?.bind decodeRow
  if att.fleetId = fleetId ∧ att.childId = child.childId ∧ att.attemptId = aid ∧
      att.status.isLive = true then
    some att
  else none

/-- `Leased`/`Running → Interrupted`. -/
def Attempt.interrupt (att : Attempt) (nowMs : U64) : Attempt :=
  { att with status := .interrupted, endedAtMs := some nowMs }

/-- `Ready` when every dependency is in the post-replan `Succeeded` set. -/
def readiness (succeeded deps : List String) : ChildStatus :=
  if deps.all (fun d => decide (d ∈ succeeded)) then .ready else .planned

/-- The row of an existing child after a re-plan.  A `Succeeded` survivor keeps
its outcome and the pointer to its attempt; every other survivor restarts from
the new dependencies; a removed child is `Cancelled`. -/
def replanRow (tasks : List PlanTask) (succeeded : List String) (newGen nowMs : U64)
    (interrupted : Bool) (child : FleetChildRecord) : FleetChildRecord :=
  let current := if interrupted then none else child.currentAttemptId
  match tasks.find? (fun t => t.taskId == child.childId) with
  | some task =>
      if child.status = .succeeded then
        { child with
          currentAttemptId := current, generation := newGen, updatedAtMs := nowMs,
          deps := task.deps }
      else
        { child with
          currentAttemptId := none, generation := newGen, updatedAtMs := nowMs,
          deps := task.deps, outcome := none, pendingEscalation := none,
          status := readiness succeeded task.deps }
  | none =>
      { child with
        currentAttemptId := none, generation := newGen, updatedAtMs := nowMs,
        status := .cancelled, outcome := some (.terminated "removed by replan"),
        pendingEscalation := none }

/-- What the interrupt-and-restart loop threads: the two tables it writes and
the fleet's outstanding reservation. -/
structure ReplanAcc where
  children : Table String FleetChildRecord
  attempts : Table String Attempt
  reserved : U64

/-- One iteration of the interrupt-and-restart loop. -/
def replanChild (fleetId : String) (tasks : List PlanTask) (succeeded : List String)
    (newGen nowMs : U64) (child : FleetChildRecord) (acc : ReplanAcc) :
    Except StoreError ReplanAcc :=
  let ckey := childKey fleetId child.childId
  match liveAttempt fleetId child acc.attempts with
  | some att => do
      let reserved ← okOr (checkedSub acc.reserved att.reservedTokens)
        (.reservationUnderflow child.childId)
      return {
        children := acc.children.insert ckey
          (replanRow tasks succeeded newGen nowMs true child)
        attempts := acc.attempts.insert (attemptKey child.childId att.attemptId)
          (att.interrupt nowMs)
        reserved := reserved }
  | none =>
      .ok { acc with
        children := acc.children.insert ckey
          (replanRow tasks succeeded newGen nowMs false child) }

/-- The interrupt-and-restart loop. -/
def replanExisting (fleetId : String) (tasks : List PlanTask) (succeeded : List String)
    (newGen nowMs : U64) : List FleetChildRecord → ReplanAcc → Except StoreError ReplanAcc
  | [], acc => .ok acc
  | c :: cs, acc =>
      match replanChild fleetId tasks succeeded newGen nowMs c acc with
      | .ok acc' => replanExisting fleetId tasks succeeded newGen nowMs cs acc'
      | .error e => .error e

/-- Fresh rows for the task ids that had none. -/
def replanNew (fleetId : String) (taken succeeded : List String) (newGen nowMs : U64) :
    List PlanTask → Table String FleetChildRecord → Table String FleetChildRecord
  | [], children => children
  | t :: ts, children =>
      if t.taskId ∈ taken then replanNew fleetId taken succeeded newGen nowMs ts children
      else
        replanNew fleetId taken succeeded newGen nowMs ts
          (children.insert (childKey fleetId t.taskId)
            (freshChild fleetId t.taskId t.deps (readiness succeeded t.deps) newGen nowMs))

/-- The post-replan `Succeeded` set: succeeded and still in the plan. -/
def survivingSucceeded (existing : List FleetChildRecord) (tasks : List PlanTask) : List String :=
  (existing.filter (fun c =>
    c.status == .succeeded && decide (c.childId ∈ tasks.map PlanTask.taskId))).map
      FleetChildRecord.childId

/-- Revision-fenced replacement of the plan with interrupt-and-restart. -/
def replan (fleetId : String) (expectedRevision : U64) (newPlan : DurablePlan) (nowMs : U64)
    (s : Store) : Except StoreError (PlanMutateOutcome × Store) := do
  ensureKeySafe (planKeys fleetId newPlan.tasks)
  let row ← okOr s.plans[fleetId]? (.noPlan fleetId)
  let plan ← okOr (decodeRow row) (.planNewerSchema fleetId)
  if plan.fleetId ≠ fleetId then throw (.planIdentityMismatch fleetId)
  if plan.revision ≠ expectedRevision then return (.revisionMismatch plan.revision, s)
  let row ← okOr s.fleets[fleetId]? (.noFleet fleetId)
  let fleet ← okOr (decodeRow row) (.fleetNewerSchema fleetId)
  if fleet.fleetId ≠ fleetId then throw (.fleetIdentityMismatch fleetId)
  if !fleetIsLive fleet then return (.rejectedFleetTerminal, s)
  let newGen ← okOr (checkedAdd fleet.generation 1) (.generationOverflow fleetId)
  let newRev ← okOr (checkedAdd expectedRevision 1) (.revisionOverflow fleetId)
  let existing := existingChildren fleetId s.children
  let succeeded := survivingSucceeded existing newPlan.tasks
  if let some taskId := terminalDepChange existing newPlan.tasks then
    return (.rejectedTerminalDepChange taskId, s)
  let acc ← replanExisting fleetId newPlan.tasks succeeded newGen nowMs existing
    { children := s.children, attempts := s.attempts,
      reserved := fleet.budget.tokensReserved }
  let taken := existing.map FleetChildRecord.childId ++ undecodableIds fleetId s.children
  let children := replanNew fleetId taken succeeded newGen nowMs newPlan.tasks acc.children
  let newPlan := { newPlan with
    schemaVersion := schemaVersionCurrent, fleetId := fleetId, revision := newRev }
  let fleet := { fleet with
    budget := { fleet.budget with tokensReserved := acc.reserved },
    generation := newGen, updatedAtMs := nowMs }
  return (.mutated newRev, { s with
    fleets := s.fleets.insert fleetId fleet
    children := children
    attempts := acc.attempts
    plans := s.plans.insert fleetId newPlan })

/-! ## Targeted plan edits -/

/-- The plan row a targeted edit works on, revision-fenced: the outcome it is
refused with, or the row. -/
def fencedPlan (fleetId : String) (expectedRevision : U64) (s : Store) :
    Except StoreError (PlanMutateOutcome ⊕ DurablePlan) := do
  if !s.fleetLive fleetId then return .inl .rejectedFleetTerminal
  let row ← okOr s.plans[fleetId]? (.noPlan fleetId)
  let plan ← okOr (decodeRow row) (.planNewerSchema fleetId)
  if plan.fleetId ≠ fleetId then throw (.planIdentityMismatch fleetId)
  if plan.revision ≠ expectedRevision then return .inl (.revisionMismatch plan.revision)
  return .inr plan

/-- Spec-only edit of one task's title and detail. -/
def retitleTask (fleetId : String) (expectedRevision : U64) (taskId title detail : String)
    (s : Store) : Except StoreError (PlanMutateOutcome × Store) := do
  ensureKeySafe [fleetId, taskId]
  match ← fencedPlan fleetId expectedRevision s with
  | .inl refused => return (refused, s)
  | .inr plan =>
      let tasks ← okOr (modifyFirst (fun t => t.taskId == taskId)
        (fun t => { t with title := title, detail := detail }) plan.tasks)
        (.taskNotInPlan fleetId taskId)
      let newRev ← okOr (checkedAdd expectedRevision 1) (.revisionOverflow fleetId)
      let plan := { plan with
        tasks := tasks, revision := newRev, schemaVersion := schemaVersionCurrent }
      return (.mutated newRev, { s with plans := s.plans.insert fleetId plan })

/-- Widen one task's grant and resume its `Blocked` child. -/
def setTaskGrant (fleetId : String) (expectedRevision : U64) (taskId : String)
    (grant : WorkerGrant) (nowMs : U64) (s : Store) :
    Except StoreError (PlanMutateOutcome × Store) := do
  ensureKeySafe [fleetId, taskId]
  match ← fencedPlan fleetId expectedRevision s with
  | .inl refused => return (refused, s)
  | .inr plan =>
      let tasks ← okOr (modifyFirst (fun t => t.taskId == taskId)
        (fun t => { t with grant := grant }) plan.tasks) (.taskNotInPlan fleetId taskId)
      let some child := s.child? fleetId taskId | return (.rejectedNotBlocked taskId, s)
      if child.fleetId ≠ fleetId ∨ child.childId ≠ taskId ∨ child.status ≠ .blocked then
        return (.rejectedNotBlocked taskId, s)
      let newRev ← okOr (checkedAdd expectedRevision 1) (.revisionOverflow fleetId)
      let plan := { plan with
        tasks := tasks, revision := newRev, schemaVersion := schemaVersionCurrent }
      let child := { child with
        status := .ready, pendingEscalation := none, currentAttemptId := none,
        updatedAtMs := nowMs }
      return (.mutated newRev, { s with
        plans := s.plans.insert fleetId plan
        children := s.children.insert (childKey fleetId taskId) child })

/-! ## The operator's denial -/

/-- A task's status as the completability check reads it: the denied child is
read from the local record, a missing row counts as `Planned`. -/
def taskStatus (t : Tables) (fleetId : String) (denied : FleetChildRecord) (deniedId : String)
    (task : PlanTask) : ChildStatus :=
  if task.taskId = deniedId then denied.status
  else ((t.child? fleetId task.taskId).map FleetChildRecord.status).getD .planned

/-- Deny an escalation: `Blocked → Failed`, the plan revision bumped so that a
racing grant fails its CAS, and the keeper woken. -/
def denyEscalation (fleetId childId reason : String) (nowMs : U64) (eventId : String)
    (s : Store) : Except StoreError (DenyEscalationOutcome × Store) := do
  let superseded : DenyEscalationOutcome := ⟨.superseded, false⟩
  ensureKeySafe [fleetId, childId]
  if !s.fleetLive fleetId then return (superseded, s)
  let some child := s.child? fleetId childId | return (superseded, s)
  if child.fleetId ≠ fleetId ∨ child.childId ≠ childId ∨ child.status ≠ .blocked then
    return (superseded, s)
  let child := { child with
    status := .failed, outcome := some (.rejected ("escalation denied: " ++ reason)),
    pendingEscalation := none, currentAttemptId := none, updatedAtMs := nowMs }
  let children := s.children.insert (childKey fleetId childId) child
  let bumped : Option DurablePlan := (s.plan? fleetId).filter (fun p => p.fleetId == fleetId)
  let (plans, unCompletable) ← match bumped with
    | some plan => do
        let newRev ← okOr (checkedAdd plan.revision 1) (.revisionOverflow fleetId)
        let plan := { plan with revision := newRev, schemaVersion := schemaVersionCurrent }
        let statuses := plan.tasks.map
          (taskStatus { s.toTables with children := children } fleetId child childId)
        pure (s.plans.insert fleetId plan,
          !statuses.all (fun st => st == .succeeded) && statuses.any (fun st => st == .failed))
    | none => pure (s.plans, false)
  let (_, outbox) ← appendOutbox s.outbox
    (outboxEvent .childDone fleetId (some childId) none eventId)
  return (⟨.completed, unCompletable⟩, { s with
    children := children, plans := plans, outbox := outbox })

/-! ## Boot recovery -/

/-- The fleet and the live attempt `reconcile` would reclaim for a child. -/
def reclaimable (nowMs ownerEpoch : U64) (t : Tables) (child : FleetChildRecord) :
    Option (FleetRecord × Attempt) := do
  if child.status ≠ .launching ∧ child.status ≠ .running then none
  else
    let aid ← child.currentAttemptId
    let fleet ← t.fleet? child.fleetId
    if fleet.fleetId ≠ child.fleetId then none
    else
      let attempt ← t.attempt? child.childId aid
      if attempt.childId ≠ child.childId ∨ attempt.attemptId ≠ aid ∨
          attempt.fleetId ≠ child.fleetId then none
      else if attempt.status.isLive = false then none
      else if fleetIsLive fleet ∧ ¬ (attempt.lease.ownerEpoch ≠ ownerEpoch ∨
          attempt.lease.expiresAtMs < nowMs) then none
      else some (fleet, attempt)

/-- One iteration of `reconcile`: interrupt the attempt, release its
reservation, and return the child to `Ready` — or retire it `Cancelled` when
its fleet is terminal. -/
def reclaim (nowMs ownerEpoch : U64) (child : FleetChildRecord) (s : Store) :
    Except StoreError (List InterruptedAttempt × Store) :=
  match reclaimable nowMs ownerEpoch s.toTables child with
  | none => .ok ([], s)
  | some (fleet, attempt) => do
      let reserved ← okOr (checkedSub fleet.budget.tokensReserved attempt.reservedTokens)
        (.reservationUnderflow child.childId)
      let fleet' := { fleet with
        budget := { fleet.budget with tokensReserved := reserved }, updatedAtMs := nowMs }
      let child' := { child with
        status := if fleetIsLive fleet then .ready else .cancelled,
        currentAttemptId := none, updatedAtMs := nowMs }
      return ([⟨child.fleetId, child.childId, attempt.attemptId⟩], { s with
        attempts := s.attempts.insert (attemptKey child.childId attempt.attemptId)
          (attempt.interrupt nowMs)
        fleets := s.fleets.insert child.fleetId fleet'
        children := s.children.insert (childKey child.fleetId child.childId) child' })

def reclaimAll (nowMs ownerEpoch : U64) :
    List FleetChildRecord → Store → Except StoreError (List InterruptedAttempt × Store)
  | [], s => .ok ([], s)
  | c :: cs, s => do
      let (r₁, s₁) ← reclaim nowMs ownerEpoch c s
      let (r₂, s₂) ← reclaimAll nowMs ownerEpoch cs s₁
      return (r₁ ++ r₂, s₂)

/-- Boot recovery over every child of every fleet, in key order. -/
def reconcile (nowMs ownerEpoch : U64) (s : Store) :
    Except StoreError (List InterruptedAttempt × Store) :=
  reclaimAll nowMs ownerEpoch (ownedChildren s.children) s

end Octos.Fleet
