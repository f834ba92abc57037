/-
# `Octos.Fleet.Facade` — the `Fleet` handle over the store

The methods of `Fleet` in `fleet.rs`, as compositions of store calls.  A method
that reads and then writes does so in separate transactions; `apply_edit` is
therefore split where the source splits it: `prepareEdit` works on a snapshot,
and the store call it decides on runs later.  The sequential method is the
composition, here, and the interleaved one is the system of
`Octos.Fleet.Keeper`.

The decision-log note and the eager readiness pass that follow a commit are
best effort: their failure is dropped, as in the source.
-/
import Octos.Fleet.Plan
import Octos.Fleet.Ops

namespace Octos.Fleet

/-- What a `Fleet` method fails with. -/
inductive FleetError
  | store (e : StoreError)
  | graph (e : PlanGraphError)
  /-- `fleet {fleet_id} not found` -/
  | fleetNotFound (fleetId : String)
  /-- `no plan for fleet {fleet_id}` / `plan for fleet {fleet_id} not found` -/
  | planNotFound (fleetId : String)
  deriving DecidableEq, Repr

/-- `?` on a store result. -/
def liftStore {α : Type} : Except StoreError α → Except FleetError α
  | .ok a => .ok a
  | .error e => .error (.store e)

/-- `?` on a graph check. -/
def liftGraph {α : Type} : Except PlanGraphError α → Except FleetError α
  | .ok a => .ok a
  | .error e => .error (.graph e)

/-- `Option::ok_or_else`, for methods. -/
def orFail {α : Type} (o : Option α) (e : FleetError) : Except FleetError α :=
  match o with
  | some a => .ok a
  | none => .error e

/-! ## Reads -/

/-- Fleet, plan and children from one read transaction. -/
structure FleetSnapshot where
  fleet : FleetRecord
  plan : Option DurablePlan
  children : List FleetChildRecord

/-- The decoded children of a fleet, by child id. -/
def listChildren (fleetId : String) (s : Store) : List FleetChildRecord :=
  (((decodedRows s.children).map Prod.snd).filter (fun c => c.fleetId == fleetId)).insertionSort
    (fun a b => a.childId ≤ b.childId)

def loadSnapshot (fleetId : String) (s : Store) : Except StoreError (Option FleetSnapshot) := do
  ensureKeySafe [fleetId]
  match (s.fleet? fleetId).filter (fun r => r.fleetId == fleetId) with
  | none => return none
  | some fleet =>
      return some {
        fleet := fleet
        plan := (s.plan? fleetId).filter (fun p => p.fleetId == fleetId)
        children := listChildren fleetId s }

/-- `load`: a snapshot that has a plan. -/
def load (fleetId : String) (s : Store) : Except FleetError (FleetSnapshot × DurablePlan) := do
  let snap ← liftStore (loadSnapshot fleetId s)
  let snap ← orFail snap (.fleetNotFound fleetId)
  let plan ← orFail snap.plan (.planNotFound fleetId)
  return (snap, plan)

/-- Every task of the current plan has a `Succeeded` child.  The children are
read by id; a later row of the same id wins, as in the source's map. -/
def isComplete (fleetId : String) (s : Store) : Except FleetError Bool := do
  let (snap, plan) ← load fleetId s
  return plan.tasks.all (fun t =>
    match snap.children.reverse.find? (fun c => c.childId == t.taskId) with
    | some c => c.status == .succeeded
    | none => false)

/-- `ready_tasks`. -/
def readyTasks (fleetId : String) (nowMs : U64) (s : Store) :
    Except StoreError (List String × Store) :=
  resolveAndCollectReady fleetId nowMs s

/-! ## The decision log -/

/-- `note`: append and drop a failure. -/
def note (fleetId : String) (kind : DecisionKind) (text : String) (nowMs : U64) (s : Store) :
    Store :=
  ((Op.appendDecision fleetId "keeper" kind text nowMs).exec s).2

/-! ## Creation -/

/-- The plan of a new fleet. -/
def genesisPlan (fleetId objective : String) (tasks : List PlanTask) : DurablePlan :=
  { schemaVersion := schemaVersionCurrent, fleetId := fleetId, revision := 0,
    objective := objective, tasks := tasks }

/-- The store call of `create_with_workspace_provenance`, once the whole graph
has been validated. -/
def createOp (fleetId : String) (key : SessionKey) (root : Option String) (hint : Option Bool)
    (profileId : String) (budget : FleetBudget) (objective : String) (specs : List TaskSpec)
    (nowMs : U64) : Except FleetError Op := do
  let tasks := specs.map TaskSpec.toPlanTask
  liftGraph (validateGraph tasks)
  return .createFleetWithPlan key root hint profileId budget.tokenBudget budget.hard
    (genesisPlan fleetId objective tasks) nowMs

/-- Only a valid graph reaches the store. -/
theorem createOp_ok {fleetId : String} {key : SessionKey} {root : Option String}
    {hint : Option Bool} {profileId : String} {budget : FleetBudget} {objective : String}
    {specs : List TaskSpec} {nowMs : U64} {op : Op}
    (h : createOp fleetId key root hint profileId budget objective specs nowMs = .ok op) :
    ValidGraph (specs.map TaskSpec.toPlanTask) ∧
      op = .createFleetWithPlan key root hint profileId budget.tokenBudget budget.hard
        (genesisPlan fleetId objective (specs.map TaskSpec.toPlanTask)) nowMs := by
  unfold createOp at h
  simp only at h
  cases hv : validateGraph (specs.map TaskSpec.toPlanTask) with
  | error e =>
      rw [hv] at h
      cases h
  | ok u =>
      rw [hv] at h
      exact ⟨validateGraph_iff.mp hv, (Except.ok.inj h).symm⟩

/-- `Fleet::create`: validate, then fleet, plan and children in one
transaction, then the note. -/
def create (fleetId : String) (key : SessionKey) (root : Option String) (hint : Option Bool)
    (profileId : String) (budget : FleetBudget) (objective : String) (specs : List TaskSpec)
    (nowMs : U64) (s : Store) : Except FleetError Unit × Store :=
  match createOp fleetId key root hint profileId budget objective specs nowMs with
  | .error e => (.error e, s)
  | .ok op =>
      match op.exec s with
      | (.error e, s') => (.error (.store e), s')
      | (.ok _, s') =>
          (.ok (), note fleetId .plan
            ("created fleet with " ++ toString specs.length ++ " task(s)") nowMs s')

/-! ## Edits -/

/-- The store call an edit has decided on. -/
inductive Prepared
  | retitle (taskId title detail : String)
  | setGrant (taskId : String) (grant : WorkerGrant)
  | replan (newPlan : DurablePlan) (text : String)

/-- The call itself. -/
def Prepared.run (fleetId : String) (expectedRevision nowMs : U64) :
    Prepared → Store → Except StoreError (PlanMutateOutcome × Store)
  | .retitle taskId title detail => retitleTask fleetId expectedRevision taskId title detail
  | .setGrant taskId grant => setTaskGrant fleetId expectedRevision taskId grant nowMs
  | .replan newPlan _ => Fleet.replan fleetId expectedRevision newPlan nowMs

/-- What goes into the decision log after the call. -/
def Prepared.entry : Prepared → DecisionKind × String
  | .retitle taskId _ _ => (.note, "retitle task " ++ taskId)
  | .setGrant taskId _ => (.note, "grant widen + resume task " ++ taskId)
  | .replan _ text => (.replan, text)

/-- A terminal task's dependencies may not be retargeted: the check on the
snapshot. -/
def retargetsTerminal (plan : DurablePlan) (children : List FleetChildRecord) :
    PlanEdit → Option String
  | .retargetDeps taskId _ =>
      if plan.tasks.any (fun t => t.taskId == taskId) then
        match children.find? (fun c => c.childId == taskId) with
        | some c => if c.status.isTerminal then some taskId else none
        | none => none
      else none
  | _ => none

/-- The structural edits: build the new plan from the snapshot's and validate
its graph. -/
def prepareReplan (fleetId : String) (edit : PlanEdit) (expectedRevision : U64)
    (plan : DurablePlan) (children : List FleetChildRecord) : Except FleetError Prepared :=
  match retargetsTerminal plan children edit with
  | some taskId => .error (.graph (.retargetTerminalTask taskId))
  | none => do
      let (tasks, text) ← liftGraph (applyEditToTasks plan.tasks edit)
      liftGraph (validateGraph tasks)
      return .replan
        { schemaVersion := schemaVersionCurrent, fleetId := fleetId,
          revision := expectedRevision, objective := plan.objective, tasks := tasks } text

/-- A targeted edit needs its task in the plan. -/
def prepareTargeted (plan : DurablePlan) (taskId : String) (p : Prepared) :
    Except FleetError Prepared :=
  if plan.tasks.any (fun t => t.taskId == taskId) then .ok p
  else .error (.graph (.unknownTask taskId))

/-- The store call an edit decides on, from the plan and the children of its
snapshot. -/
def decideEdit (fleetId : String) (edit : PlanEdit) (expectedRevision : U64)
    (plan : DurablePlan) (children : List FleetChildRecord) : Except FleetError Prepared :=
  match edit with
  | .retitle taskId title detail =>
      prepareTargeted plan taskId (.retitle taskId title detail)
  | .setGrant taskId grant => prepareTargeted plan taskId (.setGrant taskId grant)
  | edit => prepareReplan fleetId edit expectedRevision plan children

/-- The part of `apply_edit` before its store call: an outcome at once, or the
call to make. -/
def prepareEdit (fleetId : String) (edit : PlanEdit) (expectedRevision : U64) (s : Store) :
    Except FleetError (PlanMutateOutcome ⊕ Prepared) := do
  let (snap, plan) ← load fleetId s
  if plan.revision ≠ expectedRevision then return .inl (.revisionMismatch plan.revision)
  let p ← decideEdit fleetId edit expectedRevision plan snap.children
  return .inr p

/-- What `apply_edit` makes of the outcome of its store call.  The freeze inside
`replan` surfaces as the error of the check on the snapshot. -/
def Prepared.result (p : Prepared) (outcome : PlanMutateOutcome) :
    Except FleetError PlanMutateOutcome :=
  match p, outcome with
  | .replan _ _, .rejectedTerminalDepChange taskId =>
      .error (.graph (.retargetTerminalTask taskId))
  | _, outcome => .ok outcome

/-- The store call and what `apply_edit` returns for it. -/
def Prepared.commit (fleetId : String) (expectedRevision nowMs : U64) (p : Prepared) (s : Store) :
    Except FleetError PlanMutateOutcome × Store :=
  match p.run fleetId expectedRevision nowMs s with
  | .error e => (.error (.store e), s)
  | .ok (outcome, s') => (p.result outcome, s')

/-- `apply_edit`, run without interruption. -/
def applyEdit (fleetId : String) (edit : PlanEdit) (expectedRevision nowMs : U64) (s : Store) :
    Except FleetError PlanMutateOutcome × Store :=
  match prepareEdit fleetId edit expectedRevision s with
  | .error e => (.error e, s)
  | .ok (.inl outcome) => (.ok outcome, s)
  | .ok (.inr p) =>
      match p.commit fleetId expectedRevision nowMs s with
      | (.ok (.mutated v), s') =>
          (.ok (.mutated v), note fleetId p.entry.1 p.entry.2 nowMs s')
      | (r, s') => (r, s')

/-! ## Outcomes -/

/-- `snapshot_from_verdict`. -/
def snapshotFromVerdict (verdict : AcceptanceVerdict) (tokens : U64) : ChildResultSnapshot :=
  match verdict with
  | .accepted _ =>
      { output := "accepted", success := true, tokensUsed := tokens, files := [], error := none }
  | .rejected reason =>
      { output := "", success := false, tokensUsed := tokens, files := [], error := some reason }
  | .terminated reason =>
      { output := "", success := false, tokensUsed := tokens, files := [], error := some reason }

/-- `describe_verdict`. -/
def describeVerdict (taskId : String) : AcceptanceVerdict → String
  | .accepted evidence =>
      taskId ++ ": accepted (" ++ toString evidence.length ++ " evidence)"
  | .rejected reason => taskId ++ ": rejected — " ++ reason
  | .terminated reason => taskId ++ ": terminated — " ++ reason

/-- The `mark_ready` calls of `resolve_ready`: one per `Planned` child of the
listing, each its own transaction. -/
def markReadyOps (fleetId : String) (nowMs : U64) (children : List FleetChildRecord) : List Op :=
  (children.filter (fun c => c.status == .planned)).map
    (fun c => .markReady fleetId c.childId nowMs)

/-- `resolve_ready`: skipped when the listing fails, and a failing call is
passed over. -/
def resolveReady (fleetId : String) (nowMs : U64) (s : Store) : Store :=
  match ensureKeySafe [fleetId] with
  | .ok _ => execAll (markReadyOps fleetId nowMs (listChildren fleetId s)) s
  | .error _ => s

/-- `record_outcome`: complete, note, and re-resolve the dependents. -/
def recordOutcome (fleetId taskId attemptId : String) (verdict : AcceptanceVerdict)
    (actualTokens ownerEpoch nowMs : U64) (eventId : String) (s : Store) :
    Except FleetError CompleteOutcome × Store :=
  match completeChild fleetId taskId attemptId verdict
      (snapshotFromVerdict verdict actualTokens) actualTokens ownerEpoch nowMs eventId s with
  | .error e => (.error (.store e), s)
  | .ok (.superseded, s') => (.ok .superseded, s')
  | .ok (.completed, s') =>
      (.ok .completed,
        resolveReady fleetId nowMs
          (note fleetId .complete (describeVerdict taskId verdict) nowMs s'))

end Octos.Fleet
