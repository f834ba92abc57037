/-
# `Octos.Fleet.Records` — the durable records of the fleet kernel

The rows of `crates/octos-fleet/src/records.rs` (and the grant value of
`grant.rs` a plan task carries), field by field and under the source's names.
`u64` and `u32` columns are `U64` and `U32`, strings are `String`, `Vec` is
`List`.  The opaque JSON `payload` of an outbox event is left out: the kernel
only ever writes `Null` there and no operation reads it.

A persisted row is decoded before it is used.  `decodeRow` is the version
guard: a row stamped by a newer daemon is dropped, never mis-parsed.  The JSON
text itself is not modelled — a table holds the record, and serialising it and
parsing it back is the identity on these plain data types.
-/
import Octos.Lib.Table
import Octos.Lib.Checked

namespace Octos.Fleet

/-- `SCHEMA_VERSION`, stamped on every persisted record. -/
def schemaVersionCurrent : U32 := 3

/-! ## Status enums -/

/-- Lifecycle of a fleet as a whole. -/
inductive FleetStatus
  | active | draining | complete | failed | cancelled
  deriving DecidableEq, Repr

/-- Lifecycle of a single child (one plan task). -/
inductive ChildStatus
  | planned | ready | launching | running | blocked | succeeded | failed | cancelled
  deriving DecidableEq, Repr

/-- A terminal child can neither launch nor transition further.  `blocked` is
deliberately not terminal: it waits for an operator decision. -/
def ChildStatus.isTerminal : ChildStatus → Bool
  | .succeeded | .failed | .cancelled => true
  | _ => false

/-- Lifecycle of one durable execution attempt. -/
inductive AttemptStatus
  | leased | running | done | interrupted
  deriving DecidableEq, Repr

/-- `matches!(status, Leased | Running)`: the attempt still holds its lease and
its reservation. -/
def AttemptStatus.isLive : AttemptStatus → Bool
  | .leased | .running => true
  | _ => false

@[simp] theorem AttemptStatus.isLive_leased : AttemptStatus.leased.isLive = true := rfl
@[simp] theorem AttemptStatus.isLive_running : AttemptStatus.running.isLive = true := rfl
@[simp] theorem AttemptStatus.isLive_done : AttemptStatus.done.isLive = false := rfl
@[simp] theorem AttemptStatus.isLive_interrupted :
    AttemptStatus.interrupted.isLive = false := rfl

theorem AttemptStatus.isLive_iff {st : AttemptStatus} :
    st.isLive = true ↔ st = .leased ∨ st = .running := by
  cases st <;> simp

inductive WorkerKind
  | statelessTask
  deriving DecidableEq, Repr

/-! ## Grants -/

inductive NetworkGrant
  | none
  | hosts (hosts : List String)
  | full
  deriving DecidableEq, Repr

inductive FsGrant
  | workspace | host
  deriving DecidableEq, Repr

/-- The operator grant of one worker: network, tools and filesystem. -/
structure WorkerGrant where
  network : NetworkGrant
  tools : List String
  fs : FsGrant
  writePaths : Option (List String)
  createOnly : Bool
  deriving DecidableEq, Repr

/-- A worker's mid-task request to widen its grant.  `requestedGrant` is
advisory: only the keeper's grant operation changes the plan. -/
structure EscalationRequest where
  requestedGrant : WorkerGrant
  reason : String
  deriving DecidableEq, Repr

/-! ## Fleet and budget -/

structure FleetBudget where
  tokenBudget : U64
  tokensReserved : U64
  tokensCommitted : U64
  hard : Bool
  deriving DecidableEq, Repr

/-- Would reserving `projected` more tokens stay within the budget?  Inclusive,
on checked arithmetic: a sum that overflows is not admitted. -/
def FleetBudget.admits (b : FleetBudget) (projected : U64) : Bool :=
  match (checkedAdd b.tokensReserved b.tokensCommitted).bind (checkedAdd · projected) with
  | some total => decide (total ≤ b.tokenBudget)
  | none => false

/-- Inclusive admission, as an inequality of naturals. -/
theorem FleetBudget.admits_iff {b : FleetBudget} {projected : U64} :
    b.admits projected = true ↔
      b.tokensReserved.toNat + b.tokensCommitted.toNat + projected.toNat ≤
        b.tokenBudget.toNat := by
  have hb := b.tokenBudget.isLt
  unfold FleetBudget.admits
  cases h₁ : checkedAdd b.tokensReserved b.tokensCommitted with
  | none =>
      rw [checkedAdd_eq_none] at h₁
      simp
      omega
  | some x =>
      rw [checkedAdd_eq_some] at h₁
      simp only [Option.bind_some]
      cases h₂ : checkedAdd x projected with
      | none =>
          rw [checkedAdd_eq_none] at h₂
          simp
          omega
      | some y =>
          rw [checkedAdd_eq_some] at h₂
          simp only [decide_eq_true_eq, BitVec.le_def]
          omega

example : FleetBudget.admits ⟨100, 40, 30, false⟩ 30 = true := by decide

structure SessionKey where
  key : String
  deriving DecidableEq, Repr

structure FleetRecord where
  schemaVersion : U32
  fleetId : String
  controllerSessionKey : SessionKey
  controllerWorkspaceRoot : Option String
  controllerWorkspaceHasRuntimeHint : Option Bool
  profileId : String
  budget : FleetBudget
  status : FleetStatus
  /-- Membership epoch, bumped on re-plan; fences a superseded generation. -/
  generation : U64
  createdAtMs : U64
  updatedAtMs : U64
  deriving DecidableEq, Repr

/-- The one liveness predicate behind every terminal-fleet fence. -/
def fleetIsLive (fleet : FleetRecord) : Bool :=
  match fleet.status with
  | .active | .draining => true
  | _ => false

/-! ## Children and attempts -/

structure EvidenceRef where
  kind : String
  locator : String
  sha256 : String
  capturedAtMs : U64
  deriving DecidableEq, Repr

/-- A child's terminal verdict. -/
inductive AcceptanceVerdict
  | accepted (evidence : List EvidenceRef)
  | rejected (reason : String)
  | terminated (reason : String)
  deriving DecidableEq, Repr

def AcceptanceVerdict.isAccepted : AcceptanceVerdict → Bool
  | .accepted _ => true
  | _ => false

def AcceptanceVerdict.isTerminated : AcceptanceVerdict → Bool
  | .terminated _ => true
  | _ => false

structure FleetChildRecord where
  schemaVersion : U32
  fleetId : String
  /-- `child_id == plan task_id`. -/
  childId : String
  workerKind : WorkerKind
  status : ChildStatus
  currentAttemptId : Option String
  attemptsUsed : U32
  outcome : Option AcceptanceVerdict
  tokensCommitted : U64
  /-- Task ids that must be `Succeeded` before this child is `Ready`. -/
  deps : List String
  pendingEscalation : Option EscalationRequest
  generation : U64
  updatedAtMs : U64
  deriving DecidableEq, Repr

/-- The daemon-boot lease guarding a live attempt. -/
structure Lease where
  ownerEpoch : U64
  expiresAtMs : U64
  deriving DecidableEq, Repr

structure ChildResultSnapshot where
  output : String
  success : Bool
  tokensUsed : U64
  files : List String
  error : Option String
  deriving DecidableEq, Repr

structure Attempt where
  schemaVersion : U32
  fleetId : String
  childId : String
  attemptId : String
  /-- Stamped at launch, never rewritten. -/
  generation : U64
  status : AttemptStatus
  lease : Lease
  reservedTokens : U64
  resultSnapshot : Option ChildResultSnapshot
  startedAtMs : U64
  endedAtMs : Option U64
  deriving DecidableEq, Repr

/-! ## The durable plan -/

inductive Verifier
  | manual
  | fileExists (path : String)
  | commandExit (cmd : String) (code : Int32)
  | validatorRef (id : String)
  deriving DecidableEq, Repr

structure AcceptanceCriterion where
  id : String
  description : String
  verifier : Verifier
  deriving DecidableEq, Repr

/-- One task of the durable plan: author intent, free of execution state. -/
structure PlanTask where
  taskId : String
  title : String
  detail : String
  deps : List String
  acceptance : List AcceptanceCriterion
  grant : WorkerGrant
  deriving DecidableEq, Repr

structure DurablePlan where
  schemaVersion : U32
  fleetId : String
  /-- Bumped on every mutation; every plan writer is a CAS on this value. -/
  revision : U64
  objective : String
  tasks : List PlanTask
  deriving DecidableEq, Repr

/-! ## Decision log and outbox -/

inductive DecisionKind
  | plan | launch | complete | reconcile | replan | cancel | note
  deriving DecidableEq, Repr

structure DecisionEntry where
  schemaVersion : U32
  seq : U64
  atMs : U64
  actor : String
  kind : DecisionKind
  note : String
  deriving DecidableEq, Repr

inductive FleetEventKind
  | childLaunching | childRunning | childDone | fleetDrained
  deriving DecidableEq, Repr

structure OutboxEvent where
  schemaVersion : U32
  sequence : U64
  eventId : String
  fleetId : String
  childId : Option String
  attemptId : Option String
  kind : FleetEventKind
  claimedBy : Option String
  claimToken : Option String
  claimExpiresAt : Option U64
  acked : Bool
  deriving DecidableEq, Repr

/-! ## The version guard -/

/-- A record that carries its schema version. -/
class Versioned (α : Type) where
  version : α → U32

instance : Versioned FleetRecord := ⟨FleetRecord.schemaVersion⟩
instance : Versioned FleetChildRecord := ⟨FleetChildRecord.schemaVersion⟩
instance : Versioned Attempt := ⟨Attempt.schemaVersion⟩
instance : Versioned DurablePlan := ⟨DurablePlan.schemaVersion⟩
instance : Versioned OutboxEvent := ⟨OutboxEvent.schemaVersion⟩
instance : Versioned DecisionEntry := ⟨DecisionEntry.schemaVersion⟩

/-- `decode_row`: drop a row whose version exceeds the current one. -/
def decodeRow {α : Type} [Versioned α] (row : α) : Option α :=
  if Versioned.version row > schemaVersionCurrent then none else some row

theorem decodeRow_eq_some {α : Type} [Versioned α] {row r : α} :
    decodeRow row = some r ↔ Versioned.version row ≤ schemaVersionCurrent ∧ row = r := by
  unfold decodeRow
  split
  · next h =>
      have hn : ¬ Versioned.version row ≤ schemaVersionCurrent := by
        simpa [BitVec.le_def, BitVec.lt_def] using h
      simp [hn]
  · next h =>
      have hp : Versioned.version row ≤ schemaVersionCurrent := by
        simpa [BitVec.le_def, BitVec.lt_def] using h
      simp [hp]

end Octos.Fleet
