/-
# `Octos.Fleet.Ops` — the kernel store as a transition system

One `Op` is one call of a mutating `FleetKernelStore` method with its
arguments; `Op.exec` runs it.  A call that aborts leaves the store as it was.
A step of the system is one call with its result, in any order and by any
caller: workers, keepers, boot passes and outbox consumers share one store and
every call is one atomic transaction, so a concurrent execution is a sequence
of such steps.

The one thing assumed of the environment is that `Uuid::new_v4` mints attempt
ids that no attempt row carries yet (`Op.Fresh`).
-/
import Octos.Fleet.Replan
import Octos.Lib.Run

namespace Octos.Fleet

/-- A call of a mutating store method.  Minted ids are arguments. -/
inductive Op
  | createFleet (fleetId : String) (controllerSessionKey : SessionKey)
      (controllerWorkspaceRoot : Option String) (profileId : String) (tokenBudget : U64)
      (hard : Bool) (nowMs : U64)
  | createPlan (plan : DurablePlan)
  | createFleetWithPlan (controllerSessionKey : SessionKey)
      (controllerWorkspaceRoot : Option String) (hasRuntimeHint : Option Bool)
      (profileId : String) (tokenBudget : U64) (hard : Bool) (plan : DurablePlan) (nowMs : U64)
  | addChild (fleetId childId : String) (deps : List String) (nowMs : U64)
  | markReady (fleetId childId : String) (nowMs : U64)
  | resolveAndCollectReady (fleetId : String) (nowMs : U64)
  | cancelFleet (fleetId : String) (nowMs : U64)
  | launchChild (fleetId childId : String) (projectedTokens nowMs ownerEpoch leaseTtlMs : U64)
      (attemptId eventId : String)
  | markRunning (childId attemptId : String)
  | completeChild (fleetId childId attemptId : String) (verdict : AcceptanceVerdict)
      (snapshot : ChildResultSnapshot) (actualTokens ownerEpoch nowMs : U64) (eventId : String)
  | recordEscalation (fleetId childId attemptId : String) (request : EscalationRequest)
      (actualTokens ownerEpoch nowMs : U64) (eventId : String)
  | replan (fleetId : String) (expectedRevision : U64) (newPlan : DurablePlan) (nowMs : U64)
  | retitleTask (fleetId : String) (expectedRevision : U64) (taskId title detail : String)
  | setTaskGrant (fleetId : String) (expectedRevision : U64) (taskId : String)
      (grant : WorkerGrant) (nowMs : U64)
  | denyEscalation (fleetId childId reason : String) (nowMs : U64) (eventId : String)
  | reconcile (nowMs ownerEpoch : U64)
  | appendEvent (event : OutboxEvent)
  | claimNext (consumer : String) (nowMs ttlMs : U64) (claimToken : String)
  | ack (sequence : U64) (consumer claimToken : String)
  | appendDecision (fleetId actor : String) (kind : DecisionKind) (note : String) (nowMs : U64)

/-- What a call returns when it does not abort. -/
inductive Ret
  | unit
  | bool (b : Bool)
  | ids (ids : List String)
  | launch (outcome : LaunchOutcome)
  | markRunning (outcome : MarkRunningOutcome)
  | complete (outcome : CompleteOutcome)
  | plan (outcome : PlanMutateOutcome)
  | deny (outcome : DenyEscalationOutcome)
  | interrupted (report : List InterruptedAttempt)
  | seq (sequence : U64)
  | claimed (event : Option OutboxEvent)
  | ack (outcome : AckOutcome)
  deriving DecidableEq

/-- Tag the outcome of a transaction. -/
def tagged {α : Type} (f : α → Ret) (r : Except StoreError (α × Store)) :
    Except StoreError (Ret × Store) :=
  match r with
  | .ok (a, s) => .ok (f a, s)
  | .error e => .error e

/-- Tag a transaction that returns nothing. -/
def taggedUnit (r : Except StoreError Store) : Except StoreError (Ret × Store) :=
  match r with
  | .ok s => .ok (.unit, s)
  | .error e => .error e

/-- The transaction of a call. -/
def Op.run : Op → Store → Except StoreError (Ret × Store)
  | .createFleet f k r p b h now, s => taggedUnit (Fleet.createFleet f k r p b h now s)
  | .createPlan p, s => tagged .plan (Fleet.createPlan p s)
  | .createFleetWithPlan k r hint p b h plan now, s =>
      taggedUnit (Fleet.createFleetWithPlan k r hint p b h plan now s)
  | .addChild f c deps now, s => taggedUnit (Fleet.addChild f c deps now s)
  | .markReady f c now, s => tagged .bool (Fleet.markReady f c now s)
  | .resolveAndCollectReady f now, s => tagged .ids (Fleet.resolveAndCollectReady f now s)
  | .cancelFleet f now, s => tagged .bool (Fleet.cancelFleet f now s)
  | .launchChild f c proj now epoch ttl a e, s =>
      tagged .launch (Fleet.launchChild f c proj now epoch ttl a e s)
  | .markRunning c a, s => tagged .markRunning (Fleet.markRunning c a s)
  | .completeChild f c a v snap actual epoch now e, s =>
      tagged .complete (Fleet.completeChild f c a v snap actual epoch now e s)
  | .recordEscalation f c a req actual epoch now e, s =>
      tagged .complete (Fleet.recordEscalation f c a req actual epoch now e s)
  | .replan f rev plan now, s => tagged .plan (Fleet.replan f rev plan now s)
  | .retitleTask f rev t title detail, s => tagged .plan (Fleet.retitleTask f rev t title detail s)
  | .setTaskGrant f rev t g now, s => tagged .plan (Fleet.setTaskGrant f rev t g now s)
  | .denyEscalation f c reason now e, s =>
      tagged .deny (Fleet.denyEscalation f c reason now e s)
  | .reconcile now epoch, s => tagged .interrupted (Fleet.reconcile now epoch s)
  | .appendEvent ev, s => tagged .seq (Fleet.appendEvent ev s)
  | .claimNext c now ttl tok, s => tagged .claimed (Fleet.claimNext c now ttl tok s)
  | .ack q c tok, s => tagged .ack (Fleet.ack q c tok s)
  | .appendDecision f actor kind note now, s =>
      tagged .seq (Fleet.appendDecision f actor kind note now s)

/-- Run a call: an aborted transaction keeps the store. -/
def Op.exec (op : Op) (s : Store) : Except StoreError Ret × Store :=
  match op.run s with
  | .ok (r, s') => (.ok r, s')
  | .error e => (.error e, s)

/-- The id a launch mints is carried by no attempt row yet. -/
def Op.Fresh (s : Store) : Op → Prop
  | .launchChild _ _ _ _ _ _ attemptId _ =>
      ∀ (k : String) (a : Attempt), s.attempts[k]? = some a → a.attemptId ≠ attemptId
  | _ => True

/-- A call together with what it returned. -/
structure Call where
  op : Op
  ret : Except StoreError Ret

/-- One atomic call. -/
def Step (s : Store) (c : Call) (s' : Store) : Prop :=
  c.op.Fresh s ∧ c.op.exec s = (c.ret, s')

theorem exec_ok {op : Op} {s s' : Store} {r : Ret} (h : op.run s = .ok (r, s')) :
    op.exec s = (.ok r, s') := by
  simp [Op.exec, h]

theorem exec_error {op : Op} {s : Store} {e : StoreError} (h : op.run s = .error e) :
    op.exec s = (.error e, s) := by
  simp [Op.exec, h]

/-- A step either commits what its transaction returned or changes nothing. -/
theorem Step.cases {s s' : Store} {c : Call} (h : Step s c s') :
    (∃ r, c.ret = .ok r ∧ c.op.run s = .ok (r, s')) ∨
    (∃ e, c.ret = .error e ∧ c.op.run s = .error e ∧ s' = s) := by
  obtain ⟨-, h⟩ := h
  unfold Op.exec at h
  split at h
  · next r t hr =>
      obtain ⟨hret, rfl⟩ := Prod.mk.inj h
      exact Or.inl ⟨r, hret.symm, hr⟩
  · next e he =>
      obtain ⟨hret, rfl⟩ := Prod.mk.inj h
      exact Or.inr ⟨e, hret.symm, he, rfl⟩

/-- A call that returned committed what it returned. -/
theorem Step.run_ok {s s' : Store} {op : Op} {r : Ret} (h : Step s ⟨op, .ok r⟩ s') :
    op.run s = .ok (r, s') := by
  rcases h.cases with ⟨r', hr, hrun⟩ | ⟨e, he, -⟩
  · rw [Except.ok.inj hr]
    exact hrun
  · cases he

/-- The states some sequence of calls reaches from the empty store. -/
def StoreReachable (s : Store) : Prop :=
  Reachable Step Store.empty s

/-! ## Executing a list of calls -/

/-- `Op.Fresh` as a test. -/
def Op.isFresh (s : Store) : Op → Bool
  | .launchChild _ _ _ _ _ _ attemptId _ =>
      s.attempts.toList.all (fun r => decide (r.2.attemptId ≠ attemptId))
  | _ => true

theorem Op.fresh_of_isFresh {s : Store} {op : Op} (h : op.isFresh s = true) : op.Fresh s := by
  cases op with
  | launchChild f c p now epoch ttl a e =>
      intro k att hatt
      have hall := List.all_eq_true.mp h (k, att) (Table.mem_rows.mpr hatt)
      simpa using hall
  | _ => trivial

/-- The calls made by executing `ops` in order, with their results. -/
def callsOf : List Op → Store → List Call
  | [], _ => []
  | op :: ops, s => ⟨op, (op.exec s).1⟩ :: callsOf ops (op.exec s).2

/-- The store after executing `ops` in order. -/
def execAll : List Op → Store → Store
  | [], s => s
  | op :: ops, s => execAll ops (op.exec s).2

/-- Every launch of the list mints an unused id. -/
def allFresh : List Op → Store → Bool
  | [], _ => true
  | op :: ops, s => op.isFresh s && allFresh ops (op.exec s).2

theorem callsOf_ops : ∀ (ops : List Op) (s : Store), (callsOf ops s).map Call.op = ops
  | [], _ => rfl
  | op :: ops, s => by simp [callsOf, callsOf_ops ops]

/-- Executing a list of calls is a run. -/
theorem run_execAll : ∀ (ops : List Op) (s : Store), allFresh ops s = true →
    Run Step s (callsOf ops s) (execAll ops s)
  | [], s, _ => .nil s
  | op :: ops, s, h => by
      simp only [allFresh, Bool.and_eq_true] at h
      have hstep : Step s ⟨op, (op.exec s).1⟩ (op.exec s).2 := ⟨Op.fresh_of_isFresh h.1, rfl⟩
      exact (Run.single hstep).append (run_execAll ops _ h.2)

theorem reachable_execAll {ops : List Op} (h : allFresh ops Store.empty = true) :
    StoreReachable (execAll ops Store.empty) :=
  ⟨_, run_execAll ops Store.empty h⟩

end Octos.Fleet
