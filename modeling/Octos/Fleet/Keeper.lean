/-
# `Octos.Fleet.Keeper` — keepers and executors sharing one store

The system in which a fleet is really used.  Any number of keepers edit plans
through `apply_edit`, which reads a snapshot in one transaction and writes in a
later one; between the two, every other party may run.  So a keeper has a
state: idle, or holding the store call its edit has decided on.  Executors,
operators and boot passes make single store calls.

    create     Fleet::create: validate, then one transaction
    begin      apply_edit up to its store call; it may already return
    commit     the store call of an edit that is in flight
    call       one store call of an executor, an operator or a boot pass

The sequential methods of `Octos.Fleet.Facade` are runs of this system
(`methods_reachable`).
-/
import Octos.Fleet.Facade
import Octos.Fleet.Evolve

namespace Octos.Fleet

/-- The arguments of an `apply_edit`. -/
structure EditRequest where
  fleetId : String
  edit : PlanEdit
  expectedRevision : U64
  nowMs : U64

/-- The arguments of a `Fleet::create`. -/
structure CreateRequest where
  fleetId : String
  key : SessionKey
  root : Option String
  hint : Option Bool
  profileId : String
  budget : FleetBudget
  objective : String
  specs : List TaskSpec
  nowMs : U64

def CreateRequest.op (req : CreateRequest) : Except FleetError Op :=
  createOp req.fleetId req.key req.root req.hint req.profileId req.budget req.objective req.specs
    req.nowMs

/-- An edit between its snapshot and its store call. -/
structure InFlight where
  req : EditRequest
  prepared : Prepared

def InFlight.commit (e : InFlight) (s : Store) : Except FleetError PlanMutateOutcome × Store :=
  e.prepared.commit e.req.fleetId e.req.expectedRevision e.req.nowMs s

/-- The store and what each keeper has in flight. -/
structure World where
  store : Store
  keepers : Nat → Option InFlight

def World.empty : World := ⟨Store.empty, fun _ => none⟩

/-- The store calls made outside of the `Fleet` methods that edit a plan. -/
def Op.IsExecutor : Op → Prop
  | .createFleet _ _ _ _ _ _ _ => False
  | .createPlan _ => False
  | .createFleetWithPlan _ _ _ _ _ _ _ _ => False
  | .addChild _ _ _ _ => False
  | .replan _ _ _ _ => False
  | .retitleTask _ _ _ _ _ => False
  | .setTaskGrant _ _ _ _ _ => False
  | _ => True

/-- What happened in a step. -/
inductive Event
  /-- A `Fleet::create` that validated, with the result of its transaction. -/
  | created (req : CreateRequest) (ret : Except StoreError Ret)
  /-- An edit took its snapshot and holds a store call. -/
  | began (keeper : Nat) (req : EditRequest)
  /-- An `apply_edit` returned. -/
  | returned (keeper : Nat) (req : EditRequest) (ret : Except FleetError PlanMutateOutcome)
  | called (call : Call)

/-- One atomic step of some party. -/
inductive KeeperStep : World → Event → World → Prop
  | create {s s' : Store} {ks : Nat → Option InFlight} {req : CreateRequest} {op : Op}
      {ret : Except StoreError Ret} (hop : req.op = .ok op) (hstep : Step s ⟨op, ret⟩ s') :
      KeeperStep ⟨s, ks⟩ (.created req ret) ⟨s', ks⟩
  | refuse {s : Store} {ks : Nat → Option InFlight} {k : Nat} {req : EditRequest}
      {ret : Except FleetError PlanMutateOutcome} (hidle : ks k = none)
      (hprep : prepareEdit req.fleetId req.edit req.expectedRevision s = ret.map .inl) :
      KeeperStep ⟨s, ks⟩ (.returned k req ret) ⟨s, ks⟩
  | begin {s : Store} {ks : Nat → Option InFlight} {k : Nat} {req : EditRequest} {p : Prepared}
      (hidle : ks k = none)
      (hprep : prepareEdit req.fleetId req.edit req.expectedRevision s = .ok (.inr p)) :
      KeeperStep ⟨s, ks⟩ (.began k req) ⟨s, Function.update ks k (some ⟨req, p⟩)⟩
  | commit {s s' : Store} {ks : Nat → Option InFlight} {k : Nat} {e : InFlight}
      {ret : Except FleetError PlanMutateOutcome} (hbusy : ks k = some e)
      (hrun : e.commit s = (ret, s')) :
      KeeperStep ⟨s, ks⟩ (.returned k e.req ret) ⟨s', Function.update ks k none⟩
  | call {s s' : Store} {ks : Nat → Option InFlight} {c : Call} (hop : c.op.IsExecutor)
      (hstep : Step s c s') : KeeperStep ⟨s, ks⟩ (.called c) ⟨s', ks⟩

/-- The worlds some interleaving reaches. -/
def KeeperReachable (w : World) : Prop :=
  Reachable KeeperStep World.empty w

variable {w w' : World} {s s' : Store} {ev : Event}

/-! ## Every step is at most one store call -/

/-- The store call of a prepared edit. -/
def Prepared.op (fleetId : String) (expectedRevision nowMs : U64) : Prepared → Op
  | .retitle taskId title detail => .retitleTask fleetId expectedRevision taskId title detail
  | .setGrant taskId grant => .setTaskGrant fleetId expectedRevision taskId grant nowMs
  | .replan newPlan _ => .replan fleetId expectedRevision newPlan nowMs

def InFlight.op (e : InFlight) : Op :=
  e.prepared.op e.req.fleetId e.req.expectedRevision e.req.nowMs

theorem Prepared.op_run (p : Prepared) (f : String) (rev now : U64) (s : Store) :
    (p.op f rev now).run s = tagged .plan (p.run f rev now s) := by
  cases p <;> rfl

theorem Prepared.op_fresh (p : Prepared) (f : String) (rev now : U64) (s : Store) :
    (p.op f rev now).Fresh s := by
  cases p <;> trivial

/-- A commit is one store call, and returns what that returned. -/
theorem InFlight.commit_step {e : InFlight} {ret : Except FleetError PlanMutateOutcome}
    (h : e.commit s = (ret, s')) :
    (∃ o, ret = e.prepared.result o ∧ Step s ⟨e.op, .ok (.plan o)⟩ s') ∨
      (∃ err, ret = .error (.store err) ∧ s' = s) := by
  unfold InFlight.commit Prepared.commit at h
  split at h
  · next err herr =>
      obtain ⟨rfl, rfl⟩ := Prod.mk.inj h
      exact Or.inr ⟨err, rfl, rfl⟩
  · next o t hok =>
      obtain ⟨rfl, rfl⟩ := Prod.mk.inj h
      refine Or.inl ⟨o, rfl, Prepared.op_fresh _ _ _ _ _, exec_ok ?_⟩
      show (e.prepared.op _ _ _).run s = _
      rw [Prepared.op_run, hok]
      rfl

/-- **A step of the system is a store call or leaves the store alone.** -/
theorem KeeperStep.store (h : KeeperStep w ev w') :
    w'.store = w.store ∨ ∃ c, Step w.store c w'.store := by
  cases h with
  | create _ hstep => exact Or.inr ⟨_, hstep⟩
  | refuse => exact Or.inl rfl
  | begin => exact Or.inl rfl
  | commit _ hrun =>
      rcases InFlight.commit_step hrun with ⟨o, -, hstep⟩ | ⟨err, -, hs⟩
      · exact Or.inr ⟨_, hstep⟩
      · exact Or.inl hs
  | call _ hstep => exact Or.inr ⟨_, hstep⟩

theorem KeeperStep.inv (hinv : Inv w.store.toTables) (h : KeeperStep w ev w') :
    Inv w'.store.toTables := by
  rcases h.store with heq | ⟨c, hstep⟩
  · rw [heq]
    exact hinv
  · exact hinv.step hstep

theorem KeeperReachable.inv (h : KeeperReachable w) : Inv w.store.toTables :=
  Reachable.invariant (I := fun w : World => Inv w.store.toTables) Inv.empty
    (fun _ _ _ hi hs => hs.inv hi) h

/-! ## The sequential methods are runs -/

theorem execAll_run (ks : Nat → Option InFlight) : ∀ (ops : List Op) (s : Store),
    (∀ op ∈ ops, op.IsExecutor ∧ ∀ t, op.Fresh t) →
    ∃ es, Run KeeperStep ⟨s, ks⟩ es ⟨execAll ops s, ks⟩ := by
  intro ops
  induction ops with
  | nil =>
      intro s _
      exact ⟨[], .nil _⟩
  | cons op ops ih =>
      intro s hops
      obtain ⟨hexec, hfresh⟩ := hops op List.mem_cons_self
      have hstep : KeeperStep ⟨s, ks⟩ (.called ⟨op, (op.exec s).1⟩) ⟨(op.exec s).2, ks⟩ :=
        .call hexec ⟨hfresh s, rfl⟩
      obtain ⟨es, hrest⟩ := ih (op.exec s).2 (fun op h => hops op (List.mem_cons_of_mem _ h))
      exact ⟨_, (Run.single hstep).append hrest⟩

theorem note_run (ks : Nat → Option InFlight) (f text : String) (kind : DecisionKind)
    (now : U64) (s : Store) : ∃ es, Run KeeperStep ⟨s, ks⟩ es ⟨note f kind text now s, ks⟩ := by
  refine execAll_run ks [.appendDecision f "keeper" kind text now] s ?_
  intro op hop
  obtain rfl := List.mem_singleton.mp hop
  exact ⟨trivial, fun _ => trivial⟩

/-- `Fleet::create` is a run. -/
theorem create_run {ks : Nat → Option InFlight} (req : CreateRequest) (s : Store) :
    ∃ es, Run KeeperStep ⟨s, ks⟩ es ⟨(create req.fleetId req.key req.root req.hint req.profileId
      req.budget req.objective req.specs req.nowMs s).2, ks⟩ := by
  unfold create
  split
  · exact ⟨[], .nil _⟩
  · next op hop =>
      have hfresh : op.Fresh s := by
        obtain ⟨-, rfl⟩ := createOp_ok hop
        trivial
      have hop' : req.op = .ok op := hop
      split
      · next e s' hexec =>
          exact ⟨_, .single (.create hop' ⟨hfresh, hexec⟩)⟩
      · next r s' hexec =>
          have hfirst : Run KeeperStep ⟨s, ks⟩ [.created req (.ok r)] ⟨s', ks⟩ :=
            .single (.create hop' ⟨hfresh, hexec⟩)
          obtain ⟨es, hnote⟩ := note_run ks req.fleetId _ .plan req.nowMs s'
          exact ⟨_, hfirst.append hnote⟩

/-- `apply_edit`, run alone by an idle keeper, is a run that returns what the
method returns. -/
theorem applyEdit_run {ks : Nat → Option InFlight} {k : Nat} (hidle : ks k = none)
    (req : EditRequest) (s : Store) :
    ∃ es, Run KeeperStep ⟨s, ks⟩ es
        ⟨(applyEdit req.fleetId req.edit req.expectedRevision req.nowMs s).2, ks⟩ ∧
      .returned k req (applyEdit req.fleetId req.edit req.expectedRevision req.nowMs s).1 ∈ es := by
  unfold applyEdit
  split
  · next e he =>
      exact ⟨_, .single (.refuse hidle he), List.mem_singleton_self _⟩
  · next o ho =>
      refine ⟨_, .single (.refuse hidle ?_), List.mem_singleton_self _⟩
      exact ho
  · next p hp =>
      have hbegin : Run KeeperStep ⟨s, ks⟩ [.began k req]
          ⟨s, Function.update ks k (some ⟨req, p⟩)⟩ := .single (.begin hidle hp)
      have hcommit : ∀ ret t, p.commit req.fleetId req.expectedRevision req.nowMs s = (ret, t) →
          Run KeeperStep ⟨s, ks⟩ [.began k req, .returned k req ret] ⟨t, ks⟩ := by
        intro ret t hrun
        have hstep : KeeperStep ⟨s, Function.update ks k (some ⟨req, p⟩)⟩
            (.returned k req ret) ⟨t, Function.update (Function.update ks k (some ⟨req, p⟩)) k
              none⟩ :=
          .commit (e := ⟨req, p⟩) (Function.update_self _ _ _) hrun
        rw [Function.update_idem, ← hidle, Function.update_eq_self] at hstep
        exact hbegin.append (.single hstep)
      split
      · next v t hrun =>
          obtain ⟨es, hnote⟩ := note_run ks req.fleetId p.entry.2 p.entry.1 req.nowMs t
          exact ⟨_, (hcommit _ _ hrun).append hnote, by simp⟩
      · next r t _ hrun => exact ⟨_, hcommit _ _ hrun, by simp⟩

/-- `record_outcome` is a run. -/
theorem recordOutcome_run {ks : Nat → Option InFlight} (f task att : String)
    (verdict : AcceptanceVerdict) (actual epoch now : U64) (eid : String) (s : Store) :
    ∃ es, Run KeeperStep ⟨s, ks⟩ es
      ⟨(recordOutcome f task att verdict actual epoch now eid s).2, ks⟩ := by
  let op : Op := .completeChild f task att verdict (snapshotFromVerdict verdict actual) actual
    epoch now eid
  have hcall : ∀ o t, completeChild f task att verdict (snapshotFromVerdict verdict actual)
      actual epoch now eid s = .ok (o, t) →
      Run KeeperStep ⟨s, ks⟩ [.called ⟨op, .ok (.complete o)⟩] ⟨t, ks⟩ := by
    intro o t hrun
    refine .single (.call trivial ⟨trivial, exec_ok ?_⟩)
    exact tagged_ok.mpr ⟨o, hrun, rfl⟩
  unfold recordOutcome
  split
  · exact ⟨[], .nil _⟩
  · next t hrun => exact ⟨_, hcall _ _ hrun⟩
  · next t hrun =>
      obtain ⟨es, hnote⟩ := note_run ks f (describeVerdict task verdict) .complete now t
      unfold resolveReady
      split
      · obtain ⟨es', hready⟩ := execAll_run ks
          (markReadyOps f now (listChildren f _)) (note f .complete _ now t) (by
            intro op' hop
            obtain ⟨c, -, rfl⟩ := List.mem_map.mp hop
            exact ⟨trivial, fun _ => trivial⟩)
        exact ⟨_, ((hcall _ _ hrun).append hnote).append hready⟩
      · exact ⟨_, (hcall _ _ hrun).append hnote⟩

/-- A method of `Fleet`, called while nothing else runs. -/
inductive Method
  | creation (req : CreateRequest)
  | edit (req : EditRequest)
  | outcome (fleetId taskId attemptId : String) (verdict : AcceptanceVerdict)
      (actualTokens ownerEpoch nowMs : U64) (eventId : String)

def Method.exec (s : Store) : Method → Store
  | .creation req => (create req.fleetId req.key req.root req.hint req.profileId req.budget
      req.objective req.specs req.nowMs s).2
  | .edit req => (applyEdit req.fleetId req.edit req.expectedRevision req.nowMs s).2
  | .outcome f task att verdict actual epoch now eid =>
      (recordOutcome f task att verdict actual epoch now eid s).2

/-- **One caller is a case of many.**  Methods that are called one after the other reach only
what some interleaving reaches, and leave the store consistent. -/
theorem methods_reachable (ms : List Method) :
    KeeperReachable ⟨ms.foldl Method.exec Store.empty, fun _ => none⟩ ∧
      Inv (ms.foldl Method.exec Store.empty).toTables := by
  have hreach : KeeperReachable ⟨ms.foldl Method.exec Store.empty, fun _ => none⟩ := by
    induction ms using List.reverseRecOn with
    | nil => exact Reachable.refl
    | append_singleton ms m ih =>
        rw [List.foldl_append]
        cases m with
        | creation req =>
            obtain ⟨es, hrun⟩ := create_run req _
            exact ih.trans_run hrun
        | edit req =>
            obtain ⟨es, hrun, -⟩ := @applyEdit_run (fun _ => none) 0 rfl req _
            exact ih.trans_run hrun
        | outcome f task att verdict actual epoch now eid =>
            obtain ⟨es, hrun⟩ := recordOutcome_run f task att verdict actual epoch now eid _
            exact ih.trans_run hrun
  exact ⟨hreach, hreach.inv⟩

/-! ## Playing a schedule -/

instance (op : Op) : Decidable op.IsExecutor := by
  cases op <;> unfold Op.IsExecutor <;> infer_instance

/-- A scheduling choice: which party moves. -/
inductive Move
  | create (req : CreateRequest)
  | edit (keeper : Nat) (req : EditRequest)
  | commit (keeper : Nat)
  | call (op : Op)

/-- The step a choice fires, if it can. -/
def World.move (w : World) : Move → Option (Event × World)
  | .create req =>
      match req.op with
      | .error _ => none
      | .ok op => some (.created req (op.exec w.store).1, ⟨(op.exec w.store).2, w.keepers⟩)
  | .edit k req =>
      match w.keepers k with
      | some _ => none
      | none =>
          match prepareEdit req.fleetId req.edit req.expectedRevision w.store with
          | .error e => some (.returned k req (.error e), w)
          | .ok (.inl o) => some (.returned k req (.ok o), w)
          | .ok (.inr p) =>
              some (.began k req, ⟨w.store, Function.update w.keepers k (some ⟨req, p⟩)⟩)
  | .commit k =>
      match w.keepers k with
      | none => none
      | some e =>
          some (.returned k e.req (e.commit w.store).1,
            ⟨(e.commit w.store).2, Function.update w.keepers k none⟩)
  | .call op =>
      if op.IsExecutor ∧ op.isFresh w.store = true then
        some (.called ⟨op, (op.exec w.store).1⟩, ⟨(op.exec w.store).2, w.keepers⟩)
      else none

theorem World.move_step {m : Move} (h : w.move m = some (ev, w')) : KeeperStep w ev w' := by
  obtain ⟨s, ks⟩ := w
  cases m with
  | create req =>
      simp only [World.move] at h
      split at h
      · cases h
      · next op hop =>
          obtain ⟨rfl, rfl⟩ := Prod.mk.inj (Option.some.inj h)
          refine .create hop ⟨?_, rfl⟩
          obtain ⟨-, rfl⟩ := createOp_ok hop
          trivial
  | edit k req =>
      simp only [World.move] at h
      split at h
      · cases h
      · next hidle =>
          split at h
          · next e he =>
              obtain ⟨rfl, rfl⟩ := Prod.mk.inj (Option.some.inj h)
              exact .refuse hidle he
          · next o ho =>
              obtain ⟨rfl, rfl⟩ := Prod.mk.inj (Option.some.inj h)
              exact .refuse hidle ho
          · next p hp =>
              obtain ⟨rfl, rfl⟩ := Prod.mk.inj (Option.some.inj h)
              exact .begin hidle hp
  | commit k =>
      simp only [World.move] at h
      split at h
      · cases h
      · next e hbusy =>
          obtain ⟨rfl, rfl⟩ := Prod.mk.inj (Option.some.inj h)
          exact .commit hbusy rfl
  | call op =>
      simp only [World.move] at h
      split at h
      · next hop =>
          obtain ⟨rfl, rfl⟩ := Prod.mk.inj (Option.some.inj h)
          exact .call hop.1 ⟨Op.fresh_of_isFresh hop.2, rfl⟩
      · cases h

/-- A whole schedule; a choice that cannot move is passed over. -/
def World.play (w : World) : List Move → List Event × World
  | [] => ([], w)
  | m :: ms =>
      match w.move m with
      | none => w.play ms
      | some (e, w') => (e :: (w'.play ms).1, (w'.play ms).2)

theorem World.play_run : ∀ (ms : List Move) (w : World),
    Run KeeperStep w (w.play ms).1 (w.play ms).2 := by
  intro ms
  induction ms with
  | nil => exact fun w => .nil w
  | cons m ms ih =>
      intro w
      rw [World.play]
      split
      · exact ih w
      · next e w' hm => exact (Run.single (World.move_step hm)).append (ih w')

end Octos.Fleet
