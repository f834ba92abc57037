/-
# `Octos.Fleet.Correspond` — the plan and the child rows agree

A fleet has its tasks twice: in the plan document, which keepers edit, and in
the child rows, which executors move.  While the fleet is live the two agree:

* the plan is a valid graph;
* every task has its row, with the task's own dependencies, not `Cancelled`;
* every other row of the fleet is `Cancelled` and works on nothing.

A task that left the plan and came back starts over.  Its row is `Cancelled`
while it is out (the third part), a cancelled row is revived without an
attempt, and a row succeeds by an accepted attempt only; so its success was
launched and accepted after it came back.
-/
import Octos.Fleet.Linearize

namespace Octos.Fleet

variable {f c : String} {k : Kind} {t t' : Tables} {s s' : Store} {w w' : World} {ev : Event}

/-! ## The correspondence -/

/-- The rows of a fleet are those of its plan. -/
structure Corresponds (t : Tables) (f : String) (p : DurablePlan) : Prop where
  valid : ValidGraph p.tasks
  task : ∀ task ∈ p.tasks, ∃ ch, t.children[childKey f task.taskId]? = some ch ∧
    ch.deps = task.deps ∧ ch.status ≠ .cancelled
  stray : ∀ (j : String) (ch : FleetChildRecord), t.children[j]? = some ch → ch.fleetId = f →
    ch.childId ∉ taskIds p.tasks → ch.status = .cancelled ∧ ch.currentAttemptId = none

/-- Every live fleet has a plan its rows correspond to. -/
def Mirrored (t : Tables) : Prop :=
  ∀ (f : String) (fl : FleetRecord), t.fleets[f]? = some fl → fleetIsLive fl = true →
    ∃ p, t.plans[f]? = some p ∧ Corresponds t f p

theorem Mirrored.empty : Mirrored Store.empty.toTables := by
  intro f fl hfl
  simp [Store.empty] at hfl

/-- The correspondence is about the rows of one fleet. -/
theorem Corresponds.frame {p : DurablePlan} (hwf : WellFormed t) (h : Corresponds t f p)
    (hsame : SameRows f t t') : Corresponds t' f p where
  valid := h.valid
  task := by
    intro task htask
    obtain ⟨ch, hch, hdeps, hst⟩ := h.task task htask
    exact ⟨ch, (hsame.children _ ch (hwf.child_ids hch).1).mpr hch, hdeps, hst⟩
  stray := by
    intro j ch hch hf hc
    exact h.stray j ch ((hsame.children j ch hf).mp hch) hf hc

/-! ## Moves -/

/-- A child that has been removed does not move. -/
theorem ChildMove.not_cancelled {met : Prop} {fl fl' : FleetRecord} {ch ch' : FleetChildRecord}
    {o o' : Option Attempt} (h : ChildMove met fl ch k o fl' ch' o') : ch.status ≠ .cancelled := by
  intro hc
  cases h with
  | reclaim hst =>
      rw [hc] at hst
      rcases hst with h | h <;> cases h
  | promote _ _ hst => rw [hc] at hst; cases hst
  | launch _ _ hst => rw [hc] at hst; cases hst
  | run _ hst => rw [hc] at hst; cases hst
  | complete _ _ _ hst => rw [hc] at hst; cases hst
  | escalate _ _ hst => rw [hc] at hst; cases hst
  | grant _ _ hst => rw [hc] at hst; cases hst
  | deny _ _ _ hst => rw [hc] at hst; cases hst

/-- Nor does a move remove a child of a live fleet. -/
theorem ChildMove.stays {met : Prop} {fl fl' : FleetRecord} {ch ch' : FleetChildRecord}
    {o o' : Option Attempt} (h : ChildMove met fl ch k o fl' ch' o')
    (hlive : fleetIsLive fl = true) : ch'.status ≠ .cancelled := by
  cases h with
  | complete verdict => cases hv : verdict.isAccepted <;> simp
  | reclaim => simp [hlive]
  | _ => simp

theorem Corresponds.move {p : DurablePlan} {fl fl' : FleetRecord} {ch ch' : FleetChildRecord}
    {o o' : Option Attempt} {met : Prop} (hwf : WellFormed t) (h : Corresponds t f p)
    (hch : t.children[childKey f c]? = some ch) (hlive : fleetIsLive fl = true)
    (hmove : ChildMove met fl ch k o fl' ch' o') : Corresponds (t.put fl' ch' o') f p := by
  obtain ⟨hf, hc⟩ := hwf.child_ids hch
  have hkc := hmove.childKept
  have hkey : childKey ch'.fleetId ch'.childId = childKey f c := by
    rw [hkc.fleetId, hkc.childId, hf, hc]
  have hrows : (t.put fl' ch' o').children = t.children.insert (childKey f c) ch' := by
    show t.children.insert (childKey ch'.fleetId ch'.childId) ch' = _
    rw [hkey]
  refine ⟨h.valid, ?_, ?_⟩
  · intro task htask
    obtain ⟨x, hx, hdeps, hst⟩ := h.task task htask
    rw [hrows]
    by_cases hk : childKey f c = childKey f task.taskId
    · rw [← hk] at hx ⊢
      obtain rfl := Option.some.inj (hch.symm.trans hx)
      exact ⟨ch', Table.get_insert_self _ _ _, hkc.deps.trans hdeps, hmove.stays hlive⟩
    · exact ⟨x, (Table.get_insert_ne _ _ hk).trans hx, hdeps, hst⟩
  · intro j x hx hfx hcx
    rw [hrows] at hx
    rcases Table.of_get_insert hx with ⟨rfl, rfl⟩ | ⟨-, hx⟩
    · -- a stray row is cancelled, and those do not move
      rw [hkc.childId] at hcx
      exact absurd (h.stray _ _ hch hf hcx).1 hmove.not_cancelled
    · exact h.stray j x hx hfx hcx

/-! ## Edits and re-plans -/

theorem SameGraph.mem {p p' : DurablePlan} (h : SameGraph p p') {task' : PlanTask}
    (hmem : task' ∈ p'.tasks) :
    ∃ task ∈ p.tasks, task.taskId = task'.taskId ∧ task.deps = task'.deps := by
  have hpair : (task'.taskId, task'.deps) ∈ p.tasks.map (fun t => (t.taskId, t.deps)) :=
    h ▸ List.mem_map_of_mem hmem
  obtain ⟨task, htask, heq⟩ := List.mem_map.mp hpair
  exact ⟨task, htask, (Prod.mk.inj heq).1, (Prod.mk.inj heq).2⟩

theorem SameGraph.taskIds {p p' : DurablePlan} (h : SameGraph p p') :
    Fleet.taskIds p'.tasks = Fleet.taskIds p.tasks := by
  have hfst := congrArg (List.map Prod.fst) h
  simpa [Fleet.taskIds, Function.comp_def] using hfst

theorem Corresponds.edit {p p' : DurablePlan} (h : Corresponds t f p) (hgraph : SameGraph p p')
    (hrows : t'.children = t.children) : Corresponds t' f p' where
  valid := h.valid.congr hgraph
  task := by
    intro task' htask'
    obtain ⟨task, htask, hid, hdeps⟩ := hgraph.mem htask'
    rw [hrows, ← hid, ← hdeps]
    exact h.task task htask
  stray := by
    intro j ch hch
    rw [hgraph.taskIds]
    rw [hrows] at hch
    exact h.stray j ch hch

/-- **A re-plan to a valid graph makes the rows those of the new plan**,
whatever they were. -/
theorem Replanned.corresponds (hwf : WellFormed t) (R : Replanned f t t')
    (hvalid : ValidGraph R.plan'.tasks) : Corresponds t' f R.plan' where
  valid := hvalid
  task := by
    intro task htask
    cases hold : t.children[childKey f task.taskId]? with
    | none =>
        obtain ⟨task', htask', hid, hrow⟩ := R.fresh task htask hold
        obtain rfl := hvalid.task_eq htask' htask hid
        refine ⟨_, hrow, rfl, ?_⟩
        rcases readiness_cases R.succeeded task'.deps with ⟨h, -⟩ | h <;> simp [freshChild, h]
    | some ch =>
        obtain ⟨hf, hc⟩ := hwf.child_ids hold
        obtain ⟨i, hrow, -⟩ := R.existing _ ch hold hf
        refine ⟨_, hrow, ?_⟩
        rcases replanRow_cases R.plan'.tasks R.succeeded R.newGen R.nowMs i ch with
          ⟨task', htask', hid, hdeps, -, hst, -⟩ | ⟨task', htask', hid, hdeps, -, hst, -⟩ |
            ⟨hout, -⟩
        · obtain rfl := hvalid.task_eq htask' htask (hid.trans hc)
          exact ⟨hdeps, by simp [hst]⟩
        · obtain rfl := hvalid.task_eq htask' htask (hid.trans hc)
          refine ⟨hdeps, ?_⟩
          rcases readiness_cases R.succeeded task'.deps with ⟨h, -⟩ | h <;> simp [hst, h]
        · exact absurd hc.symm (hout task htask)
  stray := by
    intro j ch' hch' hf hc
    rcases R.child_cases hch' with ⟨-, hne⟩ | ⟨ch, i, -, -, rfl, -⟩ | ⟨-, task, htask, -, rfl⟩
    · exact absurd hf hne
    · rw [(replanRow_kept _ _ _ _ i ch).2.1] at hc
      rcases replanRow_cases R.plan'.tasks R.succeeded R.newGen R.nowMs i ch with
        ⟨task, htask, hid, -⟩ | ⟨task, htask, hid, -⟩ | ⟨-, -, hst, -, -, hcur⟩
      · exact absurd (hid ▸ List.mem_map_of_mem htask) hc
      · exact absurd (hid ▸ List.mem_map_of_mem htask) hc
      · exact ⟨hst, hcur⟩
    · exact absurd (List.mem_map_of_mem htask) hc

/-! ## Preservation -/

/-- The effects after a fleet's creation. -/
def Kind.later : Kind → Prop
  | .newFleet | .newPlan | .newChild _ => False
  | _ => True

/-- **Every later effect keeps the correspondence**, a re-plan if its plan is
valid. -/
theorem Mirrored.effect {g : String} (hinv : Inv t) (h : Mirrored t) (he : Effect g k t t')
    (hk : k.later) (hvalid : k = .replan → ∀ p, t'.plans[g]? = some p → ValidGraph p.tasks) :
    Mirrored t' := by
  intro f fl' hfl' hlive'
  cases hold : t.fleets[f]? with
  | none =>
      rw [(he.fleet_new hinv.wf hold hfl').1] at hk
      exact absurd hk id
  | some fl =>
      by_cases hg : g = f
      · subst hg
        cases he with
        | newFleet => exact absurd hk id
        | newPlan => exact absurd hk id
        | newChild => exact absurd hk id
        | @move _ _ x x' c ch ch' o o' hx hch hslot hmove =>
            obtain rfl := Option.some.inj (hx.symm.trans hold)
            have hid : x'.fleetId = g := hmove.fleetKept.fleetId.trans (hinv.wf.fleet _ _ hx).1
            have hput : (t.fleets.insert x'.fleetId x')[g]? = some fl' := hfl'
            rw [hid, Table.get_insert_self] at hput
            obtain rfl := Option.some.inj hput
            have hlive := hmove.fleetKept.isLive.symm.trans hlive'
            obtain ⟨p, hp, hcor⟩ := h g x hx hlive
            exact ⟨p, hp, hcor.move hinv.wf hch hlive hmove⟩
        | @edit _ x p p' hx hlive hplan hgraph =>
            obtain ⟨q, hq, hcor⟩ := h g x hx hlive
            obtain rfl := Option.some.inj (hplan.symm.trans hq)
            exact ⟨p', Table.get_insert_self _ _ _, hcor.edit hgraph rfl⟩
        | cancel nowMs hx =>
            have hrow : fl' = _ :=
              (Option.some.inj ((Table.get_insert_self _ _ _).symm.trans hfl')).symm
            rw [hrow] at hlive'
            cases hlive'
        | replan R =>
            have hplan : t'.plans[g]? = some R.plan' := by
              rw [R.plans]
              exact Table.get_insert_self _ _ _
            exact ⟨R.plan', hplan, R.corresponds hinv.wf (hvalid rfl _ hplan)⟩
      · have hsame := he.frame hinv.wf hg
        obtain rfl := Option.some.inj ((hsame.fleet.trans hold).symm.trans hfl')
        obtain ⟨p, hp, hcor⟩ := h f fl hold hlive'
        exact ⟨p, hsame.plan.trans hp, hcor.frame hinv.wf hsame⟩

theorem Mirrored.effects {P : String → Kind → Prop} (hinv : Inv t) (h : Mirrored t)
    (he : Effects P t t') (hP : ∀ g k, P g k → k.later ∧ k ≠ .replan) : Mirrored t' := by
  have hboth : Inv t' ∧ Mirrored t' := by
    refine he.keep (I := fun t => Inv t ∧ Mirrored t) ?_ ⟨hinv, h⟩
    intro g k u u' hk hstep hu
    exact ⟨hu.1.effect hstep, hu.2.effect hu.1 hstep (hP g k hk).1
      (fun hr => absurd hr (hP g k hk).2)⟩
  exact hboth.2

/-! ## Creation -/

/-- The rows of a genesis plan: one fresh row per task, and the rows that were
there. -/
theorem createChildren_rows {nowMs : U64} :
    ∀ (tasks : List PlanTask) {children children' : Table String FleetChildRecord},
      createChildren f nowMs tasks children = .ok children' →
      (∀ (j : String) (ch : FleetChildRecord), children[j]? = some ch →
        children'[j]? = some ch) ∧
      (∀ task ∈ tasks, children'[childKey f task.taskId]? =
        some (freshChild f task.taskId task.deps (genesisStatus task.deps) 0 nowMs)) ∧
      (∀ (j : String) (ch : FleetChildRecord), children'[j]? = some ch →
        children[j]? = some ch ∨ ∃ task ∈ tasks, ch.childId = task.taskId ∧ ch.fleetId = f) := by
  intro tasks
  induction tasks with
  | nil =>
      intro children children' h
      obtain rfl := Except.ok.inj h
      exact ⟨fun _ _ h => h, by simp, fun _ _ h => Or.inl h⟩
  | cons task tasks ih =>
      intro children children' h
      unfold createChildren at h
      split at h
      · cases h
      next hnone =>
        have hnone : children[childKey f task.taskId]? = none := by simpa using hnone
        obtain ⟨hkept, hnew, hfrom⟩ := ih h
        refine ⟨?_, ?_, ?_⟩
        · intro j ch hch
          refine hkept j ch ((Table.get_insert_ne _ _ ?_).trans hch)
          rintro rfl
          rw [hnone] at hch
          cases hch
        · intro task' htask'
          rcases List.mem_cons.mp htask' with rfl | htask'
          · exact hkept _ _ (Table.get_insert_self _ _ _)
          · exact hnew task' htask'
        · intro j ch hch
          rcases hfrom j ch hch with hold | ⟨task', htask', hid⟩
          · rcases Table.of_get_insert hold with ⟨-, rfl⟩ | ⟨-, hold⟩
            · exact Or.inr ⟨task, List.mem_cons_self, rfl, rfl⟩
            · exact Or.inl hold
          · exact Or.inr ⟨task', List.mem_cons_of_mem _ htask', hid⟩

theorem createFleetWithPlan_fleets {key : SessionKey} {root : Option String}
    {hint : Option Bool} {profile : String} {budget : U64} {hard : Bool} {plan : DurablePlan}
    {nowMs : U64}
    (h : createFleetWithPlan key root hint profile budget hard plan nowMs s = .ok s') :
    s'.fleets = s.fleets.insert plan.fleetId
      (freshFleet plan.fleetId key root hint profile budget hard nowMs) := by
  unfold createFleetWithPlan at h
  simp only [bind_ok, ensureKeySafe_ok, guard_ok, pure_ok] at h
  obtain ⟨-, -, -, -, children, -, rfl⟩ := h
  rfl

/-- A fleet created from a valid graph corresponds to its plan. -/
theorem Mirrored.create {key : SessionKey} {root : Option String} {hint : Option Bool}
    {profile : String} {budget : U64} {hard : Bool} {plan : DurablePlan} {nowMs : U64}
    (hinv : Inv s.toTables) (h : Mirrored s.toTables) (hvalid : ValidGraph plan.tasks)
    (hrun : createFleetWithPlan key root hint profile budget hard plan nowMs s = .ok s') :
    Mirrored s'.toTables := by
  obtain ⟨he, -, hnone, hplans, hrows⟩ := createFleetWithPlan_spec hrun
  obtain ⟨hkept, hnew, hfrom⟩ := createChildren_rows plan.tasks hrows
  intro f fl' hfl' hlive'
  by_cases hf : plan.fleetId = f
  · subst hf
    have hplan : s'.plans[plan.fleetId]? =
        some { plan with schemaVersion := schemaVersionCurrent } := by
      rw [hplans]
      exact Table.get_insert_self _ _ _
    refine ⟨_, hplan, hvalid, ?_, ?_⟩
    · intro task htask
      refine ⟨_, hnew task htask, rfl, ?_⟩
      rcases genesisStatus_cases task.deps with ⟨h, -⟩ | h <;> simp [freshChild, h]
    · intro j ch hch hcf hc
      rcases hfrom j ch hch with hold | ⟨task, htask, hid, -⟩
      · -- a fleet that does not exist has no children
        obtain ⟨fl, hfl⟩ := hinv.wf.childFleet _ _ hold
        rw [hcf, hnone] at hfl
        cases hfl
      · exact absurd (hid ▸ List.mem_map_of_mem htask) hc
  · cases hold : s.fleets[f]? with
    | none =>
        have hrow := createFleetWithPlan_fleets hrun
        rw [hrow, Table.get_insert_ne _ _ hf, hold] at hfl'
        cases hfl'
    | some fl =>
        have hsame := he.frame hinv (fun _ _ hk heq => hf (hk.1.symm.trans heq))
        obtain rfl := Option.some.inj ((hsame.fleet.trans hold).symm.trans hfl')
        obtain ⟨p, hp, hcor⟩ := h f fl hold hlive'
        exact ⟨p, hsame.plan.trans hp, hcor.frame hinv.wf hsame⟩

/-! ## The invariant of the system -/

theorem Op.IsExecutor.later {op : Op} (h : op.IsExecutor) {g : String} (hk : op.Allows g k) :
    k.later ∧ k ≠ .replan := by
  cases op with
  | createFleet => exact absurd h id
  | createPlan => exact absurd h id
  | createFleetWithPlan => exact absurd h id
  | addChild => exact absurd h id
  | replan => exact absurd h id
  | retitleTask => exact absurd h id
  | setTaskGrant => exact absurd h id
  | markReady => obtain ⟨-, rfl⟩ := hk; exact ⟨trivial, by simp⟩
  | resolveAndCollectReady => obtain ⟨-, c, rfl⟩ := hk; exact ⟨trivial, by simp⟩
  | cancelFleet => obtain ⟨-, rfl⟩ := hk; exact ⟨trivial, by simp⟩
  | launchChild => obtain ⟨-, rfl⟩ := hk; exact ⟨trivial, by simp⟩
  | markRunning => obtain rfl := hk; exact ⟨trivial, by simp⟩
  | completeChild => obtain ⟨-, r, rfl⟩ := hk; exact ⟨trivial, by simp⟩
  | recordEscalation => obtain ⟨-, r, rfl⟩ := hk; exact ⟨trivial, by simp⟩
  | denyEscalation => obtain ⟨-, rfl | rfl⟩ := hk <;> exact ⟨trivial, by simp⟩
  | reconcile => obtain ⟨c, a, l, rfl⟩ := hk; exact ⟨trivial, by simp⟩
  | appendEvent => exact absurd hk id
  | claimNext => exact absurd hk id
  | ack => exact absurd hk id
  | appendDecision => exact absurd hk id

/-- The commit of an edit keeps the correspondence: what it re-plans to was
validated, against whichever snapshot. -/
theorem Mirrored.commit {e : InFlight} {ret : Except FleetError PlanMutateOutcome}
    (hinv : Inv s.toTables) (h : Mirrored s.toTables) (hcur : e.Current s.toTables)
    (hrun : e.commit s = (ret, s')) : Mirrored s'.toTables := by
  rcases InFlight.commit_step hrun with ⟨o, -, hstep⟩ | ⟨err, -, rfl⟩
  · obtain ⟨⟨f, edit, rev, now⟩, prepared⟩ := e
    obtain ⟨p, -, -, children, hdec⟩ := hcur
    have hdec : decideEdit f edit rev p children = .ok prepared := hdec
    rcases decideEdit_ok hdec with ⟨task, title, detail, -, rfl⟩ | ⟨task, grant, -, rfl⟩ |
      ⟨tasks, text, -, hvalid, rfl⟩
    · refine h.effects hinv (hstep.effects hinv) ?_
      rintro g k ⟨-, rfl⟩
      exact ⟨trivial, by simp⟩
    · refine h.effects hinv (hstep.effects hinv) ?_
      rintro g k ⟨-, rfl | rfl⟩ <;> exact ⟨trivial, by simp⟩
    · obtain ⟨o', hop, -⟩ := tagged_ok.mp hstep.run_ok
      rcases replan_spec hinv hop with ⟨-, rfl⟩ | ⟨R, -, -, hplan', -⟩
      · exact h
      · refine h.effect hinv (.replan R) trivial ?_
        intro _ q hq
        rw [R.plans, Table.get_insert_self] at hq
        obtain rfl := Option.some.inj hq
        rw [hplan']
        exact hvalid
  · exact h

theorem Mirrored.keeper (hinv : Inv w.store.toTables) (hw : w.Sound)
    (h : Mirrored w.store.toTables) (hstep : KeeperStep w ev w') : Mirrored w'.store.toTables := by
  cases hstep with
  | create hop hstep =>
      obtain ⟨hvalid, rfl⟩ := createOp_ok hop
      rcases hstep.cases with ⟨r, -, hrun⟩ | ⟨e, -, -, rfl⟩
      · obtain ⟨hrun, -⟩ := taggedUnit_ok.mp hrun
        exact h.create hinv hvalid hrun
      · exact h
  | refuse => exact h
  | begin => exact h
  | commit hbusy hrun => exact h.commit hinv (hw _ _ hbusy) hrun
  | call hop hstep => exact h.effects hinv (hstep.effects hinv) (fun g k hk => hop.later hk)

/-- **In every reachable world the rows of a live fleet are those of its
plan.** -/
theorem KeeperReachable.mirrored (h : KeeperReachable w) : Mirrored w.store.toTables := by
  have hall : (Inv w.store.toTables ∧ w.Sound) ∧ Mirrored w.store.toTables := by
    refine Reachable.invariant
      (I := fun w : World => (Inv w.store.toTables ∧ w.Sound) ∧ Mirrored w.store.toTables) ?_ ?_ h
    · exact ⟨⟨Inv.empty, fun n e hn => by cases hn⟩, Mirrored.empty⟩
    · intro u ev u' hu hstep
      exact ⟨⟨hstep.inv hu.1.1, hu.1.2.step hu.1.1 hstep⟩, hu.2.keeper hu.1.1 hu.1.2 hstep⟩
  exact hall.2

/-! ## Success is earned -/

/-- The event is a launch of the child that minted the attempt. -/
def Event.launches (f c a : String) : Event → Bool
  | .called ⟨.launchChild g d _ _ _ _ _ _, .ok (.launch (.launched b))⟩ =>
      g == f && d == c && b == a
  | _ => false

/-- The event is an accepted completion of the attempt. -/
def Event.accepts (f c a : String) : Event → Bool
  | .called ⟨.completeChild g d b v _ _ _ _ _, .ok (.complete .completed)⟩ =>
      g == f && d == c && b == a && v.isAccepted
  | _ => false

/-- A launching or accepting effect on the child shows in the event. -/
def Event.Shows (f c : String) (ev : Event) (g : String) (k : Kind) : Prop :=
  g = f → (∀ a, k = .launch c a → ev.launches f c a = true) ∧
    ∀ a actual reserved, k = .complete c a true actual reserved → ev.accepts f c a = true

/-- The two calls that launch or accept. -/
def Op.IsQuiet : Op → Prop
  | .launchChild _ _ _ _ _ _ _ _ => False
  | .completeChild _ _ _ _ _ _ _ _ _ => False
  | _ => True

theorem Op.IsQuiet.shows {op : Op} (h : op.IsQuiet) (he : Effects op.Allows t t') :
    Effects (ev.Shows f c) t t' := by
  refine he.mono ?_
  intro g k hk _
  refine ⟨?_, ?_⟩
  · rintro a rfl
    cases op <;> simp [Op.Allows, Op.IsQuiet] at h hk
  · rintro a actual reserved rfl
    cases op <;> simp [Op.Allows, Op.IsQuiet] at h hk

theorem Prepared.op_quiet (p : Prepared) (f : String) (rev now : U64) : (p.op f rev now).IsQuiet := by
  cases p <;> trivial

theorem Step.shows {call : Call} (hinv : Inv s.toTables) (h : Step s call s') :
    Effects ((Event.called call).Shows f c) s.toTables s'.toTables := by
  rcases h.cases with ⟨r, hr, hrun⟩ | ⟨e, -, -, rfl⟩
  · have heffects := h.effects hinv
    obtain ⟨op, ret⟩ := call
    obtain rfl : ret = .ok r := hr
    cases op with
    | launchChild g d projected now epoch ttl a eid =>
        obtain ⟨o, hcall, rfl⟩ := tagged_ok.mp hrun
        rcases launchChild_spec hinv h.1 hcall with ⟨-, rfl⟩ | ⟨rfl, he, -⟩
        · exact .refl
        · refine .single (fun hg => ⟨?_, ?_⟩) he
          · rintro b heq
            obtain ⟨rfl, rfl⟩ := Kind.launch.inj heq
            simp [Event.launches, hg]
          · rintro b actual reserved heq
            cases heq
    | completeChild g d a v snap actual epoch now eid =>
        obtain ⟨o, hcall, rfl⟩ := tagged_ok.mp hrun
        rcases completeChild_spec hinv hcall with ⟨-, rfl⟩ | ⟨rfl, x, -, he, -⟩
        · exact .refl
        · refine .single (fun hg => ⟨?_, ?_⟩) he
          · rintro b heq
            cases heq
          · rintro b actual' reserved heq
            obtain ⟨rfl, rfl, hv, -, -⟩ := Kind.complete.inj heq
            simp [Event.accepts, hg, hv]
    | _ => exact Op.IsQuiet.shows (by trivial) heffects
  · exact .refl

theorem KeeperStep.shows (hinv : Inv w.store.toTables) (h : KeeperStep w ev w') :
    Effects (ev.Shows f c) w.store.toTables w'.store.toTables := by
  cases h with
  | create hop hstep =>
      obtain ⟨-, rfl⟩ := createOp_ok hop
      exact Op.IsQuiet.shows (by trivial) (hstep.effects hinv)
  | refuse => exact .refl
  | begin => exact .refl
  | commit _ hrun =>
      rcases InFlight.commit_step hrun with ⟨o, -, hstep⟩ | ⟨err, -, rfl⟩
      · exact (Prepared.op_quiet _ _ _ _).shows (hstep.effects hinv)
      · exact .refl
  | call _ hstep => exact hstep.shows hinv

/-- What the child has to show: `L` for the attempt it is working on, `A` for
its success. -/
def Earned (f c : String) (L : String → Prop) (A : Prop) (t : Tables) : Prop :=
  ∀ ch, t.children[childKey f c]? = some ch →
    (ch.status = .launching ∨ ch.status = .running →
      ∃ a, ch.currentAttemptId = some a ∧ L a) ∧
    (ch.status = .succeeded → A)

theorem Earned.mono {L L' : String → Prop} {A A' : Prop} (h : Earned f c L A t)
    (hL : ∀ a, L a → L' a) (hA : A → A') : Earned f c L' A' t := by
  intro ch hch
  obtain ⟨hlive, hdone⟩ := h ch hch
  refine ⟨?_, fun hst => hA (hdone hst)⟩
  intro hst
  obtain ⟨a, hcur, ha⟩ := hlive hst
  exact ⟨a, hcur, hL a ha⟩

/-- A status that has nothing to show. -/
theorem Earned.idle {L : String → Prop} {A : Prop} {ch : FleetChildRecord}
    (h₁ : ch.status ≠ .launching) (h₂ : ch.status ≠ .running) (h₃ : ch.status ≠ .succeeded) :
    (ch.status = .launching ∨ ch.status = .running →
      ∃ a, ch.currentAttemptId = some a ∧ L a) ∧ (ch.status = .succeeded → A) := by
  refine ⟨?_, fun h => absurd h h₃⟩
  rintro (h | h)
  · exact absurd h h₁
  · exact absurd h h₂

theorem readiness_idle (succeeded deps : List String) :
    readiness succeeded deps ≠ .launching ∧ readiness succeeded deps ≠ .running ∧
      readiness succeeded deps ≠ .succeeded := by
  rcases readiness_cases succeeded deps with ⟨h, -⟩ | h <;> simp [h]

theorem Earned.effect {g : String} {L : String → Prop} {A : Prop} (hwf : WellFormed t)
    (h : Earned f c L A t) (he : Effect g k t t')
    (hlaunch : g = f → ∀ a, k = .launch c a → L a)
    (haccept : g = f → ∀ a actual reserved, k = .complete c a true actual reserved → L a → A) :
    Earned f c L A t' := by
  intro ch' hch'
  cases hold : t.children[childKey f c]? with
  | none =>
      obtain ⟨d, deps, st, gen, now, -, rfl, hst, -⟩ := he.child_new hwf hold hch'
      rcases hst with rfl | rfl <;> exact Earned.idle (by simp [freshChild])
        (by simp [freshChild]) (by simp [freshChild])
  | some ch =>
      obtain ⟨hf, hc⟩ := hwf.child_ids hold
      obtain ⟨x, hx, hstep⟩ := he.child_step hwf hold
      obtain rfl := Option.some.inj (hch'.symm.trans hx)
      obtain ⟨hlive, hdone⟩ := h ch hold
      rcases hstep with rfl | ⟨hg, hstep⟩
      · exact ⟨hlive, hdone⟩
      · have hg : g = f := hg.symm.trans hf
        cases hstep with
        | move hmove =>
            cases hmove with
            | launch att =>
                refine ⟨fun _ => ⟨att.attemptId, rfl, hlaunch hg _ (by rw [hc])⟩, ?_⟩
                intro hst
                cases hst
            | run _ hst hcur =>
                obtain ⟨a, ha, hL⟩ := hlive (Or.inl hst)
                refine ⟨fun _ => ⟨a, ha, hL⟩, ?_⟩
                intro hst'
                cases hst'
            | @complete att _ _ _ _ _ verdict _ _ hst hcur =>
                obtain ⟨a, ha, hL⟩ := hlive (Or.inr hst)
                obtain rfl := Option.some.inj (ha.symm.trans hcur)
                cases hv : verdict.isAccepted with
                | true =>
                    refine ⟨?_, fun _ => haccept hg _ _ _ (by rw [hc, hv]) hL⟩
                    rintro (h | h) <;> simp at h
                | false => exact Earned.idle (by simp) (by simp) (by simp)
            | reclaim => cases hl : fleetIsLive _ <;>
                exact Earned.idle (by simp) (by simp) (by simp)
            | _ => exact Earned.idle (by simp) (by simp) (by simp)
        | @replan tasks succeeded newGen nowMs i hk =>
            rcases replanRow_cases tasks succeeded newGen nowMs i ch with
              ⟨_, -, -, -, hst, hst', -⟩ | ⟨task, -, -, -, -, hst', -⟩ | ⟨-, -, hst', -⟩
            · refine ⟨?_, fun _ => hdone hst⟩
              rw [hst']
              rintro (h | h) <;> cases h
            · obtain ⟨h₁, h₂, h₃⟩ := readiness_idle succeeded task.deps
              exact Earned.idle (hst' ▸ h₁) (hst' ▸ h₂) (hst' ▸ h₃)
            · exact Earned.idle (by simp [hst']) (by simp [hst']) (by simp [hst'])

/-- The attempt was launched. -/
def LaunchedIn (f c : String) (es : List Event) (a : String) : Prop :=
  ∃ e ∈ es, e.launches f c a = true

/-- An attempt of the child was launched and, later, accepted. -/
def AcceptedIn (f c : String) (es : List Event) : Prop :=
  ∃ a pre e₁ mid e₂ post, es = pre ++ e₁ :: (mid ++ e₂ :: post) ∧
    e₁.launches f c a = true ∧ e₂.accepts f c a = true

theorem AcceptedIn.snoc {es : List Event} (h : AcceptedIn f c es) :
    AcceptedIn f c (es ++ [ev]) := by
  obtain ⟨a, pre, e₁, mid, e₂, post, rfl, h₁, h₂⟩ := h
  exact ⟨a, pre, e₁, mid, e₂, post ++ [ev], by simp, h₁, h₂⟩

theorem Event.accepts_not_launches {a b : String} (h : ev.accepts f c a = true) :
    ev.launches f c b = false := by
  unfold Event.accepts at h
  split at h
  · rfl
  · cases h

theorem AcceptedIn.intro {es : List Event} {a : String} (h : LaunchedIn f c (es ++ [ev]) a)
    (hev : ev.accepts f c a = true) : AcceptedIn f c (es ++ [ev]) := by
  obtain ⟨e, he, hl⟩ := h
  rcases List.mem_append.mp he with he | he
  · obtain ⟨pre, mid, rfl⟩ := List.append_of_mem he
    exact ⟨a, pre, e, mid, ev, [], by simp, hl, hev⟩
  · obtain rfl := List.mem_singleton.mp he
    rw [Event.accepts_not_launches hev] at hl
    cases hl

/-- **The step lemma of the history.** -/
theorem KeeperStep.earned {es : List Event} (hinv : Inv w.store.toTables)
    (hstep : KeeperStep w ev w')
    (h : Earned f c (LaunchedIn f c es) (AcceptedIn f c es) w.store.toTables) :
    Earned f c (LaunchedIn f c (es ++ [ev])) (AcceptedIn f c (es ++ [ev])) w'.store.toTables := by
  have hmono : Earned f c (LaunchedIn f c (es ++ [ev])) (AcceptedIn f c (es ++ [ev]))
      w.store.toTables := by
    refine h.mono ?_ AcceptedIn.snoc
    rintro a ⟨e, he, hl⟩
    exact ⟨e, List.mem_append_left _ he, hl⟩
  have hboth := (hstep.shows (f := f) (c := c) hinv).keep
    (I := fun t => Inv t ∧ Earned f c (LaunchedIn f c (es ++ [ev])) (AcceptedIn f c (es ++ [ev])) t)
    ?_ ⟨hinv, hmono⟩
  · exact hboth.2
  · intro g k u u' hk he hu
    refine ⟨hu.1.effect he, hu.2.effect hu.1.wf he ?_ ?_⟩
    · intro hg a hkind
      exact ⟨ev, by simp, (hk hg).1 a hkind⟩
    · intro hg a actual reserved hkind hl
      exact AcceptedIn.intro hl ((hk hg).2 a actual reserved hkind)

/-- Out of the plan, a child has nothing to show. -/
theorem Corresponds.earned {p : DurablePlan} {L : String → Prop} {A : Prop} (hwf : WellFormed t)
    (h : Corresponds t f p) (hc : c ∉ taskIds p.tasks) : Earned f c L A t := by
  intro ch hch
  obtain ⟨hf, hid⟩ := hwf.child_ids hch
  obtain ⟨hst, -⟩ := h.stray _ ch hch hf (hid ▸ hc)
  exact Earned.idle (by simp [hst]) (by simp [hst]) (by simp [hst])

/-- **Plan and children correspond.**  In every state of every interleaving, a
live fleet has a plan that validates and whose tasks are its children; and a
child that was out of the plan at some point of the run is not `Succeeded`
unless an attempt of it was launched and accepted after that point. -/
theorem plan_children_correspond {es : List Event} (h : Run KeeperStep World.empty es w) :
    (∀ f fl, w.store.fleets[f]? = some fl → fleetIsLive fl = true →
      ∃ p, w.store.plans[f]? = some p ∧ validateGraph p.tasks = .ok () ∧
        Corresponds w.store.toTables f p) ∧
    (∀ f c xs ys u fl p, es = xs ++ ys → Run KeeperStep World.empty xs u →
      Run KeeperStep u ys w → u.store.fleets[f]? = some fl → fleetIsLive fl = true →
      u.store.plans[f]? = some p → c ∉ taskIds p.tasks →
      ∀ ch, w.store.children[childKey f c]? = some ch → ch.status = .succeeded →
        AcceptedIn f c ys) := by
  constructor
  · intro f fl hfl hlive
    obtain ⟨p, hp, hcor⟩ := KeeperReachable.mirrored ⟨es, h⟩ f fl hfl hlive
    exact ⟨p, hp, validateGraph_iff.mpr hcor.valid, hcor⟩
  · intro f c xs ys u fl p _ hxs hys hfl hlive hp hc ch hch hst
    have hu : KeeperReachable u := ⟨xs, hxs⟩
    obtain ⟨q, hq, hcor⟩ := hu.mirrored f fl hfl hlive
    obtain rfl := Option.some.inj (hp.symm.trans hq)
    have hearned : Earned f c (LaunchedIn f c ys) (AcceptedIn f c ys) w.store.toTables := by
      refine Run.history (I := fun w : World => Inv w.store.toTables)
        (H := fun es w => Earned f c (LaunchedIn f c es) (AcceptedIn f c es) w.store.toTables)
        (fun _ _ _ hi hs => hs.inv hi) ?_ hys hu.inv (hcor.earned hu.inv.wf hc)
      intro es u ev u' hi hpre hstep
      exact hstep.earned hi hpre
    exact (hearned ch hch).2 hst

/-- A task succeeds and is removed. -/
def removedAfterSuccess : List Move :=
  [.create ⟨"f1", ⟨"ctl"⟩, none, none, "default", ⟨100, 0, 0, false⟩, "ship",
      [⟨"c1", "one", "", [], [], ⟨.none, [], .workspace, none, false⟩⟩,
       ⟨"c2", "two", "", [], [], ⟨.none, [], .workspace, none, false⟩⟩], 0⟩,
   .call (.launchChild "f1" "c1" 10 1 7 1000 "a1" "e1"),
   .call (.markRunning "c1" "a1"),
   .call (.completeChild "f1" "c1" "a1" (.accepted []) ⟨"", true, 5, [], none⟩ 5 7 2 "e2"),
   .edit 0 ⟨"f1", .removeTask "c1", 0, 3⟩,
   .commit 0]

/-- It comes back and succeeds again. -/
def readded : List Move :=
  [.edit 0 ⟨"f1", .addTask ⟨"c1", "one", "", [], [], ⟨.none, [], .workspace, none, false⟩⟩, 1, 4⟩,
   .commit 0,
   .call (.launchChild "f1" "c1" 10 5 7 1000 "a2" "e3"),
   .call (.markRunning "c1" "a2"),
   .call (.completeChild "f1" "c1" "a2" (.accepted []) ⟨"", true, 5, [], none⟩ 5 7 6 "e4")]

theorem plan_children_correspond_readded :
    ((World.empty.play removedAfterSuccess).2.store.children[childKey "f1" "c1"]?.map
        FleetChildRecord.status) = some .cancelled ∧
      (((World.empty.play removedAfterSuccess).2.play readded).2.store.children[
        childKey "f1" "c1"]?.map FleetChildRecord.status) = some .succeeded ∧
      AcceptedIn "f1" "c1" ((World.empty.play removedAfterSuccess).2.play readded).1 := by
  obtain ⟨fl, hfl, hlive⟩ : ∃ fl,
      (World.empty.play removedAfterSuccess).2.store.fleets["f1"]? = some fl ∧
        fleetIsLive fl = true := (Option.any_eq_true _ _).mp (by rfl)
  obtain ⟨p, hp, hout⟩ : ∃ p,
      (World.empty.play removedAfterSuccess).2.store.plans["f1"]? = some p ∧
        decide ("c1" ∉ taskIds p.tasks) = true := (Option.any_eq_true _ _).mp (by rfl)
  obtain ⟨ch, hch, hst⟩ : ∃ ch,
      ((World.empty.play removedAfterSuccess).2.play readded).2.store.children[
        childKey "f1" "c1"]? = some ch ∧ decide (ch.status = .succeeded) = true :=
    (Option.any_eq_true _ _).mp (by rfl)
  have hpre := World.play_run removedAfterSuccess World.empty
  have hpost := World.play_run readded (World.empty.play removedAfterSuccess).2
  refine ⟨by rfl, by rfl, ?_⟩
  exact (plan_children_correspond (hpre.append hpost)).2 "f1" "c1" _ _ _ fl p rfl hpre hpost
    hfl hlive hp (of_decide_eq_true hout) ch hch (of_decide_eq_true hst)

end Octos.Fleet
