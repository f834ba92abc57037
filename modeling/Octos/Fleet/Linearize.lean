/-
# `Octos.Fleet.Linearize` — plan edits are linearizable

An edit is computed from a snapshot and committed later.  Nothing is lost in
between because a plan never changes without its revision: every writer raises
the revision by one, and every writer that rewrites content commits against the
revision it read.  So as long as the revision is the one of the snapshot the
plan is the one of the snapshot (`PlanSince`), and an edit that commits is
applied to the plan it replaces.
-/
import Octos.Fleet.Keeper

namespace Octos.Fleet

variable {f : String} {k : Kind} {t t' : Tables} {s s' : Store} {w w' : World} {ev : Event}

/-! ## A plan and its revision -/

/-- `p` was the plan of the fleet at some time: the current one is later, or is
`p` itself. -/
def PlanSince (t : Tables) (f : String) (p : DurablePlan) : Prop :=
  ∃ q, t.plans[f]? = some q ∧ p.revision.toNat ≤ q.revision.toNat ∧
    (p.revision = q.revision → q = p)

theorem PlanSince.effect {g : String} {p : DurablePlan} (h : PlanSince t f p)
    (he : Effect g k t t') : PlanSince t' f p := by
  obtain ⟨q, hq, hle, heq⟩ := h
  rcases he.plan_step hq with hkept | ⟨-, -, q', hq', hrev⟩
  · exact ⟨q, hkept, hle, heq⟩
  · refine ⟨q', hq', by omega, ?_⟩
    intro hsame
    rw [hsame] at hle
    omega

theorem PlanSince.step {c : Call} {p : DurablePlan} (hinv : Inv s.toTables)
    (h : PlanSince s.toTables f p) (hstep : Step s c s') : PlanSince s'.toTables f p :=
  (hstep.effects hinv).keep (I := fun t => PlanSince t f p)
    (fun _ _ _ _ _ he hp => hp.effect he) h

/-! ## One call moves a plan by at most one revision -/

/-- The plan of the fleet was kept, or replaced under the next revision. -/
def PlanMoved (f : String) (t t' : Tables) : Prop :=
  ∀ p, t.plans[f]? = some p →
    t'.plans[f]? = some p ∨
      ∃ p', t'.plans[f]? = some p' ∧ p'.revision.toNat = p.revision.toNat + 1

theorem planMoved_of_insert {g : String} {q q' : DurablePlan} (hq : t.plans[g]? = some q)
    (hplans : t'.plans = t.plans.insert g q') (hrev : q'.revision.toNat = q.revision.toNat + 1) :
    PlanMoved f t t' := by
  intro p hp
  rw [hplans]
  by_cases hg : g = f
  · subst hg
    obtain rfl := Option.some.inj (hq.symm.trans hp)
    exact Or.inr ⟨q', Table.get_insert_self _ _ _, hrev⟩
  · exact Or.inl ((Table.get_insert_ne _ _ hg).trans hp)

theorem planMoved_of_effects {P : String → Kind → Prop} (he : Effects P t t')
    (hP : ∀ g k, P g k → k ≠ .edit ∧ k ≠ .replan) : PlanMoved f t t' := by
  intro p hp
  refine Or.inl (he.keep (I := fun t => t.plans[f]? = some p) ?_ hp)
  intro g k u u' hk hstep hu
  rcases hstep.plan_step hu with hkept | ⟨-, hedit | hreplan, -⟩
  · exact hkept
  · exact absurd hedit (hP g k hk).1
  · exact absurd hreplan (hP g k hk).2

/-- **Every committed plan mutation raises the revision by exactly one.** -/
theorem Step.planMoved {c : Call} (hinv : Inv s.toTables) (h : Step s c s') :
    PlanMoved f s.toTables s'.toTables := by
  rcases h.cases with ⟨r, -, hrun⟩ | ⟨e, -, -, rfl⟩
  · obtain ⟨op, ret⟩ := c
    have hkept : PlanMoved f s.toTables s.toTables := fun p hp => Or.inl hp
    cases op with
    | replan =>
        obtain ⟨o, hop, -⟩ := tagged_ok.mp hrun
        rcases replan_spec hinv hop with ⟨-, rfl⟩ | ⟨R, -⟩
        · exact hkept
        · exact planMoved_of_insert R.plan_found R.plans R.revision_eq
    | retitleTask =>
        obtain ⟨o, hop, -⟩ := tagged_ok.mp hrun
        rcases retitleTask_spec hinv hop with ⟨-, rfl⟩ | ⟨p, _, _, -, hp, rfl, -, hrev, rfl, -⟩
        · exact hkept
        · exact planMoved_of_insert hp rfl hrev
    | setTaskGrant =>
        obtain ⟨o, hop, -⟩ := tagged_ok.mp hrun
        rcases setTaskGrant_spec hinv hop with
          ⟨-, rfl⟩ | ⟨p, _, _, _, -, hp, rfl, -, hrev, hplans, -⟩
        · exact hkept
        · exact planMoved_of_insert hp hplans hrev
    | denyEscalation =>
        obtain ⟨o, hop, -⟩ := tagged_ok.mp hrun
        rcases denyEscalation_spec hinv hop with ⟨-, rfl⟩ | ⟨-, hbump, -⟩
        · exact hkept
        · rcases hbump with ⟨-, hsame⟩ | ⟨p, rev', hp, hrev, hplans⟩
          · intro p hp
            exact Or.inl (hsame ▸ hp)
          · exact planMoved_of_insert hp hplans hrev
    | _ =>
        refine planMoved_of_effects (h.effects hinv) ?_
        intro g k hk
        constructor <;> rintro rfl <;> simp [Op.Allows] at hk
  · exact fun p hp => Or.inl hp

/-! ## What an edit in flight knows -/

theorem modifyTask_ok {taskId : String} {g : PlanTask → PlanTask} {tasks tasks' : List PlanTask} :
    modifyTask taskId g tasks = .ok tasks' ↔
      modifyFirst (fun t => t.taskId == taskId) g tasks = some tasks' := by
  unfold modifyTask
  split <;> simp_all

/-- The store call was decided on from the plan `p`. -/
def InFlight.From (e : InFlight) (p : DurablePlan) : Prop :=
  p.revision = e.req.expectedRevision ∧
    ∃ children, decideEdit e.req.fleetId e.req.edit e.req.expectedRevision p children =
      .ok e.prepared

/-- The plan an edit was decided on from was the fleet's plan. -/
def InFlight.Current (t : Tables) (e : InFlight) : Prop :=
  ∃ p, PlanSince t e.req.fleetId p ∧ e.From p

/-- Every edit in flight is of that kind. -/
def World.Sound (w : World) : Prop :=
  ∀ n e, w.keepers n = some e → e.Current w.store.toTables

/-- What a snapshot shows is what is stored. -/
theorem load_ok (hwf : WellFormed s.toTables) {snap : FleetSnapshot} {plan : DurablePlan}
    (h : load f s = .ok (snap, plan)) :
    s.plans[f]? = some plan ∧ snap.children = listChildren f s ∧
      keyComponentIsSafe f = true ∧ s.fleets[f]? = some snap.fleet := by
  unfold load loadSnapshot at h
  cases hkey : ensureKeySafe [f] with
  | error e =>
      rw [hkey] at h
      cases h
  | ok u =>
      rw [hkey] at h
      simp only [hwf.fleet?_eq, hwf.plan?_eq] at h
      cases hfl : s.fleets[f]? with
      | none =>
          rw [hfl] at h
          cases h
      | some fl =>
          have hid := (hwf.fleet _ _ hfl).1
          cases hp : s.plans[f]? with
          | none =>
              rw [hfl, hp, Option.filter_some, if_pos (by simp [hid])] at h
              cases h
          | some p =>
              have hidp := (hwf.plan _ _ hp).1
              rw [hfl, hp, Option.filter_some, if_pos (by simp [hid]), Option.filter_some,
                if_pos (by simp [hidp])] at h
              obtain ⟨rfl, rfl⟩ := Prod.mk.inj (Except.ok.inj h)
              exact ⟨rfl, rfl, ensureKeySafe_ok.mp hkey f List.mem_cons_self, rfl⟩

/-- The start of an edit, by what it decides. -/
theorem prepareEdit_ok {edit : PlanEdit} {rev : U64} {d : PlanMutateOutcome ⊕ Prepared}
    (h : prepareEdit f edit rev s = .ok d) :
    ∃ snap plan, load f s = .ok (snap, plan) ∧
      (plan.revision ≠ rev ∧ d = .inl (.revisionMismatch plan.revision) ∨
        plan.revision = rev ∧
          ∃ p, decideEdit f edit rev plan snap.children = .ok p ∧ d = .inr p) := by
  unfold prepareEdit at h
  cases hload : load f s with
  | error e =>
      rw [hload] at h
      cases h
  | ok r =>
      obtain ⟨snap, plan⟩ := r
      rw [hload] at h
      refine ⟨snap, plan, rfl, ?_⟩
      by_cases hrev : plan.revision = rev
      · subst hrev
        cases hdec : decideEdit f edit plan.revision plan snap.children with
        | error e => simp [bind, Except.bind, hdec] at h
        | ok p =>
            simp only [bind, Except.bind, hdec, ne_eq, not_true_eq_false, if_false] at h
            exact Or.inr ⟨rfl, p, rfl, (Except.ok.inj h).symm⟩
      · simp only [bind, Except.bind, ne_eq, hrev, not_false_eq_true, if_true] at h
        exact Or.inl ⟨hrev, (Except.ok.inj h).symm⟩

/-- **Edits in flight stay sound** whatever the others do. -/
theorem World.Sound.step (hinv : Inv w.store.toTables) (h : w.Sound) (hstep : KeeperStep w ev w') :
    w'.Sound := by
  -- a store step of anybody keeps what an edit in flight knows
  have hkeep : ∀ {s s' : Store}, Inv s.toTables → (s' = s ∨ ∃ c, Step s c s') →
      ∀ {e : InFlight}, e.Current s.toTables → e.Current s'.toTables := by
    intro s s' hs hstore e he
    rcases hstore with rfl | ⟨c, hc⟩
    · exact he
    · obtain ⟨p, hp, hfrom⟩ := he
      exact ⟨p, hp.step hs hc, hfrom⟩
  have hstore := hstep.store
  cases hstep with
  | create => exact fun n e hn => hkeep hinv hstore (h n e hn)
  | refuse => exact h
  | @begin s ks k req p hidle hprep =>
      intro n e hn
      by_cases hk : n = k
      · subst hk
        obtain rfl := Option.some.inj ((Function.update_self n _ ks).symm.trans hn)
        obtain ⟨snap, plan, hload, hdec⟩ := prepareEdit_ok hprep
        rcases hdec with ⟨-, hd⟩ | ⟨hrev, p', hdec, hd⟩
        · cases hd
        · obtain rfl := Sum.inr.inj hd
          obtain ⟨hplan, -⟩ := load_ok hinv.wf hload
          exact ⟨plan, ⟨plan, hplan, le_rfl, fun _ => rfl⟩, hrev, snap.children, hdec⟩
      · exact h n e ((Function.update_of_ne hk _ ks).symm.trans hn)
  | @commit s s' ks k e' ret hbusy hrun =>
      intro n e hn
      by_cases hk : n = k
      · subst hk
        cases (Function.update_self n _ ks).symm.trans hn
      · exact hkeep hinv hstore (h n e ((Function.update_of_ne hk _ ks).symm.trans hn))
  | call => exact fun n e hn => hkeep hinv hstore (h n e hn)

theorem KeeperReachable.sound (h : KeeperReachable w) : w.Sound := by
  have hboth : Inv w.store.toTables ∧ w.Sound := by
    refine Reachable.invariant (I := fun w : World => Inv w.store.toTables ∧ w.Sound) ?_ ?_ h
    · exact ⟨Inv.empty, fun n e hn => by cases hn⟩
    · intro u ev u' hu hstep
      exact ⟨hstep.inv hu.1, hu.2.step hu.1 hstep⟩
  exact hboth.2

/-! ## Commits -/

/-- The edit, applied to the plan `p`, gives the plan `p'`, under the next
revision `v`. -/
def EditApplied (edit : PlanEdit) (p p' : DurablePlan) (v : U64) : Prop :=
  ∃ tasks text, applyEditToTasks p.tasks edit = .ok (tasks, text) ∧ p' = edited p tasks v ∧
    v.toNat = p.revision.toNat + 1

/-- A structural edit that validated. -/
theorem prepareReplan_ok {edit : PlanEdit} {rev : U64} {plan : DurablePlan}
    {children : List FleetChildRecord} {p : Prepared}
    (h : prepareReplan f edit rev plan children = .ok p) :
    ∃ tasks text, applyEditToTasks plan.tasks edit = .ok (tasks, text) ∧ ValidGraph tasks ∧
      p = .replan ⟨schemaVersionCurrent, f, rev, plan.objective, tasks⟩ text := by
  unfold prepareReplan at h
  split at h
  · cases h
  · cases happ : applyEditToTasks plan.tasks edit with
    | error e =>
        rw [happ] at h
        cases h
    | ok r =>
        obtain ⟨tasks, text⟩ := r
        rw [happ] at h
        cases hv : validateGraph tasks with
        | error e => simp [liftGraph, hv, bind, Except.bind] at h
        | ok u =>
            simp only [liftGraph, hv, bind, Except.bind] at h
            exact ⟨tasks, text, rfl, validateGraph_iff.mp hv, (Except.ok.inj h).symm⟩

theorem prepareTargeted_ok {plan : DurablePlan} {taskId : String} {p p' : Prepared}
    (h : prepareTargeted plan taskId p = .ok p') : p' = p := by
  unfold prepareTargeted at h
  split at h
  · exact (Except.ok.inj h).symm
  · cases h

/-- The store call of an edit, by its form. -/
theorem decideEdit_ok {edit : PlanEdit} {rev : U64} {plan : DurablePlan}
    {children : List FleetChildRecord} {p : Prepared}
    (h : decideEdit f edit rev plan children = .ok p) :
    (∃ task title detail, edit = .retitle task title detail ∧ p = .retitle task title detail) ∨
    (∃ task grant, edit = .setGrant task grant ∧ p = .setGrant task grant) ∨
    (∃ tasks text, applyEditToTasks plan.tasks edit = .ok (tasks, text) ∧ ValidGraph tasks ∧
      p = .replan ⟨schemaVersionCurrent, f, rev, plan.objective, tasks⟩ text) := by
  unfold decideEdit at h
  split at h
  · exact Or.inl ⟨_, _, _, rfl, prepareTargeted_ok h⟩
  · exact Or.inr (Or.inl ⟨_, _, rfl, prepareTargeted_ok h⟩)
  · exact Or.inr (Or.inr (prepareReplan_ok h))

theorem applyEditToTasks_retitle {tasks tasks' : List PlanTask} {taskId title detail : String}
    (h : modifyFirst (fun t => t.taskId == taskId)
      (fun t => { t with title := title, detail := detail }) tasks = some tasks') :
    applyEditToTasks tasks (.retitle taskId title detail) =
      .ok (tasks', "retitle task " ++ taskId) := by
  show (do let tasks ← modifyTask _ _ _; return (tasks, _) :
    Except PlanGraphError (List PlanTask × String)) = _
  rw [modifyTask_ok.mpr h]
  rfl

theorem applyEditToTasks_setGrant {tasks tasks' : List PlanTask} {taskId : String}
    {grant : WorkerGrant} (h : modifyFirst (fun t => t.taskId == taskId)
      (fun t => { t with grant := grant }) tasks = some tasks') :
    applyEditToTasks tasks (.setGrant taskId grant) =
      .ok (tasks', "set grant of task " ++ taskId) := by
  show (do let tasks ← modifyTask _ _ _; return (tasks, _) :
    Except PlanGraphError (List PlanTask × String)) = _
  rw [modifyTask_ok.mpr h]
  rfl

/-- What the three store calls do to the plan, as an edit of the plan they
find. -/
theorem InFlight.applied {e : InFlight} {v : U64} (hinv : Inv s.toTables)
    (hcur : e.Current s.toTables) (h : e.commit s = (.ok (.mutated v), s')) :
    ∃ p p', s.plans[e.req.fleetId]? = some p ∧ p.revision = e.req.expectedRevision ∧
      s'.plans[e.req.fleetId]? = some p' ∧ EditApplied e.req.edit p p' v := by
  obtain ⟨p₀, ⟨q, hq, -, hsame⟩, hrev₀, children, hdec⟩ := hcur
  obtain ⟨⟨f, edit, rev, now⟩, prepared⟩ := e
  obtain rfl : p₀.revision = rev := hrev₀
  rcases InFlight.commit_step h with ⟨o, ho, hstep⟩ | ⟨err, herr, -⟩
  · obtain ⟨o', hrun, hret⟩ := tagged_ok.mp ((prepared.op_run f p₀.revision now s).symm.trans
      hstep.run_ok)
    obtain rfl := Ret.plan.inj hret
    obtain rfl : o = .mutated v := by
      cases prepared <;> cases o <;> simp_all [Prepared.result]
    have hdec : decideEdit f edit p₀.revision p₀ children = .ok prepared := hdec
    have hq : s.plans[f]? = some q := hq
    rcases decideEdit_ok hdec with ⟨task, title, detail, rfl, rfl⟩ | ⟨task, grant, rfl, rfl⟩ |
      ⟨tasks, text, happ, -, rfl⟩
    · rcases retitleTask_spec hinv hrun with ⟨hne, -⟩ | ⟨p, tasks, rev', hr, hp, hrev, hmod, hv, rfl, -⟩
      · exact absurd rfl (hne v)
      · obtain rfl := PlanMutateOutcome.mutated.inj hr
        exact ⟨p, _, hp, hrev, Table.get_insert_self _ _ _, tasks, _,
          applyEditToTasks_retitle hmod, rfl, hrev ▸ hv⟩
    · rcases setTaskGrant_spec hinv hrun with
        ⟨hne, -⟩ | ⟨p, tasks, rev', _, hr, hp, hrev, hmod, hv, hplans, -⟩
      · exact absurd rfl (hne v)
      · obtain rfl := PlanMutateOutcome.mutated.inj hr
        refine ⟨p, edited p tasks v, hp, hrev, ?_, tasks, _,
          applyEditToTasks_setGrant hmod, rfl, hrev ▸ hv⟩
        rw [hplans]
        exact Table.get_insert_self _ _ _
    · rcases replan_spec hinv hrun with ⟨hne, -⟩ | ⟨R, hr, hrev, hplan', -⟩
      · exact absurd rfl (hne v)
      · -- the plan it replaces is the plan of its snapshot
        obtain rfl := Option.some.inj (hq.symm.trans R.plan_found)
        obtain rfl := hsame hrev.symm
        have hv := PlanMutateOutcome.mutated.inj hr
        refine ⟨R.plan, R.plan', R.plan_found, rfl, ?_, tasks, text, happ, ?_, ?_⟩
        · rw [R.plans]
          exact Table.get_insert_self _ _ _
        · have hid : R.plan.fleetId = f := (hinv.wf.plan _ _ R.plan_found).1
          rw [hplan', hv, replanned, edited, hid]
        · rw [hv]
          exact R.revision_eq
  · cases herr

/-- An edit that does not return `Mutated` has changed nothing. -/
theorem InFlight.refused {e : InFlight} {ret : Except FleetError PlanMutateOutcome}
    (hinv : Inv s.toTables) (h : e.commit s = (ret, s')) (hne : ∀ v, ret ≠ .ok (.mutated v)) :
    s' = s := by
  obtain ⟨⟨f, edit, rev, now⟩, prepared⟩ := e
  rcases InFlight.commit_step h with ⟨o, rfl, hstep⟩ | ⟨err, -, rfl⟩
  · obtain ⟨o', hrun, hret⟩ := tagged_ok.mp ((prepared.op_run f rev now s).symm.trans
      hstep.run_ok)
    obtain rfl := Ret.plan.inj hret
    have hno : ∀ v, o ≠ .mutated v := by
      rintro v rfl
      refine hne v ?_
      cases prepared <;> rfl
    cases prepared with
    | retitle task title detail =>
        rcases retitleTask_spec hinv hrun with ⟨-, rfl⟩ | ⟨_, _, _, rfl, -⟩
        · rfl
        · exact absurd rfl (hno _)
    | setGrant task grant =>
        rcases setTaskGrant_spec hinv hrun with ⟨-, rfl⟩ | ⟨_, _, _, _, rfl, -⟩
        · rfl
        · exact absurd rfl (hno _)
    | replan newPlan text =>
        rcases replan_spec hinv hrun with ⟨-, rfl⟩ | ⟨R, rfl, -⟩
        · rfl
        · exact absurd rfl (hno _)
  · rfl

/-! ## Whole runs -/

/-- An `apply_edit` of the fleet against the revision returned `Mutated`. -/
def Event.mutates (f : String) (rev : U64) : Event → Bool
  | .returned _ req (.ok (.mutated _)) => req.fleetId == f && req.expectedRevision == rev
  | _ => false

/-- What one step of the system does to the plans. -/
structure EditStep (ev : Event) (w w' : World) : Prop where
  /-- Whoever commits, the revision moves by one or the plan is kept. -/
  revision : ∀ f, PlanMoved f w.store.toTables w'.store.toTables
  /-- An edit that returns `Mutated` was applied to the plan it replaced. -/
  mutated : ∀ k req v, ev = .returned k req (.ok (.mutated v)) →
    ∃ p p', w.store.plans[req.fleetId]? = some p ∧ p.revision = req.expectedRevision ∧
      w'.store.plans[req.fleetId]? = some p' ∧ EditApplied req.edit p p' v
  /-- Any other edit left the store as it was. -/
  refused : ∀ k req ret, ev = .returned k req ret → (∀ v, ret ≠ .ok (.mutated v)) →
    w'.store = w.store

/-- A decision taken at the snapshot alone is never `Mutated`. -/
theorem prepareEdit_not_mutated {edit : PlanEdit} {rev v : U64} :
    prepareEdit f edit rev s ≠ .ok (.inl (.mutated v)) := by
  intro h
  obtain ⟨_, _, _, ⟨-, hd⟩ | ⟨-, _, -, hd⟩⟩ := prepareEdit_ok h
  · cases hd
  · cases hd

theorem KeeperStep.planMoved (hinv : Inv w.store.toTables) (h : KeeperStep w ev w') :
    PlanMoved f w.store.toTables w'.store.toTables := by
  rcases h.store with heq | ⟨c, hstep⟩
  · intro p hp
    exact Or.inl (heq ▸ hp)
  · exact hstep.planMoved hinv

/-- **The step lemma**: every step out of a sound world is an edit step. -/
theorem KeeperStep.edit (hinv : Inv w.store.toTables) (hw : w.Sound) (h : KeeperStep w ev w') :
    EditStep ev w w' := by
  refine ⟨fun f => h.planMoved hinv, ?_, ?_⟩
  · rintro k req v rfl
    cases h with
    | refuse _ hprep => exact absurd hprep prepareEdit_not_mutated
    | commit hbusy hrun => exact InFlight.applied hinv (hw _ _ hbusy) hrun
  · rintro k req ret rfl hne
    cases h with
    | refuse => rfl
    | commit _ hrun => exact InFlight.refused hinv hrun hne

/-- A `Mutated` against a revision leaves a later one behind. -/
theorem EditStep.after {rev : U64} (h : EditStep ev w w') (hm : ev.mutates f rev = true) :
    (∃ p, w.store.plans[f]? = some p ∧ p.revision = rev) ∧
      ∃ p', w'.store.plans[f]? = some p' ∧ rev.toNat < p'.revision.toNat := by
  cases ev with
  | returned k req ret =>
      match ret with
      | .ok (.mutated v) =>
          simp only [Event.mutates, Bool.and_eq_true, beq_iff_eq] at hm
          obtain ⟨rfl, rfl⟩ := hm
          obtain ⟨p, p', hp, hrev, hp', tasks, _, -, rfl, hv⟩ := h.mutated k req v rfl
          refine ⟨⟨p, hp, hrev⟩, _, hp', ?_⟩
          show _ < v.toNat
          rw [hv, hrev]
          exact Nat.lt_succ_self _
  | _ => cases hm

/-- Revisions only grow. -/
theorem PlanMoved.past {n : Nat} (h : PlanMoved f t t')
    (hp : ∃ p, t.plans[f]? = some p ∧ n < p.revision.toNat) :
    ∃ p, t'.plans[f]? = some p ∧ n < p.revision.toNat := by
  obtain ⟨p, hp, hlt⟩ := hp
  rcases h p hp with hkept | ⟨p', hp', hrev⟩
  · exact ⟨p, hkept, hlt⟩
  · exact ⟨p', hp', by omega⟩

/-- No edit against the revision has been committed yet, or exactly one has and
the plan is past it. -/
def CommittedOnce (f : String) (rev : U64) (es : List Event) (w : World) : Prop :=
  es.countP (Event.mutates f rev) = 0 ∨
    es.countP (Event.mutates f rev) = 1 ∧
      ∃ p, w.store.plans[f]? = some p ∧ rev.toNat < p.revision.toNat

theorem CommittedOnce.step {rev : U64} {es : List Event} (h : CommittedOnce f rev es w)
    (hedit : EditStep ev w w') : CommittedOnce f rev (es ++ [ev]) w' := by
  unfold CommittedOnce
  rw [List.countP_append, List.countP_singleton]
  by_cases hm : ev.mutates f rev = true
  · obtain ⟨⟨p, hp, hrev⟩, hpast⟩ := hedit.after hm
    rw [if_pos hm]
    rcases h with hzero | ⟨-, q, hq, hlt⟩
    · exact Or.inr ⟨by omega, hpast⟩
    · -- a second commit would need the revision the plan has already left
      obtain rfl := Option.some.inj (hp.symm.trans hq)
      rw [hrev] at hlt
      exact absurd hlt (lt_irrefl _)
  · rw [if_neg hm]
    rcases h with hzero | ⟨hone, hpast⟩
    · exact Or.inl hzero
    · exact Or.inr ⟨hone, (hedit.revision f).past hpast⟩

/-- **Plan edits are linearizable.**  In every interleaving of keepers,
executors and boot passes, each step raises a plan's revision by one or keeps
the plan; an edit that returns `Mutated` stores the edit applied to the plan
stored immediately before; any other edit changes nothing; and of all edits of
a fleet against one revision at most one returns `Mutated`. -/
theorem edits_linearizable {es : List Event} (h : Run KeeperStep World.empty es w) :
    (∀ xs ev ys u u', es = xs ++ ev :: ys → Run KeeperStep World.empty xs u →
      KeeperStep u ev u' → EditStep ev u u') ∧
    (∀ f rev, es.countP (Event.mutates f rev) ≤ 1) := by
  constructor
  · intro xs ev ys u u' _ hrun hstep
    have hreach : KeeperReachable u := ⟨xs, hrun⟩
    exact hstep.edit hreach.inv hreach.sound
  · intro f rev
    have honce : CommittedOnce f rev es w := by
      refine Run.history (I := KeeperReachable) (H := CommittedOnce f rev)
        (fun _ _ _ hu hstep => Reachable.tail hu hstep) ?_ h Reachable.refl (Or.inl rfl)
      intro xs u ev u' hu hpre hstep
      exact hpre.step (hstep.edit hu.inv hu.sound)
    rcases honce with hzero | ⟨hone, -⟩
    · omega
    · omega

/-- Two keepers edit against the same revision; the second commits too late. -/
def twoKeepers : List Move :=
  [.create ⟨"f1", ⟨"ctl"⟩, none, none, "default", ⟨100, 0, 0, false⟩, "ship",
      [⟨"c1", "one", "", [], [], ⟨.none, [], .workspace, none, false⟩⟩], 0⟩,
   .edit 0 ⟨"f1", .retitle "c1" "first" "", 0, 1⟩,
   .edit 1 ⟨"f1", .addTask ⟨"c2", "two", "", ["c1"], [], ⟨.none, [], .workspace, none, false⟩⟩,
     0, 1⟩,
   .commit 1,
   .commit 0]

theorem edits_linearizable_two_keepers :
    (World.empty.play twoKeepers).1.length = 5 ∧
      (World.empty.play twoKeepers).1.countP (Event.mutates "f1" 0) = 1 ∧
      (World.empty.play twoKeepers).1.countP (Event.mutates "f1" 0) ≤ 1 :=
  ⟨by rfl, by rfl,
    (edits_linearizable (World.play_run twoKeepers World.empty)).2 "f1" 0⟩

end Octos.Fleet
