/-
# `Octos.Fleet.Evolve` — how single rows evolve

The invariant says what a state looks like; this module says what can happen to
one row from one state to the next.  Rows are never removed.  A child row is
kept, moved by the state machine of `ChildMove`, or rewritten by a re-plan; an
attempt that is no longer live is never written again; the rows of one fleet
are written only by effects on that fleet; and a plan changes only together
with its revision, by one.
-/
import Octos.Fleet.RefinePlan

namespace Octos.Fleet

variable {f : String} {k : Kind} {t t' : Tables}

/-! ## Children -/

/-- What an effect on a fleet may do to the row of one of its children. -/
inductive ChildStep (k : Kind) (ch : FleetChildRecord) : FleetChildRecord → Prop
  | move {met : Prop} {fl fl' : FleetRecord} {o o' : Option Attempt} {ch' : FleetChildRecord}
      (h : ChildMove met fl ch k o fl' ch' o') : ChildStep k ch ch'
  | replan {tasks : List PlanTask} {succeeded : List String} {newGen nowMs : U64}
      {interrupted : Bool} (hk : k = .replan) :
      ChildStep k ch (replanRow tasks succeeded newGen nowMs interrupted ch)

/-- An existing child row is kept, or stepped by an effect on its own fleet. -/
theorem Effect.child_step (hwf : WellFormed t) (he : Effect f k t t') {j : String}
    {ch : FleetChildRecord} (hch : t.children[j]? = some ch) :
    ∃ ch', t'.children[j]? = some ch' ∧ (ch' = ch ∨ ch.fleetId = f ∧ ChildStep k ch ch') := by
  cases he with
  | newFleet => exact ⟨ch, hch, Or.inl rfl⟩
  | newPlan => exact ⟨ch, hch, Or.inl rfl⟩
  | newChild _ _ hnone =>
      refine ⟨ch, (Table.get_insert_ne _ _ ?_).trans hch, Or.inl rfl⟩
      rintro rfl
      rw [hnone] at hch
      cases hch
  | @move _ _ fl fl' c x x' o o' hfl hx hslot hmove =>
      obtain ⟨hf, hc⟩ := hwf.child_ids hx
      have hkc := hmove.childKept
      have hkey : childKey x'.fleetId x'.childId = childKey f c := by
        rw [hkc.fleetId, hkc.childId, hf, hc]
      by_cases hj : childKey f c = j
      · subst hj
        obtain rfl := Option.some.inj (hx.symm.trans hch)
        refine ⟨x', ?_, Or.inr ⟨hf, .move hmove⟩⟩
        rw [← hkey]
        exact Table.get_insert_self _ _ _
      · refine ⟨ch, (Table.get_insert_ne _ _ ?_).trans hch, Or.inl rfl⟩
        rw [hkey]
        exact hj
  | edit => exact ⟨ch, hch, Or.inl rfl⟩
  | cancel => exact ⟨ch, hch, Or.inl rfl⟩
  | replan h =>
      by_cases hf : ch.fleetId = f
      · obtain ⟨i, hrow, -⟩ := h.existing _ _ hch hf
        exact ⟨_, hrow, Or.inr ⟨hf, .replan rfl⟩⟩
      · exact ⟨ch, h.foreign _ _ hch hf, Or.inl rfl⟩

/-- A child row that was not there is a fresh one, of the effect's fleet. -/
theorem Effect.child_new (hwf : WellFormed t) (he : Effect f k t t') {j : String}
    {ch' : FleetChildRecord} (hnone : t.children[j]? = none) (hch' : t'.children[j]? = some ch') :
    ∃ (c : String) (deps : List String) (st : ChildStatus) (gen nowMs : U64),
      j = childKey f c ∧ ch' = freshChild f c deps st gen nowMs ∧
        (st = .ready ∨ st = .planned) ∧ (k = .newChild c ∨ k = .replan) := by
  cases he with
  | newFleet => rw [hnone] at hch'; cases hch'
  | newPlan => rw [hnone] at hch'; cases hch'
  | @newChild _ _ c deps gen nowMs =>
      rcases Table.of_get_insert hch' with ⟨rfl, rfl⟩ | ⟨-, hch'⟩
      · refine ⟨c, deps, _, gen, nowMs, rfl, rfl, ?_, Or.inl rfl⟩
        rcases genesisStatus_cases deps with ⟨h, -⟩ | h
        · exact Or.inl h
        · exact Or.inr h
      · rw [hnone] at hch'
        cases hch'
  | move hfl hx hslot hmove =>
      rcases Table.of_get_insert hch' with ⟨rfl, rfl⟩ | ⟨-, hch'⟩
      · rw [hmove.childKept.fleetId, hmove.childKept.childId, hwf.child_key hx] at hnone
        cases hnone
      · rw [hnone] at hch'
        cases hch'
  | edit => rw [hnone] at hch'; cases hch'
  | cancel => rw [hnone] at hch'; cases hch'
  | replan h =>
      rcases h.child_cases hch' with ⟨hold, -⟩ | ⟨ch, i, hold, -⟩ | ⟨-, task, -, hk, rfl⟩
      · rw [hnone] at hold
        cases hold
      · rw [hnone] at hold
        cases hold
      · refine ⟨task.taskId, task.deps, _, h.newGen, h.nowMs, hk, rfl, ?_, Or.inr rfl⟩
        rcases readiness_cases h.succeeded task.deps with ⟨h, -⟩ | h
        · exact Or.inl h
        · exact Or.inr h

/-! ## Attempts -/

/-- A move works on a live attempt only. -/
theorem ChildMove.slot_live {met : Prop} {fl fl' : FleetRecord} {ch ch' : FleetChildRecord}
    {o o' : Option Attempt} (h : ChildMove met fl ch k o fl' ch' o') {a : Attempt}
    (ho : o = some a) : a.status.isLive = true ∧ ch.currentAttemptId = some a.attemptId := by
  cases h with
  | promote => cases ho
  | launch => cases ho
  | run _ _ hcur hatt => cases ho; exact ⟨by simp [hatt], hcur⟩
  | complete _ _ _ _ hcur hatt => cases ho; exact ⟨by simp [hatt], hcur⟩
  | escalate _ _ _ hcur hatt => cases ho; exact ⟨by simp [hatt], hcur⟩
  | grant => cases ho
  | deny => cases ho
  | reclaim _ hcur hatt => cases ho; exact ⟨hatt, hcur⟩

/-- An existing attempt row is kept, or was live and is updated by an effect on
its own fleet. -/
theorem Effect.attempt_step (hwf : WellFormed t) (he : Effect f k t t') {j : String}
    {a : Attempt} (ha : t.attempts[j]? = some a) :
    ∃ a', t'.attempts[j]? = some a' ∧ AttemptKept a a' ∧
      (a' = a ∨ a.fleetId = f ∧ a.status.isLive = true) := by
  cases he with
  | newFleet => exact ⟨a, ha, .refl a, Or.inl rfl⟩
  | newPlan => exact ⟨a, ha, .refl a, Or.inl rfl⟩
  | newChild => exact ⟨a, ha, .refl a, Or.inl rfl⟩
  | @move _ _ fl fl' c x x' o o' hfl hx hslot hmove =>
      by_cases hj : ∃ b, o' = some b ∧ j = attemptKey b.childId b.attemptId
      · obtain ⟨b, hb, rfl⟩ := hj
        have hbefore := Slot.before hwf hx hslot hmove hb
        rw [ha] at hbefore
        obtain ⟨b', hb', hkept⟩ := hmove.attemptKept hbefore.symm
        obtain rfl := Option.some.inj (hb.symm.trans hb')
        have hf := (Slot.written hwf hx hslot hmove hb).1
        refine ⟨b, put_attempt_self hb, hkept, Or.inr ⟨?_, (hmove.slot_live hbefore.symm).1⟩⟩
        rw [← hkept.fleetId]
        exact hf
      · refine ⟨a, ?_, .refl a, Or.inl rfl⟩
        rw [put_attempt_ne]
        · exact ha
        · intro b hb hjb
          exact hj ⟨b, hb, hjb⟩
  | edit => exact ⟨a, ha, .refl a, Or.inl rfl⟩
  | cancel => exact ⟨a, ha, .refl a, Or.inl rfl⟩
  | replan h =>
      have hrow := h.attempts j
      rw [ha, Option.map_some] at hrow
      by_cases hl : a.fleetId = f ∧ a.status.isLive = true
      · rw [if_pos hl] at hrow
        exact ⟨_, hrow, ⟨rfl, rfl, rfl, rfl, rfl, rfl⟩, Or.inr hl⟩
      · rw [if_neg hl] at hrow
        exact ⟨a, hrow, .refl a, Or.inl rfl⟩

/-- **A retired attempt is never written again.** -/
theorem Effect.attempt_retired (hwf : WellFormed t) (he : Effect f k t t') {j : String}
    {a : Attempt} (ha : t.attempts[j]? = some a) (hl : a.status.isLive = false) :
    t'.attempts[j]? = some a := by
  obtain ⟨a', ha', -, rfl | ⟨-, hlive⟩⟩ := he.attempt_step hwf ha
  · exact ha'
  · rw [hl] at hlive
    cases hlive

theorem Effects.attempt_retired {P : String → Kind → Prop} (hinv : Inv t)
    (he : Effects P t t') {j : String} {a : Attempt} (ha : t.attempts[j]? = some a)
    (hl : a.status.isLive = false) : t'.attempts[j]? = some a := by
  have hboth : Inv t' ∧ t'.attempts[j]? = some a :=
    he.keep (I := fun t => Inv t ∧ t.attempts[j]? = some a)
      (fun f k u u' _ hstep hu => ⟨hu.1.effect hstep, hstep.attempt_retired hu.1.wf hu.2 hl⟩)
      ⟨hinv, ha⟩
  exact hboth.2

/-! ## Fleets -/

/-- What an effect may do to the row of its fleet. -/
inductive FleetStep (k : Kind) (fl : FleetRecord) : FleetRecord → Prop
  | move {met : Prop} {fl' : FleetRecord} {ch ch' : FleetChildRecord} {o o' : Option Attempt}
      (h : ChildMove met fl ch k o fl' ch' o') : FleetStep k fl fl'
  | cancel {nowMs : U64} (hk : k = .cancel) (hlive : fleetIsLive fl = true) :
      FleetStep k fl { fl with status := .cancelled, updatedAtMs := nowMs }
  | replan {reserved newGen nowMs : U64} (hk : k = .replan) :
      FleetStep k fl { fl with
        budget := { fl.budget with tokensReserved := reserved }, generation := newGen,
        updatedAtMs := nowMs }

/-- An existing fleet row is kept, or stepped by an effect on that fleet. -/
theorem Effect.fleet_step (hwf : WellFormed t) (he : Effect f k t t') {j : String}
    {fl : FleetRecord} (hfl : t.fleets[j]? = some fl) :
    ∃ fl', t'.fleets[j]? = some fl' ∧ (fl' = fl ∨ j = f ∧ FleetStep k fl fl') := by
  cases he with
  | newFleet _ hnone =>
      refine ⟨fl, (Table.get_insert_ne _ _ ?_).trans hfl, Or.inl rfl⟩
      rintro rfl
      rw [hnone] at hfl
      cases hfl
  | newPlan => exact ⟨fl, hfl, Or.inl rfl⟩
  | newChild => exact ⟨fl, hfl, Or.inl rfl⟩
  | @move _ _ x x' c ch ch' o o' hx hch hslot hmove =>
      have hid : x'.fleetId = f := hmove.fleetKept.fleetId.trans (hwf.fleet _ _ hx).1
      by_cases hj : f = j
      · subst hj
        obtain rfl := Option.some.inj (hx.symm.trans hfl)
        refine ⟨x', ?_, Or.inr ⟨rfl, .move hmove⟩⟩
        show (t.fleets.insert x'.fleetId x')[f]? = some x'
        rw [hid]
        exact Table.get_insert_self _ _ _
      · refine ⟨fl, (Table.get_insert_ne _ _ ?_).trans hfl, Or.inl rfl⟩
        rw [hid]
        exact hj
  | edit => exact ⟨fl, hfl, Or.inl rfl⟩
  | @cancel _ x nowMs hx hlive =>
      by_cases hj : f = j
      · subst hj
        obtain rfl := Option.some.inj (hx.symm.trans hfl)
        exact ⟨_, Table.get_insert_self _ _ _, Or.inr ⟨rfl, .cancel rfl hlive⟩⟩
      · exact ⟨fl, (Table.get_insert_ne _ _ hj).trans hfl, Or.inl rfl⟩
  | replan h =>
      rw [h.fleets]
      by_cases hj : f = j
      · subst hj
        obtain rfl := Option.some.inj (h.fleet_found.symm.trans hfl)
        exact ⟨_, Table.get_insert_self _ _ _, Or.inr ⟨rfl, .replan rfl⟩⟩
      · exact ⟨fl, (Table.get_insert_ne _ _ hj).trans hfl, Or.inl rfl⟩

/-- A fleet row that was not there is a fresh one. -/
theorem Effect.fleet_new (hwf : WellFormed t) (he : Effect f k t t') {j : String}
    {fl' : FleetRecord} (hnone : t.fleets[j]? = none) (hfl' : t'.fleets[j]? = some fl') :
    k = .newFleet ∧ fl'.status = .active ∧ fl'.budget.tokensReserved = 0 ∧
      fl'.budget.tokensCommitted = 0 := by
  have hold : ∀ {x : FleetRecord}, t.fleets[f]? = some x →
      ∀ {y : FleetRecord}, ¬ (t.fleets.insert f y)[j]? = some fl' := by
    intro x hx y hy
    rcases Table.of_get_insert hy with ⟨rfl, -⟩ | ⟨-, hy⟩
    · rw [hnone] at hx
      cases hx
    · rw [hnone] at hy
      cases hy
  cases he with
  | newFleet _ _ _ _ hst hres hcom =>
      rcases Table.of_get_insert hfl' with ⟨rfl, rfl⟩ | ⟨-, hfl'⟩
      · exact ⟨rfl, hst, hres, hcom⟩
      · rw [hnone] at hfl'
        cases hfl'
  | newPlan => rw [hnone] at hfl'; cases hfl'
  | newChild => rw [hnone] at hfl'; cases hfl'
  | @move _ _ x x' _ _ _ _ _ hx _ _ hmove =>
      have hput : (t.fleets.insert x'.fleetId x')[j]? = some fl' := hfl'
      rw [hmove.fleetKept.fleetId, (hwf.fleet _ _ hx).1] at hput
      exact absurd hput (hold hx)
  | edit => rw [hnone] at hfl'; cases hfl'
  | cancel _ hx => exact absurd hfl' (hold hx)
  | replan h => exact absurd (h.fleets ▸ hfl') (hold h.fleet_found)

/-- Only a cancellation changes a fleet's status, and only of a live fleet. -/
theorem FleetStep.status {fl fl' : FleetRecord} (h : FleetStep k fl fl') :
    fl'.status = fl.status ∨ k = .cancel ∧ fleetIsLive fl = true ∧ fl'.status = .cancelled := by
  cases h with
  | move h => exact Or.inl h.fleetKept.status
  | cancel hk hlive => exact Or.inr ⟨hk, hlive, rfl⟩
  | replan => exact Or.inl rfl

/-- The fleet an effect works on is live, or does not exist yet, or recovery is
reclaiming. -/
theorem Effect.fleet_live (he : Effect f k t t') {fl : FleetRecord}
    (hfl : t.fleets[f]? = some fl) :
    fleetIsLive fl = true ∨ ∃ c a, k = .reclaim c a false := by
  cases he with
  | newFleet _ hnone =>
      rw [hnone] at hfl
      cases hfl
  | newPlan hx hlive => exact Or.inl (Option.some.inj (hx.symm.trans hfl) ▸ hlive)
  | newChild hx hlive => exact Or.inl (Option.some.inj (hx.symm.trans hfl) ▸ hlive)
  | move hx hch hslot hmove =>
      obtain rfl := Option.some.inj (hx.symm.trans hfl)
      exact hmove.live
  | edit hx hlive => exact Or.inl (Option.some.inj (hx.symm.trans hfl) ▸ hlive)
  | cancel _ hx hlive => exact Or.inl (Option.some.inj (hx.symm.trans hfl) ▸ hlive)
  | replan h => exact Or.inl (Option.some.inj (h.fleet_found.symm.trans hfl) ▸ h.fleet_live)

/-! ## Plans -/

/-- A plan row is kept, or replaced by an effect on its fleet under the next
revision. -/
theorem Effect.plan_step (he : Effect f k t t') {j : String} {p : DurablePlan}
    (hp : t.plans[j]? = some p) :
    t'.plans[j]? = some p ∨ j = f ∧ (k = .edit ∨ k = .replan) ∧
      ∃ p', t'.plans[j]? = some p' ∧ p'.revision.toNat = p.revision.toNat + 1 := by
  cases he with
  | newFleet => exact Or.inl hp
  | newPlan _ _ hnone =>
      refine Or.inl ((Table.get_insert_ne _ _ ?_).trans hp)
      rintro rfl
      rw [hnone] at hp
      cases hp
  | newChild => exact Or.inl hp
  | move => exact Or.inl hp
  | @edit _ _ p₀ p' _ _ hplan _ _ _ hrev =>
      by_cases hj : f = j
      · subst hj
        obtain rfl := Option.some.inj (hplan.symm.trans hp)
        exact Or.inr ⟨rfl, Or.inl rfl, p', Table.get_insert_self _ _ _, hrev⟩
      · exact Or.inl ((Table.get_insert_ne _ _ hj).trans hp)
  | cancel => exact Or.inl hp
  | replan h =>
      rw [h.plans]
      by_cases hj : f = j
      · subst hj
        obtain rfl := Option.some.inj (h.plan_found.symm.trans hp)
        exact Or.inr ⟨rfl, Or.inr rfl, h.plan', Table.get_insert_self _ _ _, h.revision_eq⟩
      · exact Or.inl ((Table.get_insert_ne _ _ hj).trans hp)

theorem Effect.plan_other (he : Effect f k t t') {j : String} (hne : f ≠ j) :
    t'.plans[j]? = t.plans[j]? := by
  cases he with
  | newFleet => rfl
  | newPlan => exact Table.get_insert_ne _ _ hne
  | newChild => rfl
  | move => rfl
  | edit => exact Table.get_insert_ne _ _ hne
  | cancel => rfl
  | replan h =>
      rw [h.plans]
      exact Table.get_insert_ne _ _ hne

/-! ## The frame of an effect -/

theorem ChildStep.fleetId {ch ch' : FleetChildRecord} (h : ChildStep k ch ch') :
    ch'.fleetId = ch.fleetId := by
  cases h with
  | move h => exact h.childKept.fleetId
  | replan => exact (replanRow_kept _ _ _ _ _ ch).1

/-- An attempt row that was not there belongs to the effect's fleet. -/
theorem Effect.attempt_new (hwf : WellFormed t) (he : Effect f k t t') {j : String}
    {a' : Attempt} (hnone : t.attempts[j]? = none) (ha' : t'.attempts[j]? = some a') :
    a'.fleetId = f := by
  cases he with
  | @move _ _ fl fl' c x x' o o' hfl hx hslot hmove =>
      rcases put_attempt_of ha' with ⟨ho, -⟩ | ⟨-, hold⟩
      · exact (Slot.written hwf hx hslot hmove ho).1
      · rw [hnone] at hold
        cases hold
  | replan h =>
      have hrow := h.attempts j
      rw [hnone, ha'] at hrow
      cases hrow
  | _ =>
      have hold : t.attempts[j]? = some a' := ha'
      rw [hnone] at hold
      cases hold

/-- The fleet, its plan, its children and its attempts are the same in both. -/
structure SameRows (g : String) (t t' : Tables) : Prop where
  fleet : t'.fleets[g]? = t.fleets[g]?
  plan : t'.plans[g]? = t.plans[g]?
  children : ∀ (j : String) (ch : FleetChildRecord), ch.fleetId = g →
    (t'.children[j]? = some ch ↔ t.children[j]? = some ch)
  attempts : ∀ (j : String) (a : Attempt), a.fleetId = g →
    (t'.attempts[j]? = some a ↔ t.attempts[j]? = some a)

theorem SameRows.refl (g : String) (t : Tables) : SameRows g t t :=
  ⟨rfl, rfl, fun _ _ _ => Iff.rfl, fun _ _ _ => Iff.rfl⟩

theorem SameRows.trans {g : String} {t₁ t₂ t₃ : Tables} (h : SameRows g t₁ t₂)
    (h' : SameRows g t₂ t₃) : SameRows g t₁ t₃ where
  fleet := h'.fleet.trans h.fleet
  plan := h'.plan.trans h.plan
  children := by
    intro j ch hg
    exact (h'.children j ch hg).trans (h.children j ch hg)
  attempts := by
    intro j a hg
    exact (h'.attempts j a hg).trans (h.attempts j a hg)

theorem Effect.fleet_other (hwf : WellFormed t) (he : Effect f k t t') {j : String}
    (hne : f ≠ j) : t'.fleets[j]? = t.fleets[j]? := by
  cases he with
  | newFleet => exact Table.get_insert_ne _ _ hne
  | newPlan => rfl
  | newChild => rfl
  | @move _ _ x x' _ _ _ _ _ hx _ _ hmove =>
      show (t.fleets.insert x'.fleetId x')[j]? = t.fleets[j]?
      rw [hmove.fleetKept.fleetId, (hwf.fleet _ _ hx).1]
      exact Table.get_insert_ne _ _ hne
  | edit => rfl
  | cancel => exact Table.get_insert_ne _ _ hne
  | replan h =>
      rw [h.fleets]
      exact Table.get_insert_ne _ _ hne

/-- **The frame.**  An effect on one fleet leaves every other fleet alone. -/
theorem Effect.frame (hwf : WellFormed t) (he : Effect f k t t') {g : String} (hne : f ≠ g) :
    SameRows g t t' where
  fleet := he.fleet_other hwf hne
  plan := he.plan_other hne
  children := by
    intro j ch' hg
    constructor
    · intro hch'
      cases hold : t.children[j]? with
      | none =>
          obtain ⟨c, deps, st, gen, nowMs, -, rfl, -⟩ := he.child_new hwf hold hch'
          exact absurd hg hne
      | some ch =>
          obtain ⟨x, hx, hstep⟩ := he.child_step hwf hold
          obtain rfl := Option.some.inj (hch'.symm.trans hx)
          rcases hstep with rfl | ⟨hf, hstep⟩
          · rfl
          · exact absurd (hf.symm.trans (hstep.fleetId.symm.trans hg)) hne
    · intro hch
      obtain ⟨x, hx, rfl | ⟨hf, -⟩⟩ := he.child_step hwf hch
      · exact hx
      · exact absurd (hf.symm.trans hg) hne
  attempts := by
    intro j a' hg
    constructor
    · intro ha'
      cases hold : t.attempts[j]? with
      | none => exact absurd ((he.attempt_new hwf hold ha').symm.trans hg) hne
      | some a =>
          obtain ⟨x, hx, hkept, hstep⟩ := he.attempt_step hwf hold
          obtain rfl := Option.some.inj (ha'.symm.trans hx)
          rcases hstep with rfl | ⟨hf, -⟩
          · rfl
          · exact absurd (hf.symm.trans (hkept.fleetId.symm.trans hg)) hne
    · intro ha
      obtain ⟨x, hx, -, rfl | ⟨hf, -⟩⟩ := he.attempt_step hwf ha
      · exact hx
      · exact absurd (hf.symm.trans hg) hne

/-- So does a sequence of effects on other fleets. -/
theorem Effects.frame {P : String → Kind → Prop} {g : String} (hinv : Inv t)
    (he : Effects P t t') (hP : ∀ h k, P h k → h ≠ g) : SameRows g t t' := by
  have hboth : Inv t' ∧ SameRows g t t' := by
    refine he.keep (I := fun u => Inv u ∧ SameRows g t u) ?_ ⟨hinv, .refl g t⟩
    intro h k u u' hk hstep hu
    exact ⟨hu.1.effect hstep, hu.2.trans (hstep.frame hu.1.wf (hP h k hk))⟩
  exact hboth.2

end Octos.Fleet
