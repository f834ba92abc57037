/-
# `Octos.Fleet.Preserve` — every effect keeps the invariant

One theorem per part of `Inv`, each by cases on the effect.  For a move the
work was done on rows in `Octos.Fleet.Effect`; what is left here is that the
rows the move does not write are where they were.  For a re-plan the cases are
those of `Replanned.child_cases`.
-/
import Octos.Fleet.Invariant

namespace Octos.Fleet

variable {f : String} {k : Kind} {t t' : Tables}

/-! ## Well-formedness -/

theorem WellFormed.move {fl fl' : FleetRecord} {c : String} {ch ch' : FleetChildRecord}
    {o o' : Option Attempt} {met : Prop} (hwf : WellFormed t) (hfl : t.fleets[f]? = some fl)
    (hch : t.children[childKey f c]? = some ch) (hslot : Slot t ch o o')
    (hmove : ChildMove met fl ch k o fl' ch' o') : WellFormed (t.put fl' ch' o') := by
  have hkf := hmove.fleetKept
  have hkc := hmove.childKept
  obtain ⟨hf, hc⟩ := hwf.child_ids hch
  obtain ⟨hid, hver, hsafe⟩ := hwf.fleet _ _ hfl
  have hkey : childKey ch'.fleetId ch'.childId = childKey f c := by
    rw [hkc.fleetId, hkc.childId, hf, hc]
  constructor
  · intro j x hx
    rcases Table.of_get_insert hx with ⟨rfl, rfl⟩ | ⟨-, hx⟩
    · refine ⟨rfl, hkf.schemaVersion.trans hver, ?_⟩
      rw [hkf.fleetId, hid]
      exact hsafe
    · exact hwf.fleet _ _ hx
  · intro j x hx
    rcases Table.of_get_insert hx with ⟨rfl, rfl⟩ | ⟨-, hx⟩
    · obtain ⟨-, hv, h₁, h₂⟩ := hwf.child _ _ hch
      exact ⟨rfl, hkc.schemaVersion hv, hkc.fleetId ▸ h₁, hkc.childId ▸ h₂⟩
    · exact hwf.child _ _ hx
  · intro j x hx
    refine Table.exists_insert _ _ ?_
    rcases Table.of_get_insert hx with ⟨rfl, rfl⟩ | ⟨-, hx⟩
    · exact hkc.fleetId ▸ hwf.childFleet _ _ hch
    · exact hwf.childFleet _ _ hx
  · intro j x hx
    rcases put_attempt_of hx with ⟨ho, hj⟩ | ⟨-, hx⟩
    · exact ⟨hj, (Slot.written hwf hch hslot hmove ho).2.2.1⟩
    · exact hwf.attempt _ _ hx
  · intro j x hx
    refine Table.exists_insert _ _ ?_
    rcases put_attempt_of hx with ⟨ho, -⟩ | ⟨-, hx⟩
    · obtain ⟨h₁, h₂, -⟩ := Slot.written hwf hch hslot hmove ho
      exact ⟨ch, by rw [h₁, h₂]; exact hch⟩
    · exact hwf.attemptChild _ _ hx
  · intro j j' x x' hx hx' hxx
    rcases put_attempt_of hx with ⟨ho, hj⟩ | ⟨hn, hx⟩
    · rcases put_attempt_of hx' with ⟨ho', hj'⟩ | ⟨hn', hx'⟩
      · obtain rfl := Option.some.inj (ho.symm.trans ho')
        exact hj.trans hj'.symm
      · have huniq := (Slot.written hwf hch hslot hmove ho).2.2.2
        exact absurd (huniq _ _ hx' hxx.symm).1 (hn' _ ho)
    · rcases put_attempt_of hx' with ⟨ho', -⟩ | ⟨-, hx'⟩
      · have huniq := (Slot.written hwf hch hslot hmove ho').2.2.2
        exact absurd (huniq _ _ hx hxx).1 (hn _ ho')
      · exact hwf.attemptUnique _ _ _ _ hx hx' hxx
  · intro j p hp
    obtain ⟨h₁, h₂, h₃⟩ := hwf.plan _ _ hp
    exact ⟨h₁, h₂, Table.exists_insert _ _ h₃⟩

/-- Writing a fleet row of the right id keeps the tables well formed. -/
theorem WellFormed.insert_fleet {fl : FleetRecord} (hwf : WellFormed t)
    (hsafe : keyComponentIsSafe f = true) (hid : fl.fleetId = f)
    (hver : fl.schemaVersion = schemaVersionCurrent) :
    WellFormed { t with fleets := t.fleets.insert f fl } where
  fleet := by
    intro j x hx
    rcases Table.of_get_insert hx with ⟨rfl, rfl⟩ | ⟨-, hx⟩
    · exact ⟨hid, hver, hsafe⟩
    · exact hwf.fleet _ _ hx
  child := hwf.child
  childFleet := fun j x hx => Table.exists_insert _ _ (hwf.childFleet j x hx)
  attempt := hwf.attempt
  attemptChild := hwf.attemptChild
  attemptUnique := hwf.attemptUnique
  plan := by
    intro j p hp
    obtain ⟨h₁, h₂, h₃⟩ := hwf.plan _ _ hp
    exact ⟨h₁, h₂, Table.exists_insert _ _ h₃⟩

/-- Writing a plan row of an existing fleet keeps the tables well formed. -/
theorem WellFormed.insert_plan {fl : FleetRecord} {p : DurablePlan} (hwf : WellFormed t)
    (hfl : t.fleets[f]? = some fl) (hid : p.fleetId = f)
    (hver : p.schemaVersion = schemaVersionCurrent) :
    WellFormed { t with plans := t.plans.insert f p } where
  fleet := hwf.fleet
  child := hwf.child
  childFleet := hwf.childFleet
  attempt := hwf.attempt
  attemptChild := hwf.attemptChild
  attemptUnique := hwf.attemptUnique
  plan := by
    intro j q hq
    rcases Table.of_get_insert hq with ⟨rfl, rfl⟩ | ⟨-, hq⟩
    · exact ⟨hid, hver, fl, hfl⟩
    · exact hwf.plan _ _ hq

theorem WellFormed.insert_child {fl : FleetRecord} (hwf : WellFormed t) (ch : FleetChildRecord)
    (hfl : t.fleets[ch.fleetId]? = some fl) (hver : ch.schemaVersion = schemaVersionCurrent)
    (hc : keyComponentIsSafe ch.childId = true) :
    WellFormed { t with
      children := t.children.insert (childKey ch.fleetId ch.childId) ch } where
  fleet := hwf.fleet
  child := by
    intro j x hx
    rcases Table.of_get_insert hx with ⟨rfl, rfl⟩ | ⟨-, hx⟩
    · exact ⟨rfl, hver, (hwf.fleet _ _ hfl).2.2, hc⟩
    · exact hwf.child _ _ hx
  childFleet := by
    intro j x hx
    rcases Table.of_get_insert hx with ⟨rfl, rfl⟩ | ⟨-, hx⟩
    · exact ⟨fl, hfl⟩
    · exact hwf.childFleet _ _ hx
  attempt := hwf.attempt
  attemptChild := fun j x hx => Table.exists_insert _ _ (hwf.attemptChild j x hx)
  attemptUnique := hwf.attemptUnique
  plan := hwf.plan

theorem WellFormed.replan (hwf : WellFormed t) (h : Replanned f t t') : WellFormed t' := by
  have hsafe := (hwf.fleet _ _ h.fleet_found).2.2
  obtain ⟨hid, hver, -⟩ := hwf.fleet _ _ h.fleet_found
  constructor
  · intro j x hx
    rw [h.fleets] at hx
    rcases Table.of_get_insert hx with ⟨rfl, rfl⟩ | ⟨-, hx⟩
    · exact ⟨hid, hver, hsafe⟩
    · exact hwf.fleet _ _ hx
  · intro j x hx
    rcases h.child_cases hx with ⟨hx, -⟩ | ⟨ch, i, hch, -, rfl, -⟩ | ⟨-, task, hmem, rfl, rfl⟩
    · exact hwf.child _ _ hx
    · obtain ⟨h₁, h₂, h₃, -⟩ :=
        replanRow_kept h.plan'.tasks h.succeeded h.newGen h.nowMs i ch
      rw [h₁, h₂, h₃]
      exact hwf.child _ _ hch
    · refine ⟨rfl, rfl, hsafe, h.safe _ ?_⟩
      exact List.mem_cons_of_mem _ (List.mem_flatMap.mpr ⟨task, hmem, List.mem_cons_self⟩)
  · intro j x hx
    rw [h.fleets]
    refine Table.exists_insert _ _ ?_
    rcases h.child_cases hx with ⟨hx, -⟩ | ⟨ch, i, hch, -, rfl, -⟩ | ⟨-, task, -, -, rfl⟩
    · exact hwf.childFleet _ _ hx
    · rw [(replanRow_kept h.plan'.tasks h.succeeded h.newGen h.nowMs i ch).1]
      exact hwf.childFleet _ _ hch
    · exact ⟨_, h.fleet_found⟩
  · intro j x hx
    obtain ⟨a, ha, hkept, -⟩ := h.attempt_of hx
    rw [hkept.childId, hkept.attemptId, hkept.schemaVersion]
    exact hwf.attempt _ _ ha
  · intro j x hx
    obtain ⟨a, ha, hkept, -⟩ := h.attempt_of hx
    obtain ⟨ch, hch⟩ := hwf.attemptChild _ _ ha
    rw [hkept.fleetId, hkept.childId]
    exact h.child_stays hch
  · intro j j' x x' hx hx' hxx
    obtain ⟨a, ha, hkept, -⟩ := h.attempt_of hx
    obtain ⟨a', ha', hkept', -⟩ := h.attempt_of hx'
    rw [hkept.attemptId, hkept'.attemptId] at hxx
    exact hwf.attemptUnique _ _ _ _ ha ha' hxx
  · intro j p hp
    rw [h.plans] at hp
    rw [h.fleets]
    rcases Table.of_get_insert hp with ⟨rfl, rfl⟩ | ⟨-, hp⟩
    · exact ⟨h.plan_fleetId, h.plan_version, Table.exists_insert _ _ ⟨_, h.fleet_found⟩⟩
    · obtain ⟨h₁, h₂, h₃⟩ := hwf.plan _ _ hp
      exact ⟨h₁, h₂, Table.exists_insert _ _ h₃⟩

theorem WellFormed.effect (hwf : WellFormed t) (he : Effect f k t t') : WellFormed t' := by
  cases he with
  | newFleet hsafe _ hid hver => exact hwf.insert_fleet hsafe hid hver
  | newPlan hfl _ _ hid hver => exact hwf.insert_plan hfl hid hver
  | @newChild _ _ c deps gen nowMs hfl _ _ hc =>
      exact hwf.insert_child (freshChild f c deps (genesisStatus deps) gen nowMs) hfl rfl hc
  | move hfl hch hslot hmove => exact hwf.move hfl hch hslot hmove
  | edit hfl _ _ _ hid hver => exact hwf.insert_plan hfl hid hver
  | cancel _ hfl =>
      obtain ⟨h₁, h₂, h₃⟩ := hwf.fleet _ _ hfl
      exact hwf.insert_fleet h₃ h₁ h₂
  | replan h => exact hwf.replan h

/-! ## Rows -/

theorem RowsOk.effect (hrows : RowsOk t) (he : Effect f k t t') : RowsOk t' := by
  cases he with
  | newFleet => exact hrows
  | newPlan => exact hrows
  | @newChild _ _ c deps =>
      intro j x hx
      rcases Table.of_get_insert hx with ⟨-, rfl⟩ | ⟨-, hx⟩
      · refine .fresh ?_
        rcases genesisStatus_cases deps with ⟨h, -⟩ | h
        · exact Or.inl h
        · exact Or.inr h
      · exact hrows _ _ hx
  | move _ hch _ hmove =>
      intro j x hx
      rcases Table.of_get_insert hx with ⟨-, rfl⟩ | ⟨-, hx⟩
      · exact hmove.rowOk (hrows _ _ hch)
      · exact hrows _ _ hx
  | edit => exact hrows
  | cancel => exact hrows
  | replan h =>
      intro j x hx
      rcases h.child_cases hx with ⟨hx, -⟩ | ⟨ch, i, hch, -, rfl, -⟩ | ⟨-, task, -, -, rfl⟩
      · exact hrows _ _ hx
      · exact (hrows _ _ hch).replanRow
      · refine .fresh ?_
        rcases readiness_cases h.succeeded task.deps with ⟨h, -⟩ | h
        · exact Or.inl h
        · exact Or.inr h

/-! ## Pointers and attempts -/

/-- The pointer of a child rules out the statuses that have none. -/
theorem Linked.pointee_ne (hl : Linked t) {j : String} {ch : FleetChildRecord}
    (hch : t.children[j]? = some ch) :
    ∀ a, ch.currentAttemptId = some a → pointee ch.status ≠ none := by
  intro a ha hnone
  obtain ⟨att, -, -, hp⟩ := hl.pointer _ _ _ hch ha
  rw [hnone] at hp
  cases hp

theorem Linked.move {fl fl' : FleetRecord} {c : String} {ch ch' : FleetChildRecord}
    {o o' : Option Attempt} {met : Prop} (hwf : WellFormed t) (hl : Linked t)
    (hfl : t.fleets[f]? = some fl) (hch : t.children[childKey f c]? = some ch)
    (hslot : Slot t ch o o') (hmove : ChildMove met fl ch k o fl' ch' o') :
    Linked (t.put fl' ch' o') := by
  have hkf := hmove.fleetKept
  have hkc := hmove.childKept
  obtain ⟨hf, hc⟩ := hwf.child_ids hch
  have hsafe := hwf.child_safe hch
  have hkey : childKey ch'.fleetId ch'.childId = childKey f c := by
    rw [hkc.fleetId, hkc.childId, hf, hc]
  have hlink := hl.pointee_ne hch
  constructor
  · -- the pointer of a child
    intro j x a hx ha
    rcases Table.of_get_insert hx with ⟨-, rfl⟩ | ⟨hne, hx⟩
    · obtain ⟨att', ho, rfl, hp⟩ := hmove.pointee_after hlink ha
      obtain ⟨h₁, h₂, -⟩ := Slot.written hwf hch hslot hmove ho
      refine ⟨att', ?_, ?_, hp⟩
      · rw [hkc.childId, hc, ← h₂]
        exact put_attempt_self ho
      · rw [h₁, hkc.fleetId, hf]
    · obtain ⟨att, hatt, hxf, hp⟩ := hl.pointer _ _ _ hx ha
      refine ⟨att, ?_, hxf, hp⟩
      rw [put_attempt_ne]
      · exact hatt
      -- an attempt of this child under the same key would be of fleet `f`
      · intro b hb hkb
        obtain ⟨h₁, h₂, -, huniq⟩ := Slot.written hwf hch hslot hmove hb
        obtain ⟨-, -, -, hxs⟩ := hwf.child _ _ hx
        obtain ⟨hxc, rfl⟩ := (attemptKey_inj hxs (h₂ ▸ hsafe.2)).mp hkb
        obtain ⟨hac, haid⟩ := hwf.attempt_ids hxs hatt
        obtain ⟨-, ho⟩ := huniq _ _ hatt haid
        obtain ⟨_, ho', hkept⟩ := hmove.attemptKept ho
        obtain rfl := Option.some.inj (hb.symm.trans ho')
        apply hne
        rw [hkey, (hwf.child _ _ hx).1, ← hxf, hxc, ← h₁, h₂, hkept.fleetId]
  · -- the owner of a live attempt
    intro j x hx hlive
    rcases put_attempt_of hx with ⟨ho, -⟩ | ⟨hn, hx⟩
    · obtain ⟨h₁, h₂, -⟩ := Slot.written hwf hch hslot hmove ho
      refine ⟨ch', ?_, hmove.live_after ho hlive⟩
      rw [h₁, h₂, ← hkey]
      exact Table.get_insert_self _ _ _
    · obtain ⟨y, hy, hcur⟩ := hl.owner _ _ hx hlive
      by_cases hk : childKey x.fleetId x.childId = childKey f c
      · -- the move would have worked on this very attempt
        rw [hk, hch] at hy
        obtain rfl := Option.some.inj hy
        obtain ⟨att, ho, hid⟩ := hmove.current_in_slot hlink hcur
        obtain ⟨att', ho', hkept⟩ := hmove.attemptKept ho
        have huniq := (Slot.written hwf hch hslot hmove ho').2.2.2
        have hjx := (huniq _ _ hx (by rw [hkept.attemptId, hid])).1
        exact absurd hjx (hn _ ho')
      · refine ⟨y, ?_, hcur⟩
        rw [← hkey] at hk
        exact (Table.get_insert_ne _ _ (fun h => hk h.symm)).trans hy
  · -- generations
    intro j x y hx hlive hy
    rcases put_attempt_of hx with ⟨ho, -⟩ | ⟨hn, hx⟩
    · obtain ⟨h₁, -, -, -⟩ := Slot.written hwf hch hslot hmove ho
      have hgen : ∀ att, o = some att → att.status.isLive = true →
          att.generation = fl.generation := by
        intro att hatt hal
        subst hatt
        obtain ⟨_, ho', -⟩ := hmove.attemptKept rfl
        obtain rfl := Option.some.inj (ho.symm.trans ho')
        subst ho
        obtain ⟨haf, -, hrow⟩ := hslot
        exact hl.generation _ _ _ hrow hal (by rw [haf, hf]; exact hfl)
      rw [hmove.generation_after hgen ho hlive]
      have hid : fl'.fleetId = x.fleetId := by
        rw [hkf.fleetId, (hwf.fleet _ _ hfl).1, h₁]
      rw [show (t.put fl' ch' o').fleets = t.fleets.insert fl'.fleetId fl' from rfl, ← hid,
        Table.get_insert_self] at hy
      rw [Option.some.inj hy]
    · rcases Table.of_get_insert hy with ⟨hid, rfl⟩ | ⟨-, hy⟩
      · rw [hkf.generation]
        refine hl.generation _ _ _ hx hlive ?_
        rw [← hid, hkf.fleetId, (hwf.fleet _ _ hfl).1]
        exact hfl
      · exact hl.generation _ _ _ hx hlive hy

theorem Linked.replan (hwf : WellFormed t) (hl : Linked t) (h : Replanned f t t') :
    Linked t' := by
  constructor
  · intro j x a hx ha
    rcases h.child_cases hx with ⟨hx, hne⟩ | ⟨ch, i, hch, hf, rfl, hi⟩ | ⟨-, task, -, -, rfl⟩
    · obtain ⟨att, hatt, haf, hp⟩ := hl.pointer _ _ _ hx ha
      refine ⟨att, ?_, haf, hp⟩
      rw [h.attempts, hatt, Option.map_some, if_neg]
      rintro ⟨haf', -⟩
      exact hne (haf ▸ haf')
    · have hkept := replanRow_kept h.plan'.tasks h.succeeded h.newGen h.nowMs i ch
      rcases replanRow_cases h.plan'.tasks h.succeeded h.newGen h.nowMs i ch with
        ⟨_, _, _, _, hst, hst', _, _, hcur⟩ | ⟨_, _, _, _, _, _, _, _, hcur⟩ |
          ⟨_, _, _, _, _, hcur⟩
      · -- a succeeded survivor points at a finished attempt, which is not interrupted
        rw [hcur, hi hst] at ha
        obtain ⟨att, hatt, haf, hp⟩ := hl.pointer _ _ _ hch ha
        refine ⟨att, ?_, by rw [hkept.1, haf], by rw [hst', ← hst, hp]⟩
        have hdone : att.status = .done := by
          rw [hst] at hp
          exact (Option.some.inj hp).symm
        rw [hkept.2.1, h.attempts, hatt, Option.map_some, if_neg]
        simp [hdone]
      · rw [hcur] at ha
        cases ha
      · rw [hcur] at ha
        cases ha
    · cases ha
  · intro j x hx hlive
    obtain ⟨hx, hne⟩ := h.live_attempt hx hlive
    obtain ⟨ch, hch, hcur⟩ := hl.owner _ _ hx hlive
    refine ⟨ch, h.foreign _ _ hch ?_, hcur⟩
    rw [(hwf.child_ids hch).1]
    exact hne
  · intro j x fl hx hlive hfl
    obtain ⟨hx, hne⟩ := h.live_attempt hx hlive
    rw [h.fleets, Table.get_insert_ne _ _ (fun he => hne he.symm)] at hfl
    exact hl.generation _ _ _ hx hlive hfl

/-- Replacing a fleet row by one of the same generation keeps the links. -/
theorem Linked.insert_fleet {fl : FleetRecord} (hl : Linked t)
    (hgen : ∀ (j : String) (att : Attempt), t.attempts[j]? = some att → att.fleetId = f →
      att.status.isLive = true → att.generation = fl.generation) :
    Linked { t with fleets := t.fleets.insert f fl } where
  pointer := hl.pointer
  owner := hl.owner
  generation := by
    intro j att x hatt hlive hx
    rcases Table.of_get_insert hx with ⟨hf, rfl⟩ | ⟨-, hx⟩
    · exact hgen j att hatt hf.symm hlive
    · exact hl.generation _ _ _ hatt hlive hx

theorem Linked.effect (hwf : WellFormed t) (hl : Linked t) (he : Effect f k t t') :
    Linked t' := by
  cases he with
  | newFleet _ hnone =>
      refine hl.insert_fleet ?_
      -- a fleet without a row has no children, hence no attempts
      rintro j att hatt rfl -
      obtain ⟨ch, hch⟩ := hwf.attemptChild _ _ hatt
      obtain ⟨fl, hfl⟩ := hwf.childFleet _ _ hch
      rw [(hwf.child_ids hch).1, hnone] at hfl
      cases hfl
  | newPlan => exact ⟨hl.pointer, hl.owner, hl.generation⟩
  | newChild hfl _ hnone hc =>
      refine ⟨?_, ?_, hl.generation⟩
      · intro j x a hx ha
        rcases Table.of_get_insert hx with ⟨-, rfl⟩ | ⟨-, hx⟩
        · cases ha
        · exact hl.pointer _ _ _ hx ha
      · intro j x hx hlive
        obtain ⟨y, hy, hcur⟩ := hl.owner _ _ hx hlive
        refine ⟨y, ?_, hcur⟩
        refine (Table.get_insert_ne _ _ ?_).trans hy
        intro hk
        rw [← hk, hnone] at hy
        cases hy
  | move hfl hch hslot hmove => exact hl.move hwf hfl hch hslot hmove
  | edit => exact ⟨hl.pointer, hl.owner, hl.generation⟩
  | cancel _ hfl =>
      refine hl.insert_fleet ?_
      rintro j att hatt rfl hlive
      have hgen := hl.generation _ _ _ hatt hlive hfl
      exact hgen
  | replan h => exact hl.replan hwf h

/-! ## Ledgers -/

/-- The row a move overwrites is the attempt that was in its slot. -/
theorem Slot.before {fl fl' : FleetRecord} {c : String} {ch ch' : FleetChildRecord}
    {o o' : Option Attempt} {met : Prop} (hwf : WellFormed t)
    (hch : t.children[childKey f c]? = some ch) (hslot : Slot t ch o o')
    (hmove : ChildMove met fl ch k o fl' ch' o') {a' : Attempt} (ho : o' = some a') :
    t.attempts[attemptKey a'.childId a'.attemptId]? = o := by
  obtain ⟨-, hc, -, huniq⟩ := Slot.written hwf hch hslot hmove ho
  cases o with
  | none =>
      cases hrow : t.attempts[attemptKey a'.childId a'.attemptId]? with
      | none => rfl
      | some x =>
          have hid := (hwf.attempt_ids (hc ▸ (hwf.child_safe hch).2) hrow).2
          exact absurd (huniq _ _ hrow hid).2 (by simp)
  | some a =>
      obtain ⟨_, ho', hkept⟩ := hmove.attemptKept rfl
      obtain rfl := Option.some.inj (ho.symm.trans ho')
      subst ho
      rw [hkept.childId, hkept.attemptId]
      exact hslot.2.2

/-- A move shifts the reservation ledger of its own fleet by what the slot
holds, and no other. -/
theorem reserved_put {fl fl' : FleetRecord} {c : String} {ch ch' : FleetChildRecord}
    {o o' : Option Attempt} {met : Prop} (hwf : WellFormed t)
    (hch : t.children[childKey f c]? = some ch) (hslot : Slot t ch o o')
    (hmove : ChildMove met fl ch k o fl' ch' o') (g : String) :
    Table.total (reservedBy g) (t.put fl' ch' o').attempts +
        (if g = f then ChildMove.held o else 0) =
      Table.total (reservedBy g) t.attempts + (if g = f then ChildMove.held o' else 0) := by
  have hheld : ∀ a : Attempt, a.fleetId = f →
      reservedBy g a = if g = f then ChildMove.held (some a) else 0 := by
    intro a ha
    by_cases hg : g = f
    · simp [reservedBy, ChildMove.held, ha, hg]
    · simp [reservedBy, ha, hg, Ne.symm hg]
  cases o' with
  | none =>
      cases o with
      | none => rfl
      | some a => exact absurd hslot (by simp [Slot])
  | some a' =>
      have hins := Table.total_insert (reservedBy g) t.attempts
        (attemptKey a'.childId a'.attemptId) a'
      rw [Slot.before hwf hch hslot hmove rfl,
        hheld a' (Slot.written hwf hch hslot hmove rfl).1] at hins
      cases o with
      | none => simpa [ChildMove.held, Tables.put] using hins
      | some a =>
          rw [Table.weight_some, hheld a (hslot.1.trans (hwf.child_ids hch).1)] at hins
          exact hins

theorem Ledger.move {fl fl' : FleetRecord} {c : String} {ch ch' : FleetChildRecord}
    {o o' : Option Attempt} {met : Prop} (hwf : WellFormed t) (hled : Ledger t)
    (hfl : t.fleets[f]? = some fl) (hch : t.children[childKey f c]? = some ch)
    (hslot : Slot t ch o o') (hmove : ChildMove met fl ch k o fl' ch' o') :
    Ledger (t.put fl' ch' o') := by
  have hkf := hmove.fleetKept
  have hkc := hmove.childKept
  have hid : fl'.fleetId = f := hkf.fleetId.trans (hwf.fleet _ _ hfl).1
  obtain ⟨hf, hc⟩ := hwf.child_ids hch
  have hkey : childKey ch'.fleetId ch'.childId = childKey f c := by
    rw [hkc.fleetId, hkc.childId, hf, hc]
  constructor
  · intro g x hx
    have hput := reserved_put hwf hch hslot hmove g
    rcases Table.of_get_insert hx with ⟨hg, rfl⟩ | ⟨hg, hx⟩
    · rw [if_pos (hg.symm.trans hid), if_pos (hg.symm.trans hid)] at hput
      have hbal := hmove.reserved_balance
      have hold := hled.reserved _ _ hfl
      rw [← hid, hg] at hold
      omega
    · have hgf : g ≠ f := fun h => hg (hid.trans h.symm)
      rw [if_neg hgf, if_neg hgf] at hput
      have hold := hled.reserved _ _ hx
      omega
  · intro g x hx
    have hput := Table.total_insert (committedBy g) t.children (childKey f c) ch'
    rw [hch, Table.weight_some] at hput
    have htab : (t.put fl' ch' o').children = t.children.insert (childKey f c) ch' := by
      rw [← hkey]
      rfl
    rw [htab]
    rcases Table.of_get_insert hx with ⟨hg, rfl⟩ | ⟨hg, hx⟩
    · have hgf : g = f := hg.symm.trans hid
      subst hgf
      simp only [committedBy, hkc.fleetId, hf, if_true] at hput
      have hbal := hmove.committed_balance
      have hold := hled.committed _ _ hfl
      omega
    · have hgf : f ≠ g := fun h => hg (hid.trans h)
      simp only [committedBy, hkc.fleetId, hf, hgf, if_false] at hput
      have hold := hled.committed _ _ hx
      omega

theorem Ledger.replan (hled : Ledger t) (h : Replanned f t t') : Ledger t' := by
  constructor
  · intro g x hx
    rw [h.fleets] at hx
    rcases Table.of_get_insert hx with ⟨rfl, rfl⟩ | ⟨hg, hx⟩
    · have hbal := h.balance
      have hold := hled.reserved _ _ h.fleet_found
      show h.reserved.toNat = _
      omega
    · rw [hled.reserved _ _ hx]
      refine Table.total_congr ?_
      intro j
      rw [h.attempts]
      cases t.attempts[j]? with
      | none => rfl
      | some a =>
          rw [Option.map_some, Table.weight_some, Table.weight_some]
          split
          · next hl => simp [reservedBy, Attempt.interrupt, hl.1, hg]
          · rfl
  · intro g x hx
    have hsame : Table.total (committedBy g) t'.children =
        Table.total (committedBy g) t.children := by
      refine Table.total_congr ?_
      intro j
      cases hj' : t'.children[j]? with
      | some ch' =>
          rcases h.child_cases hj' with ⟨hj, -⟩ | ⟨ch, i, hj, -, rfl, -⟩ | ⟨hj, task, -, -, rfl⟩
          · rw [hj]
          · obtain ⟨h₁, -, -, h₂⟩ :=
              replanRow_kept h.plan'.tasks h.succeeded h.newGen h.nowMs i ch
            rw [hj, Table.weight_some, Table.weight_some, committedBy, committedBy, h₁, h₂]
          · rw [hj]
            simp [committedBy, freshChild]
      | none =>
          cases hj : t.children[j]? with
          | none => rfl
          | some ch =>
              obtain ⟨ch', hch'⟩ := h.child_stays hj
              rw [hj'] at hch'
              cases hch'
    rw [hsame]
    rw [h.fleets] at hx
    rcases Table.of_get_insert hx with ⟨rfl, rfl⟩ | ⟨-, hx⟩
    · have hold := hled.committed _ _ h.fleet_found
      exact hold
    · exact hled.committed _ _ hx

theorem Ledger.effect (hwf : WellFormed t) (hled : Ledger t) (he : Effect f k t t') :
    Ledger t' := by
  cases he with
  | newFleet _ hnone _ _ _ hres hcom =>
      -- a fleet without a row has no children and no attempts, so both totals are zero
      have hchild : ∀ (j : String) (ch : FleetChildRecord), t.children[j]? = some ch →
          ch.fleetId ≠ f := by
        rintro j ch hch rfl
        obtain ⟨fl, hfl⟩ := hwf.childFleet _ _ hch
        rw [hnone] at hfl
        cases hfl
      have hatt : ∀ (j : String) (a : Attempt), t.attempts[j]? = some a → a.fleetId ≠ f := by
        intro j a ha haf
        obtain ⟨ch, hch⟩ := hwf.attemptChild _ _ ha
        exact hchild _ _ hch ((hwf.child_ids hch).1.trans haf)
      constructor
      · intro g x hx
        rcases Table.of_get_insert hx with ⟨rfl, rfl⟩ | ⟨-, hx⟩
        · rw [hres, Table.total_eq_zero]
          · rfl
          · intro j a ha
            simp [reservedBy, hatt j a ha]
        · exact hled.reserved _ _ hx
      · intro g x hx
        rcases Table.of_get_insert hx with ⟨rfl, rfl⟩ | ⟨-, hx⟩
        · rw [hcom, Table.total_eq_zero]
          · rfl
          · intro j ch hch
            simp [committedBy, hchild j ch hch]
        · exact hled.committed _ _ hx
  | newPlan => exact ⟨hled.reserved, hled.committed⟩
  | @newChild _ _ c deps gen nowMs _ _ hnone =>
      refine ⟨hled.reserved, ?_⟩
      intro g x hx
      have hins := Table.total_insert (committedBy g) t.children (childKey f c)
        (freshChild f c deps (genesisStatus deps) gen nowMs)
      have hzero : committedBy g (freshChild f c deps (genesisStatus deps) gen nowMs) = 0 := by
        simp [committedBy, freshChild]
      rw [hnone, Table.weight_none, hzero] at hins
      have hold := hled.committed _ _ hx
      show _ = Table.total (committedBy g) (t.children.insert _ _)
      omega
  | move hfl hch hslot hmove => exact hled.move hwf hfl hch hslot hmove
  | edit => exact ⟨hled.reserved, hled.committed⟩
  | cancel _ hfl =>
      constructor
      · intro g x hx
        rcases Table.of_get_insert hx with ⟨rfl, rfl⟩ | ⟨-, hx⟩
        · have hold := hled.reserved _ _ hfl
          exact hold
        · exact hled.reserved _ _ hx
      · intro g x hx
        rcases Table.of_get_insert hx with ⟨rfl, rfl⟩ | ⟨-, hx⟩
        · have hold := hled.committed _ _ hfl
          exact hold
        · exact hled.committed _ _ hx
  | replan h => exact hled.replan h

/-! ## Dependencies -/

/-- A child counted as succeeded by a re-plan is succeeded after it. -/
theorem Replanned.succeeded_stays (hwf : WellFormed t) (h : Replanned f t t') {d : String}
    (hd : d ∈ h.succeeded) :
    ∃ ch', t'.children[childKey f d]? = some ch' ∧ ch'.status = .succeeded := by
  obtain ⟨hmem, ch, hch, hst⟩ := (h.mem_succeeded d).mp hd
  obtain ⟨hf, hc⟩ := hwf.child_ids hch
  obtain ⟨i, hrow, -⟩ := h.existing _ _ hch hf
  refine ⟨_, hrow, ?_⟩
  rcases replanRow_cases h.plan'.tasks h.succeeded h.newGen h.nowMs i ch with
    ⟨_, _, _, _, _, hst', _⟩ | ⟨_, _, _, _, hne, _⟩ | ⟨hnone, _⟩
  · exact hst'
  · exact absurd hst hne
  · obtain ⟨task, htask, rfl⟩ := List.mem_map.mp hmem
    exact absurd hc.symm (hnone task htask)

theorem Ready.replan (hwf : WellFormed t) (hready : Ready t) (h : Replanned f t t') :
    Ready t' := by
  have hmet : ∀ deps, (∀ d ∈ deps, d ∈ h.succeeded) → t'.DepsMet f deps := by
    intro deps hall d hd
    exact h.succeeded_stays hwf (hall d hd)
  intro j x hx hg
  rcases h.child_cases hx with ⟨hx, hne⟩ | ⟨ch, i, hch, hf, rfl, -⟩ | ⟨-, task, -, -, rfl⟩
  · intro d hd
    obtain ⟨y, hy, hst⟩ := hready _ _ hx hg d hd
    refine ⟨y, h.foreign _ _ hy ?_, hst⟩
    rw [(hwf.child_ids hy).1]
    exact hne
  · rw [(replanRow_kept h.plan'.tasks h.succeeded h.newGen h.nowMs i ch).1, hf]
    rcases replanRow_cases h.plan'.tasks h.succeeded h.newGen h.nowMs i ch with
      ⟨_, _, _, _, _, hst', _⟩ | ⟨task, _, _, hdeps, _, hst', _⟩ | ⟨_, _, hst', _⟩
    · rw [hst'] at hg
      cases hg
    · rw [hst'] at hg
      rw [hdeps]
      rcases readiness_cases h.succeeded task.deps with ⟨-, hall⟩ | hp
      · exact hmet _ hall
      · rw [hp] at hg
        cases hg
    · rw [hst'] at hg
      cases hg
  · rcases readiness_cases h.succeeded task.deps with ⟨-, hall⟩ | hp
    · exact hmet _ hall
    · have hg' : (readiness h.succeeded task.deps).gated = true := hg
      rw [hp] at hg'
      cases hg'

/-- Dependencies stay met when succeeded rows stay. -/
theorem Tables.DepsMet.mono {deps : List String} (h : t.DepsMet f deps)
    (hstay : ∀ (j : String) (ch : FleetChildRecord), t.children[j]? = some ch →
      ch.status = .succeeded → t'.children[j]? = some ch) : t'.DepsMet f deps := by
  intro d hd
  obtain ⟨ch, hch, hst⟩ := h d hd
  exact ⟨ch, hstay _ _ hch hst, hst⟩

theorem Ready.effect (hwf : WellFormed t) (hready : Ready t) (he : Effect f k t t') :
    Ready t' := by
  cases he with
  | newFleet => exact hready
  | newPlan => exact hready
  | @newChild _ _ c deps gen nowMs _ _ hnone =>
      intro j x hx hg
      rcases Table.of_get_insert hx with ⟨-, rfl⟩ | ⟨-, hx⟩
      · rcases genesisStatus_cases deps with ⟨-, rfl⟩ | hp
        · intro d hd
          cases hd
        · have hg' : (genesisStatus deps).gated = true := hg
          rw [hp] at hg'
          cases hg'
      · refine (hready _ _ hx hg).mono ?_
        intro i ch hch _
        refine (Table.get_insert_ne _ _ ?_).trans hch
        intro hk
        rw [← hk, hnone] at hch
        cases hch
  | @move _ _ fl fl' c ch ch' o o' hfl hch hslot hmove =>
      have hkc := hmove.childKept
      obtain ⟨hf, hc⟩ := hwf.child_ids hch
      have hkey : childKey ch'.fleetId ch'.childId = childKey f c := by
        rw [hkc.fleetId, hkc.childId, hf, hc]
      -- the moved child had not succeeded, so every succeeded row is still there
      have hstay : ∀ (j : String) (x : FleetChildRecord), t.children[j]? = some x →
          x.status = .succeeded → (t.put fl' ch' o').children[j]? = some x := by
        intro j x hx hst
        refine (Table.get_insert_ne _ _ ?_).trans hx
        rintro hk
        rw [← hk, hkey, hch] at hx
        obtain rfl := Option.some.inj hx
        exact hmove.not_succeeded hst
      intro j x hx hg
      rcases Table.of_get_insert hx with ⟨-, rfl⟩ | ⟨-, hx⟩
      · rw [hkc.fleetId, hkc.deps, hf]
        rcases hmove.gated hg with hold | hmet
        · have hmet := hready _ _ hch hold
          rw [hf] at hmet
          exact hmet.mono hstay
        · exact hmet.mono hstay
      · exact (hready _ _ hx hg).mono hstay
  | edit => exact hready
  | cancel => exact hready
  | replan h => exact hready.replan hwf h

/-! ## The whole invariant -/

/-- **Every effect keeps the invariant.** -/
theorem Inv.effect (h : Inv t) (he : Effect f k t t') : Inv t' where
  wf := h.wf.effect he
  rows := h.rows.effect he
  linked := h.linked.effect h.wf he
  ledger := h.ledger.effect h.wf he
  ready := h.ready.effect h.wf he

theorem Inv.effects {P : String → Kind → Prop} (h : Inv t) (he : Effects P t t') : Inv t' :=
  he.keep (fun _ _ _ _ _ hstep hinv => hinv.effect hstep) h

end Octos.Fleet
