/-
# `Octos.Fleet.Recovery` — boot recovery is complete and idempotent

`reconcile` scans the children of all fleets and reclaims the attempts nobody works on.
It passes over a child for many reasons; in a reachable state only three of them occur.
The child is not in flight, its fleet is live and its lease is this boot's and has not
expired, or it has been reclaimed already.

So what is left in flight is current (`Current`), and on a state in which every child in
flight is current the scan finds nothing.
-/
import Octos.Fleet.Terminal

namespace Octos.Fleet

variable {f : String} {t : Tables} {s s' s₁ : Store} {nowMs epoch : U64}

/-! ## Children in flight -/

/-- The child is in flight. -/
def FleetChildRecord.InFlight (ch : FleetChildRecord) : Prop :=
  ch.status = .launching ∨ ch.status = .running

/-- A child in flight is worked on under a lease of this boot that has not expired, in a
live fleet. -/
def Current (nowMs epoch : U64) (t : Tables) (ch : FleetChildRecord) : Prop :=
  ch.InFlight → ∃ aid att fl, ch.currentAttemptId = some aid ∧
    t.attempts[attemptKey ch.childId aid]? = some att ∧ t.fleets[ch.fleetId]? = some fl ∧
    fleetIsLive fl = true ∧ att.lease.ownerEpoch = epoch ∧ ¬ att.lease.expiresAtMs < nowMs

/-- What a child in flight has, in a state that satisfies the invariant. -/
theorem Inv.inFlight (hinv : Inv t) {k : String} {ch : FleetChildRecord} (hch : t.children[k]? = some ch)
    (hfl : ch.InFlight) : ∃ aid att fl, ch.currentAttemptId = some aid ∧
      t.attempts[attemptKey ch.childId aid]? = some att ∧ t.fleets[ch.fleetId]? = some fl ∧
      fl.fleetId = ch.fleetId ∧ att.childId = ch.childId ∧ att.attemptId = aid ∧ att.fleetId = ch.fleetId ∧
      att.status.isLive = true := by
  obtain ⟨aid, haid⟩ := Option.ne_none_iff_exists'.mp ((hinv.rows k ch hch).current_of_live hfl)
  obtain ⟨att, hatt, hfleet, hpointee⟩ := hinv.linked.pointer k ch aid hch haid
  obtain ⟨fl, hfleetRow⟩ := hinv.wf.childFleet k ch hch
  obtain ⟨hchild, hid⟩ := hinv.wf.attempt_ids (hinv.wf.child k ch hch).2.2.2 hatt
  refine ⟨aid, att, fl, haid, hatt, hfleetRow, (hinv.wf.fleet _ _ hfleetRow).1, hchild, hid, hfleet, ?_⟩
  rcases hfl with hst | hst
  · rw [hst] at hpointee
    rw [← Option.some.inj hpointee]
    rfl
  · rw [hst] at hpointee
    rw [← Option.some.inj hpointee]
    rfl

theorem inFlight_of_pointee {st : ChildStatus} {a : AttemptStatus} (h : pointee st = some a) (ha : a.isLive = true) :
    st = .launching ∨ st = .running := by
  cases st with
  | launching => exact Or.inl rfl
  | running => exact Or.inr rfl
  | succeeded | failed =>
      obtain rfl := Option.some.inj h
      cases ha
  | planned | ready | blocked | cancelled => cases h

/-- A live attempt belongs to a child in flight. -/
theorem Inv.owner_inFlight (hinv : Inv t) {k : String} {att : Attempt} (hatt : t.attempts[k]? = some att)
    (hlive : att.status.isLive = true) : ∃ ch, t.children[childKey att.fleetId att.childId]? = some ch ∧
      ch.currentAttemptId = some att.attemptId ∧ ch.InFlight := by
  obtain ⟨ch, hch, hcur⟩ := hinv.linked.owner k att hatt hlive
  obtain ⟨att', hatt', -, hpointee⟩ := hinv.linked.pointer _ ch _ hch hcur
  rw [(hinv.wf.child_ids hch).2, ← (hinv.wf.attempt k att hatt).1, hatt] at hatt'
  obtain rfl := Option.some.inj hatt'
  exact ⟨ch, hch, hcur, inFlight_of_pointee hpointee hlive⟩

/-- **What the scan passes over** is current. -/
theorem reclaimable_none_iff (hinv : Inv t) {k : String} {ch : FleetChildRecord} (hch : t.children[k]? = some ch) :
    reclaimable nowMs epoch t ch = none ↔ Current nowMs epoch t ch := by
  by_cases hfl : ch.InFlight
  · obtain ⟨aid, att, fl, haid, hatt, hfleetRow, hfid, hchild, hid, hfleet, hlive⟩ := hinv.inFlight hch hfl
    have hst : ¬(ch.status ≠ .launching ∧ ch.status ≠ .running) := by
      rintro ⟨hl, hr⟩
      exact hfl.elim hl hr
    have hids : ¬(att.childId ≠ ch.childId ∨ att.attemptId ≠ aid ∨ att.fleetId ≠ ch.fleetId) := by
      simp [hchild, hid, hfleet]
    have hrec : reclaimable nowMs epoch t ch =
        if fleetIsLive fl ∧ ¬ (att.lease.ownerEpoch ≠ epoch ∨ att.lease.expiresAtMs < nowMs) then none
        else some (fl, att) := by
      unfold reclaimable
      rw [if_neg hst, haid, Option.bind_eq_bind, Option.bind_some, hinv.wf.fleet?_eq, hfleetRow,
        Option.bind_eq_bind, Option.bind_some, if_neg (by simpa using hfid), hinv.wf.attempt?_eq, hatt,
        Option.bind_eq_bind, Option.bind_some, if_neg hids, if_neg (by simp [hlive])]
    rw [hrec]
    constructor
    · intro hnone _
      split at hnone
      · next hcurrent =>
          obtain ⟨hl, hstale⟩ := hcurrent
          rw [not_or, not_not] at hstale
          exact ⟨aid, att, fl, haid, hatt, hfleetRow, hl, hstale.1, hstale.2⟩
      · cases hnone
    · intro hcurrent
      obtain ⟨aid', att', fl', haid', hatt', hfl', hl, hepoch, hexpires⟩ := hcurrent hfl
      obtain rfl := Option.some.inj (haid.symm.trans haid')
      obtain rfl := Option.some.inj (hatt.symm.trans hatt')
      obtain rfl := Option.some.inj (hfleetRow.symm.trans hfl')
      exact if_pos ⟨hl, fun h => h.elim (fun hne => hne hepoch) hexpires⟩
  · refine iff_of_true ?_ (fun h => absurd h hfl)
    unfold reclaimable
    rw [if_pos]
    exact ⟨fun h => hfl (Or.inl h), fun h => hfl (Or.inr h)⟩

/-! ## What recovery does -/

/-- A listed attempt was live and is interrupted; its child is `Ready` without an
attempt, or `Cancelled` under a terminal fleet. -/
structure Reclaimed (nowMs : U64) (t t' : Tables) (i : InterruptedAttempt) (ch : FleetChildRecord) (att : Attempt)
    (fl : FleetRecord) : Prop where
  child : t.children[childKey i.fleetId i.childId]? = some ch
  attempt : t.attempts[attemptKey i.childId i.attemptId]? = some att
  fleet : t.fleets[i.fleetId]? = some fl
  current : ch.currentAttemptId = some i.attemptId
  live : att.status.isLive = true
  owned : att.fleetId = i.fleetId ∧ att.childId = i.childId ∧ att.attemptId = i.attemptId
  interrupted : t'.attempts[attemptKey i.childId i.attemptId]? = some (att.interrupt nowMs)
  returned : t'.children[childKey i.fleetId i.childId]? = some { ch with
    status := if fleetIsLive fl then .ready else .cancelled, currentAttemptId := none, updatedAtMs := nowMs }

/-- What a pass of recovery leaves: the listed attempts reclaimed, every other child and
attempt as it was, and no fleet started or ended. -/
structure Recovered (nowMs : U64) (t t' : Tables) (r : List InterruptedAttempt) : Prop where
  listed : ∀ i ∈ r, ∃ ch att fl, Reclaimed nowMs t t' i ch att fl
  children : ∀ k : String, (∀ i ∈ r, k ≠ childKey i.fleetId i.childId) → t'.children[k]? = t.children[k]?
  attempts : ∀ k : String, (∀ i ∈ r, k ≠ attemptKey i.childId i.attemptId) → t'.attempts[k]? = t.attempts[k]?
  fleets : ∀ f : String, (t'.fleets[f]?).map FleetRecord.status = (t.fleets[f]?).map FleetRecord.status

theorem Recovered.refl (nowMs : U64) (t : Tables) : Recovered nowMs t t [] :=
  ⟨fun _ hi => (List.not_mem_nil hi).elim, fun _ _ => rfl, fun _ _ => rfl, fun _ => rfl⟩

theorem fleetIsLive_congr {fl fl' : FleetRecord} (h : fl.status = fl'.status) : fleetIsLive fl = fleetIsLive fl' := by
  unfold fleetIsLive
  rw [h]

theorem Recovered.fleet {t t' : Tables} {r : List InterruptedAttempt} (h : Recovered nowMs t t' r) {fl : FleetRecord}
    (hfl : t.fleets[f]? = some fl) : ∃ fl', t'.fleets[f]? = some fl' ∧ fleetIsLive fl' = fleetIsLive fl := by
  have hstatus := h.fleets f
  rw [hfl] at hstatus
  obtain ⟨fl', hfl', hst⟩ := Option.map_eq_some_iff.mp hstatus
  exact ⟨fl', hfl', fleetIsLive_congr hst⟩

theorem Recovered.fleet_before {t t' : Tables} {r : List InterruptedAttempt} (h : Recovered nowMs t t' r)
    {fl' : FleetRecord} (hfl' : t'.fleets[f]? = some fl') :
    ∃ fl, t.fleets[f]? = some fl ∧ fleetIsLive fl = fleetIsLive fl' := by
  have hstatus := h.fleets f
  rw [hfl'] at hstatus
  obtain ⟨fl, hfl, hst⟩ := Option.map_eq_some_iff.mp hstatus.symm
  exact ⟨fl, hfl, fleetIsLive_congr hst⟩

/-- One attempt reclaimed. -/
theorem recovered_one {ch : FleetChildRecord} {att : Attempt} {fl : FleetRecord} {reserved : U64} {t' : Tables}
    (hch : t.children[childKey ch.fleetId ch.childId]? = some ch) (hcur : ch.currentAttemptId = some att.attemptId)
    (hfl : t.fleets[ch.fleetId]? = some fl) (hatt : t.attempts[attemptKey ch.childId att.attemptId]? = some att)
    (haf : att.fleetId = ch.fleetId) (hac : att.childId = ch.childId) (hlive : att.status.isLive = true)
    (hattempts : t'.attempts = t.attempts.insert (attemptKey ch.childId att.attemptId) (att.interrupt nowMs))
    (hfleets : t'.fleets = t.fleets.insert ch.fleetId { fl with
      budget := { fl.budget with tokensReserved := reserved }, updatedAtMs := nowMs })
    (hchildren : t'.children = t.children.insert (childKey ch.fleetId ch.childId) { ch with
      status := if fleetIsLive fl then .ready else .cancelled, currentAttemptId := none, updatedAtMs := nowMs }) :
    Recovered nowMs t t' [⟨ch.fleetId, ch.childId, att.attemptId⟩] := by
  refine ⟨?_, ?_, ?_, ?_⟩
  · intro i hi
    obtain rfl := List.mem_singleton.mp hi
    refine ⟨ch, att, fl, hch, hatt, hfl, hcur, hlive, ⟨haf, hac, rfl⟩, ?_, ?_⟩
    · rw [hattempts]
      exact Table.get_insert_self _ _ _
    · rw [hchildren]
      exact Table.get_insert_self _ _ _
  · intro k hk
    rw [hchildren]
    exact Table.get_insert_ne _ _ (hk _ List.mem_cons_self).symm
  · intro k hk
    rw [hattempts]
    exact Table.get_insert_ne _ _ (hk _ List.mem_cons_self).symm
  · intro f
    rw [hfleets, Table.get_insert]
    split
    · next hkey =>
        subst hkey
        rw [hfl]
        rfl
    · rfl

/-- Listed attempts have different keys when their children have: the first is no longer
live when the second is reclaimed. -/
theorem Reclaimed.attempt_ne {t₁ t' : Tables} {i j : InterruptedAttempt} {ch ch' : FleetChildRecord}
    {att att' : Attempt} {fl fl' : FleetRecord} (hi : Reclaimed nowMs t t₁ i ch att fl)
    (hj : Reclaimed nowMs t₁ t' j ch' att' fl') :
    attemptKey i.childId i.attemptId ≠ attemptKey j.childId j.attemptId := by
  intro hkey
  have hsame := hi.interrupted
  rw [hkey, hj.attempt] at hsame
  have hlive := hj.live
  rw [Option.some.inj hsame] at hlive
  cases hlive

/-- **Two passes**, over different children, one after the other. -/
theorem Recovered.trans {t₁ t' : Tables} {r₁ r₂ : List InterruptedAttempt} (h₁ : Recovered nowMs t t₁ r₁)
    (h₂ : Recovered nowMs t₁ t' r₂)
    (hkeys : ∀ i ∈ r₁, ∀ j ∈ r₂, childKey i.fleetId i.childId ≠ childKey j.fleetId j.childId) :
    Recovered nowMs t t' (r₁ ++ r₂) := by
  refine ⟨?_, ?_, ?_, ?_⟩
  · intro i hi
    rcases List.mem_append.mp hi with hi | hi
    · -- what was reclaimed first is not touched again
      obtain ⟨ch, att, fl, hrec⟩ := h₁.listed i hi
      refine ⟨ch, att, fl, hrec.child, hrec.attempt, hrec.fleet, hrec.current, hrec.live, hrec.owned, ?_, ?_⟩
      · rw [h₂.attempts _ ?_]
        · exact hrec.interrupted
        · intro j hj
          obtain ⟨_, _, _, hrec'⟩ := h₂.listed j hj
          exact hrec.attempt_ne hrec'
      · rw [h₂.children _ (hkeys i hi)]
        exact hrec.returned
    · -- and what was reclaimed second had not been touched
      obtain ⟨ch, att, fl₁, hrec⟩ := h₂.listed i hi
      obtain ⟨fl, hfl, hlive⟩ := h₁.fleet_before hrec.fleet
      refine ⟨ch, att, fl, ?_, ?_, hfl, hrec.current, hrec.live, hrec.owned, hrec.interrupted, ?_⟩
      · rw [← h₁.children _ (fun j hj => (hkeys j hj i hi).symm)]
        exact hrec.child
      · rw [← h₁.attempts _ ?_]
        · exact hrec.attempt
        · intro j hj
          obtain ⟨_, _, _, hrec'⟩ := h₁.listed j hj
          exact (hrec'.attempt_ne hrec).symm
      · rw [hlive]
        exact hrec.returned
  · intro k hk
    rw [h₂.children k (fun j hj => hk j (List.mem_append_right _ hj)),
      h₁.children k (fun i hi => hk i (List.mem_append_left _ hi))]
  · intro k hk
    rw [h₂.attempts k (fun j hj => hk j (List.mem_append_right _ hj)),
      h₁.attempts k (fun i hi => hk i (List.mem_append_left _ hi))]
  · exact fun f => (h₂.fleets f).trans (h₁.fleets f)

/-- A current child stays current while other children are reclaimed. -/
theorem Current.stays {t' : Tables} {r : List InterruptedAttempt} {k : String} {ch : FleetChildRecord}
    (h : Current nowMs epoch t ch) (hinv : Inv t) (hch : t.children[k]? = some ch) (hrec : Recovered nowMs t t' r)
    (hkeys : ∀ i ∈ r, k ≠ childKey i.fleetId i.childId) : Current nowMs epoch t' ch := by
  intro hfl
  obtain ⟨aid, att, fl, haid, hatt, hfleet, hlive, hepoch, hexpires⟩ := h hfl
  obtain ⟨fl', hfleet', hlive'⟩ := hrec.fleet hfleet
  refine ⟨aid, att, fl', haid, ?_, hfleet', hlive'.trans hlive, hepoch, hexpires⟩
  rw [hrec.attempts _ ?_]
  · exact hatt
  · intro i hi hkey
    -- the attempt of the child would be that of a listed child
    obtain ⟨_, att', _, hrec'⟩ := hrec.listed i hi
    have hsame := hrec'.attempt
    rw [← hkey, hatt] at hsame
    obtain rfl := Option.some.inj hsame
    obtain ⟨aid', att', _, haid', hatt', -, -, hchild, -, hfleetId, -⟩ := hinv.inFlight hch hfl
    obtain rfl := Option.some.inj (haid.symm.trans haid')
    obtain rfl := Option.some.inj (hatt.symm.trans hatt')
    obtain ⟨hif, hic, -⟩ := hrec'.owned
    refine hkeys i hi ?_
    rw [(hinv.wf.child k ch hch).1, ← hif, ← hic, hfleetId, hchild]

/-! ## The scan -/

/-- **One iteration**: it does not fail, and the child is current afterwards. -/
theorem reclaim_recovers {ch : FleetChildRecord} (hinv : Inv s.toTables)
    (hch : s.children[childKey ch.fleetId ch.childId]? = some ch) :
    ∃ r s', reclaim nowMs epoch ch s = .ok (r, s') ∧ Inv s'.toTables ∧
      Recovered nowMs s.toTables s'.toTables r ∧
      (∀ i ∈ r, i.fleetId = ch.fleetId ∧ i.childId = ch.childId) ∧
      ∀ ch', s'.children[childKey ch.fleetId ch.childId]? = some ch' → Current nowMs epoch s'.toTables ch' := by
  cases hrec : reclaimable nowMs epoch s.toTables ch with
  | none =>
      refine ⟨[], s, ?_, hinv, Recovered.refl nowMs s.toTables, fun _ hi => (List.not_mem_nil hi).elim, ?_⟩
      · unfold reclaim
        rw [hrec]
      · intro ch' hch'
        obtain rfl := Option.some.inj (hch.symm.trans hch')
        exact (reclaimable_none_iff hinv hch).mp hrec
  | some found =>
      obtain ⟨fl, att⟩ := found
      obtain ⟨hst, hcur, hfl, hatt, haf, hl⟩ := reclaimable_some hinv.wf hrec
      have hac : att.childId = ch.childId := (hinv.wf.attempt_ids (hinv.wf.child _ ch hch).2.2.2 hatt).1
      -- the reservation is among those of the fleet
      have hreserved : att.reservedTokens.toNat ≤ fl.budget.tokensReserved.toNat := by
        rw [hinv.ledger.reserved _ fl hfl]
        have hweight : reservedBy ch.fleetId att = att.reservedTokens.toNat := if_pos ⟨haf, hl⟩
        rw [← hweight]
        exact Table.weight_le_total (reservedBy ch.fleetId) hatt
      obtain ⟨reserved, hsub⟩ : ∃ reserved,
          checkedSub fl.budget.tokensReserved att.reservedTokens = some reserved := by
        cases hsub : checkedSub fl.budget.tokensReserved att.reservedTokens with
        | some reserved => exact ⟨reserved, rfl⟩
        | none => exact absurd (checkedSub_eq_none.mp hsub) (not_lt.mpr hreserved)
      have hrun : ∃ s', reclaim nowMs epoch ch s = .ok ([⟨ch.fleetId, ch.childId, att.attemptId⟩], s') ∧
          s'.attempts = s.attempts.insert (attemptKey ch.childId att.attemptId) (att.interrupt nowMs) ∧
          s'.fleets = s.fleets.insert ch.fleetId { fl with
            budget := { fl.budget with tokensReserved := reserved }, updatedAtMs := nowMs } ∧
          s'.children = s.children.insert (childKey ch.fleetId ch.childId) { ch with
            status := if fleetIsLive fl then .ready else .cancelled, currentAttemptId := none,
            updatedAtMs := nowMs } := by
        unfold reclaim
        rw [hrec]
        simp only [hsub]
        exact ⟨_, rfl, rfl, rfl, rfl⟩
      obtain ⟨s', hrun, hattempts, hfleets, hchildren⟩ := hrun
      have hinv' : Inv s'.toTables := by
        rcases reclaim_spec hinv hch hrun with rfl | ⟨⟨aid, live, he⟩, -, -⟩
        · exact hinv
        · exact hinv.effect he
      refine ⟨_, s', hrun, hinv', recovered_one hch hcur hfl hatt haf hac hl hattempts hfleets hchildren, ?_, ?_⟩
      · intro i hi
        obtain rfl := List.mem_singleton.mp hi
        exact ⟨rfl, rfl⟩
      · intro ch' hch' hflight
        rw [hchildren, Table.get_insert_self] at hch'
        obtain rfl := Option.some.inj hch'
        -- a reclaimed child is not in flight
        rcases hflight with h | h
        · have h : (if fleetIsLive fl then ChildStatus.ready else .cancelled) = .launching := h
          split at h <;> cases h
        · have h : (if fleetIsLive fl then ChildStatus.ready else .cancelled) = .running := h
          split at h <;> cases h

/-- **The whole scan.** -/
theorem reclaimAll_recovers : ∀ (cs : List FleetChildRecord) {s : Store}, Inv s.toTables →
    (cs.map (fun c => childKey c.fleetId c.childId)).Nodup →
    (∀ c ∈ cs, s.children[childKey c.fleetId c.childId]? = some c) →
    ∃ r s', reclaimAll nowMs epoch cs s = .ok (r, s') ∧ Inv s'.toTables ∧
      Recovered nowMs s.toTables s'.toTables r ∧
      (∀ i ∈ r, ∃ c ∈ cs, i.fleetId = c.fleetId ∧ i.childId = c.childId) ∧
      ∀ c ∈ cs, ∀ ch', s'.children[childKey c.fleetId c.childId]? = some ch' →
        Current nowMs epoch s'.toTables ch' := by
  intro cs
  induction cs with
  | nil =>
      intro s hinv _ _
      refine ⟨[], s, rfl, hinv, Recovered.refl nowMs s.toTables, fun _ hi => (List.not_mem_nil hi).elim, ?_⟩
      intro c hc
      cases hc
  | cons c cs ih =>
      intro s hinv hnodup hrows
      obtain ⟨hfresh, hnodup⟩ := List.nodup_cons.mp hnodup
      have hne : ∀ c' ∈ cs, childKey c.fleetId c.childId ≠ childKey c'.fleetId c'.childId :=
        fun c' hc' heq => hfresh (List.mem_map.mpr ⟨c', hc', heq.symm⟩)
      obtain ⟨r₁, s₁, hrun₁, hinv₁, hrec₁, hlist₁, hcurrent₁⟩ :=
        @reclaim_recovers s nowMs epoch c hinv (hrows c List.mem_cons_self)
      have hrows₁ : ∀ c' ∈ cs, s₁.children[childKey c'.fleetId c'.childId]? = some c' := by
        intro c' hc'
        refine (hrec₁.children _ ?_).trans (hrows c' (List.mem_cons_of_mem _ hc'))
        intro i hi
        obtain ⟨hf, hc⟩ := hlist₁ i hi
        rw [hf, hc]
        exact (hne c' hc').symm
      obtain ⟨r₂, s', hrun₂, hinv', hrec₂, hlist₂, hcurrent₂⟩ := ih hinv₁ hnodup hrows₁
      have hkeys : ∀ j ∈ r₂, childKey c.fleetId c.childId ≠ childKey j.fleetId j.childId := by
        intro j hj
        obtain ⟨c', hc', hf, hc⟩ := hlist₂ j hj
        rw [hf, hc]
        exact hne c' hc'
      refine ⟨r₁ ++ r₂, s', ?_, hinv', hrec₁.trans hrec₂ ?_, ?_, ?_⟩
      · rw [reclaimAll, hrun₁, ok_bind]
        simp only [hrun₂]
        rfl
      · intro i hi j hj
        obtain ⟨hf, hc⟩ := hlist₁ i hi
        rw [hf, hc]
        exact hkeys j hj
      · intro i hi
        rcases List.mem_append.mp hi with hi | hi
        · exact ⟨c, List.mem_cons_self, hlist₁ i hi⟩
        · obtain ⟨c', hc', hids⟩ := hlist₂ i hi
          exact ⟨c', List.mem_cons_of_mem _ hc', hids⟩
      · intro c' hc' ch' hch'
        rcases List.mem_cons.mp hc' with rfl | hc'
        · have hsame := hrec₂.children _ hkeys
          rw [hsame] at hch'
          exact (hcurrent₁ ch' hch').stays hinv₁ hch' hrec₂ hkeys
        · exact hcurrent₂ c' hc' ch' hch'

/-- When every child is current there is nothing to do. -/
theorem reclaimAll_idle : ∀ (cs : List FleetChildRecord) {s : Store},
    (∀ c ∈ cs, reclaimable nowMs epoch s.toTables c = none) → reclaimAll nowMs epoch cs s = .ok ([], s) := by
  intro cs
  induction cs with
  | nil => exact fun _ => rfl
  | cons c cs ih =>
      intro s hnone
      have hc : reclaim nowMs epoch c s = .ok ([], s) := by
        unfold reclaim
        rw [hnone c List.mem_cons_self]
      rw [reclaimAll, hc, ok_bind]
      simp only [ih (fun c' hc' => hnone c' (List.mem_cons_of_mem _ hc'))]
      rfl

/-! ## Boot recovery -/

/-- A terminal fleet of a state with nothing stale in flight holds no reservation. -/
theorem reserved_of_current (hinv : Inv t)
    (hcurrent : ∀ (k : String) ch, t.children[k]? = some ch → Current nowMs epoch t ch) {fl : FleetRecord}
    (hfl : t.fleets[f]? = some fl) (hterm : fleetIsLive fl = false) : fl.budget.tokensReserved = 0 := by
  have hnone : ∀ (k : String) (att : Attempt), t.attempts[k]? = some att → reservedBy f att = 0 := by
    intro k att hatt
    refine if_neg ?_
    rintro ⟨rfl, hlive⟩
    obtain ⟨ch, hch, hcur, hflight⟩ := hinv.owner_inFlight hatt hlive
    have hif := (hinv.wf.child_ids hch).1
    obtain ⟨_, _, fl', -, -, hfl', hl, -⟩ := hcurrent _ ch hch hflight
    rw [hif, hfl] at hfl'
    obtain rfl := Option.some.inj hfl'
    rw [hterm] at hl
    cases hl
  refine BitVec.eq_of_toNat_eq ?_
  rw [hinv.ledger.reserved f fl hfl, Table.total_eq_zero hnone]
  rfl

/-- The children of the state after a scan were scanned. -/
theorem Recovered.child_before {t t' : Tables} {r : List InterruptedAttempt} (h : Recovered nowMs t t' r) {k : String}
    {ch' : FleetChildRecord} (hch' : t'.children[k]? = some ch') : ∃ ch, t.children[k]? = some ch := by
  by_cases hk : ∀ i ∈ r, k ≠ childKey i.fleetId i.childId
  · exact ⟨ch', (h.children k hk).symm.trans hch'⟩
  · simp only [not_forall, not_not] at hk
    obtain ⟨i, hi, rfl⟩ := hk
    obtain ⟨ch, _, _, hrec⟩ := h.listed i hi
    exact ⟨ch, hrec.child⟩

/-- **Boot recovery** does not fail.  Afterwards every live attempt is of this boot, not
expired, and in a live fleet; the listed attempts are reclaimed and the other rows as
they were; terminal fleets hold no reservation; and the next pass does nothing. -/
theorem reconcile_complete (h : StoreReachable s) (nowMs epoch : U64) :
    ∃ r s', reconcile nowMs epoch s = .ok (r, s') ∧
      (∀ (k : String) (att : Attempt), s'.attempts[k]? = some att → att.status.isLive = true →
        (∃ fl, s'.fleets[att.fleetId]? = some fl ∧ fleetIsLive fl = true) ∧
          att.lease.ownerEpoch = epoch ∧ nowMs ≤ att.lease.expiresAtMs) ∧
      Recovered nowMs s.toTables s'.toTables r ∧
      (∀ (f : String) (fl : FleetRecord), s'.fleets[f]? = some fl → fleetIsLive fl = false →
        fl.budget.tokensReserved = 0) ∧
      reconcile nowMs epoch s' = .ok ([], s') := by
  have hinv := h.inv
  obtain ⟨r, s', hrun, hinv', hrec, -, hscanned⟩ := @reclaimAll_recovers nowMs epoch (ownedChildren s.children) s hinv
    (ownedChildren_nodup s.children) (fun _ hc => (mem_ownedChildren hinv.wf).mp hc)
  have hcurrent : ∀ (k : String) ch, s'.children[k]? = some ch → Current nowMs epoch s'.toTables ch := by
    intro k ch hch
    obtain ⟨old, hold⟩ := hrec.child_before hch
    obtain rfl := (hinv.wf.child k old hold).1
    exact hscanned old ((mem_ownedChildren hinv.wf).mpr hold) ch hch
  refine ⟨r, s', hrun, ?_, hrec, ?_, ?_⟩
  · intro k att hatt hlive
    obtain ⟨ch, hch, hcur, hflight⟩ := hinv'.owner_inFlight hatt hlive
    obtain ⟨hif, hic⟩ := hinv'.wf.child_ids hch
    obtain ⟨aid, att', fl, haid, hatt', hfl, hl, hepoch, hexpires⟩ := hcurrent _ ch hch hflight
    obtain rfl := Option.some.inj (hcur.symm.trans haid)
    rw [hic, ← (hinv'.wf.attempt k att hatt).1, hatt] at hatt'
    obtain rfl := Option.some.inj hatt'
    rw [hif] at hfl
    exact ⟨⟨fl, hfl, hl⟩, hepoch, BitVec.not_lt.mp hexpires⟩
  · intro f fl hfl hterm
    exact reserved_of_current hinv' hcurrent hfl hterm
  · refine reclaimAll_idle _ ?_
    intro c hc
    have hrow := (mem_ownedChildren hinv'.wf).mp hc
    exact (reclaimable_none_iff hinv' hrow).mpr (hcurrent _ c hrow)

/-- A fleet that was cancelled while its child ran. -/
theorem reconcile_complete_cancelled :
    ∃ r s', reconcile 5 8 (execAll cancelledOps Store.empty) = .ok (r, s') ∧
      r.map InterruptedAttempt.attemptId = ["a1"] ∧ reconcile 5 8 s' = .ok ([], s') := by
  have hreach : StoreReachable (execAll cancelledOps Store.empty) := reachable_execAll (by rfl)
  obtain ⟨r, s', hrun, -, -, -, hagain⟩ := reconcile_complete hreach 5 8
  have hlist : (reconcile 5 8 (execAll cancelledOps Store.empty)).toOption.map
      (fun out => out.1.map InterruptedAttempt.attemptId) = some ["a1"] := by rfl
  rw [hrun] at hlist
  exact ⟨r, s', hrun, Option.some.inj hlist, hagain⟩

end Octos.Fleet
