/-
# `Octos.Fleet.Reservation` — the reservation ledger

Budget is held by attempts.  A launch reserves, a settlement or an interruption
releases, and the fleet row keeps the sum.  The three statements below are the
invariant a keeper relies on when it reads the budget off the fleet row alone:
the reservation is exactly what the live attempts hold, a live attempt has
exactly one owner in the matching state, and no live attempt is of a past
generation.
-/
import Octos.Fleet.RefinePlan

namespace Octos.Fleet

/-- Exactly one child row of the attempt's fleet points at it, and that child
has status `st`. -/
def SoleOwner (t : Tables) (att : Attempt) (st : ChildStatus) : Prop :=
  ∃ (k : String) (ch : FleetChildRecord), t.children[k]? = some ch ∧ ch.fleetId = att.fleetId ∧
    ch.currentAttemptId = some att.attemptId ∧ ch.status = st ∧
    ∀ (k' : String) (ch' : FleetChildRecord), t.children[k']? = some ch' →
      ch'.fleetId = att.fleetId → ch'.currentAttemptId = some att.attemptId → k' = k

/-- The reservation ledger of a state. -/
structure ReservationLedger (t : Tables) : Prop where
  /-- The fleet row carries the sum over its `Leased` and `Running` attempts. -/
  reserved : ∀ (f : String) (fl : FleetRecord), t.fleets[f]? = some fl →
    fl.budget.tokensReserved.toNat = Table.total (reservedBy f) t.attempts
  leased : ∀ (k : String) (att : Attempt), t.attempts[k]? = some att →
    (att.status = .leased ↔ SoleOwner t att .launching)
  running : ∀ (k : String) (att : Attempt), t.attempts[k]? = some att →
    (att.status = .running ↔ SoleOwner t att .running)
  idle : ∀ (k : String) (ch : FleetChildRecord), t.children[k]? = some ch →
    (ch.status = .planned ∨ ch.status = .ready ∨ ch.status = .blocked ∨ ch.status = .cancelled) →
    ch.currentAttemptId = none
  generation : ∀ (k : String) (att : Attempt) (fl : FleetRecord), t.attempts[k]? = some att →
    (att.status = .leased ∨ att.status = .running) → t.fleets[att.fleetId]? = some fl →
    att.generation = fl.generation

variable {t : Tables}

/-- A child that points at an attempt has the status that attempt's status
says. -/
theorem Inv.pointee_eq (h : Inv t) {k j : String} {ch : FleetChildRecord} {att : Attempt}
    (hch : t.children[k]? = some ch) (hatt : t.attempts[j]? = some att)
    (hcur : ch.currentAttemptId = some att.attemptId) :
    pointee ch.status = some att.status ∧ k = childKey att.fleetId att.childId := by
  obtain ⟨att', hatt', hf, hp⟩ := h.linked.pointer _ _ _ hch hcur
  obtain ⟨hk, -, -, hsafe⟩ := h.wf.child _ _ hch
  obtain ⟨hc, hid⟩ := h.wf.attempt_ids hsafe hatt'
  obtain rfl := h.wf.attempt_eq hatt' hatt hid
  refine ⟨hp, ?_⟩
  rw [hk, hf, hc]

/-- A live attempt has a sole owner, in the state that points at such attempts. -/
theorem Inv.soleOwner (h : Inv t) {k : String} {att : Attempt} {st : ChildStatus}
    (hatt : t.attempts[k]? = some att) (hl : att.status.isLive = true)
    (hst : ∀ st', pointee st' = some att.status → st' = st) : SoleOwner t att st := by
  obtain ⟨ch, hch, hcur⟩ := h.linked.owner _ _ hatt hl
  refine ⟨_, ch, hch, (h.wf.child_ids hch).1, hcur, hst _ (h.pointee_eq hch hatt hcur).1, ?_⟩
  intro k' ch' hch' _ hcur'
  exact (h.pointee_eq hch' hatt hcur').2

/-- An owner's status determines the attempt's. -/
theorem Inv.status_of_owner (h : Inv t) {k : String} {att : Attempt} {st : ChildStatus}
    (hatt : t.attempts[k]? = some att) (hown : SoleOwner t att st) :
    pointee st = some att.status := by
  obtain ⟨j, ch, hch, -, hcur, rfl, -⟩ := hown
  exact (h.pointee_eq hch hatt hcur).1

theorem Inv.reservationLedger (h : Inv t) : ReservationLedger t where
  reserved := h.ledger.reserved
  leased := by
    intro k att hatt
    constructor
    · intro hst
      refine h.soleOwner hatt (by simp [hst]) ?_
      intro st'
      cases st' <;> simp [pointee, hst]
    · intro hown
      have hp := h.status_of_owner hatt hown
      exact (Option.some.inj hp).symm
  running := by
    intro k att hatt
    constructor
    · intro hst
      refine h.soleOwner hatt (by simp [hst]) ?_
      intro st'
      cases st' <;> simp [pointee, hst]
    · intro hown
      have hp := h.status_of_owner hatt hown
      exact (Option.some.inj hp).symm
  idle := by
    intro k ch hch hst
    cases hcur : ch.currentAttemptId with
    | none => rfl
    | some a =>
        have hne := h.linked.pointee_ne hch a hcur
        rcases hst with hst | hst | hst | hst <;> exact absurd (by simp [hst, pointee]) hne
  generation := by
    intro k att fl hatt hst hfl
    exact h.linked.generation _ _ _ hatt (AttemptStatus.isLive_iff.mpr hst) hfl

/-- **The reservation ledger holds in every reachable state.** -/
theorem reservation_ledger {s : Store} (h : StoreReachable s) : ReservationLedger s.toTables :=
  h.inv.reservationLedger

/-- A fleet with one child that runs an attempt holding 40 tokens. -/
def runningOps : List Op :=
  [.createFleet "f1" ⟨"ctl"⟩ none "default" 100 false 0,
   .addChild "f1" "c1" [] 0,
   .launchChild "f1" "c1" 40 1 7 1000 "a1" "e1",
   .markRunning "c1" "a1"]

theorem reservation_ledger_running :
    StoreReachable (execAll runningOps Store.empty) ∧
      ReservationLedger (execAll runningOps Store.empty).toTables ∧
      (execAll runningOps Store.empty).fleets["f1"]?.map
        (fun fl => fl.budget.tokensReserved) = some 40 :=
  have h : StoreReachable (execAll runningOps Store.empty) :=
    reachable_execAll (by rfl)
  ⟨h, reservation_ledger h, by rfl⟩

end Octos.Fleet
