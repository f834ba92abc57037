/-
# `Octos.Fleet.Invariant` — the invariant of the kernel tables

`Inv` is what holds of the four state tables in every reachable state.  It has
five parts, each a structure of its own and each kept by every effect:

* `WellFormed` — a row sits under the key its ids spell, at the current
  version; parents exist; attempt ids are unique;
* `RowsOk`     — every child row is consistent in itself;
* `Linked`     — a child's pointer and its attempt agree, and every live
  attempt is the current one of its child, at its fleet's generation;
* `Ledger`     — both budget columns are totals over the rows;
* `Ready`      — a child that may run, runs or waits for the operator has all
  its dependencies succeeded.

The first part is needed by all others: it is what makes a lookup by composite
key a lookup by ids.
-/
import Octos.Fleet.Effect

namespace Octos.Fleet

/-! ## The parts -/

/-- Keys, versions, parents. -/
structure WellFormed (t : Tables) : Prop where
  fleet : ∀ (k : String) (fl : FleetRecord), t.fleets[k]? = some fl →
    fl.fleetId = k ∧ fl.schemaVersion = schemaVersionCurrent ∧ keyComponentIsSafe k = true
  child : ∀ (k : String) (ch : FleetChildRecord), t.children[k]? = some ch →
    k = childKey ch.fleetId ch.childId ∧ ch.schemaVersion = schemaVersionCurrent ∧
      keyComponentIsSafe ch.fleetId = true ∧ keyComponentIsSafe ch.childId = true
  childFleet : ∀ (k : String) (ch : FleetChildRecord), t.children[k]? = some ch →
    ∃ fl, t.fleets[ch.fleetId]? = some fl
  attempt : ∀ (k : String) (a : Attempt), t.attempts[k]? = some a →
    k = attemptKey a.childId a.attemptId ∧ a.schemaVersion = schemaVersionCurrent
  attemptChild : ∀ (k : String) (a : Attempt), t.attempts[k]? = some a →
    ∃ ch, t.children[childKey a.fleetId a.childId]? = some ch
  attemptUnique : ∀ (k k' : String) (a a' : Attempt), t.attempts[k]? = some a →
    t.attempts[k']? = some a' → a.attemptId = a'.attemptId → k = k'
  plan : ∀ (k : String) (p : DurablePlan), t.plans[k]? = some p →
    p.fleetId = k ∧ p.schemaVersion = schemaVersionCurrent ∧ ∃ fl, t.fleets[k]? = some fl

/-- Every child row is consistent in itself. -/
def RowsOk (t : Tables) : Prop :=
  ∀ (k : String) (ch : FleetChildRecord), t.children[k]? = some ch → RowOk ch

/-- Pointers and attempts. -/
structure Linked (t : Tables) : Prop where
  pointer : ∀ (k : String) (ch : FleetChildRecord) (a : String), t.children[k]? = some ch →
    ch.currentAttemptId = some a → ∃ att, t.attempts[attemptKey ch.childId a]? = some att ∧
      att.fleetId = ch.fleetId ∧ pointee ch.status = some att.status
  owner : ∀ (k : String) (att : Attempt), t.attempts[k]? = some att → att.status.isLive = true →
    ∃ ch, t.children[childKey att.fleetId att.childId]? = some ch ∧
      ch.currentAttemptId = some att.attemptId
  generation : ∀ (k : String) (att : Attempt) (fl : FleetRecord), t.attempts[k]? = some att →
    att.status.isLive = true → t.fleets[att.fleetId]? = some fl → att.generation = fl.generation

/-- Both budget columns are totals. -/
structure Ledger (t : Tables) : Prop where
  reserved : ∀ (f : String) (fl : FleetRecord), t.fleets[f]? = some fl →
    fl.budget.tokensReserved.toNat = Table.total (reservedBy f) t.attempts
  committed : ∀ (f : String) (fl : FleetRecord), t.fleets[f]? = some fl →
    fl.budget.tokensCommitted.toNat = Table.total (committedBy f) t.children

/-- Gated children have their dependencies met. -/
def Ready (t : Tables) : Prop :=
  ∀ (k : String) (ch : FleetChildRecord), t.children[k]? = some ch →
    ch.status.gated = true → t.DepsMet ch.fleetId ch.deps

structure Inv (t : Tables) : Prop where
  wf : WellFormed t
  rows : RowsOk t
  linked : Linked t
  ledger : Ledger t
  ready : Ready t

theorem Inv.empty : Inv Store.empty.toTables where
  wf := by constructor <;> simp [Store.empty]
  rows := by simp [RowsOk, Store.empty]
  linked := by constructor <;> simp [Store.empty]
  ledger := by constructor <;> simp [Store.empty]
  ready := by simp [Ready, Store.empty]

/-! ## Lookups in well-formed tables -/

namespace WellFormed

variable {t : Tables} (h : WellFormed t)
include h

/-- A child found under the key of two ids has these ids. -/
theorem child_ids {f c : String} {ch : FleetChildRecord}
    (hch : t.children[childKey f c]? = some ch) : ch.fleetId = f ∧ ch.childId = c := by
  obtain ⟨hk, -, hf, hc⟩ := h.child _ _ hch
  obtain ⟨h₁, h₂⟩ := (childKey_inj_of_safe hf hc).mp hk.symm
  exact ⟨h₁, h₂⟩

theorem child_key {k : String} {ch : FleetChildRecord} (hch : t.children[k]? = some ch) :
    t.children[childKey ch.fleetId ch.childId]? = some ch := by
  rw [← (h.child _ _ hch).1]
  exact hch

theorem child_safe {f c : String} {ch : FleetChildRecord}
    (hch : t.children[childKey f c]? = some ch) :
    keyComponentIsSafe f = true ∧ keyComponentIsSafe c = true := by
  obtain ⟨hf, hc⟩ := h.child_ids hch
  obtain ⟨-, -, h₁, h₂⟩ := h.child _ _ hch
  exact ⟨hf ▸ h₁, hc ▸ h₂⟩

theorem attempt_safe {k : String} {a : Attempt} (ha : t.attempts[k]? = some a) :
    keyComponentIsSafe a.fleetId = true ∧ keyComponentIsSafe a.childId = true := by
  obtain ⟨ch, hch⟩ := h.attemptChild _ _ ha
  exact h.child_safe hch

/-- An attempt found under the key of two ids has these ids. -/
theorem attempt_ids {c aid : String} {a : Attempt} (hc : keyComponentIsSafe c = true)
    (ha : t.attempts[attemptKey c aid]? = some a) : a.childId = c ∧ a.attemptId = aid := by
  have hk := (h.attempt _ _ ha).1
  obtain ⟨h₁, h₂⟩ := (attemptKey_inj hc (h.attempt_safe ha).2).mp hk
  exact ⟨h₁.symm, h₂.symm⟩

/-- Attempt ids determine attempt rows. -/
theorem attempt_eq {k k' : String} {a a' : Attempt} (ha : t.attempts[k]? = some a)
    (ha' : t.attempts[k']? = some a') (hid : a.attemptId = a'.attemptId) : a = a' := by
  obtain rfl := h.attemptUnique _ _ _ _ ha ha' hid
  exact Option.some.inj (ha.symm.trans ha')

/-- Every stored row decodes. -/
theorem decode_fleet {k : String} {fl : FleetRecord} (hfl : t.fleets[k]? = some fl) :
    decodeRow fl = some fl :=
  decodeRow_eq_some.mpr ⟨by simp [Versioned.version, (h.fleet _ _ hfl).2.1], rfl⟩

theorem decode_child {k : String} {ch : FleetChildRecord} (hch : t.children[k]? = some ch) :
    decodeRow ch = some ch :=
  decodeRow_eq_some.mpr ⟨by simp [Versioned.version, (h.child _ _ hch).2.1], rfl⟩

theorem decode_attempt {k : String} {a : Attempt} (ha : t.attempts[k]? = some a) :
    decodeRow a = some a :=
  decodeRow_eq_some.mpr ⟨by simp [Versioned.version, (h.attempt _ _ ha).2], rfl⟩

theorem decode_plan {k : String} {p : DurablePlan} (hp : t.plans[k]? = some p) :
    decodeRow p = some p :=
  decodeRow_eq_some.mpr ⟨by simp [Versioned.version, (h.plan _ _ hp).2.1], rfl⟩

theorem fleet?_eq (f : String) : t.fleet? f = t.fleets[f]? := by
  unfold Tables.fleet?
  cases hfl : t.fleets[f]? with
  | none => rfl
  | some fl => exact h.decode_fleet hfl

theorem child?_eq (f c : String) : t.child? f c = t.children[childKey f c]? := by
  unfold Tables.child?
  cases hch : t.children[childKey f c]? with
  | none => rfl
  | some ch => exact h.decode_child hch

theorem attempt?_eq (c a : String) : t.attempt? c a = t.attempts[attemptKey c a]? := by
  unfold Tables.attempt?
  cases ha : t.attempts[attemptKey c a]? with
  | none => rfl
  | some att => exact h.decode_attempt ha

theorem plan?_eq (f : String) : t.plan? f = t.plans[f]? := by
  unfold Tables.plan?
  cases hp : t.plans[f]? with
  | none => rfl
  | some p => exact h.decode_plan hp

theorem fleetLive_iff (f : String) :
    t.fleetLive f = true ↔ ∃ fl, t.fleets[f]? = some fl ∧ fleetIsLive fl = true := by
  unfold Tables.fleetLive
  rw [h.fleet?_eq]
  cases hfl : t.fleets[f]? with
  | none => simp
  | some fl => simp [(h.fleet _ _ hfl).1]

end WellFormed

/-! ## Rows after a write -/

section Put

variable {t : Tables} {fl : FleetRecord} {ch : FleetChildRecord} {o : Option Attempt}

theorem put_attempt_of {k : String} {a : Attempt} (h : (t.put fl ch o).attempts[k]? = some a) :
    o = some a ∧ k = attemptKey a.childId a.attemptId ∨
      (∀ b, o = some b → k ≠ attemptKey b.childId b.attemptId) ∧ t.attempts[k]? = some a := by
  cases o with
  | none => exact Or.inr ⟨by simp, h⟩
  | some b =>
      rcases Table.of_get_insert h with ⟨rfl, rfl⟩ | ⟨hne, hk⟩
      · exact Or.inl ⟨rfl, rfl⟩
      · refine Or.inr ⟨?_, hk⟩
        rintro _ ⟨rfl⟩
        exact hne.symm

theorem put_attempt_self {a : Attempt} (h : o = some a) :
    (t.put fl ch o).attempts[attemptKey a.childId a.attemptId]? = some a := by
  subst h
  exact Table.get_insert_self _ _ _

theorem put_attempt_ne {k : String} (h : ∀ b, o = some b → k ≠ attemptKey b.childId b.attemptId) :
    (t.put fl ch o).attempts[k]? = t.attempts[k]? := by
  cases o with
  | none => rfl
  | some b => exact Table.get_insert_ne _ _ (h b rfl).symm

end Put

/-- What the attempt written by a move has in common with its child and with
the rows already there. -/
theorem Slot.written {t : Tables} {f c : String} {fl fl' : FleetRecord}
    {ch ch' : FleetChildRecord} {k : Kind} {o o' : Option Attempt} {met : Prop}
    (hwf : WellFormed t) (hch : t.children[childKey f c]? = some ch) (hslot : Slot t ch o o')
    (hmove : ChildMove met fl ch k o fl' ch' o') {a' : Attempt} (ho : o' = some a') :
    a'.fleetId = f ∧ a'.childId = c ∧ a'.schemaVersion = schemaVersionCurrent ∧
      ∀ (j : String) (x : Attempt), t.attempts[j]? = some x → x.attemptId = a'.attemptId →
        j = attemptKey a'.childId a'.attemptId ∧ o = some x := by
  obtain ⟨hf, hc⟩ := hwf.child_ids hch
  subst ho
  cases o with
  | none =>
      obtain ⟨h₁, h₂, h₃, hfresh⟩ := hslot
      refine ⟨h₁.trans hf, h₂.trans hc, h₃, ?_⟩
      intro j x hx hid
      exact absurd hid (hfresh j x hx)
  | some a =>
      obtain ⟨h₁, h₂, hrow⟩ := hslot
      obtain ⟨_, ⟨rfl⟩, hkept⟩ := hmove.attemptKept rfl
      refine ⟨hkept.fleetId.trans (h₁.trans hf), hkept.childId.trans (h₂.trans hc),
        hkept.schemaVersion.trans (hwf.attempt _ _ hrow).2, ?_⟩
      intro j x hx hid
      have hid' : x.attemptId = a.attemptId := hid.trans hkept.attemptId
      obtain rfl := hwf.attempt_eq hx hrow hid'
      refine ⟨?_, rfl⟩
      rw [hkept.childId, hkept.attemptId]
      exact hwf.attemptUnique _ _ _ _ hx hrow rfl

/-! ## Rows after a re-plan -/

namespace Replanned

variable {f : String} {t t' : Tables} (h : Replanned f t t')
include h

/-- A child row after a re-plan: of another fleet, rewritten, or new. -/
theorem child_cases {k : String} {ch' : FleetChildRecord} (hk : t'.children[k]? = some ch') :
    (t.children[k]? = some ch' ∧ ch'.fleetId ≠ f) ∨
    (∃ ch i, t.children[k]? = some ch ∧ ch.fleetId = f ∧
      ch' = replanRow h.plan'.tasks h.succeeded h.newGen h.nowMs i ch ∧
      (ch.status = .succeeded → i = false)) ∨
    (t.children[k]? = none ∧ ∃ task ∈ h.plan'.tasks, k = childKey f task.taskId ∧
      ch' = freshChild f task.taskId task.deps (readiness h.succeeded task.deps) h.newGen
        h.nowMs) := by
  cases hold : t.children[k]? with
  | some ch =>
      by_cases hf : ch.fleetId = f
      · obtain ⟨i, hi, hs⟩ := h.existing k ch hold hf
        rw [hk] at hi
        exact Or.inr (Or.inl ⟨ch, i, rfl, hf, Option.some.inj hi, hs⟩)
      · have hsame := h.foreign k ch hold hf
        rw [hk] at hsame
        obtain rfl := Option.some.inj hsame
        exact Or.inl ⟨rfl, hf⟩
  | none =>
      by_cases hex : ∃ task ∈ h.plan'.tasks, k = childKey f task.taskId
      · obtain ⟨task, hmem, rfl⟩ := hex
        obtain ⟨task', hmem', hid, hrow⟩ := h.fresh task hmem hold
        rw [hk] at hrow
        refine Or.inr (Or.inr ⟨rfl, task', hmem', by rw [hid], ?_⟩)
        rw [hid]
        exact Option.some.inj hrow
      · have hnone := h.absent k hold (fun task hmem hkey => hex ⟨task, hmem, hkey⟩)
        rw [hk] at hnone
        cases hnone

/-- No child row disappears. -/
theorem child_stays {k : String} {ch : FleetChildRecord} (hk : t.children[k]? = some ch) :
    ∃ ch', t'.children[k]? = some ch' := by
  by_cases hf : ch.fleetId = f
  · obtain ⟨i, hi, -⟩ := h.existing k ch hk hf
    exact ⟨_, hi⟩
  · exact ⟨ch, h.foreign k ch hk hf⟩

/-- An attempt row after a re-plan, from the one before. -/
theorem attempt_of {k : String} {a' : Attempt} (hk : t'.attempts[k]? = some a') :
    ∃ a, t.attempts[k]? = some a ∧ AttemptKept a a' ∧
      (a' = a ∧ ¬ (a.fleetId = f ∧ a.status.isLive = true) ∨
        a.fleetId = f ∧ a.status.isLive = true ∧ a' = a.interrupt h.nowMs) := by
  rw [h.attempts] at hk
  obtain ⟨a, ha, rfl⟩ := Option.map_eq_some_iff.mp hk
  refine ⟨a, ha, ?_⟩
  by_cases hl : a.fleetId = f ∧ a.status.isLive = true
  · rw [if_pos hl]
    exact ⟨⟨rfl, rfl, rfl, rfl, rfl, rfl⟩, Or.inr ⟨hl.1, hl.2, rfl⟩⟩
  · rw [if_neg hl]
    exact ⟨.refl a, Or.inl ⟨rfl, hl⟩⟩

/-- A live attempt after a re-plan belongs to another fleet and was not touched. -/
theorem live_attempt {k : String} {a' : Attempt} (hk : t'.attempts[k]? = some a')
    (hl : a'.status.isLive = true) : t.attempts[k]? = some a' ∧ a'.fleetId ≠ f := by
  obtain ⟨a, ha, -, ⟨rfl, hn⟩ | ⟨-, -, rfl⟩⟩ := h.attempt_of hk
  · exact ⟨ha, fun hf => hn ⟨hf, hl⟩⟩
  · simp [Attempt.interrupt] at hl

end Replanned

end Octos.Fleet
