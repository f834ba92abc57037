/-
# `Octos.Fleet.Escalation` — an escalation is resolved once

A child enters `Blocked` by a successful `record_escalation` and by nothing
else.  It leaves `Blocked` by a grant (`set_task_grant`, to `Ready`), by a
denial (`deny_escalation`, to `Failed`) or by a re-plan.  So the time between
two escalations of a child is one episode: blocked up to one call, not blocked
from that call on.  A grant and a denial both need a blocked child, and within
an episode only one of them finds it.
-/
import Octos.Fleet.Evolve

namespace Octos.Fleet

variable {f c g : String} {k : Kind} {t t' : Tables} {s s' : Store}

/-! ## Blocked rows -/

/-- A child is `Blocked` iff an escalation is pending, and then it has neither
a current attempt nor an outcome. -/
structure BlockedOk (ch : FleetChildRecord) : Prop where
  pending : ch.status = .blocked ↔ ch.pendingEscalation.isSome = true
  idle : ch.status = .blocked → ch.currentAttemptId = none ∧ ch.outcome = none

theorem Inv.blockedOk (h : Inv t) {j : String} {ch : FleetChildRecord}
    (hch : t.children[j]? = some ch) : BlockedOk ch := by
  have hrow := h.rows _ _ hch
  refine ⟨hrow.blocked_iff, ?_⟩
  intro hst
  refine ⟨?_, hrow.outcome_none (by simp [hst, ChildStatus.isTerminal])⟩
  cases hcur : ch.currentAttemptId with
  | none => rfl
  | some a => exact absurd (by simp [hst, pointee]) (h.linked.pointee_ne hch a hcur)

/-- The child is in the status. -/
def Tables.ChildIs (t : Tables) (f c : String) (st : ChildStatus) : Prop :=
  ∃ ch, t.children[childKey f c]? = some ch ∧ ch.status = st

theorem Tables.ChildIs.unique {st st' : ChildStatus} (h : t.ChildIs f c st)
    (h' : t.ChildIs f c st') : st = st' := by
  obtain ⟨ch, hch, rfl⟩ := h
  obtain ⟨ch', hch', rfl⟩ := h'
  rw [Option.some.inj (hch.symm.trans hch')]

/-! ## Entering and leaving -/

/-- The effects that block a child. -/
def Kind.blocks (c : String) (k : Kind) : Prop :=
  ∃ a actual reserved, k = .escalate c a actual reserved

/-- The effects that may unblock a child. -/
def Kind.unblocks (c : String) (k : Kind) : Prop :=
  k = .grant c ∨ k = .deny c ∨ k = .replan

/-- A move that ends in `Blocked` is an escalation. -/
theorem ChildMove.into_blocked {met : Prop} {fl fl' : FleetRecord} {ch ch' : FleetChildRecord}
    {o o' : Option Attempt} (h : ChildMove met fl ch k o fl' ch' o')
    (hst : ch'.status = .blocked) : k.blocks ch.childId := by
  cases h with
  | escalate => exact ⟨_, _, _, rfl⟩
  | complete verdict => cases hv : verdict.isAccepted <;> simp [hv] at hst
  | reclaim => cases hl : fleetIsLive fl <;> simp [hl] at hst
  | _ => cases hst

/-- A move that starts in `Blocked` is a decision of the operator. -/
theorem ChildMove.out_of_blocked {met : Prop} {fl fl' : FleetRecord} {ch ch' : FleetChildRecord}
    {o o' : Option Attempt} (h : ChildMove met fl ch k o fl' ch' o')
    (hst : ch.status = .blocked) : k.unblocks ch.childId := by
  cases h with
  | grant => exact Or.inl rfl
  | deny => exact Or.inr (Or.inl rfl)
  | reclaim h => rcases h with h | h <;> rw [hst] at h <;> cases h
  | promote _ _ h => rw [hst] at h; cases h
  | launch _ _ h => rw [hst] at h; cases h
  | run _ h => rw [hst] at h; cases h
  | complete _ _ _ h => rw [hst] at h; cases h
  | escalate _ _ h => rw [hst] at h; cases h

theorem replanRow_not_blocked {tasks : List PlanTask} {succeeded : List String}
    {newGen nowMs : U64} {interrupted : Bool} {ch : FleetChildRecord} :
    (replanRow tasks succeeded newGen nowMs interrupted ch).status ≠ .blocked := by
  rcases replanRow_cases tasks succeeded newGen nowMs interrupted ch with
    ⟨_, _, _, _, _, hst, _⟩ | ⟨task, _, _, _, _, hst, _⟩ | ⟨_, _, hst, _⟩
  · simp [hst]
  · rcases readiness_cases succeeded task.deps with ⟨hr, -⟩ | hr <;> simp [hst, hr]
  · simp [hst]

theorem Effect.stays_unblocked (hwf : WellFormed t) (he : Effect g k t t')
    (hk : ¬ (g = f ∧ k.blocks c)) (hb : ¬ t.ChildIs f c .blocked) :
    ¬ t'.ChildIs f c .blocked := by
  rintro ⟨ch', hch', hst⟩
  cases hold : t.children[childKey f c]? with
  | none =>
      obtain ⟨_, _, st, _, _, -, rfl, hst', -⟩ := he.child_new hwf hold hch'
      have hst'' : st = .blocked := hst
      rcases hst' with rfl | rfl <;> cases hst''
  | some ch =>
      obtain ⟨hf, hc⟩ := hwf.child_ids hold
      obtain ⟨x, hx, hstep⟩ := he.child_step hwf hold
      obtain rfl := Option.some.inj (hch'.symm.trans hx)
      rcases hstep with rfl | ⟨hg, hstep⟩
      · exact hb ⟨_, hold, hst⟩
      · cases hstep with
        | move hmove => exact hk ⟨hg.symm.trans hf, hc ▸ hmove.into_blocked hst⟩
        | replan => exact replanRow_not_blocked hst

theorem Effect.stays_blocked (hwf : WellFormed t) (he : Effect g k t t')
    (hk : ¬ (g = f ∧ k.unblocks c)) (hb : t.ChildIs f c .blocked) :
    t'.ChildIs f c .blocked := by
  obtain ⟨ch, hch, hst⟩ := hb
  obtain ⟨hf, hc⟩ := hwf.child_ids hch
  obtain ⟨ch', hch', rfl | ⟨hg, hstep⟩⟩ := he.child_step hwf hch
  · exact ⟨ch', hch', hst⟩
  · exfalso
    cases hstep with
    | move hmove => exact hk ⟨hg.symm.trans hf, hc ▸ hmove.out_of_blocked hst⟩
    | replan hr => exact hk ⟨hg.symm.trans hf, Or.inr (Or.inr hr)⟩

theorem Effects.stays_unblocked {P : String → Kind → Prop} (hinv : Inv t) (he : Effects P t t')
    (hP : ∀ g k, P g k → ¬ (g = f ∧ k.blocks c)) (hb : ¬ t.ChildIs f c .blocked) :
    ¬ t'.ChildIs f c .blocked := by
  have hboth : Inv t' ∧ ¬ t'.ChildIs f c .blocked := by
    refine he.keep (I := fun u => Inv u ∧ ¬ u.ChildIs f c .blocked) ?_ ⟨hinv, hb⟩
    intro g k u u' hk hstep hu
    exact ⟨hu.1.effect hstep, hstep.stays_unblocked hu.1.wf (hP g k hk) hu.2⟩
  exact hboth.2

theorem Effects.stays_blocked {P : String → Kind → Prop} (hinv : Inv t) (he : Effects P t t')
    (hP : ∀ g k, P g k → ¬ (g = f ∧ k.unblocks c)) (hb : t.ChildIs f c .blocked) :
    t'.ChildIs f c .blocked := by
  have hboth : Inv t' ∧ t'.ChildIs f c .blocked := by
    refine he.keep (I := fun u => Inv u ∧ u.ChildIs f c .blocked) ?_ ⟨hinv, hb⟩
    intro g k u u' hk hstep hu
    exact ⟨hu.1.effect hstep, hstep.stays_blocked hu.1.wf (hP g k hk) hu.2⟩
  exact hboth.2

/-! ## Calls -/

/-- A successful `record_escalation` for the child. -/
def Call.escalates (f c : String) : Call → Bool
  | ⟨.recordEscalation f' c' _ _ _ _ _ _, .ok (.complete .completed)⟩ => f' == f && c' == c
  | _ => false

/-- A committed grant for the child's task. -/
def Call.grants (f c : String) : Call → Bool
  | ⟨.setTaskGrant f' _ c' _ _, .ok (.plan (.mutated _))⟩ => f' == f && c' == c
  | _ => false

/-- A committed denial of the child's escalation. -/
def Call.denies (f c : String) : Call → Bool
  | ⟨.denyEscalation f' c' _ _ _, .ok (.deny ⟨.completed, _⟩)⟩ => f' == f && c' == c
  | _ => false

/-- A committed re-plan of the fleet. -/
def Call.replans (f : String) : Call → Bool
  | ⟨.replan f' _ _ _, .ok (.plan (.mutated _))⟩ => f' == f
  | _ => false

/-- A move takes its child from one status to the next. -/
theorem ChildMove.childIs {met : Prop} {fl fl' : FleetRecord} {ch ch' : FleetChildRecord}
    {o o' : Option Attempt} (hwf : WellFormed t) (hch : t.children[childKey f c]? = some ch)
    (h : ChildMove met fl ch k o fl' ch' o') :
    t.ChildIs f ch.childId ch.status ∧ (t.put fl' ch' o').ChildIs f ch.childId ch'.status := by
  obtain ⟨hf, hc⟩ := hwf.child_ids hch
  have hkc := h.childKept
  refine ⟨⟨ch, hc.symm ▸ hch, rfl⟩, ch', ?_, rfl⟩
  rw [← hf, ← hkc.fleetId, ← hkc.childId]
  exact Table.get_insert_self _ _ _

theorem Effect.escalated {a : String} {actual reserved : U64} (hwf : WellFormed t)
    (he : Effect f (.escalate c a actual reserved) t t') :
    t.ChildIs f c .running ∧ t'.ChildIs f c .blocked := by
  cases he with
  | move hfl hch hslot hmove =>
      have hmoved := hmove.childIs hwf hch
      cases hmove with
      | escalate _ _ hst =>
          rw [hst] at hmoved
          exact hmoved

theorem Effect.granted (hwf : WellFormed t) (he : Effect f (.grant c) t t') :
    t.ChildIs f c .blocked ∧ t'.ChildIs f c .ready := by
  cases he with
  | move hfl hch hslot hmove =>
      have hmoved := hmove.childIs hwf hch
      cases hmove with
      | grant _ _ hst =>
          rw [hst] at hmoved
          exact hmoved

theorem Effect.denied (hwf : WellFormed t) (he : Effect f (.deny c) t t') :
    t.ChildIs f c .blocked ∧ t'.ChildIs f c .failed := by
  cases he with
  | move hfl hch hslot hmove =>
      have hmoved := hmove.childIs hwf hch
      cases hmove with
      | deny _ _ _ hst =>
          rw [hst] at hmoved
          exact hmoved

theorem Step.escalated {call : Call} (hinv : Inv s.toTables) (h : Step s call s')
    (hcall : call.escalates f c = true) :
    s.toTables.ChildIs f c .running ∧ s'.toTables.ChildIs f c .blocked := by
  obtain ⟨op, ret⟩ := call
  unfold Call.escalates at hcall
  split at hcall
  · next heq =>
      obtain ⟨rfl, rfl⟩ := Call.mk.inj heq
      obtain ⟨rfl, rfl⟩ : _ ∧ _ := by simpa using hcall
      obtain ⟨o, hrun, hr⟩ := tagged_ok.mp h.run_ok
      rcases recordEscalation_spec hinv hrun with ⟨rfl, -⟩ | ⟨-, x, -, he, -⟩
      · cases hr
      · exact he.escalated hinv.wf
  · cases hcall

theorem Step.granted {call : Call} (hinv : Inv s.toTables) (h : Step s call s')
    (hcall : call.grants f c = true) :
    s.toTables.ChildIs f c .blocked ∧ s'.toTables.ChildIs f c .ready := by
  obtain ⟨op, ret⟩ := call
  unfold Call.grants at hcall
  split at hcall
  · next heq =>
      obtain ⟨rfl, rfl⟩ := Call.mk.inj heq
      obtain ⟨rfl, rfl⟩ : _ ∧ _ := by simpa using hcall
      obtain ⟨o, hrun, hr⟩ := tagged_ok.mp h.run_ok
      rcases setTaskGrant_spec hinv hrun with
        ⟨hne, -⟩ | ⟨_, _, _, t₁, -, -, -, -, -, -, he₁, hsame, he₂, -⟩
      · cases hr
        exact absurd rfl (hne _)
      · obtain ⟨⟨ch, hch, hst⟩, hready⟩ := he₂.granted (hinv.effect he₁).wf
        exact ⟨⟨ch, hsame ▸ hch, hst⟩, hready⟩
  · cases hcall

theorem Step.denied {call : Call} (hinv : Inv s.toTables) (h : Step s call s')
    (hcall : call.denies f c = true) :
    s.toTables.ChildIs f c .blocked ∧ s'.toTables.ChildIs f c .failed := by
  obtain ⟨op, ret⟩ := call
  unfold Call.denies at hcall
  split at hcall
  · next heq =>
      obtain ⟨rfl, rfl⟩ := Call.mk.inj heq
      obtain ⟨rfl, rfl⟩ : _ ∧ _ := by simpa using hcall
      obtain ⟨o, hrun, hr⟩ := tagged_ok.mp h.run_ok
      rcases denyEscalation_spec hinv hrun with ⟨hsup, -⟩ | ⟨-, -, ⟨t₁, he, -, hsame⟩, -⟩
      · cases hr
        cases hsup
      · obtain ⟨hblocked, ch, hch, hst⟩ := he.denied hinv.wf
        exact ⟨hblocked, ch, hsame ▸ hch, hst⟩
  · cases hcall

/-- **Only an escalation blocks.** -/
theorem Step.stays_unblocked {call : Call} (hinv : Inv s.toTables) (h : Step s call s')
    (hcall : call.escalates f c = false) (hb : ¬ s.toTables.ChildIs f c .blocked) :
    ¬ s'.toTables.ChildIs f c .blocked := by
  rcases h.cases with ⟨r, hr, hrun⟩ | ⟨e, -, -, rfl⟩
  · obtain ⟨op, ret⟩ := call
    obtain rfl : ret = .ok r := hr
    cases op with
    | recordEscalation f' c' a req actual epoch nowMs e =>
        obtain ⟨o, hop, rfl⟩ := tagged_ok.mp hrun
        rcases recordEscalation_spec hinv hop with ⟨-, rfl⟩ | ⟨rfl, x, -, he, -⟩
        · exact hb
        · refine he.stays_unblocked hinv.wf ?_ hb
          rintro ⟨rfl, a', actual', reserved', hk⟩
          cases hk
          simp [Call.escalates] at hcall
    | _ =>
        refine (h.effects hinv).stays_unblocked hinv ?_ hb
        rintro g k hk ⟨-, a, actual, reserved, rfl⟩
        simp [Op.Allows] at hk
  · exact hb

/-- The calls that may leave `Blocked`. -/
def Call.resolves (f c : String) (call : Call) : Bool :=
  call.grants f c || call.denies f c || call.replans f

/-- **Only a grant, a denial or a re-plan unblocks.** -/
theorem Step.stays_blocked {call : Call} (hinv : Inv s.toTables) (h : Step s call s')
    (hcall : call.resolves f c = false) (hb : s.toTables.ChildIs f c .blocked) :
    s'.toTables.ChildIs f c .blocked := by
  simp only [Call.resolves, Bool.or_eq_false_iff] at hcall
  obtain ⟨⟨hgrant, hdeny⟩, hreplan⟩ := hcall
  rcases h.cases with ⟨r, hr, hrun⟩ | ⟨e, -, -, rfl⟩
  · obtain ⟨op, ret⟩ := call
    obtain rfl : ret = .ok r := hr
    cases op with
    | setTaskGrant f' rev c' grant nowMs =>
        obtain ⟨o, hop, rfl⟩ := tagged_ok.mp hrun
        rcases setTaskGrant_spec hinv hop with ⟨-, rfl⟩ | ⟨_, _, _, t₁, rfl, -⟩
        · exact hb
        · have hne : ¬ (f' = f ∧ c' = c) := by simpa [Call.grants] using hgrant
          refine (h.effects hinv).stays_blocked hinv ?_ hb
          rintro g k ⟨rfl, hk⟩ ⟨rfl, hu⟩
          rcases hk with rfl | rfl
          · rcases hu with hu | hu | hu <;> cases hu
          · rcases hu with hu | hu | hu <;> cases hu
            exact hne ⟨rfl, rfl⟩
    | denyEscalation f' c' reason nowMs e =>
        obtain ⟨⟨o, un⟩, hop, rfl⟩ := tagged_ok.mp hrun
        rcases denyEscalation_spec hinv hop with ⟨-, rfl⟩ | ⟨hdone, -⟩
        · exact hb
        · obtain rfl : o = .completed := hdone
          have hne : ¬ (f' = f ∧ c' = c) := by simpa [Call.denies] using hdeny
          refine (h.effects hinv).stays_blocked hinv ?_ hb
          rintro g k ⟨rfl, hk⟩ ⟨rfl, hu⟩
          rcases hk with rfl | rfl
          · rcases hu with hu | hu | hu <;> cases hu
          · rcases hu with hu | hu | hu <;> cases hu
            exact hne ⟨rfl, rfl⟩
    | replan f' rev plan nowMs =>
        obtain ⟨o, hop, rfl⟩ := tagged_ok.mp hrun
        rcases replan_spec hinv hop with ⟨-, rfl⟩ | ⟨R, rfl, -⟩
        · exact hb
        · have hne : f' ≠ f := by simpa [Call.replans] using hreplan
          refine (h.effects hinv).stays_blocked hinv ?_ hb
          rintro g k ⟨rfl, -⟩ ⟨rfl, -⟩
          exact hne rfl
    | _ =>
        refine (h.effects hinv).stays_blocked hinv ?_ hb
        rintro g k hk ⟨-, rfl | rfl | rfl⟩ <;> simp [Op.Allows] at hk
  · exact hb

/-! ## Episodes -/

/-- The episode `mid` from `s` to `s'`: the child is blocked up to one call, no
longer blocked from it on, and that call is the grant, the denial or a
re-plan. -/
def ResolvedOnce (f c : String) (s : Store) (mid : List Call) (s' : Store) : Prop :=
  ∃ xs call ys a b, mid = xs ++ call :: ys ∧ Run Step s xs a ∧ Step a call b ∧ Run Step b ys s' ∧
    (∀ ps qs u, xs = ps ++ qs → Run Step s ps u → Run Step u qs a →
      u.toTables.ChildIs f c .blocked) ∧
    (∀ ps qs u, ys = ps ++ qs → Run Step b ps u → ¬ u.toTables.ChildIs f c .blocked) ∧
    (call.grants f c = true ∧ b.toTables.ChildIs f c .ready ∨
      call.denies f c = true ∧ b.toTables.ChildIs f c .failed ∨ call.replans f = true)

/-- Once unblocked, a child stays so until the next escalation. -/
theorem Run.stays_unblocked {es : List Call} (hinv : Inv s.toTables) (h : Run Step s es s')
    (hes : ∀ e ∈ es, e.escalates f c = false) (hb : ¬ s.toTables.ChildIs f c .blocked) :
    ¬ s'.toTables.ChildIs f c .blocked := by
  have hboth : Inv s'.toTables ∧ ¬ s'.toTables.ChildIs f c .blocked := by
    refine h.invariant_on (I := fun u : Store => Inv u.toTables ∧ ¬ u.toTables.ChildIs f c .blocked)
      (Q := fun e => e.escalates f c = false) ?_ hes ⟨hinv, hb⟩
    intro u call u' hcall hu hstep
    exact ⟨hu.1.step hstep, hstep.stays_unblocked hu.1 hcall hu.2⟩
  exact hboth.2

/-- The call that leaves `Blocked`, and where it leads. -/
theorem Step.resolution {call : Call} (hinv : Inv s.toTables) (h : Step s call s')
    (hb : s.toTables.ChildIs f c .blocked) (hb' : ¬ s'.toTables.ChildIs f c .blocked) :
    call.grants f c = true ∧ s'.toTables.ChildIs f c .ready ∨
      call.denies f c = true ∧ s'.toTables.ChildIs f c .failed ∨ call.replans f = true := by
  cases hres : call.resolves f c with
  | false => exact absurd (h.stays_blocked hinv hres hb) hb'
  | true =>
      simp only [Call.resolves, Bool.or_eq_true] at hres
      rcases hres with (hgrant | hdeny) | hreplan
      · exact Or.inl ⟨hgrant, (h.granted hinv hgrant).2⟩
      · exact Or.inr (Or.inl ⟨hdeny, (h.denied hinv hdeny).2⟩)
      · exact Or.inr (Or.inr hreplan)

theorem resolvedOnce {mid : List Call} (hinv : Inv s.toTables) (h : Run Step s mid s')
    (hmid : ∀ e ∈ mid, e.escalates f c = false) (hb : s.toTables.ChildIs f c .blocked)
    (hb' : ¬ s'.toTables.ChildIs f c .blocked) : ResolvedOnce f c s mid s' := by
  obtain ⟨xs, call, ys, a, b, rfl, hxs, hstep, hys, ha, hbb⟩ :=
    h.exit (P := fun u : Store => u.toTables.ChildIs f c .blocked)
      (fun xs e ys a b hes hxs hstep hna =>
        hstep.stays_unblocked (hinv.run hxs) (hmid e (by simp [hes])) hna) hb hb'
  have hinva := hinv.run hxs
  refine ⟨xs, call, ys, a, b, rfl, hxs, hstep, hys, ?_, ?_, hstep.resolution hinva ha hbb⟩
  · intro ps qs u hps hpre hpost
    by_contra hu
    refine Run.stays_unblocked (hinv.run hpre) hpost ?_ hu ha
    intro e he
    exact hmid e (by simp [hps, he])
  · intro ps qs u hps hpre
    refine Run.stays_unblocked (hinva.step hstep) hpre ?_ hbb
    intro e he
    exact hmid e (by simp [hps, he])

/-- The operator's decision on the child's escalation. -/
def Call.decides (f c : String) (call : Call) : Bool :=
  call.grants f c || call.denies f c

/-- Between escalations there is at most one decision, and after it the child is
not blocked. -/
theorem decides_count {mid : List Call} (hinv : Inv s.toTables) (h : Run Step s mid s')
    (hmid : ∀ e ∈ mid, e.escalates f c = false) : mid.countP (Call.decides f c) ≤ 1 := by
  have hhist : mid.countP (Call.decides f c) = 0 ∨
      mid.countP (Call.decides f c) = 1 ∧ ¬ s'.toTables.ChildIs f c .blocked := by
    refine (h.strengthen (C := fun _ e => e.escalates f c = false)
      (fun e he _ => hmid e he)).history (I := fun u : Store => Inv u.toTables)
      (H := fun es u => es.countP (Call.decides f c) = 0 ∨
        es.countP (Call.decides f c) = 1 ∧ ¬ u.toTables.ChildIs f c .blocked) ?_ ?_ hinv
      (Or.inl rfl)
    · intro u call u' hu hstep
      exact hu.step hstep.1
    · rintro es u call u' hu hH ⟨hstep, hcall⟩
      rw [List.countP_append, List.countP_singleton]
      cases hdec : call.decides f c with
      | false =>
          rcases hH with hH | ⟨hH, hb⟩
          · exact Or.inl (by simp [hH])
          · exact Or.inr ⟨by simp [hH], hstep.stays_unblocked hu hcall hb⟩
      | true =>
          -- a decision needs the child blocked and unblocks it
          have hmoved : u.toTables.ChildIs f c .blocked ∧ ¬ u'.toTables.ChildIs f c .blocked := by
            rcases Bool.or_eq_true_iff.mp hdec with hgrant | hdeny
            · obtain ⟨hbefore, hafter⟩ := hstep.granted hu hgrant
              exact ⟨hbefore, fun hb => by cases hafter.unique hb⟩
            · obtain ⟨hbefore, hafter⟩ := hstep.denied hu hdeny
              exact ⟨hbefore, fun hb => by cases hafter.unique hb⟩
          rcases hH with hH | ⟨-, hb⟩
          · exact Or.inr ⟨by simp [hH], hmoved.2⟩
          · exact absurd hmoved.1 hb
  omega

/-- **Escalation resolution is exclusive.** -/
theorem escalation_resolution {es : List Call} (h : Run Step Store.empty es s) :
    (∀ (k : String) (ch : FleetChildRecord), s.children[k]? = some ch → BlockedOk ch) ∧
    (∀ f c pre e₁ mid e₂ post s₁ s₂, es = pre ++ e₁ :: (mid ++ e₂ :: post) →
      e₁.escalates f c = true → e₂.escalates f c = true →
      (∀ e ∈ mid, e.escalates f c = false) →
      Run Step Store.empty (pre ++ [e₁]) s₁ → Run Step s₁ mid s₂ → Run Step s₂ (e₂ :: post) s →
      ResolvedOnce f c s₁ mid s₂) ∧
    (∀ f c pre mid post, es = pre ++ (mid ++ post) → (∀ e ∈ mid, e.escalates f c = false) →
      mid.countP (Call.decides f c) ≤ 1) := by
  refine ⟨?_, ?_, ?_⟩
  · intro k ch hch
    exact (StoreReachable.inv ⟨es, h⟩).blockedOk hch
  · intro f c pre e₁ mid e₂ post s₁ s₂ _ h₁ h₂ hmid hpre hrun hpost
    obtain ⟨s₀, hr₀, hstep₁⟩ := hpre.snoc_inv
    have hpost' : Run Step s₂ ([] ++ e₂ :: post) s := hpost
    obtain ⟨s₂', s₃, hnil, hstep₂, -⟩ := hpost'.split_cons
    obtain rfl := hnil.nil_inv
    have hinv₀ : Inv s₀.toTables := StoreReachable.inv ⟨_, hr₀⟩
    have hinv₁ := hinv₀.step hstep₁
    refine resolvedOnce hinv₁ hrun hmid (hstep₁.escalated hinv₀ h₁).2 ?_
    intro hb
    cases ((hstep₂.escalated (hinv₁.run hrun) h₂).1).unique hb
  · intro f c pre mid post hes hmid
    rw [hes] at h
    obtain ⟨s₀, hpre, hrest⟩ := h.split
    obtain ⟨s₁, hmidrun, -⟩ := hrest.split
    exact decides_count (StoreReachable.inv ⟨_, hpre⟩) hmidrun hmid

/-- A child escalates, is granted and escalates again. -/
def escalatedTwiceOps : List Op :=
  [.createFleetWithPlan ⟨"ctl"⟩ none none "default" 100 false
    ⟨3, "f1", 1, "", [⟨"c1", "", "", [], [], ⟨.none, [], .workspace, none, false⟩⟩]⟩ 0,
   .launchChild "f1" "c1" 40 1 7 1000 "a1" "e1",
   .markRunning "c1" "a1",
   .recordEscalation "f1" "c1" "a1" ⟨⟨.full, [], .workspace, none, false⟩, "net"⟩ 10 7 2 "e2",
   .setTaskGrant "f1" 1 "c1" ⟨.full, [], .workspace, none, false⟩ 3,
   .denyEscalation "f1" "c1" "no" 4 "e3",
   .launchChild "f1" "c1" 40 5 7 1000 "a2" "e4",
   .markRunning "c1" "a2",
   .recordEscalation "f1" "c1" "a2" ⟨⟨.full, [], .host, none, false⟩, "fs"⟩ 10 7 6 "e5"]

theorem escalation_resolution_granted :
    (callsOf escalatedTwiceOps Store.empty).countP (Call.escalates "f1" "c1") = 2 ∧
      (((callsOf escalatedTwiceOps Store.empty).drop 4).take 4).countP
        (Call.decides "f1" "c1") = 1 ∧
      (((callsOf escalatedTwiceOps Store.empty).drop 4).take 4).countP
        (Call.decides "f1" "c1") ≤ 1 := by
  refine ⟨by rfl, by rfl, ?_⟩
  refine (escalation_resolution (run_execAll escalatedTwiceOps Store.empty (by rfl))).2.2
    "f1" "c1" ((callsOf escalatedTwiceOps Store.empty).take 4) _
    ((callsOf escalatedTwiceOps Store.empty).drop 8) ?_ ?_
  · rw [← List.drop_drop (i := 4) (j := 4), List.take_append_drop, List.take_append_drop]
  · intro e he
    exact Bool.eq_false_iff.mpr fun h => absurd
      (List.countP_pos_iff.mpr ⟨e, he, h⟩) (by decide)

end Octos.Fleet
