/-
# `Octos.Fleet.Settlement` — an attempt is settled at most once

`complete_child` and `record_escalation` settle an attempt: they commit what it
spent, release its reservation and append its `ChildDone` event.  The fence is
the attempt's own status.  Settling retires the attempt, so does an
interruption by `replan` or `reconcile`, and a retired row is never written
again (`Effect.attempt_retired`).  Everything a late, duplicated or foreign
worker call can do to a retired attempt is then decided at once: it is
`Superseded`, or refused at the entry for a malformed id, and changes nothing.
-/
import Octos.Fleet.Outbox

namespace Octos.Fleet

variable {s s' : Store} {f c aid : String}

/-! ## Retired attempts -/

/-- The attempt has been settled or interrupted. -/
def Retired (t : Tables) (aid : String) : Prop :=
  ∃ (k : String) (a : Attempt), t.attempts[k]? = some a ∧ a.attemptId = aid ∧
    a.status.isLive = false

theorem Retired.step {call : Call} (hinv : Inv s.toTables) (hret : Retired s.toTables aid)
    (h : Step s call s') : Retired s'.toTables aid := by
  obtain ⟨k, a, ha, hid, hl⟩ := hret
  exact ⟨k, a, (h.effects hinv).attempt_retired hinv ha hl, hid, hl⟩

theorem Retired.run {es : List Call} (hinv : Inv s.toTables) (hret : Retired s.toTables aid)
    (h : Run Step s es s') : Inv s'.toTables ∧ Retired s'.toTables aid := by
  refine h.invariant (I := fun u : Store => Inv u.toTables ∧ Retired u.toTables aid) ?_
    ⟨hinv, hret⟩
  intro u call u' hu hstep
  exact ⟨hu.1.step hstep, hu.2.step hu.1 hstep⟩

/-- No live attempt row carries a retired id. -/
theorem Retired.not_live (hwf : WellFormed s.toTables) (hret : Retired s.toTables aid)
    {k : String} {a : Attempt} (ha : s.attempts[k]? = some a) (hid : a.attemptId = aid) :
    a.status.isLive = false := by
  obtain ⟨k', a', ha', hid', hl⟩ := hret
  obtain rfl := hwf.attemptUnique _ _ _ _ ha ha' (hid.trans hid'.symm)
  obtain rfl := Option.some.inj (ha.symm.trans ha')
  exact hl

theorem Retired.settleFence_none (hinv : Inv s.toTables) (hret : Retired s.toTables aid)
    (epoch : U64) : settleFence f c aid epoch s = none := by
  cases hx : settleFence f c aid epoch s with
  | none => rfl
  | some x =>
      obtain ⟨-, -, -, -, -, hatt, -, -, hid, hst, -⟩ := settleFence_some hinv hx
      have hl := hret.not_live hinv.wf hatt hid
      rw [hst] at hl
      cases hl

/-! ## Worker calls on a retired attempt -/

/-- What a call that passes the entry check returns. -/
def refusal {α : Type} (keys : List String) (r : α) (s : Store) : Except StoreError (α × Store) :=
  match ensureKeySafe keys with
  | .ok _ => .ok (r, s)
  | .error e => .error e

theorem completeChild_refused {verdict : AcceptanceVerdict} {snapshot : ChildResultSnapshot}
    {actual epoch nowMs : U64} {eid : String} (h : settleFence f c aid epoch s = none) :
    completeChild f c aid verdict snapshot actual epoch nowMs eid s =
      refusal [f, c, aid] .superseded s := by
  unfold completeChild refusal
  rw [h]
  cases ensureKeySafe [f, c, aid] <;> rfl

theorem recordEscalation_refused {request : EscalationRequest} {actual epoch nowMs : U64}
    {eid : String} (h : settleFence f c aid epoch s = none) :
    recordEscalation f c aid request actual epoch nowMs eid s =
      refusal [f, c, aid] .superseded s := by
  unfold recordEscalation refusal
  rw [h]
  cases ensureKeySafe [f, c, aid] <;> rfl

theorem markRunning_refused (hwf : WellFormed s.toTables) (hret : Retired s.toTables aid) :
    markRunning c aid s = refusal [c, aid] .superseded s := by
  unfold markRunning refusal
  cases ensureKeySafe [c, aid] with
  | error e => rfl
  | ok u =>
      simp only [bind, Except.bind]
      split
      · next a ha =>
          have hrow : s.attempts[attemptKey c aid]? = some a := by
            rw [← hwf.attempt?_eq]
            exact ha
          split_ifs with h₁ <;> try rfl
          have hl := hret.not_live hwf hrow (by simp_all)
          split <;> try rfl
          split_ifs <;> try rfl
          split <;> try rfl
          split_ifs with h₂ h₃ h₄ <;> try rfl
          exfalso
          apply h₄
          refine Or.inr (Or.inr (Or.inl ?_))
          intro hst
          rw [hst] at hl
          cases hl
      · rfl

/-- The ids a worker call is made with, and the attempt it names. -/
def Op.names : Op → Option (List String × String)
  | .markRunning c a => some ([c, a], a)
  | .completeChild f c a _ _ _ _ _ _ => some ([f, c, a], a)
  | .recordEscalation f c a _ _ _ _ _ => some ([f, c, a], a)
  | _ => none

/-- How a worker call says `Superseded`. -/
def Op.superseded : Op → Ret
  | .markRunning _ _ => .markRunning .superseded
  | _ => .complete .superseded

/-- **A retired attempt refuses every worker call**, and the store is kept. -/
theorem Op.run_retired {op : Op} {keys : List String} (hinv : Inv s.toTables)
    (hret : Retired s.toTables aid) (hop : op.names = some (keys, aid)) :
    op.run s = refusal keys op.superseded s := by
  cases op with
  | markRunning c a =>
      obtain ⟨rfl, rfl⟩ := Prod.mk.inj (Option.some.inj hop)
      show tagged .markRunning (Fleet.markRunning c a s) = _
      rw [markRunning_refused hinv.wf hret]
      unfold refusal
      cases ensureKeySafe [c, a] <;> rfl
  | completeChild f c a v snap actual epoch nowMs e =>
      obtain ⟨rfl, rfl⟩ := Prod.mk.inj (Option.some.inj hop)
      show tagged .complete (Fleet.completeChild f c a v snap actual epoch nowMs e s) = _
      rw [completeChild_refused (hret.settleFence_none hinv epoch)]
      unfold refusal
      cases ensureKeySafe [f, c, a] <;> rfl
  | recordEscalation f c a req actual epoch nowMs e =>
      obtain ⟨rfl, rfl⟩ := Prod.mk.inj (Option.some.inj hop)
      show tagged .complete (Fleet.recordEscalation f c a req actual epoch nowMs e s) = _
      rw [recordEscalation_refused (hret.settleFence_none hinv epoch)]
      unfold refusal
      cases ensureKeySafe [f, c, a] <;> rfl
  | _ => cases hop

/-- The call changed nothing, and returned `Superseded` if its ids are key
safe; otherwise the entry check refused one of them. -/
structure Refused (call : Call) (keys : List String) (s s' : Store) : Prop where
  kept : s' = s
  ret : (∀ k ∈ keys, keyComponentIsSafe k = true) ∧ call.ret = .ok call.op.superseded ∨
    ∃ k ∈ keys, keyComponentIsSafe k = false ∧ call.ret = .error (.invalidKeyComponent k)

theorem Step.refused {call : Call} {keys : List String} (hinv : Inv s.toTables)
    (hret : Retired s.toTables aid) (hop : call.op.names = some (keys, aid))
    (h : Step s call s') : Refused call keys s s' := by
  have hrun := Op.run_retired hinv hret hop
  unfold refusal at hrun
  cases hkeys : ensureKeySafe keys with
  | ok u =>
      rw [hkeys] at hrun
      rcases h.cases with ⟨r, hr, hok⟩ | ⟨e, -, herr, -⟩
      · obtain ⟨rfl, rfl⟩ := Prod.mk.inj (Except.ok.inj (hok.symm.trans hrun))
        exact ⟨rfl, Or.inl ⟨ensureKeySafe_ok.mp hkeys, hr⟩⟩
      · rw [hrun] at herr
        cases herr
  | error e =>
      rw [hkeys] at hrun
      obtain ⟨k, hk, hunsafe, rfl⟩ := ensureKeySafe_error hkeys
      rcases h.cases with ⟨r, -, hok⟩ | ⟨e, he, herr, rfl⟩
      · rw [hrun] at hok
        cases hok
      · obtain rfl := Except.error.inj (hrun.symm.trans herr)
        exact ⟨rfl, Or.inr ⟨k, hk, hunsafe, he⟩⟩

/-! ## Settlements -/

/-- What a settling call was made with. -/
structure Settlement where
  fleetId : String
  childId : String
  attemptId : String
  actual : U64

/-- The settlement a call performed: `complete_child` or `record_escalation`
that returned `Completed`. -/
def Call.settlement : Call → Option Settlement
  | ⟨.completeChild f c a _ _ actual _ _ _, .ok (.complete .completed)⟩ => some ⟨f, c, a, actual⟩
  | ⟨.recordEscalation f c a _ actual _ _ _, .ok (.complete .completed)⟩ => some ⟨f, c, a, actual⟩
  | _ => none

/-- The call settled this attempt. -/
def Call.settles (aid : String) (call : Call) : Bool :=
  call.settlement.any (fun m => m.attemptId == aid)

/-- Is this the `ChildDone` event of the attempt? -/
def doneWeight (aid : String) (ev : OutboxEvent) : Nat :=
  if ev.kind = .childDone ∧ ev.attemptId = some aid then 1 else 0

/-- How many `ChildDone` events of the attempt the outbox holds. -/
def doneEvents (aid : String) (o : Table String OutboxEvent) : Nat :=
  Table.total (doneWeight aid) o

/-- What a settlement does: the spend is added once to the fleet and once to
the child, one event is appended under a new sequence, and the attempt, until
then `Running`, is retired. -/
structure Settled (m : Settlement) (s s' : Store) : Prop where
  fleet : ∃ fl fl', s.fleets[m.fleetId]? = some fl ∧ s'.fleets[m.fleetId]? = some fl' ∧
    fl'.budget.tokensCommitted.toNat = fl.budget.tokensCommitted.toNat + m.actual.toNat
  child : ∃ ch ch', s.children[childKey m.fleetId m.childId]? = some ch ∧
    s'.children[childKey m.fleetId m.childId]? = some ch' ∧
    ch'.tokensCommitted.toNat = ch.tokensCommitted.toNat + m.actual.toNat
  event : ∃ seq ev, s.outbox[outboxKey seq]? = none ∧
    s'.outbox = s.outbox.insert (outboxKey seq) ev ∧ ev.kind = .childDone ∧
    ev.fleetId = m.fleetId ∧ ev.childId = some m.childId ∧ ev.attemptId = some m.attemptId
  running : ∃ (k : String) (a : Attempt), s.attempts[k]? = some a ∧
    a.attemptId = m.attemptId ∧ a.status = .running
  retired : Retired s'.toTables m.attemptId

/-- The kinds of a settlement. -/
def Kind.settles (c aid : String) (actual : U64) (k : Kind) : Prop :=
  ∃ reserved, (∃ accepted, k = .complete c aid accepted actual reserved) ∨
    k = .escalate c aid actual reserved

/-- A settling move, on its three rows. -/
theorem ChildMove.settles {met : Prop} {fl fl' : FleetRecord} {ch ch' : FleetChildRecord}
    {k : Kind} {o o' : Option Attempt} {actual : U64} (h : ChildMove met fl ch k o fl' ch' o')
    (hk : k.settles c aid actual) :
    ch.childId = c ∧
      fl'.budget.tokensCommitted.toNat = fl.budget.tokensCommitted.toNat + actual.toNat ∧
      ch'.tokensCommitted.toNat = ch.tokensCommitted.toNat + actual.toNat ∧
      (∃ a, o = some a ∧ a.attemptId = aid ∧ a.status = .running) ∧
      ∃ a', o' = some a' ∧ a'.attemptId = aid ∧ a'.status.isLive = false := by
  obtain ⟨reserved, ⟨accepted, rfl⟩ | rfl⟩ := hk
  · cases h with
    | complete _ _ _ _ _ hatt hcom _ hchild =>
        refine ⟨rfl, checkedAdd_eq_some.mp hcom, checkedAdd_eq_some.mp hchild, ?_, ?_⟩
        · exact ⟨_, rfl, rfl, hatt⟩
        · exact ⟨_, rfl, rfl, rfl⟩
  · cases h with
    | escalate _ _ _ _ hatt hcom _ hchild =>
        refine ⟨rfl, checkedAdd_eq_some.mp hcom, checkedAdd_eq_some.mp hchild, ?_, ?_⟩
        · exact ⟨_, rfl, rfl, hatt⟩
        · exact ⟨_, rfl, rfl, rfl⟩

theorem Settled.of_effect {actual : U64} {k : Kind} {eid : String} (hinv : Inv s.toTables)
    (hok : OutboxOk s.outbox) (he : Effect f k s.toTables s'.toTables)
    (hk : k.settles c aid actual)
    (happ : Appended (outboxEvent .childDone f (some c) (some aid) eid) s s') :
    Settled ⟨f, c, aid, actual⟩ s s' := by
  have htabs : ∃ t', s'.toTables = t' := ⟨_, rfl⟩
  obtain ⟨t', ht'⟩ := htabs
  rw [ht'] at he
  cases he with
  | @move _ _ fl fl' c' ch ch' o o' hfl hch hslot hmove =>
      obtain ⟨hc, hcom, hchild, ⟨a, ho, haid, hrun⟩, a', ho', haid', hl⟩ := hmove.settles hk
      obtain ⟨hf, hc'⟩ := hinv.wf.child_ids hch
      obtain rfl : c' = c := hc'.symm.trans hc
      have hkf := hmove.fleetKept
      have hkc := hmove.childKept
      refine ⟨⟨fl, fl', hfl, ?_, hcom⟩, ⟨ch, ch', hch, ?_, hchild⟩, ?_, ?_, ?_⟩
      · show s'.toTables.fleets[f]? = some fl'
        rw [ht', ← (hinv.wf.fleet _ _ hfl).1, ← hkf.fleetId]
        exact Table.get_insert_self _ _ _
      · show s'.toTables.children[childKey f c']? = some ch'
        have hkey : childKey f c' = childKey ch'.fleetId ch'.childId := by
          rw [hkc.fleetId, hkc.childId, hf, hc']
        rw [ht', hkey]
        exact Table.get_insert_self _ _ _
      · obtain ⟨-, seq, happ⟩ := happ
        obtain ⟨hseq, hout⟩ := appendOutbox_ok happ
        exact ⟨seq, _, nextSequence_new hok hseq, hout, rfl, rfl, rfl, rfl⟩
      · subst ho ho'
        exact ⟨_, a, hslot.2.2, haid, hrun⟩
      · refine ⟨attemptKey a'.childId a'.attemptId, a', ?_, haid', hl⟩
        rw [ht']
        exact put_attempt_self ho'
  | _ => obtain ⟨_, ⟨_, hk⟩ | hk⟩ := hk <;> cases hk

/-- A settling call, by its two forms: the rows of the fence, one effect, one
event. -/
theorem Step.settling {call : Call} {m : Settlement} (hinv : Inv s.toTables)
    (h : Step s call s') (hm : call.settlement = some m) :
    ∃ epoch x k eid, settleFence m.fleetId m.childId m.attemptId epoch s = some x ∧
      Effect m.fleetId k s.toTables s'.toTables ∧
      ((∃ accepted, k = .complete m.childId m.attemptId accepted m.actual
        x.attempt.reservedTokens) ∨
        k = .escalate m.childId m.attemptId m.actual x.attempt.reservedTokens) ∧
      Appended (outboxEvent .childDone m.fleetId (some m.childId) (some m.attemptId) eid) s s' := by
  obtain ⟨op, ret⟩ := call
  unfold Call.settlement at hm
  split at hm
  · next f c a v snap actual epoch nowMs e heq =>
      obtain ⟨rfl, rfl⟩ := Call.mk.inj heq
      obtain rfl := Option.some.inj hm
      obtain ⟨o, hrun, hr⟩ := tagged_ok.mp h.run_ok
      rcases completeChild_spec hinv hrun with ⟨rfl, -⟩ | ⟨-, x, hx, he, happ⟩
      · cases hr
      · exact ⟨epoch, x, _, e, hx, he, Or.inl ⟨_, rfl⟩, happ⟩
  · next f c a req actual epoch nowMs e heq =>
      obtain ⟨rfl, rfl⟩ := Call.mk.inj heq
      obtain rfl := Option.some.inj hm
      obtain ⟨o, hrun, hr⟩ := tagged_ok.mp h.run_ok
      rcases recordEscalation_spec hinv hrun with ⟨rfl, -⟩ | ⟨-, x, hx, he, happ⟩
      · cases hr
      · exact ⟨epoch, x, _, e, hx, he, Or.inr rfl, happ⟩
  · cases hm

theorem Step.settled {call : Call} {m : Settlement} (hinv : Inv s.toTables)
    (hok : OutboxOk s.outbox) (h : Step s call s') (hm : call.settlement = some m) :
    Settled m s s' := by
  obtain ⟨epoch, x, k, eid, -, he, hk, happ⟩ := h.settling hinv hm
  exact .of_effect hinv hok he ⟨_, hk⟩ happ

/-! ## What every other call leaves alone -/

/-- Spend is committed by settling effects only. -/
theorem FleetStep.committed {k : Kind} {fl fl' : FleetRecord} (h : FleetStep k fl fl')
    (hk : ∀ c aid actual, ¬ k.settles c aid actual) :
    fl'.budget.tokensCommitted = fl.budget.tokensCommitted := by
  cases h with
  | move h =>
      cases h with
      | complete => exact absurd ⟨_, Or.inl ⟨_, rfl⟩⟩ (hk _ _ _)
      | escalate => exact absurd ⟨_, Or.inr rfl⟩ (hk _ _ _)
      | _ => rfl
  | cancel => rfl
  | replan => rfl

/-- A call that settles nothing has no settling effect. -/
theorem Step.effects_of_not_settling {call : Call} (hinv : Inv s.toTables)
    (h : Step s call s') (hm : call.settlement = none) :
    Effects (fun _ k => ∀ c aid actual, ¬ k.settles c aid actual) s.toTables s'.toTables := by
  rcases h.cases with ⟨r, hr, hrun⟩ | ⟨e, -, -, rfl⟩
  · obtain ⟨op, ret⟩ := call
    obtain rfl : ret = .ok r := hr
    cases op with
    | completeChild =>
        obtain ⟨o, hcall, rfl⟩ := tagged_ok.mp hrun
        rcases completeChild_spec hinv hcall with ⟨-, rfl⟩ | ⟨rfl, -⟩
        · exact .refl
        · cases hm
    | recordEscalation =>
        obtain ⟨o, hcall, rfl⟩ := tagged_ok.mp hrun
        rcases recordEscalation_spec hinv hcall with ⟨-, rfl⟩ | ⟨rfl, -⟩
        · exact .refl
        · cases hm
    | _ =>
        refine (h.effects hinv).mono ?_
        rintro g k hk c aid actual ⟨reserved, ⟨accepted, rfl⟩ | rfl⟩ <;>
          simp [Op.Allows] at hk
  · exact .refl

/-- A call that settles nothing commits nothing to any fleet. -/
theorem Step.committed_kept {call : Call} (hinv : Inv s.toTables) (h : Step s call s')
    (hm : call.settlement = none) {g : String} {fl : FleetRecord}
    (hfl : s.fleets[g]? = some fl) :
    ∃ fl', s'.fleets[g]? = some fl' ∧
      fl'.budget.tokensCommitted = fl.budget.tokensCommitted := by
  let K : Tables → Prop := fun t => Inv t ∧ ∃ fl', t.fleets[g]? = some fl' ∧
    fl'.budget.tokensCommitted = fl.budget.tokensCommitted
  have hK : K s'.toTables := by
    refine (h.effects_of_not_settling hinv hm).keep (I := K) ?_ ⟨hinv, fl, hfl, rfl⟩
    rintro f' k t t' hk he ⟨hit, fl₁, hfl₁, hcom⟩
    obtain ⟨fl₂, hfl₂, rfl | ⟨-, hstep⟩⟩ := he.fleet_step hit.wf hfl₁
    · exact ⟨hit.effect he, fl₂, hfl₂, hcom⟩
    · exact ⟨hit.effect he, fl₂, hfl₂, (hstep.committed hk).trans hcom⟩
  exact hK.2

/-- The public append, whose event is the caller's. -/
def Op.IsAppend : Op → Prop
  | .appendEvent _ => True
  | _ => False

/-- Of the events the kernel appends itself, only a settlement's is the
`ChildDone` of an attempt. -/
theorem Op.event_weight {op : Op} {r : Ret} (hop : ¬ op.IsAppend) :
    Table.weight (doneWeight aid) (op.event r) =
      if Call.settles aid ⟨op, .ok r⟩ = true then 1 else 0 := by
  unfold Op.event
  split
  · simp [doneWeight, outboxEvent, Call.settles, Call.settlement]
  · simp [doneWeight, outboxEvent, Call.settles, Call.settlement]
  · simp [doneWeight, outboxEvent, Call.settles, Call.settlement]
  · simp [doneWeight, outboxEvent, Call.settles, Call.settlement]
  · exact absurd trivial hop
  · next _ hcomplete hescalate _ =>
      have hnone : Call.settlement ⟨op, .ok r⟩ = none := by
        unfold Call.settlement
        split
        · next heq =>
            obtain ⟨rfl, hr⟩ := Call.mk.inj heq
            exact (hcomplete _ _ _ _ _ _ _ _ _ rfl (Except.ok.inj hr)).elim
        · next heq =>
            obtain ⟨rfl, hr⟩ := Call.mk.inj heq
            exact (hescalate _ _ _ _ _ _ _ _ rfl (Except.ok.inj hr)).elim
        · rfl
      simp [Call.settles, hnone]

theorem doneEvents_append {o o' : Table String OutboxEvent} {ev : OutboxEvent} {seq : U64}
    (hok : OutboxOk o) (h : appendOutbox o ev = .ok (seq, o')) :
    doneEvents aid o' = doneEvents aid o + doneWeight aid ev := by
  obtain ⟨hseq, rfl⟩ := appendOutbox_ok h
  have hsum := Table.total_insert (doneWeight aid) o (outboxKey seq) (ev.stamped seq)
  rw [nextSequence_new hok hseq] at hsum
  exact hsum

/-- **The outbox counts settlements.** -/
theorem Step.doneEvents {call : Call} (hinv : Inv s.toTables) (hok : OutboxOk s.outbox)
    (h : Step s call s') (hop : ¬ call.op.IsAppend) :
    doneEvents aid s'.outbox =
      doneEvents aid s.outbox + if call.settles aid = true then 1 else 0 := by
  obtain ⟨op, ret⟩ := call
  rcases h.cases with ⟨r, hr, hrun⟩ | ⟨e, he, -, rfl⟩
  · obtain rfl : ret = .ok r := hr
    rw [← Op.event_weight hop]
    by_cases hclaim : op.IsClaim
    · have hsame := Op.run_claim hclaim hrun
      have hev : op.event r = none := by
        cases op <;> first | rfl | cases hclaim
      rw [hev, Table.weight_none, Nat.add_zero]
      have hclaims : ∀ o : Option OutboxEvent,
          Table.weight (doneWeight aid) (o.map OutboxEvent.unclaimed) =
            Table.weight (doneWeight aid) o := by
        intro o
        cases o <;> rfl
      refine Table.total_congr ?_
      intro k
      rw [← hclaims, hsame k, hclaims]
    · have hlog := Op.run_event hinv h.1 hclaim hrun
      cases hev : op.event r with
      | none =>
          rw [hev] at hlog
          rw [show s'.outbox = s.outbox from hlog]
          rfl
      | some ev =>
          rw [hev] at hlog
          obtain ⟨seq, happ⟩ := hlog
          exact doneEvents_append hok happ
  · obtain rfl : ret = .error e := he
    have hnone : Call.settles aid ⟨op, .error e⟩ = false := by
      cases op <;> rfl
    simp [hnone]

/-! ## Whole runs -/

/-- Settling calls and retirement along a run: none yet, or one and the attempt
is retired. -/
theorem settles_count {es : List Call} (h : Run Step Store.empty es s) :
    es.countP (Call.settles aid) = 0 ∨
      es.countP (Call.settles aid) = 1 ∧ Retired s.toTables aid := by
  refine h.history (I := fun u : Store => Inv u.toTables ∧ OutboxOk u.outbox)
    (H := fun es u => es.countP (Call.settles aid) = 0 ∨
      es.countP (Call.settles aid) = 1 ∧ Retired u.toTables aid) ?_ ?_
    ⟨Inv.empty, by simp [OutboxOk, Store.empty]⟩ (Or.inl rfl)
  · intro u call u' hu hstep
    exact ⟨hu.1.step hstep, hu.2.step hu.1 hstep⟩
  · intro es u call u' hu hH hstep
    rw [List.countP_append, List.countP_singleton]
    cases hset : call.settles aid with
    | false =>
        rcases hH with hH | ⟨hH, hret⟩
        · exact Or.inl (by simp [hH])
        · exact Or.inr ⟨by simp [hH], hret.step hu.1 hstep⟩
    | true =>
        obtain ⟨m, hm, hid⟩ := (Option.any_eq_true _ _).mp hset
        have hdone := hstep.settled hu.1 hu.2 hm
        obtain rfl : m.attemptId = aid := by simpa using hid
        rcases hH with hH | ⟨-, hret⟩
        · exact Or.inr ⟨by simp [hH], hdone.retired⟩
        · -- the fence: a settled attempt was running
          obtain ⟨k, a, ha, haid, hrun⟩ := hdone.running
          have hl := hret.not_live hu.1.wf ha haid
          rw [hrun] at hl
          cases hl

/-- What one call does about an attempt: if it settles it, it does so as
`Settled` says; it adds to the attempt's `ChildDone` events exactly when it
settles it; and only settling calls commit spend. -/
structure SettlesOnce (aid : String) (call : Call) (s s' : Store) : Prop where
  settled : ∀ m, call.settlement = some m → m.attemptId = aid → Settled m s s'
  events : ¬ call.op.IsAppend → doneEvents aid s'.outbox =
    doneEvents aid s.outbox + if call.settles aid = true then 1 else 0
  committed : call.settlement = none → ∀ (g : String) (fl : FleetRecord),
    s.fleets[g]? = some fl → ∃ fl', s'.fleets[g]? = some fl' ∧
      fl'.budget.tokensCommitted = fl.budget.tokensCommitted

/-- **An attempt is settled at most once, under any interleaving.** -/
theorem settled_at_most_once {es : List Call} (h : Run Step Store.empty es s) (aid : String) :
    es.countP (Call.settles aid) ≤ 1 ∧
    (∀ xs call ys t t', es = xs ++ call :: ys → Run Step Store.empty xs t → Step t call t' →
      SettlesOnce aid call t t') ∧
    (∀ xs ys u, es = xs ++ ys → Run Step Store.empty xs u → Retired u.toTables aid →
      ∀ ps call qs t t', ys = ps ++ call :: qs → Run Step u ps t → Step t call t' →
        ∀ keys, call.op.names = some (keys, aid) → Refused call keys t t') := by
  refine ⟨?_, ?_, ?_⟩
  · have hcount : es.countP (Call.settles aid) = 0 ∨
        es.countP (Call.settles aid) = 1 ∧ Retired s.toTables aid := settles_count h
    omega
  · intro xs call ys t t' _ hpre hstep
    have hreach : StoreReachable t := ⟨xs, hpre⟩
    refine ⟨?_, ?_, ?_⟩
    · intro m hm _
      exact hstep.settled hreach.inv hreach.outboxOk hm
    · intro hop
      exact hstep.doneEvents hreach.inv hreach.outboxOk hop
    · intro hm g fl hfl
      exact hstep.committed_kept hreach.inv hm hfl
  · intro xs ys u _ hpre hret ps call qs t t' _ hps hstep keys hop
    have hreach : StoreReachable u := ⟨xs, hpre⟩
    obtain ⟨hinv, hret'⟩ := hret.run hreach.inv hps
    exact hstep.refused hinv hret' hop

/-- One child is launched, run and completed. -/
def settledOps : List Op :=
  [.createFleet "f1" ⟨"ctl"⟩ none "default" 100 false 0,
   .addChild "f1" "c1" [] 0,
   .launchChild "f1" "c1" 40 1 7 1000 "a1" "e1",
   .markRunning "c1" "a1",
   .completeChild "f1" "c1" "a1" (.accepted []) ⟨"", true, 30, [], none⟩ 30 7 2 "e2"]

theorem settled_at_most_once_completed :
    (callsOf settledOps Store.empty).countP (Call.settles "a1") = 1 ∧
      (callsOf settledOps Store.empty).countP (Call.settles "a1") ≤ 1 :=
  ⟨by rfl,
    (settled_at_most_once (run_execAll settledOps Store.empty (by rfl)) "a1").1⟩

/-- A late completion under the empty fleet id names the settled attempt and
aborts on the key check instead of returning `Superseded`. -/
theorem retired_call_invalid_key :
    ∃ (es : List Call) (s : Store) (call : Call), Run Step Store.empty es s ∧
      Retired s.toTables "a1" ∧ Step s call s ∧
      call.op.names = some (["", "c1", "a1"], "a1") ∧
      call.ret = .error (.invalidKeyComponent "") := by
  let late : Op :=
    .completeChild "" "c1" "a1" (.accepted []) ⟨"", true, 30, [], none⟩ 30 7 3 "e3"
  have hrow : ((execAll settledOps Store.empty).attempts[attemptKey "c1" "a1"]?).any
      (fun a => a.attemptId == "a1" && !a.status.isLive) = true := by rfl
  obtain ⟨a, ha, hprop⟩ := (Option.any_eq_true _ _).mp hrow
  refine ⟨_, _, ⟨late, .error (.invalidKeyComponent "")⟩,
    run_execAll settledOps Store.empty (by rfl), ⟨_, a, ha, ?_⟩, ⟨trivial, rfl⟩,
    rfl, rfl⟩
  simpa using hprop

end Octos.Fleet
