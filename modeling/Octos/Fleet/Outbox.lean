/-
# `Octos.Fleet.Outbox` — which calls write the outbox, and what

An outbox row sits under the key of its sequence, and the next sequence is one
past the last key.  Sequence keys sort as numbers, so the key of an appended
event is new: an append never overwrites.  `Op.event` is the table of events a
call appends, given what it returned; the claim protocol rewrites claims only.
-/
import Octos.Fleet.Evolve

namespace Octos.Fleet

variable {s s' : Store}

/-- Every outbox row sits under the key of its sequence. -/
def OutboxOk (o : Table String OutboxEvent) : Prop :=
  ∀ (k : String) (ev : OutboxEvent), o[k]? = some ev → k = outboxKey ev.sequence

/-- The row an append writes. -/
def OutboxEvent.stamped (ev : OutboxEvent) (sequence : U64) : OutboxEvent :=
  { ev with sequence := sequence, schemaVersion := schemaVersionCurrent }

theorem appendOutbox_ok {o o' : Table String OutboxEvent} {ev : OutboxEvent} {seq : U64}
    (h : appendOutbox o ev = .ok (seq, o')) :
    nextSequence o = .ok seq ∧ o' = o.insert (outboxKey seq) (ev.stamped seq) := by
  unfold appendOutbox at h
  simp only [bind_ok, pure_ok] at h
  obtain ⟨next, hnext, h⟩ := h
  obtain ⟨rfl, rfl⟩ := Prod.mk.inj h
  exact ⟨hnext, rfl⟩

/-- **The next sequence is new.** -/
theorem nextSequence_new {o : Table String OutboxEvent} {seq : U64} (hok : OutboxOk o)
    (h : nextSequence o = .ok seq) : o[outboxKey seq]? = none := by
  unfold nextSequence at h
  split at h
  · next k ev hlast =>
      obtain ⟨rows, hrows⟩ := List.getLast?_eq_some_iff.mp hlast
      have hk : k = outboxKey ev.sequence := by
        refine hok k ev (Table.mem_rows.mp ?_)
        rw [hrows]
        simp
      have hseq : seq.toNat = ev.sequence.toNat + 1 := by
        rw [hk, show parseU64 (outboxKey ev.sequence) = some ev.sequence from
          parseU64_pad20 _] at h
        simp only [okOr_ok, checkedAdd_eq_some] at h
        exact h
      cases hrow : o[outboxKey seq]? with
      | none => rfl
      | some ev' =>
          exfalso
          have hmem := Table.mem_rows.mpr hrow
          have hsorted := Std.ExtTreeMap.ordered_keys_toList (t := o)
          rw [hrows] at hmem hsorted
          rcases List.mem_append.mp hmem with hin | hin
          · -- a key before the last one is smaller than it
            have hlt := (List.pairwise_append.mp hsorted).2.2 _ hin (k, ev) (by simp)
            simp only [hk] at hlt
            have := lt_of_outboxKey_lt hlt
            omega
          · have heq : outboxKey seq = k := by
              have hpair := List.mem_singleton.mp hin
              exact (Prod.mk.inj hpair).1
            rw [hk] at heq
            have := congrArg BitVec.toNat (outboxKey_inj heq)
            omega
  · next hlast =>
      have hnil : o.toList = [] := List.getLast?_eq_none_iff.mp hlast
      cases hrow : o[outboxKey seq]? with
      | none => rfl
      | some ev' =>
          have hmem := Table.mem_rows.mpr hrow
          rw [hnil] at hmem
          cases hmem

/-- An append fails only when the sequence numbers are used up. -/
theorem appendOutbox_error {o : Table String OutboxEvent} {ev : OutboxEvent} {e : StoreError}
    (hok : OutboxOk o) (h : appendOutbox o ev = .error e) : e = .outboxSequenceOverflow := by
  unfold appendOutbox at h
  rcases bind_error.mp h with h | ⟨seq, -, h⟩
  · unfold nextSequence at h
    split at h
    · next k last hlast =>
        have hk : k = outboxKey last.sequence :=
          hok k last (Table.mem_rows.mp (List.mem_of_getLast? hlast))
        rw [hk, show parseU64 (outboxKey last.sequence) = some last.sequence from
          parseU64_pad20 _] at h
        exact (okOr_error.mp h).2.symm
    · cases h
  · cases h

theorem OutboxOk.append {o o' : Table String OutboxEvent} {ev : OutboxEvent} {seq : U64}
    (hok : OutboxOk o) (h : appendOutbox o ev = .ok (seq, o')) : OutboxOk o' := by
  obtain ⟨-, rfl⟩ := appendOutbox_ok h
  intro k x hx
  rcases Table.of_get_insert hx with ⟨rfl, rfl⟩ | ⟨-, hx⟩
  · rfl
  · exact hok k x hx

/-! ## Which call appends what -/

/-- The event a call appends, given what it returned. -/
def Op.event : Op → Ret → Option OutboxEvent
  | .launchChild f c _ _ _ _ a e, .launch (.launched _) =>
      some (outboxEvent .childLaunching f (some c) (some a) e)
  | .completeChild f c a _ _ _ _ _ e, .complete .completed =>
      some (outboxEvent .childDone f (some c) (some a) e)
  | .recordEscalation f c a _ _ _ _ e, .complete .completed =>
      some (outboxEvent .childDone f (some c) (some a) e)
  | .denyEscalation f c _ _ e, .deny ⟨.completed, _⟩ =>
      some (outboxEvent .childDone f (some c) none e)
  | .appendEvent ev, _ => some ev
  | _, _ => none

/-- The outbox got the event, or nothing. -/
def Logged (s s' : Store) : Option OutboxEvent → Prop
  | some ev => ∃ seq, appendOutbox s.outbox ev = .ok (seq, s'.outbox)
  | none => s'.outbox = s.outbox

/-- An event without its claim. -/
def OutboxEvent.unclaimed (ev : OutboxEvent) : OutboxEvent :=
  { ev with claimedBy := none, claimToken := none, claimExpiresAt := none, acked := false }

/-- Two outboxes that differ in claims only. -/
def SameEvents (o o' : Table String OutboxEvent) : Prop :=
  ∀ k : String, o'[k]?.map OutboxEvent.unclaimed = o[k]?.map OutboxEvent.unclaimed

/-- The calls of the claim protocol. -/
def Op.IsClaim : Op → Prop
  | .claimNext _ _ _ _ => True
  | .ack _ _ _ => True
  | _ => False

theorem sameEvents_insert {o : Table String OutboxEvent} {k : String} {ev ev' : OutboxEvent}
    (hev : o[k]? = some ev) (h : ev'.unclaimed = ev.unclaimed) :
    SameEvents o (o.insert k ev') := by
  intro j
  rw [Table.get_insert]
  split
  · next hk =>
      subst hk
      rw [hev, Option.map_some, Option.map_some, h]
  · rfl

/-- Claiming and acknowledging rewrite claims only. -/
theorem Op.run_claim {op : Op} {r : Ret} (hop : op.IsClaim) (h : op.run s = .ok (r, s')) :
    SameEvents s.outbox s'.outbox := by
  cases op with
  | claimNext consumer nowMs ttlMs token =>
      obtain ⟨o, hrun, -⟩ := tagged_ok.mp h
      unfold Fleet.claimNext at hrun
      simp only at hrun
      split at hrun
      · next key ev hfind =>
          simp only [bind_ok, pure_ok] at hrun
          obtain ⟨expires, -, hrun⟩ := hrun
          obtain ⟨-, rfl⟩ := Prod.mk.inj hrun
          obtain ⟨row, hrow, hdec⟩ := mem_decodedRows.mp (List.mem_of_find?_eq_some hfind)
          obtain ⟨-, rfl⟩ := decodeRow_eq_some.mp hdec
          exact sameEvents_insert hrow rfl
      · obtain ⟨-, rfl⟩ := Prod.mk.inj (pure_ok.mp hrun)
        exact fun _ => rfl
  | ack seq consumer token =>
      obtain ⟨o, hrun, -⟩ := tagged_ok.mp h
      unfold Fleet.ack at hrun
      simp only [bind_ok, okOr_ok, return_ok, pure_ok] at hrun
      obtain ⟨row, hrow, ev, hdec, ⟨-, hrun⟩ | ⟨-, hrun⟩⟩ := hrun
      · obtain ⟨-, rfl⟩ := Prod.mk.inj hrun
        obtain ⟨-, rfl⟩ := decodeRow_eq_some.mp hdec
        exact sameEvents_insert hrow rfl
      · obtain ⟨-, rfl⟩ := Prod.mk.inj hrun
        exact fun _ => rfl
  | _ => cases hop

/-- Every other call appends the event of the table, or nothing. -/
theorem Op.run_event {op : Op} {r : Ret} (hinv : Inv s.toTables) (hfresh : op.Fresh s)
    (hop : ¬ op.IsClaim) (h : op.run s = .ok (r, s')) : Logged s s' (op.event r) := by
  cases op with
  | createFleet =>
      obtain ⟨hrun, rfl⟩ := taggedUnit_ok.mp h
      exact (createFleet_spec hrun).2.2
  | createPlan plan =>
      obtain ⟨o, hrun, rfl⟩ := tagged_ok.mp h
      rcases createPlan_spec hinv hrun with ⟨-, rfl⟩ | ⟨-, -, -, hout⟩
      · rfl
      · exact hout
  | createFleetWithPlan =>
      obtain ⟨hrun, rfl⟩ := taggedUnit_ok.mp h
      exact (createFleetWithPlan_spec hrun).2.1.2
  | addChild =>
      obtain ⟨hrun, rfl⟩ := taggedUnit_ok.mp h
      exact (addChild_spec hinv hrun).2.2
  | markReady =>
      obtain ⟨o, hrun, rfl⟩ := tagged_ok.mp h
      rcases markReady_spec hinv hrun with ⟨-, rfl⟩ | ⟨-, -, -, hout⟩
      · rfl
      · exact hout
  | resolveAndCollectReady =>
      obtain ⟨o, hrun, rfl⟩ := tagged_ok.mp h
      exact (resolveAndCollectReady_spec hinv hrun).2.2
  | cancelFleet =>
      obtain ⟨o, hrun, rfl⟩ := tagged_ok.mp h
      rcases cancelFleet_spec hinv hrun with ⟨-, rfl⟩ | ⟨-, -, -, hout⟩
      · rfl
      · exact hout
  | launchChild =>
      obtain ⟨o, hrun, rfl⟩ := tagged_ok.mp h
      rcases launchChild_spec hinv hfresh hrun with ⟨hne, rfl⟩ | ⟨rfl, -, -, happ⟩
      · cases o with
        | launched a => exact absurd rfl (hne a)
        | _ => rfl
      · exact happ
  | markRunning =>
      obtain ⟨o, hrun, rfl⟩ := tagged_ok.mp h
      rcases markRunning_spec hinv hrun with ⟨-, rfl⟩ | ⟨-, -, -, hout⟩
      · rfl
      · exact hout
  | completeChild =>
      obtain ⟨o, hrun, rfl⟩ := tagged_ok.mp h
      rcases completeChild_spec hinv hrun with ⟨rfl, rfl⟩ | ⟨rfl, x, -, -, -, happ⟩
      · rfl
      · exact happ
  | recordEscalation =>
      obtain ⟨o, hrun, rfl⟩ := tagged_ok.mp h
      rcases recordEscalation_spec hinv hrun with ⟨rfl, rfl⟩ | ⟨rfl, x, -, -, -, happ⟩
      · rfl
      · exact happ
  | replan =>
      obtain ⟨o, hrun, rfl⟩ := tagged_ok.mp h
      rcases replan_spec hinv hrun with ⟨-, rfl⟩ | ⟨R, -, -, -, -, hout⟩
      · rfl
      · exact hout
  | retitleTask =>
      obtain ⟨o, hrun, rfl⟩ := tagged_ok.mp h
      rcases retitleTask_spec hinv hrun with ⟨-, rfl⟩ | ⟨_, _, _, -, -, -, -, -, rfl, -⟩
      · rfl
      · rfl
  | setTaskGrant =>
      obtain ⟨o, hrun, rfl⟩ := tagged_ok.mp h
      rcases setTaskGrant_spec hinv hrun with
        ⟨-, rfl⟩ | ⟨_, _, _, _, -, -, -, -, -, -, -, -, -, -, hout⟩
      · rfl
      · exact hout
  | denyEscalation =>
      obtain ⟨⟨settled, un⟩, hrun, rfl⟩ := tagged_ok.mp h
      rcases denyEscalation_spec hinv hrun with ⟨rfl, rfl⟩ | ⟨rfl, -, -, -, happ⟩
      · rfl
      · exact happ
  | reconcile =>
      obtain ⟨o, hrun, rfl⟩ := tagged_ok.mp h
      exact (reconcile_spec hinv hrun).2.2
  | appendEvent ev =>
      obtain ⟨o, hrun, rfl⟩ := tagged_ok.mp h
      unfold Fleet.appendEvent at hrun
      simp only [bind_ok, pure_ok] at hrun
      obtain ⟨-, -, ⟨seq, outbox⟩, happ, hrun⟩ := hrun
      obtain ⟨-, rfl⟩ := Prod.mk.inj hrun
      exact ⟨seq, happ⟩
  | claimNext => exact absurd trivial hop
  | ack => exact absurd trivial hop
  | appendDecision =>
      obtain ⟨o, hrun, rfl⟩ := tagged_ok.mp h
      exact (appendDecision_tables hrun).2

theorem OutboxOk.step {c : Call} (hinv : Inv s.toTables) (hok : OutboxOk s.outbox)
    (h : Step s c s') : OutboxOk s'.outbox := by
  rcases h.cases with ⟨r, -, hrun⟩ | ⟨e, -, -, rfl⟩
  · by_cases hop : c.op.IsClaim
    · intro k ev hev
      have hsame := Op.run_claim hop hrun k
      rw [hev] at hsame
      obtain ⟨ev', hev', heq⟩ := Option.map_eq_some_iff.mp hsame.symm
      have hseq : ev'.unclaimed.sequence = ev.unclaimed.sequence := by rw [heq]
      change ev'.sequence = ev.sequence at hseq
      rw [← hseq]
      exact hok k ev' hev'
    · have hlog := Op.run_event hinv h.1 hop hrun
      cases hev : c.op.event r with
      | none =>
          rw [hev] at hlog
          rw [show s'.outbox = s.outbox from hlog]
          exact hok
      | some ev =>
          rw [hev] at hlog
          obtain ⟨seq, happ⟩ := hlog
          exact hok.append happ
  · exact hok

/-- Every reachable outbox is keyed by sequence. -/
theorem StoreReachable.outboxOk (h : StoreReachable s) : OutboxOk s.outbox := by
  have hboth : Inv s.toTables ∧ OutboxOk s.outbox := by
    refine Reachable.invariant (I := fun s : Store => Inv s.toTables ∧ OutboxOk s.outbox)
      ⟨Inv.empty, by simp [OutboxOk, Store.empty]⟩ ?_ h
    rintro u c u' ⟨hinv, hok⟩ hstep
    exact ⟨hinv.step hstep, hok.step hinv hstep⟩
  exact hboth.2

end Octos.Fleet
