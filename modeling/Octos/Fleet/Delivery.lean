/-
# `Octos.Fleet.Delivery` — the outbox protocol

The outbox is determined by the history of calls.  The event under sequence `q`
is the `q`-th event appended; its claim is the last one `claim_next` handed out
for it; it is acked if an `ack` of it was accepted:

    Run Step Store.empty es s   →   s.outbox[outboxKey q]? = rowOf es q

(`Replays`).  Everything the protocol promises is then read off histories: an
event is claimable if it was appended, was not acked and its last claim has
expired (`Claimable`), and `claim_next` hands out the least claimable one.
-/
import Octos.Fleet.Outbox

namespace Octos.Fleet

variable {s s' : Store} {es : List Call} {call : Call} {q : U64}

/-! ## Histories -/

/-- What `claim_next` handed out. -/
structure Claim where
  consumer : String
  token : String
  expires : U64
  deriving DecidableEq

/-- The event the call appended. -/
def Call.event : Call → Option OutboxEvent
  | ⟨op, .ok r⟩ => op.event r
  | ⟨_, .error _⟩ => none

/-- The claim of the event `q` the call handed out. -/
def Call.claim (q : U64) : Call → Option Claim
  | ⟨.claimNext consumer nowMs ttlMs token, .ok (.claimed (some ev))⟩ =>
      if ev.sequence = q then some ⟨consumer, token, nowMs + ttlMs⟩ else none
  | _ => none

/-- The call acknowledged the event `q`. -/
def Call.acks (q : U64) : Call → Bool
  | ⟨.ack sequence _ _, .ok (.ack .acked)⟩ => sequence == q
  | _ => false

/-- The events appended, in order. -/
def appended (es : List Call) : List OutboxEvent :=
  es.filterMap Call.event

/-- The most recent claim of the event `q`. -/
def lastClaim (q : U64) (es : List Call) : Option Claim :=
  es.reverse.findSome? (Call.claim q)

/-- The event `q` has been acknowledged. -/
def isAcked (q : U64) (es : List Call) : Bool :=
  es.any (Call.acks q)

/-- An event with its claim state. -/
def OutboxEvent.held (ev : OutboxEvent) (cl : Option Claim) (acked : Bool) : OutboxEvent :=
  { ev with
    claimedBy := cl.map Claim.consumer, claimToken := cl.map Claim.token,
    claimExpiresAt := cl.map Claim.expires, acked := acked }

/-- The row of the event `q` after a history. -/
def rowOf (es : List Call) (q : U64) : Option OutboxEvent :=
  if q = 0 then none
  else (appended es)[q.toNat - 1]?.map (fun ev =>
    (ev.stamped q).held (lastClaim q es) (isAcked q es))

/-- An event is appended unclaimed and unacked. -/
def Op.Clean : Op → Prop
  | .appendEvent ev => ev.held none false = ev
  | _ => True

theorem appended_snoc : appended (es ++ [call]) = appended es ++ call.event.toList := by
  cases h : call.event <;> simp [appended, h]

theorem lastClaim_snoc :
    lastClaim q (es ++ [call]) = (call.claim q).orElse (fun _ => lastClaim q es) := by
  unfold lastClaim
  rw [List.reverse_append, List.reverse_singleton, List.singleton_append, List.findSome?_cons]
  cases call.claim q <;> rfl

theorem isAcked_snoc : isAcked q (es ++ [call]) = (isAcked q es || call.acks q) := by
  simp [isAcked]

/-- Only the claim protocol claims and acknowledges. -/
theorem Call.claim_none (h : ¬ call.op.IsClaim) : call.claim q = none := by
  unfold Call.claim
  split
  · exact absurd trivial h
  · rfl

theorem Call.acks_false (h : ¬ call.op.IsClaim) : call.acks q = false := by
  unfold Call.acks
  split
  · exact absurd trivial h
  · rfl

/-- A history that ends in a call which did nothing to the outbox. -/
theorem rowOf_idle (h₁ : call.event = none) (h₂ : ∀ q, call.claim q = none)
    (h₃ : ∀ q, call.acks q = false) :
    (∀ q, rowOf (es ++ [call]) q = rowOf es q) ∧
      appended (es ++ [call]) = appended es ∧
      (∀ q, lastClaim q (es ++ [call]) = lastClaim q es) ∧
      ∀ q, isAcked q (es ++ [call]) = isAcked q es := by
  have ha : appended (es ++ [call]) = appended es := by simp [appended_snoc, h₁]
  have hc : ∀ q, lastClaim q (es ++ [call]) = lastClaim q es := by
    intro q
    rw [lastClaim_snoc, h₂]
    rfl
  have hk : ∀ q, isAcked q (es ++ [call]) = isAcked q es := by
    intro q
    rw [isAcked_snoc, h₃, Bool.or_false]
  refine ⟨?_, ha, hc, hk⟩
  intro q
  rw [rowOf, rowOf, ha, hc, hk]

/-! ## The outbox replays its history -/

/-- The table is what the history says. -/
structure Replays (es : List Call) (o : Table String OutboxEvent) : Prop where
  keyed : OutboxOk o
  row : ∀ q, o[outboxKey q]? = rowOf es q
  bound : (appended es).length < 2 ^ 64
  /-- What was not appended was neither claimed nor acked. -/
  unborn : ∀ q, rowOf es q = none → lastClaim q es = none ∧ isAcked q es = false

theorem rowOf_isSome : (∃ ev, rowOf es q = some ev) ↔
    1 ≤ q.toNat ∧ q.toNat ≤ (appended es).length := by
  unfold rowOf
  by_cases hq : q = 0
  · subst hq
    simp
  · have hpos : q.toNat ≠ 0 := by
      intro h
      exact hq (BitVec.eq_of_toNat_eq h)
    simp only [if_neg hq, Option.map_eq_some_iff]
    constructor
    · rintro ⟨_, ev, hev, -⟩
      have hlt := (List.getElem?_eq_some_iff.mp hev).1
      omega
    · rintro ⟨-, hle⟩
      have hlt : q.toNat - 1 < (appended es).length := by omega
      exact ⟨_, _, List.getElem?_eq_getElem hlt, rfl⟩

theorem Replays.empty : Replays [] Store.empty.outbox where
  keyed := by simp [OutboxOk, Store.empty]
  row := by
    intro q
    simp [Store.empty, rowOf, appended]
  bound := by simp [appended]
  unborn := fun _ _ => ⟨rfl, rfl⟩

namespace Replays

variable {o o' : Table String OutboxEvent} (h : Replays es o)
include h

/-- Every row decodes. -/
theorem decodes {k : String} {ev : OutboxEvent} (hev : o[k]? = some ev) :
    decodeRow ev = some ev ∧ ev.sequence.toNat ≠ 0 := by
  have hk := h.keyed _ _ hev
  rw [hk, h.row] at hev
  have hborn := rowOf_isSome.mp ⟨ev, hev⟩
  unfold rowOf at hev
  split at hev
  · cases hev
  · obtain ⟨x, -, hx⟩ := Option.map_eq_some_iff.mp hev
    refine ⟨decodeRow_eq_some.mpr ⟨?_, rfl⟩, by omega⟩
    rw [← hx]
    exact BitVec.le_refl _

theorem decodedRows_eq : decodedRows o = o.toList := by
  unfold decodedRows
  rw [← List.filterMap_some (l := o.toList)]
  rw [List.filterMap_filterMap]
  refine List.filterMap_congr ?_
  rintro ⟨k, ev⟩ hmem
  simp [(h.decodes (Table.mem_rows.mp hmem)).1]

/-- **The next sequence is the number of events plus one.** -/
theorem next {seq : U64} (hnext : nextSequence o = .ok seq) :
    seq.toNat = (appended es).length + 1 := by
  unfold nextSequence at hnext
  split at hnext
  · next k last hlast =>
      have hrow : o[k]? = some last := Table.mem_rows.mp (List.mem_of_getLast? hlast)
      have hk := h.keyed _ _ hrow
      rw [hk, show parseU64 (outboxKey last.sequence) = some last.sequence from
        parseU64_pad20 _] at hnext
      simp only [okOr_ok, checkedAdd_eq_some] at hnext
      have hone : (1 : U64).toNat = 1 := rfl
      rw [hk, h.row] at hrow
      obtain ⟨hpos, hle⟩ := rowOf_isSome.mp ⟨last, hrow⟩
      -- the last event appended has a row, and no key is past the last one
      have hlen : (BitVec.ofNat 64 (appended es).length).toNat = (appended es).length := by
        rw [BitVec.toNat_ofNat]
        exact Nat.mod_eq_of_lt h.bound
      obtain ⟨ev, hev⟩ : ∃ ev, rowOf es (BitVec.ofNat 64 (appended es).length) = some ev :=
        rowOf_isSome.mpr ⟨by omega, by omega⟩
      rw [← h.row] at hev
      obtain ⟨rows, hrows⟩ := List.getLast?_eq_some_iff.mp hlast
      have hmem := Table.mem_rows.mpr hev
      have hsorted := Std.ExtTreeMap.ordered_keys_toList (t := o)
      rw [hrows] at hmem hsorted
      have hge : (appended es).length ≤ last.sequence.toNat := by
        rcases List.mem_append.mp hmem with hin | hin
        · have hlt := (List.pairwise_append.mp hsorted).2.2 _ hin (k, last) (by simp)
          simp only [hk] at hlt
          have := lt_of_outboxKey_lt hlt
          omega
        · have heq := (Prod.mk.inj (List.mem_singleton.mp hin)).1
          rw [hk] at heq
          rw [← outboxKey_inj heq]
          omega
      omega
  · next hlast =>
      obtain rfl := Except.ok.inj hnext
      have hnil : o.toList = [] := List.getLast?_eq_none_iff.mp hlast
      have hzero : (appended es).length = 0 := by
        by_contra hne
        obtain ⟨ev, hev⟩ : ∃ ev, rowOf es 1 = some ev :=
          rowOf_isSome.mpr ⟨le_rfl, show 1 ≤ _ by omega⟩
        rw [← h.row] at hev
        have hmem := Table.mem_rows.mpr hev
        rw [hnil] at hmem
        cases hmem
      rw [hzero]
      rfl

/-- A call that did nothing. -/
theorem idle (h₁ : call.event = none) (h₂ : ∀ q, call.claim q = none)
    (h₃ : ∀ q, call.acks q = false) : Replays (es ++ [call]) o := by
  obtain ⟨hrow, happ, hcl, hack⟩ :
      (∀ q, rowOf (es ++ [call]) q = rowOf es q) ∧ appended (es ++ [call]) = appended es ∧
        (∀ q, lastClaim q (es ++ [call]) = lastClaim q es) ∧
        ∀ q, isAcked q (es ++ [call]) = isAcked q es := rowOf_idle h₁ h₂ h₃
  refine ⟨h.keyed, ?_, happ ▸ h.bound, ?_⟩
  · intro q
    rw [hrow, h.row]
  · intro q hq
    rw [hcl, hack]
    exact h.unborn q (hrow q ▸ hq)

/-- An append. -/
theorem append {ev : OutboxEvent} {seq : U64} (hev : call.event = some ev)
    (hclean : ev.held none false = ev) (hop : ¬ call.op.IsClaim)
    (happ : appendOutbox o ev = .ok (seq, o')) : Replays (es ++ [call]) o' := by
  obtain ⟨hnext, rfl⟩ := appendOutbox_ok happ
  have hseq := h.next hnext
  have hcl : ∀ q, lastClaim q (es ++ [call]) = lastClaim q es := by
    intro q
    rw [lastClaim_snoc, Call.claim_none hop]
    rfl
  have hack : ∀ q, isAcked q (es ++ [call]) = isAcked q es := by
    intro q
    rw [isAcked_snoc, Call.acks_false hop, Bool.or_false]
  have hevents : appended (es ++ [call]) = appended es ++ [ev] := by
    rw [appended_snoc, hev]
    rfl
  have hseq0 : seq ≠ 0 := by
    rintro rfl
    simp at hseq
  have hunborn : rowOf es seq = none := by
    cases hr : rowOf es seq with
    | none => rfl
    | some x =>
        have := (rowOf_isSome.mp ⟨x, hr⟩).2
        omega
  have hnew : rowOf (es ++ [call]) seq = some (ev.stamped seq) := by
    obtain ⟨hc, hk⟩ := h.unborn seq hunborn
    rw [rowOf, if_neg hseq0, hevents, hcl, hack, hc, hk, hseq, Nat.add_sub_cancel,
      List.getElem?_concat_length, Option.map_some]
    congr 1
    have hst := congrArg (fun e => OutboxEvent.stamped e seq) hclean
    exact hst
  have hother : ∀ q, q ≠ seq → rowOf (es ++ [call]) q = rowOf es q := by
    intro q hq
    have hne : q.toNat ≠ seq.toNat := fun heq => hq (BitVec.eq_of_toNat_eq heq)
    rw [rowOf, rowOf, hevents, hcl, hack]
    by_cases hq0 : q = 0
    · rw [if_pos hq0, if_pos hq0]
    · have hpos : q.toNat ≠ 0 := fun heq => hq0 (BitVec.eq_of_toNat_eq heq)
      rw [if_neg hq0, if_neg hq0]
      congr 1
      by_cases hlt : q.toNat - 1 < (appended es).length
      · exact List.getElem?_append_left hlt
      · rw [List.getElem?_eq_none (by simp; omega), List.getElem?_eq_none (by omega)]
  refine ⟨h.keyed.append happ, ?_, ?_, ?_⟩
  · intro q
    by_cases hq : q = seq
    · subst hq
      rw [hnew]
      exact Table.get_insert_self _ _ _
    · rw [hother q hq, ← h.row]
      exact Table.get_insert_ne _ _ (fun heq => hq (outboxKey_inj heq).symm)
  · rw [hevents, List.length_append, List.length_singleton, ← hseq]
    exact seq.isLt
  · intro q hq
    rw [hcl, hack]
    by_cases hqs : q = seq
    · subst hqs
      exact h.unborn q hunborn
    · exact h.unborn q (hother q hqs ▸ hq)

/-- A row with its claim state. -/
theorem row_held {ev : OutboxEvent} (hev : o[outboxKey q]? = some ev) :
    ev.sequence = q ∧ ev = ev.held (lastClaim q es) (isAcked q es) := by
  rw [h.row, rowOf] at hev
  split at hev
  · cases hev
  · obtain ⟨x, -, rfl⟩ := Option.map_eq_some_iff.mp hev
    exact ⟨rfl, rfl⟩

/-- A call that changed the claim state of one event. -/
theorem update {ev : OutboxEvent} (hev : o[outboxKey q]? = some ev) (h₁ : call.event = none)
    (h₂ : ∀ p, p ≠ q → call.claim p = none) (h₃ : ∀ p, p ≠ q → call.acks p = false)
    (ho' : o' = o.insert (outboxKey q)
      (ev.held (lastClaim q (es ++ [call])) (isAcked q (es ++ [call])))) :
    Replays (es ++ [call]) o' := by
  subst ho'
  have hevents : appended (es ++ [call]) = appended es := by simp [appended_snoc, h₁]
  have hcl : ∀ p, p ≠ q → lastClaim p (es ++ [call]) = lastClaim p es := by
    intro p hp
    rw [lastClaim_snoc, h₂ p hp]
    rfl
  have hack : ∀ p, p ≠ q → isAcked p (es ++ [call]) = isAcked p es := by
    intro p hp
    rw [isAcked_snoc, h₃ p hp, Bool.or_false]
  have hother : ∀ p, p ≠ q → rowOf (es ++ [call]) p = rowOf es p := by
    intro p hp
    rw [rowOf, rowOf, hevents, hcl p hp, hack p hp]
  have hself : rowOf (es ++ [call]) q =
      some (ev.held (lastClaim q (es ++ [call])) (isAcked q (es ++ [call]))) := by
    rw [h.row, rowOf] at hev
    rw [rowOf, hevents]
    split at hev
    · cases hev
    · next hq =>
        obtain ⟨x, hx, rfl⟩ := Option.map_eq_some_iff.mp hev
        rw [if_neg hq, hx]
        rfl
  refine ⟨?_, ?_, hevents ▸ h.bound, ?_⟩
  · intro k x hx
    rcases Table.of_get_insert hx with ⟨rfl, rfl⟩ | ⟨-, hx⟩
    · show outboxKey q = outboxKey ev.sequence
      exact h.keyed _ ev hev
    · exact h.keyed k x hx
  · intro p
    by_cases hp : p = q
    · subst hp
      rw [hself]
      exact Table.get_insert_self _ _ _
    · rw [hother p hp, ← h.row]
      exact Table.get_insert_ne _ _ (fun heq => hp (outboxKey_inj heq).symm)
  · intro p hp
    by_cases hpq : p = q
    · subst hpq
      rw [hself] at hp
      cases hp
    · rw [hcl p hpq, hack p hpq]
      exact h.unborn p (hother p hpq ▸ hp)

end Replays

/-! ## Claiming -/

/-- The event was appended, was not acked, and its last claim has expired. -/
def Claimable (es : List Call) (nowMs q : U64) : Prop :=
  1 ≤ q.toNat ∧ q.toNat ≤ (appended es).length ∧ isAcked q es = false ∧
    ∀ cl, lastClaim q es = some cl → cl.expires < nowMs

/-- The test of `claim_next`, on a row. -/
def OutboxEvent.claimable (nowMs : U64) (ev : OutboxEvent) : Bool :=
  !ev.acked && ev.claimFree nowMs

theorem OutboxEvent.held_claimable {ev : OutboxEvent} {cl : Option Claim} {acked : Bool}
    {nowMs : U64} :
    (ev.held cl acked).claimable nowMs = true ↔
      acked = false ∧ ∀ c, cl = some c → c.expires < nowMs := by
  cases cl <;> simp [OutboxEvent.claimable, OutboxEvent.claimFree, OutboxEvent.held]

theorem Replays.claimable_iff {o : Table String OutboxEvent} (h : Replays es o) {nowMs : U64} :
    Claimable es nowMs q ↔ ∃ ev, o[outboxKey q]? = some ev ∧ ev.claimable nowMs = true := by
  constructor
  · rintro ⟨hpos, hle, hack, hcl⟩
    obtain ⟨ev, hev⟩ := rowOf_isSome.mpr ⟨hpos, hle⟩
    rw [← h.row] at hev
    refine ⟨ev, hev, ?_⟩
    rw [(h.row_held hev).2]
    exact OutboxEvent.held_claimable.mpr ⟨hack, hcl⟩
  · rintro ⟨ev, hev, hfree⟩
    obtain ⟨hpos, hle⟩ := rowOf_isSome.mp ⟨ev, (h.row q) ▸ hev⟩
    rw [(h.row_held hev).2] at hfree
    obtain ⟨hack, hcl⟩ := OutboxEvent.held_claimable.mp hfree
    exact ⟨hpos, hle, hack, hcl⟩

/-- What `claim_next` returns, from the history: nothing, or the least claimable
event under its new claim, unless the expiry overflows. -/
inductive ClaimResult (es : List Call) (consumer : String) (nowMs ttlMs : U64) (token : String)
    (s : Store) : Except StoreError (Option OutboxEvent × Store) → Prop
  | empty (hnone : ∀ q, ¬ Claimable es nowMs q) :
      ClaimResult es consumer nowMs ttlMs token s (.ok (none, s))
  | overflow {q : U64} (hq : Claimable es nowMs q) (hover : 2 ^ 64 ≤ nowMs.toNat + ttlMs.toNat) :
      ClaimResult es consumer nowMs ttlMs token s (.error .claimExpiryOverflow)
  | claimed {q : U64} {ev : OutboxEvent} (hq : Claimable es nowMs q)
      (hleast : ∀ p, Claimable es nowMs p → q.toNat ≤ p.toNat)
      (hfits : nowMs.toNat + ttlMs.toNat < 2 ^ 64) (hev : s.outbox[outboxKey q]? = some ev) :
      ClaimResult es consumer nowMs ttlMs token s
        (.ok (some (ev.held (some ⟨consumer, token, nowMs + ttlMs⟩) false),
          { s with
            outbox := s.outbox.insert (outboxKey q)
              (ev.held (some ⟨consumer, token, nowMs + ttlMs⟩) false) }))

theorem checkedAdd_eq_add {a b c : U64} (h : checkedAdd a b = some c) : c = a + b := by
  have hc := checkedAdd_eq_some.mp h
  refine BitVec.eq_of_toNat_eq ?_
  rw [hc, BitVec.toNat_add, Nat.mod_eq_of_lt]
  rw [← hc]
  exact c.isLt

/-- **`claim_next` hands out the least claimable event.** -/
theorem claimNext_result (h : Replays es s.outbox) (consumer : String) (nowMs ttlMs : U64)
    (token : String) :
    ClaimResult es consumer nowMs ttlMs token s (claimNext consumer nowMs ttlMs token s) := by
  unfold claimNext
  rw [h.decodedRows_eq]
  simp only
  split
  · next k ev hfind =>
      have hrow : s.outbox[k]? = some ev := Table.mem_rows.mp (List.mem_of_find?_eq_some hfind)
      have hfound := List.find?_some hfind
      have hfree : ev.claimable nowMs = true := hfound
      have hk := h.keyed _ _ hrow
      rw [hk] at hrow
      have hq : Claimable es nowMs ev.sequence := h.claimable_iff.mpr ⟨ev, hrow, hfree⟩
      cases hadd : checkedAdd nowMs ttlMs with
      | none => exact .overflow hq (checkedAdd_eq_none.mp hadd)
      | some expires =>
          have hexp := checkedAdd_eq_some.mp hadd
          obtain rfl := checkedAdd_eq_add hadd
          have hleast : ∀ p, Claimable es nowMs p → ev.sequence.toNat ≤ p.toNat := by
            intro p hp
            obtain ⟨ev', hev', hfree'⟩ := h.claimable_iff.mp hp
            rcases Table.find_rows_least hfind hev' hfree' with heq | hlt
            · rw [hk] at heq
              rw [outboxKey_inj heq]
            · rw [hk] at hlt
              exact (lt_of_outboxKey_lt hlt).le
          have hres := @ClaimResult.claimed es consumer nowMs ttlMs token s _ _ hq hleast
            (by rw [← hexp]; exact BitVec.isLt _) hrow
          have hunacked : ev.acked = false := by
            simp only [OutboxEvent.claimable, Bool.and_eq_true, Bool.not_eq_true'] at hfree
            exact hfree.1
          rw [hk]
          have hheld : ev.held (some ⟨consumer, token, nowMs + ttlMs⟩) false =
              { ev with
                claimedBy := some consumer, claimToken := some token,
                claimExpiresAt := some (nowMs + ttlMs) } := by
            rw [OutboxEvent.held, ← hunacked]
            rfl
          rw [hheld] at hres
          exact hres
  · next hfind =>
      refine .empty ?_
      intro q hq
      obtain ⟨ev, hev, hfree⟩ := h.claimable_iff.mp hq
      exact List.find?_eq_none.mp hfind _ (Table.mem_rows.mpr hev) hfree

/-! ## Acknowledging -/

/-- **`ack` is fenced on the last claim.** -/
theorem ack_iff (h : Replays es s.outbox) {consumer token : String} :
    (∃ s', ack q consumer token s = .ok (.acked, s')) ↔
      ∃ cl, lastClaim q es = some cl ∧ cl.consumer = consumer ∧ cl.token = token := by
  unfold ack
  simp only
  cases hev : s.outbox[outboxKey q]? with
  | none =>
      have hcl := (h.unborn q ((h.row q) ▸ hev)).1
      simp [okOr, bind, Except.bind, hcl]
  | some ev =>
      obtain ⟨-, hheld⟩ := h.row_held hev
      have hdec := (h.decodes hev).1
      have hby : ev.claimedBy = (lastClaim q es).map Claim.consumer := by
        rw [hheld]
        rfl
      have htok : ev.claimToken = (lastClaim q es).map Claim.token := by
        rw [hheld]
        rfl
      simp only [okOr, bind, Except.bind, hdec, hby, htok]
      cases hcl : lastClaim q es with
      | none => simp [pure, Except.pure]
      | some cl =>
          by_cases hm : cl.consumer = consumer ∧ cl.token = token
          · simp [hm, pure, Except.pure]
          · simp [hm, pure, Except.pure]

/-- What an `ack` that returns does. -/
theorem ack_ok {consumer token : String} {r : AckOutcome}
    (h : ack q consumer token s = .ok (r, s')) :
    (r = .staleClaim ∧ s' = s) ∨
      r = .acked ∧ ∃ ev, s.outbox[outboxKey q]? = some ev ∧
        s' = { s with outbox := s.outbox.insert (outboxKey q) { ev with acked := true } } := by
  unfold ack at h
  simp only [bind_ok, okOr_ok, return_ok, pure_ok] at h
  obtain ⟨row, hrow, ev, hdec, ⟨-, h⟩ | ⟨-, h⟩⟩ := h
  · obtain ⟨rfl, rfl⟩ := Prod.mk.inj h
    obtain ⟨-, rfl⟩ := decodeRow_eq_some.mp hdec
    exact Or.inr ⟨rfl, row, hrow, rfl⟩
  · obtain ⟨rfl, rfl⟩ := Prod.mk.inj h
    exact Or.inl ⟨rfl, rfl⟩

/-! ## Every run replays -/

theorem Op.Clean.event {op : Op} {r : Ret} {ev : OutboxEvent} (hop : op.Clean)
    (hev : op.event r = some ev) : ev.held none false = ev := by
  unfold Op.event at hev
  split at hev
  · obtain rfl := Option.some.inj hev; rfl
  · obtain rfl := Option.some.inj hev; rfl
  · obtain rfl := Option.some.inj hev; rfl
  · obtain rfl := Option.some.inj hev; rfl
  · obtain rfl := Option.some.inj hev
    exact hop
  · cases hev

theorem Replays.claimed {consumer token : String} {nowMs ttlMs : U64} {r : Option OutboxEvent}
    (h : Replays es s.outbox) (hcall : claimNext consumer nowMs ttlMs token s = .ok (r, s')) :
    Replays (es ++ [⟨.claimNext consumer nowMs ttlMs token, .ok (.claimed r)⟩]) s'.outbox := by
  have hres := claimNext_result h consumer nowMs ttlMs token
  rw [hcall] at hres
  cases hres with
  | empty => exact h.idle rfl (fun _ => rfl) (fun _ => rfl)
  | @claimed q ev hq _ _ hev =>
      obtain ⟨hseq, -⟩ := h.row_held hev
      refine h.update hev rfl ?_ (fun _ _ => rfl) ?_
      · intro p hp
        exact if_neg (fun heq => hp (heq.symm.trans hseq))
      · have hclaim : Call.claim q ⟨.claimNext consumer nowMs ttlMs token, .ok (.claimed
            (some (ev.held (some ⟨consumer, token, nowMs + ttlMs⟩) false)))⟩ =
              some ⟨consumer, token, nowMs + ttlMs⟩ := if_pos hseq
        rw [lastClaim_snoc, hclaim, isAcked_snoc, hq.2.2.1]
        rfl

theorem Replays.acked {consumer token : String} {r : AckOutcome}
    (h : Replays es s.outbox) (hcall : ack q consumer token s = .ok (r, s')) :
    Replays (es ++ [⟨.ack q consumer token, .ok (.ack r)⟩]) s'.outbox := by
  rcases ack_ok hcall with ⟨rfl, rfl⟩ | ⟨rfl, ev, hev, rfl⟩
  · exact h.idle rfl (fun _ => rfl) (fun _ => rfl)
  · refine h.update hev rfl (fun _ _ => rfl) ?_ ?_
    · intro p hp
      exact beq_eq_false_iff_ne.mpr (Ne.symm hp)
    · obtain ⟨-, hheld⟩ := h.row_held hev
      have hacks : Call.acks q ⟨.ack q consumer token, .ok (.ack .acked)⟩ = true :=
        beq_self_eq_true _
      rw [lastClaim_snoc, isAcked_snoc, hacks, Bool.or_true, hheld]
      rfl

/-- A call that failed did nothing. -/
theorem Replays.failed {op : Op} {e : StoreError} {o : Table String OutboxEvent}
    (h : Replays es o) : Replays (es ++ [⟨op, .error e⟩]) o := by
  refine h.idle rfl ?_ ?_
  · intro q
    unfold Call.claim
    split
    · next heq => cases (Call.mk.inj heq).2
    · rfl
  · intro q
    unfold Call.acks
    split
    · next heq => cases (Call.mk.inj heq).2
    · rfl

/-- **The step lemma.** -/
theorem Replays.step (hinv : Inv s.toTables) (h : Replays es s.outbox) (hclean : call.op.Clean)
    (hstep : Step s call s') : Replays (es ++ [call]) s'.outbox := by
  obtain ⟨op, ret⟩ := call
  rcases hstep.cases with ⟨r, rfl, hrun⟩ | ⟨e, rfl, -, rfl⟩
  · by_cases hop : op.IsClaim
    · cases op with
      | claimNext =>
          obtain ⟨o, hcall, rfl⟩ := tagged_ok.mp hrun
          exact h.claimed hcall
      | ack =>
          obtain ⟨o, hcall, rfl⟩ := tagged_ok.mp hrun
          exact h.acked hcall
      | _ => cases hop
    · have hlog := Op.run_event hinv hstep.1 hop hrun
      cases hev : op.event r with
      | none =>
          rw [hev] at hlog
          rw [show s'.outbox = s.outbox from hlog]
          exact h.idle hev (fun _ => Call.claim_none hop) (fun _ => Call.acks_false hop)
      | some ev =>
          rw [hev] at hlog
          obtain ⟨seq, happ⟩ := hlog
          exact h.append hev (hclean.event hev) hop happ
  · exact h.failed

/-- **The outbox replays its history.** -/
theorem outbox_replays (h : Run Step Store.empty es s) (hclean : ∀ c ∈ es, c.op.Clean) :
    Replays es s.outbox := by
  have hboth : Inv s.toTables ∧ ((∀ c ∈ es, c.op.Clean) → Replays es s.outbox) := by
    refine ⟨StoreReachable.inv ⟨es, h⟩, ?_⟩
    refine Run.history (I := fun s : Store => Inv s.toTables)
      (H := fun es s => (∀ c ∈ es, c.op.Clean) → Replays es s.outbox)
      (fun _ _ _ hi hs => hi.step hs) ?_ h Inv.empty (fun _ => Replays.empty)
    intro xs u c u' hi hpre hstep hxs
    refine (hpre ?_).step hi (hxs c (by simp)) hstep
    intro c' hc'
    exact hxs c' (by simp [hc'])
  exact hboth.2 hclean

/-! ## The protocol -/

theorem compare_eq_lt {a b : String} (h : a < b) : compare a b = .lt :=
  compareOfLessAndEq_eq_lt.mpr h

/-- **Key order is numeric order.** -/
theorem outboxKey_lt_iff {p q : U64} : outboxKey p < outboxKey q ↔ p < q := by
  have hmono : ∀ {m n : U64}, outboxKey m < outboxKey n → m < n := by
    intro m n hlt
    exact BitVec.lt_def.mpr (lt_of_outboxKey_lt (compare_eq_lt hlt))
  refine ⟨hmono, ?_⟩
  intro hpq
  rcases lt_trichotomy (outboxKey p) (outboxKey q) with hlt | heq | hgt
  · exact hlt
  · rw [outboxKey_inj heq, BitVec.lt_def] at hpq
    omega
  · have hqp := BitVec.lt_def.mp (hmono hgt)
    rw [BitVec.lt_def] at hpq
    omega

/-- An event handed out was claimable. -/
theorem Replays.handed_out {consumer token : String} {nowMs ttlMs : U64} {ev : OutboxEvent}
    (h : Replays es s.outbox)
    (hcall : claimNext consumer nowMs ttlMs token s = .ok (some ev, s')) :
    Claimable es nowMs ev.sequence := by
  have hres := claimNext_result h consumer nowMs ttlMs token
  rw [hcall] at hres
  cases hres with
  | claimed hq _ _ hev =>
      have hseq := (h.row_held hev).1
      exact hseq.symm ▸ hq

/-- The least claimable event is handed out. -/
theorem Replays.delivers {consumer token : String} {nowMs ttlMs : U64} (h : Replays es s.outbox)
    (hq : Claimable es nowMs q) (hleast : ∀ p, p < q → ¬ Claimable es nowMs p)
    (hfits : nowMs.toNat + ttlMs.toNat < 2 ^ 64) :
    ∃ ev s', claimNext consumer nowMs ttlMs token s = .ok (some ev, s') ∧ ev.sequence = q := by
  have hres := claimNext_result h consumer nowMs ttlMs token
  generalize claimNext consumer nowMs ttlMs token s = r at hres
  cases hres with
  | empty hnone => exact absurd hq (hnone q)
  | overflow _ hover => omega
  | @claimed p ev hp hmin _ hev =>
      refine ⟨_, _, rfl, ?_⟩
      show ev.sequence = q
      rw [(h.row_held hev).1]
      refine BitVec.eq_of_toNat_eq (le_antisymm (hmin q hq) ?_)
      by_contra hlt
      exact hleast p (BitVec.lt_def.mpr (by omega)) hp

/-- **The outbox protocol.**  After every history of calls that append their
events unclaimed and unacked: the rows are the appended events under the
sequences 1, 2, 3, …, and keys sort as sequences; `claim_next` returns the least
claimable event, or nothing if there is none, and fails only when the expiry of
the claim would overflow; `ack` is accepted exactly from the holder of the last
claim; no acked event was handed out again; and an event that has not been acked
is handed out once its claim has expired and nothing before it is claimable. -/
theorem outbox_protocol (h : Run Step Store.empty es s) (hclean : ∀ c ∈ es, c.op.Clean) :
    (∀ k ev, s.outbox[k]? = some ev → k = outboxKey ev.sequence) ∧
    (∀ q, s.outbox[outboxKey q]? = rowOf es q) ∧
    (∀ q, (∃ ev, s.outbox[outboxKey q]? = some ev) ↔
      1 ≤ q.toNat ∧ q.toNat ≤ (appended es).length) ∧
    (∀ p q : U64, outboxKey p < outboxKey q ↔ p < q) ∧
    (∀ consumer nowMs ttlMs token, ClaimResult es consumer nowMs ttlMs token s
      (claimNext consumer nowMs ttlMs token s)) ∧
    (∀ q consumer token, (∃ s', ack q consumer token s = .ok (.acked, s')) ↔
      ∃ cl, lastClaim q es = some cl ∧ cl.consumer = consumer ∧ cl.token = token) ∧
    (∀ xs ys consumer nowMs ttlMs token ev,
      es = xs ++ ⟨.claimNext consumer nowMs ttlMs token, .ok (.claimed (some ev))⟩ :: ys →
      isAcked ev.sequence xs = false) ∧
    (∀ q nowMs, 1 ≤ q.toNat → q.toNat ≤ (appended es).length → isAcked q es = false →
      (∀ cl, lastClaim q es = some cl → cl.expires < nowMs) →
      (∀ p, p < q → ¬ Claimable es nowMs p) →
      ∀ consumer ttlMs token, nowMs.toNat + ttlMs.toNat < 2 ^ 64 →
        ∃ ev s', claimNext consumer nowMs ttlMs token s = .ok (some ev, s') ∧
          ev.sequence = q) := by
  have hrep := outbox_replays h hclean
  refine ⟨hrep.keyed, hrep.row, ?_, fun _ _ => outboxKey_lt_iff,
    claimNext_result hrep, fun _ _ _ => ack_iff hrep, ?_, ?_⟩
  · intro q
    rw [hrep.row]
    exact rowOf_isSome
  · intro xs ys consumer nowMs ttlMs token ev hes
    subst hes
    obtain ⟨u, u', hxs, hstep, -⟩ := h.split_cons
    have hrep' := outbox_replays hxs (fun c hc => hclean c (by simp [hc]))
    obtain ⟨o, hcall, ho⟩ := tagged_ok.mp hstep.run_ok
    obtain rfl := Ret.claimed.inj ho
    exact (hrep'.handed_out hcall).2.2.1
  · intro q nowMs hpos hle hack hcl hleast consumer ttlMs token hfits
    exact hrep.delivers ⟨hpos, hle, hack, hcl⟩ hleast hfits

/-- A claim that expires and is taken over. -/
def takenOverOps : List Op :=
  [.appendEvent (outboxEvent .childDone "f1" none none "e1"),
   .claimNext "w1" 0 10 "t1",
   .claimNext "w2" 20 10 "t2"]

theorem outbox_protocol_taken_over :
    (∃ s', ack 1 "w2" "t2" (execAll takenOverOps Store.empty) = .ok (.acked, s')) ∧
      ¬ ∃ s', ack 1 "w1" "t1" (execAll takenOverOps Store.empty) = .ok (.acked, s') := by
  have hrun := run_execAll takenOverOps Store.empty (by rfl)
  have hclean : ∀ c ∈ callsOf takenOverOps Store.empty, c.op.Clean := by
    intro c hc
    have hop : c.op ∈ takenOverOps := by
      rw [← callsOf_ops takenOverOps Store.empty]
      exact List.mem_map_of_mem hc
    simp only [takenOverOps, List.mem_cons, List.not_mem_nil, or_false] at hop
    rcases hop with h | h | h <;> rw [h]
    · rfl
    · trivial
    · trivial
  have hlast : lastClaim 1 (callsOf takenOverOps Store.empty) = some ⟨"w2", "t2", 30⟩ := by
    rfl
  have hack := (outbox_protocol hrun hclean).2.2.2.2.2.1
  refine ⟨(hack 1 "w2" "t2").mpr ⟨_, hlast, rfl, rfl⟩, ?_⟩
  intro hstale
  obtain ⟨cl, hcl, hby, -⟩ := (hack 1 "w1" "t1").mp hstale
  rw [hlast] at hcl
  rw [← Option.some.inj hcl] at hby
  exact absurd hby (by decide)

/-- `claim_next` refuses a claim whose expiry overflows, and hands nothing out
although there is an event to claim. -/
theorem claim_refused_on_overflow :
    Claimable (callsOf [.appendEvent (outboxEvent .childDone "f1" none none "e1")] Store.empty)
        18446744073709551615 1 ∧
      claimNext "w1" 18446744073709551615 1 "t1"
        (execAll [.appendEvent (outboxEvent .childDone "f1" none none "e1")] Store.empty) =
          .error .claimExpiryOverflow := by
  refine ⟨⟨by decide, by rfl, by rfl, ?_⟩, by rfl⟩
  intro cl hcl
  have hnone : lastClaim 1 (callsOf
      [.appendEvent (outboxEvent .childDone "f1" none none "e1")] Store.empty) = none := by
    rfl
  rw [hnone] at hcl
  cases hcl

end Octos.Fleet
