/-
# `Octos.Fleet.Budget` — the token budget of a fleet

What a fleet has committed is what its children have, cancelled ones included.
What it may commit is bounded by admission: a launch reserves only what fits,
and a settlement replaces a reservation by the spend it reports.  As long as
nobody reports more than was reserved, reservation and spend together stay
within the budget, and then no token sum can overflow: every sum a transaction
forms is bounded by the budget, which is a `u64`.

The report is the caller's word.  `complete_child` and `record_escalation` take
any `actual_tokens`, and a report that does not fit aborts on the checked
addition (`overflow_in_honest_run`).
-/
import Octos.Fleet.Settlement

namespace Octos.Fleet

variable {f : String} {k : Kind} {t t' : Tables} {s s' : Store}

/-- Reservation and spend are within the budget. -/
def FleetBudget.Within (b : FleetBudget) : Prop :=
  b.tokensReserved.toNat + b.tokensCommitted.toNat ≤ b.tokenBudget.toNat

/-- Every fleet is within its budget. -/
def WithinBudget (t : Tables) : Prop :=
  ∀ (j : String) (fl : FleetRecord), t.fleets[j]? = some fl → fl.budget.Within

/-- A settlement that spends at most what was reserved. -/
def Kind.frugal : Kind → Prop
  | .complete _ _ _ actual reserved => actual ≤ reserved
  | .escalate _ _ actual reserved => actual ≤ reserved
  | _ => True

theorem ChildMove.within {met : Prop} {fl fl' : FleetRecord} {ch ch' : FleetChildRecord}
    {o o' : Option Attempt} (h : ChildMove met fl ch k o fl' ch' o') (hk : k.frugal)
    (hw : fl.budget.Within) : fl'.budget.Within := by
  unfold FleetBudget.Within at hw ⊢
  cases h with
  | promote => exact hw
  | launch _ _ _ _ hadm hres =>
      have hfits := FleetBudget.admits_iff.mp hadm
      have hsum := checkedAdd_eq_some.mp hres
      simp only
      omega
  | run => exact hw
  | complete _ _ _ _ _ _ hcom hres =>
      have hle : _ ≤ _ := BitVec.le_def.mp hk
      have hc := checkedAdd_eq_some.mp hcom
      have hr := checkedSub_eq_some.mp hres
      simp only [settleBudget]
      omega
  | escalate _ _ _ _ _ hcom hres =>
      have hle : _ ≤ _ := BitVec.le_def.mp hk
      have hc := checkedAdd_eq_some.mp hcom
      have hr := checkedSub_eq_some.mp hres
      simp only [settleBudget]
      omega
  | grant => exact hw
  | deny => exact hw
  | reclaim _ _ _ hres =>
      have hr := checkedSub_eq_some.mp hres
      simp only
      omega

/-- A re-plan interrupts everything, so it releases every reservation. -/
theorem Replanned.reserved_le (h : Replanned f t t') :
    h.reserved.toNat ≤ h.fleet.budget.tokensReserved.toNat := by
  have hzero : Table.total (reservedBy f) t'.attempts = 0 := by
    refine Table.total_eq_zero ?_
    intro j a' ha'
    have hrow := h.attempts j
    rw [ha'] at hrow
    obtain ⟨a, -, rfl⟩ := Option.map_eq_some_iff.mp hrow.symm
    split
    · simp [reservedBy, Attempt.interrupt]
    · next hl => exact if_neg hl
  have hbal := h.balance
  omega

/-- **The budget bound is kept** by every frugal effect. -/
theorem WithinBudget.effect (hwf : WellFormed t) (hw : WithinBudget t) (he : Effect f k t t')
    (hk : k.frugal) : WithinBudget t' := by
  intro j fl' hfl'
  cases hold : t.fleets[j]? with
  | some fl =>
      obtain ⟨x, hx, hstep⟩ := he.fleet_step hwf hold
      obtain rfl := Option.some.inj (hfl'.symm.trans hx)
      rcases hstep with rfl | ⟨rfl, hstep⟩
      · exact hw j _ hold
      cases hstep with
      | move hmove => exact hmove.within hk (hw j fl hold)
      | cancel => exact hw j fl hold
      | replan hr =>
          subst hr
          cases he with
          | replan h =>
              rw [h.fleets, Table.get_insert_self] at hfl'
              obtain rfl := Option.some.inj (h.fleet_found.symm.trans hold)
              have hres := congrArg (fun fl => fl.budget.tokensReserved) (Option.some.inj hfl')
              have hle := h.reserved_le
              have hbound : _ ≤ _ := hw j _ hold
              simp only at hres
              rw [hres] at hle
              show _ + _ ≤ _
              simp only
              omega
          | move _ _ _ hmove => cases hmove
  | none =>
      obtain ⟨-, -, hres, hcom⟩ := he.fleet_new hwf hold hfl'
      simp [FleetBudget.Within, hres, hcom]

/-! ## Honest runs -/

/-- What a settling call reports, whether or not it succeeds. -/
def Op.report : Op → Option Settlement
  | .completeChild f c a _ _ actual _ _ _ => some ⟨f, c, a, actual⟩
  | .recordEscalation f c a _ actual _ _ _ => some ⟨f, c, a, actual⟩
  | _ => none

/-- The report is at most what its attempt reserved. -/
def Settlement.fits (t : Tables) (m : Settlement) : Bool :=
  (t.attempts[attemptKey m.childId m.attemptId]?).all (fun a => decide (m.actual ≤ a.reservedTokens))

/-- A call that, if it settles, reports at most the reservation. -/
def Call.honestIn (t : Tables) (call : Call) : Bool :=
  call.settlement.all (Settlement.fits t)

/-- A step of an honest run. -/
def HonestStep (s : Store) (call : Call) (s' : Store) : Prop :=
  Step s call s' ∧ call.honestIn s.toTables = true

theorem Settlement.le_of_fits {m : Settlement} (h : m.fits t = true) {a : Attempt}
    (ha : t.attempts[attemptKey m.childId m.attemptId]? = some a) :
    m.actual ≤ a.reservedTokens := by
  unfold Settlement.fits at h
  rw [ha] at h
  simpa using h

theorem Kind.frugal_of_not_settling (h : ∀ c aid actual, ¬ k.settles c aid actual) :
    k.frugal := by
  cases k with
  | complete => exact absurd ⟨_, Or.inl ⟨_, rfl⟩⟩ (h _ _ _)
  | escalate => exact absurd ⟨_, Or.inr rfl⟩ (h _ _ _)
  | _ => trivial

/-- An honest call has frugal effects. -/
theorem HonestStep.effects {call : Call} (hinv : Inv s.toTables) (h : HonestStep s call s') :
    Effects (fun _ k => k.frugal) s.toTables s'.toTables := by
  obtain ⟨h, hhonest⟩ := h
  cases hm : call.settlement with
  | none =>
      exact (h.effects_of_not_settling hinv hm).mono
        (fun _ _ hk => Kind.frugal_of_not_settling hk)
  | some m =>
      obtain ⟨epoch, x, k, eid, hx, he, hk, -⟩ := h.settling hinv hm
      obtain ⟨-, -, -, -, -, hatt, -⟩ := settleFence_some hinv hx
      have hfits : m.fits s.toTables = true := by
        rw [Call.honestIn, hm] at hhonest
        exact hhonest
      have hle : m.actual ≤ x.attempt.reservedTokens := Settlement.le_of_fits hfits hatt
      refine .single ?_ he
      rcases hk with ⟨accepted, rfl⟩ | rfl
      · exact hle
      · exact hle

theorem WithinBudget.step {call : Call} (hinv : Inv s.toTables) (hw : WithinBudget s.toTables)
    (h : HonestStep s call s') : WithinBudget s'.toTables := by
  have hboth : Inv s'.toTables ∧ WithinBudget s'.toTables := by
    refine (h.effects hinv).keep (I := fun u => Inv u ∧ WithinBudget u) ?_ ⟨hinv, hw⟩
    intro g k u u' hk he hu
    exact ⟨hu.1.effect he, hu.2.effect hu.1.wf he hk⟩
  exact hboth.2

theorem withinBudget_of_honest (h : Reachable HonestStep Store.empty s) :
    Inv s.toTables ∧ WithinBudget s.toTables := by
  refine h.invariant (I := fun u : Store => Inv u.toTables ∧ WithinBudget u.toTables) ?_ ?_
  · exact ⟨Inv.empty, by simp [WithinBudget, Store.empty]⟩
  · intro u call u' hu hstep
    exact ⟨hu.1.step hstep.1, hu.2.step hu.1 hstep⟩

/-! ## The sums of a transaction -/

/-- The aborts that are not about tokens: a malformed id, the lease expiry, the
attempt counter, the outbox sequence. -/
def StoreError.Aside : StoreError → Prop
  | .invalidKeyComponent _ => True
  | .leaseExpiryOverflow _ => True
  | .attemptsUsedOverflow _ => True
  | .outboxSequenceOverflow => True
  | _ => False

theorem ensureKeySafe_aside {cs : List String} {e : StoreError}
    (h : ensureKeySafe cs = .error e) : e.Aside := by
  obtain ⟨c, -, -, rfl⟩ := ensureKeySafe_error h
  trivial

theorem appendOutbox_aside {o : Table String OutboxEvent} {ev : OutboxEvent} {e : StoreError}
    (hok : OutboxOk o) (h : appendOutbox o ev = .error e) : e.Aside := by
  obtain rfl := appendOutbox_error hok h
  trivial

/-- The three sums of a settlement. -/
structure SumsFit (x : Settling) (actual : U64) : Prop where
  committed : ∃ v, checkedAdd x.fleet.budget.tokensCommitted actual = some v
  reserved : ∃ v, checkedSub x.fleet.budget.tokensReserved x.attempt.reservedTokens = some v
  child : ∃ v, checkedAdd x.child.tokensCommitted actual = some v

theorem exists_checkedAdd {w : Nat} {a b : BitVec w} (h : a.toNat + b.toNat < 2 ^ w) :
    ∃ v, checkedAdd a b = some v := by
  cases hv : checkedAdd a b with
  | none =>
      have hover := checkedAdd_eq_none.mp hv
      omega
  | some v => exact ⟨v, rfl⟩

theorem exists_checkedSub {w : Nat} {a b : BitVec w} (h : b.toNat ≤ a.toNat) :
    ∃ v, checkedSub a b = some v := by
  cases hv : checkedSub a b with
  | none =>
      have hunder := checkedSub_eq_none.mp hv
      omega
  | some v => exact ⟨v, rfl⟩

/-- **No token sum of a frugal settlement overflows.** -/
theorem sumsFit {c aid : String} {epoch actual : U64} {x : Settling} (hinv : Inv s.toTables)
    (hw : WithinBudget s.toTables) (hx : settleFence f c aid epoch s = some x)
    (hle : actual ≤ x.attempt.reservedTokens) : SumsFit x actual := by
  obtain ⟨hfl, -, hch, -, -, hatt, hfa, -, -, hst, -⟩ := settleFence_some hinv hx
  have hf := (hinv.wf.child_ids hch).1
  have hheld : x.attempt.reservedTokens.toNat ≤ x.fleet.budget.tokensReserved.toNat := by
    have hweight := Table.weight_le_total (reservedBy f) hatt
    rw [← hinv.ledger.reserved f _ hfl] at hweight
    simpa [reservedBy, hfa, hst] using hweight
  have hspent : x.child.tokensCommitted.toNat ≤ x.fleet.budget.tokensCommitted.toNat := by
    have hweight := Table.weight_le_total (committedBy f) hch
    rw [← hinv.ledger.committed f _ hfl] at hweight
    simpa [committedBy, hf] using hweight
  have hbound : _ ≤ _ := hw f _ hfl
  have hbudget := x.fleet.budget.tokenBudget.isLt
  rw [BitVec.le_def] at hle
  exact ⟨exists_checkedAdd (by omega), exists_checkedSub hheld, exists_checkedAdd (by omega)⟩

theorem completeChild_aside {c aid : String} {verdict : AcceptanceVerdict}
    {snapshot : ChildResultSnapshot} {actual epoch nowMs : U64} {eid : String} {e : StoreError}
    (hok : OutboxOk s.outbox)
    (hsums : ∀ x, settleFence f c aid epoch s = some x → SumsFit x actual)
    (h : completeChild f c aid verdict snapshot actual epoch nowMs eid s = .error e) :
    e.Aside := by
  unfold completeChild at h
  rcases bind_error.mp h with h | ⟨-, -, h⟩
  · exact ensureKeySafe_aside h
  cases hx : settleFence f c aid epoch s with
  | none =>
      rw [hx] at h
      cases h
  | some x =>
      obtain ⟨⟨v₁, h₁⟩, ⟨v₂, h₂⟩, ⟨v₃, h₃⟩⟩ := hsums x hx
      simp only [hx, h₁, h₂, h₃, bind_error, okOr_error] at h
      rcases h with ⟨hn, -⟩ | ⟨_, -, ⟨hn, -⟩ | ⟨_, -, ⟨hn, -⟩ | ⟨_, -, h | ⟨_, -, h⟩⟩⟩⟩
      · cases hn
      · cases hn
      · cases hn
      · exact appendOutbox_aside hok h
      · cases h

theorem recordEscalation_aside {c aid : String} {request : EscalationRequest}
    {actual epoch nowMs : U64} {eid : String} {e : StoreError} (hok : OutboxOk s.outbox)
    (hsums : ∀ x, settleFence f c aid epoch s = some x → SumsFit x actual)
    (h : recordEscalation f c aid request actual epoch nowMs eid s = .error e) : e.Aside := by
  unfold recordEscalation at h
  rcases bind_error.mp h with h | ⟨-, -, h⟩
  · exact ensureKeySafe_aside h
  cases hx : settleFence f c aid epoch s with
  | none =>
      rw [hx] at h
      cases h
  | some x =>
      obtain ⟨⟨v₁, h₁⟩, ⟨v₂, h₂⟩, ⟨v₃, h₃⟩⟩ := hsums x hx
      simp only [hx, h₁, h₂, h₃, bind_error, okOr_error] at h
      rcases h with ⟨hn, -⟩ | ⟨_, -, ⟨hn, -⟩ | ⟨_, -, ⟨hn, -⟩ | ⟨_, -, h | ⟨_, -, h⟩⟩⟩⟩
      · cases hn
      · cases hn
      · cases hn
      · exact appendOutbox_aside hok h
      · cases h

/-- A launch never aborts on the reservation: what was admitted fits. -/
theorem launchChild_aside {c : String} {projected nowMs epoch ttl : U64} {aid eid : String}
    {e : StoreError} (hok : OutboxOk s.outbox)
    (h : launchChild f c projected nowMs epoch ttl aid eid s = .error e) : e.Aside := by
  unfold launchChild at h
  rcases bind_error.mp h with h | ⟨-, -, h⟩
  · exact ensureKeySafe_aside h
  split at h
  · simp only [return_error] at h
    obtain ⟨-, h⟩ := h
    split at h
    · rw [return_error] at h
      cases h.2
    · rw [return_error] at h
      obtain ⟨-, h⟩ := h
      split at h
      · next fl _ =>
          simp only [return_error, bind_error, okOr_error] at h
          obtain ⟨-, -, hadm, h⟩ := h
          have hfits := FleetBudget.admits_iff.mp (by simpa using hadm)
          have hbudget := fl.budget.tokenBudget.isLt
          obtain ⟨v, hv⟩ := exists_checkedAdd (a := fl.budget.tokensReserved) (b := projected)
            (by omega)
          rcases h with ⟨hn, -⟩ | ⟨_, -, ⟨-, rfl⟩ | ⟨_, -, ⟨-, rfl⟩ | ⟨_, -, h | ⟨_, -, h⟩⟩⟩⟩
          · rw [hv] at hn
            cases hn
          · trivial
          · trivial
          · exact appendOutbox_aside hok h
          · cases h
      · cases h
  · cases h

/-- The calls that form token sums. -/
def Op.SumsTokens : Op → Prop
  | .launchChild _ _ _ _ _ _ _ _ => True
  | .completeChild _ _ _ _ _ _ _ _ _ => True
  | .recordEscalation _ _ _ _ _ _ _ _ => True
  | _ => False

/-- Within the budget, a call that reports at most its attempt's reservation
aborts for no token sum. -/
theorem Step.aside {call : Call} {e : StoreError} (hinv : Inv s.toTables)
    (hok : OutboxOk s.outbox) (hw : WithinBudget s.toTables) (h : Step s call s')
    (hop : call.op.SumsTokens) (hfits : ∀ m, call.op.report = some m → m.fits s.toTables = true)
    (hret : call.ret = .error e) : e.Aside := by
  rcases h.cases with ⟨r, hr, -⟩ | ⟨e', he', hrun, -⟩
  · rw [hret] at hr
    cases hr
  obtain rfl := Except.error.inj (hret.symm.trans he')
  have hsums : ∀ m, call.op.report = some m → ∀ epoch x,
      settleFence m.fleetId m.childId m.attemptId epoch s = some x → SumsFit x m.actual := by
    intro m hm epoch x hx
    obtain ⟨-, -, -, -, -, hatt, -⟩ := settleFence_some hinv hx
    exact sumsFit hinv hw hx (Settlement.le_of_fits (hfits m hm) hatt)
  cases hcall : call.op with
  | launchChild =>
      rw [hcall] at hrun
      exact launchChild_aside hok (tagged_error.mp hrun)
  | completeChild =>
      rw [hcall] at hrun hsums
      exact completeChild_aside hok (hsums _ rfl _) (tagged_error.mp hrun)
  | recordEscalation =>
      rw [hcall] at hrun hsums
      exact recordEscalation_aside hok (hsums _ rfl _) (tagged_error.mp hrun)
  | _ =>
      rw [hcall] at hop
      cases hop

/-- **Token budget accounting.** -/
theorem token_budget_accounting (s : Store) :
    (StoreReachable s → ∀ (f : String) (fl : FleetRecord), s.fleets[f]? = some fl →
      fl.budget.tokensCommitted.toNat = Table.total (committedBy f) s.children) ∧
    (Reachable HonestStep Store.empty s →
      WithinBudget s.toTables ∧
      ∀ call s' e, Step s call s' → call.op.SumsTokens →
        (∀ m, call.op.report = some m → m.fits s.toTables = true) → call.ret = .error e →
        e.Aside) := by
  constructor
  · intro h f fl hfl
    exact h.inv.ledger.committed f fl hfl
  · intro h
    obtain ⟨hinv, hw⟩ := withinBudget_of_honest h
    have hreach : StoreReachable s := by
      obtain ⟨es, hrun⟩ := h
      exact ⟨es, hrun.mono (fun _ _ _ hstep => hstep.1)⟩
    refine ⟨hw, ?_⟩
    intro call s' e hstep hop hfits hret
    exact hstep.aside hinv hreach.outboxOk hw hop hfits hret

/-- Every settling call of the list reports at most the reservation. -/
def allHonest : List Op → Store → Bool
  | [], _ => true
  | op :: ops, s => Call.honestIn s.toTables ⟨op, (op.exec s).1⟩ && allHonest ops (op.exec s).2

theorem run_honest : ∀ (ops : List Op) (s : Store), allFresh ops s = true →
    allHonest ops s = true → Run HonestStep s (callsOf ops s) (execAll ops s)
  | [], s, _, _ => .nil s
  | op :: ops, s, hfresh, hhonest => by
      simp only [allFresh, allHonest, Bool.and_eq_true] at hfresh hhonest
      have hstep : HonestStep s ⟨op, (op.exec s).1⟩ (op.exec s).2 :=
        ⟨⟨Op.fresh_of_isFresh hfresh.1, rfl⟩, hhonest.1⟩
      exact (Run.single hstep).append (run_honest ops _ hfresh.2 hhonest.2)

/-- Two children run; the first completes and reports 30 of its 40 tokens. -/
def spendingOps : List Op :=
  [.createFleet "f1" ⟨"ctl"⟩ none "default" 100 false 0,
   .addChild "f1" "c1" [] 0,
   .addChild "f1" "c2" [] 0,
   .launchChild "f1" "c1" 40 1 7 1000 "a1" "e1",
   .launchChild "f1" "c2" 40 1 7 1000 "a2" "e2",
   .markRunning "c1" "a1",
   .markRunning "c2" "a2",
   .completeChild "f1" "c1" "a1" (.accepted []) ⟨"", true, 30, [], none⟩ 30 7 2 "e3"]

theorem token_budget_accounting_spending :
    WithinBudget (execAll spendingOps Store.empty).toTables ∧
      (execAll spendingOps Store.empty).fleets["f1"]?.map FleetRecord.budget =
        some ⟨100, 40, 30, false⟩ := by
  have hrun := run_honest spendingOps Store.empty (by rfl) (by rfl)
  exact ⟨((token_budget_accounting _).2 ⟨_, hrun⟩).1, by rfl⟩

/-- The second child reports more than a `u64` can hold on top of what the fleet
has committed.  The call aborts on the checked addition, and since it does not
succeed the run is an honest one. -/
theorem overflow_in_honest_run :
    ∃ (es : List Call) (s : Store), Run HonestStep Store.empty es s ∧
      ∃ call ∈ es, call.ret = .error (.committedOverflow "c2") := by
  let huge : Op :=
    .completeChild "f1" "c2" "a2" (.accepted []) ⟨"", true, 0, [], none⟩ (-1) 7 3 "e4"
  refine ⟨_, _, run_honest (spendingOps ++ [huge]) Store.empty (by rfl)
    (by rfl), ⟨huge, .error (.committedOverflow "c2")⟩, ?_, rfl⟩
  have hlast : ∀ (ops : List Op) (s : Store), callsOf (ops ++ [huge]) s =
      callsOf ops s ++ [⟨huge, (huge.exec (execAll ops s)).1⟩] := by
    intro ops
    induction ops with
    | nil => intro s; rfl
    | cons op ops ih =>
        intro s
        show _ :: callsOf (ops ++ [huge]) _ = _
        rw [ih]
        rfl
  rw [hlast]
  refine List.mem_append_right _ (List.mem_singleton.mpr ?_)
  have hret : (huge.exec (execAll spendingOps Store.empty)).1 =
      .error (.committedOverflow "c2") := by rfl
  rw [hret]

end Octos.Fleet
