/-
# `Octos.Fleet.Terminal` — a terminal fleet is frozen

Every mutator re-reads the fleet row inside its transaction and refuses a fleet
that is not live.  In terms of effects: whatever touches the rows of an
existing fleet works on a live fleet, except the reclaim of boot recovery
(`Effect.fleet_live`), and an effect on another fleet leaves them alone
(`Effect.frame`).  Recovery retires what a terminal fleet still had in flight:
attempts to `Interrupted`, their children to `Cancelled`, and the reservation
falls by exactly what those attempts held.
-/
import Octos.Fleet.Outbox

namespace Octos.Fleet

variable {f : String} {t t' t₀ : Tables} {s s' : Store}

/-- The status of the fleet is terminal. -/
def FleetTerminal (t : Tables) (f : String) : Prop :=
  ∃ fl, t.fleets[f]? = some fl ∧
    (fl.status = .complete ∨ fl.status = .failed ∨ fl.status = .cancelled)

theorem FleetTerminal.not_live (h : FleetTerminal t f) {fl : FleetRecord}
    (hfl : t.fleets[f]? = some fl) : fleetIsLive fl = false := by
  obtain ⟨fl', hfl', hst⟩ := h
  obtain rfl := Option.some.inj (hfl.symm.trans hfl')
  rcases hst with hst | hst | hst <;> simp [fleetIsLive, hst]

/-! ## Every operation but recovery -/

/-- Everything stored about the fleet is the same: the four tables and the
outbox. -/
structure Frozen (f : String) (s s' : Store) : Prop where
  rows : SameRows f s.toTables s'.toTables
  outbox : ∀ (k : String) (ev : OutboxEvent), ev.fleetId = f →
    (s'.outbox[k]? = some ev ↔ s.outbox[k]? = some ev)

/-- An effect that is not a retirement leaves a terminal fleet alone. -/
theorem Effect.frozen {g : String} {k : Kind} (hwf : WellFormed t) (hterm : FleetTerminal t f)
    (he : Effect g k t t') (hk : ∀ c a, k ≠ .reclaim c a false) : SameRows f t t' := by
  obtain ⟨fl, hfl, -⟩ := id hterm
  by_cases hg : g = f
  · subst hg
    rcases he.fleet_live hfl with hlive | ⟨c, a, rfl⟩
    · rw [hterm.not_live hfl] at hlive
      cases hlive
    · exact absurd rfl (hk c a)
  · exact he.frame hwf hg

theorem SameRows.terminal (h : SameRows f t t') (hterm : FleetTerminal t f) :
    FleetTerminal t' f := by
  obtain ⟨fl, hfl, hst⟩ := hterm
  exact ⟨fl, h.fleet.trans hfl, hst⟩

theorem Effects.frozen {P : String → Kind → Prop} (hinv : Inv t) (hterm : FleetTerminal t f)
    (he : Effects P t t') (hP : ∀ g k, P g k → ∀ c a, k ≠ .reclaim c a false) :
    SameRows f t t' := by
  have hkeep : (Inv t' ∧ FleetTerminal t' f) ∧ SameRows f t t' := by
    refine he.keep (I := fun u => (Inv u ∧ FleetTerminal u f) ∧ SameRows f t u) ?_
      ⟨⟨hinv, hterm⟩, .refl f t⟩
    rintro g k u u' hk hstep ⟨⟨hu, hut⟩, hsame⟩
    have hnext := hstep.frozen hu.wf hut (hP g k hk)
    exact ⟨⟨hu.effect hstep, hnext.terminal hut⟩, hsame.trans hnext⟩
  exact hkeep.2

/-- The operations that may write for a terminal fleet: recovery and the two
logs. -/
def Op.IsMaintenance : Op → Prop
  | .reconcile _ _ => True
  | .appendEvent _ => True
  | .appendDecision _ _ _ _ _ => True
  | .claimNext _ _ _ _ => True
  | .ack _ _ _ => True
  | _ => False

theorem Op.not_retirement {op : Op} (hop : ¬ op.IsMaintenance) {g : String} {k : Kind}
    (hk : op.Allows g k) : ∀ c a, k ≠ .reclaim c a false := by
  rintro c a rfl
  cases op <;> first | exact hop trivial | simp [Op.Allows] at hk

/-- A kernel event concerns a live fleet. -/
theorem Op.event_live {op : Op} {r : Ret} {ev : OutboxEvent} (hinv : Inv s.toTables)
    (hfresh : op.Fresh s) (hop : ¬ op.IsMaintenance) (hrun : op.run s = .ok (r, s'))
    (hev : op.event r = some ev) {fl : FleetRecord} (hfl : s.fleets[ev.fleetId]? = some fl) :
    fleetIsLive fl = true := by
  -- each of the four events is appended together with a move of the same fleet
  have hmove : ∃ k u, (∀ c a, k ≠ .reclaim c a false) ∧ Effect ev.fleetId k s.toTables u := by
    cases op with
    | launchChild =>
        obtain ⟨o, hcall, rfl⟩ := tagged_ok.mp hrun
        rcases launchChild_spec hinv hfresh hcall with ⟨hne, -⟩ | ⟨rfl, he, -⟩
        · cases o <;> first | exact absurd rfl (hne _) | cases hev
        · obtain rfl := Option.some.inj hev
          exact ⟨_, _, by simp, he⟩
    | completeChild =>
        obtain ⟨o, hcall, rfl⟩ := tagged_ok.mp hrun
        rcases completeChild_spec hinv hcall with ⟨rfl, -⟩ | ⟨rfl, x, -, he, -⟩
        · cases hev
        · obtain rfl := Option.some.inj hev
          exact ⟨_, _, by simp, he⟩
    | recordEscalation =>
        obtain ⟨o, hcall, rfl⟩ := tagged_ok.mp hrun
        rcases recordEscalation_spec hinv hcall with ⟨rfl, -⟩ | ⟨rfl, x, -, he, -⟩
        · cases hev
        · obtain rfl := Option.some.inj hev
          exact ⟨_, _, by simp, he⟩
    | denyEscalation =>
        obtain ⟨⟨o, un⟩, hcall, rfl⟩ := tagged_ok.mp hrun
        rcases denyEscalation_spec hinv hcall with ⟨hr, -⟩ | ⟨rfl, -, ⟨u, he, -⟩, -⟩
        · cases hr
          cases hev
        · obtain rfl := Option.some.inj hev
          exact ⟨_, _, by simp, he⟩
    | _ => first | exact absurd trivial hop | cases hev
  obtain ⟨k, u, hk, he⟩ := hmove
  rcases he.fleet_live hfl with hlive | ⟨c, a, rfl⟩
  · exact hlive
  · exact absurd rfl (hk c a)

/-- **A call that is not maintenance leaves a terminal fleet as it is.** -/
theorem Step.frozen {call : Call} (hinv : Inv s.toTables) (hok : OutboxOk s.outbox)
    (hterm : FleetTerminal s.toTables f) (h : Step s call s') (hop : ¬ call.op.IsMaintenance) :
    Frozen f s s' := by
  refine ⟨(h.effects hinv).frozen hinv hterm (fun _ _ => Op.not_retirement hop), ?_⟩
  intro k ev hf
  rcases h.cases with ⟨r, -, hrun⟩ | ⟨e, -, -, rfl⟩
  · have hclaim : ¬ call.op.IsClaim := by
      intro hc
      cases hcall : call.op <;> rw [hcall] at hc hop <;>
        first | exact hop trivial | exact hc
    have hlog := Op.run_event hinv h.1 hclaim hrun
    cases hev : call.op.event r with
    | none =>
        rw [hev] at hlog
        rw [show s'.outbox = s.outbox from hlog]
    | some new =>
        rw [hev] at hlog
        obtain ⟨seq, happ⟩ := hlog
        obtain ⟨hseq, hout⟩ := appendOutbox_ok happ
        have hfree := nextSequence_new hok hseq
        have hother : new.fleetId ≠ f := by
          intro hnew
          obtain ⟨fl, hfl, -⟩ := id hterm
          have hlive := Op.event_live hinv h.1 hop hrun hev (hnew ▸ hfl)
          rw [hterm.not_live hfl] at hlive
          cases hlive
        rw [hout]
        constructor
        · intro hrow
          rcases Table.of_get_insert hrow with ⟨-, rfl⟩ | ⟨-, hrow⟩
          · exact absurd hf hother
          · exact hrow
        · intro hrow
          refine (Table.get_insert_ne _ _ ?_).trans hrow
          rintro rfl
          rw [hfree] at hrow
          cases hrow
  · rfl

/-! ## Recovery -/

/-- The attempt has been interrupted in `t'`. -/
def interruptedIn (t' : Tables) (a : Attempt) : Bool :=
  (t'.attempts[attemptKey a.childId a.attemptId]?).any (fun a' => a'.status == .interrupted)

/-- What the attempts of the fleet held that were live in `t` and are
interrupted in `t'`. -/
def releasedBy (f : String) (t t' : Tables) : Nat :=
  Table.total (fun a => if interruptedIn t' a then reservedBy f a else 0) t.attempts

/-- The child of an attempt that recovery interrupted: retired together with
it. -/
def ChildRetired (t t' : Tables) (ch ch' : FleetChildRecord) : Prop :=
  (ch.status = .launching ∨ ch.status = .running) ∧
    ∃ (aid : String) (a : Attempt) (nowMs : U64), ch.currentAttemptId = some aid ∧
      t.attempts[attemptKey ch.childId aid]? = some a ∧ a.fleetId = ch.fleetId ∧
      a.status.isLive = true ∧
      t'.attempts[attemptKey ch.childId aid]? = some (a.interrupt nowMs) ∧
      ch' = { ch with status := .cancelled, currentAttemptId := none, updatedAtMs := nowMs }

/-- Row by row, what recovery may do to a terminal fleet. -/
structure RetiredRows (f : String) (t t' : Tables) : Prop where
  fleet : ∃ fl reserved nowMs, t.fleets[f]? = some fl ∧ t'.fleets[f]? = some { fl with
    budget := { fl.budget with tokensReserved := reserved }, updatedAtMs := nowMs }
  plan : t'.plans[f]? = t.plans[f]?
  children : ∀ (k : String) (ch : FleetChildRecord), ch.fleetId = f → t.children[k]? = some ch →
    ∃ ch', t'.children[k]? = some ch' ∧ (ch' = ch ∨ ChildRetired t t' ch ch')
  noChild : ∀ (k : String) (ch' : FleetChildRecord), ch'.fleetId = f →
    t'.children[k]? = some ch' → ∃ ch, t.children[k]? = some ch ∧ ch.fleetId = f
  attempts : ∀ (k : String) (a : Attempt), a.fleetId = f → t.attempts[k]? = some a →
    ∃ a', t'.attempts[k]? = some a' ∧
      (a' = a ∨ a.status.isLive = true ∧ ∃ nowMs, a' = a.interrupt nowMs)
  noAttempt : ∀ (k : String) (a' : Attempt), a'.fleetId = f → t'.attempts[k]? = some a' →
    ∃ a, t.attempts[k]? = some a ∧ a.fleetId = f

theorem RetiredRows.refl {fl : FleetRecord} (hfl : t.fleets[f]? = some fl) :
    RetiredRows f t t where
  fleet := ⟨fl, fl.budget.tokensReserved, fl.updatedAtMs, hfl, hfl⟩
  plan := rfl
  children := fun _ ch _ hch => ⟨ch, hch, Or.inl rfl⟩
  noChild := fun _ ch hf hch => ⟨ch, hch, hf⟩
  attempts := fun _ a _ ha => ⟨a, ha, Or.inl rfl⟩
  noAttempt := fun _ a hf ha => ⟨a, ha, hf⟩

/-- A reclaim that leaves the fleet alone adds nothing. -/
theorem RetiredRows.same (h : RetiredRows f t₀ t) (hsame : SameRows f t t') :
    RetiredRows f t₀ t' where
  fleet := by
    obtain ⟨fl, reserved, nowMs, hfl, hfl'⟩ := h.fleet
    exact ⟨fl, reserved, nowMs, hfl, hsame.fleet.trans hfl'⟩
  plan := hsame.plan.trans h.plan
  children := by
    intro k ch hf hch
    obtain ⟨ch', hch', hrow⟩ := h.children k ch hf hch
    rcases hrow with rfl | ⟨hst, aid, a, nowMs, hcur, ha, hfa, hl, ha', hrow⟩
    · exact ⟨ch', (hsame.children k ch' hf).mpr hch', Or.inl rfl⟩
    · have hf' : ch'.fleetId = f := by
        rw [hrow]
        exact hf
      have hint := (hsame.attempts _ (a.interrupt nowMs) (hfa.trans hf)).mpr ha'
      exact ⟨ch', (hsame.children k ch' hf').mpr hch',
        Or.inr ⟨hst, aid, a, nowMs, hcur, ha, hfa, hl, hint, hrow⟩⟩
  noChild := by
    intro k ch' hf hch'
    exact h.noChild k ch' hf ((hsame.children k ch' hf).mp hch')
  attempts := by
    intro k a hf ha
    obtain ⟨a', ha', hrow⟩ := h.attempts k a hf ha
    have hf' : a'.fleetId = f := by
      rcases hrow with rfl | ⟨-, nowMs, rfl⟩
      · exact hf
      · exact hf
    exact ⟨a', (hsame.attempts k a' hf').mpr ha', hrow⟩
  noAttempt := by
    intro k a' hf ha'
    exact h.noAttempt k a' hf ((hsame.attempts k a' hf).mp ha')

/-- A reclaim, with the rows it reads and writes. -/
theorem Effect.reclaim_inv {c aid : String} {live : Bool} (hwf : WellFormed t)
    (he : Effect f (.reclaim c aid live) t t') :
    ∃ fl ch a reserved nowMs, t.fleets[f]? = some fl ∧ live = fleetIsLive fl ∧
      t.children[childKey f c]? = some ch ∧ (ch.status = .launching ∨ ch.status = .running) ∧
      ch.currentAttemptId = some aid ∧ t.attempts[attemptKey c aid]? = some a ∧
      a.fleetId = f ∧ a.status.isLive = true ∧
      t' = { t with
        fleets := t.fleets.insert f { fl with
          budget := { fl.budget with tokensReserved := reserved }, updatedAtMs := nowMs }
        children := t.children.insert (childKey f c) { ch with
          status := if live then .ready else .cancelled, currentAttemptId := none,
          updatedAtMs := nowMs }
        attempts := t.attempts.insert (attemptKey c aid) (a.interrupt nowMs) } := by
  cases he with
  | move hfl hch hslot hmove =>
      obtain ⟨hf, hc⟩ := hwf.child_ids hch
      cases hmove with
      | @reclaim a reserved nowMs hst hcur hl hres =>
          obtain ⟨hfa, hca, hrow⟩ := hslot
          subst hc
          rw [hca] at hrow
          refine ⟨_, _, a, reserved, nowMs, hfl, rfl, hch, hst, hcur, hrow, hfa.trans hf, hl, ?_⟩
          simp only [Tables.put, Attempt.interrupt, hf, hca, (hwf.fleet _ _ hfl).1]

/-- **One retirement.** -/
theorem RetiredRows.reclaim {c aid : String} {live : Bool} (hwf : WellFormed t)
    (hterm : FleetTerminal t f) (h : RetiredRows f t₀ t)
    (he : Effect f (.reclaim c aid live) t t') : RetiredRows f t₀ t' := by
  obtain ⟨fl, ch, a, reserved, nowMs, hfl, hlive, hch, hst, hcur, ha, hfa, hl, rfl⟩ :=
    he.reclaim_inv hwf
  obtain rfl : live = false := hlive.trans (hterm.not_live hfl)
  obtain ⟨hf, hc⟩ := hwf.child_ids hch
  -- the child and the attempt are still as they were at the start of the pass
  have hch₀ : t₀.children[childKey f c]? = some ch := by
    obtain ⟨ch₀, hch₀, hf₀⟩ := h.noChild _ _ hf hch
    obtain ⟨x, hx, hrow⟩ := h.children _ _ hf₀ hch₀
    obtain rfl := Option.some.inj (hch.symm.trans hx)
    rcases hrow with rfl | ⟨-, _, _, _, -, -, -, -, -, rfl⟩
    · exact hch₀
    · rcases hst with hst | hst <;> cases hst
  have ha₀ : t₀.attempts[attemptKey c aid]? = some a := by
    obtain ⟨a₀, ha₀, hf₀⟩ := h.noAttempt _ _ hfa ha
    obtain ⟨x, hx, hrow⟩ := h.attempts _ _ hf₀ ha₀
    obtain rfl := Option.some.inj (ha.symm.trans hx)
    rcases hrow with rfl | ⟨-, _, rfl⟩
    · exact ha₀
    · cases hl
  refine ⟨?_, h.plan, ?_, ?_, ?_, ?_⟩
  · obtain ⟨fl₀, reserved₀, nowMs₀, hfl₀, hfl'⟩ := h.fleet
    obtain rfl := Option.some.inj (hfl.symm.trans hfl')
    exact ⟨fl₀, reserved, nowMs, hfl₀, Table.get_insert_self _ _ _⟩
  · intro k x hfx hx
    by_cases hk : childKey f c = k
    · subst hk
      obtain rfl := Option.some.inj (hch₀.symm.trans hx)
      refine ⟨_, Table.get_insert_self _ _ _, Or.inr ⟨hst, aid, a, nowMs, hcur, ?_⟩⟩
      rw [hc]
      exact ⟨ha₀, hfa.trans hf.symm, hl, Table.get_insert_self _ _ _, rfl⟩
    · obtain ⟨x', hx', hrow⟩ := h.children k x hfx hx
      refine ⟨x', (Table.get_insert_ne _ _ hk).trans hx', ?_⟩
      rcases hrow with rfl | ⟨hst', aid', a', now', hcur', ha', hfa', hl', hint, rfl⟩
      · exact Or.inl rfl
      · -- an attempt interrupted earlier is not the one interrupted now
        refine Or.inr ⟨hst', aid', a', now', hcur', ha', hfa', hl', ?_, rfl⟩
        refine (Table.get_insert_ne _ _ ?_).trans hint
        intro hkey
        rw [← hkey, ha] at hint
        rw [Option.some.inj hint] at hl
        cases hl
  · intro k x' hfx hx'
    rcases Table.of_get_insert hx' with ⟨rfl, -⟩ | ⟨-, hx'⟩
    · exact ⟨ch, hch₀, hf⟩
    · exact h.noChild k x' hfx hx'
  · intro k x hfx hx
    by_cases hk : attemptKey c aid = k
    · subst hk
      obtain rfl := Option.some.inj (ha₀.symm.trans hx)
      exact ⟨_, Table.get_insert_self _ _ _, Or.inr ⟨hl, nowMs, rfl⟩⟩
    · obtain ⟨x', hx', hrow⟩ := h.attempts k x hfx hx
      exact ⟨x', (Table.get_insert_ne _ _ hk).trans hx', hrow⟩
  · intro k x' hfx hx'
    rcases Table.of_get_insert hx' with ⟨rfl, -⟩ | ⟨-, hx'⟩
    · exact ⟨a, ha₀, hfa⟩
    · exact h.noAttempt k x' hfx hx'

theorem RetiredRows.terminal (h : RetiredRows f t t') (hterm : FleetTerminal t f) :
    FleetTerminal t' f := by
  obtain ⟨fl, reserved, nowMs, hfl, hfl'⟩ := h.fleet
  obtain ⟨x, hx, hst⟩ := hterm
  obtain rfl := Option.some.inj (hfl.symm.trans hx)
  exact ⟨_, hfl', hst⟩

/-- A whole recovery pass. -/
theorem Effects.retired {P : String → Kind → Prop} (hinv : Inv t) (hterm : FleetTerminal t f)
    (he : Effects P t t') (hP : ∀ g k, P g k → ∃ c a live, k = .reclaim c a live) :
    RetiredRows f t t' := by
  obtain ⟨fl, hfl, -⟩ := id hterm
  have hkeep : Inv t' ∧ RetiredRows f t t' := by
    refine he.keep (I := fun u => Inv u ∧ RetiredRows f t u) ?_ ⟨hinv, .refl hfl⟩
    rintro g k u u' hk hstep ⟨hu, hrows⟩
    obtain ⟨c, a, live, rfl⟩ := hP g k hk
    refine ⟨hu.effect hstep, ?_⟩
    have hut := hrows.terminal hterm
    by_cases hg : g = f
    · subst hg
      exact hrows.reclaim hu.wf hut hstep
    · obtain ⟨x, hx, -⟩ := id hut
      exact hrows.same (hstep.frame hu.wf hg)
  exact hkeep.2

/-! ## The reservation a recovery pass releases -/

theorem RetiredRows.reserved_stays (hwf : WellFormed t) (h : RetiredRows f t t') :
    Table.total (reservedBy f) t'.attempts =
      Table.total (fun a => if interruptedIn t' a then 0 else reservedBy f a) t.attempts := by
  refine Table.total_congr ?_
  intro k
  -- a row of another fleet weighs nothing on either side
  have hforeign : (∀ a, t.attempts[k]? = some a → a.fleetId ≠ f) →
      Table.weight (reservedBy f) t'.attempts[k]? = 0 := by
    intro hnone
    cases ha' : t'.attempts[k]? with
    | none => rfl
    | some a' =>
        have hf' : a'.fleetId ≠ f := by
          intro hf
          obtain ⟨a, ha, hfa⟩ := h.noAttempt k a' hf ha'
          exact hnone a ha hfa
        simp [reservedBy, hf']
  cases ha : t.attempts[k]? with
  | none => exact hforeign (by simp [ha])
  | some a =>
      by_cases hf : a.fleetId = f
      · obtain ⟨a', ha', hrow⟩ := h.attempts k a hf ha
        have hin : interruptedIn t' a = (a'.status == .interrupted) := by
          unfold interruptedIn
          rw [← (hwf.attempt _ _ ha).1, ha', Option.any_some]
        rw [ha', Table.weight_some, Table.weight_some, hin]
        rcases hrow with rfl | ⟨-, nowMs, rfl⟩
        · cases hst : a'.status <;> simp [reservedBy, hst]
        · simp [reservedBy, Attempt.interrupt]
      · rw [hforeign (by simpa [ha] using hf)]
        simp [reservedBy, hf]

theorem RetiredRows.released (hinv : Inv t) (hinv' : Inv t') (h : RetiredRows f t t')
    {fl fl' : FleetRecord} (hfl : t.fleets[f]? = some fl) (hfl' : t'.fleets[f]? = some fl') :
    fl'.budget.tokensReserved.toNat + releasedBy f t t' = fl.budget.tokensReserved.toNat := by
  rw [hinv'.ledger.reserved f fl' hfl', hinv.ledger.reserved f fl hfl,
    h.reserved_stays hinv.wf, releasedBy, ← Table.total_add]
  refine Table.total_congr ?_
  intro k
  congr 1
  funext a
  cases interruptedIn t' a <;> simp

/-- The child of an interrupted attempt ends `Cancelled`. -/
theorem RetiredRows.cancelled (hinv : Inv t) (hinv' : Inv t') (h : RetiredRows f t t')
    {k : String} {a : Attempt} (hf : a.fleetId = f) (ha : t.attempts[k]? = some a)
    (hl : a.status.isLive = true) (hint : interruptedIn t' a = true) :
    ∃ ch', t'.children[childKey f a.childId]? = some ch' ∧ ch'.status = .cancelled := by
  obtain ⟨ch, hch, hcur⟩ := hinv.linked.owner k a ha hl
  rw [hf] at hch
  obtain ⟨hfc, hcc⟩ := hinv.wf.child_ids hch
  obtain ⟨ch', hch', hrow⟩ := h.children _ ch hfc hch
  refine ⟨ch', hch', ?_⟩
  rcases hrow with rfl | ⟨-, _, _, _, -, -, -, -, -, rfl⟩
  · -- a kept child would still point at its attempt, and that is interrupted
    obtain ⟨att, hatt, -, hp⟩ := hinv'.linked.pointer _ ch' _ hch' hcur
    obtain ⟨a', ha', hst⟩ := (Option.any_eq_true _ _).mp hint
    rw [← hcc, hatt] at ha'
    obtain rfl := Option.some.inj ha'
    rw [show att.status = .interrupted by simpa using hst] at hp
    cases hs : ch'.status <;> rw [hs] at hp <;> cases hp
  · rfl

/-- What recovery does to a terminal fleet: rows as `RetiredRows` says, the
reservation lowered by what the interrupted attempts held, their children
`Cancelled`, nothing in the outbox. -/
structure RetiredOnly (f : String) (s s' : Store) : Prop where
  rows : RetiredRows f s.toTables s'.toTables
  released : ∀ fl fl', s.fleets[f]? = some fl → s'.fleets[f]? = some fl' →
    fl'.budget.tokensReserved.toNat + releasedBy f s.toTables s'.toTables =
      fl.budget.tokensReserved.toNat
  cancelled : ∀ (k : String) (a : Attempt), a.fleetId = f → s.attempts[k]? = some a →
    a.status.isLive = true → interruptedIn s'.toTables a = true →
      ∃ ch', s'.children[childKey f a.childId]? = some ch' ∧ ch'.status = .cancelled
  outbox : s'.outbox = s.outbox

theorem Step.retired {call : Call} {nowMs epoch : U64} (hinv : Inv s.toTables)
    (hterm : FleetTerminal s.toTables f) (h : Step s call s')
    (hop : call.op = .reconcile nowMs epoch) : RetiredOnly f s s' := by
  have hinv' := hinv.step h
  have hrows : RetiredRows f s.toTables s'.toTables := by
    refine (h.effects hinv).retired hinv hterm ?_
    rw [hop]
    intro g k hk
    exact hk
  refine ⟨hrows, ?_, ?_, ?_⟩
  · intro fl fl' hfl hfl'
    exact hrows.released hinv hinv' hfl hfl'
  · intro k a hf ha hl hint
    exact hrows.cancelled hinv hinv' hf ha hl hint
  · rcases h.cases with ⟨r, -, hrun⟩ | ⟨e, -, -, rfl⟩
    · rw [hop] at hrun
      obtain ⟨o, hcall, -⟩ := tagged_ok.mp hrun
      exact (reconcile_spec hinv hcall).2.2
    · rfl

/-- **A terminal fleet is frozen**, and recovery only retires what it still had
in flight. -/
theorem terminal_fleet_frozen {call : Call} (h : StoreReachable s)
    (hterm : FleetTerminal s.toTables f) (hstep : Step s call s') :
    (¬ call.op.IsMaintenance → Frozen f s s') ∧
      (∀ nowMs epoch, call.op = .reconcile nowMs epoch → RetiredOnly f s s') := by
  constructor
  · intro hop
    exact hstep.frozen h.inv h.outboxOk hterm hop
  · intro nowMs epoch hop
    exact hstep.retired h.inv hterm hop

/-- A fleet cancelled while its child runs, then a launch, then recovery. -/
def cancelledOps : List Op :=
  [.createFleet "f1" ⟨"ctl"⟩ none "default" 100 false 0,
   .addChild "f1" "c1" [] 0,
   .addChild "f1" "c2" [] 0,
   .launchChild "f1" "c1" 40 1 7 1000 "a1" "e1",
   .cancelFleet "f1" 2]

theorem terminal_fleet_frozen_cancelled :
    FleetTerminal (execAll cancelledOps Store.empty).toTables "f1" ∧
      RetiredOnly "f1" (execAll cancelledOps Store.empty)
        ((Op.reconcile 5 8).exec (execAll cancelledOps Store.empty)).2 ∧
      ((Op.reconcile 5 8).exec (execAll cancelledOps Store.empty)).2.fleets["f1"]?.map
        (fun fl => fl.budget.tokensReserved) = some 0 := by
  have hreach : StoreReachable (execAll cancelledOps Store.empty) :=
    reachable_execAll (by rfl)
  have hterm : FleetTerminal (execAll cancelledOps Store.empty).toTables "f1" := by
    have hrow : ((execAll cancelledOps Store.empty).fleets["f1"]?).any
        (fun fl => fl.status == .cancelled) = true := by rfl
    obtain ⟨fl, hfl, hst⟩ := (Option.any_eq_true _ _).mp hrow
    exact ⟨fl, hfl, Or.inr (Or.inr (by simpa using hst))⟩
  have hstep : Step (execAll cancelledOps Store.empty)
      ⟨.reconcile 5 8, ((Op.reconcile 5 8).exec (execAll cancelledOps Store.empty)).1⟩
      ((Op.reconcile 5 8).exec (execAll cancelledOps Store.empty)).2 := ⟨trivial, rfl⟩
  exact ⟨hterm, (terminal_fleet_frozen hreach hterm hstep).2 5 8 rfl, by rfl⟩

end Octos.Fleet
