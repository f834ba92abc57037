/-
# `Octos.Fleet.Verdict` — terminal children and their outcome

`FleetChildRecord::outcome` is the child's terminal verdict.  A completion
writes it, a denial writes it, a re-plan writes it for the children it removes.
Recovery is the exception: when the daemon restarts after a fleet was
cancelled, `reconcile` retires the fleet's live children as `Cancelled` and
leaves the outcome empty (`retired_without_verdict`).  Away from that one step
every terminal child carries its verdict.
-/
import Octos.Fleet.Evolve

namespace Octos.Fleet

/-- A child row whose outcome says what its status says. -/
structure VerdictOk (ch : FleetChildRecord) : Prop where
  outcome_iff : ch.outcome.isSome = true ↔ ch.status.isTerminal = true
  accepted_iff : (∃ evidence, ch.outcome = some (.accepted evidence)) ↔ ch.status = .succeeded
  cancelled : ch.status = .cancelled → ∃ reason, ch.outcome = some (.terminated reason)

/-- Every child row carries its verdict. -/
def AllVerdicts (t : Tables) : Prop :=
  ∀ (k : String) (ch : FleetChildRecord), t.children[k]? = some ch → VerdictOk ch

/-- No cancelled child is without an outcome. -/
def Sealed (t : Tables) : Prop :=
  ∀ (k : String) (ch : FleetChildRecord), t.children[k]? = some ch →
    ch.status = .cancelled → ch.outcome ≠ none

theorem AcceptanceVerdict.exists_evidence {v : AcceptanceVerdict} :
    (∃ evidence, v = .accepted evidence) ↔ v.isAccepted = true := by
  cases v <;> simp [AcceptanceVerdict.isAccepted]

theorem AcceptanceVerdict.exists_reason {v : AcceptanceVerdict} (h : v.isTerminated = true) :
    ∃ reason, v = .terminated reason := by
  cases v <;> simp_all [AcceptanceVerdict.isTerminated]

/-- What a well-formed row lacks of a verdict is only the outcome of a
cancelled child. -/
theorem RowOk.verdictOk {ch : FleetChildRecord} (h : RowOk ch)
    (hsealed : ch.status = .cancelled → ch.outcome ≠ none) : VerdictOk ch := by
  have hver := h.verdict
  cases hout : ch.outcome with
  | none =>
      rw [hout] at hver hsealed
      have hopen : ch.status.isTerminal = false := by
        cases hst : ch.status <;> simp_all [verdictFits, ChildStatus.isTerminal]
      refine ⟨by simp [hout, hopen], ?_, ?_⟩
      · cases hst : ch.status <;> simp_all [ChildStatus.isTerminal]
      · intro hst
        exact absurd rfl (hsealed hst)
  | some v =>
      rw [hout] at hver
      have hterm : ch.status.isTerminal = true := by
        cases hst : ch.status <;> simp_all [verdictFits, ChildStatus.isTerminal]
      refine ⟨by simp [hout, hterm], ?_, ?_⟩
      · rw [hout]
        simp only [Option.some.injEq, AcceptanceVerdict.exists_evidence]
        cases hst : ch.status <;> cases v <;>
          simp_all [verdictFits, AcceptanceVerdict.isAccepted, AcceptanceVerdict.isTerminated]
      · intro hst
        rw [hst] at hver
        obtain ⟨reason, rfl⟩ := AcceptanceVerdict.exists_reason (hver v rfl)
        exact ⟨reason, hout⟩

variable {f : String} {k : Kind} {t t' : Tables}

/-- Only the retirement of a terminal fleet's child breaks the seal. -/
theorem Sealed.effect (hwf : WellFormed t) (hsealed : Sealed t) (he : Effect f k t t')
    (hk : ∀ c a, k ≠ .reclaim c a false) : Sealed t' := by
  intro j ch' hch' hst'
  cases hold : t.children[j]? with
  | none =>
      obtain ⟨c, deps, st, gen, nowMs, -, rfl, hst, -⟩ := he.child_new hwf hold hch'
      have hst'' : st = .cancelled := hst'
      rcases hst with rfl | rfl <;> cases hst''
  | some ch =>
      obtain ⟨x, hx, hstep⟩ := he.child_step hwf hold
      obtain rfl := Option.some.inj (hch'.symm.trans hx)
      rcases hstep with rfl | ⟨-, hstep⟩
      · exact hsealed _ _ hold hst'
      cases hstep with
      | @move _ fl _ _ _ _ hmove =>
          cases hmove with
          | complete => simp
          | deny => simp
          | reclaim =>
              cases hl : fleetIsLive fl with
              | true => simp [hl] at hst'
              | false =>
                  rw [hl] at hk
                  exact absurd rfl (hk _ _)
          | _ => simp_all
      | @replan tasks succeeded newGen nowMs i =>
          rcases replanRow_cases tasks succeeded newGen nowMs i ch with
            ⟨_, _, _, _, _, hs, _⟩ | ⟨task, _, _, _, _, hs, _⟩ | ⟨_, _, _, hout, _⟩
          · rw [hs] at hst'
            cases hst'
          · rw [hs] at hst'
            rcases readiness_cases succeeded task.deps with ⟨hr, -⟩ | hr <;>
              rw [hr] at hst' <;> cases hst'
          · rw [hout]
            simp

/-- No child of a terminal fleet is `Launching` or `Running`. -/
def Quiescent (t : Tables) : Prop :=
  ∀ (k : String) (ch : FleetChildRecord) (fl : FleetRecord), t.children[k]? = some ch →
    (ch.status = .launching ∨ ch.status = .running) → t.fleets[ch.fleetId]? = some fl →
    fleetIsLive fl = true

/-- From a quiescent state recovery reclaims for live fleets only. -/
theorem Quiescent.reclaim_live (hwf : WellFormed t) (hq : Quiescent t) {c a : String}
    {live : Bool} (he : Effect f (.reclaim c a live) t t') : live = true := by
  cases he with
  | move hfl hch hslot hmove =>
      have hf := (hwf.child_ids hch).1
      cases hmove with
      | reclaim hst => exact hq _ _ _ hch hst (hf ▸ hfl)

theorem Quiescent.reclaim (hwf : WellFormed t) (hq : Quiescent t) {c a : String} {live : Bool}
    (he : Effect f (.reclaim c a live) t t') : Quiescent t' := by
  intro j ch' fl' hch' hst' hfl'
  cases hold : t.children[j]? with
  | none =>
      obtain ⟨_, _, _, _, _, -, -, -, hk | hk⟩ := he.child_new hwf hold hch' <;> cases hk
  | some ch =>
      obtain ⟨x, hx, hstep⟩ := he.child_step hwf hold
      obtain rfl := Option.some.inj (hch'.symm.trans hx)
      rcases hstep with rfl | ⟨-, hstep⟩
      · obtain ⟨fl, hfl⟩ := hwf.childFleet _ _ hold
        obtain ⟨y, hy, hkeep⟩ := he.fleet_step hwf hfl
        obtain rfl := Option.some.inj (hfl'.symm.trans hy)
        have hlive := hq _ _ _ hold hst' hfl
        rcases hkeep with rfl | ⟨-, hkeep⟩
        · exact hlive
        rcases hkeep.status with hkeep | ⟨hk, -⟩
        · simpa only [fleetIsLive, hkeep] using hlive
        · cases hk
      · -- the reclaimed child is neither launching nor running any more
        cases hstep with
        | @move _ fl _ _ _ _ hmove =>
            cases hmove with
            | reclaim =>
                cases hl : fleetIsLive fl <;> simp [hl] at hst'
        | replan hk => cases hk

/-- A call that keeps verdicts complete: recovery only from a quiescent state. -/
def Op.SealsVerdicts (s : Store) : Op → Prop
  | .reconcile _ _ => Quiescent s.toTables
  | _ => True

theorem Sealed.step {s s' : Store} {c : Call} (hinv : Inv s.toTables) (hsealed : Sealed s.toTables)
    (hok : c.op.SealsVerdicts s) (h : Step s c s') : Sealed s'.toTables := by
  have heff := h.effects hinv
  by_cases hrec : ∃ now epoch, c.op = .reconcile now epoch
  · obtain ⟨now, epoch, hop⟩ := hrec
    rw [hop] at heff hok
    have hall : Inv s'.toTables ∧ Quiescent s'.toTables ∧ Sealed s'.toTables := by
      refine heff.keep (I := fun t => Inv t ∧ Quiescent t ∧ Sealed t) ?_ ⟨hinv, hok, hsealed⟩
      rintro f k u u' ⟨c', a, live, rfl⟩ he ⟨hu, hq, hs⟩
      obtain rfl := hq.reclaim_live hu.wf he
      refine ⟨hu.effect he, hq.reclaim hu.wf he, hs.effect hu.wf he ?_⟩
      intro _ _ hk
      cases hk
    exact hall.2.2
  · have hall : Inv s'.toTables ∧ Sealed s'.toTables := by
      refine heff.keep (I := fun t => Inv t ∧ Sealed t) ?_ ⟨hinv, hsealed⟩
      rintro f k u u' hP he ⟨hu, hs⟩
      refine ⟨hu.effect he, hs.effect hu.wf he ?_⟩
      rintro c' a rfl
      -- only recovery reclaims
      cases hop : c.op with
      | reconcile now epoch => exact hrec ⟨now, epoch, hop⟩
      | _ => simp [hop, Op.Allows] at hP
    exact hall.2

/-- **Every terminal child carries its verdict** along every run in which
recovery never starts while a terminal fleet has a `Launching` or `Running`
child. -/
theorem verdict_of_terminal {es : List Call} {s : Store}
    (h : Run (fun s c s' => Step s c s' ∧ c.op.SealsVerdicts s) Store.empty es s) :
    AllVerdicts s.toTables := by
  have hall : Inv s.toTables ∧ Sealed s.toTables := by
    refine h.invariant (I := fun s : Store => Inv s.toTables ∧ Sealed s.toTables) ?_
      ⟨Inv.empty, by simp [Sealed, Store.empty]⟩
    rintro u c u' ⟨hinv, hsealed⟩ ⟨hstep, hok⟩
    exact ⟨hinv.step hstep, hsealed.step hinv hok hstep⟩
  intro k ch hch
  exact (hall.1.rows _ _ hch).verdictOk (hall.2 _ _ hch)

/-- A child completed and a fleet cancelled, before a restart. -/
def completedOps : List Op :=
  [.createFleet "f1" ⟨"ctl"⟩ none "default" 100 false 0,
   .addChild "f1" "c1" [] 0,
   .launchChild "f1" "c1" 40 1 7 1000 "a1" "e1",
   .markRunning "c1" "a1",
   .completeChild "f1" "c1" "a1" (.rejected "no") ⟨"", false, 30, [], none⟩ 30 7 2 "e2",
   .cancelFleet "f1" 3]

theorem verdict_of_terminal_completed :
    ∃ s, (∃ es, Run (fun s c s' => Step s c s' ∧ c.op.SealsVerdicts s) Store.empty es s ∧
        ⟨.reconcile 4 8, .ok (.interrupted [])⟩ ∈ es) ∧ AllVerdicts s.toTables := by
  have hrun := run_execAll completedOps Store.empty (by rfl)
  have hseal : ∀ c ∈ callsOf completedOps Store.empty, ∀ u, c.op.SealsVerdicts u := by
    intro c hc u
    have hop : c.op ∈ completedOps := by
      have hmem : c.op ∈ (callsOf completedOps Store.empty).map Call.op :=
        List.mem_map_of_mem hc
      rwa [callsOf_ops] at hmem
    simp only [completedOps, List.mem_cons, List.not_mem_nil, or_false] at hop
    rcases hop with h | h | h | h | h | h <;> simp [h, Op.SealsVerdicts]
  -- nothing is launching or running when the daemon restarts
  have hidle : (execAll completedOps Store.empty).children.toList.all
      (fun r => decide (r.2.status ≠ .launching ∧ r.2.status ≠ .running)) = true := by
    rfl
  have hq : Quiescent (execAll completedOps Store.empty).toTables := by
    intro k ch fl hch hst _
    have hno := of_decide_eq_true (List.all_eq_true.mp hidle (k, ch) (Table.mem_rows.mpr hch))
    rcases hst with h | h
    · exact absurd h hno.1
    · exact absurd h hno.2
  have hlast : Step (execAll completedOps Store.empty) ⟨.reconcile 4 8, .ok (.interrupted [])⟩
      (Op.exec (.reconcile 4 8) (execAll completedOps Store.empty)).2 := by
    refine ⟨trivial, Prod.ext ?_ rfl⟩
    rfl
  have hfull := Run.snoc (hrun.strengthen hseal) ⟨hlast, hq⟩
  exact ⟨_, ⟨_, hfull, by simp⟩, verdict_of_terminal hfull⟩

/-- A cancelled fleet with a live child, then a restart. -/
def retiredOps : List Op :=
  [.createFleet "f1" ⟨"ctl"⟩ none "default" 100 false 0,
   .addChild "f1" "c1" [] 0,
   .launchChild "f1" "c1" 40 1 7 1000 "a1" "e1",
   .cancelFleet "f1" 2,
   .reconcile 3 8]

/-- Recovery retires the child of a cancelled fleet without a verdict. -/
theorem retired_without_verdict : ¬ ∀ s, StoreReachable s → AllVerdicts s.toTables := by
  intro h
  have hrow : (execAll retiredOps Store.empty).children[childKey "f1" "c1"]?.any
      (fun ch => decide (ch.status = .cancelled ∧ ch.outcome = none)) = true := by
    rfl
  obtain ⟨ch, hch, hp⟩ := (Option.any_eq_true _ _).mp hrow
  obtain ⟨hst, hout⟩ := of_decide_eq_true hp
  obtain ⟨reason, hr⟩ := (h _ (reachable_execAll (by rfl)) _ _ hch).cancelled hst
  rw [hout] at hr
  cases hr

end Octos.Fleet
