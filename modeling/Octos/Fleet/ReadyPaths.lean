/-
# `Octos.Fleet.ReadyPaths` — three readiness checks that agree

`mark_ready` looks its child's dependencies up one by one, `resolve_and_collect_ready`
reads the fleet once and tests against the set of the succeeded, and `replan` tests
against the succeeded that stay in the plan.

The first two promote, and what a promotion may do is said once (`Promoted`): of a given
set of children, those that are `Planned` with all dependencies succeeded become `Ready`.
A promotion does not change which children have succeeded, so promotions compose, and
neither order nor repetition shows.
-/
import Octos.Fleet.Progress
import Octos.Fleet.Readiness

namespace Octos.Fleet

variable {f : String} {t t' t₁ : Tables} {s s' : Store} {nowMs : U64}

/-! ## Promotions -/

/-- The child is `Planned` and its dependencies have succeeded. -/
def Due (t : Tables) (f : String) (ch : FleetChildRecord) : Prop :=
  ch.status = .planned ∧ t.DepsMet f ch.deps

/-- What is left of a child row: promoted if it is one of `ids` and due, else the same. -/
structure PromotedRow (t : Tables) (f : String) (ids : List String) (ch ch' : FleetChildRecord) : Prop where
  fleetId : ch'.fleetId = ch.fleetId
  childId : ch'.childId = ch.childId
  deps : ch'.deps = ch.deps
  attempt : ch'.currentAttemptId = ch.currentAttemptId
  status : ch.fleetId = f ∧ ch.childId ∈ ids ∧ Due t f ch ∧ ch'.status = .ready ∨
    ¬(ch.fleetId = f ∧ ch.childId ∈ ids ∧ Due t f ch) ∧ ch'.status = ch.status

/-- The due children among `ids` are promoted, and nothing else happens to the children. -/
structure Promoted (f : String) (ids : List String) (t t' : Tables) : Prop where
  row : ∀ (k : String) (ch : FleetChildRecord), t.children[k]? = some ch →
    ∃ ch', t'.children[k]? = some ch' ∧ PromotedRow t f ids ch ch'
  absent : ∀ k : String, t.children[k]? = none → t'.children[k]? = none

theorem PromotedRow.same {ids : List String} {ch : FleetChildRecord}
    (h : ¬(ch.fleetId = f ∧ ch.childId ∈ ids ∧ Due t f ch)) : PromotedRow t f ids ch ch :=
  ⟨rfl, rfl, rfl, rfl, Or.inr ⟨h, rfl⟩⟩

/-- The succeeded children are the same before and after. -/
theorem Promoted.succeeded {ids : List String} (h : Promoted f ids t t') (k : String) :
    (∃ ch, t.children[k]? = some ch ∧ ch.status = .succeeded) ↔
      ∃ ch, t'.children[k]? = some ch ∧ ch.status = .succeeded := by
  constructor
  · rintro ⟨ch, hch, hst⟩
    obtain ⟨ch', hch', hrow⟩ := h.row k ch hch
    refine ⟨ch', hch', ?_⟩
    rcases hrow.status with ⟨-, -, ⟨hplanned, -⟩, -⟩ | ⟨-, hsame⟩
    · rw [hst] at hplanned
      cases hplanned
    · exact hsame.trans hst
  · rintro ⟨ch', hch', hst⟩
    cases hold : t.children[k]? with
    | none =>
        rw [h.absent k hold] at hch'
        cases hch'
    | some ch =>
        obtain ⟨ch'', hch'', hrow⟩ := h.row k ch hold
        obtain rfl := Option.some.inj (hch'.symm.trans hch'')
        refine ⟨ch, rfl, ?_⟩
        rcases hrow.status with ⟨-, -, -, hready⟩ | ⟨-, hsame⟩
        · rw [hready] at hst
          cases hst
        · exact hsame.symm.trans hst

theorem Promoted.depsMet {ids : List String} (h : Promoted f ids t t') (g : String) (deps : List String) :
    t'.DepsMet g deps ↔ t.DepsMet g deps :=
  forall₂_congr (fun d _ => (h.succeeded (childKey g d)).symm)

/-- **Promotions compose.** -/
theorem Promoted.trans {xs ys : List String} (hx : Promoted f xs t t₁) (hy : Promoted f ys t₁ t') :
    Promoted f (xs ++ ys) t t' := by
  refine ⟨?_, fun k hk => hy.absent k (hx.absent k hk)⟩
  intro k ch hch
  obtain ⟨ch₁, hch₁, hrow₁⟩ := hx.row k ch hch
  obtain ⟨ch', hch', hrow'⟩ := hy.row k ch₁ hch₁
  refine ⟨ch', hch', hrow'.fleetId.trans hrow₁.fleetId, hrow'.childId.trans hrow₁.childId,
    hrow'.deps.trans hrow₁.deps, hrow'.attempt.trans hrow₁.attempt, ?_⟩
  have hdue : ch₁.status = ch.status → (Due t₁ f ch₁ ↔ Due t f ch) := by
    intro hst
    unfold Due
    rw [hst, hrow₁.deps, hx.depsMet]
  rcases hrow₁.status with ⟨hf, hmem, hd, hready⟩ | ⟨hnot, hsame⟩
  · -- promoted by the first, so it is not `Planned` for the second
    left
    refine ⟨hf, List.mem_append_left _ hmem, hd, ?_⟩
    rcases hrow'.status with ⟨-, -, ⟨hplanned, -⟩, -⟩ | ⟨-, hsame⟩
    · rw [hready] at hplanned
      cases hplanned
    · exact hsame.trans hready
  · rcases hrow'.status with ⟨hf, hmem, hd, hready⟩ | ⟨hnot', hsame'⟩
    · left
      refine ⟨hrow₁.fleetId ▸ hf, List.mem_append_right _ (hrow₁.childId ▸ hmem), (hdue hsame).mp hd, hready⟩
    · right
      refine ⟨?_, hsame'.trans hsame⟩
      rintro ⟨hf, hmem, hd⟩
      rcases List.mem_append.mp hmem with hmem | hmem
      · exact hnot ⟨hf, hmem, hd⟩
      · exact hnot' ⟨hrow₁.fleetId.trans hf, hrow₁.childId.symm ▸ hmem, (hdue hsame).mpr hd⟩

theorem Promoted.refl (hwf : WellFormed t) {ids : List String}
    (h : ∀ c ∈ ids, ∀ ch, t.children[childKey f c]? = some ch → ¬Due t f ch) : Promoted f ids t t := by
  refine ⟨?_, fun _ hk => hk⟩
  intro k ch hch
  refine ⟨ch, hch, PromotedRow.same ?_⟩
  rintro ⟨rfl, hmem, hdue⟩
  exact h ch.childId hmem ch (hwf.child_key hch) hdue

/-- One child written as `Ready`. -/
theorem Promoted.one (hwf : WellFormed t) {c : String} {ch : FleetChildRecord}
    (hch : t.children[childKey f c]? = some ch) (hdue : Due t f ch)
    (hchildren : t'.children = t.children.insert (childKey f c) { ch with status := .ready, updatedAtMs := nowMs }) :
    Promoted f [c] t t' := by
  obtain ⟨hf, hc⟩ := hwf.child_ids hch
  refine ⟨?_, ?_⟩
  · intro k found hfound
    rw [hchildren, Table.get_insert]
    by_cases hk : childKey f c = k
    · subst hk
      obtain rfl := Option.some.inj (hch.symm.trans hfound)
      rw [if_pos rfl]
      exact ⟨_, rfl, rfl, rfl, rfl, rfl, Or.inl ⟨hf, hc ▸ List.mem_cons_self, hdue, rfl⟩⟩
    · rw [if_neg hk]
      refine ⟨found, hfound, PromotedRow.same ?_⟩
      rintro ⟨hf', hc', -⟩
      rw [(hwf.child k found hfound).1, hf', List.mem_singleton.mp hc'] at hk
      exact hk rfl
  · intro k hk
    rw [hchildren, Table.get_insert]
    split
    · next hkey =>
        rw [← hkey, hch] at hk
        cases hk
    · exact hk

/-! ## `mark_ready` -/

/-- **One `mark_ready`** promotes its child if it is due. -/
theorem markReady_promoted (hinv : Inv s.toTables) (hlive : s.fleetLive f = true) (c : String) (nowMs : U64) :
    Promoted f [c] s.toTables ((Op.markReady f c nowMs).exec s).2.toTables ∧
      ((Op.markReady f c nowMs).exec s).2.fleets = s.fleets := by
  have hidle : (∀ ch, s.children[childKey f c]? = some ch → ¬Due s.toTables f ch) →
      Promoted f [c] s.toTables s.toTables := by
    intro h
    refine Promoted.refl hinv.wf ?_
    intro c' hc' ch hch
    obtain rfl := List.mem_singleton.mp hc'
    exact h ch hch
  cases hch : s.children[childKey f c]? with
  | none =>
      -- an unknown child is an error, and so is an unsafe id
      have hsame : ((Op.markReady f c nowMs).exec s).2 = s := by
        cases hrun : (Op.markReady f c nowMs).run s with
        | error e => rw [exec_error hrun]
        | ok out =>
            obtain ⟨r, s'⟩ := out
            obtain ⟨o, hcall, -⟩ := tagged_ok.mp hrun
            rcases markReady_spec hinv hcall with ⟨-, rfl⟩ | ⟨rfl, -, -⟩
            · rw [exec_ok hrun]
            · unfold markReady at hcall
              simp only [bind_ok, okOr_ok, hch, return_ok] at hcall
              obtain ⟨-, -, ⟨hdead, -⟩ | ⟨-, row, hrow, -⟩⟩ := hcall
              · simp [hlive] at hdead
              · cases hrow
      rw [hsame]
      exact ⟨hidle (fun ch h => by rw [hch] at h; cases h), rfl⟩
  | some ch =>
      obtain ⟨hf, hc⟩ := hinv.wf.child_ids hch
      obtain ⟨hfsafe, hcsafe⟩ := hinv.wf.child_safe hch
      have hrun : markReady f c nowMs s =
          if ch.status ≠ .planned then .ok (false, s)
          else if ch.deps.all (depMet s.toTables f) then
            .ok (true, { s with
              children := s.children.insert (childKey f c) { ch with status := .ready, updatedAtMs := nowMs } })
          else .ok (false, s) := by
        have hsafe : ensureKeySafe [f, c] = .ok () := by
          refine ensureKeySafe_ok.mpr ?_
          simp [hfsafe, hcsafe]
        have hdec : okOr (decodeRow ch) (.childNewerSchema c) = .ok ch := by
          rw [hinv.wf.decode_child hch]
          rfl
        unfold markReady
        rw [hsafe, hch]
        simp only [hlive, Bool.not_true, Bool.false_eq_true, if_false, ok_bind]
        show (okOr (decodeRow ch) (.childNewerSchema c) >>= fun child => _) = _
        rw [hdec, ok_bind, if_neg (by simp [hf, hc])]
        rfl
      have hexec : ∀ b s', markReady f c nowMs s = .ok (b, s') → ((Op.markReady f c nowMs).exec s).2 = s' := by
        intro b s' h
        have htag : (Op.markReady f c nowMs).run s = .ok (.bool b, s') := by
          show tagged .bool (markReady f c nowMs s) = _
          rw [h]
          rfl
        rw [exec_ok htag]
      by_cases hst : ch.status = .planned
      · rw [if_neg (by simpa using hst)] at hrun
        by_cases hmet : ch.deps.all (depMet s.toTables f) = true
        · rw [if_pos hmet] at hrun
          rw [hexec _ _ hrun]
          exact ⟨Promoted.one hinv.wf hch ⟨hst, (all_depMet_iff hinv.wf).mp hmet⟩ rfl, rfl⟩
        · rw [if_neg hmet] at hrun
          rw [hexec _ _ hrun]
          refine ⟨hidle ?_, rfl⟩
          rintro ch' hch' ⟨-, hdeps⟩
          obtain rfl := Option.some.inj (hch.symm.trans hch')
          exact hmet ((all_depMet_iff hinv.wf).mpr hdeps)
      · rw [if_pos hst] at hrun
        rw [hexec _ _ hrun]
        refine ⟨hidle ?_, rfl⟩
        rintro ch' hch' ⟨hplanned, -⟩
        obtain rfl := Option.some.inj (hch.symm.trans hch')
        exact hst hplanned

/-- **Any calls of `mark_ready`**, in any order and repeated. -/
theorem markAll_promoted : ∀ (calls : List (String × U64)) {s : Store}, Inv s.toTables → s.fleetLive f = true →
    Promoted f (calls.map Prod.fst) s.toTables
      (execAll (calls.map (fun call => Op.markReady f call.1 call.2)) s).toTables := by
  intro calls
  induction calls with
  | nil => exact fun hinv _ => Promoted.refl hinv.wf (fun _ hc => (List.not_mem_nil hc).elim)
  | cons call calls ih =>
      intro s hinv hlive
      obtain ⟨hone, hfleets⟩ := markReady_promoted hinv hlive call.1 call.2
      have hstep : Step s ⟨.markReady f call.1 call.2, ((Op.markReady f call.1 call.2).exec s).1⟩
          ((Op.markReady f call.1 call.2).exec s).2 := ⟨trivial, rfl⟩
      refine hone.trans (ih (hinv.step hstep) ?_)
      have hsame : ((Op.markReady f call.1 call.2).exec s).2.fleetLive f = s.fleetLive f := by
        unfold Tables.fleetLive Tables.fleet?
        rw [hfleets]
      exact hsame.trans hlive

/-! ## The pass -/

theorem mem_succeeded_iff (hwf : WellFormed t) {d : String} :
    d ∈ succeededIds (fleetChildren f t) ↔
      ∃ ch, t.children[childKey f d]? = some ch ∧ ch.status = .succeeded := by
  rw [mem_succeededIds]
  constructor
  · rintro ⟨ch, hmem, rfl, hst⟩
    exact ⟨ch, ((mem_fleetChildren hwf).mp hmem).2, hst⟩
  · rintro ⟨ch, hch, hst⟩
    obtain ⟨hf, hid⟩ := hwf.child_ids hch
    exact ⟨ch, (mem_fleetChildren hwf).mpr ⟨hf, hid ▸ hch⟩, hid, hst⟩

/-- A `Planned` child has no attempt, so the pass promotes exactly what is due. -/
theorem promotable_due (hinv : Inv t) {k : String} {ch : FleetChildRecord} (hch : t.children[k]? = some ch) :
    promotable (succeededIds (fleetChildren f t)) ch = true ↔ Due t f ch := by
  have hdeps : (∀ d ∈ ch.deps, d ∈ succeededIds (fleetChildren f t)) ↔ t.DepsMet f ch.deps :=
    forall₂_congr (fun d _ => mem_succeeded_iff hinv.wf)
  rw [promotable_iff, hdeps]
  constructor
  · rintro ⟨hst, -, hmet⟩
    exact ⟨hst, hmet⟩
  · rintro ⟨hst, hmet⟩
    refine ⟨hst, ?_, hmet⟩
    cases hcur : ch.currentAttemptId with
    | none => rfl
    | some a => exact absurd (by rw [hst]; rfl) (hinv.linked.pointee_ne hch a hcur)

/-- **The pass** promotes over all children of the fleet. -/
theorem collectReady_promoted (hinv : Inv t) (nowMs : U64)
    (hchildren : t'.children = (collectReady f (succeededIds (fleetChildren f t)) nowMs
      (fleetChildren f t) t.children).1) :
    Promoted f ((fleetChildren f t).map FleetChildRecord.childId) t t' := by
  have hrows : ∀ c ∈ fleetChildren f t, t.children[childKey f c.childId]? = some c :=
    fun c hc => ((mem_fleetChildren hinv.wf).mp hc).2
  refine ⟨?_, ?_⟩
  · intro k ch hch
    by_cases hf : ch.fleetId = f
    · have hk : k = childKey f ch.childId := hf ▸ (hinv.wf.child k ch hch).1
      subst hk
      have hmem : ch ∈ fleetChildren f t := (mem_fleetChildren hinv.wf).mpr ⟨hf, hch⟩
      rw [hchildren, collectReady_row _ _ (fleetChildren_keys hinv.wf) hrows hmem]
      refine ⟨_, rfl, ?_⟩
      by_cases hdue : Due t f ch
      · rw [if_pos ((promotable_due hinv hch).mpr hdue)]
        exact ⟨rfl, rfl, rfl, rfl, Or.inl ⟨hf, List.mem_map_of_mem hmem, hdue, rfl⟩⟩
      · rw [if_neg (fun h => hdue ((promotable_due hinv hch).mp h))]
        exact PromotedRow.same (fun h => hdue h.2.2)
    · -- a row of another fleet
      rw [hchildren, collectReady_other _ _ ?_]
      · exact ⟨ch, hch, PromotedRow.same (fun h => hf h.1)⟩
      · rintro c hc rfl
        obtain rfl := Option.some.inj ((hrows c hc).symm.trans hch)
        exact hf ((mem_fleetChildren hinv.wf).mp hc).1
  · intro k hk
    rw [hchildren, collectReady_other _ _ ?_]
    · exact hk
    · rintro c hc rfl
      rw [hrows c hc] at hk
      cases hk

/-- What the pass returns is read off the rows it leaves. -/
theorem mem_collected (hinv : Inv t) {id : String}
    (hchildren : t'.children = (collectReady f (succeededIds (fleetChildren f t)) nowMs
      (fleetChildren f t) t.children).1) :
    id ∈ (collectReady f (succeededIds (fleetChildren f t)) nowMs (fleetChildren f t) t.children).2 ↔
      ∃ ch, t'.children[childKey f id]? = some ch ∧ ch.status = .ready ∧ ch.currentAttemptId = none := by
  have hrows : ∀ c ∈ fleetChildren f t, t.children[childKey f c.childId]? = some c :=
    fun c hc => ((mem_fleetChildren hinv.wf).mp hc).2
  constructor
  · intro hid
    rw [hchildren]
    exact collectReady_ready (fleetChildren_keys hinv.wf) hrows hid
  · rintro ⟨ch', hch', hready, hcur⟩
    have hprom := collectReady_promoted hinv nowMs hchildren
    cases hold : t.children[childKey f id]? with
    | none =>
        rw [hprom.absent _ hold] at hch'
        cases hch'
    | some ch =>
        obtain ⟨hf, hid⟩ := hinv.wf.child_ids hold
        obtain ⟨ch'', hch'', hrow⟩ := hprom.row _ ch hold
        obtain rfl := Option.some.inj (hch'.symm.trans hch'')
        refine (mem_collectReady _ _).mpr ⟨ch, (mem_fleetChildren hinv.wf).mpr ⟨hf, hid ▸ hold⟩, hid, ?_⟩
        rcases hrow.status with ⟨-, -, hdue, -⟩ | ⟨-, hsame⟩
        · exact Or.inl ((promotable_due hinv hold).mpr hdue)
        · exact Or.inr (launchable_iff.mpr ⟨hsame.symm.trans hready, hrow.attempt.symm.trans hcur⟩)

theorem collectReady_sublist {succeeded : List String} : ∀ (cs : List FleetChildRecord)
    (children : Table String FleetChildRecord),
    (collectReady f succeeded nowMs cs children).2.Sublist (cs.map FleetChildRecord.childId) := by
  intro cs
  induction cs with
  | nil => exact fun _ => List.Sublist.refl _
  | cons c cs ih =>
      intro children
      rw [collectReady]
      split
      · show List.Sublist (if _ then _ else _) _
        split
        · exact (ih _).cons_cons _
        · exact (ih _).cons _
      · show List.Sublist (if _ then _ else _) _
        split
        · exact (ih _).cons_cons _
        · exact (ih _).cons _

/-! ## The three checks -/

/-- The fleet has a `Ready` child of that id. -/
def IsReady (t : Tables) (f c : String) : Prop :=
  ∃ ch, t.children[childKey f c]? = some ch ∧ ch.status = .ready

/-- Who is `Ready` after a promotion over all children. -/
theorem Promoted.ready_iff {ids : List String} (hwf : WellFormed t) (h : Promoted f ids t t')
    (hall : ∀ ch ∈ fleetChildren f t, ch.childId ∈ ids) (c : String) :
    IsReady t' f c ↔ ∃ ch, t.children[childKey f c]? = some ch ∧ (ch.status = .ready ∨ Due t f ch) := by
  cases hold : t.children[childKey f c]? with
  | none =>
      have hnew := h.absent _ hold
      constructor
      · rintro ⟨ch, hch, -⟩
        rw [hnew] at hch
        cases hch
      · rintro ⟨ch, hch, -⟩
        cases hch
  | some ch =>
      obtain ⟨hf, hid⟩ := hwf.child_ids hold
      have hmem : ch.childId ∈ ids := hall ch ((mem_fleetChildren hwf).mpr ⟨hf, hid ▸ hold⟩)
      obtain ⟨ch', hch', hrow⟩ := h.row _ ch hold
      constructor
      · rintro ⟨x, hx, hready⟩
        obtain rfl := Option.some.inj (hch'.symm.trans hx)
        refine ⟨ch, rfl, ?_⟩
        rcases hrow.status with ⟨-, -, hdue, -⟩ | ⟨-, hsame⟩
        · exact Or.inr hdue
        · exact Or.inl (hsame.symm.trans hready)
      · rintro ⟨x, hx, hst⟩
        obtain rfl := Option.some.inj hx
        refine ⟨ch', hch', ?_⟩
        rcases hrow.status with ⟨-, -, -, hready⟩ | ⟨hnot, hsame⟩
        · exact hready
        · exact hsame.trans (hst.resolve_right (fun hdue => hnot ⟨hf, hmem, hdue⟩))

theorem readiness_ready {succeeded deps : List String} :
    readiness succeeded deps = .ready ↔ ∀ d ∈ deps, d ∈ succeeded := by
  unfold readiness
  split
  · next h => simpa using h
  · next h => simpa using h

/-- **A re-plan to the plan the fleet has** finds a `Planned` child ready when
its dependencies are met: they are tasks of the plan, so none that succeeded is
left out. -/
theorem Replanned.ready_iff (hwf : WellFormed t) (R : Replanned f t t') {p : DurablePlan}
    (hcor : Corresponds t f p) (htasks : R.plan'.tasks = p.tasks) {c : String} {ch : FleetChildRecord}
    (hch : t.children[childKey f c]? = some ch) (hst : ch.status = .planned) :
    IsReady t' f c ↔ t.DepsMet f ch.deps := by
  obtain ⟨hf, hid⟩ := hwf.child_ids hch
  obtain ⟨i, hrow, -⟩ := R.existing _ ch hch hf
  have hready : IsReady t' f c ↔
      (replanRow R.plan'.tasks R.succeeded R.newGen R.nowMs i ch).status = .ready := by
    constructor
    · rintro ⟨x, hx, hready⟩
      obtain rfl := Option.some.inj (hrow.symm.trans hx)
      exact hready
    · intro h
      exact ⟨_, hrow, h⟩
  rw [hready]
  rcases replanRow_cases R.plan'.tasks R.succeeded R.newGen R.nowMs i ch with
    ⟨_, _, _, _, hsucc, _⟩ | ⟨task, htask, htid, -, -, hnew, -⟩ | ⟨hout, -⟩
  · rw [hst] at hsucc
    cases hsucc
  · rw [htasks] at htask
    obtain ⟨x, hx, hdeps, -⟩ := hcor.task task htask
    rw [htid, hid] at hx
    obtain rfl := Option.some.inj (hch.symm.trans hx)
    rw [hnew, readiness_ready, hdeps]
    refine forall₂_congr ?_
    intro d hd
    rw [R.mem_succeeded, htasks]
    exact and_iff_right (hcor.valid.closed task htask d hd).2
  · -- a row outside the plan is cancelled
    rw [htasks] at hout
    have hstray := hcor.stray _ ch hch hf (by
      intro hmem
      obtain ⟨task, htask, heq⟩ := List.mem_map.mp hmem
      exact hout task htask heq)
    rw [hst] at hstray
    cases hstray.1

/-- What `replan` would find for it, without running. -/
theorem Corresponds.readiness_iff (hwf : WellFormed s.toTables) {p : DurablePlan}
    (hsafe : keyComponentIsSafe f = true) (hcor : Corresponds s.toTables f p) {c : String} {ch : FleetChildRecord}
    (hch : s.children[childKey f c]? = some ch) (hst : ch.status = .planned) :
    readiness (survivingSucceeded (existingChildren f s.children) p.tasks) ch.deps = .ready ↔
      s.toTables.DepsMet f ch.deps := by
  obtain ⟨hf, hid⟩ := hwf.child_ids hch
  have hmem : ch.childId ∈ taskIds p.tasks := by
    by_contra hout
    have hstray := (hcor.stray _ ch hch hf hout).1
    rw [hst] at hstray
    cases hstray
  obtain ⟨task, htask, htid⟩ := List.mem_map.mp hmem
  obtain ⟨x, hx, hdeps, -⟩ := hcor.task task htask
  rw [htid, hid] at hx
  obtain rfl := Option.some.inj (hch.symm.trans hx)
  rw [readiness_ready, hdeps]
  refine forall₂_congr ?_
  intro d hd
  rw [mem_survivingSucceeded hwf hsafe]
  exact and_iff_right (hcor.valid.closed task htask d hd).2

theorem depsSucceeded_iff (hwf : WellFormed t) {c : String} {ch : FleetChildRecord}
    (hch : t.children[childKey f c]? = some ch) : DepsSucceeded t ch ↔ t.DepsMet f ch.deps := by
  obtain ⟨rfl, -⟩ := hwf.child_ids hch
  refine forall₂_congr ?_
  intro d _
  constructor
  · rintro ⟨dep, hdep, -, -, hst⟩
    exact ⟨dep, hdep, hst⟩
  · rintro ⟨dep, hdep, hst⟩
    obtain ⟨hf, hid⟩ := hwf.child_ids hdep
    exact ⟨dep, hdep, hf, hid, hst⟩

/-- **The readiness checks agree.**  On a live fleet the pass succeeds, and
calling `mark_ready` on every child, in any order and with repetitions, leaves
the same children `Ready`: a `Planned` child is promoted when each of its
dependencies is a succeeded child of the fleet.  The pass returns the `Ready`
children without an attempt, sorted.  A re-plan of a keeper's fleet to the plan
it has decides the same for every `Planned` child. -/
theorem readiness_checks_agree (h : StoreReachable s) (hlive : s.fleetLive f = true) (nowMs : U64) :
    (∃ ids s', resolveAndCollectReady f nowMs s = .ok (ids, s') ∧
      (∀ calls : List (String × U64),
        (∀ ch ∈ fleetChildren f s.toTables, ch.childId ∈ calls.map Prod.fst) → ∀ c,
          IsReady (execAll (calls.map (fun call => Op.markReady f call.1 call.2)) s).toTables f c ↔
            IsReady s'.toTables f c) ∧
      (∀ c ch, s.children[childKey f c]? = some ch → ch.status = .planned →
        (IsReady s'.toTables f c ↔ DepsSucceeded s.toTables ch)) ∧
      ids.Pairwise (· ≤ ·) ∧ ids.Nodup ∧
      (∀ id, id ∈ ids ↔ ∃ ch, s'.children[childKey f id]? = some ch ∧ ch.status = .ready ∧
        ch.currentAttemptId = none)) ∧
    (∀ w, KeeperReachable w → w.store = s → ∀ p, s.plans[f]? = some p → ∀ c ch,
      s.children[childKey f c]? = some ch → ch.status = .planned →
        (readiness (survivingSucceeded (existingChildren f s.children) p.tasks) ch.deps = .ready ↔
          DepsSucceeded s.toTables ch) ∧
        ∀ newPlan rev v s', newPlan.tasks = p.tasks →
          replan f rev newPlan nowMs s = .ok (.mutated v, s') →
            (IsReady s'.toTables f c ↔ DepsSucceeded s.toTables ch)) := by
  have hinv := h.inv
  obtain ⟨fl, hfl, hfleet⟩ := (hinv.wf.fleetLive_iff f).mp hlive
  refine ⟨⟨_, _, readyTasks_live hinv.wf hfl hfleet, ?_, ?_, ?_, ?_, ?_⟩, ?_⟩
  · intro calls hall c
    rw [(markAll_promoted calls hinv hlive).ready_iff hinv.wf hall,
      (collectReady_promoted hinv nowMs rfl).ready_iff hinv.wf (fun _ hc => List.mem_map_of_mem hc)]
  · intro c ch hch hst
    rw [(collectReady_promoted hinv nowMs rfl).ready_iff hinv.wf (fun _ hc => List.mem_map_of_mem hc),
      depsSucceeded_iff hinv.wf hch]
    constructor
    · rintro ⟨x, hx, hready⟩
      obtain rfl := Option.some.inj (hch.symm.trans hx)
      rcases hready with hready | hdue
      · rw [hst] at hready
        cases hready
      · exact hdue.2
    · intro hmet
      exact ⟨ch, hch, Or.inr ⟨hst, hmet⟩⟩
  · exact List.pairwise_insertionSort _ _
  · refine (List.perm_insertionSort _ _).nodup_iff.mpr ((collectReady_sublist _ _).nodup ?_)
    have hkeys := fleetChildren_keys hinv.wf (f := f)
    rw [← Function.comp_def (childKey f) FleetChildRecord.childId, ← List.map_map] at hkeys
    exact hkeys.of_map
  · intro id
    rw [List.mem_insertionSort]
    exact mem_collected hinv rfl
  · rintro w hw rfl p hp c ch hch hst
    obtain ⟨q, hq, hcor⟩ := hw.mirrored f fl hfl hfleet
    obtain rfl := Option.some.inj (hp.symm.trans hq)
    rw [depsSucceeded_iff hinv.wf hch]
    refine ⟨hcor.readiness_iff hinv.wf (hinv.wf.fleet _ _ hfl).2.2 hch hst, ?_⟩
    intro newPlan rev v s' htasks hrun
    rcases replan_spec hinv hrun with ⟨hne, -⟩ | ⟨R, -, -, hplan, -⟩
    · exact absurd rfl (hne v)
    · refine R.ready_iff hinv.wf hcor ?_ hch hst
      rw [hplan]
      exact htasks

theorem KeeperReachable.storeReachable {w : World} (h : KeeperReachable w) : StoreReachable w.store := by
  refine Reachable.invariant (I := fun w : World => StoreReachable w.store) ⟨[], .nil _⟩ ?_ h
  rintro w ev w' ⟨es, hrun⟩ hstep
  rcases hstep.store with heq | ⟨c, hcall⟩
  · exact ⟨es, heq ▸ hrun⟩
  · exact ⟨_, hrun.snoc hcall⟩

theorem readiness_checks_agree_second_task :
    let s := (World.empty.play secondTaskDue).2.store
    let calls : List (String × U64) := [("c2", 3), ("c1", 3), ("c2", 4)]
    (∃ ids s', resolveAndCollectReady "f1" 3 s = .ok (ids, s') ∧ "c2" ∈ ids) ∧
      IsReady (execAll (calls.map (fun call => Op.markReady "f1" call.1 call.2)) s).toTables "f1" "c2" ∧
      ∃ p v s', s.plans["f1"]? = some p ∧ replan "f1" 0 p 3 s = .ok (.mutated v, s') ∧
        IsReady s'.toTables "f1" "c2" := by
  intro s calls
  have hw : KeeperReachable (World.empty.play secondTaskDue).2 := ⟨_, World.play_run secondTaskDue World.empty⟩
  obtain ⟨⟨ids, s', hrun, hpaths, hplanned, -, -, hids⟩, hreplan⟩ :=
    readiness_checks_agree hw.storeReachable (f := "f1") (by rfl) 3
  obtain ⟨c₁, hc₁, hst₁⟩ : ∃ ch, s.children[childKey "f1" "c1"]? = some ch ∧
      decide (ch.fleetId = "f1" ∧ ch.childId = "c1" ∧ ch.status = .succeeded) = true :=
    (Option.any_eq_true _ _).mp (by rfl)
  obtain ⟨c₂, hc₂, hst₂⟩ : ∃ ch, s.children[childKey "f1" "c2"]? = some ch ∧
      decide (ch.fleetId = "f1" ∧ ch.status = .planned ∧ ch.deps = ["c1"]) = true :=
    (Option.any_eq_true _ _).mp (by rfl)
  obtain ⟨hf₁, hid₁, hst₁⟩ := of_decide_eq_true hst₁
  obtain ⟨hf₂, hst₂, hdeps⟩ := of_decide_eq_true hst₂
  have hmet : DepsSucceeded s.toTables c₂ := by
    intro d hd
    rw [hdeps] at hd
    obtain rfl := List.mem_singleton.mp hd
    rw [hf₂]
    exact ⟨c₁, hc₁, hf₁, hid₁, hst₁⟩
  have hcover : ((fleetChildren "f1" s.toTables).all
      (fun ch => decide (ch.childId ∈ calls.map Prod.fst))) = true := by rfl
  obtain ⟨p, hp, hmut⟩ : ∃ p, s.plans["f1"]? = some p ∧
      (replan "f1" 0 p 3 s).toOption.any (fun out => decide (out.1 = .mutated 1)) = true :=
    (Option.any_eq_true _ _).mp (by rfl)
  have hready := (hplanned "c2" c₂ hc₂ hst₂).mpr hmet
  refine ⟨⟨ids, s', hrun, ?_⟩, ?_, p, ?_⟩
  · have hcollected : (resolveAndCollectReady "f1" 3 s).toOption.any (fun out => decide ("c2" ∈ out.1)) = true := by
      rfl
    rw [hrun] at hcollected
    exact of_decide_eq_true hcollected
  · exact (hpaths calls (fun ch hch => of_decide_eq_true (List.all_eq_true.mp hcover ch hch)) "c2").mpr hready
  · cases hout : replan "f1" 0 p 3 s with
    | error e =>
        rw [hout] at hmut
        cases hmut
    | ok out =>
        obtain ⟨outcome, t⟩ := out
        rw [hout] at hmut
        obtain rfl : outcome = .mutated 1 := of_decide_eq_true hmut
        exact ⟨1, t, hp, rfl, ((hreplan _ hw rfl p hp "c2" c₂ hc₂ hst₂).2 p 0 1 t rfl hout).mpr hmet⟩

end Octos.Fleet
