/-
# `Octos.Fleet.RefinePlan` — the plan writers and recovery refine the effects

`replan` is the one operation whose loops rewrite many rows.  Its three loops
are described key by key first: what the scan returns, what the
interrupt-and-restart loop leaves under each key, what the new-task loop adds.
Together these descriptions are a `Replanned`.

The targeted edits are a plan edit and at most one move; recovery is a sequence
of reclaims.

`Op.Allows` then collects the table for all operations: which effects a call
may have, and on which fleet.  `Op.run_effects` is the refinement as a whole.
-/
import Octos.Fleet.Refine

namespace Octos.Fleet

variable {s s' : Store} {t : Tables} {f : String}

/-! ## The scan of a fleet's children -/

theorem mem_fleetRows (hwf : WellFormed t) (hsafe : keyComponentIsSafe f = true) {cid : String}
    {o : Option FleetChildRecord} :
    (cid, o) ∈ fleetRows f t.children ↔
      ∃ ch, t.children[childKey f cid]? = some ch ∧ o = some ch := by
  simp only [fleetRows, List.mem_filterMap, Option.map_eq_some_iff]
  constructor
  · rintro ⟨⟨k, ch⟩, hm, cid', hstrip, heq⟩
    obtain ⟨rfl, rfl⟩ := Prod.mk.inj heq
    have hch := Table.mem_rows.mp hm
    obtain ⟨hk, -, hsf, -⟩ := hwf.child _ _ hch
    simp only at hstrip
    rw [hk, stripPrefix_childKey _ hsafe hsf] at hstrip
    split at hstrip
    · next hf =>
        obtain rfl := Option.some.inj hstrip
        subst hf
        refine ⟨ch, hk ▸ hch, ?_⟩
        simp [hwf.decode_child hch]
    · cases hstrip
  · rintro ⟨ch, hch, rfl⟩
    obtain ⟨hf, hc⟩ := hwf.child_ids hch
    refine ⟨(childKey f cid, ch), Table.mem_rows.mpr hch, cid, ?_, ?_⟩
    · rw [stripPrefix_childKey _ hsafe hsafe, if_pos rfl]
    · simp [hwf.decode_child hch, hf, hc]

/-- The scan returns the children of the fleet, as stored. -/
theorem mem_existingChildren (hwf : WellFormed t) (hsafe : keyComponentIsSafe f = true)
    {ch : FleetChildRecord} :
    ch ∈ existingChildren f t.children ↔
      ch.fleetId = f ∧ t.children[childKey f ch.childId]? = some ch := by
  simp only [existingChildren, List.mem_filterMap, Prod.exists]
  constructor
  · rintro ⟨cid, o, hm, ho⟩
    obtain ⟨ch', hch', rfl⟩ := (mem_fleetRows hwf hsafe).mp hm
    obtain rfl := Option.some.inj ho
    obtain ⟨hf, hc⟩ := hwf.child_ids hch'
    rw [hc]
    exact ⟨hf, hch'⟩
  · rintro ⟨-, hch⟩
    exact ⟨ch.childId, some ch, (mem_fleetRows hwf hsafe).mpr ⟨ch, hch, rfl⟩, rfl⟩

/-- No row of the fleet is opaque. -/
theorem undecodableIds_eq (hwf : WellFormed t) (hsafe : keyComponentIsSafe f = true) :
    undecodableIds f t.children = [] := by
  simp only [undecodableIds, List.map_eq_nil_iff, List.filter_eq_nil_iff]
  rintro ⟨cid, o⟩ hm
  obtain ⟨ch, -, rfl⟩ := (mem_fleetRows hwf hsafe).mp hm
  simp

theorem stripPrefix_some {pre str rest : String} (h : stripPrefix pre str = some rest) :
    str = pre ++ rest := by
  unfold stripPrefix at h
  split at h
  · next hp =>
      obtain rfl := Option.some.inj h
      obtain ⟨l, hl⟩ := List.isPrefixOf_iff_prefix.mp hp
      rw [String.ext_iff, String.toList_append, String.toList_ofList, ← hl]
      simp
  · cases h

/-- The scan returns no child twice. -/
theorem existingChildren_nodup (hwf : WellFormed t) (hsafe : keyComponentIsSafe f = true) :
    ((existingChildren f t.children).map FleetChildRecord.childId).Nodup := by
  have hnd : (existingChildren f t.children).Nodup := by
    unfold existingChildren fleetRows
    rw [List.filterMap_filterMap]
    refine List.Nodup.filterMap ?_ (Table.rows_nodup t.children)
    -- a returned record determines the row it was read from
    have hrow : ∀ (r : String × FleetChildRecord) (ch : FleetChildRecord),
        ch ∈ ((stripPrefix (f ++ "\x00") r.1).map (fun cid => (cid, (decodeRow r.2).filter
          (fun rec => rec.fleetId == f && rec.childId == cid)))).bind Prod.snd →
        r = (f ++ "\x00" ++ ch.childId, ch) := by
      rintro ⟨k, v⟩ ch hm
      simp only [Option.mem_def, Option.bind_eq_some_iff, Option.map_eq_some_iff] at hm
      obtain ⟨-, ⟨cid, hcid, rfl⟩, hfil⟩ := hm
      obtain ⟨hdec, hids⟩ := Option.filter_eq_some_iff.mp hfil
      obtain ⟨-, rfl⟩ := decodeRow_eq_some.mp hdec
      simp only [Bool.and_eq_true, beq_iff_eq] at hids
      rw [stripPrefix_some hcid, hids.2]
    intro r r' ch hr hr'
    rw [hrow r ch hr, hrow r' ch hr']
  refine hnd.map_on ?_
  intro ch hch ch' hch' hid
  have h₁ := ((mem_existingChildren hwf hsafe).mp hch).2
  have h₂ := ((mem_existingChildren hwf hsafe).mp hch').2
  rw [hid, h₂] at h₁
  exact (Option.some.inj h₁).symm

theorem mem_survivingSucceeded (hwf : WellFormed t) (hsafe : keyComponentIsSafe f = true)
    {tasks : List PlanTask} {d : String} :
    d ∈ survivingSucceeded (existingChildren f t.children) tasks ↔
      d ∈ tasks.map PlanTask.taskId ∧
        ∃ ch, t.children[childKey f d]? = some ch ∧ ch.status = .succeeded := by
  simp only [survivingSucceeded, List.mem_map (f := FleetChildRecord.childId), List.mem_filter,
    Bool.and_eq_true, beq_iff_eq, decide_eq_true_eq, mem_existingChildren hwf hsafe]
  constructor
  · rintro ⟨ch, ⟨⟨-, hch⟩, hst, hmem⟩, rfl⟩
    exact ⟨hmem, ch, hch, hst⟩
  · rintro ⟨hmem, ch, hch, hst⟩
    obtain ⟨hf, rfl⟩ := hwf.child_ids hch
    exact ⟨ch, ⟨⟨hf, hch⟩, hst, hmem⟩, rfl⟩

/-- Past the in-transaction freeze, finished children keep their dependencies. -/
theorem frozen_of_terminalDepChange (hwf : WellFormed t) (hsafe : keyComponentIsSafe f = true)
    {tasks : List PlanTask}
    (h : terminalDepChange (existingChildren f t.children) tasks = none) :
    ∀ task ∈ tasks, ∀ ch, t.children[childKey f task.taskId]? = some ch →
      (ch.status = .succeeded ∨ ch.status = .failed) → ch.deps = task.deps := by
  intro task htask ch hch hst
  have hcheck := List.find?_eq_none.mp (Option.map_eq_none_iff.mp h) task htask
  obtain ⟨hf, hc⟩ := hwf.child_ids hch
  have hmem : ch ∈ existingChildren f t.children :=
    (mem_existingChildren hwf hsafe).mpr ⟨hf, hc.symm ▸ hch⟩
  -- the row the check finds is this one
  cases hfind : (existingChildren f t.children).find? (fun c => c.childId == task.taskId) with
  | none => exact absurd (by simpa using hc) (List.find?_eq_none.mp hfind ch hmem)
  | some ch' =>
      have hid : ch'.childId = task.taskId := by simpa using List.find?_some hfind
      have hmem' := List.mem_of_find?_eq_some hfind
      have hch' := ((mem_existingChildren hwf hsafe).mp hmem').2
      rw [hid, hch] at hch'
      obtain rfl := Option.some.inj hch'
      simp only [hfind, Bool.and_eq_true, decide_eq_true_eq, Bool.or_eq_true, beq_iff_eq,
        not_and] at hcheck
      by_contra hne
      exact hcheck hne hst

/-! ## The interrupt-and-restart loop -/

section Loop

variable {tasks : List PlanTask} {succeeded : List String} {newGen nowMs : U64}

/-- One iteration. -/
theorem replanChild_spec {ch : FleetChildRecord} {acc acc' : ReplanAcc}
    (h : replanChild f tasks succeeded newGen nowMs ch acc = .ok acc') :
    acc'.children = acc.children.insert (childKey f ch.childId)
      (replanRow tasks succeeded newGen nowMs (liveAttempt f ch acc.attempts).isSome ch) ∧
    ((liveAttempt f ch acc.attempts = none ∧ acc'.attempts = acc.attempts ∧
        acc'.reserved = acc.reserved) ∨
      ∃ att, liveAttempt f ch acc.attempts = some att ∧
        acc'.attempts = acc.attempts.insert (attemptKey ch.childId att.attemptId)
          (att.interrupt nowMs) ∧
        checkedSub acc.reserved att.reservedTokens = some acc'.reserved) := by
  unfold replanChild at h
  simp only at h
  split at h
  · next att hatt =>
      simp only [bind_ok, okOr_ok, pure_ok] at h
      obtain ⟨res, hres, rfl⟩ := h
      exact ⟨by simp [hatt], Or.inr ⟨att, hatt, rfl, hres⟩⟩
  · next hatt =>
      obtain rfl := Except.ok.inj h
      exact ⟨by simp [hatt], Or.inl ⟨hatt, rfl, rfl⟩⟩

/-- The attempt rows of a child carry the ids of the key they are read under. -/
def OwnAttempts (attempts : Table String Attempt) (ch : FleetChildRecord) : Prop :=
  ∀ (aid : String) (att : Attempt), attempts[attemptKey ch.childId aid]? = some att →
    decodeRow att = some att ∧ att.childId = ch.childId ∧ att.attemptId = aid

theorem liveAttempt_some {attempts : Table String Attempt} {ch : FleetChildRecord} {att : Attempt}
    (h : liveAttempt f ch attempts = some att) :
    ch.currentAttemptId = some att.attemptId ∧
      attempts[attemptKey ch.childId att.attemptId]? = some att ∧ att.fleetId = f ∧
      att.status.isLive = true := by
  unfold liveAttempt at h
  simp only [Option.bind_eq_bind, Option.bind_eq_some_iff] at h
  obtain ⟨aid, hcur, att', ⟨row, hrow, hdec⟩, h⟩ := h
  obtain ⟨-, rfl⟩ := decodeRow_eq_some.mp hdec
  split at h
  · next hids =>
      obtain rfl := Option.some.inj h
      obtain ⟨hf, -, rfl, hl⟩ := hids
      exact ⟨hcur, hrow, hf, hl⟩
  · cases h

theorem liveAttempt_none {attempts : Table String Attempt} {ch : FleetChildRecord} {aid : String}
    {att : Attempt} (hown : OwnAttempts attempts ch) (h : liveAttempt f ch attempts = none)
    (hcur : ch.currentAttemptId = some aid)
    (hatt : attempts[attemptKey ch.childId aid]? = some att) :
    ¬ (att.fleetId = f ∧ att.status.isLive = true) := by
  rintro ⟨hf, hl⟩
  obtain ⟨hdec, hc, hid⟩ := hown aid att hatt
  simp [liveAttempt, hcur, hatt, hdec, hf, hc, hid, hl] at h

/-- The interrupt-and-restart loop, key by key. -/
structure LoopSpec (f : String) (tasks : List PlanTask) (succeeded : List String)
    (newGen nowMs : U64) (cs : List FleetChildRecord) (acc acc' : ReplanAcc) : Prop where
  other : ∀ k : String, (∀ c ∈ cs, k ≠ childKey f c.childId) →
    acc'.children[k]? = acc.children[k]?
  row : ∀ c ∈ cs, acc'.children[childKey f c.childId]? =
    some (replanRow tasks succeeded newGen nowMs (liveAttempt f c acc.attempts).isSome c)
  untouched : ∀ k : String,
    (∀ c ∈ cs, ∀ aid, c.currentAttemptId = some aid → k ≠ attemptKey c.childId aid) →
    acc'.attempts[k]? = acc.attempts[k]?
  current : ∀ c ∈ cs, ∀ aid, c.currentAttemptId = some aid →
    acc'.attempts[attemptKey c.childId aid]? =
      acc.attempts[attemptKey c.childId aid]?.map (fun a =>
        if a.fleetId = f ∧ a.status.isLive = true then a.interrupt nowMs else a)
  balance : acc'.reserved.toNat + Table.total (reservedBy f) acc.attempts =
    acc.reserved.toNat + Table.total (reservedBy f) acc'.attempts

/-- What one iteration does to the attempts and to the reservation. -/
theorem replanChild_attempts {ch : FleetChildRecord} {acc acc' : ReplanAcc}
    (hown : OwnAttempts acc.attempts ch)
    (h : replanChild f tasks succeeded newGen nowMs ch acc = .ok acc') :
    (∀ k : String, (∀ aid, ch.currentAttemptId = some aid → k ≠ attemptKey ch.childId aid) →
      acc'.attempts[k]? = acc.attempts[k]?) ∧
    (∀ aid, ch.currentAttemptId = some aid →
      acc'.attempts[attemptKey ch.childId aid]? =
        acc.attempts[attemptKey ch.childId aid]?.map (fun a =>
          if a.fleetId = f ∧ a.status.isLive = true then a.interrupt nowMs else a)) ∧
    acc'.reserved.toNat + Table.total (reservedBy f) acc.attempts =
      acc.reserved.toNat + Table.total (reservedBy f) acc'.attempts := by
  obtain ⟨-, ⟨hnone, hatt, hres⟩ | ⟨att, hsome, hatt, hres⟩⟩ := replanChild_spec h
  · rw [hatt, hres]
    refine ⟨fun _ _ => rfl, ?_, rfl⟩
    intro aid hcur
    cases hrow : acc.attempts[attemptKey ch.childId aid]? with
    | none => rfl
    | some a => rw [Option.map_some, if_neg (liveAttempt_none hown hnone hcur hrow)]
  · obtain ⟨hcur, hrow, hf, hl⟩ := liveAttempt_some hsome
    rw [checkedSub_eq_some] at hres
    refine ⟨?_, ?_, ?_⟩
    · intro k hk
      rw [hatt, Table.get_insert_ne _ _ (hk _ hcur).symm]
    · intro aid haid
      obtain rfl := Option.some.inj (hcur.symm.trans haid)
      rw [hatt, Table.get_insert_self, hrow, Option.map_some, if_pos ⟨hf, hl⟩]
    · have hins := Table.total_insert (reservedBy f) acc.attempts
        (attemptKey ch.childId att.attemptId) (att.interrupt nowMs)
      rw [hrow, Table.weight_some, ← hatt] at hins
      simp only [reservedBy, hf, hl, Attempt.interrupt, AttemptStatus.isLive_interrupted,
        and_self, if_true, Bool.false_eq_true, and_false, if_false] at hins
      omega

/-- Two children with different ids have no attempt key in common. -/
theorem attemptKey_ne {c c' : FleetChildRecord} (hc : keyComponentIsSafe c.childId = true)
    (hc' : keyComponentIsSafe c'.childId = true) (hne : c.childId ≠ c'.childId) (a a' : String) :
    attemptKey c.childId a ≠ attemptKey c'.childId a' := by
  intro h
  exact hne ((attemptKey_inj hc hc').mp h).1

theorem replanExisting_spec (hf : keyComponentIsSafe f = true) :
    ∀ (cs : List FleetChildRecord) {acc acc' : ReplanAcc},
      (cs.map FleetChildRecord.childId).Nodup →
      (∀ c ∈ cs, keyComponentIsSafe c.childId = true ∧ OwnAttempts acc.attempts c) →
      replanExisting f tasks succeeded newGen nowMs cs acc = .ok acc' →
      LoopSpec f tasks succeeded newGen nowMs cs acc acc'
  | [], acc, acc', _, _, h => by
      obtain rfl := Except.ok.inj h
      exact ⟨fun _ _ => rfl, by simp, fun _ _ => rfl, by simp, rfl⟩
  | c :: cs, acc, acc', hnd, hok, h => by
      unfold replanExisting at h
      split at h
      · next acc₁ hc =>
          simp only [List.map_cons, List.nodup_cons] at hnd
          obtain ⟨hsafe, hown⟩ := hok c List.mem_cons_self
          obtain ⟨hchildren, -⟩ := replanChild_spec hc
          obtain ⟨hout, hcur, hbal⟩ := replanChild_attempts hown hc
          have hdiff : ∀ c' ∈ cs, c'.childId ≠ c.childId := by
            intro c' hc' heq
            exact hnd.1 (List.mem_map.mpr ⟨c', hc', heq⟩)
          -- the head's iteration leaves the attempts of the later children alone
          have hkeep : ∀ c' ∈ cs, ∀ aid,
              acc₁.attempts[attemptKey c'.childId aid]? =
                acc.attempts[attemptKey c'.childId aid]? := by
            intro c' hc' aid
            refine hout _ ?_
            intro aid' _
            exact attemptKey_ne (hok c' (List.mem_cons_of_mem _ hc')).1 hsafe (hdiff c' hc') _ _
          have hlive : ∀ c' ∈ cs, liveAttempt f c' acc₁.attempts =
              liveAttempt f c' acc.attempts := by
            intro c' hc'
            unfold liveAttempt
            simp only [hkeep c' hc']
          have hok₁ : ∀ c' ∈ cs, keyComponentIsSafe c'.childId = true ∧
              OwnAttempts acc₁.attempts c' := by
            intro c' hc'
            obtain ⟨hs, ho⟩ := hok c' (List.mem_cons_of_mem _ hc')
            refine ⟨hs, ?_⟩
            intro aid att hatt
            rw [hkeep c' hc'] at hatt
            exact ho aid att hatt
          have ih := replanExisting_spec hf cs hnd.2 hok₁ h
          have hkey : ∀ c' ∈ cs, childKey f c.childId ≠ childKey f c'.childId := by
            intro c' hc' heq
            exact hdiff c' hc' ((childKey_inj hf hf).mp heq).2.symm
          constructor
          · intro k hk
            rw [ih.other k (fun c' hc' => hk c' (List.mem_cons_of_mem _ hc')), hchildren,
              Table.get_insert_ne _ _ (hk c List.mem_cons_self).symm]
          · intro c' hc'
            rcases List.mem_cons.mp hc' with rfl | hc'
            · rw [ih.other _ hkey, hchildren, Table.get_insert_self]
            · rw [ih.row c' hc', hlive c' hc']
          · intro k hk
            rw [ih.untouched k (fun c' hc' => hk c' (List.mem_cons_of_mem _ hc')),
              hout k (hk c List.mem_cons_self)]
          · intro c' hc' aid haid
            rcases List.mem_cons.mp hc' with rfl | hc'
            · rw [ih.untouched _ ?_, hcur aid haid]
              intro c'' hc'' aid' _
              exact attemptKey_ne hsafe (hok c'' (List.mem_cons_of_mem _ hc'')).1
                (hdiff c'' hc'').symm _ _
            · rw [ih.current c' hc' aid haid, hkeep c' hc']
          · have hbal' := ih.balance
            omega
      · cases h

/-! ## The new-task loop -/

theorem replanNew_other {taken : List String} :
    ∀ (ts : List PlanTask) (children : Table String FleetChildRecord) (k : String),
      (∀ task ∈ ts, task.taskId ∉ taken → k ≠ childKey f task.taskId) →
      (replanNew f taken succeeded newGen nowMs ts children)[k]? = children[k]?
  | [], _, _, _ => rfl
  | task :: ts, children, k, hk => by
      have hrest : ∀ task' ∈ ts, task'.taskId ∉ taken → k ≠ childKey f task'.taskId :=
        fun task' h' => hk task' (List.mem_cons_of_mem _ h')
      unfold replanNew
      split
      · exact replanNew_other ts children k hrest
      · next htaken =>
          rw [replanNew_other ts _ k hrest,
            Table.get_insert_ne _ _ (hk task List.mem_cons_self htaken).symm]

/-- A new id gets a fresh row; of several tasks with one id the last one wins. -/
theorem replanNew_row {taken : List String} (hf : keyComponentIsSafe f = true) :
    ∀ (ts : List PlanTask) (children : Table String FleetChildRecord), ∀ task ∈ ts,
      task.taskId ∉ taken → ∃ task' ∈ ts, task'.taskId = task.taskId ∧
        (replanNew f taken succeeded newGen nowMs ts children)[childKey f task.taskId]? =
          some (freshChild f task.taskId task'.deps (readiness succeeded task'.deps) newGen nowMs)
  | head :: ts, children, task, hmem, htaken => by
      by_cases hlater : ∃ task' ∈ ts, task'.taskId = task.taskId
      · obtain ⟨task', hmem', hid⟩ := hlater
        have ih := fun children => replanNew_row hf ts children task' hmem' (hid ▸ htaken)
        rw [hid] at ih
        unfold replanNew
        split
        · obtain ⟨w, hw, hwid, hrow⟩ := ih children
          exact ⟨w, List.mem_cons_of_mem _ hw, hwid, hrow⟩
        · obtain ⟨w, hw, hwid, hrow⟩ := ih _
          exact ⟨w, List.mem_cons_of_mem _ hw, hwid, hrow⟩
      · rcases List.mem_cons.mp hmem with rfl | hmem
        · refine ⟨task, List.mem_cons_self, rfl, ?_⟩
          rw [replanNew, if_neg htaken, replanNew_other, Table.get_insert_self]
          intro task' hmem' _ heq
          exact hlater ⟨task', hmem', ((childKey_inj hf hf).mp heq).2.symm⟩
        · exact absurd ⟨task, hmem, rfl⟩ hlater

end Loop

/-! ## Replan -/

/-- The plan a re-plan stores. -/
def replanned (fleetId : String) (revision : U64) (newPlan : DurablePlan) : DurablePlan :=
  { newPlan with
    schemaVersion := schemaVersionCurrent, fleetId := fleetId, revision := revision }

theorem replan_spec {rev : U64} {newPlan : DurablePlan} {nowMs : U64} {r : PlanMutateOutcome}
    (hinv : Inv s.toTables) (h : replan f rev newPlan nowMs s = .ok (r, s')) :
    ((∀ v, r ≠ .mutated v) ∧ s' = s) ∨
    ∃ R : Replanned f s.toTables s'.toTables, r = .mutated R.plan'.revision ∧
      R.plan.revision = rev ∧ R.plan' = replanned f R.plan'.revision newPlan ∧
      SameLogs s s' := by
  have hwf := hinv.wf
  have hrej : ∀ {r' : PlanMutateOutcome}, (∀ v, r' ≠ .mutated v) → (r', s) = (r, s') →
      (∀ v, r ≠ .mutated v) ∧ s' = s := by
    intro r' hr' heq
    obtain ⟨rfl, rfl⟩ := Prod.mk.inj heq
    exact ⟨hr', rfl⟩
  unfold replan at h
  simp only [bind_ok, okOr_ok, ensureKeySafe_ok, guard_ok, return_ok] at h
  obtain ⟨-, hkeys, prow, hprow, plan, hplan, -, ⟨-, h⟩ | ⟨hrev, h⟩⟩ := h
  · exact Or.inl (hrej (by simp) h)
  rw [hwf.decode_plan hprow] at hplan
  obtain rfl := Option.some.inj hplan
  obtain ⟨fl, hfl, fl', hdec, -, ⟨-, h⟩ | ⟨hlive, h⟩⟩ := h
  · exact Or.inl (hrej (by simp) h)
  rw [hwf.decode_fleet hfl] at hdec
  obtain rfl := Option.some.inj hdec
  obtain ⟨gen, hgen, rev', hrev', h⟩ := h
  rw [checkedAdd_eq_some] at hgen hrev'
  have hsafe := (hwf.fleet _ _ hfl).2.2
  split at h
  · exact Or.inl (hrej (by simp) (pure_ok.mp h))
  next hfreeze =>
    simp only [bind_ok, pure_ok] at h
    obtain ⟨acc, hacc, h⟩ := h
    obtain ⟨rfl, rfl⟩ := Prod.mk.inj h
    have hrevEq : prow.revision = rev := by simpa using hrev
    -- the loop over the existing children
    have hspec := replanExisting_spec hsafe (existingChildren f s.children)
      (existingChildren_nodup hwf hsafe) (by
        intro c hc
        obtain ⟨-, hrow⟩ := (mem_existingChildren hwf hsafe).mp hc
        have hcs := (hwf.child_safe hrow).2
        refine ⟨hcs, ?_⟩
        intro aid att hatt
        obtain ⟨h₁, h₂⟩ := hwf.attempt_ids hcs hatt
        exact ⟨hwf.decode_attempt hatt, h₁, h₂⟩) hacc
    have hmem : ∀ {k : String} {ch : FleetChildRecord}, s.children[k]? = some ch →
        ch.fleetId = f → ch ∈ existingChildren f s.children ∧ k = childKey f ch.childId := by
      rintro k ch hch rfl
      obtain ⟨hk, -⟩ := hwf.child _ _ hch
      exact ⟨(mem_existingChildren hwf hsafe).mpr ⟨rfl, hk ▸ hch⟩, hk⟩
    have htaken : ∀ c : String, c ∉ (existingChildren f s.children).map FleetChildRecord.childId ++
        undecodableIds f s.children ↔ s.children[childKey f c]? = none := by
      intro c
      rw [undecodableIds_eq hwf hsafe, List.append_nil]
      constructor
      · intro hc
        cases hch : s.children[childKey f c]? with
        | none => rfl
        | some ch =>
            obtain ⟨hf, hid⟩ := hwf.child_ids hch
            exact absurd (List.mem_map.mpr ⟨ch, (hmem hch hf).1, hid⟩) hc
      · intro hnone hc
        obtain ⟨ch, hch, rfl⟩ := List.mem_map.mp hc
        rw [((mem_existingChildren hwf hsafe).mp hch).2] at hnone
        cases hnone
    -- a row that is there is not a new task's
    have hold : ∀ {k : String} {ch : FleetChildRecord}, s.children[k]? = some ch →
        (replanNew f ((existingChildren f s.children).map FleetChildRecord.childId ++
          undecodableIds f s.children)
          (survivingSucceeded (existingChildren f s.children) newPlan.tasks) gen nowMs
          newPlan.tasks acc.children)[k]? = acc.children[k]? := by
      intro k ch hch
      refine replanNew_other _ _ _ ?_
      rintro task - hnt rfl
      rw [(htaken _).mp hnt] at hch
      cases hch
    refine Or.inr ⟨{
      fleet := fl, plan := prow, plan' := replanned f rev' newPlan,
      succeeded := survivingSucceeded (existingChildren f s.children) newPlan.tasks,
      newGen := gen, reserved := acc.reserved, nowMs := nowMs,
      fleet_found := hfl, fleet_live := by simpa using hlive, plan_found := hprow,
      safe := hkeys, newGen_eq := hgen,
      revision_eq := by rw [hrevEq]; exact hrev',
      plan_fleetId := rfl, plan_version := rfl,
      mem_succeeded := fun d => mem_survivingSucceeded hwf hsafe,
      fleets := rfl, plans := rfl,
      foreign := ?_, existing := ?_, fresh := ?_, absent := ?_, attempts := ?_,
      balance := hspec.balance,
      frozen := frozen_of_terminalDepChange hwf hsafe
        (Option.eq_none_iff_forall_ne_some.mpr hfreeze) }, rfl, hrevEq, rfl, rfl, rfl⟩
    · intro k ch hch hne
      refine (hold hch).trans ((hspec.other k ?_).trans hch)
      rintro c hc rfl
      have hrow := ((mem_existingChildren hwf hsafe).mp hc).2
      rw [hch] at hrow
      obtain rfl := Option.some.inj hrow
      exact hne ((mem_existingChildren hwf hsafe).mp hc).1
    · intro k ch hch hf
      obtain ⟨hm, rfl⟩ := hmem hch hf
      refine ⟨_, (hold hch).trans (hspec.row ch hm), ?_⟩
      -- the attempt of a succeeded child is done, hence not live
      intro hst
      cases hla : liveAttempt f ch s.attempts with
      | none => rfl
      | some att =>
          obtain ⟨hcur, hrow, -, hl⟩ := liveAttempt_some hla
          obtain ⟨att', hatt', -, hp⟩ := hinv.linked.pointer _ _ _ hch hcur
          rw [hrow] at hatt'
          obtain rfl := Option.some.inj hatt'
          rw [hst] at hp
          rw [← Option.some.inj hp] at hl
          cases hl
    · intro task htask hnone
      exact replanNew_row hsafe newPlan.tasks _ task htask ((htaken _).mpr hnone)
    · intro k hnone hne
      refine (replanNew_other _ _ _ (fun task htask _ => hne task htask)).trans
        ((hspec.other k ?_).trans hnone)
      rintro c hc rfl
      rw [((mem_existingChildren hwf hsafe).mp hc).2] at hnone
      cases hnone
    · intro k
      by_cases hcase : ∃ c ∈ existingChildren f s.children, ∃ aid,
          c.currentAttemptId = some aid ∧ k = attemptKey c.childId aid
      · obtain ⟨c, hc, aid, haid, rfl⟩ := hcase
        exact hspec.current c hc aid haid
      · refine (hspec.untouched k ?_).trans ?_
        · intro c hc aid haid hk
          exact hcase ⟨c, hc, aid, haid, hk⟩
        · cases hatt : s.attempts[k]? with
          | none => rfl
          | some a =>
              rw [Option.map_some, if_neg]
              -- a live attempt of the fleet is some child's current one
              rintro ⟨haf, hl⟩
              obtain ⟨ch, hch, hcur⟩ := hinv.linked.owner _ _ hatt hl
              obtain ⟨hcf, hcc⟩ := hwf.child_ids hch
              refine hcase ⟨ch, (hmem hch (hcf.trans haf)).1, a.attemptId, hcur, ?_⟩
              rw [hcc]
              exact (hwf.attempt _ _ hatt).1

/-! ## Targeted edits -/

theorem fencedPlan_inl {rev : U64} {o : PlanMutateOutcome}
    (h : fencedPlan f rev s = .ok (.inl o)) : ∀ v, o ≠ .mutated v := by
  unfold fencedPlan at h
  simp only [bind_ok, okOr_ok, guard_ok, return_ok, pure_ok] at h
  rcases h with ⟨-, h⟩ | ⟨-, row, -, plan, -, -, ⟨-, h⟩ | ⟨-, h⟩⟩
  · obtain rfl := Sum.inl.inj h
    simp
  · obtain rfl := Sum.inl.inj h
    simp
  · cases h

theorem fencedPlan_inr {rev : U64} {plan : DurablePlan} (hwf : WellFormed s.toTables)
    (h : fencedPlan f rev s = .ok (.inr plan)) :
    (∃ fl, s.fleets[f]? = some fl ∧ fleetIsLive fl = true) ∧ s.plans[f]? = some plan ∧
      plan.revision = rev := by
  unfold fencedPlan at h
  simp only [bind_ok, okOr_ok, guard_ok, return_ok, pure_ok] at h
  rcases h with ⟨-, h⟩ | ⟨hlive, row, hrow, plan', hdec, -, ⟨-, h⟩ | ⟨hrev, h⟩⟩
  · cases h
  · cases h
  · obtain rfl := Sum.inr.inj h
    rw [hwf.decode_plan hrow] at hdec
    obtain rfl := Option.some.inj hdec
    exact ⟨(hwf.fleetLive_iff f).mp (by simpa using hlive), hrow, by simpa using hrev⟩

/-- A targeted edit of one task leaves the graph as it is. -/
theorem modifyFirst_graph {p : PlanTask → Bool} {g : PlanTask → PlanTask}
    (hg : ∀ t, (g t).taskId = t.taskId ∧ (g t).deps = t.deps) :
    ∀ {l l' : List PlanTask}, modifyFirst p g l = some l' →
      l'.map (fun t => (t.taskId, t.deps)) = l.map (fun t => (t.taskId, t.deps))
  | [], _, h => by cases h
  | a :: l, l', h => by
      unfold modifyFirst at h
      split at h
      · obtain rfl := Option.some.inj h
        simp [(hg a).1, (hg a).2]
      · obtain ⟨l₁, hl₁, rfl⟩ := Option.map_eq_some_iff.mp h
        simpa using modifyFirst_graph hg hl₁

/-- The plan a targeted edit stores. -/
def edited (plan : DurablePlan) (tasks : List PlanTask) (revision : U64) : DurablePlan :=
  { plan with tasks := tasks, revision := revision, schemaVersion := schemaVersionCurrent }

theorem edit_effect {fl : FleetRecord} {plan : DurablePlan} {tasks : List PlanTask} {rev : U64}
    (hwf : WellFormed t) (hfl : t.fleets[f]? = some fl) (hlive : fleetIsLive fl = true)
    (hplan : t.plans[f]? = some plan)
    (hgraph : tasks.map (fun t => (t.taskId, t.deps)) =
      plan.tasks.map (fun t => (t.taskId, t.deps)))
    (hrev : rev.toNat = plan.revision.toNat + 1) :
    Effect f .edit t { t with plans := t.plans.insert f (edited plan tasks rev) } :=
  .edit hfl hlive hplan hgraph (hwf.plan _ _ hplan).1 rfl hrev

theorem retitleTask_spec {rev : U64} {taskId title detail : String} {r : PlanMutateOutcome}
    (hinv : Inv s.toTables) (h : retitleTask f rev taskId title detail s = .ok (r, s')) :
    ((∀ v, r ≠ .mutated v) ∧ s' = s) ∨
    ∃ plan tasks rev', r = .mutated rev' ∧ s.plans[f]? = some plan ∧ plan.revision = rev ∧
      modifyFirst (fun t => t.taskId == taskId)
        (fun t => { t with title := title, detail := detail }) plan.tasks = some tasks ∧
      rev'.toNat = rev.toNat + 1 ∧
      s' = { s with plans := s.plans.insert f (edited plan tasks rev') } ∧
      Effect f .edit s.toTables s'.toTables := by
  unfold retitleTask at h
  simp only [bind_ok] at h
  obtain ⟨-, -, fenced, hfenced, h⟩ := h
  split at h
  · obtain ⟨rfl, rfl⟩ := Prod.mk.inj (pure_ok.mp h)
    exact Or.inl ⟨fencedPlan_inl hfenced, rfl⟩
  · next plan =>
      obtain ⟨⟨fl, hfl, hlive⟩, hplan, hrev⟩ := fencedPlan_inr hinv.wf hfenced
      simp only [bind_ok, okOr_ok, pure_ok] at h
      obtain ⟨tasks, htasks, rev', hrev', h⟩ := h
      obtain ⟨rfl, rfl⟩ := Prod.mk.inj h
      rw [checkedAdd_eq_some] at hrev'
      refine Or.inr ⟨plan, tasks, rev', rfl, hplan, hrev, htasks, hrev', rfl, ?_⟩
      refine edit_effect hinv.wf hfl hlive hplan (modifyFirst_graph (by simp) htasks) ?_
      rw [hrev]
      exact hrev'

theorem setTaskGrant_spec {rev : U64} {taskId : String} {grant : WorkerGrant} {nowMs : U64}
    {r : PlanMutateOutcome} (hinv : Inv s.toTables)
    (h : setTaskGrant f rev taskId grant nowMs s = .ok (r, s')) :
    ((∀ v, r ≠ .mutated v) ∧ s' = s) ∨
    ∃ plan tasks rev' t₁, r = .mutated rev' ∧ s.plans[f]? = some plan ∧ plan.revision = rev ∧
      modifyFirst (fun t => t.taskId == taskId) (fun t => { t with grant := grant })
        plan.tasks = some tasks ∧
      rev'.toNat = rev.toNat + 1 ∧ s'.plans = s.plans.insert f (edited plan tasks rev') ∧
      Effect f .edit s.toTables t₁ ∧ t₁.children = s.children ∧
      Effect f (.grant taskId) t₁ s'.toTables ∧ SameLogs s s' := by
  have hwf := hinv.wf
  unfold setTaskGrant at h
  simp only [bind_ok, hwf.child?_eq] at h
  obtain ⟨-, -, fenced, hfenced, h⟩ := h
  split at h
  · obtain ⟨rfl, rfl⟩ := Prod.mk.inj (pure_ok.mp h)
    exact Or.inl ⟨fencedPlan_inl hfenced, rfl⟩
  next plan =>
    obtain ⟨⟨fl, hfl, hlive⟩, hplan, hrev⟩ := fencedPlan_inr hwf hfenced
    simp only [bind_ok, okOr_ok] at h
    obtain ⟨tasks, htasks, h⟩ := h
    split at h
    · next ch hch =>
        simp only [return_ok, bind_ok, okOr_ok, pure_ok] at h
        rcases h with ⟨-, h⟩ | ⟨hids, rev', hrev', h⟩
        · obtain ⟨rfl, rfl⟩ := Prod.mk.inj h
          exact Or.inl ⟨by simp, rfl⟩
        obtain ⟨rfl, rfl⟩ := Prod.mk.inj h
        rw [checkedAdd_eq_some] at hrev'
        simp only [ne_eq, not_or, not_not] at hids
        obtain ⟨-, rfl, hst⟩ := hids
        have he : Effect f .edit s.toTables
            { s.toTables with plans := s.plans.insert f (edited plan tasks rev') } := by
          refine edit_effect hwf hfl hlive hplan (modifyFirst_graph (by simp) htasks) ?_
          rw [hrev]
          exact hrev'
        refine Or.inr ⟨plan, tasks, rev', _, rfl, hplan, hrev, htasks, hrev', rfl, he, rfl, ?_,
          rfl, rfl⟩
        exact move_child (hwf.effect he) hfl hch (.grant nowMs hlive hst)
    · obtain ⟨rfl, rfl⟩ := Prod.mk.inj (pure_ok.mp h)
      exact Or.inl ⟨by simp, rfl⟩

/-! ## Denial -/

/-- The plan after a denial: the revision bumped, or no plan to bump. -/
def PlanBumped (f : String) (s s' : Store) : Prop :=
  (s.plans[f]? = none ∧ s'.plans = s.plans) ∨
  ∃ plan rev', s.plans[f]? = some plan ∧ rev'.toNat = plan.revision.toNat + 1 ∧
    s'.plans = s.plans.insert f (edited plan plan.tasks rev')

theorem denyEscalation_spec {c reason : String} {nowMs : U64} {eid : String}
    {r : DenyEscalationOutcome} (hinv : Inv s.toTables)
    (h : denyEscalation f c reason nowMs eid s = .ok (r, s')) :
    (r.settled = .superseded ∧ s' = s) ∨
    (r.settled = .completed ∧ PlanBumped f s s' ∧
      (∃ t₁, Effect f (.deny c) s.toTables t₁ ∧
        (s'.toTables = t₁ ∨ Effect f .edit t₁ s'.toTables) ∧ s'.children = t₁.children) ∧
      Appended (outboxEvent .childDone f (some c) none eid) s s') := by
  have hwf := hinv.wf
  have hrej : ((⟨.superseded, false⟩ : DenyEscalationOutcome), s) = (r, s') →
      r.settled = .superseded ∧ s' = s := by
    intro heq
    obtain ⟨rfl, rfl⟩ := Prod.mk.inj heq
    exact ⟨rfl, rfl⟩
  unfold denyEscalation at h
  simp only [bind_ok, return_ok, hwf.child?_eq, hwf.plan?_eq] at h
  obtain ⟨-, -, ⟨-, h⟩ | ⟨hlive, h⟩⟩ := h
  · exact Or.inl (hrej h)
  split at h
  · next ch hch =>
      simp only [return_ok] at h
      rcases h with ⟨-, h⟩ | ⟨hids, h⟩
      · exact Or.inl (hrej h)
      simp only [ne_eq, not_or, not_not] at hids
      obtain ⟨-, rfl, hst⟩ := hids
      obtain ⟨fl, hfl, hl⟩ := (hwf.fleetLive_iff f).mp (by simpa using hlive)
      have hdeny := move_child hwf hfl hch
        (.deny ("escalation denied: " ++ reason) nowMs hl hst)
      cases hplan : s.plans[f]? with
      | none =>
          simp only [hplan, Option.filter_none, bind_ok, pure_ok] at h
          obtain ⟨⟨plans, un⟩, heq, ⟨seq, outbox⟩, happ, h⟩ := h
          obtain ⟨rfl, rfl⟩ := Prod.mk.inj heq
          obtain ⟨rfl, rfl⟩ := Prod.mk.inj h
          exact Or.inr ⟨rfl, Or.inl ⟨hplan, rfl⟩, ⟨_, hdeny, Or.inl rfl, rfl⟩, rfl, seq, happ⟩
      | some plan =>
          obtain rfl := (hwf.plan _ _ hplan).1
          simp only [hplan, Option.filter_some, beq_self_eq_true, if_true, bind_ok, okOr_ok,
            pure_ok] at h
          obtain ⟨rev', hrev', ⟨plans, un⟩, heq, ⟨seq, outbox⟩, happ, h⟩ := h
          rw [checkedAdd_eq_some] at hrev'
          obtain ⟨rfl, rfl⟩ := Prod.mk.inj heq
          obtain ⟨rfl, rfl⟩ := Prod.mk.inj h
          refine Or.inr ⟨rfl, Or.inr ⟨plan, rev', hplan, hrev', rfl⟩, ⟨_, hdeny, Or.inr ?_, rfl⟩,
            rfl, seq, happ⟩
          exact edit_effect (hwf.effect hdeny) hfl hl hplan rfl hrev'
  · exact Or.inl (hrej (pure_ok.mp h))

/-! ## Recovery -/

theorem reclaimable_some {nowMs epoch : U64} {ch : FleetChildRecord} {fl : FleetRecord}
    {att : Attempt} (hwf : WellFormed t) (h : reclaimable nowMs epoch t ch = some (fl, att)) :
    (ch.status = .launching ∨ ch.status = .running) ∧
      ch.currentAttemptId = some att.attemptId ∧ t.fleets[ch.fleetId]? = some fl ∧
      t.attempts[attemptKey ch.childId att.attemptId]? = some att ∧
      att.fleetId = ch.fleetId ∧ att.status.isLive = true := by
  unfold reclaimable at h
  simp only [hwf.fleet?_eq, hwf.attempt?_eq, Option.bind_eq_bind] at h
  split at h
  · cases h
  next hst =>
    simp only [Option.bind_eq_some_iff] at h
    obtain ⟨aid, hcur, fl', hfl, h⟩ := h
    split at h
    · cases h
    simp only [Option.bind_eq_some_iff] at h
    obtain ⟨att', hatt, h⟩ := h
    split at h
    · cases h
    next hids =>
      split at h
      · cases h
      next hl =>
        split at h
        · cases h
        · obtain ⟨rfl, rfl⟩ := Prod.mk.inj (Option.some.inj h)
          simp only [ne_eq, not_or, not_not] at hids
          obtain ⟨-, rfl, haf⟩ := hids
          refine ⟨?_, hcur, hfl, hatt, haf, by simpa using hl⟩
          by_contra hne
          simp only [not_or] at hne
          exact hst hne

/-- One iteration of recovery: nothing, or the child's attempt is reclaimed. -/
theorem reclaim_spec {nowMs epoch : U64} {ch : FleetChildRecord} {r : List InterruptedAttempt}
    (hinv : Inv s.toTables) (hch : s.children[childKey ch.fleetId ch.childId]? = some ch)
    (h : reclaim nowMs epoch ch s = .ok (r, s')) :
    s' = s ∨
    (∃ aid live, Effect ch.fleetId (.reclaim ch.childId aid live) s.toTables s'.toTables) ∧
      SameLogs s s' ∧
      ∀ k, k ≠ childKey ch.fleetId ch.childId → s'.children[k]? = s.children[k]? := by
  unfold reclaim at h
  split at h
  · obtain ⟨-, rfl⟩ := Prod.mk.inj (Except.ok.inj h)
    exact Or.inl rfl
  · next fl att hrec =>
      obtain ⟨hst, hcur, hfl, hatt, haf, hl⟩ := reclaimable_some hinv.wf hrec
      simp only [bind_ok, okOr_ok, pure_ok] at h
      obtain ⟨res, hres, h⟩ := h
      obtain ⟨-, rfl⟩ := Prod.mk.inj h
      refine Or.inr ⟨⟨att.attemptId, fleetIsLive fl, ?_⟩, ⟨rfl, rfl⟩, ?_⟩
      · exact move_update hinv.wf hfl hch hatt haf (.reclaim hst hcur hl hres)
      · intro k hk
        exact Table.get_insert_ne _ _ hk.symm

theorem reclaimAll_spec {nowMs epoch : U64} :
    ∀ (cs : List FleetChildRecord) {s s' : Store} {r : List InterruptedAttempt},
      Inv s.toTables → (cs.map (fun c => childKey c.fleetId c.childId)).Nodup →
      (∀ c ∈ cs, s.children[childKey c.fleetId c.childId]? = some c) →
      reclaimAll nowMs epoch cs s = .ok (r, s') →
      Effects (fun _ k => ∃ c a live, k = .reclaim c a live) s.toTables s'.toTables ∧
        SameLogs s s'
  | [], s, s', r, _, _, _, h => by
      obtain ⟨-, rfl⟩ := Prod.mk.inj (Except.ok.inj h)
      exact ⟨.refl, rfl, rfl⟩
  | c :: cs, s, s', r, hinv, hnd, hrows, h => by
      unfold reclaimAll at h
      simp only [bind_ok, pure_ok] at h
      obtain ⟨⟨r₁, s₁⟩, h₁, ⟨r₂, s₂⟩, h₂, h⟩ := h
      obtain ⟨-, rfl⟩ := Prod.mk.inj h
      simp only [List.map_cons, List.nodup_cons] at hnd
      have hrest : ∀ c' ∈ cs, s.children[childKey c'.fleetId c'.childId]? = some c' :=
        fun c' hc' => hrows c' (List.mem_cons_of_mem _ hc')
      rcases reclaim_spec hinv (hrows c List.mem_cons_self) h₁ with
        rfl | ⟨⟨aid, live, he⟩, ⟨hlog, hout⟩, hkeep⟩
      · exact reclaimAll_spec cs hinv hnd.2 hrest h₂
      · have hrows₁ : ∀ c' ∈ cs, s₁.children[childKey c'.fleetId c'.childId]? = some c' := by
          intro c' hc'
          rw [hkeep _ (fun heq => hnd.1 (List.mem_map.mpr ⟨c', hc', heq⟩))]
          exact hrest c' hc'
        obtain ⟨hes, hlog₂, hout₂⟩ := reclaimAll_spec cs (hinv.effect he) hnd.2 hrows₁ h₂
        exact ⟨.trans (.single ⟨_, _, _, rfl⟩ he) hes, hlog₂.trans hlog, hout₂.trans hout⟩

theorem reconcile_spec {nowMs epoch : U64} {r : List InterruptedAttempt} (hinv : Inv s.toTables)
    (h : reconcile nowMs epoch s = .ok (r, s')) :
    Effects (fun _ k => ∃ c a live, k = .reclaim c a live) s.toTables s'.toTables ∧
      SameLogs s s' :=
  reclaimAll_spec _ hinv (ownedChildren_nodup s.children)
    (fun _ hc => (mem_ownedChildren hinv.wf).mp hc) h

/-! ## All operations -/

/-- The effects a call may have. -/
def Op.Allows : Op → String → Kind → Prop
  | .createFleet g _ _ _ _ _ _, f, k => f = g ∧ k = .newFleet
  | .createPlan plan, f, k => f = plan.fleetId ∧ k = .newPlan
  | .createFleetWithPlan _ _ _ _ _ _ plan _, f, k =>
      f = plan.fleetId ∧ (k = .newFleet ∨ k = .newPlan ∨ ∃ c, k = .newChild c)
  | .addChild g c _ _, f, k => f = g ∧ k = .newChild c
  | .markReady g c _, f, k => f = g ∧ k = .promote c
  | .resolveAndCollectReady g _, f, k => f = g ∧ ∃ c, k = .promote c
  | .cancelFleet g _, f, k => f = g ∧ k = .cancel
  | .launchChild g c _ _ _ _ a _, f, k => f = g ∧ k = .launch c a
  | .markRunning c a, _, k => k = .run c a
  | .completeChild g c a v _ actual _ _ _, f, k =>
      f = g ∧ ∃ reserved, k = .complete c a v.isAccepted actual reserved
  | .recordEscalation g c a _ actual _ _ _, f, k =>
      f = g ∧ ∃ reserved, k = .escalate c a actual reserved
  | .replan g _ _ _, f, k => f = g ∧ k = .replan
  | .retitleTask g _ _ _ _, f, k => f = g ∧ k = .edit
  | .setTaskGrant g _ c _ _, f, k => f = g ∧ (k = .edit ∨ k = .grant c)
  | .denyEscalation g c _ _ _, f, k => f = g ∧ (k = .edit ∨ k = .deny c)
  | .reconcile _ _, _, k => ∃ c a live, k = .reclaim c a live
  | .appendEvent _, _, _ => False
  | .claimNext _ _ _ _, _, _ => False
  | .ack _ _ _, _, _ => False
  | .appendDecision _ _ _ _ _, _, _ => False

theorem tagged_ok {α : Type} {g : α → Ret} {x : Except StoreError (α × Store)} {r : Ret} :
    tagged g x = .ok (r, s') ↔ ∃ a, x = .ok (a, s') ∧ r = g a := by
  unfold tagged
  split
  · next a s₁ =>
      simp only [Except.ok.injEq, Prod.mk.injEq]
      constructor
      · rintro ⟨rfl, rfl⟩
        exact ⟨a, ⟨rfl, rfl⟩, rfl⟩
      · rintro ⟨a', ⟨rfl, rfl⟩, rfl⟩
        exact ⟨rfl, rfl⟩
  · simp

theorem tagged_error {α : Type} {g : α → Ret} {x : Except StoreError (α × Store)}
    {e : StoreError} : tagged g x = .error e ↔ x = .error e := by
  unfold tagged
  split <;> simp

theorem taggedUnit_ok {x : Except StoreError Store} {r : Ret} :
    taggedUnit x = .ok (r, s') ↔ x = .ok s' ∧ r = .unit := by
  unfold taggedUnit
  split
  · simp [and_comm, eq_comm]
  · simp

/-- The log operations leave the state tables alone. -/
theorem appendEvent_tables {event : OutboxEvent} {seq : U64}
    (h : appendEvent event s = .ok (seq, s')) : s'.toTables = s.toTables := by
  unfold appendEvent at h
  simp only [bind_ok, pure_ok] at h
  obtain ⟨-, -, ⟨seq', outbox⟩, -, h⟩ := h
  obtain ⟨-, rfl⟩ := Prod.mk.inj h
  rfl

theorem claimNext_tables {consumer : String} {nowMs ttlMs : U64} {token : String}
    {r : Option OutboxEvent} (h : claimNext consumer nowMs ttlMs token s = .ok (r, s')) :
    s'.toTables = s.toTables := by
  unfold claimNext at h
  simp only at h
  split at h
  · simp only [bind_ok, pure_ok] at h
    obtain ⟨expires, -, h⟩ := h
    obtain ⟨-, rfl⟩ := Prod.mk.inj h
    rfl
  · obtain ⟨-, rfl⟩ := Prod.mk.inj (pure_ok.mp h)
    rfl

theorem ack_tables {seq : U64} {consumer token : String} {r : AckOutcome}
    (h : ack seq consumer token s = .ok (r, s')) : s'.toTables = s.toTables := by
  unfold ack at h
  simp only [bind_ok, return_ok, pure_ok] at h
  obtain ⟨-, -, ev, -, ⟨-, h⟩ | ⟨-, h⟩⟩ := h
  · obtain ⟨-, rfl⟩ := Prod.mk.inj h
    rfl
  · obtain ⟨-, rfl⟩ := Prod.mk.inj h
    rfl

theorem appendDecision_tables {actor note : String} {kind : DecisionKind} {nowMs seq : U64}
    (h : appendDecision f actor kind note nowMs s = .ok (seq, s')) :
    s'.toTables = s.toTables ∧ s'.outbox = s.outbox := by
  unfold appendDecision at h
  simp only [bind_ok, pure_ok] at h
  obtain ⟨-, -, next, -, h⟩ := h
  obtain ⟨-, rfl⟩ := Prod.mk.inj h
  exact ⟨rfl, rfl⟩

/-- **The refinement.**  A transaction that commits performed effects its call
allows, one after the other. -/
theorem Op.run_effects {op : Op} {r : Ret} (hinv : Inv s.toTables) (hfresh : op.Fresh s)
    (h : op.run s = .ok (r, s')) : Effects op.Allows s.toTables s'.toTables := by
  cases op with
  | createFleet =>
      obtain ⟨h, -⟩ := taggedUnit_ok.mp h
      exact .single ⟨rfl, rfl⟩ (createFleet_spec h).1
  | createPlan plan =>
      obtain ⟨o, h, -⟩ := tagged_ok.mp h
      rcases createPlan_spec hinv h with ⟨-, rfl⟩ | ⟨-, he, -⟩
      · exact .refl
      · exact .single ⟨rfl, rfl⟩ he
  | createFleetWithPlan =>
      obtain ⟨h, -⟩ := taggedUnit_ok.mp h
      exact (createFleetWithPlan_spec h).1
  | addChild =>
      obtain ⟨h, -⟩ := taggedUnit_ok.mp h
      exact .single ⟨rfl, rfl⟩ (addChild_spec hinv h).1
  | markReady =>
      obtain ⟨o, h, -⟩ := tagged_ok.mp h
      rcases markReady_spec hinv h with ⟨-, rfl⟩ | ⟨-, he, -⟩
      · exact .refl
      · exact .single ⟨rfl, rfl⟩ he
  | resolveAndCollectReady =>
      obtain ⟨o, h, -⟩ := tagged_ok.mp h
      exact (resolveAndCollectReady_spec hinv h).1
  | cancelFleet =>
      obtain ⟨o, h, -⟩ := tagged_ok.mp h
      rcases cancelFleet_spec hinv h with ⟨-, rfl⟩ | ⟨-, he, -⟩
      · exact .refl
      · exact .single ⟨rfl, rfl⟩ he
  | launchChild =>
      obtain ⟨o, h, -⟩ := tagged_ok.mp h
      rcases launchChild_spec hinv hfresh h with ⟨-, rfl⟩ | ⟨-, he, -⟩
      · exact .refl
      · exact .single ⟨rfl, rfl⟩ he
  | markRunning =>
      obtain ⟨o, h, -⟩ := tagged_ok.mp h
      rcases markRunning_spec hinv h with ⟨-, rfl⟩ | ⟨-, ⟨g, he⟩, -⟩
      · exact .refl
      · exact .single rfl he
  | completeChild =>
      obtain ⟨o, h, -⟩ := tagged_ok.mp h
      rcases completeChild_spec hinv h with ⟨-, rfl⟩ | ⟨-, x, -, he, -⟩
      · exact .refl
      · exact .single ⟨rfl, _, rfl⟩ he
  | recordEscalation =>
      obtain ⟨o, h, -⟩ := tagged_ok.mp h
      rcases recordEscalation_spec hinv h with ⟨-, rfl⟩ | ⟨-, x, -, he, -⟩
      · exact .refl
      · exact .single ⟨rfl, _, rfl⟩ he
  | replan =>
      obtain ⟨o, h, -⟩ := tagged_ok.mp h
      rcases replan_spec hinv h with ⟨-, rfl⟩ | ⟨R, -⟩
      · exact .refl
      · exact .single ⟨rfl, rfl⟩ (.replan R)
  | retitleTask =>
      obtain ⟨o, h, -⟩ := tagged_ok.mp h
      rcases retitleTask_spec hinv h with ⟨-, rfl⟩ | ⟨_, _, _, -, -, -, -, -, -, he⟩
      · exact .refl
      · exact .single ⟨rfl, rfl⟩ he
  | setTaskGrant =>
      obtain ⟨o, h, -⟩ := tagged_ok.mp h
      rcases setTaskGrant_spec hinv h with
        ⟨-, rfl⟩ | ⟨_, _, _, t₁, -, -, -, -, -, -, he₁, -, he₂, -⟩
      · exact .refl
      · exact .trans (.single ⟨rfl, Or.inl rfl⟩ he₁) (.single ⟨rfl, Or.inr rfl⟩ he₂)
  | denyEscalation =>
      obtain ⟨o, h, -⟩ := tagged_ok.mp h
      rcases denyEscalation_spec hinv h with ⟨-, rfl⟩ | ⟨-, -, ⟨t₁, he₁, he₂, -⟩, -⟩
      · exact .refl
      · refine .trans (.single ⟨rfl, Or.inr rfl⟩ he₁) ?_
        rcases he₂ with rfl | he₂
        · exact .refl
        · exact .single ⟨rfl, Or.inl rfl⟩ he₂
  | reconcile =>
      obtain ⟨o, h, -⟩ := tagged_ok.mp h
      exact (reconcile_spec hinv h).1
  | appendEvent =>
      obtain ⟨o, h, -⟩ := tagged_ok.mp h
      rw [appendEvent_tables h]
      exact .refl
  | claimNext =>
      obtain ⟨o, h, -⟩ := tagged_ok.mp h
      rw [claimNext_tables h]
      exact .refl
  | ack =>
      obtain ⟨o, h, -⟩ := tagged_ok.mp h
      rw [ack_tables h]
      exact .refl
  | appendDecision =>
      obtain ⟨o, h, -⟩ := tagged_ok.mp h
      rw [(appendDecision_tables h).1]
      exact .refl

theorem Step.effects {c : Call} (hinv : Inv s.toTables) (h : Step s c s') :
    Effects c.op.Allows s.toTables s'.toTables := by
  rcases h.cases with ⟨r, -, hrun⟩ | ⟨e, -, -, rfl⟩
  · exact Op.run_effects hinv h.1 hrun
  · exact .refl

theorem Inv.step {c : Call} (hinv : Inv s.toTables) (h : Step s c s') : Inv s'.toTables :=
  hinv.effects (h.effects hinv)

/-- **Every reachable state satisfies the invariant.** -/
theorem Inv.run {es : List Call} (hinv : Inv s.toTables) (h : Run Step s es s') :
    Inv s'.toTables :=
  h.invariant (I := fun s : Store => Inv s.toTables) (fun _ _ _ hi hs => hi.step hs) hinv

theorem StoreReachable.inv (h : StoreReachable s) : Inv s.toTables :=
  Reachable.invariant (I := fun s : Store => Inv s.toTables) Inv.empty
    (fun _ _ _ hi hs => hi.step hs) h

end Octos.Fleet
