/-
# `Octos.Fleet.Progress` — no wedge

If nothing of a live fleet is in flight, blocked or failed, its plan is done or
something can be launched.  The argument is a minimal element: of the tasks
that have not succeeded, one depends on succeeded tasks only, because the graph
is acyclic and closed (`ValidGraph.exists_minimal`).  Its child is `Ready`, or
`Planned` and promoted by the very pass that collects it; the correspondence of
plan and children excludes every other status.
-/
import Octos.Fleet.Correspond

namespace Octos.Fleet

variable {f : String} {t : Tables} {s s' : Store} {w : World}

/-! ## What the pass collects -/

theorem promotable_iff {succeeded : List String} {c : FleetChildRecord} :
    promotable succeeded c = true ↔
      c.status = .planned ∧ c.currentAttemptId = none ∧ ∀ d ∈ c.deps, d ∈ succeeded := by
  simp [promotable, and_assoc]

theorem launchable_iff {c : FleetChildRecord} :
    launchable c = true ↔ c.status = .ready ∧ c.currentAttemptId = none := by
  simp [launchable]

/-- The collected ids: the promoted children and the launchable ones. -/
theorem mem_collectReady {succeeded : List String} {nowMs : U64} {id : String} :
    ∀ (cs : List FleetChildRecord) (children : Table String FleetChildRecord),
      id ∈ (collectReady f succeeded nowMs cs children).2 ↔
        ∃ c ∈ cs, c.childId = id ∧ (promotable succeeded c = true ∨ launchable c = true) := by
  intro cs
  induction cs with
  | nil =>
      intro children
      simp [collectReady]
  | cons c cs ih =>
      intro children
      rw [collectReady]
      split
      · next hp =>
          -- what was just promoted is launchable
          have hl : launchable { c with status := .ready, updatedAtMs := nowMs } = true :=
            launchable_iff.mpr ⟨rfl, (promotable_iff.mp hp).2.1⟩
          simp only [hl, if_true, List.mem_cons, ih, exists_eq_or_imp, hp, true_or, and_true,
            eq_comm (a := id)]
      · next hp =>
          split
          · next hl =>
              simp only [List.mem_cons, ih, exists_eq_or_imp, hl, or_true, and_true,
                eq_comm (a := id)]
          · next hl => simp [ih, hp, hl]

/-- The pass leaves other keys alone. -/
theorem collectReady_other {succeeded : List String} {nowMs : U64} {k : String} :
    ∀ (cs : List FleetChildRecord) (children : Table String FleetChildRecord),
      (∀ c ∈ cs, childKey f c.childId ≠ k) →
      (collectReady f succeeded nowMs cs children).1[k]? = children[k]? := by
  intro cs
  induction cs with
  | nil => exact fun _ _ => rfl
  | cons c cs ih =>
      intro children hne
      have hrest : ∀ c' ∈ cs, childKey f c'.childId ≠ k :=
        fun c' hc' => hne c' (List.mem_cons_of_mem _ hc')
      rw [collectReady]
      split
      · exact (ih _ hrest).trans (Table.get_insert_ne _ _ (hne c List.mem_cons_self))
      · exact ih _ hrest

/-- The row of a visited child after the pass. -/
theorem collectReady_row {succeeded : List String} {nowMs : U64} {c : FleetChildRecord} :
    ∀ (cs : List FleetChildRecord) (children : Table String FleetChildRecord),
      (cs.map (fun c => childKey f c.childId)).Nodup →
      (∀ c ∈ cs, children[childKey f c.childId]? = some c) → c ∈ cs →
      (collectReady f succeeded nowMs cs children).1[childKey f c.childId]? =
        some (if promotable succeeded c then { c with status := .ready, updatedAtMs := nowMs }
          else c) := by
  intro cs
  induction cs with
  | nil =>
      intro children _ _ h
      cases h
  | cons x cs ih =>
      intro children hnd hrows hc
      simp only [List.map_cons, List.nodup_cons, List.mem_map, not_exists, not_and] at hnd
      have hne : ∀ c' ∈ cs, childKey f c'.childId ≠ childKey f x.childId := hnd.1
      have hrest : ∀ c' ∈ cs, children[childKey f c'.childId]? = some c' :=
        fun c' hc' => hrows c' (List.mem_cons_of_mem _ hc')
      rw [collectReady]
      rcases List.mem_cons.mp hc with rfl | hc
      · split
        · exact (collectReady_other cs _ hne).trans (Table.get_insert_self _ _ _)
        · exact (collectReady_other cs _ hne).trans (hrows c List.mem_cons_self)
      · by_cases hx : promotable succeeded x = true
        · rw [if_pos hx]
          refine ih _ hnd.2 ?_ hc
          intro c' hc'
          exact (Table.get_insert_ne _ _ (hne c' hc').symm).trans (hrest c' hc')
        · rw [if_neg hx]
          exact ih _ hnd.2 hrest hc

/-- Every collected id names a `Ready` row without an attempt. -/
theorem collectReady_ready {succeeded : List String} {nowMs : U64} {id : String}
    {cs : List FleetChildRecord} {children : Table String FleetChildRecord}
    (hnd : (cs.map (fun c => childKey f c.childId)).Nodup)
    (hrows : ∀ c ∈ cs, children[childKey f c.childId]? = some c)
    (hid : id ∈ (collectReady f succeeded nowMs cs children).2) :
    ∃ ch, (collectReady f succeeded nowMs cs children).1[childKey f id]? = some ch ∧
      ch.status = .ready ∧ ch.currentAttemptId = none := by
  obtain ⟨c, hc, rfl, hready⟩ := (mem_collectReady cs children).mp hid
  refine ⟨_, collectReady_row cs children hnd hrows hc, ?_⟩
  by_cases hp : promotable succeeded c = true
  · rw [if_pos hp]
    exact ⟨rfl, (promotable_iff.mp hp).2.1⟩
  · rw [if_neg hp]
    exact launchable_iff.mp (hready.resolve_left hp)

/-- The children of the fleet, as the pass reads them. -/
def fleetChildren (f : String) (t : Tables) : List FleetChildRecord :=
  (ownedChildren t.children).filter (fun c => c.fleetId == f)

theorem mem_fleetChildren (hwf : WellFormed t) {c : FleetChildRecord} :
    c ∈ fleetChildren f t ↔ c.fleetId = f ∧ t.children[childKey f c.childId]? = some c :=
  (resolve_rows hwf).2.1 c

theorem fleetChildren_keys (hwf : WellFormed t) :
    ((fleetChildren f t).map (fun c => childKey f c.childId)).Nodup := by
  obtain ⟨hnd, -, -⟩ := resolve_rows hwf (f := f)
  have hkeys : (fleetChildren f t).map (fun c => childKey f c.childId) =
      (fleetChildren f t).map (fun c => childKey c.fleetId c.childId) := by
    refine List.map_congr_left ?_
    intro c hc
    rw [((mem_fleetChildren hwf).mp hc).1]
  rw [hkeys]
  exact hnd

/-- `ready_tasks` on a live fleet: the pass over its children. -/
theorem readyTasks_live {nowMs : U64} (hwf : WellFormed s.toTables) {fl : FleetRecord}
    (hfl : s.fleets[f]? = some fl) (hlive : fleetIsLive fl = true) :
    readyTasks f nowMs s = .ok
      ((collectReady f (succeededIds (fleetChildren f s.toTables)) nowMs
          (fleetChildren f s.toTables) s.children).2.insertionSort (· ≤ ·),
        { s with children := (collectReady f (succeededIds (fleetChildren f s.toTables)) nowMs
          (fleetChildren f s.toTables) s.children).1 }) := by
  have hsafe : ensureKeySafe [f] = .ok () := by
    refine ensureKeySafe_ok.mpr ?_
    intro k hk
    obtain rfl := List.mem_singleton.mp hk
    exact (hwf.fleet _ _ hfl).2.2
  have hl : s.fleetLive f = true := (hwf.fleetLive_iff f).mpr ⟨fl, hfl, hlive⟩
  unfold readyTasks resolveAndCollectReady
  rw [hsafe]
  simp only [hl, bind, Except.bind, Bool.not_true, Bool.false_eq_true, if_false]
  rfl

/-! ## Completion -/

theorem mem_listChildren (hwf : WellFormed s.toTables) {c : FleetChildRecord} :
    c ∈ listChildren f s ↔ c.fleetId = f ∧ s.children[childKey f c.childId]? = some c := by
  rw [listChildren, List.mem_insertionSort]
  simp only [List.mem_filter, List.mem_map, beq_iff_eq]
  constructor
  · rintro ⟨⟨⟨k, c'⟩, hmem, rfl⟩, rfl⟩
    obtain ⟨row, hrow, hdec⟩ := mem_decodedRows.mp hmem
    rw [hwf.decode_child hrow] at hdec
    obtain rfl := Option.some.inj hdec
    exact ⟨rfl, hwf.child_key hrow⟩
  · rintro ⟨rfl, hrow⟩
    exact ⟨⟨(_, c), mem_decodedRows.mpr ⟨c, hrow, hwf.decode_child hrow⟩, rfl⟩, rfl⟩

/-- Every task of the plan has a `Succeeded` child. -/
def AllSucceeded (t : Tables) (f : String) (p : DurablePlan) : Prop :=
  ∀ task ∈ p.tasks, ∃ ch, t.children[childKey f task.taskId]? = some ch ∧ ch.status = .succeeded

/-- A fleet with its plan loads. -/
theorem load_eq (hwf : WellFormed s.toTables) {fl : FleetRecord} {p : DurablePlan}
    (hfl : s.fleets[f]? = some fl) (hp : s.plans[f]? = some p) :
    load f s = .ok (⟨fl, some p, listChildren f s⟩, p) := by
  obtain ⟨hid, -, hsafe⟩ := hwf.fleet _ _ hfl
  have hkey : ensureKeySafe [f] = .ok () := by
    refine ensureKeySafe_ok.mpr ?_
    intro k hk
    obtain rfl := List.mem_singleton.mp hk
    exact hsafe
  unfold load loadSnapshot
  rw [hkey]
  simp only [hwf.fleet?_eq, hwf.plan?_eq, hfl, hp, Option.filter_some, hid,
    (hwf.plan _ _ hp).1, beq_self_eq_true, if_true]
  rfl

/-- **`is_complete` says what it is for.** -/
theorem isComplete_iff (hwf : WellFormed s.toTables) {fl : FleetRecord} {p : DurablePlan}
    (hfl : s.fleets[f]? = some fl) (hp : s.plans[f]? = some p) :
    isComplete f s = .ok true ↔ AllSucceeded s.toTables f p := by
  unfold isComplete
  rw [load_eq hwf hfl hp]
  show Except.ok _ = Except.ok true ↔ _
  rw [Except.ok.injEq, List.all_eq_true]
  refine forall₂_congr ?_
  intro task _
  cases hfind : (listChildren f s).reverse.find? (fun c => c.childId == task.taskId) with
  | none =>
      simp only [Bool.false_eq_true, false_iff, not_exists, not_and]
      intro ch hch
      obtain ⟨hf, hid⟩ := hwf.child_ids hch
      have hmem : ch ∈ (listChildren f s).reverse :=
        List.mem_reverse.mpr ((mem_listChildren hwf).mpr ⟨hf, hid ▸ hch⟩)
      exact absurd (by simp [hid]) (List.find?_eq_none.mp hfind ch hmem)
  | some c =>
      have hid : c.childId = task.taskId := by simpa using List.find?_some hfind
      obtain ⟨-, hrow⟩ := (mem_listChildren hwf).mp
        (List.mem_reverse.mp (List.mem_of_find?_eq_some hfind))
      rw [hid] at hrow
      simp only [beq_iff_eq]
      constructor
      · intro hst
        exact ⟨c, hrow, hst⟩
      · rintro ⟨ch, hch, hst⟩
        obtain rfl := Option.some.inj (hrow.symm.trans hch)
        exact hst

/-! ## No wedge -/

/-- The statuses that need the executor, the operator or the keeper. -/
def ChildStatus.engaged : ChildStatus → Bool
  | .launching | .running | .blocked | .failed => true
  | _ => false

/-- Of a plan that is not done and not engaged, some child is collected. -/
theorem Corresponds.exists_ready {p : DurablePlan} (hinv : Inv t) (hcor : Corresponds t f p)
    (hidle : ∀ task ∈ p.tasks, ∀ ch, t.children[childKey f task.taskId]? = some ch →
      ch.status.engaged = false) (hopen : ¬ AllSucceeded t f p) :
    ∃ c ∈ fleetChildren f t,
      promotable (succeededIds (fleetChildren f t)) c = true ∨ launchable c = true := by
  unfold AllSucceeded at hopen
  push Not at hopen
  obtain ⟨task, htask, hnot⟩ := hopen
  -- a task that has not succeeded and depends on succeeded tasks only
  obtain ⟨u, hu, hPu, hdeps⟩ := hcor.valid.exists_minimal
    (P := fun id => ∀ ch, t.children[childKey f id]? = some ch → ch.status ≠ .succeeded)
    htask hnot
  obtain ⟨ch, hch, hchdeps, hnc⟩ := hcor.task u hu
  obtain ⟨hf, hid⟩ := hinv.wf.child_ids hch
  have hmem : ch ∈ fleetChildren f t := (mem_fleetChildren hinv.wf).mpr ⟨hf, hid ▸ hch⟩
  have hcur : ch.status = .planned ∨ ch.status = .ready → ch.currentAttemptId = none := by
    intro hst
    cases hc : ch.currentAttemptId with
    | none => rfl
    | some a =>
        refine absurd ?_ (hinv.linked.pointee_ne hch a hc)
        rcases hst with h | h <;> simp [h, pointee]
  have hmet : ∀ d ∈ ch.deps, d ∈ succeededIds (fleetChildren f t) := by
    intro d hd
    have hsome := hdeps d (hchdeps ▸ hd)
    push Not at hsome
    obtain ⟨dep, hdep, hst⟩ := hsome
    obtain ⟨hdf, hdid⟩ := hinv.wf.child_ids hdep
    exact mem_succeededIds.mpr
      ⟨dep, (mem_fleetChildren hinv.wf).mpr ⟨hdf, hdid ▸ hdep⟩, hdid, hst⟩
  refine ⟨ch, hmem, ?_⟩
  cases hst : ch.status with
  | planned => exact Or.inl (promotable_iff.mpr ⟨hst, hcur (Or.inl hst), hmet⟩)
  | ready => exact Or.inr (launchable_iff.mpr ⟨hst, hcur (Or.inr hst)⟩)
  | succeeded => exact absurd hst (hPu ch hch)
  | cancelled => exact absurd hst hnc
  | _ =>
      have hengaged := hidle u hu ch hch
      rw [hst] at hengaged
      cases hengaged

/-- **No wedge.**  In every reachable world, `ready_tasks` on a live fleet
returns, and every id it returns names a `Ready` child without an attempt; if no
task of the plan is in flight, blocked or failed, the plan is complete or the
list is not empty. -/
theorem no_wedge (h : KeeperReachable w) {fl : FleetRecord} {p : DurablePlan}
    (hfl : w.store.fleets[f]? = some fl) (hlive : fleetIsLive fl = true)
    (hp : w.store.plans[f]? = some p) (nowMs : U64) :
    ∃ ids s', readyTasks f nowMs w.store = .ok (ids, s') ∧
      (∀ id ∈ ids, ∃ ch, s'.children[childKey f id]? = some ch ∧ ch.status = .ready ∧
        ch.currentAttemptId = none) ∧
      ((∀ task ∈ p.tasks, ∀ ch, w.store.children[childKey f task.taskId]? = some ch →
          ch.status.engaged = false) →
        (isComplete f w.store = .ok true ∧ AllSucceeded w.store.toTables f p) ∨ ids ≠ []) := by
  have hinv := h.inv
  refine ⟨_, _, readyTasks_live hinv.wf hfl hlive, ?_, ?_⟩
  · intro id hid
    refine collectReady_ready (fleetChildren_keys hinv.wf) ?_ (List.mem_insertionSort _ |>.mp hid)
    intro c hc
    exact ((mem_fleetChildren hinv.wf).mp hc).2
  · intro hidle
    obtain ⟨q, hq, hcor⟩ := h.mirrored f fl hfl hlive
    obtain rfl := Option.some.inj (hp.symm.trans hq)
    by_cases hall : AllSucceeded w.store.toTables f p
    · exact Or.inl ⟨(isComplete_iff hinv.wf hfl hp).mpr hall, hall⟩
    · obtain ⟨c, hc, hready⟩ := hcor.exists_ready hinv hidle hall
      refine Or.inr (List.ne_nil_of_mem (a := c.childId) ((List.mem_insertionSort _).mpr ?_))
      exact (mem_collectReady _ _).mpr ⟨c, hc, rfl, hready⟩

/-- One task done, the next one waiting for its promotion. -/
def secondTaskDue : List Move :=
  [.create ⟨"f1", ⟨"ctl"⟩, none, none, "default", ⟨100, 0, 0, false⟩, "ship",
      [⟨"c1", "one", "", [], [], ⟨.none, [], .workspace, none, false⟩⟩,
       ⟨"c2", "two", "", ["c1"], [], ⟨.none, [], .workspace, none, false⟩⟩], 0⟩,
   .call (.launchChild "f1" "c1" 10 1 7 1000 "a1" "e1"),
   .call (.markRunning "c1" "a1"),
   .call (.completeChild "f1" "c1" "a1" (.accepted []) ⟨"", true, 5, [], none⟩ 5 7 2 "e2")]

theorem no_wedge_second_task :
    isComplete "f1" (World.empty.play secondTaskDue).2.store = .ok false ∧
      ∃ ids s', readyTasks "f1" 3 (World.empty.play secondTaskDue).2.store = .ok (ids, s') ∧
        ids ≠ [] := by
  obtain ⟨fl, hfl, hlive⟩ : ∃ fl,
      (World.empty.play secondTaskDue).2.store.fleets["f1"]? = some fl ∧
        fleetIsLive fl = true := (Option.any_eq_true _ _).mp (by rfl)
  obtain ⟨p, hp, hidle⟩ : ∃ p, (World.empty.play secondTaskDue).2.store.plans["f1"]? = some p ∧
      (p.tasks.all (fun task => (World.empty.play secondTaskDue).2.store.children[
        childKey "f1" task.taskId]?.all (fun ch => !ch.status.engaged))) = true :=
    (Option.any_eq_true _ _).mp (by rfl)
  have hopen : isComplete "f1" (World.empty.play secondTaskDue).2.store = .ok false := by
    rfl
  obtain ⟨ids, s', hrun, -, hwedge⟩ :=
    no_wedge ⟨_, World.play_run secondTaskDue World.empty⟩ hfl hlive hp 3
  have hquiet : ∀ task ∈ p.tasks, ∀ ch, (World.empty.play secondTaskDue).2.store.children[
      childKey "f1" task.taskId]? = some ch → ch.status.engaged = false := by
    intro task htask ch hch
    have hrow := List.all_eq_true.mp hidle task htask
    rw [hch] at hrow
    simpa using hrow
  refine ⟨hopen, ids, s', hrun, ?_⟩
  rcases hwedge hquiet with ⟨hdone, -⟩ | hids
  · rw [hopen] at hdone
    cases hdone
  · exact hids

end Octos.Fleet
