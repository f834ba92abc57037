/-
# `Octos.Fleet.Refine` — the lifecycle operations refine the effects

One theorem per operation of the store: from a state that satisfies the
invariant, a transaction that commits either changed nothing or performed the
effects named here.  These theorems, and those of `Octos.Fleet.RefinePlan` for
the plan writers, are the only places where the bodies of the operations are
opened; everything later goes through them.
-/
import Octos.Fleet.Preserve

namespace Octos.Fleet

variable {s s' : Store}

/-- The two logs are as they were. -/
def SameLogs (s s' : Store) : Prop :=
  s'.decisionLog = s.decisionLog ∧ s'.outbox = s.outbox

/-- The outbox got one event, the decision log nothing. -/
def Appended (event : OutboxEvent) (s s' : Store) : Prop :=
  s'.decisionLog = s.decisionLog ∧ ∃ seq, appendOutbox s.outbox event = .ok (seq, s'.outbox)

/-! ## Creation -/

theorem createFleet_spec {f : String} {key : SessionKey} {root : Option String} {profile : String}
    {budget : U64} {hard : Bool} {nowMs : U64}
    (h : createFleet f key root profile budget hard nowMs s = .ok s') :
    Effect f .newFleet s.toTables s'.toTables ∧ SameLogs s s' := by
  unfold createFleet at h
  simp only [bind_ok, ensureKeySafe_ok, guard_ok, pure_ok] at h
  obtain ⟨-, hsafe, hnone, rfl⟩ := h
  exact ⟨.newFleet (hsafe f (by simp)) (by simpa using hnone) rfl rfl rfl rfl rfl, rfl, rfl⟩

theorem createPlan_spec {plan : DurablePlan} {r : PlanMutateOutcome} (hinv : Inv s.toTables)
    (h : createPlan plan s = .ok (r, s')) :
    (r = .rejectedFleetTerminal ∧ s' = s) ∨
    (r = .mutated plan.revision ∧ Effect plan.fleetId .newPlan s.toTables s'.toTables ∧
      SameLogs s s') := by
  unfold createPlan at h
  simp only [bind_ok, okOr_ok, ensureKeySafe_ok, guard_ok, return_ok, pure_ok] at h
  obtain ⟨-, hsafe, row, hrow, fl, hfl, -, ⟨-, h⟩ | ⟨hlive, hnone, h⟩⟩ := h
  · obtain ⟨rfl, rfl⟩ := Prod.mk.inj h
    exact Or.inl ⟨rfl, rfl⟩
  · obtain ⟨rfl, rfl⟩ := Prod.mk.inj h
    rw [hinv.wf.decode_fleet hrow] at hfl
    obtain rfl := Option.some.inj hfl
    exact Or.inr ⟨rfl, .newPlan hrow (by simpa using hlive) (by simpa using hnone) rfl rfl hsafe,
      rfl, rfl⟩

theorem mem_planKeys_task {f : String} {tasks : List PlanTask} {task : PlanTask}
    (h : task ∈ tasks) : task.taskId ∈ planKeys f tasks :=
  List.mem_cons_of_mem _ (List.mem_flatMap.mpr ⟨task, h, List.mem_cons_self⟩)

theorem mem_planKeys_dep {f d : String} {tasks : List PlanTask} {task : PlanTask}
    (h : task ∈ tasks) (hd : d ∈ task.deps) : d ∈ planKeys f tasks :=
  List.mem_cons_of_mem _ (List.mem_flatMap.mpr ⟨task, h, List.mem_cons_of_mem _ hd⟩)

/-- The loop over the tasks of a genesis plan is a sequence of new children. -/
theorem createChildren_effects {f : String} {nowMs : U64} {fl : FleetRecord}
    (hlive : fleetIsLive fl = true) :
    ∀ (tasks : List PlanTask) (t : Tables) {children : Table String FleetChildRecord},
      t.fleets[f]? = some fl → (∀ c ∈ planKeys f tasks, keyComponentIsSafe c = true) →
      createChildren f nowMs tasks t.children = .ok children →
      Effects (fun g k => g = f ∧ ∃ c, k = .newChild c) t { t with children := children }
  | [], t, children, _, _, h => by
      obtain rfl := Except.ok.inj h
      exact .refl
  | task :: tasks, t, children, hfl, hsafe, h => by
      unfold createChildren at h
      split at h
      · cases h
      · next hnone =>
          have hnone : t.children[childKey f task.taskId]? = none := by simpa using hnone
          have hhead : Effect f (.newChild task.taskId) t { t with
              children := t.children.insert (childKey f task.taskId)
                (freshChild f task.taskId task.deps (genesisStatus task.deps) 0 nowMs) } :=
            .newChild hfl hlive hnone (hsafe _ (mem_planKeys_task List.mem_cons_self))
              (fun d hd => hsafe _ (mem_planKeys_dep List.mem_cons_self hd))
          have hrest : ∀ c ∈ planKeys f tasks, keyComponentIsSafe c = true := by
            intro c hc
            refine hsafe c ?_
            rcases List.mem_cons.mp hc with rfl | hc
            · exact List.mem_cons_self
            · exact List.mem_cons_of_mem _ (by simp [List.flatMap_cons, hc])
          exact .trans (.single ⟨rfl, _, rfl⟩ hhead)
            (createChildren_effects hlive tasks _ hfl hrest h)

theorem createFleetWithPlan_spec {key : SessionKey} {root : Option String} {hint : Option Bool}
    {profile : String} {budget : U64} {hard : Bool} {plan : DurablePlan} {nowMs : U64}
    (h : createFleetWithPlan key root hint profile budget hard plan nowMs s = .ok s') :
    Effects (fun g k => g = plan.fleetId ∧
        (k = .newFleet ∨ k = .newPlan ∨ ∃ c, k = .newChild c)) s.toTables s'.toTables ∧
      SameLogs s s' ∧ s.fleets[plan.fleetId]? = none ∧
      s'.plans = s.plans.insert plan.fleetId { plan with schemaVersion := schemaVersionCurrent } ∧
      createChildren plan.fleetId nowMs plan.tasks s.children = .ok s'.children := by
  unfold createFleetWithPlan at h
  simp only [bind_ok, ensureKeySafe_ok, guard_ok, pure_ok] at h
  obtain ⟨-, hsafe, hf, hp, children, hch, rfl⟩ := h
  have hf : s.fleets[plan.fleetId]? = none := by simpa using hf
  have hp : s.plans[plan.fleetId]? = none := by simpa using hp
  refine ⟨?_, ⟨rfl, rfl⟩, hf, rfl, hch⟩
  -- the fleet row first, then its plan, then one child per task
  let t₁ : Tables := { s.toTables with
    fleets := s.fleets.insert plan.fleetId
      (freshFleet plan.fleetId key root hint profile budget hard nowMs) }
  have h₁ : Effect plan.fleetId .newFleet s.toTables t₁ :=
    .newFleet (hsafe _ List.mem_cons_self) hf rfl rfl rfl rfl rfl
  have h₂ : Effect plan.fleetId .newPlan t₁ { t₁ with
      plans := s.plans.insert plan.fleetId
        { plan with schemaVersion := schemaVersionCurrent } } :=
    .newPlan (Table.get_insert_self _ _ _) rfl hp rfl rfl hsafe
  refine .trans (.single ⟨rfl, Or.inl rfl⟩ h₁)
    (.trans (.single ⟨rfl, Or.inr (Or.inl rfl)⟩ h₂) ?_)
  refine Effects.mono ?_
    (createChildren_effects rfl plan.tasks _ (Table.get_insert_self _ _ _) hsafe hch)
  rintro g k ⟨hg, hk⟩
  exact ⟨hg, Or.inr (Or.inr hk)⟩

theorem addChild_spec {f c : String} {deps : List String} {nowMs : U64} (hinv : Inv s.toTables)
    (h : addChild f c deps nowMs s = .ok s') :
    Effect f (.newChild c) s.toTables s'.toTables ∧ SameLogs s s' := by
  unfold addChild at h
  simp only [bind_ok, okOr_ok, ensureKeySafe_ok, guard_ok, pure_ok] at h
  obtain ⟨-, hsafe, row, hrow, fl, hfl, hlive, hnone, rfl⟩ := h
  rw [hinv.wf.decode_fleet hrow] at hfl
  obtain rfl := Option.some.inj hfl
  refine ⟨.newChild hrow (by simpa using hlive) (by simpa using hnone) (hsafe c (by simp)) ?_,
    rfl, rfl⟩
  intro d hd
  exact hsafe d (by simp [hd])

/-! ## Readiness -/

theorem depMet_iff {t : Tables} (hwf : WellFormed t) {f d : String} :
    depMet t f d = true ↔
      ∃ ch, t.children[childKey f d]? = some ch ∧ ch.status = .succeeded := by
  unfold depMet
  rw [hwf.child?_eq]
  cases hch : t.children[childKey f d]? with
  | none => simp
  | some ch => simp [(hwf.child_ids hch).1, (hwf.child_ids hch).2]

theorem all_depMet_iff {t : Tables} (hwf : WellFormed t) {f : String} {deps : List String} :
    deps.all (depMet t f) = true ↔ t.DepsMet f deps := by
  simp only [List.all_eq_true, depMet_iff hwf]
  exact Iff.rfl

/-- A move that leaves the fleet row and the attempts alone. -/
theorem move_child {t : Tables} {f c : String} {k : Kind} {fl : FleetRecord}
    {ch ch' : FleetChildRecord} (hwf : WellFormed t) (hfl : t.fleets[f]? = some fl)
    (hch : t.children[childKey f c]? = some ch)
    (hmove : ChildMove (t.DepsMet f ch.deps) fl ch k none fl ch' none) :
    Effect f k t { t with children := t.children.insert (childKey f c) ch' } := by
  have hslot : Slot t ch none none := trivial
  have he : Effect f k t (t.put fl ch' none) := .move hfl hch hslot hmove
  obtain ⟨hf, hc⟩ := hwf.child_ids hch
  have hkc := hmove.childKept
  have hput : t.put fl ch' none = { t with children := t.children.insert (childKey f c) ch' } := by
    unfold Tables.put
    rw [Table.insert_same ((hwf.fleet _ _ hfl).1 ▸ hfl), hkc.fleetId, hkc.childId, hf, hc]
  rw [hput] at he
  exact he

theorem markReady_spec {f c : String} {nowMs : U64} {r : Bool} (hinv : Inv s.toTables)
    (h : markReady f c nowMs s = .ok (r, s')) :
    (r = false ∧ s' = s) ∨
    (r = true ∧ Effect f (.promote c) s.toTables s'.toTables ∧ SameLogs s s') := by
  unfold markReady at h
  simp only [bind_ok, okOr_ok, ensureKeySafe_ok, guard_ok, return_ok, pure_ok] at h
  obtain ⟨-, hsafe, ⟨-, h⟩ | ⟨hlive, ch, hch, ch', hdec, hid, h⟩⟩ := h
  · obtain ⟨rfl, rfl⟩ := Prod.mk.inj h
    exact Or.inl ⟨rfl, rfl⟩
  · rw [hinv.wf.decode_child hch] at hdec
    obtain rfl := Option.some.inj hdec
    rcases h with ⟨-, h⟩ | ⟨hst, h⟩
    · obtain ⟨rfl, rfl⟩ := Prod.mk.inj h
      exact Or.inl ⟨rfl, rfl⟩
    · rcases h with ⟨hall, h⟩ | ⟨-, h⟩
      · obtain ⟨rfl, rfl⟩ := Prod.mk.inj h
        obtain ⟨fl, hfl, hl⟩ := (hinv.wf.fleetLive_iff f).mp (by simpa using hlive)
        obtain ⟨rfl, rfl⟩ := hinv.wf.child_ids hch
        refine Or.inr ⟨rfl, move_child hinv.wf hfl hch ?_, rfl, rfl⟩
        exact .promote nowMs hl (by simpa using hst) ((all_depMet_iff hinv.wf).mp hall)
      · obtain ⟨rfl, rfl⟩ := Prod.mk.inj h
        exact Or.inl ⟨rfl, rfl⟩

theorem mem_decodedRows {α : Type} [Versioned α] {t : Table String α} {k : String} {v : α} :
    (k, v) ∈ decodedRows t ↔ ∃ row, t[k]? = some row ∧ decodeRow row = some v := by
  simp only [decodedRows, List.mem_filterMap, Option.map_eq_some_iff]
  constructor
  · rintro ⟨⟨j, row⟩, hm, w, hw, heq⟩
    obtain ⟨rfl, rfl⟩ := Prod.mk.inj heq
    exact ⟨row, Table.mem_rows.mp hm, hw⟩
  · rintro ⟨row, hrow, hv⟩
    exact ⟨(k, row), Table.mem_rows.mpr hrow, v, hv, rfl⟩

/-- The whole-table scan yields every child, each from its own row. -/
theorem mem_ownedChildren {t : Tables} (hwf : WellFormed t) {ch : FleetChildRecord} :
    ch ∈ ownedChildren t.children ↔
      t.children[childKey ch.fleetId ch.childId]? = some ch := by
  simp only [ownedChildren, List.mem_map, List.mem_filter, beq_iff_eq]
  constructor
  · rintro ⟨⟨k, c⟩, ⟨hm, hk⟩, rfl⟩
    obtain ⟨row, hrow, hdec⟩ := mem_decodedRows.mp hm
    rw [hwf.decode_child hrow] at hdec
    obtain rfl := Option.some.inj hdec
    exact hwf.child_key hrow
  · intro hch
    exact ⟨(_, ch), ⟨mem_decodedRows.mpr ⟨ch, hch, hwf.decode_child hch⟩, rfl⟩, rfl⟩

/-- The scan visits no key twice. -/
theorem ownedChildren_nodup (children : Table String FleetChildRecord) :
    ((ownedChildren children).map (fun c => childKey c.fleetId c.childId)).Nodup := by
  have hsub : ((decodedRows children).map Prod.fst).Sublist (children.toList.map Prod.fst) := by
    unfold decodedRows
    induction children.toList with
    | nil => exact .slnil
    | cons r rows ih =>
        rw [List.filterMap_cons]
        cases decodeRow r.2 with
        | none => exact ih.cons _
        | some v => exact ih.cons_cons _
  have hkeys : (ownedChildren children).map (fun c => childKey c.fleetId c.childId) =
      ((decodedRows children).filter
        (fun r => childKey r.2.fleetId r.2.childId == r.1)).map Prod.fst := by
    unfold ownedChildren
    rw [List.map_map]
    refine List.map_congr_left ?_
    intro r hr
    simpa using (List.mem_filter.mp hr).2
  rw [hkeys]
  exact ((List.filter_sublist.map _).trans hsub).nodup (Table.rows_keys_nodup children)

/-- The collect loop is a sequence of promotions. -/
theorem collectReady_effects {f : String} {succeeded : List String} {nowMs : U64}
    {fl : FleetRecord} (hlive : fleetIsLive fl = true) :
    ∀ (cs : List FleetChildRecord) (t : Tables), WellFormed t → t.fleets[f]? = some fl →
      (cs.map (fun c => childKey c.fleetId c.childId)).Nodup →
      (∀ c ∈ cs, c.fleetId = f ∧ t.children[childKey f c.childId]? = some c) →
      t.DepsMet f succeeded →
      Effects (fun g k => g = f ∧ ∃ c, k = .promote c) t
        { t with children := (collectReady f succeeded nowMs cs t.children).1 }
  | [], t, _, _, _, _, _ => .refl
  | c :: cs, t, hwf, hfl, hnd, hrows, hsucc => by
      simp only [List.map_cons, List.nodup_cons] at hnd
      obtain ⟨hf, hc⟩ := hrows c List.mem_cons_self
      have hrest : ∀ c' ∈ cs, c'.fleetId = f ∧ t.children[childKey f c'.childId]? = some c' :=
        fun c' hc' => hrows c' (List.mem_cons_of_mem _ hc')
      unfold collectReady
      split
      · next hprom =>
          simp only [promotable, Bool.and_eq_true, beq_iff_eq, List.all_eq_true,
            decide_eq_true_eq] at hprom
          obtain ⟨⟨hst, -⟩, hdeps⟩ := hprom
          have hmet : t.DepsMet f c.deps := fun d hd => hsucc d (hdeps d hd)
          have he : Effect f (.promote c.childId) t { t with
              children := t.children.insert (childKey f c.childId)
                { c with status := .ready, updatedAtMs := nowMs } } :=
            move_child hwf hfl hc (.promote nowMs hlive hst hmet)
          refine .trans (.single ⟨rfl, _, rfl⟩ he) ?_
          refine collectReady_effects hlive cs _ (hwf.effect he) hfl hnd.2 ?_ ?_
          · intro c' hc'
            obtain ⟨hf', hrow'⟩ := hrest c' hc'
            refine ⟨hf', (Table.get_insert_ne _ _ ?_).trans hrow'⟩
            intro hk
            refine hnd.1 (List.mem_map.mpr ⟨c', hc', ?_⟩)
            rw [hf', ← hk, hf]
          · refine hsucc.mono ?_
            intro j ch hch hsuc
            refine (Table.get_insert_ne _ _ ?_).trans hch
            intro hk
            rw [← hk, hc] at hch
            obtain rfl := Option.some.inj hch
            rw [hst] at hsuc
            cases hsuc
      · exact collectReady_effects hlive cs t hwf hfl hnd.2 hrest hsucc

theorem mem_succeededIds {rows : List FleetChildRecord} {d : String} :
    d ∈ succeededIds rows ↔ ∃ ch ∈ rows, ch.childId = d ∧ ch.status = .succeeded := by
  simp only [succeededIds, List.mem_map, List.mem_filter, beq_iff_eq]
  constructor
  · rintro ⟨ch, ⟨hm, hst⟩, hid⟩
    exact ⟨ch, hm, hid, hst⟩
  · rintro ⟨ch, hm, hid, hst⟩
    exact ⟨ch, ⟨hm, hst⟩, hid⟩

/-- The rows `resolve_and_collect_ready` works on. -/
theorem resolve_rows {t : Tables} (hwf : WellFormed t) {f : String} :
    let recs := (ownedChildren t.children).filter (fun c => c.fleetId == f)
    (recs.map (fun c => childKey c.fleetId c.childId)).Nodup ∧
      (∀ c, c ∈ recs ↔ c.fleetId = f ∧ t.children[childKey f c.childId]? = some c) ∧
      t.DepsMet f (succeededIds recs) := by
  intro recs
  have hmem : ∀ c, c ∈ recs ↔ c.fleetId = f ∧ t.children[childKey f c.childId]? = some c := by
    intro c
    simp only [recs, List.mem_filter, mem_ownedChildren hwf, beq_iff_eq]
    constructor
    · rintro ⟨hc, rfl⟩
      exact ⟨rfl, hc⟩
    · rintro ⟨rfl, hc⟩
      exact ⟨hc, rfl⟩
  refine ⟨(List.filter_sublist.map _).nodup (ownedChildren_nodup t.children), hmem, ?_⟩
  intro d hd
  obtain ⟨ch, hch, rfl, hst⟩ := mem_succeededIds.mp hd
  exact ⟨ch, ((hmem ch).mp hch).2, hst⟩

theorem resolveAndCollectReady_spec {f : String} {nowMs : U64} {r : List String}
    (hinv : Inv s.toTables) (h : resolveAndCollectReady f nowMs s = .ok (r, s')) :
    Effects (fun g k => g = f ∧ ∃ c, k = .promote c) s.toTables s'.toTables ∧
      SameLogs s s' := by
  unfold resolveAndCollectReady at h
  simp only [bind_ok, ensureKeySafe_ok, return_ok, pure_ok] at h
  obtain ⟨-, -, ⟨-, h⟩ | ⟨hlive, h⟩⟩ := h
  · obtain ⟨rfl, rfl⟩ := Prod.mk.inj h
    exact ⟨.refl, rfl, rfl⟩
  · obtain ⟨rfl, rfl⟩ := Prod.mk.inj h
    obtain ⟨fl, hfl, hl⟩ := (hinv.wf.fleetLive_iff f).mp (by simpa using hlive)
    obtain ⟨hnd, hmem, hsucc⟩ := resolve_rows hinv.wf (f := f)
    exact ⟨collectReady_effects hl _ s.toTables hinv.wf hfl hnd (fun c hc => (hmem c).mp hc) hsucc,
      rfl, rfl⟩

theorem cancelFleet_spec {f : String} {nowMs : U64} {r : Bool} (hinv : Inv s.toTables)
    (h : cancelFleet f nowMs s = .ok (r, s')) :
    (r = false ∧ s' = s) ∨
    (r = true ∧ Effect f .cancel s.toTables s'.toTables ∧ SameLogs s s') := by
  unfold cancelFleet at h
  simp only [bind_ok, ensureKeySafe_ok, hinv.wf.fleet?_eq] at h
  obtain ⟨-, -, h⟩ := h
  split at h
  · obtain ⟨rfl, rfl⟩ := Prod.mk.inj (pure_ok.mp h)
    exact Or.inl ⟨rfl, rfl⟩
  · next fl hfl =>
      simp only [guard_ok, return_ok, pure_ok] at h
      obtain ⟨-, ⟨-, h⟩ | ⟨hlive, h⟩⟩ := h
      · obtain ⟨rfl, rfl⟩ := Prod.mk.inj h
        exact Or.inl ⟨rfl, rfl⟩
      · obtain ⟨rfl, rfl⟩ := Prod.mk.inj h
        exact Or.inr ⟨rfl, .cancel nowMs hfl (by simpa using hlive), rfl, rfl⟩

/-! ## Launch, run, settle -/

/-- The id of a launch is on no attempt row. -/
def FreshId (t : Tables) (attemptId : String) : Prop :=
  ∀ (k : String) (a : Attempt), t.attempts[k]? = some a → a.attemptId ≠ attemptId

/-- A move that writes all three rows, under the keys the operations use. -/
theorem move_rows {t : Tables} {f c aid : String} {k : Kind} {fl fl' : FleetRecord}
    {ch ch' : FleetChildRecord} {o : Option Attempt} {a' : Attempt} (hwf : WellFormed t)
    (hfl : t.fleets[f]? = some fl) (hch : t.children[childKey f c]? = some ch)
    (haid : a'.attemptId = aid) (hslot : Slot t ch o (some a'))
    (hmove : ChildMove (t.DepsMet f ch.deps) fl ch k o fl' ch' (some a')) :
    Effect f k t { t with
      fleets := t.fleets.insert f fl'
      children := t.children.insert (childKey f c) ch'
      attempts := t.attempts.insert (attemptKey c aid) a' } := by
  have he := Effect.move hfl hch hslot hmove
  obtain ⟨hf, hc⟩ := hwf.child_ids hch
  have hkc := hmove.childKept
  have hac := (Slot.written hwf hch hslot hmove rfl).2.1
  have hid : fl'.fleetId = f := hmove.fleetKept.fleetId.trans (hwf.fleet _ _ hfl).1
  unfold Tables.put at he
  rw [hid, hkc.fleetId, hkc.childId, hf, hc] at he
  simp only [hac, haid] at he
  exact he

/-- A move that updates the attempt it works on. -/
theorem move_update {t : Tables} {f c : String} {k : Kind} {fl fl' : FleetRecord}
    {ch ch' : FleetChildRecord} {a a' : Attempt} (hwf : WellFormed t)
    (hfl : t.fleets[f]? = some fl) (hch : t.children[childKey f c]? = some ch)
    (hatt : t.attempts[attemptKey c a.attemptId]? = some a) (hf : a.fleetId = f)
    (hmove : ChildMove (t.DepsMet f ch.deps) fl ch k (some a) fl' ch' (some a')) :
    Effect f k t { t with
      fleets := t.fleets.insert f fl'
      children := t.children.insert (childKey f c) ch'
      attempts := t.attempts.insert (attemptKey c a.attemptId) a' } := by
  obtain ⟨hcf, hcc⟩ := hwf.child_ids hch
  obtain ⟨hac, -⟩ := hwf.attempt_ids (hwf.child_safe hch).2 hatt
  have hslot : Slot t ch (some a) (some a') :=
    ⟨hf.trans hcf.symm, hac.trans hcc.symm, by rw [hac]; exact hatt⟩
  obtain ⟨_, ho, hkept⟩ := hmove.attemptKept rfl
  obtain rfl := Option.some.inj ho
  exact move_rows hwf hfl hch hkept.attemptId hslot hmove

theorem launchChild_spec {f c : String} {projected nowMs epoch ttl : U64} {aid eid : String}
    {r : LaunchOutcome} (hinv : Inv s.toTables) (hfresh : FreshId s.toTables aid)
    (h : launchChild f c projected nowMs epoch ttl aid eid s = .ok (r, s')) :
    ((∀ a, r ≠ .launched a) ∧ s' = s) ∨
    (r = .launched aid ∧ Effect f (.launch c aid) s.toTables s'.toTables ∧
      Appended (outboxEvent .childLaunching f (some c) (some aid) eid) s s') := by
  have hrej : ∀ {r' : LaunchOutcome}, (∀ a, r' ≠ .launched a) → (r', s) = (r, s') →
      (∀ a, r ≠ .launched a) ∧ s' = s := by
    intro r' hr' heq
    obtain ⟨rfl, rfl⟩ := Prod.mk.inj heq
    exact ⟨hr', rfl⟩
  unfold launchChild at h
  simp only [bind_ok, ensureKeySafe_ok, hinv.wf.child?_eq, hinv.wf.fleet?_eq] at h
  obtain ⟨-, -, h⟩ := h
  split at h
  · next ch hch =>
      obtain ⟨rfl, rfl⟩ := hinv.wf.child_ids hch
      simp only [return_ok] at h
      rcases h with ⟨-, h⟩ | ⟨-, h⟩
      · exact Or.inl (hrej (by simp) h)
      split at h
      · rw [return_ok, pure_ok] at h
        rcases h with ⟨-, h⟩ | ⟨-, h⟩
        · exact Or.inl (hrej (by simp) h)
        · exact Or.inl (hrej (by simp) h)
      next hst =>
        rw [return_ok] at h
        rcases h with ⟨-, h⟩ | ⟨hcur, h⟩
        · exact Or.inl (hrej (by simp) h)
        split at h
        · next fl hfl =>
            simp only [return_ok, bind_ok, okOr_ok, pure_ok] at h
            rcases h with ⟨-, h⟩ | ⟨-, ⟨-, h⟩ | ⟨hlive, ⟨-, h⟩ | ⟨hadm, h⟩⟩⟩
            · exact Or.inl (hrej (by simp) h)
            · exact Or.inl (hrej (by simp) h)
            · exact Or.inl (hrej (by simp) h)
            obtain ⟨reserved, hres, expires, -, used, -, ⟨seq, outbox⟩, happ, h⟩ := h
            obtain ⟨rfl, rfl⟩ := Prod.mk.inj h
            refine Or.inr ⟨rfl, ?_, rfl, seq, happ⟩
            refine move_rows hinv.wf hfl hch rfl (o := none) ⟨rfl, rfl, rfl, hfresh⟩ ?_
            exact .launch (freshAttempt ch.fleetId ch.childId aid fl.generation ⟨epoch, expires⟩
              projected nowMs) (by simpa using hlive) (by simpa using hst) (by simpa using hcur)
              (by simpa [freshAttempt] using hadm) hres rfl rfl
        · exact Or.inl (hrej (by simp) (pure_ok.mp h))
  · exact Or.inl (hrej (by simp) (pure_ok.mp h))

theorem markRunning_spec {c aid : String} {r : MarkRunningOutcome} (hinv : Inv s.toTables)
    (h : markRunning c aid s = .ok (r, s')) :
    (r = .superseded ∧ s' = s) ∨
    (r = .running ∧ (∃ f, Effect f (.run c aid) s.toTables s'.toTables) ∧ SameLogs s s') := by
  have hrej : (MarkRunningOutcome.superseded, s) = (r, s') → r = .superseded ∧ s' = s := by
    intro heq
    obtain ⟨rfl, rfl⟩ := Prod.mk.inj heq
    exact ⟨rfl, rfl⟩
  unfold markRunning at h
  simp only [bind_ok, ensureKeySafe_ok, hinv.wf.child?_eq, hinv.wf.fleet?_eq,
    hinv.wf.attempt?_eq] at h
  obtain ⟨-, hsafe, h⟩ := h
  split at h
  · next att hatt =>
      rw [return_ok] at h
      rcases h with ⟨-, h⟩ | ⟨-, h⟩
      · exact Or.inl (hrej h)
      split at h
      · next ch hch =>
          rw [return_ok] at h
          rcases h with ⟨-, h⟩ | ⟨-, h⟩
          · exact Or.inl (hrej h)
          split at h
          · next fl hfl =>
              simp only [return_ok, pure_ok] at h
              rcases h with ⟨-, h⟩ | ⟨-, ⟨-, h⟩ | ⟨hlive, ⟨-, h⟩ | ⟨hpred, h⟩⟩⟩
              · exact Or.inl (hrej h)
              · exact Or.inl (hrej h)
              · exact Or.inl (hrej h)
              obtain ⟨rfl, rfl⟩ := Prod.mk.inj h
              refine Or.inr ⟨rfl, ⟨att.fleetId, ?_⟩, rfl, rfl⟩
              simp only [ne_eq, not_or, not_not] at hpred
              obtain ⟨hcur, hst, hast, -⟩ := hpred
              obtain ⟨hac, rfl⟩ := hinv.wf.attempt_ids (hsafe c (by simp)) hatt
              obtain ⟨hf, rfl⟩ := hinv.wf.child_ids hch
              have he := move_update hinv.wf hfl hch hatt rfl
                (.run (by simpa using hlive) hst hcur hast)
              rw [Table.insert_same hfl] at he
              exact he
          · exact Or.inl (hrej (pure_ok.mp h))
      · exact Or.inl (hrej (pure_ok.mp h))
  · exact Or.inl (hrej (pure_ok.mp h))

/-- What the settlement fence lets through, in a state that satisfies the
invariant: the child runs this attempt. -/
theorem settleFence_some {f c aid : String} {epoch : U64} {x : Settling} (hinv : Inv s.toTables)
    (h : settleFence f c aid epoch s = some x) :
    s.fleets[f]? = some x.fleet ∧ fleetIsLive x.fleet = true ∧
      s.children[childKey f c]? = some x.child ∧ x.child.status = .running ∧
      x.child.currentAttemptId = some aid ∧ s.attempts[attemptKey c aid]? = some x.attempt ∧
      x.attempt.fleetId = f ∧ x.attempt.childId = c ∧ x.attempt.attemptId = aid ∧
      x.attempt.status = .running ∧ x.attempt.generation = x.fleet.generation ∧
      x.attempt.lease.ownerEpoch = epoch := by
  unfold settleFence at h
  simp only [hinv.wf.child?_eq, hinv.wf.fleet?_eq, hinv.wf.attempt?_eq, Option.bind_eq_bind,
    Option.bind_eq_some_iff] at h
  obtain ⟨ch, hch, att, hatt, fl, hfl, h⟩ := h
  split at h
  · cases h
  next hids =>
    split at h
    · cases h
    next hlive =>
      split at h
      · next hpred =>
          obtain rfl := Option.some.inj h
          simp only [not_or, not_not, ne_eq] at hids
          obtain ⟨-, -, haf, hac, haid, -⟩ := hids
          obtain ⟨hcur, hast, hgen, hep⟩ := hpred
          have hst : ch.status = .running := by
            obtain ⟨att', hatt', -, hp⟩ := hinv.linked.pointer _ _ _ hch hcur
            rw [(hinv.wf.child_ids hch).2, hatt] at hatt'
            obtain rfl := Option.some.inj hatt'
            rw [hast] at hp
            revert hp
            cases ch.status <;> simp [pointee]
          exact ⟨hfl, by simpa using hlive, hch, hst, hcur, hatt, haf, hac, haid, hast, hgen, hep⟩
      · cases h

theorem completeChild_spec {f c aid : String} {verdict : AcceptanceVerdict}
    {snapshot : ChildResultSnapshot} {actual epoch nowMs : U64} {eid : String}
    {r : CompleteOutcome} (hinv : Inv s.toTables)
    (h : completeChild f c aid verdict snapshot actual epoch nowMs eid s = .ok (r, s')) :
    (r = .superseded ∧ s' = s) ∨
    (r = .completed ∧ ∃ x, settleFence f c aid epoch s = some x ∧
      Effect f (.complete c aid verdict.isAccepted actual x.attempt.reservedTokens)
        s.toTables s'.toTables ∧
      Appended (outboxEvent .childDone f (some c) (some aid) eid) s s') := by
  unfold completeChild at h
  simp only [bind_ok, ensureKeySafe_ok] at h
  obtain ⟨-, -, h⟩ := h
  split at h
  · next ch att fl hfence =>
      obtain ⟨hfl, hlive, hch, hst, hcur, hatt, haf, -, rfl, hast, -, -⟩ :=
        settleFence_some hinv hfence
      simp only [bind_ok, okOr_ok, pure_ok] at h
      obtain ⟨com, hcom, res, hres, ccom, hccom, ⟨seq, outbox⟩, happ, h⟩ := h
      obtain ⟨rfl, rfl⟩ := Prod.mk.inj h
      refine Or.inr ⟨rfl, _, hfence, ?_, rfl, seq, happ⟩
      obtain ⟨-, rfl⟩ := hinv.wf.child_ids hch
      exact move_update hinv.wf hfl hch hatt haf
        (.complete verdict snapshot hlive hst hcur hast hcom hres hccom)
  · obtain ⟨rfl, rfl⟩ := Prod.mk.inj (pure_ok.mp h)
    exact Or.inl ⟨rfl, rfl⟩

theorem recordEscalation_spec {f c aid : String} {request : EscalationRequest}
    {actual epoch nowMs : U64} {eid : String} {r : CompleteOutcome} (hinv : Inv s.toTables)
    (h : recordEscalation f c aid request actual epoch nowMs eid s = .ok (r, s')) :
    (r = .superseded ∧ s' = s) ∨
    (r = .completed ∧ ∃ x, settleFence f c aid epoch s = some x ∧
      Effect f (.escalate c aid actual x.attempt.reservedTokens) s.toTables s'.toTables ∧
      Appended (outboxEvent .childDone f (some c) (some aid) eid) s s') := by
  unfold recordEscalation at h
  simp only [bind_ok, ensureKeySafe_ok] at h
  obtain ⟨-, -, h⟩ := h
  split at h
  · next ch att fl hfence =>
      obtain ⟨hfl, hlive, hch, hst, hcur, hatt, haf, -, rfl, hast, -, -⟩ :=
        settleFence_some hinv hfence
      simp only [bind_ok, okOr_ok, pure_ok] at h
      obtain ⟨com, hcom, res, hres, ccom, hccom, ⟨seq, outbox⟩, happ, h⟩ := h
      obtain ⟨rfl, rfl⟩ := Prod.mk.inj h
      refine Or.inr ⟨rfl, _, hfence, ?_, rfl, seq, happ⟩
      obtain ⟨-, rfl⟩ := hinv.wf.child_ids hch
      exact move_update hinv.wf hfl hch hatt haf
        (.escalate request hlive hst hcur hast hcom hres hccom)
  · obtain ⟨rfl, rfl⟩ := Prod.mk.inj (pure_ok.mp h)
    exact Or.inl ⟨rfl, rfl⟩

end Octos.Fleet
