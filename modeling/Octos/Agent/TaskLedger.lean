/-
# `Octos.Agent.TaskLedger` — the task ledger and what a restart makes of it

Every change of a task appends a row to the ledger, a snapshot of the whole task.
A restart keeps the freshest row of each task, by `updated_at` with a tie rule,
and sweeps: a task whose runtime state is not terminal has lost its worker, so it
is failed, or parked when it is a staged peer; the pipeline children of a swept
parent are failed after it.

The sweep looks at the runtime state where activity is a matter of the status.
A row that is active with a terminal runtime state is therefore not swept, and
the end of this module says that there is no other way for a task to stay active.
-/
import Octos.Agent.TaskFanout

namespace Octos.Agent

/-! ## Rows -/

/-- `task_snapshot_advances`. -/
def taskSnapshotAdvances (candidate existing : BackgroundTask) : Bool :=
  if existing.updatedAt < candidate.updatedAt then true
  else if candidate.updatedAt < existing.updatedAt then false
  else
    candidate.status.isTerminal && !existing.status.isTerminal ||
      decide (existing.status = .failed) && existing.failedByObserver &&
        (decide (candidate.status = .completed) ||
          decide (candidate.status = .failed) && !candidate.failedByObserver)

/-- A row of the ledger against the table: kept out, or put in. -/
def Tasks.merge (tasks : Tasks) (row : BackgroundTask) : Tasks :=
  match tasks[row.id]? with
  | some existing => if taskSnapshotAdvances row existing then tasks.insert row.id row else tasks
  | none => tasks.insert row.id row

/-- `load_persisted_tasks`, of the rows that parse. -/
def loadPersistedTasks (rows : List BackgroundTask) : Tasks :=
  rows.foldl Tasks.merge ∅

/-- The tasks a process can have written: registered, changed by calls, restored. -/
inductive BackgroundTask.Written : BackgroundTask → Prop
  | registered (r : Registration) (id : String) (now : Nat) (path : Option String) :
      Written (r.task id now path)
  | called {task task' : BackgroundTask} {c : TaskCall} {now : Nat} (h : Written task)
      (hc : c.apply now task = some task') : Written task'
  | restored {task : BackgroundTask} (h : Written task) (path : String) :
      Written { task with taskLedgerPath := some path }

theorem BackgroundTask.Written.sound {task : BackgroundTask} (h : task.Written) : task.Sound := by
  induction h with
  | registered r id now path =>
      exact sound_persistent.registered r id now path
  | called h hc ih => exact sound_persistent.call ih hc
  | restored h path ih => exact ⟨ih.observed, ih.verdict⟩

/-! ## The restart -/

/-- The merge of a ledger into the table, and the ledger's path on every task. -/
def Tasks.restore (tasks restored : Tasks) (ledgerPath : String) : Tasks :=
  ((restored.toList.map Prod.snd).foldl Tasks.merge tasks).map
    (fun _ task => { task with taskLedgerPath := some ledgerPath })

/-- The tool call ids of the tasks with a live worker. -/
def Tasks.liveToolCallIds (tasks : Tasks) (live : List String) : List String :=
  ((tasks.toList.map Prod.snd).filter (fun task =>
    !task.toolCallId.isEmpty && live.contains task.id)).map BackgroundTask.toolCallId

/-- No worker is behind the task. -/
def Tasks.isOrphan (tasks : Tasks) (live : List String) (task : BackgroundTask) : Bool :=
  !task.runtimeState.isTerminal && !live.contains task.id &&
    !(task.isPipelineNode && (tasks.liveToolCallIds live).contains task.toolCallId)

def Tasks.orphans (tasks : Tasks) (live : List String) : List BackgroundTask :=
  (tasks.toList.map Prod.snd).filter (tasks.isOrphan live)

/-- The verdict of the sweep: staged peers are parked, all others fail. -/
def sweepCall (task : BackgroundTask) : TaskCall :=
  if task.toolName = "peer_handoff" then .markParked "orphaned across restart"
  else .markFailed "orphaned across restart"

/-- The tool call ids whose pipeline children fail with their parent. -/
def cascadeIds (orphans : List BackgroundTask) : List String :=
  ((orphans.filter (fun task => !task.toolCallId.isEmpty && !task.isPipelineNode)).map
    BackgroundTask.toolCallId).eraseDups

/-- `mark_descendants_failed` for each of the ids. -/
def cascade (now : Nat) : Tasks → List String → Tasks
  | tasks, [] => tasks
  | tasks, id :: ids =>
      cascade now
        (tasks.calls now (markDescendantsFailed tasks id "parent task orphaned across restart")) ids

/-- The sweep over these orphans. -/
def sweep (now : Nat) (tasks : Tasks) (orphans : List BackgroundTask) : Tasks :=
  cascade now (tasks.calls now (orphans.map (fun task => (task.id, sweepCall task))))
    (cascadeIds orphans)

/-- `enable_persistence` on a fresh supervisor of a new process, for orphans in the
order the table gives them out. -/
def bootTasks (now : Nat) (rows : List BackgroundTask) (ledgerPath : String)
    (orphans : List BackgroundTask) : Tasks :=
  sweep now (Tasks.restore ∅ (loadPersistedTasks rows) ledgerPath) orphans

/-! ## Loading -/

section Load

variable {tasks : Tasks} {k : String} {t : BackgroundTask}

/-- A task is under its own id. -/
def Tasks.Keyed (tasks : Tasks) : Prop :=
  ∀ (k : String) t, tasks[k]? = some t → t.id = k

theorem of_merge_get {row : BackgroundTask} (h : (tasks.merge row)[k]? = some t) :
    (t = row ∧ row.id = k) ∨ tasks[k]? = some t := by
  have hinsert : (tasks.insert row.id row)[k]? = some t →
      (t = row ∧ row.id = k) ∨ tasks[k]? = some t := by
    intro hget
    rcases Table.of_get_insert hget with ⟨hid, hrow⟩ | ⟨-, hget⟩
    · exact Or.inl ⟨hrow.symm, hid⟩
    · exact Or.inr hget
  unfold Tasks.merge at h
  split at h
  · split at h
    · exact hinsert h
    · exact Or.inr h
  · exact hinsert h

/-- A loaded task is a row of the ledger, under its id. -/
theorem load_row {rows : List BackgroundTask} (h : (loadPersistedTasks rows)[k]? = some t) :
    t ∈ rows ∧ t.id = k := by
  have hfold : ∀ (rows : List BackgroundTask) {tasks : Tasks},
      (rows.foldl Tasks.merge tasks)[k]? = some t →
      (t ∈ rows ∧ t.id = k) ∨ tasks[k]? = some t := by
    intro rows
    induction rows with
    | nil => exact fun h => Or.inr h
    | cons row rows ih =>
        intro tasks h
        rcases ih h with ⟨hmem, hid⟩ | hmerged
        · exact Or.inl ⟨List.mem_cons_of_mem _ hmem, hid⟩
        · rcases of_merge_get hmerged with ⟨rfl, hid⟩ | hget
          · exact Or.inl ⟨List.mem_cons_self, hid⟩
          · exact Or.inr hget
  rcases hfold rows h with hrow | hempty
  · exact hrow
  · have hnone : (∅ : Tasks)[k]? = none := Std.ExtTreeMap.getElem?_empty
    cases hnone.symm.trans hempty

theorem load_keyed (rows : List BackgroundTask) : (loadPersistedTasks rows).Keyed :=
  fun _ _ h => (load_row h).2

/-- Rows of distinct new tasks are put in as they are. -/
theorem merge_distinct : ∀ {l : List BackgroundTask} {tasks : Tasks},
    (l.map BackgroundTask.id).Nodup → (∀ x ∈ l, tasks[x.id]? = none) →
    ((l.foldl Tasks.merge tasks)[k]? = some t ↔ (t ∈ l ∧ t.id = k) ∨ tasks[k]? = some t) := by
  intro l
  induction l with
  | nil =>
      intro tasks _ _
      simp
  | cons a l ih =>
      intro tasks hnodup hnew
      obtain ⟨hfirst, hrest⟩ := List.nodup_cons.mp hnodup
      have ha : tasks[a.id]? = none := hnew a List.mem_cons_self
      have hmerge : tasks.merge a = tasks.insert a.id a := by
        simp only [Tasks.merge, ha]
      have hnew' : ∀ x ∈ l, (tasks.merge a)[x.id]? = none := by
        intro x hx
        have hne : a.id ≠ x.id := fun hid => hfirst (hid ▸ List.mem_map_of_mem hx)
        rw [hmerge, Table.get_insert_ne _ _ hne]
        exact hnew x (List.mem_cons_of_mem _ hx)
      rw [List.foldl_cons, ih hrest hnew', hmerge, Table.get_insert]
      constructor
      · rintro (⟨hmem, hid⟩ | hget)
        · exact Or.inl ⟨List.mem_cons_of_mem _ hmem, hid⟩
        · split at hget
          · next hid =>
              obtain rfl := Option.some.inj hget
              exact Or.inl ⟨List.mem_cons_self, hid⟩
          · exact Or.inr hget
      · rintro (⟨hmem, hid⟩ | hget)
        · rcases List.mem_cons.mp hmem with rfl | hmem
          · exact Or.inr (by rw [if_pos hid])
          · exact Or.inl ⟨hmem, hid⟩
        · have hne : a.id ≠ k := by
            rintro rfl
            rw [ha] at hget
            cases hget
          exact Or.inr (by rw [if_neg hne]; exact hget)

/-- A fresh supervisor restores exactly the loaded table, with its path stamped. -/
theorem restore_fresh {restored : Tasks} (hkeyed : restored.Keyed) (path : String) :
    (Tasks.restore ∅ restored path)[k]? =
      restored[k]?.map (fun task => { task with taskLedgerPath := some path }) := by
  have hids : ((restored.toList.map Prod.snd).map BackgroundTask.id).Nodup := by
    have hkeys : (restored.toList.map Prod.snd).map BackgroundTask.id = restored.toList.map Prod.fst := by
      rw [List.map_map]
      refine List.map_congr_left ?_
      rintro ⟨key, task⟩ hrow
      exact hkeyed key task (Table.mem_rows.mp hrow)
    rw [hkeys]
    exact Table.rows_keys_nodup restored
  have hmerged : ((restored.toList.map Prod.snd).foldl Tasks.merge (∅ : Tasks))[k]? = restored[k]? := by
    refine Option.ext ?_
    intro task
    rw [merge_distinct hids (fun x _ => Std.ExtTreeMap.getElem?_empty)]
    have hnone : (∅ : Tasks)[k]? = none := Std.ExtTreeMap.getElem?_empty
    constructor
    · rintro (⟨hmem, hid⟩ | hempty)
      · obtain ⟨⟨key, x⟩, hrow, rfl⟩ := List.mem_map.mp hmem
        have hget := Table.mem_rows.mp hrow
        rw [← hid, hkeyed key x hget]
        exact hget
      · cases hnone.symm.trans hempty
    · intro hget
      exact Or.inl ⟨List.mem_map.mpr ⟨(k, task), Table.mem_rows.mpr hget, rfl⟩, hkeyed k task hget⟩
  rw [Tasks.restore, Std.ExtTreeMap.getElem?_map, hmerged]

end Load

/-! ## Sweeping -/

section Sweep

variable {tasks : Tasks} {j : String} {t : BackgroundTask} {now : Nat}

theorem calls_get_other : ∀ {cs : List (String × TaskCall)} {tasks : Tasks},
    (∀ c ∈ cs, c.1 ≠ j) → (tasks.calls now cs)[j]? = tasks[j]? := by
  intro cs
  induction cs with
  | nil => exact fun _ => rfl
  | cons c cs ih =>
      intro tasks h
      have hcall : (tasks.call c.1 now c.2)[j]? = tasks[j]? := by
        unfold Tasks.call
        split
        · rfl
        · exact Table.get_insert_ne _ _ (h c List.mem_cons_self)
      exact (ih (fun x hx => h x (List.mem_cons_of_mem _ hx))).trans hcall

theorem calls_get_none : ∀ {cs : List (String × TaskCall)} {tasks : Tasks}, tasks[j]? = none →
    (tasks.calls now cs)[j]? = none := by
  intro cs
  induction cs with
  | nil => exact fun h => h
  | cons c cs ih =>
      intro tasks h
      refine ih ?_
      cases hget : (tasks.call c.1 now c.2)[j]? with
      | none => rfl
      | some t' =>
          obtain ⟨t, ht, -⟩ := of_call_get hget
          rw [h] at ht
          cases ht

/-- The one call on a task. -/
theorem calls_get_once {c : TaskCall} : ∀ {cs : List (String × TaskCall)} {tasks : Tasks},
    (cs.map Prod.fst).Nodup → (j, c) ∈ cs → tasks[j]? = some t →
    (tasks.calls now cs)[j]? = some ((c.apply now t).getD t) := by
  intro cs
  induction cs with
  | nil =>
      intro tasks _ hmem
      cases hmem
  | cons x cs ih =>
      intro tasks hnodup hmem ht
      obtain ⟨hfirst, hrest⟩ := List.nodup_cons.mp hnodup
      rcases List.mem_cons.mp hmem with rfl | hmem
      · have hothers : ∀ y ∈ cs, y.1 ≠ j := by
          intro y hy hid
          refine hfirst ?_
          show j ∈ cs.map Prod.fst
          rw [← hid]
          exact List.mem_map_of_mem hy
        show ((tasks.call j now c).calls now cs)[j]? = _
        rw [calls_get_other hothers, Tasks.call, ht, Option.bind_some]
        cases c.apply now t with
        | none => exact ht
        | some t' => exact Table.get_insert_self _ _ _
      · have hne : x.1 ≠ j := by
          intro hid
          refine hfirst ?_
          rw [hid]
          exact List.mem_map_of_mem hmem
        refine ih hrest hmem ?_
        have hone : (tasks.calls now [x])[j]? = tasks[j]? := calls_get_other (by simpa using hne)
        exact hone.trans ht

/-- Of the tasks a cascade looks for. -/
def BackgroundTask.Below (ids : List String) (task : BackgroundTask) : Prop :=
  task.status.isActive = true ∧ task.isPipelineNode = true ∧ task.toolCallId.isEmpty = false ∧
    task.toolCallId ∈ ids

theorem markFailed_active (h : t.status.isActive = true) (reason : String) :
    ((TaskCall.markFailed reason).apply now t).map BackgroundTask.status = some .failed := by
  have hopen : ¬(t.status = .cancelled ∨ t.status = .completed) := by
    rintro (hstatus | hstatus) <;> rw [hstatus] at h <;> cases h
  simp only [TaskCall.apply, BackgroundTask.markFailedInner, if_neg hopen, Option.map_some]

/-- One round of the cascade. -/
theorem descendants_get {id reason : String} (ht : tasks[j]? = some t) :
    (t.Below [id] ∧ ∃ t', (tasks.calls now (markDescendantsFailed tasks id reason))[j]? = some t' ∧
      t'.status = .failed) ∨
    (¬t.Below [id] ∧
      (tasks.calls now (markDescendantsFailed tasks id reason))[j]? = some t) := by
  by_cases hbelow : t.Below [id]
  · refine Or.inl ⟨hbelow, ?_⟩
    obtain ⟨hactive, hnode, hne, hid⟩ := hbelow
    obtain rfl := List.mem_singleton.mp hid
    have hmem : (j, TaskCall.markFailed reason) ∈ markDescendantsFailed tasks t.toolCallId reason := by
      rw [markDescendantsFailed, if_neg (by simp [hne])]
      refine List.mem_map.mpr ⟨j, mem_idsWhere.mpr ⟨t, ht, ?_⟩, rfl⟩
      simp [hactive, hnode]
    have hnodup : ((markDescendantsFailed tasks t.toolCallId reason).map Prod.fst).Nodup := by
      rw [markDescendantsFailed, if_neg (by simp [hne]), List.map_map]
      exact (List.map_id _).symm ▸ idsWhere_nodup _
    obtain ⟨t', happly, hstatus⟩ := Option.map_eq_some_iff.mp (@markFailed_active t now hactive reason)
    refine ⟨t', ?_, hstatus⟩
    rw [calls_get_once hnodup hmem ht, happly, Option.getD_some]
  · refine Or.inr ⟨hbelow, (calls_get_other ?_).trans ht⟩
    rintro c hc rfl
    unfold markDescendantsFailed at hc
    split at hc
    · cases hc
    · next hne =>
        obtain ⟨k, hk, rfl⟩ := List.mem_map.mp hc
        obtain ⟨u, hu, hp⟩ := mem_idsWhere.mp hk
        obtain rfl := Option.some.inj (ht.symm.trans hu)
        simp only [Bool.and_eq_true, decide_eq_true_eq] at hp
        obtain ⟨⟨hid, hactive⟩, hnode⟩ := hp
        exact hbelow ⟨hactive, hnode, by simpa [hid] using hne, List.mem_singleton.mpr hid⟩

/-- The whole cascade: the tasks below one of the ids fail, all others stay. -/
theorem cascade_get : ∀ {ids : List String} {tasks : Tasks} {t : BackgroundTask}, tasks[j]? = some t →
    (t.Below ids ∧ ∃ t', (cascade now tasks ids)[j]? = some t' ∧ t'.status = .failed) ∨
    (¬t.Below ids ∧ (cascade now tasks ids)[j]? = some t) := by
  intro ids
  induction ids with
  | nil =>
      intro tasks t ht
      exact Or.inr ⟨fun h => absurd h.2.2.2 List.not_mem_nil, ht⟩
  | cons id ids ih =>
      intro tasks t ht
      rcases @descendants_get tasks j t now id "parent task orphaned across restart" ht
        with ⟨⟨hactive, hnode, hne, hid⟩, t', ht', hfailed⟩ | ⟨hnot, ht'⟩
      · -- a failed task is no longer active, so the later rounds leave it
        have hbelow : t.Below (id :: ids) :=
          ⟨hactive, hnode, hne, List.mem_cons.mpr (Or.inl (List.mem_singleton.mp hid))⟩
        refine Or.inl ⟨hbelow, ?_⟩
        rcases ih ht' with ⟨hagain, -⟩ | ⟨-, hrest⟩
        · have hactive' := hagain.1
          rw [hfailed] at hactive'
          cases hactive'
        · exact ⟨t', hrest, hfailed⟩
      · rcases ih ht' with ⟨⟨hactive, hnode, hne, hmem⟩, hfailed⟩ | ⟨hnone, hrest⟩
        · exact Or.inl ⟨⟨hactive, hnode, hne, List.mem_cons_of_mem _ hmem⟩, hfailed⟩
        · refine Or.inr ⟨?_, hrest⟩
          rintro ⟨hactive, hnode, hne, hmem⟩
          rcases List.mem_cons.mp hmem with hid | hmem
          · exact hnot ⟨hactive, hnode, hne, List.mem_singleton.mpr hid⟩
          · exact hnone ⟨hactive, hnode, hne, hmem⟩

theorem cascade_none : ∀ {ids : List String} {tasks : Tasks}, tasks[j]? = none →
    (cascade now tasks ids)[j]? = none := by
  intro ids
  induction ids with
  | nil => exact fun h => h
  | cons id ids ih =>
      intro tasks h
      exact ih (calls_get_none h)

/-- In a new process the orphans are the tasks whose runtime state is not terminal. -/
theorem isOrphan_boot (tasks : Tasks) (t : BackgroundTask) :
    tasks.isOrphan [] t = !t.runtimeState.isTerminal := by
  have hlive : tasks.liveToolCallIds [] = [] := by simp [Tasks.liveToolCallIds]
  simp [Tasks.isOrphan, hlive]

theorem mem_orphans (hkeyed : tasks.Keyed) : t ∈ tasks.orphans [] ↔
    tasks[t.id]? = some t ∧ t.runtimeState.isTerminal = false := by
  simp only [Tasks.orphans, List.mem_filter, List.mem_map, isOrphan_boot, Bool.not_eq_true']
  constructor
  · rintro ⟨⟨⟨key, u⟩, hrow, rfl⟩, hopen⟩
    have hget := Table.mem_rows.mp hrow
    exact ⟨(hkeyed key u hget).symm ▸ hget, hopen⟩
  · rintro ⟨hget, hopen⟩
    exact ⟨⟨(t.id, t), Table.mem_rows.mpr hget, rfl⟩, hopen⟩

theorem orphans_nodup (hkeyed : tasks.Keyed) :
    ((tasks.orphans []).map BackgroundTask.id).Nodup := by
  have hkeys : (tasks.toList.map Prod.snd).map BackgroundTask.id = tasks.toList.map Prod.fst := by
    rw [List.map_map]
    refine List.map_congr_left ?_
    rintro ⟨key, task⟩ hrow
    exact hkeyed key task (Table.mem_rows.mp hrow)
  have hall : ((tasks.toList.map Prod.snd).map BackgroundTask.id).Nodup := by
    rw [hkeys]
    exact Table.rows_keys_nodup tasks
  exact hall.sublist (List.filter_sublist.map BackgroundTask.id)

variable {order : List BackgroundTask}

/-- The parking and failing of the orphans. -/
theorem sweepCalls_get (hkeyed : tasks.Keyed) (horder : order.Perm (tasks.orphans []))
    (ht : tasks[j]? = some t) :
    (tasks.calls now (order.map (fun task => (task.id, sweepCall task))))[j]? =
      some (if t.runtimeState.isTerminal then t else ((sweepCall t).apply now t).getD t) := by
  obtain rfl := hkeyed j t ht
  cases hopen : t.runtimeState.isTerminal with
  | true =>
      refine (calls_get_other ?_).trans ht
      intro c hc hid
      obtain ⟨u, hu, rfl⟩ := List.mem_map.mp hc
      obtain ⟨hget, hruntime⟩ := (mem_orphans hkeyed).mp (horder.mem_iff.mp hu)
      rw [show u.id = t.id from hid, ht] at hget
      obtain rfl := Option.some.inj hget
      rw [hopen] at hruntime
      cases hruntime
  | false =>
      have hmem : t ∈ order := horder.mem_iff.mpr ((mem_orphans hkeyed).mpr ⟨ht, hopen⟩)
      have hids : ((order.map (fun task => (task.id, sweepCall task))).map Prod.fst).Nodup := by
        rw [List.map_map]
        exact ((horder.map BackgroundTask.id).nodup_iff).mpr (orphans_nodup hkeyed)
      exact calls_get_once hids (List.mem_map_of_mem hmem) ht

/-- An orphan is parked when it is a staged peer and fails otherwise. -/
theorem sweepCall_status (hs : t.Sound) (hopen : t.runtimeState.isTerminal = false) :
    (((sweepCall t).apply now t).getD t).status =
      if t.toolName = "peer_handoff" then .parked else .failed := by
  have hstatus : t.status.isTerminal = false := by
    cases hstatus : t.status with
    | spawned | running | parked => rfl
    | completed | failed | cancelled =>
        have hruntime := (hs.verdict _ (by rw [hstatus]; rfl)).1
        rw [hruntime] at hopen
        cases hopen
  unfold sweepCall
  split
  · simp [TaskCall.apply, BackgroundTask.markParked, hstatus]
  · have hne : ¬(t.status = .cancelled ∨ t.status = .completed) := by
      rintro (hdone | hdone) <;> rw [hdone] at hstatus <;> cases hstatus
    simp [TaskCall.apply, BackgroundTask.markFailedInner, hne]

theorem mem_cascadeIds (hkeyed : tasks.Keyed) (horder : order.Perm (tasks.orphans [])) {id : String} :
    id ∈ cascadeIds order ↔ ∃ (k : String) (p : BackgroundTask), tasks[k]? = some p ∧
      p.runtimeState.isTerminal = false ∧ p.isPipelineNode = false ∧ p.toolCallId.isEmpty = false ∧
      p.toolCallId = id := by
  simp only [cascadeIds, List.mem_eraseDups, List.mem_map, List.mem_filter, Bool.and_eq_true,
    Bool.not_eq_true', horder.mem_iff, mem_orphans hkeyed]
  constructor
  · rintro ⟨p, ⟨⟨hget, hopen⟩, hne, hnode⟩, rfl⟩
    exact ⟨p.id, p, hget, hopen, hnode, hne, rfl⟩
  · rintro ⟨k, p, hget, hopen, hnode, hne, rfl⟩
    exact ⟨p, ⟨⟨(hkeyed k p hget).symm ▸ hget, hopen⟩, hne, hnode⟩, rfl⟩

/-- A worker that is gone owns the pipeline node. -/
def Tasks.Covered (tasks : Tasks) (t : BackgroundTask) : Prop :=
  t.isPipelineNode = true ∧ t.toolCallId.isEmpty = false ∧
    ∃ (k : String) (p : BackgroundTask), tasks[k]? = some p ∧ p.runtimeState.isTerminal = false ∧
      p.isPipelineNode = false ∧ p.toolCallId = t.toolCallId

theorem below_iff_covered (hkeyed : tasks.Keyed) (horder : order.Perm (tasks.orphans []))
    (hactive : t.status.isActive = true) : t.Below (cascadeIds order) ↔ tasks.Covered t := by
  unfold BackgroundTask.Below
  rw [mem_cascadeIds hkeyed horder]
  constructor
  · rintro ⟨-, hnode, hne, k, p, hget, hopen, hparent, -, hid⟩
    exact ⟨hnode, hne, k, p, hget, hopen, hparent, hid⟩
  · rintro ⟨hnode, hne, k, p, hget, hopen, hparent, hid⟩
    exact ⟨hactive, hnode, hne, k, p, hget, hopen, hparent, hid ▸ hne, hid⟩

/-- **What the sweep makes of a task**: an orphan is parked or fails; an active task
with a terminal runtime state fails when it is covered; every other task stays. -/
theorem sweep_get (hkeyed : tasks.Keyed) (horder : order.Perm (tasks.orphans []))
    (ht : tasks[j]? = some t) (hs : t.Sound) :
    ∃ t', (sweep now tasks order)[j]? = some t' ∧
      (t.runtimeState.isTerminal = false ∧
          t'.status = (if t.toolName = "peer_handoff" then .parked else .failed) ∨
        t.runtimeState.isTerminal = true ∧ t.status.isActive = true ∧ tasks.Covered t ∧
          t'.status = .failed ∨
        t.runtimeState.isTerminal = true ∧ (t.status.isActive = true → ¬tasks.Covered t) ∧
          t' = t) := by
  have hswept : (tasks.calls now (order.map (fun task => (task.id, sweepCall task))))[j]? = _ :=
    sweepCalls_get hkeyed horder ht
  cases hopen : t.runtimeState.isTerminal with
  | false =>
      rw [hopen, if_neg Bool.false_ne_true] at hswept
      have hstatus : (((sweepCall t).apply now t).getD t).status = _ := sweepCall_status hs hopen
      rcases cascade_get hswept with ⟨⟨hactive, -⟩, -⟩ | ⟨-, hget⟩
      · rw [hstatus] at hactive
        split at hactive <;> cases hactive
      · exact ⟨_, hget, Or.inl ⟨rfl, hstatus⟩⟩
  | true =>
      rw [hopen, if_pos rfl] at hswept
      rcases cascade_get hswept with ⟨hbelow, t', hget, hfailed⟩ | ⟨hnot, hget⟩
      · exact ⟨t', hget, Or.inr (Or.inl
          ⟨rfl, hbelow.1, (below_iff_covered hkeyed horder hbelow.1).mp hbelow, hfailed⟩)⟩
      · refine ⟨t, hget, Or.inr (Or.inr ⟨rfl, ?_, rfl⟩)⟩
        intro hactive hcovered
        exact hnot ((below_iff_covered hkeyed horder hactive).mpr hcovered)

theorem sweep_none (h : tasks[j]? = none) : (sweep now tasks order)[j]? = none :=
  cascade_none (calls_get_none h)

end Sweep

/-! ## Booting -/

/-- What a boot owes: the tasks that were there, each with a verdict or parked; newly
parked are staged peers only; and a verdict is kept with its error and outputs. -/
structure CleanBoot (before after : Tasks) : Prop where
  same : ∀ j : String, after[j]? = none ↔ before[j]? = none
  idle : ∀ (j : String) t, after[j]? = some t → t.status.isTerminal = true ∨ t.status = .parked
  parked : ∀ (j : String) t t', before[j]? = some t → after[j]? = some t' → t'.status = .parked →
    t.status = .parked ∨ t.toolName = "peer_handoff"
  kept : ∀ (j : String) t t', before[j]? = some t → after[j]? = some t' → t.status.isTerminal = true →
    t'.status = t.status ∧ t'.error = t.error ∧ t'.outputFiles = t.outputFiles ∧
      t'.finalOutput = t.finalOutput

section Boot

variable {rows order : List BackgroundTask} {path : String} {now : Nat} {j : String} {t : BackgroundTask}

/-- A loaded task with its ledger's path. -/
def BackgroundTask.stamp (path : String) (task : BackgroundTask) : BackgroundTask :=
  { task with taskLedgerPath := some path }

theorem restored_get : (Tasks.restore ∅ (loadPersistedTasks rows) path)[j]? =
    (loadPersistedTasks rows)[j]?.map (BackgroundTask.stamp path) :=
  restore_fresh (load_keyed rows) path

theorem restored_keyed : (Tasks.restore ∅ (loadPersistedTasks rows) path).Keyed := by
  intro k t h
  rw [restored_get] at h
  obtain ⟨u, hu, rfl⟩ := Option.map_eq_some_iff.mp h
  exact load_keyed rows k u hu

theorem restored_covered : (Tasks.restore ∅ (loadPersistedTasks rows) path).Covered (t.stamp path) ↔
    (loadPersistedTasks rows).Covered t := by
  unfold Tasks.Covered
  refine and_congr_right (fun _ => and_congr_right (fun _ => ?_))
  constructor
  · rintro ⟨k, p, hp, hopen, hparent, hid⟩
    rw [restored_get] at hp
    obtain ⟨u, hu, rfl⟩ := Option.map_eq_some_iff.mp hp
    exact ⟨k, u, hu, hopen, hparent, hid⟩
  · rintro ⟨k, p, hp, hopen, hparent, hid⟩
    exact ⟨k, p.stamp path, by rw [restored_get, hp]; rfl, hopen, hparent, hid⟩

/-- What a boot makes of a loaded task. -/
theorem boot_get (hrows : ∀ row ∈ rows, row.Written)
    (horder : order.Perm ((Tasks.restore ∅ (loadPersistedTasks rows) path).orphans []))
    (ht : (loadPersistedTasks rows)[j]? = some t) :
    ∃ t', (bootTasks now rows path order)[j]? = some t' ∧
      (t.runtimeState.isTerminal = false ∧
          t'.status = (if t.toolName = "peer_handoff" then .parked else .failed) ∨
        t.runtimeState.isTerminal = true ∧ t.status.isActive = true ∧
          (loadPersistedTasks rows).Covered t ∧ t'.status = .failed ∨
        t.runtimeState.isTerminal = true ∧
          (t.status.isActive = true → ¬(loadPersistedTasks rows).Covered t) ∧ t' = t.stamp path) := by
  have hsound : (t.stamp path).Sound := ((hrows t (load_row ht).1).restored path).sound
  have hstamped : (Tasks.restore ∅ (loadPersistedTasks rows) path)[j]? = some (t.stamp path) := by
    rw [restored_get, ht, Option.map_some]
  have hswept := @sweep_get _ j _ now order restored_keyed horder hstamped hsound
  rwa [restored_covered] at hswept

theorem boot_none (h : (loadPersistedTasks rows)[j]? = none) :
    (bootTasks now rows path order)[j]? = none := by
  refine sweep_none ?_
  rw [restored_get, h, Option.map_none]

/-- A task with a verdict has a terminal runtime state. -/
theorem BackgroundTask.Sound.runtime (hs : t.Sound) (h : t.status.isTerminal = true) :
    t.runtimeState.isTerminal = true := by
  cases hstatus : t.status with
  | spawned | running | parked =>
      rw [hstatus] at h
      cases h
  | completed | failed | cancelled =>
      rw [(hs.verdict _ (by rw [hstatus]; rfl)).1]
      rfl

theorem TaskStatus.idle_iff {status : TaskStatus} :
    status.isTerminal = true ∨ status = .parked ↔ status.isActive = false := by
  cases status <;> decide

/-- **When a boot leaves nothing running.**  Of the rows a process can have written,
in any number and order, a boot is clean exactly when every task whose freshest row is
active with a terminal runtime state is a pipeline node of a parent that was swept. -/
theorem boot_clean_iff (hrows : ∀ row ∈ rows, row.Written)
    (horder : order.Perm ((Tasks.restore ∅ (loadPersistedTasks rows) path).orphans [])) :
    CleanBoot (loadPersistedTasks rows) (bootTasks now rows path order) ↔
      ∀ (j : String) t, (loadPersistedTasks rows)[j]? = some t → t.status.isActive = true →
        t.runtimeState.isTerminal = true → (loadPersistedTasks rows).Covered t := by
  constructor
  · intro hclean j t ht hactive hruntime
    obtain ⟨t', ht', hcases⟩ := @boot_get rows order path now j t hrows horder ht
    rcases hcases with ⟨hopen, -⟩ | ⟨-, -, hcovered, -⟩ | ⟨-, -, rfl⟩
    · rw [hruntime] at hopen
      cases hopen
    · exact hcovered
    · -- the task came through as it was, active
      have hidle := TaskStatus.idle_iff.mp (hclean.idle j _ ht')
      rw [show (t.stamp path).status = t.status from rfl, hactive] at hidle
      cases hidle
  · intro hcover
    have hback : ∀ {j : String} {t'}, (bootTasks now rows path order)[j]? = some t' →
        ∃ t, (loadPersistedTasks rows)[j]? = some t := by
      intro j t' ht'
      cases hload : (loadPersistedTasks rows)[j]? with
      | none =>
          rw [boot_none hload] at ht'
          cases ht'
      | some t => exact ⟨t, rfl⟩
    refine ⟨?_, ?_, ?_, ?_⟩
    · intro j
      constructor
      · intro hnone
        cases hload : (loadPersistedTasks rows)[j]? with
        | none => rfl
        | some t =>
            obtain ⟨t', ht', -⟩ := @boot_get rows order path now j t hrows horder hload
            rw [hnone] at ht'
            cases ht'
      · exact boot_none
    · intro j t' ht'
      obtain ⟨t, ht⟩ := hback ht'
      obtain ⟨t'', ht'', hcases⟩ := @boot_get rows order path now j t hrows horder ht
      obtain rfl := Option.some.inj (ht'.symm.trans ht'')
      rcases hcases with ⟨-, hstatus⟩ | ⟨-, -, -, hfailed⟩ | ⟨hruntime, hnot, rfl⟩
      · rw [hstatus]
        split
        · exact Or.inr rfl
        · exact Or.inl rfl
      · exact Or.inl (by rw [hfailed]; rfl)
      · refine TaskStatus.idle_iff.mpr ?_
        cases hactive : t.status.isActive with
        | false => exact hactive
        | true => exact absurd (hcover j t ht hactive hruntime) (hnot hactive)
    · intro j t t' ht ht' hparked
      obtain ⟨t'', ht'', hcases⟩ := @boot_get rows order path now j t hrows horder ht
      obtain rfl := Option.some.inj (ht'.symm.trans ht'')
      rcases hcases with ⟨-, hstatus⟩ | ⟨-, -, -, hfailed⟩ | ⟨-, -, rfl⟩
      · split at hstatus
        · next hpeer => exact Or.inr hpeer
        · rw [hparked] at hstatus
          cases hstatus
      · rw [hparked] at hfailed
        cases hfailed
      · exact Or.inl hparked
    · intro j t t' ht ht' hterminal
      have hruntime := (hrows t (load_row ht).1).sound.runtime hterminal
      obtain ⟨t'', ht'', hcases⟩ := @boot_get rows order path now j t hrows horder ht
      obtain rfl := Option.some.inj (ht'.symm.trans ht'')
      rcases hcases with ⟨hopen, -⟩ | ⟨-, hactive, -⟩ | ⟨-, -, rfl⟩
      · rw [hruntime] at hopen
        cases hopen
      · have hidle := TaskStatus.idle_iff.mp (Or.inl hterminal)
        rw [hactive] at hidle
        cases hidle
      · exact ⟨rfl, rfl, rfl, rfl⟩

/-- The rows of a task that was started. -/
def startedRows : List BackgroundTask :=
  let registered := sampleRegistration.task "t" 1 none
  [registered, (TaskCall.markRunning.apply 2 registered).getD registered]

theorem startedRows_written : ∀ row ∈ startedRows, row.Written := by
  have hregistered : (sampleRegistration.task "t" 1 none).Written := .registered _ _ _ _
  have hrunning := @BackgroundTask.Written.called _ _ .markRunning 2 hregistered rfl
  intro row hrow
  rcases List.mem_cons.mp hrow with rfl | hrow
  · exact hregistered
  · obtain rfl := List.mem_singleton.mp hrow
    exact hrunning

/-- A task that was running when the process died has failed after the boot. -/
theorem boot_clean_started :
    CleanBoot (loadPersistedTasks startedRows) (bootTasks 9 startedRows "ledger"
      ((Tasks.restore ∅ (loadPersistedTasks startedRows) "ledger").orphans [])) := by
  refine (boot_clean_iff startedRows_written (List.Perm.refl _)).mpr ?_
  intro j t ht hactive hruntime
  obtain ⟨hrow, -⟩ := load_row ht
  rcases List.mem_cons.mp hrow with rfl | hrow
  · cases hruntime
  · obtain rfl := List.mem_singleton.mp hrow
    cases hruntime

/-- The started task's `Failure` event makes two calls, each with its own append; here
the process died between them. -/
def cutRows : List BackgroundTask :=
  let registered := sampleRegistration.task "t" 1 none
  let running := (TaskCall.markRunning.apply 2 registered).getD registered
  startedRows ++ ((HarnessEvent.calls ⟨.failure "lost", fun _ => "detail"⟩ running).take 1).map
    (fun c => (c.apply 3 running).getD running)

theorem cutRows_written : ∀ row ∈ cutRows, row.Written := by
  intro row hrow
  rcases List.mem_append.mp hrow with hrow | hrow
  · exact startedRows_written row hrow
  · obtain rfl := List.mem_singleton.mp hrow
    have hrunning := startedRows_written _ (List.mem_cons_of_mem _ List.mem_cons_self)
    exact @BackgroundTask.Written.called _ _ (.markRuntimeState .failed (some "detail")) 3 hrunning rfl

/-- The task is still running after the boot, with nobody left to run it. -/
theorem boot_leaves_running : (∀ row ∈ cutRows, row.Written) ∧
    [].Perm ((Tasks.restore ∅ (loadPersistedTasks cutRows) "ledger").orphans []) ∧
    (∃ t, (bootTasks 9 cutRows "ledger" [])["t"]? = some t ∧ t.status = .running) ∧
    ¬CleanBoot (loadPersistedTasks cutRows) (bootTasks 9 cutRows "ledger" []) := by
  have hlen : ((Tasks.restore ∅ (loadPersistedTasks cutRows) "ledger").orphans []).length = 0 := by
    rfl
  have hstatus : ((bootTasks 9 cutRows "ledger" [])["t"]?).map BackgroundTask.status =
      some .running := by
    rfl
  obtain ⟨t, ht, hrunning⟩ := Option.map_eq_some_iff.mp hstatus
  refine ⟨cutRows_written, ?_, ⟨t, ht, hrunning⟩, ?_⟩
  · rw [List.length_eq_zero_iff.mp hlen]
  · intro hclean
    have hidle := TaskStatus.idle_iff.mp (hclean.idle "t" t ht)
    rw [hrunning] at hidle
    cases hidle

end Boot

end Octos.Agent
