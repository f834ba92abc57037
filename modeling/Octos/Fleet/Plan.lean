/-
# `Octos.Fleet.Plan` — plan edits and the validation of the task graph

The pure part of `fleet.rs`: a `PlanEdit` applied to a list of tasks, and
`validate_graph`, which every structural edit and every new fleet passes before
anything is written.  A valid graph has unique ids, no self-dependency, no
dependency outside the plan, and an order in which every task comes after its
dependencies; `validateGraph_iff` says that the check accepts exactly those.

`find_cycle` builds its maps from hash tables, whose iteration order is
unspecified.  Only the order in which the first queue is filled depends on it,
and the result does not; the model iterates in key order.
-/
import Octos.Fleet.Replan
import Octos.Lib.Kahn

namespace Octos.Fleet

/-! ## Inputs -/

/-- The author-facing form of a plan task. -/
structure TaskSpec where
  taskId : String
  title : String
  detail : String
  deps : List String
  acceptance : List AcceptanceCriterion
  grant : WorkerGrant
  deriving DecidableEq, Repr

/-- `PlanTask::from`. -/
def TaskSpec.toPlanTask (s : TaskSpec) : PlanTask :=
  { taskId := s.taskId, title := s.title, detail := s.detail, deps := s.deps,
    acceptance := s.acceptance, grant := s.grant }

/-- A high-level plan edit. -/
inductive PlanEdit
  | addTask (spec : TaskSpec)
  | removeTask (taskId : String)
  | retitle (taskId title detail : String)
  | retargetDeps (taskId : String) (deps : List String)
  | splitTask (taskId : String) (into : List TaskSpec)
  | setGrant (taskId : String) (grant : WorkerGrant)
  deriving DecidableEq, Repr

/-- A caller mistake, surfaced as an error. -/
inductive PlanGraphError
  | duplicateTask (id : String)
  | duplicateAdd (id : String)
  | unknownTask (id : String)
  | selfDependency (id : String)
  | danglingDependency (task dep : String)
  | cycle (ids : List String)
  | emptySplit (id : String)
  | splitIdReuse (id : String)
  | retargetTerminalTask (id : String)
  deriving DecidableEq, Repr

/-! ## Applying an edit -/

/-- Rewrite the first task with this id. -/
def modifyTask (taskId : String) (g : PlanTask → PlanTask) (tasks : List PlanTask) :
    Except PlanGraphError (List PlanTask) :=
  match modifyFirst (fun t => t.taskId == taskId) g tasks with
  | some tasks => .ok tasks
  | none => .error (.unknownTask taskId)

/-- `apply_edit_to_tasks`: the tasks after the edit and the note for the
decision log.  Only what needs the edit's own shape is checked here. -/
def applyEditToTasks (tasks : List PlanTask) : PlanEdit →
    Except PlanGraphError (List PlanTask × String)
  | .addTask spec =>
      if tasks.any (fun t => t.taskId == spec.taskId) then .error (.duplicateAdd spec.taskId)
      else .ok (tasks ++ [spec.toPlanTask], "add task " ++ spec.taskId)
  | .removeTask id =>
      let kept := tasks.filter (fun t => t.taskId != id)
      if kept.length = tasks.length then .error (.unknownTask id)
      else .ok (kept, "remove task " ++ id)
  | .retitle taskId title detail => do
      let tasks ← modifyTask taskId (fun t => { t with title := title, detail := detail }) tasks
      return (tasks, "retitle task " ++ taskId)
  | .retargetDeps taskId deps => do
      let tasks ← modifyTask taskId (fun t => { t with deps := deps }) tasks
      return (tasks, "retarget deps of task " ++ taskId)
  | .setGrant taskId grant => do
      let tasks ← modifyTask taskId (fun t => { t with grant := grant }) tasks
      return (tasks, "set grant of task " ++ taskId)
  | .splitTask taskId into =>
      if into.isEmpty then .error (.emptySplit taskId)
      else
        match tasks.findIdx? (fun t => t.taskId == taskId) with
        | none => .error (.unknownTask taskId)
        | some pos =>
            match into.find? (fun sub => tasks.any (fun t => t.taskId == sub.taskId)) with
            | some sub => .error (.splitIdReuse sub.taskId)
            | none =>
                .ok (tasks.take pos ++ into.map TaskSpec.toPlanTask ++ tasks.drop (pos + 1),
                  "split task " ++ taskId)

/-! ## Validation -/

def taskIds (tasks : List PlanTask) : List String :=
  tasks.map PlanTask.taskId

/-- The dependency edges inside the plan. -/
def taskEdges (tasks : List PlanTask) : List (String × String) :=
  tasks.flatMap (fun t =>
    (t.deps.filter (fun d => decide (d ∈ taskIds tasks))).map (fun d => (d, t.taskId)))

/-- The ids left unresolved by the sort, or `none` if there is no cycle. -/
def findCycle (tasks : List PlanTask) : Option (List String) :=
  let st := Kahn.run (taskIds tasks) (taskEdges tasks)
  if st.processed = tasks.length then none
  else
    some (((st.indeg.toList.filter (fun r => decide (0 < r.2))).map Prod.fst).insertionSort
      (· ≤ ·))

/-- The first id that occurs a second time. -/
def firstDuplicate : List String → List String → Option String
  | _, [] => none
  | seen, id :: ids =>
      if id ∈ seen then some id else firstDuplicate (id :: seen) ids

/-- The first bad dependency of a task. -/
def badDep (ids : List String) (t : PlanTask) : Option PlanGraphError :=
  t.deps.findSome? (fun d =>
    if d = t.taskId then some (.selfDependency t.taskId)
    else if d ∈ ids then none
    else some (.danglingDependency t.taskId d))

/-- Unique ids, then no self or dangling dependency, then no cycle. -/
def validateGraph (tasks : List PlanTask) : Except PlanGraphError Unit :=
  match firstDuplicate [] (taskIds tasks) with
  | some id => .error (.duplicateTask id)
  | none =>
      match tasks.findSome? (badDep (taskIds tasks)) with
      | some e => .error e
      | none =>
          match findCycle tasks with
          | some cycle => .error (.cycle cycle)
          | none => .ok ()

/-! ## What validation accepts -/

/-- A well-formed task graph. -/
structure ValidGraph (tasks : List PlanTask) : Prop where
  unique : (taskIds tasks).Nodup
  closed : ∀ t ∈ tasks, ∀ d ∈ t.deps, d ≠ t.taskId ∧ d ∈ taskIds tasks
  order : ∃ l, (∀ id ∈ taskIds tasks, id ∈ l) ∧ Kahn.Ordered (taskEdges tasks) l

theorem firstDuplicate_none {ids seen : List String} :
    firstDuplicate seen ids = none ↔ ids.Nodup ∧ ∀ id ∈ ids, id ∉ seen := by
  induction ids generalizing seen with
  | nil => simp [firstDuplicate]
  | cons id ids ih =>
      unfold firstDuplicate
      by_cases h : id ∈ seen
      · simp [h]
      · rw [if_neg h, ih, List.nodup_cons]
        constructor
        · rintro ⟨hnd, hseen⟩
          refine ⟨⟨?_, hnd⟩, ?_⟩
          · intro hmem
            exact hseen id hmem List.mem_cons_self
          · intro x hx
            rcases List.mem_cons.mp hx with rfl | hx
            · exact h
            · exact fun hs => hseen x hx (List.mem_cons_of_mem _ hs)
        · rintro ⟨⟨hid, hnd⟩, hseen⟩
          refine ⟨hnd, ?_⟩
          intro x hx hmem
          rcases List.mem_cons.mp hmem with rfl | hmem
          · exact hid hx
          · exact hseen x (List.mem_cons_of_mem _ hx) hmem

theorem badDep_none {ids : List String} {t : PlanTask} :
    badDep ids t = none ↔ ∀ d ∈ t.deps, d ≠ t.taskId ∧ d ∈ ids := by
  unfold badDep
  rw [List.findSome?_eq_none_iff]
  refine forall₂_congr ?_
  intro d _
  by_cases h₁ : d = t.taskId
  · simp [h₁]
  · by_cases h₂ : d ∈ ids <;> simp [h₁, h₂]

theorem mem_taskEdges {tasks : List PlanTask} {e : String × String} :
    e ∈ taskEdges tasks ↔
      ∃ t ∈ tasks, e.1 ∈ t.deps ∧ e.1 ∈ taskIds tasks ∧ e.2 = t.taskId := by
  obtain ⟨d, n⟩ := e
  simp only [taskEdges, List.mem_flatMap, List.mem_map, List.mem_filter, decide_eq_true_eq,
    Prod.mk.injEq]
  constructor
  · rintro ⟨t, ht, d', ⟨hd, hin⟩, rfl, rfl⟩
    exact ⟨t, ht, hd, hin, rfl⟩
  · rintro ⟨t, ht, hd, hin, rfl⟩
    exact ⟨t, ht, d, ⟨hd, hin⟩, rfl, rfl⟩

theorem findCycle_none {tasks : List PlanTask} (hunique : (taskIds tasks).Nodup) :
    findCycle tasks = none ↔
      ∃ l, (∀ id ∈ taskIds tasks, id ∈ l) ∧ Kahn.Ordered (taskEdges tasks) l := by
  have hedges : ∀ e ∈ taskEdges tasks, e.1 ∈ taskIds tasks ∧ e.2 ∈ taskIds tasks := by
    intro e he
    obtain ⟨t, ht, -, hin, hid⟩ := mem_taskEdges.mp he
    exact ⟨hin, hid ▸ List.mem_map_of_mem ht⟩
  have hlen : (taskIds tasks).length = tasks.length := List.length_map _
  rw [← Kahn.run_processed_iff hedges hunique, hlen]
  unfold findCycle
  simp only
  split
  · next h => simp [h]
  · next h => simp [h]

/-- **Validation accepts exactly the well-formed graphs.** -/
theorem validateGraph_iff {tasks : List PlanTask} :
    validateGraph tasks = .ok () ↔ ValidGraph tasks := by
  unfold validateGraph
  constructor
  · intro h
    split at h
    · cases h
    next hdup =>
      split at h
      · cases h
      next hbad =>
        split at h
        · cases h
        next hcycle =>
          have hunique := (firstDuplicate_none.mp hdup).1
          refine ⟨hunique, ?_, (findCycle_none hunique).mp hcycle⟩
          intro t ht
          exact badDep_none.mp (List.findSome?_eq_none_iff.mp hbad t ht)
  · intro h
    have hdup : firstDuplicate [] (taskIds tasks) = none :=
      firstDuplicate_none.mpr ⟨h.unique, by simp⟩
    have hbad : tasks.findSome? (badDep (taskIds tasks)) = none := by
      refine List.findSome?_eq_none_iff.mpr ?_
      intro t ht
      exact badDep_none.mpr (h.closed t ht)
    rw [hdup, hbad, (findCycle_none h.unique).mpr h.order]

example : validateGraph [⟨"a", "", "", ["b"], [], ⟨.none, [], .workspace, none, false⟩⟩,
    ⟨"b", "", "", ["a"], [], ⟨.none, [], .workspace, none, false⟩⟩] =
      .error (.cycle ["a", "b"]) := by rfl

/-- Of the tasks with a property, one depends on none with that property. -/
theorem ValidGraph.exists_minimal {tasks : List PlanTask} (h : ValidGraph tasks)
    {P : String → Prop} {t : PlanTask} (ht : t ∈ tasks) (hP : P t.taskId) :
    ∃ u ∈ tasks, P u.taskId ∧ ∀ d ∈ u.deps, ¬ P d := by
  obtain ⟨l, hl, hord⟩ := h.order
  obtain ⟨m, -, ⟨hm, hPm⟩, hmin⟩ := hord.exists_minimal
    (P := fun id => id ∈ taskIds tasks ∧ P id) (hl _ (List.mem_map_of_mem ht))
    ⟨List.mem_map_of_mem ht, hP⟩
  obtain ⟨u, hu, rfl⟩ := List.mem_map.mp hm
  refine ⟨u, hu, hPm, ?_⟩
  intro d hd hPd
  have hin := (h.closed u hu d hd).2
  exact hmin (d, u.taskId) (mem_taskEdges.mpr ⟨u, hu, hd, hin, rfl⟩) rfl ⟨hin, hPd⟩

/-- Tasks of a valid graph are determined by their id. -/
theorem ValidGraph.task_eq {tasks : List PlanTask} (h : ValidGraph tasks) {t u : PlanTask}
    (ht : t ∈ tasks) (hu : u ∈ tasks) (hid : t.taskId = u.taskId) : t = u :=
  List.inj_on_of_nodup_map h.unique ht hu hid

/-- Validity is a property of ids and dependencies. -/
theorem ValidGraph.congr {tasks tasks' : List PlanTask} (h : ValidGraph tasks)
    (hgraph : tasks'.map (fun t => (t.taskId, t.deps)) =
      tasks.map (fun t => (t.taskId, t.deps))) : ValidGraph tasks' := by
  have hids : taskIds tasks' = taskIds tasks := by
    have := congrArg (List.map Prod.fst) hgraph
    simpa [taskIds, Function.comp_def] using this
  have hedges : taskEdges tasks' = taskEdges tasks := by
    have hflat : ∀ ts : List PlanTask, ∀ ids : List String,
        ts.flatMap (fun t => (t.deps.filter (fun d => decide (d ∈ ids))).map
          (fun d => (d, t.taskId))) =
        (ts.map (fun t => (t.taskId, t.deps))).flatMap (fun p =>
          (p.2.filter (fun d => decide (d ∈ ids))).map (fun d => (d, p.1))) := by
      intro ts ids
      rw [List.flatMap_map]
    unfold taskEdges
    rw [hids, hflat, hgraph, ← hflat]
  refine ⟨hids ▸ h.unique, ?_, ?_⟩
  · intro t ht d hd
    have hmem : (t.taskId, t.deps) ∈ tasks.map (fun t => (t.taskId, t.deps)) :=
      hgraph ▸ List.mem_map_of_mem ht
    obtain ⟨u, hu, heq⟩ := List.mem_map.mp hmem
    obtain ⟨hid, hdeps⟩ := Prod.mk.inj heq
    rw [hids, ← hid]
    exact h.closed u hu d (hdeps ▸ hd)
  · rw [hids, hedges]
    exact h.order

end Octos.Fleet
