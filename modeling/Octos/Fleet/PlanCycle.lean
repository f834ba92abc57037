/-
# `Octos.Fleet.PlanCycle` — what the validation of a plan reports

`validateGraph_iff` says which plans are accepted in terms of an order.  Here
the same is said of the dependency relation itself: it is acyclic; and a refused
plan of distinct tasks without dangling dependencies is refused with exactly the
tasks from which a cycle is reached, downstream tasks included.
-/
import Octos.Fleet.Plan
import Octos.Lib.KahnCycle

namespace Octos.Fleet

variable {tasks : List PlanTask}

/-- The task `id` has the dependency `dep`. -/
def DependsOn (tasks : List PlanTask) (id dep : String) : Prop :=
  ∃ t ∈ tasks, t.taskId = id ∧ dep ∈ t.deps

/-- Following dependencies from `id`, a cycle is reached. -/
def ReachesCycle (tasks : List PlanTask) (id : String) : Prop :=
  ∃ c, Relation.ReflTransGen (DependsOn tasks) id c ∧ Relation.TransGen (DependsOn tasks) c c

/-- Every dependency is another task of the list. -/
def DepsClosed (tasks : List PlanTask) : Prop :=
  ∀ t ∈ tasks, ∀ d ∈ t.deps, d ≠ t.taskId ∧ d ∈ taskIds tasks

theorem taskEdges_nodes : ∀ e ∈ taskEdges tasks, e.1 ∈ taskIds tasks ∧ e.2 ∈ taskIds tasks := by
  intro e he
  obtain ⟨t, ht, -, hin, hid⟩ := mem_taskEdges.mp he
  exact ⟨hin, hid ▸ List.mem_map_of_mem ht⟩

/-- In a closed list the edges of the sort are the dependencies. -/
theorem DepsClosed.edges (hclosed : DepsClosed tasks) :
    (fun id d => (d, id) ∈ taskEdges tasks) = DependsOn tasks := by
  funext id d
  refine propext (mem_taskEdges.trans ?_)
  constructor
  · rintro ⟨t, ht, hd, -, rfl⟩
    exact ⟨t, ht, rfl, hd⟩
  · rintro ⟨t, ht, rfl, hd⟩
    exact ⟨t, ht, hd, (hclosed t ht d hd).2, rfl⟩

theorem DepsClosed.circular_iff (hclosed : DepsClosed tasks) (id : String) :
    Kahn.Circular (taskEdges tasks) id ↔ ReachesCycle tasks id := by
  unfold Kahn.Circular ReachesCycle
  rw [hclosed.edges]

/-- A cycle goes through tasks of the list. -/
theorem acyclic_iff :
    Reach.Acyclic (DependsOn tasks) ↔ ∀ id ∈ taskIds tasks, ¬ReachesCycle tasks id := by
  constructor
  · rintro hacyclic id - ⟨c, -, hcycle⟩
    exact hacyclic c hcycle
  · intro hnone c hcycle
    obtain ⟨d, ⟨t, ht, rfl, -⟩, -⟩ := Relation.TransGen.head'_iff.mp hcycle
    exact hnone t.taskId (List.mem_map_of_mem ht) ⟨t.taskId, .refl, hcycle⟩

/-- A topological order of the tasks. -/
def TopologicalOrder (tasks : List PlanTask) (l : List String) : Prop :=
  l.Perm (taskIds tasks) ∧ ∀ xs id ys, l = xs ++ id :: ys → ∀ d, DependsOn tasks id d → d ∈ xs

theorem DepsClosed.ordered_iff (hclosed : DepsClosed tasks) (l : List String) :
    Kahn.Ordered (taskEdges tasks) l ↔
      ∀ xs id ys, l = xs ++ id :: ys → ∀ d, DependsOn tasks id d → d ∈ xs := by
  rw [← hclosed.edges]
  constructor
  · intro hord xs id ys hl d hd
    exact hord xs id ys hl (d, id) hd rfl
  · intro hord xs id ys hl e he hid
    subst hid
    exact hord xs e.2 ys hl e.1 he

theorem acyclic_iff_order (hunique : (taskIds tasks).Nodup) (hclosed : DepsClosed tasks) :
    Reach.Acyclic (DependsOn tasks) ↔ ∃ l, TopologicalOrder tasks l := by
  rw [acyclic_iff]
  have hkahn := Kahn.acyclic_iff_ordered (@taskEdges_nodes tasks) hunique
  simp only [hclosed.circular_iff, hclosed.ordered_iff] at hkahn
  exact hkahn

theorem validGraph_iff :
    ValidGraph tasks ↔ (taskIds tasks).Nodup ∧ DepsClosed tasks ∧ Reach.Acyclic (DependsOn tasks) := by
  constructor
  · intro h
    refine ⟨h.unique, h.closed, acyclic_iff.mpr ?_⟩
    intro id hid
    rw [← DepsClosed.circular_iff h.closed]
    obtain ⟨l, hl, hord⟩ := h.order
    exact hord.not_circular (hl id hid)
  · rintro ⟨hunique, hclosed, hacyclic⟩
    obtain ⟨l, hl, hord⟩ := (acyclic_iff_order hunique hclosed).mp hacyclic
    exact ⟨hunique, hclosed, l, fun id hid => hl.mem_iff.mpr hid, (hclosed.ordered_iff l).mpr hord⟩

/-- What `find_cycle` reports. -/
theorem findCycle_some (hclosed : DepsClosed tasks) {ids : List String} (h : findCycle tasks = some ids) :
    ids.Pairwise (· < ·) ∧ ∀ id, id ∈ ids ↔ id ∈ taskIds tasks ∧ ReachesCycle tasks id := by
  obtain ⟨done, hinv, hq⟩ := Kahn.run_inv (@taskEdges_nodes tasks)
  unfold findCycle at h
  simp only at h
  split at h
  · cases h
  obtain rfl := Option.some.inj h
  refine ⟨?_, ?_⟩
  · have hnd : (((Kahn.run (taskIds tasks) (taskEdges tasks)).indeg.toList.filter
        (fun r => decide (0 < r.2))).map Prod.fst).Nodup :=
      (Table.rows_keys_nodup _).sublist (List.filter_sublist.map _)
    have hsorted := List.pairwise_insertionSort (· ≤ ·) (((Kahn.run (taskIds tasks) (taskEdges tasks)).indeg.toList.filter
        (fun r => decide (0 < r.2))).map Prod.fst)
    have hnd' := (List.perm_insertionSort (· ≤ ·) _).nodup_iff.mpr hnd
    exact (hsorted.and hnd').imp (fun h => lt_of_le_of_ne h.1 h.2)
  · intro id
    rw [List.mem_insertionSort, ← hclosed.circular_iff, ← hinv.left_iff taskEdges_nodes hq id]
    simp only [List.mem_map, List.mem_filter, decide_eq_true_eq, Prod.exists, exists_and_right,
      exists_eq_right]
    refine exists_congr ?_
    intro v
    rw [Table.mem_rows]

/-- **Validation is exact.** -/
theorem validation_exact (tasks : List PlanTask) :
    (validateGraph tasks = .ok () ↔
      (taskIds tasks).Nodup ∧ DepsClosed tasks ∧ Reach.Acyclic (DependsOn tasks)) ∧
    ((taskIds tasks).Nodup → DepsClosed tasks →
      (Reach.Acyclic (DependsOn tasks) ↔ ∃ l, TopologicalOrder tasks l) ∧
      (¬Reach.Acyclic (DependsOn tasks) → ∃ ids, validateGraph tasks = .error (.cycle ids) ∧
        ids.Pairwise (· < ·) ∧ ∀ id, id ∈ ids ↔ id ∈ taskIds tasks ∧ ReachesCycle tasks id)) ∧
    (∀ q, q.Perm (Kahn.start (taskIds tasks) (taskEdges tasks)).queue → ∀ fuel, tasks.length ≤ fuel →
      ∃ st, Kahn.loopChecked (taskEdges tasks) fuel (Kahn.startFrom (taskIds tasks) (taskEdges tasks) q) = some st ∧
        st.queue = [] ∧ st.processed = (Kahn.run (taskIds tasks) (taskEdges tasks)).processed ∧
        ∀ id : String, st.indeg[id]? = (Kahn.run (taskIds tasks) (taskEdges tasks)).indeg[id]?) := by
  refine ⟨validateGraph_iff.trans validGraph_iff, ?_, ?_⟩
  · intro hunique hclosed
    refine ⟨acyclic_iff_order hunique hclosed, ?_⟩
    intro hcyclic
    have hdup : firstDuplicate [] (taskIds tasks) = none :=
      firstDuplicate_none.mpr ⟨hunique, fun _ _ => List.not_mem_nil⟩
    have hbad : tasks.findSome? (badDep (taskIds tasks)) = none :=
      List.findSome?_eq_none_iff.mpr (fun t ht => badDep_none.mpr (hclosed t ht))
    cases hfind : findCycle tasks with
    | none =>
        obtain ⟨l, hl, hord⟩ := (findCycle_none hunique).mp hfind
        exact absurd (validGraph_iff.mp ⟨hunique, hclosed, l, hl, hord⟩).2.2 hcyclic
    | some ids =>
        refine ⟨ids, ?_, findCycle_some hclosed hfind⟩
        unfold validateGraph
        rw [hdup, hbad, hfind]
  · intro q hq fuel hfuel
    refine Kahn.sort_any_order taskEdges_nodes hq ?_
    rw [taskIds, List.length_map]
    exact hfuel

end Octos.Fleet
