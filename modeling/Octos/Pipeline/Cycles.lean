/-
# `Octos.Pipeline.Cycles` — the three cycle detectors

`graph.rs`, `validate.rs` and `compose.rs` each have a copy of the same search.
They differ in the edges they keep, and the last one in that it has no set of
white nodes and asks what is black instead:

    detect_cycles                            every edge
    detect_cycles_ignoring_marked_back_edges edges without a marker
    detect_cycle_ir                          edges not labelled back_edge

The label of the last one is a marker of the second, so what the last one keeps
contains what the second keeps, and its verdict is the stricter one.
-/
import Octos.Pipeline.Ir

namespace Octos.Pipeline

open Reach ThreeColour

/-! ## The other two -/

/-- `PipelineGraph::detect_cycles`. -/
def PipelineGraph.detectCycles (g : PipelineGraph) (order : List String) : Except String Unit :=
  detectKept g (fun _ => true) order

/-- `label == "back_edge"`. -/
def PipelineEdge.isBackEdge (e : PipelineEdge) : Bool :=
  e.label == some "back_edge"

/-- `detect_cycle_ir`. -/
def detectCycleIr (g : PipelineGraph) (order : List String) : Except String Unit :=
  (search (g.keptPairs (fun e => !e.isBackEdge)) (fun s node => !decide (node ∈ s.black)) ∅
    order).mapError cycleMessage

/-! ## What a detector is for -/

/-- The relation of the kept edges. -/
def PipelineGraph.Kept (g : PipelineGraph) (keep : PipelineEdge → Bool) (a b : String) : Prop :=
  ∃ e ∈ g.edges, keep e = true ∧ e.source = a ∧ e.target = b

/-- From a node of the graph a cycle is reached along kept edges. -/
def PipelineGraph.Cyclic (g : PipelineGraph) (keep : PipelineEdge → Bool) : Prop :=
  ∃ n, g.hasNode n = true ∧ ∃ a, Relation.ReflTransGen (g.Kept keep) n a ∧
    Relation.TransGen (g.Kept keep) a a

/-- The verdict is exact, and an error names a closed walk. -/
structure Detects (g : PipelineGraph) (keep : PipelineEdge → Bool) (verdict : Except String Unit) :
    Prop where
  exact : verdict = .ok () ↔ ¬g.Cyclic keep
  names : ∀ text, verdict = .error text → ∃ walk,
    text = "cycle detected: " ++ String.intercalate " -> " walk ∧
    ClosedWalk (g.Kept keep) walk ∧
    ∃ n, g.hasNode n = true ∧ ∀ a ∈ walk.head?, Relation.ReflTransGen (g.Kept keep) n a

variable {g : PipelineGraph} {keep : PipelineEdge → Bool} {order : List String}

theorem adj_keptPairs : Adj (g.keptPairs keep) = g.Kept keep := by
  funext a b
  simp only [Adj, PipelineGraph.keptPairs, List.mem_map, List.mem_filter, Prod.mk.injEq,
    PipelineGraph.Kept, eq_iff_iff]
  constructor
  · rintro ⟨e, ⟨he, hkeep⟩, hs, ht⟩
    exact ⟨e, he, hkeep, hs, ht⟩
  · rintro ⟨e, he, hkeep, hs, ht⟩
    exact ⟨e, ⟨he, hkeep⟩, hs, ht⟩

/-- In whatever order the node map is iterated. -/
theorem reachesCycle_iff (horder : order.Perm g.nodeIds) :
    ReachesCycle (g.keptPairs keep) order ↔ g.Cyclic keep := by
  rw [ReachesCycle, PipelineGraph.Cyclic, adj_keptPairs]
  refine exists_congr (fun n => and_congr_left' ?_)
  rw [horder.mem_iff, mem_nodeIds]

theorem search_detects {unvisited : Search String → String → Bool} {white : Finset String}
    (horder : order.Perm g.nodeIds) (hasks : Asks (g.keptPairs keep) unvisited white order) :
    Detects g keep ((search (g.keptPairs keep) unvisited white order).mapError cycleMessage) := by
  have hiff := search_iff hasks
  have herror := @search_error _ _ _ _ _ _ hasks
  revert hiff herror
  cases search (g.keptPairs keep) unvisited white order with
  | ok u =>
      intro hiff _
      refine ⟨?_, ?_⟩
      · rw [← reachesCycle_iff horder, ← hiff]
        exact iff_of_true rfl rfl
      · intro text h
        cases h
  | error walk =>
      intro hiff herror
      refine ⟨?_, ?_⟩
      · rw [← reachesCycle_iff horder, ← hiff]
        exact iff_of_false (by simp [Except.mapError]) (by simp)
      · intro text h
        obtain rfl : cycleMessage walk = text := Except.error.inj h
        obtain ⟨hwalk, r, hr, hreach⟩ := herror rfl
        rw [adj_keptPairs] at hwalk hreach
        exact ⟨walk, rfl, hwalk, r, mem_nodeIds.mp (horder.mem_iff.mp hr), hreach⟩

/-! ## The stricter one -/

/-- The label of a compiled back edge is a marker. -/
theorem isMarked_of_isBackEdge {e : PipelineEdge} (h : e.isBackEdge = true) : e.isMarked = true := by
  have hlabel : e.label = some "back_edge" := by simpa [PipelineEdge.isBackEdge] using h
  have hmarker : hasBackEdgeMarker "back_edge" = true := by rfl
  rw [PipelineEdge.isMarked, hlabel, Option.any_some, hmarker, Bool.true_or]

theorem Kept.of_unmarked {a b : String} (h : g.Kept (fun e => !e.isMarked) a b) :
    g.Kept (fun e => !e.isBackEdge) a b := by
  obtain ⟨e, he, hkeep, hs, ht⟩ := h
  refine ⟨e, he, ?_, hs, ht⟩
  show (!e.isBackEdge) = true
  cases hback : e.isBackEdge with
  | false => rfl
  | true => simp [isMarked_of_isBackEdge hback] at hkeep

theorem Cyclic.of_unmarked (h : g.Cyclic (fun e => !e.isMarked)) : g.Cyclic (fun e => !e.isBackEdge) := by
  obtain ⟨n, hn, a, hreach, hcycle⟩ := h
  exact ⟨n, hn, a, Relation.ReflTransGen.mono (fun _ _ => Kept.of_unmarked) _ _ hreach,
    Relation.TransGen.mono (fun _ _ => Kept.of_unmarked) _ _ hcycle⟩

/-- **The detectors are exact**, in every order of the node map, and what the
detector of compiled graphs accepts the detector of the validator accepts. -/
theorem detectors_exact (g : PipelineGraph) (order : List String) (horder : order.Perm g.nodeIds) :
    Detects g (fun _ => true) (g.detectCycles order) ∧
    Detects g (fun e => !e.isMarked) (detectCyclesIgnoringMarkedBackEdges g order) ∧
    Detects g (fun e => !e.isBackEdge) (detectCycleIr g order) ∧
    ∀ ir order', compile ir = .ok g → order'.Perm g.nodeIds → detectCycleIr g order' = .ok () →
      detectCyclesIgnoringMarkedBackEdges g order = .ok () := by
  have hmarked : Detects g (fun e => !e.isMarked) (detectCyclesIgnoringMarkedBackEdges g order) :=
    search_detects horder (asks_white _ order)
  have hir : ∀ order : List String, order.Perm g.nodeIds →
      Detects g (fun e => !e.isBackEdge) (detectCycleIr g order) :=
    fun order horder => search_detects horder (asks_black _ order)
  refine ⟨search_detects horder (asks_white _ order), hmarked, hir order horder, ?_⟩
  intro ir order' _ horder' hok
  have hnone := (hir order' horder').exact.mp hok
  exact hmarked.exact.mpr (fun hcyclic => hnone (Cyclic.of_unmarked hcyclic))

/-- One node with a marked edge to itself. -/
def retryLoop : PipelineGraph where
  maxTotalTokens := none
  nodes := (∅ : Table String PipelineNode).insert "draft" {}
  edges := [⟨"draft", "draft", some "back_edge", none, .finite 1⟩]

theorem detectors_exact_retryLoop :
    Detects retryLoop (fun e => !e.isBackEdge) (detectCycleIr retryLoop ["draft"]) :=
  (detectors_exact retryLoop ["draft"] (by rfl)).2.2.1

end Octos.Pipeline
