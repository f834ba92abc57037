/-
# `Octos.Pipeline.Depth` — the gate on compiled graphs, and its depth

`profile.rs`.  The gate reports what exceeds a profile: too many nodes or edges,
too long a chain, handlers and tools that are not allowed.  Depth is measured
along the edges that are not labelled back_edge.

A graph whose forward edges have a cycle has no longest chain, and the gate is
meant to skip it: `longest_chain` is to return nothing there.  It never looks
whether the queue took all nodes, so it returns the largest of the distances it
happens to have:

    forward edges acyclic   the length of a longest chain (`longestChain_iff`)
    forward edges cyclic    some number all the same (`longestChain_isSome`)
-/
import Octos.Pipeline.Cycles
import Octos.Pipeline.ShellBan
import Octos.Lib.LongestChain

namespace Octos.Pipeline

open Reach LongestChain

/-! ## The gate -/

structure ValidationProfile where
  allowedHandlers : List HandlerKind
  maxNodes : Nat
  maxEdges : Nat
  maxDepth : Nat
  banShell : Bool

/-- How `{:?}` writes a handler. -/
def HandlerKind.debug : HandlerKind → String
  | .codergen => "Codergen"
  | .shell => "Shell"
  | .gate => "Gate"
  | .noop => "Noop"
  | .parallel => "Parallel"
  | .dynamicParallel => "DynamicParallel"
  | .shellCheck => "ShellCheck"
  | .notify => "Notify"
  | .wait => "Wait"

def PipelineGraph.forwardChainEdges (g : PipelineGraph) : List (String × String) :=
  g.keptPairs (fun e => !e.isBackEdge)

/-- The in-degree counters of `longest_chain`. -/
def chainCounters (g : PipelineGraph) : Table String Nat :=
  indegrees g.nodeIds g.forwardChainEdges

/-- `longest_chain`; `order` is the order in which the counters are iterated. -/
def longestChain (g : PipelineGraph) (order : List String) : Option Nat :=
  longest g.nodeIds g.forwardChainEdges order

/-- More than the profile allows. -/
def capViolation (what cap : String) (found limit : Nat) : List ProfileViolation :=
  if limit < found then
    [⟨none, "graph has " ++ toString found ++ " " ++ what ++ ", exceeds " ++ cap ++ " " ++ toString limit⟩]
  else []

def depthViolation (depth : Option Nat) (limit : Nat) : List ProfileViolation :=
  match depth with
  | some depth =>
      if limit < depth then
        [⟨none, "graph depth " ++ toString depth ++ " exceeds max_depth " ++ toString limit⟩]
      else []
  | none => []

/-- What is reported of one node. -/
def nodeViolations (profile : ValidationProfile) (node : PipelineNode) : List ProfileViolation :=
  (if node.handler ∈ profile.allowedHandlers then []
    else [⟨some node.id, "handler " ++ node.handler.debug ++ " is not allowed at this level"⟩]) ++
  (if profile.banShell then Pipeline.banShell node else []) ++
  (if (node.handler = .codergen ∨ node.handler = .dynamicParallel) ∧ node.tools = [] then
    [⟨some node.id, "node must declare an explicit tool allowlist (empty = all builtins)"⟩]
    else [])

/-- `validate_under_profile`. -/
def validateUnderProfile (g : PipelineGraph) (profile : ValidationProfile) (order : List String) :
    List ProfileViolation :=
  capViolation "nodes" "max_nodes" g.nodes.size profile.maxNodes ++
    capViolation "edges" "max_edges" g.edges.length profile.maxEdges ++
    depthViolation (longestChain g order) profile.maxDepth ++
    g.nodes.toList.flatMap (fun (_, node) => nodeViolations profile node)

def ProfileViolation.IsDepth (v : ProfileViolation) : Prop :=
  v.node = none ∧ "graph depth ".toList <+: v.message.toList

/-! ## Depth violations -/

theorem capViolation_not_depth {what cap : String} {found limit : Nat} {v : ProfileViolation}
    (h : v ∈ capViolation what cap found limit) : ¬v.IsDepth := by
  unfold capViolation at h
  split at h
  · obtain rfl := List.mem_singleton.mp h
    rintro ⟨-, hdepth⟩
    simp only [String.toList_append] at hdepth
    obtain ⟨rest, hrest⟩ := hdepth
    have hseventh := congrArg (fun l => l[6]?) hrest
    simp at hseventh
  · cases h

theorem nodeViolations_not_depth {profile : ValidationProfile} {node : PipelineNode} {v : ProfileViolation}
    (h : v ∈ nodeViolations profile node) : ¬v.IsDepth := by
  have hnode : v.node = some node.id := by
    unfold nodeViolations Pipeline.banShell at h
    simp only [List.mem_append] at h
    rcases h with (h | h) | h
    · split at h
      · cases h
      · rw [List.mem_singleton.mp h]
    · split at h
      · rcases List.mem_append.mp h with h | h
        · split at h
          · rw [List.mem_singleton.mp h]
          · cases h
        · split at h
          · rw [List.mem_singleton.mp h]
          · cases h
      · cases h
    · split at h
      · rw [List.mem_singleton.mp h]
      · cases h
  rintro ⟨hnone, -⟩
  rw [hnode] at hnone
  cases hnone

/-- A depth violation is reported if the measured depth exceeds the limit. -/
theorem reports_depth_iff (g : PipelineGraph) (profile : ValidationProfile) (order : List String) :
    (∃ v ∈ validateUnderProfile g profile order, v.IsDepth) ↔
      ∃ n, longestChain g order = some n ∧ profile.maxDepth < n := by
  constructor
  · rintro ⟨v, hv, hdepth⟩
    simp only [validateUnderProfile, List.mem_append] at hv
    rcases hv with ((hv | hv) | hv) | hv
    · exact absurd hdepth (capViolation_not_depth hv)
    · exact absurd hdepth (capViolation_not_depth hv)
    · unfold depthViolation at hv
      split at hv
      · next n hn =>
          split at hv
          · next hlt => exact ⟨n, hn, hlt⟩
          · cases hv
      · cases hv
    · obtain ⟨row, -, hv⟩ := List.mem_flatMap.mp hv
      exact absurd hdepth (nodeViolations_not_depth hv)
  · rintro ⟨n, hn, hlt⟩
    refine ⟨⟨none, "graph depth " ++ toString n ++ " exceeds max_depth " ++ toString profile.maxDepth⟩,
      ?_, rfl, ?_⟩
    · refine List.mem_append_left _ (List.mem_append_right _ ?_)
      rw [hn, depthViolation, if_pos hlt]
      exact List.mem_singleton.mpr rfl
    · simp only [String.toList_append, List.append_assoc]
      exact List.prefix_append _ _

/-! ## The depth -/

/-- The edges not labelled back_edge join nodes of the graph. -/
def PipelineGraph.ForwardOverNodes (g : PipelineGraph) : Prop :=
  ∀ e ∈ g.edges, e.isBackEdge = false → g.hasNode e.source = true ∧ g.hasNode e.target = true

/-- The relation of the edges not labelled back_edge has no cycle. -/
def PipelineGraph.ForwardAcyclic (g : PipelineGraph) : Prop :=
  Acyclic (g.Kept (fun e => !e.isBackEdge))

variable {g : PipelineGraph} {order : List String}

theorem PipelineGraph.ForwardOverNodes.pairs (h : g.ForwardOverNodes) :
    ∀ e ∈ g.forwardChainEdges, e.1 ∈ g.nodeIds ∧ e.2 ∈ g.nodeIds := by
  intro p hp
  obtain ⟨e, he, rfl⟩ := List.mem_map.mp hp
  obtain ⟨he, hkeep⟩ := List.mem_filter.mp he
  obtain ⟨hs, ht⟩ := h e he (by simpa using hkeep)
  exact ⟨mem_nodeIds.mpr hs, mem_nodeIds.mpr ht⟩

/-- The counters are those of the nodes. -/
theorem PipelineGraph.ForwardOverNodes.counters_perm (h : g.ForwardOverNodes) :
    ((chainCounters g).toList.map Prod.fst).Perm g.nodeIds := by
  refine (List.perm_ext_iff_of_nodup (Table.rows_keys_nodup _) (Table.rows_keys_nodup _)).mpr ?_
  intro n
  rw [List.mem_map]
  constructor
  · rintro ⟨⟨k, v⟩, hrow, rfl⟩
    have hget := Table.mem_rows.mp hrow
    rw [chainCounters, indegrees_get h.pairs] at hget
    split at hget
    · assumption
    · cases hget
  · intro hn
    have hget := indegrees_get h.pairs n
    rw [if_pos (show n ∈ g.nodeIds from hn)] at hget
    exact ⟨(n, _), Table.mem_rows.mpr hget, rfl⟩

theorem PipelineGraph.ForwardAcyclic.not_circular (h : g.ForwardAcyclic) (n : String) :
    ¬Kahn.Circular g.forwardChainEdges n := by
  rintro ⟨c, -, hcycle⟩
  refine h c ?_
  rw [← adj_keptPairs]
  exact Relation.transGen_swap.mp hcycle

/-- A longest chain of the relation has `n` nodes. -/
def PipelineGraph.LongestForwardChain (g : PipelineGraph) (n : Nat) : Prop :=
  IsLongest g.nodeIds g.forwardChainEdges n

theorem longestChain_iff (h : g.ForwardOverNodes) (hacyclic : g.ForwardAcyclic)
    (horder : order.Perm ((chainCounters g).toList.map Prod.fst)) (n : Nat) :
    longestChain g order = some n ↔ g.LongestForwardChain n :=
  longest_iff h.pairs (Table.rows_keys_nodup _) (horder.trans h.counters_perm)
    (fun m _ => hacyclic.not_circular m) n

theorem longestChain_isSome (h : g.ForwardOverNodes) (hcyclic : ¬g.ForwardAcyclic)
    (horder : order.Perm ((chainCounters g).toList.map Prod.fst)) : longestChain g order ≠ none := by
  refine longest_isSome h.pairs (Table.rows_keys_nodup _) (horder.trans h.counters_perm) ?_
  intro hnil
  refine hcyclic ?_
  intro a hcycle
  obtain ⟨m, ⟨e, he, hkeep, rfl, -⟩, -⟩ := Relation.TransGen.head'_iff.mp hcycle
  have hmem := mem_nodeIds.mpr (h e he (by simpa using hkeep)).1
  rw [hnil] at hmem
  cases hmem

/-! ## What the gate is to do -/

/-- The depth is that of a longest chain, there is none on a cycle, and a violation
is reported exactly for an acyclic graph with too long a chain. -/
structure DepthGate (g : PipelineGraph) : Prop where
  acyclic : g.ForwardAcyclic → ∀ order, order.Perm ((chainCounters g).toList.map Prod.fst) →
    ∀ n, longestChain g order = some n ↔ g.LongestForwardChain n
  cyclic : ¬g.ForwardAcyclic → ∀ order, order.Perm ((chainCounters g).toList.map Prod.fst) →
    longestChain g order = none
  violation : ∀ order, order.Perm ((chainCounters g).toList.map Prod.fst) → ∀ profile,
    (∃ v ∈ validateUnderProfile g profile order, v.IsDepth) ↔
      g.ForwardAcyclic ∧ ∃ n, g.LongestForwardChain n ∧ profile.maxDepth < n

/-- **The depth gate works on acyclic graphs and on no others.** -/
theorem depthGate_iff (g : PipelineGraph) (h : g.ForwardOverNodes) : DepthGate g ↔ g.ForwardAcyclic := by
  constructor
  · intro hgate
    by_contra hcyclic
    exact longestChain_isSome h hcyclic (.refl _) (hgate.cyclic hcyclic _ (.refl _))
  · intro hacyclic
    refine ⟨fun _ order horder => longestChain_iff h hacyclic horder, absurd hacyclic, ?_⟩
    intro order horder profile
    rw [reports_depth_iff, and_iff_right hacyclic]
    refine exists_congr (fun n => and_congr_left' ?_)
    exact longestChain_iff h hacyclic horder n

/-- Two nodes that lead to each other. -/
def twoNodeCycle : PipelineGraph where
  maxTotalTokens := none
  nodes := ((∅ : Table String PipelineNode).insert "a" { id := "a", handler := .gate }).insert "b"
    { id := "b", handler := .gate }
  edges := [⟨"a", "b", none, none, .finite 1⟩, ⟨"b", "a", none, none, .finite 1⟩]

theorem twoNodeCycle_overNodes : twoNodeCycle.ForwardOverNodes := by
  intro e he _
  have hall : ∀ e ∈ twoNodeCycle.edges, twoNodeCycle.hasNode e.source = true ∧
      twoNodeCycle.hasNode e.target = true := by decide
  exact hall e he

theorem twoNodeCycle_cyclic : ¬twoNodeCycle.ForwardAcyclic := by
  intro h
  refine h "a" (.tail (b := "b") (.single ?_) ?_)
  · exact ⟨⟨"a", "b", none, none, .finite 1⟩, by simp [twoNodeCycle], rfl, rfl, rfl⟩
  · exact ⟨⟨"b", "a", none, none, .finite 1⟩, by simp [twoNodeCycle], rfl, rfl, rfl⟩

theorem depthGate_iff_twoNodeCycle : DepthGate twoNodeCycle ↔ twoNodeCycle.ForwardAcyclic :=
  depthGate_iff twoNodeCycle twoNodeCycle_overNodes

/-- On the cycle the depth is one, not nothing. -/
theorem twoNodeCycle_has_depth : ¬twoNodeCycle.ForwardAcyclic ∧
    longestChain twoNodeCycle ["a", "b"] = some 1 ∧ ¬DepthGate twoNodeCycle := by
  have hdepth : longestChain twoNodeCycle ["a", "b"] = some 1 := by rfl
  refine ⟨twoNodeCycle_cyclic, hdepth, ?_⟩
  intro hgate
  have hnone := hgate.cyclic twoNodeCycle_cyclic ["a", "b"] (by rfl)
  rw [hdepth] at hnone
  cases hnone

end Octos.Pipeline
