/-
# `Octos.Pipeline.Graph` — pipeline graphs, their validation, their back edges

`graph.rs` and the structural rules of `validate.rs`, and from `executor.rs`
what the scheduler asks of a graph: which edges go back, which nodes precede a
node, which region a retry runs again.

A graph may have cycles, if they are marked: the cycle rule leaves out every
edge with a marker, and `edgeIsBack` tells the marked edges that close a cycle
from those that only look like it.  The forward relation is what remains, and
`Validated.forward_acyclic` is the fact everything else rests on.
-/
import Octos.Pipeline.Condition
import Octos.Lib.Reach
import Octos.Lib.ThreeColour
import Octos.Lib.Table

namespace Octos.Pipeline

open Reach

/-! ## Graphs -/

inductive HandlerKind
  | codergen
  | shell
  | gate
  | noop
  | parallel
  | dynamicParallel
  | shellCheck
  | notify
  | wait
  deriving DecidableEq, Repr

/-- An `f64` as far as weights are compared. -/
inductive Weight
  | finite (value : ℚ)
  | infinite (negative : Bool)
  | nan
  deriving DecidableEq

/-- What happens when a node exceeds its deadline. -/
inductive DeadlineAction
  | abort
  | skip
  | retry (maxAttempts : U32)
  | escalate
  deriving DecidableEq

structure MissionCheckpoint where
  name : String
  resumable : Bool := true
  deriving DecidableEq

structure PipelineNode where
  id : String := ""
  handler : HandlerKind := .codergen
  prompt : Option String := none
  label : Option String := none
  model : Option String := none
  contextWindow : Option U32 := none
  maxOutputTokens : Option U32 := none
  reasoningEffort : Option String := none
  maxIterations : Option U32 := none
  tools : List String := []
  goalGate : Bool := false
  maxRetries : U32 := 0
  timeoutSecs : Option U64 := none
  suggestedNext : Option String := none
  converge : Option String := none
  workerPrompt : Option String := none
  plannerModel : Option String := none
  maxTasks : Option U32 := none
  humanGate : Bool := false
  resolver : Option String := none
  artifactRefs : List String := []
  checkpointRefs : List String := []
  deadlineSecs : Option Weight := none
  deadlineAction : Option DeadlineAction := none
  continueOnError : Bool := false
  checkpoints : List MissionCheckpoint := []
  deriving DecidableEq

/-- `f64::EPSILON`. -/
def epsilon : ℚ := 1 / 2 ^ 52

/-- `(weight - 1.0).abs() < f64::EPSILON`. -/
def Weight.isDefault : Weight → Bool
  | .finite q => decide (|q - 1| < epsilon)
  | _ => false

structure PipelineEdge where
  source : String
  target : String
  label : Option String
  condition : Option String
  weight : Weight
  deriving DecidableEq

structure Subgraph where
  id : String
  label : Option String
  nodeIds : List String
  deriving DecidableEq

/-- How much of its output a pipeline hands back. -/
inductive FidelityMode
  | full
  | truncate (maxChars : Nat)
  | compact
  | summary (maxLines : Nat)
  deriving DecidableEq

structure PipelineGraph where
  id : String := ""
  label : Option String := none
  defaultModel : Option String := none
  maxTotalTokens : Option U32
  defaultTimeoutSecs : Option U64 := none
  resultFidelity : Option FidelityMode := none
  nodes : Table String PipelineNode
  edges : List PipelineEdge
  subgraphs : List Subgraph := []

/-- The ids, in order. -/
def PipelineGraph.nodeIds (g : PipelineGraph) : List String :=
  g.nodes.toList.map Prod.fst

def PipelineGraph.hasNode (g : PipelineGraph) (id : String) : Bool :=
  g.nodes[id]?.isSome

/-- Every edge as a pair. -/
def PipelineGraph.pairs (g : PipelineGraph) : List (String × String) :=
  g.edges.map (fun e => (e.source, e.target))

/-! ## Back edges -/

def hasBackEdgeMarker (value : String) : Bool :=
  let value := String.ofList (value.toList.map Char.toLower)
  containsText value "retry" || containsText value "back_edge" ||
    containsText value "back-edge" || containsText value "guard_back"

/-- `edge_allows_back_edge`. -/
def PipelineEdge.isMarked (e : PipelineEdge) : Bool :=
  e.label.any hasBackEdgeMarker || e.condition.any hasBackEdgeMarker

def graphReaches (g : PipelineGraph) (source target : String) : Bool :=
  reaches g.pairs source target

/-- A marked edge whose target leads back to its source. -/
def edgeIsBack (g : PipelineGraph) (e : PipelineEdge) : Bool :=
  e.isMarked && graphReaches g e.target e.source

def PipelineGraph.forwardEdges (g : PipelineGraph) : List PipelineEdge :=
  g.edges.filter (fun e => !edgeIsBack g e)

def PipelineGraph.forwardPairs (g : PipelineGraph) : List (String × String) :=
  g.forwardEdges.map (fun e => (e.source, e.target))

/-- The sources of the forward edges into a node, one for each edge. -/
def forwardPreds (g : PipelineGraph) (id : String) : List String :=
  (g.edges.filter (fun e => e.target == id && !edgeIsBack g e)).map PipelineEdge.source

/-- The region a retry of a node runs again. -/
def forwardReachable (g : PipelineGraph) (start : String) : List String :=
  reachSet g.forwardPairs start

/-! ## Validation -/

inductive Severity
  | error
  | warning
  deriving DecidableEq

inductive GraphLocation
  | graph
  | node (id : String)
  | edge (source target : String)
  deriving DecidableEq

structure PipelineDiagnostic where
  rule : Nat
  severity : Severity
  location : GraphLocation
  deriving DecidableEq

def edgeLocation (e : PipelineEdge) : GraphLocation :=
  .edge e.source e.target

/-- Named `start`, or the only node without an incoming edge. -/
def findStartNode (g : PipelineGraph) : Option String :=
  if g.hasNode "start" then some "start"
  else
    match g.nodeIds.filter (fun id => !(g.edges.map PipelineEdge.target).contains id) with
    | [id] => some id
    | _ => none

def rule01StartNode (g : PipelineGraph) : List PipelineDiagnostic :=
  if (findStartNode g).isNone then [⟨1, .error, .graph⟩] else []

def rule02UnreachableNodes (g : PipelineGraph) : List PipelineDiagnostic :=
  match findStartNode g with
  | none => []
  | some start =>
      let visited := bfs g.pairs (g.edges.length + 1) [start] [start]
      (g.nodeIds.filter (fun id => !visited.contains id)).map (fun id => ⟨2, .error, .node id⟩)

def rule03EdgeTargetsExist (g : PipelineGraph) : List PipelineDiagnostic :=
  (g.edges.filter (fun e => !g.hasNode e.target)).map (fun e => ⟨3, .error, edgeLocation e⟩)

def rule04NoSelfLoops (g : PipelineGraph) : List PipelineDiagnostic :=
  (g.edges.filter (fun e => e.source == e.target && !e.isMarked)).map
    (fun e => ⟨4, .error, edgeLocation e⟩)

def rule06ConditionsParse (g : PipelineGraph) : List PipelineDiagnostic :=
  (g.edges.filter (fun e => e.condition.any (fun c => (parseCondition c).isNone))).map
    (fun e => ⟨6, .error, edgeLocation e⟩)

/-- `weight <= 0.0`, which a NaN is not. -/
def Weight.notPositive : Weight → Bool
  | .finite q => decide (q ≤ 0)
  | .infinite negative => negative
  | .nan => false

def rule10PositiveWeight (g : PipelineGraph) : List PipelineDiagnostic :=
  (g.edges.filter (fun e => e.weight.notPositive)).map (fun e => ⟨10, .error, edgeLocation e⟩)

def rule11AtLeastOneNode (g : PipelineGraph) : List PipelineDiagnostic :=
  if g.nodes.isEmpty then [⟨11, .error, .graph⟩] else []

def rule12EdgeSourcesExist (g : PipelineGraph) : List PipelineDiagnostic :=
  (g.edges.filter (fun e => !g.hasNode e.source)).map (fun e => ⟨12, .error, edgeLocation e⟩)

/-- The converge attribute of a fan-out names a node. -/
def convergeDiagnostics (g : PipelineGraph) (rule : Nat) (id : String) (node : PipelineNode) :
    List PipelineDiagnostic :=
  match node.converge with
  | none => [⟨rule, .error, .node id⟩]
  | some target => if g.hasNode target then [] else [⟨rule, .error, .node id⟩]

def rule13ParallelConverge (g : PipelineGraph) : List PipelineDiagnostic :=
  g.nodes.toList.flatMap (fun (id, node) =>
    if node.handler = .parallel then
      convergeDiagnostics g 13 id node ++
        (if g.edges.any (fun e => e.source == id) then [] else [⟨13, .warning, .node id⟩])
    else [])

def rule14DynamicParallel (g : PipelineGraph) : List PipelineDiagnostic :=
  g.nodes.toList.flatMap (fun (id, node) =>
    if node.handler = .dynamicParallel then convergeDiagnostics g 14 id node else [])

/-- The edges a cycle detector keeps, as pairs. -/
def PipelineGraph.keptPairs (g : PipelineGraph) (keep : PipelineEdge → Bool) : List (String × String) :=
  (g.edges.filter keep).map (fun e => (e.source, e.target))

def cycleMessage (walk : List String) : String :=
  "cycle detected: " ++ String.intercalate " -> " walk

/-- The search over the kept edges, with a set of white nodes; `order` is the
order in which the node map is iterated. -/
def detectKept (g : PipelineGraph) (keep : PipelineEdge → Bool) (order : List String) :
    Except String Unit :=
  (ThreeColour.search (g.keptPairs keep) (fun s node => decide (node ∈ s.white)) order.toFinset
    order).mapError cycleMessage

/-- `detect_cycles_ignoring_marked_back_edges`. -/
def detectCyclesIgnoringMarkedBackEdges (g : PipelineGraph) (order : List String) :
    Except String Unit :=
  detectKept g (fun e => !e.isMarked) order

def rule15NoCycles (g : PipelineGraph) : List PipelineDiagnostic :=
  match detectCyclesIgnoringMarkedBackEdges g g.nodeIds with
  | .ok _ => []
  | .error _ => [⟨15, .error, .graph⟩]

def hasErrors (diags : List PipelineDiagnostic) : Bool :=
  diags.any (fun d => decide (d.severity = .error))

/-- The rules the DAG scheduler relies on. -/
def dagRules (g : PipelineGraph) : List PipelineDiagnostic :=
  rule01StartNode g ++ rule02UnreachableNodes g ++ rule03EdgeTargetsExist g ++
    rule04NoSelfLoops g ++ rule06ConditionsParse g ++ rule12EdgeSourcesExist g ++ rule15NoCycles g

/-- The rules on nodes, edges and routing. -/
def diagnostics (g : PipelineGraph) : List PipelineDiagnostic :=
  dagRules g ++ rule10PositiveWeight g ++ rule11AtLeastOneNode g ++ rule13ParallelConverge g ++
    rule14DynamicParallel g

/-- `graph_is_dag_schedulable`. -/
def graphIsDagSchedulable (g : PipelineGraph) : Bool :=
  let nodesOk := g.nodes.toList.all (fun (_, n) =>
    n.handler != .parallel && n.handler != .dynamicParallel && n.converge.isNone &&
      n.suggestedNext.isNone)
  let edgesOk := g.edges.all (fun e => edgeIsBack g e || (e.label.isNone && e.weight.isDefault))
  let start := findStartNode g
  let backEdgesOk := g.edges.all (fun e => !edgeIsBack g e ||
    (e.condition.isSome && (start == some e.target || !(forwardPreds g e.target).isEmpty)))
  nodesOk && edgesOk && backEdgesOk

theorem detectKept_iff (g : PipelineGraph) (keep : PipelineEdge → Bool) (order : List String) :
    detectKept g keep order = .ok () ↔ ¬ThreeColour.ReachesCycle (g.keptPairs keep) order := by
  rw [← ThreeColour.search_iff (ThreeColour.asks_white _ order), detectKept]
  cases ThreeColour.search _ _ _ order with
  | error walk => exact iff_of_false (by simp [Except.mapError]) (by simp)
  | ok u => exact iff_of_true rfl rfl

/-! ## What a validated graph guarantees -/

variable {g : PipelineGraph}

/-- The facts the rules establish. -/
structure Validated (g : PipelineGraph) : Prop where
  targets : ∀ e ∈ g.edges, g.hasNode e.target = true
  sources : ∀ e ∈ g.edges, g.hasNode e.source = true
  parses : ∀ e ∈ g.edges, ∀ c, e.condition = some c → ∃ expr, parseCondition c = some expr
  unmarked_acyclic : Acyclic (Adj ((g.edges.filter (fun e => !e.isMarked)).map
    (fun e => (e.source, e.target))))

theorem mem_nodeIds {id : String} : id ∈ g.nodeIds ↔ g.hasNode id = true := by
  rw [PipelineGraph.nodeIds, PipelineGraph.hasNode, List.mem_map, Option.isSome_iff_exists]
  constructor
  · rintro ⟨⟨k, node⟩, h, rfl⟩
    exact ⟨node, Table.mem_rows.mp h⟩
  · rintro ⟨node, h⟩
    exact ⟨(id, node), Table.mem_rows.mpr h, rfl⟩

/-- A rule that reports an error for each offender reports none without errors. -/
theorem no_offender {α : Type} {p : α → Bool} {l : List α} {rule : Nat} {f : α → GraphLocation}
    (h : hasErrors ((l.filter p).map (fun a => ⟨rule, .error, f a⟩)) = false) :
    ∀ a ∈ l, p a = false := by
  intro a ha
  by_contra hp
  have hmem : (⟨rule, .error, f a⟩ : PipelineDiagnostic) ∈
      (l.filter p).map (fun a => ⟨rule, .error, f a⟩) :=
    List.mem_map_of_mem (List.mem_filter.mpr ⟨ha, by simpa using hp⟩)
  rw [hasErrors, List.any_eq_false] at h
  exact h _ hmem (by simp)

theorem hasErrors_append {a b : List PipelineDiagnostic} :
    hasErrors (a ++ b) = false ↔ hasErrors a = false ∧ hasErrors b = false := by
  simp [hasErrors, List.any_append]

/-- **Validation establishes them.** -/
theorem Validated.of_rules (h : hasErrors (dagRules g) = false) : Validated g := by
  simp only [dagRules, hasErrors_append] at h
  obtain ⟨⟨⟨⟨⟨-, h03⟩, -⟩, h06⟩, h12⟩, h15⟩ := h
  have hsources : ∀ e ∈ g.edges, g.hasNode e.source = true := by
    intro e he
    simpa using no_offender h12 e he
  refine ⟨?_, hsources, ?_, ?_⟩
  · intro e he
    simpa using no_offender h03 e he
  · intro e he c hc
    have hok := no_offender h06 e he
    rw [hc] at hok
    simp only [Option.any_some, Option.isNone_eq_false_iff] at hok
    exact Option.isSome_iff_exists.mp hok
  · have hok : detectCyclesIgnoringMarkedBackEdges g g.nodeIds = .ok () := by
      rw [rule15NoCycles] at h15
      split at h15
      · next hcycles => exact hcycles
      · simp [hasErrors] at h15
    intro a hcycle
    refine (detectKept_iff g _ g.nodeIds).mp hok ⟨a, ?_, a, .refl, hcycle⟩
    obtain ⟨m, hm, -⟩ := Relation.TransGen.head'_iff.mp hcycle
    obtain ⟨e, he, hpair⟩ := List.mem_map.mp hm
    obtain ⟨rfl, -⟩ := Prod.mk.inj hpair
    exact mem_nodeIds.mpr (hsources e (List.mem_filter.mp he).1)

/-- The forward relation. -/
def Forward (g : PipelineGraph) (a b : String) : Prop :=
  ∃ e ∈ g.edges, edgeIsBack g e = false ∧ e.source = a ∧ e.target = b

theorem adj_forwardPairs {a b : String} : Adj g.forwardPairs a b ↔ Forward g a b := by
  simp only [Adj, PipelineGraph.forwardPairs, PipelineGraph.forwardEdges, List.mem_map,
    List.mem_filter, Prod.mk.injEq, Bool.not_eq_true']
  constructor
  · rintro ⟨e, ⟨he, hback⟩, hs, ht⟩
    exact ⟨e, he, hback, hs, ht⟩
  · rintro ⟨e, he, hback, hs, ht⟩
    exact ⟨e, ⟨he, hback⟩, hs, ht⟩

theorem mem_forwardPreds {a b : String} : a ∈ forwardPreds g b ↔ Forward g a b := by
  simp only [forwardPreds, List.mem_map, List.mem_filter, Bool.and_eq_true, beq_iff_eq,
    Bool.not_eq_true', Forward]
  constructor
  · rintro ⟨e, ⟨he, ht, hback⟩, hs⟩
    exact ⟨e, he, hback, hs, ht⟩
  · rintro ⟨e, he, hback, hs, ht⟩
    exact ⟨e, ⟨he, ht, hback⟩, hs⟩

theorem adj_pairs {a b : String} : Adj g.pairs a b ↔ ∃ e ∈ g.edges, e.source = a ∧ e.target = b := by
  simp [Adj, PipelineGraph.pairs]

theorem Forward.adj {a b : String} (h : Forward g a b) : Adj g.pairs a b := by
  obtain ⟨e, he, -, hs, ht⟩ := h
  exact adj_pairs.mpr ⟨e, he, hs, ht⟩

/-- **The forward relation is acyclic.**  An edge on a cycle has a way back, so
if it is marked it goes back; the rest of the cycle is unmarked. -/
theorem Validated.forward_acyclic (h : Validated g) : Acyclic (Forward g) := by
  intro a hcycle
  have hback := wayBack (fun _ _ hab => Forward.adj hab) hcycle .refl
  refine h.unmarked_acyclic a (Relation.TransGen.mono ?_ _ _ hback)
  rintro x y ⟨⟨e, he, hforward, rfl, rfl⟩, hreach⟩
  have hunmarked : e.isMarked = false := by
    have hreaches : graphReaches g e.target e.source = true := reaches_iff.mpr hreach
    rw [edgeIsBack, hreaches, Bool.and_true] at hforward
    exact hforward
  simp only [Adj, List.mem_map, List.mem_filter, Prod.mk.injEq, Bool.not_eq_true']
  exact ⟨e, ⟨he, hunmarked⟩, rfl, rfl⟩

/-- A region is closed under forward edges. -/
theorem forwardReachable_closed {t a b : String} (ha : a ∈ forwardReachable g t)
    (hab : Forward g a b) : b ∈ forwardReachable g t := by
  rw [forwardReachable, mem_reachSet] at ha ⊢
  exact ha.tail (adj_forwardPairs.mpr hab)

/-- Forward edges join nodes of the graph. -/
theorem Validated.forward_nodes (h : Validated g) {a b : String} (hab : Forward g a b) :
    g.hasNode a = true ∧ g.hasNode b = true := by
  obtain ⟨e, he, -, rfl, rfl⟩ := hab
  exact ⟨h.sources e he, h.targets e he⟩

end Octos.Pipeline
