/-
# `Octos.Pipeline.Walk` — the single-path walk

`executor.rs`: `execute_graph`, the loop the ready-set scheduler leaves to
graphs with fan-outs, labels and checkpoints.  One node is current; an iteration
decides what to do with it and where to go.

    already run by a fan-out   select the next edge by the stored outcome
    recorded by a checkpoint   select it by a synthesized pass
    otherwise                  count the visit, ask the guards, and then
        parallel               run the targets of its edges, jump to `converge`
        dynamic_parallel       run planned workers, jump to `converge`
        any other kind         run the node, select the next edge

The first two cases are short cuts: they come before the visit counter and the
guards.  What the outside tells an iteration is its `Tick`.
-/
import Octos.Pipeline.Dag
import Octos.Lib.Loop

namespace Octos.Pipeline

/-! ## Edge selection -/

/-- `f64::max`: the other operand, if one is a NaN. -/
def Weight.max : Weight → Weight → Weight
  | .nan, b => b
  | a, .nan => a
  | .infinite true, b => b
  | a, .infinite true => a
  | .infinite false, _ => .infinite false
  | _, .infinite false => .infinite false
  | .finite p, .finite q => .finite (if p ≤ q then q else p)

/-- `(a - b).abs() < f64::EPSILON`: the subtraction rounds to the nearest, half
a unit below the bound already up to it; with an infinity or a NaN on either
side the difference is no number below the bound. -/
def Weight.near : Weight → Weight → Bool
  | .finite p, .finite q => decide (|p - q| < epsilon - epsilon / 2 ^ 54)
  | _, _ => false

/-- The least target among the edges of highest weight; `none` where the source
unwraps an empty list. -/
def pickByWeight (edges : List PipelineEdge) : Option String :=
  let maxWeight := (edges.map PipelineEdge.weight).foldl Weight.max (.infinite true)
  minString ((edges.filter (fun e => e.weight.near maxWeight)).map PipelineEdge.target)

/-- The edges whose condition matches; `none` if a condition does not parse. -/
def conditionMatches (outcome : NodeOutcome) : List PipelineEdge → Option (List PipelineEdge)
  | [] => some []
  | e :: es =>
      match e.condition with
      | none => conditionMatches outcome es
      | some cond =>
          match conditionHolds cond outcome with
          | none => none
          | some true => (e :: ·) <$> conditionMatches outcome es
          | some false => conditionMatches outcome es

inductive Selection
  | next (id : String)
  | stop
  | invalid
  | panicked
  deriving DecidableEq

def Selection.ofPick : Option String → Selection
  | some id => .next id
  | none => .panicked

def outgoing (g : PipelineGraph) (id : String) : List PipelineEdge :=
  g.edges.filter (fun e => e.source == id)

/-- The suggestion of the node, if an edge leads there. -/
def suggestedEdge (g : PipelineGraph) (current : String) : Option String :=
  (g.nodes[current]?.bind PipelineNode.suggestedNext).filter (fun next =>
    (outgoing g current).any (fun e => e.target == next))

/-- The first edge whose label the output contains. -/
def labelledEdge (g : PipelineGraph) (current : String) (outcome : NodeOutcome) :
    Option PipelineEdge :=
  (outgoing g current).find? (fun e => e.label.any (containsText outcome.content))

def selectNextEdge (g : PipelineGraph) (current : String) (outcome : NodeOutcome) : Selection :=
  if (outgoing g current).isEmpty then .stop
  else
    match conditionMatches outcome (outgoing g current) with
    | none => .invalid
    | some (e :: es) => .ofPick (pickByWeight (e :: es))
    | some [] =>
        match suggestedEdge g current with
        | some next => .next next
        | none =>
            match labelledEdge g current outcome with
            | some e => .next e.target
            | none =>
                let unconditional := (outgoing g current).filter (fun e => e.condition.isNone)
                if unconditional.isEmpty then
                  .ofPick (minString ((outgoing g current).map PipelineEdge.target))
                else .ofPick (pickByWeight unconditional)

/-! ## Guards -/

inductive GuardDecision
  | allow
  | skip (reason : String)
  | abort (reason : String)
  deriving DecidableEq

structure GuardContext where
  graph : PipelineGraph
  nodeId : String
  node : PipelineNode
  cumulativeTokens : U32
  elapsed : Nat
  completedCount : Nat
  visitCounts : Table String Nat

abbrev PipelineGuard := GuardContext → Except String GuardDecision

/-- The first decision that is not `allow`. -/
def evaluateBeforeNodeGuards (ctx : GuardContext) : List PipelineGuard → Except String GuardDecision
  | [] => .ok .allow
  | guard :: guards =>
      match guard ctx with
      | .ok .allow => evaluateBeforeNodeGuards ctx guards
      | decision => decision

/-- `build_resume_skip_set`: the nodes of the recorded checkpoints; a store that
cannot be listed starts fresh. -/
def buildResumeSkipSet : Option (Except String (List String)) → List String
  | some (.ok nodeIds) => nodeIds
  | _ => []

/-! ## State -/

/-- `usize::MAX`. -/
def usizeMax : Nat := 2 ^ 64 - 1

/-- `MAX_PIPELINE_FANOUT_TOTAL`. -/
def maxPipelineFanoutTotal : Nat := 500

structure WalkConfig where
  guards : List PipelineGuard
  resumeSkip : List String
  fanoutTotal : Option Nat

def WalkConfig.fanoutCap (cfg : WalkConfig) : Nat :=
  cfg.fanoutTotal.getD maxPipelineFanoutTotal

/-- How the dispatch of a node ended: with an outcome, past its deadline, with
its registration refused, or with an error. -/
inductive Dispatch
  | ran (outcome : NodeOutcome)
  | skipped
  | aborted (reason : String)
  | failed (error : String)

/-- What an iteration is told: the time, how its node ended, an error of the
host before a fan-out, the number of tasks the planner made, how the workers
ended, and what their reports were merged to. -/
structure Tick where
  elapsed : Nat
  dispatch : Dispatch
  hostError : Option String
  plan : Option (Nat × TokenUsage)
  worker : Nat → Except String NodeOutcome
  mergedContent : String

/-- `log` are the nodes dispatched so far, to a handler or as fan-outs. -/
structure WalkState where
  current : String
  completed : Table String NodeOutcome
  parallelExecuted : List String
  visitCounts : Table String Nat
  fanoutWorkersDispatched : Nat
  totalTokens : TokenUsage
  log : List String

def WalkState.start (startNode : String) : WalkState :=
  { current := startNode, completed := ∅, parallelExecuted := [], visitCounts := ∅,
    fanoutWorkersDispatched := 0, totalTokens := .zero, log := [] }

def WalkState.visits (s : WalkState) (id : String) : Nat :=
  s.visitCounts[id]?.getD 0

inductive WalkEnd
  | returned (result : PipelineResult)
  | failed (error : String)
  | panicked

abbrev WalkNext := WalkState ⊕ (WalkEnd × WalkState)

def WalkState.result (s : WalkState) (output : String) (success : Bool)
    (filesModified : List (List String)) : WalkEnd :=
  .returned { output, success, tokenUsage := s.totalTokens, filesModified }

/-! ## One iteration -/

/-- Go along the selected edge, or return. -/
def follow (g : PipelineGraph) (s : WalkState) (outcome : NodeOutcome) (atEnd : WalkEnd) :
    WalkNext :=
  match selectNextEdge g s.current outcome with
  | .next id => .inl { s with current := id }
  | .stop => .inr (atEnd, s)
  | .invalid => .inr (.failed "condition", s)
  | .panicked => .inr (.panicked, s)

/-- The handlers of the registry: a shell node and a fan-out have none. -/
def handlerRegistered : HandlerKind → Bool
  | .shell => false
  | .parallel => false
  | _ => true

def plainOutcome (id : String) (status : OutcomeStatus) (content : String) : NodeOutcome :=
  { nodeId := id, status, content, tokenUsage := .zero, filesModified := [] }

/-- Only the tokens of the prompt and of the answer are added up. -/
def addTokens (a b : TokenUsage) : TokenUsage :=
  { a with
    inputTokens := a.inputTokens + b.inputTokens
    outputTokens := a.outputTokens + b.outputTokens }

/-- A worker that failed counts as an errored outcome. -/
def workerOutcome (id : String) : Except String NodeOutcome → NodeOutcome
  | .ok outcome => outcome
  | .error e => plainOutcome id .error ("Error: " ++ e)

/-- `fan_status`. -/
def fanStatus (outcomes : List NodeOutcome) : OutcomeStatus :=
  let anyError := outcomes.any (fun o => o.status == .error)
  let anyPass := outcomes.any (fun o => o.status == .pass)
  if anyError && !anyPass then .error
  else if anyPass && !anyError then .pass
  else .fail

/-- Record the outcomes of the workers. -/
def absorb (outcomes : List (String × NodeOutcome)) (s : WalkState) : WalkState :=
  { s with
    completed := outcomes.foldl (fun t o => t.insert o.1 o.2) s.completed
    fanoutWorkersDispatched := s.fanoutWorkersDispatched + outcomes.length
    totalTokens := outcomes.foldl (fun t o => addTokens t o.2.tokenUsage) s.totalTokens }

/-- Record the fan-out and jump, unless every worker failed. -/
def convergeTo (node : PipelineNode) (convergeId kind : String)
    (outcomes : List (String × NodeOutcome)) (merged : String) (usage : TokenUsage)
    (s : WalkState) : WalkNext :=
  let status := fanStatus (outcomes.map Prod.snd)
  let outcome := { plainOutcome s.current status merged with tokenUsage := usage }
  let s := { s with completed := s.completed.insert s.current outcome }
  if status = .error ∧ node.continueOnError = false then
    .inr (s.result ("Pipeline failed at " ++ kind ++ " '" ++ s.current ++ "': all " ++
      toString outcomes.length ++ " workers failed") false [], s)
  else .inl { s with current := convergeId }

/-- The targets of a fan-out, one for each edge. -/
def fanoutTargets (g : PipelineGraph) (id : String) : List String :=
  (outgoing g id).map PipelineEdge.target

def dispatchable (g : PipelineGraph) (id : String) : Bool :=
  g.nodes[id]?.any (fun node => handlerRegistered node.handler)

def parallelFanout (g : PipelineGraph) (cfg : WalkConfig) (tick : Tick) (node : PipelineNode)
    (s : WalkState) : WalkNext :=
  match node.converge with
  | none => .inr (.failed ("parallel node '" ++ s.current ++ "' missing converge attribute"), s)
  | some convergeId =>
      let targets := fanoutTargets g s.current
      if cfg.fanoutCap < s.fanoutWorkersDispatched + targets.length then
        .inr (.failed "pipeline fan-out cap exceeded", s)
      else if remainingPipelineTokens g.maxTotalTokens s.totalTokens = some 0 then
        .inr (s.result ("Pipeline token budget exhausted before parallel node '" ++ s.current ++
          "': spent " ++ toString (totalPipelineTokens s.totalTokens).toNat ++ " tokens") false [], s)
      else
        match targets.find? (fun t => !dispatchable g t) with
        | some t => .inr (.failed ("parallel target '" ++ t ++ "': no node or no handler"), s)
        | none =>
            match tick.hostError with
            | some e => .inr (.failed e, s)
            | none =>
                let outcomes := targets.zipIdx.map (fun (t, i) => (t, workerOutcome t (tick.worker i)))
                let s := absorb outcomes { s with
                  parallelExecuted := targets ++ s.parallelExecuted
                  log := s.log ++ s.current :: targets }
                convergeTo node convergeId "fan-out node" outcomes tick.mergedContent .zero s

/-- The tasks of a dynamic fan-out: those planned if there are two at least, or
the three fallback tasks. -/
def plannedTasks : Option (Nat × TokenUsage) → Nat × TokenUsage
  | some (tasks, usage) => (if 2 ≤ tasks then tasks else 3, usage)
  | none => (3, .zero)

def dynamicFanout (g : PipelineGraph) (cfg : WalkConfig) (tick : Tick) (node : PipelineNode)
    (s : WalkState) : WalkNext :=
  match node.converge with
  | none =>
      .inr (.failed ("dynamic_parallel node '" ++ s.current ++ "' missing converge attribute"), s)
  | some convergeId =>
      match tick.hostError with
      | some e => .inr (.failed e, s)
      | none =>
          let (tasks, usage) := plannedTasks tick.plan
          let s := { s with totalTokens := addTokens s.totalTokens usage, log := s.log ++ [s.current] }
          if remainingPipelineTokens g.maxTotalTokens s.totalTokens = some 0 then
            .inr (s.result ("Pipeline token budget exhausted after dynamic_parallel planner '" ++
              s.current ++ "': spent " ++ toString (totalPipelineTokens s.totalTokens).toNat ++
              " tokens") false [], s)
          else if cfg.fanoutCap < s.fanoutWorkersDispatched + tasks then
            .inr (.failed "pipeline fan-out cap exceeded", s)
          else
            let outcomes := (List.range tasks).map (fun i =>
              let taskId := s.current ++ "_task_" ++ toString i
              (taskId, workerOutcome taskId (tick.worker i)))
            convergeTo node convergeId "dynamic_parallel node" outcomes tick.mergedContent usage
              (absorb outcomes s)

/-- Why the walk returns right after a node, if it does. -/
def returnsAfter (g : PipelineGraph) (node : PipelineNode) (outcome : NodeOutcome) (s : WalkState) :
    Option WalkEnd :=
  if node.goalGate = true ∧ outcome.status = .pass then
    some (s.result outcome.content true (sortedFiles s.completed))
  else if outcome.status = .error ∧ node.continueOnError = false then
    some (s.result ("Pipeline failed at node '" ++ s.current ++ "': " ++ outcome.content) false [])
  else if g.maxTotalTokens.any (fun m => decide (m ≤ totalPipelineTokens s.totalTokens)) then
    some (s.result ("Pipeline token budget exhausted after node '" ++ s.current ++ "': spent " ++
      toString (totalPipelineTokens s.totalTokens).toNat ++ "/" ++
      toString (g.maxTotalTokens.getD 0).toNat ++ " tokens") false [])
  else none

def runNode (g : PipelineGraph) (tick : Tick) (node : PipelineNode) (s : WalkState) : WalkNext :=
  if handlerRegistered node.handler = false then .inr (.failed "no handler", s)
  else if remainingPipelineTokens g.maxTotalTokens s.totalTokens = some 0 then
    .inr (s.result ("Pipeline token budget exhausted before node '" ++ s.current ++ "': spent " ++
      toString (totalPipelineTokens s.totalTokens).toNat ++ " tokens") false [], s)
  else
    let s := { s with log := s.log ++ [s.current] }
    match tick.dispatch with
    | .aborted reason =>
        .inr (s.result ("Pipeline aborted before node '" ++ s.current ++ "': " ++ reason) false [], s)
    | .failed e => .inr (.failed e, s)
    | .skipped =>
        let outcome := plainOutcome s.current .skipped
          ("Node '" ++ s.current ++ "' skipped (deadline exceeded)")
        let s := { s with completed := s.completed.insert s.current outcome }
        follow g s outcome (s.result outcome.content false (sortedFiles s.completed))
    | .ran outcome =>
        let s := { s with
          completed := s.completed.insert s.current outcome
          totalTokens := addTokens s.totalTokens outcome.tokenUsage }
        match returnsAfter g node outcome s with
        | some ending => .inr (ending, s)
        | none =>
            follow g s outcome (s.result outcome.content (outcome.status == .pass)
              (sortedFiles s.completed))

/-- Count the visit; the counter saturates. -/
def WalkState.visit (s : WalkState) : WalkState :=
  { s with visitCounts := s.visitCounts.insert s.current (min (s.visits s.current + 1) usizeMax) }

def guardContext (g : PipelineGraph) (tick : Tick) (node : PipelineNode) (s : WalkState) :
    GuardContext :=
  { graph := g, nodeId := s.current, node, cumulativeTokens := totalPipelineTokens s.totalTokens,
    elapsed := tick.elapsed, completedCount := s.completed.size, visitCounts := s.visitCounts }

/-- `guard_aborted_result`. -/
def guardAborted (s : WalkState) (reason : String) : WalkNext :=
  .inr (s.result ("Pipeline aborted by guard before node '" ++ s.current ++ "': " ++ reason) false
    (sortedFiles s.completed), s)

/-- The node with its visit counted: the guards, then its kind. -/
def visitNode (g : PipelineGraph) (cfg : WalkConfig) (tick : Tick) (node : PipelineNode)
    (s : WalkState) : WalkNext :=
  match evaluateBeforeNodeGuards (guardContext g tick node s) cfg.guards with
  | .error e => guardAborted s ("guard error: " ++ e)
  | .ok (.abort reason) => guardAborted s reason
  | .ok (.skip reason) =>
      let outcome := plainOutcome s.current .fail
        ("Node '" ++ s.current ++ "' skipped by pipeline guard: " ++ reason)
      let s := { s with completed := s.completed.insert s.current outcome }
      follow g s outcome (s.result outcome.content false (sortedFiles s.completed))
  | .ok .allow =>
      if node.handler = .parallel then parallelFanout g cfg tick node s
      else if node.handler = .dynamicParallel then dynamicFanout g cfg tick node s
      else runNode g tick node s

/-- One iteration of the loop. -/
def walkStep (g : PipelineGraph) (cfg : WalkConfig) (tick : Tick) (s : WalkState) : WalkNext :=
  match g.nodes[s.current]? with
  | none => .inr (.failed ("node '" ++ s.current ++ "' not found"), s)
  | some node =>
      if s.current ∈ s.parallelExecuted then
        match s.completed[s.current]? with
        | none => .inr (.panicked, s)
        | some outcome =>
            follow g s outcome (s.result outcome.content (outcome.status == .pass) [])
      else if s.current ∈ cfg.resumeSkip then
        let synth := plainOutcome s.current .pass ""
        let s := { s with completed := s.completed.insert s.current synth }
        follow g s synth (s.result "" true [])
      else visitNode g cfg tick node s.visit

/-- No guard, no checkpoint, the default cap. -/
def plainConfig : WalkConfig :=
  { guards := [], resumeSkip := [], fanoutTotal := none }

end Octos.Pipeline
