/-
# `Octos.Pipeline.Dag` — the ready-set scheduler

`executor.rs`: `execute_graph_dag` and the functions it decides by.  The two
nested loops of the source keep no state of their own: what happens next is a
function of the tables (`dagNext`), so one pass of either loop is one step here.

    execute   the least runnable node; a back edge its outcome fires is
              retried at once
    prune     without a runnable node, the least prunable one
    retry     without either, the first fired back edge whose target has
              retries left
    quiesce   without any of them

What a node does is outside: `NodeRun` is what `dag_execute_node` answered, and
a run of the scheduler takes one for each execution.  `log` is the history, kept
beside the tables; no decision reads it.
-/
import Octos.Pipeline.Graph

namespace Octos.Pipeline

inductive PruneReason
  | optional
  | failure
  deriving DecidableEq

inductive NodeReadiness
  | notReady
  | runnable
  | prune (reason : PruneReason)
  deriving DecidableEq

/-! ## Firing -/

/-- A condition, parsed and evaluated. -/
def conditionHolds (cond : String) (outcome : NodeOutcome) : Option Bool :=
  (parseCondition cond).map (evaluate outcome)

def continueOnError (g : PipelineGraph) (id : String) : Bool :=
  match g.nodes[id]? with
  | some node => node.continueOnError
  | none => false

def dagEdgeFiresNormally (g : PipelineGraph) (edge : PipelineEdge) (outcome : NodeOutcome)
    (srcContinueOnError : Bool) : Option Bool :=
  match edge.condition with
  | some cond => conditionHolds cond outcome
  | none =>
      let success := outcome.status == .pass || outcome.status == .skipped ||
        (outcome.status == .error && srcContinueOnError)
      if !success then some false
      else
        some (!g.edges.any (fun e => e.source == edge.source && !edgeIsBack g e &&
          e.condition.any (fun cond => (conditionHolds cond outcome).getD false)))

/-- Whether a condition of the list matches; the first that matches ends the
loop. -/
def anyConditionMatches (outcome : NodeOutcome) : List PipelineEdge → Option Bool
  | [] => some false
  | e :: es =>
      match e.condition with
      | none => anyConditionMatches outcome es
      | some cond =>
          match conditionHolds cond outcome with
          | none => none
          | some true => some true
          | some false => anyConditionMatches outcome es

/-- The least of the strings. -/
def minString : List String → Option String
  | [] => none
  | s :: ss =>
      match minString ss with
      | none => some s
      | some m => if compare m s = .lt then some m else some s

def dagForwardEdgeFires (g : PipelineGraph) (edge : PipelineEdge) (outcome : NodeOutcome)
    (srcContinueOnError : Bool) : Option Bool := do
  if ← dagEdgeFiresNormally g edge outcome srcContinueOnError then return true
  let outgoing := g.edges.filter (fun e => e.source == edge.source && !edgeIsBack g e)
  -- the fallback is for routers that have conditional edges only
  if outgoing.isEmpty || !outgoing.all (fun e => e.condition.isSome) then return false
  if ← anyConditionMatches outcome outgoing then return false
  return minString (outgoing.map PipelineEdge.target) == some edge.target

def dagBackEdgeFires (edge : PipelineEdge) (outcome : NodeOutcome) : Option Bool :=
  match edge.condition with
  | some cond => conditionHolds cond outcome
  | none => some false

/-- The loop of `fired_forward_into`. -/
def firedAmong (g : PipelineGraph) (id : String) (completed : Table String NodeOutcome) :
    List PipelineEdge → Option (List String)
  | [] => some []
  | e :: es =>
      if e.target == id && !edgeIsBack g e then
        match completed[e.source]? with
        | none => firedAmong g id completed es
        | some src => do
            let fires ← dagForwardEdgeFires g e src (continueOnError g e.source)
            let rest ← firedAmong g id completed es
            return if fires then e.source :: rest else rest
      else firedAmong g id completed es

def firedForwardInto (g : PipelineGraph) (id : String) (completed : Table String NodeOutcome) :
    Option (List String) :=
  firedAmong g id completed g.edges

/-! ## Readiness -/

def hasFailed (outcome : NodeOutcome) : Bool :=
  outcome.status == .fail || outcome.status == .error

/-- A predecessor that gave no input although the node requires one. -/
def missingRequired (g : PipelineGraph) (id : String) (completed : Table String NodeOutcome)
    (pruned : Table String PruneReason) (fired : List String) (p : String) : Bool :=
  if fired.contains p then false
  else
    match pruned[p]? with
    | some .failure => true
    | some .optional => false
    | none =>
        let edgeUnconditional := g.edges.any (fun e =>
          e.source == p && e.target == id && !edgeIsBack g e && e.condition.isNone)
        let pFailed := completed[p]?.any hasFailed && !continueOnError g p
        edgeUnconditional && pFailed

def isSettled (completed : Table String NodeOutcome) (pruned : Table String PruneReason)
    (id : String) : Bool :=
  completed[id]?.isSome || pruned[id]?.isSome

def dagNodeReadiness (g : PipelineGraph) (id : String) (completed : Table String NodeOutcome)
    (pruned : Table String PruneReason) : Option NodeReadiness :=
  let fpreds := forwardPreds g id
  if !fpreds.all (isSettled completed pruned) then some .notReady
  else if fpreds.isEmpty then some .runnable
  else do
    let fired ← firedForwardInto g id completed
    if fpreds.any (missingRequired g id completed pruned fired) then return .prune .failure
    else if fired.isEmpty then return .prune .optional
    else return .runnable

/-! ## The scheduler -/

/-- What `dag_execute_node` answered: an outcome, a refused registration, or an
error that ends the run. -/
inductive NodeRun
  | ran (outcome : NodeOutcome)
  | aborted (reason : String)
  | failed (error : String)

inductive DagEvent
  | executed (id input : String) (answer : NodeRun)
  | pruned (id : String) (reason : PruneReason)
  | retried (target : String) (feedback : NodeOutcome)

structure DagState where
  completed : Table String NodeOutcome
  pruned : Table String PruneReason
  feedback : Table String NodeOutcome
  retryCount : Table String Nat
  anyFailurePrune : Bool
  totalTokens : TokenUsage
  log : List DagEvent

def DagState.start : DagState :=
  { completed := ∅, pruned := ∅, feedback := ∅, retryCount := ∅, anyFailurePrune := false,
    totalTokens := .zero, log := [] }

namespace DagState

def settled (s : DagState) (id : String) : Bool :=
  isSettled s.completed s.pruned id

def readiness (g : PipelineGraph) (s : DagState) (id : String) : Option NodeReadiness :=
  dagNodeReadiness g id s.completed s.pruned

def retries (s : DagState) (target : String) : Nat :=
  s.retryCount[target]?.getD 0

def record (s : DagState) (event : DagEvent) : DagState :=
  { s with log := s.log ++ [event] }

end DagState

/-- `MAX_NODE_RUNS`: how often a back-edge target is retried. -/
def maxNodeRuns : Nat := 10

/-- `remaining_pipeline_tokens`: the sums saturate. -/
def totalPipelineTokens (usage : TokenUsage) : U32 :=
  (checkedAdd usage.inputTokens usage.outputTokens).getD (BitVec.allOnes 32)

def remainingPipelineTokens (maxTotalTokens : Option U32) (usage : TokenUsage) : Option U32 :=
  maxTotalTokens.map (fun m => (checkedSub m (totalPipelineTokens usage)).getD 0)

/-- The least unsettled node that is runnable. -/
def findRunnable (g : PipelineGraph) (s : DagState) : Option String :=
  g.nodeIds.find? (fun id => !s.settled id && s.readiness g id == some .runnable)

/-- The least unsettled node that can be pruned, and why. -/
def findPrunable (g : PipelineGraph) (s : DagState) : Option (String × PruneReason) :=
  g.nodeIds.findSome? (fun id =>
    if s.settled id then none
    else
      match s.readiness g id with
      | some (.prune reason) => some (id, reason)
      | _ => none)

/-- The parts of a node's input: what its fired edges bring, then the critique
that triggered its retry. -/
def inputParts (s : DagState) (fired : List String) (feedback : Option NodeOutcome) :
    List String :=
  (fired.filterMap (fun p => s.completed[p]?)).map NodeOutcome.content ++
    (feedback.map NodeOutcome.content).toList

def joinParts (parts : List String) : String :=
  String.intercalate "\n\n---\n\n" parts

/-- The input `dag_execute_node` hands to the handler. -/
def nodeInput (s : DagState) (userInput : String) (fired : List String)
    (feedback : Option NodeOutcome) : String :=
  let parts := inputParts s fired feedback
  if parts.isEmpty then userInput else joinParts parts

/-- The back edges whose source completed and fires them. -/
def firedBack (g : PipelineGraph) (s : DagState) : List (String × NodeOutcome) :=
  (g.edges.filter (edgeIsBack g)).filterMap (fun e =>
    match s.completed[e.source]? with
    | none => none
    | some src => if (dagBackEdgeFires e src).getD false then some (e.target, src) else none)

inductive DagNext
  | execute (id input : String)
  | exhausted (id : String)
  | prune (id : String) (reason : PruneReason)
  | retry (target : String) (feedback : NodeOutcome)
  | quiesce
  /-- A condition did not parse. -/
  | invalid
  deriving DecidableEq

/-- What the loops do next. -/
def dagNext (g : PipelineGraph) (userInput : String) (s : DagState) : DagNext :=
  match findRunnable g s with
  | some id =>
      if remainingPipelineTokens g.maxTotalTokens s.totalTokens = some 0 then .exhausted id
      else
        match firedForwardInto g id s.completed with
        | none => .invalid
        | some fired => .execute id (nodeInput s userInput fired s.feedback[id]?)
  | none =>
      match findPrunable g s with
      | some (id, reason) => .prune id reason
      | none =>
          match (firedBack g s).find? (fun r => decide (s.retries r.1 < maxNodeRuns)) with
          | some (target, feedback) => .retry target feedback
          | none => .quiesce

inductive DagEnd
  | quiescent
  | hardError (id : String)
  | goalGate (id : String)
  | budgetBefore (id : String)
  | budgetAfter (id : String)
  | aborted (id reason : String)
  | failed (error : String)
  deriving DecidableEq

/-- Un-settle the region of a target and hand it the critique. -/
def retryRegion (g : PipelineGraph) (target : String) (feedback : NodeOutcome) (s : DagState) :
    DagState :=
  { s with
    completed := (forwardReachable g target).foldl (fun t r => t.erase r) s.completed
    pruned := (forwardReachable g target).foldl (fun t r => t.erase r) s.pruned
    feedback := s.feedback.insert target feedback
    retryCount := s.retryCount.insert target (s.retries target + 1)
    log := s.log ++ [.retried target feedback] }

/-- The first back edge out of the node that its outcome fires and whose target
has retries left. -/
def eagerRetry (g : PipelineGraph) (id : String) (outcome : NodeOutcome) (s : DagState) :
    Option String :=
  ((g.edges.filter (fun e => e.source == id && edgeIsBack g e)).find? (fun e =>
    (dagBackEdgeFires e outcome).getD false && decide (s.retries e.target < maxNodeRuns))).map
      PipelineEdge.target

/-- The tables after a node ran. -/
def settleNode (id input : String) (outcome : NodeOutcome) (s : DagState) : DagState :=
  { s with
    completed := s.completed.insert id outcome
    feedback := s.feedback.erase id
    totalTokens :=
      { s.totalTokens with
        inputTokens := s.totalTokens.inputTokens + outcome.tokenUsage.inputTokens
        outputTokens := s.totalTokens.outputTokens + outcome.tokenUsage.outputTokens }
    log := s.log ++ [.executed id input (.ran outcome)] }

/-- The tables after a node was pruned. -/
def pruneNode (id : String) (reason : PruneReason) (s : DagState) : DagState :=
  { s with
    pruned := s.pruned.insert id reason
    anyFailurePrune := s.anyFailurePrune || decide (reason = .failure)
    log := s.log ++ [.pruned id reason] }

/-- Why a run ends right after a node, if it does. -/
def stopsAfter (g : PipelineGraph) (id : String) (outcome : NodeOutcome) (total : TokenUsage) :
    Option DagEnd :=
  if outcome.status = .error ∧ continueOnError g id = false then some (.hardError id)
  else if (g.nodes[id]?.any PipelineNode.goalGate) = true ∧ outcome.status = .pass then
    some (.goalGate id)
  else if g.maxTotalTokens.any (fun m => decide (m ≤ totalPipelineTokens total)) then
    some (.budgetAfter id)
  else none

/-- One pass.  `run` is the answer of the node, if one is executed. -/
def dagStep (g : PipelineGraph) (userInput : String) (run : NodeRun) (s : DagState) :
    DagState ⊕ (DagEnd × DagState) :=
  match dagNext g userInput s with
  | .exhausted id => .inr (.budgetBefore id, s)
  | .invalid => .inr (.failed "condition", s)
  | .execute id input =>
      match run with
      | .aborted reason => .inr (.aborted id reason, s.record (.executed id input run))
      | .failed error => .inr (.failed error, s.record (.executed id input run))
      | .ran outcome =>
          let s := settleNode id input outcome s
          match stopsAfter g id outcome s.totalTokens with
          | some ending => .inr (ending, s)
          | none =>
              match eagerRetry g id outcome s with
              | some target => .inl (retryRegion g target outcome s)
              | none => .inl s
  | .prune id reason => .inl (pruneNode id reason s)
  | .retry target feedback => .inl (retryRegion g target feedback s)
  | .quiesce => .inr (.quiescent, s)

/-- The nodes executed so far, in order. -/
def DagState.executions (s : DagState) : List String :=
  s.log.filterMap (fun e =>
    match e with
    | .executed id _ _ => some id
    | _ => none)

/-- The loops, with the answers of the successive executions. -/
def dagLoop (g : PipelineGraph) (userInput : String) (runs : Nat → NodeRun) :
    Nat → DagState → Option (DagEnd × DagState)
  | 0, _ => none
  | fuel + 1, s =>
      match dagStep g userInput (runs s.executions.length) s with
      | .inl s => dagLoop g userInput runs fuel s
      | .inr r => some r

/-- `execute_graph_dag`, for at most `fuel` passes. -/
def executeGraphDag (g : PipelineGraph) (userInput : String) (runs : Nat → NodeRun) (fuel : Nat) :
    Option (DagEnd × DagState) :=
  dagLoop g userInput runs fuel .start

/-! ## The result -/

/-- Completed nodes none of whose forward edges fired. -/
def dagTerminalNodes (g : PipelineGraph) (completed : Table String NodeOutcome) : List String :=
  (completed.toList.filter (fun (id, outcome) =>
    !g.edges.any (fun e => e.source == id && !edgeIsBack g e &&
      (dagForwardEdgeFires g e outcome (continueOnError g id)).getD false))).map Prod.fst

structure PipelineResult where
  output : String
  success : Bool
  tokenUsage : TokenUsage
  filesModified : List (List String)

/-- `sort` and `dedup`. -/
def sortedFiles (completed : Table String NodeOutcome) : List (List String) :=
  ((completed.toList.flatMap (fun r => r.2.filesModified)).insertionSort (· ≤ ·)).dedup

def dagBuildResult (g : PipelineGraph) (success : Option Bool) (overrideOutput : Option String)
    (s : DagState) (hadFailurePrune : Bool) : PipelineResult :=
  let terminals := dagTerminalNodes g s.completed
  let outcomes := terminals.filterMap (fun n => s.completed[n]?)
  let verdict := success.getD (!terminals.isEmpty && outcomes.all (fun o => o.status == .pass)) &&
    !hadFailurePrune
  { output := overrideOutput.getD (joinParts (outcomes.map NodeOutcome.content))
    success := verdict
    tokenUsage := s.totalTokens
    filesModified := if verdict || success.isNone then sortedFiles s.completed else [] }

/-- The result of a run that ended. -/
def dagResult (g : PipelineGraph) (ending : DagEnd) (s : DagState) : Option PipelineResult :=
  match ending with
  | .quiescent => some (dagBuildResult g none none s s.anyFailurePrune)
  | .hardError id => some (dagBuildResult g (some false) (some ("Pipeline failed at node '" ++ id ++
      "': " ++ (s.completed[id]?.elim "" NodeOutcome.content))) s false)
  | .goalGate id => some (dagBuildResult g (some true)
      (some (s.completed[id]?.elim "" NodeOutcome.content)) s false)
  | .budgetBefore id => some (dagBuildResult g (some false)
      (some ("Pipeline token budget exhausted before node '" ++ id ++ "': spent " ++
        toString (totalPipelineTokens s.totalTokens).toNat ++ " tokens")) s false)
  | .budgetAfter id => some (dagBuildResult g (some false)
      (some ("Pipeline token budget exhausted after node '" ++ id ++ "': spent " ++
        toString (totalPipelineTokens s.totalTokens).toNat ++ "/" ++
        toString (g.maxTotalTokens.getD 0).toNat ++ " tokens")) s false)
  | .aborted id reason => some (dagBuildResult g (some false)
      (some ("Pipeline aborted before node '" ++ id ++ "': " ++ reason)) s false)
  | .failed _ => none

/-! ## A graph to run

    start → a → b    with  a -[fail]→ x -[pass, retry]→ a  and an optional branch
                     start -[fail]→ p → x
-/

def noopNode : PipelineNode :=
  { handler := .noop, goalGate := false, suggestedNext := none, converge := none,
    continueOnError := false }

def plainEdge (source target : String) : PipelineEdge :=
  { source, target, label := none, condition := none, weight := .finite 1 }

def repairGraph : PipelineGraph :=
  { nodes := Std.ExtTreeMap.ofList
      [("start", noopNode), ("a", noopNode), ("b", noopNode), ("p", noopNode), ("x", noopNode)]
    edges :=
      [plainEdge "start" "a",
       { plainEdge "start" "p" with condition := some "outcome.status == \"fail\"" },
       plainEdge "a" "b",
       { plainEdge "a" "x" with condition := some "outcome.status == \"fail\"" },
       plainEdge "p" "x",
       { plainEdge "x" "a" with
         label := some "retry", condition := some "outcome.status == \"pass\"" }]
    maxTotalTokens := none }

def ranWith (status : OutcomeStatus) : NodeRun :=
  .ran { nodeId := "", status, content := "out", tokenUsage := .zero, filesModified := [] }

/-- The second execution, the first of `a`, fails; all others pass. -/
def repairRuns (n : Nat) : NodeRun :=
  ranWith (if n = 1 then .fail else .pass)

def passRuns (_ : Nat) : NodeRun :=
  ranWith .pass

end Octos.Pipeline
