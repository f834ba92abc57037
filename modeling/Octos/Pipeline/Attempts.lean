/-
# `Octos.Pipeline.Attempts` — what a node's answer is made of

The executors see one answer of a node.  Behind it stand the calls of its handler:

    execute_with_retries   calls again after an error outcome
    dispatch_node          the same under a deadline, and again if the deadline
    run_fanout_worker      passes and its action is `retry`
    recover_node           one more call after a failure of a node an LLM drives

Each level hands on one outcome.  `Calls` is the history the levels leave out: the
usage of every outcome a handler returned, and of those another call replaced.
No decision reads it.  The answers come from outside, a `Tape` of them for each
dispatch.
-/
import Octos.Pipeline.Walk

namespace Octos.Pipeline

/-! ## Calls -/

/-- What the handler answers to its successive calls, and whether the deadline,
if there is one, passes before the answer; a deadline that passes while the loop
sleeps passes before the next answer. -/
structure Tape where
  answer : Nat → Except String NodeOutcome
  late : Nat → Bool

structure Calls where
  made : Nat
  spent : List TokenUsage
  superseded : List TokenUsage

namespace Calls

def none : Calls :=
  { made := 0, spent := [], superseded := [] }

def append (c d : Calls) : Calls :=
  { made := c.made + d.made
    spent := c.spent ++ d.spent
    superseded := c.superseded ++ d.superseded }

/-- Another call replaces the outcome. -/
def supersede (c : Calls) (outcome : NodeOutcome) : Calls :=
  { c with superseded := c.superseded ++ [outcome.tokenUsage] }

end Calls

/-- `handler.execute`; no answer if the deadline passes first. -/
def callHandler (tape : Tape) (timed : Bool) (c : Calls) :
    Option (Except String NodeOutcome) × Calls :=
  if timed && tape.late c.made then (none, { c with made := c.made + 1 })
  else
    match tape.answer c.made with
    | .error e => (some (.error e), { c with made := c.made + 1 })
    | .ok outcome => (some (.ok outcome), { c with
        made := c.made + 1
        spent := c.spent ++ [outcome.tokenUsage] })

/-- With the number of retries left. -/
def executeWithRetries (tape : Tape) (timed : Bool) :
    Nat → Calls → Option (Except String NodeOutcome) × Calls
  | 0, c => callHandler tape timed c
  | retries + 1, c =>
      match callHandler tape timed c with
      | (some (.ok outcome), c) =>
          if outcome.status = .error then
            executeWithRetries tape timed retries (c.supersede outcome)
          else (some (.ok outcome), c)
      | (some (.error e), c) => (some (.error e), c)
      | (none, c) => (none, c)

/-! ## Deadlines -/

inductive DispatchOutcome
  | completed (outcome : NodeOutcome)
  | skipped
  | failed (error : String)

/-- How many timed runs a node gets. -/
def maxAttempts : DeadlineAction → Nat
  | .retry n => max n.toNat 1
  | _ => 1

/-- The timed runs of `dispatch_node`, with the number of runs left.  `shown` is
the deadline as it is printed. -/
def dispatchRuns (node : PipelineNode) (action : DeadlineAction) (shown : String) (tape : Tape) :
    Nat → Option String → Calls → DispatchOutcome × Calls
  | 0, lastErr, c =>
      (.failed (lastErr.getD ("node '" ++ node.id ++ "' failed all retry attempts")), c)
  | runs + 1, lastErr, c =>
      match executeWithRetries tape true node.maxRetries.toNat c with
      | (some (.ok outcome), c) => (.completed outcome, c)
      | (some (.error e), c) => dispatchRuns node action shown tape runs (some e) c
      | (none, c) =>
          match action with
          | .abort => (.failed ("node '" ++ node.id ++ "' exceeded deadline of " ++ shown ++
              "s (action=abort)"), c)
          | .skip => (.skipped, c)
          | .retry _ =>
              if runs = 0 then
                (.failed ("node '" ++ node.id ++ "' exceeded deadline on all " ++
                  toString (maxAttempts action) ++ " retry attempt(s)"), c)
              else dispatchRuns node action shown tape runs lastErr c
          | .escalate => (.failed ("node '" ++ node.id ++ "' exceeded deadline of " ++ shown ++
              "s (action=escalate)"), c)

def dispatchNode (node : PipelineNode) (shown : String) (tape : Tape) (c : Calls) :
    DispatchOutcome × Calls :=
  match node.deadlineSecs with
  | none =>
      match executeWithRetries tape false node.maxRetries.toNat c with
      | (some (.ok outcome), c) => (.completed outcome, c)
      | (some (.error e), c) => (.failed e, c)
      | (none, c) => (.failed "", c)
  | some _ =>
      let action := node.deadlineAction.getD .abort
      dispatchRuns node action shown tape (maxAttempts action) none c

/-- `Node '..' skipped (deadline exceeded)`. -/
def skippedOutcome (id : String) : NodeOutcome :=
  plainOutcome id .skipped ("Node '" ++ id ++ "' skipped (deadline exceeded)")

/-- The timed runs of `run_fanout_worker`.  An error of the handler is handed on
at once. -/
def workerRuns (node : PipelineNode) (action : DeadlineAction) (shown : String) (tape : Tape) :
    Nat → Option String → Calls → Except String NodeOutcome × Calls
  | 0, lastErr, c =>
      (.error (lastErr.getD ("fan-out worker '" ++ node.id ++ "' failed all retry attempts")), c)
  | runs + 1, _, c =>
      match executeWithRetries tape true node.maxRetries.toNat c with
      | (some answer, c) => (answer, c)
      | (none, c) =>
          match action with
          | .abort => (.error ("fan-out worker '" ++ node.id ++ "' exceeded deadline of " ++ shown ++
              "s (action=abort)"), c)
          | .skip => (.ok (skippedOutcome node.id), c)
          | .retry _ =>
              if runs = 0 then
                (.error ("fan-out worker '" ++ node.id ++ "' exceeded deadline on all " ++
                  toString (maxAttempts action) ++ " retry attempt(s)"), c)
              else
                workerRuns node action shown tape runs (some ("fan-out worker '" ++ node.id ++
                  "' exceeded deadline of " ++ shown ++ "s")) c
          | .escalate => (.error ("fan-out worker '" ++ node.id ++ "' exceeded deadline of " ++ shown ++
              "s (action=escalate)"), c)

/-- A worker is always timed. -/
def runFanoutWorker (node : PipelineNode) (shown : String) (tape : Tape) (c : Calls) :
    Except String NodeOutcome × Calls :=
  let action := node.deadlineAction.getD .abort
  workerRuns node action shown tape (maxAttempts action) none c

/-! ## Recovery -/

/-- `node_budget_spent`. -/
def nodeBudgetSpent (node : PipelineNode) (elapsed : Nat) : Bool :=
  node.timeoutSecs.any (fun secs => decide (0 < secs.toNat ∧ secs.toNat ≤ elapsed))

/-- `classify_outcome` says `Retryable`: a failure of a handler that is
prompted. -/
def isRetryable (node : PipelineNode) (outcome : NodeOutcome) : Bool :=
  (node.handler == .codergen || node.handler == .dynamicParallel) && hasFailed outcome

/-- What the dispatch of a node is told: whether its task is registered and its
budget reserved, the answers of its handler, the time at which a recovery is
considered and whether the pipeline shuts down then, and why its validators
reject a pass, if they do. -/
structure NodeScript where
  refused : Option String
  hostError : Option String
  shown : String
  tape : Tape
  elapsed : Nat
  shutdown : Bool
  rejected : Option String

/-- The outcome after the recovery: that of the second call, if it returns one. -/
def recoverNode (node : PipelineNode) (script : NodeScript) (outcome : NodeOutcome) (c : Calls) :
    NodeOutcome × Calls :=
  if nodeBudgetSpent node script.elapsed || !isRetryable node outcome || script.shutdown then
    (outcome, c)
  else
    match callHandler script.tape false c with
    | (some (.ok second), c) => (second, c.supersede outcome)
    | (_, c) => (outcome, c)

/-- `run_node_validators`: a pass they reject is an error. -/
def validated (node : PipelineNode) (script : NodeScript) (outcome : NodeOutcome) : NodeOutcome :=
  match script.rejected with
  | some reason =>
      if outcome.status = .pass then
        { outcome with
          status := .error
          content := "Pipeline node validator rejected '" ++ node.id ++ "': " ++ reason }
      else outcome
  | none => outcome

/-! ## The nodes of the two executors -/

/-- `dag_execute_node`.  A node past its deadline has the skipped outcome. -/
def dagExecuteNode (node : PipelineNode) (script : NodeScript) : NodeRun × Calls :=
  if handlerRegistered node.handler = false then (.failed "no handler", .none)
  else
    match script.refused, script.hostError with
    | some reason, _ => (.aborted reason, .none)
    | none, some e => (.failed e, .none)
    | none, none =>
        match dispatchNode node script.shown script.tape .none with
        | (.failed e, c) => (.failed e, c)
        | (.skipped, c) =>
            let (outcome, c) := recoverNode node script (skippedOutcome node.id) c
            (.ran (validated node script outcome), c)
        | (.completed outcome, c) =>
            let (outcome, c) := recoverNode node script outcome c
            (.ran (validated node script outcome), c)

/-- The same part of the body of `execute_graph`, which goes on at once with a
node past its deadline. -/
def walkExecuteNode (node : PipelineNode) (script : NodeScript) : Dispatch × Calls :=
  match script.refused, script.hostError with
  | some reason, _ => (.aborted reason, .none)
  | none, some e => (.failed e, .none)
  | none, none =>
      match dispatchNode node script.shown script.tape .none with
      | (.failed e, c) => (.failed e, c)
      | (.skipped, c) => (.skipped, c)
      | (.completed outcome, c) =>
          let (outcome, c) := recoverNode node script outcome c
          (.ran (validated node script outcome), c)

/-! ## Fan-outs -/

/-- The answer of the planning LLM: none, one without a readable list of tasks,
or one with so many tasks. -/
inductive PlannerReply
  | unreachable
  | garbled (usage : TokenUsage)
  | planned (tasks : Nat) (usage : TokenUsage)

/-- `plan_dynamic_tasks`: two counters of the answer are copied. -/
def planDynamicTasks (maxTasks : Nat) : PlannerReply → Option (Nat × TokenUsage)
  | .planned tasks usage => some (min tasks maxTasks,
      { inputTokens := usage.inputTokens, outputTokens := usage.outputTokens })
  | _ => none

/-- The usage of an answer without tasks is lost with it. -/
def PlannerReply.calls : PlannerReply → Calls
  | .unreachable => { Calls.none with made := 1 }
  | .garbled usage => { made := 1, spent := [usage], superseded := [usage] }
  | .planned _ usage => { made := 1, spent := [usage], superseded := [] }

/-- `max_tasks`, 8 by default. -/
def PipelineNode.taskLimit (node : PipelineNode) : Nat :=
  node.maxTasks.elim 8 BitVec.toNat

/-- What an iteration of the walk is told. -/
structure WalkScript where
  elapsed : Nat
  node : NodeScript
  hostError : Option String
  planner : PlannerReply
  shown : String
  worker : Nat → Tape
  mergedContent : String

/-- The node a worker runs: a target of the fan-out, or one made for its task. -/
def workerNode (g : PipelineGraph) (current : String) (node : PipelineNode) (i : Nat) :
    PipelineNode :=
  match node.handler with
  | .parallel => (((fanoutTargets g current)[i]?).bind (fun t => g.nodes[t]?)).getD {}
  | _ =>
      { id := current ++ "_task_" ++ toString i, tools := node.tools,
        timeoutSecs := node.timeoutSecs, maxRetries := node.maxRetries,
        deadlineSecs := node.deadlineSecs, deadlineAction := node.deadlineAction }

def workerRun (g : PipelineGraph) (current : String) (node : PipelineNode) (script : WalkScript)
    (i : Nat) : Except String NodeOutcome × Calls :=
  runFanoutWorker (workerNode g current node i) script.shown (script.worker i) .none

/-- What the script comes to for the current node. -/
def walkTick (g : PipelineGraph) (script : WalkScript) (current : String) : Tick :=
  let node := g.nodes[current]?.getD {}
  { elapsed := script.elapsed
    dispatch := (walkExecuteNode node script.node).1
    hostError := script.hostError
    plan := planDynamicTasks node.taskLimit script.planner
    worker := fun i => (workerRun g current node script i).1
    mergedContent := script.mergedContent }

/-- The calls of the first workers; their order does not matter. -/
def workerCalls (g : PipelineGraph) (current : String) (node : PipelineNode) (script : WalkScript) :
    Nat → Calls
  | 0 => .none
  | n + 1 => (workerCalls g current node script n).append (workerRun g current node script n).2

/-- The calls of an iteration from `s` to `t`: none if it dispatched nothing, and
as many workers as it counted. -/
def walkCalls (g : PipelineGraph) (script : WalkScript) (s t : WalkState) : Calls :=
  if t.log.length = s.log.length then .none
  else
    let node := g.nodes[s.current]?.getD {}
    let workers := workerCalls g s.current node script
      (t.fanoutWorkersDispatched - s.fanoutWorkersDispatched)
    match node.handler with
    | .parallel => workers
    | .dynamicParallel => script.planner.calls.append workers
    | _ => (walkExecuteNode node script.node).2

/-! ## Runs with their calls -/

/-- The node a pass executes, if any, with what it answers. -/
def dagAnswer (g : PipelineGraph) (userInput : String) (script : NodeScript) (s : DagState) :
    NodeRun × Calls :=
  match dagNext g userInput s with
  | .execute id _ => dagExecuteNode (g.nodes[id]?.getD {}) script
  | _ => (.failed "", .none)

/-- A pass of the scheduler, with the calls so far. -/
def dagTracked (g : PipelineGraph) (userInput : String) (scripts : Nat → NodeScript) (k : Nat)
    (r : DagState × Calls) : (DagState × Calls) ⊕ (DagEnd × DagState × Calls) :=
  let (run, calls) := dagAnswer g userInput (scripts k) r.1
  match dagStep g userInput run r.1 with
  | .inl s => .inl (s, r.2.append calls)
  | .inr (ending, s) => .inr (ending, s, r.2.append calls)

/-- An iteration of the walk, with the calls so far. -/
def walkTracked (g : PipelineGraph) (cfg : WalkConfig) (scripts : Nat → WalkScript) (k : Nat)
    (r : WalkState × Calls) : (WalkState × Calls) ⊕ (WalkEnd × WalkState × Calls) :=
  match walkStep g cfg (walkTick g (scripts k) r.1.current) r.1 with
  | .inl s => .inl (s, r.2.append (walkCalls g (scripts k) r.1 s))
  | .inr (ending, s) => .inr (ending, s, r.2.append (walkCalls g (scripts k) r.1 s))

/-- `execute_graph_dag` with its calls, for at most `fuel` passes. -/
def executeDagTracked (g : PipelineGraph) (userInput : String) (scripts : Nat → NodeScript)
    (fuel : Nat) : Option (DagEnd × DagState × Calls) :=
  Loop.run (dagTracked g userInput scripts) fuel 0 (.start, .none)

/-- The state before pass `k`. -/
def dagTrackedAfter (g : PipelineGraph) (userInput : String) (scripts : Nat → NodeScript) (k : Nat) :
    Option (DagState × Calls) :=
  Loop.after (dagTracked g userInput scripts) k (.start, .none)

/-- `execute_graph` with its calls, for at most `fuel` iterations. -/
def executeGraphTracked (g : PipelineGraph) (cfg : WalkConfig) (startNode : String)
    (scripts : Nat → WalkScript) (fuel : Nat) : Option (WalkEnd × WalkState × Calls) :=
  Loop.run (walkTracked g cfg scripts) fuel 0 (.start startNode, .none)

/-- The state before iteration `k`. -/
def walkTrackedAfter (g : PipelineGraph) (cfg : WalkConfig) (startNode : String)
    (scripts : Nat → WalkScript) (k : Nat) : Option (WalkState × Calls) :=
  Loop.after (walkTracked g cfg scripts) k (.start startNode, .none)

/-! ## A node that needs two calls -/

def promptNode (maxRetries : U32) : PipelineNode :=
  { id := "start", maxRetries }

/-- One node that is prompted. -/
def promptGraph (maxRetries : U32) : PipelineGraph :=
  { nodes := Std.ExtTreeMap.ofList [("start", promptNode maxRetries)]
    edges := []
    maxTotalTokens := some 10 }

def costing (status : OutcomeStatus) (inputTokens outputTokens : U32) : NodeOutcome :=
  { plainOutcome "start" status "" with tokenUsage := { inputTokens, outputTokens } }

/-- A call that cost twelve tokens, with this status, and then a pass for two. -/
def secondTry (status : OutcomeStatus) : NodeScript :=
  { refused := none, hostError := none, shown := "", elapsed := 0, shutdown := false, rejected := none
    tape :=
      { answer := fun i => .ok (if i = 0 then costing status 7 5 else costing .pass 1 1)
        late := fun _ => false } }

def secondTryWalk (status : OutcomeStatus) : WalkScript :=
  { elapsed := 0, node := secondTry status, hostError := none, planner := .unreachable, shown := "",
    worker := fun _ => (secondTry status).tape, mergedContent := "" }

end Octos.Pipeline
