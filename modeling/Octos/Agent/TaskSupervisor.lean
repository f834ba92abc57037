/-
# `Octos.Agent.TaskSupervisor` — the background tasks of a session

`task_supervisor.rs`: a table of tasks behind one lock, and a dozen writers.  A
writer takes the lock, looks at one task and changes it or leaves it; that is a
`TaskCall`.  The composite writers (a registration over the cap, the cascade onto
pipeline children, a harness event) read the table and then make calls one by
one, with the lock released in between.

A clock value is a number.  JSON values and rendered details are texts; the text
of a harness event's detail is a function of the detail the task had.  Callbacks,
progress reports, counters and logs are left out.
-/
import Octos.Lib.Table

namespace Octos.Agent

/-! ## Tasks -/

inductive TaskStatus where
  | spawned
  | running
  | completed
  | failed
  | cancelled
  | parked
  deriving DecidableEq

/-- `TaskStatus::is_active`. -/
def TaskStatus.isActive : TaskStatus → Bool
  | .spawned | .running => true
  | _ => false

/-- `TaskStatus::is_terminal`. -/
def TaskStatus.isTerminal : TaskStatus → Bool
  | .completed | .failed | .cancelled => true
  | _ => false

inductive TaskRuntimeState where
  | spawned
  | executingTool
  | resolvingOutputs
  | verifyingOutputs
  | deliveringOutputs
  | cleaningUp
  | completed
  | failed
  | cancelled
  deriving DecidableEq

/-- `is_terminal_runtime_state`. -/
def TaskRuntimeState.isTerminal : TaskRuntimeState → Bool
  | .completed | .failed | .cancelled => true
  | _ => false

inductive ChildSessionTerminalState where
  | completed
  | retryableFailure
  | terminalFailure
  deriving DecidableEq

inductive ChildSessionJoinState where
  | joined
  | orphaned
  deriving DecidableEq

inductive ChildSessionFailureAction where
  | retry
  | escalate
  deriving DecidableEq

/-- `child_failure_action_for_terminal_state`. -/
def childFailureActionForTerminalState : ChildSessionTerminalState → Option ChildSessionFailureAction
  | .completed => none
  | .retryableFailure => some .retry
  | .terminalFailure => some .escalate

structure BackgroundTask where
  id : String
  toolName : String
  toolCallId : String
  parentSessionKey : Option String
  childSessionKey : Option String
  childTerminalState : Option ChildSessionTerminalState
  childJoinState : Option ChildSessionJoinState
  childJoinedAt : Option Nat
  childFailureAction : Option ChildSessionFailureAction
  taskLedgerPath : Option String
  status : TaskStatus
  runtimeState : TaskRuntimeState
  runtimeDetail : Option String
  startedAt : Nat
  updatedAt : Nat
  completedAt : Option Nat
  outputFiles : List String
  error : Option String
  finalOutput : Option String
  failedByObserver : Bool
  sessionKey : Option String
  toolInput : Option String
  originatingClientMessageId : Option String
  source : Option String
  role : Option String
  summary : Option String
  artifactCount : Option Nat
  runtimePolicyStamp : Option String
  projectionMetadata : Option String
  workspaceRoot : Option String

/-! ## Calls on one task -/

/-- `FINAL_OUTPUT_CAP_BYTES`. -/
def finalOutputCapBytes : Nat := 128 * 1024

/-- The longest beginning of at most `limit` bytes. -/
def takeBytes : Nat → List Char → List Char
  | _, [] => []
  | limit, c :: cs => if c.utf8Size ≤ limit then c :: takeBytes (limit - c.utf8Size) cs else []

/-- `truncated_utf8`. -/
def truncatedUtf8 (text : String) (maxLen : Nat) (suffix : String) : String :=
  if text.utf8ByteSize ≤ maxLen then text
  else String.ofList (takeBytes maxLen text.toList) ++ suffix

namespace BackgroundTask

variable (now : Nat) (task : BackgroundTask)

/-- `mark_running`; `none` is a call that is ignored. -/
def markRunning : Option BackgroundTask :=
  if task.status.isTerminal then none
  else some { task with
    status := .running
    runtimeState := .executingTool
    runtimeDetail := none
    updatedAt := now }

/-- `mark_runtime_state`. -/
def markRuntimeState (runtimeState : TaskRuntimeState) (runtimeDetail : Option String) :
    Option BackgroundTask :=
  if task.status.isTerminal then none
  else some { task with
    runtimeState := runtimeState
    runtimeDetail := runtimeDetail
    updatedAt := now }

/-- The summary a completion writes when there is none. -/
def completionSummary (artifactCount : Nat) : String :=
  if 0 < artifactCount then
    task.toolName ++ " completed with " ++ toString artifactCount ++ " artifact(s)"
  else task.toolName ++ " completed"

/-- An observer's failure is provisional. -/
def observerFailed : Bool :=
  decide (task.status = .failed) && task.failedByObserver

/-- `mark_completed`: an observer's failure is overridden, any other verdict stays. -/
def markCompleted (outputFiles : List String) : Option BackgroundTask :=
  if task.status.isTerminal && !task.observerFailed then none
  else
    let overridden := task.status.isTerminal
    let artifactCount := outputFiles.length % 2 ^ 32
    let summary := if overridden then none else task.summary
    some { task with
      failedByObserver := if overridden then false else task.failedByObserver
      error := if overridden then none else task.error
      status := .completed
      runtimeState := .completed
      updatedAt := now
      completedAt := some now
      outputFiles := outputFiles
      artifactCount :=
        if task.artifactCount.isSome || decide (0 < artifactCount) then some artifactCount
        else task.artifactCount
      summary := some (summary.getD (task.completionSummary artifactCount)) }

/-- `mark_failed_inner`. -/
def markFailedInner (error : String) (observed : Bool) : Option BackgroundTask :=
  if task.status = .cancelled ∨ task.status = .completed then none
  else
    let alreadyFailed := decide (task.status = .failed)
    some { task with
      status := .failed
      runtimeState := .failed
      failedByObserver :=
        if !observed then false else if !alreadyFailed then true else task.failedByObserver
      updatedAt := now
      completedAt := some now
      summary := some (task.summary.getD (String.ofList (error.toList.take 1200)))
      error := some error }

/-- `mark_parked`. -/
def markParked (reason : String) : Option BackgroundTask :=
  if task.status.isTerminal then none
  else some { task with
    status := .parked
    runtimeState := .failed
    error := some reason
    runtimeDetail := some reason
    updatedAt := now }

/-- `cancel`. -/
def cancel : Option BackgroundTask :=
  if task.status.isTerminal then none
  else some { task with
    status := .cancelled
    runtimeState := .cancelled
    updatedAt := now
    completedAt := some now
    error := some (task.error.getD "cancelled by supervisor") }

/-- `record_final_output`. -/
def recordFinalOutput (output : String) : Option BackgroundTask :=
  some { task with
    finalOutput := some (truncatedUtf8 output finalOutputCapBytes "\n…[final output truncated]")
    updatedAt := now }

/-- `set_m13b_projection`. -/
def setM13bProjection (source role summary : Option String) (artifactCount : Option Nat)
    (runtimePolicyStamp : Option String) : Option BackgroundTask :=
  if source.isSome || role.isSome || summary.isSome || artifactCount.isSome ||
      runtimePolicyStamp.isSome then
    some { task with
      source := source.or task.source
      role := role.or task.role
      summary := summary.or task.summary
      artifactCount := artifactCount.or task.artifactCount
      runtimePolicyStamp := runtimePolicyStamp.or task.runtimePolicyStamp
      updatedAt := now }
  else none

/-- `set_workspace_root`. -/
def setWorkspaceRoot (workspaceRoot : Option String) : Option BackgroundTask :=
  match workspaceRoot.filter (fun value => !value.isEmpty) with
  | none => none
  | some root =>
      if task.workspaceRoot = some root then none
      else some { task with workspaceRoot := some root, updatedAt := now }

/-- `set_tool_input`: no stamp. -/
def setToolInput (toolInput : String) : Option BackgroundTask :=
  some { task with toolInput := some toolInput }

/-- `set_projection_metadata`. -/
def setProjectionMetadata (metadata : String) : Option BackgroundTask :=
  some { task with projectionMetadata := some metadata, updatedAt := now }

/-- `mark_child_session_outcome`. -/
def markChildSessionOutcome (terminalState : ChildSessionTerminalState)
    (joinState : ChildSessionJoinState) : Option BackgroundTask :=
  some { task with
    childTerminalState := some terminalState
    childJoinState := some joinState
    childJoinedAt := match joinState with
      | .joined => some now
      | .orphaned => none
    childFailureAction := childFailureActionForTerminalState terminalState
    updatedAt := now }

end BackgroundTask

/-- The calls that change a task under the lock. -/
inductive TaskCall where
  | markRunning
  | markRuntimeState (runtimeState : TaskRuntimeState) (runtimeDetail : Option String)
  | markCompleted (outputFiles : List String)
  | markFailed (error : String)
  | markFailedObserved (error : String)
  | markParked (reason : String)
  | cancel
  | recordFinalOutput (output : String)
  | setM13bProjection (source role summary : Option String) (artifactCount : Option Nat)
      (runtimePolicyStamp : Option String)
  | setWorkspaceRoot (workspaceRoot : Option String)
  | setToolInput (toolInput : String)
  | setProjectionMetadata (metadata : String)
  | markChildSessionOutcome (terminalState : ChildSessionTerminalState)
      (joinState : ChildSessionJoinState)
  deriving DecidableEq

/-- What a call makes of the task it names; `none` when it is ignored. -/
def TaskCall.apply (now : Nat) (task : BackgroundTask) : TaskCall → Option BackgroundTask
  | .markRunning => task.markRunning now
  | .markRuntimeState state detail => task.markRuntimeState now state detail
  | .markCompleted files => task.markCompleted now files
  | .markFailed error => task.markFailedInner now error false
  | .markFailedObserved error => task.markFailedInner now error true
  | .markParked reason => task.markParked now reason
  | .cancel => task.cancel now
  | .recordFinalOutput output => task.recordFinalOutput now output
  | .setM13bProjection source role summary count policy =>
      task.setM13bProjection now source role summary count policy
  | .setWorkspaceRoot root => task.setWorkspaceRoot now root
  | .setToolInput input => task.setToolInput input
  | .setProjectionMetadata metadata => task.setProjectionMetadata now metadata
  | .markChildSessionOutcome terminal join => task.markChildSessionOutcome now terminal join

/-! ## The table -/

abbrev Tasks := Table String BackgroundTask

/-- A call on the task of an id; an unknown id is ignored. -/
def Tasks.call (tasks : Tasks) (id : String) (now : Nat) (c : TaskCall) : Tasks :=
  match tasks[id]?.bind (fun task => c.apply now task) with
  | none => tasks
  | some task => tasks.insert id task

/-- Calls one after another. -/
def Tasks.calls (tasks : Tasks) (now : Nat) (cs : List (String × TaskCall)) : Tasks :=
  cs.foldl (fun tasks c => tasks.call c.1 now c.2) tasks

/-- The ids of the tasks with a property, in the order of the table. -/
def Tasks.idsWhere (tasks : Tasks) (p : BackgroundTask → Bool) : List String :=
  (tasks.toList.filter (fun r => p r.2)).map Prod.fst

/-- A pipeline node child. -/
def BackgroundTask.isPipelineNode (task : BackgroundTask) : Bool :=
  "pipeline:".toList.isPrefixOf task.toolName.toList

/-- `mark_descendants_failed`: the calls it makes. -/
def markDescendantsFailed (tasks : Tasks) (parentToolCallId reason : String) :
    List (String × TaskCall) :=
  if parentToolCallId.isEmpty then []
  else
    (tasks.idsWhere (fun task => decide (task.toolCallId = parentToolCallId) &&
      task.status.isActive && task.isPipelineNode)).map (fun id => (id, .markFailed reason))

/-! ## Harness events -/

/-- `HarnessEventPayload`, as far as the supervisor reads it. -/
inductive HarnessEventPayload where
  | progress
  | phase
  | artifact
  | validatorResult (passed : Bool) (message : Option String)
  | retry
  | failure (message : String)
  | mcpServerCall
  | subAgentDispatch
  | swarmDispatch
  | swarmReviewDecision
  | costAttribution
  | routingDecision
  | credentialRotation
  | sessionSanitized
  | subagentProgress
  | error (variant recovery message : String)

structure HarnessEvent where
  payload : HarnessEventPayload
  /-- `runtime_detail_value`, of the detail the task has. -/
  runtimeDetailValue : Option String → String

/-- `variant_is_tool_scoped`. -/
def variantIsToolScoped (variant : String) : Bool :=
  ["tool_execution", "plugin_spawn", "plugin_timeout", "plugin_protocol"].contains variant

/-- The calls `apply_harness_event` makes for the snapshot it read. -/
def HarnessEvent.calls (event : HarnessEvent) (snapshot : BackgroundTask) : List TaskCall :=
  let detail := some (event.runtimeDetailValue snapshot.runtimeDetail)
  match event.payload with
  | .progress | .phase | .retry | .subAgentDispatch | .swarmDispatch | .costAttribution
  | .routingDecision => [.markRuntimeState .executingTool detail]
  | .artifact => [.markRuntimeState .deliveringOutputs detail]
  | .validatorResult passed message =>
      .markRuntimeState .verifyingOutputs detail ::
        (if passed then []
         else [.markFailed (message.getD "validator rejected structured harness event")])
  | .failure message => [.markRuntimeState .failed detail, .markFailed message]
  | .mcpServerCall => []
  | .swarmReviewDecision | .credentialRotation | .sessionSanitized | .subagentProgress =>
      [.markRuntimeState snapshot.runtimeState detail]
  | .error variant recovery message =>
      .markRuntimeState .executingTool detail ::
        (if !variantIsToolScoped variant && (recovery == "fail_fast" || recovery == "bug") then
          [.markFailedObserved message]
         else [])

/-- `apply_harness_event` without interruption. -/
def applyHarnessEvent (tasks : Tasks) (id : String) (now : Nat) (event : HarnessEvent) : Tasks :=
  match tasks[id]? with
  | none => tasks
  | some snapshot => tasks.calls now ((event.calls snapshot).map (fun c => (id, c)))

/-! ## Registration -/

/-- The arguments of `register_full_with_workspace`. -/
structure Registration where
  toolName : String
  toolCallId : String
  sessionKey : Option String
  taskLedgerPath : Option String
  toolInput : Option String
  originatingClientMessageId : Option String
  parentTerminalCheckToolCallId : Option String
  workspaceScope : Option String
  requirePersistence : Bool
  deriving DecidableEq

/-- The task a registration inserts. -/
def Registration.task (r : Registration) (id : String) (now : Nat) (persistencePath : Option String) :
    BackgroundTask where
  id := id
  toolName := r.toolName
  toolCallId := r.toolCallId
  parentSessionKey := r.sessionKey
  childSessionKey := r.sessionKey.map (fun parent => parent ++ "#child-" ++ id)
  childTerminalState := none
  childJoinState := none
  childJoinedAt := none
  childFailureAction := none
  taskLedgerPath := r.taskLedgerPath.or persistencePath
  status := .spawned
  runtimeState := .spawned
  runtimeDetail := none
  startedAt := now
  updatedAt := now
  completedAt := none
  outputFiles := []
  error := none
  finalOutput := none
  failedByObserver := false
  sessionKey := r.sessionKey
  toolInput := r.toolInput
  originatingClientMessageId := r.originatingClientMessageId
  source := none
  role := none
  summary := none
  artifactCount := none
  runtimePolicyStamp := none
  projectionMetadata := none
  workspaceRoot := r.workspaceScope.filter (fun value => !value.isEmpty)

/-- `max_by_key` on `updated_at`: the last of the greatest. -/
def latest (rows : List BackgroundTask) : Option BackgroundTask :=
  rows.foldl (fun best task => match best with
    | none => some task
    | some b => if b.updatedAt ≤ task.updatedAt then some task else some b) none

/-- `pick_parent_status`. -/
def pickParentStatus (tasks : Tasks) (parentToolCallId : String) : Option TaskStatus :=
  let parents := (tasks.toList.map Prod.snd).filter (fun task =>
    decide (task.toolCallId = parentToolCallId) && !task.isPipelineNode)
  match latest (parents.filter (fun task => task.status.isActive)) with
  | some active => some active.status
  | none => (latest parents).map BackgroundTask.status

/-- The parent-terminal guard of a registration, read under the lock. -/
def Registration.parentTerminal (r : Registration) (tasks : Tasks) : Option TaskStatus :=
  ((r.parentTerminalCheckToolCallId.filter (fun id => !id.isEmpty)).bind (pickParentStatus tasks)).filter
    TaskStatus.isTerminal

/-- `RegisterTaskError`. -/
inductive RegisterTaskError where
  | childFanoutExceeded (parentSessionKey : String) (count cap : Nat)
  | parentTerminal (parentToolCallId : String) (parentStatus : TaskStatus)
  | workspacePersistFailed (toolCallId : String)
  deriving DecidableEq

/-- The live children of a session: active ones, and ones whose worker runs. -/
def Tasks.liveChildren (tasks : Tasks) (live : List String) (parent : String) : Nat :=
  (tasks.idsWhere (fun task => decide (task.parentSessionKey = some parent) &&
    (task.status.isActive || live.contains task.id))).length

/-- The active children of a session. -/
def Tasks.activeChildren (tasks : Tasks) (parent : String) : List String :=
  tasks.idsWhere (fun task => decide (task.parentSessionKey = some parent) && task.status.isActive)

/-- `child fanout exceeded (count of cap)` -/
def fanoutReason (count cap : Nat) : String :=
  "child fanout exceeded (" ++ toString count ++ " of " ++ toString cap ++ ")"

/-- The supervisor, as far as registrations go. -/
structure Supervisor where
  tasks : Tasks
  poisonedParents : List String
  persistencePath : Option String

/-- The cap, the ids of live workers, and whether the first row can be written. -/
structure RegisterEnv where
  cap : Nat
  live : List String
  persists : Bool

/-- The insertion, with the parent's status read once more under its lock. -/
def Supervisor.insertTask (s : Supervisor) (r : Registration) (id : String) (now : Nat)
    (persists : Bool) : Except RegisterTaskError String × Supervisor :=
  match r.parentTerminal s.tasks with
  | some status =>
      (.error (.parentTerminal (r.parentTerminalCheckToolCallId.getD "") status), s)
  | none =>
      if r.requirePersistence && s.persistencePath.isSome && !persists then
        (.error (.workspacePersistFailed r.toolCallId), s)
      else
        (.ok id, { s with tasks := s.tasks.insert id (r.task id now s.persistencePath) })

/-- The calls on the active children of a session over its cap. -/
def Supervisor.failChildren (s : Supervisor) (parent reason : String) : List (String × TaskCall) :=
  (s.tasks.activeChildren parent).map (fun id => (id, .markFailed reason))

/-- `register_full_with_workspace` without interruption. -/
def Supervisor.register (s : Supervisor) (r : Registration) (id : String) (now : Nat)
    (env : RegisterEnv) : Except RegisterTaskError String × Supervisor :=
  match r.parentTerminal s.tasks with
  | some status =>
      (.error (.parentTerminal (r.parentTerminalCheckToolCallId.getD "") status), s)
  | none =>
      match r.sessionKey with
      | none => s.insertTask r id now env.persists
      | some parent =>
          let count := s.tasks.liveChildren env.live parent
          if s.poisonedParents.contains parent then
            (.error (.childFanoutExceeded parent count env.cap), s)
          else if env.cap ≤ count then
            (.error (.childFanoutExceeded parent count env.cap), { s with
              poisonedParents := parent :: s.poisonedParents
              tasks := s.tasks.calls now (s.failChildren parent (fanoutReason count env.cap)) })
          else s.insertTask r id now env.persists

end Octos.Agent
