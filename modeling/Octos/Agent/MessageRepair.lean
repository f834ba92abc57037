/-
# `Octos.Agent.MessageRepair` — the repair passes over a prompt

`message_repair.rs`, and the order in which `prepare_conversation_messages` of
`loop_compaction.rs` runs it.  A provider wants every call of a tool answered by
one result, right behind the assistant that made it:

    normalize_system_messages         one system message, in front
    repair_message_order              results gathered behind their assistant
    repair_tool_pairs                 calls without results stripped, and back
    synthesize_missing_tool_results   a placeholder for a result that is missing
    normalize_tool_call_ids           ids in the form `call_..`

The passes work on a vector with indices that move as rows are removed and
inserted.  A scan of the vector is a pair here: the rows it has gone over, and
those to come.
-/
import Mathlib
import Octos.Lib.Table

namespace Octos.Agent

/-! ## Messages -/

inductive MessageRole
  | system
  | user
  | assistant
  | tool
  deriving DecidableEq

/-- A call; its arguments and metadata are JSON. -/
structure ToolCall where
  id : String
  name : String
  arguments : String := "{}"
  metadata : Option String := none
  deriving DecidableEq

structure Message where
  role : MessageRole
  content : String
  media : List String := []
  toolCalls : Option (List ToolCall) := none
  toolCallId : Option String := none
  reasoningContent : Option String := none
  clientMessageId : Option String := none
  threadId : Option String := none
  timestamp : Int
  deriving DecidableEq

namespace Message

def isTool (m : Message) : Bool :=
  m.role == .tool

def calls (m : Message) : List ToolCall :=
  m.toolCalls.getD []

def callIds (m : Message) : List String :=
  m.calls.map ToolCall.id

/-- An assistant with at least one call. -/
def hasToolCalls (m : Message) : Bool :=
  m.role == .assistant && !m.calls.isEmpty

/-- An assistant with this call. -/
def declares (m : Message) (id : String) : Bool :=
  m.role == .assistant && m.callIds.contains id

end Message

/-- `starts_with`. -/
def startsWith (start text : String) : Bool :=
  start.toList.isPrefixOf text.toList

/-! ## System messages -/

/-- Notes about earlier work, not instructions. -/
def isNote (m : Message) : Bool :=
  startsWith "[Background task" m.content || startsWith "[Conversation summary]" m.content

def noteToUser (m : Message) : Message :=
  if m.role = .system ∧ isNote m = true then
    { m with role := .user, content := "[System note] " ++ m.content }
  else m

/-- The contents of the system messages behind the first message. -/
def extraContent (rest : List Message) : List String :=
  ((rest.filter (fun m => m.role == .system)).map Message.content).filter (fun text => text ≠ "")

def normalizeSystemMessages : List Message → List Message
  | [] => []
  | first :: rest =>
      let rest := rest.map noteToUser
      { first with
        content := (extraContent rest).foldl (fun content text => content ++ "\n\n" ++ text)
          first.content } ::
        rest.filter (fun m => m.role != .system)

/-! ## The order of results -/

/-- The assistant a result belongs to: the last row before it that is no result, if
it declares the id. -/
def ownerOf (id : String) (before : List Message) : Option Nat :=
  match before.reverse.dropWhile Message.isTool with
  | [] => none
  | m :: rest => if m.declares id then some rest.length else none

/-- The id of a result that is looked for. -/
def matchedId (expected : List String) (m : Message) : Option String :=
  if m.isTool then m.toolCallId.filter expected.contains else none

structure Gathered where
  messages : List Message
  index : Nat
  collected : Table String Message

/-- The scan for the results of the assistant at `i`: rows are taken unless they
belong to another assistant.  Later rows of one id replace earlier ones. -/
def gather (expected : List String) :
    Nat → Table String Message → List Message → List Message → Gathered
  | i, collected, before, [] => ⟨before, i, collected⟩
  | i, collected, before, m :: rest =>
      if before.length = i then gather expected i collected (before ++ [m]) rest
      else
        match matchedId expected m with
        | none => gather expected i collected (before ++ [m]) rest
        | some id =>
            if (ownerOf id before).any (fun owner => owner != i) then
              gather expected i collected (before ++ [m]) rest
            else
              gather expected (if before.length < i then i - 1 else i) (collected.insert id m)
                before rest

/-- One result for each call, in the order of the calls. -/
def reinsert : Table String Message → List String → List Message
  | _, [] => []
  | collected, id :: ids =>
      match collected[id]? with
      | some m => m :: reinsert (collected.erase id) ids
      | none => reinsert collected ids

def orderLoop : Nat → Nat → List Message → List Message
  | 0, _, messages => messages
  | fuel + 1, i, messages =>
      match messages[i]? with
      | none => messages
      | some m =>
          if m.hasToolCalls then
            let g := gather m.callIds i ∅ [] messages
            let rows := reinsert g.collected m.callIds
            orderLoop fuel (g.index + 1 + rows.length)
              (g.messages.take (g.index + 1) ++ (rows ++ g.messages.drop (g.index + 1)))
          else orderLoop fuel (i + 1) messages

/-- Every turn goes past one message at least. -/
def repairMessageOrder (messages : List Message) : List Message :=
  orderLoop messages.length 0 messages

/-! ## Pairs -/

def allCallIds (messages : List Message) : List String :=
  (messages.filter (fun m => m.role == .assistant)).flatMap Message.callIds

def resultIds (messages : List Message) : List String :=
  (messages.filter Message.isTool).filterMap Message.toolCallId

def stripCalls (matched : String → Bool) (m : Message) : Message :=
  if m.role = .assistant ∧ m.callIds.any (fun id => !matched id) = true then
    { m with
      content := if m.content = "" then
          "[Called tools: " ++ ", ".intercalate (m.calls.map ToolCall.name) ++ "]"
        else m.content
      toolCalls := none }
  else m

def keepsResult (remaining : List String) (m : Message) : Bool :=
  !m.isTool || m.toolCallId.any remaining.contains

def repairToolPairs (messages : List Message) : List Message :=
  let matched := fun id => (allCallIds messages).contains id && (resultIds messages).contains id
  let stripped := messages.map (stripCalls matched)
  stripped.filter (keepsResult (allCallIds stripped))

/-! ## Missing results -/

def placeholder (assistant : Message) (call : ToolCall) : Message :=
  { role := .tool
    content := "[Tool '" ++ call.name ++ "' result was lost — no output available]"
    toolCallId := some call.id
    timestamp := assistant.timestamp }

/-- For every call without a result, one placeholder for each id. -/
def placeholders (assistant : Message) : List String → List ToolCall → List Message
  | _, [] => []
  | answered, call :: calls =>
      if answered.contains call.id then placeholders assistant answered calls
      else placeholder assistant call :: placeholders assistant (call.id :: answered) calls

/-- The rows up to the next assistant or user. -/
def window (rest : List Message) : List Message :=
  rest.takeWhile (fun m => m.role != .assistant && m.role != .user)

def synthesizeLoop : Nat → Nat → List Message → List Message
  | 0, _, messages => messages
  | fuel + 1, i, messages =>
      match messages[i]? with
      | none => messages
      | some m =>
          if m.hasToolCalls then
            let between := window (messages.drop (i + 1))
            let j := i + 1 + between.length
            let rows := placeholders m (resultIds between) m.calls
            synthesizeLoop fuel (j + rows.length) (messages.take j ++ (rows ++ messages.drop j))
          else synthesizeLoop fuel (i + 1) messages

def synthesizeMissingToolResults (messages : List Message) : List Message :=
  synthesizeLoop messages.length 0 messages

/-! ## Ids -/

/-- `strip_prefix`. -/
def stripStart (start text : String) : Option String :=
  if startsWith start text then some (String.ofList (text.toList.drop start.toList.length)) else none

def normalizeOneId (id : String) : String :=
  if startsWith "call_" id || startsWith "fc_" id then id
  else "call_" ++ ((((stripStart "call_function_" id).or (stripStart "toolu_" id)).or
    (stripStart "chatcmpl-" id)).getD id)

/-- The ids that are rewritten, those of all calls. -/
def idMap (messages : List Message) : Table String String :=
  ((messages.flatMap Message.callIds).filter (fun id => id ≠ "" ∧ startsWith "call_" id = false)).foldl
    (fun table id => table.insert id (normalizeOneId id)) ∅

def rewriteId (table : Table String String) (id : String) : String :=
  table[id]?.getD id

def rewriteIds (table : Table String String) (m : Message) : Message :=
  { m with
    toolCalls := m.toolCalls.map (fun calls => calls.map (fun call =>
      { call with id := rewriteId table call.id }))
    toolCallId := m.toolCallId.map (rewriteId table) }

/-- An empty map rewrites nothing, so that the early return needs no case. -/
def normalizeToolCallIds (messages : List Message) : List Message :=
  messages.map (rewriteIds (idMap messages))

end Octos.Agent
