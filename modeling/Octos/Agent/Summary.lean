/-
# `Octos.Agent.Summary` — the summary of what a conversation drops

The extractive part of `compaction.rs`.  Each message that goes is one line of the
summary, as long as a budget of tokens allows; `compact_messages` puts the lines under
a header, and the plan on top:

    ## Task plan as last declared ..        if a plan was ever declared
    ..
    (end of plan state)

    ## Conversation Summary (compacted from n messages)

    > User: ..
      -> read_file: ok - ..
    ... (k earlier messages omitted)

The plan is what the newest call of `update_plan` declares, or what the summary of an
earlier pass carries.  The arguments of a call are JSON; the reader of JSON is a
parameter.
-/
import Octos.Lib.Cut
import Octos.Lib.Json
import Octos.Lib.Lines
import Octos.Llm.Tokens

namespace Octos.Agent

open Octos.Llm Octos.Text

/-! ## Lines -/

/-- The first line, cut to so many characters. -/
def firstLine (s : List Char) (maxChars : Nat) : List Char :=
  let line := (lines s).headD []
  if line.length ≤ maxChars then line else line.take maxChars ++ "...".toList

/-- The name of the call a result answers, as the newest message has it. -/
def findToolName (toolMsg : Message) (messages : List Message) : String :=
  match toolMsg.toolCallId with
  | none => "unknown_tool"
  | some id =>
      (messages.reverse.findSome? (fun m =>
        (m.calls.find? (fun call => call.id == id)).map ToolCall.name)).getD "unknown_tool"

def summarizeMessage (m : Message) (context : List Message) : List Char :=
  match m.role with
  | .user =>
      let mediaNote := if m.media.isEmpty then [] else " [media omitted]".toList
      "> User: ".toList ++ firstLine m.content.toList 200 ++ mediaNote
  | .assistant =>
      let called := m.calls.map (fun call => "- Called ".toList ++ call.name.toList)
      let lead := if m.toolCalls.isSome then "  ".toList else "> Assistant: ".toList
      unlines (called ++
        if m.content.isEmpty then [] else [lead ++ firstLine m.content.toList 200])
  | .tool =>
      let status := if startsWith "Error:" m.content then "error" else "ok"
      "  -> ".toList ++ (findToolName m context).toList ++ ": ".toList ++ status.toList ++
        " - ".toList ++ firstLine m.content.toList 100
  | .system => "> Context: ".toList ++ firstLine m.content.toList 200

/-! ## The plan -/

def planSnapshotMaxBytes : Nat :=
  1500

def planTitleMaxBytes : Nat :=
  120

def planBlockBegin : List Char :=
  "## Task plan as last declared (background state — the newest user message decides what happens next)".toList

def planBlockEnd : List Char :=
  "(end of plan state)".toList

inductive PlanItemStatus
  | pending
  | inProgress
  | completed

/-- Title and status of an item, as `normalize_plan` reads them. -/
def planItem (item : Json) : List Char × PlanItemStatus :=
  let title := (["step", "title", "content", "text"].findSome? (fun key => item.getStr key)).getD ""
  let status : PlanItemStatus :=
    match item.getStr "status" with
    | some "in_progress" | some "in-progress" | some "active" | some "running" => .inProgress
    | some "completed" | some "complete" | some "done" => .completed
    | _ => .pending
  (title.toList, status)

/-- The items of `normalize_plan`. -/
def planItems (args : Json) : List (List Char × PlanItemStatus) :=
  ((((args.get "plan").or (args.get "items")).bind Json.asArr).getD []).map planItem

def PlanItemStatus.marker : PlanItemStatus → List Char
  | .completed => "[x]".toList
  | .inProgress => "[>]".toList
  | .pending => "[ ]".toList

/-- The row of an item, if it has a title. -/
def planRow (item : List Char × PlanItemStatus) : List Char :=
  let title := (trim item.1).filter (fun ch => !isControl ch)
  if title.isEmpty then []
  else "- ".toList ++ item.2.marker ++ ' ' ::
    truncateUtf8 title planTitleMaxBytes "…".toList ++ ['\n']

section

variable (json : JsonText)

/-- `None` for arguments that declare no plan; a string is read once more. -/
def renderPlanChecklist (arguments : String) : Option (List Char) :=
  let args :=
    match (json.parse arguments).getD .null with
    | .str raw => json.parse raw
    | other => some other
  match args with
  | none => none
  | some args =>
      let body := trimEnd ((planItems args).flatMap planRow)
      if body.isEmpty then none else some body

/-- The plan inside the summary of an earlier pass. -/
def extractPlanBlock (text : List Char) : Option (List Char) :=
  match breakOn planBlockBegin text with
  | none => none
  | some (_, after) =>
      match breakOn planBlockEnd after with
      | none => none
      | some (inside, _) => if (trim inside).isEmpty then none else some (trim inside)

/-- The plan a message declares or carries; its last call counts first. -/
def messagePlan (m : Message) : Option (List Char) :=
  (m.calls.reverse.findSome? (fun call =>
    if call.name = "update_plan" then renderPlanChecklist json call.arguments else none)).or
      (extractPlanBlock m.content.toList)

def latestPlanSnapshot (messages : List Message) : Option (List Char) :=
  messages.reverse.findSome? (messagePlan json)

/-- The loop of `strip_plan_blocks`; the first argument bounds the rounds. -/
def stripBlocks : Nat → List Char → List Char
  | 0, out => out
  | rounds + 1, out =>
      match breakOn planBlockBegin out with
      | none => out
      | some (before, after) =>
          match breakOn planBlockEnd (planBlockBegin ++ after) with
          | none => out
          | some (_, rest) => stripBlocks rounds (before ++ rest)

def stripPlanBlocks (summary : List Char) : List Char :=
  let out := stripBlocks summary.length summary
  let hasSentinel := fun line => contains planBlockBegin line || contains planBlockEnd line
  trimStart (if hasSentinel out then unlines ((lines out).filter (fun line => !hasSentinel line))
    else out)

/-- `max_plan_bytes.clamp(200, PLAN_SNAPSHOT_MAX_BYTES)` -/
def planBytes (maxPlanBytes : Nat) : Nat :=
  max 200 (min maxPlanBytes planSnapshotMaxBytes)

def prependPlanBlock (summary : List Char) (plan : Option (List Char)) (maxPlanBytes : Nat) :
    List Char :=
  match plan with
  | none => summary
  | some plan =>
      planBlockBegin ++ '\n' ::
        truncateUtf8 plan (planBytes maxPlanBytes) "\n… (plan truncated)".toList ++ '\n' ::
        planBlockEnd ++ "\n\n".toList ++ stripPlanBlocks summary

/-! ## The summary -/

/-- `(tokens as f64 * BASE_CHUNK_RATIO) as u32` -/
def chunkShare (tokens : Nat) : Nat :=
  2 * tokens / 5

def summaryHeader (count : Nat) : List Char :=
  "## Conversation Summary (compacted from ".toList ++ decimal count ++ " messages)\n".toList

def omittedNotice (count : Nat) : List Char :=
  "... (".toList ++ decimal count ++ " earlier messages omitted)".toList

/-- The loop of `compact_messages`, with the running total of tokens. -/
def summaryLines (context : List Message) (budgetTokens : Nat) : Nat → List Message → List (List Char)
  | _, [] => []
  | runningTokens, m :: rest =>
      if chunkShare budgetTokens ≤ runningTokens then [omittedNotice (rest.length + 1)]
      else
        let line := summarizeMessage m context
        if budgetTokens < runningTokens + estimateTokens line then [omittedNotice (rest.length + 1)]
        else line :: summaryLines context budgetTokens (runningTokens + estimateTokens line) rest

/-- What the plan takes from the budget. -/
def planBudgetTokens (plan : Option (List Char)) : Nat :=
  (plan.map (fun p => estimateTokens p + 24)).getD 0

def compactMessages (messages : List Message) (budgetTokens : Nat) : List Char :=
  let plan := latestPlanSnapshot json messages
  let budgetTokens := max (budgetTokens - planBudgetTokens plan) 64
  let header := summaryHeader messages.length
  prependPlanBlock
    (unlines (header :: summaryLines messages budgetTokens (estimateTokens header) messages))
    plan (planBudgetTokens plan * 4)

end

end Octos.Agent
