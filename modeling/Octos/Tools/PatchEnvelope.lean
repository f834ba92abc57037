/-
# `Octos.Tools.PatchEnvelope` — the patch envelope, read and printed

`parse_patch_envelope` of `apply_patch.rs`, and the envelope it reads:

    *** Begin Patch
    *** Add File: <path>        lines of the file, each behind `+`
    *** Delete File: <path>
    *** Update File: <path>     hunks: `@@` or `@@ <anchor>`, and lines behind
    *** Move to: <path>         `+`, `-` or a space; `*** End of File` pins a hunk
    *** End Patch

Directives, markers and the text of files share one space of lines.  What keeps
them apart is the first character: a printed line of text begins with `+`, `-` or
a space, a marker with `@`, and only directives with `*` (`step_body`).  So the
text of a line never matters, and what is printed is read back (`run_op`).
-/
import Octos.Tools.PatchHunks

namespace Octos.Tools

open Text

/-! ## Operations -/

inductive PatchOp
  | add (path content : List Char)
  | delete (path : List Char)
  | update (path : List Char) (moveTo : Option (List Char)) (hunks : List UpdateHunk)
  deriving DecidableEq

/-- The section that is being read. -/
inductive Current
  | none
  | add (path : List Char) (lines : List (List Char))
  | update (path : List Char) (moveTo : Option (List Char)) (hunks : List UpdateHunk)

inductive EnvelopeError
  | noBegin
  | noHunks (path : List Char)
  | missingPath (lineNo : Nat) (directive : String)
  | afterEnd (lineNo : Nat)
  | moveAfterHunks (lineNo : Nat)
  | moveTwice (lineNo : Nat)
  | moveOutside (lineNo : Nat)
  | eofOutside (lineNo : Nat)
  | badDirective (lineNo : Nat) (line : List Char)
  | noDirective (lineNo : Nat) (line : List Char)
  | badAddLine (lineNo : Nat)
  | afterEof (lineNo : Nat)
  | badHunkLine (lineNo : Nat)
  | noEnd
  | noSections

def beginPatch : List Char := "*** Begin Patch".toList
def endPatch : List Char := "*** End Patch".toList
def addFile : List Char := "*** Add File: ".toList
def deleteFile : List Char := "*** Delete File: ".toList
def updateFile : List Char := "*** Update File: ".toList
def moveFile : List Char := "*** Move to: ".toList
def endOfFile : List Char := "*** End of File".toList

def EnvelopeError.message : EnvelopeError → String
  | .noBegin => "patch must start with '*** Begin Patch'"
  | .noHunks path => "'*** Update File: " ++ String.ofList path ++
      "' section has no hunks (and no '*** Move to:')"
  | .missingPath n directive => "line " ++ toString n ++ ": missing path after '" ++ directive ++ "'"
  | .afterEnd n => "line " ++ toString n ++ ": content after '*** End Patch'"
  | .moveAfterHunks n => "line " ++ toString n ++
      ": '*** Move to:' must appear directly after '*** Update File:' (before any hunks)"
  | .moveTwice n => "line " ++ toString n ++ ": duplicate '*** Move to:' in one Update section"
  | .moveOutside n => "line " ++ toString n ++
      ": '*** Move to:' is only valid inside an '*** Update File:' section"
  | .eofOutside n => "line " ++ toString n ++
      ": '*** End of File' is only valid after a hunk in an '*** Update File:' section"
  | .badDirective n line => "line " ++ toString n ++ ": unrecognized or malformed directive: " ++
      String.ofList line ++ " (expected '*** Add File: <path>', '*** Delete File: <path>', " ++
      "'*** Update File: <path>', '*** Move to: <path>', or '*** End Patch')"
  | .noDirective n line => "line " ++ toString n ++ ": expected a '*** ' directive, got: " ++
      String.ofList line
  | .badAddLine n => "line " ++ toString n ++
      ": lines in an '*** Add File:' section must start with '+'"
  | .afterEof n => "line " ++ toString n ++ ": content after '*** End of File' in an " ++
      "'*** Update File:' section ('*** End of File' closes the section's hunks; only a new " ++
      "'*** ' directive may follow)"
  | .badHunkLine n => "line " ++ toString n ++
      ": lines in an '*** Update File:' hunk must start with '+', '-', or ' ' (context)"
  | .noEnd => "patch is missing '*** End Patch'"
  | .noSections => "patch contains no file sections"

/-! ## Reading -/

/-- `strip_prefix`. -/
def stripStart (start text : List Char) : Option (List Char) :=
  if start <+: text then some (text.drop start.length) else none

def isBlank (line : List Char) : Bool :=
  (trim line).isEmpty

structure Parser where
  ops : List PatchOp := []
  current : Current := .none
  sawEnd : Bool := false

def finalize (current : Current) (ops : List PatchOp) : Except EnvelopeError (List PatchOp) :=
  match current with
  | .none => .ok ops
  | .add path lines => .ok (ops ++ [.add path (unlines lines)])
  | .update path moveTo hunks =>
      if hunks.all (fun h => h.lines.isEmpty) ∧ moveTo.isNone then .error (.noHunks path)
      else .ok (ops ++ [.update path moveTo hunks])

def directivePath (rest : List Char) (directive : String) (lineNo : Nat) :
    Except EnvelopeError (List Char) :=
  let path := trim rest
  if path.isEmpty then .error (.missingPath lineNo directive) else .ok path

/-- `normalize_hunk_anchor`. -/
def normalizeHunkAnchor (rest : List Char) : Option (List Char) :=
  let rest := trim rest
  if rest.isEmpty then none
  else
    match (if rest.head? = some '-' then breakOnLast "@@".toList rest else none) with
    | some (_, after) =>
        let anchor := trim after
        if anchor.isEmpty then none else some anchor
    | none => some rest

/-- A line of a hunk; `none` for the note that there is no newline at the end. -/
def hunkLine (lineNo : Nat) : List Char → Except EnvelopeError (Option DiffLine)
  | '+' :: rest => .ok (some (.add rest))
  | '-' :: rest => .ok (some (.remove rest))
  | ' ' :: rest => .ok (some (.context rest))
  | [] => .ok (some (.context []))
  | '\\' :: _ => .ok none
  | _ => .error (.badHunkLine lineNo)

/-- One more line of the last hunk. -/
def pushLine (hunks : List UpdateHunk) (line : DiffLine) : List UpdateHunk :=
  hunks.dropLast ++ (hunks.getLast?.map (fun h => { h with lines := h.lines ++ [line] })).toList

def pinLast (hunks : List UpdateHunk) : List UpdateHunk :=
  hunks.dropLast ++ (hunks.getLast?.map (fun h => { h with atEof := true })).toList

/-- A line of an update section that is no directive. -/
def updateLine (lineNo : Nat) (line path : List Char) (moveTo : Option (List Char))
    (hunks : List UpdateHunk) : Except EnvelopeError Current :=
  if hunks.getLast?.any (fun h => h.atEof) then
    if isBlank line then .ok (.update path moveTo hunks) else .error (.afterEof lineNo)
  else
    match stripStart "@@".toList line with
    | some rest => .ok (.update path moveTo (hunks ++ [{ anchor := normalizeHunkAnchor rest }]))
    | none => do
        let hunks := if hunks.isEmpty then [{}] else hunks
        match ← hunkLine lineNo line with
        | some line => .ok (.update path moveTo (pushLine hunks line))
        | none => .ok (.update path moveTo hunks)

/-- A line that is no directive. -/
def bodyLine (lineNo : Nat) (line : List Char) : Current → Except EnvelopeError Current
  | .none => if isBlank line then .ok .none else .error (.noDirective lineNo line)
  | .add path lines =>
      match line with
      | '+' :: rest => .ok (.add path (lines ++ [rest]))
      | [] => .ok (.add path (lines ++ [[]]))
      | _ => .error (.badAddLine lineNo)
  | .update path moveTo hunks => updateLine lineNo line path moveTo hunks

/-- `*** Move to: `. -/
def moveLine (lineNo : Nat) (rest : List Char) : Current → Except EnvelopeError Current
  | .update path none [] => do
      let target ← directivePath rest "*** Move to:" lineNo
      return .update path (some target) []
  | .update _ none (_ :: _) => .error (.moveAfterHunks lineNo)
  | .update _ (some _) _ => .error (.moveTwice lineNo)
  | _ => .error (.moveOutside lineNo)

/-- `*** End of File`. -/
def eofLine (lineNo : Nat) : Current → Except EnvelopeError Current
  | .update path moveTo hunks =>
      if hunks.isEmpty then .error (.eofOutside lineNo) else .ok (.update path moveTo (pinLast hunks))
  | _ => .error (.eofOutside lineNo)

/-- One line behind the begin line. -/
def step (lineNo : Nat) (line : List Char) (st : Parser) : Except EnvelopeError Parser :=
  if st.sawEnd then
    if isBlank line then .ok st else .error (.afterEnd lineNo)
  else if line = endPatch then do
    let ops ← finalize st.current st.ops
    return { ops := ops, current := .none, sawEnd := true }
  else if let some rest := stripStart addFile line then do
    let ops ← finalize st.current st.ops
    let path ← directivePath rest "*** Add File:" lineNo
    return { st with ops := ops, current := .add path [] }
  else if let some rest := stripStart deleteFile line then do
    let ops ← finalize st.current st.ops
    let path ← directivePath rest "*** Delete File:" lineNo
    return { st with ops := ops ++ [.delete path], current := .none }
  else if let some rest := stripStart updateFile line then do
    let ops ← finalize st.current st.ops
    let path ← directivePath rest "*** Update File:" lineNo
    return { st with ops := ops, current := .update path none [] }
  else if let some rest := stripStart moveFile line then do
    let current ← moveLine lineNo rest st.current
    return { st with current := current }
  else if line = endOfFile then do
    let current ← eofLine lineNo st.current
    return { st with current := current }
  else if "***".toList <+: line then .error (.badDirective lineNo line)
  else do
    let current ← bodyLine lineNo line st.current
    return { st with current := current }

/-- The lines from index `n` on. -/
def runFrom : Nat → List (List Char) → Parser → Except EnvelopeError Parser
  | _, [], st => .ok st
  | n, line :: rest, st => do
      let st ← step (n + 1) line st
      runFrom (n + 1) rest st

def finish (st : Parser) : Except EnvelopeError (List PatchOp) :=
  if st.sawEnd = false then .error .noEnd
  else if st.ops.isEmpty then .error .noSections
  else .ok st.ops

/-- The lines, without a carriage return at the end. -/
def patchLines (input : List Char) : List (List Char) :=
  (lines input).map stripCr

def parsePatchEnvelope (input : List Char) : Except EnvelopeError (List PatchOp) :=
  match (patchLines input).dropWhile isBlank with
  | [] => .error .noBegin
  | line :: rest =>
      if line = beginPatch then do
        let st ← runFrom (((patchLines input).takeWhile isBlank).length + 1) rest {}
        finish st
      else .error .noBegin

/-! ## Printing -/

def printMarker : Option (List Char) → List Char
  | some anchor => "@@ ".toList ++ anchor
  | none => "@@".toList

def printHunk (h : UpdateHunk) : List (List Char) :=
  printMarker h.anchor :: h.lines.map printLine ++ (if h.atEof then [endOfFile] else [])

def printOp : PatchOp → List (List Char)
  | .add path content => (addFile ++ path) :: (content.splitOn '\n').map (fun line => '+' :: line)
  | .delete path => [deleteFile ++ path]
  | .update path moveTo hunks =>
      (updateFile ++ path) :: (moveTo.map (fun target => moveFile ++ target)).toList ++
        hunks.flatMap printHunk

def envelopeLines (ops : List PatchOp) : List (List Char) :=
  beginPatch :: ops.flatMap printOp ++ [endPatch]

/-- Every line with a newline behind it. -/
def printEnvelope (ops : List PatchOp) : List Char :=
  (envelopeLines ops).flatMap (fun line => line ++ ['\n'])

/-! ### What can be printed -/

/-- A single line without white space around it, and not empty. -/
structure IsName (name : List Char) : Prop where
  nonempty : name ≠ []
  trimmed : Trimmed name
  oneLine : '\n' ∉ name

/-- No line break, and no carriage return before the one that is printed behind it. -/
structure IsText (text : List Char) : Prop where
  oneLine : '\n' ∉ text
  noReturn : text.getLast? ≠ some '\r'

def DiffLine.text : DiffLine → List Char
  | .context text => text
  | .remove text => text
  | .add text => text

structure UpdateHunk.Printable (h : UpdateHunk) : Prop where
  anchor : ∀ a ∈ h.anchor, IsName a ∧ a.head? ≠ some '-'
  lines : ∀ l ∈ h.lines, IsText l.text

def PatchOp.Printable : PatchOp → Prop
  | .add path content => IsName path ∧ ∀ line ∈ content.splitOn '\n', line.getLast? ≠ some '\r'
  | .delete path => IsName path
  | .update path moveTo hunks =>
      IsName path ∧ (∀ target ∈ moveTo, IsName target) ∧ (∀ h ∈ hunks, h.Printable) ∧
        (∀ h ∈ hunks.dropLast, h.atEof = false) ∧ ((∃ h ∈ hunks, h.lines ≠ []) ∨ moveTo.isSome)

end Octos.Tools
