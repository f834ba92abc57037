/-
# `Octos.Tools.Replacer` — the chain of matchers behind `edit_file`

`find_replacement` of `replacer.rs`.  Six matchers of growing tolerance run in
order, and the first that matches at all decides: one match is the place to
edit, more than one is an ambiguity.

    exact, escape_normalized       a search for a text
    line_trimmed, whitespace_normalized, indentation_flexible
                                   a scan of all blocks of whole lines
    block_anchor                   a score of candidate blocks

Ranges are in bytes.  The last matcher compares floating point scores; it is a
parameter here.
-/
import Octos.Lib.Lines
import Octos.Lib.Occurrences

namespace Octos.Tools.Replacer

open Text

/-- `Range<usize>`. -/
structure ByteRange where
  start : Nat
  stop : Nat
  deriving DecidableEq

inductive Stage
  | exact
  | lineTrimmed
  | whitespaceNormalized
  | indentationFlexible
  | escapeNormalized
  | blockAnchor
  deriving DecidableEq

inductive ChainOutcome
  | noMatch
  | ambiguous (count : Nat) (replacer : Stage)
  | found (range : ByteRange) (replacer : Stage)
  deriving DecidableEq

/-! ## Searches for a text -/

def exactMatches (content find : List Char) : List ByteRange :=
  (matchIndices find content).map (fun i => ⟨i, i + utf8Length find⟩)

def unescapeChar : Char → List Char
  | 'n' => ['\n']
  | 't' => ['\t']
  | 'r' => ['\r']
  | '\\' => ['\\']
  | '\'' => ['\'']
  | '"' => ['"']
  | other => ['\\', other]

def unescapeFind : List Char → List Char
  | [] => []
  | '\\' :: ch :: rest => unescapeChar ch ++ unescapeFind rest
  | ch :: rest => ch :: unescapeFind rest

def escapeNormalizedMatches (content find : List Char) : List ByteRange :=
  if unescapeFind find = find then [] else exactMatches content (unescapeFind find)

/-! ## Blocks of lines -/

/-- Byte span of the content of one line. -/
structure LineSpan where
  start : Nat
  stop : Nat

def LineSpan.text (content : List Char) (span : LineSpan) : List Char :=
  slice content span.start span.stop

def indexFrom : Nat → List (List Char) → List LineSpan
  | _, [] => []
  | start, segment :: rest =>
      ⟨start, start + utf8Length segment⟩ :: indexFrom (start + utf8Length segment + 1) rest

def indexLines (content : List Char) : List LineSpan :=
  indexFrom 0 (content.splitOn '\n')

/-- The lines of the needle, and whether it ended in a newline. -/
def splitFind (find : List Char) : List (List Char) × Bool :=
  if find.getLast? = some '\n' then ((find.splitOn '\n').dropLast, true)
  else (find.splitOn '\n', false)

section Windows

variable (content : List Char) (lines : List LineSpan)

/-- The range of the lines `i..i + n`, with the newline behind them when the needle
had one. -/
def windowRange (i n : Nat) (consume : Bool) : ByteRange :=
  let start := (lines[i]?.getD ⟨0, 0⟩).start
  let stop := (lines[i + n - 1]?.getD ⟨0, 0⟩).stop
  ⟨start, if consume ∧ (dropBytes content stop).head? = some '\n' then stop + 1 else stop⟩

/-- The texts of the lines `i..i + n`. -/
def windowText (i n : Nat) : List (List Char) :=
  ((lines.drop i).take n).map (LineSpan.text content)

/-- All blocks of `n` lines that are `same` as the needle. -/
def scan (n : Nat) (consume : Bool) (same : List (List Char) → Bool) : List ByteRange :=
  if n = 0 ∨ lines.length < n then []
  else ((List.range (lines.length - n + 1)).filter (fun i => same (windowText content lines i n))).map
    (fun i => windowRange content lines i n consume)

/-- Two blocks of one length, line by line. -/
def pairwise (eq : List Char → List Char → Bool) (findLines window : List (List Char)) : Bool :=
  (window.zip findLines).all (fun (line, findLine) => eq line findLine)

def windowScan (find : List Char) (eq : List Char → List Char → Bool) : List ByteRange :=
  let (findLines, trailingNewline) := splitFind find
  scan content lines findLines.length trailingNewline (pairwise eq findLines)

def lineTrimmedMatches (find : List Char) : List ByteRange :=
  windowScan content lines find (fun a b => trim a == trim b)

def whitespaceNormalizedMatches (find : List Char) : List ByteRange :=
  windowScan content lines find (fun a b => foldWhitespace a == foldWhitespace b)

end Windows

/-! ### Indentation -/

def isBlank (line : List Char) : Bool :=
  (trim line).isEmpty

/-- `leading_ws_len`. -/
def leadingWsLen (line : List Char) : Nat :=
  utf8Length (line.takeWhile isWhitespace)

/-- Leading white space, up to so many bytes, is taken away. -/
def stripIndent : List Char → Nat → List Char
  | [], _ => []
  | ch :: rest, upto =>
      if isWhitespace ch = false ∨ upto < ch.utf8Size then ch :: rest
      else stripIndent rest (upto - ch.utf8Size)

def commonIndent (lines : List (List Char)) : Nat :=
  ((lines.filter (fun l => !isBlank l)).map leadingWsLen).min?.getD 0

/-- Two lines are blank or the same behind the indentation of their blocks. -/
def sameIndented (windowIndent findIndent : Nat) (line findLine : List Char) : Bool :=
  (isBlank findLine && isBlank line) || stripIndent line windowIndent == stripIndent findLine findIndent

/-- The lines of the needle that are compared, and whether a newline behind the block is part of it. -/
def flexibleFind (find : List Char) : List (List Char) × Bool :=
  let (allFindLines, trailingNewline) := splitFind find
  let front := allFindLines.dropWhile isBlank
  let findLines := front.rdropWhile isBlank
  (findLines, trailingNewline && findLines.length == front.length)

def indentationFlexibleMatches (content : List Char) (lines : List LineSpan) (find : List Char) :
    List ByteRange :=
  let (findLines, consume) := flexibleFind find
  scan content lines findLines.length consume (fun window =>
    pairwise (sameIndented (commonIndent window) (commonIndent findLines)) findLines window)

/-! ## The chain -/

section Chain

variable (blockAnchor : List Char → List LineSpan → List Char → List ByteRange)

def stageMatches (content find : List Char) : Stage → List ByteRange
  | .exact => exactMatches content find
  | .lineTrimmed => lineTrimmedMatches content (indexLines content) find
  | .whitespaceNormalized => whitespaceNormalizedMatches content (indexLines content) find
  | .indentationFlexible => indentationFlexibleMatches content (indexLines content) find
  | .escapeNormalized => escapeNormalizedMatches content find
  | .blockAnchor => blockAnchor content (indexLines content) find

def stages : List Stage :=
  [.exact, .lineTrimmed, .whitespaceNormalized, .indentationFlexible, .escapeNormalized, .blockAnchor]

/-- The first stage that matches decides. -/
def firstMatching (content find : List Char) : List Stage → ChainOutcome
  | [] => .noMatch
  | stage :: rest =>
      match stageMatches blockAnchor content find stage with
      | [] => firstMatching content find rest
      | [range] => .found range stage
      | ranges => .ambiguous ranges.length stage

def findReplacement (content find : List Char) : ChainOutcome :=
  if find.isEmpty then .noMatch else firstMatching blockAnchor content find stages

end Chain

end Octos.Tools.Replacer
