/-
# `Octos.Memory.Entry` — memory entries and the notes about them

`entry.rs`, and the parts of `pending.rs` and `staging.rs` that read text: an
entry is a block of lines whose last one ends with the entry's id, `^m` and six
characters of base 32.  The engine's own marks in the text are bookkeeping: ids,
`(updated: …)` and `(imported: …)` stamps, and `(unverified)`.

Two functions remove bookkeeping.  `stripBookkeeping` is the one the scrubs of a
hard delete compare with; `strippableEntryText` is the one a note is matched
against, and it knows neither `(imported: …)` nor other entries' ids.
-/
import Octos.Lib.Lines
import Octos.Lib.Table

namespace Octos.Memory

open Text

/-! ## Entries -/

/-- `Entry`. -/
structure Entry where
  id : String
  text : List Char
  deriving DecidableEq

/-- A character of an id. -/
def isIdChar (ch : Char) : Bool :=
  ch.isLower || ('2' ≤ ch && ch ≤ '7')

/-- `is_id_token`. -/
def isIdToken (token : List Char) : Bool :=
  match token with
  | '^' :: 'm' :: rest => rest.length == 6 && rest.all isIdChar
  | _ => false

/-- An id token starts here. -/
def startsIdToken (text : List Char) : Bool :=
  decide (8 ≤ text.length) && isIdToken (text.take 8)

/-- Without id tokens; `skip` is what is left of the one being removed. -/
def stripIdTokensFrom : Nat → List Char → List Char
  | _, [] => []
  | skip + 1, _ :: text => stripIdTokensFrom skip text
  | 0, ch :: text =>
      if startsIdToken (ch :: text) then stripIdTokensFrom 7 text
      else ch :: stripIdTokensFrom 0 text

/-- `strip_all_id_tokens`: every `^m` with six id characters behind it goes. -/
def stripAllIdTokens (text : List Char) : List Char :=
  stripIdTokensFrom 0 text

/-- `strip_bookkeeping`. -/
def stripBookkeeping (text : List Char) : List Char :=
  removeAll "(unverified)".toList
    (removeGroups "(imported:".toList (removeGroups "(updated:".toList (stripAllIdTokens text)))

/-- The folded lines of a text that are not empty. -/
def foldedLines (text : List Char) : List (List Char) :=
  ((lines text).map foldWhitespace).filter (fun line => !line.isEmpty)

/-- `content_folded_lines`. -/
def contentFoldedLines (text : List Char) : List (List Char) :=
  foldedLines (stripBookkeeping text)

/-- `strippable_entry_text`. -/
def strippableEntryText (entry : Entry) : List Char :=
  let text := match breakOnLast entry.id.toList entry.text with
    | some (before, after) => before ++ after
    | none => entry.text
  removeAll "(unverified)".toList (removeGroups "(updated:".toList text)

/-- `NoteOrigin`. -/
inductive NoteOrigin where
  | model
  | host
  deriving DecidableEq

/-- `NoteKind`. -/
inductive NoteKind where
  | userRequest
  | correction
  | fact
  | forget
  deriving DecidableEq

/-- The fields of a `NoteFile` a merge is judged by. -/
structure NoteFile where
  origin : NoteOrigin
  kind : NoteKind
  content : List Char
  deriving DecidableEq

/-- `EvidenceKind`. -/
inductive EvidenceKind where
  | userSaid
  | toolShowed
  | assistantClaimed
  deriving DecidableEq

/-- The field of an `ExtractionItem` a merge is judged by. -/
structure ExtractionItem where
  evidenceKind : EvidenceKind
  deriving DecidableEq

/-- `UsageStat`. -/
structure UsageStat where
  count : Nat
  lastUsed : List Char
  deriving DecidableEq

end Octos.Memory
