/-
# `Octos.Memory.Ops` — the gates on a proposed merge

`ops.rs`: a parsed model output against the context of the run.  `validate` goes
through the operations one by one, then applies the entry-loss guard, the
add-back guard and the check that every staged note and item is accounted for.
The first gate that refuses rejects the whole merge with its message.

Dates are numbers of days.  The date parser and the content guard are arguments
of the context: a text that the guard names a threat in is refused.
-/
import Octos.Memory.Entry
import Octos.Lib.Result
import Octos.Lib.Checked

namespace Octos.Memory

open Text

/-! ## Operations -/

/-- `Op`: what the model proposes. -/
inductive Op where
  | add (section_ : Option String) (text : List Char) (sources : List String)
  | update (id : String) (newText : List Char) (sources : List String)
  | supersede (id : String) (replacement : Option (List Char)) (reason : String)
      (sources : List String)
  | archive (id : String) (reason : String) (sources : List String)
  | hardDelete (id : String) (authorizedBy : String)
  deriving DecidableEq

/-- `Dropped`. -/
structure Dropped where
  id : String
  reason : String
  deriving DecidableEq

/-- `CheckedOp`. -/
inductive CheckedOp where
  | add (text : List Char) (unverified : Bool)
  | update (id : String) (newText : List Char)
  | supersede (id : String) (replacement : Option (List Char)) (reason : String)
  | archive (id : String) (reason : String)
  | hardDelete (id : String) (authorizedBy : String)
  deriving DecidableEq

/-- The sources an operation cites. -/
def Op.sources : Op → List String
  | .add _ _ sources => sources
  | .update _ _ sources => sources
  | .supersede _ _ _ sources => sources
  | .archive _ _ sources => sources
  | .hardDelete _ _ => []

/-- `ValidationCtx`. -/
structure ValidationCtx where
  entries : List Entry
  interim : Table String (List Char)
  frozen : List String
  notes : Table String NoteFile
  items : Table String ExtractionItem
  usage : Table String UsageStat
  initMode : Bool
  today : Int
  unusedDays : U32
  /-- `NaiveDate::parse_from_str(_, "%Y-%m-%d")` -/
  parseDate : List Char → Option Int
  /-- `guard::first_threat` -/
  firstThreat : List Char → Option String

namespace ValidationCtx

variable (ctx : ValidationCtx)

/-- `entry`. -/
def entry (id : String) : Option Entry :=
  ctx.entries.find? (fun e => e.id == id)

end ValidationCtx

/-! ## One operation -/

/-- `sanitize_text`. -/
def sanitizeText (ctx : ValidationCtx) (kind : String) (text : List Char) :
    Except String (List Char) :=
  let kept := ((lines text).map trimEnd).filter (fun line => !(trim line).isEmpty)
  if kept.isEmpty then .error (kind ++ " text is empty")
  else
    match ctx.firstThreat text with
    | some threat =>
        .error (kind ++ " text rejected by the memory content guard (" ++ threat
          ++ "); drop this content or restate it as a plain fact")
    | none => .ok (unlines kept)

/-- The text an operation writes. -/
def CheckedOp.newText : CheckedOp → Option (List Char)
  | .add text _ => some text
  | .update _ newText => some newText
  | .supersede _ replacement _ => replacement
  | .archive _ _ => none
  | .hardDelete _ _ => none

end Octos.Memory
