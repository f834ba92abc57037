/-
# `Octos.Memory.OpsAuthority` — what an accepted merge may do

The gates of `validate`, read as permissions.  `Permitted` is what one accepted
operation is backed by; `WithinAuthority` collects what holds of the whole
merge: one operation for each entry, nothing but adds in an INIT run, at most
half of the entries removed, and every staged note and item accounted for.

The add-back guard is different.  It compares lines with its own way of removing
bookkeeping (`stripFold`), which leaves `(imported: …)` stamps in; the scrubs of
a hard delete use `content_folded_lines`, which does not.  A deleted line that
comes back with such a stamp passes the guard.  Where the guard sees every line
the scrub would see, no deleted line comes back.
-/
import Octos.Memory.Ops

namespace Octos.Memory

open Text

/-! ## Permissions -/

/-- The entry an operation is about. -/
def Op.target : Op → Option String
  | .add .. => none
  | .update id _ _ => some id
  | .supersede id _ _ _ => some id
  | .archive id _ _ => some id
  | .hardDelete id _ => some id

/-- The operation takes an entry out of memory. -/
def Op.removes (id : String) : Op → Bool
  | .add .. => false
  | .update .. => false
  | .supersede target replacement _ _ => target == id && replacement.isNone
  | .archive target _ _ => target == id
  | .hardDelete target _ => target == id

end Octos.Memory
