/-
# `Octos.Tools.DiffText` — a unified diff reads back

A diff is a preamble, in which no line starts with `@@`, and then the hunks,
each a header and its lines:

    @@ -start[,count] +rest
    one line for each line of the hunk, behind ' ', '-' or '+'

Only the start is read off a header, so the count and everything behind the
plus sign are arbitrary.
-/
import Octos.Tools.DiffEdit

namespace Octos.Tools.DiffEdit

open Text

/-! ## The text of a diff -/

variable {word text rest : List Char}

theorem hunkLine_printLine (l : DiffLine) : hunkLine (printLine l) = some l := by
  cases l with
  | context text => rfl
  | remove text => rfl
  | add text => rfl

end Octos.Tools.DiffEdit
