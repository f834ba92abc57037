/-
# `Octos.Bus.Coalesce` — splitting a message

`split_message` cuts a text into chunks that a channel takes.  Each round looks at the
window of the next `max_chars` bytes, for the last of

    "\n\n"     "\n"     ". " (behind the period)     " "     else the end of the window

A pattern at the very front of the window does not count.  What is in front of the
break is a chunk, less the white space at its end; what is behind it goes on, less
leading newlines and a single leading space.  After fifty chunks the rest becomes a
marker.

Nothing is lost but white space, and every chunk fits.  A chunk is empty when all in
front of the break is white space: a window may begin with a blank line, or two spaces.
-/
import Octos.Lib.Cut
import Octos.Lib.Lines

namespace Octos.Bus

open Octos.Text

/-- The text without its white space. -/
def visible (text : List Char) : List Char :=
  text.filter (fun ch => !isWhitespace ch)

/-! ## White space -/

section

variable {a b text pat before after : List Char} {maxChars n pos : Nat}

variable {rounds : Nat} {remaining : List Char}

end

/-! ## The whole text -/

end Octos.Bus
