/-
# `Octos.Bus.PromptPreview` — the newest prompt of a session

`last_user_prompt_from_file` previews the newest user message for a listing.  It reads
the last 256 KiB first, from the next line on, and the whole file only when that gives
nothing:

    no "rollback" in the text    the lines, newest first, up to a user row with a text
    "rollback" in the text       the rows are folded, and the newest user message counts

What it should say is the newest user message with a text in the fold of the whole file.
The first branch skips messages without a text, the second does not; and a marker in the
tail counts the turns of the tail alone.

Reading a line is left to two functions, one for control records and one for messages.
-/
import Octos.Bus.TranscriptCut
import Octos.Lib.Cut
import Octos.Lib.Json
import Octos.Lib.Lines

namespace Octos.Bus.Transcript

open Octos.Text

section

variable (json : JsonText) (rows : RowText)

/-- The text from an offset on; a character that lies across it is not in it. -/
def dropBytes : Nat → List Char → List Char
  | 0, text => text
  | _ + 1, [] => []
  | n + 1, ch :: text => dropBytes (n + 1 - ch.utf8Size) text

end

/-! ## What a transcript shows -/

section

variable {json : JsonText} {rows : RowText} {ms : List Message} {content line : List Char}

end

/-! ## A session that was rewound -/

end Octos.Bus.Transcript
