/-
# `Octos.Llm.Tokens` — the estimate of tokens

`estimate_tokens` of `context.rs`: four ASCII characters are a token, and three other
characters are two; every text has at least one.

    text            ascii / 4 + ⌊2/3 · others⌋, at least 1
    beginning       at most the whole
    text ++ ascii   at most both and one more

The quotient of the others is that of integers here.
-/
import Octos.Agent.MessageRepair

namespace Octos.Llm

open Octos.Agent (Message)

def isAscii (ch : Char) : Bool :=
  decide (ch.toNat < 128)

def asciiChars (text : List Char) : Nat :=
  text.countP isAscii

def estimateTokens (text : List Char) : Nat :=
  max (asciiChars text / 4 + 2 * (text.length - asciiChars text) / 3) 1

variable {a b : List Char}

theorem estimateTokens_pos (text : List Char) : 1 ≤ estimateTokens text :=
  Nat.le_max_right _ _

theorem asciiChars_append (a b : List Char) : asciiChars (a ++ b) = asciiChars a + asciiChars b :=
  List.countP_append

theorem asciiChars_le (text : List Char) : asciiChars text ≤ text.length :=
  List.countP_le_length

/-- A beginning has no more tokens. -/
theorem estimateTokens_mono (h : a <+: b) : estimateTokens a ≤ estimateTokens b := by
  obtain ⟨rest, rfl⟩ := h
  have ha := asciiChars_le a
  have hrest := asciiChars_le rest
  rw [estimateTokens, estimateTokens, asciiChars_append, List.length_append]
  omega

/-- ASCII at the end is charged for, but for one token. -/
theorem estimateTokens_append_ascii (h : asciiChars b = b.length) :
    estimateTokens (a ++ b) ≤ estimateTokens a + estimateTokens b + 1 := by
  have ha := asciiChars_le a
  rw [estimateTokens, estimateTokens, estimateTokens, asciiChars_append, List.length_append, h]
  omega

end Octos.Llm
