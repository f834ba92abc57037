/-
# `Octos.Tools.DiffLines` — hunk bodies and where they match

What `apply_patch` and `diff_edit` share: the lines of a hunk, the block of the
file they replace, what they replace it with, and the comparison of a block with
the lines of a file, which does not look at white space at the end of a line.
-/
import Octos.Lib.Lines

namespace Octos.Tools

open Text

/-! ## Lines of a hunk -/

inductive DiffLine
  | context (text : List Char)
  | remove (text : List Char)
  | add (text : List Char)
  deriving DecidableEq

def DiffLine.old : DiffLine → Option (List Char)
  | .context text => some text
  | .remove text => some text
  | .add _ => none

def DiffLine.new : DiffLine → Option (List Char)
  | .context text => some text
  | .add text => some text
  | .remove _ => none

/-- A line as it stands in a patch. -/
def printLine : DiffLine → List Char
  | .add text => '+' :: text
  | .remove text => '-' :: text
  | .context text => ' ' :: text

/-- The block that has to stand in the file. -/
def patternLines (lines : List DiffLine) : List (List Char) :=
  lines.filterMap DiffLine.old

/-- The block that replaces it. -/
def replacementLines (lines : List DiffLine) : List (List Char) :=
  lines.filterMap DiffLine.new

/-! ## Matching -/

/-- A block of the file is a block of a hunk, up to white space at the ends of lines. -/
def SameBlock (block pattern : List (List Char)) : Prop :=
  block.map trimEnd = pattern.map trimEnd

theorem SameBlock.length {block pattern : List (List Char)} (h : SameBlock block pattern) :
    block.length = pattern.length := by
  simpa using congrArg List.length h

def matchesAt (lines pattern : List (List Char)) (start : Nat) : Bool :=
  decide (start + pattern.length ≤ lines.length) &&
    pattern.zipIdx.all (fun (p, i) => trimEnd (lines[start + i]?.getD []) == trimEnd p)

/-- `lines.splice(start..start + len, replacement)`. -/
def splice (lines : List (List Char)) (start len : Nat) (replacement : List (List Char)) :
    List (List Char) :=
  lines.take start ++ replacement ++ lines.drop (start + len)

variable {lines pattern : List (List Char)} {start : Nat}

theorem matchesAt_iff : matchesAt lines pattern start = true ↔
    start + pattern.length ≤ lines.length ∧
      SameBlock ((lines.drop start).take pattern.length) pattern := by
  rw [matchesAt, Bool.and_eq_true, decide_eq_true_eq]
  refine and_congr_right ?_
  intro hlen
  rw [List.all_eq_true, SameBlock]
  constructor
  · intro h
    refine List.ext_getElem (by simp; omega) ?_
    intro i hi _
    have hp : i < pattern.length := by
      rw [List.length_map, List.length_take] at hi
      omega
    have hpair := h (pattern[i], i) (List.mem_zipIdx_iff_getElem?.mpr (List.getElem?_eq_getElem hp))
    have hin : start + i < lines.length := by omega
    have hget : lines[start + i]? = some lines[start + i] := List.getElem?_eq_getElem hin
    simpa [hget] using hpair
  · rintro h ⟨p, i⟩ hmem
    have hp := List.mem_zipIdx_iff_getElem?.mp hmem
    obtain ⟨hi, hpi⟩ := List.getElem?_eq_some_iff.mp hp
    have hin : start + i < lines.length := by omega
    have hget : lines[start + i]? = some lines[start + i] := List.getElem?_eq_getElem hin
    have hith := congrArg (fun l => l[i]?) h
    simpa [hget, hi, hpi, hin] using hith

/-- A match cuts the lines in three. -/
theorem matchesAt_split (h : matchesAt lines pattern start = true) : ∃ before block after,
    lines = before ++ block ++ after ∧ before.length = start ∧ SameBlock block pattern := by
  obtain ⟨hlen, hblock⟩ := matchesAt_iff.mp h
  refine ⟨lines.take start, (lines.drop start).take pattern.length, lines.drop (start + pattern.length),
    ?_, by simp; omega, hblock⟩
  rw [List.append_assoc, ← List.drop_drop, List.take_append_drop, List.take_append_drop]

theorem splice_split {before block after replacement : List (List Char)}
    (hbefore : before.length = start) {len : Nat} (hlen : block.length = len) :
    splice (before ++ block ++ after) start len replacement = before ++ replacement ++ after := by
  subst hbefore hlen
  rw [splice, ← List.length_append, List.drop_left, List.append_assoc before block after, List.take_left]

end Octos.Tools
