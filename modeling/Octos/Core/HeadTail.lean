/-
# `Octos.Core.HeadTail` — the middle of a text left out

`truncate_head_tail_report` of `utils.rs`.  A text that is too long keeps a head and a
tail, and between them says how much is missing:

    head

    ... [n bytes omitted] ...

    tail

The head takes a share of what the limit leaves for both.  The share is a float in the
source; here it is a function of the bytes to share out.
-/
import Octos.Lib.Slices

namespace Octos.Core

open Octos.Text

/-! ## The cut -/

/-- `TruncatedBy::Bytes` -/
inductive TruncatedBy
  | bytes
  deriving DecidableEq

/-- `TruncationReport`, without the ratio it repeats. -/
structure TruncationReport where
  content : List Char
  truncated : Bool
  truncatedBy : Option TruncatedBy
  totalBytes : Nat
  outputBytes : Nat
  omittedBytes : Nat
  maxLen : Nat
  deriving DecidableEq

/-- `sep_overhead` -/
def sepOverhead : Nat :=
  50

/-- What stands for the middle. -/
def marker (omitted : Nat) : List Char :=
  "\n\n... [".toList ++ decimal omitted ++ " bytes omitted] ...\n\n".toList

/-- The report on a text that passes whole. -/
def untruncated (text : List Char) (maxLen : Nat) : TruncationReport where
  content := text
  truncated := false
  truncatedBy := none
  totalBytes := utf8Length text
  outputBytes := utf8Length text
  omittedBytes := 0
  maxLen := maxLen

/-- `headShare available` is `(available as f32 * head_ratio) as usize`; `none` is the panic
of a cut inside a character. -/
def truncateHeadTailReport (text : List Char) (maxLen : Nat) (headShare : Nat → Nat) :
    Option TruncationReport :=
  if utf8Length text ≤ maxLen then some (untruncated text maxLen)
  else
    let available := maxLen - sepOverhead
    let headBudget := headShare available
    let tailBudget := available - headBudget
    let headEnd := floorBoundary text 0 (min headBudget (utf8Length text))
    let tailStart :=
      let start := utf8Length text - tailBudget
      ceilBoundary text (utf8Length text - start) start
    if tailStart ≤ headEnd then some (untruncated text maxLen)
    else do
      let front ← sliceTo text headEnd
      let back ← sliceFrom text tailStart
      let content := front ++ marker (tailStart - headEnd) ++ back
      return {
        content
        truncated := true
        truncatedBy := some .bytes
        totalBytes := utf8Length text
        outputBytes := utf8Length content
        omittedBytes := tailStart - headEnd
        maxLen }

/-! ## What it says is so -/

/-- The report of a text that passes whole. -/
structure Whole (text : List Char) (r : TruncationReport) : Prop where
  content : r.content = text
  truncated : r.truncated = false
  omitted : r.omittedBytes = 0

/-- The report of a text that is cut: the content is a beginning, the marker with the
number of bytes left out, and an end. -/
structure HeadAndTail (text : List Char) (maxLen : Nat) (r : TruncationReport) : Prop where
  truncated : r.truncated = true
  fits : utf8Length r.content ≤ maxLen
  omitted : 0 < r.omittedBytes
  parts : ∃ front middle back, text = front ++ middle ++ back ∧
    r.content = front ++ marker r.omittedBytes ++ back ∧
    utf8Length front + r.omittedBytes + utf8Length back = r.totalBytes
  total : r.totalBytes = utf8Length text
  output : r.outputBytes = utf8Length r.content

theorem utf8Length_marker (n : Nat) : utf8Length (marker n) = 7 + (decimal n).length + 21 := by
  have hsplit : utf8Length (marker n) = utf8Length "\n\n... [".toList + utf8Length (decimal n) +
      utf8Length " bytes omitted] ...\n\n".toList :=
    (utf8Length_append _ _).trans (congrArg (· + _) (utf8Length_append _ _))
  rw [hsplit, utf8Length_decimal n]
  rfl

/-- The marker fits in what is set aside for it, whatever number of bytes a text can have. -/
theorem utf8Length_marker_le {n : Nat} (h : n < 2 ^ 64) : utf8Length (marker n) ≤ sepOverhead := by
  have hten : n < 10 ^ 20 := by omega
  have hdigits : (decimal n).length ≤ 20 := length_decimal_le (Nat.succ_pos 19) hten
  rw [utf8Length_marker]
  show 7 + (decimal n).length + 21 ≤ 50
  omega

variable {text : List Char} {maxLen : Nat} {headShare : Nat → Nat}

/-- The two cuts of a text that is too long: both at boundaries, the first before the
second, and what they keep within the two budgets. -/
theorem cuts_spec {available headBudget : Nat} (hshare : headBudget ≤ available)
    (hlong : available < utf8Length text) :
    ∃ front middle back, text = front ++ middle ++ back ∧
      floorBoundary text 0 (min headBudget (utf8Length text)) = utf8Length front ∧
      ceilBoundary text (utf8Length text - (utf8Length text - (available - headBudget)))
        (utf8Length text - (available - headBudget)) = utf8Length (front ++ middle) ∧
      0 < utf8Length middle ∧ utf8Length front + utf8Length back ≤ available := by
  obtain ⟨-, hhead, -, -⟩ :=
    floorBoundary_spec text (Nat.zero_le (min headBudget (utf8Length text)))
  obtain ⟨htail, htailBoundary⟩ :=
    ceilBoundary_spec text (Nat.sub_le (utf8Length text) (available - headBudget)) (Nat.le_refl _)
  obtain ⟨front, rest, hfront, hfrontLength⟩ := isCharBoundary_iff.mp
    (isCharBoundary_floor text (min headBudget (utf8Length text)))
  obtain ⟨before, back, hback, hbackLength⟩ := isCharBoundary_iff.mp htailBoundary
  rw [← hfrontLength] at hhead
  rw [← hbackLength] at htail
  -- the head ends before the tail starts, so the text before the tail begins with the head
  have hlt : utf8Length front < utf8Length before := by omega
  have hbegins : front <+: before := by
    rcases List.prefix_or_prefix_of_prefix (show front <+: text from ⟨rest, hfront.symm⟩)
      (show before <+: text from ⟨back, hback.symm⟩) with h | h
    · exact h
    · obtain ⟨more, rfl⟩ := h
      rw [utf8Length_append] at hlt
      omega
  obtain ⟨middle, rfl⟩ := hbegins
  have htotal : utf8Length text = utf8Length front + utf8Length middle + utf8Length back := by
    rw [hback, utf8Length_append, utf8Length_append]
  rw [utf8Length_append] at hlt htail
  exact ⟨front, middle, back, hback, hfrontLength.symm, hbackLength.symm, by omega, by omega⟩

/-- A text that is too long is cut in two. -/
theorem truncate_long (hmax : sepOverhead ≤ maxLen)
    (hshare : headShare (maxLen - sepOverhead) ≤ maxLen - sepOverhead)
    (hsize : utf8Length text < 2 ^ 64) (hlong : maxLen < utf8Length text) :
    ∃ r, truncateHeadTailReport text maxLen headShare = some r ∧ HeadAndTail text maxLen r := by
  obtain ⟨front, middle, back, htext, hhead, htail, hpos, hkept⟩ :=
    cuts_spec hshare (show maxLen - sepOverhead < utf8Length text by omega)
  have hafter : utf8Length (front ++ middle) - utf8Length front = utf8Length middle := by
    rw [utf8Length_append, Nat.add_sub_cancel_left]
  have hfront : sliceTo text (utf8Length front) = some front := by
    rw [htext, List.append_assoc, sliceTo_append]
  have hback : sliceFrom text (utf8Length (front ++ middle)) = some back := by
    rw [htext, sliceFrom_append]
  have htotal : utf8Length text = utf8Length front + utf8Length middle + utf8Length back := by
    rw [htext, utf8Length_append, utf8Length_append]
  have hmarker : utf8Length (marker (utf8Length middle)) ≤ sepOverhead :=
    utf8Length_marker_le (by omega)
  have hapart : ¬ utf8Length (front ++ middle) ≤ utf8Length front := by
    rw [utf8Length_append]
    omega
  rw [truncateHeadTailReport, if_neg (Nat.not_le.mpr hlong)]
  simp only [hhead, htail, if_neg hapart, hfront, hback, hafter]
  refine ⟨_, rfl, rfl, ?_, hpos, ⟨front, middle, back, htext, rfl, htotal.symm⟩, rfl, rfl⟩
  show utf8Length (front ++ marker (utf8Length middle) ++ back) ≤ maxLen
  rw [utf8Length_append, utf8Length_append]
  omega

/-- **Head and tail truncation says what it did.**  A text passes whole exactly when it
fits; otherwise what comes out fits, and is the head, the marker with the number of
bytes left out, and the tail. -/
theorem truncateHeadTailReport_honest (text : List Char) (maxLen : Nat) (headShare : Nat → Nat)
    (hmax : 50 ≤ maxLen) (hshare : 10 * headShare (maxLen - 50) ≤ 9 * (maxLen - 50))
    (hsize : utf8Length text < 2 ^ 64) :
    ∃ r, truncateHeadTailReport text maxLen headShare = some r ∧
      (Whole text r ∨ HeadAndTail text maxLen r) ∧ (Whole text r ↔ utf8Length text ≤ maxLen) := by
  by_cases hfits : utf8Length text ≤ maxLen
  · refine ⟨untruncated text maxLen, ?_, .inl ⟨rfl, rfl, rfl⟩, fun _ => hfits, fun _ => ⟨rfl, rfl, rfl⟩⟩
    rw [truncateHeadTailReport, if_pos hfits]
  · have hle : headShare (maxLen - sepOverhead) ≤ maxLen - sepOverhead := by
      rw [sepOverhead]
      omega
    obtain ⟨r, hr, hparts⟩ := truncate_long hmax hle hsize (Nat.lt_of_not_le hfits)
    refine ⟨r, hr, .inr hparts, ?_, fun h => absurd h hfits⟩
    intro hwhole
    exact absurd (hparts.truncated.symm.trans hwhole.truncated) Bool.noConfusion

/-- Forty characters of four bytes, where both budgets end inside one. -/
def crabs : List Char :=
  List.replicate 40 '🦀'

theorem truncateHeadTailReport_honest_crabs :
    ∃ r, truncateHeadTailReport crabs 101 (fun available => 7 * available / 10) = some r ∧
      (Whole crabs r ∨ HeadAndTail crabs 101 r) ∧ (Whole crabs r ↔ utf8Length crabs ≤ 101) :=
  truncateHeadTailReport_honest crabs 101 _ (by decide) (by decide) (by decide)

end Octos.Core
