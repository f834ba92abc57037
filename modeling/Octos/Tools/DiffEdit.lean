/-
# `Octos.Tools.DiffEdit` — unified diffs, applied from the bottom up

`parse_unified_diff` and `apply_hunks` of `diff_edit.rs`.  The line number of a
hunk is what the header says, any 64-bit number.  The hunks are sorted by it,
the highest first; two neighbours must not overlap as declared; then each block
is looked for at its declared place and, failing that, around it:

    0, -1, +1, -2, +2, -3, +3

in the lines as the hunks below have left them.  Every sum, difference, cast and
index is an operation that may not fit (`Overflow`).
-/
import Octos.Tools.DiffLines
import Octos.Lib.LineEnds
import Octos.Lib.Overflow

namespace Octos.Tools.DiffEdit

open Text

structure Hunk where
  oldStart : Usize
  lines : List DiffLine
  deriving DecidableEq

def Hunk.pattern (hunk : Hunk) : List (List Char) :=
  patternLines hunk.lines

/-- The declared place, counted from 0. -/
def Hunk.target (hunk : Hunk) : Nat :=
  hunk.oldStart.val - 1

inductive DiffError
  | badHeader (line : List Char)
  | badNumber (line : List Char)
  | noHunks
  | overlapping (earlier later : Nat)
  | noPattern (hunkNo : Nat)
  | notFound (lineNo : Nat) (expected : List (List Char))
  deriving DecidableEq

/-! ## Parsing -/

def parseUsize (text : List Char) : Option Usize :=
  match h : parseUnsigned (2 ^ 64) text with
  | some n => some ⟨n, parseUnsigned_lt h⟩
  | none => none

/-- `@@ -old_start[,old_count] +new_start[,new_count] @@`. -/
def parseHunkHeader (line : List Char) : Except DiffError Usize :=
  match splitWhitespace line with
  | _ :: oldPart :: _ :: _ =>
      match parseUsize (((oldPart.dropWhile (· == '-')).splitOn ',').headD "1".toList) with
      | some start => .ok start
      | none => .error (.badNumber line)
  | _ => .error (.badHeader line)

/-- A line of a hunk; `none` for a file header. -/
def hunkLine (line : List Char) : Option DiffLine :=
  match line with
  | '-' :: rest => some (.remove rest)
  | '+' :: rest => some (.add rest)
  | ' ' :: rest => some (.context rest)
  | _ =>
      if "---".toList <+: line ∨ "+++".toList <+: line ∨ "diff ".toList <+: line ∨
          "index ".toList <+: line then none
      else some (.context line)

structure Parsing where
  hunks : List Hunk := []
  current : Option Hunk := none

def parseLine (st : Parsing) (line : List Char) : Except DiffError Parsing :=
  if "@@".toList <+: line then do
    let oldStart ← parseHunkHeader line
    return ⟨st.hunks ++ st.current.toList, some ⟨oldStart, []⟩⟩
  else
    match st.current with
    | some hunk => .ok { st with current := some ⟨hunk.oldStart, hunk.lines ++ (hunkLine line).toList⟩ }
    | none => .ok st

def parseFrom : List (List Char) → Parsing → Except DiffError (List Hunk)
  | [], st => .ok (st.hunks ++ st.current.toList)
  | line :: rest, st => do
      let st ← parseLine st line
      parseFrom rest st

def parseUnifiedDiff (diff : List Char) : Except DiffError (List Hunk) :=
  parseFrom (lines diff) {}

/-! ## Matching -/

section Matching

variable (o : Overflow) (lines pattern : List (List Char))

/-- The rows of a pattern from index `i` on. -/
def rowsMatch (start : Nat) : List (List Char) → Nat → Outcome DiffError Bool
  | [], _ => .ok true
  | row :: rest, i => do
      let j ← o.add start i
      let line ← Overflow.index lines j
      if trimEnd line == trimEnd row then rowsMatch start rest (i + 1) else .ok false

def matchesAt (start : Nat) : Outcome DiffError Bool := do
  let stop ← o.add start pattern.length
  if lines.length < stop then .ok false else rowsMatch o lines start pattern 0

/-- `inside && matches_at(..)`. -/
def matchesInside (inside : Bool) (start : Nat) : Outcome DiffError Bool :=
  if inside then matchesAt o lines pattern start else .ok false

/-- The search around the declared place. -/
def fuzzySearch (target : Nat) : List Nat → Outcome DiffError Nat
  | [] => do
      let lineNo ← o.add target 1
      .error (.fails (.notFound lineNo (pattern.take 3)))
  | offset :: rest => do
      let signed ← o.asSigned target
      let above ← o.signed (signed - offset)
      let below ← o.signed (signed + offset)
      let up ← matchesInside o lines pattern (decide (0 ≤ above)) above.toNat
      if up then .ok above.toNat
      else do
        let place ← o.asUsize below
        let down ← matchesInside o lines pattern (decide (place < lines.length)) place
        if down then .ok place else fuzzySearch target rest

/-- `1..=FUZZY_RANGE`. -/
def fuzzyRange : List Nat := [1, 2, 3]

def findMatch (target : Nat) : Outcome DiffError Nat := do
  if ← matchesAt o lines pattern target then .ok target
  else fuzzySearch o lines pattern target fuzzyRange

end Matching

/-! ## Applying -/

/-- The hunks with their numbers, the highest line first. -/
def sortedHunks (hunks : List Hunk) : List (Hunk × Nat) :=
  hunks.zipIdx.insertionSort (fun a b => b.1.oldStart ≤ a.1.oldStart)

/-- `Vec::splice`. -/
def spliceRange (lines : List (List Char)) (start stop : Nat) (replacement : List (List Char)) :
    Outcome DiffError (List (List Char)) :=
  if start ≤ stop ∧ stop ≤ lines.length then .ok (splice lines start (stop - start) replacement)
  else .error .panic

section Applying

variable (o : Overflow)

/-- No two neighbours overlap as declared. -/
def checkOverlaps : List (Hunk × Nat) → Outcome DiffError Unit
  | later :: earlier :: rest => do
      let earlierEnd ← o.add earlier.1.oldStart earlier.1.pattern.length
      if later.1.oldStart < earlierEnd then
        .error (.fails (.overlapping earlier.1.oldStart later.1.oldStart))
      else checkOverlaps (earlier :: rest)
  | _ => .ok ()

def applyHunk (hunk : Hunk) (idx : Nat) (lines : List (List Char)) :
    Outcome DiffError (List (List Char)) :=
  if hunk.pattern.isEmpty then .error (.fails (.noPattern (idx + 1)))
  else do
    let pos ← findMatch o lines hunk.pattern hunk.target
    let stop ← o.add pos hunk.pattern.length
    spliceRange lines pos (min stop lines.length) (replacementLines hunk.lines)

def applyFrom : List (Hunk × Nat) → List (List Char) → Outcome DiffError (List (List Char))
  | [], lines => .ok lines
  | (hunk, idx) :: rest, lines => do
      let lines ← applyHunk o hunk idx lines
      applyFrom rest lines

def applyHunks (content : List Char) (hunks : List Hunk) : Outcome DiffError (List Char) := do
  checkOverlaps o (sortedHunks hunks)
  let rows ← applyFrom o (sortedHunks hunks) (lines content)
  return unlines rows ++ finalNewline content

/-- What `diff_edit` writes back. -/
def diffEdit (content diff : List Char) : Outcome DiffError (List Char) := do
  let hunks ← liftError (parseUnifiedDiff diff)
  if hunks.isEmpty then .error (.fails .noHunks) else applyHunks o content hunks

end Applying

/-! ## Every build -/

theorem alike_rowsMatch {lines : List (List Char)} {start : Nat} : ∀ (pattern : List (List Char)) (i : Nat),
    Alike (fun o => rowsMatch o lines start pattern i) := by
  intro pattern
  induction pattern with
  | nil => exact fun i => alike_const _
  | cons row rest ih =>
      intro i
      refine Alike.bind (alike_add start i) ?_
      intro j
      refine Alike.bind (alike_const _) ?_
      intro line
      exact Alike.ite (ih (i + 1)) (alike_const _)

theorem alike_matchesAt (lines pattern : List (List Char)) (start : Nat) :
    Alike (fun o => matchesAt o lines pattern start) := by
  refine Alike.bind (alike_add _ _) ?_
  intro stop
  exact Alike.ite (alike_const _) (alike_rowsMatch pattern 0)

theorem alike_matchesInside (lines pattern : List (List Char)) (inside : Bool) (start : Nat) :
    Alike (fun o => matchesInside o lines pattern inside start) :=
  Alike.ite (alike_matchesAt _ _ _) (alike_const _)

theorem alike_fuzzySearch {lines pattern : List (List Char)} {target : Nat} : ∀ offsets : List Nat,
    Alike (fun o => fuzzySearch o lines pattern target offsets) := by
  intro offsets
  induction offsets with
  | nil => exact Alike.bind (alike_add _ _) (fun _ => alike_const _)
  | cons offset rest ih =>
      refine Alike.bind (alike_asSigned _) ?_
      intro signed
      refine Alike.bind (alike_signed _) ?_
      intro above
      refine Alike.bind (alike_signed _) ?_
      intro below
      refine Alike.bind (alike_matchesInside _ _ _ _) ?_
      intro up
      refine Alike.ite (alike_const _) (Alike.bind (alike_asUsize _) ?_)
      intro place
      refine Alike.bind (alike_matchesInside _ _ _ _) ?_
      intro down
      exact Alike.ite (alike_const _) ih

theorem alike_findMatch (lines pattern : List (List Char)) (target : Nat) :
    Alike (fun o => findMatch o lines pattern target) := by
  refine Alike.bind (alike_matchesAt _ _ _) ?_
  intro found
  exact Alike.ite (alike_const _) (alike_fuzzySearch _)

theorem alike_checkOverlaps : ∀ sorted : List (Hunk × Nat), Alike (fun o => checkOverlaps o sorted)
  | [] => alike_const _
  | [_] => alike_const _
  | _ :: earlier :: rest =>
      Alike.bind (alike_add _ _) (fun _ => Alike.ite (alike_const _) (alike_checkOverlaps (earlier :: rest)))

theorem alike_applyFrom : ∀ (sorted : List (Hunk × Nat)) (lines : List (List Char)),
    Alike (fun o => applyFrom o sorted lines)
  | [], _ => alike_const _
  | _ :: rest, _ =>
      Alike.bind
        (Alike.ite (alike_const _) (Alike.bind (alike_findMatch _ _ _) (fun _ =>
          Alike.bind (alike_add _ _) (fun _ => alike_const _))))
        (fun lines => alike_applyFrom rest lines)

/-- **Where the strict run does not stop**, every build does the same. -/
theorem alike_diffEdit (content diff : List Char) : Alike (fun o => diffEdit o content diff) := by
  refine Alike.bind (alike_const _) ?_
  intro hunks
  refine Alike.ite (alike_const _) ?_
  refine Alike.bind (alike_checkOverlaps _) ?_
  intro _
  exact Alike.bind (alike_applyFrom _ _) (fun _ => alike_const _)

/-! ## Comparisons that fit -/

variable {o : Overflow} {ls pattern : List (List Char)} {start : Nat}

theorem index_eq {i : Nat} (h : i < ls.length) :
    (Overflow.index ls i : Outcome DiffError (List Char)) = .ok ls[i] := by
  rw [Overflow.index, List.getElem?_eq_getElem h]

/-- Inside the lines the loop compares the block with the rest of the pattern. -/
theorem rowsMatch_fits : ∀ {rest : List (List Char)} {i : Nat}, start + i + rest.length ≤ ls.length →
    start + i + rest.length < 2 ^ 64 → ∃ r, rowsMatch o ls start rest i = .ok r ∧
      (r = true ↔ SameBlock ((ls.drop (start + i)).take rest.length) rest) := by
  intro rest
  induction rest with
  | nil => exact fun _ _ => ⟨true, rfl, by simp [SameBlock]⟩
  | cons row rest ih =>
      intro i hlen hfit
      rw [List.length_cons] at hlen hfit
      have hin : start + i < ls.length := by omega
      obtain ⟨r, hrun, hr⟩ := @ih (i + 1) (by omega) (by omega)
      have hblock : (ls.drop (start + i)).take (row :: rest).length =
          ls[start + i] :: (ls.drop (start + (i + 1))).take rest.length := by
        rw [List.drop_eq_getElem_cons hin, List.length_cons, List.take_succ_cons, Nat.add_assoc]
      rw [rowsMatch, add_fits (by omega), ok_bind, index_eq hin, ok_bind, hblock, SameBlock,
        List.map_cons, List.map_cons, List.cons.injEq]
      by_cases hrow : trimEnd ls[start + i] = trimEnd row
      · rw [if_pos (by simpa using hrow)]
        exact ⟨r, hrun, by rw [hr, SameBlock]; simp [hrow]⟩
      · rw [if_neg (by simpa using hrow)]
        exact ⟨false, rfl, by simp [hrow]⟩

/-- **A comparison whose end fits** is the comparison of the block. -/
theorem matchesAt_fits (hfit : start + pattern.length < 2 ^ 64) :
    matchesAt o ls pattern start = .ok (Tools.matchesAt ls pattern start) := by
  rw [matchesAt, add_fits hfit, ok_bind]
  by_cases hlen : start + pattern.length ≤ ls.length
  · rw [if_neg (by omega)]
    obtain ⟨r, hrun, hr⟩ := @rowsMatch_fits o ls start pattern 0 (by omega) (by omega)
    rw [hrun]
    congr 1
    rw [Bool.eq_iff_iff, hr, matchesAt_iff]
    exact (and_iff_right hlen).symm
  · rw [if_pos (by omega)]
    congr 1
    rw [eq_comm, Bool.eq_false_iff]
    intro hmatch
    exact hlen (matchesAt_iff.mp hmatch).1

theorem matchesAt_out (hout : ls.length ≤ start) (hne : pattern ≠ []) :
    Tools.matchesAt ls pattern start = false := by
  rw [Bool.eq_false_iff]
  intro hmatch
  have hlen := (matchesAt_iff.mp hmatch).1
  have hpos := List.length_pos_iff.mpr hne
  omega

end Octos.Tools.DiffEdit
