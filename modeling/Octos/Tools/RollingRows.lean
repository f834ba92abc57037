/-
# `Octos.Tools.RollingRows` — two tables of which two rows are kept

`levenshtein` of the replacer and `lcs_substring_len` of the pending notes fill a table
row by row, and keep the row before and the row at hand, which change places:

    prev   done up to the last character of `a` seen so far
    curr   done up to the last character of `b` seen in this pass; stale behind it

A row has one cell more than there are characters, and its indices are bounded by type.
-/
import Octos.Lib.EditDistance
import Octos.Lib.CommonRun

namespace Octos.Tools

open Octos.Edit Octos.CommonRun

/-- A row over so many characters. -/
abbrev DpRow (n : Nat) := Fin (n + 1) → Nat

/-! ## `levenshtein` -/

/-- The inner loop. -/
def levenshteinRow (ca : Char) (b : List Char) (prev curr : DpRow b.length) : DpRow b.length :=
  Fin.foldl b.length (fun curr j =>
    let cost := if ca = b.get j then 0 else 1
    Function.update curr j.succ (min (min (prev j.succ + 1) (curr j.castSucc + 1)) (prev j.castSucc + cost))) curr

/-- One pass of the outer loop; the rows change places. -/
def levenshteinPass (a b : List Char) (rows : DpRow b.length × DpRow b.length) (i : Fin a.length) :
    DpRow b.length × DpRow b.length :=
  let curr := Function.update rows.2 0 (i.val + 1)
  (levenshteinRow (a.get i) b rows.1 curr, rows.1)

/-- `levenshtein` -/
def levenshtein (a b : List Char) : Nat :=
  if a.isEmpty then b.length
  else if b.isEmpty then a.length
  else (Fin.foldl a.length (levenshteinPass a b) (fun j => j.val, fun _ => 0)).1 (Fin.last b.length)

/-! ## `lcs_substring_len` -/

/-- The inner loop, with the best cell so far. -/
def lcsRow (lc : Char) (short : List Char) (prev : DpRow short.length) (out : DpRow short.length × Nat) :
    DpRow short.length × Nat :=
  Fin.foldl short.length (fun out j =>
    let cell := if lc = short.get j then prev j.castSucc + 1 else 0
    (Function.update out.1 j.succ cell, max out.2 cell)) out

/-- The two rows and the best cell. -/
structure LcsState (n : Nat) where
  prev : DpRow n
  cur : DpRow n
  best : Nat

def lcsPass (long short : List Char) (st : LcsState short.length) (i : Fin long.length) : LcsState short.length :=
  let out := lcsRow (long.get i) short st.prev (st.cur, st.best)
  ⟨out.1, st.prev, out.2⟩

/-- The loops of `lcs_substring_len`. -/
def lcsLoop (long short : List Char) : Nat :=
  (Fin.foldl long.length (lcsPass long short) ⟨fun _ => 0, fun _ => 0, 0⟩).best

/-- `lcs_substring_len` -/
def lcsSubstringLen (a b : List Char) : Nat :=
  if a.isEmpty || b.isEmpty then 0
  else if a.length ≤ b.length then lcsLoop b a
  else lcsLoop a b

/-! ## Loops -/

/-- What holds at the start of a loop and is kept by every pass holds at its end. -/
theorem foldl_keeps {σ : Type} : ∀ {n : Nat} {f : σ → Fin n → σ} {s : σ} (P : Nat → σ → Prop), P 0 s →
    (∀ (j : Fin n) s, P j.val s → P (j.val + 1) (f s j)) → P n (Fin.foldl n f s) := by
  intro n
  induction n with
  | zero =>
      intro f s P hstart _
      rw [Fin.foldl_zero]
      exact hstart
  | succ n ih =>
      intro f s P hstart hkeep
      rw [Fin.foldl_succ_last]
      exact hkeep (Fin.last n) _ (ih P hstart (fun j s => hkeep j.castSucc s))

/-- One character more. -/
theorem take_get {l : List Char} (i : Fin l.length) : l.take (i.val + 1) = l.take i.val ++ [l.get i] := by
  rw [List.take_add_one, List.getElem?_eq_getElem i.isLt]
  rfl

/-! ## The edit distance -/

section Levenshtein

variable {a b : List Char}

/-- A row of the table of distances. -/
def distanceRow (s b : List Char) : DpRow b.length :=
  fun j => editDistance s (b.take j.val)

/-- **A row** is that of one character more. -/
theorem levenshteinRow_eq {s : List Char} {ca : Char} {curr : DpRow b.length} (hfirst : curr 0 = s.length + 1) :
    levenshteinRow ca b (distanceRow s b) curr = distanceRow (s ++ [ca]) b := by
  have hdone := @foldl_keeps (DpRow b.length) b.length
    (fun curr j => Function.update curr j.succ (min (min (distanceRow s b j.succ + 1) (curr j.castSucc + 1))
      (distanceRow s b j.castSucc + if ca = b.get j then 0 else 1))) curr
    (fun k row => ∀ j : Fin (b.length + 1), j.val ≤ k → row j = distanceRow (s ++ [ca]) b j) ?_ ?_
  · funext j
    exact hdone j (Nat.le_of_lt_succ j.isLt)
  · intro j hj
    obtain rfl : j = 0 := Fin.ext (Nat.le_zero.mp hj)
    rw [hfirst, distanceRow]
    simp
  · intro j row hrow k hk
    by_cases heq : k = j.succ
    · -- the cell that is filled
      have hleft := hrow j.castSucc (Nat.le_refl _)
      rw [heq, Function.update_self, hleft]
      simp only [distanceRow, Fin.val_succ, Fin.val_castSucc, take_get]
      rw [editDistance_concat]
    · rw [Function.update_of_ne heq]
      refine hrow k ?_
      have hne : k.val ≠ j.val + 1 := fun h => heq (Fin.ext h)
      omega

/-- **`levenshtein`** is the edit distance. -/
theorem levenshtein_eq (a b : List Char) : levenshtein a b = editDistance a b := by
  rw [levenshtein]
  split
  · next ha => rw [List.isEmpty_iff.mp ha, editDistance_nil]
  · split
    · next hb => rw [List.isEmpty_iff.mp hb, editDistance_nil_right]
    · have hrows := @foldl_keeps _ a.length (levenshteinPass a b) (fun j => j.val, fun _ => 0)
        (fun i rows => rows.1 = distanceRow (a.take i) b) ?_ ?_
      · rw [hrows, distanceRow, Fin.val_last, List.take_length, List.take_length]
      · funext j
        have hj : j.val ≤ b.length := Nat.le_of_lt_succ j.isLt
        show j.val = editDistance (a.take 0) (b.take j.val)
        rw [List.take_zero, editDistance_nil, List.length_take, Nat.min_eq_left hj]
      · intro i rows hrow
        rw [levenshteinPass, hrow, take_get]
        refine levenshteinRow_eq ?_
        rw [Function.update_self, List.length_take, Nat.min_eq_left i.isLt.le]

end Levenshtein

/-! ## The longest common run -/

section Lcs

variable {long short : List Char}

/-- A row of the table of common ends. -/
def suffixRow (s short : List Char) : DpRow short.length :=
  fun j => commonSuffix s (short.take j.val)

/-- The best of the first rows, and of the first cells of the next. -/
structure Best (long short : List Char) (i k best : Nat) : Prop where
  run : best ∈ CommonRuns long short
  rows : ∀ i' ≤ i, ∀ j, commonSuffix (long.take i') (short.take j) ≤ best
  cells : ∀ j ≤ k, commonSuffix (long.take (i + 1)) (short.take j) ≤ best

/-- **A row**, and the best cell up to its end. -/
theorem lcsRow_eq {i : Fin long.length} {cur : DpRow short.length} {best : Nat} (hfirst : cur 0 = 0)
    (hbest : Best long short i.val 0 best) :
    (lcsRow (long.get i) short (suffixRow (long.take i.val) short) (cur, best)).1 =
        suffixRow (long.take (i.val + 1)) short ∧
      Best long short i.val short.length
        (lcsRow (long.get i) short (suffixRow (long.take i.val) short) (cur, best)).2 := by
  have hdone := @foldl_keeps (DpRow short.length × Nat) short.length
    (fun out j =>
      let cell := if long.get i = short.get j then suffixRow (long.take i.val) short j.castSucc + 1 else 0
      (Function.update out.1 j.succ cell, max out.2 cell)) (cur, best)
    (fun k out => (∀ j : Fin (short.length + 1), j.val ≤ k → out.1 j = suffixRow (long.take (i.val + 1)) short j) ∧
      Best long short i.val k out.2) ?_ ?_
  · refine ⟨?_, hdone.2⟩
    funext j
    exact hdone.1 j (Nat.le_of_lt_succ j.isLt)
  · refine ⟨?_, hbest⟩
    intro j hj
    obtain rfl : j = 0 := Fin.ext (Nat.le_zero.mp hj)
    show cur 0 = _
    rw [hfirst, suffixRow]
    simp
  · rintro j out ⟨hrow, hbest⟩
    have hcell : (if long.get i = short.get j then suffixRow (long.take i.val) short j.castSucc + 1 else 0) =
        commonSuffix (long.take (i.val + 1)) (short.take (j.val + 1)) := by
      rw [take_get, take_get, commonSuffix_concat, suffixRow]
      rfl
    dsimp only
    rw [hcell]
    refine ⟨?_, ?_, ?_, ?_⟩
    · intro k hk
      by_cases heq : k = j.succ
      · rw [heq, Function.update_self]
        rfl
      · rw [Function.update_of_ne heq]
        refine hrow k ?_
        have hne : k.val ≠ j.val + 1 := fun h => heq (Fin.ext h)
        omega
    · rcases max_choice out.2 (commonSuffix (long.take (i.val + 1)) (short.take (j.val + 1))) with h | h
      · rw [h]
        exact hbest.run
      · rw [h]
        exact commonSuffix_mem (List.take_prefix _ _) (List.take_prefix _ _)
    · exact fun i' hi' k => (hbest.rows i' hi' k).trans (Nat.le_max_left _ _)
    · intro k hk
      rcases Nat.le_succ_iff.mp hk with hk | rfl
      · exact (hbest.cells k hk).trans (Nat.le_max_left _ _)
      · exact Nat.le_max_right _ _

/-- Behind the end of a list there is nothing more. -/
theorem take_of_cells {i best : Nat} (h : Best long short i short.length best) (j : Nat) :
    commonSuffix (long.take (i + 1)) (short.take j) ≤ best := by
  by_cases hj : j ≤ short.length
  · exact h.cells j hj
  · have hall := h.cells short.length (Nat.le_refl _)
    rw [List.take_length] at hall
    rw [List.take_of_length_le (Nat.le_of_not_le hj)]
    exact hall

/-- What the loops know after so many passes. -/
structure LcsState.Holds (st : LcsState short.length) (long : List Char) (i : Nat) : Prop where
  prev : st.prev = suffixRow (long.take i) short
  first : st.cur 0 = 0
  best : Best long short i 0 st.best

theorem lcsPass_holds {st : LcsState short.length} {i : Fin long.length} (h : st.Holds long i.val) :
    (lcsPass long short st i).Holds long (i.val + 1) := by
  obtain ⟨hrow, hbest⟩ := lcsRow_eq h.first h.best
  rw [lcsPass, h.prev]
  refine ⟨hrow, ?_, hbest.run, ?_, ?_⟩
  · show suffixRow (long.take i.val) short 0 = 0
    rw [suffixRow]
    simp
  · intro i' hi' j
    rcases Nat.le_succ_iff.mp hi' with hi' | rfl
    · exact hbest.rows i' hi' j
    · exact take_of_cells hbest j
  · intro j hj
    rw [Nat.le_zero.mp hj, List.take_zero, commonSuffix_nil_right]
    exact Nat.zero_le _

theorem lcsLoop_greatest (long short : List Char) : IsGreatest (CommonRuns long short) (lcsLoop long short) := by
  have hdone := @foldl_keeps _ long.length (lcsPass long short) ⟨fun _ => 0, fun _ => 0, 0⟩
    (fun i st => st.Holds long i) ?_ (fun i st => lcsPass_holds)
  · refine ⟨hdone.best.run, ?_⟩
    rintro n ⟨w, rfl, hlong, hshort⟩
    obtain ⟨i, j, hi, -, hlength⟩ := exists_commonSuffix hlong hshort
    exact hlength.trans (hdone.best.rows i hi j)
  · refine ⟨?_, rfl, ⟨[], rfl, List.nil_infix, List.nil_infix⟩, ?_, ?_⟩
    · funext j
      rw [suffixRow, List.take_zero, commonSuffix_nil]
    · intro i' hi' j
      rw [Nat.le_zero.mp hi', List.take_zero, commonSuffix_nil]
    · intro j hj
      rw [Nat.le_zero.mp hj, List.take_zero, commonSuffix_nil_right]

/-- **`lcs_substring_len`** is the greatest length of a common run. -/
theorem lcsSubstringLen_greatest (a b : List Char) : IsGreatest (CommonRuns a b) (lcsSubstringLen a b) := by
  rw [lcsSubstringLen]
  split
  · next hempty =>
      refine ⟨⟨[], rfl, List.nil_infix, List.nil_infix⟩, ?_⟩
      rintro n ⟨w, rfl, ha, hb⟩
      rcases Bool.or_eq_true _ _ ▸ hempty with h | h
      · rw [List.isEmpty_iff.mp h, List.infix_nil] at ha
        rw [ha]
        exact Nat.le_refl 0
      · rw [List.isEmpty_iff.mp h, List.infix_nil] at hb
        rw [hb]
        exact Nat.le_refl 0
  · split
    · rw [CommonRuns.comm]
      exact lcsLoop_greatest b a
    · exact lcsLoop_greatest a b

end Lcs

/-- **Both tables** compute what they are for: the edit distance, which is symmetric and
has the triangle inequality, and the greatest length of a common run, which is symmetric. -/
theorem rolling_rows (a b : List Char) :
    levenshtein a b = editDistance a b ∧ IsGreatest (CommonRuns a b) (lcsSubstringLen a b) ∧
      levenshtein a b = levenshtein b a ∧ lcsSubstringLen a b = lcsSubstringLen b a ∧
        ∀ c, levenshtein a c ≤ levenshtein a b + levenshtein b c := by
  refine ⟨levenshtein_eq a b, lcsSubstringLen_greatest a b, ?_, ?_, ?_⟩
  · rw [levenshtein_eq, levenshtein_eq, editDistance_comm]
  · have hback := lcsSubstringLen_greatest b a
    rw [CommonRuns.comm] at hback
    exact (lcsSubstringLen_greatest a b).unique hback
  · intro c
    rw [levenshtein_eq, levenshtein_eq, levenshtein_eq]
    exact editDistance_triangle a b c

example : levenshtein "tea".toList "eat".toList = 2 ∧ lcsSubstringLen "tea".toList "eat".toList = 2 := by decide

end Octos.Tools
