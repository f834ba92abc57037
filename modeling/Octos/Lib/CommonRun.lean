/-
# `Octos.Lib.CommonRun` — the longest common run of two lists

A run is a contiguous part.  A common run ends somewhere in either list, and there it is
a common end of what comes before:

    a   x x A B C x
    b   y A B C y y y

so its length is that of a longest common end of two beginnings, and these grow by one
when both beginnings grow by the same element.
-/
import Mathlib

namespace Octos.CommonRun

variable {α : Type}

/-- The lengths of the common runs. -/
def CommonRuns (a b : List α) : Set Nat :=
  {n | ∃ w : List α, w.length = n ∧ w <:+: a ∧ w <:+: b}

theorem CommonRuns.comm (a b : List α) : CommonRuns a b = CommonRuns b a := by
  ext n
  constructor
  · rintro ⟨w, hlength, ha, hb⟩
    exact ⟨w, hlength, hb, ha⟩
  · rintro ⟨w, hlength, hb, ha⟩
    exact ⟨w, hlength, ha, hb⟩

variable [DecidableEq α]

/-- The length of the longest common beginning. -/
def commonPrefix : List α → List α → Nat
  | x :: a, y :: b => if x = y then commonPrefix a b + 1 else 0
  | _, _ => 0

/-- The length of the longest common end. -/
def commonSuffix (a b : List α) : Nat :=
  commonPrefix a.reverse b.reverse

variable {a b w : List α}

theorem commonPrefix_take (a : List α) : ∀ b : List α,
    (a.take (commonPrefix a b)).length = commonPrefix a b ∧ a.take (commonPrefix a b) <+: b := by
  induction a with
  | nil => exact fun b => ⟨rfl, List.nil_prefix⟩
  | cons x a ih =>
      intro b
      cases b with
      | nil => exact ⟨rfl, List.nil_prefix⟩
      | cons y b =>
          rw [commonPrefix]
          split
          · next heq =>
              obtain ⟨hlength, hprefix⟩ := ih b
              rw [List.take_succ_cons, List.length_cons, hlength, heq]
              exact ⟨rfl, List.cons_prefix_cons.mpr ⟨rfl, hprefix⟩⟩
          · exact ⟨rfl, List.nil_prefix⟩

theorem length_le_commonPrefix : ∀ {w a b : List α}, w <+: a → w <+: b → w.length ≤ commonPrefix a b := by
  intro w
  induction w with
  | nil => exact fun _ _ => Nat.zero_le _
  | cons x w ih =>
      intro a b ha hb
      obtain ⟨s, rfl⟩ := ha
      obtain ⟨t, rfl⟩ := hb
      rw [List.cons_append, List.cons_append, commonPrefix, if_pos rfl, List.length_cons]
      exact Nat.add_le_add_right (ih (List.prefix_append w s) (List.prefix_append w t)) 1

@[simp] theorem commonSuffix_nil (b : List α) : commonSuffix [] b = 0 := by
  rw [commonSuffix, List.reverse_nil]
  cases b.reverse <;> rfl

@[simp] theorem commonSuffix_nil_right (a : List α) : commonSuffix a [] = 0 := by
  rw [commonSuffix, List.reverse_nil]
  cases a.reverse <;> rfl

/-- **Both grow by one element.** -/
theorem commonSuffix_concat (x y : α) (a b : List α) :
    commonSuffix (a ++ [x]) (b ++ [y]) = if x = y then commonSuffix a b + 1 else 0 := by
  rw [commonSuffix, List.reverse_concat, List.reverse_concat, commonPrefix, commonSuffix]

/-- The longest common end is a common run of the wholes. -/
theorem commonSuffix_mem {s t : List α} (hs : s <+: a) (ht : t <+: b) : commonSuffix s t ∈ CommonRuns a b := by
  obtain ⟨hlength, hprefix⟩ := commonPrefix_take s.reverse t.reverse
  have hends : (s.reverse.take (commonPrefix s.reverse t.reverse)).reverse <:+ s := by
    rw [← List.reverse_prefix, List.reverse_reverse]
    exact List.take_prefix _ _
  have hendt : (s.reverse.take (commonPrefix s.reverse t.reverse)).reverse <:+ t := by
    rw [← List.reverse_prefix, List.reverse_reverse]
    exact hprefix
  refine ⟨_, ?_, hends.isInfix.trans hs.isInfix, hendt.isInfix.trans ht.isInfix⟩
  rw [List.length_reverse]
  exact hlength

/-- A common run is no longer than a longest common end somewhere. -/
theorem exists_commonSuffix (ha : w <:+: a) (hb : w <:+: b) :
    ∃ i j, i ≤ a.length ∧ j ≤ b.length ∧ w.length ≤ commonSuffix (a.take i) (b.take j) := by
  obtain ⟨s, t, rfl⟩ := ha
  obtain ⟨s', t', rfl⟩ := hb
  refine ⟨(s ++ w).length, (s' ++ w).length, by simp, by simp, ?_⟩
  rw [List.take_left, List.take_left, commonSuffix, ← List.length_reverse]
  refine length_le_commonPrefix ?_ ?_
  · rw [List.reverse_append]
    exact List.prefix_append _ _
  · rw [List.reverse_append]
    exact List.prefix_append _ _

end Octos.CommonRun
