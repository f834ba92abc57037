/-
# `Octos.Lib.Digits` — fixed-width decimal keys sort as numbers

A counter used as a key of an ordered text table is written in decimal, padded
with zeros to a fixed width.  For two such texts of equal length, lexicographic
order is the order of the numbers they denote.  The value of a digit list is
`Nat.ofDigitChars 10`.
-/
import Mathlib

namespace Octos.Digits

/-- The number a list of decimal digits denotes. -/
def value (l : List Char) : Nat := Nat.ofDigitChars 10 l 0

theorem value_cons (c : Char) (l : List Char) :
    value (c :: l) = 10 ^ l.length * (c.toNat - '0'.toNat) + value l := by
  unfold value
  rw [Nat.ofDigitChars_cons, Nat.ofDigitChars_eq_ofDigitChars_zero]
  simp

theorem isDigit_bounds {c : Char} (h : c.isDigit = true) : 48 ≤ c.toNat ∧ c.toNat ≤ 57 := by
  simp only [Char.isDigit, Bool.and_eq_true, decide_eq_true_eq] at h
  exact ⟨UInt32.le_iff_toNat_le.mp h.1, UInt32.le_iff_toNat_le.mp h.2⟩

/-- A list of `n` digits denotes less than `10 ^ n`. -/
theorem value_lt : ∀ {l : List Char}, (∀ c ∈ l, c.isDigit = true) → value l < 10 ^ l.length
  | [], _ => by simp [value]
  | c :: l, h => by
      have hc := isDigit_bounds (h c List.mem_cons_self)
      have ih := value_lt (fun d hd => h d (List.mem_cons_of_mem _ hd))
      have hd : c.toNat - '0'.toNat ≤ 9 := by
        have h0 : '0'.toNat = 48 := rfl
        omega
      rw [value_cons, List.length_cons, Nat.pow_succ]
      calc 10 ^ l.length * (c.toNat - '0'.toNat) + value l
          < 10 ^ l.length * (c.toNat - '0'.toNat) + 10 ^ l.length := by omega
        _ = 10 ^ l.length * ((c.toNat - '0'.toNat) + 1) := by ring
        _ ≤ 10 ^ l.length * 10 := Nat.mul_le_mul_left _ (by omega)

/-- **Lexicographic order is numeric order**, at equal width. -/
theorem value_lt_of_lt : ∀ {l m : List Char}, l.length = m.length →
    (∀ c ∈ l, c.isDigit = true) → (∀ c ∈ m, c.isDigit = true) → l < m → value l < value m
  | [], [], _, _, _, h => absurd h (by simp)
  | c :: l, d :: m, hlen, hl, hm, h => by
      have hlen' : l.length = m.length := by simpa using hlen
      have hl' := fun x hx => hl x (List.mem_cons_of_mem _ hx)
      have hm' := fun x hx => hm x (List.mem_cons_of_mem _ hx)
      rw [value_cons, value_cons, hlen']
      rcases List.cons_lt_cons_iff.mp h with hcd | ⟨rfl, hlt⟩
      · -- a smaller leading digit outweighs everything behind it
        have hc := isDigit_bounds (hl c List.mem_cons_self)
        have hd := isDigit_bounds (hm d List.mem_cons_self)
        have hval := value_lt hl'
        rw [hlen'] at hval
        have hlt : c.toNat - '0'.toNat + 1 ≤ d.toNat - '0'.toNat := by
          have h0 : '0'.toNat = 48 := rfl
          have hcd' : c.toNat < d.toNat := hcd
          omega
        calc 10 ^ m.length * (c.toNat - '0'.toNat) + value l
            < 10 ^ m.length * (c.toNat - '0'.toNat) + 10 ^ m.length := by omega
          _ = 10 ^ m.length * ((c.toNat - '0'.toNat) + 1) := by ring
          _ ≤ 10 ^ m.length * (d.toNat - '0'.toNat) := Nat.mul_le_mul_left _ hlt
          _ ≤ 10 ^ m.length * (d.toNat - '0'.toNat) + value m := Nat.le_add_right _ _
      · have ih := value_lt_of_lt hlen' hl' hm' hlt
        omega

/-- Decimal digits, padded with zeros to width `w`. -/
def pad (w n : Nat) : List Char :=
  List.replicate (w - (Nat.toDigits 10 n).length) '0' ++ Nat.toDigits 10 n

theorem value_pad (w n : Nat) : value (pad w n) = n := by
  unfold value pad
  rw [Nat.ofDigitChars_append, Nat.ofDigitChars_replicate_zero, Nat.mul_zero,
    Nat.ofDigitChars_ten_toDigits]

theorem isDigit_of_mem_pad {w n : Nat} {c : Char} (h : c ∈ pad w n) : c.isDigit = true := by
  rcases List.mem_append.mp h with h | h
  · rw [List.eq_of_mem_replicate h]
    decide
  · exact Nat.isDigit_of_mem_toDigits (by decide) (by decide) h

theorem length_pad {w n : Nat} (hw : 0 < w) (h : n < 10 ^ w) : (pad w n).length = w := by
  have hlen := (Nat.length_toDigits_le_iff (b := 10) (by decide) hw).mpr h
  rw [pad, List.length_append, List.length_replicate]
  omega

end Octos.Digits
