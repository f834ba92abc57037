/-
# `Octos.Lib.Slices` — cutting a text at a byte offset

A text may be cut only where a character starts or at its end; anywhere else, and
behind the end, the cut panics.  An offset that is not known to be a boundary is moved
to one first, down or up:

    a    é    é    b
    0 1     3     5 6        floor 4 = 3,  ceil 4 = 5
-/
import Octos.Lib.Occurrences

namespace Octos.Text

variable {text a b : List Char} {n : Nat}

/-! ## Boundaries -/

/-- A boundary is where the text falls in two. -/
theorem isCharBoundary_iff : ∀ {text : List Char} {n : Nat}, isCharBoundary text n = true ↔
    ∃ a b, text = a ++ b ∧ utf8Length a = n := by
  intro text n
  constructor
  · induction text generalizing n with
    | nil =>
        intro h
        cases n with
        | zero => exact ⟨[], [], rfl, rfl⟩
        | succ n => cases h
    | cons ch text ih =>
        intro h
        cases n with
        | zero => exact ⟨[], ch :: text, rfl, rfl⟩
        | succ n =>
            simp only [isCharBoundary, Bool.and_eq_true, decide_eq_true_eq] at h
            obtain ⟨a, b, rfl, ha⟩ := ih h.2
            refine ⟨ch :: a, b, rfl, ?_⟩
            rw [utf8Length_cons, ha]
            omega
  · rintro ⟨a, b, rfl, rfl⟩
    exact isCharBoundary_append a b

theorem isCharBoundary_zero (text : List Char) : isCharBoundary text 0 = true :=
  isCharBoundary_iff.mpr ⟨[], text, rfl, rfl⟩

theorem isCharBoundary_length (text : List Char) : isCharBoundary text (utf8Length text) = true :=
  isCharBoundary_iff.mpr ⟨text, [], (List.append_nil text).symm, rfl⟩

theorem le_of_isCharBoundary (h : isCharBoundary text n = true) : n ≤ utf8Length text := by
  obtain ⟨a, b, rfl, rfl⟩ := isCharBoundary_iff.mp h
  rw [utf8Length_append]
  exact Nat.le_add_right _ _

/-- Of two beginnings the one with fewer bytes is a beginning of the other. -/
theorem prefix_of_utf8Length_le (ha : a <+: text) (hb : b <+: text)
    (hle : utf8Length a ≤ utf8Length b) : a <+: b := by
  rcases List.prefix_or_prefix_of_prefix ha hb with h | h
  · exact h
  · obtain ⟨more, rfl⟩ := h
    cases more with
    | nil => rw [List.append_nil]
    | cons ch more =>
        have hpos := ch.utf8Size_pos
        rw [utf8Length_append, utf8Length_cons] at hle
        omega

/-! ## ASCII -/

theorem utf8Size_of_ascii {ch : Char} (h : ch.toNat < 128) : ch.utf8Size = 1 := by
  have hle : ch.val ≤ 0x7F := by
    rw [UInt32.le_iff_toNat_le]
    exact Nat.le_of_lt_succ h
  exact if_pos hle

/-- A character of ASCII is a byte. -/
theorem utf8Length_of_ascii (h : ∀ ch ∈ text, ch.toNat < 128) : utf8Length text = text.length := by
  induction text with
  | nil => rfl
  | cons ch text ih =>
      rw [utf8Length_cons, utf8Size_of_ascii (h ch List.mem_cons_self), List.length_cons,
        ih (fun c hc => h c (List.mem_cons_of_mem _ hc)), Nat.add_comm]

/-- A number has as many bytes as digits. -/
theorem utf8Length_decimal (n : Nat) : utf8Length (decimal n) = (decimal n).length := by
  refine utf8Length_of_ascii ?_
  intro ch hch
  have hdigit := isDigit_of_mem_decimal hch
  simp only [Char.isDigit, Bool.and_eq_true, decide_eq_true_eq, UInt32.le_iff_toNat_le] at hdigit
  have hhigh : ch.toNat ≤ 57 := hdigit.2
  omega

theorem length_decimal_le {k : Nat} (hk : 0 < k) (h : n < 10 ^ k) : (decimal n).length ≤ k :=
  (Nat.length_toDigits_le_iff (by decide) hk).mpr h

/-! ## Cuts -/

/-- `&text[..n]`; `none` is the panic. -/
def sliceTo (text : List Char) (n : Nat) : Option (List Char) :=
  if isCharBoundary text n then some (takeBytes text n) else none

/-- `&text[n..]`; `none` is the panic. -/
def sliceFrom (text : List Char) (n : Nat) : Option (List Char) :=
  if isCharBoundary text n then some (dropBytes text n) else none

theorem sliceTo_append (a b : List Char) : sliceTo (a ++ b) (utf8Length a) = some a := by
  rw [sliceTo, if_pos (isCharBoundary_append a b), takeBytes_append]

theorem sliceFrom_append (a b : List Char) : sliceFrom (a ++ b) (utf8Length a) = some b := by
  rw [sliceFrom, if_pos (isCharBoundary_append a b), dropBytes_append]

/-! ## The nearest boundary -/

/-- `while n > low && !text.is_char_boundary(n) { n -= 1 }` -/
def floorBoundary (text : List Char) (low : Nat) : Nat → Nat
  | 0 => 0
  | n + 1 => if low < n + 1 ∧ isCharBoundary text (n + 1) = false then floorBoundary text low n else n + 1

/-- `while n < text.len() && !text.is_char_boundary(n) { n += 1 }`; the first argument
bounds the rounds. -/
def ceilBoundary (text : List Char) : Nat → Nat → Nat
  | 0, n => n
  | rounds + 1, n =>
      if n < utf8Length text ∧ isCharBoundary text n = false then ceilBoundary text rounds (n + 1) else n

/-- Moving down stops at a boundary, or at the bound; what it passes is none. -/
theorem floorBoundary_spec (text : List Char) {low : Nat} : ∀ {n : Nat}, low ≤ n →
    low ≤ floorBoundary text low n ∧ floorBoundary text low n ≤ n ∧
      (floorBoundary text low n = low ∨ isCharBoundary text (floorBoundary text low n) = true) ∧
        ∀ m, floorBoundary text low n < m → m ≤ n → isCharBoundary text m = false := by
  intro n
  induction n with
  | zero =>
      intro hlow
      refine ⟨hlow, Nat.le_refl _, .inr (isCharBoundary_zero text), ?_⟩
      intro m hlt hle
      exact absurd (Nat.lt_of_lt_of_le hlt hle) (Nat.lt_irrefl _)
  | succ n ih =>
      intro hlow
      rw [floorBoundary]
      split
      · next hmove =>
          obtain ⟨hge, hle, hstop, hnone⟩ := ih (Nat.le_of_lt_succ hmove.1)
          refine ⟨hge, Nat.le_succ_of_le hle, hstop, ?_⟩
          intro m hlt hm
          rcases Nat.lt_or_eq_of_le hm with hm | rfl
          · exact hnone m hlt (Nat.le_of_lt_succ hm)
          · exact hmove.2
      · next hstay =>
          refine ⟨hlow, Nat.le_refl _, ?_, ?_⟩
          · rcases Nat.lt_or_eq_of_le hlow with hlt | rfl
            · right
              cases hb : isCharBoundary text (n + 1) with
              | true => rfl
              | false => exact absurd ⟨hlt, hb⟩ hstay
            · exact .inl rfl
          · intro m hlt hle
            exact absurd (Nat.lt_of_lt_of_le hlt hle) (Nat.lt_irrefl _)

theorem isCharBoundary_floor (text : List Char) (n : Nat) :
    isCharBoundary text (floorBoundary text 0 n) = true := by
  obtain ⟨-, -, hstop | hstop, -⟩ := floorBoundary_spec text (Nat.zero_le n)
  · rw [hstop]
    exact isCharBoundary_zero text
  · exact hstop

/-- Moving up stops at a boundary: at the end of the text at the latest. -/
theorem ceilBoundary_spec (text : List Char) : ∀ {rounds n : Nat}, n ≤ utf8Length text → utf8Length text - n ≤ rounds →
    n ≤ ceilBoundary text rounds n ∧ isCharBoundary text (ceilBoundary text rounds n) = true := by
  intro rounds
  induction rounds with
  | zero =>
      intro n hle hrounds
      have hend : n = utf8Length text := by omega
      refine ⟨Nat.le_refl _, ?_⟩
      show isCharBoundary text n = true
      rw [hend]
      exact isCharBoundary_length text
  | succ rounds ih =>
      intro n hle hrounds
      rw [ceilBoundary]
      split
      · next hmove =>
          obtain ⟨hge, hstop⟩ := @ih (n + 1) hmove.1 (by omega)
          exact ⟨by omega, hstop⟩
      · next hstay =>
          refine ⟨Nat.le_refl _, ?_⟩
          rcases Nat.lt_or_eq_of_le hle with hlt | rfl
          · cases hb : isCharBoundary text n with
            | true => rfl
            | false => exact absurd ⟨hlt, hb⟩ hstay
          · exact isCharBoundary_length text

end Octos.Text
