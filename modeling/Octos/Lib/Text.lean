/-
# `Octos.Lib.Text` — text as lists of characters

The parts of a string library that parsers of small formats lean on, for text
as a list of characters: white space and trimming, lists written with a
separator, unsigned decimal numbers, and the length in UTF-8.

What is trimmed already stays as it is, a list of entries without the separator
is read back from the text that joins them, and a number is read back from its
digits.
-/
import Mathlib

namespace Octos

namespace Text

/-! ## White space -/

/-- The characters with the Unicode property `White_Space`. -/
def isWhitespace (ch : Char) : Bool :=
  let n := ch.toNat
  (decide (9 ≤ n) && decide (n ≤ 13)) || n == 0x20 || n == 0x85 || n == 0xA0 || n == 0x1680 ||
    (decide (0x2000 ≤ n) && decide (n ≤ 0x200A)) || n == 0x2028 || n == 0x2029 || n == 0x202F ||
    n == 0x205F || n == 0x3000

def trim (text : List Char) : List Char :=
  (text.dropWhile isWhitespace).rdropWhile isWhitespace

/-- No white space at either end. -/
def Trimmed (text : List Char) : Prop :=
  trim text = text

instance (text : List Char) : Decidable (Trimmed text) :=
  inferInstanceAs (Decidable (trim text = text))

theorem trimmed_iff {text : List Char} : Trimmed text ↔
    ∀ hne : text ≠ [], isWhitespace (text.head hne) = false ∧
      isWhitespace (text.getLast hne) = false := by
  rw [Trimmed, trim]
  constructor
  · intro h hne
    have hleft : text.dropWhile isWhitespace = text := by
      refine (List.dropWhile_suffix isWhitespace).eq_of_length_le ?_
      conv => lhs; rw [← h]
      exact (List.rdropWhile_prefix _ _).length_le
    rw [hleft, List.rdropWhile_eq_self_iff] at h
    refine ⟨?_, by simpa using h hne⟩
    cases text with
    | nil => exact absurd rfl hne
    | cons ch text =>
        by_contra hws
        rw [List.head_cons, Bool.not_eq_false] at hws
        rw [List.dropWhile_cons_of_pos hws] at hleft
        have := (List.dropWhile_suffix (l := text) isWhitespace).length_le
        rw [hleft, List.length_cons] at this
        omega
  · intro h
    have hleft : text.dropWhile isWhitespace = text := by
      cases text with
      | nil => rfl
      | cons ch text => exact List.dropWhile_cons_of_neg (by simpa using (h (by simp)).1)
    rw [hleft, List.rdropWhile_eq_self_iff]
    intro hne
    simpa using (h hne).2

theorem trimmed_of_all {text : List Char} (h : ∀ ch ∈ text, isWhitespace ch = false) :
    Trimmed text :=
  trimmed_iff.mpr (fun hne => ⟨h _ (List.head_mem hne), h _ (List.getLast_mem hne)⟩)

theorem trimmed_trim (text : List Char) : Trimmed (trim text) := by
  refine trimmed_iff.mpr ?_
  intro hne
  have hlast : ¬ isWhitespace ((trim text).getLast hne) = true :=
    List.rdropWhile_last_not isWhitespace _ hne
  refine ⟨?_, Bool.eq_false_iff.mpr hlast⟩
  obtain ⟨tail, htail⟩ := List.rdropWhile_prefix isWhitespace (text.dropWhile isWhitespace)
  have hdrop : text.dropWhile isWhitespace ≠ [] := by
    rw [← htail]
    exact List.append_ne_nil_of_left_ne_nil hne _
  have hhead : (trim text).head hne = (text.dropWhile isWhitespace).head hdrop := by
    have happend : (trim text ++ tail).head (List.append_ne_nil_of_left_ne_nil hne tail) =
        (trim text).head hne := List.head_append_of_ne_nil hne
    rw [← happend]
    congr 1
  rw [hhead]
  simpa using List.head_dropWhile_not isWhitespace hdrop

/-! ## Separated lists -/

/-- The entries of a list written with a separator: trimmed, without the empty
ones. -/
def entries (sep : Char) (text : List Char) : List (List Char) :=
  ((text.splitOn sep).map trim).filter (fun part => !part.isEmpty)

/-- An entry that is read back as it is. -/
structure Entry (sep : Char) (part : List Char) : Prop where
  nonempty : part ≠ []
  trimmed : Trimmed part
  plain : sep ∉ part

theorem intercalate_ne_nil {sep : Char} {part : List Char} {parts : List (List Char)}
    (h : part ≠ []) : [sep].intercalate (part :: parts) ≠ [] := by
  cases parts with
  | nil => simpa using h
  | cons other parts => simp

/-- Text between trimmed ends is trimmed. -/
theorem Trimmed.around {a mid b : List Char} (ha : Trimmed a) (hb : Trimmed b) (hane : a ≠ [])
    (hbne : b ≠ []) : Trimmed (a ++ mid ++ b) := by
  refine trimmed_iff.mpr ?_
  intro hne
  rw [List.getLast_append_of_ne_nil _ hbne]
  refine ⟨?_, (trimmed_iff.mp hb hbne).2⟩
  have hhead : (a ++ mid ++ b).head hne = a.head hane := by
    cases a with
    | nil => exact absurd rfl hane
    | cons ch a => rfl
  rw [hhead]
  exact (trimmed_iff.mp ha hane).1

theorem notMem_of_mem_splitOn {sep : Char} : ∀ {text part : List Char},
    part ∈ text.splitOn sep → sep ∉ part := by
  intro text
  induction text with
  | nil =>
      intro part h
      obtain rfl := List.mem_singleton.mp h
      exact List.not_mem_nil
  | cons ch text ih =>
      intro part h
      rw [List.splitOn, List.splitOnP_cons_eq_if_modifyHead] at h
      split at h
      · rcases List.mem_cons.mp h with rfl | h
        · exact List.not_mem_nil
        · exact ih h
      · next hch =>
          cases hsplit : text.splitOnP (· == sep) with
          | nil => exact absurd hsplit (List.splitOnP_ne_nil _ _)
          | cons first parts =>
              rw [hsplit, List.modifyHead_cons] at h
              have hparts : ∀ part ∈ first :: parts, sep ∉ part := by
                intro part hpart
                refine ih ?_
                rw [List.splitOn, hsplit]
                exact hpart
              rcases List.mem_cons.mp h with rfl | h
              · rw [List.mem_cons, not_or]
                exact ⟨fun heq => hch (beq_iff_eq.mpr heq.symm), hparts first List.mem_cons_self⟩
              · exact hparts part (List.mem_cons_of_mem _ h)

theorem entry_of_mem_entries {sep : Char} {text part : List Char} (h : part ∈ entries sep text) :
    Entry sep part := by
  obtain ⟨hmap, hne⟩ := List.mem_filter.mp h
  obtain ⟨raw, hraw, rfl⟩ := List.mem_map.mp hmap
  refine ⟨by simpa using hne, trimmed_trim raw, ?_⟩
  intro hsep
  have hsub : sep ∈ raw :=
    (List.dropWhile_sublist _).subset ((List.rdropWhile_prefix _ _).subset hsep)
  exact notMem_of_mem_splitOn hraw hsub

/-- Joined parts are the entries, but for the empty ones. -/
theorem entries_joined {sep : Char} {parts : List (List Char)}
    (h : ∀ part ∈ parts, Trimmed part ∧ sep ∉ part) :
    entries sep ([sep].intercalate parts) = parts.filter (fun part => !part.isEmpty) := by
  rw [entries]
  by_cases hnil : parts = []
  · subst hnil
    rfl
  · rw [List.splitOn_intercalate sep (fun part hpart => (h part hpart).2) hnil]
    have hmap : parts.map trim = parts := by
      conv => rhs; rw [← List.map_id parts]
      refine List.map_congr_left ?_
      intro part hpart
      exact (h part hpart).1
    rw [hmap]

theorem filter_entries {sep : Char} {parts : List (List Char)} (h : ∀ part ∈ parts, Entry sep part) :
    parts.filter (fun part => !part.isEmpty) = parts := by
  rw [List.filter_eq_self]
  intro part hpart
  simpa using (h part hpart).nonempty

theorem entries_intercalate {sep : Char} {parts : List (List Char)}
    (h : ∀ part ∈ parts, Entry sep part) :
    entries sep ([sep].intercalate parts) = parts := by
  rw [entries_joined (fun part hpart => ⟨(h part hpart).trimmed, (h part hpart).plain⟩)]
  exact filter_entries h

/-- Entries that each end with the separator: an empty one comes last. -/
theorem entries_closed {sep : Char} {parts : List (List Char)} (h : ∀ part ∈ parts, Entry sep part) :
    entries sep ([sep].intercalate (parts ++ [[]])) = parts := by
  rw [entries_joined, List.filter_append, filter_entries h]
  · exact List.append_nil parts
  · intro part hpart
    rcases List.mem_append.mp hpart with hmem | hnil
    · exact ⟨(h part hmem).trimmed, (h part hmem).plain⟩
    · obtain rfl := List.mem_singleton.mp hnil
      exact ⟨rfl, List.not_mem_nil⟩

theorem intercalate_closed {sep : Char} (parts : List (List Char)) :
    [sep].intercalate (parts ++ [[]]) = parts.flatMap (fun part => part ++ [sep]) := by
  induction parts with
  | nil => rfl
  | cons part parts ih =>
      rw [List.flatMap_cons, ← ih, List.cons_append, List.intercalate_cons_of_ne_nil (by simp),
        List.append_assoc]

/-! ## Numbers -/

/-- An unsigned number below the bound; one plus sign may lead. -/
def parseUnsigned (bound : Nat) (text : List Char) : Option Nat :=
  let digits := if text.head? = some '+' then text.tail else text
  if digits = [] ∨ ¬ digits.all Char.isDigit then none
  else if Nat.ofDigitChars 10 digits 0 < bound then some (Nat.ofDigitChars 10 digits 0)
  else none

/-- A number in decimal. -/
def decimal (n : Nat) : List Char :=
  Nat.toDigits 10 n

theorem isDigit_of_mem_decimal {n : Nat} {ch : Char} (h : ch ∈ decimal n) : ch.isDigit = true :=
  Nat.isDigit_of_mem_toDigits (by decide) (by decide) h

theorem decimal_ne_nil (n : Nat) : decimal n ≠ [] := by
  have := @Nat.length_toDigits_pos 10 n
  exact List.ne_nil_of_length_pos this

theorem parseUnsigned_decimal {bound n : Nat} (h : n < bound) :
    parseUnsigned bound (decimal n) = some n := by
  have hplus : (decimal n).head? ≠ some '+' := by
    intro hhead
    have hdigit := isDigit_of_mem_decimal (List.mem_of_mem_head? hhead)
    exact absurd hdigit (by decide)
  have hall : (decimal n).all Char.isDigit = true :=
    List.all_eq_true.mpr (fun ch hch => isDigit_of_mem_decimal hch)
  have hvalue : Nat.ofDigitChars 10 (decimal n) 0 = n := Nat.ofDigitChars_ten_toDigits
  simp only [parseUnsigned, if_neg hplus, hvalue, if_pos h]
  rw [if_neg]
  simp [hall, decimal_ne_nil]

theorem parseUnsigned_lt {bound n : Nat} {text : List Char} (h : parseUnsigned bound text = some n) :
    n < bound := by
  have hread : ∀ digits : List Char, (if digits = [] ∨ ¬ digits.all Char.isDigit then none
      else if Nat.ofDigitChars 10 digits 0 < bound then some (Nat.ofDigitChars 10 digits 0)
      else none) = some n → n < bound := by
    intro digits hsome
    split at hsome
    · cases hsome
    · split at hsome
      · next hlt =>
          obtain rfl := Option.some.inj hsome
          exact hlt
      · cases hsome
  exact hread _ h

theorem isWhitespace_of_isDigit {ch : Char} (h : ch.isDigit = true) : isWhitespace ch = false := by
  have hbounds : 48 ≤ ch.toNat ∧ ch.toNat ≤ 57 := by
    simp only [Char.isDigit, Bool.and_eq_true, decide_eq_true_eq] at h
    exact ⟨UInt32.le_iff_toNat_le.mp h.1, UInt32.le_iff_toNat_le.mp h.2⟩
  simp only [isWhitespace, Bool.or_eq_false_iff, Bool.and_eq_false_iff, decide_eq_false_iff_not,
    beq_eq_false_iff_ne]
  omega

theorem trimmed_decimal (n : Nat) : Trimmed (decimal n) :=
  trimmed_of_all (fun _ h => isWhitespace_of_isDigit (isDigit_of_mem_decimal h))

/-! ## Bytes -/

/-- The length in UTF-8. -/
def utf8Length (text : List Char) : Nat :=
  (text.map Char.utf8Size).sum

/-- An offset at which a character starts, or the end. -/
def isCharBoundary : List Char → Nat → Bool
  | _, 0 => true
  | [], _ => false
  | ch :: text, n => decide (ch.utf8Size ≤ n) && isCharBoundary text (n - ch.utf8Size)

/-- The characters before an offset. -/
def takeBytes : List Char → Nat → List Char
  | [], _ => []
  | ch :: text, n =>
      if ch.utf8Size ≤ n then ch :: takeBytes text (n - ch.utf8Size) else []

theorem takeBytes_isPrefix : ∀ (text : List Char) (n : Nat), takeBytes text n <+: text := by
  intro text
  induction text with
  | nil =>
      intro n
      exact List.nil_prefix
  | cons ch text ih =>
      intro n
      rw [takeBytes]
      split
      · exact (List.prefix_cons_inj ch).mpr (ih _)
      · exact List.nil_prefix

/-- At a boundary the cut is exact. -/
theorem utf8Length_takeBytes : ∀ {text : List Char} {n : Nat}, isCharBoundary text n = true →
    utf8Length (takeBytes text n) = n := by
  intro text
  induction text with
  | nil =>
      intro n h
      cases n with
      | zero => rfl
      | succ n => cases h
  | cons ch text ih =>
      intro n h
      cases n with
      | zero =>
          have := ch.utf8Size_pos
          rw [takeBytes, if_neg (by omega)]
          rfl
      | succ n =>
          simp only [isCharBoundary, Bool.and_eq_true, decide_eq_true_eq] at h
          rw [takeBytes, if_pos h.1, utf8Length, List.map_cons, List.sum_cons]
          have := ih h.2
          rw [utf8Length] at this
          omega

end Text

end Octos
