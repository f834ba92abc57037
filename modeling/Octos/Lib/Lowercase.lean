/-
# `Octos.Lib.Lowercase` — `str::to_lowercase`

A text is lowercased one character at a time by the tables of Unicode; a character may
become several.  Only the capital sigma looks around: at the end of a word it becomes
the final one.

The tables are a parameter.  What is known of them is what Unicode says of ASCII: its
letters have their usual small letters, and no other character has an ASCII character
in its lowercase, but for two,

    İ   i and a combining dot        K (the Kelvin sign)   k
-/
import Octos.Lib.Occurrences

namespace Octos.Text

/-- The Kelvin sign. -/
def kelvin : Char :=
  Char.ofNat 0x212A

/-- The tables, and what they say of ASCII. -/
structure CaseTable where
  lower : Char → List Char
  cased : Char → Bool
  caseIgnorable : Char → Bool
  lower_ne_nil : ∀ ch, lower ch ≠ []
  lower_ascii : ∀ ch, ch.toNat < 128 → lower ch = [ch.toLower]
  lower_dotted : lower 'İ' = ['i', Char.ofNat 0x307]
  lower_kelvin : lower kelvin = ['k']
  lower_other : ∀ ch, 128 ≤ ch.toNat → ch ≠ 'İ' → ch ≠ kelvin → ∀ c ∈ lower ch, 128 ≤ c.toNat

namespace CaseTable

variable (table : CaseTable)

/-- `case_ignorable_then_cased` -/
def ignorableThenCased (text : List Char) : Bool :=
  match text.dropWhile table.caseIgnorable with
  | [] => false
  | ch :: _ => table.cased ch

/-- `map_uppercase_sigma` -/
def sigma (before after : List Char) : Char :=
  if table.ignorableThenCased before.reverse && !table.ignorableThenCased after then 'ς' else 'σ'

/-- What a character becomes between these texts. -/
def lowerAt (before : List Char) (ch : Char) (after : List Char) : List Char :=
  if ch = 'Σ' then [table.sigma before after] else table.lower ch

/-- The loop of `to_lowercase`, behind what it has read. -/
def lowerFrom (before : List Char) : List Char → List Char
  | [] => []
  | ch :: after => table.lowerAt before ch after ++ lowerFrom (before ++ [ch]) after

def toLowercase (text : List Char) : List Char :=
  table.lowerFrom [] text

/-! ## ASCII -/

variable {table}

theorem lowerAt_ascii {before after : List Char} {ch : Char} (h : ch.toNat < 128) :
    table.lowerAt before ch after = [ch.toLower] := by
  have hne : ch ≠ 'Σ' := by
    rintro rfl
    exact absurd h (by decide)
  rw [lowerAt, if_neg hne, table.lower_ascii ch h]

/-- What else has ASCII in its lowercase. -/
theorem lowerAt_other {before after : List Char} {ch : Char} (h : 128 ≤ ch.toNat) :
    (∀ c ∈ table.lowerAt before ch after, 128 ≤ c.toNat) ∨
      (ch = 'İ' ∧ table.lowerAt before ch after = ['i', Char.ofNat 0x307]) ∨
        (ch = kelvin ∧ table.lowerAt before ch after = ['k']) := by
  rw [lowerAt]
  split
  · left
    intro c hc
    rw [List.mem_singleton.mp hc, sigma]
    split <;> decide
  · by_cases hdotted : ch = 'İ'
    · rw [hdotted, table.lower_dotted]
      exact .inr (.inl ⟨rfl, rfl⟩)
    · by_cases hkelvin : ch = kelvin
      · rw [hkelvin, table.lower_kelvin]
        exact .inr (.inr ⟨rfl, rfl⟩)
      · exact .inl (table.lower_other ch h hdotted hkelvin)

theorem lowerAt_ne_nil {before after : List Char} {ch : Char} : table.lowerAt before ch after ≠ [] := by
  rw [lowerAt]
  split
  · exact List.cons_ne_nil _ _
  · exact table.lower_ne_nil ch

/-- A fact about ASCII is one about 128 numbers. -/
theorem of_ascii {P : Char → Prop} (hall : ∀ n < 128, P (Char.ofNat n)) {ch : Char} (h : ch.toNat < 128) :
    P ch := by
  have hch := hall ch.toNat h
  rw [Char.ofNat_toNat] at hch
  exact hch

/-- A slash is what only a slash becomes. -/
theorem slash_mem_lowerAt {before after : List Char} {ch : Char} :
    '/' ∈ table.lowerAt before ch after ↔ ch = '/' := by
  rcases Nat.lt_or_ge ch.toNat 128 with hascii | hother
  · rw [lowerAt_ascii hascii, List.mem_singleton]
    have hall : ∀ n < 128, '/' = (Char.ofNat n).toLower ↔ Char.ofNat n = '/' := by decide
    exact @of_ascii (fun ch => '/' = ch.toLower ↔ ch = '/') hall _ hascii
  · have hne : ch ≠ '/' := by
      rintro rfl
      exact absurd hother (by decide)
    refine ⟨?_, fun h => absurd h hne⟩
    intro hmem
    rcases lowerAt_other hother with h | ⟨-, h⟩ | ⟨-, h⟩
    · exact absurd (h _ hmem) (by decide)
    · rw [h] at hmem
      exact absurd hmem (by decide)
    · rw [h] at hmem
      exact absurd hmem (by decide)

theorem slash_mem_lowerFrom : ∀ {text before : List Char},
    '/' ∈ table.lowerFrom before text ↔ '/' ∈ text := by
  intro text
  induction text with
  | nil => exact fun {_} => Iff.rfl
  | cons ch text ih =>
      intro before
      rw [lowerFrom, List.mem_append, slash_mem_lowerAt, ih, List.mem_cons, eq_comm]

/-- The slashes of a text stay. -/
theorem slash_mem_toLowercase {text : List Char} : '/' ∈ table.toLowercase text ↔ '/' ∈ text :=
  slash_mem_lowerFrom

/-- The rows of ASCII and the two that reach into it. -/
def smallest : CaseTable where
  lower ch :=
    if ch.toNat < 128 then [ch.toLower]
    else if ch = 'İ' then ['i', Char.ofNat 0x307]
    else if ch = kelvin then ['k']
    else [ch]
  cased := Char.isAlpha
  caseIgnorable ch := ch == '.' || ch == ':'
  lower_ne_nil ch := by split_ifs <;> exact List.cons_ne_nil _ _
  lower_ascii ch h := if_pos h
  lower_dotted := by decide
  lower_kelvin := by decide
  lower_other ch h hdotted hkelvin := by
    rw [if_neg (Nat.not_lt.mpr h), if_neg hdotted, if_neg hkelvin]
    intro c hc
    rw [List.mem_singleton.mp hc]
    exact h

end CaseTable

end Octos.Text
