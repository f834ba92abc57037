/-
# `Octos.Lib.Glob` — patterns of paths

A star is any run of characters within one segment, a question mark one of them, and
everything else is itself:

    cards/*.card     cards/a.card, cards/.card;  not cards/b/a.card

A pattern without wildcards is what it matches.  One with wildcards matches among
others its sample, in which an `x` stands for each.
-/
import Octos.Lib.Path

namespace Octos.Glob

/-- The whole text. -/
def globMatch : List Char → List Char → Bool
  | [], text => text.isEmpty
  | ch :: pattern, text =>
      if ch = '*' then
        (List.range (text.length + 1)).any
          (fun n => (text.take n).all (· != '/') && globMatch pattern (text.drop n))
      else text.head?.any (fun c => if ch = '?' then c != '/' else c == ch) && globMatch pattern text.tail

def isWildcard (ch : Char) : Bool :=
  ch == '*' || ch == '?'

variable {a b pattern text : List Char} {ch : Char}

theorem globMatch_star : globMatch ('*' :: pattern) text = true ↔
    ∃ run rest, text = run ++ rest ∧ '/' ∉ run ∧ globMatch pattern rest = true := by
  rw [globMatch, if_pos rfl, List.any_eq_true]
  have hplain : ∀ run : List Char, run.all (· != '/') = true ↔ '/' ∉ run := by
    intro run
    rw [List.all_eq_true]
    refine ⟨fun h hmem => ?_, fun h c hc => bne_iff_ne.mpr (fun heq => h (heq ▸ hc))⟩
    exact absurd rfl (bne_iff_ne.mp (h _ hmem))
  constructor
  · rintro ⟨n, -, h⟩
    rw [Bool.and_eq_true, hplain] at h
    exact ⟨text.take n, text.drop n, (List.take_append_drop _ _).symm, h.1, h.2⟩
  · rintro ⟨run, rest, rfl, hrun, hrest⟩
    refine ⟨run.length, ?_, ?_⟩
    · rw [List.mem_range, List.length_append]
      omega
    · rw [List.take_left, List.drop_left, Bool.and_eq_true, hplain]
      exact ⟨hrun, hrest⟩

theorem globMatch_cons (h : ch ≠ '*') : globMatch (ch :: pattern) text = true ↔
    ∃ c rest, text = c :: rest ∧ (if ch = '?' then c ≠ '/' else c = ch) ∧ globMatch pattern rest = true := by
  rw [globMatch, if_neg h]
  cases text with
  | nil => simp
  | cons c rest =>
      rw [List.head?_cons, List.tail_cons, Option.any_some]
      split <;> simp

/-- A pattern in two parts matches what falls in two. -/
theorem globMatch_append : ∀ {a text : List Char}, globMatch (a ++ b) text = true ↔
    ∃ s t, text = s ++ t ∧ globMatch a s = true ∧ globMatch b t = true := by
  intro a
  induction a with
  | nil =>
      intro text
      constructor
      · intro h
        exact ⟨[], text, rfl, rfl, h⟩
      · rintro ⟨s, t, rfl, hs, ht⟩
        rw [List.isEmpty_iff.mp hs]
        exact ht
  | cons ch a ih =>
      intro text
      rw [List.cons_append]
      by_cases hstar : ch = '*'
      · subst hstar
        simp only [globMatch_star, ih]
        constructor
        · rintro ⟨run, rest, rfl, hrun, s, t, rfl, hs, ht⟩
          exact ⟨run ++ s, t, (List.append_assoc _ _ _).symm, ⟨run, s, rfl, hrun, hs⟩, ht⟩
        · rintro ⟨-, t, rfl, ⟨run, s, rfl, hrun, hs⟩, ht⟩
          exact ⟨run, s ++ t, List.append_assoc _ _ _, hrun, s, t, rfl, hs, ht⟩
      · simp only [globMatch_cons hstar, ih]
        constructor
        · rintro ⟨c, rest, rfl, hc, s, t, rfl, hs, ht⟩
          exact ⟨c :: s, t, rfl, ⟨c, s, rfl, hc, hs⟩, ht⟩
        · rintro ⟨-, t, rfl, ⟨c, s, rfl, hc, hs⟩, ht⟩
          exact ⟨c, s ++ t, rfl, hc, s, t, rfl, hs, ht⟩

/-- One character that is no wildcard. -/
theorem globMatch_single (h : isWildcard ch = false) : globMatch [ch] text = true ↔ text = [ch] := by
  simp only [isWildcard, Bool.or_eq_false_iff, beq_eq_false_iff_ne] at h
  rw [globMatch_cons h.1]
  simp only [if_neg h.2]
  constructor
  · rintro ⟨c, rest, rfl, rfl, hrest⟩
    rw [List.isEmpty_iff.mp hrest]
  · rintro rfl
    exact ⟨ch, [], rfl, rfl, rfl⟩

/-- What begins with it begins what is matched. -/
theorem head_of_globMatch (hch : isWildcard ch = false) (h : globMatch (ch :: pattern) text = true) :
    text.head? = some ch := by
  rw [← List.singleton_append, globMatch_append] at h
  obtain ⟨s, t, rfl, hs, -⟩ := h
  rw [(globMatch_single hch).mp hs]
  rfl

/-- What it ends with ends what is matched. -/
theorem getLast_of_globMatch (hch : isWildcard ch = false) (h : globMatch (pattern ++ [ch]) text = true) :
    text.getLast? = some ch := by
  rw [globMatch_append] at h
  obtain ⟨s, t, rfl, -, ht⟩ := h
  rw [(globMatch_single hch).mp ht, List.getLast?_concat]

/-! ## The sample -/

def fill (ch : Char) : Char :=
  if isWildcard ch then 'x' else ch

/-- A text that a pattern matches. -/
def sample (pattern : List Char) : List Char :=
  pattern.map fill

theorem globMatch_sample : ∀ pattern : List Char, globMatch pattern (sample pattern) = true := by
  intro pattern
  induction pattern with
  | nil => rfl
  | cons ch pattern ih =>
      by_cases hstar : ch = '*'
      · subst hstar
        exact globMatch_star.mpr ⟨['x'], sample pattern, rfl, by decide, ih⟩
      · refine (globMatch_cons hstar).mpr ⟨fill ch, sample pattern, rfl, ?_, ih⟩
        by_cases hone : ch = '?'
        · subst hone
          decide
        · have hplain : isWildcard ch = false := by
            rw [isWildcard, beq_false_of_ne hstar, beq_false_of_ne hone]
            rfl
          rw [if_neg hone, fill, hplain, if_neg Bool.false_ne_true]

/-- A wildcard becomes neither a slash nor a dot. -/
theorem fill_eq {c : Char} (hx : c ≠ 'x') (hc : isWildcard c = false) : fill ch = c ↔ ch = c := by
  rw [fill]
  split
  · next hw =>
      refine ⟨fun h => absurd h.symm hx, ?_⟩
      rintro rfl
      rw [hw] at hc
      cases hc
  · rfl

end Octos.Glob
