/-
# `Octos.Lib.CaseSearch` — a search whatever the case

A text of ASCII is looked for in the lowercase of another, or in the other itself with
the case of ASCII letters left out.  For a text without `k`, and with no `i` at its
end, the two find the same place: what Unicode adds to ASCII can then not be part of
it.  The offset is not the same, since the characters in front may become longer or
shorter:

    İ   2 bytes, in lowercase 3        the Kelvin sign   3 bytes, in lowercase 1
-/
import Octos.Lib.Lines
import Octos.Lib.Lowercase
import Octos.Lib.Slices

namespace Octos.Text

/-- `text[..pat.len()].eq_ignore_ascii_case(pat)`, for a text in lowercase. -/
def beginsCase (pat text : List Char) : Bool :=
  (text.take pat.length).map Char.toLower == pat

/-- What is before and after the first occurrence, whatever its case. -/
def breakOnCase (pat : List Char) : List Char → Option (List Char × List Char)
  | [] => if pat.isEmpty then some ([], []) else none
  | ch :: text =>
      if beginsCase pat (ch :: text) then some ([], (ch :: text).drop pat.length)
      else (breakOnCase pat text).map (fun r => (ch :: r.1, r.2))

/-- What lowercasing adds to ASCII is no part of it. -/
structure Findable (pat : List Char) : Prop where
  ascii : ∀ c ∈ pat, c.toNat < 128
  kelvin : 'k' ∉ pat
  dotted : pat.getLast? ≠ some 'i'

variable {table : CaseTable} {pat text before after : List Char} {c : Char}

theorem Findable.tail (h : Findable (c :: pat)) : Findable pat := by
  refine ⟨fun c hc => h.ascii c (List.mem_cons_of_mem _ hc), fun hk => h.kelvin (List.mem_cons_of_mem _ hk), ?_⟩
  intro hlast
  apply h.dotted
  rw [List.getLast?_cons, hlast]
  rfl

/-! ## What is found -/

theorem beginsCase_cons {ch : Char} :
    beginsCase (c :: pat) (ch :: text) = true ↔ ch.toLower = c ∧ beginsCase pat text = true := by
  rw [beginsCase, beginsCase, List.length_cons, List.take_succ_cons, List.map_cons, beq_iff_eq, beq_iff_eq,
    List.cons.injEq]

/-- The first occurrence: the text falls in three, the middle is it, and there is none
further in front. -/
theorem breakOnCase_some : ∀ {text before after : List Char}, breakOnCase pat text = some (before, after) →
    ∃ word, text = before ++ word ++ after ∧ word.map Char.toLower = pat ∧
      ∀ n < before.length, beginsCase pat (text.drop n) = false := by
  intro text
  induction text with
  | nil =>
      intro before after h
      rw [breakOnCase] at h
      split at h
      · next hempty =>
          cases h
          refine ⟨[], rfl, (List.isEmpty_iff.mp hempty).symm, ?_⟩
          intro n hn
          cases hn
      · cases h
  | cons ch text ih =>
      intro before after h
      rw [breakOnCase] at h
      split at h
      · next hbegins =>
          cases h
          refine ⟨(ch :: text).take pat.length, (List.take_append_drop _ _).symm, beq_iff_eq.mp hbegins, ?_⟩
          intro n hn
          cases hn
      · next hbegins =>
          obtain ⟨⟨b, a⟩, hrest, heq⟩ := Option.map_eq_some_iff.mp h
          cases heq
          obtain ⟨word, htext, hword, hfirst⟩ := ih hrest
          refine ⟨word, ?_, hword, ?_⟩
          · rw [List.cons_append, List.cons_append, ← htext]
          · intro n hn
            cases n with
            | zero => exact Bool.eq_false_iff.mpr hbegins
            | succ n => exact hfirst n (Nat.lt_of_succ_lt_succ hn)

/-! ## The same place in the lowercase -/

/-- Behind its first character a lowercase has no ASCII. -/
theorem lowerAt_tail {ch : Char} : ∀ c ∈ (table.lowerAt before ch after).tail, 128 ≤ c.toNat := by
  intro c hc
  rcases Nat.lt_or_ge ch.toNat 128 with hascii | hother
  · rw [CaseTable.lowerAt_ascii hascii] at hc
    cases hc
  · rcases CaseTable.lowerAt_other hother with h | ⟨-, h⟩ | ⟨-, h⟩
    · exact h c (List.mem_of_mem_tail hc)
    · rw [h] at hc
      rw [List.mem_singleton.mp hc]
      decide
    · rw [h] at hc
      cases hc

theorem toLower_other {ch : Char} (h : 128 ≤ ch.toNat) : ch.toLower = ch := by
  have hupper : ¬ (ch.val ≥ 'A'.val ∧ ch.val ≤ 'Z'.val) := by
    rintro ⟨-, hle⟩
    have hle' : ch.toNat ≤ 90 := UInt32.le_iff_toNat_le.mp hle
    omega
  rw [Char.toLower, dif_neg hupper]

/-- A text that is one of ASCII whatever its case has as many bytes. -/
theorem utf8Length_of_case {word : List Char} (hascii : ∀ c ∈ pat, c.toNat < 128)
    (hword : word.map Char.toLower = pat) : utf8Length word = pat.length := by
  have hall : ∀ ch ∈ word, ch.toNat < 128 := by
    intro ch hch
    by_contra hother
    have hlower := toLower_other (Nat.le_of_not_lt hother)
    have hmem := @List.mem_map_of_mem _ _ _ _ Char.toLower hch
    rw [hword, hlower] at hmem
    exact hother (hascii ch hmem)
  rw [utf8Length_of_ascii hall, ← hword, List.length_map]

/-- The text begins the lowercase if it begins the original whatever the case. -/
theorem prefix_lowerFrom : ∀ {text pat before : List Char}, Findable pat →
    (pat <+: table.lowerFrom before text ↔ beginsCase pat text = true) := by
  intro text
  induction text with
  | nil =>
      intro pat before _
      cases pat with
      | nil => exact ⟨fun _ => rfl, fun _ => List.nil_prefix⟩
      | cons c pat =>
          refine ⟨fun h => ?_, fun h => ?_⟩
          · exact absurd (List.prefix_nil.mp h) (List.cons_ne_nil _ _)
          · cases h
  | cons ch text ih =>
      intro pat before h
      cases pat with
      | nil => exact ⟨fun _ => rfl, fun _ => List.nil_prefix⟩
      | cons c pat =>
          have hc := h.ascii c List.mem_cons_self
          rw [CaseTable.lowerFrom, beginsCase_cons]
          rcases Nat.lt_or_ge ch.toNat 128 with hascii | hother
          · rw [CaseTable.lowerAt_ascii hascii, List.singleton_append, List.cons_prefix_cons, ih h.tail, eq_comm]
          · have hne : ch.toLower ≠ c := by
              rw [toLower_other hother]
              rintro rfl
              omega
            refine ⟨?_, fun hb => absurd hb.1 hne⟩
            intro hbegins
            exfalso
            rcases @CaseTable.lowerAt_other table before text ch hother with hall | ⟨-, hi⟩ | ⟨-, hk⟩
            · cases hlower : table.lowerAt before ch text with
              | nil => exact CaseTable.lowerAt_ne_nil hlower
              | cons x xs =>
                  rw [hlower, List.cons_append, List.cons_prefix_cons] at hbegins
                  have hx := hall x (hlower ▸ List.mem_cons_self)
                  rw [← hbegins.1] at hx
                  omega
            · rw [hi, List.cons_append, List.cons_prefix_cons] at hbegins
              cases pat with
              | nil =>
                  apply h.dotted
                  rw [hbegins.1]
                  rfl
              | cons d pat =>
                  have hd := h.ascii d (List.mem_cons_of_mem _ List.mem_cons_self)
                  rw [List.cons_append, List.cons_prefix_cons] at hbegins
                  rw [hbegins.2.1] at hd
                  exact absurd hd (by decide)
            · rw [hk, List.cons_append, List.cons_prefix_cons] at hbegins
              apply h.kelvin
              rw [← hbegins.1]
              exact List.mem_cons_self

/-- Over characters that the pattern does not begin with a search only goes on. -/
theorem breakOn_skip (hne : pat ≠ []) : ∀ {front : List Char}, (∀ c ∈ front, pat.head? ≠ some c) → ∀ text,
    breakOn pat (front ++ text) = (breakOn pat text).map (fun r => (front ++ r.1, r.2)) := by
  intro front
  induction front with
  | nil =>
      intro _ text
      simp
  | cons c front ih =>
      intro hfront text
      have hno : pat.isPrefixOf (c :: (front ++ text)) = false := by
        cases pat with
        | nil => exact absurd rfl hne
        | cons p pat =>
            have hp : p ≠ c := by
              rintro rfl
              exact hfront p List.mem_cons_self rfl
            rw [List.isPrefixOf_cons_cons, beq_false_of_ne hp, Bool.false_and]
      rw [List.cons_append, breakOn, hno, if_neg Bool.false_ne_true,
        ih (fun d hd => hfront d (List.mem_cons_of_mem _ hd)), Option.map_map]
      rfl

/-- The bytes of the lowercase. -/
def lowerBytes (table : CaseTable) (text : List Char) : Nat :=
  utf8Length (table.toLowercase text)

/-- Either small sigma has two bytes: what is around a character does not change how
long its lowercase is. -/
theorem utf8Length_lowerAt (ch : Char) (before after before' after' : List Char) :
    utf8Length (table.lowerAt before ch after) = utf8Length (table.lowerAt before' ch after') := by
  have hsigma : ∀ b a, utf8Length [table.sigma b a] = 2 := by
    intro b a
    rw [CaseTable.sigma]
    split <;> rfl
  rw [CaseTable.lowerAt, CaseTable.lowerAt]
  split
  · rw [hsigma, hsigma]
  · rfl

theorem utf8Length_lowerFrom : ∀ (text before before' : List Char),
    utf8Length (table.lowerFrom before text) = utf8Length (table.lowerFrom before' text) := by
  intro text
  induction text with
  | nil => exact fun _ _ => rfl
  | cons ch text ih =>
      intro before before'
      rw [CaseTable.lowerFrom, CaseTable.lowerFrom, utf8Length_append, utf8Length_append,
        ih _ (before' ++ [ch]), utf8Length_lowerAt ch before text before' text]

theorem lowerBytes_cons (ch : Char) (text before after : List Char) :
    lowerBytes table (ch :: text) = utf8Length (table.lowerAt before ch after) + lowerBytes table text := by
  rw [lowerBytes, lowerBytes, CaseTable.toLowercase, CaseTable.toLowercase, CaseTable.lowerFrom, utf8Length_append,
    utf8Length_lowerFrom text _ [], utf8Length_lowerAt ch [] text before after]

/-- **The search in the lowercase finds the place**, as many bytes from the start as
the lowercase of what is in front has. -/
theorem breakOn_lowerFrom (h : Findable pat) (hne : pat ≠ []) : ∀ {text before : List Char},
    (breakOn pat (table.lowerFrom before text)).map (fun r => utf8Length r.1) =
      (breakOnCase pat text).map (fun r => lowerBytes table r.1) := by
  intro text
  induction text with
  | nil =>
      intro before
      cases pat with
      | nil => exact absurd rfl hne
      | cons p pat => rfl
  | cons ch text ih =>
      intro before
      have hbegins := @prefix_lowerFrom table (ch :: text) pat before h
      cases hlower : table.lowerAt before ch text with
      | nil => exact absurd hlower CaseTable.lowerAt_ne_nil
      | cons x xs =>
          rw [CaseTable.lowerFrom, hlower, List.cons_append, ← List.isPrefixOf_iff_prefix] at hbegins
          rw [CaseTable.lowerFrom, hlower, List.cons_append, breakOn, breakOnCase]
          split
          · next hp =>
              rw [if_pos (hbegins.mp hp)]
              rfl
          · next hp =>
              have hskip : ∀ c ∈ xs, pat.head? ≠ some c := by
                intro c hc hhead
                have hlow := h.ascii c (List.mem_of_mem_head? hhead)
                have hhigh := @lowerAt_tail table before text ch c (hlower ▸ hc)
                omega
              have hbytes : ∀ r, lowerBytes table (ch :: r) = utf8Length (x :: xs) + lowerBytes table r := by
                intro r
                rw [lowerBytes_cons ch r before text, hlower]
              rw [if_neg (fun hb => hp (hbegins.mpr hb)), breakOn_skip hne hskip, Option.map_map, Option.map_map,
                Option.map_map]
              have hrest := congrArg (Option.map (utf8Length (x :: xs) + ·)) (@ih (before ++ [ch]))
              rw [Option.map_map, Option.map_map] at hrest
              refine Eq.trans ?_ (hrest.trans ?_)
              · refine congrArg (fun f => Option.map f _) (funext (fun r => ?_))
                show utf8Length (x :: (xs ++ r.1)) = _
                rw [← List.cons_append, utf8Length_append]
                rfl
              · refine congrArg (fun f => Option.map f _) (funext (fun r => ?_))
                exact (hbytes r.1).symm

end Octos.Text
