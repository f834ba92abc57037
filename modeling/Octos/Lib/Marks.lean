/-
# `Octos.Lib.Marks` — patterns that stand on one line

A pattern without a newline does not reach over the end of a line.  So it stands in a text
of lines exactly when it stands in one of them, and a search for it that passes a line
without it goes on behind the newline:

    .. a ..\n pat b      the search for `pat` stops where it stands, if it is not in `a`
-/
import Octos.Lib.Lines

namespace Octos.Text

variable {pat a b text : List Char}

theorem prefix_of_prefix_newline (hnl : '\n' ∉ pat) (h : pat <+: a ++ '\n' :: b) : pat <+: a := by
  rcases List.prefix_or_prefix_of_prefix h (List.prefix_append a _) with h' | ⟨more, rfl⟩
  · exact h'
  · rw [List.prefix_append_right_inj] at h
    cases more with
    | nil => rw [List.append_nil]
    | cons ch more =>
        obtain rfl : ch = '\n' := (List.cons_prefix_cons.mp h).1
        exact absurd (List.mem_append_right _ List.mem_cons_self) hnl

theorem infix_newline (hnl : '\n' ∉ pat) (h : pat <:+: a ++ '\n' :: b) : pat <:+: a ∨ pat <:+: b := by
  induction a with
  | nil =>
      rcases List.infix_cons_iff.mp h with h | h
      · exact .inl (@prefix_of_prefix_newline pat [] b hnl h).isInfix
      · exact .inr h
  | cons ch a ih =>
      rw [List.cons_append] at h
      rcases List.infix_cons_iff.mp h with h | h
      · exact .inl (@prefix_of_prefix_newline pat (ch :: a) b hnl h).isInfix
      · rcases ih h with h | h
        · exact .inl (List.infix_cons h)
        · exact .inr h

/-- What stands in a text of lines stands in one of them. -/
theorem infix_unlines (hnl : '\n' ∉ pat) (hne : pat ≠ []) : ∀ {ls : List (List Char)},
    pat <:+: unlines ls → ∃ line ∈ ls, pat <:+: line := by
  intro ls
  induction ls with
  | nil =>
      intro h
      exact absurd (List.infix_nil.mp h) hne
  | cons line ls ih =>
      intro h
      cases ls with
      | nil =>
          rw [unlines, List.intercalate_singleton] at h
          exact ⟨line, List.mem_cons_self, h⟩
      | cons next ls =>
          rw [unlines, List.intercalate_cons_cons, List.append_assoc, List.singleton_append] at h
          rcases infix_newline hnl h with h | h
          · exact ⟨line, List.mem_cons_self, h⟩
          · obtain ⟨found, hmem, hfound⟩ := ih h
            exact ⟨found, List.mem_cons_of_mem _ hmem, hfound⟩

/-! ## The first place -/

theorem breakOn_newline (hnl : '\n' ∉ pat) (hne : pat ≠ []) (ha : ¬pat <:+: a) :
    breakOn pat (a ++ '\n' :: (pat ++ b)) = some (a ++ ['\n'], b) := by
  have hstep : ∀ {ch : Char} {text : List Char}, ¬pat <+: ch :: text →
      breakOn pat (ch :: text) = (breakOn pat text).map (fun r => (ch :: r.1, r.2)) := by
    intro ch text hno
    rw [breakOn, if_neg (fun h => hno (List.isPrefixOf_iff_prefix.mp h))]
  induction a with
  | nil =>
      have hno : ¬pat <+: '\n' :: (pat ++ b) := by
        intro h
        exact hne (List.prefix_nil.mp (@prefix_of_prefix_newline pat [] _ hnl h))
      rw [List.nil_append, hstep hno, breakOn_append_self hne]
      rfl
  | cons ch a ih =>
      have hno : ¬pat <+: ch :: (a ++ '\n' :: (pat ++ b)) := by
        intro h
        exact ha (@prefix_of_prefix_newline pat (ch :: a) _ hnl h).isInfix
      rw [List.cons_append, hstep hno, ih (fun h => ha (List.infix_cons h))]
      rfl

theorem breakOn_eq : ∀ {text : List Char}, breakOn pat text = some (a, b) → text = a ++ (pat ++ b) := by
  intro text
  induction text generalizing a b with
  | nil =>
      intro h
      rw [breakOn] at h
      split at h
      · next hemp =>
          obtain ⟨rfl, rfl⟩ := Prod.mk.inj (Option.some.inj h)
          rw [List.isEmpty_iff.mp hemp]
          rfl
      · cases h
  | cons ch text ih =>
      intro h
      rw [breakOn] at h
      split at h
      · next hpre =>
          obtain ⟨rfl, rfl⟩ := Prod.mk.inj (Option.some.inj h)
          exact (List.prefix_iff_eq_append.mp (List.isPrefixOf_iff_prefix.mp hpre)).symm
      · rw [Option.map_eq_some_iff] at h
        obtain ⟨r, hr, heq⟩ := h
        obtain ⟨rfl, rfl⟩ := Prod.mk.inj heq
        rw [List.cons_append, ← ih hr]

/-- In front of the first place there is none. -/
theorem not_infix_of_breakOn (hne : pat ≠ []) : ∀ {text : List Char}, breakOn pat text = some (a, b) →
    ¬pat <:+: a := by
  intro text
  induction text generalizing a b with
  | nil =>
      intro h
      rw [breakOn] at h
      split at h
      · next hemp => exact absurd (List.isEmpty_iff.mp hemp) hne
      · cases h
  | cons ch text ih =>
      intro h
      have heq := breakOn_eq h
      rw [breakOn] at h
      split at h
      · obtain ⟨rfl, rfl⟩ := Prod.mk.inj (Option.some.inj h)
        exact fun h => hne (List.infix_nil.mp h)
      · next hpre =>
          rw [Option.map_eq_some_iff] at h
          obtain ⟨r, hr, hpair⟩ := h
          obtain ⟨rfl, rfl⟩ := Prod.mk.inj hpair
          intro hin
          rcases List.infix_cons_iff.mp hin with hin | hin
          · refine hpre (List.isPrefixOf_iff_prefix.mpr ?_)
            rw [heq]
            exact hin.trans (List.prefix_append _ _)
          · exact ih hr hin

end Octos.Text
