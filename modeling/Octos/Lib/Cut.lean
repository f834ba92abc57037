/-
# `Octos.Lib.Cut` — cutting a text short

A text is cut at a number of bytes, at the last character that fits, with something
put behind it; or at a number of characters that a search by halves finds.  The search
is for the last index at which a predicate holds that only ever turns false:

    true true .. true | false .. false
    low           result          high

Trimming the end of a text and cutting it go together: what a beginning keeps, the
whole keeps as well.
-/
import Octos.Lib.Occurrences

namespace Octos.Text

/-! ## Bytes -/

variable {text before after : List Char} {n : Nat}

/-- The characters that fit in so many bytes, `suffix` behind them if any are missing. -/
def truncateUtf8 (text : List Char) (maxLen : Nat) (suffix : List Char) : List Char :=
  if utf8Length text ≤ maxLen then text else takeBytes text maxLen ++ suffix

theorem utf8Length_takeBytes_le : ∀ {text : List Char} {n : Nat}, utf8Length (takeBytes text n) ≤ n := by
  intro text
  induction text with
  | nil =>
      intro n
      exact Nat.zero_le n
  | cons ch text ih =>
      intro n
      rw [takeBytes]
      split
      · next hfits =>
          have hrest : utf8Length (takeBytes text (n - ch.utf8Size)) ≤ n - ch.utf8Size := ih
          rw [utf8Length_cons]
          omega
      · exact Nat.zero_le n

/-! ## Control characters -/

/-- `char::is_control` -/
def isControl (ch : Char) : Bool :=
  decide (ch.toNat < 0x20) || (decide (0x7F ≤ ch.toNat) && decide (ch.toNat < 0xA0))

/-! ## The end of a text -/

/-- What is left of a beginning is a beginning of what is left of the whole. -/
theorem rdropWhile_keeps_front (p : Char → Bool) (h : before <+: text) :
    before.rdropWhile p <+: text.rdropWhile p := by
  obtain ⟨rest, rfl⟩ := h
  induction rest using List.reverseRecOn with
  | nil => rw [List.append_nil]
  | append_singleton rest ch ih =>
      rw [← List.append_assoc]
      by_cases hch : p ch = true
      · rw [List.rdropWhile_concat_pos _ _ _ hch]
        exact ih
      · rw [List.rdropWhile_concat_neg _ _ _ hch]
        refine (List.rdropWhile_prefix p before).trans ?_
        rw [List.append_assoc]
        exact List.prefix_append _ _

/-! ## Search by halves -/

/-- `while low < high` with the middle rounded up; the first argument bounds the rounds. -/
def bisect (fits : Nat → Bool) : Nat → Nat → Nat → Nat
  | 0, low, _ => low
  | rounds + 1, low, high =>
      if low < high then
        let mid := low + (high - low + 1) / 2
        if fits mid then bisect fits rounds mid high else bisect fits rounds low (mid - 1)
      else low

/-- The search ends at the last index that fits. -/
theorem bisect_spec {fits : Nat → Bool} (hmono : ∀ i j, i ≤ j → fits j = true → fits i = true) :
    ∀ {rounds low high : Nat}, fits low = true → low ≤ high → high - low ≤ rounds →
      fits (bisect fits rounds low high) = true ∧ low ≤ bisect fits rounds low high ∧
        bisect fits rounds low high ≤ high ∧
        ∀ i, i ≤ high → fits i = true → i ≤ bisect fits rounds low high := by
  intro rounds
  induction rounds with
  | zero =>
      intro low high hlow hle hrounds
      refine ⟨hlow, Nat.le_refl _, hle, ?_⟩
      intro i hi _
      show i ≤ low
      omega
  | succ rounds ih =>
      intro low high hlow hle hrounds
      rw [bisect]
      split
      · next hlt =>
          dsimp only
          split
          · next hmid =>
              obtain ⟨hfits, hge, hhigh, hlast⟩ :=
                @ih (low + (high - low + 1) / 2) high hmid (by omega) (by omega)
              exact ⟨hfits, by omega, hhigh, hlast⟩
          · next hmid =>
              obtain ⟨hfits, hge, hhigh, hlast⟩ :=
                @ih low (low + (high - low + 1) / 2 - 1) hlow (by omega) (by omega)
              refine ⟨hfits, hge, by omega, ?_⟩
              intro i hi hfit
              refine hlast i ?_ hfit
              by_contra hno
              exact hmid (hmono _ i (by omega) hfit)
      · refine ⟨hlow, Nat.le_refl _, hle, ?_⟩
        intro i hi _
        omega

end Octos.Text
