/-
# `Octos.Lib.Ring` — a buffer that forgets its beginning

A history is kept in a buffer that is cut back to its last `w` entries when it holds
more than `2w`.  The buffer is always an end of the history, and it is the whole history
or has at least `w` entries; whatever looks at no more than the last `w` entries sees
the same in both.
-/
import Mathlib

namespace Octos

variable {α β : Type*} {w : Nat} {buffer full xs : List α}

/-- Pushes an entry, and drains the buffer when it is twice too long. -/
def pushBounded (w : Nat) (buffer : List α) (a : α) : List α :=
  let pushed := buffer ++ [a]
  if w * 2 < pushed.length then pushed.drop (pushed.length - w) else pushed

/-- The buffer holds what is needed of the history. -/
structure Holds (w : Nat) (buffer full : List α) : Prop where
  isSuffix : buffer <:+ full
  enough : buffer = full ∨ w ≤ buffer.length

theorem Holds.refl (w : Nat) (full : List α) : Holds w full full where
  isSuffix := List.suffix_rfl
  enough := .inl rfl

/-- A shorter end of a buffer holds the same, if it is long enough. -/
theorem Holds.drop (h : Holds w buffer full) (hw : w ≤ buffer.length) :
    Holds w (buffer.drop (buffer.length - w)) full where
  isSuffix := (List.drop_suffix _ _).trans h.isSuffix
  enough := by
    right
    rw [List.length_drop]
    omega

theorem Holds.append (h : Holds w buffer full) (a : α) : Holds w (buffer ++ [a]) (full ++ [a]) where
  isSuffix := by
    obtain ⟨front, rfl⟩ := h.isSuffix
    exact ⟨front, (List.append_assoc _ _ _).symm⟩
  enough := by
    rcases h.enough with rfl | hw
    · exact .inl rfl
    · right
      rw [List.length_append]
      omega

/-- **A push keeps what is needed**, drained or not. -/
theorem Holds.push (h : Holds w buffer full) (a : α) : Holds w (pushBounded w buffer a) (full ++ [a]) := by
  have happend := h.append a
  rw [pushBounded]
  split
  · next hlong => exact happend.drop (by omega)
  · exact happend

/-- The history ends the way the buffer does, as far as `w` entries go. -/
theorem Holds.suffix_iff (h : Holds w buffer full) (hx : xs.length ≤ w) : xs <:+ buffer ↔ xs <:+ full := by
  constructor
  · exact fun hsuffix => hsuffix.trans h.isSuffix
  · intro hsuffix
    rcases h.enough with rfl | hw
    · exact hsuffix
    · rcases List.suffix_or_suffix_of_suffix hsuffix h.isSuffix with hx' | hx'
      · exact hx'
      · have hlength := hx'.length_le
        rw [hx'.eq_of_length (by omega)]

/-- Up to `w` the two are as long. -/
theorem Holds.le_length_iff (h : Holds w buffer full) {n : Nat} (hn : n ≤ w) :
    n ≤ buffer.length ↔ n ≤ full.length := by
  rcases h.enough with rfl | hw
  · rfl
  · have := h.isSuffix.length_le
    omega

/-- What a map makes the end of a list comes from an end of the list. -/
theorem suffix_map_iff {f : α → β} {ys : List β} :
    ys <:+ full.map f ↔ ∃ xs, xs <:+ full ∧ ys = xs.map f := by
  constructor
  · rintro ⟨front, hfront⟩
    obtain ⟨before, after, rfl, -, rfl⟩ := List.append_eq_map_iff.mp hfront
    exact ⟨after, List.suffix_append _ _, rfl⟩
  · rintro ⟨xs, ⟨front, rfl⟩, rfl⟩
    exact ⟨front.map f, List.map_append.symm⟩

end Octos
