/-
# `Octos.Lib.Patched` — a list with some of its blocks replaced

An edit names a block of rows and puts other rows in its place.  `Patched`
applies a list of edits from the front to the back, one block each:

    kept ++ block ++ rest   becomes   kept ++ added ++ rest'

The positions count the rows of the list as it was before all edits, so they
say that the blocks are disjoint and in the order of the edits (`InOrder`).
-/
import Mathlib

namespace Octos

variable {α η : Type} {names : η → List α → Prop} {added : η → List α}

/-- The rows from position `p` on, with one block replaced for each edit, in
order; every other row stays as it is. -/
inductive Patched (names : η → List α → Prop) (added : η → List α) :
    Nat → List α → List η → List Nat → List α → Prop
  | nil (p : Nat) (rows : List α) : Patched names added p rows [] [] rows
  | cons {p : Nat} {edit : η} {kept block rest out : List α} {edits : List η} {places : List Nat}
      (named : names edit block)
      (later : Patched names added (p + kept.length + block.length) rest edits places out) :
      Patched names added p (kept ++ block ++ rest) (edit :: edits) ((p + kept.length) :: places)
        (kept ++ added edit ++ out)

/-- The blocks, each with its number of rows, are disjoint and in order. -/
def InOrder (size : η → Nat) (places : List Nat) (edits : List η) : Prop :=
  (places.zip edits).Pairwise (fun a b => a.1 + size a.2 ≤ b.1)

namespace Patched

variable {p : Nat} {rows out : List α} {edits : List η} {places : List Nat}

theorem places_le (h : Patched names added p rows edits places out) :
    ∀ a ∈ places.zip edits, p ≤ a.1 := by
  induction h with
  | nil => simp
  | cons named later ih =>
      intro a ha
      rcases List.mem_cons.mp ha with rfl | ha
      · exact Nat.le_add_right _ _
      · have := ih a ha
        omega

theorem inOrder {size : η → Nat} (hsize : ∀ edit block, names edit block → block.length = size edit)
    (h : Patched names added p rows edits places out) : InOrder size places edits := by
  induction h with
  | nil => exact List.Pairwise.nil
  | cons named later ih =>
      refine List.Pairwise.cons ?_ ih
      intro a ha
      show _ + _ ≤ _
      rw [← hsize _ _ named]
      exact later.places_le a ha

theorem no_edits (h : Patched names added p rows [] places out) : out = rows := by
  cases h with
  | nil => rfl

/-- A row of the result was there or is a new one. -/
theorem mem (h : Patched names added p rows edits places out) :
    ∀ row ∈ out, row ∈ rows ∨ ∃ edit ∈ edits, row ∈ added edit := by
  induction h with
  | nil => exact fun row hrow => Or.inl hrow
  | @cons p edit kept block rest out edits places named later ih =>
      intro row hrow
      rcases List.mem_append.mp hrow with hrow | hrow
      · rcases List.mem_append.mp hrow with hrow | hrow
        · exact Or.inl (by simp [hrow])
        · exact Or.inr ⟨edit, List.mem_cons_self, hrow⟩
      · rcases ih row hrow with hin | ⟨edit', hin, hrow⟩
        · exact Or.inl (List.mem_append_right _ hin)
        · exact Or.inr ⟨edit', List.mem_cons_of_mem _ hin, hrow⟩

/-- Each edit names a block of the rows as they were. -/
theorem block (h : Patched names added p rows edits places out) :
    ∀ edit ∈ edits, ∃ block, names edit block ∧ block <:+: rows := by
  induction h with
  | nil => simp
  | @cons p edit kept block rest out edits places named later ih =>
      intro edit' hedit
      rcases List.mem_cons.mp hedit with rfl | hedit
      · exact ⟨block, named, kept, rest, rfl⟩
      · obtain ⟨block', hnamed, hinfix⟩ := ih edit' hedit
        exact ⟨block', hnamed, hinfix.trans (List.suffix_append _ _).isInfix⟩

/-- A block at the front. -/
theorem here {edit : η} {block rest : List α} (named : names edit block)
    (later : Patched names added (p + block.length) rest edits places out) :
    Patched names added p (block ++ rest) (edit :: edits) (p :: places) (added edit ++ out) :=
  @Patched.cons α η names added p edit [] block rest out edits places named later

/-- Rows in front of all blocks. -/
theorem after (gap : List α) (h : Patched names added (p + gap.length) rows edits places out) :
    Patched names added p (gap ++ rows) edits places (gap ++ out) := by
  generalize hq : p + gap.length = q at h
  cases h with
  | nil => exact .nil _ _
  | @cons _ edit kept block rest out edits places named later =>
      have hlater : Patched names added (p + (gap ++ kept).length + block.length) rest edits places out := by
        rw [List.length_append, ← Nat.add_assoc, hq]
        exact later
      have h' := @Patched.cons _ _ _ added _ _ _ _ _ _ _ _ named hlater
      rw [List.length_append, ← Nat.add_assoc, hq] at h'
      simpa only [List.append_assoc] using h'

end Patched

end Octos
