/-
# `Octos.Lib.Rows` — editing a list of records

Three edits of a list that code makes under a lock and may have to take back:
change the first record with a property, take all records with a property out,
and put them back at the end.

    updateFirst_revert      the first record changed and restored: nothing moved
    filter_append_filter    taken out and put back: the same list exactly when
                            the records were its last ones
-/
import Mathlib

namespace Octos

variable {α β : Type}

/-- Change the first record with a property. -/
def updateFirst (p : α → Bool) (f : α → α) : List α → List α
  | [] => []
  | a :: l => if p a then f a :: l else a :: updateFirst p f l

variable {p : α → Bool} {f : α → α} {l : List α}

theorem updateFirst_of_find_none (h : l.find? p = none) : updateFirst p f l = l := by
  induction l with
  | nil => rfl
  | cons a l ih =>
      rw [List.find?_cons] at h
      cases hp : p a with
      | true =>
          rw [hp] at h
          cases h
      | false =>
          rw [hp] at h
          simp [updateFirst, hp, ih h]

/-- Only the first record with the property is new. -/
theorem of_mem_updateFirst {b : α} (h : b ∈ updateFirst p f l) :
    b ∈ l ∨ ∃ a ∈ l, p a = true ∧ b = f a := by
  induction l with
  | nil => cases h
  | cons a l ih =>
      rw [updateFirst] at h
      cases hp : p a with
      | true =>
          rw [if_pos hp] at h
          rcases List.mem_cons.mp h with rfl | h
          · exact Or.inr ⟨a, List.mem_cons_self, hp, rfl⟩
          · exact Or.inl (List.mem_cons_of_mem _ h)
      | false =>
          rw [if_neg (by simp [hp])] at h
          rcases List.mem_cons.mp h with rfl | h
          · exact Or.inl List.mem_cons_self
          · rcases ih h with hl | ⟨a', ha', hpa', rfl⟩
            · exact Or.inl (List.mem_cons_of_mem _ hl)
            · exact Or.inr ⟨a', List.mem_cons_of_mem _ ha', hpa', rfl⟩

/-- What the edit leaves alone, it leaves alone in every record. -/
theorem map_updateFirst {g : α → β} (h : ∀ a, g (f a) = g a) :
    (updateFirst p f l).map g = l.map g := by
  induction l with
  | nil => rfl
  | cons a l ih =>
      rw [updateFirst]
      split
      · simp [h]
      · simp [ih]

/-- **The first record is found again**, and restoring it restores the list. -/
theorem updateFirst_revert {a : α} (h : l.find? p = some a) (hf : ∀ a, p (f a) = p a) :
    updateFirst p (fun _ => a) (updateFirst p f l) = l := by
  induction l with
  | nil => cases h
  | cons b l ih =>
      rw [List.find?_cons] at h
      cases hp : p b with
      | true =>
          rw [hp] at h
          obtain rfl : b = a := by simpa using h
          simp [updateFirst, hp, hf]
      | false =>
          rw [hp] at h
          simp [updateFirst, hp, ih h]

/-- **Taken out and put back.**  The list is the same exactly when no record
without the property comes after one with it. -/
theorem filter_append_filter :
    l.filter (fun a => !p a) ++ l.filter p = l ↔ l.Pairwise (fun a b => p a = true → p b = true) := by
  constructor
  · intro h
    rw [← h, List.pairwise_append]
    refine ⟨List.pairwise_of_forall_mem_list ?_, List.pairwise_of_forall_mem_list ?_, ?_⟩
    · intro a ha b _ hpa
      have := (List.mem_filter.mp ha).2
      simp [hpa] at this
    · intro a _ b hb _
      exact (List.mem_filter.mp hb).2
    · intro a _ b hb _
      exact (List.mem_filter.mp hb).2
  · intro h
    induction l with
    | nil => rfl
    | cons a l ih =>
        obtain ⟨ha, hl⟩ := List.pairwise_cons.mp h
        cases hp : p a with
        | true =>
            -- from here on every record has the property
            have hall : l.filter p = l := List.filter_eq_self.mpr (fun b hb => ha b hb hp)
            have hnone : l.filter (fun a => !p a) = [] := by
              rw [List.filter_eq_nil_iff]
              intro b hb
              simp [ha b hb hp]
            simp [hp, hall, hnone]
        | false => simp [hp, ih hl]

end Octos
