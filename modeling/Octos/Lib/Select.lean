/-
# `Octos.Lib.Select` — the best of a list

`max_by` and `min_by` of an iterator go through it with the best so far in hand.  Of
entries that compare equal the first takes the last and the second the first; where no
two do, the order of the list does not matter.
-/
import Mathlib

namespace Octos

variable {α : Type}

/-- The one that is kept, of the best so far and the next. -/
def keepOne (keep : α → α → Bool) (x y : α) : α :=
  if keep x y then x else y

/-- Goes through a list with the best so far in hand. -/
def selectBy (keep : α → α → Bool) : List α → Option α
  | [] => none
  | a :: as => some (as.foldl (keepOne keep) a)

/-- `Iterator::max_by` -/
def maxBy (cmp : α → α → Ordering) : List α → Option α :=
  selectBy (fun x y => cmp x y == .gt)

/-- `Iterator::min_by` -/
def minBy (cmp : α → α → Ordering) : List α → Option α :=
  selectBy (fun x y => cmp x y != .gt)

/-- The best of a list is in it, and nothing in it is better. -/
structure IsBest (le : α → α → Prop) (as : List α) (m : α) : Prop where
  mem : m ∈ as
  le : ∀ a ∈ as, le a m

/-- What is kept of two is as good as both. -/
structure Keeps (le : α → α → Prop) (keep : α → α → Bool) : Prop where
  refl : ∀ a, le a a
  trans : ∀ a b c, le a b → le b c → le a c
  left : ∀ a b, le a (keepOne keep a b)
  right : ∀ a b, le b (keepOne keep a b)

variable {le : α → α → Prop} {keep : α → α → Bool} {cmp : α → α → Ordering} {as bs : List α} {m n : α}

theorem keepOne_eq (keep : α → α → Bool) (a b : α) : keepOne keep a b = a ∨ keepOne keep a b = b := by
  rw [keepOne]
  split
  · exact .inl rfl
  · exact .inr rfl

theorem foldl_isBest (h : Keeps le keep) : ∀ (as : List α) (a : α), IsBest le (a :: as) (as.foldl (keepOne keep) a) := by
  intro as
  induction as with
  | nil =>
      intro a
      refine ⟨List.mem_cons_self, ?_⟩
      intro x hx
      rw [List.mem_singleton.mp hx]
      exact h.refl a
  | cons b as ih =>
      intro a
      obtain ⟨hmem, hle⟩ := ih (keepOne keep a b)
      have hnext := hle _ List.mem_cons_self
      rw [List.foldl_cons]
      refine ⟨?_, ?_⟩
      · rcases List.mem_cons.mp hmem with hm | hm
        · rw [hm]
          rcases keepOne_eq keep a b with hk | hk
          · rw [hk]
            exact List.mem_cons_self
          · rw [hk]
            exact List.mem_cons_of_mem _ List.mem_cons_self
        · exact List.mem_cons_of_mem _ (List.mem_cons_of_mem _ hm)
      · intro x hx
        rcases List.mem_cons.mp hx with rfl | hx
        · exact h.trans _ _ _ (h.left _ _) hnext
        · rcases List.mem_cons.mp hx with rfl | hx
          · exact h.trans _ _ _ (h.right _ _) hnext
          · exact hle x (List.mem_cons_of_mem _ hx)

theorem selectBy_isBest (h : Keeps le keep) (hm : selectBy keep as = some m) : IsBest le as m := by
  cases as with
  | nil => cases hm
  | cons a as =>
      obtain rfl := Option.some.inj hm
      exact foldl_isBest h as a

/-- What is selected is in the list, whatever is kept. -/
theorem selectBy_mem (hm : selectBy keep as = some m) : m ∈ as := by
  have hany : Keeps (fun _ _ => True) keep :=
    ⟨fun _ => trivial, fun _ _ _ _ _ => trivial, fun _ _ => trivial, fun _ _ => trivial⟩
  exact (selectBy_isBest hany hm).mem

theorem selectBy_isSome (hne : as ≠ []) : ∃ m, selectBy keep as = some m := by
  cases as with
  | nil => exact absurd rfl hne
  | cons a as => exact ⟨_, rfl⟩

/-- **Without ties the order of the list does not matter.** -/
theorem selectBy_perm (h : Keeps le keep) (hanti : ∀ a ∈ as, ∀ b ∈ as, le a b → le b a → a = b)
    (hperm : as.Perm bs) : selectBy keep as = selectBy keep bs := by
  by_cases hne : as = []
  · rw [hne] at hperm
    rw [hne, hperm.nil_eq]
  · have hbs : bs ≠ [] := by
      rintro rfl
      exact hne hperm.eq_nil
    obtain ⟨m, hm⟩ := @selectBy_isSome _ keep _ hne
    obtain ⟨n, hn⟩ := @selectBy_isSome _ keep _ hbs
    have hmBest := selectBy_isBest h hm
    have hnBest := selectBy_isBest h hn
    have hnas : n ∈ as := hperm.mem_iff.mpr hnBest.mem
    rw [hm, hn, hanti m hmBest.mem n hnas (hnBest.le m (hperm.mem_iff.mp hmBest.mem)) (hmBest.le n hnas)]

/-- A map that respects the choice goes through it. -/
theorem selectBy_map {β : Type} {keep' : β → β → Bool} (f : α → β) (hf : ∀ a b, keep' (f a) (f b) = keep a b) :
    selectBy keep' (as.map f) = (selectBy keep as).map f := by
  have hone : ∀ a b, keepOne keep' (f a) (f b) = f (keepOne keep a b) := by
    intro a b
    rw [keepOne, keepOne, hf]
    split <;> rfl
  have hall : ∀ (as : List α) (a : α), (as.map f).foldl (keepOne keep') (f a) = f (as.foldl (keepOne keep) a) := by
    intro as
    induction as with
    | nil => exact fun _ => rfl
    | cons b as ih =>
        intro a
        rw [List.map_cons, List.foldl_cons, List.foldl_cons, hone, ih]
  cases as with
  | nil => rfl
  | cons a as => exact congrArg some (hall as a)

/-! ## Comparisons -/

variable [Std.TransCmp cmp]

theorem keeps_max : Keeps (fun a b => (cmp a b).isLE = true) (fun x y => cmp x y == .gt) where
  refl _ := Std.ReflCmp.isLE_rfl
  trans _ _ _ := Std.TransCmp.isLE_trans
  left a b := by
    rw [keepOne]
    split
    · exact Std.ReflCmp.isLE_rfl
    · next h => cases hcmp : cmp a b <;> simp_all
  right a b := by
    rw [keepOne]
    split
    · next h =>
        rw [@Std.OrientedCmp.eq_swap _ cmp _, beq_iff_eq.mp h]
        rfl
    · exact Std.ReflCmp.isLE_rfl

theorem keeps_min : Keeps (fun a b => (cmp b a).isLE = true) (fun x y => cmp x y != .gt) where
  refl _ := Std.ReflCmp.isLE_rfl
  trans _ _ _ hab hbc := Std.TransCmp.isLE_trans hbc hab
  left a b := by
    rw [keepOne]
    split
    · exact Std.ReflCmp.isLE_rfl
    · next h =>
        have hgt : cmp a b = .gt := by simpa using h
        rw [@Std.OrientedCmp.eq_swap _ cmp _, hgt]
        rfl
  right a b := by
    rw [keepOne]
    split
    · next h => cases hcmp : cmp a b <;> simp_all
    · exact Std.ReflCmp.isLE_rfl

end Octos
