/-
# `Octos.Lib.EditDistance` — the edit distance of two lists

The distance by recursion, from the front:

    distance [] b              all of b is inserted
    distance a []              all of a is deleted
    distance (x :: a) (y :: b) the best of deleting x, inserting y, and putting y for x,
                               which is free if they are the same

It is the least cost of a way of editing one list into the other.  Ways of editing can be
turned around, read from the back, put behind each other, and composed; what the distance
inherits from that is that it is symmetric, that it can be computed from the back, and
the triangle inequality.
-/
import Mathlib

namespace Octos.Edit

variable {α : Type}

/-! ## Ways of editing -/

/-- `Edits n a b`: there is a way from `a` to `b` that costs `n`. -/
inductive Edits : Nat → List α → List α → Prop
  | nil : Edits 0 [] []
  | delete {n : Nat} {a b : List α} (x : α) : Edits n a b → Edits (n + 1) (x :: a) b
  | insert {n : Nat} {a b : List α} (y : α) : Edits n a b → Edits (n + 1) a (y :: b)
  | keep {n : Nat} {a b : List α} (x : α) : Edits n a b → Edits n (x :: a) (x :: b)
  | substitute {n : Nat} {a b : List α} (x y : α) : Edits n a b → Edits (n + 1) (x :: a) (y :: b)

namespace Edits

variable {m n : Nat} {a b c d : List α}

theorem inserts : ∀ b : List α, Edits b.length [] b := by
  intro b
  induction b with
  | nil => exact .nil
  | cons y b ih => exact .insert y ih

/-- What is inserted one way is deleted the other. -/
theorem symm (h : Edits n a b) : Edits n b a := by
  induction h with
  | nil => exact .nil
  | delete x _ ih => exact .insert x ih
  | insert y _ ih => exact .delete y ih
  | keep x _ ih => exact .keep x ih
  | substitute x y _ ih => exact .substitute y x ih

theorem append (h : Edits m a b) (h' : Edits n c d) : Edits (m + n) (a ++ c) (b ++ d) := by
  induction h with
  | nil =>
      rw [Nat.zero_add]
      exact h'
  | delete x _ ih =>
      rw [Nat.add_right_comm]
      exact .delete x ih
  | insert y _ ih =>
      rw [Nat.add_right_comm]
      exact .insert y ih
  | keep x _ ih => exact .keep x ih
  | substitute x y _ ih =>
      rw [Nat.add_right_comm]
      exact .substitute x y ih

/-- The way read from the back. -/
theorem reverse (h : Edits n a b) : Edits n a.reverse b.reverse := by
  induction h with
  | nil => exact .nil
  | delete x _ ih =>
      have hmore := ih.append (.delete x .nil)
      rw [List.append_nil, ← List.reverse_cons] at hmore
      exact hmore
  | insert y _ ih =>
      have hmore := ih.append (.insert y .nil)
      rw [List.append_nil, ← List.reverse_cons] at hmore
      exact hmore
  | keep x _ ih =>
      have hmore := ih.append (.keep x .nil)
      rw [← List.reverse_cons, ← List.reverse_cons] at hmore
      exact hmore
  | substitute x y _ ih =>
      have hmore := ih.append (.substitute x y .nil)
      rw [← List.reverse_cons, ← List.reverse_cons] at hmore
      exact hmore

/-- What can happen to the first element, after insertions in front of it. -/
theorem head {y : α} {P : Nat → List α → Prop} (hinsert : ∀ n z c, P n c → P (n + 1) (z :: c))
    (hdelete : ∀ n c, Edits n b c → P (n + 1) c) (hkeep : ∀ n c, Edits n b c → P n (y :: c))
    (hsubstitute : ∀ n z c, Edits n b c → P (n + 1) (z :: c)) (h : Edits n (y :: b) c) : P n c := by
  generalize hyb : y :: b = yb at h
  induction h with
  | nil => cases hyb
  | delete _ hrest _ =>
      obtain ⟨-, rfl⟩ := List.cons.inj hyb
      exact hdelete _ _ hrest
  | insert z _ ih => exact hinsert _ z _ (ih hyb)
  | keep _ hrest _ =>
      obtain ⟨rfl, rfl⟩ := List.cons.inj hyb
      exact hkeep _ _ hrest
  | substitute _ z hrest _ =>
      obtain ⟨-, rfl⟩ := List.cons.inj hyb
      exact hsubstitute _ z _ hrest

/-- One way after another costs no more than both. -/
theorem trans (h : Edits m a b) : ∀ {n : Nat} {c : List α}, Edits n b c → ∃ k ≤ m + n, Edits k a c := by
  induction h with
  | nil =>
      intro n c h'
      exact ⟨n, by omega, h'⟩
  | delete x _ ih =>
      intro n c h'
      obtain ⟨k, hk, hedits⟩ := ih h'
      exact ⟨k + 1, by omega, .delete x hedits⟩
  | @insert m a b y _ ih =>
      intro n c h'
      refine head (P := fun n c => ∃ k ≤ m + 1 + n, Edits k a c) ?_ ?_ ?_ ?_ h'
      · rintro n z c ⟨k, hk, hedits⟩
        exact ⟨k + 1, by omega, .insert z hedits⟩
      · intro n c hrest
        obtain ⟨k, hk, hedits⟩ := ih hrest
        exact ⟨k, by omega, hedits⟩
      · intro n c hrest
        obtain ⟨k, hk, hedits⟩ := ih hrest
        exact ⟨k + 1, by omega, .insert y hedits⟩
      · intro n z c hrest
        obtain ⟨k, hk, hedits⟩ := ih hrest
        exact ⟨k + 1, by omega, .insert z hedits⟩
  | @keep m a b x _ ih =>
      intro n c h'
      refine head (P := fun n c => ∃ k ≤ m + n, Edits k (x :: a) c) ?_ ?_ ?_ ?_ h'
      · rintro n z c ⟨k, hk, hedits⟩
        exact ⟨k + 1, by omega, .insert z hedits⟩
      · intro n c hrest
        obtain ⟨k, hk, hedits⟩ := ih hrest
        exact ⟨k + 1, by omega, .delete x hedits⟩
      · intro n c hrest
        obtain ⟨k, hk, hedits⟩ := ih hrest
        exact ⟨k, by omega, .keep x hedits⟩
      · intro n z c hrest
        obtain ⟨k, hk, hedits⟩ := ih hrest
        exact ⟨k + 1, by omega, .substitute x z hedits⟩
  | @substitute m a b x y _ ih =>
      intro n c h'
      refine head (P := fun n c => ∃ k ≤ m + 1 + n, Edits k (x :: a) c) ?_ ?_ ?_ ?_ h'
      · rintro n z c ⟨k, hk, hedits⟩
        exact ⟨k + 1, by omega, .insert z hedits⟩
      · intro n c hrest
        obtain ⟨k, hk, hedits⟩ := ih hrest
        exact ⟨k + 1, by omega, .delete x hedits⟩
      · intro n c hrest
        obtain ⟨k, hk, hedits⟩ := ih hrest
        exact ⟨k + 1, by omega, .substitute x y hedits⟩
      · intro n z c hrest
        obtain ⟨k, hk, hedits⟩ := ih hrest
        exact ⟨k + 1, by omega, .substitute x z hedits⟩

end Edits

/-! ## The distance -/

variable [DecidableEq α]

/-- The edit distance, with every edit at cost one. -/
def editDistance : List α → List α → Nat
  | [], b => b.length
  | x :: a, [] => (x :: a).length
  | x :: a, y :: b =>
      min (min (editDistance a (y :: b) + 1) (editDistance (x :: a) b + 1))
        (editDistance a b + if x = y then 0 else 1)
  termination_by a b => a.length + b.length

variable {a b : List α}

@[simp] theorem editDistance_nil (b : List α) : editDistance [] b = b.length := by
  rw [editDistance]

@[simp] theorem editDistance_nil_right (a : List α) : editDistance a [] = a.length := by
  cases a <;> rw [editDistance]

theorem editDistance_cons (x y : α) (a b : List α) : editDistance (x :: a) (y :: b) =
    min (min (editDistance a (y :: b) + 1) (editDistance (x :: a) b + 1))
      (editDistance a b + if x = y then 0 else 1) := by
  rw [editDistance]

theorem editDistance_delete (x : α) (a b : List α) : editDistance (x :: a) b ≤ editDistance a b + 1 := by
  cases b with
  | nil => simp
  | cons y b =>
      rw [editDistance_cons]
      omega

theorem editDistance_insert (y : α) (a b : List α) : editDistance a (y :: b) ≤ editDistance a b + 1 := by
  cases a with
  | nil => simp
  | cons x a =>
      rw [editDistance_cons]
      omega

/-- The distance is the cost of a way .. -/
theorem edits_editDistance (a b : List α) : Edits (editDistance a b) a b := by
  induction a, b using editDistance.induct with
  | case1 b =>
      rw [editDistance_nil]
      exact .inserts b
  | case2 x a =>
      rw [editDistance_nil_right]
      exact (Edits.inserts (x :: a)).symm
  | case3 x a y b ihdelete ihinsert ihboth =>
      rw [editDistance_cons]
      rcases min_choice (min (editDistance a (y :: b) + 1) (editDistance (x :: a) b + 1))
        (editDistance a b + if x = y then 0 else 1) with h | h
      · rcases min_choice (editDistance a (y :: b) + 1) (editDistance (x :: a) b + 1) with h' | h'
        · rw [h, h']
          exact .delete x ihdelete
        · rw [h, h']
          exact .insert y ihinsert
      · rw [h]
        split
        · next heq =>
            rw [heq]
            exact .keep y ihboth
        · exact .substitute x y ihboth

/-- .. and no way costs less. -/
theorem editDistance_le {n : Nat} (h : Edits n a b) : editDistance a b ≤ n := by
  induction h with
  | nil => exact (editDistance_nil []).le
  | delete x _ ih => exact (editDistance_delete x _ _).trans (Nat.add_le_add_right ih 1)
  | insert y _ ih => exact (editDistance_insert y _ _).trans (Nat.add_le_add_right ih 1)
  | keep x _ ih =>
      rw [editDistance_cons, if_pos rfl]
      omega
  | substitute x y _ ih =>
      rw [editDistance_cons]
      split <;> omega

theorem editDistance_comm (a b : List α) : editDistance a b = editDistance b a :=
  Nat.le_antisymm (editDistance_le (edits_editDistance b a).symm) (editDistance_le (edits_editDistance a b).symm)

theorem editDistance_triangle (a b c : List α) : editDistance a c ≤ editDistance a b + editDistance b c := by
  obtain ⟨k, hk, hedits⟩ := (edits_editDistance a b).trans (edits_editDistance b c)
  exact (editDistance_le hedits).trans hk

theorem editDistance_reverse (a b : List α) : editDistance a.reverse b.reverse = editDistance a b := by
  refine Nat.le_antisymm (editDistance_le (edits_editDistance a b).reverse) ?_
  have hback := (edits_editDistance a.reverse b.reverse).reverse
  rw [List.reverse_reverse, List.reverse_reverse] at hback
  exact editDistance_le hback

/-- **The recursion from the back.** -/
theorem editDistance_concat (x y : α) (a b : List α) : editDistance (a ++ [x]) (b ++ [y]) =
    min (min (editDistance a (b ++ [y]) + 1) (editDistance (a ++ [x]) b + 1))
      (editDistance a b + if x = y then 0 else 1) := by
  have hback := editDistance_cons x y a.reverse b.reverse
  rw [← List.reverse_concat, ← List.reverse_concat] at hback
  simp only [editDistance_reverse] at hback
  exact hback

end Octos.Edit
