/-
# `Octos.Lib.StableSort` — sorting by a key

A sort by a key keeps the order of what has the same key.  So where the elements fall
into kinds that never share a key, it does not matter how the kinds are interleaved
beforehand:

    a₁ a₂ .. b₁ b₂ ..        b₁ a₁ b₂ a₂ ..        one result
-/
import Mathlib

namespace Octos

variable {α κ : Type} [LinearOrder κ] {key : α → κ}

/-- The stable sort by a key. -/
def sortByKey (key : α → κ) (xs : List α) : List α :=
  xs.insertionSort (fun a b => key a ≤ key b)

/-- In front of the first element whose key is not smaller. -/
def insertByKey (key : α → κ) (a : α) (xs : List α) : List α :=
  xs.orderedInsert (fun a b => key a ≤ key b) a

theorem sortByKey_cons (a : α) (xs : List α) :
    sortByKey key (a :: xs) = insertByKey key a (sortByKey key xs) :=
  rfl

theorem insertByKey_of_le {a b : α} (xs : List α) (h : key a ≤ key b) :
    insertByKey key a (b :: xs) = a :: b :: xs :=
  if_pos h

theorem insertByKey_of_lt {a b : α} (xs : List α) (h : key b < key a) :
    insertByKey key a (b :: xs) = b :: insertByKey key a xs :=
  if_neg (not_le.mpr h)

/-- What is sorted stays as it is. -/
theorem sortByKey_eq_self {xs : List α} (h : xs.Pairwise (fun a b => key a ≤ key b)) :
    sortByKey key xs = xs :=
  h.insertionSort_eq

/-- Elements with different keys may be inserted in either order. -/
theorem insertByKey_comm {a b : α} (h : key a < key b) : ∀ xs : List α,
    insertByKey key a (insertByKey key b xs) = insertByKey key b (insertByKey key a xs) := by
  intro xs
  induction xs with
  | nil =>
      show insertByKey key a (b :: []) = insertByKey key b (a :: [])
      rw [insertByKey_of_le _ h.le, insertByKey_of_lt _ h]
      rfl
  | cons x xs ih =>
      rcases le_or_gt (key b) (key x) with hb | hb
      · rw [insertByKey_of_le _ hb, insertByKey_of_le _ (h.le.trans hb), insertByKey_of_le _ h.le,
          insertByKey_of_lt _ h, insertByKey_of_le _ hb]
      · rcases le_or_gt (key a) (key x) with ha | ha
        · rw [insertByKey_of_lt _ hb, insertByKey_of_le _ ha, insertByKey_of_le _ ha,
            insertByKey_of_lt _ h, insertByKey_of_lt _ hb]
        · rw [insertByKey_of_lt _ hb, insertByKey_of_lt _ ha, insertByKey_of_lt _ ha,
            insertByKey_of_lt _ hb, ih]

theorem insertByKey_comm_of_ne {a b : α} (h : key a ≠ key b) (xs : List α) :
    insertByKey key a (insertByKey key b xs) = insertByKey key b (insertByKey key a xs) := by
  rcases lt_or_gt_of_ne h with hlt | hgt
  · exact insertByKey_comm hlt xs
  · exact (insertByKey_comm hgt xs).symm

/-- An element may be brought to the front past those with other keys. -/
theorem sortByKey_move {a : α} : ∀ {before after : List α}, (∀ b ∈ before, key b ≠ key a) →
    sortByKey key (before ++ a :: after) = sortByKey key (a :: (before ++ after)) := by
  intro before after
  induction before with
  | nil => exact fun _ => rfl
  | cons b before ih =>
      intro h
      have hrest : ∀ x ∈ before, key x ≠ key a := fun x hx => h x (List.mem_cons_of_mem _ hx)
      rw [List.cons_append, sortByKey_cons, ih hrest, sortByKey_cons,
        insertByKey_comm_of_ne (h b List.mem_cons_self)]
      rfl

/-- Only the order within each kind counts. -/
theorem sortByKey_eq_of_filter {kind : α → Bool} (hkind : ∀ a b, kind a ≠ kind b → key a ≠ key b) :
    ∀ {xs ys : List α},
      (∀ c, xs.filter (fun x => kind x == c) = ys.filter (fun x => kind x == c)) →
        sortByKey key xs = sortByKey key ys := by
  intro xs
  induction xs with
  | nil =>
      intro ys h
      cases ys with
      | nil => rfl
      | cons y ys =>
          have hself : (kind y == kind y) = true := beq_self_eq_true _
          have hy := h (kind y)
          rw [List.filter_nil, List.filter_cons, if_pos hself] at hy
          cases hy
  | cons a xs ih =>
      intro ys h
      have hself : (kind a == kind a) = true := beq_self_eq_true _
      have ha := h (kind a)
      rw [List.filter_cons, if_pos hself] at ha
      obtain ⟨before, after, rfl, hbefore, -, hafter⟩ := List.filter_eq_cons_iff.mp ha.symm
      have hother : ∀ b ∈ before, kind b ≠ kind a := by
        intro b hb heq
        exact hbefore b hb (beq_iff_eq.mpr heq)
      have hmove : sortByKey key (before ++ a :: after) = sortByKey key (a :: (before ++ after)) :=
        sortByKey_move (fun b hb => hkind b a (hother b hb))
      rw [hmove, sortByKey_cons, sortByKey_cons]
      refine congrArg _ (ih ?_)
      intro c
      have hc := h c
      by_cases hac : kind a = c
      · rw [← hac, List.filter_append, ← hafter]
        have hnone : before.filter (fun x => kind x == kind a) = [] := by
          refine List.filter_eq_nil_iff.mpr ?_
          intro b hb hbeq
          exact hother b hb (beq_iff_eq.mp hbeq)
        rw [hnone, List.nil_append]
      · have hneg : ¬ (kind a == c) = true := fun hbeq => hac (beq_iff_eq.mp hbeq)
        rw [List.filter_cons, if_neg hneg, List.filter_append, List.filter_cons, if_neg hneg,
          ← List.filter_append] at hc
        exact hc

end Octos
