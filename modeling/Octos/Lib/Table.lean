/-
# `Octos.Lib.Table` — ordered tables and weighted totals over their rows

An embedded key-value table is an ordered map with extensional equality:
`Std.ExtTreeMap`, whose `toList` is the key-ordered iteration a cursor gives.
Lookup, insertion and extensionality are the library's.  What is added here is
the bookkeeping every ledger invariant needs: the total of a weight over all
rows of a table, and how one insertion moves it.

    (t.insert k v).total w + weight of the row that was at k = t.total w + w v

The equation is stated additively so that it covers a new key and an
overwritten key at once and never subtracts.
-/
import Mathlib

namespace Octos

/-- An ordered table: rows of type `α` under keys of type `κ`. -/
abbrev Table (κ α : Type) [Ord κ] := Std.ExtTreeMap κ α compare

namespace Table

variable {κ α : Type} [Ord κ] [Std.TransOrd κ]

/-- The total of the weight `w` over all rows. -/
def total (w : α → Nat) (t : Table κ α) : Nat :=
  (t.toList.map (fun r => w r.2)).sum

/-- What an optional row weighs. -/
def weight (w : α → Nat) (o : Option α) : Nat :=
  (o.map w).getD 0

@[simp] theorem weight_none (w : α → Nat) : weight w none = 0 := rfl
@[simp] theorem weight_some (w : α → Nat) (v : α) : weight w (some v) = w v := rfl

@[simp] theorem total_empty (w : α → Nat) : total w (∅ : Table κ α) = 0 := by
  have h : (∅ : Table κ α).toList = [] := Std.ExtTreeMap.toList_eq_nil_iff.mpr rfl
  simp [total, h]

/-- Totals add up. -/
theorem total_add (w w' : α → Nat) (t : Table κ α) :
    total (fun v => w v + w' v) t = total w t + total w' t :=
  List.sum_map_add

variable [Std.LawfulEqOrd κ]

/-- Iteration yields exactly the stored rows. -/
theorem mem_rows {t : Table κ α} {k : κ} {v : α} : (k, v) ∈ t.toList ↔ t[k]? = some v :=
  Std.ExtTreeMap.mem_toList_iff_getElem?_eq_some

/-- No key is iterated twice. -/
theorem rows_keys_nodup (t : Table κ α) : (t.toList.map Prod.fst).Nodup := by
  rw [List.Nodup, List.pairwise_map]
  refine t.distinct_keys_toList.imp ?_
  intro a b hab
  simpa [Std.LawfulEqOrd.compare_eq_iff_eq] using hab

theorem rows_nodup (t : Table κ α) : t.toList.Nodup :=
  (rows_keys_nodup t).of_map

/-- The first row with a property has the least key of all such rows. -/
theorem find_rows_least {t : Table κ α} {p : κ × α → Bool} {k j : κ} {v w : α}
    (h : t.toList.find? p = some (k, v)) (hj : t[j]? = some w) (hp : p (j, w) = true) :
    j = k ∨ compare k j = .lt := by
  obtain ⟨-, pre, post, hrows, hpre⟩ := List.find?_eq_some_iff_append.mp h
  have hsorted := t.ordered_keys_toList
  have hmem := mem_rows.mpr hj
  rw [hrows] at hmem hsorted
  rcases List.mem_append.mp hmem with hin | hin
  · have hfalse := hpre _ hin
    rw [hp] at hfalse
    cases hfalse
  · rcases List.mem_cons.mp hin with heq | hin
    · exact Or.inl (Prod.mk.inj heq).1
    · exact Or.inr ((List.pairwise_cons.mp (List.pairwise_append.mp hsorted).2.1).1 _ hin)

/-- One row weighs at most the total. -/
theorem weight_le_total (w : α → Nat) {t : Table κ α} {k : κ} {v : α} (h : t[k]? = some v) :
    w v ≤ total w t := by
  have hm : w v ∈ t.toList.map (fun r => w r.2) :=
    List.mem_map.mpr ⟨(k, v), mem_rows.mpr h, rfl⟩
  exact List.single_le_sum (fun _ _ => Nat.zero_le _) _ hm

theorem total_eq_zero {w : α → Nat} {t : Table κ α}
    (h : ∀ (k : κ) (v : α), t[k]? = some v → w v = 0) :
    total w t = 0 := by
  refine List.sum_eq_zero ?_
  intro n hn
  obtain ⟨⟨k, v⟩, hm, rfl⟩ := List.mem_map.mp hn
  exact h k v (mem_rows.mp hm)

variable [DecidableEq κ]

/-- Lookup after an insertion, with equality of keys in place of `compare`. -/
theorem get_insert (t : Table κ α) (k j : κ) (v : α) :
    (t.insert k v)[j]? = if k = j then some v else t[j]? := by
  rw [Std.ExtTreeMap.getElem?_insert]
  simp only [Std.LawfulEqOrd.compare_eq_iff_eq]

theorem get_insert_self (t : Table κ α) (k : κ) (v : α) : (t.insert k v)[k]? = some v := by
  rw [get_insert, if_pos rfl]

theorem get_insert_ne (t : Table κ α) {k j : κ} (v : α) (h : k ≠ j) :
    (t.insert k v)[j]? = t[j]? := by
  rw [get_insert, if_neg h]

/-- A row found after an insertion is the new one or was there before. -/
theorem of_get_insert {t : Table κ α} {k j : κ} {v w : α} (h : (t.insert k v)[j]? = some w) :
    k = j ∧ v = w ∨ k ≠ j ∧ t[j]? = some w := by
  rw [get_insert] at h
  split at h
  · next hk => exact Or.inl ⟨hk, Option.some.inj h⟩
  · next hk => exact Or.inr ⟨hk, h⟩

/-- An insertion removes no key. -/
theorem exists_insert {t : Table κ α} {j : κ} (k : κ) (v : α) (h : ∃ w, t[j]? = some w) :
    ∃ w, (t.insert k v)[j]? = some w := by
  rw [get_insert]
  split
  · exact ⟨v, rfl⟩
  · exact h

theorem get_erase (t : Table κ α) (k j : κ) :
    (t.erase k)[j]? = if k = j then none else t[j]? := by
  rw [Std.ExtTreeMap.getElem?_erase]
  simp only [Std.LawfulEqOrd.compare_eq_iff_eq]

/-- Erasing a list of keys leaves the rows under the others. -/
theorem get_foldl_erase (ks : List κ) (t : Table κ α) (j : κ) :
    (ks.foldl (fun t k => t.erase k) t)[j]? = if j ∈ ks then none else t[j]? := by
  induction ks generalizing t with
  | nil => simp
  | cons k ks ih =>
      rw [List.foldl_cons, ih, get_erase]
      by_cases hj : j ∈ ks
      · simp [hj]
      · by_cases hk : k = j
        · simp [hk]
        · simp [hj, hk, Ne.symm hk]

/-- Writing back the row that is already there changes nothing. -/
theorem insert_same {t : Table κ α} {k : κ} {v : α} (h : t[k]? = some v) :
    t.insert k v = t := by
  apply Std.ExtTreeMap.ext_getElem?
  intro j
  rw [get_insert]
  split
  · next hk => rw [← hk, h]
  · rfl

/-- The rows after an insertion, up to order: the new row and every row that
was under another key. -/
theorem rows_insert_perm (t : Table κ α) (k : κ) (v : α) :
    (t.insert k v).toList.Perm ((k, v) :: t.toList.filter (fun r => decide (r.1 ≠ k))) := by
  have hnd : ((k, v) :: t.toList.filter (fun r => decide (r.1 ≠ k))).Nodup := by
    refine List.nodup_cons.mpr ⟨?_, (rows_nodup t).filter _⟩
    simp
  refine (List.perm_ext_iff_of_nodup (rows_nodup _) hnd).mpr ?_
  rintro ⟨j, u⟩
  rw [mem_rows, get_insert]
  by_cases hk : k = j
  · subst hk
    simp [eq_comm]
  · simp only [if_neg hk, List.mem_cons, Prod.mk.injEq, List.mem_filter, mem_rows,
      decide_eq_true_eq]
    constructor
    · intro hj
      exact Or.inr ⟨hj, fun h => hk h.symm⟩
    · rintro (⟨h, -⟩ | ⟨hj, -⟩)
      · exact absurd h.symm hk
      · exact hj

omit [Std.TransOrd κ] [Std.LawfulEqOrd κ] [Ord κ] in
/-- Splitting a list of rows with distinct keys at one key. -/
theorem sum_split (w : α → Nat) (k : κ) :
    ∀ (l : List (κ × α)), (l.map Prod.fst).Nodup →
      (l.map (fun r => w r.2)).sum =
        ((l.filter (fun r => decide (r.1 ≠ k))).map (fun r => w r.2)).sum +
          weight w ((l.find? (fun r => decide (r.1 = k))).map Prod.snd)
  | [], _ => rfl
  | (j, v) :: l, hnd => by
      simp only [List.map_cons, List.nodup_cons] at hnd
      have ih := sum_split w k l hnd.2
      by_cases hj : j = k
      · subst hj
        -- no other row of `l` carries this key, so nothing else is filtered out
        have hall : l.filter (fun r => decide (r.1 ≠ j)) = l := by
          refine List.filter_eq_self.mpr ?_
          intro r hr
          simp only [ne_eq, decide_not, Bool.not_eq_true', decide_eq_false_iff_not]
          intro hrj
          exact hnd.1 (hrj ▸ List.mem_map_of_mem hr)
        simp only [List.map_cons, List.sum_cons, List.filter_cons, ne_eq, not_true_eq_false,
          decide_false, Bool.false_eq_true, if_false, List.find?_cons, decide_true,
          Option.map_some, weight_some]
        simp only [ne_eq] at hall
        rw [hall, Nat.add_comm]
      · simp only [List.map_cons, List.sum_cons, List.filter_cons, ne_eq, hj,
          not_false_eq_true, decide_true, if_true, List.find?_cons, decide_false]
        simp only [ne_eq] at ih
        omega

/-- Lookup is the first (and only) row under the key. -/
theorem find_rows (t : Table κ α) (k : κ) :
    (t.toList.find? (fun r => decide (r.1 = k))).map Prod.snd = t[k]? := by
  cases hf : t.toList.find? (fun r => decide (r.1 = k)) with
  | none =>
      cases hg : t[k]? with
      | none => rfl
      | some v =>
          have hm := mem_rows.mpr hg
          exact absurd (by simp) (List.find?_eq_none.mp hf _ hm)
  | some r =>
      obtain ⟨j, v⟩ := r
      have hm := List.mem_of_find?_eq_some hf
      have hk : j = k := by simpa using List.find?_some hf
      subst hk
      exact (mem_rows.mp hm).symm

/-- **How an insertion moves a total.** -/
theorem total_insert (w : α → Nat) (t : Table κ α) (k : κ) (v : α) :
    total w (t.insert k v) + weight w t[k]? = total w t + w v := by
  have hp := ((rows_insert_perm t k v).map (fun r => w r.2)).sum_eq
  have hs := sum_split w k t.toList (rows_keys_nodup t)
  rw [find_rows] at hs
  simp only [List.map_cons, List.sum_cons] at hp
  simp only [total]
  omega

/-- A total is a sum over any finite set of keys that covers the table. -/
theorem total_eq_sum (w : α → Nat) (t : Table κ α) (S : Finset κ)
    (hS : ∀ k v, t[k]? = some v → k ∈ S) : total w t = ∑ k ∈ S, weight w t[k]? := by
  have hsub : (t.toList.map Prod.fst).toFinset ⊆ S := by
    intro k hk
    obtain ⟨⟨j, v⟩, hm, rfl⟩ := List.mem_map.mp (List.mem_toFinset.mp hk)
    exact hS j v (mem_rows.mp hm)
  have hout : ∀ k ∈ S, k ∉ (t.toList.map Prod.fst).toFinset → weight w t[k]? = 0 := by
    intro k _ hk
    cases hg : t[k]? with
    | none => rfl
    | some v =>
        exact absurd (List.mem_toFinset.mpr (List.mem_map.mpr ⟨(k, v), mem_rows.mpr hg, rfl⟩)) hk
  rw [← Finset.sum_subset hsub hout, List.sum_toFinset _ (rows_keys_nodup t), List.map_map]
  refine congrArg List.sum (List.map_congr_left ?_)
  rintro ⟨k, v⟩ hm
  simp [mem_rows.mp hm]

/-- Two tables whose rows weigh the same key by key have the same total. -/
theorem total_congr {w w' : α → Nat} {t t' : Table κ α}
    (h : ∀ k : κ, weight w t[k]? = weight w' t'[k]?) : total w t = total w' t' := by
  let S := (t.toList.map Prod.fst).toFinset ∪ (t'.toList.map Prod.fst).toFinset
  have hcov : ∀ u : Table κ α, (u.toList.map Prod.fst).toFinset ⊆ S →
      ∀ k v, u[k]? = some v → k ∈ S := by
    intro u hu k v hk
    exact hu (List.mem_toFinset.mpr (List.mem_map.mpr ⟨(k, v), mem_rows.mpr hk, rfl⟩))
  rw [total_eq_sum w t S (hcov t Finset.subset_union_left),
    total_eq_sum w' t' S (hcov t' Finset.subset_union_right)]
  exact Finset.sum_congr rfl (fun k _ => h k)

end Table

end Octos
