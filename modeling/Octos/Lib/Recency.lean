/-
# `Octos.Lib.Recency` — a map of bounded size that drops its oldest keys

The entries are a hash map; beside it the keys are listed, the one written
longest ago first.  Writing a key moves it to the end of the list and then
drops keys from the front until the map is within its capacity.

What an operation does to a key that it does not name is one of two things:
nothing, or the key is gone.
-/
import Mathlib

namespace Octos

/-- Entries under keys, and the keys in the order of their last write. -/
structure Recency (κ α : Type) [DecidableEq κ] [Hashable κ] where
  entries : Std.ExtHashMap κ α
  order : List κ

namespace Recency

variable {κ α : Type} [DecidableEq κ] [Hashable κ]

def empty : Recency κ α := ⟨∅, []⟩

/-- Drop keys from the front of the list while the map is over its capacity.
With no key left to drop and the map still over it, everything is dropped. -/
def evict (capacity : Nat) (entries : Std.ExtHashMap κ α) : List κ → Recency κ α
  | [] => if capacity < entries.size then empty else ⟨entries, []⟩
  | oldest :: order =>
      if capacity < entries.size then evict capacity (entries.erase oldest) order
      else ⟨entries, oldest :: order⟩

/-- Move `key` to the fresh end and drop what is over the capacity. -/
def touchAndEvict (capacity : Nat) (m : Recency κ α) (key : κ) : Recency κ α :=
  evict capacity m.entries (m.order.filter (fun k => k ≠ key) ++ [key])

/-- Write an entry. -/
def insert (capacity : Nat) (m : Recency κ α) (key : κ) (v : α) : Recency κ α :=
  touchAndEvict capacity { m with entries := m.entries.insert key v } key

/-- Drop an entry. -/
def remove (m : Recency κ α) (key : κ) : Recency κ α :=
  ⟨m.entries.erase key, m.order.filter (fun k => k ≠ key)⟩

/-! ## Keys that an operation does not name -/

theorem get_evict (capacity : Nat) (k : κ) :
    ∀ (order : List κ) (entries : Std.ExtHashMap κ α),
      (evict capacity entries order).entries[k]? = entries[k]? ∨
        (evict capacity entries order).entries[k]? = none
  | [], entries => by
      unfold evict
      split
      · exact Or.inr (by simp [empty])
      · exact Or.inl rfl
  | oldest :: order, entries => by
      unfold evict
      split
      · rcases get_evict capacity k order (entries.erase oldest) with h | h
        · rw [h, Std.ExtHashMap.getElem?_erase]
          split
          · exact Or.inr rfl
          · exact Or.inl rfl
        · exact Or.inr h
      · exact Or.inl rfl

/-- After a write the key reads as written, unless it was dropped at once. -/
theorem get_insert_self (capacity : Nat) (m : Recency κ α) (key : κ) (v : α) :
    (m.insert capacity key v).entries[key]? = some v ∨
      (m.insert capacity key v).entries[key]? = none := by
  have h := get_evict capacity key (m.order.filter (fun k => k ≠ key) ++ [key])
    (m.entries.insert key v)
  rwa [Std.ExtHashMap.getElem?_insert_self] at h

/-- After a write another key reads as before, unless it was dropped. -/
theorem get_insert_ne (capacity : Nat) (m : Recency κ α) {key k : κ} (v : α) (hk : k ≠ key) :
    (m.insert capacity key v).entries[k]? = m.entries[k]? ∨
      (m.insert capacity key v).entries[k]? = none := by
  have h := get_evict capacity k (m.order.filter (fun k => k ≠ key) ++ [key])
    (m.entries.insert key v)
  rwa [Std.ExtHashMap.getElem?_insert, if_neg (by simpa using Ne.symm hk)] at h

theorem get_remove_self (m : Recency κ α) (key : κ) : (m.remove key).entries[key]? = none :=
  Std.ExtHashMap.getElem?_erase_self

theorem get_remove_ne (m : Recency κ α) {key k : κ} (hk : k ≠ key) :
    (m.remove key).entries[k]? = m.entries[k]? := by
  rw [remove, Std.ExtHashMap.getElem?_erase, if_neg (by simpa using Ne.symm hk)]

/-! ## The capacity -/

theorem size_evict_le (capacity : Nat) :
    ∀ (order : List κ) (entries : Std.ExtHashMap κ α),
      (evict capacity entries order).entries.size ≤ capacity
  | [], entries => by
      unfold evict
      split
      · simp [empty]
      · next h => exact Nat.le_of_not_lt h
  | oldest :: order, entries => by
      unfold evict
      split
      · exact size_evict_le capacity order _
      · next h => exact Nat.le_of_not_lt h

theorem size_insert_le (capacity : Nat) (m : Recency κ α) (key : κ) (v : α) :
    (m.insert capacity key v).entries.size ≤ capacity :=
  size_evict_le capacity _ _

/-- A map within its capacity is left alone. -/
theorem evict_of_le {capacity : Nat} {entries : Std.ExtHashMap κ α} (h : entries.size ≤ capacity) :
    ∀ order : List κ, evict capacity entries order = ⟨entries, order⟩
  | [] => by rw [evict, if_neg (Nat.not_lt.mpr h)]
  | oldest :: order => by rw [evict, if_neg (Nat.not_lt.mpr h)]

theorem size_remove_le (m : Recency κ α) (key : κ) : (m.remove key).entries.size ≤ m.entries.size :=
  Std.ExtHashMap.size_erase_le

end Recency

end Octos
