/-
# `Octos.Lib.Checked` — checked machine arithmetic

Unsigned machine words are `BitVec w`.  `checkedAdd` and `checkedSub` answer
`none` where the exact result does not fit, and the two characterisations below
translate a successful operation into an equation of naturals.  Every later
argument about budgets and counters goes through these two equations.
-/
import Mathlib

namespace Octos

/-- An unsigned 64-bit word. -/
abbrev U64 := BitVec 64

/-- An unsigned 32-bit word. -/
abbrev U32 := BitVec 32

variable {w : Nat}

/-- Addition, `none` on overflow. -/
def checkedAdd (a b : BitVec w) : Option (BitVec w) :=
  if a.toNat + b.toNat < 2 ^ w then some (a + b) else none

/-- Subtraction, `none` on underflow. -/
def checkedSub (a b : BitVec w) : Option (BitVec w) :=
  if b.toNat ≤ a.toNat then some (a - b) else none

theorem checkedAdd_eq_some {a b c : BitVec w} :
    checkedAdd a b = some c ↔ c.toNat = a.toNat + b.toNat := by
  unfold checkedAdd
  constructor
  · intro h
    split at h
    · next hlt =>
        cases h
        rw [BitVec.toNat_add, Nat.mod_eq_of_lt hlt]
    · cases h
  · intro h
    have hlt : a.toNat + b.toNat < 2 ^ w := h ▸ c.isLt
    rw [if_pos hlt]
    congr 1
    apply BitVec.eq_of_toNat_eq
    rw [BitVec.toNat_add, Nat.mod_eq_of_lt hlt, h]

theorem checkedAdd_eq_none {a b : BitVec w} :
    checkedAdd a b = none ↔ 2 ^ w ≤ a.toNat + b.toNat := by
  unfold checkedAdd
  split <;> simp <;> omega

theorem checkedSub_eq_some {a b c : BitVec w} :
    checkedSub a b = some c ↔ c.toNat + b.toNat = a.toNat := by
  unfold checkedSub
  have ha := a.isLt
  constructor
  · intro h
    split at h
    · next hle =>
        cases h
        rw [BitVec.toNat_sub_of_le (by simpa [BitVec.le_def] using hle)]
        omega
    · cases h
  · intro h
    have hle : b.toNat ≤ a.toNat := by omega
    rw [if_pos hle]
    congr 1
    apply BitVec.eq_of_toNat_eq
    rw [BitVec.toNat_sub_of_le (by simpa [BitVec.le_def] using hle)]
    omega

theorem checkedSub_eq_none {a b : BitVec w} :
    checkedSub a b = none ↔ a.toNat < b.toNat := by
  unfold checkedSub
  split <;> simp <;> omega

end Octos
