/-
# `Octos.Lib.Overflow` — arithmetic that may leave its type

A program over 64-bit words, run in three ways:

    strict    a result that does not fit stops the run, a cast too
    panics    an addition that does not fit panics; a cast wraps
    wraps     additions and casts wrap

The first is not a build of the program.  It is the measure of the other two:
where it does not stop, they do what it does (`Alike`), so that one argument
about exact numbers covers every build.
-/
import Octos.Lib.Result

namespace Octos

/-- What happens to a result that does not fit. -/
inductive Overflow
  | strict
  | panics
  | wraps
  deriving DecidableEq

/-- Why a computation did not return. -/
inductive Halt (ε : Type)
  | panic
  | fails (e : ε)
  deriving DecidableEq

abbrev Outcome (ε α : Type) := Except (Halt ε) α

abbrev Usize := Fin (2 ^ 64)

variable {ε α β : Type}

/-- An error of the program itself. -/
def liftError (x : Except ε α) : Outcome ε α :=
  x.mapError .fails

/-! ## Operations -/

/-- The 64 bits of a number, read as a signed one. -/
def toSigned (z : Int) : Int :=
  z.bmod (2 ^ 64)

theorem toSigned_lt (z : Int) : toSigned z < 2 ^ 63 := by
  have := @Int.bmod_lt z (2 ^ 64) (by decide)
  rw [toSigned]
  omega

namespace Overflow

/-- `x + y` as `usize`. -/
def add (o : Overflow) (x y : Nat) : Outcome ε Nat :=
  if x + y < 2 ^ 64 then .ok (x + y)
  else match o with
    | .wraps => .ok ((x + y) % 2 ^ 64)
    | _ => .error .panic

/-- A sum or difference as `i64`. -/
def signed (o : Overflow) (z : Int) : Outcome ε Int :=
  if -2 ^ 63 ≤ z ∧ z < 2 ^ 63 then .ok z
  else match o with
    | .wraps => .ok (toSigned z)
    | _ => .error .panic

/-- `x as i64`. -/
def asSigned (o : Overflow) (x : Nat) : Outcome ε Int :=
  if x < 2 ^ 63 then .ok x
  else match o with
    | .strict => .error .panic
    | _ => .ok (toSigned x)

/-- `z as usize`. -/
def asUsize (o : Overflow) (z : Int) : Outcome ε Nat :=
  if 0 ≤ z then .ok z.toNat
  else match o with
    | .strict => .error .panic
    | _ => .ok (z % 2 ^ 64).toNat

/-- `xs[i]`. -/
def index (xs : List α) (i : Nat) : Outcome ε α :=
  match xs[i]? with
  | some x => .ok x
  | none => .error .panic

end Overflow

/-! ## The strict run as the measure -/

/-- Where the strict run does not stop, every run does the same. -/
def Alike (run : Overflow → Outcome ε α) : Prop :=
  ∀ o, run .strict ≠ .error .panic → run o = run .strict

theorem alike_const (x : Outcome ε α) : Alike (fun _ => x) :=
  fun _ _ => rfl

theorem Alike.bind {run : Overflow → Outcome ε α} {next : Overflow → α → Outcome ε β}
    (hrun : Alike run) (hnext : ∀ a, Alike (fun o => next o a)) :
    Alike (fun o => run o >>= next o) := by
  intro o h
  cases hstrict : run .strict with
  | error e =>
      have hpanic : run .strict ≠ .error .panic := by
        intro hp
        simp only [hp] at h
        exact h rfl
      show run o >>= next o = run .strict >>= next .strict
      rw [hrun o hpanic, hstrict]
      rfl
  | ok a =>
      have hpanic : run .strict ≠ .error .panic := by
        rw [hstrict]
        simp
      have hnext' : next .strict a ≠ .error .panic := by
        intro hp
        simp only [hstrict] at h
        exact h hp
      show run o >>= next o = run .strict >>= next .strict
      rw [hrun o hpanic, hstrict]
      exact hnext a o hnext'

theorem Alike.ite {c : Prop} [Decidable c] {run run' : Overflow → Outcome ε α} (h : Alike run)
    (h' : Alike run') : Alike (fun o => if c then run o else run' o) := by
  by_cases hc : c
  · simpa only [if_pos hc] using h
  · simpa only [if_neg hc] using h'

variable (x y : Nat) (z : Int)

theorem alike_add : Alike (fun o => (o.add x y : Outcome ε Nat)) := by
  intro o h
  by_cases hfit : x + y < 2 ^ 64
  · simp only [Overflow.add, if_pos hfit]
  · exact absurd (if_neg hfit) h

theorem alike_signed : Alike (fun o => (o.signed z : Outcome ε Int)) := by
  intro o h
  by_cases hfit : -2 ^ 63 ≤ z ∧ z < 2 ^ 63
  · simp only [Overflow.signed, if_pos hfit]
  · exact absurd (if_neg hfit) h

theorem alike_asSigned : Alike (fun o => (o.asSigned x : Outcome ε Int)) := by
  intro o h
  by_cases hfit : x < 2 ^ 63
  · simp only [Overflow.asSigned, if_pos hfit]
  · exact absurd (if_neg hfit) h

theorem alike_asUsize : Alike (fun o => (o.asUsize z : Outcome ε Nat)) := by
  intro o h
  by_cases hfit : 0 ≤ z
  · simp only [Overflow.asUsize, if_pos hfit]
  · exact absurd (if_neg hfit) h

/-! ## Results that fit -/

variable {x y z} {o : Overflow}

theorem add_fits (h : x + y < 2 ^ 64) : (o.add x y : Outcome ε Nat) = .ok (x + y) :=
  if_pos h

theorem signed_fits (hlow : -2 ^ 63 ≤ z) (hhigh : z < 2 ^ 63) : (o.signed z : Outcome ε Int) = .ok z :=
  if_pos ⟨hlow, hhigh⟩

theorem asSigned_fits (h : x < 2 ^ 63) : (o.asSigned x : Outcome ε Int) = .ok x :=
  if_pos h

theorem asUsize_fits (h : 0 ≤ z) : (o.asUsize z : Outcome ε Nat) = .ok z.toNat :=
  if_pos h

theorem add_strict (h : ¬x + y < 2 ^ 64) : (Overflow.strict.add x y : Outcome ε Nat) = .error .panic :=
  if_neg h

theorem signed_strict (h : ¬(-2 ^ 63 ≤ z ∧ z < 2 ^ 63)) :
    (Overflow.strict.signed z : Outcome ε Int) = .error .panic :=
  if_neg h

theorem asSigned_strict (h : ¬x < 2 ^ 63) :
    (Overflow.strict.asSigned x : Outcome ε Int) = .error .panic :=
  if_neg h

theorem error_bind (e : Halt ε) (g : α → Outcome ε β) : ((.error e : Outcome ε α) >>= g) = .error e := rfl

theorem signed_ok {n : Int} (h : (o.signed z : Outcome ε Int) = .ok n) : n = toSigned z := by
  unfold Overflow.signed at h
  split at h
  · next hfit =>
      obtain rfl := Except.ok.inj h
      exact (Int.bmod_eq_of_le (by omega) (by omega)).symm
  · split at h
    · exact (Except.ok.inj h).symm
    · cases h

theorem asSigned_ok {n : Int} (h : (o.asSigned x : Outcome ε Int) = .ok n) : n = toSigned x := by
  unfold Overflow.asSigned at h
  split at h
  · next hfit =>
      obtain rfl := Except.ok.inj h
      exact (Int.bmod_eq_of_le (by omega) (by omega)).symm
  · split at h
    · cases h
    · exact (Except.ok.inj h).symm

theorem asUsize_ok {n : Nat} (hz : z < 2 ^ 64) (h : (o.asUsize z : Outcome ε Nat) = .ok n) :
    n = (z % 2 ^ 64).toNat := by
  unfold Overflow.asUsize at h
  split at h
  · next hfit =>
      obtain rfl := Except.ok.inj h
      rw [Int.emod_eq_of_lt hfit hz]
  · split at h
    · cases h
    · exact (Except.ok.inj h).symm

end Octos
