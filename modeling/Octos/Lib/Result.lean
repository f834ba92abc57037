/-
# `Octos.Lib.Result` — inversion of fallible code

Fallible code is written in `Except ε` with `do`.  A statement about its result
is taken apart one line of the `do` block at a time:

    bind_ok      x >>= g returns b     x returned some a, and g a returned b
    guard_ok     a check that throws   the check passed
    return_ok    an early return       it was taken, or the rest ran

and the same for an error.  With these a proof never unfolds the monad.
-/
import Mathlib

namespace Octos

variable {ε α β : Type}

/-- A sequence returns when its parts do, one after the other. -/
theorem bind_ok {x : Except ε α} {g : α → Except ε β} {b : β} :
    (x >>= g) = .ok b ↔ ∃ a, x = .ok a ∧ g a = .ok b := by
  cases x with
  | error e => simp [bind, Except.bind]
  | ok a => simp [bind, Except.bind]

theorem ok_bind (a : α) (g : α → Except ε β) : ((.ok a : Except ε α) >>= g) = g a := rfl

theorem pure_ok {a b : α} : (pure a : Except ε α) = .ok b ↔ a = b := by
  simp [pure, Except.pure]

/-- A guard that aborts. -/
theorem guard_ok {c : Prop} [Decidable c] {e : ε} {g : β → Except ε α} {x : Except ε α} {a : α} :
    (if c then (throw e : Except ε β) >>= g else x) = .ok a ↔ ¬ c ∧ x = .ok a := by
  by_cases hc : c <;> simp [hc, throw, throwThe, MonadExceptOf.throw, bind, Except.bind]

/-- A guard that returns early. -/
theorem return_ok {c : Prop} [Decidable c] {v : α} {x : Except ε α} {a : α} :
    (if c then pure v else x) = .ok a ↔ c ∧ v = a ∨ ¬ c ∧ x = .ok a := by
  by_cases hc : c <;> simp [hc, pure, Except.pure]

/-- A sequence aborts where one of its parts does. -/
theorem bind_error {x : Except ε α} {g : α → Except ε β} {e : ε} :
    (x >>= g) = .error e ↔ x = .error e ∨ ∃ a, x = .ok a ∧ g a = .error e := by
  cases x with
  | error e' => simp [bind, Except.bind]
  | ok a => simp [bind, Except.bind]

theorem return_error {c : Prop} [Decidable c] {v : α} {x : Except ε α} {e : ε} :
    (if c then pure v else x) = .error e ↔ ¬ c ∧ x = .error e := by
  by_cases hc : c <;> simp [hc, pure, Except.pure]

end Octos
