/-
# `Octos.Lib.Returns` — fallible code that returns, alone and side by side

`Returns x P`: the code `x` does not fail, and what it returns has the property `P`.
`Twin R x y`: `x` and `y` fail alike, or return results that stand in the relation `R`;
with it a change of the code is followed through without a word on what the code does.

A loop carries a state and a bound on its rounds.  Its body goes on with a new state or
ends with a result, and running out of rounds is a failure of its own, so that
`loop_returns` says of a loop that it ends too.
-/
import Octos.Lib.Result

namespace Octos

variable {ε α β γ δ σ τ ρ : Type}

/-! ## Code that returns -/

def Returns (x : Except ε α) (P : α → Prop) : Prop :=
  ∃ a, x = .ok a ∧ P a

namespace Returns

variable {x : Except ε α} {P Q : α → Prop} {R : β → Prop} {g : α → Except ε β}

theorem pure {a : α} (h : P a) : Returns (.ok a : Except ε α) P :=
  ⟨a, rfl, h⟩

theorem imp (h : Returns x P) (hPQ : ∀ a, P a → Q a) : Returns x Q := by
  obtain ⟨a, hx, ha⟩ := h
  exact ⟨a, hx, hPQ a ha⟩

/-- What comes next may rely on what came before. -/
theorem bind (h : Returns x P) (hg : ∀ a, P a → Returns (g a) R) : Returns (x >>= g) R := by
  obtain ⟨a, rfl, ha⟩ := h
  exact hg a ha

theorem ite {c : Prop} [Decidable c] {y : Except ε α} (hx : c → Returns x P) (hy : ¬ c → Returns y P) :
    Returns (if c then x else y) P := by
  by_cases hc : c
  · rw [if_pos hc]
    exact hx hc
  · rw [if_neg hc]
    exact hy hc

/-- What is known of the result of code that returns. -/
theorem of_ok {a : α} (h : Returns x P) (hx : x = .ok a) : P a := by
  obtain ⟨b, hb, hP⟩ := h
  rw [hx] at hb
  obtain rfl := Except.ok.inj hb
  exact hP

/-- Trying one after the other until something is found. -/
theorem findSomeM? {f : γ → Except ε (Option β)} : ∀ {items : List γ},
    (∀ item ∈ items, Returns (f item) (fun found => ∀ b, found = some b → R b)) →
      Returns (items.findSomeM? f) (fun found => ∀ b, found = some b → R b) := by
  intro items
  induction items with
  | nil =>
      intro _
      exact .pure (fun b h => nomatch h)
  | cons item items ih =>
      intro h
      refine (h item List.mem_cons_self).bind ?_
      intro found hfound
      cases found with
      | some b => exact .pure hfound
      | none => exact ih (fun c hc => h c (List.mem_cons_of_mem _ hc))

end Returns

/-! ## Code side by side -/

inductive Twin (R : α → β → Prop) : Except ε α → Except ε β → Prop
  | error (e : ε) : Twin R (.error e) (.error e)
  | ok {a : α} {b : β} (h : R a b) : Twin R (.ok a) (.ok b)

namespace Twin

variable {R : α → β → Prop} {S : γ → δ → Prop} {x : Except ε α} {y : Except ε β}

theorem bind {f : α → Except ε γ} {g : β → Except ε δ} (h : Twin R x y)
    (hfg : ∀ a b, R a b → Twin S (f a) (g b)) : Twin S (x >>= f) (y >>= g) := by
  cases h with
  | error e => exact .error e
  | ok h => exact hfg _ _ h

/-- After the same code, of whose result something may be known. -/
theorem after {f : α → Except ε γ} {g : α → Except ε δ} (hfg : ∀ a, x = .ok a → Twin S (f a) (g a)) :
    Twin S (x >>= f) (x >>= g) := by
  cases x with
  | error e => exact .error e
  | ok a => exact hfg a rfl

theorem refl (x : Except ε α) : Twin (· = ·) x x := by
  cases x with
  | error e => exact .error e
  | ok a => exact .ok rfl

/-- Equal results are the same run. -/
theorem eq {x y : Except ε α} (h : Twin (· = ·) x y) : x = y := by
  cases h with
  | error e => rfl
  | ok h => exact congrArg Except.ok h

theorem ok_left {a : α} (h : Twin R (.ok a) y) : ∃ b, y = .ok b ∧ R a b := by
  cases h with
  | ok h => exact ⟨_, rfl, h⟩

end Twin

/-! ## Loops -/

/-- `loop { … }` of which the body goes on (`inl`) or ends (`inr`). -/
def loop (stuck : ε) (body : σ → Except ε (σ ⊕ ρ)) : Nat → σ → Except ε ρ
  | 0, _ => .error stuck
  | rounds + 1, s => body s >>= fun
    | .inl t => loop stuck body rounds t
    | .inr r => .ok r

/-- What a body with the invariant `I` and the measure `μ` leaves behind. -/
def Step (I : σ → Prop) (μ : σ → Nat) (P : ρ → Prop) (s : σ) : σ ⊕ ρ → Prop
  | .inl t => I t ∧ μ t < μ s
  | .inr r => P r

/-- **A loop ends** when its body keeps an invariant and lowers a measure. -/
theorem loop_returns {stuck : ε} {body : σ → Except ε (σ ⊕ ρ)} {I : σ → Prop} {μ : σ → Nat}
    {P : ρ → Prop} (hbody : ∀ s, I s → Returns (body s) (Step I μ P s)) :
    ∀ {rounds : Nat} {s : σ}, I s → μ s < rounds → Returns (loop stuck body rounds s) P := by
  intro rounds
  induction rounds with
  | zero =>
      intro s _ h
      exact absurd h (Nat.not_lt_zero _)
  | succ rounds ih =>
      intro s hs hrounds
      refine (hbody s hs).bind ?_
      intro next hnext
      cases next with
      | inl t => exact ih hnext.1 (Nat.lt_of_lt_of_le hnext.2 (Nat.le_of_lt_succ hrounds))
      | inr r => exact .pure hnext

/-- Going on from related states to related states, or ending with related results. -/
def Abreast (R : σ → τ → Prop) (S : ρ → δ → Prop) : σ ⊕ ρ → τ ⊕ δ → Prop
  | .inl s, .inl t => R s t
  | .inr r, .inr d => S r d
  | _, _ => False

/-- Two loops whose bodies keep in step. -/
theorem loop_twin {stuck : ε} {f : σ → Except ε (σ ⊕ ρ)} {g : τ → Except ε (τ ⊕ δ)}
    {R : σ → τ → Prop} {S : ρ → δ → Prop} (hbody : ∀ s t, R s t → Twin (Abreast R S) (f s) (g t)) :
    ∀ {rounds : Nat} {s : σ} {t : τ}, R s t → Twin S (loop stuck f rounds s) (loop stuck g rounds t) := by
  intro rounds
  induction rounds with
  | zero =>
      intro s t _
      exact .error stuck
  | succ rounds ih =>
      intro s t h
      refine (hbody s t h).bind ?_
      intro a b hab
      cases a with
      | inl s' =>
          cases b with
          | inl t' => exact ih hab
          | inr d => exact hab.elim
      | inr r =>
          cases b with
          | inl t' => exact hab.elim
          | inr d => exact .ok hab

end Octos
