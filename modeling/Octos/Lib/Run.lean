/-
# `Octos.Lib.Run` — runs of a labelled transition system

A system is a step relation `step s e t`: from `s`, under the label `e`, to
`t`.  A run is a finite sequence of steps together with the labels it fired.
The labels are the history: what was called, with which arguments, and what it
returned.  Three rules carry every result about whole runs.

    Run.invariant   a predicate kept by every step holds along the run
    Run.history     the same for a predicate of the labels so far and the state
    Run.split       a run over `xs ++ ys` stops in between

The last section is the episode rule.  A predicate that holds at the start of a
run, fails at its end and cannot become true again on the way is left exactly
once; `Run.exit` returns the step that leaves it.
-/
import Mathlib

namespace Octos

variable {σ ε : Type}

/-- `Run step s es t`: the labels `es`, fired in order, lead from `s` to `t`. -/
inductive Run (step : σ → ε → σ → Prop) : σ → List ε → σ → Prop
  | nil (s : σ) : Run step s [] s
  | snoc {s t u : σ} {es : List ε} {e : ε} :
      Run step s es t → step t e u → Run step s (es ++ [e]) u

namespace Run

variable {step : σ → ε → σ → Prop} {s t u : σ}

theorem single {e : ε} (h : step s e t) : Run step s [e] t :=
  .snoc (.nil s) h

theorem append {xs ys : List ε} (h₁ : Run step s xs t) (h₂ : Run step t ys u) :
    Run step s (xs ++ ys) u := by
  induction h₂ with
  | nil => simpa using h₁
  | snoc _ hstep ih =>
      rw [← List.append_assoc]
      exact .snoc ih hstep

theorem nil_inv (h : Run step s [] t) : s = t := by
  generalize hes : ([] : List ε) = es at h
  cases h with
  | nil => rfl
  | snoc _ _ => simp at hes

theorem snoc_inv {es : List ε} {e : ε} (h : Run step s (es ++ [e]) u) :
    ∃ t, Run step s es t ∧ step t e u := by
  generalize hes : es ++ [e] = es' at h
  cases h with
  | nil => simp at hes
  | snoc hr hs =>
      obtain ⟨rfl, hlast⟩ := List.append_inj' hes rfl
      obtain rfl : e = _ := by simpa using hlast
      exact ⟨_, hr, hs⟩

/-- A run over `xs ++ ys` passes through a state between the two parts. -/
theorem split {xs : List ε} :
    ∀ {ys : List ε} {u : σ}, Run step s (xs ++ ys) u →
      ∃ t, Run step s xs t ∧ Run step t ys u := by
  intro ys
  induction ys using List.reverseRecOn with
  | nil =>
      intro u h
      exact ⟨u, by simpa using h, .nil u⟩
  | append_singleton ys e ih =>
      intro u h
      rw [← List.append_assoc] at h
      obtain ⟨v, hv, hstep⟩ := snoc_inv h
      obtain ⟨t, ht, hrest⟩ := ih hv
      exact ⟨t, ht, .snoc hrest hstep⟩

/-- A run over `xs ++ e :: ys` fires `e` in between. -/
theorem split_cons {xs ys : List ε} {e : ε} (h : Run step s (xs ++ e :: ys) u) :
    ∃ t t', Run step s xs t ∧ step t e t' ∧ Run step t' ys u := by
  have h' : Run step s ((xs ++ [e]) ++ ys) u := by simpa using h
  obtain ⟨t', hpre, hpost⟩ := split h'
  obtain ⟨t, hr, hs⟩ := snoc_inv hpre
  exact ⟨t, t', hr, hs, hpost⟩

/-- A predicate kept by every step holds along every run. -/
theorem invariant {I : σ → Prop} (hkeep : ∀ s e t, I s → step s e t → I t)
    {es : List ε} (h : Run step s es t) (hs : I s) : I t := by
  induction h with
  | nil => exact hs
  | snoc _ hstep ih => exact hkeep _ _ _ ih hstep

/-- A predicate of the labels so far and the state, kept by every step out of
a state in which `I` holds. -/
theorem history {I : σ → Prop} {H : List ε → σ → Prop}
    (hI : ∀ s e t, I s → step s e t → I t)
    (hkeep : ∀ es s e t, I s → H es s → step s e t → H (es ++ [e]) t)
    {es : List ε} (h : Run step s es t) (hs : I s) (h₀ : H [] s) : H es t := by
  induction h with
  | nil => exact h₀
  | snoc hr hstep ih => exact hkeep _ _ _ _ (invariant hI hr hs) ih hstep

/-- The system may be refined: every step of one is a step of the other. -/
theorem mono {step' : σ → ε → σ → Prop} (h : ∀ s e t, step s e t → step' s e t)
    {es : List ε} (hr : Run step s es t) : Run step' s es t := by
  induction hr with
  | nil => exact .nil _
  | snoc _ hstep ih => exact .snoc ih (h _ _ _ hstep)

/-- A condition all labels of a run meet may be moved into its steps. -/
theorem strengthen {C : σ → ε → Prop} {es : List ε} (hr : Run step s es t)
    (hC : ∀ e ∈ es, ∀ u, C u e) : Run (fun s e t => step s e t ∧ C s e) s es t := by
  induction hr with
  | nil => exact .nil _
  | snoc _ hstep ih =>
      refine .snoc (ih ?_) ⟨hstep, hC _ (by simp) _⟩
      intro e he
      exact hC e (by simp [he])

/-- A predicate kept by every step under a label that satisfies `Q` holds along
a run of such labels. -/
theorem invariant_on {I : σ → Prop} {Q : ε → Prop}
    (hkeep : ∀ s e t, Q e → I s → step s e t → I t) {es : List ε} (h : Run step s es t)
    (hQ : ∀ e ∈ es, Q e) (hs : I s) : I t := by
  induction h with
  | nil => exact hs
  | snoc _ hstep ih =>
      refine hkeep _ _ _ (hQ _ (by simp)) (ih ?_) hstep
      intro e he
      exact hQ e (by simp [he])

/-! ## Episodes -/

/-- **The exit of an episode.**  `P` holds at the start and fails at the end;
no step of the run turns it true.  Then the run leaves `P` at one step: `P`
holds up to it and fails from it on. -/
theorem exit {P : σ → Prop} {es : List ε} (h : Run step s es u)
    (hstay : ∀ xs e ys a b, es = xs ++ e :: ys → Run step s xs a → step a e b → ¬ P a → ¬ P b)
    (hs : P s) (hu : ¬ P u) :
    ∃ xs e ys a b, es = xs ++ e :: ys ∧ Run step s xs a ∧ step a e b ∧ Run step b ys u ∧
      P a ∧ ¬ P b := by
  induction h with
  | nil => exact absurd hs hu
  | @snoc v u es e hr hstep ih =>
      by_cases hv : P v
      · exact ⟨es, e, [], v, u, rfl, hr, hstep, .nil u, hv, hu⟩
      · have hstay' : ∀ xs e' ys a b, es = xs ++ e' :: ys → Run step s xs a →
            step a e' b → ¬ P a → ¬ P b := by
          intro xs e' ys a b hes
          exact hstay xs e' (ys ++ [e]) a b (by simp [hes])
        obtain ⟨xs, e', ys, a, b, rfl, h₁, h₂, h₃, ha, hb⟩ := ih hstay' hv
        exact ⟨xs, e', ys ++ [e], a, b, by simp, h₁, h₂, .snoc h₃ hstep, ha, hb⟩

end Run

/-- The states some run reaches from `init`. -/
def Reachable (step : σ → ε → σ → Prop) (init s : σ) : Prop :=
  ∃ es, Run step init es s

namespace Reachable

variable {step : σ → ε → σ → Prop} {init s t : σ}

theorem refl : Reachable step init init := ⟨[], .nil init⟩

theorem trans_run {es : List ε} (h : Reachable step init s) (hr : Run step s es t) :
    Reachable step init t := by
  obtain ⟨xs, hx⟩ := h
  exact ⟨xs ++ es, hx.append hr⟩

theorem tail {e : ε} (h : Reachable step init s) (hs : step s e t) : Reachable step init t :=
  h.trans_run (.single hs)

/-- An invariant of the steps that holds initially holds in every reachable
state. -/
theorem invariant {I : σ → Prop} (h₀ : I init) (hkeep : ∀ s e t, I s → step s e t → I t)
    (h : Reachable step init s) : I s := by
  obtain ⟨_, hr⟩ := h
  exact hr.invariant hkeep h₀

end Reachable

end Octos
