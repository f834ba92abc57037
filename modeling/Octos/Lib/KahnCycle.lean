/-
# `Octos.Lib.KahnCycle` — what the sort leaves, and in which order it may work

The second half of Kahn's algorithm.  The nodes it does not take are those from
which a cycle is reached by going from a node to what it waits for:

    n left with a positive counter  ↔  Circular edges n

A taken node waits for taken nodes only, which an order excludes from any cycle.
A node left over waits for another one left over, and there are finitely many.

The characterization does not mention the queue.  So the order in which the
first nodes are queued does not matter, and the sort is stated for every order
(`sort_any_order`); with the subtractions checked, since a counter is lowered at
most as often as it was raised, also along repeated edges.
-/
import Octos.Lib.Kahn
import Octos.Lib.Reach

namespace Octos

namespace Kahn

variable {κ : Type}

/-- From `n` a cycle is reached. -/
def Circular (edges : List (κ × κ)) (n : κ) : Prop :=
  ∃ c, Relation.ReflTransGen (fun m d => (d, m) ∈ edges) n c ∧
    Relation.TransGen (fun m d => (d, m) ∈ edges) c c

/-! ## Orders exclude cycles -/

theorem Ordered.waits_mem {edges : List (κ × κ)} {l : List κ} (h : Ordered edges l) {n d : κ}
    (hn : n ∈ l) (hd : (d, n) ∈ edges) : d ∈ l := by
  obtain ⟨xs, ys, hl⟩ := List.append_of_mem hn
  rw [hl]
  exact List.mem_append_left _ (h xs n ys hl (d, n) hd rfl)

theorem Ordered.not_circular {edges : List (κ × κ)} {l : List κ} (h : Ordered edges l) {n : κ}
    (hn : n ∈ l) : ¬Circular edges n := by
  rintro ⟨c, hreach, hcycle⟩
  have hclosed : ∀ c, Relation.ReflTransGen (fun m d => (d, m) ∈ edges) n c → c ∈ l := by
    intro c hreach
    induction hreach with
    | refl => exact hn
    | tail _ hstep ih => exact h.waits_mem ih hstep
  -- the first node of the order on a cycle waits for another one on that cycle
  obtain ⟨m, -, hm, hmin⟩ := h.exists_minimal
    (P := fun m => Relation.TransGen (fun m d => (d, m) ∈ edges) m m) (hclosed c hreach) hcycle
  obtain ⟨d, hd, hback⟩ := Relation.TransGen.head'_iff.mp hm
  exact hmin (d, m) hd rfl (.tail' hback hd)

/-- Among nodes each of which waits for another one of them, a cycle is reached. -/
theorem circular_of_stuck {edges : List (κ × κ)} {nodes : List κ} {P : κ → Prop}
    (hstuck : ∀ m ∈ nodes, P m → ∃ d ∈ nodes, (d, m) ∈ edges ∧ P d) {n : κ} (hn : n ∈ nodes) (hP : P n) :
    Circular edges n := by
  by_contra hnot
  -- the part of the graph that is reached from `n`, edges reversed
  have hacyclic : Reach.Acyclic (fun d m =>
      (d, m) ∈ edges ∧ Relation.ReflTransGen (fun m d => (d, m) ∈ edges) n m) := by
    intro c hcycle
    refine hnot ⟨c, ?_, ?_⟩
    · obtain ⟨d, -, -, hreach⟩ := Relation.TransGen.tail'_iff.mp hcycle
      exact hreach
    · exact Relation.transGen_swap.mp (Relation.TransGen.mono (fun _ _ h => h.1) _ _ hcycle)
  obtain ⟨m, hm, ⟨hreach, hPm⟩, hmin⟩ := hacyclic.exists_minimal
    (P := fun m => Relation.ReflTransGen (fun m d => (d, m) ∈ edges) n m ∧ P m) hn ⟨.refl, hP⟩
  obtain ⟨d, hd, hedge, hPd⟩ := hstuck m hm hPm
  exact hmin d hd ⟨hedge, hreach⟩ ⟨hreach.tail hedge, hPd⟩

/-! ## What is left -/

variable [DecidableEq κ] [Ord κ] [Std.TransOrd κ] [Std.LawfulEqOrd κ]
variable {nodes : List κ} {edges : List (κ × κ)} {done todo : List κ} {st : State κ}
variable (hedges : ∀ e ∈ edges, e.1 ∈ nodes ∧ e.2 ∈ nodes)

include hedges in
omit [Std.LawfulEqOrd κ] in
/-- At the end the nodes taken are those from which no cycle is reached. -/
theorem Inv.taken_iff (h : Inv nodes edges done [] st) (hq : st.queue = []) (n : κ) :
    n ∈ done ↔ n ∈ nodes ∧ ¬Circular edges n := by
  constructor
  · intro hn
    exact ⟨h.mem_nodes (List.mem_append_left _ hn), h.ordered.not_circular hn⟩
  · rintro ⟨hn, hnot⟩
    by_contra hout
    refine hnot (circular_of_stuck (P := fun m => m ∉ done) ?_ hn hout)
    intro m hm hmout
    have hpos : waiting edges done m ≠ 0 := by
      intro hzero
      refine hmout ?_
      have hmem : m ∈ done ++ st.queue := by
        rw [h.zero, h.count, if_pos hm, hzero]
        rfl
      rwa [hq, List.append_nil] at hmem
    obtain ⟨e, he, hopen⟩ := List.countP_pos_iff.mp (Nat.pos_of_ne_zero hpos)
    obtain ⟨rfl, hout'⟩ := of_decide_eq_true hopen
    exact ⟨e.1, (hedges e he).1, he, hout'⟩

include hedges in
omit [Std.LawfulEqOrd κ] in
/-- **What is left** is what reaches a cycle. -/
theorem Inv.left_iff (h : Inv nodes edges done [] st) (hq : st.queue = []) (n : κ) :
    (∃ v, st.indeg[n]? = some v ∧ 0 < v) ↔ n ∈ nodes ∧ Circular edges n := by
  have htaken := h.taken_iff hedges hq n
  have hzero := h.zero n
  rw [hq, List.append_nil] at hzero
  constructor
  · rintro ⟨v, hv, hpos⟩
    have hn : n ∈ nodes := by
      rw [h.count] at hv
      split at hv
      · assumption
      · cases hv
    refine ⟨hn, ?_⟩
    by_contra hnot
    have hsome := hzero.mp (htaken.mpr ⟨hn, hnot⟩)
    rw [hv] at hsome
    obtain rfl := Option.some.inj hsome
    exact absurd hpos (lt_irrefl 0)
  · rintro ⟨hn, hcirc⟩
    have hv : st.indeg[n]? = some (waiting edges done n + ([] : List κ).count n) := by
      rw [h.count, if_pos hn]
    refine ⟨_, hv, Nat.pos_of_ne_zero ?_⟩
    intro hz
    rw [hz] at hv
    exact (htaken.mp (hzero.mpr hv)).2 hcirc

omit [Std.LawfulEqOrd κ] in
/-- Two ends of the sort took as many nodes and left the same counters. -/
theorem Inv.unique {done' : List κ} {st' : State κ} (h : Inv nodes edges done [] st)
    (h' : Inv nodes edges done' [] st') (hsame : ∀ n, n ∈ done ↔ n ∈ done') :
    st.processed = st'.processed ∧ ∀ n : κ, st.indeg[n]? = st'.indeg[n]? := by
  have hnd : done.Nodup := (List.nodup_append.mp h.nodup).1
  have hnd' : done'.Nodup := (List.nodup_append.mp h'.nodup).1
  refine ⟨?_, ?_⟩
  · rw [h.processed, h'.processed]
    exact ((List.perm_ext_iff_of_nodup hnd hnd').mpr hsame).length_eq
  · intro n
    have hwait : waiting edges done n = waiting edges done' n := by
      refine List.countP_congr ?_
      intro e _
      simp [hsame e.1]
    rw [h.count, h'.count, hwait]

include hedges in
/-- **Acyclic graphs are those that can be ordered.** -/
theorem acyclic_iff_ordered (hnodes : nodes.Nodup) :
    (∀ n ∈ nodes, ¬Circular edges n) ↔ ∃ l, l.Perm nodes ∧ Ordered edges l := by
  constructor
  · intro hacyclic
    obtain ⟨done, h, hq⟩ := run_inv hedges
    refine ⟨done, ?_, h.ordered⟩
    refine (List.perm_ext_iff_of_nodup (List.nodup_append.mp h.nodup).1 hnodes).mpr ?_
    intro n
    rw [h.taken_iff hedges hq]
    exact and_iff_left_of_imp (hacyclic n)
  · rintro ⟨l, hl, hord⟩ n hn
    exact hord.not_circular (hl.mem_iff.mpr hn)

/-! ## Checked subtraction -/

/-- `enable` where a counter below zero is an error. -/
def enableChecked (st : State κ) (n : κ) : Option (State κ) :=
  match st.indeg[n]? with
  | some 0 => none
  | some (v + 1) =>
      some { st with
        indeg := st.indeg.insert n v
        queue := if v = 0 then st.queue ++ [n] else st.queue }
  | none => some st

/-- `loop` over `enableChecked`. -/
def loopChecked (edges : List (κ × κ)) : Nat → State κ → Option (State κ)
  | 0, st => some st
  | fuel + 1, st =>
      match st.queue with
      | [] => some st
      | n :: q => do
          let st ← (enabledBy edges n).foldlM enableChecked
            { st with queue := q, processed := st.processed + 1 }
          loopChecked edges fuel st

omit [Std.LawfulEqOrd κ] in
/-- A counter about to be lowered still counts the edge it is lowered for. -/
theorem Inv.enable_checked {n : κ} (h : Inv nodes edges done (n :: todo) st) (hn : n ∈ nodes) :
    enableChecked st n = some (Kahn.enable st n) := by
  have hv : st.indeg[n]? = some (waiting edges done n + todo.count n + 1) := by
    rw [h.count, if_pos hn, List.count_cons_self]
    rfl
  unfold enableChecked Kahn.enable
  rw [hv]
  rfl

theorem Inv.enableAll_checked : ∀ {todo : List κ} {st : State κ}, (∀ n ∈ todo, n ∈ nodes) →
    Inv nodes edges done todo st →
    todo.foldlM enableChecked st = some (todo.foldl Kahn.enable st) := by
  intro todo
  induction todo with
  | nil => intro st _ _; rfl
  | cons n todo ih =>
      intro st hnodes h
      have hn := hnodes n List.mem_cons_self
      rw [List.foldlM_cons, h.enable_checked hn]
      exact ih (fun m hm => hnodes m (List.mem_cons_of_mem _ hm)) (h.enable hn)

include hedges in
/-- **No counter goes below zero.** -/
theorem Inv.loop_checked : ∀ {fuel : Nat} {done : List κ} {st : State κ}, Inv nodes edges done [] st →
    loopChecked edges fuel st = some (Kahn.loop edges fuel st) := by
  intro fuel
  induction fuel with
  | zero => intro done st _; rfl
  | succ fuel ih =>
      intro done st h
      unfold loopChecked Kahn.loop
      cases hq : st.queue with
      | nil => rfl
      | cons n q =>
          have htargets : ∀ m ∈ enabledBy edges n, m ∈ nodes := by
            intro m hm
            obtain ⟨e, he, rfl⟩ := List.mem_map.mp hm
            exact (hedges e (List.mem_of_mem_filter he)).2
          show ((enabledBy edges n).foldlM enableChecked _ >>= _) = _
          rw [(h.take hq).enableAll_checked htargets]
          exact ih ((h.take hq).enableAll htargets)

/-! ## Any order of the first queue -/

/-- The state at the start, with its queue in another order. -/
def startFrom (nodes : List κ) (edges : List (κ × κ)) (queue : List κ) : State κ :=
  { start nodes edges with queue := queue }

theorem Inv.start_from {q : List κ} (hq : q.Perm (Kahn.start nodes edges).queue) :
    Inv nodes edges [] [] (startFrom nodes edges q) := by
  have h := Inv.start nodes edges
  refine ⟨h.processed, hq.nodup_iff.mpr h.nodup, ?_, h.count, h.ordered⟩
  intro n
  exact (hq.mem_iff (a := n)).trans (h.zero n)

omit [Std.LawfulEqOrd κ] in
/-- A state in which all nodes have been taken has an empty queue. -/
theorem Inv.queue_empty (h : Inv nodes edges done [] st) (hlen : nodes.length ≤ st.processed) :
    st.queue = [] := by
  have hle : (done ++ st.queue).length ≤ nodes.length := by
    refine (h.nodup.subperm ?_).length_le
    intro n hn
    exact h.mem_nodes hn
  have hproc := h.processed
  rw [List.length_append] at hle
  exact List.length_eq_zero_iff.mp (by omega)

include hedges in
/-- **The sort in any order.**  From any order of the first queue, with the
subtractions checked, as many rounds as there are nodes empty the queue; the
nodes taken are as many as `run` takes, and the counters left are those it
leaves. -/
theorem sort_any_order {q : List κ} (hq : q.Perm (start nodes edges).queue) {fuel : Nat}
    (hfuel : nodes.length ≤ fuel) :
    ∃ st, loopChecked edges fuel (startFrom nodes edges q) = some st ∧ st.queue = [] ∧
      st.processed = (run nodes edges).processed ∧
      ∀ n : κ, st.indeg[n]? = (run nodes edges).indeg[n]? := by
  obtain ⟨done, h, hend⟩ := Inv.loop hedges (Inv.start_from hq)
  have hempty : (loop edges fuel (startFrom nodes edges q)).queue = [] := by
    rcases hend with hend | hend
    · exact hend
    · refine h.queue_empty ?_
      rw [hend]
      exact hfuel.trans (Nat.le_add_left _ _)
  obtain ⟨done', h', hq'⟩ := run_inv hedges
  refine ⟨_, Inv.loop_checked hedges (Inv.start_from hq), hempty, h.unique h' ?_⟩
  intro n
  rw [h.taken_iff hedges hempty, h'.taken_iff hedges hq']

end Kahn

end Octos
