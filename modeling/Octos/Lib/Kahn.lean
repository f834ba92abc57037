/-
# `Octos.Lib.Kahn` — topological sorting with counters

Kahn's algorithm on a graph given by its nodes and its edges, an edge `(d, n)`
saying that `n` waits for `d`.  Every node carries the number of edges it still
waits for; nodes with none wait in a queue; a node taken from the queue lowers
the counters of the nodes that wait for it.

The algorithm takes all nodes exactly if they can be ordered so that each comes
after what it waits for:

    (run nodes edges).processed = nodes.length  ↔  some order of the nodes is Ordered

One invariant carries both directions.  With `done` the nodes taken so far, a
counter is the number of edges from outside `done`, and the nodes whose counter
is zero are exactly those taken or queued, each once.
-/
import Octos.Lib.Table

namespace Octos

namespace Kahn

variable {κ : Type}

/-! ## Orders -/

/-- Every node of the list stands after what it waits for. -/
def Ordered (edges : List (κ × κ)) (l : List κ) : Prop :=
  ∀ xs n ys, l = xs ++ n :: ys → ∀ e ∈ edges, e.2 = n → e.1 ∈ xs

/-- Of the nodes of an ordered list with a property, one waits for none with
that property. -/
theorem Ordered.exists_minimal {edges : List (κ × κ)} {l : List κ} (h : Ordered edges l)
    {P : κ → Prop} {n : κ} (hn : n ∈ l) (hP : P n) :
    ∃ m ∈ l, P m ∧ ∀ e ∈ edges, e.2 = m → ¬ P e.1 := by
  classical
  cases hf : l.find? (fun x => decide (P x)) with
  | none => exact absurd hP (by simpa using List.find?_eq_none.mp hf n hn)
  | some m =>
      obtain ⟨hm, xs, ys, hl, hfirst⟩ := List.find?_eq_some_iff_append.mp hf
      refine ⟨m, List.mem_of_find?_eq_some hf, by simpa using hm, ?_⟩
      intro e he hem
      simpa using hfirst e.1 (h xs m ys hl e he hem)

variable [DecidableEq κ] [Ord κ] [Std.TransOrd κ] [Std.LawfulEqOrd κ]

/-! ## The algorithm -/

/-- What the loop threads: the counters, the queue and how many nodes it took. -/
structure State (κ : Type) [Ord κ] where
  indeg : Table κ Nat
  queue : List κ
  processed : Nat

/-- One more edge into its target. -/
def bump (indeg : Table κ Nat) (e : κ × κ) : Table κ Nat :=
  match indeg[e.2]? with
  | some v => indeg.insert e.2 (v + 1)
  | none => indeg

/-- The counters of a graph. -/
def counters (nodes : List κ) (edges : List (κ × κ)) : Table κ Nat :=
  edges.foldl bump (nodes.foldl (fun m n => m.insert n 0) ∅)

/-- The nodes that wait for `n`, once per edge. -/
def enabledBy (edges : List (κ × κ)) (n : κ) : List κ :=
  (edges.filter (fun e => decide (e.1 = n))).map Prod.snd

/-- Lower one counter; a node that waits for nothing more joins the queue. -/
def enable (st : State κ) (n : κ) : State κ :=
  match st.indeg[n]? with
  | some v =>
      { st with
        indeg := st.indeg.insert n (v - 1)
        queue := if v - 1 = 0 then st.queue ++ [n] else st.queue }
  | none => st

/-- Take nodes from the queue until it is empty. -/
def loop (edges : List (κ × κ)) : Nat → State κ → State κ
  | 0, st => st
  | fuel + 1, st =>
      match st.queue with
      | [] => st
      | n :: q =>
          loop edges fuel ((enabledBy edges n).foldl enable
            { st with queue := q, processed := st.processed + 1 })

def start (nodes : List κ) (edges : List (κ × κ)) : State κ :=
  { indeg := counters nodes edges
    queue := ((counters nodes edges).toList.filter (fun r => decide (r.2 = 0))).map Prod.fst
    processed := 0 }

/-- The whole sort.  No node is taken twice, so as many rounds as there are
nodes are enough (`run_inv`). -/
def run (nodes : List κ) (edges : List (κ × κ)) : State κ :=
  loop edges nodes.length (start nodes edges)

/-! ## The counters -/

theorem foldl_zero (nodes : List κ) (n : κ) : ∀ m : Table κ Nat,
    (nodes.foldl (fun m n => m.insert n 0) m)[n]? = if n ∈ nodes then some 0 else m[n]? := by
  induction nodes with
  | nil => intro m; simp
  | cons a nodes ih =>
      intro m
      rw [List.foldl_cons, ih, Table.get_insert]
      by_cases ha : a = n
      · simp [ha]
      · have hne : n ≠ a := fun h => ha h.symm
        simp [ha, hne]

theorem foldl_bump (edges : List (κ × κ)) (n : κ) : ∀ m : Table κ Nat,
    (edges.foldl bump m)[n]? =
      m[n]?.map (fun v => v + edges.countP (fun e => decide (e.2 = n))) := by
  induction edges with
  | nil => intro m; simp
  | cons e edges ih =>
      intro m
      have hbump : (bump m e)[n]? = m[n]?.map (fun v => v + if e.2 = n then 1 else 0) := by
        unfold bump
        cases hv : m[e.2]? with
        | none =>
            by_cases he : e.2 = n
            · subst he
              simp [hv]
            · simp [he]
        | some v =>
            simp only [Table.get_insert]
            by_cases he : e.2 = n
            · subst he
              simp [hv]
            · simp [he]
      rw [List.foldl_cons, ih, hbump, Option.map_map, List.countP_cons]
      congr 1
      funext v
      by_cases he : e.2 = n
      · simp [he]
        omega
      · simp [he]

theorem counters_get (nodes : List κ) (edges : List (κ × κ)) (n : κ) :
    (counters nodes edges)[n]? =
      if n ∈ nodes then some (edges.countP (fun e => decide (e.2 = n))) else none := by
  rw [counters, foldl_bump, foldl_zero]
  by_cases hn : n ∈ nodes <;> simp [hn]

/-! ## The invariant -/

/-- The edges into `n` from outside `done`. -/
def waiting (edges : List (κ × κ)) (done : List κ) (n : κ) : Nat :=
  edges.countP (fun e => decide (e.2 = n ∧ e.1 ∉ done))

/-- The state after taking `done`, with the counters of `todo` still to be
lowered. -/
structure Inv (nodes : List κ) (edges : List (κ × κ)) (done todo : List κ) (st : State κ) :
    Prop where
  processed : st.processed = done.length
  nodup : (done ++ st.queue).Nodup
  zero : ∀ n, n ∈ done ++ st.queue ↔ st.indeg[n]? = some 0
  count : ∀ n, st.indeg[n]? =
    if n ∈ nodes then some (waiting edges done n + todo.count n) else none
  ordered : Ordered edges done

variable {nodes : List κ} {edges : List (κ × κ)} {done todo : List κ} {st : State κ}

/-- Lowering one counter. -/
theorem Inv.enable {n : κ} (h : Inv nodes edges done (n :: todo) st) (hn : n ∈ nodes) :
    Inv nodes edges done todo (enable st n) := by
  have hv : st.indeg[n]? = some (waiting edges done n + todo.count n + 1) := by
    rw [h.count, if_pos hn, List.count_cons_self]
    rfl
  have hout : n ∉ done ++ st.queue := by
    rw [h.zero, hv]
    simp
  have hst : Kahn.enable st n = { st with
      indeg := st.indeg.insert n (waiting edges done n + todo.count n)
      queue := if waiting edges done n + todo.count n = 0 then st.queue ++ [n]
        else st.queue } := by
    unfold Kahn.enable
    rw [hv]
    rfl
  rw [hst]
  refine ⟨h.processed, ?_, ?_, ?_, h.ordered⟩
  · show (done ++ if _ then _ else _).Nodup
    split
    · rw [← List.append_assoc]
      refine h.nodup.append (List.nodup_singleton n) ?_
      simpa [List.disjoint_singleton] using hout
    · exact h.nodup
  · intro m
    simp only [Table.get_insert]
    by_cases hm : n = m
    · subst hm
      by_cases hz : waiting edges done n + todo.count n = 0
      · simp [hz]
      · simp only [hz, if_false, if_true, Option.some.injEq, iff_false]
        exact hout
    · rw [if_neg hm, ← h.zero m]
      have hne : m ≠ n := fun h => hm h.symm
      split <;> simp [hne]
  · intro m
    simp only [Table.get_insert]
    by_cases hm : n = m
    · subst hm
      simp [hn]
    · rw [if_neg hm, h.count m, List.count_cons_of_ne hm]

theorem Inv.enableAll : ∀ {todo : List κ} {st : State κ}, (∀ n ∈ todo, n ∈ nodes) →
    Inv nodes edges done todo st → Inv nodes edges done [] (todo.foldl Kahn.enable st) := by
  intro todo
  induction todo with
  | nil => intro st _ h; exact h
  | cons n todo ih =>
      intro st hnodes h
      exact ih (fun m hm => hnodes m (List.mem_cons_of_mem _ hm))
        (h.enable (hnodes n List.mem_cons_self))

omit [Ord κ] [Std.TransOrd κ] [Std.LawfulEqOrd κ] in
/-- Taking `n` closes the edges out of it. -/
theorem waiting_take {n : κ} (hn : n ∉ done) (m : κ) :
    waiting edges done m = waiting edges (done ++ [n]) m + (enabledBy edges n).count m := by
  unfold waiting enabledBy
  induction edges with
  | nil => rfl
  | cons e edges ih =>
      rw [List.countP_cons, List.countP_cons, ih, List.filter_cons]
      by_cases he : e.1 = n
      · have hnot : e.1 ∉ done := he ▸ hn
        by_cases hm : e.2 = m
        · simp [he, hm, hn]
          omega
        · simp [he, hm]
      · simp [he]
        omega

omit [Std.LawfulEqOrd κ] in
/-- Taking the first node of the queue. -/
theorem Inv.take {n : κ} {q : List κ} (h : Inv nodes edges done [] st) (hq : st.queue = n :: q) :
    Inv nodes edges (done ++ [n]) (enabledBy edges n)
      { st with queue := q, processed := st.processed + 1 } := by
  have hnodup := h.nodup
  rw [hq] at hnodup
  have hn : n ∉ done := by
    intro hmem
    exact (List.nodup_append.mp hnodup).2.2 n hmem n List.mem_cons_self rfl
  have hsplit : (done ++ [n]) ++ q = done ++ st.queue := by simp [hq]
  refine ⟨by simp [h.processed], ?_, ?_, ?_, ?_⟩
  · show ((done ++ [n]) ++ q).Nodup
    rw [hsplit]
    exact h.nodup
  · intro m
    show m ∈ (done ++ [n]) ++ q ↔ _
    rw [hsplit]
    exact h.zero m
  · intro m
    rw [h.count m]
    split
    · rw [waiting_take hn m]
      simp
    · rfl
  · -- the new last node waits for nothing outside `done`
    have hzero : st.indeg[n]? = some 0 := (h.zero n).mp (by simp [hq])
    have hnone : ∀ e ∈ edges, e.2 = n → e.1 ∈ done := by
      intro e he hen
      by_contra hout
      rw [h.count n] at hzero
      split at hzero
      · have hpos : 0 < waiting edges done n :=
          List.countP_pos_iff.mpr ⟨e, he, by simp [hen, hout]⟩
        simp only [List.count_nil, Nat.add_zero, Option.some.injEq] at hzero
        omega
      · cases hzero
    intro xs m ys hl e he hem
    rcases List.eq_nil_or_concat ys with rfl | ⟨ys', y, rfl⟩
    · obtain ⟨rfl, hlast⟩ := List.append_inj' hl rfl
      obtain rfl : n = m := by simpa using hlast
      exact hnone e he hem
    · have hl' : done ++ [n] = (xs ++ m :: ys') ++ [y] := by simpa using hl
      obtain ⟨rfl, -⟩ := List.append_inj' hl' rfl
      exact h.ordered xs m ys' rfl e he hem

theorem Inv.start (nodes : List κ) (edges : List (κ × κ)) :
    Inv nodes edges [] [] (Kahn.start nodes edges) := by
  have hcount : ∀ n, (counters nodes edges)[n]? =
      if n ∈ nodes then some (waiting edges [] n + ([] : List κ).count n) else none := by
    intro n
    rw [counters_get]
    simp [waiting]
  refine ⟨rfl, ?_, ?_, hcount, ?_⟩
  · show ((counters nodes edges).toList.filter _ |>.map Prod.fst).Nodup
    exact (Table.rows_keys_nodup _).sublist (List.filter_sublist.map _)
  · intro n
    show n ∈ [] ++ ((counters nodes edges).toList.filter _ |>.map Prod.fst) ↔
      (counters nodes edges)[n]? = some 0
    simp only [List.nil_append, List.mem_map, List.mem_filter, decide_eq_true_eq, Prod.exists,
      exists_and_right, exists_eq_right]
    exact Table.mem_rows
  · intro xs n ys hl
    simp at hl

/-! ## The loop -/

variable (hedges : ∀ e ∈ edges, e.1 ∈ nodes ∧ e.2 ∈ nodes)

include hedges in
/-- The loop takes nodes until the queue or the rounds run out. -/
theorem Inv.loop : ∀ {fuel : Nat} {done : List κ} {st : State κ}, Inv nodes edges done [] st →
    ∃ done', Inv nodes edges done' [] (Kahn.loop edges fuel st) ∧
      ((Kahn.loop edges fuel st).queue = [] ∨
        (Kahn.loop edges fuel st).processed = st.processed + fuel) := by
  intro fuel
  induction fuel with
  | zero =>
      intro done st h
      exact ⟨done, h, Or.inr rfl⟩
  | succ fuel ih =>
      intro done st h
      unfold Kahn.loop
      split
      · next hq => exact ⟨done, h, Or.inl hq⟩
      · next n q hq =>
          have htargets : ∀ m ∈ enabledBy edges n, m ∈ nodes := by
            intro m hm
            obtain ⟨e, he, rfl⟩ := List.mem_map.mp hm
            exact (hedges e (List.mem_of_mem_filter he)).2
          obtain ⟨done', hinv, hend⟩ := ih ((h.take hq).enableAll htargets)
          refine ⟨done', hinv, hend.imp_right ?_⟩
          intro hproc
          have hkeep : ∀ (l : List κ) (s : State κ),
              (l.foldl Kahn.enable s).processed = s.processed := by
            intro l
            induction l with
            | nil => intro s; rfl
            | cons a l ihl =>
                intro s
                rw [List.foldl_cons, ihl]
                unfold Kahn.enable
                split <;> rfl
          rw [hproc, hkeep]
          show st.processed + 1 + fuel = _
          omega

omit [Std.LawfulEqOrd κ] in
theorem Inv.mem_nodes (h : Inv nodes edges done [] st) {n : κ} (hn : n ∈ done ++ st.queue) :
    n ∈ nodes := by
  have hzero := (h.zero n).mp hn
  rw [h.count n] at hzero
  split at hzero
  · assumption
  · cases hzero

include hedges in
/-- As many rounds as there are nodes empty the queue. -/
theorem run_inv : ∃ done, Inv nodes edges done [] (run nodes edges) ∧
    (run nodes edges).queue = [] := by
  have hloop : ∃ done, Inv nodes edges done [] (run nodes edges) ∧
      ((run nodes edges).queue = [] ∨ (run nodes edges).processed = 0 + nodes.length) :=
    Inv.loop hedges (Inv.start nodes edges)
  obtain ⟨done, h, hend⟩ := hloop
  refine ⟨done, h, ?_⟩
  rcases hend with hend | hend
  · exact hend
  · have hle : (done ++ (run nodes edges).queue).length ≤ nodes.length := by
      refine (h.nodup.subperm ?_).length_le
      intro n hn
      exact h.mem_nodes hn
    have hproc := h.processed
    rw [List.length_append] at hle
    have hzero : (run nodes edges).queue.length = 0 := by omega
    exact List.length_eq_zero_iff.mp hzero

include hedges in
/-- **Kahn's algorithm** takes every node iff the nodes can be ordered. -/
theorem run_processed_iff (hnodes : nodes.Nodup) :
    (run nodes edges).processed = nodes.length ↔
      ∃ l, (∀ n ∈ nodes, n ∈ l) ∧ Ordered edges l := by
  obtain ⟨done, h, hq⟩ := run_inv hedges
  have hdone : done.Nodup := (List.nodup_append.mp h.nodup).1
  have hsub : done ⊆ nodes := by
    intro n hn
    exact h.mem_nodes (List.mem_append_left _ hn)
  rw [h.processed]
  constructor
  · intro hlen
    refine ⟨done, ?_, h.ordered⟩
    have hperm : done.Perm nodes := (hdone.subperm hsub).perm_of_length_le (by omega)
    intro n hn
    exact hperm.mem_iff.mpr hn
  · rintro ⟨l, hl, hord⟩
    have hall : nodes ⊆ done := by
      intro n hn
      by_contra hout
      obtain ⟨m, -, ⟨hm, hmout⟩, hmin⟩ :=
        hord.exists_minimal (P := fun n => n ∈ nodes ∧ n ∉ done) (hl n hn) ⟨hn, hout⟩
      -- everything `m` waits for has been taken, so `m` was queued
      have hzero : waiting edges done m = 0 := by
        refine List.countP_eq_zero.mpr ?_
        intro e he hopen
        obtain ⟨hem, heout⟩ := of_decide_eq_true hopen
        exact hmin e he hem ⟨(hedges e he).1, heout⟩
      have hmem : m ∈ done ++ (run nodes edges).queue := by
        rw [h.zero, h.count, if_pos hm, hzero]
        rfl
      rw [hq, List.append_nil] at hmem
      exact hmout hmem
    exact le_antisymm (hdone.subperm hsub).length_le (hnodes.subperm hall).length_le

end Kahn

end Octos
