/-
# `Octos.Lib.LongestChain` — the longest chain of an acyclic graph

Kahn's algorithm with a table of distances: when a node is taken from the queue,
the distance of each node it leads to is raised to one more than its own.  A
distance counts nodes, so it starts at one.

    dist n  =  nodes of a longest chain that ends at n, once n is taken

The counters and the queue are those of `Octos.Lib.Kahn`, so the nodes taken,
and that each is taken once, come from there (`Far.sort`).  About distances two
facts are kept: each is the length of some chain (`sound`), and an edge out of a
taken node has been relaxed (`relaxed`).  The second stays true because a node
is taken only after everything that leads to it, so its distance is final.
-/
import Octos.Lib.KahnCycle

namespace Octos

namespace LongestChain

open Kahn

variable {κ : Type} [DecidableEq κ] [Ord κ] [Std.TransOrd κ] [Std.LawfulEqOrd κ]

/-! ## The algorithm -/

structure State (κ : Type) [Ord κ] where
  indeg : Table κ Nat
  dist : Table κ Nat
  queue : List κ

/-- The distance of a node, one if none is stored. -/
def State.distance (st : State κ) (n : κ) : Nat :=
  st.dist[n]?.getD 1

/-- One more edge into its target, which gets a counter if it has none. -/
def raise (indeg : Table κ Nat) (e : κ × κ) : Table κ Nat :=
  indeg.insert e.2 (indeg[e.2]?.getD 0 + 1)

def indegrees (nodes : List κ) (edges : List (κ × κ)) : Table κ Nat :=
  edges.foldl raise (nodes.foldl (fun m n => m.insert n 0) ∅)

/-- One edge out of a node at distance `du`. -/
def relax (du : Nat) (st : State κ) (w : κ) : State κ :=
  let dist := if st.distance w < du + 1 then st.dist.insert w (du + 1) else st.dist
  match st.indeg[w]? with
  | some d =>
      { indeg := st.indeg.insert w (d - 1)
        dist := dist
        queue := if d - 1 = 0 then st.queue ++ [w] else st.queue }
  | none => { st with dist := dist }

/-- Take nodes from the queue until it is empty. -/
def loop (edges : List (κ × κ)) : Nat → State κ → State κ
  | 0, st => st
  | fuel + 1, st =>
      match st.queue with
      | [] => st
      | u :: queue =>
          loop edges fuel ((enabledBy edges u).foldl (relax (st.distance u)) { st with queue := queue })

/-- The start; `order` is the order in which the counters are iterated. -/
def start (nodes : List κ) (edges : List (κ × κ)) (order : List κ) : State κ :=
  { indeg := indegrees nodes edges
    dist := nodes.foldl (fun m n => m.insert n 1) ∅
    queue := order.filter (fun n => decide ((indegrees nodes edges)[n]? = some 0)) }

/-- No node is queued twice, so as many rounds as there are counters are enough. -/
def run (nodes : List κ) (edges : List (κ × κ)) (order : List κ) : State κ :=
  loop edges order.length (start nodes edges order)

/-- The largest distance. -/
def longest (nodes : List κ) (edges : List (κ × κ)) (order : List κ) : Option Nat :=
  ((run nodes edges order).dist.toList.map Prod.snd).max?

/-! ## Chains -/

/-- A chain of nodes along edges. -/
structure IsPath (nodes : List κ) (edges : List (κ × κ)) (l : List κ) : Prop where
  nonempty : l ≠ []
  inside : ∀ n ∈ l, n ∈ nodes
  steps : l.IsChain (fun a b => (a, b) ∈ edges)

/-- Some chain has `n` nodes, and none has more. -/
structure IsLongest (nodes : List κ) (edges : List (κ × κ)) (n : Nat) : Prop where
  attained : ∃ l, IsPath nodes edges l ∧ l.length = n
  bound : ∀ l, IsPath nodes edges l → l.length ≤ n

omit [DecidableEq κ] [Ord κ] [Std.TransOrd κ] [Std.LawfulEqOrd κ] in
theorem IsPath.snoc {nodes : List κ} {edges : List (κ × κ)} {l : List κ} {a b : κ}
    (h : IsPath nodes edges (l ++ [a])) (hb : b ∈ nodes) (hab : (a, b) ∈ edges) :
    IsPath nodes edges (l ++ [a] ++ [b]) := by
  refine ⟨by simp, ?_, ?_⟩
  · intro n hn
    rcases List.mem_append.mp hn with hn | hn
    · exact h.inside n hn
    · obtain rfl := List.mem_singleton.mp hn
      exact hb
  · refine h.steps.append (List.isChain_singleton b) ?_
    intro last hlast first hfirst
    obtain rfl : a = last := by simpa using hlast
    obtain rfl : b = first := by simpa using hfirst
    exact hab

/-! ## The counters -/

theorem foldl_raise (edges : List (κ × κ)) (n : κ) : ∀ m : Table κ Nat,
    (edges.foldl raise m)[n]? =
      if n ∈ edges.map Prod.snd then some (m[n]?.getD 0 + edges.countP (fun e => decide (e.2 = n)))
      else m[n]? := by
  induction edges with
  | nil => intro m; simp
  | cons e edges ih =>
      intro m
      rw [List.foldl_cons, ih, raise, Table.get_insert, List.map_cons]
      by_cases he : e.2 = n
      · subst he
        rw [if_pos rfl, if_pos List.mem_cons_self, List.countP_cons, if_pos (decide_eq_true rfl)]
        split
        · rw [Option.getD_some]
          congr 1
          omega
        · next hrest =>
            have hzero : edges.countP (fun e' => decide (e'.2 = e.2)) = 0 := by
              refine List.countP_eq_zero.mpr ?_
              intro e' he' heq
              exact hrest (List.mem_map.mpr ⟨e', he', of_decide_eq_true heq⟩)
            rw [hzero]
      · have hne : n ≠ e.2 := fun h => he h.symm
        have hlast : ¬decide (e.2 = n) = true := by simpa using he
        rw [if_neg he, List.countP_cons, if_neg hlast, Nat.add_zero]
        simp only [List.mem_cons, hne, false_or]

variable {nodes : List κ} {edges : List (κ × κ)} {order done todo : List κ} {last : Option κ} {u : κ}
  {st : State κ}
variable (hedges : ∀ e ∈ edges, e.1 ∈ nodes ∧ e.2 ∈ nodes)

include hedges in
theorem indegrees_get (n : κ) : (indegrees nodes edges)[n]? =
    if n ∈ nodes then some (edges.countP (fun e => decide (e.2 = n))) else none := by
  rw [indegrees, foldl_raise, foldl_zero]
  by_cases hn : n ∈ nodes
  · simp only [hn, if_true, Option.getD_some, Nat.zero_add]
    split
    · rfl
    · next hout =>
        refine (congrArg some (List.countP_eq_zero.mpr ?_)).symm
        intro e he heq
        exact hout (List.mem_map.mpr ⟨e, he, of_decide_eq_true heq⟩)
  · have hout : n ∉ edges.map Prod.snd := by
      intro hmem
      obtain ⟨e, he, rfl⟩ := List.mem_map.mp hmem
      exact hn (hedges e he).2
    rw [if_neg hout, if_neg hn, if_neg hn]
    rfl

theorem foldl_one (nodes : List κ) (n : κ) : ∀ m : Table κ Nat,
    (nodes.foldl (fun m n => m.insert n 1) m)[n]? = if n ∈ nodes then some 1 else m[n]? := by
  induction nodes with
  | nil => intro m; simp
  | cons a nodes ih =>
      intro m
      rw [List.foldl_cons, ih, Table.get_insert]
      by_cases ha : a = n
      · simp [ha]
      · have hne : n ≠ a := fun h => ha h.symm
        simp [ha, hne]

/-! ## The invariant -/

/-- The state as the plain sort sees it, after taking `done`. -/
def State.sort (st : State κ) (done : List κ) : Kahn.State κ :=
  { indeg := st.indeg, queue := st.queue, processed := done.length }

/-- The state after taking `done`, with the edges from the last of them to `todo`
still to be relaxed. -/
structure Far (nodes : List κ) (edges : List (κ × κ)) (done : List κ) (last : Option κ) (todo : List κ)
    (st : State κ) : Prop where
  sort : Kahn.Inv nodes edges done todo (st.sort done)
  keys : ∀ n, (st.dist[n]?).isSome ↔ n ∈ nodes
  sound : ∀ n ∈ nodes, ∃ l, IsPath nodes edges (l ++ [n]) ∧ (l ++ [n]).length = st.distance n
  relaxed : ∀ e ∈ edges, e.1 ∈ done → last = some e.1 ∧ e.2 ∈ todo ∨ st.distance e.1 + 1 ≤ st.distance e.2

omit [DecidableEq κ] [Std.LawfulEqOrd κ] in
theorem relax_sort (du : Nat) (st : State κ) (w : κ) :
    (relax du st w).sort done = Kahn.enable (st.sort done) w := by
  unfold relax Kahn.enable State.sort
  cases st.indeg[w]? <;> rfl

omit [DecidableEq κ] [Std.LawfulEqOrd κ] in
theorem relax_dist (du : Nat) (st : State κ) (w : κ) : (relax du st w).dist =
    if st.distance w < du + 1 then st.dist.insert w (du + 1) else st.dist := by
  unfold relax
  cases st.indeg[w]? <;> rfl

theorem relax_distance (du : Nat) (st : State κ) (w n : κ) : (relax du st w).distance n =
    if n = w then max (st.distance w) (du + 1) else st.distance n := by
  rw [State.distance, relax_dist]
  by_cases hn : n = w
  · subst hn
    rw [if_pos rfl]
    split
    · next hlt =>
        rw [Table.get_insert_self, Option.getD_some]
        omega
    · next hle =>
        show st.distance n = _
        omega
  · rw [if_neg hn]
    split
    · rw [Table.get_insert_ne _ _ (fun h => hn h.symm)]
      rfl
    · rfl

/-- **One edge is relaxed.** -/
theorem Far.relax {w : κ} (h : Far nodes edges done (some u) (w :: todo) st) (hun : u ∈ nodes) (hw : w ∈ nodes) (huw : (u, w) ∈ edges) :
    Far nodes edges done (some u) todo (relax (st.distance u) st w) := by
  have hout : w ∉ done := by
    intro hmem
    have hzero := (h.sort.zero w).mp (List.mem_append_left _ hmem)
    rw [h.sort.count, if_pos hw, List.count_cons_self] at hzero
    exact absurd (Option.some.inj hzero) (by omega)
  have hne : ∀ {n}, n ∈ done → n ≠ w := by
    rintro n hn rfl
    exact hout hn
  refine ⟨?_, ?_, ?_, ?_⟩
  · rw [relax_sort]
    exact h.sort.enable hw
  · intro n
    rw [relax_dist]
    split
    · rw [Table.get_insert]
      split
      · next hwn =>
          subst hwn
          exact iff_of_true rfl hw
      · exact h.keys n
    · exact h.keys n
  · intro n hn
    rw [relax_distance]
    split
    · next hnw =>
        subst hnw
        rcases le_total (st.distance u + 1) (st.distance n) with hle | hle
        · rw [max_eq_left hle]
          exact h.sound n hn
        · rw [max_eq_right hle]
          obtain ⟨l, hpath, hlen⟩ := h.sound u hun
          refine ⟨l ++ [u], hpath.snoc hn huw, ?_⟩
          rw [List.length_append, hlen]
          rfl
    · exact h.sound n hn
  · intro e he hdone
    rw [relax_distance, relax_distance, if_neg (hne hdone)]
    rcases h.relaxed e he hdone with ⟨heu, hmem⟩ | hle
    · rcases List.mem_cons.mp hmem with hew | hmem
      · right
        rw [if_pos hew, Option.some.inj heu]
        exact le_max_right _ _
      · exact Or.inl ⟨heu, hmem⟩
    · right
      split
      · next hew =>
          rw [← hew]
          exact hle.trans (le_max_left _ _)
      · exact hle

/-- **All edges of one node are relaxed**, each with the distance that node had. -/
theorem Far.relaxAll {du : Nat} (hu : u ∈ done) (hun : u ∈ nodes) : ∀ {todo : List κ} {st : State κ},
    (∀ w ∈ todo, w ∈ nodes ∧ (u, w) ∈ edges) → st.distance u = du → Far nodes edges done (some u) todo st →
      Far nodes edges done (some u) [] (todo.foldl (LongestChain.relax du) st) := by
  intro todo
  induction todo with
  | nil => intro st _ _ h; exact h
  | cons w todo ih =>
      intro st htodo hdu h
      obtain ⟨hw, huw⟩ := htodo w List.mem_cons_self
      have hstep := h.relax hun hw huw
      rw [hdu] at hstep
      refine ih (fun m hm => htodo m (List.mem_cons_of_mem _ hm)) ?_ hstep
      -- the node is not its own successor: it has been taken
      have hne : u ≠ w := by
        rintro rfl
        have hzero := (h.sort.zero u).mp (List.mem_append_left _ hu)
        rw [h.sort.count, if_pos hw, List.count_cons_self] at hzero
        exact absurd (Option.some.inj hzero) (by omega)
      rw [relax_distance, if_neg hne, hdu]

omit [Std.LawfulEqOrd κ] in
theorem Far.take {v : κ} {queue : List κ} (h : Far nodes edges done last [] st) (hq : st.queue = v :: queue) :
    Far nodes edges (done ++ [v]) (some v) (enabledBy edges v) { st with queue := queue } := by
  have hsort := h.sort.take hq
  refine ⟨?_, h.keys, h.sound, ?_⟩
  · show Kahn.Inv nodes edges (done ++ [v]) (enabledBy edges v)
      { indeg := st.indeg, queue := queue, processed := (done ++ [v]).length }
    rw [List.length_append]
    exact hsort
  · intro e he hdone
    rcases List.mem_append.mp hdone with hdone | hlast
    · refine Or.inr ?_
      rcases h.relaxed e he hdone with ⟨-, hmem⟩ | hle
      · cases hmem
      · exact hle
    · refine Or.inl ⟨congrArg some (List.mem_singleton.mp hlast).symm, ?_⟩
      exact List.mem_map.mpr ⟨e, List.mem_filter.mpr ⟨he, by simpa using hlast⟩, rfl⟩

include hedges in
/-- **The loop** keeps the invariant and empties the queue. -/
theorem Far.loop : ∀ {fuel : Nat} {done : List κ} {last : Option κ} {st : State κ},
    Far nodes edges done last [] st → nodes.length ≤ done.length + fuel →
    ∃ done' last', Far nodes edges done' last' [] (loop edges fuel st) ∧
      (LongestChain.loop edges fuel st).queue = [] := by
  intro fuel
  induction fuel with
  | zero =>
      intro done last st h hlen
      exact ⟨done, last, h, h.sort.queue_empty hlen⟩
  | succ fuel ih =>
      intro done last st h hlen
      unfold LongestChain.loop
      split
      · next hq => exact ⟨done, last, h, hq⟩
      · next v queue hq =>
          have hv : v ∈ nodes := h.sort.mem_nodes (List.mem_append_right _ (by
            show v ∈ st.queue
            rw [hq]
            exact List.mem_cons_self))
          have htargets : ∀ w ∈ enabledBy edges v, w ∈ nodes ∧ (v, w) ∈ edges := by
            intro w hw
            obtain ⟨e, he, rfl⟩ := List.mem_map.mp hw
            obtain ⟨hmem, hev⟩ := List.mem_filter.mp he
            obtain rfl := of_decide_eq_true hev
            exact ⟨(hedges e hmem).2, hmem⟩
          refine ih ((h.take hq).relaxAll (List.mem_append_right _ List.mem_cons_self) hv htargets rfl) ?_
          rw [List.length_append, List.length_singleton]
          omega

include hedges in
theorem Far.start (hnodes : nodes.Nodup) (horder : order.Perm nodes) :
    Far nodes edges [] none [] (start nodes edges order) := by
  have hdist : ∀ n, (LongestChain.start nodes edges order).dist[n]? = if n ∈ nodes then some 1 else none := by
    intro n
    show (nodes.foldl (fun m n => m.insert n 1) ∅ : Table κ Nat)[n]? = _
    rw [foldl_one]
    rfl
  refine ⟨⟨rfl, ?_, ?_, ?_, ?_⟩, ?_, ?_, ?_⟩
  · show (order.filter _).Nodup
    exact (horder.nodup_iff.mpr hnodes).filter _
  · intro n
    show n ∈ order.filter _ ↔ (indegrees nodes edges)[n]? = some 0
    rw [List.mem_filter, decide_eq_true_eq, horder.mem_iff]
    refine and_iff_right_of_imp ?_
    intro hzero
    rw [indegrees_get hedges] at hzero
    split at hzero
    · assumption
    · cases hzero
  · intro n
    show (indegrees nodes edges)[n]? = _
    rw [indegrees_get hedges]
    simp [waiting]
  · intro xs n ys hl
    simp at hl
  · intro n
    rw [hdist]
    split <;> simp [*]
  · intro n hn
    refine ⟨[], ⟨by simp, by simpa using hn, List.isChain_singleton n⟩, ?_⟩
    rw [State.distance, hdist, if_pos hn]
    rfl
  · intro e _ hdone
    cases hdone

/-! ## The longest chain -/

include hedges in
omit [Std.LawfulEqOrd κ] in
/-- **Once all nodes are taken**, no chain that ends at a node is longer than its distance. -/
theorem Far.bound (h : Far nodes edges done last [] st) (hall : ∀ n ∈ nodes, n ∈ done) {n : κ} :
    ∀ {l : List κ}, IsPath nodes edges (l ++ [n]) → (l ++ [n]).length ≤ st.distance n := by
  intro l
  induction l using List.reverseRecOn generalizing n with
  | nil =>
      intro hpath
      obtain ⟨l', hpath', hlen⟩ := h.sound n (hpath.inside n (by simp))
      rw [← hlen]
      simp
  | append_singleton l m ih =>
      intro hpath
      have hsteps := hpath.steps
      have hmn : (m, n) ∈ edges := by
        rw [List.append_assoc] at hsteps
        exact (List.isChain_cons_cons.mp hsteps.right_of_append).1
      have hm := ih ⟨by simp, fun k hk => hpath.inside k (List.mem_append_left _ hk), hsteps.left_of_append⟩
      rcases h.relaxed (m, n) hmn (hall m (hedges _ hmn).1) with ⟨-, hmem⟩ | hle
      · cases hmem
      · rw [List.length_append, List.length_singleton]
        exact (Nat.add_le_add_right hm 1).trans hle

include hedges in
theorem run_far (hnodes : nodes.Nodup) (horder : order.Perm nodes) :
    ∃ done last, Far nodes edges done last [] (run nodes edges order) ∧ (run nodes edges order).queue = [] :=
  (Far.start hedges hnodes horder).loop hedges (by simp [horder.length_eq])

omit [DecidableEq κ] in
theorem mem_values {t : Table κ Nat} {k : Nat} : k ∈ t.toList.map Prod.snd ↔ ∃ n : κ, t[n]? = some k := by
  rw [List.mem_map]
  constructor
  · rintro ⟨⟨n, v⟩, hrow, rfl⟩
    exact ⟨n, Table.mem_rows.mp hrow⟩
  · rintro ⟨n, hn⟩
    exact ⟨(n, k), Table.mem_rows.mpr hn, rfl⟩

omit [Std.LawfulEqOrd κ] in
theorem Far.mem_dist (h : Far nodes edges done last [] st) {k : Nat} :
    (∃ n : κ, st.dist[n]? = some k) ↔ ∃ n ∈ nodes, st.distance n = k := by
  refine exists_congr (fun n => ?_)
  rw [← h.keys n, State.distance]
  cases st.dist[n]? <;> simp

include hedges in
/-- **The largest distance** of an acyclic graph is its longest chain, whatever the
order in which the first nodes are queued. -/
theorem longest_iff (hnodes : nodes.Nodup) (horder : order.Perm nodes)
    (hacyclic : ∀ n ∈ nodes, ¬Circular edges n) (k : Nat) :
    longest nodes edges order = some k ↔ IsLongest nodes edges k := by
  obtain ⟨done, last, h, hq⟩ := run_far hedges hnodes horder
  have hall : ∀ n ∈ nodes, n ∈ done := by
    intro n hn
    exact (h.sort.taken_iff hedges hq n).mpr ⟨hn, hacyclic n hn⟩
  have hbound : ∀ l, IsPath nodes edges l → ∃ n ∈ nodes, l.length ≤ (run nodes edges order).distance n := by
    intro l hpath
    obtain ⟨l', n, hl⟩ := (List.eq_nil_or_concat l).resolve_left hpath.nonempty
    rw [List.concat_eq_append] at hl
    subst hl
    exact ⟨n, hpath.inside n (by simp), h.bound hedges hall hpath⟩
  rw [longest, List.max?_eq_some_iff, mem_values, h.mem_dist]
  constructor
  · rintro ⟨⟨n, hn, rfl⟩, hmax⟩
    obtain ⟨l, hpath, hlen⟩ := h.sound n hn
    refine ⟨⟨_, hpath, hlen⟩, ?_⟩
    intro l' hpath'
    obtain ⟨m, hm, hle⟩ := hbound l' hpath'
    exact hle.trans (hmax _ (mem_values.mpr (h.mem_dist.mpr ⟨m, hm, rfl⟩)))
  · rintro ⟨⟨l, hpath, rfl⟩, hmax⟩
    obtain ⟨n, hn, hle⟩ := hbound l hpath
    obtain ⟨l', hpath', hlen'⟩ := h.sound n hn
    refine ⟨⟨n, hn, le_antisymm (hlen' ▸ hmax _ hpath') hle⟩, ?_⟩
    intro b hb
    obtain ⟨m, hm, rfl⟩ := h.mem_dist.mp (mem_values.mp hb)
    obtain ⟨lm, hpathm, hlenm⟩ := h.sound m hm
    exact hlenm ▸ hmax _ hpathm

include hedges in
/-- With a node there is always an answer, on a cycle too. -/
theorem longest_isSome (hnodes : nodes.Nodup) (horder : order.Perm nodes) (hne : nodes ≠ []) :
    longest nodes edges order ≠ none := by
  obtain ⟨done, last, h, -⟩ := run_far hedges hnodes horder
  intro hnone
  rw [longest, List.max?_eq_none_iff] at hnone
  obtain ⟨n, hn⟩ := List.exists_mem_of_ne_nil nodes hne
  have hmem : (run nodes edges order).distance n ∈ (run nodes edges order).dist.toList.map Prod.snd :=
    mem_values.mpr (h.mem_dist.mpr ⟨n, hn, rfl⟩)
  rw [hnone] at hmem
  cases hmem

end LongestChain

end Octos
