/-
# `Octos.Lib.ThreeColour` — the three-colour search for a cycle

A depth-first search over a graph given by its edges.  A node is white until it
is visited, gray while the search is below it, black when all its successors
are black.  An edge into a gray node closes a cycle; the search then stops and
reports the nodes of its path from that node on.

    gray    the nodes of the current path
    black   a set closed under edges, without a cycle

The first line makes the report a closed walk, the second makes success mean
that no cycle is reached (`search_iff`, `search_error`).  The order in which
the white nodes are taken up does not matter for the verdict.
-/
import Octos.Lib.Reach

namespace Octos

namespace ThreeColour

open Reach

variable {α : Type} [DecidableEq α]

/-! ## The search -/

/-- What the search threads: three sets and the path. -/
structure Search (α : Type) where
  white : Finset α
  gray : Finset α := ∅
  black : Finset α := ∅
  path : List α := []

def Search.enter (s : Search α) (node : α) : Search α :=
  { s with
    white := s.white.erase node
    gray := insert node s.gray
    path := s.path ++ [node] }

def Search.leave (s : Search α) (node : α) : Search α :=
  { s with
    gray := s.gray.erase node
    black := insert node s.black
    path := s.path.dropLast }

/-- The path from `next` on, and `next` again. -/
def Search.closing (s : Search α) (next : α) : List α :=
  s.path.drop ((s.path.idxOf? next).getD 0) ++ [next]

/-- The rounds of the recursion are bounded; an empty walk would say that they
ran out. -/
def dfs (E : List (α × α)) : Nat → α → Search α → Except (List α) (Search α)
  | 0, _, _ => .error []
  | fuel + 1, node, s => do
      let s ← (succ E node).foldlM (fun s next =>
        if next ∈ s.black then .ok s
        else if next ∈ s.gray then .error (s.closing next)
        else dfs E fuel next s) (s.enter node)
      return s.leave node

/-- Visit what `unvisited` says is still to be visited, in the given order. -/
def search (E : List (α × α)) (unvisited : Search α → α → Bool) (white : Finset α) (order : List α) :
    Except (List α) Unit := do
  let _ ← order.foldlM (fun s node =>
    if unvisited s node then dfs E (order.length + E.length) node s else .ok s) { white := white }
  return ()

/-! ## Walks -/

/-- At least one step, and back at the start. -/
structure ClosedWalk (R : α → α → Prop) (walk : List α) : Prop where
  steps : walk.IsChain R
  long : 2 ≤ walk.length
  closed : walk.head? = walk.getLast?

omit [DecidableEq α] in
theorem reaches_last {R : α → α → Prop} : ∀ {l : List α} {a b : α}, (a :: l).IsChain R →
    (a :: l).getLast? = some b → Relation.ReflTransGen R a b := by
  intro l
  induction l with
  | nil =>
      intro a b _ hlast
      obtain rfl : a = b := by simpa using hlast
      exact .refl
  | cons c l ih =>
      intro a b h hlast
      rw [List.isChain_cons_cons] at h
      rw [List.getLast?_cons_cons] at hlast
      exact .head h.1 (ih h.2 hlast)

omit [DecidableEq α] in
/-- A closed walk is a cycle through its first node. -/
theorem ClosedWalk.cycle {R : α → α → Prop} {walk : List α} (h : ClosedWalk R walk) :
    ∃ a, walk.head? = some a ∧ Relation.TransGen R a a := by
  obtain ⟨hsteps, hlong, hclosed⟩ := h
  match walk with
  | [] => exact absurd hlong (by simp)
  | [_] => exact absurd hlong (by simp)
  | a :: b :: l =>
      rw [List.isChain_cons_cons] at hsteps
      rw [List.getLast?_cons_cons] at hclosed
      exact ⟨a, rfl, .head' hsteps.1 (reaches_last hsteps.2 hclosed.symm)⟩

/-! ## The invariant -/

/-- Whatever the search has to know about its sets.  `white` are the nodes that
were white at the start, `roots` those at which a path may begin. -/
structure Inv (E : List (α × α)) (roots : List α) (white : Finset α) (s : Search α) : Prop where
  gray : ∀ n, n ∈ s.gray ↔ n ∈ s.path
  white : s.white = white \ (s.black ∪ s.gray)
  nodup : s.path.Nodup
  chain : s.path.IsChain (Adj E)
  root : ∀ r ∈ s.path.head?, r ∈ roots
  apart : ∀ n ∈ s.path, n ∉ s.black
  closed : ∀ n ∈ s.black, ∀ m, Adj E n m → m ∈ s.black
  acyclic : ∀ n ∈ s.black, ¬Relation.TransGen (Adj E) n n

variable {E : List (α × α)} {roots : List α} {white : Finset α} {s : Search α} {node : α}

theorem Inv.start (E : List (α × α)) (roots : List α) (white : Finset α) :
    Inv E roots white { white := white } := by
  refine ⟨by simp, by simp, List.nodup_nil, List.isChain_nil, by simp, by simp, by simp, by simp⟩

/-- Where a visit may begin: at a root, or at a successor of the last node of the path. -/
def Enters (E : List (α × α)) (roots : List α) (s : Search α) (node : α) : Prop :=
  match s.path.getLast? with
  | none => node ∈ roots
  | some last => Adj E last node

theorem Inv.enter (h : Inv E roots white s) (hblack : node ∉ s.black) (hgray : node ∉ s.gray)
    (henters : Enters E roots s node) : Inv E roots white (s.enter node) := by
  have hpath : node ∉ s.path := fun hmem => hgray ((h.gray node).mpr hmem)
  refine ⟨?_, ?_, ?_, ?_, ?_, ?_, h.closed, h.acyclic⟩
  · intro n
    show n ∈ insert node s.gray ↔ n ∈ s.path ++ [node]
    rw [Finset.mem_insert, h.gray n, List.mem_append, List.mem_singleton, or_comm]
  · show s.white.erase node = white \ (s.black ∪ insert node s.gray)
    rw [h.white]
    ext n
    simp only [Finset.mem_erase, Finset.mem_sdiff, Finset.mem_union, Finset.mem_insert]
    tauto
  · show (s.path ++ [node]).Nodup
    exact h.nodup.append (List.nodup_singleton node) (by simpa [List.disjoint_singleton] using hpath)
  · show (s.path ++ [node]).IsChain (Adj E)
    refine h.chain.append (List.isChain_singleton node) ?_
    intro last hlast first hfirst
    obtain rfl : node = first := by simpa using hfirst
    rw [Enters, Option.mem_def.mp hlast] at henters
    exact henters
  · intro r hr
    cases hp : s.path with
    | nil =>
        rw [Enters, hp] at henters
        have hr' : some node = some r := by simpa [Search.enter, hp] using hr
        obtain rfl := Option.some.inj hr'
        exact henters
    | cons a l =>
        refine h.root r ?_
        rw [hp]
        simpa [Search.enter, hp] using hr
  · intro n hn
    rcases List.mem_append.mp hn with hn | hn
    · exact h.apart n hn
    · obtain rfl := List.mem_singleton.mp hn
      exact hblack

/-- A node all of whose successors are black may become black. -/
theorem Inv.leave {p : List α} (h : Inv E roots white s) (hpath : s.path = p ++ [node])
    (hsucc : ∀ m, Adj E node m → m ∈ s.black) : Inv E roots white (s.leave node) := by
  have hnode : node ∉ s.black := h.apart node (by simp [hpath])
  have hnodup := h.nodup
  rw [hpath, List.nodup_append] at hnodup
  have hout : node ∉ p := by
    intro hmem
    exact hnodup.2.2 node hmem node (by simp) rfl
  have hleft : (s.leave node).path = p := by simp [Search.leave, hpath]
  have hchain := h.chain
  rw [hpath] at hchain
  refine ⟨?_, ?_, ?_, ?_, ?_, ?_, ?_, ?_⟩
  · intro n
    rw [hleft]
    show n ∈ s.gray.erase node ↔ n ∈ p
    rw [Finset.mem_erase, h.gray n, hpath, List.mem_append, List.mem_singleton]
    constructor
    · rintro ⟨hne, hmem⟩
      exact hmem.resolve_right hne
    · intro hmem
      refine ⟨?_, Or.inl hmem⟩
      rintro rfl
      exact hout hmem
  · show s.white = white \ (insert node s.black ∪ s.gray.erase node)
    have hin : node ∈ s.gray := (h.gray node).mpr (by simp [hpath])
    rw [h.white]
    ext n
    simp only [Finset.mem_erase, Finset.mem_sdiff, Finset.mem_union, Finset.mem_insert]
    by_cases hn : n = node
    · subst hn
      simp [hin]
    · simp [hn]
  · rw [hleft]
    exact hnodup.1
  · rw [hleft]
    exact hchain.left_of_append
  · rw [hleft]
    intro r hr
    refine h.root r ?_
    rw [hpath, List.head?_append, Option.mem_def.mp hr]
    rfl
  · rw [hleft]
    intro n hn hmem
    rcases Finset.mem_insert.mp hmem with rfl | hmem
    · exact hout hn
    · exact h.apart n (by simp [hpath, hn]) hmem
  · intro n hn m hm
    refine Finset.mem_insert_of_mem ?_
    rcases Finset.mem_insert.mp hn with rfl | hn
    · exact hsucc m hm
    · exact h.closed n hn m hm
  · intro n hn hcycle
    rcases Finset.mem_insert.mp hn with rfl | hn
    · -- the cycle would go through a black node and stay black
      obtain ⟨m, hm, hback⟩ := Relation.TransGen.head'_iff.mp hcycle
      have hstay : ∀ k, Relation.ReflTransGen (Adj E) m k → k ∈ s.black := by
        intro k hk
        induction hk with
        | refl => exact hsucc m hm
        | tail _ hstep ih => exact h.closed _ ih _ hstep
      exact hnode (hstay n hback)
    · exact h.acyclic n hn hcycle

theorem idxOf_append {xs ys : List α} {a : α} (h : a ∉ xs) :
    (xs ++ a :: ys).idxOf? a = some xs.length := by
  induction xs with
  | nil => simp [List.idxOf?_cons]
  | cons x xs ih =>
      rw [List.mem_cons, not_or] at h
      have hne : (x == a) = false := by simpa using fun hx : x = a => h.1 hx.symm
      rw [List.cons_append, List.idxOf?_cons, ih h.2, hne]
      rfl

/-- An edge from the end of the path into a gray node closes a walk that a root reaches. -/
theorem Inv.closing {p : List α} {next : α} (h : Inv E roots white s) (hpath : s.path = p ++ [node])
    (hadj : Adj E node next) (hgray : next ∈ s.gray) :
    ClosedWalk (Adj E) (s.closing next) ∧
      ∃ r ∈ roots, ∀ a ∈ (s.closing next).head?, Relation.ReflTransGen (Adj E) r a := by
  obtain ⟨xs, ys, hsplit, hxs⟩ := List.eq_append_cons_of_mem ((h.gray next).mp hgray)
  have hclosing : s.closing next = next :: ys ++ [next] := by
    rw [Search.closing, hsplit, idxOf_append hxs, Option.getD_some, List.drop_left]
  have hchain := h.chain
  rw [hsplit] at hchain
  refine ⟨⟨?_, ?_, ?_⟩, ?_⟩
  · rw [hclosing]
    refine hchain.right_of_append.append (List.isChain_singleton next) ?_
    intro last hlast first hfirst
    obtain rfl : next = first := by simpa using hfirst
    have hend : s.path.getLast? = some last := by
      rw [hsplit, List.getLast?_append, Option.mem_def.mp hlast]
      rfl
    rw [hpath, List.getLast?_append] at hend
    obtain rfl : node = last := by simpa using hend
    exact hadj
  · rw [hclosing]
    simp
  · rw [hclosing, List.getLast?_append]
    rfl
  · -- the path leads from a root to `next`
    obtain ⟨r, hr⟩ : ∃ r, (xs ++ [next]).head? = some r := by
      cases xs with
      | nil => exact ⟨next, rfl⟩
      | cons x xs => exact ⟨x, rfl⟩
    refine ⟨r, h.root r ?_, ?_⟩
    · rw [hsplit]
      cases xs with
      | nil => exact hr
      | cons x xs => exact hr
    · intro a ha
      rw [hclosing] at ha
      obtain rfl : next = a := by simpa using ha
      have hto : (xs ++ [next]).IsChain (Adj E) := by
        rw [show xs ++ next :: ys = (xs ++ [next]) ++ ys by simp] at hchain
        exact hchain.left_of_append
      cases hxs' : xs ++ [next] with
      | nil => simp at hxs'
      | cons x l =>
          rw [hxs'] at hr hto
          obtain rfl : x = r := by simpa using hr
          refine reaches_last hto ?_
          rw [← hxs', List.getLast?_append]
          rfl

/-! ## One visit -/

/-- How a visit ends: its nodes are black, or a cycle that a root reaches is reported. -/
def Ends (E : List (α × α)) (roots : List α) (white : Finset α) (s : Search α) (nodes : List α) :
    Except (List α) (Search α) → Prop
  | .ok s' => Inv E roots white s' ∧ s'.path = s.path ∧ s.black ⊆ s'.black ∧ ∀ n ∈ nodes, n ∈ s'.black
  | .error walk => ClosedWalk (Adj E) walk ∧
      ∃ r ∈ roots, ∀ a ∈ walk.head?, Relation.ReflTransGen (Adj E) r a

/-- How many of the nodes of `all` are still to be visited. -/
def left (all : Finset α) (s : Search α) : Nat :=
  (all \ (s.black ∪ s.gray)).card

theorem left_enter {all : Finset α} (hall : node ∈ all) (hblack : node ∉ s.black) (hgray : node ∉ s.gray) :
    left all (s.enter node) < left all s := by
  refine Finset.card_lt_card (Finset.ssubset_iff_of_subset ?_ |>.mpr ⟨node, ?_, ?_⟩)
  · intro n
    simp only [Search.enter, Finset.mem_sdiff, Finset.mem_union, Finset.mem_insert]
    tauto
  · simp [hall, hblack, hgray]
  · simp [Search.enter]

/-- Painting more nodes black leaves fewer. -/
theorem left_mono {all : Finset α} {s' : Search α} (hgray : s'.gray = s.gray) (hblack : s.black ⊆ s'.black) :
    left all s' ≤ left all s := by
  refine Finset.card_le_card ?_
  intro n
  rw [hgray]
  simp only [Finset.mem_sdiff, Finset.mem_union, not_or]
  rintro ⟨hn, hout, hng⟩
  exact ⟨hn, fun hmem => hout (hblack hmem), hng⟩

theorem Inv.gray_eq {s' : Search α} (h : Inv E roots white s) (h' : Inv E roots white s')
    (hpath : s'.path = s.path) : s'.gray = s.gray := by
  ext n
  rw [h'.gray, h.gray, hpath]

/-- One visit and then others. -/
theorem Ends.bind {nodes : List α} {first : Except (List α) (Search α)}
    {rest : Search α → Except (List α) (Search α)} (hfirst : Ends E roots white s [node] first)
    (hrest : ∀ s₁, Inv E roots white s₁ → s₁.path = s.path → s.black ⊆ s₁.black →
      Ends E roots white s₁ nodes (rest s₁)) :
    Ends E roots white s (node :: nodes) (first >>= rest) := by
  cases first with
  | error walk => exact hfirst
  | ok s₁ =>
      obtain ⟨h₁, hpath₁, hkeep₁, hdone₁⟩ := hfirst
      have hend := hrest s₁ h₁ hpath₁ hkeep₁
      show Ends E roots white s (node :: nodes) (rest s₁)
      cases hs : rest s₁ with
      | error walk =>
          rw [hs] at hend
          exact hend
      | ok s₂ =>
          rw [hs] at hend
          obtain ⟨h₂, hpath₂, hkeep₂, hdone₂⟩ := hend
          refine ⟨h₂, hpath₂.trans hpath₁, hkeep₁.trans hkeep₂, ?_⟩
          intro n hn
          rcases List.mem_cons.mp hn with rfl | hn
          · exact hkeep₂ (hdone₁ n List.mem_cons_self)
          · exact hdone₂ n hn

/-- A node that is black already needs no visit. -/
theorem Ends.skip (h : Inv E roots white s) (hblack : node ∈ s.black) :
    Ends E roots white s [node] (.ok s) := by
  refine ⟨h, rfl, fun _ hn => hn, ?_⟩
  intro n hn
  obtain rfl := List.mem_singleton.mp hn
  exact hblack

/-- The successors of the last node of the path, one after the other. -/
theorem successors_end {all : Finset α} {fuel : Nat} {p : List α}
    (hdfs : ∀ (next : α) (s : Search α), Inv E roots white s → next ∈ all → next ∉ s.black → next ∉ s.gray →
      Enters E roots s next → left all s ≤ fuel → Ends E roots white s [next] (dfs E fuel next s)) :
    ∀ (nexts : List α) (s : Search α), Inv E roots white s → s.path = p ++ [node] → left all s ≤ fuel →
      (∀ next ∈ nexts, Adj E node next ∧ next ∈ all) →
      Ends E roots white s nexts (nexts.foldlM (fun s next =>
        if next ∈ s.black then .ok s
        else if next ∈ s.gray then .error (s.closing next)
        else dfs E fuel next s) s) := by
  intro nexts
  induction nexts with
  | nil =>
      intro s h _ _ _
      exact ⟨h, rfl, fun _ hn => hn, by simp⟩
  | cons next nexts ih =>
      intro s h hpath hleft hnexts
      obtain ⟨hadj, hall⟩ := hnexts next List.mem_cons_self
      rw [List.foldlM_cons]
      refine Ends.bind ?_ ?_
      · split
        · next hblack => exact Ends.skip h hblack
        · next hblack =>
            split
            · next hgray => exact h.closing hpath hadj hgray
            · next hgray =>
                refine hdfs next s h hall hblack hgray ?_ hleft
                rw [Enters, hpath, List.getLast?_append]
                exact hadj
      · intro s₁ h₁ hpath₁ hkeep₁
        exact ih s₁ h₁ (hpath₁.trans hpath) ((left_mono (h.gray_eq h₁ hpath₁) hkeep₁).trans hleft)
          (fun m hm => hnexts m (List.mem_cons_of_mem _ hm))

/-- **A visit** makes its node black or reports a cycle; the rounds do not run out. -/
theorem dfs_end {all : Finset α} (hall : ∀ a b, Adj E a b → b ∈ all) : ∀ (fuel : Nat) (node : α) (s : Search α),
    Inv E roots white s → node ∈ all → node ∉ s.black → node ∉ s.gray → Enters E roots s node →
    left all s ≤ fuel → Ends E roots white s [node] (dfs E fuel node s) := by
  intro fuel
  induction fuel with
  | zero =>
      intro node s _ hnode hblack hgray _ hleft
      have hlt := left_enter hnode hblack hgray
      omega
  | succ fuel ih =>
      intro node s h hnode hblack hgray henters hleft
      have hlt := left_enter hnode hblack hgray
      have hsucc : ∀ next ∈ succ E node, Adj E node next ∧ next ∈ all := by
        intro next hnext
        have hadj := mem_succ.mp hnext
        exact ⟨hadj, hall node next hadj⟩
      have hend := successors_end ih (succ E node) (s.enter node) (h.enter hblack hgray henters) rfl
        (by omega) hsucc
      rw [dfs]
      revert hend
      generalize ((succ E node).foldlM _ (s.enter node) : Except (List α) (Search α)) = result
      cases result with
      | error walk => exact id
      | ok s' =>
          rintro ⟨h', hp, hkeep, hdone⟩
          show Ends E roots white s [node] (.ok (s'.leave node))
          refine ⟨h'.leave (p := s.path) hp ?_, ?_, ?_, ?_⟩
          · intro m hm
            exact hdone m (mem_succ.mpr hm)
          · show s'.path.dropLast = s.path
            rw [hp]
            simp [Search.enter]
          · exact hkeep.trans (Finset.subset_insert _ _)
          · intro n hn
            obtain rfl := List.mem_singleton.mp hn
            exact Finset.mem_insert_self _ _

/-! ## The whole search -/

/-- The nodes of a graph and of a list. -/
def allNodes (E : List (α × α)) (order : List α) : Finset α :=
  (order ++ E.map Prod.snd).toFinset

theorem left_allNodes (E : List (α × α)) (order : List α) (s : Search α) :
    left (allNodes E order) s ≤ order.length + E.length := by
  refine (Finset.card_le_card Finset.sdiff_subset).trans ((List.toFinset_card_le _).trans ?_)
  simp

theorem mem_allNodes_order (E : List (α × α)) {order : List α} (h : node ∈ order) : node ∈ allNodes E order :=
  List.mem_toFinset.mpr (List.mem_append_left _ h)

theorem mem_allNodes_target {a b : α} (order : List α) (h : Adj E a b) : b ∈ allNodes E order :=
  List.mem_toFinset.mpr (List.mem_append_right _ (List.mem_map_of_mem h))

theorem roots_end {unvisited : Search α → α → Bool} {order : List α} {white : Finset α}
    (hunvisited : ∀ s, Inv E order white s → s.path = [] → ∀ n ∈ order,
      unvisited s n = true ↔ n ∉ s.black) :
    ∀ (nodes : List α) (s : Search α), (∀ n ∈ nodes, n ∈ order) → Inv E order white s → s.path = [] →
      Ends E order white s nodes (nodes.foldlM (fun s node =>
        if unvisited s node then dfs E (order.length + E.length) node s else .ok s) s) := by
  intro nodes
  induction nodes with
  | nil =>
      intro s _ h _
      exact ⟨h, rfl, fun _ hn => hn, by simp⟩
  | cons node nodes ih =>
      intro s hnodes h hpath
      have hnode := hnodes node List.mem_cons_self
      rw [List.foldlM_cons]
      refine Ends.bind ?_ ?_
      · split
        · next hun =>
            have hblack : node ∉ s.black := (hunvisited s h hpath node hnode).mp hun
            have hgray : node ∉ s.gray := by
              rw [h.gray, hpath]
              exact List.not_mem_nil
            refine dfs_end (fun a b hab => mem_allNodes_target order hab) _ node s h
              (mem_allNodes_order E hnode) hblack hgray ?_ (left_allNodes E order s)
            rw [Enters, hpath]
            exact hnode
        · next hun =>
            refine Ends.skip h ?_
            by_contra hblack
            exact hun ((hunvisited s h hpath node hnode).mpr hblack)
      · intro s₁ h₁ hpath₁ _
        exact ih s₁ (fun n hn => hnodes n (List.mem_cons_of_mem _ hn)) h₁ (hpath₁.trans hpath)

/-- What is asked of `unvisited`: between two visits it says what is not black yet. -/
def Asks (E : List (α × α)) (unvisited : Search α → α → Bool) (white : Finset α) (order : List α) : Prop :=
  ∀ s, Inv E order white s → s.path = [] → ∀ n ∈ order, unvisited s n = true ↔ n ∉ s.black

theorem asks_white (E : List (α × α)) (order : List α) :
    Asks E (fun s n => decide (n ∈ s.white)) order.toFinset order := by
  intro s h hpath n hn
  have hgray : n ∉ s.gray := by
    rw [h.gray, hpath]
    exact List.not_mem_nil
  rw [decide_eq_true_eq, h.white]
  simp [hn, hgray]

theorem asks_black (E : List (α × α)) (order : List α) :
    Asks E (fun s n => !decide (n ∈ s.black)) ∅ order := by
  intro s _ _ n _
  simp

variable {unvisited : Search α → α → Bool} {order : List α}

theorem search_end (hasks : Asks E unvisited white order) :
    ∃ result, Ends E order white { white := white } order result ∧
      search E unvisited white order = (result >>= fun _ => return ()) :=
  ⟨_, roots_end hasks order _ (fun _ hn => hn) (Inv.start E order white) rfl, rfl⟩

/-- From some listed node a cycle is reached. -/
def ReachesCycle (E : List (α × α)) (order : List α) : Prop :=
  ∃ n ∈ order, ∃ a, Relation.ReflTransGen (Adj E) n a ∧ Relation.TransGen (Adj E) a a

/-- **What is reported** is a closed walk, reached from a listed node. -/
theorem search_error (hasks : Asks E unvisited white order) {walk : List α}
    (h : search E unvisited white order = .error walk) :
    ClosedWalk (Adj E) walk ∧ ∃ r ∈ order, ∀ a ∈ walk.head?, Relation.ReflTransGen (Adj E) r a := by
  obtain ⟨result, hend, hresult⟩ := search_end hasks
  rw [hresult] at h
  cases result with
  | error walk' =>
      obtain rfl : walk' = walk := Except.error.inj h
      exact hend
  | ok s => cases h

/-- **The verdict** is that no cycle is reached. -/
theorem search_iff (hasks : Asks E unvisited white order) :
    search E unvisited white order = .ok () ↔ ¬ReachesCycle E order := by
  obtain ⟨result, hend, hresult⟩ := search_end hasks
  rw [hresult]
  cases result with
  | error walk =>
      obtain ⟨hwalk, r, hr, hreach⟩ := hend
      obtain ⟨a, ha, hcycle⟩ := hwalk.cycle
      constructor
      · intro h
        cases h
      · intro hnone
        exact absurd ⟨r, hr, a, hreach a ha, hcycle⟩ hnone
  | ok s =>
      obtain ⟨h, -, -, hdone⟩ := hend
      refine iff_of_true rfl ?_
      rintro ⟨n, hn, a, hreach, hcycle⟩
      refine h.acyclic a ?_ hcycle
      clear hcycle
      induction hreach with
      | refl => exact hdone n hn
      | tail _ hstep ih => exact h.closed _ ih _ hstep

end ThreeColour

end Octos
