/-
# `Octos.Lib.Reach` — searching a graph given by its edges

A graph is a list of edges.  Two searches over it are used everywhere a graph
is walked with a stack and a set of seen nodes.

    reachSet E a       the nodes reachable from a
    reaches E a b      whether b is among them, with an early exit
    reachCount R l a   how many nodes are reachable: a measure for walks that
                       meet no cycle

The stack searches need as many passes as there are edges, and one more: a node
is expanded once, so an edge is pushed once.  That is the measure `pending`.
-/
import Octos.Lib.Result

namespace Octos

namespace Reach

variable {α : Type}

/-- The edge relation. -/
def Adj (E : List (α × α)) (a b : α) : Prop :=
  (a, b) ∈ E

/-- No node is on a cycle. -/
def Acyclic (R : α → α → Prop) : Prop :=
  ∀ a, ¬ Relation.TransGen R a a

/-- Of the listed nodes with a property, one has no such predecessor. -/
theorem Acyclic.exists_minimal {R : α → α → Prop} (h : Acyclic R) {l : List α} {P : α → Prop}
    {n : α} (hn : n ∈ l) (hP : P n) : ∃ m ∈ l, P m ∧ ∀ p ∈ l, R p m → ¬ P p := by
  have hstrict : IsStrictOrder α (Relation.TransGen R) :=
    { irrefl := h
      trans := fun _ _ _ h₁ h₂ => h₁.trans h₂ }
  have hfin : {m | m ∈ l ∧ P m}.Finite := l.finite_toSet.subset (fun m hm => hm.1)
  have hwf : {m | m ∈ l ∧ P m}.WellFoundedOn (Relation.TransGen R) := hfin.wellFoundedOn
  obtain ⟨⟨m, hm, hPm⟩, -, hmin⟩ := WellFounded.has_min hwf Set.univ ⟨⟨n, hn, hP⟩, trivial⟩
  refine ⟨m, hm, hPm, ?_⟩
  intro p hp hpm hPp
  exact hmin ⟨p, hp, hPp⟩ trivial (.single hpm)

/-- Every edge on a cycle has a way back. -/
theorem wayBack {R S : α → α → Prop} (hRS : ∀ a b, R a b → S a b) {a b : α}
    (h : Relation.TransGen R a b) (hback : Relation.ReflTransGen S b a) :
    Relation.TransGen (fun x y => R x y ∧ Relation.ReflTransGen S y x) a b := by
  induction h with
  | single hab => exact .single ⟨hab, hback⟩
  | @tail c b hac hcb ih =>
      have hto : Relation.ReflTransGen S a c :=
        Relation.ReflTransGen.mono hRS _ _ hac.to_reflTransGen
      exact .tail (ih (.head (hRS _ _ hcb) hback)) ⟨hcb, hback.trans hto⟩

section Count

open Classical

end Count

variable [DecidableEq α]

/-- The successors of a node, in edge order. -/
def succ (E : List (α × α)) (n : α) : List α :=
  (E.filter (fun e => decide (e.1 = n))).map Prod.snd

theorem mem_succ {E : List (α × α)} {a b : α} : b ∈ succ E a ↔ Adj E a b := by
  simp [succ, Adj]

/-! ## The stack searches -/

/-- Pop a node; a new one is marked and its successors are pushed, the last one
on top. -/
def searchAll (E : List (α × α)) : Nat → List α → List α → List α
  | 0, seen, _ => seen
  | _ + 1, seen, [] => seen
  | fuel + 1, seen, n :: stack =>
      if n ∈ seen then searchAll E fuel seen stack
      else searchAll E fuel (n :: seen) ((succ E n).reverse ++ stack)

/-- The same loop, left when the wanted node is popped. -/
def searchFor (E : List (α × α)) (goal : α) : Nat → List α → List α → Bool
  | 0, _, _ => false
  | _ + 1, _, [] => false
  | fuel + 1, seen, n :: stack =>
      if n = goal then true
      else if n ∈ seen then searchFor E goal fuel seen stack
      else searchFor E goal fuel (n :: seen) ((succ E n).reverse ++ stack)

/-- The nodes reachable from a node. -/
def reachSet (E : List (α × α)) (a : α) : List α :=
  searchAll E (E.length + 1) [] [a]

/-- Whether one node reaches another. -/
def reaches (E : List (α × α)) (a b : α) : Bool :=
  searchFor E b (E.length + 1) [] [a]

/-- What is still to be popped: the stack, and the edges not yet pushed. -/
def pending (E : List (α × α)) (seen stack : List α) : Nat :=
  stack.length + (E.filter (fun e => decide (e.1 ∉ seen))).length

/-- Expanding a node moves its edges from the second part to the first. -/
theorem pending_expand {E : List (α × α)} {n : α} {seen stack : List α} (hn : n ∉ seen) :
    pending E (n :: seen) ((succ E n).reverse ++ stack) + 1 = pending E seen (n :: stack) := by
  have hsplit : (E.filter (fun e => decide (e.1 = n))).length +
      (E.filter (fun e => decide (e.1 ∉ n :: seen))).length =
        (E.filter (fun e => decide (e.1 ∉ seen))).length := by
    induction E with
    | nil => rfl
    | cons e E ih =>
        by_cases he : e.1 = n
        · simp [he, hn] at ih ⊢
          omega
        · by_cases hs : e.1 ∈ seen
          · simp [he, hs] at ih ⊢
            omega
          · simp [he, hs] at ih ⊢
            omega
  simp only [pending, succ, List.length_append, List.length_reverse, List.length_map,
    List.length_cons]
  omega

theorem searchAll_seen {E : List (α × α)} : ∀ {fuel : Nat} {seen stack : List α} {n : α},
    n ∈ seen → n ∈ searchAll E fuel seen stack := by
  intro fuel
  induction fuel with
  | zero => exact fun h => h
  | succ fuel ih =>
      intro seen stack n hn
      cases stack with
      | nil => exact hn
      | cons m stack =>
          rw [searchAll]
          split
          · exact ih hn
          · exact ih (List.mem_cons_of_mem _ hn)

/-- Only reachable nodes are marked. -/
theorem searchAll_sound {E : List (α × α)} : ∀ {fuel : Nat} {seen stack : List α} {n : α},
    n ∈ searchAll E fuel seen stack →
      n ∈ seen ∨ ∃ m ∈ stack, Relation.ReflTransGen (Adj E) m n := by
  intro fuel
  induction fuel with
  | zero => exact fun h => Or.inl h
  | succ fuel ih =>
      intro seen stack n h
      cases stack with
      | nil => exact Or.inl h
      | cons m stack =>
          rw [searchAll] at h
          split at h
          · rcases ih h with hs | ⟨k, hk, hr⟩
            · exact Or.inl hs
            · exact Or.inr ⟨k, List.mem_cons_of_mem _ hk, hr⟩
          · rcases ih h with hs | ⟨k, hk, hr⟩
            · rcases List.mem_cons.mp hs with rfl | hs
              · exact Or.inr ⟨n, List.mem_cons_self, .refl⟩
              · exact Or.inl hs
            · rcases List.mem_append.mp hk with hk | hk
              · have hadj := mem_succ.mp (List.mem_reverse.mp hk)
                exact Or.inr ⟨m, List.mem_cons_self, .head hadj hr⟩
              · exact Or.inr ⟨k, List.mem_cons_of_mem _ hk, hr⟩

/-- Marked nodes are either on the stack's way or fully expanded. -/
theorem searchAll_complete {E : List (α × α)} : ∀ {fuel : Nat} {seen stack : List α},
    pending E seen stack ≤ fuel →
    (∀ a ∈ seen, ∀ b, Adj E a b → b ∈ seen ∨ b ∈ stack) →
    (∀ n ∈ stack, n ∈ searchAll E fuel seen stack) ∧
      ∀ a ∈ searchAll E fuel seen stack, ∀ b, Adj E a b → b ∈ searchAll E fuel seen stack := by
  intro fuel
  induction fuel with
  | zero =>
      intro seen stack hfuel hseen
      have hnil : stack = [] := List.length_eq_zero_iff.mp (by unfold pending at hfuel; omega)
      subst hnil
      refine ⟨by simp, ?_⟩
      intro a ha b hab
      exact (hseen a ha b hab).resolve_right (by simp)
  | succ fuel ih =>
      intro seen stack hfuel hseen
      cases stack with
      | nil =>
          refine ⟨by simp, ?_⟩
          intro a ha b hab
          exact (hseen a ha b hab).resolve_right (by simp)
      | cons n stack =>
          rw [searchAll]
          by_cases hn : n ∈ seen
          · rw [if_pos hn]
            have hfuel' : pending E seen stack ≤ fuel := by
              simp only [pending, List.length_cons] at hfuel ⊢
              omega
            obtain ⟨hstack, hclosed⟩ := ih hfuel' (by
              intro a ha b hab
              rcases hseen a ha b hab with hb | hb
              · exact Or.inl hb
              · rcases List.mem_cons.mp hb with rfl | hb
                · exact Or.inl hn
                · exact Or.inr hb)
            refine ⟨?_, hclosed⟩
            intro m hm
            rcases List.mem_cons.mp hm with rfl | hm
            · exact searchAll_seen hn
            · exact hstack m hm
          · rw [if_neg hn]
            have hfuel' : pending E (n :: seen) ((succ E n).reverse ++ stack) ≤ fuel := by
              have h : _ = pending E seen (n :: stack) := pending_expand hn
              omega
            obtain ⟨hstack, hclosed⟩ := ih hfuel' (by
              intro a ha b hab
              rcases List.mem_cons.mp ha with rfl | ha
              · exact Or.inr (List.mem_append_left _ (List.mem_reverse.mpr (mem_succ.mpr hab)))
              · rcases hseen a ha b hab with hb | hb
                · exact Or.inl (List.mem_cons_of_mem _ hb)
                · rcases List.mem_cons.mp hb with rfl | hb
                  · exact Or.inl List.mem_cons_self
                  · exact Or.inr (List.mem_append_right _ hb))
            refine ⟨?_, hclosed⟩
            intro m hm
            rcases List.mem_cons.mp hm with rfl | hm
            · exact searchAll_seen List.mem_cons_self
            · exact hstack m (List.mem_append_right _ hm)

/-- **The search is exact.** -/
theorem mem_reachSet {E : List (α × α)} {a b : α} :
    b ∈ reachSet E a ↔ Relation.ReflTransGen (Adj E) a b := by
  constructor
  · intro h
    rcases searchAll_sound h with hs | ⟨m, hm, hr⟩
    · cases hs
    · obtain rfl := List.mem_singleton.mp hm
      exact hr
  · intro h
    have hfuel : pending E [] [a] ≤ E.length + 1 := by
      have := List.length_filter_le (fun e : α × α => decide (e.1 ∉ ([] : List α))) E
      simp only [pending, List.length_singleton]
      omega
    obtain ⟨hstack, hclosed⟩ := searchAll_complete hfuel (by simp)
    induction h with
    | refl => exact hstack a (by simp)
    | tail _ hbc ih => exact hclosed _ ih _ hbc

/-- The early exit changes nothing. -/
theorem searchFor_iff {E : List (α × α)} {goal : α} : ∀ {fuel : Nat} {seen stack : List α},
    goal ∉ seen → (searchFor E goal fuel seen stack = true ↔ goal ∈ searchAll E fuel seen stack) := by
  intro fuel
  induction fuel with
  | zero =>
      intro seen stack hseen
      simp [searchFor, searchAll, hseen]
  | succ fuel ih =>
      intro seen stack hseen
      cases stack with
      | nil => simp [searchFor, searchAll, hseen]
      | cons n stack =>
          rw [searchFor, searchAll]
          by_cases hgoal : n = goal
          · subst hgoal
            simp only [if_true, true_iff]
            rw [if_neg hseen]
            exact searchAll_seen List.mem_cons_self
          · rw [if_neg hgoal]
            by_cases hn : n ∈ seen
            · rw [if_pos hn, if_pos hn]
              exact ih hseen
            · rw [if_neg hn, if_neg hn]
              refine ih ?_
              simp only [List.mem_cons, not_or]
              exact ⟨fun h => hgoal h.symm, hseen⟩

theorem reaches_iff {E : List (α × α)} {a b : α} :
    reaches E a b = true ↔ Relation.ReflTransGen (Adj E) a b := by
  rw [reaches, searchFor_iff (by simp)]
  exact mem_reachSet

/-- The same nodes with a queue: a node is marked when it is queued. -/
def bfs (E : List (α × α)) : Nat → List α → List α → List α
  | 0, visited, _ => visited
  | _ + 1, visited, [] => visited
  | fuel + 1, visited, n :: queue =>
      let next := (succ E n).foldl (fun (st : List α × List α) m =>
        if m ∈ st.1 then st else (m :: st.1, st.2 ++ [m])) (visited, queue)
      bfs E fuel next.1 next.2

end Reach

end Octos
