/-
# `Octos.Lib.Blocks` — lists in blocks

Some elements of a list open a block, the others belong to the block before them.
A list falls into what stands before the first block and its blocks, so that a
pass over the list can be stated block by block.

`firsts` is a list without its repetitions, each element where it stands first.
-/
import Mathlib

namespace Octos

/-- An element that opens a block, and those that follow it. -/
structure Block (α : Type) where
  head : α
  rows : List α

namespace Block

variable {α : Type}

def toList (b : Block α) : List α :=
  b.head :: b.rows

/-- The elements of some blocks. -/
def flat (blocks : List (Block α)) : List α :=
  blocks.flatMap toList

def join (lead : List α) (blocks : List (Block α)) : List α :=
  lead ++ flat blocks

@[simp] theorem flat_nil : flat ([] : List (Block α)) = [] := rfl

@[simp] theorem flat_cons (b : Block α) (blocks : List (Block α)) :
    flat (b :: blocks) = b.head :: (b.rows ++ flat blocks) := rfl

@[simp] theorem flat_append (a b : List (Block α)) : flat (a ++ b) = flat a ++ flat b :=
  List.flatMap_append

theorem mem_flat {blocks : List (Block α)} {a : α} :
    a ∈ flat blocks ↔ ∃ b ∈ blocks, a = b.head ∨ a ∈ b.rows := by
  simp [flat, toList]

/-- The blocks are those that `opens` makes. -/
structure Blocked (opens : α → Bool) (lead : List α) (blocks : List (Block α)) : Prop where
  lead : ∀ a ∈ lead, opens a = false
  head : ∀ b ∈ blocks, opens b.head = true
  rows : ∀ b ∈ blocks, ∀ a ∈ b.rows, opens a = false

variable {opens : α → Bool}

theorem exists_blocks (opens : α → Bool) (l : List α) :
    ∃ lead blocks, Blocked opens lead blocks ∧ l = join lead blocks := by
  induction l with
  | nil => exact ⟨[], [], ⟨nofun, nofun, nofun⟩, rfl⟩
  | cons a l ih =>
      obtain ⟨lead, blocks, hblocked, rfl⟩ := ih
      cases ha : opens a with
      | true =>
          refine ⟨[], ⟨a, lead⟩ :: blocks, ⟨nofun, ?_, ?_⟩, rfl⟩
          · intro b hb
            rcases List.mem_cons.mp hb with rfl | hb
            · exact ha
            · exact hblocked.head b hb
          · intro b hb
            rcases List.mem_cons.mp hb with rfl | hb
            · exact hblocked.lead
            · exact hblocked.rows b hb
      | false =>
          refine ⟨a :: lead, blocks, ⟨?_, hblocked.head, hblocked.rows⟩, rfl⟩
          intro x hx
          rcases List.mem_cons.mp hx with rfl | hx
          · exact ha
          · exact hblocked.lead x hx

theorem Blocked.tail {lead : List α} {b : Block α} {blocks : List (Block α)}
    (h : Blocked opens lead (b :: blocks)) : Blocked opens b.rows blocks where
  lead := h.rows b List.mem_cons_self
  head := fun c hc => h.head c (List.mem_cons_of_mem _ hc)
  rows := fun c hc => h.rows c (List.mem_cons_of_mem _ hc)

/-- Where an element stands: at the head of a block, or among its rows. -/
theorem split_flat : ∀ {blocks : List (Block α)} {before rest : List α} {a : α},
    flat blocks = before ++ a :: rest → ∃ pre b post, blocks = pre ++ b :: post ∧
      (a = b.head ∧ before = flat pre ∧ rest = b.rows ++ flat post ∨
        ∃ front back, b.rows = front ++ a :: back ∧ before = flat pre ++ b.head :: front ∧
          rest = back ++ flat post) := by
  intro blocks
  induction blocks with
  | nil => intro before rest a h; simp at h
  | cons b blocks ih =>
      intro before rest a h
      rw [flat_cons] at h
      cases before with
      | nil =>
          obtain ⟨rfl, rfl⟩ := List.cons.inj h
          exact ⟨[], b, blocks, rfl, Or.inl ⟨rfl, rfl, rfl⟩⟩
      | cons x before =>
          obtain ⟨rfl, htail⟩ := List.cons.inj h
          rcases List.append_eq_append_iff.mp htail with ⟨mid, rfl, hmid⟩ | ⟨mid, hrows, hmid⟩
          · obtain ⟨pre, c, post, rfl, hc⟩ := ih hmid
            refine ⟨b :: pre, c, post, rfl, ?_⟩
            rcases hc with ⟨rfl, rfl, rfl⟩ | ⟨front, back, hrows, rfl, rfl⟩
            · exact Or.inl ⟨rfl, rfl, rfl⟩
            · exact Or.inr ⟨front, back, hrows, by simp, rfl⟩
          · cases mid with
            | nil =>
                rw [List.append_nil] at hrows
                obtain ⟨pre, c, post, rfl, hc⟩ := @ih [] _ _ hmid.symm
                refine ⟨b :: pre, c, post, rfl, ?_⟩
                rcases hc with ⟨rfl, hpre, rfl⟩ | ⟨front, back, hrows', hpre, rfl⟩
                · refine Or.inl ⟨rfl, ?_, rfl⟩
                  rw [flat_cons, ← hpre, hrows, List.append_nil]
                · exact absurd hpre (by simp)
            | cons y mid =>
                obtain ⟨rfl, rfl⟩ := List.cons.inj hmid
                exact ⟨[], b, blocks, rfl, Or.inr ⟨before, mid, hrows, rfl, rfl⟩⟩

end Block

/-! ## Lists side by side -/

section Sides

variable {α β : Type} {R S : α → β → Prop} {as : List α} {bs : List β}

theorem forall₂_mem_left {a : α} (h : List.Forall₂ R as bs) (ha : a ∈ as) : ∃ b ∈ bs, R a b := by
  induction h with
  | nil => cases ha
  | cons hab _ ih =>
      rcases List.mem_cons.mp ha with rfl | ha
      · exact ⟨_, List.mem_cons_self, hab⟩
      · obtain ⟨b, hb, hR⟩ := ih ha
        exact ⟨b, List.mem_cons_of_mem _ hb, hR⟩

theorem forall₂_mem_right {b : β} (h : List.Forall₂ R as bs) (hb : b ∈ bs) : ∃ a ∈ as, R a b :=
  forall₂_mem_left h.flip hb

theorem forall₂_imp_mem (h : List.Forall₂ R as bs) (hS : ∀ a b, a ∈ as → b ∈ bs → R a b → S a b) :
    List.Forall₂ S as bs := by
  induction h with
  | nil => exact .nil
  | cons hab _ ih =>
      refine .cons (hS _ _ List.mem_cons_self List.mem_cons_self hab) (ih ?_)
      intro a b ha hb
      exact hS a b (List.mem_cons_of_mem _ ha) (List.mem_cons_of_mem _ hb)

end Sides

/-! ## First occurrences -/

section Firsts

variable {α β : Type} [DecidableEq α] [DecidableEq β]

def firsts : List α → List α
  | [] => []
  | a :: l => a :: (firsts l).filter (fun b => b ≠ a)

@[simp] theorem mem_firsts {l : List α} {a : α} : a ∈ firsts l ↔ a ∈ l := by
  induction l with
  | nil => rfl
  | cons b l ih =>
      rw [firsts, List.mem_cons, List.mem_cons, List.mem_filter, decide_eq_true_eq, ih]
      constructor
      · rintro (rfl | ⟨hmem, _⟩)
        · exact Or.inl rfl
        · exact Or.inr hmem
      · rintro (rfl | hmem)
        · exact Or.inl rfl
        · by_cases hab : a = b
          · exact Or.inl hab
          · exact Or.inr ⟨hmem, hab⟩

theorem nodup_firsts (l : List α) : (firsts l).Nodup := by
  induction l with
  | nil => exact List.nodup_nil
  | cons a l ih =>
      refine List.nodup_cons.mpr ⟨?_, ih.filter _⟩
      intro hmem
      exact (of_decide_eq_true (List.mem_filter.mp hmem).2) rfl

/-- A part of a list without repetitions is determined by its elements. -/
theorem sublist_eq_filter {l part : List α} (hnodup : l.Nodup) (h : part.Sublist l) :
    part = l.filter (fun a => decide (a ∈ part)) := by
  have hsub : part.Sublist (l.filter (fun a => decide (a ∈ part))) := by
    have := h.filter (fun a => decide (a ∈ part))
    rwa [List.filter_eq_self.mpr (by simp)] at this
  refine hsub.eq_of_length_le ?_
  have hsubset : l.filter (fun a => decide (a ∈ part)) ⊆ part := by
    intro a ha
    exact of_decide_eq_true (List.mem_filter.mp ha).2
  exact ((hnodup.filter _).subperm hsubset).length_le

end Firsts

end Octos
