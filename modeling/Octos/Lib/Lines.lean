/-
# `Octos.Lib.Lines` — lines, words and substrings

More of a string library, for text as a list of characters: the lines of a
text, its words, the first and the last occurrence of a substring, and the
removal of all occurrences.  `lines` drops the end of each line, `\n` or
`\r\n`; a text that ends in a newline has no empty line behind it.
-/
import Octos.Lib.Text

namespace Octos.Text

/-! ## Lines -/

/-- One trailing carriage return goes with the newline behind it. -/
def stripCr (line : List Char) : List Char :=
  if line.getLast? = some '\r' then line.dropLast else line

/-- The last part after splitting at newlines: nothing when the text ended in
one. -/
def lastLine (parts : List (List Char)) : List (List Char) :=
  match parts.getLast? with
  | none => []
  | some line => if line.isEmpty then [] else [line]

/-- The lines of a text. -/
def lines (text : List Char) : List (List Char) :=
  let parts := text.splitOn '\n'
  parts.dropLast.map stripCr ++ lastLine parts

/-- Lines with a newline between them. -/
def unlines (ls : List (List Char)) : List Char :=
  List.intercalate ['\n'] ls

/-! ### All lines of a text

A property of lines that the empty line has and that does not depend on a
trailing carriage return carries over from the parts of a text to the text. -/

/-- What a property of lines has to keep to be read off a file. -/
structure LineProp (P : List Char → Prop) : Prop where
  empty : P []
  cr : ∀ line, '\n' ∉ line → P line → P (stripCr line)

/-- Every line has the property. -/
def AllLines (P : List Char → Prop) (text : List Char) : Prop :=
  ∀ line ∈ lines text, P line

variable {P : List Char → Prop} {text a b : List Char}

theorem notMem_stripCr {line : List Char} (h : '\n' ∉ line) : '\n' ∉ stripCr line := by
  unfold stripCr
  split
  · intro hin
    exact h (List.dropLast_subset _ hin)
  · exact h

/-- A line has no newline in it. -/
theorem newline_notMem_of_mem_lines {line : List Char} (h : line ∈ lines text) : '\n' ∉ line := by
  rcases List.mem_append.mp h with h | h
  · obtain ⟨part, hpart, rfl⟩ := List.mem_map.mp h
    exact notMem_stripCr (notMem_of_mem_splitOn (List.dropLast_subset _ hpart))
  · unfold lastLine at h
    split at h
    · cases h
    · next part hlast =>
        split at h
        · cases h
        · obtain rfl := List.mem_singleton.mp h
          exact notMem_of_mem_splitOn (List.mem_of_getLast? hlast)

theorem infix_intercalate {sep part : List Char} : ∀ {parts : List (List Char)},
    part ∈ parts → part <:+: List.intercalate sep parts := by
  intro parts
  induction parts with
  | nil => exact fun h => absurd h List.not_mem_nil
  | cons first parts ih =>
      intro h
      cases parts with
      | nil =>
          rw [List.mem_singleton.mp h, List.intercalate_singleton]
      | cons next parts =>
          rw [List.intercalate_cons_cons]
          rcases List.mem_cons.mp h with rfl | h
          · rw [List.append_assoc]
            exact (List.prefix_append part _).isInfix
          · exact (ih h).trans (List.suffix_append (first ++ sep) _).isInfix

/-- A newline in the text ends a line. -/
theorem lines_append_newline (a b : List Char) :
    lines (a ++ '\n' :: b) = (a.splitOn '\n').map stripCr ++ lines b := by
  have hb : b.splitOn '\n' ≠ [] := List.splitOn_ne_nil _ _
  have hlast : ((a.splitOn '\n') ++ b.splitOn '\n').getLast? = (b.splitOn '\n').getLast? := by
    rw [List.getLast?_append]
    cases hg : (b.splitOn '\n').getLast? with
    | none => exact absurd (List.getLast?_eq_none_iff.mp hg) hb
    | some l => rfl
  simp only [lines, lastLine, List.splitOn_append_cons_self, hlast,
    List.dropLast_append_of_ne_nil hb, List.map_append, List.append_assoc]

/-- The parts between newlines, when all lines have a property. -/
theorem AllLines.parts (hP : LineProp P) (h : AllLines P text) :
    ∀ part ∈ text.splitOn '\n', P (stripCr part) := by
  intro part hpart
  have hne : text.splitOn '\n' ≠ [] := List.splitOn_ne_nil _ _
  rw [← List.dropLast_concat_getLast hne] at hpart
  rcases List.mem_append.mp hpart with hinit | hlast
  · exact h _ (List.mem_append_left _ (List.mem_map_of_mem hinit))
  · obtain rfl := List.mem_singleton.mp hlast
    cases hempty : (text.splitOn '\n').getLast hne with
    | nil =>
        exact hP.empty
    | cons ch line =>
        have hget : (text.splitOn '\n').getLast? = some (ch :: line) := by
          rw [List.getLast?_eq_some_getLast hne, hempty]
        refine hP.cr _ (notMem_of_mem_splitOn (List.mem_of_getLast? hget)) (h _ ?_)
        refine List.mem_append_right _ ?_
        simp [lastLine, hget]

theorem AllLines.append_newline (hP : LineProp P) (ha : AllLines P a) (hb : AllLines P b) :
    AllLines P (a ++ '\n' :: b) := by
  intro line hline
  rw [lines_append_newline] at hline
  rcases List.mem_append.mp hline with hline | hline
  · obtain ⟨part, hpart, rfl⟩ := List.mem_map.mp hline
    exact ha.parts hP part hpart
  · exact hb line hline

theorem allLines_nil : AllLines P [] := by
  intro line hline
  cases hline

/-- A text without newline is its only line. -/
theorem AllLines.of_line {line : List Char} (hnl : '\n' ∉ line) (h : P line) : AllLines P line := by
  intro x hx
  simp only [lines, List.splitOn_eq_singleton hnl, List.dropLast_singleton, List.map_nil,
    List.nil_append, lastLine, List.getLast?_singleton] at hx
  split at hx
  · cases hx
  · obtain rfl := List.mem_singleton.mp hx
    exact h

theorem AllLines.unlines (hP : LineProp P) : ∀ {ls : List (List Char)},
    (∀ line ∈ ls, '\n' ∉ line ∧ P line) → AllLines P (unlines ls) := by
  intro ls
  induction ls with
  | nil => exact fun _ => allLines_nil
  | cons line ls ih =>
      intro h
      have hline := h line List.mem_cons_self
      have hrest : AllLines P (Text.unlines ls) :=
        ih (fun l hl => h l (List.mem_cons_of_mem _ hl))
      cases ls with
      | nil =>
          have hone : Text.unlines [line] = line := by simp [Text.unlines, List.intercalate]
          rw [hone]
          exact .of_line hline.1 hline.2
      | cons l ls =>
          have hmore : Text.unlines (line :: l :: ls) = line ++ '\n' :: Text.unlines (l :: ls) := by
            simp [Text.unlines, List.intercalate]
          rw [hmore]
          exact (AllLines.of_line hline.1 hline.2).append_newline hP hrest

/-- Texts with an empty line between them. -/
theorem AllLines.paragraphs (hP : LineProp P) : ∀ {texts : List (List Char)},
    (∀ t ∈ texts, AllLines P t) → AllLines P (List.intercalate ['\n', '\n'] texts) := by
  intro texts
  induction texts with
  | nil => exact fun _ => allLines_nil
  | cons t texts ih =>
      intro h
      have ht := h t List.mem_cons_self
      have hrest := ih (fun x hx => h x (List.mem_cons_of_mem _ hx))
      cases texts with
      | nil => simpa [List.intercalate] using ht
      | cons u texts =>
          have hmore : List.intercalate ['\n', '\n'] (t :: u :: texts) =
              t ++ '\n' :: ([] ++ '\n' :: List.intercalate ['\n', '\n'] (u :: texts)) := by
            simp [List.intercalate]
          rw [hmore]
          exact ht.append_newline hP (allLines_nil.append_newline hP hrest)

/-- A newline at the end of a file. -/
theorem AllLines.concat_newline (hP : LineProp P) (h : AllLines P text) :
    AllLines P (text ++ ['\n']) :=
  h.append_newline hP allLines_nil

/-! ## Words -/

/-- The words of a text. -/
def splitWhitespace (text : List Char) : List (List Char) :=
  (text.splitOnP isWhitespace).filter (fun word => !word.isEmpty)

/-- Runs of white space become single spaces. -/
def foldWhitespace (text : List Char) : List Char :=
  List.intercalate [' '] (splitWhitespace text)

def trimStart (text : List Char) : List Char :=
  text.dropWhile isWhitespace

def trimEnd (text : List Char) : List Char :=
  text.rdropWhile isWhitespace

/-! ## Substrings -/

/-- What is before and after the first occurrence of a substring. -/
def breakOn (pat : List Char) : List Char → Option (List Char × List Char)
  | [] => if pat.isEmpty then some ([], []) else none
  | ch :: text =>
      if pat.isPrefixOf (ch :: text) then some ([], (ch :: text).drop pat.length)
      else (breakOn pat text).map (fun r => (ch :: r.1, r.2))

/-- What is before and after the last occurrence. -/
def breakOnLast (pat : List Char) : List Char → Option (List Char × List Char)
  | [] => if pat.isEmpty then some ([], []) else none
  | ch :: text =>
      match breakOnLast pat text with
      | some r => some (ch :: r.1, r.2)
      | none =>
          if pat.isPrefixOf (ch :: text) then some ([], (ch :: text).drop pat.length) else none

/-- The substring occurs. -/
def contains (pat text : List Char) : Bool :=
  (breakOn pat text).isSome

/-- Without the occurrences of a substring, found from the left; `skip` is what
is left of the one being removed. -/
def removeFrom (pat : List Char) : Nat → List Char → List Char
  | _, [] => []
  | skip + 1, _ :: text => removeFrom pat skip text
  | 0, ch :: text =>
      if pat.isPrefixOf (ch :: text) then removeFrom pat (pat.length - 1) text
      else ch :: removeFrom pat 0 text

def removeAll (pat text : List Char) : List Char :=
  removeFrom pat 0 text

/-- Remove the first group that begins with `opener`, up to its closing
parenthesis or to the end, again and again. -/
def removeGroupsFrom (opener : List Char) : Nat → List Char → List Char
  | 0, text => text
  | fuel + 1, text =>
      match breakOn opener text with
      | none => text
      | some (before, after) =>
          removeGroupsFrom opener fuel (before ++ (after.dropWhile (fun ch => ch != ')')).drop 1)

/-- All groups that begin with `opener`; each round shortens the text. -/
def removeGroups (opener text : List Char) : List Char :=
  removeGroupsFrom opener text.length text

/-! ### A character at the end

What a trailing character changes that no pattern contains. -/

section Trailing

variable {pat text : List Char} {c : Char}

theorem contains_iff : contains pat text = true ↔ pat <:+: text := by
  unfold contains
  induction text with
  | nil =>
      cases pat with
      | nil => simp [breakOn]
      | cons p pat => simp [breakOn]
  | cons ch text ih =>
      rw [breakOn, List.infix_cons_iff]
      split
      · next hpre => simp [List.isPrefixOf_iff_prefix.mp hpre]
      · next hpre =>
          have hnot : ¬ pat <+: ch :: text := fun h => hpre (List.isPrefixOf_iff_prefix.mpr h)
          simp [hnot, ← ih]

theorem isPrefixOf_concat (hc : c ∉ pat) : pat.isPrefixOf (text ++ [c]) = pat.isPrefixOf text := by
  rw [Bool.eq_iff_iff, List.isPrefixOf_iff_prefix, List.isPrefixOf_iff_prefix, List.prefix_concat_iff]
  constructor
  · rintro (rfl | h)
    · exact absurd (by simp) hc
    · exact h
  · exact Or.inr

theorem breakOn_concat (hc : c ∉ pat) (hne : pat ≠ []) :
    breakOn pat (text ++ [c]) = (breakOn pat text).map (fun r => (r.1, r.2 ++ [c])) := by
  induction text with
  | nil =>
      have hpre : pat.isPrefixOf ([] ++ [c]) = pat.isPrefixOf [] := isPrefixOf_concat hc
      have hnil : pat.isPrefixOf [] = false := by
        cases pat with
        | nil => exact absurd rfl hne
        | cons p pat => rfl
      rw [hnil] at hpre
      have hemp : pat.isEmpty = false := by simpa using hne
      simp only [List.nil_append] at hpre ⊢
      simp [breakOn, hpre, hne]
  | cons ch text ih =>
      have hpre : pat.isPrefixOf (ch :: (text ++ [c])) = pat.isPrefixOf (ch :: text) :=
        @isPrefixOf_concat pat (ch :: text) c hc
      rw [List.cons_append, breakOn, breakOn, hpre]
      split
      · next h =>
          have hlen := (List.isPrefixOf_iff_prefix.mp h).length_le
          have hdrop : (ch :: (text ++ [c])).drop pat.length = (ch :: text).drop pat.length ++ [c] := by
            rw [← List.cons_append, List.drop_append_of_le_length hlen]
          rw [hdrop]
          rfl
      · rw [ih]
        simp [Option.map_map, Function.comp_def]

theorem removeFrom_concat (hc : c ∉ pat) (hne : pat ≠ []) : ∀ {text : List Char} {skip : Nat}, skip ≤ text.length →
    removeFrom pat skip (text ++ [c]) = removeFrom pat skip text ++ [c] := by
  intro text
  induction text with
  | nil =>
      intro skip hskip
      obtain rfl : skip = 0 := by simpa using hskip
      have hpre : pat.isPrefixOf [c] = pat.isPrefixOf [] := @isPrefixOf_concat pat [] c hc
      have hnil : pat.isPrefixOf [] = false := by
        cases pat with
        | nil => exact absurd rfl hne
        | cons p pat => rfl
      simp [removeFrom, hpre, hnil]
  | cons ch text ih =>
      intro skip hskip
      cases skip with
      | succ skip => exact ih (by simpa using hskip)
      | zero =>
          have hpre : pat.isPrefixOf (ch :: (text ++ [c])) = pat.isPrefixOf (ch :: text) :=
            @isPrefixOf_concat pat (ch :: text) c hc
          rw [List.cons_append, removeFrom, removeFrom, hpre]
          split
          · next h =>
              have hlen := (List.isPrefixOf_iff_prefix.mp h).length_le
              refine ih ?_
              simp only [List.length_cons] at hlen
              omega
          · rw [ih (Nat.zero_le _)]
            rfl

theorem length_breakOn {before after : List Char} (h : breakOn pat text = some (before, after)) :
    before.length + pat.length + after.length = text.length := by
  induction text generalizing before after with
  | nil =>
      rw [breakOn] at h
      split at h
      · next hemp =>
          obtain ⟨rfl, rfl⟩ := Prod.mk.inj (Option.some.inj h)
          simpa using hemp
      · cases h
  | cons ch text ih =>
      rw [breakOn] at h
      split at h
      · next hpre =>
          obtain ⟨rfl, rfl⟩ := Prod.mk.inj (Option.some.inj h)
          have hlen := (List.isPrefixOf_iff_prefix.mp hpre).length_le
          rw [List.length_drop, List.length_nil]
          omega
      · cases hb : breakOn pat text with
        | none => simp [hb] at h
        | some r =>
            obtain ⟨rfl, rfl⟩ : ch :: r.1 = before ∧ r.2 = after := by simpa [hb] using h
            have := ih hb
            rw [List.length_cons, List.length_cons]
            omega

/-- What is left when the first group is gone. -/
def closeGroup (before after : List Char) : List Char :=
  before ++ (after.dropWhile (fun ch => ch != ')')).drop 1

theorem length_closeGroup (before after : List Char) :
    (closeGroup before after).length ≤ before.length + after.length := by
  have hdrop := (List.dropWhile_sublist (l := after) (fun ch => ch != ')')).length_le
  rw [closeGroup, List.length_append, List.length_drop]
  omega

/-- More fuel than characters changes nothing. -/
theorem removeGroupsFrom_succ (hne : pat ≠ []) : ∀ {n : Nat} {text : List Char}, text.length ≤ n →
    removeGroupsFrom pat (n + 1) text = removeGroupsFrom pat n text := by
  intro n
  induction n with
  | zero =>
      intro text hlen
      obtain rfl : text = [] := by simpa using hlen
      cases pat with
      | nil => exact absurd rfl hne
      | cons p pat => rfl
  | succ n ih =>
      intro text hlen
      rw [removeGroupsFrom, removeGroupsFrom]
      cases hb : breakOn pat text with
      | none => rfl
      | some r =>
          obtain ⟨before, after⟩ := r
          have hpos : 0 < pat.length := List.length_pos_iff.mpr hne
          have hlen' := length_breakOn hb
          have hclose := length_closeGroup before after
          exact ih (by rw [closeGroup] at hclose; omega)

theorem breakOn_append_self (hne : pat ≠ []) (text : List Char) :
    breakOn pat (pat ++ text) = some ([], text) := by
  cases pat with
  | nil => exact absurd rfl hne
  | cons p pat =>
      have hpre : (p :: pat).isPrefixOf (p :: (pat ++ text)) = true :=
        List.isPrefixOf_iff_prefix.mpr (List.prefix_append (p :: pat) text)
      rw [List.cons_append, breakOn, if_pos hpre, ← List.cons_append, List.drop_left]

/-- A closed group in front of a text without groups. -/
theorem removeGroups_group (hne : pat ≠ []) {inside : List Char} (hin : ')' ∉ inside)
    {rest : List Char} (hrest : breakOn pat rest = none) :
    removeGroups pat (pat ++ (inside ++ ')' :: rest)) = rest := by
  have hafter : (inside ++ ')' :: rest).dropWhile (fun ch => ch != ')') = ')' :: rest := by
    rw [List.dropWhile_append_of_pos]
    · rfl
    · intro ch hch
      refine bne_iff_ne.mpr ?_
      rintro rfl
      exact hin hch
  have hstay : ∀ n, removeGroupsFrom pat n rest = rest := by
    intro n
    cases n with
    | zero => rfl
    | succ n => rw [removeGroupsFrom, hrest]
  have hpos : 0 < (pat ++ (inside ++ ')' :: rest)).length := by simp
  obtain ⟨n, hn⟩ := Nat.exists_eq_succ_of_ne_zero hpos.ne'
  rw [removeGroups, hn, removeGroupsFrom, breakOn_append_self hne]
  simp only [List.nil_append, hafter, List.drop_succ_cons, List.drop_zero]
  exact hstay n

/-- A trailing character stays, or is part of a group that is not closed. -/
theorem removeGroupsFrom_concat (hc : c ∉ pat) (hne : pat ≠ []) (hclose : c ≠ ')') :
    ∀ (n : Nat) (text : List Char),
      removeGroupsFrom pat n (text ++ [c]) = removeGroupsFrom pat n text ∨
        removeGroupsFrom pat n (text ++ [c]) = removeGroupsFrom pat n text ++ [c] := by
  intro n
  induction n with
  | zero => exact fun text => Or.inr rfl
  | succ n ih =>
      intro text
      rw [removeGroupsFrom, removeGroupsFrom, breakOn_concat hc hne]
      cases hb : breakOn pat text with
      | none => exact Or.inr rfl
      | some r =>
          obtain ⟨before, after⟩ := r
          simp only [Option.map_some]
          by_cases hin : ')' ∈ after
          · have hdrop : (after ++ [c]).dropWhile (fun ch => ch != ')') =
                after.dropWhile (fun ch => ch != ')') ++ [c] := by
              rw [List.dropWhile_append, if_neg]
              simpa using hin
            have hne' : 1 ≤ (after.dropWhile (fun ch => ch != ')')).length := by
              rw [Nat.one_le_iff_ne_zero, Ne, List.length_eq_zero_iff, List.dropWhile_eq_nil_iff]
              intro hall
              simpa using hall ')' hin
            rw [hdrop, List.drop_append_of_le_length hne', ← List.append_assoc]
            exact ih _
          · left
            have hall : ∀ ch ∈ after ++ [c], (ch != ')') = true := by
              intro ch hch
              rcases List.mem_append.mp hch with hch | hch
              · simp only [bne_iff_ne, ne_eq]
                rintro rfl
                exact hin hch
              · simpa [List.mem_singleton.mp hch] using hclose
            have h₁ : (after ++ [c]).dropWhile (fun ch => ch != ')') = [] :=
              List.dropWhile_eq_nil_iff.mpr hall
            have h₂ : after.dropWhile (fun ch => ch != ')') = [] :=
              List.dropWhile_eq_nil_iff.mpr (fun ch hch => hall ch (List.mem_append_left _ hch))
            rw [h₁, h₂]

theorem removeGroups_concat (hc : c ∉ pat) (hne : pat ≠ []) (hclose : c ≠ ')') (text : List Char) :
    removeGroups pat (text ++ [c]) = removeGroups pat text ∨
      removeGroups pat (text ++ [c]) = removeGroups pat text ++ [c] := by
  have h := removeGroupsFrom_concat hc hne hclose (text.length + 1) text
  rw [removeGroupsFrom_succ hne (le_refl _)] at h
  simpa [removeGroups] using h

/-- White space at the end is folded away. -/
theorem foldWhitespace_concat (hc : isWhitespace c = true) (text : List Char) :
    foldWhitespace (text ++ [c]) = foldWhitespace text := by
  have hsplit : (text ++ [c]).splitOnP isWhitespace = text.splitOnP isWhitespace ++ [[]] := by
    rw [List.splitOnP_append_cons _ _ hc]
    rfl
  simp [foldWhitespace, splitWhitespace, hsplit]

end Trailing

/-! ### Removal only removes -/

section Subset

variable {pat text : List Char} {ch : Char}

theorem removeFrom_subset (pat : List Char) : ∀ (text : List Char) (skip : Nat),
    removeFrom pat skip text ⊆ text := by
  intro text
  induction text with
  | nil =>
      intro skip
      cases skip <;> exact List.Subset.refl _
  | cons x text ih =>
      intro skip
      cases skip with
      | succ skip => exact List.Subset.trans (ih skip) (List.subset_cons_self _ _)
      | zero =>
          rw [removeFrom]
          split
          · exact List.Subset.trans (ih _) (List.subset_cons_self _ _)
          · exact List.cons_subset_cons _ (ih 0)

theorem breakOn_subset {before after : List Char} (h : breakOn pat text = some (before, after)) :
    before ⊆ text ∧ after ⊆ text := by
  induction text generalizing before after with
  | nil =>
      rw [breakOn] at h
      split at h
      · obtain ⟨rfl, rfl⟩ := Prod.mk.inj (Option.some.inj h)
        exact ⟨List.Subset.refl _, List.Subset.refl _⟩
      · cases h
  | cons x text ih =>
      rw [breakOn] at h
      split at h
      · obtain ⟨rfl, rfl⟩ := Prod.mk.inj (Option.some.inj h)
        exact ⟨List.nil_subset _, List.drop_subset _ _⟩
      · cases hb : breakOn pat text with
        | none => simp [hb] at h
        | some r =>
            obtain ⟨rfl, rfl⟩ : x :: r.1 = before ∧ r.2 = after := by simpa [hb] using h
            obtain ⟨h₁, h₂⟩ := ih hb
            exact ⟨List.cons_subset_cons _ h₁, List.Subset.trans h₂ (List.subset_cons_self _ _)⟩

theorem removeGroupsFrom_subset (pat : List Char) : ∀ (n : Nat) (text : List Char),
    removeGroupsFrom pat n text ⊆ text := by
  intro n
  induction n with
  | zero => exact fun text => List.Subset.refl _
  | succ n ih =>
      intro text
      rw [removeGroupsFrom]
      cases hb : breakOn pat text with
      | none => exact List.Subset.refl _
      | some r =>
          obtain ⟨before, after⟩ := r
          obtain ⟨h₁, h₂⟩ := breakOn_subset hb
          refine List.Subset.trans (ih _) (List.append_subset.mpr ⟨h₁, ?_⟩)
          refine List.Subset.trans (List.drop_subset _ _) ?_
          exact List.Subset.trans (List.dropWhile_sublist _).subset h₂

end Subset

end Octos.Text
