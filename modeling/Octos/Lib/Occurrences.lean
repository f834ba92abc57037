/-
# `Octos.Lib.Occurrences` — where a text stands in another

Two ways to say where: the number of characters in front, and the number of
bytes.  A search that goes on behind each match lists occurrences that do not
overlap; of the others it says only that each overlaps one of the list:

    aaaa   with   aa      at 0, 1 and 2; the search lists 0 and 2
    aaa    with   aa      at 0 and 1; the search lists 0 alone
-/
import Octos.Lib.Text

namespace Octos.Text

/-! ## Bytes -/

theorem utf8Length_append (a b : List Char) : utf8Length (a ++ b) = utf8Length a + utf8Length b := by
  rw [utf8Length, utf8Length, utf8Length, List.map_append, List.sum_append]

theorem utf8Length_cons (ch : Char) (text : List Char) :
    utf8Length (ch :: text) = ch.utf8Size + utf8Length text := by
  rw [utf8Length, utf8Length, List.map_cons, List.sum_cons]

/-- The characters from an offset on. -/
def dropBytes : List Char → Nat → List Char
  | text, 0 => text
  | [], _ => []
  | ch :: text, n + 1 => if ch.utf8Size ≤ n + 1 then dropBytes text (n + 1 - ch.utf8Size) else []

/-- `&text[start..stop]`. -/
def slice (text : List Char) (start stop : Nat) : List Char :=
  takeBytes (dropBytes text start) (stop - start)

variable {a b text : List Char}

theorem dropBytes_append : ∀ (a b : List Char), dropBytes (a ++ b) (utf8Length a) = b := by
  intro a b
  induction a with
  | nil =>
      rw [List.nil_append]
      cases b with
      | nil => rfl
      | cons ch b => rfl
  | cons ch a ih =>
      have hpos := ch.utf8Size_pos
      obtain ⟨n, hn⟩ : ∃ n, utf8Length (ch :: a) = n + 1 := by
        rw [utf8Length_cons]
        exact ⟨ch.utf8Size + utf8Length a - 1, by omega⟩
      have hrest : n + 1 - ch.utf8Size = utf8Length a := by
        rw [← hn, utf8Length_cons]
        omega
      rw [hn, List.cons_append, dropBytes, hrest, ih]
      rw [utf8Length_cons] at hn
      exact if_pos (by omega)

theorem takeBytes_append : ∀ (a b : List Char), takeBytes (a ++ b) (utf8Length a) = a := by
  intro a b
  induction a with
  | nil =>
      cases b with
      | nil => rfl
      | cons ch b =>
          have hpos := ch.utf8Size_pos
          rw [List.nil_append, takeBytes]
          exact if_neg (by show ¬ch.utf8Size ≤ 0; omega)
  | cons ch a ih =>
      rw [utf8Length_cons, List.cons_append, takeBytes, if_pos (Nat.le_add_right _ _),
        Nat.add_sub_cancel_left, ih]

theorem isCharBoundary_append : ∀ (a b : List Char), isCharBoundary (a ++ b) (utf8Length a) = true := by
  intro a b
  induction a with
  | nil =>
      cases b with
      | nil => rfl
      | cons ch b => rfl
  | cons ch a ih =>
      have hpos := ch.utf8Size_pos
      obtain ⟨n, hn⟩ : ∃ n, utf8Length (ch :: a) = n + 1 := by
        rw [utf8Length_cons]
        exact ⟨ch.utf8Size + utf8Length a - 1, by omega⟩
      rw [hn, List.cons_append, isCharBoundary, ← hn, utf8Length_cons, Nat.add_sub_cancel_left, ih,
        Bool.and_true]
      · exact decide_eq_true (Nat.le_add_right _ _)
      · omega

/-- The text stands at this offset. -/
def Located (content : List Char) (start : Nat) (text : List Char) : Prop :=
  ∃ before after, content = before ++ text ++ after ∧ start = utf8Length before

variable {content : List Char} {start : Nat}

theorem Located.slice_eq (h : Located content start text) :
    slice content start (start + utf8Length text) = text := by
  obtain ⟨before, after, rfl, rfl⟩ := h
  rw [slice, List.append_assoc, dropBytes_append, Nat.add_sub_cancel_left, takeBytes_append]

theorem Located.boundaries (h : Located content start text) :
    isCharBoundary content start = true ∧ isCharBoundary content (start + utf8Length text) = true := by
  obtain ⟨before, after, rfl, rfl⟩ := h
  rw [← utf8Length_append]
  refine ⟨?_, isCharBoundary_append _ _⟩
  rw [List.append_assoc]
  exact isCharBoundary_append _ _

/-! ## Searching -/

/-- The places of a pattern, in characters; behind a match the search goes on behind
its end. -/
def placesFrom (pat : List Char) : Nat → Nat → List Char → List Nat
  | _, _, [] => []
  | skip + 1, i, _ :: text => placesFrom pat skip (i + 1) text
  | 0, i, ch :: text =>
      if pat <+: ch :: text then i :: placesFrom pat (pat.length - 1) (i + 1) text
      else placesFrom pat 0 (i + 1) text

/-- The offsets of a pattern that is not empty, as `match_indices` lists them. -/
def matchIndices (pat text : List Char) : List Nat :=
  (placesFrom pat 0 0 text).map (fun i => utf8Length (text.take i))

/-- The pattern stands behind so many characters. -/
def OccursAt (pat text : List Char) (i : Nat) : Prop :=
  pat <+: text.drop i

/-- If the pattern stands at two places, it stands at two that do not overlap. -/
def Clear (pat text : List Char) : Prop :=
  ∀ i j, i < j → OccursAt pat text i → OccursAt pat text j →
    ∃ k l, OccursAt pat text k ∧ OccursAt pat text l ∧ k + pat.length ≤ l

variable {pat : List Char}

/-- A place in the list is one of the pattern, and not in what is skipped. -/
theorem placesFrom_sound : ∀ {text : List Char} {skip i j : Nat}, j ∈ placesFrom pat skip i text →
    ∃ k, j = i + k ∧ skip ≤ k ∧ k < text.length ∧ OccursAt pat text k := by
  intro text
  induction text with
  | nil =>
      intro skip i j h
      cases skip with
      | zero => cases h
      | succ skip => cases h
  | cons ch text ih =>
      intro skip i j h
      cases skip with
      | succ skip =>
          obtain ⟨k, rfl, hskip, hlen, hoccurs⟩ := ih h
          exact ⟨k + 1, by omega, by omega, Nat.succ_lt_succ hlen, hoccurs⟩
      | zero =>
          rw [placesFrom] at h
          split at h
          · next hhere =>
              rcases List.mem_cons.mp h with rfl | h
              · exact ⟨0, rfl, le_rfl, Nat.succ_pos _, hhere⟩
              · obtain ⟨k, rfl, -, hlen, hoccurs⟩ := ih h
                exact ⟨k + 1, by omega, Nat.zero_le _, Nat.succ_lt_succ hlen, hoccurs⟩
          · obtain ⟨k, rfl, -, hlen, hoccurs⟩ := ih h
            exact ⟨k + 1, by omega, Nat.zero_le _, Nat.succ_lt_succ hlen, hoccurs⟩

/-- **Every occurrence** overlaps one of the list. -/
theorem placesFrom_complete (hne : pat ≠ []) : ∀ {text : List Char} {skip i k : Nat}, skip ≤ k →
    OccursAt pat text k → ∃ j ∈ placesFrom pat skip i text, j ≤ i + k ∧ i + k < j + pat.length := by
  intro text
  induction text with
  | nil =>
      intro skip i k _ hoccurs
      rw [OccursAt, List.drop_nil, List.prefix_nil] at hoccurs
      exact absurd hoccurs hne
  | cons ch text ih =>
      intro skip i k hskip hoccurs
      cases skip with
      | succ skip =>
          obtain ⟨k, rfl⟩ : ∃ k', k = k' + 1 := ⟨k - 1, by omega⟩
          obtain ⟨j, hj, hle, hlt⟩ := @ih skip (i + 1) k (by omega) hoccurs
          exact ⟨j, hj, by omega, by omega⟩
      | zero =>
          have hpos := List.length_pos_iff.mpr hne
          rw [placesFrom]
          split
          · next hhere =>
              by_cases hnear : k < pat.length
              · exact ⟨i, List.mem_cons_self, by omega, by omega⟩
              · obtain ⟨k, rfl⟩ : ∃ k', k = k' + 1 := ⟨k - 1, by omega⟩
                obtain ⟨j, hj, hle, hlt⟩ := @ih (pat.length - 1) (i + 1) k (by omega) hoccurs
                exact ⟨j, List.mem_cons_of_mem _ hj, by omega, by omega⟩
          · next hnot =>
              cases k with
              | zero => exact absurd hoccurs hnot
              | succ k =>
                  obtain ⟨j, hj, hle, hlt⟩ := @ih 0 (i + 1) k (Nat.zero_le _) hoccurs
                  exact ⟨j, hj, by omega, by omega⟩

/-- The places of the list do not overlap. -/
theorem placesFrom_separated (hne : pat ≠ []) : ∀ {text : List Char} {skip i : Nat},
    (placesFrom pat skip i text).Pairwise (fun j k => j + pat.length ≤ k) := by
  intro text
  induction text with
  | nil =>
      intro skip i
      cases skip with
      | zero => exact List.Pairwise.nil
      | succ skip => exact List.Pairwise.nil
  | cons ch text ih =>
      intro skip i
      cases skip with
      | succ skip => exact ih
      | zero =>
          have hpos := List.length_pos_iff.mpr hne
          rw [placesFrom]
          split
          · refine List.Pairwise.cons ?_ ih
            intro j hj
            obtain ⟨k, rfl, hskip, -, -⟩ := placesFrom_sound hj
            omega
          · exact ih

/-! ### In bytes -/

theorem utf8Length_take_lt : ∀ {text : List Char} {i j : Nat}, i < j → i < text.length →
    utf8Length (text.take i) < utf8Length (text.take j) := by
  intro text
  induction text with
  | nil => exact fun _ h => absurd h (Nat.not_lt_zero _)
  | cons ch text ih =>
      intro i j hij hi
      obtain ⟨j, rfl⟩ : ∃ j', j = j' + 1 := ⟨j - 1, by omega⟩
      have hpos := ch.utf8Size_pos
      rw [List.take_succ_cons, utf8Length_cons]
      cases i with
      | zero => exact Nat.add_pos_left hpos _
      | succ i =>
          rw [List.take_succ_cons, utf8Length_cons]
          have := @ih i j (by omega) (by rw [List.length_cons] at hi; omega)
          omega

theorem OccursAt.located {i : Nat} (h : OccursAt pat text i) : Located text (utf8Length (text.take i)) pat := by
  obtain ⟨after, hafter⟩ := h
  exact ⟨text.take i, after, by rw [List.append_assoc, hafter, List.take_append_drop], rfl⟩

theorem Located.occursAt (h : Located text start pat) :
    ∃ i, i + pat.length ≤ text.length ∧ OccursAt pat text i ∧ start = utf8Length (text.take i) := by
  obtain ⟨before, after, rfl, rfl⟩ := h
  refine ⟨before.length, ?_, ⟨after, ?_⟩, ?_⟩
  · rw [List.length_append, List.length_append]
    omega
  · rw [List.append_assoc, List.drop_left]
  · rw [List.append_assoc, List.take_left]

theorem mem_matchIndices (h : start ∈ matchIndices pat text) : Located text start pat := by
  obtain ⟨i, hi, rfl⟩ := List.mem_map.mp h
  obtain ⟨k, rfl, -, -, hoccurs⟩ := placesFrom_sound hi
  rw [Nat.zero_add]
  exact hoccurs.located

theorem matchIndices_ne_nil (hne : pat ≠ []) (h : Located text start pat) : matchIndices pat text ≠ [] := by
  obtain ⟨i, -, hoccurs, -⟩ := h.occursAt
  obtain ⟨j, hj, -, -⟩ := @placesFrom_complete pat hne text 0 0 i (Nat.zero_le _) hoccurs
  exact List.ne_nil_of_mem (List.mem_map_of_mem hj)

/-- **A single match of a clear pattern** is the only occurrence. -/
theorem unique_of_clear {p : Nat} (hne : pat ≠ []) (hclear : Clear pat text)
    (h : matchIndices pat text = [p]) {q : Nat} (hq : Located text q pat) : q = p := by
  obtain ⟨j, hplaces, rfl⟩ : ∃ j, placesFrom pat 0 0 text = [j] ∧ utf8Length (text.take j) = p := by
    obtain ⟨j, rest, hplaces, hj, hrest⟩ := List.map_eq_cons_iff.mp h
    rw [List.map_eq_nil_iff.mp hrest] at hplaces
    exact ⟨j, hplaces, hj⟩
  obtain ⟨i, -, hoccurs, rfl⟩ := hq.occursAt
  -- every occurrence overlaps the one place of the list, so no two are apart
  have hnear : ∀ k, OccursAt pat text k → j ≤ k ∧ k < j + pat.length := by
    intro k hk
    obtain ⟨j', hj', hle, hlt⟩ := @placesFrom_complete pat hne text 0 0 k (Nat.zero_le _) hk
    rw [hplaces, List.mem_singleton] at hj'
    subst hj'
    omega
  have hj : OccursAt pat text j := by
    obtain ⟨k, hk, -, -, hoccurs⟩ := placesFrom_sound (hplaces ▸ List.mem_singleton_self j)
    rw [hk, Nat.zero_add]
    exact hoccurs
  obtain ⟨hle, -⟩ := hnear i hoccurs
  rcases Nat.lt_or_eq_of_le hle with hlt | rfl
  · obtain ⟨k, l, hk, hl, hapart⟩ := hclear j i hlt hj hoccurs
    have := hnear k hk
    have := hnear l hl
    omega
  · rfl

/-- **A pattern** of which a single match is always the only occurrence is clear. -/
theorem clear_of_unique (hne : pat ≠ [])
    (h : ∀ p, matchIndices pat text = [p] → ∀ q, Located text q pat → q = p) : Clear pat text := by
  intro i j hij hi hj
  obtain ⟨i', hi', hile, hilt⟩ := @placesFrom_complete pat hne text 0 0 i (Nat.zero_le _) hi
  have hseparated := @placesFrom_separated pat hne text 0 0
  cases hplaces : placesFrom pat 0 0 text with
  | nil =>
      rw [hplaces] at hi'
      cases hi'
  | cons k rest =>
      cases rest with
      | nil =>
          -- one match only, so both occurrences are at its place
          have hone := h (utf8Length (text.take k)) (by rw [matchIndices, hplaces]; rfl)
          have hlen : i < text.length := by
            obtain ⟨after, hafter⟩ := hi
            have := congrArg List.length hafter
            rw [List.length_append, List.length_drop] at this
            have := List.length_pos_iff.mpr hne
            omega
          have := (hone _ hi.located).trans (hone _ hj.located).symm
          have := utf8Length_take_lt hij hlen
          omega
      | cons l rest =>
          have hfound : ∀ m ∈ k :: l :: rest, OccursAt pat text m := by
            intro m hm
            obtain ⟨m', hm', -, -, hoccurs⟩ := placesFrom_sound (hplaces ▸ hm)
            rw [hm', Nat.zero_add]
            exact hoccurs
          rw [hplaces] at hseparated
          exact ⟨k, l, hfound k List.mem_cons_self, hfound l (List.mem_cons_of_mem _ List.mem_cons_self),
            List.rel_of_pairwise_cons hseparated List.mem_cons_self⟩

end Octos.Text
