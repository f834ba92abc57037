/-
# `Octos.Tools.DiffApply` — what applying a diff does to the lines

A diff made from the file it is applied to goes through exactly: every block
stands at its declared place, and from the bottom up the places above are not
moved.

A diff for some other version is another matter.  The search around a declared
place goes through the lines as the hunks below have left them, and the check for
overlaps has looked at declared places only.  So a hunk may find its block among
lines that another hunk of the diff has just written.  It cannot where the
search, carried out on the file itself, stays above the block of the next hunk
(`SearchesApart`): then what it looks at has not been touched.
-/
import Octos.Lib.Patched
import Octos.Tools.DiffPanics
import Octos.Tools.DiffText

namespace Octos.Tools.DiffEdit

open Text

/-! ## Edits of the lines -/

/-- The block of lines that a hunk names. -/
def Hunk.Names (hunk : Hunk) (block : List (List Char)) : Prop :=
  SameBlock block hunk.pattern

/-- The lines a hunk puts in its place. -/
def Hunk.added (hunk : Hunk) : List (List Char) :=
  replacementLines hunk.lines

def Hunk.size (hunk : Hunk) : Nat :=
  hunk.pattern.length

/-- The two places at a distance from the declared one, as 64-bit words. -/
def around (target k : Nat) : List Nat :=
  let above := toSigned (toSigned target - k)
  let below := toSigned (toSigned target + k)
  (if 0 ≤ above then [above.toNat] else []) ++ [(below % 2 ^ 64).toNat]

/-- The declared place and the places around it, as they are tried. -/
def tries (target : Nat) : List Nat :=
  target :: fuzzyRange.flatMap (around target)

/-- The places up to the first that answers. -/
def looks (found : Nat → Bool) : List Nat → List Nat
  | [] => []
  | place :: rest => if found place then [place] else place :: looks found rest

/-- Where the search finds a hunk in these lines. -/
def Hunk.place (ls : List (List Char)) (hunk : Hunk) : Option Nat :=
  (tries hunk.target).find? (Tools.matchesAt ls hunk.pattern)

/-- Where it looks for it. -/
def Hunk.looks (ls : List (List Char)) (hunk : Hunk) : List Nat :=
  DiffEdit.looks (Tools.matchesAt ls hunk.pattern) (tries hunk.target)

/-- From the bottom up: while the hunks are found in the content, the search for the
next one stays above the block of the one before. -/
def SearchesApart (ls : List (List Char)) : List (Hunk × Nat) → Prop
  | later :: earlier :: rest => ∀ place ∈ later.1.place ls,
      (∀ c ∈ earlier.1.looks ls, c + earlier.1.size ≤ place) ∧ SearchesApart ls (earlier :: rest)
  | _ => True

/-- No build applies the hunks. -/
def Rejected (hunks : List Hunk) : Prop :=
  (∃ earlier ∈ firstOverlap (sortedHunks hunks), earlier.oldStart.val + earlier.size < 2 ^ 64) ∨
    ∃ h ∈ hunks, h.pattern = []

/-! ## Searches -/

section Searches

variable {found found' : Nat → Bool} {places : List Nat}

theorem find_of_looks : ∀ {places : List Nat}, (∀ c ∈ looks found places, found' c = found c) →
    places.find? found' = places.find? found := by
  intro places
  induction places with
  | nil => exact fun _ => rfl
  | cons place rest ih =>
      intro h
      rw [looks] at h
      by_cases hplace : found place = true
      · rw [if_pos hplace] at h
        rw [List.find?_cons_of_pos hplace,
          List.find?_cons_of_pos ((h place (List.mem_singleton_self _)).trans hplace)]
      · rw [if_neg hplace] at h
        rw [List.find?_cons_of_neg hplace, List.find?_cons_of_neg
          (by rw [h place List.mem_cons_self]; exact hplace)]
        exact ih (fun c hc => h c (List.mem_cons_of_mem _ hc))

theorem mem_looks : ∀ {places : List Nat} {place : Nat}, places.find? found = some place →
    place ∈ looks found places := by
  intro places
  induction places with
  | nil =>
      intro place h
      cases h
  | cons first rest ih =>
      intro place h
      rw [looks]
      by_cases hfirst : found first = true
      · rw [List.find?_cons_of_pos hfirst] at h
        obtain rfl := Option.some.inj h
        rw [if_pos hfirst]
        exact List.mem_singleton_self _
      · rw [List.find?_cons_of_neg hfirst] at h
        rw [if_neg hfirst]
        exact List.mem_cons_of_mem _ (ih h)

end Searches

/-! ## The search of the code -/

variable {o : Overflow} {ls pattern : List (List Char)} {target : Nat}

/-- A comparison that answers compares the block. -/
theorem matchesAt_ok {start : Nat} {r : Bool} (hstart : start < 2 ^ 64) (hne : pattern ≠ [])
    (hroom : ls.length + pattern.length ≤ 2 ^ 64) (h : matchesAt o ls pattern start = .ok r) :
    r = Tools.matchesAt ls pattern start := by
  by_cases hfit : start + pattern.length < 2 ^ 64
  · rw [matchesAt_fits hfit] at h
    exact (Except.ok.inj h).symm
  · rw [matchesAt_out (by omega) hne]
    rw [matchesAt] at h
    obtain ⟨stop, -, h⟩ := bind_ok.mp h
    split at h
    · exact (Except.ok.inj h).symm
    · -- the sum has wrapped, and the first index is outside
      cases pattern with
      | nil => exact absurd rfl hne
      | cons row rest =>
          rw [rowsMatch, add_fits (by omega), ok_bind, Overflow.index,
            List.getElem?_eq_none (by omega), error_bind] at h
          cases h

theorem matchesInside_ok {start : Nat} {inside r : Bool} (hstart : start < 2 ^ 64) (hne : pattern ≠ [])
    (hroom : ls.length + pattern.length ≤ 2 ^ 64) (h : matchesInside o ls pattern inside start = .ok r) :
    r = (inside && Tools.matchesAt ls pattern start) := by
  cases inside with
  | false => exact (Except.ok.inj h).symm
  | true => exact matchesAt_ok hstart hne hroom h

theorem fuzzySearch_ok (hne : pattern ≠ []) (hroom : ls.length + pattern.length ≤ 2 ^ 64) :
    ∀ {offsets : List Nat} {pos : Nat}, fuzzySearch o ls pattern target offsets = .ok pos →
      (offsets.flatMap (around target)).find? (Tools.matchesAt ls pattern) = some pos := by
  intro offsets
  induction offsets with
  | nil =>
      intro pos h
      rw [fuzzySearch] at h
      obtain ⟨n, -, h⟩ := bind_ok.mp h
      cases h
  | cons k rest ih =>
      intro pos h
      rw [fuzzySearch] at h
      obtain ⟨signed, hsigned, h⟩ := bind_ok.mp h
      obtain ⟨above, habove, h⟩ := bind_ok.mp h
      obtain ⟨below, hbelow, h⟩ := bind_ok.mp h
      obtain ⟨up, hup, h⟩ := bind_ok.mp h
      have hab63 := toSigned_lt (signed - k)
      have hbe63 := toSigned_lt (signed + k)
      rw [← signed_ok habove] at hab63
      rw [← signed_ok hbelow] at hbe63
      have hup := matchesInside_ok (by omega) hne hroom hup
      rw [List.flatMap_cons, around, ← asSigned_ok hsigned, ← signed_ok habove, ← signed_ok hbelow,
        List.append_assoc]
      by_cases hfound : up = true
      · -- the place above
        rw [if_pos hfound] at h
        obtain rfl := Except.ok.inj h
        rw [hfound, eq_comm, Bool.and_eq_true, decide_eq_true_eq] at hup
        rw [if_pos hup.1]
        exact List.find?_cons_of_pos hup.2
      · rw [if_neg hfound] at h
        have habove : ((if 0 ≤ above then [above.toNat] else []).find? (Tools.matchesAt ls pattern)) = none := by
          rw [Bool.not_eq_true] at hfound
          rw [hfound, eq_comm, Bool.and_eq_false_iff, decide_eq_false_iff_not] at hup
          split
          · next hpos =>
              have hno := hup.resolve_left (not_not_intro hpos)
              rw [List.find?_cons_of_neg (by rw [hno]; exact Bool.false_ne_true)]
              rfl
          · rfl
        rw [List.find?_append, habove, Option.none_or]
        obtain ⟨place, hplace, h⟩ := bind_ok.mp h
        obtain ⟨down, hdown, h⟩ := bind_ok.mp h
        have hplace := asUsize_ok (by omega) hplace
        have hdown := matchesInside_ok (by omega) hne hroom hdown
        rw [← hplace]
        by_cases hfound : down = true
        · -- the place below
          rw [if_pos hfound] at h
          obtain rfl := Except.ok.inj h
          rw [hfound, eq_comm, Bool.and_eq_true] at hdown
          exact List.find?_cons_of_pos hdown.2
        · rw [if_neg hfound] at h
          have hno : Tools.matchesAt ls pattern place = false := by
            rw [Bool.not_eq_true] at hfound
            rw [hfound, eq_comm, Bool.and_eq_false_iff, decide_eq_false_iff_not] at hdown
            exact hdown.elim (fun hout => matchesAt_out (Nat.not_lt.mp hout) hne) id
          rw [List.singleton_append, List.find?_cons_of_neg (by rw [hno]; exact Bool.false_ne_true)]
          exact ih h

/-- **The search of the code** answers with the first place that matches. -/
theorem findMatch_ok {pos : Nat} (htarget : target < 2 ^ 64) (hne : pattern ≠ [])
    (hroom : ls.length + pattern.length ≤ 2 ^ 64) (h : findMatch o ls pattern target = .ok pos) :
    (tries target).find? (Tools.matchesAt ls pattern) = some pos := by
  rw [findMatch] at h
  obtain ⟨found, hfound, h⟩ := bind_ok.mp h
  have hfound := matchesAt_ok htarget hne hroom hfound
  rw [tries]
  by_cases hmatch : found = true
  · rw [if_pos hmatch] at h
    obtain rfl := Except.ok.inj h
    exact List.find?_cons_of_pos (hfound.symm.trans hmatch)
  · rw [if_neg hmatch] at h
    rw [List.find?_cons_of_neg (by rw [← hfound]; exact hmatch)]
    exact fuzzySearch_ok hne hroom h

/-! ## One hunk -/

variable {hunk : Hunk} {idx : Nat}

/-- A hunk that is applied replaces the block at the first place that matches. -/
theorem applyHunk_ok {ls' : List (List Char)} (hroom : ls.length + hunk.pattern.length < 2 ^ 64)
    (h : applyHunk o hunk idx ls = .ok ls') : hunk.pattern ≠ [] ∧ ∃ place, hunk.place ls = some place ∧
      place + hunk.size ≤ ls.length ∧ ls' = splice ls place hunk.size hunk.added := by
  rw [applyHunk] at h
  by_cases hempty : hunk.pattern = []
  · rw [hempty, List.isEmpty_nil, if_pos rfl] at h
    cases h
  · rw [if_neg (by simpa using hempty)] at h
    obtain ⟨pos, hpos, h⟩ := bind_ok.mp h
    have htarget : hunk.target < 2 ^ 64 := (Nat.sub_le _ _).trans_lt hunk.oldStart.isLt
    have hplace := findMatch_ok htarget hempty hroom.le hpos
    have hlen := (matchesAt_iff.mp (List.find?_some hplace)).1
    rw [add_fits (by omega), ok_bind, spliceRange, if_pos (by omega)] at h
    have hsize : min (pos + hunk.pattern.length) ls.length - pos = hunk.size := by
      rw [Hunk.size]
      omega
    rw [hsize] at h
    exact ⟨hempty, pos, hplace, hlen, (Except.ok.inj h).symm⟩

/-- What is behind a place does not change a comparison in front of it. -/
theorem matchesAt_take {m c : Nat} {out : List (List Char)} (hm : m ≤ ls.length)
    (hc : c + pattern.length ≤ m) :
    Tools.matchesAt (ls.take m ++ out) pattern c = Tools.matchesAt ls pattern c := by
  have hblock : ((ls.take m ++ out).drop c).take pattern.length = (ls.drop c).take pattern.length := by
    have hin : c ≤ (ls.take m).length := by
      rw [List.length_take]
      omega
    rw [List.drop_append_of_le_length hin, List.take_append_of_le_length (by simp; omega),
      List.drop_take, List.take_take, min_eq_left (by omega)]
  rw [Bool.eq_iff_iff, matchesAt_iff, matchesAt_iff, hblock, List.length_append, List.length_take]
  exact and_congr_left (fun _ => by omega)

/-- One more block, in front of those that have been replaced. -/
theorem patched_step {m place : Nat} {out : List (List Char)} {order : List Hunk} {places : List Nat}
    (hm : m ≤ ls.length) (hmatch : Tools.matchesAt ls hunk.pattern place = true)
    (hplace : place + hunk.size ≤ m)
    (hpatched : Patched Hunk.Names Hunk.added m (ls.drop m) order places out) :
    ∃ rest, splice (ls.take m ++ out) place hunk.size hunk.added = ls.take place ++ (hunk.added ++ rest) ∧
      Patched Hunk.Names Hunk.added place (ls.drop place) (hunk :: order) (place :: places)
        (hunk.added ++ rest) := by
  obtain ⟨hlen, hsame⟩ := matchesAt_iff.mp hmatch
  let gap := (ls.take m).drop (place + hunk.size)
  have hgap : place + hunk.size + gap.length = m := by
    rw [List.length_drop, List.length_take]
    omega
  have hblock : ((ls.drop place).take hunk.size).length = hunk.size := by
    rw [List.length_take, List.length_drop]
    exact min_eq_left (by show hunk.pattern.length ≤ _; omega)
  have hdrop : ls.drop (place + hunk.size) = gap ++ ls.drop m := by
    conv_lhs => rw [← List.take_append_drop m ls]
    rw [List.drop_append_of_le_length (by rw [List.length_take]; omega)]
  have hlater : Patched Hunk.Names Hunk.added (place + ((ls.drop place).take hunk.size).length)
      (gap ++ ls.drop m) order places (gap ++ out) := by
    rw [hblock]
    refine Patched.after gap ?_
    rw [hgap]
    exact hpatched
  refine ⟨gap ++ out, ?_, ?_⟩
  · rw [splice, List.take_append_of_le_length (by rw [List.length_take]; omega), List.take_take,
      min_eq_left (by omega), List.drop_append_of_le_length (by rw [List.length_take]; omega),
      List.append_assoc]
  · have hnames : hunk.Names ((ls.drop place).take hunk.size) := hsame
    have hall := Patched.here hnames hlater
    rw [← hdrop, ← List.drop_drop] at hall
    rwa [List.take_append_drop] at hall

/-! ## All hunks -/

/-- The lines of the content and of the hunks, which are in memory together. -/
def Room (ls : List (List Char)) (sorted : List (Hunk × Nat)) : Prop :=
  ls.length + (sorted.map (fun h => h.1.lines.length)).sum < 2 ^ 63

theorem size_le (hunk : Hunk) : hunk.pattern.length ≤ hunk.lines.length :=
  List.length_filterMap_le _ _

theorem added_le (hunk : Hunk) : hunk.added.length ≤ hunk.lines.length :=
  List.length_filterMap_le _ _

/-- **The run.**  What is in front of the last block is as it was in the content, and
the next hunk is looked for there. -/
theorem applyFrom_patched : ∀ {sorted : List (Hunk × Nat)} {m : Nat} {out rows : List (List Char)}
    {order : List Hunk} {places : List Nat}, m ≤ ls.length →
    Patched Hunk.Names Hunk.added m (ls.drop m) order places out →
    (∀ h ∈ sorted.head?, (∀ c ∈ h.1.looks ls,
        Tools.matchesAt (ls.take m ++ out) h.1.pattern c = Tools.matchesAt ls h.1.pattern c) ∧
      ∀ place ∈ h.1.place ls, place + h.1.size ≤ m) →
    SearchesApart ls sorted → Room (ls.take m ++ out) sorted →
    applyFrom o sorted (ls.take m ++ out) = .ok rows →
      ∃ places', Patched Hunk.Names Hunk.added 0 ls (sorted.reverse.map Prod.fst ++ order) places' rows := by
  intro sorted
  induction sorted with
  | nil =>
      intro m out rows order places hm hpatched _ _ _ h
      obtain rfl := Except.ok.inj h
      have hfront : Patched Hunk.Names Hunk.added (0 + (ls.take m).length) (ls.drop m) order places out := by
        rw [Nat.zero_add, List.length_take, min_eq_left hm]
        exact hpatched
      have hall := Patched.after _ hfront
      rw [List.take_append_drop] at hall
      exact ⟨places, hall⟩
  | cons h rest ih =>
      intro m out rows order places hm hpatched hhead hapart hroom hrun
      obtain ⟨hsame, hinside⟩ := hhead h rfl
      have hsize := size_le h.1
      have hadded := added_le h.1
      rw [Room, List.map_cons, List.sum_cons] at hroom
      obtain ⟨ls', hstep, hrun⟩ := bind_ok.mp hrun
      obtain ⟨-, place, hplace, hlen, rfl⟩ := applyHunk_ok (by omega) hstep
      -- the search looks at lines of the content only
      have hfound : h.1.place ls = some place := (find_of_looks hsame).symm.trans hplace
      have hle := hinside place hfound
      obtain ⟨tail, hsplice, hnext⟩ := patched_step hm (List.find?_some hfound) hle hpatched
      have hin : place ≤ ls.length := by omega
      rw [hsplice] at hrun
      have hroom' : Room (ls.take place ++ (h.1.added ++ tail)) rest := by
        rw [Room, ← hsplice, splice]
        simp only [List.length_append, List.length_take, List.length_drop] at hroom hlen ⊢
        omega
      rw [List.reverse_cons, List.map_append, List.append_assoc]
      cases rest with
      | nil => exact ih hin hnext (by simp) trivial hroom' hrun
      | cons next rest =>
          obtain ⟨habove, hapart'⟩ := hapart place hfound
          refine ih hin hnext ?_ hapart' hroom' hrun
          intro next' hnext'
          obtain rfl := Option.some.inj hnext'
          exact ⟨fun c hc => matchesAt_take hin (habove c hc),
            fun place' hplace' => habove place' (mem_looks hplace')⟩

/-! ### In the order of the hunks -/

theorem sortedHunks_perm (hunks : List Hunk) : ((sortedHunks hunks).map Prod.fst).Perm hunks := by
  have hperm : ((sortedHunks hunks).map Prod.fst).Perm (hunks.zipIdx.map Prod.fst) :=
    (List.perm_insertionSort _ _).map Prod.fst
  rwa [List.zipIdx_map_fst] at hperm

theorem Hunk.Names.length {hunk : Hunk} {block : List (List Char)} (h : hunk.Names block) :
    block.length = hunk.size :=
  SameBlock.length h

/-- Hunks without a pattern are not applied. -/
theorem applyFrom_named : ∀ {sorted : List (Hunk × Nat)} {ls rows : List (List Char)},
    applyFrom o sorted ls = .ok rows → ∀ h ∈ sorted, h.1.pattern ≠ [] := by
  intro sorted
  induction sorted with
  | nil => simp
  | cons h rest ih =>
      intro ls rows hrun hunk hin hempty
      obtain ⟨ls', hstep, hrun⟩ := bind_ok.mp hrun
      rcases List.mem_cons.mp hin with rfl | hin
      · rw [applyHunk, hempty, List.isEmpty_nil, if_pos rfl] at hstep
        cases hstep
      · exact ih hrun hunk hin hempty

theorem rejected {content out : List Char} {hunks : List Hunk} (h : Rejected hunks) :
    applyHunks o content hunks ≠ .ok out := by
  intro hrun
  obtain ⟨u, hcheck, hrun⟩ := bind_ok.mp hrun
  obtain ⟨rows, hrows, -⟩ := bind_ok.mp hrun
  rcases h with ⟨earlier, hfirst, hfit⟩ | ⟨hunk, hin, hempty⟩
  · obtain ⟨hok, hpanic⟩ := checkOverlaps_some hfirst
    have hsame : checkOverlaps o (sortedHunks hunks) = checkOverlaps .strict (sortedHunks hunks) :=
      alike_checkOverlaps _ o (hpanic.mpr hfit)
    exact hok (hsame.symm.trans hcheck)
  · obtain ⟨h, hsorted, rfl⟩ := List.mem_map.mp ((sortedHunks_perm hunks).mem_iff.mpr hin)
    exact applyFrom_named hrows h hsorted hempty

section Exact

variable {hunks : List Hunk}

end Exact

def oneLine : List Hunk :=
  [⟨2, [.context "b".toList, .remove "c".toList, .add "d".toList]⟩]

end Octos.Tools.DiffEdit
