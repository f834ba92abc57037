/-
# `Octos.Tools.DiffPanics` — line numbers that do not fit

The line number of a hunk comes from the text of the model and goes into sums
before anything is known about it.  The strict run says where one of them does
not fit:

    old_start + pattern.len()     where two neighbours overlap, if at all
    start + pattern.len()         at the declared place of the highest hunk
    target as i64 + offset        around it

The hunks below the highest one have smaller numbers, so once the highest has
passed, everything fits.
-/
import Octos.Tools.DiffEdit

namespace Octos.Tools.DiffEdit

open Text

/-! ## Where the numbers fit -/

/-- The two hunks overlap as declared. -/
def Overlap (later earlier : Hunk) : Prop :=
  later.oldStart.val < earlier.oldStart.val + earlier.pattern.length

instance (later earlier : Hunk) : Decidable (Overlap later earlier) :=
  inferInstanceAs (Decidable (_ < _))

/-- The upper hunk of the first two that overlap, from the bottom up. -/
def firstOverlap : List (Hunk × Nat) → Option Hunk
  | later :: earlier :: rest =>
      if Overlap later.1 earlier.1 then some earlier.1 else firstOverlap (earlier :: rest)
  | _ => none

/-- The line numbers of the hunks go through all sums. -/
def NumbersFit (hunks : List Hunk) : Prop :=
  match firstOverlap (sortedHunks hunks) with
  | some earlier => earlier.oldStart.val + earlier.pattern.length < 2 ^ 64
  | none => ∀ top ∈ (sortedHunks hunks).head?, top.1.pattern = [] ∨ top.1.oldStart.val + 2 < 2 ^ 63

theorem numbersFit_nil : NumbersFit [] := by
  simp [NumbersFit, sortedHunks, firstOverlap]

/-! ## The check -/

theorem checkOverlaps_none {o : Overflow} : ∀ {sorted : List (Hunk × Nat)}, firstOverlap sorted = none →
    checkOverlaps o sorted = .ok ()
  | [], _ => rfl
  | [_], _ => rfl
  | later :: earlier :: rest, h => by
      rw [firstOverlap] at h
      split at h
      · cases h
      · next hapart =>
          have hle : earlier.1.oldStart.val + earlier.1.pattern.length ≤ later.1.oldStart.val :=
            Nat.not_lt.mp hapart
          rw [checkOverlaps, add_fits (hle.trans_lt later.1.oldStart.isLt), ok_bind,
            if_neg (Nat.not_lt.mpr hle)]
          exact checkOverlaps_none h

theorem checkOverlaps_some : ∀ {sorted : List (Hunk × Nat)} {hunk : Hunk}, firstOverlap sorted = some hunk →
    checkOverlaps .strict sorted ≠ .ok () ∧ (checkOverlaps .strict sorted ≠ .error .panic ↔
      hunk.oldStart.val + hunk.pattern.length < 2 ^ 64)
  | later :: earlier :: rest, hunk, h => by
      rw [firstOverlap] at h
      rw [checkOverlaps]
      split at h
      · next hover =>
          obtain rfl := Option.some.inj h
          by_cases hfit : earlier.1.oldStart.val + earlier.1.pattern.length < 2 ^ 64
          · rw [add_fits hfit, ok_bind]
            have hlt : later.1.oldStart.val < earlier.1.oldStart.val + earlier.1.pattern.length := hover
            rw [if_pos hlt]
            exact ⟨by simp, by simpa using hfit⟩
          · rw [add_strict hfit, error_bind]
            exact ⟨by simp, by simpa using hfit⟩
      · next hapart =>
          have hle : earlier.1.oldStart.val + earlier.1.pattern.length ≤ later.1.oldStart.val :=
            Nat.not_lt.mp hapart
          rw [add_fits (hle.trans_lt later.1.oldStart.isLt), ok_bind, if_neg (Nat.not_lt.mpr hle)]
          exact checkOverlaps_some h

/-! ## One hunk -/

variable {ls pattern : List (List Char)} {target : Nat}

theorem matchesInside_fits {start : Nat} (inside : Bool) (hfit : start + pattern.length < 2 ^ 64) :
    matchesInside .strict ls pattern inside start =
      .ok (inside && Tools.matchesAt ls pattern start) := by
  cases inside with
  | false => rfl
  | true => exact matchesAt_fits hfit

/-- One round of the search, with the sums done. -/
theorem fuzzySearch_fits {offset : Nat} {rest : List Nat} (hpattern : pattern.length < 2 ^ 63)
    (hoffset : offset < 2 ^ 62) (hfit : target + offset < 2 ^ 63) :
    fuzzySearch .strict ls pattern target (offset :: rest) =
      if decide ((0 : Int) ≤ target - offset) && Tools.matchesAt ls pattern (target - offset) then
        .ok (target - offset)
      else if decide (target + offset < ls.length) && Tools.matchesAt ls pattern (target + offset) then
        .ok (target + offset)
      else fuzzySearch .strict ls pattern target rest := by
  have habove : ((target : Int) - offset).toNat = target - offset := by omega
  have hbelow : ((target : Int) + offset).toNat = target + offset := by omega
  rw [fuzzySearch, asSigned_fits (by omega), ok_bind, signed_fits (by omega) (by omega), ok_bind,
    signed_fits (by omega) (by omega), ok_bind, matchesInside_fits _ (by omega), ok_bind, habove]
  congr 1
  rw [asUsize_fits (by omega), ok_bind, hbelow, matchesInside_fits _ (by omega), ok_bind]

/-- **The search returns** where the numbers around the place fit. -/
theorem fuzzySearch_returns (hpattern : pattern.length < 2 ^ 63) : ∀ {offsets : List Nat},
    (∀ k ∈ offsets, k ≤ 3) → target + 3 < 2 ^ 63 →
      fuzzySearch .strict ls pattern target offsets ≠ .error .panic ∧
        ∀ pos, fuzzySearch .strict ls pattern target offsets = .ok pos →
          Tools.matchesAt ls pattern pos = true ∧ pos < 2 ^ 63 := by
  intro offsets
  induction offsets with
  | nil =>
      intro _ hfit
      rw [fuzzySearch, add_fits (by omega), ok_bind]
      simp
  | cons k rest ih =>
      intro hk hfit
      have hk3 := hk k List.mem_cons_self
      rw [fuzzySearch_fits hpattern (by omega) (by omega)]
      split
      · next hup =>
          rw [Bool.and_eq_true] at hup
          refine ⟨by simp, ?_⟩
          intro pos hpos
          obtain rfl := Except.ok.inj hpos
          exact ⟨hup.2, by omega⟩
      · split
        · next hdown =>
            rw [Bool.and_eq_true] at hdown
            refine ⟨by simp, ?_⟩
            intro pos hpos
            obtain rfl := Except.ok.inj hpos
            exact ⟨hdown.2, by omega⟩
        · exact ih (fun k hk' => hk k (List.mem_cons_of_mem _ hk')) hfit

/-- **The search stops** where one of them does not fit and the place is outside. -/
theorem fuzzySearch_stops (hpattern : pattern.length < 2 ^ 63) (hne : pattern ≠ []) : ∀ {offsets : List Nat},
    (∀ k ∈ offsets, k ≤ 3) → (∃ k ∈ offsets, 2 ^ 63 ≤ target + k) → ls.length + 3 ≤ target →
      fuzzySearch .strict ls pattern target offsets = .error .panic := by
  intro offsets
  induction offsets with
  | nil =>
      rintro _ ⟨k, hk, -⟩
      cases hk
  | cons k rest ih =>
      intro hk hover hout
      have hk3 := hk k List.mem_cons_self
      by_cases hfit : target + k < 2 ^ 63
      · rw [fuzzySearch_fits hpattern (by omega) hfit, matchesAt_out (by omega) hne, Bool.and_false,
          matchesAt_out (by omega) hne, Bool.and_false]
        refine ih (fun k hk' => hk k (List.mem_cons_of_mem _ hk')) ?_ hout
        obtain ⟨k', hk', hover⟩ := hover
        rcases List.mem_cons.mp hk' with rfl | hk'
        · exact absurd hfit (Nat.not_lt.mpr hover)
        · exact ⟨k', hk', hover⟩
      · rw [fuzzySearch]
        by_cases hsigned : target < 2 ^ 63
        · rw [asSigned_fits hsigned, ok_bind, signed_fits (by omega) (by omega), ok_bind,
            signed_strict (by omega)]
          rfl
        · rw [asSigned_strict hsigned]
          rfl

/-! ## All hunks -/

variable {hunk : Hunk} {idx : Nat}

theorem hunk_target (hfit : hunk.oldStart.val + 2 < 2 ^ 63) : hunk.target + 3 < 2 ^ 63 := by
  show hunk.oldStart.val - 1 + 3 < 2 ^ 63
  omega

theorem findMatch_returns (hpattern : pattern.length < 2 ^ 63) (hfit : target + 3 < 2 ^ 63) :
    findMatch .strict ls pattern target ≠ .error .panic ∧
      ∀ pos, findMatch .strict ls pattern target = .ok pos →
        Tools.matchesAt ls pattern pos = true ∧ pos < 2 ^ 63 := by
  rw [findMatch, matchesAt_fits (by omega), ok_bind]
  by_cases hmatch : Tools.matchesAt ls pattern target = true
  · rw [if_pos hmatch]
    refine ⟨by simp, ?_⟩
    intro pos hpos
    obtain rfl := Except.ok.inj hpos
    exact ⟨hmatch, by omega⟩
  · rw [if_neg hmatch]
    exact fuzzySearch_returns hpattern (by decide) hfit

theorem findMatch_stops (hpattern : pattern.length < 2 ^ 63) (hne : pattern ≠ [])
    (hover : 2 ^ 63 ≤ target + 3) (hout : ls.length + 3 ≤ target) :
    findMatch .strict ls pattern target = .error .panic := by
  rw [findMatch]
  by_cases hfit : target + pattern.length < 2 ^ 64
  · rw [matchesAt_fits hfit, ok_bind, matchesAt_out (by omega) hne, if_neg (by simp)]
    exact fuzzySearch_stops hpattern hne (by decide) ⟨3, by decide, hover⟩ hout
  · rw [matchesAt, add_strict hfit]
    rfl

theorem applyHunk_returns (hpattern : hunk.pattern.length < 2 ^ 63)
    (hfit : hunk.oldStart.val + 2 < 2 ^ 63) : applyHunk .strict hunk idx ls ≠ .error .panic := by
  rw [applyHunk]
  split
  · simp
  · obtain ⟨hreturns, hfound⟩ := @findMatch_returns ls _ _ hpattern (hunk_target hfit)
    cases hrun : findMatch .strict ls hunk.pattern hunk.target with
    | error e =>
        rw [hrun] at hreturns
        rw [error_bind]
        simpa using hreturns
    | ok pos =>
        obtain ⟨hmatch, hpos⟩ := hfound pos hrun
        have hlen := (matchesAt_iff.mp hmatch).1
        rw [ok_bind, add_fits (by omega), ok_bind, spliceRange, if_pos (by omega)]
        simp

theorem applyFrom_returns : ∀ {sorted : List (Hunk × Nat)} {ls : List (List Char)},
    (∀ h ∈ sorted, h.1.pattern.length < 2 ^ 63 ∧ h.1.oldStart.val + 2 < 2 ^ 63) →
      applyFrom .strict sorted ls ≠ .error .panic := by
  intro sorted
  induction sorted with
  | nil => simp [applyFrom]
  | cons h rest ih =>
      intro ls hfit
      obtain ⟨hpattern, hstart⟩ := hfit h List.mem_cons_self
      rw [applyFrom]
      cases hrun : applyHunk .strict h.1 h.2 ls with
      | error e =>
          intro hpanic
          exact applyHunk_returns hpattern hstart (hrun.trans hpanic)
      | ok ls' => exact ih (fun h' hh' => hfit h' (List.mem_cons_of_mem _ hh'))

theorem pairwise_sortedHunks (hunks : List Hunk) :
    (sortedHunks hunks).Pairwise (fun a b => b.1.oldStart ≤ a.1.oldStart) := by
  have htotal : Std.Total (fun a b : Hunk × Nat => b.1.oldStart ≤ a.1.oldStart) := ⟨fun _ _ => le_total _ _⟩
  have htrans : IsTrans (Hunk × Nat) (fun a b => b.1.oldStart ≤ a.1.oldStart) :=
    ⟨fun _ _ _ hab hbc => le_trans hbc hab⟩
  exact List.pairwise_insertionSort _ _

/-- The first hunk in the order is the highest. -/
theorem head_sortedHunks {hunks : List Hunk} {top : Hunk × Nat}
    (htop : top ∈ (sortedHunks hunks).head?) : ∀ h ∈ sortedHunks hunks, h.1.oldStart ≤ top.1.oldStart := by
  have hsorted := pairwise_sortedHunks hunks
  obtain ⟨rest, hrest⟩ : ∃ rest, sortedHunks hunks = top :: rest := List.head?_eq_some_iff.mp htop
  rw [hrest] at hsorted ⊢
  intro h hh
  rcases List.mem_cons.mp hh with rfl | hh
  · exact le_rfl
  · exact List.rel_of_pairwise_cons hsorted hh

theorem mem_sortedHunks {hunks : List Hunk} {h : Hunk × Nat} (hh : h ∈ sortedHunks hunks) :
    h.1 ∈ hunks := by
  have hin : h ∈ hunks.zipIdx := (List.mem_insertionSort _).mp hh
  exact List.mem_of_getElem? (List.mem_zipIdx_iff_getElem?.mp hin)

/-- **Applying returns** exactly where the line numbers fit. -/
theorem applyHunks_returns_iff {content : List Char} {hunks : List Hunk}
    (hcontent : 24 * (lines content).length < 2 ^ 63)
    (hhunks : ∀ h ∈ hunks, h.pattern.length < 2 ^ 63) :
    applyHunks .strict content hunks ≠ .error .panic ↔ NumbersFit hunks := by
  rw [NumbersFit]
  cases hfirst : firstOverlap (sortedHunks hunks) with
  | some earlier =>
      obtain ⟨hok, hpanic⟩ := checkOverlaps_some hfirst
      show _ ↔ earlier.oldStart.val + earlier.pattern.length < 2 ^ 64
      rw [← hpanic, applyHunks]
      cases hrun : checkOverlaps .strict (sortedHunks hunks) with
      | ok u => exact absurd hrun hok
      | error e =>
          rw [error_bind]
          simp
  | none =>
      rw [applyHunks, checkOverlaps_none hfirst, ok_bind]
      have hreturn : (applyFrom .strict (sortedHunks hunks) (lines content) >>= fun rows =>
          (return unlines rows ++ finalNewline content : Outcome DiffError (List Char))) ≠ .error .panic ↔
            applyFrom .strict (sortedHunks hunks) (lines content) ≠ .error .panic := by
        cases applyFrom .strict (sortedHunks hunks) (lines content) with
        | error e =>
            rw [error_bind]
            simp
        | ok rows =>
            rw [ok_bind]
            simp [pure, Except.pure]
      rw [hreturn]
      constructor
      · intro h top htop
        by_contra hlarge
        obtain ⟨hne, hover⟩ := not_or.mp hlarge
        refine h ?_
        obtain ⟨rest, hrest⟩ := List.head?_eq_some_iff.mp htop
        have hpattern := hhunks _ (mem_sortedHunks (List.mem_of_mem_head? htop))
        have hstops : findMatch .strict (lines content) top.1.pattern top.1.target = .error .panic := by
          refine findMatch_stops hpattern hne ?_ ?_
          · show 2 ^ 63 ≤ top.1.oldStart.val - 1 + 3
            omega
          · show (lines content).length + 3 ≤ top.1.oldStart.val - 1
            omega
        rw [hrest, applyFrom, applyHunk, if_neg (by simpa using hne), hstops]
        rfl
      · intro h
        cases hsorted : sortedHunks hunks with
        | nil => simp [applyFrom]
        | cons top rest =>
            rcases h top (by rw [hsorted]; rfl) with hempty | hfit
            · rw [applyFrom, applyHunk, if_pos (by simpa using hempty)]
              simp [bind, Except.bind]
            · refine applyFrom_returns ?_
              intro hunk hin
              rw [← hsorted] at hin
              have hle := head_sortedHunks (by rw [hsorted]; rfl) hunk hin
              exact ⟨hhunks _ (mem_sortedHunks hin), by have : hunk.1.oldStart.val ≤ top.1.oldStart.val := hle; omega⟩

/-! ## From the text on -/

/-- A hunk has no more lines than the text. -/
theorem parseFrom_length {n : Nat} : ∀ {ls : List (List Char)} {st : Parsing} {hunks : List Hunk},
    parseFrom ls st = .ok hunks → ls.length ≤ n → (∀ h ∈ st.hunks, h.lines.length ≤ n) →
      (∀ h ∈ st.current, h.lines.length + ls.length ≤ n) → ∀ h ∈ hunks, h.lines.length ≤ n := by
  intro ls
  induction ls with
  | nil =>
      intro st hunks h _ hdone hcurrent hunk hin
      obtain rfl := Except.ok.inj h
      rcases List.mem_append.mp hin with hin | hin
      · exact hdone hunk hin
      · exact hcurrent hunk (Option.mem_toList.mp hin)
  | cons line rest ih =>
      intro st hunks h hlen hdone hcurrent
      rw [parseFrom] at h
      obtain ⟨st', hstep, h⟩ := bind_ok.mp h
      rw [List.length_cons] at hlen hcurrent
      rw [parseLine] at hstep
      split at hstep
      · obtain ⟨start, -, hstep⟩ := bind_ok.mp hstep
        obtain rfl := pure_ok.mp hstep
        refine ih h (by omega) ?_ ?_
        · intro hunk hin
          rcases List.mem_append.mp hin with hin | hin
          · exact hdone hunk hin
          · exact (Nat.le_add_right _ _).trans (hcurrent hunk (Option.mem_toList.mp hin))
        · intro hunk hin
          obtain rfl := Option.some.inj hin
          show 0 + rest.length ≤ n
          omega
      · split at hstep
        · next hunk hsome =>
            obtain rfl := Except.ok.inj hstep
            refine ih h (by omega) hdone ?_
            intro hunk' hin
            obtain rfl := Option.some.inj hin
            have hle := hcurrent hunk hsome
            have hone : (hunkLine line).toList.length ≤ 1 := by
              cases hunkLine line with
              | none => exact Nat.zero_le _
              | some l => exact le_rfl
            show (hunk.lines ++ (hunkLine line).toList).length + rest.length ≤ n
            rw [List.length_append]
            omega
        · next hnone =>
            obtain rfl := Except.ok.inj hstep
            refine ih h (by omega) hdone ?_
            intro hunk' hin
            rw [hnone] at hin
            cases hin

theorem length_pattern {diff : List Char} {hunks : List Hunk} (h : parseUnifiedDiff diff = .ok hunks) :
    ∀ hunk ∈ hunks, hunk.pattern.length ≤ diff.length := by
  intro hunk hin
  have hlines := parseFrom_length h (length_lines_le diff) (by simp) (by simp) hunk hin
  exact (List.length_filterMap_le _ _).trans hlines

/-- **No panic and no number that does not fit**, in any build, exactly when the
line numbers of the diff fit. -/
theorem never_panics_iff (content diff : List Char) (hcontent : 24 * (lines content).length < 2 ^ 63)
    (hdiff : diff.length < 2 ^ 63) :
    (∀ o, diffEdit o content diff ≠ .error .panic) ↔
      ∀ hunks, parseUnifiedDiff diff = .ok hunks → NumbersFit hunks := by
  have hstrict : (∀ o, diffEdit o content diff ≠ .error .panic) ↔
      diffEdit .strict content diff ≠ .error .panic := by
    constructor
    · exact fun h => h .strict
    · intro h o
      have hsame : diffEdit o content diff = diffEdit .strict content diff :=
        alike_diffEdit content diff o h
      rw [hsame]
      exact h
  rw [hstrict, diffEdit]
  cases hparse : parseUnifiedDiff diff with
  | error e => simp [liftError, Except.mapError, bind, Except.bind]
  | ok hunks =>
      have hlift : liftError (.ok hunks : Except DiffError (List Hunk)) = .ok hunks := rfl
      rw [hlift, ok_bind]
      have hhunks : ∀ h ∈ hunks, h.pattern.length < 2 ^ 63 :=
        fun h hin => (length_pattern hparse h hin).trans_lt hdiff
      have happly := applyHunks_returns_iff hcontent hhunks
      constructor
      · rintro h _ ⟨rfl⟩
        cases hunks with
        | nil => exact numbersFit_nil
        | cons hunk rest => exact happly.mp h
      · intro h
        cases hunks with
        | nil => simp
        | cons hunk rest => exact happly.mpr (h _ rfl)

theorem never_panics_iff_oneLine :
    (∀ o, diffEdit o "a\n".toList "@@ -1 +1 @@\n-a\n+b\n".toList ≠ .error .panic) ↔
      ∀ hunks, parseUnifiedDiff "@@ -1 +1 @@\n-a\n+b\n".toList = .ok hunks → NumbersFit hunks :=
  never_panics_iff _ _ (by decide) (by decide)

/-- A hunk of two lines at the highest line number there is. -/
def farDiff : List Char :=
  "@@ -18446744073709551615,2 +1,2 @@\n-a\n-b\n".toList

theorem farDiff_panics : diffEdit .panics "a\nb\n".toList farDiff = .error .panic ∧
    diffEdit .wraps "a\nb\n".toList farDiff = .error .panic := by
  decide

end Octos.Tools.DiffEdit
