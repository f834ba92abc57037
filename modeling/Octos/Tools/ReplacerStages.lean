/-
# `Octos.Tools.ReplacerStages` — what a match of the chain stands for

Each stage has places that match it (`Matches`): a text at an offset, or a block
of whole lines that is the same as the lines of the needle.  The scans of lines
look at every block, so one match is the only one.  The two searches go on behind
each match, so one match is the only one exactly when the text they look for does
not stand at two places that overlap and nowhere else (`Clear`).
-/
import Octos.Tools.Replacer

namespace Octos.Tools.Replacer

open Text

/-! ## Places that match -/

/-- The offset behind these lines. -/
def offset (lines : List (List Char)) : Nat :=
  utf8Length (lines.flatMap (fun line => line ++ ['\n']))

/-- A block of whole lines of the content, and its text. -/
def IsWindow (content : List Char) (same : List (List Char) → Prop) (consume : Bool) (start : Nat)
    (text : List Char) : Prop :=
  ∃ before window after, content.splitOn '\n' = before ++ window ++ after ∧ window ≠ [] ∧ same window ∧
    start = offset before ∧ text = unlines window ++ (if consume ∧ after ≠ [] then ['\n'] else [])

/-- The lines are equal up to what the key drops. -/
def SameLines (key : List Char → List Char) (findLines window : List (List Char)) : Prop :=
  window.map key = findLines.map key

/-- The lines are blank together or equal behind the indentation of their blocks. -/
def SameIndented (findLines window : List (List Char)) : Prop :=
  List.Forall₂ (fun line findLine => isBlank findLine ∧ isBlank line ∨
    stripIndent line (commonIndent window) = stripIndent findLine (commonIndent findLines)) window findLines

/-- A place of the content, with its text, is the same as the needle at this stage. -/
def Matches (content find : List Char) : Stage → Nat → List Char → Prop
  | .exact, start, text => text = find ∧ Located content start text
  | .lineTrimmed, start, text =>
      IsWindow content (SameLines trim (splitFind find).1) (splitFind find).2 start text
  | .whitespaceNormalized, start, text =>
      IsWindow content (SameLines foldWhitespace (splitFind find).1) (splitFind find).2 start text
  | .indentationFlexible, start, text =>
      IsWindow content (SameIndented (flexibleFind find).1) (flexibleFind find).2 start text
  | .escapeNormalized, start, text =>
      unescapeFind find ≠ find ∧ text = unescapeFind find ∧ Located content start text
  | .blockAnchor, _, _ => False

/-- The stages that run before. -/
def Stage.earlier (stage : Stage) : List Stage :=
  stages.takeWhile (fun stage' => stage' != stage)

/-- The range is one place, the only one of its stage, and no stage before has any. -/
structure OnlyPlace (content find : List Char) (range : ByteRange) (stage : Stage) : Prop where
  boundaries : isCharBoundary content range.start = true ∧ isCharBoundary content range.stop = true
  same : Matches content find stage range.start (slice content range.start range.stop)
  only : ∀ start text, Matches content find stage start text → start = range.start
  first : ∀ stage' ∈ stage.earlier, ∀ start text, ¬Matches content find stage' start text

/-! ## Lines and offsets -/

variable {content find : List Char} {before window after : List (List Char)}

theorem unlines_append (hne : after ≠ []) :
    unlines (before ++ after) = before.flatMap (fun line => line ++ ['\n']) ++ unlines after := by
  induction before with
  | nil => rfl
  | cons line before ih =>
      rw [List.cons_append, List.flatMap_cons, List.append_assoc, ← ih]
      cases hrest : before ++ after with
      | nil => exact absurd (List.append_eq_nil_iff.mp hrest).2 hne
      | cons next rest => simp [unlines, List.intercalate]

theorem unlines_splitOn (content : List Char) : unlines (content.splitOn '\n') = content :=
  List.intercalate_splitOn '\n'

/-- A block of lines in the content. -/
theorem content_window (hsplit : content.splitOn '\n' = before ++ window ++ after) (hne : window ≠ []) :
    content = before.flatMap (fun line => line ++ ['\n']) ++ unlines window ++
      (if after = [] then [] else '\n' :: unlines after) := by
  rw [← unlines_splitOn content, hsplit, List.append_assoc,
    unlines_append (by simp [hne]), List.append_assoc]
  congr 1
  split
  · next hafter => rw [hafter, List.append_nil, List.append_nil]
  · next hafter =>
      rw [unlines_append hafter]
      obtain ⟨init, last, rfl⟩ := List.eq_nil_or_concat window |>.resolve_left hne
      rw [List.concat_eq_append, List.flatMap_append, unlines_append (List.cons_ne_nil _ _)]
      simp [unlines]

theorem located_window (hsplit : content.splitOn '\n' = before ++ window ++ after) (hne : window ≠ [])
    (consume : Bool) : Located content (offset before)
      (unlines window ++ (if consume ∧ after ≠ [] then ['\n'] else [])) := by
  have hcontent := content_window hsplit hne
  by_cases hafter : after = []
  · refine ⟨_, [], ?_, rfl⟩
    rw [if_pos hafter] at hcontent
    rw [if_neg (fun h => h.2 hafter), List.append_nil, List.append_nil]
    rwa [List.append_nil] at hcontent
  · rw [if_neg hafter] at hcontent
    by_cases hconsume : consume = true
    · refine ⟨_, unlines after, ?_, rfl⟩
      rw [if_pos ⟨hconsume, hafter⟩]
      simpa only [List.append_assoc, List.singleton_append] using hcontent
    · refine ⟨_, '\n' :: unlines after, ?_, rfl⟩
      rw [if_neg (fun h => hconsume h.1), List.append_nil]
      exact hcontent

theorem IsWindow.located {same : List (List Char) → Prop} {consume : Bool} {start : Nat} {text : List Char}
    (h : IsWindow content same consume start text) : Located content start text := by
  obtain ⟨before, window, after, hsplit, hne, -, rfl, rfl⟩ := h
  exact located_window hsplit hne consume

/-! ### The index -/

theorem offset_append (a b : List (List Char)) : offset (a ++ b) = offset a + offset b := by
  rw [offset, List.flatMap_append, utf8Length_append, offset, offset]

theorem offset_singleton (line : List Char) : offset [line] = utf8Length line + 1 := by
  rw [offset, List.flatMap_singleton, utf8Length_append]
  rfl

theorem length_indexFrom : ∀ (start : Nat) (parts : List (List Char)),
    (indexFrom start parts).length = parts.length := by
  intro start parts
  induction parts generalizing start with
  | nil => rfl
  | cons segment rest ih => rw [indexFrom, List.length_cons, ih, List.length_cons]

theorem indexFrom_append : ∀ (start : Nat) (before after : List (List Char)),
    indexFrom start (before ++ after) = indexFrom start before ++ indexFrom (start + offset before) after := by
  intro start before after
  induction before generalizing start with
  | nil => rfl
  | cons segment rest ih =>
      rw [List.cons_append, indexFrom, ih, indexFrom, List.cons_append]
      have hoffset : offset (segment :: rest) = utf8Length segment + 1 + offset rest := by
        rw [← offset_singleton, ← offset_append]
        rfl
      rw [hoffset]
      congr 3
      omega

/-- The span of a line in its place. -/
theorem indexLines_getElem (line : List Char)
    (hsplit : content.splitOn '\n' = before ++ line :: after) :
    (indexLines content)[before.length]? = some ⟨offset before, offset before + utf8Length line⟩ := by
  rw [indexLines, hsplit, indexFrom_append, List.getElem?_append_right (by rw [length_indexFrom]),
    length_indexFrom, Nat.sub_self, indexFrom, Nat.zero_add]
  rfl

/-- The spans of lines give their texts back. -/
theorem map_text_indexFrom : ∀ {before lines : List (List Char)},
    content.splitOn '\n' = before ++ lines ++ after →
      (indexFrom (offset before) lines).map (LineSpan.text content) = lines := by
  intro before lines
  induction lines generalizing before with
  | nil => exact fun _ => rfl
  | cons line rest ih =>
      intro hsplit
      have hline : content.splitOn '\n' = before ++ [line] ++ (rest ++ after) := by
        rw [hsplit]
        simp
      have hslice := (located_window hline (List.cons_ne_nil _ _) false).slice_eq
      rw [if_neg (by simp), List.append_nil] at hslice
      have hrest := @ih (before ++ [line]) (by rw [hsplit]; simp)
      rw [offset_append, offset_singleton, ← Nat.add_assoc] at hrest
      rw [indexFrom, List.map_cons, hrest]
      congr 1
      rw [LineSpan.text]
      have hunlines : unlines [line] = line := by simp [unlines]
      rw [hunlines] at hslice
      exact hslice

theorem windowText_eq (hsplit : content.splitOn '\n' = before ++ window ++ after) :
    windowText content (indexLines content) before.length window.length = window := by
  rw [windowText, indexLines, hsplit, List.append_assoc, indexFrom_append, indexFrom_append,
    List.drop_left' (length_indexFrom _ _), List.take_left' (length_indexFrom _ _), Nat.zero_add]
  exact map_text_indexFrom hsplit

/-- The range of a block is that of its text. -/
theorem windowRange_eq (hsplit : content.splitOn '\n' = before ++ window ++ after) (hne : window ≠ [])
    (consume : Bool) : windowRange content (indexLines content) before.length window.length consume =
      ⟨offset before, offset before +
        utf8Length (unlines window ++ (if consume ∧ after ≠ [] then ['\n'] else []))⟩ := by
  obtain ⟨first, rest, hfirst⟩ := List.exists_cons_of_ne_nil hne
  obtain ⟨init, last, hlast⟩ := List.eq_nil_or_concat window |>.resolve_left hne
  rw [List.concat_eq_append] at hlast
  have hstart := @indexLines_getElem content before (rest ++ after) first (by rw [hsplit, hfirst]; simp)
  have hstop := @indexLines_getElem content (before ++ init) after last (by rw [hsplit, hlast]; simp)
  have hlen : before.length + window.length - 1 = (before ++ init).length := by
    rw [hlast, List.length_append, List.length_append, List.length_singleton]
    omega
  have hunlines : utf8Length (unlines window) = offset init + utf8Length last := by
    rw [hlast, unlines_append (List.cons_ne_nil _ _), utf8Length_append]
    simp [unlines, offset]
  have hend : offset (before ++ init) + utf8Length last = offset before + utf8Length (unlines window) := by
    rw [hunlines, offset_append]
    omega
  have hdrop := dropBytes_append (before.flatMap (fun line => line ++ ['\n']) ++ unlines window)
    (if after = [] then [] else '\n' :: unlines after)
  rw [← content_window hsplit hne, utf8Length_append] at hdrop
  have hnewline : (dropBytes content (offset before + utf8Length (unlines window))).head? = some '\n' ↔
      after ≠ [] := by
    rw [offset, hdrop]
    by_cases hafter : after = []
    · simp [hafter]
    · simp [hafter]
  rw [windowRange, hlen, hstart, hstop]
  simp only [Option.getD_some, hend, hnewline]
  congr 1
  split
  · rw [utf8Length_append, Nat.add_assoc]
    rfl
  · rw [List.append_nil]

/-! ### The scan -/

section Scan

variable {consume : Bool} {n : Nat} {test : List (List Char) → Bool} {same : List (List Char) → Prop}

/-- What a scan tests is what the stage asks of a block of this length. -/
structure Decides (test : List (List Char) → Bool) (same : List (List Char) → Prop) (n : Nat) : Prop where
  test : ∀ window, window.length = n → (test window = true ↔ same window)
  length : ∀ window, same window → window.length = n

theorem length_indexLines (content : List Char) :
    (indexLines content).length = (content.splitOn '\n').length :=
  length_indexFrom _ _

/-- **A range of a scan** is that of a block. -/
theorem scan_sound (hdecides : Decides test same n) {range : ByteRange}
    (h : range ∈ scan content (indexLines content) n consume test) :
    ∃ text, IsWindow content same consume range.start text ∧ range.stop = range.start + utf8Length text := by
  rw [scan] at h
  split at h
  · cases h
  · next hsize =>
      obtain ⟨hpos, hlen⟩ := not_or.mp hsize
      obtain ⟨i, hi, rfl⟩ := List.mem_map.mp h
      obtain ⟨hrange, htest⟩ := List.mem_filter.mp hi
      have hi := List.mem_range.mp hrange
      rw [length_indexLines] at hi hlen
      let parts := content.splitOn '\n'
      have hsplit : content.splitOn '\n' = parts.take i ++ (parts.drop i).take n ++ (parts.drop i).drop n := by
        rw [List.append_assoc, List.take_append_drop, List.take_append_drop]
      have hbefore : (parts.take i).length = i := by
        rw [List.length_take]
        show min i (content.splitOn '\n').length = i
        omega
      have hwindow : ((parts.drop i).take n).length = n := by
        rw [List.length_take, List.length_drop]
        show min n ((content.splitOn '\n').length - i) = n
        omega
      have hne : (parts.drop i).take n ≠ [] := by
        intro hnil
        rw [hnil] at hwindow
        exact hpos hwindow.symm
      have htext := windowText_eq hsplit
      have hspan := windowRange_eq hsplit hne consume
      rw [hbefore, hwindow] at htext hspan
      rw [htext] at htest
      rw [hspan]
      exact ⟨_, ⟨_, _, _, hsplit, hne, (hdecides.test _ hwindow).mp htest, rfl, rfl⟩, rfl⟩

/-- **A block** that is the same is in the scan. -/
theorem mem_scan (hdecides : Decides test same n)
    (hsplit : content.splitOn '\n' = before ++ window ++ after) (hne : window ≠ []) (hsame : same window) :
    before.length ∈ (List.range ((indexLines content).length - n + 1)).filter
      (fun i => test (windowText content (indexLines content) i n)) ∧ n ≠ 0 ∧
        n ≤ (indexLines content).length := by
  have hlen := hdecides.length window hsame
  have hall : (indexLines content).length = before.length + n + after.length := by
    rw [length_indexLines, hsplit, List.length_append, List.length_append, hlen]
  have htext := windowText_eq hsplit
  rw [hlen] at htext
  refine ⟨List.mem_filter.mpr ⟨List.mem_range.mpr (by omega), ?_⟩, ?_, by omega⟩
  · rw [htext]
    exact (hdecides.test window hlen).mpr hsame
  · rintro rfl
    exact hne (List.length_eq_zero_iff.mp hlen)

theorem scan_ne_nil (hdecides : Decides test same n) {start : Nat} {text : List Char}
    (h : IsWindow content same consume start text) :
    scan content (indexLines content) n consume test ≠ [] := by
  obtain ⟨before, window, after, hsplit, hne, hsame, -, -⟩ := h
  obtain ⟨hin, hpos, hlen⟩ := mem_scan hdecides hsplit hne hsame
  rw [scan, if_neg (not_or.mpr ⟨hpos, Nat.not_lt.mpr hlen⟩)]
  exact List.ne_nil_of_mem (List.mem_map_of_mem hin)

/-- **A single range** is that of the only block. -/
theorem scan_unique (hdecides : Decides test same n) {range : ByteRange}
    (hscan : scan content (indexLines content) n consume test = [range]) {start : Nat} {text : List Char}
    (h : IsWindow content same consume start text) : start = range.start := by
  obtain ⟨before, window, after, hsplit, hne, hsame, rfl, -⟩ := h
  obtain ⟨hin, hpos, hlen⟩ := mem_scan hdecides hsplit hne hsame
  rw [scan, if_neg (not_or.mpr ⟨hpos, Nat.not_lt.mpr hlen⟩)] at hscan
  have hrange := List.mem_map_of_mem (f := fun i => windowRange content (indexLines content) i n consume) hin
  rw [hscan, List.mem_singleton] at hrange
  have hspan := windowRange_eq hsplit hne consume
  rw [hdecides.length window hsame] at hspan
  rw [← hrange, hspan]

end Scan

/-! ## Stages -/

theorem pairwise_iff {eq : List Char → List Char → Bool} {R : List Char → List Char → Prop}
    (heq : ∀ a b, eq a b = true ↔ R a b) : ∀ {findLines window : List (List Char)},
    window.length = findLines.length → (pairwise eq findLines window = true ↔ List.Forall₂ R window findLines) := by
  intro findLines window
  induction window generalizing findLines with
  | nil =>
      intro hlen
      rw [List.length_eq_zero_iff.mp hlen.symm]
      simp [pairwise]
  | cons line window ih =>
      intro hlen
      cases findLines with
      | nil => cases hlen
      | cons findLine findLines =>
          have hrest := @ih findLines (Nat.succ.inj hlen)
          rw [pairwise] at hrest ⊢
          rw [List.zip_cons_cons, List.all_cons, Bool.and_eq_true, hrest, List.forall₂_cons, heq]

theorem decides_sameLines (key : List Char → List Char) (findLines : List (List Char)) :
    Decides (pairwise (fun a b => key a == key b) findLines) (SameLines key findLines) findLines.length := by
  refine ⟨?_, fun window h => by simpa using congrArg List.length h⟩
  intro window hlen
  have hmap : SameLines key findLines window ↔
      List.Forall₂ (· = ·) (window.map key) (findLines.map key) := by
    rw [List.forall₂_eq_eq_eq, SameLines]
  rw [pairwise_iff (R := fun a b => key a = key b) (fun a b => beq_iff_eq) hlen, hmap,
    List.forall₂_map_left_iff, List.forall₂_map_right_iff]

theorem decides_sameIndented (findLines : List (List Char)) :
    Decides (fun window => pairwise (sameIndented (commonIndent window) (commonIndent findLines)) findLines window)
      (SameIndented findLines) findLines.length := by
  refine ⟨?_, fun window h => List.Forall₂.length_eq h⟩
  intro window hlen
  refine pairwise_iff ?_ hlen
  intro a b
  rw [sameIndented, Bool.or_eq_true, Bool.and_eq_true, beq_iff_eq]

/-! ### The lists of a stage -/

variable {blockAnchor : List Char → List LineSpan → List Char → List ByteRange} {stage : Stage}
  {range : ByteRange} {start : Nat} {text : List Char}

theorem Matches.located (h : Matches content find stage start text) : Located content start text := by
  cases stage with
  | exact => exact h.1 ▸ h.2
  | lineTrimmed => exact IsWindow.located h
  | whitespaceNormalized => exact IsWindow.located h
  | indentationFlexible => exact IsWindow.located h
  | escapeNormalized => exact h.2.2
  | blockAnchor => exact h.elim

/-- **What a stage lists** are places that match it. -/
theorem stage_sound (hstage : stage ≠ .blockAnchor)
    (h : range ∈ stageMatches blockAnchor content find stage) :
    ∃ text, Matches content find stage range.start text ∧ range.stop = range.start + utf8Length text := by
  cases stage with
  | exact =>
      obtain ⟨i, hi, rfl⟩ := List.mem_map.mp h
      exact ⟨find, ⟨rfl, mem_matchIndices hi⟩, rfl⟩
  | lineTrimmed => exact scan_sound (decides_sameLines _ _) h
  | whitespaceNormalized => exact scan_sound (decides_sameLines _ _) h
  | indentationFlexible => exact scan_sound (decides_sameIndented _) h
  | escapeNormalized =>
      have h : range ∈ escapeNormalizedMatches content find := h
      rw [escapeNormalizedMatches] at h
      split at h
      · cases h
      · next hne =>
          obtain ⟨i, hi, rfl⟩ := List.mem_map.mp h
          exact ⟨_, ⟨hne, rfl, mem_matchIndices hi⟩, rfl⟩
  | blockAnchor => exact absurd rfl hstage

/-- The text of the single range of a stage. -/
theorem stage_slice (hstage : stage ≠ .blockAnchor)
    (h : range ∈ stageMatches blockAnchor content find stage) :
    (isCharBoundary content range.start = true ∧ isCharBoundary content range.stop = true) ∧
      Matches content find stage range.start (slice content range.start range.stop) := by
  obtain ⟨text, hmatches, hstop⟩ := stage_sound hstage h
  have hlocated := hmatches.located
  rw [hstop, hlocated.slice_eq]
  exact ⟨hlocated.boundaries, hmatches⟩

theorem unescapeFind_ne_nil (hne : find ≠ []) : unescapeFind find ≠ [] := by
  cases find with
  | nil => exact absurd rfl hne
  | cons ch rest =>
      rw [unescapeFind.eq_def]
      split
      · next h => cases h
      · intro hnil
        have hch := (List.append_eq_nil_iff.mp hnil).1
        unfold unescapeChar at hch
        split at hch <;> cases hch
      · exact List.cons_ne_nil _ _

/-- **A stage with a place that matches** lists one. -/
theorem stage_ne_nil (hne : find ≠ []) (h : Matches content find stage start text) :
    stageMatches blockAnchor content find stage ≠ [] := by
  cases stage with
  | exact =>
      obtain ⟨rfl, hlocated⟩ := h
      intro hnil
      exact matchIndices_ne_nil hne hlocated (List.map_eq_nil_iff.mp hnil)
  | lineTrimmed => exact scan_ne_nil (decides_sameLines _ _) h
  | whitespaceNormalized => exact scan_ne_nil (decides_sameLines _ _) h
  | indentationFlexible => exact scan_ne_nil (decides_sameIndented _) h
  | escapeNormalized =>
      obtain ⟨hescaped, rfl, hlocated⟩ := h
      intro hnil
      have hnil : escapeNormalizedMatches content find = [] := hnil
      rw [escapeNormalizedMatches, if_neg hescaped] at hnil
      exact matchIndices_ne_nil (unescapeFind_ne_nil hne) hlocated (List.map_eq_nil_iff.mp hnil)
  | blockAnchor => exact h.elim

/-- No place matches a stage that lists none, and the other way round. -/
theorem stage_nil_iff (hne : find ≠ []) (hstage : stage ≠ .blockAnchor) :
    stageMatches blockAnchor content find stage = [] ↔ ∀ start text, ¬Matches content find stage start text := by
  constructor
  · exact fun h _ _ hmatches => stage_ne_nil hne hmatches h
  · intro h
    rw [List.eq_nil_iff_forall_not_mem]
    intro range hrange
    obtain ⟨text, hmatches, -⟩ := stage_sound hstage hrange
    exact h _ _ hmatches

/-! ## The chain -/

theorem firstMatching_found : ∀ {rest : List Stage},
    firstMatching blockAnchor content find rest = .found range stage ↔
      ∃ before after, rest = before ++ stage :: after ∧
        (∀ stage' ∈ before, stageMatches blockAnchor content find stage' = []) ∧
          stageMatches blockAnchor content find stage = [range] := by
  intro rest
  induction rest with
  | nil =>
      rw [firstMatching]
      constructor
      · intro h
        cases h
      · rintro ⟨before, after, hsplit, -⟩
        cases before with
        | nil => cases hsplit
        | cons first before => cases hsplit
  | cons first rest ih =>
      rw [firstMatching]
      constructor
      · intro h
        split at h
        · next hnil =>
            obtain ⟨before, after, rfl, hbefore, hrange⟩ := ih.mp h
            refine ⟨first :: before, after, rfl, ?_, hrange⟩
            intro stage' hstage
            rcases List.mem_cons.mp hstage with rfl | hstage
            · exact hnil
            · exact hbefore stage' hstage
        · next range' hone =>
            cases h
            exact ⟨[], rest, rfl, by simp, hone⟩
        · cases h
      · rintro ⟨before, after, hsplit, hbefore, hrange⟩
        cases before with
        | nil =>
            obtain ⟨rfl, rfl⟩ := List.cons.inj hsplit
            rw [hrange]
        | cons first' before =>
            obtain ⟨rfl, rfl⟩ := List.cons.inj hsplit
            rw [hbefore first List.mem_cons_self]
            exact ih.mpr ⟨before, after, rfl, fun s hs => hbefore s (List.mem_cons_of_mem _ hs), hrange⟩

theorem stages_split (stage : Stage) : ∃ after, stages = stage.earlier ++ stage :: after := by
  cases stage with
  | exact => exact ⟨_, rfl⟩
  | lineTrimmed => exact ⟨_, rfl⟩
  | whitespaceNormalized => exact ⟨_, rfl⟩
  | indentationFlexible => exact ⟨_, rfl⟩
  | escapeNormalized => exact ⟨_, rfl⟩
  | blockAnchor => exact ⟨_, rfl⟩

/-- The chain ends with a match exactly at the first stage that lists anything. -/
theorem findReplacement_found (hne : find ≠ []) :
    findReplacement blockAnchor content find = .found range stage ↔
      (∀ stage' ∈ stage.earlier, stageMatches blockAnchor content find stage' = []) ∧
        stageMatches blockAnchor content find stage = [range] := by
  obtain ⟨after, hafter⟩ := stages_split stage
  rw [findReplacement, if_neg (by simpa using hne), firstMatching_found]
  constructor
  · rintro ⟨before, after', hsplit, hbefore, hrange⟩
    have hout : stage ∉ before := by
      intro hin
      have hnodup : stages.Nodup := by decide
      rw [hsplit] at hnodup
      exact List.disjoint_of_nodup_append hnodup hin List.mem_cons_self
    have hearlier : stage.earlier = before := by
      rw [Stage.earlier, hsplit, List.takeWhile_append_of_pos]
      · simp
      · intro stage' hin
        rw [bne_iff_ne]
        rintro rfl
        exact hout hin
    exact ⟨hearlier ▸ hbefore, hrange⟩
  · rintro ⟨hearlier, hrange⟩
    exact ⟨_, after, hafter, hearlier, hrange⟩

theorem earlier_exact {P : Stage → Prop} : ∀ stage ∈ Stage.earlier .exact, P stage := by
  intro stage h
  have h : stage ∈ ([] : List Stage) := h
  cases h

theorem earlier_ne_blockAnchor : ∀ stage : Stage, ∀ stage' ∈ stage.earlier, stage' ≠ .blockAnchor := by
  intro stage
  cases stage with
  | exact => decide
  | lineTrimmed => decide
  | whitespaceNormalized => decide
  | indentationFlexible => decide
  | escapeNormalized => decide
  | blockAnchor => decide

/-- The texts the two searches look for are clear, where the search decides. -/
structure SearchesClear (content find : List Char) : Prop where
  exact : Clear find content
  escaped : (∀ stage ∈ Stage.earlier .escapeNormalized, ∀ start text,
    ¬Matches content find stage start text) → Clear (unescapeFind find) content

theorem clear_nil (content : List Char) : Clear [] content :=
  fun i j hij hi hj => ⟨i, j, hi, hj, hij.le⟩

/-- **A single range of a stage** is that of the only place. -/
theorem stage_unique (hne : find ≠ []) (hclear : SearchesClear content find)
    (hearlier : ∀ stage' ∈ stage.earlier, ∀ start text, ¬Matches content find stage' start text)
    (hrange : stageMatches blockAnchor content find stage = [range])
    (h : Matches content find stage start text) : start = range.start := by
  cases stage with
  | exact =>
      obtain ⟨rfl, hlocated⟩ := h
      obtain ⟨p, rest, hplaces, rfl, hrest⟩ := List.map_eq_cons_iff.mp hrange
      rw [List.map_eq_nil_iff.mp hrest] at hplaces
      exact unique_of_clear hne hclear.exact hplaces hlocated
  | lineTrimmed => exact scan_unique (decides_sameLines _ _) hrange h
  | whitespaceNormalized => exact scan_unique (decides_sameLines _ _) hrange h
  | indentationFlexible => exact scan_unique (decides_sameIndented _) hrange h
  | escapeNormalized =>
      obtain ⟨hescaped, rfl, hlocated⟩ := h
      have hrange : escapeNormalizedMatches content find = [range] := hrange
      rw [escapeNormalizedMatches, if_neg hescaped] at hrange
      obtain ⟨p, rest, hplaces, rfl, hrest⟩ := List.map_eq_cons_iff.mp hrange
      rw [List.map_eq_nil_iff.mp hrest] at hplaces
      exact unique_of_clear (unescapeFind_ne_nil hne) (hclear.escaped hearlier) hplaces hlocated
  | blockAnchor => exact h.elim

/-- **A match is the only place**, for every content in which the searched texts are
clear and for no other. -/
theorem only_place_iff (blockAnchor : List Char → List LineSpan → List Char → List ByteRange)
    (content find : List Char) :
    (∀ range stage, findReplacement blockAnchor content find = .found range stage →
      stage ≠ .blockAnchor → OnlyPlace content find range stage) ↔ SearchesClear content find := by
  by_cases hne : find = []
  · subst hne
    constructor
    · exact fun _ => ⟨clear_nil content, fun _ => clear_nil content⟩
    · intro _ range stage h
      cases h
  · constructor
    · intro h
      have hexact : Clear find content := by
        refine clear_of_unique hne ?_
        intro p hp q hq
        have hfound : findReplacement blockAnchor content find =
            .found ⟨p, p + utf8Length find⟩ .exact := by
          refine (findReplacement_found hne).mpr ⟨earlier_exact, ?_⟩
          show exactMatches content find = _
          rw [exactMatches, hp]
          rfl
        exact (h _ _ hfound (by decide)).only q find ⟨rfl, hq⟩
      refine ⟨hexact, ?_⟩
      intro hearlier
      by_cases hescaped : unescapeFind find = find
      · rw [hescaped]
        exact hexact
      · refine clear_of_unique (unescapeFind_ne_nil hne) ?_
        intro p hp q hq
        have hfound : findReplacement blockAnchor content find =
            .found ⟨p, p + utf8Length (unescapeFind find)⟩ .escapeNormalized := by
          refine (findReplacement_found hne).mpr ⟨?_, ?_⟩
          · intro stage' hstage
            exact (stage_nil_iff hne (earlier_ne_blockAnchor _ stage' hstage)).mpr (hearlier stage' hstage)
          · show escapeNormalizedMatches content find = _
            rw [escapeNormalizedMatches, if_neg hescaped, exactMatches, hp]
            rfl
        exact (h _ _ hfound (by decide)).only q _ ⟨hescaped, rfl, hq⟩
    · intro hclear range stage h hstage
      obtain ⟨hnil, hrange⟩ := (findReplacement_found hne).mp h
      have hearlier : ∀ stage' ∈ stage.earlier, ∀ start text, ¬Matches content find stage' start text :=
        fun stage' hin => (stage_nil_iff hne (earlier_ne_blockAnchor _ stage' hin)).mp (hnil stage' hin)
      obtain ⟨hboundaries, hsame⟩ := stage_slice hstage (hrange ▸ List.mem_singleton_self range)
      exact ⟨hboundaries, hsame, fun _ _ h => stage_unique hne hclear hearlier hrange h, hearlier⟩

/-- Two places that overlap, and one match.  A needle of one line has no anchors. -/
theorem overlapping_is_unique :
    findReplacement (fun _ _ _ => []) "aaa".toList "aa".toList = .found ⟨0, 2⟩ .exact ∧
      ¬OnlyPlace "aaa".toList "aa".toList ⟨0, 2⟩ .exact := by
  refine ⟨by rfl, ?_⟩
  intro h
  have hsecond : Matches "aaa".toList "aa".toList .exact 1 "aa".toList :=
    ⟨rfl, "a".toList, [], by decide, by decide⟩
  exact absurd (h.only 1 _ hsecond) (by decide)

end Octos.Tools.Replacer
