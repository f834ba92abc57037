/-
# `Octos.Tools.PatchHunks` — the hunks of a patch, applied in order

`apply_codex_hunks` of `apply_patch.rs`.  A cursor moves down the lines of the
file; a hunk moves it behind its anchor, finds its block there and replaces it.
What the cursor has passed is not looked at again:

    passed ++ kept ++ block ++ rest   becomes   passed ++ kept ++ added ++ rest

So the blocks are disjoint and in order, and the other lines stay (`Patched`).
The text is another matter.  The lines are read without the way they end and
joined by plain newlines, so every line that ended in `\r\n` ends in `\n`
afterwards, in the part that no hunk names too, and with no hunks at all.
-/
import Octos.Tools.DiffLines
import Octos.Lib.LineEnds
import Octos.Lib.Patched

namespace Octos.Tools

open Text

/-! ## Hunks -/

structure UpdateHunk where
  anchor : Option (List Char) := none
  lines : List DiffLine := []
  atEof : Bool := false
  deriving DecidableEq

inductive HunkError
  | anchorNotFound (hunkNo : Nat) (anchor : List Char) (searchedFrom : Nat)
  | noContext (hunkNo : Nat)
  | blockNotFound (hunkNo searchedFrom : Nat) (preview : List (List Char))
  deriving DecidableEq

/-- The lines as edited so far, and the cursor. -/
structure Editing where
  lines : List (List Char)
  cursor : Nat

/-- The first index from `start` on and before `stop`. -/
def findIndex (start stop : Nat) (p : Nat → Bool) : Option Nat :=
  (List.range' start (stop - start)).find? p

/-- The anchor's line, up to white space behind it; else up to white space around it. -/
def findAnchor (st : Editing) (anchor : List Char) : Option Nat :=
  (findIndex st.cursor st.lines.length
    (fun i => trimEnd (st.lines[i]?.getD []) == trimEnd anchor)).or
  (findIndex st.cursor st.lines.length (fun i => trim (st.lines[i]?.getD []) == trim anchor))

def toAnchor (hunkNo : Nat) (hunk : UpdateHunk) (st : Editing) : Except HunkError Editing :=
  match hunk.anchor with
  | none => .ok st
  | some anchor =>
      match findAnchor st anchor with
      | some pos => .ok { st with cursor := pos + 1 }
      | none => .error (.anchorNotFound hunkNo anchor (st.cursor + 1))

/-- `find_block_from`. -/
def findBlockFrom (lines pattern : List (List Char)) (start : Nat) : Option Nat :=
  if pattern.isEmpty ∨ lines.length < pattern.length then none
  else findIndex start (lines.length - pattern.length + 1) (matchesAt lines pattern)

/-- Where a hunk without a block may insert. -/
def insertPos (hunk : UpdateHunk) (st : Editing) : Option Nat :=
  if hunk.atEof then some st.lines.length
  else if hunk.anchor.isSome then some st.cursor
  else if st.lines.isEmpty then some 0
  else none

/-- Where the block of a hunk stands. -/
def blockPos (hunk : UpdateHunk) (st : Editing) : Option Nat :=
  let pattern := patternLines hunk.lines
  if hunk.atEof then
    if pattern.length ≤ st.lines.length then
      (some (st.lines.length - pattern.length)).filter
        (fun pos => decide (st.cursor ≤ pos) && matchesAt st.lines pattern pos)
    else none
  else findBlockFrom st.lines pattern st.cursor

/-- One round of the loop. -/
def applyHunk (hunkNo : Nat) (hunk : UpdateHunk) (st : Editing) : Except HunkError Editing := do
  let st ← toAnchor hunkNo hunk st
  let pattern := patternLines hunk.lines
  let replacement := replacementLines hunk.lines
  if pattern.isEmpty then
    match insertPos hunk st with
    | some pos => .ok ⟨splice st.lines pos 0 replacement, pos + replacement.length⟩
    | none => .error (.noContext hunkNo)
  else
    match blockPos hunk st with
    | some pos => .ok ⟨splice st.lines pos pattern.length replacement, pos + replacement.length⟩
    | none => .error (.blockNotFound hunkNo (st.cursor + 1) (pattern.take 3))

def applyFrom : Nat → List UpdateHunk → Editing → Except HunkError Editing
  | _, [], st => .ok st
  | hunkNo, hunk :: hunks, st => do
      let st ← applyHunk hunkNo hunk st
      applyFrom (hunkNo + 1) hunks st

def applyCodexHunks (content : List Char) (hunks : List UpdateHunk) : Except HunkError (List Char) := do
  let st ← applyFrom 1 hunks ⟨lines content, 0⟩
  return unlines st.lines ++ finalNewline content

/-! ## What an edit of the lines is -/

/-- The block of lines that a hunk names. -/
def UpdateHunk.Names (hunk : UpdateHunk) (block : List Line) : Prop :=
  SameBlock (block.map Line.text) (patternLines hunk.lines)

/-- The lines a hunk puts in its place. -/
def UpdateHunk.added (hunk : UpdateHunk) : List Line :=
  (replacementLines hunk.lines).map (fun text => ⟨text, ['\n']⟩)

def UpdateHunk.size (hunk : UpdateHunk) : Nat :=
  (patternLines hunk.lines).length

/-- The result is the content with its blocks replaced: each line outside keeps its
text and its ending, and the text ends as it did. -/
structure Frame (content : List Char) (hunks : List UpdateHunk) (out : List Char) : Prop where
  edit : ∃ places rows,
    Patched UpdateHunk.Names UpdateHunk.added 0 (linesWithEnds content) hunks places rows ∧
      InOrder UpdateHunk.size places hunks ∧ out = assemble (finalEnd content) rows
  rename : hunks = [] → out = content

theorem UpdateHunk.Names.length {hunk : UpdateHunk} {block : List Line} (h : hunk.Names block) :
    block.length = hunk.size := by
  rw [← List.length_map Line.text]
  exact SameBlock.length h

/-! ## One hunk -/

variable {hunkNo : Nat} {hunk : UpdateHunk} {st st' : Editing}

theorem findIndex_some {start stop i : Nat} {p : Nat → Bool} (h : findIndex start stop p = some i) :
    start ≤ i ∧ i < stop ∧ p i = true := by
  have hmem := List.mem_of_find?_eq_some h
  have hp := List.find?_some h
  rw [List.mem_range'_1] at hmem
  exact ⟨hmem.1, by omega, hp⟩

theorem toAnchor_spec (h : toAnchor hunkNo hunk st = .ok st') :
    st'.lines = st.lines ∧ (st' = st ∨ st.cursor ≤ st'.cursor ∧ st'.cursor ≤ st.lines.length) := by
  unfold toAnchor at h
  split at h
  · obtain rfl := Except.ok.inj h
    exact ⟨rfl, Or.inl rfl⟩
  · split at h
    · next pos hpos =>
        obtain rfl := Except.ok.inj h
        refine ⟨rfl, Or.inr ?_⟩
        rcases Option.or_eq_some_iff.mp hpos with hpos | ⟨-, hpos⟩
        · obtain ⟨hle, hlt, -⟩ := findIndex_some hpos
          exact ⟨by show st.cursor ≤ pos + 1; omega, hlt⟩
        · obtain ⟨hle, hlt, -⟩ := findIndex_some hpos
          exact ⟨by show st.cursor ≤ pos + 1; omega, hlt⟩
    · cases h

theorem blockPos_spec {pos : Nat} (h : blockPos hunk st = some pos) :
    st.cursor ≤ pos ∧ matchesAt st.lines (patternLines hunk.lines) pos = true := by
  simp only [blockPos] at h
  split at h
  · split at h
    · obtain ⟨hsome, hp⟩ := Option.filter_eq_some_iff.mp h
      obtain rfl := Option.some.inj hsome
      simpa using hp
    · cases h
  · unfold findBlockFrom at h
    split at h
    · cases h
    · obtain ⟨hle, -, hp⟩ := findIndex_some h
      exact ⟨hle, hp⟩

theorem insertPos_spec {pos : Nat} (hcursor : st.cursor ≤ st.lines.length) (h : insertPos hunk st = some pos) :
    st.cursor ≤ pos ∧ pos ≤ st.lines.length := by
  unfold insertPos at h
  split at h
  · obtain rfl := Option.some.inj h
    exact ⟨hcursor, le_rfl⟩
  · split at h
    · obtain rfl := Option.some.inj h
      exact ⟨le_rfl, hcursor⟩
    · split at h
      · next hempty =>
          obtain rfl := Option.some.inj h
          rw [List.isEmpty_iff] at hempty
          rw [hempty] at hcursor ⊢
          exact ⟨hcursor, le_rfl⟩
      · cases h

/-- A block at or behind the cursor, and what stands in its place afterwards. -/
structure Replaces (hunk : UpdateHunk) (st st' : Editing) (kept block rest : List (List Char)) : Prop where
  before : st.lines.drop st.cursor = kept ++ block ++ rest
  same : SameBlock block (patternLines hunk.lines)
  after : st'.lines = st.lines.take st.cursor ++ kept ++ replacementLines hunk.lines ++ rest
  cursor : st'.cursor = st.cursor + kept.length + (replacementLines hunk.lines).length
  inside : st'.cursor ≤ st'.lines.length

/-- Splicing at a place behind the cursor. -/
theorem replaces_splice (hunk : UpdateHunk) (st : Editing) {pos : Nat}
    {before block after : List (List Char)} (hle : st.cursor ≤ pos)
    (hlines : st.lines = before ++ block ++ after) (hbefore : before.length = pos)
    (hsame : SameBlock block (patternLines hunk.lines)) :
    Replaces hunk st ⟨splice st.lines pos (patternLines hunk.lines).length (replacementLines hunk.lines),
      pos + (replacementLines hunk.lines).length⟩ (before.drop st.cursor) block after := by
  have hdrop : st.cursor ≤ before.length := hbefore ▸ hle
  have htake : st.lines.take st.cursor = before.take st.cursor := by
    rw [hlines, List.append_assoc, List.take_append_of_le_length hdrop]
  have hsplice : splice st.lines pos (patternLines hunk.lines).length (replacementLines hunk.lines) =
      before ++ replacementLines hunk.lines ++ after := by
    rw [hlines, splice_split hbefore hsame.length]
  refine ⟨?_, hsame, ?_, ?_, ?_⟩
  · rw [hlines, List.append_assoc, List.drop_append_of_le_length hdrop, List.append_assoc]
  · show splice _ _ _ _ = _
    rw [hsplice, htake, List.take_append_drop]
  · show pos + _ = _
    rw [List.length_drop]
    omega
  · show pos + _ ≤ (splice _ _ _ _).length
    rw [hsplice]
    simp only [List.length_append]
    omega

/-- **One hunk** replaces one block behind the cursor. -/
theorem applyHunk_spec (hcursor : st.cursor ≤ st.lines.length) (h : applyHunk hunkNo hunk st = .ok st') :
    ∃ kept block rest, Replaces hunk st st' kept block rest := by
  unfold applyHunk at h
  cases hanchor : toAnchor hunkNo hunk st with
  | error e =>
      rw [hanchor] at h
      cases h
  | ok st₁ =>
      rw [hanchor] at h
      obtain ⟨hlines, hmoved⟩ := toAnchor_spec hanchor
      have hle : st.cursor ≤ st₁.cursor ∧ st₁.cursor ≤ st₁.lines.length := by
        rcases hmoved with rfl | ⟨hle, hlen⟩
        · exact ⟨le_rfl, hcursor⟩
        · exact ⟨hle, hlines ▸ hlen⟩
      simp only [bind, Except.bind] at h
      split at h
      · next hempty =>
          split at h
          · next pos hpos =>
              obtain rfl := Except.ok.inj h
              obtain ⟨hpos₁, hpos₂⟩ := insertPos_spec hle.2 hpos
              rw [hlines] at hpos₂
              rw [List.isEmpty_iff] at hempty
              have hsame : SameBlock [] (patternLines hunk.lines) := by rw [hempty]; rfl
              have hsplit : st.lines = st.lines.take pos ++ [] ++ st.lines.drop pos := by simp
              have hreplaces := replaces_splice hunk st (hle.1.trans hpos₁) hsplit
                (by simpa using hpos₂) hsame
              rw [hempty] at hreplaces
              rw [hlines]
              exact ⟨_, _, _, hreplaces⟩
          · cases h
      · split at h
        · next pos hpos =>
            obtain rfl := Except.ok.inj h
            obtain ⟨hpos₁, hmatch⟩ := blockPos_spec hpos
            rw [hlines] at hmatch
            obtain ⟨before, block, after, hsplit, hbefore, hsame⟩ := matchesAt_split hmatch
            have hreplaces := replaces_splice hunk st (hle.1.trans hpos₁) hsplit hbefore hsame
            rw [hlines]
            exact ⟨_, _, _, hreplaces⟩
        · cases h

/-! ## All hunks -/

theorem map_text_added (hunk : UpdateHunk) : hunk.added.map Line.text = replacementLines hunk.lines := by
  rw [UpdateHunk.added, List.map_map]
  exact List.map_id _

/-- **The loop** patches the lines behind the cursor. -/
theorem applyFrom_patched : ∀ {hunks : List UpdateHunk} {hunkNo : Nat} {st st' : Editing}
    {passed rest : List Line}, st.lines = (passed ++ rest).map Line.text → st.cursor = passed.length →
    applyFrom hunkNo hunks st = .ok st' → ∀ p, ∃ places out,
      Patched UpdateHunk.Names UpdateHunk.added p rest hunks places out ∧
        st'.lines = (passed ++ out).map Line.text := by
  intro hunks
  induction hunks with
  | nil =>
      intro hunkNo st st' passed rest hlines _ h p
      obtain rfl := Except.ok.inj h
      exact ⟨[], rest, .nil p rest, hlines⟩
  | cons hunk hunks ih =>
      intro hunkNo st st' passed rest hlines hcursor h p
      rw [applyFrom] at h
      cases hstep : applyHunk hunkNo hunk st with
      | error e =>
          rw [hstep] at h
          cases h
      | ok st₁ =>
          rw [hstep] at h
          have hinside : st.cursor ≤ st.lines.length := by
            rw [hlines, hcursor, List.length_map, List.length_append]
            exact Nat.le_add_right _ _
          obtain ⟨kept, block, later, hreplaces⟩ := applyHunk_spec hinside hstep
          have hdrop : rest.map Line.text = kept ++ block ++ later := by
            rw [← hreplaces.before, hlines, hcursor, List.map_append, ← List.length_map Line.text,
              List.drop_left]
          obtain ⟨front, r, rfl, hfront, hr⟩ := List.map_eq_append_iff.mp hdrop
          obtain ⟨k, b, rfl, hk, hb⟩ := List.map_eq_append_iff.mp hfront
          have htake : st.lines.take st.cursor = passed.map Line.text := by
            rw [hlines, hcursor, List.map_append, ← List.length_map Line.text, List.take_left]
          have hlines₁ : st₁.lines = ((passed ++ k ++ hunk.added) ++ r).map Line.text := by
            rw [hreplaces.after, htake, List.map_append, List.map_append, List.map_append,
              map_text_added, hk, hr]
          have hcursor₁ : st₁.cursor = (passed ++ k ++ hunk.added).length := by
            rw [hreplaces.cursor, hcursor, List.length_append, List.length_append, ← hk,
              List.length_map, ← map_text_added, List.length_map]
          obtain ⟨places, out, hpatched, hout⟩ := ih hlines₁ hcursor₁ h (p + k.length + b.length)
          refine ⟨_, _, .cons ?_ hpatched, ?_⟩
          · rw [UpdateHunk.Names, hb]
            exact hreplaces.same
          · rw [hout]
            simp only [List.append_assoc]

theorem applyCodexHunks_ok {content out : List Char} {hunks : List UpdateHunk}
    (h : applyCodexHunks content hunks = .ok out) : ∃ places rows,
      Patched UpdateHunk.Names UpdateHunk.added 0 (linesWithEnds content) hunks places rows ∧
        out = unlines (rows.map Line.text) ++ finalNewline content := by
  unfold applyCodexHunks at h
  cases hrun : applyFrom 1 hunks ⟨lines content, 0⟩ with
  | error e =>
      rw [hrun] at h
      cases h
  | ok st =>
      rw [hrun] at h
      obtain rfl := Except.ok.inj h
      have hstart : lines content = ([] ++ linesWithEnds content).map Line.text :=
        (map_text_linesWithEnds content).symm
      obtain ⟨places, rows, hpatched, hlines⟩ := applyFrom_patched hstart rfl hrun 0
      exact ⟨places, rows, hpatched, by rw [hlines]; rfl⟩

/-- **Only the named blocks change**, for every list of hunks, exactly in contents
without a `\r\n`. -/
theorem frame_iff (content : List Char) :
    (∀ hunks out, applyCodexHunks content hunks = .ok out → Frame content hunks out) ↔
      ¬crlf <:+: content := by
  constructor
  · intro h hcrlf
    have hrename : applyCodexHunks content [] = .ok (unlines (lines content) ++ finalNewline content) := rfl
    obtain ⟨l, hl, hend⟩ := ending_of_crlf hcrlf
    exact unlines_lines_ne hl hend ((h [] _ hrename).rename rfl)
  · intro hlf hunks out hok
    obtain ⟨places, rows, hpatched, hout⟩ := applyCodexHunks_ok hok
    have hsep : ∀ l ∈ rows, l.separator = ['\n'] := by
      intro l hl
      rcases hpatched.mem l hl with hl | ⟨hunk, -, hl⟩
      · exact separator_of_lf hlf hl
      · obtain ⟨text, -, rfl⟩ := List.mem_map.mp hl
        rfl
    have hedit : out = assemble (finalEnd content) rows := by
      rw [assemble_newlines hsep, finalEnd_of_lf hlf, hout]
    refine ⟨⟨places, rows, hpatched, hpatched.inOrder (fun _ _ h => h.length), hedit⟩, ?_⟩
    rintro rfl
    rw [hedit, hpatched.no_edits, assemble_linesWithEnds]

/-- A rename of a file of one line that ends in `\r\n`. -/
theorem rename_loses_carriage_return :
    applyCodexHunks "same body\r\n".toList [] = .ok "same body\n".toList ∧
      ¬∀ hunks out, applyCodexHunks "same body\r\n".toList hunks = .ok out →
        Frame "same body\r\n".toList hunks out := by
  have hrun : applyCodexHunks "same body\r\n".toList [] = .ok "same body\n".toList := by rfl
  refine ⟨hrun, ?_⟩
  intro h
  exact absurd ((h [] _ hrun).rename rfl) (by decide)

end Octos.Tools
