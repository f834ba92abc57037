/-
# `Octos.Memory.BlockFile` — blocks survive the disk

`MEMORY.md` and the archive are files of blocks, runs of lines that are not blank.
They are read by splitting and written by joining, and the duplicate guard of the
archive, the restore by hash and the parse of `MEMORY.md` all compare what was split
with what was joined.

A block comes back as it was unless a line of it ends in a carriage return: the newline
that a join puts behind such a line takes the carriage return with it when the file is
read again.
-/
import Octos.Memory.Apply

namespace Octos.Memory

open Text

/-! ## Blocks -/

/-- A line of a block that a file gives back: not blank, and without line ending. -/
structure BlockLine (line : List Char) : Prop where
  newline : '\n' ∉ line
  cr : line.getLast? ≠ some '\r'
  shown : (trim line).isEmpty = false

/-- A text that a file gives back as one block. -/
def Block (b : List Char) : Prop :=
  ∃ ls, ls ≠ [] ∧ (∀ line ∈ ls, BlockLine line) ∧ b = unlines ls

/-- No line of the file ends in a carriage return. -/
def Plain (content : List Char) : Prop :=
  ∀ line ∈ lines content, line.getLast? ≠ some '\r'

variable {ls : List (List Char)} {b content : List Char}

theorem stripCr_of_ne {line : List Char} (h : line.getLast? ≠ some '\r') : stripCr line = line :=
  if_neg h

theorem map_stripCr (h : ∀ line ∈ ls, BlockLine line) : ls.map stripCr = ls := by
  conv_rhs => rw [← List.map_id ls]
  exact List.map_congr_left (fun line hline => stripCr_of_ne (h line hline).cr)

theorem splitOn_unlines (hne : ls ≠ []) (h : ∀ line ∈ ls, '\n' ∉ line) :
    (unlines ls).splitOn '\n' = ls :=
  List.splitOn_intercalate '\n' h hne

/-- A block and a newline behind it. -/
theorem lines_block_append (hne : ls ≠ []) (h : ∀ line ∈ ls, BlockLine line) (rest : List Char) :
    lines (unlines ls ++ '\n' :: rest) = ls ++ lines rest := by
  rw [lines_append_newline, splitOn_unlines hne (fun line hline => (h line hline).newline),
    map_stripCr h]

theorem lines_newline_cons (rest : List Char) : lines ('\n' :: rest) = [] :: lines rest := by
  have hempty := lines_append_newline [] rest
  simpa [stripCr] using hempty

theorem lines_nil : lines [] = [] := by
  simp [lines, lastLine]

/-- Lines that are not blank are collected. -/
theorem splitBlocksFrom_append : ∀ {ls : List (List Char)} {current : List (List Char)}
    (rest : List (List Char)), (∀ line ∈ ls, (trim line).isEmpty = false) →
    splitBlocksFrom current (ls ++ rest) = splitBlocksFrom (current ++ ls) rest := by
  intro ls
  induction ls with
  | nil =>
      intro current rest _
      rw [List.nil_append, List.append_nil]
  | cons line ls ih =>
      intro current rest h
      rw [List.cons_append, splitBlocksFrom, h line List.mem_cons_self, if_neg Bool.false_ne_true,
        ih rest (fun l hl => h l (List.mem_cons_of_mem _ hl)), List.append_assoc, List.singleton_append]

theorem splitBlocksFrom_blank (hne : ls ≠ []) (rest : List (List Char)) :
    splitBlocksFrom ls ([] :: rest) = unlines ls :: splitBlocksFrom [] rest := by
  have hblank : (trim []).isEmpty = true := by decide
  have hfull : ls.isEmpty = false := by simpa using hne
  rw [splitBlocksFrom, if_pos hblank, hfull, if_neg Bool.false_ne_true]

theorem splitBlocksFrom_end (hne : ls ≠ []) : splitBlocksFrom ls [] = [unlines ls] := by
  have hfull : ls.isEmpty = false := by simpa using hne
  rw [splitBlocksFrom, hfull, if_neg Bool.false_ne_true]

/-- **A file of blocks is read as it was written.** -/
theorem splitBlocks_joinBlocks : ∀ {blocks : List (List Char)}, (∀ b ∈ blocks, Block b) →
    splitBlocks (joinBlocks blocks) = blocks := by
  intro blocks
  induction blocks with
  | nil =>
      intro _
      decide
  | cons b blocks ih =>
      intro h
      obtain ⟨ls, hne, hls, rfl⟩ := h b List.mem_cons_self
      have hshown : ∀ line ∈ ls, (trim line).isEmpty = false := fun line hline => (hls line hline).shown
      cases blocks with
      | nil =>
          have hone : joinBlocks [unlines ls] = unlines ls ++ '\n' :: [] := by
            simp [joinBlocks, List.intercalate]
          rw [splitBlocks, hone, lines_block_append hne hls, lines_nil,
            splitBlocksFrom_append [] hshown, List.nil_append, splitBlocksFrom_end hne]
      | cons b' blocks =>
          have hmore : joinBlocks (unlines ls :: b' :: blocks) =
              unlines ls ++ '\n' :: '\n' :: joinBlocks (b' :: blocks) := by
            simp [joinBlocks, List.intercalate]
          have hrest := ih (fun x hx => h x (List.mem_cons_of_mem _ hx))
          rw [splitBlocks, hmore, lines_block_append hne hls, lines_newline_cons,
            splitBlocksFrom_append _ hshown, List.nil_append, splitBlocksFrom_blank hne]
          exact congrArg _ hrest

/-- The blocks of a file are made of its lines. -/
theorem mem_splitBlocksFrom : ∀ {all current : List (List Char)}, b ∈ splitBlocksFrom current all →
    ∃ ls, ls ≠ [] ∧ b = unlines ls ∧
      ∀ line ∈ ls, line ∈ current ∨ line ∈ all ∧ (trim line).isEmpty = false := by
  intro all
  induction all with
  | nil =>
      intro current h
      rw [splitBlocksFrom] at h
      split at h
      · cases h
      · next hne =>
          obtain rfl := List.mem_singleton.mp h
          exact ⟨current, by simpa using hne, rfl, fun line hline => Or.inl hline⟩
  | cons line all ih =>
      intro current h
      have hlater : ∀ {ls : List (List Char)},
          (∀ l ∈ ls, l ∈ ([] : List (List Char)) ∨ l ∈ all ∧ (trim l).isEmpty = false) →
          ∀ l ∈ ls, l ∈ current ∨ l ∈ line :: all ∧ (trim l).isEmpty = false := by
        intro ls hls l hl
        rcases hls l hl with hnil | ⟨hmem, hshown⟩
        · cases hnil
        · exact Or.inr ⟨List.mem_cons_of_mem _ hmem, hshown⟩
      rw [splitBlocksFrom] at h
      split at h
      · split at h
        · obtain ⟨ls, hne, rfl, hls⟩ := ih h
          exact ⟨ls, hne, rfl, hlater hls⟩
        · next hne =>
            rcases List.mem_cons.mp h with rfl | h
            · exact ⟨current, by simpa using hne, rfl, fun l hl => Or.inl hl⟩
            · obtain ⟨ls, hne, rfl, hls⟩ := ih h
              exact ⟨ls, hne, rfl, hlater hls⟩
      · next hshown =>
          obtain ⟨ls, hne, rfl, hls⟩ := ih h
          refine ⟨ls, hne, rfl, ?_⟩
          intro l hl
          rcases hls l hl with hmem | ⟨hmem, hblank⟩
          · rcases List.mem_append.mp hmem with hmem | hmem
            · exact Or.inl hmem
            · obtain rfl := List.mem_singleton.mp hmem
              exact Or.inr ⟨List.mem_cons_self, by simpa using hshown⟩
          · exact Or.inr ⟨List.mem_cons_of_mem _ hmem, hblank⟩

theorem mem_splitBlocks (h : b ∈ splitBlocks content) :
    ∃ ls, ls ≠ [] ∧ b = unlines ls ∧ ∀ line ∈ ls, line ∈ lines content ∧ (trim line).isEmpty = false := by
  obtain ⟨ls, hne, hb, hls⟩ := mem_splitBlocksFrom h
  refine ⟨ls, hne, hb, ?_⟩
  intro line hline
  rcases hls line hline with hnil | hmem
  · cases hnil
  · exact hmem

/-- The blocks of a plain file. -/
theorem Plain.block (h : Plain content) (hb : b ∈ splitBlocks content) : Block b := by
  obtain ⟨ls, hne, rfl, hls⟩ := mem_splitBlocks hb
  refine ⟨ls, hne, ?_, rfl⟩
  intro line hline
  obtain ⟨hmem, hshown⟩ := hls line hline
  exact ⟨newline_notMem_of_mem_lines hmem, h line hmem, hshown⟩

/-! ## Texts that are one block -/

theorem trim_isEmpty {text : List Char} :
    (trim text).isEmpty = true ↔ ∀ ch ∈ text, isWhitespace ch = true := by
  rw [List.isEmpty_iff, trim, List.rdropWhile_eq_nil_iff]
  constructor
  · intro h
    have hnil : text.dropWhile isWhitespace = [] := by
      cases hdrop : text.dropWhile isWhitespace with
      | nil => rfl
      | cons ch rest =>
          have hhead := List.head_dropWhile_not isWhitespace (by rw [hdrop]; exact List.cons_ne_nil _ _)
          have hall := h ch (by rw [hdrop]; exact List.mem_cons_self)
          simp only [hdrop, List.head_cons] at hhead
          rw [hall] at hhead
          cases hhead
    exact List.dropWhile_eq_nil_iff.mp hnil
  · intro h ch hch
    exact h ch ((List.dropWhile_suffix isWhitespace).subset hch)

/-- The lines of a text that ends with a line that is not blank. -/
theorem lines_of_parts (hne : ls ≠ []) (h : ∀ line ∈ ls, '\n' ∉ line)
    (hlast : (ls.getLast hne).isEmpty = false) :
    lines (unlines ls) = ls.dropLast.map stripCr ++ [ls.getLast hne] := by
  simp only [lines, splitOn_unlines hne h, lastLine, List.getLast?_eq_some_getLast hne, hlast,
    Bool.false_eq_true, if_false]

theorem isEmpty_of_shown {line : List Char} (h : (trim line).isEmpty = false) : line.isEmpty = false := by
  cases line with
  | nil => exact h
  | cons ch line => rfl

theorem Block.lines_eq (hne : ls ≠ []) (h : ∀ line ∈ ls, BlockLine line) : lines (unlines ls) = ls := by
  have hlast := (h _ (List.getLast_mem hne)).shown
  rw [lines_of_parts hne (fun line hline => (h line hline).newline) (isEmpty_of_shown hlast),
    map_stripCr (fun line hline => h line (List.dropLast_subset _ hline)),
    List.dropLast_concat_getLast hne]

theorem Block.unlines_lines (h : Block b) : unlines (lines b) = b := by
  obtain ⟨ls, hne, hls, rfl⟩ := h
  rw [Block.lines_eq hne hls]

theorem unlines_cons (line l : List Char) (ls : List (List Char)) :
    unlines (line :: l :: ls) = line ++ '\n' :: unlines (l :: ls) := by
  simp [unlines, List.intercalate]

theorem unlines_getLast : ∀ {ls : List (List Char)} (hne : ls ≠ []), (ls.getLast hne).isEmpty = false →
    (unlines ls).getLast? = (ls.getLast hne).getLast? := by
  intro ls
  induction ls with
  | nil => exact fun hne => absurd rfl hne
  | cons line ls ih =>
      intro hne hlast
      cases ls with
      | nil => simp [unlines, List.intercalate]
      | cons l ls =>
          have hrest := ih (List.cons_ne_nil l ls) hlast
          have hsome : (unlines (l :: ls)).getLast? ≠ none := by
            rw [hrest, ne_eq, List.getLast?_eq_none_iff]
            simpa using hlast
          obtain ⟨ch, hch⟩ := Option.ne_none_iff_exists'.mp hsome
          rw [unlines_cons, List.getLast?_append, List.getLast?_cons, hch]
          rw [List.getLast_cons (List.cons_ne_nil l ls), ← hrest, hch]
          rfl

/-- `trailing_id`. -/
def trailingId (block : List Char) : Option (List Char) :=
  ((lines block).getLast?.bind (fun line => (splitWhitespace line).getLast?)).filter isIdToken

/-- `ParsedMemory`. -/
inductive ParsedMemory where
  | entries (es : List Entry)
  | legacy (blocks : List (List Char))

/-- The loop over the blocks; an id that was seen rejects the file. -/
def collectEntries (seen : List String) : List (List Char) → Except String (List Entry)
  | [] => .ok []
  | block :: rest =>
      let id := String.ofList ((trailingId block).getD [])
      if seen.contains id then
        .error ("MEMORY.md contains duplicate entry id " ++ id ++ " — refusing to parse")
      else (collectEntries (id :: seen) rest).map (fun es => ⟨id, block⟩ :: es)

/-- `parse_memory_md`. -/
def parseMemoryMd (content : List Char) : Except String ParsedMemory :=
  let blocks := splitBlocks content
  let withIds := blocks.countP (fun b => (trailingId b).isSome)
  if blocks.isEmpty then .ok (.entries [])
  else if withIds = 0 then .ok (.legacy blocks)
  else if withIds ≠ blocks.length then
    .error ("MEMORY.md is in a mixed state: " ++ toString withIds ++ " of " ++ toString blocks.length ++
      " blocks carry ^m ids — refusing to guess")
  else (collectEntries [] blocks).map .entries

/-- The entries are those of the file: its blocks, each under the id it ends with, no id
twice. -/
structure EntriesOf (content : List Char) (es : List Entry) : Prop where
  texts : es.map Entry.text = splitBlocks content
  ids : ∀ e ∈ es, trailingId e.text = some e.id.toList
  nodup : (es.map Entry.id).Nodup

theorem collectEntries_ok : ∀ {blocks : List (List Char)} {seen : List String} {es : List Entry},
    (∀ b ∈ blocks, (trailingId b).isSome = true) → collectEntries seen blocks = .ok es →
    es.map Entry.text = blocks ∧ (∀ e ∈ es, trailingId e.text = some e.id.toList ∧ e.id ∉ seen) ∧
      (es.map Entry.id).Nodup := by
  intro blocks
  induction blocks with
  | nil =>
      intro seen es _ h
      obtain rfl := Except.ok.inj h
      refine ⟨rfl, ?_, List.nodup_nil⟩
      intro e he
      cases he
  | cons block rest ih =>
      intro seen es hids h
      simp only [collectEntries] at h
      split at h
      · cases h
      · next hnew =>
          cases hrest : collectEntries (String.ofList ((trailingId block).getD []) :: seen) rest with
          | error m =>
              rw [hrest] at h
              cases h
          | ok more =>
              rw [hrest] at h
              obtain rfl := Except.ok.inj h
              obtain ⟨htexts, hmore, hnodup⟩ :=
                ih (fun b hb => hids b (List.mem_cons_of_mem _ hb)) hrest
              obtain ⟨token, htoken⟩ := Option.isSome_iff_exists.mp (hids block List.mem_cons_self)
              refine ⟨by rw [List.map_cons, htexts], ?_, ?_⟩
              · intro e he
                rcases List.mem_cons.mp he with rfl | he
                · refine ⟨?_, by simpa using hnew⟩
                  show trailingId block = some (String.ofList ((trailingId block).getD [])).toList
                  rw [htoken, Option.getD_some, String.toList_ofList]
                · obtain ⟨hid, hseen⟩ := hmore e he
                  exact ⟨hid, fun hmem => hseen (List.mem_cons_of_mem _ hmem)⟩
              · refine List.nodup_cons.mpr ⟨?_, hnodup⟩
                intro hmem
                obtain ⟨e, he, heq⟩ := List.mem_map.mp hmem
                exact (hmore e he).2 (heq ▸ List.mem_cons_self)

theorem collectEntries_of : ∀ {es : List Entry} {seen : List String},
    (∀ e ∈ es, trailingId e.text = some e.id.toList ∧ e.id ∉ seen) → (es.map Entry.id).Nodup →
    collectEntries seen (es.map Entry.text) = .ok es := by
  intro es
  induction es with
  | nil => exact fun _ _ => rfl
  | cons e es ih =>
      intro seen hids hnodup
      obtain ⟨hid, hseen⟩ := hids e List.mem_cons_self
      obtain ⟨hfirst, hrest⟩ := List.nodup_cons.mp hnodup
      have hself : String.ofList ((trailingId e.text).getD []) = e.id := by
        rw [hid, Option.getD_some, String.ofList_toList]
      have hlater : ∀ x ∈ es, trailingId x.text = some x.id.toList ∧ x.id ∉ e.id :: seen := by
        intro x hx
        obtain ⟨hxid, hxseen⟩ := hids x (List.mem_cons_of_mem _ hx)
        refine ⟨hxid, ?_⟩
        intro hmem
        rcases List.mem_cons.mp hmem with heq | hmem
        · exact hfirst (heq ▸ List.mem_map_of_mem hx)
        · exact hxseen hmem
      simp only [List.map_cons, collectEntries, hself]
      rw [if_neg (by simpa using hseen), ih hlater hrest]
      rfl

/-- **Parsing** gives exactly the entries of the file. -/
theorem parseMemoryMd_entries {es : List Entry} :
    parseMemoryMd content = .ok (.entries es) ↔ EntriesOf content es := by
  have hall : ∀ {blocks : List (List Char)},
      blocks.countP (fun b => (trailingId b).isSome) = blocks.length ↔
        ∀ b ∈ blocks, (trailingId b).isSome = true := List.countP_eq_length
  constructor
  · intro h
    simp only [parseMemoryMd] at h
    split at h
    · next hempty =>
        obtain rfl := ParsedMemory.entries.inj (Except.ok.inj h)
        refine ⟨?_, ?_, List.nodup_nil⟩
        · rw [List.isEmpty_iff.mp hempty, List.map_nil]
        · intro e he
          cases he
    · split at h
      · cases Except.ok.inj h
      · split at h
        · cases h
        · next hfull =>
            cases hcollect : collectEntries [] (splitBlocks content) with
            | error m =>
                rw [hcollect] at h
                cases h
            | ok found =>
                rw [hcollect] at h
                obtain rfl := ParsedMemory.entries.inj (Except.ok.inj h)
                obtain ⟨htexts, hids, hnodup⟩ :=
                  collectEntries_ok (hall.mp (not_not.mp hfull)) hcollect
                exact ⟨htexts, fun e he => (hids e he).1, hnodup⟩
  · rintro ⟨htexts, hids, hnodup⟩
    simp only [parseMemoryMd]
    rw [← htexts]
    cases es with
    | nil => rfl
    | cons e es =>
        have hcount : ((e :: es).map Entry.text).countP (fun b => (trailingId b).isSome) =
            ((e :: es).map Entry.text).length := by
          refine hall.mpr ?_
          intro b hb
          obtain ⟨x, hx, rfl⟩ := List.mem_map.mp hb
          rw [hids x hx]
          rfl
        have hcollect := @collectEntries_of (e :: es) [] (fun x hx => ⟨hids x hx, List.not_mem_nil⟩) hnodup
        rw [hcount, if_neg (by simp), if_neg (by simp), if_neg (by simp), hcollect]
        rfl

/-- Entries that are blocks are read as they were rendered. -/
theorem entriesOf_render {es : List Entry} (hblocks : ∀ e ∈ es, Block e.text)
    (hids : ∀ e ∈ es, trailingId e.text = some e.id.toList) (hnodup : (es.map Entry.id).Nodup) :
    EntriesOf (ApplyPlan.renderMemoryMd es) es := by
  refine ⟨?_, hids, hnodup⟩
  unfold ApplyPlan.renderMemoryMd
  split
  · next hempty =>
      rw [List.isEmpty_iff.mp hempty]
      decide
  · rw [splitBlocks_joinBlocks]
    intro b hb
    obtain ⟨e, he, rfl⟩ := List.mem_map.mp hb
    exact hblocks e he

end Octos.Memory
