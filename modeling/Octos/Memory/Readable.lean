/-
# `Octos.Memory.Readable` — `MEMORY.md` stays readable

An entry is a block whose last word is its id.  Three functions make entries: the parse
of the file, the migration of a file without ids, and `finalize_entry_text`; what they
make is a block with its id at the end, so it is read back as it was.

The scrub of a hard delete takes lines out of a block, and the last line, with the id,
may be among them.  An entry that lost its id is stamped again, but it is taken to have
it when the id stands anywhere in what is left:

    Renamed from ^mbbbbbb in May.          stays
    Likes tea. ^mbbbbbb                    goes

Such a block has no id in the next parse, which rejects the file.
-/
import Octos.Memory.BlockFile
import Octos.Memory.ApplyScrub
import Octos.Memory.Ops

namespace Octos.Memory

open Text

/-! ## New entries -/

/-- `ID_ALPHABET` -/
def idAlphabet : List Char :=
  "abcdefghijklmnopqrstuvwxyz234567".toList

/-- The bytes of `Uuid::new_v4`. -/
abbrev UuidBytes := Vector UInt8 16

/-- One byte on the alphabet. -/
def idChar (b : UInt8) : Char :=
  idAlphabet.get ⟨b.toNat % idAlphabet.length, Nat.mod_lt _ (by decide)⟩

/-- `id_from_bytes`, of the first six bytes. -/
def idFromBytes (bytes : UuidBytes) : List Char :=
  '^' :: 'm' :: (bytes.toList.take 6).map idChar

/-- `generate_id`: the first id that is not taken; the uuids that are drawn are given. -/
def generateId (taken : List String) : List UuidBytes → Option (String × List UuidBytes)
  | [] => none
  | bytes :: draws =>
      let id := String.ofList (idFromBytes bytes)
      if taken.contains id then generateId taken draws else some (id, draws)

/-- The text of a migrated block. -/
def initText (today : Date) (id : String) (block : List Char) : List Char :=
  block ++ " (updated: unknown, imported: ".toList ++ today.text ++ ") ".toList ++ id.toList

/-- `init_entries` -/
def initEntries (today : Date) : List (List Char) → List String → List UuidBytes →
    Option (List Entry × List String)
  | [], taken, _ => some ([], taken)
  | block :: blocks, taken, draws =>
      match generateId taken draws with
      | none => none
      | some (id, draws) =>
          (initEntries today blocks (taken ++ [id]) draws).map
            (fun out => (⟨id, initText today id block⟩ :: out.1, out.2))

/-- `finalize_entry_text` -/
def finalizeEntryText (text : List Char) (unverified : Bool) (today : Date) (id : String) : List Char :=
  let out := trimEnd text
  let out := if unverified && !contains "(unverified)".toList out then out ++ " (unverified)".toList else out
  let out := if contains "(updated:".toList out then out
    else out ++ (" (updated: ".toList ++ today.text ++ ")".toList)
  out ++ (' ' :: id.toList)

/-! ## Blocks with an id at the end -/

variable {ls : List (List Char)} {b s token content : List Char}

theorem unlines_concat (line s : List Char) : ∀ init : List (List Char),
    unlines (init ++ [line]) ++ s = unlines (init ++ [line ++ s]) := by
  intro init
  induction init with
  | nil => simp [unlines, List.intercalate]
  | cons first init ih =>
      cases init with
      | nil =>
          rw [List.singleton_append, List.singleton_append, unlines_cons, unlines_cons, List.append_assoc,
            List.cons_append, ← List.nil_append [line], ih, List.nil_append]
      | cons second init =>
          rw [List.cons_append, List.cons_append, List.cons_append, List.cons_append, unlines_cons, unlines_cons,
            List.append_assoc, List.cons_append]
          exact congrArg (fun rest => first ++ '\n' :: rest) ih

/-- One line more. -/
theorem unlines_snoc (hne : ls ≠ []) (line : List Char) : unlines ls ++ '\n' :: line = unlines (ls ++ [line]) := by
  induction ls with
  | nil => exact absurd rfl hne
  | cons first rest ih =>
      cases rest with
      | nil => simp [unlines, List.intercalate]
      | cons second rest =>
          rw [List.cons_append, List.cons_append, unlines_cons, unlines_cons, List.append_assoc, List.cons_append,
            ih (List.cons_ne_nil _ _), List.cons_append]

/-- A line of a block goes on. -/
theorem BlockLine.append {line : List Char} (h : BlockLine line) (hnl : '\n' ∉ s) (hcr : s.getLast? ≠ some '\r') :
    BlockLine (line ++ s) := by
  refine ⟨?_, ?_, ?_⟩
  · rw [List.mem_append, not_or]
    exact ⟨h.newline, hnl⟩
  · rw [List.getLast?_append]
    cases hlast : s.getLast? with
    | none => exact h.cr
    | some ch =>
        rw [hlast] at hcr
        exact hcr
  · by_contra hblank
    have hall := trim_isEmpty.mp (Bool.eq_true_of_not_eq_false hblank)
    have hline := trim_isEmpty.mpr (fun ch hch => hall ch (List.mem_append_left s hch))
    rw [h.shown] at hline
    cases hline

/-- The last line of a block goes on. -/
theorem Block.append (h : Block b) (hnl : '\n' ∉ s) (hcr : s.getLast? ≠ some '\r') : Block (b ++ s) := by
  obtain ⟨ls, hne, hls, rfl⟩ := h
  rcases List.eq_nil_or_concat ls with rfl | ⟨init, line, rfl⟩
  · exact absurd rfl hne
  · rw [List.concat_eq_append] at hls ⊢
    rw [unlines_concat]
    refine ⟨init ++ [line ++ s], by simp, ?_, rfl⟩
    intro l hl
    rcases List.mem_append.mp hl with hl | hl
    · exact hls l (List.mem_append_left _ hl)
    · obtain rfl := List.mem_singleton.mp hl
      exact (hls line (List.mem_append_right _ List.mem_cons_self)).append hnl hcr

theorem isIdChar_shown {ch : Char} (h : isIdChar ch = true) : isWhitespace ch = false := by
  have hbounds : 50 ≤ ch.toNat ∧ ch.toNat ≤ 122 := by
    simp only [isIdChar, Char.isLower, Bool.or_eq_true, Bool.and_eq_true, decide_eq_true_eq] at h
    rcases h with ⟨hlow, hhigh⟩ | ⟨hlow, hhigh⟩
    · have hlow := UInt32.le_iff_toNat_le.mp hlow
      exact ⟨Nat.le_trans (by decide) hlow, UInt32.le_iff_toNat_le.mp hhigh⟩
    · have hhigh := UInt32.le_iff_toNat_le.mp hhigh
      exact ⟨UInt32.le_iff_toNat_le.mp hlow, Nat.le_trans hhigh (by decide)⟩
  simp only [isWhitespace, Bool.or_eq_false_iff, Bool.and_eq_false_iff, decide_eq_false_iff_not,
    beq_eq_false_iff_ne]
  omega

theorem isIdToken_shown (h : isIdToken token = true) : ∀ ch ∈ token, isWhitespace ch = false := by
  unfold isIdToken at h
  split at h
  · simp only [Bool.and_eq_true, List.all_eq_true] at h
    intro ch hmem
    rcases List.mem_cons.mp hmem with rfl | hmem
    · decide
    · rcases List.mem_cons.mp hmem with rfl | hmem
      · decide
      · exact isIdChar_shown (h.2 ch hmem)
  · cases h

/-- An id behind a text is no line break. -/
theorem isIdToken_ends (h : isIdToken token = true) : '\n' ∉ ' ' :: token ∧ (' ' :: token).getLast? ≠ some '\r' := by
  have hshown := isIdToken_shown h
  have hnone : ∀ ch, isWhitespace ch = true → ch ≠ ' ' → ch ∉ ' ' :: token := by
    intro ch hspace hother hmem
    rcases List.mem_cons.mp hmem with rfl | hmem
    · exact hother rfl
    · rw [hshown ch hmem] at hspace
      cases hspace
  refine ⟨hnone '\n' (by decide) (by decide), ?_⟩
  intro hlast
  exact hnone '\r' (by decide) (by decide) (List.mem_of_getLast? hlast)

/-- The last word of a line. -/
theorem splitWhitespace_getLast (front : List Char) (hne : token ≠ []) (h : ∀ ch ∈ token, isWhitespace ch = false) :
    (splitWhitespace (front ++ ' ' :: token)).getLast? = some token := by
  have hlast : [token].filter (fun word => !word.isEmpty) = [token] :=
    List.filter_cons_of_pos (by simpa using hne)
  rw [splitWhitespace, List.splitOnP_append_cons front token (by decide), List.splitOnP_eq_singleton h,
    List.filter_append, hlast, List.getLast?_concat]

/-- **A block with an id behind it** has that id. -/
theorem trailingId_append (hb : Block b) (htoken : isIdToken token = true) :
    trailingId (b ++ ' ' :: token) = some token := by
  obtain ⟨hnl, hcr⟩ := isIdToken_ends htoken
  obtain ⟨ls, hne, hls, rfl⟩ := hb
  rcases List.eq_nil_or_concat ls with rfl | ⟨init, line, rfl⟩
  · exact absurd rfl hne
  · rw [List.concat_eq_append] at hls ⊢
    have hlines : lines (unlines (init ++ [line ++ ' ' :: token])) = init ++ [line ++ ' ' :: token] := by
      refine Block.lines_eq (by simp) ?_
      intro l hl
      rcases List.mem_append.mp hl with hl | hl
      · exact hls l (List.mem_append_left _ hl)
      · obtain rfl := List.mem_singleton.mp hl
        exact (hls line (List.mem_append_right _ List.mem_cons_self)).append hnl hcr
    rw [unlines_concat, trailingId, hlines, List.getLast?_concat, Option.bind_some,
      splitWhitespace_getLast line (isIdToken_ne_nil htoken) (isIdToken_shown htoken), Option.filter_some, if_pos htoken]

/-- A block that is read back as an entry. -/
structure Entry.Readable (e : Entry) : Prop where
  block : Block e.text
  id : trailingId e.text = some e.id.toList

/-- **Readable entries** are read back as they were. -/
theorem parse_render {es : List Entry} (h : ∀ e ∈ es, e.Readable) (hids : (es.map Entry.id).Nodup) :
    parseMemoryMd (ApplyPlan.renderMemoryMd es) = .ok (.entries es) :=
  parseMemoryMd_entries.mpr (entriesOf_render (fun e he => (h e he).block) (fun e he => (h e he).id) hids)

/-! ## Where entries come from -/

theorem isIdToken_idFromBytes (bytes : UuidBytes) : isIdToken (idFromBytes bytes) = true := by
  have hall : ∀ ch ∈ idAlphabet, isIdChar ch = true := List.all_eq_true.mp rfl
  rw [idFromBytes, isIdToken, Bool.and_eq_true, beq_iff_eq, List.all_eq_true]
  refine ⟨by simp, ?_⟩
  intro ch hmem
  obtain ⟨b, -, rfl⟩ := List.mem_map.mp hmem
  exact hall _ (List.get_mem _ _)

theorem isIdToken_generateId {taken : List String} {id : String} {draws rest : List UuidBytes}
    (h : generateId taken draws = some (id, rest)) : isIdToken id.toList = true := by
  induction draws with
  | nil => cases h
  | cons bytes draws ih =>
      rw [generateId] at h
      split at h
      · exact ih h
      · obtain ⟨rfl, -⟩ := Prod.mk.inj (Option.some.inj h)
        rw [String.toList_ofList]
        exact isIdToken_idFromBytes bytes

/-- Where an entry comes from. -/
inductive Produced : Entry → Prop where
  | parsed {content : List Char} {es : List Entry} {e : Entry} (hparse : parseMemoryMd content = .ok (.entries es))
      (he : e ∈ es) : Produced e
  | migrated {content : List Char} {blocks : List (List Char)} {today : Date} {taken taken' : List String}
      {draws : List UuidBytes} {es : List Entry} {e : Entry} (hparse : parseMemoryMd content = .ok (.legacy blocks))
      (hinit : initEntries today blocks taken draws = some (es, taken')) (he : e ∈ es) : Produced e
  | finalized {ctx : ValidationCtx} {kind : String} {raw text : List Char} {id : String} (unverified : Bool)
      (today : Date) (hsanitize : sanitizeText ctx kind raw = .ok text) (hid : isIdToken id.toList = true) :
      Produced ⟨id, finalizeEntryText text unverified today id⟩

theorem block_of_mem_splitBlocks (hb : b ∈ splitBlocks content) (hcr : '\r' ∉ b) : Block b := by
  obtain ⟨ls, hne, rfl, hls⟩ := mem_splitBlocks hb
  refine ⟨ls, hne, ?_, rfl⟩
  intro line hline
  obtain ⟨hmem, hshown⟩ := hls line hline
  refine ⟨newline_notMem_of_mem_lines hmem, ?_, hshown⟩
  intro hlast
  exact hcr ((infix_intercalate hline).subset (List.mem_of_getLast? hlast))

theorem mem_initEntries {today : Date} {e : Entry} : ∀ {blocks : List (List Char)} {taken taken' : List String}
    {draws : List UuidBytes} {es : List Entry}, initEntries today blocks taken draws = some (es, taken') → e ∈ es →
    ∃ block ∈ blocks, isIdToken e.id.toList = true ∧ e.text = initText today e.id block := by
  intro blocks
  induction blocks with
  | nil =>
      intro taken taken' draws es h he
      obtain ⟨rfl, -⟩ := Prod.mk.inj (Option.some.inj h)
      cases he
  | cons block blocks ih =>
      intro taken taken' draws es h he
      rw [initEntries] at h
      split at h
      · cases h
      · next id rest hid =>
          obtain ⟨⟨more, last⟩, hmore, hout⟩ := Option.map_eq_some_iff.mp h
          obtain ⟨rfl, -⟩ := Prod.mk.inj hout
          rcases List.mem_cons.mp he with rfl | he
          · exact ⟨block, List.mem_cons_self, isIdToken_generateId hid, rfl⟩
          · obtain ⟨other, hother, hrest⟩ := ih hmore he
            exact ⟨other, List.mem_cons_of_mem _ hother, hrest⟩

/-- A text without line breaks. -/
theorem date_ends (today : Date) : '\n' ∉ today.text ∧ '\r' ∉ today.text :=
  ⟨notMem_dateText today (by decide) (by decide), notMem_dateText today (by decide) (by decide)⟩

/-- A block goes on with a text that has no line break in it. -/
theorem Block.append_plain (h : Block b) (hnl : '\n' ∉ s) (hcr : '\r' ∉ s) : Block (b ++ s) :=
  h.append hnl (fun hlast => hcr (List.mem_of_getLast? hlast))

/-- What is behind a block is read as its id. -/
theorem readable_of {id : String} (h : Block b) (hid : isIdToken id.toList = true) :
    (⟨id, b ++ ' ' :: id.toList⟩ : Entry).Readable :=
  ⟨h.append (isIdToken_ends hid).1 (isIdToken_ends hid).2, trailingId_append h hid⟩

theorem readable_init {today : Date} {id : String} (h : Block b) (hid : isIdToken id.toList = true) :
    (⟨id, initText today id b⟩ : Entry).Readable := by
  obtain ⟨hnl, hcr⟩ := date_ends today
  have hstamp : ∀ ch, ch ∉ today.text → ch ∉ " (updated: unknown, imported: ".toList → ch ≠ ')' →
      ch ∉ " (updated: unknown, imported: ".toList ++ today.text ++ [')'] := by
    intro ch hdate hfront hclose hmem
    rcases List.mem_append.mp hmem with hmem | hmem
    · rcases List.mem_append.mp hmem with hmem | hmem
      · exact hfront hmem
      · exact hdate hmem
    · exact hclose (List.mem_singleton.mp hmem)
  have hblock := h.append_plain (hstamp '\n' hnl (by decide) (by decide)) (hstamp '\r' hcr (by decide) (by decide))
  have htext : initText today id b =
      (b ++ (" (updated: unknown, imported: ".toList ++ today.text ++ [')'])) ++ ' ' :: id.toList := by
    rw [initText]
    generalize " (updated: unknown, imported: ".toList = front
    simp
  rw [htext]
  exact readable_of hblock hid

theorem trimEnd_getLast {text : List Char} {ch : Char} (h : (trimEnd text).getLast? = some ch) :
    isWhitespace ch = false := by
  have hne : trimEnd text ≠ [] := by
    intro hnil
    rw [hnil] at h
    cases h
  rw [List.getLast?_eq_some_getLast hne] at h
  rw [← Option.some.inj h]
  exact Bool.eq_false_iff.mpr (List.rdropWhile_last_not isWhitespace text hne)

/-- What `sanitize_text` gives is a block without white space at its end. -/
theorem sanitizeText_block {ctx : ValidationCtx} {kind : String} {raw text : List Char}
    (h : sanitizeText ctx kind raw = .ok text) : Block text ∧ trimEnd text = text := by
  simp only [sanitizeText] at h
  split at h
  · cases h
  · next hkept =>
      split at h
      · cases h
      · obtain rfl := Except.ok.inj h
        have hne : ((lines raw).map trimEnd).filter (fun line => !(trim line).isEmpty) ≠ [] := by simpa using hkept
        have hlines : ∀ line ∈ ((lines raw).map trimEnd).filter (fun line => !(trim line).isEmpty),
            BlockLine line ∧ ∀ ch, line.getLast? = some ch → isWhitespace ch = false := by
          intro line hline
          obtain ⟨hmem, hshown⟩ := List.mem_filter.mp hline
          obtain ⟨rawLine, hraw, rfl⟩ := List.mem_map.mp hmem
          have hlast : ∀ ch, (trimEnd rawLine).getLast? = some ch → isWhitespace ch = false :=
            fun ch => trimEnd_getLast
          refine ⟨⟨?_, ?_, by simpa using hshown⟩, hlast⟩
          · intro hnl
            exact newline_notMem_of_mem_lines hraw ((List.rdropWhile_prefix isWhitespace rawLine).subset hnl)
          · intro hcr
            exact absurd (hlast '\r' hcr) (by decide)
        refine ⟨⟨_, hne, fun line hline => (hlines line hline).1, rfl⟩, ?_⟩
        rw [trimEnd, List.rdropWhile_eq_self_iff]
        intro hfull
        obtain ⟨hblock, hends⟩ := hlines _ (List.getLast_mem hne)
        rw [Bool.not_eq_true]
        refine hends _ ?_
        rw [← unlines_getLast hne (isEmpty_of_shown hblock.shown)]
        exact List.getLast?_eq_some_getLast hfull

theorem readable_finalize {ctx : ValidationCtx} {kind : String} {raw text : List Char} {id : String}
    (unverified : Bool) (today : Date) (h : sanitizeText ctx kind raw = .ok text)
    (hid : isIdToken id.toList = true) :
    (⟨id, finalizeEntryText text unverified today id⟩ : Entry).Readable := by
  obtain ⟨hblock, htrim⟩ := sanitizeText_block h
  obtain ⟨hnl, hcr⟩ := date_ends today
  have hmark : ∀ out, Block out →
      Block (if unverified && !contains "(unverified)".toList out then out ++ " (unverified)".toList else out) := by
    intro out hout
    split
    · exact hout.append_plain (by decide) (by decide)
    · exact hout
  have hstamp : ∀ ch, ch ∉ today.text → ch ∉ " (updated: ".toList → ch ∉ ")".toList →
      ch ∉ " (updated: ".toList ++ today.text ++ ")".toList := by
    intro ch hdate hfront hclose hmem
    rcases List.mem_append.mp hmem with hmem | hmem
    · rcases List.mem_append.mp hmem with hmem | hmem
      · exact hfront hmem
      · exact hdate hmem
    · exact hclose hmem
  have hupdated : ∀ out, Block out → Block (if contains "(updated:".toList out then out
      else out ++ (" (updated: ".toList ++ today.text ++ ")".toList)) := by
    intro out hout
    split
    · exact hout
    · exact hout.append_plain (hstamp '\n' hnl (by decide) (by decide)) (hstamp '\r' hcr (by decide) (by decide))
  rw [finalizeEntryText, htrim]
  exact readable_of (hupdated _ (hmark _ hblock)) hid

/-- **Every entry that is produced** is readable, if there is no carriage return in it. -/
theorem Produced.readable {e : Entry} (h : Produced e) (hcr : '\r' ∉ e.text) : e.Readable := by
  cases h with
  | @parsed content es _ hparse he =>
      have hentries := parseMemoryMd_entries.mp hparse
      have hmem : e.text ∈ splitBlocks content := by
        rw [← hentries.texts]
        exact List.mem_map_of_mem he
      exact ⟨block_of_mem_splitBlocks hmem hcr, hentries.ids e he⟩
  | @migrated content blocks today taken taken' draws es _ hparse hinit he =>
      obtain ⟨block, hmem, hid, htext⟩ := mem_initEntries hinit he
      have hblocks : blocks = splitBlocks content := by
        simp only [parseMemoryMd] at hparse
        split at hparse
        · cases Except.ok.inj hparse
        · split at hparse
          · exact (ParsedMemory.legacy.inj (Except.ok.inj hparse)).symm
          · split at hparse
            · cases hparse
            · cases hcollect : collectEntries [] (splitBlocks content) with
              | error m =>
                  rw [hcollect] at hparse
                  cases hparse
              | ok found =>
                  rw [hcollect] at hparse
                  cases Except.ok.inj hparse
      rw [hblocks] at hmem
      have hplain : '\r' ∉ block := by
        intro hin
        refine hcr ?_
        rw [htext, initText]
        simp only [List.mem_append, hin, true_or]
      have hread := @readable_init block today e.id (block_of_mem_splitBlocks hmem hplain) hid
      rw [← htext] at hread
      exact hread
  | finalized unverified today hsanitize hid => exact readable_finalize unverified today hsanitize hid

/-! ## The scrub of the file -/

/-- The entries that step 3 writes. -/
def ApplyPlan.survivors (plan : ApplyPlan) (today : Date) : List Entry :=
  if plan.hardDeletes.isEmpty then plan.finalEntries else plan.finalEntries.filterMap (plan.publishEntry today)

theorem publish_memoryMd (plan : ApplyPlan) (today : Date) (t : Tree) :
    plan.publish today t MemPath.memoryMd = some (ApplyPlan.renderMemoryMd (plan.survivors today)) := by
  have hwrite : ∀ es backup, ApplyPlan.writeMemoryMd es backup t MemPath.memoryMd =
      some (ApplyPlan.renderMemoryMd es) := by
    intro es backup
    unfold ApplyPlan.writeMemoryMd
    exact if_pos rfl
  rw [ApplyPlan.publish, ApplyPlan.survivors]
  split <;> exact hwrite _ _

/-- The line that a survivor is stamped with, in front of its id. -/
theorem blockLine_stamp (today : Date) : BlockLine ("(updated: ".toList ++ today.text ++ ")".toList) := by
  obtain ⟨hnl, hcr⟩ := date_ends today
  have hfront : BlockLine "(updated: ".toList := ⟨by decide, by decide, by decide⟩
  have hdate := hfront.append hnl (fun hlast => hcr (List.mem_of_getLast? hlast))
  exact hdate.append (by decide) (by decide)

/-- What is left of an entry ends with its id, if it has its id in it at all. -/
def KeepsId (scrubs : List ScrubTarget) (e : Entry) : Prop :=
  let kept := keptLines scrubs e.text
  kept ≠ [] → (trim (strippableEntryText ⟨e.id, unlines kept⟩)).isEmpty = false →
    contains e.id.toList (unlines kept) = true → trailingId (unlines kept) = some e.id.toList

variable {plan : ApplyPlan} {today : Date} {e out : Entry} {scrubs : List ScrubTarget}

/-- The lines that are kept of a block. -/
theorem keptLines_block (h : Block b) : ∀ line ∈ keptLines scrubs b, BlockLine line := by
  obtain ⟨ls, hne, hls, rfl⟩ := h
  rw [keptLines, Block.lines_eq hne hls]
  exact fun line hline => hls line (List.mem_filter.mp hline).1

/-- A survivor is a block under its id; it ends with the id if what was kept does. -/
theorem publishEntry_some (hb : Block e.text) (hid : isIdToken e.id.toList = true)
    (h : plan.publishEntry today e = some out) :
    out.id = e.id ∧ Block out.text ∧
      (trailingId out.text = some out.id.toList ↔ KeepsId plan.hardDeletes e) := by
  have hkeptBlock : keptLines plan.hardDeletes e.text ≠ [] → Block (unlines (keptLines plan.hardDeletes e.text)) :=
    fun hne => ⟨_, hne, keptLines_block hb, rfl⟩
  simp only [ApplyPlan.publishEntry] at h
  split at h
  · cases h
  · next hkept =>
      have hne : keptLines plan.hardDeletes e.text ≠ [] := by simpa using hkept
      split at h
      · cases h
      · next hshown =>
          split at h
          · next hlost =>
              obtain rfl := Option.some.inj h
              -- the stamp is one line more
              have htext : unlines (keptLines plan.hardDeletes e.text) ++
                  '\n' :: ("(updated: ".toList ++ today.text ++ ") ".toList ++ e.id.toList) =
                    unlines (keptLines plan.hardDeletes e.text ++ ["(updated: ".toList ++ today.text ++ ")".toList]) ++
                      ' ' :: e.id.toList := by
                have hclose : ") ".toList = ")".toList ++ [' '] := by rfl
                rw [unlines_snoc hne, unlines_concat, hclose]
                simp only [List.append_assoc, List.singleton_append]
              have hblock : Block (unlines (keptLines plan.hardDeletes e.text ++
                  ["(updated: ".toList ++ today.text ++ ")".toList])) := by
                refine ⟨_, by simp, ?_, rfl⟩
                intro line hline
                rcases List.mem_append.mp hline with hline | hline
                · exact keptLines_block hb line hline
                · rw [List.mem_singleton.mp hline]
                  exact blockLine_stamp today
              obtain ⟨hreadBlock, hreadId⟩ := readable_of hblock hid
              rw [htext]
              refine ⟨rfl, hreadBlock, iff_of_true hreadId ?_⟩
              intro _ _ hin
              rw [hin] at hlost
              cases hlost
          · next hfound =>
              obtain rfl := Option.some.inj h
              have hin : contains e.id.toList (unlines (keptLines plan.hardDeletes e.text)) = true := by
                simpa using hfound
              refine ⟨rfl, hkeptBlock hne, ?_⟩
              constructor
              · exact fun hid _ _ _ => hid
              · exact fun hkeeps => hkeeps hne (by simpa using hshown) hin

/-- An entry that does not survive loses nothing by its id. -/
theorem publishEntry_none (h : plan.publishEntry today e = none) : KeepsId plan.hardDeletes e := by
  intro hne hshown _
  simp only [ApplyPlan.publishEntry] at h
  rw [if_neg (by simpa using hne), if_neg (by rw [hshown]; exact Bool.false_ne_true)] at h
  split at h <;> cases h

/-- Without hard deletes the file is what it was. -/
theorem keepsId_nil (h : e.Readable) : KeepsId [] e := by
  have hall : keptLines [] e.text = lines e.text := List.filter_eq_self.mpr (fun _ _ => rfl)
  intro _ _ _
  rw [hall, h.block.unlines_lines]
  exact h.id

theorem publishEntry_id (h : plan.publishEntry today e = some out) : out.id = e.id := by
  simp only [ApplyPlan.publishEntry] at h
  split at h
  · cases h
  · split at h
    · cases h
    · split at h <;> exact (congrArg Entry.id (Option.some.inj h)).symm

theorem survivors_sublist (plan : ApplyPlan) (today : Date) : ∀ es : List Entry,
    ((es.filterMap (plan.publishEntry today)).map Entry.id).Sublist (es.map Entry.id) := by
  intro es
  induction es with
  | nil => exact List.Sublist.slnil
  | cons e es ih =>
      cases hsome : plan.publishEntry today e with
      | none =>
          rw [List.filterMap_cons_none hsome]
          exact ih.cons e.id
      | some out =>
          rw [List.filterMap_cons_some hsome, List.map_cons, publishEntry_id hsome]
          exact ih.cons_cons e.id

theorem survivors_ids (hids : (plan.finalEntries.map Entry.id).Nodup) :
    ((plan.survivors today).map Entry.id).Nodup := by
  rw [ApplyPlan.survivors]
  split
  · exact hids
  · exact hids.sublist (survivors_sublist plan today _)

/-- The survivors are blocks, each under its id if it kept it. -/
theorem survivors_readable (hread : ∀ e ∈ plan.finalEntries, e.Readable) :
    (∀ out ∈ plan.survivors today, Block out.text) ∧
      ((∀ out ∈ plan.survivors today, trailingId out.text = some out.id.toList) ↔
        ∀ e ∈ plan.finalEntries, KeepsId plan.hardDeletes e) := by
  have hid : ∀ e ∈ plan.finalEntries, isIdToken e.id.toList = true := by
    intro e he
    have hsome := (hread e he).id
    rw [trailingId, Option.filter_eq_some_iff] at hsome
    exact hsome.2
  rw [ApplyPlan.survivors]
  split
  · next hnone =>
      rw [List.isEmpty_iff.mp hnone]
      exact ⟨fun e he => (hread e he).block,
        iff_of_true (fun e he => (hread e he).id) (fun e he => keepsId_nil (hread e he))⟩
  · refine ⟨?_, ?_, ?_⟩
    · intro out hout
      obtain ⟨e, he, hsome⟩ := List.mem_filterMap.mp hout
      exact (publishEntry_some (hread e he).block (hid e he) hsome).2.1
    · intro hall e he
      cases hsome : plan.publishEntry today e with
      | none => exact publishEntry_none hsome
      | some out =>
          exact (publishEntry_some (hread e he).block (hid e he) hsome).2.2.mp
            (hall out (List.mem_filterMap.mpr ⟨e, he, hsome⟩))
    · intro hall out hout
      obtain ⟨e, he, hsome⟩ := List.mem_filterMap.mp hout
      exact (publishEntry_some (hread e he).block (hid e he) hsome).2.2.mpr (hall e he)

/-- Entries with the ids and the texts of others. -/
theorem entries_ext : ∀ {es fs : List Entry}, es.map Entry.id = fs.map Entry.id → es.map Entry.text = fs.map Entry.text →
    es = fs := by
  intro es
  induction es with
  | nil =>
      intro fs hids _
      exact (List.map_eq_nil_iff.mp hids.symm).symm
  | cons e es ih =>
      intro fs hids htexts
      cases fs with
      | nil => cases hids
      | cons f fs =>
          obtain ⟨hid, hids⟩ := List.cons.inj hids
          obtain ⟨htext, htexts⟩ := List.cons.inj htexts
          have hfirst : e = f := by
            cases e
            cases f
            cases hid
            cases htext
            rfl
          rw [hfirst, ih hids htexts]

theorem splitBlocks_render {es : List Entry} (h : ∀ e ∈ es, Block e.text) :
    splitBlocks (ApplyPlan.renderMemoryMd es) = es.map Entry.text := by
  rw [ApplyPlan.renderMemoryMd]
  split
  · next hempty =>
      rw [List.isEmpty_iff.mp hempty]
      decide
  · refine splitBlocks_joinBlocks ?_
    intro b hb
    obtain ⟨e, he, rfl⟩ := List.mem_map.mp hb
    exact h e he

/-- **`MEMORY.md` stays readable.**  What is produced is read back as it was rendered.
The file that a merge with hard deletes writes has the ids of the survivors exactly if
each of them that has its id in what was kept still ends with it. -/
theorem memoryMd_readable (plan : ApplyPlan) (today : Date) (t : Tree)
    (hproduced : ∀ e ∈ plan.finalEntries, Produced e) (hids : (plan.finalEntries.map Entry.id).Nodup)
    (hcr : ∀ e ∈ plan.finalEntries, '\r' ∉ e.text) :
    parseMemoryMd (ApplyPlan.renderMemoryMd plan.finalEntries) = .ok (.entries plan.finalEntries) ∧
      ((∃ content es, plan.publish today t MemPath.memoryMd = some content ∧
          parseMemoryMd content = .ok (.entries es) ∧
          es.map Entry.id = (plan.survivors today).map Entry.id) ↔
        ∀ e ∈ plan.finalEntries, KeepsId plan.hardDeletes e) := by
  have hread : ∀ e ∈ plan.finalEntries, e.Readable := fun e he => (hproduced e he).readable (hcr e he)
  obtain ⟨hblocks, hkeeps⟩ := @survivors_readable plan today hread
  refine ⟨parse_render hread hids, ?_⟩
  rw [← hkeeps, publish_memoryMd]
  constructor
  · rintro ⟨content, es, hcontent, hparse, hsame⟩
    obtain rfl := Option.some.inj hcontent
    have hentries := parseMemoryMd_entries.mp hparse
    have htexts := hentries.texts
    rw [splitBlocks_render hblocks] at htexts
    have hes := entries_ext hsame htexts
    rw [← hes]
    exact hentries.ids
  · intro hall
    exact ⟨_, _, rfl, parse_render (fun out hout => ⟨hblocks out hout, hall out hout⟩) (survivors_ids hids), rfl⟩

/-! ### Two entries, and tea in a deleted one -/

/-- The second entry loses its last line. -/
def teaPlan (first : String) : ApplyPlan where
  finalEntries := [⟨"^maaaaaa", "Works from home. ^maaaaaa".toList⟩,
    ⟨"^mbbbbbb", first.toList ++ "\nLikes tea. ^mbbbbbb".toList⟩]
  archiveAppends := []
  hardDeletes := [⟨"^mcccccc", ["Likes tea.".toList], ⟨["staging", "notes"], "forget.md".toList⟩, []⟩]
  archiveBlockRemovals := []
  consumedFiles := []
  pendingRewrites := []
  pendingDeletes := []

/-- It is stamped again. -/
theorem memoryMd_readable_tea :
    ∃ content es, (teaPlan "Lives in Oslo.").publish ⟨2026, 7, 8⟩ (fun _ => none) MemPath.memoryMd = some content ∧
      parseMemoryMd content = .ok (.entries es) ∧ es.map Entry.id = ["^maaaaaa", "^mbbbbbb"] := by
  have hparse : parseMemoryMd (ApplyPlan.renderMemoryMd (teaPlan "Lives in Oslo.").finalEntries) =
      .ok (.entries (teaPlan "Lives in Oslo.").finalEntries) := by rfl
  have hread := memoryMd_readable (teaPlan "Lives in Oslo.") ⟨2026, 7, 8⟩ (fun _ => none)
    (fun e he => .parsed hparse he) (by decide) (by decide)
  have hkeeps : ∀ e ∈ (teaPlan "Lives in Oslo.").finalEntries, KeepsId (teaPlan "Lives in Oslo.").hardDeletes e := by
    intro e he
    rcases List.mem_cons.mp he with rfl | he
    · exact fun _ _ _ => rfl
    · rcases List.mem_cons.mp he with rfl | he
      · intro _ _ hin
        exact absurd hin (by decide)
      · cases he
  exact hread.2.mpr hkeeps

/-- Its id stands in the line that stays, so it is not: the file is rejected. -/
theorem scrub_leaves_mixed :
    (parseMemoryMd (ApplyPlan.renderMemoryMd (teaPlan "Renamed from ^mbbbbbb in May.").finalEntries) =
      .ok (.entries (teaPlan "Renamed from ^mbbbbbb in May.").finalEntries)) ∧
    ((teaPlan "Renamed from ^mbbbbbb in May.").publish ⟨2026, 7, 8⟩ (fun _ => none) MemPath.memoryMd).map
        parseMemoryMd =
      some (.error "MEMORY.md is in a mixed state: 1 of 2 blocks carry ^m ids — refusing to guess") ∧
    ¬∃ content es,
      (teaPlan "Renamed from ^mbbbbbb in May.").publish ⟨2026, 7, 8⟩ (fun _ => none) MemPath.memoryMd = some content ∧
        parseMemoryMd content = .ok (.entries es) ∧
        es.map Entry.id = ((teaPlan "Renamed from ^mbbbbbb in May.").survivors ⟨2026, 7, 8⟩).map Entry.id := by
  have hmixed : ((teaPlan "Renamed from ^mbbbbbb in May.").publish ⟨2026, 7, 8⟩ (fun _ => none)
      MemPath.memoryMd).map parseMemoryMd =
        some (.error "MEMORY.md is in a mixed state: 1 of 2 blocks carry ^m ids — refusing to guess") := by rfl
  refine ⟨by rfl, hmixed, ?_⟩
  rintro ⟨content, es, hcontent, hparse, -⟩
  rw [hcontent, Option.map_some, hparse] at hmixed
  cases Option.some.inj hmixed

end Octos.Memory
