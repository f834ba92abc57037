/-
# `Octos.Memory.Apply` — a merge on disk

`apply.rs`: the steps of `apply_plan` on the memory tree.  The tree is a map
from paths to contents; every step reads and writes whole files, and every
reading or writing succeeds.  What a loop over a directory does to a file
depends on that file alone, so the loops are written as maps over the tree.

Files are read by lines and written by joining lines.
-/
import Octos.Memory.Entry
import Octos.Lib.Digits

namespace Octos.Memory

open Text

/-! ## Paths -/

/-- A path below the memory directory. -/
structure MemPath where
  dir : List String
  name : List Char
  deriving DecidableEq

namespace MemPath

/-- `Path::extension`: what is behind the last dot of a name that does not begin
with it. -/
def extension (p : MemPath) : Option (List Char) :=
  match breakOnLast ['.'] p.name with
  | some ([], _) => none
  | some (_, ext) => some ext
  | none => none

/-- `Path::file_stem`. -/
def stem (p : MemPath) : List Char :=
  match breakOnLast ['.'] p.name with
  | some ([], _) => p.name
  | some (stem, _) => stem
  | none => p.name

/-- A file `list_md_files` lists in a directory. -/
def isMdIn (dir : List String) (p : MemPath) : Bool :=
  p.dir == dir && p.extension == some "md".toList

/-- A file `delete_backups` deletes. -/
def isBackup (p : MemPath) : Bool :=
  p.extension == some "bak".toList || p.extension == some "prev".toList

/-- A name of the form `YYYY-MM-DD`. -/
def isDateStem (stem : List Char) : Bool :=
  stem.length == 10 &&
    stem.zipIdx.all (fun c => if c.2 = 4 ∨ c.2 = 7 then c.1 == '-' else c.1.isDigit)

/-- A file `daily_note_files` lists. -/
def isDailyNote (p : MemPath) : Bool :=
  p.dir.isEmpty && isDateStem p.stem && p.extension == some "md".toList

/-- `MEMORY.md` -/
def memoryMd : MemPath where
  dir := []
  name := "MEMORY.md".toList

/-- `MEMORY.md.bak` -/
def memoryBak : MemPath where
  dir := []
  name := "MEMORY.md.bak".toList

end MemPath

theorem isMdIn_dir {dir : List String} {p : MemPath} (h : p.isMdIn dir = true) : p.dir = dir := by
  simp only [MemPath.isMdIn, Bool.and_eq_true, beq_iff_eq] at h
  exact h.1

/-- The files of a profile's memory. -/
abbrev Tree := MemPath → Option (List Char)

/-- One file written. -/
def Tree.write (t : Tree) (p : MemPath) (content : List Char) : Tree :=
  fun q => if q = p then some content else t q

/-- `remove_file_if_exists`. -/
def Tree.remove (t : Tree) (p : MemPath) : Tree :=
  fun q => if q = p then none else t q

/-- A loop over some of the files: each is rewritten or deleted. -/
def Tree.rewrite (t : Tree) (which : MemPath → Bool) (f : List Char → Option (List Char)) : Tree :=
  fun p => if which p then (t p).bind f else t p

/-- A date of the calendar. -/
structure Date where
  year : Nat
  month : Nat
  day : Nat
  deriving DecidableEq

/-- `%Y-%m-%d` -/
def Date.text (d : Date) : List Char :=
  Digits.pad 4 d.year ++ '-' :: (Digits.pad 2 d.month ++ '-' :: Digits.pad 2 d.day)

/-- `archive/%Y-%m.md` -/
def Date.archivePath (d : Date) : MemPath where
  dir := ["archive"]
  name := Digits.pad 4 d.year ++ '-' :: (Digits.pad 2 d.month ++ ".md".toList)

/-! ## Plans -/

/-- `ScrubTarget`. -/
structure ScrubTarget where
  entryId : String
  foldedLines : List (List Char)
  authorizingNote : MemPath
  originatingPending : List MemPath
  deriving DecidableEq

/-- `ApplyPlan`. -/
structure ApplyPlan where
  finalEntries : List Entry
  archiveAppends : List (List Char)
  hardDeletes : List ScrubTarget
  archiveBlockRemovals : List (List Char)
  consumedFiles : List MemPath
  pendingRewrites : List (MemPath × List Char)
  pendingDeletes : List MemPath

/-- `line_matches`. -/
def ScrubTarget.lineMatches (line : List Char) (target : ScrubTarget) : Bool :=
  contains target.entryId.toList line ||
    match (contentFoldedLines line).head? with
    | some folded => target.foldedLines.contains folded
    | none => false

/-- Some target matches the line. -/
def scrubbed (scrubs : List ScrubTarget) (line : List Char) : Bool :=
  scrubs.any (ScrubTarget.lineMatches line)

/-- The lines no target matches. -/
def keptLines (scrubs : List ScrubTarget) (text : List Char) : List (List Char) :=
  (lines text).filter (fun line => !scrubbed scrubs line)

/-! ## Block files -/

/-- The loop of `split_blocks`. -/
def splitBlocksFrom (current : List (List Char)) : List (List Char) → List (List Char)
  | [] => if current.isEmpty then [] else [unlines current]
  | line :: rest =>
      if (trim line).isEmpty then
        if current.isEmpty then splitBlocksFrom [] rest
        else unlines current :: splitBlocksFrom [] rest
      else splitBlocksFrom (current ++ [line]) rest

/-- `split_blocks`. -/
def splitBlocks (content : List Char) : List (List Char) :=
  splitBlocksFrom [] (lines content)

/-- Blocks with a blank line between them and a newline behind them. -/
def joinBlocks (blocks : List (List Char)) : List Char :=
  List.intercalate ['\n', '\n'] blocks ++ ['\n']

/-- What `rewrite_block_file` keeps of a block. -/
def keepBlock (blockRemovals : List (List Char)) (scrubs : List ScrubTarget)
    (dropBlocksNamingId : Bool) (block : List Char) : Option (List Char) :=
  if blockRemovals.contains block then none
  else if dropBlocksNamingId && scrubs.any (fun s => contains s.entryId.toList block) then none
  else
    let kept := keptLines scrubs block
    if kept.isEmpty then none else some (unlines kept)

/-- `rewrite_block_file`: the new content, `none` when the file is deleted. -/
def rewriteBlockFile (blockRemovals : List (List Char)) (scrubs : List ScrubTarget)
    (dropBlocksNamingId : Bool) (content : List Char) : Option (List Char) :=
  let keptBlocks := (splitBlocks content).filterMap (keepBlock blockRemovals scrubs dropBlocksNamingId)
  if keptBlocks.isEmpty then none else some (joinBlocks keptBlocks)

/-! ## Daily notes and staging files -/

/-- `scrub_daily_note`. -/
def scrubDailyNote (scrubs : List ScrubTarget) (content : List Char) : Option (List Char) :=
  let out := unlines (keptLines scrubs content)
  if (trim out).isEmpty then none else some (out ++ ['\n'])

/-- The header lines of `frontmatter_declares_host`. -/
def headerDeclaresHost : List (List Char) → Bool
  | [] => false
  | line :: rest =>
      if trimEnd line = "---".toList then false
      else if trim line = "origin: host".toList then true
      else headerDeclaresHost rest

/-- `frontmatter_declares_host`. -/
def frontmatterDeclaresHost (content : List Char) : Bool :=
  match content with
  | '-' :: '-' :: '-' :: '\r' :: '\n' :: rest => headerDeclaresHost (lines rest)
  | '-' :: '-' :: '-' :: '\n' :: rest => headerDeclaresHost (lines rest)
  | _ => false

/-- `staging_file_matches`. -/
def stagingFileMatches (scrubs : List ScrubTarget) (content : List Char) : Bool :=
  (lines content).any (scrubbed scrubs)

/-- The note that asked for a delete, or a pending note it resolves. -/
def ApplyPlan.isRequestNote (plan : ApplyPlan) (p : MemPath) : Bool :=
  plan.hardDeletes.any (fun t => t.authorizingNote == p || t.originatingPending.contains p)

/-- A staging file the scrub deletes as a whole. -/
def ApplyPlan.scrubsStaging (plan : ApplyPlan) (p : MemPath) (content : List Char) : Bool :=
  if p.isMdIn ["staging", "notes"] then
    !plan.isRequestNote p && !frontmatterDeclaresHost content &&
      stagingFileMatches plan.hardDeletes content
  else if p.isMdIn ["staging", "extract"] then
    !plan.isRequestNote p && stagingFileMatches plan.hardDeletes content
  else false

/-! ## The steps -/

namespace ApplyPlan

variable (plan : ApplyPlan)

/-- Step 1: the content scrub of a merge with hard deletes. -/
def scrubTree (t : Tree) : Tree :=
  let t : Tree := fun p => if p.isBackup then none else t p
  let t := t.rewrite (MemPath.isMdIn ["archive"]) (rewriteBlockFile [] plan.hardDeletes true)
  let t := t.rewrite (MemPath.isMdIn ["bank", "entities"]) (rewriteBlockFile [] plan.hardDeletes false)
  let t := t.rewrite MemPath.isDailyNote (scrubDailyNote plan.hardDeletes)
  fun p => (t p).filter (fun content => !plan.scrubsStaging p content)

/-- The staging files step 1 deleted: those it finds and matches. -/
def scrubDeletedStaging (t : Tree) (p : MemPath) : Bool :=
  (t p).any (fun content => plan.scrubsStaging p content) && !p.isBackup

/-- A block to append: dropped when it names a deleted id or nothing is left. -/
def cleanAppend (block : List Char) : Option (List Char) :=
  if plan.hardDeletes.any (fun t => contains t.entryId.toList block) then none
  else
    let cleaned := keptLines plan.hardDeletes block
    if cleaned.isEmpty then none else some (unlines cleaned)

/-- The loop over the blocks to append; a block that is there is not repeated. -/
def appendBlocks (blocks : List (List Char)) : List (List Char) → List (List Char)
  | [] => blocks
  | block :: rest =>
      match plan.cleanAppend block with
      | none => appendBlocks blocks rest
      | some cleaned =>
          appendBlocks (if blocks.contains cleaned then blocks else blocks ++ [cleaned]) rest

/-- Step 2: the archive of the month. -/
def appendArchive (today : Date) (t : Tree) : Tree :=
  if plan.archiveAppends.isEmpty then t
  else
    let existing := (t today.archivePath).getD []
    t.write today.archivePath
      (joinBlocks (plan.appendBlocks (splitBlocks existing) plan.archiveAppends))

/-- Step 2.5: the pending notes. -/
def rewritePending (deleted : MemPath → Bool) (t : Tree) : Tree :=
  plan.pendingRewrites.foldl (fun t r => if deleted r.1 then t else t.write r.1 r.2) t

/-- What step 3 publishes of an entry on a merge with hard deletes. -/
def publishEntry (today : Date) (entry : Entry) : Option Entry :=
  let kept := keptLines plan.hardDeletes entry.text
  if kept.isEmpty then none
  else
    let text := unlines kept
    if (trim (strippableEntryText ⟨entry.id, text⟩)).isEmpty then none
    else if !contains entry.id.toList text then
      some ⟨entry.id, text ++ '\n' :: ("(updated: ".toList ++ today.text ++ ") ".toList ++ entry.id.toList)⟩
    else some ⟨entry.id, text⟩

/-- `render_memory_md`. -/
def renderMemoryMd (entries : List Entry) : List Char :=
  if entries.isEmpty then [] else joinBlocks (entries.map (·.text))

/-- `write_memory_md`. -/
def writeMemoryMd (entries : List Entry) (backup : Bool) (t : Tree) : Tree :=
  let t := match backup, t MemPath.memoryMd with
    | true, some content => t.write MemPath.memoryBak content
    | _, _ => t
  t.write MemPath.memoryMd (renderMemoryMd entries)

/-- Step 3: `MEMORY.md`. -/
def publish (today : Date) (t : Tree) : Tree :=
  if plan.hardDeletes.isEmpty then writeMemoryMd plan.finalEntries true t
  else writeMemoryMd (plan.finalEntries.filterMap (plan.publishEntry today)) false t

/-- Step 4: the request notes and the restored blocks. -/
def consumeRequests (t : Tree) : Tree :=
  let notes := plan.hardDeletes.flatMap (fun t => t.authorizingNote :: t.originatingPending)
  let t := notes.foldl Tree.remove t
  let t := if plan.archiveBlockRemovals.isEmpty then t
    else t.rewrite (MemPath.isMdIn ["archive"]) (rewriteBlockFile plan.archiveBlockRemovals [] false)
  plan.pendingDeletes.foldl Tree.remove t

/-- Step 5: the consumed staging files. -/
def cleanStaging (deleted : MemPath → Bool) (t : Tree) : Tree :=
  plan.consumedFiles.foldl (fun t p => if deleted p then t else t.remove p) t

/-- `apply_plan`: the tree afterwards and the staging files the scrub deleted. -/
def apply (today : Date) (t : Tree) : Except String (Tree × (MemPath → Bool)) :=
  if plan.hardDeletes.isEmpty && !plan.archiveBlockRemovals.isEmpty then
    .error "archive block removals without hard deletes"
  else
    let deleted : MemPath → Bool :=
      if plan.hardDeletes.isEmpty then fun _ => false else plan.scrubDeletedStaging t
    let t := if plan.hardDeletes.isEmpty then t else plan.scrubTree t
    let t := plan.appendArchive today t
    let t := plan.rewritePending deleted t
    let t := plan.publish today t
    let t := plan.consumeRequests t
    .ok (plan.cleanStaging deleted t, deleted)

end ApplyPlan

end Octos.Memory
