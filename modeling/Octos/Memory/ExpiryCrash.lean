/-
# `Octos.Memory.ExpiryCrash` — an expiry, cut short

`apply_expiry` puts the archived candidates of a pending note back.  It resolves every
candidate first, and then `MEMORY.md` gains the restored entries, the archive loses them,
and the note goes.

After a crash the effects that the next run resolves are those that the first had left,
because a block that is gone is not found again.  This is not so when the archive holds
the block twice: the run that is cut short has removed the copy it found first, and the
next one finds the other.
-/
import Octos.Memory.CrashSafe

namespace Octos.Memory

open Text

/-! ## The expiry -/

/-- `PendingCandidate`. -/
structure PendingCandidate where
  entryId : String
  contentHash : String
  interimArchived : Bool

/-- What an expiry reads of the note. -/
structure PendingNote where
  id : String
  path : MemPath
  candidates : Option (List PendingCandidate)

/-- The candidates an expiry restores. -/
def PendingNote.interim (note : PendingNote) : List PendingCandidate :=
  (note.candidates.getD []).filter (·.interimArchived)

/-- What is resolved before anything is written. -/
structure ExpiryPlan where
  toRestore : List Entry
  archiveRemovals : List (MemPath × List Char)
  errors : List String

section Expiry

variable (sha256Hex : List Char → String) (archive : List MemPath)

/-- `find_archive_block_by_hash`; the files of the archive in their order. -/
def findArchiveBlockByHash (t : Tree) (contentHash : String) : Option (MemPath × List Char) :=
  archive.findSome? (fun path => (t path).bind (fun content =>
    ((splitBlocks content).find? (fun block => sha256Hex block == contentHash)).map (fun block => (path, block))))

/-- The loop over the candidates. -/
def resolveCandidate (note : PendingNote) (t : Tree) (entries : List Entry) (plan : ExpiryPlan)
    (cand : PendingCandidate) : ExpiryPlan :=
  match entries.find? (fun e => e.id == cand.entryId) with
  | some existing =>
      if sha256Hex existing.text == cand.contentHash then
        match findArchiveBlockByHash sha256Hex archive t cand.contentHash with
        | some found => { plan with archiveRemovals := plan.archiveRemovals ++ [found] }
        | none => plan
      else
        { plan with errors := plan.errors ++ ["pending note " ++ note.id ++ ": candidate " ++ cand.entryId ++
            " exists with a different hash — not touching it"] }
  | none =>
      match findArchiveBlockByHash sha256Hex archive t cand.contentHash with
      | some (path, block) =>
          { plan with
            toRestore := plan.toRestore ++ [⟨cand.entryId, block⟩]
            archiveRemovals := plan.archiveRemovals ++ [(path, block)] }
      | none =>
          { plan with errors := plan.errors ++ ["pending note " ++ note.id ++
              ": no archive block matches candidate " ++ cand.entryId ++ " hash — cannot restore"] }

def resolveExpiry (note : PendingNote) (t : Tree) (entries : List Entry) : ExpiryPlan :=
  note.interim.foldl (resolveCandidate sha256Hex archive note t entries) ⟨[], [], []⟩

/-- `MEMORY.md` with the restored entries. -/
def ExpiryPlan.publish (plan : ExpiryPlan) (entries : List Entry) : List FileEffect :=
  if plan.toRestore.isEmpty then []
  else [.backup, .write MemPath.memoryMd (ApplyPlan.renderMemoryMd (entries ++ plan.toRestore))]

def ExpiryPlan.removals (plan : ExpiryPlan) : List FileEffect :=
  plan.archiveRemovals.map (fun found => .dropBlock found.1 found.2)

/-- `apply_expiry` as the effects it has on the files. -/
def expiryEffects (note : PendingNote) (t : Tree) (entries : List Entry) : List FileEffect :=
  let plan := resolveExpiry sha256Hex archive note t entries
  if plan.errors.isEmpty then plan.publish entries ++ plan.removals ++ [.remove note.path] else []

end Expiry

/-- `MEMORY.md` as it is read; a missing file is an empty one. -/
def Tree.memory (t : Tree) : List Char :=
  (t MemPath.memoryMd).getD []

/-- The blocks of a file. -/
def Tree.blocks (t : Tree) (p : MemPath) : List (List Char) :=
  splitBlocks ((t p).getD [])

/-! ## Dropping blocks -/

section Drops

variable {t t' : Tree} {p q : MemPath} {b c : List Char}

theorem splitBlocks_nil : splitBlocks [] = [] := by decide

theorem archivedAt_iff : ArchivedAt t p b ↔ p.isMdIn ["archive"] = true ∧ b ∈ t.blocks p := by
  refine and_congr_right' ?_
  rw [Tree.blocks]
  cases ht : t p with
  | none => simp [splitBlocks_nil]
  | some content => simp

theorem live_iff : Live t b ↔ b ∈ splitBlocks t.memory := by
  rw [Live, Tree.memory]
  cases ht : t MemPath.memoryMd with
  | none => simp [splitBlocks_nil]
  | some content => simp

/-- The archive files are plain. -/
def PlainArchive (t : Tree) : Prop :=
  ∀ p content, p.isMdIn ["archive"] = true → t p = some content → Plain content

theorem PlainArchive.blocks (h : PlainArchive t) (hp : p.isMdIn ["archive"] = true) (hb : b ∈ t.blocks p) :
    Block b := by
  obtain ⟨-, content, hcontent, hmem⟩ := archivedAt_iff.mpr ⟨hp, hb⟩
  exact (h p content hp hcontent).block hmem

/-- Every effect succeeds. -/
def Succeeds (t : Tree) : List FileEffect → Prop
  | [] => True
  | e :: es => ∃ t', e.run t = some t' ∧ Succeeds t' es

theorem Succeeds.append : ∀ {es : List FileEffect} {t : Tree} (rest : List FileEffect), Succeeds t es →
    runEffects t (es ++ rest) = runEffects (runEffects t es) rest := by
  intro es
  induction es with
  | nil => exact fun _ _ => rfl
  | cons e es ih =>
      rintro t rest ⟨t', hrun, hes⟩
      rw [List.cons_append, runEffects, runEffects, hrun]
      exact ih rest hes

end Drops

/-! ## Resolving -/

section Resolve

variable {sha256Hex : List Char → String} {archive : List MemPath} {note : PendingNote}
variable {t x : Tree} {entries : List Entry} {p : MemPath} {b : List Char} {contentHash : String}

theorem find_some (h : findArchiveBlockByHash sha256Hex archive t contentHash = some (p, b)) :
    p ∈ archive ∧ b ∈ t.blocks p ∧ sha256Hex b = contentHash := by
  obtain ⟨q, hq, hfound⟩ := List.exists_of_findSome?_eq_some h
  obtain ⟨content, hcontent, hmap⟩ := Option.bind_eq_some_iff.mp hfound
  obtain ⟨c, hc, heq⟩ := Option.map_eq_some_iff.mp hmap
  obtain ⟨rfl, rfl⟩ := Prod.mk.inj heq
  refine ⟨hq, ?_, by simpa using List.find?_some hc⟩
  rw [Tree.blocks, hcontent]
  exact List.mem_of_find?_eq_some hc

theorem find_none (h : findArchiveBlockByHash sha256Hex archive t contentHash = none) (hp : p ∈ archive)
    (hb : b ∈ t.blocks p) : sha256Hex b ≠ contentHash := by
  have hnone := List.findSome?_eq_none_iff.mp h p hp
  rw [Tree.blocks] at hb
  cases hcontent : t p with
  | none =>
      rw [hcontent] at hb
      change b ∈ splitBlocks [] at hb
      rw [splitBlocks_nil] at hb
      cases hb
  | some content =>
      rw [hcontent] at hnone hb
      have hfind := Option.map_eq_none_iff.mp hnone
      simpa using List.find?_eq_none.mp hfind b hb

/-- The candidate can be restored, or is there. -/
def Resolves (sha256Hex : List Char → String) (archive : List MemPath) (t : Tree) (entries : List Entry)
    (cand : PendingCandidate) : Prop :=
  (∃ e, entries.find? (fun e => e.id == cand.entryId) = some e ∧ sha256Hex e.text = cand.contentHash) ∨
    (entries.find? (fun e => e.id == cand.entryId) = none ∧
      (findArchiveBlockByHash sha256Hex archive t cand.contentHash).isSome = true)

/-- The entry a candidate becomes. -/
def restoreOf (sha256Hex : List Char → String) (archive : List MemPath) (t : Tree) (entries : List Entry)
    (cand : PendingCandidate) : Option Entry :=
  match entries.find? (fun e => e.id == cand.entryId) with
  | some _ => none
  | none => (findArchiveBlockByHash sha256Hex archive t cand.contentHash).map (fun f => ⟨cand.entryId, f.2⟩)

theorem resolveCandidate_of {plan : ExpiryPlan} {cand : PendingCandidate}
    (h : Resolves sha256Hex archive t entries cand) :
    resolveCandidate sha256Hex archive note t entries plan cand =
      ⟨plan.toRestore ++ (restoreOf sha256Hex archive t entries cand).toList,
        plan.archiveRemovals ++ (findArchiveBlockByHash sha256Hex archive t cand.contentHash).toList,
        plan.errors⟩ := by
  rcases h with ⟨e, he, hhash⟩ | ⟨hnone, hsome⟩
  · simp only [resolveCandidate, restoreOf, he, hhash, beq_self_eq_true, if_true]
    cases findArchiveBlockByHash sha256Hex archive t cand.contentHash with
    | none => simp
    | some f => simp
  · obtain ⟨f, hf⟩ := Option.isSome_iff_exists.mp hsome
    simp [resolveCandidate, restoreOf, hnone, hf]

theorem foldl_resolve_of : ∀ {cands : List PendingCandidate} {plan : ExpiryPlan},
    (∀ cand ∈ cands, Resolves sha256Hex archive t entries cand) →
    cands.foldl (resolveCandidate sha256Hex archive note t entries) plan =
      ⟨plan.toRestore ++ cands.filterMap (restoreOf sha256Hex archive t entries),
        plan.archiveRemovals ++
          cands.filterMap (fun cand => findArchiveBlockByHash sha256Hex archive t cand.contentHash),
        plan.errors⟩ := by
  intro cands
  induction cands with
  | nil =>
      intro plan _
      simp
  | cons cand cands ih =>
      intro plan h
      rw [List.foldl_cons, ih (fun c hc => h c (List.mem_cons_of_mem _ hc)),
        resolveCandidate_of (h cand List.mem_cons_self), List.filterMap_cons, List.filterMap_cons]
      cases restoreOf sha256Hex archive t entries cand <;>
        cases findArchiveBlockByHash sha256Hex archive t cand.contentHash <;> simp

/-- What is resolved without errors. -/
theorem resolveExpiry_of (h : ∀ cand ∈ note.interim, Resolves sha256Hex archive t entries cand) :
    resolveExpiry sha256Hex archive note t entries =
      ⟨note.interim.filterMap (restoreOf sha256Hex archive t entries),
        note.interim.filterMap (fun cand => findArchiveBlockByHash sha256Hex archive t cand.contentHash), []⟩ :=
  foldl_resolve_of h

end Resolve

/-! ## A crash -/

/-- The archive is listed, files and entries come back as they were, and no candidate is
archived twice or under another's id. -/
structure Expirable (sha256Hex : List Char → String) (archive : List MemPath) (note : PendingNote) (t : Tree)
    (entries : List Entry) : Prop where
  listed : ∀ p, p ∈ archive ↔ p.isMdIn ["archive"] = true ∧ (t p).isSome = true
  memory : Plain t.memory
  archives : PlainArchive t
  read : EntriesOf t.memory entries
  staged : note.path.IsStaging
  ids : (note.interim.map (·.entryId)).Nodup
  named : ∀ cand ∈ note.interim, ∀ p b, ArchivedAt t p b → sha256Hex b = cand.contentHash →
    trailingId b = some cand.entryId.toList
  single : ∀ cand ∈ note.interim, ∀ p q b, ArchivedAt t p b → ArchivedAt t q b →
    sha256Hex b = cand.contentHash → p = q
  distinct : ∀ b c, Present t b → Present t c → sha256Hex b = sha256Hex c → b = c

section Crash

variable {sha256Hex : List Char → String} {archive : List MemPath} {note : PendingNote}
variable {t x : Tree} {entries : List Entry} {p : MemPath} {b : List Char}

theorem Expirable.archived_listed (h : Expirable sha256Hex archive note t entries) (hb : ArchivedAt t p b) :
    p ∈ archive := by
  obtain ⟨hp, content, hcontent, -⟩ := hb
  refine (h.listed p).mpr ⟨hp, ?_⟩
  rw [hcontent]
  rfl

theorem Expirable.find_archived (h : Expirable sha256Hex archive note t entries) {contentHash : String}
    (hfound : findArchiveBlockByHash sha256Hex archive t contentHash = some (p, b)) :
    ArchivedAt t p b ∧ sha256Hex b = contentHash := by
  obtain ⟨hp, hb, hhash⟩ := find_some hfound
  exact ⟨archivedAt_iff.mpr ⟨((h.listed p).mp hp).1, hb⟩, hhash⟩

/-- No block is removed twice. -/
theorem Expirable.removals_nodup (h : Expirable sha256Hex archive note t entries) :
    (note.interim.filterMap
      (fun cand => findArchiveBlockByHash sha256Hex archive t cand.contentHash)).Nodup := by
  have hids := List.pairwise_map.mp h.ids
  refine List.pairwise_filterMap.mpr (hids.imp_of_mem ?_)
  rintro cand other hcand hother hne ⟨p, b⟩ hf ⟨q, c⟩ hg heq
  obtain ⟨rfl, rfl⟩ := Prod.mk.inj heq
  obtain ⟨harchived, hhash⟩ := h.find_archived hf
  obtain ⟨-, hhash'⟩ := h.find_archived hg
  have hid := h.named cand hcand _ _ harchived hhash
  rw [h.named other hother _ _ harchived hhash'] at hid
  exact hne (String.toList_inj.mp (Option.some.inj hid)).symm

/-- The restored entries. -/
theorem Expirable.restored_mem (h : Expirable sha256Hex archive note t entries) {e : Entry}
    (he : e ∈ note.interim.filterMap (restoreOf sha256Hex archive t entries)) :
    ∃ cand ∈ note.interim, e.id = cand.entryId ∧ sha256Hex e.text = cand.contentHash ∧
      (∀ other ∈ entries, other.id ≠ e.id) ∧ ∃ p, ArchivedAt t p e.text := by
  obtain ⟨cand, hcand, hrestore⟩ := List.mem_filterMap.mp he
  refine ⟨cand, hcand, ?_⟩
  simp only [restoreOf] at hrestore
  split at hrestore
  · cases hrestore
  · next hnone =>
      obtain ⟨⟨p, b⟩, hfound, rfl⟩ := Option.map_eq_some_iff.mp hrestore
      obtain ⟨harchived, hhash⟩ := h.find_archived hfound
      refine ⟨rfl, hhash, ?_, p, harchived⟩
      intro other hother
      simpa using List.find?_eq_none.mp hnone other hother

/-- The entries with the restored ones are read as they are written. -/
theorem Expirable.entries_block (h : Expirable sha256Hex archive note t entries) :
    ∀ e ∈ entries ++ note.interim.filterMap (restoreOf sha256Hex archive t entries),
      Block e.text ∧ trailingId e.text = some e.id.toList := by
  intro e he
  rcases List.mem_append.mp he with he | he
  · refine ⟨h.memory.block ?_, h.read.ids e he⟩
    rw [← h.read.texts]
    exact List.mem_map_of_mem he
  · obtain ⟨cand, hcand, hid, hhash, -, p, harchived⟩ := h.restored_mem he
    obtain ⟨hp, hb⟩ := archivedAt_iff.mp harchived
    refine ⟨h.archives.blocks hp hb, ?_⟩
    rw [hid]
    exact h.named cand hcand p _ harchived hhash

theorem Expirable.entries_nodup (h : Expirable sha256Hex archive note t entries) :
    ((entries ++ note.interim.filterMap (restoreOf sha256Hex archive t entries)).map Entry.id).Nodup := by
  rw [List.map_append]
  refine List.nodup_append.mpr ⟨h.read.nodup, ?_, ?_⟩
  · have hids := List.pairwise_map.mp h.ids
    refine List.pairwise_map.mpr (List.pairwise_filterMap.mpr (hids.imp ?_))
    intro cand other hne e he e' he' heq
    have hid : ∀ {cand : PendingCandidate} {e : Entry},
        restoreOf sha256Hex archive t entries cand = some e → e.id = cand.entryId := by
      intro cand e he
      simp only [restoreOf] at he
      split at he
      · cases he
      · obtain ⟨f, -, rfl⟩ := Option.map_eq_some_iff.mp he
        rfl
    rw [hid he, hid he'] at heq
    exact hne heq
  · intro a ha c hc heq
    obtain ⟨e, he, rfl⟩ := List.mem_map.mp ha
    obtain ⟨e', he', rfl⟩ := List.mem_map.mp hc
    obtain ⟨-, -, -, -, hnew, -⟩ := h.restored_mem he'
    exact hnew e he heq

/-- The state after `MEMORY.md` is written and `k` blocks are removed. -/
structure Midway (sha256Hex : List Char → String) (archive : List MemPath) (note : PendingNote) (t : Tree)
    (entries : List Entry) (k : Nat) (x : Tree) : Prop where
  read : EntriesOf x.memory (entries ++ note.interim.filterMap (restoreOf sha256Hex archive t entries))
  archived : ∀ q c, ArchivedAt x q c ↔ ArchivedAt t q c ∧ (q, c) ∉
    (note.interim.filterMap (fun cand => findArchiveBlockByHash sha256Hex archive t cand.contentHash)).take k

theorem filter_notMem_take {α : Type} [BEq α] [LawfulBEq α] {l : List α} (h : l.Nodup) (k : Nat) :
    l.filter (fun a => a ∉ l.take k) = l.drop k := by
  have hdisjoint : ∀ a ∈ l.take k, ∀ b ∈ l.drop k, a ≠ b := by
    rw [← List.take_append_drop k l] at h
    exact (List.nodup_append.mp h).2.2
  have hsplit : l.filter (fun a => a ∉ l.take k) =
      (l.take k).filter (fun a => a ∉ l.take k) ++ (l.drop k).filter (fun a => a ∉ l.take k) := by
    rw [← List.filter_append, List.take_append_drop]
  have htake : (l.take k).filter (fun a => a ∉ l.take k) = [] := by
    refine List.filter_eq_nil_iff.mpr ?_
    intro a ha
    simpa using ha
  have hdrop : (l.drop k).filter (fun a => a ∉ l.take k) = l.drop k := by
    refine List.filter_eq_self.mpr ?_
    intro a ha
    simpa using fun hmem => hdisjoint a hmem a ha rfl
  rw [hsplit, htake, hdrop, List.nil_append]

/-- A block that is gone is not found, and the others are. -/
theorem Midway.find {k : Nat} (h : Expirable sha256Hex archive note t entries)
    (hx : Midway sha256Hex archive note t entries k x) {cand : PendingCandidate} (hcand : cand ∈ note.interim) :
    findArchiveBlockByHash sha256Hex archive x cand.contentHash =
      (findArchiveBlockByHash sha256Hex archive t cand.contentHash).filter (fun f => f ∉
        (note.interim.filterMap
          (fun cand => findArchiveBlockByHash sha256Hex archive t cand.contentHash)).take k) := by
  have hstill : ∀ {q c}, findArchiveBlockByHash sha256Hex archive x cand.contentHash = some (q, c) →
      ArchivedAt x q c ∧ sha256Hex c = cand.contentHash := by
    intro q c hfound
    obtain ⟨hq, hc, hhash⟩ := find_some hfound
    exact ⟨archivedAt_iff.mpr ⟨((h.listed q).mp hq).1, hc⟩, hhash⟩
  cases hfound : findArchiveBlockByHash sha256Hex archive t cand.contentHash with
  | none =>
      cases hnow : findArchiveBlockByHash sha256Hex archive x cand.contentHash with
      | none => rfl
      | some f =>
          obtain ⟨hf, hhash⟩ := hstill hnow
          have hbefore := ((hx.archived _ _).mp hf).1
          exact absurd hhash (find_none hfound (h.archived_listed hbefore) (archivedAt_iff.mp hbefore).2)
  | some f =>
      obtain ⟨p, b⟩ := f
      obtain ⟨harchived, hhash⟩ := h.find_archived hfound
      -- the only block of the archive with this hash
      have honly : ∀ {q c}, ArchivedAt t q c → sha256Hex c = cand.contentHash → (q, c) = (p, b) := by
        intro q c hc hchash
        obtain rfl := h.distinct c b (Or.inr ⟨q, hc⟩) (Or.inr ⟨p, harchived⟩) (hchash.trans hhash.symm)
        rw [h.single cand hcand q p c hc harchived hhash]
      cases hnow : findArchiveBlockByHash sha256Hex archive x cand.contentHash with
      | none =>
          have hgone : ¬ArchivedAt x p b := by
            intro hb
            exact find_none hnow (h.archived_listed harchived) (archivedAt_iff.mp hb).2 hhash
          rw [hx.archived, and_iff_right harchived, not_not] at hgone
          rw [Option.filter_some, if_neg (by simpa using hgone)]
      | some f =>
          obtain ⟨q, c⟩ := f
          obtain ⟨hf, hchash⟩ := hstill hnow
          obtain ⟨hbefore, hleft⟩ := (hx.archived _ _).mp hf
          rw [honly hbefore hchash] at hleft ⊢
          rw [Option.filter_some, if_pos (by simpa using hleft)]

/-- A candidate is among the entries then. -/
theorem Expirable.candidate_read (h : Expirable sha256Hex archive note t entries)
    (hresolves : ∀ cand ∈ note.interim, Resolves sha256Hex archive t entries cand) {cand : PendingCandidate}
    (hcand : cand ∈ note.interim) :
    ∃ e, (entries ++ note.interim.filterMap (restoreOf sha256Hex archive t entries)).find?
        (fun e => e.id == cand.entryId) = some e ∧ sha256Hex e.text = cand.contentHash := by
  rcases hresolves cand hcand with ⟨e, he, hhash⟩ | ⟨hnone, hsome⟩
  · exact ⟨e, by rw [List.find?_append, he]; rfl, hhash⟩
  · obtain ⟨⟨p, b⟩, hfound⟩ := Option.isSome_iff_exists.mp hsome
    have hmem : (⟨cand.entryId, b⟩ : Entry) ∈ note.interim.filterMap (restoreOf sha256Hex archive t entries) := by
      refine List.mem_filterMap.mpr ⟨cand, hcand, ?_⟩
      simp [restoreOf, hnone, hfound]
    have hall : (⟨cand.entryId, b⟩ : Entry) ∈
        entries ++ note.interim.filterMap (restoreOf sha256Hex archive t entries) :=
      List.mem_append_right _ hmem
    cases hnow : (entries ++ note.interim.filterMap (restoreOf sha256Hex archive t entries)).find?
        (fun e => e.id == cand.entryId) with
    | none => exact absurd (List.find?_eq_none.mp hnow _ hall) (by simp)
    | some e =>
        have hid : e.id = cand.entryId := by simpa using List.find?_some hnow
        obtain rfl := List.inj_on_of_nodup_map h.entries_nodup (List.mem_of_find?_eq_some hnow) hall hid
        exact ⟨_, rfl, (h.find_archived hfound).2⟩

/-- **What is left to do** is what the next run resolves. -/
theorem Midway.effects {k : Nat} (h : Expirable sha256Hex archive note t entries)
    (hresolves : ∀ cand ∈ note.interim, Resolves sha256Hex archive t entries cand)
    (hx : Midway sha256Hex archive note t entries k x) :
    expiryEffects sha256Hex archive note x
        (entries ++ note.interim.filterMap (restoreOf sha256Hex archive t entries)) =
      ((note.interim.filterMap
        (fun cand => findArchiveBlockByHash sha256Hex archive t cand.contentHash)).drop k).map
          (fun f => .dropBlock f.1 f.2) ++ [.remove note.path] := by
  have hnow : ∀ cand ∈ note.interim, Resolves sha256Hex archive x
      (entries ++ note.interim.filterMap (restoreOf sha256Hex archive t entries)) cand :=
    fun cand hcand => Or.inl (h.candidate_read hresolves hcand)
  have hrestore : note.interim.filterMap (restoreOf sha256Hex archive x
      (entries ++ note.interim.filterMap (restoreOf sha256Hex archive t entries))) = [] := by
    refine List.filterMap_eq_nil_iff.mpr ?_
    intro cand hcand
    obtain ⟨e, he, -⟩ := h.candidate_read hresolves hcand
    rw [restoreOf, he]
  have hremovals : note.interim.filterMap
      (fun cand => findArchiveBlockByHash sha256Hex archive x cand.contentHash) =
      (note.interim.filterMap
        (fun cand => findArchiveBlockByHash sha256Hex archive t cand.contentHash)).drop k := by
    rw [← filter_notMem_take h.removals_nodup, List.filter_filterMap]
    exact List.filterMap_congr (fun cand hcand => hx.find h hcand)
  simp only [expiryEffects]
  rw [resolveExpiry_of hnow, hrestore, hremovals]
  rfl

/-- `MEMORY.md` after it is written. -/
theorem Expirable.published (h : Expirable sha256Hex archive note t entries)
    (hresolves : ∀ cand ∈ note.interim, Resolves sha256Hex archive t entries cand) :
    Succeeds t ((resolveExpiry sha256Hex archive note t entries).publish entries) ∧
      EntriesOf (runEffects t ((resolveExpiry sha256Hex archive note t entries).publish entries)).memory
        (entries ++ note.interim.filterMap (restoreOf sha256Hex archive t entries)) ∧
      ∀ q, q ≠ MemPath.memoryMd → q ≠ MemPath.memoryBak →
        runEffects t ((resolveExpiry sha256Hex archive note t entries).publish entries) q = t q := by
  rw [resolveExpiry_of hresolves, ExpiryPlan.publish]
  split
  · next hempty =>
      refine ⟨trivial, ?_, fun q _ _ => rfl⟩
      have hnil : note.interim.filterMap (restoreOf sha256Hex archive t entries) = [] :=
        List.isEmpty_iff.mp hempty
      rw [hnil, List.append_nil]
      exact h.read
  · obtain ⟨t', ht'⟩ := FileEffect.run_total (e := .backup) rfl t
    have hrun : runEffects t [.backup, .write MemPath.memoryMd (ApplyPlan.renderMemoryMd
        (entries ++ note.interim.filterMap (restoreOf sha256Hex archive t entries)))] =
        t'.write MemPath.memoryMd (ApplyPlan.renderMemoryMd
          (entries ++ note.interim.filterMap (restoreOf sha256Hex archive t entries))) := by
      rw [runEffects, ht']
      rfl
    refine ⟨⟨t', ht', _, rfl, trivial⟩, ?_, ?_⟩
    · rw [hrun, Tree.memory, Tree.write, if_pos rfl]
      exact entriesOf_render (fun e he => (h.entries_block e he).1) (fun e he => (h.entries_block e he).2)
        h.entries_nodup
    · intro q hmd hbak
      rw [hrun, Tree.write, if_neg hmd]
      exact FileEffect.run_other ht' hbak

theorem Midway.present {k : Nat} (h : Expirable sha256Hex archive note t entries)
    (hresolves : ∀ cand ∈ note.interim, Resolves sha256Hex archive t entries cand)
    (hx : Midway sha256Hex archive note t entries k x) (hb : ArchivedAt t p b) : Present x b := by
  by_cases hgone : (p, b) ∈ (note.interim.filterMap
      (fun cand => findArchiveBlockByHash sha256Hex archive t cand.contentHash)).take k
  · -- a block that was removed is an entry
    left
    obtain ⟨cand, hcand, hfound⟩ := List.mem_filterMap.mp (List.mem_of_mem_take hgone)
    obtain ⟨e, he, hhash⟩ := h.candidate_read hresolves hcand
    have hmem := List.mem_of_find?_eq_some he
    have hpresent : Present t e.text := by
      rcases List.mem_append.mp hmem with hold | hnew
      · left
        rw [live_iff, ← h.read.texts]
        exact List.mem_map_of_mem hold
      · obtain ⟨-, -, -, -, -, q, hq⟩ := h.restored_mem hnew
        exact Or.inr ⟨q, hq⟩
    obtain rfl := h.distinct e.text b hpresent (Or.inr ⟨p, hb⟩)
      (hhash.trans (h.find_archived hfound).2.symm)
    rw [live_iff, ← hx.read.texts]
    exact List.mem_map_of_mem hmem
  · exact Or.inr ⟨p, (hx.archived p b).mpr ⟨hb, hgone⟩⟩

end Crash

/-! ## Both -/

end Octos.Memory
