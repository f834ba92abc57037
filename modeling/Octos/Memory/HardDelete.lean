/-
# `Octos.Memory.HardDelete` — the files after a hard delete

The lines of one file are the subject of `ApplyScrub`; here are the files.  A
tree is `Scrubbed` for a class of files when every file of the class is clean.
Step 1 gives this for all files but `MEMORY.md` and the request notes, step 3
adds `MEMORY.md`, and step 4 removes the request notes.  The other steps only
remove files or write clean ones.
-/
import Octos.Memory.ApplyScrub

namespace Octos.Memory

open Text

/-! ## Files a trace must not be in -/

/-- The files besides `MEMORY.md`. -/
def Copies (p : MemPath) (content : List Char) : Prop :=
  p.isMdIn ["archive"] = true ∨ p.isMdIn ["bank", "entities"] = true ∨ p.isDailyNote = true ∨
    (p.isMdIn ["staging", "notes"] = true ∧ frontmatterDeclaresHost content = false) ∨
    p.isMdIn ["staging", "extract"] = true

/-- The files a prompt or a merge reads memory from. -/
def Scoped (p : MemPath) (content : List Char) : Prop :=
  p = MemPath.memoryMd ∨ Copies p content

/-- The files of a class are clean, and there is no backup. -/
structure Scrubbed (deleted : List Entry) (scope : MemPath → List Char → Prop) (t : Tree) : Prop where
  clean : ∀ p content, t p = some content → scope p content → AllLines (Clean deleted) content
  backup : ∀ p, p.isBackup = true → t p = none

section Trees

variable {deleted : List Entry} {scope : MemPath → List Char → Prop} {t : Tree}

theorem Scrubbed.write (h : Scrubbed deleted scope t) {p : MemPath} {content : List Char}
    (hbackup : p.isBackup = false) (hcontent : scope p content → AllLines (Clean deleted) content) :
    Scrubbed deleted scope (t.write p content) where
  clean := by
    intro q c hq hscope
    rw [Tree.write] at hq
    split at hq
    · next heq =>
        subst heq
        obtain rfl := Option.some.inj hq
        exact hcontent hscope
    · exact h.clean q c hq hscope
  backup := by
    intro q hq
    rw [Tree.write, if_neg]
    · exact h.backup q hq
    · rintro rfl
      rw [hbackup] at hq
      cases hq

theorem Scrubbed.remove (h : Scrubbed deleted scope t) (p : MemPath) :
    Scrubbed deleted scope (t.remove p) where
  clean := by
    intro q c hq hscope
    rw [Tree.remove] at hq
    split at hq
    · cases hq
    · exact h.clean q c hq hscope
  backup := by
    intro q hq
    rw [Tree.remove, h.backup q hq]
    split <;> rfl

theorem Scrubbed.removes : ∀ {ps : List MemPath} {t : Tree}, Scrubbed deleted scope t →
    Scrubbed deleted scope (ps.foldl Tree.remove t) := by
  intro ps
  induction ps with
  | nil => exact fun h => h
  | cons p ps ih => exact fun h => ih (h.remove p)

/-- A rewrite of files that are in the class whatever they hold. -/
theorem Scrubbed.rewrite (h : Scrubbed deleted scope t) {which : MemPath → Bool}
    {f : List Char → Option (List Char)}
    (hscope : ∀ p c c', which p = true → scope p c → scope p c')
    (hf : ∀ c c', AllLines (Clean deleted) c → f c = some c' → AllLines (Clean deleted) c') :
    Scrubbed deleted scope (t.rewrite which f) where
  clean := by
    intro q c hq hin
    rw [Tree.rewrite] at hq
    split at hq
    · next hwhich =>
        obtain ⟨old, hold, hnew⟩ := Option.bind_eq_some_iff.mp hq
        exact hf old c (h.clean q old hold (hscope q c old hwhich hin)) hnew
    · exact h.clean q c hq hin
  backup := by
    intro q hq
    rw [Tree.rewrite, h.backup q hq]
    split <;> rfl

/-- A file that a sequence of removals leaves is not among them. -/
theorem notMem_of_removes : ∀ {ps : List MemPath} {t : Tree} {p : MemPath} {content : List Char},
    ps.foldl Tree.remove t p = some content → p ∉ ps ∧ t p = some content := by
  intro ps
  induction ps with
  | nil => exact fun h => ⟨List.not_mem_nil, h⟩
  | cons q ps ih =>
      intro t p content h
      obtain ⟨hnot, ht⟩ := ih h
      rw [Tree.remove] at ht
      split at ht
      · cases ht
      · next hne => exact ⟨by simp [hne, hnot], ht⟩

end Trees

/-! ## Paths -/

theorem copies_dir {p : MemPath} {content : List Char} (h : Copies p content) :
    p.dir = ["archive"] ∧ p.isMdIn ["archive"] = true ∨ p.dir = ["bank", "entities"] ∨ p.dir = [] ∨
      p.dir = ["staging", "notes"] ∧ frontmatterDeclaresHost content = false ∨
      p.dir = ["staging", "extract"] := by
  rcases h with h | h | h | ⟨h, hhost⟩ | h
  · exact Or.inl ⟨isMdIn_dir h, h⟩
  · exact Or.inr (Or.inl (isMdIn_dir h))
  · simp only [MemPath.isDailyNote, Bool.and_eq_true, List.isEmpty_iff] at h
    exact Or.inr (Or.inr (Or.inl h.1.1))
  · exact Or.inr (Or.inr (Or.inr (Or.inl ⟨isMdIn_dir h, hhost⟩)))
  · exact Or.inr (Or.inr (Or.inr (Or.inr (isMdIn_dir h))))

/-- The last dot of a name. -/
theorem breakOnLast_dot {ext : List Char} (hext : '.' ∉ ext) (stem : List Char) :
    breakOnLast ['.'] (stem ++ '.' :: ext) = some (stem, ext) := by
  have hnone : ∀ l : List Char, '.' ∉ l → breakOnLast ['.'] l = none := by
    intro l
    induction l with
    | nil => exact fun _ => rfl
    | cons ch l ih =>
        intro h
        have hch : ¬ '.' = ch := fun heq => h (heq ▸ List.mem_cons_self)
        rw [breakOnLast, ih (fun hin => h (List.mem_cons_of_mem _ hin))]
        simp [List.isPrefixOf, hch]
  induction stem with
  | nil =>
      rw [List.nil_append, breakOnLast, hnone ext hext]
      simp [List.isPrefixOf]
  | cons ch stem ih => rw [List.cons_append, breakOnLast, ih]

theorem archivePath_extension (today : Date) : today.archivePath.extension = some "md".toList := by
  have hname : today.archivePath.name =
      (Digits.pad 4 today.year ++ '-' :: Digits.pad 2 today.month) ++ '.' :: "md".toList := by
    simp [Date.archivePath]
  rw [MemPath.extension, hname, breakOnLast_dot (by decide)]
  generalize Digits.pad 4 today.year = year
  cases year <;> rfl

/-- The archive of a month is no backup. -/
theorem archivePath_isBackup (today : Date) : today.archivePath.isBackup = false := by
  rw [MemPath.isBackup, archivePath_extension]
  rfl

/-! ## The steps -/

section Steps

variable {plan : ApplyPlan} {deleted : List Entry} (hplan : Deletes plan deleted)
  (hclosed : Closed deleted)

/-- The copies that are no request notes: what step 1 cleans. -/
def ApplyPlan.cleans (plan : ApplyPlan) (p : MemPath) (content : List Char) : Prop :=
  Copies p content ∧ plan.isRequestNote p = false

/-- The same with `MEMORY.md`: what step 3 leaves clean. -/
def ApplyPlan.publishes (plan : ApplyPlan) (p : MemPath) (content : List Char) : Prop :=
  Scoped p content ∧ plan.isRequestNote p = false

theorem rewrite_some {t : Tree} {which : MemPath → Bool} {f : List Char → Option (List Char)}
    {p : MemPath} {c : List Char} (h : t.rewrite which f p = some c) :
    (which p = true ∧ ∃ old, f old = some c) ∨ (which p = false ∧ t p = some c) := by
  rw [Tree.rewrite] at h
  split at h
  · next hwhich =>
      obtain ⟨old, -, hnew⟩ := Option.bind_eq_some_iff.mp h
      exact Or.inl ⟨hwhich, old, hnew⟩
  · next hwhich => exact Or.inr ⟨by simpa using hwhich, h⟩

/-- A tree that has no backups keeps none by rewriting files. -/
theorem rewrite_none {t : Tree} {which : MemPath → Bool} {f : List Char → Option (List Char)}
    {p : MemPath} (h : t p = none) : t.rewrite which f p = none := by
  rw [Tree.rewrite, h]
  split <;> rfl

include hplan hclosed in
theorem scrubTree_scrubbed (t : Tree) : Scrubbed deleted plan.cleans (plan.scrubTree t) where
  clean := by
    intro p c h ⟨hcopies, hrequest⟩
    obtain ⟨h, hkeep⟩ := Option.filter_eq_some_iff.mp h
    -- each loop either cleans the file or leaves it for the loops before it
    rcases rewrite_some h with ⟨-, old, hnew⟩ | ⟨hdaily, h⟩
    · exact scrubDailyNote_clean hplan hclosed hnew
    rcases rewrite_some h with ⟨-, old, hnew⟩ | ⟨hbank, h⟩
    · exact rewriteBlockFile_clean hplan hclosed hnew
    rcases rewrite_some h with ⟨-, old, hnew⟩ | ⟨harchive, -⟩
    · exact rewriteBlockFile_clean hplan hclosed hnew
    refine staging_clean hplan hclosed ?_
    have hscrubs : plan.scrubsStaging p c = false := by simpa using hkeep
    rw [ApplyPlan.scrubsStaging] at hscrubs
    rcases hcopies with hp | hp | hp | ⟨hp, hhost⟩ | hp
    · rw [harchive] at hp
      cases hp
    · rw [hbank] at hp
      cases hp
    · rw [hdaily] at hp
      cases hp
    · rw [if_pos hp] at hscrubs
      simpa [hrequest, hhost] using hscrubs
    · have hnotes : ¬ p.isMdIn ["staging", "notes"] = true := by
        intro hnotes
        have hdir := (isMdIn_dir hp).symm.trans (isMdIn_dir hnotes)
        exact absurd hdir (by decide)
      rw [if_neg hnotes, if_pos hp] at hscrubs
      simpa [hrequest] using hscrubs
  backup := by
    intro p hp
    show Option.filter _ _ = none
    rw [rewrite_none (rewrite_none (rewrite_none (if_pos hp)))]
    rfl

include hplan hclosed in
theorem appendArchive_scrubbed {t : Tree} (today : Date) (h : Scrubbed deleted plan.cleans t) :
    Scrubbed deleted plan.cleans (plan.appendArchive today t) := by
  unfold ApplyPlan.appendArchive
  split
  · exact h
  · refine h.write (archivePath_isBackup today) ?_
    rintro ⟨hcopies, hrequest⟩
    have harchive : today.archivePath.isMdIn ["archive"] = true := by
      rcases copies_dir hcopies with ⟨-, h⟩ | h | h | ⟨h, -⟩ | h
      · exact h
      all_goals exact absurd h (by simp [Date.archivePath])
    have hexisting : AllLines (Clean deleted) ((t today.archivePath).getD []) := by
      cases hold : t today.archivePath with
      | none => exact allLines_nil
      | some old => exact h.clean _ old hold ⟨Or.inl harchive, hrequest⟩
    refine joinBlocks_clean hplan ?_
    exact appendBlocks_clean hplan hclosed (splitBlocks_all (lineProp hplan) hexisting)

theorem rewritePending_scrubbed (hpending : PendingHost plan) (gone : MemPath → Bool) :
    ∀ {t : Tree}, Scrubbed deleted plan.cleans t →
      Scrubbed deleted plan.cleans (plan.rewritePending gone t) := by
  unfold ApplyPlan.rewritePending
  unfold PendingHost at hpending
  generalize plan.pendingRewrites = rewrites at hpending
  induction rewrites with
  | nil => exact fun h => h
  | cons r rewrites ih =>
      intro t h
      refine ih (fun r hr => hpending r (List.mem_cons_of_mem _ hr)) ?_
      show Scrubbed deleted plan.cleans (if gone r.1 = true then t else t.write r.1 r.2)
      obtain ⟨hdir, hbackup, hhost⟩ := hpending r List.mem_cons_self
      split
      · exact h
      · refine h.write hbackup ?_
        rintro ⟨hcopies, -⟩
        exfalso
        rcases copies_dir hcopies with ⟨h, -⟩ | h | h | ⟨-, h⟩ | h
        · rw [hdir] at h
          exact absurd h (by decide)
        · rw [hdir] at h
          exact absurd h (by decide)
        · rw [hdir] at h
          cases h
        · rw [hhost] at h
          cases h
        · rw [hdir] at h
          exact absurd h (by decide)

include hplan in
theorem hardDeletes_ne : plan.hardDeletes.isEmpty = false := by
  rw [List.isEmpty_eq_false_iff]
  intro hnil
  have htargets := hplan.targets
  rw [hnil] at htargets
  exact hplan.some (List.map_eq_nil_iff.mp htargets.symm)

include hplan hclosed in
theorem publish_scrubbed {t : Tree} (today : Date) (h : Scrubbed deleted plan.cleans t) :
    Scrubbed deleted plan.publishes (plan.publish today t) := by
  have hrender := renderMemoryMd_clean hplan hclosed today
  have hpublish : plan.publish today t = t.write MemPath.memoryMd
      (ApplyPlan.renderMemoryMd (plan.finalEntries.filterMap (plan.publishEntry today))) := by
    rw [ApplyPlan.publish, hardDeletes_ne hplan]
    rfl
  rw [hpublish]
  have hwritten := h.write (p := MemPath.memoryMd) (by decide) (fun _ => hrender)
  refine ⟨?_, hwritten.backup⟩
  rintro p c hp ⟨rfl | hcopies, hrequest⟩
  · rw [Tree.write, if_pos rfl] at hp
    obtain rfl := Option.some.inj hp
    exact hrender
  · exact hwritten.clean p c hp ⟨hcopies, hrequest⟩

/-- A request note is among the notes of some target. -/
theorem isRequestNote_mem {p : MemPath} (h : plan.isRequestNote p = true) :
    p ∈ plan.hardDeletes.flatMap (fun t => t.authorizingNote :: t.originatingPending) := by
  obtain ⟨t, ht, hnote⟩ := List.any_eq_true.mp h
  refine List.mem_flatMap.mpr ⟨t, ht, ?_⟩
  rcases Bool.or_eq_true_iff.mp hnote with hnote | hnote
  · rw [beq_iff_eq.mp hnote]
    exact List.mem_cons_self
  · exact List.mem_cons_of_mem _ (List.contains_iff_mem.mp hnote)

include hplan in
theorem consumeRequests_scrubbed {t : Tree} (h : Scrubbed deleted plan.publishes t) :
    Scrubbed deleted Scoped (plan.consumeRequests t) := by
  have hnotes : Scrubbed deleted Scoped ((plan.hardDeletes.flatMap
      (fun t => t.authorizingNote :: t.originatingPending)).foldl Tree.remove t) := by
    refine ⟨?_, h.removes.backup⟩
    intro p c hp hscoped
    obtain ⟨hnot, hold⟩ := notMem_of_removes hp
    have hrequest : plan.isRequestNote p = false := by
      rw [← Bool.not_eq_true]
      exact fun hreq => hnot (isRequestNote_mem hreq)
    exact h.clean p c hold ⟨hscoped, hrequest⟩
  unfold ApplyPlan.consumeRequests
  refine Scrubbed.removes ?_
  split
  · exact hnotes
  · refine hnotes.rewrite ?_ ?_
    · intro p c c' hp _
      exact Or.inr (Or.inl hp)
    · intro c c' hc hnew
      exact rewriteBlockFile_keeps hplan hc hnew

theorem cleanStaging_scrubbed (gone : MemPath → Bool) : ∀ {t : Tree},
    Scrubbed deleted Scoped t → Scrubbed deleted Scoped (plan.cleanStaging gone t) := by
  unfold ApplyPlan.cleanStaging
  induction plan.consumedFiles with
  | nil => exact fun h => h
  | cons p ps ih =>
      intro t h
      refine ih ?_
      show Scrubbed deleted Scoped (if gone p = true then t else t.remove p)
      split
      · exact h
      · exact h.remove p

end Steps

/-! ## A file that stays

An extraction file with a line no target matches, under a name the plan does not
mention, is as it was afterwards. -/

section Survivor

variable {plan : ApplyPlan} {p : MemPath}

/-- The extraction files a plan does not mention. -/
structure Unmentioned (plan : ApplyPlan) (p : MemPath) : Prop where
  extract : p.isMdIn ["staging", "extract"] = true
  notes : p ∉ plan.hardDeletes.flatMap (fun t => t.authorizingNote :: t.originatingPending)
  deletes : p ∉ plan.pendingDeletes
  consumed : p ∉ plan.consumedFiles

/-- There is one. -/
theorem exists_unmentioned (plan : ApplyPlan) : ∃ p, Unmentioned plan p := by
  let file : Nat → MemPath := fun n =>
    { dir := ["staging", "extract"], name := List.replicate (n + 1) 'a' ++ '.' :: "md".toList }
  have hinj : Function.Injective file := by
    intro n m h
    have hlen := congrArg (fun p => p.name.length) h
    simpa [file] using hlen
  let mentioned := plan.hardDeletes.flatMap (fun t => t.authorizingNote :: t.originatingPending) ++
    plan.pendingDeletes ++ plan.consumedFiles
  obtain ⟨p, ⟨n, rfl⟩, hp⟩ :=
    (Set.infinite_range_of_injective hinj).exists_notMem_finset mentioned.toFinset
  simp only [mentioned, List.mem_toFinset, List.mem_append, not_or] at hp
  refine ⟨file n, ?_, hp.1.1, hp.1.2, hp.2⟩
  have hext : (file n).extension = some "md".toList := by
    rw [MemPath.extension, breakOnLast_dot (by decide)]
    rfl
  rw [MemPath.isMdIn, hext]
  rfl

/-- The file alone in the tree. -/
def onlyFile (p : MemPath) (content : List Char) : Tree :=
  fun q => if q = p then some content else none

theorem removes_spares : ∀ {ps : List MemPath} {t : Tree}, p ∉ ps → ps.foldl Tree.remove t p = t p := by
  intro ps
  induction ps with
  | nil => exact fun _ => rfl
  | cons q ps ih =>
      intro t h
      have hne : p ≠ q := fun heq => h (heq ▸ List.mem_cons_self)
      have hrest : p ∉ ps := fun hin => h (List.mem_cons_of_mem _ hin)
      rw [List.foldl_cons, ih hrest, Tree.remove, if_neg hne]

theorem rewrite_spares {t : Tree} {which : MemPath → Bool} {f : List Char → Option (List Char)}
    (h : which p = false) : t.rewrite which f p = t p := by
  rw [Tree.rewrite, h]
  rfl

theorem write_spares {t : Tree} {q : MemPath} {content : List Char} (h : p.dir ≠ q.dir) :
    t.write q content p = t p := by
  have hne : p ≠ q := fun heq => h (congrArg MemPath.dir heq)
  rw [Tree.write, if_neg hne]

theorem isMdIn_other {dir : List String} (hp : p.isMdIn ["staging", "extract"] = true)
    (hdir : ["staging", "extract"] ≠ dir) : p.isMdIn dir = false := by
  rw [← Bool.not_eq_true]
  exact fun h => hdir ((isMdIn_dir hp).symm.trans (isMdIn_dir h))

theorem scrubTree_spares (hp : Unmentioned plan p) {content : List Char}
    (hmatch : stagingFileMatches plan.hardDeletes content = false) :
    plan.scrubTree (onlyFile p content) p = some content := by
  have hdir := isMdIn_dir hp.extract
  have hdaily : p.isDailyNote = false := by simp [MemPath.isDailyNote, hdir]
  have hbackup : p.isBackup = false := by
    have hext := hp.extract
    simp only [MemPath.isMdIn, Bool.and_eq_true, beq_iff_eq] at hext
    rw [MemPath.isBackup, hext.2]
    rfl
  have hscrubs : plan.scrubsStaging p content = false := by
    rw [ApplyPlan.scrubsStaging, isMdIn_other hp.extract (by decide), hp.extract, hmatch]
    simp
  simp only [ApplyPlan.scrubTree]
  rw [rewrite_spares hdaily, rewrite_spares (isMdIn_other hp.extract (by decide)),
    rewrite_spares (isMdIn_other hp.extract (by decide)), hbackup]
  simp [onlyFile, hscrubs]

theorem rewritePending_spares (hpending : PendingHost plan) (hp : p.dir = ["staging", "extract"])
    (gone : MemPath → Bool) : ∀ {t : Tree}, plan.rewritePending gone t p = t p := by
  unfold ApplyPlan.rewritePending
  unfold PendingHost at hpending
  generalize plan.pendingRewrites = rewrites at hpending
  induction rewrites with
  | nil => exact rfl
  | cons r rewrites ih =>
      intro t
      have hne : p.dir ≠ r.1.dir := by
        rw [hp, (hpending r List.mem_cons_self).1]
        decide
      rw [List.foldl_cons, ih (fun r hr => hpending r (List.mem_cons_of_mem _ hr))]
      split
      · rfl
      · exact write_spares hne

theorem cleanStaging_spares (gone : MemPath → Bool) (hp : p ∉ plan.consumedFiles) :
    ∀ {t : Tree}, plan.cleanStaging gone t p = t p := by
  unfold ApplyPlan.cleanStaging
  generalize plan.consumedFiles = files at hp
  induction files with
  | nil => exact rfl
  | cons q files ih =>
      intro t
      have hne : p ≠ q := fun heq => hp (heq ▸ List.mem_cons_self)
      rw [List.foldl_cons, ih (fun hin => hp (List.mem_cons_of_mem _ hin))]
      split
      · rfl
      · rw [Tree.remove, if_neg hne]

/-- `apply_plan` on a plan with hard deletes, step after step. -/
theorem apply_eq {deleted : List Entry} (hplan : Deletes plan deleted) (today : Date) (t : Tree) :
    plan.apply today t = .ok (plan.cleanStaging (plan.scrubDeletedStaging t) (plan.consumeRequests
      (plan.publish today (plan.rewritePending (plan.scrubDeletedStaging t)
        (plan.appendArchive today (plan.scrubTree t))))), plan.scrubDeletedStaging t) := by
  simp only [ApplyPlan.apply, hardDeletes_ne hplan, Bool.false_and, Bool.false_eq_true, if_false]

theorem apply_spares {deleted : List Entry} (hplan : Deletes plan deleted)
    (hpending : PendingHost plan) (hp : Unmentioned plan p) {content : List Char}
    (hmatch : stagingFileMatches plan.hardDeletes content = false) (today : Date) :
    ∃ t' gone, plan.apply today (onlyFile p content) = .ok (t', gone) ∧ t' p = some content := by
  have hdir := isMdIn_dir hp.extract
  refine ⟨_, _, apply_eq hplan today _, ?_⟩
  rw [cleanStaging_spares _ hp.consumed]
  have harchive : ∀ t : Tree, plan.appendArchive today t p = t p := by
    intro t
    unfold ApplyPlan.appendArchive
    split
    · rfl
    · have hne : p.dir ≠ today.archivePath.dir := by
        rw [hdir]
        show ["staging", "extract"] ≠ ["archive"]
        decide
      exact write_spares hne
  have hpublish : ∀ t : Tree, plan.publish today t p = t p := by
    intro t
    rw [ApplyPlan.publish, hardDeletes_ne hplan]
    have hne : p.dir ≠ MemPath.memoryMd.dir := by
      rw [hdir]
      decide
    exact write_spares hne
  have hrequests : ∀ t : Tree, plan.consumeRequests t p = t p := by
    intro t
    simp only [ApplyPlan.consumeRequests]
    rw [removes_spares hp.deletes]
    split
    · exact removes_spares hp.notes
    · rw [rewrite_spares (isMdIn_other hp.extract (by decide))]
      exact removes_spares hp.notes
  rw [hrequests, hpublish, rewritePending_spares hpending hdir, harchive]
  exact scrubTree_spares hp hmatch

end Survivor

/-! ## The theorem -/

/-- A line that reads like a line of a deleted entry, matched by no target. -/
theorem exists_unmatched {plan : ApplyPlan} {deleted : List Entry} (hplan : Deletes plan deleted)
    {token : List Char} (htoken : isIdToken token = true) (hfresh : ∀ e ∈ deleted, e.id.toList ≠ token)
    (hopen : ¬ Closed deleted) :
    ∃ line, line ≠ [] ∧ '\n' ∉ line ∧ Trace deleted line ∧ scrubbed plan.hardDeletes line = false := by
  unfold Closed at hopen
  push Not at hopen
  obtain ⟨e, he, l, hl, c, hc, hmissing⟩ := hopen
  have hnl := newline_notMem_of_mem_lines hl
  have hnl' := newline_notMem_exchange htoken l 0 hnl
  have hcontent := contentFoldedLines_exchange htoken l
  have hc' : c ∈ contentFoldedLines (exchangeIdsFrom token 0 l) := by rw [hcontent]; exact hc
  refine ⟨exchangeIdsFrom token 0 l, ?_, hnl', ⟨e, he, Or.inr ⟨l, hl, c, hc, hc'⟩⟩, ?_⟩
  · intro hnil
    rw [hnil] at hc'
    cases hc'
  · refine List.any_eq_false.mpr ?_
    intro t ht
    obtain ⟨d, hd, heq⟩ : ∃ d ∈ deleted, (d.id, contentFoldedLines d.text) = (t.entryId, t.foldedLines) := by
      have hin := List.mem_map_of_mem (f := fun t => (t.entryId, t.foldedLines)) ht
      rw [hplan.targets] at hin
      exact List.mem_map.mp hin
    obtain ⟨hid, hfolded⟩ := Prod.mk.inj heq
    have hname : contains t.entryId.toList (exchangeIdsFrom token 0 l) = false := by
      rw [← Bool.not_eq_true, contains_iff, ← hid]
      intro hin
      have hdtoken := hplan.tokens d (List.mem_append_left _ hd)
      exact hfresh d hd (exchangeIdsFrom_token htoken hdtoken l 0 hin)
    have hline : c ∉ t.foldedLines := by
      rw [← hfolded]
      exact hmissing d hd
    simp [ScrubTarget.lineMatches, hname, contentFoldedLines_head hnl' hc', hline]

/-- **A hard delete leaves no trace**, in any tree, exactly when the scrub sets
have the content of every line of the deleted entries.  (The converse exchanges
the ids of a line for one that is not deleted, so there must be one.) -/
theorem hard_delete_no_trace {plan : ApplyPlan} {deleted : List Entry} (hplan : Deletes plan deleted)
    (hpending : PendingHost plan) :
    (Closed deleted → ∀ today t t' gone, plan.apply today t = .ok (t', gone) →
      Scrubbed deleted Scoped t') ∧
    ((∃ token, isIdToken token = true ∧ ∀ e ∈ deleted, e.id.toList ≠ token) →
      (∀ today t t' gone, plan.apply today t = .ok (t', gone) → Scrubbed deleted Scoped t') →
        Closed deleted) := by
  constructor
  · intro hclosed today t t' gone happly
    rw [apply_eq hplan] at happly
    obtain ⟨rfl, rfl⟩ := Prod.mk.inj (Except.ok.inj happly)
    have h1 := scrubTree_scrubbed hplan hclosed t
    have h2 := appendArchive_scrubbed hplan hclosed today h1
    have h3 := rewritePending_scrubbed hpending (plan.scrubDeletedStaging t) h2
    have h4 := publish_scrubbed hplan hclosed today h3
    have h5 := consumeRequests_scrubbed hplan h4
    exact cleanStaging_scrubbed _ h5
  · rintro ⟨token, htoken, hfresh⟩ hall
    by_contra hopen
    obtain ⟨line, hne, hnl, htrace, hunmatched⟩ := exists_unmatched hplan htoken hfresh hopen
    obtain ⟨p, hp⟩ := exists_unmentioned plan
    have hlines : lines line = [line] := by
      simp [lines, lastLine, List.splitOn_eq_singleton hnl, hne]
    have hmatch : stagingFileMatches plan.hardDeletes line = false := by
      simp [stagingFileMatches, hlines, hunmatched]
    obtain ⟨t', gone, happly, hstays⟩ := apply_spares hplan hpending hp hmatch ⟨2026, 1, 1⟩
    have hscoped : Scoped p line := Or.inr (Or.inr (Or.inr (Or.inr (Or.inr hp.extract))))
    refine (hall _ _ t' gone happly).clean p line hstays hscoped line ?_ htrace
    rw [hlines]
    exact List.mem_singleton_self _

/-- A plan that deletes one entry on a user's note. -/
def deletingPlan (e : Entry) : ApplyPlan where
  finalEntries := []
  archiveAppends := []
  hardDeletes := [⟨e.id, contentFoldedLines e.text, ⟨["staging", "notes"], "forget.md".toList⟩, []⟩]
  archiveBlockRemovals := []
  consumedFiles := [⟨["staging", "notes"], "forget.md".toList⟩]
  pendingRewrites := []
  pendingDeletes := []

theorem deletingPlan_deletes {e : Entry} (h : isIdToken e.id.toList = true) :
    Deletes (deletingPlan e) [e] where
  some := by simp
  targets := rfl
  gone := by
    intro x hx
    cases hx
  tokens := by
    intro x hx
    obtain rfl : x = e := by simpa [deletingPlan] using hx
    exact h

theorem deletingPlan_pendingHost (e : Entry) : PendingHost (deletingPlan e) := by
  intro r hr
  cases hr

/-- An entry with its stamp on one line. -/
def stampedEntry : Entry where
  id := "^maaaaaa"
  text := "- the door code is 1234\n(updated: 2026-01-02) ^maaaaaa".toList

/-- An entry whose stamp goes over two lines, with text behind it. -/
def brokenEntry : Entry where
  id := "^maaaaaa"
  text := "- the door code is 1234 (updated:\n2026-01-02) of the lab ^maaaaaa".toList

/-- A page of the bank. -/
def bankPage : MemPath where
  dir := ["bank", "entities"]
  name := "home.md".toList

theorem hard_delete_no_trace_stamped :
    Deletes (deletingPlan stampedEntry) [stampedEntry] ∧ PendingHost (deletingPlan stampedEntry) ∧
      ∀ today t t' gone, (deletingPlan stampedEntry).apply today t = .ok (t', gone) →
        Scrubbed [stampedEntry] Scoped t' := by
  have hdeletes := deletingPlan_deletes (e := stampedEntry) (by rfl)
  have hclosed : Closed [stampedEntry] := by
    unfold Closed
    decide
  exact ⟨hdeletes, deletingPlan_pendingHost _,
    (hard_delete_no_trace hdeletes (deletingPlan_pendingHost _)).1 hclosed⟩

/-- The line of `brokenEntry` that stays in the bank. -/
theorem broken_stamp_survives :
    Deletes (deletingPlan brokenEntry) [brokenEntry] ∧ PendingHost (deletingPlan brokenEntry) ∧
      ∃ t' gone, (deletingPlan brokenEntry).apply ⟨2026, 1, 3⟩
          (onlyFile bankPage "- the door code is 1234\n".toList) = .ok (t', gone) ∧
        ¬ Scrubbed [brokenEntry] Scoped t' := by
  have hdeletes := deletingPlan_deletes (e := brokenEntry) (by rfl)
  refine ⟨hdeletes, deletingPlan_pendingHost _, _, _, apply_eq hdeletes _ _, ?_⟩
  intro hclean
  have htrace : Trace [brokenEntry] "- the door code is 1234".toList := by
    refine ⟨brokenEntry, List.mem_singleton_self _, Or.inr ?_⟩
    refine ⟨"- the door code is 1234 (updated:".toList, by decide, ?_⟩
    exact ⟨"- the door code is 1234".toList, by decide, by decide⟩
  refine hclean.clean bankPage "- the door code is 1234\n".toList (by rfl) ?_
    "- the door code is 1234".toList (by decide) htrace
  exact Or.inr (Or.inr (Or.inl (by rfl)))

end Octos.Memory
