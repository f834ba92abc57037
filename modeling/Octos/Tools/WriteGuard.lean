/-
# `Octos.Tools.WriteGuard` — nothing unseen is overwritten

The guard of `write_file` lets an existing file be rebuilt when the session has a
complete view of the generation on disk, or when the file is small and there is
no record of it.  A write that was authorized compares the generation once more,
on the descriptor that it truncates (`write_no_follow_checked`).

The world below has any number of sessions, and another program that replaces
files whenever it likes, between any two looks that a tool takes at the disk.  No
epoch is ever given to a second content.  What comes out is about bytes: the
content that an authorized write destroys was shown to the session byte for byte,
or was found by it, at the right length, where it had just written.
-/
import Octos.Tools.ReadWindow
import Octos.Lib.Run
import Octos.Lib.Cut

namespace Octos.Tools

open Octos.Text

/-! ## The guard -/

/-- `WINDOW_MAX_BYTES` -/
def windowMaxBytes : Nat := 48 * 1024

/-- Why `write_file` refuses. -/
inductive Refusal
  | keylessTooLarge (size : Nat)
  | keylessUnvalidated
  | changedOnDisk
  | redacted
  | transformed
  | partialView (seenThrough totalBytes : Nat)
  | neverRead (size : Nat)
deriving DecidableEq

inductive GuardVerdict
  | refused (refusal : Refusal)
  | authorized (epoch : ViewEpoch)
  | blind
deriving DecidableEq

/-- The armed guard over an existing file; `current` is what a stat of the path gives. -/
def overwriteGuard (session : String) (status : ViewStatus) (current : Option ViewEpoch) : GuardVerdict :=
  if session.isEmpty then
    match current with
    | some now => if now.size ≤ windowMaxBytes then .blind else .refused (.keylessTooLarge now.size)
    | none => .refused .keylessUnvalidated
  else
    match status, current with
    | .complete epoch, some now => if epoch = now then .authorized now else .refused .changedOnDisk
    | .complete _, none => .refused .changedOnDisk
    | .tainted, _ => .refused .redacted
    | .transformed, _ => .refused .transformed
    | .viewPartial seenThrough totalBytes, _ => .refused (.partialView seenThrough totalBytes)
    | .unknown, some now => if windowMaxBytes < now.size then .refused (.neverRead now.size) else .blind
    | .unknown, none => .refused .changedOnDisk

/-! ## Files and generations -/

/-- A file as one descriptor sees it. -/
structure DiskFile where
  epoch : ViewEpoch
  content : List UInt8
  size_eq : epoch.size = content.length
deriving DecidableEq

/-- The disk by place, the content each generation stands for, the ledger, and of every
session the writes that the guard has authorized and those that are not yet noted. -/
structure World where
  disk : String → Option DiskFile
  generations : ViewEpoch → Option (List UInt8)
  ledger : ViewLedger
  granted : List (String × ViewEpoch)
  noting : List (String × List UInt8)

def World.start : World where
  disk _ := none
  generations _ := none
  ledger := Recency.empty
  granted := []
  noting := []

/-- A file that nobody has seen before. -/
def World.Fresh (w : World) (file : DiskFile) : Prop :=
  w.generations file.epoch = none

/-- A file that is on the disk or was, as a descriptor or a stat may still show it. -/
def World.Known (w : World) (file : DiskFile) : Prop :=
  w.generations file.epoch = some file.content

def World.put (w : World) (place : String) (file : DiskFile) : World :=
  { w with
    disk := Function.update w.disk place (some file)
    generations := Function.update w.generations file.epoch (some file.content) }

/-- The state behind the guard. -/
def World.grant (w : World) (session : String) : GuardVerdict → World
  | .authorized epoch => { w with granted := (session, epoch) :: w.granted }
  | .refused _ | .blind => w

/-- The ledger hears of a tool. -/
def World.call (canonicalize : String → Option String) (w : World) (session path : String)
    (action : LedgerAction) : World :=
  { w with ledger := LedgerCall.step canonicalize w.ledger ⟨session, path, action⟩ }

inductive FileEvent
  /-- Another program writes a file, or removes it. -/
  | replace (place : String) (file : DiskFile)
  | unlink (place : String)
  /-- An armed `read_file` of a session shows a part of the file. -/
  | read (session path : String) (file : DiskFile) (view : View)
  /-- The guard of `write_file` looks at an existing file. -/
  | guard (session path : String) (verdict : GuardVerdict)
  | write (session place : String) (expected : Option ViewEpoch) (written : DiskFile)
  /-- `note_full_write` of a written content; `found` is the file that the stat is of. -/
  | note (session path : String) (content : List UInt8) (found : Option DiskFile)
  /-- A checked write met another generation, or a formatter rewrote the file. -/
  | forget (session path : String)

/-- What may happen next.  A path is resolved anew at every call, and the file that a tool
reads or stats may be gone from the disk by the time that the ledger hears of it. -/
inductive FileStep : World → FileEvent → World → Prop
  | replace {w : World} {place : String} {file : DiskFile} :
      w.Fresh file → FileStep w (.replace place file) (w.put place file)
  | unlink {w : World} {place : String} :
      FileStep w (.unlink place) { w with disk := Function.update w.disk place none }
  /-- The epoch of a view is the one of the descriptor that was read, when it has one; the
  bytes are the file's own, unless the view is a decode. -/
  | read {canonicalize : String → Option String} {w : World} {session path : String}
      {file : DiskFile} {view : View} :
      w.Known file → (view.epoch = none ∨ view.epoch = some file.epoch) →
      (view.transformed = false → view.totalBytes = file.content.length) →
      FileStep w (.read session path file view) (w.call canonicalize session path (.view view))
  | guard {canonicalize : String → Option String} {w : World} {session path : String}
      {current : Option ViewEpoch} {verdict : GuardVerdict} :
      overwriteGuard session (viewStatus canonicalize w.ledger session path) current = verdict →
      FileStep w (.guard session path verdict) (w.grant session verdict)
  /-- A write that the guard authorized compares the generation of the descriptor it
  truncates; any other writes at once. -/
  | write {w : World} {session place : String} {expected : Option ViewEpoch} {written : DiskFile} :
      (∀ e, expected = some e → (session, e) ∈ w.granted ∧
        ∃ file, w.disk place = some file ∧ file.epoch = e) →
      w.Fresh written →
      FileStep w (.write session place expected written)
        { w.put place written with noting := (session, written.content) :: w.noting }
  | note {canonicalize : String → Option String} {w : World} {session path : String}
      {content : List UInt8} {found : Option DiskFile} :
      (session, content) ∈ w.noting → (∀ file, found = some file → w.Known file) →
      FileStep w (.note session path content found)
        { w.call canonicalize session path (.fullWrite (found.map DiskFile.epoch) content.length) with
          noting := w.noting.erase (session, content) }
  | forget {canonicalize : String → Option String} {w : World} {session path : String} :
      FileStep w (.forget session path) (w.call canonicalize session path .forget)

/-! ## What a session has seen -/

/-- The session was shown this byte of this content as it is, or found the content where it
had just written as many bytes. -/
def SeenByte (es : List FileEvent) (session : String) (content : List UInt8) (b : Nat) : Prop :=
  (∃ path file view, FileEvent.read session path file view ∈ es ∧ file.content = content ∧
    view.tainted = false ∧ view.transformed = false ∧ view.byteStart ≤ b ∧ b < view.byteEnd) ∨
  ∃ path written file, FileEvent.note session path written (some file) ∈ es ∧
    file.content = content ∧ content.length = written.length

/-- A record without a flag says what was seen of a generation. -/
def Honest (es : List FileEvent) (w : World) (session : String) (record : ViewRecord) : Prop :=
  ∀ e, record.epoch = some e → record.tainted = false → record.transformed = false →
    ∃ content, w.generations e = some content ∧ record.totalBytes = content.length ∧
      ∀ b < record.seenThrough, SeenByte es session content b

/-- What the events so far say of the world. -/
structure Accounted (es : List FileEvent) (w : World) : Prop where
  disk : ∀ place file, w.disk place = some file → w.Known file
  entries : ∀ (key : LedgerKey) record, w.ledger.entries[key]? = some record → Honest es w key.1 record
  granted : ∀ session e, (session, e) ∈ w.granted → ∃ content, w.generations e = some content ∧
    ∀ b < content.length, SeenByte es session content b

variable {es : List FileEvent} {w w' : World} {session : String}

theorem SeenByte.later {content : List UInt8} {b : Nat} (h : SeenByte es session content b)
    (e : FileEvent) : SeenByte (es ++ [e]) session content b := by
  rcases h with ⟨p, file, view, hmem, h⟩ | ⟨p, written, file, hmem, h⟩
  · exact Or.inl ⟨p, file, view, List.mem_append_left _ hmem, h⟩
  · exact Or.inr ⟨p, written, file, List.mem_append_left _ hmem, h⟩

theorem Honest.later {record : ViewRecord} (h : Honest es w session record)
    (hgen : ∀ e content, w.generations e = some content → w'.generations e = some content) (e : FileEvent) :
    Honest (es ++ [e]) w' session record := by
  intro epoch hepoch htaint htrans
  obtain ⟨content, hcontent, htotal, hseen⟩ := h epoch hepoch htaint htrans
  exact ⟨content, hgen _ _ hcontent, htotal, fun b hb => (hseen b hb).later e⟩

/-- An event keeps the account if generations stay, files have theirs, and what is new among
entries and grants is so. -/
theorem Accounted.next {e : FileEvent} (h : Accounted es w)
    (hgen : ∀ e content, w.generations e = some content → w'.generations e = some content)
    (hdisk : ∀ place file, w'.disk place = some file → w'.Known file)
    (hentries : ∀ (key : LedgerKey) record, w'.ledger.entries[key]? = some record →
      w.ledger.entries[key]? = some record ∨ Honest (es ++ [e]) w' key.1 record)
    (hgranted : ∀ session epoch, (session, epoch) ∈ w'.granted → (session, epoch) ∈ w.granted ∨
      ∃ content, w'.generations epoch = some content ∧
        ∀ b < content.length, SeenByte (es ++ [e]) session content b) :
    Accounted (es ++ [e]) w' := by
  refine ⟨hdisk, ?_, ?_⟩
  · intro key record hget
    rcases hentries key record hget with hold | hnew
    · exact (h.entries key record hold).later hgen e
    · exact hnew
  · intro session epoch hmem
    rcases hgranted session epoch hmem with hold | hnew
    · obtain ⟨content, hcontent, hseen⟩ := h.granted session epoch hold
      exact ⟨content, hgen _ _ hcontent, fun b hb => (hseen b hb).later e⟩
    · exact hnew

/-- A fresh generation leaves the content of every other. -/
theorem put_generations (place : String) {file : DiskFile} (hfresh : w.Fresh file) (epoch : ViewEpoch)
    (content : List UInt8) (h : w.generations epoch = some content) :
    (w.put place file).generations epoch = some content := by
  have hne : epoch ≠ file.epoch := by
    rintro rfl
    rw [hfresh] at h
    cases h
  exact (Function.update_of_ne hne _ _).trans h

theorem put_known (place : String) (file : DiskFile) : (w.put place file).Known file := by
  exact Function.update_self _ _ _

theorem put_disk {place : String} {file : DiskFile} (hfresh : w.Fresh file)
    (h : ∀ place file, w.disk place = some file → w.Known file) (place' : String) (file' : DiskFile)
    (hget : (w.put place file).disk place' = some file') : (w.put place file).Known file' := by
  replace hget : Function.update w.disk place (some file) place' = some file' := hget
  by_cases hplace : place' = place
  · subst hplace
    rw [Function.update_self] at hget
    obtain rfl := Option.some.inj hget
    exact put_known place' file
  · rw [Function.update_of_ne hplace] at hget
    exact put_generations place hfresh _ _ (h place' file' hget)

/-- **The step lemma of a view.**  It adds its own bytes to what is carried over, and carries
over only what it is told of the same generation. -/
theorem honest_view {path : String} {file : DiskFile} {view : View} {prev : Option ViewRecord}
    (hfile : w.Known file) (hepoch : view.epoch = none ∨ view.epoch = some file.epoch)
    (htotal : view.transformed = false → view.totalBytes = file.content.length)
    (hprev : ∀ record, prev = some record → Honest es w session record) :
    Honest (es ++ [.read session path file view]) w session (viewRecord prev view) := by
  intro e he htaint htrans
  simp only [viewRecord] at he htaint htrans ⊢
  rw [Bool.or_eq_false_iff] at htaint htrans
  obtain rfl : e = file.epoch := by
    rcases hepoch with h | h <;> rw [h] at he
    · cases he
    · exact (Option.some.inj he).symm
  refine ⟨file.content, hfile, htotal htrans.2, fun b hb => ?_⟩
  by_cases hold : b < (carriedOver prev view.epoch).1
  · -- the byte was seen before, under the same epoch
    cases prev with
    | none => exact absurd hold (Nat.not_lt_zero b)
    | some record =>
        rw [carriedOver] at hold htaint htrans
        split at hold
        · next hsame =>
            rw [if_pos hsame] at htaint htrans
            obtain ⟨content, hcontent, -, hseen⟩ :=
              hprev record rfl file.epoch (hsame.2.trans he) htaint.1 htrans.1
            obtain rfl := Option.some.inj (hcontent.symm.trans hfile)
            exact (hseen b hold).later _
        · exact absurd hold (Nat.not_lt_zero b)
  · -- the byte is new, so the view starts no later than the old mark
    refine Or.inl ⟨path, file, view, by simp, rfl, htaint.2, htrans.2, ?_⟩
    split at hb
    · next hstart => exact ⟨by omega, by omega⟩
    · exact absurd hb hold

theorem overwriteGuard_authorized {session : String} {status : ViewStatus} {current : Option ViewEpoch}
    {epoch : ViewEpoch} (h : overwriteGuard session status current = .authorized epoch) :
    status = .complete epoch := by
  unfold overwriteGuard at h
  split at h
  · split at h
    · split at h <;> cases h
    · cases h
  · split at h
    · split at h
      · next heq =>
          rw [heq, GuardVerdict.authorized.inj h]
      · cases h
    any_goals cases h
    split at h <;> cases h

/-- What makes a view complete. -/
theorem viewStatus_complete {canonicalize : String → Option String} {ledger : ViewLedger}
    {session path : String} {epoch : ViewEpoch}
    (h : viewStatus canonicalize ledger session path = .complete epoch) :
    ∃ record, ledger.entries[ledgerKey canonicalize session path]? = some record ∧
      record.epoch = some epoch ∧ record.tainted = false ∧ record.transformed = false ∧
      record.totalBytes ≤ record.seenThrough := by
  rw [viewStatus] at h
  split at h
  · cases h
  next record hget =>
  split at h
  · cases h
  split at h
  · cases h
  next htaint htrans =>
  split at h
  · next e hepoch =>
      split at h
      · next hseen =>
          obtain rfl := ViewStatus.complete.inj h
          exact ⟨record, hget, hepoch, eq_false_of_ne_true htaint, eq_false_of_ne_true htrans, hseen⟩
      · cases h
  · cases h

theorem accounted_step {e : FileEvent} (h : Accounted es w)
    (hstep : FileStep w e w') : Accounted (es ++ [e]) w' := by
  cases hstep with
  | @replace _ place file hfresh =>
      exact h.next (put_generations place hfresh) (put_disk hfresh h.disk) (fun _ _ hget => Or.inl hget)
        (fun _ _ hmem => Or.inl hmem)
  | @unlink _ place =>
      refine h.next (fun _ _ hgen => hgen) ?_ (fun _ _ hget => Or.inl hget) (fun _ _ hmem => Or.inl hmem)
      intro place' file hget
      replace hget : Function.update w.disk place none place' = some file := hget
      by_cases hplace : place' = place
      · rw [hplace, Function.update_self] at hget
        cases hget
      · rw [Function.update_of_ne hplace] at hget
        exact h.disk place' file hget
  | @read _ _ session path file view hknown hepoch htotal =>
      refine h.next (fun _ _ hgen => hgen) h.disk ?_ (fun _ _ hmem => Or.inl hmem)
      intro key record hget
      rcases step_cases hget with hold | ⟨rfl, hrec⟩
      · exact Or.inl hold
      · obtain rfl := Option.some.inj hrec
        exact Or.inr (honest_view hknown hepoch htotal (fun r hr => h.entries _ r hr))
  | @guard _ _ session path current verdict hverdict =>
      cases verdict with
      | authorized epoch =>
          refine h.next (fun _ _ hgen => hgen) h.disk (fun _ _ hget => Or.inl hget) ?_
          intro other e hmem
          rcases List.mem_cons.mp hmem with heq | hmem
          · obtain ⟨rfl, rfl⟩ := Prod.mk.inj heq
            obtain ⟨record, hget, hepoch, htaint, htrans, hwhole⟩ :=
              viewStatus_complete (overwriteGuard_authorized hverdict)
            obtain ⟨content, hcontent, htotal, hseen⟩ := h.entries _ _ hget e hepoch htaint htrans
            exact Or.inr ⟨content, hcontent, fun b hb => (hseen b (by omega)).later _⟩
          · exact Or.inl hmem
      | refused | blind =>
          exact h.next (fun _ _ hgen => hgen) h.disk (fun _ _ hget => Or.inl hget) (fun _ _ hmem => Or.inl hmem)
  | @write _ session place expected written hchecked hfresh =>
      exact h.next (put_generations place hfresh) (put_disk hfresh h.disk) (fun _ _ hget => Or.inl hget)
        (fun _ _ hmem => Or.inl hmem)
  | @note _ _ session path written found hmem hknown =>
      refine h.next (fun _ _ hgen => hgen) h.disk ?_ (fun _ _ hmem => Or.inl hmem)
      intro key record hget
      rcases step_cases hget with hold | ⟨rfl, hrec⟩
      · exact Or.inl hold
      right
      cases found with
      | none => cases hrec
      | some file =>
          simp only [Option.map_some, LedgerAction.recorded] at hrec
          split at hrec
          · next hwritten =>
              obtain rfl := Option.some.inj hrec
              intro e he _ _
              obtain rfl := Option.some.inj he
              refine ⟨file.content, hknown file rfl, file.size_eq, fun b _ => ?_⟩
              exact Or.inr ⟨path, written, file, List.mem_append_right _ (List.mem_singleton.mpr rfl), rfl,
                file.size_eq.symm.trans hwritten⟩
          · cases hrec
  | forget =>
      refine h.next (fun _ _ hgen => hgen) h.disk ?_ (fun _ _ hmem => Or.inl hmem)
      intro key record hget
      rcases step_cases hget with hold | ⟨-, hrec⟩
      · exact Or.inl hold
      · cases hrec

theorem accounted_run (hrun : Run FileStep World.start es w) : Accounted es w := by
  refine hrun.history (I := fun _ => True) (fun _ _ _ _ _ => trivial)
    (fun _ _ _ _ _ hacc hstep => accounted_step hacc hstep) trivial ⟨?_, ?_, ?_⟩
  · intro _ _ h
    cases h
  · intro key record h
    rw [World.start, Recency.empty, Std.ExtHashMap.getElem?_empty] at h
    cases h
  · intro _ _ h
    cases h

/-- **Nothing unseen is overwritten.**  However many sessions and other programs read, write,
replace and remove files, in whatever order: when `write_file` rebuilds a file under an
authorization of its guard, every byte that goes was shown to the session, as it is, or is of a
content that the session found where it had just written one of the same length. -/
theorem overwritten_was_seen {es : List FileEvent} {w w' : World} (hrun : Run FileStep World.start es w)
    {session place : String} {epoch : ViewEpoch} {written : DiskFile}
    (hwrite : FileStep w (.write session place (some epoch) written) w') :
    ∃ file, w.disk place = some file ∧ ∀ b < file.content.length, SeenByte es session file.content b := by
  have hacc := accounted_run hrun
  cases hwrite with
  | write hchecked =>
      obtain ⟨hgrant, file, hdisk, rfl⟩ := hchecked epoch rfl
      obtain ⟨content, hcontent, hseen⟩ := hacc.granted _ _ hgrant
      -- one generation has one content
      obtain rfl := Option.some.inj (hcontent.symm.trans (hacc.disk _ _ hdisk))
      exact ⟨file, hdisk, hseen⟩

def noteFile : DiskFile :=
  ⟨⟨1, 3, some 1, some 7⟩, [104, 105, 10], rfl⟩

def noteView : View :=
  ⟨some noteFile.epoch, 0, 3, 3, false, false⟩

/-- The note behind its read and the guard. -/
def noteWorld : World :=
  ((World.start.put "note" noteFile).call (fun _ => none) "s" "note" (.view noteView)).grant "s"
    (.authorized noteFile.epoch)

theorem overwritten_note_was_seen : ∃ file, noteWorld.disk "note" = some file ∧
    ∀ b < file.content.length, SeenByte
      [.replace "note" noteFile, .read "s" "note" noteFile noteView, .guard "s" "note" (.authorized noteFile.epoch)]
      "s" file.content b := by
  have hput : FileStep World.start (.replace "note" noteFile) (World.start.put "note" noteFile) :=
    .replace rfl
  have hread : FileStep _ (.read "s" "note" noteFile noteView)
      ((World.start.put "note" noteFile).call (fun _ => none) "s" "note" (.view noteView)) :=
    .read (put_known "note" noteFile) (Or.inr rfl) (fun _ => rfl)
  have hcomplete : viewStatus (fun _ => none)
      (recordView (fun _ => none) Recency.empty "s" "note" noteView) "s" "note" = .complete noteFile.epoch := by
    rw [viewStatus, recordView, if_neg (by decide), Recency.insert, Recency.touchAndEvict, Recency.evict_of_le
      (by simp [Recency.empty, Std.ExtHashMap.size_insert, maxLedgerEntries]), Std.ExtHashMap.getElem?_insert_self,
      Recency.empty, Std.ExtHashMap.getElem?_empty]
    rfl
  have hguard : FileStep _ (.guard "s" "note" (.authorized noteFile.epoch)) noteWorld :=
    .guard ((congrArg (fun status => overwriteGuard "s" status (some noteFile.epoch)) hcomplete).trans rfl)
  have hnew : (⟨2, 1, some 2, some 7⟩ : ViewEpoch) ≠ noteFile.epoch := by decide
  have hfresh : noteWorld.Fresh ⟨⟨2, 1, some 2, some 7⟩, [33], rfl⟩ :=
    Function.update_of_ne hnew (some noteFile.content) _
  exact overwritten_was_seen (((Run.single hput).append (.single hread)).append (.single hguard))
    (.write (fun e he => ⟨Option.some.inj he ▸ List.mem_cons_self, noteFile, rfl, Option.some.inj he⟩) hfresh :
      FileStep noteWorld (.write "s" "note" (some noteFile.epoch) _) _)

end Octos.Tools
