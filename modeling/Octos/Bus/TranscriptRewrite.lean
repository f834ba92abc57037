/-
# `Octos.Bus.TranscriptRewrite` — rewriting a session from its window

A handle has loaded the active file and some of the segments before it; the
other segments are outside its window.  Appends and seals through the handle and
rewrites leave the outside alone, and the handle's messages are the fold of what
is inside.  The counters in memory drift from the disk, but their difference,
the number of segments outside, does not.

A rewrite writes the folded messages in the place of the rows inside.  That is
the same history exactly when the fold of the whole history is the fold of the
outside followed by the fold of the inside.
-/
import Octos.Bus.TranscriptFold

namespace Octos.Bus.Transcript

variable {z : Sizes}

/-! ## Loads -/

theorem Sizes.file_bytes (z : Sizes) (header : SessionMeta) (rows : List TimelineItem) :
    (z.file header rows).bytes ≠ 0 := by
  have hpos := z.metaPositive header
  show z.metaBytes header + _ ≠ 0
  omega

theorem readSegment_sizes (z : Sizes) (header : SessionMeta) (rows : List TimelineItem) :
    readSegment (some (z.file header rows)) = some (header, z.file header rows) :=
  readSegment_some rfl (z.file_bytes header rows)

theorem openActive_spec {d d₁ : Disk} {header : SessionMeta} {file : SegmentFile}
    (h : d.openActive z = some (header, file, d₁)) :
    d₁.active = some file ∧ readSegment (some file) = some (header, file) := by
  unfold Disk.openActive at h
  split at h
  · next hread =>
      obtain ⟨rfl, rfl, rfl⟩ := by simpa using h
      obtain ⟨hactive, hheader, hbytes⟩ := readSegment_file hread
      exact ⟨hactive, readSegment_some hheader hbytes⟩
  · split at h
    · cases h
    · next f hrecover =>
        obtain ⟨hd, hhd, heq⟩ := Option.map_eq_some_iff.mp h
        obtain ⟨rfl, rfl, rfl⟩ := by simpa using heq
        refine ⟨rfl, ?_⟩
        simp only [Disk.recoverActiveAfterSeal] at hrecover
        split at hrecover
        · cases hrecover
        · split at hrecover
          · cases hrecover
          · split at hrecover
            · cases hrecover
            · obtain rfl := Option.some.inj hrecover
              obtain rfl := Option.some.inj hhd
              exact readSegment_sizes z _ _

/-- The full history of a disk whose active file can be read. -/
theorem history_eq {d : Disk} {header : SessionMeta} {file : SegmentFile}
    (hactive : d.active = some file) (hread : readSegment (some file) = some (header, file)) :
    d.history z = some (foldTimeline
      ((readDown d.segments header.sealedSegments).flatMap SegmentFile.rows ++ file.rows)) := by
  have hopen : d.openActive z = some (header, file, d) := by
    simp only [Disk.openActive, hactive, hread]
  simp only [Disk.history, Disk.loadWindow, hopen, Option.map_some, loadSegments_all, List.append_nil]

/-- What a load returns: the rows of the segments next to the active file. -/
theorem loadWindow_spec {d d₁ : Disk} {budget : Option Nat} {w : Window}
    (h : d.loadWindow z budget = some (w, d₁)) :
    ∃ header file, d₁.active = some file ∧ readSegment (some file) = some (header, file) ∧
      w.sealedSegments = header.sealedSegments ∧ w.loadedSealed ≤ w.sealedSegments ∧
      Readable d₁.segments (w.sealedSegments - w.loadedSealed) w.sealedSegments ∧
      w.timeline = (between d₁.segments (w.sealedSegments - w.loadedSealed)
        w.sealedSegments).flatMap SegmentFile.rows ++ file.rows := by
  unfold Disk.loadWindow at h
  split at h
  · cases h
  · next header file d' hopen =>
      obtain ⟨rfl, rfl⟩ := Prod.mk.inj (Option.some.inj h)
      obtain ⟨hactive, hread⟩ := openActive_spec hopen
      obtain ⟨n, hn, hreadable, hloaded, hlen⟩ := @loadSegments_window d'.segments budget
        header.sealedSegments file.bytes header.baseSeq []
      rw [List.append_nil] at hloaded
      refine ⟨header, file, hactive, hread, rfl, ?_, ?_, ?_⟩
      · show List.length _ ≤ _
        rw [hloaded, hlen]
        exact hn
      · show Readable _ (_ - List.length _) _
        rw [hloaded, hlen]
        exact hreadable
      · show List.flatMap _ _ ++ _ = (between _ (_ - List.length _) _).flatMap _ ++ _
        rw [hloaded, hlen]

/-! ## A handle and its disk -/

/-- A session in memory and the files it was loaded from. -/
structure Held where
  session : Session
  disk : Disk

/-- What is done through a handle. -/
inductive HandleOp where
  | append (message : Message) (uuid : String)
  | rewrite (kept : List Nat)

/-- One operation; a message without a thread that needs one is refused. -/
def Held.step (z : Sizes) (h : Held) : HandleOp → Held
  | .append message uuid =>
      match stamp uuid message with
      | none => h
      | some m =>
          let r := h.session.append z h.disk m
          ⟨r.1, r.2⟩
  | .rewrite kept => ⟨h.session, h.session.rewrite z h.disk kept⟩

def Held.run (z : Sizes) (h : Held) (ops : List HandleOp) : Held :=
  ops.foldl (Held.step z) h

/-- The rows inside the window, when the active file owns `k` segments. -/
def Held.inside (h : Held) (k : Nat) (file : SegmentFile) : List TimelineItem :=
  (between h.disk.segments h.session.remainingSealed k).flatMap SegmentFile.rows ++ file.rows

/-- The handle mirrors its disk: the rows outside are `outside`, the messages are
the fold of the rows inside, and the two folds do not mix. -/
structure Mirrors (outside : List TimelineItem) (h : Held) (header : SessionMeta) (file : SegmentFile) :
    Prop where
  active : h.disk.active = some file
  read : readSegment (some file) = some (header, file)
  counters : h.session.loadedSealed ≤ h.session.sealedSegments
  lower : h.session.remainingSealed ≤ header.sealedSegments
  upper : header.sealedSegments ≤ h.session.sealedSegments
  readable : Readable h.disk.segments h.session.remainingSealed header.sealedSegments
  outside_eq : outside = (readDown h.disk.segments h.session.remainingSealed).flatMap SegmentFile.rows
  messages : foldTimeline (h.inside header.sealedSegments file) = h.session.messages

/-- The folds of the outside and of the inside do not mix. -/
def Apart (outside inside : List TimelineItem) : Prop :=
  foldTimeline (outside ++ inside) = foldTimeline outside ++ foldTimeline inside

section Mirror

variable {outside : List TimelineItem} {h : Held} {header : SessionMeta} {file : SegmentFile}

/-- The history of a mirrored disk. -/
theorem Mirrors.history (hm : Mirrors outside h header file) :
    h.disk.history z = some (foldTimeline (outside ++ h.inside header.sealedSegments file)) := by
  rw [history_eq hm.active hm.read, readDown_split hm.lower hm.readable, hm.outside_eq,
    List.flatMap_append, List.append_assoc]
  rfl

/-- A handle that was just loaded. -/
theorem mirrors_load {d d₁ : Disk} {budget : Option Nat} {w : Window}
    (hload : d.loadWindow z budget = some (w, d₁)) :
    ∃ header file,
      Mirrors ((readDown d₁.segments (w.sealedSegments - w.loadedSealed)).flatMap SegmentFile.rows)
        ⟨.ofWindow w, d₁⟩ header file ∧
      Held.inside ⟨.ofWindow w, d₁⟩ header.sealedSegments file = w.timeline := by
  obtain ⟨header, file, hactive, hread, hsealed, hle, hreadable, htimeline⟩ := loadWindow_spec hload
  have hinside : Held.inside ⟨.ofWindow w, d₁⟩ header.sealedSegments file = w.timeline := by
    rw [htimeline, ← hsealed]
    rfl
  refine ⟨header, file, ?_, hinside⟩
  exact {
    active := hactive
    read := hread
    counters := hle
    lower := by
      show w.sealedSegments - w.loadedSealed ≤ _
      omega
    upper := Nat.le_of_eq hsealed.symm
    readable := by
      rw [← hsealed]
      exact hreadable
    outside_eq := rfl
    messages := by
      rw [hinside]
      rfl }

/-- A settled message at the end of the inside. -/
theorem Apart.message {inside : List TimelineItem} (ha : Apart outside inside) {m : Message}
    (hm : Settled m) : Apart outside (inside ++ [.message m]) := by
  unfold Apart at ha ⊢
  rw [← List.append_assoc, foldTimeline_message hm, foldTimeline_message hm, ha, List.append_assoc]

/-- An append through the handle. -/
theorem Mirrors.append (hm : Mirrors outside h header file) {m : Message} (hs : Settled m) :
    ∃ header' file', Mirrors outside ⟨(h.session.append z h.disk m).1, (h.session.append z h.disk m).2⟩
        header' file' ∧
      Held.inside ⟨(h.session.append z h.disk m).1, (h.session.append z h.disk m).2⟩
        header'.sealedSegments file' = h.inside header.sealedSegments file ++ [.message m] := by
  obtain ⟨-, hheader, hbytes⟩ := readSegment_file hm.read
  obtain ⟨session, disk⟩ := h
  have hactive : disk.active = some file := hm.active
  by_cases hroll : z.segmentBytes ≤ file.bytes
  · -- the active file becomes the next segment of its own chain
    have hwritten : disk.appendRowRolling z session.nextSeq (.message m) =
        ({ active := some (z.file ⟨header.sealedSegments + 1, session.nextSeq⟩ [.message m])
           segments := disk.segments.insert (header.sealedSegments + 1) file }, true) := by
      simp only [Disk.appendRowRolling, hactive, hheader, if_pos hroll, Option.map_some,
        Option.getD_some]
    have happ : session.append z disk m = ({ session with
        messages := session.messages ++ [m]
        sealedSegments := session.sealedSegments + 1
        loadedSealed := session.loadedSealed + 1 },
        { active := some (z.file ⟨header.sealedSegments + 1, session.nextSeq⟩ [.message m])
          segments := disk.segments.insert (header.sealedSegments + 1) file }) := by
      simp only [Session.append, hwritten, if_true]
    have hlow := hm.lower
    have hrem : Session.remainingSealed { session with
        messages := session.messages ++ [m]
        sealedSegments := session.sealedSegments + 1
        loadedSealed := session.loadedSealed + 1 } = session.remainingSealed := by
      show session.sealedSegments + 1 - (session.loadedSealed + 1) = _
      rw [Nat.add_sub_add_right]
      rfl
    have hsame : ∀ i, i ≤ header.sealedSegments →
        (disk.segments.insert (header.sealedSegments + 1) file)[i]? = disk.segments[i]? :=
      fun i hi => Table.get_insert_ne _ _ (by omega)
    have hinside : Held.inside ⟨{ session with
        messages := session.messages ++ [m]
        sealedSegments := session.sealedSegments + 1
        loadedSealed := session.loadedSealed + 1 },
        { active := some (z.file ⟨header.sealedSegments + 1, session.nextSeq⟩ [.message m])
          segments := disk.segments.insert (header.sealedSegments + 1) file }⟩
        (header.sealedSegments + 1) (z.file ⟨header.sealedSegments + 1, session.nextSeq⟩ [.message m]) =
        Held.inside ⟨session, disk⟩ header.sealedSegments file ++ [.message m] := by
      simp only [Held.inside, hrem]
      rw [between_succ hlow (Table.get_insert_self _ _ _), between_congr (fun i _ hi => hsame i hi),
        List.flatMap_append]
      simp [Sizes.file]
    rw [happ]
    refine ⟨⟨header.sealedSegments + 1, session.nextSeq⟩,
      z.file ⟨header.sealedSegments + 1, session.nextSeq⟩ [.message m], ?_, hinside⟩
    exact {
      active := rfl
      read := readSegment_sizes z _ _
      counters := Nat.succ_le_succ hm.counters
      lower := by
        rw [hrem]
        exact Nat.le_succ_of_le hlow
      upper := Nat.succ_le_succ hm.upper
      readable := by
        rw [hrem]
        intro i hi hik
        by_cases hlast : i = header.sealedSegments + 1
        · subst hlast
          show (readSegment (disk.segments.insert _ file)[header.sealedSegments + 1]?).isSome = true
          rw [Table.get_insert_self, hm.read]
          rfl
        · have hle : i ≤ header.sealedSegments := by
            have : i ≤ header.sealedSegments + 1 := hik
            omega
          show (readSegment (disk.segments.insert _ file)[i]?).isSome = true
          rw [hsame i hle]
          exact hm.readable i hi hle
      outside_eq := by
        rw [hrem, hm.outside_eq]
        show _ = (readDown (disk.segments.insert _ file) _).flatMap _
        rw [readDown_congr (fun i hi => hsame i (Nat.le_trans hi hlow))]
      messages := by
        rw [hinside, foldTimeline_message hs, hm.messages] }
  · have hwritten : disk.appendRowRolling z session.nextSeq (.message m) =
        ({ disk with active := some (file.append z (.message m)) }, false) := by
      simp only [Disk.appendRowRolling, hactive, if_neg hroll, if_neg hbytes]
    have happ : session.append z disk m = ({ session with messages := session.messages ++ [m] },
        { disk with active := some (file.append z (.message m)) }) := by
      simp only [Session.append, hwritten, Bool.false_eq_true, if_false]
    have hinside : Held.inside ⟨{ session with messages := session.messages ++ [m] },
        { disk with active := some (file.append z (.message m)) }⟩ header.sealedSegments
        (file.append z (.message m)) =
        Held.inside ⟨session, disk⟩ header.sealedSegments file ++ [.message m] := by
      simp only [Held.inside, SegmentFile.append, ← List.append_assoc]
      rfl
    have hbytes' : (file.append z (.message m)).bytes ≠ 0 := by
      show file.bytes + _ ≠ 0
      omega
    rw [happ]
    refine ⟨header, file.append z (.message m), ?_, hinside⟩
    exact {
      active := rfl
      read := readSegment_some hheader hbytes'
      counters := hm.counters
      lower := hm.lower
      upper := hm.upper
      readable := hm.readable
      outside_eq := hm.outside_eq
      messages := by
        rw [hinside, foldTimeline_message hs, hm.messages] }

/-- A rewrite through the handle: the messages are the rows now. -/
theorem Mirrors.rewrite (hm : Mirrors outside h header file) (kept : List Nat) :
    ∃ header' file', Mirrors outside ⟨h.session, h.session.rewrite z h.disk kept⟩ header' file' ∧
      Held.inside ⟨h.session, h.session.rewrite z h.disk kept⟩ header'.sealedSegments file' =
        h.session.messages.map .message := by
  have hsettled : ∀ m ∈ h.session.messages, Settled m := by
    rw [← hm.messages]
    exact foldTimeline_settled _
  have hcount := hm.counters
  have hsame : ∀ i, i ≤ h.session.remainingSealed →
      (h.session.rewrite z h.disk kept).segments[i]? = h.disk.segments[i]? := by
    intro i hi
    show (List.foldl _ h.disk.segments _)[i]? = _
    rw [Table.get_foldl_erase, if_neg]
    intro hin
    have hmerged := (List.mem_filter.mp hin).1
    unfold Session.mergedSegments at hmerged
    split at hmerged
    · cases hmerged
    · rw [List.mem_range'_1] at hmerged
      omega
  have hinside : Held.inside ⟨h.session, h.session.rewrite z h.disk kept⟩ h.session.remainingSealed
      (z.file ⟨h.session.remainingSealed, h.session.baseSeq⟩ (h.session.messages.map .message)) =
      h.session.messages.map .message := by
    simp only [Held.inside, between_self, List.flatMap_nil, List.nil_append]
    rfl
  refine ⟨⟨h.session.remainingSealed, h.session.baseSeq⟩, _, ?_, hinside⟩
  exact {
    active := rfl
    read := readSegment_sizes z _ _
    counters := hcount
    lower := Nat.le_refl _
    upper := by
      show h.session.sealedSegments - h.session.loadedSealed ≤ h.session.sealedSegments
      omega
    readable := by
      intro i hi hik
      exact absurd hik (Nat.not_le_of_lt hi)
    outside_eq := by
      rw [hm.outside_eq]
      show _ = (readDown (h.session.rewrite z h.disk kept).segments _).flatMap _
      rw [readDown_congr hsame]
    messages := by
      rw [hinside]
      exact foldTimeline_only hsettled }

/-- Rewritten rows do not mix with the outside. -/
theorem apart_messages {ms : List Message} (h : ∀ m ∈ ms, Settled m) :
    Apart outside (ms.map .message) := by
  unfold Apart
  rw [foldTimeline_messages h, foldTimeline_only h]

/-- One operation keeps the mirror, and keeps the folds apart. -/
theorem Mirrors.step (hm : Mirrors outside h header file)
    (ha : Apart outside (h.inside header.sealedSegments file)) (op : HandleOp) :
    ∃ header' file', Mirrors outside (h.step z op) header' file' ∧
      Apart outside ((h.step z op).inside header'.sealedSegments file') := by
  cases op with
  | append message uuid =>
      cases hstamp : stamp uuid message with
      | none =>
          have hstep : h.step z (.append message uuid) = h := by
            simp only [Held.step, hstamp]
          rw [hstep]
          exact ⟨header, file, hm, ha⟩
      | some m =>
          have hs := stamp_settled hstamp
          have hstep : h.step z (.append message uuid) =
              ⟨(h.session.append z h.disk m).1, (h.session.append z h.disk m).2⟩ := by
            simp only [Held.step, hstamp]
          obtain ⟨header', file', hm', hinside⟩ := hm.append (z := z) hs
          rw [hstep]
          refine ⟨header', file', hm', ?_⟩
          rw [hinside]
          exact ha.message hs
  | rewrite kept =>
      obtain ⟨header', file', hm', hinside⟩ := hm.rewrite (z := z) kept
      refine ⟨header', file', hm', ?_⟩
      show Apart outside (Held.inside ⟨h.session, h.session.rewrite z h.disk kept⟩ _ _)
      rw [hinside]
      refine apart_messages ?_
      rw [← hm.messages]
      exact foldTimeline_settled _

theorem Mirrors.run (ops : List HandleOp) (hm : Mirrors outside h header file)
    (ha : Apart outside (h.inside header.sealedSegments file)) :
    ∃ header' file', Mirrors outside (h.run z ops) header' file' ∧
      Apart outside ((h.run z ops).inside header'.sealedSegments file') := by
  induction ops generalizing h header file with
  | nil => exact ⟨header, file, hm, ha⟩
  | cons op ops ih =>
      obtain ⟨header₁, file₁, hm₁, ha₁⟩ := hm.step (z := z) ha op
      exact ih hm₁ ha₁

/-- The history after a rewrite: the outside, and then the messages in memory. -/
theorem Mirrors.history_rewrite (hm : Mirrors outside h header file) (kept : List Nat) :
    (h.step z (.rewrite kept)).disk.history z =
      some (foldTimeline outside ++ foldTimeline (h.inside header.sealedSegments file)) := by
  obtain ⟨header', file', hm', hinside⟩ := hm.rewrite (z := z) kept
  have hsettled : ∀ m ∈ h.session.messages, Settled m := by
    rw [← hm.messages]
    exact foldTimeline_settled _
  show Disk.history z (Held.disk ⟨h.session, h.session.rewrite z h.disk kept⟩) = _
  rw [hm'.history, hinside, foldTimeline_messages hsettled, hm.messages]

end Mirror

/-! ## Rewrites keep the history -/

/-- The rows a window left out. -/
def Window.outside (w : Window) (d : Disk) : List TimelineItem :=
  (readDown d.segments (w.sealedSegments - w.loadedSealed)).flatMap SegmentFile.rows

/-- After a load, rewrites keep the full history, whatever was appended or
rewritten through the handle before and whichever segments could not be deleted,
exactly when the folds of the rows left out and of the window do not mix. -/
theorem rewrites_keep_history {d d₁ : Disk} {budget : Option Nat} {w : Window}
    (hload : d.loadWindow z budget = some (w, d₁)) :
    (∀ ops kept, ((Held.run z ⟨.ofWindow w, d₁⟩ ops).step z (.rewrite kept)).disk.history z =
        (Held.run z ⟨.ofWindow w, d₁⟩ ops).disk.history z) ↔
      Apart (w.outside d₁) w.timeline := by
  obtain ⟨header, file, hm, hinside⟩ := mirrors_load hload
  constructor
  · intro hkeep
    have hfirst := hkeep [] []
    rw [Held.run, List.foldl_nil, hm.history_rewrite, hm.history, hinside] at hfirst
    exact (Option.some.inj hfirst).symm
  · intro ha ops kept
    rw [← hinside] at ha
    obtain ⟨header', file', hm', ha'⟩ := hm.run (z := z) ops ha
    rw [hm'.history_rewrite, hm'.history]
    exact congrArg some ha'.symm

/-- Sizes in which a long message fills a file and a short one does not. -/
def contentSizes : Sizes where
  metaBytes := fun _ => 1
  rowBytes := fun row =>
    match row with
    | .message m => m.content.length
    | .rollback _ => 1
  segmentBytes := 4
  segmentPositive := by decide
  metaPositive := fun _ => Nat.one_pos

/-- A question in a segment, a second one in the active file. -/
def sealedOnce : Disk :=
  let first := Disk.appendRowRolling contentSizes ⟨none, ∅⟩ 0
    (.message ⟨.user, "long", some "t1", none⟩)
  (first.1.appendRowRolling contentSizes 1 (.message ⟨.user, "x", some "t2", none⟩)).1

/-- A load of `sealedOnce` that leaves the segment out. -/
theorem rewrites_keep_history_windowed :
    ∃ w d₁, sealedOnce.loadWindow contentSizes (some 5) = some (w, d₁) ∧
      w.sealedSegments = 1 ∧ w.loadedSealed = 0 ∧
      ∀ ops kept, ((Held.run contentSizes ⟨.ofWindow w, d₁⟩ ops).step contentSizes
          (.rewrite kept)).disk.history contentSizes =
        (Held.run contentSizes ⟨.ofWindow w, d₁⟩ ops).disk.history contentSizes := by
  have hw : (sealedOnce.loadWindow contentSizes (some 5)).map
      (fun r => (r.1.sealedSegments, r.1.loadedSealed, r.1.outside r.2, r.1.timeline)) =
      some (1, 0, [.message ⟨.user, "long", some "t1", none⟩],
        [.message ⟨.user, "x", some "t2", none⟩]) := by
    rfl
  obtain ⟨⟨w, d₁⟩, hload, heq⟩ := Option.map_eq_some_iff.mp hw
  obtain ⟨hsealed, hloaded, houtside, htimeline⟩ := by simpa using heq
  refine ⟨w, d₁, hload, hsealed, hloaded, ?_⟩
  refine (rewrites_keep_history hload).mpr ?_
  rw [houtside, htimeline]
  have hsettled : ∀ m ∈ [Message.mk .user "x" (some "t2") none], Settled m := by
    simp [Settled]
  exact apart_messages hsettled

/-- A marker for two turns behind the second question, whose file is loaded
alone: the rewrite loses the marker, and the first question is back. -/
theorem rewrite_revives_turn :
    ∃ w d₁, (sealedOnce.appendRowRolling contentSizes 1 (.rollback 2)).1.loadWindow contentSizes
        (some 5) = some (w, d₁) ∧
      d₁.history contentSizes = some [] ∧
      (Held.step contentSizes ⟨.ofWindow w, d₁⟩ (.rewrite [])).disk.history contentSizes =
        some [⟨.user, "long", some "t1", none⟩] := by
  have hw : ((sealedOnce.appendRowRolling contentSizes 1 (.rollback 2)).1.loadWindow contentSizes
      (some 5)).map (fun r => (r.2.history contentSizes,
        (Held.step contentSizes ⟨.ofWindow r.1, r.2⟩ (.rewrite [])).disk.history contentSizes)) =
      some (some [], some [⟨.user, "long", some "t1", none⟩]) := by
    rfl
  obtain ⟨⟨w, d₁⟩, hload, heq⟩ := Option.map_eq_some_iff.mp hw
  obtain ⟨hbefore, hafter⟩ := Prod.mk.inj heq
  exact ⟨w, d₁, hload, hbefore, hafter⟩

end Octos.Bus.Transcript
