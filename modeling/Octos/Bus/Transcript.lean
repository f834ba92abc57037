/-
# `Octos.Bus.Transcript` — session transcripts in segments

`session.rs`: a session is a JSONL file, the active one, and the segments that
were sealed before it.  A file is its meta line and its rows in order; a row is a
message or a rollback marker.  The meta of a file counts the segments before it
and the messages visible in them.  `load_session_window` reads the active file
and as many segments, newest first, as a byte budget allows, and folds their rows
into messages.

A row or a meta line has a size in bytes; the sizes and the limit at which a file
is sealed are the fields of `Sizes`.  Every write succeeds and every file that is
there can be read, except that the meta line may not parse.
-/
import Octos.Lib.Table

namespace Octos.Bus.Transcript

/-! ## Rows -/

/-- `MessageRole`. -/
inductive Role where
  | system
  | user
  | assistant
  | tool
  deriving DecidableEq

/-- `Message`, as far as the session store reads it. -/
structure Message where
  role : Role
  content : String
  threadId : Option String
  clientMessageId : Option String
  deriving DecidableEq

/-- `SessionTimelineItem`. -/
inductive TimelineItem where
  | message (message : Message)
  | rollback (numTurns : Nat)
  deriving DecidableEq

/-- `format!("synth_{seq}")` -/
def synthId (seq : Nat) : String :=
  "synth_" ++ toString seq

/-- The loop of `synthesize_thread_ids`: the position and the current thread. -/
def synthesizeFrom : Nat → Option String → List Message → List Message
  | _, _, [] => []
  | seq, current, m :: rest =>
      match m.threadId with
      | some thread =>
          m :: synthesizeFrom (seq + 1)
            (if m.role = .user ∨ m.role = .assistant then some thread else current) rest
      | none =>
          match m.role with
          | .system => m :: synthesizeFrom (seq + 1) current rest
          | .user =>
              let id := m.clientMessageId.getD (synthId seq)
              { m with threadId := some id } :: synthesizeFrom (seq + 1) (some id) rest
          | .assistant | .tool =>
              let id := current.getD (synthId seq)
              { m with threadId := some id } :: synthesizeFrom (seq + 1) (some id) rest

/-- `synthesize_thread_ids`. -/
def synthesizeThreadIds (messages : List Message) : List Message :=
  synthesizeFrom 0 none messages

/-- The distinct threads rooted by a user message, in order. -/
def userThreads (messages : List Message) : List String :=
  messages.foldl (fun threads m =>
    match m.role, m.threadId with
    | .user, some thread => if thread ∈ threads then threads else threads ++ [thread]
    | _, _ => threads) []

/-- `count_user_turns`. -/
def countUserTurns (messages : List Message) : Nat :=
  (userThreads messages).length

/-- The messages of other threads than these. -/
def withoutThreads (threads : List String) (messages : List Message) : List Message :=
  messages.filter (fun m => m.threadId.all (fun thread => !threads.contains thread))

/-- `drop_last_n_user_turns`: what is left, and how many turns went. -/
def dropLastNUserTurns (messages : List Message) (n : Nat) : List Message × Nat :=
  let threads := userThreads messages
  let dropCount := min n threads.length
  if dropCount = 0 then (messages, 0)
  else (withoutThreads (threads.drop (threads.length - dropCount)) messages, dropCount)

/-- One item of the fold; the flag says that a marker asked for more turns than
there were. -/
def foldItem (acc : List Message × Bool) : TimelineItem → List Message × Bool
  | .message m => (acc.1 ++ [m], acc.2)
  | .rollback numTurns =>
      let dropped := dropLastNUserTurns (synthesizeThreadIds acc.1) numTurns
      (dropped.1, acc.2 || decide (dropped.2 < numTurns))

/-- `fold_session_timeline_tracking_spill`. -/
def foldTrackingSpill (timeline : List TimelineItem) : List Message × Bool :=
  let folded := timeline.foldl foldItem ([], false)
  (synthesizeThreadIds folded.1, folded.2)

/-- `fold_session_timeline`. -/
def foldTimeline (timeline : List TimelineItem) : List Message :=
  (foldTrackingSpill timeline).1

/-- `derive_thread_id_for_new_write` and the stamp before a write: `none` when the
message is refused. -/
def stamp (uuid : String) (m : Message) : Option Message :=
  match m.threadId with
  | some _ => some m
  | none =>
      match m.role with
      | .system => some m
      | .user => some { m with threadId := some (m.clientMessageId.getD uuid) }
      | .assistant | .tool => none

/-! ## Files -/

/-- `SessionMeta`, as far as segments go. -/
structure SessionMeta where
  sealedSegments : Nat
  baseSeq : Nat
  deriving DecidableEq

/-- A file: its meta line, `none` when it does not parse, its rows and its size. -/
structure SegmentFile where
  header : Option SessionMeta
  rows : List TimelineItem
  bytes : Nat
  deriving DecidableEq

/-- The files of a session. -/
structure Disk where
  active : Option SegmentFile
  segments : Table Nat SegmentFile

/-- The sizes of lines, and `session_segment_bytes`. -/
structure Sizes where
  metaBytes : SessionMeta → Nat
  rowBytes : TimelineItem → Nat
  segmentBytes : Nat
  segmentPositive : 0 < segmentBytes
  metaPositive : ∀ header, 0 < metaBytes header

variable (z : Sizes)

/-- A file with these lines. -/
def Sizes.file (header : SessionMeta) (rows : List TimelineItem) : SegmentFile where
  header := some header
  rows := rows
  bytes := z.metaBytes header + (rows.map z.rowBytes).sum

/-- `read_segment`. -/
def readSegment (file : Option SegmentFile) : Option (SessionMeta × SegmentFile) :=
  file.bind (fun f => if f.bytes = 0 then none else f.header.map (fun header => (header, f)))

/-- The loop of `sealed_segment_count`. -/
def countSegments (segments : Table Nat SegmentFile) : Nat → Nat → Nat
  | 0, n => n
  | fuel + 1, n => if segments[n + 1]?.isSome then countSegments segments fuel (n + 1) else n

/-- `sealed_segment_count`. -/
def Disk.sealedSegmentCount (d : Disk) : Nat :=
  countSegments d.segments d.segments.size 0

/-- `SessionWindow`. -/
structure Window where
  timeline : List TimelineItem
  baseSeq : Nat
  sealedSegments : Nat
  loadedSealed : Nat
  deriving DecidableEq

/-- The loop of `load_session_window` from a segment down: the segments that are
read, oldest first, and the `base_seq` of the oldest. -/
def loadSegments (segments : Table Nat SegmentFile) (budget : Option Nat) :
    Nat → Nat → Nat → List SegmentFile → Nat × List SegmentFile
  | 0, _, base, loaded => (base, loaded)
  | index + 1, spent, base, loaded =>
      let size := (segments[index + 1]?.map SegmentFile.bytes).getD 0
      if budget.any (fun b => decide (b < spent + size)) then (base, loaded)
      else
        match readSegment segments[index + 1]? with
        | none => (base, loaded)
        | some (header, file) =>
            loadSegments segments budget index (spent + size) header.baseSeq (file :: loaded)

/-- `recover_active_after_seal`: the active file it writes. -/
def Disk.recoverActiveAfterSeal (d : Disk) : Option SegmentFile :=
  if d.active.any (fun file => decide (0 < file.bytes)) then none
  else
    let count := d.sealedSegmentCount
    if count = 0 then none
    else
      match readSegment d.segments[count]? with
      | none => none
      | some (header, file) =>
          some (z.file ⟨count, header.baseSeq + (foldTimeline file.rows).length⟩ [])

/-- The active file `load_session_window` reads, and the disk with it. -/
def Disk.openActive (d : Disk) : Option (SessionMeta × SegmentFile × Disk) :=
  match readSegment d.active with
  | some (header, file) => some (header, file, d)
  | none =>
      match d.recoverActiveAfterSeal z with
      | none => none
      | some file => file.header.map (fun header => (header, file, { d with active := some file }))

/-- `load_session_window`; `none` is an unlimited budget. -/
def Disk.loadWindow (d : Disk) (budget : Option Nat) : Option (Window × Disk) :=
  match d.openActive z with
  | none => none
  | some (header, file, d) =>
      let loaded := loadSegments d.segments budget header.sealedSegments file.bytes header.baseSeq []
      some ({
        timeline := loaded.2.flatMap SegmentFile.rows ++ file.rows
        baseSeq := loaded.1
        sealedSegments := header.sealedSegments
        loadedSealed := loaded.2.length }, d)

/-- The messages of a full-history load. -/
def Disk.history (d : Disk) : Option (List Message) :=
  (d.loadWindow z none).map (fun r => foldTimeline r.1.timeline)

/-- A row at the end of a file. -/
def SegmentFile.append (file : SegmentFile) (row : TimelineItem) : SegmentFile :=
  { file with rows := file.rows ++ [row], bytes := file.bytes + z.rowBytes row }

/-- `append_row_rolling`: the disk afterwards, and whether the active file was
sealed. -/
def Disk.appendRowRolling (d : Disk) (nextSeq : Nat) (row : TimelineItem) : Disk × Bool :=
  match d.active with
  | none => ({ d with active := some (z.file ⟨d.sealedSegmentCount, nextSeq⟩ [row]) }, false)
  | some file =>
      if z.segmentBytes ≤ file.bytes then
        let owned := (file.header.map SessionMeta.sealedSegments).getD d.sealedSegmentCount
        ({ active := some (z.file ⟨owned + 1, nextSeq⟩ [row])
           segments := d.segments.insert (owned + 1) file }, true)
      else if file.bytes = 0 then
        ({ d with active := some (z.file ⟨d.sealedSegmentCount, nextSeq⟩ [row]) }, false)
      else ({ d with active := some (file.append z row) }, false)

/-! ## Sessions in memory -/

/-- `Session`. -/
structure Session where
  messages : List Message
  baseSeq : Nat
  sealedSegments : Nat
  loadedSealed : Nat
  deriving DecidableEq

namespace Session

/-- `next_seq`. -/
def nextSeq (s : Session) : Nat :=
  s.baseSeq + s.messages.length

/-- The session of a window. -/
def ofWindow (w : Window) : Session :=
  ⟨foldTimeline w.timeline, w.baseSeq, w.sealedSegments, w.loadedSealed⟩

/-- The append of an accepted message, on disk and then in memory. -/
def append (s : Session) (d : Disk) (m : Message) : Session × Disk :=
  let written := d.appendRowRolling z s.nextSeq (.message m)
  ({ s with
      messages := s.messages ++ [m]
      sealedSegments := if written.2 then s.sealedSegments + 1 else s.sealedSegments
      loadedSealed := if written.2 then s.loadedSealed + 1 else s.loadedSealed }, written.1)

/-- The segments outside the window. -/
def remainingSealed (s : Session) : Nat :=
  s.sealedSegments - s.loadedSealed

/-- The segments a rewrite deletes. -/
def mergedSegments (s : Session) : List Nat :=
  if s.loadedSealed = 0 then []
  else List.range' (s.remainingSealed + 1) (s.sealedSegments - s.remainingSealed)

/-- `rewrite_active_from_window`; `kept` are the segments whose deletion fails. -/
def rewrite (s : Session) (d : Disk) (kept : List Nat) : Disk where
  active := some (z.file ⟨s.remainingSealed, s.baseSeq⟩ (s.messages.map .message))
  segments := (s.mergedSegments.filter (fun i => !kept.contains i)).foldl
    (fun segments i => segments.erase i) d.segments

end Session

end Octos.Bus.Transcript
