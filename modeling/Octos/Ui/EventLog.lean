/-
# `Octos.Ui.EventLog` — one session of the UI event ledger

`ui_protocol_ledger.rs`: a session's events are in a ring in memory, in log files, and in
a snapshot of the ring.  An append writes the record to the active log, pushes it on the
ring, and writes the snapshot when the seq is due; the log rotates by size, and a
rotation deletes the oldest files.

Reading the directory stitches the pieces together: when the snapshot reaches back far
enough for the cursor, its rows are taken and the log supplies what is behind its head;
otherwise the log supplies everything.

Writes succeed and are read back as they were.  The files of a session are listed in the
order of their names.
-/
import Mathlib

namespace Octos.Ui

/-! ## The data -/

/-- What the ledger reads of `LedgerConfig`. -/
structure LedgerConfig where
  retainedPerSession : Nat
  activeSessionCap : Nat
  rotateBytes : Nat
  retainedLogFiles : Nat
  snapshotEveryEvents : Nat

/-- What the ledger does with an event: the cursor is stamped into it, and its record
has a length. -/
structure EventCodec (E : Type) where
  withCursor : Nat → E → E
  lineBytes : Nat → E → Nat

/-- `LedgerDiskRecord`, `LedgerEntry`: an event under its seq. -/
structure Row (E : Type) where
  seq : Nat
  event : E
  deriving DecidableEq

/-- A log file. -/
structure LogFile (E : Type) where
  name : Nat
  rows : List (Row E)

/-- `SessionSnapshotFile`. -/
structure SnapshotFile (E : Type) where
  headSeq : Nat
  entries : List (Row E)

/-- The directory of a session. -/
structure SessionDir (E : Type) where
  logs : List (LogFile E)
  snapshot : Option (SnapshotFile E)

/-- `SessionLedger`. -/
structure SessionLedger (E : Type) where
  nextSeq : Nat
  entries : List (Row E)
  activeLog : Option Nat
  activeLogBytes : Nat

/-- `DiskSessionSnapshot`. -/
structure DiskSnapshot (E : Type) where
  activeLog : Nat
  activeLogBytes : Nat
  oldestSeq : Option Nat
  headSeq : Nat
  retained : List (Row E)
  replay : List (Row E)

variable {E : Type}

/-- `SessionLedger::new`. -/
def SessionLedger.new : SessionLedger E where
  nextSeq := 0
  entries := []
  activeLog := none
  activeLogBytes := 0

/-- A directory without files. -/
def SessionDir.empty : SessionDir E where
  logs := []
  snapshot := none

/-- The newest rows of a ring. -/
def keepLast (cap : Nat) (rows : List (Row E)) : List (Row E) :=
  rows.drop (rows.length - cap)

/-! ## Reading -/

/-- The check of a snapshot's rows: increasing, and up to the head. -/
def validRows (headSeq : Nat) : Nat → List (Row E) → Bool
  | _, [] => true
  | prev, row :: rows => decide (prev < row.seq) && decide (row.seq ≤ headSeq) && validRows headSeq row.seq rows

/-- `read_session_snapshot`; a snapshot that does not pass its check is not used. -/
def SessionDir.readSnapshot (dir : SessionDir E) : Option (SnapshotFile E) :=
  dir.snapshot.filter (fun snap => validRows snap.headSeq 0 snap.entries)

/-- What a read has collected. -/
structure Scan (E : Type) where
  oldestSeq : Option Nat
  headSeq : Nat
  retained : List (Row E)
  replay : List (Row E)

/-- One row taken into the ring, and into the replay when it is behind the cursor. -/
def Scan.take (cap : Nat) (after : Option Nat) (scan : Scan E) (row : Row E) : Scan E :=
  { scan with
    retained := keepLast cap (scan.retained ++ [row])
    replay := if after.any (fun after => after < row.seq) then scan.replay ++ [row] else scan.replay }

/-- One row of the snapshot. -/
def Scan.seed (cap : Nat) (after : Option Nat) (scan : Scan E) (row : Row E) : Scan E :=
  Scan.take cap after { scan with oldestSeq := scan.oldestSeq.or (some row.seq) } row

/-- One row of a log file; up to `skip` the snapshot has it. -/
def Scan.log (cap : Nat) (after : Option Nat) (skip : Nat) (scan : Scan E) (row : Row E) : Scan E :=
  let scan := { scan with
    oldestSeq := scan.oldestSeq.or (some row.seq)
    headSeq := max scan.headSeq row.seq }
  if row.seq ≤ skip then scan else Scan.take cap after scan row

/-- Whether the snapshot reaches back far enough. -/
def SnapshotFile.shortcut (snap : SnapshotFile E) (after : Option Nat) (fromBeginning : Bool) : Bool :=
  match snap.entries.head? with
  | none => false
  | some row =>
      decide (1 ≤ row.seq) &&
        match after with
        | none => true
        | some after => (after == 0 && fromBeginning) || decide (row.seq ≤ after + 1)

/-- What is known before the log is read, and the seq up to which the log is skipped. -/
def SessionDir.seeded (dir : SessionDir E) (cap : Nat) (after : Option Nat) (fromBeginning : Bool) :
    Scan E × Nat :=
  match dir.readSnapshot with
  | none => (⟨none, 0, [], []⟩, 0)
  | some snap =>
      if snap.shortcut after fromBeginning then
        (snap.entries.foldl (Scan.seed cap after) ⟨none, snap.headSeq, [], []⟩, snap.headSeq)
      else (⟨none, snap.headSeq, [], []⟩, 0)

/-- All rows of the log files. -/
def SessionDir.rows (dir : SessionDir E) : List (Row E) :=
  dir.logs.flatMap LogFile.rows

/-- The length of a log file. -/
def LogFile.bytes (codec : EventCodec E) (file : LogFile E) : Nat :=
  (file.rows.map (fun row => codec.lineBytes row.seq row.event)).sum

/-- `read_session_disk_snapshot`. -/
def SessionDir.read (cfg : LedgerConfig) (codec : EventCodec E) (dir : SessionDir E) (after : Option Nat)
    (fromBeginning : Bool) : Option (DiskSnapshot E) :=
  match dir.logs.getLast? with
  | none => none
  | some active =>
      let (scan, skip) := dir.seeded cfg.retainedPerSession after fromBeginning
      let scan := dir.rows.foldl (Scan.log cfg.retainedPerSession after skip) scan
      some
        { activeLog := active.name
          activeLogBytes := active.bytes codec
          oldestSeq := scan.oldestSeq
          headSeq := scan.headSeq
          retained := scan.retained
          replay := scan.replay }

/-- `hydrate_session_from_snapshot`. -/
def DiskSnapshot.hydrate (snap : DiskSnapshot E) : SessionLedger E where
  nextSeq := snap.headSeq
  entries := snap.retained
  activeLog := some snap.activeLog
  activeLogBytes := snap.activeLogBytes

/-! ## Writing -/

/-- One record appended to the file of that name, which is created if it is missing. -/
def writeRow (name : Nat) (row : Row E) : List (LogFile E) → List (LogFile E)
  | [] => [⟨name, [row]⟩]
  | file :: files =>
      if name < file.name then ⟨name, [row]⟩ :: file :: files
      else if name = file.name then { file with rows := file.rows ++ [row] } :: files
      else file :: writeRow name row files

/-- The files a rotation keeps. -/
def trimLogs (cfg : LedgerConfig) (logs : List (LogFile E)) : List (LogFile E) :=
  logs.drop (logs.length - (cfg.retainedLogFiles - 1))

/-- The append rotates the log. -/
def SessionLedger.rotates (cfg : LedgerConfig) (session : SessionLedger E) : Bool :=
  session.activeLog.isSome && decide (cfg.rotateBytes ≤ session.activeLogBytes)

/-- The file a record goes to; `name` is what `new_log_file_name` gives. -/
def SessionLedger.path (cfg : LedgerConfig) (name : Nat) (session : SessionLedger E) : Nat :=
  if session.rotates cfg then name else session.activeLog.getD name

/-- The files that are there when the record is written. -/
def SessionLedger.kept (cfg : LedgerConfig) (session : SessionLedger E) (logs : List (LogFile E)) :
    List (LogFile E) :=
  if session.rotates cfg then trimLogs cfg logs else logs

/-- `write_record_locked`. -/
def SessionLedger.writeRecord (cfg : LedgerConfig) (codec : EventCodec E) (name : Nat)
    (session : SessionLedger E) (dir : SessionDir E) (event : E) : SessionLedger E × SessionDir E :=
  let bytes := if session.rotates cfg || session.activeLog.isNone then 0 else session.activeLogBytes
  ({ session with
      activeLog := some (session.path cfg name)
      activeLogBytes := bytes + codec.lineBytes session.nextSeq event },
    { dir with logs := writeRow (session.path cfg name) ⟨session.nextSeq, event⟩ (session.kept cfg dir.logs) })

/-- `write_session_snapshot_locked`. -/
def SessionLedger.writeSnapshot (session : SessionLedger E) (dir : SessionDir E) : SessionDir E :=
  { dir with snapshot := some ⟨session.nextSeq, session.entries⟩ }

/-- The seq is due for a snapshot. -/
def LedgerConfig.due (cfg : LedgerConfig) (seq : Nat) : Bool :=
  decide (0 < cfg.snapshotEveryEvents) && decide (seq % cfg.snapshotEveryEvents = 0)

/-- `append_locked` on the session it has found or made. -/
def SessionLedger.append (cfg : LedgerConfig) (codec : EventCodec E) (name : Nat)
    (session : SessionLedger E) (dir : SessionDir E) (event : E) : SessionLedger E × SessionDir E :=
  let session := { session with nextSeq := session.nextSeq + 1 }
  let stamped := codec.withCursor session.nextSeq event
  let (session, dir) := session.writeRecord cfg codec name dir stamped
  let session := { session with
    entries := keepLast cfg.retainedPerSession (session.entries ++ [⟨session.nextSeq, stamped⟩]) }
  (session, if cfg.due session.nextSeq then session.writeSnapshot dir else dir)

variable {cfg : LedgerConfig} {codec : EventCodec E} {session : SessionLedger E}

/-- The files after an append. -/
theorem append_logs (name : Nat) (dir : SessionDir E) (event : E) :
    (session.append cfg codec name dir event).2.logs =
      writeRow (session.path cfg name) ⟨session.nextSeq + 1, codec.withCursor (session.nextSeq + 1) event⟩
        (session.kept cfg dir.logs) := by
  unfold SessionLedger.append
  show (if _ then _ else _ : SessionDir E).logs = _
  split <;> rfl

theorem append_snapshot (name : Nat) (dir : SessionDir E) (event : E) :
    (session.append cfg codec name dir event).2.snapshot =
      if cfg.due (session.nextSeq + 1)
      then some ⟨session.nextSeq + 1, (session.append cfg codec name dir event).1.entries⟩
      else dir.snapshot := by
  unfold SessionLedger.append
  show (if cfg.due (session.nextSeq + 1) = true then _ else _ : SessionDir E).snapshot = _
  split <;> rfl

end Octos.Ui
