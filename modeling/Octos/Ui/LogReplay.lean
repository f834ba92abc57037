/-
# `Octos.Ui.LogReplay` — replay of one session without a gap

The calls on one session, one after another: appends, replays, evictions and restarts.
A replay gives the rows behind its cursor, or says that the cursor is out of range.

The range check looks at the oldest seq alone, so what it rests on is that the pieces a
read stitches together have nothing missing between them.  The ring and the log are
runs of consecutive seqs, and so is the snapshot; but a rotation deletes log files
whether or not the snapshot has their rows.  After an append that deletes a row newer
than the snapshot, and does not write the snapshot itself, there is a gap behind the
snapshot's head, and replays pass over it.
-/
import Octos.Ui.EventLog

namespace Octos.Ui

variable {E : Type}

/-! ## Calls on one session -/

/-- `cursor_out_of_range_error`. -/
structure CursorOutOfRange where
  after : Nat
  retainedSeq : Nat
  oldestRetainedSeq : Option Nat
  deriving DecidableEq

/-- A session of a durable ledger: in memory, on disk, and in the index of the sessions
found at the start.  `clock` gives the names of new log files.  For the statements:
`appended` has what was appended, and `overrun` says that an append deleted a row behind
the snapshot's head. -/
structure Store (E : Type) where
  mem : Option (SessionLedger E)
  dir : SessionDir E
  indexed : Bool
  reconciled : Bool
  clock : Nat
  appended : List (Row E)
  overrun : Bool

def Store.init : Store E where
  mem := none
  dir := SessionDir.empty
  indexed := false
  reconciled := false
  clock := 0
  appended := []
  overrun := false

/-- The append would delete a row newer than the snapshot, and not write the snapshot. -/
def SessionDir.overruns (cfg : LedgerConfig) (dir : SessionDir E) (session : SessionLedger E) : Bool :=
  session.rotates cfg && !cfg.due (session.nextSeq + 1) &&
    match dir.readSnapshot with
    | none => false
    | some snap =>
        (dir.logs.take (dir.logs.length - (cfg.retainedLogFiles - 1))).any
          (fun file => file.rows.any (fun row => decide (snap.headSeq < row.seq)))

section Calls

variable (cfg : LedgerConfig) (codec : EventCodec E) (orphans : List (Row E) → List E)

/-- `append_locked` on a session. -/
def Store.put (st : Store E) (session : SessionLedger E) (event : E) : Store E :=
  let out := session.append cfg codec st.clock st.dir event
  { st with
    mem := some out.1
    dir := out.2
    clock := st.clock + 1
    appended := st.appended ++ [⟨session.nextSeq + 1, codec.withCursor (session.nextSeq + 1) event⟩]
    overrun := st.overrun || st.dir.overruns cfg session }

/-- Appends to the session in memory. -/
def Store.putAll (st : Store E) : List E → Store E
  | [] => st
  | event :: events =>
      match st.mem with
      | none => st
      | some session => (st.put cfg codec session event).putAll events

/-- The ring does not reach back to the cursor. -/
def SessionLedger.misses (session : SessionLedger E) (after : Nat) : Bool :=
  match session.entries.head? with
  | some row => decide (after < row.seq - 1)
  | none => decide (after ≠ session.nextSeq)

/-- The rows behind the cursor. -/
def SessionLedger.replayFrom (session : SessionLedger E) (after : Nat) : List (Row E) :=
  session.entries.filter (fun row => decide (after < row.seq))

/-- The disk snapshot of `snapshot_with_cursor`, put in unless the session is ahead. -/
def Store.preload (st : Store E) (after : Nat) : Store E :=
  if st.mem.all (fun session => session.misses after) then
    match st.dir.read cfg codec (some after) true with
    | none => st
    | some snap =>
        let session := st.mem.getD SessionLedger.new
        { st with mem := some (if session.nextSeq ≤ snap.headSeq then snap.hydrate else session) }
  else st

/-- The rows and the head of `snapshot_with_cursor`. -/
def Store.snapshotRows (st : Store E) (after : Nat) : Except CursorOutOfRange (List (Row E) × Nat) :=
  match st.mem with
  | none => .ok ([], 0)
  | some session =>
      let refuse : Bool := match session.entries.head? with
        | some row => (decide (after ≠ 0) && decide (after < row.seq - 1)) || decide (session.nextSeq < after)
        | none => decide (after ≠ session.nextSeq) && decide (after ≠ 0)
      if refuse then .error ⟨after, session.nextSeq, none⟩
      else .ok (session.replayFrom after, session.nextSeq)

/-- `reconcile_orphaned_rows`: what closes the orphaned rows is appended. -/
def Store.reconcile (st : Store E) : Store E :=
  let st := st.preload cfg codec 0
  match st.snapshotRows 0 with
  | .error _ => st
  | .ok (rows, _) => st.putAll cfg codec (orphans rows)

/-- The session put in from disk, and its first snapshot. -/
def Store.load (st : Store E) (snap : DiskSnapshot E) : Store E :=
  { st with
    mem := some snap.hydrate
    dir := if decide (0 < cfg.snapshotEveryEvents) && st.dir.readSnapshot.isNone
      then snap.hydrate.writeSnapshot st.dir else st.dir }

/-- The orphaned rows are closed once. -/
def Store.closeOrphans (st : Store E) : Store E :=
  { (if st.reconciled then st else st.reconcile cfg codec orphans) with reconciled := true }

/-- `ensure_session_loaded`. -/
def Store.ensureLoaded (st : Store E) : Store E :=
  if st.mem.isSome || !st.indexed then st
  else
    match st.dir.read cfg codec none false with
    | none => st
    | some snap =>
        if snap.retained.isEmpty && snap.headSeq == 0 then st
        else (st.load cfg snap).closeOrphans cfg codec orphans

/-- `append_with_storage_id`. -/
def Store.append (st : Store E) (event : E) : Store E :=
  let st := st.ensureLoaded cfg codec orphans
  match st.mem with
  | some session => st.put cfg codec session event
  | none =>
      match st.dir.read cfg codec none false with
      | some snap => st.put cfg codec snap.hydrate event
      | none => st.put cfg codec SessionLedger.new event

/-- `snapshot_with_cursor`. -/
def Store.snapshotWithCursor (st : Store E) (after : Nat) :
    Except CursorOutOfRange (List (Row E) × Nat) × Store E :=
  let st := (st.ensureLoaded cfg codec orphans).preload cfg codec after
  (st.snapshotRows after, st)

/-- `replay_after_from_disk_with_head`. -/
def Store.replayFromDisk (st : Store E) (after : Nat) :
    Except CursorOutOfRange (List (Row E) × Nat) × Store E :=
  match st.dir.read cfg codec (some after) false with
  | none => (if after = 0 then .ok ([], 0) else .error ⟨after, 0, none⟩, st)
  | some snap =>
      let oldest := st.mem.bind (fun session => session.entries.head?.map Row.seq)
      let nextSeq := (st.mem.map SessionLedger.nextSeq).getD 0
      if snap.headSeq < nextSeq then (.error ⟨after, nextSeq, oldest⟩, st)
      else
        match snap.oldestSeq with
        | none => (if after = 0 then .ok ([], 0) else .error ⟨after, 0, none⟩, st)
        | some oldestSeq =>
            if snap.headSeq < after ∨ after < oldestSeq - 1 then
              (.error ⟨after, snap.headSeq, some oldestSeq⟩, st)
            else (.ok (snap.replay, snap.headSeq), { st with mem := some snap.hydrate })

/-- `replay_after_with_head` with a cursor. -/
def Store.replayAfterWithHead (st : Store E) (after : Nat) :
    Except CursorOutOfRange (List (Row E) × Nat) × Store E :=
  let st := st.ensureLoaded cfg codec orphans
  match st.mem with
  | none => st.replayFromDisk cfg codec after
  | some session =>
      if !session.misses after && decide (after ≤ session.nextSeq) then
        (.ok (session.replayFrom after, session.nextSeq), st)
      else st.replayFromDisk cfg codec after

/-- A call on the session, or what happens to it. -/
inductive StoreOp (E : Type) where
  | append (event : E)
  | replay (after : Nat)
  | snapshot (after : Nat)
  | evict
  | restart

def Store.step (st : Store E) : StoreOp E → Store E
  | .append event => st.append cfg codec orphans event
  | .replay after => (st.replayAfterWithHead cfg codec orphans after).2
  | .snapshot after => (st.snapshotWithCursor cfg codec orphans after).2
  | .evict => { st with mem := none }
  | .restart => { st with mem := none, indexed := !st.dir.logs.isEmpty, reconciled := false }

end Calls

end Octos.Ui
