/-
# `Octos.Ui.Ledger` — many threads on one ledger

A call reads the directory of its session before it takes the lock, and applies what it
read under the lock; between the two the other threads go on.  Every call is a sequence
of phases, and a step takes one thread through one of them: a section under the lock, or
a read of the directory.

`append_notification`, `emit_envelope` and `emit_envelope_v2` differ before the append
only: an emit may be dropped at the barrier.  What `reconcile_orphaned_rows` appends
after a first load is left to other threads, which may do the same at the same moment.
-/
import Octos.Lib.Table
import Octos.Ui.LogReplay

namespace Octos.Ui

/-- A call, with the storage identity of its session. -/
inductive Call (E : Type) where
  | append (key : String) (event : E)
  | emit (key : String) (event : E)
  | replay (key : String) (after : Option Nat)
  | snapshot (key : String) (after : Nat)

/-- Where a call is. -/
inductive Phase (E : Type) where
  | idle
  | ensure (call : Call E)
  | load (call : Call E)
  | hydrate (call : Call E) (snap : DiskSnapshot E) (bootstrap : Bool)
  | bootstrap (call : Call E)
  | look (call : Call E)
  | read (call : Call E)
  | locked (call : Call E) (preload : Option (DiskSnapshot E))

variable {E : Type}

def Call.key : Call E → String
  | .append key _ | .emit key _ | .replay key _ | .snapshot key _ => key

/-- After `ensure_session_loaded` found or put in the session: an append goes to its
locked section without a disk snapshot. -/
def Call.loaded (call : Call E) : Phase E :=
  match call with
  | .append _ _ | .emit _ _ => .locked call none
  | .replay _ _ | .snapshot _ _ => .look call

/-- `UiProtocolLedger`, its disk, and its threads.  `index` has the sessions found at the
last start.  For the statements, `issued` has the cursors in the order of the lock. -/
structure Ledger (E : Type) where
  sessions : Table String (SessionLedger E)
  lru : List String
  dirs : String → SessionDir E
  index : String → Bool
  calls : Nat → Phase E
  issued : List (String × Nat)

namespace Ledger

/-- The thread goes on to the next phase. -/
def goto (st : Ledger E) (t : Nat) (phase : Phase E) : Ledger E :=
  { st with calls := fun u => if u = t then phase else st.calls u }

/-- `touch_lru`. -/
def touchLru (st : Ledger E) (key : String) : Ledger E :=
  { st with lru := key :: st.lru.erase key }

/-- `evict_lru_locked`. -/
def evictLru (st : Ledger E) : Ledger E :=
  match st.lru.getLast? with
  | none => st
  | some victim => { st with sessions := st.sessions.erase victim, lru := st.lru.dropLast }

/-- The least recently used session makes room for a new one. -/
def makeRoom (cfg : LedgerConfig) (st : Ledger E) (key : String) : Ledger E :=
  if st.sessions[key]?.isNone && decide (cfg.activeSessionCap ≤ st.sessions.size) then st.evictLru else st

/-- The session as the map holds it. -/
def setSession (st : Ledger E) (key : String) (session : SessionLedger E) : Ledger E :=
  { st with sessions := st.sessions.insert key session }

def setDir (st : Ledger E) (key : String) (dir : SessionDir E) : Ledger E :=
  { st with dirs := fun k => if k = key then dir else st.dirs k }

/-- A disk snapshot applied under the lock, unless the session is ahead of it. -/
def apply (cfg : LedgerConfig) (st : Ledger E) (key : String) (snap : DiskSnapshot E) : Ledger E :=
  let session := st.sessions[key]?.getD SessionLedger.new
  (st.makeRoom cfg key).setSession key (if session.nextSeq ≤ snap.headSeq then snap.hydrate else session)

/-- The session an append finds, or makes of the disk snapshot it was given. -/
def target (st : Ledger E) (key : String) (preload : Option (DiskSnapshot E)) : SessionLedger E :=
  match st.sessions[key]? with
  | some session => session
  | none => (preload.map DiskSnapshot.hydrate).getD SessionLedger.new

/-- `append_locked`. -/
def appendLocked (cfg : LedgerConfig) (codec : EventCodec E) (name : Nat) (st : Ledger E) (key : String)
    (preload : Option (DiskSnapshot E)) (event : E) : Ledger E :=
  let out := (st.target key preload).append cfg codec name (st.dirs key) event
  let st := ((st.makeRoom cfg key).setSession key out.1).setDir key out.2
  { st with issued := st.issued ++ [(key, out.1.nextSeq)] }.touchLru key

/-- The locked section of `replay_after_from_disk_with_head`. -/
def replayLocked (cfg : LedgerConfig) (codec : EventCodec E) (st : Ledger E) (key : String) (after : Nat) :
    Ledger E :=
  let served := st.sessions[key]?.any (fun session => !session.misses after && decide (after ≤ session.nextSeq))
  if served then st.touchLru key
  else
    match (st.dirs key).read cfg codec (some after) false with
    | none => st
    | some snap =>
        let ahead := st.sessions[key]?.any (fun session => decide (snap.headSeq < session.nextSeq))
        match snap.oldestSeq with
        | none => st
        | some oldestSeq =>
            if ahead || decide (snap.headSeq < after ∨ after < oldestSeq - 1) then st
            else ((st.makeRoom cfg key).setSession key snap.hydrate).touchLru key

/-- The range check of `snapshot_with_cursor`. -/
def refuses (session : SessionLedger E) (after : Nat) : Bool :=
  match session.entries.head? with
  | some row => (decide (after ≠ 0) && decide (after < row.seq - 1)) || decide (session.nextSeq < after)
  | none => decide (after ≠ session.nextSeq) && decide (after ≠ 0)

/-- The locked section of `snapshot_with_cursor`. -/
def snapshotLocked (cfg : LedgerConfig) (st : Ledger E) (key : String) (after : Nat)
    (preload : Option (DiskSnapshot E)) : Ledger E :=
  let st := match preload with
    | none => st
    | some snap => st.apply cfg key snap
  match st.sessions[key]? with
  | none => st
  | some session => if refuses session after then st else st.touchLru key

/-- `ensure_session_loaded`, the first look at the map and the index. -/
def ensureStep (st : Ledger E) (t : Nat) (call : Call E) : Ledger E :=
  if st.sessions[call.key]?.isSome then st.goto t call.loaded
  else if st.index call.key then st.goto t (.load call)
  else st.goto t (.look call)

/-- `ensure_session_loaded`, the read. -/
def loadStep (cfg : LedgerConfig) (codec : EventCodec E) (st : Ledger E) (t : Nat) (call : Call E) : Ledger E :=
  match (st.dirs call.key).read cfg codec none false with
  | none => st.goto t (.look call)
  | some snap =>
      if snap.retained.isEmpty && snap.headSeq == 0 then st.goto t (.look call)
      else st.goto t (.hydrate call snap
        (decide (0 < cfg.snapshotEveryEvents) && (st.dirs call.key).readSnapshot.isNone))

/-- `ensure_session_loaded`, its locked section. -/
def hydrateStep (cfg : LedgerConfig) (st : Ledger E) (t : Nat) (call : Call E) (snap : DiskSnapshot E)
    (bootstrap : Bool) : Ledger E :=
  let session := st.sessions[call.key]?.getD SessionLedger.new
  let hydratedNow := decide (session.nextSeq ≤ snap.headSeq) && session.nextSeq == 0 && session.entries.isEmpty
  ((st.apply cfg call.key snap).touchLru call.key).goto t
    (if bootstrap && hydratedNow then .bootstrap call else call.loaded)

/-- `ensure_session_loaded`, the first snapshot. -/
def bootstrapStep (st : Ledger E) (t : Nat) (call : Call E) : Ledger E :=
  let st := match st.sessions[call.key]? with
    | none => st
    | some session => st.setDir call.key (session.writeSnapshot (st.dirs call.key))
  st.goto t call.loaded

/-- What a call does before it reads the directory. -/
def lookStep (st : Ledger E) (t : Nat) (call : Call E) : Ledger E :=
  match call with
  | .append key _ | .emit key _ =>
      st.goto t (if st.sessions[key]?.isSome then .locked call none else .read call)
  | .replay _ none => st.goto t .idle
  | .replay key (some after) =>
      if st.sessions[key]?.any (fun session => !session.misses after && decide (after ≤ session.nextSeq))
      then (st.touchLru key).goto t .idle
      else st.goto t (.locked call none)
  | .snapshot key after =>
      st.goto t (if st.sessions[key]?.all (fun session => session.misses after) then .read call
        else .locked call none)

/-- The read before the lock. -/
def readStep (cfg : LedgerConfig) (codec : EventCodec E) (st : Ledger E) (t : Nat) (call : Call E) : Ledger E :=
  match call with
  | .snapshot key after => st.goto t (.locked call ((st.dirs key).read cfg codec (some after) true))
  | _ => st.goto t (.locked call ((st.dirs call.key).read cfg codec none false))

/-- The locked section of the call; `name` is a new log file's, and `drop` says that the
barrier drops an emit. -/
def lockedStep (cfg : LedgerConfig) (codec : EventCodec E) (name : Nat) (drop : Bool) (st : Ledger E) (t : Nat)
    (call : Call E) (preload : Option (DiskSnapshot E)) : Ledger E :=
  let st := match call with
    | .append key event => st.appendLocked cfg codec name key preload event
    | .emit key event => if drop then st else st.appendLocked cfg codec name key preload event
    | .replay key after => st.replayLocked cfg codec key (after.getD 0)
    | .snapshot key after => st.snapshotLocked cfg key after preload
  st.goto t .idle

end Ledger

/-- What happens next: a thread begins a call, a thread takes its next step, the sweep
finds sessions idle, or the server is started again on the same disk. -/
inductive Move (E : Type) where
  | begin (t : Nat) (call : Call E)
  | advance (t : Nat) (name : Nat) (drop : Bool)
  | sweep (victims : List String)
  | restart

namespace Ledger

def advance (cfg : LedgerConfig) (codec : EventCodec E) (st : Ledger E) (t name : Nat) (drop : Bool) : Ledger E :=
  match st.calls t with
  | .idle => st
  | .ensure call => st.ensureStep t call
  | .load call => st.loadStep cfg codec t call
  | .hydrate call snap bootstrap => st.hydrateStep cfg t call snap bootstrap
  | .bootstrap call => st.bootstrapStep t call
  | .look call => st.lookStep t call
  | .read call => st.readStep cfg codec t call
  | .locked call preload => st.lockedStep cfg codec name drop t call preload

/-- `sweep_idle`. -/
def sweepIdle (st : Ledger E) (victims : List String) : Ledger E :=
  { st with
    sessions := victims.foldl (fun sessions key => sessions.erase key) st.sessions
    lru := st.lru.filter (fun key => !victims.contains key) }

/-- What is left after a restart; `recover_session_index` finds the sessions with a log. -/
def restart (st : Ledger E) : Ledger E :=
  { st with
    sessions := ∅
    lru := []
    index := fun key => !(st.dirs key).logs.isEmpty
    calls := fun _ => .idle }

def step (cfg : LedgerConfig) (codec : EventCodec E) (st : Ledger E) : Move E → Ledger E
  | .begin t call =>
      match st.calls t with
      | .idle => st.goto t (.ensure call)
      | _ => st
  | .advance t name drop => st.advance cfg codec t name drop
  | .sweep victims => st.sweepIdle victims
  | .restart => st.restart

/-- A ledger on an empty disk. -/
def start : Ledger E where
  sessions := ∅
  lru := []
  dirs := fun _ => .empty
  index := fun _ => false
  calls := fun _ => .idle
  issued := []

end Ledger

end Octos.Ui
