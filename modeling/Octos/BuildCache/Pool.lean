/-
# `Octos.BuildCache.Pool` — the slots of the build cache

`pool.rs` as a transition system.  The parties are calls of the pool's
operations, each inside a process; a step of a call is one access to the file
system, so calls interleave at every access and a process may die between any
two.  A `Slot` that `acquire` returned lives on as its call: it keeps the flock
until `release`, until it is dropped, or until its process dies.

    acquire          gate → scan → locking → locked → probing → preparing
                     → stamping → publishing → published → held
    acquire_detached the same, then handing: the flock is dropped
    release          held → releasing → comparing → removing → marking
    release_detached opening → relocking → releasing → …
    reclaim_stale    walk → gcLocking → gcLocked → gcProbing → gcClearing
                     → gcAging → gcRemoving

Everything the environment decides comes with the step (`World`): whether an
access fails, what the clock says, which uuid is drawn, and whether the retry
window is over.  Reading a file that is there succeeds, and the pool has no
symbolic links.  Fields that only a human reads are left out.
-/
import Octos.Lib.Run

namespace Octos.BuildCache

/-! ## Slots -/

/-- `SlotKind`. -/
inductive SlotKind where
  | peer
  | verify
  deriving DecidableEq

/-- A slot directory, `<pool-root>/<repo-key>/<prefix><n>`. -/
structure SlotDir where
  repo : String
  kind : SlotKind
  n : Nat
  deriving DecidableEq

/-- A call of an operation, and the `Slot` it may return. -/
abbrev Call := Nat

/-- `HolderMeta`, as far as the pool reads it. -/
structure HolderMeta where
  kind : SlotKind
  pid : Nat
  acquiredAt : Nat
  claimToken : String
  deriving DecidableEq

/-- The files of a slot.  `lock` is the holder of the flock; `writer` is a ghost:
the call that wrote `holder.json`. -/
structure SlotFiles where
  lockFile : Bool
  lock : Option Call
  holder : Option HolderMeta
  writer : Option Call
  lastUsed : Option Nat
  target : Bool
  deriving DecidableEq

namespace SlotFiles

/-- The flock is given up. -/
def unlock (f : SlotFiles) : SlotFiles :=
  { f with lock := none }

/-- `holder.json` is removed. -/
def clearHolder (f : SlotFiles) : SlotFiles :=
  { f with holder := none, writer := none }

/-- `holder.json` is renamed into place by a call. -/
def publish (f : SlotFiles) (c : Call) (holder : HolderMeta) : SlotFiles :=
  { f with holder := some holder, writer := some c }

end SlotFiles

/-- `ReleaseDisposition`. -/
inductive ReleaseDisposition where
  | released
  | alreadyReleased
  | claimMismatch
  deriving DecidableEq

/-- `ReclaimOutcome`. -/
inductive ReclaimOutcome where
  | noLock
  | locked
  | fresh
  | holderCleared
  | stale
  | reclaimed
  deriving DecidableEq

/-- `GcPolicy`. -/
structure GcPolicy where
  staleHours : Nat
  apply : Bool
  deriving DecidableEq

/-- `MAX_STALE_HOURS` -/
def maxStaleHours : Nat := 10 * 365 * 24

/-- `stale_window_secs`. -/
def staleWindowSecs (hours : Nat) : Option Nat :=
  if hours ≤ maxStaleHours then some (hours * 3600) else none

/-- What a call answers. -/
inductive Answer where
  | refused
  | exhausted
  | io
  | detached (dir : SlotDir) (token : String)
  | dropped
  | disposition (d : ReleaseDisposition)
  | slotNotFound
  | slotHeld
  | invalidConfig
  | reports (rows : List (SlotDir × ReclaimOutcome))
  deriving DecidableEq

/-! ## Calls -/

/-- What `acquire` was asked for: the pid to record, and whether the flock is
dropped at the end (`acquire_detached`). -/
structure Request where
  kind : SlotKind
  pid : Nat
  detached : Bool
  deriving DecidableEq

/-- On whose flock `release_claim` runs. -/
inductive Via where
  | slot
  | path
  deriving DecidableEq

/-- A run of `reclaim_stale`: the policy, the rows so far, the slots to come. -/
structure Sweep where
  policy : GcPolicy
  rows : List (SlotDir × ReclaimOutcome)
  rest : List SlotDir
  deriving DecidableEq

/-- Where a call is.  `failed` is `last_err` of the scan. -/
inductive Pc where
  | idle
  | gate (req : Request) (repo : String) (count : Nat)
  | scan (req : Request) (failed : Bool) (rest : List SlotDir)
  | locking (req : Request) (failed : Bool) (dir : SlotDir) (rest : List SlotDir)
  | locked (req : Request) (failed : Bool) (dir : SlotDir) (rest : List SlotDir)
  | probing (req : Request) (failed : Bool) (dir : SlotDir) (rest : List SlotDir) (found : HolderMeta)
  | preparing (req : Request) (failed : Bool) (dir : SlotDir) (rest : List SlotDir)
  | stamping (req : Request) (dir : SlotDir) (token : String) (now : Nat)
  | publishing (req : Request) (dir : SlotDir) (token : String) (now : Nat)
  | published (req : Request) (dir : SlotDir) (token : String)
  | handing (dir : SlotDir) (token : String)
  | held (dir : SlotDir) (token : String)
  | opening (dir : SlotDir) (token : String)
  | relocking (dir : SlotDir) (token : String)
  | releasing (via : Via) (dir : SlotDir) (token : String)
  | comparing (via : Via) (dir : SlotDir) (token : String)
  | removing (via : Via) (dir : SlotDir) (token : String)
  | marking (via : Via) (dir : SlotDir) (token : String)
  | walk (sweep : Sweep)
  | gcLocking (sweep : Sweep) (dir : SlotDir)
  | gcLocked (sweep : Sweep) (dir : SlotDir)
  | gcProbing (sweep : Sweep) (dir : SlotDir) (found : HolderMeta)
  | gcClearing (sweep : Sweep) (dir : SlotDir)
  | gcAging (sweep : Sweep) (dir : SlotDir) (cleared : Bool)
  | gcRemoving (sweep : Sweep) (dir : SlotDir)
  | done (answer : Answer)

/-- The call has not been made. -/
def Pc.isIdle : Pc → Bool
  | .idle => true
  | _ => false

/-- The next slot of a sweep, with a row for the last one. -/
def Sweep.next (sweep : Sweep) (dir : SlotDir) (outcome : ReclaimOutcome) : Pc :=
  .walk { sweep with rows := sweep.rows ++ [(dir, outcome)] }

/-- A call, the process it runs in, and whether it has returned a claim. -/
structure CallState where
  proc : Nat
  pc : Pc
  returned : Bool

/-- The pool and the processes.  `issued` is the call a uuid was drawn for. -/
structure State where
  slots : SlotDir → SlotFiles
  calls : Call → CallState
  started : Nat → Bool
  alive : Nat → Bool
  issued : String → Option Call

/-- An empty pool, no process. -/
def State.init : State where
  slots := fun _ => ⟨false, none, none, none, none, false⟩
  calls := fun _ => ⟨0, .idle, false⟩
  started := fun _ => false
  alive := fun _ => false
  issued := fun _ => none

/-- What the environment decides at a step. -/
structure World where
  ok : Bool
  timeout : Bool
  now : Nat
  token : String

/-- `i32::MAX` -/
def i32Max : Nat := 2 ^ 31 - 1

/-- `pid_alive`: `none` for a dead process. -/
def State.pidAlive (s : State) (pid : Nat) : Option Bool :=
  if i32Max < pid then some false
  else if pid = 0 then none
  else if s.alive pid then some true
  else none

/-- The `retry` of `try_lock_slot`, read on contention. -/
def State.retries (s : State) (f : SlotFiles) (releaseToken : Option String) : Bool :=
  match f.holder with
  | none => true
  | some found =>
      (s.pidAlive found.pid).isNone ||
        releaseToken.any (fun token => !token.isEmpty && token == found.claimToken)

/-- `acquire` scans `<prefix>1 ..= <prefix>count`. -/
def candidates (repo : String) (kind : SlotKind) (count : Nat) : List SlotDir :=
  (List.range' 1 count).map (fun n => ⟨repo, kind, n⟩)

/-! ## Steps -/

/-- What a step of a call changes: its place, the files of one slot, the uuid it
drew, and whether it returns a claim. -/
structure Move where
  pc : Pc
  write : Option (SlotDir × SlotFiles)
  drawn : Option String
  returns : Bool

namespace Move

/-- Only the place changes. -/
def goto (pc : Pc) : Move :=
  ⟨pc, none, none, false⟩

/-- The files of a slot change. -/
def put (dir : SlotDir) (f : SlotFiles) (pc : Pc) : Move :=
  ⟨pc, some (dir, f), none, false⟩

end Move

/-- The end of `release_claim` with an answer: the flock is dropped. -/
def finish (dir : SlotDir) (f : SlotFiles) (d : ReleaseDisposition) : Move :=
  .put dir f.unlock (.done (.disposition d))

/-- The end of `release_claim` with an error: a `Slot` keeps its flock. -/
def giveUp (via : Via) (dir : SlotDir) (token : String) (f : SlotFiles) : Move :=
  match via with
  | .slot => .goto (.held dir token)
  | .path => .put dir f.unlock (.done .io)

/-- The next access of a call. -/
def State.next (s : State) (c : Call) (w : World) : Pc → Option Move
  | .idle => none
  | .done _ => none
  | .held _ _ => none
  | .gate req repo count =>
      if w.ok then some (.goto (.scan req false (candidates repo req.kind count)))
      else some (.goto (.done .refused))
  | .scan _ failed [] => some (.goto (.done (if failed then .io else .exhausted)))
  | .scan req failed (dir :: rest) =>
      if w.ok then
        some (.put dir { s.slots dir with lockFile := true } (.locking req failed dir rest))
      else some (.goto (.scan req true rest))
  | .locking req failed dir rest =>
      let f := s.slots dir
      if !w.ok then some (.goto (.scan req true rest))
      else if f.lock = none then some (.put dir { f with lock := some c } (.locked req failed dir rest))
      else if s.retries f none && !w.timeout then some (.goto (.locking req failed dir rest))
      else some (.goto (.scan req failed rest))
  | .locked req failed dir rest =>
      match (s.slots dir).holder with
      | none => some (.goto (.preparing req failed dir rest))
      | some found => some (.goto (.probing req failed dir rest found))
  | .probing req failed dir rest found =>
      if (s.pidAlive found.pid).isSome then
        some (.put dir (s.slots dir).unlock (.scan req failed rest))
      else some (.goto (.preparing req failed dir rest))
  | .preparing req _ dir rest =>
      let f := s.slots dir
      if !w.ok then some (.put dir f.unlock (.scan req true rest))
      else if w.token = "" ∨ (s.issued w.token).isSome then none
      else some ⟨.stamping req dir w.token w.now, some (dir, { f with target := true }),
        some w.token, false⟩
  | .stamping req dir token now =>
      let f := s.slots dir
      if w.ok then some (.put dir { f with lastUsed := some now } (.publishing req dir token now))
      else some (.put dir f.unlock (.done .io))
  | .publishing req dir token now =>
      let f := s.slots dir
      if w.ok then
        some (.put dir (f.publish c ⟨req.kind, req.pid, now, token⟩) (.published req dir token))
      else some (.put dir f.unlock (.done .io))
  | .published req dir token =>
      if req.detached then some (.put dir (s.slots dir).unlock (.handing dir token))
      else some ⟨.held dir token, none, none, true⟩
  | .handing dir token => some ⟨.done (.detached dir token), none, none, true⟩
  | .opening dir token =>
      if !(s.slots dir).lockFile then some (.goto (.done .slotNotFound))
      else if w.ok then some (.goto (.relocking dir token))
      else some (.goto (.done .io))
  | .relocking dir token =>
      let f := s.slots dir
      if !w.ok then some (.goto (.done .io))
      else if f.lock = none then some (.put dir { f with lock := some c } (.releasing .path dir token))
      else if s.retries f (some token) && !w.timeout then some (.goto (.relocking dir token))
      else some (.goto (.done .slotHeld))
  | .releasing via dir token =>
      if (s.slots dir).holder.isNone then some (finish dir (s.slots dir) .alreadyReleased)
      else some (.goto (.comparing via dir token))
  | .comparing via dir token =>
      if token.isEmpty || (s.slots dir).holder.all (fun found => found.claimToken != token) then
        some (finish dir (s.slots dir) .claimMismatch)
      else some (.goto (.removing via dir token))
  | .removing via dir token =>
      let f := s.slots dir
      if !w.ok then some (giveUp via dir token f)
      else if f.holder.isNone then some (finish dir f .released)
      else some (.put dir f.clearHolder (.marking via dir token))
  | .marking via dir token =>
      let f := s.slots dir
      if w.ok then some (finish dir { f with lastUsed := some w.now } .released)
      else some (giveUp via dir token f)
  | .walk ⟨_, rows, []⟩ => some (.goto (.done (.reports rows)))
  | .walk ⟨policy, rows, dir :: rest⟩ =>
      let sweep : Sweep := ⟨policy, rows, rest⟩
      if !(s.slots dir).lockFile then some (.goto (sweep.next dir .noLock))
      else if w.ok then some (.goto (.gcLocking sweep dir))
      else some (.goto (.done .io))
  | .gcLocking sweep dir =>
      let f := s.slots dir
      if !w.ok then some (.goto (.done .io))
      else if f.lock = none then some (.put dir { f with lock := some c } (.gcLocked sweep dir))
      else if s.retries f none && !w.timeout then some (.goto (.gcLocking sweep dir))
      else some (.goto (sweep.next dir .locked))
  | .gcLocked sweep dir =>
      match (s.slots dir).holder with
      | none => some (.goto (.gcAging sweep dir false))
      | some found => some (.goto (.gcProbing sweep dir found))
  | .gcProbing sweep dir found =>
      if (s.pidAlive found.pid).isSome then
        some (.put dir (s.slots dir).unlock (sweep.next dir .locked))
      else if sweep.policy.apply then some (.goto (.gcClearing sweep dir))
      else some (.goto (.gcAging sweep dir false))
  | .gcClearing sweep dir =>
      let f := s.slots dir
      if w.ok && f.holder.isSome then some (.put dir f.clearHolder (.gcAging sweep dir true))
      else some (.put dir f.unlock (.done .io))
  | .gcAging sweep dir cleared =>
      let f := s.slots dir
      match staleWindowSecs sweep.policy.staleHours with
      | none => some (.put dir f.unlock (.done .invalidConfig))
      | some window =>
          if w.now - f.lastUsed.getD 0 ≤ window then
            some (.put dir f.unlock (sweep.next dir (if cleared then .holderCleared else .fresh)))
          else if !sweep.policy.apply || !f.target then
            some (.put dir f.unlock (sweep.next dir .stale))
          else some (.goto (.gcRemoving sweep dir))
  | .gcRemoving sweep dir =>
      let f := s.slots dir
      if w.ok then some (.put dir { f with target := false }.unlock (sweep.next dir .reclaimed))
      else some (.put dir f.unlock (.done .io))

/-- The state after a move of a call. -/
def State.move (s : State) (c : Call) (m : Move) : State where
  slots := match m.write with
    | some (dir, f) => Function.update s.slots dir f
    | none => s.slots
  calls := Function.update s.calls c
    { s.calls c with pc := m.pc, returned := (s.calls c).returned || m.returns }
  started := s.started
  alive := s.alive
  issued := match m.drawn with
    | some token => Function.update s.issued token (some c)
    | none => s.issued

/-- The operations a process may call. -/
inductive Operation where
  | acquire (repo : String) (kind : SlotKind) (count : Nat) (pidOverride : Option Nat)
  | acquireDetached (repo : String) (count : Nat) (pidOverride : Option Nat)
  | releaseDetached (dir : SlotDir) (token : String)
  | reclaimStale (policy : GcPolicy) (dirs : List SlotDir)
  deriving DecidableEq

/-- The first place of a call in a process. -/
def Operation.start (proc : Nat) : Operation → Pc
  | .acquire repo kind count pidOverride => .gate ⟨kind, pidOverride.getD proc, false⟩ repo count
  | .acquireDetached repo count pidOverride => .gate ⟨.verify, pidOverride.getD proc, true⟩ repo count
  | .releaseDetached dir token => .opening dir token
  | .reclaimStale policy dirs =>
      match staleWindowSecs policy.staleHours with
      | none => .done .invalidConfig
      | some _ => .walk ⟨policy, [], dirs⟩

/-- The pid a call may record. -/
def Operation.records (proc : Nat) : Operation → Option Nat
  | .acquire _ _ _ pidOverride => some (pidOverride.getD proc)
  | .acquireDetached _ _ pidOverride => some (pidOverride.getD proc)
  | _ => none

/-- A pid a process has or had, or one no process can have. -/
def State.knownPid (s : State) (pid : Nat) : Bool :=
  s.started pid || pid == 0 || decide (i32Max < pid)

inductive Event where
  | spawn (pid : Nat)
  | die (pid : Nat)
  | call (c : Call) (proc : Nat) (op : Operation)
  | access (c : Call) (w : World)
  | release (c : Call)
  | drop (c : Call)

/-- The flocks of a dead process are released. -/
def State.kill (s : State) (pid : Nat) : State :=
  { s with
    alive := Function.update s.alive pid false
    slots := fun dir =>
      match (s.slots dir).lock with
      | some c => if (s.calls c).proc = pid then (s.slots dir).unlock else s.slots dir
      | none => s.slots dir }

/-- One event.  Pids are not reused; a recorded pid is that of a process. -/
def State.step (s : State) : Event → Option State
  | .spawn pid =>
      if s.started pid || pid == 0 || decide (i32Max < pid) then none
      else some { s with
        started := Function.update s.started pid true
        alive := Function.update s.alive pid true }
  | .die pid => if s.alive pid then some (s.kill pid) else none
  | .call c proc op =>
      if (s.calls c).pc.isIdle && s.alive proc && (op.records proc).all s.knownPid then
        some { s with calls := Function.update s.calls c ⟨proc, op.start proc, false⟩ }
      else none
  | .access c w =>
      if s.alive (s.calls c).proc then (s.next c w (s.calls c).pc).map (s.move c) else none
  | .release c =>
      match (s.calls c).pc with
      | .held dir token =>
          if s.alive (s.calls c).proc then some (s.move c (.goto (.releasing .slot dir token))) else none
      | _ => none
  | .drop c =>
      match (s.calls c).pc with
      | .held dir _ =>
          if s.alive (s.calls c).proc then
            some (s.move c (.put dir (s.slots dir).unlock (.done .dropped)))
          else none
      | _ => none

end Octos.BuildCache
