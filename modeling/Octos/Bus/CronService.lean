/-
# `Octos.Bus.CronService` — the cron store in memory and on disk

`cron_types.rs` and `cron_service.rs`: the jobs, their schedule arithmetic, and
every operation that changes the store under its lock.  A service is its
in-memory store and the last `cron.json` that was renamed into place.  A write
replaces the file or leaves it as it was; which of the two happens is an
argument of every operation, and so are the readings of the clock.

Milliseconds are `i64` and an interval is added as the machine adds it.  The
cron expressions are read by a library: its parser, its time zones and its
`upcoming` iterator are the fields of `CronLib`.
-/
import Octos.Lib.Rows
import Octos.Lib.Checked

namespace Octos.Bus

/-! ## Types -/

/-- `a + b` on `i64`. -/
def i64Add (a b : Int) : Int :=
  (a + b).bmod (2 ^ 64)

/-- `CronSchedule`. -/
inductive CronSchedule where
  /-- Fire once. -/
  | at_ (atMs : Int)
  /-- Fire at a fixed interval. -/
  | every (everyMs : Int)
  /-- Fire on a cron expression. -/
  | cron (expr : String)
  deriving DecidableEq

/-- `CronMode`. -/
inductive CronMode where
  | agent
  | notify
  deriving DecidableEq

/-- `CronPayload`. -/
structure CronPayload where
  message : String
  deliver : Bool
  channel : Option String
  chatId : Option String
  mode : CronMode
  deriving DecidableEq

/-- `CronOrigin`: what created a job. -/
structure CronOrigin where
  sessionId : Option String
  loopId : Option String
  profileId : Option String
  deriving DecidableEq

/-- `CronJobState`. -/
structure CronJobState where
  nextRunAtMs : Option Int
  lastRunAtMs : Option Int
  lastStatus : Option String
  deriving DecidableEq

/-- `CronJob`. -/
structure CronJob where
  id : String
  name : String
  enabled : Bool
  schedule : CronSchedule
  payload : CronPayload
  state : CronJobState
  createdAtMs : Int
  deleteAfterRun : Bool
  timezone : Option String
  origin : CronOrigin
  deriving DecidableEq

/-- `CronStore`. -/
structure CronStore where
  version : U32
  jobs : List CronJob
  deriving DecidableEq

/-- The cron library: expressions, time zones, and the first occurrence of a
schedule after a reading of the clock, all in milliseconds. -/
structure CronLib where
  Schedule : Type
  Tz : Type
  utc : Tz
  parseSchedule : String → Option Schedule
  parseTz : String → Option Tz
  upcoming : Schedule → Tz → Int → Option Int

/-- `upcoming` yields occurrences after the clock. -/
def CronLib.Later (lib : CronLib) : Prop :=
  ∀ schedule tz clock t, lib.upcoming schedule tz clock = some t → clock < t

/-! ## Jobs -/

namespace CronJob

/-- `belongs_to_loop`. -/
def belongsToLoop (loopId : String) (job : CronJob) : Bool :=
  job.origin.loopId == some loopId

/-- What a cron expression is due next; a bad time zone falls back to UTC. -/
def cronNext (lib : CronLib) (clock : Int) (timezone : Option String) (expr : String) : Option Int :=
  match lib.parseSchedule expr with
  | none => none
  | some schedule =>
      match timezone with
      | none => lib.upcoming schedule lib.utc clock
      | some tz =>
          match lib.parseTz tz with
          | some tz => lib.upcoming schedule tz clock
          | none => lib.upcoming schedule lib.utc clock

/-- The next run of a schedule: `clock` is what `upcoming` reads, `nowMs` what
the caller read before. -/
def nextRun (lib : CronLib) (nowMs clock : Int) (job : CronJob) : Option Int :=
  match job.schedule with
  | .at_ atMs => if job.state.lastRunAtMs.isSome then none else some atMs
  | .every everyMs => some (i64Add (job.state.lastRunAtMs.getD nowMs) everyMs)
  | .cron expr => cronNext lib clock job.timezone expr

/-- `compute_next_run`. -/
def computeNextRun (lib : CronLib) (nowMs clock : Int) (job : CronJob) : CronJob :=
  { job with state := { job.state with nextRunAtMs := job.nextRun lib nowMs clock } }

/-- `is_due`. -/
def isDue (nowMs : Int) (job : CronJob) : Bool :=
  job.enabled &&
    match job.state.nextRunAtMs with
    | some t => decide (t ≤ nowMs)
    | none => false

/-- What `enable_job` and `toggle_job_reconciling` do to the job they find. -/
def setEnabled (lib : CronLib) (nowMs clock : Int) (enabled : Bool) (job : CronJob) : CronJob :=
  if enabled then { job with enabled := true }.computeNextRun lib nowMs clock
  else { job with enabled := false, state := { job.state with nextRunAtMs := none } }

@[simp] theorem setEnabled_id (lib : CronLib) (nowMs clock : Int) (enabled : Bool) (job : CronJob) :
    (job.setEnabled lib nowMs clock enabled).id = job.id := by
  cases enabled <;> rfl

end CronJob

/-! ## The service -/

/-- `CronService`: the store under its lock, and `cron.json`; `none` when no
store has been written. -/
structure Service where
  store : CronStore
  file : Option CronStore
  deriving DecidableEq

namespace Service

/-- The jobs in memory. -/
def jobs (s : Service) : List CronJob :=
  s.store.jobs

/-- The jobs in the file. -/
def persisted (s : Service) : List CronJob :=
  match s.file with
  | some store => store.jobs
  | none => []

/-- `store.jobs = jobs`. -/
def setJobs (s : Service) (jobs : List CronJob) : Service :=
  { s with store := { s.store with jobs := jobs } }

@[simp] theorem setJobs_jobs (s : Service) (l : List CronJob) : (s.setJobs l).jobs = l := rfl
@[simp] theorem setJobs_file (s : Service) (l : List CronJob) : (s.setJobs l).file = s.file := rfl
@[simp] theorem setJobs_persisted (s : Service) (l : List CronJob) :
    (s.setJobs l).persisted = s.persisted := rfl

/-- `persist_store_locked`: the file is replaced by what memory holds, or
nothing happens. -/
def persistStoreLocked (ok : Bool) (s : Service) : Service × Bool :=
  if ok then ({ s with file := some s.store }, true) else (s, false)

/-- The job `add_job_with_origin` builds. -/
def newJob (lib : CronLib) (nowMs clock : Int) (id name : String) (schedule : CronSchedule)
    (payload : CronPayload) (timezone : Option String) (origin : CronOrigin) : CronJob :=
  let deleteAfterRun := match schedule with
    | .at_ _ => true
    | _ => false
  let job : CronJob :=
    { id, name, enabled := true, schedule, payload
      state := { nextRunAtMs := none, lastRunAtMs := none, lastStatus := none }
      createdAtMs := nowMs, deleteAfterRun, timezone, origin }
  job.computeNextRun lib nowMs clock

/-- `add_job_with_origin`, after the job is built. -/
def addJob (ok : Bool) (job : CronJob) (s : Service) : Service × Except Unit CronJob :=
  match persistStoreLocked ok (s.setJobs (s.jobs ++ [job])) with
  | (s, true) => (s, .ok job)
  | (s, false) => (s.setJobs (s.jobs.filter (fun j => j.id != job.id)), .error ())

/-- The extraction both removals make: the answer is the extracted jobs, none
when the write failed. -/
def extract (ok : Bool) (out : CronJob → Bool) (s : Service) : Service × List CronJob :=
  let extracted := s.jobs.filter out
  let s := s.setJobs (s.jobs.filter (fun j => !out j))
  if extracted.isEmpty then (s, [])
  else
    match persistStoreLocked ok s with
    | (s, true) => (s, extracted)
    | (s, false) => (s.setJobs (s.jobs ++ extracted), [])

/-- `remove_job`. -/
def removeJob (ok : Bool) (id : String) (s : Service) : Service × Bool :=
  let r := s.extract ok (fun j => j.id == id)
  (r.1, !r.2.isEmpty)

/-- `remove_jobs_for_loop`. -/
def removeJobsForLoop (ok : Bool) (loopId : String) (s : Service) : Service × List String :=
  let r := s.extract ok (CronJob.belongsToLoop loopId)
  (r.1, r.2.map (·.id))

/-- `enable_job`. -/
def enableJob (lib : CronLib) (ok : Bool) (nowMs clock : Int) (id : String) (enabled : Bool)
    (s : Service) : Service × Bool :=
  match s.jobs.find? (fun j => j.id == id) with
  | none => (s, false)
  | some prior =>
      let changed := updateFirst (fun j => j.id == id) (CronJob.setEnabled lib nowMs clock enabled) s.jobs
      match persistStoreLocked ok (s.setJobs changed) with
      | (s, true) => (s, true)
      | (s, false) => (s.setJobs (updateFirst (fun j => j.id == id) (fun _ => prior) s.jobs), false)

/-- The reload of `toggle_job_reconciling`: a file that reads replaces memory. -/
def reload (readable : Bool) (s : Service) : Service :=
  match readable, s.file with
  | true, some fresh => { s with store := fresh }
  | _, _ => s

/-- `toggle_job_reconciling`. -/
def toggleJobReconciling (lib : CronLib) (ok readable : Bool) (nowMs clock : Int) (id : String)
    (enabled : Bool) (s : Service) : Service × Except Unit (Option CronJob) :=
  let s := s.reload readable
  let prior := s.jobs
  match s.jobs.find? (fun j => j.id == id) with
  | none => (s, .ok none)
  | some job =>
      let changed := updateFirst (fun j => j.id == id) (CronJob.setEnabled lib nowMs clock enabled) s.jobs
      match persistStoreLocked ok (s.setJobs changed) with
      | (s, true) => (s, .ok (some (job.setEnabled lib nowMs clock enabled)))
      | (s, false) => (s.setJobs prior, .error ())

/-- A due job, reserved: it ran, and if it stays its next run is computed. -/
def reserve (lib : CronLib) (nowMs clock : Int) (job : CronJob) : CronJob :=
  let ran := { job with
    state := { job.state with lastRunAtMs := some nowMs, lastStatus := some "ok" } }
  if ran.deleteAfterRun then ran else ran.computeNextRun lib nowMs clock

/-- The loop of `on_timer` over the stored jobs: those that were due, as they
were found, and the jobs after it.  `clock n` is the clock when the loop is at
the `n`-th job. -/
def reserveDue (lib : CronLib) (nowMs : Int) : (Nat → Int) → List CronJob → List CronJob × List CronJob
  | _, [] => ([], [])
  | clock, job :: rest =>
      let r := reserveDue lib nowMs (fun n => clock (n + 1)) rest
      if job.isDue nowMs then (job :: r.1, reserve lib nowMs (clock 0) job :: r.2)
      else (r.1, job :: r.2)

/-- The critical section of `on_timer`: the answer is what is fired.  A failed
write is only logged. -/
def onTimer (lib : CronLib) (ok : Bool) (nowMs : Int) (clock : Nat → Int) (s : Service) :
    Service × List CronJob :=
  let r := reserveDue lib nowMs clock s.jobs
  let toDelete := (r.1.filter (·.deleteAfterRun)).map (·.id)
  let s := s.setJobs (r.2.filter (fun j => !toDelete.contains j.id))
  ((persistStoreLocked ok s).1, r.1)

end Service

/-! ## Jobs to try things on -/

/-- A cron library that reads no expression. -/
def noCron : CronLib where
  Schedule := Unit
  Tz := Unit
  utc := ()
  parseSchedule := fun _ => none
  parseTz := fun _ => none
  upcoming := fun _ _ _ => none

/-- A job added at time 0 that fires every second. -/
def secondJob (id : String) : CronJob :=
  Service.newJob noCron 0 0 id "tick" (.every 1000)
    { message := "hello", deliver := false, channel := none, chatId := none, mode := .agent }
    none { sessionId := none, loopId := none, profileId := none }

/-- A service whose memory and file hold the same jobs. -/
def serviceOf (jobs : List CronJob) : Service where
  store := { version := 1, jobs := jobs }
  file := some { version := 1, jobs := jobs }

end Octos.Bus
