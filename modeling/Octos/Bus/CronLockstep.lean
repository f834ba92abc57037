/-
# `Octos.Bus.CronLockstep` — memory and file of the cron store

Every operation that changes the store persists it before the lock is released,
and takes its change back when the write fails.  Each operation has its own way
back:

    add_job                  drop the jobs with the new id
    remove_job, …_for_loop   put the extracted jobs at the end
    enable_job               restore the first job with the id
    toggle_job_reconciling   restore the list as it was read

The last two are exact.  The first two are exact only on some lists, and those
lists are `Reverts`.  `lockstep_iff` says that nothing else can go wrong: along
every sequence of calls, memory and file agree, failed calls change nothing and
successful calls are in the file exactly when each failing call meets a list it
can restore.
-/
import Octos.Bus.CronService

namespace Octos.Bus

/-! ## Calls -/

/-- A call of the service, with the clock readings it makes. -/
inductive Call where
  | addJob (nowMs clock : Int) (id name : String) (schedule : CronSchedule) (payload : CronPayload)
      (timezone : Option String) (origin : CronOrigin)
  | removeJob (id : String)
  | removeJobsForLoop (loopId : String)
  | enableJob (nowMs clock : Int) (id : String) (enabled : Bool)
  | toggleJobReconciling (readable : Bool) (nowMs clock : Int) (id : String) (enabled : Bool)

/-- What a call answers. -/
inductive Answer where
  | added (r : Except Unit CronJob)
  | removed (found : Bool)
  | reaped (ids : List String)
  | enabled (found : Bool)
  | toggled (r : Except Unit (Option CronJob))

/-- The answer reports a change. -/
def Answer.success : Answer → Bool
  | .added (.ok _) => true
  | .removed found => found
  | .reaped ids => !ids.isEmpty
  | .enabled found => found
  | .toggled (.ok (some _)) => true
  | _ => false

namespace Service

/-- One call; `ok` is whether its write of the file succeeds. -/
def perform (lib : CronLib) (ok : Bool) (c : Call) (s : Service) : Service × Answer :=
  match c with
  | .addJob nowMs clock id name schedule payload timezone origin =>
      let r := s.addJob ok (newJob lib nowMs clock id name schedule payload timezone origin)
      (r.1, .added r.2)
  | .removeJob id =>
      let r := s.removeJob ok id
      (r.1, .removed r.2)
  | .removeJobsForLoop loopId =>
      let r := s.removeJobsForLoop ok loopId
      (r.1, .reaped r.2)
  | .enableJob nowMs clock id enabled =>
      let r := s.enableJob lib ok nowMs clock id enabled
      (r.1, .enabled r.2)
  | .toggleJobReconciling readable nowMs clock id enabled =>
      let r := s.toggleJobReconciling lib ok readable nowMs clock id enabled
      (r.1, .toggled r.2)

/-- Calls one after another, each with the outcome of its write. -/
def performAll (lib : CronLib) (calls : List (Bool × Call)) (s : Service) : Service :=
  calls.foldl (fun s c => (s.perform lib c.1 c.2).1) s

/-- Memory holds what the file holds. -/
def Lockstep (s : Service) : Prop :=
  s.jobs = s.persisted

end Service

/-- What a call is meant to do to the list of jobs. -/
def Call.change (lib : CronLib) (c : Call) (jobs : List CronJob) : List CronJob :=
  match c with
  | .addJob nowMs clock id name schedule payload timezone origin =>
      jobs ++ [Service.newJob lib nowMs clock id name schedule payload timezone origin]
  | .removeJob id => jobs.filter (fun j => j.id != id)
  | .removeJobsForLoop loopId => jobs.filter (fun j => !j.belongsToLoop loopId)
  | .enableJob nowMs clock id enabled =>
      updateFirst (fun j => j.id == id) (CronJob.setEnabled lib nowMs clock enabled) jobs
  | .toggleJobReconciling _ nowMs clock id enabled =>
      updateFirst (fun j => j.id == id) (CronJob.setEnabled lib nowMs clock enabled) jobs

/-- What is asked of one call, from the state it starts in. -/
structure Faithful (lib : CronLib) (s : Service) (ok : Bool) (c : Call) : Prop where
  /-- memory and file agree afterwards -/
  lockstep : (s.perform lib ok c).1.Lockstep
  /-- a failed write left the list as it was -/
  unchanged : ok = false → (s.perform lib ok c).1.jobs = s.jobs
  /-- a reported change is in the file -/
  durable : (s.perform lib ok c).2.success = true →
    (s.perform lib ok c).1.persisted = c.change lib s.jobs

/-- The lists a call can restore after a failed write. -/
def Reverts (c : Call) (jobs : List CronJob) : Prop :=
  match c with
  | .addJob _ _ id _ _ _ _ _ => ∀ j ∈ jobs, j.id ≠ id
  | .removeJob id => jobs.Pairwise (fun a b => a.id = id → b.id = id)
  | .removeJobsForLoop loopId =>
      jobs.Pairwise (fun a b => a.belongsToLoop loopId = true → b.belongsToLoop loopId = true)
  | .enableJob .. => True
  | .toggleJobReconciling .. => True

/-! ## One operation at a time -/

namespace Service

theorem newJob_id (lib : CronLib) (nowMs clock : Int) (id name : String) (schedule : CronSchedule)
    (payload : CronPayload) (timezone : Option String) (origin : CronOrigin) :
    (newJob lib nowMs clock id name schedule payload timezone origin).id = id := rfl

theorem addJob_ok (s : Service) (job : CronJob) :
    (s.addJob true job).1.jobs = s.jobs ++ [job] ∧
      (s.addJob true job).1.persisted = s.jobs ++ [job] := ⟨rfl, rfl⟩

theorem addJob_failed (s : Service) (job : CronJob) :
    (s.addJob false job).1.jobs = s.jobs.filter (fun j => j.id != job.id) ∧
      (s.addJob false job).1.persisted = s.persisted := by
  refine ⟨?_, rfl⟩
  show (s.jobs ++ [job]).filter (fun j => j.id != job.id) = _
  simp

/-- Nothing matches, and nothing happens. -/
theorem extract_none {s : Service} {out : CronJob → Bool} (ok : Bool) (h : ∀ j ∈ s.jobs, out j = false) :
    (s.extract ok out).1.jobs = s.jobs ∧ (s.extract ok out).1.persisted = s.persisted ∧
      (s.extract ok out).2 = [] := by
  have hnil : s.jobs.filter out = [] := by
    rw [List.filter_eq_nil_iff]
    intro j hj
    simp [h j hj]
  have hall : s.jobs.filter (fun j => !out j) = s.jobs := by
    rw [List.filter_eq_self]
    intro j hj
    simp [h j hj]
  simp only [extract, hnil, hall, List.isEmpty_nil, if_true, setJobs_jobs, setJobs_persisted,
    and_self]

theorem extract_ok {s : Service} {out : CronJob → Bool} (h : s.jobs.filter out ≠ []) :
    (s.extract true out).1.jobs = s.jobs.filter (fun j => !out j) ∧
      (s.extract true out).1.persisted = s.jobs.filter (fun j => !out j) ∧
      (s.extract true out).2 = s.jobs.filter out := by
  have hne : (s.jobs.filter out).isEmpty = false := by simpa [List.isEmpty_iff] using h
  simp only [extract, hne]
  exact ⟨rfl, rfl, rfl⟩

theorem extract_failed {s : Service} {out : CronJob → Bool} (h : s.jobs.filter out ≠ []) :
    (s.extract false out).1.jobs = s.jobs.filter (fun j => !out j) ++ s.jobs.filter out ∧
      (s.extract false out).1.persisted = s.persisted ∧ (s.extract false out).2 = [] := by
  have hne : (s.jobs.filter out).isEmpty = false := by simpa [List.isEmpty_iff] using h
  simp only [extract, hne]
  exact ⟨rfl, rfl, rfl⟩

/-- A failed extraction leaves the file, and memory with the extracted jobs
last. -/
theorem extract_failed_any (s : Service) (out : CronJob → Bool) :
    (s.extract false out).1.jobs = s.jobs.filter (fun j => !out j) ++ s.jobs.filter out ∧
      (s.extract false out).1.persisted = s.persisted ∧ (s.extract false out).2 = [] := by
  by_cases h : s.jobs.filter out = []
  · have hnone : ∀ j ∈ s.jobs, out j = false := by
      simpa [List.filter_eq_nil_iff] using h
    obtain ⟨hj, hp, ha⟩ := extract_none false hnone
    refine ⟨?_, hp, ha⟩
    rw [hj, h, List.append_nil, List.filter_eq_self.mpr]
    intro j hj
    simp [hnone j hj]
  · exact extract_failed h

theorem enableJob_ok (lib : CronLib) (nowMs clock : Int) (id : String) (enabled : Bool) (s : Service) :
    let changed := updateFirst (fun j => j.id == id) (CronJob.setEnabled lib nowMs clock enabled) s.jobs
    let r := s.enableJob lib true nowMs clock id enabled
    r.1.jobs = changed ∧ (r.1.persisted = changed ∨ r.1.persisted = s.persisted ∧ changed = s.jobs) := by
  unfold enableJob
  cases hf : s.jobs.find? (fun j => j.id == id) with
  | none =>
      have hsame := @updateFirst_of_find_none _ _ (CronJob.setEnabled lib nowMs clock enabled) _ hf
      exact ⟨hsame.symm, Or.inr ⟨rfl, hsame⟩⟩
  | some prior => exact ⟨rfl, Or.inl rfl⟩

theorem enableJob_failed (lib : CronLib) (nowMs clock : Int) (id : String) (enabled : Bool)
    (s : Service) :
    let r := s.enableJob lib false nowMs clock id enabled
    r.1.jobs = s.jobs ∧ r.1.persisted = s.persisted ∧ r.2 = false := by
  unfold enableJob
  cases hf : s.jobs.find? (fun j => j.id == id) with
  | none => exact ⟨rfl, rfl, rfl⟩
  | some prior => exact ⟨updateFirst_revert hf (fun j => by rw [CronJob.setEnabled_id]), rfl, rfl⟩

theorem reload_file (readable : Bool) (s : Service) : (s.reload readable).file = s.file := by
  unfold reload
  split <;> rfl

theorem reload_persisted (readable : Bool) (s : Service) :
    (s.reload readable).persisted = s.persisted := by
  simp only [persisted, reload_file]

/-- Memory after the reload is the file or what it was. -/
theorem reload_jobs (readable : Bool) (s : Service) :
    (s.reload readable).jobs = s.persisted ∨ (s.reload readable).jobs = s.jobs := by
  cases readable with
  | false => exact Or.inr rfl
  | true =>
      cases hf : s.file with
      | none => exact Or.inr (by simp only [reload, hf])
      | some fresh => exact Or.inl (by simp only [reload, persisted, jobs, hf])

theorem toggle_ok (lib : CronLib) (readable : Bool) (nowMs clock : Int) (id : String) (enabled : Bool)
    (s : Service) :
    let t := s.reload readable
    let changed := updateFirst (fun j => j.id == id) (CronJob.setEnabled lib nowMs clock enabled) t.jobs
    let r := s.toggleJobReconciling lib true readable nowMs clock id enabled
    r.1.jobs = changed ∧
      (r.1.persisted = changed ∨ r.1.persisted = t.persisted ∧ changed = t.jobs) := by
  intro t changed r
  cases hf : t.jobs.find? (fun j => j.id == id) with
  | none =>
      have hsame : changed = t.jobs := updateFirst_of_find_none hf
      have hr : r = (t, .ok none) := by simp only [r, toggleJobReconciling, hf, t]
      rw [hr]
      exact ⟨hsame.symm, Or.inr ⟨rfl, hsame⟩⟩
  | some job =>
      have hr : r = ({ t.setJobs changed with file := some (t.setJobs changed).store },
          .ok (some (job.setEnabled lib nowMs clock enabled))) := by
        simp only [r, toggleJobReconciling, hf, t]
        rfl
      rw [hr]
      exact ⟨rfl, Or.inl rfl⟩

theorem toggle_failed (lib : CronLib) (readable : Bool) (nowMs clock : Int) (id : String)
    (enabled : Bool) (s : Service) :
    let t := s.reload readable
    let r := s.toggleJobReconciling lib false readable nowMs clock id enabled
    r.1.jobs = t.jobs ∧ r.1.persisted = t.persisted ∧ (Answer.toggled r.2).success = false := by
  intro t r
  cases hf : t.jobs.find? (fun j => j.id == id) with
  | none =>
      have hr : r = (t, .ok none) := by simp only [r, toggleJobReconciling, hf, t]
      rw [hr]
      exact ⟨rfl, rfl, rfl⟩
  | some job =>
      have hr : r = (t, .error ()) := by
        simp only [r, toggleJobReconciling, hf, t]
        rfl
      rw [hr]
      exact ⟨rfl, rfl, rfl⟩

end Service

/-! ## One call -/

theorem Faithful.of_eq {lib : CronLib} {s : Service} {ok : Bool} {c : Call}
    (hs : s.Lockstep) (hjobs : (s.perform lib ok c).1.jobs = s.jobs)
    (hfile : (s.perform lib ok c).1.persisted = s.persisted)
    (hfail : (s.perform lib ok c).2.success = false) : Faithful lib s ok c where
  lockstep := hjobs.trans (hs.trans hfile.symm)
  unchanged := fun _ => hjobs
  durable := fun h => absurd h (by simp [hfail])

/-- A call whose write succeeds has its change in memory and in the file. -/
theorem Faithful.of_change {lib : CronLib} {s : Service} {c : Call}
    (hjobs : (s.perform lib true c).1.jobs = c.change lib s.jobs)
    (hfile : (s.perform lib true c).1.persisted = c.change lib s.jobs) : Faithful lib s true c where
  lockstep := hjobs.trans hfile.symm
  unchanged := fun h => by cases h
  durable := fun _ => hfile

/-- An extraction whose write succeeds. -/
theorem extract_faithful {s : Service} (hs : s.Lockstep) (out : CronJob → Bool) :
    (s.extract true out).1.jobs = s.jobs.filter (fun j => !out j) ∧
      (s.extract true out).1.persisted = s.jobs.filter (fun j => !out j) := by
  by_cases h : s.jobs.filter out = []
  · have hnone : ∀ j ∈ s.jobs, out j = false := by
      simpa [List.filter_eq_nil_iff] using h
    have hall : s.jobs.filter (fun j => !out j) = s.jobs := by
      rw [List.filter_eq_self]
      intro j hj
      simp [hnone j hj]
    obtain ⟨hj, hp, -⟩ := Service.extract_none true hnone
    rw [hj, hp, hall]
    exact ⟨rfl, hs.symm⟩
  · obtain ⟨hj, hp, -⟩ := Service.extract_ok h
    exact ⟨hj, hp⟩

/-- A call whose write succeeds is faithful on every list. -/
theorem perform_ok_faithful (lib : CronLib) {s : Service} (hs : s.Lockstep) (c : Call) :
    Faithful lib s true c := by
  cases c with
  | addJob nowMs clock id name schedule payload timezone origin =>
      obtain ⟨hj, hp⟩ := s.addJob_ok (Service.newJob lib nowMs clock id name schedule payload timezone origin)
      exact .of_change hj hp
  | removeJob id =>
      obtain ⟨hj, hp⟩ := extract_faithful hs (fun j => j.id == id)
      exact .of_change hj hp
  | removeJobsForLoop loopId =>
      obtain ⟨hj, hp⟩ := extract_faithful hs (CronJob.belongsToLoop loopId)
      exact .of_change hj hp
  | enableJob nowMs clock id enabled =>
      obtain ⟨hj, hp⟩ := Service.enableJob_ok lib nowMs clock id enabled s
      rcases hp with hp | ⟨hp, hsame⟩
      · exact .of_change hj hp
      · exact .of_change hj (hp.trans (hs.symm.trans hsame.symm))
  | toggleJobReconciling readable nowMs clock id enabled =>
      have hreload : (s.reload readable).jobs = s.jobs := by
        rcases s.reload_jobs readable with h | h
        · exact h.trans hs.symm
        · exact h
      obtain ⟨hj, hp⟩ := Service.toggle_ok lib readable nowMs clock id enabled s
      rw [hreload, s.reload_persisted] at hp
      rw [hreload] at hj
      rcases hp with hp | ⟨hp, hsame⟩
      · exact .of_change hj hp
      · exact .of_change hj (hp.trans (hs.symm.trans hsame.symm))

/-- A call that loses its write is faithful exactly where its way back is
exact. -/
theorem perform_failed_faithful_iff (lib : CronLib) {s : Service} (hs : s.Lockstep) (c : Call) :
    Faithful lib s false c ↔ Reverts c s.jobs := by
  cases c with
  | addJob nowMs clock id name schedule payload timezone origin =>
      have hsame : s.jobs.filter (fun j => j.id != id) = s.jobs ↔ ∀ j ∈ s.jobs, j.id ≠ id := by
        rw [List.filter_eq_self]
        simp
      obtain ⟨hj, hp⟩ :=
        s.addJob_failed (Service.newJob lib nowMs clock id name schedule payload timezone origin)
      rw [Service.newJob_id] at hj
      constructor
      · intro h
        exact hsame.mp (hj.symm.trans (h.unchanged rfl))
      · intro h
        exact .of_eq hs (hj.trans (hsame.mpr h)) hp rfl
  | removeJob id =>
      obtain ⟨hj, hp, ha⟩ := s.extract_failed_any (fun j => j.id == id)
      have hsame := @filter_append_filter _ (fun j : CronJob => j.id == id) s.jobs
      simp only [beq_iff_eq] at hsame
      constructor
      · intro h
        exact hsame.mp (hj.symm.trans (h.unchanged rfl))
      · intro h
        refine .of_eq hs (hj.trans (hsame.mpr h)) hp ?_
        show (!(s.extract false (fun j => j.id == id)).2.isEmpty) = false
        rw [ha]
        rfl
  | removeJobsForLoop loopId =>
      obtain ⟨hj, hp, ha⟩ := s.extract_failed_any (CronJob.belongsToLoop loopId)
      have hsame := @filter_append_filter _ (CronJob.belongsToLoop loopId) s.jobs
      constructor
      · intro h
        exact hsame.mp (hj.symm.trans (h.unchanged rfl))
      · intro h
        refine .of_eq hs (hj.trans (hsame.mpr h)) hp ?_
        show (!((s.extract false (CronJob.belongsToLoop loopId)).2.map (·.id)).isEmpty) = false
        rw [ha]
        rfl
  | enableJob nowMs clock id enabled =>
      obtain ⟨hj, hp, ha⟩ := Service.enableJob_failed lib nowMs clock id enabled s
      exact iff_of_true (.of_eq hs hj hp ha) trivial
  | toggleJobReconciling readable nowMs clock id enabled =>
      obtain ⟨hj, hp, ha⟩ := Service.toggle_failed lib readable nowMs clock id enabled s
      have hreload : (s.reload readable).jobs = s.jobs := by
        rcases s.reload_jobs readable with h | h
        · exact h.trans hs.symm
        · exact h
      exact iff_of_true (.of_eq hs (hj.trans hreload) (hp.trans (s.reload_persisted readable)) ha)
        trivial

/-- The condition on one call: its write succeeds, or it can be taken back. -/
def Recoverable (s : Service) (c : Bool × Call) : Prop :=
  c.1 = true ∨ Reverts c.2 s.jobs

theorem faithful_iff (lib : CronLib) {s : Service} (hs : s.Lockstep) (c : Bool × Call) :
    Faithful lib s c.1 c.2 ↔ Recoverable s c := by
  obtain ⟨ok, c⟩ := c
  cases ok with
  | true => exact iff_of_true (perform_ok_faithful lib hs c) (Or.inl rfl)
  | false =>
      rw [perform_failed_faithful_iff lib hs c]
      simp [Recoverable]

/-! ## Sequences of calls -/

/-- A property of every call of a sequence, in the state it starts from. -/
def Along (lib : CronLib) (P : Service → Bool × Call → Prop) : Service → List (Bool × Call) → Prop
  | _, [] => True
  | s, c :: cs => P s c ∧ Along lib P (s.perform lib c.1 c.2).1 cs

/-- Along a sequence from a state in lockstep, all calls are faithful exactly
when all are recoverable. -/
theorem along_iff (lib : CronLib) : ∀ {calls : List (Bool × Call)} {s : Service}, s.Lockstep →
    (Along lib (fun s c => Faithful lib s c.1 c.2) s calls ↔ Along lib Recoverable s calls) := by
  intro calls
  induction calls with
  | nil => exact fun _ => Iff.rfl
  | cons c calls ih =>
      intro s hs
      constructor
      · rintro ⟨hc, hrest⟩
        exact ⟨(faithful_iff lib hs c).mp hc, (ih hc.lockstep).mp hrest⟩
      · rintro ⟨hc, hrest⟩
        have hfaith := (faithful_iff lib hs c).mpr hc
        exact ⟨hfaith, (ih hfaith.lockstep).mpr hrest⟩

/-- A property along a sequence holds of each of its calls. -/
theorem along_iff_forall (lib : CronLib) {P : Service → Bool × Call → Prop} :
    ∀ {calls : List (Bool × Call)} {s : Service}, Along lib P s calls ↔
      ∀ before c after, calls = before ++ c :: after → P (s.performAll lib before) c := by
  intro calls
  induction calls with
  | nil => simp [Along]
  | cons c calls ih =>
      intro s
      constructor
      · rintro ⟨hc, hrest⟩ before c' after h
        cases before with
        | nil =>
            obtain ⟨rfl, rfl⟩ := List.cons.inj h
            exact hc
        | cons b before =>
            obtain ⟨rfl, htail⟩ := List.cons.inj h
            exact ih.mp hrest before c' after htail
      · intro h
        refine ⟨h [] c calls rfl, ih.mpr ?_⟩
        intro before c' after htail
        exact h (c :: before) c' after (by rw [htail]; rfl)

/-- **Memory and file in lockstep.**  From a state in which they agree, every
call of a sequence leaves them in agreement, leaves the list alone when its
write fails and has its change in the file when it reports one, exactly when
every call of the sequence whose write fails meets a list it can restore: an
added id that is new, removed jobs that are the last ones. -/
theorem lockstep_iff (lib : CronLib) (s : Service) (hs : s.Lockstep) (calls : List (Bool × Call)) :
    (∀ before c after, calls = before ++ c :: after →
        Faithful lib (s.performAll lib before) c.1 c.2) ↔
      ∀ before c after, calls = before ++ c :: after → Recoverable (s.performAll lib before) c := by
  rw [← @along_iff_forall lib (fun s c => Faithful lib s c.1 c.2), ← along_iff_forall lib]
  exact along_iff lib hs

/-- The last job of the store can be taken back. -/
theorem lockstep_last_job :
    Faithful noCron (serviceOf [secondJob "a", secondJob "b"]) false (.removeJob "b") := by
  refine (lockstep_iff noCron (serviceOf [secondJob "a", secondJob "b"]) rfl
    [(false, .removeJob "b")]).mpr ?_ [] _ [] rfl
  intro before c after h
  obtain ⟨rfl, rfl, rfl⟩ : before = [] ∧ (false, Call.removeJob "b") = c ∧ after = [] := by
    rcases before with _ | ⟨b, before⟩
    · simpa using h
    · simp at h
  refine Or.inr ?_
  show [secondJob "a", secondJob "b"].Pairwise (fun a b => a.id = "b" → b.id = "b")
  decide

/-- **A failed removal moves the job to the end of the list.**  The file still
has it in its place. -/
theorem failed_removal_reorders :
    ¬ ∀ (lib : CronLib) (s : Service), s.Lockstep → ∀ calls before c after,
      calls = before ++ c :: after → Faithful lib (s.performAll lib before) c.1 c.2 := by
  intro h
  have hsame := (h noCron (serviceOf [secondJob "a", secondJob "b"]) rfl
    [(false, .removeJob "a")] [] _ [] rfl).unchanged rfl
  revert hsame
  decide

end Octos.Bus
