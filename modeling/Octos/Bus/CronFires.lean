/-
# `Octos.Bus.CronFires` — a scheduled occurrence fires at most once

An occurrence is a job id and the `next_run_at_ms` it was collected under.  A
tick reserves: it collects the due jobs and moves their schedule on under the
lock, so that no later tick finds the same occurrence.  What carries this across
a run is one fact about each stored job (`Ahead`): its next run lies after every
occurrence of its id that was collected, and a job with collected occurrences
remembers a last run that is not before them.

Three things can break it, and the condition of a step (`Orderly`) excludes
them: an interval that does not move the schedule past the tick, a file behind
memory that a reconciling toggle reads back, and an id that is used again.  The
clock readings of a step are not before the ticks that came before it.
-/
import Octos.Bus.CronLockstep
import Octos.Lib.Run

namespace Octos.Bus

/-! ## Steps -/

/-- An occurrence: a job id and when it was due. -/
abbrev Occurrence := String × Option Int

/-- A step: a call or a tick, with the outcome of its write and its readings of
the clock. -/
inductive Event where
  | call (ok : Bool) (c : Call)
  | tick (ok : Bool) (nowMs : Int) (clock : Nat → Int)

namespace Service

/-- One step of the service. -/
def step (lib : CronLib) (s : Service) : Event → Service
  | .call ok c => (s.perform lib ok c).1
  | .tick ok nowMs clock => (s.onTimer lib ok nowMs clock).1

/-- The occurrences a step collects. -/
def collected (lib : CronLib) (s : Service) : Event → List Occurrence
  | .call _ _ => []
  | .tick ok nowMs clock =>
      (s.onTimer lib ok nowMs clock).2.map (fun j => (j.id, j.state.nextRunAtMs))

end Service

/-- A run so far: the service, the occurrences its ticks collected and the
times they ticked at. -/
structure Journal where
  service : Service
  fired : List Occurrence
  ticked : List Int

namespace Journal

/-- The next entry. -/
def step (lib : CronLib) (h : Journal) (e : Event) : Journal where
  service := h.service.step lib e
  fired := h.fired ++ h.service.collected lib e
  ticked := match e with
    | .call _ _ => h.ticked
    | .tick _ nowMs _ => h.ticked ++ [nowMs]

/-- A run from a loaded service. -/
def start (s : Service) : Journal where
  service := s
  fired := []
  ticked := []

/-- The journal after a sequence of steps. -/
def after (lib : CronLib) (h : Journal) (es : List Event) : Journal :=
  es.foldl (step lib) h

end Journal

/-- The condition on a call. -/
def Call.Orderly (h : Journal) : Call → Prop
  | .addJob _ _ id _ _ _ _ _ => (∀ j ∈ h.service.jobs, j.id ≠ id) ∧ ∀ o ∈ h.fired, o.1 ≠ id
  | .removeJob _ => True
  | .removeJobsForLoop _ => True
  | .enableJob _ clock _ _ => ∀ t ∈ h.ticked, t ≤ clock
  | .toggleJobReconciling readable _ clock _ _ =>
      (∀ t ∈ h.ticked, t ≤ clock) ∧ (readable = true → ∀ j ∈ h.service.persisted, j ∈ h.service.jobs)

/-- The condition on a step. -/
def Orderly (h : Journal) : Event → Prop
  | .call _ c => c.Orderly h
  | .tick _ nowMs clock =>
      (∀ n, nowMs ≤ clock n) ∧
        ∀ j ∈ h.service.jobs, j.isDue nowMs = true → j.deleteAfterRun = false →
          ∀ everyMs, j.schedule = .every everyMs → nowMs < i64Add nowMs everyMs

/-- What is asked of a step: it collects no occurrence again, and a tick leaves
no job that is due at its own time. -/
structure FiresOnce (lib : CronLib) (h : Journal) (e : Event) : Prop where
  once : ∀ o ∈ h.service.collected lib e, o ∉ h.fired
  moved : ∀ ok nowMs clock, e = .tick ok nowMs clock →
    ∀ j ∈ (h.service.step lib e).jobs, j.isDue nowMs = false

/-! ## What holds of every stored job -/

/-- The job is past every occurrence of its id that was collected. -/
def Ahead (fired : List Occurrence) (j : CronJob) : Prop :=
  ∀ n, (j.id, some n) ∈ fired →
    (∃ r, j.state.lastRunAtMs = some r ∧ n ≤ r ∧
      ∀ everyMs, j.schedule = .every everyMs → r < i64Add r everyMs) ∧
    ∀ m, j.state.nextRunAtMs = some m → n < m

/-- What every step keeps. -/
structure InOrder (h : Journal) : Prop where
  distinct : (h.service.jobs.map (·.id)).Nodup
  fileDistinct : (h.service.persisted.map (·.id)).Nodup
  ahead : ∀ j ∈ h.service.jobs, Ahead h.fired j
  past : ∀ id n, (id, some n) ∈ h.fired → ∃ t ∈ h.ticked, n ≤ t

theorem cronNext_later {lib : CronLib} (hlib : lib.Later) {clock m : Int} {tz : Option String}
    {expr : String} (h : CronJob.cronNext lib clock tz expr = some m) : clock < m := by
  unfold CronJob.cronNext at h
  split at h
  · cases h
  · split at h
    · exact hlib _ _ _ _ h
    · split at h <;> exact hlib _ _ _ _ h

/-- Recomputing the next run keeps a job past its occurrences, when the clock
is past the ticks that collected them. -/
theorem Ahead.computeNextRun {lib : CronLib} (hlib : lib.Later) {fired : List Occurrence}
    {j : CronJob} {nowMs clock : Int} (hj : Ahead fired j)
    (hclock : ∀ n, (j.id, some n) ∈ fired → n ≤ clock) :
    Ahead fired (j.computeNextRun lib nowMs clock) := by
  intro n hn
  obtain ⟨⟨r, hlast, hnr, hmoves⟩, -⟩ := hj n hn
  refine ⟨⟨r, hlast, hnr, hmoves⟩, ?_⟩
  intro m hm
  change j.nextRun lib nowMs clock = some m at hm
  unfold CronJob.nextRun at hm
  cases hs : j.schedule with
  | at_ atMs => simp [hs, hlast] at hm
  | every everyMs =>
      have hmr : i64Add r everyMs = m := by simpa [hs, hlast] using hm
      have := hmoves everyMs hs
      omega
  | cron expr =>
      rw [hs] at hm
      have := cronNext_later hlib hm
      have := hclock n hn
      omega

theorem Ahead.setEnabled {lib : CronLib} (hlib : lib.Later) {fired : List Occurrence} {j : CronJob}
    {nowMs clock : Int} {enabled : Bool} (hj : Ahead fired j)
    (hclock : ∀ n, (j.id, some n) ∈ fired → n ≤ clock) :
    Ahead fired (j.setEnabled lib nowMs clock enabled) := by
  cases enabled with
  | true => exact Ahead.computeNextRun hlib (j := { j with enabled := true }) hj hclock
  | false =>
      intro n hn
      exact ⟨(hj n hn).1, fun m hm => by cases hm⟩

/-! ## Calls -/

/-- A failed or successful extraction keeps a part of the jobs, or all of them
in another order. -/
theorem extract_jobs (s : Service) (ok : Bool) (out : CronJob → Bool) :
    (s.extract ok out).1.jobs.Sublist s.jobs ∨ (s.extract ok out).1.jobs.Perm s.jobs := by
  cases ok with
  | false =>
      rw [(s.extract_failed_any out).1]
      refine Or.inr (List.perm_append_comm.trans ?_)
      exact List.filter_append_perm out s.jobs
  | true =>
      by_cases h : s.jobs.filter out = []
      · have hnone : ∀ j ∈ s.jobs, out j = false := by
          simpa [List.filter_eq_nil_iff] using h
        exact Or.inr (by rw [(Service.extract_none true hnone).1])
      · rw [(Service.extract_ok h).1]
        exact Or.inl List.filter_sublist

theorem extract_persisted (s : Service) (ok : Bool) (out : CronJob → Bool) :
    (s.extract ok out).1.persisted = s.persisted ∨
      (s.extract ok out).1.persisted = (s.extract ok out).1.jobs := by
  cases ok with
  | false => exact Or.inl (s.extract_failed_any out).2.1
  | true =>
      by_cases h : s.jobs.filter out = []
      · have hnone : ∀ j ∈ s.jobs, out j = false := by
          simpa [List.filter_eq_nil_iff] using h
        exact Or.inl (Service.extract_none true hnone).2.1
      · obtain ⟨hj, hp, -⟩ := Service.extract_ok h
        exact Or.inr (hp.trans hj.symm)

/-- A call leaves the file, or writes memory to it. -/
theorem perform_persisted (lib : CronLib) (s : Service) (ok : Bool) (c : Call) :
    (s.perform lib ok c).1.persisted = s.persisted ∨
      (s.perform lib ok c).1.persisted = (s.perform lib ok c).1.jobs := by
  cases c with
  | addJob nowMs clock id name schedule payload timezone origin =>
      cases ok with
      | true => exact Or.inr rfl
      | false => exact Or.inl rfl
  | removeJob id => exact extract_persisted s ok _
  | removeJobsForLoop loopId => exact extract_persisted s ok _
  | enableJob nowMs clock id enabled =>
      cases ok with
      | false => exact Or.inl (Service.enableJob_failed lib nowMs clock id enabled s).2.1
      | true =>
          obtain ⟨hj, hp⟩ := Service.enableJob_ok lib nowMs clock id enabled s
          rcases hp with hp | ⟨hp, -⟩
          · exact Or.inr (hp.trans hj.symm)
          · exact Or.inl hp
  | toggleJobReconciling readable nowMs clock id enabled =>
      cases ok with
      | false =>
          obtain ⟨-, hp, -⟩ := Service.toggle_failed lib readable nowMs clock id enabled s
          exact Or.inl (hp.trans (s.reload_persisted readable))
      | true =>
          obtain ⟨hj, hp⟩ := Service.toggle_ok lib readable nowMs clock id enabled s
          rcases hp with hp | ⟨hp, -⟩
          · exact Or.inr (hp.trans hj.symm)
          · exact Or.inl (hp.trans (s.reload_persisted readable))

/-- The jobs an enabling call leaves: those before it, in place, at most one of
them set. -/
theorem enableJob_jobs (lib : CronLib) (ok : Bool) (nowMs clock : Int) (id : String) (enabled : Bool)
    (s : Service) :
    (s.enableJob lib ok nowMs clock id enabled).1.jobs = s.jobs ∨
      (s.enableJob lib ok nowMs clock id enabled).1.jobs =
        updateFirst (fun j => j.id == id) (CronJob.setEnabled lib nowMs clock enabled) s.jobs := by
  cases ok with
  | false => exact Or.inl (Service.enableJob_failed lib nowMs clock id enabled s).1
  | true => exact Or.inr (Service.enableJob_ok lib nowMs clock id enabled s).1

theorem toggle_jobs (lib : CronLib) (ok readable : Bool) (nowMs clock : Int) (id : String)
    (enabled : Bool) (s : Service) :
    (s.toggleJobReconciling lib ok readable nowMs clock id enabled).1.jobs =
        (s.reload readable).jobs ∨
      (s.toggleJobReconciling lib ok readable nowMs clock id enabled).1.jobs =
        updateFirst (fun j => j.id == id) (CronJob.setEnabled lib nowMs clock enabled)
          (s.reload readable).jobs := by
  cases ok with
  | false => exact Or.inl (Service.toggle_failed lib readable nowMs clock id enabled s).1
  | true => exact Or.inr (Service.toggle_ok lib readable nowMs clock id enabled s).1

/-- What the invariant asks of a list of jobs. -/
structure ListInOrder (fired : List Occurrence) (jobs : List CronJob) : Prop where
  distinct : (jobs.map (·.id)).Nodup
  ahead : ∀ j ∈ jobs, Ahead fired j

namespace ListInOrder

variable {fired : List Occurrence} {jobs jobs' : List CronJob}

theorem sublist (h : ListInOrder fired jobs) (hsub : jobs'.Sublist jobs) : ListInOrder fired jobs' where
  distinct := h.distinct.sublist (hsub.map _)
  ahead := fun j hj => h.ahead j (hsub.subset hj)

theorem perm (h : ListInOrder fired jobs) (hperm : jobs'.Perm jobs) : ListInOrder fired jobs' where
  distinct := (hperm.map _).nodup_iff.mpr h.distinct
  ahead := fun j hj => h.ahead j (hperm.subset hj)

/-- A new id comes with no occurrences. -/
theorem snoc {job : CronJob} (h : ListInOrder fired jobs) (hnew : ∀ j ∈ jobs, j.id ≠ job.id)
    (hunfired : ∀ o ∈ fired, o.1 ≠ job.id) : ListInOrder fired (jobs ++ [job]) where
  distinct := by
    rw [List.map_append, List.nodup_append]
    refine ⟨h.distinct, by simp, ?_⟩
    intro a ha b hb
    obtain ⟨j, hj, rfl⟩ := List.mem_map.mp ha
    obtain rfl : b = job.id := by simpa using hb
    exact hnew j hj
  ahead := by
    intro j hj n hn
    rcases List.mem_append.mp hj with hj | hj
    · exact h.ahead j hj n hn
    · obtain rfl := List.mem_singleton.mp hj
      exact absurd rfl (hunfired _ hn)

theorem updateFirst {lib : CronLib} (hlib : lib.Later) {nowMs clock : Int} {id : String}
    {enabled : Bool} (h : ListInOrder fired jobs) (hclock : ∀ i n, (i, some n) ∈ fired → n ≤ clock) :
    ListInOrder fired
      (Octos.updateFirst (fun j => j.id == id) (CronJob.setEnabled lib nowMs clock enabled) jobs) where
  distinct := by
    rw [map_updateFirst (CronJob.setEnabled_id lib nowMs clock enabled)]
    exact h.distinct
  ahead := by
    intro j hj
    rcases of_mem_updateFirst hj with hj | ⟨j₀, hj₀, -, rfl⟩
    · exact h.ahead j hj
    · exact (h.ahead j₀ hj₀).setEnabled hlib (fun n hn => hclock _ n hn)

end ListInOrder

/-- The jobs after an orderly call. -/
theorem perform_inOrder {lib : CronLib} (hlib : lib.Later) {h : Journal} (hh : InOrder h) {ok : Bool}
    {c : Call} (hc : c.Orderly h) :
    ListInOrder h.fired (h.service.perform lib ok c).1.jobs := by
  have hlist : ListInOrder h.fired h.service.jobs := ⟨hh.distinct, hh.ahead⟩
  have hpast : ∀ clock, (∀ t ∈ h.ticked, t ≤ clock) → ∀ i n, (i, some n) ∈ h.fired → n ≤ clock := by
    intro clock hclock i n hn
    obtain ⟨t, ht, hnt⟩ := hh.past i n hn
    exact hnt.trans (hclock t ht)
  have hextract : ∀ out, ListInOrder h.fired (h.service.extract ok out).1.jobs := by
    intro out
    rcases extract_jobs h.service ok out with hsub | hperm
    · exact hlist.sublist hsub
    · exact hlist.perm hperm
  cases c with
  | addJob nowMs clock id name schedule payload timezone origin =>
      cases ok with
      | true => exact hlist.snoc hc.1 hc.2
      | false =>
          refine hlist.sublist ?_
          show (h.service.addJob false _).1.jobs.Sublist h.service.jobs
          rw [(h.service.addJob_failed _).1]
          exact List.filter_sublist
  | removeJob id => exact hextract _
  | removeJobsForLoop loopId => exact hextract _
  | enableJob nowMs clock id enabled =>
      show ListInOrder h.fired (h.service.enableJob lib ok nowMs clock id enabled).1.jobs
      rcases enableJob_jobs lib ok nowMs clock id enabled h.service with hj | hj
      · rw [hj]
        exact hlist
      · rw [hj]
        exact hlist.updateFirst hlib (hpast clock hc)
  | toggleJobReconciling readable nowMs clock id enabled =>
      have hreload : ListInOrder h.fired (h.service.reload readable).jobs := by
        cases readable with
        | false => exact hlist
        | true =>
            rcases h.service.reload_jobs true with hj | hj
            · rw [hj]
              exact ⟨hh.fileDistinct, fun j hmem => hh.ahead j (hc.2 rfl j hmem)⟩
            · rw [hj]
              exact hlist
      show ListInOrder h.fired
        (h.service.toggleJobReconciling lib ok readable nowMs clock id enabled).1.jobs
      rcases toggle_jobs lib ok readable nowMs clock id enabled h.service with hj | hj
      · rw [hj]
        exact hreload
      · rw [hj]
        exact hreload.updateFirst hlib (hpast clock hc.1)

/-! ## Ticks -/

namespace Service

@[simp] theorem reserve_id (lib : CronLib) (nowMs clock : Int) (j : CronJob) :
    (reserve lib nowMs clock j).id = j.id := by
  simp only [reserve]
  split <;> rfl

/-- The loop collects the due jobs as it finds them. -/
theorem reserveDue_due (lib : CronLib) (nowMs : Int) : ∀ (jobs : List CronJob) (clock : Nat → Int),
    (reserveDue lib nowMs clock jobs).1 = jobs.filter (CronJob.isDue nowMs) := by
  intro jobs
  induction jobs with
  | nil => intro clock; rfl
  | cons j jobs ih =>
      intro clock
      cases hdue : j.isDue nowMs with
      | true => simp [reserveDue, hdue, ih]
      | false => simp [reserveDue, hdue, ih]

/-- It keeps the ids in place. -/
theorem reserveDue_ids (lib : CronLib) (nowMs : Int) : ∀ (jobs : List CronJob) (clock : Nat → Int),
    (reserveDue lib nowMs clock jobs).2.map (·.id) = jobs.map (·.id) := by
  intro jobs
  induction jobs with
  | nil => intro clock; rfl
  | cons j jobs ih =>
      intro clock
      cases hdue : j.isDue nowMs with
      | true => simp [reserveDue, hdue, ih]
      | false => simp [reserveDue, hdue, ih]

/-- Every job after the loop was reserved, or was not due. -/
theorem of_mem_reserveDue (lib : CronLib) (nowMs : Int) : ∀ (jobs : List CronJob)
    (clock : Nat → Int) (j : CronJob), j ∈ (reserveDue lib nowMs clock jobs).2 →
      (j ∈ jobs ∧ j.isDue nowMs = false) ∨
        ∃ j₀ ∈ jobs, j₀.isDue nowMs = true ∧ ∃ n, j = reserve lib nowMs (clock n) j₀ := by
  intro jobs
  induction jobs with
  | nil =>
      intro clock j hj
      cases hj
  | cons k jobs ih =>
      intro clock j hj
      have htail : j ∈ (reserveDue lib nowMs (fun n => clock (n + 1)) jobs).2 →
          (j ∈ k :: jobs ∧ j.isDue nowMs = false) ∨
            ∃ j₀ ∈ k :: jobs, j₀.isDue nowMs = true ∧ ∃ n, j = reserve lib nowMs (clock n) j₀ := by
        intro hj
        rcases ih _ j hj with ⟨hmem, hdue⟩ | ⟨j₀, hmem, hdue, n, rfl⟩
        · exact Or.inl ⟨List.mem_cons_of_mem _ hmem, hdue⟩
        · exact Or.inr ⟨j₀, List.mem_cons_of_mem _ hmem, hdue, n + 1, rfl⟩
      rw [reserveDue] at hj
      cases hdue : k.isDue nowMs with
      | true =>
          simp only [hdue, if_true] at hj
          rcases List.mem_cons.mp hj with rfl | hj
          · exact Or.inr ⟨k, List.mem_cons_self, hdue, 0, rfl⟩
          · exact htail hj
      | false =>
          simp only [hdue] at hj
          rcases List.mem_cons.mp hj with rfl | hj
          · exact Or.inl ⟨List.mem_cons_self, hdue⟩
          · exact htail hj

theorem onTimer_due (lib : CronLib) (ok : Bool) (nowMs : Int) (clock : Nat → Int) (s : Service) :
    (s.onTimer lib ok nowMs clock).2 = s.jobs.filter (CronJob.isDue nowMs) :=
  reserveDue_due lib nowMs s.jobs clock

theorem onTimer_jobs (lib : CronLib) (ok : Bool) (nowMs : Int) (clock : Nat → Int) (s : Service) :
    (s.onTimer lib ok nowMs clock).1.jobs =
      (reserveDue lib nowMs clock s.jobs).2.filter (fun j =>
        !(((s.jobs.filter (CronJob.isDue nowMs)).filter (·.deleteAfterRun)).map (·.id)).contains j.id) := by
  rw [← reserveDue_due lib nowMs s.jobs clock]
  cases ok <;> rfl

theorem onTimer_persisted (lib : CronLib) (ok : Bool) (nowMs : Int) (clock : Nat → Int) (s : Service) :
    (s.onTimer lib ok nowMs clock).1.persisted = s.persisted ∨
      (s.onTimer lib ok nowMs clock).1.persisted = (s.onTimer lib ok nowMs clock).1.jobs := by
  cases ok with
  | true => exact Or.inr rfl
  | false => exact Or.inl rfl

/-- What a tick leaves: jobs that were not due, and due jobs that stay and have
run. -/
theorem of_mem_onTimer {lib : CronLib} {ok : Bool} {nowMs : Int} {clock : Nat → Int} {s : Service}
    {j : CronJob} (hj : j ∈ (s.onTimer lib ok nowMs clock).1.jobs) :
    (j ∈ s.jobs ∧ j.isDue nowMs = false) ∨
      ∃ j₀ ∈ s.jobs, j₀.isDue nowMs = true ∧ j₀.deleteAfterRun = false ∧
        ∃ n, j = reserve lib nowMs (clock n) j₀ := by
  rw [onTimer_jobs] at hj
  obtain ⟨hmem, hkept⟩ := List.mem_filter.mp hj
  rcases of_mem_reserveDue lib nowMs s.jobs clock j hmem with hold | ⟨j₀, hj₀, hdue, n, rfl⟩
  · exact Or.inl hold
  · refine Or.inr ⟨j₀, hj₀, hdue, ?_, n, rfl⟩
    -- a job that is deleted after its run is on the list of those to delete
    cases hdel : j₀.deleteAfterRun with
    | false => rfl
    | true =>
        have hin : j₀.id ∈ ((s.jobs.filter (CronJob.isDue nowMs)).filter (·.deleteAfterRun)).map (·.id) :=
          List.mem_map_of_mem (List.mem_filter.mpr ⟨List.mem_filter.mpr ⟨hj₀, hdue⟩, hdel⟩)
        rw [reserve_id, Bool.not_eq_true', List.contains_eq_mem, decide_eq_false_iff_not] at hkept
        exact absurd hin hkept

end Service

/-- Due is enabled with a next run that has come. -/
theorem isDue_iff {j : CronJob} {nowMs : Int} :
    j.isDue nowMs = true ↔ j.enabled = true ∧ ∃ n, j.state.nextRunAtMs = some n ∧ n ≤ nowMs := by
  unfold CronJob.isDue
  cases j.state.nextRunAtMs <;> simp

/-- A reserved job that stays has its next run after the tick. -/
theorem reserve_next {lib : CronLib} (hlib : lib.Later) {nowMs clock : Int} {j : CronJob}
    (hdel : j.deleteAfterRun = false) (hclock : nowMs ≤ clock)
    (hmoves : ∀ everyMs, j.schedule = .every everyMs → nowMs < i64Add nowMs everyMs) {m : Int}
    (hm : (Service.reserve lib nowMs clock j).state.nextRunAtMs = some m) : nowMs < m := by
  simp only [Service.reserve, hdel] at hm
  change CronJob.nextRun lib nowMs clock { j with
    state := { j.state with lastRunAtMs := some nowMs, lastStatus := some "ok" } } = some m at hm
  unfold CronJob.nextRun at hm
  cases hs : j.schedule with
  | at_ atMs => simp [hs] at hm
  | every everyMs =>
      have hmr : i64Add nowMs everyMs = m := by simpa [hs] using hm
      have := hmoves everyMs hs
      omega
  | cron expr =>
      rw [hs] at hm
      have := cronNext_later hlib hm
      omega

theorem reserve_last (lib : CronLib) (nowMs clock : Int) (j : CronJob) :
    (Service.reserve lib nowMs clock j).state.lastRunAtMs = some nowMs := by
  simp only [Service.reserve]
  split <;> rfl

theorem reserve_schedule (lib : CronLib) (nowMs clock : Int) (j : CronJob) :
    (Service.reserve lib nowMs clock j).schedule = j.schedule := by
  simp only [Service.reserve]
  split <;> rfl

/-- The occurrences of a tick are its due jobs. -/
theorem mem_collected {lib : CronLib} {s : Service} {ok : Bool} {nowMs : Int} {clock : Nat → Int}
    {id : String} {m : Option Int} :
    (id, m) ∈ s.collected lib (.tick ok nowMs clock) ↔
      ∃ j ∈ s.jobs, j.isDue nowMs = true ∧ j.id = id ∧ j.state.nextRunAtMs = m := by
  show (id, m) ∈ (s.onTimer lib ok nowMs clock).2.map (fun j => (j.id, j.state.nextRunAtMs)) ↔ _
  rw [Service.onTimer_due]
  simp [and_assoc]

/-- **An orderly step fires once.** -/
theorem orderly_firesOnce {lib : CronLib} (hlib : lib.Later) {h : Journal} (hh : InOrder h)
    {e : Event} (he : Orderly h e) : FiresOnce lib h e := by
  refine ⟨?_, ?_⟩
  · rintro ⟨id, m⟩ ho hfired
    cases e with
    | call ok c => cases ho
    | tick ok nowMs clock =>
        obtain ⟨j, hj, hdue, rfl, rfl⟩ := mem_collected.mp ho
        obtain ⟨-, n, hn, -⟩ := isDue_iff.mp hdue
        rw [hn] at hfired
        exact lt_irrefl n ((hh.ahead j hj n hfired).2 n hn)
  · rintro ok nowMs clock rfl j hj
    rcases Service.of_mem_onTimer hj with ⟨-, hdue⟩ | ⟨j₀, hj₀, hdue, hdel, n, rfl⟩
    · exact hdue
    · rw [Bool.eq_false_iff]
      intro hagain
      obtain ⟨-, m, hm, hle⟩ := isDue_iff.mp hagain
      have := reserve_next hlib hdel (he.1 n) (he.2 j₀ hj₀ hdue hdel) hm
      omega

/-- The jobs after an orderly tick. -/
theorem tick_inOrder {lib : CronLib} (hlib : lib.Later) {h : Journal} (hh : InOrder h) {ok : Bool}
    {nowMs : Int} {clock : Nat → Int} (he : Orderly h (.tick ok nowMs clock)) :
    ListInOrder (h.fired ++ h.service.collected lib (.tick ok nowMs clock))
      (h.service.onTimer lib ok nowMs clock).1.jobs := by
  refine ⟨?_, ?_⟩
  · rw [Service.onTimer_jobs]
    refine List.Nodup.sublist (List.filter_sublist.map _) ?_
    rw [Service.reserveDue_ids]
    exact hh.distinct
  · intro j hj n hn
    rcases Service.of_mem_onTimer hj with ⟨hmem, hdue⟩ | ⟨j₀, hj₀, hdue, hdel, k, rfl⟩
    · rcases List.mem_append.mp hn with hn | hn
      · exact hh.ahead j hmem n hn
      · -- the occurrence is of another job with this id: there is none
        obtain ⟨j', hj', hdue', hid, -⟩ := mem_collected.mp hn
        obtain rfl := List.inj_on_of_nodup_map hh.distinct hj' hmem hid
        rw [hdue] at hdue'
        cases hdue'
    · obtain ⟨-, m, hm, hle⟩ := isDue_iff.mp hdue
      have hmoves := he.2 j₀ hj₀ hdue hdel
      have hn' : n ≤ nowMs := by
        rcases List.mem_append.mp hn with hn | hn
        · rw [Service.reserve_id] at hn
          have := (hh.ahead j₀ hj₀ n hn).2 m hm
          omega
        · obtain ⟨j', hj', hdue', hid, hnext⟩ := mem_collected.mp hn
          obtain ⟨-, m', hm', hle'⟩ := isDue_iff.mp hdue'
          obtain rfl : m' = n := by simpa [hnext] using hm'.symm
          exact hle'
      refine ⟨⟨nowMs, reserve_last lib nowMs _ j₀, hn', ?_⟩, ?_⟩
      · intro everyMs hevery
        rw [reserve_schedule] at hevery
        exact hmoves everyMs hevery
      · intro m' hm'
        exact hn'.trans_lt (reserve_next hlib hdel (he.1 k) hmoves hm')

/-! ## Runs -/

/-- **An orderly step keeps the invariant.** -/
theorem orderly_inOrder {lib : CronLib} (hlib : lib.Later) {h : Journal} (hh : InOrder h)
    {e : Event} (he : Orderly h e) : InOrder (h.step lib e) := by
  cases e with
  | call ok c =>
      have hlist := @perform_inOrder lib hlib h hh ok c he
      have hfired : (h.step lib (.call ok c)).fired = h.fired := List.append_nil _
      refine ⟨hlist.distinct, ?_, ?_, ?_⟩
      · show ((h.service.perform lib ok c).1.persisted.map (·.id)).Nodup
        rcases perform_persisted lib h.service ok c with hp | hp
        · rw [hp]
          exact hh.fileDistinct
        · rw [hp]
          exact hlist.distinct
      · rw [hfired]
        exact hlist.ahead
      · rw [hfired]
        exact hh.past
  | tick ok nowMs clock =>
      have hlist := tick_inOrder hlib hh he
      refine ⟨hlist.distinct, ?_, hlist.ahead, ?_⟩
      · show ((h.service.onTimer lib ok nowMs clock).1.persisted.map (·.id)).Nodup
        rcases Service.onTimer_persisted lib ok nowMs clock h.service with hp | hp
        · rw [hp]
          exact hh.fileDistinct
        · rw [hp]
          exact hlist.distinct
      · intro id n hn
        show ∃ t ∈ h.ticked ++ [nowMs], n ≤ t
        rcases List.mem_append.mp hn with hn | hn
        · obtain ⟨t, ht, hle⟩ := hh.past id n hn
          exact ⟨t, List.mem_append_left _ ht, hle⟩
        · obtain ⟨j, -, hdue, -, hnext⟩ := mem_collected.mp hn
          obtain ⟨-, m, hm, hle⟩ := isDue_iff.mp hdue
          obtain rfl : m = n := by simpa [hnext] using hm.symm
          exact ⟨nowMs, by simp, hle⟩

/-- Every step of a sequence is orderly where it is taken. -/
def OrderlyRun (lib : CronLib) (h : Journal) (es : List Event) : Prop :=
  ∀ before e after, es = before ++ e :: after → Orderly (h.after lib before) e

theorem orderlyRun_cons {lib : CronLib} {h : Journal} {e : Event} {es : List Event} :
    OrderlyRun lib h (e :: es) ↔ Orderly h e ∧ OrderlyRun lib (h.step lib e) es := by
  constructor
  · intro hrun
    refine ⟨hrun [] e es rfl, ?_⟩
    intro before e' after hes
    exact hrun (e :: before) e' after (by rw [hes]; rfl)
  · rintro ⟨he, hrun⟩ before e' after hes
    cases before with
    | nil =>
        obtain ⟨rfl, rfl⟩ := List.cons.inj hes
        exact he
    | cons b before =>
        obtain ⟨rfl, htail⟩ := List.cons.inj hes
        exact hrun before e' after htail

theorem inOrder_after {lib : CronLib} (hlib : lib.Later) : ∀ {es : List Event} {h : Journal},
    InOrder h → OrderlyRun lib h es → InOrder (h.after lib es) := by
  intro es
  induction es with
  | nil => exact fun hh _ => hh
  | cons e es ih =>
      intro h hh hrun
      obtain ⟨he, hrest⟩ := orderlyRun_cons.mp hrun
      exact ih (orderly_inOrder hlib hh he) hrest

/-- **An occurrence fires at most once.**  From a store with distinct ids, in
every run of orderly steps, no tick collects an occurrence an earlier tick
collected, and no tick leaves a job that is due at its own time. -/
theorem occurrence_fires_once (lib : CronLib) (hlib : lib.Later) (s : Service)
    (hmem : (s.jobs.map (·.id)).Nodup) (hfile : (s.persisted.map (·.id)).Nodup) (es : List Event)
    (hrun : OrderlyRun lib (Journal.start s) es) :
    ∀ before e after, es = before ++ e :: after →
      FiresOnce lib ((Journal.start s).after lib before) e := by
  intro before e after hes
  have hstart : InOrder (Journal.start s) :=
    { distinct := hmem
      fileDistinct := hfile
      ahead := fun j _ n hn => by cases hn
      past := fun id n hn => by cases hn }
  have hbefore : OrderlyRun lib (Journal.start s) before := by
    intro b e' a hb
    exact hrun b e' (a ++ e :: after) (by rw [hes, hb]; simp)
  exact orderly_firesOnce hlib (inOrder_after hlib hstart hbefore) (hrun before e after hes)

/-- A tick that loses its write, and the tick after it. -/
theorem occurrence_fires_once_unwritten :
    FiresOnce noCron ((Journal.start (serviceOf [secondJob "a", secondJob "b"])).after noCron
      [.tick false 1000 (fun _ => 1000)]) (.tick true 1500 (fun _ => 1500)) := by
  have hmoves : ∀ nowMs : Int, nowMs < i64Add nowMs 1000 → ∀ s : Service,
      (∀ j ∈ s.jobs, j.schedule = .every 1000) → ∀ fired ticked ok,
      Orderly ⟨s, fired, ticked⟩ (.tick ok nowMs (fun _ => nowMs)) := by
    intro nowMs hlt s hs fired ticked ok
    refine ⟨fun _ => le_refl _, ?_⟩
    intro j hj _ _ everyMs hevery
    obtain rfl : 1000 = everyMs := by simpa [hs j hj] using hevery
    exact hlt
  refine occurrence_fires_once noCron (fun _ _ _ _ h => by cases h)
    (serviceOf [secondJob "a", secondJob "b"]) (by decide) (by decide)
    [.tick false 1000 (fun _ => 1000), .tick true 1500 (fun _ => 1500)] ?_
    [.tick false 1000 (fun _ => 1000)] _ [] rfl
  refine orderlyRun_cons.mpr ⟨hmoves 1000 (by decide) _ (by decide) _ _ _, ?_⟩
  refine orderlyRun_cons.mpr ⟨hmoves 1500 (by decide) _ (by decide) _ _ _, ?_⟩
  intro before e after hes
  simp at hes

/-- **A tick whose write failed is taken back by a reconciling toggle.**  The
toggle of `b` reads the old file; `a` is due again at the time it was fired. -/
theorem stale_reload_fires_again :
    ¬ ∀ (lib : CronLib), lib.Later → ∀ s : Service, s.Lockstep → (s.jobs.map (·.id)).Nodup →
      ∀ es before e after, es = before ++ e :: after →
        FiresOnce lib ((Journal.start s).after lib before) e := by
  intro h
  have honce := (h noCron (fun _ _ _ _ h => by cases h)
    (serviceOf [secondJob "a", secondJob "b"]) rfl (by decide) _
    [.tick false 1000 (fun _ => 1000), .call true (.toggleJobReconciling true 1000 1000 "b" false)]
    (.tick true 1000 (fun _ => 1000)) [] rfl).once ("a", some 1000)
  revert honce
  decide

end Octos.Bus
