/-
# `Octos.Agent.TaskVerdicts` — a verdict is final

A task is final when it is `Completed`, `Cancelled`, or `Failed` by its owner.
No call changes the status of a final task (`TaskCall.final`); the failure of an
observer gives way to `mark_completed` and to nothing else.  The composite
writers only make calls and insert tasks under fresh ids, so what a call
preserves every interleaving of the writers preserves.
-/
import Octos.Agent.TaskSupervisor

namespace Octos.Agent

/-! ## Well-formed tasks -/

/-- The runtime state of the same name as a verdict. -/
def TaskStatus.verdict : TaskStatus → Option TaskRuntimeState
  | .completed => some .completed
  | .failed => some .failed
  | .cancelled => some .cancelled
  | _ => none

/-- The provisional flag is on failed tasks only, and a verdict is in the runtime
state too, with its time. -/
structure BackgroundTask.Sound (task : BackgroundTask) : Prop where
  observed : task.failedByObserver = true → task.status = .failed
  verdict : ∀ r, task.status.verdict = some r → task.runtimeState = r ∧ task.completedAt.isSome = true

/-- No call can take the verdict back. -/
def BackgroundTask.Final (task : BackgroundTask) : Prop :=
  task.status.isTerminal = true ∧ task.failedByObserver = false

variable {now : Nat} {task task' : BackgroundTask} {c : TaskCall}

theorem TaskStatus.verdict_none {status : TaskStatus} (h : status.isTerminal = false) :
    status.verdict = none := by
  cases status <;> first | rfl | cases h

/-- The fields a verdict is read from are left alone. -/
structure BackgroundTask.SameVerdict (task task' : BackgroundTask) : Prop where
  status : task'.status = task.status
  runtimeState : task'.runtimeState = task.runtimeState
  completedAt : task'.completedAt = task.completedAt
  observed : task'.failedByObserver = task.failedByObserver

theorem BackgroundTask.SameVerdict.sound (h : task.SameVerdict task') (hs : task.Sound) :
    task'.Sound := by
  refine ⟨?_, ?_⟩
  · rw [h.observed, h.status]
    exact hs.observed
  · rw [h.status, h.runtimeState, h.completedAt]
    exact hs.verdict

/-- **What a call can do**: it leaves the verdict alone; or it moves a task that has
none, to another such state or to a verdict; or it fails a failed task again; or it
completes a task that an observer had failed. -/
inductive BackgroundTask.Moves (task : BackgroundTask) : TaskCall → BackgroundTask → Prop
  | same {c : TaskCall} {task' : BackgroundTask} (h : task.SameVerdict task') : Moves task c task'
  | ongoing {c : TaskCall} {task' : BackgroundTask} (h : task.status.isTerminal = false)
      (hstill : task'.status.isTerminal = false)
      (hobserved : task'.failedByObserver = task.failedByObserver) : Moves task c task'
  | verdict {c : TaskCall} {task' : BackgroundTask} (h : task.status.isTerminal = false)
      (hverdict : task'.status.verdict = some task'.runtimeState)
      (hcompleted : task'.completedAt.isSome = true)
      (hobserved : task'.failedByObserver = true →
        task'.status = .failed ∨ task.failedByObserver = true) : Moves task c task'
  | again {c : TaskCall} {task' : BackgroundTask} (h : task.status = .failed)
      (hstill : task'.status = .failed) (hruntime : task'.runtimeState = .failed)
      (hcompleted : task'.completedAt.isSome = true)
      (hobserved : task'.failedByObserver = true → task.failedByObserver = true) : Moves task c task'
  | overridden {files : List String} {task' : BackgroundTask} (h : task.status = .failed)
      (hprovisional : task.failedByObserver = true) (hstatus : task'.status = .completed)
      (hruntime : task'.runtimeState = .completed) (hcompleted : task'.completedAt.isSome = true)
      (hobserved : task'.failedByObserver = false) : Moves task (.markCompleted files) task'

theorem markCompleted_moves {files : List String} (h : task.markCompleted now files = some task') :
    task.Moves (.markCompleted files) task' := by
  simp only [BackgroundTask.markCompleted] at h
  split at h
  · cases h
  · next hopen =>
      obtain rfl := Option.some.inj h
      cases hterm : task.status.isTerminal with
      | false =>
          refine .verdict hterm rfl rfl (fun hobserved => Or.inr ?_)
          simpa [hterm] using hobserved
      | true =>
          have hobs : task.observerFailed = true := by simpa [hterm] using hopen
          obtain ⟨hfailed, hprov⟩ := Bool.and_eq_true_iff.mp hobs
          exact .overridden (of_decide_eq_true hfailed) hprov rfl rfl rfl rfl

theorem markFailedInner_moves {error : String} {observed : Bool} {c : TaskCall}
    (h : task.markFailedInner now error observed = some task') : task.Moves c task' := by
  simp only [BackgroundTask.markFailedInner] at h
  split at h
  · cases h
  · next hopen =>
      obtain rfl := Option.some.inj h
      by_cases hfailed : task.status = .failed
      · refine .again hfailed rfl rfl rfl (fun hobserved => ?_)
        cases observed <;> simp_all
      · refine .verdict ?_ rfl rfl (fun _ => Or.inl rfl)
        cases hstatus : task.status <;> simp_all [TaskStatus.isTerminal]

/-- A call that is refused on a task with a verdict. -/
theorem unless_terminal {t : BackgroundTask}
    (h : (if task.status.isTerminal = true then none else some t) = some task') :
    task.status.isTerminal = false ∧ task' = t := by
  split at h
  · cases h
  · next hopen => exact ⟨by simpa using hopen, (Option.some.inj h).symm⟩

theorem TaskCall.moves (h : c.apply now task = some task') : task.Moves c task' := by
  cases c with
  | markRunning =>
      obtain ⟨hopen, rfl⟩ := unless_terminal h
      exact .ongoing hopen rfl rfl
  | markRuntimeState state detail =>
      obtain ⟨hopen, rfl⟩ := unless_terminal h
      exact .ongoing hopen hopen rfl
  | markCompleted files => exact markCompleted_moves h
  | markFailed error => exact markFailedInner_moves h
  | markFailedObserved error => exact markFailedInner_moves h
  | markParked reason =>
      obtain ⟨hopen, rfl⟩ := unless_terminal h
      exact .ongoing hopen rfl rfl
  | cancel =>
      obtain ⟨hopen, rfl⟩ := unless_terminal h
      exact .verdict hopen rfl rfl (fun hobserved => Or.inr hobserved)
  | recordFinalOutput output =>
      obtain rfl := Option.some.inj h
      exact .same ⟨rfl, rfl, rfl, rfl⟩
  | setM13bProjection source role summary count policy =>
      simp only [TaskCall.apply, BackgroundTask.setM13bProjection] at h
      split at h
      · obtain rfl := Option.some.inj h
        exact .same ⟨rfl, rfl, rfl, rfl⟩
      · cases h
  | setWorkspaceRoot root =>
      simp only [TaskCall.apply, BackgroundTask.setWorkspaceRoot] at h
      split at h
      · cases h
      · split at h
        · cases h
        · obtain rfl := Option.some.inj h
          exact .same ⟨rfl, rfl, rfl, rfl⟩
  | setToolInput input =>
      obtain rfl := Option.some.inj h
      exact .same ⟨rfl, rfl, rfl, rfl⟩
  | setProjectionMetadata metadata =>
      obtain rfl := Option.some.inj h
      exact .same ⟨rfl, rfl, rfl, rfl⟩
  | markChildSessionOutcome terminal join =>
      obtain rfl := Option.some.inj h
      exact .same ⟨rfl, rfl, rfl, rfl⟩

/-- What names a task. -/
structure BackgroundTask.SameIdentity (task task' : BackgroundTask) : Prop where
  id : task'.id = task.id
  toolName : task'.toolName = task.toolName
  toolCallId : task'.toolCallId = task.toolCallId
  parentSessionKey : task'.parentSessionKey = task.parentSessionKey

/-- No call renames a task. -/
theorem TaskCall.identity (h : c.apply now task = some task') : task.SameIdentity task' := by
  cases c with
  | markRunning | markRuntimeState | markParked | cancel =>
      obtain ⟨-, rfl⟩ := unless_terminal h
      exact ⟨rfl, rfl, rfl, rfl⟩
  | markCompleted files =>
      simp only [TaskCall.apply, BackgroundTask.markCompleted] at h
      split at h
      · cases h
      · obtain rfl := Option.some.inj h
        exact ⟨rfl, rfl, rfl, rfl⟩
  | markFailed | markFailedObserved =>
      simp only [TaskCall.apply, BackgroundTask.markFailedInner] at h
      split at h
      · cases h
      · obtain rfl := Option.some.inj h
        exact ⟨rfl, rfl, rfl, rfl⟩
  | setM13bProjection source role summary count policy =>
      simp only [TaskCall.apply, BackgroundTask.setM13bProjection] at h
      split at h
      · obtain rfl := Option.some.inj h
        exact ⟨rfl, rfl, rfl, rfl⟩
      · cases h
  | setWorkspaceRoot root =>
      simp only [TaskCall.apply, BackgroundTask.setWorkspaceRoot] at h
      split at h
      · cases h
      · split at h
        · cases h
        · obtain rfl := Option.some.inj h
          exact ⟨rfl, rfl, rfl, rfl⟩
  | recordFinalOutput | setToolInput | setProjectionMetadata | markChildSessionOutcome =>
      obtain rfl := Option.some.inj h
      exact ⟨rfl, rfl, rfl, rfl⟩

theorem BackgroundTask.Moves.sound (h : task.Moves c task') (hs : task.Sound) : task'.Sound := by
  cases h with
  | same h => exact h.sound hs
  | ongoing h hstill hobserved =>
      refine ⟨?_, ?_⟩
      · intro hflag
        rw [hobserved] at hflag
        rw [hs.observed hflag] at h
        cases h
      · intro r hr
        rw [TaskStatus.verdict_none hstill] at hr
        cases hr
  | verdict h hverdict hcompleted hobserved =>
      refine ⟨?_, ?_⟩
      · intro hflag
        rcases hobserved hflag with hfailed | hbefore
        · exact hfailed
        · rw [hs.observed hbefore] at h
          cases h
      · intro r hr
        exact ⟨Option.some.inj (hverdict.symm.trans hr), hcompleted⟩
  | again h hstill hruntime hcompleted hobserved =>
      refine ⟨fun _ => hstill, ?_⟩
      intro r hr
      rw [hstill] at hr
      exact ⟨hruntime.trans (Option.some.inj hr), hcompleted⟩
  | overridden h hprovisional hstatus hruntime hcompleted hobserved =>
      refine ⟨?_, ?_⟩
      · intro hflag
        rw [hobserved] at hflag
        cases hflag
      · intro r hr
        rw [hstatus] at hr
        exact ⟨hruntime.trans (Option.some.inj hr), hcompleted⟩

/-- **No call changes a final verdict.** -/
theorem BackgroundTask.Moves.final (h : task.Moves c task') (hf : task.Final) :
    task'.status = task.status ∧ task'.Final := by
  obtain ⟨hterm, hflag⟩ := hf
  cases h with
  | same h =>
      refine ⟨h.status, ?_, ?_⟩
      · rw [h.status]
        exact hterm
      · rw [h.observed]
        exact hflag
  | ongoing h hstill hobserved =>
      rw [h] at hterm
      cases hterm
  | verdict h hverdict hcompleted hobserved =>
      rw [h] at hterm
      cases hterm
  | again h hstill hruntime hcompleted hobserved =>
      refine ⟨hstill.trans h.symm, ?_, ?_⟩
      · rw [hstill]
        rfl
      · cases hflag' : task'.failedByObserver with
        | false => rfl
        | true =>
            rw [hobserved hflag'] at hflag
            cases hflag
  | overridden h hprovisional hstatus hruntime hcompleted hobserved =>
      rw [hprovisional] at hflag
      cases hflag

/-- A failure stays, or is an observer's and is completed. -/
theorem BackgroundTask.Moves.provisional (h : task.Moves c task') (hf : task.status = .failed) :
    task'.status = .failed ∨ task.failedByObserver = true ∧ task'.status = .completed ∧
      ∃ files, c = .markCompleted files := by
  cases h with
  | same h => exact Or.inl (h.status.trans hf)
  | ongoing h hstill hobserved =>
      rw [hf] at h
      cases h
  | verdict h hverdict hcompleted hobserved =>
      rw [hf] at h
      cases h
  | again h hstill hruntime hcompleted hobserved => exact Or.inl hstill
  | overridden h hprovisional hstatus hruntime hcompleted hobserved =>
      exact Or.inr ⟨hprovisional, hstatus, _, rfl⟩

/-! ## Calls on the table -/

section Table

variable {tasks : Tasks} {id j : String}

/-- The task of an id after a call. -/
theorem call_get (h : tasks[j]? = some task) (id : String) (now : Nat) (c : TaskCall) :
    ∃ task', (tasks.call id now c)[j]? = some task' ∧
      (task' = task ∨ id = j ∧ c.apply now task = some task') := by
  unfold Tasks.call
  split
  · exact ⟨task, h, Or.inl rfl⟩
  · next task' happly =>
      obtain ⟨t, ht, hcall⟩ := Option.bind_eq_some_iff.mp happly
      by_cases hid : id = j
      · subst hid
        obtain rfl : t = task := Option.some.inj (ht.symm.trans h)
        exact ⟨task', Table.get_insert_self _ _ _, Or.inr ⟨rfl, hcall⟩⟩
      · exact ⟨task, (Table.get_insert_ne _ _ hid).trans h, Or.inl rfl⟩

/-- A task after a call was there before it. -/
theorem of_call_get {c : TaskCall} (h : (tasks.call id now c)[j]? = some task') :
    ∃ task, tasks[j]? = some task ∧ (task' = task ∨ id = j ∧ c.apply now task = some task') := by
  unfold Tasks.call at h
  split at h
  · exact ⟨task', h, Or.inl rfl⟩
  · next t happly =>
      obtain ⟨u, hu, hcall⟩ := Option.bind_eq_some_iff.mp happly
      rw [Table.get_insert] at h
      split at h
      · next hid =>
          obtain rfl := Option.some.inj h
          subst hid
          exact ⟨u, hu, Or.inr ⟨rfl, hcall⟩⟩
      · exact ⟨task', h, Or.inl rfl⟩

/-- A property that these calls preserve stays with the task of an id. -/
theorem calls_keep {P : BackgroundTask → Prop} : ∀ {cs : List (String × TaskCall)} {tasks : Tasks}
    {task : BackgroundTask},
    (∀ c ∈ cs, c.1 = j → ∀ t t' : BackgroundTask, P t → c.2.apply now t = some t' → P t') →
    tasks[j]? = some task → P task → ∃ task', (tasks.calls now cs)[j]? = some task' ∧ P task' := by
  intro cs
  induction cs with
  | nil => exact fun _ h hp => ⟨_, h, hp⟩
  | cons c cs ih =>
      intro tasks task hkeep h hp
      obtain ⟨t, ht, hmoved⟩ := call_get h c.1 now c.2
      have hpt : P t := by
        rcases hmoved with rfl | ⟨hid, happly⟩
        · exact hp
        · exact hkeep c List.mem_cons_self hid task t hp happly
      exact ih (fun x hx => hkeep x (List.mem_cons_of_mem _ hx)) ht hpt

/-- A property that every call preserves stays with all tasks. -/
theorem calls_all {P : BackgroundTask → Prop}
    (hkeep : ∀ (c : TaskCall) (t t' : BackgroundTask), P t → c.apply now t = some t' → P t') :
    ∀ {cs : List (String × TaskCall)} {tasks : Tasks},
      (∀ (j : String) t, tasks[j]? = some t → P t) →
      ∀ (j : String) t, (tasks.calls now cs)[j]? = some t → P t := by
  intro cs
  induction cs with
  | nil => exact fun h => h
  | cons c cs ih =>
      intro tasks h
      refine ih ?_
      intro j t ht
      obtain ⟨u, hu, hmoved⟩ := of_call_get ht
      rcases hmoved with rfl | ⟨-, happly⟩
      · exact h j t hu
      · exact hkeep c.2 u t (h j u hu) happly

end Table

/-! ## Runs -/

/-- What is done to a supervisor.  `insert` is the last step of a registration
whose checks were made earlier. -/
inductive SupervisorOp where
  | register (r : Registration) (id : String) (env : RegisterEnv)
  | insert (r : Registration) (id : String) (persists : Bool)
  | call (id : String) (c : TaskCall)
  | markDescendantsFailed (parentToolCallId reason : String)
  | applyHarnessEvent (id : String) (event : HarnessEvent)

namespace Supervisor

/-- `TaskSupervisor::new`, perhaps with a ledger. -/
def new (persistencePath : Option String) : Supervisor := ⟨∅, [], persistencePath⟩

/-- One operation at a time. -/
def step (s : Supervisor) (now : Nat) : SupervisorOp → Supervisor
  | .register r id env => (s.register r id now env).2
  | .insert r id persists => (s.insertTask r id now persists).2
  | .call id c => { s with tasks := s.tasks.call id now c }
  | .markDescendantsFailed parent reason =>
      { s with tasks := s.tasks.calls now (Agent.markDescendantsFailed s.tasks parent reason) }
  | .applyHarnessEvent id event => { s with tasks := Agent.applyHarnessEvent s.tasks id now event }

def run (s : Supervisor) (ops : List (Nat × SupervisorOp)) : Supervisor :=
  ops.foldl (fun s op => s.step op.1 op.2) s

end Supervisor

/-- `TaskId::new` gives an id that is not in the table. -/
def SupervisorOp.Fresh (s : Supervisor) : SupervisorOp → Prop
  | .register _ id _ | .insert _ id _ => s.tasks[id]? = none
  | _ => True

/-- Every id of a run is fresh. -/
def FreshRun : Supervisor → List (Nat × SupervisorOp) → Prop
  | _, [] => True
  | s, (now, op) :: ops => op.Fresh s ∧ FreshRun (s.step now op) ops

/-- The calls an operation may make on the task of an id. -/
def SupervisorOp.Makes (j : String) (c : TaskCall) : SupervisorOp → Prop
  | .call id c' => id = j ∧ c = c'
  | _ => ∀ files, c ≠ .markCompleted files

section Step

variable {s : Supervisor} {op : SupervisorOp} {j : String}

theorem harness_calls {event : HarnessEvent} {snapshot : BackgroundTask} {c : TaskCall}
    (h : c ∈ event.calls snapshot) : ∀ files, c ≠ .markCompleted files := by
  intro files hc
  subst hc
  simp only [HarnessEvent.calls] at h
  split at h <;> first | (split at h <;> simp at h) | simp at h

theorem insertTask_keep {r : Registration} {id : String} {persists : Bool}
    (hfresh : s.tasks[id]? = none) (h : s.tasks[j]? = some task) :
    (s.insertTask r id now persists).2.tasks[j]? = some task := by
  unfold Supervisor.insertTask
  split
  · exact h
  · split
    · exact h
    · have hne : id ≠ j := by
        rintro rfl
        rw [hfresh] at h
        cases h
      exact (Table.get_insert_ne _ _ hne).trans h

/-- A property that the calls of an operation preserve stays with the task. -/
theorem step_keep {P : BackgroundTask → Prop} (hfresh : op.Fresh s)
    (hkeep : ∀ c, op.Makes j c → ∀ t t' : BackgroundTask, P t → c.apply now t = some t' → P t')
    (h : s.tasks[j]? = some task) (hp : P task) :
    ∃ task', (s.step now op).tasks[j]? = some task' ∧ P task' := by
  cases op with
  | register r id env =>
      simp only [Supervisor.step, Supervisor.register]
      split
      · exact ⟨task, h, hp⟩
      · split
        · exact ⟨task, insertTask_keep hfresh h, hp⟩
        · split
          · exact ⟨task, h, hp⟩
          · split
            · refine calls_keep ?_ h hp
              intro c hc _
              obtain ⟨id', -, rfl⟩ := List.mem_map.mp hc
              refine hkeep _ ?_
              intro files hcontra
              cases hcontra
            · exact ⟨task, insertTask_keep hfresh h, hp⟩
  | insert r id persists => exact ⟨task, insertTask_keep hfresh h, hp⟩
  | call id c =>
      obtain ⟨t, ht, hmoved⟩ := call_get h id now c
      refine ⟨t, ht, ?_⟩
      rcases hmoved with rfl | ⟨hid, happly⟩
      · exact hp
      · exact hkeep c ⟨hid, rfl⟩ task t hp happly
  | markDescendantsFailed parent reason =>
      refine calls_keep ?_ h hp
      intro c hc _
      refine hkeep _ ?_
      intro files hcontra
      unfold markDescendantsFailed at hc
      split at hc
      · cases hc
      · obtain ⟨id', -, rfl⟩ := List.mem_map.mp hc
        cases hcontra
  | applyHarnessEvent id event =>
      simp only [Supervisor.step, applyHarnessEvent]
      split
      · exact ⟨task, h, hp⟩
      · refine calls_keep ?_ h hp
        intro c hc _
        obtain ⟨c', hc', rfl⟩ := List.mem_map.mp hc
        exact hkeep _ (harness_calls hc')

/-- All tasks of the supervisor have the property. -/
def Supervisor.All (P : BackgroundTask → Prop) (s : Supervisor) : Prop :=
  ∀ (j : String) t, s.tasks[j]? = some t → P t

/-- Calls preserve the property, and a registered task has it. -/
structure Persistent (P : BackgroundTask → Prop) : Prop where
  call : ∀ {c : TaskCall} {now : Nat} {t t' : BackgroundTask}, P t → c.apply now t = some t' → P t'
  registered : ∀ (r : Registration) (id : String) (now : Nat) (path : Option String),
    P (r.task id now path)

theorem insertTask_all {P : BackgroundTask → Prop} (hP : Persistent P) {r : Registration} {id : String}
    {persists : Bool} (h : s.All P) : (s.insertTask r id now persists).2.All P := by
  intro j t ht
  unfold Supervisor.insertTask at ht
  split at ht
  · exact h j t ht
  · split at ht
    · exact h j t ht
    · rcases Table.of_get_insert ht with ⟨-, rfl⟩ | ⟨-, ht⟩
      · exact hP.registered r id now s.persistencePath
      · exact h j t ht

theorem step_all {P : BackgroundTask → Prop} (hP : Persistent P) (h : s.All P) (now : Nat)
    (op : SupervisorOp) : (s.step now op).All P := by
  have hcalls : ∀ cs, ∀ (j : String) t, (s.tasks.calls now cs)[j]? = some t → P t :=
    fun cs => calls_all (fun c t t' hp happly => hP.call hp happly) h
  cases op with
  | register r id env =>
      simp only [Supervisor.step, Supervisor.register]
      split
      · exact h
      · split
        · exact insertTask_all hP h
        · split
          · exact h
          · split
            · exact hcalls _
            · exact insertTask_all hP h
  | insert r id persists => exact insertTask_all hP h
  | call id c => exact hcalls [(id, c)]
  | markDescendantsFailed parent reason => exact hcalls _
  | applyHarnessEvent id event =>
      simp only [Supervisor.step, applyHarnessEvent]
      split
      · exact h
      · exact hcalls _

end Step

section Run

variable {s : Supervisor}

/-- A persistent property holds of every task of every run. -/
theorem run_all {P : BackgroundTask → Prop} (hP : Persistent P) (path : Option String)
    (ops : List (Nat × SupervisorOp)) : ((Supervisor.new path).run ops).All P := by
  have hrun : ∀ (ops : List (Nat × SupervisorOp)) {s : Supervisor}, s.All P → (s.run ops).All P := by
    intro ops
    induction ops with
    | nil => exact fun h => h
    | cons op ops ih => exact fun h => ih (step_all hP h op.1 op.2)
  refine hrun ops ?_
  intro j t ht
  have hnone : (∅ : Tasks)[j]? = none := Std.ExtTreeMap.getElem?_empty
  cases hnone.symm.trans ht

theorem sound_persistent : Persistent BackgroundTask.Sound where
  call := fun hs happly => (TaskCall.moves happly).sound hs
  registered := by
    intro r id now path
    refine ⟨?_, ?_⟩
    · intro hflag
      cases hflag
    · intro state hstate
      cases hstate

/-- A final verdict is the verdict for the rest of the run. -/
theorem run_final {ops : List (Nat × SupervisorOp)} {j : String} {status : TaskStatus}
    (hfresh : FreshRun s ops) (h : s.tasks[j]? = some task) (hf : task.Final)
    (hstatus : task.status = status) :
    ∃ task', (s.run ops).tasks[j]? = some task' ∧ task'.status = status := by
  induction ops generalizing s task with
  | nil => exact ⟨task, h, hstatus⟩
  | cons op ops ih =>
      obtain ⟨hop, hrest⟩ := hfresh
      have hkeep : ∀ c, op.2.Makes j c → ∀ t t' : BackgroundTask,
          t.Final ∧ t.status = status → c.apply op.1 t = some t' → t'.Final ∧ t'.status = status := by
        rintro c - t t' ⟨htf, hts⟩ happly
        obtain ⟨hsame, hfinal⟩ := (TaskCall.moves happly).final htf
        exact ⟨hfinal, hsame.trans hts⟩
      obtain ⟨t, ht, hfinal, hsame⟩ := step_keep hop hkeep h ⟨hf, hstatus⟩
      exact ih hrest ht hfinal hsame

/-- `Completed`, `Cancelled`, or `Failed` by the owner. -/
def BackgroundTask.Settled (task : BackgroundTask) : Prop :=
  task.status = .completed ∨ task.status = .cancelled ∨
    task.status = .failed ∧ task.failedByObserver = false

theorem BackgroundTask.Settled.final (h : task.Settled) (hs : task.Sound) : task.Final := by
  have hother : task.status ≠ .failed → task.failedByObserver = false := by
    intro hne
    cases hflag : task.failedByObserver with
    | false => rfl
    | true => exact absurd (hs.observed hflag) hne
  rcases h with h | h | ⟨h, hflag⟩
  · exact ⟨by rw [h]; rfl, hother (by rw [h]; decide)⟩
  · exact ⟨by rw [h]; rfl, hother (by rw [h]; decide)⟩
  · exact ⟨by rw [h]; rfl, hflag⟩

/-- A failure after one operation. -/
theorem step_failed {op : SupervisorOp} {j : String} (hfresh : op.Fresh s)
    (h : s.tasks[j]? = some task) (hf : task.status = .failed) :
    ∃ task', (s.step now op).tasks[j]? = some task' ∧ (task'.status = .failed ∨
      task.failedByObserver = true ∧ task'.status = .completed ∧
        ∃ files, op = .call j (.markCompleted files)) := by
  have hdone : (∀ c, op.Makes j c → ∀ files, c ≠ .markCompleted files) →
      ∃ task', (s.step now op).tasks[j]? = some task' ∧ (task'.status = .failed ∨
        task.failedByObserver = true ∧ task'.status = .completed ∧
          ∃ files, op = .call j (.markCompleted files)) := by
    intro hnot
    have hkeep : ∀ c, op.Makes j c → ∀ t t' : BackgroundTask,
        t.status = .failed → c.apply now t = some t' → t'.status = .failed := by
      intro c hc t t' ht happly
      rcases (TaskCall.moves happly).provisional ht with hfailed | ⟨-, -, files, rfl⟩
      · exact hfailed
      · exact absurd rfl (hnot _ hc files)
    obtain ⟨task', ht', hfailed⟩ := step_keep hfresh hkeep h hf
    exact ⟨task', ht', Or.inl hfailed⟩
  cases op with
  | register r id env => exact hdone (fun c hc => hc)
  | insert r id persists => exact hdone (fun c hc => hc)
  | markDescendantsFailed parent reason => exact hdone (fun c hc => hc)
  | applyHarnessEvent id event => exact hdone (fun c hc => hc)
  | call id c =>
      obtain ⟨t, ht, hmoved⟩ := call_get h id now c
      refine ⟨t, ht, ?_⟩
      rcases hmoved with rfl | ⟨rfl, happly⟩
      · exact Or.inl hf
      · rcases (TaskCall.moves happly).provisional hf with hfailed | ⟨hflag, hstatus, files, rfl⟩
        · exact Or.inl hfailed
        · exact Or.inr ⟨hflag, hstatus, files, rfl⟩

/-- **Verdicts are final.**  In every state a run reaches: a settled task has the
same status in every later state; one that an observer failed leaves `Failed` only
for `Completed` and only by `mark_completed`; the observer's flag is on failed
tasks only; and a verdict comes with its runtime state and its time. -/
theorem verdicts_final {path : Option String} {ops : List (Nat × SupervisorOp)} {id : String}
    {t : BackgroundTask} (h : ((Supervisor.new path).run ops).tasks[id]? = some t) :
    (t.Settled → ∀ later, FreshRun ((Supervisor.new path).run ops) later →
      ∃ t', (((Supervisor.new path).run ops).run later).tasks[id]? = some t' ∧
        t'.status = t.status) ∧
    (t.status = .failed → ∀ now op, op.Fresh ((Supervisor.new path).run ops) →
      ∃ t', (((Supervisor.new path).run ops).step now op).tasks[id]? = some t' ∧
        (t'.status = .failed ∨ t.failedByObserver = true ∧ t'.status = .completed ∧
          ∃ files, op = .call id (.markCompleted files))) ∧
    (t.failedByObserver = true → t.status = .failed) ∧
    (∀ r, t.status.verdict = some r → t.runtimeState = r ∧ t.completedAt.isSome = true) := by
  have hsound : t.Sound := run_all sound_persistent path ops id t h
  refine ⟨?_, ?_, hsound.observed, hsound.verdict⟩
  · intro hsettled later hfresh
    exact run_final hfresh h (hsettled.final hsound) rfl
  · intro hfailed now op hfresh
    exact step_failed hfresh h hfailed

/-- A registration of a pipeline tool by the session `s`. -/
def sampleRegistration : Registration where
  toolName := "run_pipeline"
  toolCallId := "call-1"
  sessionKey := some "s"
  taskLedgerPath := none
  toolInput := none
  originatingClientMessageId := none
  parentTerminalCheckToolCallId := none
  workspaceScope := none
  requirePersistence := false

/-- A task that an observer failed and its owner completed afterwards. -/
def overriddenRun : List (Nat × SupervisorOp) :=
  [(1, .insert sampleRegistration "t" true),
    (2, .applyHarnessEvent "t" ⟨.error "provider" "fail_fast" "lost", fun _ => "detail"⟩),
    (3, .call "t" (.markCompleted ["report.md"]))]

/-- The completed task of that run stays completed, whatever comes. -/
theorem verdicts_final_overridden :
    ∃ t, ((Supervisor.new none).run overriddenRun).tasks["t"]? = some t ∧ t.status = .completed ∧
      ∀ later, FreshRun ((Supervisor.new none).run overriddenRun) later →
        ∃ t', (((Supervisor.new none).run overriddenRun).run later).tasks["t"]? = some t' ∧
          t'.status = .completed := by
  have hstatus : (((Supervisor.new none).run overriddenRun).tasks["t"]?).map BackgroundTask.status =
      some .completed := by
    rfl
  obtain ⟨t, ht, hdone⟩ := Option.map_eq_some_iff.mp hstatus
  refine ⟨t, ht, hdone, ?_⟩
  intro later hfresh
  have hlater := (verdicts_final ht).1 (Or.inl hdone) later hfresh
  rwa [hdone] at hlater

end Run

end Octos.Agent
