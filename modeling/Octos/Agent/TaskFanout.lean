/-
# `Octos.Agent.TaskFanout` — the cap on the children of a session

`register_full_with_workspace` takes the lock of the task table three times and
the lock of the poisoned sessions twice; between two of these steps anything can
happen.  A `RegisterPc` is the place between two steps.

From the look at the poisoned sessions to the insertion, or to the poisoning, a
registration is in its window.  As long as the windows of one session do not
overlap the count that admitted a child is still an upper bound when the child is
inserted, and no registration is in its window when the session is poisoned.
-/
import Octos.Agent.TaskVerdicts

namespace Octos.Agent

/-! ## The steps of a registration -/

/-- What the registration does next. -/
inductive RegisterPc where
  /-- the early look at the parent task -/
  | start
  /-- the look at the poisoned sessions -/
  | checked
  /-- the count of live children -/
  | clear
  /-- the insertion -/
  | admitted
  /-- the poisoning of the session -/
  | exceeded (count : Nat)
  /-- the list of active children -/
  | poisoned (count : Nat)
  /-- the failures of these children -/
  | failing (count : Nat) (ids : List String)
  | done (result : Except RegisterTaskError String)

structure RegisterThread where
  registration : Registration
  id : String
  pc : RegisterPc

/-- The supervisor and the registrations under way. -/
structure FanoutWorld where
  supervisor : Supervisor
  threads : Table Nat RegisterThread

/-- What happens: a registration is called, or makes its next step; a task ends. -/
inductive FanoutEvent where
  | register (thread : Nat) (r : Registration) (id : String)
  | advance (thread : Nat) (now : Nat) (live : List String) (persists : Bool)
  | ends (id : String) (now : Nat) (c : TaskCall)

/-- Completions, failures and cancellations. -/
def TaskCall.isEnd : TaskCall → Bool
  | .markCompleted _ | .markFailed _ | .markFailedObserved _ | .cancel => true
  | _ => false

/-- The next step of a registration. -/
def RegisterThread.advance (t : RegisterThread) (s : Supervisor) (cap now : Nat) (live : List String)
    (persists : Bool) : RegisterPc × Supervisor :=
  let r := t.registration
  let parentError status :=
    RegisterPc.done (.error (.parentTerminal (r.parentTerminalCheckToolCallId.getD "") status))
  match t.pc, r.sessionKey with
  | .start, session =>
      match r.parentTerminal s.tasks with
      | some status => (parentError status, s)
      | none => (if session.isSome then .checked else .admitted, s)
  | .checked, some parent =>
      if s.poisonedParents.contains parent then
        (.done (.error (.childFanoutExceeded parent (s.tasks.liveChildren live parent) cap)), s)
      else (.clear, s)
  | .clear, some parent =>
      match r.parentTerminal s.tasks with
      | some status => (parentError status, s)
      | none =>
          let count := s.tasks.liveChildren live parent
          (if cap ≤ count then .exceeded count else .admitted, s)
  | .admitted, _ =>
      let inserted := s.insertTask r t.id now persists
      (.done inserted.1, inserted.2)
  | .exceeded count, some parent =>
      (.poisoned count, { s with poisonedParents := parent :: s.poisonedParents })
  | .poisoned count, some parent => (.failing count (s.tasks.activeChildren parent), s)
  | .failing count (id :: ids), _ =>
      (.failing count ids, { s with tasks := s.tasks.call id now (.markFailed (fanoutReason count cap)) })
  | .failing count [], some parent => (.done (.error (.childFanoutExceeded parent count cap)), s)
  | pc, _ => (pc, s)

namespace FanoutWorld

def new (persistencePath : Option String) : FanoutWorld := ⟨.new persistencePath, ∅⟩

def step (cap : Nat) (w : FanoutWorld) : FanoutEvent → FanoutWorld
  | .register thread r id =>
      if w.threads[thread]?.isSome then w
      else { w with threads := w.threads.insert thread ⟨r, id, .start⟩ }
  | .advance thread now live persists =>
      match w.threads[thread]? with
      | none => w
      | some t =>
          let moved := t.advance w.supervisor cap now live persists
          ⟨moved.2, w.threads.insert thread { t with pc := moved.1 }⟩
  | .ends id now c =>
      if c.isEnd then { w with supervisor.tasks := w.supervisor.tasks.call id now c } else w

def run (cap : Nat) (w : FanoutWorld) (events : List FanoutEvent) : FanoutWorld :=
  events.foldl (step cap) w

end FanoutWorld

/-- Between the look at the poisoned sessions and the insertion or the poisoning. -/
def RegisterPc.inWindow : RegisterPc → Bool
  | .clear | .admitted | .exceeded _ => true
  | _ => false

/-- A registration of a session looks at the poisoned sessions only while no other
registration of that session is in its window. -/
def FanoutEvent.orderly (w : FanoutWorld) : FanoutEvent → Bool
  | .advance thread _ _ _ =>
      match w.threads[thread]? with
      | some ⟨r, _, .checked⟩ =>
          w.threads.toList.all (fun row => decide (row.1 = thread) ||
            decide (row.2.registration.sessionKey ≠ r.sessionKey) || !row.2.pc.inWindow)
      | _ => true
  | _ => true

def orderlyRun (cap : Nat) : FanoutWorld → List FanoutEvent → Bool
  | _, [] => true
  | w, e :: events => e.orderly w && orderlyRun cap (w.step cap e) events

theorem FanoutEvent.orderly_windows {w : FanoutWorld} {i now : Nat} {live : List String}
    {persists : Bool} {t : RegisterThread} (h : (FanoutEvent.advance i now live persists).orderly w = true)
    (hi : w.threads[i]? = some t) {parent : String} (hpc : t.pc = .checked)
    (hsession : t.registration.sessionKey = some parent) {j : Nat} {u : RegisterThread} (hne : j ≠ i)
    (hj : w.threads[j]? = some u) (hu : u.registration.sessionKey = some parent) :
    u.pc.inWindow = false := by
  obtain ⟨r, id, pc⟩ := t
  obtain rfl : pc = .checked := hpc
  simp only [FanoutEvent.orderly, hi] at h
  have hrow := List.all_eq_true.mp h (j, u) (Table.mem_rows.mpr hj)
  have hsame : u.registration.sessionKey = r.sessionKey := hu.trans hsession.symm
  simpa [hne, hsame] using hrow

/-! ## Counting -/

section Count

variable {tasks : Tasks} {parent : String}

theorem mem_idsWhere {p : BackgroundTask → Bool} {id : String} :
    id ∈ tasks.idsWhere p ↔ ∃ t, tasks[id]? = some t ∧ p t = true := by
  simp only [Tasks.idsWhere, List.mem_map, List.mem_filter]
  constructor
  · rintro ⟨⟨k, t⟩, ⟨hrow, hp⟩, rfl⟩
    exact ⟨t, Table.mem_rows.mp hrow, hp⟩
  · rintro ⟨t, ht, hp⟩
    exact ⟨(id, t), ⟨Table.mem_rows.mpr ht, hp⟩, rfl⟩

theorem idsWhere_nodup (p : BackgroundTask → Bool) : (tasks.idsWhere p).Nodup :=
  (Table.rows_keys_nodup tasks).sublist (List.filter_sublist.map Prod.fst)

theorem mem_activeChildren {id : String} : id ∈ tasks.activeChildren parent ↔
    ∃ t, tasks[id]? = some t ∧ t.parentSessionKey = some parent ∧ t.status.isActive = true := by
  simp only [Tasks.activeChildren, mem_idsWhere, Bool.and_eq_true, decide_eq_true_eq]

/-- The count of live children counts the active ones. -/
theorem activeChildren_le_live (tasks : Tasks) (live : List String) (parent : String) :
    (tasks.activeChildren parent).length ≤ tasks.liveChildren live parent := by
  refine (List.subperm_of_subset (idsWhere_nodup _) ?_).length_le
  intro id hid
  obtain ⟨t, ht, hparent, hactive⟩ := mem_activeChildren.mp hid
  refine mem_idsWhere.mpr ⟨t, ht, ?_⟩
  simp [hparent, hactive]

/-- The end of a task makes none active. -/
theorem activeChildren_call {c : TaskCall} (hc : c.isEnd = true) (id : String) (now : Nat)
    (parent : String) : (tasks.call id now c).activeChildren parent ⊆ tasks.activeChildren parent := by
  intro x hx
  obtain ⟨t', ht', hparent, hactive⟩ := mem_activeChildren.mp hx
  obtain ⟨t, ht, hmoved⟩ := of_call_get ht'
  rcases hmoved with rfl | ⟨-, happly⟩
  · exact mem_activeChildren.mpr ⟨t', ht, hparent, hactive⟩
  · exfalso
    have hended : t'.status.isActive = false := by
      cases c with
      | markCompleted files =>
          simp only [TaskCall.apply, BackgroundTask.markCompleted] at happly
          split at happly
          · cases happly
          · obtain rfl := Option.some.inj happly
            rfl
      | markFailed | markFailedObserved =>
          simp only [TaskCall.apply, BackgroundTask.markFailedInner] at happly
          split at happly
          · cases happly
          · obtain rfl := Option.some.inj happly
            rfl
      | cancel =>
          obtain ⟨-, rfl⟩ := unless_terminal happly
          rfl
      | _ => cases hc
    rw [hended] at hactive
    cases hactive

/-- The children of a session, active or not. -/
def Tasks.children (tasks : Tasks) (parent : String) : List String :=
  tasks.idsWhere (fun task => decide (task.parentSessionKey = some parent))

theorem mem_children {id : String} : id ∈ tasks.children parent ↔
    ∃ t, tasks[id]? = some t ∧ t.parentSessionKey = some parent := by
  simp only [Tasks.children, mem_idsWhere, decide_eq_true_eq]

theorem children_call (id : String) (now : Nat) (c : TaskCall) (parent : String) :
    (tasks.call id now c).children parent ⊆ tasks.children parent := by
  intro x hx
  obtain ⟨t', ht', hparent⟩ := mem_children.mp hx
  obtain ⟨t, ht, hmoved⟩ := of_call_get ht'
  refine mem_children.mpr ⟨t, ht, ?_⟩
  rcases hmoved with rfl | ⟨-, happly⟩
  · exact hparent
  · rw [← (TaskCall.identity happly).parentSessionKey]
    exact hparent

/-- What an insertion does to the table. -/
theorem insertTask_spec (s : Supervisor) (r : Registration) (id : String) (now : Nat) (persists : Bool) :
    (s.insertTask r id now persists).2 = s ∨
      (s.insertTask r id now persists).2 =
        { s with tasks := s.tasks.insert id (r.task id now s.persistencePath) } := by
  unfold Supervisor.insertTask
  split
  · exact Or.inl rfl
  · split
    · exact Or.inl rfl
    · exact Or.inr rfl

theorem activeChildren_insert {id x : String} {task : BackgroundTask}
    (h : x ∈ Tasks.activeChildren (tasks.insert id task) parent) :
    x ∈ tasks.activeChildren parent ∨ x = id ∧ task.parentSessionKey = some parent := by
  obtain ⟨t, ht, hparent, hactive⟩ := mem_activeChildren.mp h
  rcases Table.of_get_insert ht with ⟨hid, rfl⟩ | ⟨-, ht⟩
  · exact Or.inr ⟨hid.symm, hparent⟩
  · exact Or.inl (mem_activeChildren.mpr ⟨t, ht, hparent, hactive⟩)

theorem children_insert {id x : String} {task : BackgroundTask}
    (h : x ∈ Tasks.children (tasks.insert id task) parent) :
    x ∈ tasks.children parent ∨ task.parentSessionKey = some parent := by
  obtain ⟨t, ht, hparent⟩ := mem_children.mp h
  rcases Table.of_get_insert ht with ⟨-, rfl⟩ | ⟨-, ht⟩
  · exact Or.inr hparent
  · exact Or.inl (mem_children.mpr ⟨t, ht, hparent⟩)

end Count

/-! ## What one step of a registration can do -/

/-- The registration is refused for the cap, or on the way there. -/
def RegisterPc.isRefused : RegisterPc → Bool
  | .poisoned _ | .failing _ _ | .done (.error (.childFanoutExceeded ..)) => true
  | _ => false

/-- **One step of a registration.** -/
inductive RegisterThread.Advances (t : RegisterThread) (cap : Nat) (s : Supervisor) :
    RegisterPc → Supervisor → Prop
  /-- it stays, or leaves its window without a trace -/
  | leaves {pc : RegisterPc} (hpc : pc = t.pc ∨ pc.inWindow = false)
      (hrefused : pc.isRefused = true → t.pc.isRefused = true ∨
        ∃ parent ∈ s.poisonedParents, t.registration.sessionKey = some parent) : Advances t cap s pc s
  /-- it is detached -/
  | detached (h : t.registration.sessionKey = none) : Advances t cap s .admitted s
  /-- it enters its window -/
  | enters {parent : String} (h : t.pc = .checked) (hsession : t.registration.sessionKey = some parent)
      (hclear : parent ∉ s.poisonedParents) : Advances t cap s .clear s
  /-- it counts -/
  | counts {pc : RegisterPc} {parent : String} (h : t.pc = .clear)
      (hsession : t.registration.sessionKey = some parent) (hrefused : pc.isRefused = false)
      (hadmitted : pc = .admitted → (s.tasks.activeChildren parent).length < cap) : Advances t cap s pc s
  /-- it inserts its task -/
  | inserts {result : Except RegisterTaskError String} {now : Nat} {persists : Bool}
      (h : t.pc = .admitted) (hrefused : (RegisterPc.done result).isRefused = false) :
      Advances t cap s (.done result) (s.insertTask t.registration t.id now persists).2
  /-- it poisons its session -/
  | poisons {count : Nat} {parent : String} (h : t.pc = .exceeded count)
      (hsession : t.registration.sessionKey = some parent) :
      Advances t cap s (.poisoned count) { s with poisonedParents := parent :: s.poisonedParents }
  /-- it fails a child -/
  | fails {count now : Nat} {id reason : String} {ids : List String}
      (h : t.pc = .failing count (id :: ids)) :
      Advances t cap s (.failing count ids) { s with tasks := s.tasks.call id now (.markFailed reason) }

theorem RegisterThread.advances (t : RegisterThread) (s : Supervisor) (cap now : Nat)
    (live : List String) (persists : Bool) :
    t.Advances cap s (t.advance s cap now live persists).1 (t.advance s cap now live persists).2 := by
  obtain ⟨r, id, pc⟩ := t
  cases pc with
  | start =>
      simp only [RegisterThread.advance]
      split
      · exact .leaves (Or.inr rfl) (fun h => by cases h)
      · cases hsession : r.sessionKey with
        | none => exact .detached hsession
        | some parent => exact .leaves (Or.inr rfl) (fun h => by cases h)
  | checked =>
      cases hsession : r.sessionKey with
      | none =>
          simp only [RegisterThread.advance, hsession]
          exact .leaves (Or.inl rfl) (fun h => by cases h)
      | some parent =>
          simp only [RegisterThread.advance, hsession]
          split
          · next hpoisoned =>
              exact .leaves (Or.inr rfl)
                (fun _ => Or.inr ⟨parent, List.contains_iff_mem.mp hpoisoned, hsession⟩)
          · next hclear =>
              exact .enters rfl hsession (fun h => hclear (List.contains_iff_mem.mpr h))
  | clear =>
      cases hsession : r.sessionKey with
      | none =>
          simp only [RegisterThread.advance, hsession]
          exact .leaves (Or.inl rfl) (fun h => by cases h)
      | some parent =>
          simp only [RegisterThread.advance, hsession]
          split
          · exact .leaves (Or.inr rfl) (fun h => by cases h)
          · split
            · exact .counts rfl hsession rfl (fun h => by cases h)
            · next hcount =>
                refine .counts rfl hsession rfl (fun _ => ?_)
                have hle := activeChildren_le_live s.tasks live parent
                omega
  | admitted =>
      simp only [RegisterThread.advance]
      refine .inserts rfl ?_
      unfold Supervisor.insertTask
      split
      · rfl
      · split <;> rfl
  | exceeded count =>
      cases hsession : r.sessionKey with
      | none =>
          simp only [RegisterThread.advance, hsession]
          exact .leaves (Or.inl rfl) (fun h => by cases h)
      | some parent =>
          simp only [RegisterThread.advance, hsession]
          exact .poisons rfl hsession
  | poisoned count =>
      cases hsession : r.sessionKey with
      | none =>
          simp only [RegisterThread.advance, hsession]
          exact .leaves (Or.inl rfl) (fun _ => Or.inl rfl)
      | some parent =>
          simp only [RegisterThread.advance, hsession]
          exact .leaves (Or.inr rfl) (fun _ => Or.inl rfl)
  | failing count ids =>
      cases ids with
      | nil =>
          cases hsession : r.sessionKey with
          | none =>
              simp only [RegisterThread.advance, hsession]
              exact .leaves (Or.inl rfl) (fun _ => Or.inl rfl)
          | some parent =>
              simp only [RegisterThread.advance, hsession]
              exact .leaves (Or.inr rfl) (fun _ => Or.inl rfl)
      | cons id' ids =>
          simp only [RegisterThread.advance]
          exact .fails rfl
  | done result =>
      simp only [RegisterThread.advance]
      exact .leaves (Or.inl rfl) (fun h => Or.inl h)

/-! ## The bound -/

/-- The invariant: windows of a session exclude each other, an admitted child is
below the cap, and a poisoned session has no registration in its window. -/
structure FanoutWorld.Safe (cap : Nat) (w : FanoutWorld) : Prop where
  exclusive : ∀ {i j : Nat} {t u : RegisterThread} {parent : String}, i ≠ j →
    w.threads[i]? = some t → w.threads[j]? = some u → t.registration.sessionKey = some parent →
    u.registration.sessionKey = some parent → t.pc.inWindow = true → u.pc.inWindow = false
  below : ∀ {i : Nat} {t : RegisterThread} {parent : String}, w.threads[i]? = some t →
    t.registration.sessionKey = some parent → t.pc = .admitted →
    (w.supervisor.tasks.activeChildren parent).length < cap
  bounded : ∀ parent, (w.supervisor.tasks.activeChildren parent).length ≤ cap
  closed : ∀ {i : Nat} {t : RegisterThread} {parent : String}, parent ∈ w.supervisor.poisonedParents →
    w.threads[i]? = some t → t.registration.sessionKey = some parent → t.pc.inWindow = false
  refused : ∀ {i : Nat} {t : RegisterThread} {parent : String}, w.threads[i]? = some t →
    t.registration.sessionKey = some parent → t.pc.isRefused = true →
    parent ∈ w.supervisor.poisonedParents

theorem length_le_of_nodup {l l' : List String} (hl : l.Nodup) (h : l ⊆ l') : l.length ≤ l'.length :=
  (List.subperm_of_subset hl h).length_le

section Safety

variable {cap : Nat} {w : FanoutWorld}

/-- Fewer active children, no new poison, and the same registrations. -/
theorem FanoutWorld.Safe.shrink (h : w.Safe cap) {s : Supervisor}
    (hactive : ∀ parent, s.tasks.activeChildren parent ⊆ w.supervisor.tasks.activeChildren parent)
    (hpoisoned : s.poisonedParents = w.supervisor.poisonedParents) :
    FanoutWorld.Safe cap ⟨s, w.threads⟩ := by
  have hle : ∀ parent, (s.tasks.activeChildren parent).length ≤
      (w.supervisor.tasks.activeChildren parent).length :=
    fun parent => length_le_of_nodup (idsWhere_nodup _) (hactive parent)
  exact {
    exclusive := h.exclusive
    below := fun hi hsession hpc => Nat.lt_of_le_of_lt (hle _) (h.below hi hsession hpc)
    bounded := fun parent => Nat.le_trans (hle parent) (h.bounded parent)
    closed := by
      intro i t parent hparent
      rw [show FanoutWorld.supervisor ⟨s, w.threads⟩ = s from rfl, hpoisoned] at hparent
      exact h.closed hparent
    refused := by
      intro i t parent hi hsession hpc
      show parent ∈ s.poisonedParents
      rw [hpoisoned]
      exact h.refused hi hsession hpc }

/-- A registration that moves without touching the supervisor, and does not enter
a window it was not in. -/
theorem FanoutWorld.Safe.move (h : w.Safe cap) {i : Nat} {t : RegisterThread} {pc : RegisterPc}
    (hi : w.threads[i]? = some t)
    (hwindow : ∀ parent, t.registration.sessionKey = some parent → pc.inWindow = true →
      t.pc.inWindow = true ∨ parent ∉ w.supervisor.poisonedParents ∧
        ∀ (j : Nat) u, j ≠ i → w.threads[j]? = some u → u.registration.sessionKey = some parent →
          u.pc.inWindow = false)
    (hbelow : ∀ parent, t.registration.sessionKey = some parent → pc = .admitted →
      (w.supervisor.tasks.activeChildren parent).length < cap)
    (hrefused : ∀ parent, t.registration.sessionKey = some parent → pc.isRefused = true →
      parent ∈ w.supervisor.poisonedParents) :
    FanoutWorld.Safe cap ⟨w.supervisor, w.threads.insert i { t with pc := pc }⟩ := by
  -- the other registrations are as they were, so a pair of them is, too
  have hget : ∀ {j : Nat} {u : RegisterThread}, (w.threads.insert i { t with pc := pc })[j]? = some u →
      j = i ∧ u = { t with pc := pc } ∨ j ≠ i ∧ w.threads[j]? = some u := by
    intro j u hu
    rcases Table.of_get_insert hu with ⟨hji, hu⟩ | ⟨hne, hu⟩
    · exact Or.inl ⟨hji.symm, hu.symm⟩
    · exact Or.inr ⟨fun hji => hne hji.symm, hu⟩
  have hothers : ∀ {parent : String} {j : Nat} {u : RegisterThread},
      t.registration.sessionKey = some parent → pc.inWindow = true → j ≠ i →
      w.threads[j]? = some u → u.registration.sessionKey = some parent → u.pc.inWindow = false := by
    intro parent j u hsession hpc hne hu husession
    rcases hwindow parent hsession hpc with hbefore | ⟨-, hfree⟩
    · exact h.exclusive (fun hij => hne hij.symm) hi hu hsession husession hbefore
    · exact hfree j u hne hu husession
  exact {
    exclusive := by
      intro a b x y parent hab hx hy hxs hys hxw
      rcases hget hx with ⟨rfl, rfl⟩ | ⟨hai, hbefore⟩
      · rcases hget hy with ⟨rfl, -⟩ | ⟨hbi, hy⟩
        · exact absurd rfl hab
        · exact hothers hxs hxw hbi hy hys
      · rcases hget hy with ⟨rfl, rfl⟩ | ⟨-, hy⟩
        · cases hpc : pc.inWindow with
          | false => rfl
          | true =>
              have hfalse := hothers hys hpc hai hbefore hxs
              rw [hxw] at hfalse
              cases hfalse
        · exact h.exclusive hab hbefore hy hxs hys hxw
    below := by
      intro a x parent hx hxs hxpc
      rcases hget hx with ⟨-, rfl⟩ | ⟨-, hx⟩
      · exact hbelow parent hxs hxpc
      · exact h.below hx hxs hxpc
    bounded := h.bounded
    closed := by
      intro a x parent hparent hx hxs
      rcases hget hx with ⟨-, rfl⟩ | ⟨-, hx⟩
      · cases hpc : pc.inWindow with
        | false => rfl
        | true =>
            rcases hwindow parent hxs hpc with hbefore | ⟨hclear, -⟩
            · rw [h.closed hparent hi hxs] at hbefore
              cases hbefore
            · exact absurd hparent hclear
      · exact h.closed hparent hx hxs
    refused := by
      intro a x parent hx hxs hxpc
      rcases hget hx with ⟨-, rfl⟩ | ⟨-, hx⟩
      · exact hrefused parent hxs hxpc
      · exact h.refused hx hxs hxpc }

/-- A new child of a session below its cap with no registration in its window. -/
theorem FanoutWorld.Safe.insert (h : w.Safe cap) {id : String} {task : BackgroundTask}
    (hbelow : ∀ parent, task.parentSessionKey = some parent →
      (w.supervisor.tasks.activeChildren parent).length < cap)
    (hfree : ∀ (i : Nat) t parent, task.parentSessionKey = some parent → w.threads[i]? = some t →
      t.registration.sessionKey = some parent → t.pc.inWindow = false) :
    FanoutWorld.Safe cap ⟨{ w.supervisor with tasks := w.supervisor.tasks.insert id task }, w.threads⟩ := by
  -- the insertion counts for its own session only
  have hother : ∀ {parent : String}, task.parentSessionKey ≠ some parent →
      (Tasks.activeChildren (w.supervisor.tasks.insert id task) parent).length ≤
        (w.supervisor.tasks.activeChildren parent).length := by
    intro parent hne
    refine length_le_of_nodup (idsWhere_nodup _) ?_
    intro x hx
    rcases activeChildren_insert hx with hx | ⟨-, hparent⟩
    · exact hx
    · exact absurd hparent hne
  exact {
    exclusive := h.exclusive
    below := by
      intro i t parent hi hsession hpc
      by_cases hparent : task.parentSessionKey = some parent
      · have hwindow := hfree i t parent hparent hi hsession
        rw [hpc] at hwindow
        cases hwindow
      · exact Nat.lt_of_le_of_lt (hother hparent) (h.below hi hsession hpc)
    bounded := by
      intro parent
      by_cases hparent : task.parentSessionKey = some parent
      · have hle : (Tasks.activeChildren (w.supervisor.tasks.insert id task) parent).length ≤
            (id :: w.supervisor.tasks.activeChildren parent).length := by
          refine length_le_of_nodup (idsWhere_nodup _) ?_
          intro x hx
          rcases activeChildren_insert hx with hx | ⟨rfl, -⟩
          · exact List.mem_cons_of_mem _ hx
          · exact List.mem_cons_self
        rw [List.length_cons] at hle
        have hlt := hbelow parent hparent
        show (Tasks.activeChildren (w.supervisor.tasks.insert id task) parent).length ≤ cap
        omega
      · exact Nat.le_trans (hother hparent) (h.bounded parent)
    closed := h.closed
    refused := h.refused }

/-- A session is poisoned while none of its registrations is in its window. -/
theorem FanoutWorld.Safe.poison (h : w.Safe cap) {parent : String}
    (hfree : ∀ (i : Nat) t, w.threads[i]? = some t → t.registration.sessionKey = some parent →
      t.pc.inWindow = false) :
    FanoutWorld.Safe cap
      ⟨{ w.supervisor with poisonedParents := parent :: w.supervisor.poisonedParents }, w.threads⟩ where
  exclusive := h.exclusive
  below := h.below
  bounded := h.bounded
  closed := by
    intro i t p hp hi hsession
    rcases List.mem_cons.mp hp with rfl | hp
    · exact hfree i t hi hsession
    · exact h.closed hp hi hsession
  refused := fun hi hsession hpc => List.mem_cons_of_mem _ (h.refused hi hsession hpc)

/-- A registration that leaves its window leaves its session without one in it. -/
theorem FanoutWorld.Safe.left (h : w.Safe cap) {i j : Nat} {t u : RegisterThread} {pc : RegisterPc}
    {parent : String} (hi : w.threads[i]? = some t) (hsession : t.registration.sessionKey = some parent)
    (hwindow : t.pc.inWindow = true) (hpc : pc.inWindow = false)
    (hj : (w.threads.insert i { t with pc := pc })[j]? = some u)
    (hu : u.registration.sessionKey = some parent) : u.pc.inWindow = false := by
  rcases Table.of_get_insert hj with ⟨-, rfl⟩ | ⟨hne, hj⟩
  · exact hpc
  · exact h.exclusive hne hi hj hsession hu hwindow

theorem insert_twice {threads : Table Nat RegisterThread} (i : Nat) (t u : RegisterThread) :
    (threads.insert i t).insert i u = threads.insert i u := by
  refine Std.ExtTreeMap.ext_getElem? ?_
  intro j
  rw [Table.get_insert, Table.get_insert, Table.get_insert]
  split <;> rfl

/-- **One step** keeps the bound when the windows do not overlap. -/
theorem FanoutWorld.Safe.advance (h : w.Safe cap) {i : Nat} {t : RegisterThread} {pc : RegisterPc}
    {s : Supervisor} (hi : w.threads[i]? = some t) (hmoved : t.Advances cap w.supervisor pc s)
    (horderly : ∀ parent, t.pc = .checked → t.registration.sessionKey = some parent →
      ∀ (j : Nat) u, j ≠ i → w.threads[j]? = some u → u.registration.sessionKey = some parent →
        u.pc.inWindow = false) :
    FanoutWorld.Safe cap ⟨s, w.threads.insert i { t with pc := pc }⟩ := by
  cases hmoved with
  | leaves hpc hrefused =>
      refine h.move hi ?_ ?_ ?_
      · intro parent _ hwindow
        rcases hpc with rfl | hout
        · exact Or.inl hwindow
        · rw [hout] at hwindow
          cases hwindow
      · intro parent hsession hadmitted
        rcases hpc with rfl | hout
        · exact h.below hi hsession hadmitted
        · rw [hadmitted] at hout
          cases hout
      · intro parent hsession href
        rcases hrefused href with hbefore | ⟨p, hp, hps⟩
        · exact h.refused hi hsession hbefore
        · obtain rfl := Option.some.inj (hsession.symm.trans hps)
          exact hp
  | detached hnone =>
      refine h.move hi ?_ ?_ ?_
      · intro parent hsession
        rw [hnone] at hsession
        cases hsession
      · intro parent hsession
        rw [hnone] at hsession
        cases hsession
      · intro parent hsession
        rw [hnone] at hsession
        cases hsession
  | enters hchecked hsession hclear =>
      refine h.move hi ?_ ?_ ?_
      · intro parent hs _
        obtain rfl := Option.some.inj (hsession.symm.trans hs)
        exact Or.inr ⟨hclear, horderly _ hchecked hsession⟩
      · intro parent _ hadmitted
        cases hadmitted
      · intro parent _ href
        cases href
  | counts hclear hsession hrefused hadmitted =>
      refine h.move hi ?_ ?_ ?_
      · intro parent _ _
        rw [hclear]
        exact Or.inl rfl
      · intro parent hs hpc
        obtain rfl := Option.some.inj (hsession.symm.trans hs)
        exact hadmitted hpc
      · intro parent _ href
        rw [hrefused] at href
        cases href
  | @inserts result now persists hadmitted hrefused =>
      have hleft := @FanoutWorld.Safe.move cap w h i t (.done result) hi (fun _ _ hwindow => by cases hwindow)
        (fun _ _ hpc => by cases hpc) (fun _ _ href => by rw [hrefused] at href; cases href)
      have hwindow : t.pc.inWindow = true := by
        rw [hadmitted]
        rfl
      rcases insertTask_spec w.supervisor t.registration t.id now persists with hsame | hinserted
      · rw [hsame]
        exact hleft
      · rw [hinserted]
        refine hleft.insert ?_ ?_
        · intro parent hparent
          exact h.below hi hparent hadmitted
        · intro j u parent hparent hj hu
          exact h.left hi hparent hwindow rfl hj hu
  | @poisons count parent hexceeded hsession =>
      -- through a place outside the window, so that the session can be poisoned
      have hwindow : t.pc.inWindow = true := by
        rw [hexceeded]
        rfl
      have hleft := @FanoutWorld.Safe.move cap w h i t .start hi (fun _ _ hin => by cases hin)
        (fun _ _ hpc => by cases hpc) (fun _ _ href => by cases href)
      have hpoisoned := hleft.poison (fun j u hj hu => h.left hi hsession hwindow rfl hj hu)
      have hrefused : ∀ p, t.registration.sessionKey = some p →
          p ∈ parent :: w.supervisor.poisonedParents := by
        intro p hp
        obtain rfl := Option.some.inj (hsession.symm.trans hp)
        exact List.mem_cons_self
      have hthere := @FanoutWorld.Safe.move cap _ hpoisoned i { t with pc := .start } (.poisoned count)
        (Table.get_insert_self _ _ _) (fun _ _ hin => by cases hin) (fun _ _ hpc => by cases hpc)
        (fun p hp _ => hrefused p hp)
      rw [insert_twice] at hthere
      exact hthere
  | @fails count now id reason ids hfailing =>
      have hend : (TaskCall.markFailed reason).isEnd = true := rfl
      have hshrunk := @FanoutWorld.Safe.shrink cap w h
        { w.supervisor with tasks := w.supervisor.tasks.call id now (.markFailed reason) }
        (fun parent => activeChildren_call hend id now parent) rfl
      refine hshrunk.move hi (fun _ _ hin => by cases hin) (fun _ _ hpc => by cases hpc) ?_
      intro parent hsession _
      refine h.refused hi hsession ?_
      rw [hfailing]
      rfl

theorem FanoutWorld.Safe.step (h : w.Safe cap) {e : FanoutEvent} (he : e.orderly w = true) :
    (w.step cap e).Safe cap := by
  cases e with
  | register thread r id =>
      simp only [FanoutWorld.step]
      split
      · exact h
      · next hnone =>
          have hstart : ∀ {j : Nat} {u : RegisterThread},
              (w.threads.insert thread ⟨r, id, .start⟩)[j]? = some u →
              u.pc = .start ∨ w.threads[j]? = some u := by
            intro j u hu
            rcases Table.of_get_insert hu with ⟨-, rfl⟩ | ⟨-, hu⟩
            · exact Or.inl rfl
            · exact Or.inr hu
          exact {
            exclusive := by
              intro a b x y parent hab hx hy hxs hys hxw
              rcases hstart hx with hpc | hx
              · rw [hpc] at hxw
                cases hxw
              · rcases hstart hy with hpc | hy
                · rw [hpc]
                  rfl
                · exact h.exclusive hab hx hy hxs hys hxw
            below := by
              intro a x parent hx hxs hxpc
              rcases hstart hx with hpc | hx
              · rw [hpc] at hxpc
                cases hxpc
              · exact h.below hx hxs hxpc
            bounded := h.bounded
            closed := by
              intro a x parent hparent hx hxs
              rcases hstart hx with hpc | hx
              · rw [hpc]
                rfl
              · exact h.closed hparent hx hxs
            refused := by
              intro a x parent hx hxs hxpc
              rcases hstart hx with hpc | hx
              · rw [hpc] at hxpc
                cases hxpc
              · exact h.refused hx hxs hxpc }
  | advance thread now live persists =>
      simp only [FanoutWorld.step]
      split
      · exact h
      · next t ht =>
          exact h.advance ht (t.advances w.supervisor cap now live persists)
            (fun parent hchecked hsession j u hne hj hu =>
              FanoutEvent.orderly_windows he ht hchecked hsession hne hj hu)
  | ends id now c =>
      simp only [FanoutWorld.step]
      split
      · next hend => exact h.shrink (fun parent => activeChildren_call hend id now parent) rfl
      · exact h

theorem FanoutWorld.Safe.run {events : List FanoutEvent} (h : w.Safe cap)
    (he : orderlyRun cap w events = true) : (w.run cap events).Safe cap := by
  induction events generalizing w with
  | nil => exact h
  | cons e events ih =>
      obtain ⟨hnow, hrest⟩ := Bool.and_eq_true_iff.mp he
      exact ih (h.step hnow) hrest

/-- A poisoned session stays poisoned and gets no child. -/
theorem FanoutWorld.Safe.step_poisoned (h : w.Safe cap) (e : FanoutEvent) {parent : String}
    (hparent : parent ∈ w.supervisor.poisonedParents) :
    parent ∈ (w.step cap e).supervisor.poisonedParents ∧
      (w.step cap e).supervisor.tasks.children parent ⊆ w.supervisor.tasks.children parent := by
  cases e with
  | register thread r id =>
      simp only [FanoutWorld.step]
      split <;> exact ⟨hparent, List.Subset.refl _⟩
  | ends id now c =>
      simp only [FanoutWorld.step]
      split
      · exact ⟨hparent, children_call id now c parent⟩
      · exact ⟨hparent, List.Subset.refl _⟩
  | advance thread now live persists =>
      simp only [FanoutWorld.step]
      split
      · exact ⟨hparent, List.Subset.refl _⟩
      · next t ht =>
          show parent ∈ (t.advance w.supervisor cap now live persists).2.poisonedParents ∧
            (t.advance w.supervisor cap now live persists).2.tasks.children parent ⊆ _
          have hmoved := t.advances w.supervisor cap now live persists
          generalize t.advance w.supervisor cap now live persists = moved at hmoved
          obtain ⟨pc, s⟩ := moved
          cases hmoved with
          | leaves | detached | enters | counts => exact ⟨hparent, List.Subset.refl _⟩
          | poisons => exact ⟨List.mem_cons_of_mem _ hparent, List.Subset.refl _⟩
          | fails => exact ⟨hparent, children_call _ _ _ parent⟩
          | @inserts result now' persists' hadmitted hrefused =>
              rcases insertTask_spec w.supervisor t.registration t.id now' persists' with
                hsame | hinserted
              · rw [hsame]
                exact ⟨hparent, List.Subset.refl _⟩
              · rw [hinserted]
                refine ⟨hparent, ?_⟩
                intro x hx
                rcases children_insert hx with hx | hsession
                · exact hx
                · have hout := h.closed hparent ht hsession
                  rw [hadmitted] at hout
                  cases hout

theorem FanoutWorld.Safe.run_poisoned {events : List FanoutEvent} {parent : String} (h : w.Safe cap)
    (he : orderlyRun cap w events = true) (hparent : parent ∈ w.supervisor.poisonedParents) :
    (w.run cap events).supervisor.tasks.children parent ⊆ w.supervisor.tasks.children parent := by
  induction events generalizing w with
  | nil => exact List.Subset.refl _
  | cons e events ih =>
      obtain ⟨hnow, hrest⟩ := Bool.and_eq_true_iff.mp he
      obtain ⟨hstill, hsub⟩ := h.step_poisoned e hparent
      exact List.Subset.trans (ih (h.step hnow) hrest hstill) hsub

end Safety

/-- `Err(ChildFanoutExceeded)` has been returned. -/
def RegisterPc.returnedExceeded : RegisterPc → Bool
  | .done (.error (.childFanoutExceeded ..)) => true
  | _ => false

/-- A registration of the session has been refused for the cap. -/
def FanoutWorld.refused (w : FanoutWorld) (parent : String) : Bool :=
  w.threads.toList.any (fun row =>
    decide (row.2.registration.sessionKey = some parent) && row.2.pc.returnedExceeded)

theorem FanoutWorld.Safe.poisoned_of_refused {cap : Nat} {w : FanoutWorld} {parent : String}
    (h : w.Safe cap) (hrefused : w.refused parent = true) :
    parent ∈ w.supervisor.poisonedParents := by
  obtain ⟨⟨i, t⟩, hrow, ht⟩ := List.any_eq_true.mp hrefused
  obtain ⟨hsession, hreturned⟩ := Bool.and_eq_true_iff.mp ht
  refine h.refused (Table.mem_rows.mp hrow) (of_decide_eq_true hsession) ?_
  revert hreturned
  unfold RegisterPc.returnedExceeded
  split
  · next heq => exact fun _ => by rw [heq]; rfl
  · intro hfalse
    cases hfalse

theorem fanout_new_safe (cap : Nat) (path : Option String) : (FanoutWorld.new path).Safe cap := by
  have hnone : ∀ i : Nat, (∅ : Table Nat RegisterThread)[i]? = none :=
    fun i => Std.ExtTreeMap.getElem?_empty
  have habsurd : ∀ {i : Nat} {t : RegisterThread}, (FanoutWorld.new path).threads[i]? = some t → False := by
    intro i t ht
    cases (hnone i).symm.trans ht
  exact {
    exclusive := fun _ hi => (habsurd hi).elim
    below := fun hi => (habsurd hi).elim
    bounded := by
      intro parent
      have hempty : (FanoutWorld.new path).supervisor.tasks.activeChildren parent = [] := by
        refine List.eq_nil_iff_forall_not_mem.mpr ?_
        intro x hx
        obtain ⟨t, ht, -⟩ := mem_activeChildren.mp hx
        have hget : (∅ : Tasks)[x]? = none := Std.ExtTreeMap.getElem?_empty
        cases hget.symm.trans ht
      rw [hempty]
      exact Nat.zero_le _
    closed := fun _ hi => (habsurd hi).elim
    refused := fun hi => (habsurd hi).elim }

/-- **The cap bounds the fan-out** in every run in which the windows of one session
do not overlap: no state has more active children of a session than the cap, and
after a refusal for the cap the session gets no child any more. -/
theorem fanout_bounded {cap : Nat} {path : Option String} {events later : List FanoutEvent}
    (he : orderlyRun cap (.new path) events = true)
    (hlater : orderlyRun cap ((FanoutWorld.new path).run cap events) later = true) (parent : String) :
    (((FanoutWorld.new path).run cap events).supervisor.tasks.activeChildren parent).length ≤ cap ∧
    (((FanoutWorld.new path).run cap events).refused parent = true →
      (((FanoutWorld.new path).run cap events).run cap later).supervisor.tasks.children parent ⊆
        ((FanoutWorld.new path).run cap events).supervisor.tasks.children parent) := by
  have hsafe := (fanout_new_safe cap path).run he
  refine ⟨hsafe.bounded parent, ?_⟩
  intro hrefused
  exact hsafe.run_poisoned hlater (hsafe.poisoned_of_refused hrefused)

/-- The steps of one registration, one after another. -/
def registerAll (thread : Nat) (id : String) (steps : Nat) : List FanoutEvent :=
  .register thread sampleRegistration id :: List.replicate steps (.advance thread 1 [] true)

/-- Two registrations of `s`, the second one refused at a cap of one. -/
def secondRefused : List FanoutEvent :=
  registerAll 0 "a" 4 ++ registerAll 1 "b" 8

/-- The session of the refused registration gets no child. -/
theorem fanout_bounded_refused :
    ((FanoutWorld.new none).run 1 secondRefused).refused "s" = true ∧
      ∀ later, orderlyRun 1 ((FanoutWorld.new none).run 1 secondRefused) later = true →
        (((FanoutWorld.new none).run 1 secondRefused).run 1 later).supervisor.tasks.children "s" ⊆
          ((FanoutWorld.new none).run 1 secondRefused).supervisor.tasks.children "s" := by
  have horderly : orderlyRun 1 (.new none) secondRefused = true := by rfl
  have hrefused : ((FanoutWorld.new none).run 1 secondRefused).refused "s" = true := by
    rfl
  exact ⟨hrefused, fun later hlater => (fanout_bounded horderly hlater "s").2 hrefused⟩

/-- Two registrations count before either inserts: two active children at a cap of
one.  And a registration that counted before another was refused inserts its child
afterwards. -/
theorem fanout_overlaps :
    ((FanoutWorld.new none).run 1 (registerAll 0 "a" 3 ++ registerAll 1 "b" 3 ++
        [.advance 0 1 [] true, .advance 1 1 [] true])).supervisor.tasks.activeChildren "s" = ["a", "b"] ∧
    ((FanoutWorld.new none).run 1 (registerAll 2 "c" 3 ++ secondRefused)).refused "s" = true ∧
    ((FanoutWorld.new none).run 1 (registerAll 2 "c" 3 ++ secondRefused)).supervisor.tasks.children "s" =
        ["a"] ∧
    ((FanoutWorld.new none).run 1 (registerAll 2 "c" 3 ++ secondRefused ++
        [.advance 2 1 [] true])).supervisor.tasks.children "s" = ["a", "c"] := by
  decide

end Octos.Agent
