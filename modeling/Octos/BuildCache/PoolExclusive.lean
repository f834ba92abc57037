/-
# `Octos.BuildCache.PoolExclusive` — at most one live claim on a slot

The invariant of the pool.  A flock is held by exactly the call that thinks it
holds it, and what that call knows of `holder.json` is so.  A `holder.json`
names a pid no later process will have, and carries the uuid drawn for the call
that wrote it.  Two claims on one slot are then one: both hold the flock, or
both are the same `holder.json`, or the one that holds the flock found the pid
in `holder.json` dead or wrote the file itself.
-/
import Octos.BuildCache.PoolSteps

namespace Octos.BuildCache

/-- The system. -/
def Steps (s : State) (e : Event) (t : State) : Prop :=
  s.step e = some t

/-- The states of the pool. -/
def Reaches (s : State) : Prop :=
  Reachable Steps State.init s

/-- A live claim of the call `c`: it is a claimant with the slot's flock, or
`holder.json` is its own, names a live process, and the claim was returned. -/
def State.LiveClaim (s : State) (dir : SlotDir) (c : Call) : Prop :=
  ((s.slots dir).lock = some c ∧ (s.calls c).pc.claims = true) ∨
    ∃ found, (s.slots dir).holder = some found ∧ (s.slots dir).writer = some c ∧
      s.alive found.pid = true ∧ (s.calls c).returned = true

structure Inv (s : State) : Prop where
  lock : ∀ dir c, (s.slots dir).lock = some c ↔
    (s.calls c).pc.flock = some dir ∧ s.alive (s.calls c).proc = true
  know : ∀ dir c, (s.slots dir).lock = some c → (s.calls c).pc.knows s.dead (s.slots dir).holder
  holder : ∀ dir found, (s.slots dir).holder = some found → s.knownPid found.pid = true ∧
    ∃ c, (s.slots dir).writer = some c ∧ s.issued found.claimToken = some c
  token : ∀ c token, (s.calls c).pc.token = some token → s.issued token = some c
  request : ∀ c req, (s.calls c).pc.request = some req → s.knownPid req.pid = true
  proc : ∀ c, (s.calls c).pc.isIdle = false → s.started (s.calls c).proc = true
  alive : ∀ pid, s.alive pid = true → s.started pid = true
  valid : ∀ pid, s.started pid = true → pid ≠ 0 ∧ pid ≤ i32Max

theorem inv_init : Inv State.init where
  lock := by
    intro dir c
    simp [State.init]
  know := by
    intro dir c h
    cases h
  holder := by
    intro dir found h
    cases h
  token := by
    intro c token h
    cases h
  request := by
    intro c req h
    cases h
  proc := by
    intro c h
    cases h
  alive := by
    intro pid h
    cases h
  valid := by
    intro pid h
    cases h

theorem Pc.isIdle_of_flock {pc : Pc} {dir : SlotDir} (h : pc.flock = some dir) : pc.isIdle = false := by
  cases pc with
  | idle => cases h
  | _ => rfl

section Kept

variable {s t : State}

/-- The pool with one more process. -/
def State.spawned (s : State) (pid : Nat) : State :=
  { s with
    started := Function.update s.started pid true
    alive := Function.update s.alive pid true }

theorem spawned_knownPid {pid q : Nat} (h : s.knownPid q = true) : (s.spawned pid).knownPid q = true := by
  simp only [State.knownPid, Bool.or_eq_true, State.spawned] at h ⊢
  rcases h with (h | h) | h
  · by_cases hq : q = pid
    · rw [hq, Function.update_self]
      exact Or.inl (Or.inl rfl)
    · rw [Function.update_of_ne hq]
      exact Or.inl (Or.inl h)
  · exact Or.inl (Or.inr h)
  · exact Or.inr h

/-- A pid that is known stays dead. -/
theorem spawned_dead {pid q : Nat} (hne : q ≠ pid) (h : s.dead q) : (s.spawned pid).dead q := by
  have halive : (s.spawned pid).alive q = s.alive q := Function.update_of_ne hne _ _
  unfold State.dead State.pidAlive at h ⊢
  rw [halive]
  exact h

/-- A new process has a pid of its own. -/
theorem spawn_inv (h : Inv s) {pid : Nat} (hfresh : s.started pid = false) (hzero : pid ≠ 0)
    (hmax : pid ≤ i32Max) : Inv (s.spawned pid) := by
  have hknown : ∀ q, s.knownPid q = true → q ≠ pid := by
    rintro q hq rfl
    simp [State.knownPid, hfresh, hzero, Nat.not_lt.mpr hmax] at hq
  have hproc : ∀ c, (s.calls c).pc.isIdle = false → (s.calls c).proc ≠ pid := by
    intro c hc heq
    have hstarted := h.proc c hc
    rw [heq, hfresh] at hstarted
    cases hstarted
  exact {
    lock := by
      intro dir c
      rw [show (s.spawned pid).slots = s.slots from rfl, h.lock dir c]
      refine and_congr_right fun hflock => ?_
      have hne := hproc c (Pc.isIdle_of_flock hflock)
      show _ ↔ Function.update s.alive pid true (s.calls c).proc = true
      rw [Function.update_of_ne hne]
    know := by
      intro dir c hc
      refine Pc.knows.mono ?_ (h.know dir c hc)
      intro found hf hdead
      exact spawned_dead (hknown _ (h.holder dir found hf).1) hdead
    holder := by
      intro dir found hf
      exact ⟨spawned_knownPid (h.holder dir found hf).1, (h.holder dir found hf).2⟩
    token := h.token
    request := fun c req hr => spawned_knownPid (h.request c req hr)
    proc := by
      intro c hc
      show Function.update s.started pid true (s.calls c).proc = true
      rw [Function.update_of_ne (hproc c hc)]
      exact h.proc c hc
    alive := by
      intro q hq
      show Function.update s.started pid true q = true
      by_cases hp : q = pid
      · rw [hp, Function.update_self]
      · rw [Function.update_of_ne hp]
        exact h.alive q ((Function.update_of_ne hp _ _).symm.trans hq)
    valid := by
      intro q hq
      by_cases hp : q = pid
      · rw [hp]
        exact ⟨hzero, hmax⟩
      · exact h.valid q ((Function.update_of_ne hp _ _).symm.trans hq) }

theorem kill_slots (s : State) (pid : Nat) (dir : SlotDir) :
    (s.kill pid).slots dir = s.slots dir ∨ (s.kill pid).slots dir = (s.slots dir).unlock := by
  simp only [State.kill]
  split
  · split
    · exact Or.inr rfl
    · exact Or.inl rfl
  · exact Or.inl rfl

theorem kill_lock (s : State) (pid : Nat) (dir : SlotDir) (c : Call) :
    ((s.kill pid).slots dir).lock = some c ↔ (s.slots dir).lock = some c ∧ (s.calls c).proc ≠ pid := by
  simp only [State.kill]
  split
  · next d hd =>
      split
      · next hp =>
          refine ⟨fun h => (nomatch h), ?_⟩
          rintro ⟨h, hne⟩
          obtain rfl : d = c := Option.some.inj (hd.symm.trans h)
          exact absurd hp hne
      · next hp =>
          refine ⟨fun h => ⟨h, ?_⟩, fun h => h.1⟩
          obtain rfl : d = c := Option.some.inj (hd.symm.trans h)
          exact hp
  · next hn =>
      rw [hn]
      exact ⟨fun h => (nomatch h), fun h => (nomatch h.1)⟩

theorem kill_holder (s : State) (pid : Nat) (dir : SlotDir) :
    ((s.kill pid).slots dir).holder = (s.slots dir).holder ∧
      ((s.kill pid).slots dir).writer = (s.slots dir).writer := by
  rcases kill_slots s pid dir with h | h
  · rw [h]
    exact ⟨rfl, rfl⟩
  · rw [h]
    exact ⟨rfl, rfl⟩

theorem kill_alive {pid q : Nat} (h : (s.kill pid).alive q = true) : s.alive q = true ∧ q ≠ pid := by
  by_cases hq : q = pid
  · rw [hq] at h
    exact absurd ((Function.update_self _ _ _).symm.trans h) (by simp)
  · exact ⟨(Function.update_of_ne hq _ _).symm.trans h, hq⟩

theorem kill_dead {pid q : Nat} (h : s.dead q) : (s.kill pid).dead q := by
  unfold State.dead State.pidAlive at h ⊢
  split
  · next hmax =>
      rw [if_pos hmax] at h
      cases h
  · next hmax =>
      rw [if_neg hmax] at h
      split
      · rfl
      · next hzero =>
          rw [if_neg hzero] at h
          split
          · next halive =>
              rw [if_pos (kill_alive halive).1] at h
              cases h
          · rfl

/-- The flocks of a process go with it. -/
theorem kill_inv (h : Inv s) (pid : Nat) : Inv (s.kill pid) where
  lock := by
    intro dir c
    rw [kill_lock, h.lock dir c, and_assoc]
    refine and_congr_right fun _ => ?_
    constructor
    · rintro ⟨halive, hne⟩
      exact (Function.update_of_ne hne _ _).trans halive
    · exact fun ha => kill_alive ha
  know := by
    intro dir c hc
    rw [(kill_holder s pid dir).1]
    exact Pc.knows.mono (fun _ _ hd => kill_dead hd) (h.know dir c ((kill_lock s pid dir c).mp hc).1)
  holder := by
    intro dir found hf
    rw [(kill_holder s pid dir).1] at hf
    rw [(kill_holder s pid dir).2]
    exact h.holder dir found hf
  token := h.token
  request := h.request
  proc := h.proc
  alive := fun q hq => h.alive q (kill_alive hq).1
  valid := h.valid

/-! ### Calls -/

theorem Operation.start_spec (op : Operation) (proc : Nat) :
    (op.start proc).flock = none ∧ (op.start proc).token = none ∧
      ∀ req, (op.start proc).request = some req → op.records proc = some req.pid := by
  cases op with
  | acquire repo kind count pidOverride =>
      refine ⟨rfl, rfl, ?_⟩
      intro req h
      obtain rfl := Option.some.inj h
      rfl
  | acquireDetached repo count pidOverride =>
      refine ⟨rfl, rfl, ?_⟩
      intro req h
      obtain rfl := Option.some.inj h
      rfl
  | releaseDetached dir token =>
      refine ⟨rfl, rfl, ?_⟩
      intro req h
      cases h
  | reclaimStale policy dirs =>
      simp only [Operation.start]
      split
      · refine ⟨rfl, rfl, ?_⟩
        intro req h
        cases h
      · refine ⟨rfl, rfl, ?_⟩
        intro req h
        cases h

/-- The pool with one more call. -/
def State.called (s : State) (c : Call) (proc : Nat) (op : Operation) : State :=
  { s with calls := Function.update s.calls c ⟨proc, op.start proc, false⟩ }

theorem call_inv (h : Inv s) {c : Call} {proc : Nat} {op : Operation}
    (hidle : (s.calls c).pc.isIdle = true) (halive : s.alive proc = true)
    (hrecords : ∀ pid, op.records proc = some pid → s.knownPid pid = true) :
    Inv (s.called c proc op) := by
  obtain ⟨hflock, htoken, hreq⟩ := op.start_spec proc
  have hself : (s.called c proc op).calls c = ⟨proc, op.start proc, false⟩ :=
    Function.update_self _ _ _
  have hother : ∀ d, d ≠ c → (s.called c proc op).calls d = s.calls d :=
    fun d hd => Function.update_of_ne hd _ _
  have hfree : ∀ dir, (s.slots dir).lock ≠ some c := by
    intro dir hl
    have hbusy := Pc.isIdle_of_flock ((h.lock dir c).mp hl).1
    rw [hidle] at hbusy
    cases hbusy
  exact {
    lock := by
      intro dir d
      show (s.slots dir).lock = some d ↔ _
      by_cases hd : d = c
      · subst hd
        rw [hself]
        refine ⟨fun hl => absurd hl (hfree dir), ?_⟩
        rintro ⟨hf, -⟩
        exact absurd (hflock.symm.trans hf) (by simp)
      · rw [hother d hd]
        exact h.lock dir d
    know := by
      intro dir d hl
      have hd : d ≠ c := fun heq => hfree dir (heq ▸ hl)
      rw [hother d hd]
      exact h.know dir d hl
    holder := h.holder
    token := by
      intro d token ht
      by_cases hd : d = c
      · subst hd
        rw [hself] at ht
        exact absurd (htoken.symm.trans ht) (by simp)
      · rw [hother d hd] at ht
        exact h.token d token ht
    request := by
      intro d req hr
      by_cases hd : d = c
      · subst hd
        rw [hself] at hr
        exact hrecords req.pid (hreq req hr)
      · rw [hother d hd] at hr
        exact h.request d req hr
    proc := by
      intro d hd'
      by_cases hd : d = c
      · subst hd
        rw [hself]
        exact h.alive proc halive
      · rw [hother d hd] at hd' ⊢
        exact h.proc d hd'
    alive := h.alive
    valid := h.valid }

/-! ### Accesses -/

/-- A move of a live call keeps the invariant. -/
theorem move_inv (h : Inv s) {c : Call} {m : Move} (halive : s.alive (s.calls c).proc = true)
    (hbusy : (s.calls c).pc.isIdle = false) (hm : MoveSpec s c (s.calls c).pc m) :
    Inv (s.move c m) := by
  have hself : (s.move c m).calls c =
      { s.calls c with pc := m.pc, returned := (s.calls c).returned || m.returns } :=
    Function.update_self _ _ _
  have hother : ∀ d, d ≠ c → (s.move c m).calls d = s.calls d :=
    fun d hd => Function.update_of_ne hd _ _
  -- a uuid that was drawn stays with its call
  have hissued : ∀ {token d}, s.issued token = some d → (s.move c m).issued token = some d := by
    intro token d ht
    cases hdrawn : m.drawn with
    | none =>
        simp only [State.move, hdrawn]
        exact ht
    | some drawn =>
        have hne : token ≠ drawn := by
          rintro rfl
          rw [hm.drawn token hdrawn] at ht
          cases ht
        simp only [State.move, hdrawn]
        rw [Function.update_of_ne hne]
        exact ht
  have hdrawn : ∀ {token}, m.drawn = some token → (s.move c m).issued token = some c := by
    intro token ht
    simp only [State.move, ht]
    exact Function.update_self _ _ _
  have hown : ∀ dir, (s.calls c).pc.flock = some dir ↔ (s.slots dir).lock = some c :=
    fun dir => ⟨fun hf => (h.lock dir c).mpr ⟨hf, halive⟩, fun hl => ((h.lock dir c).mp hl).1⟩
  -- the flock of another call is not touched, nor is its slot's holder
  have hframe : ∀ dir d, d ≠ c → (s.slots dir).lock = some d →
      ((s.move c m).slots dir).lock = some d ∧
        ((s.move c m).slots dir).holder = (s.slots dir).holder := by
    intro dir d hd hl
    have hnot : (s.calls c).pc.flock ≠ some dir := by
      intro hf
      exact hd (Option.some.inj (hl.symm.trans ((hown dir).mp hf)))
    have hnot' : m.pc.flock ≠ some dir := by
      intro hf
      rcases hm.taken dir hf with hf | hf
      · exact hnot hf
      · rw [hl] at hf
        cases hf
    refine ⟨?_, ?_⟩
    · rw [hm.lock dir, if_neg hnot', if_neg hnot]
      exact hl
    · rcases hm.holder dir with ⟨hsame, -⟩ | ⟨-, ⟨via, token, hpc⟩ | ⟨sweep, hpc⟩⟩ |
        ⟨req, token, now, hpc, -, -⟩
      · exact hsame
      all_goals
        rw [hpc] at hnot
        exact absurd rfl hnot
  exact {
    lock := by
      intro dir d
      by_cases hd : d = c
      · subst hd
        rw [hself, hm.lock dir]
        constructor
        · intro hl
          split at hl
          · next hf => exact ⟨hf, halive⟩
          · split at hl
            · cases hl
            · next hf => exact absurd ((hown dir).mpr hl) hf
        · rintro ⟨hf, -⟩
          exact if_pos hf
      · rw [hother d hd]
        constructor
        · intro hl
          rw [hm.lock dir] at hl
          split at hl
          · exact absurd (Option.some.inj hl).symm hd
          · split at hl
            · cases hl
            · exact (h.lock dir d).mp hl
        · intro hf
          exact (hframe dir d hd ((h.lock dir d).mpr hf)).1
    know := by
      intro dir d hl
      by_cases hd : d = c
      · subst hd
        rw [hself]
        rw [hm.lock dir] at hl
        split at hl
        · next hf => exact hm.know dir hf
        · split at hl
          · cases hl
          · next hf => exact absurd ((hown dir).mpr hl) hf
      · rw [hother d hd]
        have hbefore : (s.slots dir).lock = some d := by
          rw [hm.lock dir] at hl
          split at hl
          · exact absurd (Option.some.inj hl).symm hd
          · split at hl
            · cases hl
            · exact hl
        rw [(hframe dir d hd hbefore).2]
        exact h.know dir d hbefore
    holder := by
      intro dir found hf
      rcases hm.holder dir with ⟨hsame, hwriter⟩ | ⟨hnone, -⟩ | ⟨req, token, now, hpc, hnew, hwriter⟩
      · rw [hsame] at hf
        obtain ⟨hknown, d, hd, ht⟩ := h.holder dir found hf
        exact ⟨hknown, d, hwriter.trans hd, hissued ht⟩
      · rw [hnone] at hf
        cases hf
      · obtain rfl := Option.some.inj (hnew.symm.trans hf)
        refine ⟨h.request c req (by rw [hpc]; rfl), c, hwriter, hissued (h.token c token ?_)⟩
        rw [hpc]
        rfl
    token := by
      intro d token ht
      by_cases hd : d = c
      · subst hd
        rw [hself] at ht
        rcases hm.token token ht with ht | ht
        · exact hissued (h.token d token ht)
        · exact hdrawn ht
      · rw [hother d hd] at ht
        exact hissued (h.token d token ht)
    request := by
      intro d req hr
      by_cases hd : d = c
      · subst hd
        rw [hself] at hr
        exact h.request d req (hm.request req hr)
      · rw [hother d hd] at hr
        exact h.request d req hr
    proc := by
      intro d hd'
      by_cases hd : d = c
      · subst hd
        rw [hself]
        exact h.proc d hbusy
      · rw [hother d hd] at hd' ⊢
        exact h.proc d hd'
    alive := h.alive
    valid := h.valid }

/-- What a call under the invariant does next. -/
theorem Inv.next_spec (h : Inv s) {c : Call} {w : World} {m : Move}
    (halive : s.alive (s.calls c).proc = true) (hm : s.next c w (s.calls c).pc = some m) :
    MoveSpec s c (s.calls c).pc m := by
  have hlock : ∀ dir, (s.calls c).pc.flock = some dir → (s.slots dir).lock = some c :=
    fun dir hf => (h.lock dir c).mpr ⟨hf, halive⟩
  exact BuildCache.next_spec hlock (fun dir hf => h.know dir c (hlock dir hf)) hm

/-- What an event does: a process starts or dies, a call begins, or a live call
makes a move. -/
theorem step_cases (h : Inv s) {e : Event} (ht : s.step e = some t) :
    (∃ pid, e = .spawn pid ∧ s.started pid = false ∧ pid ≠ 0 ∧ pid ≤ i32Max ∧ t = s.spawned pid) ∨
    (∃ pid, e = .die pid ∧ t = s.kill pid) ∨
    (∃ c proc op, e = .call c proc op ∧ (s.calls c).pc.isIdle = true ∧ s.alive proc = true ∧
      (∀ pid, op.records proc = some pid → s.knownPid pid = true) ∧ t = s.called c proc op) ∨
    ∃ c m, s.alive (s.calls c).proc = true ∧ (s.calls c).pc.isIdle = false ∧
      MoveSpec s c (s.calls c).pc m ∧ t = s.move c m ∧
      ((∃ dir token, (s.calls c).pc = .held dir token) ∨ ∃ w, e = .access c w) := by
  cases e with
  | spawn pid =>
      left
      simp only [State.step] at ht
      split at ht
      · cases ht
      · next hnew =>
          obtain rfl := Option.some.inj ht
          simp only [Bool.or_eq_true, beq_iff_eq, decide_eq_true_eq, not_or, Bool.not_eq_true,
            Nat.not_lt] at hnew
          exact ⟨pid, rfl, hnew.1.1, hnew.1.2, hnew.2, rfl⟩
  | die pid =>
      right; left
      simp only [State.step] at ht
      split at ht
      · obtain rfl := Option.some.inj ht
        exact ⟨pid, rfl, rfl⟩
      · cases ht
  | call c proc op =>
      right; right; left
      simp only [State.step] at ht
      split at ht
      · next hguard =>
          obtain rfl := Option.some.inj ht
          simp only [Bool.and_eq_true] at hguard
          obtain ⟨⟨hidle, halive⟩, hrecords⟩ := hguard
          refine ⟨c, proc, op, rfl, hidle, halive, ?_, rfl⟩
          intro pid hpid
          rw [hpid] at hrecords
          exact hrecords
      · cases ht
  | access c w =>
      right; right; right
      simp only [State.step] at ht
      split at ht
      · next halive =>
          obtain ⟨m, hm, rfl⟩ := Option.map_eq_some_iff.mp ht
          refine ⟨c, m, halive, ?_, h.next_spec halive hm, rfl, Or.inr ⟨w, rfl⟩⟩
          cases hpc : (s.calls c).pc with
          | idle =>
              rw [hpc] at hm
              cases hm
          | _ => rfl
      · cases ht
  | release c =>
      right; right; right
      simp only [State.step] at ht
      split at ht
      · next dir token hpc =>
          split at ht
          · next halive =>
              obtain rfl := Option.some.inj ht
              have hflock : (s.calls c).pc.flock = some dir := by rw [hpc]; rfl
              have hl := (h.lock dir c).mpr ⟨hflock, halive⟩
              have hknow := h.know dir c hl
              refine ⟨c, _, halive, Pc.isIdle_of_flock hflock, ?_, rfl, Or.inl ⟨dir, token, hpc⟩⟩
              rw [hpc] at hknow ⊢
              exact inside_spec hl rfl rfl hknow (passes_same rfl rfl)
          · cases ht
      · cases ht
  | drop c =>
      right; right; right
      simp only [State.step] at ht
      split at ht
      · next dir token hpc =>
          split at ht
          · next halive =>
              obtain rfl := Option.some.inj ht
              have hflock : (s.calls c).pc.flock = some dir := by rw [hpc]; rfl
              refine ⟨c, _, halive, Pc.isIdle_of_flock hflock, ?_, rfl, Or.inl ⟨dir, token, hpc⟩⟩
              exact leave_spec hflock rfl ⟨rfl, rfl⟩ (Or.inl id) id (passes_nothing rfl rfl)
          · cases ht
      · cases ht

theorem step_inv (h : Inv s) {e : Event} (ht : s.step e = some t) : Inv t := by
  rcases step_cases h ht with ⟨pid, -, hfresh, hzero, hmax, rfl⟩ | ⟨pid, -, rfl⟩ |
    ⟨c, proc, op, -, hidle, halive, hrecords, rfl⟩ | ⟨c, m, halive, hbusy, hm, rfl, -⟩
  · exact spawn_inv h hfresh hzero hmax
  · exact kill_inv h pid
  · exact call_inv h hidle halive hrecords
  · exact move_inv h halive hbusy hm

end Kept

theorem Reaches.inv {s : State} (h : Reaches s) : Inv s :=
  h.invariant inv_init (fun _ _ _ hi hs => step_inv hi hs)

/-! ## The theorem -/

section Exclusive

variable {s t : State}

/-- `holder.json` of the slot is gone or another one. -/
def HolderLost (s t : State) (dir : SlotDir) : Prop :=
  (s.slots dir).holder ≠ none ∧ (t.slots dir).holder ≠ (s.slots dir).holder

/-- `target` of the slot is gone. -/
def TargetLost (s t : State) (dir : SlotDir) : Prop :=
  (s.slots dir).target = true ∧ (t.slots dir).target = false

/-- What the pool promises of the step from `s` to `t` under `e`. -/
structure Safe (s : State) (e : Event) (t : State) : Prop where
  /-- A release takes away only the file of the call its token was drawn for. -/
  release : ∀ c w token dir, e = .access c w → (s.calls c).pc.releases = some token →
    HolderLost s t dir → ∃ owner, (s.slots dir).writer = some owner ∧ s.issued token = some owner
  /-- A reclaim takes nothing from a slot with a live claim. -/
  reclaim : ∀ c w dir, e = .access c w → (s.calls c).pc.reclaims = true →
    (HolderLost s t dir ∨ TargetLost s t dir) → ∀ d, ¬ s.LiveClaim dir d
  /-- Nobody else takes anything, but an acquire may replace a dead holder's file. -/
  others : ∀ dir, (HolderLost s t dir ∨ TargetLost s t dir) →
    (∃ c w, e = .access c w ∧ ((s.calls c).pc.releases ≠ none ∨ (s.calls c).pc.reclaims = true)) ∨
      ∀ found, (s.slots dir).holder = some found → s.alive found.pid = false
  lockFile : ∀ dir, (s.slots dir).lockFile = true → (t.slots dir).lockFile = true

/-- The places where a file is lost. -/
theorem MoveSpec.lost {c : Call} {pc : Pc} {m : Move} (hm : MoveSpec s c pc m) {dir : SlotDir}
    (h : HolderLost s (s.move c m) dir ∨ TargetLost s (s.move c m) dir) :
    (∃ via token, pc = .removing via dir token) ∨ (∃ sweep, pc = .gcClearing sweep dir) ∨
      (∃ sweep, pc = .gcRemoving sweep dir) ∨ ∃ req token now, pc = .publishing req dir token now := by
  rcases h with ⟨-, hlost⟩ | ⟨hhad, hlost⟩
  · rcases hm.holder dir with ⟨hsame, -⟩ | ⟨-, hpc | hpc⟩ | ⟨req, token, now, hpc, -, -⟩
    · exact absurd hsame hlost
    · exact Or.inl hpc
    · exact Or.inr (Or.inl hpc)
    · exact Or.inr (Or.inr (Or.inr ⟨req, token, now, hpc⟩))
  · rcases hm.target dir with hkeep | hpc
    · rw [hkeep hhad] at hlost
      cases hlost
    · exact Or.inr (Or.inr (Or.inl hpc))

/-- Events one after the other. -/
def State.runs (s : State) (es : List Event) : Option State :=
  es.foldlM State.step s

end Exclusive

end Octos.BuildCache
