/-
# `Octos.Ui.LogRuns` — every run of a session

What every call leaves: the log files are in order and hold the end of what was appended,
the snapshot holds a run that the log continues, and so does the ring.  The last of
these is lost when an append overruns the snapshot, and only then.
-/
import Octos.Ui.LogRead
import Octos.Ui.LogReplay

namespace Octos.Ui

variable {E : Type}

/-! ## Log files -/

/-- The files are in the order of their names. -/
def Ordered (logs : List (LogFile E)) : Prop :=
  logs.Pairwise (fun f g => f.name < g.name)

theorem mem_writeRow {name : Nat} {row : Row E} {f : LogFile E} : ∀ {logs : List (LogFile E)},
    f ∈ writeRow name row logs → f.name = name ∨ ∃ g ∈ logs, f.name = g.name := by
  intro logs
  induction logs with
  | nil =>
      intro hf
      rw [List.mem_singleton.mp hf]
      exact Or.inl rfl
  | cons g logs ih =>
      intro hf
      unfold writeRow at hf
      split at hf
      · rcases List.mem_cons.mp hf with rfl | hf
        · exact Or.inl rfl
        · exact Or.inr ⟨f, hf, rfl⟩
      · split at hf
        · rcases List.mem_cons.mp hf with rfl | hf
          · exact Or.inr ⟨g, List.mem_cons_self, rfl⟩
          · exact Or.inr ⟨f, List.mem_cons_of_mem _ hf, rfl⟩
        · rcases List.mem_cons.mp hf with rfl | hf
          · exact Or.inr ⟨f, List.mem_cons_self, rfl⟩
          · rcases ih hf with h | ⟨x, hx, h⟩
            · exact Or.inl h
            · exact Or.inr ⟨x, List.mem_cons_of_mem _ hx, h⟩

/-- A record that goes to the last file, or to a new one behind it. -/
theorem writeRow_last {name : Nat} {row : Row E} : ∀ {logs : List (LogFile E)}, Ordered logs →
    (∀ f ∈ logs, f.name ≤ name) →
    (writeRow name row logs).flatMap LogFile.rows = logs.flatMap LogFile.rows ++ [row] ∧
      Ordered (writeRow name row logs) ∧ ∀ f ∈ writeRow name row logs, f.name ≤ name := by
  intro logs
  induction logs with
  | nil =>
      intro _ _
      exact ⟨rfl, List.pairwise_singleton _ _, fun f hf => by rw [List.mem_singleton.mp hf]⟩
  | cons file files ih =>
      intro hordered hle
      obtain ⟨hfirst, hrest⟩ := List.pairwise_cons.mp hordered
      have hfile : file.name ≤ name := hle file List.mem_cons_self
      have hfiles : ∀ f ∈ files, f.name ≤ name := fun f hf => hle f (List.mem_cons_of_mem _ hf)
      rw [writeRow, if_neg (by omega)]
      by_cases heq : name = file.name
      · -- the last file, since its name is the largest
        have hlast : files = [] := by
          cases files with
          | nil => rfl
          | cons g files =>
              have hlt := hfirst g List.mem_cons_self
              have hbound := hfiles g List.mem_cons_self
              omega
        rw [if_pos heq, hlast]
        refine ⟨by simp, List.pairwise_singleton _ _, ?_⟩
        intro f hf
        rw [List.mem_singleton.mp hf]
        exact hfile
      · obtain ⟨hrows, hord, hbound⟩ := ih hrest hfiles
        rw [if_neg heq]
        refine ⟨?_, ?_, ?_⟩
        · rw [List.flatMap_cons, hrows, List.flatMap_cons, List.append_assoc]
        · refine List.pairwise_cons.mpr ⟨?_, hord⟩
          intro f hf
          rcases mem_writeRow hf with hname | ⟨g, hg, hname⟩
          · omega
          · rw [hname]
            exact hfirst g hg
        · intro f hf
          rcases List.mem_cons.mp hf with rfl | hf
          · exact hfile
          · exact hbound f hf

theorem writeRow_ne_nil {name : Nat} {row : Row E} (logs : List (LogFile E)) : writeRow name row logs ≠ [] := by
  cases logs with
  | nil => exact List.cons_ne_nil _ _
  | cons file files =>
      unfold writeRow
      split
      · exact List.cons_ne_nil _ _
      · split <;> exact List.cons_ne_nil _ _

theorem rowsFrom_last : ∀ {es : List E} {a : Nat} {init : List (Row E)} {last : Row E},
    rowsFrom a es = init.concat last → last.seq = a + es.length := by
  intro es
  induction es with
  | nil =>
      intro a init last h
      have hzero := congrArg List.length h
      simp [rowsFrom] at hzero
  | cons e es ih =>
      intro a init last h
      cases init with
      | nil =>
          cases es with
          | nil =>
              obtain ⟨rfl, -⟩ := List.cons.inj h
              rfl
          | cons e' es =>
              have hlength := congrArg List.length h
              simp [rowsFrom] at hlength
      | cons r init =>
          obtain ⟨-, hrest⟩ := List.cons.inj h
          rw [ih hrest, List.length_cons]
          omega

/-- What is left of a run when the first files are gone. -/
theorem drop_logs {logs : List (LogFile E)} {es : List E} {k : Nat} (hk : k ≤ es.length)
    (hrows : logs.flatMap LogFile.rows = rowsFrom k (es.drop k)) (d : Nat) :
    ∃ k', k ≤ k' ∧ k' ≤ es.length ∧ (logs.drop d).flatMap LogFile.rows = rowsFrom k' (es.drop k') ∧
      ∀ c, k ≤ c → (∀ f ∈ logs.take d, ∀ row ∈ f.rows, row.seq ≤ c) → k' ≤ c := by
  have hsplit : (logs.take d).flatMap LogFile.rows ++ (logs.drop d).flatMap LogFile.rows =
      rowsFrom k (es.drop k) := by
    rw [← List.flatMap_append, List.take_append_drop, hrows]
  have hlen : ((logs.take d).flatMap LogFile.rows).length ≤ es.length - k := by
    have hsum := congrArg List.length hsplit
    rw [List.length_append, length_rowsFrom, List.length_drop] at hsum
    omega
  refine ⟨k + ((logs.take d).flatMap LogFile.rows).length, by omega, by omega, ?_, ?_⟩
  · have hdrop := congrArg (List.drop ((logs.take d).flatMap LogFile.rows).length) hsplit
    rw [List.drop_left, drop_rowsFrom, List.drop_drop] at hdrop
    exact hdrop
  · intro c hc hall
    -- the last row that is gone has the seq just before what is left
    have hfirst : (logs.take d).flatMap LogFile.rows =
        rowsFrom k ((es.drop k).take ((logs.take d).flatMap LogFile.rows).length) := by
      have htake := congrArg (List.take ((logs.take d).flatMap LogFile.rows).length) hsplit
      rw [List.take_left, take_rowsFrom] at htake
      exact htake
    rcases List.eq_nil_or_concat ((logs.take d).flatMap LogFile.rows) with hnil | ⟨init, last, hconcat⟩
    · rw [hnil]
      exact hc
    · have hlast : last ∈ (logs.take d).flatMap LogFile.rows := by
        rw [hconcat]
        simp
      obtain ⟨f, hf, hrow⟩ := List.mem_flatMap.mp hlast
      have hle := hall f hf last hrow
      have hval := rowsFrom_last (hfirst.symm.trans hconcat)
      have hlength : ((es.drop k).take ((logs.take d).flatMap LogFile.rows).length).length =
          ((logs.take d).flatMap LogFile.rows).length := by
        have hsame := congrArg List.length hfirst
        rw [length_rowsFrom] at hsame
        exact hsame.symm
      rw [hlength] at hval
      omega

/-! ## The invariant -/

/-- What was appended. -/
def Store.events (st : Store E) : List E :=
  st.appended.map Row.event

/-- The session is at the end of what was appended, its ring is a run, and it writes to
the last file. -/
structure SessionLedger.Fits (session : SessionLedger E) (st : Store E) : Prop where
  next : session.nextSeq = st.events.length
  ring : ∃ i, (i < st.events.length ∨ st.events = [] ∧ i = 0) ∧ session.entries = rowsFrom i (st.events.drop i)
  active : ∀ path, session.activeLog = some path → path < st.clock ∧ ∀ f ∈ st.dir.logs, f.name ≤ path

structure Store.Good (st : Store E) : Prop where
  numbered : st.appended = rowsFrom 0 st.events
  holds : ∃ k, (k < st.events.length ∨ st.events = []) ∧ st.dir.Holds st.events k
  ordered : Ordered st.dir.logs
  clock : ∀ f ∈ st.dir.logs, f.name < st.clock
  fits : ∀ session, st.mem = some session → session.Fits st ∧ st.events ≠ []

section Runs

variable {cfg : LedgerConfig} {codec : EventCodec E} {orphans : List (Row E) → List E}
variable {st : Store E} {session : SessionLedger E}

theorem path_fits (hactive : ∀ path, session.activeLog = some path → path < st.clock ∧ ∀ f ∈ st.dir.logs, f.name ≤ path)
    (hbound : ∀ f ∈ st.dir.logs, f.name < st.clock) :
    session.path cfg st.clock < st.clock + 1 ∧
      ∀ f ∈ session.kept cfg st.dir.logs, f.name ≤ session.path cfg st.clock := by
  have hkept : ∀ f ∈ session.kept cfg st.dir.logs, f ∈ st.dir.logs := by
    intro f hf
    unfold SessionLedger.kept at hf
    split at hf
    · exact List.mem_of_mem_drop hf
    · exact hf
  have hclock : ∀ f ∈ session.kept cfg st.dir.logs, f.name ≤ st.clock :=
    fun f hf => (hbound f (hkept f hf)).le
  unfold SessionLedger.path
  split
  · exact ⟨Nat.lt_succ_self _, hclock⟩
  · cases hlog : session.activeLog with
    | none => exact ⟨Nat.lt_succ_self _, hclock⟩
    | some path =>
        obtain ⟨hpath, hall⟩ := hactive path hlog
        exact ⟨Nat.lt_succ_of_lt hpath, fun f hf => hall f (hkept f hf)⟩

theorem kept_ordered (hordered : Ordered st.dir.logs) : Ordered (session.kept cfg st.dir.logs) := by
  unfold SessionLedger.kept
  split
  · exact hordered.sublist (List.drop_sublist _ _)
  · exact hordered

/-- What the rows of the files are when the record is written; the snapshot still meets
them, or is written again. -/
theorem kept_rows (hgood : st.Good) (hover : st.dir.overruns cfg session = false) :
    ∃ k, k ≤ st.events.length ∧
      (session.kept cfg st.dir.logs).flatMap LogFile.rows = rowsFrom k (st.events.drop k) ∧
      (cfg.due (session.nextSeq + 1) = false →
        ∀ snap, st.dir.snapshot = some snap → k ≤ snap.headSeq) := by
  obtain ⟨k, -, hholds⟩ := hgood.holds
  have hsnap : ∀ snap, st.dir.snapshot = some snap → k ≤ snap.headSeq := by
    intro snap hsome
    obtain ⟨j, -, -, hk, -⟩ := hholds.snapshot snap hsome
    exact hk
  unfold SessionLedger.kept
  split
  · next hrotates =>
      obtain ⟨k', hk', hlen, hrows, hgone⟩ := drop_logs hholds.start hholds.rows
        (st.dir.logs.length - (cfg.retainedLogFiles - 1))
      refine ⟨k', hlen, hrows, ?_⟩
      intro hdue snap hsome
      refine hgone snap.headSeq (hsnap snap hsome) ?_
      intro f hf row hrow
      by_contra hnew
      simp only [SessionDir.overruns, hrotates, hdue, hholds.readSnapshot, hsome, Bool.not_false,
        Bool.true_and] at hover
      have hany := List.any_eq_false.mp hover f hf
      exact hany (List.any_eq_true.mpr ⟨row, hrow, decide_eq_true (Nat.lt_of_not_le hnew)⟩)
  · exact ⟨k, hholds.start, hholds.rows, fun _ => hsnap⟩

/-- One more row behind a run. -/
theorem run_snoc {es : List E} {i : Nat} (hi : i ≤ es.length) (e : E) :
    rowsFrom i (es.drop i) ++ [⟨es.length + 1, e⟩] = rowsFrom i ((es ++ [e]).drop i) := by
  have hsum : i + (es.length - i) = es.length := by omega
  rw [List.drop_append_of_le_length hi, rowsFrom_append, List.length_drop, hsum]
  rfl

/-- **An append** that does not overrun the snapshot. -/
theorem Store.Good.put (hgood : st.Good) (hfits : session.Fits st) (hcap : 0 < cfg.retainedPerSession)
    {event : E} (hover : (st.put cfg codec session event).overrun = false) :
    (st.put cfg codec session event).Good := by
  have hnot : st.dir.overruns cfg session = false := by
    have hboth : (st.overrun || st.dir.overruns cfg session) = false := hover
    exact (Bool.or_eq_false_iff.mp hboth).2
  obtain ⟨hpath, hle⟩ := @path_fits E cfg st session hfits.active hgood.clock
  obtain ⟨k, hk, hrows, hmeets⟩ := kept_rows hgood hnot
  obtain ⟨hwritten, hordered, hbound⟩ := @writeRow_last E (session.path cfg st.clock)
    ⟨session.nextSeq + 1, codec.withCursor (session.nextSeq + 1) event⟩ _ (kept_ordered hgood.ordered) hle
  have hevents : (st.put cfg codec session event).events =
      st.events ++ [codec.withCursor (session.nextSeq + 1) event] := List.map_append
  have hlength : (st.put cfg codec session event).events.length = st.events.length + 1 := by
    rw [hevents, List.length_append, List.length_singleton]
  have hlogs : (st.put cfg codec session event).dir.logs = _ := append_logs st.clock st.dir event
  -- the ring
  obtain ⟨i, hi, hentries⟩ := hfits.ring
  have hile : i ≤ st.events.length := by
    rcases hi with hi | ⟨-, rfl⟩
    · exact hi.le
    · exact Nat.zero_le _
  obtain ⟨i', hi', hring⟩ := @keepLast_run E cfg.retainedPerSession (st.put cfg codec session event).events i
    hcap (by omega)
  have hentries' : (session.append cfg codec st.clock st.dir event).1.entries =
      rowsFrom i' ((st.put cfg codec session event).events.drop i') := by
    show keepLast cfg.retainedPerSession (session.entries ++ [⟨session.nextSeq + 1, _⟩]) = _
    rw [hentries, hfits.next, run_snoc hile, ← hring, hevents, hfits.next]
  refine ⟨?_, ⟨k, Or.inl (by omega), ⟨by omega, ?_, ?_, ?_⟩⟩, ?_, ?_, ?_⟩
  · rw [hevents, rowsFrom_append, ← hgood.numbered, Nat.zero_add, ← hfits.next]
    rfl
  · rw [hlogs, hevents]
    simp [writeRow_ne_nil]
  · rw [SessionDir.rows, hlogs, hwritten, hrows, hfits.next, run_snoc hk, hevents, hfits.next]
  · intro snap hsome
    have hwhich : (st.put cfg codec session event).dir.snapshot = _ := append_snapshot st.clock st.dir event
    rw [hwhich] at hsome
    split at hsome
    · obtain rfl := Option.some.inj hsome
      have hhead : session.nextSeq + 1 = (st.put cfg codec session event).events.length := by
        rw [hlength, hfits.next]
      refine ⟨i', ?_, hhead.le, ?_, ?_⟩
      · show i' < session.nextSeq + 1
        omega
      · show k ≤ session.nextSeq + 1
        omega
      · show (session.append cfg codec st.clock st.dir event).1.entries = _
        rw [hentries', hhead, List.take_length]
    · next hdue =>
        obtain ⟨k₀, -, hholds⟩ := hgood.holds
        obtain ⟨j, hj, hlen, -, hrun⟩ := hholds.snapshot snap hsome
        refine ⟨j, hj, by omega, hmeets (by simpa using hdue) snap hsome, ?_⟩
        rw [hrun, hevents, List.take_append_of_le_length hlen]
  · rw [hlogs]
    exact hordered
  · rw [hlogs]
    intro f hf
    exact lt_of_le_of_lt (hbound f hf) hpath
  · intro s hs
    obtain rfl := Option.some.inj hs
    refine ⟨⟨?_, ⟨i', Or.inl hi', hentries'⟩, ?_⟩, ?_⟩
    · rw [hlength, ← hfits.next]
      rfl
    · intro path hactive
      obtain rfl := Option.some.inj hactive
      refine ⟨hpath, ?_⟩
      rw [hlogs]
      exact hbound
    · rw [hevents]
      simp

/-! ## Every call keeps it -/

/-- Another session in memory. -/
theorem Store.Good.withMem (hgood : st.Good) (hfits : session.Fits st) (hne : st.events ≠ []) :
    ({ st with mem := some session } : Store E).Good := by
  obtain ⟨hnumbered, hholds, hordered, hclock, -⟩ := hgood
  refine ⟨hnumbered, hholds, hordered, hclock, ?_⟩
  intro s hs
  obtain rfl := Option.some.inj hs
  exact ⟨⟨hfits.next, hfits.ring, hfits.active⟩, hne⟩

theorem Store.Good.withoutMem (hgood : st.Good) (indexed reconciled : Bool) :
    ({ st with mem := none, indexed := indexed, reconciled := reconciled } : Store E).Good := by
  obtain ⟨hnumbered, hholds, hordered, hclock, -⟩ := hgood
  refine ⟨hnumbered, hholds, hordered, hclock, ?_⟩
  intro s hs
  cases hs

/-- The directory is read when something was appended, and only then. -/
theorem Store.Good.logs_of_events (hgood : st.Good) (hne : st.events ≠ []) :
    ∃ k, k < st.events.length ∧ st.dir.Holds st.events k := by
  obtain ⟨k, hk | hnil, hholds⟩ := hgood.holds
  · exact ⟨k, hk, hholds⟩
  · exact absurd hnil hne

theorem Store.Good.events_of_read (hgood : st.Good) {after : Option Nat} {fromBeginning : Bool}
    {snap : DiskSnapshot E} (hread : st.dir.read cfg codec after fromBeginning = some snap) : st.events ≠ [] := by
  obtain ⟨k, -, hholds⟩ := hgood.holds
  intro hnil
  have hsome := @read_isSome E after cfg codec st.dir fromBeginning
  rw [hread, hholds.files.mpr hnil] at hsome
  cases hsome

/-- A session put together from the directory. -/
theorem Store.Good.hydrate (hgood : st.Good) (hcap : 0 < cfg.retainedPerSession) {after : Option Nat}
    {fromBeginning : Bool} {snap : DiskSnapshot E}
    (hread : st.dir.read cfg codec after fromBeginning = some snap) : snap.hydrate.Fits st := by
  obtain ⟨k, hk, hholds⟩ := hgood.logs_of_events (hgood.events_of_read hread)
  obtain ⟨found, i, o, hfound, ⟨file, hfile, hname⟩, hhead, hi, hring, -, -⟩ :=
    @SessionDir.Holds.read E after cfg codec st.dir fromBeginning _ k hholds hk hcap
  obtain rfl := Option.some.inj (hread.symm.trans hfound)
  refine ⟨hhead, ⟨i, Or.inl hi, hring⟩, ?_⟩
  intro path hpath
  obtain rfl := Option.some.inj hpath
  have hlast := List.getLast?_eq_some_iff.mp hfile
  obtain ⟨init, hlogs⟩ := hlast
  rw [hname]
  refine ⟨hgood.clock file (by rw [hlogs]; simp), ?_⟩
  intro f hf
  rw [hlogs] at hf
  rcases List.mem_append.mp hf with hf | hf
  · have hordered := hgood.ordered
    rw [hlogs] at hordered
    exact ((List.pairwise_append.mp hordered).2.2 f hf file List.mem_cons_self).le
  · rw [List.mem_singleton.mp hf]

/-- The snapshot written from memory. -/
theorem Store.Good.writeSnapshot (hgood : st.Good) (hfits : session.Fits st) (hne : st.events ≠ []) :
    ({ st with mem := some session, dir := session.writeSnapshot st.dir } : Store E).Good := by
  obtain ⟨k, hk, hholds⟩ := hgood.logs_of_events hne
  refine ⟨hgood.numbered, ⟨k, Or.inl hk, ⟨hholds.start, hholds.files, hholds.rows, ?_⟩⟩, hgood.ordered,
    hgood.clock, ?_⟩
  · intro snap hsnap
    obtain rfl := Option.some.inj hsnap
    obtain ⟨i, hi | ⟨hnil, -⟩, hring⟩ := hfits.ring
    · refine ⟨i, ?_, hfits.next.le, ?_, ?_⟩
      · show i < session.nextSeq
        rw [hfits.next]
        exact hi
      · show k ≤ session.nextSeq
        rw [hfits.next]
        exact hk.le
      · show session.entries = rowsFrom i ((st.events.take session.nextSeq).drop i)
        rw [hfits.next, List.take_length]
        exact hring
    · exact absurd hnil hne
  · intro s hs
    obtain rfl := Option.some.inj hs
    exact ⟨⟨hfits.next, hfits.ring, hfits.active⟩, hne⟩

theorem Store.Good.preload (hgood : st.Good) (hcap : 0 < cfg.retainedPerSession) (after : Nat) :
    (st.preload cfg codec after).Good := by
  unfold Store.preload
  split
  · split
    · exact hgood
    · next snap hread =>
        refine hgood.withMem ?_ (hgood.events_of_read hread)
        split
        · exact hgood.hydrate hcap hread
        · next hahead =>
            cases hmem : st.mem with
            | none =>
                rw [hmem] at hahead
                exact absurd (Nat.zero_le _) hahead
            | some session => exact (hgood.fits session hmem).1
  · exact hgood

theorem preload_overrun (after : Nat) : (st.preload cfg codec after).overrun = st.overrun := by
  unfold Store.preload
  split
  · split <;> rfl
  · rfl

theorem put_overrun {event : E} (h : (st.put cfg codec session event).overrun = false) : st.overrun = false := by
  have hboth : (st.overrun || st.dir.overruns cfg session) = false := h
  exact (Bool.or_eq_false_iff.mp hboth).1

/-- Appends to the session in memory. -/
theorem putAll_good (hcap : 0 < cfg.retainedPerSession) : ∀ {events : List E} {st : Store E},
    (st.putAll cfg codec events).overrun = false →
    st.overrun = false ∧ (st.Good → (st.putAll cfg codec events).Good) := by
  intro events
  induction events with
  | nil => exact fun h => ⟨h, id⟩
  | cons event events ih =>
      intro st h
      cases hmem : st.mem with
      | none =>
          simp only [Store.putAll, hmem] at h ⊢
          exact ⟨h, id⟩
      | some session =>
          simp only [Store.putAll, hmem] at h ⊢
          obtain ⟨hput, hkeep⟩ := ih h
          refine ⟨put_overrun hput, ?_⟩
          intro hgood
          exact hkeep (hgood.put (hgood.fits session hmem).1 hcap hput)

theorem reconcile_good (hcap : 0 < cfg.retainedPerSession) (h : (st.reconcile cfg codec orphans).overrun = false) :
    st.overrun = false ∧ (st.Good → (st.reconcile cfg codec orphans).Good) := by
  unfold Store.reconcile at h ⊢
  simp only at h ⊢
  split at h
  · rw [preload_overrun] at h
    exact ⟨h, fun hgood => hgood.preload hcap 0⟩
  · obtain ⟨hpre, hkeep⟩ := putAll_good hcap h
    rw [preload_overrun] at hpre
    exact ⟨hpre, fun hgood => hkeep (hgood.preload hcap 0)⟩

theorem Store.Good.load (hgood : st.Good) (hcap : 0 < cfg.retainedPerSession) {snap : DiskSnapshot E}
    (hread : st.dir.read cfg codec none false = some snap) : (st.load cfg snap).Good := by
  have hfits := hgood.hydrate hcap hread
  have hne := hgood.events_of_read hread
  unfold Store.load
  split
  · exact hgood.writeSnapshot hfits hne
  · exact hgood.withMem hfits hne

theorem closeOrphans_good (hcap : 0 < cfg.retainedPerSession)
    (h : (st.closeOrphans cfg codec orphans).overrun = false) :
    st.overrun = false ∧ (st.Good → (st.closeOrphans cfg codec orphans).Good) := by
  have hsame : ∀ {st : Store E}, st.Good → ({ st with reconciled := true } : Store E).Good :=
    fun hgood => ⟨hgood.numbered, hgood.holds, hgood.ordered, hgood.clock, fun s hs =>
      ⟨⟨(hgood.fits s hs).1.next, (hgood.fits s hs).1.ring, (hgood.fits s hs).1.active⟩, (hgood.fits s hs).2⟩⟩
  unfold Store.closeOrphans at h ⊢
  simp only at h
  split at h
  · next hdone =>
      rw [if_pos hdone]
      exact ⟨h, hsame⟩
  · next hdone =>
      rw [if_neg hdone]
      obtain ⟨hbefore, hkeep⟩ := reconcile_good hcap h
      exact ⟨hbefore, fun hgood => hsame (hkeep hgood)⟩

theorem ensureLoaded_cases : st.ensureLoaded cfg codec orphans = st ∨
    ∃ snap, st.dir.read cfg codec none false = some snap ∧
      st.ensureLoaded cfg codec orphans = (st.load cfg snap).closeOrphans cfg codec orphans := by
  unfold Store.ensureLoaded
  split
  · exact Or.inl rfl
  · split
    · exact Or.inl rfl
    · next snap hread =>
        split
        · exact Or.inl rfl
        · exact Or.inr ⟨snap, hread, rfl⟩

/-- `ensure_session_loaded` keeps it. -/
theorem ensureLoaded_good (hcap : 0 < cfg.retainedPerSession)
    (h : (st.ensureLoaded cfg codec orphans).overrun = false) :
    st.overrun = false ∧ (st.Good → (st.ensureLoaded cfg codec orphans).Good) := by
  rcases @ensureLoaded_cases E cfg codec orphans st with heq | ⟨snap, hread, heq⟩
  · rw [heq] at h ⊢
    exact ⟨h, id⟩
  · rw [heq] at h ⊢
    obtain ⟨hbefore, hkeep⟩ := closeOrphans_good hcap h
    exact ⟨hbefore, fun hgood => hkeep (hgood.load hcap hread)⟩

/-- The session an append finds or makes. -/
theorem append_eq (hcap : 0 < cfg.retainedPerSession) (event : E) :
    ∃ session : SessionLedger E,
      st.append cfg codec orphans event = (st.ensureLoaded cfg codec orphans).put cfg codec session event ∧
      ((st.ensureLoaded cfg codec orphans).Good → session.Fits (st.ensureLoaded cfg codec orphans)) := by
  unfold Store.append
  simp only
  split
  · next session hmem => exact ⟨session, rfl, fun hgood => (hgood.fits session hmem).1⟩
  · split
    · next snap hread => exact ⟨snap.hydrate, rfl, fun hgood => hgood.hydrate hcap hread⟩
    · next hnone =>
        refine ⟨SessionLedger.new, rfl, ?_⟩
        intro hgood
        -- nothing was appended, so the session is new
        have hnil : (st.ensureLoaded cfg codec orphans).events = [] := by
          obtain ⟨k, -, hholds⟩ := hgood.holds
          refine hholds.files.mp ?_
          have hsome := @read_isSome E none cfg codec (st.ensureLoaded cfg codec orphans).dir false
          rw [hnone] at hsome
          simpa using hsome.symm
        refine ⟨?_, ⟨0, Or.inr ⟨hnil, rfl⟩, ?_⟩, ?_⟩
        · rw [hnil]
          rfl
        · rw [hnil]
          rfl
        · intro path hpath
          cases hpath

theorem append_good (hcap : 0 < cfg.retainedPerSession) {event : E}
    (h : (st.append cfg codec orphans event).overrun = false) :
    st.overrun = false ∧ (st.Good → (st.append cfg codec orphans event).Good) := by
  obtain ⟨session, heq, hfits⟩ := @append_eq E cfg codec orphans st hcap event
  rw [heq] at h ⊢
  obtain ⟨hbefore, hkeep⟩ := ensureLoaded_good hcap (put_overrun h)
  exact ⟨hbefore, fun hgood => (hkeep hgood).put (hfits (hkeep hgood)) hcap h⟩

theorem replayFromDisk_good (hcap : 0 < cfg.retainedPerSession) (after : Nat) :
    (st.replayFromDisk cfg codec after).2.overrun = st.overrun ∧
      (st.Good → (st.replayFromDisk cfg codec after).2.Good) := by
  unfold Store.replayFromDisk
  split
  · exact ⟨rfl, id⟩
  · next snap hread =>
      simp only
      split
      · exact ⟨rfl, id⟩
      · split
        · exact ⟨rfl, id⟩
        · split
          · exact ⟨rfl, id⟩
          · exact ⟨rfl, fun hgood => hgood.withMem (hgood.hydrate hcap hread) (hgood.events_of_read hread)⟩

/-- A replay is served from the ring or from disk. -/
theorem replay_cases (after : Nat) :
    (∃ session, (st.ensureLoaded cfg codec orphans).mem = some session ∧ session.misses after = false ∧
      after ≤ session.nextSeq ∧ st.replayAfterWithHead cfg codec orphans after =
        (.ok (session.replayFrom after, session.nextSeq), st.ensureLoaded cfg codec orphans)) ∨
    st.replayAfterWithHead cfg codec orphans after =
      (st.ensureLoaded cfg codec orphans).replayFromDisk cfg codec after := by
  unfold Store.replayAfterWithHead
  simp only
  split
  · exact Or.inr rfl
  · next session hmem =>
      split
      · next hserved =>
          rw [Bool.and_eq_true, Bool.not_eq_true', decide_eq_true_eq] at hserved
          exact Or.inl ⟨session, hmem, hserved.1, hserved.2, rfl⟩
      · exact Or.inr rfl

theorem replay_good (hcap : 0 < cfg.retainedPerSession) {after : Nat}
    (h : (st.replayAfterWithHead cfg codec orphans after).2.overrun = false) :
    (st.ensureLoaded cfg codec orphans).overrun = false ∧
      (st.Good → (st.replayAfterWithHead cfg codec orphans after).2.Good) := by
  rcases @replay_cases E cfg codec orphans st after with ⟨session, -, -, -, heq⟩ | heq
  · rw [heq] at h ⊢
    exact ⟨h, (ensureLoaded_good hcap h).2⟩
  · rw [heq] at h ⊢
    obtain ⟨hsame, hkeep⟩ := @replayFromDisk_good E cfg codec (st.ensureLoaded cfg codec orphans) hcap after
    rw [hsame] at h
    exact ⟨h, fun hgood => hkeep ((ensureLoaded_good hcap h).2 hgood)⟩

/-- **Every call** keeps the invariant, as long as no append overruns the snapshot. -/
theorem step_good (hcap : 0 < cfg.retainedPerSession) {op : StoreOp E}
    (h : (st.step cfg codec orphans op).overrun = false) :
    st.overrun = false ∧ (st.Good → (st.step cfg codec orphans op).Good) := by
  cases op with
  | append event => exact append_good hcap h
  | replay after =>
      obtain ⟨hload, hkeep⟩ := replay_good hcap h
      exact ⟨(ensureLoaded_good hcap hload).1, hkeep⟩
  | snapshot after =>
      have hload : (st.ensureLoaded cfg codec orphans).overrun = false := by
        have hpre := @preload_overrun E cfg codec (st.ensureLoaded cfg codec orphans) after
        exact hpre.symm.trans h
      obtain ⟨hbefore, hkeep⟩ := ensureLoaded_good hcap hload
      exact ⟨hbefore, fun hgood => (hkeep hgood).preload hcap after⟩
  | evict => exact ⟨h, fun hgood => hgood.withoutMem _ _⟩
  | restart => exact ⟨h, fun hgood => hgood.withoutMem _ _⟩

/-- A run of the session. -/
def Store.run (cfg : LedgerConfig) (codec : EventCodec E) (orphans : List (Row E) → List E) (st : Store E)
    (ops : List (StoreOp E)) : Store E :=
  ops.foldl (Store.step cfg codec orphans) st

theorem init_good : (Store.init : Store E).Good := by
  refine ⟨rfl, ⟨0, Or.inr rfl, ⟨le_rfl, ⟨fun _ => rfl, fun _ => rfl⟩, rfl, ?_⟩⟩, List.Pairwise.nil, ?_, ?_⟩
  · intro snap hsnap
    cases hsnap
  · intro f hf
    cases hf
  · intro session hsession
    cases hsession

theorem run_good (hcap : 0 < cfg.retainedPerSession) : ∀ {ops : List (StoreOp E)} {st : Store E},
    (st.run cfg codec orphans ops).overrun = false →
    st.overrun = false ∧ (st.Good → (st.run cfg codec orphans ops).Good) := by
  intro ops
  induction ops with
  | nil => exact fun h => ⟨h, id⟩
  | cons op ops ih =>
      intro st h
      obtain ⟨hstep, hrun⟩ := ih h
      obtain ⟨hbefore, hkeep⟩ := step_good hcap hstep
      exact ⟨hbefore, fun hgood => hrun (hkeep hgood)⟩

/-! ## The replay -/

/-- A replay that is not out of range gives what was appended behind the cursor, in
order, and the head is the last seq. -/
def Gapless (after : Nat) (out : Except CursorOutOfRange (List (Row E) × Nat) × Store E) : Prop :=
  ∀ rows head, out.1 = .ok (rows, head) →
    rows = out.2.appended.filter (fun row => decide (after < row.seq)) ∧
      rows.Pairwise (fun a b => a.seq < b.seq) ∧
      head = (out.2.appended.getLast?.map Row.seq).getD 0

theorem rowsFrom_pairwise : ∀ (es : List E) (a : Nat), (rowsFrom a es).Pairwise (fun x y => x.seq < y.seq) := by
  intro es
  induction es with
  | nil => exact fun _ => List.Pairwise.nil
  | cons e es ih =>
      intro a
      refine List.pairwise_cons.mpr ⟨?_, ih (a + 1)⟩
      intro row hrow
      exact (mem_rowsFrom hrow).1

theorem rowsFrom_getLast (es : List E) : ((rowsFrom 0 es).getLast?.map Row.seq).getD 0 = es.length := by
  cases hlast : (rowsFrom 0 es).getLast? with
  | none =>
      have hlen := congrArg List.length (List.getLast?_eq_none_iff.mp hlast)
      rw [length_rowsFrom, List.length_nil] at hlen
      rw [hlen]
      rfl
  | some last =>
      obtain ⟨init, hinit⟩ := List.getLast?_eq_some_iff.mp hlast
      have hseq := @rowsFrom_last E es 0 init last (by rw [hinit, List.concat_eq_append])
      show last.seq = es.length
      omega

/-- The rows behind the cursor are right, and so is the head. -/
theorem Store.Good.gapless (hgood : st.Good) {after : Nat} {rows : List (Row E)} {head : Nat}
    (hrows : rows = rowsFrom after (st.events.drop after)) (hhead : head = st.events.length) :
    rows = st.appended.filter (fun row => decide (after < row.seq)) ∧
      rows.Pairwise (fun a b => a.seq < b.seq) ∧ head = (st.appended.getLast?.map Row.seq).getD 0 := by
  have hfilter : st.appended.filter (fun row => decide (after < row.seq)) =
      rowsFrom after (st.events.drop after) := by
    rw [hgood.numbered]
    exact filter_run (Nat.zero_le after)
  refine ⟨hrows.trans hfilter.symm, ?_, ?_⟩
  · rw [hrows]
    exact rowsFrom_pairwise _ _
  · rw [hhead, hgood.numbered, rowsFrom_getLast]

theorem ring_gapless (hgood : st.Good) (hmem : st.mem = some session) {after : Nat}
    (hreach : session.misses after = false) :
    session.replayFrom after = rowsFrom after (st.events.drop after) := by
  obtain ⟨hfits, hne⟩ := hgood.fits session hmem
  obtain ⟨i, hi | ⟨hnil, -⟩, hring⟩ := hfits.ring
  · obtain ⟨row, hrow, hseq⟩ := Option.map_eq_some_iff.mp (run_head hi)
    rw [SessionLedger.misses, hring, hrow] at hreach
    simp only [decide_eq_false_iff_not, hseq] at hreach
    rw [SessionLedger.replayFrom, hring]
    exact filter_run (by omega)
  · exact absurd hnil hne

theorem disk_gapless (hgood : st.Good) (hcap : 0 < cfg.retainedPerSession) (after : Nat) :
    Gapless after (st.replayFromDisk cfg codec after) := by
  intro rows head hok
  unfold Store.replayFromDisk at hok
  cases hread : st.dir.read cfg codec (some after) false with
  | none =>
      -- nothing was appended
      have hnil : st.events = [] := by
        obtain ⟨k, -, hholds⟩ := hgood.holds
        refine hholds.files.mp ?_
        have hsome := @read_isSome E (some after) cfg codec st.dir false
        rw [hread] at hsome
        simpa using hsome.symm
      rw [hread] at hok
      simp only at hok
      split at hok
      · obtain ⟨rfl, rfl⟩ := Prod.mk.inj (Except.ok.inj hok)
        have hstay : (st.replayFromDisk cfg codec after).2 = st := by
          unfold Store.replayFromDisk
          rw [hread]
        rw [hstay]
        refine hgood.gapless ?_ ?_
        · rw [hnil, List.drop_nil]
          rfl
        · rw [hnil]
          rfl
      · cases hok
  | some snap =>
      obtain ⟨k, hk, hholds⟩ := hgood.logs_of_events (hgood.events_of_read hread)
      obtain ⟨found, i, o, hfound, -, hhead, -, -, holdest, hreplay⟩ :=
        @SessionDir.Holds.read E (some after) cfg codec st.dir false _ k hholds hk hcap
      obtain rfl := Option.some.inj (hread.symm.trans hfound)
      rw [hread] at hok
      simp only [holdest] at hok
      split at hok
      · cases hok
      · next hstale =>
          split at hok
          · cases hok
          · next hrange =>
              obtain ⟨rfl, rfl⟩ := Prod.mk.inj (Except.ok.inj hok)
              have hstay : (st.replayFromDisk cfg codec after).2 = { st with mem := some snap.hydrate } := by
                unfold Store.replayFromDisk
                rw [hread]
                simp only [holdest]
                rw [if_neg hstale, if_neg hrange]
              rw [hstay]
              have hwith := hgood.withMem (hgood.hydrate hcap hread) (hgood.events_of_read hread)
              exact hwith.gapless (hreplay after rfl (by omega)) hhead

end Runs

/-- **No silent gap**, in any run in which no append deletes a log file with rows newer
than the snapshot. -/
theorem replay_gapless (cfg : LedgerConfig) (hcap : 0 < cfg.retainedPerSession) (codec : EventCodec E)
    (orphans : List (Row E) → List E) (ops : List (StoreOp E)) (after : Nat)
    (hcovered : ((Store.init.run cfg codec orphans ops).replayAfterWithHead cfg codec orphans after).2.overrun =
      false) :
    Gapless after ((Store.init.run cfg codec orphans ops).replayAfterWithHead cfg codec orphans after) := by
  obtain ⟨hloaded, -⟩ := replay_good hcap hcovered
  obtain ⟨hran, hkeep⟩ := ensureLoaded_good hcap hloaded
  have hgood := hkeep ((run_good hcap hran).2 init_good)
  rcases @replay_cases E cfg codec orphans (Store.init.run cfg codec orphans ops) after with
    ⟨session, hmem, hreach, -, heq⟩ | heq
  · rw [heq]
    intro rows head hok
    obtain ⟨rfl, rfl⟩ := Prod.mk.inj (Except.ok.inj hok)
    exact hgood.gapless (ring_gapless hgood hmem hreach) (hgood.fits session hmem).1.next
  · rw [heq]
    exact disk_gapless hgood hcap after

/-! ### A ring of four, a log file of one record -/

/-- Events are numbers, and every record has one byte. -/
def sampleCodec : EventCodec Nat where
  withCursor := fun _ event => event
  lineBytes := fun _ _ => 1

/-- Every append rotates, and one file is kept. -/
def sampleConfig (files : Nat) : LedgerConfig where
  retainedPerSession := 4
  activeSessionCap := 1
  rotateBytes := 1
  retainedLogFiles := files
  snapshotEveryEvents := 4

/-- Seven appends and an eviction. -/
def sampleOps : List (StoreOp Nat) :=
  [.append 10, .append 20, .append 30, .append 40, .append 50, .append 60, .append 70, .evict]

/-- With four files the log reaches back to the snapshot. -/
theorem replay_gapless_sample :
    ((Store.init.run (sampleConfig 4) sampleCodec (fun _ => []) sampleOps).replayAfterWithHead
        (sampleConfig 4) sampleCodec (fun _ => []) 2).1 =
      .ok ([⟨3, 30⟩, ⟨4, 40⟩, ⟨5, 50⟩, ⟨6, 60⟩, ⟨7, 70⟩], 7) ∧
    Gapless 2 ((Store.init.run (sampleConfig 4) sampleCodec (fun _ => []) sampleOps).replayAfterWithHead
        (sampleConfig 4) sampleCodec (fun _ => []) 2) :=
  ⟨rfl, replay_gapless (sampleConfig 4) (by decide) sampleCodec (fun _ => []) sampleOps 2 rfl⟩

/-- With one file the rows five and six are passed over. -/
theorem replay_skips_rows :
    ((Store.init.run (sampleConfig 1) sampleCodec (fun _ => []) sampleOps).replayAfterWithHead
        (sampleConfig 1) sampleCodec (fun _ => []) 2).1 = .ok ([⟨3, 30⟩, ⟨4, 40⟩, ⟨7, 70⟩], 7) ∧
    ¬Gapless 2 ((Store.init.run (sampleConfig 1) sampleCodec (fun _ => []) sampleOps).replayAfterWithHead
        (sampleConfig 1) sampleCodec (fun _ => []) 2) := by
  refine ⟨rfl, ?_⟩
  intro h
  have hrows := (h _ _ rfl).1
  revert hrows
  decide

end Octos.Ui
