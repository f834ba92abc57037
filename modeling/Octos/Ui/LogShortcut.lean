/-
# `Octos.Ui.LogShortcut` — the snapshot changes nothing

A read takes the rows up to the head of the snapshot from the snapshot, if that reaches
back to the cursor, and what is behind the head from the log.  While no log file is
deleted the log holds everything that was appended, and a snapshot, whenever it was
written, the end of what had been appended until then:

    log        1 2 3 4 5 6 7
    snapshot       3 4 5          with a ring of three, after the fifth

What the read takes is then a run of rows up to the last, long enough to fill the ring
and to reach back to the cursor, as the whole log is.
-/
import Octos.Ui.LogLines
import Octos.Ui.LogSteps

namespace Octos.Ui

open Text

variable {E : Type}

/-! ## A directory with the whole log -/

/-- The snapshot of the ring behind the first rows. -/
def snapshotAt (cap : Nat) (rows : List (Row E)) (n : Nat) : SnapshotFile E :=
  ⟨n, keepLast cap (rows.take n)⟩

/-- What a read gives to its callers of the session. -/
def DiskSnapshot.answer (snap : DiskSnapshot E) : Nat × List (Row E) × List (Row E) :=
  (snap.headSeq, snap.retained, snap.replay)

/-- The log has all rows, and the snapshot is one of the ring. -/
structure SessionDir.Whole (dir : SessionDir E) (cap : Nat) (es : List E) : Prop where
  rows : dir.rows = rowsFrom 0 es
  snapshot : ∀ snap, dir.snapshot = some snap → ∃ n ≤ es.length, snap = snapshotAt cap (rowsFrom 0 es) n

section Read

variable {cfg : LedgerConfig} {codec : EventCodec E} {dir : SessionDir E} {es : List E} {after : Option Nat}
  {fromBeginning : Bool} {cap n : Nat} {snap : SnapshotFile E}

theorem snapshotAt_entries (hn : n ≤ es.length) :
    (snapshotAt cap (rowsFrom 0 es) n).entries = rowsFrom (n - cap) ((es.take n).drop (n - cap)) := by
  have hlen : (es.take n).length = n := by
    rw [List.length_take]
    omega
  rw [snapshotAt, take_rowsFrom, keepLast_rowsFrom, hlen, Nat.zero_add]

/-- It passes its check. -/
theorem SessionDir.Whole.readSnapshot (h : dir.Whole cap es) : dir.readSnapshot = dir.snapshot := by
  rw [SessionDir.readSnapshot]
  cases hsnap : dir.snapshot with
  | none => rfl
  | some snap =>
      obtain ⟨n, hn, rfl⟩ := h.snapshot snap hsnap
      have hvalid : validRows n 0 (snapshotAt cap (rowsFrom 0 es) n).entries = true := by
        rw [snapshotAt_entries hn]
        refine validRows_rowsFrom _ (Nat.zero_le _) ?_
        rw [List.length_drop, List.length_take]
        omega
      exact Option.filter_some.trans (if_pos hvalid)

theorem SessionDir.Whole.head (h : dir.Whole cap es) : dir.head = es.length := by
  have hle : (dir.readSnapshot.map SnapshotFile.headSeq).getD 0 ≤ es.length := by
    rw [h.readSnapshot]
    cases hsnap : dir.snapshot with
    | none => exact Nat.zero_le _
    | some snap =>
        obtain ⟨n, hn, rfl⟩ := h.snapshot snap hsnap
        exact hn
  rw [SessionDir.head, h.rows, foldl_max_rowsFrom es 0 _ (by omega), Nat.zero_add]
  split
  · next hnil =>
      rw [hnil] at hle ⊢
      exact Nat.le_zero.mp hle
  · rfl

/-- The first row of a run. -/
theorem seq_of_run {a : Nat} {row : Row E} (h : (rowsFrom a es).head? = some row) : row.seq = a + 1 := by
  cases es with
  | nil => cases h
  | cons e es =>
      obtain rfl := Option.some.inj h
      rfl

/-- The shortcut is for a cursor that the snapshot reaches back to. -/
theorem shortcut_reaches {c : Nat} (hn : n ≤ es.length)
    (h : (snapshotAt cap (rowsFrom 0 es) n).shortcut (some c) false = true) : n - cap ≤ c := by
  rw [SnapshotFile.shortcut, snapshotAt_entries hn] at h
  cases hfirst : (rowsFrom (n - cap) ((es.take n).drop (n - cap))).head? with
  | none =>
      rw [hfirst] at h
      cases h
  | some row =>
      rw [hfirst] at h
      simp only [Bool.and_false, Bool.false_or, Bool.and_eq_true, decide_eq_true_eq, seq_of_run hfirst] at h
      omega

/-- **What a read takes** is a run that is no shorter than the ring, and reaches back to
the cursor unless the read is from the beginning. -/
theorem SessionDir.Whole.taken (h : dir.Whole cap es) :
    ∃ o, o ≤ es.length - cap ∧ (fromBeginning = false → ∀ c, after = some c → o ≤ c) ∧
      dir.taken after fromBeginning = rowsFrom o (es.drop o) := by
  rw [SessionDir.taken]
  cases hshort : dir.shortcut after fromBeginning with
  | none =>
      refine ⟨0, Nat.zero_le _, fun _ c _ => Nat.zero_le c, ?_⟩
      show dir.rows.filter _ = _
      rw [h.rows]
      exact filter_run (Nat.zero_le 0)
  | some snap =>
      obtain ⟨hsome, htaken⟩ := Option.filter_eq_some_iff.mp hshort
      rw [h.readSnapshot] at hsome
      obtain ⟨n, hn, rfl⟩ := h.snapshot snap hsome
      refine ⟨n - cap, Nat.sub_le_sub_right hn cap, ?_, ?_⟩
      · rintro rfl c rfl
        exact shortcut_reaches hn htaken
      · have hrest := @filter_run E es 0 n (Nat.zero_le n)
        rw [List.drop_zero] at hrest
        show (snapshotAt cap (rowsFrom 0 es) n).entries ++ dir.rows.filter _ = _
        rw [h.rows, snapshotAt_entries hn]
        exact (congrArg _ hrest).trans (run_split (Nat.sub_le n cap) hn)

/-- The ring of a run that is long enough. -/
theorem keepLast_of_run {o : Nat} (ho : o ≤ es.length - cap) :
    keepLast cap (rowsFrom o (es.drop o)) = keepLast cap (rowsFrom 0 es) := by
  have hstart : o + (es.length - o - cap) = es.length - cap := by omega
  rw [keepLast_rowsFrom, keepLast_rowsFrom, List.length_drop, List.drop_drop, hstart, Nat.zero_add]

/-- The rows of a run behind a cursor that it reaches back to. -/
theorem behind_of_run {o : Nat} (ho : ∀ c, after = some c → o ≤ c) :
    (rowsFrom o (es.drop o)).filter (behind after) = (rowsFrom 0 es).filter (behind after) := by
  cases after with
  | none =>
      have hnone : ∀ rows : List (Row E), rows.filter (behind none) = [] :=
        fun rows => List.filter_eq_nil_iff.mpr (fun _ _ => Bool.false_ne_true)
      rw [hnone, hnone]
  | some c =>
      have hwhole := @filter_run E es 0 c (Nat.zero_le c)
      rw [List.drop_zero] at hwhole
      exact (filter_run (ho c rfl)).trans hwhole.symm

theorem SessionDir.Whole.retained (h : dir.Whole cap es) :
    keepLast cap (dir.taken after fromBeginning) = keepLast cap (rowsFrom 0 es) := by
  obtain ⟨o, ho, -, htaken⟩ := @SessionDir.Whole.taken E dir es after fromBeginning cap h
  rw [htaken, keepLast_of_run ho]

/-- **The answer of a read** says nothing about the snapshot. -/
theorem SessionDir.Whole.answer (h : dir.Whole cfg.retainedPerSession es) :
    (dir.read cfg codec after false).map DiskSnapshot.answer = dir.logs.getLast?.map (fun _ =>
      (es.length, keepLast cfg.retainedPerSession (rowsFrom 0 es), (rowsFrom 0 es).filter (behind after))) := by
  obtain ⟨o, -, hcursor, htaken⟩ := @SessionDir.Whole.taken E dir es after false cfg.retainedPerSession h
  have hring := @SessionDir.Whole.retained E dir es after false cfg.retainedPerSession h
  have hreplay : (dir.taken after false).filter (behind after) = (rowsFrom 0 es).filter (behind after) := by
    rw [htaken]
    exact behind_of_run (hcursor rfl)
  rw [read_eq, Option.map_map, hring, hreplay, h.head]
  rfl

end Read

/-! ## Every run -/

/-- The session is at the end of what was appended, and its ring is full. -/
structure SessionLedger.AtEnd (session : SessionLedger E) (cap : Nat) (st : Store E) : Prop where
  next : session.nextSeq = st.events.length
  ring : session.entries = keepLast cap (rowsFrom 0 st.events)
  active : ∀ path, session.activeLog = some path → path < st.clock ∧ ∀ f ∈ st.dir.logs, f.name ≤ path

/-- No log file is gone. -/
structure Store.Whole (st : Store E) (cap : Nat) : Prop where
  numbered : st.appended = rowsFrom 0 st.events
  dir : st.dir.Whole cap st.events
  ordered : Ordered st.dir.logs
  clock : ∀ f ∈ st.dir.logs, f.name < st.clock
  session : ∀ session, st.mem = some session → session.AtEnd cap st

section Runs

variable {cfg : LedgerConfig} {codec : EventCodec E} {orphans : List (Row E) → List E} {st : Store E}
  {session : SessionLedger E}

/-- The snapshot of a session at the end. -/
theorem SessionLedger.AtEnd.snapshot {cap : Nat} (h : session.AtEnd cap st) :
    (⟨session.nextSeq, session.entries⟩ : SnapshotFile E) = snapshotAt cap (rowsFrom 0 st.events) st.events.length := by
  rw [snapshotAt, h.next, h.ring, take_rowsFrom, List.take_length]

/-- A snapshot stays one of the ring when more is appended. -/
theorem snapshotAt_append {cap n : Nat} {es : List E} (hn : n ≤ es.length) (fs : List E) :
    snapshotAt cap (rowsFrom 0 (es ++ fs)) n = snapshotAt cap (rowsFrom 0 es) n := by
  rw [snapshotAt, snapshotAt, take_rowsFrom, take_rowsFrom, List.take_append_of_le_length hn]

/-- **An append** that deletes no log file. -/
theorem Store.Whole.put (hwhole : st.Whole cfg.retainedPerSession)
    (hsession : session.AtEnd cfg.retainedPerSession st) {event : E}
    (hlost : (st.put cfg codec session event).lost = 0) :
    (st.put cfg codec session event).Whole cfg.retainedPerSession := by
  have hkept : (session.kept cfg st.dir.logs).flatMap LogFile.rows = rowsFrom 0 st.events := by
    have hsuffix := @kept_suffix E cfg session st.dir.logs
    have hrows : st.dir.logs.flatMap LogFile.rows = rowsFrom 0 st.events := hwhole.dir.rows
    rw [put_lost, hwhole.numbered] at hlost
    rw [hrows] at hsuffix
    exact hsuffix.eq_of_length_le (Nat.sub_eq_zero_iff_le.mp hlost)
  obtain ⟨hpath, hle⟩ := @path_fits E cfg st session hsession.active hwhole.clock
  obtain ⟨hwritten, hordered, hbound⟩ := @writeRow_last E (session.path cfg st.clock)
    ⟨session.nextSeq + 1, codec.withCursor (session.nextSeq + 1) event⟩ _ (kept_ordered hwhole.ordered) hle
  have hlogs : (st.put cfg codec session event).dir.logs = _ := append_logs st.clock st.dir event
  have hevents : (st.put cfg codec session event).events =
      st.events ++ [codec.withCursor (session.nextSeq + 1) event] := List.map_append
  have hlast : rowsFrom 0 st.events ++ [⟨session.nextSeq + 1, codec.withCursor (session.nextSeq + 1) event⟩] =
      rowsFrom 0 (st.put cfg codec session event).events := by
    rw [hevents, hsession.next]
    exact run_snoc (Nat.zero_le st.events.length) _
  have hatEnd : (st.put cfg codec session event).mem.get rfl |>.AtEnd cfg.retainedPerSession
      (st.put cfg codec session event) := by
    refine ⟨?_, ?_, ?_⟩
    · rw [hevents, List.length_append, ← hsession.next]
      rfl
    · show keepLast cfg.retainedPerSession (session.entries ++ [_]) = _
      rw [hsession.ring, keepLast_keepLast_append, hlast]
    · intro path hactive
      obtain rfl := Option.some.inj hactive
      rw [hlogs]
      exact ⟨hpath, hbound⟩
  refine ⟨?_, ⟨?_, ?_⟩, ?_, ?_, ?_⟩
  · rw [put_appended, hwhole.numbered, hlast]
  · rw [SessionDir.rows, hlogs, hwritten, hkept, hlast]
  · intro snap hsome
    have hwhich : (st.put cfg codec session event).dir.snapshot = _ := append_snapshot st.clock st.dir event
    rw [hwhich] at hsome
    split at hsome
    · obtain rfl := Option.some.inj hsome
      exact ⟨_, Nat.le_refl _, hatEnd.snapshot⟩
    · obtain ⟨n, hn, rfl⟩ := hwhole.dir.snapshot snap hsome
      refine ⟨n, ?_, ?_⟩
      · rw [hevents, List.length_append]
        exact Nat.le_add_right_of_le hn
      · rw [hevents, snapshotAt_append hn]
  · rw [hlogs]
    exact hordered
  · rw [hlogs]
    intro f hf
    exact lt_of_le_of_lt (hbound f hf) hpath
  · intro s hs
    obtain rfl := Option.some.inj hs
    exact hatEnd

/-- A session put together from the directory. -/
theorem Store.Whole.hydrate (hwhole : st.Whole cfg.retainedPerSession) {after : Option Nat} {fromBeginning : Bool}
    {snap : DiskSnapshot E} (hread : st.dir.read cfg codec after fromBeginning = some snap) :
    snap.hydrate.AtEnd cfg.retainedPerSession st := by
  rw [read_eq] at hread
  obtain ⟨active, hactive, rfl⟩ := Option.map_eq_some_iff.mp hread
  refine ⟨hwhole.dir.head, hwhole.dir.retained, ?_⟩
  intro path hpath
  obtain rfl := Option.some.inj hpath
  obtain ⟨front, hlogs⟩ := List.getLast?_eq_some_iff.mp hactive
  refine ⟨hwhole.clock active (List.mem_of_getLast? hactive), ?_⟩
  intro f hf
  rw [hlogs] at hf
  have hordered := hwhole.ordered
  rw [hlogs] at hordered
  rcases List.mem_append.mp hf with hf | hf
  · exact ((List.pairwise_append.mp hordered).2.2 f hf active List.mem_cons_self).le
  · rw [List.mem_singleton.mp hf]

/-- Nothing was appended to a directory without files. -/
theorem Store.Whole.fresh (hwhole : st.Whole cfg.retainedPerSession)
    (hread : st.dir.read cfg codec none false = none) : SessionLedger.new.AtEnd cfg.retainedPerSession st := by
  have hlogs : st.dir.logs = [] := by
    have hsome := @read_isSome E none cfg codec st.dir false
    rw [hread] at hsome
    simpa using hsome.symm
  have hnil : st.events = [] := by
    have hrows := hwhole.dir.rows
    rw [SessionDir.rows, hlogs, List.flatMap_nil] at hrows
    have hlength := congrArg List.length hrows
    rw [length_rowsFrom, List.length_nil] at hlength
    exact List.length_eq_zero_iff.mp hlength.symm
  refine ⟨?_, ?_, ?_⟩
  · rw [hnil]
    rfl
  · rw [hnil]
    exact keepLast_nil.symm
  · intro path hpath
    cases hpath

/-- **Every small step** keeps it. -/
theorem Store.Whole.small {st' : Store E} (hwhole : st.Whole cfg.retainedPerSession)
    (h : Store.Small cfg codec st st') (hlost : st'.lost = 0) : st'.Whole cfg.retainedPerSession := by
  cases h with
  | put event hmem => exact hwhole.put (hwhole.session _ hmem) hlost
  | first event hread => exact hwhole.put (hwhole.fresh hread) hlost
  | hydrate hread =>
      have hatEnd := hwhole.hydrate hread
      refine ⟨hwhole.numbered, hwhole.dir, hwhole.ordered, hwhole.clock, ?_⟩
      intro session hsession
      obtain rfl := Option.some.inj hsession
      exact ⟨hatEnd.next, hatEnd.ring, hatEnd.active⟩
  | @writeSnapshot session hmem =>
      have hatEnd := hwhole.session session hmem
      refine ⟨hwhole.numbered, ⟨hwhole.dir.rows, ?_⟩, hwhole.ordered, hwhole.clock, ?_⟩
      · intro snap hsnap
        obtain rfl := Option.some.inj hsnap
        exact ⟨_, Nat.le_refl _, hatEnd.snapshot⟩
      · intro other hother
        obtain ⟨hnext, hring, hactive⟩ := hwhole.session other hother
        exact ⟨hnext, hring, hactive⟩
  | leave =>
      refine ⟨hwhole.numbered, hwhole.dir, hwhole.ordered, hwhole.clock, ?_⟩
      intro session hsession
      cases hsession
  | mark =>
      refine ⟨hwhole.numbered, hwhole.dir, hwhole.ordered, hwhole.clock, ?_⟩
      intro session hsession
      obtain ⟨hnext, hring, hactive⟩ := hwhole.session session hsession
      exact ⟨hnext, hring, hactive⟩

theorem init_whole (cap : Nat) : (Store.init : Store E).Whole cap := by
  refine ⟨rfl, ⟨rfl, ?_⟩, List.Pairwise.nil, ?_, ?_⟩
  · intro snap hsnap
    cases hsnap
  · intro f hf
    cases hf
  · intro session hsession
    cases hsession

/-- And so do all of them together, as long as no log file is deleted. -/
theorem Store.Whole.steps {st' : Store E} (hwhole : st.Whole cfg.retainedPerSession)
    (h : Store.Steps cfg codec st st') : st'.lost = 0 → st'.Whole cfg.retainedPerSession := by
  induction h with
  | refl => exact fun _ => hwhole
  | tail _ hstep ih =>
      intro hlost
      exact (ih (Nat.le_zero.mp ((small_lost hstep).trans hlost.le))).small hstep hlost

theorem steps_lost {st' : Store E} (h : Store.Steps cfg codec st st') : st.lost ≤ st'.lost := by
  induction h with
  | refl => exact Nat.le_refl _
  | tail _ hstep ih => exact ih.trans (small_lost hstep)

/-! ## The shortcut -/

/-- A read of the log files with the snapshot is a read without, for every cursor. -/
def Transparent (cfg : LedgerConfig) (codec : EventCodec E) (lines : LineCodec E) (logs : List (LogFile E))
    (snap : SnapshotFile E) : Prop :=
  ∀ after : Option Nat,
    ((⟨logs, some snap⟩ : SessionDir E).readText cfg codec lines after false).map DiskSnapshot.answer =
      ((⟨logs, none⟩ : SessionDir E).readText cfg codec lines after false).map DiskSnapshot.answer

/-- A snapshot of the ring, however much was appended since. -/
theorem Store.Whole.transparent {lines : LineCodec E} (hwhole : st.Whole cfg.retainedPerSession) {n : Nat}
    (hn : n ≤ st.events.length) :
    Transparent cfg codec lines st.dir.logs (snapshotAt cfg.retainedPerSession (rowsFrom 0 st.events) n) := by
  have hwith : (⟨st.dir.logs, some (snapshotAt cfg.retainedPerSession (rowsFrom 0 st.events) n)⟩ :
      SessionDir E).Whole cfg.retainedPerSession st.events := by
    refine ⟨hwhole.dir.rows, ?_⟩
    intro snap hsnap
    exact ⟨n, hn, (Option.some.inj hsnap).symm⟩
  have hwithout : (⟨st.dir.logs, none⟩ : SessionDir E).Whole cfg.retainedPerSession st.events := by
    refine ⟨hwhole.dir.rows, ?_⟩
    intro snap hsnap
    cases hsnap
  intro after
  rw [readText_eq, readText_eq, hwith.answer, hwithout.answer]

/-- A snapshot of an earlier time. -/
theorem Store.Whole.transparent_earlier {lines : LineCodec E} {st' : Store E} (hwhole : st'.Whole cfg.retainedPerSession)
    (happended : st.appended <+: st'.appended) {n : Nat} (hn : n ≤ st.events.length) :
    Transparent cfg codec lines st'.dir.logs (snapshotAt cfg.retainedPerSession (rowsFrom 0 st.events) n) := by
  obtain ⟨later, hlater⟩ := happended
  have hevents : st'.events = st.events ++ later.map Row.event := by
    rw [Store.events, ← hlater, List.map_append]
    rfl
  have hsame := @snapshotAt_append E cfg.retainedPerSession n st.events hn (later.map Row.event)
  rw [← hevents] at hsame
  rw [← hsame]
  refine hwhole.transparent ?_
  rw [hevents, List.length_append]
  exact Nat.le_add_right_of_le hn

end Runs

/-- **The snapshot changes nothing.**  In a run that deletes no log file, the snapshot on
disk and the one the session in memory would write, at any point of it, are transparent
for what the log is at the end; and so is the snapshot of any number of appends.  The
seq found in a line of the log is the seq of its record. -/
theorem snapshot_transparent (cfg : LedgerConfig) (codec : EventCodec E) (lines : LineCodec E)
    (orphans : List (Row E) → List E) (before rest : List (StoreOp E))
    (hlost : (Store.init.run cfg codec orphans (before ++ rest)).lost = 0) :
    let st := Store.init.run cfg codec orphans before
    let last := Store.init.run cfg codec orphans (before ++ rest)
    (∀ snap, st.dir.snapshot = some snap → Transparent cfg codec lines last.dir.logs snap) ∧
      (∀ session, st.mem = some session →
        ∀ snap, (session.writeSnapshot st.dir).snapshot = some snap → Transparent cfg codec lines last.dir.logs snap) ∧
      (∀ n ≤ last.appended.length,
        Transparent cfg codec lines last.dir.logs (snapshotAt cfg.retainedPerSession last.appended n)) ∧
      ∀ row : Row E, row.seq < 2 ^ 64 →
        lines.parse (diskLine row.seq (lines.eventJson row.event)) = some (.record ledgerDiskVersion row) ∧
          cheapRecordSeq (diskLine row.seq (lines.eventJson row.event)) = some row.seq := by
  intro st last
  have hlast : last = st.run cfg codec orphans rest := List.foldl_append
  have hlater : Store.Steps cfg codec st last := by
    rw [hlast]
    exact run_steps rest st
  have hwholeLast : last.Whole cfg.retainedPerSession := (init_whole _).steps (run_steps _ _) hlost
  have hwhole : st.Whole cfg.retainedPerSession :=
    (init_whole _).steps (run_steps _ _) (Nat.le_zero.mp ((steps_lost hlater).trans hlost.le))
  refine ⟨?_, ?_, ?_, fun row hseq => ⟨lines.parse_diskLine row, cheapRecordSeq_diskLine hseq⟩⟩
  · intro snap hsnap
    obtain ⟨n, hn, rfl⟩ := hwhole.dir.snapshot snap hsnap
    exact hwholeLast.transparent_earlier (steps_appended hlater) hn
  · intro session hmem snap hsnap
    obtain rfl := Option.some.inj hsnap
    rw [(hwhole.session session hmem).snapshot]
    exact hwholeLast.transparent_earlier (steps_appended hlater) (Nat.le_refl _)
  · intro n hn
    rw [hwholeLast.numbered] at hn ⊢
    rw [length_rowsFrom] at hn
    exact hwholeLast.transparent hn

/-! ### Events that are numbers -/

/-- A number behind the text in front of it, and what is behind the number. -/
def sampleNumber (front : List Char) (line : List Char) : Nat × List Char :=
  let rest := line.drop front.length
  (Nat.ofDigitChars 10 (rest.takeWhile Char.isDigit) 0, rest.dropWhile Char.isDigit)

theorem sampleNumber_eq (front : List Char) (n : Nat) {rest : List Char} {ch : Char} (h : ch.isDigit = false) :
    sampleNumber front (front ++ (decimal n ++ ch :: rest)) = (n, ch :: rest) := by
  have hdigits : ∀ c ∈ decimal n, c.isDigit = true := fun c hc => isDigit_of_mem_decimal hc
  have hother : ¬ ch.isDigit = true := by
    rw [h]
    exact Bool.false_ne_true
  have hvalue : Nat.ofDigitChars 10 (decimal n) 0 = n := Nat.ofDigitChars_ten_toDigits
  rw [sampleNumber, List.drop_left, List.takeWhile_append_of_pos hdigits, List.dropWhile_append_of_pos hdigits, List.takeWhile_cons_of_neg hother,
    List.dropWhile_cons_of_neg hother, List.append_nil, hvalue]

/-- The version is not looked at. -/
def sampleParse (line : List Char) : Option (ParsedRecord Nat) :=
  let (seq, rest) := sampleNumber (lineHead ++ seqKey) line
  some (.record ledgerDiskVersion ⟨seq, (sampleNumber (',' :: eventKey ++ [':']) rest).1⟩)

def sampleLines : LineCodec Nat where
  eventJson := decimal
  parse := sampleParse
  eventJson_line := fun _ hmem => absurd (isDigit_of_mem_decimal hmem) (by decide)
  parse_diskLine := by
    intro row
    have hline : diskLine row.seq (decimal row.event) = (lineHead ++ seqKey) ++ (decimal row.seq ++
        ',' :: (eventKey ++ ':' :: (decimal row.event ++ [Char.ofNat 125]))) := by
      rw [diskLine]
      simp only [List.append_assoc, List.cons_append]
    have hevent := @sampleNumber_eq (',' :: eventKey ++ [':']) row.event [] (Char.ofNat 125) (by decide)
    rw [hline, sampleParse, sampleNumber_eq _ _ (by decide)]
    simp only [List.append_assoc, List.cons_append, List.nil_append] at hevent
    dsimp only
    simp only [List.cons_append]
    rw [hevent]

/-- The snapshot after the fourth of seven appends. -/
theorem snapshot_transparent_sample :
    (Store.init.run (sampleConfig 9) sampleCodec (fun _ => []) (sampleOps.take 5)).dir.snapshot =
      some ⟨4, [⟨1, 10⟩, ⟨2, 20⟩, ⟨3, 30⟩, ⟨4, 40⟩]⟩ ∧
    Transparent (sampleConfig 9) sampleCodec sampleLines
      (Store.init.run (sampleConfig 9) sampleCodec (fun _ => []) (sampleOps.take 5 ++ sampleOps.drop 5)).dir.logs
      ⟨4, [⟨1, 10⟩, ⟨2, 20⟩, ⟨3, 30⟩, ⟨4, 40⟩]⟩ :=
  ⟨rfl, (snapshot_transparent (sampleConfig 9) sampleCodec sampleLines (fun _ => []) (sampleOps.take 5)
    (sampleOps.drop 5) rfl).1 _ rfl⟩

end Octos.Ui
