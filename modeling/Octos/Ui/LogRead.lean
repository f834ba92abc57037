/-
# `Octos.Ui.LogRead` — what a read of the directory gives

The rows of a session are numbered from one.  A run of them is what the ring, the log
and the snapshot each hold; a read joins the snapshot's run and the log's run, and gives
a run again when the second starts no later than the first ends.
-/
import Octos.Ui.EventLog

namespace Octos.Ui

variable {E : Type}

/-! ## Numbered rows -/

/-- The events as rows behind the seq `a`. -/
def rowsFrom (a : Nat) : List E → List (Row E)
  | [] => []
  | e :: es => ⟨a + 1, e⟩ :: rowsFrom (a + 1) es

@[simp] theorem length_rowsFrom : ∀ (es : List E) (a : Nat), (rowsFrom a es).length = es.length := by
  intro es
  induction es with
  | nil => exact fun _ => rfl
  | cons e es ih => exact fun a => congrArg (· + 1) (ih (a + 1))

theorem rowsFrom_append : ∀ (es fs : List E) (a : Nat),
    rowsFrom a (es ++ fs) = rowsFrom a es ++ rowsFrom (a + es.length) fs := by
  intro es
  induction es with
  | nil => exact fun _ _ => rfl
  | cons e es ih =>
      intro fs a
      rw [List.cons_append, rowsFrom, rowsFrom, ih, List.cons_append, List.length_cons]
      have hadd : a + 1 + es.length = a + (es.length + 1) := by omega
      rw [hadd]

theorem drop_rowsFrom : ∀ (es : List E) (a i : Nat), (rowsFrom a es).drop i = rowsFrom (a + i) (es.drop i) := by
  intro es
  induction es with
  | nil =>
      intro a i
      rw [rowsFrom, List.drop_nil, List.drop_nil, rowsFrom]
  | cons e es ih =>
      intro a i
      cases i with
      | zero => rfl
      | succ i =>
          rw [rowsFrom, List.drop_succ_cons, List.drop_succ_cons, ih]
          have hadd : a + 1 + i = a + (i + 1) := by omega
          rw [hadd]

theorem take_rowsFrom : ∀ (es : List E) (a i : Nat), (rowsFrom a es).take i = rowsFrom a (es.take i) := by
  intro es
  induction es with
  | nil =>
      intro a i
      rw [rowsFrom, List.take_nil, List.take_nil, rowsFrom]
  | cons e es ih =>
      intro a i
      cases i with
      | zero => rfl
      | succ i => rw [rowsFrom, List.take_succ_cons, List.take_succ_cons, ih, rowsFrom]

theorem mem_rowsFrom : ∀ {es : List E} {a : Nat} {row : Row E}, row ∈ rowsFrom a es →
    a < row.seq ∧ row.seq ≤ a + es.length := by
  intro es
  induction es with
  | nil =>
      intro a row h
      cases h
  | cons e es ih =>
      intro a row h
      rcases List.mem_cons.mp h with rfl | h
      · simp
      · obtain ⟨hlow, hhigh⟩ := ih h
        rw [List.length_cons]
        omega

/-- The rows behind a cursor. -/
theorem filter_rowsFrom (es : List E) (a c : Nat) :
    (rowsFrom a es).filter (fun row => decide (c < row.seq)) = rowsFrom (max a c) (es.drop (c - a)) := by
  induction es generalizing a with
  | nil => simp [rowsFrom]
  | cons e es ih =>
      by_cases h : c < a + 1
      · have hall : (rowsFrom a (e :: es)).filter (fun row => decide (c < row.seq)) = rowsFrom a (e :: es) := by
          refine List.filter_eq_self.mpr ?_
          intro row hrow
          have hlow := (mem_rowsFrom hrow).1
          simp only [decide_eq_true_eq]
          omega
        have hmax : max a c = a := by omega
        have hzero : c - a = 0 := by omega
        rw [hall, hmax, hzero, List.drop_zero]
      · have hstep : c - a = (c - (a + 1)) + 1 := by omega
        have hmax : max a c = max (a + 1) c := by omega
        rw [rowsFrom, List.filter_cons_of_neg (by simpa using h), ih, hstep, List.drop_succ_cons, hmax]

theorem keepLast_rowsFrom (cap : Nat) (es : List E) (a : Nat) :
    keepLast cap (rowsFrom a es) = rowsFrom (a + (es.length - cap)) (es.drop (es.length - cap)) := by
  rw [keepLast, length_rowsFrom, drop_rowsFrom]

theorem keepLast_keepLast_append (cap : Nat) (rows : List (Row E)) (row : Row E) :
    keepLast cap (keepLast cap rows ++ [row]) = keepLast cap (rows ++ [row]) := by
  unfold keepLast
  by_cases h : rows.length ≤ cap
  · have hzero : rows.length - cap = 0 := by omega
    rw [hzero, List.drop_zero]
  · rw [List.length_append, List.length_drop, List.length_append, List.length_singleton,
      List.drop_append, List.drop_append, List.drop_drop, List.length_drop]
    congr 1
    · congr 1
      omega
    · congr 1
      omega

/-- A snapshot of a run passes its check. -/
theorem validRows_rowsFrom : ∀ (es : List E) {h prev a : Nat}, prev ≤ a → a + es.length ≤ h →
    validRows h prev (rowsFrom a es) = true := by
  intro es
  induction es with
  | nil => exact fun _ _ => rfl
  | cons e es ih =>
      intro h prev a hprev hhead
      rw [List.length_cons] at hhead
      have hrest := ih (Nat.le_refl (a + 1)) (show a + 1 + es.length ≤ h by omega)
      have hlow : prev < a + 1 := by omega
      have hhigh : a + 1 ≤ h := by omega
      rw [rowsFrom, validRows, hrest, decide_eq_true hlow, decide_eq_true hhigh]
      rfl

/-! ## A scan -/

variable {cap : Nat} {after : Option Nat}

/-- Whether a row is behind the cursor of a replay. -/
def behind (after : Option Nat) (row : Row E) : Bool :=
  after.any (fun after => after < row.seq)

/-- What the rows taken do to a scan. -/
theorem foldl_seed {rows : List (Row E)} : ∀ {scan : Scan E} {a : List (Row E)}, scan.retained = keepLast cap a →
    rows.foldl (Scan.seed cap after) scan =
      ⟨scan.oldestSeq.or (rows.head?.map Row.seq), scan.headSeq, keepLast cap (a ++ rows),
        scan.replay ++ rows.filter (behind after)⟩ := by
  induction rows with
  | nil =>
      intro scan a h
      simp [← h]
  | cons row rows ih =>
      intro scan a h
      have hnext : (Scan.seed cap after scan row).retained = keepLast cap (a ++ [row]) := by
        show keepLast cap (scan.retained ++ [row]) = _
        rw [h, keepLast_keepLast_append]
      have hbehind : after.any (fun after => decide (after < row.seq)) = behind after row := rfl
      rw [List.foldl_cons, ih hnext, List.append_assoc, List.singleton_append]
      simp only [Scan.seed, Scan.take, List.head?_cons, Option.map_some, List.filter_cons, hbehind]
      cases scan.oldestSeq <;> cases behind after row <;> simp

/-- What the rows of the log do to it. -/
theorem foldl_log {skip : Nat} {rows : List (Row E)} : ∀ {scan : Scan E} {a : List (Row E)},
    scan.retained = keepLast cap a →
    rows.foldl (Scan.log cap after skip) scan =
      ⟨scan.oldestSeq.or (rows.head?.map Row.seq), rows.foldl (fun h row => max h row.seq) scan.headSeq,
        keepLast cap (a ++ rows.filter (fun row => decide (skip < row.seq))),
        scan.replay ++ (rows.filter (fun row => decide (skip < row.seq))).filter (behind after)⟩ := by
  induction rows with
  | nil =>
      intro scan a h
      simp [← h]
  | cons row rows ih =>
      intro scan a h
      have hbehind : after.any (fun after => decide (after < row.seq)) = behind after row := rfl
      by_cases hskip : row.seq ≤ skip
      · have hsame : (Scan.log cap after skip scan row).retained = keepLast cap a := by
          rw [Scan.log, if_pos hskip]
          exact h
        rw [List.foldl_cons, ih hsame, List.filter_cons_of_neg (by simpa using hskip)]
        simp only [Scan.log, if_pos hskip, List.head?_cons, Option.map_some, List.foldl_cons]
        cases scan.oldestSeq <;> simp
      · have hnext : (Scan.log cap after skip scan row).retained = keepLast cap (a ++ [row]) := by
          rw [Scan.log, if_neg hskip]
          show keepLast cap (scan.retained ++ [row]) = _
          rw [h, keepLast_keepLast_append]
        rw [List.foldl_cons, ih hnext, List.filter_cons_of_pos (by simpa using hskip), List.append_assoc,
          List.singleton_append]
        simp only [Scan.log, if_neg hskip, Scan.take, List.head?_cons, Option.map_some, List.foldl_cons,
          List.filter_cons, hbehind]
        cases scan.oldestSeq <;> cases behind after row <;> simp

/-! ## A read -/

variable {cfg : LedgerConfig} {codec : EventCodec E} {dir : SessionDir E} {fromBeginning : Bool}

/-- The highest seq on disk. -/
def SessionDir.head (dir : SessionDir E) : Nat :=
  dir.rows.foldl (fun h row => max h row.seq) ((dir.readSnapshot.map SnapshotFile.headSeq).getD 0)

theorem keepLast_nil : keepLast cap ([] : List (Row E)) = [] :=
  List.drop_nil

/-- The snapshot, if it reaches back far enough. -/
def SessionDir.shortcut (dir : SessionDir E) (after : Option Nat) (fromBeginning : Bool) : Option (SnapshotFile E) :=
  dir.readSnapshot.filter (fun snap => snap.shortcut after fromBeginning)

/-- The rows that a read takes: those of the snapshot, and those of the log behind it. -/
def SessionDir.taken (dir : SessionDir E) (after : Option Nat) (fromBeginning : Bool) : List (Row E) :=
  match dir.shortcut after fromBeginning with
  | none => dir.rows.filter (fun row => decide (0 < row.seq))
  | some snap => snap.entries ++ dir.rows.filter (fun row => decide (snap.headSeq < row.seq))

/-- The oldest seq that a read reports. -/
def SessionDir.oldest (dir : SessionDir E) (after : Option Nat) (fromBeginning : Bool) : Option Nat :=
  ((dir.shortcut after fromBeginning).bind (fun snap => snap.entries.head?.map Row.seq)).or
    (dir.rows.head?.map Row.seq)

/-- **A read**, in one equation. -/
theorem read_eq : dir.read cfg codec after fromBeginning = dir.logs.getLast?.map (fun active =>
    { activeLog := active.name
      activeLogBytes := active.bytes codec
      oldestSeq := dir.oldest after fromBeginning
      headSeq := dir.head
      retained := keepLast cfg.retainedPerSession (dir.taken after fromBeginning)
      replay := (dir.taken after fromBeginning).filter (behind after) }) := by
  unfold SessionDir.read
  cases hlast : dir.logs.getLast? with
  | none => rfl
  | some active =>
      have hseed := fun h (rows : List (Row E)) => @foldl_seed E cfg.retainedPerSession after rows
        ⟨none, h, [], []⟩ [] keepLast_nil.symm
      simp only [SessionDir.seeded, SessionDir.oldest, SessionDir.taken, SessionDir.shortcut, SessionDir.head]
      cases hsnap : dir.readSnapshot with
      | none =>
          simp only [Option.filter_none, Option.bind_none, Option.none_or, Option.map_none, Option.getD_none,
            Option.map_some]
          rw [foldl_log keepLast_nil.symm]
          simp
      | some snap =>
          cases hshort : snap.shortcut after fromBeginning with
          | false =>
              simp only [Option.filter_some, hshort, Bool.false_eq_true, if_false, Option.bind_none,
                Option.none_or, Option.map_some, Option.getD_some]
              rw [foldl_log keepLast_nil.symm]
              simp
          | true =>
              simp only [Option.filter_some, hshort, if_true, Option.bind_some, Option.map_some,
                Option.getD_some]
              rw [hseed, foldl_log rfl]
              simp

/-- A read finds the highest seq. -/
theorem read_head {snap : DiskSnapshot E} (h : dir.read cfg codec after fromBeginning = some snap) :
    snap.headSeq = dir.head := by
  rw [read_eq] at h
  obtain ⟨active, -, rfl⟩ := Option.map_eq_some_iff.mp h
  rfl

theorem read_isSome : (dir.read cfg codec after fromBeginning).isSome = !dir.logs.isEmpty := by
  rw [read_eq, Option.isSome_map]
  cases dir.logs with
  | nil => rfl
  | cons file files => simp

/-- The directory holds the end of the session's rows, and its snapshot a run of them that
the log continues. -/
structure SessionDir.Holds (dir : SessionDir E) (es : List E) (k : Nat) : Prop where
  start : k ≤ es.length
  files : dir.logs = [] ↔ es = []
  rows : dir.rows = rowsFrom k (es.drop k)
  snapshot : ∀ snap, dir.snapshot = some snap → ∃ j, j < snap.headSeq ∧ snap.headSeq ≤ es.length ∧
    k ≤ snap.headSeq ∧ snap.entries = rowsFrom j ((es.take snap.headSeq).drop j)

variable {es : List E} {k : Nat}

theorem SessionDir.Holds.readSnapshot (h : dir.Holds es k) : dir.readSnapshot = dir.snapshot := by
  unfold SessionDir.readSnapshot
  cases hsnap : dir.snapshot with
  | none => rfl
  | some snap =>
      obtain ⟨j, hj, hlen, -, hentries⟩ := h.snapshot snap hsnap
      have hvalid : validRows snap.headSeq 0 snap.entries = true := by
        rw [hentries]
        refine validRows_rowsFrom _ (Nat.zero_le j) ?_
        rw [List.length_drop, List.length_take]
        omega
      rw [Option.filter_some, if_pos hvalid]

theorem foldl_max_rowsFrom : ∀ (es : List E) (a h : Nat), h ≤ a + es.length →
    (rowsFrom a es).foldl (fun h row => max h row.seq) h = if es = [] then h else a + es.length := by
  intro es
  induction es with
  | nil => exact fun _ _ _ => rfl
  | cons e es ih =>
      intro a h hle
      rw [List.length_cons] at hle
      rw [rowsFrom, List.foldl_cons, ih (a + 1) _ (by simp only; omega), if_neg (List.cons_ne_nil e es),
        List.length_cons]
      split
      · next hnil =>
          subst hnil
          simp only [List.length_nil] at hle ⊢
          omega
      · omega

/-- The head of a directory that holds the rows. -/
theorem SessionDir.Holds.head (h : dir.Holds es k) (hk : k < es.length) : dir.head = es.length := by
  have hrest : es.drop k ≠ [] := by
    intro hnil
    have hlen := congrArg List.length hnil
    rw [List.length_drop, List.length_nil] at hlen
    omega
  rw [SessionDir.head, h.rows, h.readSnapshot, foldl_max_rowsFrom, if_neg hrest, List.length_drop]
  · omega
  · rw [List.length_drop]
    cases hsnap : dir.snapshot with
    | none => exact Nat.zero_le _
    | some snap =>
        obtain ⟨j, -, hlen, -, -⟩ := h.snapshot snap hsnap
        show snap.headSeq ≤ _
        omega

/-- The part of a run that a snapshot holds, and the part behind it. -/
theorem run_split {j c : Nat} (hj : j ≤ c) (hc : c ≤ es.length) :
    rowsFrom j ((es.take c).drop j) ++ rowsFrom c (es.drop c) = rowsFrom j (es.drop j) := by
  have hlen : ((es.take c).drop j).length = c - j := by
    rw [List.length_drop, List.length_take]
    omega
  have hsum : j + (c - j) = c := by omega
  have hrest : (es.drop j).drop (c - j) = es.drop c := by rw [List.drop_drop, hsum]
  have hfirst : (es.take c).drop j = (es.drop j).take (c - j) := List.drop_take
  have hwhole : es.drop j = (es.take c).drop j ++ es.drop c := by
    rw [hfirst, ← hrest, List.take_append_drop]
  rw [hwhole, rowsFrom_append, hlen, hsum]

/-- The rows of a run behind a cursor in it. -/
theorem filter_run {i c : Nat} (hi : i ≤ c) :
    (rowsFrom i (es.drop i)).filter (fun row => decide (c < row.seq)) = rowsFrom c (es.drop c) := by
  have hmax : max i c = c := by omega
  have hsum : i + (c - i) = c := by omega
  rw [filter_rowsFrom, hmax, List.drop_drop, hsum]

/-- The end of a run. -/
theorem keepLast_run {i : Nat} (hcap : 0 < cap) (hi : i < es.length) :
    ∃ i', i' < es.length ∧ keepLast cap (rowsFrom i (es.drop i)) = rowsFrom i' (es.drop i') := by
  rw [keepLast_rowsFrom, List.length_drop, List.drop_drop]
  exact ⟨i + (es.length - i - cap), by omega, rfl⟩

theorem run_head {i : Nat} (hi : i < es.length) : (rowsFrom i (es.drop i)).head?.map Row.seq = some (i + 1) := by
  rw [List.drop_eq_getElem_cons hi]
  rfl

/-- What a read takes of such a directory is a run, from the oldest seq to the end. -/
theorem SessionDir.Holds.taken (h : dir.Holds es k) (hk : k < es.length) :
    ∃ o, o < es.length ∧ dir.taken after fromBeginning = rowsFrom o (es.drop o) ∧
      dir.oldest after fromBeginning = some (o + 1) := by
  have hlog : dir.rows.filter (fun row => decide (0 < row.seq)) = dir.rows := by
    refine List.filter_eq_self.mpr ?_
    intro row hrow
    rw [h.rows] at hrow
    have hlow := (mem_rowsFrom hrow).1
    simp only [decide_eq_true_eq]
    omega
  unfold SessionDir.taken SessionDir.oldest
  cases hshort : dir.shortcut after fromBeginning with
  | none =>
      refine ⟨k, hk, ?_, ?_⟩
      · simp only [hlog]
        exact h.rows
      · rw [Option.bind_none, Option.none_or, h.rows]
        exact run_head hk
  | some snap =>
      unfold SessionDir.shortcut at hshort
      obtain ⟨hsome, -⟩ := Option.filter_eq_some_iff.mp hshort
      rw [h.readSnapshot] at hsome
      obtain ⟨j, hj, hlen, hover, hentries⟩ := h.snapshot snap hsome
      refine ⟨j, by omega, ?_, ?_⟩
      · simp only [hentries, h.rows]
        rw [filter_run hover, run_split hj.le hlen]
      · have hnonempty : j < (es.take snap.headSeq).length := by
          rw [List.length_take]
          omega
        rw [Option.bind_some, hentries, run_head hnonempty]
        rfl

/-- **A read** of such a directory: the ring is the end of the rows, and what is replayed
is what is behind the cursor. -/
theorem SessionDir.Holds.read (h : dir.Holds es k) (hk : k < es.length) (hcap : 0 < cfg.retainedPerSession) :
    ∃ snap i o, dir.read cfg codec after fromBeginning = some snap ∧
      (∃ file ∈ dir.logs.getLast?, snap.activeLog = file.name) ∧ snap.headSeq = es.length ∧
      i < es.length ∧ snap.retained = rowsFrom i (es.drop i) ∧ snap.oldestSeq = some (o + 1) ∧
      ∀ c, after = some c → o ≤ c → snap.replay = rowsFrom c (es.drop c) := by
  have hne : dir.logs ≠ [] := by
    rw [ne_eq, h.files]
    rintro rfl
    exact Nat.not_lt_zero k hk
  obtain ⟨active, hactive⟩ := Option.ne_none_iff_exists'.mp (mt List.getLast?_eq_none_iff.mp hne)
  obtain ⟨o, ho, htaken, holdest⟩ := @SessionDir.Holds.taken E after dir fromBeginning es k h hk
  obtain ⟨i, hi, hring⟩ := keepLast_run hcap ho
  have hread := @read_eq E after cfg codec dir fromBeginning
  rw [hactive, Option.map_some] at hread
  refine ⟨_, i, o, hread, ⟨active, hactive, rfl⟩, h.head hk, hi, ?_, holdest, ?_⟩
  · show keepLast cfg.retainedPerSession (dir.taken after fromBeginning) = _
    rw [htaken, hring]
  · rintro c rfl hc
    show (dir.taken (some c) fromBeginning).filter (fun row => decide (c < row.seq)) = _
    rw [htaken, filter_run hc]

end Octos.Ui
