/-
# `Octos.Ui.LogLines` — the lines of a log file

A record is one line of JSON, the version first, then the seq, then the event:

    ⟨"v":1,"seq":7,"event":⟨"record_kind":"progress", …⟩⟩

A read that takes the rows up to a seq from the snapshot passes over their lines
without parsing them: the seq is found by looking for its key, which is trusted when it
stands in front of the key of the event.  What the event says, keys like these
included, is behind both.
-/
import Octos.Lib.Lines
import Octos.Lib.Slices
import Octos.Ui.LogRead

namespace Octos.Ui

open Text

variable {E : Type}

/-- `LEDGER_DISK_VERSION` -/
def ledgerDiskVersion : Nat :=
  1

/-- `ParsedLedgerDiskRecord` -/
inductive ParsedRecord (E : Type) where
  | record (v : Nat) (row : Row E)
  | legacyMessagePersisted (v seq : Nat)

/-- The text in front of the seq. -/
def lineHead : List Char :=
  Char.ofNat 123 :: "\"v\":1,".toList

def seqKey : List Char :=
  "\"seq\":".toList

def eventKey : List Char :=
  "\"event\"".toList

/-- The line of a record, with the JSON of its event. -/
def diskLine (seq : Nat) (event : List Char) : List Char :=
  lineHead ++ seqKey ++ decimal seq ++ ',' :: eventKey ++ ':' :: event ++ [Char.ofNat 125]

/-- The writer and the reader of JSON: a line break is written as an escape, and what
the writer wrote is read back. -/
structure LineCodec (E : Type) where
  eventJson : E → List Char
  parse : List Char → Option (ParsedRecord E)
  eventJson_line : ∀ event, '\n' ∉ eventJson event
  parse_diskLine : ∀ row, parse (diskLine row.seq (eventJson row.event)) = some (.record ledgerDiskVersion row)

/-- `cheap_record_seq` -/
def cheapRecordSeq (line : List Char) : Option Nat :=
  match breakOn seqKey line, breakOn eventKey line with
  | some (front, rest), some (front', _) =>
      if utf8Length front' < utf8Length front then none
      else parseUnsigned (2 ^ 64) (rest.takeWhile Char.isDigit)
  | _, _ => none

/-- The line has a seq that the snapshot covers. -/
def coveredSeq (skip : Nat) (line : List Char) : Option Nat :=
  if 0 < skip then (cheapRecordSeq line).filter (fun seq => decide (seq ≤ skip)) else none

/-- A seq that is passed over still counts. -/
def Scan.pass (scan : Scan E) (seq : Nat) : Scan E :=
  { scan with
    oldestSeq := scan.oldestSeq.or (some seq)
    headSeq := max scan.headSeq seq }

/-- One line of a log file. -/
def Scan.line (cap : Nat) (lines : LineCodec E) (after : Option Nat) (skip : Nat) (scan : Scan E)
    (line : List Char) : Scan E :=
  if (trim line).isEmpty then scan
  else
    match coveredSeq skip line with
    | some seq => scan.pass seq
    | none =>
        match lines.parse line with
        | some (.record v row) => if v = ledgerDiskVersion then scan.log cap after skip row else scan
        | some (.legacyMessagePersisted v seq) => if v = ledgerDiskVersion then scan.pass seq else scan
        | none => scan

/-- The text of a log file. -/
def LogFile.text (lines : LineCodec E) (file : LogFile E) : List Char :=
  file.rows.flatMap (fun row => diskLine row.seq (lines.eventJson row.event) ++ ['\n'])

/-- `read_session_disk_snapshot`, over the texts of the files. -/
def SessionDir.readText (cfg : LedgerConfig) (codec : EventCodec E) (lines : LineCodec E) (dir : SessionDir E)
    (after : Option Nat) (fromBeginning : Bool) : Option (DiskSnapshot E) :=
  match dir.logs.getLast? with
  | none => none
  | some active =>
      let (scan, skip) := dir.seeded cfg.retainedPerSession after fromBeginning
      let scan := (dir.logs.flatMap (fun file => (file.text lines).splitOn '\n')).foldl
        (Scan.line cfg.retainedPerSession lines after skip) scan
      some
        { activeLog := active.name
          activeLogBytes := active.bytes codec
          oldestSeq := scan.oldestSeq
          headSeq := scan.headSeq
          retained := scan.retained
          replay := scan.replay }

/-! ## A line of the writer -/

variable {lines : LineCodec E} {cap skip seq : Nat} {after : Option Nat} {event : List Char}

theorem breakOn_seqKey : ∃ rest, breakOn seqKey (diskLine seq event) = some (lineHead, rest) ∧
    rest = decimal seq ++ ',' :: (eventKey ++ ':' :: event ++ [Char.ofNat 125]) := by
  refine ⟨_, ?_, rfl⟩
  rw [diskLine]
  simp only [List.append_assoc, List.cons_append]
  rfl

/-- The key of the event is behind the head. -/
theorem breakOn_eventKey : ∃ front rest, breakOn eventKey (diskLine seq event) = some (front, rest) ∧
    utf8Length lineHead ≤ utf8Length front := by
  obtain ⟨tail, htail⟩ : ∃ tail, tail = seqKey ++ decimal seq ++ ',' :: eventKey ++ ':' :: event ++ [Char.ofNat 125] :=
    ⟨_, rfl⟩
  have hline : diskLine seq event = lineHead ++ tail := by
    rw [htail, diskLine]
    simp only [List.append_assoc, List.cons_append]
  have hkey : contains eventKey tail = true := by
    rw [contains_iff, htail]
    refine ⟨seqKey ++ decimal seq ++ [','], ':' :: event ++ [Char.ofNat 125], ?_⟩
    simp only [List.append_assoc, List.cons_append, List.nil_append]
  obtain ⟨⟨front, rest⟩, hbreak⟩ := Option.isSome_iff_exists.mp hkey
  have hskip : breakOn eventKey (lineHead ++ tail) = (breakOn eventKey tail).map (fun r => (lineHead ++ r.1, r.2)) := by
    rw [hbreak]
    show Option.map _ (Option.map _ (Option.map _ (Option.map _ (Option.map _ (Option.map _ (Option.map _
      (breakOn eventKey tail))))))) = _
    rw [hbreak]
    rfl
  refine ⟨lineHead ++ front, rest, ?_, ?_⟩
  · rw [hline, hskip, hbreak]
    rfl
  · rw [utf8Length_append]
    exact Nat.le_add_right _ _

/-- What is found is the number of the seq, whatever the event says. -/
theorem cheapRecordSeq_eq : cheapRecordSeq (diskLine seq event) = parseUnsigned (2 ^ 64) (decimal seq) := by
  obtain ⟨rest, hseq, hrest⟩ := @breakOn_seqKey seq event
  obtain ⟨front, rest', hevent, hle⟩ := @breakOn_eventKey seq event
  have hdigits : rest.takeWhile Char.isDigit = decimal seq := by
    rw [hrest, List.takeWhile_append_of_pos (fun ch hch => isDigit_of_mem_decimal hch)]
    rw [List.takeWhile_cons_of_neg (by decide), List.append_nil]
  rw [cheapRecordSeq, hseq, hevent]
  dsimp only
  rw [if_neg (Nat.not_lt.mpr hle), hdigits]

/-- **The cheap scan** finds the seq of the record. -/
theorem cheapRecordSeq_diskLine (h : seq < 2 ^ 64) : cheapRecordSeq (diskLine seq event) = some seq := by
  rw [cheapRecordSeq_eq, parseUnsigned_decimal h]

/-- A number that is read back is the one that was written. -/
theorem parseUnsigned_value {bound m n : Nat} (h : parseUnsigned bound (decimal n) = some m) : m = n := by
  have hm := parseUnsigned_lt h
  have hplus : (decimal n).head? ≠ some '+' := by
    intro hhead
    have hdigit := isDigit_of_mem_decimal (List.mem_of_mem_head? hhead)
    exact absurd hdigit (by decide)
  have hvalue : Nat.ofDigitChars 10 (decimal n) 0 = n := Nat.ofDigitChars_ten_toDigits
  simp only [parseUnsigned, if_neg hplus, hvalue] at h
  split_ifs at h
  exact (Option.some.inj h).symm

/-- A line that is passed over has the seq of its record. -/
theorem coveredSeq_diskLine : coveredSeq skip (diskLine seq event) = none ∨
    coveredSeq skip (diskLine seq event) = some seq ∧ seq ≤ skip := by
  rw [coveredSeq]
  split
  · rw [cheapRecordSeq_eq]
    cases hparse : parseUnsigned (2 ^ 64) (decimal seq) with
    | none => exact .inl rfl
    | some n =>
        rw [parseUnsigned_value hparse, Option.filter_some]
        split
        · next hle => exact .inr ⟨rfl, of_decide_eq_true hle⟩
        · exact .inl rfl
  · exact .inl rfl

theorem line_ne_nil : (trim (diskLine seq event)).isEmpty = false := by
  obtain ⟨rest, hline⟩ : ∃ rest, diskLine seq event = Char.ofNat 123 :: rest := ⟨_, rfl⟩
  rw [List.isEmpty_eq_false_iff, hline, trim, List.dropWhile_cons_of_neg (by decide)]
  intro hnil
  have hall := List.rdropWhile_eq_nil_iff.mp hnil _ List.mem_cons_self
  exact absurd hall (by decide)

/-- **One line of the writer** does what its row does. -/
theorem line_diskLine (scan : Scan E) (row : Row E) :
    scan.line cap lines after skip (diskLine row.seq (lines.eventJson row.event)) = scan.log cap after skip row := by
  rw [Scan.line, line_ne_nil, if_neg Bool.false_ne_true, lines.parse_diskLine]
  rcases @coveredSeq_diskLine skip row.seq (lines.eventJson row.event) with h | ⟨h, hle⟩
  · rw [h]
    exact if_pos rfl
  · rw [h, Scan.log, if_pos hle]
    rfl

theorem newline_notMem_diskLine (h : '\n' ∉ event) : '\n' ∉ diskLine seq event := by
  have hhead : '\n' ∉ lineHead ++ seqKey := by decide
  have hdigits : '\n' ∉ decimal seq := fun hmem => absurd (isDigit_of_mem_decimal hmem) (by decide)
  have hkey : '\n' ∉ ',' :: eventKey := by decide
  have hevent : '\n' ∉ ':' :: event := by
    rw [List.mem_cons, not_or]
    exact ⟨by decide, h⟩
  have hclose : '\n' ∉ [Char.ofNat 125] := by decide
  rw [diskLine]
  simp only [List.mem_append, not_or] at hhead ⊢
  exact ⟨⟨⟨⟨hhead, hdigits⟩, hkey⟩, hevent⟩, hclose⟩

/-- The lines of a file, and what is behind the last line break. -/
theorem splitOn_text (rows : List (Row E)) :
    (rows.flatMap (fun row => diskLine row.seq (lines.eventJson row.event) ++ ['\n'])).splitOn '\n' =
      rows.map (fun row => diskLine row.seq (lines.eventJson row.event)) ++ [[]] := by
  induction rows with
  | nil => rfl
  | cons row rows ih =>
      have hplain := @newline_notMem_diskLine row.seq _ (lines.eventJson_line row.event)
      rw [List.flatMap_cons, List.append_assoc, List.singleton_append,
        List.splitOn_append_cons_self_of_not_mem hplain, ih, List.map_cons, List.cons_append]

theorem foldl_text (rows : List (Row E)) (scan : Scan E) :
    (rows.map (fun row : Row E => diskLine row.seq (lines.eventJson row.event)) ++ [[]]).foldl
      (Scan.line cap lines after skip) scan = rows.foldl (Scan.log cap after skip) scan := by
  rw [List.foldl_append, List.foldl_map]
  simp only [line_diskLine, List.foldl_cons, List.foldl_nil]
  rw [Scan.line]
  exact if_pos rfl

theorem foldl_texts (logs : List (LogFile E)) : ∀ scan : Scan E,
    (logs.flatMap (fun file => (file.text lines).splitOn '\n')).foldl (Scan.line cap lines after skip) scan =
      (logs.flatMap LogFile.rows).foldl (Scan.log cap after skip) scan := by
  induction logs with
  | nil => exact fun _ => rfl
  | cons file logs ih =>
      intro scan
      rw [List.flatMap_cons, List.flatMap_cons, List.foldl_append, List.foldl_append, LogFile.text, splitOn_text,
        foldl_text, ih]

/-- **A read of the texts** is the read of the rows. -/
theorem readText_eq {cfg : LedgerConfig} {codec : EventCodec E} {dir : SessionDir E} {fromBeginning : Bool} :
    dir.readText cfg codec lines after fromBeginning = dir.read cfg codec after fromBeginning := by
  rw [SessionDir.readText, SessionDir.read, SessionDir.rows]
  cases dir.logs.getLast? with
  | none => rfl
  | some active =>
      dsimp only
      rw [foldl_texts]

end Octos.Ui
