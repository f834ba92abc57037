/-
# `Octos.Tools.ReadWindow` — which bytes of a file a session has been shown

`write_file` may rebuild a large file only when the model has seen all of it.
The ledger of `read_window.rs` keeps, for every session and canonical path, how
far the file has been shown without a gap, under which generation of the file,
and whether what was shown was the file's own bytes.

The rule is that absence refuses.  Three things can take an entry away, and all
three are safe: `forget`, a full ledger, and a session without a key, which
never gets an entry.
-/
import Octos.Lib.Recency

namespace Octos.Tools

/-! ## The ledger -/

/-- One generation of a file on disk. -/
structure ViewEpoch where
  mtime : Int
  size : Nat
  ctime : Option Int
  inode : Option Nat
deriving DecidableEq

inductive ViewStatus
  | unknown
  | viewPartial (seenThrough totalBytes : Nat)
  | tainted
  | transformed
  | complete (epoch : ViewEpoch)
deriving DecidableEq

structure ViewRecord where
  epoch : Option ViewEpoch
  seenThrough : Nat
  totalBytes : Nat
  tainted : Bool
  transformed : Bool
deriving DecidableEq

/-- Session and canonical path. -/
abbrev LedgerKey := String × String

abbrev ViewLedger := Recency LedgerKey ViewRecord

/-- `MAX_LEDGER_ENTRIES` -/
def maxLedgerEntries : Nat := 512

/-- What `read_file` reports of one read: the bytes `byteStart..byteEnd` of a file of
`totalBytes` bytes. -/
structure View where
  epoch : Option ViewEpoch
  byteStart : Nat
  byteEnd : Nat
  totalBytes : Nat
  tainted : Bool
  transformed : Bool
deriving DecidableEq

section

-- `canonicalize` of the file system, which may fail
variable (canonicalize : String → Option String)

/-- `ledger_key` -/
def ledgerKey (session path : String) : LedgerKey :=
  (session, (canonicalize path).getD path)

/-- Coverage and both flags carry over only within one known epoch. -/
def carriedOver (prev : Option ViewRecord) (epoch : Option ViewEpoch) : Nat × Bool × Bool :=
  match prev with
  | some prev =>
      if prev.epoch.isSome ∧ prev.epoch = epoch then (prev.seenThrough, prev.tainted, prev.transformed)
      else (0, false, false)
  | none => (0, false, false)

/-- The record after one more view. -/
def viewRecord (prev : Option ViewRecord) (view : View) : ViewRecord :=
  let (carried, carriedTaint, carriedTransformed) := carriedOver prev view.epoch
  -- a view past the mark leaves a gap, and the mark stays
  let seenThrough := if view.byteStart ≤ carried then max carried view.byteEnd else carried
  { epoch := view.epoch
    seenThrough := seenThrough
    totalBytes := view.totalBytes
    tainted := carriedTaint || view.tainted
    transformed := carriedTransformed || view.transformed }

/-- `record_view` -/
def recordView (ledger : ViewLedger) (session path : String) (view : View) : ViewLedger :=
  if session.isEmpty then ledger
  else
    let key := ledgerKey canonicalize session path
    ledger.insert maxLedgerEntries key (viewRecord ledger.entries[key]? view)

/-- `view_status` -/
def viewStatus (ledger : ViewLedger) (session path : String) : ViewStatus :=
  match ledger.entries[ledgerKey canonicalize session path]? with
  | none => .unknown
  | some record =>
      if record.tainted then .tainted
      else if record.transformed then .transformed
      else match record.epoch with
        | some epoch =>
            if record.totalBytes ≤ record.seenThrough then .complete epoch
            else .viewPartial record.seenThrough record.totalBytes
        | none => .viewPartial record.seenThrough record.totalBytes

/-- `forget` -/
def forgetView (ledger : ViewLedger) (session path : String) : ViewLedger :=
  ledger.remove (ledgerKey canonicalize session path)

/-- `note_full_write`; `stat` is the epoch that the file has after the write, when it can be read. -/
def noteFullWrite (ledger : ViewLedger) (session path : String) (stat : Option ViewEpoch)
    (writtenBytes : Nat) : ViewLedger :=
  if session.isEmpty then ledger
  else match stat with
    | some epoch =>
        if epoch.size = writtenBytes then
          ledger.insert maxLedgerEntries (ledgerKey canonicalize session path)
            { epoch := some epoch, seenThrough := writtenBytes, totalBytes := writtenBytes
              tainted := false, transformed := false }
        else forgetView canonicalize ledger session path
    | none => forgetView canonicalize ledger session path

/-! ## Calls of any number of sessions -/

inductive LedgerAction
  | view (view : View)
  | fullWrite (stat : Option ViewEpoch) (writtenBytes : Nat)
  | forget
deriving DecidableEq

structure LedgerCall where
  session : String
  path : String
  action : LedgerAction
deriving DecidableEq

namespace LedgerCall

def key (call : LedgerCall) : LedgerKey :=
  ledgerKey canonicalize call.session call.path

/-- The ledger after one call. -/
def step (ledger : ViewLedger) (call : LedgerCall) : ViewLedger :=
  match call.action with
  | .view view => recordView canonicalize ledger call.session call.path view
  | .fullWrite stat writtenBytes => noteFullWrite canonicalize ledger call.session call.path stat writtenBytes
  | .forget => forgetView canonicalize ledger call.session call.path

end LedgerCall

/-- The ledger after a sequence of calls, from the start of the process. -/
def ledgerAfter (calls : List LedgerCall) : ViewLedger :=
  calls.foldl (LedgerCall.step canonicalize) Recency.empty

end

/-! ## What one call does -/

variable {canonicalize : String → Option String}

/-- The record that a full write leaves. -/
def writtenRecord (epoch : ViewEpoch) : ViewRecord where
  epoch := some epoch
  seenThrough := epoch.size
  totalBytes := epoch.size
  tainted := false
  transformed := false

/-- The record that an action leaves where there was `prev`. -/
def LedgerAction.recorded (prev : Option ViewRecord) : LedgerAction → Option ViewRecord
  | .view v => some (viewRecord prev v)
  | .fullWrite (some epoch) writtenBytes =>
      if epoch.size = writtenBytes then some (writtenRecord epoch) else none
  | _ => none

/-- A call does nothing, writes one record under its key or drops its key. -/
theorem step_shape (ledger : ViewLedger) (call : LedgerCall) :
    (call.session = "" ∧ call.step canonicalize ledger = ledger) ∨
      (∃ record, call.session ≠ "" ∧
        call.action.recorded ledger.entries[call.key canonicalize]? = some record ∧
        call.step canonicalize ledger =
          ledger.insert maxLedgerEntries (call.key canonicalize) record) ∨
      call.step canonicalize ledger = ledger.remove (call.key canonicalize) := by
  obtain ⟨session, path, action⟩ := call
  cases action with
  | view view =>
      by_cases hs : session = ""
      · exact Or.inl ⟨hs, by simp [LedgerCall.step, recordView, hs]⟩
      · refine Or.inr (Or.inl ⟨_, hs, rfl, ?_⟩)
        simp only [LedgerCall.step, recordView, String.isEmpty_iff, if_neg hs]
        rfl
  | fullWrite stat writtenBytes =>
      by_cases hs : session = ""
      · exact Or.inl ⟨hs, by simp [LedgerCall.step, noteFullWrite, hs]⟩
      · right
        simp only [LedgerCall.step, noteFullWrite, String.isEmpty_iff, if_neg hs]
        cases stat with
        | none => exact Or.inr rfl
        | some epoch =>
            by_cases hsize : epoch.size = writtenBytes
            · subst hsize
              exact Or.inl ⟨writtenRecord epoch, hs, if_pos rfl, if_pos rfl⟩
            · exact Or.inr (if_neg hsize)
  | forget => exact Or.inr (Or.inr rfl)

/-- A call leaves the entry of a key that is not its own, or drops it. -/
theorem step_ne (ledger : ViewLedger) {call : LedgerCall} {key : LedgerKey} (hkey : key ≠ call.key canonicalize) :
    (call.step canonicalize ledger).entries[key]? = ledger.entries[key]? ∨
      (call.step canonicalize ledger).entries[key]? = none := by
  rcases step_shape ledger call with ⟨-, hstep⟩ | ⟨r, -, -, hstep⟩ | hstep <;> rw [hstep]
  · exact Or.inl rfl
  · exact Recency.get_insert_ne maxLedgerEntries ledger r hkey
  · exact Or.inl (Recency.get_remove_ne ledger hkey)

/-- An entry that is there after a call was there before, or is what the call recorded. -/
theorem step_cases {ledger : ViewLedger} {call : LedgerCall} {key : LedgerKey} {record : ViewRecord}
    (h : (call.step canonicalize ledger).entries[key]? = some record) :
    ledger.entries[key]? = some record ∨
      (key = call.key canonicalize ∧ call.action.recorded ledger.entries[key]? = some record) := by
  by_cases hkey : key = call.key canonicalize
  · subst hkey
    rcases step_shape ledger call with ⟨-, hstep⟩ | ⟨r, -, hrec, hstep⟩ | hstep <;> rw [hstep] at h
    · exact Or.inl h
    · rcases Recency.get_insert_self maxLedgerEntries ledger (call.key canonicalize) r
        with hput | hput <;> rw [hput] at h
      · exact Or.inr ⟨rfl, hrec.trans h⟩
      · cases h
    · rw [Recency.get_remove_self] at h
      cases h
  · rcases step_ne ledger hkey with hput | hput <;> rw [hput] at h
    · exact Or.inl h
    · cases h

/-! ## The ledger as a whole -/

/-- What every ledger of the process keeps: the bound, and no entry of a session without a key. -/
structure LedgerOk (ledger : ViewLedger) : Prop where
  bounded : ledger.entries.size ≤ maxLedgerEntries
  keyless : ∀ key : LedgerKey, key.1 = "" → ledger.entries[key]? = none

theorem step_ok {ledger : ViewLedger} (h : LedgerOk ledger) (call : LedgerCall) :
    LedgerOk (call.step canonicalize ledger) := by
  constructor
  · rcases step_shape ledger call with ⟨-, hstep⟩ | ⟨r, -, -, hstep⟩ | hstep <;> rw [hstep]
    · exact h.bounded
    · exact Recency.size_insert_le _ _ _ _
    · exact (Recency.size_remove_le ledger _).trans h.bounded
  · intro key hkey
    by_cases hk : key = call.key canonicalize
    · subst hk
      rcases step_shape ledger call with ⟨-, hstep⟩ | ⟨r, hs, -, -⟩ | hstep
      · rw [hstep, h.keyless _ hkey]
      · exact absurd hkey hs
      · rw [hstep, Recency.get_remove_self]
    · rcases step_ne ledger hk with hput | hput
      · rw [hput, h.keyless key hkey]
      · exact hput

theorem ledgerAfter_ok (canonicalize : String → Option String) (calls : List LedgerCall) :
    LedgerOk (ledgerAfter canonicalize calls) := by
  induction calls using List.reverseRecOn with
  | nil => exact ⟨Nat.zero_le _, fun _ _ => Std.ExtHashMap.getElem?_empty⟩
  | append_singleton calls call ih =>
      rw [ledgerAfter, List.foldl_append]
      exact step_ok ih call

/-- **The ledger keeps its sessions apart.**  Whatever calls were made: there are at most 512
entries; a session without a key is told nothing; and a call of one session leaves what another
is told, or lets it be forgotten. -/
theorem ledger_keeps_apart (canonicalize : String → Option String) (calls : List LedgerCall) :
    (ledgerAfter canonicalize calls).entries.size ≤ maxLedgerEntries ∧
    (∀ path, viewStatus canonicalize (ledgerAfter canonicalize calls) "" path = .unknown) ∧
    ∀ (call : LedgerCall) session path, session ≠ call.session →
      let status := fun calls => viewStatus canonicalize (ledgerAfter canonicalize calls) session path
      status (calls ++ [call]) = status calls ∨ status (calls ++ [call]) = .unknown := by
  have hok := ledgerAfter_ok canonicalize calls
  refine ⟨hok.bounded, ?_, ?_⟩
  · intro path
    rw [viewStatus, hok.keyless _ rfl]
  · intro call session path hne
    have hsnoc : ledgerAfter canonicalize (calls ++ [call]) = call.step canonicalize (ledgerAfter canonicalize calls) := by
      rw [ledgerAfter, List.foldl_append]
      rfl
    have hkey : ledgerKey canonicalize session path ≠ call.key canonicalize :=
      fun heq => hne (congrArg Prod.fst heq)
    simp only [viewStatus, hsnoc]
    rcases step_ne (ledgerAfter canonicalize calls) hkey with hsame | hgone
    · exact Or.inl (by rw [hsame])
    · exact Or.inr (by rw [hgone])

end Octos.Tools
