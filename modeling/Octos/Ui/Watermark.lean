/-
# `Octos.Ui.Watermark` — the per-thread allocator of envelope seqs

`ui_protocol_ledger.rs`: every envelope has a seq within its thread.  The allocator of a
thread is in memory, and its state is written to the thread's watermark file before the
envelope is appended.  After a restart the file is read back; without one, the ring of
the session is scanned.

Two producers share the allocator, `emit_envelope` and `emit_envelope_v2`.  An envelope
that ends the turn raises the barrier, and nothing is handed out behind it.
-/
import Octos.Lib.Text

namespace Octos.Ui

/-! ## The data -/

/-- `u64::MAX`, where the counter stays. -/
def maxSeq : Nat := 2 ^ 64 - 1

/-- `ThreadSeqState`, and what a watermark file has of it. -/
structure ThreadSeqState where
  nextSeq : Nat
  completed : Bool
  assistantSegmentId : Option String
  assistantOwnerSeq : Option Nat
  deriving DecidableEq

/-- `ThreadSeqState::default`. -/
def ThreadSeqState.new : ThreadSeqState where
  nextSeq := 0
  completed := false
  assistantSegmentId := none
  assistantOwnerSeq := none

/-- What an envelope carries, as far as the allocator looks at it. -/
inductive Payload where
  | turnCompleted
  | other
  deriving DecidableEq

inductive PayloadV2 where
  | assistantDelta (assistantSegmentId : String)
  | assistantPersisted (assistantSegmentId : String)
  | turnTerminal
  | backgroundChildCompleted
  | other
  deriving DecidableEq

inductive Content where
  | v1 (payload : Payload)
  | v2 (payload : PayloadV2)
  deriving DecidableEq

/-- `Envelope` and `EnvelopeV2`. -/
structure Envelope where
  thread : String
  seq : Nat
  content : Content
  deriving DecidableEq

/-- What each of the producers takes for the end of a turn. -/
def Content.isTerminal : Content → Bool
  | .v1 .turnCompleted => true
  | .v2 .turnTerminal | .v2 .backgroundChildCompleted => true
  | _ => false

def Content.assistantSegment : Content → Option String
  | .v2 (.assistantDelta id) | .v2 (.assistantPersisted id) => some id
  | _ => none

/-! ## The owner of an assistant segment -/

/-- `native_assistant_order`. -/
def nativeAssistantOrder (thread identity : String) : Option (Nat × Bool) :=
  let marker := (thread ++ ":assistant:iteration:").toList
  if marker.isPrefixOf identity.toList then
    let value := identity.toList.drop marker.length
    let suffix := ":final".toList
    let terminal := suffix.isSuffixOf value
    let digits := if terminal then value.take (value.length - suffix.length) else value
    (Text.parseUnsigned (2 ^ 32) digits).map (fun iteration => (iteration, terminal))
  else none

/-- The order of pairs of an iteration and a final flag. -/
def orderBefore (a b : Nat × Bool) : Bool :=
  decide (a.1 < b.1) || (a.1 == b.1 && !a.2 && b.2)

/-- Of two identities that are both ordered, the first is the older one. -/
def olderIdentity (a b : Option (Nat × Bool)) : Bool :=
  match a, b with
  | some a, some b => orderBefore a b
  | _, _ => false

/-- `update_native_assistant_owner`: the state with a new owner, unless the identity is
the owner's or an older one. -/
def updateOwner (state : ThreadSeqState) (thread identity : String) : Option ThreadSeqState :=
  let older := olderIdentity (nativeAssistantOrder thread identity)
    (state.assistantSegmentId.bind (nativeAssistantOrder thread))
  if state.assistantSegmentId = some identity then none
  else if older then none
  else some { state with assistantSegmentId := some identity }

/-- The same, with the seq that established the owner. -/
def takeOwner (thread : String) (state : ThreadSeqState) (seq : Nat) (identity : String) : ThreadSeqState :=
  match updateOwner state thread identity with
  | none => state
  | some owned => { owned with assistantOwnerSeq := some seq }

/-- `reconcile_durable_assistant_owner`, on the rows that the disk has. -/
def reconcileOwner (thread : String) (retained : List Envelope) (state : ThreadSeqState) : ThreadSeqState :=
  let sources := (retained.filter (fun row => row.thread == thread)).filterMap
    (fun row => row.content.assistantSegment.map (fun id => (row.seq, id)))
  let anchor := state.assistantOwnerSeq.or
    (state.assistantSegmentId.bind (fun id => (sources.find? (fun source => source.2 == id)).map Prod.fst))
  let baseline := state.assistantSegmentId
  sources.foldl (fun state source =>
    let newer := olderIdentity (baseline.bind (nativeAssistantOrder thread)) (nativeAssistantOrder thread source.2)
    let taken := match anchor with
      | some ack => decide (ack < source.1)
      | none => baseline.isNone || newer
    if taken then takeOwner thread state source.1 source.2 else state) state

/-! ## Recovery -/

/-- One row of the ring. -/
def scanRow (thread : String) (state : ThreadSeqState) (row : Envelope) : ThreadSeqState :=
  if row.thread = thread then
    let state := match row.content.assistantSegment with
      | none => state
      | some identity => takeOwner thread state row.seq identity
    { state with
      nextSeq := if state.nextSeq ≤ row.seq then (row.seq + 1) % 2 ^ 64 else state.nextSeq
      completed := state.completed || row.content.isTerminal }
  else state

/-- `recover_thread_seq_state`: the watermark, or else what the ring has.  `ring` is empty
when the session is not in memory. -/
def recoverThreadSeqState (thread : String) (watermark : Option ThreadSeqState) (ring retained : List Envelope) :
    ThreadSeqState :=
  match watermark with
  | some persisted => reconcileOwner thread retained persisted
  | none => ring.foldl (scanRow thread) .new

/-! ## Allocation -/

/-- `allocate_projection_seq_locked`, on the state of the thread. -/
def allocate (state : ThreadSeqState) (isTerminal : Bool) : Except String (Nat × ThreadSeqState) :=
  if state.completed then .error (if isTerminal then "duplicate_completed" else "post_completion")
  else
    let seq := if state.nextSeq = 0 then 1 else state.nextSeq
    .ok (seq, { state with nextSeq := min (seq + 1) maxSeq, completed := isTerminal })

/-! ## File names -/

/-- The bytes of a text in lower-case hexadecimal: `encode_session_dir_name` and
`encode_thread_file_name`. -/
def hexName (text : String) : List Char :=
  text.toByteArray.data.toList.flatMap (fun byte => [Nat.digitChar (byte.toNat / 16), Nat.digitChar (byte.toNat % 16)])

/-- Where the watermark of a thread is: the directory of the session, and the name. -/
structure WatermarkPath where
  dir : List Char
  file : List Char
  deriving DecidableEq

def watermarkPath (session thread : String) : WatermarkPath where
  dir := hexName session
  file := hexName thread ++ ".json".toList

theorem digitChar_inj {m n : Nat} (hm : m < 16) (hn : n < 16) (h : Nat.digitChar m = Nat.digitChar n) : m = n := by
  revert h
  revert n
  revert m
  decide

theorem byte_of_digits {a b : UInt8} (hhigh : Nat.digitChar (a.toNat / 16) = Nat.digitChar (b.toNat / 16))
    (hlow : Nat.digitChar (a.toNat % 16) = Nat.digitChar (b.toNat % 16)) : a = b := by
  have ha := a.toNat_lt
  have hb := b.toNat_lt
  have h₁ := digitChar_inj (by omega) (by omega) hhigh
  have h₂ := digitChar_inj (by omega) (by omega) hlow
  refine UInt8.toNat_inj.mp ?_
  omega

theorem hexBytes_injective : ∀ {as bs : List UInt8},
    as.flatMap (fun byte => [Nat.digitChar (byte.toNat / 16), Nat.digitChar (byte.toNat % 16)]) =
      bs.flatMap (fun byte => [Nat.digitChar (byte.toNat / 16), Nat.digitChar (byte.toNat % 16)]) → as = bs := by
  intro as
  induction as with
  | nil =>
      intro bs h
      cases bs with
      | nil => rfl
      | cons b bs => cases h
  | cons a as ih =>
      intro bs h
      cases bs with
      | nil => cases h
      | cons b bs =>
          simp only [List.flatMap_cons, List.cons_append, List.nil_append, List.cons.injEq] at h
          obtain ⟨hhigh, hlow, hrest⟩ := h
          rw [byte_of_digits hhigh hlow, ih hrest]

theorem hexName_injective {a b : String} (h : hexName a = hexName b) : a = b := by
  have hbytes := hexBytes_injective h
  exact String.toByteArray_inj.mp (ByteArray.ext (Array.toList_inj.mp hbytes))

/-- No two threads share a file. -/
theorem watermarkPath_injective {s t s' t' : String} (h : watermarkPath s t = watermarkPath s' t') :
    s = s' ∧ t = t' := by
  obtain ⟨hdir, hfile⟩ := WatermarkPath.mk.injEq _ _ _ _ ▸ h
  exact ⟨hexName_injective hdir, hexName_injective (List.append_cancel_right hfile)⟩

end Octos.Ui
