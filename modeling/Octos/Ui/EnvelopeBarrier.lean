/-
# `Octos.Ui.EnvelopeBarrier` — the envelopes of a thread over its whole history

An emit runs under the lock from the allocation to the append: the watermark is written
to a temporary file and renamed, the envelope is appended, and when it makes a new
assistant owner the watermark is written once more.  The process may die behind any of
these, and then the memory is lost.

What carries the argument is that a state of the allocator covers the thread's log: the
seqs handed out are below its counter, and an end of the turn has raised its barrier.
Both the memory and the file are covering states, at every moment; a file that is missing
covers an empty log.  So it does not matter which rows of the session are loaded when a
state is recovered.

At `u64::MAX` the counter stays, and that seq is handed out again.
-/
import Octos.Ui.Watermark

namespace Octos.Ui

/-! ## The disk and the memory -/

/-- What is written to the disk. -/
inductive FileEffect where
  | writeTmp (path : WatermarkPath) (state : ThreadSeqState)
  | rename (path : WatermarkPath)
  | append (session : String) (row : Envelope)

/-- The allocators in memory by session and thread, the watermark files and their
temporary files, and the envelopes in the order in which they were appended. -/
structure Barrier where
  threadSeq : String → String → Option ThreadSeqState
  tmp : WatermarkPath → Option ThreadSeqState
  files : WatermarkPath → Option ThreadSeqState
  emitted : List (String × Envelope)

namespace Barrier

def start : Barrier where
  threadSeq := fun _ _ => none
  tmp := fun _ => none
  files := fun _ => none
  emitted := []

/-- One effect. -/
def effect (st : Barrier) : FileEffect → Barrier
  | .writeTmp path state => { st with tmp := fun p => if p = path then some state else st.tmp p }
  | .rename path => { st with
      tmp := fun p => if p = path then none else st.tmp p
      files := fun p => if p = path then st.tmp path else st.files p }
  | .append session row => { st with emitted := st.emitted ++ [(session, row)] }

def effects (st : Barrier) (es : List FileEffect) : Barrier :=
  es.foldl effect st

/-- `persist_thread_watermark_locked`. -/
def persist (session thread : String) (state : ThreadSeqState) : List FileEffect :=
  [.writeTmp (watermarkPath session thread) state, .rename (watermarkPath session thread)]

/-- The allocator that an emit finds, or recovers. -/
def current (st : Barrier) (session thread : String) (ring retained : List Envelope) : ThreadSeqState :=
  match st.threadSeq session thread with
  | some state => state
  | none => recoverThreadSeqState thread (st.files (watermarkPath session thread)) ring retained

/-- The locked section of `emit_envelope_inner` and `emit_envelope_v2_inner`: what it
leaves in memory, and what it writes. -/
def emission (st : Barrier) (session thread : String) (content : Content) (ring retained : List Envelope) :
    ThreadSeqState × List FileEffect :=
  let state := st.current session thread ring retained
  match allocate state content.isTerminal with
  | .error _ => (state, [])
  | .ok (seq, next) =>
      let written := persist session thread next ++ [.append session ⟨thread, seq, content⟩]
      match content.assistantSegment.bind (updateOwner next thread) with
      | none => (next, written)
      | some owned =>
          let owned := { owned with assistantOwnerSeq := some seq }
          (owned, written ++ persist session thread owned)

def remember (st : Barrier) (session thread : String) (state : ThreadSeqState) : Barrier :=
  { st with threadSeq := fun s t => if s = session ∧ t = thread then some state else st.threadSeq s t }

/-- The process is gone. -/
def forget (st : Barrier) : Barrier :=
  { st with threadSeq := fun _ _ => none }

end Barrier

/-- An emit, with the rows of the session that are in memory and on disk at that moment.
With `crash := some k` the process dies behind `k` effects, and is started again. -/
structure Emit where
  session : String
  thread : String
  content : Content
  ring : List Envelope
  retained : List Envelope
  crash : Option Nat

namespace Barrier

def step (st : Barrier) (e : Emit) : Barrier :=
  let out := st.emission e.session e.thread e.content e.ring e.retained
  match e.crash with
  | none => (st.effects out.2).remember e.session e.thread out.1
  | some k => (st.effects (out.2.take k)).forget

def run (st : Barrier) (es : List Emit) : Barrier :=
  es.foldl step st

/-- The envelopes of a thread, in the order in which they were appended. -/
def log (st : Barrier) (session thread : String) : List Envelope :=
  (st.emitted.filter (fun e => decide (e.1 = session ∧ e.2.thread = thread))).map Prod.snd

end Barrier

/-! ## States that cover a log -/

/-- Seqs go up, and stay at `u64::MAX`. -/
def SeqBefore (a b : Nat) : Prop :=
  a < b ∨ (a = maxSeq ∧ b = maxSeq)

/-- Every envelope of the log is behind the state. -/
structure ThreadSeqState.Covers (state : ThreadSeqState) (log : List Envelope) : Prop where
  fits : state.nextSeq ≤ maxSeq
  below : ∀ row ∈ log, SeqBefore row.seq state.nextSeq
  done : ∀ row ∈ log, row.content.isTerminal = true → state.completed = true

section States

variable {state next : ThreadSeqState} {log : List Envelope} {thread identity : String}

/-- The owner of an assistant segment does not matter. -/
theorem ThreadSeqState.Covers.congr {state' : ThreadSeqState} (h : state.Covers log)
    (hnext : state'.nextSeq = state.nextSeq) (hcompleted : state'.completed = state.completed) : state'.Covers log := by
  refine ⟨?_, ?_, ?_⟩
  · rw [hnext]
    exact h.fits
  · rw [hnext]
    exact h.below
  · rw [hcompleted]
    exact h.done

theorem updateOwner_keeps {owned : ThreadSeqState} (h : updateOwner state thread identity = some owned) :
    owned.nextSeq = state.nextSeq ∧ owned.completed = state.completed := by
  simp only [updateOwner] at h
  split at h
  · cases h
  · split at h
    · cases h
    · obtain rfl := Option.some.inj h
      exact ⟨rfl, rfl⟩

theorem takeOwner_keeps (seq : Nat) : (takeOwner thread state seq identity).nextSeq = state.nextSeq ∧
    (takeOwner thread state seq identity).completed = state.completed := by
  unfold takeOwner
  split
  · exact ⟨rfl, rfl⟩
  · next owned h =>
      obtain ⟨hnext, hcompleted⟩ := updateOwner_keeps h
      exact ⟨hnext, hcompleted⟩

theorem reconcileOwner_keeps (retained : List Envelope) :
    (reconcileOwner thread retained state).nextSeq = state.nextSeq ∧
    (reconcileOwner thread retained state).completed = state.completed := by
  suffices hall : ∀ (sources : List (Nat × String)) (f : ThreadSeqState → Nat × String → Bool)
      (found : ThreadSeqState),
      (sources.foldl (fun state source =>
        if f state source then takeOwner thread state source.1 source.2 else state) found).nextSeq = found.nextSeq ∧
      (sources.foldl (fun state source =>
        if f state source then takeOwner thread state source.1 source.2 else state) found).completed =
        found.completed from hall _ _ state
  intro sources f
  induction sources with
  | nil => exact fun found => ⟨rfl, rfl⟩
  | cons source sources ih =>
      intro found
      rw [List.foldl_cons]
      obtain ⟨hnext, hcompleted⟩ := ih (if f found source then takeOwner thread found source.1 source.2 else found)
      rw [hnext, hcompleted]
      split
      · exact takeOwner_keeps source.1
      · exact ⟨rfl, rfl⟩

/-- What is read from a watermark file covers what the file covers. -/
theorem ThreadSeqState.Covers.recover (h : state.Covers log) (ring retained : List Envelope) :
    (recoverThreadSeqState thread (some state) ring retained).Covers log :=
  h.congr (reconcileOwner_keeps retained).1 (reconcileOwner_keeps retained).2

theorem covers_nil (hfits : state.nextSeq ≤ maxSeq) : state.Covers [] := by
  refine ⟨hfits, ?_, ?_⟩
  · intro row hrow
    cases hrow
  · intro row hrow
    cases hrow

theorem scanRow_fits (row : Envelope) (h : state.nextSeq ≤ maxSeq) : (scanRow thread state row).nextSeq ≤ maxSeq := by
  have hwrap : (row.seq + 1) % 2 ^ 64 ≤ maxSeq := Nat.le_pred_of_lt (Nat.mod_lt _ (Nat.two_pow_pos 64))
  have howner : ∀ identity, (takeOwner thread state row.seq identity).nextSeq ≤ maxSeq := by
    intro identity
    rw [(takeOwner_keeps row.seq).1]
    exact h
  have hstep : ∀ state : ThreadSeqState, state.nextSeq ≤ maxSeq →
      (if state.nextSeq ≤ row.seq then (row.seq + 1) % 2 ^ 64 else state.nextSeq) ≤ maxSeq := by
    intro state h
    split
    · exact hwrap
    · exact h
  unfold scanRow
  split
  · cases row.content.assistantSegment with
    | none => exact hstep state h
    | some identity => exact hstep _ (howner identity)
  · exact h

/-- Without a watermark the ring is scanned, and the log is empty. -/
theorem covers_scan (ring retained : List Envelope) :
    (recoverThreadSeqState thread none ring retained).Covers [] := by
  refine covers_nil ?_
  show (ring.foldl (scanRow thread) .new).nextSeq ≤ maxSeq
  have hall : ∀ (ring : List Envelope) (state : ThreadSeqState), state.nextSeq ≤ maxSeq →
      (ring.foldl (scanRow thread) state).nextSeq ≤ maxSeq := by
    intro ring
    induction ring with
    | nil => exact fun _ h => h
    | cons row ring ih => exact fun state h => ih _ (scanRow_fits row h)
  exact hall ring .new (Nat.zero_le _)

/-! ### An allocation -/

theorem allocate_ok {terminal : Bool} {seq : Nat} (h : allocate state terminal = .ok (seq, next)) :
    state.completed = false ∧ seq = (if state.nextSeq = 0 then 1 else state.nextSeq) ∧
      next = { state with nextSeq := min (seq + 1) maxSeq, completed := terminal } := by
  simp only [allocate] at h
  split at h
  · cases h
  · next hopen =>
      obtain ⟨rfl, rfl⟩ := Prod.mk.inj (Except.ok.inj h)
      exact ⟨by simpa using hopen, rfl, rfl⟩

/-- The seq handed out is behind every envelope of the log. -/
theorem ThreadSeqState.Covers.handOut (h : state.Covers log) {terminal : Bool} {seq : Nat}
    (halloc : allocate state terminal = .ok (seq, next)) :
    seq ≤ maxSeq ∧ (∀ row ∈ log, SeqBefore row.seq seq ∧ row.content.isTerminal = false) := by
  obtain ⟨hopen, hseq, -⟩ := allocate_ok halloc
  have hfits := h.fits
  have hmax : 1 ≤ maxSeq := by decide
  refine ⟨?_, ?_⟩
  · rw [hseq]
    split <;> omega
  · intro row hrow
    constructor
    · rcases h.below row hrow with hlt | ⟨hrow, hstate⟩
      · left
        rw [hseq, if_neg (by omega)]
        exact hlt
      · right
        rw [hseq, if_neg (by omega)]
        exact ⟨hrow, hstate⟩
    · cases hterminal : row.content.isTerminal with
      | false => rfl
      | true =>
          have hdone := h.done row hrow hterminal
          rw [hopen] at hdone
          cases hdone

/-- The new state covers the log with the envelope it was allocated for. -/
theorem ThreadSeqState.Covers.advance (h : state.Covers log) {content : Content} {seq : Nat}
    (halloc : allocate state content.isTerminal = .ok (seq, next)) :
    next.Covers (log ++ [⟨thread, seq, content⟩]) := by
  obtain ⟨hle, hlog⟩ := h.handOut halloc
  obtain ⟨-, -, rfl⟩ := allocate_ok halloc
  have hseq : SeqBefore seq (min (seq + 1) maxSeq) := by
    unfold SeqBefore
    omega
  refine ⟨Nat.min_le_right _ _, ?_, ?_⟩
  · intro row hrow
    rcases List.mem_append.mp hrow with hold | hnew
    · have hbefore := (hlog row hold).1
      unfold SeqBefore at hbefore hseq ⊢
      show _ < min (seq + 1) maxSeq ∨ _ ∧ min (seq + 1) maxSeq = _
      omega
    · obtain rfl := List.mem_singleton.mp hnew
      exact hseq
  · intro row hrow hterminal
    rcases List.mem_append.mp hrow with hold | hnew
    · rw [(hlog row hold).2] at hterminal
      cases hterminal
    · obtain rfl := List.mem_singleton.mp hnew
      exact hterminal

end States

/-! ## The invariant -/

/-- What the disk has, at every moment. -/
structure Barrier.OnDisk (st : Barrier) : Prop where
  files : ∀ s t state, st.files (watermarkPath s t) = some state → state.Covers (st.log s t)
  covered : ∀ s t, st.files (watermarkPath s t) = none → st.log s t = []
  order : ∀ s t, (st.log s t).Pairwise (fun a b => SeqBefore a.seq b.seq ∧ a.content.isTerminal = false)

/-- Between two emits the memory covers the log as well. -/
structure Barrier.Inv (st : Barrier) : Prop where
  disk : st.OnDisk
  memory : ∀ s t state, st.threadSeq s t = some state → state.Covers (st.log s t)

section Effects

variable {st : Barrier} {session thread : String} {state : ThreadSeqState} {rest : List FileEffect}

theorem effects_append (xs ys : List FileEffect) : st.effects (xs ++ ys) = (st.effects xs).effects ys :=
  List.foldl_append

theorem effects_threadSeq (es : List FileEffect) : (st.effects es).threadSeq = st.threadSeq := by
  induction es generalizing st with
  | nil => rfl
  | cons e es ih =>
      rw [Barrier.effects, List.foldl_cons]
      refine (@ih (st.effect e)).trans ?_
      cases e <;> rfl

theorem remember_self (st : Barrier) (session thread : String) (state : ThreadSeqState) :
    (st.remember session thread state).threadSeq session thread = some state :=
  if_pos ⟨rfl, rfl⟩

theorem log_append (row : Envelope) (s t : String) : (st.effect (.append session row)).log s t =
    if session = s ∧ row.thread = t then st.log s t ++ [row] else st.log s t := by
  show ((st.emitted ++ [(session, row)]).filter _).map Prod.snd = _
  rw [List.filter_append, List.map_append]
  split
  · next hkey => rw [List.filter_cons_of_pos (by simpa using hkey)]; rfl
  · next hkey => rw [List.filter_cons_of_neg (by simpa using hkey)]; exact List.append_nil _

/-- A watermark is written. -/
theorem effects_persist : st.effects (Barrier.persist session thread state) = { st with
    tmp := fun p => if p = watermarkPath session thread then none
      else if p = watermarkPath session thread then some state else st.tmp p
    files := fun p => if p = watermarkPath session thread then some state else st.files p } := by
  show (st.effect (.writeTmp (watermarkPath session thread) state)).effect (.rename (watermarkPath session thread)) = _
  simp only [Barrier.effect, if_true]

theorem Barrier.OnDisk.persist (h : st.OnDisk) (hcovers : state.Covers (st.log session thread)) :
    (st.effects (Barrier.persist session thread state)).OnDisk := by
  rw [effects_persist]
  refine ⟨?_, ?_, h.order⟩
  · intro s t found hfound
    change (if watermarkPath s t = watermarkPath session thread then some state
      else st.files (watermarkPath s t)) = some found at hfound
    split at hfound
    · next hpath =>
        obtain ⟨rfl, rfl⟩ := watermarkPath_injective hpath
        obtain rfl := Option.some.inj hfound
        exact hcovers
    · exact h.files s t found hfound
  · intro s t hnone
    change (if watermarkPath s t = watermarkPath session thread then some state
      else st.files (watermarkPath s t)) = none at hnone
    split at hnone
    · cases hnone
    · exact h.covered s t hnone

/-- A crash while a watermark is written leaves the old file or the new one. -/
theorem Barrier.OnDisk.persist_take (h : st.OnDisk)
    (hrest : ∀ k, ((st.effects (Barrier.persist session thread state)).effects (rest.take k)).OnDisk) :
    ∀ k, (st.effects ((Barrier.persist session thread state ++ rest).take k)).OnDisk
  | 0 => h
  | 1 => ⟨h.files, h.covered, h.order⟩
  | k + 2 => hrest k

/-- An envelope is appended that the watermark covers already. -/
theorem Barrier.OnDisk.append (h : st.OnDisk) {row : Envelope}
    (hfile : ∀ state, st.files (watermarkPath session row.thread) = some state →
      state.Covers (st.log session row.thread ++ [row]))
    (hsome : st.files (watermarkPath session row.thread) ≠ none)
    (hlast : ∀ old ∈ st.log session row.thread, SeqBefore old.seq row.seq ∧ old.content.isTerminal = false) :
    (st.effect (.append session row)).OnDisk := by
  refine ⟨?_, ?_, ?_⟩
  · intro s t found hfound
    rw [log_append]
    split
    · next hkey =>
        obtain ⟨rfl, rfl⟩ := hkey
        exact hfile found hfound
    · exact h.files s t found hfound
  · intro s t hnone
    rw [log_append]
    split
    · next hkey =>
        obtain ⟨rfl, rfl⟩ := hkey
        exact absurd hnone hsome
    · exact h.covered s t hnone
  · intro s t
    rw [log_append]
    split
    · next hkey =>
        obtain ⟨rfl, rfl⟩ := hkey
        refine List.pairwise_append.mpr ⟨h.order _ _, List.pairwise_singleton _ _, ?_⟩
        intro old hold new hnew
        obtain rfl := List.mem_singleton.mp hnew
        exact hlast old hold
    · exact h.order s t

end Effects

/-! ## One emit -/

section Step

variable {st : Barrier} {session thread : String} {content : Content} {ring retained : List Envelope}

theorem Barrier.Inv.current (h : st.Inv) : (st.current session thread ring retained).Covers (st.log session thread) := by
  unfold Barrier.current
  split
  · next state hmem => exact h.memory session thread state hmem
  · cases hfile : st.files (watermarkPath session thread) with
    | none =>
        rw [h.disk.covered session thread hfile]
        exact covers_scan ring retained
    | some state => exact (h.disk.files session thread state hfile).recover ring retained

/-- What an emit does, wherever it is stopped. -/
structure Barrier.Emitted (st : Barrier) (session thread : String) (out : ThreadSeqState × List FileEffect) :
    Prop where
  disk : ∀ k, (st.effects (out.2.take k)).OnDisk
  covers : out.1.Covers ((st.effects out.2).log session thread)
  frame : ∀ s t, ¬(session = s ∧ thread = t) → (st.effects out.2).log s t = st.log s t

theorem Barrier.Inv.emission (h : st.Inv) :
    st.Emitted session thread (st.emission session thread content ring retained) := by
  have hcovers := @Barrier.Inv.current st session thread ring retained h
  unfold Barrier.emission
  simp only
  split
  · -- the barrier drops the envelope
    refine ⟨?_, hcovers, fun _ _ _ => rfl⟩
    intro k
    rw [List.take_nil]
    exact h.disk
  · next seq next halloc =>
      have hlog := (hcovers.handOut halloc).2
      have hnext : next.Covers (st.log session thread ++ [⟨thread, seq, content⟩]) := hcovers.advance halloc
      have hbefore : next.Covers (st.log session thread) :=
        ⟨hnext.fits, fun row hrow => hnext.below row (List.mem_append_left _ hrow),
          fun row hrow => hnext.done row (List.mem_append_left _ hrow)⟩
      -- the watermark, then the envelope
      let st₁ := st.effects (Barrier.persist session thread next)
      have hst₁ : st₁.OnDisk := h.disk.persist hbefore
      have hfiles₁ : st₁.files (watermarkPath session thread) = some next := by
        show (st.effects (Barrier.persist session thread next)).files _ = _
        rw [effects_persist]
        exact if_pos rfl
      have hlog₁ : st₁.log = st.log := by
        show (st.effects (Barrier.persist session thread next)).log = _
        rw [effects_persist]
        rfl
      let st₂ := st₁.effect (.append session ⟨thread, seq, content⟩)
      have hst₂ : st₂.OnDisk := by
        refine hst₁.append ?_ ?_ ?_
        · intro state hstate
          obtain rfl := Option.some.inj (hfiles₁.symm.trans hstate)
          rw [hlog₁]
          exact hnext
        · rw [hfiles₁]
          exact Option.some_ne_none next
        · rw [hlog₁]
          exact hlog
      have hlog₂ : st₂.log session thread = st.log session thread ++ [⟨thread, seq, content⟩] := by
        rw [log_append, if_pos ⟨rfl, rfl⟩, hlog₁]
      have hframe₂ : ∀ s t, ¬(session = s ∧ thread = t) → st₂.log s t = st.log s t := by
        intro s t hkey
        rw [log_append, if_neg hkey, hlog₁]
      have hone : ∀ k, (st₁.effects ([FileEffect.append session ⟨thread, seq, content⟩].take k)).OnDisk
        | 0 => hst₁
        | k + 1 => by
            rw [List.take_succ_cons, List.take_nil]
            exact hst₂
      split
      · refine ⟨h.disk.persist_take hone, ?_, hframe₂⟩
        rw [← hlog₂] at hnext
        exact hnext
      · next owned howned =>
          -- the watermark once more, with the new owner
          obtain ⟨identity, -, hupdate⟩ := Option.bind_eq_some_iff.mp howned
          obtain ⟨hseq, hcompleted⟩ := updateOwner_keeps hupdate
          have howned₂ : ({ owned with assistantOwnerSeq := some seq } : ThreadSeqState).Covers
              (st₂.log session thread) := by
            rw [hlog₂]
            exact hnext.congr hseq hcompleted
          have hlast : ∀ k, (st₂.effects ((Barrier.persist session thread
              { owned with assistantOwnerSeq := some seq }).take k)).OnDisk := by
            intro k
            rw [← List.append_nil (Barrier.persist _ _ _)]
            refine hst₂.persist_take ?_ k
            intro k
            rw [List.take_nil]
            exact hst₂.persist howned₂
          have hlog₃ : ∀ s t, (st₂.effects (Barrier.persist session thread
              { owned with assistantOwnerSeq := some seq })).log s t = st₂.log s t := by
            intro s t
            rw [effects_persist]
            rfl
          refine ⟨?_, ?_, ?_⟩
          · intro k
            rw [List.append_assoc]
            refine h.disk.persist_take ?_ k
            intro k
            cases k with
            | zero => exact hst₁
            | succ k => exact hlast k
          · rw [effects_append]
            show ThreadSeqState.Covers _ ((st₂.effects _).log session thread)
            rw [hlog₃]
            exact howned₂
          · intro s t hkey
            rw [effects_append]
            exact (hlog₃ s t).trans (hframe₂ s t hkey)

/-- **The step lemma**, with the crash at any point. -/
theorem Barrier.Inv.step (h : st.Inv) (e : Emit) : (st.step e).Inv := by
  have hout := @Barrier.Inv.emission st e.session e.thread e.content e.ring e.retained h
  unfold Barrier.step
  cases e.crash with
  | some k =>
      refine ⟨⟨(hout.disk k).files, (hout.disk k).covered, (hout.disk k).order⟩, ?_⟩
      intro s t state hstate
      cases hstate
  | none =>
      have hdisk := hout.disk (st.emission e.session e.thread e.content e.ring e.retained).2.length
      rw [List.take_length] at hdisk
      refine ⟨⟨hdisk.files, hdisk.covered, hdisk.order⟩, ?_⟩
      intro s t state hstate
      change (if s = e.session ∧ t = e.thread
        then some (st.emission e.session e.thread e.content e.ring e.retained).1
        else (st.effects (st.emission e.session e.thread e.content e.ring e.retained).2).threadSeq s t) =
          some state at hstate
      split at hstate
      · next hkey =>
          obtain ⟨rfl, rfl⟩ := hkey
          obtain rfl := Option.some.inj hstate
          exact hout.covers
      · next hkey =>
          rw [effects_threadSeq] at hstate
          have hlog := hout.frame s t (fun hboth => hkey ⟨hboth.1.symm, hboth.2.symm⟩)
          have hold := h.memory s t state hstate
          rw [← hlog] at hold
          exact hold

end Step

/-! ## Runs -/

theorem Barrier.start_inv : Barrier.start.Inv := by
  refine ⟨⟨?_, fun _ _ _ => rfl, fun _ _ => List.Pairwise.nil⟩, ?_⟩
  · intro s t state hstate
    cases hstate
  · intro s t state hstate
    cases hstate

theorem Barrier.Inv.run : ∀ {es : List Emit} {st : Barrier}, st.Inv → (st.run es).Inv := by
  intro es
  induction es with
  | nil => exact fun h => h
  | cons e es ih => exact fun h => ih (h.step e)

/-- Of a list in which nothing is behind a terminal, at most one is terminal. -/
theorem terminals_le_one {log : List Envelope}
    (h : log.Pairwise (fun a _ => a.content.isTerminal = false)) :
    (log.filter (fun row => row.content.isTerminal)).length ≤ 1 := by
  induction log with
  | nil => exact Nat.zero_le 1
  | cons row log ih =>
      obtain ⟨hrow, hlog⟩ := List.pairwise_cons.mp h
      cases log with
      | nil =>
          rw [List.filter_cons]
          split <;> simp
      | cons next log =>
          rw [List.filter_cons_of_neg (by simp [hrow next List.mem_cons_self])]
          exact ih hlog

/-- **The barrier of a thread**: over its whole history the seqs go up until they reach
`u64::MAX`, at most one envelope ends the turn, and it is the last.  Every thread has a
watermark file of its own. -/
theorem thread_history (es : List Emit) :
    (∀ s t, ((Barrier.start.run es).log s t).Pairwise (fun a b => SeqBefore a.seq b.seq) ∧
      ((Barrier.start.run es).log s t).Pairwise (fun a _ => a.content.isTerminal = false) ∧
      (((Barrier.start.run es).log s t).filter (fun row => row.content.isTerminal)).length ≤ 1) ∧
    (∀ s t s' t', watermarkPath s t = watermarkPath s' t' → s = s' ∧ t = t') := by
  refine ⟨?_, fun _ _ _ _ h => watermarkPath_injective h⟩
  intro s t
  have horder := (@Barrier.Inv.run es _ Barrier.start_inv).disk.order s t
  have hterminal : ((Barrier.start.run es).log s t).Pairwise (fun a _ => a.content.isTerminal = false) :=
    horder.imp And.right
  exact ⟨horder.imp And.left, hterminal, terminals_le_one hterminal⟩

/-! ### The counter at its end -/

/-- An emit that goes through. -/
def plainEmit : Emit where
  session := "s"
  thread := "t"
  content := .v1 .other
  ring := []
  retained := []
  crash := none

/-- The state of the allocator after `n` of them. -/
def plainState (n : Nat) : ThreadSeqState where
  nextSeq := min (n + 1) maxSeq
  completed := false
  assistantSegmentId := none
  assistantOwnerSeq := none

theorem plainState_allocate (n : Nat) :
    allocate (plainState n) false = .ok (min (n + 1) maxSeq, plainState (n + 1)) := by
  have hmax : 1 ≤ maxSeq := by decide
  have hseq : (if (plainState n).nextSeq = 0 then 1 else (plainState n).nextSeq) = min (n + 1) maxSeq := by
    refine if_neg ?_
    show ¬min (n + 1) maxSeq = 0
    omega
  have hnext : min (min (n + 1) maxSeq + 1) maxSeq = min (n + 1 + 1) maxSeq := by omega
  have hopen : (plainState n).completed = false := rfl
  simp only [allocate, hopen, Bool.false_eq_true, if_false, hseq, hnext]
  rfl

/-- The step of one such emit, from a state of the allocator that hands out what
`plainState n` hands out. -/
theorem step_plain {st : Barrier} {n : Nat}
    (halloc : allocate (st.current "s" "t" [] []) false = .ok (min (n + 1) maxSeq, plainState (n + 1))) :
    (st.step plainEmit).threadSeq "s" "t" = some (plainState (n + 1)) ∧
    (st.step plainEmit).log "s" "t" = st.log "s" "t" ++ [⟨"t", min (n + 1) maxSeq, .v1 .other⟩] := by
  have hout : st.emission "s" "t" (.v1 .other) [] [] = (plainState (n + 1),
      Barrier.persist "s" "t" (plainState (n + 1)) ++ [.append "s" ⟨"t", min (n + 1) maxSeq, .v1 .other⟩]) := by
    unfold Barrier.emission
    show (match allocate (st.current "s" "t" [] []) false with
      | .error _ => _
      | .ok (seq, next) => _) = _
    rw [halloc]
    rfl
  have hstep : st.step plainEmit = (st.effects (st.emission "s" "t" (.v1 .other) [] []).2).remember "s" "t"
      (st.emission "s" "t" (.v1 .other) [] []).1 := rfl
  rw [hstep, hout]
  refine ⟨?_, ?_⟩
  · exact remember_self _ "s" "t" (plainState (n + 1))
  · rw [effects_append, effects_persist]
    exact (log_append _ "s" "t").trans (if_pos ⟨rfl, rfl⟩)

theorem run_plain (n : Nat) :
    allocate ((Barrier.start.run (List.replicate n plainEmit)).current "s" "t" [] []) false =
      .ok (min (n + 1) maxSeq, plainState (n + 1)) ∧
    (Barrier.start.run (List.replicate n plainEmit)).log "s" "t" =
      (List.range n).map (fun i => ⟨"t", min (i + 1) maxSeq, .v1 .other⟩) := by
  induction n with
  | zero => exact ⟨rfl, rfl⟩
  | succ n ih =>
      have hrun : Barrier.start.run (List.replicate (n + 1) plainEmit) =
          (Barrier.start.run (List.replicate n plainEmit)).step plainEmit := by
        rw [List.replicate_succ', Barrier.run, List.foldl_append]
        rfl
      obtain ⟨hmem, hlog⟩ := step_plain ih.1
      rw [hrun]
      refine ⟨?_, ?_⟩
      · rw [Barrier.current, hmem]
        exact plainState_allocate (n + 1)
      · rw [hlog, ih.2, List.range_succ, List.map_append]
        rfl

theorem not_pairwise_of_end {n : Nat} (hn : maxSeq < n) :
    ¬((List.range n).map (fun i => (⟨"t", min (i + 1) maxSeq, .v1 .other⟩ : Envelope))).Pairwise
      (fun a b => a.seq < b.seq) := by
  intro h
  have hmax : 1 ≤ maxSeq := by decide
  rw [List.pairwise_map] at h
  have hends := List.pairwise_iff_getElem.mp h (maxSeq - 1) maxSeq
    (by rw [List.length_range]; omega) (by rw [List.length_range]; exact hn) (by omega)
  simp only [List.getElem_range] at hends
  omega

/-- The `2 ^ 64`th envelope of a thread has the seq of the one before. -/
theorem last_seq_again :
    ¬((Barrier.start.run (List.replicate (2 ^ 64) plainEmit)).log "s" "t").Pairwise (fun a b => a.seq < b.seq) := by
  rw [(run_plain (2 ^ 64)).2]
  exact not_pairwise_of_end (by decide)

end Octos.Ui
