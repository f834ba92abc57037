/-
# `Octos.Ui.LogSteps` — what the calls on a session are made of

Every call is a few small steps, and there are five of them: an append to the session in
memory, the first append of all, a session put in from disk, a snapshot written from
memory, and a session that leaves memory.  What every small step keeps, every run keeps.
-/
import Octos.Ui.LogRuns

namespace Octos.Ui

variable {E : Type}

/-- A small step. -/
inductive Store.Small (cfg : LedgerConfig) (codec : EventCodec E) : Store E → Store E → Prop where
  | put {st : Store E} {session : SessionLedger E} (event : E) (hmem : st.mem = some session) :
      Small cfg codec st (st.put cfg codec session event)
  | first {st : Store E} (event : E) (hread : st.dir.read cfg codec none false = none) :
      Small cfg codec st (st.put cfg codec SessionLedger.new event)
  | hydrate {st : Store E} {after : Option Nat} {fromBeginning : Bool} {snap : DiskSnapshot E}
      (hread : st.dir.read cfg codec after fromBeginning = some snap) :
      Small cfg codec st { st with mem := some snap.hydrate }
  | writeSnapshot {st : Store E} {session : SessionLedger E} (hmem : st.mem = some session) :
      Small cfg codec st { st with dir := session.writeSnapshot st.dir }
  | leave {st : Store E} (indexed reconciled : Bool) :
      Small cfg codec st { st with mem := none, indexed := indexed, reconciled := reconciled }
  | mark {st : Store E} : Small cfg codec st { st with reconciled := true }

/-- Small steps, one after another. -/
abbrev Store.Steps (cfg : LedgerConfig) (codec : EventCodec E) : Store E → Store E → Prop :=
  Relation.ReflTransGen (Store.Small cfg codec)

section Calls

variable {cfg : LedgerConfig} {codec : EventCodec E} {orphans : List (Row E) → List E} {st : Store E}

theorem putAll_steps : ∀ (events : List E) (st : Store E), Store.Steps cfg codec st (st.putAll cfg codec events) := by
  intro events
  induction events with
  | nil => exact fun _ => .refl
  | cons event events ih =>
      intro st
      cases hmem : st.mem with
      | none =>
          simp only [Store.putAll, hmem]
          exact .refl
      | some session =>
          simp only [Store.putAll, hmem]
          exact .head (.put event hmem) (ih _)

theorem preload_steps (after : Nat) : Store.Steps cfg codec st (st.preload cfg codec after) := by
  unfold Store.preload
  split
  · split
    · exact .refl
    · next snap hread =>
        dsimp only
        split
        · exact .single (.hydrate hread)
        · next hahead =>
            -- the session in memory is ahead, and stays
            cases hmem : st.mem with
            | none =>
                rw [hmem] at hahead
                exact absurd (Nat.zero_le _) hahead
            | some session =>
                have hsame : ({ st with mem := some (st.mem.getD SessionLedger.new) } : Store E) = st := by
                  rw [hmem, Option.getD_some, ← hmem]
                rw [hmem] at hsame
                rw [hsame]
  · exact .refl

theorem reconcile_steps : Store.Steps cfg codec st (st.reconcile cfg codec orphans) := by
  unfold Store.reconcile
  dsimp only
  split
  · exact preload_steps 0
  · exact (preload_steps 0).trans (putAll_steps _ _)

theorem load_steps {snap : DiskSnapshot E} (hread : st.dir.read cfg codec none false = some snap) :
    Store.Steps cfg codec st (st.load cfg snap) := by
  unfold Store.load
  split
  · exact .tail (.single (.hydrate hread)) (.writeSnapshot rfl)
  · exact .single (.hydrate hread)

theorem closeOrphans_steps : Store.Steps cfg codec st (st.closeOrphans cfg codec orphans) := by
  unfold Store.closeOrphans
  split
  · exact .single .mark
  · exact .tail reconcile_steps .mark

theorem ensureLoaded_steps : Store.Steps cfg codec st (st.ensureLoaded cfg codec orphans) := by
  rcases @ensureLoaded_cases E cfg codec orphans st with heq | ⟨snap, hread, heq⟩
  · rw [heq]
  · rw [heq]
    exact (load_steps hread).trans closeOrphans_steps

theorem append_steps (event : E) : Store.Steps cfg codec st (st.append cfg codec orphans event) := by
  refine (@ensureLoaded_steps E cfg codec orphans st).trans ?_
  unfold Store.append
  dsimp only
  split
  · next session hmem => exact .single (.put event hmem)
  · split
    · next snap hread =>
        -- the session is put in, and the record is appended to it
        exact .tail (.single (.hydrate hread)) (Store.Small.put event rfl)
    · next hread => exact .single (.first event hread)

theorem replayFromDisk_steps (after : Nat) : Store.Steps cfg codec st (st.replayFromDisk cfg codec after).2 := by
  unfold Store.replayFromDisk
  split
  · exact .refl
  · next snap hread =>
      dsimp only
      split
      · exact .refl
      · split
        · exact .refl
        · split
          · exact .refl
          · exact .single (.hydrate hread)

/-- **A call** is a sequence of small steps. -/
theorem step_steps (op : StoreOp E) : Store.Steps cfg codec st (st.step cfg codec orphans op) := by
  cases op with
  | append event => exact append_steps event
  | replay after =>
      have hload := @ensureLoaded_steps E cfg codec orphans st
      rcases @replay_cases E cfg codec orphans st after with ⟨session, -, -, -, heq⟩ | heq
      · rw [Store.step, heq]
        exact hload
      · rw [Store.step, heq]
        exact hload.trans (replayFromDisk_steps after)
  | snapshot after => exact ensureLoaded_steps.trans (preload_steps after)
  | evict => exact .single (.leave _ _)
  | restart => exact .single (.leave _ _)

/-- And so is a run. -/
theorem run_steps (ops : List (StoreOp E)) : ∀ st : Store E,
    Store.Steps cfg codec st (st.run cfg codec orphans ops) := by
  induction ops with
  | nil => exact fun _ => .refl
  | cons op ops ih => exact fun st => (step_steps op).trans (ih _)

/-! ## What an append does to the rows -/

theorem put_appended {session : SessionLedger E} {event : E} :
    (st.put cfg codec session event).appended =
      st.appended ++ [⟨session.nextSeq + 1, codec.withCursor (session.nextSeq + 1) event⟩] :=
  rfl

/-- What was appended stays. -/
theorem small_appended {st' : Store E} (h : Store.Small cfg codec st st') : st.appended <+: st'.appended := by
  cases h with
  | put | first => exact List.prefix_append _ _
  | hydrate | writeSnapshot | leave | mark => exact List.prefix_rfl

theorem steps_appended {st' : Store E} (h : Store.Steps cfg codec st st') : st.appended <+: st'.appended := by
  induction h with
  | refl => exact List.prefix_rfl
  | tail _ hstep ih => exact ih.trans (small_appended hstep)

theorem length_writeRow (name : Nat) (row : Row E) : ∀ logs : List (LogFile E),
    ((writeRow name row logs).flatMap LogFile.rows).length = (logs.flatMap LogFile.rows).length + 1 := by
  intro logs
  induction logs with
  | nil => rfl
  | cons file files ih =>
      rw [writeRow]
      split
      · rw [List.flatMap_cons, List.length_append]
        exact Nat.add_comm _ _
      · split
        · rw [List.flatMap_cons, List.flatMap_cons, List.length_append, List.length_append, List.length_append]
          exact Nat.add_right_comm _ _ _
        · rw [List.flatMap_cons, List.flatMap_cons, List.length_append, List.length_append, ih]
          rfl

/-- A rotation only takes files away. -/
theorem kept_suffix (session : SessionLedger E) (logs : List (LogFile E)) :
    (session.kept cfg logs).flatMap LogFile.rows <:+ logs.flatMap LogFile.rows := by
  unfold SessionLedger.kept
  split
  · refine ⟨(logs.take (logs.length - (cfg.retainedLogFiles - 1))).flatMap LogFile.rows, ?_⟩
    rw [trimLogs, ← List.flatMap_append, List.take_append_drop]
  · exact List.suffix_rfl

/-- How many of the rows are in no log file any more. -/
def Store.lost (st : Store E) : Nat :=
  st.appended.length - st.dir.rows.length

/-- The rows after an append. -/
theorem put_lost {session : SessionLedger E} {event : E} :
    (st.put cfg codec session event).lost =
      st.appended.length - ((session.kept cfg st.dir.logs).flatMap LogFile.rows).length := by
  have hlogs : (st.put cfg codec session event).dir.logs = _ := append_logs st.clock st.dir event
  rw [Store.lost, put_appended, SessionDir.rows, hlogs, length_writeRow, List.length_append, List.length_singleton]
  exact Nat.add_sub_add_right _ _ _

/-- A row that is gone stays gone. -/
theorem small_lost {st' : Store E} (h : Store.Small cfg codec st st') : st.lost ≤ st'.lost := by
  have hput : ∀ (session : SessionLedger E) (event : E), st.lost ≤ (st.put cfg codec session event).lost := by
    intro session event
    rw [put_lost]
    exact Nat.sub_le_sub_left (kept_suffix session st.dir.logs).length_le _
  cases h with
  | put event => exact hput _ event
  | first event => exact hput _ event
  | hydrate | writeSnapshot | leave | mark => exact Nat.le_refl _

end Calls

end Octos.Ui
