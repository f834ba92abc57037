/-
# `Octos.Ui.LedgerCursors` — cursors are not handed out twice

A session in memory is at the highest seq of its log, and so are the cursors handed out.
Under the lock a session that is in memory is never set back: an append takes it as it
is, and the other sections compare its seq with what they bring.

A session that is not in memory is taken as the call has read it before the lock.  When
another thread has appended to it since, and it was evicted again, the call brings an
older head, and there is nothing to compare it with.  Where this does not happen every
cursor is new.
-/
import Octos.Ui.Ledger
import Octos.Ui.LogRuns

namespace Octos.Ui

variable {E : Type}

/-! ## The head of the log -/

/-- The highest seq in the log. -/
def SessionDir.logHead (dir : SessionDir E) : Nat :=
  dir.rows.foldl (fun h row => max h row.seq) 0

/-- The snapshot is not ahead of the log. -/
def SessionDir.Sound (dir : SessionDir E) : Prop :=
  ∀ snap, dir.snapshot = some snap → snap.headSeq ≤ dir.logHead

section Head

variable {cfg : LedgerConfig} {codec : EventCodec E} {dir : SessionDir E} {session : SessionLedger E}

theorem foldl_max_le {rows : List (Row E)} : ∀ {h m : Nat},
    rows.foldl (fun h row => max h row.seq) h ≤ m ↔ h ≤ m ∧ ∀ row ∈ rows, row.seq ≤ m := by
  induction rows with
  | nil => simp
  | cons row rows ih =>
      intro h m
      rw [List.foldl_cons, ih, List.forall_mem_cons, max_le_iff, and_assoc]

theorem logHead_le {m : Nat} : dir.logHead ≤ m ↔ ∀ row ∈ dir.rows, row.seq ≤ m := by
  rw [SessionDir.logHead, foldl_max_le]
  exact and_iff_right (Nat.zero_le m)

/-- What a read of a sound directory says about the head. -/
theorem SessionDir.Sound.head (h : dir.Sound) : dir.head = dir.logHead := by
  have hsnap : (dir.readSnapshot.map SnapshotFile.headSeq).getD 0 ≤ dir.logHead := by
    cases hread : dir.readSnapshot with
    | none => exact Nat.zero_le _
    | some snap =>
        obtain ⟨hsome, -⟩ := Option.filter_eq_some_iff.mp hread
        exact h snap hsome
  refine le_antisymm ?_ ?_
  · exact foldl_max_le.mpr ⟨hsnap, logHead_le.mp le_rfl⟩
  · exact logHead_le.mpr (foldl_max_le.mp le_rfl).2

theorem SessionDir.Sound.read (h : dir.Sound) {after : Option Nat} {fromBeginning : Bool} {snap : DiskSnapshot E}
    (hread : dir.read cfg codec after fromBeginning = some snap) : snap.headSeq = dir.logHead :=
  (read_head hread).trans h.head

theorem rows_writeRow {name : Nat} {row r : Row E} : ∀ {logs : List (LogFile E)},
    r ∈ (writeRow name row logs).flatMap LogFile.rows ↔ r = row ∨ r ∈ logs.flatMap LogFile.rows := by
  intro logs
  induction logs with
  | nil => simp [writeRow]
  | cons file files ih =>
      rw [writeRow]
      split
      · simp
      · split
        · simp only [List.flatMap_cons, List.mem_append, List.mem_singleton]
          tauto
        · simp only [List.flatMap_cons, List.mem_append, ih]
          tauto

theorem append_rows (name : Nat) (event : E) {r : Row E}
    (hr : r ∈ (session.append cfg codec name dir event).2.rows) : r.seq = session.nextSeq + 1 ∨ r ∈ dir.rows := by
  rw [SessionDir.rows, append_logs, rows_writeRow] at hr
  rcases hr with rfl | hr
  · exact Or.inl rfl
  · right
    unfold SessionLedger.kept at hr
    split at hr
    · obtain ⟨file, hfile, hrow⟩ := List.mem_flatMap.mp hr
      exact List.mem_flatMap.mpr ⟨file, List.mem_of_mem_drop hfile, hrow⟩
    · exact hr

/-- After an append the log is one ahead. -/
theorem append_logHead (hsession : session.nextSeq = dir.logHead) (name : Nat) (event : E) :
    (session.append cfg codec name dir event).2.logHead = dir.logHead + 1 := by
  refine le_antisymm ?_ ?_
  · refine logHead_le.mpr ?_
    intro row hrow
    rcases append_rows name event hrow with hnew | hold
    · omega
    · have hle := logHead_le.mp (le_refl dir.logHead) row hold
      omega
  · have hmem : (⟨session.nextSeq + 1, codec.withCursor (session.nextSeq + 1) event⟩ : Row E) ∈
        (session.append cfg codec name dir event).2.rows := by
      rw [SessionDir.rows, append_logs, rows_writeRow]
      exact Or.inl rfl
    have hle := logHead_le.mp (le_refl _) _ hmem
    rw [← hsession]
    exact hle

theorem append_sound (h : dir.Sound) (hsession : session.nextSeq = dir.logHead) (name : Nat) (event : E) :
    (session.append cfg codec name dir event).2.Sound := by
  intro snap hsnap
  rw [append_logHead hsession, ← hsession]
  rw [append_snapshot] at hsnap
  split at hsnap
  · obtain rfl := Option.some.inj hsnap
    exact le_rfl
  · have hle := h snap hsnap
    omega

theorem append_nextSeq (name : Nat) (event : E) :
    (session.append cfg codec name dir event).1.nextSeq = session.nextSeq + 1 := rfl

end Head

/-! ## The invariant -/

/-- What a thread has read is not ahead of the log. -/
def Phase.Held (dirs : String → SessionDir E) : Phase E → Prop
  | .hydrate call snap _ => snap.headSeq ≤ (dirs call.key).logHead
  | .locked call (some snap) => snap.headSeq ≤ (dirs call.key).logHead
  | _ => True

structure Ledger.Inv (st : Ledger E) : Prop where
  sound : ∀ key, (st.dirs key).Sound
  mem : ∀ key session, st.sessions[key]? = some session → session.nextSeq = (st.dirs key).logHead
  bound : ∀ cursor ∈ st.issued, cursor.2 ≤ (st.dirs cursor.1).logHead
  order : st.issued.Pairwise (fun a b => a.1 = b.1 → a.2 < b.2)
  held : ∀ t, (st.calls t).Held st.dirs

/-- The session and the head that a section under the lock starts from when it does not
find the session in memory. -/
def Phase.brings (drop : Bool) : Phase E → Option (String × Nat)
  | .hydrate call snap _ => some (call.key, snap.headSeq)
  | .locked (.append key _) preload => some (key, (preload.map DiskSnapshot.headSeq).getD 0)
  | .locked (.emit key _) preload => if drop then none else some (key, (preload.map DiskSnapshot.headSeq).getD 0)
  | .locked (.snapshot key _) (some snap) => some (key, snap.headSeq)
  | _ => none

/-- A section under the lock that does not find its session in memory brings the head of
the log: nothing was appended since the directory was read. -/
def Ledger.Current (st : Ledger E) : Move E → Prop
  | .advance t _ drop => ∀ found ∈ (st.calls t).brings drop, st.sessions[found.1]? = none →
      found.2 = (st.dirs found.1).logHead
  | _ => True

section Steps

variable {cfg : LedgerConfig} {codec : EventCodec E} {st : Ledger E} {key : String} {t : Nat}

theorem Ledger.Inv.goto (h : st.Inv) {phase : Phase E} (hphase : phase.Held st.dirs) : (st.goto t phase).Inv := by
  refine ⟨h.sound, h.mem, h.bound, h.order, ?_⟩
  intro u
  show Phase.Held st.dirs (if u = t then phase else st.calls u)
  split
  · exact hphase
  · exact h.held u

/-- Sessions may be gone, and the order of use does not matter. -/
theorem Ledger.Inv.shrink (h : st.Inv) {sessions : Table String (SessionLedger E)} (lru : List String)
    (hsub : ∀ (key : String) session, sessions[key]? = some session → st.sessions[key]? = some session) :
    ({ st with sessions := sessions, lru := lru } : Ledger E).Inv :=
  ⟨h.sound, fun key session hs => h.mem key session (hsub key session hs), h.bound, h.order, h.held⟩

theorem Ledger.Inv.touch (h : st.Inv) (key : String) : (st.touchLru key).Inv :=
  h.shrink _ (fun _ _ hs => hs)

theorem Ledger.Inv.makeRoom (h : st.Inv) (key : String) : (st.makeRoom cfg key).Inv := by
  unfold Ledger.makeRoom
  split
  · unfold Ledger.evictLru
    split
    · exact h
    · refine h.shrink _ ?_
      intro key session hs
      rw [Table.get_erase] at hs
      split at hs
      · cases hs
      · exact hs
  · exact h

theorem Ledger.Inv.sweep (h : st.Inv) (victims : List String) : (st.sweepIdle victims).Inv := by
  refine h.shrink _ ?_
  intro key session hs
  rw [Table.get_foldl_erase] at hs
  split at hs
  · cases hs
  · exact hs

theorem makeRoom_dirs : (st.makeRoom cfg key).dirs = st.dirs := by
  unfold Ledger.makeRoom Ledger.evictLru
  split
  · split <;> rfl
  · rfl

theorem makeRoom_issued : (st.makeRoom cfg key).issued = st.issued := by
  unfold Ledger.makeRoom Ledger.evictLru
  split
  · split <;> rfl
  · rfl

theorem makeRoom_calls : (st.makeRoom cfg key).calls = st.calls := by
  unfold Ledger.makeRoom Ledger.evictLru
  split
  · split <;> rfl
  · rfl

/-- A session is put in at the head of its log. -/
theorem Ledger.Inv.setSession (h : st.Inv) {session : SessionLedger E}
    (hsession : session.nextSeq = (st.dirs key).logHead) : (st.setSession key session).Inv := by
  refine ⟨h.sound, ?_, h.bound, h.order, h.held⟩
  intro k s hs
  rcases Table.of_get_insert hs with ⟨rfl, rfl⟩ | ⟨-, hs⟩
  · exact hsession
  · exact h.mem k s hs

/-- A disk snapshot applied under the lock. -/
theorem Ledger.Inv.apply (h : st.Inv) {snap : DiskSnapshot E} (hle : snap.headSeq ≤ (st.dirs key).logHead)
    (hcurrent : st.sessions[key]? = none → snap.headSeq = (st.dirs key).logHead) : (st.apply cfg key snap).Inv := by
  refine (h.makeRoom key).setSession ?_
  rw [makeRoom_dirs]
  cases hmem : st.sessions[key]? with
  | none =>
      have hnew : (SessionLedger.new : SessionLedger E).nextSeq ≤ snap.headSeq := Nat.zero_le _
      rw [Option.getD_none, if_pos hnew]
      exact hcurrent hmem
  | some session =>
      have hsession := h.mem key session hmem
      rw [Option.getD_some]
      split
      · show snap.headSeq = _
        omega
      · exact hsession

/-- **An append** under the lock. -/
theorem Ledger.Inv.appendLocked (h : st.Inv) {preload : Option (DiskSnapshot E)} (name : Nat) (event : E)
    (hcurrent : st.sessions[key]? = none → (preload.map DiskSnapshot.headSeq).getD 0 = (st.dirs key).logHead) :
    (st.appendLocked cfg codec name key preload event).Inv := by
  have htarget : (st.target key preload).nextSeq = (st.dirs key).logHead := by
    unfold Ledger.target
    cases hmem : st.sessions[key]? with
    | some session => exact h.mem key session hmem
    | none =>
        rw [← hcurrent hmem]
        cases preload <;> rfl
  have hroom : (st.makeRoom cfg key).Inv := h.makeRoom key
  have hhead : ∀ k, ((st.dirs k).logHead ≤ (if k = key then
      ((st.target key preload).append cfg codec name (st.dirs key) event).2 else st.dirs k).logHead) := by
    intro k
    split
    · next hk =>
        subst hk
        rw [append_logHead htarget]
        exact Nat.le_succ _
    · exact le_rfl
  have hnew : (if key = key then ((st.target key preload).append cfg codec name (st.dirs key) event).2
      else st.dirs key).logHead = (st.dirs key).logHead + 1 := by
    rw [if_pos rfl, append_logHead htarget]
  have hdirs : (st.appendLocked cfg codec name key preload event).dirs = fun k => if k = key then
      ((st.target key preload).append cfg codec name (st.dirs key) event).2 else st.dirs k := by
    show (fun k => if k = key then _ else (st.makeRoom cfg key).dirs k) = _
    rw [makeRoom_dirs]
  have hissued : (st.appendLocked cfg codec name key preload event).issued =
      st.issued ++ [(key, (st.dirs key).logHead + 1)] := by
    show (st.makeRoom cfg key).issued ++ [(key, (st.target key preload).nextSeq + 1)] = _
    rw [makeRoom_issued, htarget]
  refine ⟨?_, ?_, ?_, ?_, ?_⟩
  · intro k
    rw [hdirs]
    show (if k = key then _ else st.dirs k : SessionDir E).Sound
    split
    · exact append_sound (h.sound key) htarget name event
    · exact h.sound k
  · intro k session hs
    rw [hdirs]
    have hs : ((st.makeRoom cfg key).sessions.insert key
        ((st.target key preload).append cfg codec name (st.dirs key) event).1)[k]? = some session := hs
    rcases Table.of_get_insert hs with ⟨rfl, rfl⟩ | ⟨hne, hs⟩
    · rw [append_nextSeq, htarget]
      exact hnew.symm
    · have hold := hroom.mem k session hs
      rw [makeRoom_dirs] at hold
      show _ = (if k = key then _ else st.dirs k : SessionDir E).logHead
      rw [if_neg (Ne.symm hne)]
      exact hold
  · intro cursor hcursor
    rw [hissued] at hcursor
    rw [hdirs]
    rcases List.mem_append.mp hcursor with hold | hlast
    · exact (h.bound cursor hold).trans (hhead cursor.1)
    · obtain rfl := List.mem_singleton.mp hlast
      exact hnew.ge
  · rw [hissued]
    refine List.pairwise_append.mpr ⟨h.order, List.pairwise_singleton _ _, ?_⟩
    intro a ha b hb hsame
    obtain rfl := List.mem_singleton.mp hb
    have hle := h.bound a ha
    rw [hsame] at hle
    exact Nat.lt_succ_of_le hle
  · intro u
    have hcalls : (st.appendLocked cfg codec name key preload event).calls = st.calls := makeRoom_calls
    rw [hcalls, hdirs]
    have hu := h.held u
    unfold Phase.Held at hu ⊢
    split
    · next call snap bootstrap hphase =>
        rw [hphase] at hu
        exact hu.trans (hhead call.key)
    · next call snap hphase =>
        rw [hphase] at hu
        exact hu.trans (hhead call.key)
    · trivial

/-- A read is not ahead of the log. -/
theorem Ledger.Inv.read_le (h : st.Inv) {after : Option Nat} {fromBeginning : Bool} {snap : DiskSnapshot E}
    (hread : (st.dirs key).read cfg codec after fromBeginning = some snap) :
    snap.headSeq ≤ (st.dirs key).logHead :=
  ((h.sound key).read hread).le

/-- What `ensure_session_loaded` goes on with has read nothing. -/
theorem loaded_held (call : Call E) (dirs : String → SessionDir E) : call.loaded.Held dirs := by
  cases call <;> trivial

theorem Ledger.Inv.ensureStep (h : st.Inv) (call : Call E) : (st.ensureStep t call).Inv := by
  unfold Ledger.ensureStep
  split
  · exact h.goto (loaded_held call st.dirs)
  · split <;> exact h.goto trivial

theorem Ledger.Inv.loadStep (h : st.Inv) (call : Call E) : (st.loadStep cfg codec t call).Inv := by
  unfold Ledger.loadStep
  split
  · exact h.goto trivial
  · next snap hread =>
      split
      · exact h.goto trivial
      · exact h.goto (h.read_le hread)

theorem Ledger.Inv.hydrateStep (h : st.Inv) {call : Call E} {snap : DiskSnapshot E} (bootstrap : Bool)
    (hle : snap.headSeq ≤ (st.dirs call.key).logHead)
    (hcurrent : st.sessions[call.key]? = none → snap.headSeq = (st.dirs call.key).logHead) :
    (st.hydrateStep cfg t call snap bootstrap).Inv := by
  refine ((h.apply hle hcurrent).touch call.key).goto ?_
  split
  · trivial
  · exact loaded_held call _

/-- A snapshot of a session in memory is at the head of the log. -/
theorem Ledger.Inv.writeSnapshot (h : st.Inv) {session : SessionLedger E}
    (hmem : st.sessions[key]? = some session) :
    (st.setDir key (session.writeSnapshot (st.dirs key))).Inv := by
  have hhead : ∀ k, ((st.setDir key (session.writeSnapshot (st.dirs key))).dirs k).logHead =
      (st.dirs k).logHead := by
    intro k
    show (if k = key then session.writeSnapshot (st.dirs key) else st.dirs k).logHead = _
    split
    · next hk =>
        rw [hk]
        rfl
    · rfl
  refine ⟨?_, ?_, ?_, h.order, ?_⟩
  · intro k snap hsnap
    rw [hhead]
    have hsnap : (if k = key then session.writeSnapshot (st.dirs key) else st.dirs k).snapshot = some snap := hsnap
    split at hsnap
    · next hk =>
        subst hk
        obtain rfl := Option.some.inj hsnap
        exact (h.mem k session hmem).le
    · exact h.sound k snap hsnap
  · intro k s hs
    rw [hhead]
    exact h.mem k s hs
  · intro cursor hcursor
    rw [hhead]
    exact h.bound cursor hcursor
  · intro u
    show ((st.calls u).Held _)
    have hu := h.held u
    unfold Phase.Held at hu ⊢
    split
    · next call snap bootstrap hphase =>
        rw [hphase] at hu
        rw [hhead]
        exact hu
    · next call snap hphase =>
        rw [hphase] at hu
        rw [hhead]
        exact hu
    · trivial

theorem Ledger.Inv.bootstrapStep (h : st.Inv) (call : Call E) : (st.bootstrapStep t call).Inv := by
  unfold Ledger.bootstrapStep
  refine Ledger.Inv.goto ?_ (loaded_held call _)
  split
  · exact h
  · next session hmem => exact h.writeSnapshot hmem

theorem Ledger.Inv.lookStep (h : st.Inv) (call : Call E) : (st.lookStep t call).Inv := by
  unfold Ledger.lookStep
  split
  · exact h.goto (by split <;> trivial)
  · exact h.goto (by split <;> trivial)
  · exact h.goto trivial
  · split
    · exact (h.touch _).goto trivial
    · exact h.goto trivial
  · exact h.goto (by split <;> trivial)

theorem Ledger.Inv.readStep (h : st.Inv) (call : Call E) : (st.readStep cfg codec t call).Inv := by
  have hread : ∀ (call : Call E) (after : Option Nat) (fromBeginning : Bool),
      (Phase.locked call ((st.dirs call.key).read cfg codec after fromBeginning)).Held st.dirs := by
    intro call after fromBeginning
    cases hread : (st.dirs call.key).read cfg codec after fromBeginning with
    | none => trivial
    | some snap => exact h.read_le hread
  cases call with
  | snapshot key after => exact h.goto (hread (.snapshot key after) (some after) true)
  | append key event => exact h.goto (hread (.append key event) none false)
  | emit key event => exact h.goto (hread (.emit key event) none false)
  | replay key after => exact h.goto (hread (.replay key after) none false)

/-- **A replay** reads under the lock. -/
theorem Ledger.Inv.replayLocked (h : st.Inv) (after : Nat) : (st.replayLocked cfg codec key after).Inv := by
  unfold Ledger.replayLocked
  simp only
  split
  · exact h.touch key
  · cases hread : (st.dirs key).read cfg codec (some after) false with
    | none => exact h
    | some snap =>
        simp only
        cases snap.oldestSeq with
        | none => exact h
        | some oldestSeq =>
            simp only
            split
            · exact h
            · refine ((h.makeRoom key).setSession ?_).touch key
              rw [makeRoom_dirs]
              exact (h.sound key).read hread

theorem Ledger.Inv.snapshotLocked (h : st.Inv) {preload : Option (DiskSnapshot E)} (after : Nat)
    (hle : ∀ snap, preload = some snap → snap.headSeq ≤ (st.dirs key).logHead)
    (hcurrent : ∀ snap, preload = some snap → st.sessions[key]? = none → snap.headSeq = (st.dirs key).logHead) :
    (st.snapshotLocked cfg key after preload).Inv := by
  unfold Ledger.snapshotLocked
  cases preload with
  | none =>
      dsimp only
      split
      · exact h
      · split
        · exact h
        · exact h.touch key
  | some snap =>
      have happly : (st.apply cfg key snap).Inv := h.apply (hle snap rfl) (hcurrent snap rfl)
      dsimp only
      split
      · exact happly
      · split
        · exact happly
        · exact happly.touch key

theorem Ledger.Inv.lockedStep (h : st.Inv) {call : Call E} {preload : Option (DiskSnapshot E)} (name : Nat)
    (drop : Bool) (hphase : st.calls t = .locked call preload) (hcurrent : st.Current (.advance t name drop)) :
    (st.lockedStep cfg codec name drop t call preload).Inv := by
  have hheld := h.held t
  have hbrings : ∀ key head, (Phase.locked call preload).brings drop = some (key, head) →
      st.sessions[key]? = none → head = (st.dirs key).logHead := by
    intro key head hfound
    rw [← hphase] at hfound
    exact hcurrent (key, head) hfound
  rw [hphase] at hheld
  unfold Ledger.lockedStep
  refine Ledger.Inv.goto ?_ trivial
  cases call with
  | append key event => exact h.appendLocked name event (hbrings key _ rfl)
  | emit key event =>
      cases drop with
      | true => exact h
      | false => exact h.appendLocked name event (hbrings key _ rfl)
  | replay key after => exact h.replayLocked (after.getD 0)
  | snapshot key after =>
      refine h.snapshotLocked after ?_ ?_
      · rintro snap rfl
        exact hheld
      · rintro snap rfl
        exact hbrings key _ rfl

/-- **The step lemma.** -/
theorem Ledger.Inv.step (h : st.Inv) {move : Move E} (hcurrent : st.Current move) : (st.step cfg codec move).Inv := by
  cases move with
  | begin t call =>
      rw [Ledger.step]
      split
      · exact h.goto trivial
      · exact h
  | sweep victims => exact h.sweep victims
  | restart =>
      refine ⟨h.sound, ?_, h.bound, h.order, fun _ => trivial⟩
      intro key session hs
      have hs : (∅ : Table String (SessionLedger E))[key]? = some session := hs
      simp at hs
  | advance t name drop =>
      show (st.advance cfg codec t name drop).Inv
      cases hphase : st.calls t with
      | idle =>
          rw [Ledger.advance, hphase]
          exact h
      | ensure call =>
          rw [Ledger.advance, hphase]
          exact h.ensureStep call
      | load call =>
          rw [Ledger.advance, hphase]
          exact h.loadStep call
      | hydrate call snap bootstrap =>
          have hheld := h.held t
          rw [hphase] at hheld
          rw [Ledger.advance, hphase]
          refine h.hydrateStep bootstrap hheld ?_
          exact hcurrent (call.key, snap.headSeq) (by rw [hphase]; rfl)
      | bootstrap call =>
          rw [Ledger.advance, hphase]
          exact h.bootstrapStep call
      | look call =>
          rw [Ledger.advance, hphase]
          exact h.lookStep call
      | read call =>
          rw [Ledger.advance, hphase]
          exact h.readStep call
      | locked call preload =>
          rw [Ledger.advance, hphase]
          exact h.lockedStep name drop hphase hcurrent

end Steps

/-! ## Runs -/

/-- The cursors of a session are increasing in the order of the lock, and a session in
memory is not behind them. -/
structure Ledger.Cursors (st : Ledger E) : Prop where
  increase : st.issued.Pairwise (fun a b => a.1 = b.1 → a.2 < b.2)
  kept : ∀ cursor ∈ st.issued, ∀ session, st.sessions[cursor.1]? = some session → cursor.2 ≤ session.nextSeq

theorem Ledger.Inv.cursors {st : Ledger E} (h : st.Inv) : st.Cursors := by
  refine ⟨h.order, ?_⟩
  intro cursor hcursor session hmem
  rw [h.mem cursor.1 session hmem]
  exact h.bound cursor hcursor

theorem start_inv : (Ledger.start : Ledger E).Inv := by
  refine ⟨?_, ?_, ?_, List.Pairwise.nil, fun _ => trivial⟩
  · intro key snap hsnap
    cases hsnap
  · intro key session hs
    have hs : (∅ : Table String (SessionLedger E))[key]? = some session := hs
    simp at hs
  · intro cursor hcursor
    cases hcursor

section Moves

variable (cfg : LedgerConfig) (codec : EventCodec E)

/-- The moves, one after another. -/
def Ledger.run (st : Ledger E) (moves : List (Move E)) : Ledger E :=
  moves.foldl (fun st move => st.step cfg codec move) st

/-- Every move of the run is current. -/
def Ledger.AllCurrent : Ledger E → List (Move E) → Prop
  | _, [] => True
  | st, move :: moves => st.Current move ∧ Ledger.AllCurrent (st.step cfg codec move) moves

instance Ledger.decCurrent (st : Ledger E) : (move : Move E) → Decidable (st.Current move)
  | .advance t _ drop => inferInstanceAs (Decidable (∀ found ∈ (st.calls t).brings drop, _))
  | .begin _ _ => inferInstanceAs (Decidable True)
  | .sweep _ => inferInstanceAs (Decidable True)
  | .restart => inferInstanceAs (Decidable True)

instance Ledger.decAllCurrent : (moves : List (Move E)) → (st : Ledger E) → Decidable (st.AllCurrent cfg codec moves)
  | [], _ => inferInstanceAs (Decidable True)
  | move :: moves, st =>
      have := Ledger.decAllCurrent moves (st.step cfg codec move)
      inferInstanceAs (Decidable (st.Current move ∧ (st.step cfg codec move).AllCurrent cfg codec moves))

theorem Ledger.Inv.run : ∀ {moves : List (Move E)} {st : Ledger E}, st.Inv → st.AllCurrent cfg codec moves →
    (st.run cfg codec moves).Inv := by
  intro moves
  induction moves with
  | nil =>
      intro st h _
      exact h
  | cons move moves ih =>
      intro st h hall
      exact ih (h.step hall.1) hall.2

end Moves

/-- **Cursors are not reused**, in any run in which a section under the lock that does
not find its session brings the head of the log. -/
theorem cursors_increase (cfg : LedgerConfig) (codec : EventCodec E) (moves : List (Move E))
    (hall : Ledger.start.AllCurrent cfg codec moves) : (Ledger.start.run cfg codec moves).Cursors :=
  (start_inv.run cfg codec hall).cursors

/-! ### One session at a time in memory -/

/-- A log file is never full. -/
def roomyConfig : LedgerConfig where
  retainedPerSession := 4
  activeSessionCap := 1
  rotateBytes := 100
  retainedLogFiles := 4
  snapshotEveryEvents := 4

/-- A call from its beginning to the lock, and its section under the lock. -/
def toLock (t : Nat) (call : Call Nat) : List (Move Nat) :=
  [.begin t call, .advance t 0 false, .advance t 0 false, .advance t 0 false]

def underLock (t : Nat) : Move Nat :=
  .advance t t false

/-- `"a"`, then `"b"`, which evicts it, then `"a"` again. -/
def calmMoves : List (Move Nat) :=
  toLock 1 (.append "a" 10) ++ [underLock 1] ++ toLock 2 (.append "b" 20) ++ [underLock 2] ++
    toLock 1 (.append "a" 30) ++ [underLock 1]

theorem cursors_increase_calm :
    (Ledger.start.run roomyConfig sampleCodec calmMoves).issued = [("a", 1), ("b", 1), ("a", 2)] ∧
    (Ledger.start.run roomyConfig sampleCodec calmMoves).Cursors :=
  ⟨by decide, cursors_increase roomyConfig sampleCodec calmMoves (by decide)⟩

/-- The first thread has read the directory of `"a"` when the second appends to it and
the third has it evicted. -/
def staleMoves : List (Move Nat) :=
  toLock 1 (.append "a" 10) ++ toLock 2 (.append "a" 20) ++ [underLock 2] ++
    toLock 3 (.append "b" 30) ++ [underLock 3, underLock 1]

/-- The first cursor of `"a"` is handed out twice. -/
theorem cursor_handed_out_twice :
    (Ledger.start.run roomyConfig sampleCodec staleMoves).issued = [("a", 1), ("b", 1), ("a", 1)] ∧
    ¬(Ledger.start.run roomyConfig sampleCodec staleMoves).Cursors := by
  have hissued : (Ledger.start.run roomyConfig sampleCodec staleMoves).issued = [("a", 1), ("b", 1), ("a", 1)] := by
    rfl
  refine ⟨hissued, ?_⟩
  intro h
  have hincrease := h.increase
  rw [hissued] at hincrease
  revert hincrease
  decide

end Octos.Ui
