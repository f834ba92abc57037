/-
# `Octos.Fleet.Effect` — what a committed transaction can do to the tables

Every transaction of the kernel store changes the four state tables in one of
a few elementary ways, or in a short sequence of them.  This module names those
ways.  It is the abstract side of the development: an `Effect` says what
happened to the rows and under which guard, not how the transaction found out.

Most effects move one child.  `ChildMove` is the state machine of a child with
the attempt it is working on and the budget of its fleet:

    Planned ─promote→ Ready ─launch→ Launching ─run→ Running ─complete→ Succeeded | Failed
                        ↑                                   └escalate→ Blocked ─deny→ Failed
                        └────────────── grant ─────────────────────────┘

with `reclaim` leading from a live state back to `Ready`, or to `Cancelled`
under a terminal fleet.  A re-plan is the one effect that rewrites a whole
fleet; `Replanned` describes it row by row.

What the invariants need to know about a move is stated here once, as facts
about rows, and lifted to the tables in `Octos.Fleet.Invariant`.
-/
import Octos.Fleet.Ops

namespace Octos.Fleet

/-- Which elementary change an effect is, and whom it concerns. -/
inductive Kind
  | newFleet
  | newPlan
  | newChild (childId : String)
  | promote (childId : String)
  | launch (childId attemptId : String)
  | run (childId attemptId : String)
  | complete (childId attemptId : String) (accepted : Bool) (actual reserved : U64)
  | escalate (childId attemptId : String) (actual reserved : U64)
  | grant (childId : String)
  | deny (childId : String)
  | reclaim (childId attemptId : String) (live : Bool)
  | edit
  | cancel
  | replan

/-! ## The state machine of a child -/

/-- The status of the attempt a child points at, read off the child. -/
def pointee : ChildStatus → Option AttemptStatus
  | .launching => some .leased
  | .running => some .running
  | .succeeded | .failed => some .done
  | _ => none

/-- The states in which every dependency must have succeeded. -/
def ChildStatus.gated : ChildStatus → Bool
  | .ready | .launching | .running | .blocked => true
  | _ => false

/-- One move: the fleet and child rows, the attempt slot before, and all three
after.  `met` is the dependency test of a promotion. -/
inductive ChildMove (met : Prop) (fl : FleetRecord) (ch : FleetChildRecord) :
    Kind → Option Attempt → FleetRecord → FleetChildRecord → Option Attempt → Prop
  | promote (nowMs : U64) (hlive : fleetIsLive fl = true) (hst : ch.status = .planned)
      (hmet : met) :
      ChildMove met fl ch (.promote ch.childId) none fl
        { ch with status := .ready, updatedAtMs := nowMs } none
  | launch (att : Attempt) {reserved nowMs : U64} {used : U32}
      (hlive : fleetIsLive fl = true) (hst : ch.status = .ready)
      (hcur : ch.currentAttemptId = none)
      (hadm : fl.budget.admits att.reservedTokens = true)
      (hres : checkedAdd fl.budget.tokensReserved att.reservedTokens = some reserved)
      (hatt : att.status = .leased) (hgen : att.generation = fl.generation) :
      ChildMove met fl ch (.launch ch.childId att.attemptId) none
        { fl with budget := { fl.budget with tokensReserved := reserved }, updatedAtMs := nowMs }
        { ch with
          status := .launching, currentAttemptId := some att.attemptId, attemptsUsed := used,
          updatedAtMs := nowMs }
        (some att)
  | run {att : Attempt} (hlive : fleetIsLive fl = true) (hst : ch.status = .launching)
      (hcur : ch.currentAttemptId = some att.attemptId) (hatt : att.status = .leased) :
      ChildMove met fl ch (.run ch.childId att.attemptId) (some att) fl
        { ch with status := .running } (some { att with status := .running })
  | complete {att : Attempt} {actual committed reserved childCommitted nowMs : U64}
      (verdict : AcceptanceVerdict) (snapshot : ChildResultSnapshot)
      (hlive : fleetIsLive fl = true) (hst : ch.status = .running)
      (hcur : ch.currentAttemptId = some att.attemptId) (hatt : att.status = .running)
      (hcom : checkedAdd fl.budget.tokensCommitted actual = some committed)
      (hres : checkedSub fl.budget.tokensReserved att.reservedTokens = some reserved)
      (hchild : checkedAdd ch.tokensCommitted actual = some childCommitted) :
      ChildMove met fl ch
        (.complete ch.childId att.attemptId verdict.isAccepted actual att.reservedTokens)
        (some att) (settleBudget fl committed reserved nowMs)
        { ch with
          status := if verdict.isAccepted then .succeeded else .failed, outcome := some verdict,
          tokensCommitted := childCommitted, updatedAtMs := nowMs }
        (some { att with
          status := .done, resultSnapshot := some snapshot, endedAtMs := some nowMs })
  | escalate {att : Attempt} {actual committed reserved childCommitted nowMs : U64}
      (request : EscalationRequest)
      (hlive : fleetIsLive fl = true) (hst : ch.status = .running)
      (hcur : ch.currentAttemptId = some att.attemptId) (hatt : att.status = .running)
      (hcom : checkedAdd fl.budget.tokensCommitted actual = some committed)
      (hres : checkedSub fl.budget.tokensReserved att.reservedTokens = some reserved)
      (hchild : checkedAdd ch.tokensCommitted actual = some childCommitted) :
      ChildMove met fl ch (.escalate ch.childId att.attemptId actual att.reservedTokens)
        (some att) (settleBudget fl committed reserved nowMs)
        { ch with
          status := .blocked, schemaVersion := schemaVersionCurrent,
          pendingEscalation := some request, currentAttemptId := none,
          tokensCommitted := childCommitted, updatedAtMs := nowMs }
        (some { att with status := .interrupted, endedAtMs := some nowMs })
  | grant (nowMs : U64) (hlive : fleetIsLive fl = true) (hst : ch.status = .blocked) :
      ChildMove met fl ch (.grant ch.childId) none fl
        { ch with
          status := .ready, pendingEscalation := none, currentAttemptId := none,
          updatedAtMs := nowMs } none
  | deny (reason : String) (nowMs : U64) (hlive : fleetIsLive fl = true)
      (hst : ch.status = .blocked) :
      ChildMove met fl ch (.deny ch.childId) none fl
        { ch with
          status := .failed, outcome := some (.rejected reason), pendingEscalation := none,
          currentAttemptId := none, updatedAtMs := nowMs } none
  | reclaim {att : Attempt} {reserved nowMs : U64}
      (hst : ch.status = .launching ∨ ch.status = .running)
      (hcur : ch.currentAttemptId = some att.attemptId) (hatt : att.status.isLive = true)
      (hres : checkedSub fl.budget.tokensReserved att.reservedTokens = some reserved) :
      ChildMove met fl ch (.reclaim ch.childId att.attemptId (fleetIsLive fl)) (some att)
        { fl with budget := { fl.budget with tokensReserved := reserved }, updatedAtMs := nowMs }
        { ch with
          status := if fleetIsLive fl then .ready else .cancelled, currentAttemptId := none,
          updatedAtMs := nowMs }
        (some (att.interrupt nowMs))

/-! ## What a move keeps -/

/-- The columns of a fleet row no move writes. -/
structure FleetKept (fl fl' : FleetRecord) : Prop where
  fleetId : fl'.fleetId = fl.fleetId
  schemaVersion : fl'.schemaVersion = fl.schemaVersion
  status : fl'.status = fl.status
  generation : fl'.generation = fl.generation
  tokenBudget : fl'.budget.tokenBudget = fl.budget.tokenBudget

theorem FleetKept.isLive {fl fl' : FleetRecord} (h : FleetKept fl fl') :
    fleetIsLive fl' = fleetIsLive fl := by
  simp only [fleetIsLive, h.status]

/-- The columns of a child row no move writes. -/
structure ChildKept (ch ch' : FleetChildRecord) : Prop where
  fleetId : ch'.fleetId = ch.fleetId
  childId : ch'.childId = ch.childId
  deps : ch'.deps = ch.deps
  schemaVersion : ch.schemaVersion = schemaVersionCurrent → ch'.schemaVersion = schemaVersionCurrent

/-- The columns of an attempt row nothing ever writes after the launch. -/
structure AttemptKept (a a' : Attempt) : Prop where
  fleetId : a'.fleetId = a.fleetId
  childId : a'.childId = a.childId
  attemptId : a'.attemptId = a.attemptId
  schemaVersion : a'.schemaVersion = a.schemaVersion
  generation : a'.generation = a.generation
  reservedTokens : a'.reservedTokens = a.reservedTokens

theorem AttemptKept.refl (a : Attempt) : AttemptKept a a :=
  ⟨rfl, rfl, rfl, rfl, rfl, rfl⟩

namespace ChildMove

variable {met : Prop} {fl fl' : FleetRecord} {ch ch' : FleetChildRecord} {k : Kind}
  {o o' : Option Attempt}

theorem fleetKept (h : ChildMove met fl ch k o fl' ch' o') : FleetKept fl fl' := by
  cases h <;> exact ⟨rfl, rfl, rfl, rfl, rfl⟩

theorem childKept (h : ChildMove met fl ch k o fl' ch' o') : ChildKept ch ch' := by
  cases h <;> first | exact ⟨rfl, rfl, rfl, id⟩ | exact ⟨rfl, rfl, rfl, fun _ => rfl⟩

/-- The slot keeps its attempt: an existing row is updated in place, and only a
launch fills an empty slot. -/
theorem attemptKept (h : ChildMove met fl ch k o fl' ch' o') {a : Attempt} (ho : o = some a) :
    ∃ a', o' = some a' ∧ AttemptKept a a' := by
  cases h <;> cases ho <;> exact ⟨_, rfl, ⟨rfl, rfl, rfl, rfl, rfl, rfl⟩⟩

/-- No move starts from a child that has succeeded. -/
theorem not_succeeded (h : ChildMove met fl ch k o fl' ch' o') : ch.status ≠ .succeeded := by
  cases h <;> simp_all
  next hst _ _ _ => rcases hst with h | h <;> simp [h]

/-- The child's fleet is live, unless recovery is reclaiming. -/
theorem live (h : ChildMove met fl ch k o fl' ch' o') :
    fleetIsLive fl = true ∨ ∃ c a, k = .reclaim c a false := by
  cases h with
  | reclaim =>
      cases hl : fleetIsLive fl with
      | true => exact Or.inl rfl
      | false => exact Or.inr ⟨_, _, rfl⟩
  | _ => exact Or.inl ‹_›

/-- A child is gated after a move only if it was before or was just promoted. -/
theorem gated (h : ChildMove met fl ch k o fl' ch' o') (hg : ch'.status.gated = true) :
    ch.status.gated = true ∨ met := by
  cases h with
  | promote _ _ _ hmet => exact Or.inr hmet
  | launch _ _ hst => exact Or.inl (by simp [hst, ChildStatus.gated])
  | run _ hst => exact Or.inl (by simp [hst, ChildStatus.gated])
  | complete _ _ _ hst => exact Or.inl (by simp [hst, ChildStatus.gated])
  | escalate _ _ hst => exact Or.inl (by simp [hst, ChildStatus.gated])
  | grant _ _ hst => exact Or.inl (by simp [hst, ChildStatus.gated])
  | deny _ _ _ hst => exact Or.inl (by simp [hst, ChildStatus.gated])
  | reclaim hst =>
      left
      rcases hst with h | h <;> simp [h, ChildStatus.gated]

/-! ## Pointer and attempt after a move -/

/-- A pointer the child has after a move names the attempt in the slot, in the
status the child's own status says. -/
theorem pointee_after (h : ChildMove met fl ch k o fl' ch' o')
    (hlink : ∀ a, ch.currentAttemptId = some a → pointee ch.status ≠ none) {a : String}
    (ha : ch'.currentAttemptId = some a) :
    ∃ att', o' = some att' ∧ att'.attemptId = a ∧ pointee ch'.status = some att'.status := by
  cases h with
  | promote _ _ hst => exact absurd (by simp [hst, pointee]) (hlink a ha)
  | launch _ _ _ _ _ _ hatt => exact ⟨_, rfl, by simpa using ha, by simp [pointee, hatt]⟩
  | run _ _ hcur =>
      refine ⟨_, rfl, ?_, by simp [pointee]⟩
      exact Option.some.inj (hcur.symm.trans ha)
  | complete verdict _ _ _ hcur =>
      refine ⟨_, rfl, Option.some.inj (hcur.symm.trans ha), ?_⟩
      cases hv : verdict.isAccepted <;> simp [pointee]
  | escalate => simp at ha
  | grant => simp at ha
  | deny => simp at ha
  | reclaim => simp at ha

/-- A live attempt in the slot after a move is the child's current one. -/
theorem live_after (h : ChildMove met fl ch k o fl' ch' o') {att' : Attempt}
    (ho : o' = some att') (hl : att'.status.isLive = true) :
    ch'.currentAttemptId = some att'.attemptId := by
  cases h with
  | promote => cases ho
  | launch => cases ho; rfl
  | run _ _ hcur => cases ho; exact hcur
  | complete => cases ho; simp at hl
  | escalate => cases ho; simp at hl
  | grant => cases ho
  | deny => cases ho
  | reclaim => cases ho; simp [Attempt.interrupt] at hl

/-- A move works on the attempt its child points at. -/
theorem current_in_slot (h : ChildMove met fl ch k o fl' ch' o')
    (hlink : ∀ a, ch.currentAttemptId = some a → pointee ch.status ≠ none) {a : String}
    (ha : ch.currentAttemptId = some a) : ∃ att, o = some att ∧ att.attemptId = a := by
  cases h with
  | promote _ _ hst => exact absurd (by simp [hst, pointee]) (hlink a ha)
  | launch _ _ _ hcur => rw [hcur] at ha; cases ha
  | run _ _ hcur => exact ⟨_, rfl, Option.some.inj (hcur.symm.trans ha)⟩
  | complete _ _ _ _ hcur => exact ⟨_, rfl, Option.some.inj (hcur.symm.trans ha)⟩
  | escalate _ _ _ hcur => exact ⟨_, rfl, Option.some.inj (hcur.symm.trans ha)⟩
  | grant _ _ hst => exact absurd (by simp [hst, pointee]) (hlink a ha)
  | deny _ _ _ hst => exact absurd (by simp [hst, pointee]) (hlink a ha)
  | reclaim _ hcur => exact ⟨_, rfl, Option.some.inj (hcur.symm.trans ha)⟩

/-- A live attempt in the slot after a move is of the fleet's generation, if
the one before was. -/
theorem generation_after (h : ChildMove met fl ch k o fl' ch' o')
    (hgen : ∀ att, o = some att → att.status.isLive = true → att.generation = fl.generation)
    {att' : Attempt} (ho : o' = some att') (hl : att'.status.isLive = true) :
    att'.generation = fl'.generation := by
  cases h with
  | promote => cases ho
  | launch _ _ _ _ _ _ _ hg => cases ho; exact hg
  | @run att _ _ _ hatt =>
      cases ho
      exact hgen att rfl (by simp [hatt])
  | complete => cases ho; simp at hl
  | escalate => cases ho; simp at hl
  | grant => cases ho
  | deny => cases ho
  | reclaim => cases ho; simp [Attempt.interrupt] at hl

/-! ## The ledgers across a move -/

/-- What an attempt holds of its fleet's reservation. -/
def held (o : Option Attempt) : Nat :=
  match o with
  | some a => if a.status.isLive then a.reservedTokens.toNat else 0
  | none => 0

/-- A move changes the fleet's reservation by what the slot holds. -/
theorem reserved_balance (h : ChildMove met fl ch k o fl' ch' o') :
    fl'.budget.tokensReserved.toNat + held o = fl.budget.tokensReserved.toNat + held o' := by
  cases h with
  | promote => rfl
  | launch _ _ _ _ _ hres hatt =>
      rw [checkedAdd_eq_some] at hres
      simp [held, hatt, hres]
  | run _ _ _ hatt => simp [held, hatt]
  | complete _ _ _ _ _ hatt _ hres =>
      rw [checkedSub_eq_some] at hres
      simp [held, hatt, settleBudget, hres]
  | escalate _ _ _ _ hatt _ hres =>
      rw [checkedSub_eq_some] at hres
      simp [held, hatt, settleBudget, hres]
  | grant => rfl
  | deny => rfl
  | reclaim _ _ hatt hres =>
      rw [checkedSub_eq_some] at hres
      simp [held, hatt, Attempt.interrupt, hres]

/-- A move commits to the fleet what it commits to the child. -/
theorem committed_balance (h : ChildMove met fl ch k o fl' ch' o') :
    fl'.budget.tokensCommitted.toNat + ch.tokensCommitted.toNat =
      fl.budget.tokensCommitted.toNat + ch'.tokensCommitted.toNat := by
  cases h with
  | complete _ _ _ _ _ _ hcom _ hchild =>
      rw [checkedAdd_eq_some] at hcom hchild
      simp only [settleBudget]
      omega
  | escalate _ _ _ _ _ hcom _ hchild =>
      rw [checkedAdd_eq_some] at hcom hchild
      simp only [settleBudget]
      omega
  | _ => rfl

end ChildMove

/-! ## Well-formed rows -/

/-- Which outcome a child of each status carries.  A cancelled child was
removed by a re-plan, which says so, or retired by recovery, which writes no
outcome. -/
def verdictFits : ChildStatus → Option AcceptanceVerdict → Prop
  | .succeeded, o => ∃ v, o = some v ∧ v.isAccepted = true
  | .failed, o => ∃ v, o = some v ∧ v.isAccepted = false
  | .cancelled, o => ∀ v, o = some v → v.isTerminated = true
  | _, o => o = none

/-- A child that is not terminal has no outcome yet. -/
theorem verdictFits_open {st : ChildStatus} {o : Option AcceptanceVerdict}
    (hst : st.isTerminal = false) : verdictFits st o ↔ o = none := by
  cases st <;> first | exact Iff.rfl | simp [ChildStatus.isTerminal] at hst

/-- What every child row satisfies on its own. -/
structure RowOk (ch : FleetChildRecord) : Prop where
  current_of_live : ch.status = .launching ∨ ch.status = .running → ch.currentAttemptId ≠ none
  blocked_iff : ch.status = .blocked ↔ ch.pendingEscalation.isSome = true
  verdict : verdictFits ch.status ch.outcome

theorem RowOk.of_waiting {ch : FleetChildRecord} (hst : ch.status = .ready ∨ ch.status = .planned)
    (hpend : ch.pendingEscalation = none) (hout : ch.outcome = none) : RowOk ch := by
  rcases hst with h | h <;> exact ⟨by simp [h], by simp [h, hpend], by simp [h, hout, verdictFits]⟩

theorem RowOk.outcome_none {ch : FleetChildRecord} (h : RowOk ch)
    (hst : ch.status.isTerminal = false) : ch.outcome = none :=
  (verdictFits_open hst).mp h.verdict

theorem RowOk.pending_none {ch : FleetChildRecord} (h : RowOk ch) (hst : ch.status ≠ .blocked) :
    ch.pendingEscalation = none := by
  cases hp : ch.pendingEscalation with
  | none => rfl
  | some _ => exact absurd (h.blocked_iff.mpr (by simp [hp])) hst

theorem ChildMove.rowOk {met : Prop} {fl fl' : FleetRecord} {ch ch' : FleetChildRecord} {k : Kind}
    {o o' : Option Attempt} (h : ChildMove met fl ch k o fl' ch' o') (hrow : RowOk ch) :
    RowOk ch' := by
  cases h with
  | promote _ _ hst =>
      exact .of_waiting (Or.inl rfl) (hrow.pending_none (by simp [hst]))
        (hrow.outcome_none (by simp [hst, ChildStatus.isTerminal]))
  | launch _ _ hst =>
      refine ⟨by simp, ?_, hrow.outcome_none (by simp [hst, ChildStatus.isTerminal])⟩
      simp [hrow.pending_none (by simp [hst])]
  | run _ hst hc =>
      refine ⟨by simp [hc], ?_, hrow.outcome_none (by simp [hst, ChildStatus.isTerminal])⟩
      simp [hrow.pending_none (by simp [hst])]
  | complete verdict _ _ hst =>
      have hpend := hrow.pending_none (by simp [hst])
      cases hv : verdict.isAccepted with
      | true => exact ⟨by simp, by simp [hpend], ⟨verdict, rfl, hv⟩⟩
      | false => exact ⟨by simp, by simp [hpend], ⟨verdict, rfl, hv⟩⟩
  | escalate _ _ hst =>
      exact ⟨by simp, by simp, hrow.outcome_none (by simp [hst, ChildStatus.isTerminal])⟩
  | grant _ _ hst =>
      exact .of_waiting (Or.inl rfl) rfl
        (hrow.outcome_none (by simp [hst, ChildStatus.isTerminal]))
  | deny => exact ⟨by simp, by simp, ⟨_, rfl, rfl⟩⟩
  | reclaim hst =>
      have hpend : ch.pendingEscalation = none := by
        rcases hst with h | h <;> exact hrow.pending_none (by simp [h])
      have hout : ch.outcome = none := by
        rcases hst with h | h <;> exact hrow.outcome_none (by simp [h, ChildStatus.isTerminal])
      cases hl : fleetIsLive fl with
      | true => exact .of_waiting (Or.inl rfl) hpend hout
      | false => exact ⟨by simp, by simp [hpend], by simp [verdictFits, hout]⟩

theorem genesisStatus_cases (deps : List String) :
    genesisStatus deps = .ready ∧ deps = [] ∨ genesisStatus deps = .planned := by
  unfold genesisStatus
  cases deps <;> simp

theorem readiness_cases (succeeded deps : List String) :
    readiness succeeded deps = .ready ∧ (∀ d ∈ deps, d ∈ succeeded) ∨
      readiness succeeded deps = .planned := by
  unfold readiness
  split
  · next h => exact Or.inl ⟨rfl, by simpa using h⟩
  · exact Or.inr rfl

theorem RowOk.fresh {f c : String} {deps : List String} {st : ChildStatus} {gen nowMs : U64}
    (hst : st = .ready ∨ st = .planned) : RowOk (freshChild f c deps st gen nowMs) :=
  .of_waiting hst rfl rfl

/-- The row of an existing child after a re-plan, by where the child goes. -/
theorem replanRow_cases (tasks : List PlanTask) (succeeded : List String) (newGen nowMs : U64)
    (interrupted : Bool) (ch : FleetChildRecord) :
    let ch' := replanRow tasks succeeded newGen nowMs interrupted ch
    (∃ task ∈ tasks, task.taskId = ch.childId ∧ ch'.deps = task.deps ∧
      ch.status = .succeeded ∧ ch'.status = .succeeded ∧ ch'.outcome = ch.outcome ∧
      ch'.pendingEscalation = ch.pendingEscalation ∧
      ch'.currentAttemptId = if interrupted then none else ch.currentAttemptId) ∨
    (∃ task ∈ tasks, task.taskId = ch.childId ∧ ch'.deps = task.deps ∧
      ch.status ≠ .succeeded ∧ ch'.status = readiness succeeded task.deps ∧ ch'.outcome = none ∧
      ch'.pendingEscalation = none ∧ ch'.currentAttemptId = none) ∨
    ((∀ task ∈ tasks, task.taskId ≠ ch.childId) ∧ ch'.deps = ch.deps ∧
      ch'.status = .cancelled ∧ ch'.outcome = some (.terminated "removed by replan") ∧
      ch'.pendingEscalation = none ∧ ch'.currentAttemptId = none) := by
  intro ch'
  cases hf : tasks.find? (fun t => t.taskId == ch.childId) with
  | some task =>
      have hmem := List.mem_of_find?_eq_some hf
      have hid : task.taskId = ch.childId := by simpa using List.find?_some hf
      by_cases hst : ch.status = .succeeded
      · exact Or.inl ⟨task, hmem, hid, by simp [ch', replanRow, hf, hst]⟩
      · exact Or.inr (Or.inl ⟨task, hmem, hid, by simp [ch', replanRow, hf, hst]⟩)
  | none =>
      refine Or.inr (Or.inr ⟨?_, by simp [ch', replanRow, hf]⟩)
      intro task hmem
      simpa using List.find?_eq_none.mp hf task hmem

theorem replanRow_kept (tasks : List PlanTask) (succeeded : List String) (newGen nowMs : U64)
    (interrupted : Bool) (ch : FleetChildRecord) :
    let ch' := replanRow tasks succeeded newGen nowMs interrupted ch
    ch'.fleetId = ch.fleetId ∧ ch'.childId = ch.childId ∧ ch'.schemaVersion = ch.schemaVersion ∧
      ch'.tokensCommitted = ch.tokensCommitted := by
  intro ch'
  cases hf : tasks.find? (fun t => t.taskId == ch.childId) with
  | some task =>
      by_cases hst : ch.status = .succeeded
      · simp [ch', replanRow, hf, hst]
      · simp [ch', replanRow, hf, hst]
  | none => simp [ch', replanRow, hf]

theorem RowOk.replanRow {tasks : List PlanTask} {succeeded : List String} {newGen nowMs : U64}
    {interrupted : Bool} {ch : FleetChildRecord} (hrow : RowOk ch) :
    RowOk (replanRow tasks succeeded newGen nowMs interrupted ch) := by
  rcases replanRow_cases tasks succeeded newGen nowMs interrupted ch with
    ⟨_, _, _, _, hst, hst', hout, hpend, _⟩ | ⟨task, _, _, _, _, hst', hout, hpend, _⟩ |
      ⟨_, _, hst', hout, hpend, _⟩
  · refine ⟨by simp [hst'], ?_, ?_⟩
    · rw [hst', hpend, ← hrow.blocked_iff, hst]
    · have hver := hrow.verdict
      rw [hst] at hver
      rw [hst', hout]
      exact hver
  · refine .of_waiting ?_ hpend hout
    rw [hst']
    rcases readiness_cases succeeded task.deps with ⟨h, -⟩ | h
    · exact Or.inl h
    · exact Or.inr h
  · refine ⟨by simp [hst'], by simp [hst', hpend], ?_⟩
    rw [hst', hout]
    intro v hv
    cases hv
    rfl

/-! ## Effects on the tables -/

/-- Every listed id names a succeeded child of the fleet. -/
def Tables.DepsMet (t : Tables) (fleetId : String) (deps : List String) : Prop :=
  ∀ d ∈ deps, ∃ ch, t.children[childKey fleetId d]? = some ch ∧ ch.status = .succeeded

/-- The attempt rows a move may work on: a fresh id, or the row that is there. -/
def Slot (t : Tables) (ch : FleetChildRecord) : Option Attempt → Option Attempt → Prop
  | none, none => True
  | none, some a' =>
      a'.fleetId = ch.fleetId ∧ a'.childId = ch.childId ∧
        a'.schemaVersion = schemaVersionCurrent ∧
        ∀ (k : String) (a : Attempt), t.attempts[k]? = some a → a.attemptId ≠ a'.attemptId
  | some a, some _ =>
      a.fleetId = ch.fleetId ∧ a.childId = ch.childId ∧
        t.attempts[attemptKey a.childId a.attemptId]? = some a
  | some _, none => False

/-- Write a fleet row, a child row and possibly an attempt row. -/
def Tables.put (t : Tables) (fl : FleetRecord) (ch : FleetChildRecord) (o : Option Attempt) :
    Tables :=
  { t with
    fleets := t.fleets.insert fl.fleetId fl
    children := t.children.insert (childKey ch.fleetId ch.childId) ch
    attempts := match o with
      | some a => t.attempts.insert (attemptKey a.childId a.attemptId) a
      | none => t.attempts }

/-- The weight of an attempt in the reservation ledger of `fleetId`. -/
def reservedBy (fleetId : String) (a : Attempt) : Nat :=
  if a.fleetId = fleetId ∧ a.status.isLive = true then a.reservedTokens.toNat else 0

/-- The weight of a child in the spend ledger of `fleetId`. -/
def committedBy (fleetId : String) (ch : FleetChildRecord) : Nat :=
  if ch.fleetId = fleetId then ch.tokensCommitted.toNat else 0

/-- Two plans with the same task ids and dependencies, in the same order. -/
def SameGraph (p p' : DurablePlan) : Prop :=
  p'.tasks.map (fun t => (t.taskId, t.deps)) = p.tasks.map (fun t => (t.taskId, t.deps))

/-- A re-plan of `fleetId`, row by row. -/
structure Replanned (fleetId : String) (t t' : Tables) where
  fleet : FleetRecord
  plan : DurablePlan
  plan' : DurablePlan
  succeeded : List String
  newGen : U64
  reserved : U64
  nowMs : U64
  /-- The fleet row and the plan row the transaction read. -/
  fleet_found : t.fleets[fleetId]? = some fleet
  fleet_live : fleetIsLive fleet = true
  plan_found : t.plans[fleetId]? = some plan
  safe : ∀ c ∈ planKeys fleetId plan'.tasks, keyComponentIsSafe c = true
  newGen_eq : newGen.toNat = fleet.generation.toNat + 1
  revision_eq : plan'.revision.toNat = plan.revision.toNat + 1
  plan_fleetId : plan'.fleetId = fleetId
  plan_version : plan'.schemaVersion = schemaVersionCurrent
  /-- The set readiness is recomputed from. -/
  mem_succeeded : ∀ d, d ∈ succeeded ↔
    d ∈ plan'.tasks.map PlanTask.taskId ∧
      ∃ ch, t.children[childKey fleetId d]? = some ch ∧ ch.status = .succeeded
  /-- The rows written. -/
  fleets : t'.fleets = t.fleets.insert fleetId
    { fleet with
      budget := { fleet.budget with tokensReserved := reserved }, generation := newGen,
      updatedAtMs := nowMs }
  plans : t'.plans = t.plans.insert fleetId plan'
  foreign : ∀ (k : String) (ch : FleetChildRecord), t.children[k]? = some ch →
    ch.fleetId ≠ fleetId → t'.children[k]? = some ch
  existing : ∀ (k : String) (ch : FleetChildRecord), t.children[k]? = some ch →
    ch.fleetId = fleetId → ∃ interrupted,
      t'.children[k]? = some (replanRow plan'.tasks succeeded newGen nowMs interrupted ch) ∧
        (ch.status = .succeeded → interrupted = false)
  fresh : ∀ task ∈ plan'.tasks, t.children[childKey fleetId task.taskId]? = none →
    ∃ task' ∈ plan'.tasks, task'.taskId = task.taskId ∧
      t'.children[childKey fleetId task.taskId]? =
        some (freshChild fleetId task.taskId task'.deps (readiness succeeded task'.deps) newGen
          nowMs)
  absent : ∀ k : String, t.children[k]? = none →
    (∀ task ∈ plan'.tasks, k ≠ childKey fleetId task.taskId) → t'.children[k]? = none
  attempts : ∀ k : String, t'.attempts[k]? = t.attempts[k]?.map (fun a =>
    if a.fleetId = fleetId ∧ a.status.isLive = true then a.interrupt nowMs else a)
  balance : reserved.toNat + Table.total (reservedBy fleetId) t.attempts =
    fleet.budget.tokensReserved.toNat + Table.total (reservedBy fleetId) t'.attempts
  frozen : ∀ task ∈ plan'.tasks, ∀ ch,
    t.children[childKey fleetId task.taskId]? = some ch →
      (ch.status = .succeeded ∨ ch.status = .failed) → ch.deps = task.deps

/-- The elementary changes of the state tables, each on the rows of one fleet. -/
inductive Effect (fleetId : String) : Kind → Tables → Tables → Prop
  | newFleet {t : Tables} {fl : FleetRecord} (hsafe : keyComponentIsSafe fleetId = true)
      (hnone : t.fleets[fleetId]? = none) (hid : fl.fleetId = fleetId)
      (hver : fl.schemaVersion = schemaVersionCurrent) (hst : fl.status = .active)
      (hres : fl.budget.tokensReserved = 0) (hcom : fl.budget.tokensCommitted = 0) :
      Effect fleetId .newFleet t { t with fleets := t.fleets.insert fleetId fl }
  | newPlan {t : Tables} {fl : FleetRecord} {plan : DurablePlan}
      (hfl : t.fleets[fleetId]? = some fl) (hlive : fleetIsLive fl = true)
      (hnone : t.plans[fleetId]? = none) (hid : plan.fleetId = fleetId)
      (hver : plan.schemaVersion = schemaVersionCurrent)
      (hsafe : ∀ c ∈ planKeys fleetId plan.tasks, keyComponentIsSafe c = true) :
      Effect fleetId .newPlan t { t with plans := t.plans.insert fleetId plan }
  | newChild {t : Tables} {fl : FleetRecord} {c : String} {deps : List String} {gen nowMs : U64}
      (hfl : t.fleets[fleetId]? = some fl) (hlive : fleetIsLive fl = true)
      (hnone : t.children[childKey fleetId c]? = none) (hc : keyComponentIsSafe c = true)
      (hdeps : ∀ d ∈ deps, keyComponentIsSafe d = true) :
      Effect fleetId (.newChild c) t { t with
        children := t.children.insert (childKey fleetId c)
          (freshChild fleetId c deps (genesisStatus deps) gen nowMs) }
  | move {t : Tables} {k : Kind} {fl fl' : FleetRecord} {c : String} {ch ch' : FleetChildRecord}
      {o o' : Option Attempt}
      (hfl : t.fleets[fleetId]? = some fl) (hch : t.children[childKey fleetId c]? = some ch)
      (hslot : Slot t ch o o')
      (hmove : ChildMove (t.DepsMet fleetId ch.deps) fl ch k o fl' ch' o') :
      Effect fleetId k t (t.put fl' ch' o')
  | edit {t : Tables} {fl : FleetRecord} {plan plan' : DurablePlan}
      (hfl : t.fleets[fleetId]? = some fl) (hlive : fleetIsLive fl = true)
      (hplan : t.plans[fleetId]? = some plan) (hgraph : SameGraph plan plan')
      (hid : plan'.fleetId = fleetId) (hver : plan'.schemaVersion = schemaVersionCurrent)
      (hrev : plan'.revision.toNat = plan.revision.toNat + 1) :
      Effect fleetId .edit t { t with plans := t.plans.insert fleetId plan' }
  | cancel {t : Tables} {fl : FleetRecord} (nowMs : U64)
      (hfl : t.fleets[fleetId]? = some fl) (hlive : fleetIsLive fl = true) :
      Effect fleetId .cancel t { t with
        fleets := t.fleets.insert fleetId { fl with status := .cancelled, updatedAtMs := nowMs } }
  | replan {t t' : Tables} (h : Replanned fleetId t t') : Effect fleetId .replan t t'

/-- A sequence of effects, each allowed by `P`. -/
def Effects (P : String → Kind → Prop) : Tables → Tables → Prop :=
  Relation.ReflTransGen (fun t t' => ∃ f k, P f k ∧ Effect f k t t')

namespace Effects

variable {P Q : String → Kind → Prop} {t t' : Tables}

theorem refl : Effects P t t := Relation.ReflTransGen.refl

theorem single {f : String} {k : Kind} (hP : P f k) (h : Effect f k t t') : Effects P t t' :=
  Relation.ReflTransGen.single ⟨f, k, hP, h⟩

theorem trans {t'' : Tables} (h₁ : Effects P t t') (h₂ : Effects P t' t'') : Effects P t t'' :=
  Relation.ReflTransGen.trans h₁ h₂

theorem mono (hPQ : ∀ f k, P f k → Q f k) (h : Effects P t t') : Effects Q t t' := by
  induction h with
  | refl => exact refl
  | tail _ hstep ih =>
      obtain ⟨f, k, hP, he⟩ := hstep
      exact ih.trans (single (hPQ f k hP) he)

/-- A predicate kept by every allowed effect is kept by the sequence. -/
theorem keep {I : Tables → Prop} (h : Effects P t t')
    (hkeep : ∀ f k t t', P f k → Effect f k t t' → I t → I t') (ht : I t) : I t' := by
  induction h with
  | refl => exact ht
  | tail _ hstep ih =>
      obtain ⟨f, k, hP, he⟩ := hstep
      exact hkeep f k _ _ hP he ih

end Effects

end Octos.Fleet
