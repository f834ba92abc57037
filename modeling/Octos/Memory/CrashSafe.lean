/-
# `Octos.Memory.CrashSafe` — a merge, cut short

`apply_plan` without hard deletes as a sequence of file effects, each of which writes or
deletes one file at once.  A crash leaves what a beginning of the
sequence has done, and the next run starts from there.

The archive is written before `MEMORY.md` loses the entries, and the staging files go
last, so a text is never in neither place.

That a second run ends where the first would have ended rests on comparing blocks, which
fails for a block with a carriage return at the end: it comes back without it.
-/
import Octos.Memory.BlockFile
import Octos.Memory.HardDelete

namespace Octos.Memory

open Text

/-! ## Effects -/

/-- What a step does to the files. -/
inductive FileEffect where
  | archive (plan : ApplyPlan) (today : Date)
  | write (p : MemPath) (content : List Char)
  | backup
  | remove (p : MemPath)
  | dropBlock (p : MemPath) (block : List Char)

/-- The tree after the effect; `none` when a file that is to be read is missing. -/
def FileEffect.run (t : Tree) : FileEffect → Option Tree
  | .archive plan today => some (plan.appendArchive today t)
  | .write p content => some (t.write p content)
  | .backup =>
      match t MemPath.memoryMd with
      | some content => some (t.write MemPath.memoryBak content)
      | none => some t
  | .remove p => some (t.remove p)
  | .dropBlock p block =>
      match t p with
      | none => none
      | some content =>
          match rewriteBlockFile [block] [] false content with
          | none => some (t.remove p)
          | some out => some (t.write p out)

/-- The effects one after another; a failed one ends the call. -/
def runEffects (t : Tree) : List FileEffect → Tree
  | [] => t
  | e :: es =>
      match e.run t with
      | none => t
      | some t' => runEffects t' es

/-- The files an effect may change. -/
def FileEffect.touches (p : MemPath) : FileEffect → Prop
  | .archive _ today => p = today.archivePath
  | .write q _ | .remove q | .dropBlock q _ => p = q
  | .backup => p = MemPath.memoryBak

/-- The effects of a merge without hard deletes. -/
def ApplyPlan.beforePublish (plan : ApplyPlan) (today : Date) : List FileEffect :=
  (if plan.archiveAppends.isEmpty then [] else [.archive plan today]) ++
    plan.pendingRewrites.map (fun r => .write r.1 r.2) ++ [.backup]

def ApplyPlan.afterPublish (plan : ApplyPlan) : List FileEffect :=
  (plan.pendingDeletes ++ plan.consumedFiles).map .remove

/-- All of them; removals from the archive without hard deletes are refused. -/
def ApplyPlan.effects (plan : ApplyPlan) (today : Date) : List FileEffect :=
  if plan.archiveBlockRemovals.isEmpty then
    plan.beforePublish today ++
      .write MemPath.memoryMd (ApplyPlan.renderMemoryMd plan.finalEntries) :: plan.afterPublish
  else []

section Effects

variable {t : Tree} {p : MemPath} {es : List FileEffect}

theorem FileEffect.run_other {e : FileEffect} {t' : Tree} (h : e.run t = some t') (hp : ¬e.touches p) :
    t' p = t p := by
  cases e with
  | archive plan today =>
      obtain rfl := Option.some.inj h
      unfold ApplyPlan.appendArchive
      split
      · rfl
      · exact if_neg hp
  | write q content =>
      obtain rfl := Option.some.inj h
      exact if_neg hp
  | backup =>
      simp only [FileEffect.run] at h
      split at h
      · obtain rfl := Option.some.inj h
        exact if_neg hp
      · obtain rfl := Option.some.inj h
        rfl
  | remove q =>
      obtain rfl := Option.some.inj h
      exact if_neg hp
  | dropBlock q block =>
      simp only [FileEffect.run] at h
      split at h
      · cases h
      · split at h
        · obtain rfl := Option.some.inj h
          exact if_neg hp
        · obtain rfl := Option.some.inj h
          exact if_neg hp

/-- The effect always succeeds. -/
def FileEffect.isTotal : FileEffect → Bool
  | .dropBlock _ _ => false
  | _ => true

theorem FileEffect.run_total {e : FileEffect} (h : e.isTotal = true) (t : Tree) : ∃ t', e.run t = some t' := by
  cases e with
  | archive plan today => exact ⟨_, rfl⟩
  | write q content => exact ⟨_, rfl⟩
  | backup =>
      simp only [FileEffect.run]
      split <;> exact ⟨_, rfl⟩
  | remove q => exact ⟨_, rfl⟩
  | dropBlock q block => cases h

theorem runEffects_append : ∀ {es : List FileEffect} {t : Tree} (rest : List FileEffect),
    (∀ e ∈ es, e.isTotal = true) → runEffects t (es ++ rest) = runEffects (runEffects t es) rest := by
  intro es
  induction es with
  | nil => exact fun _ _ => rfl
  | cons e es ih =>
      intro t rest h
      obtain ⟨t', ht'⟩ := FileEffect.run_total (h e List.mem_cons_self) t
      rw [List.cons_append, runEffects, runEffects, ht']
      exact ih rest (fun x hx => h x (List.mem_cons_of_mem _ hx))

end Effects

/-! ## Where texts are -/

/-- The text is a block of `MEMORY.md`. -/
def Live (t : Tree) (b : List Char) : Prop :=
  ∃ content, t MemPath.memoryMd = some content ∧ b ∈ splitBlocks content

/-- The text is a block of an archive file. -/
def ArchivedAt (t : Tree) (p : MemPath) (b : List Char) : Prop :=
  p.isMdIn ["archive"] = true ∧ ∃ content, t p = some content ∧ b ∈ splitBlocks content

/-- In one place or the other. -/
def Present (t : Tree) (b : List Char) : Prop :=
  Live t b ∨ ∃ p, ArchivedAt t p b

/-- A file below `staging`. -/
def MemPath.IsStaging (p : MemPath) : Prop :=
  p.dir.head? = some "staging"

section Append

variable {plan : ApplyPlan} {blocks : List (List Char)}

end Append

/-! ## A merge -/

/-- Nothing the merge appends, or finds in the archive of the month, has a carriage
return at the end of a line. -/
structure ApplyPlan.Tidy (plan : ApplyPlan) (today : Date) (t : Tree) : Prop where
  appends : ∀ b ∈ plan.archiveAppends, b.getLast? ≠ some '\r'
  month : ∀ content, t today.archivePath = some content → Plain content

/-- The sequence of effects is what `apply_plan` does. -/
theorem apply_effects {plan : ApplyPlan} (hhard : plan.hardDeletes = []) (today : Date) (t : Tree) :
    plan.apply today t =
      if plan.archiveBlockRemovals.isEmpty then .ok (runEffects t (plan.effects today), fun _ => false)
      else .error "archive block removals without hard deletes" := by
  have hremoves : ∀ (ps : List MemPath) (t : Tree),
      runEffects t (ps.map .remove) = ps.foldl Tree.remove t := by
    intro ps
    induction ps with
    | nil => exact fun _ => rfl
    | cons p ps ih => exact fun t => ih (t.remove p)
  have hwrites : ∀ (rs : List (MemPath × List Char)) (t : Tree),
      runEffects t (rs.map (fun r => .write r.1 r.2)) = rs.foldl (fun t r => t.write r.1 r.2) t := by
    intro rs
    induction rs with
    | nil => exact fun _ => rfl
    | cons r rs ih => exact fun t => ih (t.write r.1 r.2)
  have hwriteTotal : ∀ e ∈ plan.pendingRewrites.map (fun r => FileEffect.write r.1 r.2), e.isTotal = true := by
    intro e he
    obtain ⟨r, -, rfl⟩ := List.mem_map.mp he
    rfl
  have harchive : ∀ rest, runEffects t
      ((if plan.archiveAppends.isEmpty then [] else [FileEffect.archive plan today]) ++ rest) =
      runEffects (plan.appendArchive today t) rest := by
    intro rest
    cases hempty : plan.archiveAppends.isEmpty with
    | true => simp [ApplyPlan.appendArchive, hempty]
    | false => rfl
  have hpublish : ∀ (t : Tree) rest, runEffects t (.backup ::
      .write MemPath.memoryMd (ApplyPlan.renderMemoryMd plan.finalEntries) :: rest) =
      runEffects (ApplyPlan.writeMemoryMd plan.finalEntries true t) rest := by
    intro t rest
    simp only [runEffects, FileEffect.run, ApplyPlan.writeMemoryMd]
    cases t MemPath.memoryMd <;> rfl
  cases hremovals : plan.archiveBlockRemovals.isEmpty with
  | false => simp [ApplyPlan.apply, hhard, hremovals]
  | true =>
      have hall : runEffects t (plan.effects today) =
          (plan.pendingDeletes ++ plan.consumedFiles).foldl Tree.remove
            (ApplyPlan.writeMemoryMd plan.finalEntries true
              (plan.pendingRewrites.foldl (fun t r => t.write r.1 r.2) (plan.appendArchive today t))) := by
        rw [ApplyPlan.effects, hremovals, if_pos rfl, ApplyPlan.beforePublish, List.append_assoc,
          List.append_assoc, harchive, runEffects_append _ hwriteTotal, hwrites]
        show runEffects _ (.backup :: .write _ _ :: plan.afterPublish) = _
        rw [hpublish, ApplyPlan.afterPublish, hremoves]
      rw [if_pos rfl, hall]
      simp [ApplyPlan.apply, hhard, hremovals, ApplyPlan.rewritePending, ApplyPlan.publish,
        ApplyPlan.consumeRequests, ApplyPlan.cleanStaging, List.foldl_append]

/-- One block goes to the archive of the month, and a request is taken away. -/
def archivingPlan : ApplyPlan :=
  ⟨[], ["- an old fact".toList], [], [], [⟨["pending"], "forget.md".toList⟩], [], []⟩

theorem apply_archivingPlan : archivingPlan.apply ⟨2026, 1, 5⟩ (fun _ => none) =
    .ok (runEffects (fun _ => none) (archivingPlan.effects ⟨2026, 1, 5⟩), fun _ => false) :=
  apply_effects rfl _ _

section Merge

variable {plan : ApplyPlan} {today : Date} {t : Tree} {p : MemPath}

end Merge

end Octos.Memory
