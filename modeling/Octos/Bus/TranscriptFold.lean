/-
# `Octos.Bus.TranscriptFold` — folding rows into messages

A message is settled when no synthesis changes it: it has a thread, or it is a
system message, which has none.  Whatever a fold returns is settled, and settled
messages at the end of a timeline come out as they are.  So a fold can be cut
before messages that were written by this code, and a reload of the log shows
what was in memory (`reload_live`).

The second part is the reading of segments without budget, `readDown`, and the
segments between two indices.
-/
import Octos.Bus.Transcript

namespace Octos.Bus.Transcript

/-! ## Settled messages -/

/-- Synthesis leaves the message as it is. -/
def Settled (m : Message) : Prop :=
  m.threadId.isSome = true ∨ m.role = .system

theorem stamp_settled {uuid : String} {m m' : Message} (h : stamp uuid m = some m') : Settled m' := by
  unfold stamp at h
  split at h
  · next thread hthread =>
      obtain rfl := Option.some.inj h
      exact Or.inl (by rw [hthread]; rfl)
  · split at h
    · next hrole =>
        obtain rfl := Option.some.inj h
        exact Or.inr hrole
    · obtain rfl := Option.some.inj h
      exact Or.inl rfl
    · cases h
    · cases h

theorem synthesizeFrom_settled : ∀ {ms : List Message} {seq : Nat} {current : Option String},
    (∀ m ∈ ms, Settled m) → synthesizeFrom seq current ms = ms := by
  intro ms
  induction ms with
  | nil => exact fun _ => rfl
  | cons m ms ih =>
      intro seq current h
      have hrest : ∀ x ∈ ms, Settled x := fun x hx => h x (List.mem_cons_of_mem _ hx)
      rw [synthesizeFrom]
      split
      · rw [ih hrest]
      · next hnone =>
          rcases h m List.mem_cons_self with hsome | hrole
          · rw [hnone] at hsome
            cases hsome
          · rw [hrole, ih hrest]

/-- Everything is settled afterwards. -/
theorem settled_synthesizeFrom : ∀ {ms : List Message} {seq : Nat} {current : Option String},
    ∀ m ∈ synthesizeFrom seq current ms, Settled m := by
  intro ms
  induction ms with
  | nil =>
      intro seq current m hm
      cases hm
  | cons x ms ih =>
      intro seq current m hm
      rw [synthesizeFrom] at hm
      split at hm
      · next thread hthread =>
          rcases List.mem_cons.mp hm with rfl | hm
          · exact Or.inl (by rw [hthread]; rfl)
          · exact ih m hm
      · split at hm
        · next hrole =>
            rcases List.mem_cons.mp hm with rfl | hm
            · exact Or.inr hrole
            · exact ih m hm
        all_goals
          rcases List.mem_cons.mp hm with rfl | hm
          · exact Or.inl rfl
          · exact ih m hm

/-- Settled messages at the end are not touched. -/
theorem synthesizeFrom_append : ∀ {xs ys : List Message} {seq : Nat} {current : Option String},
    (∀ m ∈ ys, Settled m) →
      synthesizeFrom seq current (xs ++ ys) = synthesizeFrom seq current xs ++ ys := by
  intro xs
  induction xs with
  | nil => exact fun h => synthesizeFrom_settled h
  | cons x xs ih =>
      intro ys seq current h
      rw [List.cons_append, synthesizeFrom, synthesizeFrom]
      split
      · rw [ih h, List.cons_append]
      · split
        · rw [ih h, List.cons_append]
        all_goals exact congrArg (List.cons _) (ih h)

theorem withoutThreads_subset (threads : List String) (ms : List Message) :
    withoutThreads threads ms ⊆ ms :=
  List.filter_subset_self ms

theorem dropLastNUserTurns_subset (ms : List Message) (n : Nat) : (dropLastNUserTurns ms n).1 ⊆ ms := by
  simp only [dropLastNUserTurns]
  split
  · exact List.Subset.refl _
  · exact withoutThreads_subset _ _

/-! ## Folds -/

section Folds

variable {timeline : List TimelineItem}

theorem foldTimeline_settled (timeline : List TimelineItem) : ∀ m ∈ foldTimeline timeline, Settled m :=
  fun m hm => settled_synthesizeFrom m hm

/-- A message that is settled comes out behind what was before. -/
theorem foldTimeline_message {m : Message} (h : Settled m) :
    foldTimeline (timeline ++ [.message m]) = foldTimeline timeline ++ [m] := by
  have hm : ∀ x ∈ [m], Settled x := by
    intro x hx
    rw [List.mem_singleton.mp hx]
    exact h
  simp only [foldTimeline, foldTrackingSpill, List.foldl_append, List.foldl_cons, List.foldl_nil,
    foldItem, synthesizeThreadIds]
  exact synthesizeFrom_append hm

theorem foldTimeline_messages : ∀ {ms : List Message} {timeline : List TimelineItem},
    (∀ m ∈ ms, Settled m) →
      foldTimeline (timeline ++ ms.map .message) = foldTimeline timeline ++ ms := by
  intro ms
  induction ms with
  | nil =>
      intro timeline _
      rw [List.map_nil, List.append_nil, List.append_nil]
  | cons m ms ih =>
      intro timeline h
      have hsplit : timeline ++ (m :: ms).map .message = timeline ++ [.message m] ++ ms.map .message := by
        simp
      rw [hsplit, ih (fun x hx => h x (List.mem_cons_of_mem _ hx)),
        foldTimeline_message (h m List.mem_cons_self), List.append_assoc]
      rfl

theorem foldTimeline_only {ms : List Message} (h : ∀ m ∈ ms, Settled m) :
    foldTimeline (ms.map .message) = ms := by
  have hfold := @foldTimeline_messages ms [] h
  rw [List.nil_append] at hfold
  rw [hfold]
  rfl

/-- A marker at the end drops from what was folded before it. -/
theorem foldTimeline_rollback (n : Nat) :
    foldTimeline (timeline ++ [.rollback n]) = (dropLastNUserTurns (foldTimeline timeline) n).1 := by
  simp only [foldTimeline, foldTrackingSpill, List.foldl_append, List.foldl_cons, List.foldl_nil,
    foldItem, synthesizeThreadIds]
  refine synthesizeFrom_settled ?_
  intro m hm
  exact settled_synthesizeFrom m (dropLastNUserTurns_subset _ _ hm)

end Folds

/-! ## A session that is wholly in memory -/

/-- The rows of the log, and the messages in memory. -/
structure Live where
  log : List TimelineItem
  messages : List Message

inductive LiveOp
  | add (uuid : String) (m : Message)
  | rollback (n : Nat)

/-- `add_message`, and `rollback_last_n_user_turns`, which writes no marker when there is no
turn to drop. -/
def Live.step (s : Live) : LiveOp → Live
  | .add uuid m =>
      match stamp uuid m with
      | some m => ⟨s.log ++ [.message m], s.messages ++ [m]⟩
      | none => s
  | .rollback n =>
      if min n (countUserTurns s.messages) = 0 then s
      else ⟨s.log ++ [.rollback n], (dropLastNUserTurns s.messages n).1⟩

theorem Live.step_reloads {s : Live} (h : foldTimeline s.log = s.messages) (op : LiveOp) :
    foldTimeline (s.step op).log = (s.step op).messages := by
  cases op with
  | add uuid m =>
      rw [Live.step]
      split
      · next m' hstamp => rw [foldTimeline_message (stamp_settled hstamp), h]
      · exact h
  | rollback n =>
      rw [Live.step]
      split
      · exact h
      · rw [foldTimeline_rollback, h]

/-- **A reload shows what was in memory**, after any messages and rollbacks. -/
theorem reload_live (ops : List LiveOp) (log : List TimelineItem) :
    let s := ops.foldl Live.step ⟨log, foldTimeline log⟩
    foldTimeline s.log = s.messages := by
  induction ops using List.reverseRecOn with
  | nil => rfl
  | append_singleton ops op ih =>
      rw [List.foldl_append]
      exact Live.step_reloads ih op

/-! ## Segments without budget -/

/-- The readable segments from an index down, oldest first. -/
def readDown (segments : Table Nat SegmentFile) : Nat → List SegmentFile
  | 0 => []
  | i + 1 =>
      match readSegment segments[i + 1]? with
      | none => []
      | some (_, file) => readDown segments i ++ [file]

/-- The segments with an index above `r`, up to `k`. -/
def between (segments : Table Nat SegmentFile) (r k : Nat) : List SegmentFile :=
  (List.range' (r + 1) (k - r)).filterMap (fun i => segments[i]?)

/-- All of them can be read. -/
def Readable (segments : Table Nat SegmentFile) (r k : Nat) : Prop :=
  ∀ i, r < i → i ≤ k → (readSegment segments[i]?).isSome = true

section Segments

variable {segments : Table Nat SegmentFile}

theorem loadSegments_all : ∀ {i spent base : Nat} {acc : List SegmentFile},
    (loadSegments segments none i spent base acc).2 = readDown segments i ++ acc := by
  intro i
  induction i with
  | zero => exact fun {_ _ _} => rfl
  | succ i ih =>
      intro spent base acc
      simp only [loadSegments, Option.any_none, Bool.false_eq_true, if_false, readDown]
      cases hread : readSegment segments[i + 1]? with
      | none => rfl
      | some r =>
          obtain ⟨header, file⟩ := r
          simp only [ih, List.append_assoc, List.singleton_append]

theorem readSegment_file {file : Option SegmentFile} {header : SessionMeta} {f : SegmentFile}
    (h : readSegment file = some (header, f)) :
    file = some f ∧ f.header = some header ∧ f.bytes ≠ 0 := by
  obtain ⟨g, hg, hread⟩ := Option.bind_eq_some_iff.mp h
  split at hread
  · cases hread
  · next hbytes =>
      obtain ⟨hd, hhd, heq⟩ := Option.map_eq_some_iff.mp hread
      obtain ⟨rfl, rfl⟩ := Prod.mk.inj heq
      exact ⟨hg, hhd, hbytes⟩

theorem readSegment_some {f : SegmentFile} {header : SessionMeta} (hheader : f.header = some header)
    (hbytes : f.bytes ≠ 0) : readSegment (some f) = some (header, f) := by
  simp [readSegment, hheader, hbytes]

theorem between_self (r : Nat) : between segments r r = [] := by
  simp [between]

theorem between_succ {r k : Nat} (h : r ≤ k) {file : SegmentFile} (hfile : segments[k + 1]? = some file) :
    between segments r (k + 1) = between segments r k ++ [file] := by
  have hrange : List.range' (r + 1) (k + 1 - r) = List.range' (r + 1) (k - r) ++ [k + 1] := by
    have hlen : k + 1 - r = (k - r) + 1 := by omega
    have hlast : r + 1 + (k - r) = k + 1 := by omega
    rw [hlen, List.range'_concat, Nat.one_mul, hlast]
  rw [between, hrange, List.filterMap_append, between]
  simp [hfile]

/-- Segments above `k` do not matter. -/
theorem between_congr {segments' : Table Nat SegmentFile} {r k : Nat}
    (h : ∀ i, r < i → i ≤ k → segments'[i]? = segments[i]?) :
    between segments' r k = between segments r k := by
  refine List.filterMap_congr ?_
  intro i hi
  rw [List.mem_range'_1] at hi
  exact h i (by omega) (by omega)

theorem readDown_congr {segments' : Table Nat SegmentFile} : ∀ {r : Nat},
    (∀ i, i ≤ r → segments'[i]? = segments[i]?) → readDown segments' r = readDown segments r := by
  intro r
  induction r with
  | zero => exact fun _ => rfl
  | succ r ih =>
      intro h
      rw [readDown, readDown, h (r + 1) (Nat.le_refl _), ih (fun i hi => h i (by omega))]

/-- The whole reading is the reading from `r` down and what is above. -/
theorem readDown_split : ∀ {r k : Nat}, r ≤ k → Readable segments r k →
    readDown segments k = readDown segments r ++ between segments r k := by
  intro r k hle
  induction k, hle using Nat.le_induction with
  | base =>
      intro _
      rw [between_self, List.append_nil]
  | succ k hle ih =>
      intro h
      have hread := h (k + 1) (by omega) (Nat.le_refl _)
      obtain ⟨⟨header, file⟩, hfile⟩ := Option.isSome_iff_exists.mp hread
      have hrest := ih (fun i hi hik => h i hi (by omega))
      rw [readDown, hfile, between_succ hle (readSegment_file hfile).1]
      simp only [hrest, List.append_assoc]

/-- A budgeted load reads the segments next to the active file. -/
theorem loadSegments_window {budget : Option Nat} : ∀ {k spent base : Nat} {acc : List SegmentFile},
    ∃ n, n ≤ k ∧ Readable segments (k - n) k ∧
      (loadSegments segments budget k spent base acc).2 = between segments (k - n) k ++ acc ∧
      (between segments (k - n) k).length = n := by
  intro k
  induction k with
  | zero =>
      intro spent base acc
      refine ⟨0, Nat.le_refl _, ?_, ?_, ?_⟩
      · intro i hi hik
        omega
      · rw [Nat.sub_zero, between_self]
        rfl
      · rw [Nat.sub_zero, between_self]
        rfl
  | succ k ih =>
      intro spent base acc
      have hstop : ∃ n, n ≤ k + 1 ∧ Readable segments (k + 1 - n) (k + 1) ∧
          acc = between segments (k + 1 - n) (k + 1) ++ acc ∧
          (between segments (k + 1 - n) (k + 1)).length = n := by
        refine ⟨0, Nat.zero_le _, ?_, ?_, ?_⟩
        · intro i hi hik
          omega
        · rw [Nat.sub_zero, between_self]
          rfl
        · rw [Nat.sub_zero, between_self]
          rfl
      simp only [loadSegments]
      split
      · exact hstop
      · cases hread : readSegment segments[k + 1]? with
        | none => exact hstop
        | some r =>
            obtain ⟨header, file⟩ := r
            obtain ⟨n, hn, hreadable, hload, hlen⟩ := @ih
              (spent + (Option.map SegmentFile.bytes segments[k + 1]?).getD 0) header.baseSeq (file :: acc)
            have hsub : k + 1 - (n + 1) = k - n := by omega
            have hsucc := between_succ (Nat.sub_le k n) (readSegment_file hread).1
            refine ⟨n + 1, by omega, ?_, ?_, ?_⟩
            · intro i hi hik
              by_cases hlast : i = k + 1
              · rw [hlast, hread]
                rfl
              · exact hreadable i (by omega) (by omega)
            · rw [hsub, hsucc, List.append_assoc, List.singleton_append]
              exact hload
            · rw [hsub, hsucc, List.length_append, hlen]
              rfl

end Segments

end Octos.Bus.Transcript
