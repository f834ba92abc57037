/-
# `Octos.Bus.SessionMerge` — a session in two layouts

A session may be in the flat layout, in the per-user layout, or in both, when a
migration was cut short.  `load_from_disk` reads both timelines, one behind the other:

    messages    one of each fingerprint, which leaves out thread and client id;
                the copy with more of the two, where the first was
    markers     all

and orders the items by time, messages before markers, before it folds them.  So what
one layout holds in log order comes out in order of time, and of two rows of one file
with the same fingerprint one is left.

Apart from that, a copy of the first messages changes nothing.  The fingerprint is the
text of a message in JSON, and a parameter here.
-/
import Octos.Agent.MessageRepair
import Octos.Bus.TranscriptCut
import Octos.Lib.StableSort

namespace Octos.Bus.Merge

open Octos.Agent (Message MessageRole)

inductive TimelineItem
  | message (m : Message)
  | rollback (numTurns : Nat) (time : Int)
  deriving DecidableEq

/-! ## The fold -/

def roleOf : MessageRole → Transcript.Role
  | .system => .system
  | .user => .user
  | .assistant => .assistant
  | .tool => .tool

/-- What the fold reads of a message. -/
def rowOf (m : Message) : Transcript.Message :=
  ⟨roleOf m.role, m.content, m.threadId, m.clientMessageId⟩

def synthesizeThreadIds (ms : List Message) : List Message :=
  List.zipWith (fun m row => { m with threadId := row.threadId }) ms
    (Transcript.synthesizeThreadIds (ms.map rowOf))

def dropLastNUserTurns (ms : List Message) (n : Nat) : List Message :=
  let dropped := Transcript.droppedThreads (ms.map rowOf) n
  ms.filter (fun m => m.threadId.all (fun thread => !dropped.contains thread))

def foldItem (ms : List Message) : TimelineItem → List Message
  | .message m => ms ++ [m]
  | .rollback numTurns _ => dropLastNUserTurns (synthesizeThreadIds ms) numTurns

def foldSessionTimeline (timeline : List TimelineItem) : List Message :=
  synthesizeThreadIds (timeline.foldl foldItem [])

/-! ## The merge -/

/-- The message without the ids that a migration adds. -/
def identOf (m : Message) : Message :=
  { m with threadId := none, clientMessageId := none }

def richness (m : Message) : Nat :=
  (if m.threadId.isSome then 1 else 0) + if m.clientMessageId.isSome then 1 else 0

/-- The richer one of two copies; the first on a tie. -/
def richer (existing m : Message) : Message :=
  if richness existing < richness m then m else existing

/-- The items so far, and the index of each fingerprint seen. -/
structure MergeState where
  items : List TimelineItem
  seen : List (String × Nat)

variable (fingerprint : Message → String)

def mergeItem (st : MergeState) : TimelineItem → MergeState
  | .rollback numTurns time => { st with items := st.items ++ [.rollback numTurns time] }
  | .message m =>
      let print := fingerprint (identOf m)
      match st.seen.lookup print with
      | none => ⟨st.items ++ [.message m], (print, st.items.length) :: st.seen⟩
      | some idx =>
          let kept :=
            match st.items[idx]? with
            | some (.message existing) => richness existing
            | _ => 255
          if kept < richness m then { st with items := st.items.set idx (.message m) } else st

/-- Messages before markers of the same time. -/
def sortKey : TimelineItem → Int ×ₗ Nat
  | .message m => toLex (m.timestamp, 0)
  | .rollback _ time => toLex (time, 1)

def mergeTimelines (flat perUser : List TimelineItem) : List TimelineItem :=
  sortByKey sortKey ((flat ++ perUser).foldl (mergeItem fingerprint) ⟨[], []⟩).items

/-- The messages of a session with both layouts. -/
def mergedLoad (flat perUser : List TimelineItem) : List Message :=
  foldSessionTimeline (mergeTimelines fingerprint flat perUser)

/-! ## Rows and markers -/

def message? : TimelineItem → Option Message
  | .message m => some m
  | .rollback _ _ => none

def rowsOf (items : List TimelineItem) : List Message :=
  items.filterMap message?

def isMessage : TimelineItem → Bool
  | .message _ => true
  | .rollback _ _ => false

def markersOf (items : List TimelineItem) : List TimelineItem :=
  items.filter (fun item => !isMessage item)

/-- Other messages in the places of those there are. -/
def withRows : List Message → List TimelineItem → List TimelineItem
  | _, [] => []
  | rows, .rollback numTurns time :: items => .rollback numTurns time :: withRows rows items
  | row :: rows, .message _ :: items => .message row :: withRows rows items
  | [], .message m :: items => .message m :: withRows [] items

/-- The copies that are kept of the rows of the two layouts. -/
def keptRows : List Message → List Message → List Message
  | f :: flat, p :: perUser => richer f p :: keptRows flat perUser
  | flat, [] => flat
  | [], perUser => perUser

/-- A half-finished migration: the flat rows are the first of the per-user rows, but for
their thread and client ids. -/
def Copies (flat perUser : List TimelineItem) (k : Nat) : Prop :=
  (rowsOf flat).map identOf = ((rowsOf perUser).take k).map identOf

/-- What tells messages apart. -/
def printOf (m : Message) : String :=
  fingerprint (identOf m)

/-- One more message among the rows. -/
def addRow (rows : List Message) (m : Message) : List Message :=
  if printOf fingerprint m ∈ rows.map (printOf fingerprint) then
    rows.map (fun e => if printOf fingerprint e = printOf fingerprint m then richer e m else e)
  else rows ++ [m]

section

variable {fingerprint} {items xs ys : List TimelineItem} {rows done flat perUser : List Message}
  {m e : Message} {st : MergeState}

theorem rowsOf_append (xs ys : List TimelineItem) : rowsOf (xs ++ ys) = rowsOf xs ++ rowsOf ys :=
  List.filterMap_append

theorem markersOf_append (xs ys : List TimelineItem) :
    markersOf (xs ++ ys) = markersOf xs ++ markersOf ys :=
  List.filter_append _ _

theorem mem_rowsOf : m ∈ rowsOf items ↔ .message m ∈ items := by
  rw [rowsOf, List.mem_filterMap]
  constructor
  · rintro ⟨item, hitem, hm⟩
    cases item with
    | message m' => exact Option.some.inj hm ▸ hitem
    | rollback n time => cases hm
  · exact fun h => ⟨.message m, h, rfl⟩

/-! ## One item -/

/-- The fingerprints seen are those of the rows, each with the place of its row. -/
structure Indexed (fingerprint : Message → String) (st : MergeState) : Prop where
  distinct : ((rowsOf st.items).map (printOf fingerprint)).Nodup
  placed : ∀ print idx, st.seen.lookup print = some idx →
    ∃ m, st.items[idx]? = some (.message m) ∧ printOf fingerprint m = print
  seen : ∀ m ∈ rowsOf st.items, (st.seen.lookup (printOf fingerprint m)).isSome = true

theorem map_update_other {before : List Message}
    (h : printOf fingerprint m ∉ before.map (printOf fingerprint)) :
    before.map (fun x => if printOf fingerprint x = printOf fingerprint m then richer x m else x) =
      before := by
  refine (List.map_congr_left ?_).trans (List.map_id before)
  intro x hx
  refine if_neg ?_
  intro heq
  exact h (heq ▸ List.mem_map_of_mem hx)

/-- A row of the same fingerprint makes room for the richer copy. -/
theorem rowsOf_set {idx : Nat} (hdistinct : ((rowsOf items).map (printOf fingerprint)).Nodup)
    (hidx : items[idx]? = some (.message e)) (hprint : printOf fingerprint e = printOf fingerprint m) :
    rowsOf (items.set idx (.message (richer e m))) = addRow fingerprint (rowsOf items) m ∧
      markersOf (items.set idx (.message (richer e m))) = markersOf items := by
  obtain ⟨hlt, hget⟩ := List.getElem?_eq_some_iff.mp hidx
  have hsplit : items = items.take idx ++ .message e :: items.drop (idx + 1) := by
    rw [← hget, List.getElem_cons_drop, List.take_append_drop]
  have hset : items.set idx (.message (richer e m)) =
      items.take idx ++ .message (richer e m) :: items.drop (idx + 1) :=
    List.set_eq_take_append_cons_drop.trans (if_pos hlt)
  have hrows : rowsOf items = rowsOf (items.take idx) ++ e :: rowsOf (items.drop (idx + 1)) := by
    conv_lhs => rw [hsplit, rowsOf_append]
    rfl
  have hmarkers : markersOf items = markersOf (items.take idx) ++ markersOf (items.drop (idx + 1)) := by
    conv_lhs => rw [hsplit, markersOf_append]
    rfl
  rw [hset, rowsOf_append, markersOf_append, hmarkers]
  refine ⟨?_, rfl⟩
  rw [hrows, List.map_append, List.map_cons, List.nodup_append, List.nodup_cons] at hdistinct
  obtain ⟨-, ⟨hafter, -⟩, hapart⟩ := hdistinct
  have hbefore : printOf fingerprint e ∉ (rowsOf (items.take idx)).map (printOf fingerprint) :=
    fun hin => hapart _ hin _ List.mem_cons_self rfl
  rw [hprint] at hbefore hafter
  have hin : printOf fingerprint m ∈ (rowsOf items).map (printOf fingerprint) := by
    rw [hrows, List.map_append, List.map_cons, hprint]
    exact List.mem_append_right _ List.mem_cons_self
  rw [addRow, if_pos hin, hrows, List.map_append, List.map_cons, map_update_other hbefore,
    map_update_other hafter, if_pos hprint]
  rfl

theorem printOf_richer (h : printOf fingerprint e = printOf fingerprint m) :
    printOf fingerprint (richer e m) = printOf fingerprint e := by
  rw [richer]
  split
  · exact h.symm
  · rfl

theorem map_printOf_addRow (hin : printOf fingerprint m ∈ rows.map (printOf fingerprint)) :
    (addRow fingerprint rows m).map (printOf fingerprint) = rows.map (printOf fingerprint) := by
  rw [addRow, if_pos hin, List.map_map]
  refine List.map_congr_left ?_
  intro x _
  show printOf fingerprint (if _ then _ else _) = _
  split
  · next heq => exact printOf_richer heq
  · rfl

/-- Where a fingerprint was seen, the richer copy stays. -/
theorem mergeItem_seen {idx : Nat} (hlookup : st.seen.lookup (printOf fingerprint m) = some idx)
    (hidx : st.items[idx]? = some (.message e)) :
    mergeItem fingerprint st (.message m) =
      { st with items := st.items.set idx (.message (richer e m)) } := by
  have hstep : mergeItem fingerprint st (.message m) =
      if richness e < richness m then { st with items := st.items.set idx (.message m) } else st := by
    show (match st.seen.lookup (printOf fingerprint m) with
      | none => _
      | some idx => _) = _
    rw [hlookup]
    dsimp only
    rw [hidx]
  rw [hstep, richer]
  split
  · rfl
  · obtain ⟨hlt, hget⟩ := List.getElem?_eq_some_iff.mp hidx
    rw [← hget, List.set_getElem_self]

theorem mergeItem_unseen (hlookup : st.seen.lookup (printOf fingerprint m) = none) :
    mergeItem fingerprint st (.message m) =
      ⟨st.items ++ [.message m], (printOf fingerprint m, st.items.length) :: st.seen⟩ := by
  show (match st.seen.lookup (printOf fingerprint m) with
    | none => _
    | some idx => _) = _
  rw [hlookup]
  rfl

/-- A message becomes one of the rows, and no marker. -/
theorem mergeItem_message (h : Indexed fingerprint st) (m : Message) :
    Indexed fingerprint (mergeItem fingerprint st (.message m)) ∧
      rowsOf (mergeItem fingerprint st (.message m)).items = addRow fingerprint (rowsOf st.items) m ∧
      markersOf (mergeItem fingerprint st (.message m)).items = markersOf st.items := by
  cases hlookup : st.seen.lookup (printOf fingerprint m) with
  | none =>
      have hnew : printOf fingerprint m ∉ (rowsOf st.items).map (printOf fingerprint) := by
        intro hin
        obtain ⟨x, hx, heq⟩ := List.mem_map.mp hin
        have hseen := h.seen x hx
        rw [heq, hlookup] at hseen
        cases hseen
      have hrows : rowsOf (st.items ++ [.message m]) = rowsOf st.items ++ [m] := rowsOf_append _ _
      rw [mergeItem_unseen hlookup]
      refine ⟨⟨?_, ?_, ?_⟩, ?_, ?_⟩
      · show ((rowsOf (st.items ++ [.message m])).map _).Nodup
        rw [hrows, List.map_append, List.map_singleton]
        exact h.distinct.append (List.nodup_singleton _) (List.disjoint_singleton.mpr hnew)
      · intro print idx hidx
        show ∃ x, (st.items ++ [.message m])[idx]? = _ ∧ _
        rw [List.lookup_cons] at hidx
        split at hidx
        · next heq =>
            refine ⟨m, ?_, (beq_iff_eq.mp heq).symm⟩
            rw [← Option.some.inj hidx, List.getElem?_concat_length]
        · obtain ⟨x, hx, hprint⟩ := h.placed print idx hidx
          refine ⟨x, ?_, hprint⟩
          rw [List.getElem?_append_left (List.getElem?_eq_some_iff.mp hx).1, hx]
      · intro x hx
        rw [List.lookup_cons]
        split
        · rfl
        · next hne =>
            rw [hrows] at hx
            rcases List.mem_append.mp hx with hx | hx
            · exact h.seen x hx
            · rw [List.mem_singleton.mp hx, beq_self_eq_true] at hne
              cases hne
      · show rowsOf (st.items ++ [.message m]) = _
        rw [hrows, addRow, if_neg hnew]
      · show markersOf (st.items ++ [.message m]) = _
        rw [markersOf_append]
        exact List.append_nil _
  | some idx =>
      obtain ⟨e, hidx, hprint⟩ := h.placed _ idx hlookup
      obtain ⟨hrows, hmarkers⟩ := rowsOf_set h.distinct hidx hprint
      have hin : printOf fingerprint m ∈ (rowsOf st.items).map (printOf fingerprint) := by
        rw [← hprint]
        exact List.mem_map_of_mem (mem_rowsOf.mpr (List.mem_of_getElem? hidx))
      have hprints : (rowsOf (st.items.set idx (.message (richer e m)))).map (printOf fingerprint) =
          (rowsOf st.items).map (printOf fingerprint) := by
        rw [hrows, map_printOf_addRow hin]
      rw [mergeItem_seen hlookup hidx]
      refine ⟨⟨?_, ?_, ?_⟩, hrows, hmarkers⟩
      · exact hprints ▸ h.distinct
      · intro print place hplace
        obtain ⟨x, hx, hxprint⟩ := h.placed print place hplace
        by_cases hsame : idx = place
        · rw [← hsame, hidx] at hx
          have hxe : e = x := TimelineItem.message.inj (Option.some.inj hx)
          refine ⟨richer e m, ?_, ?_⟩
          · rw [← hsame]
            exact List.getElem?_set_self (List.getElem?_eq_some_iff.mp hidx).1
          · rw [printOf_richer hprint, hxe, hxprint]
        · exact ⟨x, (List.getElem?_set_ne hsame).trans hx, hxprint⟩
      · intro x hx
        have hxin : printOf fingerprint x ∈ (rowsOf st.items).map (printOf fingerprint) := by
          rw [← hprints]
          exact List.mem_map_of_mem hx
        obtain ⟨y, hy, heq⟩ := List.mem_map.mp hxin
        rw [← heq]
        exact h.seen y hy

/-- A marker goes behind what there is. -/
theorem mergeItem_rollback (h : Indexed fingerprint st) (numTurns : Nat) (time : Int) :
    Indexed fingerprint (mergeItem fingerprint st (.rollback numTurns time)) ∧
      rowsOf (mergeItem fingerprint st (.rollback numTurns time)).items = rowsOf st.items ∧
      markersOf (mergeItem fingerprint st (.rollback numTurns time)).items =
        markersOf st.items ++ [.rollback numTurns time] := by
  have hrows : rowsOf (st.items ++ [.rollback numTurns time]) = rowsOf st.items :=
    (rowsOf_append _ _).trans (List.append_nil _)
  refine ⟨⟨?_, ?_, ?_⟩, hrows, markersOf_append _ _⟩
  · exact hrows.symm ▸ h.distinct
  · intro print idx hidx
    obtain ⟨x, hx, hprint⟩ := h.placed print idx hidx
    refine ⟨x, ?_, hprint⟩
    exact (List.getElem?_append_left (List.getElem?_eq_some_iff.mp hx).1).trans hx
  · intro x hx
    exact h.seen x (hrows ▸ hx)

/-! ## All items -/

/-- The rows are added one by one, and the markers stay in order. -/
theorem merge_run : ∀ {items : List TimelineItem} {st : MergeState}, Indexed fingerprint st →
    rowsOf (items.foldl (mergeItem fingerprint) st).items =
        (rowsOf items).foldl (addRow fingerprint) (rowsOf st.items) ∧
      markersOf (items.foldl (mergeItem fingerprint) st).items =
        markersOf st.items ++ markersOf items := by
  intro items
  induction items with
  | nil => exact fun _ => ⟨rfl, (List.append_nil _).symm⟩
  | cons item items ih =>
      intro st h
      cases item with
      | message m =>
          obtain ⟨hnext, hrows, hmarkers⟩ := mergeItem_message h m
          obtain ⟨hlater, hmarks⟩ := ih hnext
          rw [List.foldl_cons, hlater, hmarks, hrows, hmarkers]
          exact ⟨rfl, rfl⟩
      | rollback numTurns time =>
          obtain ⟨hnext, hrows, hmarkers⟩ := mergeItem_rollback h numTurns time
          obtain ⟨hlater, hmarks⟩ := ih hnext
          rw [List.foldl_cons, hlater, hmarks, hrows, hmarkers, List.append_assoc]
          exact ⟨rfl, rfl⟩

theorem indexed_start : Indexed fingerprint ⟨[], []⟩ := by
  refine ⟨List.nodup_nil, ?_, ?_⟩
  · intro print idx h
    cases h
  · intro m hm
    exact absurd hm List.not_mem_nil

/-- New rows of different fingerprints are added as they are. -/
theorem foldl_addRow_new : ∀ {rows done : List Message},
    ((done ++ rows).map (printOf fingerprint)).Nodup →
      rows.foldl (addRow fingerprint) done = done ++ rows := by
  intro rows
  induction rows with
  | nil => exact fun _ => (List.append_nil _).symm
  | cons m rows ih =>
      intro done h
      have hsplit : done ++ m :: rows = (done ++ [m]) ++ rows := by
        rw [List.append_assoc]
        rfl
      have hnew : printOf fingerprint m ∉ done.map (printOf fingerprint) := by
        intro hin
        rw [List.map_append, List.nodup_append] at h
        exact h.2.2 _ hin _ List.mem_cons_self rfl
      rw [List.foldl_cons, addRow, if_neg hnew]
      rw [hsplit] at h ⊢
      exact ih h

/-- Copies of the rows that are there make room for the richer ones, in their places. -/
theorem foldl_addRow_copies : ∀ {perUser flat done : List Message},
    ((done ++ perUser).map (printOf fingerprint)).Nodup →
    flat.map (printOf fingerprint) <+: perUser.map (printOf fingerprint) →
      perUser.foldl (addRow fingerprint) (done ++ flat) = done ++ keptRows flat perUser := by
  intro perUser
  induction perUser with
  | nil =>
      intro flat done _ hcopies
      have hnil : flat = [] := List.map_eq_nil_iff.mp (List.prefix_nil.mp hcopies)
      rw [hnil]
      rfl
  | cons p perUser ih =>
      intro flat done h hcopies
      cases flat with
      | nil =>
          rw [List.append_nil]
          exact foldl_addRow_new h
      | cons f flat =>
          obtain ⟨hprint, hrest⟩ := List.cons_prefix_cons.mp hcopies
          have hprint : printOf fingerprint f = printOf fingerprint p := hprint
          have hdone : printOf fingerprint p ∉ done.map (printOf fingerprint) := by
            intro hin
            rw [List.map_append, List.nodup_append] at h
            exact h.2.2 _ hin _ List.mem_cons_self rfl
          have hflat : printOf fingerprint p ∉ flat.map (printOf fingerprint) := by
            intro hin
            rw [List.map_append, List.nodup_append, List.map_cons, List.nodup_cons] at h
            exact h.2.1.1 (hrest.subset hin)
          have hin : printOf fingerprint p ∈ (done ++ f :: flat).map (printOf fingerprint) := by
            rw [List.map_append, List.map_cons, hprint]
            exact List.mem_append_right _ List.mem_cons_self
          have hstep : addRow fingerprint (done ++ f :: flat) p = (done ++ [richer f p]) ++ flat := by
            rw [addRow, if_pos hin, List.map_append, List.map_cons, map_update_other hdone,
              map_update_other hflat, if_pos hprint, List.append_assoc]
            rfl
          have hlater : ((done ++ [richer f p] ++ perUser).map (printOf fingerprint)).Nodup := by
            rw [List.map_append, List.map_append, List.map_singleton, printOf_richer hprint, hprint,
              List.append_assoc]
            rw [List.map_append] at h
            exact h
          rw [List.foldl_cons, hstep, ih hlater hrest, keptRows, List.append_assoc]
          rfl

theorem keptRows_length : ∀ {flat perUser : List Message}, flat.length ≤ perUser.length →
    (keptRows flat perUser).length = perUser.length := by
  intro flat
  induction flat with
  | nil =>
      intro perUser _
      cases perUser with
      | nil => rfl
      | cons p perUser => rfl
  | cons f flat ih =>
      intro perUser h
      cases perUser with
      | nil => exact absurd h (Nat.not_succ_le_zero _)
      | cons p perUser =>
          rw [keptRows, List.length_cons, List.length_cons, ih (Nat.le_of_succ_le_succ h)]

/-- The copies of the per-user layout are kept when they are the richer ones. -/
theorem keptRows_eq : ∀ {flat perUser : List Message}, flat.length ≤ perUser.length →
    (∀ pair ∈ flat.zip perUser, pair.1 = pair.2 ∨ richness pair.1 < richness pair.2) →
      keptRows flat perUser = perUser := by
  intro flat
  induction flat with
  | nil =>
      intro perUser _ _
      cases perUser with
      | nil => rfl
      | cons p perUser => rfl
  | cons f flat ih =>
      intro perUser hle h
      cases perUser with
      | nil => exact absurd hle (Nat.not_succ_le_zero _)
      | cons p perUser =>
          have hp : richer f p = p := by
            rw [richer]
            rcases h (f, p) List.mem_cons_self with heq | hlt
            · have heq : f = p := heq
              rw [heq, ite_self]
            · exact if_pos hlt
          rw [keptRows, hp, ih (Nat.le_of_succ_le_succ hle)
            (fun pair hpair => h pair (List.mem_cons_of_mem _ hpair))]

theorem rowsOf_withRows : ∀ {items : List TimelineItem} {rows : List Message},
    rows.length = (rowsOf items).length →
      rowsOf (withRows rows items) = rows ∧ markersOf (withRows rows items) = markersOf items := by
  intro items
  induction items with
  | nil =>
      intro rows h
      have hnil : rows = [] := List.length_eq_zero_iff.mp h
      rw [hnil]
      exact ⟨rfl, rfl⟩
  | cons item items ih =>
      intro rows h
      cases item with
      | rollback numTurns time =>
          obtain ⟨hrows, hmarkers⟩ := ih h
          have hwith : withRows rows (.rollback numTurns time :: items) =
              .rollback numTurns time :: withRows rows items := by
            cases rows with
            | nil => rfl
            | cons row rows => rfl
          rw [hwith]
          exact ⟨hrows, congrArg (List.cons _) hmarkers⟩
      | message m =>
          cases rows with
          | nil => exact absurd h (Nat.succ_ne_zero _).symm
          | cons row rows =>
              obtain ⟨hrows, hmarkers⟩ := ih (Nat.succ.inj h)
              exact ⟨congrArg (List.cons row) hrows, hmarkers⟩

theorem withRows_self : ∀ items : List TimelineItem, withRows (rowsOf items) items = items := by
  intro items
  induction items with
  | nil => rfl
  | cons item items ih =>
      cases item with
      | message m => exact congrArg (List.cons _) ih
      | rollback numTurns time =>
          have hwith : withRows (rowsOf items) (.rollback numTurns time :: items) =
              .rollback numTurns time :: withRows (rowsOf items) items := by
            cases rowsOf items with
            | nil => rfl
            | cons row rows => rfl
          exact hwith.trans (congrArg (List.cons _) ih)

/-! ## The order -/

theorem filter_isMessage (items : List TimelineItem) (c : Bool) :
    items.filter (fun item => isMessage item == c) =
      if c then (rowsOf items).map .message else markersOf items := by
  cases c with
  | false =>
      refine List.filter_congr ?_
      intro item _
      cases item with
      | message m => rfl
      | rollback numTurns time => rfl
  | true =>
      induction items with
      | nil => rfl
      | cons item items ih =>
          cases item with
          | message m => exact congrArg (List.cons _) ih
          | rollback numTurns time => exact ih

theorem sortKey_ne (a b : TimelineItem) (h : isMessage a ≠ isMessage b) : sortKey a ≠ sortKey b := by
  intro heq
  have hsnd : (ofLex (sortKey a)).2 = (ofLex (sortKey b)).2 := by rw [heq]
  cases a with
  | message m =>
      cases b with
      | message m' => exact h rfl
      | rollback n time => exact absurd hsnd Nat.zero_ne_one
  | rollback n time =>
      cases b with
      | message m => exact absurd hsnd.symm Nat.zero_ne_one
      | rollback n' time' => exact h rfl

/-- The same rows and the same markers come out in the same order. -/
theorem sortByKey_eq (hrows : rowsOf xs = rowsOf ys) (hmarkers : markersOf xs = markersOf ys) :
    sortByKey sortKey xs = sortByKey sortKey ys := by
  refine sortByKey_eq_of_filter sortKey_ne ?_
  intro c
  rw [filter_isMessage, filter_isMessage, hrows, hmarkers]

theorem Copies.prints {k : Nat} (h : Copies xs ys k) :
    (rowsOf xs).map (printOf fingerprint) <+: (rowsOf ys).map (printOf fingerprint) := by
  have hprints : ∀ rows : List Message,
      rows.map (printOf fingerprint) = (rows.map identOf).map fingerprint := by
    intro rows
    rw [List.map_map]
    rfl
  rw [hprints, h, ← hprints, List.map_take]
  exact List.take_prefix _ _

/-- The merged items are those of the per-user layout with the copies that are kept, and
the markers of the flat one, in order. -/
theorem mergeTimelines_eq {k : Nat} (hcopies : Copies xs ys k)
    (hdistinct : ((rowsOf ys).map (printOf fingerprint)).Nodup) :
    mergeTimelines fingerprint xs ys =
      sortByKey sortKey (markersOf xs ++ withRows (keptRows (rowsOf xs) (rowsOf ys)) ys) := by
  have hprints := @Copies.prints fingerprint xs ys k hcopies
  obtain ⟨hrows, hmarkers⟩ := @merge_run fingerprint (xs ++ ys) ⟨[], []⟩ indexed_start
  have hlength : (rowsOf xs).length ≤ (rowsOf ys).length := by
    have hle := hprints.length_le
    rw [List.length_map, List.length_map] at hle
    exact hle
  have hflat : (rowsOf xs).foldl (addRow fingerprint) [] = rowsOf xs :=
    foldl_addRow_new (hdistinct.sublist hprints.sublist)
  have hboth : (rowsOf ys).foldl (addRow fingerprint) (rowsOf xs) = keptRows (rowsOf xs) (rowsOf ys) :=
    @foldl_addRow_copies fingerprint (rowsOf ys) (rowsOf xs) [] hdistinct hprints
  obtain ⟨hkept, hmarks⟩ := rowsOf_withRows (keptRows_length hlength)
  refine sortByKey_eq ?_ ?_
  · rw [hrows, rowsOf_append, List.foldl_append]
    show (rowsOf ys).foldl _ ((rowsOf xs).foldl _ []) = _
    have hnone : rowsOf (markersOf xs) = [] := by
      refine List.filterMap_eq_nil_iff.mpr ?_
      intro item hitem
      have hmarker := (List.mem_filter.mp hitem).2
      cases item with
      | message m => cases hmarker
      | rollback numTurns time => rfl
    rw [hflat, hboth, rowsOf_append, hnone, hkept, List.nil_append]
  · have hall : markersOf (markersOf xs) = markersOf xs :=
      List.filter_eq_self.mpr (fun item hitem => (List.mem_filter.mp hitem).2)
    rw [hmarkers, markersOf_append, markersOf_append, hall, hmarks]
    rfl

end

/-- With a copy of the first rows in the flat layout a session loads as its per-user items,
with the richer copies and the markers of both, in order of time; so it is as the per-user
layout alone when that is in order, has the richer copies, and the other has no marker. -/
theorem migratedCopy_load (fingerprint : Message → String) (flat perUser : List TimelineItem) (k : Nat)
    (hcopies : Copies flat perUser k)
    (hdistinct : ((rowsOf perUser).map (printOf fingerprint)).Nodup) :
    mergedLoad fingerprint flat perUser =
        foldSessionTimeline (sortByKey sortKey
          (markersOf flat ++ withRows (keptRows (rowsOf flat) (rowsOf perUser)) perUser)) ∧
      (markersOf flat = [] → perUser.Pairwise (fun a b => sortKey a ≤ sortKey b) →
        (∀ pair ∈ (rowsOf flat).zip (rowsOf perUser),
          pair.1 = pair.2 ∨ richness pair.1 < richness pair.2) →
        mergedLoad fingerprint flat perUser = foldSessionTimeline perUser) := by
  have hmerged := mergeTimelines_eq hcopies hdistinct
  refine ⟨congrArg foldSessionTimeline hmerged, ?_⟩
  intro hmarkers hsorted hricher
  have hlength : (rowsOf flat).length ≤ (rowsOf perUser).length := by
    have hle := (@Copies.prints fingerprint flat perUser k hcopies).length_le
    rw [List.length_map, List.length_map] at hle
    exact hle
  rw [mergedLoad, hmerged, hmarkers, keptRows_eq hlength hricher, withRows_self, List.nil_append,
    sortByKey_eq_self hsorted]

/-! ## Clocks -/

def turnAt (time : Int) (content : String) (threadId : Option String) : TimelineItem :=
  .message { role := .user, content := content, clientMessageId := some content
             threadId := threadId, timestamp := time }

/-- Contents and times tell the messages below apart. -/
def contentAndTime (m : Message) : String :=
  m.content ++ "@" ++ toString m.timestamp

theorem migratedCopy_load_twoTurns :
    Copies [turnAt 1 "one" none] [turnAt 1 "one" (some "one"), turnAt 2 "two" (some "two")] 1 ∧
    ((rowsOf [turnAt 1 "one" (some "one"), turnAt 2 "two" (some "two")]).map
      (printOf contentAndTime)).Nodup ∧
    mergedLoad contentAndTime [turnAt 1 "one" none]
        [turnAt 1 "one" (some "one"), turnAt 2 "two" (some "two")] =
      foldSessionTimeline [turnAt 1 "one" (some "one"), turnAt 2 "two" (some "two")] := by
  have hcopies : Copies [turnAt 1 "one" none]
      [turnAt 1 "one" (some "one"), turnAt 2 "two" (some "two")] 1 := rfl
  have hdistinct : ((rowsOf [turnAt 1 "one" (some "one"), turnAt 2 "two" (some "two")]).map
      (printOf contentAndTime)).Nodup := by decide
  refine ⟨hcopies, hdistinct, ?_⟩
  refine (migratedCopy_load contentAndTime _ _ 1 hcopies hdistinct).2 rfl (by decide) ?_
  decide

/-- Rows that are not in order of time are put in order when the other layout is there. -/
theorem clockStep_reorders :
    Copies [turnAt 2 "one" none] [turnAt 2 "one" (some "one"), turnAt 1 "two" (some "two")] 1 ∧
    ¬ mergedLoad contentAndTime [turnAt 2 "one" none]
        [turnAt 2 "one" (some "one"), turnAt 1 "two" (some "two")] =
      foldSessionTimeline [turnAt 2 "one" (some "one"), turnAt 1 "two" (some "two")] := by
  refine ⟨rfl, ?_⟩
  decide

end Octos.Bus.Merge
