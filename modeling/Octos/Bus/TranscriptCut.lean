/-
# `Octos.Bus.TranscriptCut` — folding the end of a timeline by itself

A timeline is cut, and only its end is folded.  A marker there counts user turns by
their threads, in the order of the first user message of each:

    whole   A  B | C  A' D  ↶1      drops D
    end            C  A' D  ↶1      drops D
    whole   A  B | C  A'    ↶1      drops C
    end            C  A'    ↶1      drops A'

So the end by itself shows the user messages the whole shows behind the cut, provided
that no thread has user messages on both sides.
-/
import Octos.Bus.TranscriptFold

namespace Octos.Bus.Transcript

/-- What a user message says, and the thread it has or will get from its client. -/
def turnOf (m : Message) : String × Option String :=
  (m.content, m.threadId.or m.clientMessageId)

def userTurns (ms : List Message) : List (String × Option String) :=
  (ms.filter (fun m => m.role = .user)).map turnOf

/-- Every user message has one of these threads. -/
def Threaded (threads : List String) (ms : List Message) : Prop :=
  ∀ turn ∈ userTurns ms, ∃ thread ∈ threads, turn.2 = some thread

/-! ## Distinct threads -/

/-- The distinct ones behind those there are. -/
def addThreads (threads ids : List String) : List String :=
  ids.foldl (fun threads id => if id ∈ threads then threads else threads ++ [id]) threads

def rootId (m : Message) : Option String :=
  if m.role = .user then m.threadId else none

section

variable {threads ids before after : List String} {ms xs ys : List Message}

theorem addThreads_cons (id : String) (ids threads : List String) :
    addThreads threads (id :: ids) =
      addThreads (if id ∈ threads then threads else threads ++ [id]) ids :=
  rfl

theorem addThreads_append (threads xs ys : List String) :
    addThreads threads (xs ++ ys) = addThreads (addThreads threads xs) ys :=
  List.foldl_append

theorem userThreads_eq (ms : List Message) : userThreads ms = addThreads [] (ms.filterMap rootId) := by
  suffices h : ∀ (ms : List Message) (threads : List String),
      ms.foldl _ threads = addThreads threads (ms.filterMap rootId) from h ms []
  intro ms
  induction ms with
  | nil => exact fun _ => rfl
  | cons m ms ih =>
      intro threads
      rw [List.foldl_cons, ih, List.filterMap_cons]
      cases hrole : m.role with
      | user =>
          cases hthread : m.threadId with
          | none =>
              rw [rootId, if_pos hrole, hthread]
          | some thread =>
              rw [rootId, if_pos hrole, hthread]
              rfl
      | system =>
          rw [rootId, if_neg (by rw [hrole]; exact Role.noConfusion)]
      | assistant =>
          rw [rootId, if_neg (by rw [hrole]; exact Role.noConfusion)]
      | tool =>
          rw [rootId, if_neg (by rw [hrole]; exact Role.noConfusion)]

/-- Threads that differ from all there are come behind them. -/
theorem addThreads_apart : ∀ {ids after : List String}, (∀ id ∈ ids, id ∉ before) →
    addThreads (before ++ after) ids = before ++ addThreads after ids := by
  intro ids
  induction ids with
  | nil => exact fun _ => rfl
  | cons id ids ih =>
      intro after h
      have hid : id ∉ before := h id List.mem_cons_self
      have hrest : ∀ x ∈ ids, x ∉ before := fun x hx => h x (List.mem_cons_of_mem _ hx)
      rw [addThreads_cons, addThreads_cons]
      by_cases hafter : id ∈ after
      · rw [if_pos (List.mem_append_right _ hafter), if_pos hafter, ih hrest]
      · have hboth : id ∉ before ++ after := by
          intro hin
          rcases List.mem_append.mp hin with hin | hin
          · exact hid hin
          · exact hafter hin
        rw [if_neg hboth, if_neg hafter, List.append_assoc, ih hrest]

theorem mem_addThreads : ∀ {ids threads : List String} {id : String},
    id ∈ addThreads threads ids → id ∈ threads ∨ id ∈ ids := by
  intro ids
  induction ids with
  | nil => exact fun h => .inl h
  | cons x ids ih =>
      intro threads id h
      rw [addThreads_cons] at h
      rcases ih h with hin | hin
      · split at hin
        · exact .inl hin
        · rcases List.mem_append.mp hin with hin | hin
          · exact .inl hin
          · exact .inr (List.mem_cons.mpr (.inl (List.mem_singleton.mp hin)))
      · exact .inr (List.mem_cons_of_mem _ hin)

/-! ## Turns and synthesis -/

theorem userTurns_append (xs ys : List Message) :
    userTurns (xs ++ ys) = userTurns xs ++ userTurns ys := by
  rw [userTurns, List.filter_append, List.map_append]
  rfl

theorem userTurns_cons (m : Message) (ms : List Message) :
    userTurns (m :: ms) = (if m.role = .user then [turnOf m] else []) ++ userTurns ms := by
  rw [userTurns, List.filter_cons]
  by_cases h : m.role = .user
  · rw [if_pos (decide_eq_true h), if_pos h]
    rfl
  · rw [if_neg (fun hdec => h (of_decide_eq_true hdec)), if_neg h]
    rfl

theorem Threaded.append (hx : Threaded threads xs) (hy : Threaded threads ys) :
    Threaded threads (xs ++ ys) := by
  intro turn hturn
  rw [userTurns_append] at hturn
  rcases List.mem_append.mp hturn with hturn | hturn
  · exact hx turn hturn
  · exact hy turn hturn

/-- Messages with a thread to come keep what they say and the thread. -/
theorem userTurns_synthesizeFrom : ∀ {ms : List Message} {seq : Nat} {current : Option String},
    Threaded threads ms → userTurns (synthesizeFrom seq current ms) = userTurns ms := by
  intro ms
  induction ms with
  | nil => exact fun _ => rfl
  | cons m ms ih =>
      intro seq current h
      have hrest : Threaded threads ms := by
        intro turn hturn
        refine h turn ?_
        rw [userTurns_cons]
        exact List.mem_append_right _ hturn
      rw [synthesizeFrom]
      split
      · rw [userTurns_cons, userTurns_cons, ih hrest]
      · next hthread =>
          split
          · rw [userTurns_cons, userTurns_cons, ih hrest]
          · next hrole =>
              have hmem : turnOf m ∈ userTurns (m :: ms) := by
                rw [userTurns_cons, if_pos hrole]
                exact List.mem_cons_self
              obtain ⟨thread, -, hid⟩ := h _ hmem
              have hclient : m.clientMessageId = some thread := by
                rw [turnOf, hthread, Option.none_or] at hid
                exact hid
              rw [userTurns_cons, userTurns_cons, ih hrest, if_pos hrole, if_pos hrole]
              rw [turnOf, turnOf, hthread, hclient]
              rfl
          · next hrole =>
              have hnot : m.role ≠ .user := by
                rw [hrole]
                exact Role.noConfusion
              rw [userTurns_cons, userTurns_cons, ih hrest, if_neg hnot, if_neg hnot]
          · next hrole =>
              have hnot : m.role ≠ .user := by
                rw [hrole]
                exact Role.noConfusion
              rw [userTurns_cons, userTurns_cons, ih hrest, if_neg hnot, if_neg hnot]

/-- Synthesis of the end goes on where that of the beginning stopped. -/
theorem synthesizeFrom_split : ∀ (xs : List Message) (seq : Nat) (current : Option String),
    ∃ seq' current', ∀ ys,
      synthesizeFrom seq current (xs ++ ys) =
        synthesizeFrom seq current xs ++ synthesizeFrom seq' current' ys := by
  intro xs
  induction xs with
  | nil => exact fun seq current => ⟨seq, current, fun _ => rfl⟩
  | cons x xs ih =>
      intro seq current
      cases hthread : x.threadId with
      | some thread =>
          obtain ⟨seq', current', hys⟩ := ih (seq + 1)
            (if x.role = .user ∨ x.role = .assistant then some thread else current)
          refine ⟨seq', current', ?_⟩
          intro ys
          rw [List.cons_append, synthesizeFrom, synthesizeFrom, hthread]
          exact congrArg (List.cons _) (hys ys)
      | none =>
          cases hrole : x.role with
          | system =>
              obtain ⟨seq', current', hys⟩ := ih (seq + 1) current
              refine ⟨seq', current', ?_⟩
              intro ys
              rw [List.cons_append, synthesizeFrom, synthesizeFrom, hthread, hrole]
              exact congrArg (List.cons _) (hys ys)
          | user =>
              obtain ⟨seq', current', hys⟩ := ih (seq + 1) (some (x.clientMessageId.getD (synthId seq)))
              refine ⟨seq', current', ?_⟩
              intro ys
              rw [List.cons_append, synthesizeFrom, synthesizeFrom, hthread, hrole]
              exact congrArg (List.cons _) (hys ys)
          | assistant =>
              obtain ⟨seq', current', hys⟩ := ih (seq + 1) (some (current.getD (synthId seq)))
              refine ⟨seq', current', ?_⟩
              intro ys
              rw [List.cons_append, synthesizeFrom, synthesizeFrom, hthread, hrole]
              exact congrArg (List.cons _) (hys ys)
          | tool =>
              obtain ⟨seq', current', hys⟩ := ih (seq + 1) (some (current.getD (synthId seq)))
              refine ⟨seq', current', ?_⟩
              intro ys
              rw [List.cons_append, synthesizeFrom, synthesizeFrom, hthread, hrole]
              exact congrArg (List.cons _) (hys ys)

/-! ## Dropping turns -/

/-- The threads that a marker drops. -/
def droppedThreads (ms : List Message) (n : Nat) : List String :=
  (userThreads ms).drop ((userThreads ms).length - min n (userThreads ms).length)

theorem dropLastNUserTurns_fst (ms : List Message) (n : Nat) :
    (dropLastNUserTurns ms n).1 = withoutThreads (droppedThreads ms n) ms := by
  rw [dropLastNUserTurns]
  split
  · next hzero =>
      have hnone : droppedThreads ms n = [] := by
        rw [droppedThreads, hzero, Nat.sub_zero, List.drop_length]
      rw [hnone, withoutThreads]
      refine (List.filter_eq_self.mpr ?_).symm
      intro m _
      cases m.threadId with
      | none => rfl
      | some thread => rfl
  · rfl

/-- The threads of settled user messages. -/
theorem filterMap_rootId (h : ∀ m ∈ ms, Settled m) :
    ms.filterMap rootId = (userTurns ms).filterMap Prod.snd := by
  induction ms with
  | nil => rfl
  | cons m ms ih =>
      have hrest := ih (fun x hx => h x (List.mem_cons_of_mem _ hx))
      rw [List.filterMap_cons, userTurns_cons, List.filterMap_append, ← hrest]
      by_cases hrole : m.role = .user
      · rw [rootId, if_pos hrole, if_pos hrole]
        rcases h m List.mem_cons_self with hthread | hsystem
        · obtain ⟨thread, hthread⟩ := Option.isSome_iff_exists.mp hthread
          rw [hthread]
          show thread :: _ = ([turnOf m].filterMap Prod.snd) ++ _
          rw [List.filterMap_cons, turnOf, hthread]
          rfl
        · rw [hrole] at hsystem
          cases hsystem
      · rw [rootId, if_neg hrole, if_neg hrole]
        rfl

theorem userThreads_settled (h : ∀ m ∈ ms, Settled m) :
    userThreads ms = addThreads [] ((userTurns ms).filterMap Prod.snd) := by
  rw [userThreads_eq, filterMap_rootId h]

/-- What is left says which turns are left. -/
theorem userTurns_withoutThreads (h : ∀ m ∈ ms, Settled m) (dropped : List String) :
    userTurns (withoutThreads dropped ms) =
      (userTurns ms).filter (fun turn => turn.2.all (fun thread => !dropped.contains thread)) := by
  induction ms with
  | nil => rfl
  | cons m ms ih =>
      have hrest := ih (fun x hx => h x (List.mem_cons_of_mem _ hx))
      rw [userTurns_cons, List.filter_append, ← hrest, withoutThreads, List.filter_cons]
      by_cases hrole : m.role = .user
      · have hthread : (turnOf m).2 = m.threadId := by
          rcases h m List.mem_cons_self with hthread | hsystem
          · obtain ⟨thread, hthread⟩ := Option.isSome_iff_exists.mp hthread
            rw [turnOf, hthread]
            rfl
          · rw [hrole] at hsystem
            cases hsystem
        rw [if_pos hrole, List.filter_singleton, hthread]
        split
        · next hkept =>
            rw [userTurns_cons, if_pos hrole, hkept]
            rfl
        · next hgone =>
            rw [Bool.eq_false_of_not_eq_true hgone]
            rfl
      · rw [if_neg hrole]
        split
        · rw [userTurns_cons, if_neg hrole]
          rfl
        · rfl

/-- A root of a settled transcript is the thread of one of its turns. -/
theorem turn_of_mem_userThreads (h : ∀ m ∈ ms, Settled m) {thread : String}
    (hthread : thread ∈ userThreads ms) : ∃ turn ∈ userTurns ms, turn.2 = some thread := by
  rw [userThreads_settled h] at hthread
  rcases mem_addThreads hthread with hin | hin
  · exact absurd hin List.not_mem_nil
  · exact List.mem_filterMap.mp hin

/-! ## The end of a timeline -/

/-- The whole holds, behind what is older, the turns of the end; and what is older has
no user message in a thread of the end. -/
structure Shadows (threads : List String) (whole part : List Message) : Prop where
  threaded : Threaded threads part
  split : ∃ older newer, whole = older ++ newer ∧ userTurns newer = userTurns part ∧
    ∀ turn ∈ userTurns (synthesizeThreadIds older), ∀ thread ∈ threads, turn.2 ≠ some thread

variable {whole part : List Message}

theorem Threaded.of_userTurns (h : Threaded threads ms) (heq : userTurns xs = userTurns ms) :
    Threaded threads xs := by
  intro turn hturn
  rw [heq] at hturn
  exact h turn hturn

theorem Shadows.message (h : Shadows threads whole part) {m : Message} (hm : Threaded threads [m]) :
    Shadows threads (whole ++ [m]) (part ++ [m]) := by
  obtain ⟨older, newer, rfl, hturns, hapart⟩ := h.split
  refine ⟨h.threaded.append hm, older, newer ++ [m], List.append_assoc _ _ _, ?_, hapart⟩
  rw [userTurns_append, userTurns_append, hturns]

theorem Shadows.synthesize (h : Shadows threads whole part) :
    ∃ older newer, synthesizeThreadIds whole = older ++ newer ∧
      userTurns newer = userTurns (synthesizeThreadIds part) ∧
      (∀ turn ∈ userTurns older, ∀ thread ∈ threads, turn.2 ≠ some thread) ∧
      (∀ m ∈ older, Settled m) ∧ ∀ m ∈ newer, Settled m := by
  obtain ⟨older, newer, rfl, hturns, hapart⟩ := h.split
  obtain ⟨seq, current, hsplit⟩ := synthesizeFrom_split older 0 none
  refine ⟨synthesizeThreadIds older, synthesizeFrom seq current newer, hsplit newer, ?_, hapart,
    settled_synthesizeFrom, settled_synthesizeFrom⟩
  have hpart : userTurns (synthesizeThreadIds part) = userTurns part :=
    userTurns_synthesizeFrom h.threaded
  rw [userTurns_synthesizeFrom (h.threaded.of_userTurns hturns), hturns, hpart]

/-- The threads of the end come behind those of what is older, and a marker takes them
from both alike. -/
theorem mem_droppedThreads_append {older newer part : List Message} (holder : ∀ m ∈ older, Settled m)
    (hnewer : ∀ m ∈ newer, Settled m) (hpart : ∀ m ∈ part, Settled m)
    (hturns : userTurns newer = userTurns part) (hthreaded : Threaded threads part)
    (hapart : ∀ turn ∈ userTurns older, ∀ thread ∈ threads, turn.2 ≠ some thread) (n : Nat)
    {thread : String} (hthread : thread ∈ threads) :
    thread ∈ droppedThreads (older ++ newer) n ↔ thread ∈ droppedThreads part n := by
  have hnot : ∀ id ∈ threads, id ∉ userThreads older := by
    intro id hid hin
    obtain ⟨turn, hturn, hsome⟩ := turn_of_mem_userThreads holder hin
    exact hapart turn hturn id hid hsome
  have hids : ∀ id ∈ newer.filterMap rootId, id ∉ userThreads older := by
    intro id hid
    rw [filterMap_rootId hnewer, hturns] at hid
    obtain ⟨turn, hturn, hsome⟩ := List.mem_filterMap.mp hid
    obtain ⟨id', hid', hsome'⟩ := hthreaded turn hturn
    rw [hsome] at hsome'
    exact hnot id (Option.some.inj hsome' ▸ hid')
  have hboth : userThreads (older ++ newer) = userThreads older ++ userThreads part := by
    have hapartThreads := @addThreads_apart (userThreads older) (newer.filterMap rootId) [] hids
    rw [List.append_nil] at hapartThreads
    rw [userThreads_eq (older ++ newer), List.filterMap_append, addThreads_append,
      ← userThreads_eq older, hapartThreads, ← userThreads_eq, userThreads_settled hnewer, hturns,
      ← userThreads_settled hpart]
  have hcount : (userThreads older).length + (userThreads part).length -
      min n ((userThreads older).length + (userThreads part).length) - (userThreads older).length =
      (userThreads part).length - min n (userThreads part).length := by
    omega
  rw [droppedThreads, hboth, List.length_append, List.drop_append, hcount, List.mem_append]
  constructor
  · rintro (hin | hin)
    · exact absurd (List.mem_of_mem_drop hin) (hnot thread hthread)
    · exact hin
  · exact Or.inr

/-- A marker drops the same turns of the end from both. -/
theorem Shadows.rollback (h : Shadows threads whole part) (n : Nat) :
    Shadows threads (dropLastNUserTurns (synthesizeThreadIds whole) n).1
      (dropLastNUserTurns (synthesizeThreadIds part) n).1 := by
  obtain ⟨older, newer, hwhole, hturns, hapart, holder, hnewer⟩ := h.synthesize
  have hpart : ∀ m ∈ synthesizeThreadIds part, Settled m := settled_synthesizeFrom
  have hthreaded : Threaded threads (synthesizeThreadIds part) :=
    h.threaded.of_userTurns (userTurns_synthesizeFrom h.threaded)
  have hdropped := fun thread (hthread : thread ∈ threads) =>
    mem_droppedThreads_append holder hnewer hpart hturns hthreaded hapart n hthread
  rw [dropLastNUserTurns_fst, dropLastNUserTurns_fst, hwhole]
  refine ⟨?_, withoutThreads (droppedThreads (older ++ newer) n) older,
    withoutThreads (droppedThreads (older ++ newer) n) newer, List.filter_append _ _, ?_, ?_⟩
  · intro turn hturn
    rw [userTurns_withoutThreads hpart] at hturn
    exact hthreaded turn (List.mem_of_mem_filter hturn)
  · rw [userTurns_withoutThreads hnewer, userTurns_withoutThreads hpart, hturns]
    refine List.filter_congr ?_
    intro turn hturn
    obtain ⟨thread, hthread, hsome⟩ := hthreaded turn hturn
    rw [hsome]
    show (!List.contains _ thread) = (!List.contains _ thread)
    rw [List.contains_eq_mem, List.contains_eq_mem, decide_eq_decide.mpr (hdropped thread hthread)]
  · intro turn hturn
    have hsettled : ∀ m ∈ withoutThreads (droppedThreads (older ++ newer) n) older, Settled m :=
      fun m hm => holder m (withoutThreads_subset _ _ hm)
    rw [synthesizeThreadIds, synthesizeFrom_settled hsettled, userTurns_withoutThreads holder] at hturn
    exact hapart turn (List.mem_of_mem_filter hturn)

/-- The fold of the end goes along with that of the whole. -/
theorem Shadows.run : ∀ {items : List TimelineItem} {whole part : List Message} {spilled spilled' : Bool},
    (∀ m, .message m ∈ items → Threaded threads [m]) → Shadows threads whole part →
      Shadows threads (items.foldl foldItem (whole, spilled)).1
        (items.foldl foldItem (part, spilled')).1 := by
  intro items
  induction items with
  | nil => exact fun _ h => h
  | cons item items ih =>
      intro whole part spilled spilled' hitems h
      have hrest : ∀ m, .message m ∈ items → Threaded threads [m] :=
        fun m hm => hitems m (List.mem_cons_of_mem _ hm)
      cases item with
      | message m => exact ih hrest (h.message (hitems m List.mem_cons_self))
      | rollback n => exact ih hrest (h.rollback n)

/-- The user messages of the end are the last ones of the whole. -/
theorem userTurns_foldTimeline_append {head tail : List TimelineItem}
    (htail : ∀ m, .message m ∈ tail → Threaded threads [m])
    (hapart : ∀ turn ∈ userTurns (foldTimeline head), ∀ thread ∈ threads, turn.2 ≠ some thread) :
    ∃ older, userTurns (foldTimeline (head ++ tail)) = older ++ userTurns (foldTimeline tail) := by
  have hstart : Shadows threads (head.foldl foldItem ([], false)).1 [] := by
    refine ⟨fun turn hturn => absurd hturn List.not_mem_nil,
      (head.foldl foldItem ([], false)).1, [], (List.append_nil _).symm, rfl, hapart⟩
  have hrun := @Shadows.run threads tail _ _ (head.foldl foldItem ([], false)).2 false htail hstart
  obtain ⟨older, newer, hwhole, hturns, -⟩ := hrun.synthesize
  refine ⟨userTurns older, ?_⟩
  rw [foldTimeline, foldTrackingSpill, List.foldl_append]
  show userTurns (synthesizeThreadIds (tail.foldl foldItem (_, _)).1) = _
  rw [hwhole, userTurns_append, hturns]
  rfl

/-- No thread has user messages on both sides of the cut, and those behind it have one. -/
def CutApart (head tail : List TimelineItem) : Prop :=
  ∀ m, .message m ∈ tail → m.role = .user →
    ∃ thread, (turnOf m).2 = some thread ∧
      ∀ m' ∈ foldTimeline head, m'.role = .user → m'.threadId ≠ some thread

/-- The thread that an item of a timeline roots or will root. -/
def itemThread : TimelineItem → Option String
  | .message m => if m.role = .user then (turnOf m).2 else none
  | .rollback _ => none

theorem CutApart.userTurns {head tail : List TimelineItem} (h : CutApart head tail) :
    ∃ older, userTurns (foldTimeline (head ++ tail)) = older ++ userTurns (foldTimeline tail) := by
  have hmem : ∀ m, .message m ∈ tail → m.role = .user → ∀ thread, (turnOf m).2 = some thread →
      thread ∈ tail.filterMap itemThread := by
    intro m hm hrole thread hthread
    refine List.mem_filterMap.mpr ⟨.message m, hm, ?_⟩
    rw [itemThread, if_pos hrole, hthread]
  refine @userTurns_foldTimeline_append (tail.filterMap itemThread) head tail ?_ ?_
  · intro m hm turn hturn
    rw [userTurns_cons] at hturn
    split at hturn
    · next hrole =>
        obtain ⟨thread, hthread, -⟩ := h m hm hrole
        have heq : turn = turnOf m := List.mem_singleton.mp hturn
        exact ⟨thread, hmem m hm hrole thread hthread, heq ▸ hthread⟩
    · exact absurd hturn List.not_mem_nil
  · intro turn hturn thread hthread hsome
    obtain ⟨item, hitem, hroot⟩ := List.mem_filterMap.mp hthread
    obtain ⟨m', hm', rfl⟩ := List.mem_map.mp hturn
    obtain ⟨hin, hrole'⟩ := List.mem_filter.mp hm'
    have hrole' : m'.role = .user := of_decide_eq_true hrole'
    cases item with
    | rollback n => cases hroot
    | message m =>
        rw [itemThread] at hroot
        split at hroot
        · next hrole =>
            obtain ⟨own, hown, hother⟩ := h m hitem hrole
            rw [hown] at hroot
            refine hother m' hin hrole' ?_
            rcases foldTimeline_settled head m' hin with hset | hsystem
            · obtain ⟨there, hthere⟩ := Option.isSome_iff_exists.mp hset
              rw [turnOf, hthere] at hsome
              rw [hthere, hroot]
              exact hsome
            · rw [hrole'] at hsystem
              cases hsystem
        · cases hroot

end

end Octos.Bus.Transcript
