/-
# `Octos.Agent.Trimmers` — where a conversation may be cut

Three trimmers keep the first message and a tail: `find_recent_boundary` and
`fallback_trim` of `compaction.rs`, `fallback_truncate` of `agent/compaction.rs`.
Each walks over the messages from the newest to the oldest while they fit, clamps
the split, and then walks back past the results at it.  `mechanical_route_refit`
walks forward past them.

    find_recent_boundary     at least six messages, half of the budget
    fallback_trim, _truncate at least two messages behind the first

The estimate of a message is a parameter: where a cut may fall does not depend on it.
-/
import Octos.Llm.Refit

namespace Octos.Agent

open Octos.Llm

/-! ## The trimmers -/

/-- `MIN_RECENT_MESSAGES` -/
def minRecentMessages : Nat :=
  6

section

variable (estimate : Message → Nat) (messages : List Message)

def estimateAt (i : Nat) : Nat :=
  (messages[i]?.map estimate).getD 0

/-- `while split > 1 && messages[split].role == Tool` -/
def walkBack : Nat → Nat
  | 0 => 0
  | 1 => 1
  | split + 2 => if toolAt messages (split + 2) then walkBack (split + 1) else split + 2

/-- The loop of `find_recent_boundary`, downward from an index to 1, with the tokens, the
messages and the split so far. -/
def recentFrom (budget systemTokens : Nat) : Nat → Nat → Nat → Nat → Nat
  | 0, _, _, split => split
  | i + 1, recentTokens, count, split =>
      let msgTokens := estimateAt estimate messages (i + 1)
      if minRecentMessages ≤ count + 1 ∧ budget / 2 < systemTokens + recentTokens + msgTokens then split
      else recentFrom budget systemTokens i (recentTokens + msgTokens) (count + 1) (i + 1)

def findRecentBoundary (budget systemTokens : Nat) : Nat :=
  walkBack messages
    (recentFrom estimate messages budget systemTokens (messages.length - 1) 0 0 messages.length)

/-- The loop of the two fallbacks, downward from an index to 1. -/
def keepWithin (limit : Nat) : Nat → Nat → Nat → Nat
  | 0, _, keepFrom => keepFrom
  | i + 1, kept, keepFrom =>
      let tokens := estimateAt estimate messages (i + 1)
      if limit < kept + tokens then keepFrom else keepWithin limit i (kept + tokens) (i + 1)

/-- Where the tail begins: at least two messages, and no result in front. -/
def fallbackSplit (limit : Nat) : Nat :=
  walkBack messages
    (min (keepWithin estimate messages limit (messages.length - 1) (estimateAt estimate messages 0)
      messages.length) (messages.length - 2))

/-- The messages that are left, and how many went. -/
def fallbackTrim (budget : Nat) : List Message × Nat :=
  if messages.isEmpty then (messages, 0)
  else
    let split := fallbackSplit estimate messages budget
    if 1 < split then (keepFrom messages 1 split, split - 1) else (messages, 0)

/-- The messages that are left, and whether any went. -/
def fallbackTruncate (limit : Nat) : List Message × Bool :=
  let split := fallbackSplit estimate messages limit
  if 1 < split then (keepFrom messages 1 split, decide (0 < split - 1)) else (messages, false)

end

/-! ## Results and their calls -/

/-- The result at `j` lies in the block of results directly behind the assistant at `a`,
which made its call. -/
structure Answers (messages : List Message) (a j : Nat) : Prop where
  before : a < j
  block : ∀ i, a < i → i ≤ j → toolAt messages i = true
  call : ∃ assistant result id, messages[a]? = some assistant ∧ messages[j]? = some result ∧
    result.toolCallId = some id ∧ assistant.declares id = true

/-- A transcript as providers want it. -/
structure InBlocks (messages : List Message) : Prop where
  first : ∃ m, messages[0]? = some m ∧ m.role ≠ .tool
  answered : ∀ j, toolAt messages j = true → ∃ a, Answers messages a j

/-- The first `lead` messages and a tail are left, and no result without its assistant. -/
structure TrimsTo (messages : List Message) (lead : Nat) (out : List Message) : Prop where
  suffix : ∃ split, lead ≤ split ∧ split ≤ messages.length ∧ out = keepFrom messages lead split ∧
    ∀ a j, Answers messages a j → j < lead ∨ split ≤ j → a < lead ∨ split ≤ a
  answered : ∀ j, toolAt out j = true → ∃ a, Answers out a j

section

variable {messages : List Message} {lead split : Nat}

theorem keepFrom_self : keepFrom messages lead lead = messages :=
  List.take_append_drop lead messages

theorem getElem?_keepFrom_tail {i : Nat} (hlead : lead ≤ messages.length) (h : lead ≤ i) :
    (keepFrom messages lead split)[i]? = messages[split + (i - lead)]? := by
  have hlen : (messages.take lead).length = lead := by
    rw [List.length_take, Nat.min_eq_left hlead]
  rw [keepFrom, List.getElem?_append_right (by omega), hlen, List.getElem?_drop]

theorem toolAt_keepFrom_tail {i : Nat} (hlead : lead ≤ messages.length) (h : lead ≤ i) :
    toolAt (keepFrom messages lead split) i = toolAt messages (split + (i - lead)) := by
  rw [toolAt, toolAt, getElem?_keepFrom_tail hlead h]

theorem toolAt_keepFrom_lead {i : Nat} (hlead : lead ≤ messages.length) (h : i < lead) :
    toolAt (keepFrom messages lead split) i = toolAt messages i := by
  have hlen : (messages.take lead).length = lead := by
    rw [List.length_take, Nat.min_eq_left hlead]
  rw [toolAt, toolAt, keepFrom, List.getElem?_append_left (by omega), List.getElem?_take, if_pos h]

/-- A tail that does not begin inside a block keeps the assistant of every result in it. -/
theorem Answers.kept {a j : Nat} (h : Answers messages a j) (hsplit : toolAt messages split = false)
    (hj : split ≤ j) : split ≤ a := by
  by_contra hlt
  have htool := h.block split (by omega) hj
  rw [hsplit] at htool
  cases htool

theorem Answers.shift {a j : Nat} (h : Answers messages a j) (hlead : lead ≤ messages.length)
    (ha : split ≤ a) :
    Answers (keepFrom messages lead split) (a - split + lead) (j - split + lead) := by
  have hj := h.before
  refine ⟨by omega, ?_, ?_⟩
  · intro i hai hij
    rw [toolAt_keepFrom_tail hlead (by omega)]
    exact h.block _ (by omega) (by omega)
  · obtain ⟨assistant, result, id, hassistant, hresult, hid, hdeclares⟩ := h.call
    refine ⟨assistant, result, id, ?_, ?_, hid, hdeclares⟩
    · rw [getElem?_keepFrom_tail hlead (by omega), ← hassistant]
      congr 1
      omega
    · rw [getElem?_keepFrom_tail hlead (by omega), ← hresult]
      congr 1
      omega

/-- A cut behind messages that are no results, at a message that is none. -/
theorem trimsTo_keepFrom (h : InBlocks messages) (hlead : ∀ j, j < lead → toolAt messages j = false)
    (hle : lead ≤ split) (hlen : split ≤ messages.length)
    (hsplit : lead < split → toolAt messages split = false) :
    TrimsTo messages lead (keepFrom messages lead split) := by
  have hmessages : lead ≤ messages.length := Nat.le_trans hle hlen
  rcases Nat.eq_or_lt_of_le hle with rfl | hlt
  · refine ⟨⟨lead, Nat.le_refl _, hlen, rfl, fun a _ _ _ => Nat.lt_or_ge a lead⟩, ?_⟩
    rw [keepFrom_self]
    exact h.answered
  · have hno := hsplit hlt
    refine ⟨⟨split, hle, hlen, rfl, ?_⟩, ?_⟩
    · intro a j hanswers hkept
      rcases hkept with hj | hj
      · have htool := hanswers.block j hanswers.before (Nat.le_refl _)
        rw [hlead j hj] at htool
        cases htool
      · exact Or.inr (hanswers.kept hno hj)
    · intro j htool
      rcases Nat.lt_or_ge j lead with hj | hj
      · rw [toolAt_keepFrom_lead hmessages hj, hlead j hj] at htool
        cases htool
      · rw [toolAt_keepFrom_tail hmessages hj] at htool
        obtain ⟨a, hanswers⟩ := h.answered _ htool
        have ha := hanswers.kept hno (Nat.le_add_right _ _)
        refine ⟨a - split + lead, ?_⟩
        have hshift := hanswers.shift hmessages ha
        have hback : split + (j - lead) - split + lead = j := by omega
        rwa [hback] at hshift

/-! ## Where the trimmers cut -/

theorem walkBack_le : ∀ {split : Nat}, walkBack messages split ≤ split
  | 0 => Nat.le_refl _
  | 1 => Nat.le_refl _
  | split + 2 => by
      rw [walkBack]
      split
      · exact Nat.le_succ_of_le walkBack_le
      · exact Nat.le_refl _

theorem walkBack_pos : ∀ {split : Nat}, 1 ≤ split → 1 ≤ walkBack messages split
  | 1, _ => Nat.le_refl _
  | split + 2, _ => by
      rw [walkBack]
      split
      · exact walkBack_pos (Nat.succ_pos _)
      · exact Nat.succ_pos _

/-- Walking back ends at a message that is no result, or behind the first message. -/
theorem walkBack_stops : ∀ {split : Nat}, 1 < walkBack messages split →
    toolAt messages (walkBack messages split) = false
  | 0, h => absurd (show 1 < 0 from h) (Nat.not_lt_zero 1)
  | 1, h => absurd (show 1 < 1 from h) (Nat.lt_irrefl 1)
  | split + 2, h => by
      rw [walkBack] at h ⊢
      split
      · next htool =>
          rw [if_pos htool] at h
          exact walkBack_stops h
      · next htool => exact Bool.eq_false_iff.mpr htool

theorem recentFrom_bounds {estimate : Message → Nat} {budget systemTokens bound : Nat} :
    ∀ {i recentTokens count split : Nat}, 1 ≤ split → split ≤ bound → i ≤ bound →
      1 ≤ recentFrom estimate messages budget systemTokens i recentTokens count split ∧
        recentFrom estimate messages budget systemTokens i recentTokens count split ≤ bound := by
  intro i
  induction i with
  | zero =>
      intro recentTokens count split hpos hsplit _
      exact ⟨hpos, hsplit⟩
  | succ i ih =>
      intro recentTokens count split hpos hsplit hi
      rw [recentFrom]
      split
      · exact ⟨hpos, hsplit⟩
      · exact ih (Nat.succ_pos _) hi (Nat.le_of_succ_le hi)

theorem toolAt_first (h : InBlocks messages) (j : Nat) (hj : j < 1) : toolAt messages j = false := by
  obtain ⟨m, hm, hrole⟩ := h.first
  obtain rfl := Nat.lt_one_iff.mp hj
  exact (toolAt_eq_false hm).mpr hrole

theorem length_pos (h : InBlocks messages) : 1 ≤ messages.length := by
  obtain ⟨m, hm, -⟩ := h.first
  exact (List.getElem?_eq_some_iff.mp hm).1

/-- A cut behind the first message, at a split that was walked back to. -/
theorem trimsTo_walkBack (h : InBlocks messages) (hpos : 1 ≤ split)
    (hlen : split ≤ messages.length) :
    TrimsTo messages 1 (keepFrom messages 1 (walkBack messages split)) :=
  trimsTo_keepFrom h (toolAt_first h) (walkBack_pos hpos) (Nat.le_trans walkBack_le hlen) walkBack_stops

theorem trimsTo_boundary (h : InBlocks messages) (estimate : Message → Nat)
    (budget systemTokens : Nat) :
    TrimsTo messages 1
      (keepFrom messages 1 (findRecentBoundary estimate messages budget systemTokens)) := by
  have hbounds : 1 ≤ recentFrom estimate messages budget systemTokens (messages.length - 1) 0 0
        messages.length ∧
      recentFrom estimate messages budget systemTokens (messages.length - 1) 0 0 messages.length ≤
        messages.length :=
    recentFrom_bounds (length_pos h) (Nat.le_refl _) (Nat.sub_le messages.length 1)
  exact trimsTo_walkBack h hbounds.1 hbounds.2

/-- Both fallbacks leave the messages as they are, or cut them at the split. -/
theorem trimsTo_fallback (h : InBlocks messages) (estimate : Message → Nat) (limit : Nat) :
    TrimsTo messages 1
      (if 1 < fallbackSplit estimate messages limit then
        keepFrom messages 1 (fallbackSplit estimate messages limit) else messages) := by
  split
  · next hsplit =>
      have hbelow : 1 < min (keepWithin estimate messages limit (messages.length - 1)
          (estimateAt estimate messages 0) messages.length) (messages.length - 2) :=
        Nat.lt_of_lt_of_le hsplit walkBack_le
      exact trimsTo_walkBack h hbelow.le (by omega)
  · have hself := trimsTo_keepFrom h (toolAt_first h) (Nat.le_refl 1) (length_pos h)
      (fun hlt => absurd hlt (Nat.lt_irrefl 1))
    rwa [keepFrom_self] at hself

theorem fallbackTrim_fst (h : InBlocks messages) (estimate : Message → Nat) (budget : Nat) :
    (fallbackTrim estimate messages budget).1 =
      if 1 < fallbackSplit estimate messages budget then
        keepFrom messages 1 (fallbackSplit estimate messages budget) else messages := by
  have hne : messages.isEmpty = false := by
    have := length_pos h
    cases messages with
    | nil => cases this
    | cons m rest => rfl
  rw [fallbackTrim, hne]
  show (if 1 < fallbackSplit estimate messages budget then
    (keepFrom messages 1 (fallbackSplit estimate messages budget),
      fallbackSplit estimate messages budget - 1) else (messages, 0)).1 = _
  split
  · rfl
  · rfl

theorem fallbackTruncate_fst (estimate : Message → Nat) (limit : Nat) :
    (fallbackTruncate estimate messages limit).1 =
      if 1 < fallbackSplit estimate messages limit then
        keepFrom messages 1 (fallbackSplit estimate messages limit) else messages := by
  rw [fallbackTruncate]
  split
  · rfl
  · rfl

/-- The leading messages of a refit are the system's, or there are none. -/
theorem toolAt_of_lt_sysEnd {j : Nat} (h : j < sysEnd messages) : toolAt messages j = false := by
  by_cases hall : ∀ m ∈ messages, m.role = .system
  · rw [sysEnd_eq_zero hall] at h
    omega
  · have hmixed : ∃ m ∈ messages, m.role ≠ .system := by
      by_contra hno
      exact hall (fun m hm => by_contra (fun hrole => hno ⟨m, hm, hrole⟩))
    rw [sysEnd_eq hmixed] at h
    have hget : messages[j]? = some (leading messages)[j] := by
      have htake : (messages.take (leading messages).length)[j]? = messages[j]? := by
        rw [List.getElem?_take, if_pos h]
      rw [← htake, take_leading, List.getElem?_eq_getElem h]
    refine (toolAt_eq_false hget).mpr ?_
    have hrole := List.mem_takeWhile_imp (List.getElem_mem h)
    rw [beq_iff_eq] at hrole
    rw [hrole]
    decide

theorem trimsTo_refit {ToolSpec : Type} {fits : List Message → List ToolSpec → Bool}
    {tools : List ToolSpec} {kept : List Message} (h : InBlocks messages)
    (hrefit : mechanicalRouteRefit fits tools messages = some kept) :
    TrimsTo messages (sysEnd messages) kept := by
  obtain ⟨last, hlast⟩ : ∃ last, messages.length = last + 1 :=
    ⟨messages.length - 1, by have := length_pos h; omega⟩
  rw [refit_eq hlast] at hrefit
  obtain ⟨j, hle, hlt, hj, rfl, -⟩ := refitFrom_some hrefit
  exact trimsTo_keepFrom h (fun _ => toolAt_of_lt_sysEnd) (by omega) (by omega) (fun _ => hj.1)

/-- Each trimmer keeps the messages in front and a tail, and no result without the
assistant that made its call. -/
theorem trimmers_keep_calls (h : InBlocks messages) (estimate : Message → Nat) :
    (∀ budget systemTokens, TrimsTo messages 1
      (keepFrom messages 1 (findRecentBoundary estimate messages budget systemTokens))) ∧
    (∀ budget, TrimsTo messages 1 (fallbackTrim estimate messages budget).1) ∧
    (∀ limit, TrimsTo messages 1 (fallbackTruncate estimate messages limit).1) ∧
    ∀ (ToolSpec : Type) (fits : List Message → List ToolSpec → Bool) (tools : List ToolSpec)
      (kept : List Message), mechanicalRouteRefit fits tools messages = some kept →
      TrimsTo messages (sysEnd messages) kept := by
  refine ⟨trimsTo_boundary h estimate, ?_, ?_, fun _ _ _ _ hrefit => trimsTo_refit h hrefit⟩
  · intro budget
    rw [fallbackTrim_fst h]
    exact trimsTo_fallback h estimate budget
  · intro limit
    rw [fallbackTruncate_fst]
    exact trimsTo_fallback h estimate limit

end

/-! ## A block of two results -/

def twoLookups : List Message :=
  [{ role := .user, content := "compare", timestamp := 0 },
   { role := .assistant, content := "", timestamp := 1,
     toolCalls := some [{ id := "left", name := "read_file" }, { id := "right", name := "read_file" }] },
   { role := .tool, content := "1", toolCallId := some "left", timestamp := 2 },
   { role := .tool, content := "2", toolCallId := some "right", timestamp := 3 },
   { role := .assistant, content := "they differ", timestamp := 4 }]

theorem inBlocks_twoLookups : InBlocks twoLookups := by
  refine ⟨⟨_, rfl, by decide⟩, ?_⟩
  intro j htool
  match j, htool with
  | 2, _ =>
      refine ⟨1, by decide, ?_, _, _, "left", rfl, rfl, rfl, by decide⟩
      intro i hi hle
      obtain rfl : i = 2 := by omega
      rfl
  | 3, _ =>
      refine ⟨1, by decide, ?_, _, _, "right", rfl, rfl, rfl, by decide⟩
      intro i hi hle
      obtain rfl | rfl : i = 2 ∨ i = 3 := by omega
      · rfl
      · rfl
  | 4, htool => cases htool
  | j + 5, htool => cases htool

/-- The budget holds the last message alone and the clamp lands on the second result: the
whole block stays. -/
theorem trimmers_keep_calls_twoLookups :
    fallbackSplit (fun _ => 10) twoLookups 25 = 1 ∧
      TrimsTo twoLookups 1 (fallbackTrim (fun _ => 10) twoLookups 25).1 :=
  ⟨by decide, (trimmers_keep_calls inBlocks_twoLookups (fun _ => 10)).2.1 25⟩

end Octos.Agent
