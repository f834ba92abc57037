/-
# `Octos.Llm.Refit` — fitting a conversation to a smaller route

`mechanical_route_refit` of `context.rs`.  A request that does not fit the window of
a route is cut: the leading system messages stay, and behind them the oldest
messages go, until what is left fits.

    system .. system | dropped .. dropped | kept .. final
                     lead                 split

The tail never begins with a result, so that no result loses its call.  The best
that can be hoped for is the first split that fits, as what is kept only gets
shorter; and the last split there is leaves the final message alone.
-/
import Octos.Agent.MessageRepair

namespace Octos.Llm

open Octos.Agent (Message MessageRole)

/-- `position(|m| m.role != System).unwrap_or(0)` -/
def sysEnd (messages : List Message) : Nat :=
  (messages.findIdx? (fun m => m.role != .system)).getD 0

/-- `messages[..lead]` and `messages[split..]`. -/
def keepFrom (messages : List Message) (lead split : Nat) : List Message :=
  messages.take lead ++ messages.drop split

/-- The message at an index is a result. -/
def toolAt (messages : List Message) (i : Nat) : Bool :=
  messages[i]?.any (fun m => m.role == .tool)

section

variable {ToolSpec : Type} (fits : List Message → List ToolSpec → Bool) (tools : List ToolSpec)
  (messages : List Message)

/-- The loop over `split`, with the rounds that are left before `last`. -/
def refitFrom (lead : Nat) : Nat → Nat → Option (List Message)
  | 0, _ => none
  | rounds + 1, split =>
      if toolAt messages split then refitFrom lead rounds (split + 1)
      else if fits (keepFrom messages lead split) tools then some (keepFrom messages lead split)
      else refitFrom lead rounds (split + 1)

/-- `route_fits_request` is the predicate. -/
def mechanicalRouteRefit : Option (List Message) :=
  match messages.length with
  | 0 => none
  | last + 1 =>
      let lead := sysEnd messages
      if last ≤ lead then none
      else refitFrom fits tools messages lead (last - (lead + 1)) (lead + 1)

end

/-! ## What a refit is for -/

def leading (messages : List Message) : List Message :=
  messages.takeWhile (fun m => m.role == .system)

/-- The leading system messages, and a tail that does not begin with a result, with
something dropped between them. -/
def Candidate (messages kept : List Message) : Prop :=
  ∃ dropped first tail, messages = leading messages ++ dropped ++ first :: tail ∧ dropped ≠ [] ∧
    first.role ≠ .tool ∧ kept = leading messages ++ first :: tail

section

variable {ToolSpec : Type} (fits : List Message → List ToolSpec → Bool) (tools : List ToolSpec)

/-- Dropping more of the oldest messages keeps a request that fits one that fits. -/
def DropsMonotone : Prop :=
  ∀ lead dropped tail : List Message,
    fits (lead ++ dropped ++ tail) tools = true → fits (lead ++ tail) tools = true

/-- The longest candidate that fits, and nothing only if none does. -/
def RefitsBest (messages : List Message) : Option (List Message) → Prop
  | some kept => Candidate messages kept ∧ fits kept tools = true ∧
      ∀ other, Candidate messages other → fits other tools = true → other.length ≤ kept.length
  | none => ∀ other, Candidate messages other → fits other tools = false

/-- What the scan needs to find the best. -/
structure WithinReach (messages : List Message) : Prop where
  /-- A transcript of system messages alone has no candidate, and no tail of it that the
  scan tries may fit. -/
  mixed : (∀ m ∈ messages, m.role = .system) → ∀ before after, messages = before ++ after →
    before ≠ [] → 2 ≤ after.length → fits after tools = false
  /-- Where the final message alone would fit, so does a longer candidate. -/
  earlier : ∀ dropped final, messages = leading messages ++ dropped ++ [final] → dropped ≠ [] →
    final.role ≠ .tool → fits (leading messages ++ [final]) tools = true →
    ∃ kept, Candidate messages kept ∧ fits kept tools = true ∧
      (leading messages).length + 2 ≤ kept.length

end

/-! ## The scan -/

section

variable {ToolSpec : Type} {fits : List Message → List ToolSpec → Bool} {tools : List ToolSpec}
  {messages kept : List Message} {lead : Nat}

/-- A split at which the tail is tried, and fits. -/
def FitsAt (fits : List Message → List ToolSpec → Bool) (tools : List ToolSpec)
    (messages : List Message) (lead split : Nat) : Prop :=
  toolAt messages split = false ∧ fits (keepFrom messages lead split) tools = true

/-- The scan stops at the first split that fits. -/
theorem refitFrom_some : ∀ {rounds split : Nat},
    refitFrom fits tools messages lead rounds split = some kept →
    ∃ j, split ≤ j ∧ j < split + rounds ∧ FitsAt fits tools messages lead j ∧
      kept = keepFrom messages lead j ∧ ∀ i, split ≤ i → i < j → ¬FitsAt fits tools messages lead i := by
  intro rounds
  induction rounds with
  | zero =>
      intro split h
      cases h
  | succ rounds ih =>
      intro split h
      have hnext : ¬FitsAt fits tools messages lead split →
          refitFrom fits tools messages lead rounds (split + 1) = some kept →
          ∃ j, split ≤ j ∧ j < split + (rounds + 1) ∧ FitsAt fits tools messages lead j ∧
            kept = keepFrom messages lead j ∧
            ∀ i, split ≤ i → i < j → ¬FitsAt fits tools messages lead i := by
        intro hsplit hrest
        obtain ⟨j, hle, hlt, hj, hkept, hbefore⟩ := ih hrest
        refine ⟨j, by omega, by omega, hj, hkept, ?_⟩
        intro i hi hij
        rcases Nat.eq_or_lt_of_le hi with rfl | hi
        · exact hsplit
        · exact hbefore i hi hij
      rw [refitFrom] at h
      split at h
      · next htool =>
          refine hnext ?_ h
          rintro ⟨hno, -⟩
          rw [htool] at hno
          cases hno
      · next htool =>
          split at h
          · next hfits =>
              refine ⟨split, Nat.le_refl _, by omega, ⟨Bool.eq_false_iff.mpr htool, hfits⟩,
                (Option.some.inj h).symm, ?_⟩
              intro i hi hij
              omega
          · next hfits => exact hnext (fun hat => hfits hat.2) h

theorem refitFrom_none : ∀ {rounds split : Nat},
    refitFrom fits tools messages lead rounds split = none →
    ∀ i, split ≤ i → i < split + rounds → ¬FitsAt fits tools messages lead i := by
  intro rounds
  induction rounds with
  | zero =>
      intro split _ i hi hlt
      omega
  | succ rounds ih =>
      intro split h i hi hlt hat
      rw [refitFrom] at h
      rcases Nat.eq_or_lt_of_le hi with rfl | hi
      · rw [hat.1, hat.2] at h
        cases h
      · split at h
        · exact ih h i hi (by omega) hat
        · split at h
          · cases h
          · exact ih h i hi (by omega) hat

/-! ## Splits -/

theorem toolAt_eq_false {i : Nat} {m : Message} (h : messages[i]? = some m) :
    toolAt messages i = false ↔ m.role ≠ .tool := by
  rw [toolAt, h]
  show (m.role == MessageRole.tool) = false ↔ _
  rw [beq_eq_false_iff_ne]

theorem keepFrom_length {split : Nat} (h : lead ≤ messages.length) :
    (keepFrom messages lead split).length = lead + (messages.length - split) := by
  rw [keepFrom, List.length_append, List.length_take, List.length_drop, Nat.min_eq_left h]

theorem leading_length_le : (leading messages).length ≤ messages.length :=
  (List.takeWhile_prefix _).length_le

theorem take_leading : messages.take (leading messages).length = leading messages :=
  (List.prefix_iff_eq_take.mp (List.takeWhile_prefix _)).symm

/-- The message at which a tail begins. -/
theorem drop_of_getElem? {i : Nat} {m : Message} {tail : List Message}
    (h : messages.drop i = m :: tail) : messages[i]? = some m := by
  have hzero : (messages.drop i)[0]? = some m := by rw [h]; rfl
  rwa [List.getElem?_drop, Nat.add_zero] at hzero

/-- The candidates, by their splits. -/
theorem candidate_iff : Candidate messages kept ↔ ∃ j, (leading messages).length < j ∧
    j < messages.length ∧ toolAt messages j = false ∧
    kept = keepFrom messages (leading messages).length j := by
  constructor
  · rintro ⟨dropped, first, tail, hmessages, hne, hfirst, rfl⟩
    have hpos : 0 < dropped.length := List.length_pos_of_ne_nil hne
    have hdrop : messages.drop ((leading messages).length + dropped.length) = first :: tail :=
      (congrArg (List.drop _) hmessages).trans (List.drop_left' List.length_append)
    have hlen := congrArg List.length hmessages
    simp only [List.length_append, List.length_cons] at hlen
    refine ⟨(leading messages).length + dropped.length, by omega, by omega,
      (toolAt_eq_false (drop_of_getElem? hdrop)).mpr hfirst, ?_⟩
    rw [keepFrom, take_leading, hdrop]
  · rintro ⟨j, hlead, hj, htool, rfl⟩
    have hdrop : messages.drop j = messages[j] :: messages.drop (j + 1) :=
      List.drop_eq_getElem_cons hj
    refine ⟨(messages.drop (leading messages).length).take (j - (leading messages).length),
      messages[j], messages.drop (j + 1), ?_, ?_, ?_, ?_⟩
    · have hrest : (messages.drop (leading messages).length).drop (j - (leading messages).length) =
          messages.drop j := by
        rw [List.drop_drop, Nat.add_sub_cancel' hlead.le]
      rw [← hdrop, ← hrest, List.append_assoc, List.take_append_drop, ← take_leading,
        List.length_take, Nat.min_eq_left leading_length_le, List.take_append_drop]
    · intro hnil
      have := congrArg List.length hnil
      rw [List.length_take, List.length_drop, List.length_nil] at this
      omega
    · exact (toolAt_eq_false (List.getElem?_eq_getElem hj)).mp htool
    · rw [keepFrom, take_leading, hdrop]

/-- With a message that is none of the system's, the leading ones end in front of it. -/
theorem sysEnd_eq (h : ∃ m ∈ messages, m.role ≠ .system) :
    sysEnd messages = (leading messages).length := by
  induction messages with
  | nil =>
      obtain ⟨m, hm, -⟩ := h
      cases hm
  | cons m rest ih =>
      by_cases hm : m.role = .system
      · have hrest : ∃ m ∈ rest, m.role ≠ .system := by
          obtain ⟨other, hother, hrole⟩ := h
          rcases List.mem_cons.mp hother with rfl | hin
          · exact absurd hm hrole
          · exact ⟨other, hin, hrole⟩
        obtain ⟨i, hi⟩ : ∃ i, rest.findIdx? (fun m => m.role != .system) = some i :=
          Option.isSome_iff_exists.mp (by simpa [List.findIdx?_isSome] using hrest)
        have hsys : sysEnd rest = i := by
          rw [sysEnd, hi]
          rfl
        rw [sysEnd, List.findIdx?_cons, hi, leading, List.takeWhile_cons, hm]
        show i + 1 = (leading rest).length + 1
        rw [← ih hrest, hsys]
      · have hmb : (m.role != .system) = true := by simpa using hm
        have hmn : (m.role == .system) = false := by simpa using hm
        rw [sysEnd, List.findIdx?_cons, hmb, leading, List.takeWhile_cons, hmn]
        rfl

theorem sysEnd_eq_zero (h : ∀ m ∈ messages, m.role = .system) : sysEnd messages = 0 := by
  have hnone : messages.findIdx? (fun m => m.role != .system) = none := by
    rw [List.findIdx?_eq_none_iff]
    intro m hm
    rw [h m hm]
    rfl
  rw [sysEnd, hnone]
  rfl

theorem leading_eq_self (h : ∀ m ∈ messages, m.role = .system) : leading messages = messages := by
  rw [leading, List.takeWhile_eq_self_iff]
  intro m hm
  rw [h m hm]
  rfl

theorem refit_eq {last : Nat} (h : messages.length = last + 1) :
    mechanicalRouteRefit fits tools messages =
      refitFrom fits tools messages (sysEnd messages) (last - (sysEnd messages + 1))
        (sysEnd messages + 1) := by
  rw [mechanicalRouteRefit, h]
  dsimp only
  split
  · next hle =>
      rw [Nat.sub_eq_zero_of_le (Nat.le_succ_of_le hle)]
      rfl
  · rfl

/-- Where all are the system's there is no candidate, and the scan has to find nothing. -/
theorem refitsBest_of_system (h : ∀ m ∈ messages, m.role = .system) :
    RefitsBest fits tools messages (mechanicalRouteRefit fits tools messages) ↔
      ∀ before after, messages = before ++ after → before ≠ [] → 2 ≤ after.length →
        fits after tools = false := by
  have hno : ∀ other, ¬Candidate messages other := by
    intro other hother
    obtain ⟨j, hlead, hj, -⟩ := candidate_iff.mp hother
    rw [leading_eq_self h] at hlead
    omega
  have htool : ∀ i, toolAt messages i = false := by
    intro i
    cases hi : messages[i]? with
    | none => rw [toolAt, hi]; rfl
    | some m =>
        refine (toolAt_eq_false hi).mpr ?_
        rw [h m (List.mem_of_getElem? hi)]
        decide
  cases hlen : messages.length with
  | zero =>
      have hnone : mechanicalRouteRefit fits tools messages = none := by
        rw [mechanicalRouteRefit, hlen]
      rw [hnone]
      refine ⟨fun _ before after hsplit hne _ => ?_, fun _ other hother => absurd hother (hno other)⟩
      rw [List.length_eq_zero_iff.mp hlen] at hsplit
      exact absurd (List.append_eq_nil_iff.mp hsplit.symm).1 hne
  | succ last =>
      rw [refit_eq hlen, sysEnd_eq_zero h]
      constructor
      · intro hbest before after hsplit hne hafter
        have hlens := congrArg List.length hsplit
        rw [List.length_append] at hlens
        have hbefore := List.length_pos_of_ne_nil hne
        cases hscan : refitFrom fits tools messages 0 (last - (0 + 1)) (0 + 1) with
        | some kept =>
            rw [hscan] at hbest
            exact absurd hbest.1 (hno kept)
        | none =>
            by_contra hfits
            refine refitFrom_none hscan before.length (by omega) (by omega) ⟨htool _, ?_⟩
            have hkeep : keepFrom messages 0 before.length = after := by
              rw [keepFrom, List.take_zero, List.nil_append, hsplit, List.drop_left]
            rw [hkeep]
            exact Bool.not_eq_false _ ▸ hfits
      · intro hnothing
        cases hscan : refitFrom fits tools messages 0 (last - (0 + 1)) (0 + 1) with
        | none => exact fun other hother => absurd hother (hno other)
        | some kept =>
            obtain ⟨j, hle, hlt, hj, -, -⟩ := refitFrom_some hscan
            have hfits := hnothing (messages.take j) (messages.drop j)
              (List.take_append_drop j messages).symm
              (List.ne_nil_of_length_pos (by rw [List.length_take]; omega))
              (by rw [List.length_drop]; omega)
            rw [FitsAt, keepFrom, List.take_zero, List.nil_append, hfits] at hj
            cases hj.2

/-- With another message behind them, the scan tries all candidates but the shortest. -/
theorem refitsBest_of_mixed (h : ∃ m ∈ messages, m.role ≠ .system) :
    RefitsBest fits tools messages (mechanicalRouteRefit fits tools messages) ↔
      ∀ dropped final, messages = leading messages ++ dropped ++ [final] → dropped ≠ [] →
        final.role ≠ .tool → fits (leading messages ++ [final]) tools = true →
        ∃ kept, Candidate messages kept ∧ fits kept tools = true ∧
          (leading messages).length + 2 ≤ kept.length := by
  obtain ⟨last, hlen⟩ : ∃ last, messages.length = last + 1 := by
    obtain ⟨m, hm, -⟩ := h
    exact ⟨messages.length - 1, by have := List.length_pos_of_mem hm; omega⟩
  rw [refit_eq hlen, sysEnd_eq h]
  have hleadle : (leading messages).length ≤ messages.length := leading_length_le
  constructor
  · intro hbest dropped final hsplit hne hfinal hfits
    have hcand : Candidate messages (leading messages ++ [final]) :=
      ⟨dropped, final, [], hsplit, hne, hfinal, rfl⟩
    cases hscan : refitFrom fits tools messages (leading messages).length
        (last - ((leading messages).length + 1)) ((leading messages).length + 1) with
    | none =>
        rw [hscan] at hbest
        rw [hbest _ hcand] at hfits
        cases hfits
    | some kept =>
        rw [hscan] at hbest
        obtain ⟨j, hle, hlt, -, hkept, -⟩ := refitFrom_some hscan
        refine ⟨kept, hbest.1, hbest.2.1, ?_⟩
        rw [hkept, keepFrom_length hleadle]
        omega
  · intro hearlier
    cases hscan : refitFrom fits tools messages (leading messages).length
        (last - ((leading messages).length + 1)) ((leading messages).length + 1) with
    | none =>
        -- a candidate the scan tried does not fit, and neither does the shortest
        have htried : ∀ j, (leading messages).length < j → j < last →
            ¬FitsAt fits tools messages (leading messages).length j :=
          fun j hj hlt => refitFrom_none hscan j hj (by omega)
        intro other hother
        by_contra hfits
        rw [Bool.not_eq_false] at hfits
        obtain ⟨j, hj, hlt, htool, hkept⟩ := candidate_iff.mp hother
        have hlast : j = last := by
          by_contra hne
          exact htried j hj (by omega) ⟨htool, hkept ▸ hfits⟩
        obtain ⟨dropped, first, tail, hsplit, hne, hfirst, hkept'⟩ := hother
        have htail : tail = [] := by
          have hlens := congrArg List.length (hkept'.symm.trans hkept)
          rw [keepFrom_length hleadle, List.length_append, List.length_cons] at hlens
          exact List.length_eq_zero_iff.mp (by omega)
        subst htail
        obtain ⟨kept, hcand, hfits', hlong⟩ :=
          hearlier dropped first hsplit hne hfirst (hkept' ▸ hfits)
        obtain ⟨i, hi, hilt, hitool, rfl⟩ := candidate_iff.mp hcand
        rw [keepFrom_length hleadle] at hlong
        exact htried i hi (by omega) ⟨hitool, hfits'⟩
    | some kept =>
        obtain ⟨j, hle, hlt, hj, hkept, hbefore⟩ := refitFrom_some hscan
        refine ⟨candidate_iff.mpr ⟨j, hle, by omega, hj.1, hkept⟩, hkept ▸ hj.2, ?_⟩
        intro other hother hfits
        obtain ⟨i, hi, hilt, hitool, rfl⟩ := candidate_iff.mp hother
        have hji : j ≤ i := by
          by_contra hij
          exact hbefore i hi (by omega) ⟨hitool, hfits⟩
        rw [hkept, keepFrom_length hleadle, keepFrom_length hleadle]
        omega

/-- A refit is the longest candidate that fits exactly where the scan can reach it. -/
theorem refit_best_iff (fits : List Message → List ToolSpec → Bool) (tools : List ToolSpec)
    (messages : List Message) :
    RefitsBest fits tools messages (mechanicalRouteRefit fits tools messages) ↔
      WithinReach fits tools messages := by
  by_cases h : ∀ m ∈ messages, m.role = .system
  · rw [refitsBest_of_system h]
    refine ⟨fun hnothing => ⟨fun _ => hnothing, ?_⟩, fun hreach => hreach.mixed h⟩
    intro dropped final hsplit hne
    have hlens := congrArg List.length hsplit
    rw [leading_eq_self h, List.length_append, List.length_append] at hlens
    have := List.length_pos_of_ne_nil hne
    omega
  · have hmixed : ∃ m ∈ messages, m.role ≠ .system := by
      by_contra hno
      exact h (fun m hm => by_contra (fun hrole => hno ⟨m, hm, hrole⟩))
    rw [refitsBest_of_mixed hmixed]
    exact ⟨fun hearlier => ⟨fun hall => absurd hall h, hearlier⟩, fun hreach => hreach.earlier⟩

end

/-! ## The shortest candidate, and system messages alone -/

/-- A window for so many messages. -/
def roomFor (n : Nat) (kept : List Message) (_ : List Unit) : Bool :=
  decide (kept.length ≤ n)

theorem roomFor_monotone (n : Nat) : DropsMonotone (roomFor n) [] := by
  intro lead dropped tail h
  rw [roomFor, decide_eq_true_eq] at h ⊢
  simp only [List.length_append] at h ⊢
  omega

def question (text : String) : Message where
  role := .user
  content := text
  timestamp := 0

def instruction (text : String) : Message where
  role := .system
  content := text
  timestamp := 0

/-- Two questions for a window of one message: the last one alone would fit. -/
theorem final_message_untried : DropsMonotone (roomFor 1) [] ∧
    ¬RefitsBest (roomFor 1) [] [question "first", question "second"]
      (mechanicalRouteRefit (roomFor 1) [] [question "first", question "second"]) ∧
    DropsMonotone (roomFor 2) [] ∧
    ¬RefitsBest (roomFor 2) [] [instruction "a", instruction "b", instruction "c"]
      (mechanicalRouteRefit (roomFor 2) [] [instruction "a", instruction "b", instruction "c"]) := by
  refine ⟨roomFor_monotone 1, ?_, roomFor_monotone 2, ?_⟩
  · intro hbest
    have hcand : Candidate [question "first", question "second"] [question "second"] :=
      ⟨[question "first"], question "second", [], rfl, List.cons_ne_nil _ _, by decide, rfl⟩
    have hfits : roomFor 1 [question "second"] [] = false := hbest _ hcand
    cases hfits
  · intro hbest
    have hreach := (refitsBest_of_system (by simp [instruction])).mp hbest
    have hfits := hreach [instruction "a"] [instruction "b", instruction "c"] rfl
      (List.cons_ne_nil _ _) (Nat.le_refl _)
    cases hfits

end Octos.Llm
