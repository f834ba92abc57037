/-
# `Octos.Bus.Resume` — a transcript made fit for a provider

`resume_policy.rs`: `ResumePolicy::sanitize` runs over a transcript that was just
loaded.

    filter_unresolved_tool_uses                calls without a result, results without a call
    filter_orphaned_thinking_only_messages     assistants that only reasoned
    filter_whitespace_only_assistant_messages  assistants that said nothing

A call is resolved if its result is anywhere in the transcript, while a result needs
its call among the messages kept before it.  So a call whose results all come before
it stays without one: `AnsweredLater` rules this out, and nothing else can go wrong.

The references to replaced contents and the touch of the worktree are left out.
-/
import Octos.Agent.MessageRepair
import Octos.Lib.Text

namespace Octos.Bus.Resume

open Octos.Agent (Message MessageRole ToolCall)

/-! ## The passes -/

/-- `text.trim().is_empty()` -/
def isBlank (text : String) : Bool :=
  (Text.trim text.toList).isEmpty

/-- The ids of all results. -/
def resultIds (messages : List Message) : List String :=
  (messages.filter Message.isTool).filterMap Message.toolCallId

def resultHasMatchingCall (kept : List Message) (id : String) : Bool :=
  kept.any (fun m => m.declares id)

section

variable (retryState : Option (String → Bool))

/-- A call with a result somewhere, or pinned. -/
def resolved (results : List String) (call : ToolCall) : Bool :=
  results.contains call.id || retryState.any (fun contains => contains call.id)

/-- One message of the first pass, behind those that were kept: what is kept of it, and
whether it counts as dropped. -/
def keepMessage (results : List String) (kept : List Message) (m : Message) : Option Message × Bool :=
  match m.role with
  | .tool =>
      match m.toolCallId with
      | some id => if resultHasMatchingCall kept id then (some m, false) else (none, true)
      | none => (none, true)
  | .assistant =>
      match m.toolCalls with
      | none => (some m, false)
      | some calls =>
          if calls.isEmpty then (some m, false)
          else
            let keptCalls := calls.filter (resolved retryState results)
            let hadUnresolved := !calls.all (resolved retryState results)
            if !keptCalls.isEmpty then (some { m with toolCalls := some keptCalls }, hadUnresolved)
            else if !isBlank m.content then (some { m with toolCalls := none }, hadUnresolved)
            else (none, hadUnresolved)
  | _ => (some m, false)

/-- The second loop of `filter_unresolved_tool_uses`. -/
def keepFrom (results : List String) : List Message → List Message → List Message × Nat
  | _, [] => ([], 0)
  | kept, m :: rest =>
      let here := keepMessage retryState results kept m
      let later := keepFrom results (kept ++ here.1.toList) rest
      (here.1.toList ++ later.1, here.2.toNat + later.2)

def filterUnresolvedToolUses (messages : List Message) : List Message × Nat :=
  keepFrom retryState (resultIds messages) [] messages

end

def isThinkingOnly (m : Message) : Bool :=
  m.role == .assistant && m.reasoningContent.any (fun r => !isBlank r) && isBlank m.content &&
    m.calls.isEmpty

/-- The tail is kept while its turn is live. -/
def filterOrphanedThinkingOnlyMessages (preserveInFlightTail : Bool) : List Message → List Message × Nat
  | [] => ([], 0)
  | m :: rest =>
      let later := filterOrphanedThinkingOnlyMessages preserveInFlightTail rest
      if !(rest.isEmpty && preserveInFlightTail) && isThinkingOnly m then (later.1, later.2 + 1)
      else (m :: later.1, later.2)

def isWhitespaceOnlyAssistant (m : Message) : Bool :=
  m.role == .assistant && isBlank m.content && m.calls.isEmpty &&
    !m.reasoningContent.any (fun r => !isBlank r)

def filterWhitespaceOnlyAssistantMessages (messages : List Message) : List Message × Nat :=
  (messages.filter (fun m => !isWhitespaceOnlyAssistant m), messages.countP isWhitespaceOnlyAssistant)

structure SessionSanitizeReport where
  inputLen : Nat
  outputLen : Nat
  unresolvedToolUsesDropped : Nat
  orphanThinkingDropped : Nat
  whitespaceOnlyDropped : Nat
  worktreeMissing : Bool
  warnings : List String

structure SanitizeOutcome where
  messages : List Message
  report : SessionSanitizeReport

inductive WorktreeStatus
  | present
  | missing
  | bumpFailed (warning : String)

/-- `ResumePolicy::sanitize`; the error is `WorktreeMissing` with its report. -/
def sanitize (messages : List Message) (retryState : Option (String → Bool))
    (worktree : Option WorktreeStatus) : Except SessionSanitizeReport SanitizeOutcome :=
  let pass1 := filterUnresolvedToolUses retryState messages
  let pass2 := filterOrphanedThinkingOnlyMessages retryState.isSome pass1.1
  let pass3 := filterWhitespaceOnlyAssistantMessages pass2.1
  let report : SessionSanitizeReport :=
    { inputLen := messages.length
      outputLen := pass3.1.length
      unresolvedToolUsesDropped := pass1.2
      orphanThinkingDropped := pass2.2
      whitespaceOnlyDropped := pass3.2
      worktreeMissing := false
      warnings := [] }
  match worktree with
  | some .missing => .error { report with worktreeMissing := true }
  | some (.bumpFailed warning) => .ok ⟨pass3.1, { report with warnings := [warning] }⟩
  | _ => .ok ⟨pass3.1, report⟩

/-! ## What a provider accepts -/

/-- A result of this call. -/
def IsResultOf (id : String) (t : Message) : Prop :=
  t.role = .tool ∧ t.toolCallId = some id

/-- The same message, perhaps with fewer calls. -/
def Narrowed (out m : Message) : Prop :=
  ∃ calls, out = { m with toolCalls := calls } ∧ out.calls.Sublist m.calls

def CallsAnswered (messages : List Message) : Prop :=
  ∀ before m after, messages = before ++ m :: after → m.role = .assistant →
    ∀ id ∈ m.callIds, ∃ t ∈ after, IsResultOf id t

def ResultsCalled (messages : List Message) : Prop :=
  ∀ before t after, messages = before ++ t :: after → t.role = .tool →
    ∃ id, t.toolCallId = some id ∧ ∃ m ∈ before, m.declares id = true

/-- No assistant that only reasons, or says nothing, without a call. -/
def NoneEmpty (messages : List Message) : Prop :=
  ∀ m ∈ messages, m.role = .assistant → isBlank m.content = true → m.calls ≠ []

/-- What is left is selected in order, is accepted, and stays as it is. -/
structure Sanitized (messages out : List Message) : Prop where
  selected : List.SublistForall₂ Narrowed out messages
  answered : CallsAnswered out
  called : ResultsCalled out
  none_empty : NoneEmpty out
  stable : ∃ again, sanitize out none none = .ok again ∧ again.messages = out

/-- A call that has a result has one behind it. -/
def AnsweredLater (messages : List Message) : Prop :=
  ∀ before m after, messages = before ++ m :: after → m.role = .assistant →
    ∀ id ∈ m.callIds, (∃ t ∈ messages, IsResultOf id t) → ∃ t ∈ after, IsResultOf id t

/-! ## One message -/

section

variable {results : List String} {kept rest : List Message} {m out : Message} {id : String}

theorem narrowed_refl (m : Message) : Narrowed m m :=
  ⟨m.toolCalls, rfl, List.Sublist.refl _⟩

theorem resolved_none (call : ToolCall) : resolved none results call = results.contains call.id := by
  rw [resolved, Option.any_none, Bool.or_false]

theorem keepMessage_tool (hrole : m.role = .tool) : (keepMessage none results kept m).1 = some out ↔
    out = m ∧ ∃ id, m.toolCallId = some id ∧ resultHasMatchingCall kept id = true := by
  rw [keepMessage, hrole]
  cases hid : m.toolCallId with
  | none => simp
  | some id =>
      dsimp only
      by_cases hmatch : resultHasMatchingCall kept id = true
      · rw [if_pos hmatch]
        refine ⟨fun h => ⟨(Option.some.inj h).symm, id, rfl, hmatch⟩, ?_⟩
        rintro ⟨rfl, -⟩
        rfl
      · rw [if_neg hmatch]
        refine ⟨fun h => (by cases h), ?_⟩
        rintro ⟨-, other, hother, hyes⟩
        obtain rfl := Option.some.inj hother
        exact absurd hyes hmatch

theorem keepMessage_other (htool : m.role ≠ .tool) (hassistant : m.role ≠ .assistant) :
    (keepMessage none results kept m).1 = some m := by
  cases hrole : m.role with
  | system => rw [keepMessage, hrole]
  | user => rw [keepMessage, hrole]
  | assistant => exact absurd hrole hassistant
  | tool => exact absurd hrole htool

/-- What is kept of an assistant has those of its calls that have a result. -/
theorem keepMessage_assistant (hrole : m.role = .assistant)
    (h : (keepMessage none results kept m).1 = some out) :
    Narrowed out m ∧ out.calls = m.calls.filter (fun call => results.contains call.id) := by
  rw [keepMessage, hrole] at h
  cases hcalls : m.toolCalls with
  | none =>
      rw [hcalls] at h
      obtain rfl := Option.some.inj h
      exact ⟨narrowed_refl m, by rw [Message.calls, hcalls]; rfl⟩
  | some calls =>
      have hfilter : calls.filter (resolved none results) =
          calls.filter (fun call => results.contains call.id) :=
        List.filter_congr (fun call _ => resolved_none call)
      rw [hcalls] at h
      dsimp only at h
      rw [hfilter] at h
      have hm : m.calls = calls := by rw [Message.calls, hcalls]; rfl
      split at h
      · next hempty =>
          obtain rfl := Option.some.inj h
          refine ⟨narrowed_refl m, ?_⟩
          rw [hm, List.isEmpty_iff.mp hempty, List.filter_nil]
      · split at h
        · obtain rfl := Option.some.inj h
          rw [hm]
          refine ⟨⟨some (calls.filter (fun call => results.contains call.id)), by rw [hrole], ?_⟩, rfl⟩
          rw [hm]
          exact List.filter_sublist
        · next hnone =>
            have hnil : calls.filter (fun call => results.contains call.id) = [] := by
              simpa using hnone
            split at h
            · obtain rfl := Option.some.inj h
              rw [hm, hnil]
              exact ⟨⟨none, by rw [hrole], List.nil_sublist _⟩, rfl⟩
            · cases h

/-- An assistant with a resolved call is kept. -/
theorem keepMessage_call (hrole : m.role = .assistant) (hid : id ∈ m.callIds) (hresult : id ∈ results) :
    ∃ out, (keepMessage none results kept m).1 = some out ∧ id ∈ out.callIds := by
  obtain ⟨call, hcall, rfl⟩ := List.mem_map.mp hid
  cases hkeep : (keepMessage none results kept m).1 with
  | some out =>
      refine ⟨out, rfl, List.mem_map.mpr ⟨call, ?_, rfl⟩⟩
      rw [(keepMessage_assistant hrole hkeep).2]
      exact List.mem_filter.mpr ⟨hcall, List.contains_iff_mem.mpr hresult⟩
  | none =>
      exfalso
      rw [keepMessage, hrole] at hkeep
      cases hcalls : m.toolCalls with
      | none =>
          rw [hcalls] at hkeep
          cases hkeep
      | some calls =>
          rw [Message.calls, hcalls] at hcall
          have hmem : call ∈ calls.filter (resolved none results) :=
            List.mem_filter.mpr ⟨hcall, by
              rw [resolved_none]
              exact List.contains_iff_mem.mpr hresult⟩
          rw [hcalls] at hkeep
          dsimp only at hkeep
          split at hkeep
          · cases hkeep
          · split at hkeep
            · cases hkeep
            · next hnone =>
                have hnil : calls.filter (resolved none results) = [] := by simpa using hnone
                rw [hnil] at hmem
                cases hmem

theorem keepMessage_narrowed (h : (keepMessage none results kept m).1 = some out) : Narrowed out m := by
  by_cases htool : m.role = .tool
  · rw [((keepMessage_tool htool).mp h).1]
    exact narrowed_refl m
  · by_cases hassistant : m.role = .assistant
    · exact (keepMessage_assistant hassistant h).1
    · rw [keepMessage_other htool hassistant] at h
      rw [← Option.some.inj h]
      exact narrowed_refl m

theorem Narrowed.role (h : Narrowed out m) : out.role = m.role := by
  obtain ⟨calls, rfl, -⟩ := h
  rfl

end

/-! ## The first pass -/

/-- What the first pass keeps, behind messages that were kept. -/
def keptBehind (results : List String) (kept rest : List Message) : List Message :=
  (keepFrom none results kept rest).1

section

variable {results : List String} {kept before after rest : List Message} {m out t : Message}
  {id : String}

theorem keptBehind_cons : keptBehind results kept (m :: rest) =
    (keepMessage none results kept m).1.toList ++
      keptBehind results (kept ++ (keepMessage none results kept m).1.toList) rest := rfl

theorem keptBehind_append : ∀ {kept a b : List Message}, keptBehind results kept (a ++ b) =
    keptBehind results kept a ++ keptBehind results (kept ++ keptBehind results kept a) b := by
  intro kept a
  induction a generalizing kept with
  | nil =>
      intro b
      show keptBehind results kept b = keptBehind results (kept ++ []) b
      rw [List.append_nil]
  | cons m a ih =>
      intro b
      rw [List.cons_append, keptBehind_cons, keptBehind_cons, ih, List.append_assoc, List.append_assoc]

/-- A kept message comes from one of the input, behind what was kept of those before it. -/
theorem keptBehind_split : ∀ {kept before : List Message},
    keptBehind results kept rest = before ++ out :: after →
    ∃ a m b, rest = a ++ m :: b ∧ (keepMessage none results (kept ++ before) m).1 = some out ∧
      after = keptBehind results (kept ++ before ++ [out]) b := by
  induction rest with
  | nil =>
      intro kept before h
      exact absurd (List.append_eq_nil_iff.mp h.symm).2 (List.cons_ne_nil _ _)
  | cons m rest ih =>
      intro kept before h
      rw [keptBehind_cons] at h
      cases hkeep : (keepMessage none results kept m).1 with
      | none =>
          rw [hkeep, Option.toList_none, List.nil_append, List.append_nil] at h
          obtain ⟨a, m', b, rfl, hm', hafter⟩ := ih h
          exact ⟨m :: a, m', b, rfl, hm', hafter⟩
      | some first =>
          rw [hkeep, Option.toList_some] at h
          cases before with
          | nil =>
              obtain ⟨rfl, rfl⟩ := List.cons.inj h
              rw [List.append_nil]
              exact ⟨[], m, rest, rfl, hkeep, rfl⟩
          | cons head before =>
              obtain ⟨rfl, htail⟩ := List.cons.inj h
              obtain ⟨a, m', b, rfl, hm', hafter⟩ := ih htail
              rw [List.append_assoc kept [first] before] at hm' hafter
              exact ⟨m :: a, m', b, rfl, hm', hafter⟩

theorem keptBehind_selected : ∀ {kept : List Message},
    List.SublistForall₂ Narrowed (keptBehind results kept rest) rest := by
  induction rest with
  | nil =>
      intro kept
      exact List.SublistForall₂.nil
  | cons m rest ih =>
      intro kept
      rw [keptBehind_cons]
      cases hkeep : (keepMessage none results kept m).1 with
      | none => exact List.SublistForall₂.cons_right ih
      | some out => exact List.SublistForall₂.cons (keepMessage_narrowed hkeep) ih

/-- A result whose call was kept before it is kept. -/
theorem mem_keptBehind (hid : IsResultOf id t) : ∀ {kept : List Message}, t ∈ rest →
    resultHasMatchingCall kept id = true → t ∈ keptBehind results kept rest := by
  induction rest with
  | nil =>
      intro kept ht
      cases ht
  | cons m rest ih =>
      intro kept ht hmatch
      rw [keptBehind_cons]
      rcases List.mem_cons.mp ht with rfl | ht
      · rw [(keepMessage_tool hid.1).mpr ⟨rfl, id, hid.2, hmatch⟩]
        exact List.mem_cons_self
      · refine List.mem_append_right _ (ih ht ?_)
        rw [resultHasMatchingCall, List.any_append]
        rw [resultHasMatchingCall] at hmatch
        rw [hmatch, Bool.true_or]

/-- A kept result is one of the input. -/
theorem of_mem_keptBehind {kept : List Message} (h : t ∈ keptBehind results kept rest)
    (hrole : t.role = .tool) : t ∈ rest := by
  obtain ⟨before, after, hsplit⟩ := List.append_of_mem h
  obtain ⟨a, m, b, rfl, hm, -⟩ := keptBehind_split hsplit
  have htool : m.role = .tool := by rw [← (keepMessage_narrowed hm).role, hrole]
  rw [((keepMessage_tool htool).mp hm).1]
  exact List.mem_append_right _ List.mem_cons_self

theorem mem_resultIds {messages : List Message} :
    id ∈ resultIds messages ↔ ∃ t ∈ messages, IsResultOf id t := by
  rw [resultIds, List.mem_filterMap]
  constructor
  · rintro ⟨t, ht, hid⟩
    obtain ⟨hmem, htool⟩ := List.mem_filter.mp ht
    exact ⟨t, hmem, beq_iff_eq.mp htool, hid⟩
  · rintro ⟨t, ht, hrole, hid⟩
    exact ⟨t, List.mem_filter.mpr ⟨ht, beq_iff_eq.mpr hrole⟩, hid⟩

theorem declares_iff : m.declares id = true ↔ m.role = .assistant ∧ id ∈ m.callIds := by
  rw [Message.declares, Bool.and_eq_true, beq_iff_eq, List.contains_iff_mem]

theorem resultHasMatchingCall_iff :
    resultHasMatchingCall kept id = true ↔ ∃ m ∈ kept, m.declares id = true := by
  rw [resultHasMatchingCall, List.any_eq_true]

/-- The calls the first pass leaves are those with a result behind them. -/
theorem keptBehind_answered_iff {messages : List Message} :
    CallsAnswered (keptBehind (resultIds messages) [] messages) ↔ AnsweredLater messages := by
  constructor
  · intro h before m after hsplit hrole id hid hresult
    have hres : id ∈ resultIds messages := mem_resultIds.mpr hresult
    obtain ⟨out, hkeep, hout⟩ : ∃ out, (keepMessage none (resultIds messages)
        ([] ++ keptBehind (resultIds messages) [] before) m).1 = some out ∧ id ∈ out.callIds :=
      keepMessage_call hrole hid hres
    have hkept : keptBehind (resultIds messages) [] messages =
        keptBehind (resultIds messages) [] before ++ out ::
          keptBehind (resultIds messages) ([] ++ keptBehind (resultIds messages) [] before ++ [out])
            after := by
      conv => lhs; arg 3; rw [hsplit]
      rw [keptBehind_append, keptBehind_cons, hkeep]
      rfl
    obtain ⟨t, ht, hisres⟩ := h _ _ _ hkept (by rw [(keepMessage_narrowed hkeep).role, hrole]) id hout
    exact ⟨t, of_mem_keptBehind ht hisres.1, hisres⟩
  · intro h before out after hsplit hrole id hid
    obtain ⟨a, m, b, hmessages, hkeep, rfl⟩ := keptBehind_split hsplit
    have hnarrowed := keepMessage_narrowed hkeep
    have hassistant : m.role = .assistant := by rw [← hnarrowed.role, hrole]
    obtain ⟨call, hcall, rfl⟩ := List.mem_map.mp hid
    rw [(keepMessage_assistant hassistant hkeep).2] at hcall
    obtain ⟨hmem, hresult⟩ := List.mem_filter.mp hcall
    obtain ⟨t, ht, hisres⟩ := h a m b hmessages hassistant call.id (List.mem_map_of_mem hmem)
      (mem_resultIds.mp (List.contains_iff_mem.mp hresult))
    refine ⟨t, mem_keptBehind hisres ht ?_, hisres⟩
    exact resultHasMatchingCall_iff.mpr ⟨out, List.mem_append_right _ List.mem_cons_self,
      declares_iff.mpr ⟨hrole, hid⟩⟩

theorem keptBehind_called : ResultsCalled (keptBehind results [] rest) := by
  intro before t after hsplit hrole
  obtain ⟨a, m, b, -, hkeep, -⟩ := keptBehind_split hsplit
  have htool : m.role = .tool := by rw [← (keepMessage_narrowed hkeep).role, hrole]
  obtain ⟨rfl, id, hid, hmatch⟩ := (keepMessage_tool htool).mp hkeep
  exact ⟨id, hid, resultHasMatchingCall_iff.mp hmatch⟩

/-! ## The other passes -/

/-- An assistant without a call says something. -/
def substantial (m : Message) : Bool :=
  !(m.role == .assistant && isBlank m.content && m.calls.isEmpty)

theorem filterThinking_eq : ∀ (messages : List Message),
    (filterOrphanedThinkingOnlyMessages false messages).1 =
      messages.filter (fun m => !isThinkingOnly m) := by
  intro messages
  induction messages with
  | nil => rfl
  | cons m rest ih =>
      rw [filterOrphanedThinkingOnlyMessages, List.filter_cons, Bool.and_false, Bool.not_false,
        Bool.true_and]
      cases isThinkingOnly m with
      | true => exact ih
      | false => exact congrArg (List.cons m) ih

theorem substantial_eq (m : Message) :
    (!isWhitespaceOnlyAssistant m && !isThinkingOnly m) = substantial m := by
  rw [isWhitespaceOnlyAssistant, isThinkingOnly, substantial]
  cases m.role == MessageRole.assistant <;> cases isBlank m.content <;> cases m.calls.isEmpty <;>
    cases m.reasoningContent.any (fun r => !isBlank r) <;> rfl

theorem sanitize_messages (messages : List Message) :
    ∃ outcome, sanitize messages none none = .ok outcome ∧
      outcome.messages = (keptBehind (resultIds messages) [] messages).filter substantial := by
  refine ⟨_, rfl, ?_⟩
  show (filterOrphanedThinkingOnlyMessages false
    (keptBehind (resultIds messages) [] messages)).1.filter (fun m => !isWhitespaceOnlyAssistant m) = _
  rw [filterThinking_eq, List.filter_filter]
  exact List.filter_congr (fun m _ => substantial_eq m)

theorem substantial_of_call (h : id ∈ m.callIds) : substantial m = true := by
  have hcalls : m.calls.isEmpty = false := by
    rw [List.isEmpty_eq_false_iff]
    intro hnil
    rw [Message.callIds, hnil] at h
    cases h
  rw [substantial, hcalls, Bool.and_false, Bool.not_false]

theorem substantial_of_tool (h : m.role = .tool) : substantial m = true := by
  rw [substantial, h]
  rfl

theorem filter_split {p : Message → Bool} (h : rest.filter p = before ++ m :: after) :
    ∃ a b, rest = a ++ m :: b ∧ a.filter p = before ∧ b.filter p = after := by
  obtain ⟨a, tail, rfl, ha, htail⟩ := List.filter_eq_append_iff.mp h
  obtain ⟨b, c, rfl, hb, -, hc⟩ := List.filter_eq_cons_iff.mp htail
  have hnil : b.filter p = [] := List.filter_eq_nil_iff.mpr hb
  exact ⟨a ++ b, c, (List.append_assoc a b (m :: c)).symm,
    by rw [List.filter_append, ha, hnil, List.append_nil], hc⟩

theorem filter_answered_iff : CallsAnswered (rest.filter substantial) ↔ CallsAnswered rest := by
  constructor
  · intro h before m after hsplit hrole id hid
    have hfilter : rest.filter substantial =
        before.filter substantial ++ m :: after.filter substantial := by
      rw [hsplit, List.filter_append, List.filter_cons_of_pos (substantial_of_call hid)]
    obtain ⟨t, ht, hres⟩ := h _ _ _ hfilter hrole id hid
    exact ⟨t, (List.mem_filter.mp ht).1, hres⟩
  · intro h before m after hsplit hrole id hid
    obtain ⟨a, b, hrest, -, rfl⟩ := filter_split hsplit
    obtain ⟨t, ht, hres⟩ := h a m b hrest hrole id hid
    exact ⟨t, List.mem_filter.mpr ⟨ht, substantial_of_tool hres.1⟩, hres⟩

theorem filter_called (h : ResultsCalled rest) : ResultsCalled (rest.filter substantial) := by
  intro before t after hsplit hrole
  obtain ⟨a, b, hrest, rfl, -⟩ := filter_split hsplit
  obtain ⟨id, hid, m, hm, hdeclares⟩ := h a t b hrest hrole
  exact ⟨id, hid, m,
    List.mem_filter.mpr ⟨hm, substantial_of_call (declares_iff.mp hdeclares).2⟩, hdeclares⟩

theorem filter_noneEmpty : NoneEmpty (rest.filter substantial) := by
  intro m hm hrole hblank hnil
  have hsub := (List.mem_filter.mp hm).2
  rw [substantial, hrole, hblank, hnil] at hsub
  cases hsub

theorem filter_selected {out : List Message} (p : Message → Bool)
    (h : List.SublistForall₂ Narrowed out rest) :
    List.SublistForall₂ Narrowed (out.filter p) rest := by
  induction h with
  | nil => exact List.SublistForall₂.nil
  | cons hnarrowed _ ih =>
      rw [List.filter_cons]
      split
      · exact List.SublistForall₂.cons hnarrowed ih
      · exact List.SublistForall₂.cons_right ih
  | cons_right _ ih => exact List.SublistForall₂.cons_right ih

/-! ## Once more -/

/-- An assistant all of whose calls have a result stays as it is. -/
theorem keepMessage_self (hrole : m.role = .assistant) (h : ∀ id ∈ m.callIds, id ∈ results) :
    (keepMessage none results kept m).1 = some m := by
  rw [keepMessage, hrole]
  cases hcalls : m.toolCalls with
  | none => rfl
  | some calls =>
      have hm : m.calls = calls := by rw [Message.calls, hcalls]; rfl
      have hall : calls.filter (resolved none results) = calls := by
        rw [List.filter_eq_self]
        intro call hcall
        rw [resolved_none]
        exact List.contains_iff_mem.mpr (h _ (List.mem_map_of_mem (by rwa [hm])))
      dsimp only
      rw [hall]
      split
      · rfl
      · next hne =>
          rw [if_pos (by simpa using hne), ← hcalls, ← hrole]

theorem keptBehind_self : ∀ {kept : List Message},
    (∀ m ∈ rest, m.role = .assistant → ∀ id ∈ m.callIds, id ∈ results) →
    (∀ before t after, rest = before ++ t :: after → t.role = .tool →
      ∃ id, t.toolCallId = some id ∧ ∃ m ∈ kept ++ before, m.declares id = true) →
    keptBehind results kept rest = rest := by
  induction rest with
  | nil =>
      intro kept _ _
      rfl
  | cons m rest ih =>
      intro kept hcalls hcalled
      have hkeep : (keepMessage none results kept m).1 = some m := by
        by_cases htool : m.role = .tool
        · obtain ⟨id, hid, hmatch⟩ := hcalled [] m rest rfl htool
          rw [List.append_nil] at hmatch
          exact (keepMessage_tool htool).mpr ⟨rfl, id, hid, resultHasMatchingCall_iff.mpr hmatch⟩
        · by_cases hassistant : m.role = .assistant
          · exact keepMessage_self hassistant (hcalls m List.mem_cons_self hassistant)
          · exact keepMessage_other htool hassistant
      rw [keptBehind_cons, hkeep, Option.toList_some]
      refine congrArg (List.cons m) (ih (fun x hx => hcalls x (List.mem_cons_of_mem _ hx)) ?_)
      intro before t after hsplit hrole
      obtain ⟨id, hid, hmatch⟩ := hcalled (m :: before) t after (by rw [hsplit]; rfl) hrole
      rw [List.append_cons] at hmatch
      exact ⟨id, hid, hmatch⟩

/-- A transcript that is accepted stays as it is. -/
theorem sanitize_self {messages : List Message} (hanswered : CallsAnswered messages)
    (hcalled : ResultsCalled messages) (hnone : NoneEmpty messages) :
    ∃ again, sanitize messages none none = .ok again ∧ again.messages = messages := by
  obtain ⟨again, hagain, hmessages⟩ := sanitize_messages messages
  have hcalls : ∀ m ∈ messages, m.role = .assistant → ∀ id ∈ m.callIds, id ∈ resultIds messages := by
    intro m hm hrole id hid
    obtain ⟨before, after, hsplit⟩ := List.append_of_mem hm
    obtain ⟨t, ht, hres⟩ := hanswered before m after hsplit hrole id hid
    refine mem_resultIds.mpr ⟨t, ?_, hres⟩
    rw [hsplit]
    exact List.mem_append_right _ (List.mem_cons_of_mem _ ht)
  have hself : keptBehind (resultIds messages) [] messages = messages :=
    keptBehind_self hcalls (fun before t after hsplit hrole => hcalled before t after hsplit hrole)
  refine ⟨again, hagain, ?_⟩
  rw [hmessages, hself, List.filter_eq_self]
  intro m hm
  rw [substantial]
  by_contra hempty
  simp only [Bool.not_eq_true', Bool.not_eq_false, Bool.and_eq_true, beq_iff_eq,
    List.isEmpty_iff] at hempty
  exact hnone m hm hempty.1.1 hempty.1.2 hempty.2

end

/-- The sanitized transcript is one that providers accept exactly where every call that
has a result has one behind it. -/
theorem sanitized_iff (messages : List Message) :
    (∃ outcome, sanitize messages none none = .ok outcome ∧ Sanitized messages outcome.messages) ↔
      AnsweredLater messages := by
  obtain ⟨outcome, hok, hout⟩ := sanitize_messages messages
  constructor
  · rintro ⟨other, hother, hsanitized⟩
    obtain rfl := Except.ok.inj (hok.symm.trans hother)
    have hanswered := hsanitized.answered
    rw [hout, filter_answered_iff] at hanswered
    exact keptBehind_answered_iff.mp hanswered
  · intro h
    have hanswered : CallsAnswered outcome.messages := by
      rw [hout]
      exact filter_answered_iff.mpr (keptBehind_answered_iff.mpr h)
    have hcalled : ResultsCalled outcome.messages := by
      rw [hout]
      exact filter_called keptBehind_called
    have hnone : NoneEmpty outcome.messages := by
      rw [hout]
      exact filter_noneEmpty
    refine ⟨outcome, hok, ?_, hanswered, hcalled, hnone, sanitize_self hanswered hcalled hnone⟩
    rw [hout]
    exact filter_selected substantial keptBehind_selected

/-! ## An id used again -/

/-- The second call of the same id never got its result. -/
def reusedId : List Message :=
  [{ role := .user, content := "list the files", timestamp := 0 },
   { role := .assistant, content := "", toolCalls := some [{ id := "call_0", name := "ls" }],
     timestamp := 1 },
   { role := .tool, content := "a.txt", toolCallId := some "call_0", timestamp := 2 },
   { role := .assistant, content := "", toolCalls := some [{ id := "call_0", name := "ls" }],
     timestamp := 3 }]

theorem reusedId_unanswered :
    ¬∃ outcome, sanitize reusedId none none = .ok outcome ∧ Sanitized reusedId outcome.messages := by
  rintro ⟨outcome, hok, hsanitized⟩
  have hout : outcome.messages = reusedId := by
    obtain ⟨other, hother, hmessages⟩ := sanitize_messages reusedId
    obtain rfl := Except.ok.inj (hother.symm.trans hok)
    rw [hmessages]
    decide
  have hanswered := hsanitized.answered
  rw [hout] at hanswered
  obtain ⟨t, ht, -⟩ := hanswered (reusedId.take 3) (reusedId.get ⟨3, by decide⟩) [] rfl rfl "call_0"
    (by decide)
  cases ht

end Octos.Bus.Resume
