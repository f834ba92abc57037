/-
# `Octos.Agent.CallIds` — one form for the ids of all providers

The last pass over a prompt gives every call id the form `call_..`: what stands
behind `toolu_` or `chatcmpl-` is kept, and an id without a known start is kept
whole.  So the new id is determined by the bare one,

    call_x    toolu_x    chatcmpl-x    x        all become  call_x

and two calls stay apart exactly if no two ids of the history share what is left
of them.  The renaming itself is one function, for calls and results alike, and
on calls it is `normalize_tool_call_id`.
-/
import Octos.Agent.MessageRepair

namespace Octos.Agent

/-! ## Ids of a history -/

/-- The ids of all calls. -/
def callIdsOf (messages : List Message) : List String :=
  messages.flatMap Message.callIds

/-- The ids of all calls and results. -/
def idsOf (messages : List Message) : List String :=
  callIdsOf messages ++ messages.filterMap Message.toolCallId

/-- `normalize_tool_call_id`. -/
def normalizeToolCallId (id : String) : String :=
  if id = "" then "" else normalizeOneId id

def Message.renameIds (f : String → String) (m : Message) : Message :=
  { m with
    toolCalls := m.toolCalls.map (fun calls => calls.map (fun call => { call with id := f call.id }))
    toolCallId := m.toolCallId.map f }

/-- What is left of an id without the start its provider gave it. -/
def bareId (id : String) : String :=
  (((stripStart "call_" id).or (stripStart "toolu_" id)).or (stripStart "chatcmpl-" id)).getD id

/-- The ids that get a new form: those of calls, unless they are empty or have a
form that is left alone. -/
structure Rewritten (messages : List Message) (id : String) : Prop where
  call : id ∈ callIdsOf messages
  nonempty : id ≠ ""
  noCall : startsWith "call_" id = false
  noFc : startsWith "fc_" id = false

/-- The ids that stand in the form `call_..` afterwards. -/
def InForm (messages : List Message) (id : String) : Prop :=
  Rewritten messages id ∨ id ∈ idsOf messages ∧ startsWith "call_" id = true

/-! ## Starts -/

theorem startsWith_iff {start text : String} :
    startsWith start text = true ↔ ∃ rest, text = start ++ rest := by
  rw [startsWith, List.isPrefixOf_iff_prefix]
  constructor
  · rintro ⟨rest, hrest⟩
    exact ⟨String.ofList rest, String.ext (by simpa using hrest.symm)⟩
  · rintro ⟨rest, rfl⟩
    exact ⟨rest.toList, by simp⟩

theorem stripStart_append (start rest : String) : stripStart start (start ++ rest) = some rest := by
  have hstart : startsWith start (start ++ rest) = true := startsWith_iff.mpr ⟨rest, rfl⟩
  rw [stripStart, if_pos hstart, String.toList_append, List.drop_left, String.ofList_toList]

theorem stripStart_none {start text : String} (h : startsWith start text = false) :
    stripStart start text = none := by
  rw [stripStart, h]
  rfl

theorem append_cancel {start a b : String} (h : start ++ a = start ++ b) : a = b := by
  have hlist := congrArg String.toList h
  rw [String.toList_append, String.toList_append] at hlist
  exact String.ext (List.append_cancel_left hlist)

theorem bareId_call (rest : String) : bareId ("call_" ++ rest) = rest := by
  rw [bareId, stripStart_append]
  rfl

/-! ## The new form -/

variable {messages : List Message} {id : String}

theorem idMap_get (messages : List Message) (id : String) : (idMap messages)[id]? =
    if id ∈ callIdsOf messages ∧ id ≠ "" ∧ startsWith "call_" id = false then some (normalizeOneId id)
    else none := by
  have hfold : ∀ (ids : List String) (table : Table String String),
      (ids.foldl (fun table id => table.insert id (normalizeOneId id)) table)[id]? =
        if id ∈ ids then some (normalizeOneId id) else table[id]? := by
    intro ids
    induction ids with
    | nil => intro table; simp
    | cons other ids ih =>
        intro table
        rw [List.foldl_cons, ih, Table.get_insert]
        by_cases hother : other = id
        · simp [hother]
        · have hne : id ≠ other := fun h => hother h.symm
          simp [hother, hne]
  rw [idMap, hfold]
  simp only [List.mem_filter, decide_eq_true_eq, callIdsOf]
  rfl

theorem normalizeOneId_kept (h : startsWith "call_" id = true ∨ startsWith "fc_" id = true) :
    normalizeOneId id = id := by
  rw [normalizeOneId, if_pos (by simpa using h)]

/-- The start `call_function_` is a start `call_`, which is left alone. -/
theorem normalizeOneId_bare (hcall : startsWith "call_" id = false) (hfc : startsWith "fc_" id = false) :
    normalizeOneId id = "call_" ++ bareId id := by
  have hfunction : startsWith "call_function_" id = false := by
    by_contra h
    rw [Bool.not_eq_false, startsWith_iff] at h
    obtain ⟨rest, rfl⟩ := h
    have htrue : startsWith "call_" ("call_function_" ++ rest) = true :=
      startsWith_iff.mpr ⟨"function_" ++ rest, by rw [← String.append_assoc]; rfl⟩
    rw [htrue] at hcall
    cases hcall
  rw [normalizeOneId, if_neg (by simp [hcall, hfc]), bareId, stripStart_none hfunction,
    stripStart_none hcall]

theorem rewriteId_rewritten (h : Rewritten messages id) :
    rewriteId (idMap messages) id = "call_" ++ bareId id := by
  rw [rewriteId, idMap_get, if_pos ⟨h.call, h.nonempty, h.noCall⟩, Option.getD_some,
    normalizeOneId_bare h.noCall h.noFc]

theorem rewriteId_kept (h : ¬Rewritten messages id) : rewriteId (idMap messages) id = id := by
  rw [rewriteId, idMap_get]
  split
  · next hin =>
      rw [Option.getD_some]
      refine normalizeOneId_kept (Or.inr ?_)
      by_contra hfc
      exact h ⟨hin.1, hin.2.1, hin.2.2, by simpa using hfc⟩
  · rfl

/-- **On calls** the renaming is the one for a single id. -/
theorem rewriteId_call (h : id ∈ callIdsOf messages) :
    rewriteId (idMap messages) id = normalizeToolCallId id := by
  rw [rewriteId, idMap_get, normalizeToolCallId]
  by_cases hempty : id = ""
  · simp [hempty]
  · rw [if_neg hempty]
    by_cases hcall : startsWith "call_" id = true
    · rw [if_neg (by simp [hcall]), normalizeOneId_kept (Or.inl hcall)]
      rfl
    · rw [if_pos ⟨h, hempty, by simpa using hcall⟩]
      rfl

theorem rewriteId_inForm (h : InForm messages id) : rewriteId (idMap messages) id = "call_" ++ bareId id := by
  rcases h with h | ⟨-, hcall⟩
  · exact rewriteId_rewritten h
  · rw [rewriteId_kept (fun h => by simp [h.noCall] at hcall)]
    obtain ⟨rest, rfl⟩ := startsWith_iff.mp hcall
    rw [bareId_call]

theorem InForm.mem (h : InForm messages id) : id ∈ idsOf messages := by
  rcases h with h | ⟨hmem, -⟩
  · exact List.mem_append_left _ h.call
  · exact hmem

/-! ## Keeping calls apart -/

/-- No call that is rewritten shares its bare id with another id in that form. -/
def BareIdsApart (messages : List Message) : Prop :=
  ∀ a b, Rewritten messages a → InForm messages b → bareId a = bareId b → a = b

theorem rewriteId_injective (h : BareIdsApart messages) {a b : String}
    (ha : a ∈ idsOf messages) (hb : b ∈ idsOf messages)
    (hab : rewriteId (idMap messages) a = rewriteId (idMap messages) b) : a = b := by
  -- an id that is kept and equal to a new one stands in the form already
  have hmixed : ∀ {x y : String}, Rewritten messages x → ¬Rewritten messages y → y ∈ idsOf messages →
      rewriteId (idMap messages) x = rewriteId (idMap messages) y → x = y := by
    intro x y hx hy hmem hxy
    rw [rewriteId_rewritten hx, rewriteId_kept hy] at hxy
    refine h x y hx (Or.inr ⟨hmem, startsWith_iff.mpr ⟨bareId x, hxy.symm⟩⟩) ?_
    rw [← hxy, bareId_call]
  by_cases hra : Rewritten messages a
  · by_cases hrb : Rewritten messages b
    · rw [rewriteId_rewritten hra, rewriteId_rewritten hrb] at hab
      exact h a b hra (Or.inl hrb) (append_cancel hab)
    · exact hmixed hra hrb hb hab
  · by_cases hrb : Rewritten messages b
    · exact (hmixed hrb hra ha hab.symm).symm
    · rw [rewriteId_kept hra, rewriteId_kept hrb] at hab
      exact hab

/-- What the normalized messages are to be, with the renaming `f` of their ids. -/
structure KeepsApart (messages : List Message) (f : String → String) : Prop where
  renames : normalizeToolCallIds messages = messages.map (Message.renameIds f)
  apart : ∀ a ∈ idsOf messages, ∀ b ∈ idsOf messages, a ≠ b → f a ≠ f b
  paired : ∀ result ∈ messages, ∀ r, result.toolCallId = some r → ∀ caller ∈ messages,
    ∀ c ∈ caller.callIds, f r = f c ↔ r = c
  single : ∀ id ∈ callIdsOf messages, f id = normalizeToolCallId id

/-- The messages determine the renaming of their ids. -/
theorem renameIds_determines {f g : String → String}
    (h : messages.map (Message.renameIds f) = messages.map (Message.renameIds g)) :
    ∀ id ∈ idsOf messages, f id = g id := by
  intro id hid
  have hmsg : ∀ m ∈ messages, m.renameIds f = m.renameIds g := List.map_inj_left.mp h
  rcases List.mem_append.mp hid with hid | hid
  · obtain ⟨m, hm, hcall⟩ := List.mem_flatMap.mp hid
    have hcalls := congrArg Message.toolCalls (hmsg m hm)
    rw [Message.callIds, Message.calls] at hcall
    cases hopt : m.toolCalls with
    | none => simp [hopt] at hcall
    | some calls =>
        simp only [Message.renameIds, hopt, Option.map_some, Option.some.injEq, List.map_inj_left] at hcalls
        rw [hopt, Option.getD_some] at hcall
        obtain ⟨call, hmem, rfl⟩ := List.mem_map.mp hcall
        exact congrArg ToolCall.id (hcalls call hmem)
  · obtain ⟨m, hm, hresult⟩ := List.mem_filterMap.mp hid
    have hids := congrArg Message.toolCallId (hmsg m hm)
    simpa [Message.renameIds, hresult] using hids

theorem mem_idsOf_result {result : Message} {r : String} (h : result ∈ messages)
    (hr : result.toolCallId = some r) : r ∈ idsOf messages :=
  List.mem_append_right _ (List.mem_filterMap.mpr ⟨result, h, hr⟩)

/-- **Calls are kept apart** exactly where their bare ids are apart. -/
theorem keepsApart_iff (messages : List Message) :
    (∃ f, KeepsApart messages f) ↔ BareIdsApart messages := by
  have hrename : normalizeToolCallIds messages =
      messages.map (Message.renameIds (rewriteId (idMap messages))) := rfl
  constructor
  · rintro ⟨f, hf⟩ a b ha hb hbare
    have hsame := renameIds_determines (hf.renames.symm.trans hrename)
    by_contra hne
    refine hf.apart a (List.mem_append_left _ ha.call) b hb.mem hne ?_
    rw [hsame a (List.mem_append_left _ ha.call), hsame b hb.mem, rewriteId_rewritten ha,
      rewriteId_inForm hb, hbare]
  · intro h
    have hinj : ∀ a ∈ idsOf messages, ∀ b ∈ idsOf messages,
        rewriteId (idMap messages) a = rewriteId (idMap messages) b → a = b :=
      fun a ha b hb => rewriteId_injective h ha hb
    refine ⟨rewriteId (idMap messages), hrename, ?_, ?_, fun id hid => rewriteId_call hid⟩
    · intro a ha b hb hne heq
      exact hne (hinj a ha b hb heq)
    · intro result hresult r hr caller hcaller c hc
      refine ⟨?_, congrArg _⟩
      exact hinj r (mem_idsOf_result hresult hr) c
        (List.mem_append_left _ (List.mem_flatMap.mpr ⟨caller, hcaller, hc⟩))

/-- A history of two providers: `toolu_abc` of the one, `call_abc` of the other. -/
def twoProviders : List Message :=
  [{ role := .assistant, content := "", toolCalls := some [{ id := "toolu_abc", name := "read_file" }],
     timestamp := 0 },
   { role := .tool, content := "first", toolCallId := some "toolu_abc", timestamp := 1 },
   { role := .assistant, content := "", toolCalls := some [{ id := "call_abc", name := "shell" }],
     timestamp := 2 },
   { role := .tool, content := "second", toolCallId := some "call_abc", timestamp := 3 }]

theorem twoProviders_collide : ¬∃ f, KeepsApart twoProviders f := by
  rintro ⟨f, hf⟩
  have hcalls : callIdsOf twoProviders = ["toolu_abc", "call_abc"] := by decide
  have hfirst := hf.single "toolu_abc" (by simp [hcalls])
  have hsecond := hf.single "call_abc" (by simp [hcalls])
  refine hf.apart "toolu_abc" (by simp [idsOf, hcalls]) "call_abc" (by simp [idsOf, hcalls]) (by decide) ?_
  rw [hfirst, hsecond]
  rfl

end Octos.Agent
