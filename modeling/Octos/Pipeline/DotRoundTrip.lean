/-
# `Octos.Pipeline.DotRoundTrip` — graphs written out, and read back

A graph is written as a program: its subgraphs, its nodes in any order, its edges
in theirs.  Subgraphs come first, because naming a member declares it, and the
node's own statement has to be the last one.

Not every graph is read back.  Two kinds of handlers have no spelling, lists are
written with commas, a checkpoint is always resumable, and the parser only builds
graphs that are well formed.  `Printable` is what remains: `parseDot_render` says
that it is read back, but for the floating-point attributes, which are not
written, and `printable_of_parseDot` that no text gives any other graph.
-/
import Octos.Pipeline.DotText
import Octos.Pipeline.DotSound
import Octos.Lib.Blocks

namespace Octos.Pipeline

open Text

/-! ## Attributes of a node -/

def attrOf (key : String) (value : Option String) : List (String × String) :=
  (value.map (fun text => (key, text))).toList

def natText (n : Nat) : String :=
  String.ofList (decimal n)

def boolText (b : Bool) : String :=
  if b then "true" else "false"

def csvText (parts : List String) : String :=
  String.ofList ([','].intercalate (parts.map String.toList))

/-- The spelling of a handler, if it has one. -/
def handlerText : HandlerKind → Option String
  | .codergen => some "codergen"
  | .shell => some "shell"
  | .gate => some "gate"
  | .noop => some "noop"
  | .parallel => some "parallel"
  | .dynamicParallel => some "dynamic_parallel"
  | .shellCheck => some "shell_check"
  | .notify => none
  | .wait => none

/-- A kind that has a spelling. -/
def HandlerKind.isSpelled (kind : HandlerKind) : Bool :=
  (handlerText kind).isSome

def actionText : DeadlineAction → String
  | .abort => "abort"
  | .skip => "skip"
  | .retry n => String.ofList ("retry:".toList ++ decimal n.toNat)
  | .escalate => "escalate"

/-- No tools are left out; the list with the empty name is written as it is. -/
def toolsText (tools : List String) : Option String :=
  if tools = [] then none else some (csvText tools)

/-- The attributes of a node, those it does not have too. -/
def nodeFields (node : PipelineNode) : List (String × Option String) :=
  [("handler", handlerText node.handler),
   ("prompt", node.prompt),
   ("label", node.label),
   ("model", node.model),
   ("context_window", node.contextWindow.map (fun n => natText n.toNat)),
   ("max_output_tokens", node.maxOutputTokens.map (fun n => natText n.toNat)),
   ("reasoning_effort", node.reasoningEffort),
   ("max_iterations", node.maxIterations.map (fun n => natText n.toNat)),
   ("tools", toolsText node.tools),
   ("goal_gate", some (boolText node.goalGate)),
   ("max_retries", some (natText node.maxRetries.toNat)),
   ("timeout_secs", node.timeoutSecs.map (fun n => natText n.toNat)),
   ("suggested_next", node.suggestedNext),
   ("converge", node.converge),
   ("worker_prompt", node.workerPrompt),
   ("planner_model", node.plannerModel),
   ("max_tasks", node.maxTasks.map (fun n => natText n.toNat)),
   ("human_gate", some (boolText node.humanGate)),
   ("resolver", node.resolver),
   ("artifact_refs", some (csvText node.artifactRefs)),
   ("checkpoint_refs", some (csvText node.checkpointRefs)),
   ("deadline_action", node.deadlineAction.map actionText),
   ("continue_on_error", some (boolText node.continueOnError)),
   ("checkpoint", some (csvText (node.checkpoints.map MissionCheckpoint.name ++ [""])))]

def nodeAttrs (node : PipelineNode) : List (String × String) :=
  (nodeFields node).flatMap (fun field => attrOf field.1 field.2)

def edgeFields (e : PipelineEdge) : List (String × Option String) :=
  [("label", e.label), ("condition", e.condition)]

def edgeAttrs (e : PipelineEdge) : List (String × String) :=
  (edgeFields e).flatMap (fun field => attrOf field.1 field.2)

theorem insertAll_append (table : Attributes) (a b : List (String × String)) :
    insertAll table (a ++ b) = insertAll (insertAll table a) b :=
  List.foldl_append

theorem insertAll_attrOf (table : Attributes) (key k : String) (value : Option String) :
    (insertAll table (attrOf key value))[k]? =
      if key = k then value.or table[k]? else table[k]? := by
  cases value with
  | none => simp [attrOf, insertAll]
  | some text => simp [attrOf, insertAll, Table.get_insert]

/-- Fields with different keys are found under their keys. -/
theorem get_fields {k : String} : ∀ {fields : List (String × Option String)} {table : Attributes},
    (fields.map Prod.fst).Nodup →
    (insertAll table (fields.flatMap (fun field => attrOf field.1 field.2)))[k]? =
      ((fields.lookup k).getD none).or table[k]? := by
  intro fields
  induction fields with
  | nil => intro table _; rfl
  | cons field fields ih =>
      intro table hnodup
      rw [List.map_cons, List.nodup_cons] at hnodup
      rw [List.flatMap_cons, insertAll_append, ih hnodup.2, insertAll_attrOf, List.lookup_cons]
      by_cases hkey : field.1 = k
      · have hnone : fields.lookup k = none := by
          rw [List.lookup_eq_none_iff]
          intro other hother
          refine bne_iff_ne.mpr ?_
          rintro rfl
          exact hnodup.1 (hkey ▸ List.mem_map_of_mem hother)
        simp [hkey, hnone]
      · have hkey' : (k == field.1) = false := beq_eq_false_iff_ne.mpr (Ne.symm hkey)
        simp [hkey, hkey']

/-- What a node of the source has of it: the attributes that are not written have
their defaults. -/
def PipelineNode.withoutFloats (node : PipelineNode) : PipelineNode :=
  { node with deadlineSecs := none }

def PipelineEdge.withoutFloats (e : PipelineEdge) : PipelineEdge :=
  { e with weight := .finite 1 }

/-! ## Reading values back -/

theorem parseBool_boolText (b : Bool) : parseBool (boolText b) = some b := by
  cases b <;> decide

theorem parseU32_natText (n : U32) : parseU32 (natText n.toNat) = some n := by
  rw [parseU32, natText, String.toList_ofList, parseUnsigned_decimal n.isLt, Option.map_some,
    BitVec.ofNat_toNat, BitVec.setWidth_eq]

theorem parseDurationSecs_natText (n : U64) : parseDurationSecs (natText n.toNat) = some n := by
  have hstrip : ∀ ending : Char, ending.isDigit = false →
      stripSuffix ending (decimal n.toNat) = none := by
    intro ending hending
    refine if_neg ?_
    intro hlast
    have hdigit := isDigit_of_mem_decimal (List.mem_of_getLast? hlast)
    rw [hending] at hdigit
    cases hdigit
  have htrim : trim (decimal n.toNat) = decimal n.toNat := trimmed_decimal _
  rw [parseDurationSecs, natText, String.toList_ofList, htrim]
  simp only [hstrip 's' (by decide), hstrip 'm' (by decide), hstrip 'h' (by decide),
    parseUnsigned_decimal n.isLt, Option.map_some, BitVec.ofNat_toNat, BitVec.setWidth_eq]

/-- Entries that are read back. -/
def IsEntry (text : String) : Prop :=
  Entry ',' text.toList

theorem parseCsvList_csvText {parts : List String} (h : ∀ part ∈ parts, IsEntry part) :
    parseCsvList (csvText parts) = parts := by
  have hentries : ∀ part ∈ parts.map String.toList, Entry ',' part := by
    intro part hpart
    obtain ⟨text, htext, rfl⟩ := List.mem_map.mp hpart
    exact h text htext
  rw [parseCsvList, csvText, String.toList_ofList, entries_intercalate hentries, List.map_map]
  conv => rhs; rw [← List.map_id parts]
  refine List.map_congr_left ?_
  intro part _
  exact String.ofList_toList

theorem parseDeadlineAction_actionText {action : DeadlineAction} (h : action ≠ .retry 0) :
    parseDeadlineAction (actionText action) = some action := by
  cases action with
  | abort => decide
  | skip => decide
  | escalate => decide
  | retry n =>
      have hn : n.toNat ≠ 0 := by
        intro hzero
        exact h (congrArg DeadlineAction.retry (BitVec.eq_of_toNat_eq hzero))
      have hdigit : ∀ hne, ((decimal n.toNat).getLast hne).isDigit = true :=
        fun hne => isDigit_of_mem_decimal (List.getLast_mem hne)
      have hlast := isWhitespace_of_isDigit (hdigit (decimal_ne_nil _))
      have htrim : trim ("retry:".toList ++ decimal n.toNat) = "retry:".toList ++ decimal n.toNat := by
        refine trimmed_iff.mpr ?_
        intro hne
        refine ⟨show isWhitespace 'r' = false by decide, ?_⟩
        rw [List.getLast_append_of_ne_nil _ (decimal_ne_nil _)]
        exact hlast
      have hclose : (decimal n.toNat).rdropWhile (· == ')') = decimal n.toNat := by
        rw [List.rdropWhile_eq_self_iff]
        intro hne heq
        have := hdigit hne
        rw [beq_iff_eq.mp heq] at this
        exact absurd this (by decide)
      have hstart : stripStart "retry:".toList ("retry:".toList ++ decimal n.toNat) =
          some (decimal n.toNat) := by
        rw [stripStart, if_pos (List.prefix_append _ _), List.drop_left]
      have hne : ∀ word : List Char, word.head? ≠ some 'r' →
          "retry:".toList ++ decimal n.toNat ≠ word := by
        rintro word hword rfl
        exact hword rfl
      have hnat : trim (decimal n.toNat) = decimal n.toNat := trimmed_decimal _
      show parseDeadlineAction (String.ofList ("retry:".toList ++ decimal n.toNat)) = _
      rw [parseDeadlineAction, String.toList_ofList, htrim,
        if_neg (hne "abort".toList (by decide)), if_neg (hne "skip".toList (by decide)),
        if_neg (hne "escalate".toList (by decide)), hstart]
      show (parseUnsigned (2 ^ 32) (trim ((decimal n.toNat).rdropWhile (· == ')')))).bind _ = _
      rw [hclose, hnat, parseUnsigned_decimal n.isLt]
      show (if n.toNat = 0 then none else some (DeadlineAction.retry (BitVec.ofNat 32 n.toNat))) = _
      rw [if_neg hn, BitVec.ofNat_toNat, BitVec.setWidth_eq]

theorem fromStr_handlerText {kind : HandlerKind} (h : kind.isSpelled = true) :
    (handlerText kind).bind HandlerKind.fromStr = some kind := by
  cases kind with
  | notify => cases h
  | wait => cases h
  | _ => decide

theorem parseTools_text {attrs : Attributes} {tools : List String}
    (hget : attrs["tools"]? = toolsText tools)
    (h : tools = [""] ∨ ∀ tool ∈ tools, IsEntry tool) : parseTools attrs = tools := by
  rw [parseTools, hget, toolsText]
  split
  · next hnone =>
      split at hnone
      · next hnil => exact hnil.symm
      · cases hnone
  · next text hsome =>
      split at hsome
      · cases hsome
      · next hne =>
          obtain rfl := Option.some.inj hsome
          rcases h with rfl | hentries
          · decide
          · rw [parseCsvList_csvText hentries, if_neg hne]

/-- A text with a comma is no truth value. -/
theorem parseBool_comma {text : String} (h : ',' ∈ trim text.toList) : parseBool text = none := by
  have hne : ∀ word : String, ',' ∉ word.toList → String.ofList (trim text.toList) ≠ word := by
    rintro word hword rfl
    rw [String.toList_ofList] at hword
    exact hword h
  rw [parseBool, if_neg, if_neg]
  · rintro (heq | heq | heq)
    · exact hne "false" (by decide) heq
    · exact hne "no" (by decide) heq
    · exact hne "0" (by decide) heq
  · rintro (heq | heq | heq)
    · exact hne "true" (by decide) heq
    · exact hne "yes" (by decide) heq
    · exact hne "1" (by decide) heq

/-- Entries that each end with a comma, from the first to the last. -/
theorem closed_ends (part : List Char) (parts : List (List Char)) :
    ∃ mid, (part :: parts).flatMap (fun part => part ++ [',']) = part ++ mid ++ [','] := by
  induction parts generalizing part with
  | nil => exact ⟨[], by simp⟩
  | cons other parts ih =>
      obtain ⟨mid, hmid⟩ := ih other
      refine ⟨',' :: (other ++ mid), ?_⟩
      rw [List.flatMap_cons, hmid]
      simp

/-- The names are written with a comma behind each: a single one could be taken for
a truth value. -/
theorem parseCheckpoints_text {attrs : Attributes} {checkpoints : List MissionCheckpoint}
    (hget : attrs["checkpoint"]? = some (csvText (checkpoints.map MissionCheckpoint.name ++ [""])))
    (hentry : ∀ c ∈ checkpoints, c.resumable = true ∧ IsEntry c.name) :
    parseCheckpoints attrs = checkpoints := by
  have hentries : ∀ part ∈ checkpoints.map (fun c => c.name.toList), Entry ',' part := by
    intro part hpart
    obtain ⟨c, hc, rfl⟩ := List.mem_map.mp hpart
    exact (hentry c hc).2
  have htext : (csvText (checkpoints.map MissionCheckpoint.name ++ [""])).toList =
      [','].intercalate (checkpoints.map (fun c => c.name.toList) ++ [[]]) := by
    rw [csvText, String.toList_ofList, List.map_append, List.map_map]
    rfl
  rw [parseCheckpoints, hget]
  dsimp only
  cases checkpoints with
  | nil => decide
  | cons c checkpoints =>
      have hc := (hentry c List.mem_cons_self).2
      obtain ⟨mid, hmid⟩ : ∃ mid, [','].intercalate
          ((c :: checkpoints).map (fun c => c.name.toList) ++ [[]]) = c.name.toList ++ mid ++ [','] := by
        rw [intercalate_closed]
        exact closed_ends c.name.toList (checkpoints.map (fun c => c.name.toList))
      have htrimmed : trim (csvText ((c :: checkpoints).map MissionCheckpoint.name ++ [""])).toList =
          [','].intercalate ((c :: checkpoints).map (fun c => c.name.toList) ++ [[]]) := by
        rw [htext, hmid]
        exact hc.trimmed.around (show Trimmed [','] by decide) hc.nonempty (by simp)
      have hne : [','].intercalate ((c :: checkpoints).map (fun c => c.name.toList) ++ [[]]) ≠ [] := by
        rw [hmid]
        simp
      have hbool : parseBool (csvText ((c :: checkpoints).map MissionCheckpoint.name ++ [""])) =
          none := by
        refine parseBool_comma ?_
        rw [htrimmed, hmid]
        simp
      rw [htrimmed, if_neg hne, hbool, entries_closed hentries]
      show List.map _ _ = _
      rw [List.map_map]
      conv => rhs; rw [← List.map_id (c :: checkpoints)]
      refine List.map_congr_left ?_
      intro d hd
      show ({ name := String.ofList d.name.toList } : MissionCheckpoint) = d
      rw [String.ofList_toList]
      have hresumable := (hentry d hd).1
      cases d
      cases hresumable
      rfl

/-! ## Nodes -/

/-- A node whose attributes can all be written. -/
structure PrintableNode (node : PipelineNode) : Prop where
  handler : node.handler.isSpelled = true
  tools : node.tools = [""] ∨ ∀ tool ∈ node.tools, IsEntry tool
  artifactRefs : ∀ ref ∈ node.artifactRefs, IsEntry ref
  checkpointRefs : ∀ ref ∈ node.checkpointRefs, IsEntry ref
  deadlineAction : node.deadlineAction ≠ some (.retry 0)
  checkpoints : ∀ c ∈ node.checkpoints, c.resumable = true ∧ IsEntry c.name

theorem bind_map_self {α : Type} {write : α → String} {read : String → Option α} {x : Option α}
    (h : ∀ a, x = some a → read (write a) = some a) : (x.map write).bind read = x := by
  cases x with
  | none => rfl
  | some a => exact h a rfl

theorem nodeFields_nodup (node : PipelineNode) : ((nodeFields node).map Prod.fst).Nodup := by
  have hkeys : (nodeFields node).map Prod.fst = (nodeFields {}).map Prod.fst := rfl
  rw [hkeys]
  decide

theorem get_nodeAttrs (node : PipelineNode) (k : String) :
    (insertAll ∅ (nodeAttrs node))[k]? = ((nodeFields node).lookup k).getD none := by
  rw [nodeAttrs, get_fields (nodeFields_nodup node), Std.ExtTreeMap.getElem?_empty, Option.or_none]

/-- **Reading a node back.** -/
theorem buildNode_nodeAttrs {env : DotEnv} {node : PipelineNode} (h : PrintableNode node) :
    buildNode env node.id (insertAll ∅ (nodeAttrs node)) = node.withoutFloats := by
  have htools : parseTools (insertAll ∅ (nodeAttrs node)) = node.tools :=
    parseTools_text (get_nodeAttrs node _) h.tools
  have hcheckpoints : parseCheckpoints (insertAll ∅ (nodeAttrs node)) = node.checkpoints :=
    parseCheckpoints_text (get_nodeAttrs node _) h.checkpoints
  have hget : ∀ (k : String) (value : Option String),
      ((nodeFields node).lookup k).getD none = value →
      (insertAll ∅ (nodeAttrs node))[k]? = value := by
    intro k value hvalue
    rw [get_nodeAttrs, hvalue]
  -- numbers, truth values and lists are read back from their text
  have hu32 : ∀ (k : String) (x : Option U32),
      ((nodeFields node).lookup k).getD none = x.map (fun n => natText n.toNat) →
      (insertAll ∅ (nodeAttrs node))[k]?.bind parseU32 = x := by
    intro k x hx
    rw [hget k _ hx]
    exact bind_map_self (fun n _ => parseU32_natText n)
  have hbool : ∀ (k : String) (b : Bool),
      ((nodeFields node).lookup k).getD none = some (boolText b) →
      ((insertAll ∅ (nodeAttrs node))[k]?.bind parseBool).getD false = b := by
    intro k b hb
    rw [hget k _ hb, Option.bind_some, parseBool_boolText]
    rfl
  have hcsv : ∀ (k other : String) (parts : List String), (∀ part ∈ parts, IsEntry part) →
      ((nodeFields node).lookup k).getD none = some (csvText parts) →
      (((insertAll ∅ (nodeAttrs node))[k]?.or (insertAll ∅ (nodeAttrs node))[other]?).map
        parseCsvList).getD [] = parts := by
    intro k other parts hparts hk
    rw [hget k _ hk]
    exact parseCsvList_csvText hparts
  have hhandler : (((insertAll ∅ (nodeAttrs node))["handler"]?.bind HandlerKind.fromStr).or
      ((insertAll ∅ (nodeAttrs node))["shape"]?.bind HandlerKind.fromShape)).getD .codergen =
      node.handler := by
    rw [hget "handler" (handlerText node.handler) rfl, fromStr_handlerText h.handler]
    rfl
  have hretries : ((insertAll ∅ (nodeAttrs node))["max_retries"]?.bind parseU32).getD 0 =
      node.maxRetries := by
    rw [hu32 "max_retries" (some node.maxRetries) rfl]
    rfl
  have htimeout : (insertAll ∅ (nodeAttrs node))["timeout_secs"]?.bind parseDurationSecs =
      node.timeoutSecs := by
    rw [hget "timeout_secs" (node.timeoutSecs.map (fun n => natText n.toNat)) rfl]
    exact bind_map_self (fun n _ => parseDurationSecs_natText n)
  have hhuman : (((insertAll ∅ (nodeAttrs node))["human_gate"]?.or
      (insertAll ∅ (nodeAttrs node))["requires_human"]?).bind parseBool).getD
      (insertAll ∅ (nodeAttrs node))["input_type"]?.isSome = node.humanGate := by
    rw [hget "human_gate" (some (boolText node.humanGate)) rfl, Option.some_or, Option.bind_some,
      parseBool_boolText]
    rfl
  have haction : (insertAll ∅ (nodeAttrs node))["deadline_action"]?.bind parseDeadlineAction =
      node.deadlineAction := by
    rw [hget "deadline_action" (node.deadlineAction.map actionText) rfl]
    refine bind_map_self ?_
    rintro action haction
    refine parseDeadlineAction_actionText ?_
    rintro rfl
    exact h.deadlineAction haction
  rw [buildNode, htools, hcheckpoints, hhandler, hretries, htimeout, hhuman, haction,
    hget "prompt" node.prompt rfl, hget "label" node.label rfl, hget "model" node.model rfl,
    hu32 "context_window" node.contextWindow rfl,
    hu32 "max_output_tokens" node.maxOutputTokens rfl,
    hget "reasoning_effort" node.reasoningEffort rfl,
    hu32 "max_iterations" node.maxIterations rfl, hbool "goal_gate" node.goalGate rfl,
    hget "suggested_next" node.suggestedNext rfl, hget "converge" node.converge rfl,
    hget "worker_prompt" node.workerPrompt rfl, hget "planner_model" node.plannerModel rfl,
    hu32 "max_tasks" node.maxTasks rfl, hget "resolver" node.resolver rfl,
    hget "gate_resolver" none rfl, Option.or_none,
    hcsv "artifact_refs" "requires_artifact" node.artifactRefs h.artifactRefs rfl,
    hcsv "checkpoint_refs" "requires_checkpoint" node.checkpointRefs h.checkpointRefs rfl,
    hget "deadline_secs" none rfl, hbool "continue_on_error" node.continueOnError rfl]
  rfl

/-! ## What a node can be -/

theorem parseCsvList_entries {text part : String} (h : part ∈ parseCsvList text) : IsEntry part := by
  obtain ⟨raw, hraw, rfl⟩ := List.mem_map.mp h
  rw [IsEntry, String.toList_ofList]
  exact entry_of_mem_entries hraw

theorem optionalCsv_entries {value : Option String} {part : String}
    (h : part ∈ (value.map parseCsvList).getD []) : IsEntry part := by
  cases value with
  | none => cases h
  | some text => exact parseCsvList_entries h

theorem parseTools_entries (attrs : Attributes) :
    parseTools attrs = [""] ∨ ∀ tool ∈ parseTools attrs, IsEntry tool := by
  rw [parseTools]
  split
  · exact Or.inr (List.forall_mem_nil _)
  · split
    · exact Or.inl rfl
    · exact Or.inr (fun tool htool => parseCsvList_entries htool)

theorem parseCheckpoints_entries {attrs : Attributes} {c : MissionCheckpoint}
    (h : c ∈ parseCheckpoints attrs) : c.resumable = true ∧ IsEntry c.name := by
  rw [parseCheckpoints] at h
  split at h
  · cases h
  · split at h
    · cases h
    · split at h
      · obtain rfl := List.mem_singleton.mp h
        exact ⟨rfl, by decide, by decide, by decide⟩
      · cases h
      · obtain ⟨raw, hraw, rfl⟩ := List.mem_map.mp h
        refine ⟨rfl, ?_⟩
        show Entry ',' (String.ofList raw).toList
        rw [String.toList_ofList]
        exact entry_of_mem_entries hraw

theorem parseDeadlineAction_ne (text : String) : parseDeadlineAction text ≠ some (.retry 0) := by
  intro h
  rw [parseDeadlineAction] at h
  split at h
  · cases h
  · split at h
    · cases h
    · split at h
      · cases h
      · obtain ⟨tail, _, h⟩ := Option.bind_eq_some_iff.mp h
        obtain ⟨n, hn, h⟩ := Option.bind_eq_some_iff.mp h
        split at h
        · cases h
        · next hne =>
            have hzero := congrArg BitVec.toNat (DeadlineAction.retry.inj (Option.some.inj h))
            rw [BitVec.toNat_ofNat, Nat.mod_eq_of_lt (parseUnsigned_lt hn)] at hzero
            exact hne hzero

theorem fromStr_spelled {text : String} {kind : HandlerKind}
    (h : HandlerKind.fromStr text = some kind) : kind.isSpelled = true := by
  rw [HandlerKind.fromStr] at h
  repeat' split at h
  all_goals cases h <;> rfl

theorem fromShape_spelled {text : String} {kind : HandlerKind}
    (h : HandlerKind.fromShape text = some kind) : kind.isSpelled = true := by
  rw [HandlerKind.fromShape] at h
  repeat' split at h
  all_goals cases h <;> rfl

theorem handler_spelled (handler shape : Option String) :
    (((handler.bind HandlerKind.fromStr).or (shape.bind HandlerKind.fromShape)).getD
      .codergen).isSpelled = true := by
  cases hkind : (handler.bind HandlerKind.fromStr).or (shape.bind HandlerKind.fromShape) with
  | none => rfl
  | some kind =>
      rcases Option.or_eq_some_iff.mp hkind with hfrom | ⟨_, hfrom⟩
      · obtain ⟨text, _, hfrom⟩ := Option.bind_eq_some_iff.mp hfrom
        exact fromStr_spelled hfrom
      · obtain ⟨text, _, hfrom⟩ := Option.bind_eq_some_iff.mp hfrom
        exact fromShape_spelled hfrom

/-- Whatever the attributes are, the node they make can be written. -/
theorem buildNode_printable (env : DotEnv) (id : String) (attrs : Attributes) :
    PrintableNode (buildNode env id attrs) where
  handler := handler_spelled attrs["handler"]? attrs["shape"]?
  tools := parseTools_entries attrs
  artifactRefs := fun _ h => optionalCsv_entries h
  checkpointRefs := fun _ h => optionalCsv_entries h
  deadlineAction := by
    intro heq
    obtain ⟨text, _, hretry⟩ := Option.bind_eq_some_iff.mp heq
    exact parseDeadlineAction_ne text hretry
  checkpoints := fun _ h => parseCheckpoints_entries h

/-! ## Edges -/

theorem edgeFields_nodup (e : PipelineEdge) : ((edgeFields e).map Prod.fst).Nodup := by
  have hkeys : (edgeFields e).map Prod.fst = ["label", "condition"] := rfl
  rw [hkeys]
  decide

theorem buildEdge_edgeAttrs {env : DotEnv} (e : PipelineEdge) :
    buildEdge env (insertAll ∅ (edgeAttrs e)) e.source e.target = e.withoutFloats := by
  have hget : ∀ (k : String) (value : Option String),
      ((edgeFields e).lookup k).getD none = value →
      (insertAll ∅ (edgeAttrs e))[k]? = value := by
    intro k value hvalue
    rw [edgeAttrs, get_fields (edgeFields_nodup e), Std.ExtTreeMap.getElem?_empty, Option.or_none,
      hvalue]
  rw [buildEdge, hget "label" e.label rfl, hget "condition" e.condition rfl, hget "weight" none rfl]
  rfl

/-! ## The text of a graph -/

def nodeStatement (row : String × PipelineNode) : Statement :=
  .node row.1 (nodeAttrs row.2)

def edgeStatement (e : PipelineEdge) : Statement :=
  .edge e.source e.target (edgeAttrs e)

def memberStatement (sub : Subgraph) : Statement :=
  .subgraph sub.id sub.label sub.nodeIds

/-- The statements of a graph, its nodes in the order given. -/
def graphStatements (g : PipelineGraph) (order : List (String × PipelineNode)) : List Statement :=
  g.subgraphs.map memberStatement ++ (order.map nodeStatement ++ g.edges.map edgeStatement)

def render (g : PipelineGraph) (order : List (String × PipelineNode)) : String :=
  String.ofList (programText g.id (graphStatements g order))

/-- The ids are words, and names where a keyword could be read. -/
structure Named (env : DotEnv) (g : PipelineGraph) : Prop where
  graph : IsName env g.id
  nodes : ∀ (x : String) (node : PipelineNode), g.nodes[x]? = some node → IsName env x
  edges : ∀ e ∈ g.edges, IsName env e.source ∧ IsName env e.target
  subgraphs : ∀ sub ∈ g.subgraphs, IsName env sub.id ∧ ∀ x ∈ sub.nodeIds, IsName env x

theorem attrOf_key {key : String} {value : Option String} {attr : String × String}
    (h : attr ∈ attrOf key value) : attr.1 = key := by
  cases value with
  | none => cases h
  | some text => rw [List.mem_singleton.mp h]

theorem fields_keys {env : DotEnv} {fields : List (String × Option String)}
    (h : ∀ key ∈ fields.map Prod.fst, IsId env key) :
    ∀ attr ∈ fields.flatMap (fun field => attrOf field.1 field.2), IsId env attr.1 := by
  intro attr hattr
  obtain ⟨field, hfield, hattr⟩ := List.mem_flatMap.mp hattr
  rw [attrOf_key hattr]
  exact h _ (List.mem_map_of_mem hfield)

/-- All characters of a key are ASCII. -/
def plainKey (key : String) : Bool :=
  !key.toList.isEmpty && key.toList.all (fun ch => decide (ch.toNat < 128) &&
    (ch.isAlphanum || ch == '_' || ch == '-' || ch == '.'))

theorem isId_of_plain {env : DotEnv} {keys : List String} (h : keys.all plainKey = true) :
    ∀ key ∈ keys, IsId env key := by
  intro key hkey
  have hplain := List.all_eq_true.mp h key hkey
  rw [plainKey, Bool.and_eq_true] at hplain
  exact isId_ascii (by simpa using hplain.1) hplain.2

theorem nodeAttrs_keys {env : DotEnv} (node : PipelineNode) :
    ∀ attr ∈ nodeAttrs node, IsId env attr.1 := by
  refine fields_keys (isId_of_plain ?_)
  have hkeys : (nodeFields node).map Prod.fst = (nodeFields {}).map Prod.fst := rfl
  rw [hkeys]
  rfl

theorem edgeAttrs_keys {env : DotEnv} (e : PipelineEdge) :
    ∀ attr ∈ edgeAttrs e, IsId env attr.1 := by
  refine fields_keys (isId_of_plain ?_)
  have hkeys : (edgeFields e).map Prod.fst = ["label", "condition"] := rfl
  rw [hkeys]
  rfl

theorem graphStatements_valid {env : DotEnv} {g : PipelineGraph}
    {order : List (String × PipelineNode)} (h : Named env g) (horder : order.Perm g.nodes.toList) :
    ∀ s ∈ graphStatements g order, s.Valid env := by
  intro s hs
  rcases List.mem_append.mp hs with hmember | hs
  · obtain ⟨sub, hsub, rfl⟩ := List.mem_map.mp hmember
    exact ⟨(h.subgraphs sub hsub).1.toIsId, (h.subgraphs sub hsub).2⟩
  · rcases List.mem_append.mp hs with hnode | hedge
    · obtain ⟨⟨x, node⟩, hrow, rfl⟩ := List.mem_map.mp hnode
      exact ⟨h.nodes x node (Table.mem_rows.mp (horder.mem_iff.mp hrow)), nodeAttrs_keys node⟩
    · obtain ⟨e, he, rfl⟩ := List.mem_map.mp hedge
      exact ⟨(h.edges e he).1, (h.edges e he).2.toIsId, edgeAttrs_keys e⟩

/-! ## What the statements build -/

section Building

variable {env : DotEnv}

def build (env : DotEnv) (statements : List Statement) (g : PipelineGraph) : PipelineGraph :=
  statements.foldl (fun g s => s.meaning env g) g

/-- A node that is there now was there before, or is one of these. -/
theorem declareNodes_frame (members : List String) : ∀ g : PipelineGraph,
    (members.foldl (fun g member => declareNode env member ∅ g) g).edges = g.edges ∧
      (members.foldl (fun g member => declareNode env member ∅ g) g).subgraphs = g.subgraphs ∧
      ∀ x, x ∉ members →
        (members.foldl (fun g member => declareNode env member ∅ g) g).nodes[x]? = g.nodes[x]? := by
  induction members with
  | nil => intro g; exact ⟨rfl, rfl, fun _ _ => rfl⟩
  | cons m members ih =>
      intro g
      rw [List.foldl_cons]
      obtain ⟨hedges, hsubgraphs, hnodes⟩ := ih (declareNode env m ∅ g)
      refine ⟨hedges, hsubgraphs, ?_⟩
      intro x hx
      rw [List.mem_cons, not_or] at hx
      rw [hnodes x hx.2]
      exact Table.get_insert_ne _ _ (Ne.symm hx.1)

/-- A subgraph with its members, each once. -/
def Subgraph.distinct (sub : Subgraph) : Subgraph :=
  { sub with nodeIds := addMembers [] sub.nodeIds }

theorem build_subgraphs (env : DotEnv) (subs : List Subgraph) : ∀ g : PipelineGraph,
    (build env (subs.map memberStatement) g).edges = g.edges ∧
      (build env (subs.map memberStatement) g).subgraphs =
        g.subgraphs ++ subs.map Subgraph.distinct ∧
      ∀ x, (∀ sub ∈ subs, x ∉ sub.nodeIds) →
        (build env (subs.map memberStatement) g).nodes[x]? = g.nodes[x]? := by
  induction subs with
  | nil => intro g; exact ⟨rfl, (List.append_nil _).symm, fun _ _ => rfl⟩
  | cons sub subs ih =>
      intro g
      obtain ⟨hedges, hsubgraphs, hnodes⟩ := declareNodes_frame sub.nodeIds g
      obtain ⟨hedges', hsubgraphs', hnodes'⟩ := ih ((memberStatement sub).meaning env g)
      have hadded : ((memberStatement sub).meaning env g).subgraphs =
          g.subgraphs ++ [sub.distinct] := by
        rw [← hsubgraphs]
        rfl
      refine ⟨hedges'.trans hedges, ?_, ?_⟩
      · show (build env (subs.map memberStatement) ((memberStatement sub).meaning env g)).subgraphs = _
        rw [hsubgraphs', hadded, List.append_assoc]
        rfl
      · intro x hx
        have hsub := hx sub List.mem_cons_self
        exact (hnodes' x (fun other hother => hx other (List.mem_cons_of_mem _ hother))).trans
          (hnodes x hsub)

/-- A node's own statement is the last word about it. -/
theorem build_nodes (env : DotEnv) (order : List (String × PipelineNode)) : ∀ g : PipelineGraph,
    (order.map Prod.fst).Nodup →
    (build env (order.map nodeStatement) g).edges = g.edges ∧
      (build env (order.map nodeStatement) g).subgraphs = g.subgraphs ∧
      (∀ x, x ∉ order.map Prod.fst →
        (build env (order.map nodeStatement) g).nodes[x]? = g.nodes[x]?) ∧
      ∀ x node, (x, node) ∈ order → (build env (order.map nodeStatement) g).nodes[x]? =
        some (buildNode env x (insertAll ∅ (nodeAttrs node))) := by
  induction order with
  | nil => intro g _; exact ⟨rfl, rfl, fun _ _ => rfl, fun _ _ h => nomatch h⟩
  | cons row order ih =>
      intro g hnodup
      rw [List.map_cons, List.nodup_cons] at hnodup
      obtain ⟨hedges, hsubgraphs, hold, hnew⟩ := ih ((nodeStatement row).meaning env g) hnodup.2
      refine ⟨hedges, hsubgraphs, ?_, ?_⟩
      · intro x hx
        rw [List.map_cons, List.mem_cons, not_or] at hx
        exact (hold x hx.2).trans (Table.get_insert_ne _ _ (Ne.symm hx.1))
      · intro x node hmem
        rcases List.mem_cons.mp hmem with rfl | hmem
        · exact (hold x hnodup.1).trans (Table.get_insert_self _ _ _)
        · exact hnew x node hmem

theorem build_edges (edges : List PipelineEdge) : ∀ g : PipelineGraph,
    build env (edges.map edgeStatement) g =
      { g with edges := g.edges ++ edges.map PipelineEdge.withoutFloats } := by
  induction edges with
  | nil => intro g; simp [build]
  | cons e edges ih =>
      intro g
      show build env (edges.map edgeStatement) ((edgeStatement e).meaning env g) = _
      rw [ih]
      show ({ g with edges := (g.edges ++ [buildEdge env (insertAll ∅ (edgeAttrs e)) e.source
        e.target]) ++ edges.map PipelineEdge.withoutFloats } : PipelineGraph) = _
      rw [buildEdge_edgeAttrs, List.append_assoc]
      rfl

/-- Where every end of an edge has its node, none is added. -/
theorem ensureEndpoints_nodes {g : PipelineGraph}
    (h : ∀ e ∈ g.edges, g.hasNode e.source = true ∧ g.hasNode e.target = true) :
    ensureEndpoints g = g := by
  have hloop : ∀ edges : List PipelineEdge,
      (∀ e ∈ edges, g.hasNode e.source = true ∧ g.hasNode e.target = true) →
      edges.foldl (fun nodes e => ensureNode (ensureNode nodes e.source) e.target) g.nodes =
        g.nodes := by
    intro edges
    induction edges with
    | nil => intro _; rfl
    | cons e edges ih =>
        intro hedges
        obtain ⟨hsource, htarget⟩ := hedges e List.mem_cons_self
        have hfirst : ensureNode g.nodes e.source = g.nodes := if_pos hsource
        have hsecond : ensureNode g.nodes e.target = g.nodes := if_pos htarget
        rw [List.foldl_cons, hfirst, hsecond]
        exact ih (fun other hother => hedges other (List.mem_cons_of_mem _ hother))
  rw [ensureEndpoints, hloop g.edges h]

/-- A graph all of whose parts can be written. -/
structure Printable (g : PipelineGraph) : Prop where
  wellFormed : WellFormed g
  nodes : ∀ (x : String) (node : PipelineNode), g.nodes[x]? = some node → PrintableNode node

/-- The same nodes and edges but for the floating-point attributes, and the same
subgraphs with the same members. -/
structure SameGraph (g g' : PipelineGraph) : Prop where
  nodes : ∀ x : String, g'.nodes[x]? = g.nodes[x]?.map PipelineNode.withoutFloats
  edges : g'.edges = g.edges.map PipelineEdge.withoutFloats
  subgraphs : List.Forall₂ (fun sub sub' : Subgraph => sub'.id = sub.id ∧ sub'.label = sub.label ∧
    ∀ x, x ∈ sub'.nodeIds ↔ x ∈ sub.nodeIds) g.subgraphs g'.subgraphs

theorem sameMembers (subs : List Subgraph) :
    List.Forall₂ (fun sub sub' : Subgraph => sub'.id = sub.id ∧ sub'.label = sub.label ∧
      ∀ x, x ∈ sub'.nodeIds ↔ x ∈ sub.nodeIds) subs (subs.map Subgraph.distinct) := by
  rw [List.forall₂_map_right_iff, List.forall₂_same]
  intro sub _
  refine ⟨rfl, rfl, ?_⟩
  intro x
  show x ∈ addMembers [] sub.nodeIds ↔ _
  rw [mem_addMembers]
  simp

/-- **Reading a graph back.** -/
theorem parseDot_render {g : PipelineGraph} {order : List (String × PipelineNode)}
    (hnamed : Named env g) (hprint : Printable g) (horder : order.Perm g.nodes.toList) :
    ∃ g', parseDot env (render g order) = .ok g' ∧ SameGraph g g' := by
  let g₀ := emptyGraph (boundGraphId g.id)
  let g₁ := build env (g.subgraphs.map memberStatement) g₀
  let g₂ := build env (order.map nodeStatement) g₁
  let g₃ := build env (g.edges.map edgeStatement) g₂
  have hbuild : build env (graphStatements g order) g₀ = g₃ := by
    rw [graphStatements, build, List.foldl_append, List.foldl_append]
    rfl
  have hkeys : (order.map Prod.fst).Nodup :=
    (horder.map Prod.fst).nodup_iff.mpr (Table.rows_keys_nodup g.nodes)
  have hrow : ∀ x node, (x, node) ∈ order ↔ g.nodes[x]? = some node := by
    intro x node
    rw [horder.mem_iff]
    exact Table.mem_rows
  obtain ⟨hedges₁, hsubgraphs₁, hnodes₁⟩ := build_subgraphs env g.subgraphs g₀
  obtain ⟨hedges₂, hsubgraphs₂, hold₂, hnew₂⟩ := build_nodes env order g₁ hkeys
  have hg₃ : g₃ = { g₂ with edges := g₂.edges ++ g.edges.map PipelineEdge.withoutFloats } :=
    build_edges g.edges g₂
  -- every node of the graph has its statement, and members are nodes of the graph
  have hnodes : ∀ x : String, g₃.nodes[x]? = g.nodes[x]?.map PipelineNode.withoutFloats := by
    intro x
    rw [hg₃]
    show g₂.nodes[x]? = _
    cases hx : g.nodes[x]? with
    | some node =>
        have hid := hprint.wellFormed.own x node hx
        rw [hnew₂ x node ((hrow x node).mpr hx), ← hid, buildNode_nodeAttrs (hprint.nodes x node hx)]
        rfl
    | none =>
        have hnot : x ∉ order.map Prod.fst := by
          intro hkey
          obtain ⟨⟨y, node⟩, hmem, rfl⟩ := List.mem_map.mp hkey
          rw [(hrow y node).mp hmem] at hx
          cases hx
        have hfree : ∀ sub ∈ g.subgraphs, x ∉ sub.nodeIds := by
          intro sub hsub hmem
          have := hprint.wellFormed.members sub hsub x hmem
          rw [PipelineGraph.hasNode, hx] at this
          cases this
        rw [hold₂ x hnot, hnodes₁ x hfree]
        exact Std.ExtTreeMap.getElem?_empty
  have hedges : g₃.edges = g.edges.map PipelineEdge.withoutFloats := by
    rw [hg₃]
    show g₂.edges ++ _ = _
    rw [hedges₂, hedges₁]
    rfl
  have hends : ensureEndpoints g₃ = g₃ := by
    refine ensureEndpoints_nodes ?_
    intro e' he'
    rw [hedges] at he'
    obtain ⟨e, he, rfl⟩ := List.mem_map.mp he'
    have hnode : ∀ x : String, g.hasNode x = true → g₃.hasNode x = true := by
      intro x hx
      rw [PipelineGraph.hasNode, hnodes x, Option.isSome_map]
      exact hx
    obtain ⟨hsource, htarget⟩ := hprint.wellFormed.edges e he
    exact ⟨hnode _ hsource, hnode _ htarget⟩
  refine ⟨g₃, ?_, hnodes, hedges, ?_⟩
  · rw [render, parseDot_program hnamed.graph.toIsId (graphStatements_valid hnamed horder)]
    show Except.ok (ensureEndpoints (build env (graphStatements g order) g₀)) = _
    rw [hbuild, hends]
  · rw [hg₃]
    show List.Forall₂ _ g.subgraphs g₂.subgraphs
    rw [hsubgraphs₂, hsubgraphs₁]
    exact sameMembers g.subgraphs

theorem PrintableNode.of_withoutFloats {node : PipelineNode} (h : PrintableNode node.withoutFloats) :
    PrintableNode node :=
  ⟨h.handler, h.tools, h.artifactRefs, h.checkpointRefs, h.deadlineAction, h.checkpoints⟩

/-- A graph that is read from some text, whichever, is printable. -/
theorem printable_of_parseDot {g g' : PipelineGraph} {text : String}
    (h : parseDot env text = .ok g') (hsame : SameGraph g g') : Printable g := by
  obtain ⟨hwellFormed, hbuilt, _⟩ := parseDot_builds h
  have hrow : ∀ (x : String) (node : PipelineNode), g.nodes[x]? = some node →
      g'.nodes[x]? = some node.withoutFloats := by
    intro x node hx
    rw [hsame.nodes x, hx]
    rfl
  have hnode : ∀ x : String, g'.hasNode x = true → g.hasNode x = true := by
    intro x hx
    rw [PipelineGraph.hasNode, hsame.nodes x, Option.isSome_map] at hx
    exact hx
  refine ⟨⟨?_, ?_, ?_⟩, ?_⟩
  · intro x node hx
    exact hwellFormed.own x node.withoutFloats (hrow x node hx)
  · intro e he
    have hmem : e.withoutFloats ∈ g'.edges := by
      rw [hsame.edges]
      exact List.mem_map_of_mem he
    obtain ⟨hsource, htarget⟩ := hwellFormed.edges _ hmem
    exact ⟨hnode _ hsource, hnode _ htarget⟩
  · intro sub hsub x hx
    obtain ⟨sub', hsub', _, _, hmembers⟩ := forall₂_mem_left hsame.subgraphs hsub
    exact hnode x (hwellFormed.members sub' hsub' x ((hmembers x).mpr hx))
  · intro x node hx
    obtain ⟨attrs, hattrs⟩ := hbuilt x _ (hrow x node hx)
    refine PrintableNode.of_withoutFloats ?_
    rw [hattrs]
    exact buildNode_printable env x attrs

/-- **Writing and reading.**  A printable graph is read back from its text, nothing
else is read from any text, and what is read is well formed. -/
theorem dot_round_trip (env : DotEnv) :
    (∀ (g : PipelineGraph) (order : List (String × PipelineNode)), Named env g → Printable g →
      order.Perm g.nodes.toList → ∃ g', parseDot env (render g order) = .ok g' ∧ SameGraph g g') ∧
    (∀ (g g' : PipelineGraph) (text : String), parseDot env text = .ok g' → SameGraph g g' →
      Printable g) ∧
    ∀ (g : PipelineGraph) (text : String), parseDot env text = .ok g →
      WellFormed g ∧ ∃ name tail, parseHeader env text.toList = .ok (name, tail) ∧
        CutAt maxGraphIdBytes name.toList g.id.toList := by
  refine ⟨?_, ?_, ?_⟩
  · intro g order hnamed hprint horder
    exact parseDot_render hnamed hprint horder
  · intro g g' text hparse hsame
    exact printable_of_parseDot hparse hsame
  · intro g text hparse
    exact parseDot_wellFormed hparse

end Building

/-! ## Graphs that are read back, and graphs that are not -/

/-- The characters up to 127. -/
def asciiEnv : DotEnv where
  isAlphanumeric ch := decide (ch.toNat < 128) && ch.isAlphanum
  ascii := by
    intro ch hch
    rw [decide_eq_true hch, Bool.true_and]
  blank := by
    intro ch hch
    have hdigit : ch.isAlphanum = true → 48 ≤ ch.toNat := by
      intro halnum
      simp only [Char.isAlphanum, Char.isAlpha, Char.isUpper, Char.isLower, Char.isDigit,
        Bool.or_eq_true, Bool.and_eq_true, decide_eq_true_eq] at halnum
      have hle : ∀ c : Char, c.val ≤ ch.val → c.toNat ≤ ch.toNat := fun c hc => hc
      rcases halnum with (⟨h, _⟩ | ⟨h, _⟩) | ⟨h, _⟩
      · exact le_trans (by decide) (hle 'A' h)
      · exact le_trans (by decide) (hle 'a' h)
      · exact hle '0' h
    simp only [isWhitespace, Bool.or_eq_true, Bool.and_eq_true, decide_eq_true_eq, beq_iff_eq] at hch
    rw [Bool.and_eq_false_iff, decide_eq_false_iff_not, Bool.eq_false_iff]
    by_cases hascii : ch.toNat < 128
    · refine Or.inr ?_
      intro halnum
      have := hdigit halnum
      omega
    · exact Or.inl hascii
  parseF64 _ := none
  scaleF64 w _ := w

theorem isName_of_plain {env : DotEnv} {id : String} (hplain : [id].all plainKey = true)
    (hgraph : id ≠ "graph") (hsubgraph : id ≠ "subgraph") : IsName env id :=
  ⟨isId_of_plain hplain id List.mem_cons_self, hgraph, hsubgraph⟩

theorem isName_a {env : DotEnv} : IsName env "a" :=
  isName_of_plain (by rfl) (by decide) (by decide)

/-- A graph with one node, under the key `a`. -/
def soleGraph (node : PipelineNode) (edges : List PipelineEdge) (subgraphs : List Subgraph) :
    PipelineGraph :=
  { id := "a"
    maxTotalTokens := none
    nodes := (∅ : Table String PipelineNode).insert "a" node
    edges
    subgraphs }

theorem soleGraph_nodes {node other : PipelineNode} {edges : List PipelineEdge}
    {subgraphs : List Subgraph} {x : String}
    (h : (soleGraph node edges subgraphs).nodes[x]? = some other) : x = "a" ∧ other = node := by
  rcases Table.of_get_insert h with ⟨rfl, rfl⟩ | ⟨_, hnone⟩
  · exact ⟨rfl, rfl⟩
  · rw [Std.ExtTreeMap.getElem?_empty] at hnone
    cases hnone

theorem soleGraph_named {env : DotEnv} {node : PipelineNode} {edges : List PipelineEdge}
    {subgraphs : List Subgraph} (hedges : ∀ e ∈ edges, IsName env e.source ∧ IsName env e.target)
    (hsubgraphs : ∀ sub ∈ subgraphs, IsName env sub.id ∧ ∀ x ∈ sub.nodeIds, IsName env x) :
    Named env (soleGraph node edges subgraphs) := by
  refine ⟨isName_a, ?_, hedges, hsubgraphs⟩
  intro x other hx
  rw [(soleGraph_nodes hx).1]
  exact isName_a

/-- Quotes, escapes, comments and braces in a prompt, a checkpoint that reads like a
truth value, and a member listed twice. -/
def quotingNode : PipelineNode :=
  { id := "a"
    handler := .gate
    prompt := some "say \"hi\" \\ // no # comment \x7b\x7d\n\tend"
    tools := ["read_file", "shell"]
    maxRetries := 3
    deadlineAction := some (.retry 2)
    checkpoints := [{ name := "true" }] }

def quotingEdge : PipelineEdge :=
  { source := "a", target := "a", label := some "[x=\"1\"]", condition := none, weight := .finite 1 }

def quotingGraph : PipelineGraph :=
  soleGraph quotingNode [quotingEdge] [{ id := "a", label := some "\\", nodeIds := ["a", "a"] }]

theorem quotingGraph_named : Named asciiEnv quotingGraph := by
  refine soleGraph_named ?_ ?_
  · intro e he
    obtain rfl := List.mem_singleton.mp he
    exact ⟨isName_a, isName_a⟩
  · intro sub hsub
    obtain rfl := List.mem_singleton.mp hsub
    refine ⟨isName_a, ?_⟩
    intro x hx
    have hxa : x = "a" := by simpa using hx
    rw [hxa]
    exact isName_a

instance (text : String) : Decidable (IsEntry text) :=
  decidable_of_iff (text.toList ≠ [] ∧ Trimmed text.toList ∧ ',' ∉ text.toList)
    ⟨fun h => ⟨h.1, h.2.1, h.2.2⟩, fun h => ⟨h.nonempty, h.trimmed, h.plain⟩⟩

theorem quotingGraph_printable : Printable quotingGraph := by
  have hnode : quotingGraph.hasNode "a" = true := by
    rw [PipelineGraph.hasNode]
    exact Option.isSome_iff_exists.mpr ⟨_, Table.get_insert_self _ _ _⟩
  refine ⟨⟨?_, ?_, ?_⟩, ?_⟩
  · intro x node hx
    obtain ⟨rfl, rfl⟩ := soleGraph_nodes hx
    rfl
  · intro e he
    obtain rfl := List.mem_singleton.mp he
    exact ⟨hnode, hnode⟩
  · intro sub hsub x hx
    obtain rfl := List.mem_singleton.mp hsub
    have hxa : x = "a" := by simpa using hx
    rw [hxa]
    exact hnode
  · intro x node hx
    obtain ⟨rfl, rfl⟩ := soleGraph_nodes hx
    exact ⟨rfl, Or.inr (by decide), List.forall_mem_nil _, List.forall_mem_nil _, by decide, by decide⟩

/-- That graph is read back. -/
theorem dot_round_trip_quoting :
    ∃ g', parseDot asciiEnv (render quotingGraph quotingGraph.nodes.toList) = .ok g' ∧
      SameGraph quotingGraph g' :=
  (dot_round_trip asciiEnv).1 quotingGraph _ quotingGraph_named quotingGraph_printable
    (List.Perm.refl _)

/-- Nodes that no text can spell: a handler without a name, a tool with a comma, no
retries, a checkpoint that cannot be resumed, and an id that is not the key. -/
def unspeakableNodes : List PipelineNode :=
  [{ id := "a", handler := .wait },
   { id := "a", tools := ["read,write"] },
   { id := "a", artifactRefs := [" plan"] },
   { id := "a", deadlineAction := some (.retry 0) },
   { id := "a", checkpoints := [{ name := "half", resumable := false }] },
   { id := "b" }]

/-- An edge that leaves the graph. -/
def looseEdge : PipelineEdge :=
  { source := "a", target := "a.b", label := none, condition := none, weight := .finite 1 }

theorem unspeakable_not_printable {node : PipelineNode} (h : node ∈ unspeakableNodes) :
    ¬ Printable (soleGraph node [] []) := by
  intro hprint
  have hrow : (soleGraph node [] []).nodes["a"]? = some node := Table.get_insert_self _ _ _
  have hown := hprint.wellFormed.own "a" node hrow
  have hnode := hprint.nodes "a" node hrow
  simp only [unspeakableNodes, List.mem_cons, List.not_mem_nil, or_false] at h
  rcases h with rfl | rfl | rfl | rfl | rfl | rfl
  · exact absurd hnode.handler (by decide)
  · exact absurd hnode.tools (by decide)
  · exact absurd hnode.artifactRefs (by decide)
  · exact hnode.deadlineAction rfl
  · exact absurd hnode.checkpoints (by decide)
  · exact absurd hown (by decide)

/-- **Not every graph is read back:** there are graphs with proper ids that no text
spells. -/
theorem graphs_not_read_back :
    (∀ node ∈ unspeakableNodes, Named asciiEnv (soleGraph node [] []) ∧
      ∀ text g', parseDot asciiEnv text = .ok g' → ¬ SameGraph (soleGraph node [] []) g') ∧
    Named asciiEnv (soleGraph { id := "a" } [looseEdge] []) ∧
      ∀ text g', parseDot asciiEnv text = .ok g' →
        ¬ SameGraph (soleGraph { id := "a" } [looseEdge] []) g' := by
  refine ⟨?_, ?_, ?_⟩
  · intro node hnode
    refine ⟨soleGraph_named nofun nofun, ?_⟩
    intro text g' hparse hsame
    exact unspeakable_not_printable hnode (printable_of_parseDot hparse hsame)
  · refine soleGraph_named ?_ nofun
    intro e he
    obtain rfl := List.mem_singleton.mp he
    exact ⟨isName_a, isName_of_plain (by rfl) (by decide) (by decide)⟩
  · intro text g' hparse hsame
    obtain ⟨_, htarget⟩ := (printable_of_parseDot hparse hsame).wellFormed.edges looseEdge
      List.mem_cons_self
    obtain ⟨node, hnode⟩ := hasNode_iff.mp htarget
    exact absurd (soleGraph_nodes hnode).1 (by decide)

end Octos.Pipeline
