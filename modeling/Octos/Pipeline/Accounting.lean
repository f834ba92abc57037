/-
# `Octos.Pipeline.Accounting` — are all tokens counted?

The usage an executor returns is a sum over the outcomes it was handed.  What its
handlers spent is a sum over the outcomes they returned, and every level between
the two hands on one outcome of several.  `Keeps` is the relation the levels
keep up: of the outcomes returned, those that were not superseded are the ones
handed on.

`tokens_accounted_iff` says when nothing is missing: the superseded outcomes cost
nothing, no outcome used one of the counters the executors do not add up, and the
sum fits into its word.
-/
import Octos.Pipeline.Attempts
import Octos.Pipeline.WalkSteps
import Octos.Pipeline.DagMoves

namespace Octos.Pipeline

/-! ## Sums of usages -/

/-- The exact sum of a counter. -/
def tally (field : TokenUsage → U32) (usages : List TokenUsage) : Nat :=
  (usages.map (fun u => (field u).toNat)).sum

@[simp] theorem tally_nil (field : TokenUsage → U32) : tally field [] = 0 := rfl

@[simp] theorem tally_append (field : TokenUsage → U32) (us vs : List TokenUsage) :
    tally field (us ++ vs) = tally field us + tally field vs := by
  simp [tally]

@[simp] theorem tally_singleton (field : TokenUsage → U32) (u : TokenUsage) :
    tally field [u] = (field u).toNat := by
  simp [tally]

theorem tally_eq_zero {field : TokenUsage → U32} {us : List TokenUsage} :
    tally field us = 0 ↔ ∀ u ∈ us, field u = 0 := by
  rw [tally, List.sum_eq_zero_iff]
  simp only [List.forall_mem_map]
  refine forall₂_congr (fun u _ => ?_)
  exact ⟨fun h => BitVec.eq_of_toNat_eq h, fun h => h ▸ rfl⟩

/-- `usage` is all of `spent`, in each of the counters, and the amount that is
compared with the budget is not less. -/
structure Accounted (usage : TokenUsage) (spent : List TokenUsage) : Prop where
  input : usage.inputTokens.toNat = tally TokenUsage.inputTokens spent
  output : usage.outputTokens.toNat = tally TokenUsage.outputTokens spent
  reasoning : usage.reasoningTokens.toNat = tally TokenUsage.reasoningTokens spent
  cacheRead : usage.cacheReadTokens.toNat = tally TokenUsage.cacheReadTokens spent
  cacheWrite : usage.cacheWriteTokens.toNat = tally TokenUsage.cacheWriteTokens spent
  budget : tally TokenUsage.inputTokens spent + tally TokenUsage.outputTokens spent ≤
    (totalPipelineTokens usage).toNat

/-- No call that another one replaced cost tokens, no call used a counter other
than the two that are added up, and these fit into a word. -/
structure NothingLost (calls : Calls) : Prop where
  superseded : ∀ u ∈ calls.superseded, u.inputTokens = 0 ∧ u.outputTokens = 0
  plain : ∀ u ∈ calls.spent,
    u.reasoningTokens = 0 ∧ u.cacheReadTokens = 0 ∧ u.cacheWriteTokens = 0
  fits : tally TokenUsage.inputTokens calls.spent + tally TokenUsage.outputTokens calls.spent <
    2 ^ 32

/-! ## What is handed on -/

/-- The outcomes that were not superseded are the `kept` ones, as far as the sums
of the two counters tell. -/
structure Keeps (calls : Calls) (kept : List TokenUsage) : Prop where
  input : tally TokenUsage.inputTokens calls.spent =
    tally TokenUsage.inputTokens calls.superseded + tally TokenUsage.inputTokens kept
  output : tally TokenUsage.outputTokens calls.spent =
    tally TokenUsage.outputTokens calls.superseded + tally TokenUsage.outputTokens kept

variable {calls c c' d : Calls} {kept kept' : List TokenUsage} {o : NodeOutcome}

theorem Keeps.none : Keeps .none [] := ⟨rfl, rfl⟩

theorem Keeps.append (h : Keeps c kept) (h' : Keeps d kept') :
    Keeps (c.append d) (kept ++ kept') := by
  constructor
  · have := h.input
    have := h'.input
    simp only [Calls.append, tally_append]
    omega
  · have := h.output
    have := h'.output
    simp only [Calls.append, tally_append]
    omega

/-- A usage of nothing can be added. -/
theorem Keeps.free {u : TokenUsage} (h : Keeps c kept) (hin : u.inputTokens = 0)
    (hout : u.outputTokens = 0) : Keeps c (kept ++ [u]) := by
  constructor
  · rw [h.input, tally_append, tally_singleton, hin]
    rfl
  · rw [h.output, tally_append, tally_singleton, hout]
    rfl

theorem Keeps.supersede (h : Keeps c (kept ++ [o.tokenUsage])) : Keeps (c.supersede o) kept := by
  constructor
  · have := h.input
    simp only [Calls.supersede, tally_append, tally_singleton] at this ⊢
    omega
  · have := h.output
    simp only [Calls.supersede, tally_append, tally_singleton] at this ⊢
    omega

/-- What an answer hands on. -/
def usageOf : Option (Except String NodeOutcome) → List TokenUsage
  | some (.ok outcome) => [outcome.tokenUsage]
  | some (.error _) => []
  | none => []

/-! ## The levels -/

section Levels

variable {tape : Tape} {timed : Bool} {node : PipelineNode} {action : DeadlineAction}
  {shown : String} {script : NodeScript}

theorem callHandler_keeps {r : Option (Except String NodeOutcome)} (h : Keeps c kept)
    (hcall : callHandler tape timed c = (r, c')) : Keeps c' (kept ++ usageOf r) := by
  rw [callHandler] at hcall
  split at hcall
  · obtain ⟨rfl, rfl⟩ := Prod.mk.inj hcall
    rw [usageOf, List.append_nil]
    exact ⟨h.input, h.output⟩
  · split at hcall
    · obtain ⟨rfl, rfl⟩ := Prod.mk.inj hcall
      rw [usageOf, List.append_nil]
      exact ⟨h.input, h.output⟩
    · obtain ⟨rfl, rfl⟩ := Prod.mk.inj hcall
      constructor
      · have := h.input
        simp only [usageOf, tally_append]
        omega
      · have := h.output
        simp only [usageOf, tally_append]
        omega

theorem executeWithRetries_keeps : ∀ {retries : Nat} {c c' : Calls}
    {r : Option (Except String NodeOutcome)}, Keeps c kept →
    executeWithRetries tape timed retries c = (r, c') → Keeps c' (kept ++ usageOf r) := by
  intro retries
  induction retries with
  | zero =>
      intro c c' r h hrun
      exact callHandler_keeps h hrun
  | succ retries ih =>
      intro c c' r h hrun
      rw [executeWithRetries] at hrun
      cases hcall : callHandler tape timed c with
      | mk answer d =>
          have hd := callHandler_keeps h hcall
          rw [hcall] at hrun
          match answer with
          | some (.ok o) =>
              dsimp only at hrun
              split at hrun
              · exact ih hd.supersede hrun
              · obtain ⟨rfl, rfl⟩ := Prod.mk.inj hrun
                exact hd
          | some (.error e) =>
              obtain ⟨rfl, rfl⟩ := Prod.mk.inj hrun
              exact hd
          | none =>
              obtain ⟨rfl, rfl⟩ := Prod.mk.inj hrun
              exact hd

def DispatchOutcome.usages : DispatchOutcome → List TokenUsage
  | .completed outcome => [outcome.tokenUsage]
  | _ => []

theorem dispatchRuns_keeps : ∀ {runs : Nat} {lastErr : Option String} {c : Calls}, Keeps c kept →
    Keeps (dispatchRuns node action shown tape runs lastErr c).2
      (kept ++ (dispatchRuns node action shown tape runs lastErr c).1.usages) := by
  intro runs
  induction runs with
  | zero =>
      intro lastErr c h
      simpa [dispatchRuns, DispatchOutcome.usages] using h
  | succ runs ih =>
      intro lastErr c h
      rw [dispatchRuns]
      cases hrun : executeWithRetries tape true node.maxRetries.toNat c with
      | mk answer d =>
          have hd := executeWithRetries_keeps h hrun
          match answer with
          | some (.ok o) => exact hd
          | some (.error e) => exact ih (by simpa [usageOf] using hd)
          | none =>
              match action with
              | .abort => exact hd
              | .skip => exact hd
              | .escalate => exact hd
              | .retry n =>
                  dsimp only
                  split
                  · exact hd
                  · exact ih (by simpa [usageOf] using hd)

theorem dispatchNode_keeps (h : Keeps c kept) :
    Keeps (dispatchNode node shown tape c).2 (kept ++ (dispatchNode node shown tape c).1.usages) := by
  rw [dispatchNode]
  split
  · cases hrun : executeWithRetries tape false node.maxRetries.toNat c with
    | mk answer d =>
        have hd := executeWithRetries_keeps h hrun
        match answer with
        | some (.ok o) => exact hd
        | some (.error e) => exact hd
        | none => exact hd
  · exact dispatchRuns_keeps h

theorem workerRuns_keeps {id : String} : ∀ {runs : Nat} {lastErr : Option String} {c : Calls},
    Keeps c kept → Keeps (workerRuns node action shown tape runs lastErr c).2
      (kept ++ [(workerOutcome id (workerRuns node action shown tape runs lastErr c).1).tokenUsage])
    := by
  intro runs
  induction runs with
  | zero =>
      intro lastErr c h
      exact h.free rfl rfl
  | succ runs ih =>
      intro lastErr c h
      rw [workerRuns]
      cases hrun : executeWithRetries tape true node.maxRetries.toNat c with
      | mk answer d =>
          have hd := executeWithRetries_keeps h hrun
          match answer with
          | some (.ok o) => exact hd
          | some (.error e) =>
              rw [usageOf, List.append_nil] at hd
              exact hd.free rfl rfl
          | none =>
              rw [usageOf, List.append_nil] at hd
              match action with
              | .abort => exact hd.free rfl rfl
              | .skip => exact hd.free rfl rfl
              | .escalate => exact hd.free rfl rfl
              | .retry n =>
                  dsimp only
                  split
                  · exact hd.free rfl rfl
                  · exact ih hd

theorem recoverNode_keeps (h : Keeps c (kept ++ [o.tokenUsage])) :
    Keeps (recoverNode node script o c).2 (kept ++ [(recoverNode node script o c).1.tokenUsage]) := by
  rw [recoverNode]
  split
  · exact h
  · cases hcall : callHandler script.tape false c with
    | mk answer d =>
        have hd := callHandler_keeps h hcall
        match answer with
        | some (.ok second) =>
            -- the first outcome is the last but one of what was kept
            refine Keeps.supersede ?_
            constructor
            · have := hd.input
              simp only [usageOf, tally_append, tally_singleton] at this ⊢
              omega
            · have := hd.output
              simp only [usageOf, tally_append, tally_singleton] at this ⊢
              omega
        | some (.error e) =>
            rw [usageOf, List.append_nil] at hd
            exact hd
        | none =>
            rw [usageOf, List.append_nil] at hd
            exact hd

@[simp] theorem validated_tokenUsage :
    (validated node script o).tokenUsage = o.tokenUsage := by
  rw [validated]
  split
  · split <;> rfl
  · rfl

/-! ## The nodes -/

def NodeRun.usages : NodeRun → List TokenUsage
  | .ran outcome => [outcome.tokenUsage]
  | _ => []

def Dispatch.usages : Dispatch → List TokenUsage
  | .ran outcome => [outcome.tokenUsage]
  | _ => []

theorem dagExecuteNode_keeps :
    Keeps (dagExecuteNode node script).2 (dagExecuteNode node script).1.usages := by
  rw [dagExecuteNode]
  split
  · exact .none
  · split
    · exact .none
    · exact .none
    · have hd : Keeps (dispatchNode node script.shown script.tape .none).2
          ([] ++ (dispatchNode node script.shown script.tape .none).1.usages) :=
        dispatchNode_keeps .none
      split
      · next e c' hrun =>
          rw [hrun] at hd
          exact hd
      · next c' hrun =>
          rw [hrun] at hd
          have hfree : Keeps c' ([] ++ [(skippedOutcome node.id).tokenUsage]) := hd.free rfl rfl
          simpa [NodeRun.usages] using recoverNode_keeps hfree
      · next o c' hrun =>
          rw [hrun] at hd
          simpa [NodeRun.usages] using recoverNode_keeps hd

theorem walkExecuteNode_keeps :
    Keeps (walkExecuteNode node script).2 (walkExecuteNode node script).1.usages := by
  rw [walkExecuteNode]
  split
  · exact .none
  · exact .none
  · have hd : Keeps (dispatchNode node script.shown script.tape .none).2
        ([] ++ (dispatchNode node script.shown script.tape .none).1.usages) :=
      dispatchNode_keeps .none
    split
    · next e c' hrun =>
        rw [hrun] at hd
        exact hd
    · next c' hrun =>
        rw [hrun] at hd
        exact hd
    · next o c' hrun =>
        rw [hrun] at hd
        simpa [Dispatch.usages] using recoverNode_keeps hd

end Levels

/-! ## Totals -/

/-- The total after these usages. -/
def addAll (total : TokenUsage) (kept : List TokenUsage) : TokenUsage :=
  kept.foldl addTokens total

theorem addAll_append (total : TokenUsage) :
    addAll total (kept ++ kept') = addAll (addAll total kept) kept' :=
  List.foldl_append

theorem addAll_spec : ∀ (kept : List TokenUsage) (total : TokenUsage),
    addAll total kept = { total with
      inputTokens := total.inputTokens + BitVec.ofNat 32 (tally TokenUsage.inputTokens kept)
      outputTokens := total.outputTokens + BitVec.ofNat 32 (tally TokenUsage.outputTokens kept) } := by
  intro kept
  induction kept with
  | nil =>
      intro total
      simp [addAll]
  | cons u kept ih =>
      intro total
      show addAll (addTokens total u) kept = _
      rw [ih]
      have hcons : ∀ field : TokenUsage → U32,
          tally field (u :: kept) = (field u).toNat + tally field kept := by
        intro field
        simp [tally]
      simp only [addTokens, hcons, BitVec.ofNat_add, BitVec.ofNat_toNat, BitVec.setWidth_eq,
        BitVec.add_assoc]

/-- The total is the sum of what was kept of the calls. -/
def Tallied (total : TokenUsage) (calls : Calls) : Prop :=
  ∃ kept, Keeps calls kept ∧ total = addAll .zero kept

theorem Tallied.start : Tallied .zero .none := ⟨[], .none, rfl⟩

theorem Tallied.add {total : TokenUsage} (h : Tallied total c) (hd : Keeps d kept) :
    Tallied (addAll total kept) (c.append d) := by
  obtain ⟨before, hbefore, rfl⟩ := h
  exact ⟨before ++ kept, hbefore.append hd, (addAll_append _).symm⟩

theorem totalPipelineTokens_toNat (u : TokenUsage) :
    (totalPipelineTokens u).toNat =
      min (u.inputTokens.toNat + u.outputTokens.toNat) (2 ^ 32 - 1) := by
  rw [totalPipelineTokens]
  cases hadd : checkedAdd u.inputTokens u.outputTokens with
  | none =>
      have := checkedAdd_eq_none.mp hadd
      show (BitVec.allOnes 32).toNat = _
      rw [BitVec.toNat_allOnes]
      omega
  | some v =>
      have hv := checkedAdd_eq_some.mp hadd
      have := v.isLt
      show v.toNat = _
      omega

/-- **When a total is complete.** -/
theorem Tallied.accounted_iff {total : TokenUsage} (h : Tallied total c) :
    Accounted total c.spent ↔ NothingLost c := by
  obtain ⟨kept, hkept, rfl⟩ := h
  have hin := hkept.input
  have hout := hkept.output
  have hzero : ∀ {a b : Nat}, a % 2 ^ 32 = b + a → b = 0 ∧ a < 2 ^ 32 := by
    intro a b h
    have := Nat.mod_lt a (show 0 < 2 ^ 32 by norm_num)
    have := Nat.mod_le a (2 ^ 32)
    omega
  have hinput : (addAll .zero kept).inputTokens.toNat =
      tally TokenUsage.inputTokens kept % 2 ^ 32 := by
    rw [addAll_spec]
    simp [TokenUsage.zero]
  have houtput : (addAll .zero kept).outputTokens.toNat =
      tally TokenUsage.outputTokens kept % 2 ^ 32 := by
    rw [addAll_spec]
    simp [TokenUsage.zero]
  have hbudget := totalPipelineTokens_toNat (addAll .zero kept)
  constructor
  · intro hacc
    have h₁ := hzero ((hinput.symm.trans hacc.input).trans hin)
    have h₂ := hzero ((houtput.symm.trans hacc.output).trans hout)
    refine ⟨?_, ?_, ?_⟩
    · intro u hu
      exact ⟨tally_eq_zero.mp h₁.1 u hu, tally_eq_zero.mp h₂.1 u hu⟩
    · have hr := hacc.reasoning
      have hread := hacc.cacheRead
      have hwrite := hacc.cacheWrite
      rw [addAll_spec] at hr hread hwrite
      intro u hu
      exact ⟨tally_eq_zero.mp hr.symm u hu, tally_eq_zero.mp hread.symm u hu,
        tally_eq_zero.mp hwrite.symm u hu⟩
    · have := hacc.budget
      omega
  · intro hlost
    have hsin : tally TokenUsage.inputTokens c.superseded = 0 :=
      tally_eq_zero.mpr (fun u hu => (hlost.superseded u hu).1)
    have hsout : tally TokenUsage.outputTokens c.superseded = 0 :=
      tally_eq_zero.mpr (fun u hu => (hlost.superseded u hu).2)
    have hfits := hlost.fits
    have hmodIn := Nat.mod_eq_of_lt (show tally TokenUsage.inputTokens kept < 2 ^ 32 by omega)
    have hmodOut := Nat.mod_eq_of_lt (show tally TokenUsage.outputTokens kept < 2 ^ 32 by omega)
    refine ⟨by omega, by omega, ?_, ?_, ?_, by omega⟩
    · rw [addAll_spec, tally_eq_zero.mpr (fun u hu => (hlost.plain u hu).1)]
      rfl
    · rw [addAll_spec, tally_eq_zero.mpr (fun u hu => (hlost.plain u hu).2.1)]
      rfl
    · rw [addAll_spec, tally_eq_zero.mpr (fun u hu => (hlost.plain u hu).2.2)]
      rfl

/-! ## The passes of the scheduler -/

section Steps

variable {g : PipelineGraph} {userInput : String} {s t : DagState} {scripts : Nat → NodeScript}

/-- A pass adds what its node hands on. -/
theorem dagStep_total {script : NodeScript} : ∃ kept,
    Keeps (dagAnswer g userInput script s).2 kept ∧
      (Loop.leaves (dagStep g userInput (dagAnswer g userInput script s).1 s)).totalTokens =
        addAll s.totalTokens kept := by
  rw [dagStep, dagAnswer]
  cases dagNext g userInput s with
  | execute id input =>
      refine ⟨_, dagExecuteNode_keeps, ?_⟩
      dsimp only
      cases (dagExecuteNode (g.nodes[id]?.getD {}) script).1 with
      | aborted reason => rfl
      | failed e => rfl
      | ran o =>
          dsimp only
          split
          · rfl
          · split
            · rfl
            · rfl
  | exhausted id => exact ⟨[], .none, rfl⟩
  | prune id reason => exact ⟨[], .none, rfl⟩
  | retry target feedback => exact ⟨[], .none, rfl⟩
  | quiesce => exact ⟨[], .none, rfl⟩
  | invalid => exact ⟨[], .none, rfl⟩

theorem dagTracked_tallied {k : Nat} {r : DagState × Calls} (h : Tallied r.1.totalTokens r.2) :
    Tallied (Loop.leaves (dagTracked g userInput scripts k r)).1.totalTokens
      (Loop.leaves (dagTracked g userInput scripts k r)).2 := by
  obtain ⟨kept, hkept, htotal⟩ :
      ∃ kept, Keeps (dagAnswer g userInput (scripts k) r.1).2 kept ∧ _ := dagStep_total
  rw [dagTracked]
  dsimp only
  split
  · next u hu =>
      rw [hu] at htotal
      exact htotal ▸ h.add hkept
  · next ending u hu =>
      rw [hu] at htotal
      exact htotal ▸ h.add hkept

end Steps

/-! ## The iterations of the walk -/

section Walks

variable {g : PipelineGraph} {cfg : WalkConfig} {script : WalkScript} {s t : WalkState}
  {node : PipelineNode}

/-- The total of `t` is that of `s` and what was kept of the calls between. -/
def Tallies (g : PipelineGraph) (script : WalkScript) (s t : WalkState) : Prop :=
  ∃ kept, Keeps (walkCalls g script s t) kept ∧ t.totalTokens = addAll s.totalTokens kept

/-- Nothing was dispatched. -/
theorem Tallies.quiet (hlog : t.log = s.log) (htotal : t.totalTokens = s.totalTokens) :
    Tallies g script s t := by
  refine ⟨[], ?_, htotal⟩
  rw [walkCalls, if_pos (congrArg List.length hlog)]
  exact .none

/-- The calls of an iteration that dispatched something. -/
theorem walkCalls_of_log (hlog : t.log.length ≠ s.log.length)
    (hnode : g.nodes[s.current]? = some node) :
    walkCalls g script s t =
      match node.handler with
      | .parallel => workerCalls g s.current node script
          (t.fanoutWorkersDispatched - s.fanoutWorkersDispatched)
      | .dynamicParallel => script.planner.calls.append (workerCalls g s.current node script
          (t.fanoutWorkersDispatched - s.fanoutWorkersDispatched))
      | _ => (walkExecuteNode node script.node).2 := by
  rw [walkCalls, if_neg hlog, hnode]
  rfl

/-- What following an edge does not touch. -/
theorem follow_leaves {o : NodeOutcome} {ending : WalkEnd} :
    ∃ current, Loop.leaves (follow g t o ending) = { t with current := current } := by
  rw [follow]
  split
  · exact ⟨_, rfl⟩
  · exact ⟨t.current, rfl⟩
  · exact ⟨t.current, rfl⟩
  · exact ⟨t.current, rfl⟩

theorem convergeTo_leaves {convergeId kind merged : String}
    {outcomes : List (String × NodeOutcome)} {usage : TokenUsage} :
    ∃ current completed,
      Loop.leaves (convergeTo node convergeId kind outcomes merged usage t) =
        { t with current := current, completed := completed } := by
  rw [convergeTo]
  dsimp only
  split
  · exact ⟨t.current, _, rfl⟩
  · exact ⟨_, _, rfl⟩

theorem follow_tallies {o : NodeOutcome} {ending : WalkEnd} (h : Tallies g script s t) :
    Tallies g script s (Loop.leaves (follow g t o ending)) := by
  obtain ⟨current, hleaves⟩ : ∃ current, Loop.leaves (follow g t o ending) = _ := follow_leaves
  rw [hleaves]
  exact h

theorem convergeTo_tallies {convergeId kind merged : String}
    {outcomes : List (String × NodeOutcome)} {usage : TokenUsage} (h : Tallies g script s t) :
    Tallies g script s (Loop.leaves (convergeTo node convergeId kind outcomes merged usage t)) := by
  obtain ⟨current, completed, hleaves⟩ : ∃ current completed,
    Loop.leaves (convergeTo node convergeId kind outcomes merged usage t) = _ := convergeTo_leaves
  rw [hleaves]
  exact h

/-! ### A node -/

theorem runNode_tallies (hnode : g.nodes[s.current]? = some node)
    (hparallel : node.handler ≠ .parallel) (hdynamic : node.handler ≠ .dynamicParallel) :
    Tallies g script s (Loop.leaves (runNode g (walkTick g script s.current) node s)) := by
  have hdispatch : (walkTick g script s.current).dispatch =
      (walkExecuteNode node script.node).1 := by
    rw [walkTick, hnode]
    rfl
  -- a dispatch of this node that left the total `total` behind
  have hdispatched : ∀ completed total,
      total = addAll s.totalTokens (walkExecuteNode node script.node).1.usages →
      Tallies g script s { s with
        log := s.log ++ [s.current], completed := completed, totalTokens := total } := by
    intro completed total htotal
    refine ⟨_, ?_, htotal⟩
    rw [walkCalls_of_log (by simp) hnode]
    cases hkind : node.handler with
    | parallel => exact absurd hkind hparallel
    | dynamicParallel => exact absurd hkind hdynamic
    | _ => exact walkExecuteNode_keeps
  rw [runNode]
  split
  · exact .quiet rfl rfl
  · split
    · exact .quiet rfl rfl
    · rw [hdispatch]
      cases hrun : (walkExecuteNode node script.node).1 with
      | aborted reason => exact hdispatched _ _ (by rw [hrun]; rfl)
      | failed e => exact hdispatched _ _ (by rw [hrun]; rfl)
      | skipped => exact follow_tallies (hdispatched _ _ (by rw [hrun]; rfl))
      | ran o =>
          dsimp only
          split
          · exact hdispatched _ _ (by rw [hrun]; rfl)
          · exact follow_tallies (hdispatched _ _ (by rw [hrun]; rfl))

/-! ### Workers -/

/-- What a worker hands on; nothing, if it failed. -/
def workerUsage : Except String NodeOutcome → TokenUsage
  | .ok outcome => outcome.tokenUsage
  | .error _ => .zero

@[simp] theorem workerOutcome_usage (id : String) (r : Except String NodeOutcome) :
    (workerOutcome id r).tokenUsage = workerUsage r := by
  cases r with
  | ok o => rfl
  | error e => rfl

theorem workerCalls_keeps {current : String} : ∀ n,
    Keeps (workerCalls g current node script n)
      ((List.range n).map (fun i => workerUsage (workerRun g current node script i).1)) := by
  intro n
  induction n with
  | zero => exact .none
  | succ n ih =>
      rw [List.range_succ, List.map_append]
      refine ih.append ?_
      have hrun : Keeps (workerRun g current node script n).2
          ([] ++ [(workerOutcome "" (workerRun g current node script n).1).tokenUsage]) :=
        workerRuns_keeps .none
      rw [workerOutcome_usage] at hrun
      exact hrun

theorem absorb_total (outcomes : List (String × NodeOutcome)) :
    (absorb outcomes s).totalTokens =
      addAll s.totalTokens (outcomes.map (fun o => o.2.tokenUsage)) := by
  rw [absorb, addAll, List.foldl_map]

/-- The outcomes of the targets hand on what their workers do. -/
theorem targets_usages (worker : Nat → Except String NodeOutcome) (targets : List String) :
    (targets.zipIdx.map (fun (t, i) => (t, workerOutcome t (worker i)))).map
        (fun o => o.2.tokenUsage) =
      (List.range targets.length).map (fun i => workerUsage (worker i)) := by
  rw [List.map_map, List.range_eq_range', ← List.zipIdx_map_snd 0 targets, List.map_map]
  refine List.map_congr_left ?_
  rintro ⟨t, i⟩ _
  exact workerOutcome_usage t (worker i)

/-- The calls of an iteration that started `n` workers. -/
theorem walkCalls_workers (n : Nat) (hlog : t.log.length ≠ s.log.length)
    (hnode : g.nodes[s.current]? = some node)
    (hcount : t.fanoutWorkersDispatched = s.fanoutWorkersDispatched + n) :
    (node.handler = .parallel →
      walkCalls g script s t = workerCalls g s.current node script n) ∧
    (node.handler = .dynamicParallel → walkCalls g script s t =
      script.planner.calls.append (workerCalls g s.current node script n)) := by
  have hn : t.fanoutWorkersDispatched - s.fanoutWorkersDispatched = n := by omega
  constructor
  · intro hkind
    rw [walkCalls_of_log hlog hnode, hkind, hn]
  · intro hkind
    rw [walkCalls_of_log hlog hnode, hkind, hn]

theorem parallelFanout_tallies (hnode : g.nodes[s.current]? = some node)
    (hkind : node.handler = .parallel) :
    Tallies g script s (Loop.leaves (parallelFanout g cfg (walkTick g script s.current) node s)) := by
  have hworker : (walkTick g script s.current).worker =
      fun i => (workerRun g s.current node script i).1 := by
    rw [walkTick, hnode]
    rfl
  rw [parallelFanout]
  split
  · exact .quiet rfl rfl
  · dsimp only
    split
    · exact .quiet rfl rfl
    · split
      · exact .quiet rfl rfl
      · split
        · exact .quiet rfl rfl
        · split
          · exact .quiet rfl rfl
          · refine convergeTo_tallies ⟨_, ?_, absorb_total _⟩
            rw [targets_usages, hworker,
              (walkCalls_workers (fanoutTargets g s.current).length (by simp [absorb]) hnode
                (by simp [absorb])).1 hkind]
            exact workerCalls_keeps _

/-- A plan hands on the two counters of its answer, if it was readable. -/
theorem planner_keeps (m : Nat) (reply : PlannerReply) :
    Keeps reply.calls [(plannedTasks (planDynamicTasks m reply)).2] := by
  cases reply with
  | unreachable => exact ⟨rfl, rfl⟩
  | garbled u => exact ⟨rfl, rfl⟩
  | planned tasks u =>
      refine ⟨?_, ?_⟩
      · show tally _ [u] = 0 + tally _ [_]
        simp [planDynamicTasks, plannedTasks]
      · show tally _ [u] = 0 + tally _ [_]
        simp [planDynamicTasks, plannedTasks]

theorem dynamicFanout_tallies (hnode : g.nodes[s.current]? = some node)
    (hkind : node.handler = .dynamicParallel) :
    Tallies g script s (Loop.leaves (dynamicFanout g cfg (walkTick g script s.current) node s)) := by
  have hplan : (walkTick g script s.current).plan =
      planDynamicTasks node.taskLimit script.planner := by
    rw [walkTick, hnode]
    rfl
  have hworker : (walkTick g script s.current).worker =
      fun i => (workerRun g s.current node script i).1 := by
    rw [walkTick, hnode]
    rfl
  have hkeeps := planner_keeps node.taskLimit script.planner
  rw [dynamicFanout]
  split
  · exact .quiet rfl rfl
  · split
    · exact .quiet rfl rfl
    · rw [hplan, hworker]
      cases hplanned : plannedTasks (planDynamicTasks node.taskLimit script.planner) with
      | mk tasks usage =>
          rw [hplanned] at hkeeps
          -- only the planner was asked
          have hasked : Tallies g script s { s with
              totalTokens := addTokens s.totalTokens usage, log := s.log ++ [s.current] } := by
            refine ⟨[usage], ?_, rfl⟩
            rw [(walkCalls_workers 0 (by simp) hnode (by simp)).2 hkind]
            exact hkeeps.append .none
          dsimp only
          split
          · exact hasked
          · split
            · exact hasked
            · refine convergeTo_tallies
                ⟨usage :: (List.range tasks).map
                  (fun i => workerUsage (workerRun g s.current node script i).1), ?_, ?_⟩
              · rw [(walkCalls_workers tasks (by simp [absorb]) hnode (by simp [absorb])).2 hkind]
                exact hkeeps.append (workerCalls_keeps tasks)
              · rw [absorb_total, List.map_map]
                show addAll (addTokens s.totalTokens usage) _ =
                  addAll (addTokens s.totalTokens usage) _
                congr 1
                refine List.map_congr_left ?_
                intro i _
                exact workerOutcome_usage _ _

/-! ### An iteration -/

theorem visitNode_tallies (hnode : g.nodes[s.current]? = some node) :
    Tallies g script s (Loop.leaves (visitNode g cfg (walkTick g script s.current) node s)) := by
  rw [visitNode]
  split
  · exact .quiet rfl rfl
  · exact .quiet rfl rfl
  · exact follow_tallies (.quiet rfl rfl)
  · split
    · next hkind => exact parallelFanout_tallies hnode hkind
    · next hparallel =>
        split
        · next hkind => exact dynamicFanout_tallies hnode hkind
        · next hdynamic => exact runNode_tallies hnode hparallel hdynamic

theorem walkStep_tallies :
    Tallies g script s (Loop.leaves (walkStep g cfg (walkTick g script s.current) s)) := by
  rw [walkStep]
  split
  · exact .quiet rfl rfl
  · next node hnode =>
      split
      · split
        · exact .quiet rfl rfl
        · exact follow_tallies (.quiet rfl rfl)
      · split
        · exact follow_tallies (.quiet rfl rfl)
        · -- counting the visit changes nothing the calls depend on
          exact visitNode_tallies hnode

theorem walkTracked_tallied {scripts : Nat → WalkScript} {k : Nat} {r : WalkState × Calls}
    (h : Tallied r.1.totalTokens r.2) :
    Tallied (Loop.leaves (walkTracked g cfg scripts k r)).1.totalTokens
      (Loop.leaves (walkTracked g cfg scripts k r)).2 := by
  have hstep : Tallies g (scripts k) r.1
      (Loop.leaves (walkStep g cfg (walkTick g (scripts k) r.1.current) r.1)) := walkStep_tallies
  rw [walkTracked]
  split
  · next t ht =>
      rw [ht] at hstep
      obtain ⟨kept, hkept, htotal⟩ := hstep
      exact htotal ▸ h.add hkept
  · next ending t ht =>
      rw [ht] at hstep
      obtain ⟨kept, hkept, htotal⟩ := hstep
      exact htotal ▸ h.add hkept

/-! ### Results -/

/-- A result reports the total. -/
def Reports (r : WalkNext) : Prop :=
  ∀ result t, r = .inr (.returned result, t) → result.tokenUsage = t.totalTokens

theorem Reports.fails {e : String} : Reports (.inr (.failed e, t)) := by
  intro result u h
  cases h

theorem Reports.panics : Reports (.inr (.panicked, t)) := by
  intro result u h
  cases h

theorem Reports.goes : Reports (.inl t) := by
  intro result u h
  cases h

theorem Reports.returns {output : String} {success : Bool} {files : List (List String)} :
    Reports (.inr (t.result output success files, t)) := by
  intro result u h
  obtain ⟨hresult, rfl⟩ := Prod.mk.inj (Sum.inr.inj h)
  rw [← WalkEnd.returned.inj hresult]

theorem follow_reports {o : NodeOutcome} {output : String} {success : Bool}
    {files : List (List String)} : Reports (follow g t o (t.result output success files)) := by
  rw [follow]
  split
  · exact .goes
  · exact .returns
  · exact .fails
  · exact .panics

theorem convergeTo_reports {convergeId kind merged : String}
    {outcomes : List (String × NodeOutcome)} {usage : TokenUsage} :
    Reports (convergeTo node convergeId kind outcomes merged usage t) := by
  rw [convergeTo]
  dsimp only
  split
  · exact .returns
  · exact .goes

theorem parallelFanout_reports {tick : Tick} : Reports (parallelFanout g cfg tick node s) := by
  rw [parallelFanout]
  split
  · exact .fails
  · dsimp only
    split
    · exact .fails
    · split
      · exact .returns
      · split
        · exact .fails
        · split
          · exact .fails
          · exact convergeTo_reports

theorem dynamicFanout_reports {tick : Tick} : Reports (dynamicFanout g cfg tick node s) := by
  rw [dynamicFanout]
  split
  · exact .fails
  · split
    · exact .fails
    · dsimp only
      split
      · exact .returns
      · split
        · exact .fails
        · exact convergeTo_reports

theorem returnsAfter_reports {o : NodeOutcome} {ending : WalkEnd}
    (h : returnsAfter g node o t = some ending) : Reports (.inr (ending, t)) := by
  rw [returnsAfter] at h
  split at h
  · obtain rfl := Option.some.inj h
    exact .returns
  · split at h
    · obtain rfl := Option.some.inj h
      exact .returns
    · split at h
      · obtain rfl := Option.some.inj h
        exact .returns
      · cases h

theorem runNode_reports {tick : Tick} : Reports (runNode g tick node s) := by
  rw [runNode]
  split
  · exact .fails
  · split
    · exact .returns
    · dsimp only
      split
      · exact .returns
      · exact .fails
      · exact follow_reports
      · split
        · next ending hreturns => exact returnsAfter_reports hreturns
        · exact follow_reports

theorem visitNode_reports {tick : Tick} : Reports (visitNode g cfg tick node s) := by
  rw [visitNode]
  split
  · exact .returns
  · exact .returns
  · exact follow_reports
  · split
    · exact parallelFanout_reports
    · split
      · exact dynamicFanout_reports
      · exact runNode_reports

theorem walkStep_reports {tick : Tick} : Reports (walkStep g cfg tick s) := by
  rw [walkStep]
  split
  · exact .fails
  · split
    · split
      · exact .panics
      · exact follow_reports
    · split
      · exact follow_reports
      · exact visitNode_reports

end Walks

theorem dagResult_tokenUsage {g : PipelineGraph} {ending : DagEnd} {s : DagState}
    {result : PipelineResult} (h : dagResult g ending s = some result) :
    result.tokenUsage = s.totalTokens := by
  cases ending with
  | failed e => cases h
  | _ =>
      obtain rfl := Option.some.inj h
      rfl

/-! ## Runs -/

variable {g : PipelineGraph}

/-- What the loops keep: the total is the sum of what was kept. -/
def TalliedDag (r : DagState × Calls) : Prop :=
  Tallied r.1.totalTokens r.2

def TalliedWalk (r : WalkState × Calls) : Prop :=
  Tallied r.1.totalTokens r.2

theorem dagRun_tallied (g : PipelineGraph) (userInput : String) (scripts : Nat → NodeScript) :
    (∀ k r, dagTrackedAfter g userInput scripts k = some r → TalliedDag r) ∧
      ∀ fuel ending r, executeDagTracked g userInput scripts fuel = some (ending, r) →
        TalliedDag r :=
  Loop.run_invariant Tallied.start (fun _ _ h => dagTracked_tallied h)

theorem walkRun_tallied (g : PipelineGraph) (cfg : WalkConfig) (startNode : String)
    (scripts : Nat → WalkScript) :
    (∀ k r, walkTrackedAfter g cfg startNode scripts k = some r → TalliedWalk r) ∧
      ∀ fuel ending r, executeGraphTracked g cfg startNode scripts fuel = some (ending, r) →
        TalliedWalk r :=
  Loop.run_invariant Tallied.start (fun _ _ h => walkTracked_tallied h)

/-- A returned result reports the total of the walk. -/
theorem executeGraphTracked_reports {cfg : WalkConfig} {startNode : String}
    {scripts : Nat → WalkScript} {fuel : Nat} {result : PipelineResult} {r : WalkState × Calls}
    (h : executeGraphTracked g cfg startNode scripts fuel = some (.returned result, r)) :
    result.tokenUsage = r.1.totalTokens := by
  obtain ⟨k, u, _, hstep⟩ := Loop.run_last rfl h
  rw [walkTracked] at hstep
  split at hstep
  · cases hstep
  · next ending t ht =>
      obtain ⟨rfl, rfl⟩ := Prod.mk.inj (Sum.inr.inj hstep)
      exact walkStep_reports result t ht

/-- **Tokens are all accounted for exactly if none were spent on a call that
another one replaced, none in a counter that is not added up, and the sum fits
into a word** — before every pass of both executors, and in the result they
return. -/
theorem tokens_accounted_iff (g : PipelineGraph) :
    (∀ userInput scripts,
      (∀ k s calls, dagTrackedAfter g userInput scripts k = some (s, calls) →
        (Accounted s.totalTokens calls.spent ↔ NothingLost calls)) ∧
      ∀ fuel ending s calls result,
        executeDagTracked g userInput scripts fuel = some (ending, s, calls) →
        dagResult g ending s = some result →
        (Accounted result.tokenUsage calls.spent ↔ NothingLost calls)) ∧
    ∀ cfg startNode scripts,
      (∀ k s calls, walkTrackedAfter g cfg startNode scripts k = some (s, calls) →
        (Accounted s.totalTokens calls.spent ↔ NothingLost calls)) ∧
      ∀ fuel s calls result,
        executeGraphTracked g cfg startNode scripts fuel = some (.returned result, s, calls) →
        (Accounted result.tokenUsage calls.spent ↔ NothingLost calls) := by
  constructor
  · intro userInput scripts
    obtain ⟨hafter, hrun⟩ := dagRun_tallied g userInput scripts
    constructor
    · intro k s calls h
      exact (hafter k _ h).accounted_iff
    · intro fuel ending s calls result h hresult
      rw [dagResult_tokenUsage hresult]
      exact (hrun fuel ending _ h).accounted_iff
  · intro cfg startNode scripts
    obtain ⟨hafter, hrun⟩ := walkRun_tallied g cfg startNode scripts
    constructor
    · intro k s calls h
      exact (hafter k _ h).accounted_iff
    · intro fuel s calls result h
      rw [executeGraphTracked_reports h]
      exact (hrun fuel _ _ h).accounted_iff

/-- The run of a scheduler that returned, with its calls and its result. -/
def dagReturned (g : PipelineGraph) (scripts : Nat → NodeScript) (fuel : Nat) :
    Option (PipelineResult × Calls) :=
  (executeDagTracked g "" scripts fuel).bind (fun r =>
    (dagResult g r.1 r.2.1).map (fun result => (result, r.2.2)))

theorem dagReturned_some {scripts : Nat → NodeScript} {fuel : Nat} {result : PipelineResult}
    {calls : Calls} (h : dagReturned g scripts fuel = some (result, calls)) :
    ∃ ending s, executeDagTracked g "" scripts fuel = some (ending, s, calls) ∧
      dagResult g ending s = some result := by
  obtain ⟨⟨ending, s, d⟩, hrun, hmap⟩ := Option.bind_eq_some_iff.mp h
  obtain ⟨result', hresult, hpair⟩ := Option.map_eq_some_iff.mp hmap
  obtain ⟨rfl, rfl⟩ := Prod.mk.inj hpair
  exact ⟨ending, s, hrun, hresult⟩

/-- A node that passes at once: the two tokens of its one call are reported. -/
theorem tokens_accounted_plain : ∃ ending s calls result,
    executeDagTracked (promptGraph 0) "" (fun _ => secondTry .pass) 2 = some (ending, s, calls) ∧
      dagResult (promptGraph 0) ending s = some result ∧ NothingLost calls ∧
      Accounted result.tokenUsage calls.spent := by
  obtain ⟨⟨result, calls⟩, hreturned, hcalls⟩ :
      ∃ r, dagReturned (promptGraph 0) (fun _ => secondTry .pass) 2 = some r ∧
        decide (r.2.spent = [{ inputTokens := 7, outputTokens := 5 }] ∧ r.2.superseded = []) =
          true :=
    (Option.any_eq_true _ _).mp (by rfl)
  obtain ⟨hspent, hsuperseded⟩ := of_decide_eq_true hcalls
  obtain ⟨ending, s, hrun, hresult⟩ := dagReturned_some hreturned
  have hlost : NothingLost calls := by
    refine ⟨?_, ?_, ?_⟩
    · rw [hsuperseded]
      exact nofun
    · rw [hspent]
      decide
    · rw [hspent]
      decide
  exact ⟨ending, s, calls, result, hrun, hresult, hlost,
    (((tokens_accounted_iff (promptGraph 0)).1 "" (fun _ => secondTry .pass)).2 2 ending s calls
      result hrun hresult).mpr hlost⟩

/-- An attempt that ended in an error, retried by the scheduler, and one that
failed, recovered by the walk: the result reports two tokens, and the handlers
spent fourteen, more than the budget of ten. -/
theorem retried_tokens_lost :
    (∃ ending s calls result,
      executeDagTracked (promptGraph 1) "" (fun _ => secondTry .error) 3 = some (ending, s, calls) ∧
        dagResult (promptGraph 1) ending s = some result ∧
        ¬ Accounted result.tokenUsage calls.spent) ∧
    ∃ s calls result,
      executeGraphTracked (promptGraph 0) plainConfig "start" (fun _ => secondTryWalk .fail) 3 =
        some (.returned result, s, calls) ∧
        ¬ Accounted result.tokenUsage calls.spent := by
  constructor
  · obtain ⟨⟨result, calls⟩, hreturned, hcalls⟩ :
        ∃ r, dagReturned (promptGraph 1) (fun _ => secondTry .error) 3 = some r ∧
          decide (r.1.tokenUsage.inputTokens = 1 ∧ tally TokenUsage.inputTokens r.2.spent = 8) =
            true :=
      (Option.any_eq_true _ _).mp (by rfl)
    obtain ⟨hresult, hspent⟩ := of_decide_eq_true hcalls
    obtain ⟨ending, s, hrun, hdag⟩ := dagReturned_some hreturned
    refine ⟨ending, s, calls, result, hrun, hdag, ?_⟩
    intro hacc
    have := hacc.input
    rw [hresult, hspent] at this
    cases this
  · obtain ⟨⟨ending, s, calls⟩, hrun, hcalls⟩ :
        ∃ r, executeGraphTracked (promptGraph 0) plainConfig "start"
            (fun _ => secondTryWalk .fail) 3 = some r ∧
          (match r.1 with
            | .returned result => decide (result.tokenUsage.inputTokens = 1 ∧
                tally TokenUsage.inputTokens r.2.2.spent = 8)
            | _ => false) = true :=
      (Option.any_eq_true _ _).mp (by rfl)
    cases ending with
    | failed e => cases hcalls
    | panicked => cases hcalls
    | returned result =>
        obtain ⟨hresult, hspent⟩ := of_decide_eq_true hcalls
        refine ⟨s, calls, result, hrun, ?_⟩
        intro hacc
        have := hacc.input
        rw [hresult, hspent] at this
        cases this

end Octos.Pipeline
