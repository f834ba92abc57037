/-
# `Octos.Agent.PlanCarry` — the plan through many compactions

A compaction replaces a prefix of the conversation by a summary, which carries the plan
on top as a block of text.  The next one finds the plan there again:

    update_plan ──cut──▶ block ──extract, cut──▶ block ──extract, cut──▶ ..

So the plan stays what it was after the first cut as long as nobody else writes a block,
no title closes the block early, and the second cut leaves what the first one left.  The
last is not a matter of course.  The notice of a cut comes on top of the cap, so that the
next round cuts again, and where a character straddles the cap it cuts a little less; and
the cap is four bytes for each token of what is carried, which is less than the text has
where its characters are wide.

    kept             what a cut leaves of the plan
    Settles plan     the second cut leaves it as it is
    Quiet json p m   the message declares no plan, and carries none but `p`
-/
import Octos.Agent.Summary
import Octos.Lib.Marks

namespace Octos.Agent

open Octos.Llm Octos.Text

/-! ## Rounds -/

/-- One compaction, and what is said behind it. -/
structure Round where
  upTo : Nat
  budgetTokens : Nat
  now : Int
  news : List Message

def summaryMessage (now : Int) (text : List Char) : Message :=
  { role := .system, content := String.ofList text, timestamp := now }

section Rounds

variable (json : JsonText)

def Round.run (r : Round) (messages : List Message) : List Message :=
  summaryMessage r.now (compactMessages json (messages.take r.upTo) r.budgetTokens) ::
    (messages.drop r.upTo ++ r.news)

def runRounds (rounds : List Round) (messages : List Message) : List Message :=
  rounds.foldl (fun messages r => r.run json messages) messages

/-- The plan of the last call of a message that declares one. -/
def declaredPlan (m : Message) : Option (List Char) :=
  m.calls.reverse.findSome? (fun call =>
    if call.name = "update_plan" then renderPlanChecklist json call.arguments else none)

end Rounds

/-! ## The cap -/

def planNotice : List Char :=
  "\n… (plan truncated)".toList

/-- The cap in bytes that `compact_messages` gives a plan. -/
def planCap (plan : List Char) : Nat :=
  planBytes (planBudgetTokens (some plan) * 4)

def cutPlan (plan : List Char) : List Char :=
  truncateUtf8 plan (planCap plan) planNotice

def keptPlan (plan : List Char) : List Char :=
  Text.takeBytes plan (planCap plan)

/-- The plan fits its cap; or what is kept of it fits its own with the notice, or fills it
to the byte without. -/
def Settles (plan : List Char) : Prop :=
  utf8Length plan ≤ planCap plan ∨
    utf8Length (keptPlan plan ++ planNotice) ≤ planCap (keptPlan plan ++ planNotice) ∨
      utf8Length (keptPlan plan) = planCap (keptPlan plan ++ planNotice)

/-! ## What is claimed -/

/-- A block on top, and no part of another. -/
def OneBlock (text : List Char) : Prop :=
  ∃ inside rest, text = planBlockBegin ++ (inside ++ (planBlockEnd ++ rest)) ∧
    ¬planBlockEnd <:+: inside ∧ ¬planBlockBegin <:+: rest ∧ ¬planBlockEnd <:+: rest

/-- After every round the plan is the one of the conversation, cut once, and the summary
carries one block. -/
def PlanSurvives (json : JsonText) (conversation : List Message) (first : Round) (more : List Round)
    (plan : List Char) : Prop :=
  ∀ k, ∃ summary rest, runRounds json (first :: more.take k) conversation = summary :: rest ∧
    OneBlock summary.content.toList ∧
      latestPlanSnapshot json (runRounds json (first :: more.take k) conversation) = some (cutPlan plan)

/-! ## When it is so -/

/-- A message that declares no plan, and carries none but `carried`. -/
def Quiet (json : JsonText) (carried : List Char) (m : Message) : Prop :=
  declaredPlan json m = none ∧ ∀ body, extractPlanBlock m.content.toList = some body → body = carried

structure Carriable (json : JsonText) (conversation : List Message) (first : Round) (more : List Round)
    (plan : List Char) : Prop where
  /-- The first prefix has a plan, and from there on none that is declared has the end sentinel. -/
  held : ∃ past m rest, conversation = past ++ m :: rest ∧ past.length < first.upTo ∧
    (messagePlan json m).isSome ∧
      ∀ x ∈ m :: rest, ∀ declared, declaredPlan json x = some declared → ¬planBlockEnd <:+: declared
  /-- No block is newer than the newest plan, which goes with the first prefix or needs no cut. -/
  newest : ∃ before m after, conversation = before ++ m :: after ∧ declaredPlan json m = some plan ∧
    (∀ x ∈ after, Quiet json (cutPlan plan) x) ∧
      (before.length < first.upTo ∨ utf8Length plan ≤ planCap plan)
  settled : Settles plan
  prefixes : ∀ r ∈ more, 0 < r.upTo
  news : ∀ r ∈ first :: more, ∀ x ∈ r.news, Quiet json (cutPlan plan) x

/-! ## The sentinels -/

/-- Each sentinel is some text within a line. -/
theorem sentinels_line : ('\n' ∉ planBlockBegin ∧ planBlockBegin ≠ []) ∧ '\n' ∉ planBlockEnd ∧ planBlockEnd ≠ [] := by
  decide +kernel

theorem planBlockBegin_line : '\n' ∉ planBlockBegin :=
  sentinels_line.1.1

theorem planBlockBegin_ne_nil : planBlockBegin ≠ [] :=
  sentinels_line.1.2

theorem planBlockEnd_line : '\n' ∉ planBlockEnd :=
  sentinels_line.2.1

theorem planBlockEnd_ne_nil : planBlockEnd ≠ [] :=
  sentinels_line.2.2

/-- What is stripped of blocks has no sentinel left. -/
theorem stripPlanBlocks_free (summary : List Char) :
    ¬planBlockBegin <:+: stripPlanBlocks summary ∧ ¬planBlockEnd <:+: stripPlanBlocks summary := by
  rw [stripPlanBlocks]
  have hdrop : ∀ {pat out : List Char}, pat <:+: trimStart out → pat <:+: out :=
    fun h => h.trans (List.dropWhile_suffix _).isInfix
  split
  · -- a line with a sentinel is gone
    have hgone : ∀ {pat : List Char}, '\n' ∉ pat → pat ≠ [] →
        (∀ line, pat <:+: line → (contains planBlockBegin line || contains planBlockEnd line) = true) →
          ¬pat <:+: trimStart (unlines ((lines (stripBlocks summary.length summary)).filter
            (fun line => !(contains planBlockBegin line || contains planBlockEnd line)))) := by
      intro pat hnl hne hpat h
      obtain ⟨line, hmem, hline⟩ := infix_unlines hnl hne (hdrop h)
      have hkeep := (List.mem_filter.mp hmem).2
      rw [hpat line hline] at hkeep
      cases hkeep
    constructor
    · refine hgone planBlockBegin_line planBlockBegin_ne_nil (fun line h => ?_)
      rw [contains_iff.mpr h]
      rfl
    · refine hgone planBlockEnd_line planBlockEnd_ne_nil (fun line h => ?_)
      rw [contains_iff.mpr h]
      exact Bool.or_true _
  · next hclean =>
      rw [Bool.or_eq_true, not_or, contains_iff, contains_iff] at hclean
      exact ⟨fun h => hclean.1 (hdrop h), fun h => hclean.2 (hdrop h)⟩

/-! ## Plans -/

/-- A plan that can stand in a block and be read from there. -/
structure Plain (plan : List Char) : Prop where
  ne_nil : plan ≠ []
  trimmed : Trimmed plan

theorem Plain.trim_lines {plan : List Char} (h : Plain plan) : trim ('\n' :: plan ++ ['\n']) = plan := by
  obtain ⟨hhead, hlast⟩ := trimmed_iff.mp h.trimmed h.ne_nil
  have hfront : ('\n' :: plan ++ ['\n']).dropWhile isWhitespace = plan ++ ['\n'] := by
    rw [List.cons_append, List.dropWhile_cons_of_pos (by decide)]
    cases plan with
    | nil => exact absurd rfl h.ne_nil
    | cons ch plan =>
        rw [List.cons_append, List.dropWhile_cons_of_neg]
        simpa using hhead
  rw [trim, hfront, List.rdropWhile_concat_pos _ _ _ (by decide), List.rdropWhile_eq_self_iff]
  intro hne
  simpa using hlast

/-- What stands in a block is read from it, if nothing in it ends the block. -/
theorem extractPlanBlock_block {plan rest : List Char} (hplain : Plain plan) (hfree : ¬planBlockEnd <:+: plan) :
    extractPlanBlock (planBlockBegin ++ ('\n' :: plan ++ '\n' :: (planBlockEnd ++ rest))) = some plan := by
  have hinside : ¬planBlockEnd <:+: '\n' :: plan := by
    intro h
    rcases @infix_newline planBlockEnd [] plan planBlockEnd_line h with h | h
    · exact planBlockEnd_ne_nil (List.infix_nil.mp h)
    · exact hfree h
  have hne : plan.isEmpty = false := List.isEmpty_eq_false_iff.mpr hplain.ne_nil
  rw [extractPlanBlock, breakOn_append_self planBlockBegin_ne_nil]
  simp only [breakOn_newline planBlockEnd_line planBlockEnd_ne_nil hinside, hplain.trim_lines, hne,
    Bool.false_eq_true, if_false]

/-- A plan read from a block is plain, and does not end the block. -/
theorem extractPlanBlock_some {text body : List Char} (h : extractPlanBlock text = some body) :
    Plain body ∧ ¬planBlockEnd <:+: body := by
  rw [extractPlanBlock] at h
  split at h
  · cases h
  · split at h
    · cases h
    · next inside rest hend =>
        split at h
        · cases h
        · next hne =>
            obtain rfl := Option.some.inj h
            refine ⟨⟨fun hnil => hne (List.isEmpty_iff.mpr hnil), trimmed_trim inside⟩, ?_⟩
            intro hin
            refine not_infix_of_breakOn planBlockEnd_ne_nil hend (hin.trans ?_)
            exact (List.rdropWhile_prefix _ _).isInfix.trans (List.dropWhile_suffix _).isInfix

theorem planRow_head (item : List Char × PlanItemStatus) : planRow item = [] ∨ ∃ row, planRow item = '-' :: row := by
  simp only [planRow]
  split
  · exact .inl rfl
  · exact .inr ⟨_, rfl⟩

theorem planRows_head : ∀ (items : List (List Char × PlanItemStatus)),
    items.flatMap planRow = [] ∨ ∃ rows, items.flatMap planRow = '-' :: rows := by
  intro items
  induction items with
  | nil => exact .inl rfl
  | cons item items ih =>
      rw [List.flatMap_cons]
      rcases planRow_head item with h | ⟨row, h⟩
      · rw [h]
        exact ih
      · rw [h]
        exact .inr ⟨_, rfl⟩

theorem trimEnd_plain {rows : List Char} (hne : trimEnd ('-' :: rows) ≠ []) : Plain (trimEnd ('-' :: rows)) := by
  refine ⟨hne, trimmed_iff.mpr (fun hne' => ⟨?_, ?_⟩)⟩
  · have hpre : trimEnd ('-' :: rows) <+: '-' :: rows := List.rdropWhile_prefix _ _
    obtain ⟨tail, htail⟩ : ∃ tail, trimEnd ('-' :: rows) = '-' :: tail := by
      cases hbody : trimEnd ('-' :: rows) with
      | nil => exact absurd hbody hne
      | cons ch tail =>
          rw [hbody] at hpre
          obtain rfl : ch = '-' := (List.cons_prefix_cons.mp hpre).1
          exact ⟨tail, rfl⟩
    simp only [htail, List.head_cons]
    decide
  · exact Bool.eq_false_iff.mpr (List.rdropWhile_last_not isWhitespace _ hne')

theorem renderPlanChecklist_plain {json : JsonText} {arguments : String} {plan : List Char}
    (h : renderPlanChecklist json arguments = some plan) : Plain plan := by
  rw [renderPlanChecklist] at h
  split at h
  · cases h
  · next args _ =>
      dsimp only at h
      split at h
      · cases h
      · next hne =>
          obtain rfl := Option.some.inj h
          rw [List.isEmpty_iff] at hne
          rcases planRows_head (planItems args) with hnil | ⟨rows, hrows⟩
          · rw [hnil] at hne
            exact absurd rfl hne
          · rw [hrows] at hne ⊢
            exact trimEnd_plain hne

theorem declaredPlan_plain {json : JsonText} {m : Message} {plan : List Char}
    (h : declaredPlan json m = some plan) : Plain plan := by
  obtain ⟨call, -, hcall⟩ := List.exists_of_findSome?_eq_some h
  split at hcall
  · exact renderPlanChecklist_plain hcall
  · cases hcall

theorem messagePlan_eq (json : JsonText) (m : Message) :
    messagePlan json m = (declaredPlan json m).or (extractPlanBlock m.content.toList) := rfl

theorem messagePlan_some {json : JsonText} {m : Message} {plan : List Char} (h : messagePlan json m = some plan) :
    Plain plan ∧ ((∀ declared, declaredPlan json m = some declared → ¬planBlockEnd <:+: declared) →
      ¬planBlockEnd <:+: plan) := by
  rw [messagePlan_eq] at h
  cases hdecl : declaredPlan json m with
  | some declared =>
      rw [hdecl, Option.some_or] at h
      obtain rfl := Option.some.inj h
      exact ⟨declaredPlan_plain hdecl, fun hfree => hfree _ rfl⟩
  | none =>
      rw [hdecl, Option.none_or] at h
      exact ⟨(extractPlanBlock_some h).1, fun _ => (extractPlanBlock_some h).2⟩

theorem Quiet.plan {json : JsonText} {carried : List Char} {m : Message} (h : Quiet json carried m) :
    ∀ plan, messagePlan json m = some plan → plan = carried := by
  intro plan hplan
  rw [messagePlan_eq, h.1, Option.none_or] at hplan
  exact h.2 plan hplan

/-! ## The cut -/

theorem takeBytes_append_add : ∀ (a b : List Char) (n : Nat),
    Text.takeBytes (a ++ b) (utf8Length a + n) = a ++ Text.takeBytes b n := by
  intro a b n
  induction a with
  | nil =>
      show Text.takeBytes b (0 + n) = Text.takeBytes b n
      rw [Nat.zero_add]
  | cons ch a ih =>
      rw [utf8Length_cons, List.cons_append, Text.takeBytes, if_pos (by omega), Nat.add_assoc,
        Nat.add_sub_cancel_left, ih, List.cons_append]

theorem cutPlan_of_fits {plan : List Char} (h : utf8Length plan ≤ planCap plan) : cutPlan plan = plan :=
  if_pos h

theorem cutPlan_of_not_fits {plan : List Char} (h : ¬utf8Length plan ≤ planCap plan) :
    cutPlan plan = keptPlan plan ++ planNotice :=
  if_neg h

/-- **Where the second cut leaves the plan alone.** -/
theorem settles_iff (plan : List Char) : cutPlan (cutPlan plan) = cutPlan plan ↔ Settles plan := by
  by_cases hfits : utf8Length plan ≤ planCap plan
  · simp only [cutPlan_of_fits hfits, Settles, hfits, true_or]
  · rw [cutPlan_of_not_fits hfits, Settles]
    by_cases hagain : utf8Length (keptPlan plan ++ planNotice) ≤ planCap (keptPlan plan ++ planNotice)
    · simp only [cutPlan_of_fits hagain, hagain, true_or, or_true]
    · rw [cutPlan_of_not_fits hagain, List.append_cancel_right_eq, or_iff_right hfits, or_iff_right hagain]
      rw [keptPlan]
      generalize keptPlan plan = kept
      constructor
      · -- one byte more would keep the newline of the notice
        intro hkept
        have hle := @utf8Length_takeBytes_le (kept ++ planNotice) (planCap (kept ++ planNotice))
        rw [hkept] at hle
        by_contra hne
        obtain ⟨m, hm⟩ : ∃ m, planCap (kept ++ planNotice) = utf8Length kept + (m + 1) :=
          ⟨planCap (kept ++ planNotice) - utf8Length kept - 1, by omega⟩
        have hmore := takeBytes_append_add kept planNotice (m + 1)
        rw [← hm, hkept] at hmore
        have hnone := List.self_eq_append_right.mp hmore
        have hnewline : planNotice = '\n' :: planNotice.drop 1 := rfl
        rw [hnewline, Text.takeBytes, if_pos (by show 1 ≤ m + 1; omega)] at hnone
        cases hnone
      · intro hfull
        rw [← hfull, takeBytes_append]

theorem planCap_pos (plan : List Char) : 200 ≤ planCap plan :=
  Nat.le_max_left _ _

theorem keptPlan_isPrefix (plan : List Char) : keptPlan plan <+: plan :=
  takeBytes_isPrefix plan _

theorem Plain.cut {plan : List Char} (h : Plain plan) : Plain (cutPlan plan) := by
  by_cases hfits : utf8Length plan ≤ planCap plan
  · rw [cutPlan_of_fits hfits]
    exact h
  · rw [cutPlan_of_not_fits hfits]
    refine ⟨List.append_ne_nil_of_right_ne_nil _ (by decide +kernel), trimmed_iff.mpr (fun hne => ⟨?_, ?_⟩)⟩
    · -- the cap has room for the first character
      cases plan with
      | nil => exact absurd rfl h.ne_nil
      | cons ch plan =>
          have hroom : ch.utf8Size ≤ planCap (ch :: plan) :=
            (Char.utf8Size_le_four ch).trans (Nat.le_trans (by decide) (planCap_pos _))
          have hhead := (trimmed_iff.mp h.trimmed (List.cons_ne_nil ch plan)).1
          simp only [keptPlan, Text.takeBytes, if_pos hroom, List.cons_append, List.head_cons]
          simpa using hhead
    · rw [List.getLast_append_of_ne_nil _ (by decide +kernel)]
      decide +kernel

/-- A cut ends no block. -/
theorem cutPlan_free {plan : List Char} (h : ¬planBlockEnd <:+: plan) : ¬planBlockEnd <:+: cutPlan plan := by
  by_cases hfits : utf8Length plan ≤ planCap plan
  · rw [cutPlan_of_fits hfits]
    exact h
  · rw [cutPlan_of_not_fits hfits]
    have hnotice : planNotice = '\n' :: planNotice.drop 1 := rfl
    have hclean : contains planBlockEnd (planNotice.drop 1) = false := by decide +kernel
    rw [hnotice]
    intro hin
    rcases infix_newline planBlockEnd_line hin with hin | hin
    · exact h (hin.trans (keptPlan_isPrefix plan).isInfix)
    · rw [contains_iff.mpr hin] at hclean
      cases hclean

/-! ## The newest plan -/

section Snapshots

variable {json : JsonText} {a b messages : List Message} {plan carried : List Char}

theorem latestPlanSnapshot_append :
    latestPlanSnapshot json (a ++ b) = (latestPlanSnapshot json b).or (latestPlanSnapshot json a) := by
  rw [latestPlanSnapshot, List.reverse_append, List.findSome?_append]
  rfl

theorem latestPlanSnapshot_cons (m : Message) :
    latestPlanSnapshot json (m :: b) = (latestPlanSnapshot json b).or (messagePlan json m) := by
  have h := @latestPlanSnapshot_append json [m] b
  rw [List.singleton_append] at h
  rw [h]
  congr 1
  rw [latestPlanSnapshot, List.reverse_singleton, List.findSome?_singleton]

theorem latestPlanSnapshot_mem (h : latestPlanSnapshot json messages = some plan) :
    ∃ x ∈ messages, messagePlan json x = some plan := by
  obtain ⟨x, hx, hplan⟩ := List.exists_of_findSome?_eq_some h
  exact ⟨x, List.mem_reverse.mp hx, hplan⟩

theorem latestPlanSnapshot_quiet (h : ∀ x ∈ messages, Quiet json carried x) :
    latestPlanSnapshot json messages = none ∨ latestPlanSnapshot json messages = some carried := by
  cases hlatest : latestPlanSnapshot json messages with
  | none => exact .inl rfl
  | some plan =>
      obtain ⟨x, hx, hplan⟩ := latestPlanSnapshot_mem hlatest
      exact .inr (congrArg some ((h x hx).plan plan hplan))

theorem prependPlanBlock_some (summary plan : List Char) :
    prependPlanBlock summary (some plan) (planBudgetTokens (some plan) * 4) = planBlockBegin ++
      ('\n' :: cutPlan plan ++ '\n' :: (planBlockEnd ++ ('\n' :: '\n' :: stripPlanBlocks summary))) := by
  simp only [prependPlanBlock, List.append_assoc, List.cons_append]
  rfl

/-- A summary of messages with a plan carries the plan on top. -/
theorem compactMessages_block (budgetTokens : Nat) (h : latestPlanSnapshot json messages = some plan) :
    ∃ body, compactMessages json messages budgetTokens = planBlockBegin ++
      ('\n' :: cutPlan plan ++ '\n' :: (planBlockEnd ++ ('\n' :: '\n' :: stripPlanBlocks body))) := by
  simp only [compactMessages, h]
  exact ⟨_, prependPlanBlock_some _ plan⟩

theorem oneBlock_block {body : List Char} (hfree : ¬planBlockEnd <:+: plan) :
    OneBlock (planBlockBegin ++ ('\n' :: plan ++ '\n' :: (planBlockEnd ++ ('\n' :: '\n' :: stripPlanBlocks body)))) := by
  have hline : ∀ {pat text : List Char}, '\n' ∉ pat → pat ≠ [] → pat <:+: '\n' :: text → pat <:+: text := by
    intro pat text hnl hne h
    rcases @infix_newline pat [] text hnl h with h | h
    · exact absurd (List.infix_nil.mp h) hne
    · exact h
  obtain ⟨hbegin, hend⟩ := stripPlanBlocks_free body
  refine ⟨'\n' :: plan ++ ['\n'], '\n' :: '\n' :: stripPlanBlocks body, ?_, ?_, ?_, ?_⟩
  · rw [List.append_assoc, List.singleton_append]
  · intro h
    rcases infix_newline planBlockEnd_line h with h | h
    · exact hfree (hline planBlockEnd_line planBlockEnd_ne_nil h)
    · exact planBlockEnd_ne_nil (List.infix_nil.mp h)
  · exact fun h => hbegin (hline planBlockBegin_line planBlockBegin_ne_nil
      (hline planBlockBegin_line planBlockBegin_ne_nil h))
  · exact fun h => hend (hline planBlockEnd_line planBlockEnd_ne_nil
      (hline planBlockEnd_line planBlockEnd_ne_nil h))

/-! ## A round -/

/-- A conversation that begins with a summary and has the plan `carried`. -/
structure Carrying (json : JsonText) (carried : List Char) (messages : List Message) : Prop where
  snapshot : latestPlanSnapshot json messages = some carried
  free : ∀ x ∈ messages, ∀ plan, messagePlan json x = some plan → ¬planBlockEnd <:+: plan
  top : ∃ summary rest, messages = summary :: rest ∧ OneBlock summary.content.toList ∧
    (messagePlan json summary).isSome

/-- The summary of a prefix has the plan of the prefix, cut. -/
theorem summary_plan {r : Round} (hplan : latestPlanSnapshot json (messages.take r.upTo) = some plan)
    (hfree : ¬planBlockEnd <:+: plan) :
    ∃ summary, r.run json messages = summary :: (messages.drop r.upTo ++ r.news) ∧
      OneBlock summary.content.toList ∧ messagePlan json summary = some (cutPlan plan) := by
  obtain ⟨body, hbody⟩ := compactMessages_block r.budgetTokens hplan
  obtain ⟨x, -, hx⟩ := latestPlanSnapshot_mem hplan
  have hcut := cutPlan_free hfree
  refine ⟨_, rfl, ?_, ?_⟩
  · show OneBlock (String.ofList _).toList
    rw [String.toList_ofList, hbody]
    exact oneBlock_block hcut
  · show extractPlanBlock (String.ofList _).toList = _
    rw [String.toList_ofList, hbody]
    exact extractPlanBlock_block (messagePlan_some hx).1.cut hcut

/-- **A round** keeps the plan of the suffix, or the cut one of the prefix if the suffix has none. -/
theorem run_carrying {r : Round} (hplan : latestPlanSnapshot json (messages.take r.upTo) = some plan)
    (hfree : ¬planBlockEnd <:+: plan)
    (hsuffix : latestPlanSnapshot json (messages.drop r.upTo) = some carried ∨
      latestPlanSnapshot json (messages.drop r.upTo) = none ∧ cutPlan plan = carried)
    (hclean : ∀ x ∈ messages.drop r.upTo, ∀ p, messagePlan json x = some p → ¬planBlockEnd <:+: p)
    (hcarried : ¬planBlockEnd <:+: carried) (hnews : ∀ x ∈ r.news, Quiet json carried x) :
    Carrying json carried (r.run json messages) := by
  obtain ⟨summary, hrun, hblock, hsummary⟩ := summary_plan hplan hfree
  refine ⟨?_, ?_, summary, _, hrun, hblock, ?_⟩
  · rw [hrun, latestPlanSnapshot_cons, latestPlanSnapshot_append, hsummary]
    rcases latestPlanSnapshot_quiet hnews with hnone | hsome
    · rw [hnone, Option.none_or]
      rcases hsuffix with hsome | ⟨hnone, hcut⟩
      · rw [hsome, Option.some_or]
      · rw [hnone, Option.none_or, hcut]
    · rw [hsome, Option.some_or, Option.some_or]
  · intro x hx p hp
    rw [hrun] at hx
    rcases List.mem_cons.mp hx with rfl | hx
    · rw [hsummary] at hp
      obtain rfl := Option.some.inj hp
      exact cutPlan_free hfree
    · rcases List.mem_append.mp hx with hx | hx
      · exact hclean x hx p hp
      · rw [(hnews x hx).plan p hp]
        exact hcarried
  · rw [hsummary]
    rfl

/-- A later round, whose prefix holds the summary of the one before. -/
theorem Carrying.run {r : Round} (h : Carrying json carried messages) (hpos : 0 < r.upTo)
    (hcut : cutPlan carried = carried) (hnews : ∀ x ∈ r.news, Quiet json carried x) :
    Carrying json carried (r.run json messages) := by
  have hcarried : ¬planBlockEnd <:+: carried := by
    obtain ⟨x, hx, hplan⟩ := latestPlanSnapshot_mem h.snapshot
    exact h.free x hx carried hplan
  have hwhole := @latestPlanSnapshot_append json (messages.take r.upTo) (messages.drop r.upTo)
  rw [List.take_append_drop, h.snapshot] at hwhole
  obtain ⟨plan, hplan⟩ : ∃ plan, latestPlanSnapshot json (messages.take r.upTo) = some plan := by
    obtain ⟨summary, rest, rfl, -, hsome⟩ := h.top
    obtain ⟨n, hn⟩ : ∃ n, r.upTo = n + 1 := ⟨r.upTo - 1, by omega⟩
    rw [hn, List.take_succ_cons, latestPlanSnapshot_cons]
    cases latestPlanSnapshot json (rest.take n) with
    | none =>
        rw [Option.none_or]
        exact Option.isSome_iff_exists.mp hsome
    | some newer => exact ⟨newer, rfl⟩
  obtain ⟨x, hx, hxplan⟩ := latestPlanSnapshot_mem hplan
  refine run_carrying hplan (h.free x (List.mem_of_mem_take hx) plan hxplan) ?_
    (fun x hx => h.free x (List.mem_of_mem_drop hx)) hcarried hnews
  cases hsuffix : latestPlanSnapshot json (messages.drop r.upTo) with
  | some newer =>
      rw [hsuffix, Option.some_or] at hwhole
      exact .inl hwhole.symm
  | none =>
      rw [hsuffix, Option.none_or, hplan] at hwhole
      obtain rfl := Option.some.inj hwhole
      exact .inr ⟨rfl, hcut⟩

theorem Carrying.runs (hcut : cutPlan carried = carried) : ∀ {rounds : List Round} {messages : List Message},
    Carrying json carried messages → (∀ r ∈ rounds, 0 < r.upTo ∧ ∀ x ∈ r.news, Quiet json carried x) →
      Carrying json carried (runRounds json rounds messages) := by
  intro rounds
  induction rounds with
  | nil => exact fun h _ => h
  | cons r rounds ih =>
      intro messages h hrounds
      obtain ⟨hpos, hnews⟩ := hrounds r List.mem_cons_self
      exact ih (h.run hpos hcut hnews) (fun s hs => hrounds s (List.mem_cons_of_mem _ hs))

/-! ## The first round -/

variable {conversation : List Message} {first : Round} {more : List Round}

/-- The prefix of the first round has a plan, which ends no block. -/
theorem Carriable.prefix_plan (h : Carriable json conversation first more plan) :
    ∃ held, latestPlanSnapshot json (conversation.take first.upTo) = some held ∧ ¬planBlockEnd <:+: held ∧
      ∀ x ∈ conversation.drop first.upTo, ∀ p, messagePlan json x = some p → ¬planBlockEnd <:+: p := by
  obtain ⟨past, m, rest, rfl, hlt, hsome, hfree⟩ := h.held
  obtain ⟨n, hn⟩ : ∃ n, first.upTo = past.length + (n + 1) := ⟨first.upTo - past.length - 1, by omega⟩
  have htake : (past ++ m :: rest).take first.upTo = past ++ m :: rest.take n := by
    rw [hn, List.take_length_add_append, List.take_succ_cons]
  have hdrop : (past ++ m :: rest).drop first.upTo = rest.drop n := by
    rw [hn, List.drop_length_add_append, List.drop_succ_cons]
  obtain ⟨held, hheld⟩ : ∃ held, latestPlanSnapshot json (m :: rest.take n) = some held := by
    rw [latestPlanSnapshot_cons]
    cases latestPlanSnapshot json (rest.take n) with
    | none =>
        rw [Option.none_or]
        exact Option.isSome_iff_exists.mp hsome
    | some newer => exact ⟨newer, rfl⟩
  rw [htake, hdrop, latestPlanSnapshot_append, hheld, Option.some_or]
  obtain ⟨x, hx, hplan⟩ := latestPlanSnapshot_mem hheld
  have hmem : x ∈ m :: rest := by
    rcases List.mem_cons.mp hx with rfl | hx
    · exact List.mem_cons_self
    · exact List.mem_cons_of_mem _ (List.mem_of_mem_take hx)
  refine ⟨held, rfl, (messagePlan_some hplan).2 (hfree x hmem), ?_⟩
  intro y hy p hp
  exact (messagePlan_some hp).2 (hfree y (List.mem_cons_of_mem _ (List.mem_of_mem_drop hy)))

/-- The newest plan is in the suffix, uncut, or what the prefix has is cut to it. -/
theorem Carriable.suffix_plan (h : Carriable json conversation first more plan) {held : List Char}
    (hheld : latestPlanSnapshot json (conversation.take first.upTo) = some held) :
    latestPlanSnapshot json (conversation.drop first.upTo) = some (cutPlan plan) ∨
      latestPlanSnapshot json (conversation.drop first.upTo) = none ∧ cutPlan held = cutPlan plan := by
  obtain ⟨before, m, after, rfl, hdecl, hquiet, hplace⟩ := h.newest
  have hplan : messagePlan json m = some plan := by
    rw [messagePlan_eq, hdecl, Option.some_or]
  rcases Nat.lt_or_ge before.length first.upTo with hlt | hge
  · obtain ⟨n, hn⟩ : ∃ n, first.upTo = before.length + (n + 1) := ⟨first.upTo - before.length - 1, by omega⟩
    rw [hn, List.take_length_add_append, List.take_succ_cons] at hheld
    rw [hn, List.drop_length_add_append, List.drop_succ_cons]
    rcases @latestPlanSnapshot_quiet json (after.drop n) (cutPlan plan)
      (fun x hx => hquiet x (List.mem_of_mem_drop hx)) with hnone | hsome
    · refine .inr ⟨hnone, ?_⟩
      rw [latestPlanSnapshot_append, latestPlanSnapshot_cons, hplan] at hheld
      rcases @latestPlanSnapshot_quiet json (after.take n) (cutPlan plan)
        (fun x hx => hquiet x (List.mem_of_mem_take hx)) with hnone | hsome
      · rw [hnone, Option.none_or, Option.some_or] at hheld
        rw [Option.some.inj hheld]
      · rw [hsome, Option.some_or, Option.some_or] at hheld
        rw [← Option.some.inj hheld]
        exact (settles_iff plan).mpr h.settled
    · exact .inl hsome
  · -- the declaration stays behind, and the plan fits as it is
    have hfits : utf8Length plan ≤ planCap plan := hplace.resolve_left (Nat.not_lt.mpr hge)
    left
    rw [List.drop_append_of_le_length hge, latestPlanSnapshot_append, latestPlanSnapshot_cons, hplan]
    rcases latestPlanSnapshot_quiet hquiet with hnone | hsome
    · rw [hnone, Option.none_or, Option.some_or, cutPlan_of_fits hfits]
    · rw [hsome, Option.some_or, Option.some_or]

end Snapshots

/-- **The plan survives** every run in which no newer block than the plan's own is written,
no title closes the block, and the second cut leaves what the first one left. -/
theorem plan_survives (json : JsonText) (conversation : List Message) (first : Round) (more : List Round)
    (plan : List Char) (h : Carriable json conversation first more plan) :
    PlanSurvives json conversation first more plan := by
  intro k
  have hcut := (settles_iff plan).mpr h.settled
  have hstart : Carrying json (cutPlan plan) (first.run json conversation) := by
    obtain ⟨held, hheld, hfree, hclean⟩ := h.prefix_plan
    have hcarried : ¬planBlockEnd <:+: cutPlan plan := by
      rcases h.suffix_plan hheld with hsome | ⟨-, hsame⟩
      · obtain ⟨x, hx, hx'⟩ := latestPlanSnapshot_mem hsome
        exact hclean x hx _ hx'
      · rw [← hsame]
        exact cutPlan_free hfree
    exact run_carrying hheld hfree (h.suffix_plan hheld) hclean hcarried (h.news first List.mem_cons_self)
  have hmore : ∀ r ∈ more.take k, 0 < r.upTo ∧ ∀ x ∈ r.news, Quiet json (cutPlan plan) x :=
    fun r hr => ⟨h.prefixes r (List.mem_of_mem_take hr),
      h.news r (List.mem_cons_of_mem _ (List.mem_of_mem_take hr))⟩
  have hrun := hstart.runs hcut hmore
  obtain ⟨summary, rest, heq, hblock, -⟩ := hrun.top
  exact ⟨summary, rest, heq, hblock, hrun.snapshot⟩

/-! ## A block that a user writes -/

def teaArguments : String :=
  "\x7b\"plan\": [\x7b\"step\": \"tea\"\x7d]\x7d"

/-- A reader of JSON that knows these arguments. -/
def teaJson : JsonText where
  parse s := if s = teaArguments then some (.obj [("plan", .arr [.obj [("step", .str "tea")]])]) else none
  print _ := ""

def teaPlan : List Char :=
  "- [ ] tea".toList

def teaConversation : List Message :=
  [{ role := .assistant, content := "", timestamp := 0,
     toolCalls := some [{ id := "call_1", name := "update_plan", arguments := teaArguments }] }]

def userSays (text : List Char) : Message :=
  { role := .user, content := String.ofList text, timestamp := 2 }

/-- Two rounds, and a word of the user behind the second. -/
theorem plan_survives_tea :
    PlanSurvives teaJson teaConversation ⟨1, 1000, 1, []⟩ [⟨1, 1000, 2, [userSays "Go on.".toList]⟩] teaPlan := by
  have hdecl : ∀ m ∈ teaConversation, declaredPlan teaJson m = some teaPlan := by decide +kernel
  have hclean : contains planBlockEnd teaPlan = false := by decide +kernel
  have hquiet : Quiet teaJson (cutPlan teaPlan) (userSays "Go on.".toList) := by
    have hnone : extractPlanBlock (userSays "Go on.".toList).content.toList = none := by decide +kernel
    refine ⟨by decide +kernel, fun body hbody => ?_⟩
    rw [hnone] at hbody
    cases hbody
  have hfirst : ∀ m ∈ teaConversation, (messagePlan teaJson m).isSome := by
    intro m hm
    rw [messagePlan_eq, hdecl m hm]
    rfl
  refine plan_survives _ _ _ _ _
    ⟨⟨[], _, [], rfl, by decide, hfirst _ List.mem_cons_self, ?_⟩,
      ⟨[], _, [], rfl, hdecl _ List.mem_cons_self, ?_, .inl (by decide)⟩, ?_, ?_, ?_⟩
  · intro x hx declared hdeclared
    rw [hdecl x hx] at hdeclared
    obtain rfl := Option.some.inj hdeclared
    rw [← contains_iff, hclean]
    exact Bool.false_ne_true
  · exact fun x hx => (nomatch hx)
  · exact .inl (by decide +kernel)
  · intro r hr
    rw [List.mem_singleton.mp hr]
    decide
  · intro r hr x hx
    simp only [List.mem_cons, List.not_mem_nil, or_false] at hr
    rcases hr with rfl | rfl
    · cases hx
    · rw [List.mem_singleton.mp hx]
      exact hquiet

/-- The block of a user takes the place of the plan. -/
theorem user_block_replaces :
    ¬ ∀ (json : JsonText) (conversation : List Message) (first : Round) (more : List Round) (plan : List Char),
      conversation.reverse.findSome? (declaredPlan json) = some plan → (∀ r ∈ first :: more, 0 < r.upTo) →
        (∀ r ∈ first :: more, ∀ x ∈ r.news, ∀ call ∈ x.calls, call.name ≠ "update_plan") →
          PlanSurvives json conversation first more plan := by
  intro h
  have hrun := h teaJson teaConversation ⟨1, 1000, 1, []⟩
    [⟨1, 1000, 2, [userSays (planBlockBegin ++ "\n- [ ] coffee\n".toList ++ planBlockEnd)]⟩] teaPlan
    (by decide +kernel) (by decide +kernel) (by decide +kernel) 1
  obtain ⟨_, _, _, _, hsnapshot⟩ := hrun
  have hcoffee : latestPlanSnapshot teaJson (runRounds teaJson [⟨1, 1000, 1, []⟩,
      ⟨1, 1000, 2, [userSays (planBlockBegin ++ "\n- [ ] coffee\n".toList ++ planBlockEnd)]⟩] teaConversation) =
        some "- [ ] coffee".toList := by decide +kernel
  have hcut : cutPlan teaPlan ≠ "- [ ] coffee".toList := by decide +kernel
  exact hcut (Option.some.inj (hsnapshot.symm.trans hcoffee))

end Octos.Agent
