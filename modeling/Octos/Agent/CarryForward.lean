/-
# `Octos.Agent.CarryForward` — a summary that carries earlier ones

`compact_messages_with_prior_summaries`: the bodies of the summaries of earlier passes
come first, then a line for each new message, then a notice of what was left out.  Every
chunk goes through `append_summary_chunk`:

    fits             summary ++ "\n" ++ chunk, and on
    does not, but    as much of it as the budget allows, a suffix behind it, and stop
      the suffix would
    neither          unchanged, and stop

The texts that `summary` holds one after the other are the run; its last is the result.
What a text holds is at the front of every later one, but for white space at its end:
the cut is never in front of what was there, because the estimate of a beginning is at
most that of the whole, and the suffix is charged for with the one token that two
roundings can lose.
-/
import Octos.Agent.Summary

namespace Octos.Agent

open Octos.Llm Octos.Text

/-! ## Fitting -/

/-- The longest beginning within the budget. -/
def fitSummaryTokens (text : List Char) (budgetTokens : Nat) : List Char :=
  if budgetTokens = 0 then []
  else if estimateTokens text ≤ budgetTokens then text
  else text.take
    (bisect (fun i => estimateTokens (text.take i) ≤ budgetTokens) text.length 0 text.length)

def truncatedSuffix : List Char :=
  "\n... (summary truncated to budget)".toList

/-- The summary after a chunk, and whether the chunk had room. -/
def appendSummaryChunk (summary chunk : List Char) (budgetTokens : Nat) : List Char × Bool :=
  if chunk.isEmpty then (summary, true)
  else
    let candidate := summary ++ '\n' :: chunk
    if 0 < budgetTokens ∧ estimateTokens candidate ≤ budgetTokens then (candidate, true)
    else
      let suffixTokens := estimateTokens truncatedSuffix + 1
      if suffixTokens < budgetTokens ∧ estimateTokens summary ≤ budgetTokens - suffixTokens then
        let kept := fitSummaryTokens candidate (budgetTokens - suffixTokens)
        (fitSummaryTokens (trimEnd kept ++ truncatedSuffix) budgetTokens, false)
      else (summary, false)

/-! ## The run -/

structure PriorCompactionSummary where
  messageIndex : Nat
  body : List Char

/-- The bodies by the index of their message; the last of an index stays. -/
def priorTable (messages : List Message) (priorSummaries : List PriorCompactionSummary) :
    Table Nat (List Char) :=
  (priorSummaries.filter (fun prior => prior.messageIndex < messages.length)).foldl
    (fun priors prior => priors.insert prior.messageIndex prior.body) ∅

/-- The first line of a summary. -/
def isSummaryHeading (heading : List Char) : Bool :=
  (((heading.dropPrefix? "## Conversation Summary (compacted from ".toList).bind
    (fun rest => rest.dropSuffix? " messages)".toList)).bind (parseUnsigned (2 ^ 64))).isSome

/-- The body without the heading of its own pass. -/
def withoutHeading (body : List Char) : List Char :=
  match breakOn ['\n'] body with
  | none => body
  | some (heading, rest) =>
      if isSummaryHeading heading then rest.dropWhile (fun ch => ch == '\n') else body

/-- What `summary` holds from the first body on; whether the last had room. -/
def appendBodies (budgetTokens : Nat) : List Char → List (List Char) → List (List Char) × Bool
  | summary, [] => ([summary], true)
  | summary, body :: rest =>
      let longer := appendSummaryChunk summary body budgetTokens
      if longer.2 then
        let run := appendBodies budgetTokens longer.1 rest
        (summary :: run.1, run.2)
      else ([summary, longer.1], false)

/-- What `summary` holds from the first message on. -/
def appendRows (priors : Table Nat (List Char)) (context : List Message) (budgetTokens target : Nat) :
    List Char → List (Nat × Message) → List (List Char)
  | summary, [] => [summary]
  | summary, (index, m) :: rest =>
      if priors.contains index then appendRows priors context budgetTokens target summary rest
      else if target ≤ estimateTokens summary then
        let omitted := ((index, m) :: rest).countP (fun row => !priors.contains row.1)
        [summary, (appendSummaryChunk summary (omittedNotice omitted) budgetTokens).1]
      else
        let longer := appendSummaryChunk summary (summarizeMessage m context) budgetTokens
        if longer.2 then
          summary :: appendRows priors context budgetTokens target longer.1 rest
        else [summary, longer.1]

/-- The texts that `summary` holds one after the other. -/
def summaryTexts (json : JsonText) (messages : List Message) (budgetTokens : Nat)
    (priorSummaries : List PriorCompactionSummary) : List (List Char) :=
  let priors := priorTable messages priorSummaries
  if priors.isEmpty then
    [fitSummaryTokens (compactMessages json messages budgetTokens) budgetTokens]
  else
    let bodies := appendBodies budgetTokens
      (fitSummaryTokens (summaryHeader messages.length) budgetTokens)
      (priors.toList.map (fun row => withoutHeading row.2))
    if bodies.2 then
      let summary := bodies.1.getLastD []
      let carriedTokens := estimateTokens summary
      let target := carriedTokens + chunkShare (budgetTokens - carriedTokens)
      bodies.1 ++ appendRows priors messages budgetTokens target summary
        (messages.mapIdx (fun index m => (index, m)))
    else bodies.1

def compactMessagesWithPriorSummaries (json : JsonText) (messages : List Message)
    (budgetTokens : Nat) (priorSummaries : List PriorCompactionSummary) : List Char :=
  (summaryTexts json messages budgetTokens priorSummaries).getLastD []

/-! ## What fits -/

section

variable {text summary chunk longer : List Char} {budgetTokens : Nat} {room : Bool}

/-- The longest beginning within the budget is within it, and no other is longer. -/
theorem fitSummaryTokens_spec (hbudget : 1 ≤ budgetTokens) :
    estimateTokens (fitSummaryTokens text budgetTokens) ≤ budgetTokens ∧
      ∀ t, t <+: text → estimateTokens t ≤ budgetTokens → t <+: fitSummaryTokens text budgetTokens := by
  rw [fitSummaryTokens, if_neg (by omega)]
  split
  · next hfits => exact ⟨hfits, fun t ht _ => ht⟩
  · let fits := fun i => decide (estimateTokens (text.take i) ≤ budgetTokens)
    have hmono : ∀ i j, i ≤ j → fits j = true → fits i = true := by
      intro i j hij hj
      have hle : estimateTokens (text.take i) ≤ estimateTokens (text.take j) :=
        estimateTokens_mono (List.take_prefix_take_left hij)
      exact decide_eq_true (hle.trans (of_decide_eq_true hj))
    have hempty : fits 0 = true := by
      refine decide_eq_true ?_
      show estimateTokens (text.take 0) ≤ budgetTokens
      rw [List.take_zero]
      exact hbudget
    obtain ⟨hcut, -, -, hlast⟩ :=
      @bisect_spec fits hmono text.length 0 text.length hempty (Nat.zero_le _) (by omega)
    refine ⟨of_decide_eq_true hcut, ?_⟩
    intro t ht hfit
    have htake : t = text.take t.length := List.prefix_iff_eq_take.mp ht
    rw [htake]
    refine List.take_prefix_take_left (hlast t.length ht.length_le ?_)
    rw [htake] at hfit
    exact decide_eq_true hfit

theorem fitSummaryTokens_of_le (hfits : estimateTokens text ≤ budgetTokens) :
    fitSummaryTokens text budgetTokens = text := by
  have hpos := estimateTokens_pos text
  rw [fitSummaryTokens, if_neg (by omega), if_pos hfits]

theorem asciiChars_truncatedSuffix : asciiChars truncatedSuffix = truncatedSuffix.length := by
  rfl

/-! ## One chunk -/

/-- A chunk that had room is behind all there was. -/
theorem appendSummaryChunk_room (h : appendSummaryChunk summary chunk budgetTokens = (longer, true)) :
    summary <+: longer ∧ (estimateTokens summary ≤ budgetTokens → estimateTokens longer ≤ budgetTokens) := by
  rw [appendSummaryChunk] at h
  split at h
  · rw [Prod.mk.injEq] at h
    rw [← h.1]
    exact ⟨List.prefix_refl _, id⟩
  · dsimp only at h
    split at h
    · next hfits =>
        rw [Prod.mk.injEq] at h
        rw [← h.1]
        exact ⟨List.prefix_append _ _, fun _ => hfits.2⟩
    · split at h
      · exact absurd (Prod.mk.inj h).2 Bool.false_ne_true
      · exact absurd (Prod.mk.inj h).2 Bool.false_ne_true

/-- A chunk takes nothing away but white space at the end. -/
theorem appendSummaryChunk_kept (h : appendSummaryChunk summary chunk budgetTokens = (longer, room))
    (hsummary : estimateTokens summary ≤ budgetTokens) :
    trimEnd summary <+: longer ∧ estimateTokens longer ≤ budgetTokens := by
  cases room with
  | true =>
      obtain ⟨hfront, hfits⟩ := appendSummaryChunk_room h
      exact ⟨(List.rdropWhile_prefix _ _).trans hfront, hfits hsummary⟩
  | false =>
      rw [appendSummaryChunk] at h
      split at h
      · exact absurd (Prod.mk.inj h).2.symm Bool.false_ne_true
      · dsimp only at h
        split at h
        · exact absurd (Prod.mk.inj h).2.symm Bool.false_ne_true
        · split at h
          · next hroom =>
              let candidate := summary ++ '\n' :: chunk
              let allowed := budgetTokens - (estimateTokens truncatedSuffix + 1)
              obtain ⟨hcut, hlongest⟩ :=
                @fitSummaryTokens_spec candidate allowed (Nat.sub_pos_of_lt hroom.1)
              have hfront : summary <+: fitSummaryTokens candidate allowed :=
                hlongest summary (List.prefix_append _ _) hroom.2
              have htrim : estimateTokens (trimEnd (fitSummaryTokens candidate allowed)) ≤ allowed :=
                (estimateTokens_mono (List.rdropWhile_prefix _ _)).trans hcut
              have hsuffix := @estimateTokens_append_ascii
                (trimEnd (fitSummaryTokens candidate allowed)) truncatedSuffix asciiChars_truncatedSuffix
              have hfits : estimateTokens
                  (trimEnd (fitSummaryTokens candidate allowed) ++ truncatedSuffix) ≤ budgetTokens := by
                have hroom := hroom.1
                dsimp only [allowed] at htrim hsuffix ⊢
                omega
              rw [← (Prod.mk.inj h).1, fitSummaryTokens_of_le hfits]
              refine ⟨?_, hfits⟩
              exact (rdropWhile_keeps_front isWhitespace hfront).trans (List.prefix_append _ _)
          · rw [← (Prod.mk.inj h).1]
            exact ⟨List.rdropWhile_prefix _ _, hsummary⟩

/-! ## The run -/

/-- All texts are within the budget, and the last holds what each of them held. -/
structure Carried (budgetTokens : Nat) (texts : List (List Char)) : Prop where
  last : texts.getLastD [] ∈ texts
  fits : ∀ text ∈ texts, estimateTokens text ≤ budgetTokens
  kept : ∀ text ∈ texts, trimEnd text <+: texts.getLastD []

theorem Carried.single (h : estimateTokens text ≤ budgetTokens) : Carried budgetTokens [text] where
  last := List.mem_singleton_self _
  fits := by
    intro t ht
    rw [List.mem_singleton.mp ht]
    exact h
  kept := by
    intro t ht
    rw [List.mem_singleton.mp ht]
    exact List.rdropWhile_prefix _ _

theorem Carried.pair (h : estimateTokens summary ≤ budgetTokens) :
    Carried budgetTokens [summary, (appendSummaryChunk summary chunk budgetTokens).1] := by
  obtain ⟨hfront, hfits⟩ := appendSummaryChunk_kept (Prod.eta (appendSummaryChunk summary chunk _)).symm h
  refine ⟨List.mem_pair.mpr (.inr rfl), ?_, ?_⟩
  · intro t ht
    rcases List.mem_pair.mp ht with rfl | rfl
    · exact h
    · exact hfits
  · intro t ht
    rcases List.mem_pair.mp ht with rfl | rfl
    · exact hfront
    · exact List.rdropWhile_prefix _ _

theorem getLastD_cons_of_mem {first : List Char} {texts : List (List Char)} (h : first ∈ texts) :
    (text :: texts).getLastD [] = texts.getLastD [] := by
  rw [List.getLastD_eq_getLast?, List.getLastD_eq_getLast?, List.getLast?_cons,
    List.getLast?_eq_some_getLast (List.ne_nil_of_mem h)]
  rfl

/-- A text in front of a run that begins with a longer one. -/
theorem Carried.cons {first : List Char} {texts : List (List Char)} (hfront : text <+: first)
    (hfirst : first ∈ texts) (h : Carried budgetTokens texts) : Carried budgetTokens (text :: texts) := by
  have hlast : (text :: texts).getLastD [] = texts.getLastD [] := getLastD_cons_of_mem hfirst
  refine ⟨hlast ▸ List.mem_cons_of_mem _ h.last, ?_, ?_⟩
  · intro t ht
    rcases List.mem_cons.mp ht with rfl | ht
    · exact (estimateTokens_mono hfront).trans (h.fits first hfirst)
    · exact h.fits t ht
  · intro t ht
    rw [hlast]
    rcases List.mem_cons.mp ht with rfl | ht
    · exact (rdropWhile_keeps_front isWhitespace hfront).trans (h.kept first hfirst)
    · exact h.kept t ht

/-- What there was before the first body is in the run. -/
theorem mem_appendBodies (bodies : List (List Char)) :
    summary ∈ (appendBodies budgetTokens summary bodies).1 := by
  cases bodies with
  | nil => exact List.mem_singleton_self _
  | cons body rest =>
      rw [appendBodies]
      dsimp only
      split
      · exact List.mem_cons_self
      · exact List.mem_cons_self

theorem appendBodies_carried : ∀ {bodies : List (List Char)} {summary : List Char},
    estimateTokens summary ≤ budgetTokens →
      Carried budgetTokens (appendBodies budgetTokens summary bodies).1 := by
  intro bodies
  induction bodies with
  | nil =>
      intro summary hsummary
      exact .single hsummary
  | cons body rest ih =>
      intro summary hsummary
      rw [appendBodies]
      dsimp only
      split
      · next hroom =>
          obtain ⟨hfront, hfits⟩ := appendSummaryChunk_room (Prod.ext rfl hroom)
          exact .cons hfront (mem_appendBodies rest) (ih (hfits hsummary))
      · exact .pair hsummary

/-- With room for all bodies each text is in front of the last. -/
theorem appendBodies_front : ∀ {bodies : List (List Char)} {summary : List Char},
    (appendBodies budgetTokens summary bodies).2 = true →
      ∀ t ∈ (appendBodies budgetTokens summary bodies).1,
        t <+: (appendBodies budgetTokens summary bodies).1.getLastD [] := by
  intro bodies
  induction bodies with
  | nil =>
      intro summary _ t ht
      rw [List.mem_singleton.mp ht]
      exact List.prefix_refl _
  | cons body rest ih =>
      intro summary hall t ht
      by_cases hroom : (appendSummaryChunk summary body budgetTokens).2 = true
      · rw [appendBodies, if_pos hroom] at hall ht ⊢
        have hnext := @mem_appendBodies (appendSummaryChunk summary body budgetTokens).1 budgetTokens rest
        rw [getLastD_cons_of_mem hnext]
        rcases List.mem_cons.mp ht with rfl | ht
        · exact (appendSummaryChunk_room (Prod.ext rfl hroom)).1.trans (ih hall _ hnext)
        · exact ih hall t ht
      · rw [appendBodies, if_neg hroom] at hall
        exact absurd hall Bool.false_ne_true

variable {priors : Table Nat (List Char)} {context : List Message} {target : Nat}

theorem mem_appendRows : ∀ {rows : List (Nat × Message)},
    summary ∈ appendRows priors context budgetTokens target summary rows := by
  intro rows
  induction rows with
  | nil => exact List.mem_singleton_self _
  | cons row rest ih =>
      obtain ⟨index, m⟩ := row
      rw [appendRows]
      split
      · exact ih
      · dsimp only
        split
        · exact List.mem_cons_self
        · split
          · exact List.mem_cons_self
          · exact List.mem_cons_self

theorem appendRows_carried : ∀ {rows : List (Nat × Message)} {summary : List Char},
    estimateTokens summary ≤ budgetTokens →
      Carried budgetTokens (appendRows priors context budgetTokens target summary rows) := by
  intro rows
  induction rows with
  | nil =>
      intro summary hsummary
      exact .single hsummary
  | cons row rest ih =>
      intro summary hsummary
      obtain ⟨index, m⟩ := row
      rw [appendRows]
      split
      · exact ih hsummary
      · dsimp only
        split
        · exact .pair hsummary
        · split
          · next hroom =>
              obtain ⟨hfront, hfits⟩ := appendSummaryChunk_room (Prod.ext rfl hroom)
              exact .cons hfront mem_appendRows (ih (hfits hsummary))
          · exact .pair hsummary

/-- The rows go on where the bodies ended. -/
theorem Carried.append {texts rows : List (List Char)} (htexts : Carried budgetTokens texts)
    (hfront : ∀ t ∈ texts, t <+: texts.getLastD []) (hlast : texts.getLastD [] ∈ rows)
    (hrows : Carried budgetTokens rows) : Carried budgetTokens (texts ++ rows) := by
  have hend : (texts ++ rows).getLastD [] = rows.getLastD [] := by
    rw [List.getLastD_eq_getLast?, List.getLastD_eq_getLast?,
      List.getLast?_append_of_ne_nil _ (List.ne_nil_of_mem hlast)]
  refine ⟨hend ▸ List.mem_append_right _ hrows.last, ?_, ?_⟩
  · intro t ht
    rcases List.mem_append.mp ht with ht | ht
    · exact htexts.fits t ht
    · exact hrows.fits t ht
  · intro t ht
    rw [hend]
    rcases List.mem_append.mp ht with ht | ht
    · exact (rdropWhile_keeps_front isWhitespace (hfront t ht)).trans (hrows.kept _ hlast)
    · exact hrows.kept t ht

theorem summaryTexts_carried (json : JsonText) (messages : List Message)
    (priorSummaries : List PriorCompactionSummary) (hbudget : 1 ≤ budgetTokens) :
    Carried budgetTokens (summaryTexts json messages budgetTokens priorSummaries) := by
  rw [summaryTexts]
  split
  · exact .single (fitSummaryTokens_spec hbudget).1
  · have hheader := (@fitSummaryTokens_spec (summaryHeader messages.length) _ hbudget).1
    dsimp only
    split
    · next hroom =>
        have hbodies := @appendBodies_carried _
          ((priorTable messages priorSummaries).toList.map (fun row => withoutHeading row.2)) _ hheader
        refine .append hbodies (appendBodies_front hroom) mem_appendRows ?_
        exact appendRows_carried (hbodies.fits _ hbodies.last)
    · exact appendBodies_carried hheader

end

/-- The result is within the budget, and holds what `summary` held at any time. -/
theorem carried_texts_kept (json : JsonText) (messages : List Message) (budgetTokens : Nat)
    (priorSummaries : List PriorCompactionSummary) (hbudget : 1 ≤ budgetTokens) :
    estimateTokens (compactMessagesWithPriorSummaries json messages budgetTokens priorSummaries) ≤
        budgetTokens ∧
      ∀ text ∈ summaryTexts json messages budgetTokens priorSummaries,
        trimEnd text <+:
          compactMessagesWithPriorSummaries json messages budgetTokens priorSummaries := by
  have hcarried := summaryTexts_carried json messages priorSummaries hbudget
  exact ⟨hcarried.fits _ hcarried.last, hcarried.kept⟩

/-- Two messages, and the summary of an earlier pass at the place of the first. -/
def afterOnePass : List Message :=
  [{ role := .system, content := "", timestamp := 0 },
    { role := .user, content := "go on", timestamp := 1 }]

theorem carried_texts_kept_onePass : 1 ≤ 60 ∧
    estimateTokens (compactMessagesWithPriorSummaries ⟨fun _ => none, fun _ => ""⟩ afterOnePass 60
      [⟨0, "> User: read the log".toList⟩]) ≤ 60 ∧
    ∀ text ∈ summaryTexts ⟨fun _ => none, fun _ => ""⟩ afterOnePass 60
        [⟨0, "> User: read the log".toList⟩],
      trimEnd text <+: compactMessagesWithPriorSummaries ⟨fun _ => none, fun _ => ""⟩ afterOnePass 60
        [⟨0, "> User: read the log".toList⟩] :=
  ⟨by decide, carried_texts_kept _ afterOnePass 60 _ (by decide)⟩

end Octos.Agent
