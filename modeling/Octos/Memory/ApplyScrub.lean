/-
# `Octos.Memory.ApplyScrub` — a hard delete leaves no trace

A line is a trace of a deleted entry when it holds the entry's id, or when what
is left of it without bookkeeping is what is left of one of the entry's lines.
Every step of `apply_plan` that writes a file lets through only lines that no
scrub target matches, or writes what no deleted id or line is in.  So the
property travels along the steps file by file (`AllLines`).

The scrub set of an entry is computed from its whole text, and a candidate line
is compared on its own.  A stamp that is opened on one line and closed on a
later one joins the two lines in the first reading and not in the second: the
lines of such an entry are not found.  `Closed` excludes it.
-/
import Octos.Memory.Apply

namespace Octos.Memory

open Text

/-! ## Bookkeeping and the ends of lines -/

/-- A carriage return is in no id token. -/
theorem startsIdToken_concat (text : List Char) :
    startsIdToken (text ++ ['\r']) = startsIdToken text := by
  by_cases hlen : 8 ≤ text.length
  · have htake : (text ++ ['\r']).take 8 = text.take 8 := List.take_append_of_le_length hlen
    simp [startsIdToken, htake, hlen, Nat.le_succ_of_le hlen]
  · have hfalse : startsIdToken text = false := by simp [startsIdToken, hlen]
    rw [hfalse]
    by_cases hseven : text.length = 7
    · -- the eighth character would be the carriage return
      rcases text with _ | ⟨a, _ | ⟨b, rest⟩⟩
      · cases hseven
      · cases hseven
      · have htake : ((a :: b :: rest) ++ ['\r']).take 8 = a :: b :: (rest ++ ['\r']) :=
          List.take_of_length_le (by simp at hseven ⊢; omega)
        have hcr : (rest ++ ['\r']).all isIdChar = false := by simp [isIdChar]
        rw [startsIdToken, htake]
        unfold isIdToken
        split
        · next heq =>
            obtain ⟨-, -, rfl⟩ := by simpa using heq
            simp [hcr]
        · simp
    · have hshort : ¬ 8 ≤ text.length + 1 := by omega
      simp [startsIdToken, hshort]

theorem stripIdTokensFrom_concat : ∀ {text : List Char} {skip : Nat}, skip ≤ text.length →
    stripIdTokensFrom skip (text ++ ['\r']) = stripIdTokensFrom skip text ++ ['\r'] := by
  intro text
  induction text with
  | nil =>
      intro skip hskip
      obtain rfl : skip = 0 := by simpa using hskip
      rfl
  | cons ch text ih =>
      intro skip hskip
      cases skip with
      | succ skip => exact ih (by simpa using hskip)
      | zero =>
          have hstart : startsIdToken (ch :: (text ++ ['\r'])) = startsIdToken (ch :: text) :=
            startsIdToken_concat (ch :: text)
          rw [List.cons_append, stripIdTokensFrom, stripIdTokensFrom, hstart]
          split
          · next h =>
              simp only [startsIdToken, Bool.and_eq_true, decide_eq_true_eq, List.length_cons] at h
              exact ih (by omega)
          · rw [ih (Nat.zero_le _)]
            rfl

theorem stripIdTokensFrom_subset : ∀ (text : List Char) (skip : Nat),
    stripIdTokensFrom skip text ⊆ text := by
  intro text
  induction text with
  | nil =>
      intro skip
      cases skip <;> exact List.Subset.refl _
  | cons x text ih =>
      intro skip
      cases skip with
      | succ skip => exact List.Subset.trans (ih skip) (List.subset_cons_self _ _)
      | zero =>
          rw [stripIdTokensFrom]
          split
          · exact List.Subset.trans (ih _) (List.subset_cons_self _ _)
          · exact List.cons_subset_cons _ (ih 0)

theorem stripBookkeeping_subset (text : List Char) : stripBookkeeping text ⊆ text := by
  refine List.Subset.trans (removeFrom_subset _ _ 0) ?_
  refine List.Subset.trans (removeGroupsFrom_subset _ _ _) ?_
  exact List.Subset.trans (removeGroupsFrom_subset _ _ _) (stripIdTokensFrom_subset _ 0)

/-- A trailing carriage return stays at the end or goes with an open stamp. -/
theorem stripBookkeeping_concat (text : List Char) :
    stripBookkeeping (text ++ ['\r']) = stripBookkeeping text ∨
      stripBookkeeping (text ++ ['\r']) = stripBookkeeping text ++ ['\r'] := by
  have hids : stripAllIdTokens (text ++ ['\r']) = stripAllIdTokens text ++ ['\r'] :=
    stripIdTokensFrom_concat (Nat.zero_le _)
  have hmarker : ∀ t, removeAll "(unverified)".toList (t ++ ['\r']) =
      removeAll "(unverified)".toList t ++ ['\r'] :=
    fun t => removeFrom_concat (by decide) (by decide) (Nat.zero_le _)
  have himported := fun t => @removeGroups_concat "(imported:".toList '\r' (by decide) (by decide)
    (by decide) t
  rw [stripBookkeeping, stripBookkeeping, hids]
  rcases @removeGroups_concat "(updated:".toList '\r' (by decide) (by decide) (by decide)
    (stripAllIdTokens text) with h | h
  · rw [h]
    exact Or.inl rfl
  · rw [h]
    rcases himported (removeGroups "(updated:".toList (stripAllIdTokens text)) with h' | h'
    · rw [h']
      exact Or.inl rfl
    · rw [h', hmarker]
      exact Or.inr rfl

/-- The content of a text without newline: at most one line. -/
theorem foldedLines_line {line : List Char} (h : '\n' ∉ line) :
    foldedLines line = if (foldWhitespace line).isEmpty then [] else [foldWhitespace line] := by
  have hlines : lines line = if line.isEmpty then [] else [line] := by
    simp [lines, lastLine, List.splitOn_eq_singleton h]
  cases line with
  | nil => rfl
  | cons ch line =>
      simp only [foldedLines, hlines]
      cases hfold : (foldWhitespace (ch :: line)).isEmpty with
      | true => simp [hfold]
      | false => simp [hfold]

theorem foldedLines_concat {line : List Char} (h : '\n' ∉ line) :
    foldedLines (line ++ ['\r']) = foldedLines line := by
  have hcr : '\n' ∉ line ++ ['\r'] := by simp [h]
  rw [foldedLines_line h, foldedLines_line hcr, foldWhitespace_concat (by decide)]

theorem newline_notMem_stripBookkeeping {line : List Char} (h : '\n' ∉ line) :
    '\n' ∉ stripBookkeeping line :=
  fun hin => h (stripBookkeeping_subset line hin)

theorem contentFoldedLines_concat {line : List Char} (h : '\n' ∉ line) :
    contentFoldedLines (line ++ ['\r']) = contentFoldedLines line := by
  unfold contentFoldedLines
  rcases stripBookkeeping_concat line with hs | hs
  · rw [hs]
  · rw [hs, foldedLines_concat (newline_notMem_stripBookkeeping h)]

/-- The content of a line does not depend on its carriage return. -/
theorem contentFoldedLines_stripCr {line : List Char} (h : '\n' ∉ line) :
    contentFoldedLines (stripCr line) = contentFoldedLines line := by
  unfold stripCr
  split
  · next hlast =>
      have hsplit : line = line.dropLast ++ ['\r'] := by
        rw [List.dropLast_append_getLast?]
        exact hlast
      have hnl : '\n' ∉ line.dropLast := fun hin => h (List.dropLast_subset _ hin)
      conv_rhs => rw [hsplit]
      exact (contentFoldedLines_concat hnl).symm
  · rfl

/-- A line has at most one content line. -/
theorem contentFoldedLines_head {line c : List Char} (h : '\n' ∉ line)
    (hc : c ∈ contentFoldedLines line) : (contentFoldedLines line).head? = some c := by
  unfold contentFoldedLines at hc ⊢
  rw [foldedLines_line (newline_notMem_stripBookkeeping h)] at hc ⊢
  split at hc
  · cases hc
  · next hne =>
      obtain rfl := List.mem_singleton.mp hc
      rw [if_neg hne]
      rfl

/-! ## Traces -/

/-- A trace of a deleted entry: its id, or the content of one of its lines. -/
def Trace (deleted : List Entry) (line : List Char) : Prop :=
  ∃ e ∈ deleted, contains e.id.toList line = true ∨
    ∃ l ∈ lines e.text, ∃ c ∈ contentFoldedLines l, c ∈ contentFoldedLines line

/-- No trace of any deleted entry. -/
def Clean (deleted : List Entry) (line : List Char) : Prop :=
  ¬ Trace deleted line

/-- A plan that hard-deletes the entries `deleted`: its scrub targets are their
ids and folded lines, no published entry has such an id, and ids are id
tokens. -/
structure Deletes (plan : ApplyPlan) (deleted : List Entry) : Prop where
  some : deleted ≠ []
  targets : plan.hardDeletes.map (fun t => (t.entryId, t.foldedLines)) =
    deleted.map (fun e => (e.id, contentFoldedLines e.text))
  gone : ∀ e ∈ plan.finalEntries, ∀ d ∈ deleted, e.id ≠ d.id
  tokens : ∀ e ∈ deleted ++ plan.finalEntries, isIdToken e.id.toList = true

/-- The content of every line of a deleted entry is in a scrub set. -/
def Closed (deleted : List Entry) : Prop :=
  ∀ e ∈ deleted, ∀ l ∈ lines e.text, ∀ c ∈ contentFoldedLines l,
    ∃ e' ∈ deleted, c ∈ contentFoldedLines e'.text

/-- The pending notes a plan rewrites are host notes. -/
def PendingHost (plan : ApplyPlan) : Prop :=
  ∀ r ∈ plan.pendingRewrites, r.1.dir = ["staging", "notes"] ∧ r.1.isBackup = false ∧
    frontmatterDeclaresHost r.2 = true

section Lines

variable {deleted : List Entry} (htokens : ∀ e ∈ deleted, isIdToken e.id.toList = true)

theorem isIdToken_ne_nil {token : List Char} (h : isIdToken token = true) : token ≠ [] := by
  rintro rfl
  cases h

include htokens in
theorem clean_lineProp : LineProp (Clean deleted) where
  empty := by
    rintro ⟨e, he, hid | ⟨l, -, c, -, hc⟩⟩
    · have hnil := List.infix_nil.mp (contains_iff.mp hid)
      exact isIdToken_ne_nil (htokens e he) hnil
    · cases hc
  cr := by
    rintro line hnl hclean ⟨e, he, hid | ⟨l, hl, c, hcl, hc⟩⟩
    · refine hclean ⟨e, he, Or.inl (contains_iff.mpr ?_)⟩
      refine (contains_iff.mp hid).trans ?_
      unfold stripCr
      split
      · exact (List.dropLast_prefix line).isInfix
      · exact List.infix_rfl
    · rw [contentFoldedLines_stripCr hnl] at hc
      exact hclean ⟨e, he, Or.inr ⟨l, hl, c, hcl, hc⟩⟩

end Lines

/-- A line that no target matches is clean. -/
theorem clean_of_not_scrubbed {plan : ApplyPlan} {deleted : List Entry} (hplan : Deletes plan deleted)
    (hclosed : Closed deleted) {line : List Char} (hnl : '\n' ∉ line)
    (h : scrubbed plan.hardDeletes line = false) : Clean deleted line := by
  have htarget : ∀ e ∈ deleted, ∃ t ∈ plan.hardDeletes, t.entryId = e.id ∧
      t.foldedLines = contentFoldedLines e.text := by
    intro e he
    have hin : (e.id, contentFoldedLines e.text) ∈
        plan.hardDeletes.map (fun t => (t.entryId, t.foldedLines)) := by
      rw [hplan.targets]
      exact List.mem_map_of_mem he
    obtain ⟨t, ht, heq⟩ := List.mem_map.mp hin
    exact ⟨t, ht, (Prod.mk.inj heq).1, (Prod.mk.inj heq).2⟩
  have hno : ∀ t ∈ plan.hardDeletes, t.lineMatches line = false := by
    intro t ht
    have := List.any_eq_false.mp h t ht
    simpa using this
  rintro ⟨e, he, hid | ⟨l, hl, c, hcl, hc⟩⟩
  · obtain ⟨t, ht, htid, -⟩ := htarget e he
    have hmatch := hno t ht
    simp [ScrubTarget.lineMatches, htid, hid] at hmatch
  · obtain ⟨e', he', hc'⟩ := hclosed e he l hl c hcl
    obtain ⟨t, ht, -, hfolded⟩ := htarget e' he'
    have hmatch := hno t ht
    simp [ScrubTarget.lineMatches, contentFoldedLines_head hnl hc, hfolded, hc'] at hmatch

/-! ### The stamp of a survivor -/

/-- An id token has its only caret in front. -/
theorem isIdToken_caret {token rest : List Char} (h : isIdToken token = true)
    (heq : token = '^' :: rest) : '^' ∉ rest := by
  unfold isIdToken at h
  split at h
  · next ids =>
      obtain rfl : 'm' :: ids = rest := by simpa using heq
      simp only [Bool.and_eq_true, List.all_eq_true] at h
      intro hin
      rcases List.mem_cons.mp hin with hm | hin
      · cases hm
      · exact absurd (h.2 '^' hin) (by decide)
  · cases h

theorem isIdToken_form {token : List Char} (h : isIdToken token = true) :
    ∃ rest, token = '^' :: rest ∧ rest.length = 7 := by
  unfold isIdToken at h
  split at h
  · next ids =>
      simp only [Bool.and_eq_true, beq_iff_eq] at h
      exact ⟨'m' :: ids, rfl, by simp [h.1]⟩
  · cases h

theorem isIdToken_newline {token : List Char} (h : isIdToken token = true) : '\n' ∉ token := by
  unfold isIdToken at h
  split at h
  · simp only [Bool.and_eq_true, List.all_eq_true] at h
    intro hin
    rcases List.mem_cons.mp hin with hin | hin
    · cases hin
    · rcases List.mem_cons.mp hin with hin | hin
      · cases hin
      · exact absurd (h.2 _ hin) (by decide)
  · cases h

/-- What begins with a caret is behind a text without carets. -/
theorem infix_after_caretless {before d rest : List Char} (hbefore : '^' ∉ before)
    (h : '^' :: d <:+: before ++ rest) : '^' :: d <:+: rest := by
  induction before with
  | nil => exact h
  | cons x before ih =>
      have hx : '^' ≠ x := fun h => hbefore (h ▸ List.mem_cons_self)
      refine ih (fun hin => hbefore (List.mem_cons_of_mem _ hin)) ?_
      rcases List.infix_cons_iff.mp h with ⟨t, heq⟩ | hin
      · exact absurd (List.cons.inj heq).1 hx
      · exact hin

/-- Tokens do not overlap. -/
theorem idToken_in_append {d token rest : List Char} (hd : isIdToken d = true)
    (htoken : isIdToken token = true) (h : d <:+: token ++ rest) : d = token ∨ d <:+: rest := by
  obtain ⟨trest, rfl, hlen⟩ := isIdToken_form htoken
  obtain ⟨drest, rfl, hdlen⟩ := isIdToken_form hd
  rcases List.infix_cons_iff.mp h with ⟨t, heq⟩ | hin
  · left
    have hsplit : drest ++ t = trest ++ rest := (List.cons.inj heq).2
    rw [(List.append_inj hsplit (hdlen.trans hlen.symm)).1]
  · exact Or.inr (infix_after_caretless (isIdToken_caret htoken rfl) hin)

/-- A token in a text whose only caret begins another token is that token. -/
theorem idToken_in_stamp {before d token : List Char} (hbefore : '^' ∉ before)
    (hd : isIdToken d = true) (htoken : isIdToken token = true) (h : d <:+: before ++ token) :
    d = token := by
  obtain ⟨drest, rfl, -⟩ := isIdToken_form hd
  have hin := infix_after_caretless hbefore h
  rw [← List.append_nil token] at hin
  rcases idToken_in_append hd htoken hin with heq | hnil
  · exact heq
  · exact absurd (List.infix_nil.mp hnil) (List.cons_ne_nil _ _)

/-- A token in front is removed as a whole. -/
theorem stripIdTokensFrom_token {token : List Char} (htoken : isIdToken token = true)
    (rest : List Char) : stripIdTokensFrom 0 (token ++ rest) = stripIdTokensFrom 0 rest := by
  have hdrop : ∀ (skipped text : List Char),
      stripIdTokensFrom skipped.length (skipped ++ text) = stripIdTokensFrom 0 text := by
    intro skipped
    induction skipped with
    | nil => exact fun _ => rfl
    | cons ch skipped ih => exact fun text => ih text
  obtain ⟨trest, rfl, hlen⟩ := isIdToken_form htoken
  have htake : (('^' :: trest) ++ rest).take 8 = '^' :: trest :=
    List.take_left' (by simp [hlen])
  have hstart : startsIdToken ('^' :: (trest ++ rest)) = true := by
    rw [← List.cons_append, startsIdToken, htake, htoken]
    simp [hlen]
  rw [List.cons_append, stripIdTokensFrom, if_pos hstart, ← hlen]
  exact hdrop trest rest

/-- A token behind a text without carets is the only one. -/
theorem stripAllIdTokens_stamp {before token : List Char} (hbefore : '^' ∉ before)
    (htoken : isIdToken token = true) : stripAllIdTokens (before ++ token) = before := by
  unfold stripAllIdTokens
  induction before with
  | nil =>
      have hstrip := stripIdTokensFrom_token htoken []
      rw [List.append_nil] at hstrip
      exact hstrip
  | cons x before ih =>
      have hx : '^' ≠ x := fun h => hbefore (h ▸ List.mem_cons_self)
      have hstart : startsIdToken (x :: (before ++ token)) = false := by
        unfold startsIdToken isIdToken
        split
        · next heq => exact absurd (List.cons.inj heq).1.symm hx
        · exact Bool.and_false _
      rw [List.cons_append, stripIdTokensFrom, hstart]
      simp only [Bool.false_eq_true, if_false]
      rw [ih (fun hin => hbefore (List.mem_cons_of_mem _ hin))]

/-- The line a survivor is stamped with. -/
def stampLine (today : Date) (id : String) : List Char :=
  "(updated: ".toList ++ today.text ++ ") ".toList ++ id.toList

/-- A date is digits and dashes. -/
theorem notMem_dateText {ch : Char} (today : Date) (hdigit : ch.isDigit = false) (hdash : ch ≠ '-') :
    ch ∉ today.text := by
  have hpad : ∀ w n, ch ∉ Digits.pad w n := by
    intro w n h
    rw [Digits.isDigit_of_mem_pad h] at hdigit
    cases hdigit
  simp [Date.text, hpad, hdash]

theorem contentFoldedLines_stampLine (today : Date) {id : String} (hid : isIdToken id.toList = true) :
    contentFoldedLines (stampLine today id) = [] := by
  have hcaret : '^' ∉ today.text := notMem_dateText today (by decide) (by decide)
  have hclose : ')' ∉ today.text := notMem_dateText today (by decide) (by decide)
  have hbefore : '^' ∉ "(updated: ".toList ++ today.text ++ ") ".toList := by
    intro hin
    rcases List.mem_append.mp hin with hin | hin
    · rcases List.mem_append.mp hin with hin | hin
      · exact absurd hin (by decide)
      · exact hcaret hin
    · exact absurd hin (by decide)
  have hids : stripAllIdTokens (stampLine today id) =
      "(updated:".toList ++ ((' ' :: today.text) ++ ')' :: [' ']) := by
    refine (stripAllIdTokens_stamp hbefore hid).trans ?_
    generalize today.text = date
    simp
  have hinside : ')' ∉ ' ' :: today.text := by
    intro hin
    rcases List.mem_cons.mp hin with hin | hin
    · cases hin
    · exact hclose hin
  have hgroup := @removeGroups_group "(updated:".toList (by decide) _ hinside [' '] (by decide)
  rw [contentFoldedLines, stripBookkeeping, hids, hgroup]
  decide

/-! ### Other ids in the same places

A line with all its ids exchanged for one that is not deleted reads the same and
names no deleted entry. -/

/-- The text with `token` for each id token; `skip` is what is left of the one
being exchanged. -/
def exchangeIdsFrom (token : List Char) : Nat → List Char → List Char
  | _, [] => []
  | skip + 1, _ :: text => exchangeIdsFrom token skip text
  | 0, ch :: text =>
      if startsIdToken (ch :: text) then token ++ exchangeIdsFrom token 7 text
      else ch :: exchangeIdsFrom token 0 text

section Exchange

variable {token : List Char} (htoken : isIdToken token = true)

include htoken in
/-- As long as no caret comes, nothing was exchanged. -/
theorem exchangeIdsFrom_take : ∀ (n : Nat) (text : List Char),
    '^' ∉ (exchangeIdsFrom token 0 text).take n →
      (exchangeIdsFrom token 0 text).take n = text.take n := by
  intro n text
  induction text generalizing n with
  | nil => exact fun _ => rfl
  | cons ch text ih =>
      intro h
      cases n with
      | zero => rfl
      | succ n =>
          rw [exchangeIdsFrom] at h ⊢
          split at h
          · obtain ⟨rest, rfl, -⟩ := isIdToken_form htoken
            exact absurd List.mem_cons_self h
          · next hstart =>
              rw [if_neg hstart]
              rw [List.take_succ_cons] at h ⊢
              rw [List.take_succ_cons, ih n (fun hin => h (List.mem_cons_of_mem _ hin))]

include htoken in
/-- Where no token starts, none starts afterwards. -/
theorem startsIdToken_exchange {ch : Char} {text : List Char}
    (h : startsIdToken (ch :: text) = false) :
    startsIdToken (ch :: exchangeIdsFrom token 0 text) = false := by
  rw [← Bool.not_eq_true] at h ⊢
  intro hstart
  refine h ?_
  simp only [startsIdToken, Bool.and_eq_true, decide_eq_true_eq] at hstart ⊢
  obtain ⟨hlen, hstart⟩ := hstart
  obtain ⟨rest, heq, -⟩ := isIdToken_form hstart
  rw [List.take_succ_cons] at heq hstart
  have hcaret := isIdToken_caret hstart heq
  obtain ⟨-, rfl⟩ := List.cons.inj heq
  have htake := exchangeIdsFrom_take htoken 7 text hcaret
  have hshort := congrArg List.length htake
  rw [List.length_take, List.length_take] at hshort
  rw [List.length_cons] at hlen
  refine ⟨by rw [List.length_cons]; omega, ?_⟩
  rw [List.take_succ_cons, ← htake]
  exact hstart

include htoken in
theorem stripIdTokensFrom_exchange : ∀ (text : List Char) (skip : Nat),
    stripIdTokensFrom 0 (exchangeIdsFrom token skip text) = stripIdTokensFrom skip text := by
  intro text
  induction text with
  | nil =>
      intro skip
      cases skip <;> rfl
  | cons ch text ih =>
      intro skip
      cases skip with
      | succ skip => exact ih skip
      | zero =>
          rw [exchangeIdsFrom, stripIdTokensFrom]
          cases hstart : startsIdToken (ch :: text) with
          | true =>
              simp only [if_true]
              rw [stripIdTokensFrom_token htoken, ih 7]
          | false =>
              simp only [Bool.false_eq_true, if_false]
              rw [stripIdTokensFrom, startsIdToken_exchange htoken hstart, ih 0]
              simp

include htoken in
theorem exchangeIdsFrom_token {d : List Char} (hd : isIdToken d = true) :
    ∀ (text : List Char) (skip : Nat), d <:+: exchangeIdsFrom token skip text → d = token := by
  obtain ⟨drest, heq, hlen⟩ := isIdToken_form hd
  intro text
  induction text with
  | nil =>
      intro skip h
      have hnil : d = [] := by
        cases skip <;> exact List.infix_nil.mp h
      rw [hnil] at heq
      cases heq
  | cons ch text ih =>
      intro skip h
      cases skip with
      | succ skip => exact ih skip h
      | zero =>
          rw [exchangeIdsFrom] at h
          split at h
          · rcases idToken_in_append hd htoken h with h | h
            · exact h
            · exact ih 7 h
          · next hstart =>
              rcases List.infix_cons_iff.mp h with ⟨t, hpre⟩ | h
              · -- a token at the front would have been exchanged
                have hfalse := startsIdToken_exchange htoken (Bool.not_eq_true _ ▸ hstart)
                have hdlen : d.length = 8 := by rw [heq, List.length_cons, hlen]
                rw [← hpre, startsIdToken, List.take_left' hdlen, hd] at hfalse
                simp [hdlen] at hfalse
              · exact ih 0 h

include htoken in
theorem newline_notMem_exchange : ∀ (text : List Char) (skip : Nat), '\n' ∉ text →
    '\n' ∉ exchangeIdsFrom token skip text := by
  intro text
  induction text with
  | nil =>
      intro skip h
      cases skip <;> exact h
  | cons ch text ih =>
      intro skip h
      have hrest : '\n' ∉ text := fun hin => h (List.mem_cons_of_mem _ hin)
      cases skip with
      | succ skip => exact ih skip hrest
      | zero =>
          rw [exchangeIdsFrom]
          split
          · intro hin
            rcases List.mem_append.mp hin with hin | hin
            · exact isIdToken_newline htoken hin
            · exact ih 7 hrest hin
          · intro hin
            rcases List.mem_cons.mp hin with rfl | hin
            · exact h List.mem_cons_self
            · exact ih 0 hrest hin

include htoken in
theorem contentFoldedLines_exchange (text : List Char) :
    contentFoldedLines (exchangeIdsFrom token 0 text) = contentFoldedLines text := by
  rw [contentFoldedLines, contentFoldedLines, stripBookkeeping, stripBookkeeping, stripAllIdTokens,
    stripAllIdTokens, stripIdTokensFrom_exchange htoken]

end Exchange

section Steps

variable {plan : ApplyPlan} {deleted : List Entry} (hplan : Deletes plan deleted)
  (hclosed : Closed deleted)

include hplan in
theorem lineProp : LineProp (Clean deleted) :=
  clean_lineProp (fun e he => hplan.tokens e (List.mem_append_left _ he))

include hplan hclosed in
theorem keptLines_clean {text line : List Char} (h : line ∈ keptLines plan.hardDeletes text) :
    '\n' ∉ line ∧ Clean deleted line := by
  obtain ⟨hline, hkept⟩ := List.mem_filter.mp h
  have hnl := newline_notMem_of_mem_lines hline
  exact ⟨hnl, clean_of_not_scrubbed hplan hclosed hnl (by simpa using hkept)⟩

include hplan hclosed in
/-- The kept lines of a text, joined again. -/
theorem unlines_keptLines_clean (text : List Char) :
    AllLines (Clean deleted) (unlines (keptLines plan.hardDeletes text)) :=
  AllLines.unlines (lineProp hplan) (fun _ h => keptLines_clean hplan hclosed h)

include hplan in
theorem joinBlocks_clean {blocks : List (List Char)} (h : ∀ b ∈ blocks, AllLines (Clean deleted) b) :
    AllLines (Clean deleted) (joinBlocks blocks) :=
  (AllLines.paragraphs (lineProp hplan) h).concat_newline (lineProp hplan)

include hplan hclosed in
/-- A block file with the scrub targets applied. -/
theorem rewriteBlockFile_clean {drop : Bool} {removals : List (List Char)} {content out : List Char}
    (h : rewriteBlockFile removals plan.hardDeletes drop content = some out) :
    AllLines (Clean deleted) out := by
  rw [rewriteBlockFile] at h
  split at h
  · cases h
  · obtain rfl := Option.some.inj h
    refine joinBlocks_clean hplan ?_
    intro b hb
    obtain ⟨block, -, hkeep⟩ := List.mem_filterMap.mp hb
    simp only [keepBlock] at hkeep
    split at hkeep
    · cases hkeep
    · split at hkeep
      · cases hkeep
      · split at hkeep
        · cases hkeep
        · obtain rfl := Option.some.inj hkeep
          exact unlines_keptLines_clean hplan hclosed block

/-- The lines of a block are lines of its file. -/
theorem splitBlocksFrom_all {P : List Char → Prop} (hP : LineProp P) :
    ∀ {ls current : List (List Char)}, (∀ l ∈ current ++ ls, '\n' ∉ l ∧ P l) →
      ∀ block ∈ splitBlocksFrom current ls, AllLines P block := by
  intro ls
  induction ls with
  | nil =>
      intro current h block hblock
      rw [splitBlocksFrom] at hblock
      split at hblock
      · cases hblock
      · obtain rfl := List.mem_singleton.mp hblock
        exact AllLines.unlines hP (fun l hl => h l (List.mem_append_left _ hl))
  | cons line ls ih =>
      intro current h block hblock
      have hrest : ∀ l ∈ [] ++ ls, '\n' ∉ l ∧ P l := by
        intro l hl
        exact h l (List.mem_append_right _ (List.mem_cons_of_mem _ hl))
      rw [splitBlocksFrom] at hblock
      split at hblock
      · split at hblock
        · exact ih hrest block hblock
        · rcases List.mem_cons.mp hblock with rfl | hblock
          · exact AllLines.unlines hP (fun l hl => h l (List.mem_append_left _ hl))
          · exact ih hrest block hblock
      · refine ih ?_ block hblock
        intro l hl
        refine h l ?_
        simpa using hl

theorem splitBlocks_all {P : List Char → Prop} (hP : LineProp P) {content : List Char}
    (h : AllLines P content) : ∀ block ∈ splitBlocks content, AllLines P block :=
  splitBlocksFrom_all hP (fun l hl => ⟨newline_notMem_of_mem_lines hl, h l hl⟩)

include hplan in
/-- A rewrite without scrub targets adds no line. -/
theorem rewriteBlockFile_keeps {removals : List (List Char)} {content out : List Char}
    (hcontent : AllLines (Clean deleted) content)
    (h : rewriteBlockFile removals [] false content = some out) : AllLines (Clean deleted) out := by
  have hP := lineProp hplan
  rw [rewriteBlockFile] at h
  split at h
  · cases h
  · obtain rfl := Option.some.inj h
    refine joinBlocks_clean hplan ?_
    intro b hb
    obtain ⟨block, hblock, hkeep⟩ := List.mem_filterMap.mp hb
    have hlines := splitBlocks_all hP hcontent block hblock
    simp only [keepBlock, List.any_nil, Bool.and_false] at hkeep
    split at hkeep
    · cases hkeep
    · split at hkeep
      · next hc => cases hc
      · split at hkeep
        · cases hkeep
        · obtain rfl := Option.some.inj hkeep
          refine AllLines.unlines hP ?_
          intro l hl
          have hmem := (List.mem_filter.mp hl).1
          exact ⟨newline_notMem_of_mem_lines hmem, hlines l hmem⟩

include hplan hclosed in
theorem scrubDailyNote_clean {content out : List Char}
    (h : scrubDailyNote plan.hardDeletes content = some out) : AllLines (Clean deleted) out := by
  rw [scrubDailyNote] at h
  split at h
  · cases h
  · obtain rfl := Option.some.inj h
    exact (unlines_keptLines_clean hplan hclosed content).concat_newline (lineProp hplan)

include hplan hclosed in
/-- A staging file that stays although it is not exempt is clean. -/
theorem staging_clean {content : List Char} (h : stagingFileMatches plan.hardDeletes content = false) :
    AllLines (Clean deleted) content := by
  intro line hline
  have hno := List.any_eq_false.mp h line hline
  exact clean_of_not_scrubbed hplan hclosed (newline_notMem_of_mem_lines hline) (by simpa using hno)

include hplan hclosed in
theorem appendBlocks_clean : ∀ {appends blocks : List (List Char)},
    (∀ b ∈ blocks, AllLines (Clean deleted) b) →
      ∀ b ∈ plan.appendBlocks blocks appends, AllLines (Clean deleted) b := by
  intro appends
  induction appends with
  | nil => exact fun h => h
  | cons block appends ih =>
      intro blocks h
      rw [ApplyPlan.appendBlocks]
      cases hclean : plan.cleanAppend block with
      | none => exact ih h
      | some cleaned =>
          refine ih ?_
          have hcleaned : AllLines (Clean deleted) cleaned := by
            simp only [ApplyPlan.cleanAppend] at hclean
            split at hclean
            · cases hclean
            · split at hclean
              · cases hclean
              · obtain rfl := Option.some.inj hclean
                exact unlines_keptLines_clean hplan hclosed block
          intro b hb
          split at hb
          · exact h b hb
          · rcases List.mem_append.mp hb with hb | hb
            · exact h b hb
            · obtain rfl := List.mem_singleton.mp hb
              exact hcleaned

include hplan in
/-- The stamp of a survivor names no deleted entry. -/
theorem stampLine_clean (today : Date) {entry : Entry} (he : entry ∈ plan.finalEntries) :
    '\n' ∉ stampLine today entry.id ∧ Clean deleted (stampLine today entry.id) := by
  have htoken := hplan.tokens entry (List.mem_append_right _ he)
  have hdate : ∀ {ch : Char}, ch.isDigit = false → ch ≠ '-' → ch ∉ today.text :=
    fun h h' => notMem_dateText today h h'
  have hfront : ∀ ch ∈ ['\n', '^'], ch ∉ "(updated: ".toList ++ today.text ++ ") ".toList := by
    intro ch hch hin
    have hstart : ch ∉ "(updated: ".toList ∧ ch ∉ ") ".toList ∧ ch ∉ today.text := by
      rcases List.mem_pair.mp hch with rfl | rfl
      · exact ⟨by decide, by decide, hdate (by decide) (by decide)⟩
      · exact ⟨by decide, by decide, hdate (by decide) (by decide)⟩
    rcases List.mem_append.mp hin with hin | hin
    · rcases List.mem_append.mp hin with hin | hin
      · exact hstart.1 hin
      · exact hstart.2.2 hin
    · exact hstart.2.1 hin
  refine ⟨?_, ?_⟩
  · intro hin
    rcases List.mem_append.mp hin with hin | hin
    · exact hfront '\n' (by simp) hin
    · exact isIdToken_newline htoken hin
  · rintro ⟨d, hd, hid | ⟨l, -, c, -, hc⟩⟩
    · have hdtoken := hplan.tokens d (List.mem_append_left _ hd)
      have heq := idToken_in_stamp (hfront '^' (by simp)) hdtoken htoken (contains_iff.mp hid)
      exact hplan.gone entry he d hd (String.toList_inj.mp heq.symm)
    · rw [contentFoldedLines_stampLine today htoken] at hc
      cases hc

include hplan hclosed in
theorem publishEntry_clean {today : Date} {entry out : Entry} (he : entry ∈ plan.finalEntries)
    (h : plan.publishEntry today entry = some out) : AllLines (Clean deleted) out.text := by
  have hkept := unlines_keptLines_clean hplan hclosed entry.text
  simp only [ApplyPlan.publishEntry] at h
  split at h
  · cases h
  · split at h
    · cases h
    · split at h
      · obtain rfl := Option.some.inj h
        have hstamp := stampLine_clean hplan today he
        exact hkept.append_newline (lineProp hplan) (.of_line hstamp.1 hstamp.2)
      · obtain rfl := Option.some.inj h
        exact hkept

include hplan hclosed in
/-- The published `MEMORY.md`. -/
theorem renderMemoryMd_clean (today : Date) :
    AllLines (Clean deleted)
      (ApplyPlan.renderMemoryMd (plan.finalEntries.filterMap (plan.publishEntry today))) := by
  unfold ApplyPlan.renderMemoryMd
  split
  · exact allLines_nil
  · refine joinBlocks_clean hplan ?_
    intro text htext
    obtain ⟨out, hout, rfl⟩ := List.mem_map.mp htext
    obtain ⟨entry, he, hpub⟩ := List.mem_filterMap.mp hout
    exact publishEntry_clean hplan hclosed he hpub

end Steps

end Octos.Memory
