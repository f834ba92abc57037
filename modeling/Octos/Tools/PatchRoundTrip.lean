/-
# `Octos.Tools.PatchRoundTrip` — what is printed is read back

The envelope of a list of operations is read as that list, whatever the text of
its lines; and a text with anything but blank lines before its begin line or
after its end line is not read.

The induction is on the operations.  What it carries is the list that a section
would be closed to: a directive closes the section before it, so an operation is
in the list as soon as its last line has been read (`run_op`).
-/
import Octos.Tools.PatchEnvelope

namespace Octos.Tools

open Text

/-! ## Lines and directives -/

variable {n : Nat} {line path : List Char} {st : Parser}

theorem stripStart_append (start rest : List Char) : stripStart start (start ++ rest) = some rest := by
  rw [stripStart, if_pos (List.prefix_append _ _), List.drop_left]

theorem stripStart_none {start : List Char} (h : ¬start <+: line) : stripStart start line = none :=
  if_neg h

/-- A line that does not begin with a star is no directive. -/
theorem not_prefix_of_head {start : List Char} (h : line.head? ≠ some '*') : ¬ '*' :: start <+: line := by
  rintro ⟨rest, rfl⟩
  exact h rfl

theorem step_body (hend : st.sawEnd = false) (h : line.head? ≠ some '*') :
    step n line st = (bodyLine n line st.current).map (fun current => { st with current := current }) := by
  have hne : ∀ {start : List Char}, line ≠ '*' :: start := by
    rintro start rfl
    exact h rfl
  have hnone : ∀ {start : List Char}, stripStart ('*' :: start) line = none :=
    stripStart_none (not_prefix_of_head h)
  have hstar : ¬"***".toList <+: line := not_prefix_of_head h
  unfold step
  rw [if_neg (by simp [hend]), if_neg (show line ≠ endPatch from hne),
    show stripStart addFile line = none from hnone, show stripStart deleteFile line = none from hnone,
    show stripStart updateFile line = none from hnone, show stripStart moveFile line = none from hnone]
  simp only [if_neg (show line ≠ endOfFile from hne), if_neg hstar]
  cases bodyLine n line st.current <;> rfl

theorem IsName.directivePath {directive : String} (h : IsName path) :
    directivePath path directive n = .ok path := by
  have hne : (trim path).isEmpty = false := by
    rw [h.trimmed]
    simpa using h.nonempty
  simp only [Tools.directivePath, hne, if_neg Bool.false_ne_true]
  rw [h.trimmed]

/-- Directives differ in their fifth character. -/
theorem not_prefix_of_fifth {a b rest : List Char} (ha : 4 < a.length) (hb : 4 < b.length)
    (hne : a[4] ≠ b[4]) : ¬a <+: b ++ rest := by
  rintro ⟨more, hmore⟩
  have hfifth := congrArg (fun l => l[4]?) hmore
  simp only [List.getElem?_append_left ha, List.getElem?_append_left hb, List.getElem?_eq_getElem ha,
    List.getElem?_eq_getElem hb, Option.some.injEq] at hfifth
  exact hne hfifth

theorem stripStart_other {a b rest : List Char} (ha : 4 < a.length) (hb : 4 < b.length)
    (hne : a[4] ≠ b[4]) : stripStart a (b ++ rest) = none :=
  stripStart_none (not_prefix_of_fifth ha hb hne)

theorem ne_endPatch {b rest : List Char} (hend : 4 < endPatch.length) (hb : 4 < b.length)
    (hne : endPatch[4] ≠ b[4]) : b ++ rest ≠ endPatch := by
  intro h
  have hprefix : endPatch <+: b ++ rest := by rw [h]
  exact not_prefix_of_fifth hend hb hne hprefix

theorem step_add (hend : st.sawEnd = false) (hpath : IsName path) {ops : List PatchOp}
    (hops : finalize st.current st.ops = .ok ops) :
    step n (addFile ++ path) st = .ok { st with ops := ops, current := .add path [] } := by
  unfold step
  rw [if_neg (by simp [hend]), if_neg (ne_endPatch (by decide) (by decide) (by decide)), stripStart_append]
  simp only [hops, hpath.directivePath, bind, Except.bind]
  rfl

theorem step_delete (hend : st.sawEnd = false) (hpath : IsName path) {ops : List PatchOp}
    (hops : finalize st.current st.ops = .ok ops) :
    step n (deleteFile ++ path) st = .ok { st with ops := ops ++ [.delete path], current := .none } := by
  unfold step
  rw [if_neg (by simp [hend]), if_neg (ne_endPatch (by decide) (by decide) (by decide)),
    stripStart_other (by decide) (by decide) (by decide), stripStart_append]
  simp only [hops, hpath.directivePath, bind, Except.bind]
  rfl

theorem step_update (hend : st.sawEnd = false) (hpath : IsName path) {ops : List PatchOp}
    (hops : finalize st.current st.ops = .ok ops) :
    step n (updateFile ++ path) st = .ok { st with ops := ops, current := .update path none [] } := by
  unfold step
  rw [if_neg (by simp [hend]), if_neg (ne_endPatch (by decide) (by decide) (by decide)),
    stripStart_other (by decide) (by decide) (by decide), stripStart_other (by decide) (by decide) (by decide),
    stripStart_append]
  simp only [hops, hpath.directivePath, bind, Except.bind]
  rfl

theorem step_move {target : List Char} (hend : st.sawEnd = false) (htarget : IsName target)
    (hcurrent : st.current = .update path none []) :
    step n (moveFile ++ target) st = .ok { st with current := .update path (some target) [] } := by
  unfold step
  rw [if_neg (by simp [hend]), if_neg (ne_endPatch (by decide) (by decide) (by decide)),
    stripStart_other (by decide) (by decide) (by decide), stripStart_other (by decide) (by decide) (by decide),
    stripStart_other (by decide) (by decide) (by decide), stripStart_append]
  simp only [hcurrent, moveLine, htarget.directivePath, bind, Except.bind]
  rfl

theorem step_eof {moveTo : Option (List Char)} {hunks : List UpdateHunk} {h : UpdateHunk}
    (hend : st.sawEnd = false) (hcurrent : st.current = .update path moveTo (hunks ++ [h])) :
    step n endOfFile st = .ok { st with
      current := .update path moveTo (hunks ++ [{ h with atEof := true }]) } := by
  unfold step
  rw [if_neg (by simp [hend]), if_neg (by decide), stripStart_none (by decide), stripStart_none (by decide),
    stripStart_none (by decide), stripStart_none (by decide)]
  simp only [hcurrent, eofLine, pinLast, bind, Except.bind, List.dropLast_concat, List.getLast?_concat]
  simp
  rfl

theorem runFrom_append : ∀ {a b : List (List Char)} {n : Nat} {st st' : Parser}, runFrom n a st = .ok st' →
    runFrom n (a ++ b) st = runFrom (n + a.length) b st' := by
  intro a
  induction a with
  | nil =>
      intro b n st st' h
      obtain rfl := Except.ok.inj h
      rfl
  | cons line a ih =>
      intro b n st st' h
      rw [runFrom] at h
      rw [List.cons_append, runFrom]
      cases hstep : step (n + 1) line st with
      | error e =>
          rw [hstep] at h
          cases h
      | ok st₁ =>
          rw [hstep] at h
          have hrest := ih (b := b) h
          rw [List.length_cons, show n + (a.length + 1) = n + 1 + a.length by omega]
          exact hrest

theorem runFrom_cons {rest : List (List Char)} {st' : Parser} (h : step (n + 1) line st = .ok st') :
    runFrom n (line :: rest) st = runFrom (n + 1) rest st' := by
  rw [runFrom, h]
  rfl

/-! ## Sections -/

/-- The lines of a file that is added. -/
theorem run_content : ∀ {content acc : List (List Char)} {n : Nat} {st : Parser}, st.sawEnd = false →
    st.current = .add path acc → runFrom n (content.map (fun line => '+' :: line)) st =
      .ok { st with current := .add path (acc ++ content) } := by
  intro content
  induction content with
  | nil =>
      intro acc n st _ hcurrent
      rw [List.append_nil, ← hcurrent]
      rfl
  | cons line content ih =>
      intro acc n st hend hcurrent
      have hstep : step (n + 1) ('+' :: line) st = .ok { st with current := .add path (acc ++ [line]) } := by
        rw [step_body hend (by simp), hcurrent]
        rfl
      rw [List.map_cons, runFrom_cons hstep]
      have hrest := @ih (acc ++ [line]) (n + 1) { st with current := .add path (acc ++ [line]) } hend rfl
      rw [hrest, List.append_assoc]
      rfl

theorem hunkLine_printLine (l : DiffLine) : hunkLine n (printLine l) = .ok (some l) := by
  cases l <;> rfl

theorem printLine_head (l : DiffLine) : (printLine l).head? ≠ some '*' ∧ (printLine l).head? ≠ some '@' := by
  cases l <;> simp [printLine]

/-- The lines of a hunk. -/
theorem run_hunkLines {moveTo : Option (List Char)} {hunks : List UpdateHunk} {anchor : Option (List Char)} :
    ∀ {body acc : List DiffLine} {n : Nat} {st : Parser}, st.sawEnd = false →
      st.current = .update path moveTo (hunks ++ [{ anchor := anchor, lines := acc }]) →
      runFrom n (body.map printLine) st = .ok { st with
        current := .update path moveTo (hunks ++ [{ anchor := anchor, lines := acc ++ body }]) } := by
  intro body
  induction body with
  | nil =>
      intro acc n st _ hcurrent
      rw [List.append_nil, ← hcurrent]
      rfl
  | cons l body ih =>
      intro acc n st hend hcurrent
      obtain ⟨hstar, hat⟩ := printLine_head l
      have hmarker : stripStart "@@".toList (printLine l) = none := by
        refine stripStart_none ?_
        rintro ⟨rest, hrest⟩
        rw [← hrest] at hat
        exact hat rfl
      have hstep : step (n + 1) (printLine l) st = .ok { st with
          current := .update path moveTo (hunks ++ [{ anchor := anchor, lines := acc ++ [l] }]) } := by
        rw [step_body hend hstar, hcurrent, bodyLine, updateLine, hmarker]
        simp [hunkLine_printLine, pushLine, bind, Except.bind, Except.map]
      rw [List.map_cons, runFrom_cons hstep]
      have hrest := @ih (acc ++ [l]) (n + 1) { st with
        current := .update path moveTo (hunks ++ [{ anchor := anchor, lines := acc ++ [l] }]) } hend rfl
      rw [hrest, List.append_assoc]
      rfl

theorem isName_trim_space {a : List Char} (h : IsName a) : trim (' ' :: a) = a := by
  have hspace : isWhitespace ' ' = true := by decide
  rw [trim, List.dropWhile_cons_of_pos hspace]
  exact h.trimmed

theorem normalizeHunkAnchor_some {a : List Char} (h : IsName a) (hdash : a.head? ≠ some '-') :
    normalizeHunkAnchor (' ' :: a) = some a := by
  have hne : a.isEmpty = false := by simpa using h.nonempty
  simp [normalizeHunkAnchor, isName_trim_space h, hne, hdash]

/-- The marker of a hunk opens it. -/
theorem step_marker {moveTo : Option (List Char)} {hunks : List UpdateHunk} {h : UpdateHunk}
    (hh : h.Printable) (hend : st.sawEnd = false) (hcurrent : st.current = .update path moveTo hunks)
    (hpin : hunks.getLast?.any (fun h => h.atEof) = false) :
    step n (printMarker h.anchor) st =
      .ok { st with current := .update path moveTo (hunks ++ [{ anchor := h.anchor }]) } := by
  cases ha : h.anchor with
  | none =>
      show step n "@@".toList st = _
      rw [step_body hend (by decide), hcurrent, bodyLine, updateLine, hpin]
      rfl
  | some a =>
      obtain ⟨hname, hdash⟩ := hh.anchor a ha
      show step n ("@@".toList ++ ' ' :: a) st = _
      rw [step_body hend (by simp), hcurrent, bodyLine, updateLine, hpin]
      simp only [stripStart_append, normalizeHunkAnchor_some hname hdash]
      rfl

/-- **A hunk** is read back. -/
theorem run_hunk {moveTo : Option (List Char)} {hunks : List UpdateHunk} {h : UpdateHunk}
    (hh : h.Printable) (hend : st.sawEnd = false) (hcurrent : st.current = .update path moveTo hunks)
    (hpin : hunks.getLast?.any (fun h => h.atEof) = false) :
    runFrom n (printHunk h) st = .ok { st with current := .update path moveTo (hunks ++ [h]) } := by
  have hmarker := @step_marker (n + 1) path st moveTo hunks h hh hend hcurrent hpin
  obtain ⟨anchor, body, atEof⟩ := h
  have hlines : runFrom (n + 1) (body.map printLine)
      { st with current := .update path moveTo (hunks ++ [{ anchor := anchor }]) } =
      .ok { st with current := .update path moveTo (hunks ++ [{ anchor := anchor, lines := body }]) } :=
    @run_hunkLines path moveTo hunks anchor body [] (n + 1)
      { st with current := .update path moveTo (hunks ++ [{ anchor := anchor }]) } hend rfl
  rw [printHunk, List.cons_append, runFrom_cons hmarker, runFrom_append hlines]
  cases atEof with
  | false => rfl
  | true =>
      have heof : ∀ {n : Nat}, step n endOfFile
          { st with current := .update path moveTo (hunks ++ [{ anchor := anchor, lines := body }]) } =
          .ok { st with
            current := .update path moveTo (hunks ++ [{ anchor := anchor, lines := body, atEof := true }]) } := by
        intro n
        exact @step_eof n path _ moveTo hunks { anchor := anchor, lines := body } hend rfl
      rw [if_pos rfl, runFrom_cons heof]
      rfl

/-- All hunks of a section, of which only the last may be pinned. -/
theorem run_hunks {moveTo : Option (List Char)} : ∀ {more hunks : List UpdateHunk} {n : Nat} {st : Parser},
    (∀ h ∈ more, h.Printable) → (∀ h ∈ more.dropLast, h.atEof = false) → st.sawEnd = false →
    st.current = .update path moveTo hunks → (hunks.getLast?.any (fun h => h.atEof) = false) →
    runFrom n (more.flatMap printHunk) st = .ok { st with current := .update path moveTo (hunks ++ more) } := by
  intro more
  induction more with
  | nil =>
      intro hunks n st _ _ _ hcurrent _
      rw [List.append_nil, ← hcurrent]
      rfl
  | cons h more ih =>
      intro hunks n st hprint hpins hend hcurrent hpin
      rw [List.flatMap_cons, runFrom_append (run_hunk (hprint h List.mem_cons_self) hend hcurrent hpin)]
      cases more with
      | nil => rfl
      | cons h' more =>
          have hopen : h.atEof = false := hpins h (by simp [List.dropLast_cons_cons])
          have hrest := @ih (hunks ++ [h]) (n + (printHunk h).length)
            { st with current := .update path moveTo (hunks ++ [h]) }
            (fun k hk => hprint k (List.mem_cons_of_mem _ hk))
            (fun k hk => hpins k (by
              rw [List.dropLast_cons_cons]
              exact List.mem_cons_of_mem _ hk)) hend rfl (by simp [hopen])
          rw [hrest, List.append_assoc]
          rfl

/-! ## Operations -/

/-- A section with a body line or a move can be closed. -/
theorem finalize_update {moveTo : Option (List Char)} {hunks : List UpdateHunk} {ops : List PatchOp}
    (h : (∃ h ∈ hunks, h.lines ≠ []) ∨ moveTo.isSome) :
    finalize (.update path moveTo hunks) ops = .ok (ops ++ [.update path moveTo hunks]) := by
  rw [finalize, if_neg]
  rintro ⟨hempty, hmove⟩
  rcases h with ⟨hunk, hmem, hlines⟩ | hsome
  · exact hlines (by simpa using List.all_eq_true.mp hempty hunk hmem)
  · cases moveTo with
    | none => cases hsome
    | some target => cases hmove

/-- **An operation** is in the list that the section behind it would be closed to. -/
theorem run_op {op : PatchOp} {ops : List PatchOp} (hop : op.Printable) (hend : st.sawEnd = false)
    (hops : finalize st.current st.ops = .ok ops) :
    ∃ st', runFrom n (printOp op) st = .ok st' ∧ st'.sawEnd = false ∧
      finalize st'.current st'.ops = .ok (ops ++ [op]) := by
  cases op with
  | add path content =>
      obtain ⟨hpath, -⟩ := hop
      have hcontent : runFrom (n + 1) ((content.splitOn '\n').map (fun line => '+' :: line))
          { st with ops := ops, current := .add path [] } =
          .ok { st with ops := ops, current := .add path (content.splitOn '\n') } :=
        @run_content path _ [] (n + 1) { st with ops := ops, current := .add path [] } hend rfl
      refine ⟨{ st with ops := ops, current := .add path (content.splitOn '\n') }, ?_, hend, ?_⟩
      · rw [printOp, runFrom_cons (step_add hend hpath hops)]
        exact hcontent
      · show Except.ok (ops ++ [.add path (unlines (content.splitOn '\n'))]) = _
        rw [unlines, List.intercalate_splitOn]
  | delete path =>
      refine ⟨_, runFrom_cons (step_delete hend hop hops), hend, rfl⟩
  | update path moveTo hunks =>
      obtain ⟨hpath, hmove, hhunks, hpins, hbody⟩ := hop
      have hall : ∀ {n : Nat} {moveTo : Option (List Char)}, runFrom n (hunks.flatMap printHunk)
          { st with ops := ops, current := .update path moveTo [] } =
          .ok { st with ops := ops, current := .update path moveTo hunks } := by
        intro n moveTo
        exact @run_hunks path moveTo hunks [] n { st with ops := ops, current := .update path moveTo [] }
          hhunks hpins hend rfl rfl
      refine ⟨{ st with ops := ops, current := .update path moveTo hunks }, ?_, hend, finalize_update hbody⟩
      rw [printOp, List.cons_append, runFrom_cons (step_update hend hpath hops)]
      cases moveTo with
      | none => exact hall
      | some target =>
          have htarget : ∀ {n : Nat}, step n (moveFile ++ target)
              { st with ops := ops, current := .update path none [] } =
              .ok { st with ops := ops, current := .update path (some target) [] } := by
            intro n
            exact @step_move n path { st with ops := ops, current := .update path none [] } target hend
              (hmove target rfl) rfl
          rw [Option.map_some, Option.toList_some, List.singleton_append, runFrom_cons htarget]
          exact hall

theorem run_ops : ∀ {more ops : List PatchOp} {n : Nat} {st : Parser}, (∀ op ∈ more, op.Printable) →
    st.sawEnd = false → finalize st.current st.ops = .ok ops →
    ∃ st', runFrom n (more.flatMap printOp) st = .ok st' ∧ st'.sawEnd = false ∧
      finalize st'.current st'.ops = .ok (ops ++ more) := by
  intro more
  induction more with
  | nil =>
      intro ops n st _ hend hops
      exact ⟨st, rfl, hend, by rw [hops, List.append_nil]⟩
  | cons op more ih =>
      intro ops n st hmore hend hops
      obtain ⟨st₁, hrun₁, hend₁, hops₁⟩ := @run_op n st op ops (hmore op List.mem_cons_self) hend hops
      obtain ⟨st₂, hrun₂, hend₂, hops₂⟩ := @ih (ops ++ [op]) (n + (printOp op).length) st₁
        (fun k hk => hmore k (List.mem_cons_of_mem _ hk)) hend₁ hops₁
      refine ⟨st₂, ?_, hend₂, by rw [hops₂, List.append_assoc]; rfl⟩
      rw [List.flatMap_cons, runFrom_append hrun₁, hrun₂]

theorem step_end {ops : List PatchOp} (hend : st.sawEnd = false) (hops : finalize st.current st.ops = .ok ops) :
    step n endPatch st = .ok { ops := ops, current := .none, sawEnd := true } := by
  unfold step
  rw [if_neg (by simp [hend]), if_pos rfl, hops]
  rfl

/-! ## The text -/

theorem IsText.append {a b : List Char} (ha : '\n' ∉ a) (hb : IsText b) (hlast : b = [] → a.getLast? ≠ some '\r') :
    IsText (a ++ b) := by
  refine ⟨?_, ?_⟩
  · rw [List.mem_append]
    rintro (h | h)
    · exact ha h
    · exact hb.oneLine h
  · cases b with
    | nil => simpa using hlast rfl
    | cons ch b =>
        rw [List.getLast?_append_of_ne_nil _ (by simp)]
        exact hb.noReturn

theorem IsName.isText (h : IsName path) : IsText path := by
  refine ⟨h.oneLine, ?_⟩
  intro hlast
  have hws := (trimmed_iff.mp h.trimmed h.nonempty).2
  rw [List.getLast?_eq_some_getLast h.nonempty] at hlast
  rw [Option.some.inj hlast] at hws
  exact absurd hws (by decide)

theorem printLine_isText {l : DiffLine} (h : IsText l.text) : IsText (printLine l) := by
  cases l with
  | context text => exact IsText.append (a := [' ']) (by decide) h (fun _ => by decide)
  | remove text => exact IsText.append (a := ['-']) (by decide) h (fun _ => by decide)
  | add text => exact IsText.append (a := ['+']) (by decide) h (fun _ => by decide)

theorem printHunk_isText {h : UpdateHunk} (hh : h.Printable) : ∀ l ∈ printHunk h, IsText l := by
  intro l hl
  rw [printHunk, List.cons_append] at hl
  rcases List.mem_cons.mp hl with rfl | hl
  · cases ha : h.anchor with
    | none => exact ⟨by decide, by decide⟩
    | some a => exact IsText.append (by decide) (hh.anchor a ha).1.isText (fun _ => by decide)
  · rcases List.mem_append.mp hl with hl | hl
    · obtain ⟨line, hline, rfl⟩ := List.mem_map.mp hl
      exact printLine_isText (hh.lines line hline)
    · split at hl
      · obtain rfl := List.mem_singleton.mp hl
        exact ⟨by decide, by decide⟩
      · cases hl

theorem printOp_isText {op : PatchOp} (hop : op.Printable) : ∀ l ∈ printOp op, IsText l := by
  intro l hl
  cases op with
  | add path content =>
      obtain ⟨hpath, hcontent⟩ := hop
      rcases List.mem_cons.mp hl with rfl | hl
      · exact IsText.append (by decide) hpath.isText (fun _ => by decide)
      · obtain ⟨line, hline, rfl⟩ := List.mem_map.mp hl
        exact IsText.append (a := ['+']) (by decide) ⟨notMem_of_mem_splitOn hline, hcontent line hline⟩
          (fun _ => by decide)
  | delete path =>
      obtain rfl := List.mem_singleton.mp hl
      exact IsText.append (by decide) (IsName.isText hop) (fun _ => by decide)
  | update path moveTo hunks =>
      obtain ⟨hpath, hmove, hhunks, -, -⟩ := hop
      rw [printOp, List.cons_append] at hl
      rcases List.mem_cons.mp hl with rfl | hl
      · exact IsText.append (by decide) hpath.isText (fun _ => by decide)
      · rcases List.mem_append.mp hl with hl | hl
        · obtain ⟨target, htarget, rfl⟩ := Option.map_eq_some_iff.mp (Option.mem_toList.mp hl)
          exact IsText.append (by decide) (hmove target htarget).isText (fun _ => by decide)
        · obtain ⟨h, hh, hl⟩ := List.mem_flatMap.mp hl
          exact printHunk_isText (hhunks h hh) l hl

theorem stripCr_text {text : List Char} (h : IsText text) : stripCr text = text :=
  if_neg h.noReturn

/-- Printed lines are the lines of the printed text. -/
theorem patchLines_print : ∀ {ls : List (List Char)}, (∀ l ∈ ls, IsText l) →
    patchLines (ls.flatMap (fun line => line ++ ['\n'])) = ls := by
  intro ls
  induction ls with
  | nil => intro _; rfl
  | cons l ls ih =>
      intro h
      have hl := h l List.mem_cons_self
      have hrest := ih (fun k hk => h k (List.mem_cons_of_mem _ hk))
      rw [List.flatMap_cons, List.append_assoc, List.singleton_append, patchLines, lines_append_newline,
        List.splitOn_eq_singleton hl.oneLine, List.map_append, List.map_singleton, List.map_singleton,
        stripCr_text hl, stripCr_text hl, List.singleton_append]
      exact congrArg _ hrest

/-- **The round trip.** -/
theorem parse_printEnvelope {ops : List PatchOp} (hne : ops ≠ []) (hops : ∀ op ∈ ops, op.Printable) :
    parsePatchEnvelope (printEnvelope ops) = .ok ops := by
  have htext : ∀ l ∈ envelopeLines ops, IsText l := by
    intro l hl
    rw [envelopeLines, List.cons_append] at hl
    rcases List.mem_cons.mp hl with rfl | hl
    · exact ⟨by decide, by decide⟩
    · rcases List.mem_append.mp hl with hl | hl
      · obtain ⟨op, hop, hl⟩ := List.mem_flatMap.mp hl
        exact printOp_isText (hops op hop) l hl
      · obtain rfl := List.mem_singleton.mp hl
        exact ⟨by decide, by decide⟩
  have hbegin : isBlank beginPatch = false := by decide
  obtain ⟨st, hrun, hend, hfinal⟩ := @run_ops ops [] 1 {} hops rfl rfl
  have hall : runFrom 1 (ops.flatMap printOp ++ [endPatch]) {} =
      .ok { ops := ops, current := .none, sawEnd := true } := by
    rw [runFrom_append hrun, runFrom_cons (step_end hend hfinal)]
    rfl
  have hfinish : finish { ops := ops, current := .none, sawEnd := true } = .ok ops := by
    cases ops with
    | nil => exact absurd rfl hne
    | cons op ops => rfl
  rw [parsePatchEnvelope, printEnvelope, patchLines_print htext, envelopeLines, List.cons_append,
    List.dropWhile_cons_of_neg (by simp [hbegin]), List.takeWhile_cons_of_neg (by simp [hbegin])]
  simp only [if_true, List.length_nil, Nat.zero_add, hall, bind, Except.bind]
  exact hfinish

/-! ## What is not read -/

theorem runFrom_split : ∀ {a b : List (List Char)} {n : Nat} {st st' : Parser}, runFrom n (a ++ b) st = .ok st' →
    ∃ st₁, runFrom n a st = .ok st₁ ∧ runFrom (n + a.length) b st₁ = .ok st' := by
  intro a
  induction a with
  | nil => intro b n st st' h; exact ⟨st, rfl, h⟩
  | cons line a ih =>
      intro b n st st' h
      rw [List.cons_append, runFrom] at h
      cases hstep : step (n + 1) line st with
      | error e =>
          rw [hstep] at h
          cases h
      | ok st₁ =>
          rw [hstep] at h
          obtain ⟨st₂, hrun, hrest⟩ := ih h
          refine ⟨st₂, ?_, ?_⟩
          · rw [runFrom_cons hstep, hrun]
          · rw [List.length_cons, show n + (a.length + 1) = n + 1 + a.length by omega]
            exact hrest

/-- A second begin line is no directive, and no line of text. -/
theorem step_begin : ∃ e, step n beginPatch st = .error e := by
  unfold step
  split
  · exact ⟨_, rfl⟩
  · rw [if_neg (by decide), show stripStart addFile beginPatch = none by decide,
      show stripStart deleteFile beginPatch = none by decide,
      show stripStart updateFile beginPatch = none by decide,
      show stripStart moveFile beginPatch = none by decide]
    exact ⟨.badDirective n beginPatch, by simp only [if_neg (show beginPatch ≠ endOfFile by decide),
      if_pos (show "***".toList <+: beginPatch by decide)]⟩

/-- Behind the end line only blank lines are read. -/
theorem run_after_end : ∀ {ls : List (List Char)} {n : Nat} {st st' : Parser}, st.sawEnd = true →
    runFrom n ls st = .ok st' → ∀ l ∈ ls, isBlank l = true := by
  intro ls
  induction ls with
  | nil => intro n st st' _ _; simp
  | cons line ls ih =>
      intro n st st' hend h
      rw [runFrom] at h
      unfold step at h
      rw [if_pos hend] at h
      split at h
      · next hblank =>
          intro l hl
          rcases List.mem_cons.mp hl with rfl | hl
          · exact hblank
          · exact ih hend h l hl
      · cases h

/-- The end line closes the sections. -/
theorem step_end_saw {st' : Parser} (h : step n endPatch st = .ok st') : st'.sawEnd = true := by
  unfold step at h
  split at h
  · next hend =>
      split at h
      · obtain rfl := Except.ok.inj h
        exact hend
      · cases h
  · rw [if_pos rfl] at h
    cases hops : finalize st.current st.ops with
    | error e =>
        rw [hops] at h
        cases h
    | ok ops =>
        rw [hops] at h
        obtain rfl := Except.ok.inj h
        rfl

/-- What is read begins, after blank lines, with the begin line. -/
theorem parse_ok {input : List Char} {ops : List PatchOp} (h : parsePatchEnvelope input = .ok ops) :
    ∃ blank rest n st, patchLines input = blank ++ beginPatch :: rest ∧ (∀ l ∈ blank, isBlank l = true) ∧
      runFrom n rest {} = .ok st := by
  unfold parsePatchEnvelope at h
  have hsplit := List.takeWhile_append_dropWhile (p := isBlank) (l := patchLines input)
  split at h
  · cases h
  · next line rest hdrop =>
      split at h
      · next hbegin =>
          subst hbegin
          rw [hdrop] at hsplit
          cases hrun : runFrom (((patchLines input).takeWhile isBlank).length + 1) rest {} with
          | error e =>
              rw [hrun] at h
              cases h
          | ok st =>
              exact ⟨_, rest, _, st, hsplit.symm, fun l hl => List.mem_takeWhile_imp hl, hrun⟩
      · cases h

theorem reject_of_not_ok {input : List Char} (h : ∀ ops, parsePatchEnvelope input ≠ .ok ops) :
    ∃ e, parsePatchEnvelope input = .error e := by
  cases hparse : parsePatchEnvelope input with
  | error e => exact ⟨e, rfl⟩
  | ok ops => exact absurd hparse (h ops)

/-- Content before the begin line. -/
theorem parse_before_begin {input : List Char} {before after : List (List Char)}
    (hlines : patchLines input = before ++ beginPatch :: after) (hcontent : ∃ l ∈ before, isBlank l = false) :
    ∃ e, parsePatchEnvelope input = .error e := by
  refine reject_of_not_ok ?_
  intro ops h
  obtain ⟨blank, rest, n, st, hsplit, hblank, hrun⟩ := parse_ok h
  obtain ⟨l, hl, hvisible⟩ := hcontent
  -- the first begin line is not this one, so this one is read as a line of the patch
  rw [hlines] at hsplit
  rcases List.append_eq_append_iff.mp hsplit with ⟨mid, hmid, -⟩ | ⟨mid, hmid, hrest⟩
  · have hin := hblank l (hmid ▸ List.mem_append_left _ hl)
    rw [hvisible] at hin
    cases hin
  · cases mid with
    | nil =>
        rw [List.append_nil] at hmid
        have hin := hblank l (hmid ▸ hl)
        rw [hvisible] at hin
        cases hin
    | cons first mid =>
        obtain ⟨-, rfl⟩ := List.cons.inj hrest
        obtain ⟨st₁, -, hrun₁⟩ := runFrom_split hrun
        obtain ⟨e, he⟩ := @step_begin (n + mid.length + 1) st₁
        rw [runFrom, he] at hrun₁
        cases hrun₁

/-- Content after the end line. -/
theorem parse_after_end {input : List Char} {before after : List (List Char)}
    (hlines : patchLines input = before ++ endPatch :: after) (hcontent : ∃ l ∈ after, isBlank l = false) :
    ∃ e, parsePatchEnvelope input = .error e := by
  refine reject_of_not_ok ?_
  intro ops h
  obtain ⟨blank, rest, n, st, hsplit, hblank, hrun⟩ := parse_ok h
  obtain ⟨l, hl, hvisible⟩ := hcontent
  have hend : isBlank endPatch = false := by decide
  rw [hlines] at hsplit
  -- the end line stands behind the begin line
  rcases List.append_eq_append_iff.mp hsplit with ⟨mid, hmid, hrest⟩ | ⟨mid, -, hrest⟩
  · cases mid with
    | nil => exact absurd (List.cons.inj hrest).1 (by decide)
    | cons first mid =>
        obtain ⟨rfl, -⟩ := List.cons.inj hrest
        have hin := hblank endPatch (hmid ▸ List.mem_append_right _ List.mem_cons_self)
        rw [hend] at hin
        cases hin
  · cases mid with
    | nil => exact absurd (List.cons.inj hrest).1 (by decide)
    | cons first mid =>
        obtain ⟨-, rfl⟩ := List.cons.inj hrest
        obtain ⟨st₁, -, hrun₁⟩ := runFrom_split hrun
        rw [runFrom] at hrun₁
        cases hstep : step (n + mid.length + 1) endPatch st₁ with
        | error e =>
            rw [hstep] at hrun₁
            cases hrun₁
        | ok st₂ =>
            rw [hstep] at hrun₁
            have hin := run_after_end (step_end_saw hstep) hrun₁ l hl
            rw [hvisible] at hin
            cases hin

/-- **The envelope.**  What is printed is read back, and nothing is read around it. -/
theorem envelope_round_trip :
    (∀ ops : List PatchOp, ops ≠ [] → (∀ op ∈ ops, op.Printable) →
      parsePatchEnvelope (printEnvelope ops) = .ok ops) ∧
    (∀ input before after, patchLines input = before ++ beginPatch :: after →
      (∃ l ∈ before, isBlank l = false) → ∃ e, parsePatchEnvelope input = .error e) ∧
    (∀ input before after, patchLines input = before ++ endPatch :: after →
      (∃ l ∈ after, isBlank l = false) → ∃ e, parsePatchEnvelope input = .error e) :=
  ⟨fun _ hne hops => parse_printEnvelope hne hops, fun _ _ _ => parse_before_begin,
    fun _ _ _ => parse_after_end⟩

/-- Rows whose text looks like an end line and like a hunk marker. -/
def lookalikes : List PatchOp :=
  [.update "a.txt".toList none
    [⟨none, [.add "*** End Patch".toList, .context "@@".toList], true⟩]]

theorem envelope_round_trip_lookalikes :
    parsePatchEnvelope (printEnvelope lookalikes) = .ok lookalikes := by
  refine envelope_round_trip.1 lookalikes (by decide) ?_
  intro op hop
  obtain rfl := List.mem_singleton.mp hop
  refine ⟨⟨by decide, by decide, by decide⟩, by simp, ?_, by simp,
    Or.inl ⟨_, List.mem_singleton_self _, by simp⟩⟩
  intro h hh
  obtain rfl := List.mem_singleton.mp hh
  refine ⟨by simp, ?_⟩
  intro l hl
  obtain rfl | rfl : l = .add "*** End Patch".toList ∨ l = .context "@@".toList := by simpa using hl
  · exact ⟨by decide, by decide⟩
  · exact ⟨by decide, by decide⟩

end Octos.Tools
