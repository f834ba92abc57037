/-
# `Octos.Lib.LineEnds` — lines with the way they end

`lines` forgets whether a line ended in `\n`, in `\r\n` or with the text.  Here
a line keeps its ending, and a text is put together again from its lines:

    assemble (finalEnd text) (linesWithEnds text) = text

The ending of the last line belongs to the text, not to the line: when lines are
inserted and removed, a text that ended in a newline still does, and one that
did not still does not.  An edit of the lines that keeps the others with their
endings is then an edit of the text that changes nothing else.
-/
import Octos.Lib.Lines

namespace Octos.Text

structure Line where
  text : List Char
  ending : List Char
  deriving DecidableEq

def crlf : List Char := ['\r', '\n']

/-- A part with a newline behind it. -/
def endedLine (part : List Char) : Line :=
  if part.getLast? = some '\r' then ⟨part.dropLast, crlf⟩ else ⟨part, ['\n']⟩

/-- The last part, with no newline behind it. -/
def openLine (parts : List (List Char)) : List Line :=
  match parts.getLast? with
  | none => []
  | some line => if line.isEmpty then [] else [⟨line, []⟩]

def partLines (parts : List (List Char)) : List Line :=
  parts.dropLast.map endedLine ++ openLine parts

def linesWithEnds (text : List Char) : List Line :=
  partLines (text.splitOn '\n')

/-- How the last line of a text ends. -/
def finalEnd (text : List Char) : List Char :=
  ((linesWithEnds text).getLast?.map Line.ending).getD []

/-- What stands between a line and the next one: a line that was the last one of
its text and had no ending gets a newline. -/
def Line.separator (l : Line) : List Char :=
  if l.ending = [] then ['\n'] else l.ending

/-- Lines with what separates them, and the end of the text. -/
def assemble (final : List Char) : List Line → List Char
  | [] => final
  | [l] => l.text ++ final
  | l :: l' :: rest => l.text ++ l.separator ++ assemble final (l' :: rest)

/-! ## The lines of a text -/

variable {text : List Char}

theorem map_text_linesWithEnds (text : List Char) : (linesWithEnds text).map Line.text = lines text := by
  have hended : ∀ part, (endedLine part).text = stripCr part := by
    intro part
    unfold endedLine stripCr
    split <;> rfl
  simp only [linesWithEnds, partLines, lines, List.map_append, List.map_map, openLine, lastLine]
  congr 1
  · exact List.map_congr_left (fun part _ => hended part)
  · cases (text.splitOn '\n').getLast? with
    | none => rfl
    | some line => cases line <;> rfl

theorem partLines_cons (part other : List Char) (parts : List (List Char)) :
    partLines (part :: other :: parts) = endedLine part :: partLines (other :: parts) := by
  simp [partLines, openLine, List.getLast?_cons_cons]

theorem endedLine_whole (part : List Char) : (endedLine part).text ++ (endedLine part).ending = part ++ ['\n'] := by
  unfold endedLine
  split
  · next hcr =>
      have hsplit := List.dropLast_append_getLast? '\r' hcr
      show part.dropLast ++ crlf = part ++ ['\n']
      conv => rhs; rw [← hsplit]
      rw [List.append_assoc]
      rfl
  · rfl

/-- **The text of the lines.** -/
theorem flatMap_partLines : ∀ {parts : List (List Char)}, parts ≠ [] →
    (partLines parts).flatMap (fun l => l.text ++ l.ending) = List.intercalate ['\n'] parts := by
  intro parts
  induction parts with
  | nil => exact fun h => absurd rfl h
  | cons part parts ih =>
      intro _
      cases parts with
      | nil =>
          cases part with
          | nil => rfl
          | cons ch part => simp [partLines, openLine, List.intercalate]
      | cons other parts =>
          rw [partLines_cons, List.flatMap_cons, ih (by simp), endedLine_whole]
          simp [List.intercalate]

theorem flatMap_linesWithEnds (text : List Char) :
    (linesWithEnds text).flatMap (fun l => l.text ++ l.ending) = text := by
  rw [linesWithEnds, flatMap_partLines (List.splitOn_ne_nil _ _), List.intercalate_splitOn]

/-- Only the last line may have no ending. -/
theorem ending_ne_nil : ∀ {parts : List (List Char)} {before : List Line} {l l' : Line} {rest : List Line},
    partLines parts = before ++ l :: l' :: rest → l.ending ≠ [] := by
  intro parts
  induction parts with
  | nil =>
      intro before l l' rest h
      simp [partLines, openLine] at h
  | cons part parts ih =>
      intro before l l' rest h
      cases parts with
      | nil =>
          have hlen := congrArg List.length h
          cases part <;> simp [partLines, openLine] at hlen
          omega
      | cons other parts =>
          rw [partLines_cons] at h
          cases before with
          | nil =>
              obtain ⟨rfl, -⟩ := List.cons.inj h
              unfold endedLine
              split
              · simp [crlf]
              · simp
          | cons b before => exact ih (List.cons.inj h).2

theorem assemble_whole : ∀ {ls : List Line},
    (∀ before l l' rest, ls = before ++ l :: l' :: rest → l.ending ≠ []) →
    assemble ((ls.getLast?.map Line.ending).getD []) ls = ls.flatMap (fun l => l.text ++ l.ending) := by
  intro ls
  induction ls with
  | nil => intro _; rfl
  | cons l ls ih =>
      intro h
      cases ls with
      | nil => simp [assemble]
      | cons l' rest =>
          have hne : l.ending ≠ [] := h [] l l' rest rfl
          have hrest := ih (fun before m m' rest' heq => h (l :: before) m m' rest' (by rw [heq]; rfl))
          rw [assemble, List.getLast?_cons_cons, hrest, List.flatMap_cons, Line.separator, if_neg hne]
          rfl

/-- **A text is its lines.** -/
theorem assemble_linesWithEnds (text : List Char) :
    assemble (finalEnd text) (linesWithEnds text) = text := by
  conv => rhs; rw [← flatMap_linesWithEnds text]
  exact assemble_whole (fun before l l' rest h => ending_ne_nil h)

/-! ## Endings -/

/-- A line has no newline in it, and one of three endings; only a nonempty line
may end with the text. -/
theorem of_mem_linesWithEnds {l : Line} (h : l ∈ linesWithEnds text) : '\n' ∉ l.text ∧
    (l.ending = ['\n'] ∨ l.ending = crlf ∨ l.ending = [] ∧ l.text ≠ []) := by
  refine ⟨@newline_notMem_of_mem_lines text _ ?_, ?_⟩
  · rw [← map_text_linesWithEnds]
    exact List.mem_map_of_mem h
  · rcases List.mem_append.mp h with h | h
    · obtain ⟨part, -, rfl⟩ := List.mem_map.mp h
      unfold endedLine
      split
      · exact Or.inr (Or.inl rfl)
      · exact Or.inl rfl
    · unfold openLine at h
      split at h
      · cases h
      · split at h
        · cases h
        · next hne =>
            obtain rfl := List.mem_singleton.mp h
            exact Or.inr (Or.inr ⟨rfl, by simpa using hne⟩)

/-- No line without a character of its own. -/
theorem length_lines_le (text : List Char) : (lines text).length ≤ text.length := by
  let sizes := (linesWithEnds text).map (fun l => (l.text ++ l.ending).length)
  have hpos : ∀ n ∈ sizes, 1 ≤ n := by
    intro n hn
    obtain ⟨l, hl, rfl⟩ := List.mem_map.mp hn
    rw [List.length_append]
    obtain ⟨-, hend | hend | ⟨-, htext⟩⟩ := of_mem_linesWithEnds hl
    · rw [hend]
      exact Nat.le_add_left _ _
    · rw [hend]
      exact Nat.le_trans (by decide) (Nat.le_add_left _ _)
    · exact Nat.le_trans (List.length_pos_iff.mpr htext) (Nat.le_add_right _ _)
  calc (lines text).length = sizes.length := by
        rw [← map_text_linesWithEnds, List.length_map, List.length_map]
    _ ≤ sizes.sum := List.length_le_sum_of_one_le sizes hpos
    _ = text.length := by rw [← List.length_flatMap, flatMap_linesWithEnds]

/-- The newline at the end of a text, without its carriage return. -/
def finalNewline (text : List Char) : List Char :=
  if text.getLast? = some '\n' then ['\n'] else []

theorem finalNewline_iff (text : List Char) :
    finalNewline text = if finalEnd text = [] then [] else ['\n'] := by
  have htext := flatMap_linesWithEnds text
  rcases List.eq_nil_or_concat (linesWithEnds text) with hnil | ⟨init, l, hl⟩
  · rw [hnil] at htext
    rw [finalEnd, hnil, ← htext]
    rfl
  · rw [List.concat_eq_append] at hl
    have hmem : l ∈ linesWithEnds text := by
      rw [hl]
      exact List.mem_append_right _ List.mem_cons_self
    obtain ⟨hnl, hend⟩ := of_mem_linesWithEnds hmem
    have hfinal : finalEnd text = l.ending := by
      rw [finalEnd, hl, List.getLast?_concat]
      rfl
    rw [hl, List.flatMap_append, List.flatMap_singleton] at htext
    have hlast : text.getLast? = if l.ending = [] then l.text.getLast? else some '\n' := by
      rw [← htext]
      rcases hend with hend | hend | ⟨hend, hne⟩
      · simp [hend, List.getLast?_append]
      · simp [hend, crlf, List.getLast?_append]
      · rw [if_pos hend, hend, List.append_nil, List.getLast?_append_of_ne_nil _ hne]
    rw [finalNewline, hlast, hfinal]
    split
    · have hout : l.text.getLast? ≠ some '\n' := fun h => hnl (List.mem_of_getLast? h)
      rw [if_neg hout]
    · rfl

/-- Lines joined by newlines. -/
theorem assemble_newlines {final : List Char} : ∀ {ls : List Line}, (∀ l ∈ ls, l.separator = ['\n']) →
    assemble final ls = unlines (ls.map Line.text) ++ final := by
  intro ls
  induction ls with
  | nil => intro _; rfl
  | cons l ls ih =>
      intro h
      have hl := h l List.mem_cons_self
      have hrest := ih (fun m hm => h m (List.mem_cons_of_mem _ hm))
      cases ls with
      | nil => simp [assemble, unlines]
      | cons l' rest =>
          rw [assemble, hrest, hl]
          simp [unlines, List.intercalate]

/-- A line that ends in a plain newline, if at all. -/
def Line.plain (l : Line) : Line :=
  { l with ending := if l.ending = [] then [] else ['\n'] }

theorem Line.plain_separator (l : Line) : l.plain.separator = ['\n'] := by
  unfold Line.plain Line.separator
  split
  · rfl
  · exact if_neg (by simp)

/-- **Lines read and joined again** are the text with plain newlines. -/
theorem unlines_lines (text : List Char) : unlines (lines text) ++ finalNewline text =
    (linesWithEnds text).flatMap (fun l => l.plain.text ++ l.plain.ending) := by
  have hends : ∀ before l l' rest, (linesWithEnds text).map Line.plain = before ++ l :: l' :: rest →
      l.ending ≠ [] := by
    intro before l l' rest h
    obtain ⟨before', tail, hsplit, -, htail⟩ := List.map_eq_append_iff.mp h
    obtain ⟨m, tail', rfl, rfl, htail'⟩ := List.map_eq_cons_iff.mp htail
    obtain ⟨m', rest', rfl, -, -⟩ := List.map_eq_cons_iff.mp htail'
    have hne : m.ending ≠ [] := ending_ne_nil hsplit
    simp [Line.plain, hne]
  have hwhole := assemble_whole hends
  rw [List.flatMap_map] at hwhole
  rw [← hwhole, assemble_newlines]
  · rw [List.map_map, show Line.text ∘ Line.plain = Line.text from rfl, map_text_linesWithEnds,
      finalNewline_iff, finalEnd, List.getLast?_map]
    cases (linesWithEnds text).getLast? with
    | none => rfl
    | some l => rfl
  · intro l hl
    obtain ⟨m, -, rfl⟩ := List.mem_map.mp hl
    exact m.plain_separator

theorem Line.plain_le (l : Line) : (l.plain.text ++ l.plain.ending).length ≤ (l.text ++ l.ending).length := by
  unfold Line.plain
  split
  · next h => simp [h]
  · next h =>
      have hpos := List.length_pos_iff.mpr h
      simp only [List.length_append, List.length_singleton]
      omega

/-- **A carriage return at the end of a line is lost.** -/
theorem unlines_lines_ne {l : Line} (h : l ∈ linesWithEnds text) (hl : l.ending = crlf) :
    unlines (lines text) ++ finalNewline text ≠ text := by
  intro heq
  have hlen := congrArg List.length (heq.trans (flatMap_linesWithEnds text).symm)
  rw [unlines_lines, List.length_flatMap, List.length_flatMap] at hlen
  refine absurd hlen (ne_of_lt (List.sum_lt_sum _ _ ?_ ⟨l, h, ?_⟩))
  · intro m _
    exact m.plain_le
  · simp [Line.plain, hl, crlf]

/-- What a text ends with its last part ends with, unless it is the newline. -/
theorem getLast_splitOn {part : List Char} {parts : List (List Char)} {ch : Char}
    (h : text.getLast? = some ch) (hch : ch ≠ '\n') (hparts : text.splitOn '\n' = parts ++ [part]) :
    part.getLast? = some ch := by
  have hjoin : List.intercalate ['\n'] (text.splitOn '\n') = text := List.intercalate_splitOn '\n'
  rw [hparts] at hjoin
  rw [← hjoin] at h
  clear hparts hjoin
  induction parts with
  | nil => simpa using h
  | cons p parts ih =>
      refine ih ?_
      rw [List.cons_append, List.intercalate_cons_of_ne_nil (by simp)] at h
      cases hrest : List.intercalate ['\n'] (parts ++ [part]) with
      | nil =>
          rw [hrest, List.append_nil, List.getLast?_concat] at h
          exact absurd (Option.some.inj h).symm hch
      | cons c rest =>
          rw [hrest, List.getLast?_append_of_ne_nil _ (by simp)] at h
          exact h

theorem ending_of_crlf (h : crlf <:+: text) : ∃ l ∈ linesWithEnds text, l.ending = crlf := by
  obtain ⟨a, b, rfl⟩ := h
  have htext : a ++ crlf ++ b = (a ++ ['\r']) ++ '\n' :: b := by simp [crlf]
  have hb : b.splitOn '\n' ≠ [] := List.splitOn_ne_nil _ _
  obtain ⟨parts, part, hparts⟩ := (List.eq_nil_or_concat ((a ++ ['\r']).splitOn '\n')).resolve_left
    (List.splitOn_ne_nil _ _)
  rw [List.concat_eq_append] at hparts
  have hcr : part.getLast? = some '\r' :=
    getLast_splitOn (by simp) (by decide) hparts
  refine ⟨endedLine part, ?_, by rw [endedLine, if_pos hcr]⟩
  rw [htext, linesWithEnds, List.splitOn_append_cons_self, partLines, List.dropLast_append_of_ne_nil hb,
    List.map_append, hparts]
  simp

theorem crlf_of_ending {l : Line} (h : l ∈ linesWithEnds text) (hl : l.ending = crlf) : crlf <:+: text := by
  obtain ⟨before, after, hsplit⟩ := List.append_of_mem h
  refine ⟨before.flatMap (fun l => l.text ++ l.ending) ++ l.text,
    after.flatMap (fun l => l.text ++ l.ending), ?_⟩
  conv => rhs; rw [← flatMap_linesWithEnds text, hsplit]
  simp [hl]

/-! ## Plain newlines -/

/-- Without a `\r\n` the lines are separated by what they are joined by. -/
theorem separator_of_lf (h : ¬crlf <:+: text) {l : Line}
    (hl : l ∈ linesWithEnds text) : l.separator = ['\n'] := by
  unfold Line.separator
  obtain ⟨-, hend | hend | ⟨hend, -⟩⟩ := of_mem_linesWithEnds hl
  · rw [hend]
    rfl
  · exact absurd (crlf_of_ending hl hend) h
  · rw [if_pos hend]

theorem finalEnd_of_lf (h : ¬crlf <:+: text) :
    finalEnd text = finalNewline text := by
  rw [finalNewline_iff]
  split
  · assumption
  · next hne =>
      unfold finalEnd at hne ⊢
      cases hlast : (linesWithEnds text).getLast? with
      | none =>
          rw [hlast] at hne
          exact absurd rfl hne
      | some l =>
          rw [hlast] at hne
          obtain ⟨-, hend | hend | ⟨hend, -⟩⟩ := of_mem_linesWithEnds (List.mem_of_getLast? hlast)
          · exact hend
          · exact absurd (crlf_of_ending (List.mem_of_getLast? hlast) hend) h
          · exact absurd hend hne

end Octos.Text
