/-
# `Octos.Lib.Ere` — regular expressions without groups

The part of the extended regular expressions of POSIX that has no groups, alternatives
or counts: characters, characters behind a backslash, negated bracket lists, and a star
behind one of these, between the two anchors.

    ^/ws/[^/]*\.card$

A reader goes through the expression with what it has read, and what it cannot read it
refuses.  What is read is matched from the left.
-/
import Mathlib

namespace Octos.Ere

inductive Atom
  | char (ch : Char)
  | noneOf (chs : List Char)
deriving DecidableEq, Repr

/-- An atom, or any number of them. -/
inductive Piece
  | one (atom : Atom)
  | many (atom : Atom)
deriving DecidableEq, Repr

/-! ## Reading -/

/-- Where the reader stands: between atoms, behind a backslash, behind a bracket, or in
a negated list. -/
inductive Place
  | between
  | escaped
  | bracket
  | within (chs : List Char)

/-- The characters that mean something by themselves. -/
def isSpecial (ch : Char) : Bool :=
  ['^', '.', '[', '$', '(', ')', '|', '*', '+', '?', '{', '\\'].contains ch

/-- A star goes to the last atom. -/
def star : List Piece → Option (List Piece)
  | .one atom :: done => some (.many atom :: done)
  | _ => none

/-- Reads on, with what it has read, the last piece first. -/
def read : Place → List Piece → List Char → Option (List Piece)
  | .between, done, [] => some done.reverse
  | .between, done, ch :: rest =>
      if ch = '\\' then read .escaped done rest
      else if ch = '[' then read .bracket done rest
      else if ch = '*' then (star done).bind (fun done => read .between done rest)
      else if isSpecial ch then none
      else read .between (.one (.char ch) :: done) rest
  | .escaped, done, ch :: rest => read .between (.one (.char ch) :: done) rest
  | .bracket, done, ch :: rest => if ch = '^' then read (.within []) done rest else none
  | .within chs, done, ch :: rest =>
      -- a closing bracket at the front of the list belongs to it
      if ch = ']' ∧ chs ≠ [] then read .between (.one (.noneOf chs) :: done) rest
      else read (.within (chs ++ [ch])) done rest
  | _, _, [] => none

/-- An expression between its anchors. -/
def parse (expr : List Char) : Option (List Piece) :=
  match expr with
  | '^' :: rest => if rest.getLast? = some '$' then read .between [] rest.dropLast else none
  | _ => none

/-! ## Matching -/

def Atom.accepts : Atom → Char → Bool
  | .char ch, c => c == ch
  | .noneOf chs, c => !chs.contains c

/-- The whole text. -/
def accepts : List Piece → List Char → Bool
  | [], text => text.isEmpty
  | .one _ :: _, [] => false
  | .one atom :: pieces, c :: text => atom.accepts c && accepts pieces text
  | .many atom :: pieces, text =>
      (List.range (text.length + 1)).any
        (fun n => (text.take n).all atom.accepts && accepts pieces (text.drop n))

/-- The texts of an expression. -/
def Matches (expr text : List Char) : Prop :=
  ∃ pieces, parse expr = some pieces ∧ accepts pieces text = true

variable {done pieces : List Piece} {rest text : List Char} {ch : Char} {atom : Atom}

theorem read_escaped : read .between done ('\\' :: ch :: rest) = read .between (.one (.char ch) :: done) rest :=
  rfl

theorem read_plain (h : isSpecial ch = false) :
    read .between done (ch :: rest) = read .between (.one (.char ch) :: done) rest := by
  have hne : ∀ c, isSpecial c = true → ch ≠ c := by
    rintro c hc rfl
    rw [h] at hc
    cases hc
  rw [read, if_neg (hne _ rfl), if_neg (hne _ rfl), if_neg (hne _ rfl), h, if_neg Bool.false_ne_true]

theorem read_noneOf (h : ch ≠ ']') :
    read .between done ('[' :: '^' :: ch :: ']' :: rest) = read .between (.one (.noneOf [ch]) :: done) rest := by
  rw [read, if_neg (by decide), if_pos rfl, read, if_pos rfl, read, if_neg (fun hc => h hc.1), read,
    if_pos ⟨rfl, List.cons_ne_nil _ _⟩]
  rfl

theorem read_star :
    read .between (.one atom :: done) ('*' :: rest) = read .between (.many atom :: done) rest :=
  rfl

theorem accepts_many : accepts (.many atom :: pieces) text = true ↔
    ∃ run rest, text = run ++ rest ∧ (∀ c ∈ run, atom.accepts c = true) ∧ accepts pieces rest = true := by
  rw [accepts, List.any_eq_true]
  constructor
  · rintro ⟨n, -, h⟩
    rw [Bool.and_eq_true, List.all_eq_true] at h
    exact ⟨text.take n, text.drop n, (List.take_append_drop _ _).symm, h.1, h.2⟩
  · rintro ⟨run, rest, rfl, hrun, hrest⟩
    refine ⟨run.length, ?_, ?_⟩
    · rw [List.mem_range, List.length_append]
      omega
    · rw [List.take_left, List.drop_left, Bool.and_eq_true, List.all_eq_true]
      exact ⟨hrun, hrest⟩

/-- Characters in front are matched by themselves. -/
theorem accepts_chars : ∀ {front text : List Char},
    accepts (front.map (fun ch => .one (.char ch)) ++ pieces) text = true ↔
      ∃ rest, text = front ++ rest ∧ accepts pieces rest = true := by
  intro front
  induction front with
  | nil =>
      intro text
      simp
  | cons ch front ih =>
      intro text
      rw [List.map_cons, List.cons_append]
      cases text with
      | nil => simp [accepts]
      | cons c text =>
          rw [accepts, Bool.and_eq_true, ih, Atom.accepts, beq_iff_eq]
          constructor
          · rintro ⟨rfl, rest, rfl, hrest⟩
            exact ⟨rest, rfl, hrest⟩
          · rintro ⟨rest, heq, hrest⟩
            rw [List.cons_append, List.cons.injEq] at heq
            exact ⟨heq.1, rest, heq.2, hrest⟩

end Octos.Ere
