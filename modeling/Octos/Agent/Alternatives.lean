/-
# `Octos.Agent.Alternatives` — the alternatives in an error

    crates/octos-agent/src/task_supervisor.rs   parse_alternatives

The error of a failed task may name what there is instead: `available: X, Y, Z`.  The
marker is looked for in the lowercase of the error, and the error itself is then cut
at the same offset.  The two offsets are the same only if the lowercase of what is in
front of the marker is as long as the original:

    available: a          cut behind the marker
    İavailable: a         cut one byte behind that
    İİavailable:          cut behind the end, and a panic
-/
import Octos.Lib.CaseSearch

namespace Octos.Agent

open Text

/-- The marker. -/
def needle : List Char :=
  "available:".toList

/-- Where a clause ends. -/
def isStop (ch : Char) : Bool :=
  ch == '\n' || ch == '.' || ch == ';'

def isQuote (ch : Char) : Bool :=
  ch == '"' || ch == '\''

/-- `item.trim().trim_matches(['"', '\''])` -/
def unquote (item : List Char) : List Char :=
  ((trim item).dropWhile isQuote).rdropWhile isQuote

/-- The items of the clause that a text begins with. -/
def clauseItems (tail : List Char) : List (List Char) :=
  (((tail.takeWhile (fun ch => !isStop ch)).splitOn ',').map unquote).filter (fun item => !item.isEmpty)

/-- `parse_alternatives`; `none` is the panic of the cut. -/
def parseAlternatives (table : CaseTable) (errorText : List Char) : Option (List (List Char)) :=
  match breakOn needle (table.toLowercase errorText) with
  | none => some []
  | some (before, _) => (sliceFrom errorText (utf8Length before + utf8Length needle)).map clauseItems

/-- What is asked of it: no panic, and behind the first marker of the error, whatever
its case, the items of the clause. -/
def Extracts (table : CaseTable) (errorText : List Char) : Prop :=
  ∃ items, parseAlternatives table errorText = some items ∧
    ∀ before after, breakOnCase needle errorText = some (before, after) → items = clauseItems after

variable {table : CaseTable} {text before after : List Char}

theorem needle_eq : needle = ['a', 'v', 'a', 'i', 'l', 'a', 'b', 'l', 'e', ':'] :=
  rfl

theorem findable_needle : Findable needle := by
  rw [needle_eq]
  refine ⟨?_, by decide, by decide⟩
  intro c hc
  have hall : (['a', 'v', 'a', 'i', 'l', 'a', 'b', 'l', 'e', ':'].all (fun c => decide (c.toNat < 128))) = true := rfl
  exact of_decide_eq_true (List.all_eq_true.mp hall c hc)

/-- The cut is made behind as many bytes as the lowercase of what is in front of the
marker has, and ten. -/
theorem parseAlternatives_eq (table : CaseTable) (text : List Char) :
    parseAlternatives table text =
      match breakOnCase needle text with
      | none => some []
      | some (before, _) => (sliceFrom text (lowerBytes table before + 10)).map clauseItems := by
  have hfound := @breakOn_lowerFrom table needle findable_needle (by decide) text []
  have hten : utf8Length needle = 10 := by decide
  rw [parseAlternatives, CaseTable.toLowercase, hten]
  cases hlower : breakOn needle (table.lowerFrom [] text) with
  | none =>
      rw [hlower] at hfound
      rw [Option.map_eq_none_iff.mp hfound.symm]
  | some r =>
      rw [hlower] at hfound
      obtain ⟨r', hr', hbytes⟩ := Option.map_eq_some_iff.mp hfound.symm
      rw [hr']
      exact congrArg (fun n => (sliceFrom text (n + 10)).map clauseItems) hbytes.symm

/-- The bytes between the two cuts change nothing: put in front of what is behind them
they leave the items as they are. -/
def Silent (skipped rest : List Char) : Prop :=
  clauseItems (skipped ++ rest) = clauseItems rest

/-- The cut that is made, and the one behind the marker. -/
theorem sliceFrom_iff {n : Nat} {tail : List Char} :
    sliceFrom text n = some tail ↔ ∃ front, text = front ++ tail ∧ utf8Length front = n := by
  constructor
  · intro h
    rw [sliceFrom] at h
    split at h
    · next hb =>
        obtain ⟨front, rest, rfl, rfl⟩ := isCharBoundary_iff.mp hb
        rw [dropBytes_append] at h
        exact ⟨front, by rw [Option.some.inj h], rfl⟩
    · cases h
  · rintro ⟨front, rfl, rfl⟩
    exact sliceFrom_append front tail

/-- The cut behind the marker. -/
theorem extracts_iff_of_found (h : breakOnCase needle text = some (before, after)) :
    Extracts table text ↔ ∃ tail, sliceFrom text (lowerBytes table before + 10) = some tail ∧
      clauseItems tail = clauseItems after := by
  rw [Extracts, parseAlternatives_eq, h]
  constructor
  · rintro ⟨items, hitems, hright⟩
    obtain ⟨tail, htail, rfl⟩ := Option.map_eq_some_iff.mp hitems
    exact ⟨tail, htail, hright before after rfl⟩
  · rintro ⟨tail, htail, heq⟩
    refine ⟨clauseItems tail, ?_, ?_⟩
    · dsimp only
      rw [htail]
      rfl
    · intro b a hfound
      cases hfound
      exact heq

/-- **Where the alternatives are extracted.**  For every error: exactly where there is
no marker, or the cut, made as many bytes from the start as the lowercase of what is
in front of the marker has, and ten, falls between two characters of the error and the
text between it and the marker's end changes no item. -/
theorem extracts_iff (table : CaseTable) (text : List Char) :
    Extracts table text ↔ ∀ before word after, breakOnCase needle text = some (before, after) →
      text = before ++ word ++ after →
        lowerBytes table before = utf8Length before ∨
        (∃ skipped rest, after = skipped ++ rest ∧
          lowerBytes table before = utf8Length before + utf8Length skipped ∧ Silent skipped rest) ∨
        ∃ front skipped, before ++ word = front ++ skipped ∧
          lowerBytes table before + utf8Length skipped = utf8Length before ∧ Silent skipped after := by
  cases hfound : breakOnCase needle text with
  | none =>
      refine ⟨fun _ => ?_, fun _ => ?_⟩
      · intro before word after h
        cases h
      · refine ⟨[], ?_, ?_⟩
        · rw [parseAlternatives_eq, hfound]
        · intro before after h
          rw [hfound] at h
          cases h
  | some r =>
      obtain ⟨before, after⟩ := r
      obtain ⟨word, htext, hword, -⟩ := breakOnCase_some hfound
      have hten : utf8Length word = 10 := utf8Length_of_case findable_needle.ascii hword
      rw [extracts_iff_of_found hfound]
      constructor
      · rintro ⟨tail, htail, hitems⟩ b w a hba hsplit
        cases hba
        obtain rfl : word = w := by
          rw [htext] at hsplit
          exact List.append_cancel_left (List.append_cancel_right hsplit)
        obtain ⟨front, hfront, hbytes⟩ := sliceFrom_iff.mp htail
        rw [htext] at hfront
        rcases List.append_eq_append_iff.mp hfront with ⟨skipped, rfl, hafter⟩ | ⟨skipped, hbefore, rfl⟩
        · refine .inr (.inl ⟨skipped, tail, hafter, ?_, ?_⟩)
          · rw [utf8Length_append, utf8Length_append, hten] at hbytes
            omega
          · rw [Silent, ← hafter, hitems]
        · refine .inr (.inr ⟨front, skipped, hbefore, ?_, hitems⟩)
          have hlen := congrArg utf8Length hbefore
          rw [utf8Length_append, utf8Length_append, hten, hbytes] at hlen
          omega
      · intro h
        rcases h before word after rfl htext with heq | ⟨skipped, rest, rfl, heq, hsilent⟩ | ⟨front, skipped, hbefore, heq, hsilent⟩
        · refine ⟨after, sliceFrom_iff.mpr ⟨before ++ word, htext, ?_⟩, rfl⟩
          rw [utf8Length_append, hten, heq]
        · refine ⟨rest, sliceFrom_iff.mpr ⟨before ++ word ++ skipped, ?_, ?_⟩, hsilent.symm⟩
          · rw [htext, List.append_assoc (before ++ word)]
          · rw [utf8Length_append, utf8Length_append, hten, heq]
            omega
        · refine ⟨skipped ++ after, sliceFrom_iff.mpr ⟨front, ?_, ?_⟩, hsilent⟩
          · rw [htext, hbefore, List.append_assoc]
          · have hlen := congrArg utf8Length hbefore
            rw [utf8Length_append, utf8Length_append, hten] at hlen
            omega

/-- A capital İ in front of the marker moves the cut behind the end. -/
theorem dotted_capital_panics : ¬ Extracts .smallest "İavailable:".toList := by
  rintro ⟨items, hitems, -⟩
  have hpanic : parseAlternatives .smallest "İavailable:".toList = none := by decide
  rw [hpanic] at hitems
  cases hitems

end Octos.Agent
