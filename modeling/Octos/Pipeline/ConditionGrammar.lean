/-
# `Octos.Pipeline.ConditionGrammar` — the sentences of the condition language

The documented grammar as a relation over tokens: `Derives` has one rule for each
line of the grammar, left-recursive where the text says that an operator groups
to the left.  `parseOr` answers what `Derives` derives, and only that
(`parseOr_iff`); so a list of tokens has one tree.

    parser_reads     what a function answers is derived from what it has read
    Derives.finds    what is derived is found, with the fuel that is left over

For the second the loops are not run to their end: an expression is followed to
the point where its loop would look for the next operator, since a left-recursive
rule goes on from there.
-/
import Octos.Pipeline.Condition

namespace Octos.Pipeline

/-! ## The grammar -/

inductive Nonterminal
  | orExpr
  | andExpr
  | unary
  | primary

/-- What a list of tokens says as an expression of a kind. -/
inductive Derives : Nonterminal → List Token → CondExpr → Prop
  | statusEq (s : String) :
      Derives .primary [.ident "outcome", .dot, .ident "status", .eq, .stringLit s] (.statusEq s)
  | statusNe (s : String) :
      Derives .primary [.ident "outcome", .dot, .ident "status", .ne, .stringLit s] (.statusNe s)
  | contains (s : String) :
      Derives .primary
        [.ident "outcome", .dot, .ident "contains", .lParen, .stringLit s, .rParen] (.contains s)
  | contextEq (key s : String) :
      Derives .primary [.ident "context", .dot, .ident key, .eq, .stringLit s] (.contextEq key s)
  | contextNe (key s : String) :
      Derives .primary [.ident "context", .dot, .ident key, .ne, .stringLit s] (.contextNe key s)
  | paren {ts : List Token} {e : CondExpr} (h : Derives .orExpr ts e) :
      Derives .primary (.lParen :: ts ++ [.rParen]) e
  | primary {ts : List Token} {e : CondExpr} (h : Derives .primary ts e) : Derives .unary ts e
  | not {ts : List Token} {e : CondExpr} (h : Derives .unary ts e) :
      Derives .unary (.not :: ts) (.not e)
  | unary {ts : List Token} {e : CondExpr} (h : Derives .unary ts e) : Derives .andExpr ts e
  | and {ts us : List Token} {a b : CondExpr} (ha : Derives .andExpr ts a) (hb : Derives .unary us b) :
      Derives .andExpr (ts ++ .and :: us) (.and a b)
  | andExpr {ts : List Token} {e : CondExpr} (h : Derives .andExpr ts e) : Derives .orExpr ts e
  | or {ts us : List Token} {a b : CondExpr} (ha : Derives .orExpr ts a) (hb : Derives .andExpr us b) :
      Derives .orExpr (ts ++ .or :: us) (.or a b)

/-! ## What the parser answers -/

theorem parseComparison_read {eq ne : String → CondExpr} {ts rest : List Token} {e : CondExpr}
    (h : parseComparison eq ne ts = some (e, rest)) :
    ∃ s, (ts = .eq :: .stringLit s :: rest ∧ e = eq s) ∨ (ts = .ne :: .stringLit s :: rest ∧ e = ne s) := by
  unfold parseComparison at h
  split at h
  · next s ts =>
      obtain ⟨rfl, rfl⟩ := Prod.mk.inj (Option.some.inj h)
      exact ⟨s, Or.inl ⟨rfl, rfl⟩⟩
  · next s ts =>
      obtain ⟨rfl, rfl⟩ := Prod.mk.inj (Option.some.inj h)
      exact ⟨s, Or.inr ⟨rfl, rfl⟩⟩
  · cases h

/-- What one function of the parser answers is derived from the tokens it has read. -/
def Reads (n : Nonterminal) (parse : List Token → Option (CondExpr × List Token)) : Prop :=
  ∀ ⦃ts rest : List Token⦄ ⦃e : CondExpr⦄, parse ts = some (e, rest) →
    ∃ us, ts = us ++ rest ∧ Derives n us e

/-- The loops: what was read before them, and what they read. -/
def Extends (n : Nonterminal) (parse : CondExpr → List Token → Option (CondExpr × List Token)) : Prop :=
  ∀ ⦃left : CondExpr⦄ ⦃ls ts rest : List Token⦄ ⦃e : CondExpr⦄, Derives n ls left →
    parse left ts = some (e, rest) → ∃ us, ts = us ++ rest ∧ Derives n (ls ++ us) e

theorem parsePrimary_reads {fuel : Nat} (hor : Reads .orExpr (parseOr fuel)) :
    Reads .primary (parsePrimary (fuel + 1)) := by
  intro ts rest e h
  unfold parsePrimary at h
  split at h
  · cases ‹fuel + 1 = 0›
  · next fuel' ts heq =>
      obtain rfl := Nat.succ.inj heq
      split at h
      · next inner ts' hinner =>
          obtain ⟨rfl, rfl⟩ := Prod.mk.inj (Option.some.inj h)
          obtain ⟨us, rfl, hus⟩ := hor hinner
          exact ⟨.lParen :: us ++ [.rParen], by simp, .paren hus⟩
      · cases h
  · rcases parseComparison_read h with ⟨s, ⟨rfl, rfl⟩ | ⟨rfl, rfl⟩⟩
    · exact ⟨_, rfl, .statusEq s⟩
    · exact ⟨_, rfl, .statusNe s⟩
  · next s ts _ =>
      obtain ⟨rfl, rfl⟩ := Prod.mk.inj (Option.some.inj h)
      exact ⟨_, rfl, .contains s⟩
  · next key ts _ =>
      rcases parseComparison_read h with ⟨s, ⟨rfl, rfl⟩ | ⟨rfl, rfl⟩⟩
      · exact ⟨_, rfl, .contextEq key s⟩
      · exact ⟨_, rfl, .contextNe key s⟩
  · cases h

theorem parseUnary_reads {fuel : Nat} (hunary : Reads .unary (parseUnary fuel))
    (hprimary : Reads .primary (parsePrimary fuel)) : Reads .unary (parseUnary (fuel + 1)) := by
  intro ts rest e h
  unfold parseUnary at h
  split at h
  · cases ‹fuel + 1 = 0›
  · next fuel' ts heq =>
      obtain rfl := Nat.succ.inj heq
      split at h
      · next inner ts' hinner =>
          obtain ⟨rfl, rfl⟩ := Prod.mk.inj (Option.some.inj h)
          obtain ⟨us, rfl, hus⟩ := hunary hinner
          exact ⟨.not :: us, rfl, .not hus⟩
      · cases h
  · next fuel' heq _ =>
      obtain rfl := Nat.succ.inj heq
      obtain ⟨us, rfl, hus⟩ := hprimary h
      exact ⟨us, rfl, .primary hus⟩

theorem parseAndRest_reads {fuel : Nat} (hunary : Reads .unary (parseUnary fuel))
    (hrest : Extends .andExpr (parseAndRest fuel)) : Extends .andExpr (parseAndRest (fuel + 1)) := by
  intro left ls ts rest e hleft h
  unfold parseAndRest at h
  split at h
  · cases ‹fuel + 1 = 0›
  · next fuel' left ts heq =>
      obtain rfl := Nat.succ.inj heq
      split at h
      · next right ts' hright =>
          obtain ⟨us, rfl, hus⟩ := hunary hright
          obtain ⟨vs, rfl, hvs⟩ := hrest (.and hleft hus) h
          exact ⟨.and :: us ++ vs, by simp, by simpa using hvs⟩
      · cases h
  · obtain ⟨rfl, rfl⟩ := Prod.mk.inj (Option.some.inj h)
    exact ⟨[], rfl, by simpa using hleft⟩

theorem parseAnd_reads {fuel : Nat} (hunary : Reads .unary (parseUnary fuel))
    (hrest : Extends .andExpr (parseAndRest fuel)) : Reads .andExpr (parseAnd (fuel + 1)) := by
  intro ts rest e h
  unfold parseAnd at h
  split at h
  · next left ts' hleft =>
      obtain ⟨us, rfl, hus⟩ := hunary hleft
      obtain ⟨vs, rfl, hvs⟩ := hrest (.unary hus) h
      exact ⟨us ++ vs, by simp, hvs⟩
  · cases h

theorem parseOrRest_reads {fuel : Nat} (hand : Reads .andExpr (parseAnd fuel))
    (hrest : Extends .orExpr (parseOrRest fuel)) : Extends .orExpr (parseOrRest (fuel + 1)) := by
  intro left ls ts rest e hleft h
  unfold parseOrRest at h
  split at h
  · cases ‹fuel + 1 = 0›
  · next fuel' left ts heq =>
      obtain rfl := Nat.succ.inj heq
      split at h
      · next right ts' hright =>
          obtain ⟨us, rfl, hus⟩ := hand hright
          obtain ⟨vs, rfl, hvs⟩ := hrest (.or hleft hus) h
          exact ⟨.or :: us ++ vs, by simp, by simpa using hvs⟩
      · cases h
  · obtain ⟨rfl, rfl⟩ := Prod.mk.inj (Option.some.inj h)
    exact ⟨[], rfl, by simpa using hleft⟩

theorem parseOr_reads {fuel : Nat} (hand : Reads .andExpr (parseAnd fuel))
    (hrest : Extends .orExpr (parseOrRest fuel)) : Reads .orExpr (parseOr (fuel + 1)) := by
  intro ts rest e h
  unfold parseOr at h
  split at h
  · next left ts' hleft =>
      obtain ⟨us, rfl, hus⟩ := hand hleft
      obtain ⟨vs, rfl, hvs⟩ := hrest (.andExpr hus) h
      exact ⟨us ++ vs, by simp, hvs⟩
  · cases h

/-- **Soundness of the parser**, all six functions together. -/
theorem parser_reads (fuel : Nat) :
    Reads .orExpr (parseOr fuel) ∧ Extends .orExpr (parseOrRest fuel) ∧
      Reads .andExpr (parseAnd fuel) ∧ Extends .andExpr (parseAndRest fuel) ∧
      Reads .unary (parseUnary fuel) ∧ Reads .primary (parsePrimary fuel) := by
  induction fuel with
  | zero =>
      refine ⟨?_, ?_, ?_, ?_, ?_, ?_⟩
      · exact fun ts rest e h => nomatch h
      · exact fun left ls ts rest e hleft h => nomatch h
      · exact fun ts rest e h => nomatch h
      · exact fun left ls ts rest e hleft h => nomatch h
      · exact fun ts rest e h => nomatch h
      · exact fun ts rest e h => nomatch h
  | succ fuel ih =>
      obtain ⟨hor, horRest, hand, handRest, hunary, hprimary⟩ := ih
      exact ⟨parseOr_reads hand horRest, parseOrRest_reads hand horRest, parseAnd_reads hunary handRest,
        parseAndRest_reads hunary handRest, parseUnary_reads hunary hprimary, parsePrimary_reads hor⟩

/-! ## What the parser finds -/

theorem parseAndRest_done {fuel : Nat} {left : CondExpr} {ts : List Token} (h : ts.head? ≠ some .and) :
    parseAndRest (fuel + 1) left ts = some (left, ts) := by
  cases ts with
  | nil => rfl
  | cons t ts =>
      cases t with
      | and => exact absurd rfl h
      | _ => rfl

theorem parseOrRest_done {fuel : Nat} {left : CondExpr} {ts : List Token} (h : ts.head? ≠ some .or) :
    parseOrRest (fuel + 1) left ts = some (left, ts) := by
  cases ts with
  | nil => rfl
  | cons t ts =>
      cases t with
      | or => exact absurd rfl h
      | _ => rfl

theorem parseUnary_primary {fuel : Nat} {ts : List Token} {e : CondExpr} {rest : List Token}
    (h : parsePrimary fuel ts = some (e, rest)) : parseUnary (fuel + 1) ts = some (e, rest) := by
  cases ts with
  | nil => exact h
  | cons t ts =>
      cases t with
      | not =>
          cases fuel with
          | zero => cases h
          | succ fuel => cases h
      | _ => exact h

/-- What a function finds of a derived list of `n` tokens.  The two loops are left
where the list ends, with the fuel that is left over; whether they go on depends
on what follows. -/
def Finds : Nonterminal → List Token → CondExpr → Prop
  | .primary, us, e => ∀ fuel rest, 4 * us.length ≤ fuel + 3 →
      parsePrimary (fuel + 1) (us ++ rest) = some (e, rest)
  | .unary, us, e => ∀ fuel rest, 4 * us.length ≤ fuel + 3 →
      parseUnary (fuel + 2) (us ++ rest) = some (e, rest)
  | .andExpr, us, e => ∀ fuel, 4 * us.length ≤ fuel + 3 → ∃ left, fuel + 2 ≤ left + us.length ∧
      ∀ rest, parseAnd (fuel + 3) (us ++ rest) = parseAndRest left e rest
  | .orExpr, us, e => ∀ fuel, 4 * us.length ≤ fuel + 3 → ∃ left, fuel + 3 ≤ left + us.length ∧
      ∀ rest, rest.head? ≠ some .and → parseOr (fuel + 4) (us ++ rest) = parseOrRest left e rest

theorem Derives.nonempty {n : Nonterminal} {ts : List Token} {e : CondExpr} (h : Derives n ts e) :
    1 ≤ ts.length := by
  induction h with
  | and ha hb iha ihb =>
      rw [List.length_append]
      omega
  | or ha hb iha ihb =>
      rw [List.length_append]
      omega
  | primary h ih => exact ih
  | unary h ih => exact ih
  | andExpr h ih => exact ih
  | _ => simp

/-- An and-expression is read to its end where no `&&` follows. -/
theorem parseAnd_of_finds {us : List Token} {e : CondExpr} (h : Finds .andExpr us e) {fuel : Nat}
    (hfuel : 4 * us.length ≤ fuel + 3) (_ : 1 ≤ us.length) {rest : List Token}
    (hrest : rest.head? ≠ some .and) : parseAnd (fuel + 3) (us ++ rest) = some (e, rest) := by
  obtain ⟨left, hleft, heq⟩ := h fuel hfuel
  obtain ⟨left, rfl⟩ := Nat.exists_eq_add_of_le' (show 1 ≤ left by omega)
  rw [heq rest, parseAndRest_done hrest]

theorem parseOr_of_finds {us : List Token} {e : CondExpr} (h : Finds .orExpr us e) {fuel : Nat}
    (hfuel : 4 * us.length ≤ fuel + 3) (_ : 1 ≤ us.length) {rest : List Token}
    (hand : rest.head? ≠ some .and) (hor : rest.head? ≠ some .or) :
    parseOr (fuel + 4) (us ++ rest) = some (e, rest) := by
  obtain ⟨left, hleft, heq⟩ := h fuel hfuel
  obtain ⟨left, rfl⟩ := Nat.exists_eq_add_of_le' (show 1 ≤ left by omega)
  rw [heq rest hand, parseOrRest_done hor]

/-- **Completeness of the parser**: a rule of the grammar at a time. -/
theorem Derives.finds {n : Nonterminal} {us : List Token} {e : CondExpr} (h : Derives n us e) :
    Finds n us e := by
  induction h with
  | statusEq s => exact fun fuel rest _ => rfl
  | statusNe s => exact fun fuel rest _ => rfl
  | contains s => exact fun fuel rest _ => rfl
  | contextEq key s => exact fun fuel rest _ => rfl
  | contextNe key s => exact fun fuel rest _ => rfl
  | @paren ts e h ih =>
      intro fuel rest hfuel
      simp only [List.length_cons, List.length_append, List.length_nil] at hfuel
      obtain ⟨fuel, rfl⟩ := Nat.exists_eq_add_of_le' (show 4 ≤ fuel by omega)
      have hinner := parseOr_of_finds ih (show 4 * ts.length ≤ fuel + 3 by omega) h.nonempty
        (show (Token.rParen :: rest).head? ≠ some .and by simp) (by simp)
      show parsePrimary (fuel + 4 + 1) (.lParen :: (ts ++ [.rParen] ++ rest)) = _
      rw [List.append_assoc, List.singleton_append, parsePrimary, hinner]
  | primary h ih => exact fun fuel rest hfuel => parseUnary_primary (ih fuel rest hfuel)
  | @not ts e h ih =>
      intro fuel rest hfuel
      simp only [List.length_cons] at hfuel
      obtain ⟨fuel, rfl⟩ := Nat.exists_eq_add_of_le' (show 1 ≤ fuel by omega)
      show parseUnary (fuel + 2 + 1) (.not :: (ts ++ rest)) = _
      rw [parseUnary, ih fuel rest (by omega)]
  | unary h ih =>
      refine fun fuel hfuel => ⟨fuel + 2, by omega, ?_⟩
      intro rest
      rw [parseAnd, ih fuel rest hfuel]
  | @and ts us a b ha hb iha ihb =>
      intro fuel hfuel
      simp only [List.length_append, List.length_cons] at hfuel
      obtain ⟨left, hleft, heq⟩ := iha fuel (by omega)
      -- one unit for the `&&`, and two below it for its right side
      obtain ⟨left, rfl⟩ := Nat.exists_eq_add_of_le' (show 3 ≤ left by omega)
      refine ⟨left + 2, by simp only [List.length_append, List.length_cons]; omega, ?_⟩
      intro rest
      rw [List.append_assoc, heq, List.cons_append]
      show parseAndRest (left + 2 + 1) a (.and :: (us ++ rest)) = _
      rw [parseAndRest, ihb left rest (by omega)]
  | @andExpr ts e h ih =>
      refine fun fuel hfuel => ⟨fuel + 3, by omega, ?_⟩
      intro rest hrest
      rw [parseOr, parseAnd_of_finds ih hfuel h.nonempty hrest]
  | @or ts us a b ha hb iha ihb =>
      intro fuel hfuel
      simp only [List.length_append, List.length_cons] at hfuel
      obtain ⟨left, hleft, heq⟩ := iha fuel (by omega)
      obtain ⟨left, rfl⟩ := Nat.exists_eq_add_of_le' (show 4 ≤ left by omega)
      refine ⟨left + 3, by simp only [List.length_append, List.length_cons]; omega, ?_⟩
      intro rest hrest
      rw [List.append_assoc, heq _ (by simp), List.cons_append]
      show parseOrRest (left + 3 + 1) a (.or :: (us ++ rest)) = _
      rw [parseOrRest, parseAnd_of_finds ihb (show 4 * us.length ≤ left + 3 by omega) hb.nonempty hrest]

/-- **The parser decides the grammar**: the tokens are read to the end as one
expression exactly if they derive it. -/
theorem parseOr_iff {ts : List Token} {e : CondExpr} :
    parseOr (4 * ts.length + 4) ts = some (e, []) ↔ Derives .orExpr ts e := by
  constructor
  · intro h
    obtain ⟨us, hts, hus⟩ := (parser_reads _).1 h
    rw [List.append_nil] at hts
    rwa [hts]
  · intro h
    have hfind := parseOr_of_finds h.finds (show 4 * ts.length ≤ 4 * ts.length + 3 by omega) h.nonempty
      (show ([] : List Token).head? ≠ some .and by simp) (by simp)
    rwa [List.append_nil] at hfind

end Octos.Pipeline
