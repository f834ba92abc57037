/-
# `Octos.Pipeline.ConditionRender` — writing a condition

The other direction of the condition language: `renderCondition` writes an expression with
as few parentheses as the grammar allows.

      a || (b || c)     a || b || c        the grouping is lost
      a && (b || c)     a && (b || c)
      !(a && b)         !(a && b)

Since `||` and `&&` group to the left, what is read back may be another tree, but it
evaluates to the same (`words_derives`).  Any text can stand in a string literal;
a context key must be a word, and nothing says `CondExpr.true`.
-/
import Octos.Pipeline.ConditionText

namespace Octos.Pipeline

/-! ## Writing -/

/-- The kind of expression that says it without parentheses. -/
def kindOf : CondExpr → Nonterminal
  | .or _ _ => .orExpr
  | .and _ _ => .andExpr
  | .not _ => .unary
  | _ => .primary

/-- How tightly a kind binds. -/
def Nonterminal.tightness : Nonterminal → Nat
  | .orExpr => 0
  | .andExpr => 1
  | .unary => 2
  | .primary => 3

/-- In parentheses, if the place binds more tightly than the expression. -/
def wrap (place : Nonterminal) (e : CondExpr) (ts : List Token) : List Token :=
  if place.tightness ≤ (kindOf e).tightness then ts else .lParen :: ts ++ [.rParen]

def words : CondExpr → List Token
  | .statusEq s => [.ident "outcome", .dot, .ident "status", .eq, .stringLit s]
  | .statusNe s => [.ident "outcome", .dot, .ident "status", .ne, .stringLit s]
  | .contains s => [.ident "outcome", .dot, .ident "contains", .lParen, .stringLit s, .rParen]
  | .contextEq key s => [.ident "context", .dot, .ident key, .eq, .stringLit s]
  | .contextNe key s => [.ident "context", .dot, .ident key, .ne, .stringLit s]
  | .not e => .not :: wrap .unary e (words e)
  | .and a b => wrap .andExpr a (words a) ++ .and :: wrap .andExpr b (words b)
  | .or a b => words a ++ .or :: words b
  | .true => []

def escapeLiteral : Char → List Char
  | '\\' => ['\\', '\\']
  | '"' => ['\\', '"']
  | '\n' => ['\\', 'n']
  | '\t' => ['\\', 't']
  | ch => [ch]

def Token.spelling : Token → List Char
  | .ident s => s.toList
  | .stringLit s => '"' :: s.toList.flatMap escapeLiteral ++ ['"']
  | .eq => ['=', '=']
  | .ne => ['!', '=']
  | .and => ['&', '&']
  | .or => ['|', '|']
  | .not => ['!']
  | .lParen => ['(']
  | .rParen => [')']
  | .dot => ['.']

/-- The blanks around an operator. -/
def Token.margin : Token → List Char
  | .eq | .ne | .and | .or => [' ']
  | _ => []

def renderCondition (e : CondExpr) : String :=
  String.ofList ((words e).flatMap fun t => t.margin ++ t.spelling ++ t.margin)

example : renderCondition (.and (.statusEq "pass") (.not (.or (.contains "a\"b") (.contextNe "k" "v")))) =
    "outcome.status == \"pass\" && !(outcome.contains(\"a\\\"b\") || context.k != \"v\")" := by
  decide +kernel

/-! ## What can be written -/

def hasTrue : CondExpr → Bool
  | .not e => hasTrue e
  | .and a b | .or a b => hasTrue a || hasTrue b
  | .true => true
  | _ => false

def contextKeys : CondExpr → List String
  | .contextEq key _ | .contextNe key _ => [key]
  | .not e => contextKeys e
  | .and a b | .or a b => contextKeys a ++ contextKeys b
  | _ => []

/-- An `IDENT`. -/
def IsIdent (s : String) : Prop :=
  s.toList ≠ [] ∧ ∀ ch ∈ s.toList, isIdentChar ch = true

theorem isIdent_of_all {s : String} (hne : s.toList.isEmpty = false) (h : s.toList.all isIdentChar = true) :
    IsIdent s :=
  ⟨List.isEmpty_eq_false_iff.mp hne, List.all_eq_true.mp h⟩

/-- Two expressions that no outcome and no context tells apart. -/
def SameMeaning (a b : CondExpr) : Prop :=
  ∀ outcome ctx, evaluateWithContext outcome ctx a = evaluateWithContext outcome ctx b

/-! ## Reading back the tokens -/

theorem Derives.loosen {m n : Nonterminal} {ts : List Token} {e : CondExpr} (h : Derives m ts e)
    (hle : n.tightness ≤ m.tightness) : Derives n ts e := by
  cases m with
  | orExpr =>
      cases n with
      | orExpr => exact h
      | _ => exact absurd hle (by decide)
  | andExpr =>
      cases n with
      | orExpr => exact .andExpr h
      | andExpr => exact h
      | _ => exact absurd hle (by decide)
  | unary =>
      cases n with
      | orExpr => exact .andExpr (.unary h)
      | andExpr => exact .unary h
      | unary => exact h
      | primary => exact absurd hle (by decide)
  | primary =>
      cases n with
      | orExpr => exact .andExpr (.unary (.primary h))
      | andExpr => exact .unary (.primary h)
      | unary => exact .primary h
      | primary => exact h

/-- A place takes what is wrapped for it. -/
theorem wrap_derives {place : Nonterminal} {e e' : CondExpr} {ts : List Token}
    (h : Derives (kindOf e) ts e') : Derives place (wrap place e ts) e' := by
  unfold wrap
  split
  · next hle => exact h.loosen hle
  · exact (Derives.paren (h.loosen (Nat.zero_le _))).loosen (show place.tightness ≤ 3 by cases place <;> decide)

/-- An or-expression behind `||`: the grouping moves to the left. -/
theorem Derives.join_or {ts us : List Token} {a b : CondExpr} (ha : Derives .orExpr ts a)
    (hb : Derives .orExpr us b) : ∃ e, Derives .orExpr (ts ++ .or :: us) e ∧ SameMeaning e (.or a b) := by
  generalize hkind : Nonterminal.orExpr = kind at hb
  induction hb with
  | andExpr hb ih => exact ⟨.or a _, .or ha hb, fun _ _ => rfl⟩
  | @or us vs b c hb hc ihb ihc =>
      obtain ⟨e, he, hsame⟩ := ihb rfl
      refine ⟨.or e c, ?_, ?_⟩
      · simpa using Derives.or he hc
      · intro outcome ctx
        rw [evaluateWithContext, hsame outcome ctx, evaluateWithContext, evaluateWithContext,
          evaluateWithContext, Bool.or_assoc]
  | _ => cases hkind

theorem Derives.join_and {ts us : List Token} {a b : CondExpr} (ha : Derives .andExpr ts a)
    (hb : Derives .andExpr us b) : ∃ e, Derives .andExpr (ts ++ .and :: us) e ∧ SameMeaning e (.and a b) := by
  generalize hkind : Nonterminal.andExpr = kind at hb
  induction hb with
  | unary hb ih => exact ⟨.and a _, .and ha hb, fun _ _ => rfl⟩
  | @and us vs b c hb hc ihb ihc =>
      obtain ⟨e, he, hsame⟩ := ihb rfl
      refine ⟨.and e c, ?_, ?_⟩
      · simpa using Derives.and he hc
      · intro outcome ctx
        rw [evaluateWithContext, hsame outcome ctx, evaluateWithContext, evaluateWithContext,
          evaluateWithContext, Bool.and_assoc]
  | _ => cases hkind

/-- **The tokens of an expression say an expression of the same meaning.** -/
theorem words_derives {e : CondExpr} (h : hasTrue e = false) :
    ∃ e', Derives (kindOf e) (words e) e' ∧ SameMeaning e' e := by
  induction e with
  | statusEq s => exact ⟨_, .statusEq s, fun _ _ => rfl⟩
  | statusNe s => exact ⟨_, .statusNe s, fun _ _ => rfl⟩
  | contains s => exact ⟨_, .contains s, fun _ _ => rfl⟩
  | contextEq key s => exact ⟨_, .contextEq key s, fun _ _ => rfl⟩
  | contextNe key s => exact ⟨_, .contextNe key s, fun _ _ => rfl⟩
  | not e ih =>
      obtain ⟨e', he, hsame⟩ := ih h
      refine ⟨.not e', .not (wrap_derives he), ?_⟩
      intro outcome ctx
      rw [evaluateWithContext, evaluateWithContext, hsame outcome ctx]
  | and a b iha ihb =>
      obtain ⟨hfreeA, hfreeB⟩ := Bool.or_eq_false_iff.mp h
      obtain ⟨a', ha, hsameA⟩ := iha hfreeA
      obtain ⟨b', hb, hsameB⟩ := ihb hfreeB
      obtain ⟨e', he, hsame⟩ := Derives.join_and (@wrap_derives .andExpr _ _ _ ha) (wrap_derives hb)
      refine ⟨e', he, ?_⟩
      intro outcome ctx
      rw [hsame outcome ctx, evaluateWithContext, evaluateWithContext, hsameA outcome ctx, hsameB outcome ctx]
  | or a b iha ihb =>
      obtain ⟨hfreeA, hfreeB⟩ := Bool.or_eq_false_iff.mp h
      obtain ⟨a', ha, hsameA⟩ := iha hfreeA
      obtain ⟨b', hb, hsameB⟩ := ihb hfreeB
      obtain ⟨e', he, hsame⟩ :=
        Derives.join_or (ha.loosen (Nat.zero_le _)) (hb.loosen (Nat.zero_le _))
      refine ⟨e', he, ?_⟩
      intro outcome ctx
      rw [hsame outcome ctx, evaluateWithContext, evaluateWithContext, hsameA outcome ctx, hsameB outcome ctx]
  | true => cases h

/-! ## Reading back the text -/

theorem escapes_literal (value : List Char) : Literal (value.flatMap escapeLiteral) value := by
  induction value with
  | nil => exact .nil
  | cons ch value ih =>
      rw [List.flatMap_cons]
      unfold escapeLiteral
      split
      · exact .backslash ih
      · exact .quote ih
      · exact .newline ih
      · exact .tab ih
      · next hback hquote _ _ => exact .plain hquote hback ih

/-- The words among the tokens are words. -/
def Written (ts : List Token) : Prop :=
  ∀ w, .ident w ∈ ts → IsIdent w

theorem Token.spelled {t : Token} (h : ∀ w, t = .ident w → IsIdent w) : Spelling t t.spelling := by
  cases t with
  | ident w =>
      have hw := Spelling.ident (h w rfl).1 (h w rfl).2
      rwa [String.ofList_toList] at hw
  | stringLit s =>
      have hs := Spelling.stringLit (escapes_literal s.toList)
      rwa [String.ofList_toList] at hs
  | eq => exact .eq
  | ne => exact .ne
  | and => exact .and
  | or => exact .or
  | not => exact .not
  | lParen => exact .lParen
  | rParen => exact .rParen
  | dot => exact .dot

theorem Token.margin_blanks (t : Token) : Blanks t.margin := by
  have hone : Blanks [' '] := Blanks.nil.cons rfl
  cases t with
  | eq => exact hone
  | ne => exact hone
  | and => exact hone
  | or => exact hone
  | _ => exact Blanks.nil

/-- The blanks behind an operator stand before the next token. -/
theorem spells_written {ts : List Token} (h : Written ts) {g : List Char} (hg : Blanks g) :
    Spells ts (g ++ ts.flatMap fun t => t.margin ++ t.spelling ++ t.margin) := by
  induction ts generalizing g with
  | nil => simpa using Spells.nil hg
  | cons t ts ih =>
      have hgap : Blanks (g ++ t.margin) := fun ch hch =>
        (List.mem_append.mp hch).elim (hg ch) (t.margin_blanks ch)
      have htoken := t.spelled fun w hw => h w (hw ▸ List.mem_cons_self)
      have hrest := ih (fun w hw => h w (List.mem_cons_of_mem _ hw)) t.margin_blanks
      simpa using Spells.cons hgap htoken hrest

theorem wrap_written {place : Nonterminal} {e : CondExpr} {ts : List Token} (h : Written ts) :
    Written (wrap place e ts) := by
  intro w hw
  unfold wrap at hw
  split at hw
  · exact h w hw
  · simp only [List.cons_append, List.mem_cons, List.mem_append, reduceCtorEq, List.not_mem_nil, or_false,
      false_or] at hw
    exact h w hw

theorem words_written {e : CondExpr} (h : ∀ key ∈ contextKeys e, IsIdent key) : Written (words e) := by
  have hkey : ∀ {key s : String} {op : Token}, IsIdent key → (∀ w, op ≠ .ident w) →
      Written [.ident "context", .dot, .ident key, op, .stringLit s] := by
    intro key s op hkey hop w hw
    simp only [List.mem_cons, Token.ident.injEq, reduceCtorEq, List.not_mem_nil, or_false, false_or,
      (hop w).symm] at hw
    rcases hw with rfl | rfl
    · exact isIdent_of_all rfl rfl
    · exact hkey
  induction e with
  | statusEq s =>
      intro w hw
      simp only [words, List.mem_cons, Token.ident.injEq, reduceCtorEq, List.not_mem_nil, or_false,
        false_or] at hw
      rcases hw with rfl | rfl <;> exact isIdent_of_all rfl rfl
  | statusNe s =>
      intro w hw
      simp only [words, List.mem_cons, Token.ident.injEq, reduceCtorEq, List.not_mem_nil, or_false,
        false_or] at hw
      rcases hw with rfl | rfl <;> exact isIdent_of_all rfl rfl
  | contains s =>
      intro w hw
      simp only [words, List.mem_cons, Token.ident.injEq, reduceCtorEq, List.not_mem_nil, or_false,
        false_or] at hw
      rcases hw with rfl | rfl <;> exact isIdent_of_all rfl rfl
  | contextEq key s => exact hkey (h key List.mem_cons_self) nofun
  | contextNe key s => exact hkey (h key List.mem_cons_self) nofun
  | not e ih =>
      intro w hw
      rcases List.mem_cons.mp hw with hw | hw
      · cases hw
      · exact wrap_written (ih h) w hw
  | and a b iha ihb =>
      intro w hw
      rcases List.mem_append.mp hw with hw | hw
      · exact wrap_written (iha fun key hkey => h key (List.mem_append_left _ hkey)) w hw
      · rcases List.mem_cons.mp hw with hw | hw
        · cases hw
        · exact wrap_written (ihb fun key hkey => h key (List.mem_append_right _ hkey)) w hw
  | or a b iha ihb =>
      intro w hw
      rcases List.mem_append.mp hw with hw | hw
      · exact iha (fun key hkey => h key (List.mem_append_left _ hkey)) w hw
      · rcases List.mem_cons.mp hw with hw | hw
        · cases hw
        · exact ihb (fun key hkey => h key (List.mem_append_right _ hkey)) w hw
  | true => exact fun w hw => nomatch hw

/-- **What is written is a sentence of the same meaning.** -/
theorem renderCondition_sentence {e : CondExpr} (htrue : hasTrue e = false)
    (hkeys : ∀ key ∈ contextKeys e, IsIdent key) :
    ∃ e', Sentence (renderCondition e).toList e' ∧ SameMeaning e' e := by
  obtain ⟨e', he, hsame⟩ := words_derives htrue
  refine ⟨e', ⟨words e, ?_, he.loosen (Nat.zero_le _)⟩, hsame⟩
  unfold renderCondition
  rw [String.toList_ofList]
  exact spells_written (words_written hkeys) Blanks.nil

/-- **The condition language.**  A string that is no sentence cut off in its last literal
parses exactly if it is a sentence of the grammar, and then to the one tree it says.  And
an expression without `CondExpr.true` whose context keys are words is read back from its
rendering as an expression that evaluates to the same under every outcome and context. -/
theorem condition_language :
    (∀ input : String, (∀ e, ¬CutShort input.toList e) →
      (∀ e, parseCondition input = some e ↔ Sentence input.toList e) ∧
        ∀ a b, Sentence input.toList a → Sentence input.toList b → a = b) ∧
    (∀ e : CondExpr, hasTrue e = false → (∀ key ∈ contextKeys e, IsIdent key) →
      ∃ e', parseCondition (renderCondition e) = some e' ∧
        ∀ outcome ctx, evaluateWithContext outcome ctx e' = evaluateWithContext outcome ctx e) := by
  refine ⟨?_, ?_⟩
  · intro input hwhole
    refine ⟨?_, fun a b => Sentence.unique⟩
    intro e
    rw [parseCondition_iff]
    exact or_iff_left (hwhole e)
  · intro e htrue hkeys
    obtain ⟨e', he, hsame⟩ := renderCondition_sentence htrue hkeys
    exact ⟨e', parseCondition_iff.mpr (Or.inl he), hsame⟩

theorem condition_language_pass :
    Sentence "outcome.status == \"pass\"".toList (.statusEq "pass") ∧
      ∃ e', parseCondition (renderCondition (.or (.contains "中\"") (.not (.contextNe "k" "v")))) = some e' ∧
        ∀ outcome ctx, evaluateWithContext outcome ctx e' =
          evaluateWithContext outcome ctx (.or (.contains "中\"") (.not (.contextNe "k" "v"))) := by
  have hwhole : ∀ e, ¬CutShort "outcome.status == \"pass\"".toList e := by
    rintro e (⟨ts, hs, -⟩ | ⟨ts, hs, -⟩)
    · exact absurd hs.closed (by decide +kernel)
    · exact absurd hs.closed (by decide +kernel)
  have hkeys : ∀ key ∈ contextKeys (.or (.contains "中\"") (.not (.contextNe "k" "v"))), IsIdent key := by
    intro key hkey
    obtain rfl := List.mem_singleton.mp hkey
    exact isIdent_of_all rfl rfl
  exact ⟨((condition_language.1 _ hwhole).1 _).mp (by decide +kernel), condition_language.2 _ rfl hkeys⟩

/-- An open literal is accepted, and a key with a blank is not read back. -/
theorem open_literal_parses :
    (parseCondition "outcome.status == \"pass" = some (.statusEq "pass") ∧
      ¬Sentence "outcome.status == \"pass".toList (.statusEq "pass")) ∧
    (hasTrue (.contextEq "a b" "x") = false ∧
      parseCondition (renderCondition (.contextEq "a b" "x")) = none) := by
  refine ⟨⟨by decide +kernel, ?_⟩, rfl, by decide +kernel⟩
  rintro ⟨ts, hs, -⟩
  exact absurd hs.closed (by decide +kernel)

end Octos.Pipeline
