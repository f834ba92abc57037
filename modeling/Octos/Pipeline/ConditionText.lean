/-
# `Octos.Pipeline.ConditionText` — sentences as texts

`Spells` is the relation of a list of tokens to its texts: white space may stand
before a token and at the end, a word is made of letters, digits and `_`, and a
string literal is closed.  Nothing says where a token ends; that the longest
reading is the only one follows from what can stand next to what in a derived
list (`Apart`).

`lex` reads a text of the tokens back, but also one that breaks off inside a
string literal.  What parses is therefore a sentence, or a sentence cut off inside
its last literal (`parseCondition_iff`).
-/
import Octos.Pipeline.ConditionGrammar

namespace Octos.Pipeline

/-! ## Texts of tokens -/

def isBlank (ch : Char) : Bool :=
  ch == ' ' || ch == '\t' || ch == '\n' || ch == '\r'

def Blanks (g : List Char) : Prop :=
  ∀ ch ∈ g, isBlank ch = true

/-- The text between the quotes, and what it stands for. -/
inductive Literal : List Char → List Char → Prop
  | nil : Literal [] []
  | plain {ch : Char} {text value : List Char} (hquote : ch ≠ '"') (hback : ch ≠ '\\')
      (h : Literal text value) : Literal (ch :: text) (ch :: value)
  | newline {text value : List Char} (h : Literal text value) :
      Literal ('\\' :: 'n' :: text) ('\n' :: value)
  | tab {text value : List Char} (h : Literal text value) : Literal ('\\' :: 't' :: text) ('\t' :: value)
  | backslash {text value : List Char} (h : Literal text value) :
      Literal ('\\' :: '\\' :: text) ('\\' :: value)
  | quote {text value : List Char} (h : Literal text value) : Literal ('\\' :: '"' :: text) ('"' :: value)
  /-- An unknown escape stands for itself. -/
  | other {ch : Char} {text value : List Char} (hn : ch ≠ 'n') (ht : ch ≠ 't') (hback : ch ≠ '\\')
      (hquote : ch ≠ '"') (h : Literal text value) : Literal ('\\' :: ch :: text) ('\\' :: ch :: value)

/-- How a token is written. -/
inductive Spelling : Token → List Char → Prop
  | ident {w : List Char} (hne : w ≠ []) (hw : ∀ ch ∈ w, isIdentChar ch = true) :
      Spelling (.ident (String.ofList w)) w
  | stringLit {text value : List Char} (h : Literal text value) :
      Spelling (.stringLit (String.ofList value)) ('"' :: text ++ ['"'])
  | eq : Spelling .eq ['=', '=']
  | ne : Spelling .ne ['!', '=']
  | and : Spelling .and ['&', '&']
  | or : Spelling .or ['|', '|']
  | not : Spelling .not ['!']
  | lParen : Spelling .lParen ['(']
  | rParen : Spelling .rParen [')']
  | dot : Spelling .dot ['.']

/-- A text of a list of tokens. -/
inductive Spells : List Token → List Char → Prop
  | nil {g : List Char} (hg : Blanks g) : Spells [] g
  | cons {g w text : List Char} {t : Token} {ts : List Token} (hg : Blanks g) (hw : Spelling t w)
      (h : Spells ts text) : Spells (t :: ts) (g ++ (w ++ text))

/-- A sentence of the language, and the tree it says. -/
def Sentence (text : List Char) (e : CondExpr) : Prop :=
  ∃ ts, Spells ts text ∧ Derives .orExpr ts e

theorem Blanks.nil : Blanks [] :=
  fun _ h => nomatch h

theorem Blanks.cons {ch : Char} {g : List Char} (hch : isBlank ch = true) (hg : Blanks g) : Blanks (ch :: g) :=
  List.forall_mem_cons.mpr ⟨hch, hg⟩

theorem Spells.blank {ts : List Token} {text : List Char} {ch : Char} (hch : isBlank ch = true)
    (h : Spells ts text) : Spells ts (ch :: text) := by
  cases h with
  | nil hg => exact .nil (hg.cons hch)
  | cons hg hw h => exact .cons (hg.cons hch) hw h

/-- A token without white space before it. -/
theorem Spells.token {ts : List Token} {text w : List Char} {t : Token} (hw : Spelling t w)
    (h : Spells ts text) : Spells (t :: ts) (w ++ text) :=
  .cons Blanks.nil hw h

/-! ## String literals -/

/-- What is read behind an opening quote: a closed literal, or the text breaks off
in it; a backslash at the very end is then read as itself. -/
def ReadsLiteral (text value rest : List Char) : Prop :=
  (∃ body, Literal body value ∧ text = body ++ '"' :: rest) ∨
    (rest = [] ∧ (Literal text value ∨ Literal (text ++ ['\\']) value))

theorem ReadsLiteral.push {text value rest front val : List Char} (h : ReadsLiteral text value rest)
    (hfront : ∀ {text' value' : List Char}, Literal text' value' → Literal (front ++ text') (val ++ value')) :
    ReadsLiteral (front ++ text) (val ++ value) rest := by
  rcases h with ⟨body, hbody, rfl⟩ | ⟨hnil, hopen | hopen⟩
  · exact Or.inl ⟨front ++ body, hfront hbody, (List.append_assoc ..).symm⟩
  · exact Or.inr ⟨hnil, Or.inl (hfront hopen)⟩
  · exact Or.inr ⟨hnil, Or.inr (List.append_assoc .. ▸ hfront hopen)⟩

theorem lexString_reads (text : List Char) : ReadsLiteral text (lexString text).1 (lexString text).2 := by
  induction text using lexString.induct with
  | case1 => exact Or.inr ⟨rfl, Or.inl .nil⟩
  | case2 rest => exact Or.inl ⟨[], .nil, rfl⟩
  | case3 rest ih => exact @ReadsLiteral.push _ _ _ ['\\', 'n'] ['\n'] ih .newline
  | case4 rest ih => exact @ReadsLiteral.push _ _ _ ['\\', 't'] ['\t'] ih .tab
  | case5 rest ih => exact @ReadsLiteral.push _ _ _ ['\\', '\\'] ['\\'] ih .backslash
  | case6 rest ih => exact @ReadsLiteral.push _ _ _ ['\\', '"'] ['"'] ih .quote
  | case7 rest c hn ht hback hquote ih =>
      have hread := @ReadsLiteral.push _ _ _ ['\\', c] ['\\', c] ih (.other hn ht hback hquote)
      rwa [lexString] <;> assumption
  | case8 c rest hquote hesc ih =>
      have heq : lexString (c :: rest) = (c :: (lexString rest).1, (lexString rest).2) := by
        rw [lexString] <;> assumption
      rw [heq]
      by_cases hback : c = '\\'
      · -- the backslash is the last character
        subst hback
        cases rest with
        | nil => exact Or.inr ⟨rfl, Or.inr (.backslash .nil)⟩
        | cons c' rest => exact (hesc c' rest rfl rfl).elim
      · exact @ReadsLiteral.push _ _ _ [c] [c] ih (.plain (fun h => hquote h) hback)

theorem lexString_closed {body value : List Char} (h : Literal body value) (rest : List Char) :
    lexString (body ++ '"' :: rest) = (value, rest) := by
  induction h with
  | nil => rfl
  | plain hquote hback h ih =>
      rw [List.cons_append, lexString, ih]
      · exact hquote
      · exact fun _ _ hback' _ => hback hback'
  | newline h ih => rw [List.cons_append, List.cons_append, lexString, ih]
  | tab h ih => rw [List.cons_append, List.cons_append, lexString, ih]
  | backslash h ih => rw [List.cons_append, List.cons_append, lexString, ih]
  | quote h ih => rw [List.cons_append, List.cons_append, lexString, ih]
  | other hn ht hback hquote h ih =>
      rw [List.cons_append, List.cons_append, lexString, ih] <;> assumption

/-- Where a text that begins with an escape can be cut off. -/
theorem cut_escape {body tail text : List Char} {ch : Char} (htail : tail = [] ∨ tail = ['\\'])
    (h : body ++ tail = '\\' :: ch :: text) :
    (∃ body', body = '\\' :: ch :: body' ∧ body' ++ tail = text) ∨
      (body = ['\\'] ∧ ch = '\\' ∧ text = []) := by
  cases body with
  | nil => rcases htail with rfl | rfl <;> simp at h
  | cons c body =>
      cases body with
      | nil =>
          rcases htail with rfl | rfl
          · simp at h
          · simp only [List.cons_append, List.nil_append, List.cons.injEq] at h
            obtain ⟨rfl, rfl, rfl⟩ := h
            exact Or.inr ⟨rfl, rfl, rfl⟩
      | cons c' body =>
          simp only [List.cons_append, List.cons.injEq] at h
          obtain ⟨rfl, rfl, hrest⟩ := h
          exact Or.inl ⟨body, rfl, hrest⟩

/-- A literal that is cut off before its closing quote, or between the two
backslashes it ends with, is read as if it were closed. -/
theorem lexString_open {body tail value : List Char} (h : Literal (body ++ tail) value)
    (htail : tail = [] ∨ tail = ['\\']) : lexString body = (value, []) := by
  generalize hwhole : body ++ tail = whole at h
  induction h generalizing body with
  | nil =>
      obtain ⟨rfl, rfl⟩ := List.append_eq_nil_iff.mp hwhole
      rfl
  | @plain ch text value hquote hback h ih =>
      cases body with
      | nil =>
          rcases htail with rfl | rfl
          · cases hwhole
          · exact absurd (List.cons.inj hwhole).1.symm hback
      | cons ch' body =>
          obtain ⟨rfl, hrest⟩ := List.cons.inj hwhole
          rw [lexString, ih hrest]
          · exact hquote
          · exact fun _ _ hback' _ => hback hback'
  | newline h ih =>
      rcases cut_escape htail hwhole with ⟨body, rfl, hrest⟩ | ⟨-, hch, -⟩
      · rw [lexString, ih hrest]
      · cases hch
  | tab h ih =>
      rcases cut_escape htail hwhole with ⟨body, rfl, hrest⟩ | ⟨-, hch, -⟩
      · rw [lexString, ih hrest]
      · cases hch
  | backslash h ih =>
      rcases cut_escape htail hwhole with ⟨body, rfl, hrest⟩ | ⟨rfl, -, rfl⟩
      · rw [lexString, ih hrest]
      · cases h
        rfl
  | quote h ih =>
      rcases cut_escape htail hwhole with ⟨body, rfl, hrest⟩ | ⟨-, hch, -⟩
      · rw [lexString, ih hrest]
      · cases hch
  | other hn ht hback hquote h ih =>
      rcases cut_escape htail hwhole with ⟨body, rfl, hrest⟩ | ⟨-, hch, -⟩
      · rw [lexString, ih hrest] <;> assumption
      · exact absurd hch hback

/-! ## What the tokenizer reads -/

/-- What is missing where a text is cut off in a string literal. -/
def closings : List (List Char) :=
  [[], ['"'], ['\\', '"']]

theorem cons_of_map {t : Token} {o : Option (List Token)} {ts : List Token} (h : (t :: ·) <$> o = some ts) :
    ∃ us, o = some us ∧ ts = t :: us := by
  obtain ⟨us, hus, rfl⟩ := Option.map_eq_some_iff.mp h
  exact ⟨us, hus, rfl⟩

/-- **Soundness of the tokenizer**: its tokens are spelled by the text, or by the text
and what closes its last literal. -/
theorem lex_reads {fuel : Nat} {text : List Char} {ts : List Token} (h : lex fuel text = some ts) :
    ∃ tail ∈ closings, Spells ts (text ++ tail) := by
  have hblank : ∀ {ch : Char} {rest : List Char} {ts : List Token}, isBlank ch = true →
      (∃ tail ∈ closings, Spells ts (rest ++ tail)) → ∃ tail ∈ closings, Spells ts (ch :: rest ++ tail) := by
    rintro ch rest ts hch ⟨tail, htail, hs⟩
    exact ⟨tail, htail, hs.blank hch⟩
  have htoken : ∀ {w rest : List Char} {t : Token} {ts : List Token}, Spelling t w →
      (∃ tail ∈ closings, Spells ts (rest ++ tail)) →
      ∃ tail ∈ closings, Spells (t :: ts) (w ++ rest ++ tail) := by
    rintro w rest t ts hw ⟨tail, htail, hs⟩
    exact ⟨tail, htail, List.append_assoc .. ▸ hs.token hw⟩
  induction fuel, text using lex.induct generalizing ts with
  | case1 text => cases h
  | case2 fuel =>
      obtain rfl := Option.some.inj h
      exact ⟨[], by simp [closings], .nil Blanks.nil⟩
  | case3 fuel rest ih => exact hblank rfl (ih h)
  | case4 fuel rest ih => exact hblank rfl (ih h)
  | case5 fuel rest ih => exact hblank rfl (ih h)
  | case6 fuel rest ih => exact hblank rfl (ih h)
  | case7 fuel rest ih =>
      obtain ⟨us, hus, rfl⟩ := cons_of_map h
      exact htoken .lParen (ih hus)
  | case8 fuel rest ih =>
      obtain ⟨us, hus, rfl⟩ := cons_of_map h
      exact htoken .rParen (ih hus)
  | case9 fuel rest ih =>
      obtain ⟨us, hus, rfl⟩ := cons_of_map h
      exact htoken .dot (ih hus)
  | case10 fuel rest ih =>
      obtain ⟨us, hus, rfl⟩ := cons_of_map h
      exact htoken .eq (ih hus)
  | case11 fuel rest ih =>
      obtain ⟨us, hus, rfl⟩ := cons_of_map h
      exact htoken .ne (ih hus)
  | case12 fuel rest hne ih =>
      rw [lex] at h
      · obtain ⟨us, hus, rfl⟩ := cons_of_map h
        exact htoken .not (ih hus)
      · exact hne
  | case13 fuel rest ih =>
      obtain ⟨us, hus, rfl⟩ := cons_of_map h
      exact htoken .and (ih hus)
  | case14 fuel rest ih =>
      obtain ⟨us, hus, rfl⟩ := cons_of_map h
      exact htoken .or (ih hus)
  | case15 fuel rest r =>
      rename_i ih
      obtain ⟨us, hus, rfl⟩ := cons_of_map h
      rcases lexString_reads rest with ⟨body, hbody, hrest⟩ | ⟨hnil, hopen⟩
      · obtain ⟨tail, htail, hs⟩ := htoken (.stringLit hbody) (ih hus)
        refine ⟨tail, htail, ?_⟩
        have heq : '"' :: body ++ ['"'] ++ (lexString rest).2 = '"' :: rest := by
          conv_rhs => rw [hrest]
          simp
        rwa [heq] at hs
      · -- the literal was the last token
        rw [hnil] at hus
        obtain rfl : us = [] := by
          cases fuel with
          | zero => cases hus
          | succ fuel => exact (Option.some.inj hus).symm
        rcases hopen with hopen | hopen
        · exact ⟨['"'], by simp [closings], by simpa using Spells.token (.stringLit hopen) (.nil Blanks.nil)⟩
        · refine ⟨['\\', '"'], by simp [closings], ?_⟩
          simpa using Spells.token (.stringLit hopen) (.nil Blanks.nil)
  | case16 fuel c rest _ _ _ _ _ _ _ _ _ _ _ _ _ hc ih =>
      rw [lex, if_pos hc] at h <;> try assumption
      obtain ⟨us, hus, rfl⟩ := cons_of_map h
      have hne : (c :: rest).takeWhile isIdentChar ≠ [] := by
        rw [List.takeWhile_cons_of_pos hc]
        exact List.cons_ne_nil _ _
      have hs := htoken (.ident hne fun ch hch => List.mem_takeWhile_imp hch) (ih hus)
      rwa [List.takeWhile_append_dropWhile] at hs
  | case17 fuel c rest _ _ _ _ _ _ _ _ _ _ _ _ _ hc =>
      rw [lex, if_neg hc] at h <;> first | assumption | cases h

/-! ## Where a token ends -/

/-- Two tokens whose texts run together. -/
def Clash : Token → Token → Bool
  | .ident _, .ident _ => true
  | .not, .eq => true
  | _, _ => false

/-- No two neighbours run together. -/
def Apart (ts : List Token) : Prop :=
  ts.IsChain (fun a b => Clash a b = false)

theorem Derives.starts {n : Nonterminal} {ts : List Token} {e : CondExpr} (h : Derives n ts e) :
    ∃ t us, ts = t :: us ∧ t ≠ .eq := by
  induction h with
  | primary h ih => exact ih
  | unary h ih => exact ih
  | andExpr h ih => exact ih
  | and ha hb iha ihb =>
      obtain ⟨t, us, rfl, ht⟩ := iha
      exact ⟨t, _, List.cons_append .., ht⟩
  | or ha hb iha ihb =>
      obtain ⟨t, us, rfl, ht⟩ := iha
      exact ⟨t, _, List.cons_append .., ht⟩
  | _ => exact ⟨_, _, rfl, nofun⟩

/-- Operators and parentheses run into no expression. -/
theorem Derives.apart_after {n : Nonterminal} {ts rest : List Token} {e : CondExpr} {t : Token}
    (h : Derives n ts e) (ht : ∀ u, u ≠ .eq → Clash t u = false) (hrest : Apart (ts ++ rest)) :
    Apart (t :: (ts ++ rest)) := by
  obtain ⟨u, us, rfl, hu⟩ := h.starts
  exact List.isChain_cons_cons.mpr ⟨ht u hu, hrest⟩

theorem not_apart (u : Token) (hu : u ≠ .eq) : Clash .not u = false := by
  cases u with
  | eq => exact absurd rfl hu
  | _ => rfl

/-- A derived list ends in a quote or a parenthesis, so it runs into nothing either. -/
theorem Derives.apart {n : Nonterminal} {ts rest : List Token} {e : CondExpr} (h : Derives n ts e)
    (hrest : Apart rest) : Apart (ts ++ rest) := by
  have hend : ∀ {t : Token} {rest : List Token}, (∀ u, Clash t u = false) → Apart rest → Apart (t :: rest) := by
    intro t rest ht hrest
    cases rest with
    | nil => exact .singleton _
    | cons u us => exact List.isChain_cons_cons.mpr ⟨ht u, hrest⟩
  have hpath : ∀ {t : Token} {w : String} {us : List Token}, Clash (.ident w) t = false →
      Apart (t :: us) → Apart (.ident w :: t :: us) := by
    intro t w us ht hus
    exact List.isChain_cons_cons.mpr ⟨ht, hus⟩
  induction h generalizing rest with
  | statusEq s =>
      exact hpath rfl (hend (fun _ => rfl) (hpath rfl (hend (fun _ => rfl) (hend (fun _ => rfl) hrest))))
  | statusNe s =>
      exact hpath rfl (hend (fun _ => rfl) (hpath rfl (hend (fun _ => rfl) (hend (fun _ => rfl) hrest))))
  | contains s =>
      refine hpath rfl (hend (fun _ => rfl) (hpath rfl ?_))
      exact hend (fun _ => rfl) (hend (fun _ => rfl) (hend (fun _ => rfl) hrest))
  | contextEq key s =>
      exact hpath rfl (hend (fun _ => rfl) (hpath rfl (hend (fun _ => rfl) (hend (fun _ => rfl) hrest))))
  | contextNe key s =>
      exact hpath rfl (hend (fun _ => rfl) (hpath rfl (hend (fun _ => rfl) (hend (fun _ => rfl) hrest))))
  | paren h ih =>
      rw [List.append_assoc]
      exact hend (fun _ => rfl) (ih (hend (fun _ => rfl) hrest))
  | primary h ih => exact ih hrest
  | not h ih => exact h.apart_after not_apart (ih hrest)
  | unary h ih => exact ih hrest
  | and ha hb iha ihb =>
      rw [List.append_assoc]
      exact iha (hend (fun _ => rfl) (ihb hrest))
  | andExpr h ih => exact ih hrest
  | or ha hb iha ihb =>
      rw [List.append_assoc]
      exact iha (hend (fun _ => rfl) (ihb hrest))

/-- A token ends before the text that follows. -/
def Follows : Token → List Char → Prop
  | .ident _, text => ∀ ch ∈ text.head?, isIdentChar ch = false
  | .not, text => text.head? ≠ some '='
  | _, _ => True

theorem Follows.cut {t : Token} {text tail : List Char} (h : Follows t (text ++ tail)) : Follows t text := by
  cases text with
  | nil =>
      cases t with
      | ident w => exact fun _ hch => nomatch hch
      | not => exact nofun
      | _ => trivial
  | cons ch text =>
      cases t with
      | ident w => exact h
      | not => exact h
      | _ => trivial

/-- The first character of a text that is not empty. -/
theorem follows_of_head {t : Token} {ch : Char} {text : List Char}
    (hident : ∀ w, t = .ident w → isIdentChar ch = false) (hnot : t = .not → ch ≠ '=') :
    Follows t (ch :: text) := by
  cases t with
  | ident w =>
      intro ch' hch'
      rw [← Option.some.inj hch']
      exact hident w rfl
  | not => exact fun hch => hnot rfl (Option.some.inj hch)
  | _ => trivial

theorem Spells.follows {t : Token} {ts : List Token} {text : List Char} (h : Spells ts text)
    (ht : ∀ u ∈ ts.head?, Clash t u = false) : Follows t text := by
  have hgap : ∀ {ch : Char} {rest : List Char}, isBlank ch = true → Follows t (ch :: rest) := by
    intro ch rest hch
    have hcase : ch = ' ' ∨ ch = '\t' ∨ ch = '\n' ∨ ch = '\r' := by simpa [isBlank, or_assoc] using hch
    refine follows_of_head ?_ ?_
    · rintro w -
      rcases hcase with rfl | rfl | rfl | rfl <;> rfl
    · rintro - rfl
      cases hch
  cases h with
  | nil hg =>
      cases text with
      | nil => exact @Follows.cut t [] [' '] (hgap rfl)
      | cons ch g => exact hgap (hg ch List.mem_cons_self)
  | @cons g w text u us hg hw hs =>
      cases g with
      | cons ch g => exact hgap (hg ch List.mem_cons_self)
      | nil =>
          have hclash := ht u rfl
          cases hw with
          | ident hne hw =>
              cases w with
              | nil => exact absurd rfl hne
              | cons ch w =>
                  refine follows_of_head ?_ ?_
                  · rintro w rfl
                    cases hclash
                  · rintro - rfl
                    cases hw '=' List.mem_cons_self
          | eq =>
              refine follows_of_head (fun _ _ => rfl) ?_
              rintro rfl -
              cases hclash
          | _ => exact follows_of_head (fun _ _ => rfl) (fun _ => by decide)

/-! ## What the tokenizer finds -/

theorem lex_blanks {g : List Char} (hg : Blanks g) (fuel : Nat) (text : List Char) :
    lex (fuel + g.length) (g ++ text) = lex fuel text := by
  induction g with
  | nil => rfl
  | cons ch g ih =>
      have hcase : ch = ' ' ∨ ch = '\t' ∨ ch = '\n' ∨ ch = '\r' := by
        simpa [isBlank, or_assoc] using hg ch List.mem_cons_self
      rw [← ih fun c hc => hg c (List.mem_cons_of_mem _ hc)]
      rcases hcase with rfl | rfl | rfl | rfl <;> rfl

theorem lex_token {t : Token} {w : List Char} (hw : Spelling t w) {text : List Char} (h : Follows t text)
    (fuel : Nat) : lex (fuel + 1) (w ++ text) = (t :: ·) <$> lex fuel text := by
  cases hw with
  | @ident w hne hw =>
      have hend : text.takeWhile isIdentChar = [] ∧ text.dropWhile isIdentChar = text := by
        cases text with
        | nil => exact ⟨rfl, rfl⟩
        | cons ch text =>
            have hch : ¬isIdentChar ch = true := by simp [h ch rfl]
            exact ⟨List.takeWhile_cons_of_neg hch, List.dropWhile_cons_of_neg hch⟩
      have htake : (w ++ text).takeWhile isIdentChar = w := by
        rw [List.takeWhile_append_of_pos hw, hend.1, List.append_nil]
      have hdrop : (w ++ text).dropWhile isIdentChar = text := by
        rw [List.dropWhile_append_of_pos hw, hend.2]
      cases w with
      | nil => exact absurd rfl hne
      | cons ch w =>
          have hch : isIdentChar ch = true := hw ch List.mem_cons_self
          rw [List.cons_append] at htake hdrop ⊢
          rw [lex, if_pos hch, htake, hdrop]
          all_goals
            intros
            subst_vars
            revert hch
            decide
  | @stringLit body value hbody =>
      show lex (fuel + 1) ('"' :: (body ++ ['"'] ++ text)) = _
      rw [List.append_assoc, List.singleton_append, lex, lexString_closed hbody]
  | not =>
      show lex (fuel + 1) ('!' :: text) = _
      rw [lex]
      rintro rest rfl
      exact h rfl
  | _ => rfl

theorem Apart.tail {t : Token} {ts : List Token} (h : Apart (t :: ts)) :
    Apart ts ∧ ∀ u ∈ ts.head?, Clash t u = false := by
  cases ts with
  | nil => exact ⟨.nil, fun _ hu => nomatch hu⟩
  | cons u ts =>
      obtain ⟨hclash, hts⟩ := List.isChain_cons_cons.mp h
      refine ⟨hts, ?_⟩
      rintro u' ⟨⟩
      exact hclash

theorem Spelling.length_pos {t : Token} {w : List Char} (h : Spelling t w) : 1 ≤ w.length := by
  cases h with
  | ident hne hw => exact List.length_pos_iff.mpr hne
  | _ => simp

/-- **Completeness of the tokenizer.** -/
theorem lex_of_spells {ts : List Token} {text : List Char} (h : Spells ts text) (hts : Apart ts) {fuel : Nat}
    (hfuel : text.length < fuel) : lex fuel text = some ts := by
  induction h generalizing fuel with
  | @nil g hg =>
      obtain ⟨fuel, rfl⟩ := Nat.exists_eq_add_of_lt hfuel
      have hlex := lex_blanks hg (fuel + 1) []
      rw [List.append_nil] at hlex
      rw [show g.length + fuel + 1 = fuel + 1 + g.length by omega, hlex]
      rfl
  | @cons g w text t ts hg hw hs ih =>
      have hpos := hw.length_pos
      rw [List.length_append, List.length_append] at hfuel
      obtain ⟨fuel, rfl⟩ := Nat.exists_eq_add_of_lt (show g.length < fuel by omega)
      rw [show g.length + fuel + 1 = fuel + 1 + g.length by omega, lex_blanks hg,
        lex_token hw (hs.follows hts.tail.2), ih hts.tail.1 (by omega)]
      rfl

/-! ## Texts that break off -/

/-- Where in a text one stands, as the quotes have it. -/
inductive Place
  | outside
  | inside
  /-- Behind a backslash of a literal. -/
  | escaped
  deriving DecidableEq

def Place.step : Place → Char → Place
  | .outside, '"' => .inside
  | .outside, _ => .outside
  | .inside, '"' => .outside
  | .inside, '\\' => .escaped
  | .inside, _ => .inside
  | .escaped, _ => .inside

def placeAfter (place : Place) (text : List Char) : Place :=
  text.foldl Place.step place

theorem placeAfter_append (place : Place) (a b : List Char) :
    placeAfter place (a ++ b) = placeAfter (placeAfter place a) b :=
  List.foldl_append

theorem Place.step_outside {ch : Char} (h : ch ≠ '"') : Place.outside.step ch = .outside := by
  unfold Place.step
  split <;> first | rfl | contradiction

theorem placeAfter_outside {text : List Char} (h : '"' ∉ text) : placeAfter .outside text = .outside := by
  induction text with
  | nil => rfl
  | cons ch text ih =>
      rw [List.mem_cons, not_or] at h
      show placeAfter (Place.outside.step ch) text = _
      rw [Place.step_outside (Ne.symm h.1), ih h.2]

theorem Literal.stays_inside {text value : List Char} (h : Literal text value) :
    placeAfter .inside text = .inside := by
  induction h with
  | nil => rfl
  | @plain ch text value hquote hback h ih =>
      have hstep : Place.inside.step ch = .inside := by
        unfold Place.step
        split <;> first | rfl | contradiction
      show placeAfter (Place.inside.step ch) text = _
      rw [hstep, ih]
  | newline h ih => exact ih
  | tab h ih => exact ih
  | backslash h ih => exact ih
  | quote h ih => exact ih
  | other hn ht hback hquote h ih => exact ih

theorem Blanks.no_quote {g : List Char} (hg : Blanks g) : '"' ∉ g :=
  fun h => nomatch hg _ h

theorem Spelling.no_quote {t : Token} {w : List Char} (hw : Spelling t w) (ht : ∀ s, t ≠ .stringLit s) :
    '"' ∉ w := by
  cases hw with
  | ident hne hw => exact fun h => nomatch hw _ h
  | stringLit h => exact absurd rfl (ht _)
  | _ => decide

/-- In a text of tokens every literal is closed. -/
theorem Spells.closed {ts : List Token} {text : List Char} (h : Spells ts text) :
    placeAfter .outside text = .outside := by
  induction h with
  | nil hg => exact placeAfter_outside hg.no_quote
  | @cons g w text t ts hg hw hs ih =>
      have htoken : placeAfter .outside w = .outside := by
        cases hw with
        | @stringLit body value h =>
            show placeAfter .inside (body ++ ['"']) = .outside
            rw [placeAfter_append, h.stays_inside]
            rfl
        | ident hne hw => exact placeAfter_outside ((Spelling.ident hne hw).no_quote nofun)
        | _ => rfl
      rw [placeAfter_append, placeAfter_append, placeAfter_outside hg.no_quote, htoken, ih]

/-- What a token is that ends in a quote. -/
theorem Spelling.of_quote {t : Token} {front : List Char} (hw : Spelling t (front ++ ['"'])) :
    ∃ body value, Literal body value ∧ front = '"' :: body ∧ t = .stringLit (String.ofList value) := by
  have hmem : '"' ∈ front ++ ['"'] := List.mem_append_right _ (List.mem_singleton_self _)
  by_cases ht : ∃ s, t = .stringLit s
  · obtain ⟨s, rfl⟩ := ht
    generalize hwhole : front ++ ['"'] = whole at hw
    cases hw with
    | @stringLit body value h => exact ⟨body, value, h, List.append_cancel_right hwhole, rfl⟩
  · exact absurd hmem (hw.no_quote fun s hs => ht ⟨s, hs⟩)

/-- The token the text breaks off in. -/
theorem lex_last_cut {t : Token} {g w text tail : List Char} (htail : tail = [] ∨ tail = ['\\']) (hg : Blanks g)
    (hw : Spelling t w) (h : text ++ tail ++ ['"'] = g ++ w) {fuel : Nat} (hfuel : text.length < fuel) :
    lex fuel text = some [t] := by
  obtain ⟨front, ch, rfl⟩ := (List.eq_nil_or_concat w).resolve_left (List.length_pos_iff.mp hw.length_pos)
  rw [List.concat_eq_append, ← List.append_assoc] at h
  rw [List.concat_eq_append] at hw
  obtain ⟨hfront, hch⟩ := List.append_inj' h rfl
  obtain rfl := (List.cons.inj hch).1
  obtain ⟨body, value, hbody, rfl, rfl⟩ := hw.of_quote
  rw [List.append_cons] at hfront
  -- the opening quote is in the text
  obtain ⟨begun, rfl, rfl⟩ : ∃ begun, text = g ++ ['"'] ++ begun ∧ body = begun ++ tail := by
    rcases List.append_eq_append_iff.mp hfront with ⟨a, hquote, htail'⟩ | ⟨begun, htext, hbody'⟩
    · have ha : a = [] := by
        cases a with
        | nil => rfl
        | cons ch a =>
            rcases htail with rfl | rfl
            · cases htail'
            · obtain ⟨rfl, hnil⟩ := List.cons.inj htail'
              obtain ⟨rfl, -⟩ := List.append_eq_nil_iff.mp hnil.symm
              have hlast := (List.append_inj' hquote rfl).2
              cases hlast
      subst ha
      exact ⟨[], by simpa using hquote.symm, by simpa using htail'.symm⟩
    · exact ⟨begun, htext, hbody'⟩
  rw [List.append_assoc, List.length_append, List.length_append] at hfuel
  obtain ⟨fuel, rfl⟩ := Nat.exists_eq_add_of_lt (show g.length < fuel by omega)
  obtain ⟨fuel, rfl⟩ := Nat.exists_eq_add_of_le' (show 1 ≤ fuel by simp at hfuel; omega)
  rw [show g.length + (fuel + 1) + 1 = fuel + 2 + g.length by omega, List.append_assoc, lex_blanks hg]
  show lex (fuel + 2) ('"' :: begun) = _
  rw [lex, lexString_open hbody htail]
  rfl

/-- Where a text is cut off in its last literal, the tokens are those of the whole. -/
theorem lex_of_cut {ts : List Token} {text tail : List Char} (htail : tail = [] ∨ tail = ['\\'])
    (h : Spells ts (text ++ tail ++ ['"'])) (hts : Apart ts) {fuel : Nat} (hfuel : text.length < fuel) :
    lex fuel text = some ts := by
  generalize hwhole : text ++ tail ++ ['"'] = whole at h
  induction h generalizing text fuel with
  | nil hg =>
      refine absurd ?_ hg.no_quote
      rw [← hwhole]
      simp
  | @cons g w rest t ts hg hw hs ih =>
      have hpos := hw.length_pos
      have hsplit : text ++ (tail ++ ['"']) = g ++ w ++ rest := by
        rw [← List.append_assoc, hwhole, List.append_assoc]
      rcases List.append_eq_append_iff.mp hsplit with ⟨a, hfront, hrest⟩ | ⟨text, rfl, hrest⟩
      · -- the cut is in this token, since what is missing is no text of tokens
        have hnil : rest = [] := by
          have hsuffix : rest <:+ ['\\', '"'] := by
            have hrest' : rest <:+ tail ++ ['"'] := ⟨a, hrest.symm⟩
            rcases htail with rfl | rfl
            · exact hrest'.trans (List.suffix_cons ..)
            · exact hrest'
          have hclosed := hs.closed
          rcases List.suffix_cons_iff.mp hsuffix with rfl | hsuffix
          · cases hclosed
          · rcases List.suffix_cons_iff.mp hsuffix with rfl | hsuffix
            · cases hclosed
            · exact List.suffix_nil.mp hsuffix
        subst hnil
        obtain rfl : ts = [] := Option.some.inj (lex_of_spells hs hts.tail.1 Nat.zero_lt_one).symm
        rw [List.append_nil] at hwhole
        exact lex_last_cut htail hg hw hwhole hfuel
      · rw [List.length_append, List.length_append] at hfuel
        obtain ⟨fuel, rfl⟩ := Nat.exists_eq_add_of_lt (show g.length < fuel by omega)
        have hfollows : Follows t text := Follows.cut (hrest ▸ hs.follows hts.tail.2)
        rw [show g.length + fuel + 1 = fuel + 1 + g.length by omega, List.append_assoc, lex_blanks hg,
          lex_token hw hfollows, ih hts.tail.1 (by omega) (by rw [hrest, List.append_assoc])]
        rfl

/-! ## What parses -/

/-- A sentence that breaks off in its last string literal. -/
def CutShort (text : List Char) (e : CondExpr) : Prop :=
  Sentence (text ++ ['"']) e ∨ Sentence (text ++ ['\\', '"']) e

theorem parseCondition_of_lex {input : String} {ts : List Token} {e : CondExpr}
    (hlex : tokenize input = some ts) (h : Derives .orExpr ts e) : parseCondition input = some e := by
  unfold parseCondition
  rw [hlex]
  simp only [Option.bind_eq_bind, Option.bind_some, parseOr_iff.mpr h]

/-- **What `parse_condition` accepts**: the sentences, and the sentences cut off in their
last string literal. -/
theorem parseCondition_iff {input : String} {e : CondExpr} :
    parseCondition input = some e ↔ Sentence input.toList e ∨ CutShort input.toList e := by
  constructor
  · intro h
    unfold parseCondition at h
    obtain ⟨ts, hlex, hparse⟩ := Option.bind_eq_some_iff.mp h
    have hderives : Derives .orExpr ts e := by
      refine parseOr_iff.mp ?_
      split at hparse
      · next e' heq =>
          obtain rfl := Option.some.inj hparse
          exact heq
      · cases hparse
    obtain ⟨tail, htail, hs⟩ := lex_reads hlex
    rcases List.mem_cons.mp htail with rfl | htail
    · rw [List.append_nil] at hs
      exact Or.inl ⟨ts, hs, hderives⟩
    · rcases List.mem_cons.mp htail with rfl | htail
      · exact Or.inr (Or.inl ⟨ts, hs, hderives⟩)
      · obtain rfl := List.mem_singleton.mp htail
        exact Or.inr (Or.inr ⟨ts, hs, hderives⟩)
  · have hapart : ∀ {ts : List Token}, Derives .orExpr ts e → Apart ts := by
      intro ts hd
      simpa using hd.apart .nil
    rintro (⟨ts, hs, hd⟩ | ⟨ts, hs, hd⟩ | ⟨ts, hs, hd⟩)
    · exact parseCondition_of_lex (lex_of_spells hs (hapart hd) (Nat.lt_succ_self _)) hd
    · refine parseCondition_of_lex (lex_of_cut (Or.inl rfl) ?_ (hapart hd) (Nat.lt_succ_self _)) hd
      rwa [List.append_nil]
    · refine parseCondition_of_lex (lex_of_cut (Or.inr rfl) ?_ (hapart hd) (Nat.lt_succ_self _)) hd
      rwa [List.append_assoc]

/-- A sentence says one tree. -/
theorem Sentence.unique {text : List Char} {a b : CondExpr} (ha : Sentence text a) (hb : Sentence text b) :
    a = b := by
  have hparse : ∀ {e : CondExpr}, Sentence text e → parseCondition (String.ofList text) = some e := by
    intro e he
    exact parseCondition_iff.mpr (Or.inl (String.toList_ofList ▸ he))
  exact Option.some.inj ((hparse ha).symm.trans (hparse hb))

end Octos.Pipeline
