/-
# `Octos.Pipeline.DotLayout` — when layout does not matter

A layout of a list of tokens puts a gap before each and one at the end; only between
two words must it not be empty.  Two layouts of one document can differ for the
parser, since it cuts the text into tokens as it goes:

    a->b              the identifier `a-`, and nothing reads `>`
    [k=v/* .. */]     the value `v/`, and nothing reads `*`
    [k=v// ] } }      the value `v//`, and the comment closes the document

`layout_exact` says that there are no other cases.  Where neither is reached, every
layout reads as the list, or as one the machine accepts just as little (`Lays.clean`);
where one is, the texts above are layouts that are told apart.
-/
import Octos.Pipeline.DotTracks
import Octos.Pipeline.DotRoundTrip

namespace Octos.Pipeline

open Text DotState

variable {env : DotEnv}

/-! ## Layouts -/

def symbols : List Char :=
  ['{', '}', '[', ']', '=', ',', ';']

/-- A token of the grammar. -/
def Supported (env : DotEnv) : DotToken → Prop
  | .word id => IsId env id
  | .arrow => True
  | .sym ch => ch ∈ symbols
  | .quoted body => QuotedBody body

def DotToken.isWord : DotToken → Bool
  | .word _ => true
  | _ => false

/-- The texts of a list of tokens, behind a word or not. -/
inductive Lays : Bool → List DotToken → List Char → Prop
  | nil {behind : Bool} {g : List Char} (hg : LastGap g) : Lays behind [] g
  | cons {behind : Bool} {t : DotToken} {ts : List DotToken} {g rest : List Char} (hg : Gap g)
      (hsep : behind = true → t.isWord = true → g ≠ []) (h : Lays t.isWord ts rest) :
      Lays behind (t :: ts) (g ++ (t.text ++ rest))

/-- A text with these tokens. -/
def Layout (ts : List DotToken) (input : String) : Prop :=
  Lays false ts input.toList

/-- A value without quotes is read from a state on. -/
def BareValueFrom (env : DotEnv) (st : DotState) (ts : List DotToken) : Prop :=
  ∃ p v r, ts = p ++ .word v :: r ∧ (st.run env p).isValue = true

/-- A word with an arrow behind it is read. -/
def ArrowFrom (env : DotEnv) (st : DotState) (ts : List DotToken) : Prop :=
  ∃ p a r, ts = p ++ .word a :: .arrow :: r ∧ (st.run env p).stopped = false

theorem BareValueFrom.cons {st : DotState} {t : DotToken} {ts : List DotToken}
    (h : BareValueFrom env (st.step env t) ts) : BareValueFrom env st (t :: ts) := by
  obtain ⟨p, v, r, rfl, hp⟩ := h
  exact ⟨t :: p, v, r, rfl, hp⟩

theorem ArrowFrom.cons {st : DotState} {t : DotToken} {ts : List DotToken}
    (h : ArrowFrom env (st.step env t) ts) : ArrowFrom env st (t :: ts) := by
  obtain ⟨p, a, r, rfl, hp⟩ := h
  exact ⟨t :: p, a, r, rfl, hp⟩

/-! ## What a token may follow -/

/-- How a gap begins. -/
theorem Gap.head {g : List Char} (h : Gap g) {ch : Char} (hch : ch ∈ g.head?) :
    isWhitespace ch = true ∨ ch = '#' ∨ ch = '/' := by
  cases h with
  | nil => cases hch
  | cons hp hg =>
      cases hp with
      | blank h =>
          obtain rfl := Option.some.inj hch
          exact Or.inl h
      | hash h => exact Or.inr (Or.inl (Option.some.inj hch).symm)
      | slashes h => exact Or.inr (Or.inr (Option.some.inj hch).symm)
      | block h => exact Or.inr (Or.inr (Option.some.inj hch).symm)

theorem LastGap.head {g : List Char} (h : LastGap g) {ch : Char} (hch : ch ∈ g.head?) :
    isWhitespace ch = true ∨ ch = '#' ∨ ch = '/' := by
  cases h with
  | closed hg => exact hg.head hch
  | @hash g body hg h =>
      cases g with
      | nil => exact Or.inr (Or.inl (Option.some.inj hch).symm)
      | cons c g => exact hg.head hch
  | @slashes g body hg h =>
      cases g with
      | nil => exact Or.inr (Or.inr (Option.some.inj hch).symm)
      | cons c g => exact hg.head hch

theorem gap_char {ch : Char} (h : isWhitespace ch = true ∨ ch = '#' ∨ ch = '/') :
    env.isWord ch = false ∧ ch ≠ '>' := by
  refine ⟨?_, ?_⟩
  · cases hword : env.isWord ch with
    | false => rfl
    | true =>
        obtain ⟨hws, hslash, hhash⟩ := isWord_visible hword
        rcases h with h | rfl | rfl
        · rw [hws] at h
          cases h
        · exact absurd rfl hhash
        · exact absurd rfl hslash
  · rintro rfl
    rcases h with h | h | h
    · exact absurd h (by decide)
    · exact absurd h (by decide)
    · exact absurd h (by decide)

/-- A symbol of the grammar, or one that is none. -/
theorem isSymbol_ascii {ch : Char} (h : ch.toNat < 128)
    (hbare : (ch.isAlphanum || ch == '_' || ch == '-' || ch == '.' || ch == '/' || ch == ':') = false)
    (hvisible : isWhitespace ch = false) (hhash : ch ≠ '#') (hquote : ch ≠ '"') : IsSymbol env ch :=
  ⟨by rw [isBare_ascii h, hbare], hvisible, hhash, hquote⟩

theorem isSymbol_supported {ch : Char} (h : ch ∈ symbols) : IsSymbol env ch ∧ ch ≠ '>' := by
  simp only [symbols, List.mem_cons, List.not_mem_nil, or_false] at h
  rcases h with rfl | rfl | rfl | rfl | rfl | rfl | rfl <;>
    exact ⟨isSymbol_ascii (by decide) (by decide) (by decide) (by decide) (by decide), by decide⟩

/-- Behind a word comes an arrow at once, or something that ends it. -/
theorem Lays.follows {ts : List DotToken} {rest : List Char} (h : Lays true ts rest)
    (hts : ∀ t ∈ ts, Supported env t) :
    (∃ us after, ts = .arrow :: us ∧ rest = '-' :: '>' :: after) ∨
      ∀ ch ∈ rest.head?, env.isWord ch = false ∧ ch ≠ '>' := by
  cases h with
  | nil hg => exact Or.inr fun ch hch => gap_char (hg.head hch)
  | @cons _ t us g after hg hsep h =>
      cases g with
      | cons c g => exact Or.inr fun ch hch => gap_char (hg.head hch)
      | nil =>
          cases t with
          | word id => exact absurd rfl (hsep rfl rfl)
          | arrow => exact Or.inl ⟨us, after, rfl, rfl⟩
          | sym c =>
              refine Or.inr ?_
              rintro ch ⟨⟩
              have hsym := @isSymbol_supported env c (hts _ List.mem_cons_self)
              exact ⟨isWord_of_notBare hsym.1.notBare, hsym.2⟩
          | quoted body =>
              refine Or.inr ?_
              rintro ch ⟨⟩
              exact ⟨quote_notWord [] '"' rfl, by decide⟩

/-- A word and what ends it are no arrow. -/
theorem word_no_arrow {w rest : List Char} (hw : ∀ ch ∈ w, env.isWord ch = true) (hne : w ≠ [])
    (hrest : ∀ ch ∈ rest.head?, ch ≠ '>') : ¬['-', '>'] <+: w ++ rest := by
  intro hstart
  obtain ⟨after, heq⟩ := hstart
  cases w with
  | nil => exact hne rfl
  | cons c w =>
      have htail : '>' :: after = w ++ rest := (List.cons.inj heq).2
      cases w with
      | nil => exact hrest '>' (by rw [← show '>' :: after = rest from htail]; rfl) rfl
      | cons c' w =>
          have hgreater := hw c' (List.mem_cons_of_mem _ List.mem_cons_self)
          rw [← (List.cons.inj htail).1, isWord_ascii (by decide)] at hgreater
          exact absurd hgreater (by decide)

theorem dash_isWord : env.isWord '-' = true := by
  rw [isWord_ascii (by decide)]
  rfl

theorem greater_isSymbol : IsSymbol env '>' :=
  isSymbol_ascii (by decide) (by decide) (by decide) (by decide) (by decide)

theorem star_isSymbol : IsSymbol env '*' :=
  isSymbol_ascii (by decide) (by decide) (by decide) (by decide) (by decide)

/-- What can be added to a word without starting another token. -/
theorem IsId.extend {id : String} (h : IsId env id) {tail : List Char} (htail : ∀ ch ∈ tail, env.isBare ch = true) :
    IsBareWord env (String.ofList (id.toList ++ tail)) := by
  obtain ⟨ch, w, hw, hword⟩ := h.isWord_head
  refine ⟨⟨ch, ?_, hword⟩, ?_⟩
  · rw [String.toList_ofList, hw]
    rfl
  · intro c hc
    rw [String.toList_ofList] at hc
    rcases List.mem_append.mp hc with hc | hc
    · exact isBare_of_isWord (h.word c hc)
    · exact htail c hc

theorem IsId.dash {id : String} (h : IsId env id) : IsId env (String.ofList (id.toList ++ ['-'])) := by
  refine ⟨?_, ?_⟩
  · rw [String.toList_ofList]
    simp
  · intro c hc
    rw [String.toList_ofList] at hc
    rcases List.mem_append.mp hc with hc | hc
    · exact h.word c hc
    · rw [List.mem_singleton.mp hc]
      exact dash_isWord

theorem isId_dash : IsId env "-" := by
  refine ⟨by decide, ?_⟩
  intro c hc
  rw [show "-".toList = ['-'] from rfl, List.mem_singleton] at hc
  rw [hc]
  exact dash_isWord

/-- A word of the grammar can be read wherever a word can. -/
theorem readable_word {st : DotState} {id : String} (h : IsId env id) : Readable env st (.word id) := by
  show if st.isValue then IsBareWord env id else IsId env id
  split
  · have hbare := @IsId.extend env id h [] nofun
    rwa [List.append_nil, String.ofList_toList] at hbare
  · exact h

/-! ## Where the machine stops -/

namespace DotState

theorem step_greater {st : DotState} (h : st.stopped = false) : st.step env (.sym '>') = failed := by
  cases st with
  | statement sc => cases sc <;> rfl
  | ended sc => cases sc <;> rfl
  | optional sc owner => cases sc <;> cases owner <;> rfl
  | identifier sc first => cases sc <;> rfl
  | chain sc first ids => cases sc <;> rfl
  | done g => cases h
  | _ => rfl

theorem step_arrow {st : DotState} (h : st.stopped = false) (harrow : st.takesArrow = false) :
    st.step env .arrow = failed := by
  cases st with
  | statement sc => cases sc <;> rfl
  | ended sc => cases sc <;> rfl
  | optional sc owner => cases sc <;> cases owner <;> rfl
  | identifier sc first => cases harrow
  | chain sc first ids => cases harrow
  | done g => cases h
  | _ => rfl

/-- A word closes nothing. -/
theorem step_word {st : DotState} {id : String} (h : st.stopped = false) (g : PipelineGraph) :
    st.step env (.word id) ≠ done g := by
  have hstatement : ∀ sc, stepStatement sc (.word id) ≠ done g := by
    intro sc
    cases sc with
    | top graph =>
        show (if id = "graph" then _ else if id = "subgraph" then _ else _) ≠ done g
        split
        · exact nofun
        · split <;> exact nofun
    | inside sub s =>
        show (if id = "graph" then _ else _) ≠ done g
        split <;> exact nofun
  cases st with
  | digraph =>
      show (if id = "digraph" then name else failed) ≠ done g
      split <;> exact nofun
  | statement sc => exact hstatement sc
  | ended sc => exact hstatement sc
  | optional sc owner => exact hstatement (sc.finish env owner ∅)
  | identifier sc first =>
      cases sc with
      | top graph => exact hstatement ((Scope.top graph).finish env (.node first) ∅)
      | inside sub s => exact hstatement ((Scope.inside sub s).finish env (.node first) ∅)
  | chain sc first ids => exact hstatement _
  | done graph => cases h
  | _ => exact nofun

/-- Nothing reads `>`. -/
theorem accepted_greater {st : DotState} {id : String} {ts : List DotToken} (h : st.stopped = false) :
    accepted (st.run env (.word id :: .sym '>' :: ts)) = none := by
  show accepted (run env (step env (st.step env (.word id)) (.sym '>')) ts) = none
  have hfailed : (st.step env (.word id)).step env (.sym '>') = failed := by
    cases hstop : (st.step env (.word id)).stopped with
    | false => exact step_greater hstop
    | true =>
        have hdone := @step_word env st id h
        cases hst : st.step env (.word id) with
        | failed => rfl
        | done g => exact absurd hst (hdone g)
        | _ => rw [hst] at hstop; cases hstop
  rw [hfailed, run_failed]
  rfl

end DotState

/-! ## Every layout reads -/

/-- A word that `>` follows. -/
theorem clean_greater {st : DotState} {id : String} {g rest : List Char} {ts : List DotToken}
    (hs : st.stopped = false) (hg : Gap g) (hid : IsId env id)
    (harrow : st.takesArrow = true → ¬['-', '>'] <+: id.toList ++ '>' :: rest) :
    Clean env st (.word id :: .sym '>' :: ts) (g ++ (id.toList ++ '>' :: rest)) := by
  refine .cons hs hg (readable_word hid) ⟨?_, harrow⟩ ?_
  · split
    · rintro ch ⟨⟩
      exact greater_isSymbol.notBare
    · exact greater_isSymbol.notWord rest
  · cases hstop : (st.step env (.word id)).stopped with
    | true => exact .stop hstop
    | false =>
        refine @Clean.cons env _ (.sym '>') ts [] rest hstop .nil greater_isSymbol trivial ?_
        rw [step_greater hstop]
        exact .stop rfl

/-- **Where no value without quotes is read, every layout reads as tokens**: as its own,
or as others that are not accepted either, or an arrow has run into a word. -/
theorem Lays.clean {behind : Bool} {st : DotState} {ts : List DotToken} {text : List Char}
    (h : Lays behind ts text) (hts : ∀ t ∈ ts, Supported env t) (hbare : ¬BareValueFrom env st ts) :
    ∃ us, Clean env st us text ∧ (accepted (st.run env us) = accepted (st.run env ts) ∨
      (accepted (st.run env us) = none ∧ ArrowFrom env st ts)) := by
  induction h generalizing st with
  | nil hg => exact ⟨[], .nil hg, Or.inl rfl⟩
  | @cons behind t ts g rest hg hsep h ih =>
      cases hstop : st.stopped with
      | true => exact ⟨t :: ts, .stop hstop, Or.inl rfl⟩
      | false =>
          have hts' : ∀ t ∈ ts, Supported env t := fun t' ht' => hts t' (List.mem_cons_of_mem _ ht')
          have hsupported := hts t List.mem_cons_self
          -- a token that is read as it stands
          have hread : Readable env st t → EndsIn env st t rest →
              ∃ us, Clean env st us (g ++ (t.text ++ rest)) ∧
                (accepted (st.run env us) = accepted (st.run env (t :: ts)) ∨
                  (accepted (st.run env us) = none ∧ ArrowFrom env st (t :: ts))) := by
            intro ht hend
            obtain ⟨us, hclean, hrun⟩ := @ih (st.step env t) hts' fun hb => hbare hb.cons
            refine ⟨t :: us, .cons hstop hg ht hend hclean, ?_⟩
            rcases hrun with hrun | ⟨hrun, harrow⟩
            · exact Or.inl hrun
            · exact Or.inr ⟨hrun, harrow.cons⟩
          cases t with
          | sym ch => exact hread (isSymbol_supported hsupported).1 trivial
          | quoted body => exact hread hsupported trivial
          | arrow =>
              cases htakes : st.takesArrow with
              | true => exact hread htakes trivial
              | false =>
                  -- the dash is read as a word
                  refine ⟨.word "-" :: .sym '>' :: ts, ?_, Or.inl ?_⟩
                  · refine clean_greater hstop hg isId_dash ?_
                    rw [htakes]
                    exact nofun
                  · rw [accepted_greater hstop, accepted_failed (step_arrow hstop htakes)]
          | word id =>
              have hid : IsId env id := hsupported
              have hvalue : st.isValue = false := by
                cases hv : st.isValue with
                | false => rfl
                | true => exact absurd ⟨[], id, ts, rfl, hv⟩ hbare
              rcases h.follows hts' with ⟨us, after, rfl, rfl⟩ | hends
              · -- the arrow runs into the word
                refine ⟨.word (String.ofList (id.toList ++ ['-'])) :: .sym '>' :: .arrow :: us, ?_, Or.inr ⟨?_, ?_⟩⟩
                · have hglued : (String.ofList (id.toList ++ ['-'])).toList ++ '>' :: after =
                      id.toList ++ '-' :: '>' :: after := by
                    rw [String.toList_ofList, List.append_assoc]
                    rfl
                  have hclean := @clean_greater env st _ g after (.arrow :: us) hstop hg hid.dash fun _ => by
                    rw [hglued]
                    exact word_no_arrow hid.word hid.nonempty (by rintro ch ⟨⟩; decide)
                  rwa [hglued] at hclean
                · exact accepted_greater hstop
                · exact ⟨[], id, us, rfl, hstop⟩
              · refine hread (readable_word hid) ⟨?_, ?_⟩
                · rw [hvalue]
                  exact fun ch hch => (hends ch hch).1
                · exact fun _ => word_no_arrow hid.word hid.nonempty fun ch hch => (hends ch hch).2

/-! ## Layouts that are told apart -/

/-- A blank before each token. -/
def spaced (ts : List DotToken) : List Char :=
  ts.flatMap fun t => ' ' :: t.text

theorem gap_blank : Gap [' '] :=
  .cons (.blank (by decide)) .nil

theorem Lays.gap {behind : Bool} {ts : List DotToken} {g text : List Char} (hg : Gap g)
    (h : Lays behind ts text) : Lays behind ts (g ++ text) := by
  have happend : ∀ {g'}, Gap g' → Gap (g ++ g') := by
    intro g' hg'
    induction hg with
    | nil => exact hg'
    | cons hp hg ih => rw [List.append_assoc]; exact .cons hp ih
  cases h with
  | nil hg' =>
      cases hg' with
      | closed hg' => exact .nil (.closed (happend hg'))
      | hash hg' h => rw [← List.append_assoc]; exact .nil (.hash (happend hg') h)
      | slashes hg' h => rw [← List.append_assoc]; exact .nil (.slashes (happend hg') h)
  | cons hg' hsep h =>
      rw [← List.append_assoc]
      refine .cons (happend hg') (fun hb hw hnil => hsep hb hw ?_) h
      exact (List.append_eq_nil_iff.mp hnil).2

theorem spaced_lays {p ts : List DotToken} {rest : List Char} (h : ∀ behind, Lays behind ts rest) :
    ∀ behind, Lays behind (p ++ ts) (spaced p ++ rest) := by
  induction p with
  | nil => exact h
  | cons t p ih =>
      intro behind
      have hcons := @Lays.cons behind t (p ++ ts) [' '] (spaced p ++ rest) gap_blank (fun _ _ => nofun) (ih _)
      simpa [spaced] using hcons

theorem spaced_lays_all (ts : List DotToken) (behind : Bool) : Lays behind ts (spaced ts) := by
  have h := @spaced_lays ts [] [] (fun _ => .nil (.closed .nil)) behind
  rwa [List.append_nil, List.append_nil] at h

/-- A token of the grammar can be read before a blank, unless it is an arrow out of place. -/
theorem Supported.readable {st : DotState} {t : DotToken} (h : Supported env t)
    (harrow : t = .arrow → st.takesArrow = true) : Readable env st t := by
  cases t with
  | word id => exact readable_word h
  | arrow => exact harrow rfl
  | sym ch => exact (isSymbol_supported h).1
  | quoted body => exact h

theorem Supported.ends {st : DotState} {t : DotToken} {rest : List Char} (h : Supported env t)
    (hrest : rest = [] ∨ ∃ after, rest = ' ' :: after) : EndsIn env st t rest := by
  have hblank : ∀ ch ∈ rest.head?, ch = ' ' := by
    rintro ch hch
    rcases hrest with rfl | ⟨after, rfl⟩
    · cases hch
    · exact (Option.some.inj hch).symm
  have hbare : ∀ ch ∈ rest.head?, env.isBare ch = false := by
    intro ch hch
    rw [hblank ch hch, isBare_ascii (by decide)]
    decide
  cases t with
  | word id =>
      refine ⟨?_, ?_⟩
      · split
        · exact hbare
        · exact fun ch hch => isWord_of_notBare (hbare ch hch)
      · exact fun _ => word_no_arrow (IsId.word h) (IsId.nonempty h) fun ch hch => by
          rw [hblank ch hch]
          decide
  | _ => trivial

theorem spaced_head (ts : List DotToken) : spaced ts = [] ∨ ∃ after, spaced ts = ' ' :: after := by
  cases ts with
  | nil => exact Or.inl rfl
  | cons t ts => exact Or.inr ⟨_, rfl⟩

theorem run_stopped {st : DotState} (h : st.stopped = true) (ts : List DotToken) : st.run env ts = st := by
  cases st with
  | done g => exact run_done g ts
  | failed => exact run_failed ts
  | _ => cases h

/-- Tokens with blanks before them read as they are, up to where the machine has not stopped. -/
theorem spaced_clean {p us : List DotToken} {rest : List Char} : ∀ {st : DotState},
    (∀ t ∈ p, Supported env t) → (st.run env p).stopped = false →
    Clean env (st.run env p) us (' ' :: rest) → Clean env st (p ++ us) (spaced p ++ ' ' :: rest) := by
  induction p with
  | nil => exact fun _ _ h => h
  | cons t p ih =>
      intro st hp hrun h
      have hstop : st.stopped = false := by
        cases hst : st.stopped with
        | false => rfl
        | true => rw [run_stopped hst, hst] at hrun; cases hrun
      have harrow : t = .arrow → st.takesArrow = true := by
        rintro rfl
        cases htakes : st.takesArrow with
        | true => rfl
        | false =>
            change (run env (st.step env .arrow) p).stopped = false at hrun
            rw [step_arrow hstop htakes, run_failed] at hrun
            cases hrun
      have hsupported := hp t List.mem_cons_self
      have hends : EndsIn env st t (spaced p ++ ' ' :: rest) := by
        refine hsupported.ends (Or.inr ?_)
        rcases spaced_head p with hnil | ⟨after, hafter⟩
        · exact ⟨rest, by rw [hnil, List.nil_append]⟩
        · exact ⟨_, by rw [hafter, List.cons_append]⟩
      have hcons := @Clean.cons env st t (p ++ us) [' '] (spaced p ++ ' ' :: rest) hstop gap_blank
        (hsupported.readable harrow) hends
        (ih (fun t ht => hp t (List.mem_cons_of_mem _ ht)) hrun h)
      simpa [spaced] using hcons

/-- A document that is accepted reads as it is with blanks. -/
theorem spaced_accepted {ts : List DotToken} : ∀ {st : DotState}, (∀ t ∈ ts, Supported env t) →
    accepted (st.run env ts) ≠ none → Clean env st ts (spaced ts) := by
  induction ts with
  | nil => exact fun _ _ => .nil (.closed .nil)
  | cons t ts ih =>
      intro st hts haccepted
      cases hstop : st.stopped with
      | true => exact .stop hstop
      | false =>
          have harrow : t = .arrow → st.takesArrow = true := by
            rintro rfl
            cases htakes : st.takesArrow with
            | true => rfl
            | false => exact absurd (accepted_failed (step_arrow hstop htakes)) haccepted
          have hsupported := hts t List.mem_cons_self
          exact @Clean.cons env st t ts [' '] (spaced ts) hstop gap_blank (hsupported.readable harrow)
            (hsupported.ends (spaced_head ts))
            (ih (fun t ht => hts t (List.mem_cons_of_mem _ ht)) haccepted)

/-- A text of the document, and what the parser makes of it by other tokens. -/
theorem layout_told {ts us : List DotToken} {text : List Char} (hlays : Lays false ts text)
    (hclean : Clean env digraph us text) :
    Layout ts (String.ofList text) ∧
      (parseDot env (String.ofList text)).toOption = accepted (digraph.run env us) := by
  refine ⟨?_, ?_⟩
  · show Lays false ts (String.ofList text).toList
    rwa [String.toList_ofList]
  · refine parseDot_clean ?_
    rwa [String.toList_ofList]

/-- A value with what is added to it, and a character that ends it. -/
theorem clean_extended {sc : Scope} {owner : AttrOwner} {attrs : Attributes} {k id : String}
    {tail rest : List Char} {ch : Char} {us : List DotToken} (hid : IsId env id)
    (htail : ∀ c ∈ tail, env.isBare c = true) (hch : env.isBare ch = false)
    (h : Clean env (attributes sc owner (attrs.insert k (String.ofList (id.toList ++ tail)))) us (ch :: rest)) :
    Clean env (value sc owner attrs k) (.word (String.ofList (id.toList ++ tail)) :: us)
      (' ' :: (id.toList ++ (tail ++ ch :: rest))) := by
  have hends : EndsIn env (value sc owner attrs k) (.word (String.ofList (id.toList ++ tail))) (ch :: rest) := by
    refine ⟨?_, nofun⟩
    rintro c ⟨⟩
    exact hch
  have hcons := @Clean.cons env (value sc owner attrs k) (.word (String.ofList (id.toList ++ tail))) us [' ']
    (ch :: rest) rfl gap_blank (hid.extend htail) hends h
  have htext : (DotToken.word (String.ofList (id.toList ++ tail))).text = id.toList ++ tail :=
    String.toList_ofList
  rwa [htext, List.append_assoc] at hcons

/-- Two braces close a document from anywhere. -/
theorem close_clean (sc : Scope) (rest : List Char) :
    Clean env (ended sc) [.sym '}', .sym '}'] (' ' :: '}' :: ' ' :: '}' :: rest) ∧
      accepted ((ended sc).run env [.sym '}', .sym '}']) ≠ none := by
  have hbrace : IsSymbol env '}' := (isSymbol_supported (by decide)).1
  cases sc with
  | top g =>
      refine ⟨?_, nofun⟩
      exact @Clean.cons env (ended (.top g)) (.sym '}') _ [' '] _ rfl gap_blank hbrace trivial (.stop rfl)
  | inside id s =>
      refine ⟨?_, nofun⟩
      refine @Clean.cons env (ended (.inside id s)) (.sym '}') _ [' '] _ rfl gap_blank hbrace trivial ?_
      exact @Clean.cons env (ended (.top _)) (.sym '}') _ [' '] rest rfl gap_blank hbrace trivial (.stop rfl)

/-- **A value without quotes is told apart** from one with a comment behind it. -/
theorem bare_value_told {ts : List DotToken} (hts : ∀ t ∈ ts, Supported env t)
    (h : BareValueFrom env digraph ts) :
    ∃ a b, Layout ts a ∧ Layout ts b ∧ (parseDot env a).toOption ≠ (parseDot env b).toOption := by
  obtain ⟨p, v, r, rfl, hvalue⟩ := h
  obtain ⟨sc, owner, attrs, k, hst⟩ : ∃ sc owner attrs k, digraph.run env p = value sc owner attrs k := by
    cases hst : digraph.run env p with
    | value sc owner attrs k => exact ⟨sc, owner, attrs, k, rfl⟩
    | _ => rw [hst] at hvalue; cases hvalue
  have hp : ∀ t ∈ p, Supported env t := fun t ht => hts t (List.mem_append_left _ ht)
  have hid : IsId env v := hts (.word v) (List.mem_append_right _ List.mem_cons_self)
  have hslash : env.isBare '/' = true := by
    rw [isBare_ascii (by decide)]
    decide
  -- the text with a comment between the value and the rest
  have hlays : ∀ {comment : List Char}, Piece comment →
      Lays false (p ++ .word v :: r) (spaced p ++ ' ' :: (v.toList ++ (comment ++ spaced r))) := by
    intro comment hcomment
    refine spaced_lays (fun behind => ?_) false
    have hgap : Gap comment := by
      have hone := Gap.cons hcomment .nil
      rwa [List.append_nil] at hone
    exact @Lays.cons behind (.word v) r [' '] _ gap_blank (fun _ _ => nofun) (.gap hgap (spaced_lays_all r _))
  have hclean : ∀ {us : List DotToken} {rest : List Char},
      Clean env (value sc owner attrs k) us (' ' :: rest) → Clean env digraph (p ++ us) (spaced p ++ ' ' :: rest) := by
    intro us rest h
    refine spaced_clean hp ?_ ?_
    · rw [hst]
      rfl
    · rwa [hst]
  have hrun : ∀ us, digraph.run env (p ++ us) = (value sc owner attrs k).run env us := by
    intro us
    rw [run_append, hst]
  -- the value takes the slash of a block comment, and the star is no key
  have hstar : Clean env (value sc owner attrs k) [.word (String.ofList (v.toList ++ ['/'])), .sym '*']
      (' ' :: (v.toList ++ (['/'] ++ '*' :: '*' :: '/' :: spaced r))) := by
    refine clean_extended hid (by simpa using hslash) star_isSymbol.notBare ?_
    exact @Clean.cons env (attributes sc owner _) (.sym '*') [] [] _ rfl .nil star_isSymbol trivial (.stop rfl)
  -- or both slashes of a line comment, and what it says closes the document
  have hbraces := fun attrs => @close_clean env (sc.finish env owner attrs) ('\n' :: spaced r)
  have hclose : Clean env (value sc owner attrs k)
      [.word (String.ofList (v.toList ++ ['/', '/'])), .sym ']', .sym '}', .sym '}']
      (' ' :: (v.toList ++ (['/', '/'] ++ ' ' :: ']' :: ' ' :: '}' :: ' ' :: '}' :: '\n' :: spaced r))) := by
    refine clean_extended hid (by simpa using hslash) (by rw [isBare_ascii (by decide)]; decide) ?_
    exact @Clean.cons env (attributes sc owner _) (.sym ']') _ [' '] _ rfl gap_blank
      (isSymbol_supported (by decide)).1 trivial (hbraces _).1
  have hblock := layout_told (hlays (@Piece.block [] (by simp))) (hclean hstar)
  have hline := layout_told (hlays (@Piece.slashes [' ', ']', ' ', '}', ' ', '}'] (by decide))) (hclean hclose)
  refine ⟨_, _, hblock.1, hline.1, ?_⟩
  rw [hblock.2, hline.2, hrun, hrun]
  exact fun heq => (hbraces _).2 heq.symm

/-- **An arrow behind a word is told apart** from one with a blank before it. -/
theorem arrow_told {ts : List DotToken} (hts : ∀ t ∈ ts, Supported env t)
    (haccepted : accepted (digraph.run env ts) ≠ none) (h : ArrowFrom env digraph ts) :
    ∃ a b, Layout ts a ∧ Layout ts b ∧ (parseDot env a).toOption ≠ (parseDot env b).toOption := by
  have hspaced := layout_told (spaced_lays_all ts false) (spaced_accepted hts haccepted)
  obtain ⟨p, a, r, rfl, hstop⟩ := h
  have hp : ∀ t ∈ p, Supported env t := fun t ht => hts t (List.mem_append_left _ ht)
  have hid : IsId env a := hts (.word a) (List.mem_append_right _ List.mem_cons_self)
  have hlays : Lays false (p ++ .word a :: .arrow :: r)
      (spaced p ++ ' ' :: (a.toList ++ '-' :: '>' :: spaced r)) := by
    refine spaced_lays (fun behind => ?_) false
    refine @Lays.cons behind (.word a) (.arrow :: r) [' '] _ gap_blank (fun _ _ => nofun) ?_
    exact @Lays.cons true .arrow r [] (spaced r) .nil nofun (spaced_lays_all r _)
  have hdash : (String.ofList (a.toList ++ ['-'])).toList ++ '>' :: spaced r =
      a.toList ++ '-' :: '>' :: spaced r := by
    rw [String.toList_ofList, List.append_assoc]
    rfl
  have hglued : Clean env (digraph.run env p) [.word (String.ofList (a.toList ++ ['-'])), .sym '>']
      (' ' :: (a.toList ++ '-' :: '>' :: spaced r)) := by
    have hclean := @clean_greater env _ _ [' '] (spaced r) [] hstop gap_blank hid.dash fun _ => by
      rw [hdash]
      exact word_no_arrow hid.word hid.nonempty (by rintro ch ⟨⟩; decide)
    rwa [hdash] at hclean
  have htold := layout_told hlays (spaced_clean hp hstop hglued)
  have hnone : accepted (digraph.run env (p ++ [.word (String.ofList (a.toList ++ ['-'])), .sym '>'])) = none := by
    rw [run_append]
    exact accepted_greater hstop
  refine ⟨_, _, hspaced.1, htold.1, ?_⟩
  rw [hspaced.2, htold.2, hnone]
  exact haccepted

/-- A document, up to what follows its closing brace. -/
def IsDocument (env : DotEnv) (ts : List DotToken) : Prop :=
  accepted (digraph.run env ts) ≠ none

/-- **When the layout of a document does not matter.**  All layouts of a list of tokens
have the same outcome exactly if no value without quotes is read, and, if the list is a
document, no word with an arrow behind it. -/
theorem layout_exact {env : DotEnv} {ts : List DotToken} (hts : ∀ t ∈ ts, Supported env t) :
    (∀ a b : String, Layout ts a → Layout ts b → (parseDot env a).toOption = (parseDot env b).toOption) ↔
      ¬BareValueFrom env digraph ts ∧ (IsDocument env ts → ¬ArrowFrom env digraph ts) := by
  constructor
  · intro hsame
    refine ⟨?_, ?_⟩
    · intro hbare
      obtain ⟨a, b, ha, hb, hne⟩ := bare_value_told hts hbare
      exact hne (hsame a b ha hb)
    · intro haccepted harrow
      obtain ⟨a, b, ha, hb, hne⟩ := arrow_told hts haccepted harrow
      exact hne (hsame a b ha hb)
  · rintro ⟨hbare, harrow⟩ a b ha hb
    have hrun : ∀ {input : String}, Layout ts input →
        (parseDot env input).toOption = accepted (digraph.run env ts) := by
      intro input hlays
      obtain ⟨us, hclean, hus⟩ := Lays.clean hlays hts hbare
      rw [parseDot_clean hclean]
      rcases hus with hus | ⟨hus, hglued⟩
      · exact hus
      · rw [hus]
        by_contra haccepted
        exact harrow (fun hnone => haccepted hnone.symm) hglued
    rw [hrun ha, hrun hb]

/-- The tokens of `digraph { }`. -/
def emptyTokens : List DotToken :=
  [.word "digraph", .sym '{', .sym '}']

theorem layout_exact_empty :
    (∀ a b : String, Layout emptyTokens a → Layout emptyTokens b →
      (parseDot asciiEnv a).toOption = (parseDot asciiEnv b).toOption) ∧ IsDocument asciiEnv emptyTokens := by
  have hts : ∀ t ∈ emptyTokens, Supported asciiEnv t := by
    intro t ht
    simp only [emptyTokens, List.mem_cons, List.not_mem_nil, or_false] at ht
    rcases ht with rfl | rfl | rfl
    · exact @isId_of_plain asciiEnv ["digraph"] (by decide) _ List.mem_cons_self
    · exact List.mem_cons_self
    · exact List.mem_cons_of_mem _ List.mem_cons_self
  have hword : ∀ {p : List DotToken} {v : String} {r : List DotToken}, emptyTokens = p ++ .word v :: r → p = [] := by
    intro p v r h
    cases p with
    | nil => rfl
    | cons t p =>
        have hmem : DotToken.word v ∈ [DotToken.sym '{', .sym '}'] := by
          rw [show [DotToken.sym '{', .sym '}'] = p ++ .word v :: r from (List.cons.inj h).2]
          exact List.mem_append_right _ List.mem_cons_self
        exact absurd hmem (by simp)
  refine ⟨(layout_exact hts).mpr ⟨?_, ?_⟩, nofun⟩
  · rintro ⟨p, v, r, h, hvalue⟩
    rw [hword h] at hvalue
    cases hvalue
  · rintro - ⟨p, a, r, h, -⟩
    obtain rfl := hword h
    cases h

/-- The tokens of `digraph G { a -> b }`. -/
def edgeTokens : List DotToken :=
  [.word "digraph", .word "G", .sym '{', .word "a", .arrow, .word "b", .sym '}']

/-- Without blanks the arrow is not found. -/
theorem glued_arrow_fails :
    Layout edgeTokens "digraph G {a->b}" ∧ Layout edgeTokens "digraph G {a -> b}" ∧
      (parseDot asciiEnv "digraph G {a->b}").toOption = none ∧
      (parseDot asciiEnv "digraph G {a -> b}").toOption.map (fun g => g.edges.map fun e => (e.source, e.target)) =
        some [("a", "b")] := by
  have hglued : "digraph G {a->b}".toList =
      "digraph".toList ++ ' ' :: ("G".toList ++ ' ' :: '{' :: ("a".toList ++ '-' :: '>' :: ("b".toList ++ ['}']))) := by
    rfl
  have hspaced : "digraph G {a -> b}".toList = "digraph".toList ++ ' ' ::
      ("G".toList ++ ' ' :: '{' :: ("a".toList ++ ' ' :: '-' :: '>' :: ' ' :: ("b".toList ++ ['}']))) := by
    rfl
  have hend : ∀ behind, Lays behind [.sym '}'] ['}'] := fun behind =>
    @Lays.cons behind (.sym '}') [] [] [] .nil (fun _ => nofun) (.nil (.closed .nil))
  have hstart : ∀ {ts : List DotToken} {rest : List Char}, Lays true ts rest →
      Lays false (.word "digraph" :: .word "G" :: .sym '{' :: .word "a" :: ts)
        ("digraph".toList ++ ' ' :: ("G".toList ++ ' ' :: '{' :: ("a".toList ++ rest))) := by
    intro ts rest h
    have ha := @Lays.cons false (.word "a") ts [] rest .nil nofun h
    have hbrace := @Lays.cons true (.sym '{') _ [' '] _ gap_blank (fun _ => nofun) ha
    have hname := @Lays.cons true (.word "G") _ [' '] _ gap_blank (fun _ _ => nofun) hbrace
    exact @Lays.cons false (.word "digraph") _ [] _ .nil nofun hname
  refine ⟨?_, ?_, by rfl, by rfl⟩
  · show Lays false edgeTokens "digraph G {a->b}".toList
    rw [hglued]
    refine hstart (@Lays.cons true .arrow [.word "b", .sym '}'] [] _ .nil (fun _ => nofun) ?_)
    exact @Lays.cons false (.word "b") [.sym '}'] [] _ .nil nofun (hend true)
  · show Lays false edgeTokens "digraph G {a -> b}".toList
    rw [hspaced]
    refine hstart (@Lays.cons true .arrow [.word "b", .sym '}'] [' '] _ gap_blank (fun _ => nofun) ?_)
    exact @Lays.cons false (.word "b") [.sym '}'] [' '] _ gap_blank nofun (hend true)

end Octos.Pipeline
