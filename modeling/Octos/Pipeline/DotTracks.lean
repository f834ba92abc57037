/-
# `Octos.Pipeline.DotTracks` — the parser runs the machine

`Clean` is a text that reads as a list of tokens from a state on: gaps between the
tokens, and behind a word no character that would prolong it.  What prolongs a word
depends on the state, since an attribute value may also have `/` and `:` in it.
Where the machine has stopped nothing more is read, and any text will do.

`Tracks` compares a function of the parser with the machine: if it fails, the machine
accepts nothing, and if it returns, the machine is where the function stopped reading,
in the state that its result calls for.  There is one such lemma for each function,
up to `parseDot_clean`.
-/
import Octos.Pipeline.DotTokens
import Octos.Pipeline.DotSound

namespace Octos.Pipeline

open Text DotState

variable {env : DotEnv} {size : Nat} {α β : Type}

/-! ## Texts of tokens -/

/-- A value without quotes; it starts like an identifier. -/
structure IsBareWord (env : DotEnv) (id : String) : Prop where
  start : ∃ ch ∈ id.toList.head?, env.isWord ch = true
  bare : ∀ ch ∈ id.toList, env.isBare ch = true

/-- A character that is a token by itself. -/
structure IsSymbol (env : DotEnv) (ch : Char) : Prop where
  notBare : env.isBare ch = false
  visible : isWhitespace ch = false
  notHash : ch ≠ '#'
  notQuote : ch ≠ '"'

/-- A token that can be read in a state. -/
def Readable (env : DotEnv) (st : DotState) : DotToken → Prop
  | .word id => if st.isValue then IsBareWord env id else IsId env id
  | .arrow => st.takesArrow = true
  | .sym ch => IsSymbol env ch
  | .quoted body => QuotedBody body

/-- A token ends before what follows; the word `-` and a following `>` would be an arrow. -/
def EndsIn (env : DotEnv) (st : DotState) : DotToken → List Char → Prop
  | .word id, rest =>
      (if st.isValue then ∀ ch ∈ rest.head?, env.isBare ch = false else Ends env rest) ∧
        (st.takesArrow = true → ¬['-', '>'] <+: id.toList ++ rest)
  | _, _ => True

inductive Clean (env : DotEnv) : DotState → List DotToken → List Char → Prop
  | stop {st : DotState} {ts : List DotToken} {text : List Char} (h : st.stopped = true) : Clean env st ts text
  | nil {st : DotState} {g : List Char} (hg : LastGap g) : Clean env st [] g
  | cons {st : DotState} {t : DotToken} {ts : List DotToken} {g rest : List Char}
      (hs : st.stopped = false) (hg : Gap g) (ht : Readable env st t) (hend : EndsIn env st t rest)
      (h : Clean env (st.step env t) ts rest) : Clean env st (t :: ts) (g ++ (t.text ++ rest))

theorem isBare_of_isWord {ch : Char} (h : env.isWord ch = true) : env.isBare ch = true := by
  rw [DotEnv.isBare, h]
  rfl

theorem isWord_of_notBare {ch : Char} (h : env.isBare ch = false) : env.isWord ch = false := by
  cases hword : env.isWord ch with
  | false => rfl
  | true => rw [isBare_of_isWord hword] at h; cases h

theorem isBare_ascii {ch : Char} (h : ch.toNat < 128) :
    env.isBare ch = (ch.isAlphanum || ch == '_' || ch == '-' || ch == '.' || ch == '/' || ch == ':') := by
  rw [DotEnv.isBare, isWord_ascii h]

theorem IsSymbol.stop {ch : Char} (h : IsSymbol env ch) (rest : List Char) : skipWs (ch :: rest) = ch :: rest := by
  refine skipWs_stop h.visible ?_ h.notHash
  rintro rfl
  have hbare := h.notBare
  rw [isBare_ascii (by decide)] at hbare
  exact absurd hbare (by decide)

theorem quote_notWord (rest : List Char) : Ends env ('"' :: rest) :=
  ends_of_ascii (by decide) (by decide)

theorem IsId.isWord_head {id : String} (h : IsId env id) :
    ∃ ch w, id.toList = ch :: w ∧ env.isWord ch = true := by
  cases hid : id.toList with
  | nil => exact absurd hid h.nonempty
  | cons ch w => exact ⟨ch, w, rfl, h.word ch (by rw [hid]; exact List.mem_cons_self)⟩

theorem IsBareWord.isWord_head {id : String} (h : IsBareWord env id) :
    ∃ ch w, id.toList = ch :: w ∧ env.isWord ch = true := by
  obtain ⟨ch, hch, hword⟩ := h.start
  obtain ⟨w, hw⟩ := List.head?_eq_some_iff.mp hch
  exact ⟨ch, w, hw, hword⟩

theorem Readable.isWord_head {st : DotState} {id : String} (h : Readable env st (.word id)) :
    ∃ ch w, id.toList = ch :: w ∧ env.isWord ch = true := by
  change if st.isValue then IsBareWord env id else IsId env id at h
  split at h
  · exact h.isWord_head
  · exact h.isWord_head

/-- Only the symbol itself starts with a symbol. -/
theorem Readable.head {st : DotState} {t : DotToken} (h : Readable env st t) :
    ∃ c w, t.text = c :: w ∧
      ∀ ch, env.isWord ch = false → ch ≠ '"' → t ≠ .sym ch → c ≠ ch := by
  cases t with
  | word id =>
      obtain ⟨c, w, hw, hword⟩ := h.isWord_head
      refine ⟨c, w, hw, ?_⟩
      rintro ch hch - - rfl
      rw [hch] at hword
      cases hword
  | arrow =>
      refine ⟨'-', ['>'], rfl, ?_⟩
      rintro ch hch - - rfl
      rw [isWord_ascii (by decide)] at hch
      exact absurd hch (by decide)
  | sym c =>
      refine ⟨c, [], rfl, ?_⟩
      rintro ch - - hne rfl
      exact hne rfl
  | quoted body =>
      refine ⟨'"', body ++ ['"'], rfl, ?_⟩
      rintro ch - hquote - rfl
      exact hquote rfl

/-- A token stands where a gap ends. -/
theorem Readable.stop {st : DotState} {t : DotToken} (h : Readable env st t) (rest : List Char) :
    skipWs (t.text ++ rest) = t.text ++ rest := by
  cases t with
  | word id =>
      obtain ⟨ch, w, hw, hword⟩ := h.isWord_head
      obtain ⟨hws, hslash, hhash⟩ := isWord_visible hword
      show skipWs (id.toList ++ rest) = id.toList ++ rest
      rw [hw]
      exact skipWs_stop hws hslash hhash
  | arrow => exact skipWs_stop (by decide) (by decide) (by decide)
  | sym ch => exact IsSymbol.stop h rest
  | quoted body => exact skipWs_stop (by decide) (by decide) (by decide)

/-- What stands next. -/
theorem Clean.next {st : DotState} {ts : List DotToken} {text : List Char} (h : Clean env st ts text)
    (hs : st.stopped = false) :
    (ts = [] ∧ skipWs text = []) ∨
      ∃ t us rest, ts = t :: us ∧ skipWs text = t.text ++ rest ∧ Readable env st t ∧ EndsIn env st t rest ∧
        Clean env (st.step env t) us rest := by
  cases h with
  | stop h => rw [hs] at h; cases h
  | nil hg => exact Or.inl ⟨rfl, skipWs_lastGap hg⟩
  | cons _ hg ht hend h =>
      refine Or.inr ⟨_, _, _, rfl, ?_, ht, hend, h⟩
      rw [skipWs_gap hg, ht.stop]

/-- Another state that goes on in the same way may take over. -/
theorem Clean.move {st st' : DotState} {ts : List DotToken} {text : List Char} (h : Clean env st ts text)
    (hs : st.stopped = false) (hs' : st'.stopped = false) (hvalue : st.isValue = st'.isValue)
    (harrow : st'.takesArrow = false) (hstep : ∀ t ∈ ts.head?, st.step env t = st'.step env t)
    (hword : ∀ t ∈ ts.head?, t ≠ .arrow) : Clean env st' ts text := by
  cases h with
  | stop h => rw [hs] at h; cases h
  | nil hg => exact .nil hg
  | @cons _ t us g rest _ hg ht hend h =>
      refine .cons hs' hg ?_ ?_ (hstep t rfl ▸ h)
      · cases t with
        | word id => simpa only [Readable, hvalue] using ht
        | arrow => exact absurd rfl (hword _ rfl)
        | sym ch => exact ht
        | quoted body => exact ht
      · cases t with
        | word id =>
            refine ⟨by simpa only [hvalue] using hend.1, ?_⟩
            rw [harrow]
            exact nofun
        | _ => trivial

theorem Clean.head_ne_arrow {st : DotState} {ts : List DotToken} {text : List Char} (h : Clean env st ts text)
    (hs : st.stopped = false) (harrow : st.takesArrow = false) : ∀ t ∈ ts.head?, t ≠ .arrow := by
  rintro t ht rfl
  rcases h.next hs with ⟨rfl, -⟩ | ⟨t, us, after, rfl, -, hread, -⟩
  · cases ht
  · obtain rfl := Option.some.inj ht
    have htakes : st.takesArrow = true := hread
    rw [harrow] at htakes
    cases htakes

theorem Clean.skip {st : DotState} {ts : List DotToken} {text : List Char} (h : Clean env st ts text)
    (hs : st.stopped = false) : Clean env st ts (skipWs text) := by
  rcases h.next hs with ⟨rfl, hskip⟩ | ⟨t, us, rest, rfl, hskip, ht, hend, h⟩
  · rw [hskip]
    exact .nil (.closed .nil)
  · rw [hskip]
    exact @Clean.cons _ _ _ _ [] _ hs .nil ht hend h

theorem Clean.moveSkip {st st' : DotState} {ts : List DotToken} {text : List Char} (h : Clean env st ts text)
    (hs : st.stopped = false) (hs' : st'.stopped = false) (hvalue : st.isValue = st'.isValue)
    (harrow : st'.takesArrow = false) (hstep : ∀ t ∈ ts.head?, st.step env t = st'.step env t)
    (hword : ∀ t ∈ ts.head?, t ≠ .arrow) : Clean env st' ts (skipWs text) :=
  (h.move hs hs' hvalue harrow hstep hword).skip hs'

/-! ## The machine beside the parser -/

/-- A result of the parser and the machine: they fail together, or the machine goes on
from where the parser stopped. -/
def Tracks (env : DotEnv) (st : DotState) (ts : List DotToken) (r : Except DotError α) (rest : α → List Char)
    (next : α → DotState) : Prop :=
  match r with
  | .error _ => accepted (st.run env ts) = none
  | .ok x => ∃ us, Clean env (next x) us (rest x) ∧ accepted (st.run env ts) = accepted ((next x).run env us)

theorem Tracks.bind {st : DotState} {ts : List DotToken} {r : Except DotError α} {rest : α → List Char}
    {next : α → DotState} {f : α → Except DotError β} {rest' : β → List Char} {next' : β → DotState}
    (h : Tracks env st ts r rest next)
    (hf : ∀ x us, r = .ok x → Clean env (next x) us (rest x) → Tracks env (next x) us (f x) rest' next') :
    Tracks env st ts (r >>= f) rest' next' := by
  cases r with
  | error e => exact h
  | ok x =>
      obtain ⟨us, hclean, hrun⟩ := h
      have hx := hf x us rfl hclean
      show Tracks env st ts (f x) rest' next'
      unfold Tracks at hx ⊢
      cases hfx : f x with
      | error e =>
          simp only [hfx] at hx ⊢
          rw [hrun, hx]
      | ok y =>
          simp only [hfx] at hx ⊢
          obtain ⟨vs, hclean', hrun'⟩ := hx
          exact ⟨vs, hclean', hrun.trans hrun'⟩

/-- The machine takes a token. -/
theorem Tracks.cons {st : DotState} {t : DotToken} {ts : List DotToken} {r : Except DotError α}
    {rest : α → List Char} {next : α → DotState} (h : Tracks env (st.step env t) ts r rest next) :
    Tracks env st (t :: ts) r rest next :=
  h

theorem Tracks.return {st : DotState} {ts : List DotToken} {x : α} {rest : α → List Char}
    {next : α → DotState} (h : Clean env (next x) ts (rest x)) (hst : st = next x) :
    Tracks env st ts (.ok x) rest next :=
  ⟨ts, h, by rw [hst]⟩

/-- A token that leads nowhere. -/
theorem accepted_failed {st : DotState} {t : DotToken} {ts : List DotToken} (h : st.step env t = failed) :
    accepted (st.run env (t :: ts)) = none := by
  show accepted (run env (st.step env t) ts) = none
  rw [h, run_failed]
  rfl

theorem accepted_end {st : DotState} (h : st.stopped = false) : accepted (st.run env []) = none := by
  cases st with
  | done g => cases h
  | _ => rfl

/-- Another state that goes on in the same way. -/
theorem accepted_move {st st' : DotState} {ts : List DotToken} (hs : st.stopped = false)
    (hs' : st'.stopped = false) (hstep : ∀ t ∈ ts.head?, st.step env t = st'.step env t) :
    accepted (st.run env ts) = accepted (st'.run env ts) := by
  cases ts with
  | nil => rw [accepted_end hs, accepted_end hs']
  | cons t ts =>
      show accepted (run env (st.step env t) ts) = accepted (run env (st'.step env t) ts)
      rw [hstep t rfl]

theorem Tracks.move {st st' : DotState} {ts : List DotToken} {r : Except DotError α} {rest : α → List Char}
    {next : α → DotState} (h : Tracks env st' ts r rest next) (hs : st.stopped = false)
    (hs' : st'.stopped = false) (hstep : ∀ t ∈ ts.head?, st.step env t = st'.step env t) :
    Tracks env st ts r rest next := by
  unfold Tracks at h ⊢
  rwa [accepted_move hs hs' hstep]

/-! ## Words and symbols -/

theorem parseIdentifier_ends {e : DotError} {text : List Char} (h : Ends env text) :
    parseIdentifier env e text = .error e := by
  have htake : text.takeWhile env.isWord = [] := by
    cases text with
    | nil => rfl
    | cons ch text => exact List.takeWhile_cons_of_neg (by simp [h ch rfl])
  rw [parseIdentifier, parseWord, htake]

theorem tryKeyword_ends {kw : String} {text : List Char} (h : Ends env text) : tryKeyword env kw text = none := by
  rw [tryKeyword, parseIdentifier_ends h]

theorem IsSymbol.notWord {ch : Char} (h : IsSymbol env ch) (rest : List Char) : Ends env (ch :: rest) := by
  intro other hother
  obtain rfl := Option.some.inj hother
  exact isWord_of_notBare h.notBare

/-- Where no arrow is looked for, the next token is a word, or no word starts here. -/
theorem Clean.word_or {st : DotState} {ts : List DotToken} {text : List Char} (h : Clean env st ts text)
    (hs : st.stopped = false) (hvalue : st.isValue = false) (harrow : st.takesArrow = false) :
    (∃ id us rest, ts = .word id :: us ∧ skipWs text = id.toList ++ rest ∧ IsId env id ∧ Ends env rest ∧
        Clean env (st.step env (.word id)) us rest) ∨
      (Ends env (skipWs text) ∧ ∀ id, ts.head? ≠ some (.word id)) := by
  rcases h.next hs with ⟨rfl, hskip⟩ | ⟨t, us, rest, rfl, hskip, ht, hend, h⟩
  · rw [hskip]
    exact Or.inr ⟨nofun, nofun⟩
  · cases t with
    | word id =>
        refine Or.inl ⟨id, us, rest, rfl, hskip, ?_, ?_, h⟩
        · simpa [Readable, hvalue] using ht
        · simpa [hvalue] using hend.1
    | arrow =>
        have ht' : st.takesArrow = true := ht
        rw [harrow] at ht'
        cases ht'
    | sym ch =>
        rw [hskip]
        exact Or.inr ⟨IsSymbol.notWord ht rest, nofun⟩
    | quoted body =>
        rw [hskip]
        exact Or.inr ⟨quote_notWord _, nofun⟩

/-- Where only a word will do. -/
theorem Tracks.word {st : DotState} {ts : List DotToken} {text : List Char} {e : DotError}
    {f : String × List Char → Except DotError α} {rest : α → List Char} {next : α → DotState}
    (h : Clean env st ts text) (hs : st.stopped = false) (hvalue : st.isValue = false)
    (harrow : st.takesArrow = false) (honly : ∀ t ∈ ts.head?, (∀ id, t ≠ .word id) → st.step env t = failed)
    (hf : ∀ id us after, skipWs text = id.toList ++ after → IsId env id →
      Clean env (st.step env (.word id)) us after → Tracks env (st.step env (.word id)) us (f (id, after)) rest next) :
    Tracks env st ts (parseIdentifier env e (skipWs text) >>= f) rest next := by
  rcases h.word_or hs hvalue harrow with ⟨id, us, after, rfl, hskip, hid, hends, h⟩ | ⟨hends, hhead⟩
  · rw [hskip, parseIdentifier_id hid hends, ok_bind]
    exact Tracks.cons (hf id us after hskip hid h)
  · rw [parseIdentifier_ends hends]
    cases ts with
    | nil => exact accepted_end hs
    | cons t ts => exact accepted_failed (honly t rfl fun id hid => hhead id (hid ▸ rfl))

/-- Where only one symbol will do. -/
theorem Tracks.symbol {st : DotState} {ts : List DotToken} {text : List Char} {ch : Char} {e : DotError}
    {f : List Char → Except DotError α} {rest : α → List Char} {next : α → DotState}
    (h : Clean env st ts text) (hs : st.stopped = false) (hch : env.isWord ch = false) (hquote : ch ≠ '"')
    (honly : ∀ t, t ≠ .sym ch → st.step env t = failed)
    (hf : ∀ us after, skipWs text = ch :: after → Clean env (st.step env (.sym ch)) us after →
      Tracks env (st.step env (.sym ch)) us (f after) rest next) :
    Tracks env st ts (expectChar ch e (skipWs text) >>= f) rest next := by
  rcases h.next hs with ⟨rfl, hskip⟩ | ⟨t, us, after, rfl, hskip, ht, hend, h⟩
  · rw [hskip]
    exact accepted_end hs
  · by_cases hsym : t = .sym ch
    · subst hsym
      rw [hskip]
      show Tracks env st _ (expectChar ch e (ch :: after) >>= f) rest next
      rw [expectChar_same, ok_bind]
      exact Tracks.cons (hf us after hskip h)
    · obtain ⟨c, w, hw, hc⟩ := ht.head
      rw [hskip, hw]
      show Tracks env st _ ((if c = ch then _ else .error e) >>= f) rest next
      rw [if_neg (hc ch hch hquote hsym)]
      exact accepted_failed (honly t hsym)

/-- A symbol stands next, or the text does not begin with it. -/
theorem Clean.symbol_or {st : DotState} {ts : List DotToken} {text : List Char} (h : Clean env st ts text)
    (hs : st.stopped = false) {ch : Char} (hch : ch.toNat < 128)
    (hword : (ch.isAlphanum || ch == '_' || ch == '-' || ch == '.') = false) (hquote : ch ≠ '"') :
    (∃ us after, ts = .sym ch :: us ∧ skipWs text = ch :: after ∧ Clean env (st.step env (.sym ch)) us after) ∨
      ((∀ t ∈ ts.head?, t ≠ .sym ch) ∧ ∀ after, skipWs text ≠ ch :: after) := by
  rcases h.next hs with ⟨rfl, hskip⟩ | ⟨t, us, after, rfl, hskip, ht, hend, hnext⟩
  · rw [hskip]
    exact Or.inr ⟨nofun, nofun⟩
  · by_cases hsym : t = .sym ch
    · subst hsym
      exact Or.inl ⟨us, after, rfl, hskip, hnext⟩
    · obtain ⟨c, w, hw, hc⟩ := ht.head
      refine Or.inr ⟨?_, ?_⟩
      · rintro t' ⟨⟩
        exact hsym
      · intro after' heq
        rw [hskip, hw] at heq
        exact hc ch (by rw [isWord_ascii hch, hword]) hquote hsym (List.cons.inj heq).1

/-! ## Attributes -/

theorem parseWord_bare {id : String} {e : DotError} {rest : List Char} (h : IsBareWord env id)
    (hrest : ∀ ch ∈ rest.head?, env.isBare ch = false) :
    parseWord env.isBare e (id.toList ++ rest) = .ok (id, rest) := by
  have hne : id.toList ≠ [] := by
    obtain ⟨ch, w, hw, -⟩ := h.isWord_head
    rw [hw]
    exact List.cons_ne_nil _ _
  have hend : rest.takeWhile env.isBare = [] ∧ rest.dropWhile env.isBare = rest := by
    cases rest with
    | nil => exact ⟨rfl, rfl⟩
    | cons ch rest =>
        have hch : ¬env.isBare ch = true := by simp [hrest ch rfl]
        exact ⟨List.takeWhile_cons_of_neg hch, List.dropWhile_cons_of_neg hch⟩
  have htake : (id.toList ++ rest).takeWhile env.isBare = id.toList := by
    rw [List.takeWhile_append_of_pos h.bare, hend.1, List.append_nil]
  have hdrop : (id.toList ++ rest).dropWhile env.isBare = rest := by
    rw [List.dropWhile_append_of_pos h.bare, hend.2]
  rw [parseWord, htake, hdrop]
  split
  · next hnil => exact absurd hnil hne
  · rw [String.ofList_toList]

theorem parseWord_stop {isWord : Char → Bool} {e : DotError} {text : List Char}
    (h : ∀ ch ∈ text.head?, isWord ch = false) : parseWord isWord e text = .error e := by
  have htake : text.takeWhile isWord = [] := by
    cases text with
    | nil => rfl
    | cons ch text => exact List.takeWhile_cons_of_neg (by simp [h ch rfl])
  rw [parseWord, htake]

theorem parseValue_tracks {sc : Scope} {owner : AttrOwner} {attrs : Attributes} {k : String}
    {ts : List DotToken} {text : List Char} (h : Clean env (value sc owner attrs k) ts text) :
    Tracks env (value sc owner attrs k) ts (parseValue env size (skipWs text)) Prod.snd
      (fun x => attributes sc owner (attrs.insert k x.1)) := by
  rcases h.next rfl with ⟨rfl, hskip⟩ | ⟨t, us, after, rfl, hskip, ht, hend, h⟩
  · rw [hskip]
    exact accepted_end rfl
  · rw [hskip]
    cases t with
    | word id =>
        have hid : IsBareWord env id := ht
        have hvalue : parseValue env size (id.toList ++ after) = .ok (id, after) := by
          obtain ⟨ch, w, hw, hword⟩ := hid.isWord_head
          have hquote : ch ≠ '"' := by
            rintro rfl
            rw [quote_notWord [] '"' rfl] at hword
            cases hword
          unfold parseValue
          split
          · next text heq =>
              rw [hw] at heq
              exact absurd (List.cons.inj heq).1 hquote
          · exact parseWord_bare hid hend.1
        show Tracks env _ _ (parseValue env size (id.toList ++ after)) Prod.snd _
        rw [hvalue]
        exact ⟨us, h, rfl⟩
    | arrow => cases ht
    | sym ch =>
        have hsym : IsSymbol env ch := ht
        have hvalue : ∃ e, parseValue env size (ch :: after) = .error e := by
          unfold parseValue
          split
          · next text heq => exact absurd (List.cons.inj heq).1 hsym.notQuote
          · refine ⟨_, parseWord_stop ?_⟩
            intro c hc
            obtain rfl := Option.some.inj hc
            exact hsym.notBare
        obtain ⟨e, he⟩ := hvalue
        show Tracks env _ _ (parseValue env size (ch :: after)) Prod.snd _
        rw [he]
        exact accepted_failed rfl
    | quoted body =>
        have hbody : QuotedBody body := ht
        show Tracks env _ _ (parseValue env size ('"' :: (body ++ ['"']) ++ after)) Prod.snd _
        rw [List.cons_append, List.append_assoc, List.singleton_append, parseValue,
          parseQuotedString_body hbody]
        exact ⟨us, h, rfl⟩

/-- A word in the attribute loop is a key. -/
theorem attributeLoop_word {fuel : Nat} {input : List Char} {attrs : Attributes} {ch : Char}
    {after : List Char} (hskip : skipWs input = ch :: after) (hclose : ch ≠ ']') (hcomma : ch ≠ ',')
    (hsemi : ch ≠ ';') :
    attributeLoop env size (fuel + 1) input attrs =
      parseIdentifier env .expectedAttributeName (skipWs input) >>= fun x =>
        expectChar '=' .expectedEquals (skipWs x.2) >>= fun rest =>
          parseValue env size (skipWs rest) >>= fun y =>
            attributeLoop env size fuel y.2 (attrs.insert x.1 y.1) := by
  rw [attributeLoop]
  split
  · next heq => rw [hskip] at heq; cases heq
  · next heq => rw [hskip] at heq; exact absurd (List.cons.inj heq).1 hclose
  · next heq => rw [hskip] at heq; exact absurd (List.cons.inj heq).1 hcomma
  · next heq => rw [hskip] at heq; exact absurd (List.cons.inj heq).1 hsemi
  · rfl

/-- The step of the machine for a token that closes nothing and separates nothing. -/
theorem step_attributes {sc : Scope} {owner : AttrOwner} {attrs : Attributes} {t : DotToken}
    (hword : ∀ id, t ≠ .word id) (hclose : t ≠ .sym ']') (hcomma : t ≠ .sym ',') (hsemi : t ≠ .sym ';') :
    (attributes sc owner attrs).step env t = failed := by
  unfold step
  split <;> first | contradiction | rfl | exact absurd rfl (hword _)

/-- Behind a key only `=` will do. -/
theorem step_key {sc : Scope} {owner : AttrOwner} {attrs : Attributes} {k : String} {t : DotToken}
    (h : t ≠ .sym '=') : (key sc owner attrs k).step env t = failed := by
  unfold step
  split <;> first | contradiction | rfl

theorem attributeLoop_tracks {sc : Scope} {owner : AttrOwner} : ∀ {fuel : Nat} {attrs : Attributes}
    {ts : List DotToken} {text : List Char}, text.length < fuel → Clean env (attributes sc owner attrs) ts text →
      Tracks env (attributes sc owner attrs) ts (attributeLoop env size fuel text attrs) Prod.snd
        (fun x => ended (sc.finish env owner x.1)) := by
  intro fuel
  induction fuel with
  | zero => intro attrs ts text hfuel; omega
  | succ fuel ih =>
      intro attrs ts text hfuel h
      have hlen := skipWs_length text
      rcases h.next rfl with ⟨rfl, hskip⟩ | ⟨t, us, after, rfl, hskip, ht, hend, hnext⟩
      · rw [attributeLoop, hskip]
        exact accepted_end rfl
      · rw [hskip, List.length_append] at hlen
        by_cases hclose : t = .sym ']'
        · subst hclose
          rw [attributeLoop, hskip]
          exact ⟨us, hnext, rfl⟩
        · by_cases hcomma : t = .sym ','
          · subst hcomma
            have hshort : 1 ≤ (DotToken.sym ',').text.length := le_refl 1
            rw [attributeLoop, hskip]
            exact Tracks.cons (@ih attrs us after (by omega) hnext)
          · by_cases hsemi : t = .sym ';'
            · subst hsemi
              have hshort : 1 ≤ (DotToken.sym ';').text.length := le_refl 1
              rw [attributeLoop, hskip]
              exact Tracks.cons (@ih attrs us after (by omega) hnext)
            · obtain ⟨c, w, hw, hc⟩ := ht.head
              have hsymbol : ∀ {ch : Char}, ch.toNat < 128 →
                  (ch.isAlphanum || ch == '_' || ch == '-' || ch == '.') = false → ch ≠ '"' → t ≠ .sym ch →
                  c ≠ ch := by
                intro ch hascii hword hquote hne
                exact hc ch (by rw [isWord_ascii hascii, hword]) hquote hne
              have hhead : skipWs text = c :: (w ++ after) := by rw [hskip, hw, List.cons_append]
              rw [attributeLoop_word hhead (hsymbol (by decide) (by decide) (by decide) hclose)
                (hsymbol (by decide) (by decide) (by decide) hcomma)
                (hsymbol (by decide) (by decide) (by decide) hsemi)]
              refine Tracks.word h rfl rfl rfl ?_ ?_
              · rintro t' ⟨⟩ hword
                exact step_attributes hword hclose hcomma hsemi
              · intro key us after hkey hid hclean
                refine Tracks.symbol hclean rfl (by rw [isWord_ascii (by decide)]; decide) (by decide) ?_ ?_
                · exact fun t' ht' => step_key ht'
                · intro us after' hequals hclean
                  refine Tracks.bind (parseValue_tracks hclean) ?_
                  rintro ⟨v, last⟩ us hvalue hclean
                  refine ih ?_ hclean
                  have hkeyLen := congrArg List.length hkey
                  have hequalsLen := congrArg List.length hequals
                  have hafterLen := skipWs_length after
                  have hrestLen := skipWs_length after'
                  have hvalueLen : Within Prod.snd (skipWs after').length (parseValue env size (skipWs after')) :=
                    parseValue_within (le_refl _)
                  rw [hvalue] at hvalueLen
                  have hlast : last.length ≤ (skipWs after').length := hvalueLen
                  simp only [List.length_append, List.length_cons] at hkeyLen hequalsLen
                  have htextLen := skipWs_length text
                  show last.length < fuel
                  omega

theorem parseAttributes_tracks {sc : Scope} {owner : AttrOwner} {ts : List DotToken} {text : List Char}
    (h : Clean env (optional sc owner) ts text) :
    Tracks env (optional sc owner) ts (parseAttributes env size (skipWs text)) Prod.snd
      (fun x => ended (sc.finish env owner x.1)) := by
  rcases h.symbol_or rfl (show ('[').toNat < 128 by decide) (by decide) (by decide) with
    ⟨us, after, rfl, hskip, hnext⟩ | ⟨hopen, hhead⟩
  · rw [hskip]
    exact Tracks.cons (attributeLoop_tracks (Nat.lt_succ_self _) hnext)
  · have hsame : ∀ t ∈ ts.head?, (optional sc owner).step env t = (ended (sc.finish env owner ∅)).step env t := by
      intro t ht
      show stepOptional env sc owner t = stepEnded (sc.finish env owner ∅) t
      unfold stepOptional
      split
      · exact absurd rfl (hopen _ ht)
      · rfl
    have hparse : parseAttributes env size (skipWs text) = .ok (∅, skipWs text) := by
      unfold parseAttributes
      split
      · next after heq => exact absurd heq (hhead after)
      · rfl
    rw [hparse]
    refine ⟨ts, ?_, accepted_move rfl rfl hsame⟩
    exact h.moveSkip rfl rfl rfl rfl hsame (h.head_ne_arrow rfl rfl)

/-- The semicolon behind a statement. -/
theorem Clean.semicolon {sc : Scope} {ts : List DotToken} {text : List Char} (h : Clean env (ended sc) ts text) :
    ∃ us, Clean env (statement sc) us (skipOptionalSemicolon text) ∧
      accepted ((ended sc).run env ts) = accepted ((statement sc).run env us) := by
  rcases h.symbol_or rfl (show (';').toNat < 128 by decide) (by decide) (by decide) with
    ⟨us, after, rfl, hskip, hnext⟩ | ⟨hsemi, hhead⟩
  · refine ⟨us, ?_, rfl⟩
    rw [skipOptionalSemicolon, hskip]
    exact hnext
  · have hsame : ∀ t ∈ ts.head?, (ended sc).step env t = (statement sc).step env t := by
      intro t ht
      show stepEnded sc t = stepStatement sc t
      unfold stepEnded
      split
      · exact absurd rfl (hsemi _ ht)
      · rfl
    have hskip : skipOptionalSemicolon text = skipWs text := by
      rw [skipOptionalSemicolon]
      split
      · next after heq => exact absurd heq (hhead after)
      · rfl
    refine ⟨ts, ?_, accepted_move rfl rfl hsame⟩
    rw [hskip]
    exact h.moveSkip rfl rfl rfl rfl hsame (h.head_ne_arrow rfl rfl)

/-! ## Chains -/

/-- Where an arrow is looked for, it stands next or the text does not begin with one. -/
theorem Clean.arrow_or {st : DotState} {ts : List DotToken} {text : List Char} (h : Clean env st ts text)
    (hs : st.stopped = false) (htakes : st.takesArrow = true) :
    (∃ us after, ts = .arrow :: us ∧ skipWs text = '-' :: '>' :: after ∧ Clean env (st.step env .arrow) us after) ∨
      ((∀ t ∈ ts.head?, t ≠ .arrow) ∧ ∀ after, skipWs text ≠ '-' :: '>' :: after) := by
  rcases h.next hs with ⟨rfl, hskip⟩ | ⟨t, us, rest, rfl, hskip, ht, hend, h⟩
  · rw [hskip]
    exact Or.inr ⟨nofun, nofun⟩
  · by_cases harrow : t = .arrow
    · subst harrow
      exact Or.inl ⟨us, rest, rfl, hskip, h⟩
    · refine Or.inr ⟨?_, ?_⟩
      · rintro t' ⟨⟩
        exact harrow
      · intro after heq
        rw [hskip] at heq
        cases t with
        | word id => exact hend.2 htakes ⟨after, heq.symm⟩
        | arrow => exact harrow rfl
        | sym ch =>
            obtain rfl := (List.cons.inj heq).1
            have hword := isWord_of_notBare (IsSymbol.notBare ht)
            rw [isWord_ascii (by decide)] at hword
            exact absurd hword (by decide)
        | quoted body => cases heq

/-- Behind a word that no arrow follows, an attribute list may stand. -/
theorem step_identifier {sc : Scope} {first : String} {t : DotToken} (harrow : t ≠ .arrow)
    (hequals : t ≠ .sym '=') : (identifier sc first).step env t = (optional sc (.node first)).step env t := by
  unfold step
  split <;> first | contradiction | rfl | simp_all

theorem step_identifier_inside {id : String} {s : OpenSubgraph} {first : String} {t : DotToken}
    (harrow : t ≠ .arrow) :
    (identifier (.inside id s) first).step env t = (optional (.inside id s) (.node first)).step env t := by
  unfold step
  split <;> first | contradiction | rfl | simp_all

theorem step_chain {sc : Scope} {first : String} {ids : List String} {t : DotToken} (harrow : t ≠ .arrow) :
    (chain sc first ids).step env t = (optional sc (.chain first ids)).step env t := by
  unfold step
  split <;> first | contradiction | rfl | simp_all

theorem chainLoop_tracks {sc : Scope} {first : String} : ∀ {fuel : Nat} {ids : List String}
    {ts : List DotToken} {text : List Char}, text.length < fuel → Clean env (arrow sc first ids) ts text →
      Tracks env (arrow sc first ids) ts (chainLoop env fuel text) Prod.snd
        (fun x => optional sc (.chain first (ids ++ x.1))) := by
  intro fuel
  induction fuel with
  | zero => intro ids ts text hfuel; omega
  | succ fuel ih =>
      intro ids ts text hfuel h
      rw [chainLoop]
      refine Tracks.word h rfl rfl rfl ?_ ?_
      · intro t ht hword
        cases t with
        | word id => exact absurd rfl (hword id)
        | _ => rfl
      · intro id us after hid _ hclean
        rcases hclean.arrow_or rfl rfl with ⟨vs, after', rfl, hskip, hnext⟩ | ⟨hne, hhead⟩
        · have hlong : after'.length < fuel := by
            have htext := skipWs_length text
            have hafter := skipWs_length after
            rw [hid, List.length_append] at htext
            rw [hskip] at hafter
            simp only [List.length_cons] at hafter
            omega
          dsimp only
          rw [hskip]
          refine Tracks.cons (Tracks.bind (ih hlong hnext) ?_)
          rintro ⟨more, last⟩ ws - hlast
          refine Tracks.return ?_ ?_
          · simpa using hlast
          · simp
        · dsimp only
          split
          · next after' heq => exact absurd heq (hhead after')
          · refine ⟨us, ?_, accepted_move rfl rfl fun t ht => step_chain (hne t ht)⟩
            exact hclean.moveSkip rfl rfl rfl rfl (fun t ht => step_chain (hne t ht)) hne

/-- From behind the first arrow; `build` is what the scope makes of the chain. -/
theorem parseEdgeChain_tracks {graph : PipelineGraph} {sc : Scope} {first : String} {ts : List DotToken}
    {text : List Char} (build : PipelineGraph → List String → Scope)
    (hbuild : ∀ attrs ids, sc.finish env (.chain first ids) attrs =
      build { graph with edges := graph.edges ++ chainEdges env attrs first ids } (first :: ids))
    (h : Clean env (arrow sc first []) ts text) :
    Tracks env (arrow sc first []) ts (parseEdgeChain env size graph first text) (fun x => x.2.2)
      (fun x => ended (build x.1 x.2.1)) := by
  refine Tracks.bind (chainLoop_tracks (Nat.lt_succ_self _) h) ?_
  rintro ⟨ids, after⟩ us - hids
  refine Tracks.bind (parseAttributes_tracks hids) ?_
  rintro ⟨attrs, last⟩ vs - hattrs
  refine Tracks.return ?_ ?_
  · exact hbuild attrs ids ▸ hattrs
  · exact congrArg ended (hbuild attrs ids)

/-! ## Statements -/

/-- The end of a statement. -/
theorem Tracks.finish {st : DotState} {ts : List DotToken} {r : Except DotError α} {rest : α → List Char}
    {sc : α → Scope} {f : α → β} (h : Tracks env st ts r rest (fun x => ended (sc x)))
    {sc' : β → Scope} (hsc : ∀ x, sc' (f x) = sc x) :
    Tracks env st ts (r >>= fun x => (.ok (f x, skipOptionalSemicolon (rest x)) : Except DotError (β × List Char)))
      Prod.snd (fun x => statement (sc' x.1)) := by
  refine Tracks.bind h ?_
  rintro x us - hclean
  obtain ⟨vs, hnext, hrun⟩ := hclean.semicolon
  refine ⟨vs, ?_, ?_⟩
  · show Clean env (statement (sc' (f x))) vs _
    rw [hsc]
    exact hnext
  · show _ = accepted ((statement (sc' (f x))).run env vs)
    rw [hsc]
    exact hrun

theorem subgraphStatement_tracks {id : String} {s : OpenSubgraph} {ts : List DotToken} {text : List Char}
    (h : Clean env (statement (.inside id s)) ts text) (hclose : ∀ t ∈ ts.head?, t ≠ .sym '}') :
    Tracks env (statement (.inside id s)) ts (subgraphStatement env size s (skipWs text)) Prod.snd
      (fun x => statement (.inside id x.1)) := by
  rcases h.word_or rfl rfl rfl with ⟨first, us, after, rfl, hskip, hid, hends, hnext⟩ | ⟨hends, hhead⟩
  · rw [hskip]
    unfold subgraphStatement
    rw [tryKeyword_id hid hends, parseIdentifier_id hid hends]
    refine Tracks.cons ?_
    have hstep : (statement (.inside id s)).step env (.word first) =
        if first = "graph" then optional (.inside id s) .graph else identifier (.inside id s) first := rfl
    rw [hstep] at hnext ⊢
    by_cases hgraph : first = "graph"
    · rw [if_pos hgraph] at hnext ⊢
      rw [if_pos hgraph]
      exact Tracks.finish (parseAttributes_tracks hnext) (fun _ => rfl)
    · rw [if_neg hgraph] at hnext ⊢
      rw [if_neg hgraph]
      simp only [ok_bind]
      rcases hnext.arrow_or rfl rfl with ⟨vs, after', rfl, hafter, harrow⟩ | ⟨hne, hno⟩
      · rw [hafter]
        refine Tracks.cons (Tracks.finish (@parseEdgeChain_tracks env size _ (.inside id s) _ _ _
          (fun graph chain => .inside id { s with graph, members := addMembers s.members chain }) ?_ harrow) ?_)
        · exact fun _ _ => rfl
        · exact fun _ => rfl
      · have hstep : ∀ t ∈ us.head?, (identifier (.inside id s) first).step env t =
            (optional (.inside id s) (.node first)).step env t :=
          fun t ht => step_identifier_inside (hne t ht)
        have hattrs : Tracks env (optional (.inside id s) (.node first)) us
            (parseAttributes env size (skipWs after)) Prod.snd
            (fun x => ended ((Scope.inside id s).finish env (.node first) x.1)) :=
          parseAttributes_tracks (hnext.move rfl rfl rfl rfl hstep hne)
        split
        · next after' heq => exact absurd heq (hno after')
        · exact (Tracks.finish hattrs (fun _ => rfl)).move rfl rfl hstep
  · unfold subgraphStatement
    rw [tryKeyword_ends hends, parseIdentifier_ends hends]
    cases ts with
    | nil => exact accepted_end rfl
    | cons t ts =>
        refine accepted_failed ?_
        show stepStatement (.inside id s) t = failed
        unfold stepStatement
        split <;> first | contradiction | rfl | simp_all

/-- Where a block may close: it does, or another token stands next. -/
theorem Clean.close_or {st : DotState} {ts : List DotToken} {text : List Char} (h : Clean env st ts text)
    (hs : st.stopped = false) :
    (ts = [] ∧ skipWs text = []) ∨
      (∃ us after, ts = .sym '}' :: us ∧ skipWs text = '}' :: after ∧ Clean env (st.step env (.sym '}')) us after) ∨
      ((∀ t ∈ ts.head?, t ≠ .sym '}') ∧ skipWs text ≠ [] ∧ ∀ after, skipWs text ≠ '}' :: after) := by
  rcases h.next hs with ⟨rfl, hskip⟩ | ⟨t, us, after, rfl, hskip, ht, hend, hnext⟩
  · exact Or.inl ⟨rfl, hskip⟩
  · refine Or.inr ?_
    rcases h.symbol_or hs (show ('}').toNat < 128 by decide) (by decide) (by decide) with
      hclose | ⟨hclose, hhead⟩
    · exact Or.inl hclose
    · refine Or.inr ⟨hclose, ?_, hhead⟩
      obtain ⟨c, w, hw, -⟩ := ht.head
      rw [hskip, hw]
      exact List.cons_ne_nil _ _

theorem subgraphLoop_tracks {id : String} : ∀ {fuel : Nat} {s : OpenSubgraph} {ts : List DotToken}
    {text : List Char}, text.length < fuel → Clean env (statement (.inside id s)) ts text →
      Tracks env (statement (.inside id s)) ts (subgraphLoop env size id fuel text s) Prod.snd
        (fun x => ended (.top x.1)) := by
  intro fuel
  induction fuel with
  | zero => intro s ts text hfuel; omega
  | succ fuel ih =>
      intro s ts text hfuel h
      have hlen := skipWs_length text
      rw [subgraphLoop]
      rcases h.close_or rfl with ⟨rfl, hskip⟩ | ⟨us, after, rfl, hskip, hnext⟩ | ⟨hclose, hne, hhead⟩
      · rw [hskip]
        exact accepted_end rfl
      · rw [hskip]
        exact ⟨us, hnext, rfl⟩
      · split
        · next heq => exact absurd heq hne
        · next after heq => exact absurd heq (hhead after)
        · refine Tracks.bind (subgraphStatement_tracks h hclose) ?_
          rintro ⟨s', last⟩ us hread hclean
          refine ih ?_ hclean
          have hpos := List.length_pos_of_ne_nil hne
          have hshort : Within Prod.snd ((skipWs text).length - 1) (subgraphStatement env size s (skipWs text)) :=
            subgraphStatement_within (by omega)
          rw [hread] at hshort
          have hlast : last.length ≤ (skipWs text).length - 1 := hshort
          show last.length < fuel
          omega

theorem parseSubgraph_tracks {graph : PipelineGraph} {ts : List DotToken} {text : List Char}
    (h : Clean env (subgraphName graph) ts text) :
    Tracks env (subgraphName graph) ts (parseSubgraph env size graph text) Prod.snd
      (fun x => ended (.top x.1)) := by
  unfold parseSubgraph
  refine Tracks.word h rfl rfl rfl ?_ ?_
  · intro t ht hword
    cases t with
    | word id => exact absurd rfl (hword id)
    | _ => rfl
  · intro id us after _ _ hclean
    refine Tracks.symbol hclean rfl (by rw [isWord_ascii (by decide)]; decide) (by decide) ?_ ?_
    · intro t ht
      unfold step
      split <;> first | contradiction | rfl
    · intro us after' _ hclean
      exact subgraphLoop_tracks (Nat.lt_succ_self _) hclean

theorem skipBareValue_tracks {graph : PipelineGraph} {ts : List DotToken} {text : List Char}
    (h : Clean env (assigned graph) ts text) :
    Tracks env (assigned graph) ts (skipBareValue env (skipWs text)) id (fun _ => ended (.top graph)) := by
  rcases h.next rfl with ⟨rfl, hskip⟩ | ⟨t, us, after, rfl, hskip, ht, hend, hnext⟩
  · rw [hskip]
    exact ⟨[], .nil (.closed .nil), rfl⟩
  · cases t with
    | word v =>
        have hid : IsId env v := ht
        obtain ⟨c, w, hw, hword⟩ := hid.isWord_head
        have hskipped : skipBareValue env (v.toList ++ after) = .ok after := by
          unfold skipBareValue
          split
          · next rest heq =>
              rw [hw] at heq
              obtain rfl := (List.cons.inj heq).1
              rw [quote_notWord [] '"' rfl] at hword
              cases hword
          · rw [parseIdentifier_id hid hend.1]
        rw [hskip]
        show Tracks env _ _ (skipBareValue env (v.toList ++ after)) id _
        rw [hskipped]
        exact ⟨us, hnext, rfl⟩
    | arrow => cases ht
    | sym ch =>
        have hsym : IsSymbol env ch := ht
        have hskipped : skipBareValue env (ch :: after) = .ok (ch :: after) := by
          unfold skipBareValue
          split
          · next rest heq => exact absurd (List.cons.inj heq).1 hsym.notQuote
          · rw [parseIdentifier_ends (hsym.notWord after)]
        have hmove : Clean env (ended (.top graph)) (.sym ch :: us) (skipWs text) :=
          h.moveSkip rfl rfl rfl rfl (fun t ht => by obtain rfl := Option.some.inj ht; rfl)
            (h.head_ne_arrow rfl rfl)
        rw [hskip] at hmove ⊢
        show Tracks env _ _ (skipBareValue env (ch :: after)) id _
        rw [hskipped]
        exact ⟨_, hmove, rfl⟩
    | quoted body =>
        have hbody : QuotedBody body := ht
        rw [hskip]
        show Tracks env _ _ (skipBareValue env ('"' :: (body ++ ['"']) ++ after)) id _
        rw [List.cons_append, List.append_assoc, List.singleton_append, skipBareValue,
          parseQuotedString_body hbody]
        exact ⟨us, hnext, rfl⟩

theorem parseStatement_tracks {graph : PipelineGraph} {ts : List DotToken} {text : List Char}
    (h : Clean env (statement (.top graph)) ts text) (hclose : ∀ t ∈ ts.head?, t ≠ .sym '}') :
    Tracks env (statement (.top graph)) ts (parseStatement env size graph (skipWs text)) Prod.snd
      (fun x => statement (.top x.1)) := by
  rcases h.word_or rfl rfl rfl with ⟨first, us, after, rfl, hskip, hid, hends, hnext⟩ | ⟨hends, hhead⟩
  · rw [hskip]
    unfold parseStatement
    rw [tryKeyword_id hid hends, tryKeyword_id hid hends, parseIdentifier_id hid hends]
    refine Tracks.cons ?_
    have hstep : (statement (.top graph)).step env (.word first) =
        if first = "graph" then optional (.top graph) .graph
        else if first = "subgraph" then subgraphName graph
        else identifier (.top graph) first := rfl
    rw [hstep] at hnext ⊢
    by_cases hgraph : first = "graph"
    · rw [if_pos hgraph] at hnext ⊢
      rw [if_pos hgraph]
      exact Tracks.finish (parseAttributes_tracks hnext) (fun _ => rfl)
    · rw [if_neg hgraph] at hnext ⊢
      rw [if_neg hgraph]
      by_cases hsub : first = "subgraph"
      · rw [if_pos hsub] at hnext ⊢
        rw [if_pos hsub]
        exact Tracks.finish (parseSubgraph_tracks hnext) (fun _ => rfl)
      · rw [if_neg hsub] at hnext ⊢
        rw [if_neg hsub]
        simp only [ok_bind]
        rcases hnext.arrow_or rfl rfl with ⟨vs, after', rfl, hafter, harrow⟩ | ⟨hne, hno⟩
        · rw [hafter]
          refine Tracks.cons (Tracks.finish (@parseEdgeChain_tracks env size _ (.top graph) _ _ _
            (fun graph _ => .top graph) ?_ harrow) ?_)
          · exact fun _ _ => rfl
          · exact fun _ => rfl
        · rcases hnext.symbol_or rfl (show ('=').toNat < 128 by decide) (by decide) (by decide) with
            ⟨vs, after', rfl, hafter, hequals⟩ | ⟨heq, hhead⟩
          · rw [hafter]
            exact Tracks.cons (Tracks.finish (skipBareValue_tracks hequals) (fun _ => rfl))
          · have hstep : ∀ t ∈ us.head?, (identifier (.top graph) first).step env t =
                (optional (.top graph) (.node first)).step env t :=
              fun t ht => step_identifier (hne t ht) (heq t ht)
            have hattrs : Tracks env (optional (.top graph) (.node first)) us
                (parseAttributes env size (skipWs after)) Prod.snd
                (fun x => ended ((Scope.top graph).finish env (.node first) x.1)) :=
              parseAttributes_tracks (hnext.move rfl rfl rfl rfl hstep hne)
            split
            · next after' h => exact absurd h (hno after')
            · next after' h => exact absurd h (hhead after')
            · exact (Tracks.finish hattrs (fun _ => rfl)).move rfl rfl hstep
  · unfold parseStatement
    rw [tryKeyword_ends hends, tryKeyword_ends hends, parseIdentifier_ends hends]
    cases ts with
    | nil => exact accepted_end rfl
    | cons t ts =>
        refine accepted_failed ?_
        show stepStatement (.top graph) t = failed
        unfold stepStatement
        split <;> first | contradiction | rfl | simp_all

/-! ## Documents -/

theorem statementLoop_tracks : ∀ {fuel : Nat} {graph : PipelineGraph} {ts : List DotToken} {text : List Char},
    text.length < fuel → Clean env (statement (.top graph)) ts text →
      Tracks env (statement (.top graph)) ts (statementLoop env size fuel text graph) (fun _ => []) done := by
  intro fuel
  induction fuel with
  | zero => intro graph ts text hfuel; omega
  | succ fuel ih =>
      intro graph ts text hfuel h
      have hlen := skipWs_length text
      rw [statementLoop]
      rcases h.close_or rfl with ⟨rfl, hskip⟩ | ⟨us, after, rfl, hskip, hnext⟩ | ⟨hclose, hne, hhead⟩
      · rw [hskip]
        exact accepted_end rfl
      · rw [hskip]
        exact ⟨us, .stop rfl, rfl⟩
      · split
        · next heq => exact absurd heq hne
        · next after heq => exact absurd heq (hhead after)
        · refine Tracks.bind (parseStatement_tracks h hclose) ?_
          rintro ⟨graph', last⟩ us hread hclean
          refine ih ?_ hclean
          have hpos := List.length_pos_of_ne_nil hne
          have hshort : Within Prod.snd ((skipWs text).length - 1) (parseStatement env size graph (skipWs text)) :=
            parseStatement_within (by omega)
          rw [hread] at hshort
          have hlast : last.length ≤ (skipWs text).length - 1 := hshort
          show last.length < fuel
          omega

theorem parseHeader_tracks {ts : List DotToken} {text : List Char} (h : Clean env digraph ts text) :
    Tracks env digraph ts (parseHeader env text) Prod.snd
      (fun x => statement (.top (emptyGraph (boundGraphId x.1)))) := by
  have hbrace : ∀ {e : DotError} {id : String} {us : List DotToken} {after : List Char},
      Clean env (brace id) us after →
      Tracks env (brace id) us (expectChar '{' e (skipWs after) >>= fun rest =>
        (.ok (id, rest) : Except DotError (String × List Char))) Prod.snd
        (fun x => statement (.top (emptyGraph (boundGraphId x.1)))) := by
    intro e id us after hclean
    refine Tracks.symbol hclean rfl (by rw [isWord_ascii (by decide)]; decide) (by decide) ?_ ?_
    · intro t ht
      unfold step
      split <;> first | contradiction | rfl
    · exact fun us after _ hclean => Tracks.return hclean rfl
  unfold parseHeader
  rcases h.word_or rfl rfl rfl with ⟨kw, us, after, rfl, hskip, hid, hends, hnext⟩ | ⟨hends, hhead⟩
  · rw [hskip, tryKeyword_id hid hends]
    refine Tracks.cons ?_
    have hstep : digraph.step env (.word kw) = if kw = "digraph" then name else failed := rfl
    rw [hstep] at hnext ⊢
    by_cases hkw : kw = "digraph"
    · rw [if_pos hkw] at hnext ⊢
      rw [if_pos hkw]
      rcases hnext.symbol_or rfl (show ('{').toNat < 128 by decide) (by decide) (by decide) with
        ⟨vs, after', rfl, hafter, hopen⟩ | ⟨hopen, hno⟩
      · -- without a name the brace is looked at twice
        have hsame : ∀ t ∈ (DotToken.sym '{' :: vs).head?, name.step env t = (brace "pipeline").step env t := by
          rintro t ⟨⟩
          rfl
        have hclean : Clean env (brace "pipeline") (.sym '{' :: vs) (skipWs after) :=
          hnext.moveSkip rfl rfl rfl rfl hsame (by rintro t ⟨⟩; exact nofun)
        dsimp only
        rw [hafter] at hclean ⊢
        exact (@hbrace .expectedBrace _ _ _ hclean).move rfl rfl hsame
      · have hname : parseGraphName env (skipWs after) =
            parseIdentifier env .expectedGraphName (skipWs after) := by
          unfold parseGraphName
          split
          · next rest heq => exact absurd heq (hno rest)
          · rfl
        dsimp only
        rw [hname]
        refine Tracks.word hnext rfl rfl rfl ?_ ?_
        · intro t ht hword
          unfold step
          split <;> first | contradiction | rfl | simp_all
        · exact fun id vs after' _ _ hclean => hbrace hclean
    · rw [if_neg hkw, if_neg hkw]
      show accepted (failed.run env us) = none
      rw [run_failed]
      rfl
  · rw [tryKeyword_ends hends]
    cases ts with
    | nil => exact accepted_end rfl
    | cons t ts =>
        refine accepted_failed ?_
        cases t with
        | word id => exact absurd rfl (hhead id)
        | _ => rfl

/-- **The parser runs the machine**: on a text that reads as a list of tokens, it builds
what the machine accepts, and fails where the machine accepts nothing. -/
theorem parseDot_clean {ts : List DotToken} {input : String} (h : Clean env digraph ts input.toList) :
    (parseDot env input).toOption = accepted (digraph.run env ts) := by
  have hdoc : Tracks env digraph ts (parseHeader env input.toList >>= fun x =>
      statementLoop env (utf8Length input.toList) (x.2.length + 1) x.2 (emptyGraph (boundGraphId x.1)))
      (fun _ => []) done := by
    refine Tracks.bind (parseHeader_tracks h) ?_
    exact fun x us _ hclean => statementLoop_tracks (Nat.lt_succ_self _) hclean
  have hparse : parseDot env input = (parseHeader env input.toList >>= fun x =>
      statementLoop env (utf8Length input.toList) (x.2.length + 1) x.2 (emptyGraph (boundGraphId x.1))) >>=
        fun graph => .ok (ensureEndpoints graph) := by
    unfold parseDot
    rw [bind_assoc]
    rfl
  rw [hparse]
  unfold Tracks at hdoc
  split at hdoc
  · next e he =>
      rw [he, hdoc]
      rfl
  · next graph hgraph =>
      obtain ⟨us, -, hrun⟩ := hdoc
      rw [hgraph, hrun, run_done]
      rfl

end Octos.Pipeline
