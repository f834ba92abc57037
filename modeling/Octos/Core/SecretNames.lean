/-
# `Octos.Core.SecretNames` — which keys are credentials, and which values are none

The redactor asks two things of the text around a value.  Is the key in front of it the
name of a credential (`classify_key`), and is the value something that is no secret at
all: empty, a mask, a literal, or a reference such as

    $NAME  ${NAME}  %NAME%  $(command)  <your-api-key>  {{ secrets.NAME }}

The text inside a wrapper must carry no secret of its own.  That question goes back to the
scanner, so here it is a parameter, `secret`.
-/
import Octos.Lib.Bytes

namespace Octos.Redact

open Text

/-! ## Bytes -/

/-- The bytes of a text of ASCII, `b"…"`. -/
def ascii (s : String) : List UInt8 :=
  s.toList.map Char.toUInt8

/-- `matches!(b, b'…' | b'…')` -/
def oneOf (s : String) (b : UInt8) : Bool :=
  (ascii s).contains b

def isDigit (b : UInt8) : Bool :=
  decide ('0'.toUInt8 ≤ b) && decide (b ≤ '9'.toUInt8)

def isUpper (b : UInt8) : Bool :=
  decide ('A'.toUInt8 ≤ b) && decide (b ≤ 'Z'.toUInt8)

def isLower (b : UInt8) : Bool :=
  decide ('a'.toUInt8 ≤ b) && decide (b ≤ 'z'.toUInt8)

def isAlphabetic (b : UInt8) : Bool :=
  isUpper b || isLower b

def isAlphanumeric (b : UInt8) : Bool :=
  isAlphabetic b || isDigit b

def toLower (b : UInt8) : UInt8 :=
  if isUpper b then b + 32 else b

/-- `eq_ignore_ascii_case` -/
def eqIgnoreCase (a b : List UInt8) : Bool :=
  a.map toLower == b.map toLower

/-! ## Key names -/

def secretKeyNames : List String :=
  ["apikey", "apikeys", "xapikey", "token", "accesstoken", "refreshtoken", "idtoken", "sessiontoken",
    "authtoken", "bearer", "authorization", "proxyauthorization", "auth", "secret", "secrets",
    "clientsecret", "secretkey", "privatekey", "password", "passwords", "passwd", "pwd", "passphrase",
    "passcode", "credential", "credentials", "awssecretaccesskey"]

def secretKeySuffixes : List String :=
  ["key", "token", "secret", "password"]

inductive KeyKind
  | plain
  | secret
  | cookie
deriving DecidableEq, Repr

def pushToken (tokens : List (List Char)) (current : List Char) : List (List Char) :=
  if current.isEmpty then tokens else tokens ++ [current]

/-- Whether a new word of a camel-cased name begins at a character. -/
def opensToken (chars : List Char) (ch : Char) (index : Nat) : Except Fault Bool :=
  if ch.isUpper && decide (0 < index) then do
    let prev ← nthBefore chars index
    let nextIsLower := (chars[index + 1]?).any Char.isLower
    return prev.isLower || prev.isDigit || (prev.isUpper && nextIsLower)
  else return false

/-- The loop of `key_name_tokens`. -/
def nameTokens (chars : List Char) : List (Char × Nat) → List (List Char) → List Char →
    Except Fault (List (List Char))
  | [], tokens, current => return pushToken tokens current
  | (ch, index) :: rest, tokens, current =>
      if ['-', '_', ' ', '.'].contains ch then nameTokens chars rest (pushToken tokens current) []
      else do
        let boundary ← opensToken chars ch index
        if boundary then nameTokens chars rest (pushToken tokens current) [ch.toLower]
        else nameTokens chars rest tokens (current ++ [ch.toLower])

/-- `key_name_tokens`.  The keys that the scanner finds are of ASCII, and so is the case of
their letters. -/
def keyNameTokens (name : List Char) : Except Fault (List (List Char)) :=
  nameTokens name name.zipIdx [] []

def classifyKey (name : List Char) : Except Fault KeyKind := do
  let tokens ← keyNameTokens name
  match tokens.getLast? with
  | none => return .plain
  | some last =>
      let joined := tokens.flatten
      if joined = "cookie".toList ∨ joined = "setcookie".toList then return .cookie
      else if (secretKeyNames.map String.toList).contains joined then return .secret
      else if 2 ≤ tokens.length ∧ (secretKeySuffixes.map String.toList).contains last then do
        let penultimate ← nth tokens (tokens.length - 2)
        if last = "key".toList ∧ penultimate = "public".toList then return .plain else return .secret
      else return .plain

/-! ## Values -/

def redactedPlaceholder : List Char := "[REDACTED]".toList

def placeholderCues : List String :=
  ["your", "my", "our", "the", "a", "an", "insert", "enter", "replace", "paste", "put", "add", "set",
    "fill", "provide", "supply", "type", "use", "see", "change", "changeme", "replaceme", "example",
    "sample", "dummy", "placeholder", "redacted", "omitted", "hidden", "masked", "removed", "todo",
    "tbd", "fixme", "none", "unset", "missing", "empty", "null", "nil", "undefined", "not", "no",
    "optional", "required", "random", "generated", "auto"]

/-- `MAX_PLACEHOLDER_LEN` -/
def maxPlaceholderLen : Nat := 48

/-- `MAX_SUBSTITUTION_LEN` -/
def maxSubstitutionLen : Nat := 256

def isTriviallyNonSecret (value : List Char) : Bool :=
  value.isEmpty || value == redactedPlaceholder ||
    ["true", "false", "null", "none", "nil", "undefined"].any
      (fun literal => eqIgnoreCase (Codec.utf8 value) (ascii literal)) ||
    (Codec.utf8 value).all (· == '*'.toUInt8)

/-- `[A-Z][A-Z0-9_]*` -/
def isEnvName (name : List Char) : Bool :=
  (name.head?).any Char.isUpper && name.all (fun c => c.isUpper || c.isDigit || c == '_')

/-- The capitals inside a word of which each opens a syllable; `none` if one does not. -/
def innerCapitals (letters : List UInt8) : List (UInt8 × Nat) → Nat → Except Fault (Option Nat)
  | [], count => return some count
  | (byte, index) :: rest, count =>
      if isUpper byte then do
        let prev ← nthBefore letters index
        if isLower prev && (letters[index + 1]?).any isLower then innerCapitals letters rest (count + 1)
        else return none
      else innerCapitals letters rest count

def isPlainWord (word : List Char) : Except Fault Bool :=
  let letters := Codec.utf8 (word.rdropWhile Char.isDigit)
  if letters.isEmpty || !letters.all isAlphabetic then return false
  else if letters.all isLower || letters.all isUpper then return true
  else do
    match ← innerCapitals letters (letters.zipIdx.drop 1) 0 with
    | none => return false
    | some capitals => return decide (capitals ≤ 3)

/-- `xxx` / `XXXX` -/
def isMaskWord (word : List Char) : Bool :=
  decide (3 ≤ utf8Length word) && word.all (fun c => c == 'x' || c == 'X')

def placeholderWords (inner : List Char) : List (List Char) :=
  (inner.splitOnP (fun c => [' ', '-', '_', '.'].contains c)).filter (fun word => !word.isEmpty)

def isTemplatePlaceholder (secret : List Char → Except Fault Bool) (text : List Char) (expression : Bool) :
    Except Fault Bool :=
  let blank := fun c => c == ' ' || c == '\t'
  let inner := (text.dropWhile blank).rdropWhile blank
  if inner.isEmpty ∨ maxPlaceholderLen < utf8Length inner then return false
  else if !(Codec.utf8 inner).all (fun b => isAlphanumeric b || oneOf "_-. " b) then return false
  else do
    if ← secret inner then return false
    else if isEnvName inner then return true
    else
      let words := placeholderWords inner
      let plain ← words.allM isPlainWord
      if words.isEmpty || !plain then return false
      else if expression then return true
      else do
        let lead ← nth words 0
        return words.all (fun word => word.all (fun c => c.isUpper || c.isDigit)) || isMaskWord lead ||
          (placeholderCues.map String.toList).contains (lead.map Char.toLower)

def isBenignSubstitution (secret : List Char → Except Fault Bool) (command : List Char) : Except Fault Bool :=
  if utf8Length command ≤ maxSubstitutionLen then do
    let found ← secret command
    return !found
  else return false

/-- How the text inside a wrapper is read. -/
inductive Reading
  | env
  | substitution
  | template (expression : Bool)
deriving DecidableEq, Repr

/-- The wrappers, in the order in which they are tried. -/
def wrappers : List (String × String × Reading) :=
  [("$\x7b\x7b", "\x7d\x7d", .template true), ("$\x7b", "\x7d", .env), ("$(", ")", .substitution),
    ("$", "", .env), ("%", "%", .env), ("<", ">", .template false), ("\x7b\x7b", "\x7d\x7d", .template true)]

/-- `value.strip_prefix(front).and_then(|rest| rest.strip_suffix(back))` -/
def strip (front back value : List Char) : Option (List Char) :=
  if front.isPrefixOf value then
    let rest := value.drop front.length
    if back.isSuffixOf rest then some (rest.take (rest.length - back.length)) else none
  else none

/-- The first wrapper that fits, and what is inside. -/
def unwrap (value : List Char) : Option (List Char × Reading) :=
  wrappers.findSome? (fun w => (strip w.1.toList w.2.1.toList value).map (fun inner => (inner, w.2.2)))

def isSymbolicReference (secret : List Char → Except Fault Bool) (value : List Char) : Except Fault Bool :=
  match unwrap value with
  | none => return false
  | some (inner, .env) => return isEnvName inner
  | some (inner, .substitution) => isBenignSubstitution secret inner
  | some (inner, .template expression) => isTemplatePlaceholder secret inner expression

def isExemptSecretValue (secret : List Char → Except Fault Bool) (value : List Char) : Except Fault Bool :=
  if isTriviallyNonSecret value then return true else isSymbolicReference secret value

/-! ## Authorization schemes -/

def authSchemes : List String :=
  ["bearer", "basic", "token", "digest", "negotiate", "oauth"]

def isBlank (b : UInt8) : Bool :=
  oneOf " \t" b

/-- Where the value behind a scheme word begins. -/
def authSchemeEnd (text : List UInt8) : Except Fault (Option Nat) :=
  authSchemes.findSomeM? (fun scheme => do
    let n := (ascii scheme).length
    if n < text.length then do
      let word ← sliceAt text 0 n
      let next ← nth text n
      if eqIgnoreCase word (ascii scheme) && isBlank next then do
        let stop ← scanWhile text n isBlank
        return some stop
      else return none
    else return none)

/-! ## They return -/

/-- Every index of a name is inside it. -/
theorem opensToken_returns {chars : List Char} {ch : Char} {index : Nat} (h : index < chars.length) :
    Returns (opensToken chars ch index) (fun _ => True) := by
  refine .ite (fun hup => ?_) (fun _ => .pure trivial)
  have hpos : 0 < index := of_decide_eq_true (Bool.and_eq_true_iff.mp hup).2
  exact (nthBefore_returns hpos (Nat.le_of_lt h)).bind (fun _ _ => .pure trivial)

theorem nameTokens_returns {chars : List Char} : ∀ {rest : List (Char × Nat)} {tokens : List (List Char)}
    {current : List Char}, (∀ p ∈ rest, p.2 < chars.length) →
      Returns (nameTokens chars rest tokens current) (fun _ => True) := by
  intro rest
  induction rest with
  | nil => intro tokens current _; exact .pure trivial
  | cons p rest ih =>
      intro tokens current h
      have hrest : ∀ q ∈ rest, q.2 < chars.length := fun q hq => h q (List.mem_cons_of_mem _ hq)
      refine .ite (fun _ => ih hrest) (fun _ => ?_)
      refine (opensToken_returns (h p List.mem_cons_self)).bind ?_
      intro boundary _
      exact .ite (fun _ => ih hrest) (fun _ => ih hrest)

theorem classifyKey_returns (name : List Char) : Returns (classifyKey name) (fun _ => True) := by
  have hindex : ∀ p ∈ name.zipIdx, p.2 < name.length := by
    intro p hp
    have hlt := List.snd_lt_add_of_mem_zipIdx hp
    simpa using hlt
  refine (nameTokens_returns hindex).bind ?_
  intro tokens _
  cases hlast : tokens.getLast? with
  | none => exact .pure trivial
  | some last =>
      refine .ite (fun _ => .pure trivial) (fun _ => ?_)
      refine .ite (fun _ => .pure trivial) (fun _ => ?_)
      refine .ite (fun htwo => ?_) (fun _ => .pure trivial)
      refine (nth_returns (by omega)).bind ?_
      intro penultimate _
      exact .ite (fun _ => .pure trivial) (fun _ => .pure trivial)

/-- A word is looked at from its second letter on. -/
theorem innerCapitals_returns {letters : List UInt8} : ∀ {rest : List (UInt8 × Nat)} {count : Nat},
    (∀ p ∈ rest, 0 < p.2 ∧ p.2 < letters.length) →
      Returns (innerCapitals letters rest count) (fun _ => True) := by
  intro rest
  induction rest with
  | nil => intro count _; exact .pure trivial
  | cons p rest ih =>
      intro count h
      have hrest : ∀ q ∈ rest, 0 < q.2 ∧ q.2 < letters.length := fun q hq => h q (List.mem_cons_of_mem _ hq)
      refine .ite (fun _ => ?_) (fun _ => ih hrest)
      have hp := h p List.mem_cons_self
      refine (nthBefore_returns hp.1 (Nat.le_of_lt hp.2)).bind ?_
      intro prev _
      exact .ite (fun _ => ih hrest) (fun _ => .pure trivial)

theorem isPlainWord_returns (word : List Char) : Returns (isPlainWord word) (fun _ => True) := by
  refine .ite (fun _ => .pure trivial) (fun _ => ?_)
  refine .ite (fun _ => .pure trivial) (fun _ => ?_)
  refine (innerCapitals_returns ?_).bind ?_
  · intro p hp
    obtain ⟨i, hi⟩ := List.mem_iff_getElem?.mp hp
    rw [List.getElem?_drop, List.getElem?_zipIdx, Option.map_eq_some_iff] at hi
    obtain ⟨b, hb, rfl⟩ := hi
    have hlt := (List.getElem?_eq_some_iff.mp hb).1
    exact ⟨by omega, by omega⟩
  · intro found _
    cases found with
    | none => exact .pure trivial
    | some capitals => exact .pure trivial

theorem allM_returns {α : Type} {f : α → Except Fault Bool} (hf : ∀ a, Returns (f a) (fun _ => True)) :
    ∀ (items : List α), Returns (items.allM f) (fun _ => True) := by
  intro items
  induction items with
  | nil => exact .pure trivial
  | cons a items ih =>
      refine (hf a).bind ?_
      intro holds _
      cases holds with
      | true => exact ih
      | false => exact .pure trivial

/-! ### What is exempt -/

section Exempt

variable {secret : List Char → Except Fault Bool} {value : List Char}

theorem isTemplatePlaceholder_returns {text : List Char} (expression : Bool)
    (hsecret : ∀ inner, inner.length ≤ text.length → Returns (secret inner) (fun _ => True)) :
    Returns (isTemplatePlaceholder secret text expression) (fun _ => True) := by
  refine .ite (fun _ => .pure trivial) (fun _ => ?_)
  refine .ite (fun _ => .pure trivial) (fun _ => ?_)
  refine (hsecret _ ?_).bind ?_
  · exact (List.rdropWhile_prefix _ _).length_le.trans (List.dropWhile_suffix _).length_le
  · intro found _
    refine .ite (fun _ => .pure trivial) (fun _ => ?_)
    refine .ite (fun _ => .pure trivial) (fun _ => ?_)
    refine (allM_returns isPlainWord_returns _).bind ?_
    intro plain _
    refine .ite (fun _ => .pure trivial) (fun hwords => ?_)
    refine .ite (fun _ => .pure trivial) (fun _ => ?_)
    refine (nth_returns ?_).bind (fun lead _ => .pure trivial)
    rw [List.length_pos_iff]
    rintro hnil
    rw [hnil] at hwords
    exact hwords rfl

theorem isBenignSubstitution_returns {command : List Char} (hsecret : Returns (secret command) (fun _ => True)) :
    Returns (isBenignSubstitution secret command) (fun _ => True) :=
  .ite (fun _ => hsecret.bind (fun _ _ => .pure trivial)) (fun _ => .pure trivial)

/-- What stands inside a wrapper is shorter than the whole. -/
theorem strip_length_lt {front back inner : List Char} (hfront : front ≠ [])
    (h : strip front back value = some inner) : inner.length < value.length := by
  rw [strip] at h
  split at h
  · next hpre =>
      simp only at h
      split at h
      · obtain rfl := Option.some.inj h
        have hle := (List.isPrefixOf_iff_prefix.mp hpre).length_le
        have hpos := List.length_pos_iff.mpr hfront
        rw [List.length_take, List.length_drop]
        omega
      · cases h
  · cases h

theorem unwrap_length_lt {inner : List Char} {reading : Reading} (h : unwrap value = some (inner, reading)) :
    inner.length < value.length := by
  obtain ⟨w, hw, hstrip⟩ := List.exists_of_findSome?_eq_some h
  rw [Option.map_eq_some_iff] at hstrip
  obtain ⟨found, hfound, heq⟩ := hstrip
  obtain rfl : found = inner := congrArg Prod.fst heq
  have hfront : ∀ w ∈ wrappers, w.1.toList ≠ [] := by decide
  exact strip_length_lt (hfront w hw) hfound

/-- Of a wrapped value only what is inside is looked at again. -/
theorem isSymbolicReference_returns
    (hsecret : ∀ inner, inner.length < value.length → Returns (secret inner) (fun _ => True)) :
    Returns (isSymbolicReference secret value) (fun _ => True) := by
  rw [isSymbolicReference]
  cases hfound : unwrap value with
  | none => exact .pure trivial
  | some found =>
      obtain ⟨inner, reading⟩ := found
      have hlt := unwrap_length_lt hfound
      cases reading with
      | env => exact .pure trivial
      | substitution => exact isBenignSubstitution_returns (hsecret _ hlt)
      | template expression =>
          exact isTemplatePlaceholder_returns expression
            (fun inner hle => hsecret inner (Nat.lt_of_le_of_lt hle hlt))

/-- What is not exempt is not empty. -/
theorem isExemptSecretValue_returns
    (hsecret : ∀ inner, inner.length < value.length → Returns (secret inner) (fun _ => True)) :
    Returns (isExemptSecretValue secret value) (fun exempt => value = [] → exempt = true) := by
  refine .ite (fun _ => .pure (fun _ => rfl)) (fun htrivial => ?_)
  refine (isSymbolicReference_returns hsecret).imp ?_
  rintro _ _ rfl
  exact absurd rfl htrivial

end Exempt

/-- A scheme ends behind a blank. -/
theorem authSchemeEnd_returns (text : List UInt8) : Returns (authSchemeEnd text)
    (fun found => ∀ n, found = some n → n ≤ text.length ∧ Bytes.Behind text isBlank n) := by
  refine Returns.findSomeM? ?_
  intro scheme _
  refine .ite (fun hlt => ?_) (fun _ => .pure (fun n h => nomatch h))
  refine (sliceAt_returns (Nat.zero_le _) (Nat.le_of_lt hlt)).bind ?_
  intro word _
  refine (nth_returns hlt).bind ?_
  intro next hnext
  refine .ite (fun hscheme => ?_) (fun _ => .pure (fun n h => nomatch h))
  refine (scanWhile_returns isBlank (Nat.le_of_lt hlt)).bind ?_
  intro stop hstop
  refine .pure ?_
  intro n hn
  obtain rfl := Option.some.inj hn
  refine ⟨hstop.inside, hstop.behind ?_⟩
  rcases Nat.lt_or_eq_of_le hstop.le with hlt' | heq
  · exact hlt'
  · rw [heq] at hnext
    have hblank := (Bool.and_eq_true_iff.mp hscheme).2
    rw [hstop.ends next hnext] at hblank
    cases hblank

end Octos.Redact
