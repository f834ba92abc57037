/-
# `Octos.Pipeline.Condition` — edge conditions

`condition.rs`: the tokenizer, the recursive-descent parser and the evaluator of
the expressions on edges.

    expr     = or_expr
    or_expr  = and_expr ("||" and_expr)*
    and_expr = unary ("&&" unary)*
    unary    = "!" unary | primary
    primary  = "(" expr ")"
             | "outcome.status" ("==" | "!=") STRING
             | "outcome.contains(" STRING ")"
             | "context." IDENT ("==" | "!=") STRING

The source reads bytes; all the characters it looks at are ASCII, so characters
are read here.  Every call of the parser is charged one unit of fuel, and four
units for each token are enough: a nested expression consumes a token at every
fourth call.
-/
import Octos.Lib.Checked
import Octos.Lib.Table

namespace Octos.Pipeline

/-! ## Outcomes -/

inductive OutcomeStatus
  | pass
  | fail
  | error
  | skipped
  deriving DecidableEq, Repr

structure TokenUsage where
  inputTokens : U32
  outputTokens : U32
  reasoningTokens : U32 := 0
  cacheReadTokens : U32 := 0
  cacheWriteTokens : U32 := 0
  deriving DecidableEq

def TokenUsage.zero : TokenUsage :=
  { inputTokens := 0, outputTokens := 0 }

/-- What a node produced; a path is the list of its components. -/
structure NodeOutcome where
  nodeId : String
  status : OutcomeStatus
  content : String
  tokenUsage : TokenUsage
  filesModified : List (List String)
  deriving DecidableEq

/-- `str::contains`. -/
def containsText (text needle : String) : Bool :=
  decide (needle.toList <:+: text.toList)

/-! ## Expressions -/

inductive CondExpr
  | statusEq (s : String)
  | statusNe (s : String)
  | contains (s : String)
  | contextEq (key value : String)
  | contextNe (key value : String)
  | not (e : CondExpr)
  | and (a b : CondExpr)
  | or (a b : CondExpr)
  /-- The parser never answers it. -/
  | true
  deriving DecidableEq

def statusStr : OutcomeStatus → String
  | .pass => "pass"
  | .fail => "fail"
  | .error => "error"
  | .skipped => "skipped"

/-- `evaluate`: without context variables, so `==` on one is false and `!=` is
true. -/
def evaluate (outcome : NodeOutcome) : CondExpr → Bool
  | .statusEq s => statusStr outcome.status == s
  | .statusNe s => statusStr outcome.status != s
  | .contains s => containsText outcome.content s
  | .contextEq _ _ => false
  | .contextNe _ _ => true
  | .not e => !evaluate outcome e
  | .and a b => evaluate outcome a && evaluate outcome b
  | .or a b => evaluate outcome a || evaluate outcome b
  | .true => true

/-- `EvalContext`: the variables under `context.`. -/
abbrev EvalContext := Table String String

/-- `evaluate_with_context`. -/
def evaluateWithContext (outcome : NodeOutcome) (ctx : EvalContext) : CondExpr → Bool
  | .statusEq s => statusStr outcome.status == s
  | .statusNe s => statusStr outcome.status != s
  | .contains s => containsText outcome.content s
  | .contextEq key value => (ctx[key]?.map (· == value)).getD false
  | .contextNe key value => (ctx[key]?.map (· != value)).getD true
  | .not e => !evaluateWithContext outcome ctx e
  | .and a b => evaluateWithContext outcome ctx a && evaluateWithContext outcome ctx b
  | .or a b => evaluateWithContext outcome ctx a || evaluateWithContext outcome ctx b
  | .true => true

/-! ## Tokens -/

inductive Token
  | ident (s : String)
  | stringLit (s : String)
  | eq
  | ne
  | and
  | or
  | not
  | lParen
  | rParen
  | dot
  deriving DecidableEq

/-- The rest of a string literal: its text and what follows the closing quote;
an unknown escape keeps its backslash, an open literal ends with the input. -/
def lexString : List Char → List Char × List Char
  | [] => ([], [])
  | '"' :: rest => ([], rest)
  | '\\' :: c :: rest =>
      let r := lexString rest
      match c with
      | 'n' => ('\n' :: r.1, r.2)
      | 't' => ('\t' :: r.1, r.2)
      | '\\' => ('\\' :: r.1, r.2)
      | '"' => ('"' :: r.1, r.2)
      | c => ('\\' :: c :: r.1, r.2)
  | c :: rest =>
      let r := lexString rest
      (c :: r.1, r.2)

def isIdentChar (c : Char) : Bool :=
  c.isAlphanum || c == '_'

/-- One token for each pass; `none` at a character no token starts with. -/
def lex : Nat → List Char → Option (List Token)
  | 0, _ => none
  | _ + 1, [] => some []
  | fuel + 1, ' ' :: rest => lex fuel rest
  | fuel + 1, '\t' :: rest => lex fuel rest
  | fuel + 1, '\n' :: rest => lex fuel rest
  | fuel + 1, '\r' :: rest => lex fuel rest
  | fuel + 1, '(' :: rest => (.lParen :: ·) <$> lex fuel rest
  | fuel + 1, ')' :: rest => (.rParen :: ·) <$> lex fuel rest
  | fuel + 1, '.' :: rest => (.dot :: ·) <$> lex fuel rest
  | fuel + 1, '=' :: '=' :: rest => (.eq :: ·) <$> lex fuel rest
  | fuel + 1, '!' :: '=' :: rest => (.ne :: ·) <$> lex fuel rest
  | fuel + 1, '!' :: rest => (.not :: ·) <$> lex fuel rest
  | fuel + 1, '&' :: '&' :: rest => (.and :: ·) <$> lex fuel rest
  | fuel + 1, '|' :: '|' :: rest => (.or :: ·) <$> lex fuel rest
  | fuel + 1, '"' :: rest =>
      let r := lexString rest
      (.stringLit (String.ofList r.1) :: ·) <$> lex fuel r.2
  | fuel + 1, c :: rest =>
      if isIdentChar c then
        (.ident (String.ofList ((c :: rest).takeWhile isIdentChar)) :: ·) <$>
          lex fuel ((c :: rest).dropWhile isIdentChar)
      else none

def tokenize (input : String) : Option (List Token) :=
  lex (input.toList.length + 1) input.toList

/-! ## The parser -/

/-- The comparison after `outcome.status` or `context.key`. -/
def parseComparison (eq ne : String → CondExpr) : List Token → Option (CondExpr × List Token)
  | .eq :: .stringLit s :: ts => some (eq s, ts)
  | .ne :: .stringLit s :: ts => some (ne s, ts)
  | _ => none

mutual

def parseOr : Nat → List Token → Option (CondExpr × List Token)
  | 0, _ => none
  | fuel + 1, ts =>
      match parseAnd fuel ts with
      | some (left, ts) => parseOrRest fuel left ts
      | none => none

/-- The loop of `parse_or`. -/
def parseOrRest : Nat → CondExpr → List Token → Option (CondExpr × List Token)
  | 0, _, _ => none
  | fuel + 1, left, .or :: ts =>
      match parseAnd fuel ts with
      | some (right, ts) => parseOrRest fuel (.or left right) ts
      | none => none
  | _ + 1, left, ts => some (left, ts)

def parseAnd : Nat → List Token → Option (CondExpr × List Token)
  | 0, _ => none
  | fuel + 1, ts =>
      match parseUnary fuel ts with
      | some (left, ts) => parseAndRest fuel left ts
      | none => none

/-- The loop of `parse_and`. -/
def parseAndRest : Nat → CondExpr → List Token → Option (CondExpr × List Token)
  | 0, _, _ => none
  | fuel + 1, left, .and :: ts =>
      match parseUnary fuel ts with
      | some (right, ts) => parseAndRest fuel (.and left right) ts
      | none => none
  | _ + 1, left, ts => some (left, ts)

def parseUnary : Nat → List Token → Option (CondExpr × List Token)
  | 0, _ => none
  | fuel + 1, .not :: ts =>
      match parseUnary fuel ts with
      | some (inner, ts) => some (.not inner, ts)
      | none => none
  | fuel + 1, ts => parsePrimary fuel ts

def parsePrimary : Nat → List Token → Option (CondExpr × List Token)
  | 0, _ => none
  | fuel + 1, .lParen :: ts =>
      match parseOr fuel ts with
      | some (e, .rParen :: ts) => some (e, ts)
      | _ => none
  | _ + 1, .ident "outcome" :: .dot :: .ident "status" :: ts =>
      parseComparison .statusEq .statusNe ts
  | _ + 1, .ident "outcome" :: .dot :: .ident "contains" :: .lParen :: .stringLit s :: .rParen ::
      ts => some (.contains s, ts)
  | _ + 1, .ident "context" :: .dot :: .ident key :: ts =>
      parseComparison (.contextEq key) (.contextNe key) ts
  | _ + 1, _ => none

end

/-- `parse_condition`: the whole input is one expression. -/
def parseCondition (input : String) : Option CondExpr := do
  let ts ← tokenize input
  match parseOr (4 * ts.length + 4) ts with
  | some (e, []) => some e
  | _ => none

example : parseCondition "outcome.status == \"pass\" && !outcome.contains(\"no\\n\")" =
    some (.and (.statusEq "pass") (.not (.contains "no\n"))) := by decide +kernel

end Octos.Pipeline
