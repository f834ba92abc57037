/-
# `Octos.Pipeline.Dot` — the DOT parser

`parser.rs`: a scanner over the remaining input, written by hand.

    digraph name { statement* }
    statement = graph [attrs]  |  subgraph name { .. }  |  id = value
              | id [attrs]     |  id -> id -> .. [attrs]

`skip_ws` goes over white space and comments; a keyword is an identifier that is
read and put back if it is another one.  The input is a list of characters and
what remains of it is passed on.  Every loop reads an identifier or a bracket at
each turn, so one unit of fuel for each character is enough.
-/
import Octos.Pipeline.Graph
import Octos.Lib.Text

namespace Octos.Pipeline

open Text

/-! ## The environment -/

/-- What the standard library decides by its tables of characters and by floating
point: the letters and digits of all scripts, among them the ASCII ones, none of
them white space; the reading of an `f64`, and its products, rounded. -/
structure DotEnv where
  isAlphanumeric : Char → Bool
  ascii : ∀ ch : Char, ch.toNat < 128 → isAlphanumeric ch = ch.isAlphanum
  blank : ∀ ch : Char, isWhitespace ch = true → isAlphanumeric ch = false
  parseF64 : List Char → Option Weight
  scaleF64 : Weight → ℚ → Weight

/-- A character of an identifier. -/
def DotEnv.isWord (env : DotEnv) (ch : Char) : Bool :=
  env.isAlphanumeric ch || ch == '_' || ch == '-' || ch == '.'

/-- A character of a bare value. -/
def DotEnv.isBare (env : DotEnv) (ch : Char) : Bool :=
  env.isWord ch || ch == '/' || ch == ':'

/-! ## Errors -/

/-- The errors, by their outermost message. -/
inductive DotError
  | expectedDigraph
  | expectedGraphName
  | expectedBrace
  | unexpectedEof
  | expectedNode
  | expectedSubgraphName
  | expectedSubgraphBrace
  | eofInSubgraph (id : String)
  | expectedNodeInSubgraph
  | expectedNodeAfterArrow
  | eofInAttributes
  | expectedAttributeName
  | expectedEquals
  | expectedValue (position : Nat)
  | eofInEscape
  | eofInString
  /-- Never raised: `parseDot_fuel`. -/
  | outOfFuel
  deriving DecidableEq

def DotError.message : DotError → String
  | .expectedDigraph => "expected 'digraph' keyword"
  | .expectedGraphName => "expected graph name or '\x7b'"
  | .expectedBrace => "expected '\x7b'"
  | .unexpectedEof => "unexpected EOF, expected '\x7d'"
  | .expectedNode => "expected node ID or '\x7d'"
  | .expectedSubgraphName => "expected subgraph name"
  | .expectedSubgraphBrace => "expected '\x7b' after subgraph name"
  | .eofInSubgraph id => "unexpected EOF in subgraph '" ++ id ++ "'"
  | .expectedNodeInSubgraph => "expected node ID in subgraph"
  | .expectedNodeAfterArrow => "expected node ID after '->'"
  | .eofInAttributes => "unexpected EOF in attribute list"
  | .expectedAttributeName => "expected attribute name"
  | .expectedEquals => "expected '=' in attribute"
  | .expectedValue position => "expected value at position " ++ toString position
  | .eofInEscape => "unexpected EOF in string escape"
  | .eofInString => "unexpected EOF in quoted string"
  | .outOfFuel => ""

/-! ## Scanning -/

/-- Where `skip_ws` is; a block comment is opened and closed by the second of two
characters. -/
inductive Skipping
  | blanks
  | line
  | opening
  | block
  | closing
  deriving DecidableEq

def skip : Skipping → List Char → List Char
  | _, [] => []
  | .blanks, ch :: rest =>
      if ch = '#' ∨ (ch = '/' ∧ rest.head? = some '/') then skip .line rest
      else if ch = '/' ∧ rest.head? = some '*' then skip .opening rest
      else if isWhitespace ch then skip .blanks rest
      else ch :: rest
  | .line, ch :: rest => if ch = '\n' then skip .blanks rest else skip .line rest
  | .opening, _ :: rest => skip .block rest
  | .block, ch :: rest =>
      if ch = '*' ∧ rest.head? = some '/' then skip .closing rest else skip .block rest
  | .closing, _ :: rest => skip .blanks rest

def skipWs (input : List Char) : List Char :=
  skip .blanks input

def skipOptionalSemicolon (input : List Char) : List Char :=
  match skipWs input with
  | ';' :: rest => rest
  | rest => rest

/-- A non-empty word, or the error. -/
def parseWord (isWord : Char → Bool) (error : DotError) (input : List Char) :
    Except DotError (String × List Char) :=
  match input.takeWhile isWord with
  | [] => .error error
  | word => .ok (String.ofList word, input.dropWhile isWord)

def parseIdentifier (env : DotEnv) (error : DotError) (input : List Char) :
    Except DotError (String × List Char) :=
  parseWord env.isWord error input

/-- What follows the keyword, if it stands next. -/
def tryKeyword (env : DotEnv) (kw : String) (input : List Char) : Option (List Char) :=
  match parseIdentifier env .expectedNode input with
  | .ok (id, rest) => if id = kw then some rest else none
  | .error _ => none

def expectChar (ch : Char) (error : DotError) : List Char → Except DotError (List Char)
  | c :: rest => if c = ch then .ok rest else .error error
  | [] => .error error

/-! ## Values and attributes -/

/-- The rest of a quoted string. -/
def parseQuotedString : List Char → Except DotError (List Char × List Char)
  | [] => .error .eofInString
  | '"' :: rest => .ok ([], rest)
  | ['\\'] => .error .eofInEscape
  | '\\' :: ch :: rest => do
      let (text, rest) ← parseQuotedString rest
      match ch with
      | 'n' => return ('\n' :: text, rest)
      | 't' => return ('\t' :: text, rest)
      | '\\' => return ('\\' :: text, rest)
      | '"' => return ('"' :: text, rest)
      | ch => return ('\\' :: ch :: text, rest)
  | ch :: rest => do
      let (text, rest) ← parseQuotedString rest
      return (ch :: text, rest)

/-- `parse_value`; `size` is the length of the whole input, for the position of
an error. -/
def parseValue (env : DotEnv) (size : Nat) : List Char → Except DotError (String × List Char)
  | '"' :: rest => do
      let (text, rest) ← parseQuotedString rest
      return (String.ofList text, rest)
  | input => parseWord env.isBare (.expectedValue (size - utf8Length input)) input

/-- `attrs` as the map the source keeps them in. -/
abbrev Attributes := Table String String

/-- The loop behind `[`. -/
def attributeLoop (env : DotEnv) (size : Nat) :
    Nat → List Char → Attributes → Except DotError (Attributes × List Char)
  | 0, _, _ => .error .outOfFuel
  | fuel + 1, input, attrs =>
      match skipWs input with
      | [] => .error .eofInAttributes
      | ']' :: rest => .ok (attrs, rest)
      | ',' :: rest => attributeLoop env size fuel rest attrs
      | ';' :: rest => attributeLoop env size fuel rest attrs
      | rest => do
          let (key, rest) ← parseIdentifier env .expectedAttributeName rest
          let rest ← expectChar '=' .expectedEquals (skipWs rest)
          let (value, rest) ← parseValue env size (skipWs rest)
          attributeLoop env size fuel rest (attrs.insert key value)

/-- `parse_attributes` where a bracket opens, no attributes elsewhere. -/
def parseAttributes (env : DotEnv) (size : Nat) :
    List Char → Except DotError (Attributes × List Char)
  | '[' :: rest => attributeLoop env size (rest.length + 1) rest ∅
  | input => .ok (∅, input)

/-! ## What attributes mean -/

def parseU32 (text : String) : Option U32 :=
  (parseUnsigned (2 ^ 32) text.toList).map (BitVec.ofNat 32)

def stripSuffix (ending : Char) (text : List Char) : Option (List Char) :=
  if text.getLast? = some ending then some text.dropLast else none

/-- A number of units of so many seconds, if the result fits. -/
def parseSeconds (unit : Nat) (text : List Char) : Option U64 :=
  (parseUnsigned (2 ^ 64) (trim text)).bind (fun n =>
    if n * unit < 2 ^ 64 then some (BitVec.ofNat 64 (n * unit)) else none)

def parseDurationSecs (text : String) : Option U64 :=
  let s := trim text.toList
  match stripSuffix 's' s, stripSuffix 'm' s, stripSuffix 'h' s with
  | some n, _, _ => parseSeconds 1 n
  | _, some n, _ => parseSeconds 60 n
  | _, _, some n => parseSeconds 3600 n
  | _, _, _ => (parseUnsigned (2 ^ 64) s).map (BitVec.ofNat 64)

def parseBool (text : String) : Option Bool :=
  let s := String.ofList (trim text.toList)
  if s = "true" ∨ s = "yes" ∨ s = "1" then some true
  else if s = "false" ∨ s = "no" ∨ s = "0" then some false
  else none

def parseCsvList (text : String) : List String :=
  (entries ',' text.toList).map String.ofList

/-- Finite and not negative. -/
def Weight.isDuration : Weight → Bool
  | .finite q => decide (0 ≤ q)
  | _ => false

def parseDurationSecsF64 (env : DotEnv) (text : String) : Option Weight :=
  let s := trim text.toList
  let parsed :=
    match (stripSuffix 's' s).bind (stripSuffix 'm'), stripSuffix 's' s, stripSuffix 'm' s,
        stripSuffix 'h' s with
    | some n, _, _, _ => (env.parseF64 (trim n)).map (env.scaleF64 · (1 / 1000))
    | _, some n, _, _ => env.parseF64 (trim n)
    | _, _, some n, _ => (env.parseF64 (trim n)).map (env.scaleF64 · 60)
    | _, _, _, some n => (env.parseF64 (trim n)).map (env.scaleF64 · 3600)
    | _, _, _, _ => env.parseF64 s
  parsed.filter Weight.isDuration

/-- `strip_prefix`. -/
def stripStart (start text : List Char) : Option (List Char) :=
  if start <+: text then some (text.drop start.length) else none

def parseDeadlineAction (text : String) : Option DeadlineAction :=
  let s := trim text.toList
  if s = "abort".toList then some .abort
  else if s = "skip".toList then some .skip
  else if s = "escalate".toList then some .escalate
  else do
    let rest ← (stripStart "retry:".toList s).or (stripStart "retry(".toList s)
    let n ← parseUnsigned (2 ^ 32) (trim (rest.rdropWhile (· == ')')))
    if n = 0 then none else some (.retry (BitVec.ofNat 32 n))

def HandlerKind.fromStr (text : String) : Option HandlerKind :=
  if text = "codergen" then some .codergen
  else if text = "shell" then some .shell
  else if text = "shell_check" then some .shellCheck
  else if text = "gate" then some .gate
  else if text = "noop" then some .noop
  else if text = "parallel" then some .parallel
  else if text = "dynamic_parallel" then some .dynamicParallel
  else none

def HandlerKind.fromShape (text : String) : Option HandlerKind :=
  if text = "Mdiamond" then some .noop
  else if text = "Msquare" then some .noop
  else if text = "box" then some .codergen
  else if text = "hexagon" then some .gate
  else if text = "diamond" then some .gate
  else if text = "component" then some .parallel
  else if text = "parallelogram" then some .shell
  else none

/-- `FidelityMode::parse`, with its two ceilings. -/
def FidelityMode.parse (text : String) : Option FidelityMode :=
  let s := trim text.toList
  if s = "full".toList then some .full
  else if s = "compact".toList then some .compact
  else
    match stripStart "truncate:".toList s with
    | some n => (parseUnsigned (2 ^ 64) n).map (fun n => .truncate (min n 10000000))
    | none =>
        match stripStart "summary:".toList s with
        | some n => (parseUnsigned (2 ^ 64) n).map (fun n => .summary (min n 100000))
        | none => none

def parseCheckpoints (attrs : Attributes) : List MissionCheckpoint :=
  match attrs["checkpoint"]? with
  | none => []
  | some raw =>
      if trim raw.toList = [] then []
      else
        match parseBool raw with
        | some true => [{ name := "default" }]
        | some false => []
        | none => (entries ',' (trim raw.toList)).map (fun name => { name := String.ofList name })

/-- An explicit but empty list of tools denies all of them. -/
def parseTools (attrs : Attributes) : List String :=
  match attrs["tools"]? with
  | none => []
  | some text => if parseCsvList text = [] then [""] else parseCsvList text

def buildNode (env : DotEnv) (id : String) (attrs : Attributes) : PipelineNode :=
  { id
    handler := ((attrs["handler"]?.bind HandlerKind.fromStr).or
      (attrs["shape"]?.bind HandlerKind.fromShape)).getD .codergen
    prompt := attrs["prompt"]?
    label := attrs["label"]?
    model := attrs["model"]?
    contextWindow := attrs["context_window"]?.bind parseU32
    maxOutputTokens := attrs["max_output_tokens"]?.bind parseU32
    reasoningEffort := attrs["reasoning_effort"]?
    maxIterations := attrs["max_iterations"]?.bind parseU32
    tools := parseTools attrs
    goalGate := (attrs["goal_gate"]?.bind parseBool).getD false
    maxRetries := (attrs["max_retries"]?.bind parseU32).getD 0
    timeoutSecs := attrs["timeout_secs"]?.bind parseDurationSecs
    suggestedNext := attrs["suggested_next"]?
    converge := attrs["converge"]?
    workerPrompt := attrs["worker_prompt"]?
    plannerModel := attrs["planner_model"]?
    maxTasks := attrs["max_tasks"]?.bind parseU32
    humanGate := ((attrs["human_gate"]?.or attrs["requires_human"]?).bind parseBool).getD
      attrs["input_type"]?.isSome
    resolver := attrs["resolver"]?.or attrs["gate_resolver"]?
    artifactRefs := ((attrs["artifact_refs"]?.or attrs["requires_artifact"]?).map
      parseCsvList).getD []
    checkpointRefs := ((attrs["checkpoint_refs"]?.or attrs["requires_checkpoint"]?).map
      parseCsvList).getD []
    deadlineSecs := attrs["deadline_secs"]?.bind (parseDurationSecsF64 env)
    deadlineAction := attrs["deadline_action"]?.bind parseDeadlineAction
    continueOnError := (attrs["continue_on_error"]?.bind parseBool).getD false
    checkpoints := parseCheckpoints attrs }

def buildEdge (env : DotEnv) (attrs : Attributes) (source target : String) : PipelineEdge :=
  { source
    target
    label := attrs["label"]?
    condition := attrs["condition"]?
    weight := (attrs["weight"]?.bind (fun text => env.parseF64 text.toList)).getD (.finite 1) }

/-- A value that stands overwrites, also with nothing where it does not parse. -/
def applyGraphAttrs (attrs : Attributes) (graph : PipelineGraph) : PipelineGraph :=
  { graph with
    label := attrs["label"]?.or graph.label
    defaultModel := attrs["default_model"]?.or graph.defaultModel
    maxTotalTokens := attrs["max_total_tokens"]?.elim graph.maxTotalTokens parseU32
    defaultTimeoutSecs := attrs["default_timeout_secs"]?.elim graph.defaultTimeoutSecs
      parseDurationSecs
    resultFidelity := attrs["result_fidelity"]?.elim graph.resultFidelity FidelityMode.parse }

/-! ## Statements -/

def declareNode (env : DotEnv) (id : String) (attrs : Attributes) (graph : PipelineGraph) :
    PipelineGraph :=
  { graph with nodes := graph.nodes.insert id (buildNode env id attrs) }

/-- The nodes of a chain behind its first arrow. -/
def chainLoop (env : DotEnv) : Nat → List Char → Except DotError (List String × List Char)
  | 0, _ => .error .outOfFuel
  | fuel + 1, input => do
      let (next, rest) ← parseIdentifier env .expectedNodeAfterArrow (skipWs input)
      match skipWs rest with
      | '-' :: '>' :: rest => do
          let (ids, rest) ← chainLoop env fuel rest
          return (next :: ids, rest)
      | rest => return ([next], rest)

/-- One edge for each arrow. -/
def chainEdges (env : DotEnv) (attrs : Attributes) : String → List String → List PipelineEdge
  | _, [] => []
  | first, next :: ids => buildEdge env attrs first next :: chainEdges env attrs next ids

/-- From behind the first arrow; the ids of the chain are answered too. -/
def parseEdgeChain (env : DotEnv) (size : Nat) (graph : PipelineGraph) (first : String)
    (input : List Char) : Except DotError (PipelineGraph × List String × List Char) := do
  let (ids, rest) ← chainLoop env (input.length + 1) input
  let (attrs, rest) ← parseAttributes env size (skipWs rest)
  return ({ graph with edges := graph.edges ++ chainEdges env attrs first ids }, first :: ids, rest)

/-- Members are listed once. -/
def addMembers (members ids : List String) : List String :=
  ids.foldl (fun members id => if id ∈ members then members else members ++ [id]) members

/-- A subgraph that is being read. -/
structure OpenSubgraph where
  graph : PipelineGraph
  label : Option String
  members : List String

/-- One statement of a subgraph, from its first character on. -/
def subgraphStatement (env : DotEnv) (size : Nat) (s : OpenSubgraph) (input : List Char) :
    Except DotError (OpenSubgraph × List Char) :=
  match tryKeyword env "graph" input with
  | some rest => do
      let (attrs, rest) ← parseAttributes env size (skipWs rest)
      return ({ s with label := attrs["label"]?.or s.label }, skipOptionalSemicolon rest)
  | none => do
      let (first, rest) ← parseIdentifier env .expectedNodeInSubgraph input
      match skipWs rest with
      | '-' :: '>' :: rest => do
          let (graph, chain, rest) ← parseEdgeChain env size s.graph first rest
          return ({ s with graph, members := addMembers s.members chain },
            skipOptionalSemicolon rest)
      | rest => do
          let (attrs, rest) ← parseAttributes env size rest
          return ({ s with
            graph := declareNode env first attrs s.graph
            members := addMembers s.members [first] }, skipOptionalSemicolon rest)

def subgraphLoop (env : DotEnv) (size : Nat) (id : String) :
    Nat → List Char → OpenSubgraph → Except DotError (PipelineGraph × List Char)
  | 0, _, _ => .error .outOfFuel
  | fuel + 1, input, s =>
      match skipWs input with
      | [] => .error (.eofInSubgraph id)
      | '}' :: rest =>
          .ok ({ s.graph with
            subgraphs := s.graph.subgraphs ++ [{ id, label := s.label, nodeIds := s.members }] },
            rest)
      | rest => do
          let (s, rest) ← subgraphStatement env size s rest
          subgraphLoop env size id fuel rest s

def parseSubgraph (env : DotEnv) (size : Nat) (graph : PipelineGraph) (input : List Char) :
    Except DotError (PipelineGraph × List Char) := do
  let (id, rest) ← parseIdentifier env .expectedSubgraphName (skipWs input)
  let rest ← expectChar '{' .expectedSubgraphBrace (skipWs rest)
  subgraphLoop env size id (rest.length + 1) rest { graph, label := none, members := [] }

/-- A bare graph attribute is read and left out. -/
def skipBareValue (env : DotEnv) : List Char → Except DotError (List Char)
  | '"' :: rest => do
      let (_, rest) ← parseQuotedString rest
      return rest
  | input =>
      match parseIdentifier env .expectedNode input with
      | .ok (_, rest) => .ok rest
      | .error _ => .ok input

/-- From the first character of a statement on. -/
def parseStatement (env : DotEnv) (size : Nat) (graph : PipelineGraph) (input : List Char) :
    Except DotError (PipelineGraph × List Char) :=
  match tryKeyword env "graph" input with
  | some rest => do
      let (attrs, rest) ← parseAttributes env size (skipWs rest)
      return (applyGraphAttrs attrs graph, skipOptionalSemicolon rest)
  | none =>
      match tryKeyword env "subgraph" input with
      | some rest => do
          let (graph, rest) ← parseSubgraph env size graph rest
          return (graph, skipOptionalSemicolon rest)
      | none => do
          let (first, rest) ← parseIdentifier env .expectedNode input
          match skipWs rest with
          | '-' :: '>' :: rest => do
              let (graph, _, rest) ← parseEdgeChain env size graph first rest
              return (graph, skipOptionalSemicolon rest)
          | '=' :: rest => do
              let rest ← skipBareValue env (skipWs rest)
              return (graph, skipOptionalSemicolon rest)
          | rest => do
              let (attrs, rest) ← parseAttributes env size rest
              return (declareNode env first attrs graph, skipOptionalSemicolon rest)

def statementLoop (env : DotEnv) (size : Nat) :
    Nat → List Char → PipelineGraph → Except DotError PipelineGraph
  | 0, _, _ => .error .outOfFuel
  | fuel + 1, input, graph =>
      match skipWs input with
      | [] => .error .unexpectedEof
      | '}' :: _ => .ok graph
      | rest => do
          let (graph, rest) ← parseStatement env size graph rest
          statementLoop env size fuel rest graph

/-! ## The graph -/

/-- `MAX_GRAPH_ID_BYTES`. -/
def maxGraphIdBytes : Nat := 128

/-- The last boundary at or before an offset. -/
def lastBoundary (text : List Char) : Nat → Nat
  | 0 => 0
  | n + 1 => if isCharBoundary text (n + 1) then n + 1 else lastBoundary text n

def boundGraphId (id : String) : String :=
  if utf8Length id.toList ≤ maxGraphIdBytes then id
  else String.ofList (takeBytes id.toList (lastBoundary id.toList maxGraphIdBytes))

/-- A node for an id that has none yet. -/
def ensureNode (nodes : Table String PipelineNode) (id : String) : Table String PipelineNode :=
  if nodes[id]?.isSome then nodes else nodes.insert id { id }

/-- Nodes for all ends of edges. -/
def ensureEndpoints (graph : PipelineGraph) : PipelineGraph :=
  { graph with
    nodes := graph.edges.foldl (fun nodes e => ensureNode (ensureNode nodes e.source) e.target)
      graph.nodes }

/-- The name may be left out. -/
def parseGraphName (env : DotEnv) : List Char → Except DotError (String × List Char)
  | '{' :: rest => .ok ("pipeline", '{' :: rest)
  | input => parseIdentifier env .expectedGraphName input

/-- The name of the graph, and what follows its opening brace. -/
def parseHeader (env : DotEnv) (input : List Char) : Except DotError (String × List Char) :=
  match tryKeyword env "digraph" (skipWs input) with
  | none => .error .expectedDigraph
  | some rest => do
      let (name, rest) ← parseGraphName env (skipWs rest)
      let rest ← expectChar '{' .expectedBrace (skipWs rest)
      return (name, rest)

def emptyGraph (id : String) : PipelineGraph :=
  { id, maxTotalTokens := none, nodes := ∅, edges := [] }

def parseDot (env : DotEnv) (input : String) : Except DotError PipelineGraph := do
  let size := utf8Length input.toList
  let (name, rest) ← parseHeader env input.toList
  let graph ← statementLoop env size (rest.length + 1) rest (emptyGraph (boundGraphId name))
  return ensureEndpoints graph

end Octos.Pipeline
