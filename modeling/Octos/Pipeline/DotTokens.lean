/-
# `Octos.Pipeline.DotTokens` — the tokens of a document, and a machine over them

The parser has no tokenizer: it reads words, symbols and strings out of the text as
it goes.  Here is what it would read if it had one.  A `DotToken` is a word, an
arrow, a symbol or a quoted string; `DotState.step` takes one token at a time and
builds the graph, with a state for each place in `parse_dot` where a token is looked
at.

    digraph  name  brace                   digraph G {
    statement  ended                       ..  ;
    identifier  arrow  chain               a -> b -> c
    optional  attributes  key  value       [k = v, ..]
    subgraphName  subgraphBrace            subgraph s {

Where the source looks at a token and leaves it for what follows, the step is that
of the later state.  Between tokens there is a `Gap` of white space and comments,
which `skip_ws` goes over.
-/
import Octos.Pipeline.DotText

namespace Octos.Pipeline

open Text

variable {env : DotEnv} {rest : List Char}

/-! ## Tokens -/

inductive DotToken
  | word (id : String)
  | arrow
  | sym (ch : Char)
  /-- With what stands between the quotes. -/
  | quoted (body : List Char)
  deriving DecidableEq

def DotToken.text : DotToken → List Char
  | .word id => id.toList
  | .arrow => ['-', '>']
  | .sym ch => [ch]
  | .quoted body => '"' :: (body ++ ['"'])

/-- What can stand between quotes. -/
inductive QuotedBody : List Char → Prop
  | nil : QuotedBody []
  | plain {ch : Char} {body : List Char} (hquote : ch ≠ '"') (hback : ch ≠ '\\') (h : QuotedBody body) :
      QuotedBody (ch :: body)
  | escape (ch : Char) {body : List Char} (h : QuotedBody body) : QuotedBody ('\\' :: ch :: body)

/-- An unknown escape keeps its backslash. -/
def unescape : Char → List Char
  | 'n' => ['\n']
  | 't' => ['\t']
  | '\\' => ['\\']
  | '"' => ['"']
  | ch => ['\\', ch]

/-- What a quoted string says. -/
def unquote : List Char → List Char
  | '\\' :: ch :: body => unescape ch ++ unquote body
  | ch :: body => ch :: unquote body
  | [] => []

/-- A quoted string is read to its closing quote. -/
theorem parseQuotedString_body {body : List Char} (h : QuotedBody body) :
    parseQuotedString (body ++ '"' :: rest) = .ok (unquote body, rest) := by
  induction h with
  | nil => rfl
  | @plain ch body hquote hback h ih =>
      have hplain : unquote (ch :: body) = ch :: unquote body := by
        rw [unquote]
        exact fun _ _ hch _ => hback hch
      rw [List.cons_append, parseQuotedString_plain hback hquote, ih, hplain]
      rfl
  | @escape ch body h ih =>
      show parseQuotedString ('\\' :: ch :: (body ++ '"' :: rest)) = .ok (unescape ch ++ unquote body, rest)
      rw [parseQuotedString, ih, ok_bind]
      dsimp only
      split
      · rfl
      · rfl
      · rfl
      · rfl
      · rw [unescape]
        · rfl
        all_goals assumption

/-! ## Gaps -/

/-- A blank or a comment. -/
inductive Piece : List Char → Prop
  | blank {ch : Char} (h : isWhitespace ch = true) : Piece [ch]
  | hash {body : List Char} (h : '\n' ∉ body) : Piece ('#' :: (body ++ ['\n']))
  | slashes {body : List Char} (h : '\n' ∉ body) : Piece ('/' :: '/' :: (body ++ ['\n']))
  | block {body : List Char} (h : ¬['*', '/'] <:+: body) : Piece ('/' :: '*' :: (body ++ ['*', '/']))

inductive Gap : List Char → Prop
  | nil : Gap []
  | cons {piece g : List Char} (hp : Piece piece) (hg : Gap g) : Gap (piece ++ g)

/-- What may stand behind the last token: a line comment may end with the text. -/
inductive LastGap : List Char → Prop
  | closed {g : List Char} (hg : Gap g) : LastGap g
  | hash {g body : List Char} (hg : Gap g) (h : '\n' ∉ body) : LastGap (g ++ '#' :: body)
  | slashes {g body : List Char} (hg : Gap g) (h : '\n' ∉ body) : LastGap (g ++ '/' :: '/' :: body)

theorem skip_line {body : List Char} (h : '\n' ∉ body) (rest : List Char) :
    skip .line (body ++ '\n' :: rest) = skipWs rest := by
  induction body with
  | nil => exact if_pos rfl
  | cons ch body ih =>
      rw [List.mem_cons, not_or] at h
      show (if ch = '\n' then _ else skip .line (body ++ '\n' :: rest)) = _
      rw [if_neg (Ne.symm h.1), ih h.2]

theorem skip_line_end {body : List Char} (h : '\n' ∉ body) : skip .line body = [] := by
  induction body with
  | nil => rfl
  | cons ch body ih =>
      rw [List.mem_cons, not_or] at h
      show (if ch = '\n' then _ else skip .line body) = _
      rw [if_neg (Ne.symm h.1), ih h.2]

theorem skip_block {body : List Char} (h : ¬['*', '/'] <:+: body) (rest : List Char) :
    skip .block (body ++ '*' :: '/' :: rest) = skipWs rest := by
  induction body with
  | nil => rfl
  | cons ch body ih =>
      have hnext : ¬(ch = '*' ∧ (body ++ '*' :: '/' :: rest).head? = some '/') := by
        rintro ⟨rfl, hhead⟩
        cases body with
        | nil => cases hhead
        | cons ch' body =>
            obtain rfl := Option.some.inj hhead
            exact h ⟨[], body, rfl⟩
      show (if ch = '*' ∧ (body ++ '*' :: '/' :: rest).head? = some '/' then _
        else skip .block (body ++ '*' :: '/' :: rest)) = _
      rw [if_neg hnext]
      exact ih fun hin => h (hin.trans (List.suffix_cons ch body).isInfix)

theorem skipWs_piece {piece : List Char} (h : Piece piece) (rest : List Char) :
    skipWs (piece ++ rest) = skipWs rest := by
  cases h with
  | blank h => exact skipWs_blank h
  | @hash body h =>
      show skip .line (body ++ ['\n'] ++ rest) = _
      rw [List.append_assoc]
      exact skip_line h rest
  | @slashes body h =>
      show skip .line ('/' :: (body ++ ['\n']) ++ rest) = _
      rw [List.cons_append, List.append_assoc]
      exact @skip_line ('/' :: body) (by simp [h]) rest
  | @block body h =>
      show skip .block (body ++ ['*', '/'] ++ rest) = _
      rw [List.append_assoc]
      exact skip_block h rest

/-- `skip_ws` goes over a gap. -/
theorem skipWs_gap {g : List Char} (h : Gap g) (rest : List Char) : skipWs (g ++ rest) = skipWs rest := by
  induction h with
  | nil => rfl
  | cons hp hg ih => rw [List.append_assoc, skipWs_piece hp, ih]

theorem skipWs_lastGap {g : List Char} (h : LastGap g) : skipWs g = [] := by
  cases h with
  | closed hg =>
      have hskip := skipWs_gap hg []
      rwa [List.append_nil] at hskip
  | hash hg h =>
      rw [skipWs_gap hg]
      exact skip_line_end h
  | @slashes g body hg h =>
      rw [skipWs_gap hg]
      exact @skip_line_end ('/' :: body) (by simp [h])

/-! ## The machine -/

/-- Where statements stand, with what is built so far. -/
inductive Scope
  | top (graph : PipelineGraph)
  | inside (id : String) (s : OpenSubgraph)

/-- What an attribute list belongs to. -/
inductive AttrOwner
  | graph
  | node (first : String)
  | chain (first : String) (ids : List String)

/-- What a statement with its attributes does to a scope. -/
def Scope.finish (env : DotEnv) (owner : AttrOwner) (attrs : Attributes) : Scope → Scope
  | .top g =>
      match owner with
      | .graph => .top (applyGraphAttrs attrs g)
      | .node first => .top (declareNode env first attrs g)
      | .chain first ids => .top { g with edges := g.edges ++ chainEdges env attrs first ids }
  | .inside id s =>
      match owner with
      | .graph => .inside id { s with label := attrs["label"]?.or s.label }
      | .node first =>
          .inside id { s with
            graph := declareNode env first attrs s.graph
            members := addMembers s.members [first] }
      | .chain first ids =>
          .inside id { s with
            graph := { s.graph with edges := s.graph.edges ++ chainEdges env attrs first ids }
            members := addMembers s.members (first :: ids) }

/-- What is expected next. -/
inductive DotState
  | digraph
  | name
  | brace (name : String)
  | statement (sc : Scope)
  /-- Behind a statement: a semicolon may follow. -/
  | ended (sc : Scope)
  /-- An attribute list may follow. -/
  | optional (sc : Scope) (owner : AttrOwner)
  | identifier (sc : Scope) (first : String)
  /-- Behind `id =`. -/
  | assigned (graph : PipelineGraph)
  | arrow (sc : Scope) (first : String) (ids : List String)
  | chain (sc : Scope) (first : String) (ids : List String)
  | subgraphName (graph : PipelineGraph)
  | subgraphBrace (graph : PipelineGraph) (id : String)
  | attributes (sc : Scope) (owner : AttrOwner) (attrs : Attributes)
  | key (sc : Scope) (owner : AttrOwner) (attrs : Attributes) (key : String)
  | value (sc : Scope) (owner : AttrOwner) (attrs : Attributes) (key : String)
  | done (graph : PipelineGraph)
  | failed

namespace DotState

def stepStatement : Scope → DotToken → DotState
  | .top g, .word id =>
      if id = "graph" then optional (.top g) .graph
      else if id = "subgraph" then subgraphName g
      else identifier (.top g) id
  | .top g, .sym '}' => done g
  | .inside id s, .word first =>
      if first = "graph" then optional (.inside id s) .graph else identifier (.inside id s) first
  | .inside id s, .sym '}' =>
      ended (.top { s.graph with
        subgraphs := s.graph.subgraphs ++ [{ id, label := s.label, nodeIds := s.members }] })
  | _, _ => failed

def stepEnded (sc : Scope) : DotToken → DotState
  | .sym ';' => statement sc
  | t => stepStatement sc t

def stepOptional (env : DotEnv) (sc : Scope) (owner : AttrOwner) : DotToken → DotState
  | .sym '[' => attributes sc owner ∅
  | t => stepEnded (sc.finish env owner ∅) t

def step (env : DotEnv) : DotState → DotToken → DotState
  | digraph, .word id => if id = "digraph" then name else failed
  | name, .word id => brace id
  | name, .sym '{' => statement (.top (emptyGraph (boundGraphId "pipeline")))
  | brace id, .sym '{' => statement (.top (emptyGraph (boundGraphId id)))
  | statement sc, t => stepStatement sc t
  | ended sc, t => stepEnded sc t
  | optional sc owner, t => stepOptional env sc owner t
  | identifier sc first, .arrow => arrow sc first []
  | identifier (.top g) _, .sym '=' => assigned g
  | identifier sc first, t => stepOptional env sc (.node first) t
  | assigned g, .word _ => ended (.top g)
  | assigned g, .quoted _ => ended (.top g)
  | assigned g, t => stepEnded (.top g) t
  | arrow sc first ids, .word id => chain sc first (ids ++ [id])
  | chain sc first ids, .arrow => arrow sc first ids
  | chain sc first ids, t => stepOptional env sc (.chain first ids) t
  | subgraphName g, .word id => subgraphBrace g id
  | subgraphBrace g id, .sym '{' => statement (.inside id { graph := g, label := none, members := [] })
  | attributes sc owner attrs, .sym ']' => ended (sc.finish env owner attrs)
  | attributes sc owner attrs, .sym ',' => attributes sc owner attrs
  | attributes sc owner attrs, .sym ';' => attributes sc owner attrs
  | attributes sc owner attrs, .word k => key sc owner attrs k
  | key sc owner attrs k, .sym '=' => value sc owner attrs k
  | value sc owner attrs k, .word v => attributes sc owner (attrs.insert k v)
  | value sc owner attrs k, .quoted body => attributes sc owner (attrs.insert k (String.ofList (unquote body)))
  | done g, _ => done g
  | _, _ => failed

def run (env : DotEnv) (st : DotState) (ts : List DotToken) : DotState :=
  ts.foldl (step env) st

/-- The graph, if the document is complete. -/
def accepted : DotState → Option PipelineGraph
  | done g => some (ensureEndpoints g)
  | _ => none

/-- Nothing more is looked at. -/
def stopped : DotState → Bool
  | done _ | failed => true
  | _ => false

/-- Behind an identifier, where `->` is looked for. -/
def takesArrow : DotState → Bool
  | identifier _ _ | chain _ _ _ => true
  | _ => false

/-- Where an attribute value is read. -/
def isValue : DotState → Bool
  | value _ _ _ _ => true
  | _ => false

theorem run_failed (ts : List DotToken) : run env failed ts = failed := by
  induction ts with
  | nil => rfl
  | cons t ts ih => exact ih

theorem run_done (g : PipelineGraph) (ts : List DotToken) : run env (done g) ts = done g := by
  induction ts with
  | nil => rfl
  | cons t ts ih => exact ih

theorem run_append (st : DotState) (ts us : List DotToken) : run env st (ts ++ us) = run env (run env st ts) us :=
  List.foldl_append

end DotState

end Octos.Pipeline
