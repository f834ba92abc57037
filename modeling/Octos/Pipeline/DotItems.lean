/-
# `Octos.Pipeline.DotItems` — the statements of a document

The parser builds the graph while it reads.  Here reading and building are taken
apart: `readDoc` answers the statements of a document as they stand, an `Item`
each, and `Item.apply` is what a statement does to the graph.  `parseDot_items`
says that the two together are the parser, errors included.

What one statement does to another is then a matter of lists.
-/
import Octos.Pipeline.Dot

namespace Octos.Pipeline

open Text

variable {env : DotEnv} {size : Nat} {input : List Char} {graph : PipelineGraph}

/-! ## Reading -/

/-- A statement inside a subgraph. -/
inductive Member
  | graphAttrs (attrs : Attributes)
  | chain (first : String) (ids : List String) (attrs : Attributes)
  /-- Without an attribute list it is a bare mention. -/
  | node (id : String) (attrs : Option Attributes)

/-- A statement of a document. -/
inductive Item
  | graphAttrs (attrs : Attributes)
  | subgraph (id : String) (members : List Member)
  | chain (first : String) (ids : List String) (attrs : Attributes)
  /-- `id = value`, which is left out. -/
  | bare
  | node (id : String) (attrs : Option Attributes)

/-- `parseAttributes`, where no list and an empty one are told apart. -/
def readAttributes (env : DotEnv) (size : Nat) :
    List Char → Except DotError (Option Attributes × List Char)
  | '[' :: rest => do
      let (attrs, rest) ← attributeLoop env size (rest.length + 1) rest ∅
      return (some attrs, rest)
  | input => .ok (none, input)

/-- The ids behind the first arrow, and the attributes of all edges of the chain. -/
def readChain (env : DotEnv) (size : Nat) (input : List Char) :
    Except DotError (List String × Attributes × List Char) := do
  let (ids, rest) ← chainLoop env (input.length + 1) input
  let (attrs, rest) ← readAttributes env size (skipWs rest)
  return (ids, attrs.getD ∅, rest)

def readMember (env : DotEnv) (size : Nat) (input : List Char) :
    Except DotError (Member × List Char) :=
  match tryKeyword env "graph" input with
  | some rest => do
      let (attrs, rest) ← readAttributes env size (skipWs rest)
      return (.graphAttrs (attrs.getD ∅), skipOptionalSemicolon rest)
  | none => do
      let (first, rest) ← parseIdentifier env .expectedNodeInSubgraph input
      match skipWs rest with
      | '-' :: '>' :: rest => do
          let (ids, attrs, rest) ← readChain env size rest
          return (.chain first ids attrs, skipOptionalSemicolon rest)
      | rest => do
          let (attrs, rest) ← readAttributes env size rest
          return (.node first attrs, skipOptionalSemicolon rest)

def readMembers (env : DotEnv) (size : Nat) (id : String) :
    Nat → List Char → Except DotError (List Member × List Char)
  | 0, _ => .error .outOfFuel
  | fuel + 1, input =>
      match skipWs input with
      | [] => .error (.eofInSubgraph id)
      | '}' :: rest => .ok ([], rest)
      | rest => do
          let (m, rest) ← readMember env size rest
          let (ms, rest) ← readMembers env size id fuel rest
          return (m :: ms, rest)

def readSubgraph (env : DotEnv) (size : Nat) (input : List Char) :
    Except DotError (Item × List Char) := do
  let (id, rest) ← parseIdentifier env .expectedSubgraphName (skipWs input)
  let rest ← expectChar '{' .expectedSubgraphBrace (skipWs rest)
  let (members, rest) ← readMembers env size id (rest.length + 1) rest
  return (.subgraph id members, rest)

def readItem (env : DotEnv) (size : Nat) (input : List Char) : Except DotError (Item × List Char) :=
  match tryKeyword env "graph" input with
  | some rest => do
      let (attrs, rest) ← readAttributes env size (skipWs rest)
      return (.graphAttrs (attrs.getD ∅), skipOptionalSemicolon rest)
  | none =>
      match tryKeyword env "subgraph" input with
      | some rest => do
          let (item, rest) ← readSubgraph env size rest
          return (item, skipOptionalSemicolon rest)
      | none => do
          let (first, rest) ← parseIdentifier env .expectedNode input
          match skipWs rest with
          | '-' :: '>' :: rest => do
              let (ids, attrs, rest) ← readChain env size rest
              return (.chain first ids attrs, skipOptionalSemicolon rest)
          | '=' :: rest => do
              let rest ← skipBareValue env (skipWs rest)
              return (.bare, skipOptionalSemicolon rest)
          | rest => do
              let (attrs, rest) ← readAttributes env size rest
              return (.node first attrs, skipOptionalSemicolon rest)

def readItems (env : DotEnv) (size : Nat) : Nat → List Char → Except DotError (List Item)
  | 0, _ => .error .outOfFuel
  | fuel + 1, input =>
      match skipWs input with
      | [] => .error .unexpectedEof
      | '}' :: _ => .ok []
      | rest => do
          let (item, rest) ← readItem env size rest
          let items ← readItems env size fuel rest
          return item :: items

/-- The name of a document and its statements. -/
def readDoc (env : DotEnv) (input : String) : Except DotError (String × List Item) := do
  let (name, rest) ← parseHeader env input.toList
  let items ← readItems env (utf8Length input.toList) (rest.length + 1) rest
  return (name, items)

/-! ## Building -/

/-- What a statement of a subgraph does. -/
def Member.apply (env : DotEnv) (s : OpenSubgraph) : Member → OpenSubgraph
  | .graphAttrs attrs => { s with label := attrs["label"]?.or s.label }
  | .chain first ids attrs =>
      { s with
        graph := { s.graph with edges := s.graph.edges ++ chainEdges env attrs first ids }
        members := addMembers s.members (first :: ids) }
  | .node id attrs =>
      { s with
        graph := declareNode env id (attrs.getD ∅) s.graph
        members := addMembers s.members [id] }

/-- The subgraph is listed when it closes. -/
def OpenSubgraph.close (s : OpenSubgraph) (id : String) : PipelineGraph :=
  { s.graph with
    subgraphs := s.graph.subgraphs ++ [{ id, label := s.label, nodeIds := s.members }] }

/-- What a statement does. -/
def Item.apply (env : DotEnv) (graph : PipelineGraph) : Item → PipelineGraph
  | .graphAttrs attrs => applyGraphAttrs attrs graph
  | .subgraph id members =>
      (members.foldl (Member.apply env) { graph, label := none, members := [] }).close id
  | .chain first ids attrs => { graph with edges := graph.edges ++ chainEdges env attrs first ids }
  | .bare => graph
  | .node id attrs => declareNode env id (attrs.getD ∅) graph

/-- The graph of a document. -/
def graphOf (env : DotEnv) (doc : String × List Item) : PipelineGraph :=
  ensureEndpoints (doc.2.foldl (Item.apply env) (emptyGraph (boundGraphId doc.1)))

/-! ## The parser is both -/

/-- What the loops look at: the end of the text, a closing brace, or a statement. -/
theorem atClose_cases (input : List Char) :
    input = [] ∨ (∃ rest, input = '}' :: rest) ∨
      (input = [] → False) ∧ ∀ rest, input = '}' :: rest → False := by
  by_cases hend : input = []
  · exact .inl hend
  · by_cases hclose : ∃ rest, input = '}' :: rest
    · exact .inr (.inl hclose)
    · exact .inr (.inr ⟨hend, fun rest h => hclose ⟨rest, h⟩⟩)

/-- What a statement looks at behind its first id. -/
theorem atArrow_cases (input : List Char) :
    (∃ rest, input = '-' :: '>' :: rest) ∨ (∃ rest, input = '=' :: rest) ∨
      (∀ rest, input = '-' :: '>' :: rest → False) ∧ ∀ rest, input = '=' :: rest → False := by
  by_cases harrow : ∃ rest, input = '-' :: '>' :: rest
  · exact .inl harrow
  · by_cases hequals : ∃ rest, input = '=' :: rest
    · exact .inr (.inl hequals)
    · exact .inr (.inr ⟨fun rest h => harrow ⟨rest, h⟩, fun rest h => hequals ⟨rest, h⟩⟩)

theorem parseAttributes_read :
    parseAttributes env size input = (readAttributes env size input).map (fun r => (r.1.getD ∅, r.2)) := by
  unfold parseAttributes
  split
  · next rest =>
      show _ = Except.map _ (attributeLoop env size (rest.length + 1) rest ∅ >>= _)
      cases attributeLoop env size (rest.length + 1) rest ∅ <;> rfl
  · next hne =>
      have hnone : readAttributes env size input = .ok (none, input) := by
        unfold readAttributes
        split
        · next rest => exact (hne rest rfl).elim
        · rfl
      rw [hnone]
      rfl

theorem parseEdgeChain_read {first : String} :
    parseEdgeChain env size graph first input = (readChain env size input).map (fun r =>
      ({ graph with edges := graph.edges ++ chainEdges env r.2.1 first r.1 }, first :: r.1, r.2.2)) := by
  unfold parseEdgeChain readChain
  cases chainLoop env (input.length + 1) input with
  | error e => rfl
  | ok out =>
      simp only [ok_bind, parseAttributes_read]
      cases readAttributes env size (skipWs out.2) <;> rfl

theorem subgraphStatement_read {s : OpenSubgraph} :
    subgraphStatement env size s input =
      (readMember env size input).map (fun r => (r.1.apply env s, r.2)) := by
  unfold subgraphStatement readMember
  cases tryKeyword env "graph" input with
  | some rest =>
      simp only [parseAttributes_read]
      cases readAttributes env size (skipWs rest) <;> rfl
  | none =>
      cases parseIdentifier env .expectedNodeInSubgraph input with
      | error e => rfl
      | ok out =>
          obtain ⟨first, rest⟩ := out
          simp only [ok_bind, parseAttributes_read, parseEdgeChain_read]
          by_cases harrow : ∃ more, skipWs rest = '-' :: '>' :: more
          · obtain ⟨more, harrow⟩ := harrow
            simp only [harrow]
            cases readChain env size more <;> rfl
          · have hne : ∀ more, skipWs rest = '-' :: '>' :: more → False :=
              fun more h => harrow ⟨more, h⟩
            -- `hne` rules the arrow out
            simp only
            cases readAttributes env size (skipWs rest) <;> rfl

theorem subgraphLoop_read {id : String} : ∀ {fuel : Nat} {input : List Char} {s : OpenSubgraph},
    subgraphLoop env size id fuel input s = (readMembers env size id fuel input).map (fun r =>
      ((r.1.foldl (Member.apply env) s).close id, r.2)) := by
  intro fuel
  induction fuel with
  | zero => exact rfl
  | succ fuel ih =>
      intro input s
      unfold subgraphLoop readMembers
      rcases atClose_cases (skipWs input) with hend | ⟨more, hclose⟩ | ⟨hend, hclose⟩
      · simp only [hend]
        rfl
      · simp only [hclose]
        rfl
      · simp only [subgraphStatement_read]
        cases readMember env size (skipWs input) with
        | error e => rfl
        | ok out =>
            show subgraphLoop env size id fuel out.2 (out.1.apply env s) =
              Except.map _ (readMembers env size id fuel out.2 >>= _)
            rw [ih]
            cases readMembers env size id fuel out.2 <;> rfl

theorem parseSubgraph_read :
    parseSubgraph env size graph input =
      (readSubgraph env size input).map (fun r => (r.1.apply env graph, r.2)) := by
  unfold parseSubgraph readSubgraph
  cases parseIdentifier env .expectedSubgraphName (skipWs input) with
  | error e => rfl
  | ok out =>
      simp only [ok_bind]
      cases expectChar '{' .expectedSubgraphBrace (skipWs out.2) with
      | error e => rfl
      | ok rest =>
          simp only [ok_bind, subgraphLoop_read]
          cases readMembers env size out.1 (rest.length + 1) rest <;> rfl

theorem parseStatement_read :
    parseStatement env size graph input =
      (readItem env size input).map (fun r => (r.1.apply env graph, r.2)) := by
  unfold parseStatement readItem
  cases tryKeyword env "graph" input with
  | some rest =>
      simp only [parseAttributes_read]
      cases readAttributes env size (skipWs rest) <;> rfl
  | none =>
      cases tryKeyword env "subgraph" input with
      | some rest =>
          simp only [parseSubgraph_read]
          cases readSubgraph env size rest <;> rfl
      | none =>
          cases parseIdentifier env .expectedNode input with
          | error e => rfl
          | ok out =>
              obtain ⟨first, rest⟩ := out
              simp only [ok_bind, parseAttributes_read, parseEdgeChain_read]
              rcases atArrow_cases (skipWs rest) with ⟨more, harrow⟩ | ⟨more, hequals⟩ | ⟨harrow, hequals⟩
              · simp only [harrow]
                cases readChain env size more <;> rfl
              · simp only [hequals]
                cases skipBareValue env (skipWs more) <;> rfl
              · simp only
                cases readAttributes env size (skipWs rest) <;> rfl

theorem statementLoop_read : ∀ {fuel : Nat} {input : List Char} {graph : PipelineGraph},
    statementLoop env size fuel input graph =
      (readItems env size fuel input).map (fun items => items.foldl (Item.apply env) graph) := by
  intro fuel
  induction fuel with
  | zero => exact rfl
  | succ fuel ih =>
      intro input graph
      unfold statementLoop readItems
      rcases atClose_cases (skipWs input) with hend | ⟨more, hclose⟩ | ⟨hend, hclose⟩
      · simp only [hend]
        rfl
      · simp only [hclose]
        rfl
      · simp only [parseStatement_read]
        cases readItem env size (skipWs input) with
        | error e => rfl
        | ok out =>
            show statementLoop env size fuel out.2 (out.1.apply env graph) =
              Except.map _ (readItems env size fuel out.2 >>= _)
            rw [ih]
            cases readItems env size fuel out.2 <;> rfl

/-- **The parser reads the statements and builds their graph.** -/
theorem parseDot_items (env : DotEnv) (input : String) :
    parseDot env input = (readDoc env input).map (graphOf env) := by
  unfold parseDot readDoc
  cases parseHeader env input.toList with
  | error e => rfl
  | ok out =>
      simp only [ok_bind, statementLoop_read]
      cases readItems env (utf8Length input.toList) (out.2.length + 1) out.2 <;> rfl

end Octos.Pipeline
