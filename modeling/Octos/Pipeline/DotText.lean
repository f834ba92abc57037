/-
# `Octos.Pipeline.DotText` — statements written out, and read back

A `Statement` is what the parser makes of one statement of a graph, and `text` is
one way to write it: attributes as quoted strings, one statement on a line.
Reading the text does to the graph what the statement means
(`parseStatement_text`), and a program of such statements is read in order
(`parseDot_program`).

The scanner never looks further than the next character that cannot belong to
what it reads, so each lemma has the rest of the input as a parameter.
-/
import Octos.Pipeline.Dot

namespace Octos.Pipeline

open Text

variable {env : DotEnv} {size : Nat} {rest : List Char}

/-! ## Characters -/

theorem isWord_ascii {ch : Char} (h : ch.toNat < 128) :
    env.isWord ch = (ch.isAlphanum || ch == '_' || ch == '-' || ch == '.') := by
  rw [DotEnv.isWord, env.ascii ch h]

/-- A character of an identifier starts neither white space nor a comment. -/
theorem isWord_visible {ch : Char} (h : env.isWord ch = true) :
    isWhitespace ch = false ∧ ch ≠ '/' ∧ ch ≠ '#' := by
  refine ⟨?_, ?_, ?_⟩
  · by_contra hws
    rw [Bool.not_eq_false] at hws
    rw [DotEnv.isWord, env.blank ch hws] at h
    simp only [Bool.false_or, Bool.or_eq_true, beq_iff_eq] at h
    rcases h with (rfl | rfl) | rfl
    · exact absurd hws (by decide)
    · exact absurd hws (by decide)
    · exact absurd hws (by decide)
  · rintro rfl
    rw [isWord_ascii (by decide)] at h
    exact absurd h (by decide)
  · rintro rfl
    rw [isWord_ascii (by decide)] at h
    exact absurd h (by decide)

/-! ## Skipping -/

theorem skipWs_blank {ch : Char} (h : isWhitespace ch = true) :
    skipWs (ch :: rest) = skipWs rest := by
  have hslash : ch ≠ '/' := by
    rintro rfl
    exact absurd h (by decide)
  have hhash : ch ≠ '#' := by
    rintro rfl
    exact absurd h (by decide)
  simp [skipWs, skip, hslash, hhash, h]

theorem skipWs_stop {ch : Char} (hws : isWhitespace ch = false) (hslash : ch ≠ '/')
    (hhash : ch ≠ '#') : skipWs (ch :: rest) = ch :: rest := by
  simp [skipWs, skip, hslash, hhash, hws]

/-! ## Identifiers -/

/-- A non-empty word over the identifier alphabet. -/
structure IsId (env : DotEnv) (id : String) : Prop where
  nonempty : id.toList ≠ []
  word : ∀ ch ∈ id.toList, env.isWord ch = true

/-- An id that does not look like a keyword. -/
structure IsName (env : DotEnv) (id : String) : Prop extends IsId env id where
  notGraph : id ≠ "graph"
  notSubgraph : id ≠ "subgraph"

theorem skipWs_id {id : String} (h : IsId env id) :
    skipWs (id.toList ++ rest) = id.toList ++ rest := by
  cases hid : id.toList with
  | nil => exact absurd hid h.nonempty
  | cons ch word =>
      obtain ⟨hws, hslash, hhash⟩ := isWord_visible (h.word ch (by rw [hid]; exact List.mem_cons_self))
      exact skipWs_stop hws hslash hhash

/-- What follows cannot belong to the identifier. -/
def Ends (env : DotEnv) (rest : List Char) : Prop :=
  ∀ ch ∈ rest.head?, env.isWord ch = false

theorem ends_of_ascii {ch : Char} (h : ch.toNat < 128)
    (hword : (ch.isAlphanum || ch == '_' || ch == '-' || ch == '.') = false) :
    Ends env (ch :: rest) := by
  intro other hother
  obtain rfl := Option.some.inj hother
  rw [isWord_ascii h]
  exact hword

theorem parseIdentifier_id {id : String} {e : DotError} (h : IsId env id) (hrest : Ends env rest) :
    parseIdentifier env e (id.toList ++ rest) = .ok (id, rest) := by
  have htake : (id.toList ++ rest).takeWhile env.isWord = id.toList := by
    rw [List.takeWhile_append_of_pos h.word]
    cases rest with
    | nil => simp
    | cons ch rest => rw [List.takeWhile_cons_of_neg (by simp [hrest ch rfl]), List.append_nil]
  have hdrop : (id.toList ++ rest).dropWhile env.isWord = rest := by
    rw [List.dropWhile_append_of_pos h.word]
    cases rest with
    | nil => rfl
    | cons ch rest => exact List.dropWhile_cons_of_neg (by simp [hrest ch rfl])
  rw [parseIdentifier, parseWord, htake, hdrop]
  split
  · next hnil => exact absurd hnil h.nonempty
  · rw [String.ofList_toList]

theorem tryKeyword_id {id kw : String} (h : IsId env id) (hrest : Ends env rest) :
    tryKeyword env kw (id.toList ++ rest) = if id = kw then some rest else none := by
  rw [tryKeyword, parseIdentifier_id h hrest]

theorem expectChar_same {ch : Char} {e : DotError} :
    expectChar ch e (ch :: rest) = .ok rest :=
  if_pos rfl

/-! ## Quoted strings -/

def escapeChar : Char → List Char
  | '\n' => ['\\', 'n']
  | '\t' => ['\\', 't']
  | '\\' => ['\\', '\\']
  | '"' => ['\\', '"']
  | ch => [ch]

def quoted (text : String) : List Char :=
  '"' :: (text.toList.flatMap escapeChar ++ ['"'])

theorem parseQuotedString_plain {ch : Char} (hslash : ch ≠ '\\') (hquote : ch ≠ '"') :
    parseQuotedString (ch :: rest) =
      parseQuotedString rest >>= fun r => pure (ch :: r.1, r.2) := by
  rw [parseQuotedString.eq_def]
  split
  · next h => cases h
  · next h => exact absurd (List.cons.inj h).1 hquote
  · next h => exact absurd (List.cons.inj h).1 hslash
  · next h => exact absurd (List.cons.inj h).1 hslash
  · next h =>
      obtain ⟨rfl, rfl⟩ := List.cons.inj h
      rfl

theorem parseQuotedString_escape : ∀ (text rest : List Char),
    parseQuotedString (text.flatMap escapeChar ++ '"' :: rest) = .ok (text, rest) := by
  intro text
  induction text with
  | nil => intro rest; rfl
  | cons ch text ih =>
      intro rest
      rw [List.flatMap_cons, List.append_assoc, escapeChar.eq_def]
      split
      · simp [parseQuotedString, ih, bind, Except.bind, pure, Except.pure]
      · simp [parseQuotedString, ih, bind, Except.bind, pure, Except.pure]
      · simp [parseQuotedString, ih, bind, Except.bind, pure, Except.pure]
      · simp [parseQuotedString, ih, bind, Except.bind, pure, Except.pure]
      · next hslash hquote =>
          rw [List.singleton_append, parseQuotedString_plain hslash hquote, ih]
          rfl

theorem parseValue_quoted {text : String} :
    parseValue env size (quoted text ++ rest) = .ok (text, rest) := by
  show parseValue env size ('"' :: ((text.toList.flatMap escapeChar ++ ['"']) ++ rest)) = _
  rw [parseValue, List.append_assoc]
  show (parseQuotedString (_ ++ '"' :: rest) >>= _) = _
  rw [parseQuotedString_escape]
  show Except.ok (String.ofList text.toList, rest) = _
  rw [String.ofList_toList]

/-! ## Attributes -/

def attrText (attr : String × String) : List Char :=
  attr.1.toList ++ '=' :: (quoted attr.2 ++ [',', ' '])

def attrsText (attrs : List (String × String)) : List Char :=
  '[' :: (attrs.flatMap attrText ++ [']'])

/-- The map the parser makes of a list. -/
def insertAll (table : Attributes) (attrs : List (String × String)) : Attributes :=
  attrs.foldl (fun table attr => table.insert attr.1 attr.2) table

theorem attributeLoop_blank {fuel : Nat} {table : Attributes} {ch : Char}
    (h : isWhitespace ch = true) :
    attributeLoop env size fuel (ch :: rest) table = attributeLoop env size fuel rest table := by
  cases fuel with
  | zero => rfl
  | succ fuel => rw [attributeLoop, attributeLoop, skipWs_blank h]

theorem attributeLoop_comma {fuel : Nat} {table : Attributes} :
    attributeLoop env size (fuel + 1) (',' :: rest) table =
      attributeLoop env size fuel rest table := by
  rw [attributeLoop, skipWs_stop (by decide) (by decide) (by decide)]
  rfl

theorem attributeLoop_close {fuel : Nat} {table : Attributes} :
    attributeLoop env size (fuel + 1) (']' :: rest) table = .ok (table, rest) := by
  rw [attributeLoop, skipWs_stop (by decide) (by decide) (by decide)]
  rfl

/-- One attribute. -/
theorem attributeLoop_attr {fuel : Nat} {table : Attributes} {key value : String}
    (hkey : IsId env key) :
    attributeLoop env size (fuel + 1) (key.toList ++ '=' :: (quoted value ++ rest)) table =
      attributeLoop env size fuel rest (table.insert key value) := by
  have hends : Ends env ('=' :: (quoted value ++ rest)) := ends_of_ascii (by decide) (by decide)
  have hvalue : skipWs (quoted value ++ rest) = quoted value ++ rest :=
    skipWs_stop (by decide) (by decide) (by decide)
  -- the text starts with none of the characters that the loop stops at
  have hne : ∀ (other : Char) (rest' : List Char), other.toNat < 128 →
      (other.isAlphanum || other == '_' || other == '-' || other == '.') = false →
      key.toList ++ '=' :: (quoted value ++ rest) ≠ other :: rest' := by
    intro other rest' hascii hother h
    cases hlist : key.toList with
    | nil => exact absurd hlist hkey.nonempty
    | cons ch word =>
        have hword := hkey.word ch (by rw [hlist]; exact List.mem_cons_self)
        rw [hlist] at h
        obtain rfl : ch = other := (List.cons.inj h).1
        rw [isWord_ascii hascii, hother] at hword
        cases hword
  rw [attributeLoop, skipWs_id hkey]
  split
  · next h => exact absurd (List.append_eq_nil_iff.mp h).2 (List.cons_ne_nil _ _)
  · next h => exact absurd h (hne ']' _ (by decide) (by decide))
  · next h => exact absurd h (hne ',' _ (by decide) (by decide))
  · next h => exact absurd h (hne ';' _ (by decide) (by decide))
  · rw [parseIdentifier_id hkey hends, ok_bind]
    dsimp only
    rw [skipWs_stop (by decide) (by decide) (by decide), expectChar_same, ok_bind, hvalue,
      parseValue_quoted, ok_bind]

theorem attributeLoop_text : ∀ {attrs : List (String × String)} {fuel : Nat} {table : Attributes},
    (∀ attr ∈ attrs, IsId env attr.1) → 2 * attrs.length < fuel →
    attributeLoop env size fuel (attrs.flatMap attrText ++ ']' :: rest) table =
      .ok (insertAll table attrs, rest) := by
  intro attrs
  induction attrs with
  | nil =>
      intro fuel table _ hfuel
      obtain ⟨fuel, rfl⟩ : ∃ n, fuel = n + 1 := ⟨fuel - 1, by simp at hfuel; omega⟩
      exact attributeLoop_close
  | cons attr attrs ih =>
      intro fuel table hattrs hfuel
      rw [List.length_cons] at hfuel
      obtain ⟨fuel, rfl⟩ : ∃ n, fuel = n + 1 + 1 := ⟨fuel - 2, by omega⟩
      have htext : List.flatMap attrText (attr :: attrs) ++ ']' :: rest =
          attr.1.toList ++ '=' :: (quoted attr.2 ++
            (',' :: ' ' :: (attrs.flatMap attrText ++ ']' :: rest))) := by
        simp [attrText]
      rw [htext, attributeLoop_attr (hattrs attr List.mem_cons_self), attributeLoop_comma,
        attributeLoop_blank (by decide)]
      exact ih (fun a ha => hattrs a (List.mem_cons_of_mem _ ha)) (by omega)

theorem attrs_length (attrs : List (String × String)) :
    2 * attrs.length ≤ (attrs.flatMap attrText).length := by
  induction attrs with
  | nil => simp
  | cons attr attrs ih =>
      rw [List.flatMap_cons, List.length_append, List.length_cons]
      have : 2 ≤ (attrText attr).length := by
        simp [attrText]
        omega
      omega

theorem parseAttributes_text {attrs : List (String × String)}
    (hattrs : ∀ attr ∈ attrs, IsId env attr.1) :
    parseAttributes env size (attrsText attrs ++ rest) = .ok (insertAll ∅ attrs, rest) := by
  have htext : attrsText attrs ++ rest = '[' :: (attrs.flatMap attrText ++ ']' :: rest) := by
    simp [attrsText]
  rw [htext, parseAttributes]
  refine attributeLoop_text hattrs ?_
  have := attrs_length attrs
  rw [List.length_append]
  omega

/-! ## Statements -/

inductive Statement
  | node (id : String) (attrs : List (String × String))
  | edge (source target : String) (attrs : List (String × String))
  | subgraph (id : String) (label : Option String) (members : List String)

def memberText (id : String) : List Char :=
  '\n' :: (id.toList ++ [';'])

def labelText : Option String → List Char
  | none => []
  | some label => '\n' :: ("graph".toList ++ ' ' :: (attrsText [("label", label)] ++ [';']))

namespace Statement

def text : Statement → List Char
  | .node id attrs => id.toList ++ ' ' :: (attrsText attrs ++ [';'])
  | .edge source target attrs =>
      source.toList ++ ' ' :: '-' :: '>' :: ' ' ::
        (target.toList ++ ' ' :: (attrsText attrs ++ [';']))
  | .subgraph id label members =>
      "subgraph".toList ++ ' ' :: (id.toList ++ ' ' :: '{' ::
        (labelText label ++ (members.flatMap memberText ++ ['\n', '}', ';'])))

/-- What the statement does to the graph. -/
def meaning (env : DotEnv) : Statement → PipelineGraph → PipelineGraph
  | .node id attrs, g => declareNode env id (insertAll ∅ attrs) g
  | .edge source target attrs, g =>
      { g with edges := g.edges ++ [buildEdge env (insertAll ∅ attrs) source target] }
  | .subgraph id label members, g =>
      let g := members.foldl (fun g member => declareNode env member ∅ g) g
      { g with subgraphs := g.subgraphs ++ [{ id, label, nodeIds := addMembers [] members }] }

/-- Ids are words, and no keyword stands where a statement starts. -/
def Valid (env : DotEnv) : Statement → Prop
  | .node id attrs => IsName env id ∧ ∀ attr ∈ attrs, IsId env attr.1
  | .edge source target attrs =>
      IsName env source ∧ IsId env target ∧ ∀ attr ∈ attrs, IsId env attr.1
  | .subgraph id _ members => IsId env id ∧ ∀ m ∈ members, IsName env m

end Statement

theorem skipOptionalSemicolon_semicolon : skipOptionalSemicolon (';' :: rest) = rest := by
  rw [skipOptionalSemicolon, skipWs_stop (by decide) (by decide) (by decide)]
  rfl

theorem tryKeyword_name {id : String} (h : IsName env id) (hrest : Ends env rest) :
    tryKeyword env "graph" (id.toList ++ rest) = none ∧
      tryKeyword env "subgraph" (id.toList ++ rest) = none := by
  rw [tryKeyword_id h.toIsId hrest, tryKeyword_id h.toIsId hrest, if_neg h.notGraph,
    if_neg h.notSubgraph]
  exact ⟨rfl, rfl⟩

theorem ends_blank : Ends env (' ' :: rest) :=
  ends_of_ascii (by decide) (by decide)

theorem skipWs_attrs {attrs : List (String × String)} :
    skipWs (' ' :: (attrsText attrs ++ rest)) = attrsText attrs ++ rest := by
  rw [skipWs_blank (by decide)]
  exact skipWs_stop (by decide) (by decide) (by decide)

theorem text_node {id : String} {attrs : List (String × String)} :
    (Statement.node id attrs).text ++ rest =
      id.toList ++ ' ' :: (attrsText attrs ++ ';' :: rest) := by
  show id.toList ++ ' ' :: (attrsText attrs ++ [';']) ++ rest = _
  rw [List.append_assoc, List.cons_append, List.append_assoc]
  rfl

theorem text_edge {source target : String} {attrs : List (String × String)} :
    (Statement.edge source target attrs).text ++ rest =
      source.toList ++ ' ' :: '-' :: '>' :: ' ' ::
        (target.toList ++ ' ' :: (attrsText attrs ++ ';' :: rest)) := by
  show source.toList ++ ' ' :: '-' :: '>' :: ' ' ::
    (target.toList ++ ' ' :: (attrsText attrs ++ [';'])) ++ rest = _
  rw [List.append_assoc]
  simp only [List.cons_append, List.append_assoc, List.nil_append]

theorem attrs_open {attrs : List (String × String)} :
    attrsText attrs ++ rest = '[' :: ((attrs.flatMap attrText ++ [']']) ++ rest) :=
  List.cons_append

/-- A statement that is neither a keyword's nor an edge. -/
theorem parseStatement_declares {g : PipelineGraph} {id : String} {more : List Char}
    (hid : IsName env id) (hends : Ends env rest) (hmore : skipWs rest = '[' :: more) :
    parseStatement env size g (id.toList ++ rest) =
      parseAttributes env size ('[' :: more) >>= fun r =>
        pure (declareNode env id r.1 g, skipOptionalSemicolon r.2) := by
  obtain ⟨hgraph, hsubgraph⟩ := tryKeyword_name hid hends
  rw [parseStatement, hgraph]
  dsimp only
  rw [hsubgraph]
  dsimp only
  rw [parseIdentifier_id hid.toIsId hends, ok_bind]
  dsimp only
  rw [hmore]
  rfl

theorem parseStatement_node {g : PipelineGraph} {id : String} {attrs : List (String × String)}
    (h : (Statement.node id attrs).Valid env) :
    parseStatement env size g ((Statement.node id attrs).text ++ rest) =
      .ok ((Statement.node id attrs).meaning env g, rest) := by
  obtain ⟨hid, hattrs⟩ := h
  rw [text_node, parseStatement_declares hid ends_blank (skipWs_attrs.trans attrs_open),
    ← attrs_open, parseAttributes_text hattrs, ok_bind, skipOptionalSemicolon_semicolon]
  rfl

/-! ### Edges -/

theorem parseStatement_arrow {g : PipelineGraph} {id : String} {more : List Char}
    (hid : IsName env id) (hends : Ends env rest) (hmore : skipWs rest = '-' :: '>' :: more) :
    parseStatement env size g (id.toList ++ rest) =
      parseEdgeChain env size g id more >>= fun r =>
        pure (r.1, skipOptionalSemicolon r.2.2) := by
  obtain ⟨hgraph, hsubgraph⟩ := tryKeyword_name hid hends
  rw [parseStatement, hgraph]
  dsimp only
  rw [hsubgraph]
  dsimp only
  rw [parseIdentifier_id hid.toIsId hends, ok_bind]
  dsimp only
  rw [hmore]
  rfl

theorem chainLoop_last {fuel : Nat} {target : String} {more : List Char} (h : IsId env target)
    (hends : Ends env rest) (hmore : skipWs rest = '[' :: more) :
    chainLoop env (fuel + 1) (' ' :: (target.toList ++ rest)) = .ok ([target], '[' :: more) := by
  rw [chainLoop, skipWs_blank (by decide), skipWs_id h, parseIdentifier_id h hends, ok_bind]
  dsimp only
  rw [hmore]
  rfl

theorem parseStatement_edge {g : PipelineGraph} {source target : String}
    {attrs : List (String × String)} (h : (Statement.edge source target attrs).Valid env) :
    parseStatement env size g ((Statement.edge source target attrs).text ++ rest) =
      .ok ((Statement.edge source target attrs).meaning env g, rest) := by
  obtain ⟨hsource, htarget, hattrs⟩ := h
  have harrow : ∀ more : List Char, skipWs (' ' :: '-' :: '>' :: more) = '-' :: '>' :: more := by
    intro more
    rw [skipWs_blank (by decide)]
    exact skipWs_stop (by decide) (by decide) (by decide)
  rw [text_edge, parseStatement_arrow hsource ends_blank (harrow _), parseEdgeChain,
    chainLoop_last htarget ends_blank (skipWs_attrs.trans attrs_open), ok_bind]
  dsimp only
  rw [skipWs_stop (by decide) (by decide) (by decide), ← attrs_open, parseAttributes_text hattrs,
    ok_bind]
  show Except.ok (_, skipOptionalSemicolon (';' :: rest)) = _
  rw [skipOptionalSemicolon_semicolon]
  rfl

/-! ### Subgraphs -/

/-- Words of plain letters, whatever the table says about the others. -/
theorem isId_ascii {id : String} (hne : id.toList ≠ [])
    (h : id.toList.all (fun ch => decide (ch.toNat < 128) &&
      (ch.isAlphanum || ch == '_' || ch == '-' || ch == '.')) = true) : IsId env id := by
  refine ⟨hne, ?_⟩
  intro ch hch
  have hch' := List.all_eq_true.mp h ch hch
  rw [Bool.and_eq_true, decide_eq_true_eq] at hch'
  rw [isWord_ascii hch'.1]
  exact hch'.2

theorem isId_graph : IsId env "graph" := isId_ascii (by decide) (by decide)

theorem isId_subgraph : IsId env "subgraph" := isId_ascii (by decide) (by decide)

/-- An identifier does not start with a brace. -/
theorem id_cons {id : String} (h : IsId env id) :
    ∃ ch word, id.toList = ch :: word ∧ ch ≠ '{' ∧ ch ≠ '}' := by
  cases hlist : id.toList with
  | nil => exact absurd hlist h.nonempty
  | cons ch word =>
      have hword := h.word ch (by rw [hlist]; exact List.mem_cons_self)
      refine ⟨ch, word, rfl, ?_, ?_⟩
      · rintro rfl
        rw [isWord_ascii (by decide)] at hword
        exact absurd hword (by decide)
      · rintro rfl
        rw [isWord_ascii (by decide)] at hword
        exact absurd hword (by decide)

theorem subgraphLoop_close {fuel : Nat} {sub : String} {s : OpenSubgraph} :
    subgraphLoop env size sub (fuel + 1) ('\n' :: '}' :: rest) s =
      .ok ({ s.graph with
        subgraphs := s.graph.subgraphs ++ [{ id := sub, label := s.label, nodeIds := s.members }] },
        rest) := by
  rw [subgraphLoop, skipWs_blank (by decide), skipWs_stop (by decide) (by decide) (by decide)]
  rfl

/-- A statement of a subgraph starts with an identifier. -/
theorem subgraphLoop_id {fuel : Nat} {sub id : String} {s : OpenSubgraph} (h : IsId env id) :
    subgraphLoop env size sub (fuel + 1) ('\n' :: (id.toList ++ rest)) s =
      subgraphStatement env size s (id.toList ++ rest) >>= fun r =>
        subgraphLoop env size sub fuel r.2 r.1 := by
  rw [subgraphLoop, skipWs_blank (by decide), skipWs_id h]
  obtain ⟨ch, word, hlist, _, hbrace⟩ := id_cons h
  rw [hlist, List.cons_append]
  split
  · next heq => cases heq
  · next heq => exact absurd (List.cons.inj heq).1 hbrace
  · rfl

theorem subgraphStatement_member {id : String} {s : OpenSubgraph} (h : IsName env id) :
    subgraphStatement env size s (id.toList ++ ';' :: rest) =
      .ok ({ s with
        graph := declareNode env id ∅ s.graph, members := addMembers s.members [id] }, rest) := by
  have hends : Ends env (';' :: rest) := ends_of_ascii (by decide) (by decide)
  rw [subgraphStatement, (tryKeyword_name h hends).1]
  dsimp only
  rw [parseIdentifier_id h.toIsId hends, ok_bind]
  dsimp only
  rw [skipWs_stop (by decide) (by decide) (by decide)]
  show Except.ok ({ s with
    graph := declareNode env id ∅ s.graph, members := addMembers s.members [id] },
    skipOptionalSemicolon (';' :: rest)) = _
  rw [skipOptionalSemicolon_semicolon]

theorem subgraphStatement_label {label : String} {s : OpenSubgraph} :
    subgraphStatement env size s ("graph".toList ++ ' ' :: (attrsText [("label", label)] ++
      ';' :: rest)) = .ok ({ s with label := some label }, rest) := by
  have hkey : ∀ attr ∈ [("label", label)], IsId env attr.1 := by
    intro attr hattr
    obtain rfl := List.mem_singleton.mp hattr
    show IsId env "label"
    exact isId_ascii (by decide) (by decide)
  have hget : (insertAll ∅ [("label", label)])["label"]? = some label := Table.get_insert_self _ _ _
  rw [subgraphStatement, tryKeyword_id isId_graph ends_blank, if_pos rfl]
  dsimp only
  rw [skipWs_attrs, parseAttributes_text hkey, ok_bind, skipOptionalSemicolon_semicolon, hget]
  rfl

theorem subgraphLoop_members {sub : String} : ∀ {members : List String} {fuel : Nat}
    {s : OpenSubgraph}, (∀ m ∈ members, IsName env m) → members.length < fuel →
    subgraphLoop env size sub fuel (members.flatMap memberText ++ '\n' :: '}' :: rest) s =
      .ok ((let g := members.foldl (fun g member => declareNode env member ∅ g) s.graph
        { g with
          subgraphs := g.subgraphs ++
            [{ id := sub, label := s.label, nodeIds := addMembers s.members members }] }), rest) := by
  intro members
  induction members with
  | nil =>
      intro fuel s _ hfuel
      obtain ⟨fuel, rfl⟩ : ∃ n, fuel = n + 1 := ⟨fuel - 1, by simp at hfuel; omega⟩
      exact subgraphLoop_close
  | cons m members ih =>
      intro fuel s hnames hfuel
      rw [List.length_cons] at hfuel
      obtain ⟨fuel, rfl⟩ : ∃ n, fuel = n + 1 := ⟨fuel - 1, by omega⟩
      have hm := hnames m List.mem_cons_self
      have htext : (m :: members).flatMap memberText ++ '\n' :: '}' :: rest =
          '\n' :: (m.toList ++ ';' :: (members.flatMap memberText ++ '\n' :: '}' :: rest)) := by
        simp [memberText]
      rw [htext, subgraphLoop_id hm.toIsId, subgraphStatement_member hm, ok_bind,
        ih (fun x hx => hnames x (List.mem_cons_of_mem _ hx)) (by omega)]
      rfl

theorem text_subgraph {id : String} {label : Option String} {members : List String} :
    (Statement.subgraph id label members).text ++ rest =
      "subgraph".toList ++ ' ' :: (id.toList ++ ' ' :: '{' :: (labelText label ++
        (members.flatMap memberText ++ '\n' :: '}' :: ';' :: rest))) := by
  show "subgraph".toList ++ ' ' :: (id.toList ++ ' ' :: '{' ::
    (labelText label ++ (members.flatMap memberText ++ ['\n', '}', ';']))) ++ rest = _
  simp only [List.append_assoc, List.cons_append, List.nil_append]

/-- The label, if there is one, and the members. -/
theorem subgraphLoop_text {sub : String} {label : Option String} {members : List String}
    {g : PipelineGraph} {fuel : Nat} (hnames : ∀ m ∈ members, IsName env m)
    (hfuel : members.length + 1 < fuel) :
    subgraphLoop env size sub fuel
        (labelText label ++ (members.flatMap memberText ++ '\n' :: '}' :: rest))
        { graph := g, label := none, members := [] } =
      .ok ((Statement.subgraph sub label members).meaning env g, rest) := by
  cases label with
  | none => exact subgraphLoop_members hnames (by omega)
  | some label =>
      obtain ⟨fuel, rfl⟩ : ∃ n, fuel = n + 1 := ⟨fuel - 1, by omega⟩
      have htext : labelText (some label) ++ (members.flatMap memberText ++ '\n' :: '}' :: rest) =
          '\n' :: ("graph".toList ++ ' ' :: (attrsText [("label", label)] ++
            ';' :: (members.flatMap memberText ++ '\n' :: '}' :: rest))) := by
        show '\n' :: ("graph".toList ++ ' ' :: (attrsText [("label", label)] ++ [';'])) ++ _ = _
        simp only [List.append_assoc, List.cons_append, List.nil_append]
      rw [htext, subgraphLoop_id isId_graph, subgraphStatement_label, ok_bind]
      exact subgraphLoop_members hnames (by omega)

theorem members_length (members : List String) :
    members.length ≤ (members.flatMap memberText).length := by
  induction members with
  | nil => simp
  | cons m members ih =>
      rw [List.flatMap_cons, List.length_append, List.length_cons]
      have : 1 ≤ (memberText m).length := by
        simp [memberText]
      omega

theorem parseStatement_subgraph {g : PipelineGraph} {id : String} {label : Option String}
    {members : List String} (h : (Statement.subgraph id label members).Valid env) :
    parseStatement env size g ((Statement.subgraph id label members).text ++ rest) =
      .ok ((Statement.subgraph id label members).meaning env g, rest) := by
  obtain ⟨hid, hnames⟩ := h
  have hgraph : ∀ more : List Char, tryKeyword env "graph" ("subgraph".toList ++ ' ' :: more) =
      none := by
    intro more
    rw [tryKeyword_id isId_subgraph ends_blank, if_neg (by decide)]
  have hsubgraph : ∀ more : List Char, tryKeyword env "subgraph" ("subgraph".toList ++ ' ' :: more) =
      some (' ' :: more) := by
    intro more
    rw [tryKeyword_id isId_subgraph ends_blank, if_pos rfl]
  rw [text_subgraph, parseStatement, hgraph]
  dsimp only
  rw [hsubgraph]
  dsimp only
  rw [parseSubgraph, skipWs_blank (by decide), skipWs_id hid, parseIdentifier_id hid ends_blank,
    ok_bind]
  dsimp only
  rw [skipWs_blank (by decide), skipWs_stop (by decide) (by decide) (by decide), expectChar_same,
    ok_bind, subgraphLoop_text hnames, ok_bind, skipOptionalSemicolon_semicolon]
  · rfl
  · have := members_length members
    simp only [List.length_append, List.length_cons]
    omega

/-- **Reading a statement back.** -/
theorem parseStatement_text {g : PipelineGraph} {s : Statement} (h : s.Valid env) :
    parseStatement env size g (s.text ++ rest) = .ok (s.meaning env g, rest) := by
  cases s with
  | node id attrs => exact parseStatement_node h
  | edge source target attrs => exact parseStatement_edge h
  | subgraph id label members => exact parseStatement_subgraph h

/-! ## Programs -/

def lineText (s : Statement) : List Char :=
  '\n' :: s.text

def programText (name : String) (statements : List Statement) : List Char :=
  "digraph".toList ++ ' ' :: (name.toList ++ ' ' :: '{' ::
    (statements.flatMap lineText ++ ['\n', '}', '\n']))

/-- A statement starts with an identifier. -/
theorem text_id {s : Statement} (h : s.Valid env) :
    ∃ id more, IsId env id ∧ s.text = id.toList ++ more := by
  cases s with
  | node id attrs => exact ⟨id, _, h.1.toIsId, rfl⟩
  | edge source target attrs => exact ⟨source, _, h.1.toIsId, rfl⟩
  | subgraph id label members => exact ⟨"subgraph", _, isId_subgraph, rfl⟩

theorem statementLoop_line {fuel : Nat} {g : PipelineGraph} {s : Statement} (h : s.Valid env) :
    statementLoop env size (fuel + 1) (lineText s ++ rest) g =
      statementLoop env size fuel rest (s.meaning env g) := by
  obtain ⟨id, more, hid, htext⟩ := text_id h
  obtain ⟨ch, word, hlist, _, hbrace⟩ := id_cons hid
  have hskip : skipWs (s.text ++ rest) = s.text ++ rest := by
    rw [htext, List.append_assoc]
    exact skipWs_id hid
  have hparse : parseStatement env size g (s.text ++ rest) = .ok (s.meaning env g, rest) :=
    parseStatement_text h
  show statementLoop env size (fuel + 1) ('\n' :: (s.text ++ rest)) g = _
  rw [statementLoop, skipWs_blank (by decide), hskip]
  rw [htext, hlist, List.cons_append, List.cons_append] at hparse ⊢
  split
  · next heq => cases heq
  · next heq => exact absurd (List.cons.inj heq).1 hbrace
  · rw [hparse, ok_bind]

theorem statementLoop_text : ∀ {statements : List Statement} {fuel : Nat} {g : PipelineGraph},
    (∀ s ∈ statements, s.Valid env) → statements.length < fuel →
    statementLoop env size fuel (statements.flatMap lineText ++ '\n' :: '}' :: rest) g =
      .ok (statements.foldl (fun g s => s.meaning env g) g) := by
  intro statements
  induction statements with
  | nil =>
      intro fuel g _ hfuel
      obtain ⟨fuel, rfl⟩ : ∃ n, fuel = n + 1 := ⟨fuel - 1, by simp at hfuel; omega⟩
      show statementLoop env size (fuel + 1) ('\n' :: '}' :: rest) g = _
      rw [statementLoop, skipWs_blank (by decide), skipWs_stop (by decide) (by decide) (by decide)]
      rfl
  | cons s statements ih =>
      intro fuel g hvalid hfuel
      rw [List.length_cons] at hfuel
      obtain ⟨fuel, rfl⟩ : ∃ n, fuel = n + 1 := ⟨fuel - 1, by omega⟩
      rw [List.flatMap_cons, List.append_assoc, statementLoop_line (hvalid s List.mem_cons_self),
        List.foldl_cons]
      exact ih (fun x hx => hvalid x (List.mem_cons_of_mem _ hx)) (by omega)

theorem lines_length (statements : List Statement) :
    statements.length ≤ (statements.flatMap lineText).length := by
  induction statements with
  | nil => simp
  | cons s statements ih =>
      rw [List.flatMap_cons, List.length_append, List.length_cons]
      have : 1 ≤ (lineText s).length := by
        simp [lineText]
      omega

theorem parseGraphName_id {name : String} (h : IsId env name) :
    parseGraphName env (name.toList ++ ' ' :: rest) = .ok (name, ' ' :: rest) := by
  obtain ⟨ch, word, hlist, hbrace, _⟩ := id_cons h
  have hparse : parseIdentifier env .expectedGraphName (name.toList ++ ' ' :: rest) =
      .ok (name, ' ' :: rest) := parseIdentifier_id h ends_blank
  rw [parseGraphName.eq_def]
  split
  · next heq =>
      rw [hlist] at heq
      exact absurd (List.cons.inj heq).1 hbrace
  · exact hparse

theorem parseHeader_text {name : String} (h : IsId env name) :
    parseHeader env ("digraph".toList ++ ' ' :: (name.toList ++ ' ' :: '{' :: rest)) =
      .ok (name, rest) := by
  have hdigraph : IsId env "digraph" := isId_ascii (by decide) (by decide)
  rw [parseHeader, skipWs_id hdigraph, tryKeyword_id hdigraph ends_blank, if_pos rfl]
  dsimp only
  rw [skipWs_blank (by decide), skipWs_id h, parseGraphName_id h, ok_bind]
  dsimp only
  rw [skipWs_blank (by decide), skipWs_stop (by decide) (by decide) (by decide), expectChar_same,
    ok_bind]
  rfl

/-- **A program is read statement by statement.** -/
theorem parseDot_program {name : String} {statements : List Statement} (hname : IsId env name)
    (hvalid : ∀ s ∈ statements, s.Valid env) :
    parseDot env (String.ofList (programText name statements)) =
      .ok (ensureEndpoints (statements.foldl (fun g s => s.meaning env g)
        (emptyGraph (boundGraphId name)))) := by
  have hlen := lines_length statements
  have htext : programText name statements = "digraph".toList ++ ' ' :: (name.toList ++ ' ' :: '{' ::
    (statements.flatMap lineText ++ ['\n', '}', '\n'])) := rfl
  rw [parseDot, String.toList_ofList, htext, parseHeader_text hname, ok_bind]
  dsimp only
  rw [statementLoop_text hvalid (by rw [List.length_append]; omega), ok_bind]
  rfl

end Octos.Pipeline
