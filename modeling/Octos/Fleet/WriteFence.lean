/-
# `Octos.Fleet.WriteFence` — the write fence at two layers

    crates/octos-fleet/src/grant.rs                validate_write_path_pattern
    crates/octos-agent/src/tools/write_grant.rs    validate_pattern, WritePathGrant
    crates/octos-agent/src/sandbox/macos.rs        glob_to_sbpl_regex

A worker may write the paths of a list of patterns and no others.  The file tools match
a path against the patterns themselves, and the sandbox against a regular expression
made of each.  A plan is accepted with the patterns as they are written, the tools
compile them without the blanks around them, and the expressions are made of them as
they are written:

    pattern     tools        expression
    a/*.md      a/*.md       ^/ws/a/[^/]*\.md$
     a          a            ^/ws/ a$
     /a         refused      ^/ws/ /a$
-/
import Octos.Lib.Ere
import Octos.Lib.Glob
import Octos.Lib.Lines

namespace Octos.Fleet

open Text Glob

/-! ## The plan -/

def isControlByte (ch : Char) : Bool :=
  decide (ch.toNat < 0x20) || ch.toNat == 0x7F

/-- `GrantError::InvalidWritePath` -/
structure InvalidWritePath where
  pattern : List Char
  reason : String
deriving DecidableEq, Repr

/-- The first segment that is refused. -/
def segmentReason : List (List Char) → Option String
  | [] => none
  | segment :: rest =>
      if segment = [] then some "empty path segment (`//` or trailing `/`)"
      else if segment = ['.'] ∨ segment = ['.', '.'] then
        some "`.` / `..` path segments are not allowed (write the plain relative path)"
      else segmentReason rest

/-- Why a pattern is refused, if it is. -/
def writePathReason (pattern : List Char) : Option String :=
  if (Text.trim pattern).isEmpty then some "pattern is empty"
  else if pattern.head? = some '/' then some "pattern must be workspace-relative, not absolute"
  else if pattern.any isControlByte then some "pattern contains control characters"
  else if pattern.any (['(', ')', '\\', '"'].contains ·) then
    some "pattern contains sandbox-profile metacharacters ( ) \\ \""
  else if pattern.contains ':' then some "pattern must not contain `:` (mount-spec / drive separator)"
  else if pattern.any (['[', ']', Char.ofNat 123, Char.ofNat 125].contains ·) then
    some "glob classes/alternations are not supported in fs.write v1 (use * and ?)"
  else if contains ['*', '*'] pattern then some "recursive `**` globs are not supported in fs.write v1"
  else segmentReason (pattern.splitOn '/')

/-- `validate_write_path_pattern` -/
def validateWritePathPattern (pattern : List Char) : Except InvalidWritePath Unit :=
  match writePathReason pattern with
  | some reason => .error ⟨pattern, reason⟩
  | none => .ok ()

/-! ## The tools -/

/-- Why the tools refuse a pattern, if they do. -/
def patternReason (pattern : List Char) : Option String :=
  if pattern.isEmpty then some "pattern is empty"
  else if pattern.head? = some '/' then some "pattern must be workspace-relative"
  else if pattern.any isControlByte then some "pattern contains control characters"
  else if contains ['*', '*'] pattern then some "recursive `**` globs are not supported in v1"
  else if pattern.any (['(', ')', '\\', '"', ':', '[', ']', Char.ofNat 123, Char.ofNat 125].contains ·) then
    some "pattern contains unsupported metacharacters"
  else if (pattern.splitOn '/').any (fun segment => segment == [] || segment == ['.'] || segment == ['.', '.']) then
    some "`.`/`..`/empty path segments are not allowed"
  else none

def quoted (pattern : List Char) : String :=
  "write grant pattern `" ++ String.ofList pattern ++ "` "

/-- `validate_pattern` -/
def validatePattern (pattern : List Char) : Except String Unit :=
  match patternReason pattern with
  | some reason => .error (quoted pattern ++ "is invalid: " ++ reason)
  | none => .ok ()

/-- What is known of the compiler of patterns: it refuses only what may be a class, an
alternation or an escape, and a set of what it has compiled is compiled. -/
structure Globset where
  glob : List Char → Except String Unit
  set : List (List Char) → Except String Unit
  glob_plain : ∀ pattern, (∀ ch ∈ pattern, ch ∉ ['[', ']', Char.ofNat 123, Char.ofNat 125, '\\']) →
    glob pattern = .ok ()
  set_plain : ∀ patterns, (∀ pattern ∈ patterns, glob pattern = .ok ()) → set patterns = .ok ()

/-- A compiled fence. -/
structure WritePathGrant where
  patterns : List (List Char)
  createOnly : Bool
deriving DecidableEq, Repr

/-- The loop of `WritePathGrant::new`. -/
def compileAll (globset : Globset) : List (List Char) → Except String (List (List Char))
  | [] => .ok []
  | pattern :: rest =>
      let pattern := Text.trim pattern
      match validatePattern pattern with
      | .error e => .error e
      | .ok () =>
          match globset.glob pattern with
          | .error e => .error (quoted pattern ++ "failed to compile: " ++ e)
          | .ok () => (compileAll globset rest).map (fun kept => pattern :: kept)

/-- `WritePathGrant::new` -/
def WritePathGrant.new (globset : Globset) (patterns : List (List Char)) (createOnly : Bool) :
    Except String WritePathGrant :=
  match compileAll globset patterns with
  | .error e => .error e
  | .ok kept =>
      match globset.set kept with
      | .error e => .error ("write grant failed to compile: " ++ e)
      | .ok () => .ok ⟨kept, createOnly⟩

/-- `self.matcher.is_match(&rel)` -/
def WritePathGrant.isMatch (grant : WritePathGrant) (rel : List Char) : Bool :=
  grant.patterns.any (fun pattern => globMatch pattern rel)

/-- `strip_prefix`, over the components of the two paths. -/
def stripRoot (root path : List (List Char)) : Option (List (List Char)) :=
  if root.isPrefixOf path then some (path.drop root.length) else none

/-- `workspace_relative`, with the canonical root where there is one. -/
def workspaceRelative (root : List (List Char)) (canonical : Option (List (List Char)))
    (resolved : List (List Char)) : Option (List (List Char)) :=
  match stripRoot root resolved with
  | some rel => some rel
  | none => canonical.bind (fun root => stripRoot root resolved)

/-- `patterns_for_message` -/
def WritePathGrant.patternsForMessage (grant : WritePathGrant) : String :=
  if grant.patterns.isEmpty then "nothing — this grant is read-only"
  else String.ofList ([',', ' '].intercalate grant.patterns)

def denied (tool detail : String) : String :=
  "[denied] " ++ tool ++ ": " ++ detail

/-- `check_write`, which gives the relative path back. -/
def WritePathGrant.checkWrite (grant : WritePathGrant) (root : List (List Char))
    (canonical : Option (List (List Char))) (resolved : List (List Char)) (displayPath tool : String) :
    Except String (List (List Char)) :=
  match workspaceRelative root canonical resolved with
  | none => .error (denied tool ("`" ++ displayPath ++ "` is not inside the workspace."))
  | some rel =>
      if grant.isMatch (Path.join rel) then .ok rel
      else
        .error (denied tool ("`" ++ displayPath ++ "` is outside this task's write grant (writable: " ++
          grant.patternsForMessage ++ "). Everything else is read-only."))

/-! ## The sandbox -/

def isSbplMeta (ch : Char) : Bool :=
  isControlByte ch || ['(', ')', '\\', '"'].contains ch

/-- `push_regex_escaped` -/
def regexEscaped (ch : Char) : List Char :=
  if ['.', '+', '*', '?', '(', ')', '[', ']', Char.ofNat 123, Char.ofNat 125, '^', '$', '|', '\\'].contains ch then
    ['\\', ch]
  else [ch]

/-- What becomes of a character of a pattern. -/
def translateChar (ch : Char) : List Char :=
  if ch = '*' then ['[', '^', '/', ']', '*']
  else if ch = '?' then ['[', '^', '/', ']']
  else regexEscaped ch

/-- `glob_to_sbpl_regex` -/
def globToSbplRegex (realCwd glob : List Char) : List Char :=
  '^' :: (realCwd.flatMap regexEscaped ++ '/' :: glob.flatMap translateChar ++ ['$'])

/-- The expressions of the rules of a fence; an entry that could break out of its rule
has none. -/
def fenceRegexes (realCwd : List Char) (globs : List (List Char)) : List (List Char) :=
  (globs.filter (fun glob => !glob.any isSbplMeta)).map (globToSbplRegex realCwd)

/-! ## The two validators -/

/-- What both refuse, blanks aside. -/
structure PatternOk (pattern : List Char) : Prop where
  relative : pattern.head? ≠ some '/'
  printable : ∀ ch ∈ pattern, isControlByte ch = false
  plain : ∀ ch ∈ pattern, ch ∉ ['(', ')', '\\', '"', ':', '[', ']', Char.ofNat 123, Char.ofNat 125]
  flat : contains ['*', '*'] pattern = false
  segments : ∀ segment ∈ pattern.splitOn '/', segment ≠ [] ∧ segment ≠ ['.'] ∧ segment ≠ ['.', '.']

variable {pattern realCwd text : List Char} {ch : Char}

theorem segmentReason_none : ∀ {parts : List (List Char)}, segmentReason parts = none ↔
    ∀ segment ∈ parts, segment ≠ [] ∧ segment ≠ ['.'] ∧ segment ≠ ['.', '.'] := by
  intro parts
  induction parts with
  | nil => simp [segmentReason]
  | cons segment rest ih =>
      rw [segmentReason, List.forall_mem_cons, ← ih]
      split
      · next h => simp [h]
      · next h =>
          split
          · next hdots =>
              constructor
              · intro hnone
                cases hnone
              · rintro ⟨⟨-, hone, htwo⟩, -⟩
                rcases hdots with hdots | hdots
                · exact absurd hdots hone
                · exact absurd hdots htwo
          · next hdots =>
              rw [not_or] at hdots
              exact ⟨fun hrest => ⟨⟨h, hdots.1, hdots.2⟩, hrest⟩, fun hall => hall.2⟩

theorem validateWritePathPattern_ok :
    validateWritePathPattern pattern = .ok () ↔ Text.trim pattern ≠ [] ∧ PatternOk pattern := by
  have hreason : validateWritePathPattern pattern = .ok () ↔ writePathReason pattern = none := by
    rw [validateWritePathPattern]
    cases writePathReason pattern <;> simp
  rw [hreason, writePathReason]
  constructor
  · intro h
    split_ifs at h with hempty habs hctl hsbpl hcolon hclass hrec
    refine ⟨by simpa using hempty, habs, by simpa using hctl, ?_, by simpa using hrec, segmentReason_none.mp h⟩
    intro ch hch
    simp only [List.any_eq_true, not_exists, not_and] at hsbpl hclass
    have h1 := hsbpl ch hch
    have h2 := hclass ch hch
    have h3 : ch ≠ ':' := by
      rintro rfl
      exact hcolon (by simpa using hch)
    simp at h1 h2 ⊢
    tauto
  · rintro ⟨hne, h⟩
    have hsbpl : ¬ pattern.any (['(', ')', '\\', '"'].contains ·) = true := by
      simp only [List.any_eq_true, not_exists, not_and]
      intro ch hch
      have hplain := h.plain ch hch
      simp at hplain ⊢
      tauto
    have hcolon : ¬ pattern.contains ':' = true := by
      intro hmem
      exact h.plain ':' (by simpa using hmem) (by decide)
    have hclass : ¬ pattern.any (['[', ']', Char.ofNat 123, Char.ofNat 125].contains ·) = true := by
      simp only [List.any_eq_true, not_exists, not_and]
      intro ch hch
      have hplain := h.plain ch hch
      simp at hplain ⊢
      tauto
    have hctl : ¬ pattern.any isControlByte = true := by simpa using h.printable
    rw [if_neg (by simpa using hne), if_neg h.relative, if_neg hctl, if_neg hsbpl, if_neg hcolon, if_neg hclass,
      h.flat, if_neg Bool.false_ne_true]
    exact segmentReason_none.mpr h.segments

theorem validatePattern_ok : validatePattern pattern = .ok () ↔ pattern ≠ [] ∧ PatternOk pattern := by
  have hreason : validatePattern pattern = .ok () ↔ patternReason pattern = none := by
    rw [validatePattern]
    cases patternReason pattern <;> simp
  rw [hreason, patternReason]
  constructor
  · intro h
    split_ifs at h with hempty habs hctl hrec hplain hsegs
    refine ⟨by simpa using hempty, habs, by simpa using hctl, ?_, by simpa using hrec, ?_⟩
    · intro ch hch hmem
      exact hplain (List.any_eq_true.mpr ⟨ch, hch, List.contains_iff_mem.mpr hmem⟩)
    · intro segment hsegment
      simp only [List.any_eq_true, not_exists, not_and, Bool.or_eq_true, beq_iff_eq, not_or] at hsegs
      obtain ⟨⟨hne, hone⟩, htwo⟩ := hsegs segment hsegment
      exact ⟨hne, hone, htwo⟩
  · rintro ⟨hne, h⟩
    have hctl : ¬ pattern.any isControlByte = true := by simpa using h.printable
    have hplain : ¬ pattern.any (['(', ')', '\\', '"', ':', '[', ']', Char.ofNat 123, Char.ofNat 125].contains ·) = true := by
      rw [List.any_eq_true]
      rintro ⟨ch, hch, hmem⟩
      exact h.plain ch hch (List.contains_iff_mem.mp hmem)
    have hsegs : ¬ (pattern.splitOn '/').any
        (fun segment => segment == [] || segment == ['.'] || segment == ['.', '.']) = true := by
      simp only [List.any_eq_true, not_exists, not_and, Bool.or_eq_true, beq_iff_eq, not_or]
      intro segment hsegment
      obtain ⟨hne, hone, htwo⟩ := h.segments segment hsegment
      exact ⟨⟨hne, hone⟩, htwo⟩
    rw [if_neg (by simpa using hne), if_neg h.relative, if_neg hctl, h.flat, if_neg Bool.false_ne_true, if_neg hplain,
      if_neg hsegs]

/-- Without blanks around it a pattern is accepted by both or refused by both. -/
theorem validators_agree (h : Text.Trimmed pattern) :
    validateWritePathPattern pattern = .ok () ↔ validatePattern pattern = .ok () := by
  rw [validateWritePathPattern_ok, validatePattern_ok, h]

/-! ## The expression -/

/-- What a character of a pattern is read as. -/
def pieceOf (ch : Char) : Ere.Piece :=
  if ch = '*' then .many (.noneOf ['/'])
  else if ch = '?' then .one (.noneOf ['/'])
  else .one (.char ch)

theorem read_regexEscaped {done : List Ere.Piece} {rest : List Char} :
    Ere.read .between done (regexEscaped ch ++ rest) = Ere.read .between (.one (.char ch) :: done) rest := by
  rw [regexEscaped]
  split
  · exact Ere.read_escaped
  · next h =>
      refine Ere.read_plain ?_
      simp only [List.contains_iff_mem] at h
      simp only [Ere.isSpecial, Bool.eq_false_iff, ne_eq, List.contains_iff_mem]
      simp at h ⊢
      tauto

theorem read_chars : ∀ {front : List Char} {done : List Ere.Piece} {rest : List Char},
    Ere.read .between done (front.flatMap regexEscaped ++ rest) =
      Ere.read .between ((front.map (fun ch => .one (.char ch))).reverse ++ done) rest := by
  intro front
  induction front with
  | nil => exact fun {_ _} => rfl
  | cons ch front ih =>
      intro done rest
      rw [List.flatMap_cons, List.append_assoc, read_regexEscaped, ih, List.map_cons, List.reverse_cons,
        List.append_assoc, List.singleton_append]

theorem read_glob : ∀ {glob : List Char} {done : List Ere.Piece},
    Ere.read .between done (glob.flatMap translateChar) = some (done.reverse ++ glob.map pieceOf) := by
  intro glob
  induction glob with
  | nil =>
      intro done
      rw [List.map_nil, List.append_nil]
      rfl
  | cons ch glob ih =>
      intro done
      have hone : Ere.read .between done (translateChar ch ++ glob.flatMap translateChar) =
          Ere.read .between (pieceOf ch :: done) (glob.flatMap translateChar) := by
        rw [translateChar, pieceOf]
        split
        · exact (Ere.read_noneOf (by decide)).trans Ere.read_star
        · split
          · exact Ere.read_noneOf (by decide)
          · exact read_regexEscaped
      rw [List.flatMap_cons, hone, ih, List.reverse_cons, List.map_cons, List.append_assoc, List.singleton_append]

/-- The expression is read, whatever the root and the pattern. -/
theorem parse_globToSbplRegex (realCwd glob : List Char) :
    Ere.parse (globToSbplRegex realCwd glob) =
      some ((realCwd ++ ['/']).map (fun ch => .one (.char ch)) ++ glob.map pieceOf) := by
  have hslash : regexEscaped '/' = ['/'] := by decide
  have hrest : realCwd.flatMap regexEscaped ++ '/' :: glob.flatMap translateChar =
      (realCwd ++ ['/']).flatMap regexEscaped ++ glob.flatMap translateChar := by
    rw [List.flatMap_append, List.flatMap_singleton, hslash, List.append_assoc, List.singleton_append]
  rw [globToSbplRegex, hrest, Ere.parse, List.getLast?_concat, if_pos rfl, List.dropLast_concat, read_chars, read_glob,
    List.append_nil, List.reverse_reverse]

theorem accepts_noneSlash : (Ere.Atom.noneOf ['/']).accepts ch = true ↔ ch ≠ '/' := by
  simp [Ere.Atom.accepts]

/-- The pieces match what the pattern matches. -/
theorem accepts_pieceOf : ∀ {glob text : List Char},
    Ere.accepts (glob.map pieceOf) text = true ↔ globMatch glob text = true := by
  intro glob
  induction glob with
  | nil => exact fun {_} => Iff.rfl
  | cons ch glob ih =>
      intro text
      rw [List.map_cons, pieceOf]
      by_cases hstar : ch = '*'
      · rw [if_pos hstar, hstar, Ere.accepts_many, globMatch_star]
        refine exists_congr (fun run => exists_congr (fun rest => and_congr_right (fun _ => ?_)))
        rw [ih]
        refine and_congr_left (fun _ => ?_)
        simp only [accepts_noneSlash]
        exact ⟨fun h hmem => h _ hmem rfl, fun h c hc heq => h (heq ▸ hc)⟩
      · rw [if_neg hstar, globMatch_cons hstar]
        cases text with
        | nil =>
            constructor
            · intro h
              split at h <;> cases h
            · rintro ⟨c, rest, heq, -⟩
              cases heq
        | cons c text =>
            have hone : Ere.accepts ((if ch = '?' then .one (.noneOf ['/']) else .one (.char ch)) :: glob.map pieceOf)
                (c :: text) = true ↔ (if ch = '?' then c ≠ '/' else c = ch) ∧ globMatch glob text = true := by
              split
              · rw [Ere.accepts, Bool.and_eq_true, accepts_noneSlash, ih]
              · rw [Ere.accepts, Bool.and_eq_true, Ere.Atom.accepts, beq_iff_eq, ih]
            rw [hone]
            constructor
            · rintro ⟨hc, hrest⟩
              exact ⟨c, text, rfl, hc, hrest⟩
            · rintro ⟨c', rest, heq, hc, hrest⟩
              cases heq
              exact ⟨hc, hrest⟩

/-- **The expression of a pattern** matches, behind the root, what the pattern does. -/
theorem matches_globToSbplRegex (realCwd glob : List Char) :
    Ere.Matches (globToSbplRegex realCwd glob) text ↔
      ∃ rel, text = realCwd ++ '/' :: rel ∧ globMatch glob rel = true := by
  simp only [Ere.Matches, parse_globToSbplRegex, Option.some.injEq, exists_eq_left']
  rw [Ere.accepts_chars]
  constructor
  · rintro ⟨rel, rfl, hrel⟩
    exact ⟨rel, by rw [List.append_assoc]; rfl, accepts_pieceOf.mp hrel⟩
  · rintro ⟨rel, rfl, hrel⟩
    exact ⟨rel, by rw [List.append_assoc]; rfl, accepts_pieceOf.mpr hrel⟩

/-! ## The two layers -/

/-- The two layers mean the same by a list: the tools compile it, and of every relative
path of normal components, under whatever root, they let through exactly what a rule of
the sandbox lets through. -/
def Aligned (globset : Globset) (realCwd : List Char) (patterns : List (List Char)) : Prop :=
  ∀ createOnly, ∃ grant, WritePathGrant.new globset patterns createOnly = .ok grant ∧
    ∀ rel, rel ≠ [] → (∀ segment ∈ rel, Path.IsSegment segment) → ∀ root canonical displayPath tool,
      grant.checkWrite root canonical (root ++ rel) displayPath tool = .ok rel ↔
        ∃ regex ∈ fenceRegexes realCwd patterns, Ere.Matches regex (Path.push realCwd (Path.join rel))

/-- A root that a path is put behind with a slash. -/
def RootOk (realCwd : List Char) : Prop :=
  realCwd ≠ [] ∧ realCwd.getLast? ≠ some '/'

/-- What is compiled are the patterns without the blanks, and no other is. -/
theorem compileAll_ok {globset : Globset} : ∀ {patterns kept : List (List Char)},
    compileAll globset patterns = .ok kept ↔
      (∀ pattern ∈ patterns, validatePattern (Text.trim pattern) = .ok ()) ∧ kept = patterns.map Text.trim := by
  intro patterns
  induction patterns with
  | nil =>
      intro kept
      rw [compileAll, Except.ok.injEq, eq_comm]
      exact ⟨fun h => ⟨fun _ hp => (List.not_mem_nil hp).elim, h⟩, fun h => h.2⟩
  | cons pattern patterns ih =>
      intro kept
      rw [compileAll, List.forall_mem_cons]
      cases hvalid : validatePattern (Text.trim pattern) with
      | error e =>
          constructor
          · intro h
            cases h
          · rintro ⟨⟨h, -⟩, -⟩
            cases h
      | ok u =>
          have hglob : globset.glob (Text.trim pattern) = .ok () := by
            refine globset.glob_plain _ ?_
            intro ch hch hmem
            refine (validatePattern_ok.mp hvalid).2.plain ch hch ?_
            simp at hmem ⊢
            tauto
          simp only [hglob]
          cases hrest : compileAll globset patterns with
          | error e =>
              constructor
              · intro h
                cases h
              · rintro ⟨⟨-, h⟩, -⟩
                rw [ih.mpr ⟨h, rfl⟩] at hrest
                cases hrest
          | ok rest =>
              obtain ⟨hall, rfl⟩ := ih.mp hrest
              rw [Except.map, Except.ok.injEq, List.map_cons, eq_comm]
              exact ⟨fun h => ⟨⟨trivial, hall⟩, h⟩, fun h => h.2⟩

theorem new_ok {globset : Globset} {patterns : List (List Char)} {createOnly : Bool} {grant : WritePathGrant} :
    WritePathGrant.new globset patterns createOnly = .ok grant ↔
      (∀ pattern ∈ patterns, validatePattern (Text.trim pattern) = .ok ()) ∧ grant = ⟨patterns.map Text.trim, createOnly⟩ := by
  rw [WritePathGrant.new]
  cases hcompile : compileAll globset patterns with
  | error e =>
      constructor
      · intro h
        cases h
      · rintro ⟨h, -⟩
        rw [compileAll_ok.mpr ⟨h, rfl⟩] at hcompile
        cases hcompile
  | ok kept =>
      obtain ⟨hall, rfl⟩ := compileAll_ok.mp hcompile
      have hset : globset.set (patterns.map Text.trim) = .ok () := by
        refine globset.set_plain _ ?_
        intro pattern hpattern
        obtain ⟨p, hp, rfl⟩ := List.mem_map.mp hpattern
        refine globset.glob_plain _ ?_
        intro ch hch hmem
        refine (validatePattern_ok.mp (hall p hp)).2.plain ch hch ?_
        simp at hmem ⊢
        tauto
      simp only [hset]
      rw [Except.ok.injEq, eq_comm]
      exact ⟨fun h => ⟨hall, h⟩, fun h => h.2⟩

theorem checkWrite_ok {grant : WritePathGrant} {root rel : List (List Char)} {canonical : Option (List (List Char))}
    {displayPath tool : String} :
    grant.checkWrite root canonical (root ++ rel) displayPath tool = .ok rel ↔ grant.isMatch (Path.join rel) = true := by
  have hroot : root.isPrefixOf (root ++ rel) = true := List.isPrefixOf_iff_prefix.mpr (List.prefix_append _ _)
  rw [WritePathGrant.checkWrite, workspaceRelative, stripRoot, if_pos hroot, List.drop_left]
  dsimp only
  split
  · next h => simp [h]
  · next h => simp [h]

/-- A pattern that is accepted has its rule. -/
theorem fenceRegexes_of_patternOk {patterns : List (List Char)} (h : ∀ pattern ∈ patterns, PatternOk pattern) :
    fenceRegexes realCwd patterns = patterns.map (globToSbplRegex realCwd) := by
  rw [fenceRegexes]
  refine congrArg _ (List.filter_eq_self.mpr ?_)
  intro pattern hpattern
  simp only [Bool.not_eq_true', List.any_eq_false, isSbplMeta, Bool.or_eq_true, not_or]
  intro ch hch
  have hplain := (h pattern hpattern).plain ch hch
  rw [(h pattern hpattern).printable ch hch]
  refine ⟨Bool.false_ne_true, ?_⟩
  simp at hplain ⊢
  tauto

/-- What the rules let through, of the paths under the root. -/
theorem fenceRegexes_match {patterns rel : List (List Char)} (h : ∀ pattern ∈ patterns, PatternOk pattern)
    (hrel : ∀ segment ∈ rel, Path.IsSegment segment) :
    (∃ regex ∈ fenceRegexes realCwd patterns, Ere.Matches regex (Path.push realCwd (Path.join rel))) ↔
      RootOk realCwd ∧ ∃ pattern ∈ patterns, globMatch pattern (Path.join rel) = true := by
  have hhead := Path.head?_join_ne hrel
  have hregex : ∀ path, (∃ regex ∈ fenceRegexes realCwd patterns, Ere.Matches regex path) ↔
      ∃ pattern ∈ patterns, ∃ r, path = realCwd ++ '/' :: r ∧ globMatch pattern r = true := by
    intro path
    rw [fenceRegexes_of_patternOk h]
    simp only [List.mem_map, exists_exists_and_eq_and, matches_globToSbplRegex]
  rw [hregex, Path.push, if_neg hhead]
  by_cases hroot : RootOk realCwd
  · rw [if_neg (not_or.mpr hroot)]
    simp only [hroot, true_and, List.append_cancel_left_eq, List.cons.injEq, exists_eq_left']
  · -- behind such a root the path has one slash less than the expression
    have hbad : realCwd = [] ∨ realCwd.getLast? = some '/' := by
      by_contra hno
      exact hroot (not_or.mp hno)
    rw [if_pos hbad]
    simp only [hroot, false_and, iff_false, List.append_cancel_left_eq]
    rintro ⟨pattern, -, r, heq, -⟩
    rw [heq] at hhead
    exact hhead rfl

/-! ## Samples -/

/-- The components of the sample of a pattern. -/
def samplePath (pattern : List Char) : List (List Char) :=
  (pattern.splitOn '/').map sample

theorem join_sample : ∀ parts : List (List Char), Path.join (parts.map sample) = sample (Path.join parts) := by
  intro parts
  induction parts with
  | nil => rfl
  | cons part parts ih =>
      cases parts with
      | nil => simp [Path.join]
      | cons next parts =>
          have hstep : ∀ (a b : List Char) (rest : List (List Char)),
              Path.join (a :: b :: rest) = a ++ '/' :: Path.join (b :: rest) := by
            intro a b rest
            simp [Path.join, List.intercalate_cons_cons]
          rw [List.map_cons, List.map_cons, hstep, hstep, ← List.map_cons, ih, sample, sample, sample, List.map_append,
            List.map_cons]
          rfl

theorem join_samplePath (pattern : List Char) : Path.join (samplePath pattern) = sample pattern := by
  rw [samplePath, join_sample]
  exact congrArg sample (List.intercalate_splitOn '/')

theorem isSegment_samplePath (h : PatternOk pattern) : ∀ segment ∈ samplePath pattern, Path.IsSegment segment := by
  intro segment hsegment
  obtain ⟨part, hpart, rfl⟩ := List.mem_map.mp hsegment
  obtain ⟨hne, hone, htwo⟩ := h.segments part hpart
  have hdot : ∀ ch : Char, fill ch = '.' ↔ ch = '.' := fun ch => fill_eq (by decide) (by decide)
  refine ⟨?_, ?_, ?_, ?_⟩
  · rw [sample, ne_eq, List.map_eq_nil_iff]
    exact hne
  · rw [sample, List.mem_map]
    rintro ⟨ch, hch, heq⟩
    rw [fill_eq (by decide) (by decide)] at heq
    exact notMem_of_mem_splitOn hpart (heq ▸ hch)
  · rw [sample, ne_eq, List.map_eq_singleton_iff]
    rintro ⟨ch, rfl, heq⟩
    exact hone (by rw [(hdot ch).mp heq])
  · rw [sample, ne_eq, List.map_eq_cons_iff]
    rintro ⟨ch, rest, rfl, heq, hrest⟩
    obtain ⟨ch', rfl, heq'⟩ := List.map_eq_singleton_iff.mp hrest
    exact htwo (by rw [(hdot ch).mp heq, (hdot ch').mp heq'])

/-- A sample has no blank where its pattern has none. -/
theorem isWhitespace_fill (h : isWhitespace ch = false) : isWhitespace (fill ch) = false := by
  rw [fill]
  split
  · decide
  · exact h

theorem isWildcard_of_whitespace (h : isWhitespace ch = true) : isWildcard ch = false := by
  rw [isWildcard, Bool.or_eq_false_iff, beq_eq_false_iff_ne, beq_eq_false_iff_ne]
  constructor
  · rintro rfl
    exact absurd h (by decide)
  · rintro rfl
    exact absurd h (by decide)

/-- A blank at an end of a pattern is one at that end of what it matches. -/
theorem not_globMatch_sample (h : ¬ Text.Trimmed pattern) (hne : Text.trim pattern ≠ []) :
    globMatch pattern (sample (Text.trim pattern)) = false := by
  by_contra hmatch
  rw [Bool.not_eq_false] at hmatch
  obtain ⟨hhead, hlast⟩ := Text.trimmed_iff.mp (Text.trimmed_trim pattern) hne
  apply h
  rw [Text.trimmed_iff]
  intro hpne
  refine ⟨?_, ?_⟩
  · by_contra hws
    rw [Bool.not_eq_false] at hws
    obtain ⟨ch, rest, rfl⟩ := List.exists_cons_of_ne_nil hpne
    rw [List.head_cons] at hws
    have hfirst := head_of_globMatch (isWildcard_of_whitespace hws) hmatch
    rw [sample, List.head?_map, List.head?_eq_some_head hne, Option.map_some, Option.some.injEq] at hfirst
    have hfill := isWhitespace_fill hhead
    rw [hfirst, hws] at hfill
    cases hfill
  · by_contra hws
    rw [Bool.not_eq_false] at hws
    obtain ⟨front, ch, rfl⟩ : ∃ front ch, pattern = front ++ [ch] :=
      ⟨_, _, (List.dropLast_concat_getLast hpne).symm⟩
    rw [List.getLast_concat] at hws
    have hend := getLast_of_globMatch (isWildcard_of_whitespace hws) hmatch
    rw [sample, List.getLast?_map, List.getLast?_eq_some_getLast hne, Option.map_some, Option.some.injEq] at hend
    have hfill := isWhitespace_fill hlast
    rw [hend, hws] at hfill
    cases hfill

/-! ## When they mean the same -/

/-- A list that the plan accepts. -/
def Accepted (patterns : List (List Char)) : Prop :=
  ∀ pattern ∈ patterns, validateWritePathPattern pattern = .ok ()

instance (patterns : List (List Char)) : Decidable (Accepted patterns) :=
  inferInstanceAs (Decidable (∀ pattern ∈ patterns, validateWritePathPattern pattern = .ok ()))

theorem Accepted.patternOk {patterns : List (List Char)} (h : Accepted patterns) :
    ∀ pattern ∈ patterns, PatternOk pattern :=
  fun pattern hpattern => (validateWritePathPattern_ok.mp (h pattern hpattern)).2

/-- Without blanks around the patterns the two layers are one. -/
theorem aligned_of_trimmed {globset : Globset} {patterns : List (List Char)} (h : Accepted patterns)
    (hroot : RootOk realCwd) (htrim : ∀ pattern ∈ patterns, Text.Trimmed pattern) : Aligned globset realCwd patterns := by
  intro createOnly
  have hmap : patterns.map Text.trim = patterns := (List.map_congr_left htrim).trans (List.map_id _)
  refine ⟨_, new_ok.mpr ⟨?_, rfl⟩, ?_⟩
  · intro pattern hpattern
    rw [htrim pattern hpattern]
    exact (validators_agree (htrim pattern hpattern)).mp (h pattern hpattern)
  · intro rel hne hrel root canonical displayPath tool
    rw [checkWrite_ok, fenceRegexes_match h.patternOk hrel, WritePathGrant.isMatch, List.any_eq_true, hmap]
    exact (and_iff_right hroot).symm

/-- One pattern means the same at both only so. -/
theorem trimmed_of_aligned {globset : Globset} (h : Accepted [pattern]) (haligned : Aligned globset realCwd [pattern]) :
    RootOk realCwd ∧ Text.Trimmed pattern := by
  obtain ⟨grant, hnew, hsame⟩ := haligned false
  obtain ⟨hvalid, rfl⟩ := new_ok.mp hnew
  obtain ⟨hne, hwell⟩ := validatePattern_ok.mp (hvalid pattern List.mem_cons_self)
  have hsegs := isSegment_samplePath hwell
  have hpath : samplePath (Text.trim pattern) ≠ [] := by
    rw [samplePath, ne_eq, List.map_eq_nil_iff]
    exact List.splitOn_ne_nil _ _
  have hadmits := hsame _ hpath hsegs [] none "" ""
  rw [checkWrite_ok, fenceRegexes_match h.patternOk hsegs, join_samplePath] at hadmits
  obtain ⟨hroot, p, hp, hmatch⟩ := hadmits.mp (by
    rw [WritePathGrant.isMatch, List.any_eq_true]
    exact ⟨Text.trim pattern, List.mem_cons_self, globMatch_sample _⟩)
  rw [List.mem_singleton.mp hp] at hmatch
  refine ⟨hroot, ?_⟩
  by_contra hblank
  rw [not_globMatch_sample hblank hne] at hmatch
  cases hmatch

/-- **Where the fence means the same at both layers.**  Every list that a plan accepts
with no blanks around its patterns does, under a root that is not the root directory;
and a single pattern that is accepted does exactly then. -/
theorem fence_aligned_iff (globset : Globset) (realCwd : List Char) :
    (∀ patterns, Accepted patterns → RootOk realCwd → (∀ pattern ∈ patterns, Text.Trimmed pattern) →
      Aligned globset realCwd patterns) ∧
    ∀ pattern, Accepted [pattern] →
      (Aligned globset realCwd [pattern] ↔ RootOk realCwd ∧ Text.Trimmed pattern) := by
  refine ⟨fun patterns h hroot htrim => aligned_of_trimmed h hroot htrim, ?_⟩
  intro pattern h
  refine ⟨trimmed_of_aligned h, ?_⟩
  rintro ⟨hroot, htrim⟩
  refine aligned_of_trimmed h hroot ?_
  intro p hp
  rw [List.mem_singleton.mp hp]
  exact htrim

/-- A compiler that refuses nothing. -/
def Globset.lenient : Globset where
  glob _ := .ok ()
  set _ := .ok ()
  glob_plain _ _ := rfl
  set_plain _ _ := rfl

theorem fence_aligned_cards : Aligned .lenient ['/', 'w', 's'] [['a', '/', '*', '.', 'm', 'd'], ['?']] := by
  refine (fence_aligned_iff .lenient _).1 _ ?_ ?_ ?_
  · decide
  · exact ⟨by decide, by decide⟩
  · decide

/-- A blank in front of a slash hides it from the plan and not from the tools. -/
theorem blank_before_slash : Accepted [[' ', '/', 'a']] ∧ ¬ Aligned .lenient ['/', 'w', 's'] [[' ', '/', 'a']] := by
  refine ⟨by decide, ?_⟩
  intro haligned
  obtain ⟨grant, hnew, -⟩ := haligned false
  have hvalid := (new_ok.mp hnew).1 _ List.mem_cons_self
  exact absurd hvalid (by decide)

end Octos.Fleet
