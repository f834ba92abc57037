/-
# `Octos.Fleet.Digest` — the bounded read over the finding log

`digest.rs`: a pure function of the findings, a watermark and a budget.  The
sections are computed in full and then trimmed, one section at a time, until
the rendered size fits; the size is the length of the compact JSON text.

The loop of `enforce_budget` goes on only while the size falls, so the size
bounds the number of its passes: that is the fuel of `enforceLoop`, and
`enforceBudget_eq` is the loop's own equation.
-/
import Octos.Fleet.Replan

namespace Octos.Fleet

/-! ## Records -/

inductive FindingStatus
  | confirmed
  | predicted
  | ruledOut
  deriving DecidableEq, Repr

/-- The columns of a finding the digest reads. -/
structure Finding where
  id : String
  seq : U64
  taskId : Option String
  claim : String
  status : FindingStatus
  component : String
  config : Table String String
  supersedes : List String
  costTokens : U64

structure DigestOptions where
  sinceSeq : U64
  currentConfig : Table String String
  maxChars : Nat
  recentWindow : Nat
  clusterMinPaths : Nat

structure DigestFinding where
  id : String
  seq : U64
  claim : String
  status : FindingStatus
  component : String
  taskId : Option String
  deriving DecidableEq

structure Overturn where
  byId : String
  bySeq : U64
  overturned : String
  oldClaim : String
  newClaim : String
  deriving DecidableEq

/-- `drifted`: component, version of the claim, version now. -/
structure StaleFinding where
  id : String
  claim : String
  component : String
  drifted : List (String × String × String)
  deriving DecidableEq

structure ClusterHint where
  component : String
  paths : List String
  findingIds : List String
  deriving DecidableEq

structure PathCost where
  path : String
  tokens : U64
  findings : Nat
  confirmed : Nat
  ruledOut : Nat
  deriving DecidableEq

structure Dropped where
  name : String
  omitted : Nat
  deriving DecidableEq

structure Digest where
  newFindings : List DigestFinding
  overturns : List Overturn
  stale : List StaleFinding
  clusterHints : List ClusterHint
  costByPath : List PathCost
  dropped : List Dropped
  watermark : U64
  deriving DecidableEq

/-! ## The rendered size -/

/-- Bytes of a character inside a JSON string. -/
def escapedSize (c : Char) : Nat :=
  if c ∈ ['"', '\\', '\n', '\r', '\t', '\x08', '\x0c'] then 2
  else if c.val < 0x20 then 6
  else c.utf8Size

def stringSize (s : String) : Nat :=
  2 + (s.toList.map escapedSize).sum

def numberSize (n : Nat) : Nat :=
  (Nat.toDigits 10 n).length

/-- Brackets, items, commas. -/
def arraySize (items : List Nat) : Nat :=
  2 + items.sum + (items.length - 1)

/-- Braces, `"key":value` pairs, commas. -/
def objectSize (fields : List (String × Nat)) : Nat :=
  arraySize (fields.map (fun p => stringSize p.1 + 1 + p.2))

def FindingStatus.size : FindingStatus → Nat
  | .confirmed => stringSize "Confirmed"
  | .predicted => stringSize "Predicted"
  | .ruledOut => stringSize "RuledOut"

/-- `None` is `null`. -/
def optionSize : Option String → Nat
  | some s => stringSize s
  | none => 4

def DigestFinding.size (f : DigestFinding) : Nat :=
  objectSize [("id", stringSize f.id), ("seq", numberSize f.seq.toNat),
    ("claim", stringSize f.claim), ("status", f.status.size),
    ("component", stringSize f.component), ("task_id", optionSize f.taskId)]

def Overturn.size (o : Overturn) : Nat :=
  objectSize [("by", stringSize o.byId), ("by_seq", numberSize o.bySeq.toNat),
    ("overturned", stringSize o.overturned), ("old_claim", stringSize o.oldClaim),
    ("new_claim", stringSize o.newClaim)]

def StaleFinding.size (f : StaleFinding) : Nat :=
  objectSize [("id", stringSize f.id), ("claim", stringSize f.claim),
    ("component", stringSize f.component),
    ("drifted", objectSize (f.drifted.map (fun d =>
      (d.1, arraySize [stringSize d.2.1, stringSize d.2.2]))))]

def ClusterHint.size (h : ClusterHint) : Nat :=
  objectSize [("component", stringSize h.component),
    ("paths", arraySize (h.paths.map stringSize)),
    ("finding_ids", arraySize (h.findingIds.map stringSize))]

def PathCost.size (c : PathCost) : Nat :=
  objectSize [("path", stringSize c.path), ("tokens", numberSize c.tokens.toNat),
    ("findings", numberSize c.findings), ("confirmed", numberSize c.confirmed),
    ("ruled_out", numberSize c.ruledOut)]

def Dropped.size (d : Dropped) : Nat :=
  objectSize [("section", stringSize d.name), ("omitted", numberSize d.omitted)]

/-- `Digest::size`: the length of its JSON text. -/
def Digest.size (d : Digest) : Nat :=
  objectSize [("new_findings", arraySize (d.newFindings.map DigestFinding.size)),
    ("overturns", arraySize (d.overturns.map Overturn.size)),
    ("stale", arraySize (d.stale.map StaleFinding.size)),
    ("cluster_hints", arraySize (d.clusterHints.map ClusterHint.size)),
    ("cost_by_path", arraySize (d.costByPath.map PathCost.size)),
    ("dropped", arraySize (d.dropped.map Dropped.size)),
    ("watermark", numberSize d.watermark.toNat)]

/-! ## The sections -/

/-- `superseded_ids`. -/
def supersededIds (findings : List Finding) : List String :=
  findings.flatMap Finding.supersedes

/-- Live: overturned by no finding of the log. -/
def Finding.isLive (findings : List Finding) (f : Finding) : Bool :=
  decide (f.id ∉ supersededIds findings)

def live (findings : List Finding) : List Finding :=
  findings.filter (Finding.isLive findings)

def Finding.toDigest (f : Finding) : DigestFinding :=
  { id := f.id, seq := f.seq, claim := f.claim, status := f.status, component := f.component,
    taskId := f.taskId }

/-- Live claims past the watermark, oldest first. -/
def newFindings (findings : List Finding) (since : U64) : List DigestFinding :=
  (((live findings).filter (fun f => decide (since < f.seq))).map Finding.toDigest).insertionSort
    (fun a b => a.seq ≤ b.seq)

/-- The claim behind an id; of two findings with one id the later counts. -/
def claimOf (findings : List Finding) (id : String) : String :=
  match findings.reverse.find? (fun f => f.id == id) with
  | some f => f.claim
  | none => ""

/-- The overturn edges of a finding. -/
def Finding.edges (findings : List Finding) (f : Finding) : List Overturn :=
  f.supersedes.map (fun old =>
    { byId := f.id, bySeq := f.seq, overturned := old, oldClaim := claimOf findings old,
      newClaim := f.claim })

/-- The overturn edges of the findings past the watermark, oldest first. -/
def overturns (findings : List Finding) (since : U64) : List Overturn :=
  ((findings.filter (fun f => decide (since < f.seq))).flatMap
    (Finding.edges findings)).insertionSort (fun a b => a.bySeq ≤ b.bySeq)

/-- Which components a finding's config disagrees with the current build on. -/
def drift (f : Finding) (current : Table String String) : List (String × String × String) :=
  f.config.toList.filterMap (fun p =>
    match current[p.1]? with
    | some now => if now ≠ p.2 then some (p.1, p.2, now) else none
    | none => none)

def stale (findings : List Finding) (current : Table String String) : List StaleFinding :=
  ((live findings).filterMap (fun f =>
    let drifted := drift f current
    if drifted.isEmpty then none
    else some { id := f.id, claim := f.claim, component := f.component, drifted := drifted })).reverse

/-- Insertion into an ordered set. -/
def insertPath (path : String) (paths : List String) : List String :=
  if path ∈ paths then paths else paths.orderedInsert (· ≤ ·) path

/-- The paths and findings of each component of the recent window. -/
def byComponent (recent : List Finding) : Table String (List String × List String) :=
  recent.foldl (fun t f =>
    let entry := (t[f.component]?).getD ([], [])
    let paths := match f.taskId with
      | some path => insertPath path entry.1
      | none => entry.1
    t.insert f.component (paths, entry.2 ++ [f.id])) ∅

/-- Components the recent live findings of enough paths cite. -/
def clusterHints (findings : List Finding) (window minPaths : Nat) : List ClusterHint :=
  let recent := (live findings).reverse.take window
  (((byComponent recent).toList.filter (fun e => decide (minPaths ≤ e.2.1.length))).map
    (fun e => { component := e.1, paths := e.2.1, findingIds := e.2.2 : ClusterHint })).insertionSort
      (fun a b => b.paths.length < a.paths.length ∨
        b.paths.length = a.paths.length ∧ a.component ≤ b.component)

/-- `u64::saturating_add`. -/
def saturatingAdd (a b : U64) : U64 :=
  (checkedAdd a b).getD (BitVec.allOnes 64)

/-- Effort and learning per path. -/
def pathCosts (findings : List Finding) : Table String PathCost :=
  findings.foldl (fun t f =>
    match f.taskId with
    | none => t
    | some path =>
        let c := (t[path]?).getD
          { path := path, tokens := 0, findings := 0, confirmed := 0, ruledOut := 0 }
        t.insert path { c with
          tokens := saturatingAdd c.tokens f.costTokens
          findings := c.findings + 1
          confirmed := if f.status = .confirmed then c.confirmed + 1 else c.confirmed
          ruledOut := if f.status = .ruledOut then c.ruledOut + 1 else c.ruledOut }) ∅

def costByPath (findings : List Finding) : List PathCost :=
  (pathCosts findings).toList.map Prod.snd

/-- The view before any cut. -/
def fullDigest (findings : List Finding) (opts : DigestOptions) : Digest :=
  { newFindings := newFindings findings opts.sinceSeq
    overturns := overturns findings opts.sinceSeq
    stale := stale findings opts.currentConfig
    clusterHints := clusterHints findings opts.recentWindow opts.clusterMinPaths
    costByPath := costByPath findings
    dropped := []
    watermark := 0 }

/-! ## The budget -/

/-- How many items a cut keeps: the older half, but never nothing. -/
def keepCount (n : Nat) : Nat :=
  if n = 1 then 1 else n / 2

/-- Record what a cut omitted. -/
def declareDropped (name : String) (omitted : Nat) (dropped : List Dropped) : List Dropped :=
  match modifyFirst (fun d => d.name == name) (fun d => { d with omitted := d.omitted + omitted })
      dropped with
  | some dropped => dropped
  | none => dropped ++ [⟨name, omitted⟩]

/-- `cut`: the shorter section and the record. -/
def cut {α : Type} (v : List α) (name : String) (dropped : List Dropped) :
    List α × List Dropped :=
  if v.isEmpty then (v, dropped)
  else
    (v.take (keepCount v.length), declareDropped name (v.length - keepCount v.length) dropped)

/-- One pass: the first section that is not empty is cut; `none` when there is
nothing left. -/
def trim (d : Digest) : Option Digest :=
  if d.costByPath ≠ [] then
    let r := cut d.costByPath "cost_by_path" d.dropped
    some { d with costByPath := r.1, dropped := r.2 }
  else if d.clusterHints ≠ [] then
    let r := cut d.clusterHints "cluster_hints" d.dropped
    some { d with clusterHints := r.1, dropped := r.2 }
  else if d.stale ≠ [] then
    let r := cut d.stale "stale" d.dropped
    some { d with stale := r.1, dropped := r.2 }
  else if d.overturns ≠ [] then
    let r := cut d.overturns "overturns" d.dropped
    some { d with overturns := r.1, dropped := r.2 }
  else if d.newFindings ≠ [] then
    let r := cut d.newFindings "new_findings" d.dropped
    some { d with newFindings := r.1, dropped := r.2 }
  else none

/-- The loop of `enforce_budget`, for at most `fuel` passes. -/
def enforceLoop (maxChars : Nat) : Nat → Digest → Digest
  | 0, d => d
  | fuel + 1, d =>
      if d.size ≤ maxChars then d
      else
        match trim d with
        | none => d
        | some d' => if d.size ≤ d'.size then d' else enforceLoop maxChars fuel d'

def enforceBudget (d : Digest) (maxChars : Nat) : Digest :=
  enforceLoop maxChars (d.size + 1) d

/-- Any fuel past the size is enough. -/
theorem enforceLoop_fuel {maxChars : Nat} : ∀ (n m : Nat) (d : Digest), d.size < n → d.size < m →
    enforceLoop maxChars n d = enforceLoop maxChars m d := by
  intro n
  induction n with
  | zero =>
      intro m d hn
      omega
  | succ n ih =>
      intro m d hn hm
      obtain ⟨m, rfl⟩ : ∃ k, m = k + 1 := ⟨m - 1, by omega⟩
      rw [enforceLoop, enforceLoop]
      split
      · rfl
      · split
        · rfl
        · next d' _ =>
            split
            · rfl
            · exact ih m d' (by omega) (by omega)

/-- **The loop's equation**: the fuel never runs out. -/
theorem enforceBudget_eq (d : Digest) (maxChars : Nat) :
    enforceBudget d maxChars =
      if d.size ≤ maxChars then d
      else
        match trim d with
        | none => d
        | some d' => if d.size ≤ d'.size then d' else enforceBudget d' maxChars := by
  rw [enforceBudget, enforceLoop]
  split
  · rfl
  · split
    · rfl
    · next d' _ =>
        split
        · rfl
        · exact enforceLoop_fuel _ _ d' (by omega) (by omega)

/-- `Option::max` of the delivered sequences. -/
def maxSeq (seqs : List U64) : Option U64 :=
  seqs.foldl (fun m s => some (match m with
    | some m => if m ≤ s then s else m
    | none => s)) none

/-- The controller's view. -/
def digest (findings : List Finding) (opts : DigestOptions) : Digest :=
  let out := enforceBudget (fullDigest findings opts) opts.maxChars
  let maxNew := maxSeq (out.newFindings.map DigestFinding.seq)
  let maxOvt := maxSeq (out.overturns.map Overturn.bySeq)
  { out with
    watermark := match maxNew, maxOvt with
      | some n, some o => if n ≤ o then o else n
      | some n, none => n
      | none, some o => o
      | none, none => opts.sinceSeq }

end Octos.Fleet
