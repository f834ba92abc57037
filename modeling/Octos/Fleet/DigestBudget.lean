/-
# `Octos.Fleet.DigestBudget` — what the budget cuts, and what it declares

`enforce_budget` looks for the first section that is not empty and never empties
one: all its passes cut the same section, which after `i` passes has its first
`n / 2 ^ i` items left (`shorten`).  A pass over a section of two items or more
makes the digest smaller, whatever the items are, since an item is longer than
the record of a cut.  So the loop ends at the first of these lengths that fits,
or at one item (`enforceBudget_shorten`).

The other sections are never cut, a section that had one item is declared with
nothing omitted, and the watermark is filled in after the size was measured.
-/
import Octos.Fleet.DigestStream

namespace Octos.Fleet

/-! ## Sections -/

/-- The sections, in the order of the cuts. -/
inductive DigestSection where
  | costByPath
  | clusterHints
  | stale
  | overturns
  | newFindings
  deriving DecidableEq

namespace DigestSection

/-- The name a cut is declared under. -/
def name : DigestSection → String
  | costByPath => "cost_by_path"
  | clusterHints => "cluster_hints"
  | stale => "stale"
  | overturns => "overturns"
  | newFindings => "new_findings"

/-- In the order of the cuts. -/
def all : List DigestSection :=
  [costByPath, clusterHints, stale, overturns, newFindings]

end DigestSection

namespace Digest

/-- How many items a section holds. -/
def len (d : Digest) : DigestSection → Nat
  | .costByPath => d.costByPath.length
  | .clusterHints => d.clusterHints.length
  | .stale => d.stale.length
  | .overturns => d.overturns.length
  | .newFindings => d.newFindings.length

/-- The digest with the first `k` items of a section. -/
def takeSection (d : Digest) (k : Nat) : DigestSection → Digest
  | .costByPath => { d with costByPath := d.costByPath.take k }
  | .clusterHints => { d with clusterHints := d.clusterHints.take k }
  | .stale => { d with stale := d.stale.take k }
  | .overturns => { d with overturns := d.overturns.take k }
  | .newFindings => { d with newFindings := d.newFindings.take k }

/-- The section the next pass cuts. -/
def firstSection (d : Digest) : Option DigestSection :=
  DigestSection.all.find? (fun s => decide (d.len s ≠ 0))

/-- The digest with these cuts declared. -/
def declaring (d : Digest) (dropped : List Dropped) : Digest :=
  { d with dropped := dropped }

/-- One section cut down to `k` items, and declared. -/
def shorten (d : Digest) (s : DigestSection) (k : Nat) : Digest :=
  (d.takeSection k s).declaring [⟨s.name, d.len s - k⟩]

/-- The watermark as `digest` fills it in. -/
def stamped (d : Digest) (since : U64) : Digest :=
  { d with
    watermark := match maxSeq (d.newFindings.map DigestFinding.seq),
        maxSeq (d.overturns.map Overturn.bySeq) with
      | some n, some o => if n ≤ o then o else n
      | some n, none => n
      | none, some o => o
      | none, none => since }

end Digest

variable {d : Digest} {s : DigestSection}

theorem digest_stamped (findings : List Finding) (opts : DigestOptions) :
    digest findings opts =
      (enforceBudget (fullDigest findings opts) opts.maxChars).stamped opts.sinceSeq :=
  rfl

@[simp] theorem len_takeSection (d : Digest) (k : Nat) (s t : DigestSection) :
    (d.takeSection k s).len t = if t = s then min k (d.len t) else d.len t := by
  cases s <;> cases t <;> simp [Digest.takeSection, Digest.len]

theorem len_shorten (d : Digest) (s t : DigestSection) (k : Nat) :
    (d.shorten s k).len t = if t = s then min k (d.len t) else d.len t :=
  len_takeSection d k s t

theorem len_stamped (d : Digest) (since : U64) (t : DigestSection) :
    (d.stamped since).len t = d.len t := by
  cases t <;> rfl

/-- A cut that keeps something does not change which section is next. -/
theorem firstSection_shorten {k : Nat} (hk : 1 ≤ k) (hs : d.firstSection = some s) :
    (d.shorten s k).firstSection = some s := by
  rw [← hs]
  have hsame : (fun t => decide ((d.shorten s k).len t ≠ 0)) = fun t => decide (d.len t ≠ 0) := by
    funext t
    rw [len_shorten, decide_eq_decide]
    split
    · omega
    · exact Iff.rfl
  rw [Digest.firstSection, hsame]
  rfl

theorem len_firstSection (hs : d.firstSection = some s) : d.len s ≠ 0 := by
  simpa using List.find?_some hs

theorem firstSection_none (h : d.firstSection = none) (t : DigestSection) : d.len t = 0 := by
  have hall := List.find?_eq_none.mp h t (by cases t <;> decide)
  simpa using hall

/-- **One pass**: the first section that is not empty keeps its older half. -/
theorem trim_firstSection (d : Digest) :
    trim d = d.firstSection.map (fun s =>
      (d.takeSection (keepCount (d.len s)) s).declaring
        (declareDropped s.name (d.len s - keepCount (d.len s)) d.dropped)) := by
  simp only [trim, Digest.firstSection, DigestSection.all, List.find?_cons, List.find?_nil, cut,
    Digest.len]
  split_ifs with h₁ h₂ h₃ h₄ h₅
  all_goals simp_all [Digest.takeSection, Digest.declaring, DigestSection.name, List.length_eq_zero_iff]

/-- What a pass makes of a section that was cut before. -/
theorem trim_shorten {k : Nat} (hk : 1 ≤ k) (hkn : k ≤ d.len s) (hs : d.firstSection = some s) :
    trim (d.shorten s k) = some (d.shorten s (keepCount k)) := by
  have hlen : (d.shorten s k).len s = k := by
    rw [len_shorten, if_pos rfl]
    omega
  have hkeep : keepCount k ≤ k := by
    unfold keepCount
    split <;> omega
  have homitted : d.len s - k + (k - keepCount k) = d.len s - keepCount k := by omega
  rw [trim_firstSection, firstSection_shorten hk hs, Option.map_some, hlen]
  have hdropped : declareDropped s.name (k - keepCount k) (d.shorten s k).dropped =
      [⟨s.name, d.len s - keepCount k⟩] := by
    simp [Digest.shorten, Digest.declaring, declareDropped, modifyFirst, homitted]
  rw [hdropped]
  have htake : (d.shorten s k).takeSection (keepCount k) s =
      (d.takeSection (keepCount k) s).declaring [⟨s.name, d.len s - k⟩] := by
    cases s <;> simp [Digest.shorten, Digest.declaring, Digest.takeSection, List.take_take,
      Nat.min_eq_left hkeep]
  rw [htake]
  rfl

/-- The first pass. -/
theorem trim_fresh (hd : d.dropped = []) (hs : d.firstSection = some s) :
    trim d = some (d.shorten s (keepCount (d.len s))) := by
  rw [trim_firstSection, hs, Option.map_some, hd]
  rfl

/-! ## Sizes -/

theorem numberSize_pos (n : Nat) : 1 ≤ numberSize n :=
  Nat.length_toDigits_pos

theorem numberSize_succ (n : Nat) : numberSize (n + 1) ≤ numberSize n + 1 := by
  have hlt : n < 10 ^ numberSize n :=
    (Nat.length_toDigits_le_iff (by decide) (numberSize_pos n)).mp (Nat.le_refl _)
  refine (Nat.length_toDigits_le_iff (by decide) (Nat.succ_pos _)).mpr ?_
  have hpow : 10 ^ (numberSize n + 1) = 10 * 10 ^ numberSize n := Nat.pow_succ'
  omega

/-- A count grows faster than its digits. -/
theorem numberSize_add (n r : Nat) : numberSize (n + r) ≤ numberSize n + r := by
  induction r with
  | zero => exact Nat.le_refl _
  | succ r ih =>
      have hstep := numberSize_succ (n + r)
      rw [← Nat.add_assoc]
      omega

/-- The items that are left out of an array, at `b` bytes or more each. -/
theorem arraySize_take {α : Type} {size : α → Nat} {b : Nat} (hb : ∀ x, b ≤ size x) {v : List α}
    {k : Nat} (hk : 1 ≤ k) (hkn : k ≤ v.length) :
    arraySize ((v.take k).map size) + (b + 1) * (v.length - k) ≤ arraySize (v.map size) := by
  have hdrop : b * (v.drop k).length ≤ ((v.drop k).map size).sum := by
    rw [Nat.mul_comm]
    have hsum := List.card_nsmul_le_sum ((v.drop k).map size) b
    simp only [List.length_map, smul_eq_mul] at hsum
    refine hsum ?_
    intro x hx
    obtain ⟨y, -, rfl⟩ := List.mem_map.mp hx
    exact hb y
  have hsum : (v.map size).sum = ((v.take k).map size).sum + ((v.drop k).map size).sum := by
    rw [← List.sum_append, ← List.map_append, List.take_append_drop]
  rw [List.length_drop] at hdrop
  rw [Nat.add_mul, Nat.one_mul]
  simp only [arraySize, List.length_map, List.length_take, Nat.min_eq_left hkn, hsum]
  omega

theorem stringSize_pos (text : String) : 2 ≤ stringSize text :=
  Nat.le_add_right _ _

/-- Every item is longer than the record of its own cut. -/
theorem PathCost.le_size (c : PathCost) : 44 ≤ c.size := by
  have hpath := stringSize_pos c.path
  have htokens := numberSize_pos c.tokens.toNat
  simp only [PathCost.size, objectSize, arraySize, List.map_cons, List.map_nil, List.sum_cons,
    List.sum_nil, List.length_cons, List.length_nil]
  have hkeys : stringSize "path" = 6 ∧ stringSize "tokens" = 8 ∧ stringSize "findings" = 10 ∧
      stringSize "confirmed" = 11 ∧ stringSize "ruled_out" = 11 := by decide
  omega

theorem ClusterHint.le_size (h : ClusterHint) : 44 ≤ h.size := by
  have hcomponent := stringSize_pos h.component
  simp only [ClusterHint.size, objectSize, arraySize, List.map_cons, List.map_nil, List.sum_cons,
    List.sum_nil, List.length_cons, List.length_nil]
  have hkeys : stringSize "component" = 11 ∧ stringSize "paths" = 7 ∧
      stringSize "finding_ids" = 13 := by decide
  omega

theorem StaleFinding.le_size (f : StaleFinding) : 44 ≤ f.size := by
  have hid := stringSize_pos f.id
  have hclaim := stringSize_pos f.claim
  have hcomponent := stringSize_pos f.component
  simp only [StaleFinding.size, objectSize, arraySize, List.map_cons, List.map_nil, List.sum_cons,
    List.sum_nil, List.length_cons, List.length_nil]
  have hkeys : stringSize "id" = 4 ∧ stringSize "claim" = 7 ∧ stringSize "component" = 11 ∧
      stringSize "drifted" = 9 := by decide
  omega

theorem Overturn.le_size (o : Overturn) : 44 ≤ o.size := by
  have hby := stringSize_pos o.byId
  simp only [Overturn.size, objectSize, arraySize, List.map_cons, List.map_nil, List.sum_cons,
    List.sum_nil, List.length_cons, List.length_nil]
  have hkeys : stringSize "by" = 4 ∧ stringSize "by_seq" = 8 ∧ stringSize "overturned" = 12 ∧
      stringSize "old_claim" = 11 ∧ stringSize "new_claim" = 11 := by decide
  omega

theorem DigestFinding.le_size (f : DigestFinding) : 44 ≤ f.size := by
  have hid := stringSize_pos f.id
  simp only [DigestFinding.size, objectSize, arraySize, List.map_cons, List.map_nil, List.sum_cons,
    List.sum_nil, List.length_cons, List.length_nil]
  have hkeys : stringSize "id" = 4 ∧ stringSize "seq" = 5 ∧ stringSize "claim" = 7 ∧
      stringSize "status" = 8 ∧ stringSize "component" = 11 ∧ stringSize "task_id" = 9 := by decide
  omega

/-- The record of a cut, but for its number. -/
theorem dropped_size (s : DigestSection) :
    ∃ c ≤ 38, ∀ omitted, Dropped.size ⟨s.name, omitted⟩ = c + numberSize omitted := by
  have hkeys : stringSize "section" = 9 ∧ stringSize "omitted" = 9 := by decide
  have hname : stringSize s.name ≤ 15 := by cases s <;> decide
  refine ⟨23 + stringSize s.name, by omega, ?_⟩
  intro omitted
  simp only [Dropped.size, objectSize, arraySize, List.map_cons, List.map_nil, List.sum_cons,
    List.sum_nil, List.length_cons, List.length_nil]
  omega

/-- The parts of the size. -/
theorem size_parts : ∃ c, ∀ d : Digest, d.size = c +
    arraySize (d.newFindings.map DigestFinding.size) + arraySize (d.overturns.map Overturn.size) +
    arraySize (d.stale.map StaleFinding.size) + arraySize (d.clusterHints.map ClusterHint.size) +
    arraySize (d.costByPath.map PathCost.size) + arraySize (d.dropped.map Dropped.size) +
    numberSize d.watermark.toNat := by
  refine ⟨8 + (["new_findings", "overturns", "stale", "cluster_hints", "cost_by_path", "dropped",
    "watermark"].map (fun key => stringSize key + 1)).sum, ?_⟩
  intro d
  have harray : ∀ a b c e f g h : Nat, arraySize [a, b, c, e, f, g, h] =
      8 + (a + (b + (c + (e + (f + (g + h)))))) := by
    intro a b c e f g h
    simp only [arraySize, List.sum_cons, List.sum_nil, List.length_cons, List.length_nil]
    omega
  simp only [Digest.size, objectSize, List.map_cons, List.map_nil, List.sum_cons, List.sum_nil, harray]
  omega

theorem size_takeSection {k : Nat} (hk : 1 ≤ k) (hkn : k ≤ d.len s) :
    (d.takeSection k s).size + 45 * (d.len s - k) ≤ d.size := by
  obtain ⟨c, hsize⟩ := size_parts
  rw [hsize, hsize]
  cases s with
  | costByPath =>
      have htake := arraySize_take PathCost.le_size hk hkn
      simp only [Digest.takeSection, Digest.len]
      omega
  | clusterHints =>
      have htake := arraySize_take ClusterHint.le_size hk hkn
      simp only [Digest.takeSection, Digest.len]
      omega
  | stale =>
      have htake := arraySize_take StaleFinding.le_size hk hkn
      simp only [Digest.takeSection, Digest.len]
      omega
  | overturns =>
      have htake := arraySize_take Overturn.le_size hk hkn
      simp only [Digest.takeSection, Digest.len]
      omega
  | newFindings =>
      have htake := arraySize_take DigestFinding.le_size hk hkn
      simp only [Digest.takeSection, Digest.len]
      omega

theorem size_dropped (d : Digest) (dropped : List Dropped) :
    (d.declaring dropped).size + 2 = (d.declaring []).size + arraySize (dropped.map Dropped.size) := by
  obtain ⟨c, hsize⟩ := size_parts
  have hnil : arraySize (([] : List Dropped).map Dropped.size) = 2 := rfl
  rw [hsize, hsize]
  simp only [Digest.declaring, hnil]
  omega

/-- The size of a shortened digest. -/
theorem size_shorten (d : Digest) (s : DigestSection) :
    ∃ c ≤ 38, ∀ k, (d.shorten s k).size =
      ((d.takeSection k s).declaring []).size + c + numberSize (d.len s - k) := by
  obtain ⟨c, hc, hsize⟩ := dropped_size s
  refine ⟨c, hc, ?_⟩
  intro k
  have hdropped := size_dropped (d.takeSection k s) [⟨s.name, d.len s - k⟩]
  have harray : arraySize ([(⟨s.name, d.len s - k⟩ : Dropped)].map Dropped.size) =
      2 + (c + numberSize (d.len s - k)) := by
    rw [← hsize]
    rfl
  rw [harray] at hdropped
  show ((d.takeSection k s).declaring [⟨s.name, d.len s - k⟩]).size = _
  omega

/-- A further cut makes it smaller. -/
theorem shorten_smaller {k j : Nat} (hj : 1 ≤ j) (hjk : j < k) (hkn : k ≤ d.len s) :
    (d.shorten s j).size < (d.shorten s k).size := by
  obtain ⟨c, -, hsize⟩ := size_shorten d s
  have htwice : ((d.takeSection k s).declaring []).takeSection j s = (d.takeSection j s).declaring [] := by
    cases s <;> simp [Digest.takeSection, Digest.declaring, List.take_take,
      Nat.min_eq_left (Nat.le_of_lt hjk)]
  have hlen : ((d.takeSection k s).declaring []).len s = k := by
    show (d.takeSection k s).len s = k
    rw [len_takeSection, if_pos rfl]
    omega
  have htake := @size_takeSection ((d.takeSection k s).declaring []) s j hj (by omega)
  rw [htwice, hlen] at htake
  have hdigits := numberSize_add (d.len s - k) (k - j)
  have hsub : d.len s - k + (k - j) = d.len s - j := by omega
  rw [hsub] at hdigits
  rw [hsize, hsize]
  omega

/-- The first cut makes the digest smaller. -/
theorem shorten_smaller_fresh {k : Nat} (hd : d.dropped = []) (hk : 1 ≤ k) (hkn : k < d.len s) :
    (d.shorten s k).size < d.size := by
  obtain ⟨c, hc, hsize⟩ := size_shorten d s
  have htake := size_takeSection hk (Nat.le_of_lt hkn)
  have hsame : ((d.takeSection k s).declaring []).size = (d.takeSection k s).size := by
    have hdropped : (d.takeSection k s).dropped = [] := by
      cases s <;> exact hd
    rw [← hdropped]
    rfl
  have hone : numberSize 0 = 1 := rfl
  have hdigits := numberSize_add 0 (d.len s - k)
  rw [Nat.zero_add, hone] at hdigits
  rw [hsize, hsame]
  omega

/-! ## The loop -/

section Loop

variable {maxChars : Nat}

/-- From a shortened digest the loop halves on until it fits or one item is left. -/
theorem enforceBudget_shorten (hs : d.firstSection = some s) : ∀ k, 1 ≤ k → k ≤ d.len s →
    ∃ i, 1 ≤ k / 2 ^ i ∧ enforceBudget (d.shorten s k) maxChars = d.shorten s (k / 2 ^ i) ∧
      (∀ j < i, maxChars < (d.shorten s (k / 2 ^ j)).size) ∧
      ((d.shorten s (k / 2 ^ i)).size ≤ maxChars ∨ k / 2 ^ i = 1) := by
  intro k
  induction k using Nat.strong_induction_on with
  | _ k ih =>
      intro hk hkn
      have hnow : k / 2 ^ 0 = k := Nat.div_one k
      by_cases hfits : (d.shorten s k).size ≤ maxChars
      · refine ⟨0, ?_, ?_, ?_, ?_⟩
        · rwa [hnow]
        · rw [hnow, enforceBudget_eq, if_pos hfits]
        · intro j hj
          omega
        · rw [hnow]
          exact Or.inl hfits
      · by_cases hone : k = 1
        · subst hone
          refine ⟨0, Nat.le_refl _, ?_, ?_, Or.inr rfl⟩
          · rw [enforceBudget_eq, if_neg hfits, trim_shorten hk hkn hs]
            exact if_pos (Nat.le_refl _)
          · intro j hj
            omega
        · have hkeep : keepCount k = k / 2 := if_neg hone
          have hsmaller : (d.shorten s (k / 2)).size < (d.shorten s k).size :=
            shorten_smaller (by omega) (by omega) hkn
          obtain ⟨i, hi, hloop, hover, hend⟩ := ih (k / 2) (by omega) (by omega) (by omega)
          have hhalf : ∀ j, k / 2 / 2 ^ j = k / 2 ^ (j + 1) := by
            intro j
            rw [Nat.div_div_eq_div_mul, Nat.pow_succ']
          rw [hhalf] at hi hloop hend
          refine ⟨i + 1, hi, ?_, ?_, hend⟩
          · rw [enforceBudget_eq, if_neg hfits, trim_shorten hk hkn hs, hkeep]
            show (if (d.shorten s k).size ≤ (d.shorten s (k / 2)).size then _ else _) = _
            rw [if_neg (by omega)]
            exact hloop
          · intro j hj
            cases j with
            | zero =>
                rw [hnow]
                omega
            | succ j =>
                rw [← hhalf]
                exact hover j (by omega)

/-- A digest over the budget whose first section has one item: the item stays,
and its section is declared. -/
theorem enforceBudget_one (hd : d.dropped = []) (hs : d.firstSection = some s) (hone : d.len s = 1)
    (hover : maxChars < d.size) : enforceBudget d maxChars = d.shorten s 1 := by
  have hkeep : keepCount (d.len s) = 1 := by
    rw [hone]
    rfl
  rw [enforceBudget_eq, if_neg (by omega), trim_fresh hd hs, hkeep]
  show (if d.size ≤ (d.shorten s 1).size then d.shorten s 1 else _) = _
  split
  · rfl
  · obtain ⟨i, hi, hloop, -, -⟩ := @enforceBudget_shorten d s maxChars hs 1 (Nat.le_refl _)
      (by omega)
    have hdiv : 1 / 2 ^ i = 1 := by
      have hle := Nat.div_le_self 1 (2 ^ i)
      omega
    rw [hloop, hdiv]

/-- **Over the budget**: the first section is halved until the digest fits or one
item is left. -/
theorem enforceBudget_over (hd : d.dropped = []) (hs : d.firstSection = some s) (hn : 2 ≤ d.len s)
    (hover : maxChars < d.size) :
    ∃ i, 1 ≤ i ∧ 2 ^ i ≤ d.len s ∧ enforceBudget d maxChars = d.shorten s (d.len s / 2 ^ i) ∧
      (∀ j, 1 ≤ j → j < i → maxChars < (d.shorten s (d.len s / 2 ^ j)).size) ∧
      ((d.shorten s (d.len s / 2 ^ i)).size ≤ maxChars ∨ d.len s / 2 ^ i = 1) := by
  have hkeep : keepCount (d.len s) = d.len s / 2 := if_neg (by omega)
  have hsmaller : (d.shorten s (d.len s / 2)).size < d.size :=
    shorten_smaller_fresh hd (by omega) (by omega)
  obtain ⟨i, hi, hloop, hbig, hend⟩ := @enforceBudget_shorten d s maxChars hs (d.len s / 2)
    (by omega) (by omega)
  have hhalf : ∀ j, d.len s / 2 / 2 ^ j = d.len s / 2 ^ (j + 1) := by
    intro j
    rw [Nat.div_div_eq_div_mul, Nat.pow_succ']
  rw [hhalf] at hi hloop hend
  refine ⟨i + 1, by omega, ?_, ?_, ?_, hend⟩
  · exact (Nat.div_pos_iff.mp hi).2
  · rw [enforceBudget_eq, if_neg (by omega), trim_fresh hd hs, hkeep]
    show (if d.size ≤ (d.shorten s (d.len s / 2)).size then _ else _) = _
    rw [if_neg (by omega)]
    exact hloop
  · intro j hj hji
    have hprev := hbig (j - 1) (by omega)
    rw [hhalf, Nat.sub_add_cancel hj] at hprev
    exact hprev

end Loop

/-! ## The ceiling and the declared cuts -/

/-- Within the ceiling, or at the floor: one item a section. -/
def Digest.Within (d : Digest) (maxChars : Nat) : Prop :=
  d.size ≤ maxChars ∨ ∀ s, d.len s ≤ 1

/-- Each section declares what it lost, and nothing else. -/
def Digest.Declares (d full : Digest) : Prop :=
  ∀ s : DigestSection, d.dropped.filter (fun r => r.name == s.name) =
    if full.len s - d.len s = 0 then [] else [⟨s.name, full.len s - d.len s⟩]

/-- Halving the section `s`, item counts `n / 2`, `n / 4` and so on, ends well: at
the first count that fits, the digest fits with its watermark too, or one item is
left there and no other section has more. -/
def Digest.HalvingFits (full : Digest) (s : DigestSection) (since : U64) (maxChars : Nat) : Prop :=
  ∃ i, 1 ≤ i ∧ 2 ^ i ≤ full.len s ∧
    (∀ j, 1 ≤ j → j < i → maxChars < (full.shorten s (full.len s / 2 ^ j)).size) ∧
    (((full.shorten s (full.len s / 2 ^ i)).stamped since).size ≤ maxChars ∨
      full.len s / 2 ^ i = 1 ∧ ∀ t, t ≠ s → full.len t ≤ 1)

/-- The uncut view can be brought under the ceiling by its first section alone. -/
def Digest.Trimmable (full : Digest) (since : U64) (maxChars : Nat) : Prop :=
  ∀ s, full.firstSection = some s →
    (full.size ≤ maxChars ∧ (full.stamped since).Within maxChars) ∨
    (maxChars < full.size ∧ full.HalvingFits s since maxChars)

theorem DigestSection.name_inj {s t : DigestSection} (h : s.name = t.name) : s = t := by
  cases s <;> cases t <;> first | rfl | exact absurd h (by decide)

/-- A digest whose watermark is still zero does not get shorter by it. -/
theorem size_stamped (h : d.watermark = 0) (since : U64) : d.size ≤ (d.stamped since).size := by
  obtain ⟨c, hsize⟩ := size_parts
  have hpos := numberSize_pos (d.stamped since).watermark.toNat
  have hzero : numberSize d.watermark.toNat = 1 := by
    rw [h]
    rfl
  rw [hsize, hsize (d.stamped since)]
  simp only [Digest.stamped] at hpos ⊢
  omega

theorem watermark_shorten (d : Digest) (s : DigestSection) (k : Nat) :
    (d.shorten s k).watermark = d.watermark := by
  cases s <;> rfl

/-- A shortened section is declared truthfully when it lost something. -/
theorem declares_shorten {k : Nat} (hkn : k ≤ d.len s) (since : U64) :
    ((d.shorten s k).stamped since).Declares d ↔ k < d.len s := by
  have hself : ((d.shorten s k).stamped since).dropped = [⟨s.name, d.len s - k⟩] := rfl
  have hlen : ∀ t, ((d.shorten s k).stamped since).len t = if t = s then min k (d.len t) else d.len t := by
    intro t
    rw [len_stamped, len_shorten]
  constructor
  · intro h
    have hs := h s
    rw [hself, hlen, if_pos rfl, Nat.min_eq_left hkn] at hs
    by_contra hlt
    rw [if_pos (by omega)] at hs
    simp at hs
  · intro hlt t
    rw [hself, hlen]
    by_cases hts : t = s
    · subst hts
      rw [if_pos rfl, Nat.min_eq_left hkn, if_neg (by omega)]
      simp
    · have hname : s.name ≠ t.name := fun h => hts (DigestSection.name_inj h).symm
      rw [if_neg hts, Nat.sub_self, if_pos rfl]
      simp [hname]

/-- When a shortened digest is within the ceiling. -/
theorem within_shorten {k : Nat} (hk : 1 ≤ k) (hkn : k ≤ d.len s) (since : U64) (maxChars : Nat) :
    ((d.shorten s k).stamped since).Within maxChars ↔
      ((d.shorten s k).stamped since).size ≤ maxChars ∨ k = 1 ∧ ∀ t, t ≠ s → d.len t ≤ 1 := by
  have hlen : ∀ t, ((d.shorten s k).stamped since).len t = if t = s then min k (d.len t) else d.len t := by
    intro t
    rw [len_stamped, len_shorten]
  refine or_congr Iff.rfl ?_
  constructor
  · intro h
    refine ⟨?_, ?_⟩
    · have hs := h s
      rw [hlen, if_pos rfl] at hs
      omega
    · intro t ht
      have hone := h t
      rwa [hlen, if_neg ht] at hone
  · rintro ⟨rfl, hothers⟩ t
    rw [hlen]
    split
    · omega
    · next ht => exact hothers t ht

/-- A digest that nothing was cut from. -/
theorem declares_uncut (hd : d.dropped = []) (since : U64) : (d.stamped since).Declares d := by
  intro s
  have hdropped : (d.stamped since).dropped = [] := hd
  rw [hdropped, len_stamped, Nat.sub_self, if_pos rfl]
  rfl

/-- Over the ceiling, and a section to cut. -/
theorem enforceBudget_keeps_over {full : Digest} {maxChars : Nat} (hd : full.dropped = [])
    (hw : full.watermark = 0) (since : U64) (hs : full.firstSection = some s)
    (hover : maxChars < full.size) :
    ((enforceBudget full maxChars).stamped since).Within maxChars ∧
        ((enforceBudget full maxChars).stamped since).Declares full ↔
      full.HalvingFits s since maxChars := by
  have hne := len_firstSection hs
  by_cases hone : full.len s = 1
  · -- one item: it stays, and a cut of nothing is declared
    rw [enforceBudget_one hd hs hone hover]
    constructor
    · rintro ⟨-, hdeclares⟩
      have hlt := (declares_shorten (Nat.le_of_eq hone.symm) since).mp hdeclares
      omega
    · rintro ⟨i, hi, hpow, -, -⟩
      have htwo : 2 ^ 1 ≤ 2 ^ i := Nat.pow_le_pow_right (by decide) hi
      omega
  · obtain ⟨i, hi, hpow, hloop, hbig, hend⟩ := enforceBudget_over hd hs (by omega) hover
    have hlt : full.len s / 2 ^ i < full.len s :=
      Nat.div_lt_self (by omega) (Nat.one_lt_two_pow (by omega))
    have hpos : 1 ≤ full.len s / 2 ^ i := Nat.div_pos hpow (Nat.two_pow_pos i)
    rw [hloop, declares_shorten (Nat.le_of_lt hlt), within_shorten hpos (Nat.le_of_lt hlt)]
    constructor
    · rintro ⟨hwithin, -⟩
      exact ⟨i, hi, hpow, hbig, hwithin⟩
    · rintro ⟨m, hm, hmpow, hmbig, hmend⟩
      -- both are the first count that fits, so they are the same
      have hfits : (full.shorten s (full.len s / 2 ^ m)).size ≤ maxChars ∨ full.len s / 2 ^ m = 1 := by
        refine hmend.imp (fun h => ?_) (fun h => h.1)
        exact Nat.le_trans (size_stamped ((watermark_shorten _ _ _).trans hw) since) h
      have hgone : ∀ {a b : Nat}, a < b → full.len s / 2 ^ a = 1 → full.len s < 2 ^ b := by
        intro a b hab ha
        have hlt : full.len s < 2 ^ a * (1 + 1) := by
          have h := Nat.lt_mul_div_succ (full.len s) (Nat.two_pow_pos a)
          rwa [ha] at h
        have hle : 2 ^ (a + 1) ≤ 2 ^ b := Nat.pow_le_pow_right (by decide) hab
        rw [Nat.pow_succ] at hle
        omega
      have heq : m = i := by
        rcases Nat.lt_trichotomy m i with hlt | heq | hlt
        · have hm_big := hbig m hm hlt
          have hm_one := hfits.resolve_left (by omega)
          have := hgone hlt hm_one
          omega
        · exact heq
        · have hi_big := hmbig i hi hlt
          have hi_one := hend.resolve_left (by omega)
          have := hgone hlt hi_one
          omega
      subst heq
      exact ⟨hmend, hlt⟩

/-- **The ceiling and the declared cuts**: `digest` is within its ceiling, or at
the floor of one item a section, and declares each cut, exactly when the uncut
view can be brought under the ceiling by cutting the section that comes first. -/
theorem digest_within_and_declares (findings : List Finding) (opts : DigestOptions) :
    (digest findings opts).Within opts.maxChars ∧
        (digest findings opts).Declares (fullDigest findings opts) ↔
      (fullDigest findings opts).Trimmable opts.sinceSeq opts.maxChars := by
  rw [digest_stamped]
  generalize hfull : fullDigest findings opts = full
  have hd : full.dropped = [] := by
    rw [← hfull]
    rfl
  have hw : full.watermark = 0 := by
    rw [← hfull]
    rfl
  by_cases hfits : full.size ≤ opts.maxChars
  · -- nothing is cut
    have huncut : enforceBudget full opts.maxChars = full := by
      rw [enforceBudget_eq, if_pos hfits]
    rw [huncut]
    constructor
    · rintro ⟨hwithin, -⟩ s -
      exact Or.inl ⟨hfits, hwithin⟩
    · intro h
      refine ⟨?_, declares_uncut hd _⟩
      cases hs : full.firstSection with
      | none =>
          refine Or.inr ?_
          intro s
          rw [len_stamped, firstSection_none hs]
          exact Nat.zero_le _
      | some s => exact ((h s hs).resolve_right (fun hover => by omega)).2
  · have hover : opts.maxChars < full.size := by omega
    cases hs : full.firstSection with
    | none =>
        -- there is nothing to cut
        have hempty : enforceBudget full opts.maxChars = full := by
          rw [enforceBudget_eq, if_neg hfits, trim_firstSection, hs]
          rfl
        rw [hempty]
        refine ⟨fun _ s h => ?_, fun _ => ⟨Or.inr ?_, declares_uncut hd _⟩⟩
        · rw [hs] at h
          cases h
        · intro s
          rw [len_stamped, firstSection_none hs]
          exact Nat.zero_le _
    | some s =>
        rw [enforceBudget_keeps_over hd hw _ hs hover]
        constructor
        · intro h t ht
          obtain rfl : s = t := Option.some.inj (hs.symm.trans ht)
          exact Or.inr ⟨hover, h⟩
        · intro h
          exact ((h s hs).resolve_left (fun hle => by omega)).2

/-- Two findings of one path. -/
def onePathLog : List Finding :=
  [{ sampleFinding 1 "f-1" [] with taskId := some "p" },
    { sampleFinding 2 "f-2" [] with taskId := some "p" }]

/-- With a budget of 100 characters the one cost row is declared with nothing
omitted, and both findings stay. -/
theorem digest_over_budget :
    ¬ (digest onePathLog (sampleOptions 100)).Within 100 ∧
      ¬ (digest onePathLog (sampleOptions 100)).Declares (fullDigest onePathLog (sampleOptions 100)) := by
  refine ⟨?_, ?_⟩
  · have hsize : ¬ (digest onePathLog (sampleOptions 100)).size ≤ 100 := by decide
    have hlen : (digest onePathLog (sampleOptions 100)).len .newFindings = 2 := by rfl
    intro hwithin
    rcases hwithin with hle | hone
    · exact hsize hle
    · have hle := hone .newFindings
      omega
  · have hfilter : (digest onePathLog (sampleOptions 100)).dropped.filter
        (fun r => r.name == DigestSection.costByPath.name) = [⟨"cost_by_path", 0⟩] := by
      rfl
    have hlen : (fullDigest onePathLog (sampleOptions 100)).len .costByPath -
        (digest onePathLog (sampleOptions 100)).len .costByPath = 0 := by
      rfl
    intro hdeclares
    have hnone := hdeclares .costByPath
    rw [hfilter, if_pos hlen] at hnone
    cases hnone

end Octos.Fleet
