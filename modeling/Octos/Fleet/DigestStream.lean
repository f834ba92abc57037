/-
# `Octos.Fleet.DigestStream` — what repeated digests deliver

A controller reads the log by calling `digest` with the last watermark until it
stops advancing (`Streams`).  Two sequences are streamed under that one
watermark: the live findings and the overturn edges.

A call is lossless if it delivered exactly what lies up to its watermark
(`Lossless`); if every call is, the whole stream delivers everything once
(`Streams.delivers`).  The loop of the budget leaves both streams alone while
any of the aggregates is there, and cuts the findings only when there are no
edges; both are lossless.  Cutting the edges is not: the findings of the same
call carry the watermark past the cut.
-/
import Octos.Fleet.Digest

namespace Octos.Fleet

variable {findings : List Finding} {opts : DigestOptions} {w : U64} {d d' : Digest}

/-- The call at a watermark. -/
def digestAt (findings : List Finding) (opts : DigestOptions) (w : U64) : Digest :=
  digest findings { opts with sinceSeq := w }

def fullAt (findings : List Finding) (opts : DigestOptions) (w : U64) : Digest :=
  fullDigest findings { opts with sinceSeq := w }

/-- The calls from a watermark on: each one advances it, the last does not. -/
inductive Streams (findings : List Finding) (opts : DigestOptions) : U64 → List Digest → Prop
  | stop {w : U64} (h : (digestAt findings opts w).watermark = w) :
      Streams findings opts w [digestAt findings opts w]
  | next {w : U64} {ds : List Digest} (h : w < (digestAt findings opts w).watermark)
      (hrest : Streams findings opts (digestAt findings opts w).watermark ds) :
      Streams findings opts w (digestAt findings opts w :: ds)

/-! ## What the budget does to the two streams -/

/-- A cut keeps a non-empty beginning. -/
theorem cut_fst {α : Type} {v : List α} (name : String) (dropped : List Dropped) (hv : v ≠ []) :
    ∃ k, 1 ≤ k ∧ k ≤ v.length ∧ (cut v name dropped).1 = v.take k ∧
      (2 ≤ v.length → k < v.length) := by
  have hlen : v.length ≠ 0 := fun h => hv (List.length_eq_zero_iff.mp h)
  have hne : v.isEmpty = false := by simpa using hv
  refine ⟨keepCount v.length, ?_, ?_, by simp [cut, hne], ?_⟩ <;>
    unfold keepCount <;> split <;> omega

/-- The aggregates of a view are gone. -/
def Digest.Bare (d : Digest) : Prop :=
  d.costByPath = [] ∧ d.clusterHints = [] ∧ d.stale = []

/-- A later state of the loop: the aggregates never run out, the edges are cut
only without aggregates, the findings only without edges. -/
structure Trimmed (d d' : Digest) : Prop where
  bare : d'.Bare ↔ d.Bare
  overturns : d'.overturns = d.overturns ∨ d.Bare ∧ d.overturns ≠ [] ∧
    ∃ k, 1 ≤ k ∧ k ≤ d.overturns.length ∧ d'.overturns = d.overturns.take k
  newFindings : d'.newFindings = d.newFindings ∨
    d.overturns = [] ∧ d.newFindings ≠ [] ∧
      ∃ k, 1 ≤ k ∧ k ≤ d.newFindings.length ∧ d'.newFindings = d.newFindings.take k

theorem Trimmed.refl (d : Digest) : Trimmed d d :=
  ⟨Iff.rfl, Or.inl rfl, Or.inl rfl⟩

theorem take_ne_nil {α : Type} {l : List α} {k : Nat} (hk : 1 ≤ k) (hl : l ≠ []) :
    l.take k ≠ [] := by
  cases l with
  | nil => exact absurd rfl hl
  | cons a l =>
      obtain ⟨k, rfl⟩ : ∃ m, k = m + 1 := ⟨k - 1, by omega⟩
      simp

/-- A beginning of a beginning. -/
theorem take_take_exists {α : Type} {l : List α} {k m : Nat} (hk : 1 ≤ k) (hm : 1 ≤ m)
    (hkl : k ≤ l.length) : ∃ n, 1 ≤ n ∧ n ≤ l.length ∧ (l.take k).take m = l.take n := by
  refine ⟨min m k, by omega, by omega, ?_⟩
  rw [List.take_take]

theorem Trimmed.trans {e : Digest} (h : Trimmed d d') (h' : Trimmed d' e) : Trimmed d e := by
  have hnil : d'.overturns = [] ↔ d.overturns = [] := by
    rcases h.overturns with heq | ⟨-, hne, k, hk, -, heq⟩
    · rw [heq]
    · rw [heq]
      exact ⟨fun h => absurd h (take_ne_nil hk hne), fun h => absurd h hne⟩
  refine ⟨h'.bare.trans h.bare, ?_, ?_⟩
  · rcases h.overturns with heq | ⟨hbare, hne, k, hk, hkl, heq⟩
    · rcases h'.overturns with heq' | ⟨hbare', hne', m, hm, hml, heq'⟩
      · exact Or.inl (heq'.trans heq)
      · rw [heq] at hne' hml heq'
        exact Or.inr ⟨h.bare.mp hbare', hne', m, hm, hml, heq'⟩
    · refine Or.inr ⟨hbare, hne, ?_⟩
      rcases h'.overturns with heq' | ⟨-, -, m, hm, -, heq'⟩
      · exact ⟨k, hk, hkl, heq'.trans heq⟩
      · obtain ⟨n, hn, hnl, heqn⟩ := take_take_exists hk hm hkl
        exact ⟨n, hn, hnl, by rw [heq', heq, heqn]⟩
  · rcases h.newFindings with heq | ⟨hov, hne, k, hk, hkl, heq⟩
    · rcases h'.newFindings with heq' | ⟨hov', hne', m, hm, hml, heq'⟩
      · exact Or.inl (heq'.trans heq)
      · rw [heq] at hne' hml heq'
        exact Or.inr ⟨hnil.mp hov', hne', m, hm, hml, heq'⟩
    · refine Or.inr ⟨hov, hne, ?_⟩
      rcases h'.newFindings with heq' | ⟨-, -, m, hm, -, heq'⟩
      · exact ⟨k, hk, hkl, heq'.trans heq⟩
      · obtain ⟨n, hn, hnl, heqn⟩ := take_take_exists hk hm hkl
        exact ⟨n, hn, hnl, by rw [heq', heq, heqn]⟩

/-- **One pass.** -/
theorem trim_trimmed (h : trim d = some d') : Trimmed d d' := by
  have hkept : ∀ {α : Type} {v : List α} {name : String} {dropped : List Dropped}, v ≠ [] →
      (cut v name dropped).1 ≠ [] := by
    intro α v name dropped hv
    obtain ⟨k, hk, -, heq, -⟩ := cut_fst name dropped hv
    rw [heq]
    exact take_ne_nil hk hv
  unfold trim at h
  split_ifs at h with h₁ h₂ h₃ h₄ h₅
  · obtain rfl := Option.some.inj h
    refine ⟨?_, Or.inl rfl, Or.inl rfl⟩
    exact ⟨fun hb => absurd hb.1 (hkept h₁), fun hb => absurd hb.1 h₁⟩
  · obtain rfl := Option.some.inj h
    refine ⟨?_, Or.inl rfl, Or.inl rfl⟩
    exact ⟨fun hb => absurd hb.2.1 (hkept h₂), fun hb => absurd hb.2.1 h₂⟩
  · obtain rfl := Option.some.inj h
    refine ⟨?_, Or.inl rfl, Or.inl rfl⟩
    exact ⟨fun hb => absurd hb.2.2 (hkept h₃), fun hb => absurd hb.2.2 h₃⟩
  · obtain rfl := Option.some.inj h
    have hbare : d.Bare := ⟨not_not.mp h₁, not_not.mp h₂, not_not.mp h₃⟩
    obtain ⟨k, hk, hkl, heq, -⟩ := cut_fst "overturns" d.dropped h₄
    exact ⟨Iff.rfl, Or.inr ⟨hbare, h₄, k, hk, hkl, heq⟩, Or.inl rfl⟩
  · obtain rfl := Option.some.inj h
    obtain ⟨k, hk, hkl, heq, -⟩ := cut_fst "new_findings" d.dropped h₅
    exact ⟨Iff.rfl, Or.inl rfl, Or.inr ⟨not_not.mp h₄, h₅, k, hk, hkl, heq⟩⟩

theorem enforceLoop_trimmed {maxChars : Nat} : ∀ (n : Nat) (d : Digest),
    Trimmed d (enforceLoop maxChars n d) := by
  intro n
  induction n with
  | zero => exact fun d => .refl d
  | succ n ih =>
      intro d
      rw [enforceLoop]
      split
      · exact .refl d
      · split
        · exact .refl d
        · next d' hd' =>
            split
            · exact trim_trimmed hd'
            · exact (trim_trimmed hd').trans (ih d')

theorem enforceBudget_trimmed (d : Digest) (maxChars : Nat) :
    Trimmed d (enforceBudget d maxChars) :=
  enforceLoop_trimmed _ d

/-- A bare view that does not fit loses edges, if it has two. -/
theorem enforceBudget_cuts {maxChars : Nat} (hbare : d.Bare) (hsize : maxChars < d.size)
    (hlen : 2 ≤ d.overturns.length) :
    (enforceBudget d maxChars).overturns.length < d.overturns.length := by
  obtain ⟨h₁, h₂, h₃⟩ := hbare
  have h₄ : d.overturns ≠ [] := by
    rintro h
    simp [h] at hlen
  obtain ⟨k, -, -, heq, hlt⟩ := cut_fst "overturns" d.dropped h₄
  have htrim : trim d = some { d with
      overturns := d.overturns.take k, dropped := (cut d.overturns "overturns" d.dropped).2 } := by
    unfold trim
    rw [← heq]
    simp [h₁, h₂, h₃, h₄]
  have hshort : (d.overturns.take k).length < d.overturns.length := by
    rw [List.length_take]
    have := hlt hlen
    omega
  rw [enforceBudget_eq, if_neg (by omega), htrim]
  simp only
  split
  · exact hshort
  · refine lt_of_le_of_lt ?_ hshort
    rcases (enforceBudget_trimmed { d with
        overturns := d.overturns.take k,
        dropped := (cut d.overturns "overturns" d.dropped).2 } maxChars).overturns with
      h | ⟨-, -, m, -, -, h⟩
    · rw [h]
    · rw [h]
      exact (List.take_sublist m _).length_le

/-! ## Watermarks -/

theorem maxSeq_spec (l : List U64) :
    (l = [] ∧ maxSeq l = none) ∨ ∃ m, maxSeq l = some m ∧ m ∈ l ∧ ∀ x ∈ l, x ≤ m := by
  induction l using List.reverseRecOn with
  | nil => exact Or.inl ⟨rfl, rfl⟩
  | append_singleton l a ih =>
      right
      rcases ih with ⟨rfl, hnone⟩ | ⟨m, hm, hmem, hmax⟩
      · exact ⟨a, rfl, by simp, by simp⟩
      · have hsnoc : maxSeq (l ++ [a]) = some (if m ≤ a then a else m) := by
          rw [maxSeq] at hm ⊢
          rw [List.foldl_append, hm]
          rfl
        rw [hsnoc]
        by_cases hle : m ≤ a
        · refine ⟨a, by simp [hle], by simp, ?_⟩
          intro x hx
          rcases List.mem_append.mp hx with hx | hx
          · exact BitVec.le_trans (hmax x hx) hle
          · rw [List.mem_singleton.mp hx]
            exact BitVec.le_refl a
        · refine ⟨m, by simp [hle], by simp [hmem], ?_⟩
          intro x hx
          rcases List.mem_append.mp hx with hx | hx
          · exact hmax x hx
          · rw [List.mem_singleton.mp hx]
            simp only [BitVec.le_def] at hle ⊢
            omega

/-- The sequences a view delivers. -/
def Digest.delivered (d : Digest) : List U64 :=
  d.newFindings.map DigestFinding.seq ++ d.overturns.map Overturn.bySeq

/-- **The watermark** is the largest sequence delivered, or the old one. -/
theorem watermark_spec (findings : List Finding) (opts : DigestOptions) (w : U64) :
    ((digestAt findings opts w).delivered = [] ∧ (digestAt findings opts w).watermark = w) ∨
      (digestAt findings opts w).watermark ∈ (digestAt findings opts w).delivered ∧
        ∀ x ∈ (digestAt findings opts w).delivered, x ≤ (digestAt findings opts w).watermark := by
  generalize hout : enforceBudget (fullAt findings opts w) opts.maxChars = out
  have hbudget : enforceBudget (fullDigest findings { opts with sinceSeq := w }) opts.maxChars = out := hout
  simp only [Digest.delivered, digestAt, digest, hbudget]
  rcases maxSeq_spec (out.newFindings.map DigestFinding.seq) with
    ⟨hn, hmn⟩ | ⟨n, hmn, hnmem, hnmax⟩
  · rcases maxSeq_spec (out.overturns.map Overturn.bySeq) with
      ⟨ho, hmo⟩ | ⟨o, hmo, homem, homax⟩
    · left
      rw [hmn, hmo, hn, ho]
      exact ⟨rfl, rfl⟩
    · right
      rw [hmn, hmo, hn]
      exact ⟨homem, homax⟩
  · rcases maxSeq_spec (out.overturns.map Overturn.bySeq) with
      ⟨ho, hmo⟩ | ⟨o, hmo, homem, homax⟩
    · right
      rw [hmn, hmo, ho, List.append_nil]
      exact ⟨hnmem, hnmax⟩
    · right
      rw [hmn, hmo]
      simp only
      by_cases hle : n ≤ o
      · rw [if_pos hle]
        refine ⟨List.mem_append_right _ homem, ?_⟩
        intro x hx
        rcases List.mem_append.mp hx with hx | hx
        · exact BitVec.le_trans (hnmax x hx) hle
        · exact homax x hx
      · rw [if_neg hle]
        refine ⟨List.mem_append_left _ hnmem, ?_⟩
        intro x hx
        rcases List.mem_append.mp hx with hx | hx
        · exact hnmax x hx
        · have := homax x hx
          simp only [BitVec.le_def] at this hle ⊢
          omega

theorem digestAt_trimmed (findings : List Finding) (opts : DigestOptions) (w : U64) :
    Trimmed (fullAt findings opts w) (digestAt findings opts w) := by
  have h := enforceBudget_trimmed (fullAt findings opts w) opts.maxChars
  exact ⟨h.bare, h.overturns, h.newFindings⟩

/-! ## The pending items -/

theorem mem_newFindings {x : DigestFinding} :
    x ∈ newFindings findings w ↔ ∃ f ∈ live findings, w < f.seq ∧ f.toDigest = x := by
  rw [newFindings, List.mem_insertionSort]
  simp only [List.mem_map, List.mem_filter, decide_eq_true_eq]
  constructor
  · rintro ⟨f, ⟨hf, hlt⟩, rfl⟩
    exact ⟨f, hf, hlt, rfl⟩
  · rintro ⟨f, hf, hlt, rfl⟩
    exact ⟨f, ⟨hf, hlt⟩, rfl⟩

theorem mem_overturns {o : Overturn} :
    o ∈ overturns findings w ↔ ∃ f ∈ findings, w < f.seq ∧ o ∈ f.edges findings := by
  rw [overturns, List.mem_insertionSort]
  simp only [List.mem_flatMap, List.mem_filter, decide_eq_true_eq, and_assoc]

theorem Finding.edges_bySeq {f : Finding} {o : Overturn} (h : o ∈ f.edges findings) :
    o.bySeq = f.seq := by
  obtain ⟨old, -, rfl⟩ := List.mem_map.mp h
  rfl

theorem mem_of_trimmed {α : Type} {l l' : List α} {P : Prop} {x : α}
    (h : l' = l ∨ P ∧ l ≠ [] ∧ ∃ k, 1 ≤ k ∧ k ≤ l.length ∧ l' = l.take k) (hx : x ∈ l') : x ∈ l := by
  rcases h with rfl | ⟨-, -, k, -, -, rfl⟩
  · exact hx
  · exact List.mem_of_mem_take hx

/-- What is delivered lies past the old watermark, and is the sequence of a
finding. -/
theorem delivered_pending {x : U64} (hx : x ∈ (digestAt findings opts w).delivered) :
    w < x ∧ ∃ f ∈ findings, f.seq = x := by
  have htr := digestAt_trimmed findings opts w
  rcases List.mem_append.mp hx with hx | hx
  · obtain ⟨y, hy, rfl⟩ := List.mem_map.mp hx
    obtain ⟨f, hf, hlt, rfl⟩ := mem_newFindings.mp
      (mem_of_trimmed (l := newFindings findings w) htr.newFindings hy)
    exact ⟨hlt, f, (List.mem_filter.mp hf).1, rfl⟩
  · obtain ⟨o, ho, rfl⟩ := List.mem_map.mp hx
    obtain ⟨f, hf, hlt, hedge⟩ := mem_overturns.mp
      (mem_of_trimmed (l := overturns findings w) htr.overturns ho)
    rw [Finding.edges_bySeq hedge]
    exact ⟨hlt, f, hf, rfl⟩

/-- The findings past a later watermark. -/
theorem pending_later {w w' : U64} (h : w < w') :
    findings.filter (fun f => decide (w' < f.seq)) =
      (findings.filter (fun f => decide (w < f.seq))).filter (fun f => decide (w' < f.seq)) := by
  rw [List.filter_filter]
  refine List.filter_congr ?_
  intro f _
  simp only [BitVec.lt_def] at h
  by_cases hf : w' < f.seq
  · have : w < f.seq := by
      simp only [BitVec.lt_def] at hf ⊢
      omega
    simp [hf, this]
  · simp [hf]

/-- **The stream ends.**  Every call that does not leave the watermark where it
is advances it to the sequence of a finding, and there are finitely many. -/
theorem Streams.exists (findings : List Finding) (opts : DigestOptions) :
    ∀ (n : Nat) (w : U64), (findings.filter (fun f => decide (w < f.seq))).length ≤ n →
      ∃ ds, Streams findings opts w ds := by
  intro n
  induction n with
  | zero =>
      intro w hn
      refine ⟨_, .stop ?_⟩
      rcases watermark_spec findings opts w with ⟨-, hw⟩ | ⟨hmem, -⟩
      · exact hw
      · obtain ⟨hlt, f, hf, heq⟩ := delivered_pending hmem
        have hnil := List.length_eq_zero_iff.mp (Nat.le_zero.mp hn)
        have := List.filter_eq_nil_iff.mp hnil f hf
        rw [heq] at this
        exact absurd (decide_eq_true hlt) this
  | succ n ih =>
      intro w hn
      rcases watermark_spec findings opts w with ⟨-, hw⟩ | ⟨hmem, -⟩
      · exact ⟨_, .stop hw⟩
      · obtain ⟨hlt, f, hf, heq⟩ := delivered_pending hmem
        -- the finding the watermark stops at is no longer pending
        have hless : (findings.filter
            (fun f => decide ((digestAt findings opts w).watermark < f.seq))).length <
              (findings.filter (fun f => decide (w < f.seq))).length := by
          rw [pending_later hlt]
          refine List.length_filter_lt_length_iff_exists.mpr ⟨f, ?_, ?_⟩
          · rw [List.mem_filter, heq]
            exact ⟨hf, decide_eq_true hlt⟩
          · rw [heq]
            simp
        obtain ⟨ds, hds⟩ := ih (digestAt findings opts w).watermark (by omega)
        exact ⟨_, .next hlt hds⟩

/-! ## Lossless calls -/

/-- The call delivered exactly what lies up to its watermark. -/
structure Lossless (findings : List Finding) (opts : DigestOptions) (w : U64) : Prop where
  newFindings : (digestAt findings opts w).newFindings = (Fleet.newFindings findings w).filter
    (fun f => decide (f.seq ≤ (digestAt findings opts w).watermark))
  overturns : (digestAt findings opts w).overturns = (Fleet.overturns findings w).filter
    (fun o => decide (o.bySeq ≤ (digestAt findings opts w).watermark))

/-- The condition on a call: it does not have to cut the edges. -/
def KeepsEdges (findings : List Finding) (opts : DigestOptions) (w : U64) : Prop :=
  ¬ (fullAt findings opts w).Bare ∨ (fullAt findings opts w).size ≤ opts.maxChars ∨
    (overturns findings w).length ≤ 1

theorem KeepsEdges.overturns_eq (h : KeepsEdges findings opts w) :
    (digestAt findings opts w).overturns = overturns findings w := by
  rcases h with hbare | hfits | hone
  · rcases (digestAt_trimmed findings opts w).overturns with heq | ⟨hb, -⟩
    · exact heq
    · exact absurd hb hbare
  · have heq := enforceBudget_eq (fullAt findings opts w) opts.maxChars
    rw [if_pos hfits] at heq
    show (enforceBudget (fullAt findings opts w) opts.maxChars).overturns = _
    rw [heq]
    rfl
  · rcases (digestAt_trimmed findings opts w).overturns with heq | ⟨-, -, k, hk, -, heq⟩
    · exact heq
    · rw [heq]
      exact List.take_of_length_le (le_trans hone hk)

/-- An increasing list is cut at the largest key it keeps. -/
theorem take_eq_filter {α : Type} {key : α → U64} {l : List α}
    (hl : l.Pairwise (fun a b => key a < key b)) {k : Nat} {m : U64}
    (hmem : m ∈ (l.take k).map key) (hmax : ∀ x ∈ (l.take k).map key, x ≤ m) :
    l.take k = l.filter (fun a => decide (key a ≤ m)) := by
  obtain ⟨b, hb, rfl⟩ := List.mem_map.mp hmem
  have hsplit := hl
  rw [← List.take_append_drop k l] at hsplit
  have hkeep : (l.take k).filter (fun a => decide (key a ≤ key b)) = l.take k := by
    refine List.filter_eq_self.mpr ?_
    intro a ha
    exact decide_eq_true (hmax _ (List.mem_map_of_mem ha))
  have hdrop : (l.drop k).filter (fun a => decide (key a ≤ key b)) = [] := by
    refine List.filter_eq_nil_iff.mpr ?_
    intro a ha
    have hlt := (List.pairwise_append.mp hsplit).2.2 b hb a ha
    simp only [decide_eq_true_eq, BitVec.le_def, BitVec.lt_def] at hlt ⊢
    omega
  conv_rhs => rw [← List.take_append_drop k l]
  rw [List.filter_append, hkeep, hdrop, List.append_nil]

theorem newFindings_perm (findings : List Finding) (w : U64) :
    (newFindings findings w).Perm
      (((live findings).filter (fun f => decide (w < f.seq))).map Finding.toDigest) :=
  List.perm_insertionSort _ _

theorem overturns_perm (findings : List Finding) (w : U64) :
    (overturns findings w).Perm
      ((findings.filter (fun f => decide (w < f.seq))).flatMap (Finding.edges findings)) :=
  List.perm_insertionSort _ _

/-- Pending findings are strictly ordered. -/
theorem newFindings_sorted (hseq : (findings.map Finding.seq).Nodup) (w : U64) :
    (newFindings findings w).Pairwise (fun a b => a.seq < b.seq) := by
  have hnd : ((newFindings findings w).map DigestFinding.seq).Nodup := by
    refine ((newFindings_perm findings w).map _).nodup_iff.mpr ?_
    rw [List.map_map]
    exact ((List.filter_sublist.trans List.filter_sublist).map Finding.seq).nodup hseq
  have htotal : Std.Total (fun a b : DigestFinding => a.seq ≤ b.seq) :=
    ⟨fun a b => by simp only [BitVec.le_def]; omega⟩
  have htrans : IsTrans DigestFinding (fun a b => a.seq ≤ b.seq) :=
    ⟨fun _ _ _ h₁ h₂ => BitVec.le_trans h₁ h₂⟩
  have hle : (newFindings findings w).Pairwise (fun a b => a.seq ≤ b.seq) :=
    List.pairwise_insertionSort _ _
  refine (hle.and (List.pairwise_map.mp hnd)).imp ?_
  rintro a b ⟨h₁, h₂⟩
  have hne : a.seq.toNat ≠ b.seq.toNat := fun h => h₂ (BitVec.eq_of_toNat_eq h)
  simp only [BitVec.le_def, BitVec.lt_def] at h₁ ⊢
  omega

/-- A call that delivers nothing had nothing to deliver. -/
theorem pending_nil (h : (digestAt findings opts w).delivered = []) :
    newFindings findings w = [] ∧ overturns findings w = [] := by
  obtain ⟨hn, ho⟩ := List.append_eq_nil_iff.mp h
  have hn := List.map_eq_nil_iff.mp hn
  have ho := List.map_eq_nil_iff.mp ho
  have htr := digestAt_trimmed findings opts w
  refine ⟨?_, ?_⟩
  · rcases htr.newFindings with heq | ⟨-, hne, k, hk, -, heq⟩
    · exact heq.symm.trans hn
    · exact absurd (heq.symm.trans hn) (take_ne_nil hk hne)
  · rcases htr.overturns with heq | ⟨-, hne, k, hk, -, heq⟩
    · exact heq.symm.trans ho
    · exact absurd (heq.symm.trans ho) (take_ne_nil hk hne)

/-- **A call that keeps the edges is lossless.** -/
theorem KeepsEdges.lossless (hseq : (findings.map Finding.seq).Nodup)
    (h : KeepsEdges findings opts w) : Lossless findings opts w := by
  have hov := h.overturns_eq
  rcases watermark_spec findings opts w with ⟨hnil, hw⟩ | ⟨hmem, hmax⟩
  · -- nothing was delivered, so nothing was pending
    obtain ⟨hN, hO⟩ := pending_nil hnil
    obtain ⟨hn, ho⟩ := List.append_eq_nil_iff.mp hnil
    refine ⟨?_, ?_⟩
    · rw [List.map_eq_nil_iff.mp hn, hN]
      rfl
    · rw [List.map_eq_nil_iff.mp ho, hO]
      rfl
  · have hovle : ∀ o ∈ overturns findings w,
        o.bySeq ≤ (digestAt findings opts w).watermark := by
      intro o ho
      rw [← hov] at ho
      exact hmax _ (List.mem_append_right _ (List.mem_map_of_mem ho))
    refine ⟨?_, ?_⟩
    · rcases (digestAt_trimmed findings opts w).newFindings with
        heq | ⟨hO, hne, k, hk, -, heq⟩
      · have heq : (digestAt findings opts w).newFindings = newFindings findings w := heq
        rw [heq, List.filter_eq_self.mpr]
        intro f hf
        rw [← heq] at hf
        exact decide_eq_true (hmax _ (List.mem_append_left _ (List.mem_map_of_mem hf)))
      · -- only findings were pending, and the older ones were delivered
        have hO : overturns findings w = [] := hO
        have heq : (digestAt findings opts w).newFindings = (newFindings findings w).take k := heq
        have hdel : (digestAt findings opts w).delivered =
            ((newFindings findings w).take k).map DigestFinding.seq := by
          rw [Digest.delivered, hov, hO, heq]
          simp
        rw [hdel] at hmem hmax
        rw [heq]
        exact take_eq_filter (newFindings_sorted hseq w) hmem hmax
    · rw [hov, List.filter_eq_self.mpr]
      intro o ho
      exact decide_eq_true (hovle o ho)

/-! ## Whole streams -/

/-- What is pending splits at every later watermark. -/
theorem newFindings_split {w w' : U64} (h : w < w') :
    ((newFindings findings w).filter (fun f => decide (f.seq ≤ w')) ++
      newFindings findings w').Perm (newFindings findings w) := by
  refine List.Perm.trans ?_ (List.filter_append_perm (fun f => decide (f.seq ≤ w')) _)
  refine List.Perm.append_left _ ?_
  refine (newFindings_perm findings w').trans ?_
  refine List.Perm.trans ?_ ((newFindings_perm findings w).filter _).symm
  rw [pending_later h, List.filter_map]
  refine List.Perm.of_eq ?_
  congr 1
  refine List.filter_congr ?_
  intro f _
  show decide (w' < f.seq) = !decide (f.seq ≤ w')
  rw [← decide_not]
  refine decide_eq_decide.mpr ?_
  simp only [BitVec.le_def, BitVec.lt_def]
  omega

/-- The edges of the findings past a later watermark. -/
theorem edges_filter {w' : U64} (all : List Finding) : ∀ l : List Finding,
    (l.flatMap (Finding.edges all)).filter (fun o => !decide (o.bySeq ≤ w')) =
      (l.filter (fun f => decide (w' < f.seq))).flatMap (Finding.edges all) := by
  intro l
  induction l with
  | nil => rfl
  | cons f l ih =>
      rw [List.flatMap_cons, List.filter_append, ih]
      by_cases hf : w' < f.seq
      · have hpos : (f :: l).filter (fun f => decide (w' < f.seq)) =
            f :: l.filter (fun f => decide (w' < f.seq)) :=
          List.filter_cons_of_pos (decide_eq_true hf)
        rw [hpos, List.flatMap_cons, List.filter_eq_self.mpr]
        intro o ho
        rw [Finding.edges_bySeq ho]
        simp only [BitVec.lt_def] at hf
        simp [BitVec.le_def, hf]
      · have hneg : (f :: l).filter (fun f => decide (w' < f.seq)) =
            l.filter (fun f => decide (w' < f.seq)) :=
          List.filter_cons_of_neg (by simpa using hf)
        rw [hneg, List.filter_eq_nil_iff.mpr]
        · rfl
        · intro o ho
          rw [Finding.edges_bySeq ho]
          simp only [BitVec.lt_def] at hf
          simp only [BitVec.le_def, Bool.not_eq_true', decide_eq_false_iff_not, not_not]
          omega

theorem overturns_split {w w' : U64} (h : w < w') :
    ((overturns findings w).filter (fun o => decide (o.bySeq ≤ w')) ++
      overturns findings w').Perm (overturns findings w) := by
  refine List.Perm.trans ?_ (List.filter_append_perm (fun o => decide (o.bySeq ≤ w')) _)
  refine List.Perm.append_left _ ?_
  refine (overturns_perm findings w').trans ?_
  refine List.Perm.trans ?_ ((overturns_perm findings w).filter _).symm
  rw [edges_filter, ← pending_later h]

/-- The condition carries over to the next call. -/
theorem KeepsEdges.later (h : KeepsEdges findings opts w)
    (hlt : w < (digestAt findings opts w).watermark)
    (hmax : ∀ x ∈ (digestAt findings opts w).delivered,
      x ≤ (digestAt findings opts w).watermark) :
    KeepsEdges findings opts (digestAt findings opts w).watermark := by
  have hov := h.overturns_eq
  rcases h with hbare | hfits | hone
  · exact Or.inl hbare
  · refine Or.inr (Or.inr ?_)
    have hnone : overturns findings (digestAt findings opts w).watermark = [] := by
      refine List.eq_nil_iff_forall_not_mem.mpr ?_
      intro o ho
      obtain ⟨f, hf, hlt', hedge⟩ := mem_overturns.mp ho
      have hpast : w < f.seq := by
        simp only [BitVec.lt_def] at hlt hlt' ⊢
        omega
      have hmem : o ∈ (digestAt findings opts w).overturns := by
        rw [hov]
        exact mem_overturns.mpr ⟨f, hf, hpast, hedge⟩
      have hle := hmax _ (List.mem_append_right _ (List.mem_map_of_mem hmem))
      rw [Finding.edges_bySeq hedge] at hle
      simp only [BitVec.lt_def, BitVec.le_def] at hlt' hle
      omega
    rw [hnone]
    exact Nat.zero_le 1
  · refine Or.inr (Or.inr ?_)
    have hsplit : List.Perm _ (overturns findings w) := overturns_split hlt
    have hlen := hsplit.length_eq
    rw [List.length_append] at hlen
    omega

/-- **A stream whose first call keeps the edges delivers everything once.** -/
theorem Streams.delivers {ds : List Digest} (hseq : (findings.map Finding.seq).Nodup)
    (h : Streams findings opts w ds) (hk : KeepsEdges findings opts w) :
    (ds.flatMap Digest.newFindings).Perm (newFindings findings w) ∧
      (ds.flatMap Digest.overturns).Perm (overturns findings w) := by
  induction h with
  | @stop w hw =>
      have hnil : (digestAt findings opts w).delivered = [] := by
        rcases watermark_spec findings opts w with ⟨hnil, -⟩ | ⟨hmem, -⟩
        · exact hnil
        · have hlt := (delivered_pending hmem).1
          rw [hw, BitVec.lt_def] at hlt
          omega
      obtain ⟨hN, hO⟩ := pending_nil hnil
      obtain ⟨hn, ho⟩ := List.append_eq_nil_iff.mp hnil
      rw [List.flatMap_singleton, List.flatMap_singleton, List.map_eq_nil_iff.mp hn,
        List.map_eq_nil_iff.mp ho, hN, hO]
      exact ⟨.refl _, .refl _⟩
  | @next w ds hlt _ ih =>
      have hmax : ∀ x ∈ (digestAt findings opts w).delivered,
          x ≤ (digestAt findings opts w).watermark := by
        rcases watermark_spec findings opts w with ⟨-, hw⟩ | ⟨-, hmax⟩
        · rw [hw, BitVec.lt_def] at hlt
          omega
        · exact hmax
      obtain ⟨hN, hO⟩ := ih (hk.later hlt hmax)
      have hless := hk.lossless hseq
      rw [List.flatMap_cons, List.flatMap_cons]
      refine ⟨?_, ?_⟩
      · refine List.Perm.trans ?_ (newFindings_split hlt)
        rw [hless.newFindings]
        exact hN.append_left _
      · refine List.Perm.trans ?_ (overturns_split hlt)
        rw [hless.overturns]
        exact hO.append_left _

/-- Nothing the stream delivers is at or before its start. -/
theorem Streams.past {ds : List Digest} (h : Streams findings opts w ds) :
    ∀ d ∈ ds, ∀ x ∈ d.delivered, w < x ∧ ∃ f ∈ findings, f.seq = x := by
  induction h with
  | stop hw =>
      intro d hd x hx
      obtain rfl := List.mem_singleton.mp hd
      exact delivered_pending hx
  | next hlt _ ih =>
      intro d hd x hx
      rcases List.mem_cons.mp hd with rfl | hd
      · exact delivered_pending hx
      · obtain ⟨hpast, hf⟩ := ih d hd x hx
        refine ⟨?_, hf⟩
        simp only [BitVec.lt_def] at hlt hpast ⊢
        omega

/-! ## When the edges are kept -/

/-- There are costs when some finding belongs to a path. -/
theorem costByPath_nil : costByPath findings = [] ↔ ∀ f ∈ findings, f.taskId = none := by
  rw [costByPath, List.map_eq_nil_iff, Std.ExtTreeMap.toList_eq_nil_iff]
  induction findings using List.reverseRecOn with
  | nil => simp [pathCosts]
  | append_singleton l f ih =>
      rw [pathCosts, List.foldl_append, List.foldl_cons, List.foldl_nil]
      cases hf : f.taskId with
      | none =>
          show pathCosts l = ∅ ↔ _
          rw [ih]
          simp [or_imp, forall_and, hf]
      | some path =>
          refine ⟨fun h => absurd h Std.ExtTreeMap.insert_ne_empty, ?_⟩
          intro h
          have hnone := h f (by simp)
          rw [hf] at hnone
          cases hnone

theorem stale_nil (current : Table String String) :
    stale findings current = [] ↔ ∀ f ∈ live findings, drift f current = [] := by
  rw [stale, List.reverse_eq_nil_iff, List.filterMap_eq_nil_iff]
  refine forall₂_congr ?_
  intro f _
  cases hd : drift f current with
  | nil => simp
  | cons a l => simp

/-- Without paths every component is cited by none. -/
theorem byComponent_paths {l : List Finding} (hl : ∀ f ∈ l, f.taskId = none) :
    ∀ (c : String) (e : List String × List String), (byComponent l)[c]? = some e → e.1 = [] := by
  induction l using List.reverseRecOn with
  | nil =>
      intro c e h
      simp [byComponent] at h
  | append_singleton l f ih =>
      intro c e h
      have ih := ih (fun g hg => hl g (List.mem_append_left _ hg))
      rw [byComponent, List.foldl_append] at h
      have hf := hl f (by simp)
      change (Std.ExtTreeMap.insert (byComponent l) f.component _)[c]? = some e at h
      rcases Table.of_get_insert h with ⟨-, rfl⟩ | ⟨-, h⟩
      · simp only [hf]
        show (((byComponent l)[f.component]?).getD ([], [])).1 = []
        cases hold : (byComponent l)[f.component]? with
        | none => rfl
        | some old => exact ih _ _ hold
      · exact ih c e h

theorem byComponent_nil {l : List Finding} : byComponent l = ∅ ↔ l = [] := by
  constructor
  · intro h
    induction l using List.reverseRecOn with
    | nil => rfl
    | append_singleton l f _ =>
        rw [byComponent, List.foldl_append] at h
        exact absurd h Std.ExtTreeMap.insert_ne_empty
  · rintro rfl
    rfl

/-- There are clusters when no path at all is asked for, or some finding
belongs to a path. -/
theorem clusterHints_nil (hnone : ∀ f ∈ findings, f.taskId = none) (window minPaths : Nat) :
    clusterHints findings window minPaths = [] ↔
      ¬ (minPaths = 0 ∧ 0 < window ∧ live findings ≠ []) := by
  have hpaths := byComponent_paths (l := (live findings).reverse.take window) (by
    intro f hf
    have hf := List.mem_reverse.mp (List.mem_of_mem_take hf)
    exact hnone f (List.mem_filter.mp hf).1)
  have hrecent : byComponent ((live findings).reverse.take window) = ∅ ↔
      ¬ (0 < window ∧ live findings ≠ []) := by
    rw [byComponent_nil, List.take_eq_nil_iff, List.reverse_eq_nil_iff]
    by_cases hw : window = 0
    · simp [hw]
    · simp [hw, Nat.pos_of_ne_zero hw]
  have hsort : clusterHints findings window minPaths = [] ↔
      ((byComponent ((live findings).reverse.take window)).toList.filter
        (fun e => decide (minPaths ≤ e.2.1.length))) = [] := by
    rw [clusterHints, ← List.length_eq_zero_iff, List.length_insertionSort, List.length_map,
      List.length_eq_zero_iff]
  rw [hsort]
  by_cases hmin : minPaths = 0
  · have hall : ((byComponent ((live findings).reverse.take window)).toList.filter
        (fun e => decide (minPaths ≤ e.2.1.length))) =
          (byComponent ((live findings).reverse.take window)).toList :=
      List.filter_eq_self.mpr (by simp [hmin])
    rw [hall, Std.ExtTreeMap.toList_eq_nil_iff, hrecent]
    simp [hmin]
  · refine ⟨fun _ h => hmin h.1, ?_⟩
    intro _
    refine List.filter_eq_nil_iff.mpr ?_
    rintro ⟨c, e⟩ he
    have := hpaths c e (Table.mem_rows.mp he)
    simp only [this, List.length_nil, Nat.le_zero, decide_eq_true_eq]
    exact hmin

/-- **When there are no aggregates**: no finding belongs to a path, no live one
has drifted, and a component without paths is no cluster. -/
theorem fullAt_bare : (fullAt findings opts w).Bare ↔
    (∀ f ∈ findings, f.taskId = none) ∧ (∀ f ∈ live findings, drift f opts.currentConfig = []) ∧
      ¬ (opts.clusterMinPaths = 0 ∧ 0 < opts.recentWindow ∧ live findings ≠ []) := by
  show costByPath findings = [] ∧
    clusterHints findings opts.recentWindow opts.clusterMinPaths = [] ∧
    stale findings opts.currentConfig = [] ↔ _
  rw [costByPath_nil, stale_nil]
  constructor
  · rintro ⟨hcost, hclusters, hstale⟩
    exact ⟨hcost, hstale, (clusterHints_nil hcost _ _).mp hclusters⟩
  · rintro ⟨hcost, hstale, hclusters⟩
    exact ⟨hcost, (clusterHints_nil hcost _ _).mpr hclusters, hstale⟩

/-! ## The whole log -/

/-- A stream from the start delivers every live finding once and every overturn
edge once; it advances the watermark up to there. -/
def StreamsAll (findings : List Finding) (opts : DigestOptions) : Prop :=
  ∃ ds, Streams findings opts 0 ds ∧
    (ds.flatMap Digest.newFindings).Perm ((live findings).map Finding.toDigest) ∧
    (ds.flatMap Digest.overturns).Perm (findings.flatMap (Finding.edges findings))

/-- The condition on the log and the budget: nothing to deliver has the
sequence 0, and the edges are shielded by an aggregate, fit the budget along
with everything else, or are no more than one. -/
structure Streamable (findings : List Finding) (opts : DigestOptions) : Prop where
  positive : ∀ f ∈ findings, f.seq = 0 → f ∉ live findings ∧ f.supersedes = []
  uncut : (∃ f ∈ findings, f.taskId ≠ none) ∨
    (∃ f ∈ live findings, drift f opts.currentConfig ≠ []) ∨
    (opts.clusterMinPaths = 0 ∧ 0 < opts.recentWindow ∧ live findings ≠ []) ∨
    (fullAt findings opts 0).size ≤ opts.maxChars ∨ (overturns findings 0).length ≤ 1

theorem Streamable.keepsEdges (h : Streamable findings opts) : KeepsEdges findings opts 0 := by
  rcases h.uncut with ⟨f, hf, hpath⟩ | ⟨f, hf, hdrift⟩ | hcluster | hfits | hone
  · exact Or.inl (fun hb => hpath ((fullAt_bare.mp hb).1 f hf))
  · exact Or.inl (fun hb => hdrift ((fullAt_bare.mp hb).2.1 f hf))
  · exact Or.inl (fun hb => (fullAt_bare.mp hb).2.2 hcluster)
  · exact Or.inr (Or.inl hfits)
  · exact Or.inr (Or.inr hone)

theorem KeepsEdges.uncut (h : KeepsEdges findings opts 0) :
    (∃ f ∈ findings, f.taskId ≠ none) ∨
    (∃ f ∈ live findings, drift f opts.currentConfig ≠ []) ∨
    (opts.clusterMinPaths = 0 ∧ 0 < opts.recentWindow ∧ live findings ≠ []) ∨
    (fullAt findings opts 0).size ≤ opts.maxChars ∨ (overturns findings 0).length ≤ 1 := by
  rcases h with hbare | hfits | hone
  · rw [fullAt_bare] at hbare
    by_contra hnot
    push Not at hnot
    refine hbare ⟨hnot.1, hnot.2.1, ?_⟩
    rintro ⟨hmin, hwindow, hlive⟩
    exact hlive (hnot.2.2.1 hmin hwindow)
  · exact Or.inr (Or.inr (Or.inr (Or.inl hfits)))
  · exact Or.inr (Or.inr (Or.inr (Or.inr hone)))

theorem pos_of_ne_zero {x : U64} (h : x ≠ 0) : 0 < x := by
  have hne : x.toNat ≠ 0 := fun h₀ => h (BitVec.eq_of_toNat_eq (by simpa using h₀))
  have hzero : (0 : U64).toNat = 0 := rfl
  rw [BitVec.lt_def]
  omega

/-- Past sequence 0 lies everything there is to deliver. -/
theorem pending_start (hpos : ∀ f ∈ findings, f.seq = 0 → f ∉ live findings ∧ f.supersedes = []) :
    (newFindings findings 0).Perm ((live findings).map Finding.toDigest) ∧
      (overturns findings 0).Perm (findings.flatMap (Finding.edges findings)) := by
  refine ⟨?_, ?_⟩
  · refine (newFindings_perm findings 0).trans (List.Perm.of_eq ?_)
    rw [List.filter_eq_self.mpr]
    intro f hf
    refine decide_eq_true (pos_of_ne_zero ?_)
    intro hzero
    exact (hpos f (List.mem_filter.mp hf).1 hzero).1 hf
  · refine (overturns_perm findings 0).trans (List.Perm.of_eq ?_)
    have hedges : ∀ l : List Finding, (∀ f ∈ l, f.seq = 0 → f.supersedes = []) →
        (l.filter (fun f => decide (0 < f.seq))).flatMap (Finding.edges findings) =
          l.flatMap (Finding.edges findings) := by
      intro l hl
      induction l with
      | nil => rfl
      | cons f l ih =>
          have ih := ih (fun g hg => hl g (List.mem_cons_of_mem _ hg))
          by_cases hzero : f.seq = 0
          · have hnone : f.edges findings = [] := by
              rw [Finding.edges, hl f List.mem_cons_self hzero, List.map_nil]
            have hskip : (f :: l).filter (fun f => decide (0 < f.seq)) =
                l.filter (fun f => decide (0 < f.seq)) :=
              List.filter_cons_of_neg (by rw [hzero]; decide)
            rw [hskip, ih, List.flatMap_cons, hnone, List.nil_append]
          · have hkeep : (f :: l).filter (fun f => decide (0 < f.seq)) =
                f :: l.filter (fun f => decide (0 < f.seq)) :=
              List.filter_cons_of_pos (decide_eq_true (pos_of_ne_zero hzero))
            rw [hkeep, List.flatMap_cons, List.flatMap_cons, ih]
    exact hedges findings (fun f hf hzero => (hpos f hf hzero).2)

/-- Claims are overturned by later ones: an edge is validated to name a finding
that exists when it is appended. -/
def OverturnsEarlier (findings : List Finding) : Prop :=
  ∀ f ∈ findings, ∀ g ∈ findings, g.id ∈ f.supersedes → g.seq < f.seq

instance : Decidable (OverturnsEarlier findings) :=
  inferInstanceAs (Decidable (∀ f ∈ findings, ∀ g ∈ findings, g.id ∈ f.supersedes → g.seq < f.seq))

/-- The newest finding is live. -/
theorem newest_live (hearlier : OverturnsEarlier findings)
    {n : Finding} (hn : n ∈ findings) (hmax : ∀ f ∈ findings, f.seq ≤ n.seq) :
    n ∈ live findings := by
  refine List.mem_filter.mpr ⟨hn, decide_eq_true ?_⟩
  intro hover
  obtain ⟨f, hf, hmem⟩ := List.mem_flatMap.mp hover
  have h₁ := hearlier f hf n hn hmem
  have h₂ := hmax f hf
  simp only [BitVec.lt_def, BitVec.le_def] at h₁ h₂
  omega

/-- A finding of the largest sequence. -/
theorem exists_newest (hne : findings ≠ []) :
    ∃ n ∈ findings, ∀ f ∈ findings, f.seq ≤ n.seq := by
  rcases maxSeq_spec (findings.map Finding.seq) with ⟨hnil, -⟩ | ⟨m, -, hmem, hmax⟩
  · exact absurd (List.map_eq_nil_iff.mp hnil) hne
  · obtain ⟨n, hn, rfl⟩ := List.mem_map.mp hmem
    exact ⟨n, hn, fun f hf => hmax _ (List.mem_map_of_mem hf)⟩

/-- **A first call that cuts the edges loses them**: it still delivers the
newest finding, and no later call goes back. -/
theorem StreamsAll.keepsEdges (hearlier : OverturnsEarlier findings)
    (h : StreamsAll findings opts) : KeepsEdges findings opts 0 := by
  by_contra hcut
  simp only [KeepsEdges, not_or, not_not, not_le] at hcut
  obtain ⟨hbare, hsize, hlen⟩ := hcut
  obtain ⟨ds, hds, -, hov⟩ := h
  have hshort := enforceBudget_cuts hbare hsize hlen
  have hedges : overturns findings 0 ≠ [] := by
    intro hnil
    rw [hnil] at hlen
    simp at hlen
  -- the findings are delivered in full, the newest among them
  have hnew : (digestAt findings opts 0).newFindings = newFindings findings 0 := by
    rcases (digestAt_trimmed findings opts 0).newFindings with heq | ⟨hnone, -⟩
    · exact heq
    · exact absurd hnone hedges
  obtain ⟨o, ho⟩ := List.exists_mem_of_ne_nil _ hedges
  obtain ⟨g, hg, hgpos, -⟩ := mem_overturns.mp ho
  obtain ⟨n, hn, hmax⟩ := exists_newest (List.ne_nil_of_mem hg)
  have hnpos : 0 < n.seq := by
    have := hmax g hg
    simp only [BitVec.lt_def, BitVec.le_def] at hgpos this ⊢
    omega
  have hdel : n.seq ∈ (digestAt findings opts 0).delivered := by
    refine List.mem_append_left _ (List.mem_map.mpr ⟨n.toDigest, ?_, rfl⟩)
    rw [hnew]
    exact mem_newFindings.mpr ⟨n, newest_live hearlier hn hmax, hnpos, rfl⟩
  have hwater : n.seq ≤ (digestAt findings opts 0).watermark := by
    rcases watermark_spec findings opts 0 with ⟨hnil, -⟩ | ⟨-, hle⟩
    · rw [hnil] at hdel
      simp at hdel
    · exact hle _ hdel
  have hall : (overturns findings 0).length ≤ (digestAt findings opts 0).overturns.length := by
    have hle : (overturns findings 0).length ≤ (ds.flatMap Digest.overturns).length := by
      rw [hov.length_eq, (overturns_perm findings 0).length_eq]
      exact (List.Sublist.flatMap List.filter_sublist _).length_le
    refine le_trans hle ?_
    cases hds with
    | stop _ => simp
    | @next _ ds _ hrest =>
        have hnone : ∀ d ∈ ds, Digest.overturns d = [] := by
          intro d hd
          refine List.eq_nil_iff_forall_not_mem.mpr ?_
          intro e he
          obtain ⟨hpast, f, hf, heq⟩ :=
            hrest.past d hd e.bySeq (List.mem_append_right _ (List.mem_map_of_mem he))
          have hle := hmax f hf
          rw [← heq] at hpast
          simp only [BitVec.lt_def, BitVec.le_def] at hpast hle hwater
          omega
        rw [List.flatMap_cons, List.flatMap_eq_nil_iff.mpr hnone, List.append_nil]
  have hcutlen : (digestAt findings opts 0).overturns.length < (overturns findings 0).length :=
    hshort
  omega

/-- A finding of sequence 0 is never delivered. -/
theorem StreamsAll.positive (h : StreamsAll findings opts) :
    ∀ f ∈ findings, f.seq = 0 → f ∉ live findings ∧ f.supersedes = [] := by
  obtain ⟨ds, hds, hnew, hov⟩ := h
  have hlost : ∀ d ∈ ds, (0 : U64) ∉ d.delivered := by
    intro d hd hx
    have := (hds.past d hd 0 hx).1
    rw [BitVec.lt_def] at this
    omega
  intro f hf hzero
  refine ⟨?_, ?_⟩
  · intro hlive
    have hmem := hnew.mem_iff.mpr (List.mem_map_of_mem hlive)
    obtain ⟨d, hd, hin⟩ := List.mem_flatMap.mp hmem
    refine hlost d hd (List.mem_append_left _ ?_)
    rw [← hzero]
    exact List.mem_map_of_mem (f := DigestFinding.seq) hin
  · refine List.eq_nil_iff_forall_not_mem.mpr ?_
    intro old hold
    have hedge : _ ∈ f.edges findings := List.mem_map_of_mem hold
    have hmem := hov.mem_iff.mpr (List.mem_flatMap.mpr ⟨f, hf, hedge⟩)
    obtain ⟨d, hd, hin⟩ := List.mem_flatMap.mp hmem
    refine hlost d hd (List.mem_append_right _ ?_)
    rw [← hzero]
    exact List.mem_map_of_mem (f := Overturn.bySeq) hin

/-- **Streaming a log** of distinct sequences delivers everything once if the
edges are not cut; if they are, a log whose claims are overturned by later ones
loses some of them. -/
theorem streams_all_iff (findings : List Finding) (opts : DigestOptions)
    (hseq : (findings.map Finding.seq).Nodup) :
    (Streamable findings opts → StreamsAll findings opts) ∧
      (OverturnsEarlier findings → StreamsAll findings opts → Streamable findings opts) := by
  refine ⟨?_, ?_⟩
  · intro h
    obtain ⟨ds, hds⟩ := Streams.exists findings opts _ 0 (le_refl _)
    obtain ⟨hnew, hov⟩ := hds.delivers hseq h.keepsEdges
    obtain ⟨hnew₀, hov₀⟩ := pending_start h.positive
    exact ⟨ds, hds, hnew.trans hnew₀, hov.trans hov₀⟩
  · intro hearlier h
    exact ⟨h.positive, (h.keepsEdges hearlier).uncut⟩

/-- A finding without a path, as the controller itself records it. -/
def sampleFinding (seq : U64) (id : String) (supersedes : List String) : Finding :=
  { id := id, seq := seq, taskId := none, claim := "", status := .confirmed, component := "c",
    config := ∅, supersedes := supersedes, costTokens := 0 }

/-- Three findings, each overturning the one before. -/
def sampleLog : List Finding :=
  [sampleFinding 1 "f-1" [], sampleFinding 2 "f-2" ["f-1"], sampleFinding 3 "f-3" ["f-2"]]

/-- The defaults, but for the budget. -/
def sampleOptions (maxChars : Nat) : DigestOptions :=
  { sinceSeq := 0, currentConfig := ∅, maxChars := maxChars, recentWindow := 40,
    clusterMinPaths := 2 }

/-- With the default budget the log is streamed in full. -/
theorem streams_all_iff_default : (sampleLog.map Finding.seq).Nodup ∧
    StreamsAll sampleLog (sampleOptions 4000) ∧ Streamable sampleLog (sampleOptions 4000) := by
  have h := streams_all_iff sampleLog (sampleOptions 4000) (by decide)
  have hall : StreamsAll sampleLog (sampleOptions 4000) := by
    have hpos : ∀ f ∈ sampleLog, f.seq ≠ 0 := by decide
    refine h.1 ⟨fun f hf hzero => absurd hzero (hpos f hf), ?_⟩
    exact Or.inr (Or.inr (Or.inr (Or.inl (by decide))))
  exact ⟨by decide, hall, h.2 (by decide) hall⟩

/-- With a budget of 300 characters the second edge is lost: the first call
keeps the first edge and the newest finding, whose sequence is the watermark. -/
theorem overturn_lost_when_cut : ¬ StreamsAll sampleLog (sampleOptions 300) := by
  intro h
  have hkeeps := h.keepsEdges (by decide)
  rcases hkeeps with hbare | hfits | hone
  · refine hbare (fullAt_bare.mpr ?_)
    decide
  · revert hfits
    decide
  · revert hone
    decide

end Octos.Fleet
