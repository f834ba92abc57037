/-
# `Octos.Fleet.Keys` — composite keys and their safety check

Every table of the kernel store is keyed by a string.  Composite keys join
their components with a NUL: `{fleet_id}\0{child_id}`, `{child_id}\0{attempt_id}`
and `{fleet_id}\0{seq:020}`.  Every entry point rejects a component that is
empty or carries a control character, and that check is the whole reason two
different pairs cannot encode to the same key: a safe first component holds no
NUL, so the first NUL of the key is the separator (`childKey_inj`,
`attemptKey_inj`), and the prefix scan `{fleet_id}\0` selects exactly the
children of that fleet (`stripPrefix_childKey`).
-/
import Octos.Fleet.Records
import Octos.Lib.Digits

namespace Octos.Fleet

/-- `char::is_control`: the Unicode category `Cc`. -/
def isControl (c : Char) : Bool :=
  c.val < 0x20 || (0x7f ≤ c.val && c.val ≤ 0x9f)

/-- A persisted key component is non-empty and free of control characters. -/
def keyComponentIsSafe (s : String) : Bool :=
  !s.isEmpty && !s.toList.any isControl

/-- The separator of composite keys. -/
def nul : Char := '\x00'

def childKey (fleetId childId : String) : String :=
  fleetId ++ "\x00" ++ childId

def attemptKey (childId attemptId : String) : String :=
  childId ++ "\x00" ++ attemptId

/-- `{:020}`: decimal, zero-padded to twenty digits. -/
def pad20 (n : U64) : String :=
  String.ofList (Digits.pad 20 n.toNat)

def decisionKey (fleetId : String) (seq : U64) : String :=
  fleetId ++ "\x00" ++ pad20 seq

def outboxKey (seq : U64) : String :=
  pad20 seq

/-- `str::strip_prefix`. -/
def stripPrefix (pre s : String) : Option String :=
  if pre.toList.isPrefixOf s.toList then
    some (String.ofList (s.toList.drop pre.toList.length))
  else none

/-- The value of a non-empty string of ASCII digits. -/
def parseDigits : List Char → Option Nat
  | [] => none
  | cs =>
      if cs.all Char.isDigit then
        some (cs.foldl (fun n c => 10 * n + (c.toNat - '0'.toNat)) 0)
      else none

/-- `str::parse::<u64>`: an optional `+`, then digits, rejecting overflow. -/
def parseU64 (s : String) : Option U64 :=
  let digits := match s.toList with
    | '+' :: cs => cs
    | cs => cs
  match parseDigits digits with
  | some n => if n < 2 ^ 64 then some (BitVec.ofNat 64 n) else none
  | none => none

/-- `decision_seq`: the sequence in a decision-log key of `fleetId`. -/
def decisionSeq (key fleetId : String) : Option U64 :=
  (stripPrefix (fleetId ++ "\x00") key).bind parseU64

/-! ## What a safe component excludes -/

/-- A safe component holds no separator. -/
theorem nul_notMem_of_safe {s : String} (h : keyComponentIsSafe s = true) : nul ∉ s.toList := by
  intro hmem
  simp only [keyComponentIsSafe, Bool.and_eq_true, Bool.not_eq_true', List.any_eq_false] at h
  exact h.2 nul hmem (by decide)

/-- Two lists cut at the first occurrence of a separator. -/
theorem cut_inj {α : Type} {a : α} :
    ∀ {x₁ x₂ z₁ z₂ : List α}, a ∉ x₁ → a ∉ x₂ →
      x₁ ++ a :: z₁ = x₂ ++ a :: z₂ → x₁ = x₂ ∧ z₁ = z₂
  | [], [], _, _, _, _, h => ⟨rfl, (List.cons.inj h).2⟩
  | [], b :: _, _, _, _, h₂, h => by
      obtain ⟨rfl, -⟩ := List.cons.inj h
      exact absurd List.mem_cons_self h₂
  | b :: _, [], _, _, h₁, _, h => by
      obtain ⟨rfl, -⟩ := List.cons.inj h
      exact absurd List.mem_cons_self h₁
  | b :: x₁, c :: x₂, _, _, h₁, h₂, h => by
      obtain ⟨rfl, h'⟩ := List.cons.inj h
      obtain ⟨rfl, hz⟩ := cut_inj (fun hm => h₁ (List.mem_cons_of_mem _ hm))
        (fun hm => h₂ (List.mem_cons_of_mem _ hm)) h'
      exact ⟨rfl, hz⟩

theorem toList_join (a b : String) : (a ++ "\x00" ++ b).toList = a.toList ++ nul :: b.toList := by
  rw [String.toList_append, String.toList_append]
  have h : ("\x00" : String).toList = [nul] := by decide
  simp [h]

/-- Composite keys with safe first components are injective. -/
theorem join_inj {a a' b b' : String} (ha : keyComponentIsSafe a = true)
    (ha' : keyComponentIsSafe a' = true) :
    a ++ "\x00" ++ b = a' ++ "\x00" ++ b' ↔ a = a' ∧ b = b' := by
  constructor
  · intro h
    have hl := congrArg String.toList h
    rw [toList_join, toList_join] at hl
    obtain ⟨h₁, h₂⟩ := cut_inj (nul_notMem_of_safe ha) (nul_notMem_of_safe ha') hl
    exact ⟨String.ext_iff.mpr h₁, String.ext_iff.mpr h₂⟩
  · rintro ⟨rfl, rfl⟩
    rfl

/-- A composite key of two safe components splits in one way only. -/
theorem join_inj_of_safe {a a' b b' : String} (ha : keyComponentIsSafe a = true)
    (hb : keyComponentIsSafe b = true) :
    a ++ "\x00" ++ b = a' ++ "\x00" ++ b' ↔ a = a' ∧ b = b' := by
  constructor
  · intro h
    have hl := congrArg String.toList h
    rw [toList_join, toList_join] at hl
    -- the key holds exactly one separator, so the other split has none in its parts
    have hcount := congrArg (List.count nul) hl
    simp only [List.count_append, List.count_cons_self,
      List.count_eq_zero_of_not_mem (nul_notMem_of_safe ha),
      List.count_eq_zero_of_not_mem (nul_notMem_of_safe hb)] at hcount
    have hz : List.count nul a'.toList = 0 := by omega
    obtain ⟨h₁, h₂⟩ := cut_inj (nul_notMem_of_safe ha) (List.count_eq_zero.mp hz) hl
    exact ⟨String.ext_iff.mpr h₁, String.ext_iff.mpr h₂⟩
  · rintro ⟨rfl, rfl⟩
    rfl

theorem childKey_inj_of_safe {f f' c c' : String} (hf : keyComponentIsSafe f = true)
    (hc : keyComponentIsSafe c = true) :
    childKey f c = childKey f' c' ↔ f = f' ∧ c = c' :=
  join_inj_of_safe hf hc

theorem childKey_inj {f f' c c' : String} (hf : keyComponentIsSafe f = true)
    (hf' : keyComponentIsSafe f' = true) :
    childKey f c = childKey f' c' ↔ f = f' ∧ c = c' :=
  join_inj hf hf'

theorem attemptKey_inj {c c' a a' : String} (hc : keyComponentIsSafe c = true)
    (hc' : keyComponentIsSafe c' = true) :
    attemptKey c a = attemptKey c' a' ↔ c = c' ∧ a = a' :=
  join_inj hc hc'

/-- **The prefix scan is exact**: `{fleet_id}\0` is a prefix of a child key
exactly when the child belongs to that fleet, and what is left is its id. -/
theorem stripPrefix_childKey {f g : String} (c : String) (hf : keyComponentIsSafe f = true)
    (hg : keyComponentIsSafe g = true) :
    stripPrefix (f ++ "\x00") (childKey g c) = if f = g then some c else none := by
  have hsep : (f ++ "\x00" : String).toList = f.toList ++ [nul] := by
    rw [String.toList_append]
    rfl
  unfold stripPrefix childKey
  rw [hsep, toList_join]
  by_cases hfg : f = g
  · subst hfg
    simp
  · rw [if_neg hfg, if_neg]
    intro hpre
    rw [List.isPrefixOf_iff_prefix] at hpre
    obtain ⟨rest, hrest⟩ := hpre
    have heq : f.toList ++ nul :: rest = g.toList ++ nul :: c.toList := by
      simpa using hrest
    obtain ⟨h, -⟩ := cut_inj (nul_notMem_of_safe hf) (nul_notMem_of_safe hg) heq
    exact hfg (String.ext_iff.mpr h)

/-! ## Sequence keys -/

theorem toList_pad20 (n : U64) : (pad20 n).toList = Digits.pad 20 n.toNat :=
  String.toList_ofList

theorem length_pad20 (n : U64) : (Digits.pad 20 n.toNat).length = 20 := by
  refine Digits.length_pad (by decide) (n.isLt.trans_le ?_)
  norm_num

/-- Parsing a sequence key gives the sequence back. -/
theorem parseU64_pad20 (n : U64) : parseU64 (pad20 n) = some n := by
  have hdig : ∀ c ∈ Digits.pad 20 n.toNat, c.isDigit = true :=
    fun c hc => Digits.isDigit_of_mem_pad hc
  have hlen := length_pad20 n
  have hval := Digits.value_pad 20 n.toNat
  unfold parseU64
  rw [toList_pad20]
  cases hl : Digits.pad 20 n.toNat with
  | nil => simp [hl] at hlen
  | cons c cs =>
      rw [hl] at hdig hval
      -- a digit is not a sign
      have hplus : c ≠ '+' := by
        rintro rfl
        exact absurd (hdig '+' List.mem_cons_self) (by decide)
      have hall : (c :: cs).all Char.isDigit = true := List.all_eq_true.mpr hdig
      have hfold : (c :: cs).foldl (fun n c => 10 * n + (c.toNat - '0'.toNat)) 0 = n.toNat := by
        rw [← Nat.ofDigitChars_eq_foldl]
        exact hval
      have hsplit : (match c :: cs with
          | '+' :: cs => cs
          | cs => cs) = c :: cs := by
        split
        · next heq => exact absurd (List.cons.inj heq).1 hplus
        · rfl
      simp only [hsplit, parseDigits, hall, if_true, hfold, n.isLt]
      simp

/-- Sequence keys sort by sequence. -/
theorem lt_of_outboxKey_lt {m n : U64} (h : compare (outboxKey m) (outboxKey n) = .lt) :
    m.toNat < n.toNat := by
  have hlt : outboxKey m < outboxKey n := compareOfLessAndEq_eq_lt.mp h
  have hlist : Digits.pad 20 m.toNat < Digits.pad 20 n.toNat := by
    rw [← toList_pad20, ← toList_pad20]
    exact String.lt_iff.mp hlt
  have hval := Digits.value_lt_of_lt ((length_pad20 m).trans (length_pad20 n).symm)
    (fun c hc => Digits.isDigit_of_mem_pad hc) (fun c hc => Digits.isDigit_of_mem_pad hc) hlist
  rwa [Digits.value_pad, Digits.value_pad] at hval

theorem outboxKey_inj {m n : U64} (h : outboxKey m = outboxKey n) : m = n := by
  have hp := parseU64_pad20 m
  rw [show pad20 m = pad20 n from h, parseU64_pad20] at hp
  exact (Option.some.inj hp).symm

end Octos.Fleet
