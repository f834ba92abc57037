/-
# `Octos.Lib.Bytes` — a text read byte by byte

Code that walks over the bytes of a text indexes them and cuts the text at offsets.  An
index behind the end is a fault, and so is a cut inside a character:

    a    é    b         bytes 61 C3 A9 62
    0    1    3         boundaries, and 4 behind the end

A byte of ASCII is a whole character wherever it stands, so an offset at one, or right
behind one, is a boundary.
-/
import Octos.Lib.Codec
import Octos.Lib.Slices
import Octos.Lib.Returns

namespace Octos

/-- What would be a panic, or a loop without an end. -/
inductive Fault
  | index
  | slice
  | stalled
deriving DecidableEq, Repr

variable {α : Type}

/-! ## Checked access -/

/-- `xs[i]` -/
def nth (xs : List α) (i : Nat) : Except Fault α :=
  match xs[i]? with
  | some a => .ok a
  | none => .error .index

/-- `xs[i - 1]` -/
def nthBefore (xs : List α) : Nat → Except Fault α
  | 0 => .error .index
  | i + 1 => nth xs i

/-- `&xs[a..]` -/
def suffixAt (xs : List α) (a : Nat) : Except Fault (List α) :=
  if a ≤ xs.length then .ok (xs.drop a) else .error .slice

/-- `&xs[a..b]` -/
def sliceAt (xs : List α) (a b : Nat) : Except Fault (List α) :=
  if a ≤ b ∧ b ≤ xs.length then .ok ((xs.drop a).take (b - a)) else .error .slice

/-- `&text[a..b]` -/
def textAt (text : List Char) (a b : Nat) : Except Fault (List Char) :=
  if a ≤ b ∧ Text.isCharBoundary text a ∧ Text.isCharBoundary text b then .ok (Text.slice text a b)
  else .error .slice

section Access

variable {xs : List α} {i a b : Nat}

theorem nth_returns (h : i < xs.length) : Returns (nth xs i) (fun x => xs[i]? = some x) := by
  rw [nth, List.getElem?_eq_getElem h]
  exact .pure rfl

theorem nthBefore_returns (hpos : 0 < i) (h : i ≤ xs.length) :
    Returns (nthBefore xs i) (fun x => xs[i - 1]? = some x) := by
  cases i with
  | zero => exact absurd hpos (Nat.lt_irrefl _)
  | succ i => exact nth_returns h

theorem suffixAt_returns (h : a ≤ xs.length) : Returns (suffixAt xs a) (· = xs.drop a) := by
  rw [suffixAt, if_pos h]
  exact .pure rfl

theorem sliceAt_returns (hab : a ≤ b) (hb : b ≤ xs.length) :
    Returns (sliceAt xs a b) (· = (xs.drop a).take (b - a)) := by
  rw [sliceAt, if_pos ⟨hab, hb⟩]
  exact .pure rfl

end Access

/-! ## Bytes and boundaries -/

namespace Bytes

open Codec Text

variable {text : List Char} {bytes : List UInt8} {b : UInt8} {i : Nat}

/-- The bytes of a character: itself if it is of ASCII, else none of them is. -/
theorem encodeChar_cases (ch : Char) :
    (∃ b : UInt8, String.utf8EncodeChar ch = [b] ∧ b.toNat = ch.toNat ∧ ch.utf8Size = 1) ∨
      ∀ b ∈ String.utf8EncodeChar ch, 128 ≤ b.toNat := by
  by_cases hascii : ch.val.toNat ≤ 127
  · refine .inl ⟨UInt8.ofNat ch.val.toNat, ?_, ?_, ?_⟩
    · simp only [String.utf8EncodeChar, hascii, if_true]
    · rw [UInt8.toNat_ofNat']
      exact Nat.mod_eq_of_lt (by omega)
    · exact utf8Size_of_ascii (Nat.lt_succ_of_le hascii)
  · right
    intro b hb
    simp only [String.utf8EncodeChar, hascii, if_false] at hb
    split at hb
    · simp only [List.mem_cons, List.not_mem_nil, or_false] at hb
      rcases hb with rfl | rfl <;> rw [UInt8.toNat_ofNat'] <;> omega
    · split at hb
      · simp only [List.mem_cons, List.not_mem_nil, or_false] at hb
        rcases hb with rfl | rfl | rfl <;> rw [UInt8.toNat_ofNat'] <;> omega
      · simp only [List.mem_cons, List.not_mem_nil, or_false] at hb
        rcases hb with rfl | rfl | rfl | rfl <;> rw [UInt8.toNat_ofNat'] <;> omega

theorem length_utf8 : ∀ (text : List Char), (utf8 text).length = utf8Length text := by
  intro text
  induction text with
  | nil => rfl
  | cons ch text ih => rw [utf8_cons, List.length_append, String.length_utf8EncodeChar, utf8Length_cons, ih]

/-- Where a byte of ASCII stands, there stands the character. -/
theorem ascii_char : ∀ {text : List Char} {i : Nat}, (utf8 text)[i]? = some b → b.toNat < 128 →
    ∃ before ch after, text = before ++ ch :: after ∧ utf8Length before = i ∧ ch.toNat = b.toNat ∧
      ch.utf8Size = 1 := by
  intro text
  induction text with
  | nil =>
      intro i h
      cases h
  | cons ch text ih =>
      intro i h hb
      rw [utf8_cons] at h
      by_cases hi : i < (String.utf8EncodeChar ch).length
      · rw [List.getElem?_append_left hi] at h
        rcases encodeChar_cases ch with ⟨c, hc, hval, hsize⟩ | hhigh
        · rw [hc] at h hi
          obtain rfl : i = 0 := Nat.lt_one_iff.mp hi
          obtain rfl := Option.some.inj h
          exact ⟨[], ch, text, rfl, rfl, hval.symm, hsize⟩
        · exact absurd (hhigh b (List.mem_of_getElem? h)) (by omega)
      · have hge : (String.utf8EncodeChar ch).length ≤ i := Nat.le_of_not_lt hi
        rw [List.getElem?_append_right hge] at h
        obtain ⟨before, c, after, rfl, hlen, hval, hsize⟩ := ih h hb
        refine ⟨ch :: before, c, after, rfl, ?_, hval, hsize⟩
        rw [utf8Length_cons, hlen, ← String.length_utf8EncodeChar]
        omega

/-- The byte before `i` has the property `p`. -/
def Behind (bytes : List UInt8) (p : UInt8 → Bool) (i : Nat) : Prop :=
  0 < i ∧ ∃ b, bytes[i - 1]? = some b ∧ p b = true

theorem Behind.imp {p q : UInt8 → Bool} (h : Behind bytes p i) (hpq : ∀ b, p b = true → q b = true) :
    Behind bytes q i := by
  obtain ⟨hpos, b, hb, hp⟩ := h
  exact ⟨hpos, b, hb, hpq b hp⟩

def isAscii (b : UInt8) : Bool := decide (b.toNat < 128)

theorem boundary_at (h : (utf8 text)[i]? = some b) (hb : isAscii b = true) : isCharBoundary text i = true := by
  obtain ⟨before, ch, after, rfl, hlen, -, -⟩ := ascii_char h (of_decide_eq_true hb)
  exact isCharBoundary_iff.mpr ⟨before, ch :: after, rfl, hlen⟩

theorem Behind.boundary (h : Behind (utf8 text) isAscii i) : isCharBoundary text i = true := by
  obtain ⟨hpos, b, hget, hb⟩ := h
  obtain ⟨before, ch, after, rfl, hlen, -, hsize⟩ := ascii_char hget (of_decide_eq_true hb)
  refine isCharBoundary_iff.mpr ⟨before ++ [ch], after, by simp, ?_⟩
  rw [utf8Length_append, utf8Length_cons, hlen, hsize]
  show i - 1 + (1 + 0) = i
  omega

theorem boundary_end (text : List Char) : isCharBoundary text (utf8 text).length = true := by
  rw [length_utf8]
  exact isCharBoundary_length text

/-- A cut at two boundaries, in order, gives what stands between them. -/
theorem textAt_returns {a b : Nat} (hab : a ≤ b) (ha : isCharBoundary text a = true)
    (hb : isCharBoundary text b = true) :
    Returns (textAt text a b) (fun s => ∃ before after, text = before ++ s ++ after ∧
      utf8Length before = a ∧ a + utf8Length s = b) := by
  obtain ⟨before, rest, htext, hbefore⟩ := isCharBoundary_iff.mp ha
  obtain ⟨upTo, after, htext', hupTo⟩ := isCharBoundary_iff.mp hb
  obtain ⟨s, rfl⟩ : before <+: upTo :=
    prefix_of_utf8Length_le ⟨rest, htext.symm⟩ ⟨after, htext'.symm⟩ (by omega)
  rw [utf8Length_append] at hupTo
  rw [textAt, if_pos ⟨hab, ha, hb⟩, Text.slice]
  refine ⟨s, ?_, before, after, htext', hbefore, by omega⟩
  have hlen : b - a = utf8Length s := by omega
  rw [htext', List.append_assoc, ← hbefore, dropBytes_append, hbefore, hlen, takeBytes_append]

end Bytes

/-! ## Scanning -/

/-- `while offset < len && pred(bytes[offset]) { offset += 1 }`, from `start.min(len)`. -/
def scanWhile (bytes : List UInt8) (start : Nat) (pred : UInt8 → Bool) : Except Fault Nat :=
  loop .stalled (fun offset =>
    if offset < bytes.length then do
      let b ← nth bytes offset
      if pred b then return .inl (offset + 1) else return .inr offset
    else return .inr offset) (bytes.length + 1) (min start bytes.length)

/-- Where a scan stops: behind bytes with the property, at one without it or at the end. -/
structure Scanned (bytes : List UInt8) (pred : UInt8 → Bool) (start stop : Nat) : Prop where
  le : start ≤ stop
  inside : stop ≤ bytes.length
  run : ∀ i, start ≤ i → i < stop → ∃ b, bytes[i]? = some b ∧ pred b = true
  ends : ∀ b, bytes[stop]? = some b → pred b = false

theorem scanWhile_returns {bytes : List UInt8} {start : Nat} (pred : UInt8 → Bool)
    (h : start ≤ bytes.length) : Returns (scanWhile bytes start pred) (Scanned bytes pred start) := by
  -- the bytes passed so far have the property
  let I : Nat → Prop := fun offset => start ≤ offset ∧ offset ≤ bytes.length ∧
    ∀ i, start ≤ i → i < offset → ∃ b, bytes[i]? = some b ∧ pred b = true
  refine @loop_returns _ _ _ _ _ I (fun offset => bytes.length - offset) _ ?_ _ _ ?_ ?_
  · rintro offset ⟨hle, hin, hrun⟩
    refine .ite (fun hlt => ?_) (fun hend => ?_)
    · refine (nth_returns hlt).bind ?_
      intro b hb
      refine .ite (fun hp => .pure ?_) (fun hp => .pure ?_)
      · refine ⟨⟨Nat.le_succ_of_le hle, hlt, ?_⟩, Nat.sub_succ_lt_self _ _ hlt⟩
        intro i hi hlt'
        rcases Nat.lt_or_eq_of_le (Nat.le_of_lt_succ hlt') with hi' | rfl
        · exact hrun i hi hi'
        · exact ⟨b, hb, hp⟩
      · refine ⟨hle, hin, hrun, ?_⟩
        intro c hc
        rw [hb] at hc
        obtain rfl := Option.some.inj hc
        exact Bool.eq_false_iff.mpr hp
    · refine .pure ⟨hle, hin, hrun, ?_⟩
      intro b hb
      exact absurd (List.getElem?_eq_some_iff.mp hb).1 hend
  · rw [Nat.min_eq_left h]
    exact ⟨Nat.le_refl _, h, fun i hi hlt => absurd (Nat.lt_of_le_of_lt hi hlt) (Nat.lt_irrefl _)⟩
  · omega

namespace Scanned

open Bytes Codec Text

variable {bytes : List UInt8} {text : List Char} {pred : UInt8 → Bool} {start stop : Nat}

/-- A scan that got anywhere stands behind a byte with the property. -/
theorem behind (h : Scanned bytes pred start stop) (hlt : start < stop) : Behind bytes pred stop := by
  obtain ⟨b, hb, hp⟩ := h.run (stop - 1) (by omega) (by omega)
  exact ⟨by omega, b, hb, hp⟩

theorem first (h : Scanned bytes pred start stop) (hlt : start < stop) :
    ∃ b, bytes[start]? = some b ∧ pred b = true :=
  h.run start (Nat.le_refl _) hlt

/-- A scan over bytes of ASCII stops at a boundary. -/
theorem boundary (h : Scanned (utf8 text) pred start stop) (hascii : ∀ b, pred b = true → isAscii b = true)
    (hstart : isCharBoundary text start = true) : isCharBoundary text stop = true := by
  rcases Nat.lt_or_eq_of_le h.le with hlt | rfl
  · exact ((h.behind hlt).imp hascii).boundary
  · exact hstart

/-- A scan up to a byte of ASCII stops at a boundary. -/
theorem boundary_of_ends (h : Scanned (utf8 text) pred start stop)
    (hascii : ∀ b, pred b = false → isAscii b = true) : isCharBoundary text stop = true := by
  rcases Nat.lt_or_eq_of_le h.inside with hlt | rfl
  · obtain ⟨b, hb⟩ : ∃ b, (utf8 text)[stop]? = some b := ⟨_, List.getElem?_eq_getElem hlt⟩
    exact boundary_at hb (hascii b (h.ends b hb))
  · exact boundary_end text

end Scanned

end Octos
