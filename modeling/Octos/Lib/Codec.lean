/-
# `Octos.Lib.Codec` — text as bytes, and bytes as text

The UTF-8 of a text, with the characters and the decoder of the library, and the
URL-safe base 64 without padding: three bytes are four characters,

    aaaaaabb bbbbcccc ccdddddd
    aaaaaa bbbbbb cccccc dddddd

and one or two bytes at the end are two or three.  The bits that are left over at the
end are zero, or the text is not accepted.
-/
import Mathlib

namespace Octos.Codec

/-! ## UTF-8 -/

def utf8 (text : List Char) : List UInt8 :=
  text.flatMap String.utf8EncodeChar

/-- `String::from_utf8`. -/
def fromUtf8 (bytes : List UInt8) : Option (List Char) :=
  bytes.toByteArray.utf8Decode?.map Array.toList

theorem fromUtf8_utf8 (text : List Char) : fromUtf8 (utf8 text) = some text := by
  have hencode : (utf8 text).toByteArray = text.utf8Encode := rfl
  rw [fromUtf8, hencode, List.utf8Decode?_utf8Encode]
  rfl

theorem utf8_cons (ch : Char) (text : List Char) :
    utf8 (ch :: text) = String.utf8EncodeChar ch ++ utf8 text :=
  List.flatMap_cons

/-! ## Base 64 -/

def alphabet : List Char :=
  "ABCDEFGHIJKLMNOPQRSTUVWXYZabcdefghijklmnopqrstuvwxyz0123456789-_".toList

/-- The character of six bits. -/
def digit (n : Nat) : Char :=
  alphabet.getD n 'A'

def valueOf (ch : Char) : Option Nat :=
  alphabet.idxOf? ch

def encode : List UInt8 → List Char
  | a :: b :: c :: rest =>
      digit (a.toNat / 4) :: digit (a.toNat % 4 * 16 + b.toNat / 16) ::
        digit (b.toNat % 16 * 4 + c.toNat / 64) :: digit (c.toNat % 64) :: encode rest
  | [a, b] =>
      [digit (a.toNat / 4), digit (a.toNat % 4 * 16 + b.toNat / 16), digit (b.toNat % 16 * 4)]
  | [a] => [digit (a.toNat / 4), digit (a.toNat % 4 * 16)]
  | [] => []

def decode : List Char → Option (List UInt8)
  | w :: x :: y :: z :: rest =>
      match valueOf w, valueOf x, valueOf y, valueOf z, decode rest with
      | some w, some x, some y, some z, some bytes =>
          some (UInt8.ofNat (w * 4 + x / 16) :: UInt8.ofNat (x % 16 * 16 + y / 4) ::
            UInt8.ofNat (y % 4 * 64 + z) :: bytes)
      | _, _, _, _, _ => none
  | [w, x, y] =>
      match valueOf w, valueOf x, valueOf y with
      | some w, some x, some y =>
          if y % 4 = 0 then
            some [UInt8.ofNat (w * 4 + x / 16), UInt8.ofNat (x % 16 * 16 + y / 4)]
          else none
      | _, _, _ => none
  | [w, x] =>
      match valueOf w, valueOf x with
      | some w, some x => if x % 16 = 0 then some [UInt8.ofNat (w * 4 + x / 16)] else none
      | _, _ => none
  | [_] => none
  | [] => some []

theorem valueOf_digit : ∀ n < 64, valueOf (digit n) = some n := by
  decide

theorem digit_mem (n : Nat) : digit n ∈ alphabet := by
  rw [digit, List.getD_eq_getElem?_getD]
  cases h : alphabet[n]? with
  | none => decide
  | some ch => exact List.mem_of_getElem? h

theorem encode_subset : ∀ (bytes : List UInt8), ∀ ch ∈ encode bytes, ch ∈ alphabet
  | a :: b :: c :: rest, ch, h => by
      rw [encode] at h
      simp only [List.mem_cons] at h
      rcases h with rfl | rfl | rfl | rfl | h
      · exact digit_mem _
      · exact digit_mem _
      · exact digit_mem _
      · exact digit_mem _
      · exact encode_subset rest ch h
  | [a, b], ch, h => by
      simp only [encode, List.mem_cons, List.not_mem_nil, or_false] at h
      rcases h with rfl | rfl | rfl
      · exact digit_mem _
      · exact digit_mem _
      · exact digit_mem _
  | [a], ch, h => by
      simp only [encode, List.mem_cons, List.not_mem_nil, or_false] at h
      rcases h with rfl | rfl
      · exact digit_mem _
      · exact digit_mem _
  | [], _, h => nomatch h

theorem slash_not_mem_encode (bytes : List UInt8) : '/' ∉ encode bytes := by
  intro h
  have hno : '/' ∉ alphabet := by decide
  exact hno (encode_subset bytes _ h)

/-- A byte is read back from the bits it was cut into. -/
theorem ofNat_parts {a : UInt8} {n : Nat} (h : n = a.toNat) : UInt8.ofNat n = a := by
  rw [h, UInt8.ofNat_toNat]

theorem decode_encode : ∀ (bytes : List UInt8), decode (encode bytes) = some bytes
  | a :: b :: c :: rest => by
      have ha := a.toNat_lt
      have hb := b.toNat_lt
      have hc := c.toNat_lt
      rw [encode, decode, decode_encode rest, valueOf_digit _ (by omega), valueOf_digit _ (by omega),
        valueOf_digit _ (by omega), valueOf_digit _ (by omega)]
      dsimp only
      rw [ofNat_parts (a := a) (by omega), ofNat_parts (a := b) (by omega),
        ofNat_parts (a := c) (by omega)]
  | [a, b] => by
      have ha := a.toNat_lt
      have hb := b.toNat_lt
      rw [encode, decode, valueOf_digit _ (by omega), valueOf_digit _ (by omega),
        valueOf_digit _ (by omega)]
      dsimp only
      rw [if_pos (by omega), ofNat_parts (a := a) (by omega), ofNat_parts (a := b) (by omega)]
  | [a] => by
      have ha := a.toNat_lt
      rw [encode, decode, valueOf_digit _ (by omega), valueOf_digit _ (by omega)]
      dsimp only
      rw [if_pos (by omega), ofNat_parts (a := a) (by omega)]
  | [] => rfl

end Octos.Codec
