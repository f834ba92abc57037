/-
# `Octos.Core.SafeFilename` — a filename for any text

`safe_filename` of `utils.rs`.  The bytes of the name are percent-encoded; a name that
grows too long is cut between two bytes, and a hash of the whole name goes behind it:

    <up to 64 characters>
    <62 to 64 characters>-<8 digits of the hash>

The empty name is written `_`, which is also how the name `_` is written.
-/
import Octos.Bus.SessionPath
import Octos.Lib.Slices

namespace Octos.Core

open Octos.Codec Octos.Text
open Octos.Bus.SessionPath (isPlain hexUpper encodeByte encodePathComponent)

/-! ## The name -/

/-- `SAFE_FILENAME_MAX_BYTES` -/
def safeFilenameMaxBytes : Nat :=
  80

/-- `SAFE_FILENAME_STEM_BYTES` -/
def safeFilenameStemBytes : Nat :=
  64

/-- A digit of `{:x}`. -/
def hexLower (n : Nat) : Char :=
  "0123456789abcdef".toList.getD n '0'

/-- `{byte:02x}` -/
def hexByte (byte : UInt8) : List Char :=
  [hexLower (byte.toNat / 16), hexLower (byte.toNat % 16)]

/-- The loop that moves the cut off a triplet. -/
def clampCut (encoded : List Char) : Nat → Nat
  | 0 => 0
  | cut + 1 =>
      if encoded[cut]? = some '%' ∨ (1 ≤ cut ∧ encoded[cut - 1]? = some '%') then clampCut encoded cut
      else cut + 1

/-- The encoded name, which is never empty. -/
def encodedName (name : List Char) : List Char :=
  let encoded := encodePathComponent name
  if encoded.isEmpty then ['_'] else encoded

/-- `digest` is SHA-256. -/
def safeFilename (digest : List UInt8 → Vector UInt8 32) (name : List Char) : List Char :=
  let encoded := encodedName name
  if encoded.length ≤ safeFilenameStemBytes then encoded
  else
    encoded.take (clampCut encoded safeFilenameStemBytes) ++
      '-' :: ((digest (utf8 name)).toList.take 4).flatMap hexByte

/-! ## What a name is written with -/

/-- A digit of a triplet. -/
def HexUpper (ch : Char) : Prop :=
  ch ∈ "0123456789ABCDEF".toList

/-- What stands in a filename. -/
def FileChar (ch : Char) : Prop :=
  ch.toNat < 128 ∧ ch ≠ '/' ∧ ch ≠ '\\' ∧ ch ≠ '.'

theorem hexUpper_mem (n : Nat) : HexUpper (hexUpper n) := by
  rw [HexUpper, hexUpper, List.getD_eq_getElem?_getD]
  cases h : "0123456789ABCDEF".toList[n]? with
  | none => exact List.mem_cons_self
  | some ch => exact List.mem_of_getElem? h

/-- The test of `FileChar`, and against a percent sign. -/
def isFileChar (ch : Char) : Bool :=
  decide (ch.toNat < 128) && ch != '/' && ch != '\\' && ch != '.' && ch != '%'

theorem fileChar_of_test {ch : Char} (h : isFileChar ch = true) : FileChar ch ∧ ch ≠ '%' := by
  simp only [isFileChar, Bool.and_eq_true, decide_eq_true_eq, bne_iff_ne] at h
  exact ⟨⟨h.1.1.1.1, h.1.1.1.2, h.1.1.2, h.1.2⟩, h.2⟩

theorem HexUpper.fileChar {ch : Char} (h : HexUpper ch) : FileChar ch ∧ ch ≠ '%' := by
  have hall : "0123456789ABCDEF".toList.all isFileChar = true := rfl
  exact fileChar_of_test (List.all_eq_true.mp hall ch h)

theorem hexLower_fileChar (n : Nat) : FileChar (hexLower n) ∧ hexLower n ≠ '%' := by
  have hall : "0123456789abcdef".toList.all isFileChar = true := rfl
  refine fileChar_of_test (List.all_eq_true.mp hall _ ?_)
  rw [hexLower, List.getD_eq_getElem?_getD]
  cases h : "0123456789abcdef".toList[n]? with
  | none => exact List.mem_cons_self
  | some ch => exact List.mem_of_getElem? h

/-- A byte is a character that is not a percent sign, or a triplet. -/
theorem encodeByte_cases (byte : UInt8) :
    (∃ ch, encodeByte byte = [ch] ∧ FileChar ch ∧ ch ≠ '%') ∨
      ∃ hi lo, encodeByte byte = ['%', hi, lo] ∧ HexUpper hi ∧ HexUpper lo := by
  by_cases hplain : isPlain byte = true
  · left
    refine ⟨Char.ofNat byte.toNat, by rw [encodeByte, if_pos hplain], ?_⟩
    have hvalid : byte.toNat.isValidChar := .inl (Nat.lt_trans byte.toNat_lt (by decide))
    have hnat : (Char.ofNat byte.toNat).toNat = byte.toNat := by
      rw [Char.toNat_ofNat, if_pos hvalid]
    simp only [isPlain, Bool.or_eq_true, Bool.and_eq_true, decide_eq_true_eq, UInt8.le_iff_toNat_le,
      beq_iff_eq, ← UInt8.toNat_inj] at hplain
    have hne : ∀ ch : Char, byte.toNat ≠ ch.toNat → Char.ofNat byte.toNat ≠ ch := by
      intro ch h heq
      rw [← heq, hnat] at h
      exact h rfl
    have hval : ∀ n : Nat, n < 256 → (UInt8.ofNat n).toNat = n := fun n h => UInt8.toNat_ofNat_of_lt' h
    simp only [show (48 : UInt8).toNat = 48 from rfl, show (57 : UInt8).toNat = 57 from rfl,
      show (65 : UInt8).toNat = 65 from rfl, show (90 : UInt8).toNat = 90 from rfl,
      show (97 : UInt8).toNat = 97 from rfl, show (122 : UInt8).toNat = 122 from rfl,
      show (45 : UInt8).toNat = 45 from rfl, show (95 : UInt8).toNat = 95 from rfl] at hplain
    refine ⟨⟨by rw [hnat]; omega, hne _ ?_, hne _ ?_, hne _ ?_⟩, hne _ ?_⟩
    · show byte.toNat ≠ 47
      omega
    · show byte.toNat ≠ 92
      omega
    · show byte.toNat ≠ 46
      omega
    · show byte.toNat ≠ 37
      omega
  · right
    exact ⟨_, _, by rw [encodeByte, if_neg hplain], hexUpper_mem _, hexUpper_mem _⟩

/-! ## Cutting between bytes -/

/-- The encoding ends with no percent sign, and has none before its last character. -/
theorem encoded_end (bytes : List UInt8) :
    (∀ c, (bytes.flatMap encodeByte).length = c + 1 → (bytes.flatMap encodeByte)[c]? ≠ some '%') ∧
      ∀ c, (bytes.flatMap encodeByte).length = c + 2 → (bytes.flatMap encodeByte)[c]? ≠ some '%' := by
  induction bytes using List.reverseRecOn with
  | nil => exact ⟨nofun, nofun⟩
  | append_singleton bytes byte ih =>
      rw [List.flatMap_append, List.flatMap_singleton]
      rcases encodeByte_cases byte with ⟨ch, hbyte, -, hne⟩ | ⟨hi, lo, hbyte, hhi, hlo⟩
      · rw [hbyte, List.length_append, List.length_singleton]
        refine ⟨?_, ?_⟩
        · intro c hc
          rw [List.getElem?_append_right (by omega), show c - (bytes.flatMap encodeByte).length = 0 by omega]
          exact fun h => hne (Option.some.inj h)
        · intro c hc
          rw [List.getElem?_append_left (by omega)]
          exact ih.1 c (by omega)
      · rw [hbyte, List.length_append]
        have hthree : ['%', hi, lo].length = 3 := rfl
        rw [hthree]
        refine ⟨?_, ?_⟩
        · intro c hc
          rw [List.getElem?_append_right (by omega), show c - (bytes.flatMap encodeByte).length = 2 by omega]
          exact fun h => hlo.fileChar.2 (Option.some.inj h)
        · intro c hc
          rw [List.getElem?_append_right (by omega), show c - (bytes.flatMap encodeByte).length = 1 by omega]
          exact fun h => hhi.fileChar.2 (Option.some.inj h)

/-- At the end of a byte the cut stays. -/
theorem clampCut_end {bytes : List UInt8} {rest : List Char} :
    clampCut (bytes.flatMap encodeByte ++ rest) (bytes.flatMap encodeByte).length =
      (bytes.flatMap encodeByte).length := by
  obtain ⟨hlast, hbefore⟩ := encoded_end bytes
  cases hlength : (bytes.flatMap encodeByte).length with
  | zero => rfl
  | succ c =>
      rw [clampCut, if_neg]
      rintro (h | ⟨hpos, h⟩)
      · rw [List.getElem?_append_left (by omega)] at h
        exact hlast c hlength h
      · rw [List.getElem?_append_left (by omega)] at h
        exact hbefore (c - 1) (by omega) h

/-- Inside a triplet the cut moves down. -/
theorem clampCut_inside {front rest : List Char} {hi lo : Char} {j : Nat} (hj : j = 1 ∨ j = 2) :
    clampCut (front ++ (['%', hi, lo] ++ rest)) (front.length + j) =
      clampCut (front ++ (['%', hi, lo] ++ rest)) (front.length + (j - 1)) := by
  have hpercent : (front ++ (['%', hi, lo] ++ rest))[front.length]? = some '%' := by
    rw [List.getElem?_append_right (Nat.le_refl _), Nat.sub_self]
    rfl
  rcases hj with rfl | rfl
  · show (if _ then _ else _) = _
    rw [if_pos (.inl hpercent)]
    rfl
  · show (if _ then _ else _) = _
    rw [if_pos (.inr ⟨Nat.le_add_left 1 _, hpercent⟩)]

/-- Below its length the encoding is cut between two bytes, and at most two characters
are given up for it. -/
theorem clampCut_spec : ∀ (rest front : List UInt8) {cut : Nat}, (front.flatMap encodeByte).length ≤ cut →
    cut ≤ ((front ++ rest).flatMap encodeByte).length →
    ∃ kept gone, front ++ rest = kept ++ gone ∧
      clampCut ((front ++ rest).flatMap encodeByte) cut = (kept.flatMap encodeByte).length ∧
      (kept.flatMap encodeByte).length ≤ cut ∧ cut ≤ (kept.flatMap encodeByte).length + 2 := by
  intro rest
  induction rest with
  | nil =>
      intro front cut hlow hhigh
      rw [List.append_nil] at hhigh
      obtain rfl : cut = (front.flatMap encodeByte).length := Nat.le_antisymm hhigh hlow
      refine ⟨front, [], rfl, ?_, Nat.le_refl _, Nat.le_add_right _ _⟩
      have hstay := @clampCut_end front []
      rw [List.append_nil] at hstay
      rw [List.append_nil]
      exact hstay
  | cons byte rest ih =>
      intro front cut hlow hhigh
      have hassoc : front ++ byte :: rest = (front ++ [byte]) ++ rest := by simp
      have hnext : ((front ++ [byte]).flatMap encodeByte).length =
          (front.flatMap encodeByte).length + (encodeByte byte).length := by
        rw [List.flatMap_append, List.flatMap_singleton, List.length_append]
      by_cases hpast : ((front ++ [byte]).flatMap encodeByte).length ≤ cut
      · rw [hassoc] at hhigh ⊢
        exact ih (front ++ [byte]) hpast hhigh
      · -- the cut is inside this byte, or right before it
        refine ⟨front, byte :: rest, rfl, ?_, hlow, ?_⟩
        · have htext : (front ++ byte :: rest).flatMap encodeByte =
              front.flatMap encodeByte ++ (encodeByte byte ++ rest.flatMap encodeByte) := by
            rw [List.flatMap_append, List.flatMap_cons]
          rw [htext]
          rcases encodeByte_cases byte with ⟨ch, hbyte, -, -⟩ | ⟨hi, lo, hbyte, -, -⟩
          · rw [hnext, hbyte, List.length_singleton] at hpast
            obtain rfl : cut = (front.flatMap encodeByte).length := by omega
            exact clampCut_end
          · have hthree : (encodeByte byte).length = 3 := by rw [hbyte]; rfl
            rw [hnext, hthree] at hpast
            rw [hbyte]
            obtain ⟨j, rfl⟩ : ∃ j, cut = (front.flatMap encodeByte).length + j := ⟨_, (Nat.add_sub_of_le hlow).symm⟩
            have hj : j = 0 ∨ j = 1 ∨ j = 2 := by omega
            rcases hj with rfl | rfl | rfl
            · exact clampCut_end
            · rw [clampCut_inside (.inl rfl)]
              exact clampCut_end
            · rw [clampCut_inside (.inr rfl), clampCut_inside (.inl rfl)]
              exact clampCut_end
        · rcases encodeByte_cases byte with ⟨ch, hbyte, -, -⟩ | ⟨hi, lo, hbyte, -, -⟩ <;>
            simp only [hnext, hbyte, List.length_cons, List.length_nil] at hpast <;> omega

/-! ## The filename -/

/-- What a filename is: not empty, short, a single component without a dot, and made of
whole bytes of the name and a tail without triplets. -/
structure Filename (name r : List Char) : Prop where
  ne_nil : r ≠ []
  short : utf8Length r ≤ safeFilenameMaxBytes
  component : '/' ∉ r ∧ '\\' ∉ r ∧ '.' ∉ r
  triplets : ∀ i, r[i]? = some '%' →
    ∃ hi lo, r[i + 1]? = some hi ∧ r[i + 2]? = some lo ∧ HexUpper hi ∧ HexUpper lo
  whole : ∃ kept tail, kept <+: utf8 name ∧ '%' ∉ tail ∧ r = kept.flatMap encodeByte ++ tail

theorem mem_encodeByte {byte : UInt8} {ch : Char} (h : ch ∈ encodeByte byte) : FileChar ch := by
  rcases encodeByte_cases byte with ⟨c, hbyte, hc, -⟩ | ⟨hi, lo, hbyte, hhi, hlo⟩
  · rw [hbyte, List.mem_singleton] at h
    rw [h]
    exact hc
  · rw [hbyte] at h
    simp only [List.mem_cons, List.not_mem_nil, or_false] at h
    rcases h with rfl | rfl | rfl
    · exact ⟨by decide, by decide, by decide, by decide⟩
    · exact hhi.fileChar.1
    · exact hlo.fileChar.1

/-- A percent sign stands in front of its two digits. -/
theorem triplet_at {tail : List Char} (htail : '%' ∉ tail) : ∀ {kept : List UInt8} {i : Nat},
    (kept.flatMap encodeByte ++ tail)[i]? = some '%' →
    ∃ hi lo, (kept.flatMap encodeByte ++ tail)[i + 1]? = some hi ∧
      (kept.flatMap encodeByte ++ tail)[i + 2]? = some lo ∧ HexUpper hi ∧ HexUpper lo := by
  intro kept
  induction kept with
  | nil =>
      intro i h
      exact absurd (List.mem_of_getElem? h) htail
  | cons byte kept ih =>
      intro i h
      rw [List.flatMap_cons, List.append_assoc] at h ⊢
      rcases encodeByte_cases byte with ⟨c, hbyte, -, hne⟩ | ⟨hi, lo, hbyte, hhi, hlo⟩
      · rw [hbyte] at h ⊢
        cases i with
        | zero => exact absurd (Option.some.inj h) hne
        | succ i => exact ih h
      · rw [hbyte] at h ⊢
        match i, h with
        | 0, _ => exact ⟨hi, lo, rfl, rfl, hhi, hlo⟩
        | 1, h => exact absurd (Option.some.inj h) hhi.fileChar.2
        | 2, h => exact absurd (Option.some.inj h) hlo.fileChar.2
        | i + 3, h => exact ih h

/-- Whole bytes of the name with a short tail behind them. -/
theorem filename_of_parts {name tail : List Char} {kept : List UInt8} (hkept : kept <+: utf8 name)
    (htail : ∀ ch ∈ tail, FileChar ch ∧ ch ≠ '%') (hne : kept.flatMap encodeByte ++ tail ≠ [])
    (hshort : (kept.flatMap encodeByte ++ tail).length ≤ safeFilenameMaxBytes) :
    Filename name (kept.flatMap encodeByte ++ tail) := by
  have hall : ∀ ch ∈ kept.flatMap encodeByte ++ tail, FileChar ch := by
    intro ch hch
    rcases List.mem_append.mp hch with h | h
    · obtain ⟨byte, -, hbyte⟩ := List.mem_flatMap.mp h
      exact mem_encodeByte hbyte
    · exact (htail ch h).1
  have hpercent : '%' ∉ tail := fun h => (htail _ h).2 rfl
  refine ⟨hne, ?_, ⟨?_, ?_, ?_⟩, fun i => triplet_at hpercent, kept, tail, hkept, hpercent, rfl⟩
  · rw [utf8Length_of_ascii (fun ch hch => (hall ch hch).1)]
    exact hshort
  · exact fun h => (hall _ h).2.1 rfl
  · exact fun h => (hall _ h).2.2.1 rfl
  · exact fun h => (hall _ h).2.2.2 rfl

theorem encodePathComponent_ne_nil {name : List Char} (h : name ≠ []) : encodePathComponent name ≠ [] := by
  intro hnil
  exact h (Bus.SessionPath.encodePathComponent_injective (hnil.trans rfl))

theorem encodedName_nil : encodedName [] = ['_'] :=
  rfl

theorem encodedName_of_ne_nil {name : List Char} (h : name ≠ []) :
    encodedName name = encodePathComponent name := by
  rw [encodedName, List.isEmpty_eq_false_iff.mpr (encodePathComponent_ne_nil h)]
  rfl

variable (digest : List UInt8 → Vector UInt8 32)

theorem length_suffix (bytes : List UInt8) :
    ('-' :: ((digest bytes).toList.take 4).flatMap hexByte).length = 9 := by
  have hfour : ((digest bytes).toList.take 4).length = 4 := by
    rw [List.length_take, Vector.length_toList]
    rfl
  have htwo : ∀ l : List UInt8, (l.flatMap hexByte).length = 2 * l.length := by
    intro l
    induction l with
    | nil => rfl
    | cons byte l ih =>
        rw [List.flatMap_cons, List.length_append, ih, List.length_cons, hexByte]
        show 2 + 2 * l.length = 2 * (l.length + 1)
        omega
  rw [List.length_cons, htwo, hfour]

theorem safeFilename_unclamped {name : List Char} (h : (encodedName name).length ≤ safeFilenameStemBytes) :
    safeFilename digest name = encodedName name :=
  if_pos h

/-- A clamped name: whole bytes of the name, and nine characters behind them. -/
theorem safeFilename_clamped {name : List Char} (h : safeFilenameStemBytes < (encodedName name).length) :
    ∃ kept gone, utf8 name = kept ++ gone ∧ safeFilename digest name =
        kept.flatMap encodeByte ++ '-' :: ((digest (utf8 name)).toList.take 4).flatMap hexByte ∧
      (kept.flatMap encodeByte).length ≤ 64 ∧ 62 ≤ (kept.flatMap encodeByte).length := by
  have hne : name ≠ [] := by
    rintro rfl
    exact absurd h (by decide)
  have hencoded : encodedName name = (utf8 name).flatMap encodeByte := encodedName_of_ne_nil hne
  have hlong : safeFilenameStemBytes ≤ ((([] : List UInt8) ++ utf8 name).flatMap encodeByte).length := by
    rw [List.nil_append, ← hencoded]
    exact Nat.le_of_lt h
  obtain ⟨kept, gone, hsplit, hcut, hle, hge⟩ := clampCut_spec (utf8 name) [] (Nat.zero_le _) hlong
  rw [List.nil_append] at hsplit hcut
  refine ⟨kept, gone, hsplit, ?_, hle, ?_⟩
  · simp only [safeFilename, if_neg (Nat.not_le.mpr h)]
    rw [hencoded, hcut, hsplit, List.flatMap_append, List.take_left]
  · have hge' : 64 ≤ (kept.flatMap encodeByte).length + 2 := hge
    omega

theorem safeFilename_isFilename (name : List Char) : Filename name (safeFilename digest name) := by
  by_cases h : (encodedName name).length ≤ safeFilenameStemBytes
  · rw [safeFilename_unclamped digest h]
    have hle : (encodedName name).length ≤ safeFilenameMaxBytes := Nat.le_trans h (by decide)
    by_cases hname : name = []
    · subst hname
      exact filename_of_parts List.nil_prefix (fun ch hch => by
        rw [List.mem_singleton.mp hch]
        exact fileChar_of_test rfl) (List.cons_ne_nil _ _) (by decide)
    · rw [encodedName_of_ne_nil hname] at hle ⊢
      have hparts := @filename_of_parts name [] _ List.prefix_rfl
        (fun ch hch => absurd hch List.not_mem_nil)
      rw [List.append_nil] at hparts
      exact hparts (encodePathComponent_ne_nil hname) hle
  · obtain ⟨kept, gone, hsplit, heq, hle, -⟩ := safeFilename_clamped digest (Nat.lt_of_not_le h)
    rw [heq]
    refine filename_of_parts ⟨gone, hsplit.symm⟩ ?_ ?_ ?_
    · intro ch hch
      rcases List.mem_cons.mp hch with rfl | hch
      · exact fileChar_of_test rfl
      · obtain ⟨byte, -, hbyte⟩ := List.mem_flatMap.mp hch
        rw [hexByte] at hbyte
        simp only [List.mem_cons, List.not_mem_nil, or_false] at hbyte
        rcases hbyte with rfl | rfl
        · exact hexLower_fileChar _
        · exact hexLower_fileChar _
    · simp
    · rw [List.length_append, length_suffix]
      show (kept.flatMap encodeByte).length + 9 ≤ 80
      omega

/-- Two names that get different filenames: they differ and neither is clamped, or one
is clamped and the other is not. -/
structure Apart (a b : List Char) : Prop where
  unclamped : a ≠ b → (encodedName a).length ≤ safeFilenameStemBytes →
    (encodedName b).length ≤ safeFilenameStemBytes → safeFilename digest a ≠ safeFilename digest b
  clamped : safeFilenameStemBytes < (encodedName a).length →
    (encodedName b).length ≤ safeFilenameStemBytes → safeFilename digest a ≠ safeFilename digest b

/-- Only the empty name shares its encoding with another. -/
theorem encodedName_eq {a b : List Char} (h : encodedName a = encodedName b) :
    a = b ∨ (a = [] ∧ b = ['_']) ∨ (a = ['_'] ∧ b = []) := by
  have hunderscore : ['_'] = encodePathComponent ['_'] := by decide
  by_cases ha : a = []
  · by_cases hb : b = []
    · exact .inl (ha.trans hb.symm)
    · rw [ha, encodedName_nil, encodedName_of_ne_nil hb, hunderscore] at h
      exact .inr (.inl ⟨ha, (Bus.SessionPath.encodePathComponent_injective h).symm⟩)
  · by_cases hb : b = []
    · rw [hb, encodedName_nil, encodedName_of_ne_nil ha, hunderscore] at h
      exact .inr (.inr ⟨Bus.SessionPath.encodePathComponent_injective h, hb⟩)
    · rw [encodedName_of_ne_nil ha, encodedName_of_ne_nil hb] at h
      exact .inl (Bus.SessionPath.encodePathComponent_injective h)

/-- **Filenames are apart, except those of the empty name and `_`.**  Every result is a
filename, and two names get the filenames they should exactly when they are not these
two. -/
theorem safeFilename_apart_iff (a b : List Char) :
    (Apart digest a b ∧ Filename a (safeFilename digest a) ∧ Filename b (safeFilename digest b)) ↔
      ¬ ((a = [] ∧ b = ['_']) ∨ (a = ['_'] ∧ b = [])) := by
  constructor
  · rintro ⟨hapart, -, -⟩ (⟨rfl, rfl⟩ | ⟨rfl, rfl⟩)
    · exact hapart.unclamped (by decide) (by decide) (by decide) rfl
    · exact hapart.unclamped (by decide) (by decide) (by decide) rfl
  · intro hnames
    refine ⟨⟨?_, ?_⟩, safeFilename_isFilename digest a, safeFilename_isFilename digest b⟩
    · intro hne ha hb heq
      rw [safeFilename_unclamped digest ha, safeFilename_unclamped digest hb] at heq
      exact hnames ((encodedName_eq heq).resolve_left hne)
    · intro ha hb heq
      obtain ⟨kept, gone, -, hclamped, -, hge⟩ := safeFilename_clamped digest ha
      rw [safeFilename_unclamped digest hb] at heq
      have hlength : 71 ≤ (safeFilename digest a).length := by
        rw [hclamped, List.length_append, length_suffix]
        omega
      have hle : (encodedName b).length ≤ 64 := hb
      rw [heq] at hlength
      omega

/-- Two names that are not clamped, and one file. -/
theorem empty_and_underscore_collide : ¬ ∀ a b : List Char, a ≠ b →
    (encodedName a).length ≤ safeFilenameStemBytes → (encodedName b).length ≤ safeFilenameStemBytes →
    safeFilename (fun _ => Vector.replicate 32 0) a ≠ safeFilename (fun _ => Vector.replicate 32 0) b := by
  intro h
  exact h [] ['_'] (by decide) (by decide) (by decide) rfl

end Octos.Core
