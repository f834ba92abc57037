/-
# `Octos.Bus.SessionPath` — the files of a session key

`session.rs` names the file of a session in two ways.  The layout per user has a
directory for the base key and a file for the topic,

    users/<base key>/sessions/<topic, or "default">.jsonl

and the legacy one a file for the whole key, which is cut when it grows long and then
ends with a hash of the key:

    sessions/<key>.jsonl
    sessions/<about 183 characters of the key>_<hash>.jsonl

All parts are percent-encoded: letters, digits, hyphens and underscores stay, any
other byte is written with two digits.
-/
import Octos.Lib.Codec
import Octos.Lib.Cut

namespace Octos.Bus.SessionPath

open Octos.Codec

/-! ## Percent-encoding -/

/-- A byte that stays as it is. -/
def isPlain (byte : UInt8) : Bool :=
  (48 ≤ byte && byte ≤ 57) || (65 ≤ byte && byte ≤ 90) || (97 ≤ byte && byte ≤ 122) ||
    byte == 45 || byte == 95

/-- A digit of `{:X}`. -/
def hexUpper (n : Nat) : Char :=
  "0123456789ABCDEF".toList.getD n '0'

/-- `%{byte:02X}` -/
def encodeByte (byte : UInt8) : List Char :=
  if isPlain byte then [Char.ofNat byte.toNat]
  else ['%', hexUpper (byte.toNat / 16), hexUpper (byte.toNat % 16)]

def encodePathComponent (s : List Char) : List Char :=
  (utf8 s).flatMap encodeByte

/-- `char::to_digit(16)` -/
def hexValue (ch : Char) : Option Nat :=
  if '0' ≤ ch ∧ ch ≤ '9' then some (ch.toNat - '0'.toNat)
  else if 'A' ≤ ch ∧ ch ≤ 'F' then some (ch.toNat - 'A'.toNat + 10)
  else if 'a' ≤ ch ∧ ch ≤ 'f' then some (ch.toNat - 'a'.toNat + 10)
  else none

/-- `u8::from_str_radix` of two characters: a plus sign may lead. -/
def fromHex (hi lo : Char) : Option Nat :=
  if hi = '+' then hexValue lo
  else
    match hexValue hi, hexValue lo with
    | some h, some l => some (h * 16 + l)
    | _, _ => none

/-- The bytes of a percent sign and the two characters behind it. -/
def decodeHex (hi lo : Char) : List UInt8 :=
  match fromHex hi lo with
  | some byte => [UInt8.ofNat byte]
  | none => utf8 ['%', hi, lo]

/-- The loop of `decode_filename`. -/
def decodeBytes : List Char → List UInt8
  | [] => []
  | ['%'] => decodeHex '0' '0'
  | ['%', hi] => decodeHex hi '0'
  | '%' :: hi :: lo :: rest => decodeHex hi lo ++ decodeBytes rest
  | ch :: rest => utf8 [ch] ++ decodeBytes rest

def decodeFilename (encoded : List Char) : List Char :=
  (fromUtf8 (decodeBytes encoded)).getD encoded

/-! ## Keys -/

/-- `base_key`: up to the first `#`. -/
def baseKey (key : List Char) : List Char :=
  key.takeWhile (· != '#')

/-- `topic`: behind the first `#`. -/
def topic (key : List Char) : Option (List Char) :=
  (key.dropWhile (· != '#')).tail?

def childSessionKey (parent childId : List Char) : List Char :=
  parent ++ "#child-".toList ++ encodePathComponent childId

def validateTopicName (topic : List Char) : Except String Unit :=
  if topic.isEmpty then .error "topic name cannot be empty"
  else if 50 < Text.utf8Length topic then .error "topic name too long (max 50 characters)"
  else if topic.contains '#' || topic.contains ':' || topic.contains '/' then
    .error "topic name cannot contain #, :, or /"
  else if topic.any Text.isControl then .error "topic name cannot contain control characters"
  else if topic.map Char.toLower = "default".toList then
    .error "topic name 'default' is reserved (used as the no-topic filename in storage)"
  else .ok ()

/-! ## Files -/

/-- The directory of the base key and the file of the topic, encoded. -/
def perUserLocation (key : List Char) : List Char × List Char :=
  (encodePathComponent (baseKey key), encodePathComponent ((topic key).getD "default".toList))

def fnv1a64 (data : List UInt8) : UInt64 :=
  data.foldl (fun hash byte => (hash ^^^ byte.toUInt64) * 0x00000100000001B3) 0xcbf29ce484222325

/-- `{n:016X}` -/
def hex16 (n : Nat) : List Char :=
  (List.range 16).map (fun i => hexUpper (n / 16 ^ (15 - i) % 16))

/-- `MAX_NAME_LEN` -/
def maxNameLen : Nat :=
  200 - 17

/-- The loop of `session_path_static`: the name, and whether it was cut. -/
def safeNameFrom : List Char → List UInt8 → List Char × Bool
  | name, [] => (name, false)
  | name, byte :: rest =>
      if maxNameLen ≤ name.length then (name, true) else safeNameFrom (name ++ encodeByte byte) rest

/-- A key whose name is cut. -/
def truncated (key : List Char) : Bool :=
  (safeNameFrom [] (utf8 key)).2

def safeName (key : List Char) : List Char :=
  if truncated key then
    (safeNameFrom [] (utf8 key)).1 ++ '_' :: hex16 (fnv1a64 (utf8 key)).toNat
  else (safeNameFrom [] (utf8 key)).1

def sessionPathStatic (sessionsDir key : List Char) : List Char :=
  sessionsDir ++ '/' :: safeName key ++ ".jsonl".toList

/-- A key without a topic, with one that was validated, or of a child. -/
def Addressable (key : List Char) : Prop :=
  (∀ t, topic key = some t → validateTopicName t = .ok ()) ∨
    ∃ parent childId, key = childSessionKey parent childId

/-! ## Reading back -/

theorem encodeByte_plain {byte : UInt8} (h : isPlain byte = true) :
    utf8 [Char.ofNat byte.toNat] = [byte] ∧ Char.ofNat byte.toNat ≠ '%' := by
  have hall : ∀ n < 256, isPlain (UInt8.ofNat n) = true →
      utf8 [Char.ofNat n] = [UInt8.ofNat n] ∧ Char.ofNat n ≠ '%' := by
    decide +kernel
  have hbyte := hall byte.toNat byte.toNat_lt
  rw [UInt8.ofNat_toNat] at hbyte
  exact hbyte h

theorem fromHex_hexUpper : ∀ n < 256, fromHex (hexUpper (n / 16)) (hexUpper (n % 16)) = some n := by
  decide +kernel

theorem decodeBytes_cons {ch : Char} (h : ch ≠ '%') (rest : List Char) :
    decodeBytes (ch :: rest) = utf8 [ch] ++ decodeBytes rest := by
  rw [decodeBytes]
  · intro hch _
    exact h hch
  · intro _ hch _
    exact h hch
  · intro _ _ _ hch _
    exact h hch

theorem decodeBytes_encodeByte (byte : UInt8) (rest : List Char) :
    decodeBytes (encodeByte byte ++ rest) = byte :: decodeBytes rest := by
  rw [encodeByte]
  split
  · next hplain =>
      obtain ⟨hbytes, hpercent⟩ := encodeByte_plain hplain
      rw [List.singleton_append, decodeBytes_cons hpercent, hbytes]
      rfl
  · show decodeHex (hexUpper (byte.toNat / 16)) (hexUpper (byte.toNat % 16)) ++ decodeBytes rest = _
    rw [decodeHex, fromHex_hexUpper _ byte.toNat_lt]
    show UInt8.ofNat byte.toNat :: decodeBytes rest = _
    rw [UInt8.ofNat_toNat]

theorem decodeBytes_encode (bytes : List UInt8) : decodeBytes (bytes.flatMap encodeByte) = bytes := by
  induction bytes with
  | nil => rfl
  | cons byte rest ih => rw [List.flatMap_cons, decodeBytes_encodeByte, ih]

theorem decodeFilename_encode (s : List Char) : decodeFilename (encodePathComponent s) = s := by
  rw [decodeFilename, encodePathComponent, decodeBytes_encode, fromUtf8_utf8]
  rfl

theorem encodePathComponent_injective {s t : List Char}
    (h : encodePathComponent s = encodePathComponent t) : s = t := by
  rw [← decodeFilename_encode s, h, decodeFilename_encode]

/-! ## Locations -/

theorem key_eq (key : List Char) :
    key = baseKey key ++ ((topic key).map (fun t => '#' :: t)).getD [] := by
  have hsplit : baseKey key ++ key.dropWhile (· != '#') = key := List.takeWhile_append_dropWhile
  cases hdrop : key.dropWhile (· != '#') with
  | nil =>
      rw [topic, hdrop]
      rw [hdrop] at hsplit
      exact hsplit.symm
  | cons ch rest =>
      have hch : ch = '#' := by
        have hne : key.dropWhile (· != '#') ≠ [] := by
          rw [hdrop]
          exact List.cons_ne_nil _ _
        have hhead := List.head_dropWhile_not (· != '#') hne
        have hfirst : (key.dropWhile (· != '#')).head hne = ch := by
          simp only [hdrop, List.head_cons]
        rw [hfirst, bne_eq_false_iff_eq] at hhead
        exact hhead
      rw [topic, hdrop]
      rw [hdrop, hch] at hsplit
      exact hsplit.symm

/-- The topic of a child's key has a hyphen. -/
theorem hyphen_mem_topic {parent childId t : List Char}
    (h : topic (childSessionKey parent childId) = some t) : '-' ∈ t := by
  have hall : ∀ a : List Char, ∀ t, topic (a ++ "#child-".toList ++ encodePathComponent childId) =
      some t → '-' ∈ t := by
    intro a
    induction a with
    | nil =>
        intro t ht
        have heq : some ("child-".toList ++ encodePathComponent childId) = some t := ht
        obtain rfl := Option.some.inj heq
        exact List.mem_append_left _ (by decide)
    | cons ch a ih =>
        intro t ht
        by_cases hch : ch = '#'
        · subst hch
          have heq : some (a ++ "#child-".toList ++ encodePathComponent childId) = some t := ht
          obtain rfl := Option.some.inj heq
          exact List.mem_append_left _ (List.mem_append_right _ (by decide))
        · refine ih t ?_
          rw [topic, List.cons_append, List.cons_append, List.dropWhile_cons_of_pos (by simpa using hch)]
            at ht
          exact ht
  exact hall parent t h

/-- No topic takes the name of the file without one. -/
theorem topic_ne_default {key t : List Char} (h : Addressable key) (ht : topic key = some t) :
    t ≠ "default".toList := by
  rintro rfl
  rcases h with hvalid | ⟨parent, childId, rfl⟩
  · have hok := hvalid _ ht
    have herr : validateTopicName "default".toList =
        .error "topic name 'default' is reserved (used as the no-topic filename in storage)" := by
      rfl
    rw [herr] at hok
    cases hok
  · have hmem := hyphen_mem_topic ht
    exact absurd hmem (by decide)

theorem perUserLocation_injective {k l : List Char} (hk : Addressable k) (hl : Addressable l)
    (h : perUserLocation k = perUserLocation l) : k = l := by
  have hbase : baseKey k = baseKey l := encodePathComponent_injective (congrArg Prod.fst h)
  have htopic : (topic k).getD "default".toList = (topic l).getD "default".toList :=
    encodePathComponent_injective (congrArg Prod.snd h)
  have hsame : topic k = topic l := by
    cases htk : topic k with
    | none =>
        cases htl : topic l with
        | none => rfl
        | some t =>
            rw [htk, htl] at htopic
            exact absurd htopic.symm (topic_ne_default hl htl)
    | some s =>
        cases htl : topic l with
        | none =>
            rw [htk, htl] at htopic
            exact absurd htopic (topic_ne_default hk htk)
        | some t =>
            rw [htk, htl] at htopic
            exact congrArg some htopic
  rw [key_eq k, key_eq l, hbase, hsame]

/-! ## Legacy files -/

theorem length_encodeByte (byte : UInt8) : (encodeByte byte).length ≤ 3 := by
  rw [encodeByte]
  split
  · exact Nat.le_of_ble_eq_true rfl
  · exact Nat.le_refl _

/-- A name that is not cut is the whole key, encoded. -/
theorem safeNameFrom_whole : ∀ {bytes : List UInt8} {name : List Char},
    (safeNameFrom name bytes).2 = false →
    (safeNameFrom name bytes).1 = name ++ bytes.flatMap encodeByte := by
  intro bytes
  induction bytes with
  | nil =>
      intro name _
      exact (List.append_nil name).symm
  | cons byte rest ih =>
      intro name h
      rw [safeNameFrom] at h ⊢
      split
      · next hlong =>
          rw [if_pos hlong] at h
          cases h
      · next hlong =>
          rw [if_neg hlong] at h
          rw [ih h, List.flatMap_cons, List.append_assoc]

/-- A name that is not cut passes the limit by one byte at most. -/
theorem safeNameFrom_short : ∀ {bytes : List UInt8} {name : List Char},
    name.length ≤ maxNameLen + 2 → (safeNameFrom name bytes).2 = false →
    (safeNameFrom name bytes).1.length ≤ maxNameLen + 2 := by
  intro bytes
  induction bytes with
  | nil =>
      intro name hname _
      exact hname
  | cons byte rest ih =>
      intro name _ h
      rw [safeNameFrom] at h ⊢
      split
      · next hlong =>
          rw [if_pos hlong] at h
          cases h
      · next hlong =>
          rw [if_neg hlong] at h
          refine ih ?_ h
          have := length_encodeByte byte
          rw [List.length_append]
          omega

theorem safeNameFrom_long : ∀ {bytes : List UInt8} {name : List Char},
    (safeNameFrom name bytes).2 = true → maxNameLen ≤ (safeNameFrom name bytes).1.length := by
  intro bytes
  induction bytes with
  | nil =>
      intro name h
      cases h
  | cons byte rest ih =>
      intro name h
      rw [safeNameFrom] at h ⊢
      split
      · next hlong => exact hlong
      · next hlong =>
          rw [if_neg hlong] at h
          exact ih h

theorem safeName_whole {key : List Char} (h : truncated key = false) :
    safeName key = encodePathComponent key ∧ (safeName key).length ≤ maxNameLen + 2 := by
  have hname : safeName key = (safeNameFrom [] (utf8 key)).1 := by
    rw [safeName, h]
    rfl
  rw [hname]
  exact ⟨safeNameFrom_whole h, safeNameFrom_short (Nat.zero_le _) h⟩

theorem length_safeName_cut {key : List Char} (h : truncated key = true) :
    maxNameLen + 17 ≤ (safeName key).length := by
  have hlong := safeNameFrom_long h
  rw [safeName, h, if_pos rfl, List.length_append, List.length_cons, hex16, List.length_map,
    List.length_range]
  omega

theorem sessionPathStatic_injective {dir k l : List Char}
    (h : sessionPathStatic dir k = sessionPathStatic dir l) : safeName k = safeName l := by
  have hname := List.append_cancel_right h
  exact (List.cons.inj (List.append_cancel_left hname)).2

/-- File names are read back, and keys have files of their own: under the user for keys
that can be addressed, and in the legacy layout for keys that are not cut. -/
theorem session_files_apart :
    (∀ s, decodeFilename (encodePathComponent s) = s) ∧
    (∀ k l, Addressable k → Addressable l → k ≠ l → perUserLocation k ≠ perUserLocation l) ∧
    ∀ dir k l, truncated k = false → k ≠ l → sessionPathStatic dir k ≠ sessionPathStatic dir l := by
  refine ⟨decodeFilename_encode, ?_, ?_⟩
  · intro k l hk hl hne h
    exact hne (perUserLocation_injective hk hl h)
  · intro dir k l hk hne h
    have hname := sessionPathStatic_injective h
    obtain ⟨hwhole, hshort⟩ := safeName_whole hk
    cases hl : truncated l with
    | false =>
        rw [hwhole, (safeName_whole hl).1] at hname
        exact hne (encodePathComponent_injective hname)
    | true =>
        have hlong := length_safeName_cut hl
        rw [hname] at hshort
        omega

/-- The key without a topic, and a topic of its own. -/
theorem session_files_apart_topic :
    perUserLocation "cli:home".toList ≠ perUserLocation "cli:home#Defaults".toList ∧
      sessionPathStatic "sessions".toList "cli:home".toList ≠
        sessionPathStatic "sessions".toList "cli:home#Defaults".toList := by
  refine ⟨session_files_apart.2.1 _ _ (Or.inl ?_) (Or.inl ?_) ?_, session_files_apart.2.2 _ _ _ ?_ ?_⟩
  · intro t ht
    have hnone : topic "cli:home".toList = none := by rfl
    rw [hnone] at ht
    cases ht
  · intro t ht
    have hsome : topic "cli:home#Defaults".toList = some "Defaults".toList := by rfl
    obtain rfl := Option.some.inj (hsome.symm.trans ht)
    rfl
  · decide
  · rfl
  · decide

end Octos.Bus.SessionPath
