/-
# `Octos.Bus.FileHandle` — handles for files

`file_handle.rs`: a file under one of three roots goes to a client as a handle,

    pf/<payload>/<display name>     under the profile
    up/<payload>/<display name>     among the uploads
    ws/<payload>/<display name>     in the workspace

whose payload is the relative path in base 64.  The display name is decoration, and
often cut off.  What a client sends back is not trusted: the payload is trimmed, its
backslashes become slashes, its outer slashes go, and of what is left only normal
components are taken.

So no handle leads out of its root; and a path comes back as it was unless it has
white space at an end or a backslash.  The codec is a parameter.
-/
import Octos.Lib.Codec
import Octos.Lib.Path

namespace Octos.Bus.FileHandle

open Octos.Path

/-- `URL_SAFE_NO_PAD`. -/
structure Base64 where
  encode : List UInt8 → List Char
  decode : List Char → Option (List UInt8)

/-- What is relied on: payloads are read back, and have no slash. -/
structure Base64.Sound (codec : Base64) : Prop where
  decode_encode : ∀ bytes, codec.decode (codec.encode bytes) = some bytes
  plain : ∀ bytes, '/' ∉ codec.encode bytes

/-- The three roots. -/
inductive Scope
  | profile
  | upload
  | workspace
  deriving DecidableEq

/-- `PROFILE_HANDLE_PREFIX`, `UPLOAD_HANDLE_PREFIX`, `WORKSPACE_HANDLE_PREFIX`. -/
def Scope.tag : Scope → List Char
  | .profile => ['p', 'f']
  | .upload => ['u', 'p']
  | .workspace => ['w', 's']

inductive FileHandleScope
  | profileRelative (path : List Char)
  | tempUpload (path : List Char)
  | workspaceRelative (path : List Char)
  deriving DecidableEq

def FileHandleScope.path : FileHandleScope → List Char
  | .profileRelative path => path
  | .tempUpload path => path
  | .workspaceRelative path => path

def Scope.of (path : List Char) : Scope → FileHandleScope
  | .profile => .profileRelative path
  | .upload => .tempUpload path
  | .workspace => .workspaceRelative path

/-! ## Encoding -/

def normalizeRelativePath (path : List Char) : Option (List Char) :=
  match normals (components path) with
  | none => none
  | some segs => if segs.isEmpty then none else some (join segs)

def sanitizeDisplayName (name : List Char) : List Char :=
  let cleaned := Text.trim (name.map (fun ch =>
    if ch ∈ ['/', '\\', '\x00', '\r', '\n'] then '_' else ch))
  if cleaned.isEmpty then "file".toList else cleaned

def encodeScopedHandle (codec : Base64) (tag relative displayName : List Char) : Option (List Char) :=
  (normalizeRelativePath relative).map (fun relative =>
    tag ++ '/' :: codec.encode (Codec.utf8 relative) ++ '/' :: sanitizeDisplayName displayName)

/-! ## Decoding -/

/-- `raw.trim().replace('\\', "/")` and `trim_matches('/')`. -/
def tidy (raw : List Char) : List Char :=
  let normalized := (Text.trim raw).map (fun ch => if ch = '\\' then '/' else ch)
  (normalized.dropWhile (· == '/')).rdropWhile (· == '/')

def safeRelativePath (raw : List Char) : Option (List Char) :=
  if (tidy raw).isEmpty then none
  else (normals (components (tidy raw))).map (fun segs => segs.foldl push [])

def decodeRelativePayload (codec : Base64) (payload : List Char) : Option (List Char) :=
  match codec.decode payload with
  | none => none
  | some bytes =>
      match Codec.fromUtf8 bytes with
      | none => none
      | some relative => safeRelativePath relative

/-- A text up to its first slash, and what is behind the slash. -/
def splitSlash (text : List Char) : List Char × Option (List Char) :=
  (text.takeWhile (· != '/'), (text.dropWhile (· != '/')).tail?)

def decodeFileHandle (codec : Base64) (handle : List Char) : Option FileHandleScope :=
  match (splitSlash handle).2 with
  | none => none
  | some rest =>
      match decodeRelativePayload codec (splitSlash rest).1 with
      | none => none
      | some relative =>
          if (splitSlash handle).1 = Scope.profile.tag then some (.profileRelative relative)
          else if (splitSlash handle).1 = Scope.upload.tag then some (.tempUpload relative)
          else if (splitSlash handle).1 = Scope.workspace.tag then some (.workspaceRelative relative)
          else none

/-! ## What handles are for -/

/-- A path that stays under its root. -/
def Inside (path : List Char) : Prop :=
  ∀ c ∈ components path, c ≠ .parentDir ∧ c ≠ .rootDir

/-- The handle of a path gives the path back under its root, also without the display
name. -/
def RoundTrips (codec : Base64) (scope : Scope) (path displayName : List Char) : Prop :=
  ∃ stem name, encodeScopedHandle codec scope.tag path displayName = some (stem ++ '/' :: name) ∧
    '/' ∉ name ∧ ∀ handle ∈ [stem ++ '/' :: name, stem],
      ∃ relative, decodeFileHandle codec handle = some (scope.of relative) ∧
        components relative = components path

/-- A path that the decoder's tidying leaves as it is. -/
structure Tidy (segs : List (List Char)) : Prop where
  trimmed : Text.Trimmed (join segs)
  no_backslash : ∀ seg ∈ segs, '\\' ∉ seg

/-! ## Slashes -/

section

variable {a b path displayName raw relative : List Char} {segs : List (List Char)} {codec : Base64}
  {scope : Scope}

theorem splitSlash_append (h : '/' ∉ a) : splitSlash (a ++ '/' :: b) = (a, some b) := by
  have hall : ∀ ch ∈ a, (ch != '/') = true := by
    intro ch hch
    rw [bne_iff_ne]
    rintro rfl
    exact h hch
  rw [splitSlash, List.takeWhile_append_of_pos hall, List.dropWhile_append_of_pos hall,
    List.takeWhile_cons_of_neg (by simp), List.dropWhile_cons_of_neg (by simp), List.append_nil]
  rfl

theorem splitSlash_plain (h : '/' ∉ a) : splitSlash a = (a, none) := by
  have hall : ∀ ch ∈ a, (ch != '/') = true := by
    intro ch hch
    rw [bne_iff_ne]
    rintro rfl
    exact h hch
  rw [splitSlash, List.takeWhile_eq_self_iff.mpr hall, List.dropWhile_eq_nil_iff.mpr hall]
  rfl

theorem slash_not_mem_tag (scope : Scope) : '/' ∉ scope.tag := by
  cases scope <;> decide

/-- A handle is its tag and its payload, whatever comes behind. -/
theorem decodeFileHandle_eq (scope : Scope) {payload tail : List Char} (hpayload : '/' ∉ payload)
    (htail : tail = [] ∨ ∃ name, tail = '/' :: name) :
    decodeFileHandle codec (scope.tag ++ '/' :: (payload ++ tail)) =
      (decodeRelativePayload codec payload).map scope.of := by
  have hfirst : (splitSlash (payload ++ tail)).1 = payload := by
    rcases htail with rfl | ⟨name, rfl⟩
    · rw [List.append_nil, splitSlash_plain hpayload]
    · rw [splitSlash_append hpayload]
  rw [decodeFileHandle, splitSlash_append (slash_not_mem_tag scope)]
  dsimp only
  rw [hfirst]
  cases decodeRelativePayload codec payload with
  | none => rfl
  | some relative => cases scope <;> rfl

theorem slash_not_mem_sanitize (name : List Char) : '/' ∉ sanitizeDisplayName name := by
  rw [sanitizeDisplayName]
  split
  · decide
  · intro h
    have hmem := (List.dropWhile_sublist _).subset ((List.rdropWhile_prefix _ _).sublist.subset h)
    obtain ⟨ch, -, hch⟩ := List.mem_map.mp hmem
    split at hch
    · exact absurd hch (by decide)
    · next hno => exact hno (by rw [hch]; exact List.mem_cons_self)

theorem normalizeRelativePath_eq (hpath : components path = segs.map Component.normal)
    (hne : segs ≠ []) : normalizeRelativePath path = some (join segs) := by
  rw [normalizeRelativePath, hpath, normals_map_normal]
  dsimp only
  rw [if_neg (by simpa using hne)]

/-- A handle round-trips where the decoder gives the joined path back. -/
theorem roundTrips_iff (hsound : codec.Sound) (hpath : components path = segs.map Component.normal)
    (hne : segs ≠ []) : RoundTrips codec scope path displayName ↔
      ∃ relative, safeRelativePath (join segs) = some relative ∧
        components relative = segs.map Component.normal := by
  have hplain := hsound.plain (Codec.utf8 (join segs))
  have hname := slash_not_mem_sanitize displayName
  have hencode : encodeScopedHandle codec scope.tag path displayName =
      some (scope.tag ++ '/' :: codec.encode (Codec.utf8 (join segs)) ++
        '/' :: sanitizeDisplayName displayName) := by
    rw [encodeScopedHandle, normalizeRelativePath_eq hpath hne]
    rfl
  have hdecode : ∀ tail, (tail = [] ∨ ∃ name, tail = '/' :: name) →
      decodeFileHandle codec (scope.tag ++ '/' :: (codec.encode (Codec.utf8 (join segs)) ++ tail)) =
        (safeRelativePath (join segs)).map scope.of := by
    intro tail htail
    rw [decodeFileHandle_eq scope hplain htail, decodeRelativePayload, hsound.decode_encode]
    dsimp only
    rw [Codec.fromUtf8_utf8]
  have hof : ∀ {r s : List Char}, scope.of r = scope.of s → r = s := by
    intro r s h
    cases scope with
    | profile => exact FileHandleScope.profileRelative.inj h
    | upload => exact FileHandleScope.tempUpload.inj h
    | workspace => exact FileHandleScope.workspaceRelative.inj h
  constructor
  · rintro ⟨stem, name, hhandle, -, hall⟩
    obtain ⟨relative, hrelative, hcomponents⟩ := hall _ List.mem_cons_self
    rw [← Option.some.inj (hencode.symm.trans hhandle), List.append_assoc, List.cons_append,
      hdecode _ (Or.inr ⟨_, rfl⟩), Option.map_eq_some_iff] at hrelative
    obtain ⟨other, hother, heq⟩ := hrelative
    rw [hof heq] at hother
    exact ⟨relative, hother, hcomponents.trans hpath⟩
  · rintro ⟨relative, hsafe, hcomponents⟩
    refine ⟨_, _, hencode, hname, ?_⟩
    intro handle hhandle
    refine ⟨relative, ?_, hcomponents.trans hpath.symm⟩
    simp only [List.mem_cons, List.not_mem_nil, or_false] at hhandle
    rcases hhandle with rfl | rfl
    · rw [List.append_assoc, List.cons_append, hdecode _ (Or.inr ⟨_, rfl⟩), hsafe]
      rfl
    · have hstem := hdecode [] (Or.inl rfl)
      rw [List.append_nil] at hstem
      rw [hstem, hsafe]
      rfl

/-! ## Tidying -/

theorem tidy_eq (hsegs : ∀ seg ∈ segs, IsSegment seg) (h : Tidy segs) : tidy (join segs) = join segs := by
  have hmap : (join segs).map (fun ch => if ch = '\\' then '/' else ch) = join segs := by
    conv => rhs; rw [← List.map_id (join segs)]
    refine List.map_congr_left ?_
    intro ch hch
    refine if_neg ?_
    rintro rfl
    obtain ⟨seg, hseg, hmem⟩ := (mem_join (by decide)).mp hch
    exact h.no_backslash seg hseg hmem
  have hdrop : (join segs).dropWhile (· == '/') = join segs := by
    have hhead := head?_join_ne hsegs
    cases hjoin : join segs with
    | nil => rfl
    | cons ch text =>
        rw [hjoin] at hhead
        refine List.dropWhile_cons_of_neg ?_
        intro heq
        exact hhead (congrArg some (beq_iff_eq.mp heq))
  have hrdrop : (join segs).rdropWhile (· == '/') = join segs := by
    rw [List.rdropWhile_eq_self_iff]
    intro hne hlast
    refine getLast?_join_ne hsegs ?_
    rw [List.getLast?_eq_getLast_of_ne_nil hne, beq_iff_eq.mp hlast]
  rw [tidy, h.trimmed, hmap, hdrop, hrdrop]

theorem safeRelativePath_some (h : safeRelativePath raw = some relative) :
    ∃ segs, normals (components (tidy raw)) = some segs ∧ relative = join segs := by
  rw [safeRelativePath] at h
  split at h
  · cases h
  · obtain ⟨segs, hsegs, rfl⟩ := Option.map_eq_some_iff.mp h
    exact ⟨segs, hsegs, foldl_push (isSegment_of_normals hsegs)⟩

theorem length_tidy_le : (tidy raw).length ≤ (Text.trim raw).length := by
  refine Nat.le_trans (List.rdropWhile_prefix _ _).length_le ?_
  refine Nat.le_trans (List.dropWhile_sublist _).length_le ?_
  rw [List.length_map]

theorem backslash_not_mem_tidy : '\\' ∉ tidy raw := by
  intro h
  have hmem := (List.dropWhile_sublist _).subset ((List.rdropWhile_prefix _ _).sublist.subset h)
  obtain ⟨ch, -, hch⟩ := List.mem_map.mp hmem
  split at hch
  · exact absurd hch (by decide)
  · next hno => exact hno hch

/-- The decoder gives joined segments back exactly where it has nothing to tidy. -/
theorem safe_iff (hsegs : ∀ seg ∈ segs, IsSegment seg) (hne : segs ≠ []) :
    (∃ relative, safeRelativePath (join segs) = some relative ∧
      components relative = segs.map Component.normal) ↔ Tidy segs := by
  constructor
  · rintro ⟨relative, hsafe, hcomponents⟩
    obtain ⟨found, hfound, rfl⟩ := safeRelativePath_some hsafe
    have hsame : found = segs := by
      rw [components_join (isSegment_of_normals hfound)] at hcomponents
      exact List.map_injective_iff.mpr (fun _ _ => Component.normal.inj) hcomponents
    subst hsame
    refine ⟨?_, ?_⟩
    · -- nothing was cut off: the components need all of the text
      have hlong : (join found).length ≤ (Text.trim (join found)).length :=
        Nat.le_trans (length_join_le hfound) length_tidy_le
      have hsub : (Text.trim (join found)).Sublist (join found) :=
        (List.rdropWhile_prefix _ _).sublist.trans (List.dropWhile_sublist _)
      exact hsub.eq_of_length_le hlong
    · intro seg hseg hmem
      rw [normals_components hfound] at hseg
      have hpart := (List.mem_filter.mp hseg).1
      have hjoin : '\\' ∈ join ((tidy (join found)).splitOn '/') :=
        (mem_join (by decide)).mpr ⟨seg, hpart, hmem⟩
      rw [join, List.intercalate_splitOn] at hjoin
      exact backslash_not_mem_tidy hjoin
  · intro h
    have htidy := tidy_eq hsegs h
    refine ⟨join segs, ?_, components_join hsegs⟩
    rw [safeRelativePath, htidy, if_neg (by simpa using join_ne_nil hne hsegs),
      components_join hsegs, normals_map_normal, Option.map_some, foldl_push hsegs]

theorem of_decodeFileHandle {handle : List Char} {found : FileHandleScope}
    (h : decodeFileHandle codec handle = some found) : ∃ raw, safeRelativePath raw = some found.path := by
  rw [decodeFileHandle] at h
  split at h
  · cases h
  · split at h
    · cases h
    · next relative hpayload =>
        have hpath : found.path = relative := by
          split at h
          · obtain rfl := Option.some.inj h
            rfl
          · split at h
            · obtain rfl := Option.some.inj h
              rfl
            · split at h
              · obtain rfl := Option.some.inj h
                rfl
              · cases h
        rw [decodeRelativePayload] at hpayload
        split at hpayload
        · cases hpayload
        · split at hpayload
          · cases hpayload
          · next raw _ => exact ⟨raw, by rw [hpath, hpayload]⟩

/-- No handle leads out of its root. -/
theorem inside_of_decode {handle : List Char} {found : FileHandleScope}
    (h : decodeFileHandle codec handle = some found) : Inside found.path := by
  obtain ⟨raw, hraw⟩ := of_decodeFileHandle h
  obtain ⟨segs, hsegs, hpath⟩ := safeRelativePath_some hraw
  intro c hc
  rw [hpath, components_join (isSegment_of_normals hsegs)] at hc
  obtain ⟨seg, -, rfl⟩ := List.mem_map.mp hc
  exact ⟨Component.noConfusion, Component.noConfusion⟩

/-- A path of normal components comes back exactly where it has no white space at an end
and no backslash, and no handle leads out of its root. -/
theorem handles_round_trip_iff (hsound : codec.Sound) :
    (∀ (scope : Scope) (path displayName : List Char) (segs : List (List Char)),
      components path = segs.map Component.normal → segs ≠ [] →
      (RoundTrips codec scope path displayName ↔ Tidy segs)) ∧
    ∀ (handle : List Char) (found : FileHandleScope),
      decodeFileHandle codec handle = some found → Inside found.path := by
  refine ⟨?_, fun _ _ => inside_of_decode⟩
  intro scope path displayName segs hpath hne
  rw [roundTrips_iff hsound hpath hne, safe_iff (isSegment_of_components hpath) hne]

end

/-! ## With the codec -/

def base64 : Base64 :=
  ⟨Codec.encode, Codec.decode⟩

theorem base64_sound : base64.Sound :=
  ⟨Codec.decode_encode, Codec.slash_not_mem_encode⟩

theorem handles_round_trip_iff_deck :
    RoundTrips base64 .profile "slides/demo/deck.pptx".toList "deck.pptx".toList := by
  refine ((handles_round_trip_iff base64_sound).1 .profile "slides/demo/deck.pptx".toList
    "deck.pptx".toList ["slides".toList, "demo".toList, "deck.pptx".toList] ?_ ?_).mpr ⟨?_, ?_⟩
  · rfl
  · exact List.cons_ne_nil _ _
  · rfl
  · decide

/-- A file name may have a backslash, or end with a blank. -/
theorem untidy_names_lost :
    ¬RoundTrips base64 .upload "in/a\\b.txt".toList "a_b.txt".toList ∧
      ¬RoundTrips base64 .workspace "draft ".toList "draft".toList := by
  constructor
  · intro h
    have hpath : components "in/a\\b.txt".toList =
        ["in".toList, "a\\b.txt".toList].map Component.normal := by rfl
    have htidy := (safe_iff (isSegment_of_components hpath) (List.cons_ne_nil _ _)).mp
      ((roundTrips_iff base64_sound hpath (List.cons_ne_nil _ _)).mp h)
    exact htidy.no_backslash _ (List.mem_cons_of_mem _ List.mem_cons_self) (by decide)
  · intro h
    have hpath : components "draft ".toList = ["draft ".toList].map Component.normal := by
      rfl
    have htidy := (safe_iff (isSegment_of_components hpath) (List.cons_ne_nil _ _)).mp
      ((roundTrips_iff base64_sound hpath (List.cons_ne_nil _ _)).mp h)
    exact absurd htidy.trimmed (by decide)

end Octos.Bus.FileHandle
