/-
# `Octos.Lib.Path` — paths as texts and as components

A path of Unix is a text.  Its components are what stands between the slashes,
without the empty parts; a single dot counts at the front of a relative path only.
A normal component is a segment: not empty, without a slash, neither one dot nor two.

    a//b/./c       normal a, normal b, normal c
    ./a            the current directory, normal a
    /a/../b        the root, normal a, the parent, normal b

Segments that are pushed one behind the other are the text joined with slashes, and
its components are the segments again.
-/
import Octos.Lib.Text

namespace Octos.Path

inductive Component
  | rootDir
  | curDir
  | parentDir
  | normal (segment : List Char)
  deriving DecidableEq

def componentOf (part : List Char) : Component :=
  if part = ['.', '.'] then .parentDir else .normal part

/-- The parts that are components anywhere. -/
def isPart (part : List Char) : Bool :=
  !part.isEmpty && part != ['.']

/-- How a path begins: at the root, or explicitly at the current directory. -/
def start (path : List Char) : List Component :=
  if path.head? = some '/' then [.rootDir]
  else if (path.splitOn '/').head? = some ['.'] then [.curDir] else []

def components (path : List Char) : List Component :=
  start path ++ ((path.splitOn '/').filter isPart).map componentOf

/-- `PathBuf::push`. -/
def push (path segment : List Char) : List Char :=
  if segment.head? = some '/' then segment
  else if path = [] ∨ path.getLast? = some '/' then path ++ segment
  else path ++ '/' :: segment

def join (segs : List (List Char)) : List Char :=
  ['/'].intercalate segs

/-- The normal components of a path that has no others but current directories. -/
def normals : List Component → Option (List (List Char))
  | [] => some []
  | .normal segment :: rest => (normals rest).map (fun segs => segment :: segs)
  | .curDir :: rest => normals rest
  | _ :: _ => none

/-- What can be a normal component. -/
structure IsSegment (seg : List Char) : Prop where
  nonempty : seg ≠ []
  plain : '/' ∉ seg
  no_dot : seg ≠ ['.']
  no_dots : seg ≠ ['.', '.']

theorem isPart_iff {part : List Char} : isPart part = true ↔ part ≠ [] ∧ part ≠ ['.'] := by
  rw [isPart, Bool.and_eq_true, Bool.not_eq_true', List.isEmpty_eq_false_iff, bne_iff_ne]

variable {path seg : List Char} {segs : List (List Char)}

theorem normal_mem_components : Component.normal seg ∈ components path → IsSegment seg := by
  intro h
  rw [components, List.mem_append] at h
  rcases h with h | h
  · rw [start] at h
    split at h
    · cases List.mem_singleton.mp h
    · split at h
      · cases List.mem_singleton.mp h
      · cases h
  · obtain ⟨part, hmem, hpart⟩ := List.mem_map.mp h
    obtain ⟨hsplit, his⟩ := List.mem_filter.mp hmem
    rw [componentOf] at hpart
    split at hpart
    · cases hpart
    · next hdots =>
        obtain rfl := Component.normal.inj hpart
        obtain ⟨hne, hdot⟩ := isPart_iff.mp his
        exact ⟨hne, Text.notMem_of_mem_splitOn hsplit, hdot, hdots⟩

theorem isSegment_of_components (h : components path = segs.map Component.normal) :
    ∀ seg ∈ segs, IsSegment seg := by
  intro seg hseg
  have hmem : Component.normal seg ∈ components path := by
    rw [h]
    exact List.mem_map_of_mem hseg
  exact normal_mem_components hmem

theorem head?_join_ne (h : ∀ seg ∈ segs, IsSegment seg) : (join segs).head? ≠ some '/' := by
  cases segs with
  | nil =>
      intro hnil
      cases hnil
  | cons seg rest =>
      have hfirst := h seg List.mem_cons_self
      obtain ⟨ch, text, rfl⟩ := List.exists_cons_of_ne_nil hfirst.nonempty
      have hch : (join ((ch :: text) :: rest)).head? = some ch := by
        cases rest with
        | nil => rfl
        | cons next rest => rfl
      rw [hch]
      intro heq
      obtain rfl := Option.some.inj heq
      exact hfirst.plain List.mem_cons_self

/-- The components of joined segments are the segments. -/
theorem components_join (h : ∀ seg ∈ segs, IsSegment seg) :
    components (join segs) = segs.map Component.normal := by
  cases segs with
  | nil => rfl
  | cons seg rest =>
      have hfirst := h seg List.mem_cons_self
      have hsplit : (join (seg :: rest)).splitOn '/' = seg :: rest :=
        List.splitOn_intercalate '/' (fun s hs => (h s hs).plain) (List.cons_ne_nil _ _)
      have hstart : start (join (seg :: rest)) = [] := by
        rw [start, if_neg (head?_join_ne h), hsplit, if_neg]
        intro heq
        exact hfirst.no_dot (Option.some.inj heq)
      have hfilter : (seg :: rest).filter isPart = seg :: rest := by
        rw [List.filter_eq_self]
        intro s hs
        exact isPart_iff.mpr ⟨(h s hs).nonempty, (h s hs).no_dot⟩
      rw [components, hstart, hsplit, hfilter, List.nil_append]
      refine List.map_congr_left ?_
      intro s hs
      rw [componentOf, if_neg (h s hs).no_dots]

theorem join_append_singleton (hne : segs ≠ []) : join (segs ++ [seg]) = join segs ++ '/' :: seg := by
  induction segs with
  | nil => exact absurd rfl hne
  | cons first rest ih =>
      cases rest with
      | nil => simp [join]
      | cons next rest =>
          have htail := ih (List.cons_ne_nil _ _)
          simp only [join, List.cons_append, List.intercalate_cons_cons, List.append_assoc] at htail ⊢
          rw [htail]

/-- The characters of joined segments are theirs, and slashes. -/
theorem mem_join {ch : Char} (hch : ch ≠ '/') : ch ∈ join segs ↔ ∃ seg ∈ segs, ch ∈ seg := by
  induction segs with
  | nil => simp [join]
  | cons first rest ih =>
      cases rest with
      | nil => simp [join]
      | cons next rest =>
          have hcons : join (first :: next :: rest) = first ++ '/' :: join (next :: rest) := by
            simp [join, List.intercalate_cons_cons]
          rw [hcons, List.mem_append, List.mem_cons, ih, List.exists_mem_cons_iff]
          simp [hch]

theorem join_ne_nil (hne : segs ≠ []) (h : ∀ seg ∈ segs, IsSegment seg) : join segs ≠ [] := by
  obtain ⟨first, rest, rfl⟩ := List.exists_cons_of_ne_nil hne
  exact Text.intercalate_ne_nil (h first List.mem_cons_self).nonempty

theorem getLast?_join_ne (h : ∀ seg ∈ segs, IsSegment seg) : (join segs).getLast? ≠ some '/' := by
  rcases List.eq_nil_or_concat segs with rfl | ⟨init, seg, rfl⟩
  · intro hnil
    cases hnil
  · rw [List.concat_eq_append] at h ⊢
    have hseg := h seg (List.mem_append_right _ List.mem_cons_self)
    have hlast : (join (init ++ [seg])).getLast? = seg.getLast? := by
      obtain ⟨ch, text, rfl⟩ := List.exists_cons_of_ne_nil hseg.nonempty
      by_cases hne : init = []
      · subst hne
        simp [join]
      · rw [join_append_singleton hne, List.getLast?_append_of_ne_nil _ (List.cons_ne_nil _ _)]
        rfl
    rw [hlast]
    intro heq
    exact hseg.plain (List.mem_of_getLast? heq)

/-- Segments pushed one behind the other. -/
theorem foldl_push : (∀ seg ∈ segs, IsSegment seg) → segs.foldl push [] = join segs := by
  induction segs using List.reverseRecOn with
  | nil =>
      intro _
      rfl
  | append_singleton init seg ih =>
      intro h
      have hinit : ∀ s ∈ init, IsSegment s := fun s hs => h s (List.mem_append_left _ hs)
      have hseg := h seg (List.mem_append_right _ List.mem_cons_self)
      have hhead : seg.head? ≠ some '/' := fun heq => hseg.plain (List.mem_of_head? heq)
      rw [List.foldl_append, ih hinit, List.foldl_cons, List.foldl_nil, push, if_neg hhead]
      by_cases hne : init = []
      · subst hne
        simp [join]
      · rw [if_neg, join_append_singleton hne]
        rintro (hnil | hlast)
        · exact join_ne_nil hne hinit hnil
        · exact getLast?_join_ne hinit hlast

/-! ## Normal paths -/

theorem normals_map_normal : normals (segs.map Component.normal) = some segs := by
  induction segs with
  | nil => rfl
  | cons seg rest ih =>
      rw [List.map_cons, normals, ih]
      rfl

theorem normals_append_of_some : ∀ {a b : List Component}, normals (a ++ b) = some segs →
    ∃ s t, normals a = some s ∧ normals b = some t ∧ segs = s ++ t := by
  intro a
  induction a generalizing segs with
  | nil =>
      intro b h
      exact ⟨[], segs, rfl, h, rfl⟩
  | cons c a ih =>
      intro b h
      cases c with
      | normal seg =>
          rw [List.cons_append, normals, Option.map_eq_some_iff] at h
          obtain ⟨tail, htail, rfl⟩ := h
          obtain ⟨s, t, hs, ht, rfl⟩ := ih htail
          exact ⟨seg :: s, t, by rw [normals, hs]; rfl, ht, rfl⟩
      | curDir => exact ih h
      | rootDir => cases h
      | parentDir => cases h

theorem normals_map_componentOf : ∀ {parts : List (List Char)},
    normals (parts.map componentOf) = some segs → segs = parts := by
  intro parts
  induction parts generalizing segs with
  | nil =>
      intro h
      exact (Option.some.inj h).symm
  | cons part parts ih =>
      intro h
      rw [List.map_cons, componentOf] at h
      split at h
      · cases h
      · rw [normals, Option.map_eq_some_iff] at h
        obtain ⟨tail, htail, rfl⟩ := h
        rw [ih htail]

/-- The normal components are parts of the text. -/
theorem normals_components (h : normals (components path) = some segs) :
    segs = (path.splitOn '/').filter isPart := by
  obtain ⟨s, t, hs, ht, rfl⟩ := normals_append_of_some h
  have hnil : s = [] := by
    rw [start] at hs
    split at hs
    · cases hs
    · split at hs
      · exact (Option.some.inj hs).symm
      · exact (Option.some.inj hs).symm
  rw [hnil, List.nil_append, normals_map_componentOf ht]

theorem mem_of_normals : ∀ {cs : List Component}, normals cs = some segs → seg ∈ segs →
    Component.normal seg ∈ cs := by
  intro cs
  induction cs generalizing segs with
  | nil =>
      intro h hseg
      obtain rfl := Option.some.inj h
      cases hseg
  | cons c cs ih =>
      intro h hseg
      cases c with
      | normal first =>
          rw [normals, Option.map_eq_some_iff] at h
          obtain ⟨tail, htail, rfl⟩ := h
          rcases List.mem_cons.mp hseg with rfl | hin
          · exact List.mem_cons_self
          · exact List.mem_cons_of_mem _ (ih htail hin)
      | curDir => exact List.mem_cons_of_mem _ (ih h hseg)
      | rootDir => cases h
      | parentDir => cases h

theorem isSegment_of_normals (h : normals (components path) = some segs) :
    ∀ seg ∈ segs, IsSegment seg :=
  fun _ hseg => normal_mem_components (mem_of_normals h hseg)

theorem length_join_cons : (join (seg :: segs)).length ≤ seg.length + 1 + (join segs).length := by
  cases segs with
  | nil => simp [join]
  | cons next rest => simp [join, List.intercalate_cons_cons]; omega

theorem length_join_filter (p : List Char → Bool) (parts : List (List Char)) :
    (join (parts.filter p)).length ≤ (join parts).length := by
  induction parts with
  | nil => exact Nat.le_refl _
  | cons part parts ih =>
      cases parts with
      | nil =>
          rw [List.filter_cons, List.filter_nil]
          split
          · exact Nat.le_refl _
          · exact Nat.zero_le _
      | cons next rest =>
          have hlen : (join (part :: next :: rest)).length =
              part.length + 1 + (join (next :: rest)).length := by
            simp only [join, List.intercalate_cons_cons, List.length_append, List.length_singleton]
          rw [List.filter_cons, hlen]
          split
          · exact Nat.le_trans length_join_cons (Nat.add_le_add_left ih _)
          · exact Nat.le_trans ih (Nat.le_add_left _ _)

/-- A path is at least as long as its normal components joined. -/
theorem length_join_le (h : normals (components path) = some segs) :
    (join segs).length ≤ path.length := by
  rw [normals_components h]
  refine Nat.le_trans (length_join_filter isPart _) ?_
  rw [join, List.intercalate_splitOn]

end Octos.Path
