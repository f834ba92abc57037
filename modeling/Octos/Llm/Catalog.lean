/-
# `Octos.Llm.Catalog` — the two catalogs of models

    crates/octos-llm/src/context.rs   build_catalog_map, catalog_lookup_in
    crates/octos-llm/src/pricing.rs   seed_pricing_catalog, catalog_pricing

The rows of `model_catalog.json` are loaded twice, once for the windows and once for
the prices.  Each row goes into its map under its key, and one row of every bare name
also under that name: the one with the fewest slashes, then the least provider, then
the least key.  Full keys and bare names share one map, so a row without a provider
is under its name by both rules; that it is also the one the name goes to is what
makes the order of the rows not matter.

A lookup takes the slot of the asked name, or the longest that the name contains, or
the shortest that contains it.  The map is gone through in any order.
-/
import Octos.Lib.Lowercase
import Octos.Lib.Select
import Octos.Lib.Table

namespace Octos.Llm

open Text

/-- What the catalog says of a model. -/
structure CatalogModel where
  contextWindow : Nat
  maxOutput : Nat
deriving DecidableEq, Repr

/-- Prices for a million tokens. -/
structure ModelPricing (P : Type) where
  inputPerMillion : P
  outputPerMillion : P
deriving DecidableEq, Repr

/-- `str::to_lowercase` -/
def lowercase (table : CaseTable) (text : String) : String :=
  String.ofList (table.toLowercase text.toList)

/-- `provider_prefix` -/
def providerPrefix (key : String) : String :=
  String.ofList (key.toList.takeWhile (· != '/'))

/-- `key.split('/').next_back()` -/
def lastSegment (key : String) : String :=
  String.ofList (key.toList.rtakeWhile (· != '/'))

/-- The bare name of a row. -/
def bareOf (table : CaseTable) (key : String) : String :=
  lowercase table (lastSegment key)

/-- `key.matches('/').count()` -/
def segments (key : String) : Nat :=
  key.toList.count '/'

/-- The map so far, and for each bare name the slashes and the key of its row. -/
structure Awards (V : Type) where
  map : Table String V
  bareOwner : Table String (Nat × String)

/-- Whether a row takes the bare name from its owner. -/
def takesBare (owner : Option (Nat × String)) (segs : Nat) (keyLower : String) : Bool :=
  match owner with
  | none => true
  | some (ownedSeg, ownerKey) =>
      decide (segs < ownedSeg) || (segs == ownedSeg &&
        decide (toLex (providerPrefix keyLower, keyLower) < toLex (providerPrefix ownerKey, ownerKey)))

/-- The part of the two loops that they share: the row is put under `stored`, and
under its bare name if it takes it. -/
def awardRow {V : Type} (table : CaseTable) (awards : Awards V) (stored key : String) (row : V) : Awards V :=
  let map := awards.map.insert stored row
  let bare := bareOf table key
  let keyLower := lowercase table key
  if takesBare awards.bareOwner[bare]? (segments key) keyLower then
    ⟨map.insert bare row, awards.bareOwner.insert bare (segments key, keyLower)⟩
  else
    ⟨map, awards.bareOwner⟩

/-- `build_catalog_map` -/
def buildCatalogMap (table : CaseTable) (entries : List (String × Nat × Nat)) : Table String CatalogModel :=
  (entries.foldl
    (fun awards entry =>
      awardRow table awards (lowercase table entry.1) entry.1 ⟨entry.2.1, entry.2.2⟩)
    ⟨∅, ∅⟩).map

/-- `seed_pricing_catalog`: rows without a price are left out, and the full key keeps
its case. -/
def seedPricingCatalog {P : Type} [Zero P] [LT P] [DecidableLT P] (table : CaseTable)
    (entries : List (String × P × P)) : Table String (ModelPricing P) :=
  (entries.foldl
    (fun awards entry =>
      if 0 < entry.2.1 ∨ 0 < entry.2.2 then
        awardRow table awards entry.1 entry.1 ⟨entry.2.1, entry.2.2⟩
      else awards)
    ⟨∅, ∅⟩).map

/-- `a.len().cmp(&b.len()).then_with(..)` -/
def byLength (ties : String → String → Ordering) : String → String → Ordering :=
  compareLex (compareOn String.utf8ByteSize) ties

/-- `haystack.contains(needle)` -/
def contains (haystack needle : String) : Bool :=
  decide (needle.toList <:+: haystack.toList)

/-- The two stages of a lookup behind the exact one, over the entries in the order in
which the map is gone through. -/
def closest {V : Type} (entries : List (String × V)) (m : String) : Option (String × V) :=
  match maxBy (fun a b => byLength (fun a b => compare b a) a.1 b.1) (entries.filter (fun e => contains m e.1)) with
  | some family => some family
  | none => minBy (fun a b => byLength compare a.1 b.1) (entries.filter (fun e => contains e.1 m))

/-- `catalog_lookup_in`, with the order in which the map is gone through. -/
def catalogLookupIn (table : CaseTable) (map : Table String CatalogModel) (order : List (String × CatalogModel))
    (modelId : String) : Option (Nat × Nat) :=
  let m := lowercase table modelId
  match map[m]? with
  | some entry => some (entry.contextWindow, entry.maxOutput)
  | none => (closest order m).map (fun e => (e.2.contextWindow, e.2.maxOutput))

/-- `catalog_pricing`, over the seeded map. -/
def catalogPricing {P : Type} (table : CaseTable) (map : Table String (ModelPricing P))
    (order : List (String × ModelPricing P)) (modelId : String) : Option (ModelPricing P) :=
  let m := lowercase table modelId
  match map[m]? with
  | some p => some p
  | none => (closest order m).map Prod.snd

/-! ## Who owns a name -/

section Owners

variable {V : Type} {table : CaseTable}

/-- What two rows of one bare name are told apart by. -/
def rank (table : CaseTable) (key : String) : ℕ ×ₗ (String ×ₗ String) :=
  toLex (segments key, toLex (providerPrefix (lowercase table key), lowercase table key))

/-- The row a bare name goes to. -/
structure Owns (table : CaseTable) (keys : List String) (b key : String) : Prop where
  mem : key ∈ keys
  bare : bareOf table key = b
  least : ∀ other ∈ keys, bareOf table other = b → rank table key ≤ rank table other

/-- The row under a slot: by its key, or by its bare name. -/
def Awarded (table : CaseTable) (keys : List String) (slot key : String) : Prop :=
  (key ∈ keys ∧ lowercase table key = slot ∧ '/' ∈ slot.toList) ∨ Owns table keys slot key

variable {keys : List String} {b key other slot : String}

theorem rank_lt_iff : rank table key < rank table other ↔
    segments key < segments other ∨ segments key = segments other ∧
      toLex (providerPrefix (lowercase table key), lowercase table key) <
        toLex (providerPrefix (lowercase table other), lowercase table other) :=
  Prod.Lex.toLex_lt_toLex

theorem lowercase_of_rank (h : rank table key = rank table other) :
    lowercase table key = lowercase table other :=
  (Prod.mk.inj (toLex_inj.mp (Prod.mk.inj (toLex_inj.mp h)).2)).2

theorem slash_lowercase : '/' ∈ (lowercase table key).toList ↔ '/' ∈ key.toList := by
  rw [lowercase, String.toList_ofList]
  exact CaseTable.slash_mem_toLowercase

/-- A bare name has no slash. -/
theorem slash_bareOf : '/' ∉ (bareOf table key).toList := by
  rw [bareOf, slash_lowercase, lastSegment, String.toList_ofList]
  intro hmem
  have hne := @List.mem_rtakeWhile_imp _ (· != '/') _ _ hmem
  exact absurd rfl (bne_iff_ne.mp hne)

/-- A key without a slash is a bare name. -/
theorem lastSegment_of_slash (h : '/' ∉ key.toList) : lastSegment key = key := by
  have hall : ∀ ch ∈ key.toList, (ch != '/') = true := by
    intro ch hch
    refine bne_iff_ne.mpr ?_
    rintro rfl
    exact h hch
  rw [lastSegment, List.rtakeWhile_eq_self_iff.mpr hall, String.ofList_toList]

theorem segments_eq_zero : segments key = 0 ↔ '/' ∉ key.toList :=
  List.count_eq_zero

theorem Owns.slash (h : Owns table keys slot key) : '/' ∉ slot.toList := by
  rw [← h.bare]
  exact slash_bareOf

theorem Awarded.mem (h : Awarded table keys slot key) : key ∈ keys := by
  rcases h with ⟨hmem, -⟩ | howns
  · exact hmem
  · exact howns.mem

/-- Keys that differ in lowercase have different rows under one slot only by turns. -/
theorem awarded_unique {key' : String} (hkeys : (keys.map (lowercase table)).Nodup)
    (h : Awarded table keys slot key) (h' : Awarded table keys slot key') : key = key' := by
  have hinj := List.inj_on_of_nodup_map hkeys
  rcases h with ⟨hmem, hlower, hslash⟩ | howns
  · rcases h' with ⟨hmem', hlower', -⟩ | howns'
    · exact hinj hmem hmem' (hlower.trans hlower'.symm)
    · exact absurd hslash howns'.slash
  · rcases h' with ⟨-, -, hslash⟩ | howns'
    · exact absurd hslash howns.slash
    · have hle := howns.least key' howns'.mem howns'.bare
      have hge := howns'.least key howns.mem howns.bare
      exact hinj howns.mem howns'.mem (lowercase_of_rank (le_antisymm hle hge))

/-- Who owns what is a matter of the set of keys. -/
theorem Awarded.of_mem {keys' : List String} (hsame : ∀ k, k ∈ keys ↔ k ∈ keys')
    (h : Awarded table keys slot key) : Awarded table keys' slot key := by
  rcases h with ⟨hmem, hrest⟩ | howns
  · exact .inl ⟨(hsame _).mp hmem, hrest⟩
  · exact .inr ⟨(hsame _).mp howns.mem, howns.bare, fun k hk => howns.least k ((hsame k).mpr hk)⟩

end Owners

/-! ## What the loop keeps -/

section Loop

variable {V : Type} {table : CaseTable}

/-- What is noted of the owner of a bare name. -/
inductive OwnerNoted (table : CaseTable) (keys : List String) (b : String) : Option (Nat × String) → Prop
  | unowned : (∀ key ∈ keys, bareOf table key ≠ b) → OwnerNoted table keys b none
  | owned (key : String) : Owns table keys b key →
      OwnerNoted table keys b (some (segments key, lowercase table key))

/-- The awards after these rows. -/
structure AwardsOf (table : CaseTable) (rows : List (String × V)) (awards : Awards V) : Prop where
  owner : ∀ b, OwnerNoted table (rows.map Prod.fst) b awards.bareOwner[b]?
  map : ∀ slot v, awards.map[slot]? = some v ↔
    ∃ key, (key, v) ∈ rows ∧ Awarded table (rows.map Prod.fst) slot key

variable {keys : List String} {b key k slot : String} {owner : Option (Nat × String)}

/-- A row takes the name if it is before every other that has it. -/
def Beats (table : CaseTable) (keys : List String) (k : String) : Prop :=
  ∀ other ∈ keys, bareOf table other = bareOf table k → rank table k < rank table other

instance : Decidable (Beats table keys k) :=
  inferInstanceAs (Decidable (∀ other ∈ keys, bareOf table other = bareOf table k → rank table k < rank table other))

theorem takesBare_iff (h : OwnerNoted table keys (bareOf table k) owner) :
    takesBare owner (segments k) (lowercase table k) = true ↔ Beats table keys k := by
  cases h with
  | unowned h =>
      exact ⟨fun _ other hother hbare => absurd hbare (h other hother), fun _ => rfl⟩
  | owned key howns =>
      have hrank : takesBare (some (segments key, lowercase table key)) (segments k) (lowercase table k) = true ↔
          rank table k < rank table key := by
        rw [rank_lt_iff]
        simp only [takesBare, Bool.or_eq_true, Bool.and_eq_true, decide_eq_true_eq, beq_iff_eq]
      rw [hrank]
      refine ⟨?_, fun hbeats => hbeats key howns.mem howns.bare⟩
      intro hlt other hother hbare
      exact hlt.trans_le (howns.least other hother hbare)

theorem owns_concat_ne (h : bareOf table k ≠ b) : Owns table (keys ++ [k]) b key ↔ Owns table keys b key := by
  constructor
  · rintro ⟨hmem, hbare, hleast⟩
    refine ⟨?_, hbare, fun other hother => hleast other (List.mem_append_left _ hother)⟩
    rcases List.mem_append.mp hmem with hmem | hmem
    · exact hmem
    · rw [List.mem_singleton.mp hmem] at hbare
      exact absurd hbare h
  · rintro ⟨hmem, hbare, hleast⟩
    refine ⟨List.mem_append_left _ hmem, hbare, ?_⟩
    intro other hother hb
    rcases List.mem_append.mp hother with hother | hother
    · exact hleast other hother hb
    · rw [List.mem_singleton.mp hother] at hb
      exact absurd hb h

theorem owns_concat_beats (h : Beats table keys k) : Owns table (keys ++ [k]) (bareOf table k) key ↔ key = k := by
  constructor
  · rintro ⟨hmem, hbare, hleast⟩
    rcases List.mem_append.mp hmem with hmem | hmem
    · have hle := hleast k (List.mem_append_right _ List.mem_cons_self) rfl
      exact absurd (h key hmem hbare) (not_lt.mpr hle)
    · exact List.mem_singleton.mp hmem
  · rintro rfl
    refine ⟨List.mem_append_right _ List.mem_cons_self, rfl, ?_⟩
    intro other hother hb
    rcases List.mem_append.mp hother with hother | hother
    · exact (h other hother hb).le
    · rw [List.mem_singleton.mp hother]

theorem owns_concat_loses (hkeys : ((keys ++ [k]).map (lowercase table)).Nodup) (h : ¬ Beats table keys k) :
    Owns table (keys ++ [k]) (bareOf table k) key ↔ Owns table keys (bareOf table k) key := by
  obtain ⟨rival, hrival, hbareRival, hle⟩ : ∃ rival ∈ keys, bareOf table rival = bareOf table k ∧
      rank table rival ≤ rank table k := by
    simpa [Beats] using h
  constructor
  · rintro ⟨hmem, hbare, hleast⟩
    refine ⟨?_, hbare, fun other hother => hleast other (List.mem_append_left _ hother)⟩
    rcases List.mem_append.mp hmem with hmem | hmem
    · exact hmem
    · obtain rfl := List.mem_singleton.mp hmem
      have hge := hleast rival (List.mem_append_left _ hrival) hbareRival
      have hlower := lowercase_of_rank (le_antisymm hle hge)
      have hin : key ∈ keys ++ [key] := List.mem_append_right _ hmem
      have heq := List.inj_on_of_nodup_map hkeys (List.mem_append_left _ hrival) hin hlower
      exact heq ▸ hrival
  · rintro ⟨hmem, hbare, hleast⟩
    refine ⟨List.mem_append_left _ hmem, hbare, ?_⟩
    intro other hother hb
    rcases List.mem_append.mp hother with hother | hother
    · exact hleast other hother hb
    · rw [List.mem_singleton.mp hother]
      exact (hleast rival hrival hbareRival).trans hle

/-- A row without a slash takes its name. -/
theorem beats_of_slash (hkeys : ((keys ++ [k]).map (lowercase table)).Nodup)
    (h : '/' ∉ (lowercase table k).toList) : bareOf table k = lowercase table k ∧ Beats table keys k := by
  have hslash : '/' ∉ k.toList := fun hmem => h (slash_lowercase.mpr hmem)
  have hbare : bareOf table k = lowercase table k := by
    rw [bareOf, lastSegment_of_slash hslash]
  refine ⟨hbare, ?_⟩
  intro other hother hother'
  rw [rank_lt_iff, segments_eq_zero.mpr hslash]
  left
  by_contra hzero
  have hotherSlash := segments_eq_zero.mp (Nat.eq_zero_of_not_pos hzero)
  -- a second row of this key would be the same row
  have hlower : lowercase table other = lowercase table k := by
    rw [← hbare, ← hother', bareOf, lastSegment_of_slash hotherSlash]
  rw [List.map_append, List.nodup_append] at hkeys
  exact hkeys.2.2 _ (List.mem_map_of_mem hother) _ (List.mem_map_of_mem List.mem_cons_self) hlower

/-- Who is under a slot after one more row. -/
theorem awarded_concat (hkeys : ((keys ++ [k]).map (lowercase table)).Nodup) :
    Awarded table (keys ++ [k]) slot key ↔
      if (bareOf table k = slot ∧ Beats table keys k) ∨ lowercase table k = slot then key = k
      else Awarded table keys slot key := by
  by_cases hslash : '/' ∈ slot.toList
  · have hbare : bareOf table k ≠ slot := by
      rintro rfl
      exact slash_bareOf hslash
    have howns : ∀ keys, ¬ Owns table keys slot key := fun _ h => h.slash hslash
    simp only [Awarded, howns, or_false, hbare, false_and, false_or, hslash, and_true]
    split
    · next hk =>
        constructor
        · rintro ⟨hmem, hlower⟩
          exact List.inj_on_of_nodup_map hkeys hmem (List.mem_append_right _ List.mem_cons_self)
            (hlower.trans hk.symm)
        · rintro rfl
          exact ⟨List.mem_append_right _ List.mem_cons_self, hk⟩
    · next hk =>
        constructor
        · rintro ⟨hmem, hlower⟩
          rcases List.mem_append.mp hmem with hmem | hmem
          · exact ⟨hmem, hlower⟩
          · rw [List.mem_singleton.mp hmem] at hlower
            exact absurd hlower hk
        · rintro ⟨hmem, hlower⟩
          exact ⟨List.mem_append_left _ hmem, hlower⟩
  · have hcond : ((bareOf table k = slot ∧ Beats table keys k) ∨ lowercase table k = slot) ↔
        bareOf table k = slot ∧ Beats table keys k := by
      refine or_iff_left_of_imp ?_
      rintro rfl
      exact beats_of_slash hkeys hslash
    simp only [Awarded, hslash, and_false, false_or, hcond]
    by_cases hbare : bareOf table k = slot
    · subst hbare
      by_cases hbeats : Beats table keys k
      · rw [if_pos ⟨rfl, hbeats⟩]
        exact owns_concat_beats hbeats
      · rw [if_neg (fun h => hbeats h.2)]
        exact owns_concat_loses hkeys hbeats
    · rw [if_neg (fun h => hbare h.1)]
      exact owns_concat_ne hbare

/-- The owners after one more row. -/
theorem ownerNoted_concat (hkeys : ((keys ++ [k]).map (lowercase table)).Nodup)
    (h : OwnerNoted table keys b owner) :
    OwnerNoted table (keys ++ [k]) b
      (if bareOf table k = b ∧ Beats table keys k then some (segments k, lowercase table k) else owner) := by
  by_cases hbare : bareOf table k = b
  · subst hbare
    by_cases hbeats : Beats table keys k
    · rw [if_pos ⟨rfl, hbeats⟩]
      exact .owned k ((owns_concat_beats hbeats).mpr rfl)
    · rw [if_neg (fun h => hbeats h.2)]
      cases h with
      | unowned h => exact absurd (fun other hother hb => absurd hb (h other hother)) hbeats
      | owned key howns => exact .owned key ((owns_concat_loses hkeys hbeats).mpr howns)
  · rw [if_neg (fun h => hbare h.1)]
    cases h with
    | unowned h =>
        refine .unowned ?_
        intro key hkey
        rcases List.mem_append.mp hkey with hkey | hkey
        · exact h key hkey
        · rw [List.mem_singleton.mp hkey]
          exact hbare
    | owned key howns => exact .owned key ((owns_concat_ne hbare).mpr howns)

variable {rows : List (String × V)} {awards : Awards V} {v : V}

/-- What one row does to the map and to the owners. -/
theorem awardRow_get (h : OwnerNoted table keys (bareOf table k) awards.bareOwner[bareOf table k]?) :
    let after := awardRow table awards (lowercase table k) k v
    (∀ slot, after.map[slot]? = if (bareOf table k = slot ∧ Beats table keys k) ∨ lowercase table k = slot
      then some v else awards.map[slot]?) ∧
    ∀ b, after.bareOwner[b]? = if bareOf table k = b ∧ Beats table keys k
      then some (segments k, lowercase table k) else awards.bareOwner[b]? := by
  intro after
  have hafter : after = awardRow table awards (lowercase table k) k v := rfl
  simp only [awardRow] at hafter
  by_cases hbeats : Beats table keys k
  · rw [if_pos ((takesBare_iff h).mpr hbeats)] at hafter
    rw [hafter]
    refine ⟨fun slot => ?_, fun b => ?_⟩
    · simp only [Table.get_insert, hbeats, and_true]
      by_cases hbare : bareOf table k = slot
      · simp only [hbare, if_true, true_or]
      · simp only [hbare, if_false, false_or]
    · simp only [Table.get_insert, hbeats, and_true]
  · rw [if_neg (fun htakes => hbeats ((takesBare_iff h).mp htakes))] at hafter
    rw [hafter]
    refine ⟨fun slot => ?_, fun b => ?_⟩
    · simp only [Table.get_insert, hbeats, and_false, false_or]
    · simp only [hbeats, and_false, if_false]

/-- One row. -/
theorem AwardsOf.concat (hkeys : (((rows ++ [(k, v)]).map Prod.fst).map (lowercase table)).Nodup)
    (h : AwardsOf table rows awards) :
    AwardsOf table (rows ++ [(k, v)]) (awardRow table awards (lowercase table k) k v) := by
  obtain ⟨hmap, howner⟩ := @awardRow_get V table _ k awards v (h.owner (bareOf table k))
  have hconcat : (rows ++ [(k, v)]).map Prod.fst = rows.map Prod.fst ++ [k] := List.map_append
  rw [hconcat] at hkeys
  refine ⟨fun b => ?_, fun slot w => ?_⟩
  · rw [hconcat, howner]
    exact ownerNoted_concat hkeys (h.owner b)
  · rw [hconcat, hmap]
    simp only [awarded_concat hkeys]
    split
    · constructor
      · intro hw
        rw [← Option.some.inj hw]
        exact ⟨k, List.mem_append_right _ List.mem_cons_self, rfl⟩
      · rintro ⟨key, hmem, rfl⟩
        rcases List.mem_append.mp hmem with hmem | hmem
        · have hin : key ∈ rows.map Prod.fst := @List.mem_map_of_mem _ _ _ _ Prod.fst hmem
          rw [List.map_append, List.nodup_append] at hkeys
          exact absurd rfl (hkeys.2.2 _ (List.mem_map_of_mem hin) _ (List.mem_map_of_mem List.mem_cons_self))
        · rw [(Prod.mk.inj (List.mem_singleton.mp hmem)).2]
    · next hcond =>
        rw [h.map]
        constructor
        · rintro ⟨key, hmem, hawarded⟩
          exact ⟨key, List.mem_append_left _ hmem, hawarded⟩
        · rintro ⟨key, hmem, hawarded⟩
          refine ⟨key, ?_, hawarded⟩
          rcases List.mem_append.mp hmem with hmem | hmem
          · exact hmem
          · have hin := @List.mem_map_of_mem _ _ _ _ (lowercase table) hawarded.mem
            rw [(Prod.mk.inj (List.mem_singleton.mp hmem)).1] at hin
            rw [List.map_append, List.nodup_append] at hkeys
            exact absurd rfl (hkeys.2.2 _ hin _ (List.mem_map_of_mem List.mem_cons_self))

/-- The two loops over rows that are all put under their lowercase keys. -/
def awardRows (table : CaseTable) (rows : List (String × V)) : Awards V :=
  rows.foldl (fun awards row => awardRow table awards (lowercase table row.1) row.1 row.2) ⟨∅, ∅⟩

/-- All the rows, by induction from the last. -/
theorem awardRows_awardsOf (rows : List (String × V)) :
    ((rows.map Prod.fst).map (lowercase table)).Nodup → AwardsOf table rows (awardRows table rows) := by
  induction rows using List.reverseRecOn with
  | nil =>
      intro _
      refine ⟨fun b => ?_, fun slot v => ?_⟩
      · rw [awardRows, List.foldl_nil, Std.ExtTreeMap.getElem?_empty]
        refine .unowned ?_
        intro key hkey
        cases hkey
      · rw [awardRows, List.foldl_nil, Std.ExtTreeMap.getElem?_empty]
        constructor
        · intro h
          cases h
        · rintro ⟨key, hmem, -⟩
          cases hmem
  | append_singleton rows row ih =>
      intro hkeys
      rw [awardRows, List.foldl_append]
      refine AwardsOf.concat hkeys (ih ?_)
      rw [List.map_append, List.map_append, List.nodup_append] at hkeys
      exact hkeys.1

/-- The order of the rows does not matter. -/
theorem awardRows_perm {rows' : List (String × V)} (hkeys : ((rows.map Prod.fst).map (lowercase table)).Nodup)
    (hperm : rows.Perm rows') : (awardRows table rows').map = (awardRows table rows).map := by
  have hkeys' := ((hperm.map Prod.fst).map (lowercase table)).nodup_iff.mp hkeys
  apply Std.ExtTreeMap.ext_getElem?
  intro slot
  apply Option.ext
  intro v
  rw [(awardRows_awardsOf rows hkeys).map, (awardRows_awardsOf rows' hkeys').map]
  refine exists_congr (fun key => and_congr hperm.mem_iff.symm ⟨?_, ?_⟩)
  · exact Awarded.of_mem (fun k => (hperm.map Prod.fst).mem_iff.symm)
  · exact Awarded.of_mem (fun k => (hperm.map Prod.fst).mem_iff)

/-- A row of the windows. -/
def windowRow (entry : String × Nat × Nat) : String × CatalogModel :=
  (entry.1, ⟨entry.2.1, entry.2.2⟩)

/-- A row of the prices. -/
def priceRow {P : Type} (entry : String × P × P) : String × ModelPricing P :=
  (entry.1, ⟨entry.2.1, entry.2.2⟩)

theorem buildCatalogMap_eq (entries : List (String × Nat × Nat)) :
    buildCatalogMap table entries = (awardRows table (entries.map windowRow)).map := by
  rw [awardRows, List.foldl_map]
  rfl

/-- With a price in every row and every key in lowercase it is the same loop. -/
theorem seedPricingCatalog_eq {P : Type} [Zero P] [LT P] [DecidableLT P] {entries : List (String × P × P)}
    (hpriced : ∀ e ∈ entries, 0 < e.2.1 ∨ 0 < e.2.2) (hlower : ∀ e ∈ entries, lowercase table e.1 = e.1) :
    seedPricingCatalog table entries = (awardRows table (entries.map priceRow)).map := by
  rw [awardRows, List.foldl_map, seedPricingCatalog]
  refine congrArg Awards.map (List.foldl_ext _ _ _ ?_)
  intro awards e he
  rw [if_pos (hpriced e he), priceRow, hlower e he]

end Loop

/-! ## Lookups -/

section Lookups

variable {V W : Type} {table : CaseTable} {map : Table String V} {map' : Table String W}
  {order : List (String × V)} {order' : List (String × W)} {slots slots' : List String} {m : String}

instance (ties : String → String → Ordering) [Std.TransCmp ties] : Std.TransCmp (byLength ties) :=
  inferInstanceAs (Std.TransCmp (compareLex (compareOn String.utf8ByteSize) ties))

/-- `closest`, for the slots alone. -/
def closestSlot (slots : List String) (m : String) : Option String :=
  match maxBy (byLength (fun a b => compare b a)) (slots.filter (fun slot => contains m slot)) with
  | some family => some family
  | none => minBy (byLength compare) (slots.filter (fun slot => contains slot m))

theorem closest_slot (entries : List (String × V)) (m : String) :
    (closest entries m).map Prod.fst = closestSlot (entries.map Prod.fst) m := by
  have hmax := @selectBy_map _ (fun a b : String × V => byLength (fun a b => compare b a) a.1 b.1 == .gt)
    (entries.filter (fun e => contains m e.1)) _ (fun a b => byLength (fun a b => compare b a) a b == .gt)
    Prod.fst (fun _ _ => rfl)
  have hmin := @selectBy_map _ (fun a b : String × V => byLength compare a.1 b.1 != .gt)
    (entries.filter (fun e => contains e.1 m)) _ (fun a b => byLength compare a b != .gt)
    Prod.fst (fun _ _ => rfl)
  rw [closest, closestSlot, List.filter_map, List.filter_map, maxBy, maxBy, minBy, minBy]
  rw [Function.comp_def, Function.comp_def, hmax, hmin]
  split
  · next family hfamily =>
      rw [hfamily]
      rfl
  · next hnone =>
      rw [hnone]
      rfl

theorem closest_mem {e : String × V} (h : closest order m = some e) : e ∈ order := by
  rw [closest] at h
  split at h
  · next family hfamily =>
      rw [← Option.some.inj h]
      exact List.mem_of_mem_filter (selectBy_mem hfamily)
  · exact List.mem_of_mem_filter (selectBy_mem h)

/-- No two slots are equally close. -/
theorem byLength_antisymm {ties : String → String → Ordering} [Std.TransCmp ties] [Std.LawfulEqCmp ties]
    {a b : String} (hab : (byLength ties a b).isLE = true) (hba : (byLength ties b a).isLE = true) : a = b := by
  have heq : byLength ties a b = .eq := Std.OrientedCmp.isLE_antisymm hab hba
  have hties := (Ordering.then_eq_eq.mp heq).2
  exact Std.LawfulEqCmp.eq_of_compare hties

/-- The closest slot is the same in whatever order the map is gone through. -/
theorem closestSlot_perm (h : slots.Perm slots') : closestSlot slots m = closestSlot slots' m := by
  have hmax := @selectBy_perm _ _ _ _ _ (@keeps_max _ (byLength (fun a b => compare b a)) _)
    (fun a _ b _ hab hba => byLength_antisymm hab hba) (h.filter (fun slot => contains m slot))
  have hmin := @selectBy_perm _ _ _ _ _ (@keeps_min _ (byLength compare) _)
    (fun a _ b _ hab hba => byLength_antisymm hba hab) (h.filter (fun slot => contains slot m))
  rw [closestSlot, closestSlot, maxBy, minBy, hmax, hmin]

/-- What the two lookups share. -/
def lookupIn (map : Table String V) (order : List (String × V)) (m : String) : Option V :=
  match map[m]? with
  | some v => some v
  | none => (closest order m).map Prod.snd

theorem mem_slots : m ∈ map.toList.map Prod.fst ↔ ∃ v, map[m]? = some v := by
  simp only [List.mem_map, Prod.exists, Table.mem_rows, exists_and_right, exists_eq_right]

/-- What is found is what one slot holds, and which one is a matter of the slots. -/
theorem lookupIn_slot (horder : order.Perm map.toList) :
    lookupIn map order m =
      (if m ∈ map.toList.map Prod.fst then some m else closestSlot (map.toList.map Prod.fst) m).bind
        (fun slot => map[slot]?) := by
  rw [lookupIn]
  split
  · next v hv =>
      rw [if_pos (mem_slots.mpr ⟨v, hv⟩)]
      exact hv.symm
  · next hnone =>
      have hno : ¬ ∃ v, map[m]? = some v := by
        rintro ⟨v, hv⟩
        rw [hnone] at hv
        cases hv
      rw [if_neg (fun h => hno (mem_slots.mp h)), ← closestSlot_perm (horder.map Prod.fst), ← closest_slot]
      cases hclosest : closest order m with
      | none => rfl
      | some e => exact (Table.mem_rows.mp (horder.mem_iff.mp (closest_mem hclosest))).symm

/-- Two maps with the same slots are asked alike. -/
theorem lookupIn_same (horder : order.Perm map.toList) (horder' : order'.Perm map'.toList)
    (hslots : (map.toList.map Prod.fst).Perm (map'.toList.map Prod.fst)) :
    ∃ slot : Option String, lookupIn map order m = slot.bind (fun slot => map[slot]?) ∧
      lookupIn map' order' m = slot.bind (fun slot => map'[slot]?) := by
  refine ⟨_, lookupIn_slot horder, ?_⟩
  rw [lookupIn_slot horder', closestSlot_perm hslots]
  simp only [hslots.mem_iff]

theorem catalogLookupIn_eq {models : Table String CatalogModel} {order : List (String × CatalogModel)}
    {id : String} : catalogLookupIn table models order id =
      (lookupIn models order (lowercase table id)).map (fun e => (e.contextWindow, e.maxOutput)) := by
  rw [catalogLookupIn, lookupIn]
  cases models[lowercase table id]? with
  | some entry => rfl
  | none =>
      dsimp only
      rw [Option.map_map]
      rfl

theorem catalogPricing_eq {P : Type} {prices : Table String (ModelPricing P)}
    {order : List (String × ModelPricing P)} {id : String} :
    catalogPricing table prices order id = lookupIn prices order (lowercase table id) := by
  rw [catalogPricing, lookupIn]
  cases prices[lowercase table id]? with
  | some p => rfl
  | none => rfl

end Lookups

section Agreement

variable {table : CaseTable} {entries : List (String × Nat × Nat)} {key slot : String}

theorem map_fst_windowRow : (entries.map windowRow).map Prod.fst = entries.map Prod.fst := by
  rw [List.map_map]
  rfl

theorem map_fst_priceRow {P : Type} {prices : List (String × P × P)} :
    (prices.map priceRow).map Prod.fst = prices.map Prod.fst := by
  rw [List.map_map]
  rfl

/-- What a slot of the windows holds. -/
theorem buildCatalogMap_get (hkeys : ((entries.map Prod.fst).map (lowercase table)).Nodup) {model : CatalogModel} :
    (buildCatalogMap table entries)[slot]? = some model ↔
      ∃ key, (key, model.contextWindow, model.maxOutput) ∈ entries ∧
        Awarded table (entries.map Prod.fst) slot key := by
  rw [← map_fst_windowRow] at hkeys
  rw [buildCatalogMap_eq, (awardRows_awardsOf _ hkeys).map, map_fst_windowRow]
  refine exists_congr (fun key => and_congr_left (fun _ => ?_))
  rw [List.mem_map]
  constructor
  · rintro ⟨entry, hentry, heq⟩
    cases heq
    exact hentry
  · intro h
    exact ⟨_, h, rfl⟩

/-- What a slot of the prices holds. -/
theorem seedPricingCatalog_get {P : Type} [Zero P] [LT P] [DecidableLT P] {prices : List (String × P × P)}
    (hkeys : ((prices.map Prod.fst).map (lowercase table)).Nodup)
    (hpriced : ∀ e ∈ prices, 0 < e.2.1 ∨ 0 < e.2.2) (hlower : ∀ e ∈ prices, lowercase table e.1 = e.1)
    {price : ModelPricing P} :
    (seedPricingCatalog table prices)[slot]? = some price ↔
      ∃ key, (key, price.inputPerMillion, price.outputPerMillion) ∈ prices ∧
        Awarded table (prices.map Prod.fst) slot key := by
  rw [← map_fst_priceRow] at hkeys
  rw [seedPricingCatalog_eq hpriced hlower, (awardRows_awardsOf _ hkeys).map, map_fst_priceRow]
  refine exists_congr (fun key => and_congr_left (fun _ => ?_))
  rw [List.mem_map]
  constructor
  · rintro ⟨entry, hentry, heq⟩
    cases heq
    exact hentry
  · intro h
    exact ⟨_, h, rfl⟩

/-- A slot is in both maps or in neither. -/
theorem slots_perm {P : Type} [Zero P] [LT P] [DecidableLT P] {prices : List (String × P × P)}
    (hkeys : ((entries.map Prod.fst).map (lowercase table)).Nodup)
    (hperm : (prices.map Prod.fst).Perm (entries.map Prod.fst))
    (hpriced : ∀ e ∈ prices, 0 < e.2.1 ∨ 0 < e.2.2) (hlower : ∀ e ∈ prices, lowercase table e.1 = e.1) :
    ((buildCatalogMap table entries).toList.map Prod.fst).Perm
      ((seedPricingCatalog table prices).toList.map Prod.fst) := by
  have hkeys' := (hperm.map (lowercase table)).nodup_iff.mpr hkeys
  refine (List.perm_ext_iff_of_nodup (Table.rows_keys_nodup _) (Table.rows_keys_nodup _)).mpr ?_
  intro slot
  rw [mem_slots, mem_slots]
  constructor
  · rintro ⟨model, hmodel⟩
    obtain ⟨key, -, hawarded⟩ := (buildCatalogMap_get hkeys).mp hmodel
    have hawarded' := hawarded.of_mem (fun k => hperm.mem_iff.symm)
    obtain ⟨⟨key', price⟩, hprice, rfl⟩ := List.mem_map.mp hawarded'.mem
    exact ⟨⟨price.1, price.2⟩, (seedPricingCatalog_get hkeys' hpriced hlower).mpr ⟨key', hprice, hawarded'⟩⟩
  · rintro ⟨price, hprice⟩
    obtain ⟨key, -, hawarded⟩ := (seedPricingCatalog_get hkeys' hpriced hlower).mp hprice
    have hawarded' := hawarded.of_mem (fun k => hperm.mem_iff)
    obtain ⟨⟨key', window⟩, hwindow, rfl⟩ := List.mem_map.mp hawarded'.mem
    exact ⟨⟨window.1, window.2⟩, (buildCatalogMap_get hkeys).mpr ⟨key', hwindow, hawarded'⟩⟩

/-- Every bare name has an owner. -/
theorem owns_exists {keys : List String} (h : key ∈ keys) : ∃ best, Owns table keys (bareOf table key) best := by
  obtain ⟨best, hmem, hleast⟩ := (keys.toFinset.filter (fun k => bareOf table k = bareOf table key)).exists_min_image
    (rank table) ⟨key, by simpa using h⟩
  rw [Finset.mem_filter, List.mem_toFinset] at hmem
  refine ⟨best, hmem.1, hmem.2, ?_⟩
  intro other hother hbare
  exact hleast other (Finset.mem_filter.mpr ⟨List.mem_toFinset.mpr hother, hbare⟩)

/-- **The two catalogs.**  The order of the rows does not matter; a bare name is the
row's with the fewest slashes, the least provider, the least key; and where every row
has a price and a key in lowercase, the windows and the prices of an id are those of
one row, or neither is found. -/
theorem catalogs_agree (table : CaseTable) (entries : List (String × Nat × Nat))
    (hkeys : ((entries.map Prod.fst).map (lowercase table)).Nodup) :
    (∀ entries', entries.Perm entries' → buildCatalogMap table entries' = buildCatalogMap table entries) ∧
    (∀ key ∈ entries.map Prod.fst, ∃ best window, (best, window) ∈ entries ∧ bareOf table best = bareOf table key ∧
      (∀ other ∈ entries.map Prod.fst, bareOf table other = bareOf table key →
        rank table best ≤ rank table other) ∧
      ∀ order, catalogLookupIn table (buildCatalogMap table entries) order (lastSegment key) = some window) ∧
    ∀ (P : Type) [Zero P] [LT P] [DecidableLT P] (prices : List (String × P × P)),
      (prices.map Prod.fst).Perm (entries.map Prod.fst) →
      (∀ e ∈ prices, 0 < e.2.1 ∨ 0 < e.2.2) → (∀ e ∈ prices, lowercase table e.1 = e.1) →
      ∀ order order', order.Perm (buildCatalogMap table entries).toList →
        order'.Perm (seedPricingCatalog table prices).toList → ∀ id,
          (catalogLookupIn table (buildCatalogMap table entries) order id = none ∧
            catalogPricing table (seedPricingCatalog table prices) order' id = none) ∨
          ∃ key window price, (key, window) ∈ entries ∧ (key, price) ∈ prices ∧
            catalogLookupIn table (buildCatalogMap table entries) order id = some window ∧
            catalogPricing table (seedPricingCatalog table prices) order' id = some ⟨price.1, price.2⟩ := by
  refine ⟨?_, ?_, ?_⟩
  · intro entries' hperm
    rw [← map_fst_windowRow] at hkeys
    rw [buildCatalogMap_eq, buildCatalogMap_eq]
    exact awardRows_perm hkeys (hperm.map windowRow)
  · intro key hkey
    obtain ⟨best, howns⟩ := @owns_exists table _ _ hkey
    obtain ⟨⟨best', window⟩, hentry, rfl⟩ := List.mem_map.mp howns.mem
    refine ⟨best', window, hentry, howns.bare, howns.least, ?_⟩
    intro order
    have hget : (buildCatalogMap table entries)[bareOf table key]? = some ⟨window.1, window.2⟩ :=
      (buildCatalogMap_get hkeys).mpr ⟨best', hentry, .inr howns⟩
    rw [catalogLookupIn_eq, lookupIn, ← bareOf, hget]
    rfl
  · intro P _ _ _ prices hperm hpriced hlower order order' horder horder' id
    have hkeys' := (hperm.map (lowercase table)).nodup_iff.mpr hkeys
    have hslots := slots_perm hkeys hperm hpriced hlower
    obtain ⟨slot, hwindow, hprice⟩ := @lookupIn_same _ _ _ _ _ _ (lowercase table id) horder horder' hslots
    rw [catalogLookupIn_eq, catalogPricing_eq, hwindow, hprice]
    cases slot with
    | none => exact .inl ⟨rfl, rfl⟩
    | some slot =>
        rw [Option.bind_some, Option.bind_some]
        cases hmodel : (buildCatalogMap table entries)[slot]? with
        | none =>
            have hno : slot ∉ (buildCatalogMap table entries).toList.map Prod.fst := by
              rw [mem_slots, hmodel]
              rintro ⟨v, hv⟩
              cases hv
            refine .inl ⟨rfl, ?_⟩
            cases hfound : (seedPricingCatalog table prices)[slot]? with
            | none => rfl
            | some price => exact absurd (hslots.mem_iff.mpr (mem_slots.mpr ⟨price, hfound⟩)) hno
        | some model =>
            obtain ⟨price, hfound⟩ := mem_slots.mp (hslots.mem_iff.mp (mem_slots.mpr ⟨model, hmodel⟩))
            obtain ⟨key, hentry, hawarded⟩ := (buildCatalogMap_get hkeys).mp hmodel
            obtain ⟨key', hpriceRow, hawarded'⟩ := (seedPricingCatalog_get hkeys' hpriced hlower).mp hfound
            obtain rfl := awarded_unique hkeys hawarded (hawarded'.of_mem (fun k => hperm.mem_iff))
            refine .inr ⟨key, _, _, hentry, hpriceRow, rfl, hfound⟩

/-- A model of two plans. -/
def glmWindows : List (String × Nat × Nat) :=
  [("zai-coding/glm-5.2", 200000, 131072), ("zai/glm-5.2", 1000000, 131072)]

def glmPrices : List (String × Int × Int) :=
  [("zai/glm-5.2", 3, 11), ("zai-coding/glm-5.2", 1, 4)]

theorem catalogs_agree_glm :
    buildCatalogMap .smallest glmWindows.reverse = buildCatalogMap .smallest glmWindows ∧
    ∀ id,
      (catalogLookupIn .smallest (buildCatalogMap .smallest glmWindows) (buildCatalogMap .smallest glmWindows).toList
          id = none ∧
        catalogPricing .smallest (seedPricingCatalog .smallest glmPrices)
          (seedPricingCatalog .smallest glmPrices).toList id = none) ∨
      ∃ key window price, (key, window) ∈ glmWindows ∧ (key, price) ∈ glmPrices ∧
        catalogLookupIn .smallest (buildCatalogMap .smallest glmWindows)
          (buildCatalogMap .smallest glmWindows).toList id = some window ∧
        catalogPricing .smallest (seedPricingCatalog .smallest glmPrices)
          (seedPricingCatalog .smallest glmPrices).toList id = some ⟨price.1, price.2⟩ := by
  have h := catalogs_agree .smallest glmWindows (by decide)
  refine ⟨h.1 _ (List.reverse_perm _).symm, ?_⟩
  exact h.2.2 Int glmPrices (by decide) (by decide) (by decide) _ _ (.refl _) (.refl _)

end Agreement

end Octos.Llm
