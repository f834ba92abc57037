/-
# `Octos.Pipeline.EscapedBudget` — the longest beginning within a budget

`bound_str_to_escaped_budget` of `executor.rs`: a search by halves for the last offset
at which a beginning of the text still fits when it is escaped for JSON.

    lo     known to fit
    mid    moved down to the start of a character, and tried
    hi     thought not to fit

When no character starts between `lo` and `mid` there is nothing to try, and `hi` comes
down to `mid`.  That drops the offsets between the two: a character longer than half
the window ends there, and may fit.  The search is exact when it meets no such window.
-/
import Octos.Lib.Slices

namespace Octos.Pipeline

open Octos.Text

/-! ## The search -/

/-- `json_escaped_len`, with what a character costs as a parameter. -/
def escapedLen (cost : Char → Nat) (text : List Char) : Nat :=
  (text.map cost).sum

/-- What `serde_json` writes for a character. -/
def jsonCost (ch : Char) : Nat :=
  if ['"', '\\', '\n', '\r', '\t', '\x08', '\x0c'].contains ch then 2
  else if ch.toNat < 0x20 then 6
  else ch.utf8Size

section

variable (cost : Char → Nat) (text : List Char) (budget : Nat)

/-- One round of the loop, from the window `(lo, hi)`; `none` is the panic of a cut inside
a character. -/
def narrow (window : Nat × Nat) : Option (Nat × Nat) :=
  let (lo, hi) := window
  let mid := lo + (hi - lo) / 2
  let probe := floorBoundary text lo mid
  if probe = lo then some (lo, mid)
  else (sliceTo text probe).map (fun head =>
    if escapedLen cost head ≤ budget then (probe, hi) else (lo, probe))

/-- `while hi - lo > 1`; the first argument bounds the rounds. -/
def searchFrom : Nat → Nat × Nat → Option Nat
  | 0, _ => none
  | rounds + 1, window =>
      if 1 < window.2 - window.1 then (narrow cost text budget window).bind (searchFrom rounds)
      else some window.1

def boundStrToEscapedBudget (rounds : Nat) : Option (List Char) :=
  if escapedLen cost text ≤ budget then some text
  else (searchFrom cost text budget rounds (0, utf8Length text)).bind (sliceTo text)

/-! ## What it is for -/

/-- The longest beginning within the budget. -/
structure Exact (kept : List Char) : Prop where
  isPrefix : kept <+: text
  fits : escapedLen cost kept ≤ budget
  longest : ∀ longer, longer <+: text → escapedLen cost longer ≤ budget → longer.length ≤ kept.length

/-- The loop goes from one window to the next. -/
def Narrows (window next : Nat × Nat) : Prop :=
  1 < window.2 - window.1 ∧ narrow cost text budget window = some next

/-- A window that the search comes to. -/
def Visited (window : Nat × Nat) : Prop :=
  Relation.ReflTransGen (Narrows cost text budget) (0, utf8Length text) window

/-- The first character of the window fits, and ends in its upper half. -/
def Straddled (window : Nat × Nat) : Prop :=
  1 < window.2 - window.1 ∧ ∃ before ch after, text = before ++ ch :: after ∧ utf8Length before = window.1 ∧
    (window.2 - window.1) / 2 < ch.utf8Size ∧ window.1 + ch.utf8Size < window.2 ∧
      escapedLen cost (before ++ [ch]) ≤ budget

/-- A beginning of that length fits. -/
def FitsAt (n : Nat) : Prop :=
  ∃ a b, text = a ++ b ∧ utf8Length a = n ∧ escapedLen cost a ≤ budget

end

/-! ## One round -/

variable {cost : Char → Nat} {text : List Char} {budget : Nat} {lo hi : Nat}

theorem escapedLen_append (a b : List Char) :
    escapedLen cost (a ++ b) = escapedLen cost a + escapedLen cost b := by
  rw [escapedLen, List.map_append, List.sum_append]
  rfl

/-- Below an offset that fits every boundary fits. -/
theorem FitsAt.below {m n : Nat} (h : FitsAt cost text budget n) (hm : isCharBoundary text m = true)
    (hle : m ≤ n) : FitsAt cost text budget m := by
  obtain ⟨a, b, htext, ha, hfits⟩ := h
  obtain ⟨c, d, htext', hc⟩ := isCharBoundary_iff.mp hm
  have hbegins : c <+: a := prefix_of_utf8Length_le ⟨d, htext'.symm⟩ ⟨b, htext.symm⟩ (by omega)
  obtain ⟨more, rfl⟩ := hbegins
  rw [escapedLen_append] at hfits
  exact ⟨c, d, htext', hc, Nat.le_trans (Nat.le_add_right _ _) hfits⟩

theorem FitsAt.boundary {n : Nat} (h : FitsAt cost text budget n) : isCharBoundary text n = true := by
  obtain ⟨a, b, htext, ha, -⟩ := h
  exact isCharBoundary_iff.mpr ⟨a, b, htext, ha⟩

/-- What is tried fits, or it does not. -/
theorem narrow_probe {probe : Nat} (hprobe : floorBoundary text lo (lo + (hi - lo) / 2) = probe)
    (hne : probe ≠ lo) (hboundary : isCharBoundary text probe = true) :
    (FitsAt cost text budget probe ∧ narrow cost text budget (lo, hi) = some (probe, hi)) ∨
      (¬ FitsAt cost text budget probe ∧ narrow cost text budget (lo, hi) = some (lo, probe)) := by
  obtain ⟨a, b, htext, ha⟩ := isCharBoundary_iff.mp hboundary
  have hslice : sliceTo text probe = some a := by
    rw [htext, ← ha, sliceTo_append]
  have hround : narrow cost text budget (lo, hi) =
      some (if escapedLen cost a ≤ budget then (probe, hi) else (lo, probe)) := by
    simp only [narrow, hprobe, if_neg hne, hslice, Option.map_some]
  by_cases hfits : escapedLen cost a ≤ budget
  · exact .inl ⟨⟨a, b, htext, ha, hfits⟩, by rw [hround, if_pos hfits]⟩
  · refine .inr ⟨?_, by rw [hround, if_neg hfits]⟩
    rintro ⟨c, d, htext', hc, hcost⟩
    have hsame : a = c := by
      have hac : a <+: c := prefix_of_utf8Length_le ⟨b, htext.symm⟩ ⟨d, htext'.symm⟩ (by omega)
      have hca : c <+: a := prefix_of_utf8Length_le ⟨d, htext'.symm⟩ ⟨b, htext.symm⟩ (by omega)
      exact hac.eq_of_length (Nat.le_antisymm hac.length_le hca.length_le)
    exact hfits (hsame ▸ hcost)

/-- Behind a character nothing starts before it ends. -/
theorem next_boundary {before after : List Char} {ch : Char} {m : Nat} (htext : text = before ++ ch :: after)
    (hm : isCharBoundary text m = true) (hlt : utf8Length before < m) :
    utf8Length before + ch.utf8Size ≤ m := by
  obtain ⟨a, b, htext', ha⟩ := isCharBoundary_iff.mp hm
  have hbegins : before <+: a := prefix_of_utf8Length_le ⟨_, htext.symm⟩ ⟨b, htext'.symm⟩ (by omega)
  obtain ⟨more, rfl⟩ := hbegins
  rw [utf8Length_append] at ha
  cases more with
  | nil =>
      rw [show utf8Length [] = 0 from rfl] at ha
      omega
  | cons c more =>
      rw [htext, List.append_assoc, List.append_cancel_left_eq, List.cons_append, List.cons.injEq] at htext'
      rw [utf8Length_cons, ← htext'.1] at ha
      omega

/-- What a round does to the window: it shrinks, what is below still fits, and what fits
stays below, unless a character straddles the middle. -/
structure Round (cost : Char → Nat) (text : List Char) (budget lo hi : Nat) (next : Nat × Nat) : Prop where
  eq : narrow cost text budget (lo, hi) = some next
  fits : FitsAt cost text budget next.1
  lt : next.1 < next.2
  below : next.2 ≤ hi
  shrinks : next.2 - next.1 < hi - lo
  keeps : ¬ Straddled cost text budget (lo, hi) → (∀ n, FitsAt cost text budget n → n < hi) →
    ∀ n, FitsAt cost text budget n → n < next.2
  drops : Straddled cost text budget (lo, hi) → ∃ n, FitsAt cost text budget n ∧ next.2 ≤ n

theorem exists_round (hlo : FitsAt cost text budget lo) (hopen : 1 < hi - lo) :
    ∃ next, Round cost text budget lo hi next := by
  obtain ⟨hge, hle, hstop, hnone⟩ :=
    floorBoundary_spec text (Nat.le_add_right lo ((hi - lo) / 2))
  by_cases hprobe : floorBoundary text lo (lo + (hi - lo) / 2) = lo
  · -- no character starts up to the middle
    rw [hprobe] at hnone
    have hround : narrow cost text budget (lo, hi) = some (lo, lo + (hi - lo) / 2) := by
      simp only [narrow, if_pos hprobe]
    refine ⟨_, hround, hlo, ?_, ?_, ?_, ?_, ?_⟩
    · show lo < lo + (hi - lo) / 2
      omega
    · show lo + (hi - lo) / 2 ≤ hi
      omega
    · show lo + (hi - lo) / 2 - lo < hi - lo
      omega
    · intro hclear hbound n hn
      show n < lo + (hi - lo) / 2
      by_contra hno
      obtain ⟨before, rest, htext, hbefore, hcost⟩ := hlo
      cases rest with
      | nil =>
          have hend := le_of_isCharBoundary hn.boundary
          rw [htext, List.append_nil] at hend
          omega
      | cons ch after =>
          have hnext := next_boundary htext hn.boundary (by omega)
          have hch : isCharBoundary text (lo + ch.utf8Size) = true :=
            isCharBoundary_iff.mpr ⟨before ++ [ch], after, by rw [htext, List.append_assoc]; rfl,
              by rw [utf8Length_append, hbefore]; rfl⟩
          have hpos := ch.utf8Size_pos
          have hlong : (hi - lo) / 2 < ch.utf8Size := by
            by_contra hshort
            have hnot := hnone (lo + ch.utf8Size) (by omega) (by omega)
            rw [hch] at hnot
            cases hnot
          have hlt := hbound n hn
          obtain ⟨a, b, htext', ha, hfits⟩ := hn.below hch (by omega)
          have hsame : before ++ [ch] = a := by
            have hfront : before ++ [ch] <+: text := ⟨after, by rw [htext, List.append_assoc]; rfl⟩
            have hlength : utf8Length (before ++ [ch]) = utf8Length a := by
              rw [utf8Length_append, hbefore, ha]
              rfl
            have h₁ := prefix_of_utf8Length_le hfront ⟨b, htext'.symm⟩ hlength.le
            have h₂ := prefix_of_utf8Length_le ⟨b, htext'.symm⟩ hfront hlength.ge
            exact h₁.eq_of_length (Nat.le_antisymm h₁.length_le h₂.length_le)
          exact hclear ⟨hopen, before, ch, after, htext, hbefore, hlong, by omega, hsame ▸ hfits⟩
    · rintro ⟨-, before, ch, after, htext, hbefore, hlong, -, hfits⟩
      refine ⟨lo + ch.utf8Size, ⟨before ++ [ch], after, ?_, ?_, hfits⟩, ?_⟩
      · rw [htext, List.append_assoc]
        rfl
      · rw [utf8Length_append, hbefore]
        rfl
      · show lo + (hi - lo) / 2 ≤ lo + ch.utf8Size
        have hlong' : (hi - lo) / 2 < ch.utf8Size := hlong
        omega
  · -- a character starts at the probe, so none straddles the middle
    have hboundary := hstop.resolve_left hprobe
    have hclear : ¬ Straddled cost text budget (lo, hi) := by
      rintro ⟨-, before, ch, after, htext, hbefore, hlong, -, -⟩
      have hlong' : (hi - lo) / 2 < ch.utf8Size := hlong
      have hbefore' : utf8Length before = lo := hbefore
      have hnext := next_boundary htext hboundary (by omega)
      omega
    rcases narrow_probe rfl hprobe hboundary with ⟨hfits, hround⟩ | ⟨hno, hround⟩
    · refine ⟨_, hround, hfits, ?_, Nat.le_refl _, ?_, fun _ hbound => hbound, fun h => absurd h hclear⟩
      · show floorBoundary text lo (lo + (hi - lo) / 2) < hi
        omega
      · show hi - floorBoundary text lo (lo + (hi - lo) / 2) < hi - lo
        omega
    · refine ⟨_, hround, hlo, ?_, ?_, ?_, ?_, fun h => absurd h hclear⟩
      · show lo < floorBoundary text lo (lo + (hi - lo) / 2)
        omega
      · show floorBoundary text lo (lo + (hi - lo) / 2) ≤ hi
        omega
      · show floorBoundary text lo (lo + (hi - lo) / 2) - lo < hi - lo
        omega
      · intro _ _ n hn
        by_contra hge
        exact hno (hn.below hboundary (Nat.le_of_not_lt hge))

/-! ## All rounds -/

/-- Where the search ends, from a window whose lower end fits. -/
theorem searchFrom_spec : ∀ {rounds lo hi : Nat}, FitsAt cost text budget lo → lo < hi → hi - lo ≤ rounds →
    ∃ last, searchFrom cost text budget rounds (lo, hi) = some last ∧ FitsAt cost text budget last ∧ last < hi ∧
      ((∀ w, Relation.ReflTransGen (Narrows cost text budget) (lo, hi) w → ¬ Straddled cost text budget w) →
        (∀ n, FitsAt cost text budget n → n < hi) → ∀ n, FitsAt cost text budget n → n ≤ last) ∧
      ((∃ w, Relation.ReflTransGen (Narrows cost text budget) (lo, hi) w ∧ Straddled cost text budget w) →
        ∃ n, FitsAt cost text budget n ∧ last < n) := by
  intro rounds
  induction rounds with
  | zero =>
      intro lo hi _ hlt hrounds
      omega
  | succ rounds ih =>
      intro lo hi hlo hlt hrounds
      by_cases hopen : 1 < hi - lo
      · obtain ⟨next, hround⟩ := exists_round hlo hopen
        obtain ⟨last, hlast, hfits, hbelow, hexact, hshort⟩ :=
          ih hround.fits hround.lt (by have := hround.shrinks; omega)
        have hnarrows : Narrows cost text budget (lo, hi) next := ⟨hopen, hround.eq⟩
        refine ⟨last, ?_, hfits, Nat.lt_of_lt_of_le hbelow hround.below, ?_, ?_⟩
        · rw [searchFrom, if_pos hopen, hround.eq]
          exact hlast
        · intro hclear hbound
          refine hexact (fun w hw => hclear w (.head hnarrows hw)) ?_
          exact hround.keeps (hclear _ .refl) hbound
        · rintro ⟨w, hw, hstraddled⟩
          rcases hw.cases_head with rfl | ⟨w', hfirst, hrest⟩
          · obtain ⟨n, hn, hge⟩ := hround.drops hstraddled
            exact ⟨n, hn, Nat.lt_of_lt_of_le hbelow hge⟩
          · have hsame : w' = next := Option.some.inj (hfirst.2.symm.trans hround.eq)
            exact hshort ⟨w, hsame ▸ hrest, hstraddled⟩
      · refine ⟨lo, ?_, hlo, hlt, ?_, ?_⟩
        · rw [searchFrom, if_neg hopen]
        · intro _ hbound n hn
          have := hbound n hn
          omega
        · rintro ⟨w, hw, hstraddled⟩
          rcases hw.cases_head with rfl | ⟨w', hfirst, -⟩
          · exact absurd hstraddled.1 hopen
          · exact absurd hfirst.1 hopen

/-- More rounds than it takes change nothing. -/
theorem searchFrom_of_le : ∀ {rounds more : Nat} {window : Nat × Nat} {last : Nat},
    searchFrom cost text budget rounds window = some last → rounds ≤ more →
      searchFrom cost text budget more window = some last := by
  intro rounds
  induction rounds with
  | zero =>
      intro more window last h _
      cases h
  | succ rounds ih =>
      intro more window last h hle
      obtain ⟨more, rfl⟩ : ∃ m, more = m + 1 := ⟨more - 1, by omega⟩
      rw [searchFrom] at h ⊢
      split at h
      · next hopen =>
          rw [if_pos hopen]
          cases hnext : narrow cost text budget window with
          | none =>
              rw [hnext] at h
              cases h
          | some next =>
              rw [hnext, Option.bind_some] at h
              exact ih h (by omega)
      · next hclosed =>
          rw [if_neg hclosed]
          exact h

/-- **The search is exact when no character straddles the middle of a window it comes to.**
It ends on every input, and what it keeps is the longest beginning within the budget
exactly when the text fits whole, or in no window the first character both fits and ends
in the upper half. -/
theorem boundStr_exact_iff (cost : Char → Nat) (text : List Char) (budget : Nat) :
    ∃ kept, (∀ rounds, utf8Length text ≤ rounds → boundStrToEscapedBudget cost text budget rounds = some kept) ∧
      (Exact cost text budget kept ↔ (escapedLen cost text ≤ budget ∨
        ∀ window, Visited cost text budget window → ¬ Straddled cost text budget window)) := by
  by_cases hwhole : escapedLen cost text ≤ budget
  · refine ⟨text, ?_, fun _ => .inl hwhole, fun _ => ⟨List.prefix_rfl, hwhole, fun _ h _ => h.length_le⟩⟩
    intro rounds _
    rw [boundStrToEscapedBudget, if_pos hwhole]
  · have hzero : FitsAt cost text budget 0 := ⟨[], text, rfl, rfl, Nat.zero_le _⟩
    have hbound : ∀ n, FitsAt cost text budget n → n < utf8Length text := by
      intro n hn
      refine Nat.lt_of_le_of_ne (le_of_isCharBoundary hn.boundary) ?_
      rintro rfl
      obtain ⟨a, b, htext, ha, hfits⟩ := hn
      have hall : text <+: a := prefix_of_utf8Length_le List.prefix_rfl ⟨b, htext.symm⟩ ha.ge
      obtain ⟨more, rfl⟩ := hall
      rw [escapedLen_append] at hfits
      omega
    obtain ⟨last, hlast, ⟨kept, rest, htext, hkept, hfits⟩, -, hexact, hshort⟩ :=
      searchFrom_spec hzero (hbound 0 hzero) (Nat.sub_le _ _)
    have hbegins : kept <+: text := ⟨rest, htext.symm⟩
    refine ⟨kept, ?_, ?_, ?_⟩
    · intro rounds hrounds
      rw [boundStrToEscapedBudget, if_neg hwhole, searchFrom_of_le hlast hrounds, Option.bind_some, htext,
        ← hkept, sliceTo_append]
    · intro hbest
      right
      intro w hw hstraddled
      obtain ⟨n, ⟨a, b, ha, hn, hcost⟩, hlt⟩ := hshort ⟨w, hw, hstraddled⟩
      have hlonger : kept <+: a := prefix_of_utf8Length_le hbegins ⟨b, ha.symm⟩ (by omega)
      have hle := hbest.longest a ⟨b, ha.symm⟩ hcost
      have hsame : kept = a := hlonger.eq_of_length (Nat.le_antisymm hlonger.length_le hle)
      rw [hsame] at hkept
      omega
    · rintro (h | hclear)
      · exact absurd h hwhole
      · refine ⟨hbegins, hfits, ?_⟩
        intro longer hlonger hcost
        obtain ⟨tail, htail⟩ := hlonger
        have hle := hexact hclear hbound _ ⟨longer, tail, htail.symm, rfl, hcost⟩
        exact (prefix_of_utf8Length_le ⟨tail, htail⟩ hbegins (by omega)).length_le

/-- The crab fits in the budget of five, and is never tried: from `(1, 6)` on the window
only comes down. -/
theorem straddled_crab_dropped : ¬ ∃ kept, boundStrToEscapedBudget jsonCost "a🦀b".toList 5 6 = some kept ∧
    Exact jsonCost "a🦀b".toList 5 kept := by
  rintro ⟨kept, hkept, hexact⟩
  have ha : boundStrToEscapedBudget jsonCost "a🦀b".toList 5 6 = some ['a'] := by decide
  obtain rfl : ['a'] = kept := Option.some.inj (ha.symm.trans hkept)
  exact absurd (hexact.longest "a🦀".toList (by decide) (by decide)) (by decide)

end Octos.Pipeline
