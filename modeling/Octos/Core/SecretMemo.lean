/-
# `Octos.Core.SecretMemo` — the memory of the scanner changes nothing

A search that fails is remembered by its start, and a later search for the same quote is
not made if it begins there or behind.  For an escaped quote that is plain: whether it
closes at an offset depends on the two bytes around it only.  For the other quotes it
depends on where the search began, since a backslash takes the next byte with it:

    token='abc\'        from the first `'` on there is no end: the last one is escaped
              '         a search from here on would end at once

Yet such a search is never made.  In front of it stands the quote it is to close, which the
failed search has passed, so behind a backslash; and a value is never behind a backslash.
-/
import Octos.Core.SecretRules

namespace Octos.Redact

open Codec Text Bytes

variable {bytes : List UInt8} {text : List Char} {memo : Memo} {start offset : Nat} {quote : Quote}

/-! ## The search -/

/-- What the scanner remembers has been seen. -/
def Honest (bytes : List UInt8) (memo : Memo) : Prop :=
  ∀ q unclosed, memo q = some unclosed → searchClosing bytes unclosed q = .ok none

/-- Where the scanner searches: behind the quote of a value. -/
def Opened (bytes : List UInt8) (quote : Quote) (start : Nat) : Prop :=
  ∃ valueStart, start = valueStart + quote.len ∧ quoteAt bytes valueStart = some quote ∧
    Behind bytes isSeam valueStart

/-- Behind an earlier failure no quote of one character opens a value. -/
theorem not_opened {unclosed valueStart : Nat} (hfail : Escaped bytes (closingByte quote) unclosed bytes.length)
    (hlt : unclosed ≤ valueStart) (hquote : bytes[valueStart]? = some (closingByte quote))
    (hseam : Behind bytes isSeam valueStart) : False := by
  have hin := (List.getElem?_eq_some_iff.mp hquote).1
  obtain ⟨-, hslash⟩ := hfail valueStart hlt hin hquote
  obtain ⟨-, b, hb, hb'⟩ := hseam
  rw [hslash] at hb
  obtain rfl := Option.some.inj hb
  have hno : isSeam backslash = false := by simp [isSeam, oneOf, ascii, backslash]; decide
  rw [hno] at hb'
  cases hb'

/-- **What is remembered is so**: the search that is not made would fail. -/
theorem search_fails (hhonest : Honest bytes memo) (hopened : Opened bytes quote start) {unclosed : Nat}
    (hmemo : memo quote = some unclosed) (hle : unclosed ≤ start) : searchClosing bytes start quote = .ok none := by
  have hnone := hhonest quote unclosed hmemo
  have hseen := (searchClosing_returns bytes quote unclosed).of_ok hnone
  obtain ⟨valueStart, rfl, hquote, hseam⟩ := hopened
  have hlast := quoteAt_last hquote
  rcases Nat.lt_or_eq_of_le hle with hlt | rfl
  · cases quote with
    | double => exact (not_opened hseen (Nat.le_of_lt_succ hlt) hlast hseam).elim
    | single => exact (not_opened hseen (Nat.le_of_lt_succ hlt) hlast hseam).elim
    | escapedDouble =>
        obtain ⟨found, hfound, hsearched⟩ := searchClosing_returns bytes .escapedDouble
          (valueStart + Quote.escapedDouble.len)
        cases found with
        | none => exact hfound
        | some close =>
            have hin := (List.getElem?_eq_some_iff.mp hsearched.2.1).1
            exact absurd hsearched.2 (hseen close (hle.trans hsearched.1) hin)
  · exact hnone

theorem Honest.lower (h : Honest bytes memo) (hfail : searchClosing bytes start quote = .ok none) :
    Honest bytes (memo.lower quote start) := by
  intro q unclosed hmemo
  simp only [Memo.lower] at hmemo
  split at hmemo
  · next hq =>
      subst hq
      obtain rfl := Option.some.inj hmemo
      cases hold : memo q with
      | none => exact hfail
      | some earlier =>
          show searchClosing bytes (min start earlier) q = .ok none
          rcases Nat.le_total start earlier with hle | hle
          · rw [Nat.min_eq_left hle]
            exact hfail
          · rw [Nat.min_eq_right hle]
            exact h q earlier hold
  · exact h q unclosed hmemo

/-- The same result, and a memory that is still right. -/
def Recalls {α : Type} (bytes : List UInt8) (r : α × Memo) (r' : α × Unit) : Prop :=
  r.1 = r'.1 ∧ Honest bytes r.2

theorem findClosingQuote_twin (hhonest : Honest bytes memo) (hopened : Opened bytes quote start) :
    Twin (Recalls bytes) (memoized.find bytes memo start quote) (unmemoized.find bytes () start quote) := by
  show Twin (Recalls bytes) (findClosingQuote bytes memo start quote) _
  rw [findClosingQuote]
  split
  · next hmemo =>
      obtain ⟨unclosed, hsome, hle⟩ := (Option.any_eq_true _ _).mp hmemo
      have hfail := search_fails hhonest hopened hsome (of_decide_eq_true hle)
      show Twin (Recalls bytes) _ (searchClosing bytes start quote >>= fun found => .ok (found, ()))
      rw [hfail]
      exact .ok ⟨rfl, hhonest⟩
  · refine Twin.after ?_
    intro found hfound
    refine .ok ⟨rfl, ?_⟩
    cases found with
    | none => exact hhonest.lower hfound
    | some close => exact hhonest

/-! ## The scan -/

section Twins

variable (exempt : List Char → Except Fault Bool)

theorem tryKeyValue_twin (hhonest : Honest (utf8 text) memo) (h : offset < (utf8 text).length) :
    Twin (Recalls (utf8 text)) (tryKeyValue memoized exempt text memo offset)
      (tryKeyValue unmemoized exempt text () offset) := by
  refine Twin.after ?_
  intro found hfound
  cases found with
  | none => exact .ok ⟨rfl, hhonest⟩
  | some site =>
      have hsite := (keySite_returns h).of_ok hfound site rfl
      cases hquote : quoteAt (utf8 text) site.valueStart with
      | none =>
          simp only [hquote]
          exact Twin.after (fun _ _ => .ok ⟨rfl, hhonest⟩)
      | some quote =>
          simp only [hquote]
          refine (findClosingQuote_twin hhonest ⟨site.valueStart, rfl, hquote, hsite.seam⟩).bind ?_
          rintro ⟨found, memo'⟩ ⟨_, ⟨⟩⟩ ⟨rfl, hhonest'⟩
          cases found with
          | some close => exact Twin.after (fun _ _ => Twin.after (fun _ _ => .ok ⟨rfl, hhonest'⟩))
          | none => exact Twin.after (fun _ _ => Twin.after (fun _ _ => .ok ⟨rfl, hhonest'⟩))

theorem tryAt_twin (hhonest : Honest (utf8 text) memo) (h : offset < (utf8 text).length) :
    Twin (Recalls (utf8 text)) (tryAt memoized exempt text memo offset) (tryAt unmemoized exempt text () offset) := by
  refine Twin.after (fun b _ => Twin.after ?_)
  intro dispatched _
  cases dispatched with
  | some hit => exact .ok ⟨rfl, hhonest⟩
  | none =>
      refine (tryKeyValue_twin exempt hhonest h).bind ?_
      rintro ⟨found, memo'⟩ ⟨_, ⟨⟩⟩ ⟨rfl, hhonest'⟩
      cases found with
      | some hit => exact .ok ⟨rfl, hhonest'⟩
      | none => exact Twin.after (fun _ _ => .ok ⟨rfl, hhonest'⟩)

theorem nextHit_twin (hhonest : Honest (utf8 text) memo) (position : Nat) :
    Twin (Recalls (utf8 text)) (nextHit memoized exempt text memo position)
      (nextHit unmemoized exempt text () position) := by
  refine loop_twin (R := fun s t => s.1 = t.1 ∧ Honest (utf8 text) s.2) ?_ ⟨rfl, hhonest⟩
  rintro ⟨offset, memo⟩ ⟨_, ⟨⟩⟩ ⟨rfl, hhonest⟩
  by_cases hlt : offset < (utf8 text).length
  · simp only [nextStep, if_pos hlt]
    refine (tryAt_twin exempt hhonest hlt).bind ?_
    rintro ⟨found, memo'⟩ ⟨_, ⟨⟩⟩ ⟨rfl, hhonest'⟩
    cases found with
    | some hit => exact .ok ⟨rfl, hhonest'⟩
    | none => exact .ok ⟨rfl, hhonest'⟩
  · simp only [nextStep, if_neg hlt]
    exact .ok ⟨rfl, hhonest⟩

end Twins

theorem honest_fresh (bytes : List UInt8) : Honest bytes memoized.fresh :=
  fun _ _ h => (nomatch h)

/-- Inside the values nothing changes either. -/
theorem secretWithin_twin : ∀ (depth : Nat), secretWithin memoized depth = secretWithin unmemoized depth := by
  intro depth
  induction depth with
  | zero => rfl
  | succ depth ih =>
      funext text
      have htwin : Twin (· = ·) (secretWithin memoized (depth + 1) text)
          (secretWithin unmemoized (depth + 1) text) := by
        simp only [secretWithin, ih]
        refine (nextHit_twin _ (honest_fresh _) 0).bind ?_
        rintro ⟨found, memo⟩ ⟨_, ⟨⟩⟩ ⟨rfl, -⟩
        exact .ok rfl
      exact htwin.eq

theorem exemptIn_twin (text : List Char) : exemptIn memoized text = exemptIn unmemoized text := by
  rw [exemptIn, exemptIn, secretWithin_twin]

/-- The same work, and a memory that is still right. -/
structure Mirrors (text : List Char) (s : Progress Memo) (t : Progress Unit) : Prop where
  output : s.output = t.output
  copiedTo : s.copiedTo = t.copiedTo
  position : s.position = t.position
  hits : s.hits = t.hits
  honest : Honest (utf8 text) s.memo

theorem redactStep_twin {s : Progress Memo} {t : Progress Unit} (h : Mirrors text s t) :
    Twin (Abreast (Mirrors text) (Mirrors text)) (redactStep memoized text s) (redactStep unmemoized text t) := by
  simp only [redactStep, exemptIn_twin, h.position, h.copiedTo]
  refine (nextHit_twin _ h.honest t.position).bind ?_
  rintro ⟨found, memo⟩ ⟨_, ⟨⟩⟩ ⟨rfl, hhonest⟩
  cases found with
  | none => exact .ok ⟨h.output, rfl, rfl, h.hits, hhonest⟩
  | some hit =>
      refine Twin.after (fun kept _ => .ok ⟨?_, rfl, rfl, ?_, hhonest⟩)
      · exact congrArg (· ++ kept ++ redactedPlaceholder) h.output
      · exact congrArg (· ++ [hit]) h.hits

theorem redactLoop_twin (text : List Char) :
    Twin (Mirrors text) (redactLoop memoized text) (redactLoop unmemoized text) :=
  loop_twin (fun _ _ h => redactStep_twin h) ⟨rfl, rfl, rfl, rfl, honest_fresh _⟩

theorem redactSecretsInText_twin (text : List Char) :
    redactSecretsInText memoized text = redactSecretsInText unmemoized text := by
  refine Twin.eq ((redactLoop_twin text).bind ?_)
  intro s t h
  rw [h.copiedTo, h.output]
  exact Twin.refl _

/-! ## The scanner -/

theorem memoized_ends : memoized.Ends := by
  intro bytes memo start quote
  refine .ite (fun _ => .pure (fun _ h => nomatch h)) (fun _ => ?_)
  refine (searchClosing_returns bytes quote start).bind ?_
  intro found hfound
  refine .pure ?_
  rintro close rfl
  exact hfound

/-- **The scanner** faults at no offset, goes forward from hit to hit, and finds with its
memory what it would find without: its hits are not empty, begin and end between two
characters and follow one another, and so do the offsets at which it goes on. -/
theorem scanner_safe (text : List Char) :
    (∃ hits, successiveHits memoized text = .ok hits ∧ successiveHits unmemoized text = .ok hits ∧
      (∀ hit ∈ hits, hit.start < hit.stop ∧ isCharBoundary text hit.start = true ∧
        isCharBoundary text hit.stop = true) ∧
      hits.Pairwise (fun hit later => hit.stop ≤ later.start) ∧
      (0 :: hits.map Hit.next).Pairwise (· < ·)) ∧
    (∀ memo offset, offset < (utf8 text).length →
      ∃ found, tryAt memoized (exemptIn memoized text) text memo offset = .ok found) ∧
    (∃ redacted, redactSecretsInText memoized text = .ok redacted ∧
      redactSecretsInText unmemoized text = .ok redacted) ∧
    ∃ found, containsSecret memoized text = .ok found ∧ containsSecret unmemoized text = .ok found := by
  refine ⟨?_, ?_, ?_, ?_⟩
  · obtain ⟨s, hs, hrun⟩ := redactLoop_returns memoized_ends text
    have htwin := redactLoop_twin text
    rw [hs] at htwin
    obtain ⟨t, ht, hmirror⟩ := htwin.ok_left
    refine ⟨s.hits, ?_, ?_, hrun.sound, hrun.apart, hrun.rising⟩
    · rw [successiveHits, hs]
      rfl
    · rw [successiveHits, ht, hmirror.hits]
      rfl
  · intro memo offset h
    obtain ⟨found, hfound, -⟩ := tryAt_safe memoized_ends (exemptIn_answers memoized_ends text) memo h
    exact ⟨found, hfound⟩
  · obtain ⟨redacted, hredacted, -⟩ := redactSecretsInText_returns memoized_ends text
    exact ⟨redacted, hredacted, redactSecretsInText_twin text ▸ hredacted⟩
  · obtain ⟨found, hfound, -⟩ := secretWithin_returns memoized_ends (Nat.lt_succ_self text.length)
    refine ⟨found, hfound, ?_⟩
    rw [containsSecret, ← secretWithin_twin]
    exact hfound

end Octos.Redact
