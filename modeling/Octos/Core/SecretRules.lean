/-
# `Octos.Core.SecretRules` — no rule of the scanner faults, and what a hit looks like

    Safe text o x       the rule `x`, tried at the offset `o`, faults nowhere
    Sound text o hit    a hit that a rule may return there

A rule that may exempt a value relies on the answer to one question only: the empty value
is exempt, so that no hit is empty.  The answers come from the scanner itself, one command
inside a value deeper, and a command is shorter than the value it stands in.
-/
import Octos.Core.SecretSpans

namespace Octos.Redact

open Codec Text Bytes

/-! ## Hits -/

/-- A hit that a rule may return at `offset`. -/
structure Sound (text : List Char) (offset : Nat) (hit : Hit) : Prop where
  after : offset ≤ hit.start
  nonempty : hit.start < hit.stop
  resumes : hit.stop ≤ hit.resume
  opens : isCharBoundary text hit.start = true
  closes : isCharBoundary text hit.stop = true

/-- A rule that faults nowhere and returns sound hits. -/
abbrev Safe (text : List Char) (offset : Nat) (x : Except Fault (Option Hit)) : Prop :=
  Returns x (fun found => ∀ hit, found = some hit → Sound text offset hit)

section Rules

variable {text : List Char} {offset : Nat}

theorem safe_none : Safe text offset (.ok none) :=
  .pure (fun _ h => nomatch h)

theorem safe_hit {start stop resume : Nat} (h : Sound text offset ⟨start, stop, resume⟩) :
    Safe text offset (.ok (some ⟨start, stop, resume⟩)) := by
  refine .pure ?_
  intro hit hhit
  obtain rfl := Option.some.inj hhit
  exact h

/-- What a scanner asks before it lets a value of the text pass. -/
def Answers (text : List Char) (exempt : List Char → Except Fault Bool) : Prop :=
  ∀ value, value.length ≤ text.length → Returns (exempt value) (fun found => value = [] → found = true)

variable {exempt : List Char → Except Fault Bool} {start stop resume : Nat}

/-- The empty value is exempt, so that a hit is not empty. -/
theorem hitUnlessExempt_safe (hexempt : Answers text exempt) (hafter : offset ≤ start) (hle : start ≤ stop)
    (hresume : stop ≤ resume) (hopens : isCharBoundary text start = true)
    (hcloses : isCharBoundary text stop = true) :
    Safe text offset (hitUnlessExempt exempt text start stop resume) := by
  refine (textAt_returns hle hopens hcloses).bind ?_
  rintro value ⟨before, after, htext, -, hlen⟩
  have hshort : value.length ≤ text.length := by
    rw [htext, List.length_append, List.length_append]
    omega
  refine (hexempt value hshort).bind ?_
  intro found hfound
  refine .ite (fun _ => safe_none) (fun hno => safe_hit ⟨hafter, ?_, hresume, hopens, hcloses⟩)
  cases value with
  | nil => exact absurd (hfound rfl) hno
  | cons ch value =>
      have hpos := ch.utf8Size_pos
      rw [utf8Length_cons] at hlen
      show start < stop
      omega

theorem findColon_some {s : List Char} {colon : Nat} (h : findColon s = some colon) :
    ∃ before after, s = before ++ ':' :: after ∧ utf8Length before = colon := by
  rw [findColon] at h
  split at h
  · next hlt =>
      obtain rfl := Option.some.inj h
      have hsplit := List.takeWhile_append_dropWhile (p := (· != ':')) (l := s)
      cases hdrop : s.dropWhile (· != ':') with
      | nil =>
          rw [hdrop, List.append_nil] at hsplit
          rw [hsplit] at hlt
          exact absurd hlt (Nat.lt_irrefl _)
      | cons ch after =>
          have hhead := List.head_dropWhile_not (· != ':') (by rw [hdrop]; exact List.cons_ne_nil _ _)
          simp only [hdrop, List.head_cons, bne_eq_false_iff_eq] at hhead
          obtain rfl := hhead
          exact ⟨s.takeWhile (· != ':'), after, by rw [← hdrop, hsplit], rfl⟩
  · cases h

theorem settle_safe (hexempt : Answers text exempt) (site : Site) (hafter : offset ≤ start) (hle : start ≤ stop)
    (hresume : stop ≤ resume) (hopens : isCharBoundary text start = true)
    (hcloses : isCharBoundary text stop = true) : Safe text offset (settle exempt text site start stop resume) := by
  refine .ite (fun _ => ?_) (fun _ => hitUnlessExempt_safe hexempt hafter hle hresume hopens hcloses)
  refine (textAt_returns hle hopens hcloses).bind ?_
  rintro value ⟨before, after, htext, hbefore, hlen⟩
  cases hcolon : findColon value with
  | none => exact safe_none
  | some colon =>
      obtain ⟨user, password, rfl, rfl⟩ := findColon_some hcolon
      have hsize : (':' : Char).utf8Size = 1 := by decide
      rw [utf8Length_append, utf8Length_cons, hsize] at hlen
      refine hitUnlessExempt_safe hexempt (by omega) (by omega) hresume ?_ hcloses
      refine isCharBoundary_iff.mpr ⟨before ++ user ++ [':'], password ++ after, ?_, ?_⟩
      · rw [htext]
        simp
      · rw [utf8Length_append, utf8Length_append, utf8Length_cons, hsize, hbefore]
        rfl

theorem unquoted_safe (hexempt : Answers text exempt) (site : Site) (hafter : offset ≤ start)
    (hopens : isCharBoundary text start = true) : Safe text offset (unquoted exempt text site start) := by
  refine (scanUnquotedValue_returns _ hopens).bind ?_
  rintro stop ⟨hle, hcloses⟩
  refine (textAt_returns hle hopens hcloses).bind ?_
  intro value _
  refine .ite (fun _ => safe_none) (fun _ => ?_)
  refine .ite (fun _ => safe_none) (fun _ => ?_)
  exact settle_safe hexempt site hafter hle (Nat.le_refl _) hopens hcloses

/-- What is asked of a search: it ends where a quote closes. -/
def Search.Ends {σ : Type} (search : Search σ) : Prop :=
  ∀ bytes memo start quote, Returns (search.find bytes memo start quote)
    (fun r => ∀ close, r.1 = some close → start ≤ close ∧ ClosesAt bytes quote close)

theorem tryKeyValue_safe {σ : Type} {search : Search σ} (hsearch : search.Ends) (hexempt : Answers text exempt)
    (memo : σ) (h : offset < (utf8 text).length) :
    Returns (tryKeyValue search exempt text memo offset) (fun r => ∀ hit, r.1 = some hit → Sound text offset hit) := by
  refine (keySite_returns h).bind ?_
  intro found hfound
  cases found with
  | none => exact .pure (fun hit h => nomatch h)
  | some site =>
      have hsite := hfound site rfl
      have hafter := hsite.after
      cases hquote : quoteAt (utf8 text) site.valueStart with
      | none =>
          simp only [hquote]
          refine (unquoted_safe hexempt site hafter (hsite.seam.imp isAscii_of_isSeam).boundary).bind ?_
          intro hit hhit
          exact .pure hhit
      | some quote =>
          simp only [hquote]
          have hcontent := (quoteAt_behind hquote).boundary
          refine (hsearch _ memo _ quote).bind ?_
          intro r hr
          cases hclose : r.1 with
          | some close =>
              obtain ⟨hle, hcloses⟩ := hr close hclose
              obtain ⟨b, hb, hascii⟩ := hcloses.ascii
              have hin : close ≤ (utf8 text).length := Nat.le_of_lt (List.getElem?_eq_some_iff.mp hb).1
              refine (skipAuthScheme_boundary hle hin hcontent).bind ?_
              rintro start ⟨hge, hstart, hopens⟩
              have hafter' : offset ≤ start := by omega
              refine (settle_safe hexempt site hafter' hstart (Nat.le_add_right _ _) hopens
                (boundary_at hb hascii)).bind ?_
              intro hit hhit
              exact .pure hhit
          | none =>
              refine (skipAuthScheme_boundary (quoteAt_inside hquote) (Nat.le_refl _) hcontent).bind ?_
              rintro start ⟨hge, -, hopens⟩
              have hafter' : offset ≤ start := by omega
              refine (unquoted_safe hexempt site hafter' hopens).bind ?_
              intro hit hhit
              exact .pure hhit

/-! ### Bearer tokens -/

theorem tryBareBearer_safe : Safe text offset (tryBareBearer text offset) := by
  refine .ite (fun _ => safe_none) (fun hlong => ?_)
  have hword : offset + 6 < (utf8 text).length := Nat.lt_of_not_le hlong
  refine (sliceAt_returns (Nat.le_add_right _ _) (Nat.le_of_lt hword)).bind ?_
  intro word _
  refine .ite (fun _ => safe_none) (fun _ => ?_)
  refine (precededBy_returns _ (by omega)).bind ?_
  intro glued _
  refine .ite (fun _ => safe_none) (fun _ => ?_)
  refine (scanWhile_returns isBlank (Nat.le_of_lt hword)).bind ?_
  intro start hstart
  refine .ite (fun _ => safe_none) (fun hblank => ?_)
  have hlt : offset + 6 < start := Nat.lt_of_le_of_ne hstart.le (Ne.symm hblank)
  have hopens := ((hstart.behind hlt).imp isAscii_of_isBlank).boundary
  refine (scanWhile_returns isBearerTokenByte hstart.inside).bind ?_
  intro stop hstop
  have hdot : ∀ b : UInt8, (b == '.'.toUInt8) = true → isAscii b = true := by
    intro b hb
    rw [eq_of_beq hb]
    decide
  have htoken : ∀ b, isBearerTokenByte b = true → isAscii b = true :=
    fun b hb => isAscii_of_token (isAscii_ascii (by simp)) hb
  refine (trimBack_returns hdot hstop.le (hstop.boundary htoken hopens)).bind ?_
  rintro last ⟨hle, hcloses⟩
  refine (textAt_returns hle hopens hcloses).bind ?_
  rintro token ⟨-, -, -, -, hlen⟩
  refine .ite (fun _ => safe_none) (fun hopaque => safe_hit ⟨?_, ?_, Nat.le_refl _, hopens, hcloses⟩)
  · show offset ≤ start
    omega
  · -- a token has eight bytes at least
    show start < last
    rw [Bool.not_eq_true, Bool.or_eq_false_iff] at hopaque
    have hmin : ¬utf8Length token < minBareBearerLen := of_decide_eq_false hopaque.1
    simp only [minBareBearerLen] at hmin
    omega

/-! ### Known tokens -/

/-- A token ends behind `offset`, and behind a byte of ASCII. -/
abbrev Token (bytes : List UInt8) (offset : Nat) (found : Option Nat) : Prop :=
  ∀ stop, found = some stop → offset < stop ∧ Behind bytes isAscii stop

section Tokens

variable {bytes : List UInt8}

theorem no_token : Returns (.ok none : Except Fault (Option Nat)) (Token bytes offset) :=
  .pure (fun _ h => nomatch h)

theorem jwtEnd_returns (h : offset ≤ bytes.length) : Returns (jwtEnd bytes offset) (Token bytes offset) := by
  -- a dot is a byte, so that behind it the text goes on
  have hdot : ∀ {i : Nat}, ¬(bytes[i]? != some '.'.toUInt8) = true → i + 1 ≤ bytes.length := by
    intro i hi
    rw [bne_iff_ne, not_not] at hi
    exact (List.getElem?_eq_some_iff.mp hi).1
  refine (scanWhile_returns isIdentByte h).bind ?_
  intro headerEnd hheader
  refine .ite (fun _ => no_token) (fun hgo => ?_)
  rw [Bool.or_eq_true_iff, not_or] at hgo
  refine (scanWhile_returns isIdentByte (hdot hgo.2)).bind ?_
  intro payloadEnd hpayload
  refine .ite (fun _ => no_token) (fun hgo' => ?_)
  rw [Bool.or_eq_true_iff, not_or] at hgo'
  refine (scanWhile_returns isIdentByte (hdot hgo'.2)).bind ?_
  intro signatureEnd hsignature
  refine .pure ?_
  intro stop hstop
  split at hstop
  · next hlt =>
      obtain rfl := Option.some.inj hstop
      have hle := hheader.le
      have hle' := hpayload.le
      exact ⟨by omega, (hsignature.behind hlt).imp isAscii_of_isIdentByte⟩
  · cases hstop

theorem akiaEnd_returns : Returns (akiaEnd (bytes.drop offset) offset) (Token bytes offset) := by
  refine .ite (fun hlong => ?_) (fun _ => no_token)
  refine (sliceAt_returns (by decide) hlong).bind ?_
  rintro _ rfl
  refine .ite (fun hbody => .pure ?_) (fun _ => no_token)
  intro stop hstop
  obtain rfl := Option.some.inj hstop
  rw [List.length_drop] at hlong
  have hlast : offset + 19 < bytes.length := by omega
  have hmem : bytes[offset + 19] ∈ ((bytes.drop offset).drop 4).take (20 - 4) := by
    refine List.mem_of_getElem? (i := 15) ?_
    rw [List.getElem?_take_of_lt (by decide), List.getElem?_drop, List.getElem?_drop]
    exact List.getElem?_eq_getElem hlast
  have hascii := List.all_eq_true.mp (Bool.and_eq_true_iff.mp hbody).1 _ hmem
  refine ⟨by omega, by omega, bytes[offset + 19], List.getElem?_eq_getElem hlast, ?_⟩
  rcases Bool.or_eq_true_iff.mp hascii with hup | hdigit
  · exact isAscii_of_isUpper hup
  · exact isAscii_of_isDigit hdigit

/-- Behind a prefix of `n` bytes comes a run. -/
theorem runBehind_returns {n least : Nat} {pred : UInt8 → Bool} (hleast : 0 < least)
    (hpred : ∀ b, pred b = true → isAscii b = true) (h : offset + n ≤ bytes.length) :
    Returns (runAtLeast bytes (offset + n) least pred) (Token bytes offset) := by
  refine (runAtLeast_returns hleast hpred h).imp ?_
  intro found hfound stop hstop
  obtain ⟨hlt, hbehind⟩ := hfound stop hstop
  exact ⟨by omega, hbehind⟩

theorem tokenEnd_returns (h : offset ≤ bytes.length) :
    Returns (tokenEnd bytes (bytes.drop offset) offset) (Token bytes offset) := by
  have hlit : ∀ {lit : List UInt8}, lit.isPrefixOf (bytes.drop offset) = true → lit ≠ [] →
      offset + lit.length ≤ bytes.length := fun hpre hne => le_of_isPrefixOf hpre hne
  have hbyte : ∀ {i : Nat} {b : UInt8}, ((bytes.drop offset)[i]? == some b) = true →
      offset + (i + 1) ≤ bytes.length := by
    intro i b hb
    have hget := eq_of_beq hb
    rw [List.getElem?_drop] at hget
    exact (List.getElem?_eq_some_iff.mp hget).1
  refine .ite (fun hpre => ?_) (fun _ => ?_)
  · exact runBehind_returns (by decide) isAscii_of_isIdentByte (hlit hpre (by decide))
  refine .ite (fun _ => akiaEnd_returns) (fun _ => ?_)
  refine .ite (fun hpre => ?_) (fun _ => ?_)
  · exact runBehind_returns (by decide) (fun _ => isAscii_of_isAlphanumeric)
      (hbyte (Bool.and_eq_true_iff.mp hpre).2)
  refine .ite (fun hpre => ?_) (fun _ => ?_)
  · exact runBehind_returns (by decide) (fun _ hb => isAscii_of_token (isAscii_ascii (by simp)) hb)
      (hlit hpre (by decide))
  refine .ite (fun hpre => ?_) (fun _ => ?_)
  · exact runBehind_returns (by decide) (fun _ hb => isAscii_of_token (isAscii_ascii (by simp)) hb)
      (hbyte (Bool.and_eq_true_iff.mp hpre).2)
  refine .ite (fun hpre => ?_) (fun _ => ?_)
  · exact runBehind_returns (by decide) isAscii_of_isIdentByte (hlit hpre (by decide))
  refine .ite (fun hpre => ?_) (fun _ => ?_)
  · exact runBehind_returns (by decide) isAscii_of_isIdentByte (hlit hpre (by decide))
  exact .ite (fun _ => jwtEnd_returns h) (fun _ => no_token)

end Tokens

theorem tryKnownToken_safe (h : offset ≤ (utf8 text).length) (hopens : isCharBoundary text offset = true) :
    Safe text offset (tryKnownToken (utf8 text) offset) := by
  refine (precededBy_returns _ h).bind ?_
  intro glued _
  refine .ite (fun _ => safe_none) (fun _ => ?_)
  refine (suffixAt_returns h).bind ?_
  rintro _ rfl
  refine (tokenEnd_returns h).bind ?_
  intro found hfound
  cases found with
  | none => exact safe_none
  | some stop =>
      obtain ⟨hlt, hbehind⟩ := hfound stop rfl
      exact safe_hit ⟨Nat.le_refl _, hlt, Nat.le_refl _, hopens, hbehind.boundary⟩

/-! ### Passwords in URLs -/

/-- The cursor and the first colon, which is a byte between the start and the cursor. -/
structure Userinfo (bytes : List UInt8) (start : Nat) (s : Nat × Option Nat) : Prop where
  after : start ≤ s.1
  colon : ∀ c, s.2 = some c → start ≤ c ∧ c < s.1 ∧ bytes[c]? = some ':'.toUInt8

/-- What the loop hands on: it stopped at an `@`, or at the limit. -/
def AtSign (bytes : List UInt8) (limit start : Nat) (found : Option (Nat × Option Nat)) : Prop :=
  ∀ s, found = some s → Userinfo bytes start s ∧ (s.1 < limit → bytes[s.1]? = some '@'.toUInt8)

theorem userinfoStep_returns {bytes : List UInt8} {limit start : Nat} {s : Nat × Option Nat}
    (hlimit : limit ≤ bytes.length) (hs : Userinfo bytes start s) :
    Returns (userinfoStep bytes limit s)
      (Step (Userinfo bytes start) (fun s => bytes.length - s.1) (AtSign bytes limit start) s) := by
  refine .ite (fun hlt => ?_) (fun hend => .pure ?_)
  · have hin : s.1 < bytes.length := Nat.lt_of_lt_of_le hlt hlimit
    have hdown : bytes.length - (s.1 + 1) < bytes.length - s.1 := Nat.sub_succ_lt_self _ _ hin
    refine (nth_returns hin).bind ?_
    intro b hb
    refine .ite (fun hat => .pure ?_) (fun _ => ?_)
    · intro s' hs'
      obtain rfl := Option.some.inj hs'
      rw [eq_of_beq hat] at hb
      exact ⟨hs, fun _ => hb⟩
    refine .ite (fun hcolon => .pure ⟨⟨Nat.le_succ_of_le hs.after, ?_⟩, hdown⟩) (fun _ => ?_)
    · intro c hc
      rw [eq_of_beq hcolon] at hb
      cases hfirst : s.2 with
      | none =>
          simp only [hfirst] at hc
          obtain rfl := Option.some.inj hc
          exact ⟨hs.after, Nat.lt_succ_self _, hb⟩
      | some first =>
          simp only [hfirst] at hc
          obtain rfl := Option.some.inj hc
          obtain ⟨hge, hbefore, hget⟩ := hs.colon _ hfirst
          exact ⟨hge, Nat.lt_succ_of_lt hbefore, hget⟩
    refine .ite (fun _ => .pure (fun _ h => nomatch h)) (fun _ => .pure ⟨⟨Nat.le_succ_of_le hs.after, ?_⟩, hdown⟩)
    intro c hc
    obtain ⟨hge, hbefore, hget⟩ := hs.colon c hc
    exact ⟨hge, Nat.lt_succ_of_lt hbefore, hget⟩
  · intro s' hs'
    obtain rfl := Option.some.inj hs'
    exact ⟨hs, fun hlt => absurd hlt hend⟩

theorem tryUrlUserinfo_safe (hexempt : Answers text exempt) (h : offset ≤ (utf8 text).length) :
    Safe text offset (tryUrlUserinfo exempt text offset) := by
  refine (suffixAt_returns h).bind ?_
  rintro _ rfl
  refine .ite (fun _ => safe_none) (fun _ => ?_)
  have hstart : Userinfo (utf8 text) (offset + 3) (offset + 3, none) :=
    ⟨Nat.le_refl _, fun _ h => nomatch h⟩
  refine (loop_returns (fun s hs => userinfoStep_returns (Nat.min_le_left _ _) hs) hstart
    (Nat.lt_succ_of_le (Nat.sub_le _ _))).bind ?_
  intro found hfound
  cases found with
  | none => exact safe_none
  | some s =>
      obtain ⟨cursor, colon⟩ := s
      refine .ite (fun _ => safe_none) (fun hlt => ?_)
      cases colon with
      | none => exact safe_none
      | some colon =>
          obtain ⟨hinfo, hat⟩ := hfound _ rfl
          obtain ⟨hge, hbefore, hcolon⟩ := hinfo.colon colon rfl
          have hbehind : Behind (utf8 text) isAscii (colon + 1) := ⟨Nat.succ_pos _, _, hcolon, by decide⟩
          have hafter : offset ≤ colon + 1 := by omega
          exact hitUnlessExempt_safe hexempt hafter hbefore (Nat.le_refl _) hbehind.boundary
            (boundary_at (hat (Nat.lt_of_not_le hlt)) (by decide))

/-! ### Private keys -/

theorem findSubslice_some {needle : List UInt8} : ∀ {bytes : List UInt8} {i : Nat},
    findSubslice needle bytes = some i → needle.isPrefixOf (bytes.drop i) = true := by
  intro bytes
  induction bytes with
  | nil =>
      intro i h
      cases h
  | cons b bytes ih =>
      intro i h
      rw [findSubslice] at h
      split at h
      · next hpre =>
          obtain rfl := Option.some.inj h
          exact hpre
      · rw [Option.map_eq_some_iff] at h
        obtain ⟨i, hi, rfl⟩ := h
        exact ih hi

theorem pemMarkerEnd_returns {marker : List UInt8} (hne : marker ≠ []) (hascii : ∀ b ∈ marker, isAscii b = true)
    (h : offset ≤ (utf8 text).length) : Returns (pemMarkerEnd text offset marker)
      (fun found => ∀ stop, found = some stop →
        offset < stop ∧ stop ≤ (utf8 text).length ∧ isCharBoundary text stop = true) := by
  refine (suffixAt_returns h).bind ?_
  rintro _ rfl
  refine .ite (fun _ => .pure (fun _ h => nomatch h)) (fun hpre => ?_)
  have hmarker : marker.isPrefixOf ((utf8 text).drop offset) = true := by simpa using hpre
  have hlabel : ∀ b : UInt8, (isUpper b || b == ' '.toUInt8) = true → isAscii b = true := by
    intro b hb
    rcases Bool.or_eq_true_iff.mp hb with hb | hb
    · exact isAscii_of_isUpper hb
    · rw [eq_of_beq hb]
      decide
  have hopens := (behind_literal hmarker hne hascii).boundary
  refine (scanWhile_returns _ (le_of_isPrefixOf hmarker hne)).bind ?_
  intro labelEnd hend
  refine (textAt_returns hend.le hopens (hend.boundary hlabel hopens)).bind ?_
  intro label _
  refine (suffixAt_returns hend.inside).bind ?_
  rintro _ rfl
  refine .ite (fun hdashes => .pure ?_) (fun _ => .pure (fun _ h => nomatch h))
  intro stop hstop
  obtain rfl := Option.some.inj hstop
  have hfive := (Bool.and_eq_true_iff.mp hdashes).2
  have hlen : (ascii "-----").length = 5 := rfl
  have hin := le_of_isPrefixOf hfive (by decide)
  have hclose := behind_literal hfive (by decide) (isAscii_ascii (by simp))
  rw [hlen] at hin hclose
  have hle := hend.le
  exact ⟨by omega, hin, hclose.boundary⟩

/-- The footer is looked for behind the header, and each time further on. -/
theorem footerStep_returns {headerEnd search : Nat}
    (h : headerEnd ≤ search ∧ search ≤ (utf8 text).length) :
    Returns (footerStep text search)
      (Step (fun s => headerEnd ≤ s ∧ s ≤ (utf8 text).length) (fun s => (utf8 text).length - s)
        (fun found => ∀ stop, found = some stop → headerEnd < stop ∧ isCharBoundary text stop = true) search) := by
  refine (suffixAt_returns h.2).bind ?_
  rintro _ rfl
  cases hfind : findSubslice (ascii "-----END ") ((utf8 text).drop search) with
  | none => exact .pure (fun _ h => nomatch h)
  | some found =>
      have hpre := findSubslice_some hfind
      rw [List.drop_drop] at hpre
      have hin := le_of_isPrefixOf hpre (by decide)
      have hlen : (ascii "-----END ").length = 9 := rfl
      rw [hlen] at hin
      have hfooter : search + found ≤ (utf8 text).length := by omega
      refine (pemMarkerEnd_returns (by decide) (isAscii_ascii (by simp)) hfooter).bind ?_
      intro footerEnd hend
      cases footerEnd with
      | some stop =>
          refine .pure ?_
          intro stop' hstop
          obtain rfl := Option.some.inj hstop
          obtain ⟨hlt, -, hbound⟩ := hend stop rfl
          exact ⟨by omega, hbound⟩
      | none =>
          refine .pure ⟨⟨by omega, by omega⟩, ?_⟩
          show (utf8 text).length - (search + found + 1) < (utf8 text).length - search
          omega

theorem tryPemBlock_safe (h : offset < (utf8 text).length) (hopens : isCharBoundary text offset = true) :
    Safe text offset (tryPemBlock text offset) := by
  refine (pemMarkerEnd_returns (by decide) (isAscii_ascii (by simp)) (Nat.le_of_lt h)).bind ?_
  intro header hheader
  cases header with
  | none => exact safe_none
  | some headerEnd =>
      obtain ⟨hlt, hin, -⟩ := hheader headerEnd rfl
      refine (loop_returns (fun s hs => footerStep_returns hs) ⟨Nat.le_refl _, hin⟩
        (Nat.lt_succ_of_le (Nat.sub_le _ _))).bind ?_
      intro found hfound
      cases found with
      | none => exact safe_hit ⟨Nat.le_refl _, h, Nat.le_refl _, hopens, boundary_end text⟩
      | some stop =>
          obtain ⟨hgt, hbound⟩ := hfound stop rfl
          exact safe_hit ⟨Nat.le_refl _, Nat.lt_trans hlt hgt, Nat.le_refl _, hopens, hbound⟩

/-! ## The scan -/

theorem dispatch_safe {b : UInt8} (hexempt : Answers text exempt) (hb : (utf8 text)[offset]? = some b) :
    Safe text offset (dispatch exempt text offset b) := by
  have hlt : offset < (utf8 text).length := (List.getElem?_eq_some_iff.mp hb).1
  refine .ite (fun hdash => ?_) (fun _ => ?_)
  · refine tryPemBlock_safe hlt (boundary_at hb ?_)
    rw [eq_of_beq hdash]
    decide
  refine .ite (fun hletter => ?_) (fun _ => ?_)
  · exact tryKnownToken_safe (Nat.le_of_lt hlt) (boundary_at hb (isAscii_of_oneOf (isAscii_ascii (by simp)) hletter))
  exact .ite (fun _ => tryUrlUserinfo_safe hexempt (Nat.le_of_lt hlt)) (fun _ => safe_none)

section Search

variable {σ : Type} {search : Search σ}

/-- **Every rule at every offset**, whatever the scanner remembers. -/
theorem tryAt_safe (hsearch : search.Ends) (hexempt : Answers text exempt) (memo : σ)
    (h : offset < (utf8 text).length) :
    Returns (tryAt search exempt text memo offset) (fun r => ∀ hit, r.1 = some hit → Sound text offset hit) := by
  refine (nth_returns h).bind ?_
  intro b hb
  refine (dispatch_safe hexempt hb).bind ?_
  intro dispatched hdispatched
  cases dispatched with
  | some hit => exact .pure hdispatched
  | none =>
      refine (tryKeyValue_safe hsearch hexempt memo h).bind ?_
      intro r hr
      cases hhit : r.1 with
      | some hit => exact .pure (fun hit' heq => hr hit' (hhit.trans heq))
      | none => exact tryBareBearer_safe.bind (fun _ hbearer => .pure hbearer)

theorem nextHit_safe (hsearch : search.Ends) (hexempt : Answers text exempt) (memo : σ) (position : Nat) :
    Returns (nextHit search exempt text memo position)
      (fun r => ∀ hit, r.1 = some hit → Sound text position hit) := by
  refine @loop_returns _ _ _ _ _ (fun s => position ≤ s.1) (fun s => (utf8 text).length - s.1) _ ?_ _ _
    (Nat.le_refl position) (Nat.lt_succ_of_le (Nat.sub_le _ _))
  rintro ⟨offset, memo⟩ hge
  refine .ite (fun hlt => ?_) (fun _ => .pure (fun _ h => nomatch h))
  refine (tryAt_safe hsearch hexempt memo hlt).bind ?_
  intro r hr
  cases hhit : r.1 with
  | none => exact .pure ⟨Nat.le_succ_of_le hge, Nat.sub_succ_lt_self _ _ hlt⟩
  | some hit =>
      refine .pure ?_
      intro hit' heq
      have hsound := hr hit' (hhit.trans heq)
      exact ⟨hge.trans hsound.after, hsound.nonempty, hsound.resumes, hsound.opens, hsound.closes⟩

/-- The search inside the values gets an answer, if it may go deep enough. -/
theorem secretWithin_returns (hsearch : search.Ends) : ∀ {depth : Nat} {text : List Char},
    text.length < depth → Returns (secretWithin search depth text) (fun _ => True) := by
  intro depth
  induction depth with
  | zero =>
      intro text h
      exact absurd h (Nat.not_lt_zero _)
  | succ depth ih =>
      intro text h
      have hexempt : Answers text (isExemptSecretValue (secretWithin search depth)) := by
        intro value hvalue
        refine isExemptSecretValue_returns ?_
        intro inner hinner
        exact ih (by omega)
      exact (nextHit_safe hsearch hexempt search.fresh 0).bind (fun _ _ => .pure trivial)

theorem exemptIn_answers (hsearch : search.Ends) (text : List Char) : Answers text (exemptIn search text) := by
  intro value hvalue
  refine isExemptSecretValue_returns ?_
  intro inner hinner
  exact secretWithin_returns hsearch (Nat.lt_of_lt_of_le hinner hvalue)

/-- What the loop has done so far. -/
structure Run (text : List Char) (s : Progress σ) : Prop where
  sound : ∀ hit ∈ s.hits, hit.start < hit.stop ∧ isCharBoundary text hit.start = true ∧
    isCharBoundary text hit.stop = true
  apart : s.hits.Pairwise (fun hit later => hit.stop ≤ later.start)
  rising : (0 :: s.hits.map Hit.next).Pairwise (· < ·)
  reached : ∀ hit ∈ s.hits, hit.next ≤ s.position
  copied : s.copiedTo ≤ s.position ∧ isCharBoundary text s.copiedTo = true

theorem Run.push {s : Progress σ} {hit : Hit} (h : Run text s) (hhit : Sound text s.position hit)
    (memo : σ) (output : List Char) :
    Run text ⟨memo, output, hit.stop, hit.next, s.hits ++ [hit]⟩ := by
  have hnext : s.position < hit.next :=
    Nat.lt_of_lt_of_le (Nat.lt_of_le_of_lt hhit.after hhit.nonempty) (Nat.le_max_right _ _)
  refine ⟨?_, ?_, ?_, ?_, ⟨Nat.le_max_right _ _, hhit.closes⟩⟩
  · intro other hmem
    rcases List.mem_append.mp hmem with hmem | hmem
    · exact h.sound other hmem
    · obtain rfl := List.mem_singleton.mp hmem
      exact ⟨hhit.nonempty, hhit.opens, hhit.closes⟩
  · refine List.pairwise_append.mpr ⟨h.apart, List.pairwise_singleton _ _, ?_⟩
    intro other hmem last hlast
    obtain rfl := List.mem_singleton.mp hlast
    exact ((Nat.le_max_right _ _).trans (h.reached other hmem)).trans hhit.after
  · rw [List.map_append, List.map_singleton, ← List.cons_append]
    refine List.pairwise_append.mpr ⟨h.rising, List.pairwise_singleton _ _, ?_⟩
    intro position hmem last hlast
    obtain rfl := List.mem_singleton.mp hlast
    rcases List.mem_cons.mp hmem with rfl | hmem
    · exact Nat.lt_of_le_of_lt (Nat.zero_le _) hnext
    · obtain ⟨other, hother, rfl⟩ := List.mem_map.mp hmem
      exact Nat.lt_of_le_of_lt (h.reached other hother) hnext
  · intro other hmem
    rcases List.mem_append.mp hmem with hmem | hmem
    · exact (h.reached other hmem).trans (Nat.le_of_lt hnext)
    · obtain rfl := List.mem_singleton.mp hmem
      exact Nat.le_refl _

theorem redactStep_returns (hsearch : search.Ends) {s : Progress σ} (h : Run text s) :
    Returns (redactStep search text s)
      (Step (Run text) (fun s => (utf8 text).length + 1 - s.position) (Run text) s) := by
  refine (nextHit_safe hsearch (exemptIn_answers hsearch text) s.memo s.position).bind ?_
  intro r hr
  cases hhit : r.1 with
  | none => exact .pure ⟨h.sound, h.apart, h.rising, h.reached, h.copied⟩
  | some hit =>
      have hsound := hr hit hhit
      refine (textAt_returns (h.copied.1.trans hsound.after) h.copied.2 hsound.opens).bind ?_
      intro kept _
      refine .pure ⟨h.push hsound _ _, ?_⟩
      have hin : hit.stop ≤ (utf8 text).length := by
        rw [length_utf8]
        exact le_of_isCharBoundary hsound.closes
      have hafter := hsound.after
      have hlt := hsound.nonempty
      have hnext : hit.stop ≤ hit.next := Nat.le_max_right _ _
      show (utf8 text).length + 1 - hit.next < (utf8 text).length + 1 - s.position
      omega

/-- **The loop** ends, and no hit of it is out of order. -/
theorem redactLoop_returns (hsearch : search.Ends) (text : List Char) :
    Returns (redactLoop search text) (Run text) := by
  have hstart : Run text (⟨search.fresh, [], 0, 0, []⟩ : Progress σ) :=
    ⟨fun _ h => (nomatch h), List.Pairwise.nil, List.pairwise_singleton _ _, fun _ h => (nomatch h),
      ⟨Nat.le_refl _, isCharBoundary_zero text⟩⟩
  exact loop_returns (fun s hs => redactStep_returns hsearch hs) hstart (Nat.lt_succ_self _)

theorem redactSecretsInText_returns (hsearch : search.Ends) (text : List Char) :
    Returns (redactSecretsInText search text) (fun _ => True) := by
  refine (redactLoop_returns hsearch text).bind ?_
  intro last hlast
  have hin : last.copiedTo ≤ (utf8 text).length := by
    rw [length_utf8]
    exact le_of_isCharBoundary hlast.copied.2
  exact (textAt_returns hin hlast.copied.2 (boundary_end text)).bind (fun _ _ => .pure trivial)

end Search

end Rules

end Octos.Redact
