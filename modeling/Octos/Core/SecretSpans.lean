/-
# `Octos.Core.SecretSpans` — where the scanner stops

A step of the scanner is safe when each of its indices is inside the bytes and each of its
cuts is at a boundary.  All of that holds for one reason: the scanner moves only over bytes
of ASCII, or up to the next one, so where it stops there is a boundary, whatever stands in
the text between.  The one step that may land inside a character is the one that skips
what a backslash escapes; the search for the closing quote goes on from there, but it
never ends there.

    Behind p i        the byte before `i` has the property `p`
    Searched q i      what a search for the quote `q` from `i` on returns
    Reached o site    where the value of a key found at `o` begins
-/
import Octos.Core.SecretScan

namespace Octos.Redact

open Codec Text Bytes

/-! ## ASCII -/

theorem isAscii_ascii {s : String} (h : ∀ ch ∈ s.toList, ch.toNat < 128) : ∀ b ∈ ascii s, isAscii b = true := by
  intro b hb
  obtain ⟨ch, hch, rfl⟩ := List.mem_map.mp hb
  exact decide_eq_true (Nat.lt_of_le_of_lt (Nat.mod_le _ _) (h ch hch))

/-- A set of bytes with more characters has more bytes. -/
theorem oneOf_mono {s t : String} {b : UInt8} (hst : ∀ ch ∈ s.toList, ch ∈ t.toList) (h : oneOf s b = true) :
    oneOf t b = true := by
  obtain ⟨ch, hch, rfl⟩ := List.mem_map.mp (List.contains_iff_mem.mp h)
  exact List.contains_iff_mem.mpr (List.mem_map_of_mem (hst ch hch))

theorem isAscii_of_oneOf {s : String} {b : UInt8} (hs : ∀ c ∈ ascii s, isAscii c = true)
    (h : oneOf s b = true) : isAscii b = true :=
  hs b (List.contains_iff_mem.mp h)

theorem isAscii_of_le {b c : UInt8} (h : b ≤ c) (hc : c.toNat < 128) : isAscii b = true :=
  decide_eq_true (Nat.lt_of_le_of_lt (UInt8.le_iff_toNat_le.mp h) hc)

theorem isAscii_of_isUpper {b : UInt8} (h : isUpper b = true) : isAscii b = true := by
  simp only [isUpper, Bool.and_eq_true, decide_eq_true_eq] at h
  exact isAscii_of_le h.2 (by decide)

theorem isAscii_of_isLower {b : UInt8} (h : isLower b = true) : isAscii b = true := by
  simp only [isLower, Bool.and_eq_true, decide_eq_true_eq] at h
  exact isAscii_of_le h.2 (by decide)

theorem isAscii_of_isDigit {b : UInt8} (h : isDigit b = true) : isAscii b = true := by
  simp only [isDigit, Bool.and_eq_true, decide_eq_true_eq] at h
  exact isAscii_of_le h.2 (by decide)

theorem isAscii_of_isAlphanumeric {b : UInt8} (h : isAlphanumeric b = true) : isAscii b = true := by
  simp only [isAlphanumeric, isAlphabetic, Bool.or_eq_true] at h
  rcases h with (h | h) | h
  · exact isAscii_of_isUpper h
  · exact isAscii_of_isLower h
  · exact isAscii_of_isDigit h

theorem isAscii_of_token {s : String} {b : UInt8} (hs : ∀ c ∈ ascii s, isAscii c = true)
    (h : (isAlphanumeric b || oneOf s b) = true) : isAscii b = true := by
  rcases Bool.or_eq_true_iff.mp h with h | h
  · exact isAscii_of_isAlphanumeric h
  · exact isAscii_of_oneOf hs h

theorem isAscii_of_isIdentByte (b : UInt8) (h : isIdentByte b = true) : isAscii b = true :=
  isAscii_of_token (isAscii_ascii (by simp)) h

theorem isAscii_of_isBlank (b : UInt8) (h : isBlank b = true) : isAscii b = true :=
  isAscii_of_oneOf (isAscii_ascii (by simp)) h

/-- The bytes right before the value of a key. -/
def isSeam (b : UInt8) : Bool :=
  oneOf "=: \t" b

theorem isSeam_of_isBlank (b : UInt8) (h : isBlank b = true) : isSeam b = true :=
  oneOf_mono (by simp) h

theorem isAscii_of_isSeam (b : UInt8) (h : isSeam b = true) : isAscii b = true :=
  isAscii_of_oneOf (isAscii_ascii (by simp)) h

section Literal

variable {bytes lit : List UInt8} {i : Nat}

/-- Where a literal stands the text goes on at least as far. -/
theorem le_of_isPrefixOf (h : lit.isPrefixOf (bytes.drop i) = true) (hne : lit ≠ []) :
    i + lit.length ≤ bytes.length := by
  have hle := (List.isPrefixOf_iff_prefix.mp h).length_le
  have hpos := List.length_pos_iff.mpr hne
  rw [List.length_drop] at hle
  omega

theorem behind_literal (h : lit.isPrefixOf (bytes.drop i) = true) (hne : lit ≠ [])
    (hascii : ∀ b ∈ lit, isAscii b = true) : Behind bytes isAscii (i + lit.length) := by
  obtain ⟨rest, hrest⟩ := List.isPrefixOf_iff_prefix.mp h
  have hpos := List.length_pos_iff.mpr hne
  have hlast : lit.length - 1 < lit.length := by omega
  refine ⟨by omega, lit[lit.length - 1], ?_, hascii _ (List.getElem_mem hlast)⟩
  have hget : (bytes.drop i)[lit.length - 1]? = some lit[lit.length - 1] := by
    rw [← hrest, List.getElem?_append_left hlast]
    exact List.getElem?_eq_getElem hlast
  rw [List.getElem?_drop] at hget
  rw [← hget]
  congr 1
  omega

end Literal

/-! ## Primitives -/

section Primitives

variable {bytes : List UInt8} {text : List Char} {offset start : Nat} {pred : UInt8 → Bool}

theorem precededBy_returns (pred : UInt8 → Bool) (h : offset ≤ bytes.length) :
    Returns (precededBy bytes offset pred) (fun _ => True) :=
  .ite (fun hpos => (nthBefore_returns hpos h).bind (fun _ _ => .pure trivial)) (fun _ => .pure trivial)

theorem runAtLeast_returns {least : Nat} (hleast : 0 < least) (hpred : ∀ b, pred b = true → isAscii b = true)
    (h : start ≤ bytes.length) : Returns (runAtLeast bytes start least pred)
      (fun found => ∀ stop, found = some stop → start < stop ∧ Behind bytes isAscii stop) := by
  refine (scanWhile_returns pred h).bind ?_
  intro stop hstop
  refine .pure ?_
  intro stop' hfound
  split at hfound
  · next hlong =>
      obtain rfl := Option.some.inj hfound
      have hlt : start < stop := by omega
      exact ⟨hlt, (hstop.behind hlt).imp hpred⟩
  · cases hfound

/-- Moving back over bytes of ASCII stops at a boundary. -/
theorem trimBack_returns {stop : Nat} (hpred : ∀ b, pred b = true → isAscii b = true)
    (hle : start ≤ stop) (hstop : isCharBoundary text stop = true) :
    Returns (trimBack (utf8 text) start pred stop)
      (fun r => start ≤ r ∧ isCharBoundary text r = true) := by
  refine @loop_returns _ _ _ _ _ (fun s => start ≤ s ∧ isCharBoundary text s = true) id _ ?_ _ _
    ⟨hle, hstop⟩ (Nat.lt_succ_self _)
  rintro s ⟨hs, hbound⟩
  refine .ite (fun hlt => ?_) (fun _ => .pure ⟨hs, hbound⟩)
  have hin : s ≤ (utf8 text).length := by
    rw [length_utf8]
    exact le_of_isCharBoundary hbound
  refine (nthBefore_returns (by omega) hin).bind ?_
  intro b hb
  refine .ite (fun hp => .pure ?_) (fun _ => .pure ⟨hs, hbound⟩)
  exact ⟨⟨Nat.le_sub_one_of_lt hlt, boundary_at hb (hpred b hp)⟩, Nat.sub_one_lt (by omega)⟩

/-- A scheme is skipped to a place behind a blank, if there is one. -/
theorem skipAuthScheme_returns {limit : Nat} (hle : start ≤ limit) (hlimit : limit ≤ bytes.length) :
    Returns (skipAuthScheme bytes start limit)
      (fun r => start ≤ r ∧ r ≤ limit ∧ (r = start ∨ Behind bytes isBlank r)) := by
  refine (sliceAt_returns hle hlimit).bind ?_
  rintro _ rfl
  refine (authSchemeEnd_returns _).bind ?_
  intro found hfound
  cases found with
  | none => exact .pure ⟨Nat.le_refl _, hle, .inl rfl⟩
  | some n =>
      obtain ⟨hn, hpos, b, hb, hblank⟩ := hfound n rfl
      rw [List.length_take, List.length_drop] at hn
      refine .pure ⟨Nat.le_add_right _ _, ?_, .inr ⟨?_, b, ?_, hblank⟩⟩
      · show start + n ≤ limit
        omega
      · show 0 < start + n
        omega
      · have hget := List.getElem?_take_of_lt (l := bytes.drop start) (show n - 1 < limit - start by omega)
        rw [hget, List.getElem?_drop] at hb
        rw [← hb]
        show bytes[start + n - 1]? = bytes[start + (n - 1)]?
        congr 1
        omega

/-- Behind a scheme, or where one was looked for, there is a boundary. -/
theorem skipAuthScheme_boundary {limit : Nat} (hle : start ≤ limit) (hlimit : limit ≤ (utf8 text).length)
    (hstart : isCharBoundary text start = true) : Returns (skipAuthScheme (utf8 text) start limit)
      (fun r => start ≤ r ∧ r ≤ limit ∧ isCharBoundary text r = true) := by
  refine (skipAuthScheme_returns hle hlimit).imp ?_
  rintro r ⟨hge, hr, rfl | hblank⟩
  · exact ⟨hge, hr, hstart⟩
  · exact ⟨hge, hr, (hblank.imp isAscii_of_isBlank).boundary⟩

end Primitives

/-! ## Quotes -/

section Quotes

variable {bytes : List UInt8} {text : List Char} {offset : Nat} {q : Quote}

theorem Quote.len_pos (q : Quote) : 0 < q.len := by
  cases q <;> decide

theorem isAscii_closingByte (q : Quote) : isAscii (closingByte q) = true := by
  cases q <;> decide

/-- A quote ends with the byte that closes it. -/
theorem quoteAt_last (h : quoteAt bytes offset = some q) :
    bytes[offset + q.len - 1]? = some (closingByte q) := by
  rw [quoteAt] at h
  split at h
  · cases h
  · next b hb =>
      split at h
      · next hdouble =>
          obtain rfl := Option.some.inj h
          rw [eq_of_beq hdouble] at hb
          exact hb
      · split at h
        · next hsingle =>
            obtain rfl := Option.some.inj h
            rw [eq_of_beq hsingle] at hb
            exact hb
        · split at h
          · next hescaped =>
              obtain rfl := Option.some.inj h
              exact eq_of_beq (Bool.and_eq_true_iff.mp hescaped).2
          · cases h

theorem quoteAt_inside (h : quoteAt bytes offset = some q) : offset + q.len ≤ bytes.length := by
  have hlt := (List.getElem?_eq_some_iff.mp (quoteAt_last h)).1
  omega

theorem quoteAt_behind (h : quoteAt bytes offset = some q) : Behind bytes isAscii (offset + q.len) := by
  have hpos := q.len_pos
  exact ⟨by omega, closingByte q, quoteAt_last h, isAscii_closingByte q⟩

/-- Where a search may end. -/
def ClosesAt (bytes : List UInt8) (q : Quote) (close : Nat) : Prop :=
  match q with
  | .double | .single => bytes[close]? = some (closingByte q)
  | .escapedDouble => bytes[close]? = some backslash ∧ bytes[close + 1]? = some (closingByte q) ∧
      (close = 0 ∨ bytes[close - 1]? ≠ some backslash)

/-- From `start` to `stop` the byte `c` stands only behind a backslash. -/
def Escaped (bytes : List UInt8) (c : UInt8) (start stop : Nat) : Prop :=
  ∀ p, start ≤ p → p < stop → bytes[p]? = some c → start < p ∧ bytes[p - 1]? = some backslash

/-- What a search that found nothing up to `stop` has seen. -/
def Unclosed (bytes : List UInt8) (q : Quote) (start stop : Nat) : Prop :=
  match q with
  | .double | .single => Escaped bytes (closingByte q) start stop
  | .escapedDouble => ∀ p, start ≤ p → p < stop → ¬ClosesAt bytes .escapedDouble p

/-- What a search from `start` returns. -/
def Searched (bytes : List UInt8) (q : Quote) (start : Nat) : Option Nat → Prop
  | some close => start ≤ close ∧ ClosesAt bytes q close
  | none => Unclosed bytes q start bytes.length

section Plain

variable {start : Nat} {b c : UInt8}

theorem Escaped.succ (h : Escaped bytes c start offset) (hb : bytes[offset]? = some b) (hne : b ≠ c) :
    Escaped bytes c start (offset + 1) := by
  intro p hp hlt hget
  rcases Nat.lt_or_eq_of_le (Nat.le_of_lt_succ hlt) with hlt | rfl
  · exact h p hp hlt hget
  · rw [hb] at hget
    exact absurd (Option.some.inj hget) hne

theorem Escaped.skip (h : Escaped bytes c start offset) (hstart : start ≤ offset)
    (hb : bytes[offset]? = some backslash) (hne : backslash ≠ c) : Escaped bytes c start (offset + 2) := by
  intro p hp hlt hget
  rcases Nat.lt_or_eq_of_le (Nat.le_of_lt_succ hlt) with hlt | rfl
  · exact h.succ hb hne p hp hlt hget
  · exact ⟨Nat.lt_succ_of_le hstart, hb⟩

/-- A pass for a quote of one character. -/
theorem plainStep_step (hstart : start ≤ offset) (hlt : offset < bytes.length) (hb : bytes[offset]? = some b)
    (hc : backslash ≠ c) (hseen : Escaped bytes c start offset) {P : Option Nat → Prop}
    (hfound : bytes[offset]? = some c → P (some offset)) :
    Step (fun s => start ≤ s ∧ Escaped bytes c start s) (fun s => bytes.length - s) P offset
      (plainStep c b offset) := by
  rw [plainStep]
  split
  · next hslash =>
      obtain rfl := eq_of_beq hslash
      exact ⟨⟨Nat.le_add_right_of_le hstart, hseen.skip hstart hb hc⟩, by show _ - _ < _ - _; omega⟩
  · split
    · next hclose =>
        obtain rfl := eq_of_beq hclose
        exact hfound hb
    · next hother =>
        have hne : b ≠ c := fun h => hother (beq_iff_eq.mpr h)
        exact ⟨⟨Nat.le_succ_of_le hstart, hseen.succ hb hne⟩, Nat.sub_succ_lt_self _ _ hlt⟩

end Plain

/-- A pass for a quote that is escaped itself. -/
theorem escapedStep_returns {start : Nat} {b : UInt8} (hstart : start ≤ offset) (hlt : offset < bytes.length)
    (hb : bytes[offset]? = some b) (hseen : Unclosed bytes .escapedDouble start offset) :
    Returns (escapedStep bytes b offset)
      (Step (fun s => start ≤ s ∧ Unclosed bytes .escapedDouble start s) (fun s => bytes.length - s)
        (Searched bytes .escapedDouble start) offset) := by
  have hgo : ¬ClosesAt bytes .escapedDouble offset →
      Step (fun s => start ≤ s ∧ Unclosed bytes .escapedDouble start s) (fun s => bytes.length - s)
        (Searched bytes .escapedDouble start) offset (.inl (offset + 1)) := by
    intro hnot
    refine ⟨⟨Nat.le_succ_of_le hstart, ?_⟩, Nat.sub_succ_lt_self _ _ hlt⟩
    intro p hp hlt'
    rcases Nat.lt_or_eq_of_le (Nat.le_of_lt_succ hlt') with hlt' | rfl
    · exact hseen p hp hlt'
    · exact hnot
  refine .ite (fun hpair => ?_) (fun hpair => .pure (hgo ?_))
  · obtain ⟨hslash, hquote⟩ := Bool.and_eq_true_iff.mp hpair
    obtain rfl := eq_of_beq hslash
    refine .ite (fun hzero => .pure ⟨hstart, hb, eq_of_beq hquote, .inl hzero⟩) (fun hpos => ?_)
    refine (nthBefore_returns (Nat.pos_of_ne_zero hpos) (Nat.le_of_lt hlt)).bind ?_
    intro prev hprev
    refine .ite (fun hother => .pure ⟨hstart, hb, eq_of_beq hquote, .inr ?_⟩) (fun hsame => .pure (hgo ?_))
    · rw [hprev]
      intro heq
      rw [Option.some.inj heq] at hother
      cases hother
    · rintro ⟨-, -, hzero | hne⟩
      · exact hpos hzero
      · rw [hprev] at hne
        refine hne (congrArg some ?_)
        by_contra hne'
        exact hsame (bne_iff_ne.mpr hne')
  · rintro ⟨hslash, hquote, -⟩
    rw [hb] at hslash
    refine hpair (Bool.and_eq_true_iff.mpr ⟨?_, ?_⟩)
    · rw [Option.some.inj hslash]
      exact beq_self_eq_true _
    · rw [hquote]
      exact beq_self_eq_true _

theorem closingByte_ne_backslash (q : Quote) : backslash ≠ closingByte q := by
  cases q <;> decide

/-- **The search** ends, at a closing quote or with the news that there is none. -/
theorem searchClosing_returns (bytes : List UInt8) (q : Quote) (start : Nat) :
    Returns (searchClosing bytes start q) (Searched bytes q start) := by
  have hnone : Unclosed bytes q start start := by
    have hempty : ∀ p, start ≤ p → ¬p < start := fun p => Nat.not_lt_of_le
    cases q with
    | double => exact fun p hp hlt => absurd hlt (hempty p hp)
    | single => exact fun p hp hlt => absurd hlt (hempty p hp)
    | escapedDouble => exact fun p hp hlt => absurd hlt (hempty p hp)
  refine @loop_returns _ _ _ _ _ (fun s => start ≤ s ∧ Unclosed bytes q start s)
    (fun s => bytes.length - s) _ ?_ _ _ ⟨Nat.le_refl _, hnone⟩ (Nat.lt_succ_of_le (Nat.sub_le _ _))
  rintro offset ⟨hstart, hseen⟩
  refine .ite (fun hend => .pure ?_) (fun hin => ?_)
  · cases q with
    | double => exact fun p hp hlt => hseen p hp (Nat.lt_of_lt_of_le hlt hend)
    | single => exact fun p hp hlt => hseen p hp (Nat.lt_of_lt_of_le hlt hend)
    | escapedDouble => exact fun p hp hlt => hseen p hp (Nat.lt_of_lt_of_le hlt hend)
  · have hlt : offset < bytes.length := Nat.lt_of_not_le hin
    refine (nth_returns hlt).bind ?_
    intro b hb
    cases q with
    | double => exact .pure (plainStep_step hstart hlt hb (closingByte_ne_backslash _) hseen (fun h => ⟨hstart, h⟩))
    | single => exact .pure (plainStep_step hstart hlt hb (closingByte_ne_backslash _) hseen (fun h => ⟨hstart, h⟩))
    | escapedDouble => exact escapedStep_returns hstart hlt hb hseen

theorem ClosesAt.ascii {close : Nat} (h : ClosesAt bytes q close) :
    ∃ b, bytes[close]? = some b ∧ isAscii b = true := by
  cases q with
  | double => exact ⟨_, h, isAscii_closingByte _⟩
  | single => exact ⟨_, h, isAscii_closingByte _⟩
  | escapedDouble => exact ⟨_, h.1, by decide⟩

end Quotes

/-! ## The value of a key -/

section Values

variable {text : List Char} {start : Nat}

theorem wrappedStep_returns {rest close : List UInt8} {cursor : Nat} :
    Returns (wrappedStep rest close start cursor)
      (Step (fun _ => True) (fun s => rest.length - s)
        (fun found => ∀ stop, found = some stop →
          ∃ gap, close.isPrefixOf (rest.drop gap) = true ∧ stop = start + gap + close.length) cursor) := by
  refine .ite (fun hlt => ?_) (fun _ => .pure (fun stop h => nomatch h))
  have hin : cursor < rest.length := Nat.lt_of_lt_of_le hlt (Nat.min_le_left _ _)
  refine (suffixAt_returns (Nat.le_of_lt hin)).bind ?_
  rintro _ rfl
  refine .ite (fun hclose => .pure ?_) (fun _ => ?_)
  · intro stop hstop
    exact ⟨cursor, hclose, (Option.some.inj hstop).symm⟩
  · refine (nth_returns hin).bind ?_
    intro b _
    exact .ite (fun _ => .pure (fun stop h => nomatch h))
      (fun _ => .pure ⟨trivial, Nat.sub_succ_lt_self _ _ hin⟩)

/-- A wrapper ends behind its closing bracket. -/
theorem scanWrappedValue_returns {bytes : List UInt8} (h : start ≤ bytes.length) :
    Returns (scanWrappedValue bytes start)
      (fun found => ∀ stop, found = some stop → start ≤ stop ∧ Behind bytes isAscii stop) := by
  refine (suffixAt_returns h).bind ?_
  rintro _ rfl
  cases hfind : brackets.find? (fun pair => (ascii pair.1).isPrefixOf (bytes.drop start)) with
  | none => exact .pure (fun stop h => nomatch h)
  | some pair =>
      have hclose : ∀ pair ∈ brackets, ascii pair.2 ≠ [] ∧ ∀ b ∈ ascii pair.2, isAscii b = true := by
        decide +kernel
      obtain ⟨hne, hascii⟩ := hclose pair (List.mem_of_find?_eq_some hfind)
      refine Returns.imp (loop_returns (fun _ _ => wrappedStep_returns) trivial
        (Nat.lt_succ_of_le (Nat.sub_le _ _))) ?_
      intro found hfound stop hstop
      obtain ⟨gap, hpre, rfl⟩ := hfound stop hstop
      rw [List.drop_drop] at hpre
      exact ⟨by omega, behind_literal hpre hne hascii⟩

theorem isAscii_of_isSpace (b : UInt8) (h : isSpace b = true) : isAscii b = true :=
  isAscii_of_oneOf (isAscii_ascii (by simp)) h

theorem isAscii_of_isValueTerminator (b : UInt8) (h : isValueTerminator b = true) : isAscii b = true := by
  rcases Bool.or_eq_true_iff.mp h with h | h
  · exact isAscii_of_isSpace b h
  · exact isAscii_of_oneOf (isAscii_ascii (by simp)) h

theorem isAscii_of_isCookieTerminator (b : UInt8) (h : isCookieTerminator b = true) : isAscii b = true :=
  isAscii_of_oneOf (isAscii_ascii (by simp)) h

/-- **A value without quotes** ends at a boundary, however it is delimited. -/
theorem scanUnquotedValue_returns (cookie : Bool) (hstart : isCharBoundary text start = true) :
    Returns (scanUnquotedValue (utf8 text) start cookie)
      (fun stop => start ≤ stop ∧ isCharBoundary text stop = true) := by
  have hin : start ≤ (utf8 text).length := by
    rw [length_utf8]
    exact le_of_isCharBoundary hstart
  refine .ite (fun _ => ?_) (fun _ => ?_)
  · refine (scanWhile_returns _ hin).bind ?_
    intro stop hstop
    refine trimBack_returns isAscii_of_isBlank hstop.le (hstop.boundary_of_ends ?_)
    intro b hb
    exact isAscii_of_isCookieTerminator b (by simpa using hb)
  · refine (scanWrappedValue_returns hin).bind ?_
    intro found hfound
    cases found with
    | some stop => exact .pure ⟨(hfound stop rfl).1, (hfound stop rfl).2.boundary⟩
    | none =>
        refine (scanWhile_returns _ hin).imp ?_
        intro stop hstop
        refine ⟨hstop.le, hstop.boundary_of_ends ?_⟩
        intro b hb
        exact isAscii_of_isValueTerminator b (by simpa using hb)

/-! ## The key -/

theorem keyGlued_returns {bytes : List UInt8} {offset : Nat} (quote : Option Quote)
    (h : offset ≤ bytes.length) : Returns (keyGlued bytes offset quote) (fun _ => True) := by
  cases quote with
  | none => exact precededBy_returns _ h
  | some q => exact .pure trivial

theorem siteKind_returns (basicAuthFlag : Bool) (key : List Char) :
    Returns (siteKind basicAuthFlag key) (fun _ => True) :=
  .ite (fun _ => .pure trivial) (fun _ => classifyKey_returns key)

theorem behindKey_le {bytes : List UInt8} {keyEnd cursor : Nat} {quote : Option Quote}
    (hin : keyEnd ≤ bytes.length) (h : behindKey bytes keyEnd quote = some cursor) :
    keyEnd ≤ cursor ∧ cursor ≤ bytes.length := by
  cases quote with
  | none =>
      obtain rfl := Option.some.inj h
      exact ⟨Nat.le_refl _, hin⟩
  | some q =>
      simp only [behindKey] at h
      split at h
      · next hquote =>
          obtain rfl := Option.some.inj h
          exact ⟨Nat.le_add_right _ _, quoteAt_inside hquote⟩
      · cases h

/-- In front of a value there is the sign behind the key, or a blank. -/
theorem valueSite_returns {bytes : List UInt8} {cursor : Nat} (isFlag : Bool) (h : cursor ≤ bytes.length) :
    Returns (valueSite bytes cursor isFlag)
      (fun found => ∀ site, found = some site →
        cursor ≤ site.1 ∧ site.1 ≤ bytes.length ∧ Behind bytes isSeam site.1) := by
  refine (scanWhile_returns _ h).bind ?_
  intro afterWs hws
  cases hb : bytes[afterWs]? with
  | none => exact .pure (fun site h => nomatch h)
  | some b =>
      have hlt : afterWs < bytes.length := (List.getElem?_eq_some_iff.mp hb).1
      refine .ite (fun hsign => ?_) (fun _ => ?_)
      · refine (scanWhile_returns _ hlt).bind ?_
        intro stop hstop
        refine .pure ?_
        intro site hsite
        obtain rfl := Option.some.inj hsite
        refine ⟨hws.le.trans (Nat.le_of_succ_le hstop.le), hstop.inside, ?_⟩
        rcases Nat.lt_or_eq_of_le hstop.le with hgo | rfl
        · exact (hstop.behind hgo).imp isSeam_of_isBlank
        · refine ⟨Nat.succ_pos _, b, hb, ?_⟩
          exact oneOf_mono (by simp) hsign
      · refine .ite (fun hflag => .pure ?_) (fun _ => .pure (fun site h => nomatch h))
        intro site hsite
        obtain rfl := Option.some.inj hsite
        have hgo := of_decide_eq_true (Bool.and_eq_true_iff.mp hflag).2
        exact ⟨hws.le, hws.inside, (hws.behind hgo).imp isSeam_of_isBlank⟩

/-- Where a value begins. -/
structure Reached (text : List Char) (offset : Nat) (site : Site) : Prop where
  after : offset ≤ site.valueStart
  inside : site.valueStart ≤ (utf8 text).length
  seam : Behind (utf8 text) isSeam site.valueStart

theorem keySite_returns {offset : Nat} (h : offset < (utf8 text).length) :
    Returns (keySite text offset) (fun found => ∀ site, found = some site → Reached text offset site) := by
  have hno : Returns (.ok none : Except Fault (Option Site))
      (fun found => ∀ site, found = some site → Reached text offset site) := .pure (fun site h => nomatch h)
  have hkey : offset + ((quoteAt (utf8 text) offset).map Quote.len).getD 0 ≤ (utf8 text).length := by
    cases hquote : quoteAt (utf8 text) offset with
    | none => exact Nat.le_of_lt h
    | some q => exact quoteAt_inside hquote
  refine (keyGlued_returns _ (Nat.le_of_lt h)).bind ?_
  intro glued _
  refine .ite (fun _ => hno) (fun _ => ?_)
  refine (scanWhile_returns isIdentByte hkey).bind ?_
  intro keyEnd hend
  refine .ite (fun _ => hno) (fun hsome => ?_)
  have hlt := Nat.lt_of_le_of_ne hend.le (Ne.symm hsome)
  cases hcursor : behindKey (utf8 text) keyEnd (quoteAt (utf8 text) offset) with
  | none => exact hno
  | some cursor =>
      obtain ⟨hcle, hcin⟩ := behindKey_le hend.inside hcursor
      obtain ⟨b, hb, hident⟩ := hend.first hlt
      refine (textAt_returns hend.le (boundary_at hb (isAscii_of_isIdentByte b hident))
        ((hend.behind hlt).imp isAscii_of_isIdentByte).boundary).bind ?_
      intro key _
      refine (valueSite_returns _ hcin).bind ?_
      intro found hfound
      cases found with
      | none => exact hno
      | some site =>
          obtain ⟨hvle, hvin, hseam⟩ := hfound site rfl
          refine (siteKind_returns _ key).bind ?_
          intro kind _
          refine .ite (fun _ => hno) (fun _ => ?_)
          refine (skipAuthScheme_returns hvin (Nat.le_refl _)).bind ?_
          rintro valueStart ⟨hge, hle, hbehind⟩
          refine .pure ?_
          intro site' hsite
          obtain rfl := Option.some.inj hsite
          refine ⟨?_, hle, ?_⟩
          · show offset ≤ valueStart
            have hstart := hend.le
            omega
          · rcases hbehind with rfl | hblank
            · exact hseam
            · exact hblank.imp isSeam_of_isBlank

end Values

end Octos.Redact
