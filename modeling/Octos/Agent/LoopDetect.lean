/-
# `Octos.Agent.LoopDetect` — calls that repeat

`loop_detect.rs`.  Three detectors watch the calls of an agent:

    record          the last calls repeat with a period of one, two or three
    record_result   the same call had the same result three times
    record_doom     the same call was made three times or more in a row

The first two look at signatures in bounded buffers.  A tool that polls a peer is not
judged by its call: the first takes it up with its result, and the last starts over.

Signatures are hashes of texts; the arguments of a call are the text that
`Value::to_string` writes.
-/
import Octos.Lib.Ring

namespace Octos.Agent

/-! ## The detector -/

def isPeerPollingTool (toolName : String) : Bool :=
  toolName == "peer_gather" || toolName == "peer_list"

def doomLoopThreshold : Nat :=
  3

def noProgressHint : String :=
  "\n\n[NO PROGRESS] You have now called this tool 3 times in a row with identical arguments AND received identical results. Calling it again will produce the same result. To make progress, either switch to a different tool (read_file / list_dir / view_image for file content) or finish the turn with the information you already have."

def peerPollingHint : String :=
  "\n\n[PEER POLLING] Three consecutive reads returned the same peer snapshot. Peer work is asynchronous: this does not prove failure or that a later read cannot change. Do not busy-wait. Reflect on the reported peer state, do independent work or use an available bounded wait, and gather fresh evidence before claiming completion."

def loopWarning (checkLen cycleLen : Nat) : String :=
  s!"[LOOP DETECTED] The last {checkLen} tool calls follow a repeating pattern (cycle length {cycleLen}). Try a different approach or break the cycle."

/-- `LoopDetector`, without what it keeps about files. -/
structure LoopDetector (σ : Type) where
  signatures : List σ
  resultSignatures : List σ
  window : Nat
  doomLastSignature : Option σ
  doomStreak : Nat
  pendingPeerPolling : Option String

def LoopDetector.new {σ : Type} (window : Nat) : LoopDetector σ where
  signatures := []
  resultSignatures := []
  window := window
  doomLastSignature := none
  doomStreak := 0
  pendingPeerPolling := none

section

variable {σ : Type} [DecidableEq σ]

/-- Three full repetitions at the end. -/
def isRepeating (window : List σ) (cycleLen : Nat) : Bool :=
  if window.length < cycleLen * 3 then false
  else
    let tail := window.drop (window.length - cycleLen * 3)
    let pattern := tail.take cycleLen
    (tail.drop cycleLen).take cycleLen == pattern && tail.drop (cycleLen * 2) == pattern

variable (hash : List String → σ)

def callSignature (name args : String) : σ :=
  hash [name, args]

def signatureWithResult (name args result : String) : σ :=
  hash [name, args, result]

def LoopDetector.pushCallSignature (d : LoopDetector σ) (sig : σ) : LoopDetector σ :=
  { d with signatures := pushBounded d.window d.signatures sig }

def LoopDetector.recordDoom (d : LoopDetector σ) (toolName args : String) : LoopDetector σ × Option Nat :=
  if isPeerPollingTool toolName then
    ({ d with doomLastSignature := none, doomStreak := 0 }, none)
  else
    let sig := callSignature hash toolName args
    let d :=
      if d.doomLastSignature = some sig then { d with doomStreak := d.doomStreak + 1 }
      else { d with doomLastSignature := some sig, doomStreak := 1 }
    (d, if doomLoopThreshold ≤ d.doomStreak then some d.doomStreak else none)

def LoopDetector.record (d : LoopDetector σ) (toolName args : String) : LoopDetector σ × Option String :=
  if isPeerPollingTool toolName then (d, none)
  else
    let d := d.pushCallSignature (callSignature hash toolName args)
    if d.signatures.length < 4 then (d, none)
    else
      let len := d.signatures.length
      let checkLen := min len d.window
      let window := d.signatures.drop (len - checkLen)
      (d, ([1, 2, 3].find? (fun cycleLen =>
        decide (cycleLen * 3 ≤ checkLen) && isRepeating window cycleLen)).map (loopWarning checkLen))

/-- The last three are there and equal. -/
def lastThreeEqual (sigs : List σ) : Bool :=
  match sigs.drop (sigs.length - 3) with
  | [a, b, c] => a == b && b == c
  | _ => false

def LoopDetector.recordResult (d : LoopDetector σ) (toolName args result : String) :
    LoopDetector σ × Option String :=
  let sig := signatureWithResult hash toolName args result
  let d := if isPeerPollingTool toolName then d.pushCallSignature sig else d
  let d := { d with resultSignatures := pushBounded d.window d.resultSignatures sig }
  if d.resultSignatures.length < 3 then (d, none)
  else if lastThreeEqual d.resultSignatures then
    let d := { d with resultSignatures := [] }
    if isPeerPollingTool toolName then
      ({ d with pendingPeerPolling := some toolName }, some peerPollingHint)
    else (d, some noProgressHint)
  else (d, none)

/-! ## Calls and answers -/

/-- A call of the detector. -/
inductive DetectorCall
  | record (toolName args : String)
  | recordDoom (toolName args : String)
  | recordResult (toolName args result : String)

inductive DetectorAnswer
  | loop (warning : Option String)
  | doom (streak : Option Nat)
  | hint (text : Option String)

def LoopDetector.step (d : LoopDetector σ) : DetectorCall → LoopDetector σ × DetectorAnswer
  | .record toolName args =>
      let (d, warning) := d.record hash toolName args
      (d, .loop warning)
  | .recordDoom toolName args =>
      let (d, streak) := d.recordDoom hash toolName args
      (d, .doom streak)
  | .recordResult toolName args result =>
      let (d, text) := d.recordResult hash toolName args result
      (d, .hint text)

/-- The detector after some calls. -/
def LoopDetector.run (d : LoopDetector σ) (calls : List DetectorCall) : LoopDetector σ :=
  calls.foldl (fun d call => (d.step hash call).1) d

end

/-! ## Nothing forgotten -/

/-- A history ends in three equal blocks of that length. -/
def EndsInBlocks {α : Type} (history : List α) (length : Nat) : Prop :=
  ∃ block, block.length = length ∧ block ++ block ++ block <:+ history

/-- What the signature that a call pushes is a hash of. -/
def pushedKey : DetectorCall → Option (List String)
  | .record toolName args => if isPeerPollingTool toolName then none else some [toolName, args]
  | .recordDoom _ _ => none
  | .recordResult toolName args result =>
      if isPeerPollingTool toolName then some [toolName, args, result] else none

/-- The complete history of pushed signatures. -/
def pushedKeys (calls : List DetectorCall) : List (List String) :=
  calls.filterMap pushedKey

/-- What `record_doom` is told, where a poll is `none`. -/
def doomEvent : DetectorCall → Option (Option (List String))
  | .recordDoom toolName args => some (if isPeerPollingTool toolName then none else some [toolName, args])
  | _ => none

def doomEvents (calls : List DetectorCall) : List (Option (List String)) :=
  calls.filterMap doomEvent

/-- The length of the run of identical calls at the end; a poll ends it. -/
def runLength (events : List (Option (List String))) : Nat :=
  match events.getLast? with
  | some (some key) => (events.reverse.takeWhile (· == some key)).length
  | _ => 0

/-- One more result since the last hint. -/
def noteResult (results : List (List String)) : DetectorCall → List (List String)
  | .recordResult toolName args result =>
      if lastThreeEqual (results ++ [[toolName, args, result]]) then []
      else results ++ [[toolName, args, result]]
  | _ => results

/-- The results recorded since the last hint. -/
def sinceHint (calls : List DetectorCall) : List (List String) :=
  calls.foldl noteResult []

/-- The answer to a call, by what was called before it. -/
def Expected (before : List DetectorCall) : DetectorCall → DetectorAnswer → Prop
  | .record toolName args, .loop warning =>
      if isPeerPollingTool toolName then warning = none
      else
        let history := pushedKeys (before ++ [.record toolName args])
        warning.isSome = true ↔ 4 ≤ history.length ∧
          (EndsInBlocks history 1 ∨ EndsInBlocks history 2 ∨ EndsInBlocks history 3)
  | .recordDoom toolName args, .doom streak =>
      let run := runLength (doomEvents (before ++ [.recordDoom toolName args]))
      streak = if doomLoopThreshold ≤ run then some run else none
  | .recordResult toolName args result, .hint text =>
      text.isSome = true ↔ EndsInBlocks (sinceHint before ++ [[toolName, args, result]]) 1
  | _, _ => False

/-! ## Patterns -/

section

variable {α β : Type} [DecidableEq α]

theorem isRepeating_iff {window : List α} {n : Nat} : isRepeating window n = true ↔ EndsInBlocks window n := by
  rw [isRepeating]
  split
  · next hshort =>
      refine ⟨nofun, ?_⟩
      rintro ⟨block, hblock, hsuffix⟩
      have hlength := hsuffix.length_le
      rw [List.length_append, List.length_append, hblock] at hlength
      omega
  · next hlong =>
      simp only [Bool.and_eq_true, beq_iff_eq]
      constructor
      · rintro ⟨hmiddle, hlast⟩
        refine ⟨(window.drop (window.length - n * 3)).take n, ?_, ?_⟩
        · rw [List.length_take, List.length_drop]
          omega
        · have htail : (window.drop (window.length - n * 3)).take n ++
              (window.drop (window.length - n * 3)).take n ++ (window.drop (window.length - n * 3)).take n =
              window.drop (window.length - n * 3) := by
            generalize window.drop (window.length - n * 3) = tail at hmiddle hlast ⊢
            calc tail.take n ++ tail.take n ++ tail.take n
                = tail.take n ++ ((tail.drop n).take n ++ (tail.drop n).drop n) := by
                  rw [hmiddle, List.drop_drop, ← Nat.mul_two, hlast, List.append_assoc]
              _ = tail := by rw [List.take_append_drop, List.take_append_drop]
          rw [htail]
          exact List.drop_suffix _ _
      · rintro ⟨block, hblock, front, rfl⟩
        have hdrop : (front ++ (block ++ block ++ block)).drop
            ((front ++ (block ++ block ++ block)).length - n * 3) = block ++ (block ++ block) := by
          rw [List.append_assoc]
          refine List.drop_left' ?_
          simp only [List.length_append, hblock]
          omega
        have htake : ∀ rest : List α, (block ++ rest).take n = block := fun rest => List.take_left' hblock
        have hskip : ∀ rest : List α, (block ++ rest).drop n = rest := fun rest => List.drop_left' hblock
        rw [hdrop, Nat.mul_two, ← List.drop_drop, hskip, hskip, htake, htake]
        exact ⟨rfl, rfl⟩

theorem lastThreeEqual_iff {history : List α} : lastThreeEqual history = true ↔ EndsInBlocks history 1 := by
  constructor
  · intro h
    rw [lastThreeEqual] at h
    split at h
    · next a b c htail =>
        simp only [Bool.and_eq_true, beq_iff_eq] at h
        obtain ⟨rfl, rfl⟩ := h
        have hsuffix := List.drop_suffix (history.length - 3) history
        rw [htail] at hsuffix
        exact ⟨[a], rfl, hsuffix⟩
    · cases h
  · rintro ⟨block, hblock, front, rfl⟩
    obtain ⟨a, rfl⟩ := List.length_eq_one_iff.mp hblock
    have htail : (front ++ ([a] ++ [a] ++ [a])).drop ((front ++ ([a] ++ [a] ++ [a])).length - 3) = [a, a, a] := by
      refine List.drop_left' ?_
      rw [List.length_append]
      exact (Nat.add_sub_cancel _ 3).symm
    rw [lastThreeEqual, htail]
    simp

end

section

variable {α β : Type}

/-- A buffer that holds enough ends in the blocks that the history ends in. -/
theorem holds_blocks {w n : Nat} {buffer full : List α} (h : Holds w buffer full) (hn : n * 3 ≤ w) :
    EndsInBlocks buffer n ↔ EndsInBlocks full n := by
  refine exists_congr (fun block => and_congr_right (fun hblock => h.suffix_iff ?_))
  rw [List.length_append, List.length_append, hblock]
  omega

/-- Without collisions the hashes repeat exactly when what they are hashes of does. -/
theorem blocks_map {f : β → α} (hf : Function.Injective f) {full : List β} {n : Nat} :
    EndsInBlocks (full.map f) n ↔ EndsInBlocks full n := by
  constructor
  · rintro ⟨block, hblock, hsuffix⟩
    obtain ⟨xs, hxs, hmap⟩ := suffix_map_iff.mp hsuffix
    obtain ⟨ab, c, rfl, hab, hc⟩ := List.append_eq_map_iff.mp hmap
    obtain ⟨a, b, rfl, ha, hb⟩ := List.append_eq_map_iff.mp hab.symm
    have hinj := List.map_injective_iff.mpr hf
    obtain rfl : a = b := hinj (ha.trans hb.symm)
    obtain rfl : a = c := hinj (ha.trans hc.symm)
    refine ⟨a, ?_, hxs⟩
    rw [← hblock, ← ha, List.length_map]
  · rintro ⟨block, hblock, hsuffix⟩
    refine ⟨block.map f, by rw [List.length_map, hblock], suffix_map_iff.mpr ⟨_, hsuffix, ?_⟩⟩
    rw [List.map_append, List.map_append]

end

/-! ## What the detector keeps -/

section

variable {σ : Type} {hash : List String → σ} {d : LoopDetector σ} {calls : List DetectorCall}

/-- The buffers hold what is needed, and the streak is the run. -/
structure Tracks (hash : List String → σ) (w : Nat) (d : LoopDetector σ) (calls : List DetectorCall) :
    Prop where
  window : d.window = w
  signatures : Holds w d.signatures ((pushedKeys calls).map hash)
  results : Holds w d.resultSignatures ((sinceHint calls).map hash)
  doomLast : d.doomLastSignature = ((doomEvents calls).getLast?.join).map hash
  doomStreak : d.doomStreak = runLength (doomEvents calls)

theorem tracks_new (w : Nat) : Tracks hash w (.new w) [] where
  window := rfl
  signatures := .refl _ _
  results := .refl _ _
  doomLast := rfl
  doomStreak := rfl

theorem pushedKeys_append (call : DetectorCall) :
    pushedKeys (calls ++ [call]) = pushedKeys calls ++ (pushedKey call).toList := by
  rw [pushedKeys, List.filterMap_append, List.filterMap_cons, List.filterMap_nil]
  cases pushedKey call <;> rfl

theorem pushedKeys_none {call : DetectorCall} (h : pushedKey call = none) :
    pushedKeys (calls ++ [call]) = pushedKeys calls := by
  rw [pushedKeys_append, h, Option.toList_none, List.append_nil]

theorem pushedKeys_some {call : DetectorCall} {key : List String} (h : pushedKey call = some key) :
    pushedKeys (calls ++ [call]) = pushedKeys calls ++ [key] := by
  rw [pushedKeys_append, h, Option.toList_some]

theorem doomEvents_none {call : DetectorCall} (h : doomEvent call = none) :
    doomEvents (calls ++ [call]) = doomEvents calls := by
  rw [doomEvents, List.filterMap_append, List.filterMap_cons, h, List.filterMap_nil, List.append_nil]
  rfl

theorem doomEvents_some {call : DetectorCall} {event : Option (List String)} (h : doomEvent call = some event) :
    doomEvents (calls ++ [call]) = doomEvents calls ++ [event] := by
  rw [doomEvents, List.filterMap_append, List.filterMap_cons, h, List.filterMap_nil]
  rfl

theorem sinceHint_append (call : DetectorCall) :
    sinceHint (calls ++ [call]) = noteResult (sinceHint calls) call := by
  rw [sinceHint, List.foldl_append]
  rfl

/-- One more call in the run, or a new run. -/
theorem runLength_append (events : List (Option (List String))) (key : List String) :
    runLength (events ++ [some key]) =
      if events.getLast?.join = some key then runLength events + 1 else 1 := by
  have hlast : runLength (events ++ [some key]) = (events.reverse.takeWhile (· == some key)).length + 1 := by
    rw [runLength, List.getLast?_concat]
    show ((events ++ [some key]).reverse.takeWhile (· == some key)).length = _
    rw [List.reverse_append]
    simp
  rw [hlast]
  -- the run goes on when the event before is the same
  induction events using List.reverseRecOn with
  | nil => rfl
  | append_singleton events event _ =>
      rw [List.getLast?_concat, List.reverse_append]
      show ((event :: events.reverse).takeWhile (· == some key)).length + 1 = _
      cases event with
      | none => simp
      | some other =>
          rw [Option.join_some]
          by_cases hsame : other = key
          · subst hsame
            rw [if_pos rfl, runLength, List.getLast?_concat]
            simp
          · have hne : (some other == some key) = false := by simpa using hsame
            rw [if_neg (fun h => hsame (Option.some.inj h)), List.takeWhile_cons, hne]
            rfl

/-! ## One call -/

variable {w : Nat}

/-- A push into the history of calls. -/
theorem Tracks.push (h : Tracks hash w d calls) (key : List String) :
    Holds w (d.pushCallSignature (hash key)).signatures ((pushedKeys calls ++ [key]).map hash) := by
  rw [List.map_append]
  show Holds w (pushBounded d.window d.signatures (hash key)) _
  rw [h.window]
  exact h.signatures.push (hash key)

variable [DecidableEq σ]

/-- Within the window the history repeats exactly when the buffer does. -/
theorem loop_iff {buffer : List σ} {full : List (List String)} (hinj : Function.Injective hash) (hw : 9 ≤ w)
    (h : Holds w buffer (full.map hash)) (checkLen : Nat) (hcheck : checkLen = min buffer.length w) :
    (([1, 2, 3].find? (fun cycleLen => decide (cycleLen * 3 ≤ checkLen) &&
      isRepeating (buffer.drop (buffer.length - checkLen)) cycleLen)).map (loopWarning checkLen)).isSome = true ↔
      EndsInBlocks full 1 ∨ EndsInBlocks full 2 ∨ EndsInBlocks full 3 := by
  have hwindow : Holds w (buffer.drop (buffer.length - checkLen)) (full.map hash) := by
    rcases Nat.le_total w buffer.length with hlong | hshort
    · rw [hcheck, Nat.min_eq_right hlong]
      exact h.drop hlong
    · rw [hcheck, Nat.min_eq_left hshort, Nat.sub_self, List.drop_zero]
      exact h
  have hlength : (buffer.drop (buffer.length - checkLen)).length = checkLen := by
    rw [List.length_drop]
    omega
  have hone : ∀ n, n * 3 ≤ 9 → ((decide (n * 3 ≤ checkLen) &&
      isRepeating (buffer.drop (buffer.length - checkLen)) n) = true ↔ EndsInBlocks full n) := by
    intro n hn
    rw [← blocks_map hinj, ← holds_blocks hwindow (Nat.le_trans hn hw), ← isRepeating_iff,
      Bool.and_eq_true, decide_eq_true_eq, and_iff_right_iff_imp]
    intro hrepeats
    rw [isRepeating, hlength] at hrepeats
    split at hrepeats
    · cases hrepeats
    · next hlong => exact Nat.le_of_not_lt hlong
  rw [Option.isSome_map, List.find?_isSome]
  simp only [List.mem_cons, List.not_mem_nil, or_false, exists_eq_or_imp, exists_eq_left]
  rw [hone 1 (by decide), hone 2 (by decide), hone 3 (by decide)]

/-- `record` pushes the call, and answers by the history. -/
theorem record_step (hinj : Function.Injective hash) (hw : 9 ≤ w) (h : Tracks hash w d calls)
    (toolName args : String) :
    Tracks hash w (d.step hash (.record toolName args)).1 (calls ++ [.record toolName args]) ∧
      Expected calls (.record toolName args) (d.step hash (.record toolName args)).2 := by
  by_cases hpoll : isPeerPollingTool toolName = true
  · have hpushed : pushedKey (.record toolName args) = none := if_pos hpoll
    have hstep : d.record hash toolName args = (d, none) := if_pos hpoll
    simp only [LoopDetector.step, hstep, Expected, if_pos hpoll, and_true]
    refine ⟨h.window, ?_, ?_, ?_, ?_⟩
    · rw [pushedKeys_none hpushed]
      exact h.signatures
    · rw [sinceHint_append]
      exact h.results
    · rw [doomEvents_none rfl]
      exact h.doomLast
    · rw [doomEvents_none rfl]
      exact h.doomStreak
  · have hpushed : pushedKey (.record toolName args) = some [toolName, args] := if_neg hpoll
    have hkeys : pushedKeys (calls ++ [.record toolName args]) = pushedKeys calls ++ [[toolName, args]] :=
      pushedKeys_some hpushed
    have hpush := h.push [toolName, args]
    have htracks : Tracks hash w (d.pushCallSignature (callSignature hash toolName args))
        (calls ++ [.record toolName args]) := by
      refine ⟨h.window, ?_, ?_, ?_, ?_⟩
      · rw [hkeys]
        exact hpush
      · rw [sinceHint_append]
        exact h.results
      · rw [doomEvents_none rfl]
        exact h.doomLast
      · rw [doomEvents_none rfl]
        exact h.doomStreak
    have hfour := hpush.le_length_iff (show 4 ≤ w by omega)
    rw [List.length_map] at hfour
    have hloop := loop_iff hinj hw hpush _ rfl
    simp only [LoopDetector.step, LoopDetector.record, if_neg hpoll]
    split
    · next hshort =>
        refine ⟨htracks, ?_⟩
        simp only [Expected, if_neg hpoll, hkeys]
        refine ⟨nofun, ?_⟩
        rintro ⟨hlong, -⟩
        exact absurd (hfour.mpr hlong) (Nat.not_le.mpr hshort)
    · next hlong =>
        refine ⟨htracks, ?_⟩
        simp only [Expected, if_neg hpoll, hkeys]
        rw [and_iff_right (hfour.mp (Nat.le_of_not_lt hlong))]
        have hw' : (d.pushCallSignature (callSignature hash toolName args)).window = w := h.window
        rw [hw']
        exact hloop

/-- `record_doom` goes on with the run or starts one, and answers its length. -/
theorem recordDoom_step (hinj : Function.Injective hash) (h : Tracks hash w d calls) (toolName args : String) :
    Tracks hash w (d.step hash (.recordDoom toolName args)).1 (calls ++ [.recordDoom toolName args]) ∧
      Expected calls (.recordDoom toolName args) (d.step hash (.recordDoom toolName args)).2 := by
  have hkeys : pushedKeys (calls ++ [.recordDoom toolName args]) = pushedKeys calls := pushedKeys_none rfl
  have hresults : sinceHint (calls ++ [.recordDoom toolName args]) = sinceHint calls := sinceHint_append _
  by_cases hpoll : isPeerPollingTool toolName = true
  · have hevent : doomEvents (calls ++ [.recordDoom toolName args]) = doomEvents calls ++ [none] :=
      doomEvents_some (congrArg some (if_pos hpoll))
    have hzero : runLength (doomEvents calls ++ [none]) = 0 := by
      rw [runLength, List.getLast?_concat]
    have hstep : d.recordDoom hash toolName args = ({ d with doomLastSignature := none, doomStreak := 0 }, none) :=
      if_pos hpoll
    simp only [LoopDetector.step, hstep, Expected, hevent, hzero]
    refine ⟨⟨h.window, hkeys ▸ h.signatures, hresults ▸ h.results, ?_, ?_⟩, rfl⟩
    · rw [hevent, List.getLast?_concat]
      rfl
    · rw [hevent, hzero]
  · have hevent : doomEvents (calls ++ [.recordDoom toolName args]) = doomEvents calls ++ [some [toolName, args]] :=
      doomEvents_some (congrArg some (if_neg hpoll))
    have hsame : d.doomLastSignature = some (callSignature hash toolName args) ↔
        (doomEvents calls).getLast?.join = some [toolName, args] := by
      rw [h.doomLast]
      constructor
      · intro heq
        obtain ⟨key, hkey, hhash⟩ := Option.map_eq_some_iff.mp heq
        rw [hkey, hinj hhash]
      · intro heq
        rw [heq]
        rfl
    have hstep : d.recordDoom hash toolName args =
        ({ d with
            doomLastSignature := some (callSignature hash toolName args)
            doomStreak := runLength (doomEvents calls ++ [some [toolName, args]]) },
          if doomLoopThreshold ≤ runLength (doomEvents calls ++ [some [toolName, args]])
          then some (runLength (doomEvents calls ++ [some [toolName, args]])) else none) := by
      rw [runLength_append]
      simp only [LoopDetector.recordDoom, if_neg hpoll]
      by_cases hlast : d.doomLastSignature = some (callSignature hash toolName args)
      · rw [if_pos hlast, if_pos (hsame.mp hlast), ← h.doomStreak, ← hlast]
      · rw [if_neg hlast, if_neg (fun heq => hlast (hsame.mpr heq))]
    simp only [LoopDetector.step, hstep, Expected, hevent, and_true]
    refine ⟨h.window, hkeys ▸ h.signatures, hresults ▸ h.results, ?_, ?_⟩
    · rw [hevent, List.getLast?_concat]
      rfl
    · rw [hevent]

/-- `record_result` pushes the result, and forgets all when it hints. -/
theorem recordResult_step (hinj : Function.Injective hash) (hw : 9 ≤ w) (h : Tracks hash w d calls)
    (toolName args result : String) :
    Tracks hash w (d.step hash (.recordResult toolName args result)).1
        (calls ++ [.recordResult toolName args result]) ∧
      Expected calls (.recordResult toolName args result) (d.step hash (.recordResult toolName args result)).2 := by
  obtain ⟨key, hkey⟩ : ∃ key, key = [toolName, args, result] := ⟨_, rfl⟩
  obtain ⟨e, he⟩ : ∃ e, e = if isPeerPollingTool toolName then d.pushCallSignature (hash key) else d := ⟨_, rfl⟩
  -- the call's signature is pushed for a poll, and nothing else changes
  have hwindow : e.window = w := by
    rw [he]
    split <;> exact h.window
  have hresults : e.resultSignatures = d.resultSignatures := by
    rw [he]
    split <;> rfl
  have hsignatures : Holds w e.signatures ((pushedKeys (calls ++ [.recordResult toolName args result])).map hash) := by
    rw [he]
    by_cases hpoll : isPeerPollingTool toolName = true
    · have hpushed : pushedKey (.recordResult toolName args result) = some key := by
        rw [hkey]
        exact if_pos hpoll
      rw [if_pos hpoll, pushedKeys_some hpushed]
      exact h.push key
    · have hpushed : pushedKey (.recordResult toolName args result) = none := if_neg hpoll
      rw [if_neg hpoll, pushedKeys_none hpushed]
      exact h.signatures
  have hevents : doomEvents (calls ++ [.recordResult toolName args result]) = doomEvents calls := doomEvents_none rfl
  have hlast : e.doomLastSignature =
      ((doomEvents (calls ++ [.recordResult toolName args result])).getLast?.join).map hash := by
    rw [hevents, he, ← h.doomLast]
    split <;> rfl
  have hstreak : e.doomStreak = runLength (doomEvents (calls ++ [.recordResult toolName args result])) := by
    rw [hevents, he, ← h.doomStreak]
    split <;> rfl
  -- the result is pushed
  have hpush : Holds w (pushBounded e.window e.resultSignatures (hash key)) ((sinceHint calls ++ [key]).map hash) := by
    rw [hwindow, hresults, List.map_append]
    exact h.results.push (hash key)
  have hequal : lastThreeEqual (pushBounded e.window e.resultSignatures (hash key)) = true ↔
      EndsInBlocks (sinceHint calls ++ [key]) 1 := by
    rw [lastThreeEqual_iff, holds_blocks hpush (by omega), blocks_map hinj]
  have hsince : sinceHint (calls ++ [.recordResult toolName args result]) =
      if lastThreeEqual (sinceHint calls ++ [key]) then [] else sinceHint calls ++ [key] := by
    rw [sinceHint_append, hkey]
    rfl
  rw [LoopDetector.step, LoopDetector.recordResult, signatureWithResult, ← hkey]
  simp only [← he]
  split
  · next hshort =>
      have hnot : ¬ EndsInBlocks (sinceHint calls ++ [key]) 1 := by
        rintro ⟨block, hblock, hsuffix⟩
        have hthree := hsuffix.length_le
        rw [List.length_append, List.length_append, hblock, ← List.length_map hash] at hthree
        have hlong := (hpush.le_length_iff (show 3 ≤ w by omega)).mpr hthree
        exact absurd hlong (Nat.not_le.mpr hshort)
      refine ⟨⟨hwindow, hsignatures, ?_, hlast, hstreak⟩, ?_⟩
      · rw [hsince, if_neg (fun h => hnot (lastThreeEqual_iff.mp h))]
        exact hpush
      · show none.isSome = true ↔ EndsInBlocks (sinceHint calls ++ [[toolName, args, result]]) 1
        rw [← hkey]
        exact ⟨nofun, fun h => absurd h hnot⟩
  · split
    · next hthree =>
        have hends := hequal.mp hthree
        have hcleared : Holds w ([] : List σ)
            ((sinceHint (calls ++ [.recordResult toolName args result])).map hash) := by
          rw [hsince, if_pos (lastThreeEqual_iff.mpr hends)]
          exact .refl _ _
        split
        · refine ⟨⟨hwindow, hsignatures, hcleared, hlast, hstreak⟩, ?_⟩
          show (some _).isSome = true ↔ EndsInBlocks (sinceHint calls ++ [[toolName, args, result]]) 1
          rw [← hkey]
          exact ⟨fun _ => hends, fun _ => rfl⟩
        · refine ⟨⟨hwindow, hsignatures, hcleared, hlast, hstreak⟩, ?_⟩
          show (some _).isSome = true ↔ EndsInBlocks (sinceHint calls ++ [[toolName, args, result]]) 1
          rw [← hkey]
          exact ⟨fun _ => hends, fun _ => rfl⟩
    · next hdiffers =>
        have hnot : ¬ EndsInBlocks (sinceHint calls ++ [key]) 1 := fun h => hdiffers (hequal.mpr h)
        refine ⟨⟨hwindow, hsignatures, ?_, hlast, hstreak⟩, ?_⟩
        · rw [hsince, if_neg (fun h => hnot (lastThreeEqual_iff.mp h))]
          exact hpush
        · show none.isSome = true ↔ EndsInBlocks (sinceHint calls ++ [[toolName, args, result]]) 1
          rw [← hkey]
          exact ⟨nofun, fun h => absurd h hnot⟩

/-- **Bounded detection is detection.**  Whatever is called, each answer is the one that
the complete history gives. -/
theorem detection_unbounded (hash : List String → σ) (hinj : Function.Injective hash) (window : Nat)
    (hw : 9 ≤ window) (before : List DetectorCall) (call : DetectorCall) :
    Expected before call (((LoopDetector.new window).run hash before).step hash call).2 := by
  have hone : ∀ {d : LoopDetector σ} {calls : List DetectorCall} (call : DetectorCall), Tracks hash window d calls →
      Tracks hash window (d.step hash call).1 (calls ++ [call]) ∧ Expected calls call (d.step hash call).2 := by
    intro d calls call h
    cases call with
    | record toolName args => exact record_step hinj hw h toolName args
    | recordDoom toolName args => exact recordDoom_step hinj h toolName args
    | recordResult toolName args result => exact recordResult_step hinj hw h toolName args result
  have hall : Tracks hash window ((LoopDetector.new window).run hash before) before := by
    induction before using List.reverseRecOn with
    | nil => exact tracks_new window
    | append_singleton before call ih =>
        rw [LoopDetector.run, List.foldl_append]
        exact (hone call ih).1
  exact (hone call hall).2

end

/-- Three calls of the same tool, between polls. -/
def pollingCalls : List DetectorCall :=
  [.record "shell" "{}", .recordResult "peer_list" "{}" "[]", .recordDoom "shell" "{}", .record "shell" "{}",
    .record "shell" "{}"]

theorem detection_unbounded_polling :
    ∃ answer, (((LoopDetector.new 12).run id pollingCalls).step id (.record "shell" "{}")).2 = answer ∧
      Expected pollingCalls (.record "shell" "{}") answer :=
  ⟨_, rfl, detection_unbounded id Function.injective_id 12 (by decide) pollingCalls _⟩

end Octos.Agent
