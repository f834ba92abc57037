/-
# `Octos.BuildCache.PoolSteps` — what one access of a call can do

For the proofs a place of a call is read in four ways: the slot whose flock it
holds (`flock`), what it knows of that slot's `holder.json` (`knows`), the uuid
of its claim (`token`) and the request it serves (`request`).  `MoveSpec` says
once what a step does to the pool in these terms:

    the flock is taken when it is free, kept, or dropped
    `holder.json` changes only under the flock, at three places
    `.lock` is never removed, `target` is removed at one place

and `next_spec` proves it place by place.  Nothing below looks at the steps
again.
-/
import Octos.BuildCache.Pool

namespace Octos.BuildCache

/-! ## Reading a place -/

namespace Pc

/-- The slot whose flock the call holds. -/
def flock : Pc → Option SlotDir
  | .locked _ _ dir _ => some dir
  | .probing _ _ dir _ _ => some dir
  | .preparing _ _ dir _ => some dir
  | .stamping _ dir _ _ => some dir
  | .publishing _ dir _ _ => some dir
  | .published _ dir _ => some dir
  | .held dir _ => some dir
  | .releasing _ dir _ => some dir
  | .comparing _ dir _ => some dir
  | .removing _ dir _ => some dir
  | .marking _ dir _ => some dir
  | .gcLocked _ dir => some dir
  | .gcProbing _ dir _ => some dir
  | .gcClearing _ dir => some dir
  | .gcAging _ dir _ => some dir
  | .gcRemoving _ dir => some dir
  | _ => none

/-- The call is past the recheck and has not let go: it is a claimant. -/
def claims : Pc → Bool
  | .preparing .. => true
  | .stamping .. => true
  | .publishing .. => true
  | .published .. => true
  | .held .. => true
  | .releasing .slot _ _ => true
  | .comparing .slot _ _ => true
  | .removing .slot _ _ => true
  | .marking .slot _ _ => true
  | _ => false

/-- The uuid of the call's own claim. -/
def token : Pc → Option String
  | .stamping _ _ token _ => some token
  | .publishing _ _ token _ => some token
  | .published _ _ token => some token
  | .handing _ token => some token
  | .held _ token => some token
  | .releasing .slot _ token => some token
  | .comparing .slot _ token => some token
  | .removing .slot _ token => some token
  | .marking .slot _ token => some token
  | _ => none

/-- The request an acquiring call serves. -/
def request : Pc → Option Request
  | .gate req _ _ => some req
  | .scan req _ _ => some req
  | .locking req _ _ _ => some req
  | .locked req _ _ _ => some req
  | .probing req _ _ _ _ => some req
  | .preparing req _ _ _ => some req
  | .stamping req _ _ _ => some req
  | .publishing req _ _ _ => some req
  | .published req _ _ => some req
  | _ => none

/-- The token a release was given. -/
def releases : Pc → Option String
  | .releasing _ _ token => some token
  | .comparing _ _ token => some token
  | .removing _ _ token => some token
  | .marking _ _ token => some token
  | _ => none

/-- The call is a reclaim at some slot. -/
def reclaims : Pc → Bool
  | .gcLocked .. => true
  | .gcProbing .. => true
  | .gcClearing .. => true
  | .gcAging .. => true
  | .gcRemoving .. => true
  | _ => false

/-- What a call knows of the `holder.json` of its slot. -/
def knows (dead : Nat → Prop) (holder : Option HolderMeta) : Pc → Prop
  | .probing _ _ _ _ found => holder = some found
  | .gcProbing _ _ found => holder = some found
  | .preparing .. => ∀ found, holder = some found → dead found.pid
  | .stamping .. => ∀ found, holder = some found → dead found.pid
  | .publishing .. => ∀ found, holder = some found → dead found.pid
  | .gcClearing .. => ∀ found, holder = some found → dead found.pid
  | .gcAging .. => ∀ found, holder = some found → dead found.pid
  | .gcRemoving .. => ∀ found, holder = some found → dead found.pid
  | .published _ _ token => ∀ found, holder = some found → found.claimToken = token
  | .held _ token => ∀ found, holder = some found → found.claimToken = token
  | .releasing .slot _ token => ∀ found, holder = some found → found.claimToken = token
  | .comparing .slot _ token => ∀ found, holder = some found → found.claimToken = token
  | .removing _ _ token => ∀ found, holder = some found → found.claimToken = token
  | .marking .slot _ token => ∀ found, holder = some found → found.claimToken = token
  | _ => True

/-- Knowledge stays when the dead stay dead. -/
theorem knows.mono {dead dead' : Nat → Prop} {holder : Option HolderMeta}
    (h : ∀ found, holder = some found → dead found.pid → dead' found.pid) {pc : Pc}
    (hk : pc.knows dead holder) : pc.knows dead' holder := by
  have hdead : (∀ found, holder = some found → dead found.pid) →
      ∀ found, holder = some found → dead' found.pid :=
    fun hall found hf => h found hf (hall found hf)
  cases pc with
  | preparing | stamping | publishing | gcClearing | gcAging | gcRemoving => exact hdead hk
  | releasing via => cases via <;> exact hk
  | comparing via => cases via <;> exact hk
  | marking via => cases via <;> exact hk
  | _ => exact hk

end Pc

/-- A pid that `pid_alive` calls dead. -/
def State.dead (s : State) (pid : Nat) : Prop :=
  s.pidAlive pid = none

/-! ## What a step can do -/

/-- How `holder.json` may change at a place: it stays, or the flock is held and
it is removed by a release, removed by a reclaim, or written. -/
def HolderStep (c : Call) (pc : Pc) (dir : SlotDir) (f f' : SlotFiles) : Prop :=
  (f'.holder = f.holder ∧ f'.writer = f.writer) ∨
    (f'.holder = none ∧ ((∃ via token, pc = .removing via dir token) ∨ ∃ sweep, pc = .gcClearing sweep dir)) ∨
    ∃ req token now, pc = .publishing req dir token now ∧
      f'.holder = some ⟨req.kind, req.pid, now, token⟩ ∧ f'.writer = some c

/-- `target` goes only at the end of a reclaim. -/
def TargetStep (pc : Pc) (dir : SlotDir) (f f' : SlotFiles) : Prop :=
  (f.target = true → f'.target = true) ∨ ∃ sweep, pc = .gcRemoving sweep dir

/-- A place hands its uuid and its request on, or drops them. -/
def Passes (pc pc' : Pc) : Prop :=
  (∀ token, pc'.token = some token → pc.token = some token) ∧
    ∀ req, pc'.request = some req → pc.request = some req

/-- What a move of the call `c` at `pc` does. -/
structure MoveSpec (s : State) (c : Call) (pc : Pc) (m : Move) : Prop where
  lock : ∀ dir, ((s.move c m).slots dir).lock =
    if m.pc.flock = some dir then some c
    else if pc.flock = some dir then none else (s.slots dir).lock
  taken : ∀ dir, m.pc.flock = some dir → pc.flock = some dir ∨ (s.slots dir).lock = none
  holder : ∀ dir, HolderStep c pc dir (s.slots dir) ((s.move c m).slots dir)
  target : ∀ dir, TargetStep pc dir (s.slots dir) ((s.move c m).slots dir)
  lockFile : ∀ dir, (s.slots dir).lockFile = true → ((s.move c m).slots dir).lockFile = true
  know : ∀ dir, m.pc.flock = some dir → m.pc.knows s.dead ((s.move c m).slots dir).holder
  token : ∀ token, m.pc.token = some token → pc.token = some token ∨ m.drawn = some token
  request : ∀ req, m.pc.request = some req → pc.request = some req
  drawn : ∀ token, m.drawn = some token → s.issued token = none

section Moves

variable {s : State} {c : Call} {pc pc' : Pc} {dir : SlotDir} {f : SlotFiles}

theorem slots_put_self : (s.move c (.put dir f pc')).slots dir = f :=
  Function.update_self _ _ _

theorem slots_put_other {d : SlotDir} (h : d ≠ dir) :
    (s.move c (.put dir f pc')).slots d = s.slots d :=
  Function.update_of_ne h _ _

/-- Nothing changes but the place. -/
theorem goto_spec (hlock : ∀ dir, pc.flock = some dir → (s.slots dir).lock = some c)
    (hflock : pc'.flock = pc.flock)
    (hknow : ∀ dir, pc.flock = some dir → pc'.knows s.dead (s.slots dir).holder)
    (hpass : Passes pc pc') : MoveSpec s c pc (.goto pc') where
  lock := by
    intro dir
    show (s.slots dir).lock = if pc'.flock = some dir then _ else _
    rw [hflock]
    split
    · next h => exact hlock dir h
    · rfl
  taken := fun dir h => Or.inl (hflock ▸ h)
  holder := fun _ => Or.inl ⟨rfl, rfl⟩
  target := fun _ => Or.inl id
  lockFile := fun _ => id
  know := fun dir h => hknow dir (hflock ▸ h)
  token := fun token h => Or.inl (hpass.1 token h)
  request := hpass.2
  drawn := by
    intro token h
    cases h

/-- The files of one slot change. -/
theorem put_spec (hlock : ∀ d, f.lock = (if pc'.flock = some d then some c
      else if pc.flock = some d then none else (s.slots d).lock) ∨ d ≠ dir)
    (hother : ∀ d, d ≠ dir → pc'.flock ≠ some d ∧ pc.flock ≠ some d)
    (htaken : pc'.flock = some dir → pc.flock = some dir ∨ (s.slots dir).lock = none)
    (hholder : HolderStep c pc dir (s.slots dir) f) (htarget : TargetStep pc dir (s.slots dir) f)
    (hfile : (s.slots dir).lockFile = true → f.lockFile = true)
    (hknow : pc'.flock = some dir → pc'.knows s.dead f.holder)
    (hpass : Passes pc pc') : MoveSpec s c pc (.put dir f pc') where
  lock := by
    intro d
    show _ = if pc'.flock = some d then _ else _
    by_cases hd : d = dir
    · subst hd
      rw [slots_put_self]
      exact (hlock d).resolve_right (fun h => h rfl)
    · rw [slots_put_other hd, if_neg (hother d hd).1, if_neg (hother d hd).2]
  taken := by
    intro d h
    by_cases hd : d = dir
    · subst hd
      exact htaken h
    · exact absurd h (hother d hd).1
  holder := by
    intro d
    by_cases hd : d = dir
    · subst hd
      rw [slots_put_self]
      exact hholder
    · rw [slots_put_other hd]
      exact Or.inl ⟨rfl, rfl⟩
  target := by
    intro d
    by_cases hd : d = dir
    · subst hd
      rw [slots_put_self]
      exact htarget
    · rw [slots_put_other hd]
      exact Or.inl id
  lockFile := by
    intro d h
    by_cases hd : d = dir
    · subst hd
      rw [slots_put_self]
      exact hfile h
    · rw [slots_put_other hd]
      exact h
  know := by
    intro d h
    by_cases hd : d = dir
    · subst hd
      rw [slots_put_self]
      exact hknow h
    · exact absurd h (hother d hd).1
  token := fun token h => Or.inl (hpass.1 token h)
  request := hpass.2
  drawn := by
    intro token h
    cases h

/-- The flock is dropped; the files may be touched before. -/
theorem leave_spec (hpc : pc.flock = some dir) (hpc' : pc'.flock = none)
    (hholder : f.holder = (s.slots dir).holder ∧ f.writer = (s.slots dir).writer)
    (htarget : TargetStep pc dir (s.slots dir) f)
    (hfile : (s.slots dir).lockFile = true → f.lockFile = true) (hpass : Passes pc pc') :
    MoveSpec s c pc (.put dir f.unlock pc') := by
  refine put_spec ?_ ?_ ?_ (Or.inl hholder) htarget hfile ?_ hpass
  · intro d
    by_cases hd : d = dir
    · subst hd
      left
      rw [hpc', if_neg (by simp), if_pos hpc]
      rfl
    · exact Or.inr hd
  · intro d hd
    rw [hpc', hpc]
    exact ⟨by simp, fun h => hd (Option.some.inj h).symm⟩
  · intro h
    rw [hpc'] at h
    cases h
  · intro h
    rw [hpc'] at h
    cases h

/-- A free flock is taken. -/
theorem take_spec (hpc : pc.flock = none) (hpc' : pc'.flock = some dir)
    (hfree : (s.slots dir).lock = none) (hknow : pc'.knows s.dead (s.slots dir).holder)
    (hpass : Passes pc pc') :
    MoveSpec s c pc (.put dir { s.slots dir with lock := some c } pc') := by
  refine put_spec ?_ ?_ (fun _ => Or.inr hfree) (Or.inl ⟨rfl, rfl⟩) (Or.inl id) id
    (fun _ => hknow) hpass
  · intro d
    by_cases hd : d = dir
    · subst hd
      exact Or.inl (if_pos hpc').symm
    · exact Or.inr hd
  · intro d hd
    rw [hpc', hpc]
    exact ⟨fun h => hd (Option.some.inj h).symm, by simp⟩

/-- The files change under the flock. -/
theorem edit_spec (hlock : (s.slots dir).lock = some c) (hpc : pc.flock = some dir)
    (hpc' : pc'.flock = some dir) (hf : f.lock = (s.slots dir).lock)
    (hholder : HolderStep c pc dir (s.slots dir) f) (htarget : TargetStep pc dir (s.slots dir) f)
    (hfile : (s.slots dir).lockFile = true → f.lockFile = true)
    (hknow : pc'.knows s.dead f.holder) (hpass : Passes pc pc') :
    MoveSpec s c pc (.put dir f pc') := by
  refine put_spec ?_ ?_ (fun _ => Or.inl hpc) hholder htarget hfile (fun _ => hknow) hpass
  · intro d
    by_cases hd : d = dir
    · subst hd
      left
      rw [if_pos hpc', hf, hlock]
    · exact Or.inr hd
  · intro d hd
    rw [hpc', hpc]
    exact ⟨fun h => hd (Option.some.inj h).symm, fun h => hd (Option.some.inj h).symm⟩

end Moves

/-! ## Place by place -/

section Next

variable {s : State} {c : Call} {w : World} {m : Move} {pc : Pc}

/-- A place that hands nothing on. -/
theorem passes_nothing {pc' : Pc} (htoken : pc'.token = none) (hreq : pc'.request = none) :
    Passes pc pc' := by
  refine ⟨?_, ?_⟩
  · intro token h
    rw [htoken] at h
    cases h
  · intro req h
    rw [hreq] at h
    cases h

theorem passes_same {pc' : Pc} (htoken : pc'.token = pc.token) (hreq : pc'.request = pc.request) :
    Passes pc pc' :=
  ⟨fun _ h => htoken ▸ h, fun _ h => hreq ▸ h⟩

/-- A place without request. -/
theorem passes_token {pc' : Pc} (htoken : pc'.token = pc.token) (hreq : pc'.request = none) :
    Passes pc pc' := by
  refine ⟨fun _ h => htoken ▸ h, ?_⟩
  intro req h
  rw [hreq] at h
  cases h

/-- A place outside the flock goes to another one. -/
theorem outside_spec {pc' : Pc} (hpc : pc.flock = none) (hpc' : pc'.flock = none)
    (hpass : Passes pc pc') : MoveSpec s c pc (.goto pc') := by
  refine goto_spec ?_ (hpc'.trans hpc.symm) ?_ hpass
  · intro dir h
    rw [hpc] at h
    cases h
  · intro dir h
    rw [hpc] at h
    cases h

/-- A place under the flock goes to another one. -/
theorem inside_spec {pc' : Pc} {dir : SlotDir} (hlock : (s.slots dir).lock = some c)
    (hpc : pc.flock = some dir) (hpc' : pc'.flock = some dir)
    (hknow : pc'.knows s.dead (s.slots dir).holder) (hpass : Passes pc pc') :
    MoveSpec s c pc (.goto pc') := by
  refine goto_spec ?_ (hpc'.trans hpc.symm) ?_ hpass
  · intro d h
    obtain rfl : dir = d := Option.some.inj (hpc.symm.trans h)
    exact hlock
  · intro d h
    obtain rfl : dir = d := Option.some.inj (hpc.symm.trans h)
    exact hknow

/-- `release_claim` ends with an answer. -/
theorem finish_spec {dir : SlotDir} {f : SlotFiles} {d : ReleaseDisposition}
    (hpc : pc.flock = some dir)
    (hf : f.holder = (s.slots dir).holder ∧ f.writer = (s.slots dir).writer ∧
      f.target = (s.slots dir).target ∧ f.lockFile = (s.slots dir).lockFile) :
    MoveSpec s c pc (finish dir f d) := by
  obtain ⟨hholder, hwriter, htarget, hfile⟩ := hf
  refine leave_spec hpc rfl ⟨hholder, hwriter⟩ (Or.inl ?_) ?_ (passes_nothing rfl rfl)
  · intro h
    rw [htarget]
    exact h
  · intro h
    rw [hfile]
    exact h

/-- `release_claim` ends with an error. -/
theorem giveUp_spec {via : Via} {dir : SlotDir} {token : String}
    (hlock : (s.slots dir).lock = some c) (hpc : pc.flock = some dir)
    (hknow : via = .slot → ∀ found, (s.slots dir).holder = some found → found.claimToken = token)
    (htoken : via = .slot → pc.token = some token) :
    MoveSpec s c pc (giveUp via dir token (s.slots dir)) := by
  cases via with
  | slot => exact inside_spec hlock hpc rfl (hknow rfl) (passes_token (htoken rfl).symm rfl)
  | path => exact leave_spec hpc rfl ⟨rfl, rfl⟩ (Or.inl id) id (passes_nothing rfl rfl)

/-- **One access.**  What the next step of a call does, given that the call holds
the flock it thinks it holds and knows what it thinks it knows. -/
theorem next_spec (hlock : ∀ dir, pc.flock = some dir → (s.slots dir).lock = some c)
    (hknow : ∀ dir, pc.flock = some dir → pc.knows s.dead (s.slots dir).holder)
    (h : s.next c w pc = some m) : MoveSpec s c pc m := by
  cases pc with
  | idle => cases h
  | done answer => cases h
  | held dir token => cases h
  | gate req repo count =>
      simp only [State.next] at h
      split at h
      · obtain rfl := Option.some.inj h
        exact outside_spec rfl rfl (passes_same rfl rfl)
      · obtain rfl := Option.some.inj h
        exact outside_spec rfl rfl (passes_nothing rfl rfl)
  | scan req failed rest =>
      cases rest with
      | nil =>
          obtain rfl := Option.some.inj h
          exact outside_spec rfl rfl (passes_nothing rfl rfl)
      | cons dir rest =>
          simp only [State.next] at h
          split at h
          · obtain rfl := Option.some.inj h
            refine put_spec ?_ ?_ ?_ (Or.inl ⟨rfl, rfl⟩) (Or.inl id) (fun _ => rfl) ?_
              (passes_same rfl rfl)
            · intro d
              by_cases hd : d = dir
              · subst hd
                exact Or.inl rfl
              · exact Or.inr hd
            · intro d hd
              exact ⟨by simp [Pc.flock], by simp [Pc.flock]⟩
            · intro h
              cases h
            · intro h
              cases h
          · obtain rfl := Option.some.inj h
            exact outside_spec rfl rfl (passes_same rfl rfl)
  | locking req failed dir rest =>
      simp only [State.next] at h
      split at h
      · obtain rfl := Option.some.inj h
        exact outside_spec rfl rfl (passes_same rfl rfl)
      · split at h
        · next hfree =>
            obtain rfl := Option.some.inj h
            exact take_spec rfl rfl hfree trivial (passes_same rfl rfl)
        · split at h
          · obtain rfl := Option.some.inj h
            exact outside_spec rfl rfl (passes_same rfl rfl)
          · obtain rfl := Option.some.inj h
            exact outside_spec rfl rfl (passes_same rfl rfl)
  | locked req failed dir rest =>
      have hl := hlock dir rfl
      simp only [State.next] at h
      split at h
      · next hnone =>
          obtain rfl := Option.some.inj h
          refine inside_spec hl rfl rfl ?_ (passes_same rfl rfl)
          intro found hf
          rw [hnone] at hf
          cases hf
      · next found hfound =>
          obtain rfl := Option.some.inj h
          exact inside_spec hl rfl rfl hfound (passes_same rfl rfl)
  | probing req failed dir rest found =>
      have hl := hlock dir rfl
      have hfound : (s.slots dir).holder = some found := hknow dir rfl
      simp only [State.next] at h
      split at h
      · obtain rfl := Option.some.inj h
        exact leave_spec rfl rfl ⟨rfl, rfl⟩ (Or.inl id) id (passes_same rfl rfl)
      · next hdead =>
          obtain rfl := Option.some.inj h
          refine inside_spec hl rfl rfl ?_ (passes_same rfl rfl)
          intro other hother
          obtain rfl : found = other := Option.some.inj (hfound.symm.trans hother)
          simpa [State.dead] using hdead
  | preparing req failed dir rest =>
      have hl := hlock dir rfl
      have hvacant : ∀ found, (s.slots dir).holder = some found → s.dead found.pid := hknow dir rfl
      simp only [State.next] at h
      split at h
      · obtain rfl := Option.some.inj h
        exact leave_spec rfl rfl ⟨rfl, rfl⟩ (Or.inl id) id (passes_same rfl rfl)
      · split at h
        · cases h
        · next hfresh =>
            obtain rfl := Option.some.inj h
            -- the move of `edit_spec` with a uuid drawn
            have hedit := @edit_spec s c (.preparing req failed dir rest) (.preparing req failed dir rest)
              dir { s.slots dir with target := true } hl rfl rfl rfl (Or.inl ⟨rfl, rfl⟩)
              (Or.inl fun _ => rfl) id hvacant (passes_same rfl rfl)
            have hissued : s.issued w.token = none := by
              simpa using (not_or.mp hfresh).2
            exact {
              lock := hedit.lock
              taken := hedit.taken
              holder := hedit.holder
              target := hedit.target
              lockFile := hedit.lockFile
              know := hedit.know
              token := fun token ht => Or.inr ht
              request := fun req hr => hr
              drawn := by
                intro token ht
                obtain rfl := Option.some.inj ht
                exact hissued }
  | stamping req dir token now =>
      have hl := hlock dir rfl
      simp only [State.next] at h
      split at h
      · obtain rfl := Option.some.inj h
        exact edit_spec hl rfl rfl rfl (Or.inl ⟨rfl, rfl⟩) (Or.inl id) id (hknow dir rfl)
          (passes_same rfl rfl)
      · obtain rfl := Option.some.inj h
        exact leave_spec rfl rfl ⟨rfl, rfl⟩ (Or.inl id) id (passes_nothing rfl rfl)
  | publishing req dir token now =>
      have hl := hlock dir rfl
      simp only [State.next] at h
      split at h
      · obtain rfl := Option.some.inj h
        refine edit_spec hl rfl rfl rfl ?_ (Or.inl id) id ?_ (passes_same rfl rfl)
        · exact Or.inr (Or.inr ⟨req, token, now, rfl, rfl, rfl⟩)
        · intro found hf
          obtain rfl := Option.some.inj hf
          rfl
      · obtain rfl := Option.some.inj h
        exact leave_spec rfl rfl ⟨rfl, rfl⟩ (Or.inl id) id (passes_nothing rfl rfl)
  | published req dir token =>
      have hl := hlock dir rfl
      simp only [State.next] at h
      split at h
      · obtain rfl := Option.some.inj h
        exact leave_spec rfl rfl ⟨rfl, rfl⟩ (Or.inl id) id (passes_token rfl rfl)
      · obtain rfl := Option.some.inj h
        have hheld := @inside_spec s c (.published req dir token) (.held dir token) dir hl rfl rfl
          (hknow dir rfl) (passes_token rfl rfl)
        exact ⟨hheld.lock, hheld.taken, hheld.holder, hheld.target, hheld.lockFile, hheld.know,
          hheld.token, hheld.request, hheld.drawn⟩
  | handing dir token =>
      obtain rfl := Option.some.inj h
      have hdone := @outside_spec s c (.handing dir token) (.done (.detached dir token)) rfl rfl
        (passes_nothing rfl rfl)
      exact ⟨hdone.lock, hdone.taken, hdone.holder, hdone.target, hdone.lockFile, hdone.know,
        hdone.token, hdone.request, hdone.drawn⟩
  | opening dir token =>
      simp only [State.next] at h
      split at h
      · obtain rfl := Option.some.inj h
        exact outside_spec rfl rfl (passes_nothing rfl rfl)
      · split at h
        · obtain rfl := Option.some.inj h
          exact outside_spec rfl rfl (passes_nothing rfl rfl)
        · obtain rfl := Option.some.inj h
          exact outside_spec rfl rfl (passes_nothing rfl rfl)
  | relocking dir token =>
      simp only [State.next] at h
      split at h
      · obtain rfl := Option.some.inj h
        exact outside_spec rfl rfl (passes_nothing rfl rfl)
      · split at h
        · next hfree =>
            obtain rfl := Option.some.inj h
            exact take_spec rfl rfl hfree trivial (passes_nothing rfl rfl)
        · split at h
          · obtain rfl := Option.some.inj h
            exact outside_spec rfl rfl (passes_nothing rfl rfl)
          · obtain rfl := Option.some.inj h
            exact outside_spec rfl rfl (passes_nothing rfl rfl)
  | releasing via dir token =>
      have hl := hlock dir rfl
      simp only [State.next] at h
      split at h
      · obtain rfl := Option.some.inj h
        exact finish_spec rfl ⟨rfl, rfl, rfl, rfl⟩
      · obtain rfl := Option.some.inj h
        cases via with
        | slot => exact inside_spec hl rfl rfl (hknow dir rfl) (passes_same rfl rfl)
        | path => exact inside_spec hl rfl rfl trivial (passes_nothing rfl rfl)
  | comparing via dir token =>
      have hl := hlock dir rfl
      simp only [State.next] at h
      split at h
      · obtain rfl := Option.some.inj h
        exact finish_spec rfl ⟨rfl, rfl, rfl, rfl⟩
      · next hsame =>
          obtain rfl := Option.some.inj h
          have hown : ∀ found, (s.slots dir).holder = some found → found.claimToken = token := by
            intro found hf
            rw [hf] at hsame
            simp only [Option.all_some, Bool.or_eq_true, bne_iff_ne, not_or, not_not] at hsame
            exact hsame.2
          cases via with
          | slot => exact inside_spec hl rfl rfl hown (passes_same rfl rfl)
          | path => exact inside_spec hl rfl rfl hown (passes_nothing rfl rfl)
  | removing via dir token =>
      have hl := hlock dir rfl
      have hown : ∀ found, (s.slots dir).holder = some found → found.claimToken = token :=
        hknow dir rfl
      simp only [State.next] at h
      split at h
      · obtain rfl := Option.some.inj h
        exact giveUp_spec hl rfl (fun _ => hown) (by rintro rfl; rfl)
      · split at h
        · obtain rfl := Option.some.inj h
          exact finish_spec rfl ⟨rfl, rfl, rfl, rfl⟩
        · obtain rfl := Option.some.inj h
          have hgone : HolderStep c (.removing via dir token) dir (s.slots dir)
              (s.slots dir).clearHolder :=
            Or.inr (Or.inl ⟨rfl, Or.inl ⟨via, token, rfl⟩⟩)
          cases via with
          | slot =>
              refine edit_spec hl rfl rfl rfl hgone (Or.inl id) id ?_ (passes_same rfl rfl)
              intro found hf
              cases hf
          | path => exact edit_spec hl rfl rfl rfl hgone (Or.inl id) id trivial (passes_nothing rfl rfl)
  | marking via dir token =>
      have hl := hlock dir rfl
      simp only [State.next] at h
      split at h
      · obtain rfl := Option.some.inj h
        exact finish_spec rfl ⟨rfl, rfl, rfl, rfl⟩
      · obtain rfl := Option.some.inj h
        refine giveUp_spec hl rfl ?_ ?_
        · rintro rfl
          exact hknow dir rfl
        · rintro rfl
          rfl
  | walk sweep =>
      obtain ⟨policy, rows, rest⟩ := sweep
      cases rest with
      | nil =>
          obtain rfl := Option.some.inj h
          exact outside_spec rfl rfl (passes_nothing rfl rfl)
      | cons dir rest =>
          simp only [State.next] at h
          split at h
          · obtain rfl := Option.some.inj h
            exact outside_spec rfl rfl (passes_nothing rfl rfl)
          · split at h
            · obtain rfl := Option.some.inj h
              exact outside_spec rfl rfl (passes_nothing rfl rfl)
            · obtain rfl := Option.some.inj h
              exact outside_spec rfl rfl (passes_nothing rfl rfl)
  | gcLocking sweep dir =>
      simp only [State.next] at h
      split at h
      · obtain rfl := Option.some.inj h
        exact outside_spec rfl rfl (passes_nothing rfl rfl)
      · split at h
        · next hfree =>
            obtain rfl := Option.some.inj h
            exact take_spec rfl rfl hfree trivial (passes_nothing rfl rfl)
        · split at h
          · obtain rfl := Option.some.inj h
            exact outside_spec rfl rfl (passes_nothing rfl rfl)
          · obtain rfl := Option.some.inj h
            exact outside_spec rfl rfl (passes_nothing rfl rfl)
  | gcLocked sweep dir =>
      have hl := hlock dir rfl
      simp only [State.next] at h
      split at h
      · next hnone =>
          obtain rfl := Option.some.inj h
          refine inside_spec hl rfl rfl ?_ (passes_nothing rfl rfl)
          intro found hf
          rw [hnone] at hf
          cases hf
      · next found hfound =>
          obtain rfl := Option.some.inj h
          exact inside_spec hl rfl rfl hfound (passes_nothing rfl rfl)
  | gcProbing sweep dir found =>
      have hl := hlock dir rfl
      have hfound : (s.slots dir).holder = some found := hknow dir rfl
      simp only [State.next] at h
      split at h
      · obtain rfl := Option.some.inj h
        exact leave_spec rfl rfl ⟨rfl, rfl⟩ (Or.inl id) id (passes_nothing rfl rfl)
      · next hdead =>
          have hvacant : ∀ other, (s.slots dir).holder = some other → s.dead other.pid := by
            intro other hother
            obtain rfl : found = other := Option.some.inj (hfound.symm.trans hother)
            simpa [State.dead] using hdead
          split at h
          · obtain rfl := Option.some.inj h
            exact inside_spec hl rfl rfl hvacant (passes_nothing rfl rfl)
          · obtain rfl := Option.some.inj h
            exact inside_spec hl rfl rfl hvacant (passes_nothing rfl rfl)
  | gcClearing sweep dir =>
      have hl := hlock dir rfl
      simp only [State.next] at h
      split at h
      · obtain rfl := Option.some.inj h
        refine edit_spec hl rfl rfl rfl ?_ (Or.inl id) id ?_ (passes_nothing rfl rfl)
        · exact Or.inr (Or.inl ⟨rfl, Or.inr ⟨sweep, rfl⟩⟩)
        · intro found hf
          cases hf
      · obtain rfl := Option.some.inj h
        exact leave_spec rfl rfl ⟨rfl, rfl⟩ (Or.inl id) id (passes_nothing rfl rfl)
  | gcAging sweep dir cleared =>
      have hl := hlock dir rfl
      simp only [State.next] at h
      split at h
      · obtain rfl := Option.some.inj h
        exact leave_spec rfl rfl ⟨rfl, rfl⟩ (Or.inl id) id (passes_nothing rfl rfl)
      · split at h
        · obtain rfl := Option.some.inj h
          exact leave_spec rfl rfl ⟨rfl, rfl⟩ (Or.inl id) id (passes_nothing rfl rfl)
        · split at h
          · obtain rfl := Option.some.inj h
            exact leave_spec rfl rfl ⟨rfl, rfl⟩ (Or.inl id) id (passes_nothing rfl rfl)
          · obtain rfl := Option.some.inj h
            exact inside_spec hl rfl rfl (hknow dir rfl) (passes_nothing rfl rfl)
  | gcRemoving sweep dir =>
      simp only [State.next] at h
      split at h
      · obtain rfl := Option.some.inj h
        exact leave_spec rfl rfl ⟨rfl, rfl⟩ (Or.inr ⟨sweep, rfl⟩) id (passes_nothing rfl rfl)
      · obtain rfl := Option.some.inj h
        exact leave_spec rfl rfl ⟨rfl, rfl⟩ (Or.inl id) id (passes_nothing rfl rfl)

end Next

end Octos.BuildCache
