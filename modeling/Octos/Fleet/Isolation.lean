/-
# `Octos.Fleet.Isolation` — fleets do not touch each other

All fleets share four tables.  Children are keyed by fleet and child id,
attempts by child and attempt id only, and several calls scan a whole table and
filter.  What keeps fleets apart is that a safe id contains no control
character, so that `\0` cuts a composite key in one way only: the keys are
injective and the prefix scan of a re-plan finds exactly the rows of its fleet,
also when two fleets share child ids or one fleet id is a prefix of the other.

A call addresses a fleet by its id; `mark_running` has no fleet argument and
addresses the fleet of the attempt it finds.
-/
import Octos.Fleet.Evolve

namespace Octos.Fleet

variable {f g : String} {t t' : Tables} {s s' : Store}

/-- The fleet a call is addressed to. -/
def Op.Addresses (t : Tables) (f : String) : Op → Prop
  | .createFleet fleetId _ _ _ _ _ _ => fleetId = f
  | .createPlan plan => plan.fleetId = f
  | .createFleetWithPlan _ _ _ _ _ _ plan _ => plan.fleetId = f
  | .addChild fleetId _ _ _ => fleetId = f
  | .markReady fleetId _ _ => fleetId = f
  | .resolveAndCollectReady fleetId _ => fleetId = f
  | .cancelFleet fleetId _ => fleetId = f
  | .launchChild fleetId _ _ _ _ _ _ _ => fleetId = f
  | .markRunning childId attemptId =>
      ∃ att, t.attempts[attemptKey childId attemptId]? = some att ∧ att.fleetId = f
  | .completeChild fleetId _ _ _ _ _ _ _ _ => fleetId = f
  | .recordEscalation fleetId _ _ _ _ _ _ _ => fleetId = f
  | .replan fleetId _ _ _ => fleetId = f
  | .retitleTask fleetId _ _ _ _ => fleetId = f
  | .setTaskGrant fleetId _ _ _ _ => fleetId = f
  | .denyEscalation fleetId _ _ _ _ => fleetId = f
  | .reconcile _ _ => False
  | .appendEvent event => event.fleetId = f
  | .claimNext _ _ _ _ => False
  | .ack _ _ _ => False
  | .appendDecision fleetId _ _ _ _ => fleetId = f

/-- `mark_running` works in the fleet of its attempt. -/
theorem Effect.run_inv {c aid : String} (hwf : WellFormed t) (he : Effect f (.run c aid) t t') :
    ∃ att, t.attempts[attemptKey c aid]? = some att ∧ att.fleetId = f := by
  cases he with
  | move _ hch hslot hmove =>
      obtain ⟨hf, -⟩ := hwf.child_ids hch
      cases hmove with
      | @run att =>
          obtain ⟨haf, hac, hrow⟩ := hslot
          refine ⟨att, ?_, haf.trans hf⟩
          rw [← hac]
          exact hrow

/-- Whatever a call does, it does to the fleet it addresses. -/
theorem Step.addressed {call : Call} (hinv : Inv s.toTables) (h : Step s call s')
    (haddr : call.op.Addresses s.toTables f) :
    Effects (fun h _ => h = f) s.toTables s'.toTables := by
  have heffects := h.effects hinv
  obtain ⟨op, ret⟩ := call
  cases op with
  | markRunning c aid =>
      obtain ⟨att, hatt, rfl⟩ := haddr
      rcases h.cases with ⟨r, -, hrun⟩ | ⟨e, -, -, rfl⟩
      · obtain ⟨o, hcall, -⟩ := tagged_ok.mp hrun
        rcases markRunning_spec hinv hcall with ⟨-, rfl⟩ | ⟨-, ⟨g, he⟩, -⟩
        · exact .refl
        · obtain ⟨att', hatt', rfl⟩ := he.run_inv hinv.wf
          obtain rfl := Option.some.inj (hatt.symm.trans hatt')
          exact .single rfl he
      · exact .refl
  | reconcile => exact absurd haddr id
  | claimNext => exact absurd haddr id
  | ack => exact absurd haddr id
  | appendEvent => exact heffects.mono (fun _ _ hk => absurd hk id)
  | appendDecision => exact heffects.mono (fun _ _ hk => absurd hk id)
  | _ => exact heffects.mono (fun _ _ hk => hk.1.trans haddr)

theorem decisionKey_inj {m n : U64} (hf : keyComponentIsSafe f = true)
    (hg : keyComponentIsSafe g = true) : decisionKey f m = decisionKey g n ↔ f = g ∧ m = n := by
  unfold decisionKey
  rw [join_inj hf hg]
  refine and_congr_right ?_
  intro _
  exact ⟨fun h => outboxKey_inj h, fun h => by rw [h]⟩

/-- **Fleet isolation.**  In every reachable state, a call addressed to one
fleet leaves the fleet row, the plan, the children and the attempts of every
other fleet as they were.  Composite keys of safe ids are injective, and the
prefix scan of a re-plan finds exactly the rows of its fleet. -/
theorem fleet_isolation (h : StoreReachable s) :
    (∀ call s' f g, Step s call s' → call.op.Addresses s.toTables f → g ≠ f →
      SameRows g s.toTables s'.toTables) ∧
    (∀ f c f' c', keyComponentIsSafe f = true → keyComponentIsSafe c = true →
      keyComponentIsSafe f' = true → keyComponentIsSafe c' = true →
      (childKey f c = childKey f' c' ↔ f = f' ∧ c = c') ∧
      (attemptKey f c = attemptKey f' c' ↔ f = f' ∧ c = c') ∧
      ∀ m n, decisionKey f m = decisionKey f' n ↔ f = f' ∧ m = n) ∧
    (∀ f ch, keyComponentIsSafe f = true →
      (ch ∈ existingChildren f s.children ↔
        ch.fleetId = f ∧ ∃ k : String, s.children[k]? = some ch)) := by
  have hinv := h.inv
  refine ⟨?_, ?_, ?_⟩
  · intro call s' f g hstep haddr hne
    refine (hstep.addressed hinv haddr).frame hinv ?_
    rintro h k rfl heq
    exact hne heq.symm
  · intro f c f' c' hf _ hf' _
    exact ⟨childKey_inj hf hf', attemptKey_inj hf hf', fun _ _ => decisionKey_inj hf hf'⟩
  · intro f ch hf
    rw [mem_existingChildren hinv.wf hf]
    refine and_congr_right ?_
    rintro rfl
    exact ⟨fun hch => ⟨_, hch⟩, fun ⟨k, hch⟩ => hinv.wf.child_key hch⟩

/-- Two fleets, one id a prefix of the other, with the same child id. -/
def prefixFleets : List Op :=
  [.createFleet "f" ⟨"ctl"⟩ none "default" 100 false 0,
   .createFleet "ff" ⟨"ctl"⟩ none "default" 100 false 0,
   .addChild "f" "c1" [] 0,
   .addChild "ff" "c1" [] 0,
   .launchChild "f" "c1" 10 1 7 1000 "a1" "e1",
   .launchChild "ff" "c1" 10 1 7 1000 "a2" "e2"]

theorem fleet_isolation_prefix :
    SameRows "ff" (execAll prefixFleets Store.empty).toTables
      ((Op.markRunning "c1" "a1").exec (execAll prefixFleets Store.empty)).2.toTables := by
  have hatt : ∃ att, (execAll prefixFleets Store.empty).attempts[attemptKey "c1" "a1"]? =
      some att ∧ decide (att.fleetId = "f") = true :=
    (Option.any_eq_true _ _).mp (by rfl)
  obtain ⟨att, hrow, hf⟩ := hatt
  exact (fleet_isolation (reachable_execAll (by rfl))).1
    ⟨.markRunning "c1" "a1", _⟩ _ "f" "ff" ⟨trivial, rfl⟩ ⟨att, hrow, of_decide_eq_true hf⟩
    (by decide)

end Octos.Fleet
