/-
# `Octos.Fleet.Readiness` — dependency safety

A child becomes launchable in many places: at creation, by `mark_ready` or the
collect loop, after a grant, after recovery, and when a re-plan restarts it.
Whatever the order, a child that may run, runs, or waits for the operator has
every dependency succeeded, also against the dependency list a re-plan has just
given it.  The plans behind it need not be acyclic, nor even name existing
tasks.
-/
import Octos.Fleet.Evolve

namespace Octos.Fleet

/-- Every dependency of the child is a succeeded child of its fleet. -/
def DepsSucceeded (t : Tables) (ch : FleetChildRecord) : Prop :=
  ∀ d ∈ ch.deps, ∃ dep, t.children[childKey ch.fleetId d]? = some dep ∧
    dep.fleetId = ch.fleetId ∧ dep.childId = d ∧ dep.status = .succeeded

theorem Inv.depsSucceeded {t : Tables} (h : Inv t) {k : String} {ch : FleetChildRecord}
    (hch : t.children[k]? = some ch) (hg : ch.status.gated = true) : DepsSucceeded t ch := by
  intro d hd
  obtain ⟨dep, hdep, hst⟩ := h.ready _ _ hch hg d hd
  obtain ⟨hf, hc⟩ := h.wf.child_ids hdep
  exact ⟨dep, hdep, hf, hc, hst⟩

/-- A launch finds its child `Ready`. -/
theorem Effect.launch_inv {f c a : String} {t t' : Tables} (hwf : WellFormed t)
    (he : Effect f (.launch c a) t t') :
    ∃ ch, t.children[childKey f c]? = some ch ∧ ch.status = .ready := by
  cases he with
  | move hfl hch hslot hmove =>
      have hid := (hwf.child_ids hch).2
      cases hmove with
      | launch _ _ hst => exact ⟨_, hid ▸ hch, hst⟩

/-- **Dependency safety.**  In every reachable state a `Ready`, `Launching`,
`Running` or `Blocked` child has all its dependencies succeeded, and a launch
only ever starts such a child. -/
theorem dependency_safety {s : Store} (h : StoreReachable s) :
    (∀ (k : String) (ch : FleetChildRecord), s.children[k]? = some ch →
      (ch.status = .ready ∨ ch.status = .launching ∨ ch.status = .running ∨
        ch.status = .blocked) → DepsSucceeded s.toTables ch) ∧
    (∀ (f c : String) (projected nowMs epoch ttl : U64) (aid eid a : String) (s' : Store),
      Step s ⟨.launchChild f c projected nowMs epoch ttl aid eid, .ok (.launch (.launched a))⟩ s' →
      ∃ ch, s.children[childKey f c]? = some ch ∧ DepsSucceeded s.toTables ch) := by
  have hinv := h.inv
  refine ⟨?_, ?_⟩
  · intro k ch hch hst
    refine hinv.depsSucceeded hch ?_
    rcases hst with h | h | h | h <;> simp [h, ChildStatus.gated]
  · intro f c projected nowMs epoch ttl aid eid a s' hstep
    obtain ⟨o, hrun, ho⟩ := tagged_ok.mp hstep.run_ok
    rcases launchChild_spec hinv hstep.1 hrun with ⟨hne, -⟩ | ⟨-, he, -⟩
    · exact absurd (Ret.launch.inj ho).symm (hne a)
    · obtain ⟨ch, hch, hst⟩ := he.launch_inv hinv.wf
      exact ⟨ch, hch, hinv.depsSucceeded hch (by simp [hst, ChildStatus.gated])⟩

/-- A two-task chain whose second task is promoted once the first succeeded. -/
def chainOps : List Op :=
  [.createFleet "f1" ⟨"ctl"⟩ none "default" 100 false 0,
   .addChild "f1" "c1" [] 0,
   .addChild "f1" "c2" ["c1"] 0,
   .launchChild "f1" "c1" 40 1 7 1000 "a1" "e1",
   .markRunning "c1" "a1",
   .completeChild "f1" "c1" "a1" (.accepted []) ⟨"", true, 30, [], none⟩ 30 7 2 "e2",
   .markReady "f1" "c2" 3]

theorem dependency_safety_chain :
    StoreReachable (execAll chainOps Store.empty) ∧
      (∃ ch, (execAll chainOps Store.empty).children[childKey "f1" "c2"]? = some ch ∧
        ch.status = .ready ∧ ch.deps = ["c1"] ∧
        DepsSucceeded (execAll chainOps Store.empty).toTables ch) := by
  have h : StoreReachable (execAll chainOps Store.empty) :=
    reachable_execAll (by rfl)
  have hrow : (execAll chainOps Store.empty).children[childKey "f1" "c2"]?.any
      (fun ch => decide (ch.status = .ready ∧ ch.deps = ["c1"])) = true := by
    rfl
  obtain ⟨ch, hch, hp⟩ := (Option.any_eq_true _ _).mp hrow
  obtain ⟨hst, hdeps⟩ := of_decide_eq_true hp
  exact ⟨h, ch, hch, hst, hdeps, (dependency_safety h).1 _ _ hch (Or.inl hst)⟩

end Octos.Fleet
