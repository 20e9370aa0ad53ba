import OsProjects.Banker.Run

/-!
Owns the accounting of claims: whether `need` stays what a customer may still
ask for, `maximum - allocation`.

A grant moves a request from `need` to `allocation`. A release takes from
`allocation` and leaves `need`, so every released amount is missing from the
customer's claim from then on. The drift of an entry is exactly the sum of the
amounts released so far.
-/

namespace OsProjects.Banker

open OsProjects.C

variable {customers resources : ℕ}

/-- A call with its arguments. -/
inductive Call (resources : ℕ) where
  | request (customer : Int) (request : Fin resources → Int)
  | release (customer : Int) (release : Fin resources → Int)

/-- The calls are made one after the other, and all of them return 0. -/
inductive AcceptedRun :
    State customers resources → List (Call resources) → State customers resources → Prop where
  | nil (s : State customers resources) : AcceptedRun s [] s
  | request {s middle after : State customers resources} {customer : Int}
      {request : Fin resources → Int} {calls : List (Call resources)}
      (call : requestResources customer request s = .ok (0, middle))
      (rest : AcceptedRun middle calls after) :
      AcceptedRun s (.request customer request :: calls) after
  | release {s middle after : State customers resources} {customer : Int}
      {release : Fin resources → Int} {calls : List (Call resources)}
      (call : releaseResources customer release s = .ok (0, middle))
      (rest : AcceptedRun middle calls after) :
      AcceptedRun s (.release customer release :: calls) after

/-- The remaining need is the declared maximum less what is held, so a customer
that holds nothing may ask for anything up to its maximum. -/
structure ClaimAccounting (s : State customers resources) : Prop where
  remaining : ∀ c r, s.need c r = s.maximum c r - s.allocation c r
  renewable : ∀ c, (∀ r, s.allocation c r = 0) →
    ∀ request : Fin resources → Int, (∀ r, request r ≤ s.maximum c r) →
      ∀ r, request r ≤ s.need c r

/-- What is missing from a customer's claim. -/
def drift (s : State customers resources) (c : Fin customers) (r : Fin resources) : Int :=
  s.maximum c r - s.allocation c r - s.need c r

/-- The amount of a resource that a customer releases in the calls. -/
def releasedAmount (c : Fin customers) (r : Fin resources) : List (Call resources) → Int
  | [] => 0
  | .request _ _ :: calls => releasedAmount c r calls
  | .release customer release :: calls =>
      (if customer = c then release r else 0) + releasedAmount c r calls

theorem claimAccounting_iff_drift (s : State customers resources) :
    ClaimAccounting s ↔ ∀ c r, drift s c r = 0 := by
  constructor
  · intro accounting c r
    have entry := accounting.remaining c r
    unfold drift
    omega
  · intro noDrift
    have remaining : ∀ c r, s.need c r = s.maximum c r - s.allocation c r := by
      intro c r
      have entry := noDrift c r
      unfold drift at entry
      omega
    refine ⟨remaining, ?_⟩
    intro c nothing request bounded r
    have entry := remaining c r
    have held := nothing r
    have bound := bounded r
    omega

theorem drift_granted (s : State customers resources) (c d : Fin customers)
    (request : Fin resources → Int) (r : Fin resources) :
    drift (s.granted c request) d r = drift s d r := by
  have maximumSame : (s.granted c request).maximum = s.maximum := rfl
  unfold drift
  rw [granted_allocation, granted_need, maximumSame]
  omega

theorem drift_released (s : State customers resources) (c d : Fin customers)
    (release : Fin resources → Int) (r : Fin resources) :
    drift (s.released c release) d r =
      drift s d r + if (c : Int) = d then release r else 0 := by
  have maximumSame : (s.released c release).maximum = s.maximum := rfl
  have owner : (c : Int) = d ↔ d = c := by
    rw [Fin.ext_iff]
    omega
  unfold drift
  rw [released_allocation, released_need, maximumSame]
  simp only [owner]
  omega

/-- Along a run of accepted calls the drift grows by what is released, and each
release has non-negative entries. -/
theorem AcceptedRun.drift {s after : State customers resources} {calls : List (Call resources)}
    (run : AcceptedRun s calls after) (sound : Sound s) :
    (∀ c r, drift after c r = drift s c r + releasedAmount c r calls) ∧
      ∀ customer release, Call.release customer release ∈ calls →
        (∃ c : Fin customers, customer = c) ∧ ∀ r, 0 ≤ release r := by
  induction run with
  | nil s =>
      exact ⟨fun c r => by simp [releasedAmount], fun _ _ member => by simp at member⟩
  | request call rest inductionHypothesis =>
      rcases (requestResources_eq_zero_iff sound).mp call with ⟨c, _, acceptable, _, result⟩
      subst result
      rcases inductionHypothesis (granted_sound sound acceptable) with ⟨grows, releases⟩
      refine ⟨fun d r => ?_, fun customer release member => ?_⟩
      · rw [grows d r, drift_granted]
        rfl
      · exact releases customer release (by simpa using member)
  | release call rest inductionHypothesis =>
      rcases (releaseResources_eq_zero_iff sound).mp call with ⟨c, same, good, result⟩
      subst result
      rcases inductionHypothesis (released_sound sound good) with ⟨grows, releases⟩
      refine ⟨fun d r => ?_, fun customer release member => ?_⟩
      · rw [grows d r, drift_released, releasedAmount, same]
        omega
      · rcases List.mem_cons.mp member with first | later
        · rcases Call.release.inj first with ⟨rfl, rfl⟩
          exact ⟨⟨c, same⟩, fun r => (good r).1⟩
        · exact releases customer release later

theorem releasedAmount_nonneg {calls : List (Call resources)}
    (nonneg : ∀ customer release, Call.release customer release ∈ calls → ∀ r, 0 ≤ release r)
    (c : Fin customers) (r : Fin resources) : 0 ≤ releasedAmount c r calls := by
  induction calls with
  | nil => exact le_rfl
  | cons call calls inductionHypothesis =>
      have rest := inductionHypothesis (fun customer release member =>
        nonneg customer release (List.mem_cons_of_mem _ member))
      cases call with
      | request customer request => exact rest
      | release customer release =>
          have entry := nonneg customer release (by simp) r
          unfold releasedAmount
          split <;> omega

/-- The released amounts of all customers vanish exactly when no release has a
nonzero entry. -/
theorem releasedAmount_eq_zero_iff {calls : List (Call resources)}
    (releases : ∀ customer release, Call.release customer release ∈ calls →
      (∃ c : Fin customers, customer = c) ∧ ∀ r, 0 ≤ release r) :
    (∀ (c : Fin customers) r, releasedAmount c r calls = 0) ↔
      ∀ customer release, Call.release customer release ∈ calls → ∀ r, release r = 0 := by
  induction calls with
  | nil => simp [releasedAmount]
  | cons call calls inductionHypothesis =>
      have restReleases : ∀ customer release, Call.release customer release ∈ calls →
          (∃ c : Fin customers, customer = c) ∧ ∀ r, 0 ≤ release r :=
        fun customer release member => releases customer release (List.mem_cons_of_mem _ member)
      have rest := inductionHypothesis restReleases
      cases call with
      | request customer request =>
          simp only [releasedAmount, List.mem_cons, reduceCtorEq, false_or]
          exact rest
      | release customer release =>
          rcases releases customer release (by simp) with ⟨⟨owner, rfl⟩, entries⟩
          constructor
          · intro noReturns
            have split : ∀ (c : Fin customers) r,
                (if (owner : Int) = c then release r else 0) = 0 ∧
                  releasedAmount c r calls = 0 := by
              intro c r
              have entry := entries r
              have later := releasedAmount_nonneg
                (fun customer release member => (restReleases customer release member).2) c r
              have sum := noReturns c r
              unfold releasedAmount at sum
              split_ifs at sum ⊢ <;> omega
            intro customer other member r
            rcases List.mem_cons.mp member with first | later
            · rcases Call.release.inj first with ⟨rfl, rfl⟩
              simpa using (split owner r).1
            · exact rest.mp (fun c r => (split c r).2) customer other later r
          · intro zero c r
            have later := rest.mpr (fun customer other member =>
              zero customer other (List.mem_cons_of_mem _ member)) c r
            have entry := zero owner release (by simp) r
            simp [releasedAmount, entry, later]

/-- After a run of accepted calls from `init`, the accounting of claims is right
exactly when no call of the run has released anything. -/
theorem claimAccounting_iff {initial after : State customers resources}
    {calls : List (Call resources)} (built : BuiltByInit initial)
    (run : AcceptedRun initial calls after) :
    ClaimAccounting after ↔
      ∀ customer release, Call.release customer release ∈ calls → ∀ r, release r = 0 := by
  obtain ⟨_, _, needEq, allocationZero⟩ := built.eq
  rcases run.drift built.sound with ⟨grows, releases⟩
  have noDrift : ∀ c r, drift initial c r = 0 := by
    intro c r
    simp [drift, needEq, allocationZero]
  rw [claimAccounting_iff_drift, ← releasedAmount_eq_zero_iff releases]
  refine forall_congr' fun c => forall_congr' fun r => ?_
  rw [grows c r, noDrift, zero_add]

/-- The first two calls of the documented run. -/
theorem demo_run_accepted :
    AcceptedRun demoState [.request 0 ![3, 1, 2, 1], .release 0 ![1, 1, 0, 1]]
      ((demoState.granted 0 ![3, 1, 2, 1]).released 0 ![1, 1, 0, 1]) :=
  .request demoState_granted (.release demoState_released (.nil _))

/-- After them customer 0 needs 3 of resource 0, although it holds 2 of 6. -/
theorem claimAccounting_fails_demo :
    BuiltByInit demoState ∧
      ∃ after,
        AcceptedRun demoState [.request 0 ![3, 1, 2, 1], .release 0 ![1, 1, 0, 1]] after ∧
          ¬ ClaimAccounting after := by
  refine ⟨demoState_safeStart.built, _, demo_run_accepted, fun accounting => ?_⟩
  exact absurd (accounting.remaining 0 0) (by decide)

theorem claimAccounting_iff_demo :
    ¬ ClaimAccounting ((demoState.granted 0 ![3, 1, 2, 1]).released 0 ![1, 1, 0, 1]) := by
  rw [claimAccounting_iff demoState_safeStart.built demo_run_accepted]
  intro noReturns
  exact absurd (noReturns 0 ![1, 1, 0, 1] (by simp) 0) (by decide)

end OsProjects.Banker
