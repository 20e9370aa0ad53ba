import OsProjects.Banker.Release

/-!
Owns the runs of the banker: the states that requests and accepted releases can
reach from a state built by `init`, and what holds in all of them.

`Consistent` is the invariant. One request or accepted release preserves it
(`Consistent.request`, `Consistent.release`), and a run is an induction over
its steps. The accounting of claims is followed along a run by the amounts it
has released.
-/

namespace OsProjects.Banker

open OsProjects.C
open OsProjects.Theory

variable {customers resources : ℕ}

/-- The state is the one a successful `init` leaves behind. -/
def BuiltByInit (initial : State customers resources) : Prop :=
  ∃ argc argv numbers, (∀ r, IsInt (argv r)) ∧ (∀ c r, IsInt (numbers c r)) ∧
    init argc argv (some numbers) (State.zero customers resources) = (0, initial)

/-- A start of the banker: built by `init` from non-negative numbers, and safe. -/
structure SafeStart (initial : State customers resources) : Prop where
  built : BuiltByInit initial
  availableNonneg : ∀ r, 0 ≤ initial.available r
  maximumNonneg : ∀ c r, 0 ≤ initial.maximum c r
  safe : isSafe initial = .ok (1, initial)

/-- The states reached by requests, granted or refused, and by releases that
return 0. -/
inductive Reachable (initial : State customers resources) : State customers resources → Prop where
  | start : Reachable initial initial
  | request {s after : State customers resources} {customer code : Int}
      {request : Fin resources → Int} (before : Reachable initial s)
      (call : requestResources customer request s = .ok (code, after)) : Reachable initial after
  | release {s after : State customers resources} {customer : Int}
      {release : Fin resources → Int} (before : Reachable initial s)
      (call : releaseResources customer release s = .ok (0, after)) : Reachable initial after

/-! ## The invariant -/

/-- The entries are non-negative numbers that fit, resources are neither lost
nor created, and the ledger is safe. -/
structure Consistent (initial s : State customers resources) : Prop extends Sound s where
  conserved : ∀ r, s.available r + ∑ c, s.allocation c r = initial.available r
  availableNonneg : ∀ r, 0 ≤ s.available r
  needNonneg : ∀ c r, 0 ≤ s.need c r
  safe : s.ledger.Safe

theorem BuiltByInit.eq {initial : State customers resources} (built : BuiltByInit initial) :
    (∀ r, IsInt (initial.available r)) ∧ (∀ c r, IsInt (initial.maximum c r)) ∧
      (∀ c r, initial.need c r = initial.maximum c r) ∧
        ∀ c r, initial.allocation c r = 0 := by
  obtain ⟨argc, argv, numbers, argvInt, numbersInt, run⟩ := built
  unfold init at run
  split at run
  · simp at run
  · simp only [Prod.mk.injEq, true_and] at run
    subst run
    exact ⟨argvInt, numbersInt, fun _ _ => rfl, fun _ _ => rfl⟩

theorem BuiltByInit.sound {initial : State customers resources} (built : BuiltByInit initial) :
    Sound initial := by
  obtain ⟨availableInt, maximumInt, needEq, allocationZero⟩ := built.eq
  refine ⟨⟨?_, fun r => (availableInt r).1, ?_⟩, ?_, ?_⟩
  · intro c r
    rw [allocationZero]
  · intro r
    simp only [allocationZero, Finset.sum_const_zero, add_zero]
    exact (availableInt r).2
  · intro c r
    rw [allocationZero]
    decide
  · intro c r
    rw [needEq]
    exact maximumInt c r

theorem SafeStart.consistent {initial : State customers resources} (start : SafeStart initial) :
    Consistent initial initial := by
  have sound := start.built.sound
  obtain ⟨_, _, needEq, allocationZero⟩ := start.built.eq
  refine ⟨sound, ?_, start.availableNonneg, ?_, ?_⟩
  · intro r
    simp [allocationZero]
  · intro c r
    rw [needEq]
    exact start.maximumNonneg c r
  · exact safe_of_tested sound.toSumsFit start.safe

section Steps

variable {initial s : State customers resources} {c : Fin customers}

/-- A granted request keeps the invariant: the safety test has just succeeded. -/
theorem Consistent.granted (consistent : Consistent initial s) {request : Fin resources → Int}
    (acceptable : Acceptable s c request) (safe : (s.granted c request).ledger.Safe) :
    Consistent initial (s.granted c request) := by
  refine ⟨granted_sound consistent.toSound acceptable, ?_, ?_, ?_, safe⟩
  · intro r
    rw [granted_total]
    exact consistent.conserved r
  · intro r
    have inStock := (acceptable r).2.2
    rw [granted_available]
    omega
  · intro d r
    have needed := (acceptable r).2.1
    have own := consistent.needNonneg d r
    rw [granted_need]
    by_cases same : d = c
    · subst same
      rw [if_pos rfl]
      omega
    · rwa [if_neg same, sub_zero]

/-- An accepted release keeps the invariant, although no test is made. -/
theorem Consistent.released (consistent : Consistent initial s) {release : Fin resources → Int}
    (good : ∀ r, Returnable s c release r) : Consistent initial (s.released c release) := by
  refine ⟨released_sound consistent.toSound good, ?_, ?_, consistent.needNonneg, ?_⟩
  · intro r
    rw [released_total]
    exact consistent.conserved r
  · intro r
    have amount := (good r).1
    have own := consistent.availableNonneg r
    rw [released_available]
    omega
  · rw [released_ledger]
    exact Ledger.release_safe (fun r => (good r).1) consistent.safe

theorem Consistent.request (consistent : Consistent initial s) {after : State customers resources}
    {customer code : Int} {request : Fin resources → Int}
    (call : requestResources customer request s = .ok (code, after)) :
    Consistent initial after := by
  by_cases grantable : Grantable s customer request
  · obtain ⟨c, rfl, acceptable, safe⟩ := grantable
    rw [requestResources_granted consistent.toSound acceptable safe] at call
    simp only [Except.ok.injEq, Prod.mk.injEq] at call
    rw [← call.2]
    exact consistent.granted acceptable safe
  · rcases requestResources_refused consistent.toSound grantable with ⟨refusal, _, run⟩
    rw [run] at call
    simp only [Except.ok.injEq, Prod.mk.injEq] at call
    rw [← call.2]
    exact consistent

theorem Consistent.release (consistent : Consistent initial s) {after : State customers resources}
    {customer : Int} {release : Fin resources → Int}
    (call : releaseResources customer release s = .ok (0, after)) :
    Consistent initial after := by
  rcases (releaseResources_eq_zero_iff consistent.toSound).mp call with ⟨c, _, good, result⟩
  rw [result]
  exact consistent.released good

end Steps

/-- The invariant holds along every run. -/
theorem Reachable.consistent {initial s : State customers resources} (start : SafeStart initial)
    (reachable : Reachable initial s) : Consistent initial s := by
  induction reachable with
  | start => exact start.consistent
  | request _ call inductionHypothesis => exact inductionHypothesis.request call
  | release _ call inductionHypothesis => exact inductionHypothesis.release call

theorem requestResources_defined {s : State customers resources} (sound : Sound s)
    (customer : Int) (request : Fin resources → Int) :
    ∃ code after, requestResources customer request s = .ok (code, after) := by
  by_cases grantable : Grantable s customer request
  · obtain ⟨c, rfl, acceptable, safe⟩ := grantable
    exact ⟨0, _, requestResources_granted sound acceptable safe⟩
  · rcases requestResources_refused sound grantable with ⟨code, _, run⟩
    exact ⟨code, s, run⟩

/-- What holds in every state of a run: the resources add up to the initial
ones, no entry is negative, the state is safe, and no call overflows. -/
structure RunInvariant (initial s : State customers resources) : Prop where
  conserved : ∀ r, s.available r + ∑ c, s.allocation c r = initial.available r
  availableNonneg : ∀ r, 0 ≤ s.available r
  allocationNonneg : ∀ c r, 0 ≤ s.allocation c r
  needNonneg : ∀ c r, 0 ≤ s.need c r
  requestDefined : ∀ customer request, ∃ code after,
    requestResources customer request s = .ok (code, after)
  releaseNoOverflow : ∀ customer release,
    releaseResources customer release s ≠ .error .overflow
  tested : isSafe s = .ok (1, s)
  safe : ∃ order, SafeOrder s order

theorem reachable_runInvariant {initial s : State customers resources}
    (start : SafeStart initial) (reachable : Reachable initial s) :
    RunInvariant initial s := by
  have consistent := reachable.consistent start
  exact
    { conserved := consistent.conserved
      availableNonneg := consistent.availableNonneg
      allocationNonneg := consistent.allocationNonneg
      needNonneg := consistent.needNonneg
      requestDefined := requestResources_defined consistent.toSound
      releaseNoOverflow := fun customer _ =>
        releaseResources_no_overflow consistent.toSound customer
      tested := isSafe_of_safe consistent.toSumsFit consistent.safe
      safe := (safe_iff_safeOrder s).mp consistent.safe }

theorem demoState_safeStart : SafeStart demoState where
  built := ⟨5, ![10, 6, 7, 8], shippedMaximum, by decide, by decide, rfl⟩
  availableNonneg := by decide
  maximumNonneg := by decide
  safe := rfl

theorem demoState_acceptable : Acceptable demoState 0 ![3, 1, 2, 1] := by
  unfold Acceptable
  decide

theorem demoState_granted :
    requestResources 0 ![3, 1, 2, 1] demoState = .ok (0, demoState.granted 0 ![3, 1, 2, 1]) := by
  have sound := demoState_safeStart.built.sound
  have safe := safe_of_tested (granted_sound sound demoState_acceptable).toSumsFit rfl
  exact requestResources_granted sound demoState_acceptable safe

theorem demoState_released :
    releaseResources 0 ![1, 1, 0, 1] (demoState.granted 0 ![3, 1, 2, 1]) =
      .ok (0, (demoState.granted 0 ![3, 1, 2, 1]).released 0 ![1, 1, 0, 1]) := by
  have sound := granted_sound demoState_safeStart.built.sound demoState_acceptable
  have good : ∀ r, Returnable (demoState.granted 0 ![3, 1, 2, 1]) 0 ![1, 1, 0, 1] r := by
    unfold Returnable
    decide
  exact releaseResources_accepted sound good

/-- The run of the documentation: a request of customer 0 from the start. -/
theorem reachable_runInvariant_demo :
    ∃ code after, requestResources 0 ![3, 1, 2, 1] demoState = .ok (code, after) ∧
      RunInvariant demoState after := by
  obtain ⟨code, after, call⟩ :=
    requestResources_defined demoState_safeStart.built.sound 0 ![3, 1, 2, 1]
  exact ⟨code, after, call,
    reachable_runInvariant demoState_safeStart (.request .start call)⟩

end OsProjects.Banker
