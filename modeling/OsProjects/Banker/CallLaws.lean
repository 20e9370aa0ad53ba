import OsProjects.Banker.ArrivalOrder
import OsProjects.Banker.Release

/-!
Owns the laws of the two calls on states without negative entries: what a
request returns and leaves, requests split in two, and releases made before or
after a request.

Each law compares states that differ by moves of one customer's row. The moves
themselves commute and add up; what is left to show is that the safety test of
a state that only one side visits succeeds. There the ledger helps: taking back
a part of a grant, and returning an amount, keep a safe ledger safe.
-/

namespace OsProjects.Banker

open OsProjects.C
open OsProjects.Theory

variable {customers resources : ℕ}

/-- No entry is negative, the needs are values of `int`, and so is what exists
of each resource. -/
structure Solvent (s : State customers resources) : Prop extends NonNegative s where
  allocation : ∀ c r, 0 ≤ s.allocation c r
  needUpper : ∀ c r, s.need c r ≤ intMax
  total : ∀ r, s.available r + ∑ c, s.allocation c r ≤ intMax

theorem Solvent.sound {s : State customers resources} (solvent : Solvent s) : Sound s where
  allocationNonneg := solvent.allocation
  availableLower := fun r => le_trans (by decide) (solvent.available r)
  totalUpper := solvent.total
  allocationUpper := by
    intro c r
    have single : s.allocation c r ≤ ∑ d, s.allocation d r :=
      Finset.single_le_sum (fun d _ => solvent.allocation d r) (Finset.mem_univ c)
    have total := solvent.total r
    have stock := solvent.available r
    omega
  needInt := fun c r => isInt_of_nonneg (solvent.need c r) (solvent.needUpper c r)

theorem demoState_solvent : Solvent demoState where
  available := by decide
  need := by decide
  allocation := by decide
  needUpper := by decide
  total := by decide

/-! ## One request -/

/-- What a request does is decided by its entries and by the safety of the state
it would lead to. -/
theorem requestResources_exact (s : State customers resources) (solvent : Solvent s)
    (customer : Int) (request : Fin resources → Int) :
    ∃ code after, requestResources customer request s = .ok (code, after) ∧
      (code = 0 ↔
        ∃ c : Fin customers, customer = c ∧
          (∀ r, 0 ≤ request r ∧ request r ≤ s.need c r ∧ request r ≤ s.available r) ∧
          ∃ order, SafeOrder (s.granted c request) order) ∧
      (code = 0 →
        ∃ c : Fin customers, customer = c ∧ after = s.granted c request ∧
          after.maximum = s.maximum ∧
          ∀ d, d ≠ c → after.allocation d = s.allocation d ∧ after.need d = s.need d) ∧
      (code ≠ 0 → after = s) := by
  by_cases grantable : Grantable s customer request
  · obtain ⟨c, rfl, acceptable, safe⟩ := grantable
    have orderExists := (safe_iff_safeOrder _).mp safe
    refine ⟨0, s.granted c request, requestResources_granted solvent.sound acceptable safe,
      iff_of_true rfl ⟨c, rfl, acceptable, orderExists⟩, fun _ => ⟨c, rfl, rfl, rfl, ?_⟩,
      fun nonzero => absurd rfl nonzero⟩
    intro d different
    constructor
    · exact Function.update_of_ne different _ _
    · exact Function.update_of_ne different _ _
  · rcases requestResources_refused solvent.sound grantable with ⟨code, nonzero, run⟩
    refine ⟨code, s, run, iff_of_false nonzero ?_, fun zero => absurd zero nonzero,
      fun _ => rfl⟩
    rintro ⟨c, same, acceptable, orderExists⟩
    exact grantable ⟨c, same, acceptable, (safe_iff_safeOrder _).mpr orderExists⟩

theorem requestResources_exact_demo :
    ∃ code after, requestResources 0 ![3, 1, 2, 1] demoState = .ok (code, after) ∧
      (code = 0 ↔
        ∃ c : Fin numberOfCustomers, (0 : Int) = c ∧
          (∀ r, 0 ≤ (![3, 1, 2, 1] : Fin numberOfResources → Int) r ∧
            (![3, 1, 2, 1] : Fin numberOfResources → Int) r ≤ demoState.need c r ∧
            (![3, 1, 2, 1] : Fin numberOfResources → Int) r ≤ demoState.available r) ∧
          ∃ order, SafeOrder (demoState.granted c ![3, 1, 2, 1]) order) ∧
      (code = 0 →
        ∃ c : Fin numberOfCustomers, (0 : Int) = c ∧
          after = demoState.granted c ![3, 1, 2, 1] ∧
          after.maximum = demoState.maximum ∧
          ∀ d, d ≠ c → after.allocation d = demoState.allocation d ∧
            after.need d = demoState.need d) ∧
      (code ≠ 0 → after = demoState) :=
  requestResources_exact demoState demoState_solvent 0 ![3, 1, 2, 1]

/-! ## A request in two parts -/

section Parts

variable {s : State customers resources} {c : Fin customers}
  {first second : Fin resources → Int}

/-- Moves for one customer add up. -/
theorem granted_add :
    s.granted c (first + second) = (s.granted c first).granted c second := by
  apply State.ext
  · funext r
    simp only [granted_available, Pi.add_apply]
    omega
  · rfl
  · funext d r
    simp only [granted_allocation, Pi.add_apply]
    split <;> omega
  · funext d r
    simp only [granted_need, Pi.add_apply]
    split <;> omega

/-- The entries of non-negative parts pass the checks one after the other exactly
when the entries of the sum do. -/
theorem acceptable_add_iff (firstNonneg : ∀ r, 0 ≤ first r) (secondNonneg : ∀ r, 0 ≤ second r) :
    Acceptable s c (first + second) ↔
      Acceptable s c first ∧ Acceptable (s.granted c first) c second := by
  simp only [Acceptable, granted_available, granted_need, if_true, Pi.add_apply]
  rw [← forall_and]
  apply forall_congr'
  intro r
  have firstEntry := firstNonneg r
  have secondEntry := secondNonneg r
  omega

/-- The state between the two parts, which the undivided request never visits,
is safe when the last state is. -/
theorem granted_safe_of_add (secondNonneg : ∀ r, 0 ≤ second r)
    (safe : (s.granted c (first + second)).ledger.Safe) : (s.granted c first).ledger.Safe := by
  rw [granted_add, granted_ledger] at safe
  exact Ledger.safe_of_grant secondNonneg safe

end Parts

/-- A request is granted exactly when its two parts are granted one after the
other, and both ways lead to the same state. -/
theorem request_in_parts (s : State customers resources) (solvent : Solvent s)
    (customer : Int) (first second : Fin resources → Int) (firstNonneg : ∀ r, 0 ≤ first r)
    (secondNonneg : ∀ r, 0 ≤ second r) (after : State customers resources) :
    requestResources customer (first + second) s = .ok (0, after) ↔
      ∃ middle, requestResources customer first s = .ok (0, middle) ∧
        requestResources customer second middle = .ok (0, after) := by
  constructor
  · intro whole
    obtain ⟨c, rfl, acceptable, safe, rfl⟩ :=
      (requestResources_eq_zero_iff solvent.sound).mp whole
    rcases (acceptable_add_iff firstNonneg secondNonneg).mp acceptable with
      ⟨firstAcceptable, secondAcceptable⟩
    refine ⟨s.granted c first, ?_, ?_⟩
    · exact requestResources_granted solvent.sound firstAcceptable
        (granted_safe_of_add secondNonneg safe)
    · rw [granted_add] at safe ⊢
      exact requestResources_granted (granted_sound solvent.sound firstAcceptable)
        secondAcceptable safe
  · rintro ⟨middle, firstCall, secondCall⟩
    obtain ⟨c, rfl, firstAcceptable, _, rfl⟩ :=
      (requestResources_eq_zero_iff solvent.sound).mp firstCall
    obtain ⟨d, same, secondAcceptable, safe, rfl⟩ :=
      (requestResources_eq_zero_iff (granted_sound solvent.sound firstAcceptable)).mp secondCall
    obtain rfl : c = d := Fin.ext (by omega)
    rw [← granted_add] at safe ⊢
    exact requestResources_granted solvent.sound
      ((acceptable_add_iff firstNonneg secondNonneg).mpr ⟨firstAcceptable, secondAcceptable⟩) safe

theorem request_in_parts_demo :
    ∃ middle, requestResources 0 ![2, 0, 2, 1] demoState = .ok (0, middle) ∧
      requestResources 0 ![1, 1, 0, 0] middle =
        .ok (0, demoState.granted 0 (![2, 0, 2, 1] + ![1, 1, 0, 0])) := by
  have acceptable : Acceptable demoState 0 (![2, 0, 2, 1] + ![1, 1, 0, 0]) := by
    unfold Acceptable
    decide
  have safe := safe_of_tested (granted_sound demoState_solvent.sound acceptable).toSumsFit rfl
  have whole : requestResources 0 (![2, 0, 2, 1] + ![1, 1, 0, 0]) demoState =
      .ok (0, demoState.granted 0 (![2, 0, 2, 1] + ![1, 1, 0, 0])) :=
    requestResources_granted demoState_solvent.sound acceptable safe
  exact (request_in_parts demoState demoState_solvent 0 ![2, 0, 2, 1] ![1, 1, 0, 0]
    (by decide) (by decide) _).mp whole

/-! ## A release beside a request -/

section Beside

variable {s : State customers resources} {c d : Fin customers}
  {request release : Fin resources → Int}

/-- A grant and a return move different amounts, so their order does not show. -/
theorem granted_released_comm :
    (s.granted c request).released d release = (s.released d release).granted c request := by
  apply State.ext
  · funext r
    simp only [granted_available, released_available]
    omega
  · rfl
  · funext e r
    simp only [granted_allocation, released_allocation]
    omega
  · funext e r
    simp only [granted_need, released_need]

/-- A release leaves the needs and only raises the stock. -/
theorem acceptable_released (returnable : ∀ r, Returnable s d release r)
    (acceptable : Acceptable s c request) : Acceptable (s.released d release) c request := by
  intro r
  have entry := acceptable r
  have amount := (returnable r).1
  rw [released_available, released_need]
  omega

/-- A grant only raises allocations. -/
theorem returnable_granted (acceptable : Acceptable s c request)
    (returnable : ∀ r, Returnable s d release r) (r : Fin resources) :
    Returnable (s.granted c request) d release r := by
  have entry := (acceptable r).1
  have held := returnable r
  unfold Returnable at held ⊢
  rw [granted_allocation]
  split <;> omega

/-- The state after both calls is safe: it is the safe state after the request
with an amount returned. -/
theorem released_granted_safe (returnable : ∀ r, Returnable s d release r)
    (safe : (s.granted c request).ledger.Safe) :
    ((s.released d release).granted c request).ledger.Safe := by
  rw [← granted_released_comm, released_ledger]
  exact Ledger.release_safe (fun r => (returnable r).1) safe

end Beside

/-- A request and a release that would each be accepted are accepted in either
order, with the same result. -/
theorem request_release_commute (s : State customers resources) (solvent : Solvent s)
    (customer holder : Int) (request release : Fin resources → Int)
    {granted released : State customers resources}
    (grants : requestResources customer request s = .ok (0, granted))
    (releases : releaseResources holder release s = .ok (0, released)) :
    ∃ after, requestResources customer request released = .ok (0, after) ∧
      releaseResources holder release granted = .ok (0, after) := by
  obtain ⟨c, rfl, acceptable, safe, rfl⟩ :=
    (requestResources_eq_zero_iff solvent.sound).mp grants
  obtain ⟨d, rfl, returnable, rfl⟩ := (releaseResources_eq_zero_iff solvent.sound).mp releases
  refine ⟨(s.granted c request).released d release, ?_, ?_⟩
  · rw [granted_released_comm]
    exact requestResources_granted (released_sound solvent.sound returnable)
      (acceptable_released returnable acceptable) (released_granted_safe returnable safe)
  · exact releaseResources_accepted (granted_sound solvent.sound acceptable)
      (returnable_granted acceptable returnable)

/-- Customer 1 asks while customer 0 gives back a part of what it holds. -/
theorem request_release_commute_demo :
    ∃ after,
      requestResources 1 ![1, 0, 0, 0]
          ((demoState.granted 0 ![3, 1, 2, 1]).released 0 ![1, 1, 0, 1]) = .ok (0, after) ∧
        releaseResources 0 ![1, 1, 0, 1]
            ((demoState.granted 0 ![3, 1, 2, 1]).granted 1 ![1, 0, 0, 0]) = .ok (0, after) := by
  have solvent : Solvent (demoState.granted 0 ![3, 1, 2, 1]) :=
    ⟨⟨by decide, by decide⟩, by decide, by decide, by decide⟩
  have acceptable : Acceptable (demoState.granted 0 ![3, 1, 2, 1]) 1 ![1, 0, 0, 0] := by
    unfold Acceptable
    decide
  have safe := safe_of_tested (granted_sound solvent.sound acceptable).toSumsFit rfl
  have returnable : ∀ r, Returnable (demoState.granted 0 ![3, 1, 2, 1]) 0 ![1, 1, 0, 1] r := by
    unfold Returnable
    decide
  exact request_release_commute _ solvent 1 0 ![1, 0, 0, 0] ![1, 1, 0, 1]
    (requestResources_granted solvent.sound acceptable safe)
    (releaseResources_accepted solvent.sound returnable)

end OsProjects.Banker
