import Mathlib.Algebra.BigOperators.Group.Finset.Piecewise
import Mathlib.Algebra.Order.BigOperators.Group.Finset
import OsProjects.Banker.SafetyTest

/-!
Owns the exact behaviour of `request_resources`.

While the loop runs, the state is the initial one with the request moved at the
resources chosen so far: an iteration adds one resource to the choice, a
rollback step removes one. So a refusal at any resource, or by the safety test
after all of them, leads back to the empty choice, which is the initial state.
-/

namespace OsProjects.Banker

open OsProjects.C
open OsProjects.Theory

variable {customers resources : ℕ}

/-- The entries are values of `int`, and the sums of allocations fit. -/
structure Sound (s : State customers resources) : Prop extends SumsFit s where
  allocationUpper : ∀ c r, s.allocation c r ≤ intMax
  needInt : ∀ c r, IsInt (s.need c r)

/-- The request moved from `available` and `need` to `allocation` at the chosen
resources only. -/
def State.moved (s : State customers resources) (c : Fin customers)
    (request : Fin resources → Int) (chosen : Fin resources → Bool) :
    State customers resources where
  available := fun r => if chosen r then s.available r - request r else s.available r
  maximum := s.maximum
  allocation := Function.update s.allocation c fun r =>
    if chosen r then s.allocation c r + request r else s.allocation c r
  need := Function.update s.need c fun r =>
    if chosen r then s.need c r - request r else s.need c r

/-- The whole request moved. -/
def State.granted (s : State customers resources) (c : Fin customers)
    (request : Fin resources → Int) : State customers resources :=
  s.moved c request fun _ => true

/-- The checks of the loop of `request_resources` hold at every resource. -/
def Acceptable (s : State customers resources) (c : Fin customers)
    (request : Fin resources → Int) : Prop :=
  ∀ r, 0 ≤ request r ∧ request r ≤ s.need c r ∧ request r ≤ s.available r

section Moved

variable {s : State customers resources} {c : Fin customers} {request : Fin resources → Int}

theorem moved_none : s.moved c request (fun _ => false) = s := by
  simp [State.moved]

theorem granted_ledger : (s.granted c request).ledger = s.ledger.grant c request := by
  simp only [State.granted, State.moved, State.ledger, Ledger.grant, if_true]
  rfl

@[simp] theorem granted_available (r : Fin resources) :
    (s.granted c request).available r = s.available r - request r := by
  simp [State.granted, State.moved]

theorem granted_allocation (d : Fin customers) (r : Fin resources) :
    (s.granted c request).allocation d r =
      s.allocation d r + if d = c then request r else 0 := by
  by_cases same : d = c
  · subst same
    simp [State.granted, State.moved]
  · simp [State.granted, State.moved, same]

theorem granted_need (d : Fin customers) (r : Fin resources) :
    (s.granted c request).need d r = s.need d r - if d = c then request r else 0 := by
  by_cases same : d = c
  · subst same
    simp [State.granted, State.moved]
  · simp [State.granted, State.moved, same]

/-- Replacing the entry `i` of a row chosen by cases is choosing `i` as well. -/
theorem update_choice {taken left : Fin resources → Int} {chosen : Fin resources → Bool}
    {i : Fin resources} (value : Bool) :
    Function.update (fun r => if chosen r then taken r else left r) i
        (if value then taken i else left i) =
      fun r => if Function.update chosen i value r then taken r else left r := by
  funext r
  by_cases here : r = i
  · subst here
    simp
  · simp [here]

theorem allocateAt_moved {chosen : Fin resources → Bool} {i : ℕ} (below : i < resources)
    (fresh : chosen ⟨i, below⟩ = false)
    (availableFits : IsInt (s.available ⟨i, below⟩ - request ⟨i, below⟩))
    (allocationFits : IsInt (s.allocation c ⟨i, below⟩ + request ⟨i, below⟩))
    (needFits : IsInt (s.need c ⟨i, below⟩ - request ⟨i, below⟩)) :
    allocateAt c request i (s.moved c request chosen) =
      .ok (s.moved c request (Function.update chosen ⟨i, below⟩ true)) := by
  have availableAt : (s.moved c request chosen).available ⟨i, below⟩ =
      s.available ⟨i, below⟩ := by simp [State.moved, fresh]
  have allocationAt : (s.moved c request chosen).allocation c ⟨i, below⟩ =
      s.allocation c ⟨i, below⟩ := by simp [State.moved, fresh]
  have needAt : (s.moved c request chosen).need c ⟨i, below⟩ =
      s.need c ⟨i, below⟩ := by simp [State.moved, fresh]
  rw [allocateAt, read_natCast _ below, ok_bind,
    subAt_ok _ below (by rwa [availableAt]), ok_bind,
    addAt₂_ok _ c.isLt below (by rwa [allocationAt]), ok_bind,
    subAt₂_ok _ c.isLt below (by rwa [needAt]), ok_bind, availableAt, Fin.eta, allocationAt,
    needAt, pure_eq_ok]
  congr 1
  apply State.ext
  · exact update_choice true
  · rfl
  · simp only [State.moved, Function.update_self, Function.update_idem]
    exact congrArg _ (update_choice true)
  · simp only [State.moved, Function.update_self, Function.update_idem]
    exact congrArg _ (update_choice true)

theorem rollbackAt_moved {chosen : Fin resources → Bool} {i : ℕ} (below : i < resources)
    (taken : chosen ⟨i, below⟩ = true) (availableFits : IsInt (s.available ⟨i, below⟩))
    (allocationFits : IsInt (s.allocation c ⟨i, below⟩))
    (needFits : IsInt (s.need c ⟨i, below⟩)) :
    rollbackAt c request i (s.moved c request chosen) =
      .ok (s.moved c request (Function.update chosen ⟨i, below⟩ false)) := by
  have availableAt : (s.moved c request chosen).available ⟨i, below⟩ + request ⟨i, below⟩ =
      s.available ⟨i, below⟩ := by simp [State.moved, taken]
  have allocationAt : (s.moved c request chosen).allocation c ⟨i, below⟩ - request ⟨i, below⟩ =
      s.allocation c ⟨i, below⟩ := by simp [State.moved, taken]
  have needAt : (s.moved c request chosen).need c ⟨i, below⟩ + request ⟨i, below⟩ =
      s.need c ⟨i, below⟩ := by simp [State.moved, taken]
  rw [rollbackAt, read_natCast _ below, ok_bind,
    addAt_ok _ below (by rwa [availableAt]), ok_bind,
    subAt₂_ok _ c.isLt below (by rwa [allocationAt]), ok_bind,
    addAt₂_ok _ c.isLt below (by rwa [needAt]), ok_bind, availableAt, Fin.eta, allocationAt,
    needAt, pure_eq_ok]
  congr 1
  apply State.ext
  · exact update_choice false
  · rfl
  · simp only [State.moved, Function.update_self, Function.update_idem]
    exact congrArg _ (update_choice false)
  · simp only [State.moved, Function.update_self, Function.update_idem]
    exact congrArg _ (update_choice false)

/-! ## The choices of the loops -/

/-- The resources below `k`. -/
def firstResources (k : ℕ) (r : Fin resources) : Bool := decide (r.val < k)

/-- The resources from `k` on. -/
def lastResources (k : ℕ) (r : Fin resources) : Bool := decide (k ≤ r.val)

theorem firstResources_succ {i : ℕ} (below : i < resources) :
    Function.update (firstResources i) (⟨i, below⟩ : Fin resources) true =
      firstResources (i + 1) := by
  funext r
  by_cases here : r = ⟨i, below⟩
  · subst here
    simp [firstResources]
  · have notHere : r.val ≠ i := fun same => here (Fin.ext same)
    have bounds : r.val < i + 1 ↔ r.val < i := by omega
    simp [firstResources, here, bounds]

theorem firstResources_pred {i : ℕ} (below : i < resources) :
    Function.update (firstResources (i + 1)) (⟨i, below⟩ : Fin resources) false =
      firstResources i := by
  rw [← firstResources_succ below, Function.update_idem]
  apply Function.update_eq_iff.mpr
  simp [firstResources]

theorem lastResources_succ {i : ℕ} (below : i < resources) :
    Function.update (lastResources i) (⟨i, below⟩ : Fin resources) false =
      lastResources (i + 1) := by
  funext r
  by_cases here : r = ⟨i, below⟩
  · subst here
    simp [lastResources]
  · have notHere : r.val ≠ i := fun same => here (Fin.ext same)
    have bounds : i + 1 ≤ r.val ↔ i ≤ r.val := by omega
    simp [lastResources, here, bounds]

theorem firstResources_zero : (firstResources 0 : Fin resources → Bool) = fun _ => false := by
  funext r
  simp [firstResources]

theorem firstResources_all :
    (firstResources resources : Fin resources → Bool) = fun _ => true := by
  funext r
  simp [firstResources]

theorem lastResources_zero : (lastResources 0 : Fin resources → Bool) = fun _ => true := by
  funext r
  simp [lastResources]

theorem lastResources_all :
    (lastResources resources : Fin resources → Bool) = fun _ => false := by
  funext r
  simp [lastResources]

end Moved

/-! ## The exact outcome of a request -/

section Outcome

variable {s : State customers resources} {c : Fin customers} {request : Fin resources → Int}

theorem Sound.availableInt (sound : Sound s) (r : Fin resources) : IsInt (s.available r) := by
  have held : 0 ≤ ∑ c, s.allocation c r :=
    Finset.sum_nonneg fun c _ => sound.allocationNonneg c r
  have total := sound.totalUpper r
  exact ⟨sound.availableLower r, by omega⟩

theorem Sound.allocationInt (sound : Sound s) (c : Fin customers) (r : Fin resources) :
    IsInt (s.allocation c r) :=
  isInt_of_nonneg (sound.allocationNonneg c r) (sound.allocationUpper c r)

/-- One customer's holding fits beside what is available. -/
theorem Sound.available_add_allocation (sound : Sound s) (c : Fin customers)
    (r : Fin resources) : s.available r + s.allocation c r ≤ intMax := by
  have single : s.allocation c r ≤ ∑ d, s.allocation d r :=
    Finset.single_le_sum (fun d _ => sound.allocationNonneg d r) (Finset.mem_univ c)
  have total := sound.totalUpper r
  omega

/-- The rollback inside the loop undoes the resources taken so far. -/
theorem rollback_first (sound : Sound s) {k : ℕ} (le : k ≤ resources) :
    whileDecrement (rollbackAt c request) k (s.moved c request (firstResources k)) = .ok s := by
  have run : whileDecrement (rollbackAt c request) k (s.moved c request (firstResources k)) =
      .ok (s.moved c request (firstResources 0)) := by
    apply whileDecrement_eq (fun i => s.moved c request (firstResources i))
    intro i earlier
    have below : i < resources := earlier.trans_le le
    rw [rollbackAt_moved below (by simp [firstResources]) (sound.availableInt _)
      (sound.allocationInt c _) (sound.needInt c _), firstResources_pred below]
  rwa [firstResources_zero, moved_none] at run

/-- The rollback after a failed safety test undoes the whole request. -/
theorem rollback_granted (sound : Sound s) :
    forEach (rollbackAt c request) resources 0 (s.granted c request) = .ok s := by
  have run : forEach (rollbackAt c request) resources 0
      (s.moved c request (lastResources 0)) =
        .ok (s.moved c request (lastResources resources)) := by
    apply forEach_eq (fun i => s.moved c request (lastResources i))
    intro i below
    rw [rollbackAt_moved below (by simp [lastResources]) (sound.availableInt _)
      (sound.allocationInt c _) (sound.needInt c _), lastResources_succ below]
  rwa [lastResources_zero, lastResources_all, moved_none] at run

/-- The loop sees at index `i` the entries of the initial state. -/
theorem moved_first_entries (s : State customers resources) (c : Fin customers)
    (request : Fin resources → Int) {i : ℕ} (below : i < resources) :
    (s.moved c request (firstResources i)).available ⟨i, below⟩ = s.available ⟨i, below⟩ ∧
      (s.moved c request (firstResources i)).need c ⟨i, below⟩ = s.need c ⟨i, below⟩ := by
  constructor <;> simp [State.moved, firstResources]

theorem requestBody_next (sound : Sound s) {i : ℕ} (below : i < resources)
    (nonneg : 0 ≤ request ⟨i, below⟩) (needed : request ⟨i, below⟩ ≤ s.need c ⟨i, below⟩)
    (inStock : request ⟨i, below⟩ ≤ s.available ⟨i, below⟩) :
    requestBody c request i (s.moved c request (firstResources i)) =
      .ok (.next (s.moved c request (firstResources (i + 1)))) := by
  rcases moved_first_entries s c request below with ⟨availableAt, needAt⟩
  have availableInt := sound.availableInt ⟨i, below⟩
  have allocationInt := sound.allocationInt c ⟨i, below⟩
  have needInt := sound.needInt c ⟨i, below⟩
  have together := sound.available_add_allocation c ⟨i, below⟩
  have step : allocateAt c request i (s.moved c request (firstResources i)) =
      .ok (s.moved c request (Function.update (firstResources i) ⟨i, below⟩ true)) :=
    allocateAt_moved below (by simp [firstResources])
    (isInt_of_between isInt_zero availableInt (by omega) (by omega))
    (isInt_of_between isInt_zero ⟨by decide, le_rfl⟩
      (add_nonneg (sound.allocationNonneg c _) nonneg) (by omega))
    (isInt_of_between isInt_zero needInt (by omega) (by omega))
  have noError : ¬ (request ⟨i, below⟩ < 0 ∨ request ⟨i, below⟩ > s.need c ⟨i, below⟩) := by omega
  have noShortage : ¬ request ⟨i, below⟩ > s.available ⟨i, below⟩ := by omega
  simp [requestBody, below, availableAt, needAt, noError, noShortage, step,
    firstResources_succ below]

theorem requestBody_refuses (sound : Sound s) {i : ℕ} (below : i < resources)
    (bad : ¬ (0 ≤ request ⟨i, below⟩ ∧ request ⟨i, below⟩ ≤ s.need c ⟨i, below⟩ ∧
      request ⟨i, below⟩ ≤ s.available ⟨i, below⟩)) :
    ∃ code, code ≠ 0 ∧
      requestBody c request i (s.moved c request (firstResources i)) =
        .ok (.exit (code, s)) := by
  rcases moved_first_entries s c request below with ⟨availableAt, needAt⟩
  have undone : whileDecrement (rollbackAt c request) i
      (s.moved c request (firstResources i)) = .ok s := rollback_first sound below.le
  by_cases shortage : request ⟨i, below⟩ > s.available ⟨i, below⟩
  · refine ⟨-2, by decide, ?_⟩
    simp [requestBody, below, availableAt, needAt, shortage, undone]
  · have error : request ⟨i, below⟩ < 0 ∨ request ⟨i, below⟩ > s.need c ⟨i, below⟩ := by omega
    refine ⟨-1, by decide, ?_⟩
    simp [requestBody, below, availableAt, needAt, shortage, error, undone]

theorem requestLoop_next (sound : Sound s) (acceptable : Acceptable s c request) :
    forLoop (requestBody c request) resources 0 s = .ok (.next (s.granted c request)) := by
  have run : forLoop (requestBody c request) resources 0
      (s.moved c request (firstResources 0)) =
        .ok (.next (s.moved c request (firstResources resources))) := by
    apply forLoop_next (fun i => s.moved c request (firstResources i))
    intro i below
    rcases acceptable ⟨i, below⟩ with ⟨nonneg, needed, inStock⟩
    exact requestBody_next sound below nonneg needed inStock
  rwa [firstResources_zero, firstResources_all, moved_none] at run

theorem requestLoop_refuses (sound : Sound s) (bad : ¬ Acceptable s c request) :
    ∃ code, code ≠ 0 ∧
      forLoop (requestBody c request) resources 0 s = .ok (.exit (code, s)) := by
  have steps : ∀ i : Fin resources,
      0 ≤ request i ∧ request i ≤ s.need c i ∧ request i ≤ s.available i →
        requestBody c request i (s.moved c request (firstResources i)) =
          .ok (.next (s.moved c request (firstResources (i + 1)))) := by
    rintro i ⟨nonneg, needed, inStock⟩
    exact requestBody_next sound i.isLt nonneg needed inStock
  rcases forLoop_first (fun i => s.moved c request (firstResources i)) steps bad with
    ⟨i, entry, _, exits, _⟩
  rcases requestBody_refuses sound i.isLt entry with ⟨code, nonzero, leaves⟩
  refine ⟨code, nonzero, ?_⟩
  have run := exits _ leaves
  rwa [firstResources_zero, moved_none] at run

/-- A sum over the customers changes by the change of the one row replaced. -/
theorem sum_update_row (matrix : Fin customers → Fin resources → Int) (c : Fin customers)
    (row : Fin resources → Int) (r : Fin resources) :
    ∑ d, Function.update matrix c row d r = ∑ d, matrix d r + (row r - matrix c r) := by
  have pointwise : ∀ d, Function.update matrix c row d r =
      matrix d r + if d = c then row r - matrix c r else 0 := by
    intro d
    by_cases same : d = c
    · subst same
      simp
    · simp [same]
  rw [Finset.sum_congr rfl fun d _ => pointwise d, Finset.sum_add_distrib]
  simp

/-- A grant moves resources and loses none. -/
theorem granted_total (r : Fin resources) :
    (s.granted c request).available r + ∑ d, (s.granted c request).allocation d r =
      s.available r + ∑ d, s.allocation d r := by
  simp only [State.granted, State.moved, if_true, sum_update_row]
  omega

theorem granted_sound (sound : Sound s) (acceptable : Acceptable s c request) :
    Sound (s.granted c request) := by
  refine ⟨⟨?_, ?_, ?_⟩, ?_, ?_⟩
  · intro d r
    have old := sound.allocationNonneg d r
    have amount := (acceptable r).1
    rw [granted_allocation]
    split <;> omega
  · intro r
    have bounds := acceptable r
    rw [granted_available, intMin]
    omega
  · intro r
    rw [granted_total]
    exact sound.totalUpper r
  · intro d r
    have together := sound.available_add_allocation d r
    have own := sound.allocationUpper d r
    have bounds := acceptable r
    rw [granted_allocation]
    split <;> omega
  · intro d r
    have own := sound.needInt d r
    have bounds := acceptable r
    rw [granted_need]
    by_cases same : d = c
    · subst same
      rw [if_pos rfl]
      exact isInt_of_between isInt_zero own (by omega) (by omega)
    · rwa [if_neg same, sub_zero]

/-- A customer number that passes the check is the index of a customer. -/
theorem customer_cases (customers : ℕ) (customer : Int) :
    (customer < 0 ∨ customer ≥ customers) ∨ ∃ c : Fin customers, customer = c := by
  by_cases outside : customer < 0 ∨ customer ≥ customers
  · exact Or.inl outside
  · refine Or.inr ⟨⟨customer.toNat, by omega⟩, ?_⟩
    simp only [Int.toNat_of_nonneg (show 0 ≤ customer by omega)]

theorem requestResources_granted (sound : Sound s) (acceptable : Acceptable s c request)
    (safe : (s.granted c request).ledger.Safe) :
    requestResources c request s = .ok (0, s.granted c request) := by
  have test := isSafe_of_safe (granted_sound sound acceptable).toSumsFit safe
  simp [requestResources, requestLoop_next sound acceptable, test]

/-- The customer exists, the checks of the loop hold, and the state with the
request moved is safe. -/
def Grantable (s : State customers resources) (customer : Int)
    (request : Fin resources → Int) : Prop :=
  ∃ c : Fin customers, customer = c ∧ Acceptable s c request ∧
    (s.granted c request).ledger.Safe

/-- A request that is not granted leaves the state as it was. -/
theorem requestResources_refused (sound : Sound s) {customer : Int}
    (refused : ¬ Grantable s customer request) :
    ∃ code, code ≠ 0 ∧ requestResources customer request s = .ok (code, s) := by
  rcases customer_cases customers customer with outside | ⟨c, rfl⟩
  · exact ⟨-1, by decide, if_pos outside⟩
  · by_cases acceptable : Acceptable s c request
    · have notSafe : ¬ (s.granted c request).ledger.Safe := fun safe =>
        refused ⟨c, rfl, acceptable, safe⟩
      have test := isSafe_of_not_safe (granted_sound sound acceptable).toSumsFit notSafe
      refine ⟨-3, by decide, ?_⟩
      simp [requestResources, requestLoop_next sound acceptable, test,
        rollback_granted sound]
    · rcases requestLoop_refuses sound acceptable with ⟨code, nonzero, run⟩
      refine ⟨code, nonzero, ?_⟩
      simp [requestResources, run]

/-- The call returns 0 exactly when the request is grantable, and then the new
state has the request moved. -/
theorem requestResources_eq_zero_iff (sound : Sound s) {customer : Int}
    {after : State customers resources} :
    requestResources customer request s = .ok (0, after) ↔
      ∃ c : Fin customers, customer = c ∧ Acceptable s c request ∧
        (s.granted c request).ledger.Safe ∧ after = s.granted c request := by
  constructor
  · intro run
    by_cases grantable : Grantable s customer request
    · obtain ⟨c, rfl, acceptable, safe⟩ := grantable
      rw [requestResources_granted sound acceptable safe] at run
      simp only [Except.ok.injEq, Prod.mk.injEq, true_and] at run
      exact ⟨c, rfl, acceptable, safe, run.symm⟩
    · rcases requestResources_refused sound grantable with ⟨code, nonzero, refusal⟩
      rw [refusal] at run
      simp only [Except.ok.injEq, Prod.mk.injEq] at run
      exact absurd run.1 nonzero
  · intro ⟨c, same, acceptable, safe, result⟩
    rw [same, result]
    exact requestResources_granted sound acceptable safe

end Outcome

end OsProjects.Banker
