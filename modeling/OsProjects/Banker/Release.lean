import OsProjects.Banker.Request

/-!
Owns the exact behaviour of `release_resources`.

An accepted release moves every entry from `allocation` to `available`. A
rejection at entry 0 changes nothing. A rejection at a later entry enters the
rollback, which restores `allocation` one entry too low: its last iteration
accesses `release[-1]` and `allocation[customer][-1]`.
-/

namespace OsProjects.Banker

open OsProjects.C
open OsProjects.Theory

variable {customers resources : ℕ}

/-- The release taken out of `allocation` at one choice of resources and added
to `available` at another. Between two iterations of the loop the choices agree;
during the rollback they do not. -/
def State.returned (s : State customers resources) (c : Fin customers)
    (release : Fin resources → Int) (taken added : Fin resources → Bool) :
    State customers resources where
  available := fun r => if added r then s.available r + release r else s.available r
  maximum := s.maximum
  allocation := Function.update s.allocation c fun r =>
    if taken r then s.allocation c r - release r else s.allocation c r
  need := s.need

/-- The whole release returned. -/
def State.released (s : State customers resources) (c : Fin customers)
    (release : Fin resources → Int) : State customers resources :=
  s.returned c release (fun _ => true) fun _ => true

/-- The entry passes the check of the loop of `release_resources`. -/
def Returnable (s : State customers resources) (c : Fin customers)
    (release : Fin resources → Int) (r : Fin resources) : Prop :=
  0 ≤ release r ∧ release r ≤ s.allocation c r

/-- The loop rejects entry `k`: the earlier entries pass the check and their
additions to `available` fit in an `int`. -/
def RejectsAt (s : State customers resources) (c : Fin customers)
    (release : Fin resources → Int) (k : Fin resources) : Prop :=
  ¬ Returnable s c release k ∧
    ∀ j, j < k → Returnable s c release j ∧ s.available j + release j ≤ intMax

section Outcome

variable {s : State customers resources} {c : Fin customers} {release : Fin resources → Int}

theorem returned_none : s.returned c release (fun _ => false) (fun _ => false) = s := by
  simp [State.returned]

theorem released_ledger : (s.released c release).ledger = s.ledger.release c release := by
  simp only [State.released, State.returned, State.ledger, Ledger.release, if_true]
  rfl

@[simp] theorem released_available (r : Fin resources) :
    (s.released c release).available r = s.available r + release r := by
  simp [State.released, State.returned]

theorem released_allocation (d : Fin customers) (r : Fin resources) :
    (s.released c release).allocation d r =
      s.allocation d r - if d = c then release r else 0 := by
  by_cases same : d = c
  · subst same
    simp [State.released, State.returned]
  · simp [State.released, State.returned, same]

@[simp] theorem released_need : (s.released c release).need = s.need := rfl

/-! ## One iteration -/

/-- The loop sees at index `i` the entries of the initial state. -/
theorem returned_first_entries (s : State customers resources) (c : Fin customers)
    (release : Fin resources → Int) {i : ℕ} (below : i < resources) :
    (s.returned c release (firstResources i) (firstResources i)).available ⟨i, below⟩ =
        s.available ⟨i, below⟩ ∧
      (s.returned c release (firstResources i) (firstResources i)).allocation c ⟨i, below⟩ =
        s.allocation c ⟨i, below⟩ := by
  constructor <;> simp [State.returned, firstResources]

theorem returnable_iff_passes {r : Fin resources} :
    Returnable s c release r ↔ ¬ (release r < 0 ∨ release r > s.allocation c r) := by
  unfold Returnable
  omega

theorem Returnable.rest_int {r : Fin resources} (good : Returnable s c release r)
    (held : IsInt (s.allocation c r)) : IsInt (s.allocation c r - release r) := by
  have lower := good.1
  have upper := good.2
  exact isInt_of_between isInt_zero held (by omega) (by omega)

theorem releaseBody_next (availableInt : ∀ r, IsInt (s.available r))
    (allocationInt : ∀ c r, IsInt (s.allocation c r))
    {i : ℕ} (below : i < resources) (good : Returnable s c release ⟨i, below⟩)
    (fits : s.available ⟨i, below⟩ + release ⟨i, below⟩ ≤ intMax) :
    releaseBody c release i
        (s.returned c release (firstResources i) (firstResources i)) =
      .ok (.next (s.returned c release (firstResources (i + 1)) (firstResources (i + 1)))) := by
  rcases returned_first_entries s c release below with ⟨availableAt, allocationAt⟩
  have passes := returnable_iff_passes.mp good
  have restInt := good.rest_int (allocationInt c _)
  have sumInt : IsInt (s.available ⟨i, below⟩ + release ⟨i, below⟩) :=
    ⟨(availableInt _).1.trans (le_add_of_nonneg_right good.1), fits⟩
  rw [releaseBody, read_natCast _ below, ok_bind, read_natCast _ c.isLt, ok_bind, Fin.eta,
    read_natCast _ below, ok_bind, allocationAt, if_neg passes,
    subAt₂_ok _ c.isLt below (by rwa [Fin.eta, allocationAt]), ok_bind,
    addAt_ok _ below (by rwa [availableAt]), ok_bind, availableAt, Fin.eta, allocationAt,
    pure_eq_ok, ← firstResources_succ below]
  congr 2
  apply State.ext
  · exact update_choice true
  · rfl
  · simp only [State.returned, Function.update_self, Function.update_idem]
    exact congrArg _ (update_choice true)
  · rfl

theorem releaseBody_overflow (allocationInt : ∀ c r, IsInt (s.allocation c r)) {i : ℕ}
    (below : i < resources) (good : Returnable s c release ⟨i, below⟩)
    (large : ¬ s.available ⟨i, below⟩ + release ⟨i, below⟩ ≤ intMax) :
    releaseBody c release i
        (s.returned c release (firstResources i) (firstResources i)) = .error .overflow := by
  rcases returned_first_entries s c release below with ⟨availableAt, allocationAt⟩
  have passes := returnable_iff_passes.mp good
  have restInt := good.rest_int (allocationInt c _)
  rw [releaseBody, read_natCast _ below, ok_bind, read_natCast _ c.isLt, ok_bind, Fin.eta,
    read_natCast _ below, ok_bind, allocationAt, if_neg passes,
    subAt₂_ok _ c.isLt below (by rwa [Fin.eta, allocationAt]), ok_bind,
    addAt_overflow _ below (by rw [availableAt]; exact fun sumInt => large sumInt.2), error_bind]

/-! ## The rollback -/

/-- The rollback from `k` with `index` iterations left. The allocation at
`k - 1` stays reduced: no iteration restores it. -/
def rollingBack (s : State customers resources) (c : Fin customers)
    (release : Fin resources → Int) (k index : ℕ) : State customers resources :=
  s.returned c release (fun r => decide (r.val + 1 < index ∨ r.val + 1 = k))
    (firstResources index)

theorem rollingBack_start {k : ℕ} :
    rollingBack s c release k k =
      s.returned c release (firstResources k) (firstResources k) := by
  unfold rollingBack
  congr 1
  funext r
  simp only [firstResources]
  congr 1
  exact propext ⟨fun _ => by omega, fun _ => by omega⟩

/-- An iteration with `i > 0` restores `allocation[i - 1]` and `available[i]`. -/
theorem releaseRollbackAt_rollingBack (availableInt : ∀ r, IsInt (s.available r))
    (allocationInt : ∀ c r, IsInt (s.allocation c r)) {k i : ℕ} (positive : 0 < i)
    (earlier : i < k) (le : k ≤ resources) :
    releaseRollbackAt c release i (rollingBack s c release k (i + 1)) =
      .ok (rollingBack s c release k i) := by
  have below : i < resources := earlier.trans_le le
  have belowPred : i - 1 < resources := by omega
  have index : (i : Int) - 1 = ((i - 1 : ℕ) : Int) := by omega
  have allocationAt : (rollingBack s c release k (i + 1)).allocation c ⟨i - 1, belowPred⟩ +
      release ⟨i - 1, belowPred⟩ = s.allocation c ⟨i - 1, belowPred⟩ := by
    simp [rollingBack, State.returned, positive]
  have availableAt : (rollingBack s c release k (i + 1)).available ⟨i, below⟩ -
      release ⟨i, below⟩ = s.available ⟨i, below⟩ := by
    simp [rollingBack, State.returned, firstResources]
  have taken : Function.update
      (fun r : Fin resources => decide (r.val + 1 < i + 1 ∨ r.val + 1 = k)) ⟨i - 1, belowPred⟩
        false = fun r => decide (r.val + 1 < i ∨ r.val + 1 = k) := by
    funext r
    by_cases here : r = ⟨i - 1, belowPred⟩
    · subst here
      have notLast : ¬ (i - 1 + 1 < i ∨ i - 1 + 1 = k) := by omega
      simp [notLast]
    · have notHere : r.val ≠ i - 1 := fun same => here (Fin.ext same)
      have bounds : (r.val + 1 < i + 1 ∨ r.val + 1 = k) ↔ (r.val + 1 < i ∨ r.val + 1 = k) := by
        omega
      simp only [Function.update_of_ne here, bounds]
  rw [releaseRollbackAt, index, read_natCast _ belowPred, ok_bind,
    addAt₂_ok _ c.isLt belowPred (by rw [Fin.eta, allocationAt]; exact allocationInt c _),
    ok_bind, read_natCast _ below, ok_bind,
    subAt_ok _ below (by rw [availableAt]; exact availableInt _), ok_bind, availableAt, Fin.eta,
    allocationAt, pure_eq_ok, rollingBack, rollingBack, ← taken, ← firstResources_pred below]
  congr 1
  apply State.ext
  · exact update_choice false
  · rfl
  · simp only [State.returned, Function.update_self, Function.update_idem]
    exact congrArg _ (update_choice false)
  · rfl

/-- A rollback that runs at all ends with an access at index `-1`. -/
theorem rollback_outOfBounds (availableInt : ∀ r, IsInt (s.available r))
    (allocationInt : ∀ c r, IsInt (s.allocation c r)) {k : ℕ} (positive : 0 < k)
    (le : k ≤ resources) :
    whileDecrement (releaseRollbackAt c release) k
        (s.returned c release (firstResources k) (firstResources k)) = .error .outOfBounds := by
  rw [← rollingBack_start]
  apply whileDecrement_error (rollingBack s c release k) _ positive
  · intro i lower upper
    exact releaseRollbackAt_rollingBack availableInt allocationInt lower upper le
  · rw [releaseRollbackAt, read_of_neg _ (by decide), error_bind]

theorem releaseBody_rejects_first {i : ℕ} (below : i < resources) (zero : i = 0)
    (bad : ¬ Returnable s c release ⟨i, below⟩) :
    releaseBody c release i
        (s.returned c release (firstResources i) (firstResources i)) =
      .ok (.exit (-1, s)) := by
  rcases returned_first_entries s c release below with ⟨_, allocationAt⟩
  have fails : release ⟨i, below⟩ < 0 ∨ release ⟨i, below⟩ > s.allocation c ⟨i, below⟩ :=
    not_not.mp (fun passes => bad (returnable_iff_passes.mpr passes))
  subst zero
  rw [releaseBody, read_natCast _ below, ok_bind, read_natCast _ c.isLt, ok_bind, Fin.eta,
    read_natCast _ below, ok_bind, allocationAt, if_pos fails, whileDecrement, ok_bind,
    firstResources_zero, returned_none, pure_eq_ok]

theorem releaseBody_rejects_later (availableInt : ∀ r, IsInt (s.available r))
    (allocationInt : ∀ c r, IsInt (s.allocation c r)) {i : ℕ} (below : i < resources)
    (positive : 0 < i) (bad : ¬ Returnable s c release ⟨i, below⟩) :
    releaseBody c release i
        (s.returned c release (firstResources i) (firstResources i)) =
      .error .outOfBounds := by
  rcases returned_first_entries s c release below with ⟨_, allocationAt⟩
  have fails : release ⟨i, below⟩ < 0 ∨ release ⟨i, below⟩ > s.allocation c ⟨i, below⟩ :=
    not_not.mp (fun passes => bad (returnable_iff_passes.mpr passes))
  rw [releaseBody, read_natCast _ below, ok_bind, read_natCast _ c.isLt, ok_bind, Fin.eta,
    read_natCast _ below, ok_bind, allocationAt, if_pos fails,
    rollback_outOfBounds availableInt allocationInt positive below.le, error_bind]

/-! ## The exact outcome of a release -/

/-- What the loop does is decided by the first entry that does not go through:
none, one whose addition overflows, or one that is rejected. -/
theorem releaseResources_cases (availableInt : ∀ r, IsInt (s.available r))
    (allocationInt : ∀ c r, IsInt (s.allocation c r)) :
    ((∀ r, Returnable s c release r ∧ s.available r + release r ≤ intMax) ∧
        releaseResources c release s = .ok (0, s.released c release)) ∨
      ((∃ j, Returnable s c release j ∧ intMax < s.available j + release j) ∧
        (¬ ∃ k, RejectsAt s c release k) ∧
        releaseResources c release s = .error .overflow) ∨
      ∃ k, RejectsAt s c release k ∧
        releaseResources c release s =
          if k.val = 0 then .ok (-1, s) else .error .outOfBounds := by
  have inside : ¬ ((c : Int) < 0 ∨ (c : Int) ≥ customers) := by
    have below := c.isLt
    omega
  have steps : ∀ i : Fin resources,
      Returnable s c release i ∧ s.available i + release i ≤ intMax →
        releaseBody c release i (s.returned c release (firstResources i) (firstResources i)) =
          .ok (.next (s.returned c release (firstResources (i + 1)) (firstResources (i + 1)))) :=
    fun i good => releaseBody_next availableInt allocationInt i.isLt good.1 good.2
  have start : s.returned c release (firstResources 0) (firstResources 0) = s := by
    rw [firstResources_zero, returned_none]
  rw [releaseResources, if_neg inside]
  by_cases allGood : ∀ i, Returnable s c release i ∧ s.available i + release i ≤ intMax
  · left
    have run := forLoop_next (fun i => s.returned c release (firstResources i) (firstResources i))
      (fun i below => steps ⟨i, below⟩ (allGood _))
    simp only [start, firstResources_all] at run
    refine ⟨allGood, ?_⟩
    rw [run]
    rfl
  · right
    rcases forLoop_first (fun i => s.returned c release (firstResources i) (firstResources i))
      steps allGood with ⟨i, bad, earlierGood, exits, fails⟩
    by_cases good : Returnable s c release i
    · -- The first obstacle is an addition that overflows.
      left
      have large := fun fits => bad ⟨good, fits⟩
      have run := fails _ (releaseBody_overflow allocationInt i.isLt good large)
      simp only [start] at run
      refine ⟨⟨i, good, not_le.mp large⟩, ?_, by rw [run]; rfl⟩
      intro ⟨k, rejected, before⟩
      rcases lt_trichotomy k i with earlier | same | later
      · exact rejected (earlierGood k earlier).1
      · exact rejected (same ▸ good)
      · exact large (before i later).2
    · -- The first obstacle is a rejected entry.
      right
      refine ⟨i, ⟨good, earlierGood⟩, ?_⟩
      by_cases first : i.val = 0
      · have run := exits _ (releaseBody_rejects_first i.isLt first good)
        simp only [start] at run
        rw [run, if_pos first]
        rfl
      · have run := fails _ (releaseBody_rejects_later availableInt allocationInt i.isLt
          (Nat.pos_of_ne_zero first) good)
        simp only [start] at run
        rw [run, if_neg first]
        rfl

theorem releaseResources_accepted (sound : Sound s) (good : ∀ r, Returnable s c release r) :
    releaseResources c release s = .ok (0, s.released c release) := by
  rcases releaseResources_cases sound.availableInt sound.allocationInt with
    ⟨_, run⟩ | ⟨⟨j, returnable, large⟩, _⟩ | ⟨k, rejected, _⟩
  · exact run
  · have together := sound.available_add_allocation c j
    have held := returnable.2
    omega
  · exact absurd (good k) rejected.1

/-- The call returns 0 exactly when every entry passes the check, and then the
new state has the release returned. -/
theorem releaseResources_eq_zero_iff (sound : Sound s) {customer : Int}
    {after : State customers resources} :
    releaseResources customer release s = .ok (0, after) ↔
      ∃ c : Fin customers, customer = c ∧ (∀ r, Returnable s c release r) ∧
        after = s.released c release := by
  constructor
  · intro run
    rcases customer_cases customers customer with outside | ⟨c, rfl⟩
    · rw [releaseResources, if_pos outside] at run
      simp at run
    · rcases releaseResources_cases sound.availableInt sound.allocationInt with
        ⟨good, accepted⟩ | ⟨_, _, fault⟩ | ⟨k, _, rejection⟩
      · rw [accepted] at run
        simp only [Except.ok.injEq, Prod.mk.injEq, true_and] at run
        exact ⟨c, rfl, fun r => (good r).1, run.symm⟩
      · rw [fault] at run
        cases run
      · rw [rejection] at run
        split at run <;> simp at run
  · intro ⟨c, same, good, result⟩
    rw [same, result]
    exact releaseResources_accepted sound good

/-- On a sound state no call overflows, accepted or not. -/
theorem releaseResources_no_overflow (sound : Sound s) (customer : Int) :
    releaseResources customer release s ≠ .error .overflow := by
  rcases customer_cases customers customer with outside | ⟨c, rfl⟩
  · rw [releaseResources, if_pos outside]
    simp
  · rcases releaseResources_cases sound.availableInt sound.allocationInt with
      ⟨_, accepted⟩ | ⟨⟨j, returnable, large⟩, _⟩ | ⟨k, _, rejection⟩
    · rw [accepted]
      simp
    · have together := sound.available_add_allocation c j
      have held := returnable.2
      omega
    · rw [rejection]
      split <;> simp

theorem released_total (r : Fin resources) :
    (s.released c release).available r + ∑ d, (s.released c release).allocation d r =
      s.available r + ∑ d, s.allocation d r := by
  simp only [State.released, State.returned, if_true, sum_update_row]
  omega

theorem released_sound (sound : Sound s) (good : ∀ r, Returnable s c release r) :
    Sound (s.released c release) := by
  have bounds : ∀ d r, 0 ≤ (s.released c release).allocation d r ∧
      (s.released c release).allocation d r ≤ intMax := by
    intro d r
    have lower := sound.allocationNonneg d r
    have upper := sound.allocationUpper d r
    have amount := good r
    unfold Returnable at amount
    rw [released_allocation]
    by_cases same : d = c
    · subst same
      rw [if_pos rfl]
      omega
    · rw [if_neg same]
      omega
  refine ⟨⟨fun d r => (bounds d r).1, ?_, ?_⟩, fun d r => (bounds d r).2, sound.needInt⟩
  · intro r
    have amount := (good r).1
    have lower := sound.availableLower r
    rw [released_available]
    omega
  · intro r
    rw [released_total]
    exact sound.totalUpper r

end Outcome

/-! ## Rejected releases -/

/-- A nonzero return leaves every array as it was, and no access is out of
bounds. -/
def RejectionHarmless (s : State customers resources) (customer : Int)
    (release : Fin resources → Int) : Prop :=
  (∀ code after, releaseResources customer release s = .ok (code, after) →
      code ≠ 0 → after = s) ∧
    releaseResources customer release s ≠ .error .outOfBounds

/-- A rejection is harmless exactly when it happens at entry 0: at any later
entry the rollback accesses index `-1`. -/
theorem rejectionHarmless_iff (s : State customers resources) (customer : Int)
    (release : Fin resources → Int) (availableInt : ∀ r, IsInt (s.available r))
    (allocationInt : ∀ c r, IsInt (s.allocation c r)) :
    RejectionHarmless s customer release ↔
      ∀ c : Fin customers, customer = c → ∀ k, RejectsAt s c release k → k.val = 0 := by
  unfold RejectionHarmless
  rcases customer_cases customers customer with outside | ⟨c, rfl⟩
  · have noCustomer : ∀ c : Fin customers, customer ≠ c := by
      intro c same
      have below := c.isLt
      omega
    rw [releaseResources, if_pos outside]
    refine iff_of_true ⟨?_, by simp⟩ fun c same => absurd same (noCustomer c)
    intro code after run _
    simp only [pure_eq_ok, Except.ok.injEq, Prod.mk.injEq] at run
    exact run.2.symm
  · have only : (∀ d : Fin customers, (c : Int) = d → ∀ k, RejectsAt s d release k → k.val = 0) ↔
        ∀ k, RejectsAt s c release k → k.val = 0 := by
      constructor
      · exact fun all => all c rfl
      · intro all d same
        rwa [show d = c from Fin.ext (by omega)]
    rw [only]
    rcases releaseResources_cases availableInt allocationInt with
      ⟨good, accepted⟩ | ⟨_, noRejection, fault⟩ | ⟨k, rejected, rejection⟩
    · rw [accepted]
      refine iff_of_true ⟨?_, by simp⟩ fun k rejected => absurd (good k).1 rejected.1
      intro code after run nonzero
      simp only [Except.ok.injEq, Prod.mk.injEq] at run
      exact absurd run.1.symm nonzero
    · rw [fault]
      exact iff_of_true ⟨fun _ _ run => (by cases run), by simp⟩
        fun k rejected => absurd ⟨k, rejected⟩ noRejection
    · have unique : ∀ j, RejectsAt s c release j → j = k := by
        intro j other
        rcases lt_trichotomy j k with earlier | same | later
        · exact absurd (rejected.2 j earlier).1 other.1
        · exact same
        · exact absurd (other.2 k later).1 rejected.1
      rw [rejection]
      by_cases first : k.val = 0
      · rw [if_pos first]
        refine iff_of_true ⟨?_, by simp⟩ fun j other => unique j other ▸ first
        intro code after run _
        simp only [Except.ok.injEq, Prod.mk.injEq] at run
        exact run.2.symm
      · rw [if_neg first]
        exact iff_of_false (fun harmless => harmless.2 rfl) fun all => first (all k rejected)

/-- A release of one unit of resource 1 that customer 0 does not hold. -/
theorem rejection_corrupts_demo :
    (∀ c r, 0 ≤ demoState.allocation c r) ∧ ¬ RejectionHarmless demoState 0 ![0, 1, 0, 0] := by
  refine ⟨by decide, fun harmless => harmless.2 ?_⟩
  rfl

/-- The rejection of a negative entry 0 is harmless. -/
theorem rejectionHarmless_demo :
    RejectionHarmless demoState 0 ![-1, 1, 0, 0] :=
  (rejectionHarmless_iff demoState 0 ![-1, 1, 0, 0] (by decide) (by decide)).mpr (by
    intro c same k rejected
    by_contra later
    have first := (rejected.2 0 (Fin.pos_of_ne_zero fun zero => later (by simp [zero]))).1.1
    exact absurd first (by decide))

end OsProjects.Banker
