import Mathlib.Algebra.BigOperators.Group.List.Basic
import Mathlib.Algebra.Order.Group.Defs
import Mathlib.Data.List.Nodup
import Mathlib.Logic.Function.Basic
import Mathlib.Tactic.Abel

/-!
Owns the theory of safe sequences for claims on a shared stock, over any
ordered additive group of amounts and any type of claimants.

A ledger records what is available, what each claimant holds and what it may
still ask for. An order of claimants completes when each one's remaining need
is covered by the stock and the holdings of the claimants before it. The
exchange lemma moves any claimant that is covered now to the front, which is
why a greedy search decides whether an order exists. The shift lemma compares
two ledgers that differ in one claimant; returning an amount and taking a grant
back are both instances of it.

Does not own how a program represents a ledger.
-/

namespace OsProjects.Theory

/-- Claims of the claimants `C` on a stock measured in `V`. -/
structure Ledger (C V : Type) where
  available : V
  allocation : C → V
  need : C → V

namespace Ledger

section Order

variable {C V : Type} [AddCommGroup V] [PartialOrder V]

/-- Going through the order with `work` in stock, every claimant can take its
need, finish, and give back what it holds. -/
def Completes (ledger : Ledger C V) : V → List C → Prop
  | _, [] => True
  | work, claimant :: rest =>
      ledger.need claimant ≤ work ∧
        ledger.Completes (work + ledger.allocation claimant) rest

/-- Some order of exactly the pending claimants completes. -/
def CanComplete (ledger : Ledger C V) (work : V) (pending : List C) : Prop :=
  ∃ order : List C, order.Perm pending ∧ ledger.Completes work order

/-- Some order of all claimants completes from the available stock. -/
def Safe (ledger : Ledger C V) : Prop :=
  ∃ order : List C, order.Nodup ∧ (∀ claimant, claimant ∈ order) ∧
    ledger.Completes ledger.available order

/-- The recursion over an order says that each need is covered by the stock and
the holdings of the earlier claimants. -/
theorem completes_iff (ledger : Ledger C V) (work : V) (order : List C) :
    ledger.Completes work order ↔
      ∀ before claimant after, order = before ++ claimant :: after →
        ledger.need claimant ≤ work + (before.map ledger.allocation).sum := by
  induction order generalizing work with
  | nil => simp [Completes]
  | cons head rest inductionHypothesis =>
      rw [Completes, inductionHypothesis]
      constructor
      · rintro ⟨covered, tail⟩ before claimant after split
        cases before with
        | nil =>
            rcases List.cons.inj split with ⟨rfl, rfl⟩
            simpa using covered
        | cons first before =>
            rcases List.cons.inj split with ⟨rfl, splitRest⟩
            have bound := tail before claimant after splitRest
            rw [List.map_cons, List.sum_cons, ← add_assoc]
            exact bound
      · intro all
        refine ⟨by simpa using all [] head rest rfl, ?_⟩
        intro before claimant after split
        have bound := all (head :: before) claimant after (by rw [split]; rfl)
        rw [List.map_cons, List.sum_cons, ← add_assoc] at bound
        exact bound

/-- Completion reads only the claimants in the order. -/
theorem completes_congr {ledger other : Ledger C V} {order : List C} (work : V)
    (same : ∀ claimant ∈ order,
      other.allocation claimant = ledger.allocation claimant ∧
        other.need claimant = ledger.need claimant)
    (completes : ledger.Completes work order) : other.Completes work order := by
  induction order generalizing work with
  | nil => trivial
  | cons head rest inductionHypothesis =>
      rcases same head (by simp) with ⟨allocationSame, needSame⟩
      refine ⟨needSame ▸ completes.1, ?_⟩
      rw [allocationSame]
      exact inductionHypothesis _ (fun claimant member => same claimant (by simp [member]))
        completes.2

end Order

section Exchange

variable {C V : Type} [DecidableEq C] [AddCommGroup V] [PartialOrder V]
  [IsOrderedAddMonoid V] {ledger : Ledger C V}

/-- Exchange: a claimant whose need is covered now can finish first. The others
then have at least the stock they had before at each of their turns. -/
theorem completes_erase (nonneg : ∀ claimant, 0 ≤ ledger.allocation claimant)
    {order : List C} {claimant : C} (member : claimant ∈ order) {work : V}
    (covered : ledger.need claimant ≤ work) (completes : ledger.Completes work order) :
    ledger.Completes (work + ledger.allocation claimant) (order.erase claimant) := by
  induction order generalizing work with
  | nil => simp at member
  | cons head rest inductionHypothesis =>
      by_cases first : head = claimant
      · subst first
        rw [List.erase_cons_head]
        exact completes.2
      · have inRest : claimant ∈ rest := by
          rcases List.mem_cons.mp member with same | inRest
          · exact absurd same.symm first
          · exact inRest
        rw [List.erase_cons_tail (by simpa using first)]
        refine ⟨completes.1.trans (le_add_of_nonneg_right (nonneg claimant)), ?_⟩
        rw [add_right_comm]
        exact inductionHypothesis inRest
          (covered.trans (le_add_of_nonneg_right (nonneg head))) completes.2

/-- A greedy search may finish any covered claimant: this neither loses nor
creates a completing order. -/
theorem canComplete_iff_erase (nonneg : ∀ claimant, 0 ≤ ledger.allocation claimant)
    {pending : List C} {claimant : C} (member : claimant ∈ pending) {work : V}
    (covered : ledger.need claimant ≤ work) :
    ledger.CanComplete work pending ↔
      ledger.CanComplete (work + ledger.allocation claimant) (pending.erase claimant) := by
  constructor
  · rintro ⟨order, permutation, completes⟩
    exact ⟨order.erase claimant, permutation.erase claimant,
      completes_erase nonneg (permutation.mem_iff.mpr member) covered completes⟩
  · rintro ⟨order, permutation, completes⟩
    exact ⟨claimant :: order,
      (permutation.cons claimant).trans (List.perm_cons_erase member).symm,
      covered, completes⟩

omit [DecidableEq C] [IsOrderedAddMonoid V] in
/-- When claimants remain and none of them is covered, no order completes. -/
theorem not_canComplete {pending : List C} (remaining : pending ≠ []) {work : V}
    (uncovered : ∀ claimant ∈ pending, ¬ ledger.need claimant ≤ work) :
    ¬ ledger.CanComplete work pending := by
  rintro ⟨order, permutation, completes⟩
  cases order with
  | nil => exact remaining permutation.nil_eq.symm
  | cons head rest =>
      exact uncovered head (permutation.mem_iff.mp (by simp)) completes.1

omit [DecidableEq C] [IsOrderedAddMonoid V] in
/-- Safety is completion of any list that enumerates the claimants. -/
theorem safe_iff_canComplete {everyone : List C} (nodup : everyone.Nodup)
    (complete : ∀ claimant, claimant ∈ everyone) :
    ledger.Safe ↔ ledger.CanComplete ledger.available everyone := by
  constructor
  · rintro ⟨order, orderNodup, all, completes⟩
    refine ⟨order, ?_, completes⟩
    rw [List.perm_ext_iff_of_nodup orderNodup nodup]
    intro claimant
    exact iff_of_true (all claimant) (complete claimant)
  · rintro ⟨order, permutation, completes⟩
    exact ⟨order, permutation.nodup_iff.mpr nodup,
      fun claimant => permutation.mem_iff.mpr (complete claimant), completes⟩

end Exchange

/-! ## Ledgers that differ in one claimant -/

section Shift

variable {C V : Type} [AddCommGroup V] [PartialOrder V] [IsOrderedAddMonoid V]
  {ledger other : Ledger C V}

/-- Moving `amount` from one claimant's holding to the stock, while its need
grows by at most `amount`, keeps every completing order. -/
theorem completes_shift (claimant : C) {amount : V} (nonneg : 0 ≤ amount)
    (othersSame : ∀ d, d ≠ claimant →
      other.allocation d = ledger.allocation d ∧ other.need d = ledger.need d)
    (allocationShift : other.allocation claimant + amount = ledger.allocation claimant)
    (needShift : other.need claimant ≤ ledger.need claimant + amount)
    {order : List C} (nodup : order.Nodup) (member : claimant ∈ order) {work : V}
    (completes : ledger.Completes work order) :
    other.Completes (work + amount) order := by
  induction order generalizing work with
  | nil => trivial
  | cons head rest inductionHypothesis =>
      rcases List.nodup_cons.mp nodup with ⟨headFresh, restNodup⟩
      by_cases first : head = claimant
      · subst first
        refine ⟨needShift.trans (add_le_add_left completes.1 amount), ?_⟩
        have stock : work + amount + other.allocation head =
            work + ledger.allocation head := by
          rw [← allocationShift, add_assoc, add_comm amount]
        rw [stock]
        exact completes_congr _
          (fun d inRest => othersSame d (fun same => headFresh (same ▸ inRest)))
          completes.2
      · rcases othersSame head first with ⟨allocationSame, needSame⟩
        have inRest : claimant ∈ rest := by
          rcases List.mem_cons.mp member with same | inRest
          · exact absurd same.symm first
          · exact inRest
        refine ⟨?_, ?_⟩
        · rw [needSame]
          exact completes.1.trans (le_add_of_nonneg_right nonneg)
        · rw [allocationSame, add_right_comm]
          exact inductionHypothesis restNodup inRest completes.2

theorem safe_shift (claimant : C) {amount : V} (nonneg : 0 ≤ amount)
    (othersSame : ∀ d, d ≠ claimant →
      other.allocation d = ledger.allocation d ∧ other.need d = ledger.need d)
    (allocationShift : other.allocation claimant + amount = ledger.allocation claimant)
    (needShift : other.need claimant ≤ ledger.need claimant + amount)
    (availableShift : other.available = ledger.available + amount)
    (safe : ledger.Safe) : other.Safe := by
  obtain ⟨order, nodup, all, completes⟩ := safe
  refine ⟨order, nodup, all, ?_⟩
  rw [availableShift]
  exact completes_shift claimant nonneg othersSame allocationShift needShift nodup (all claimant)
    completes

end Shift

section Moves

variable {C V : Type} [DecidableEq C] [AddCommGroup V] [PartialOrder V]
  [IsOrderedAddMonoid V] {ledger : Ledger C V}

/-- Hand `amount` to the claimant, against its need. -/
def grant (ledger : Ledger C V) (claimant : C) (amount : V) : Ledger C V where
  available := ledger.available - amount
  allocation := Function.update ledger.allocation claimant (ledger.allocation claimant + amount)
  need := Function.update ledger.need claimant (ledger.need claimant - amount)

/-- Take `amount` back from the claimant; its need stays. -/
def release (ledger : Ledger C V) (claimant : C) (amount : V) : Ledger C V where
  available := ledger.available + amount
  allocation := Function.update ledger.allocation claimant (ledger.allocation claimant - amount)
  need := ledger.need

/-- A release keeps a safe ledger safe, without a new test. -/
theorem release_safe {claimant : C} {amount : V} (nonneg : 0 ≤ amount)
    (safe : ledger.Safe) : (ledger.release claimant amount).Safe := by
  apply safe_shift claimant nonneg _ _ _ rfl safe
  · intro d different
    simp [release, different]
  · simp [release]
  · simpa [release] using nonneg

/-- Safety is closed under taking a grant back. -/
theorem safe_of_grant {claimant : C} {amount : V} (nonneg : 0 ≤ amount)
    (safe : (ledger.grant claimant amount).Safe) : ledger.Safe := by
  apply safe_shift claimant nonneg _ _ _ _ safe
  · intro d different
    simp [grant, different]
  · simp [grant]
  · simp [grant]
  · simp [grant]

/-- Granting a covered claimant its whole need keeps a safe ledger safe. -/
theorem grant_need_safe (nonneg : ∀ claimant, 0 ≤ ledger.allocation claimant)
    {claimant : C} (covered : ledger.need claimant ≤ ledger.available)
    (safe : ledger.Safe) : (ledger.grant claimant (ledger.need claimant)).Safe := by
  obtain ⟨order, nodup, all, completes⟩ := safe
  have perm : (claimant :: order.erase claimant).Perm order :=
    (List.perm_cons_erase (all claimant)).symm
  refine ⟨claimant :: order.erase claimant, perm.nodup_iff.mpr nodup,
    fun d => perm.mem_iff.mpr (all d), ?_, ?_⟩
  · simpa [grant] using covered
  · have stock : (ledger.grant claimant (ledger.need claimant)).available +
        (ledger.grant claimant (ledger.need claimant)).allocation claimant =
          ledger.available + ledger.allocation claimant := by
      simp only [grant, Function.update_self]
      abel
    rw [stock]
    refine completes_congr _ ?_ (completes_erase nonneg (all claimant) covered completes)
    intro d member
    have different : d ≠ claimant := fun same =>
      nodup.not_mem_erase (same ▸ member)
    simp [grant, different]

end Moves

end Ledger

end OsProjects.Theory
