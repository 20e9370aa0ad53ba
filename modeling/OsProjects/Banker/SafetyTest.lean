import Mathlib.Algebra.BigOperators.Fin
import Mathlib.Algebra.Order.BigOperators.Group.List
import Mathlib.Algebra.Order.Pi
import Mathlib.Data.Int.ConditionallyCompleteOrder
import Mathlib.Data.List.FinRange
import OsProjects.Banker.Model
import OsProjects.Theory.SafeSequence

/-!
Owns the exactness of `is_safe`: on a state whose sums fit in `int`, the nested
loops return 1 exactly when some order of all customers can finish.

The search is followed round by round. The customers with `finish[i] == 0` are
the pending claimants of the state's ledger; a round either finishes the first
of them that is covered, which by the exchange lemma of the ledger changes
nothing about completability, or finds none and proves there is no order.
-/

namespace OsProjects.Banker

open OsProjects.C
open OsProjects.Theory

variable {customers resources : ℕ}

/-- The claims recorded in the arrays, one vector of resources per customer. -/
def State.ledger (s : State customers resources) :
    Ledger (Fin customers) (Fin resources → Int) where
  available := s.available
  allocation := s.allocation
  need := s.need

/-- What `is_safe` needs to add up allocations: none is negative, and no sum it
can form leaves the range of `int`. -/
structure SumsFit (s : State customers resources) : Prop where
  allocationNonneg : ∀ c r, 0 ≤ s.allocation c r
  availableLower : ∀ r, intMin ≤ s.available r
  totalUpper : ∀ r, s.available r + ∑ c, s.allocation c r ≤ intMax

/-- An order of all customers in which each one's need is covered by what is
available and by the allocations of the customers before it. -/
def SafeOrder (s : State customers resources) (order : List (Fin customers)) : Prop :=
  order.Nodup ∧ (∀ c, c ∈ order) ∧
    ∀ before c after, order = before ++ c :: after →
      ∀ r, s.need c r ≤ s.available r + (before.map fun d => s.allocation d r).sum

theorem list_sum_apply {ι : Type} (values : ι → Fin resources → Int) (members : List ι)
    (r : Fin resources) :
    (members.map values).sum r = (members.map fun member => values member r).sum := by
  induction members with
  | nil => rfl
  | cons head rest inductionHypothesis =>
      simp only [List.map_cons, List.sum_cons, Pi.add_apply, inductionHypothesis]

theorem safe_iff_safeOrder (s : State customers resources) :
    s.ledger.Safe ↔ ∃ order, SafeOrder s order := by
  unfold Ledger.Safe SafeOrder
  refine exists_congr fun order => and_congr_right fun _ => and_congr_right fun _ => ?_
  rw [Ledger.completes_iff]
  refine forall_congr' fun before => forall_congr' fun c => forall_congr' fun after =>
    imp_congr_right fun _ => ?_
  rw [Pi.le_def]
  refine forall_congr' fun r => ?_
  rw [Pi.add_apply, list_sum_apply]
  rfl

/-! ## The inner functions -/

theorem isLeq_of_le {a b : Fin resources → Int} (le : a ≤ b) :
    isLeq a b resources = .ok 1 := by
  have run : forLoop (isLeqBody a b) resources 0 () = .ok (.next ()) := by
    apply forLoop_next (fun _ => ())
    intro i below
    have entry : ¬ a ⟨i, below⟩ > b ⟨i, below⟩ := not_lt.mpr (le ⟨i, below⟩)
    simp [isLeqBody, below, entry]
  simp [isLeq, run]

theorem isLeq_of_not_le {a b : Fin resources → Int} (notLe : ¬ a ≤ b) :
    isLeq a b resources = .ok 0 := by
  have steps : ∀ i : Fin resources, a i ≤ b i → isLeqBody a b i () = .ok (.next ()) := by
    intro i small
    simp [isLeqBody, small]
  rcases forLoop_first (fun _ => ()) steps notLe with ⟨i, large, _, exits, _⟩
  have run := exits 0 (by simp [isLeqBody, not_le.mp large])
  simp [isLeq, run]

/-- `work` after the first `k` entries of `row` have been added. -/
def collected (work row : Fin resources → Int) (k : ℕ) : Fin resources → Int :=
  fun r => if r.val < k then work r + row r else work r

theorem collect_eq {work row : Fin resources → Int} (fits : ∀ r, IsInt (work r + row r)) :
    forEach (collectBody row) resources 0 work = .ok (work + row) := by
  have first : collected work row 0 = work := by
    funext r
    simp [collected]
  have last : collected work row resources = work + row := by
    funext r
    simp [collected]
  have run : forEach (collectBody row) resources 0 (collected work row 0) =
      .ok (collected work row resources) := by
    apply forEach_eq (collected work row)
    intro i below
    have entry : collected work row i ⟨i, below⟩ = work ⟨i, below⟩ := by simp [collected]
    simp only [collectBody, read_natCast _ below, ok_bind]
    rw [addAt_ok _ below (by rw [entry]; exact fits _)]
    congr 1
    funext r
    by_cases here : r = ⟨i, below⟩
    · subst here
      simp [collected]
    · have notHere : r.val ≠ i := fun same => here (Fin.ext same)
      have bounds : r.val < i + 1 ↔ r.val < i := by omega
      simp [collected, here, bounds]
  rwa [first, last] at run

/-! ## One round -/

/-- The customers that the search has not finished. -/
def pending (finish : Fin customers → Int) : List (Fin customers) :=
  (List.finRange customers).filter fun i => finish i = 0

theorem mem_pending {finish : Fin customers → Int} {i : Fin customers} :
    i ∈ pending finish ↔ finish i = 0 := by
  simp [pending]

theorem pending_nodup (finish : Fin customers → Int) : (pending finish).Nodup :=
  (List.nodup_finRange customers).filter _

theorem pending_update (finish : Fin customers → Int) (i : Fin customers) :
    pending (Function.update finish i 1) = (pending finish).erase i := by
  rw [(pending_nodup finish).erase_eq_filter, pending, pending, List.filter_filter]
  apply List.filter_congr
  intro j _
  by_cases same : j = i
  · subst same
    simp
  · simp [same]

/-- The stock and the unfinished allocations stay within `int`. -/
structure WorkFits (s : State customers resources) (search : Search customers resources) :
    Prop where
  lower : ∀ r, intMin ≤ search.work r
  upper : ∀ r, search.work r + ((pending search.finish).map fun c => s.allocation c r).sum ≤ intMax

theorem sum_map_nonneg {s : State customers resources} (nonneg : ∀ c r, 0 ≤ s.allocation c r)
    (members : List (Fin customers)) (r : Fin resources) :
    0 ≤ (members.map fun c => s.allocation c r).sum := by
  apply List.sum_nonneg
  intro value member
  rcases List.mem_map.mp member with ⟨c, _, rfl⟩
  exact nonneg c r

/-- The sum over the pending customers splits at any of them. -/
theorem sum_pending_erase (s : State customers resources) {finish : Fin customers → Int}
    {i : Fin customers} (member : i ∈ pending finish) (r : Fin resources) :
    ((pending finish).map fun c => s.allocation c r).sum =
      s.allocation i r + (((pending finish).erase i).map fun c => s.allocation c r).sum := by
  have split := ((List.perm_cons_erase member).map fun c => s.allocation c r).sum_eq
  rw [split, List.map_cons, List.sum_cons]

/-- The search after customer `i` has been finished. -/
def Search.finished (search : Search customers resources) (s : State customers resources)
    (i : Fin customers) : Search customers resources where
  flag := 1
  work := search.work + s.allocation i
  finish := Function.update search.finish i 1

theorem WorkFits.entry {s : State customers resources} {search : Search customers resources}
    (fits : WorkFits s search) (nonneg : ∀ c r, 0 ≤ s.allocation c r) {i : Fin customers}
    (member : i ∈ pending search.finish) (r : Fin resources) :
    IsInt (search.work r + s.allocation i r) := by
  have lower := fits.lower r
  have upper := fits.upper r
  have split := sum_pending_erase s member r
  have rest := sum_map_nonneg nonneg ((pending search.finish).erase i) r
  have own := nonneg i r
  exact ⟨by omega, by omega⟩

theorem WorkFits.finished {s : State customers resources} {search : Search customers resources}
    (fits : WorkFits s search) (nonneg : ∀ c r, 0 ≤ s.allocation c r) {i : Fin customers}
    (member : i ∈ pending search.finish) : WorkFits s (search.finished s i) where
  lower := fun r => (fits.entry nonneg member r).1
  upper := by
    intro r
    have upper := fits.upper r
    rw [sum_pending_erase s member r] at upper
    simp only [Search.finished, pending_update, Pi.add_apply]
    omega

/-- Customer `i` is unfinished and its need is covered. -/
def Candidate (s : State customers resources) (search : Search customers resources)
    (i : Fin customers) : Prop :=
  search.finish i = 0 ∧ s.need i ≤ search.work

theorem searchBody_of_not_candidate {s : State customers resources}
    {search : Search customers resources} {i : ℕ} (below : i < customers)
    (notCandidate : ¬ Candidate s search ⟨i, below⟩) :
    searchBody s i search = .ok (.next search) := by
  by_cases unfinished : search.finish ⟨i, below⟩ = 0
  · have uncovered : ¬ s.need ⟨i, below⟩ ≤ search.work := fun le =>
      notCandidate ⟨unfinished, le⟩
    simp [searchBody, below, unfinished, isLeq_of_not_le uncovered]
  · simp [searchBody, below, unfinished]

theorem searchBody_of_candidate {s : State customers resources}
    {search : Search customers resources} (fits : WorkFits s search)
    (nonneg : ∀ c r, 0 ≤ s.allocation c r) {i : ℕ} (below : i < customers)
    (candidate : Candidate s search ⟨i, below⟩) :
    searchBody s i search = .ok (.exit (search.finished s ⟨i, below⟩)) := by
  have sums := fits.entry nonneg (mem_pending.mpr candidate.1)
  simp [searchBody, below, candidate.1, isLeq_of_le candidate.2, collect_eq sums,
    Search.finished]

/-- A round finishes a covered customer when there is one. -/
theorem roundBody_of_candidate {s : State customers resources}
    {search : Search customers resources} (fits : WorkFits s search)
    (nonneg : ∀ c r, 0 ≤ s.allocation c r) (round : ℕ)
    (found : ∃ i, Candidate s search i) :
    ∃ i, Candidate s search i ∧
      roundBody s round search = .ok (.next (search.finished s i)) := by
  have startFits : WorkFits s { search with flag := 0 } := ⟨fits.lower, fits.upper⟩
  have passes : ∀ i : Fin customers, Candidate s search i →
      searchBody s i { search with flag := 0 } = .ok (.exit (search.finished s i)) :=
    fun i candidate => searchBody_of_candidate startFits nonneg i.isLt candidate
  have fails : ∀ i : Fin customers, ¬Candidate s search i →
      searchBody s i { search with flag := 0 } = .ok (.next { search with flag := 0 }) :=
    fun i notCandidate => searchBody_of_not_candidate i.isLt notCandidate
  rcases forLoop_search (Candidate s search) (search.finished s) passes fails with
    ⟨i, candidate, _, run⟩ | ⟨none, _⟩
  · refine ⟨i, candidate, ?_⟩
    simp [roundBody, run, LoopStep.state, Search.finished]
  · rcases found with ⟨i, candidate⟩
    exact absurd candidate (none i)

theorem roundBody_of_stuck {s : State customers resources}
    {search : Search customers resources} (round : ℕ)
    (stuck : ¬ ∃ i, Candidate s search i) :
    roundBody s round search = .ok (.exit 0) := by
  have run : forLoop (searchBody s) customers 0 { search with flag := 0 } =
      .ok (.next { search with flag := 0 }) := by
    apply forLoop_next (fun _ => ({ search with flag := 0 } : Search customers resources))
    intro i below
    exact searchBody_of_not_candidate below (fun candidate => stuck ⟨_, candidate⟩)
  simp [roundBody, run, LoopStep.state]

/-! ## All rounds -/

/-- The remaining rounds decide whether the pending customers can complete.
Induction on their number, which is the number of pending customers. -/
theorem rounds_exact {s : State customers resources}
    (nonneg : ∀ c r, 0 ≤ s.allocation c r) :
    ∀ (count round : ℕ) (search : Search customers resources),
      (pending search.finish).length = count → WorkFits s search →
      (s.ledger.CanComplete search.work (pending search.finish) ∧
          ∃ last, forLoop (roundBody s) count round search = .ok (.next last)) ∨
        (¬ s.ledger.CanComplete search.work (pending search.finish) ∧
          forLoop (roundBody s) count round search = .ok (.exit 0)) := by
  intro count
  induction count with
  | zero =>
      intro round search none fits
      rw [List.length_eq_zero_iff.mp none]
      exact Or.inl ⟨⟨[], List.Perm.refl _, trivial⟩, search, rfl⟩
  | succ count inductionHypothesis =>
      intro round search remaining fits
      by_cases found : ∃ i, Candidate s search i
      · rcases roundBody_of_candidate fits nonneg round found with ⟨i, candidate, step⟩
        have member : i ∈ pending search.finish := mem_pending.mpr candidate.1
        have fewer : (pending (search.finished s i).finish).length = count := by
          simp only [Search.finished, pending_update]
          rw [List.length_erase_of_mem member, remaining]
          rfl
        have exchange : s.ledger.CanComplete search.work (pending search.finish) ↔
            s.ledger.CanComplete (search.finished s i).work
              (pending (search.finished s i).finish) := by
          simp only [Search.finished, pending_update]
          exact Ledger.canComplete_iff_erase (fun c => nonneg c) member candidate.2
        rw [forLoop_of_next count step, exchange]
        exact inductionHypothesis (round + 1) _ fewer (fits.finished nonneg member)
      · right
        refine ⟨?_, forLoop_of_exit count (roundBody_of_stuck round found)⟩
        apply Ledger.not_canComplete
        · intro noneLeft
          rw [noneLeft] at remaining
          exact absurd remaining (by simp)
        · intro c member covered
          exact found ⟨c, mem_pending.mp member, covered⟩

theorem pending_zero : pending (fun _ : Fin customers => 0) = List.finRange customers := by
  simp [pending]

theorem SumsFit.workFits {s : State customers resources} (fits : SumsFit s) :
    WorkFits s { flag := 0, work := s.available, finish := fun _ => 0 } where
  lower := fits.availableLower
  upper := by
    intro r
    have total := fits.totalUpper r
    simp only [pending_zero]
    rwa [← List.ofFn_eq_map, List.sum_ofFn]

/-- `is_safe` returns 1 on a safe ledger and 0 on any other. -/
theorem isSafe_eq {s : State customers resources} (fits : SumsFit s) :
    (s.ledger.Safe ∧ isSafe s = .ok (1, s)) ∨ (¬ s.ledger.Safe ∧ isSafe s = .ok (0, s)) := by
  have everyone : s.ledger.Safe ↔ s.ledger.CanComplete s.available (List.finRange customers) :=
    Ledger.safe_iff_canComplete (List.nodup_finRange customers) List.mem_finRange
  have rounds := rounds_exact fits.allocationNonneg customers 0
    { flag := 0, work := s.available, finish := fun _ => 0 }
    (by rw [pending_zero, List.length_finRange]) fits.workFits
  rw [pending_zero] at rounds
  rw [everyone]
  rcases rounds with ⟨completes, last, run⟩ | ⟨fails, run⟩
  · exact Or.inl ⟨completes, by simp [isSafe, run]⟩
  · exact Or.inr ⟨fails, by simp [isSafe, run]⟩

theorem isSafe_of_safe {s : State customers resources} (fits : SumsFit s)
    (safe : s.ledger.Safe) : isSafe s = .ok (1, s) := by
  rcases isSafe_eq fits with ⟨_, run⟩ | ⟨notSafe, _⟩
  · exact run
  · exact absurd safe notSafe

theorem isSafe_of_not_safe {s : State customers resources} (fits : SumsFit s)
    (notSafe : ¬ s.ledger.Safe) : isSafe s = .ok (0, s) := by
  rcases isSafe_eq fits with ⟨safe, _⟩ | ⟨_, run⟩
  · exact absurd safe notSafe
  · exact run

theorem safe_of_tested {s : State customers resources} (fits : SumsFit s)
    (tested : isSafe s = .ok (1, s)) : s.ledger.Safe := by
  rcases isSafe_eq fits with ⟨safe, _⟩ | ⟨_, run⟩
  · exact safe
  · rw [tested] at run
    simp at run

/-- The test is exact for every number of customers and resources, and writes
no global variable. -/
theorem isSafe_exact (s : State customers resources) (fits : SumsFit s) :
    ∃ code, isSafe s = .ok (code, s) ∧ (code = 1 ↔ ∃ order, SafeOrder s order) := by
  rw [← safe_iff_safeOrder]
  rcases isSafe_eq fits with ⟨safe, run⟩ | ⟨notSafe, run⟩
  · exact ⟨1, run, iff_of_true rfl safe⟩
  · exact ⟨0, run, iff_of_false (by decide) notSafe⟩

theorem isSafe_exact_demo :
    ∃ code, isSafe demoState = .ok (code, demoState) ∧
      (code = 1 ↔ ∃ order, SafeOrder demoState order) :=
  isSafe_exact demoState ⟨by decide, by decide, by decide⟩

end OsProjects.Banker
