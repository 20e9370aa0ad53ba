import OsProjects.Sorting.Merge

/-!
Owns the correctness of the multithreaded sort, and where it ends.

The difference of two numbers tells their order only when it is an `int`. As
long as this holds within each half, the comparison is the order of the numbers
and both threads sort. Two numbers of one half that are further apart compare
the wrong way round: then the comparison is either no order at all, and the
library promises nothing, or an order that puts the larger number first. In both
cases the half may end up out of order, and the merge does not repair it.

Does not own the loops of the merge.
-/

namespace OsProjects.Sorting

open OsProjects.C
open OsProjects.Theory

/-! ## The comparison -/

section Comparison

variable {a b : Int} {before after : List Int}

/-- Every difference of two elements is an `int`. -/
def Near (elements : List Int) : Prop :=
  ∀ a ∈ elements, ∀ b ∈ elements, IsInt (a - b)

instance (elements : List Int) : Decidable (Near elements) :=
  inferInstanceAs (Decidable (∀ a ∈ elements, ∀ b ∈ elements, IsInt (a - b)))

theorem cmp_of_isInt (fits : IsInt (a - b)) : cmp a b = a - b := by
  unfold IsInt intMin intMax at fits
  unfold cmp
  simp only [Int.bmod]
  omega

/-- A difference above the range of `int` becomes negative. -/
theorem cmp_neg_of_far (aInt : IsInt a) (bInt : IsInt b) (far : intMax < a - b) :
    cmp a b < 0 := by
  unfold IsInt intMin intMax at aInt bInt
  unfold intMax at far
  unfold cmp
  simp only [Int.bmod]
  omega

theorem preorderOn_of_near (near : Near before) : PreorderOn cmp before := by
  constructor
  · intro a aMember b bMember
    rw [cmp_of_isInt (near a aMember b bMember), cmp_of_isInt (near b bMember a aMember)]
    omega
  · intro a aMember b bMember c cMember
    rw [cmp_of_isInt (near a aMember b bMember), cmp_of_isInt (near b bMember c cMember),
      cmp_of_isInt (near a aMember c cMember)]
    omega

theorem ascending_of_near (near : Near before) (sorts : Sorts cmp before after) :
    after.Pairwise (· ≤ ·) := by
  refine (sorts.ordered (preorderOn_of_near near)).imp_of_mem ?_
  intro a b aMember bMember ordered
  have fits := near a (sorts.perm.mem_iff.mp aMember) b (sorts.perm.mem_iff.mp bMember)
  rw [cmp_of_isInt fits] at ordered
  omega

/-- Two elements that are too far apart may end up in the wrong order. -/
theorem exists_not_ascending (ints : ∀ a ∈ before, IsInt a) (notNear : ¬Near before) :
    ∃ after, Sorts cmp before after ∧ ¬after.Pairwise (· ≤ ·) := by
  have far : ∃ a ∈ before, ∃ b ∈ before, intMax < a - b := by
    by_contra close
    apply notNear
    intro a aMember b bMember
    have first : ¬intMax < a - b := fun far => close ⟨a, aMember, b, bMember, far⟩
    have second : ¬intMax < b - a := fun far => close ⟨b, bMember, a, aMember, far⟩
    unfold IsInt
    unfold intMin intMax at *
    omega
  obtain ⟨a, aMember, b, bMember, far⟩ := far
  have larger : b < a := by
    unfold intMax at far
    omega
  by_cases preorder : PreorderOn cmp before
  · -- the comparison orders the larger number first
    obtain ⟨after, perm, ordered⟩ := preorder.exists_ordered
    refine ⟨after, ⟨perm, fun _ => ordered⟩, ?_⟩
    intro ascending
    have negative := cmp_neg_of_far (ints a aMember) (ints b bMember) far
    have positive := (preorder.opposite a aMember b bMember).mp negative
    have either := related_of_pairwise (ordered.and ascending) (perm.mem_iff.mpr aMember)
      (perm.mem_iff.mpr bMember) larger.ne'
    omega
  · -- nothing is promised
    have bRest : b ∈ before.erase a := (List.mem_erase_of_ne larger.ne).mpr bMember
    have perm : (a :: b :: (before.erase a).erase b).Perm before :=
      ((List.perm_cons_erase bRest).symm.cons a).trans (List.perm_cons_erase aMember).symm
    refine ⟨_, sorts_of_perm preorder perm, ?_⟩
    intro ascending
    have le := List.rel_of_pairwise_cons ascending List.mem_cons_self
    omega

end Comparison

/-! ## The two threads -/

section Threads

variable {arraySize : ℕ} {input : Numbers} {s : State} {thread other : ThreadId}

/-- The numbers that a thread sorts. -/
def half (arraySize : ℕ) (array : Numbers) (thread : ThreadId) : List Int :=
  segment array (data arraySize thread).low
    ((data arraySize thread).high - (data arraySize thread).low)

theorem data_inside (inside : arraySize ≤ maxNum) (thread : ThreadId) :
    (data arraySize thread).low +
      ((data arraySize thread).high - (data arraySize thread).low) ≤ maxNum := by
  cases thread with
  | thread0 =>
      simp only [data]
      omega
  | thread1 =>
      simp only [data]
      omega

/-- A thread writes nothing into the half of the other one. -/
theorem half_of_other {before after : Numbers} (different : other ≠ thread)
    (sorted : QsortRange cmp (data arraySize thread).low
      ((data arraySize thread).high - (data arraySize thread).low) before after) :
    half arraySize after other = half arraySize before other := by
  apply segment_congr
  intro i lower upper
  apply sorted.outside
  cases thread with
  | thread0 =>
      cases other with
      | thread0 => exact absurd rfl different
      | thread1 =>
          simp only [data] at lower ⊢
          omega
  | thread1 =>
      cases other with
      | thread0 =>
          simp only [data] at upper ⊢
          omega
      | thread1 => exact absurd rfl different

/-- A half is as it was read until its thread returns, and sorted from then on. -/
def HalvesSorted (arraySize : ℕ) (input : Numbers) (s : State) : Prop :=
  ∀ thread, if s.returned thread then
      Sorts cmp (half arraySize input thread) (half arraySize s.array thread)
    else half arraySize s.array thread = half arraySize input thread

theorem HalvesSorted.step {after : State} (halves : HalvesSorted arraySize input s)
    (step : Runner arraySize s after) : HalvesSorted arraySize input after := by
  cases step with
  | sort thread running sorted =>
      intro other
      have own := halves thread
      rw [running, if_neg (by simp)] at own
      by_cases same : other = thread
      · subst same
        simp only [Function.update_self, if_true]
        rw [← own]
        exact sorted.sorts
      · have unchanged := half_of_other same sorted
        have before := halves other
        simp only [Function.update_of_ne same]
        rwa [unchanged]

theorem halvesSorted_of_reached
    (reached : Relation.ReflTransGen (Runner arraySize) (start input) s) :
    HalvesSorted arraySize input s := by
  induction reached with
  | refl => exact fun _ => rfl
  | tail _ step inductionHypothesis => exact inductionHypothesis.step step

/-- Once both threads are joined, each half is a sorted half of the input. -/
theorem Joined.sorts (joined : Joined arraySize input s) (thread : ThreadId) :
    Sorts cmp (half arraySize input thread) (half arraySize s.array thread) := by
  have own := halvesSorted_of_reached joined.reached thread
  rwa [joined.returned thread, if_pos rfl] at own

/-- Whatever a sort may leave of a range, a call of `qsort` may leave there. -/
theorem exists_qsortRange {low count : ℕ} (inside : low + count ≤ maxNum) (before : Numbers)
    {sorted : List Int} (sorts : Sorts cmp (segment before low count) sorted) :
    ∃ after, QsortRange cmp low count before after ∧ segment after low count = sorted := by
  have length : sorted.length = count := by
    rw [sorts.perm.length_eq, segment_length inside]
  let after : Numbers := fun i =>
    if low ≤ i.val ∧ i.val < low + count then sorted[i.val - low]?.getD 0 else before i
  have stored : segment after low count = sorted := by
    apply List.ext_getElem (by rw [segment_length inside, length])
    intro i below belowSorted
    have position : low + i < maxNum := by omega
    have here : low ≤ low + i ∧ low + i < low + count := by omega
    simp only [segment, List.getElem_take, List.getElem_drop, List.getElem_ofFn, after]
    rw [if_pos here, Nat.add_sub_cancel_left, List.getElem?_eq_getElem belowSorted]
    rfl
  refine ⟨after, ⟨?_, ?_⟩, stored⟩
  · intro i outside
    exact if_neg (by omega)
  · rwa [stored]

/-- The threads may leave any two lists that their sorts allow. -/
theorem exists_joined (inside : arraySize ≤ maxNum) (input : Numbers)
    {sorted : ThreadId → List Int}
    (sorts : ∀ thread, Sorts cmp (half arraySize input thread) (sorted thread)) :
    ∃ s, Joined arraySize input s ∧ ∀ thread, half arraySize s.array thread = sorted thread := by
  obtain ⟨middle, firstSort, firstStored⟩ :=
    exists_qsortRange (data_inside inside .thread0) input (sorts .thread0)
  have unread : half arraySize middle .thread1 = half arraySize input .thread1 :=
    half_of_other (by simp) firstSort
  have secondSorts := sorts .thread1
  rw [← unread] at secondSorts
  obtain ⟨final, secondSort, secondStored⟩ :=
    exists_qsortRange (data_inside inside .thread1) middle secondSorts
  have kept : half arraySize final .thread0 = half arraySize middle .thread0 :=
    half_of_other (by simp) secondSort
  refine ⟨⟨final, Function.update (Function.update (fun _ => false) .thread0 true) .thread1
    true⟩, ⟨?_, ?_⟩, ?_⟩
  · exact (Relation.ReflTransGen.single (.sort .thread0 rfl firstSort)).tail
      (.sort .thread1 rfl secondSort)
  · intro thread
    cases thread with
    | thread0 => rfl
    | thread1 => rfl
  · intro thread
    cases thread with
    | thread0 => exact kept.trans firstStored
    | thread1 => exact secondStored

end Threads

/-! ## The result -/

section Result

variable {arraySize : ℕ} {input : Numbers}

/-- The halves make up the numbers that were read. -/
theorem halves_append (arraySize : ℕ) (array : Numbers) :
    half arraySize array .thread0 ++ half arraySize array .thread1 =
      segment array 0 arraySize := by
  have whole := segment_append array 0 (arraySize / 2) (arraySize - arraySize / 2)
  rw [Nat.zero_add, Nat.add_sub_cancel' (Nat.div_le_self arraySize 2)] at whole
  exact whole

/-- What `main` prints is the merge of the halves. -/
theorem mergeArray_halves (inside : arraySize ≤ maxNum) (array : Numbers)
    (garbage : Fin arraySize → Int) :
    ∃ result, mergeArray array garbage = .ok result ∧ List.ofFn result =
      (half arraySize array .thread1).merge (half arraySize array .thread0) :=
  mergeArray_eq inside array garbage

/-- A half with two numbers too far apart can spoil the result. -/
theorem not_sortsAscending (inside : arraySize ≤ maxNum) (ints : ∀ i, IsInt (input i))
    {thread : ThreadId} (notNear : ¬Near (half arraySize input thread)) :
    ¬SortsAscending arraySize input := by
  intro sortsAscending
  have halfInts : ∀ a ∈ half arraySize input thread, IsInt a := by
    intro a member
    have inArray := List.mem_of_mem_drop (List.mem_of_mem_take member)
    obtain ⟨i, rfl⟩ := List.mem_ofFn.mp inArray
    exact ints i
  obtain ⟨bad, badSorts, notAscending⟩ := exists_not_ascending halfInts notNear
  have choices : ∀ other, ∃ sorted, Sorts cmp (half arraySize input other) sorted ∧
      (other = thread → ¬sorted.Pairwise (· ≤ ·)) := by
    intro other
    by_cases same : other = thread
    · subst same
      exact ⟨bad, badSorts, fun _ => notAscending⟩
    · obtain ⟨sorted, sorts⟩ := exists_sorts cmp (half arraySize input other)
      exact ⟨sorted, sorts, fun equal => absurd equal same⟩
  choose sorted sorts spoiled using choices
  obtain ⟨s, joined, stored⟩ := exists_joined inside input sorts
  obtain ⟨result, run, ascending, _⟩ := sortsAscending s joined fun _ => 0
  obtain ⟨other, otherRun, merged⟩ := mergeArray_halves inside s.array fun _ => 0
  rw [run] at otherRun
  cases otherRun
  rw [merged, stored, stored] at ascending
  rcases pairwise_of_merge ascending with ⟨secondAscending, firstAscending⟩
  cases thread with
  | thread0 => exact spoiled .thread0 rfl firstAscending
  | thread1 => exact spoiled .thread1 rfl secondAscending

/-- For every order of the threads and everything `qsort` may do, the result is the
ascending permutation of the input: exactly when no two numbers of one half have a
difference outside the range of `int`. -/
theorem sortsAscending_iff (inside : arraySize ≤ maxNum) (ints : ∀ i, IsInt (input i)) :
    SortsAscending arraySize input ↔ ∀ thread, Near (half arraySize input thread) := by
  constructor
  · intro sortsAscending thread
    by_contra notNear
    exact not_sortsAscending inside ints notNear sortsAscending
  · intro near s joined garbage
    obtain ⟨result, run, merged⟩ := mergeArray_halves inside s.array garbage
    have sorts := joined.sorts
    refine ⟨result, run, ?_, ?_⟩
    · rw [merged]
      exact merge_ascending (ascending_of_near (near _) (sorts _))
        (ascending_of_near (near _) (sorts _))
    · rw [merged, ← halves_append]
      have split : ((half arraySize s.array .thread1).merge (half arraySize s.array .thread0)).Perm
          (half arraySize s.array .thread1 ++ half arraySize s.array .thread0) :=
        List.merge_perm_append _
      exact split.trans (List.perm_append_comm.trans
        ((sorts .thread0).perm.append (sorts .thread1).perm))

/-- The array after `init_array` has read the numbers. -/
def reading (numbers : List Int) : Numbers := fun i => numbers.getD i 0

/-- The ten numbers of the documented run. -/
theorem sortsAscending_iff_demo : SortsAscending 10 (reading [2, 0, 1, 9, 1, 0, 2, 9, 6, 6]) :=
  (sortsAscending_iff (by decide) (by decide)).mpr (by
    intro thread
    cases thread with
    | thread0 => decide
    | thread1 => decide)

/-- The first two of these four numbers compare the wrong way round. -/
theorem overflow_spoils_demo :
    ¬SortsAscending 4 (reading [2000000000, -2000000000, 0, 1]) := by
  have notNear : ¬Near (half 4 (reading [2000000000, -2000000000, 0, 1]) .thread0) := by decide
  exact not_sortsAscending (by decide) (by decide) notNear

end Result

end OsProjects.Sorting
