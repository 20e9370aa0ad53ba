import OsProjects.ForkJoinSort.MergeSort

/-!
Owns `quick_sort`: whatever pivots are chosen and whatever the order of the steps of its
goroutines, it sorts its slice, and it leaves what the other two sorts leave.

The loop keeps the elements before `lo` below the pivot, and those between `lo` and `i` not below
it. It also visits the last place, where the pivot is kept; there it changes nothing, and so `lo`
stays inside the slice.

Does not own the selection sort of short slices.
-/

namespace OsProjects.ForkJoinSort

open OsProjects.Theory OsProjects.Theory.Program
open scoped List

/-! ## The partition -/

/-- What the partition of the slice around a value leaves. -/
structure Partitioned (arr : Slice) (value : Int) (lo : ℕ) (memory : ℕ → Int) : Prop where
  inside : lo < arr.len
  below : ∀ k, k < lo → memory (arr.base + k) < value
  here : memory (arr.base + lo) = value
  above : ∀ k, lo < k → k < arr.len → value ≤ memory (arr.base + k)

/-- The loop before iteration `i`, with the pivot at the last place. -/
structure Partitions (arr : Slice) (start : ℕ → Int) (value : Int) (i lo : ℕ)
    (memory : ℕ → Int) : Prop where
  rearranges : Rearranges arr start memory
  visited : lo ≤ i
  inside : lo < arr.len
  pivot : memory (arr.base + (arr.len - 1)) = value
  below : ∀ k, k < lo → memory (arr.base + k) < value
  above : ∀ k, lo ≤ k → k < i → k < arr.len → value ≤ memory (arr.base + k)

section Partition

variable {arr : Slice} {start memory : ℕ → Int} {value : Int} {i lo pivot : ℕ}

/-- An element below the pivot changes places with the first one that is not. -/
theorem Partitions.swap (partitions : Partitions arr start value i lo memory)
    (inside : i < arr.len) (smaller : memory (arr.base + i) < value) :
    Partitions arr start value (i + 1) (lo + 1)
      (memory ∘ Equiv.swap (arr.base + lo) (arr.base + i)) := by
  have visited := partitions.visited
  have notLast : i ≠ arr.len - 1 := by
    rintro rfl
    rw [partitions.pivot] at smaller
    exact lt_irrefl _ smaller
  refine ⟨partitions.rearranges.trans (.swap memory partitions.inside inside), by omega, by omega,
    ?_, ?_, ?_⟩
  · rw [swapped_eq, if_neg (by omega), if_neg (by omega)]
    exact partitions.pivot
  · intro k before
    rw [swapped_eq]
    by_cases last : k = lo
    · rw [if_pos last]
      exact smaller
    · rw [if_neg last, if_neg (by omega)]
      exact partitions.below k (by omega)
  · intro k lower upper below
    rw [swapped_eq, if_neg (by omega)]
    by_cases last : k = i
    · -- the element that made way was not below the pivot
      rw [if_pos last]
      exact partitions.above lo (Nat.le_refl _) (by omega) partitions.inside
    · rw [if_neg last]
      exact partitions.above k (by omega) (by omega) below

theorem Partitions.step (partitions : Partitions arr start value i lo memory)
    (inside : i < arr.len) :
    wp (partitionBody arr (arr.len - 1) i lo) (Partitions arr start value (i + 1)) memory := by
  refine wp_bind (wp_get inside (wp_bind (wp_get (by omega) ?_)))
  rw [partitions.pivot]
  split
  · rename_i smaller
    exact wp_bind (wp_swap partitions.inside inside (partitions.swap inside smaller))
  · rename_i notSmaller
    refine ⟨partitions.rearranges, Nat.le_succ_of_le partitions.visited, partitions.inside,
      partitions.pivot, partitions.below, ?_⟩
    intro k lower upper below
    by_cases last : k = i
    · rw [last]
      exact Int.not_lt.mp notSmaller
    · exact partitions.above k lower (by omega) below

/-- After the loop the pivot is put between the two parts. -/
theorem Partitions.finish (partitions : Partitions arr start value arr.len lo memory) :
    Partitioned arr value lo (memory ∘ Equiv.swap (arr.base + lo) (arr.base + (arr.len - 1))) := by
  have inside := partitions.inside
  refine ⟨inside, ?_, ?_, ?_⟩
  · intro k before
    rw [swapped_eq, if_neg (by omega), if_neg (by omega)]
    exact partitions.below k before
  · rw [swapped_eq, if_pos rfl]
    exact partitions.pivot
  · intro k behind below
    rw [swapped_eq, if_neg (by omega)]
    split
    · exact partitions.above lo (Nat.le_refl _) inside inside
    · exact partitions.above k (by omega) below below

/-- The slice is partitioned around the element at the chosen index. -/
theorem wp_partitionAround (inside : pivot < arr.len) (memory : ℕ → Int) :
    wp (partitionAround arr pivot) (fun lo after => Rearranges arr memory after ∧
      Partitioned arr (memory (arr.base + pivot)) lo after) memory := by
  have last : arr.len - 1 < arr.len := by omega
  refine wp_bind (wp_swap last inside (wp_bind ?_))
  let parked := memory ∘ Equiv.swap (arr.base + (arr.len - 1)) (arr.base + pivot)
  have first : Partitions arr memory (memory (arr.base + pivot)) 0 0 parked := by
    refine ⟨.swap memory last inside, Nat.le_refl _, by omega, ?_, ?_, ?_⟩
    · show (memory ∘ _) _ = _
      rw [swapped_eq, if_pos rfl]
    · exact fun k below => absurd below (Nat.not_lt_zero k)
    · exact fun k _ below => absurd below (Nat.not_lt_zero k)
  have run : wp (forRange (partitionBody arr (arr.len - 1)) arr.len 0 0)
      (Partitions arr memory (memory (arr.base + pivot)) (0 + arr.len)) parked :=
    wp_forRange (fun i lo changed => Partitions arr memory (memory (arr.base + pivot)) i lo changed)
      (fun _ upper partitions => partitions.step (by omega)) first
  refine wp_mono run fun lo changed partitions => wp_bind ?_
  rw [Nat.zero_add] at partitions
  exact wp_swap partitions.inside last
    ⟨partitions.rearranges.trans (.swap changed partitions.inside last), partitions.finish⟩

theorem confined_partitionAround (arr : Slice) (pivot : ℕ) :
    Confined (partitionAround arr pivot) arr.cells := by
  refine (confined_swap arr _ _).bind fun _ => Confined.bind (.forRange (fun i lo => ?_) _ _ _)
    fun lo => (confined_swap arr _ _).bind fun _ => trivial
  refine (confined_get arr _).bind fun item => (confined_get arr _).bind fun pivot => ?_
  split
  · exact (confined_swap arr _ _).bind fun _ => trivial
  · trivial

end Partition

/-! ## The recursion -/

namespace Slice

/-- `arr[:lo]` -/
def before (arr : Slice) (lo : ℕ) : Slice := ⟨arr.base, lo⟩

/-- `arr[lo+1:]` -/
def behind (arr : Slice) (lo : ℕ) : Slice := ⟨arr.base + (lo + 1), arr.len - (lo + 1)⟩

end Slice

section Recursion

variable {arr : Slice} {start memory between after : ℕ → Int} {value : Int} {lo depth : ℕ}

theorem before_apart (arr : Slice) (lo : ℕ) :
    Disjoint (arr.before lo).cells (arr.behind lo).cells := by
  rw [Set.disjoint_left]
  intro address first second
  simp only [mem_cells, Slice.before, Slice.behind] at first second
  omega

theorem before_subset (inside : lo ≤ arr.len) : (arr.before lo).cells ⊆ arr.cells := by
  intro address member
  simp only [mem_cells, Slice.before] at member ⊢
  omega

theorem behind_subset (arr : Slice) (lo : ℕ) : (arr.behind lo).cells ⊆ arr.cells := by
  intro address member
  simp only [mem_cells, Slice.behind] at member ⊢
  omega

theorem parts_append (inside : lo < arr.len) (memory : ℕ → Int) :
    (arr.before lo).contents memory ++ memory (arr.base + lo) :: (arr.behind lo).contents memory =
      arr.contents memory := by
  have whole := contents_append memory arr.base lo (arr.len - (lo + 1) + 1)
  rw [contents_cons] at whole
  rwa [show lo + (arr.len - (lo + 1) + 1) = arr.len by omega] at whole

/-- Two sorted parts around the pivot make a sorted slice. -/
theorem Partitioned.sorts (partitioned : Partitioned arr value lo memory)
    (rearranges : Rearranges arr start memory) (first : SortsInPlace (arr.before lo) memory between)
    (second : SortsInPlace (arr.behind lo) between after) : SortsInPlace arr start after := by
  have inside := partitioned.inside
  have apart := Set.disjoint_left.mp (before_apart arr lo)
  have firstKept : (arr.before lo).contents after = (arr.before lo).contents between :=
    contents_congr fun address member => second.elsewhere address (apart member)
  have secondKept : (arr.behind lo).contents between = (arr.behind lo).contents memory :=
    contents_congr fun address member =>
      first.elsewhere address fun memberToo => apart memberToo member
  have pivotKept : after (arr.base + lo) = value := by
    rw [second.elsewhere _ (by simp only [mem_cells, Slice.behind]; omega),
      first.elsewhere _ (by simp only [mem_cells, Slice.before]; omega), partitioned.here]
  have firstPerm : (arr.before lo).contents after ~ (arr.before lo).contents memory := by
    rw [firstKept]
    exact first.perm
  have secondPerm : (arr.behind lo).contents after ~ (arr.behind lo).contents memory := by
    rw [← secondKept]
    exact second.perm
  have small : ∀ a ∈ (arr.before lo).contents after, a < value := by
    intro a member
    obtain ⟨k, below, rfl⟩ := mem_contents.mp (firstPerm.mem_iff.mp member)
    exact partitioned.below k below
  have large : ∀ a ∈ (arr.behind lo).contents after, value ≤ a := by
    intro a member
    obtain ⟨k, below, rfl⟩ := mem_contents.mp (secondPerm.mem_iff.mp member)
    have element := partitioned.above (lo + 1 + k) (by omega)
      (by simp only [Slice.behind] at below; omega)
    rwa [← Nat.add_assoc] at element
  refine ⟨rearranges.trans ⟨?_, ?_⟩, ?_⟩
  · rw [← parts_append inside after, ← parts_append inside memory, pivotKept, partitioned.here]
    exact firstPerm.append (secondPerm.cons value)
  · intro address outside
    rw [second.elsewhere address fun member => outside (behind_subset arr lo member),
      first.elsewhere address fun member => outside (before_subset inside.le member)]
  · rw [← parts_append inside after, pivotKept, List.pairwise_append, List.pairwise_cons]
    refine ⟨?_, ⟨large, second.ascending⟩, ?_⟩
    · rw [firstKept]
      exact first.ascending
    · intro a aMember b bMember
      rcases List.mem_cons.mp bMember with rfl | later
      · exact (small a aMember).le
      · exact (small a aMember).le.trans (large b later)

theorem wp_quickSortWithin (deep : arr.len < depth) (memory : ℕ → Int) :
    wp (quickSortWithin depth arr) (fun _ after => SortsInPlace arr memory after) memory := by
  induction depth generalizing arr memory with
  | zero => exact absurd deep (Nat.not_lt_zero _)
  | succ depth inductionHypothesis =>
      rw [quickSortWithin]
      split
      · exact wp_ordinarySort arr memory
      · rename_i long
        simp only [threshold] at long
        rw [intn, if_pos (by omega)]
        refine wp_bind ⟨by omega, fun pivot below => ?_⟩
        refine wp_bind (wp_mono (wp_partitionAround below memory) ?_)
        rintro lo divided ⟨rearranges, partitioned⟩
        have inside := partitioned.inside
        have firstShorter : (arr.before lo).len < depth := by
          simp only [Slice.before]
          omega
        have first : wp (do quickSortWithin depth (← arr.sliceTo lo))
            (fun _ after => SortsInPlace (arr.before lo) divided after) divided := by
          refine wp_bind (wp_sliceTo inside.le ?_)
          exact inductionHypothesis firstShorter divided
        refine wp_fork (wp_mono first fun _ between firstSorted => ?_)
        have secondShorter : (arr.behind lo).len < depth := by
          simp only [Slice.behind]
          omega
        have second : wp (do quickSortWithin depth (← arr.sliceFrom (lo + 1)))
            (fun _ after => SortsInPlace (arr.behind lo) between after) between := by
          refine wp_bind (wp_sliceFrom inside ?_)
          exact inductionHypothesis secondShorter between
        exact wp_mono second fun _ after secondSorted =>
          partitioned.sorts rearranges firstSorted secondSorted

theorem confined_intn (n : ℕ) (part : Set ℕ) : Confined (intn n) part := by
  rw [intn]
  split
  · exact fun _ _ => trivial
  · trivial

theorem confined_quickSortWithin (depth : ℕ) (arr : Slice) :
    Confined (quickSortWithin depth arr) arr.cells := by
  induction depth generalizing arr with
  | zero => trivial
  | succ depth inductionHypothesis =>
      rw [quickSortWithin]
      split
      · exact confined_ordinarySort arr
      · refine (confined_intn _ _).bind fun pivot =>
          (confined_partitionAround arr pivot).bind fun lo => ⟨?_, trivial⟩
        -- a bound that is too large is a panic, so that no access is made through it
        refine ⟨(arr.before lo).cells ∩ arr.cells, (arr.behind lo).cells, Set.inter_subset_right,
          behind_subset arr lo, (before_apart arr lo).mono_left Set.inter_subset_left, ?_, ?_⟩
        · refine confined_sliceTo fun inside => (inductionHypothesis (arr.before lo)).mono ?_
          exact Set.subset_inter (Set.Subset.refl _) (before_subset inside)
        · exact confined_sliceFrom fun _ => inductionHypothesis (arr.behind lo)

theorem computes_quickSort (arr : Slice) (memory : ℕ → Int) :
    Computes (quickSort arr) memory fun _ after => SortsInPlace arr memory after :=
  computes_of_wp (confined_quickSortWithin _ arr)
    (wp_quickSortWithin (Nat.lt_succ_self _) memory)

end Recursion

/-! ## The three sorts -/

/-- All runs of the three sorts end with the same elements in the slice. -/
theorem sorts_agree (arr : Slice) (memory : ℕ → Int) :
    ∃ sorted, ∀ after, (EndsIn (quickSort arr) memory () after ↔ after = sorted) ∧
      (EndsIn (mergeSort arr) memory () after ↔ after = sorted) ∧
      (EndsIn (ordinarySort arr) memory () after ↔ after = sorted) := by
  obtain ⟨_, sorted, _, sorts⟩ := (computes_ordinarySort arr memory).exists_end
  have unique : ∀ other, SortsInPlace arr memory other ↔ other = sorted := by
    intro other
    constructor
    · intro sortsToo
      exact sortsToo.unique sorts
    · rintro rfl
      exact sorts
  exact ⟨sorted, fun after => ⟨(computes_quickSort arr memory).endsIn_iff unique,
    (computes_mergeSort arr memory).endsIn_iff unique,
    (computes_ordinarySort arr memory).endsIn_iff unique⟩⟩

/-- However its goroutines interleave and whatever pivots are chosen, `quick_sort` ends without a
panic and sorts its slice, with the same result as the other two sorts; and whatever pivot is
chosen, the partition puts it between the smaller elements and the others. -/
theorem quickSort_sorts (arr : Slice) (memory : ℕ → Int) :
    (Computes (quickSort arr) memory fun _ after => SortsInPlace arr memory after) ∧
      (∃ sorted, ∀ after, (EndsIn (quickSort arr) memory () after ↔ after = sorted) ∧
        (EndsIn (mergeSort arr) memory () after ↔ after = sorted) ∧
        (EndsIn (ordinarySort arr) memory () after ↔ after = sorted)) ∧
      ∀ pivot, pivot < arr.len → Computes (partitionAround arr pivot) memory fun lo after =>
        Rearranges arr memory after ∧ Partitioned arr (memory (arr.base + pivot)) lo after :=
  ⟨computes_quickSort arr memory, sorts_agree arr memory, fun pivot inside =>
    computes_of_wp (confined_partitionAround arr pivot) (wp_partitionAround inside memory)⟩

end OsProjects.ForkJoinSort
