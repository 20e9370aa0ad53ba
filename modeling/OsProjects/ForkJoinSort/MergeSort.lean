import OsProjects.ForkJoinSort.OrdinarySort
import OsProjects.Theory.Sorting

/-!
Owns `merge_sort`: whatever the order of the steps of its goroutines, it sorts its slice, and no
two goroutines that run at the same time access a common element.

While the halves are merged, the elements in `result`, followed by the merge of what is left of
the halves, stay the same list. The loop takes the second of two equal elements, so it is the
second half that the list merge prefers.

Does not own the selection sort of short slices.
-/

namespace OsProjects.ForkJoinSort

open OsProjects.Theory OsProjects.Theory.Program
open scoped List

/-! ## The merge -/

namespace Slice

/-- `arr[:n/2]` -/
def firstHalf (arr : Slice) : Slice := ⟨arr.base, arr.len / 2⟩

/-- `arr[n/2:]` -/
def secondHalf (arr : Slice) : Slice := ⟨arr.base + arr.len / 2, arr.len - arr.len / 2⟩

end Slice

section Merge

variable {arr : Slice} {memory start : ℕ → Int} {m : Merging} {total result : List Int} {i : ℕ}

theorem halves_append (arr : Slice) (memory : ℕ → Int) :
    arr.firstHalf.contents memory ++ arr.secondHalf.contents memory = arr.contents memory := by
  have whole := contents_append memory arr.base (arr.len / 2) (arr.len - arr.len / 2)
  rwa [show arr.len / 2 + (arr.len - arr.len / 2) = arr.len by omega] at whole

/-- What is left of the first half. -/
def Merging.rest1 (arr : Slice) (memory : ℕ → Int) (m : Merging) : List Int :=
  Slice.contents ⟨arr.base + m.lo1, m.hi1 - m.lo1⟩ memory

/-- What is left of the second half. -/
def Merging.rest2 (arr : Slice) (memory : ℕ → Int) (m : Merging) : List Int :=
  Slice.contents ⟨arr.base + m.lo2, m.hi2 - m.lo2⟩ memory

/-- The first loop between two iterations, on its way to the list `total`. -/
structure MergesTo (arr : Slice) (memory : ℕ → Int) (total : List Int) (m : Merging) : Prop where
  inside1 : m.hi1 ≤ arr.len
  inside2 : m.hi2 ≤ arr.len
  total : m.result ++ (m.rest2 arr memory).merge (m.rest1 arr memory) = total

/-- The second loop between two iterations. -/
structure TakesRest (arr : Slice) (memory : ℕ → Int) (total : List Int) (m : Merging) : Prop where
  inside : m.hi1 ≤ arr.len
  total : m.result ++ m.rest1 arr memory = total

/-- The last loop between two iterations. -/
structure CopiesBack (arr : Slice) (start : ℕ → Int) (result : List Int) (i : ℕ)
    (memory : ℕ → Int) : Prop where
  copied : ∀ k, k < i → k < arr.len → result[k]? = some (memory (arr.base + k))
  elsewhere : ∀ address, address ∉ arr.cells → memory address = start address

theorem rest1_cons (more : m.lo1 < m.hi1) :
    m.rest1 arr memory = memory (arr.base + m.lo1) ::
      Slice.contents ⟨arr.base + (m.lo1 + 1), m.hi1 - (m.lo1 + 1)⟩ memory := by
  rw [Merging.rest1, show m.hi1 - m.lo1 = m.hi1 - (m.lo1 + 1) + 1 by omega, contents_cons]
  rfl

theorem rest2_cons (more : m.lo2 < m.hi2) :
    m.rest2 arr memory = memory (arr.base + m.lo2) ::
      Slice.contents ⟨arr.base + (m.lo2 + 1), m.hi2 - (m.lo2 + 1)⟩ memory := by
  rw [Merging.rest2, show m.hi2 - m.lo2 = m.hi2 - (m.lo2 + 1) + 1 by omega, contents_cons]
  rfl

/-- An iteration of the first loop takes the head of the merge. -/
theorem MergesTo.step (merges : MergesTo arr memory total m) (more1 : m.lo1 < m.hi1)
    (more2 : m.lo2 < m.hi2) :
    wp (mergeBody arr m) (fun after changed => (changed = memory ∧
        MergesTo arr memory total after) ∧
      after.hi1 - after.lo1 + (after.hi2 - after.lo2) < m.hi1 - m.lo1 + (m.hi2 - m.lo2))
      memory := by
  have below1 : m.lo1 < arr.len := more1.trans_le merges.inside1
  have below2 : m.lo2 < arr.len := more2.trans_le merges.inside2
  have list := merges.total
  rw [rest1_cons more1, rest2_cons more2] at list
  refine wp_bind (wp_get below1 (wp_bind (wp_get below2 ?_)))
  split
  · rename_i smaller
    refine wp_bind (wp_get below1 ⟨⟨rfl, merges.inside1, merges.inside2, ?_⟩, ?_⟩)
    · have taken := merge_take_first list smaller
      rwa [← rest2_cons more2] at taken
    · show m.hi1 - (m.lo1 + 1) + (m.hi2 - m.lo2) < _
      omega
  · rename_i notSmaller
    refine wp_bind (wp_get below2 ⟨⟨rfl, merges.inside1, merges.inside2, ?_⟩, ?_⟩)
    · have taken := merge_take_second list notSmaller
      rwa [← rest1_cons more1] at taken
    · show m.hi1 - m.lo1 + (m.hi2 - (m.lo2 + 1)) < _
      omega

/-- Once one half is used up, the other one is what the merge still has. -/
theorem MergesTo.handOver (merges : MergesTo arr memory total m)
    (ended : ¬(m.lo1 < m.hi1 ∧ m.lo2 < m.hi2)) : TakesRest arr memory total m.handOver := by
  have list := merges.total
  rw [Merging.handOver]
  split
  · rename_i more2
    rw [Merging.rest1, show m.hi1 - m.lo1 = 0 by omega, contents_nil, List.merge_right] at list
    exact ⟨merges.inside2, list⟩
  · rename_i none2
    rw [Merging.rest2, show m.hi2 - m.lo2 = 0 by omega, contents_nil, List.nil_merge] at list
    exact ⟨merges.inside1, list⟩

theorem TakesRest.step (takes : TakesRest arr memory total m) (more : m.lo1 < m.hi1) :
    wp (restBody arr m) (fun after changed => (changed = memory ∧
        TakesRest arr memory total after) ∧ after.hi1 - after.lo1 < m.hi1 - m.lo1) memory := by
  have list := takes.total
  rw [rest1_cons more] at list
  refine wp_bind (wp_get (more.trans_le takes.inside) ⟨⟨rfl, takes.inside, ?_⟩, ?_⟩)
  · rw [← list, List.append_assoc, List.singleton_append]
    rfl
  · show m.hi1 - (m.lo1 + 1) < _
    omega

theorem TakesRest.result_eq (takes : TakesRest arr memory total m) (ended : ¬m.lo1 < m.hi1) :
    m.result = total := by
  have list := takes.total
  rwa [Merging.rest1, show m.hi1 - m.lo1 = 0 by omega, contents_nil, List.append_nil] at list

theorem CopiesBack.step (copies : CopiesBack arr start result i memory) (inside : i < arr.len)
    (length : result.length = arr.len) :
    wp (copyBody arr result i ()) (fun _ => CopiesBack arr start result (i + 1)) memory := by
  have below : i < result.length := by omega
  have item : result[i]? = some result[i] := List.getElem?_eq_getElem below
  rw [copyBody, item]
  refine wp_set inside ⟨?_, ?_⟩
  · intro k before below
    by_cases last : k = i
    · rw [last, item, Function.update_self]
    · rw [copies.copied k (by omega) below, Function.update_of_ne (by omega)]
  · intro address outside
    rw [Function.update_of_ne, copies.elsewhere address outside]
    rintro rfl
    exact outside (mem_cells_of_lt inside)

theorem CopiesBack.contents_eq (copies : CopiesBack arr start result arr.len memory)
    (length : result.length = arr.len) : arr.contents memory = result := by
  apply List.ext_getElem?
  intro k
  by_cases below : k < arr.len
  · rw [contents_getElem below, copies.copied k below below]
  · rw [List.getElem?_eq_none (by rw [contents_length]; omega),
      List.getElem?_eq_none (by omega)]

/-- The merge leaves the list merge of the two halves in the slice. -/
theorem wp_mergeHalves (arr : Slice) (memory : ℕ → Int) :
    wp (mergeHalves arr) (fun _ after => arr.contents after =
        (arr.secondHalf.contents memory).merge (arr.firstHalf.contents memory) ∧
      ∀ address, address ∉ arr.cells → after address = memory address) memory := by
  let total := (arr.secondHalf.contents memory).merge (arr.firstHalf.contents memory)
  have length : total.length = arr.len := by
    rw [List.length_merge, contents_length, contents_length]
    show arr.len - arr.len / 2 + arr.len / 2 = arr.len
    omega
  have merges : MergesTo arr memory total ⟨0, arr.len / 2, arr.len / 2, arr.len, []⟩ :=
    ⟨Nat.div_le_self _ _, Nat.le_refl _, rfl⟩
  refine wp_bind (wp_mono (wp_whileWithin
    (fun m changed => changed = memory ∧ MergesTo arr memory total m)
    (fun m => m.hi1 - m.lo1 + (m.hi2 - m.lo2)) ?_ ⟨rfl, merges⟩ ?_) ?_)
  · rintro m changed ⟨rfl, merges⟩ goesOn
    have more := of_decide_eq_true goesOn
    exact merges.step more.1 more.2
  · show arr.len / 2 - 0 + (arr.len - arr.len / 2) ≤ arr.len
    omega
  rintro m changed ⟨⟨rfl, merges⟩, ended⟩
  have takes := merges.handOver (of_decide_eq_false ended)
  refine wp_bind (wp_mono (wp_whileWithin
    (fun m after => after = changed ∧ TakesRest arr changed total m)
    (fun m => m.hi1 - m.lo1) ?_ ⟨rfl, takes⟩ ?_) ?_)
  · rintro m after ⟨rfl, takes⟩ goesOn
    exact takes.step (of_decide_eq_true goesOn)
  · have inside := takes.inside
    omega
  rintro m after ⟨⟨rfl, takes⟩, ended⟩
  rw [takes.result_eq (of_decide_eq_false ended)]
  have copies : CopiesBack arr after total 0 after :=
    ⟨fun k below => absurd below (Nat.not_lt_zero k), fun _ _ => rfl⟩
  have run : wp (forRange (copyBody arr total) arr.len 0 ())
      (fun _ => CopiesBack arr after total (0 + arr.len)) after :=
    wp_forRange (fun i _ changed => CopiesBack arr after total i changed)
      (fun _ upper copies => copies.step (by omega) length) copies
  apply wp_mono run
  intro _ changed copied
  rw [Nat.zero_add] at copied
  exact ⟨copied.contents_eq length, copied.elsewhere⟩

end Merge

/-! ## The recursion -/

section Recursion

variable {arr : Slice} {memory between after : ℕ → Int} {depth : ℕ}

theorem firstHalf_apart (arr : Slice) : Disjoint arr.firstHalf.cells arr.secondHalf.cells := by
  rw [Set.disjoint_left]
  intro address first second
  simp only [mem_cells, Slice.firstHalf, Slice.secondHalf] at first second
  omega

theorem firstHalf_subset (arr : Slice) : arr.firstHalf.cells ⊆ arr.cells := by
  intro address inside
  simp only [mem_cells, Slice.firstHalf] at inside ⊢
  omega

theorem secondHalf_subset (arr : Slice) : arr.secondHalf.cells ⊆ arr.cells := by
  intro address inside
  simp only [mem_cells, Slice.secondHalf] at inside ⊢
  omega

/-- Two sorted halves that are merged make a sorted slice. -/
theorem SortsInPlace.merge {joined : ℕ → Int} (first : SortsInPlace arr.firstHalf memory between)
    (second : SortsInPlace arr.secondHalf between joined)
    (merged : arr.contents after =
      (arr.secondHalf.contents joined).merge (arr.firstHalf.contents joined))
    (elsewhere : ∀ address, address ∉ arr.cells → after address = joined address) :
    SortsInPlace arr memory after := by
  have apart := Set.disjoint_left.mp (firstHalf_apart arr)
  have firstKept : arr.firstHalf.contents joined = arr.firstHalf.contents between :=
    contents_congr fun address inside => second.elsewhere address (apart inside)
  have secondKept : arr.secondHalf.contents between = arr.secondHalf.contents memory :=
    contents_congr fun address inside =>
      first.elsewhere address fun insideToo => apart insideToo inside
  refine ⟨⟨?_, ?_⟩, ?_⟩
  · calc arr.contents after
        = (arr.secondHalf.contents joined).merge (arr.firstHalf.contents between) := by
          rw [merged, firstKept]
      _ ~ arr.secondHalf.contents joined ++ arr.firstHalf.contents between :=
          List.merge_perm_append _
      _ ~ arr.secondHalf.contents memory ++ arr.firstHalf.contents memory :=
          (secondKept ▸ second.perm).append first.perm
      _ ~ arr.firstHalf.contents memory ++ arr.secondHalf.contents memory :=
          List.perm_append_comm
      _ = arr.contents memory := halves_append arr memory
  · intro address outside
    rw [elsewhere address outside,
      second.elsewhere address fun inside => outside (secondHalf_subset arr inside),
      first.elsewhere address fun inside => outside (firstHalf_subset arr inside)]
  · rw [merged, firstKept]
    exact merge_ascending second.ascending first.ascending

theorem wp_mergeSortWithin (deep : arr.len < depth) (memory : ℕ → Int) :
    wp (mergeSortWithin depth arr) (fun _ after => SortsInPlace arr memory after) memory := by
  induction depth generalizing arr memory with
  | zero => exact absurd deep (Nat.not_lt_zero _)
  | succ depth inductionHypothesis =>
      rw [mergeSortWithin]
      split
      · exact wp_ordinarySort arr memory
      · rename_i long
        simp only [threshold] at long
        have firstShorter : arr.firstHalf.len < depth := by
          simp only [Slice.firstHalf]
          omega
        have first : wp (do mergeSortWithin depth (← arr.sliceTo (arr.len / 2)))
            (fun _ after => SortsInPlace arr.firstHalf memory after) memory := by
          refine wp_bind (wp_sliceTo (Nat.div_le_self _ _) ?_)
          exact inductionHypothesis firstShorter memory
        refine wp_fork (wp_mono first fun _ between firstSorted => ?_)
        have secondShorter : arr.secondHalf.len < depth := by
          simp only [Slice.secondHalf]
          omega
        have second : wp (do mergeSortWithin depth (← arr.sliceFrom (arr.len / 2)))
            (fun _ after => SortsInPlace arr.secondHalf between after) between := by
          refine wp_bind (wp_sliceFrom (Nat.div_le_self _ _) ?_)
          exact inductionHypothesis secondShorter between
        apply wp_mono second
        intro _ joined secondSorted
        apply wp_mono (wp_mergeHalves arr joined)
        rintro _ after ⟨merged, elsewhere⟩
        exact firstSorted.merge secondSorted merged elsewhere

theorem confined_mergeHalves (arr : Slice) : Confined (mergeHalves arr) arr.cells := by
  refine Confined.bind (.whileWithin (fun m => ?_) _ _) fun m =>
    .bind (.whileWithin (fun m => ?_) _ _) fun m => .forRange (fun i _ => ?_) _ _ _
  · refine (confined_get arr _).bind fun first => (confined_get arr _).bind fun second => ?_
    split
    · exact (confined_get arr _).bind fun _ => trivial
    · exact (confined_get arr _).bind fun _ => trivial
  · exact (confined_get arr _).bind fun _ => trivial
  · rw [copyBody]
    split
    · exact confined_set arr i _
    · trivial

theorem confined_mergeSortWithin (depth : ℕ) (arr : Slice) :
    Confined (mergeSortWithin depth arr) arr.cells := by
  induction depth generalizing arr with
  | zero => trivial
  | succ depth inductionHypothesis =>
      rw [mergeSortWithin]
      split
      · exact confined_ordinarySort arr
      · exact ⟨⟨arr.firstHalf.cells, arr.secondHalf.cells, firstHalf_subset arr,
          secondHalf_subset arr, firstHalf_apart arr,
          confined_sliceTo fun _ => inductionHypothesis arr.firstHalf,
          confined_sliceFrom fun _ => inductionHypothesis arr.secondHalf⟩,
          confined_mergeHalves arr⟩

theorem computes_mergeSort (arr : Slice) (memory : ℕ → Int) :
    Computes (mergeSort arr) memory fun _ after => SortsInPlace arr memory after :=
  computes_of_wp (confined_mergeSortWithin _ arr)
    (wp_mergeSortWithin (Nat.lt_succ_self _) memory)

/-- However its goroutines interleave, `merge_sort` ends without a panic and sorts its slice; and
at every level of the recursion the two goroutines keep to disjoint parts of it. -/
theorem mergeSort_sorts (arr : Slice) (memory : ℕ → Int) :
    (Computes (mergeSort arr) memory fun _ after => SortsInPlace arr memory after) ∧
      Confined (mergeSort arr) arr.cells :=
  ⟨computes_mergeSort arr memory, confined_mergeSortWithin _ arr⟩

end Recursion

end OsProjects.ForkJoinSort
