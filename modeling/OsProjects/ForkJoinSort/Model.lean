import OsProjects.Theory.ForkJoin

/-!
Owns `sort.go`: selection sort, and merge sort and quick sort with a goroutine for each of the two
recursive calls.

All slices are windows of one array of `int`, and every access to it is a step of its own, so that
goroutines interleave access by access. The local slice `result` is a list. A goroutine pair with
its wait group is a fork. An index or the bound of a slice expression that is too large is a
panic; the bound is compared with the length, which is at most the capacity. Recursion and the
loops without a counter are given as many rounds as the slice is long.

Does not own the output, or `main`.
-/

namespace OsProjects.ForkJoinSort

open OsProjects.Theory

/-- The ways a goroutine can fail. -/
inductive Panic where
  | indexOutOfRange
  | sliceBoundsOutOfRange
  | invalidArgument
  | divergence
deriving DecidableEq, Repr

/-- A function of the program, over the elements of the array. -/
abbrev Go := Program Panic ℕ Int

/-- A slice: `len` elements of the array from `base` on. -/
structure Slice where
  base : ℕ
  len : ℕ

/-! ## Slices -/

/-- `arr[index]` -/
def Slice.get (arr : Slice) (index : ℕ) : Go Int :=
  if index < arr.len then .read (arr.base + index) .pure else .fail .indexOutOfRange

/-- `arr[index] = value` -/
def Slice.set (arr : Slice) (index : ℕ) (value : Int) : Go Unit :=
  if index < arr.len then .write (arr.base + index) value (.pure ()) else .fail .indexOutOfRange

/-- `arr[i], arr[j] = arr[j], arr[i]` -/
def Slice.swap (arr : Slice) (i j : ℕ) : Go Unit := do
  let first ← arr.get j
  let second ← arr.get i
  arr.set i first
  arr.set j second

/-- `arr[:hi]` -/
def Slice.sliceTo (arr : Slice) (hi : ℕ) : Go Slice :=
  if hi ≤ arr.len then .pure ⟨arr.base, hi⟩ else .fail .sliceBoundsOutOfRange

/-- `arr[lo:]` -/
def Slice.sliceFrom (arr : Slice) (lo : ℕ) : Go Slice :=
  if lo ≤ arr.len then .pure ⟨arr.base + lo, arr.len - lo⟩ else .fail .sliceBoundsOutOfRange

/-- `rand.Intn` -/
def intn (n : ℕ) : Go ℕ :=
  if 0 < n then .choose n .pure else .fail .invalidArgument

/-! ## `ordinary_sort` -/

/-- `THRESHOLD` -/
def threshold : ℕ := 100

/-- `min_pos` and `min_item` -/
structure Minimum where
  pos : ℕ
  item : Int

/-- One iteration of the inner loop of `ordinary_sort`. -/
def minimumBody (arr : Slice) (j : ℕ) (min : Minimum) : Go Minimum := do
  let item ← arr.get j
  if item < min.item then
    let item ← arr.get j
    pure ⟨j, item⟩
  else
    pure min

/-- One iteration of the outer loop of `ordinary_sort`. -/
def ordinaryBody (arr : Slice) (i : ℕ) (_ : Unit) : Go Unit := do
  let item ← arr.get i
  let min ← Program.forRange (minimumBody arr) (arr.len - (i + 1)) (i + 1) ⟨i, item⟩
  arr.swap i min.pos

/-- `ordinary_sort` -/
def ordinarySort (arr : Slice) : Go Unit :=
  Program.forRange (ordinaryBody arr) arr.len 0 ()

/-! ## `merge_sort` -/

/-- The local variables of `merge_sort`. -/
structure Merging where
  lo1 : ℕ
  hi1 : ℕ
  lo2 : ℕ
  hi2 : ℕ
  result : List Int

/-- One iteration of the first loop of the merge. -/
def mergeBody (arr : Slice) (m : Merging) : Go Merging := do
  let first ← arr.get m.lo1
  let second ← arr.get m.lo2
  if first < second then
    let item ← arr.get m.lo1
    pure { m with result := m.result ++ [item], lo1 := m.lo1 + 1 }
  else
    let item ← arr.get m.lo2
    pure { m with result := m.result ++ [item], lo2 := m.lo2 + 1 }

/-- What is left of the second half becomes the first range. -/
def Merging.handOver (m : Merging) : Merging :=
  if m.lo2 < m.hi2 then { m with lo1 := m.lo2, hi1 := m.hi2 } else m

/-- One iteration of the second loop of the merge. -/
def restBody (arr : Slice) (m : Merging) : Go Merging := do
  let item ← arr.get m.lo1
  pure { m with result := m.result ++ [item], lo1 := m.lo1 + 1 }

/-- One iteration of the last loop of the merge. -/
def copyBody (arr : Slice) (result : List Int) (i : ℕ) (_ : Unit) : Go Unit :=
  match result[i]? with
  | some item => arr.set i item
  | none => .fail .indexOutOfRange

/-- `merge_sort` after both goroutines are done. -/
def mergeHalves (arr : Slice) : Go Unit := do
  let n := arr.len
  let m ← Program.whileWithin .divergence (fun m => m.lo1 < m.hi1 ∧ m.lo2 < m.hi2) (mergeBody arr)
    n ⟨0, n / 2, n / 2, n, []⟩
  let m ← Program.whileWithin .divergence (fun m => m.lo1 < m.hi1) (restBody arr) n m.handOver
  Program.forRange (copyBody arr m.result) n 0 ()

/-- `merge_sort`, with a bound for the depth of the recursion. -/
def mergeSortWithin : ℕ → Slice → Go Unit
  | 0, _ => .fail .divergence
  | depth + 1, arr =>
      if arr.len ≤ threshold then ordinarySort arr
      else
        .fork
          (do mergeSortWithin depth (← arr.sliceTo (arr.len / 2)))
          (do mergeSortWithin depth (← arr.sliceFrom (arr.len / 2)))
          (mergeHalves arr)

/-- `merge_sort` -/
def mergeSort (arr : Slice) : Go Unit := mergeSortWithin (arr.len + 1) arr

/-! ## `quick_sort` -/

/-- One iteration of the loop of `quick_sort`. -/
def partitionBody (arr : Slice) (hi i lo : ℕ) : Go ℕ := do
  let item ← arr.get i
  let pivot ← arr.get hi
  if item < pivot then
    arr.swap lo i
    pure (lo + 1)
  else
    pure lo

/-- What `quick_sort` does with the chosen pivot before it starts the goroutines; the result is
`lo`. -/
def partitionAround (arr : Slice) (pivot : ℕ) : Go ℕ := do
  let hi := arr.len - 1
  arr.swap hi pivot
  let lo ← Program.forRange (partitionBody arr hi) arr.len 0 0
  arr.swap lo hi
  pure lo

/-- `quick_sort`, with a bound for the depth of the recursion. -/
def quickSortWithin : ℕ → Slice → Go Unit
  | 0, _ => .fail .divergence
  | depth + 1, arr =>
      if arr.len ≤ threshold then ordinarySort arr
      else do
        let pivot ← intn arr.len
        let lo ← partitionAround arr pivot
        .fork
          (do quickSortWithin depth (← arr.sliceTo lo))
          (do quickSortWithin depth (← arr.sliceFrom (lo + 1)))
          (pure ())

/-- `quick_sort` -/
def quickSort (arr : Slice) : Go Unit := quickSortWithin (arr.len + 1) arr

end OsProjects.ForkJoinSort
