import Mathlib.Data.List.OfFn
import Mathlib.Logic.Relation
import OsProjects.C.Array
import OsProjects.Theory.Sorting

/-!
Owns the translation of `multithreaded_sort.c`: the comparison, the two runner
threads, the merge and the order in which `main` lets them work.

`qsort` is the library's: it may do to its range whatever `Sorts` allows. One
call is one step of a thread. The difference of two values wraps modulo 2^32.
The block that `malloc` returns has `array_size` entries of any content.

Does not own input and output.
-/

namespace OsProjects.Sorting

open OsProjects.C
open OsProjects.Theory

def maxNum : ℕ := 100

/-- `array` -/
abbrev Numbers := Fin maxNum → Int

/-- `cmp` -/
def cmp (a b : Int) : Int := (a - b).bmod 4294967296

/-- The `count` entries of the array from `low` on. -/
def segment {capacity : ℕ} (array : Fin capacity → Int) (low count : ℕ) : List Int :=
  ((List.ofFn array).drop low).take count

/-- `qsort(array + low, count, sizeof(int), compare)` -/
structure QsortRange (compare : Int → Int → Int) (low count : ℕ) (before after : Numbers) :
    Prop where
  outside : ∀ i : Fin maxNum, i.val < low ∨ low + count ≤ i.val → after i = before i
  sorts : Sorts compare (segment before low count) (segment after low count)

/-! ## The threads -/

/-- `parameters` -/
structure Parameters where
  low : ℕ
  high : ℕ
deriving DecidableEq, Repr

/-- The two threads, under the numbers `main` prints. -/
inductive ThreadId where
  | thread0
  | thread1
deriving DecidableEq, Repr

/-- `data[i]`, as `main` sets it. -/
def data (arraySize : ℕ) : ThreadId → Parameters
  | .thread0 => ⟨0, arraySize / 2⟩
  | .thread1 => ⟨arraySize / 2, arraySize⟩

/-- The global array, and which threads have returned. -/
structure State where
  array : Numbers
  returned : ThreadId → Bool

/-- After `init_array`, with both threads created. -/
def start (input : Numbers) : State where
  array := input
  returned := fun _ => false

/-- `runner`, as one of the threads executes it. -/
inductive Runner (arraySize : ℕ) : State → State → Prop where
  | sort {s : State} {after : Numbers} (thread : ThreadId) (running : s.returned thread = false)
      (sorted : QsortRange cmp (data arraySize thread).low
        ((data arraySize thread).high - (data arraySize thread).low) s.array after) :
      Runner arraySize s ⟨after, Function.update s.returned thread true⟩

/-- A state in which `main` has joined both threads. -/
structure Joined (arraySize : ℕ) (input : Numbers) (s : State) : Prop where
  reached : Relation.ReflTransGen (Runner arraySize) (start input) s
  returned : ∀ thread, s.returned thread = true

/-! ## The merge

The array may have any capacity here. -/

/-- The variables of `merge_array`. -/
structure Merging (size : ℕ) where
  low1 : ℕ
  high1 : ℕ
  low2 : ℕ
  high2 : ℕ
  i : ℕ
  result : Fin size → Int

/-- One iteration of the first loop. -/
def mergeBody {capacity size : ℕ} (array : Fin capacity → Int) (m : Merging size) :
    Outcome (LoopStep (Merging size) (Merging size)) := do
  let first ← read array m.low1
  let second ← read array m.low2
  if first < second then
    let result ← write m.result m.i first
    pure (.next { m with result, i := m.i + 1, low1 := m.low1 + 1 })
  else
    let result ← write m.result m.i second
    pure (.next { m with result, i := m.i + 1, low2 := m.low2 + 1 })

/-- One iteration of the last loop. -/
def copyBody {capacity size : ℕ} (array : Fin capacity → Int) (m : Merging size) :
    Outcome (LoopStep (Merging size) (Merging size)) := do
  let value ← read array m.low1
  let result ← write m.result m.i value
  pure (.next { m with result, i := m.i + 1, low1 := m.low1 + 1 })

/-- The second half is the one that is left over. -/
def Merging.chooseRest {size : ℕ} (m : Merging size) : Merging size :=
  if m.low2 < m.high2 then { m with low1 := m.low2, high1 := m.high2 } else m

/-- `merge_array`; `array_size` is the length of `result`. -/
def mergeArray {capacity size : ℕ} (array : Fin capacity → Int) (result : Fin size → Int) :
    Outcome (Fin size → Int) := do
  let merged ← whileLoop (fun m => m.low1 < m.high1 ∧ m.low2 < m.high2) (mergeBody array) size
    ⟨0, size / 2, size / 2, size, 0, result⟩
  let rest := merged.state.chooseRest
  let copied ← whileLoop (fun m => m.low1 < m.high1) (copyBody array) size rest
  pure copied.state.result

/-! ## The result -/

/-- However the threads run, the merge of what they leave returns the numbers in
ascending order. -/
def SortsAscending (arraySize : ℕ) (input : Numbers) : Prop :=
  ∀ s, Joined arraySize input s → ∀ garbage : Fin arraySize → Int,
    ∃ result, mergeArray s.array garbage = .ok result ∧
      (List.ofFn result).Pairwise (· ≤ ·) ∧
      (List.ofFn result).Perm (segment input 0 arraySize)

end OsProjects.Sorting
