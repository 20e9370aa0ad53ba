import OsProjects.C.Words
import OsProjects.Sorting.Correctness

/-!
Owns `main` of the multithreaded sort from its standard input to its standard output.

The count is read as a `long` and kept as a `size_t`, so a negative one is a very large one. A
number that is missing leaves its entry of the global array zero. The address behind the last entry
may be formed, but nothing may be stored or read there.

Does not own what a thread does (`Model`), or the merge (`Merge`).
-/

namespace OsProjects.Sorting

open OsProjects.C
open OsProjects.Theory

/-! ## Input -/

/-- Whether the value fits into a `long`. -/
def IsLong (value : Int) : Prop := -9223372036854775808 ≤ value ∧ value ≤ 9223372036854775807

instance (value : Int) : Decidable (IsLong value) := inferInstanceAs (Decidable (_ ∧ _))

/-- `%ld`: what is stored, if anything is. A numeral whose value does not fit is undefined. -/
def scanLong (input : List Char) : Outcome (Option Int × List Char) :=
  match scanNumeral input with
  | (none, rest) => .ok (none, rest)
  | (some (negative, magnitude), rest) =>
      let value := if negative then -(magnitude : Int) else magnitude
      if IsLong value then .ok (some value, rest) else .error .overflow

/-- The value as a `size_t`. -/
def toSize (value : Int) : ℕ := (value % 18446744073709551616).toNat

/-- `scanf("%d", &array[i])` -/
def elementBody (i : ℕ) (reading : List Char × Numbers) : Outcome (List Char × Numbers) := do
  let (input, array) := reading
  if maxNum < i then .error .outOfBounds
  else
    let (number, input) ← scanInt input
    match number with
    | none => pure (input, array)
    | some number => pure (input, ← write array i number)

/-- `init_array`: `array_size` and `array`, which are zero before. -/
def initArray (input : List Char) : Outcome (ℕ × Numbers) := do
  let (count, input) ← scanLong input
  let arraySize := toSize (count.getD 0)
  let (_, array) ← forEach elementBody arraySize 0 (input, fun _ => 0)
  pure (arraySize, array)

/-! ## Output -/

/-- `printf("%d ", arr[i])`, where `arr` is the array from `base` on. -/
def printBody {capacity : ℕ} (array : Fin capacity → Int) (base i : ℕ) (printed : List Char) :
    Outcome (List Char) := do
  let value ← read array (base + i : ℕ)
  pure (printed ++ signedDecimal value ++ [' '])

/-- `print_array` -/
def printArray {capacity : ℕ} (array : Fin capacity → Int) (base size : ℕ) :
    Outcome (List Char) := do
  let printed ← forEach (printBody array base) size 0 []
  pure (printed ++ ['\n'])

/-- `main` until the threads are created: `array_size`, `array`, and what is printed. -/
def beforeThreads (input : List Char) : Outcome (ℕ × Numbers × List Char) := do
  let (arraySize, array) ← initArray input
  let original ← printArray array 0 arraySize
  pure (arraySize, array, "Please enter the number of elements:".toList ++
    "Original array:\n".toList ++ original)

/-- `main` from the last `pthread_join` on, with the block of `malloc` and what was printed. -/
def afterThreads {arraySize : ℕ} (array : Numbers) (garbage : Fin arraySize → Int)
    (printed : List Char) : Outcome (List Char) := do
  let first ← printArray array 0 (arraySize / 2)
  let second ← printArray array (arraySize / 2) (arraySize - arraySize / 2)
  let sortedArray ← mergeArray array garbage
  let sorted ← printArray sortedArray 0 arraySize
  pure (printed ++ "Thread 0:\n".toList ++ first ++ "Thread 1:\n".toList ++ second ++
    "After merging:\n".toList ++ sorted)

/-- `main`: what it may print for the input, or the fault it may meet. -/
inductive Main (input : List Char) : Outcome (List Char) → Prop where
  | fails {fault : Fault} (started : beforeThreads input = .error fault) :
      Main input (.error fault)
  | joins {arraySize : ℕ} {array : Numbers} {printed : List Char} {s : State}
      (started : beforeThreads input = .ok (arraySize, array, printed))
      (joined : Joined arraySize array s) (garbage : Fin arraySize → Int) :
      Main input (afterThreads s.array garbage printed)

/-! ## The numbers -/

/-- The numbers that are sorted: as many as were announced, with zeros for those that are
missing. -/
def entered (count : ℕ) (numbers : List Int) : List Int :=
  (numbers ++ List.replicate count 0).take count

def ascending (numbers : List Int) : List Int := numbers.mergeSort fun a b => a ≤ b

/-- A line with the numbers. -/
def shown (numbers : List Int) : List Char :=
  numbers.flatMap (fun number => signedDecimal number ++ [' ']) ++ ['\n']

/-- What is printed about the numbers. -/
def transcript (elements : List Int) : List Char :=
  "Please enter the number of elements:".toList ++ "Original array:\n".toList ++ shown elements ++
    "Thread 0:\n".toList ++ shown (ascending (elements.take (elements.length / 2))) ++
    "Thread 1:\n".toList ++ shown (ascending (elements.drop (elements.length / 2))) ++
    "After merging:\n".toList ++ shown (ascending elements)

section Reading

variable {input rest : List Char} {words : List (List Char)} {numbers : List Int}
variable {count : Int} {size index : ℕ}

theorem Spells.scanLong_cons (fits : IsLong count)
    (spells : Spells (signedDecimal count :: words) input) :
    ∃ rest, scanLong input = .ok (some count, rest) ∧ Spells words rest := by
  cases spells with
  | @word _ spaces _ rest before nonempty solid ends behind =>
      refine ⟨rest, ?_, behind⟩
      have magnitude : (if decide (count < 0) = true then -(count.natAbs : Int)
          else count.natAbs) = count := by
        by_cases negative : count < 0
        · rw [if_pos (decide_eq_true negative)]
          omega
        · rw [if_neg (by simp [negative])]
          omega
      rw [scanLong, List.append_assoc, scanNumeral_before before,
        scanNumeral_signedDecimal count fun c head => isDigit_of_isSpace (ends c head)]
      simp only [magnitude, if_pos fits]

theorem toSize_of_nonneg (fits : IsLong count) (nonneg : 0 ≤ count) : toSize count = count := by
  unfold IsLong at fits
  unfold toSize
  omega

theorem toSize_of_neg (fits : IsLong count) (negative : count < 0) : maxNum + 1 < toSize count := by
  unfold IsLong at fits
  unfold toSize maxNum
  omega

theorem reading_take_succ (below : index < numbers.length) (inside : index < maxNum) :
    reading (numbers.take (index + 1)) =
      Function.update (reading (numbers.take index)) ⟨index, inside⟩ numbers[index] := by
  funext i
  by_cases same : i = ⟨index, inside⟩
  · subst same
    simp [reading, List.getElem?_eq_getElem below]
  · have other : i.val ≠ index := fun equal => same (Fin.ext equal)
    rw [Function.update_of_ne same]
    simp only [reading, List.getD_eq_getElem?_getD, List.getElem?_take]
    by_cases earlier : i.val < index
    · rw [if_pos (by omega), if_pos earlier]
    · rw [if_neg (by omega), if_neg earlier]

/-- The entries below `index` are read, and what is left of the text spells the others. -/
structure ReadUpTo (numbers : List Int) (index : ℕ) (reading : List Char × Numbers) : Prop where
  left : Spells ((numbers.drop index).map signedDecimal) reading.1
  array : reading.2 = Sorting.reading (numbers.take index)

theorem ReadUpTo.step {state : List Char × Numbers} (upTo : ReadUpTo numbers index state)
    (ints : ∀ number ∈ numbers, IsInt number) (inside : index < maxNum) :
    ∃ after, elementBody index state = .ok after ∧ ReadUpTo numbers (index + 1) after := by
  obtain ⟨input, array⟩ := state
  obtain ⟨left, isArray⟩ := upTo
  simp only at left isArray
  subst isArray
  simp only [elementBody, if_neg (Nat.not_lt.mpr inside.le)]
  by_cases more : index < numbers.length
  · rw [List.drop_eq_getElem_cons more, List.map_cons] at left
    obtain ⟨rest, scanned, behind⟩ := left.scanInt_cons (ints _ (List.getElem_mem more))
    refine ⟨(rest, Function.update (reading (numbers.take index)) ⟨index, inside⟩ numbers[index]),
      ?_, behind, (reading_take_succ more inside).symm⟩
    simp only [scanned, ok_bind, write_natCast _ inside, pure_eq_ok]
  · have noneLeft : numbers.drop index = [] := List.drop_eq_nil_of_le (by omega)
    have noneNext : numbers.drop (index + 1) = [] := List.drop_eq_nil_of_le (by omega)
    rw [noneLeft, List.map_nil] at left
    refine ⟨([], reading (numbers.take index)), ?_, ?_, ?_⟩
    · simp only [left.scanInt_nil, ok_bind, pure_eq_ok]
    · rw [noneNext]
      exact .blank (by simp)
    · rw [List.take_of_length_le (by omega), List.take_of_length_le (by omega)]

theorem elementLoop_reads (ints : ∀ number ∈ numbers, IsInt number)
    (spells : Spells (numbers.map signedDecimal) input) (inside : size ≤ maxNum) :
    ∃ after, forEach elementBody size 0 (input, fun _ => 0) = .ok after ∧
      ReadUpTo numbers size after := by
  apply forEach_holds (ReadUpTo numbers)
  · intro i state below upTo
    exact upTo.step ints (by omega)
  · exact ⟨spells, by funext i; simp [reading]⟩

/-- No more numbers than fit are ever read. -/
theorem elementLoop_outside (ints : ∀ number ∈ numbers, IsInt number)
    (spells : Spells (numbers.map signedDecimal) input) (outside : maxNum < size) :
    forEach elementBody size 0 (input, fun _ => 0) = .error .outOfBounds ∨
      size = maxNum + 1 ∧ ∃ after, forEach elementBody size 0 (input, fun _ => 0) = .ok after := by
  obtain ⟨⟨left, array⟩, run, upTo⟩ := elementLoop_reads ints spells (Nat.le_refl maxNum)
  obtain ⟨others, rfl⟩ : ∃ others, size = maxNum + (others + 1) := ⟨size - maxNum - 1, by omega⟩
  rw [forEach_add, run, ok_bind, Nat.zero_add, forEach]
  have stillLeft := upTo.left
  by_cases more : maxNum < numbers.length
  · left
    rw [List.drop_eq_getElem_cons more, List.map_cons] at stillLeft
    obtain ⟨rest, scanned, _⟩ := stillLeft.scanInt_cons (ints _ (List.getElem_mem more))
    simp only [elementBody, lt_irrefl, if_false, scanned, ok_bind]
    rfl
  · rw [List.drop_eq_nil_of_le (by omega), List.map_nil] at stillLeft
    have last : elementBody maxNum (left, array) = .ok ([], array) := by
      simp only [elementBody, lt_irrefl, if_false, stillLeft.scanInt_nil, ok_bind, pure_eq_ok]
    rw [last, ok_bind]
    cases others with
    | zero => exact Or.inr ⟨rfl, _, rfl⟩
    | succ others =>
        left
        rw [forEach]
        simp only [elementBody, Nat.lt_succ_self, if_true, error_bind]

end Reading

section Printing

variable {capacity base size index : ℕ} {array : Fin capacity → Int}

theorem segment_concat (inside : base + index < capacity) :
    segment array base (index + 1) =
      segment array base index ++ [array ⟨base + index, inside⟩] := by
  rw [← segment_append, segment_succ inside, segment_zero]

/-- The entries are printed one after the other. -/
theorem printLoop_eq (inside : base + size ≤ capacity) :
    forEach (printBody array base) size 0 [] = .ok ((segment array base size).flatMap
      fun number => signedDecimal number ++ [' ']) := by
  have start : (segment array base 0).flatMap (fun number => signedDecimal number ++ [' ']) =
      [] := by rw [segment_zero, List.flatMap_nil]
  rw [← start]
  apply forEach_eq fun i => (segment array base i).flatMap
    fun number => signedDecimal number ++ [' ']
  intro i below
  have here : base + i < capacity := by omega
  rw [printBody, read_natCast _ here, segment_concat here]
  simp

theorem printArray_eq (inside : base + size ≤ capacity) :
    printArray array base size = .ok (shown (segment array base size)) := by
  rw [printArray, printLoop_eq inside]
  rfl

theorem printArray_outside (outside : capacity < size) :
    printArray array 0 size = .error .outOfBounds := by
  obtain ⟨others, rfl⟩ : ∃ others, size = capacity + (others + 1) :=
    ⟨size - capacity - 1, by omega⟩
  have last : ∀ printed, printBody array 0 (0 + capacity) printed = .error .outOfBounds := by
    intro printed
    unfold printBody C.read
    rw [dif_neg (by omega), error_bind]
  rw [printArray, forEach_add, printLoop_eq (by omega), ok_bind, forEach, last, error_bind,
    error_bind]

end Printing

section Session

variable {input : List Char} {numbers : List Int} {count : Int} {size : ℕ}

theorem segment_reading (inside : size ≤ maxNum) :
    segment (reading (numbers.take size)) 0 size = entered size numbers := by
  apply List.ext_getElem?
  intro i
  simp only [segment, entered, reading, List.getElem?_take, List.getElem?_drop, Nat.zero_add,
    List.getElem?_ofFn]
  by_cases below : i < size
  · rw [if_pos below, if_pos below, dif_pos (by omega), List.getElem?_append]
    by_cases given : i < numbers.length
    · simp [given, below]
    · rw [if_neg given, List.getElem?_replicate, if_pos (by omega)]
      simp [Nat.not_lt.mp given, below]
  · rw [if_neg below, if_neg below]

theorem length_entered (size : ℕ) (numbers : List Int) : (entered size numbers).length = size := by
  simp [entered]

theorem half_entered {array : Numbers} (all : segment array 0 size = entered size numbers) :
    half size array .thread0 = (entered size numbers).take (size / 2) ∧
      half size array .thread1 = (entered size numbers).drop (size / 2) := by
  constructor
  · rw [← all]
    simp only [half, data, segment, List.drop_zero, Nat.sub_zero, List.take_take]
    rw [Nat.min_eq_left (Nat.div_le_self _ _)]
  · rw [← all]
    simp only [half, data, segment, List.drop_zero, List.drop_take]

/-- A list in ascending order is the one that `ascending` makes of its elements. -/
theorem eq_ascending {before after : List Int} (perm : after.Perm before)
    (ordered : after.Pairwise (· ≤ ·)) : after = ascending before := by
  have sorted : (ascending before).Pairwise (· ≤ ·) := by
    have trans : ∀ a b c : Int, decide (a ≤ b) = true → decide (b ≤ c) = true →
        decide (a ≤ c) = true := by
      intro a b c first second
      simp only [decide_eq_true_eq] at first second ⊢
      exact first.trans second
    have total : ∀ a b : Int, (decide (a ≤ b) || decide (b ≤ a)) = true := by
      intro a b
      simp only [Bool.or_eq_true, decide_eq_true_eq]
      exact le_total a b
    have pairwise := List.pairwise_mergeSort trans total before
    exact pairwise.imp fun related => by simpa using related
  exact (perm.trans (List.mergeSort_perm before _).symm).eq_of_pairwise
    (fun a b _ _ first second => le_antisymm first second) ordered sorted

/-- What is printed after the threads depends on the numbers alone. -/
theorem afterThreads_eq {array : Numbers} {s : State} (inside : size ≤ maxNum)
    (all : segment array 0 size = entered size numbers) (joined : Joined size array s)
    (near : Near ((entered size numbers).take (size / 2)) ∧
      Near ((entered size numbers).drop (size / 2)))
    (garbage : Fin size → Int) (printed : List Char) :
    afterThreads s.array garbage printed = .ok (printed ++
      "Thread 0:\n".toList ++ shown (ascending ((entered size numbers).take (size / 2))) ++
      "Thread 1:\n".toList ++ shown (ascending ((entered size numbers).drop (size / 2))) ++
      "After merging:\n".toList ++ shown (ascending (entered size numbers))) := by
  obtain ⟨isFirst, isSecond⟩ := half_entered all
  have firstSorts := joined.sorts .thread0
  have secondSorts := joined.sorts .thread1
  rw [isFirst] at firstSorts
  rw [isSecond] at secondSorts
  have firstAscending := ascending_of_near near.1 firstSorts
  have secondAscending := ascending_of_near near.2 secondSorts
  obtain ⟨result, merge, merged⟩ := mergeArray_halves inside s.array garbage
  have whole : List.ofFn result = ascending (entered size numbers) := by
    apply eq_ascending
    · rw [merged, ← List.take_append_drop (size / 2) (entered size numbers)]
      have split : ((half size s.array .thread1).merge (half size s.array .thread0)).Perm
          (half size s.array .thread1 ++ half size s.array .thread0) := List.merge_perm_append _
      exact split.trans (List.perm_append_comm.trans (firstSorts.perm.append secondSorts.perm))
    · rw [merged]
      exact merge_ascending secondAscending firstAscending
  have shownFirst : segment s.array 0 (size / 2) =
      ascending ((entered size numbers).take (size / 2)) :=
    eq_ascending firstSorts.perm firstAscending
  have shownSecond : segment s.array (size / 2) (size - size / 2) =
      ascending ((entered size numbers).drop (size / 2)) :=
    eq_ascending secondSorts.perm secondAscending
  have shownWhole : segment result 0 size = ascending (entered size numbers) := by
    rw [← whole, segment, List.drop_zero, List.take_of_length_le (by simp)]
  rw [afterThreads, printArray_eq (by omega), ok_bind, printArray_eq (by omega), ok_bind, merge,
    ok_bind, printArray_eq (by omega), ok_bind, shownFirst, shownSecond, shownWhole]
  rfl

/-- A text that announces as many numbers as fit is read and shown. -/
theorem beforeThreads_eq (fits : IsLong count) (ints : ∀ number ∈ numbers, IsInt number)
    (spells : Spells (signedDecimal count :: numbers.map signedDecimal) input)
    (isSize : count = size) (inside : size ≤ maxNum) :
    beforeThreads input = .ok (size, reading (numbers.take size),
      "Please enter the number of elements:".toList ++ "Original array:\n".toList ++
        shown (entered size numbers)) := by
  obtain ⟨rest, scanned, behind⟩ := Spells.scanLong_cons fits spells
  obtain ⟨⟨left, array⟩, loop, upTo⟩ := elementLoop_reads ints behind inside
  have isArray : array = reading (numbers.take size) := upTo.array
  have isCount : toSize count = size := by
    have same := toSize_of_nonneg fits (by omega)
    omega
  rw [beforeThreads, initArray, scanned]
  simp only [ok_bind, Option.getD_some, isCount, loop, pure_eq_ok, isArray,
    printArray_eq (show 0 + size ≤ maxNum by omega), segment_reading inside]

/-- A text that announces more numbers than fit, or less than none, makes the program use an
entry that the array does not have. -/
theorem beforeThreads_outside (fits : IsLong count) (ints : ∀ number ∈ numbers, IsInt number)
    (spells : Spells (signedDecimal count :: numbers.map signedDecimal) input)
    (outside : count < 0 ∨ (maxNum : Int) < count) :
    beforeThreads input = .error .outOfBounds := by
  obtain ⟨rest, scanned, behind⟩ := Spells.scanLong_cons fits spells
  have large : maxNum < toSize count := by
    by_cases negative : count < 0
    · exact (Nat.lt_succ_self _).trans (toSize_of_neg fits negative)
    · have same := toSize_of_nonneg fits (by omega)
      omega
  rw [beforeThreads, initArray, scanned]
  simp only [ok_bind, Option.getD_some]
  rcases elementLoop_outside ints behind large with fails | ⟨isNext, after, loop⟩
  · rw [fails]
    rfl
  · rw [loop]
    simp only [ok_bind, pure_eq_ok, printArray_outside large]
    rfl

/-- What the program prints is a function of the numbers, for every order of the threads and
whatever `qsort` makes of equal numbers: the numbers, their halves in ascending order, and all of
them in ascending order. With more numbers than the array has entries, or a negative count, no run
survives. -/
theorem main_prints_sorted (fits : IsLong count) (ints : ∀ number ∈ numbers, IsInt number)
    (spells : Spells (signedDecimal count :: numbers.map signedDecimal) input) :
    (∀ size : ℕ, count = size → size ≤ maxNum →
      Near ((entered size numbers).take (size / 2)) →
      Near ((entered size numbers).drop (size / 2)) →
      ∀ outcome, Main input outcome ↔ outcome = .ok (transcript (entered size numbers))) ∧
    (count < 0 ∨ (maxNum : Int) < count →
      ∀ outcome, Main input outcome ↔ outcome = .error .outOfBounds) := by
  constructor
  · intro size isSize inside firstNear secondNear outcome
    have started := beforeThreads_eq fits ints spells isSize inside
    have ends : ∀ s (garbage : Fin size → Int), Joined size (reading (numbers.take size)) s →
        afterThreads s.array garbage ("Please enter the number of elements:".toList ++
            "Original array:\n".toList ++ shown (entered size numbers)) =
          .ok (transcript (entered size numbers)) := by
      intro s garbage joined
      have after := afterThreads_eq inside (segment_reading inside) joined ⟨firstNear, secondNear⟩
        garbage
      unfold transcript
      rw [length_entered]
      exact after _
    constructor
    · intro main
      cases main with
      | fails other =>
          rw [started] at other
          cases other
      | joins other joined garbage =>
          rw [started] at other
          cases other
          exact ends _ garbage joined
    · rintro rfl
      choose sorted sorts using fun thread =>
        exists_sorts cmp (half size (reading (numbers.take size)) thread)
      obtain ⟨s, joined, _⟩ := exists_joined inside (reading (numbers.take size)) sorts
      rw [← ends s (fun _ => 0) joined]
      exact .joins started joined _
  · intro outside outcome
    have started := beforeThreads_outside fits ints spells outside
    constructor
    · intro main
      cases main with
      | fails other =>
          rw [started] at other
          cases other
          rfl
      | joins other joined garbage =>
          rw [started] at other
          cases other
    · rintro rfl
      exact .fails started

/-- Four numbers, one of them negative, on one line. -/
def demoInput : List Char := spaced (signedDecimal 4 :: [7, -3, 2, 2].map signedDecimal)

theorem main_prints_sorted_demo :
    Main demoInput (.ok ("Please enter the number of elements:Original array:\n7 -3 2 2 \n" ++
      "Thread 0:\n-3 7 \nThread 1:\n2 2 \nAfter merging:\n-3 2 2 7 \n").toList) := by
  have spells : Spells (signedDecimal 4 :: [7, -3, 2, 2].map signedDecimal) demoInput :=
    .of_spaced (by decide) (by decide)
  have prints := (main_prints_sorted (by decide) (by decide) spells).1 4 rfl (by decide) (by decide)
    (by decide)
  have first : ascending [7, -3] = [-3, 7] := (eq_ascending (by decide) (by decide)).symm
  have second : ascending [2, 2] = [2, 2] := (eq_ascending (by decide) (by decide)).symm
  have whole : ascending [7, -3, 2, 2] = [-3, 2, 2, 7] :=
    (eq_ascending (by decide) (by decide)).symm
  have numbers : entered 4 [7, -3, 2, 2] = [7, -3, 2, 2] := by decide
  refine (prints _).mpr (congrArg _ ?_)
  rw [numbers]
  unfold transcript
  simp only [List.length_cons, List.length_nil, Nat.reduceAdd, Nat.reduceDiv, List.take_succ_cons,
    List.take_zero, List.drop_succ_cons, List.drop_zero, first, second, whole]
  decide +kernel

end Session

end OsProjects.Sorting
