import OsProjects.C.Iteration
import OsProjects.Sorting.Model

/-!
Owns `merge_array`: it returns the merge of the two halves, whatever is in them.

The numbers written so far, followed by the merge of what is left of the halves,
stay the same list. On equal numbers the loop takes the one of the second half,
so it is the second half that the list merge prefers.
-/

namespace OsProjects.Sorting

open OsProjects.C OsProjects.Theory

variable {capacity : ℕ} {array : Fin capacity → Int} {low count : ℕ}

/-! ## Segments of the array -/

theorem segment_zero (array : Fin capacity → Int) (low : ℕ) : segment array low 0 = [] := by
  simp [segment]

theorem segment_succ (below : low < capacity) :
    segment array low (count + 1) = array ⟨low, below⟩ :: segment array (low + 1) count := by
  have inside : low < (List.ofFn array).length := by simpa using below
  unfold segment
  rw [List.drop_eq_getElem_cons inside, List.take_succ_cons, List.getElem_ofFn]

theorem segment_length (inside : low + count ≤ capacity) :
    (segment array low count).length = count := by
  unfold segment
  rw [List.length_take, List.length_drop, List.length_ofFn]
  omega

/-- Two segments that touch. -/
theorem segment_append (array : Fin capacity → Int) (low count more : ℕ) :
    segment array low count ++ segment array (low + count) more =
      segment array low (count + more) := by
  unfold segment
  rw [← List.drop_drop, ← List.take_add]

theorem segment_congr {other : Fin capacity → Int}
    (same : ∀ i : Fin capacity, low ≤ i.val → i.val < low + count → other i = array i) :
    segment other low count = segment array low count := by
  unfold segment
  apply List.ext_getElem?
  intro i
  simp only [List.getElem?_take, List.getElem?_drop, List.getElem?_ofFn]
  by_cases inside : i < count
  · rw [if_pos inside, if_pos inside]
    by_cases below : low + i < capacity
    · rw [dif_pos below, dif_pos below, same ⟨low + i, below⟩ (by simp) (by simpa using inside)]
    · rw [dif_neg below, dif_neg below]
  · rw [if_neg inside, if_neg inside]

/-! ## The numbers written so far -/

section Written

variable {size : ℕ} {result : Fin size → Int}

/-- The entries of `result` below `i`. -/
def written (result : Fin size → Int) (i : ℕ) : List Int := (List.ofFn result).take i

theorem written_update {i : ℕ} (below : i < size) (value : Int) :
    written (Function.update result ⟨i, below⟩ value) (i + 1) = written result i ++ [value] := by
  have prefixSame : (List.ofFn (Function.update result ⟨i, below⟩ value)).take i =
      (List.ofFn result).take i := by
    apply List.ext_getElem?
    intro j
    simp only [List.getElem?_take, List.getElem?_ofFn]
    by_cases earlier : j < i
    · have other : (⟨j, earlier.trans below⟩ : Fin size) ≠ ⟨i, below⟩ :=
        fun same => earlier.ne (Fin.mk.inj same)
      rw [if_pos earlier, if_pos earlier, dif_pos (earlier.trans below),
        dif_pos (earlier.trans below), Function.update_of_ne other]
    · rw [if_neg earlier, if_neg earlier]
  unfold written
  rw [List.take_add_one, prefixSame, List.getElem?_ofFn, dif_pos below, Function.update_self]
  rfl

theorem written_all : written result size = List.ofFn result := by
  unfold written
  rw [List.take_of_length_le (by simp)]

end Written

/-! ## The loops -/

section Loops

variable {size : ℕ} {m : Merging size}

/-- What is left of the first half. -/
def Merging.rest1 (array : Fin capacity → Int) (m : Merging size) : List Int :=
  segment array m.low1 (m.high1 - m.low1)

/-- What is left of the second half. -/
def Merging.rest2 (array : Fin capacity → Int) (m : Merging size) : List Int :=
  segment array m.low2 (m.high2 - m.low2)

/-- The first loop between two iterations, on its way to the list `total`. -/
structure MergesTo (array : Fin capacity → Int) (total : List Int) (m : Merging size) : Prop where
  first : m.low1 ≤ m.high1
  second : m.low2 ≤ m.high2
  inside1 : m.high1 ≤ capacity
  inside2 : m.high2 ≤ capacity
  filled : m.i + (m.high1 - m.low1) + (m.high2 - m.low2) = size
  total : written m.result m.i ++ (m.rest2 array).merge (m.rest1 array) = total

/-- The last loop between two iterations. -/
structure CopiesTo (array : Fin capacity → Int) (total : List Int) (m : Merging size) : Prop where
  first : m.low1 ≤ m.high1
  inside : m.high1 ≤ capacity
  filled : m.i + (m.high1 - m.low1) = size
  total : written m.result m.i ++ m.rest1 array = total

theorem rest1_cons (more : m.low1 < m.high1) (below : m.low1 < capacity) :
    m.rest1 array =
      array ⟨m.low1, below⟩ :: segment array (m.low1 + 1) (m.high1 - (m.low1 + 1)) := by
  unfold Merging.rest1
  rw [show m.high1 - m.low1 = m.high1 - (m.low1 + 1) + 1 by omega, segment_succ below]

theorem rest2_cons (more : m.low2 < m.high2) (below : m.low2 < capacity) :
    m.rest2 array =
      array ⟨m.low2, below⟩ :: segment array (m.low2 + 1) (m.high2 - (m.low2 + 1)) := by
  unfold Merging.rest2
  rw [show m.high2 - m.low2 = m.high2 - (m.low2 + 1) + 1 by omega, segment_succ below]

/-- An iteration of the first loop writes the head of the merge. -/
theorem MergesTo.step {total : List Int} (merges : MergesTo array total m)
    (more1 : m.low1 < m.high1) (more2 : m.low2 < m.high2) :
    ∃ after, mergeBody array m = .ok (.next after) ∧ MergesTo array total after ∧
      (after.high1 - after.low1) + (after.high2 - after.low2) <
        (m.high1 - m.low1) + (m.high2 - m.low2) := by
  have below1 : m.low1 < capacity := more1.trans_le merges.inside1
  have below2 : m.low2 < capacity := more2.trans_le merges.inside2
  have filled := merges.filled
  have below : m.i < size := by omega
  have list := merges.total
  rw [rest1_cons more1 below1, rest2_cons more2 below2] at list
  unfold mergeBody
  rw [read_natCast _ below1, ok_bind, read_natCast _ below2, ok_bind]
  by_cases smaller : array ⟨m.low1, below1⟩ < array ⟨m.low2, below2⟩
  · rw [if_pos smaller, write_natCast _ below, ok_bind]
    refine ⟨_, rfl, ⟨?_, merges.second, merges.inside1, merges.inside2, ?_, ?_⟩, ?_⟩
    · show m.low1 + 1 ≤ m.high1
      omega
    · show m.i + 1 + (m.high1 - (m.low1 + 1)) + (m.high2 - m.low2) = size
      omega
    · have taken := merge_take_first list smaller
      rw [← rest2_cons more2 below2, ← written_update below] at taken
      exact taken
    · show m.high1 - (m.low1 + 1) + (m.high2 - m.low2) < _
      omega
  · rw [if_neg smaller, write_natCast _ below, ok_bind]
    refine ⟨_, rfl, ⟨merges.first, ?_, merges.inside1, merges.inside2, ?_, ?_⟩, ?_⟩
    · show m.low2 + 1 ≤ m.high2
      omega
    · show m.i + 1 + (m.high1 - m.low1) + (m.high2 - (m.low2 + 1)) = size
      omega
    · have taken := merge_take_second list smaller
      rw [← rest1_cons more1 below1, ← written_update below] at taken
      exact taken
    · show m.high1 - m.low1 + (m.high2 - (m.low2 + 1)) < _
      omega

/-- Once one half is used up, the other one is what the merge still has. -/
theorem MergesTo.chooseRest {total : List Int} (merges : MergesTo array total m)
    (ended : ¬(m.low1 < m.high1 ∧ m.low2 < m.high2)) : CopiesTo array total m.chooseRest := by
  have filled := merges.filled
  have list := merges.total
  have first := merges.first
  have second := merges.second
  unfold Merging.chooseRest
  by_cases more2 : m.low2 < m.high2
  · have none1 : m.high1 - m.low1 = 0 := by omega
    rw [if_pos more2]
    refine ⟨second, merges.inside2, ?_, ?_⟩
    · show m.i + (m.high2 - m.low2) = size
      omega
    · rw [Merging.rest1, none1, segment_zero, List.merge_right] at list
      exact list
  · have none2 : m.high2 - m.low2 = 0 := by omega
    rw [if_neg more2]
    refine ⟨first, merges.inside1, by omega, ?_⟩
    rw [Merging.rest2, none2, segment_zero, List.nil_merge] at list
    exact list

theorem CopiesTo.step {total : List Int} (copies : CopiesTo array total m)
    (more : m.low1 < m.high1) :
    ∃ after, copyBody array m = .ok (.next after) ∧ CopiesTo array total after ∧
      after.high1 - after.low1 < m.high1 - m.low1 := by
  have below1 : m.low1 < capacity := more.trans_le copies.inside
  have filled := copies.filled
  have below : m.i < size := by omega
  have list := copies.total
  rw [rest1_cons more below1] at list
  unfold copyBody
  rw [read_natCast _ below1, ok_bind, write_natCast _ below, ok_bind]
  refine ⟨_, rfl, ⟨?_, copies.inside, ?_, ?_⟩, ?_⟩
  · show m.low1 + 1 ≤ m.high1
    omega
  · show m.i + 1 + (m.high1 - (m.low1 + 1)) = size
    omega
  · rw [← list, written_update below, List.append_assoc, List.singleton_append]
    rfl
  · show m.high1 - (m.low1 + 1) < _
    omega

theorem MergesTo.mergeLoop {total : List Int} (merges : MergesTo array total m) :
    ∃ after, whileLoop (fun m => m.low1 < m.high1 ∧ m.low2 < m.high2) (mergeBody array) size m =
        .ok (.next after) ∧ MergesTo array total after ∧
      ¬(after.low1 < after.high1 ∧ after.low2 < after.high2) := by
  have filled := merges.filled
  let guard : Merging size → Bool := fun m => m.low1 < m.high1 ∧ m.low2 < m.high2
  have steps : ∀ {m : Merging size}, MergesTo array total m → guard m = true →
      ∃ after, mergeBody array m = .ok (.next after) ∧ MergesTo array total after ∧
        (after.high1 - after.low1) + (after.high2 - after.low2) <
          (m.high1 - m.low1) + (m.high2 - m.low2) := by
    intro m merges more
    have more := of_decide_eq_true more
    exact merges.step more.1 more.2
  obtain ⟨after, run, merges, ended⟩ := whileLoop_decreasing
    (fun m : Merging size => (m.high1 - m.low1) + (m.high2 - m.low2)) steps merges
    (show _ ≤ size by omega)
  exact ⟨after, run, merges, of_decide_eq_false ended⟩

theorem CopiesTo.copyLoop {total : List Int} (copies : CopiesTo array total m) :
    ∃ after, whileLoop (fun m => m.low1 < m.high1) (copyBody array) size m =
        .ok (.next after) ∧ CopiesTo array total after ∧ ¬after.low1 < after.high1 := by
  have filled := copies.filled
  let guard : Merging size → Bool := fun m => m.low1 < m.high1
  have steps : ∀ {m : Merging size}, CopiesTo array total m → guard m = true →
      ∃ after, copyBody array m = .ok (.next after) ∧ CopiesTo array total after ∧
        after.high1 - after.low1 < m.high1 - m.low1 :=
    fun copies more => copies.step (of_decide_eq_true more)
  obtain ⟨after, run, copies, ended⟩ := whileLoop_decreasing
    (fun m : Merging size => m.high1 - m.low1) steps copies (show _ ≤ size by omega)
  exact ⟨after, run, copies, of_decide_eq_false ended⟩

end Loops

theorem mergesTo_start {size : ℕ} (inside : size ≤ capacity) (array : Fin capacity → Int)
    (garbage : Fin size → Int) :
    MergesTo array
      ((segment array (size / 2) (size - size / 2)).merge (segment array 0 (size / 2)))
      ⟨0, size / 2, size / 2, size, 0, garbage⟩ where
  first := Nat.zero_le _
  second := Nat.div_le_self _ _
  inside1 := (Nat.div_le_self _ _).trans inside
  inside2 := inside
  filled := by
    show 0 + (size / 2 - 0) + (size - size / 2) = size
    omega
  total := rfl

/-- `merge_array` returns the merge of the two halves of the array. -/
theorem mergeArray_eq {size : ℕ} (inside : size ≤ capacity) (array : Fin capacity → Int)
    (garbage : Fin size → Int) :
    ∃ result, mergeArray array garbage = .ok result ∧
      List.ofFn result =
        (segment array (size / 2) (size - size / 2)).merge (segment array 0 (size / 2)) := by
  obtain ⟨merged, mergeRun, merges, mergeEnd⟩ := (mergesTo_start inside array garbage).mergeLoop
  obtain ⟨copied, copyRun, copies, copyEnd⟩ := (merges.chooseRest mergeEnd).copyLoop
  refine ⟨copied.result, ?_, ?_⟩
  · unfold mergeArray
    rw [mergeRun, ok_bind]
    show (do
      let copied ← whileLoop _ (copyBody array) size merged.chooseRest
      pure copied.state.result) = _
    rw [copyRun, ok_bind]
    rfl
  · have filled := copies.filled
    have none : copied.high1 - copied.low1 = 0 := by omega
    have list := copies.total
    rw [Merging.rest1, none, segment_zero, List.append_nil,
      show copied.i = size by omega, written_all] at list
    exact list

end OsProjects.Sorting
