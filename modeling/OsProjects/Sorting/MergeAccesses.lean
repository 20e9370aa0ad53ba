import OsProjects.Sorting.Correctness

/-!
Owns the accesses of `merge_array` to the array and to the result: the function as it stands in
the source, with a record of the indices. The record changes nothing, and it shows that every
entry of the result is written once and no other element of the array is read.

Does not own where the halves come from.
-/

namespace OsProjects.Sorting

open OsProjects.C

/-- The indices of `array` that were read and those of `result` that were written, in their
order. -/
structure Accesses where
  reads : List ℕ
  writes : List ℕ

def Accesses.none : Accesses where
  reads := []
  writes := []

/-- `array[index]`, with a record. -/
def load {capacity : ℕ} (array : Fin capacity → Int) (index : ℕ) (accesses : Accesses) :
    Outcome (Int × Accesses) := do
  let value ← read array index
  pure (value, { accesses with reads := accesses.reads ++ [index] })

/-- `result[index] = value`, with a record. -/
def store {size : ℕ} (result : Fin size → Int) (index : ℕ) (value : Int) (accesses : Accesses) :
    Outcome ((Fin size → Int) × Accesses) := do
  let result ← write result index value
  pure (result, { accesses with writes := accesses.writes ++ [index] })

/-- The variables of `merge_array` with the accesses so far. -/
structure Recording (size : ℕ) where
  merging : Merging size
  accesses : Accesses

section Record

variable {capacity size : ℕ}

/-- `mergeBody` with a record. The number that is written is read a second time. -/
def recordMergeBody (array : Fin capacity → Int) (r : Recording size) :
    Outcome (LoopStep (Recording size) (Recording size)) := do
  let m := r.merging
  let (first, accesses) ← load array m.low1 r.accesses
  let (second, accesses) ← load array m.low2 accesses
  if first < second then
    let (value, accesses) ← load array m.low1 accesses
    let (result, accesses) ← store m.result m.i value accesses
    pure (.next ⟨{ m with result, i := m.i + 1, low1 := m.low1 + 1 }, accesses⟩)
  else
    let (value, accesses) ← load array m.low2 accesses
    let (result, accesses) ← store m.result m.i value accesses
    pure (.next ⟨{ m with result, i := m.i + 1, low2 := m.low2 + 1 }, accesses⟩)

/-- `copyBody` with a record. -/
def recordCopyBody (array : Fin capacity → Int) (r : Recording size) :
    Outcome (LoopStep (Recording size) (Recording size)) := do
  let m := r.merging
  let (value, accesses) ← load array m.low1 r.accesses
  let (result, accesses) ← store m.result m.i value accesses
  pure (.next ⟨{ m with result, i := m.i + 1, low1 := m.low1 + 1 }, accesses⟩)

/-- `merge_array` with a record. -/
def recordMergeArray (array : Fin capacity → Int) (result : Fin size → Int) :
    Outcome ((Fin size → Int) × Accesses) := do
  let merged ← whileLoop
    (fun r => r.merging.low1 < r.merging.high1 ∧ r.merging.low2 < r.merging.high2)
    (recordMergeBody array) size ⟨⟨0, size / 2, size / 2, size, 0, result⟩, .none⟩
  let rest := { merged.state with merging := merged.state.merging.chooseRest }
  let copied ← whileLoop (fun r => r.merging.low1 < r.merging.high1) (recordCopyBody array) size
    rest
  pure (copied.state.merging.result, copied.state.accesses)

variable {array : Fin capacity → Int} {total : List Int} {r : Recording size} {m : Merging size}

/-! ## The record changes nothing -/

theorem recordMergeBody_erase (r : Recording size) :
    (recordMergeBody array r).map (LoopStep.map Recording.merging) = mergeBody array r.merging := by
  rw [recordMergeBody, mergeBody]
  cases first : read array r.merging.low1 with
  | error fault => simp [load, first, Except.map]
  | ok value =>
      cases second : read array r.merging.low2 with
      | error fault => simp [load, first, second, Except.map]
      | ok other =>
          simp only [load, store, first, second, ok_bind, pure_eq_ok]
          by_cases smaller : value < other
          · simp only [if_pos smaller]
            cases write r.merging.result r.merging.i value with
            | error fault => rfl
            | ok result => rfl
          · simp only [if_neg smaller]
            cases write r.merging.result r.merging.i other with
            | error fault => rfl
            | ok result => rfl

theorem recordCopyBody_erase (r : Recording size) :
    (recordCopyBody array r).map (LoopStep.map Recording.merging) = copyBody array r.merging := by
  rw [recordCopyBody, copyBody]
  cases first : read array r.merging.low1 with
  | error fault => simp [load, first, Except.map]
  | ok value =>
      simp only [load, store, first, ok_bind, pure_eq_ok]
      cases write r.merging.result r.merging.i value with
      | error fault => rfl
      | ok result => rfl

/-- `merge_array` with a record returns what it returns without. -/
theorem recordMergeArray_erase (array : Fin capacity → Int) (garbage : Fin size → Int) :
    (recordMergeArray array garbage).map Prod.fst = mergeArray array garbage := by
  have merged := whileLoop_erase (fun m => m.low1 < m.high1 ∧ m.low2 < m.high2)
    (@recordMergeBody_erase capacity size array) size
    ⟨⟨0, size / 2, size / 2, size, 0, garbage⟩, .none⟩
  rw [mergeArray, recordMergeArray, ← merged]
  cases whileLoop _ (recordMergeBody array) size _ with
  | error fault => rfl
  | ok last =>
      have copied := whileLoop_erase (fun m => m.low1 < m.high1)
        (@recordCopyBody_erase capacity size array) size
        { last.state with merging := last.state.merging.chooseRest }
      simp only [Except.map, ok_bind, LoopStep.state_map]
      simp only at copied
      rw [← copied]
      cases whileLoop _ (recordCopyBody array) size _ with
      | error fault => rfl
      | ok after => simp [Except.map]

/-! ## What the record holds -/

/-- The entries below `i` are written, once and in their order, and only numbers of the two
halves are read. -/
structure Recorded (r : Recording size) : Prop where
  within1 : r.merging.high1 ≤ size
  within2 : r.merging.high2 ≤ size
  writes : r.accesses.writes = List.range r.merging.i
  reads : ∀ index ∈ r.accesses.reads, index < size

variable {index : ℕ} {value : Int} {accesses later : Accesses} {after : Recording size}

theorem accesses_of_load (loaded : load array index accesses = .ok (value, later)) :
    later = { accesses with reads := accesses.reads ++ [index] } := by
  obtain ⟨_, _, same⟩ := bind_eq_ok.mp loaded
  cases same
  rfl

theorem accesses_of_store {result changed : Fin size → Int}
    (stored : store result index value accesses = .ok (changed, later)) :
    later = { accesses with writes := accesses.writes ++ [index] } := by
  obtain ⟨_, _, same⟩ := bind_eq_ok.mp stored
  cases same
  rfl

/-- An iteration reads numbers of the halves and writes the next entry. -/
theorem Recorded.extend (recorded : Recorded r) (extra : List ℕ)
    (within1 : after.merging.high1 = r.merging.high1)
    (within2 : after.merging.high2 = r.merging.high2) (next : after.merging.i = r.merging.i + 1)
    (writes : after.accesses.writes = r.accesses.writes ++ [r.merging.i])
    (reads : after.accesses.reads = r.accesses.reads ++ extra)
    (inside : ∀ index ∈ extra, index < size) : Recorded after where
  within1 := within1 ▸ recorded.within1
  within2 := within2 ▸ recorded.within2
  writes := by rw [writes, recorded.writes, next, List.range_succ]
  reads := by
    intro index read
    rw [reads, List.mem_append] at read
    rcases read with before | now
    · exact recorded.reads index before
    · exact inside index now

theorem Recorded.merge_step (recorded : Recorded r) (more1 : r.merging.low1 < r.merging.high1)
    (more2 : r.merging.low2 < r.merging.high2)
    (step : recordMergeBody array r = .ok (.next after)) : Recorded after := by
  have below1 : r.merging.low1 < size := more1.trans_le recorded.within1
  have below2 : r.merging.low2 < size := more2.trans_le recorded.within2
  obtain ⟨⟨first, accesses1⟩, load1, step⟩ := bind_eq_ok.mp step
  obtain ⟨⟨second, accesses2⟩, load2, step⟩ := bind_eq_ok.mp step
  have reads1 := accesses_of_load load1
  have reads2 := accesses_of_load load2
  simp only at step
  split at step
  · obtain ⟨⟨value, accesses3⟩, load3, step⟩ := bind_eq_ok.mp step
    obtain ⟨⟨result, accesses4⟩, store4, step⟩ := bind_eq_ok.mp step
    have reads3 := accesses_of_load load3
    have writes4 := accesses_of_store store4
    cases step
    exact recorded.extend [r.merging.low1, r.merging.low2, r.merging.low1] rfl rfl rfl
      (by simp [writes4, reads3, reads2, reads1]) (by simp [writes4, reads3, reads2, reads1])
      (by simp [below1, below2])
  · obtain ⟨⟨value, accesses3⟩, load3, step⟩ := bind_eq_ok.mp step
    obtain ⟨⟨result, accesses4⟩, store4, step⟩ := bind_eq_ok.mp step
    have reads3 := accesses_of_load load3
    have writes4 := accesses_of_store store4
    cases step
    exact recorded.extend [r.merging.low1, r.merging.low2, r.merging.low2] rfl rfl rfl
      (by simp [writes4, reads3, reads2, reads1]) (by simp [writes4, reads3, reads2, reads1])
      (by simp [below1, below2])

theorem Recorded.copy_step (recorded : Recorded r) (more : r.merging.low1 < r.merging.high1)
    (step : recordCopyBody array r = .ok (.next after)) : Recorded after := by
  have below1 : r.merging.low1 < size := more.trans_le recorded.within1
  obtain ⟨⟨value, accesses1⟩, load1, step⟩ := bind_eq_ok.mp step
  obtain ⟨⟨result, accesses2⟩, store2, step⟩ := bind_eq_ok.mp step
  have reads1 := accesses_of_load load1
  have writes2 := accesses_of_store store2
  cases step
  exact recorded.extend [r.merging.low1] rfl rfl rfl (by simp [writes2, reads1])
    (by simp [writes2, reads1]) (by simp [below1])

theorem Recorded.chooseRest (recorded : Recorded r) :
    Recorded { r with merging := r.merging.chooseRest } := by
  rw [Merging.chooseRest]
  split
  · exact ⟨recorded.within2, recorded.within2, recorded.writes, recorded.reads⟩
  · exact recorded

/-- What a body without a record does, the body with one does. -/
theorem next_of_erase {recording : Recording size → Outcome (LoopStep (Recording size)
      (Recording size))} {plain : Outcome (LoopStep (Merging size) (Merging size))}
    (same : (recording r).map (LoopStep.map Recording.merging) = plain)
    (step : plain = .ok (.next m)) :
    ∃ after, recording r = .ok (.next after) ∧ after.merging = m := by
  rw [step] at same
  cases run : recording r with
  | error fault =>
      rw [run] at same
      cases same
  | ok last =>
      rw [run] at same
      cases last with
      | next after =>
          cases same
          exact ⟨after, rfl, rfl⟩
      | exit after => cases same

theorem MergesTo.recordLoop (merges : MergesTo array total r.merging) (recorded : Recorded r) :
    ∃ after, whileLoop
        (fun r => r.merging.low1 < r.merging.high1 ∧ r.merging.low2 < r.merging.high2)
        (recordMergeBody array) size r = .ok (.next after) ∧
      (MergesTo array total after.merging ∧ Recorded after) ∧
      ¬(after.merging.low1 < after.merging.high1 ∧ after.merging.low2 < after.merging.high2) := by
  have filled := merges.filled
  let guard : Recording size → Bool :=
    fun r => r.merging.low1 < r.merging.high1 ∧ r.merging.low2 < r.merging.high2
  let left : Merging size → ℕ := fun m => (m.high1 - m.low1) + (m.high2 - m.low2)
  have steps : ∀ {r : Recording size}, MergesTo array total r.merging ∧ Recorded r →
      guard r = true → ∃ after, recordMergeBody array r = .ok (.next after) ∧
        (MergesTo array total after.merging ∧ Recorded after) ∧
        left after.merging < left r.merging := by
    rintro r ⟨merges, recorded⟩ more
    have more := of_decide_eq_true more
    obtain ⟨m, step, mergesAfter, less⟩ := merges.step more.1 more.2
    obtain ⟨after, recordStep, rfl⟩ := next_of_erase (recordMergeBody_erase r) step
    exact ⟨after, recordStep, ⟨mergesAfter, recorded.merge_step more.1 more.2 recordStep⟩, less⟩
  obtain ⟨after, run, both, ended⟩ := whileLoop_decreasing
    (fun r : Recording size => left r.merging) steps ⟨merges, recorded⟩
    (show left r.merging ≤ size by simp only [left]; omega)
  exact ⟨after, run, both, of_decide_eq_false ended⟩

theorem CopiesTo.recordLoop (copies : CopiesTo array total r.merging) (recorded : Recorded r) :
    ∃ after, whileLoop (fun r => r.merging.low1 < r.merging.high1) (recordCopyBody array) size r =
        .ok (.next after) ∧ (CopiesTo array total after.merging ∧ Recorded after) ∧
      ¬after.merging.low1 < after.merging.high1 := by
  have filled := copies.filled
  let guard : Recording size → Bool := fun r => r.merging.low1 < r.merging.high1
  let left : Merging size → ℕ := fun m => m.high1 - m.low1
  have steps : ∀ {r : Recording size}, CopiesTo array total r.merging ∧ Recorded r →
      guard r = true → ∃ after, recordCopyBody array r = .ok (.next after) ∧
        (CopiesTo array total after.merging ∧ Recorded after) ∧
        left after.merging < left r.merging := by
    rintro r ⟨copies, recorded⟩ more
    have more := of_decide_eq_true more
    obtain ⟨m, step, copiesAfter, less⟩ := copies.step more
    obtain ⟨after, recordStep, rfl⟩ := next_of_erase (recordCopyBody_erase r) step
    exact ⟨after, recordStep, ⟨copiesAfter, recorded.copy_step more recordStep⟩, less⟩
  obtain ⟨after, run, both, ended⟩ := whileLoop_decreasing
    (fun r : Recording size => left r.merging) steps ⟨copies, recorded⟩
    (show left r.merging ≤ size by simp only [left]; omega)
  exact ⟨after, run, both, of_decide_eq_false ended⟩

/-- Every entry of the result is written once, from the first to the last, and no element
outside the two halves is read. -/
theorem recordMergeArray_ok (inside : size ≤ capacity) (array : Fin capacity → Int)
    (garbage : Fin size → Int) :
    ∃ result accesses, recordMergeArray array garbage = .ok (result, accesses) ∧
      accesses.writes = List.range size ∧ ∀ index ∈ accesses.reads, index < size := by
  have start := mergesTo_start inside array garbage
  have recorded : @Recorded size
      ⟨⟨0, size / 2, size / 2, size, 0, garbage⟩, .none⟩ :=
    ⟨Nat.div_le_self _ _, Nat.le_refl _, rfl, fun _ member => absurd member List.not_mem_nil⟩
  obtain ⟨merged, mergeRun, ⟨merges, mergeRecorded⟩, mergeEnd⟩ := start.recordLoop recorded
  obtain ⟨copied, copyRun, ⟨copies, copyRecorded⟩, copyEnd⟩ :=
    (merges.chooseRest mergeEnd).recordLoop mergeRecorded.chooseRest
  refine ⟨copied.merging.result, copied.accesses, ?_, ?_, copyRecorded.reads⟩
  · rw [recordMergeArray, mergeRun, ok_bind]
    simp only [LoopStep.state, copyRun, ok_bind, pure_eq_ok]
  · have filled := copies.filled
    rw [copyRecorded.writes, show copied.merging.i = size by omega]

/-- `merge_array` reads no element behind the two halves, writes each entry of the result once,
and leaves the merge of the halves there. If they are in order, so is the result. -/
theorem mergeArray_spec (inside : size ≤ capacity) (array : Fin capacity → Int)
    (garbage : Fin size → Int) (first : (segment array 0 (size / 2)).Pairwise (· ≤ ·))
    (second : (segment array (size / 2) (size - size / 2)).Pairwise (· ≤ ·)) :
    ∃ result accesses, mergeArray array garbage = .ok result ∧
      recordMergeArray array garbage = .ok (result, accesses) ∧
      accesses.writes = List.range size ∧ (∀ index ∈ accesses.reads, index < size) ∧
      (List.ofFn result).Pairwise (· ≤ ·) ∧
      (List.ofFn result).Perm (segment array 0 size) := by
  obtain ⟨result, accesses, run, writes, reads⟩ := recordMergeArray_ok inside array garbage
  have plain : mergeArray array garbage = .ok result := by
    rw [← recordMergeArray_erase, run]
    rfl
  obtain ⟨merged, mergedRun, merge⟩ := mergeArray_eq inside array garbage
  rw [plain, Except.ok.injEq] at mergedRun
  subst mergedRun
  refine ⟨result, accesses, plain, run, writes, reads, ?_, ?_⟩
  · rw [merge]
    exact Theory.merge_ascending second first
  · have whole := segment_append array 0 (size / 2) (size - size / 2)
    rw [Nat.zero_add, Nat.add_sub_cancel' (Nat.div_le_self size 2)] at whole
    rw [merge, ← whole]
    exact (List.merge_perm_append _).trans List.perm_append_comm

/-- The halves `1 3` and `2 2 4`, and an element behind them. -/
def twoHalves : Fin 6 → Int := fun i => [1, 3, 2, 2, 4, 0].getD i 0

theorem mergeArray_spec_demo :
    ∃ result accesses, mergeArray twoHalves (fun _ : Fin 5 => 0) = .ok result ∧
      recordMergeArray twoHalves (fun _ : Fin 5 => 0) = .ok (result, accesses) ∧
      accesses.writes = List.range 5 ∧ (∀ index ∈ accesses.reads, index < 5) ∧
      (List.ofFn result).Pairwise (· ≤ ·) ∧
      (List.ofFn result).Perm (segment twoHalves 0 5) :=
  mergeArray_spec (by decide) _ _ (by decide) (by decide)

end Record

end OsProjects.Sorting
