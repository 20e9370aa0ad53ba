import OsProjects.VirtualMemory.Model

/-!
Owns what the functions under `translate_address` do: the fields of an address,
the search of the TLB, the choice of a frame, and the loading of a page.

A page owns a frame when it is valid and its page table entry is that frame. The
choice of a frame is described by who owns what afterwards.

Does not own invariants of whole runs.
-/

namespace OsProjects.VirtualMemory

open OsProjects.C

variable {s : State} {storage : BackingStorage}

/-! ## Addresses -/

theorem getPageNumber_toNat (address : UInt32) :
    (getPageNumber address).toNat = address.toNat / pageSize % numberOfPages := by
  have mask : (1 <<< (offsetBits + pageBits) - 1 <<< offsetBits : UInt32) = 65280 := by decide
  unfold getPageNumber
  rw [mask, offsetBits, UInt32.toNat_shiftRight, UInt32.toNat_and]
  show (address.toNat &&& 65280) >>> 8 = address.toNat / 2 ^ 8 % 2 ^ 8
  rw [Nat.shiftRight_and_distrib, ← Nat.shiftRight_eq_div_pow, ← Nat.and_two_pow_sub_one_eq_mod]
  rfl

theorem getPageNumber_lt (address : UInt32) : (getPageNumber address).toNat < numberOfPages := by
  rw [getPageNumber_toNat]
  exact Nat.mod_lt _ (by decide)

theorem getOffset_toNat (address : UInt32) :
    (getOffset address).toNat = address.toNat % pageSize := by
  have mask : (1 <<< offsetBits - 1 : UInt32) = 255 := by decide
  unfold getOffset
  rw [mask, UInt32.toNat_and]
  exact Nat.and_two_pow_sub_one_eq_mod address.toNat 8

theorem getOffset_lt (address : UInt32) : (getOffset address).toNat < pageSize := by
  rw [getOffset_toNat]
  exact Nat.mod_lt _ (by decide)

theorem getPhysicalAddress_toNat {frame offset : UInt32} (frameBelow : frame.toNat < numberOfFrames)
    (offsetBelow : offset.toNat < pageSize) :
    (getPhysicalAddress frame offset).toNat = frame.toNat * pageSize + offset.toNat := by
  simp only [numberOfFrames] at frameBelow
  unfold getPhysicalAddress
  rw [offsetBits, UInt32.toNat_or, UInt32.toNat_shiftLeft]
  show (frame.toNat <<< 8) % 2 ^ 32 ||| offset.toNat = _
  rw [Nat.mod_eq_of_lt (by rw [Nat.shiftLeft_eq]; omega),
    ← Nat.shiftLeft_add_eq_or_of_lt (i := 8) offsetBelow, Nat.shiftLeft_eq]

/-- Page number and offset make up the low 16 bits. -/
theorem page_offset (address : UInt32) :
    (getPageNumber address).toNat * pageSize + (getOffset address).toNat =
      (address &&& 0xFFFF).toNat := by
  rw [getPageNumber_toNat, getOffset_toNat, UInt32.toNat_and]
  show _ = address.toNat &&& 2 ^ 16 - 1
  rw [Nat.and_two_pow_sub_one_eq_mod]
  simp only [pageSize, numberOfPages]
  omega

/-! ## The TLB -/

/-- The entry is one for the page. -/
def Pair.Matches (entry : Pair) (pageNumber : UInt32) : Prop :=
  entry.valid ≠ 0 ∧ entry.page = pageNumber

/-- `check_TLB` finds the first entry for the page, if there is one. -/
theorem checkTLB_cases (pageNumber : UInt32) (s : State) :
    (∃ i : Fin tlbSize, (s.tlb i).Matches pageNumber ∧
        (∀ j, j < i → ¬(s.tlb j).Matches pageNumber) ∧
        checkTLB pageNumber s = .ok (some (s.tlb i).frame)) ∨
      ((∀ i, ¬(s.tlb i).Matches pageNumber) ∧ checkTLB pageNumber s = .ok none) := by
  have body : ∀ i : Fin tlbSize, checkBody pageNumber s.tlb i () =
      .ok (if (s.tlb i).valid ≠ 0 ∧ (s.tlb i).page = pageNumber then .exit (s.tlb i).frame
        else .next ()) := by
    intro i
    unfold checkBody
    rw [read_fin, ok_bind]
    split <;> rfl
  have search := forLoop_search (fun i => (s.tlb i).Matches pageNumber) (fun i => (s.tlb i).frame)
    (fun i matching => (body i).trans (congrArg _ (if_pos matching)))
    (fun i other => (body i).trans (congrArg _ (if_neg other)))
  unfold checkTLB
  cases search with
  | inl found =>
      obtain ⟨i, matching, first, run⟩ := found
      left
      refine ⟨i, matching, first, ?_⟩
      rw [run]
      rfl
  | inr missed =>
      obtain ⟨unmatched, run⟩ := missed
      right
      refine ⟨unmatched, ?_⟩
      rw [run]
      rfl

theorem checkTLB_hit {pageNumber : UInt32} {i : Fin tlbSize}
    (matching : (s.tlb i).Matches pageNumber)
    (first : ∀ j, j < i → ¬(s.tlb j).Matches pageNumber) :
    checkTLB pageNumber s = .ok (some (s.tlb i).frame) := by
  rcases checkTLB_cases pageNumber s with ⟨j, matches', firstToo, run⟩ | ⟨missing, _⟩
  · have same : j = i := by
      rcases Nat.lt_trichotomy j i with before | same | behind
      · exact absurd matches' (first j before)
      · exact Fin.ext same
      · exact absurd matching (firstToo i behind)
    rw [run, same]
  · exact absurd matching (missing i)

theorem checkTLB_miss {pageNumber : UInt32} (missing : ∀ i, ¬(s.tlb i).Matches pageNumber) :
    checkTLB pageNumber s = .ok none := by
  rcases checkTLB_cases pageNumber s with ⟨i, matching, _, _⟩ | ⟨_, run⟩
  · exact absurd matching (missing i)
  · exact run

/-- `check_TLB` finds a frame when some entry is one for the page. -/
theorem checkTLB_finds {pageNumber : UInt32} :
    (∃ frame, checkTLB pageNumber s = .ok (some frame)) ↔
      ∃ i, (s.tlb i).Matches pageNumber := by
  obtain ⟨i, matching, _, run⟩ | ⟨missing, run⟩ := checkTLB_cases pageNumber s
  · exact iff_of_true ⟨_, run⟩ ⟨i, matching⟩
  · apply iff_of_false
    · rintro ⟨frame, found⟩
      rw [run] at found
      cases found
    · rintro ⟨i, matching⟩
      exact missing i matching

/-- The entry that `update_TLB` replaces. -/
def tlbVictim (s : State) : Fin tlbSize :=
  ⟨s.nextAvailableTLB.toNat % tlbSize, Nat.mod_lt _ (by decide)⟩

/-- The state after `update_TLB`. -/
def State.cache (s : State) (pageNumber frameNumber : UInt32) : State :=
  { s with
    tlb := Function.update s.tlb (tlbVictim s) ⟨1, pageNumber, frameNumber⟩
    nextAvailableTLB := (s.nextAvailableTLB + 1) % 16 }

@[simp] theorem cache_tlb (s : State) (pageNumber frameNumber : UInt32) :
    (s.cache pageNumber frameNumber).tlb =
      Function.update s.tlb (tlbVictim s) ⟨1, pageNumber, frameNumber⟩ := rfl

/-- What holds of the new entry and of all entries before holds of every entry. -/
theorem cache_entries {s : State} {pageNumber frameNumber : UInt32} (holds : Pair → Prop)
    (new : holds ⟨1, pageNumber, frameNumber⟩) (old : ∀ i, holds (s.tlb i)) (i : Fin tlbSize) :
    holds ((s.cache pageNumber frameNumber).tlb i) := by
  by_cases replaced : i = tlbVictim s
  · rw [replaced, cache_tlb, Function.update_self]
    exact new
  · rw [cache_tlb, Function.update_of_ne replaced]
    exact old i

theorem updateTLB_eq (pageNumber frameNumber : UInt32) (s : State) :
    updateTLB pageNumber frameNumber s = .ok (s.cache pageNumber frameNumber) := by
  have index : (((s.nextAvailableTLB % 16).toNat : ℕ) : Int) = ((tlbVictim s : ℕ) : Int) := by
    rw [UInt32.toNat_mod]
    rfl
  unfold updateTLB
  simp only [index, write_fin, ok_bind, pure_eq_ok]
  rfl

/-- The entry replaced is one for the new page, and the others stay. -/
theorem cache_matches {pageNumber frameNumber other : UInt32} {i : Fin tlbSize} :
    ((s.cache pageNumber frameNumber).tlb i).Matches other ↔
      other = pageNumber ∧ i = tlbVictim s ∨ (s.tlb i).Matches other ∧ i ≠ tlbVictim s := by
  by_cases replaced : i = tlbVictim s
  · subst replaced
    simp only [State.cache, Function.update_self, Pair.Matches, ne_eq, not_true_eq_false,
      and_false, or_false, and_true]
    constructor
    · rintro ⟨_, same⟩
      exact same.symm
    · intro same
      exact ⟨by decide, same.symm⟩
  · simp only [State.cache, Function.update_of_ne replaced, replaced, and_false, false_or, ne_eq,
      not_false_eq_true, and_true]

/-! ## The frames -/

/-- The page is valid and in the frame. -/
def Owns (s : State) (page : Fin numberOfPages) (frame : UInt32) : Prop :=
  s.pageValid page ≠ 0 ∧ s.pageTable page = frame

/-- The frame that `select_victim_frame` returns. -/
def victimFrame (s : State) : UInt32 :=
  if s.nextAvailableFrame < 128 then s.nextAvailableFrame else s.nextAvailableFrame % 128

theorem victimFrame_lt (s : State) : (victimFrame s).toNat < numberOfFrames := by
  unfold victimFrame
  split
  · next small => exact UInt32.lt_iff_toNat_lt.mp small
  · rw [UInt32.toNat_mod]
    exact Nat.mod_lt _ (by decide)

/-- What `select_victim_frame` does to `page_valid`: once all frames are used up, it
clears one owner of the victim frame, if there is one. -/
def Released (s : State) (pageValid : Fin numberOfPages → UInt8) : Prop :=
  ((s.nextAvailableFrame < 128 ∨ ∀ page, ¬Owns s page (victimFrame s)) ∧
      pageValid = s.pageValid) ∨
    ¬s.nextAvailableFrame < 128 ∧ ∃ page, Owns s page (victimFrame s) ∧
      pageValid = Function.update s.pageValid page 0

/-- The search for the owner of the victim frame clears the page it looks at, or goes on. -/
theorem invalidateBody_eq (victim : UInt32) (s : State) (page : Fin numberOfPages) :
    invalidateBody victim page s =
      .ok (if s.pageValid page ≠ 0 ∧ s.pageTable page = victim then
        .exit { s with pageValid := Function.update s.pageValid page 0 } else .next s) := by
  unfold invalidateBody
  rw [read_fin, ok_bind]
  by_cases valid : s.pageValid page ≠ 0
  · rw [if_pos valid, read_fin, ok_bind]
    by_cases inFrame : s.pageTable page = victim
    · rw [if_pos inFrame, if_pos ⟨valid, inFrame⟩, write_fin]
      rfl
    · rw [if_neg inFrame, if_neg (fun both => inFrame both.2)]
      rfl
  · rw [if_neg valid, if_neg (fun both => valid both.1)]
    rfl

theorem selectVictimFrame_eq (s : State) :
    ∃ pageValid, Released s pageValid ∧ selectVictimFrame s = .ok (victimFrame s, { s with
      nextAvailableFrame := s.nextAvailableFrame + 1
      pageValid }) := by
  unfold Released
  unfold victimFrame
  by_cases unused : s.nextAvailableFrame < 128
  · rw [if_pos unused]
    refine ⟨s.pageValid, Or.inl ⟨Or.inl unused, rfl⟩, ?_⟩
    unfold selectVictimFrame
    rw [if_pos unused]
    rfl
  · rw [if_neg unused]
    let victim := s.nextAvailableFrame % 128
    let next : State := { s with nextAvailableFrame := s.nextAvailableFrame + 1 }
    have clears : ∀ page : Fin numberOfPages, Owns s page victim →
        invalidateBody victim page next =
          .ok (.exit { next with pageValid := Function.update s.pageValid page 0 }) := by
      intro page owner
      rw [invalidateBody_eq]
      exact congrArg _ (if_pos owner)
    have skips : ∀ page : Fin numberOfPages, ¬Owns s page victim →
        invalidateBody victim page next = .ok (.next next) := by
      intro page other
      rw [invalidateBody_eq]
      exact congrArg _ (if_neg other)
    have search := forLoop_search (fun page => Owns s page victim) _ clears skips
    have start : (do
        let last ← forLoop (invalidateBody victim) numberOfPages 0 next
        pure (victim, last.state)) = selectVictimFrame s := by
      unfold selectVictimFrame
      rw [if_neg unused]
    cases search with
    | inl found =>
        obtain ⟨page, owner, _, run⟩ := found
        refine ⟨_, Or.inr ⟨unused, page, owner, rfl⟩, ?_⟩
        rw [← start, run]
        rfl
    | inr free =>
        obtain ⟨unowned, run⟩ := free
        refine ⟨s.pageValid, Or.inl ⟨Or.inr unowned, rfl⟩, ?_⟩
        rw [← start, run]
        rfl

/-! ## Page faults -/

/-- The memory after the page has been read into the frame. -/
def loadPage (storage : BackingStorage) (page : Fin numberOfPages) (frame : UInt32)
    (memory : Fin memorySize → Int8) : Fin memorySize → Int8 := fun i =>
  if frame.toNat * pageSize ≤ i ∧ i < frame.toNat * pageSize + pageSize ∧
      page * pageSize + (i - frame.toNat * pageSize) < storage.length then
    storage.byteAt (page * pageSize + (i - frame.toNat * pageSize))
  else
    memory i

/-- The state after `handle_page_fault`. -/
def State.load (s : State) (storage : BackingStorage) (page : Fin numberOfPages)
    (pageValid : Fin numberOfPages → UInt8) : State :=
  { s with
    nextAvailableFrame := s.nextAvailableFrame + 1
    pageTable := Function.update s.pageTable page (victimFrame s)
    memory := loadPage storage page (victimFrame s) s.memory
    pageValid := Function.update pageValid page 1
    pageFaultCnt := s.pageFaultCnt + 1 }

@[simp] theorem load_pageTable (s : State) (storage : BackingStorage) (page : Fin numberOfPages)
    (pageValid : Fin numberOfPages → UInt8) :
    (s.load storage page pageValid).pageTable =
      Function.update s.pageTable page (victimFrame s) := rfl

@[simp] theorem load_pageValid (s : State) (storage : BackingStorage) (page : Fin numberOfPages)
    (pageValid : Fin numberOfPages → UInt8) :
    (s.load storage page pageValid).pageValid = Function.update pageValid page 1 := rfl

theorem victimFrame_start (s : State) :
    (victimFrame s * 256).toNat = (victimFrame s).toNat * pageSize := by
  have below := victimFrame_lt s
  simp only [numberOfFrames] at below
  rw [UInt32.toNat_mul]
  exact Nat.mod_eq_of_lt (by simp only [UInt32.reduceToNat]; omega)

/-- The victim frame is inside the memory. -/
theorem victimFrame_inside (s : State) :
    (victimFrame s).toNat * pageSize + pageSize ≤ memorySize := by
  have below := victimFrame_lt s
  simp only [memorySize, pageSize, numberOfFrames] at below ⊢
  omega

theorem handlePageFault_eq (storage : BackingStorage) {pageNumber : UInt32}
    (page : Fin numberOfPages) (number : pageNumber.toNat = page) (s : State) :
    ∃ pageValid, Released s pageValid ∧
      handlePageFault storage pageNumber s = .ok (s.load storage page pageValid) := by
  rcases selectVictimFrame_eq s with ⟨pageValid, released, selected⟩
  have pageBelow := page.isLt
  simp only [numberOfPages] at pageBelow
  have position : (pageNumber * 256).toNat = page * pageSize := by
    rw [UInt32.toNat_mul, number]
    exact Nat.mod_eq_of_lt (by simp only [UInt32.reduceToNat]; omega)
  have start := victimFrame_start s
  have inside := victimFrame_inside s
  refine ⟨pageValid, released, ?_⟩
  unfold handlePageFault
  rw [selected]
  simp only [ok_bind, number, write_fin, read_fin, Function.update_self, position, start]
  rw [readPage, if_pos inside]
  rfl

/-! ## One translation -/

/-- The page of an address. -/
def pageOf (logical : UInt32) : Fin numberOfPages :=
  ⟨(getPageNumber logical).toNat, getPageNumber_lt logical⟩

/-- The state with the counters of one translation updated. -/
def State.count (s : State) (misses : UInt32) : State :=
  { s with totalCnt := s.totalCnt + 1, tlbMissCnt := s.tlbMissCnt + misses }

/-- The three ways through `translate_address`: the TLB has the page, the page
table has it, or it is loaded. -/
inductive Translates (storage : BackingStorage) (logical : UInt32) (s : State) :
    UInt32 → State → Prop
  | hit {i : Fin tlbSize} (matching : (s.tlb i).Matches (getPageNumber logical))
      (first : ∀ j, j < i → ¬(s.tlb j).Matches (getPageNumber logical)) :
      Translates storage logical s
        (getPhysicalAddress (s.tlb i).frame (getOffset logical)) (s.count 0)
  | walk (missing : ∀ i, ¬(s.tlb i).Matches (getPageNumber logical))
      (valid : s.pageValid (pageOf logical) ≠ 0) :
      Translates storage logical s
        (getPhysicalAddress (s.pageTable (pageOf logical)) (getOffset logical))
        ((s.count 1).cache (getPageNumber logical) (s.pageTable (pageOf logical)))
  | fault {pageValid} (missing : ∀ i, ¬(s.tlb i).Matches (getPageNumber logical))
      (invalid : s.pageValid (pageOf logical) = 0) (released : Released s pageValid) :
      Translates storage logical s
        (getPhysicalAddress (victimFrame s) (getOffset logical))
        (((s.count 1).load storage (pageOf logical) pageValid).cache (getPageNumber logical)
          (victimFrame s))

/-- `translate_address` always returns. -/
theorem translateAddress_translates (storage : BackingStorage) (logical : UInt32) (s : State) :
    ∃ physical after, translateAddress storage logical s = .ok (physical, after) ∧
      Translates storage logical s physical after := by
  have number : (getPageNumber logical).toNat = pageOf logical := rfl
  have lookup := checkTLB_cases (getPageNumber logical) { s with totalCnt := s.totalCnt + 1 }
  unfold translateAddress
  cases lookup with
  | inl found =>
      obtain ⟨i, matching, first, run⟩ := found
      refine ⟨_, _, ?_, Translates.hit matching first⟩
      simp only [run, ok_bind, pure_eq_ok, State.count, UInt32.add_zero]
  | inr missed =>
      obtain ⟨missing, run⟩ := missed
      by_cases invalid : s.pageValid (pageOf logical) = 0
      · obtain ⟨pageValid, released, loaded⟩ := handlePageFault_eq storage (pageOf logical) number
          (s.count 1)
        refine ⟨_, _, ?_, Translates.fault missing invalid released⟩
        rw [State.count] at loaded
        simp only [run, ok_bind, loadIfInvalid, number, read_fin, invalid, if_true, loaded,
          updateTLB_eq, pure_eq_ok]
        simp only [State.load, Function.update_self]
        rfl
      · refine ⟨_, _, ?_, Translates.walk missing invalid⟩
        simp only [run, ok_bind, loadIfInvalid, number, read_fin, if_neg invalid, updateTLB_eq,
          pure_eq_ok, State.count]

/-! ## Runs -/

section Runs

variable {β : Type} {record : UInt32 → State → UInt32 → List β} {done rest : List UInt32}
variable {recorded : List β} {final : State} {logical : UInt32}

/-- The translations of a run, with what is recorded of each: the record depends on the
address, the state before, and the physical address returned. -/
def recordAll (storage : BackingStorage) (record : UInt32 → State → UInt32 → List β) :
    List UInt32 → State → Outcome (List β × State)
  | [], s => pure ([], s)
  | logical :: rest, s => do
      let (physical, after) ← translateAddress storage logical s
      let (recorded, final) ← recordAll storage record rest after
      pure (record logical s physical ++ recorded, final)

/-- A run of translations always returns, and keeps what every translation keeps, here
behind those already done. -/
theorem recordAll_continues (Invariant : List UInt32 → List β → State → Prop)
    (step : ∀ {done recorded s logical physical after}, Invariant done recorded s →
      Translates storage logical s physical after →
      Invariant (done ++ [logical]) (recorded ++ record logical s physical) after)
    (invariant : Invariant done recorded s) (addresses : List UInt32) :
    ∃ more final, recordAll storage record addresses s = .ok (more, final) ∧
      Invariant (done ++ addresses) (recorded ++ more) final := by
  induction addresses generalizing s done recorded with
  | nil =>
      refine ⟨[], s, rfl, ?_⟩
      rw [List.append_nil, List.append_nil]
      exact invariant
  | cons logical rest inductionHypothesis =>
      obtain ⟨physical, after, translated, translates⟩ :=
        translateAddress_translates storage logical s
      obtain ⟨more, final, others, kept⟩ := inductionHypothesis (step invariant translates)
      refine ⟨record logical s physical ++ more, final, ?_, ?_⟩
      · simp only [recordAll, translated, ok_bind, others, pure_eq_ok]
      · rw [← List.append_assoc, List.append_cons]
        exact kept

theorem recordAll_run (storage : BackingStorage) (record : UInt32 → State → UInt32 → List β)
    (Invariant : List UInt32 → List β → State → Prop)
    (step : ∀ {done recorded s logical physical after}, Invariant done recorded s →
      Translates storage logical s physical after →
      Invariant (done ++ [logical]) (recorded ++ record logical s physical) after)
    (invariant : Invariant [] [] s) (addresses : List UInt32) :
    ∃ recorded final, recordAll storage record addresses s = .ok (recorded, final) ∧
      Invariant addresses recorded final :=
  recordAll_continues Invariant step invariant addresses

end Runs

end OsProjects.VirtualMemory
