import OsProjects.VirtualMemory.DemandPaging
import OsProjects.VirtualMemory.InputFile
import OsProjects.VirtualMemory.TlbQueue

/-!
Owns what the program prints: one line for each translation, and the counters from which the
statistics at the end are computed.

While the frames suffice, the three ways through `translate_address` agree: the entry of the TLB
is the one of the page table, and the frame holds its page. So the lines are a function of the
addresses alone.

Does not own the percentages, which are computed in floating point.
-/

namespace OsProjects.VirtualMemory

open OsProjects.C
open OsProjects.Theory

/-- The arguments of the `printf` for one address. -/
structure Report where
  logical : UInt32
  physical : UInt32
  value : Int8
deriving DecidableEq, Repr

/-- `"Virtual address: %u Physical address: %u Value: %d\n"` -/
def Report.text (report : Report) : List Char :=
  "Virtual address: ".toList ++ decimal report.logical.toNat ++
    " Physical address: ".toList ++ decimal report.physical.toNat ++
    " Value: ".toList ++ signedDecimal report.value.toInt ++ ['\n']

/-- The input file that is left, the lines printed, and the global variables. -/
structure Printing where
  inputFile : List Char
  printed : List Report
  state : State

/-- One iteration of the loop of `main`, with its test and its `printf`; `garbage` is what
`logical` holds before it is assigned. -/
def printBody (storage : BackingStorage) (garbage : ℕ → UInt32) (p : Printing) :
    Outcome (LoopStep Printing Printing) := do
  match fgets 8 p.inputFile with
  | (none, inputFile) => pure (.exit { p with inputFile })
  | (some line, inputFile) =>
      let logical := (sscanfUnsigned line).getD (garbage p.printed.length)
      let (physical, state) ← translateAddress storage logical p.state
      let value ← accessMemory physical state
      pure (.next ⟨inputFile, p.printed ++ [⟨logical, physical, value⟩], state⟩)

/-- What the program prints: the number that `init` returns when it fails, or the lines, and
`total_cnt`, `page_fault_cnt` and `TLB_miss_cnt` for the statistics. -/
inductive Output where
  | usage (code : Int)
  | lines (text : List Char) (total pageFaults tlbMisses : UInt32)
deriving DecidableEq

/-- `main`, where `none` stands for a file that cannot be opened. -/
def main (argc : Int) (storageFile : Option BackingStorage) (inputFile : Option (List Char))
    (garbage : ℕ → UInt32) : Outcome Output := do
  if argc ≠ 2 then
    pure (.usage (-1))
  else
    match storageFile with
    | none => pure (.usage (-2))
    | some storage =>
        match inputFile with
        | none => pure (.usage (-3))
        | some inputFile =>
            let last ← whileLoop (fun _ => true) (printBody storage garbage)
              (inputFile.length + 1) ⟨inputFile, [], State.initial⟩
            let p := last.state
            pure (.lines (p.printed.flatMap Report.text) p.state.totalCnt
              p.state.pageFaultCnt p.state.tlbMissCnt)

section Report

variable {storage : BackingStorage} {garbage : ℕ → UInt32} {p : Printing} {s after : State}
variable {logical physical : UInt32} {done : List UInt32} {reports : List Report}

/-! ## The loop -/

theorem printBody_end (ended : p.inputFile = []) :
    printBody storage garbage p = .ok (.exit { p with inputFile := [] }) := by
  rw [printBody, ended]
  rfl

theorem printBody_piece {piece rest : List Char} {value : Int8}
    (read : fgets 8 p.inputFile = (some piece, rest))
    (isLogical : logical = (sscanfUnsigned piece).getD (garbage p.printed.length))
    (translated : translateAddress storage logical p.state = .ok (physical, after))
    (accessed : accessMemory physical after = .ok value) :
    printBody storage garbage p =
      .ok (.next ⟨rest, p.printed ++ [⟨logical, physical, value⟩], after⟩) := by
  subst isLogical
  rw [printBody, read]
  simp only [translated, accessed, ok_bind, pure_eq_ok]

/-- What every translation keeps, with the line that is printed for it, the loop keeps; it prints
the values of all pieces of the file. -/
theorem whileLoop_prints (Invariant : List UInt32 → List Report → State → Prop)
    (step : ∀ {done reports s logical physical after value}, Invariant done reports s →
      Translates storage logical s physical after → accessMemory physical after = .ok value →
      Invariant (done ++ [logical]) (reports ++ [⟨logical, physical, value⟩]) after)
    (below : FramesBelow p.state) (invariant : Invariant done p.printed p.state) {fuel : ℕ}
    (enough : p.inputFile.length < fuel) :
    ∃ last, whileLoop (fun _ => true) (printBody storage garbage) fuel p = .ok (.exit last) ∧
      Invariant (done ++ valuesRead garbage p.printed.length (fgetsAll 8 p.inputFile))
        last.printed last.state := by
  induction fuel generalizing p done with
  | zero => exact absurd enough (Nat.not_lt_zero _)
  | succ fuel inductionHypothesis =>
      rcases fgets_cases 8 p.inputFile with ended | ⟨piece, rest, read⟩
      · refine ⟨_, whileLoop_of_exit rfl (printBody_end ended), ?_⟩
        rw [ended, fgetsAll_nil, valuesRead, List.append_nil]
        exact invariant
      · obtain ⟨physical, after, value, translated, _, _, belowAfter, accessed⟩ :=
          below.access storage ((sscanfUnsigned piece).getD (garbage p.printed.length))
        obtain ⟨_, _, again, translates⟩ := translateAddress_translates storage
          ((sscanfUnsigned piece).getD (garbage p.printed.length)) p.state
        rw [translated] at again
        cases again
        have stepped := printBody_piece read rfl translated accessed
        have shorter := fgets_shorter (by decide) read
        obtain ⟨last, run, kept⟩ := inductionHypothesis (p := ⟨rest, _, after⟩) belowAfter
          (step invariant translates accessed) (by omega : rest.length < fuel)
        refine ⟨last, ?_, ?_⟩
        · rw [Iterates.whileLoop_succ ⟨rfl, stepped⟩, run]
        · rw [fgetsAll_of_read (by decide) read, valuesRead]
          simpa using kept

/-! ## The lines while the frames suffice -/

/-- The counters of the translations done. -/
theorem totalCnt_translates (translates : Translates storage logical s physical after) :
    after.totalCnt = s.totalCnt + 1 := by
  cases translates with
  | hit matching first => rfl
  | walk missing valid => rfl
  | fault missing invalid released => rfl

variable {pages : List (Fin numberOfPages)}

/-- The frame that is taken next has no owner. -/
theorem InOrderOf.faultFresh (inOrder : InOrderOf pages s) : FaultFresh logical s := by
  intro _ _ _ page owner
  have member := (inOrder.valid page).mp owner.1
  have rank := inOrder.rank page member
  rw [owner.2, inOrder.next] at rank
  have below := List.idxOf_lt_length_of_mem member
  omega

/-- The TLB agrees with the page table. -/
theorem InOrderOf.hitCurrent (inOrder : InOrderOf pages s) : HitCurrent logical s := by
  intro frame found
  obtain ⟨i, matching, _, run⟩ | ⟨_, run⟩ := checkTLB_cases (getPageNumber logical) s
  · rw [run] at found
    cases found
    obtain ⟨page, member, isPage, inFrame⟩ := inOrder.cached i matching.1
    have same : page = pageOf logical := by
      apply Fin.ext
      rw [← isPage, matching.2]
      rfl
    subst same
    exact ⟨(inOrder.valid _).mpr member, inFrame.symm⟩
  · rw [run] at found
    cases found

/-- The line for an address when the pages have frames in their order. -/
def lineFor (storage : BackingStorage) (pages : List (Fin numberOfPages)) (logical : UInt32) :
    Report :=
  ⟨logical, UInt32.ofNat (placement pages logical), storedByte storage logical⟩

/-- While the frames suffice, the lines are those of the addresses, and the counters have counted
them, the pages touched and the misses of a queue. -/
def ReportsInOrder (storage : BackingStorage) (done : List UInt32) (reports : List Report)
    (s : State) : Prop :=
  (touched done).length ≤ numberOfFrames →
    InOrderOf (touched done) s ∧ Consistent storage s ∧ (∃ missed, MirrorsQueue done missed s) ∧
      s.totalCnt = UInt32.ofNat done.length ∧
      reports = done.map (lineFor storage (touched done))

theorem initial_reportsInOrder : ReportsInOrder storage [] [] State.initial :=
  fun _ => ⟨initial_inOrderOf, initial_consistent storage, ⟨[], initial_holdsMissed, rfl⟩, rfl, rfl⟩

theorem ReportsInOrder.translates {value : Int8} (inOrder : ReportsInOrder storage done reports s)
    (long : 65536 ≤ storage.length)
    (translates : Translates storage logical s physical after)
    (accessed : accessMemory physical after = .ok value) :
    ReportsInOrder storage (done ++ [logical]) (reports ++ [⟨logical, physical, value⟩]) after := by
  intro few
  have grown : (touched done).length ≤ numberOfFrames := by
    refine (length_le_touch (touched done) (pageOf logical)).trans ?_
    rwa [← touched_append]
  obtain ⟨placed, consistent, ⟨missed, mirrors⟩, total, isReports⟩ := inOrder grown
  rw [touched_append] at few ⊢
  obtain ⟨placedAfter, frame, isPhysical, rank⟩ := placed.translates few translates
  obtain ⟨consistentAfter, page, owned, owner, isAddress, current⟩ :=
    consistent.translates long placed.faultFresh translates
  have isPage := current.mpr placed.hitCurrent
  have position : physical = UInt32.ofNat
      (placement (touch (touched done) (pageOf logical)) logical) := by
    have number : physical.toNat = placement (touch (touched done) (pageOf logical)) logical := by
      rw [isPhysical, getPhysicalAddress_toNat (rank ▸ idxOf_touch_lt few) (getOffset_lt logical),
        rank, Nat.mul_comm]
      rfl
    rw [← number, UInt32.ofNat_toNat]
  have isValue : value = storedByte storage logical := by
    have reads := (consistentAfter.holds owner).access (consistentAfter.below owner)
      (getOffset_lt logical)
    rw [← isAddress, accessed, isPage, Except.ok.injEq] at reads
    rw [reads, storedByte_eq]
  have unchanged : done.map (lineFor storage (touched done)) =
      done.map (lineFor storage (touch (touched done) (pageOf logical))) := by
    apply List.map_congr_left
    intro earlier member
    have old : pageOf earlier ∈ touched done :=
      List.mem_eraseDups.mpr (List.mem_map_of_mem (f := pageOf) member)
    rw [lineFor, lineFor, placement, placement, idxOf_touch old]
  refine ⟨placedAfter, consistentAfter, ⟨_, mirrors.translates translates⟩, ?_, ?_⟩
  · rw [totalCnt_translates translates, total, List.length_append, List.length_singleton,
      UInt32.ofNat_add]
    rfl
  · rw [List.map_append, isReports, unchanged, List.map_singleton, lineFor, ← position, isValue]

/-- For an input file whose numerals fit into the buffer and whose addresses touch no more pages
than there are frames, the program prints for every line the address, the place of its page in the
order of first touches with its offset, and the byte of the backing storage; and it counts the
lines, the pages, and the misses of a queue. -/
theorem main_prints_first_touch (long : 65536 ≤ storage.length) {values : List UInt32}
    (fit : ∀ value ∈ values, value.toNat < 1000000)
    (few : (touched values).length ≤ numberOfFrames) (garbage : ℕ → UInt32) :
    main 2 (some storage) (some (linesOf values)) garbage =
      .ok (.lines ((values.map (lineFor storage (touched values))).flatMap Report.text)
        (UInt32.ofNat values.length) (UInt32.ofNat (touched values).length)
        (UInt32.ofNat (queueAfter (values.map getPageNumber)).misses)) := by
  have step : ∀ {done reports s logical physical after value},
      ReportsInOrder storage done reports s →
      Translates storage logical s physical after → accessMemory physical after = .ok value →
      ReportsInOrder storage (done ++ [logical]) (reports ++ [⟨logical, physical, value⟩]) after :=
    fun inOrder translates accessed => inOrder.translates long translates accessed
  obtain ⟨last, run, inOrder⟩ : ∃ last, whileLoop (fun _ => true) (printBody storage garbage)
      ((linesOf values).length + 1) ⟨linesOf values, [], State.initial⟩ = .ok (.exit last) ∧ _ :=
    whileLoop_prints (ReportsInOrder storage) step initial_framesBelow initial_reportsInOrder
      (Nat.lt_succ_self _)
  rw [List.nil_append, valuesRead_of_fits fit] at inOrder
  obtain ⟨placed, _, ⟨missed, mirrors⟩, total, isReports⟩ := inOrder few
  have faults : last.state.pageFaultCnt = UInt32.ofNat (touched values).length := by
    rw [← placed.faults, UInt32.ofNat_toNat]
  have misses : last.state.tlbMissCnt =
      UInt32.ofNat (queueAfter (values.map getPageNumber)).misses := by
    apply UInt32.toNat_inj.mp
    rw [mirrors.queue, mirrors.counted, UInt32.toNat_ofNat']
    rfl
  rw [main, if_neg (by decide)]
  simp only [run, ok_bind, pure_eq_ok, LoopStep.state, isReports, total, faults, misses]

/-- Pages 66, 3 and 66 again. -/
theorem main_prints_first_touch_demo :
    main 2 (some pageNumbers) (some (linesOf [16916, 769, 16917])) (fun _ => 0) =
      .ok (.lines (("Virtual address: 16916 Physical address: 20 Value: 66\n" ++
        "Virtual address: 769 Physical address: 257 Value: 3\n" ++
        "Virtual address: 16917 Physical address: 21 Value: 66\n").toList) 3 2 2) := by
  rw [main_prints_first_touch (by decide) (by simp) (by decide)]
  decide +kernel

end Report

end OsProjects.VirtualMemory
