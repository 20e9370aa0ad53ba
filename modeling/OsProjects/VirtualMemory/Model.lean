import OsProjects.C.Array

/-!
Owns the virtual memory manager of `vm_manager.c`: the TLB, the page table, the
physical memory, and the translation and access of one address.

All index arithmetic is that of `uint32_t`. Every access to an array checks its
bounds. `fseek` and `fread` succeed; `fread` copies the bytes the file has.

Does not own the input file and the printed lines.
-/

namespace OsProjects.VirtualMemory

open OsProjects.C

/-- `PAGE_SIZE`, also `FRAME_SIZE` -/
abbrev pageSize : ℕ := 256

/-- `TLB_SIZE` -/
abbrev tlbSize : ℕ := 16

/-- `NUMBER_OF_PAGES` -/
abbrev numberOfPages : ℕ := 256

/-- `NUMBER_OF_FRAMES` -/
abbrev numberOfFrames : ℕ := 128

/-- `MEMORY_SIZE` -/
abbrev memorySize : ℕ := pageSize * numberOfFrames

/-- `OFFSET_BITS` -/
def offsetBits : UInt32 := 8

/-- `PAGE_BITS` -/
def pageBits : UInt32 := 8

/-- `GET_PAGE_NUMBER(address)` -/
def getPageNumber (address : UInt32) : UInt32 :=
  (address &&& (1 <<< (offsetBits + pageBits) - 1 <<< offsetBits)) >>> offsetBits

/-- `GET_OFFSET(address)` -/
def getOffset (address : UInt32) : UInt32 :=
  address &&& (1 <<< offsetBits - 1)

/-- `GET_PHYSICAL_ADDRESS(frame, offset)` -/
def getPhysicalAddress (frameNumber offset : UInt32) : UInt32 :=
  frameNumber <<< offsetBits ||| offset

/-- `Pair`: an entry of the TLB. -/
structure Pair where
  valid : UInt8
  page : UInt32
  frame : UInt32
deriving DecidableEq, Repr

/-- The backing storage file. -/
structure BackingStorage where
  length : ℕ
  byteAt : ℕ → Int8

/-- The global variables. -/
structure State where
  tlb : Fin tlbSize → Pair
  memory : Fin memorySize → Int8
  pageTable : Fin numberOfPages → UInt32
  nextAvailableFrame : UInt32
  nextAvailableTLB : UInt32
  pageValid : Fin numberOfPages → UInt8
  totalCnt : UInt32
  pageFaultCnt : UInt32
  tlbMissCnt : UInt32

/-- The global variables after `init`. -/
def State.initial : State where
  tlb := fun _ => ⟨0, 0, 0⟩
  memory := fun _ => 0
  pageTable := fun _ => 0
  nextAvailableFrame := 0
  nextAvailableTLB := 0
  pageValid := fun _ => 0
  totalCnt := 0
  pageFaultCnt := 0
  tlbMissCnt := 0

/-- One iteration of the loop that invalidates the page in the victim frame. -/
def invalidateBody (victim : UInt32) (i : ℕ) (s : State) : Outcome (LoopStep State State) := do
  if (← read s.pageValid i) ≠ 0 then
    if (← read s.pageTable i) = victim then
      let pageValid ← write s.pageValid i 0
      pure (.exit { s with pageValid })
    else
      pure (.next s)
  else
    pure (.next s)

/-- `select_victim_frame`: first in, first out. -/
def selectVictimFrame (s : State) : Outcome (UInt32 × State) := do
  if s.nextAvailableFrame < 128 then
    pure (s.nextAvailableFrame, { s with nextAvailableFrame := s.nextAvailableFrame + 1 })
  else
    let victim := s.nextAvailableFrame % 128
    let s := { s with nextAvailableFrame := s.nextAvailableFrame + 1 }
    let last ← forLoop (invalidateBody victim) numberOfPages 0 s
    pure (victim, last.state)

/-- `fread(memory + start, sizeof(int8_t), PAGE_SIZE, file)` at position `position` of
the file. -/
def readPage (storage : BackingStorage) (position start : ℕ) (memory : Fin memorySize → Int8) :
    Outcome (Fin memorySize → Int8) :=
  if start + pageSize ≤ memorySize then
    .ok fun i =>
      if start ≤ i ∧ i < start + pageSize ∧ position + (i - start) < storage.length then
        storage.byteAt (position + (i - start))
      else
        memory i
  else
    .error .outOfBounds

/-- `handle_page_fault` -/
def handlePageFault (storage : BackingStorage) (pageNumber : UInt32) (s : State) :
    Outcome State := do
  let (frame, s) ← selectVictimFrame s
  let pageTable ← write s.pageTable pageNumber.toNat frame
  let position := (pageNumber * 256).toNat
  let start := ((← read pageTable pageNumber.toNat) * 256).toNat
  let memory ← readPage storage position start s.memory
  let pageValid ← write s.pageValid pageNumber.toNat 1
  pure { s with pageTable, memory, pageValid, pageFaultCnt := s.pageFaultCnt + 1 }

/-- One iteration of the loop of `check_TLB`. -/
def checkBody (pageNumber : UInt32) (tlb : Fin tlbSize → Pair) (i : ℕ) (_ : Unit) :
    Outcome (LoopStep UInt32 Unit) := do
  let entry ← read tlb i
  if entry.valid ≠ 0 ∧ entry.page = pageNumber then
    pure (.exit entry.frame)
  else
    pure (.next ())

/-- `check_TLB`: the frame of the page, `none` for a miss. -/
def checkTLB (pageNumber : UInt32) (s : State) : Outcome (Option UInt32) := do
  match ← forLoop (checkBody pageNumber s.tlb) tlbSize 0 () with
  | .exit frame => pure (some frame)
  | .next _ => pure none

/-- `update_TLB`: first in, first out. -/
def updateTLB (pageNumber frameNumber : UInt32) (s : State) : Outcome State := do
  let victim := s.nextAvailableTLB % 16
  let tlb ← write s.tlb victim.toNat ⟨1, pageNumber, frameNumber⟩
  pure { s with tlb, nextAvailableTLB := (s.nextAvailableTLB + 1) % 16 }

/-- `if(page_valid[page_number] == 0) handle_page_fault(page_number);` -/
def loadIfInvalid (storage : BackingStorage) (pageNumber : UInt32) (s : State) :
    Outcome State := do
  let valid ← read s.pageValid pageNumber.toNat
  if valid = 0 then
    handlePageFault storage pageNumber s
  else
    pure s

/-- `translate_address` -/
def translateAddress (storage : BackingStorage) (logical : UInt32) (s : State) :
    Outcome (UInt32 × State) := do
  let s := { s with totalCnt := s.totalCnt + 1 }
  let pageNumber := getPageNumber logical
  let offset := getOffset logical
  match ← checkTLB pageNumber s with
  | some frameNumber => pure (getPhysicalAddress frameNumber offset, s)
  | none =>
      let s := { s with tlbMissCnt := s.tlbMissCnt + 1 }
      let s ← loadIfInvalid storage pageNumber s
      let frameNumber ← read s.pageTable pageNumber.toNat
      let s ← updateTLB pageNumber frameNumber s
      pure (getPhysicalAddress frameNumber offset, s)

/-- `access_memory` -/
def accessMemory (physical : UInt32) (s : State) : Outcome Int8 :=
  read s.memory physical.toNat

/-- The loop of `main` over the addresses of the input file, with the values it
prints. -/
def accessAll (storage : BackingStorage) : List UInt32 → State → Outcome (List Int8 × State)
  | [], s => pure ([], s)
  | logical :: rest, s => do
      let (physical, s) ← translateAddress storage logical s
      let value ← accessMemory physical s
      let (values, s) ← accessAll storage rest s
      pure (value :: values, s)

end OsProjects.VirtualMemory
