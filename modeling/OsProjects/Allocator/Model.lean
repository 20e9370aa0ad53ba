import OsProjects.C.Heap

/-!
Owns the contiguous memory allocator of `memory_allocator.c`: its blocks, its
global variables and its operations, pointer by pointer.

`size_t` is `UInt64`, so that every sum and difference wraps. A name is the text
it points to, `none` for `NULL`. The loops run over the list of blocks; they are
given as many iterations as there were ever blocks.

Does not own the texts the program prints.
-/

namespace OsProjects.Allocator

open OsProjects.C

/-- `MemBlock` -/
structure MemBlock where
  lo : UInt64
  hi : UInt64
  name : Option String
  prev : Pointer
  next : Pointer
deriving DecidableEq, Repr

/-- The global variables and the heap. -/
structure State where
  memSize : UInt64
  mem : Pointer
  heap : Heap MemBlock

/-- The globals as the program starts with them. -/
def State.zero : State where
  memSize := 0
  mem := none
  heap := .empty

/-- `if(pointer) pointer->next = target` -/
def linkNext (heap : Heap MemBlock) (pointer target : Pointer) : Outcome (Heap MemBlock) :=
  if pointer ≠ none then heap.assign pointer ({ · with next := target }) else pure heap

/-- `if(pointer) pointer->prev = target` -/
def linkPrev (heap : Heap MemBlock) (pointer target : Pointer) : Outcome (Heap MemBlock) :=
  if pointer ≠ none then heap.assign pointer ({ · with prev := target }) else pure heap

/-- `make_block`: an empty name makes an unused block. -/
def makeBlock (lo hi : UInt64) (name : String) (prev next : Pointer) (heap : Heap MemBlock) :
    Outcome (Pointer × Heap MemBlock) := do
  let (ret, heap) := heap.malloc ⟨lo, hi, if name ≠ "" then some name else none, prev, next⟩
  if ret = none then
    .error (.exited (-1))
  else
    let heap ← linkNext heap prev ret
    let heap ← linkPrev heap next ret
    pure (ret, heap)

/-! ## `request_memory` -/

/-- One iteration of `case 'F'`, at the block `hole`. -/
def firstFitBody (size : UInt64) (heap : Heap MemBlock) (hole : Pointer) :
    Outcome (LoopStep Pointer Pointer) := do
  let block ← heap.load hole
  if block.name = none ∧ block.hi - block.lo + 1 ≥ size then
    pure (.exit hole)
  else
    pure (.next block.next)

/-- `case 'F'`: the first hole that is large enough. -/
def firstFit (size : UInt64) (s : State) : Outcome Pointer := do
  let last ← whileLoop Option.isSome (firstFitBody size s.heap) s.heap.fresh s.mem
  pure last.state

/-- The variables of the loops that look at every block. -/
structure Search where
  cursor : Pointer
  bound : UInt64
  hole : Pointer

/-- One iteration of `case 'B'` or `case 'W'`: the block at `cursor` is chosen when
it is unused and its size passes the test against `bound`. -/
def searchBody (passes : UInt64 → UInt64 → Bool) (heap : Heap MemBlock) (search : Search) :
    Outcome (LoopStep Search Search) := do
  let block ← heap.load search.cursor
  let holeSize := block.hi - block.lo + 1
  if block.name = none ∧ passes holeSize search.bound then
    pure (.next ⟨block.next, holeSize, search.cursor⟩)
  else
    pure (.next ⟨block.next, search.bound, search.hole⟩)

/-- The two loops that look at every block. -/
def searchAll (passes : UInt64 → UInt64 → Bool) (bound : UInt64) (s : State) :
    Outcome Pointer := do
  let last ← whileLoop (·.cursor.isSome) (searchBody passes s.heap) s.heap.fresh
    ⟨s.mem, bound, none⟩
  pure last.state.hole

/-- `case 'B'`: `bound` is `min_size`, which starts as the largest `size_t`. -/
def bestFit (size : UInt64) (s : State) : Outcome Pointer :=
  searchAll (fun holeSize minSize => size ≤ holeSize ∧ holeSize < minSize) (-1) s

/-- `case 'W'`: `bound` is `max_size`. -/
def worstFit (size : UInt64) (s : State) : Outcome Pointer :=
  searchAll (fun holeSize maxSize => holeSize > maxSize) (size - 1) s

/-- The `switch`, `none` for an unknown strategy. -/
def selectHole (size : UInt64) (strategy : Char) (s : State) : Outcome (Option Pointer) :=
  match strategy with
  | 'F' => some <$> firstFit size s
  | 'B' => some <$> bestFit size s
  | 'W' => some <$> worstFit size s
  | _ => pure none

/-- What `request_memory` does with the hole it has found. -/
def occupyHole (name : String) (size : UInt64) (hole : Pointer) (s : State) :
    Outcome (Int × State) := do
  let heap ← s.heap.assign hole ({ · with name := some name })
  let block ← heap.load hole
  if block.hi - block.lo + 1 = size then
    pure (0, { s with heap })
  else
    let (rest, heap) ← makeBlock (block.lo + size) block.hi "" hole block.next heap
    let heap ← heap.assign hole ({ · with next := rest })
    let heap ← heap.assign hole fun block => { block with hi := block.lo + size - 1 }
    pure (0, { s with heap })

/-- `request_memory` -/
def requestMemory (name : String) (size : UInt64) (strategy : Char) (s : State) :
    Outcome (Int × State) := do
  match ← selectHole size strategy s with
  | none => pure (-1, s)
  | some none => pure (-2, s)
  | some hole =>
      let block ← s.heap.load hole
      if block.name ≠ none then
        pure (-2, s)
      else
        occupyHole name size hole s

/-! ## `release_memory` -/

/-- The variables of `release_memory` and the ones it changes. -/
structure Releasing where
  cursor : Pointer
  flag : Int
  mem : Pointer
  heap : Heap MemBlock

/-- Marks the block at `cursor` unused when it carries the name. -/
def markUnused (name : String) (r : Releasing) : Outcome Releasing := do
  let block ← r.heap.load r.cursor
  if block.name = some name then
    let heap ← r.heap.assign r.cursor ({ · with name := none })
    pure { r with heap, flag := 0 }
  else
    pure r

/-- Merges the block at `cursor` with the one before it when both are unused. -/
def mergeUnused (r : Releasing) : Outcome Releasing := do
  let block ← r.heap.load r.cursor
  if block.name = none ∧ block.prev ≠ none then
    let temp := block.prev
    let previous ← r.heap.load temp
    if previous.name = none then
      let heap ← r.heap.assign r.cursor ({ · with prev := previous.prev })
      let heap ← linkNext heap previous.prev r.cursor
      let previous ← heap.load temp
      let heap ← heap.assign r.cursor ({ · with lo := previous.lo })
      let heap ← heap.free temp
      pure { r with heap }
    else
      pure r
  else
    pure r

/-- One iteration of the loop of `release_memory`. -/
def releaseBody (name : String) (r : Releasing) : Outcome (LoopStep Releasing Releasing) := do
  let r ← markUnused name r
  let r ← mergeUnused r
  let block ← r.heap.load r.cursor
  let mem := if block.prev = none then r.cursor else r.mem
  pure (.next { r with mem, cursor := block.next })

/-- `release_memory` -/
def releaseMemory (name : String) (s : State) : Outcome (Int × State) := do
  let last ← whileLoop (·.cursor.isSome) (releaseBody name) s.heap.fresh
    ⟨s.mem, 1, s.mem, s.heap⟩
  pure (last.state.flag, { s with mem := last.state.mem, heap := last.state.heap })

/-! ## `compact_memory` -/

/-- The variables of `compact_memory` and the ones it changes. -/
structure Compacting where
  cursor : Pointer
  heap : Heap MemBlock

/-- `cursor->prev && !cursor->prev->name` -/
def previousUnused (block : MemBlock) (heap : Heap MemBlock) : Outcome Bool := do
  if block.prev ≠ none then
    let previous ← heap.load block.prev
    pure (previous.name = none)
  else
    pure false

/-- Swaps a used block at `cursor` with an unused one before it. -/
def swapUnused (c : Compacting) : Outcome Compacting := do
  let block ← c.heap.load c.cursor
  let swaps ← if block.name ≠ none then previousUnused block c.heap else pure false
  if swaps then
    let prev := block.prev
    let heap ← c.heap.assign prev fun previous =>
      { previous with hi := previous.lo + (block.hi - block.lo) }
    let previous ← heap.load prev
    let heap ← heap.assign c.cursor ({ · with lo := previous.hi + 1 })
    let heap ← heap.assign prev ({ · with name := block.name })
    let heap ← heap.assign c.cursor ({ · with name := none })
    pure { c with heap }
  else
    pure c

/-- Merges an unused block at `cursor` with an unused one before it. `mem` stays
as it is. -/
def mergeHoles (c : Compacting) : Outcome Compacting := do
  let block ← c.heap.load c.cursor
  let merges ← if block.name = none then previousUnused block c.heap else pure false
  if merges then
    let prev := block.prev
    let previous ← c.heap.load prev
    let heap ← c.heap.assign c.cursor ({ · with lo := previous.lo })
    let heap ← heap.assign c.cursor ({ · with prev := previous.prev })
    let heap ← linkNext heap previous.prev c.cursor
    let heap ← heap.free prev
    pure { c with heap }
  else
    pure c

/-- One iteration of the loop of `compact_memory`. -/
def compactBody (c : Compacting) : Outcome (LoopStep Compacting Compacting) := do
  let c ← swapUnused c
  let c ← mergeHoles c
  let block ← c.heap.load c.cursor
  pure (.next { c with cursor := block.next })

/-- `compact_memory` -/
def compactMemory (s : State) : Outcome State := do
  let last ← whileLoop (·.cursor.isSome) compactBody s.heap.fresh ⟨s.mem, s.heap⟩
  pure { s with heap := last.state.heap }

/-! ## `display_memory` -/

/-- A line of `display_memory`: a stretch of addresses and the process that has it,
`none` for an unused one. -/
structure Extent where
  lo : UInt64
  hi : UInt64
  name : Option String
deriving DecidableEq, Repr

/-- The lines `display_memory` prints from `cursor` on, at most `fuel` of them. -/
def displayFrom (heap : Heap MemBlock) : ℕ → Pointer → List Extent
  | 0, _ => []
  | _ + 1, none => []
  | fuel + 1, some cursor =>
      match heap.cell cursor with
      | none => []
      | some block =>
          ⟨block.lo, block.hi, block.name⟩ :: displayFrom heap fuel block.next

/-- `display_memory` -/
def displayMemory (s : State) : List Extent :=
  displayFrom s.heap s.heap.fresh s.mem

/-! ## Runs -/

/-- `init`. `scanned` is what `sscanf` reads as `mem_size`, `none` when the text
is no number and `mem_size` keeps its value. -/
def init (argc : Int) (scanned : Option UInt64) (s : State) : Outcome (Int × State) := do
  if argc ≠ 2 then
    pure (-1, s)
  else
    let memSize := scanned.getD s.memSize
    let (mem, heap) ← makeBlock 0 (memSize - 1) "" none none s.heap
    pure (0, { memSize, mem, heap })

/-- The commands `RQ`, `RL` and `C`. -/
inductive Operation where
  | request (name : String) (size : UInt64) (strategy : Char)
  | release (name : String)
  | compact
deriving DecidableEq, Repr

/-- One command, with the value the function returns (0 for `compact_memory`,
which returns none). -/
def perform : Operation → State → Outcome (Int × State)
  | .request name size strategy, s => requestMemory name size strategy s
  | .release name, s => releaseMemory name s
  | .compact, s => do
      let s ← compactMemory s
      pure (0, s)

/-- The commands one after the other. -/
def performAll : List Operation → State → Outcome State
  | [], s => pure s
  | operation :: rest, s => do
      let (_, s) ← perform operation s
      performAll rest s

end OsProjects.Allocator
