import OsProjects.Allocator.CommandLoop

/-!
Owns the allocator with the strings of the names on the heap: a block holds the pointer that
`malloc` returned, `free(cursor->name)` gives the string back, and `compact_memory` hands the
pointer from one block to the other.

Every function does to the blocks what its namesake in `Model` does, and besides that what the
source does to the strings.

Does not own why no string is freed twice or lost (`NameOwnership`).
-/

namespace OsProjects.Allocator.Named

open OsProjects.C

/-- `MemBlock` -/
structure Block where
  lo : UInt64
  hi : UInt64
  name : Pointer
  prev : Pointer
  next : Pointer
deriving DecidableEq, Repr

/-- What `malloc` has handed out: the blocks, and the strings of the names. -/
structure Memory where
  blocks : Heap Block
  strings : Heap String

/-- The global variables and the heap. -/
structure State where
  memSize : UInt64
  mem : Pointer
  memory : Memory

/-- The globals as the program starts with them. -/
def State.zero : State where
  memSize := 0
  mem := none
  memory := ⟨.empty, .empty⟩

/-- `if(pointer) pointer->next = target` -/
def linkNext (blocks : Heap Block) (pointer target : Pointer) : Outcome (Heap Block) :=
  if pointer ≠ none then blocks.assign pointer ({ · with next := target }) else pure blocks

/-- `if(pointer) pointer->prev = target` -/
def linkPrev (blocks : Heap Block) (pointer target : Pointer) : Outcome (Heap Block) :=
  if pointer ≠ none then blocks.assign pointer ({ · with prev := target }) else pure blocks

/-- `make_block` -/
def makeBlock (lo hi : UInt64) (name : String) (prev next : Pointer) (memory : Memory) :
    Outcome (Pointer × Memory) := do
  let (text, strings) := if name ≠ "" then memory.strings.malloc name else (none, memory.strings)
  let (ret, blocks) := memory.blocks.malloc ⟨lo, hi, text, prev, next⟩
  if ret = none then
    .error (.exited (-1))
  else
    let blocks ← linkNext blocks prev ret
    let blocks ← linkPrev blocks next ret
    pure (ret, ⟨blocks, strings⟩)

/-! ## `request_memory` -/

/-- One iteration of `case 'F'`, at the block `hole`. -/
def firstFitBody (size : UInt64) (blocks : Heap Block) (hole : Pointer) :
    Outcome (LoopStep Pointer Pointer) := do
  let block ← blocks.load hole
  if block.name = none ∧ block.hi - block.lo + 1 ≥ size then
    pure (.exit hole)
  else
    pure (.next block.next)

/-- `case 'F'` -/
def firstFit (size : UInt64) (s : State) : Outcome Pointer := do
  let last ← whileLoop Option.isSome (firstFitBody size s.memory.blocks)
    s.memory.blocks.fresh s.mem
  pure last.state

/-- One iteration of `case 'B'` or `case 'W'`. -/
def searchBody (passes : UInt64 → UInt64 → Bool) (blocks : Heap Block) (search : Search) :
    Outcome (LoopStep Search Search) := do
  let block ← blocks.load search.cursor
  let holeSize := block.hi - block.lo + 1
  if block.name = none ∧ passes holeSize search.bound then
    pure (.next ⟨block.next, holeSize, search.cursor⟩)
  else
    pure (.next ⟨block.next, search.bound, search.hole⟩)

/-- The two loops that look at every block. -/
def searchAll (passes : UInt64 → UInt64 → Bool) (bound : UInt64) (s : State) :
    Outcome Pointer := do
  let last ← whileLoop (·.cursor.isSome) (searchBody passes s.memory.blocks)
    s.memory.blocks.fresh ⟨s.mem, bound, none⟩
  pure last.state.hole

/-- `case 'B'` -/
def bestFit (size : UInt64) (s : State) : Outcome Pointer :=
  searchAll (fun holeSize minSize => size ≤ holeSize ∧ holeSize < minSize) (-1) s

/-- `case 'W'` -/
def worstFit (size : UInt64) (s : State) : Outcome Pointer :=
  searchAll (fun holeSize maxSize => holeSize > maxSize) (size - 1) s

/-- The `switch`, `none` for an unknown strategy. -/
def selectHole (size : UInt64) (strategy : Char) (s : State) : Outcome (Option Pointer) :=
  match strategy with
  | 'F' => some <$> firstFit size s
  | 'B' => some <$> bestFit size s
  | 'W' => some <$> worstFit size s
  | _ => pure none

/-- What `request_memory` does with the hole it has found. -/
def occupyHole (name : String) (size : UInt64) (hole : Pointer) (s : State) :
    Outcome (Int × State) := do
  let (text, strings) := s.memory.strings.malloc name
  let blocks ← s.memory.blocks.assign hole ({ · with name := text })
  let block ← blocks.load hole
  if block.hi - block.lo + 1 = size then
    pure (0, { s with memory := ⟨blocks, strings⟩ })
  else
    let (rest, memory) ← makeBlock (block.lo + size) block.hi "" hole block.next
      ⟨blocks, strings⟩
    let blocks ← memory.blocks.assign hole ({ · with next := rest })
    let blocks ← blocks.assign hole fun block => { block with hi := block.lo + size - 1 }
    pure (0, { s with memory := { memory with blocks } })

/-- `request_memory` -/
def requestMemory (name : String) (size : UInt64) (strategy : Char) (s : State) :
    Outcome (Int × State) := do
  match ← selectHole size strategy s with
  | none => pure (-1, s)
  | some none => pure (-2, s)
  | some hole =>
      let block ← s.memory.blocks.load hole
      if block.name ≠ none then
        pure (-2, s)
      else
        occupyHole name size hole s

/-! ## `release_memory` -/

/-- The variables of `release_memory` and the ones it changes. -/
structure Releasing where
  cursor : Pointer
  flag : Int
  mem : Pointer
  memory : Memory

/-- `cursor->name && strcmp(cursor->name, name) == 0` -/
def carries (block : Block) (name : String) (strings : Heap String) : Outcome Bool := do
  if block.name ≠ none then
    let text ← strings.load block.name
    pure (text = name)
  else
    pure false

/-- Marks the block at `cursor` unused when it carries the name. -/
def markUnused (name : String) (r : Releasing) : Outcome Releasing := do
  let block ← r.memory.blocks.load r.cursor
  if ← carries block name r.memory.strings then
    let strings ← r.memory.strings.free block.name
    let blocks ← r.memory.blocks.assign r.cursor ({ · with name := none })
    pure { r with memory := ⟨blocks, strings⟩, flag := 0 }
  else
    pure r

/-- Merges the block at `cursor` with the one before it when both are unused. -/
def mergeUnused (r : Releasing) : Outcome Releasing := do
  let block ← r.memory.blocks.load r.cursor
  if block.name = none ∧ block.prev ≠ none then
    let temp := block.prev
    let previous ← r.memory.blocks.load temp
    if previous.name = none then
      let blocks ← r.memory.blocks.assign r.cursor ({ · with prev := previous.prev })
      let blocks ← linkNext blocks previous.prev r.cursor
      let previous ← blocks.load temp
      let blocks ← blocks.assign r.cursor ({ · with lo := previous.lo })
      let blocks ← blocks.free temp
      pure { r with memory := { r.memory with blocks } }
    else
      pure r
  else
    pure r

/-- One iteration of the loop of `release_memory`. -/
def releaseBody (name : String) (r : Releasing) : Outcome (LoopStep Releasing Releasing) := do
  let r ← markUnused name r
  let r ← mergeUnused r
  let block ← r.memory.blocks.load r.cursor
  let mem := if block.prev = none then r.cursor else r.mem
  pure (.next { r with mem, cursor := block.next })

/-- `release_memory` -/
def releaseMemory (name : String) (s : State) : Outcome (Int × State) := do
  let last ← whileLoop (·.cursor.isSome) (releaseBody name) s.memory.blocks.fresh
    ⟨s.mem, 1, s.mem, s.memory⟩
  pure (last.state.flag, { s with mem := last.state.mem, memory := last.state.memory })

/-! ## `compact_memory` -/

/-- The variables of `compact_memory` and the ones it changes. -/
structure Compacting where
  cursor : Pointer
  memory : Memory

/-- `cursor->prev && !cursor->prev->name` -/
def previousUnused (block : Block) (blocks : Heap Block) : Outcome Bool := do
  if block.prev ≠ none then
    let previous ← blocks.load block.prev
    pure (previous.name = none)
  else
    pure false

/-- Swaps a used block at `cursor` with an unused one before it, which gets the string. -/
def swapUnused (c : Compacting) : Outcome Compacting := do
  let block ← c.memory.blocks.load c.cursor
  let swaps ← if block.name ≠ none then previousUnused block c.memory.blocks else pure false
  if swaps then
    let prev := block.prev
    let blocks ← c.memory.blocks.assign prev fun previous =>
      { previous with hi := previous.lo + (block.hi - block.lo) }
    let previous ← blocks.load prev
    let blocks ← blocks.assign c.cursor ({ · with lo := previous.hi + 1 })
    let blocks ← blocks.assign prev ({ · with name := block.name })
    let blocks ← blocks.assign c.cursor ({ · with name := none })
    pure { c with memory := { c.memory with blocks } }
  else
    pure c

/-- Merges an unused block at `cursor` with an unused one before it. -/
def mergeHoles (c : Compacting) : Outcome Compacting := do
  let block ← c.memory.blocks.load c.cursor
  let merges ← if block.name = none then previousUnused block c.memory.blocks else pure false
  if merges then
    let prev := block.prev
    let previous ← c.memory.blocks.load prev
    let blocks ← c.memory.blocks.assign c.cursor ({ · with lo := previous.lo })
    let blocks ← blocks.assign c.cursor ({ · with prev := previous.prev })
    let blocks ← linkNext blocks previous.prev c.cursor
    let blocks ← blocks.free prev
    pure { c with memory := { c.memory with blocks } }
  else
    pure c

/-- One iteration of the loop of `compact_memory`. -/
def compactBody (c : Compacting) : Outcome (LoopStep Compacting Compacting) := do
  let c ← swapUnused c
  let c ← mergeHoles c
  let block ← c.memory.blocks.load c.cursor
  pure (.next { c with cursor := block.next })

/-- `compact_memory` -/
def compactMemory (s : State) : Outcome State := do
  let last ← whileLoop (·.cursor.isSome) compactBody s.memory.blocks.fresh ⟨s.mem, s.memory⟩
  pure { s with memory := last.state.memory }

/-! ## Runs -/

/-- `init` -/
def init (argc : Int) (scanned : Option UInt64) (s : State) : Outcome (Int × State) := do
  if argc ≠ 2 then
    pure (-1, s)
  else
    let memSize := scanned.getD s.memSize
    let (mem, memory) ← makeBlock 0 (memSize - 1) "" none none s.memory
    pure (0, { memSize, mem, memory })

/-- The state after `init` with the given size. -/
def start (memSize : UInt64) : State where
  memSize := memSize
  mem := some 0
  memory := ⟨(Heap.empty.malloc ⟨0, memSize - 1, none, none, none⟩).2, .empty⟩

theorem init_eq (memSize : UInt64) :
    init 2 (some memSize) State.zero = .ok (0, start memSize) := rfl

/-- One command. -/
def perform : Operation → State → Outcome (Int × State)
  | .request name size strategy, s => requestMemory name size strategy s
  | .release name, s => releaseMemory name s
  | .compact, s => do
      let s ← compactMemory s
      pure (0, s)

/-- The commands one after the other. -/
def performAll : List Operation → State → Outcome State
  | [], s => pure s
  | operation :: rest, s => do
      let (_, s) ← perform operation s
      performAll rest s

/-- One iteration of the loop of `clean_up`. -/
def cleanUpBody (s : State) : Outcome (LoopStep State State) := do
  let block ← s.memory.blocks.load s.mem
  let strings ← s.memory.strings.free block.name
  let temp := s.mem
  let block ← s.memory.blocks.load s.mem
  let blocks ← s.memory.blocks.free temp
  pure (.next { s with mem := block.next, memory := ⟨blocks, strings⟩ })

/-- `clean_up` -/
def cleanUp (s : State) : Outcome State := do
  let last ← whileLoop (·.mem.isSome) cleanUpBody s.memory.blocks.fresh s
  pure last.state

end OsProjects.Allocator.Named
