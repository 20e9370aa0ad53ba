import OsProjects.Allocator.Names
import OsProjects.Allocator.Ownership
import OsProjects.C.Ownership

/-!
Owns the strings of the names: the allocator with the strings on the heap does to the blocks what
it does with the text in the blocks, no string is used or freed after it was given back, and a
string is allocated exactly as long as one block has it for its name.

`Shows` relates the two programs. Every assignment of the one is an assignment of the other; the
pointers only matter where a string is given back, stored, or handed to another block.

Does not own what the operations do to the blocks (`Run`).
-/

namespace OsProjects.Allocator.Named

open OsProjects.C

/-! ## What the blocks show -/

/-- The block with the text in place of the pointer. -/
def Block.withName (text : Option String) (block : Block) : MemBlock where
  lo := block.lo
  hi := block.hi
  name := text
  prev := block.prev
  next := block.next

/-- The pointers to the strings, by the addresses of the blocks that have them. -/
def names (blocks : Heap Block) (address : ℕ) : Pointer :=
  (blocks.cell address).bind Block.name

/-- The heaps have the same blocks, except that one has the texts where the other has pointers. -/
structure Mirrors (blocks : Heap Block) (text : ℕ → Option String) (heap : Heap MemBlock) :
    Prop where
  fresh : blocks.fresh = heap.fresh
  cell : ∀ address, heap.cell address = (blocks.cell address).map (Block.withName (text address))

/-- The heap with the texts in the blocks shows what the memory holds, in which every string has
one owner. -/
structure Memory.Shows (memory : Memory) (heap : Heap MemBlock) : Prop where
  mirrors : Mirrors memory.blocks (contents (names memory.blocks) memory.strings) heap
  owns : Owns (names memory.blocks) memory.strings
  noneLost : NoneLost (names memory.blocks) memory.strings

/-- The states of the two programs. -/
structure State.Shows (n : State) (s : Allocator.State) : Prop where
  memSize : n.memSize = s.memSize
  mem : n.mem = s.mem
  memory : n.memory.Shows s.heap

section Blocks

variable {blocks : Heap Block} {text : ℕ → Option String} {heap after : Heap MemBlock}
variable {pointer target : Pointer} {address : ℕ} {block : Block} {shown : MemBlock}

theorem names_some (cell : blocks.cell address = some block) :
    names blocks address = block.name := by
  rw [names, cell, Option.bind_some]

theorem names_fresh (blocks : Heap Block) : names blocks blocks.fresh = none := by
  rw [names, blocks.unallocated _ (Nat.le_refl _), Option.bind_none]

theorem names_write (cell : blocks.cell address = some block) (now : Block) :
    names (blocks.write address now) = Function.update (names blocks) address now.name := by
  funext other
  by_cases same : other = address
  · subst same
    rw [Function.update_self, names, Heap.write_self cell, Option.bind_some]
  · rw [Function.update_of_ne same, names, names, Heap.write_other same]

theorem names_remove (blocks : Heap Block) (address : ℕ) :
    names (blocks.remove address) = Function.update (names blocks) address none := by
  funext other
  by_cases same : other = address
  · subst same
    rw [Function.update_self, names, Heap.remove_cell, if_pos rfl, Option.bind_none]
  · rw [Function.update_of_ne same, names, names, Heap.remove_other same]

theorem Mirrors.of_cell (mirrors : Mirrors blocks text heap)
    (cell : heap.cell address = some shown) :
    ∃ block, blocks.cell address = some block ∧ shown = block.withName (text address) := by
  rw [mirrors.cell, Option.map_eq_some_iff] at cell
  obtain ⟨block, live, same⟩ := cell
  exact ⟨block, live, same.symm⟩

theorem Mirrors.load (mirrors : Mirrors blocks text heap) (loaded : heap.load pointer = .ok shown) :
    ∃ address block, pointer = some address ∧ blocks.cell address = some block ∧
      blocks.load pointer = .ok block ∧ shown = block.withName (text address) := by
  obtain ⟨address, rfl, cell⟩ := load_eq_ok loaded
  obtain ⟨block, live, same⟩ := mirrors.of_cell cell
  exact ⟨address, block, rfl, live, Heap.load_some live, same⟩

theorem Mirrors.write (mirrors : Mirrors blocks text heap)
    (cell : blocks.cell address = some block) (now : Block) (name : Option String) :
    Mirrors (blocks.write address now) (Function.update text address name)
      (heap.write address (now.withName name)) := by
  refine ⟨mirrors.fresh, fun other => ?_⟩
  by_cases same : other = address
  · subst same
    have shown := mirrors.cell other
    rw [cell, Option.map_some] at shown
    rw [Heap.write_self shown, Heap.write_self cell, Option.map_some, Function.update_self]
  · rw [Heap.write_other same, Heap.write_other same, Function.update_of_ne same, mirrors.cell]

/-- An assignment to other fields than the name. -/
theorem Mirrors.assign (mirrors : Mirrors blocks text heap) {change : MemBlock → MemBlock}
    (change' : Block → Block)
    (same : ∀ block name, change (Block.withName name block) = (change' block).withName name)
    (keeps : ∀ block, (change' block).name = block.name)
    (assigned : heap.assign pointer change = .ok after) :
    ∃ blocks', blocks.assign pointer change' = .ok blocks' ∧ Mirrors blocks' text after ∧
      names blocks' = names blocks := by
  obtain ⟨address, shown, rfl, cell, rfl⟩ := assign_eq_ok assigned
  obtain ⟨block, live, rfl⟩ := mirrors.of_cell cell
  refine ⟨_, Heap.assign_some live change', ?_, ?_⟩
  · have written := mirrors.write live (change' block) (text address)
    rwa [Function.update_eq_self, ← same] at written
  · rw [names_write live, keeps, ← names_some live, Function.update_eq_self]

/-- An assignment to the name. -/
theorem Mirrors.assign_name (mirrors : Mirrors blocks text heap) {name : Option String}
    (now : Pointer) (assigned : heap.assign (some address) ({ · with name }) = .ok after) :
    ∃ blocks', blocks.assign (some address) ({ · with name := now }) = .ok blocks' ∧
      Mirrors blocks' (Function.update text address name) after ∧
      names blocks' = Function.update (names blocks) address now := by
  obtain ⟨_, shown, isAddress, cell, rfl⟩ := assign_eq_ok assigned
  cases isAddress
  obtain ⟨block, live, rfl⟩ := mirrors.of_cell cell
  exact ⟨_, Heap.assign_some live _, mirrors.write live { block with name := now } name,
    names_write live _⟩

theorem Mirrors.linkNext (mirrors : Mirrors blocks text heap)
    (linked : Allocator.linkNext heap pointer target = .ok after) :
    ∃ blocks', linkNext blocks pointer target = .ok blocks' ∧ Mirrors blocks' text after ∧
      names blocks' = names blocks := by
  rw [Allocator.linkNext] at linked
  rw [Named.linkNext]
  split at linked
  · rename_i some
    rw [if_pos some]
    exact mirrors.assign _ (fun _ _ => rfl) (fun _ => rfl) linked
  · rename_i null
    cases linked
    rw [if_neg null]
    exact ⟨blocks, rfl, mirrors, rfl⟩

theorem Mirrors.linkPrev (mirrors : Mirrors blocks text heap)
    (linked : Allocator.linkPrev heap pointer target = .ok after) :
    ∃ blocks', linkPrev blocks pointer target = .ok blocks' ∧ Mirrors blocks' text after ∧
      names blocks' = names blocks := by
  rw [Allocator.linkPrev] at linked
  rw [Named.linkPrev]
  split at linked
  · rename_i some
    rw [if_pos some]
    exact mirrors.assign _ (fun _ _ => rfl) (fun _ => rfl) linked
  · rename_i null
    cases linked
    rw [if_neg null]
    exact ⟨blocks, rfl, mirrors, rfl⟩

theorem Mirrors.free (mirrors : Mirrors blocks text heap)
    (freed : heap.free (some address) = .ok after) :
    ∃ blocks', blocks.free (some address) = .ok blocks' ∧
      Mirrors blocks' (Function.update text address none) after ∧
      names blocks' = Function.update (names blocks) address none := by
  rw [Heap.free] at freed
  split at freed
  · cases freed
  · rename_i shown cell
    cases freed
    obtain ⟨block, live, _⟩ := mirrors.of_cell cell
    refine ⟨_, Heap.free_some live, ⟨mirrors.fresh, fun other => ?_⟩, names_remove _ _⟩
    rw [Heap.remove_cell, Heap.remove_cell]
    split
    · rfl
    · rename_i different
      rw [mirrors.cell, Function.update_of_ne different]

/-- A new block without a name. -/
theorem Mirrors.malloc (mirrors : Mirrors blocks text heap) (null : text heap.fresh = none)
    (lo hi : UInt64) (prev next : Pointer) :
    Mirrors (blocks.malloc ⟨lo, hi, none, prev, next⟩).2 text
        (heap.malloc ⟨lo, hi, none, prev, next⟩).2 ∧
      names (blocks.malloc ⟨lo, hi, none, prev, next⟩).2 = names blocks := by
  refine ⟨⟨congrArg (· + 1) mirrors.fresh, fun other => ?_⟩, funext fun other => ?_⟩
  · rw [Heap.malloc_cell, Heap.malloc_cell, mirrors.fresh]
    split
    · rename_i isFresh
      rw [isFresh, null]
      rfl
    · exact mirrors.cell other
  · rw [names, names, Heap.malloc_cell]
    split
    · rename_i isFresh
      rw [isFresh, blocks.unallocated _ (Nat.le_refl _)]
      rfl
    · rfl

end Blocks

/-! ## The operations -/

section Operations

variable {memory : Memory} {heap after : Heap MemBlock} {blocks : Heap Block} {address : ℕ}
variable {block : Block} {pointer : Pointer}

/-- The strings stay, and so do the pointers to them. -/
theorem Memory.Shows.keep (shows : memory.Shows heap) {text : ℕ → Option String}
    (isText : text = contents (names memory.blocks) memory.strings)
    (mirrors : Mirrors blocks text after) (same : names blocks = names memory.blocks) :
    Memory.Shows { memory with blocks } after :=
  ⟨by rw [same, ← isText]; exact mirrors, by rw [same]; exact shows.owns,
    by rw [same]; exact shows.noneLost⟩

/-- A block is unused for the one program when it is for the other. -/
theorem Memory.Shows.name_eq_none (shows : memory.Shows heap)
    (cell : memory.blocks.cell address = some block) :
    contents (names memory.blocks) memory.strings address = none ↔ block.name = none := by
  rw [shows.owns.contents_eq_none, names_some cell]

/-- A block without a name is given back. -/
theorem Memory.Shows.free_unnamed (shows : memory.Shows heap)
    (mirrors : Mirrors blocks (contents (names memory.blocks) memory.strings) after)
    (same : names blocks = names memory.blocks) (unnamed : names memory.blocks address = none)
    {last : Heap MemBlock} (freed : after.free (some address) = .ok last) :
    ∃ blocks', blocks.free (some address) = .ok blocks' ∧
      Memory.Shows { memory with blocks := blocks' } last := by
  obtain ⟨blocks', freed', mirrors', now⟩ := mirrors.free freed
  refine ⟨blocks', freed', shows.keep ?_ mirrors' ?_⟩
  · rw [Function.update_eq_self_iff, contents_none unnamed]
  · rw [now, same, Function.update_eq_self_iff, unnamed]

/-- The string of a block is given back. -/
theorem Memory.Shows.free_name (shows : memory.Shows heap)
    (cell : memory.blocks.cell address = some block) (named : block.name ≠ none)
    (assigned : heap.assign (some address) ({ · with name := none }) = .ok after) :
    ∃ strings blocks', memory.strings.free block.name = .ok strings ∧
      memory.blocks.assign (some address) ({ · with name := none }) = .ok blocks' ∧
      Memory.Shows ⟨blocks', strings⟩ after := by
  obtain ⟨text, isText⟩ := Option.ne_none_iff_exists'.mp named
  have points : names memory.blocks address = some text := by rw [names_some cell, isText]
  obtain ⟨freed, owns⟩ := shows.owns.free points
  obtain ⟨blocks', assigned', mirrors, now⟩ := shows.mirrors.assign_name none assigned
  refine ⟨_, blocks', isText ▸ freed, assigned', ?_, ?_, ?_⟩
  · rw [now, shows.owns.contents_free points]
    exact mirrors
  · rw [now]
    exact owns
  · rw [now]
    exact shows.noneLost.free points

/-- An unused block gets a new string. -/
theorem Memory.Shows.store_name (shows : memory.Shows heap)
    (unnamed : names memory.blocks address = none) {name : String}
    (assigned : heap.assign (some address) ({ · with name := some name }) = .ok after) :
    ∃ blocks', memory.blocks.assign (some address)
        ({ · with name := some memory.strings.fresh }) = .ok blocks' ∧
      Memory.Shows ⟨blocks', (memory.strings.malloc name).2⟩ after := by
  obtain ⟨blocks', assigned', mirrors, now⟩ :=
    shows.mirrors.assign_name (some memory.strings.fresh) assigned
  refine ⟨blocks', assigned', ?_, ?_, ?_⟩
  · rw [now, shows.owns.contents_malloc address name]
    exact mirrors
  · rw [now]
    exact shows.owns.malloc address name
  · rw [now]
    exact shows.noneLost.malloc unnamed name

/-! ### `make_block` and `request_memory` -/

theorem makeBlock_unnamed (lo hi : UInt64) (prev next : Pointer) (memory : Memory) :
    makeBlock lo hi "" prev next memory = (do
      let blocks ← linkNext (memory.blocks.malloc ⟨lo, hi, none, prev, next⟩).2 prev
        (some memory.blocks.fresh)
      let blocks ← linkPrev blocks next (some memory.blocks.fresh)
      pure (some memory.blocks.fresh, { memory with blocks })) := rfl

theorem makeBlock_unnamed_text (lo hi : UInt64) (prev next : Pointer) (heap : Heap MemBlock) :
    Allocator.makeBlock lo hi "" prev next heap = (do
      let heap' ← Allocator.linkNext (heap.malloc ⟨lo, hi, none, prev, next⟩).2 prev
        (some heap.fresh)
      let heap' ← Allocator.linkPrev heap' next (some heap.fresh)
      pure (some heap.fresh, heap')) := rfl

theorem Memory.Shows.makeBlock (shows : memory.Shows heap) {lo hi : UInt64}
    {prev next made : Pointer}
    (run : Allocator.makeBlock lo hi "" prev next heap = .ok (made, after)) :
    ∃ memory', makeBlock lo hi "" prev next memory = .ok (made, memory') ∧
      memory'.Shows after := by
  have null : contents (names memory.blocks) memory.strings heap.fresh = none := by
    rw [← shows.mirrors.fresh, contents_none (names_fresh _)]
  obtain ⟨mirrors, same⟩ := shows.mirrors.malloc null lo hi prev next
  rw [makeBlock_unnamed_text, ← shows.mirrors.fresh] at run
  obtain ⟨first, linkedNext, run⟩ := bind_eq_ok.mp run
  obtain ⟨second, linkedPrev, returned⟩ := bind_eq_ok.mp run
  cases returned
  obtain ⟨first', ran, mirrors, sameFirst⟩ := mirrors.linkNext linkedNext
  obtain ⟨second', ran', mirrors, sameSecond⟩ := mirrors.linkPrev linkedPrev
  refine ⟨{ memory with blocks := second' }, ?_,
    shows.keep rfl mirrors (sameSecond.trans (sameFirst.trans same))⟩
  simp only [makeBlock_unnamed, ran, ran', ok_bind, pure_eq_ok]

/-- The two programs fail alike. -/
theorem Memory.Shows.load_error (shows : memory.Shows heap) {fault : Fault}
    (failed : heap.load pointer = .error fault) : memory.blocks.load pointer = .error fault := by
  cases pointer with
  | none =>
      cases failed
      rfl
  | some address =>
      have same := shows.mirrors.cell address
      rw [Heap.load] at failed
      rw [Heap.load]
      cases cell : memory.blocks.cell address with
      | none =>
          rw [cell, Option.map_none] at same
          rw [same] at failed
          cases failed
          rfl
      | some block =>
          rw [cell, Option.map_some] at same
          rw [same] at failed
          cases failed

theorem Memory.Shows.firstFitBody_eq (shows : memory.Shows heap) (size : UInt64) :
    firstFitBody size memory.blocks = Allocator.firstFitBody size heap := by
  funext hole
  rw [firstFitBody, Allocator.firstFitBody]
  cases loaded : heap.load hole with
  | error fault => rw [shows.load_error loaded, error_bind, error_bind]
  | ok shown =>
      obtain ⟨address, block, rfl, cell, ran, rfl⟩ := shows.mirrors.load loaded
      have sameTest := shows.name_eq_none cell
      simp only [ran, ok_bind, Block.withName, sameTest]

theorem Memory.Shows.searchBody_eq (shows : memory.Shows heap)
    (passes : UInt64 → UInt64 → Bool) :
    searchBody passes memory.blocks = Allocator.searchBody passes heap := by
  funext search
  rw [searchBody, Allocator.searchBody]
  cases loaded : heap.load search.cursor with
  | error fault => rw [shows.load_error loaded, error_bind, error_bind]
  | ok shown =>
      obtain ⟨address, block, _, cell, ran, rfl⟩ := shows.mirrors.load loaded
      have sameTest := shows.name_eq_none cell
      simp only [ran, ok_bind, Block.withName, sameTest]

variable {n n' : State} {s after : Allocator.State} {code : Int}

theorem State.Shows.selectHole_eq (shows : n.Shows s) (size : UInt64) (strategy : Char) :
    selectHole size strategy n = Allocator.selectHole size strategy s := by
  have same : firstFit size n = Allocator.firstFit size s := by
    rw [firstFit, Allocator.firstFit, shows.memory.firstFitBody_eq, shows.memory.mirrors.fresh,
      shows.mem]
  have sameSearch : ∀ passes bound, searchAll passes bound n =
      Allocator.searchAll passes bound s := by
    intro passes bound
    rw [searchAll, Allocator.searchAll, shows.memory.searchBody_eq, shows.memory.mirrors.fresh,
      shows.mem]
  unfold selectHole Allocator.selectHole
  rw [same, bestFit, worstFit, sameSearch, sameSearch]
  rfl

theorem State.Shows.occupyHole (shows : n.Shows s) (unnamed : names n.memory.blocks address = none)
    {name : String} {size : UInt64}
    (run : Allocator.occupyHole name size (some address) s = .ok (code, after)) :
    ∃ n', occupyHole name size (some address) n = .ok (code, n') ∧ n'.Shows after := by
  obtain ⟨heap, assigned, run⟩ := bind_eq_ok.mp run
  obtain ⟨block, loaded, run⟩ := bind_eq_ok.mp run
  obtain ⟨blocks, ran, named⟩ := shows.memory.store_name unnamed assigned
  obtain ⟨_, block', _, _, ran', rfl⟩ := named.mirrors.load loaded
  rw [Named.occupyHole, Heap.malloc_eq]
  dsimp only
  rw [ran, ok_bind, ran', ok_bind]
  by_cases whole : block'.hi - block'.lo + 1 = size
  · rw [if_pos whole]
    rw [if_pos (by exact whole)] at run
    cases run
    exact ⟨_, rfl, shows.memSize, shows.mem, named⟩
  · rw [if_neg whole]
    rw [if_neg (by exact whole)] at run
    obtain ⟨⟨rest, made⟩, make, run⟩ := bind_eq_ok.mp run
    obtain ⟨linked, link, run⟩ := bind_eq_ok.mp run
    obtain ⟨final, shorten, returned⟩ := bind_eq_ok.mp run
    cases returned
    obtain ⟨memory, ranMake, madeShows⟩ := named.makeBlock make
    dsimp only [Block.withName] at ranMake
    obtain ⟨first, ranLink, mirrors, same⟩ := madeShows.mirrors.assign
      ({ · with next := rest }) (fun _ _ => rfl) (fun _ => rfl) link
    obtain ⟨second, ranShorten, mirrors, same'⟩ := mirrors.assign
      (fun block => { block with hi := block.lo + size - 1 }) (fun _ _ => rfl) (fun _ => rfl)
      shorten
    refine ⟨{ n with memory := { memory with blocks := second } }, ?_, shows.memSize, shows.mem,
      madeShows.keep rfl mirrors (same'.trans same)⟩
    rw [ranMake, ok_bind, ranLink, ok_bind, ranShorten, ok_bind]
    rfl

theorem State.Shows.requestMemory (shows : n.Shows s) {name : String} {size : UInt64}
    {strategy : Char}
    (run : Allocator.requestMemory name size strategy s = .ok (code, after)) :
    ∃ n', requestMemory name size strategy n = .ok (code, n') ∧ n'.Shows after := by
  rw [Allocator.requestMemory] at run
  rw [Named.requestMemory, shows.selectHole_eq]
  obtain ⟨selected, select, run⟩ := bind_eq_ok.mp run
  rw [select, ok_bind]
  rcases selected with _ | _ | hole
  · cases run
    exact ⟨n, rfl, shows⟩
  · cases run
    exact ⟨n, rfl, shows⟩
  · obtain ⟨block, loaded, run⟩ := bind_eq_ok.mp run
    obtain ⟨_, block', isHole, cell, ran, rfl⟩ := shows.memory.mirrors.load loaded
    cases isHole
    have sameTest := shows.memory.name_eq_none cell
    dsimp only
    rw [ran, ok_bind]
    split at run
    · rename_i used
      cases run
      rw [if_pos (mt sameTest.mpr used)]
      exact ⟨n, rfl, shows⟩
    · rename_i unused
      have unnamed := sameTest.mp (not_not.mp unused)
      rw [if_neg (not_not.mpr unnamed)]
      exact shows.occupyHole (by rw [names_some cell, unnamed]) run

/-! ### `release_memory` -/

/-- The variables of `release_memory` in the two programs. -/
structure Releasing.Shows (r : Releasing) (shown : Allocator.Releasing) : Prop where
  cursor : r.cursor = shown.cursor
  flag : r.flag = shown.flag
  mem : r.mem = shown.mem
  memory : r.memory.Shows shown.heap

variable {r : Releasing} {q last : Allocator.Releasing} {name : String}

/-- `strcmp` compares with the string that the block shows. -/
theorem Memory.Shows.carries_eq (shows : memory.Shows heap)
    (cell : memory.blocks.cell address = some block) (name : String) :
    carries block name memory.strings =
      .ok (contents (names memory.blocks) memory.strings address = some name) := by
  rw [carries]
  cases pointer : block.name with
  | none =>
      rw [contents_none (by rw [names_some cell, pointer])]
      rfl
  | some target =>
      have points : names memory.blocks address = some target := by rw [names_some cell, pointer]
      obtain ⟨text, loaded, shown⟩ := shows.owns.load points
      rw [if_pos (by simp), loaded, shown]
      simp

theorem Releasing.Shows.markUnused (shows : r.Shows q)
    (run : Allocator.markUnused name q = .ok last) :
    ∃ r', markUnused name r = .ok r' ∧ r'.Shows last := by
  obtain ⟨shown, loaded, run⟩ := bind_eq_ok.mp run
  obtain ⟨address, block, isCursor, cell, ran, rfl⟩ := shows.memory.mirrors.load loaded
  have carried := shows.memory.carries_eq cell name
  rw [Named.markUnused, shows.cursor, ran, ok_bind, carried, ok_bind]
  split at run
  · rename_i same
    obtain ⟨after, assigned, returned⟩ := bind_eq_ok.mp run
    cases returned
    rw [isCursor] at assigned ⊢
    have named : block.name ≠ none := by
      intro unnamed
      rw [Block.withName, (shows.memory.name_eq_none cell).mpr unnamed] at same
      cases same
    obtain ⟨strings, blocks, freed, ranAssign, after⟩ :=
      shows.memory.free_name cell named assigned
    refine ⟨⟨some address, 0, r.mem, ⟨blocks, strings⟩⟩, ?_, rfl, rfl, shows.mem, after⟩
    rw [if_pos (decide_eq_true (by exact same)), freed, ok_bind, ranAssign, ok_bind]
    rfl
  · rename_i other
    cases run
    refine ⟨r, ?_, shows⟩
    rw [if_neg (mt of_decide_eq_true (by exact other))]
    rfl

theorem Releasing.Shows.mergeUnused (shows : r.Shows q)
    (run : Allocator.mergeUnused q = .ok last) :
    ∃ r', mergeUnused r = .ok r' ∧ r'.Shows last := by
  obtain ⟨shown, loaded, run⟩ := bind_eq_ok.mp run
  obtain ⟨address, block, isCursor, cell, ran, rfl⟩ := shows.memory.mirrors.load loaded
  have sameTest := shows.memory.name_eq_none cell
  rw [Named.mergeUnused, shows.cursor, ran, ok_bind]
  split at run
  · rename_i unused
    obtain ⟨previous, loadedPrevious, run⟩ := bind_eq_ok.mp run
    obtain ⟨before, blockBefore, isBefore, cellBefore, ranBefore, rfl⟩ :=
      shows.memory.mirrors.load loadedPrevious
    have samePrevious := shows.memory.name_eq_none cellBefore
    rw [if_pos ⟨sameTest.mp unused.1, unused.2⟩]
    dsimp only [Block.withName] at ranBefore ⊢
    rw [ranBefore, ok_bind]
    split at run
    · rename_i unusedBefore
      obtain ⟨first, assigned, run⟩ := bind_eq_ok.mp run
      obtain ⟨second, linked, run⟩ := bind_eq_ok.mp run
      obtain ⟨again, loadedAgain, run⟩ := bind_eq_ok.mp run
      obtain ⟨third, widened, run⟩ := bind_eq_ok.mp run
      obtain ⟨final, freed, returned⟩ := bind_eq_ok.mp run
      cases returned
      have unnamed : names r.memory.blocks before = none := by
        rw [names_some cellBefore, samePrevious.mp unusedBefore]
      obtain ⟨first', ranFirst, mirrors, sameFirst⟩ := shows.memory.mirrors.assign
        ({ · with prev := blockBefore.prev }) (fun _ _ => rfl) (fun _ => rfl) assigned
      obtain ⟨second', ranSecond, mirrors, sameSecond⟩ := mirrors.linkNext linked
      obtain ⟨_, blockAgain, _, _, ranAgain, rfl⟩ := mirrors.load loadedAgain
      obtain ⟨third', ranThird, mirrors, sameThird⟩ := mirrors.assign
        ({ · with lo := blockAgain.lo }) (fun _ _ => rfl) (fun _ => rfl) widened
      dsimp only [Block.withName] at isBefore freed ranSecond ranAgain
      rw [isBefore] at freed ranAgain
      obtain ⟨final', ranFinal, after⟩ := shows.memory.free_unnamed mirrors
        (sameThird.trans (sameSecond.trans sameFirst)) unnamed freed
      refine ⟨⟨q.cursor, r.flag, r.mem, { r.memory with blocks := final' }⟩, ?_, rfl, shows.flag,
        shows.mem, after⟩
      rw [if_pos (samePrevious.mp unusedBefore), ranFirst, ok_bind, ranSecond, ok_bind, isBefore,
        ranAgain, ok_bind, ranThird, ok_bind, ranFinal, ok_bind]
      rfl
    · rename_i usedBefore
      cases run
      refine ⟨r, ?_, shows⟩
      rw [if_neg (mt samePrevious.mpr usedBefore)]
      rfl
  · rename_i usedOrFirst
    cases run
    refine ⟨r, ?_, shows⟩
    rw [if_neg fun unused => usedOrFirst ⟨sameTest.mpr unused.1, unused.2⟩]
    rfl

theorem Releasing.Shows.body (shows : r.Shows q) {step : LoopStep Allocator.Releasing
    Allocator.Releasing} (run : Allocator.releaseBody name q = .ok step) :
    ∃ step', releaseBody name r = .ok step' ∧
      step'.Related Releasing.Shows Releasing.Shows step := by
  obtain ⟨marked, mark, run⟩ := bind_eq_ok.mp run
  obtain ⟨merged, merge, run⟩ := bind_eq_ok.mp run
  obtain ⟨shown, loaded, returned⟩ := bind_eq_ok.mp run
  cases returned
  obtain ⟨marked', ranMark, shows⟩ := shows.markUnused mark
  obtain ⟨merged', ranMerge, shows⟩ := shows.mergeUnused merge
  obtain ⟨address, block, _, _, ran, rfl⟩ := shows.memory.mirrors.load loaded
  refine ⟨_, ?_, .next (t := { merged' with
    mem := if block.prev = none then merged'.cursor else merged'.mem, cursor := block.next })
    ⟨rfl, shows.flag, ?_, shows.memory⟩⟩
  · rw [releaseBody, ranMark, ok_bind, ranMerge, ok_bind, shows.cursor, ran, ok_bind,
      ← shows.cursor]
    rfl
  · rw [shows.cursor, shows.mem]
    rfl

theorem State.Shows.releaseMemory (shows : n.Shows s)
    (run : Allocator.releaseMemory name s = .ok (code, after)) :
    ∃ n', releaseMemory name n = .ok (code, n') ∧ n'.Shows after := by
  obtain ⟨last, loop, returned⟩ := bind_eq_ok.mp run
  cases returned
  obtain ⟨last', ranLoop, related⟩ := whileLoop_follows
    (fun r : Releasing => r.cursor.isSome)
    (fun {r q} (shows : r.Shows q) => by rw [shows.cursor])
    (fun shows _ run => shows.body run)
    (⟨shows.mem, rfl, shows.mem, shows.memory⟩ : Releasing.Shows ⟨n.mem, 1, n.mem, n.memory⟩ _)
    loop
  have ended := related.state
  refine ⟨{ n with mem := last'.state.mem, memory := last'.state.memory }, ?_, shows.memSize,
    ended.mem, ended.memory⟩
  rw [Named.releaseMemory, shows.memory.mirrors.fresh, ranLoop, ok_bind, ← ended.flag]
  rfl

/-! ### `compact_memory` -/

/-- The variables of `compact_memory` in the two programs. -/
structure Compacting.Shows (c : Compacting) (shown : Allocator.Compacting) : Prop where
  cursor : c.cursor = shown.cursor
  memory : c.memory.Shows shown.heap

variable {c : Compacting} {d lastOf : Allocator.Compacting}

theorem Memory.Shows.previousUnused (shows : memory.Shows heap) {name : Option String}
    {answer : Bool} (run : Allocator.previousUnused (block.withName name) heap = .ok answer) :
    previousUnused block memory.blocks = .ok answer ∧ (answer = true → ∃ before blockBefore,
      block.prev = some before ∧ memory.blocks.cell before = some blockBefore ∧
        blockBefore.name = none) := by
  rw [Allocator.previousUnused] at run
  rw [Named.previousUnused]
  split at run
  · rename_i behind
    obtain ⟨previous, loaded, returned⟩ := bind_eq_ok.mp run
    obtain ⟨before, blockBefore, isBefore, cellBefore, ran, rfl⟩ := shows.mirrors.load loaded
    have samePrevious := shows.name_eq_none cellBefore
    dsimp only [Block.withName] at behind ran returned isBefore
    cases returned
    rw [if_pos behind, ran, ok_bind]
    refine ⟨by simp only [samePrevious, pure_eq_ok], fun isTrue =>
      ⟨before, blockBefore, isBefore, cellBefore, samePrevious.mp (of_decide_eq_true isTrue)⟩⟩
  · rename_i first
    cases run
    rw [if_neg (by exact first)]
    exact ⟨rfl, fun isTrue => absurd isTrue Bool.false_ne_true⟩

theorem Compacting.Shows.swapUnused (shows : c.Shows d)
    (run : Allocator.swapUnused d = .ok lastOf) :
    ∃ c', swapUnused c = .ok c' ∧ c'.Shows lastOf := by
  obtain ⟨shown, loaded, run⟩ := bind_eq_ok.mp run
  obtain ⟨address, block, isCursor, cell, ran, rfl⟩ := shows.memory.mirrors.load loaded
  have sameTest := shows.memory.name_eq_none cell
  rw [Named.swapUnused, shows.cursor, ran, ok_bind]
  by_cases unused : block.name = none
  · rw [if_neg (not_not.mpr (by exact sameTest.mpr unused))] at run
    cases run
    rw [if_neg (not_not.mpr unused)]
    exact ⟨c, rfl, shows⟩
  · rw [if_pos (by exact mt sameTest.mp unused)] at run
    obtain ⟨swaps, tested, run⟩ := bind_eq_ok.mp run
    obtain ⟨ranTest, behind⟩ := shows.memory.previousUnused tested
    rw [if_pos unused, ranTest, ok_bind]
    cases swaps with
    | false =>
        cases run
        exact ⟨c, rfl, shows⟩
    | true =>
        obtain ⟨before, blockBefore, isBefore, cellBefore, unusedBefore⟩ := behind rfl
        obtain ⟨first, lengthened, run⟩ := bind_eq_ok.mp run
        obtain ⟨previous, loadedPrevious, run⟩ := bind_eq_ok.mp run
        obtain ⟨second, shortened, run⟩ := bind_eq_ok.mp run
        obtain ⟨third, named, run⟩ := bind_eq_ok.mp run
        obtain ⟨fourth, unnamed, returned⟩ := bind_eq_ok.mp run
        cases returned
        obtain ⟨first', ranFirst, mirrors, sameFirst⟩ := shows.memory.mirrors.assign
          (fun previous => { previous with hi := previous.lo + (block.hi - block.lo) })
          (fun _ _ => rfl) (fun _ => rfl) lengthened
        obtain ⟨_, blockAgain, _, _, ranAgain, rfl⟩ := mirrors.load loadedPrevious
        obtain ⟨second', ranSecond, mirrors, sameSecond⟩ := mirrors.assign
          ({ · with lo := blockAgain.hi + 1 }) (fun _ _ => rfl) (fun _ => rfl) shortened
        dsimp only [Block.withName] at named ranAgain ranFirst
        rw [isBefore] at named ranAgain ranFirst
        rw [isCursor] at unnamed ranSecond
        obtain ⟨third', ranThird, mirrors, sameThird⟩ := mirrors.assign_name block.name named
        obtain ⟨fourth', ranFourth, mirrors, sameFourth⟩ := mirrors.assign_name none unnamed
        have null : names c.memory.blocks before = none := by
          rw [names_some cellBefore, unusedBefore]
        have different : before ≠ address := by
          rintro rfl
          exact unused ((names_some cell).symm.trans null)
        have moved : names fourth' = Function.update (Function.update (names c.memory.blocks)
            before (names c.memory.blocks address)) address none := by
          rw [sameFourth, sameThird, sameSecond, sameFirst, names_some cell]
        refine ⟨⟨some address, { c.memory with blocks := fourth' }⟩, ?_, isCursor.symm, ?_, ?_, ?_⟩
        · dsimp only
          rw [if_pos rfl, isBefore, ranFirst, ok_bind, ranAgain, ok_bind, isCursor, ranSecond,
            ok_bind, ranThird, ok_bind, ranFourth, ok_bind]
          rfl
        · dsimp only
          rw [moved, contents_move]
          exact mirrors
        · dsimp only
          rw [moved]
          exact shows.memory.owns.move before address
        · dsimp only
          rw [moved]
          exact shows.memory.noneLost.move null different

theorem Compacting.Shows.mergeHoles (shows : c.Shows d)
    (run : Allocator.mergeHoles d = .ok lastOf) :
    ∃ c', mergeHoles c = .ok c' ∧ c'.Shows lastOf := by
  obtain ⟨shown, loaded, run⟩ := bind_eq_ok.mp run
  obtain ⟨address, block, isCursor, cell, ran, rfl⟩ := shows.memory.mirrors.load loaded
  have sameTest := shows.memory.name_eq_none cell
  rw [Named.mergeHoles, shows.cursor, ran, ok_bind]
  by_cases unused : block.name = none
  · rw [if_pos (by exact sameTest.mpr unused)] at run
    obtain ⟨merges, tested, run⟩ := bind_eq_ok.mp run
    obtain ⟨ranTest, behind⟩ := shows.memory.previousUnused tested
    rw [if_pos unused, ranTest, ok_bind]
    cases merges with
    | false =>
        cases run
        exact ⟨c, rfl, shows⟩
    | true =>
        obtain ⟨before, blockBefore, isBefore, cellBefore, unusedBefore⟩ := behind rfl
        obtain ⟨previous, loadedPrevious, run⟩ := bind_eq_ok.mp run
        obtain ⟨first, widened, run⟩ := bind_eq_ok.mp run
        obtain ⟨second, assigned, run⟩ := bind_eq_ok.mp run
        obtain ⟨third, linked, run⟩ := bind_eq_ok.mp run
        obtain ⟨final, freed, returned⟩ := bind_eq_ok.mp run
        cases returned
        obtain ⟨_, blockPrevious, _, _, ranPrevious, rfl⟩ :=
          shows.memory.mirrors.load loadedPrevious
        obtain ⟨first', ranFirst, mirrors, sameFirst⟩ := shows.memory.mirrors.assign
          ({ · with lo := blockPrevious.lo }) (fun _ _ => rfl) (fun _ => rfl) widened
        obtain ⟨second', ranSecond, mirrors, sameSecond⟩ := mirrors.assign
          ({ · with prev := blockPrevious.prev }) (fun _ _ => rfl) (fun _ => rfl) assigned
        obtain ⟨third', ranThird, mirrors, sameThird⟩ := mirrors.linkNext linked
        dsimp only [Block.withName] at freed ranPrevious ranThird
        rw [isBefore] at freed ranPrevious
        have null : names c.memory.blocks before = none := by
          rw [names_some cellBefore, unusedBefore]
        obtain ⟨final', ranFinal, after⟩ := shows.memory.free_unnamed mirrors
          (sameThird.trans (sameSecond.trans sameFirst)) null freed
        refine ⟨⟨d.cursor, { c.memory with blocks := final' }⟩, ?_, rfl, after⟩
        dsimp only
        rw [if_pos rfl, isBefore, ranPrevious, ok_bind, ranFirst, ok_bind, ranSecond, ok_bind,
          ranThird, ok_bind, ranFinal, ok_bind]
        rfl
  · rw [if_neg (by exact mt sameTest.mp unused)] at run
    cases run
    rw [if_neg unused]
    exact ⟨c, rfl, shows⟩

theorem Compacting.Shows.body (shows : c.Shows d) {step : LoopStep Allocator.Compacting
    Allocator.Compacting} (run : Allocator.compactBody d = .ok step) :
    ∃ step', compactBody c = .ok step' ∧
      step'.Related Compacting.Shows Compacting.Shows step := by
  obtain ⟨swapped, swap, run⟩ := bind_eq_ok.mp run
  obtain ⟨merged, merge, run⟩ := bind_eq_ok.mp run
  obtain ⟨shown, loaded, returned⟩ := bind_eq_ok.mp run
  cases returned
  obtain ⟨swapped', ranSwap, shows⟩ := shows.swapUnused swap
  obtain ⟨merged', ranMerge, shows⟩ := shows.mergeHoles merge
  obtain ⟨address, block, _, _, ran, rfl⟩ := shows.memory.mirrors.load loaded
  refine ⟨_, ?_, .next (t := { merged' with cursor := block.next }) ⟨rfl, shows.memory⟩⟩
  rw [compactBody, ranSwap, ok_bind, ranMerge, ok_bind, shows.cursor, ran, ok_bind]
  rfl

theorem State.Shows.compactMemory (shows : n.Shows s)
    (run : Allocator.compactMemory s = .ok after) :
    ∃ n', compactMemory n = .ok n' ∧ n'.Shows after := by
  obtain ⟨last, loop, returned⟩ := bind_eq_ok.mp run
  cases returned
  obtain ⟨last', ranLoop, related⟩ := whileLoop_follows
    (fun c : Compacting => c.cursor.isSome)
    (fun {c d} (shows : c.Shows d) => by rw [shows.cursor])
    (fun shows _ run => shows.body run)
    (⟨shows.mem, shows.memory⟩ : Compacting.Shows ⟨n.mem, n.memory⟩ _) loop
  refine ⟨{ n with memory := last'.state.memory }, ?_, shows.memSize, shows.mem,
    related.state.memory⟩
  rw [Named.compactMemory, shows.memory.mirrors.fresh, ranLoop, ok_bind]
  rfl

/-! ### `clean_up` -/

theorem State.Shows.cleanUpBody (shows : n.Shows s) {step : LoopStep Allocator.State
    Allocator.State} (run : Allocator.cleanUpBody s = .ok step) :
    ∃ step', cleanUpBody n = .ok step' ∧ step'.Related State.Shows State.Shows step := by
  obtain ⟨shown, loaded, run⟩ := bind_eq_ok.mp run
  obtain ⟨heap, freed, returned⟩ := bind_eq_ok.mp run
  cases returned
  obtain ⟨address, block, isMem, cell, ran, rfl⟩ := shows.memory.mirrors.load loaded
  rw [isMem] at freed
  obtain ⟨blocks, ranFree, mirrors, same⟩ := shows.memory.mirrors.free freed
  suffices freedName : ∃ strings, n.memory.strings.free block.name = .ok strings ∧
      Memory.Shows ⟨blocks, strings⟩ heap by
    obtain ⟨strings, ranName, memory⟩ := freedName
    refine ⟨_, ?_, .next (t := ⟨n.memSize, block.next, blocks, strings⟩)
      ⟨shows.memSize, rfl, memory⟩⟩
    rw [Named.cleanUpBody, shows.mem, ran, ok_bind, ranName, ok_bind, ok_bind, isMem, ranFree,
      ok_bind]
    rfl
  cases named : block.name with
  | none =>
      have null : names n.memory.blocks address = none := by rw [names_some cell, named]
      refine ⟨n.memory.strings, rfl, shows.memory.keep ?_ mirrors ?_⟩
      · rw [Function.update_eq_self_iff, contents_none null]
      · rw [same, Function.update_eq_self_iff, null]
  | some target =>
      have points : names n.memory.blocks address = some target := by rw [names_some cell, named]
      obtain ⟨ranName, owns⟩ := shows.memory.owns.free points
      refine ⟨_, ranName, ?_, ?_, ?_⟩
      · rw [same, shows.memory.owns.contents_free points]
        exact mirrors
      · rw [same]
        exact owns
      · rw [same]
        exact shows.memory.noneLost.free points

theorem State.Shows.cleanUp (shows : n.Shows s) (run : Allocator.cleanUp s = .ok after) :
    ∃ n', cleanUp n = .ok n' ∧ n'.Shows after := by
  obtain ⟨last, loop, returned⟩ := bind_eq_ok.mp run
  cases returned
  obtain ⟨last', ranLoop, related⟩ := whileLoop_follows (fun n : State => n.mem.isSome)
    (fun {n s} (shows : n.Shows s) => by rw [shows.mem])
    (fun shows _ run => shows.cleanUpBody run) shows loop
  refine ⟨last'.state, ?_, related.state⟩
  rw [Named.cleanUp, shows.memory.mirrors.fresh, ranLoop, ok_bind]
  rfl

/-! ## Runs -/

/-- A command does to the blocks what it does with the texts in the blocks. -/
theorem State.Shows.perform (shows : n.Shows s) {operation : Operation}
    (run : Allocator.perform operation s = .ok (code, after)) :
    ∃ n', perform operation n = .ok (code, n') ∧ n'.Shows after := by
  cases operation with
  | request name size strategy => exact shows.requestMemory run
  | release name => exact shows.releaseMemory run
  | compact =>
      obtain ⟨compacted, compact, returned⟩ := bind_eq_ok.mp run
      cases returned
      obtain ⟨n', ran, shows⟩ := shows.compactMemory compact
      refine ⟨n', ?_, shows⟩
      rw [Named.perform, ran, ok_bind]
      rfl

theorem State.Shows.performAll (shows : n.Shows s) {operations : List Operation}
    (run : Allocator.performAll operations s = .ok after) :
    ∃ n', performAll operations n = .ok n' ∧ n'.Shows after := by
  induction operations generalizing n s with
  | nil =>
      cases run
      exact ⟨n, rfl, shows⟩
  | cons operation rest inductionHypothesis =>
      obtain ⟨⟨code, middle⟩, performed, run⟩ := bind_eq_ok.mp run
      obtain ⟨n', ran, shows⟩ := shows.perform performed
      obtain ⟨ended, ranRest, shows⟩ := inductionHypothesis shows run
      refine ⟨ended, ?_, shows⟩
      rw [Named.performAll, ran, ok_bind]
      exact ranRest

end Operations

theorem start_shows (memSize : UInt64) : (start memSize).Shows (Allocator.start memSize) := by
  have empty : Memory.Shows ⟨.empty, .empty⟩ .empty := by
    refine ⟨⟨rfl, fun _ => rfl⟩, ⟨fun _ _ points => ?_, fun _ _ _ points => ?_⟩, fun _ live => ?_⟩
    · cases points
    · cases points
    · exact absurd rfl live
  obtain ⟨mirrors, same⟩ := empty.mirrors.malloc rfl 0 (memSize - 1) none none
  exact ⟨rfl, rfl, empty.keep rfl mirrors same⟩

/-- Every string has one block while the program runs, and `clean_up` leaves no block and no string
on the heap. In between, the strings make no difference. -/
theorem run_owns_names (memSize : UInt64) (operations : List Operation) :
    ∃ n s, performAll operations (start memSize) = .ok n ∧
      Allocator.performAll operations (Allocator.start memSize) = .ok s ∧ n.Shows s ∧
      (∀ text, n.memory.strings.cell text ≠ none ↔
        ∃! owner, names n.memory.blocks owner = some text) ∧
      ∃ ended, cleanUp n = .ok ended ∧ ended.mem = none ∧
        (∀ address, ended.memory.blocks.cell address = none) ∧
        ∀ text, ended.memory.strings.cell text = none := by
  obtain ⟨s, nodes, run, _, consistent, covered⟩ :=
    (start_consistent memSize).performAll_covers (start_covered memSize) operations
  obtain ⟨n, ran, shows⟩ := (start_shows memSize).performAll run
  obtain ⟨ended, clean, empty, noBlocks⟩ := cleanUp_empties consistent covered
  obtain ⟨ended', ranClean, showsEnded⟩ := shows.cleanUp clean
  have noneLeft : ∀ address, ended'.memory.blocks.cell address = none := by
    intro address
    have same := showsEnded.memory.mirrors.cell address
    rwa [noBlocks, eq_comm, Option.map_eq_none_iff] at same
  refine ⟨n, s, ran, run, shows, fun text => ⟨fun live => ?_, fun owned => ?_⟩, ended', ranClean,
    showsEnded.mem.trans empty, noneLeft, fun text => ?_⟩
  · obtain ⟨owner, points⟩ := shows.memory.noneLost text live
    exact ⟨owner, points, fun other same => shows.memory.owns.unique other owner text same points⟩
  · obtain ⟨owner, points, _⟩ := owned
    exact shows.memory.owns.live owner text points
  · by_contra live
    obtain ⟨owner, points⟩ := showsEnded.memory.noneLost text live
    rw [names, noneLeft, Option.bind_none] at points
    cases points

end OsProjects.Allocator.Named
