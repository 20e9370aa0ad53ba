import OsProjects.Allocator.CommandLoop
import OsProjects.Allocator.Region

/-!
Owns the heap cells of the blocks: in every state that a run reaches they are exactly the blocks on
the list, and `clean_up` gives back all of them.

An iteration of `release_memory` or of `compact_memory` gives back at most the block before the
one at the cursor, and it does so exactly when it links the block at the cursor past it. So a block
leaves the list and the heap together. A request counts: it takes as many cells as the list grows.

Does not own what the list holds (`Run`), or the strings of the names (`NameOwnership`).
-/

namespace OsProjects.Allocator

open OsProjects.C

variable {heap middle after merged : Heap MemBlock} {pointer prev next : Pointer}
variable {nodes rest init pre post : List Node} {address : ℕ} {extent now : Extent}

/-- Every live block is on the list. -/
def Covered (heap : Heap MemBlock) (nodes : List Node) : Prop :=
  ∀ address, heap.cell address ≠ none → address ∈ nodes.map Prod.fst

/-! ## What an assignment leaves alone -/

/-- The same blocks are live, with the same blocks before them. -/
def SamePrev (heap after : Heap MemBlock) : Prop :=
  ∀ address, (after.cell address).map MemBlock.prev = (heap.cell address).map MemBlock.prev

/-- No cell becomes live. -/
def NoneNew (heap after : Heap MemBlock) : Prop :=
  ∀ address, heap.cell address = none → after.cell address = none

theorem SamePrev.refl (heap : Heap MemBlock) : SamePrev heap heap := fun _ => rfl

theorem SamePrev.trans (first : SamePrev heap middle) (second : SamePrev middle after) :
    SamePrev heap after :=
  fun address => (second address).trans (first address)

theorem SamePrev.noneNew (same : SamePrev heap after) : NoneNew heap after := by
  intro address dead
  have mapped := same address
  rw [dead, Option.map_none, Option.map_eq_none_iff] at mapped
  exact mapped

theorem NoneNew.trans (first : NoneNew heap middle) (second : NoneNew middle after) :
    NoneNew heap after :=
  fun address dead => second address (first address dead)

theorem NoneNew.covered (noneNew : NoneNew heap after) (covered : Covered heap nodes) :
    Covered after nodes :=
  fun address live => covered address fun dead => live (noneNew address dead)

/-- An assignment goes to a live cell. -/
theorem assign_eq_ok {change : MemBlock → MemBlock}
    (assigned : heap.assign pointer change = .ok after) :
    ∃ address block, pointer = some address ∧ heap.cell address = some block ∧
      after = heap.write address (change block) := by
  cases pointer with
  | none => cases assigned
  | some address =>
      rw [Heap.assign] at assigned
      split at assigned
      · cases assigned
      · rename_i block live
        cases assigned
        exact ⟨address, block, rfl, live, rfl⟩

theorem noneNew_of_assign {change : MemBlock → MemBlock}
    (assigned : heap.assign pointer change = .ok after) : NoneNew heap after := by
  obtain ⟨address, block, _, live, rfl⟩ := assign_eq_ok assigned
  intro other dead
  have different : other ≠ address := by
    rintro rfl
    rw [live] at dead
    cases dead
  rw [Heap.write_other different, dead]

theorem samePrev_of_assign {change : MemBlock → MemBlock}
    (assigned : heap.assign pointer change = .ok after)
    (keeps : ∀ block, (change block).prev = block.prev) : SamePrev heap after := by
  obtain ⟨address, block, _, live, rfl⟩ := assign_eq_ok assigned
  intro other
  by_cases same : other = address
  · rw [same, Heap.write_self live, live, Option.map_some, Option.map_some, keeps]
  · rw [Heap.write_other same]

theorem samePrev_of_linkNext {target : Pointer}
    (linked : linkNext heap pointer target = .ok after) : SamePrev heap after := by
  rw [linkNext] at linked
  split at linked
  · exact samePrev_of_assign linked fun _ => rfl
  · cases linked
    exact .refl heap

theorem noneNew_of_linkPrev {target : Pointer}
    (linked : linkPrev heap pointer target = .ok after) : NoneNew heap after := by
  rw [linkPrev] at linked
  split at linked
  · exact noneNew_of_assign linked
  · cases linked
    exact fun _ dead => dead

theorem load_eq_ok {block : MemBlock} (loaded : heap.load pointer = .ok block) :
    ∃ address, pointer = some address ∧ heap.cell address = some block := by
  cases pointer with
  | none => cases loaded
  | some address =>
      rw [Heap.load] at loaded
      split at loaded
      · cases loaded
      · cases loaded
        exact ⟨address, rfl, ‹_›⟩

/-! ## What an iteration gives back -/

/-- Nothing is given back, or the block before the one at the cursor. -/
def FreesPrevious (cursor : Pointer) (heap merged : Heap MemBlock) : Prop :=
  merged = heap ∨ ∃ block previous, heap.load cursor = .ok block ∧ block.prev = some previous ∧
    NoneNew heap merged ∧ merged.cell previous = none

theorem freesPrevious_of_free {cursor : Pointer} {block : MemBlock}
    (loaded : heap.load cursor = .ok block) (behind : block.prev ≠ none)
    (noneNew : NoneNew heap middle) (freed : middle.free block.prev = .ok merged) :
    FreesPrevious cursor heap merged := by
  obtain ⟨previous, isPrevious⟩ := Option.ne_none_iff_exists'.mp behind
  rw [isPrevious, Heap.free] at freed
  split at freed
  · cases freed
  · cases freed
    refine Or.inr ⟨block, previous, loaded, isPrevious, fun other dead => ?_, ?_⟩
    · rw [Heap.remove_cell]
      split
      · rfl
      · exact noneNew other dead
    · rw [Heap.remove_cell, if_pos rfl]

theorem markUnused_samePrev {name : String} {r marked : Releasing}
    (mark : markUnused name r = .ok marked) :
    SamePrev r.heap marked.heap ∧ marked.cursor = r.cursor := by
  obtain ⟨block, _, mark⟩ := bind_eq_ok.mp mark
  split at mark
  · obtain ⟨heap, assigned, returned⟩ := bind_eq_ok.mp mark
    cases returned
    exact ⟨samePrev_of_assign assigned fun _ => rfl, rfl⟩
  · cases mark
    exact ⟨.refl _, rfl⟩

theorem mergeUnused_frees {r last : Releasing} (merge : mergeUnused r = .ok last) :
    FreesPrevious r.cursor r.heap last.heap ∧ last.cursor = r.cursor := by
  obtain ⟨block, loaded, merge⟩ := bind_eq_ok.mp merge
  split at merge
  · rename_i unused
    obtain ⟨previous, _, merge⟩ := bind_eq_ok.mp merge
    split at merge
    · obtain ⟨first, assigned, merge⟩ := bind_eq_ok.mp merge
      obtain ⟨second, linked, merge⟩ := bind_eq_ok.mp merge
      obtain ⟨_, _, merge⟩ := bind_eq_ok.mp merge
      obtain ⟨third, widened, merge⟩ := bind_eq_ok.mp merge
      obtain ⟨final, freed, returned⟩ := bind_eq_ok.mp merge
      cases returned
      have noneNew := ((noneNew_of_assign assigned).trans
        (samePrev_of_linkNext linked).noneNew).trans (noneNew_of_assign widened)
      exact ⟨freesPrevious_of_free loaded unused.2 noneNew freed, rfl⟩
    · cases merge
      exact ⟨Or.inl rfl, rfl⟩
  · cases merge
    exact ⟨Or.inl rfl, rfl⟩

theorem previousUnused_behind {block : MemBlock} (unused : previousUnused block heap = .ok true) :
    block.prev ≠ none := by
  intro first
  rw [previousUnused, if_neg (not_not.mpr first)] at unused
  cases unused

theorem swapUnused_samePrev {c swapped : Compacting} (swap : swapUnused c = .ok swapped) :
    SamePrev c.heap swapped.heap ∧ swapped.cursor = c.cursor := by
  obtain ⟨block, _, swap⟩ := bind_eq_ok.mp swap
  split at swap
  · obtain ⟨swaps, _, swap⟩ := bind_eq_ok.mp swap
    dsimp only at swap
    split at swap
    · obtain ⟨first, shortened, swap⟩ := bind_eq_ok.mp swap
      obtain ⟨_, _, swap⟩ := bind_eq_ok.mp swap
      obtain ⟨second, moved, swap⟩ := bind_eq_ok.mp swap
      obtain ⟨third, named, swap⟩ := bind_eq_ok.mp swap
      obtain ⟨fourth, unnamed, returned⟩ := bind_eq_ok.mp swap
      cases returned
      have same := ((samePrev_of_assign shortened fun _ => rfl).trans
        (samePrev_of_assign moved fun _ => rfl)).trans
        ((samePrev_of_assign named fun _ => rfl).trans
          (samePrev_of_assign unnamed fun _ => rfl))
      exact ⟨same, rfl⟩
    · cases swap
      exact ⟨.refl _, rfl⟩
  · cases swap
    exact ⟨.refl _, rfl⟩

theorem mergeHoles_frees {c last : Compacting} (merge : mergeHoles c = .ok last) :
    FreesPrevious c.cursor c.heap last.heap ∧ last.cursor = c.cursor := by
  obtain ⟨block, loaded, merge⟩ := bind_eq_ok.mp merge
  split at merge
  · obtain ⟨merges, tested, merge⟩ := bind_eq_ok.mp merge
    dsimp only at merge
    split at merge
    · rename_i isTrue
      have behind := previousUnused_behind (isTrue ▸ tested)
      obtain ⟨_, _, merge⟩ := bind_eq_ok.mp merge
      obtain ⟨first, widened, merge⟩ := bind_eq_ok.mp merge
      obtain ⟨second, assigned, merge⟩ := bind_eq_ok.mp merge
      obtain ⟨third, linked, merge⟩ := bind_eq_ok.mp merge
      obtain ⟨final, freed, returned⟩ := bind_eq_ok.mp merge
      cases returned
      have noneNew := ((noneNew_of_assign widened).trans (noneNew_of_assign assigned)).trans
        (samePrev_of_linkNext linked).noneNew
      exact ⟨freesPrevious_of_free loaded behind noneNew freed, rfl⟩
    · cases merge
      exact ⟨Or.inl rfl, rfl⟩
  · cases merge
    exact ⟨Or.inl rfl, rfl⟩

/-- A block that the block at the cursor is linked past is given back, so the shorter list still
has all blocks. -/
theorem Covered.passes {last : Node}
    (covered : Covered heap (init ++ last :: (address, extent) :: post))
    (linked : Linked Extent.block heap (init ++ last :: (address, extent) :: post))
    (same : SamePrev heap middle) (frees : FreesPrevious (some address) middle merged)
    (shorter : Linked Extent.block merged (init ++ (address, now) :: post)) :
    Covered merged (init ++ (address, now) :: post) := by
  have noneNew : NoneNew heap merged := by
    rcases frees with rfl | ⟨_, _, _, _, noneNew, _⟩
    · exact same.noneNew
    · exact same.noneNew.trans noneNew
  have dead : merged.cell last.1 = none := by
    have linkedBefore := same address
    rw [linked.cell_next, Option.map_some, Extent.block_prev] at linkedBefore
    rcases frees with rfl | ⟨block, previous, loaded, isPrevious, _, dead⟩
    · -- the block at the cursor would still be linked to the one that has left the list
      rw [shorter.cell, Option.map_some, Extent.block_prev, Option.some.injEq] at linkedBefore
      exact absurd rfl (linked.last_ne linkedBefore).1
    · obtain ⟨_, cursor, cell⟩ := load_eq_ok loaded
      cases cursor
      rw [cell, Option.map_some, isPrevious, Option.some.injEq, Option.some.injEq] at linkedBefore
      rwa [linkedBefore] at dead
  intro other live
  have before := noneNew.covered covered other live
  have notLast : other ≠ last.1 := by
    rintro rfl
    exact live dead
  simpa [notLast] using before

/-! ## The loops -/

/-- Two lists in one heap that start at the same block have the same blocks. -/
theorem addresses_unique {others : List Node} {before before' : Pointer}
    (first : Segment Extent.block heap before nodes none)
    (second : Segment Extent.block heap before' others none)
    (same : firstAddress nodes none = firstAddress others none) :
    nodes.map Prod.fst = others.map Prod.fst := by
  induction nodes generalizing others before before' with
  | nil =>
      cases others with
      | nil => rfl
      | cons node rest => cases same
  | cons node rest inductionHypothesis =>
      cases others with
      | nil => cases same
      | cons other more =>
          obtain ⟨address, extent⟩ := node
          obtain ⟨address', extent'⟩ := other
          cases same
          obtain ⟨cell, later⟩ := first
          obtain ⟨cell', later'⟩ := second
          rw [cell, Option.some.injEq] at cell'
          have next := congrArg MemBlock.next cell'
          rw [List.map_cons, List.map_cons, inductionHypothesis later later' next]

theorem releaseBody_parts {name : String} {r after : Releasing}
    (run : releaseBody name r = .ok (.next after)) :
    ∃ middle, SamePrev r.heap middle ∧ FreesPrevious r.cursor middle after.heap := by
  obtain ⟨marked, mark, run⟩ := bind_eq_ok.mp run
  obtain ⟨merged, merge, run⟩ := bind_eq_ok.mp run
  obtain ⟨block, _, returned⟩ := bind_eq_ok.mp run
  cases returned
  obtain ⟨same, sameCursor⟩ := markUnused_samePrev mark
  refine ⟨marked.heap, same, ?_⟩
  rw [← sameCursor]
  exact (mergeUnused_frees merge).1

theorem compactBody_parts {c after : Compacting} (run : compactBody c = .ok (.next after)) :
    ∃ middle, SamePrev c.heap middle ∧ FreesPrevious c.cursor middle after.heap := by
  obtain ⟨swapped, swap, run⟩ := bind_eq_ok.mp run
  obtain ⟨merged, merge, run⟩ := bind_eq_ok.mp run
  obtain ⟨block, _, returned⟩ := bind_eq_ok.mp run
  cases returned
  obtain ⟨same, sameCursor⟩ := swapUnused_samePrev swap
  refine ⟨swapped.heap, same, ?_⟩
  rw [← sameCursor]
  exact (mergeHoles_frees merge).1

theorem FreesPrevious.noneNew {cursor : Pointer} (same : SamePrev heap middle)
    (frees : FreesPrevious cursor middle merged) : NoneNew heap merged := by
  rcases frees with rfl | ⟨_, _, _, _, noneNew, _⟩
  · exact same.noneNew
  · exact same.noneNew.trans noneNew

/-- An iteration of `release_memory` keeps the blocks on the list. -/
theorem Released.step_covers {name : String} {node : Node} {r : Releasing} {pending : Option Node}
    (released : Released name nodes (node :: rest) r init pending)
    (covered : Covered r.heap (init ++ pending.toList ++ node :: rest)) :
    ∃ after, releaseBody name r = .ok (.next after) ∧ ∃ init pending,
      Released name nodes rest after init pending ∧
        Covered after.heap (init ++ pending.toList ++ rest) := by
  cases pending with
  | none =>
      obtain rfl := released.front rfl
      obtain ⟨after, run, next⟩ := released.first
      refine ⟨after, run, _, _, next, ?_⟩
      obtain ⟨middle, same, frees⟩ := releaseBody_parts run
      exact (frees.noneNew same).covered covered
  | some last =>
      have linked := released.linked
      rw [Option.toList_some, List.append_assoc, List.singleton_append] at linked covered
      by_cases unused : last.2.name = none ∧ (node.2.clear name).name = none
      · obtain ⟨after, run, next⟩ := released.holes unused.1 unused.2
        refine ⟨after, run, _, _, next, ?_⟩
        obtain ⟨middle, same, frees⟩ := releaseBody_parts run
        rw [released.cursor, firstAddress_cons] at frees
        have shorter := next.linked
        rw [Option.toList_some, List.append_assoc, List.singleton_append] at shorter ⊢
        exact covered.passes linked same frees shorter
      · obtain ⟨after, run, next⟩ := released.apart unused
        refine ⟨after, run, _, _, next, ?_⟩
        obtain ⟨middle, same, frees⟩ := releaseBody_parts run
        have kept := (frees.noneNew same).covered covered
        intro other live
        simpa using kept other live

/-- Where a block slides, the list keeps its blocks. -/
theorem Compacted.slides_covers {mem : Pointer} {c : Compacting} {node last : Node}
    (compacted : Compacted nodes (node :: rest) mem c init (some last))
    (unusedBefore : last.2.name = none) (used : node.2.name ≠ none)
    (covered : Covered c.heap (init ++ last :: node :: rest)) :
    ∃ after, compactBody c = .ok (.next after) ∧ ∃ init pending,
      Compacted nodes rest mem after init pending ∧
        Covered after.heap (init ++ pending.toList ++ rest) := by
  have linked := compacted.linked
  rw [Option.toList_some, List.append_assoc, List.singleton_append] at linked
  obtain ⟨after, run, others, pending, next⟩ := compacted.slides unusedBefore used
  refine ⟨after, run, others, pending, next, ?_⟩
  obtain ⟨middle, same, frees⟩ := compactBody_parts run
  have kept := (frees.noneNew same).covered covered
  obtain ⟨swapped, swap, swappedLinked⟩ :=
    swapUnused_swaps linked compacted.cursor unusedBefore used
  have merge := mergeHoles_stays (c := { c with heap := swapped }) swappedLinked
    compacted.cursor (fun holes => used holes.1)
  rw [compactBody_eq swap merge compacted.cursor swappedLinked.cell_next] at run
  cases run
  have sameFirst := compacted.mem.symm.trans next.mem
  rw [Option.toList_some, List.append_assoc, List.singleton_append, firstAddress_append,
    firstAddress_cons] at sameFirst
  have sameAddresses := addresses_unique swappedLinked.segment next.linked.segment
    (by rw [firstAddress_append, firstAddress_cons, sameFirst])
  intro other live
  rw [← sameAddresses]
  simpa using kept other live

/-- An iteration of `compact_memory` keeps the blocks on the list. -/
theorem Compacted.step_covers {mem : Pointer} {c : Compacting} {node : Node}
    {pending : Option Node} (compacted : Compacted nodes (node :: rest) mem c init pending)
    (covered : Covered c.heap (init ++ pending.toList ++ node :: rest)) :
    ∃ after, compactBody c = .ok (.next after) ∧ ∃ init pending,
      Compacted nodes rest mem after init pending ∧
        Covered after.heap (init ++ pending.toList ++ rest) := by
  cases pending with
  | none =>
      obtain rfl := compacted.front rfl
      obtain ⟨after, run, next⟩ := compacted.first
      refine ⟨after, run, _, _, next, ?_⟩
      obtain ⟨middle, same, frees⟩ := compactBody_parts run
      exact (frees.noneNew same).covered covered
  | some last =>
      have linked := compacted.linked
      rw [Option.toList_some, List.append_assoc, List.singleton_append] at linked covered
      by_cases unusedBefore : last.2.name = none
      · by_cases unused : node.2.name = none
        · obtain ⟨after, run, next⟩ := compacted.grows unusedBefore unused
          refine ⟨after, run, _, _, next, ?_⟩
          obtain ⟨middle, same, frees⟩ := compactBody_parts run
          rw [compacted.cursor, firstAddress_cons] at frees
          have shorter := next.linked
          rw [Option.toList_some, List.append_assoc, List.singleton_append] at shorter ⊢
          exact covered.passes linked same frees shorter
        · exact compacted.slides_covers unusedBefore unused covered
      · obtain ⟨after, run, next⟩ := compacted.behindUsed unusedBefore
        refine ⟨after, run, _, _, next, ?_⟩
        obtain ⟨middle, same, frees⟩ := compactBody_parts run
        have kept := (frees.noneNew same).covered covered
        intro other live
        simpa using kept other live

/-! ## The operations -/

section Operations

variable {s after : State}

theorem Represents.unique {others : List Node} (first : Represents s nodes)
    (second : Represents s others) : nodes.map Prod.fst = others.map Prod.fst :=
  addresses_unique first.linked.segment second.linked.segment
    (first.head.symm.trans second.head)

theorem releaseMemory_covers {name : String} {code : Int} (represents : Represents s nodes)
    (covered : Covered s.heap nodes) (run : releaseMemory name s = .ok (code, after))
    {changed : List Node} (representsAfter : Represents after changed) :
    Covered after.heap changed := by
  let Inv : List Node → Releasing → Prop := fun rest r => ∃ init pending,
    Released name nodes rest r init pending ∧ Covered r.heap (init ++ pending.toList ++ rest)
  have start : Inv nodes ⟨s.mem, 1, s.mem, s.heap⟩ :=
    ⟨[], none, ⟨represents.linked, represents.head, represents.head, fun _ => rfl, rfl, [], rfl,
      rfl⟩, covered⟩
  have atCursor : ∀ {rest : List Node} {r : Releasing}, Inv rest r →
      r.cursor = firstAddress rest none := by
    intro rest r inv
    obtain ⟨_, _, released, _⟩ := inv
    exact released.cursor
  obtain ⟨last, loop, init, pending, released, coveredLast⟩ := whileLoop_list_next
    (fun r : Releasing => r.cursor.isSome) (releaseBody name) Inv
    (fun inv => by rw [atCursor inv]; rfl) (fun inv => by rw [atCursor inv]; rfl)
    (fun inv => by
      obtain ⟨_, _, released, covered⟩ := inv
      exact released.step_covers covered)
    start represents.linked.length_le_fresh
  rw [releaseMemory, loop] at run
  cases run
  rw [List.append_nil] at coveredLast
  have representsLast : Represents { s with mem := last.mem, heap := last.heap }
      (init ++ pending.toList) :=
    ⟨by simpa using released.linked, by simpa using released.mem⟩
  intro other live
  rw [← representsLast.unique representsAfter]
  exact coveredLast other live

theorem compactMemory_covers (represents : Represents s nodes)
    (separated : Separated (extentsOf nodes)) (covered : Covered s.heap nodes)
    (run : compactMemory s = .ok after) {changed : List Node}
    (representsAfter : Represents after changed) : Covered after.heap changed := by
  let Inv : List Node → Compacting → Prop := fun rest c => ∃ init pending,
    Compacted nodes rest s.mem c init pending ∧ Covered c.heap (init ++ pending.toList ++ rest)
  have start : Inv nodes ⟨s.mem, s.heap⟩ :=
    ⟨[], none, ⟨represents.linked, represents.head, represents.head, fun _ => rfl,
      fun _ => separated, rfl⟩, covered⟩
  have atCursor : ∀ {rest : List Node} {c : Compacting}, Inv rest c →
      c.cursor = firstAddress rest none := by
    intro rest c inv
    obtain ⟨_, _, compacted, _⟩ := inv
    exact compacted.cursor
  obtain ⟨last, loop, init, pending, compacted, coveredLast⟩ := whileLoop_list_next
    (fun c : Compacting => c.cursor.isSome) compactBody Inv
    (fun inv => by rw [atCursor inv]; rfl) (fun inv => by rw [atCursor inv]; rfl)
    (fun inv => by
      obtain ⟨_, _, compacted, covered⟩ := inv
      exact compacted.step_covers covered)
    start represents.linked.length_le_fresh
  rw [compactMemory, loop] at run
  cases run
  rw [List.append_nil] at coveredLast
  have representsLast : Represents { s with heap := last.heap } (init ++ pending.toList) :=
    ⟨by simpa using compacted.linked, by simpa using compacted.mem⟩
  intro other live
  rw [← representsLast.unique representsAfter]
  exact coveredLast other live

theorem makeBlock_live {lo hi : UInt64} {name : String} {made : Pointer}
    (run : makeBlock lo hi name prev next heap = .ok (made, merged)) :
    ∀ other, merged.cell other ≠ none → other = heap.fresh ∨ heap.cell other ≠ none := by
  rw [makeBlock] at run
  dsimp only [Heap.malloc] at run
  rw [if_neg (by simp)] at run
  obtain ⟨first, linkedNext, run⟩ := bind_eq_ok.mp run
  obtain ⟨second, linkedPrev, returned⟩ := bind_eq_ok.mp run
  cases returned
  have noneNew := (samePrev_of_linkNext linkedNext).noneNew.trans (noneNew_of_linkPrev linkedPrev)
  intro other live
  by_contra neither
  rw [not_or, not_not] at neither
  refine live (noneNew other ?_)
  show Function.update heap.cell heap.fresh _ other = none
  rw [Function.update_of_ne neither.1, neither.2]

/-- The hole that is occupied takes one more cell, unless it is occupied whole. -/
theorem occupyHole_live {name : String} {size : UInt64} {code : Int} {block : MemBlock}
    (cell : s.heap.cell address = some block)
    (run : occupyHole name size (some address) s = .ok (code, after)) :
    (∀ other, after.heap.cell other ≠ none → other = s.heap.fresh ∨ s.heap.cell other ≠ none) ∧
      (block.hi - block.lo + 1 = size → NoneNew s.heap after.heap) := by
  rw [occupyHole, Heap.assign_some cell, ok_bind, Heap.load_some (Heap.write_self cell _),
    ok_bind] at run
  have named : NoneNew s.heap (s.heap.write address { block with name := some name }) :=
    noneNew_of_assign (Heap.assign_some cell ({ · with name := some name }))
  split at run
  · cases run
    exact ⟨fun other live => Or.inr fun dead => live (named other dead), fun _ => named⟩
  · rename_i parts
    obtain ⟨⟨rest, made⟩, make, run⟩ := bind_eq_ok.mp run
    obtain ⟨linked, link, run⟩ := bind_eq_ok.mp run
    obtain ⟨final, shorten, returned⟩ := bind_eq_ok.mp run
    cases returned
    have kept := (noneNew_of_assign link).trans (noneNew_of_assign shorten)
    refine ⟨fun other live => ?_, fun whole => absurd whole parts⟩
    rcases makeBlock_live make other (fun dead => live (kept other dead)) with isFresh | before
    · exact Or.inl isFresh
    · exact Or.inr fun dead => before (named other dead)

/-- A list that is as long as there can be live cells has all of them. -/
theorem covered_of_count (represents : Represents after nodes) (candidates : List ℕ)
    (within : ∀ other, after.heap.cell other ≠ none → other ∈ candidates)
    (few : candidates.length ≤ nodes.length) : Covered after.heap nodes := by
  have subset : nodes.map Prod.fst ⊆ candidates := by
    intro other member
    obtain ⟨content, live⟩ := represents.linked.segment.live member
    exact within other (by simp [live])
  have perm := (List.subperm_of_subset represents.linked.distinct subset).perm_of_length_le
    (by simpa using few)
  intro other live
  exact perm.mem_iff.mpr (within other live)

theorem requestMemory_covers {name : String} {size : UInt64} {strategy : Char} {code : Int}
    (represents : Represents s nodes) (covered : Covered s.heap nodes)
    (run : requestMemory name size strategy s = .ok (code, after)) {changed : List Node}
    (representsAfter : Represents after changed) : Covered after.heap changed := by
  rcases requestMemory_cases name size strategy represents with
    ⟨_, _, refused, _⟩ | ⟨pre, address, hole, post, others, between, rfl, chosen, unused, _,
      granted, _, represented, extents⟩
  · rw [refused] at run
    cases run
    intro other live
    rw [← represents.unique representsAfter]
    exact covered other live
  · have cell := represents.linked.cell
    have occupied : occupyHole name size (some address) s = .ok (0, others) := by
      rw [requestMemory, selectHole_eq strategy represents, chosen] at granted
      simp only [ok_bind, Heap.load_some cell, Extent.block_name, unused, ne_eq, not_true,
        if_false] at granted
      exact granted
    rw [granted] at run
    cases run
    obtain ⟨oneMore, whole⟩ := occupyHole_live cell occupied
    have lengths : changed.length = pre.length + (occupy name size hole).length + post.length := by
      have same := congrArg List.length (represented.unique representsAfter)
      have total := congrArg List.length extents
      simp only [List.length_map, List.length_append] at same total
      omega
    by_cases wholeHole : hole.size = size
    · apply covered_of_count representsAfter ((pre ++ (address, hole) :: post).map Prod.fst)
      · intro other live
        exact covered other fun dead => live (whole wholeHole other dead)
      · simp [lengths, occupy, wholeHole]
        omega
    · apply covered_of_count representsAfter
        (s.heap.fresh :: (pre ++ (address, hole) :: post).map Prod.fst)
      · intro other live
        rcases oneMore other live with rfl | before
        · exact List.mem_cons_self
        · exact List.mem_cons_of_mem _ (covered other before)
      · simp [lengths, occupy, wholeHole]
        omega

theorem perform_covers {operation : Operation} {code : Int} (represents : Represents s nodes)
    (separated : Separated (extentsOf nodes)) (covered : Covered s.heap nodes)
    (run : perform operation s = .ok (code, after)) {changed : List Node}
    (representsAfter : Represents after changed) : Covered after.heap changed := by
  cases operation with
  | request name size strategy => exact requestMemory_covers represents covered run representsAfter
  | release name => exact releaseMemory_covers represents covered run representsAfter
  | compact =>
      obtain ⟨compacted, compact, returned⟩ := bind_eq_ok.mp run
      cases returned
      exact compactMemory_covers represents separated covered compact representsAfter

/-- A run leaves a consistent list with all live blocks. -/
theorem Consistent.performAll_covers (consistent : Consistent s nodes)
    (covered : Covered s.heap nodes) (operations : List Operation) :
    ∃ after changed, Allocator.performAll operations s = .ok after ∧
      after.memSize = s.memSize ∧ Consistent after changed ∧ Covered after.heap changed := by
  refine performAll_keeps (fun operation kept => ?_) ⟨consistent, covered⟩ operations
  obtain ⟨code, after, changed, run, sameSize, consistentAfter, _⟩ := kept.1.perform operation
  exact ⟨code, after, changed, run, sameSize, consistentAfter,
    perform_covers kept.1.represents kept.1.separated kept.2 run consistentAfter.represents⟩

theorem start_covered (memSize : UInt64) :
    Covered (start memSize).heap [(0, ⟨0, memSize - 1, none⟩)] := by
  intro other live
  have isFirst : other = 0 := by
    by_contra different
    refine live ?_
    show Function.update (fun _ => none) 0 _ other = none
    rw [Function.update_of_ne different]
  simp [isFirst]

/-- `clean_up` gives back every block. -/
theorem cleanUp_empties (consistent : Consistent s nodes) (covered : Covered s.heap nodes) :
    ∃ ended, cleanUp s = .ok ended ∧ ended.mem = none ∧
      ∀ address, ended.heap.cell address = none := by
  have linked := consistent.represents.linked
  let Inv : List Node → State → Prop := fun nodes s => LeftToFree nodes s ∧ Covered s.heap nodes
  have start : Inv nodes s :=
    ⟨⟨consistent.represents.head, linked.distinct, none, linked.segment⟩, covered⟩
  have steps : ∀ {node : Node} {rest : List Node} {s : State}, Inv (node :: rest) s →
      ∃ after, cleanUpBody s = .ok (.next after) ∧ Inv rest after := by
    intro node rest s inv
    obtain ⟨left, covered⟩ := inv
    obtain ⟨after, run, leftAfter⟩ := cleanUpBody_step left
    refine ⟨after, run, leftAfter, ?_⟩
    obtain ⟨block, _, run⟩ := bind_eq_ok.mp run
    obtain ⟨heap, freed, returned⟩ := bind_eq_ok.mp run
    cases returned
    obtain ⟨address, extent⟩ := node
    obtain ⟨head, _, before, cell, _⟩ := left
    rw [head, firstAddress_cons, Heap.free_some cell] at freed
    cases freed
    intro other live
    rw [Heap.remove_cell] at live
    split at live
    · exact absurd rfl live
    · rename_i different
      simpa [different] using covered other live
  have atMem : ∀ {rest : List Node} {s : State}, Inv rest s → s.mem = firstAddress rest none := by
    intro rest s inv
    exact inv.1.1
  obtain ⟨ended, run, left, onlyListed⟩ := whileLoop_list_next (ρ := State) (·.mem.isSome)
    cleanUpBody Inv (fun inv => by rw [atMem inv]; rfl) (fun inv => by rw [atMem inv]; rfl) steps
    start linked.length_le_fresh
  refine ⟨ended, ?_, left.1, fun address => ?_⟩
  · rw [cleanUp, run]
    rfl
  · by_contra live
    exact absurd (onlyListed address live) List.not_mem_nil

end Operations

/-- Of blocks without neighbouring holes, at most one more than half are holes. -/
theorem separated_length {extents : List Extent} (separated : Separated extents) :
    extents.length ≤ 2 * (usedExtents extents).length +
      if extents.head?.any (·.name.isNone) then 1 else 0 := by
  induction extents with
  | nil => exact Nat.zero_le _
  | cons first rest inductionHypothesis =>
      have later := inductionHypothesis (List.IsChain.tail separated)
      rw [usedExtents, List.filter_cons, ← usedExtents]
      cases name : first.name with
      | some owner =>
          simp only [Option.isSome_some, if_true, List.length_cons]
          split at later <;> omega
      | none =>
          -- the block after a hole is used, so the rest needs no extra block
          have used : rest.head?.any (·.name.isNone) = false := by
            cases rest with
            | nil => rfl
            | cons second more =>
                have apart := (List.isChain_cons_cons.mp separated).1
                cases owner : second.name with
                | none => exact absurd ⟨name, owner⟩ apart
                | some owner => simp [owner]
          rw [used, if_neg Bool.false_ne_true] at later
          simp only [Option.isSome_none, Bool.false_eq_true, if_false, List.length_cons,
            List.head?_cons, Option.any_some, name, Option.isNone_none, if_true]
          omega

/-- No run loses a block: the cells that are allocated are those of the list, the list has at most
one block more than twice the processes' blocks, and `clean_up` leaves nothing allocated. -/
theorem run_loses_no_block (memSize : UInt64) (operations : List Operation) :
    ∃ s nodes, performAll operations (start memSize) = .ok s ∧ Represents s nodes ∧
      (∀ address, s.heap.cell address ≠ none ↔ address ∈ nodes.map Prod.fst) ∧
      nodes.length ≤ 2 * (usedExtents (extentsOf nodes)).length + 1 ∧
      ∃ ended, cleanUp s = .ok ended ∧ ended.mem = none ∧
        ∀ address, ended.heap.cell address = none := by
  obtain ⟨s, nodes, run, _, consistent, covered⟩ :=
    (start_consistent memSize).performAll_covers (start_covered memSize) operations
  refine ⟨s, nodes, run, consistent.represents, fun address => ⟨covered address, ?_⟩, ?_,
    cleanUp_empties consistent covered⟩
  · intro member
    obtain ⟨content, live⟩ := consistent.represents.linked.segment.live member
    simp [live]
  · have atMost := separated_length consistent.separated
    rw [List.length_map] at atMost
    split at atMost <;> omega

end OsProjects.Allocator
