import OsProjects.Allocator.Release

/-!
Owns `compact_memory`: in a represented state without neighbouring holes it
returns without a fault, leaves the list that sliding the holes gives, and never
frees the block `mem` points to.

The function merges a hole into its successor without a look at `mem`. The first
block of the list is in danger only as long as nothing has been passed but one
block; as the list came without neighbouring holes, that block and the next one
are not both unused.
-/

namespace OsProjects.Allocator

open OsProjects.C

variable {init pre post : List Node} {address previous : ℕ} {extent given : Extent}
variable {c : Compacting} {prev next : Pointer}

/-! ## The two tests -/

theorem previousUnused_none {heap : Heap MemBlock} :
    previousUnused (extent.block none next) heap = .ok false := rfl

theorem previousUnused_some {heap : Heap MemBlock}
    (cell : heap.cell previous = some (given.block prev (some address))) :
    previousUnused (extent.block (some previous) next) heap =
      .ok (decide (given.name = none)) := by
  unfold previousUnused
  rw [Extent.block_prev, if_pos (by simp), Heap.load_some cell]
  rfl

/-- The first block is neither swapped nor merged. -/
theorem compact_first (linked : Linked Extent.block c.heap ((address, extent) :: post))
    (atCursor : c.cursor = some address) : swapUnused c = .ok c ∧ mergeHoles c = .ok c := by
  have cell := linked.segment.1
  constructor
  · unfold swapUnused
    simp only [atCursor, Heap.load_some cell, ok_bind, previousUnused_none, pure_eq_ok, ite_self,
      Bool.false_eq_true, if_false]
  · unfold mergeHoles
    simp only [atCursor, Heap.load_some cell, ok_bind, previousUnused_none, pure_eq_ok, ite_self,
      Bool.false_eq_true, if_false]

section Neighbours

/-- An unused block is not swapped, and neither is one behind a used block. -/
theorem swapUnused_stays
    (linked : Linked Extent.block c.heap
      (init ++ (previous, given) :: (address, extent) :: post))
    (atCursor : c.cursor = some address) (stays : extent.name = none ∨ given.name ≠ none) :
    swapUnused c = .ok c := by
  unfold swapUnused
  simp only [atCursor, Heap.load_some linked.cell_next, ok_bind, Extent.block_name,
    previousUnused_some linked.cell]
  cases stays with
  | inl unused => simp [unused]
  | inr used =>
      by_cases unused : extent.name = none
      · simp [unused]
      · simp [unused, used]

/-- A used block is not merged, and neither is one behind a used block. -/
theorem mergeHoles_stays
    (linked : Linked Extent.block c.heap
      (init ++ (previous, given) :: (address, extent) :: post))
    (atCursor : c.cursor = some address) (stays : ¬(given.name = none ∧ extent.name = none)) :
    mergeHoles c = .ok c := by
  unfold mergeHoles
  simp only [atCursor, Heap.load_some linked.cell_next, ok_bind, Extent.block_name,
    previousUnused_some linked.cell]
  by_cases unused : extent.name = none
  · have used : given.name ≠ none := fun unusedToo => stays ⟨unusedToo, unused⟩
    simp [unused, used]
  · simp [unused]

/-- A used block and the hole before it change places. -/
theorem swapUnused_swaps
    (linked : Linked Extent.block c.heap
      (init ++ (previous, given) :: (address, extent) :: post))
    (atCursor : c.cursor = some address) (unusedBefore : given.name = none)
    (used : extent.name ≠ none) :
    ∃ swapped, swapUnused c = .ok { c with heap := swapped } ∧
      Linked Extent.block swapped (init ++
        (previous, ⟨given.lo, given.lo + (extent.hi - extent.lo), extent.name⟩) ::
        (address, ⟨given.lo + (extent.hi - extent.lo) + 1, extent.hi, none⟩) :: post) := by
  let hi := given.lo + (extent.hi - extent.lo)
  obtain ⟨first, firstStep, firstLinked⟩ := assign_node linked ⟨given.lo, hi, given.name⟩
    (fun previous => { previous with hi := previous.lo + (extent.hi - extent.lo) })
    (fun _ _ => rfl)
  obtain ⟨second, secondStep, secondLinked⟩ := assign_next firstLinked
    ⟨hi + 1, extent.hi, extent.name⟩ ({ · with lo := hi + 1 }) (fun _ _ => rfl)
  obtain ⟨third, thirdStep, thirdLinked⟩ := assign_node secondLinked
    ⟨given.lo, hi, extent.name⟩ ({ · with name := extent.name }) (fun _ _ => rfl)
  obtain ⟨fourth, fourthStep, fourthLinked⟩ := assign_next thirdLinked
    ⟨hi + 1, extent.hi, none⟩ ({ · with name := none }) (fun _ _ => rfl)
  refine ⟨fourth, ?_, fourthLinked⟩
  unfold swapUnused
  simp only [atCursor, Heap.load_some linked.cell_next, ok_bind, Extent.block_name,
    previousUnused_some linked.cell, if_pos used, unusedBefore, decide_true, if_true,
    Extent.block_prev, Extent.block_hi, Extent.block_lo]
  rw [firstStep, ok_bind, Heap.load_some firstLinked.cell, ok_bind, Extent.block_hi, secondStep,
    ok_bind, thirdStep, ok_bind, fourthStep]
  rfl

/-- Two holes become one, in the second block. -/
theorem mergeHoles_holes
    (linked : Linked Extent.block c.heap
      (init ++ (previous, given) :: (address, extent) :: post))
    (atCursor : c.cursor = some address) (unusedBefore : given.name = none)
    (unused : extent.name = none) :
    ∃ merged, mergeHoles c = .ok { c with heap := merged } ∧
      Linked Extent.block merged (init ++ (address, ⟨given.lo, extent.hi, none⟩) :: post) := by
  obtain ⟨widened, widenStep, widenedLinked⟩ := assign_next linked ⟨given.lo, extent.hi, none⟩
    ({ · with lo := given.lo }) (fun _ _ => by rw [← unused]; rfl)
  obtain ⟨first, relinked, firstStep, relinkStep, previousCell, cell, unlinked⟩ :=
    unlink_eq widenedLinked
  refine ⟨relinked.remove previous, ?_, unlinked _ relinked cell (fun _ _ => rfl)⟩
  unfold mergeHoles
  simp only [atCursor, Heap.load_some linked.cell_next, Heap.load_some linked.cell, ok_bind,
    Extent.block_name, previousUnused_some linked.cell, if_pos unused, unusedBefore, decide_true,
    if_true, Extent.block_prev, Extent.block_lo]
  rw [widenStep, ok_bind, firstStep, ok_bind, relinkStep, ok_bind, Heap.free_some previousCell]
  rfl

end Neighbours

/-! ## The loop -/

/-- The loop of `compact_memory` between two iterations: `init` is final, the
block at `pending` may still move or grow, `rest` is to come. While nothing is
final, the list still has no neighbouring holes. -/
structure Compacted (nodes rest : List Node) (mem : Pointer) (c : Compacting)
    (init : List Node) (pending : Option Node) : Prop where
  linked : Linked Extent.block c.heap (init ++ pending.toList ++ rest)
  cursor : c.cursor = firstAddress rest none
  mem : mem = firstAddress (init ++ pending.toList ++ rest) none
  front : pending = none → init = []
  early : init = [] → Separated (extentsOf (pending.toList ++ rest))
  result : extentsOf init ++ slide (pending.map Prod.snd) (extentsOf rest) =
    compactExtents (extentsOf nodes)

/-- An iteration once the block at the cursor has been swapped and merged. -/
theorem compactBody_eq {swapped merged : Compacting} (swap : swapUnused c = .ok swapped)
    (merge : mergeHoles swapped = .ok merged) (atCursor : merged.cursor = some address)
    (cell : merged.heap.cell address = some (extent.block prev next)) :
    compactBody c = .ok (.next { merged with cursor := next }) := by
  unfold compactBody
  rw [swap, ok_bind, merge, ok_bind, atCursor, Heap.load_some cell, ok_bind]
  rfl

namespace Compacted

variable {nodes rest : List Node} {mem : Pointer} {node last : Node}

/-- The first iteration changes nothing. -/
theorem first (compacted : Compacted nodes (node :: rest) mem c [] none) :
    ∃ after, compactBody c = .ok (.next after) ∧
      Compacted nodes rest mem after [] (some node) := by
  have linked : Linked Extent.block c.heap (node :: rest) := compacted.linked
  rcases compact_first linked compacted.cursor with ⟨swap, merge⟩
  refine ⟨_, compactBody_eq swap merge compacted.cursor linked.segment.1, ?_⟩
  exact ⟨linked, rfl, compacted.mem, by simp, compacted.early, compacted.result⟩

/-- Behind a used block nothing changes. -/
theorem behindUsed (compacted : Compacted nodes (node :: rest) mem c init (some last))
    (used : last.2.name ≠ none) :
    ∃ after, compactBody c = .ok (.next after) ∧
      Compacted nodes rest mem after (init ++ [last]) (some node) := by
  have linked := compacted.linked
  rw [Option.toList_some, List.append_assoc, List.singleton_append] at linked
  have swap := swapUnused_stays linked compacted.cursor (Or.inr used)
  have merge := mergeHoles_stays linked compacted.cursor (fun holes => used holes.1)
  refine ⟨_, compactBody_eq swap merge compacted.cursor linked.cell_next, ?_⟩
  refine ⟨by simpa using linked, rfl, ?_, by simp, by simp, ?_⟩
  · simp [compacted.mem]
  · rw [← compacted.result]
    simp only [Option.map_some, List.map_cons, List.map_append, List.map_nil]
    rw [slide, if_neg used, List.append_assoc]
    rfl

/-- A used block slides into the hole before it. -/
theorem slides (compacted : Compacted nodes (node :: rest) mem c init (some last))
    (unusedBefore : last.2.name = none) (used : node.2.name ≠ none) :
    ∃ after, compactBody c = .ok (.next after) ∧
      ∃ init pending, Compacted nodes rest mem after init pending := by
  have linked := compacted.linked
  rw [Option.toList_some, List.append_assoc, List.singleton_append] at linked
  obtain ⟨swapped, swap, swappedLinked⟩ :=
    swapUnused_swaps linked compacted.cursor unusedBefore used
  have merge := mergeHoles_stays (c := { c with heap := swapped }) swappedLinked
    compacted.cursor (fun holes => used holes.1)
  refine ⟨_, compactBody_eq swap merge compacted.cursor swappedLinked.cell_next,
    init ++ [(last.1, ⟨last.2.lo, last.2.lo + (node.2.hi - node.2.lo), node.2.name⟩)],
    some (node.1, ⟨last.2.lo + (node.2.hi - node.2.lo) + 1, node.2.hi, none⟩), ?_⟩
  refine ⟨by simpa using swappedLinked, rfl, ?_, by simp, by simp, ?_⟩
  · simp only [compacted.mem]
    simp
    rfl
  · rw [← compacted.result]
    simp only [Option.map_some, List.map_cons, List.map_append, List.map_nil]
    rw [slide, if_pos unusedBefore, if_neg used, List.append_assoc]
    rfl

/-- A hole grows over the hole behind it. The list does not start with the first
of the two, so `mem` still points to the first block. -/
theorem grows (compacted : Compacted nodes (node :: rest) mem c init (some last))
    (unusedBefore : last.2.name = none) (unused : node.2.name = none) :
    ∃ after, compactBody c = .ok (.next after) ∧ Compacted nodes rest mem after init
      (some (node.1, ⟨last.2.lo, node.2.hi, none⟩)) := by
  have linked := compacted.linked
  rw [Option.toList_some, List.append_assoc, List.singleton_append] at linked
  have notFirst : init ≠ [] := by
    intro isFirst
    have separated := compacted.early isFirst
    simp only [Option.toList_some, List.singleton_append, List.map_cons] at separated
    exact (List.isChain_cons_cons.mp separated).1 ⟨unusedBefore, unused⟩
  have swap := swapUnused_stays linked compacted.cursor (Or.inl unused)
  obtain ⟨merged, merge, mergedLinked⟩ :=
    mergeHoles_holes linked compacted.cursor unusedBefore unused
  refine ⟨_, compactBody_eq swap merge compacted.cursor mergedLinked.cell, ?_⟩
  refine ⟨by simpa using mergedLinked, rfl, ?_, by simp, fun empty => absurd empty notFirst, ?_⟩
  · rw [compacted.mem]
    cases init with
    | nil => exact absurd rfl notFirst
    | cons front others => rfl
  · rw [← compacted.result]
    simp only [Option.map_some, List.map_cons]
    rw [slide, if_pos unusedBefore, if_pos unused]

/-- Every iteration moves one block on. -/
theorem step {pending : Option Node}
    (compacted : Compacted nodes (node :: rest) mem c init pending) :
    ∃ after, compactBody c = .ok (.next after) ∧
      ∃ init pending, Compacted nodes rest mem after init pending := by
  cases pending with
  | none =>
      obtain rfl := compacted.front rfl
      obtain ⟨after, run, next⟩ := compacted.first
      exact ⟨after, run, _, _, next⟩
  | some last =>
      by_cases unusedBefore : last.2.name = none
      · by_cases unused : node.2.name = none
        · rcases compacted.grows unusedBefore unused with ⟨after, run, next⟩
          exact ⟨after, run, _, _, next⟩
        · exact compacted.slides unusedBefore unused
      · rcases compacted.behindUsed unusedBefore with ⟨after, run, next⟩
        exact ⟨after, run, _, _, next⟩

end Compacted

/-- `compact_memory` slides the holes to the end and keeps `mem` where it is. -/
theorem compactMemory_eq {s : State} {nodes : List Node} (represents : Represents s nodes)
    (separated : Separated (extentsOf nodes)) :
    ∃ after changed, compactMemory s = .ok after ∧ after.memSize = s.memSize ∧
      after.mem = s.mem ∧ Represents after changed ∧
      extentsOf changed = compactExtents (extentsOf nodes) := by
  let Inv : List Node → Compacting → Prop := fun rest c =>
    ∃ init pending, Compacted nodes rest s.mem c init pending
  have start : Inv nodes ⟨s.mem, s.heap⟩ :=
    ⟨[], none, represents.linked, represents.head, represents.head, fun _ => rfl,
      fun _ => separated, rfl⟩
  obtain ⟨last, run, init, pending, compacted⟩ := whileLoop_list_next
    (fun c : Compacting => c.cursor.isSome) compactBody Inv
    (fun inv => by
      obtain ⟨_, _, compacted⟩ := inv
      rw [compacted.cursor]
      rfl)
    (fun inv => by
      obtain ⟨_, _, compacted⟩ := inv
      rw [compacted.cursor]
      rfl)
    (fun inv => by
      obtain ⟨_, _, compacted⟩ := inv
      exact compacted.step)
    start represents.linked.length_le_fresh
  refine ⟨{ s with heap := last.heap }, init ++ pending.toList, ?_, rfl, rfl, ⟨?_, ?_⟩, ?_⟩
  · unfold compactMemory
    rw [run, ok_bind]
    rfl
  · simpa using compacted.linked
  · simpa using compacted.mem
  · rw [← compacted.result]
    cases pending with
    | none => simp [compacted.front rfl, slide]
    | some pending => simp [slide]

end OsProjects.Allocator
