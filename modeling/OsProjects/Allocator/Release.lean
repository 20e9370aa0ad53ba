import OsProjects.Allocator.Request

/-!
Owns `release_memory`: in a represented state it returns without a fault, and
leaves the list that clearing the name and coalescing the holes gives.

The loop carries the part of the list it has passed. The last block passed may
still grow; it is the pending extent of `coalesce`.

Does not own runs of several commands.
-/

namespace OsProjects.Allocator

open OsProjects.C

variable {name : String} {heap : Heap MemBlock} {init pre post : List Node}
variable {address previous : ℕ} {extent given : Extent}

theorem releaseFlag_append (extents : List Extent) :
    releaseFlag name (extents ++ [extent]) =
      if extent.name = some name then 0 else releaseFlag name extents := by
  unfold releaseFlag
  by_cases named : extent.name = some name
  · simp [named]
  · simp [named]

/-! ## Merging a block with the one before it -/

/-- Linking the block before two merged ones to the second, once the cell of the
second has been changed. -/
theorem linkNext_eq {changed : Heap MemBlock}
    (linked : Linked Extent.block heap (init ++ (previous, given) :: (address, extent) :: post))
    (same : ∀ other, other ≠ address → changed.cell other = heap.cell other) :
    ∃ relinked, linkNext changed (lastAddress none init) (some address) = .ok relinked ∧
      (∀ front last between, init = front ++ [(last, between)] →
        relinked.cell last = some (between.block (lastAddress none front) (some address))) ∧
      ∀ other, lastAddress none init ≠ some other → relinked.cell other = changed.cell other := by
  cases init using List.reverseRecOn with
  | nil =>
      refine ⟨changed, rfl, ?_, fun _ _ => rfl⟩
      intro front last between impossible
      simp at impossible
  | append_singleton front node =>
      obtain ⟨last, between⟩ := node
      rw [List.append_assoc, List.singleton_append] at linked
      have lastCell := linked.cell
      rw [← same last (linked.ne_of_mem_post (by simp))] at lastCell
      rw [lastAddress_append_singleton]
      refine ⟨_, Heap.assign_some lastCell _, ?_, ?_⟩
      · intro otherFront other otherBetween split
        rcases List.append_inj' split rfl with ⟨rfl, sameNode⟩
        cases sameNode
        exact Heap.write_self lastCell _
      · intro other notLast
        exact Heap.write_other (fun equal => notLast (congrArg some equal.symm)) _

/-- A block is linked to the one before its predecessor. Once its own extent has
been set, the predecessor can be given back. -/
theorem unlink_eq
    (linked : Linked Extent.block heap (init ++ (previous, given) :: (address, extent) :: post)) :
    ∃ first relinked,
      heap.assign (some address) ({ · with prev := lastAddress none init }) = .ok first ∧
      linkNext first (lastAddress none init) (some address) = .ok relinked ∧
      relinked.cell previous = some (given.block (lastAddress none init) (some address)) ∧
      relinked.cell address =
        some (extent.block (lastAddress none init) (firstAddress post none)) ∧
      ∀ (now : Extent) (changed : Heap MemBlock),
        changed.cell address =
          some (now.block (lastAddress none init) (firstAddress post none)) →
        (∀ other, other ≠ address → changed.cell other = relinked.cell other) →
        Linked Extent.block (changed.remove previous) (init ++ (address, now) :: post) := by
  have apart := linked.ne_next
  let first := heap.write address (extent.block (lastAddress none init) (firstAddress post none))
  obtain ⟨relinked, relinkStep, lastCell, kept⟩ := linkNext_eq linked (fun other different =>
    (Heap.write_other different _ : first.cell other = heap.cell other))
  refine ⟨first, relinked, Heap.assign_some linked.cell_next _, relinkStep, ?_, ?_, ?_⟩
  · rw [kept previous (fun isLast => (linked.last_ne isLast).1 rfl), Heap.write_other apart,
      linked.cell]
    rfl
  · rw [kept address (fun isLast => (linked.last_ne isLast).2 rfl)]
    exact Heap.write_self linked.cell_next _
  · intro now changed cell others
    apply linked.mergePrevious
    · rw [Heap.remove_other apart.symm, cell]
    · intro front last between shape
      have isLast : lastAddress none init = some last := by
        rw [shape, lastAddress_append_singleton]
      rw [Heap.remove_other (linked.last_ne isLast).1, others last (linked.last_ne isLast).2,
        lastCell front last between shape]
    · intro other notAddress notPrevious notLast
      rw [Heap.remove_other notPrevious, others other notAddress, kept other notLast,
        Heap.write_other notAddress]

section Merging

variable {r : Releasing}

/-- The first block has nothing before it. -/
theorem mergeUnused_first (linked : Linked Extent.block r.heap ((address, extent) :: post))
    (atCursor : r.cursor = some address) : mergeUnused r = .ok r := by
  have cell := linked.segment.1
  unfold mergeUnused
  rw [atCursor, Heap.load_some cell, ok_bind, if_neg (by simp)]
  rfl

/-- A used block, or one behind a used block, stays as it is. -/
theorem mergeUnused_apart
    (linked : Linked Extent.block r.heap
      (init ++ (previous, given) :: (address, extent) :: post))
    (atCursor : r.cursor = some address) (used : ¬(given.name = none ∧ extent.name = none)) :
    mergeUnused r = .ok r := by
  have previousCell := linked.cell
  have cell := linked.cell_next
  unfold mergeUnused
  rw [atCursor, Heap.load_some cell, ok_bind]
  by_cases unused : extent.name = none
  · have previousUsed : given.name ≠ none := fun unusedToo => used ⟨unusedToo, unused⟩
    rw [if_pos (by simp [Extent.block, unused])]
    simp only [Extent.block] at previousCell ⊢
    rw [Heap.load_some previousCell, ok_bind, if_neg previousUsed]
    rfl
  · rw [if_neg (by simp [Extent.block, unused])]
    rfl

/-- Two unused blocks become one. -/
theorem mergeUnused_holes
    (linked : Linked Extent.block r.heap
      (init ++ (previous, given) :: (address, extent) :: post))
    (atCursor : r.cursor = some address) (unusedBefore : given.name = none)
    (unused : extent.name = none) :
    ∃ merged, mergeUnused r = .ok { r with heap := merged } ∧
      Linked Extent.block merged (init ++ (address, ⟨given.lo, extent.hi, none⟩) :: post) := by
  obtain ⟨first, relinked, firstStep, relinkStep, previousCell, cell, unlinked⟩ :=
    unlink_eq linked
  let grown : Extent := ⟨given.lo, extent.hi, none⟩
  let prev := lastAddress none init
  let widened := relinked.write address (grown.block prev (firstAddress post none))
  have widenStep : relinked.assign (some address) ({ · with lo := given.lo }) = .ok widened := by
    rw [Heap.assign_some cell]
    simp only [Extent.block, unused, widened, grown, prev]
  have widenedPrevious : widened.cell previous = some (given.block prev (some address)) :=
    (Heap.write_other linked.ne_next _).trans previousCell
  have start : mergeUnused r = (do
      let heap ← r.heap.assign (some address) ({ · with prev })
      let heap ← linkNext heap prev (some address)
      let previous' ← heap.load (some previous)
      let heap ← heap.assign (some address) ({ · with lo := previous'.lo })
      let heap ← heap.free (some previous)
      pure { r with heap }) := by
    unfold mergeUnused
    simp only [atCursor, Heap.load_some linked.cell_next, Heap.load_some linked.cell, ok_bind,
      Extent.block_name, Extent.block_prev, unused, unusedBefore, ne_eq, reduceCtorEq,
      not_false_eq_true, and_self, if_true, prev]
  refine ⟨widened.remove previous, ?_, ?_⟩
  · rw [start, firstStep, ok_bind, relinkStep, ok_bind, Heap.load_some previousCell, ok_bind,
      Extent.block_lo, widenStep, ok_bind, Heap.free_some widenedPrevious, ok_bind]
    rfl
  · exact unlinked grown widened (Heap.write_self cell _)
      (fun other different => Heap.write_other different _)

end Merging

/-! ## The loop -/

/-- The block at the cursor loses the name if it carries it. -/
theorem markUnused_eq {r : Releasing}
    (linked : Linked Extent.block r.heap (pre ++ (address, extent) :: post))
    (atCursor : r.cursor = some address) :
    ∃ marked, markUnused name r = .ok { r with
        heap := marked
        flag := if extent.name = some name then 0 else r.flag } ∧
      Linked Extent.block marked (pre ++ (address, extent.clear name) :: post) := by
  unfold markUnused Extent.clear
  rw [atCursor, Heap.load_some linked.cell, ok_bind, Extent.block_name]
  by_cases named : extent.name = some name
  · rw [if_pos named, if_pos named, if_pos named]
    obtain ⟨marked, mark, markedLinked⟩ := assign_node linked { extent with name := none }
      ({ · with name := none }) (fun _ _ => rfl)
    rw [mark]
    exact ⟨marked, rfl, markedLinked⟩
  · rw [if_neg named, if_neg named, if_neg named, ← atCursor]
    exact ⟨r.heap, rfl, linked⟩

/-- The loop of `release_memory` between two iterations: `init` is final, the
block at `pending` may still grow, `rest` is to come. -/
structure Released (name : String) (nodes rest : List Node) (r : Releasing) (init : List Node)
    (pending : Option Node) : Prop where
  linked : Linked Extent.block r.heap (init ++ pending.toList ++ rest)
  cursor : r.cursor = firstAddress rest none
  mem : r.mem = firstAddress (init ++ pending.toList ++ rest) none
  front : pending = none → init = []
  result : extentsOf init ++
      coalesce (pending.map Prod.snd) ((extentsOf rest).map (Extent.clear name)) =
    releaseExtents name (extentsOf nodes)
  flag : ∃ seen, extentsOf nodes = seen ++ extentsOf rest ∧ r.flag = releaseFlag name seen

/-- An iteration once the block at the cursor has been marked and merged. -/
theorem releaseBody_eq {r marked merged : Releasing} {prev next : Pointer}
    (mark : markUnused name r = .ok marked) (merge : mergeUnused marked = .ok merged)
    (atCursor : merged.cursor = some address)
    (cell : merged.heap.cell address = some (extent.block prev next)) :
    releaseBody name r = .ok (.next { merged with
      cursor := next
      mem := if prev = none then some address else merged.mem }) := by
  unfold releaseBody
  rw [mark, ok_bind, merge, ok_bind, atCursor, Heap.load_some cell, ok_bind]
  rfl

namespace Released

variable {nodes rest : List Node} {node last : Node} {r : Releasing}

/-- The block at the cursor is accounted for in the flag. -/
theorem flag_next {flag : Int}
    (seen : ∃ seen, extentsOf nodes = seen ++ extentsOf (node :: rest) ∧
      flag = releaseFlag name seen) :
    ∃ seen, extentsOf nodes = seen ++ extentsOf rest ∧
      (if node.2.name = some name then 0 else flag) = releaseFlag name seen := by
  obtain ⟨seen, split, rfl⟩ := seen
  refine ⟨seen ++ [node.2], ?_, (releaseFlag_append seen).symm⟩
  simp [split]

/-- The first iteration only marks the block. -/
theorem first (released : Released name nodes (node :: rest) r [] none) :
    ∃ after, releaseBody name r = .ok (.next after) ∧
      Released name nodes rest after [] (some (node.1, node.2.clear name)) := by
  have start : Linked Extent.block r.heap ([] ++ node :: rest) := released.linked
  rcases markUnused_eq start released.cursor with ⟨marked, mark, linked⟩
  have merge := mergeUnused_first (r := { r with
    heap := marked
    flag := if node.2.name = some name then 0 else r.flag }) linked released.cursor
  refine ⟨_, releaseBody_eq mark merge released.cursor linked.segment.1, ?_⟩
  exact ⟨linked, rfl, rfl, by simp, released.result, flag_next released.flag⟩

/-- Two unused blocks: the pending one is merged into the one at the cursor. -/
theorem holes (released : Released name nodes (node :: rest) r init (some last))
    (unusedBefore : last.2.name = none) (unused : (node.2.clear name).name = none) :
    ∃ after, releaseBody name r = .ok (.next after) ∧ Released name nodes rest after init
      (some (node.1, ⟨last.2.lo, (node.2.clear name).hi, none⟩)) := by
  rcases markUnused_eq released.linked released.cursor with ⟨marked, mark, linked⟩
  rw [Option.toList_some, List.append_assoc, List.singleton_append] at linked
  obtain ⟨merged, merge, mergedLinked⟩ := mergeUnused_holes (r := { r with
    heap := marked
    flag := if node.2.name = some name then 0 else r.flag }) linked released.cursor
    unusedBefore unused
  refine ⟨_, releaseBody_eq mark merge released.cursor mergedLinked.cell, ?_⟩
  refine ⟨?_, rfl, ?_, by simp, ?_, flag_next released.flag⟩
  · rw [Option.toList_some, List.append_assoc, List.singleton_append]
    exact mergedLinked
  · -- the merged block is the new first one exactly when nothing precedes it
    cases init with
    | nil => rfl
    | cons front others =>
        have behind : lastAddress none (front :: others) ≠ none := by
          rw [Ne, lastAddress_eq_none_iff]
          simp
        simp only [if_neg behind, released.mem]
        rfl
  · rw [← released.result]
    simp only [Option.map_some, List.map_cons]
    rw [coalesce, if_pos ⟨unusedBefore, unused⟩]

/-- One of the two blocks is used: the pending one is final. -/
theorem apart (released : Released name nodes (node :: rest) r init (some last))
    (used : ¬(last.2.name = none ∧ (node.2.clear name).name = none)) :
    ∃ after, releaseBody name r = .ok (.next after) ∧ Released name nodes rest after
      (init ++ [last]) (some (node.1, node.2.clear name)) := by
  rcases markUnused_eq released.linked released.cursor with ⟨marked, mark, linked⟩
  rw [Option.toList_some, List.append_assoc, List.singleton_append] at linked
  have merge := mergeUnused_apart (r := { r with
    heap := marked
    flag := if node.2.name = some name then 0 else r.flag }) linked released.cursor used
  refine ⟨_, releaseBody_eq mark merge released.cursor linked.cell_next, ?_⟩
  refine ⟨?_, rfl, ?_, by simp, ?_, flag_next released.flag⟩
  · simpa using linked
  · simp only [if_neg (show some last.1 ≠ none by simp), released.mem]
    simp
    rfl
  · rw [← released.result]
    simp only [Option.map_some, List.map_cons, List.map_append, List.map_nil]
    rw [coalesce, if_neg used, List.append_assoc]
    rfl

/-- Every iteration moves one block on. -/
theorem step {pending : Option Node}
    (released : Released name nodes (node :: rest) r init pending) :
    ∃ after, releaseBody name r = .ok (.next after) ∧
      ∃ init pending, Released name nodes rest after init pending := by
  cases pending with
  | none =>
      obtain rfl := released.front rfl
      obtain ⟨after, run, next⟩ := released.first
      exact ⟨after, run, _, _, next⟩
  | some last =>
      by_cases unused : last.2.name = none ∧ (node.2.clear name).name = none
      · rcases released.holes unused.1 unused.2 with ⟨after, run, next⟩
        exact ⟨after, run, _, _, next⟩
      · rcases released.apart unused with ⟨after, run, next⟩
        exact ⟨after, run, _, _, next⟩

end Released

/-- `release_memory` clears the name and coalesces the holes. -/
theorem releaseMemory_eq {s : State} {nodes : List Node} (name : String)
    (represents : Represents s nodes) :
    ∃ after changed,
      releaseMemory name s = .ok (releaseFlag name (extentsOf nodes), after) ∧
      after.memSize = s.memSize ∧ Represents after changed ∧
      extentsOf changed = releaseExtents name (extentsOf nodes) := by
  let Inv : List Node → Releasing → Prop := fun rest r =>
    ∃ init pending, Released name nodes rest r init pending
  have start : Inv nodes ⟨s.mem, 1, s.mem, s.heap⟩ :=
    ⟨[], none, represents.linked, represents.head, represents.head, fun _ => rfl, rfl, [], rfl,
      rfl⟩
  obtain ⟨last, run, init, pending, released⟩ := whileLoop_list_next
    (fun r : Releasing => r.cursor.isSome) (releaseBody name) Inv
    (fun inv => by
      obtain ⟨_, _, released⟩ := inv
      rw [released.cursor]
      rfl)
    (fun inv => by
      obtain ⟨_, _, released⟩ := inv
      rw [released.cursor]
      rfl)
    (fun inv => by
      obtain ⟨_, _, released⟩ := inv
      exact released.step)
    start represents.linked.length_le_fresh
  obtain ⟨seen, split, flag⟩ := released.flag
  have all : extentsOf nodes = seen := split.trans (List.append_nil seen)
  refine ⟨{ s with mem := last.mem, heap := last.heap }, init ++ pending.toList, ?_, rfl, ?_, ?_⟩
  · unfold releaseMemory
    rw [run, ok_bind]
    show Except.ok (last.flag, _) = _
    rw [flag, all]
    rfl
  · refine ⟨?_, ?_⟩
    · simpa using released.linked
    · simpa using released.mem
  · rw [← released.result]
    cases pending with
    | none => simp [released.front rfl, coalesce]
    | some pending => simp [coalesce]

end OsProjects.Allocator
