import OsProjects.Allocator.Compact

/-!
Owns the runs of the allocator: whatever commands follow `init`, no command
faults, and the list of blocks keeps its shape.

Every command refines its step on the list of extents (`perform_refines`).
`Consistent` is the invariant of a state and the nodes of its list; a run is an
induction over its commands. The shape is then read off block by block, as the
pointers have it.
-/

namespace OsProjects.Allocator

open OsProjects.C

/-- The nodes are the list of the state; their extents tile the region and no two
neighbours are unused. -/
structure Consistent (s : State) (nodes : List Node) : Prop where
  represents : Represents s nodes
  nonempty : nodes ≠ []
  tiled : Tiled WrappingTile 0 s.memSize (extentsOf nodes)
  separated : Separated (extentsOf nodes)

/-- The state after `init` with the given size. -/
def start (memSize : UInt64) : State where
  memSize := memSize
  mem := some 0
  heap := (Heap.empty.malloc ⟨0, memSize - 1, none, none, none⟩).2

theorem init_eq (memSize : UInt64) :
    init 2 (some memSize) State.zero = .ok (0, start memSize) := rfl

variable {s : State} {nodes : List Node}

theorem start_consistent (memSize : UInt64) :
    Consistent (start memSize) [(0, ⟨0, memSize - 1, none⟩)] := by
  refine ⟨⟨⟨⟨rfl, trivial⟩, by simp⟩, rfl⟩, by simp, ⟨memSize, ⟨rfl, ?_⟩, rfl⟩,
    List.isChain_singleton _⟩
  show memSize - 1 + 1 = memSize
  grind

/-- A command returns without a fault and does to the list what it does to the
extents. -/
theorem perform_refines (operation : Operation) (represents : Represents s nodes)
    (separated : Separated (extentsOf nodes)) :
    ∃ code after changed, perform operation s = .ok (code, after) ∧
      after.memSize = s.memSize ∧ Represents after changed ∧
      ListStep operation code (extentsOf nodes) (extentsOf changed) := by
  cases operation with
  | request name size strategy =>
      cases requestMemory_cases name size strategy represents with
      | inl refused =>
          obtain ⟨code, failed, run, full⟩ := refused
          exact ⟨code, s, nodes, run, rfl, represents, .refuse failed full⟩
      | inr granted =>
          obtain ⟨pre, address, hole, post, after, changed, rfl, _, unused, chosen, run, sameSize,
            represents, extents⟩ := granted
          refine ⟨0, after, changed, run, sameSize, represents, ?_⟩
          rw [extents]
          simp only [extentsOf, List.map_append, List.map_cons]
          exact .grant unused chosen
  | release name =>
      obtain ⟨after, changed, run, sameSize, represents, extents⟩ :=
        releaseMemory_eq name represents
      refine ⟨_, after, changed, run, sameSize, represents, ?_⟩
      rw [extents]
      exact .release
  | compact =>
      obtain ⟨after, changed, run, sameSize, _, represents, extents⟩ :=
        compactMemory_eq represents separated
      refine ⟨0, after, changed, ?_, sameSize, represents, ?_⟩
      · simp only [perform, run, ok_bind, pure_eq_ok]
      · rw [extents]
        exact .compact

/-- A command leaves a consistent list. -/
theorem Consistent.perform (consistent : Consistent s nodes) (operation : Operation) :
    ∃ code after changed, perform operation s = .ok (code, after) ∧
      after.memSize = s.memSize ∧ Consistent after changed ∧
      ListStep operation code (extentsOf nodes) (extentsOf changed) := by
  obtain ⟨code, after, changed, run, sameSize, represents, step⟩ :=
    perform_refines operation consistent.represents consistent.separated
  refine ⟨code, after, changed, run, sameSize, ⟨represents, ?_, ?_, ?_⟩, step⟩
  · have nonempty := step.nonempty (by simpa using consistent.nonempty)
    simpa using nonempty
  · rw [sameSize]
    exact step.tiled wrappingTile_rules (fun _ _ _ _ reaches _ => wrappingTile_occupy _ _ reaches)
      consistent.tiled
  · exact step.separated consistent.separated

/-- What every command keeps, a run keeps. -/
theorem performAll_keeps {Kept : State → List Node → Prop}
    (step : ∀ {s nodes} operation, Kept s nodes →
      ∃ code after changed, perform operation s = .ok (code, after) ∧
        after.memSize = s.memSize ∧ Kept after changed)
    (kept : Kept s nodes) (operations : List Operation) :
    ∃ after changed, performAll operations s = .ok after ∧ after.memSize = s.memSize ∧
      Kept after changed := by
  induction operations generalizing s nodes with
  | nil => exact ⟨s, nodes, rfl, rfl, kept⟩
  | cons operation rest inductionHypothesis =>
      rcases step operation kept with ⟨code, middle, between, run, sameSize, kept⟩
      rcases inductionHypothesis kept with ⟨after, changed, more, sameSizeToo, kept⟩
      refine ⟨after, changed, ?_, sameSizeToo.trans sameSize, kept⟩
      simp only [performAll, run, ok_bind, more]

/-- A run returns without a fault. -/
theorem Consistent.performAll (consistent : Consistent s nodes) (operations : List Operation) :
    ∃ after changed, performAll operations s = .ok after ∧ after.memSize = s.memSize ∧
      Consistent after changed := by
  refine performAll_keeps (fun operation consistent => ?_) consistent operations
  obtain ⟨code, after, changed, run, sameSize, consistent, _⟩ := consistent.perform operation
  exact ⟨code, after, changed, run, sameSize, consistent⟩

/-! ## The shape of the list -/

/-- The blocks on the list, as the pointers have them: `path` lists the addresses
from `mem` along `next`. -/
structure PathFrom (s : State) (path : List ℕ) : Prop where
  nonempty : path ≠ []
  distinct : path.Nodup
  head : s.mem = path.head?
  /-- Every node is live and linked to its neighbours. -/
  live : ∀ i (below : i < path.length), ∃ block, s.heap.cell path[i] = some block ∧
    block.next = path[i + 1]? ∧ (i = 0 → block.prev = none) ∧
    (∀ j, i = j + 1 → block.prev = path[j]?)
  /-- The first block starts at 0. -/
  firstLo : ∀ address block, path.head? = some address → s.heap.cell address = some block →
    block.lo = 0
  /-- The last block ends at `mem_size - 1`. -/
  lastHi : ∀ address block, path.getLast? = some address → s.heap.cell address = some block →
    block.hi = s.memSize - 1
  /-- Neighbours touch, and are not both unused. -/
  neighbours : ∀ i (below : i + 1 < path.length) block next,
    s.heap.cell path[i] = some block → s.heap.cell path[i + 1] = some next →
      next.lo = block.hi + 1 ∧ ¬(block.name = none ∧ next.name = none)

theorem Consistent.path (consistent : Consistent s nodes) : PathFrom s (nodes.map Prod.fst) := by
  have linked := consistent.represents.linked
  have tiled := consistent.tiled
  have stored : ∀ i (below : i < nodes.length) block,
      s.heap.cell nodes[i].1 = some block → block.lo = nodes[i].2.lo ∧
        block.hi = nodes[i].2.hi ∧ block.name = nodes[i].2.name := by
    intro i below block cell
    rw [linked.cell_getElem below] at cell
    cases cell
    exact ⟨rfl, rfl, rfl⟩
  refine ⟨by simpa using consistent.nonempty, linked.distinct, ?_, ?_, ?_, ?_, ?_⟩
  · rw [consistent.represents.head, firstAddress_eq_head?]
  · intro i below
    rw [List.length_map] at below
    refine ⟨_, by rw [List.getElem_map, linked.cell_getElem below], rfl, ?_, ?_⟩
    · intro first
      subst first
      rfl
    · intro j behind
      subst behind
      show lastAddress none (nodes.take (j + 1)) = _
      rw [lastAddress_eq_getLast?, List.map_take, List.getLast?_take, if_neg (by simp),
        Nat.add_sub_cancel, List.getElem?_eq_getElem (by simp; omega)]
      rfl
  · intro address block first cell
    cases nodes with
    | nil => cases first
    | cons node rest =>
        cases first
        rw [(stored 0 (by simp) block cell).1]
        obtain ⟨_, reaches, _⟩ := tiled
        exact reaches.1
  · intro address block last cell
    cases nodes using List.reverseRecOn with
    | nil => cases last
    | append_singleton init node =>
        simp only [List.map_append, List.map_cons, List.map_nil, List.getLast?_append,
          List.getLast?_singleton, Option.some_or, Option.some.injEq] at last
        subst last
        have final := (stored init.length (by simp) block (by simpa using cell)).2.1
        simp only [List.getElem_append_right, Nat.le_refl, Nat.sub_self,
          List.getElem_cons_zero] at final
        rw [final]
        simp only [extentsOf, List.map_append, List.map_cons, List.map_nil] at tiled
        exact wrappingTile_last tiled
  · intro i below block next cell nextCell
    rw [List.length_map] at below
    rw [List.getElem_map] at cell nextCell
    rcases stored i (by omega) block cell with ⟨_, hi, name⟩
    rcases stored (i + 1) below next nextCell with ⟨nextLo, _, nextName⟩
    have touch := List.isChain_iff_getElem.mp (wrappingTile_touch tiled) i (by simpa using below)
    have apart := List.isChain_iff_getElem.mp consistent.separated i (by simpa using below)
    simp only [List.getElem_map] at touch apart
    rw [hi, name, nextLo, nextName]
    exact ⟨touch, apart⟩

/-- In every state that commands after `init` reach, the blocks are a proper
doubly linked list that tiles the region without neighbouring holes; and a
compaction never frees the block `mem` points to. -/
theorem run_keeps_list (memSize : UInt64) (operations : List Operation) :
    ∃ first s, init 2 (some memSize) State.zero = .ok (0, first) ∧
      performAll operations first = .ok s ∧ s.memSize = memSize ∧
      (∃ path, PathFrom s path) ∧
      ∃ compacted, compactMemory s = .ok compacted ∧ compacted.mem = s.mem ∧
        ∃ address block, s.mem = some address ∧ compacted.heap.cell address = some block := by
  obtain ⟨s, nodes, run, sameSize, consistent⟩ :=
    (start_consistent memSize).performAll operations
  refine ⟨start memSize, s, init_eq memSize, run, sameSize, ⟨_, consistent.path⟩, ?_⟩
  obtain ⟨compacted, changed, compact, _, sameMem, represents, _⟩ :=
    compactMemory_eq consistent.represents consistent.separated
  rcases List.exists_cons_of_ne_nil consistent.nonempty with ⟨node, rest, shape⟩
  have head : s.mem = some node.1 := by
    rw [consistent.represents.head, shape]
    rfl
  refine ⟨compacted, compact, sameMem, node.1, ?_⟩
  have member := firstAddress_mem (represents.head.symm.trans (sameMem.trans head))
  rcases represents.linked.segment.live member with ⟨block, live⟩
  exact ⟨block, head, live⟩

end OsProjects.Allocator
