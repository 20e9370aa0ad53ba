import OsProjects.Allocator.Extents
import OsProjects.Allocator.Model
import OsProjects.C.LinkedList

/-!
Owns how the program stores the list of extents, and `request_memory` on it:
the search loops return the hole that the strategy chooses, and the rest of the
function occupies it.

`Represents` ties a state to the nodes of its list. Every function is described
by what it returns in a represented state and by the nodes it leaves.
-/

namespace OsProjects.Allocator

open OsProjects.C

/-- The block that stores an extent between its neighbours. -/
def Extent.block (extent : Extent) (prev next : Pointer) : MemBlock :=
  ⟨extent.lo, extent.hi, extent.name, prev, next⟩

@[simp] theorem Extent.block_lo (extent : Extent) (prev next : Pointer) :
    (extent.block prev next).lo = extent.lo := rfl

@[simp] theorem Extent.block_hi (extent : Extent) (prev next : Pointer) :
    (extent.block prev next).hi = extent.hi := rfl

@[simp] theorem Extent.block_name (extent : Extent) (prev next : Pointer) :
    (extent.block prev next).name = extent.name := rfl

@[simp] theorem Extent.block_prev (extent : Extent) (prev next : Pointer) :
    (extent.block prev next).prev = prev := rfl

@[simp] theorem Extent.block_next (extent : Extent) (prev next : Pointer) :
    (extent.block prev next).next = next := rfl

/-- A node of the list: the address of a block and the extent it stores. -/
abbrev Node := ℕ × Extent

/-- `mem` points to the first of the nodes, which are linked in order. -/
structure Represents (s : State) (nodes : List Node) : Prop where
  linked : Linked Extent.block s.heap nodes
  head : s.mem = firstAddress nodes none

/-- The extents of some nodes. -/
abbrev extentsOf (nodes : List Node) : List Extent := nodes.map Prod.snd

variable {s : State} {nodes pre post : List Node} {address : ℕ} {extent hole : Extent}
variable {size : UInt64}

section Assignments

variable {heap : Heap MemBlock} {previous : ℕ} {given : Extent}

/-- An assignment to the block of a node that keeps its links. -/
theorem assign_node (linked : Linked Extent.block heap (pre ++ (address, extent) :: post))
    (now : Extent) (change : MemBlock → MemBlock)
    (changes : ∀ prev next, change (extent.block prev next) = now.block prev next) :
    ∃ changed, heap.assign (some address) change = .ok changed ∧
      Linked Extent.block changed (pre ++ (address, now) :: post) := by
  refine ⟨_, Heap.assign_some linked.cell change, ?_⟩
  rw [changes]
  exact linked.assign (Heap.write_self linked.cell _)
    (fun other different => Heap.write_other different _)

/-- The same for the node behind another one. -/
theorem assign_next
    (linked : Linked Extent.block heap (pre ++ (previous, given) :: (address, extent) :: post))
    (now : Extent) (change : MemBlock → MemBlock)
    (changes : ∀ prev next, change (extent.block prev next) = now.block prev next) :
    ∃ changed, heap.assign (some address) change = .ok changed ∧
      Linked Extent.block changed (pre ++ (previous, given) :: (address, now) :: post) := by
  rw [← List.singleton_append, ← List.append_assoc] at linked ⊢
  exact assign_node linked now change changes

end Assignments

/-! ## The search loops -/

/-- What the loop of `case 'F'` returns. -/
def firstChoice (size : UInt64) (nodes : List Node) : Pointer :=
  (nodes.find? fun node => node.2.name = none ∧ node.2.size ≥ size).map Prod.fst

/-- What the loops of `case 'B'` and `case 'W'` return, from a bound and a choice
so far. -/
def bestChoice (passes : UInt64 → UInt64 → Bool) (bound : UInt64) (choice : Pointer) :
    List Node → Pointer
  | [] => choice
  | (address, extent) :: rest =>
      if extent.name = none ∧ passes extent.size bound then
        bestChoice passes extent.size (some address) rest
      else
        bestChoice passes bound choice rest

theorem firstFitBody_eq (size : UInt64) {heap : Heap MemBlock} {prev next : Pointer}
    (cell : heap.cell address = some (extent.block prev next)) :
    firstFitBody size heap (some address) =
      .ok (if extent.name = none ∧ extent.size ≥ size then .exit (some address)
        else .next next) := by
  unfold firstFitBody
  rw [Heap.load_some cell, ok_bind]
  show (if extent.name = none ∧ extent.size ≥ size then _ else _) = _
  split
  · rfl
  · rfl

theorem searchBody_eq {passes : UInt64 → UInt64 → Bool} {heap : Heap MemBlock}
    {prev next choice : Pointer} {bound : UInt64}
    (cell : heap.cell address = some (extent.block prev next)) :
    searchBody passes heap ⟨some address, bound, choice⟩ =
      .ok (.next (if extent.name = none ∧ passes extent.size bound then
        ⟨next, extent.size, some address⟩ else ⟨next, bound, choice⟩)) := by
  unfold searchBody
  rw [Heap.load_some cell, ok_bind]
  show (if extent.name = none ∧ passes extent.size bound then _ else _) = _
  split
  · rfl
  · rfl

theorem firstFit_eq (represents : Represents s nodes) :
    firstFit size s = .ok (firstChoice size nodes) := by
  -- the nodes left to look at, none of the others being large enough
  let Inv : List Node → Pointer → Prop := fun rest cursor =>
    (∃ done, nodes = done ++ rest) ∧ cursor = firstAddress rest none ∧
      firstChoice size nodes = firstChoice size rest
  have steps : ∀ {node : Node} {rest : List Node} {cursor : Pointer}, Inv (node :: rest) cursor →
      (∃ after, firstFitBody size s.heap cursor = .ok (.next after) ∧ Inv rest after) ∨
        ∃ result, firstFitBody size s.heap cursor = .ok (.exit result) ∧
          result = firstChoice size nodes := by
    intro node rest cursor inv
    obtain ⟨⟨done, rfl⟩, rfl, toGo⟩ := inv
    have run := firstFitBody_eq size represents.linked.cell
    by_cases fits : node.2.name = none ∧ node.2.size ≥ size
    · rw [if_pos fits] at run
      refine Or.inr ⟨some node.1, run, ?_⟩
      rw [toGo]
      simp [firstChoice, fits]
    · rw [if_neg fits] at run
      refine Or.inl ⟨firstAddress rest none, run, ⟨done ++ [node], by simp⟩, rfl, ?_⟩
      rw [toGo]
      simp only [firstChoice, List.find?_cons, fits, decide_false]
  have run := whileLoop_list Option.isSome (firstFitBody size s.heap) Inv
    (fun result => result = firstChoice size nodes)
    (fun inv => by rw [inv.2.1]; rfl) (fun inv => by rw [inv.2.1]; rfl) steps
    ⟨⟨[], rfl⟩, represents.head, rfl⟩ represents.linked.length_le_fresh
  unfold firstFit
  cases run with
  | inl ended =>
      obtain ⟨after, run, _, last, toGo⟩ := ended
      rw [run, ok_bind, toGo, last]
      rfl
  | inr left =>
      obtain ⟨result, run, chosen⟩ := left
      rw [run, ok_bind, ← chosen]
      rfl

theorem searchAll_eq (passes : UInt64 → UInt64 → Bool) (bound : UInt64)
    (represents : Represents s nodes) :
    searchAll passes bound s = .ok (bestChoice passes bound none nodes) := by
  let Inv : List Node → Search → Prop := fun rest search =>
    (∃ done, nodes = done ++ rest) ∧ search.cursor = firstAddress rest none ∧
      bestChoice passes bound none nodes = bestChoice passes search.bound search.hole rest
  have steps : ∀ {node : Node} {rest : List Node} {search : Search}, Inv (node :: rest) search →
      ∃ after, searchBody passes s.heap search = .ok (.next after) ∧ Inv rest after := by
    intro node rest search inv
    obtain ⟨cursor, bound, choice⟩ := search
    obtain ⟨⟨done, rfl⟩, atNode, toGo⟩ := inv
    cases atNode
    refine ⟨_, searchBody_eq represents.linked.cell, ⟨done ++ [node], by simp⟩, ?_⟩
    rw [toGo, bestChoice]
    by_cases chosen : node.2.name = none ∧ passes node.2.size bound
    · rw [if_pos chosen, if_pos chosen]
      exact ⟨rfl, rfl⟩
    · rw [if_neg chosen, if_neg chosen]
      exact ⟨rfl, rfl⟩
  obtain ⟨after, run, _, _, toGo⟩ := whileLoop_list_next
    (fun search : Search => search.cursor.isSome) (searchBody passes s.heap) Inv
    (fun inv => by rw [inv.2.1]; rfl) (fun inv => by rw [inv.2.1]; rfl) steps
    (⟨⟨[], rfl⟩, represents.head, rfl⟩ : Inv nodes ⟨s.mem, bound, none⟩)
    represents.linked.length_le_fresh
  unfold searchAll
  rw [run, ok_bind, toGo]
  rfl

/-- What the `switch` leaves in `hole`, `none` for an unknown strategy. -/
def strategyChoice (size : UInt64) (strategy : Char) (nodes : List Node) : Option Pointer :=
  match strategy with
  | 'F' => some (firstChoice size nodes)
  | 'B' => some (bestChoice (fun holeSize minSize => size ≤ holeSize ∧ holeSize < minSize)
      (-1) none nodes)
  | 'W' => some (bestChoice (fun holeSize maxSize => holeSize > maxSize) (size - 1) none nodes)
  | _ => none

theorem strategyChoice_other (size : UInt64) {strategy : Char} (nodes : List Node)
    (notF : strategy ≠ 'F') (notB : strategy ≠ 'B') (notW : strategy ≠ 'W') :
    strategyChoice size strategy nodes = none := by
  simp [strategyChoice]

theorem selectHole_eq (strategy : Char) (represents : Represents s nodes) :
    selectHole size strategy s = .ok (strategyChoice size strategy nodes) := by
  unfold selectHole
  split
  · rw [firstFit_eq represents]
    rfl
  · rw [bestFit, searchAll_eq _ _ represents]
    rfl
  · rw [worstFit, searchAll_eq _ _ represents]
    rfl
  · next notF notB notW =>
      rw [strategyChoice_other size nodes notF notB notW]
      rfl

/-! ## Which holes are chosen -/

theorem firstChoice_some (chosen : firstChoice size nodes = some address) :
    ∃ extent, (address, extent) ∈ nodes ∧ extent.name = none ∧ extent.size ≥ size := by
  rcases Option.map_eq_some_iff.mp chosen with ⟨node, found, same⟩
  subst same
  have passes := List.find?_some found
  simp only [decide_eq_true_eq] at passes
  exact ⟨node.2, List.mem_of_find?_eq_some found, passes⟩

theorem firstChoice_none (chosen : firstChoice size nodes = none) :
    ∀ node ∈ nodes, ¬(node.2.name = none ∧ node.2.size ≥ size) := by
  intro node member
  have failed := List.find?_eq_none.mp (Option.map_eq_none_iff.mp chosen) node member
  simpa only [decide_eq_true_eq] using failed

section BestChoice

variable {passes : UInt64 → UInt64 → Bool} {bound : UInt64} {choice : Pointer}

/-- The bound only ever moves to sizes that pass, so a block that passes the
current bound passes the first one. -/
theorem bestChoice_mem (start : UInt64)
    (narrows : ∀ {holeSize bound}, passes bound start = true → passes holeSize bound = true →
      passes holeSize start = true)
    (reached : bound = start ∨ passes bound start = true) :
    bestChoice passes bound choice nodes = choice ∨
      ∃ address extent, bestChoice passes bound choice nodes = some address ∧
        (address, extent) ∈ nodes ∧ extent.name = none ∧ passes extent.size start := by
  induction nodes generalizing bound choice with
  | nil => exact Or.inl rfl
  | cons node rest inductionHypothesis =>
      obtain ⟨address, extent⟩ := node
      rw [bestChoice]
      by_cases chosen : extent.name = none ∧ passes extent.size bound
      · have passesStart : passes extent.size start = true := by
          cases reached with
          | inl same => exact same ▸ chosen.2
          | inr passed => exact narrows passed chosen.2
        rw [if_pos chosen]
        right
        cases inductionHypothesis (Or.inr passesStart) with
        | inl unchanged => exact ⟨address, extent, unchanged, by simp, chosen.1, passesStart⟩
        | inr better =>
            obtain ⟨other, otherExtent, result, member, facts⟩ := better
            exact ⟨other, otherExtent, result, List.mem_cons_of_mem _ member, facts⟩
      · rw [if_neg chosen]
        cases inductionHypothesis reached with
        | inl unchanged => exact Or.inl unchanged
        | inr better =>
            obtain ⟨other, otherExtent, result, member, facts⟩ := better
            exact Or.inr ⟨other, otherExtent, result, List.mem_cons_of_mem _ member, facts⟩

theorem bestChoice_some {start : UInt64}
    (chosen : bestChoice passes start none nodes = some address)
    (narrows : ∀ {holeSize bound}, passes bound start = true → passes holeSize bound = true →
      passes holeSize start = true) :
    ∃ extent, (address, extent) ∈ nodes ∧ extent.name = none ∧ passes extent.size start := by
  cases bestChoice_mem start narrows (Or.inl rfl) with
  | inl unchanged =>
      rw [chosen] at unchanged
      cases unchanged
  | inr found =>
      obtain ⟨other, extent, result, facts⟩ := found
      rw [chosen] at result
      cases result
      exact ⟨extent, facts⟩

theorem bestChoice_none (chosen : bestChoice passes bound choice nodes = none) :
    choice = none ∧ ∀ node ∈ nodes, ¬(node.2.name = none ∧ passes node.2.size bound) := by
  induction nodes generalizing bound choice with
  | nil => exact ⟨chosen, by simp⟩
  | cons node rest inductionHypothesis =>
      obtain ⟨address, extent⟩ := node
      rw [bestChoice] at chosen
      by_cases passed : extent.name = none ∧ passes extent.size bound
      · rw [if_pos passed] at chosen
        cases (inductionHypothesis chosen).1
      · rw [if_neg passed] at chosen
        rcases inductionHypothesis chosen with ⟨empty, others⟩
        exact ⟨empty, List.forall_mem_cons.mpr ⟨passed, others⟩⟩

end BestChoice

/-- A chosen block is unused and fits. -/
theorem strategyChoice_some {strategy : Char}
    (chosen : strategyChoice size strategy nodes = some (some address)) :
    ∃ extent, (address, extent) ∈ nodes ∧ extent.name = none ∧
      fits strategy size extent.size := by
  unfold strategyChoice at chosen
  split at chosen
  · rcases firstChoice_some (Option.some.inj chosen) with ⟨extent, member, unused, large⟩
    exact ⟨extent, member, unused, by simpa [fits] using large⟩
  · obtain ⟨extent, member, unused, passed⟩ :=
      bestChoice_some (Option.some.inj chosen) (by grind)
    exact ⟨extent, member, unused, by simpa [fits] using passed⟩
  · obtain ⟨extent, member, unused, passed⟩ :=
      bestChoice_some (Option.some.inj chosen) (by grind)
    exact ⟨extent, member, unused, by simpa [fits] using passed⟩
  · cases chosen

/-- When no block is chosen, none is unused and fits. -/
theorem strategyChoice_none {strategy : Char}
    (chosen : ∀ address, strategyChoice size strategy nodes ≠ some (some address)) :
    ∀ extent ∈ extentsOf nodes, ¬(extent.name = none ∧ fits strategy size extent.size) := by
  intro extent member
  rcases List.mem_map.mp member with ⟨node, inNodes, rfl⟩
  have isNone : ∀ choice : Pointer, (∀ address, some choice ≠ some (some address)) →
      choice = none := by
    intro choice notSome
    cases choice with
    | none => rfl
    | some address => exact absurd rfl (notSome address)
  unfold strategyChoice at chosen
  split at chosen
  · simpa [fits] using firstChoice_none (isNone _ chosen) node inNodes
  · simpa [fits] using (bestChoice_none (isNone _ chosen)).2 node inNodes
  · simpa [fits] using (bestChoice_none (isNone _ chosen)).2 node inNodes
  · next notF notB notW =>
      rw [fits_other notF notB notW]
      simp

/-! ## Occupying the hole -/

/-- `make_block` behind a block: a new unused block, linked to both sides. -/
theorem makeBlock_eq {heap : Heap MemBlock} {block : MemBlock} {next : Pointer} (lo hi : UInt64)
    (cell : heap.cell address = some block)
    (nextLive : ∀ other, next = some other →
      other ≠ address ∧ ∃ content, heap.cell other = some content) :
    ∃ changed, makeBlock lo hi "" (some address) next heap = .ok (some heap.fresh, changed) ∧
      changed.cell heap.fresh = some ⟨lo, hi, none, some address, next⟩ ∧
      changed.cell address = some { block with next := some heap.fresh } ∧
      (∀ other content, next = some other → heap.cell other = some content →
        changed.cell other = some { content with prev := some heap.fresh }) ∧
      ∀ other, other ≠ address → other ≠ heap.fresh → next ≠ some other →
        changed.cell other = heap.cell other := by
  have notFresh : address ≠ heap.fresh := (Heap.lt_fresh cell).ne
  let added := (heap.malloc ⟨lo, hi, none, some address, next⟩).2
  have addedCell : added.cell address = some block := by
    rw [Heap.malloc_cell, if_neg notFresh, cell]
  let first := added.write address { block with next := some heap.fresh }
  have start : makeBlock lo hi "" (some address) next heap = (do
      let changed ← linkPrev first next (some heap.fresh)
      pure (some heap.fresh, changed)) := by
    have firstStep : linkNext added (some address) (some heap.fresh) = .ok first :=
      Heap.assign_some addedCell _
    show (do
      let changed ← linkNext added (some address) (some heap.fresh)
      let changed ← linkPrev changed next (some heap.fresh)
      pure (some heap.fresh, changed)) = _
    rw [firstStep, ok_bind]
  rw [start]
  cases next with
  | none =>
      refine ⟨first, rfl, ?_, Heap.write_self addedCell _, ?_, ?_⟩
      · rw [Heap.write_other notFresh.symm, Heap.malloc_cell, if_pos rfl]
      · intro other content impossible
        cases impossible
      · intro other notAddress isOld _
        rw [Heap.write_other notAddress, Heap.malloc_cell, if_neg isOld]
  | some behind =>
      rcases nextLive behind rfl with ⟨apart, content, behindCell⟩
      have behindOld : behind ≠ heap.fresh := (Heap.lt_fresh behindCell).ne
      have behindFirst : first.cell behind = some content := by
        rw [Heap.write_other apart, Heap.malloc_cell, if_neg behindOld, behindCell]
      have secondStep : linkPrev first (some behind) (some heap.fresh) =
          .ok (first.write behind { content with prev := some heap.fresh }) :=
        Heap.assign_some behindFirst _
      rw [secondStep]
      refine ⟨_, rfl, ?_, ?_, ?_, ?_⟩
      · rw [Heap.write_other behindOld.symm, Heap.write_other notFresh.symm, Heap.malloc_cell,
          if_pos rfl]
      · rw [Heap.write_other apart.symm, Heap.write_self addedCell]
      · intro other given same otherCell
        cases same
        rw [behindCell] at otherCell
        cases otherCell
        exact Heap.write_self behindFirst _
      · intro other notAddress isOld notBehind
        rw [Heap.write_other (fun same => notBehind (congrArg some same.symm)),
          Heap.write_other notAddress, Heap.malloc_cell, if_neg isOld]

/-- A new unused block behind a node of the list. -/
theorem insertBlock_eq {heap : Heap MemBlock} (lo hi : UInt64)
    (linked : Linked Extent.block heap (pre ++ (address, extent) :: post)) :
    ∃ rest made changed,
      makeBlock lo hi "" (some address) (firstAddress post none) heap = .ok (rest, made) ∧
      made.assign (some address) ({ · with next := rest }) = .ok changed ∧
      Linked Extent.block changed
        (pre ++ (address, extent) :: (heap.fresh, ⟨lo, hi, none⟩) :: post) := by
  have cell := linked.cell
  have nextLive : ∀ other, firstAddress post none = some other →
      other ≠ address ∧ ∃ content, heap.cell other = some content := by
    intro other isNext
    have member := firstAddress_mem isNext
    constructor
    · intro same
      exact linked.not_mem_post (same ▸ member)
    · apply linked.segment.live
      simp [member]
  obtain ⟨made, makeStep, insertedCell, addressCell, nextCell, kept⟩ :=
    makeBlock_eq lo hi cell nextLive
  have notFresh : heap.fresh ≠ address := (Heap.lt_fresh cell).ne'
  refine ⟨_, made, _, makeStep, Heap.assign_some addressCell _, ?_⟩
  apply linked.insertAfter linked.fresh_not_mem (Heap.write_self addressCell _)
  · rw [Heap.write_other notFresh, insertedCell]
    rfl
  · intro behind beyond rest shape
    have isNext : firstAddress post none = some behind := by simp [shape]
    have behindCell : heap.cell behind =
        some (beyond.block (some address) (firstAddress rest none)) := by
      rw [shape] at linked
      exact linked.cell_next
    rw [Heap.write_other (nextLive behind isNext).1, nextCell behind _ isNext behindCell]
    rfl
  · intro other notAddress isOld notNext
    rw [Heap.write_other notAddress, kept other notAddress isOld notNext]

/-- The hole is replaced by what occupies it. -/
theorem occupyHole_eq (name : String) (size : UInt64)
    (represents : Represents s (pre ++ (address, hole) :: post)) :
    ∃ after nodes, occupyHole name size (some address) s = .ok (0, after) ∧
      after.memSize = s.memSize ∧ Represents after nodes ∧
      extentsOf nodes = extentsOf pre ++ occupy name size hole ++ extentsOf post := by
  have head := represents.head
  rw [firstAddress_append, firstAddress_cons] at head
  let named : Extent := { hole with name := some name }
  obtain ⟨heap, nameStep, namedLinked⟩ :=
    assign_node represents.linked named ({ · with name := some name }) (fun _ _ => rfl)
  unfold occupyHole occupy
  rw [nameStep, ok_bind, Heap.load_some namedLinked.cell, ok_bind]
  by_cases wholeHole : hole.size = size
  · have whole : (named.block (lastAddress none pre) (firstAddress post none)).hi -
        (named.block (lastAddress none pre) (firstAddress post none)).lo + 1 = size := wholeHole
    rw [if_pos whole, if_pos wholeHole]
    refine ⟨{ s with heap }, pre ++ (address, named) :: post, rfl, rfl, ⟨namedLinked, ?_⟩, ?_⟩
    · rw [firstAddress_append, firstAddress_cons]
      exact head
    · simp [named]
  · have split : ¬(named.block (lastAddress none pre) (firstAddress post none)).hi -
        (named.block (lastAddress none pre) (firstAddress post none)).lo + 1 = size := wholeHole
    rw [if_neg split, if_neg wholeHole]
    obtain ⟨rest, made, relinked, makeStep, relink, backLinked⟩ :=
      insertBlock_eq (hole.lo + size) hole.hi namedLinked
    let front : Extent := { named with hi := hole.lo + size - 1 }
    obtain ⟨final, shorten, finalLinked⟩ := assign_node backLinked front
      (fun block => { block with hi := block.lo + size - 1 }) (fun _ _ => rfl)
    refine ⟨{ s with heap := final }, _, ?_, rfl, ⟨finalLinked, ?_⟩, ?_⟩
    · simp only [Extent.block_lo, Extent.block_hi, Extent.block_next, named, makeStep, relink,
        shorten, ok_bind, pure_eq_ok]
    · rw [firstAddress_append, firstAddress_cons]
      exact head
    · simp [front, named]

/-- `request_memory` either refuses, and then no block is unused and fits, or
lets the request occupy the chosen block. -/
theorem requestMemory_cases (name : String) (size : UInt64) (strategy : Char)
    (represents : Represents s nodes) :
    (∃ code, code ≠ 0 ∧ requestMemory name size strategy s = .ok (code, s) ∧
      ∀ extent ∈ extentsOf nodes, ¬(extent.name = none ∧ fits strategy size extent.size)) ∨
    ∃ pre address hole post after changed, nodes = pre ++ (address, hole) :: post ∧
      strategyChoice size strategy nodes = some (some address) ∧
      hole.name = none ∧ fits strategy size hole.size ∧
      requestMemory name size strategy s = .ok (0, after) ∧ after.memSize = s.memSize ∧
      Represents after changed ∧
      extentsOf changed = extentsOf pre ++ occupy name size hole ++ extentsOf post := by
  unfold requestMemory
  rw [selectHole_eq strategy represents, ok_bind]
  cases chosen : strategyChoice size strategy nodes with
  | none =>
      refine Or.inl ⟨-1, by decide, rfl, strategyChoice_none ?_⟩
      intro address
      rw [chosen]
      simp
  | some choice =>
      cases choice with
      | none =>
          refine Or.inl ⟨-2, by decide, rfl, strategyChoice_none ?_⟩
          intro address
          rw [chosen]
          simp
      | some address =>
          right
          rcases strategyChoice_some chosen with ⟨hole, member, unused, large⟩
          rcases List.append_of_mem member with ⟨pre, post, rfl⟩
          obtain ⟨after, changed, run, sameSize, represented, extents⟩ :=
            occupyHole_eq name size represents
          refine ⟨pre, address, hole, post, after, changed, rfl, rfl, unused, large, ?_, sameSize,
            represented, extents⟩
          show (do
            let block ← s.heap.load (some address)
            if block.name ≠ none then pure (-2, s)
            else occupyHole name size (some address) s) = _
          rw [Heap.load_some represents.linked.cell, ok_bind, if_neg (fun named => named unused),
            run]

end OsProjects.Allocator
