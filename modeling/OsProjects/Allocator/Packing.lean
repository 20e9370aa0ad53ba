import Mathlib.Algebra.GroupWithZero.Nat
import OsProjects.Allocator.Region

/-!
Owns what `compact_memory` makes of a list: the used blocks packed from address
0, in their order and with their lengths, and one hole behind them with all the
bytes that were unused.

Lengths are the `hi - lo + 1` of the program. That they add up without a wrap is
a property of runs: a hole is only divided into lengths that sum to its own, so
the lengths of all blocks sum to `mem_size` in every state. This needs no
condition on the requested sizes.

Does not own how the blocks are linked.
-/

namespace OsProjects.Allocator

open OsProjects.C

/-- The extents without an owner. -/
def unusedExtents (extents : List Extent) : List Extent :=
  extents.filter (·.name.isNone)

/-- What a compaction has to keep of a block. -/
def Extent.label (extent : Extent) : Option String × UInt64 :=
  (extent.name, extent.size)

/-- The sum of the lengths, without a wrap. -/
def totalSize (extents : List Extent) : ℕ :=
  (extents.map fun extent => extent.size.toNat).sum

/-- `after` holds the used blocks of `before`, back to back from address 0 on, and
then a hole with the unused bytes of `before`, if there were unused blocks. -/
def PackedFrom (memSize : UInt64) (before after : List Extent) : Prop :=
  ∃ packed hole : List Extent, after = packed ++ hole ∧
    packed.map Extent.label = (usedExtents before).map Extent.label ∧
    Tiled WrappingTile 0 memSize after ∧
    (unusedExtents before = [] → hole = []) ∧
    (unusedExtents before ≠ [] → ∃ extent, hole = [extent] ∧ extent.name = none ∧
      extent.size.toNat = totalSize (unusedExtents before))

/-! ## Lengths that add up -/

/-- A position is an address together with the bytes passed so far. -/
def MeasuredTile (extent : Extent) (start finish : UInt64 × ℕ) : Prop :=
  WrappingTile extent start.1 finish.1 ∧ start.2 + extent.size.toNat = finish.2 ∧
    finish.2 < 2 ^ 64

/-- The length of an extent is what it reaches over. -/
theorem wrappingTile_size {extent : Extent} {start finish : UInt64}
    (reaches : WrappingTile extent start finish) : extent.size = finish - start := by
  obtain ⟨lo, hi⟩ := reaches
  unfold Extent.size
  grind

/-- An extent that moves to another address keeps its length. -/
theorem size_moved (extent : Extent) (lo : UInt64) (name : Option String) :
    (⟨lo, lo + (extent.hi - extent.lo), name⟩ : Extent).size = extent.size := by
  unfold Extent.size
  grind

/-- Lengths that add up in the arithmetic of `size_t` and stay below 2^64 add up. -/
theorem toNat_add_of_lt {first second : UInt64} (below : first.toNat + second.toNat < 2 ^ 64) :
    (first + second).toNat = first.toNat + second.toNat := by
  rw [UInt64.toNat_add]
  omega

theorem measuredTile_rules : TileRules MeasuredTile := by
  constructor
  · intro extent start finish name reaches
    exact reaches
  · intro first second start middle finish one two
    obtain ⟨oneReaches, oneSize, _⟩ := one
    obtain ⟨twoReaches, twoSize, below⟩ := two
    have whole := wrappingTile_rules.merge oneReaches twoReaches
    have size : (⟨first.lo, second.hi, none⟩ : Extent).size = first.size + second.size := by
      rw [wrappingTile_size whole, wrappingTile_size oneReaches, wrappingTile_size twoReaches]
      grind
    refine ⟨whole, ?_, below⟩
    rw [size, toNat_add_of_lt (by omega)]
    omega
  · intro first second start middle finish one two
    obtain ⟨oneReaches, oneSize, _⟩ := one
    obtain ⟨twoReaches, twoSize, below⟩ := two
    obtain ⟨between, used, moved⟩ := wrappingTile_rules.swap oneReaches twoReaches
    have usedSize := size_moved second first.lo second.name
    have movedSize : (⟨first.lo + (second.hi - second.lo) + 1, second.hi, none⟩ : Extent).size =
        first.size := by
      obtain ⟨_, oneHi⟩ := oneReaches
      obtain ⟨twoLo, _⟩ := twoReaches
      unfold Extent.size
      grind
    refine ⟨(between, start.2 + second.size.toNat), ⟨used, ?_, ?_⟩, moved, ?_, below⟩
    · rw [usedSize]
    · show start.2 + second.size.toNat < 2 ^ 64
      omega
    · show start.2 + second.size.toNat + _ = finish.2
      rw [movedSize]
      omega

/-- A hole of at least the requested size is divided into lengths that sum to its
own. -/
theorem measuredTile_occupy {hole : Extent} {start finish : UInt64 × ℕ} (name : String)
    {size : UInt64} (large : size ≤ hole.size) (reaches : MeasuredTile hole start finish) :
    Tiled MeasuredTile start finish (occupy name size hole) := by
  obtain ⟨wraps, sum, below⟩ := reaches
  have largeNat := UInt64.le_iff_toNat_le.mp large
  unfold occupy
  by_cases wholeHole : hole.size = size
  · rw [if_pos wholeHole]
    exact ⟨finish, ⟨wraps, sum, below⟩, rfl⟩
  · rw [if_neg wholeHole]
    have frontSize : (⟨hole.lo, hole.lo + size - 1, some name⟩ : Extent).size = size := by
      unfold Extent.size
      grind
    have restSize : (⟨hole.lo + size, hole.hi, none⟩ : Extent).size = hole.size - size := by
      unfold Extent.size
      grind
    refine ⟨(hole.lo + size, start.2 + size.toNat), ⟨⟨wraps.1, ?_⟩, ?_, ?_⟩, finish,
      ⟨⟨rfl, wraps.2⟩, ?_, below⟩, rfl⟩
    · show hole.lo + size - 1 + 1 = hole.lo + size
      grind
    · rw [frontSize]
    · show start.2 + size.toNat < 2 ^ 64
      omega
    · show start.2 + size.toNat + _ = finish.2
      rw [restSize, UInt64.toNat_sub_of_le _ _ large]
      omega

/-- A tiling reaches over the sum of its lengths. -/
theorem measuredTile_total {extents : List Extent} {start finish : UInt64 × ℕ}
    (tiled : Tiled MeasuredTile start finish extents) :
    start.2 + totalSize extents = finish.2 := by
  induction extents generalizing start with
  | nil => exact congrArg Prod.snd tiled
  | cons extent rest inductionHypothesis =>
      obtain ⟨middle, ⟨_, sum, _⟩, others⟩ := tiled
      have total := inductionHypothesis others
      unfold totalSize at total ⊢
      rw [List.map_cons, List.sum_cons]
      omega

theorem measuredTile_wraps {extents : List Extent} {start finish : UInt64 × ℕ}
    (tiled : Tiled MeasuredTile start finish extents) :
    Tiled WrappingTile start.1 finish.1 extents := by
  induction extents generalizing start with
  | nil => exact congrArg Prod.fst tiled
  | cons extent rest inductionHypothesis =>
      obtain ⟨middle, ⟨wraps, _⟩, others⟩ := tiled
      exact ⟨middle.1, wraps, inductionHypothesis others⟩

/-- Every strategy chooses a hole of at least the requested size. -/
theorem size_le_of_fits {strategy : Char} {size holeSize : UInt64}
    (chosen : fits strategy size holeSize) : size ≤ holeSize := by
  by_cases zero : size = 0
  · rw [zero]
    exact UInt64.zero_le
  · exact fits_le chosen zero

/-! ## Runs keep the sum of the lengths -/

/-- A consistent state whose lengths sum to `mem_size`. -/
structure Measured (s : State) (nodes : List Node) : Prop extends Consistent s nodes where
  measured : Tiled MeasuredTile (0, 0) (s.memSize, s.memSize.toNat) (extentsOf nodes)

section Runs

variable {s : State} {nodes : List Node}

theorem start_measured (memSize : UInt64) :
    Measured (start memSize) [(0, ⟨0, memSize - 1, none⟩)] := by
  have size : (⟨0, memSize - 1, none⟩ : Extent).size = memSize := by
    unfold Extent.size
    grind
  refine ⟨start_consistent memSize, (memSize, memSize.toNat), ⟨⟨rfl, ?_⟩, ?_, ?_⟩, rfl⟩
  · show memSize - 1 + 1 = memSize
    grind
  · rw [size]
    exact Nat.zero_add _
  · exact memSize.toNat_lt

theorem Measured.perform (operation : Operation) (measured : Measured s nodes) :
    ∃ code after changed, perform operation s = .ok (code, after) ∧
      after.memSize = s.memSize ∧ Measured after changed := by
  obtain ⟨code, after, changed, run, sameSize, consistent, step⟩ :=
    measured.toConsistent.perform operation
  refine ⟨code, after, changed, run, sameSize, consistent, ?_⟩
  rw [sameSize]
  exact step.tiled measuredTile_rules
    (fun _ _ _ chosen reaches _ => measuredTile_occupy _ (size_le_of_fits chosen) reaches)
    measured.measured

end Runs

/-! ## The compacted list -/

section Packed

variable {extents : List Extent} {extent : Extent}

theorem usedExtents_cons_used (used : extent.name ≠ none) :
    usedExtents (extent :: extents) = extent :: usedExtents extents := by
  simp [usedExtents, Option.isSome_iff_ne_none, used]

theorem usedExtents_cons_unused (unused : extent.name = none) :
    usedExtents (extent :: extents) = usedExtents extents := by
  simp [usedExtents, unused]

theorem unusedExtents_cons_used (used : extent.name ≠ none) :
    unusedExtents (extent :: extents) = unusedExtents extents := by
  simp [unusedExtents, used]

theorem unusedExtents_cons_unused (unused : extent.name = none) :
    unusedExtents (extent :: extents) = extent :: unusedExtents extents := by
  simp [unusedExtents, unused]

/-- Every length is the length of a used or of an unused extent. -/
theorem totalSize_split (extents : List Extent) :
    totalSize extents = totalSize (usedExtents extents) + totalSize (unusedExtents extents) := by
  induction extents with
  | nil => rfl
  | cons extent rest inductionHypothesis =>
      unfold totalSize at inductionHypothesis ⊢
      by_cases unused : extent.name = none
      · rw [usedExtents_cons_unused unused, unusedExtents_cons_unused unused]
        simp only [List.map_cons, List.sum_cons]
        omega
      · rw [usedExtents_cons_used unused, unusedExtents_cons_used unused]
        simp only [List.map_cons, List.sum_cons]
        omega

theorem totalSize_append (extents more : List Extent) :
    totalSize (extents ++ more) = totalSize extents + totalSize more := by
  simp [totalSize]

/-- Extents with the same labels have the same lengths. -/
theorem totalSize_of_labels {packed : List Extent}
    (labels : packed.map Extent.label = extents.map Extent.label) :
    totalSize packed = totalSize extents := by
  have sizes := congrArg (List.map fun label : Option String × UInt64 => label.2.toNat) labels
  rw [List.map_map, List.map_map] at sizes
  exact congrArg List.sum sizes

/-- The shape of the list that sliding leaves: used extents with the old labels,
and a hole behind them if there was one. -/
def Slid (extents after : List Extent) : Prop :=
  ∃ packed hole, after = packed ++ hole ∧
    packed.map Extent.label = (usedExtents extents).map Extent.label ∧
    ((hole = [] ∧ unusedExtents extents = []) ∨
      ∃ extent : Extent, hole = [extent] ∧ extent.name = none ∧ unusedExtents extents ≠ [])

theorem Slid.cons {extents after : List Extent} {first moved : Extent} (used : first.name ≠ none)
    (sameLabel : moved.label = first.label) (slid : Slid extents after) :
    Slid (first :: extents) (moved :: after) := by
  obtain ⟨packed, hole, rfl, labels, holes⟩ := slid
  refine ⟨moved :: packed, hole, rfl, ?_, ?_⟩
  · rw [usedExtents_cons_used used, List.map_cons, List.map_cons, sameLabel, labels]
  · rwa [unusedExtents_cons_used used]

/-- Only the used extents, and whether there is a hole, matter for the shape. -/
theorem Slid.congr {extents others after : List Extent} (slid : Slid extents after)
    (sameUsed : usedExtents extents = usedExtents others)
    (sameUnused : unusedExtents extents = [] ↔ unusedExtents others = []) :
    Slid others after := by
  obtain ⟨packed, hole, shape, labels, holes⟩ := slid
  refine ⟨packed, hole, shape, sameUsed ▸ labels, ?_⟩
  rwa [Ne, ← sameUnused]

theorem slide_slid (pending : Option Extent) (extents : List Extent) :
    Slid (pending.toList ++ extents) (slide pending extents) := by
  induction extents generalizing pending with
  | nil =>
      cases pending with
      | none => exact ⟨[], [], rfl, rfl, Or.inl ⟨rfl, rfl⟩⟩
      | some pending =>
          by_cases unused : pending.name = none
          · refine ⟨[], [pending], rfl, ?_, Or.inr ⟨pending, rfl, unused, ?_⟩⟩
            · simp [usedExtents, unused]
            · simp [unusedExtents, unused]
          · refine ⟨[pending], [], rfl, ?_, Or.inl ⟨rfl, ?_⟩⟩
            · simp [usedExtents, Option.isSome_iff_ne_none, unused]
            · simp [unusedExtents, unused]
  | cons extent rest inductionHypothesis =>
      cases pending with
      | none => exact inductionHypothesis (some extent)
      | some pending =>
          rw [slide, Option.toList_some, List.singleton_append]
          by_cases hole : pending.name = none
          · rw [if_pos hole]
            by_cases holeToo : extent.name = none
            · -- Two holes become one: the used extents are the same, and a hole is left.
              rw [if_pos holeToo]
              have slid := inductionHypothesis (some ⟨pending.lo, extent.hi, none⟩)
              rw [Option.toList_some, List.singleton_append] at slid
              apply slid.congr
              · rw [usedExtents_cons_unused rfl, usedExtents_cons_unused hole,
                  usedExtents_cons_unused holeToo]
              · rw [unusedExtents_cons_unused rfl, unusedExtents_cons_unused hole]
                simp
            · -- The used extent takes the place of the hole.
              rw [if_neg holeToo]
              have slid := inductionHypothesis
                (some ⟨pending.lo + (extent.hi - extent.lo) + 1, extent.hi, none⟩)
              have sameLabel : Extent.label
                  ⟨pending.lo, pending.lo + (extent.hi - extent.lo), extent.name⟩ =
                    extent.label := by
                rw [Extent.label, Extent.label, size_moved]
              apply (slid.cons holeToo sameLabel).congr
              · rw [Option.toList_some, List.singleton_append, usedExtents_cons_used holeToo,
                  usedExtents_cons_unused rfl, usedExtents_cons_unused hole,
                  usedExtents_cons_used holeToo]
              · rw [Option.toList_some, List.singleton_append, unusedExtents_cons_used holeToo,
                  unusedExtents_cons_unused rfl, unusedExtents_cons_unused hole]
                simp
          · rw [if_neg hole]
            exact (inductionHypothesis (some extent)).cons hole rfl

/-- The lengths that are left for the hole are those of the old holes. -/
theorem compactExtents_packed {memSize : UInt64}
    (measured : Tiled MeasuredTile (0, 0) (memSize, memSize.toNat) extents) :
    PackedFrom memSize extents (compactExtents extents) := by
  have measuredAfter : Tiled MeasuredTile (0, 0) (memSize, memSize.toNat)
      (compactExtents extents) := tiled_slide measuredTile_rules none measured
  obtain ⟨packed, hole, shape, labels, holes⟩ := slide_slid none extents
  have total := measuredTile_total measured
  have totalAfter := measuredTile_total measuredAfter
  rw [compactExtents, shape, totalSize_append, totalSize_of_labels labels] at totalAfter
  rw [totalSize_split extents] at total
  refine ⟨packed, hole, shape, labels, measuredTile_wraps measuredAfter, ?_, ?_⟩
  · intro isFull
    cases holes with
    | inl noHole => exact noHole.1
    | inr oneHole => exact absurd isFull oneHole.choose_spec.2.2
  · intro notFull
    cases holes with
    | inl noHole => exact absurd noHole.2 notFull
    | inr oneHole =>
        obtain ⟨extent, rfl, unused, _⟩ := oneHole
        refine ⟨extent, rfl, unused, ?_⟩
        have single : totalSize [extent] = extent.size.toNat := by simp [totalSize]
        simp only [Option.toList_none, List.nil_append] at totalAfter
        omega

end Packed

/-! ## A compacted list is left alone -/

/-- No hole has a block behind it. -/
def Settled (extents : List Extent) : Prop :=
  extents.IsChain fun first _ => first.name ≠ none

theorem slide_settled (pending : Option Extent) (extents : List Extent) :
    Settled (slide pending extents) := by
  induction extents generalizing pending with
  | nil =>
      cases pending with
      | none => exact List.isChain_nil
      | some pending => exact List.isChain_singleton _
  | cons extent rest inductionHypothesis =>
      cases pending with
      | none => exact inductionHypothesis (some extent)
      | some pending =>
          rw [slide]
          by_cases hole : pending.name = none
          · rw [if_pos hole]
            by_cases holeToo : extent.name = none
            · rw [if_pos holeToo]
              exact inductionHypothesis _
            · rw [if_neg holeToo]
              exact List.isChain_cons.mpr ⟨fun _ _ => holeToo, inductionHypothesis _⟩
          · rw [if_neg hole]
            exact List.isChain_cons.mpr ⟨fun _ _ => hole, inductionHypothesis _⟩

section Again

variable {s : State} {nodes done rest : List Node} {node : Node}

/-- At a block with no hole before it, an iteration only moves the cursor. -/
theorem compactBody_settled (represents : Represents s (done ++ node :: rest))
    (settled : Settled (extentsOf (done ++ node :: rest))) :
    compactBody ⟨some node.1, s.heap⟩ = .ok (.next ⟨firstAddress rest none, s.heap⟩) := by
  cases done using List.reverseRecOn with
  | nil =>
      have linked : Linked Extent.block s.heap (node :: rest) := represents.linked
      rcases compact_first (c := ⟨some node.1, s.heap⟩) linked rfl with ⟨swap, merge⟩
      exact compactBody_eq swap merge rfl linked.segment.1
  | append_singleton init last =>
      have linked := represents.linked
      rw [List.append_assoc, List.singleton_append] at linked settled
      have used : last.2.name ≠ none := by
        rw [Settled, extentsOf, List.map_append] at settled
        exact (List.isChain_cons_cons.mp (List.isChain_append.mp settled).2.1).1
      have swap := swapUnused_stays (c := ⟨some node.1, s.heap⟩) linked rfl (Or.inr used)
      have merge := mergeHoles_stays (c := ⟨some node.1, s.heap⟩) linked rfl
        (fun holes => used holes.1)
      exact compactBody_eq swap merge rfl linked.cell_next

/-- A compaction of a compacted list writes nothing. -/
theorem compactMemory_settled (represents : Represents s nodes)
    (settled : Settled (extentsOf nodes)) : compactMemory s = .ok s := by
  have moves : ∀ done node rest, nodes = done ++ node :: rest →
      compactBody ⟨some node.1, s.heap⟩ = .ok (.next ⟨firstAddress rest none, s.heap⟩) := by
    intro done node rest split
    subst split
    exact compactBody_settled represents settled
  have run := whileLoop_walk (·.cursor.isSome) compactBody (fun cursor => ⟨cursor, s.heap⟩)
    (fun _ => rfl) moves represents.linked.length_le_fresh
  rw [← represents.head] at run
  unfold compactMemory
  rw [run, ok_bind]
  rfl

end Again

/-- In every state that commands after `init` reach, a compaction packs the used
blocks and leaves one hole with all unused bytes, and a second one changes
nothing. -/
theorem compactMemory_exact (memSize : UInt64) (operations : List Operation) :
    ∃ first s compacted, init 2 (some memSize) State.zero = .ok (0, first) ∧
      performAll operations first = .ok s ∧ compactMemory s = .ok compacted ∧
      PackedFrom memSize (displayMemory s) (displayMemory compacted) ∧
      compactMemory compacted = .ok compacted := by
  obtain ⟨s, nodes, run, sameSize, measured⟩ := performAll_keeps Measured.perform
    (start_measured memSize) operations
  obtain ⟨compacted, changed, compact, _, _, represents, extents⟩ :=
    compactMemory_eq measured.represents measured.separated
  have tiled := measured.measured
  rw [sameSize] at tiled
  refine ⟨start memSize, s, compacted, init_eq memSize, run, compact, ?_, ?_⟩
  · rw [measured.represents.display, represents.display, extents]
    exact compactExtents_packed tiled
  · apply compactMemory_settled represents
    rw [extents]
    exact slide_settled none _

end OsProjects.Allocator
