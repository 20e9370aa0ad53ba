import Mathlib.Algebra.Group.Nat.Defs
import OsProjects.Allocator.Run

/-!
Owns the bytes of the region: when the blocks are non-empty, disjoint stretches
inside it, and when a granted request gets exactly the bytes it asked for.

All of this holds in a run as long as no request of size 0 is granted. Such a
request leaves a block from `lo` to `lo - 1`, in the arithmetic of `size_t`. The
sizes of a run are sound when the strategies that would grant it find no block
for it.

Does not own the pointers.
-/

namespace OsProjects.Allocator

open OsProjects.C

/-- The extents with an owner. -/
def usedExtents (extents : List Extent) : List Extent :=
  extents.filter (·.name.isSome)

/-- Every block is a non-empty stretch of the region, and no byte is in two. -/
structure InRegion (s : State) : Prop where
  bounds : ∀ block ∈ displayMemory s, block.lo ≤ block.hi ∧ block.hi < s.memSize
  disjoint : (displayMemory s).Pairwise fun first second =>
    ∀ byte, ¬((first.lo ≤ byte ∧ byte ≤ first.hi) ∧ (second.lo ≤ byte ∧ byte ≤ second.hi))

/-- One block of `size` bytes has been added under the name, and the other used
blocks are as they were. -/
def AddsBlock (name : String) (size : UInt64) (s after : State) : Prop :=
  ∃ before behind added, usedExtents (displayMemory s) = before ++ behind ∧
    usedExtents (displayMemory after) = before ++ added :: behind ∧
    added.name = some name ∧ added.lo.toNat + size.toNat = added.hi.toNat + 1

/-- What is asked of one command: a request that returns 0 has added its block. -/
def Serves (operation : Operation) (code : Int) (s after : State) : Prop :=
  match operation with
  | .request name size _ => code = 0 → AddsBlock name size s after
  | _ => True

/-- Along the run, every state keeps its blocks in the region and every granted
request gets its bytes. -/
def RunSafe : List Operation → State → Prop
  | [], s => InRegion s
  | operation :: rest, s =>
      InRegion s ∧ ∃ code after, perform operation s = .ok (code, after) ∧
        Serves operation code s after ∧ RunSafe rest after

/-- A request of size 0 finds no block: with 'F' every block is used, with 'B' every
unused block has 2^64 - 1 bytes. -/
def SizeSound (operation : Operation) (s : State) : Prop :=
  match operation with
  | .request _ size strategy => size = 0 →
      (strategy = 'F' → ∀ block ∈ displayMemory s, block.name ≠ none) ∧
      (strategy = 'B' → ∀ block ∈ displayMemory s, block.name = none → block.size = -1)
  | _ => True

/-- Along the run, every command has a sound size where it is given. -/
def SizesSound : List Operation → State → Prop
  | [], _ => True
  | operation :: rest, s => SizeSound operation s ∧
      ∀ code after, perform operation s = .ok (code, after) → SizesSound rest after

/-! ## What `display_memory` shows -/

theorem displayFrom_eq {heap : Heap MemBlock} {before : Pointer} {nodes : List Node} {fuel : ℕ}
    (segment : Segment Extent.block heap before nodes none) (enough : nodes.length ≤ fuel) :
    displayFrom heap fuel (firstAddress nodes none) = extentsOf nodes := by
  induction nodes generalizing before fuel with
  | nil => cases fuel <;> rfl
  | cons node rest inductionHypothesis =>
      obtain ⟨cell, others⟩ := segment
      cases fuel with
      | zero => simp at enough
      | succ fuel =>
          have tail := inductionHypothesis others (Nat.le_of_succ_le_succ enough)
          simp only [firstAddress, displayFrom, cell, List.map_cons]
          exact congrArg _ tail

theorem Represents.display {s : State} {nodes : List Node} (represents : Represents s nodes) :
    displayMemory s = extentsOf nodes := by
  unfold displayMemory
  rw [represents.head]
  exact displayFrom_eq represents.linked.segment represents.linked.length_le_fresh

/-! ## Tiling without wrap-around -/

/-- The extent is non-empty and reaches from `start` to just before `finish`. -/
def PlainTile (extent : Extent) (start finish : ℕ) : Prop :=
  extent.lo.toNat = start ∧ start ≤ extent.hi.toNat ∧ extent.hi.toNat + 1 = finish

theorem plainTile_rules : TileRules PlainTile := by
  constructor
  · intro extent start finish name reaches
    exact reaches
  · intro first second start middle finish one two
    obtain ⟨oneLo, oneLe, oneHi⟩ := one
    obtain ⟨twoLo, twoLe, twoHi⟩ := two
    refine ⟨oneLo, ?_, twoHi⟩
    show start ≤ second.hi.toNat
    omega
  · intro first second start middle finish one two
    obtain ⟨oneLo, oneLe, oneHi⟩ := one
    obtain ⟨twoLo, twoLe, twoHi⟩ := two
    have hiBelow := second.hi.toNat_lt
    have width : (second.hi - second.lo).toNat = second.hi.toNat - second.lo.toNat := by
      rw [UInt64.toNat_sub]
      omega
    have edge : (first.lo + (second.hi - second.lo)).toNat =
        first.lo.toNat + (second.hi.toNat - second.lo.toNat) := by
      rw [UInt64.toNat_add, width]
      omega
    have behind : (first.lo + (second.hi - second.lo) + 1).toNat =
        first.lo.toNat + (second.hi.toNat - second.lo.toNat) + 1 := by
      rw [UInt64.toNat_add, edge, UInt64.toNat_one]
      omega
    refine ⟨_, ⟨oneLo, ?_, rfl⟩, ?_, ?_, twoHi⟩
    · rw [edge]
      omega
    · rw [behind, edge]
    · show (first.lo + (second.hi - second.lo)).toNat + 1 ≤ second.hi.toNat
      omega

section Plain

variable {start finish : ℕ} {extents pre post : List Extent} {hole : Extent}
variable {size : UInt64}

theorem plainTile_le (tiled : Tiled PlainTile start finish extents) : start ≤ finish := by
  induction extents generalizing start with
  | nil => exact le_of_eq tiled
  | cons extent rest inductionHypothesis =>
      obtain ⟨middle, ⟨_, nonempty, reaches⟩, others⟩ := tiled
      have behind := inductionHypothesis others
      omega

/-- The size of a tile is what it reaches over. -/
theorem plainTile_size (reaches : PlainTile hole start finish) (below : finish < 2 ^ 64) :
    hole.size.toNat = finish - start := by
  obtain ⟨lo, le, hi⟩ := reaches
  unfold Extent.size
  rw [UInt64.toNat_add, UInt64.toNat_sub, UInt64.toNat_one]
  omega

/-- The requested bytes at the start of a tile that is large enough. -/
theorem plainTile_taken (reaches : PlainTile hole start finish) (below : finish < 2 ^ 64)
    (positive : size ≠ 0) (large : size ≤ hole.size) :
    (hole.lo + size).toNat = start + size.toNat ∧
      (hole.lo + size - 1).toNat = start + size.toNat - 1 ∧
      0 < size.toNat ∧ start + size.toNat ≤ finish := by
  have width := plainTile_size reaches below
  obtain ⟨lo, le, hi⟩ := reaches
  have large := UInt64.le_iff_toNat_le.mp large
  have sizePositive : 0 < size.toNat := by
    rw [Nat.pos_iff_ne_zero]
    intro zero
    exact positive (UInt64.toNat_inj.mp zero)
  have edge : (hole.lo + size).toNat = start + size.toNat := by
    rw [UInt64.toNat_add, lo]
    omega
  refine ⟨edge, ?_, sizePositive, by omega⟩
  rw [UInt64.toNat_sub, edge, UInt64.toNat_one]
  omega

theorem plainTile_occupy (name : String) (reaches : PlainTile hole start finish)
    (below : finish < 2 ^ 64) (positive : size ≠ 0) (large : size ≤ hole.size) :
    Tiled PlainTile start finish (occupy name size hole) := by
  rcases plainTile_taken reaches below positive large with ⟨edge, last, sizePositive, le⟩
  have width := plainTile_size reaches below
  unfold occupy
  by_cases wholeHole : hole.size = size
  · rw [if_pos wholeHole]
    exact ⟨finish, reaches, rfl⟩
  · rw [if_neg wholeHole]
    have smaller : size.toNat ≠ hole.size.toNat :=
      fun same => wholeHole (UInt64.toNat_inj.mp same.symm)
    obtain ⟨lo, nonempty, hi⟩ := reaches
    refine ⟨start + size.toNat, ⟨lo, ?_, ?_⟩, finish, ⟨edge, ?_, hi⟩, rfl⟩
    · show start ≤ (hole.lo + size - 1).toNat
      omega
    · show (hole.lo + size - 1).toNat + 1 = start + size.toNat
      omega
    · show start + size.toNat ≤ hole.hi.toNat
      omega

/-- The tiles of a region stay inside it. -/
theorem plainTile_bounds (tiled : Tiled PlainTile start finish extents) :
    ∀ extent ∈ extents, start ≤ extent.lo.toNat ∧ extent.lo.toNat ≤ extent.hi.toNat ∧
      extent.hi.toNat < finish := by
  intro extent member
  rcases List.append_of_mem member with ⟨pre, post, rfl⟩
  obtain ⟨first, last, before, ⟨lo, le, hi⟩, behind⟩ := tiled.split
  have startLe := plainTile_le before
  have finishLe := plainTile_le behind
  omega

/-- Every tile ends before the next ones start. -/
theorem plainTile_ordered (tiled : Tiled PlainTile start finish extents) :
    extents.Pairwise fun first second => first.hi.toNat < second.lo.toNat := by
  induction extents generalizing start with
  | nil => exact List.Pairwise.nil
  | cons extent rest inductionHypothesis =>
      obtain ⟨middle, ⟨lo, le, hi⟩, others⟩ := tiled
      refine List.Pairwise.cons ?_ (inductionHypothesis others)
      intro other member
      have behind := (plainTile_bounds others other member).1
      omega

end Plain

/-! ## One command -/

/-- A consistent state whose extents tile the region without wrap-around. -/
structure Solid (s : State) (nodes : List Node) : Prop extends Consistent s nodes where
  plain : Tiled PlainTile 0 s.memSize.toNat (extentsOf nodes)

section Commands

variable {s : State} {nodes : List Node} {name : String} {size : UInt64} {strategy : Char}

theorem Solid.inRegion (solid : Solid s nodes) : InRegion s := by
  constructor
  · intro block member
    rw [solid.represents.display] at member
    rcases plainTile_bounds solid.plain block member with ⟨_, nonempty, below⟩
    exact ⟨UInt64.le_iff_toNat_le.mpr nonempty, UInt64.lt_iff_toNat_lt.mpr below⟩
  · rw [solid.represents.display]
    refine (plainTile_ordered solid.plain).imp ?_
    intro first second ordered byte both
    obtain ⟨⟨_, last⟩, ⟨start, _⟩⟩ := both
    have last := UInt64.le_iff_toNat_le.mp last
    have start := UInt64.le_iff_toNat_le.mp start
    omega

theorem start_solid {memSize : UInt64} (positive : memSize ≠ 0) :
    Solid (start memSize) [(0, ⟨0, memSize - 1, none⟩)] := by
  have below := memSize.toNat_lt
  have sizePositive : 0 < memSize.toNat := by
    rw [Nat.pos_iff_ne_zero]
    intro zero
    exact positive (UInt64.toNat_inj.mp zero)
  refine ⟨start_consistent memSize, memSize.toNat, ⟨rfl, Nat.zero_le _, ?_⟩, rfl⟩
  show (memSize - 1).toNat + 1 = memSize.toNat
  rw [UInt64.toNat_sub, UInt64.toNat_one]
  omega

/-- A hole that is chosen for a request is as large as the request. -/
theorem fits_le {holeSize : UInt64} (chosen : fits strategy size holeSize) (positive : size ≠ 0) :
    size ≤ holeSize := by
  unfold fits at chosen
  split at chosen
  · simpa using chosen
  · simp only [Bool.decide_and, Bool.and_eq_true, decide_eq_true_eq] at chosen
    exact chosen.1
  · have above : size - 1 < holeSize := by simpa using chosen
    have above := UInt64.lt_iff_toNat_lt.mp above
    have sizePositive : size.toNat ≠ 0 := fun zero => positive (UInt64.toNat_inj.mp zero)
    have sizeBelow := size.toNat_lt
    rw [UInt64.toNat_sub, UInt64.toNat_one] at above
    apply UInt64.le_iff_toNat_le.mpr
    omega
  · cases chosen

/-- What a granted request leaves when its size is not 0: one more block of exactly
the requested bytes. -/
theorem addsBlock_occupy {pre post : List Extent} {hole : Extent} {finish : ℕ} {after : State}
    (before : displayMemory s = pre ++ hole :: post)
    (behind : displayMemory after = pre ++ occupy name size hole ++ post)
    (unused : hole.name = none) (plain : Tiled PlainTile 0 finish (pre ++ hole :: post))
    (below : finish < 2 ^ 64) (positive : size ≠ 0) (large : size ≤ hole.size) :
    AddsBlock name size s after := by
  obtain ⟨first, last, _, reaches, rest⟩ := plain.split
  have lastBelow : last < 2 ^ 64 := (plainTile_le rest).trans_lt below
  rcases plainTile_taken reaches lastBelow positive large with ⟨_, taken, sizePositive, _⟩
  have width := plainTile_size reaches lastBelow
  obtain ⟨lo, nonempty, hi⟩ := reaches
  rw [AddsBlock, before, behind]
  unfold occupy
  by_cases wholeHole : hole.size = size
  · refine ⟨usedExtents pre, usedExtents post, ⟨hole.lo, hole.hi, some name⟩, ?_, ?_, rfl, ?_⟩
    · simp [usedExtents, unused]
    · simp [usedExtents, wholeHole]
    · show hole.lo.toNat + size.toNat = hole.hi.toNat + 1
      rw [← wholeHole]
      omega
  · refine ⟨usedExtents pre, usedExtents post, ⟨hole.lo, hole.lo + size - 1, some name⟩, ?_, ?_,
      rfl, ?_⟩
    · simp [usedExtents, unused]
    · simp [usedExtents, wholeHole]
    · show hole.lo.toNat + size.toNat = (hole.lo + size - 1).toNat + 1
      omega

/-- No strategy grants a request of size 0 where its size is sound. -/
theorem positive_of_fits {hole : Extent} (sound : SizeSound (.request name size strategy) s)
    (member : hole ∈ displayMemory s) (unused : hole.name = none)
    (chosen : fits strategy size hole.size) : size ≠ 0 := by
  intro zero
  rcases sound zero with ⟨first, best⟩
  subst zero
  unfold fits at chosen
  split at chosen
  · exact first rfl hole member unused
  · rw [best rfl hole member unused] at chosen
    exact absurd chosen (by decide)
  · have above : -1 < hole.size := by simpa using chosen
    have above := UInt64.lt_iff_toNat_lt.mp above
    have sizeBelow := hole.size.toNat_lt
    have largest : (-1 : UInt64).toNat = 2 ^ 64 - 1 := by decide
    omega
  · cases chosen

theorem ListStep.serves {operation : Operation} {code : Int} {before behind : List Extent}
    {finish : ℕ} {after : State} (step : ListStep operation code before behind)
    (display : displayMemory s = before) (displayAfter : displayMemory after = behind)
    (plain : Tiled PlainTile 0 finish before) (below : finish < 2 ^ 64)
    (sound : SizeSound operation s) : Serves operation code s after := by
  cases step with
  | refuse failed _ =>
      intro granted
      exact absurd granted failed
  | grant unused chosen =>
      intro _
      have positive := positive_of_fits sound (by simp [display]) unused chosen
      exact addsBlock_occupy display displayAfter unused plain below positive
        (fits_le chosen positive)
  | release => trivial
  | compact => trivial

/-- A command of sound size keeps the blocks in the region. -/
theorem Solid.perform (solid : Solid s nodes) {operation : Operation}
    (sound : SizeSound operation s) :
    ∃ code after changed, perform operation s = .ok (code, after) ∧
      Serves operation code s after ∧ Solid after changed := by
  obtain ⟨code, after, changed, run, sameSize, consistent, step⟩ :=
    solid.toConsistent.perform operation
  have below := s.memSize.toNat_lt
  have display := solid.represents.display
  refine ⟨code, after, changed, run, ?_, consistent, ?_⟩
  · exact step.serves display consistent.represents.display solid.plain below sound
  · rw [sameSize]
    refine step.tiled plainTile_rules ?_ solid.plain
    intro name size strategy pre hole post first last isRequest split unused chosen reaches rest
    subst isRequest
    have member : hole ∈ displayMemory s := by
      rw [display, split]
      simp
    have positive := positive_of_fits sound member unused chosen
    exact plainTile_occupy name reaches ((plainTile_le rest).trans_lt below) positive
      (fits_le chosen positive)

/-- A request whose size is not sound finds a hole. -/
theorem fits_of_not_sound {operation : Operation} (unsound : ¬SizeSound operation s) :
    ∃ name strategy, operation = .request name 0 strategy ∧
      ∃ block ∈ displayMemory s, block.name = none ∧ fits strategy 0 block.size := by
  cases operation with
  | release name => exact absurd trivial unsound
  | compact => exact absurd trivial unsound
  | request name size strategy =>
      simp only [SizeSound, Classical.not_imp, not_and_or] at unsound
      obtain ⟨zero, found⟩ := unsound
      subst zero
      refine ⟨name, strategy, rfl, ?_⟩
      push Not at found
      cases found with
      | inl first =>
          obtain ⟨isFirst, block, member, unused⟩ := first
          subst isFirst
          exact ⟨block, member, unused, by simp [fits]⟩
      | inr best =>
          obtain ⟨isBest, block, member, unused, notLargest⟩ := best
          subst isBest
          refine ⟨block, member, unused, ?_⟩
          have below := block.size.toNat_lt
          have different : block.size.toNat ≠ (-1 : UInt64).toNat :=
            fun same => notLargest (UInt64.toNat_inj.mp same)
          have largest : (-1 : UInt64).toNat = 2 ^ 64 - 1 := by decide
          simp only [fits, Bool.decide_and, Bool.and_eq_true, decide_eq_true_eq,
            UInt64.le_iff_toNat_le, UInt64.lt_iff_toNat_lt, UInt64.toNat_zero]
          omega

/-- A request whose size is not sound is granted, and leaves a block outside the
region or without a byte. -/
theorem Solid.leaves (solid : Solid s nodes) {operation : Operation}
    (unsound : ¬SizeSound operation s) :
    ∃ code after, Allocator.perform operation s = .ok (code, after) ∧ ¬InRegion after := by
  rcases fits_of_not_sound unsound with ⟨name, strategy, rfl, block, member, unused, large⟩
  obtain ⟨code, after, changed, run, sameSize, consistent, step⟩ :=
    solid.toConsistent.perform (.request name 0 strategy)
  refine ⟨code, after, run, ?_⟩
  intro inRegion
  have plain := solid.plain
  have bounds := inRegion.bounds
  rw [consistent.represents.display] at bounds
  rw [solid.represents.display] at member
  generalize extentsOf nodes = before at step plain member
  generalize extentsOf changed = behind at step bounds
  cases step with
  | refuse _ full => exact full block member ⟨unused, large⟩
  | grant unused chosen =>
      rename_i pre post hole
      obtain ⟨first, last, _, reaches, rest⟩ := plain.split
      have width := plainTile_size reaches ((plainTile_le rest).trans_lt s.memSize.toNat_lt)
      have nonempty : hole.size ≠ 0 := by
        intro zero
        rw [zero, UInt64.toNat_zero] at width
        obtain ⟨lo, le, hi⟩ := reaches
        omega
      obtain ⟨ordered, inside⟩ := bounds ⟨hole.lo, hole.lo + 0 - 1, some name⟩ (by
        simp [occupy, nonempty])
      have ordered := UInt64.le_iff_toNat_le.mp ordered
      have inside := UInt64.lt_iff_toNat_lt.mp inside
      have loBelow := hole.lo.toNat_lt
      have sizeBelow := after.memSize.toNat_lt
      simp only [UInt64.add_zero, UInt64.toNat_sub, UInt64.toNat_one] at ordered inside
      omega

end Commands

/-! ## Runs -/

/-- From a solid state on, a run is safe exactly when its sizes are sound. -/
theorem Solid.runSafe_iff {s : State} {nodes : List Node} (solid : Solid s nodes)
    (operations : List Operation) : RunSafe operations s ↔ SizesSound operations s := by
  induction operations generalizing s nodes with
  | nil => exact ⟨fun _ => trivial, fun _ => solid.inRegion⟩
  | cons operation rest inductionHypothesis =>
      by_cases sound : SizeSound operation s
      · rcases solid.perform sound with ⟨code, after, changed, run, serves, solidAfter⟩
        have rest := inductionHypothesis solidAfter
        constructor
        · intro safe
          obtain ⟨_, otherCode, otherAfter, otherRun, _, restSafe⟩ := safe
          rw [run] at otherRun
          cases otherRun
          refine ⟨sound, ?_⟩
          intro otherCode otherAfter otherRun
          rw [run] at otherRun
          cases otherRun
          exact rest.mp restSafe
        · intro sizes
          exact ⟨solid.inRegion, code, after, run, serves, rest.mpr (sizes.2 code after run)⟩
      · rcases solid.leaves sound with ⟨code, after, run, outside⟩
        constructor
        · intro safe
          obtain ⟨_, otherCode, otherAfter, otherRun, _, restSafe⟩ := safe
          rw [run] at otherRun
          cases otherRun
          cases rest with
          | nil => exact absurd restSafe outside
          | cons next more => exact absurd restSafe.1 outside
        · intro sizes
          exact absurd sizes.1 sound

/-- After `init` with at least one byte, a run keeps its blocks in the region, and
serves its requests exactly, if and only if its sizes are sound. -/
theorem run_safe_iff_sizes_sound {memSize : UInt64} (positive : 1 ≤ memSize)
    (operations : List Operation) :
    ∃ first, init 2 (some memSize) State.zero = .ok (0, first) ∧
      (RunSafe operations first ↔ SizesSound operations first) := by
  refine ⟨start memSize, init_eq memSize, (start_solid ?_).runSafe_iff operations⟩
  intro zero
  rw [zero] at positive
  exact absurd positive (by decide)

/-- `RQ P0 10 F`, `RQ P1 0 W` and `C` in a region of 100 bytes. -/
theorem run_safe_iff_sizes_sound_demo :
    ∃ first, init 2 (some 100) State.zero = .ok (0, first) ∧
      (RunSafe [.request "P0" 10 'F', .request "P1" 0 'W', .compact] first ↔
        SizesSound [.request "P0" 10 'F', .request "P1" 0 'W', .compact] first) :=
  run_safe_iff_sizes_sound (by decide) _

/-- `RQ P0 0 F` in a region of 100 bytes is granted, as a block from 0 to 2^64 - 1. -/
theorem zero_request_leaves_region :
    ∃ first, init 2 (some 100) State.zero = .ok (0, first) ∧
      ¬RunSafe [.request "P0" 0 'F'] first := by
  refine ⟨start 100, init_eq 100, ?_⟩
  intro safe
  obtain ⟨_, code, after, run, _, inRegion⟩ := safe
  have shown : (perform (.request "P0" 0 'F') (start 100)).toOption.map (fun result =>
      (result.2.memSize, displayMemory result.2)) =
        some (100, [⟨0, 18446744073709551615, some "P0"⟩, ⟨0, 99, none⟩]) := by
    decide +kernel
  rw [run] at shown
  rcases Prod.mk.inj (Option.some.inj shown) with ⟨size, display⟩
  have outside := (inRegion.bounds ⟨0, 18446744073709551615, some "P0"⟩ (by simp [display])).2
  rw [size] at outside
  exact absurd outside (by decide)

end OsProjects.Allocator
