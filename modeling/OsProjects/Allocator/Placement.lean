import OsProjects.Allocator.Packing
import OsProjects.Allocator.Reclaiming

/-!
Owns where a request is placed: each search loop realises its strategy, with the
first block in the list among equals, and the three loops find a block under the
same condition except at the ends of `size_t`.

`case 'B'` starts from the largest `size_t` and never chooses a block of that
length; `case 'W'` starts from `size - 1`, which wraps around for size 0.

Does not own how the chosen block is divided.
-/

namespace OsProjects.Allocator

open OsProjects.C

/-- Among the blocks `pre ++ hole :: post`, `hole` is the one that the strategy
prescribes for a request of `size` bytes. -/
def Prescribed (strategy : Char) (size : UInt64) (pre : List Extent) (hole : Extent)
    (post : List Extent) : Prop :=
  hole.name = none ∧ size ≤ hole.size ∧
    match strategy with
    | 'F' => ∀ block ∈ pre, block.name = none → block.size < size
    | 'B' =>
        (∀ block ∈ pre, block.name = none → size ≤ block.size → hole.size < block.size) ∧
        (∀ block ∈ post, block.name = none → size ≤ block.size → hole.size ≤ block.size)
    | 'W' =>
        (∀ block ∈ pre, block.name = none → block.size < hole.size) ∧
        (∀ block ∈ post, block.name = none → block.size ≤ hole.size)
    | _ => False

/-- The three strategies return the same, and 0 exactly when some unused block has
the length. -/
def StrategiesAgree (name : String) (size : UInt64) (s : State) : Prop :=
  ∃ code first best worst, requestMemory name size 'F' s = .ok (code, first) ∧
    requestMemory name size 'B' s = .ok (code, best) ∧
    requestMemory name size 'W' s = .ok (code, worst) ∧
    (code = 0 ↔ ∃ block ∈ displayMemory s, block.name = none ∧ size ≤ block.size)

variable {s : State} {nodes : List Node} {address : ℕ} {size : UInt64} {strategy : Char}

/-! ## The choice of a loop -/

theorem firstChoice_split (chosen : firstChoice size nodes = some address) :
    ∃ pre hole post, nodes = pre ++ (address, hole) :: post ∧ hole.name = none ∧
      size ≤ hole.size ∧ ∀ node ∈ pre, node.2.name = none → node.2.size < size := by
  obtain ⟨⟨_, hole⟩, found, rfl⟩ := Option.map_eq_some_iff.mp chosen
  obtain ⟨passes, pre, post, split, earlier⟩ := List.find?_eq_some_iff_append.mp found
  obtain ⟨unused, large⟩ := of_decide_eq_true passes
  refine ⟨pre, hole, post, split, unused, large, ?_⟩
  intro node member unusedToo
  have failed := earlier node member
  simpa [unusedToo] using failed

/-- What a test has to allow for when the loops move its bound to every block that
passes it. -/
structure Narrowing (passes : UInt64 → UInt64 → Bool) : Prop where
  trans : ∀ {first second bound}, passes first second → passes second bound → passes first bound
  beats : ∀ {first second third bound}, passes first second → passes third bound →
    ¬passes third second → passes first third

/-- The chosen block passes against every earlier block, and no later one passes
against it. -/
theorem bestChoice_split {passes : UInt64 → UInt64 → Bool} (narrowing : Narrowing passes)
    (bound : UInt64) (choice : Pointer) (nodes : List Node) :
    (bestChoice passes bound choice nodes = choice ∧
      ∀ node ∈ nodes, node.2.name = none → ¬passes node.2.size bound) ∨
    ∃ pre address hole post, bestChoice passes bound choice nodes = some address ∧
      nodes = pre ++ (address, hole) :: post ∧ hole.name = none ∧ passes hole.size bound ∧
      (∀ node ∈ pre, node.2.name = none → passes node.2.size bound →
        passes hole.size node.2.size) ∧
      ∀ node ∈ post, node.2.name = none → ¬passes node.2.size hole.size := by
  induction nodes generalizing bound choice with
  | nil => exact Or.inl ⟨rfl, by simp⟩
  | cons node rest inductionHypothesis =>
      obtain ⟨address, extent⟩ := node
      rw [bestChoice]
      by_cases chosen : extent.name = none ∧ passes extent.size bound
      · rw [if_pos chosen]
        right
        cases inductionHypothesis extent.size (some address) with
        | inl last => exact ⟨[], address, extent, rest, last.1, rfl, chosen.1, chosen.2, by simp,
            last.2⟩
        | inr better =>
            obtain ⟨pre, other, hole, post, result, rfl, unused, passed, earlier, later⟩ := better
            refine ⟨(address, extent) :: pre, other, hole, post, result, rfl, unused,
              narrowing.trans passed chosen.2,
              List.forall_mem_cons.mpr ⟨fun _ _ => passed, ?_⟩, later⟩
            intro node member unusedToo passedToo
            by_cases narrower : passes node.2.size extent.size
            · exact earlier node member unusedToo narrower
            · exact narrowing.beats passed passedToo narrower
      · rw [if_neg chosen]
        cases inductionHypothesis bound choice with
        | inl unchanged =>
            left
            refine ⟨unchanged.1, List.forall_mem_cons.mpr ⟨?_, unchanged.2⟩⟩
            exact fun unused passed => chosen ⟨unused, passed⟩
        | inr better =>
            obtain ⟨pre, other, hole, post, result, rfl, unused, passed, earlier, later⟩ := better
            right
            refine ⟨(address, extent) :: pre, other, hole, post, result, rfl, unused, passed,
              List.forall_mem_cons.mpr ⟨?_, earlier⟩, later⟩
            exact fun unusedToo passedToo => absurd ⟨unusedToo, passedToo⟩ chosen

theorem bestFit_narrowing (size : UInt64) :
    Narrowing fun holeSize minSize => size ≤ holeSize ∧ holeSize < minSize := by
  constructor
  · grind
  · grind

theorem worstFit_narrowing :
    Narrowing fun holeSize maxSize : UInt64 => decide (holeSize > maxSize) := by
  constructor
  · grind
  · grind

/-- What the `switch` chooses is what the strategy prescribes. -/
theorem strategyChoice_prescribed
    (chosen : strategyChoice size strategy nodes = some (some address)) :
    ∃ pre hole post, nodes = pre ++ (address, hole) :: post ∧
      Prescribed strategy size (extentsOf pre) hole (extentsOf post) := by
  unfold strategyChoice at chosen
  unfold Prescribed
  split at chosen
  · obtain ⟨pre, hole, post, split, unused, large, earlier⟩ :=
      firstChoice_split (Option.some.inj chosen)
    exact ⟨pre, hole, post, split, unused, large, List.forall_mem_map.mpr earlier⟩
  · have choice := bestChoice_split (bestFit_narrowing size) (-1) none nodes
    rw [Option.some.inj chosen] at choice
    obtain ⟨noChoice, _⟩ | ⟨pre, _, hole, post, same, split, unused, passed, earlier, later⟩ :=
      choice
    · cases noChoice
    · cases same
      simp only [decide_eq_true_eq] at passed earlier later
      refine ⟨pre, hole, post, split, unused, passed.1, List.forall_mem_map.mpr ?_,
        List.forall_mem_map.mpr ?_⟩
      · intro node member unusedToo large
        by_cases below : node.2.size < -1
        · exact (earlier node member unusedToo ⟨large, below⟩).2
        · -- a block of the greatest length is longer than the chosen one
          grind
      · intro node member unusedToo large
        have notBetter := later node member unusedToo
        grind
  · have choice := bestChoice_split worstFit_narrowing (size - 1) none nodes
    rw [Option.some.inj chosen] at choice
    obtain ⟨noChoice, _⟩ | ⟨pre, _, hole, post, same, split, unused, passed, earlier, later⟩ :=
      choice
    · cases noChoice
    · cases same
      simp only [decide_eq_true_eq] at passed earlier later
      refine ⟨pre, hole, post, split, unused, ?_, List.forall_mem_map.mpr ?_,
        List.forall_mem_map.mpr ?_⟩
      · exact @size_le_of_fits 'W' _ _ (by simpa [fits] using passed)
      · intro node member unusedToo
        by_cases above : node.2.size > size - 1
        · exact earlier node member unusedToo above
        · grind
      · intro node member unusedToo
        have notBetter := later node member unusedToo
        grind
  · cases chosen

/-! ## The placement -/

/-- A linked list has one place for an address. -/
theorem split_unique {pre post others more : List Node} {hole extent : Extent}
    (linked : Linked Extent.block s.heap (pre ++ (address, hole) :: post))
    (same : pre ++ (address, hole) :: post = others ++ (address, extent) :: more) :
    pre = others ∧ hole = extent ∧ post = more := by
  have notBefore : (address, extent) ∉ pre := fun member =>
    linked.not_mem_pre (List.mem_map_of_mem (f := Prod.fst) member)
  have notBehind : (address, extent) ∉ post := fun member =>
    linked.not_mem_post (List.mem_map_of_mem (f := Prod.fst) member)
  obtain ⟨samePre, sameNode, samePost⟩ :=
    (List.append_cons_inj_of_notMem notBefore notBehind).mp same
  exact ⟨samePre, (Prod.mk.inj sameNode).2, samePost⟩

/-- The blocks that stand for the hole after a granted request. -/
theorem occupy_eq (name : String) (size : UInt64) (hole : Extent) :
    occupy name size hole = ⟨hole.lo, hole.lo + size - 1, some name⟩ ::
      if hole.size = size then [] else [⟨hole.lo + size, hole.hi, none⟩] := by
  unfold occupy
  by_cases wholeHole : hole.size = size
  · have sameHi : hole.hi = hole.lo + size - 1 := by
      rw [← wholeHole, Extent.size]
      grind
    rw [if_pos wholeHole, if_pos wholeHole, sameHi]
  · rw [if_neg wholeHole, if_neg wholeHole]

/-- In a reachable state a request that returns 0 takes the block that its strategy
prescribes. The block is replaced by one for the process and an unused one with the
remaining bytes, and the other blocks stay. A request that does not return 0 leaves
the list as it is. -/
theorem requestMemory_placement {s : State} (reachable : Reachable s) (name : String)
    (size : UInt64) (strategy : Char) :
    ∃ code after, requestMemory name size strategy s = .ok (code, after) ∧
      (code ≠ 0 → displayMemory after = displayMemory s) ∧
      (code = 0 → ∃ pre hole post rest, displayMemory s = pre ++ hole :: post ∧
        Prescribed strategy size pre hole post ∧
        displayMemory after = pre ++ ⟨hole.lo, hole.lo + size - 1, some name⟩ :: rest ++ post ∧
        (hole.size = size → rest = []) ∧
        (hole.size ≠ size → ∃ extent : Extent, rest = [extent] ∧ extent.name = none ∧
          extent.lo = hole.lo + size ∧ extent.hi = hole.hi ∧
          extent.size = hole.size - size)) := by
  obtain ⟨nodes, consistent⟩ := reachable.consistent
  have represents := consistent.represents
  obtain ⟨code, failed, run, _⟩ | ⟨pre, address, hole, post, after, changed, rfl, chosen, _, _, run,
    _, representsAfter, extents⟩ := requestMemory_cases name size strategy represents
  · exact ⟨code, s, run, fun _ => rfl, fun granted => absurd granted failed⟩
  · obtain ⟨others, extent, more, split, prescribed⟩ := strategyChoice_prescribed chosen
    obtain ⟨rfl, rfl, rfl⟩ := split_unique represents.linked split
    refine ⟨0, after, run, fun failed => absurd rfl failed, fun _ => ?_⟩
    refine ⟨extentsOf pre, hole, extentsOf post,
      if hole.size = size then [] else [⟨hole.lo + size, hole.hi, none⟩], ?_, prescribed, ?_, ?_,
      ?_⟩
    · rw [represents.display, extentsOf, List.map_append, List.map_cons]
    · rw [representsAfter.display, extents, occupy_eq]
    · intro wholeHole
      rw [if_pos wholeHole]
    · intro part
      refine ⟨_, if_neg part, rfl, rfl, rfl, ?_⟩
      unfold Extent.size
      grind

/-- In a region of 100 bytes with two holes, P3 goes into the smaller one. -/
theorem requestMemory_placement_demo :
    ∃ s, Reachable s ∧
      displayMemory s = [⟨0, 29, none⟩, ⟨30, 79, some "P1"⟩, ⟨80, 99, none⟩] ∧
      ∃ code after, requestMemory "P3" 15 'B' s = .ok (code, after) ∧
        (code ≠ 0 → displayMemory after = displayMemory s) ∧
        (code = 0 → ∃ pre hole post rest, displayMemory s = pre ++ hole :: post ∧
          Prescribed 'B' 15 pre hole post ∧
          displayMemory after = pre ++ ⟨hole.lo, hole.lo + 15 - 1, some "P3"⟩ :: rest ++ post ∧
          (hole.size = 15 → rest = []) ∧
          (hole.size ≠ 15 → ∃ extent : Extent, rest = [extent] ∧ extent.name = none ∧
            extent.lo = hole.lo + 15 ∧ extent.hi = hole.hi ∧
            extent.size = hole.size - 15)) := by
  obtain ⟨s, nodes, run, _⟩ := (start_consistent 100).performAll
    [.request "P0" 30 'F', .request "P1" 50 'F', .release "P0"]
  have shown : (performAll [.request "P0" 30 'F', .request "P1" 50 'F', .release "P0"]
      (start 100)).toOption.map displayMemory =
        some [⟨0, 29, none⟩, ⟨30, 79, some "P1"⟩, ⟨80, 99, none⟩] := by
    decide +kernel
  rw [run] at shown
  have reachable : Reachable s := ⟨100, _, _, init_eq 100, run⟩
  exact ⟨s, reachable, Option.some.inj shown, requestMemory_placement reachable "P3" 15 'B'⟩

/-! ## When the strategies agree -/

/-- With one of the three strategies a request returns 0 when some unused block fits,
and -2 otherwise. -/
theorem requestMemory_code (size : UInt64) (represents : Represents s nodes) (name : String)
    (known : strategy = 'F' ∨ strategy = 'B' ∨ strategy = 'W') :
    ∃ after, requestMemory name size strategy s = .ok
      (if ∃ block ∈ displayMemory s, block.name = none ∧ fits strategy size block.size
        then 0 else -2, after) := by
  have isSome : ∃ choice, strategyChoice size strategy nodes = some choice := by
    obtain rfl | rfl | rfl := known
    · exact ⟨_, rfl⟩
    · exact ⟨_, rfl⟩
    · exact ⟨_, rfl⟩
  obtain ⟨choice, chosen⟩ := isSome
  rw [represents.display]
  cases choice with
  | none =>
      refine ⟨s, ?_⟩
      have nothing : ∀ address, strategyChoice size strategy nodes ≠ some (some address) := by
        simp [chosen]
      have full := strategyChoice_none nothing
      rw [if_neg fun ⟨block, member, suits⟩ => full block member suits]
      unfold requestMemory
      rw [selectHole_eq strategy represents, chosen]
      rfl
  | some address =>
      obtain ⟨hole, member, suits⟩ := strategyChoice_some chosen
      have inList : hole ∈ extentsOf nodes := List.mem_map_of_mem (f := Prod.snd) member
      obtain ⟨_, _, _, full⟩ | ⟨_, _, _, _, after, _, _, _, _, _, run, _⟩ :=
        requestMemory_cases name size strategy represents
      · exact absurd suits (full hole inList)
      · exact ⟨after, by rw [run, if_pos ⟨hole, inList, suits⟩]⟩

/-- First fit tests an unused block for its length only. -/
theorem fits_first (size holeSize : UInt64) : fits 'F' size holeSize ↔ size ≤ holeSize := by
  simp [fits]

theorem fits_best (size holeSize : UInt64) :
    fits 'B' size holeSize ↔ size ≤ holeSize ∧ holeSize ≠ -1 := by
  simp only [fits, decide_eq_true_eq]
  grind

theorem fits_worst (size holeSize : UInt64) :
    fits 'W' size holeSize ↔ size ≤ holeSize ∧ size ≠ 0 := by
  simp only [fits, decide_eq_true_eq]
  grind

/-- Three codes that are 0 or -2 agree when they are 0 under the same condition. -/
theorem StrategiesAgree.iff_conditions (represents : Represents s nodes) (name : String) :
    StrategiesAgree name size s ↔
      ∀ strategy, strategy = 'B' ∨ strategy = 'W' →
        (∃ block ∈ displayMemory s, block.name = none ∧ size ≤ block.size) →
          ∃ block ∈ displayMemory s, block.name = none ∧ fits strategy size block.size := by
  obtain ⟨first, runFirst⟩ := requestMemory_code size represents name (.inl rfl)
  obtain ⟨best, runBest⟩ := requestMemory_code size represents name (.inr (.inl rfl))
  obtain ⟨worst, runWorst⟩ := requestMemory_code size represents name (.inr (.inr rfl))
  simp only [fits_first] at runFirst
  constructor
  · rintro ⟨code, _, _, _, first, best, worst, zero⟩ strategy known available
    rw [zero.mpr available] at best worst
    obtain rfl | rfl := known
    · rw [runBest] at best
      by_contra full
      rw [if_neg full] at best
      cases best
    · rw [runWorst] at worst
      by_contra full
      rw [if_neg full] at worst
      cases worst
  · intro conditions
    by_cases available : ∃ block ∈ displayMemory s, block.name = none ∧ size ≤ block.size
    · rw [if_pos available] at runFirst
      rw [if_pos (conditions 'B' (.inl rfl) available)] at runBest
      rw [if_pos (conditions 'W' (.inr rfl) available)] at runWorst
      exact ⟨0, first, best, worst, runFirst, runBest, runWorst, iff_of_true rfl available⟩
    · have full : ∀ strategy, ¬∃ block ∈ displayMemory s, block.name = none ∧
          fits strategy size block.size := by
        rintro strategy ⟨block, member, unused, suits⟩
        exact available ⟨block, member, unused, size_le_of_fits suits⟩
      rw [if_neg available] at runFirst
      rw [if_neg (full 'B')] at runBest
      rw [if_neg (full 'W')] at runWorst
      exact ⟨-2, first, best, worst, runFirst, runBest, runWorst,
        iff_of_false (by decide) available⟩

/-- In a reachable state the three strategies agree exactly when a request of size 0
meets no unused block, and a block of the greatest length is not the only one that
is large enough. -/
theorem strategies_agree_iff {s : State} (reachable : Reachable s) (name : String)
    (size : UInt64) :
    StrategiesAgree name size s ↔
      (size = 0 → ∀ block ∈ displayMemory s, block.name ≠ none) ∧
      ((∃ block ∈ displayMemory s, block.name = none ∧ size ≤ block.size) →
        ∃ block ∈ displayMemory s, block.name = none ∧ size ≤ block.size ∧ block.size ≠ -1) := by
  obtain ⟨nodes, consistent⟩ := reachable.consistent
  rw [StrategiesAgree.iff_conditions consistent.represents]
  constructor
  · intro conditions
    constructor
    · intro zero block member unused
      subst zero
      obtain ⟨_, _, _, suits⟩ :=
        conditions 'W' (.inr rfl) ⟨block, member, unused, UInt64.zero_le⟩
      exact ((fits_worst _ _).mp suits).2 rfl
    · intro available
      simpa only [fits_best] using conditions 'B' (.inl rfl) available
  · rintro ⟨zeroMeetsNone, greatestNotAlone⟩ strategy known available
    obtain rfl | rfl := known
    · simpa only [fits_best] using greatestNotAlone available
    · obtain ⟨block, member, unused, large⟩ := available
      have positive : size ≠ 0 := fun zero => zeroMeetsNone zero block member unused
      exact ⟨block, member, unused, (fits_worst _ _).mpr ⟨large, positive⟩⟩

/-- With 100 unused bytes and a request of 30, the strategies agree. -/
theorem strategies_agree_iff_demo :
    StrategiesAgree "P0" 30 (start 100) ↔
      ((30 : UInt64) = 0 → ∀ block ∈ displayMemory (start 100), block.name ≠ none) ∧
      ((∃ block ∈ displayMemory (start 100), block.name = none ∧ 30 ≤ block.size) →
        ∃ block ∈ displayMemory (start 100), block.name = none ∧ 30 ≤ block.size ∧
          block.size ≠ -1) :=
  strategies_agree_iff ⟨100, [], _, init_eq 100, rfl⟩ "P0" 30

/-- For size 0 'F' takes the first unused block, and 'W' finds none. -/
theorem zero_request_disagrees :
    Reachable (start 100) ∧ ¬StrategiesAgree "P0" 0 (start 100) := by
  refine ⟨⟨100, [], _, init_eq 100, rfl⟩, ?_⟩
  rintro ⟨code, _, _, _, first, _, worst, _⟩
  have codes : (requestMemory "P0" 0 'F' (start 100)).toOption.map Prod.fst = some 0 ∧
      (requestMemory "P0" 0 'W' (start 100)).toOption.map Prod.fst = some (-2) := by
    decide +kernel
  rw [first, worst] at codes
  cases (Option.some.inj codes.1).symm.trans (Option.some.inj codes.2)

end OsProjects.Allocator
