import OsProjects.Allocator.Packing
import OsProjects.Allocator.Reclaiming

/-!
Owns that the order of releases does not matter, and that compactions between
them do not matter either when one comes last.

Releases one after the other leave the list that one pass over it leaves which
clears all the names at once. A compaction leaves a list that is determined by
the used blocks, their lengths, and whether there was a hole; releases and
compactions change this content without regard to where the blocks lie.

Does not own what a single release or compaction does.
-/

namespace OsProjects.Allocator

open OsProjects.C

/-- The extent after the blocks with one of the names have been given up. -/
def Extent.clearAll (names : List String) (extent : Extent) : Extent :=
  if extent.name ∈ names.map some then { extent with name := none } else extent

/-- The names that the commands release. -/
def releasedNames : List Operation → List String
  | [] => []
  | .request _ _ _ :: rest => releasedNames rest
  | .release name :: rest => name :: releasedNames rest
  | .compact :: rest => releasedNames rest

/-- The command is a release or a compaction. -/
def Operation.Frees : Operation → Prop
  | .request _ _ _ => False
  | .release _ => True
  | .compact => True

variable {names others : List String} {name : String} {extents : List Extent} {extent : Extent}

/-! ## Clearing several names -/

theorem clearAll_unused (names : List String) (unused : extent.name = none) :
    extent.clearAll names = extent := by
  unfold Extent.clearAll
  rw [if_neg (by simp [unused])]

theorem map_clearAll_nil (extents : List Extent) :
    extents.map (Extent.clearAll []) = extents := by
  have same : Extent.clearAll [] = id := by
    funext extent
    simp [Extent.clearAll]
  rw [same, List.map_id]

theorem map_clear_clearAll (name : String) (names : List String) (extents : List Extent) :
    (extents.map (Extent.clear name)).map (Extent.clearAll names) =
      extents.map (Extent.clearAll (name :: names)) := by
  rw [List.map_map]
  apply List.map_congr_left
  intro extent _
  show (extent.clear name).clearAll names = extent.clearAll (name :: names)
  unfold Extent.clear
  by_cases carries : extent.name = some name
  · rw [if_pos carries, clearAll_unused names rfl]
    simp [Extent.clearAll, carries]
  · rw [if_neg carries]
    simp [Extent.clearAll, carries]

/-- Only the names that some block carries count. -/
theorem map_clearAll_congr
    (same : ∀ extent ∈ extents, ∀ name, extent.name = some name → (name ∈ names ↔ name ∈ others)) :
    extents.map (Extent.clearAll names) = extents.map (Extent.clearAll others) := by
  apply List.map_congr_left
  intro extent member
  unfold Extent.clearAll
  cases owner : extent.name with
  | none => simp
  | some name => simp [same extent member name owner]

/-! ## Releases only -/

/-- A list is coalesced behind its first extent, whatever is pending before it. -/
theorem coalesce_cons_congr {rest more : List Extent}
    (agree : ∀ pending, coalesce pending rest = coalesce pending more)
    (pending : Option Extent) (extent : Extent) :
    coalesce pending (extent :: rest) = coalesce pending (extent :: more) := by
  cases pending with
  | none => exact agree (some extent)
  | some pending => rw [coalesce, coalesce, agree, agree]

/-- Holes that are joined early would be joined by the next pass in any case. -/
theorem coalesce_again (names : List String) (before pending : Option Extent)
    (extents : List Extent) :
    coalesce before ((coalesce pending extents).map (Extent.clearAll names)) =
      coalesce before ((pending.toList ++ extents).map (Extent.clearAll names)) := by
  induction extents generalizing before pending with
  | nil =>
      cases pending with
      | none => rfl
      | some pending => rfl
  | cons extent rest inductionHypothesis =>
      cases pending with
      | none => exact inductionHypothesis before (some extent)
      | some pending =>
          rw [coalesce, Option.toList_some, List.singleton_append, List.map_cons, List.map_cons]
          by_cases holes : pending.name = none ∧ extent.name = none
          · rw [if_pos holes, inductionHypothesis, Option.toList_some, List.singleton_append,
              List.map_cons, clearAll_unused names holes.1, clearAll_unused names holes.2,
              clearAll_unused names rfl]
            exact (@coalesce_pair [] _ _ _ holes.1 holes.2 before).symm
          · rw [if_neg holes, List.map_cons]
            exact coalesce_cons_congr (fun before => inductionHypothesis before (some extent)) _ _

theorem ListStep.release_eq {code : Int} {before after : List Extent}
    (step : ListStep (.release name) code before after) : after = releaseExtents name before := by
  cases step
  rfl

theorem ListStep.compact_eq {code : Int} {before after : List Extent}
    (step : ListStep .compact code before after) : after = compactExtents before := by
  cases step
  rfl

/-- Releases one after the other are one pass that clears all the names. -/
theorem releases_eq {s : State} {nodes : List Node} (consistent : Consistent s nodes)
    (names : List String) :
    ∃ after, performAll (names.map .release) s = .ok after ∧ displayMemory after =
      coalesce none ((displayMemory s).map (Extent.clearAll names)) := by
  induction names generalizing s nodes with
  | nil =>
      refine ⟨s, rfl, ?_⟩
      rw [map_clearAll_nil, consistent.represents.display]
      exact (coalesce_separated none consistent.separated).symm
  | cons name rest inductionHypothesis =>
      obtain ⟨code, middle, between, run, _, consistentBetween, step⟩ :=
        consistent.perform (.release name)
      obtain ⟨after, more, display⟩ := inductionHypothesis consistentBetween
      refine ⟨after, ?_, ?_⟩
      · simp only [List.map_cons, performAll, run, ok_bind, more]
      · rw [display, consistentBetween.represents.display, step.release_eq, releaseExtents,
          coalesce_again, Option.toList_none, List.nil_append, map_clear_clearAll,
          consistent.represents.display]

/-! ## What releases and compactions keep -/

/-- The two lists have used blocks with the same labels, and both or neither have a
hole. -/
def SameContent (extents more : List Extent) : Prop :=
  (usedExtents extents).map Extent.label = (usedExtents more).map Extent.label ∧
    (unusedExtents extents = [] ↔ unusedExtents more = [])

namespace SameContent

variable {first second third : List Extent}

theorem symm (same : SameContent first second) : SameContent second first :=
  ⟨same.1.symm, same.2.symm⟩

theorem trans (same : SameContent first second) (sameToo : SameContent second third) :
    SameContent first third :=
  ⟨same.1.trans sameToo.1, same.2.trans sameToo.2⟩

theorem cons (extent : Extent) (same : SameContent first second) :
    SameContent (extent :: first) (extent :: second) := by
  by_cases unused : extent.name = none
  · simpa [SameContent, usedExtents_cons_unused unused, unusedExtents_cons_unused unused]
      using same.1
  · simpa [SameContent, usedExtents_cons_used unused, unusedExtents_cons_used unused] using same

end SameContent

/-- The labels of the blocks that are left. -/
theorem map_label_clearAll (names : List String) (extents : List Extent) :
    (usedExtents (extents.map (Extent.clearAll names))).map Extent.label =
      ((usedExtents extents).map Extent.label).filter (·.1 ∉ names.map some) := by
  induction extents with
  | nil => rfl
  | cons extent rest inductionHypothesis =>
      rw [List.map_cons]
      by_cases given : extent.name ∈ names.map some
      · have used : extent.name ≠ none := fun unused => by simp [unused] at given
        have cleared : (extent.clearAll names).name = none := by
          rw [Extent.clearAll, if_pos given]
        rw [usedExtents_cons_unused cleared, inductionHypothesis, usedExtents_cons_used used,
          List.map_cons, List.filter_cons_of_neg (by simpa [Extent.label] using given)]
      · have stays : extent.clearAll names = extent := if_neg given
        rw [stays]
        by_cases unused : extent.name = none
        · rw [usedExtents_cons_unused unused, usedExtents_cons_unused unused, inductionHypothesis]
        · rw [usedExtents_cons_used unused, usedExtents_cons_used unused, List.map_cons,
            List.map_cons, inductionHypothesis,
            List.filter_cons_of_pos (by simpa [Extent.label] using given)]

/-- No hole is left when there was none and no block is given up. -/
theorem unusedExtents_clearAll (names : List String) (extents : List Extent) :
    unusedExtents (extents.map (Extent.clearAll names)) = [] ↔
      unusedExtents extents = [] ∧
        ∀ label ∈ (usedExtents extents).map Extent.label, label.1 ∉ names.map some := by
  induction extents with
  | nil => simp [unusedExtents, usedExtents]
  | cons extent rest inductionHypothesis =>
      rw [List.map_cons]
      by_cases unused : extent.name = none
      · rw [clearAll_unused names unused, unusedExtents_cons_unused unused,
          unusedExtents_cons_unused unused]
        simp
      · rw [usedExtents_cons_used unused, unusedExtents_cons_used unused, List.map_cons,
          List.forall_mem_cons]
        by_cases given : extent.name ∈ names.map some
        · have cleared : (extent.clearAll names).name = none := by
            rw [Extent.clearAll, if_pos given]
          rw [unusedExtents_cons_unused cleared]
          exact iff_of_false (List.cons_ne_nil _ _) fun left => left.2.1 given
        · have stays : extent.clearAll names = extent := if_neg given
          rw [stays, unusedExtents_cons_used unused, inductionHypothesis]
          simp only [Extent.label, given, not_false_eq_true, true_and]

/-- Clearing names keeps lists of the same content so. -/
theorem SameContent.clearAll {first second : List Extent} (same : SameContent first second)
    (names : List String) :
    SameContent (first.map (Extent.clearAll names)) (second.map (Extent.clearAll names)) := by
  constructor
  · rw [map_label_clearAll, map_label_clearAll, same.1]
  · rw [unusedExtents_clearAll, unusedExtents_clearAll, same.1, same.2]

theorem sameContent_coalesce (pending : Option Extent) (extents : List Extent) :
    SameContent (pending.toList ++ extents) (coalesce pending extents) := by
  induction extents generalizing pending with
  | nil =>
      cases pending with
      | none => exact ⟨rfl, Iff.rfl⟩
      | some pending => exact ⟨rfl, Iff.rfl⟩
  | cons extent rest inductionHypothesis =>
      cases pending with
      | none => exact inductionHypothesis (some extent)
      | some pending =>
          rw [coalesce, Option.toList_some, List.singleton_append]
          by_cases holes : pending.name = none ∧ extent.name = none
          · rw [if_pos holes]
            refine SameContent.trans ?_ (inductionHypothesis (some ⟨pending.lo, extent.hi, none⟩))
            rw [Option.toList_some, List.singleton_append]
            constructor
            · rw [usedExtents_cons_unused holes.1, usedExtents_cons_unused holes.2]
              rfl
            · rw [unusedExtents_cons_unused holes.1]
              exact iff_of_false (List.cons_ne_nil _ _) (List.cons_ne_nil _ _)
          · rw [if_neg holes]
            exact (inductionHypothesis (some extent)).cons pending

/-- All blocks with these labels are used. -/
theorem usedExtents_of_labels {packed : List Extent}
    (labels : packed.map Extent.label = (usedExtents extents).map Extent.label) :
    usedExtents packed = packed ∧ unusedExtents packed = [] := by
  have used : ∀ block ∈ packed, block.name.isSome = true := by
    intro block member
    have listed := List.mem_map_of_mem (f := Extent.label) member
    rw [labels] at listed
    obtain ⟨old, oldMember, sameLabel⟩ := List.mem_map.mp listed
    rw [← (Prod.mk.inj sameLabel).1]
    exact (List.mem_filter.mp oldMember).2
  constructor
  · exact List.filter_eq_self.mpr used
  · apply List.filter_eq_nil_iff.mpr
    intro block member unused
    have named := used block member
    simp only [Option.isNone_iff_eq_none] at unused
    simp [unused] at named

theorem Slid.sameContent {after : List Extent} (slid : Slid extents after) :
    SameContent extents after := by
  obtain ⟨packed, hole, rfl, labels, holes⟩ := slid
  obtain ⟨allUsed, noneUnused⟩ := usedExtents_of_labels labels
  have usedSplit : usedExtents (packed ++ hole) = packed ++ usedExtents hole := by
    rw [usedExtents, List.filter_append]
    exact congrArg (· ++ usedExtents hole) allUsed
  have unusedSplit : unusedExtents (packed ++ hole) = unusedExtents hole := by
    rw [unusedExtents, List.filter_append]
    exact congrArg (· ++ unusedExtents hole) noneUnused
  rw [SameContent, usedSplit, unusedSplit, List.map_append, labels]
  cases holes with
  | inl noHole =>
      obtain ⟨rfl, full⟩ := noHole
      exact ⟨(List.append_nil _).symm, iff_of_true full rfl⟩
  | inr oneHole =>
      obtain ⟨extent, rfl, unused, notFull⟩ := oneHole
      rw [usedExtents_cons_unused unused, unusedExtents_cons_unused unused]
      exact ⟨(List.append_nil _).symm, iff_of_false notFull (List.cons_ne_nil _ _)⟩

/-! ## A compacted list is determined by its content -/

/-- A tile with the same label from the same address is the same extent. -/
theorem wrappingTile_unique {first second : Extent} {start finish finishToo : UInt64}
    (sameLabel : first.label = second.label) (reaches : WrappingTile first start finish)
    (reachesToo : WrappingTile second start finishToo) :
    first = second ∧ finish = finishToo := by
  have sameName : first.name = second.name := congrArg Prod.fst sameLabel
  have sameSize : first.size = second.size := congrArg Prod.snd sameLabel
  have sameLo : first.lo = second.lo := reaches.1.trans reachesToo.1.symm
  have sameFinish : finish = finishToo := by
    rw [wrappingTile_size reaches, wrappingTile_size reachesToo] at sameSize
    grind
  have sameHi : first.hi = second.hi := by
    have ends : first.hi + 1 = second.hi + 1 :=
      reaches.2.trans (sameFinish.trans reachesToo.2.symm)
    grind
  refine ⟨?_, sameFinish⟩
  cases first
  cases second
  simp_all

theorem tiled_unique {first second : List Extent} {start finish finishToo : UInt64}
    (labels : first.map Extent.label = second.map Extent.label)
    (tiled : Tiled WrappingTile start finish first)
    (tiledToo : Tiled WrappingTile start finishToo second) :
    first = second ∧ finish = finishToo := by
  induction first generalizing second start with
  | nil =>
      obtain rfl := List.map_eq_nil_iff.mp labels.symm
      exact ⟨rfl, tiled.symm.trans tiledToo⟩
  | cons extent rest inductionHypothesis =>
      cases second with
      | nil => cases labels
      | cons other more =>
          obtain ⟨sameLabel, sameLabels⟩ := List.cons.inj labels
          obtain ⟨middle, reaches, others⟩ := tiled
          obtain ⟨middleToo, reachesToo, othersToo⟩ := tiledToo
          obtain ⟨rfl, rfl⟩ := wrappingTile_unique sameLabel reaches reachesToo
          obtain ⟨rfl, rfl⟩ := inductionHypothesis sameLabels others othersToo
          exact ⟨rfl, rfl⟩

/-- Two compacted lists of the same content are the same list. -/
theorem slid_unique {first second one other : List Extent} {memSize : UInt64}
    (same : SameContent first second) (slid : Slid first one) (slidToo : Slid second other)
    (tiled : Tiled WrappingTile 0 memSize one) (tiledToo : Tiled WrappingTile 0 memSize other) :
    one = other := by
  obtain ⟨packed, hole, rfl, labels, holes⟩ := slid
  obtain ⟨packedToo, holeToo, rfl, labelsToo, holesToo⟩ := slidToo
  obtain ⟨middle, front, back⟩ := tiled_append.mp tiled
  obtain ⟨middleToo, frontToo, backToo⟩ := tiled_append.mp tiledToo
  obtain ⟨rfl, rfl⟩ :=
    tiled_unique (labels.trans (same.1.trans labelsToo.symm)) front frontToo
  cases holes with
  | inl noHole =>
      cases holesToo with
      | inl noHoleToo => rw [noHole.1, noHoleToo.1]
      | inr oneHole => exact absurd (same.2.mp noHole.2) oneHole.choose_spec.2.2
  | inr oneHole =>
      obtain ⟨extent, rfl, unused, notFull⟩ := oneHole
      cases holesToo with
      | inl noHole => exact absurd (same.2.mpr noHole.2) notFull
      | inr oneHoleToo =>
          obtain ⟨extentToo, rfl, unusedToo, _⟩ := oneHoleToo
          -- both holes lie between the packed blocks and the end of the region
          obtain ⟨_, reaches, rfl⟩ := back
          obtain ⟨_, reachesToo, sameEnd⟩ := backToo
          subst sameEnd
          have sameLabel : extent.label = extentToo.label := by
            rw [Extent.label, Extent.label, unused, unusedToo, wrappingTile_size reaches,
              wrappingTile_size reachesToo]
          rw [(wrappingTile_unique sameLabel reaches reachesToo).1]

/-! ## Releases and compactions -/

section Runs

variable {s : State} {nodes : List Node} {operations : List Operation}

/-- A release or a compaction changes the content by the names it releases. -/
theorem ListStep.sameContent {operation : Operation} {code : Int} {before after : List Extent}
    (step : ListStep operation code before after) (frees : operation.Frees) :
    SameContent (before.map (Extent.clearAll (releasedNames [operation]))) after := by
  cases operation with
  | request => exact frees.elim
  | release name =>
      rw [step.release_eq, releasedNames, releasedNames, ← map_clear_clearAll, map_clearAll_nil]
      exact sameContent_coalesce none _
  | compact =>
      rw [step.compact_eq, releasedNames, releasedNames, map_clearAll_nil]
      exact (slide_slid none before).sameContent

theorem clearAll_again (operation : Operation) (rest : List Operation) (extents : List Extent) :
    (extents.map (Extent.clearAll (releasedNames [operation]))).map
        (Extent.clearAll (releasedNames rest)) =
      extents.map (Extent.clearAll (releasedNames (operation :: rest))) := by
  cases operation with
  | request => rw [releasedNames, releasedNames, releasedNames, map_clearAll_nil]
  | release name =>
      rw [releasedNames, releasedNames, releasedNames, ← map_clear_clearAll, map_clearAll_nil,
        map_clear_clearAll]
  | compact => rw [releasedNames, releasedNames, releasedNames, map_clearAll_nil]

/-- What a sequence of releases and compactions leaves when a compaction follows. -/
theorem compacted_content (consistent : Consistent s nodes)
    (frees : ∀ operation ∈ operations, operation.Frees) :
    ∃ after extents, performAll (operations ++ [.compact]) s = .ok after ∧
      displayMemory after = compactExtents extents ∧
      SameContent ((displayMemory s).map (Extent.clearAll (releasedNames operations))) extents ∧
      Tiled WrappingTile 0 s.memSize (compactExtents extents) := by
  induction operations generalizing s nodes with
  | nil =>
      obtain ⟨code, after, changed, run, sameSize, consistentAfter, step⟩ :=
        consistent.perform .compact
      have display : displayMemory after = compactExtents (displayMemory s) := by
        rw [consistentAfter.represents.display, step.compact_eq, consistent.represents.display]
      refine ⟨after, displayMemory s, ?_, display, ?_, ?_⟩
      · simp only [List.nil_append, performAll, run, ok_bind, pure_eq_ok]
      · rw [releasedNames, map_clearAll_nil]
        exact ⟨rfl, Iff.rfl⟩
      · rw [← display, consistentAfter.represents.display, ← sameSize]
        exact consistentAfter.tiled
  | cons operation rest inductionHypothesis =>
      obtain ⟨freesFirst, freesRest⟩ := List.forall_mem_cons.mp frees
      obtain ⟨code, middle, between, run, sameSize, consistentBetween, step⟩ :=
        consistent.perform operation
      obtain ⟨after, extents, more, display, content, tiled⟩ :=
        inductionHypothesis consistentBetween freesRest
      refine ⟨after, extents, ?_, display, ?_, sameSize ▸ tiled⟩
      · simp only [List.cons_append, performAll, run, ok_bind, more]
      · have contentStep := (step.sameContent freesFirst).clearAll (releasedNames rest)
        rw [clearAll_again, ← consistent.represents.display,
          ← consistentBetween.represents.display] at contentStep
        exact contentStep.trans content

end Runs

/-- In a reachable state, two sequences of releases of the same names leave the same
blocks; and so do two sequences of releases and compactions that release the same
names and end with a compaction. Names that no block carries do not count. -/
theorem deallocation_order {s : State} (reachable : Reachable s) :
    (∀ names others : List String,
      (∀ block ∈ displayMemory s, ∀ name, block.name = some name →
        (name ∈ names ↔ name ∈ others)) →
      ∃ one other, performAll (names.map .release) s = .ok one ∧
        performAll (others.map .release) s = .ok other ∧
        displayMemory one = displayMemory other) ∧
    ∀ operations more : List Operation, (∀ operation ∈ operations, operation.Frees) →
      (∀ operation ∈ more, operation.Frees) →
      (∀ block ∈ displayMemory s, ∀ name, block.name = some name →
        (name ∈ releasedNames operations ↔ name ∈ releasedNames more)) →
      ∃ one other, performAll (operations ++ [.compact]) s = .ok one ∧
        performAll (more ++ [.compact]) s = .ok other ∧
        displayMemory one = displayMemory other := by
  obtain ⟨nodes, consistent⟩ := reachable.consistent
  constructor
  · intro names others same
    obtain ⟨one, run, display⟩ := releases_eq consistent names
    obtain ⟨other, runToo, displayToo⟩ := releases_eq consistent others
    refine ⟨one, other, run, runToo, ?_⟩
    rw [display, displayToo, map_clearAll_congr same]
  · intro operations more frees freesToo same
    obtain ⟨one, left, run, display, content, tiled⟩ := compacted_content consistent frees
    obtain ⟨other, leftToo, runToo, displayToo, contentToo, tiledToo⟩ :=
      compacted_content consistent freesToo
    refine ⟨one, other, run, runToo, ?_⟩
    rw [map_clearAll_congr same] at content
    rw [display, displayToo]
    exact slid_unique (content.symm.trans contentToo) (slide_slid none left)
      (slide_slid none leftToo) tiled tiledToo

/-- In a region of 100 bytes that three processes share, P0 and P2 are released in
either order, and once with a compaction in between. -/
theorem deallocation_order_demo :
    ∃ s, performAll [.request "P0" 10 'F', .request "P1" 20 'F', .request "P2" 30 'F']
        (start 100) = .ok s ∧
      (∃ one other, performAll (["P0", "P2"].map .release) s = .ok one ∧
        performAll (["P2", "P0"].map .release) s = .ok other ∧
        displayMemory one = displayMemory other) ∧
      ∃ one other, performAll ([.release "P0", .compact, .release "P2"] ++ [.compact]) s =
          .ok one ∧
        performAll ([.release "P2", .release "P0"] ++ [.compact]) s = .ok other ∧
        displayMemory one = displayMemory other := by
  obtain ⟨s, nodes, run, _⟩ := (start_consistent 100).performAll
    [.request "P0" 10 'F', .request "P1" 20 'F', .request "P2" 30 'F']
  obtain ⟨releases, mixed⟩ := deallocation_order ⟨100, _, _, init_eq 100, run⟩
  refine ⟨s, run, releases _ _ ?_, mixed _ _ ?_ ?_ ?_⟩
  · intro block _ name _
    simp [or_comm]
  · simp [Operation.Frees]
  · simp [Operation.Frees]
  · intro block _ name _
    simp [releasedNames, or_comm]

end OsProjects.Allocator
