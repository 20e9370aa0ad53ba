import Mathlib.Data.List.Chain
import OsProjects.Allocator.Model

/-!
Owns the allocator as an abstract machine on the list of its extents.

The three operations are functions on this list, with no pointers: a hole is
occupied, named extents are cleared and neighbouring holes coalesced, holes
slide behind the used extents. Two properties are kept by all of them: the
extents tile the region, and no two neighbours are both unused. What it means
for an extent to reach from one address to another is left open at first, and
then fixed for the arithmetic of `size_t`.

Does not own which hole a request takes, or how the program stores the list.
-/

namespace OsProjects.Allocator

/-- `hi - lo + 1` in `size_t`. -/
def Extent.size (extent : Extent) : UInt64 := extent.hi - extent.lo + 1

/-! ## The operations -/

/-- A hole given to `name`: all of it when it has exactly the requested size, its
first `size` bytes otherwise. -/
def occupy (name : String) (size : UInt64) (hole : Extent) : List Extent :=
  if hole.size = size then
    [⟨hole.lo, hole.hi, some name⟩]
  else
    [⟨hole.lo, hole.lo + size - 1, some name⟩, ⟨hole.lo + size, hole.hi, none⟩]

/-- The extent after the blocks called `name` have been given up. -/
def Extent.clear (name : String) (extent : Extent) : Extent :=
  if extent.name = some name then { extent with name := none } else extent

/-- Joins neighbouring holes; `pending` is the extent before the list, which may
still grow. -/
def coalesce : Option Extent → List Extent → List Extent
  | none, [] => []
  | some pending, [] => [pending]
  | none, extent :: rest => coalesce (some extent) rest
  | some pending, extent :: rest =>
      if pending.name = none ∧ extent.name = none then
        coalesce (some ⟨pending.lo, extent.hi, none⟩) rest
      else
        pending :: coalesce (some extent) rest

/-- Moves a hole behind the used extents that follow it, and joins it with the
holes it meets; `pending` is the extent before the list. -/
def slide : Option Extent → List Extent → List Extent
  | none, [] => []
  | some pending, [] => [pending]
  | none, extent :: rest => slide (some extent) rest
  | some pending, extent :: rest =>
      if pending.name = none then
        if extent.name = none then
          slide (some ⟨pending.lo, extent.hi, none⟩) rest
        else
          ⟨pending.lo, pending.lo + (extent.hi - extent.lo), extent.name⟩ ::
            slide (some ⟨pending.lo + (extent.hi - extent.lo) + 1, extent.hi, none⟩) rest
      else
        pending :: slide (some extent) rest

/-- The list after `name` has been released. -/
def releaseExtents (name : String) (extents : List Extent) : List Extent :=
  coalesce none (extents.map (Extent.clear name))

/-- The list after a compaction. -/
def compactExtents (extents : List Extent) : List Extent :=
  slide none extents

/-- The test a strategy applies to the size of an unused block. -/
def fits (strategy : Char) (size holeSize : UInt64) : Bool :=
  match strategy with
  | 'F' => holeSize ≥ size
  | 'B' => size ≤ holeSize ∧ holeSize < -1
  | 'W' => holeSize > size - 1
  | _ => false

theorem fits_other {strategy : Char} {size holeSize : UInt64} (notF : strategy ≠ 'F')
    (notB : strategy ≠ 'B') (notW : strategy ≠ 'W') : fits strategy size holeSize = false := by
  simp [fits]

/-- The returned flag: 0 when some block carried the name. -/
def releaseFlag (name : String) (extents : List Extent) : Int :=
  if ∃ extent ∈ extents, extent.name = some name then 0 else 1

/-- What a command does to the list, with the value it returns. -/
inductive ListStep : Operation → Int → List Extent → List Extent → Prop where
  | refuse {name size strategy code extents} (failed : code ≠ 0)
      (full : ∀ extent ∈ extents, ¬(extent.name = none ∧ fits strategy size extent.size)) :
      ListStep (.request name size strategy) code extents extents
  | grant {name size strategy} {pre post : List Extent} {hole : Extent} (unused : hole.name = none)
      (chosen : fits strategy size hole.size) :
      ListStep (.request name size strategy) 0 (pre ++ hole :: post)
        (pre ++ occupy name size hole ++ post)
  | release {name extents} :
      ListStep (.release name) (releaseFlag name extents) extents (releaseExtents name extents)
  | compact {extents} : ListStep .compact 0 extents (compactExtents extents)

/-! ## Tiling -/

section Tiling

variable {κ : Type} {tile : Extent → κ → κ → Prop} {start finish : κ}
variable {extents pre post : List Extent}

/-- The extents follow one another from `start` up to `finish`; `tile` says from
where to where one of them reaches. -/
def Tiled (tile : Extent → κ → κ → Prop) (start finish : κ) : List Extent → Prop
  | [] => start = finish
  | extent :: rest => ∃ middle, tile extent start middle ∧ Tiled tile middle finish rest

/-- What a notion of tile has to allow for: other owners, a tile in place of two
neighbours, and two neighbours that change places. -/
structure TileRules (tile : Extent → κ → κ → Prop) : Prop where
  rename : ∀ {extent start finish} name, tile extent start finish →
    tile { extent with name } start finish
  merge : ∀ {first second start middle finish}, tile first start middle →
    tile second middle finish → tile ⟨first.lo, second.hi, none⟩ start finish
  swap : ∀ {first second start middle finish}, tile first start middle →
    tile second middle finish → ∃ between,
      tile ⟨first.lo, first.lo + (second.hi - second.lo), second.name⟩ start between ∧
      tile ⟨first.lo + (second.hi - second.lo) + 1, second.hi, none⟩ between finish

theorem tiled_append :
    Tiled tile start finish (pre ++ post) ↔
      ∃ middle, Tiled tile start middle pre ∧ Tiled tile middle finish post := by
  induction pre generalizing start with
  | nil => simp [Tiled]
  | cons extent rest inductionHypothesis =>
      simp only [List.cons_append, Tiled, inductionHypothesis]
      constructor
      · intro tiled
        obtain ⟨between, first, middle, front, back⟩ := tiled
        exact ⟨middle, ⟨between, first, front⟩, back⟩
      · intro tiled
        obtain ⟨middle, ⟨between, first, front⟩, back⟩ := tiled
        exact ⟨between, first, middle, front, back⟩

/-- Where an extent of a tiling reaches. -/
theorem Tiled.split {extent : Extent}
    (tiled : Tiled tile start finish (pre ++ extent :: post)) :
    ∃ first last, Tiled tile start first pre ∧ tile extent first last ∧
      Tiled tile last finish post := by
  rcases tiled_append.mp tiled with ⟨first, before, last, reaches, behind⟩
  exact ⟨first, last, before, reaches, behind⟩

theorem tiled_clear (rules : TileRules tile) (name : String)
    (tiled : Tiled tile start finish extents) :
    Tiled tile start finish (extents.map (Extent.clear name)) := by
  induction extents generalizing start with
  | nil => exact tiled
  | cons extent rest inductionHypothesis =>
      obtain ⟨middle, first, others⟩ := tiled
      refine ⟨middle, ?_, inductionHypothesis others⟩
      unfold Extent.clear
      split
      · exact rules.rename none first
      · exact first

theorem tiled_coalesce (rules : TileRules tile) (pending : Option Extent)
    (tiled : Tiled tile start finish (pending.toList ++ extents)) :
    Tiled tile start finish (coalesce pending extents) := by
  induction extents generalizing start pending with
  | nil =>
      cases pending with
      | none => exact tiled
      | some pending => exact tiled
  | cons extent rest inductionHypothesis =>
      cases pending with
      | none => exact inductionHypothesis (some extent) tiled
      | some pending =>
          obtain ⟨between, first, middle, second, others⟩ := tiled
          rw [coalesce]
          by_cases holes : pending.name = none ∧ extent.name = none
          · rw [if_pos holes]
            exact inductionHypothesis (some _) ⟨middle, rules.merge first second, others⟩
          · rw [if_neg holes]
            exact ⟨between, first, inductionHypothesis (some _) ⟨middle, second, others⟩⟩

theorem tiled_slide (rules : TileRules tile) (pending : Option Extent)
    (tiled : Tiled tile start finish (pending.toList ++ extents)) :
    Tiled tile start finish (slide pending extents) := by
  induction extents generalizing start pending with
  | nil =>
      cases pending with
      | none => exact tiled
      | some pending => exact tiled
  | cons extent rest inductionHypothesis =>
      cases pending with
      | none => exact inductionHypothesis (some extent) tiled
      | some pending =>
          obtain ⟨between, first, middle, second, others⟩ := tiled
          rw [slide]
          by_cases hole : pending.name = none
          · rw [if_pos hole]
            by_cases holeToo : extent.name = none
            · rw [if_pos holeToo]
              exact inductionHypothesis (some _) ⟨middle, rules.merge first second, others⟩
            · rw [if_neg holeToo]
              rcases rules.swap first second with ⟨edge, used, moved⟩
              exact ⟨edge, used, inductionHypothesis (some _) ⟨middle, moved, others⟩⟩
          · rw [if_neg hole]
            exact ⟨between, first, inductionHypothesis (some _) ⟨middle, second, others⟩⟩

/-- A command keeps the tiling if the hole that a request takes may be divided. -/
theorem ListStep.tiled {operation : Operation} {code : Int} {before after : List Extent}
    (step : ListStep operation code before after) (rules : TileRules tile)
    (divides : ∀ {name size strategy pre hole post first last},
      operation = .request name size strategy → before = pre ++ hole :: post →
      hole.name = none → fits strategy size hole.size → tile hole first last →
      Tiled tile last finish post → Tiled tile first last (occupy name size hole))
    (tiled : Tiled tile start finish before) : Tiled tile start finish after := by
  cases step with
  | refuse => exact tiled
  | grant unused chosen =>
      obtain ⟨first, last, pre, reaches, post⟩ := tiled.split
      exact tiled_append.mpr ⟨last, tiled_append.mpr
        ⟨first, pre, divides rfl rfl unused chosen reaches post⟩, post⟩
  | release => exact tiled_coalesce rules none (tiled_clear rules _ tiled)
  | compact => exact tiled_slide rules none tiled

end Tiling

/-! ## Tiling in the arithmetic of `size_t` -/

/-- The extent starts at `start` and `finish` is the address behind it, both
modulo 2^64. -/
def WrappingTile (extent : Extent) (start finish : UInt64) : Prop :=
  extent.lo = start ∧ extent.hi + 1 = finish

theorem wrappingTile_rules : TileRules WrappingTile := by
  constructor
  · intro extent start finish name reaches
    exact reaches
  · intro first second start middle finish one two
    exact ⟨one.1, two.2⟩
  · intro first second start middle finish one two
    exact ⟨_, ⟨one.1, rfl⟩, rfl, two.2⟩

section Wrapping

variable {start finish : UInt64} {extents pre : List Extent}

/-- The last extent of a tiling ends where the tiling ends. -/
theorem wrappingTile_last {extent : Extent}
    (tiled : Tiled WrappingTile start finish (pre ++ [extent])) : extent.hi = finish - 1 := by
  obtain ⟨first, last, _, reaches, same⟩ := tiled.split
  have behind : extent.hi + 1 = finish := reaches.2.trans same
  grind

/-- Neighbours of a tiling touch. -/
theorem wrappingTile_touch (tiled : Tiled WrappingTile start finish extents) :
    extents.IsChain fun first second => second.lo = first.hi + 1 := by
  induction extents generalizing start with
  | nil => exact List.isChain_nil
  | cons extent rest inductionHypothesis =>
      obtain ⟨middle, reaches, others⟩ := tiled
      refine List.isChain_cons.mpr ⟨?_, inductionHypothesis others⟩
      intro next member
      cases rest with
      | nil => cases member
      | cons second more =>
          cases member
          obtain ⟨_, follows, _⟩ := others
          exact follows.1.trans reaches.2.symm

theorem wrappingTile_occupy {hole : Extent} (name : String) (size : UInt64)
    (reaches : WrappingTile hole start finish) :
    Tiled WrappingTile start finish (occupy name size hole) := by
  unfold occupy
  by_cases wholeHole : hole.size = size
  · rw [if_pos wholeHole]
    exact ⟨finish, reaches, rfl⟩
  · rw [if_neg wholeHole]
    refine ⟨hole.lo + size, ⟨reaches.1, ?_⟩, finish, ⟨rfl, reaches.2⟩, rfl⟩
    grind

end Wrapping

/-! ## Separation -/

/-- No two neighbours are both unused. -/
def Separated (extents : List Extent) : Prop :=
  extents.IsChain fun first second => ¬(first.name = none ∧ second.name = none)

section Separation

variable {extents pre post : List Extent}

/-- The first extent of a coalesced list is the pending one, perhaps longer. -/
theorem coalesce_head (pending : Extent) (extents : List Extent) :
    ∃ first rest, coalesce (some pending) extents = first :: rest ∧
      first.name = pending.name := by
  induction extents generalizing pending with
  | nil => exact ⟨pending, [], rfl, rfl⟩
  | cons extent rest inductionHypothesis =>
      rw [coalesce]
      by_cases holes : pending.name = none ∧ extent.name = none
      · rw [if_pos holes]
        obtain ⟨first, others, shape, sameName⟩ :=
          inductionHypothesis ⟨pending.lo, extent.hi, none⟩
        exact ⟨first, others, shape, sameName.trans holes.1.symm⟩
      · rw [if_neg holes]
        exact ⟨pending, _, rfl, rfl⟩

theorem releaseExtents_ne_nil (name : String) (nonempty : extents ≠ []) :
    releaseExtents name extents ≠ [] := by
  cases extents with
  | nil => exact absurd rfl nonempty
  | cons extent rest =>
      obtain ⟨first, others, shape, _⟩ :=
        coalesce_head (extent.clear name) (rest.map (Extent.clear name))
      show coalesce (some (extent.clear name)) (rest.map (Extent.clear name)) ≠ []
      rw [shape]
      simp

theorem slide_ne_nil (pending : Extent) (extents : List Extent) :
    slide (some pending) extents ≠ [] := by
  induction extents generalizing pending with
  | nil => simp [slide]
  | cons extent rest inductionHypothesis =>
      rw [slide]
      split
      · split
        · exact inductionHypothesis _
        · simp
      · simp

theorem compactExtents_ne_nil (nonempty : extents ≠ []) : compactExtents extents ≠ [] := by
  cases extents with
  | nil => exact absurd rfl nonempty
  | cons extent rest => exact slide_ne_nil extent rest

theorem separated_coalesce (pending : Option Extent) (extents : List Extent) :
    Separated (coalesce pending extents) := by
  induction extents generalizing pending with
  | nil =>
      cases pending with
      | none => exact List.isChain_nil
      | some pending => exact List.isChain_singleton _
  | cons extent rest inductionHypothesis =>
      cases pending with
      | none => exact inductionHypothesis (some extent)
      | some pending =>
          rw [coalesce]
          by_cases holes : pending.name = none ∧ extent.name = none
          · rw [if_pos holes]
            exact inductionHypothesis _
          · rw [if_neg holes]
            rcases coalesce_head extent rest with ⟨first, others, shape, sameName⟩
            have separated := inductionHypothesis (some extent)
            rw [shape] at separated ⊢
            refine List.isChain_cons_cons.mpr ⟨?_, separated⟩
            rwa [sameName]

theorem separated_slide (pending : Option Extent) (extents : List Extent) :
    Separated (slide pending extents) := by
  induction extents generalizing pending with
  | nil =>
      cases pending with
      | none => exact List.isChain_nil
      | some pending => exact List.isChain_singleton _
  | cons extent rest inductionHypothesis =>
      have behindUsed : ∀ (used : Extent) (pending : Option Extent), used.name ≠ none →
          Separated (used :: slide pending rest) := by
        intro used pending named
        refine List.isChain_cons.mpr ⟨?_, inductionHypothesis pending⟩
        intro next _ holes
        exact named holes.1
      cases pending with
      | none => exact inductionHypothesis (some extent)
      | some pending =>
          rw [slide]
          by_cases hole : pending.name = none
          · rw [if_pos hole]
            by_cases holeToo : extent.name = none
            · rw [if_pos holeToo]
              exact inductionHypothesis _
            · rw [if_neg holeToo]
              exact behindUsed _ _ holeToo
          · rw [if_neg hole]
            exact behindUsed _ _ hole

/-- Occupying a hole leaves its new neighbours used where the old ones were. -/
theorem separated_occupy {hole : Extent} (name : String) (size : UInt64)
    (isHole : hole.name = none) (separated : Separated (pre ++ hole :: post)) :
    Separated (pre ++ occupy name size hole ++ post) := by
  rcases List.isChain_split.mp separated with ⟨front, back⟩
  rcases List.isChain_cons.mp back with ⟨follows, others⟩
  have used : ∀ hi, Separated (pre ++ [⟨hole.lo, hi, some name⟩]) := by
    intro hi
    rcases List.isChain_append.mp front with ⟨before, _, _⟩
    refine List.isChain_append.mpr ⟨before, List.isChain_singleton _, ?_⟩
    intro last _ first member holes
    simp only [List.head?_cons, Option.mem_def, Option.some.injEq] at member
    rw [← member] at holes
    cases holes.2
  unfold occupy
  by_cases wholeHole : hole.size = size
  · rw [if_pos wholeHole, List.append_assoc, List.singleton_append]
    refine List.isChain_split.mpr ⟨used hole.hi, List.isChain_cons.mpr ⟨?_, others⟩⟩
    intro next _ holes
    cases holes.1
  · rw [if_neg wholeHole, List.append_assoc]
    refine List.isChain_split.mpr ⟨used _, List.isChain_cons_cons.mpr ⟨?_, ?_⟩⟩
    · intro holes
      cases holes.1
    · refine List.isChain_cons.mpr ⟨?_, others⟩
      intro next member holes
      exact follows next member ⟨isHole, holes.2⟩

/-- No command leaves neighbouring holes. -/
theorem ListStep.separated {operation : Operation} {code : Int} {before after : List Extent}
    (step : ListStep operation code before after) (separated : Separated before) :
    Separated after := by
  cases step with
  | refuse => exact separated
  | grant unused _ => exact separated_occupy _ _ unused separated
  | release => exact separated_coalesce _ _
  | compact => exact separated_slide _ _

theorem ListStep.nonempty {operation : Operation} {code : Int} {before after : List Extent}
    (step : ListStep operation code before after) (nonempty : before ≠ []) : after ≠ [] := by
  cases step with
  | refuse => exact nonempty
  | grant =>
      unfold occupy
      split <;> simp
  | release => exact releaseExtents_ne_nil _ nonempty
  | compact => exact compactExtents_ne_nil nonempty

end Separation

end OsProjects.Allocator
