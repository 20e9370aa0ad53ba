import Mathlib.Data.List.Perm.Lattice
import Mathlib.Logic.Equiv.Basic
import Mathlib.Order.Interval.Set.Basic
import OsProjects.ForkJoinSort.Model

/-!
Owns the contents of a slice, what it means to sort them in place, and the rules of the accesses.

A slice is given by the array cells it covers. A sort permutes their contents and leaves all other
cells alone, so that what it does to a part of a slice it does to the slice.

Does not own the functions that sort.
-/

namespace OsProjects.ForkJoinSort

open OsProjects.Theory OsProjects.Theory.Program

namespace Slice

/-- The addresses of the elements. -/
def cells (arr : Slice) : Set ℕ := Set.Ico arr.base (arr.base + arr.len)

/-- The elements in order. -/
def contents (arr : Slice) (memory : ℕ → Int) : List Int :=
  (List.range' arr.base arr.len).map memory

end Slice

/-- The contents of the slice are permuted, and nothing else is changed. -/
structure Rearranges (arr : Slice) (before after : ℕ → Int) : Prop where
  perm : (arr.contents after).Perm (arr.contents before)
  elsewhere : ∀ address, address ∉ arr.cells → after address = before address

/-- The contents of the slice are permuted into ascending order, and nothing else is changed. -/
structure SortsInPlace (arr : Slice) (before after : ℕ → Int) : Prop extends
    Rearranges arr before after where
  ascending : (arr.contents after).Pairwise (· ≤ ·)

/-! ## Contents -/

section Contents

variable {arr : Slice} {before between after memory other : ℕ → Int} {base len more i j : ℕ}

theorem mem_cells {address : ℕ} :
    address ∈ arr.cells ↔ arr.base ≤ address ∧ address < arr.base + arr.len := Iff.rfl

theorem mem_cells_of_lt (inside : i < arr.len) : arr.base + i ∈ arr.cells :=
  ⟨Nat.le_add_right _ _, Nat.add_lt_add_left inside _⟩

theorem exists_index {address : ℕ} (inside : address ∈ arr.cells) :
    ∃ i, i < arr.len ∧ address = arr.base + i := by
  rw [mem_cells] at inside
  exact ⟨address - arr.base, by omega, by omega⟩

theorem contents_length (arr : Slice) (memory : ℕ → Int) :
    (arr.contents memory).length = arr.len := by
  simp [Slice.contents]

theorem contents_getElem (inside : i < arr.len) :
    (arr.contents memory)[i]? = some (memory (arr.base + i)) := by
  simp [Slice.contents, inside]

theorem contents_congr (same : ∀ address ∈ arr.cells, other address = memory address) :
    arr.contents other = arr.contents memory := by
  refine List.map_congr_left fun address member => same address ?_
  rw [List.mem_range'_1] at member
  exact member

/-- Two slices that touch. -/
theorem contents_append (memory : ℕ → Int) (base len more : ℕ) :
    Slice.contents ⟨base, len⟩ memory ++ Slice.contents ⟨base + len, more⟩ memory =
      Slice.contents ⟨base, len + more⟩ memory := by
  rw [Slice.contents, Slice.contents, Slice.contents, ← List.map_append, List.range'_append_1]

theorem contents_cons (memory : ℕ → Int) (base len : ℕ) :
    Slice.contents ⟨base, len + 1⟩ memory =
      memory base :: Slice.contents ⟨base + 1, len⟩ memory := by
  rw [Slice.contents, List.range'_succ]
  rfl

theorem contents_nil (memory : ℕ → Int) (base : ℕ) : Slice.contents ⟨base, 0⟩ memory = [] := rfl

theorem mem_contents {value : Int} :
    value ∈ arr.contents memory ↔ ∃ i, i < arr.len ∧ value = memory (arr.base + i) := by
  rw [List.mem_iff_getElem?]
  constructor
  · rintro ⟨i, here⟩
    have inside : i < arr.len := by
      rw [← contents_length arr memory]
      exact (List.getElem?_eq_some_iff.mp here).1
    rw [contents_getElem inside] at here
    exact ⟨i, inside, (Option.some.inj here).symm⟩
  · rintro ⟨i, inside, rfl⟩
    exact ⟨i, contents_getElem inside⟩

/-- Ascending order by index. -/
theorem ascending_iff : (arr.contents memory).Pairwise (· ≤ ·) ↔
    ∀ i j, i < j → j < arr.len → memory (arr.base + i) ≤ memory (arr.base + j) := by
  rw [List.pairwise_iff_getElem]
  simp only [Slice.contents, List.length_map, List.length_range', List.getElem_map,
    List.getElem_range', Nat.one_mul]
  constructor
  · intro ordered i j less inside
    exact ordered i j (by omega) inside less
  · intro ordered i j _ inside less
    exact ordered i j less inside

end Contents

/-! ## Rearranging -/

section Rearranging

variable {arr : Slice} {before between after : ℕ → Int} {base len i j : ℕ}

theorem Rearranges.refl (arr : Slice) (memory : ℕ → Int) : Rearranges arr memory memory :=
  ⟨.refl _, fun _ _ => rfl⟩

theorem Rearranges.trans (first : Rearranges arr before between)
    (second : Rearranges arr between after) : Rearranges arr before after where
  perm := second.perm.trans first.perm
  elsewhere := fun address outside =>
    (second.elsewhere address outside).trans (first.elsewhere address outside)

theorem swap_outside (iInside : i < arr.len) (jInside : j < arr.len) {address : ℕ}
    (outside : address ∉ arr.cells) :
    Equiv.swap (arr.base + i) (arr.base + j) address = address := by
  apply Equiv.swap_apply_of_ne_of_ne
  · rintro rfl
    exact outside (mem_cells_of_lt iInside)
  · rintro rfl
    exact outside (mem_cells_of_lt jInside)

theorem swap_mem_cells (iInside : i < arr.len) (jInside : j < arr.len) (address : ℕ) :
    Equiv.swap (arr.base + i) (arr.base + j) address ∈ arr.cells ↔ address ∈ arr.cells := by
  by_cases inside : address ∈ arr.cells
  · apply iff_of_true _ inside
    rw [Equiv.swap_apply_def]
    split
    · exact mem_cells_of_lt jInside
    · split
      · exact mem_cells_of_lt iInside
      · exact inside
  · rw [swap_outside iInside jInside inside]

/-- Two elements change places. -/
theorem Rearranges.swap (memory : ℕ → Int) (iInside : i < arr.len) (jInside : j < arr.len) :
    Rearranges arr memory (memory ∘ Equiv.swap (arr.base + i) (arr.base + j)) := by
  constructor
  · rw [Slice.contents, Slice.contents, ← List.map_map]
    apply List.Perm.map memory
    -- both lists have the addresses of the slice, each once
    rw [List.perm_ext_iff_of_nodup ((List.nodup_range' ..).map (Equiv.injective _))
      (List.nodup_range' ..)]
    intro address
    rw [List.mem_map_of_involutive (Equiv.swap_apply_self _ _), List.mem_range'_1,
      List.mem_range'_1]
    exact swap_mem_cells iInside jInside address
  · intro address outside
    rw [Function.comp_apply, swap_outside iInside jInside outside]

/-- Sorting leaves no choice. -/
theorem SortsInPlace.unique {other : ℕ → Int} (first : SortsInPlace arr before after)
    (second : SortsInPlace arr before other) : after = other := by
  have same : arr.contents after = arr.contents other :=
    (first.perm.trans second.perm.symm).eq_of_pairwise
      (fun _ _ _ _ => le_antisymm) first.ascending second.ascending
  funext address
  by_cases inside : address ∈ arr.cells
  · obtain ⟨i, below, rfl⟩ := exists_index inside
    have here : (arr.contents after)[i]? = some (after (arr.base + i)) := contents_getElem below
    rw [same, contents_getElem below] at here
    exact (Option.some.inj here).symm
  · rw [first.elsewhere address inside, second.elsewhere address inside]

end Rearranging

/-! ## Accesses -/

section Accesses

variable {arr : Slice} {memory : ℕ → Int} {i j hi lo : ℕ} {Result : Type} {part : Set ℕ}

theorem wp_get {post : Int → (ℕ → Int) → Prop} (inside : i < arr.len)
    (holds : post (memory (arr.base + i)) memory) : wp (arr.get i) post memory := by
  rw [Slice.get, if_pos inside]
  exact holds

theorem wp_set {post : Unit → (ℕ → Int) → Prop} {value : Int} (inside : i < arr.len)
    (holds : post () (Function.update memory (arr.base + i) value)) :
    wp (arr.set i value) post memory := by
  rw [Slice.set, if_pos inside]
  exact holds

theorem wp_swap {post : Unit → (ℕ → Int) → Prop} (iInside : i < arr.len) (jInside : j < arr.len)
    (holds : post () (memory ∘ Equiv.swap (arr.base + i) (arr.base + j))) :
    wp (arr.swap i j) post memory := by
  refine wp_bind (wp_get jInside (wp_bind (wp_get iInside (wp_bind (wp_set iInside ?_)))))
  apply wp_set jInside
  rw [Equiv.swap_comm, Equiv.comp_swap_eq_update] at holds
  exact holds

theorem wp_sliceTo {post : Slice → (ℕ → Int) → Prop} (inside : hi ≤ arr.len)
    (holds : post ⟨arr.base, hi⟩ memory) : wp (arr.sliceTo hi) post memory := by
  rw [Slice.sliceTo, if_pos inside]
  exact holds

theorem wp_sliceFrom {post : Slice → (ℕ → Int) → Prop} (inside : lo ≤ arr.len)
    (holds : post ⟨arr.base + lo, arr.len - lo⟩ memory) :
    wp (arr.sliceFrom lo) post memory := by
  rw [Slice.sliceFrom, if_pos inside]
  exact holds

/-- Whatever the index, no access leaves the slice. -/
theorem confined_get (arr : Slice) (i : ℕ) : Confined (arr.get i) arr.cells := by
  rw [Slice.get]
  split
  · rename_i inside
    exact ⟨mem_cells_of_lt inside, fun _ => trivial⟩
  · trivial

theorem confined_set (arr : Slice) (i : ℕ) (value : Int) :
    Confined (arr.set i value) arr.cells := by
  rw [Slice.set]
  split
  · rename_i inside
    exact ⟨mem_cells_of_lt inside, trivial⟩
  · trivial

theorem confined_swap (arr : Slice) (i j : ℕ) : Confined (arr.swap i j) arr.cells :=
  (confined_get arr j).bind fun _ => (confined_get arr i).bind fun _ =>
    (confined_set arr i _).bind fun _ => confined_set arr j _

theorem confined_sliceTo {after : Slice → Go Result}
    (confined : hi ≤ arr.len → Confined (after ⟨arr.base, hi⟩) part) :
    Confined (arr.sliceTo hi >>= after) part := by
  rw [Slice.sliceTo]
  split
  · rename_i inside
    exact confined inside
  · trivial

theorem confined_sliceFrom {after : Slice → Go Result}
    (confined : lo ≤ arr.len → Confined (after ⟨arr.base + lo, arr.len - lo⟩) part) :
    Confined (arr.sliceFrom lo >>= after) part := by
  rw [Slice.sliceFrom]
  split
  · rename_i inside
    exact confined inside
  · trivial

/-- An element after two have changed places. -/
theorem swapped_eq (memory : ℕ → Int) (base i j k : ℕ) :
    (memory ∘ Equiv.swap (base + i) (base + j)) (base + k) =
      memory (base + if k = i then j else if k = j then i else k) := by
  rw [Function.comp_apply, Equiv.swap_apply_def]
  simp only [Nat.add_left_cancel_iff]
  split
  · rfl
  · split
    · rfl
    · rfl

/-- Where an element was before the swap: in whatever range all three places are. -/
theorem swapped_bounds {low high k : ℕ} (first : low ≤ i ∧ i < high) (second : low ≤ j ∧ j < high)
    (third : low ≤ k ∧ k < high) :
    low ≤ (if k = i then j else if k = j then i else k) ∧
      (if k = i then j else if k = j then i else k) < high := by
  split
  · exact second
  · split
    · exact first
    · exact third

end Accesses

end OsProjects.ForkJoinSort
