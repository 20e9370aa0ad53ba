import OsProjects.ForkJoinSort.Slices

/-!
Owns `ordinary_sort`: it sorts its slice and accesses nothing else.

Before iteration `i` of the outer loop, the first `i` elements are where they belong. The inner
loop finds the least of the others.

Does not own the functions that call it.
-/

namespace OsProjects.ForkJoinSort

open OsProjects.Theory OsProjects.Theory.Program

variable {arr : Slice} {start memory : ℕ → Int} {i j : ℕ} {min : Minimum}

/-- The minimum of the elements from `i` up to `j`, and where it is. -/
structure MinimumOf (arr : Slice) (memory : ℕ → Int) (i j : ℕ) (min : Minimum) : Prop where
  lower : i ≤ min.pos
  upper : min.pos < j
  item : min.item = memory (arr.base + min.pos)
  least : ∀ k, i ≤ k → k < j → min.item ≤ memory (arr.base + k)

/-- The first `i` elements are where they belong: none is above any element behind it. -/
structure SortedBelow (arr : Slice) (start : ℕ → Int) (i : ℕ) (memory : ℕ → Int) : Prop where
  rearranges : Rearranges arr start memory
  ordered : ∀ j k, j < i → j < k → k < arr.len → memory (arr.base + j) ≤ memory (arr.base + k)

theorem minimumOf_first (arr : Slice) (memory : ℕ → Int) (i : ℕ) :
    MinimumOf arr memory i (i + 1) ⟨i, memory (arr.base + i)⟩ where
  lower := Nat.le_refl i
  upper := Nat.lt_succ_self i
  item := rfl
  least := by
    intro k lower upper
    rw [show k = i by omega]

/-- The inner loop goes on to the next element. -/
theorem MinimumOf.step (minimum : MinimumOf arr memory i j min) (inside : j < arr.len) :
    wp (minimumBody arr j min)
      (fun after changed => changed = memory ∧ MinimumOf arr memory i (j + 1) after) memory := by
  refine wp_bind (wp_get inside ?_)
  have lower := minimum.lower
  have upper := minimum.upper
  split
  · rename_i smaller
    refine wp_bind (wp_get inside ⟨rfl, lower.trans upper.le, Nat.lt_succ_self j, rfl, ?_⟩)
    intro k lower upper
    show memory (arr.base + j) ≤ memory (arr.base + k)
    by_cases last : k = j
    · rw [last]
    · exact smaller.le.trans (minimum.least k lower (by omega))
  · rename_i notSmaller
    refine ⟨rfl, lower, by omega, minimum.item, ?_⟩
    intro k lower upper
    by_cases last : k = j
    · rw [last]
      exact Int.not_lt.mp notSmaller
    · exact minimum.least k lower (by omega)

/-- The inner loop finds the least of the elements that are left. -/
theorem wp_minimum (inside : i < arr.len) :
    wp (forRange (minimumBody arr) (arr.len - (i + 1)) (i + 1) ⟨i, memory (arr.base + i)⟩)
      (fun min changed => changed = memory ∧ MinimumOf arr memory i arr.len min) memory := by
  have run : wp (forRange (minimumBody arr) (arr.len - (i + 1)) (i + 1)
        ⟨i, memory (arr.base + i)⟩)
      (fun min changed => changed = memory ∧
        MinimumOf arr memory i (i + 1 + (arr.len - (i + 1))) min) memory := by
    refine wp_forRange (fun j min changed => changed = memory ∧ MinimumOf arr memory i j min) ?_
      ⟨rfl, minimumOf_first arr memory i⟩
    rintro j min changed lower upper ⟨rfl, minimum⟩
    exact minimum.step (by omega)
  rwa [show i + 1 + (arr.len - (i + 1)) = arr.len by omega] at run

/-- The least element left comes to place `i`. -/
theorem SortedBelow.swap (sorted : SortedBelow arr start i memory) (inside : i < arr.len)
    (minimum : MinimumOf arr memory i arr.len min) :
    SortedBelow arr start (i + 1) (memory ∘ Equiv.swap (arr.base + i) (arr.base + min.pos)) := by
  refine ⟨sorted.rearranges.trans (.swap memory inside minimum.upper), ?_⟩
  intro j k below before kInside
  rw [swapped_eq, swapped_eq]
  have lower := minimum.lower
  have upper := minimum.upper
  by_cases last : j = i
  · -- place `i` now holds the minimum
    obtain ⟨behind, inside⟩ : i ≤ _ ∧ _ < arr.len :=
      swapped_bounds ⟨Nat.le_refl i, inside⟩ ⟨lower, upper⟩ (k := k) ⟨by omega, kInside⟩
    rw [if_pos last, ← minimum.item]
    exact minimum.least _ behind inside
  · obtain ⟨behind, inside⟩ : j + 1 ≤ _ ∧ _ < arr.len :=
      swapped_bounds (i := i) ⟨by omega, inside⟩ (j := min.pos) ⟨by omega, upper⟩ (k := k)
        ⟨before, kInside⟩
    rw [if_neg last, if_neg (by omega)]
    exact sorted.ordered j _ (by omega) behind inside

/-- The outer loop puts one more element where it belongs. -/
theorem SortedBelow.step (sorted : SortedBelow arr start i memory) (inside : i < arr.len) :
    wp (ordinaryBody arr i ()) (fun _ => SortedBelow arr start (i + 1)) memory := by
  refine wp_bind (wp_get inside (wp_bind (wp_mono (wp_minimum inside) ?_)))
  rintro min changed ⟨rfl, minimum⟩
  exact wp_swap inside minimum.upper (sorted.swap inside minimum)

/-- `ordinary_sort` sorts. -/
theorem wp_ordinarySort (arr : Slice) (memory : ℕ → Int) :
    wp (ordinarySort arr) (fun _ after => SortsInPlace arr memory after) memory := by
  have run : wp (ordinarySort arr) (fun _ => SortedBelow arr memory (0 + arr.len)) memory :=
    wp_forRange (fun i _ changed => SortedBelow arr memory i changed)
      (fun _ upper sorted => sorted.step (by omega))
      ⟨.refl arr memory, fun j k below => absurd below (Nat.not_lt_zero j)⟩
  refine wp_mono run fun _ after sorted => ⟨sorted.rearranges, ascending_iff.mpr ?_⟩
  intro j k before inside
  exact sorted.ordered j k (by omega) before inside

theorem confined_ordinarySort (arr : Slice) : Confined (ordinarySort arr) arr.cells := by
  refine Confined.forRange (fun i _ => ?_) _ _ _
  refine (confined_get arr i).bind fun item => Confined.bind ?_ fun min => confined_swap arr i _
  refine Confined.forRange (fun j min => ?_) _ _ _
  apply (confined_get arr j).bind
  intro item
  split
  · exact (confined_get arr j).bind fun _ => trivial
  · trivial

theorem computes_ordinarySort (arr : Slice) (memory : ℕ → Int) :
    Computes (ordinarySort arr) memory fun _ after => SortsInPlace arr memory after :=
  computes_of_wp (confined_ordinarySort arr) (wp_ordinarySort arr memory)

end OsProjects.ForkJoinSort
