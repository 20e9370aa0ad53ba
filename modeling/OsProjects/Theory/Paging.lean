import Mathlib.Data.Finset.Card
import Mathlib.Data.List.Nodup
import Mathlib.Data.List.Infix

/-!
Owns the cost of serving requests from a cache of bounded size, with the requests known in
advance: before each request the cache may be changed at will, and every item brought in is a
load.

Requests of which any `k + 1` in a row are different cost every cache of `h ≤ k` items at least
`k + 1 - h` loads for each `k` of them, because it holds the request before these when they begin.

Does not own any policy of replacement.
-/

namespace OsProjects.Theory

variable {α : Type} {k h : ℕ}

/-- Items of the list are the same only if they are more than `k` places apart. -/
def Spread (k : ℕ) (loaded : List α) : Prop :=
  ∀ first second : ℕ, first < second → second ≤ first + k → second < loaded.length →
    loaded[first]? ≠ loaded[second]?

theorem Spread.nil : Spread k ([] : List α) :=
  fun _ _ _ _ below => absurd below (Nat.not_lt_zero _)

/-- A list stays spread with an item that is none of its last `k`. -/
theorem Spread.concat {loaded : List α} {item : α} (spread : Spread k loaded)
    (fresh : item ∉ loaded.drop (loaded.length - k)) : Spread k (loaded ++ [item]) := by
  intro first second ordered close below same
  rw [List.length_append, List.length_singleton] at below
  rw [List.getElem?_append_left (by omega)] at same
  by_cases last : second = loaded.length
  · subst last
    rw [List.getElem?_concat_length] at same
    apply fresh
    rw [List.mem_iff_getElem?]
    refine ⟨first - (loaded.length - k), ?_⟩
    rw [List.getElem?_drop, ← same]
    congr 1
    omega
  · rw [List.getElem?_append_left (by omega)] at same
    exact spread first second ordered close (by omega) same

theorem Spread.drop {loaded : List α} (spread : Spread k loaded) (n : ℕ) :
    Spread k (loaded.drop n) := by
  intro first second ordered close below same
  rw [List.length_drop] at below
  rw [List.getElem?_drop, List.getElem?_drop] at same
  exact spread (n + first) (n + second) (by omega) (by omega) (by omega) same

/-- Any `k + 1` items in a row are different. -/
theorem Spread.nodup_take {loaded : List α} (spread : Spread k loaded) :
    (loaded.take (k + 1)).Nodup := by
  rw [List.nodup_iff_getElem?_ne_getElem?]
  intro first second ordered below same
  rw [List.length_take] at below
  rw [List.getElem?_take_of_lt (by omega), List.getElem?_take_of_lt (by omega)] at same
  exact spread first second ordered (by omega) (by omega) same

variable [DecidableEq α] {cache middle after : Finset α} {requests first second : List α}
variable {loads : ℕ} {item : α}

/-- The requests are served from a cache of at most `h` items that is `cache` before and `after`
behind them, with so many loads. -/
inductive Services (h : ℕ) : Finset α → List α → ℕ → Finset α → Prop where
  | nil (cache : Finset α) : Services h cache [] 0 cache
  | cons {cache next after : Finset α} {item : α} {rest : List α} {loads : ℕ}
      (present : item ∈ next) (fits : next.card ≤ h) (serves : Services h next rest loads after) :
      Services h cache (item :: rest) ((next \ cache).card + loads) after

/-- Requests are served in two parts. -/
theorem Services.split (serves : Services h cache (first ++ second) loads after) :
    ∃ middle early late, Services h cache first early middle ∧
      Services h middle second late after ∧ loads = early + late := by
  induction first generalizing cache loads with
  | nil => exact ⟨cache, 0, loads, .nil cache, serves, (Nat.zero_add loads).symm⟩
  | cons item rest inductionHypothesis =>
      cases serves with
      | cons present fits serves =>
          obtain ⟨middle, early, late, front, back, rfl⟩ := inductionHypothesis serves
          exact ⟨middle, _, late, .cons present fits front, back, (Nat.add_assoc _ _ _).symm⟩

/-- The last request is in the cache, which is not too large. -/
theorem Services.last (serves : Services h cache requests loads after)
    (isLast : requests.getLast? = some item) : item ∈ after ∧ after.card ≤ h := by
  induction serves with
  | nil => cases isLast
  | cons present fits serves inductionHypothesis =>
      rename_i next after head rest loads
      cases rest with
      | nil =>
          cases serves
          cases isLast
          exact ⟨present, fits⟩
      | cons second others =>
          apply inductionHypothesis
          rwa [List.getLast?_cons_cons] at isLast

/-- Every request that is not in the cache at first is loaded. -/
theorem Services.loads_ge (serves : Services h cache requests loads after) :
    (requests.toFinset \ cache).card ≤ loads := by
  induction serves with
  | nil => simp
  | cons present fits serves inductionHypothesis =>
      rename_i cache next after head rest loads
      have covered : (head :: rest).toFinset \ cache ⊆
          (next \ cache) ∪ (rest.toFinset \ next) := by
        intro item member
        obtain ⟨requested, missing⟩ := Finset.mem_sdiff.mp member
        rw [Finset.mem_union, Finset.mem_sdiff, Finset.mem_sdiff]
        by_cases brought : item ∈ next
        · exact Or.inl ⟨brought, missing⟩
        · right
          refine ⟨?_, brought⟩
          rcases List.mem_cons.mp (List.mem_toFinset.mp requested) with rfl | behind
          · exact absurd present brought
          · exact List.mem_toFinset.mpr behind
      calc ((head :: rest).toFinset \ cache).card
          ≤ ((next \ cache) ∪ (rest.toFinset \ next)).card := Finset.card_le_card covered
        _ ≤ (next \ cache).card + (rest.toFinset \ next).card := Finset.card_union_le _ _
        _ ≤ (next \ cache).card + loads := Nat.add_le_add_left inductionHypothesis _

/-- What is brought in early can be brought in late. -/
theorem Services.delay (serves : Services h middle requests loads after) (cache : Finset α) :
    ∃ fewer last, Services h cache requests fewer last ∧
      fewer ≤ (middle \ cache).card + loads := by
  cases serves with
  | nil => exact ⟨0, cache, .nil cache, Nat.zero_le _⟩
  | cons present fits serves =>
      rename_i next item rest loads
      refine ⟨_, after, .cons present fits serves, ?_⟩
      have covered : next \ cache ⊆ (middle \ cache) ∪ (next \ middle) := by
        intro item member
        obtain ⟨brought, missing⟩ := Finset.mem_sdiff.mp member
        rw [Finset.mem_union, Finset.mem_sdiff, Finset.mem_sdiff]
        by_cases early : item ∈ middle
        · exact Or.inl ⟨early, missing⟩
        · exact Or.inr ⟨brought, early⟩
      have cards := (Finset.card_le_card covered).trans (Finset.card_union_le _ _)
      omega

/-- Fewer requests cost no more. -/
theorem Services.sublist {some : List α} (fewer : List.Sublist some requests)
    (serves : Services h cache requests loads after) :
    ∃ cheaper last, Services h cache some cheaper last ∧ cheaper ≤ loads := by
  induction fewer generalizing cache loads with
  | slnil => exact ⟨loads, after, serves, Nat.le_refl _⟩
  | cons item _ inductionHypothesis =>
      cases serves with
      | cons present fits serves =>
          obtain ⟨cheaper, last, served, less⟩ := inductionHypothesis serves
          obtain ⟨cheapest, final, delayed, least⟩ := served.delay cache
          exact ⟨cheapest, final, delayed, by omega⟩
  | cons_cons item _ inductionHypothesis =>
      cases serves with
      | cons present fits serves =>
          obtain ⟨cheaper, last, served, less⟩ := inductionHypothesis serves
          exact ⟨_, last, .cons present fits served, Nat.add_le_add_left less _⟩

/-- A cache that holds one of the items has room for few of the others. -/
theorem card_sdiff_ge {items : List α} (nodup : items.Nodup) (new : item ∉ items)
    (held : item ∈ cache) (fits : cache.card ≤ h) :
    items.length + 1 - h ≤ (items.toFinset \ cache).card := by
  have others : cache ∩ items.toFinset ⊆ cache.erase item := by
    intro other member
    obtain ⟨inCache, listed⟩ := Finset.mem_inter.mp member
    refine Finset.mem_erase.mpr ⟨?_, inCache⟩
    rintro rfl
    exact new (List.mem_toFinset.mp listed)
  have few := Finset.card_le_card others
  rw [Finset.card_erase_of_mem held] at few
  have all := Finset.card_sdiff_add_card_inter items.toFinset cache
  rw [List.toFinset_card_of_nodup nodup, Finset.inter_comm] at all
  have positive := Finset.card_pos.mpr ⟨item, held⟩
  omega

/-- Every `k` spread requests after one that is in the cache cost `k + 1 - h` loads. -/
theorem Services.blocks (blocks : ℕ) {requests : List α} {before : α}
    (spread : Spread k (before :: requests)) (long : blocks * k ≤ requests.length)
    (held : before ∈ cache) (fits : cache.card ≤ h)
    (serves : Services h cache requests loads after) : blocks * (k + 1 - h) ≤ loads := by
  induction blocks generalizing cache loads requests before with
  | zero => simp
  | succ blocks inductionHypothesis =>
      cases k with
      | zero =>
          have positive := Finset.card_pos.mpr ⟨before, held⟩
          have none : 0 + 1 - h = 0 := by omega
          rw [none, Nat.mul_zero]
          exact Nat.zero_le _
      | succ k =>
          rw [Nat.succ_mul] at long
          have below : k < requests.length := by omega
          rw [← List.take_append_drop (k + 1) requests] at serves
          obtain ⟨middle, early, late, front, back, rfl⟩ := serves.split
          have length : (requests.take (k + 1)).length = k + 1 := List.length_take_of_le (by omega)
          have nodup := spread.nodup_take
          rw [List.take_succ_cons, List.nodup_cons] at nodup
          have now := (card_sdiff_ge nodup.2 nodup.1 held fits).trans front.loads_ge
          rw [length] at now
          have isLast : (requests.take (k + 1)).getLast? = some requests[k] := by
            rw [← List.take_append_getElem below, List.getLast?_concat]
          obtain ⟨lastHeld, lastFits⟩ := front.last isLast
          have isNext : (before :: requests).drop (k + 1) =
              requests[k] :: requests.drop (k + 1) := by
            rw [List.drop_succ_cons, List.drop_eq_getElem_cons below]
          have later : blocks * (k + 1 + 1 - h) ≤ late := by
            apply inductionHypothesis _ _ lastHeld lastFits back
            · rw [← isNext]
              exact spread.drop (k + 1)
            · rw [List.length_drop]
              omega
          rw [Nat.succ_mul]
          omega

/-- Spread requests among those that an empty cache serves cost it `k + 1 - h` loads for every
`k` of them. -/
theorem Services.spread_le {loaded : List α} (positive : 0 < k) (spread : Spread k loaded)
    (among : List.Sublist loaded requests) (serves : Services h ∅ requests loads after) :
    loaded.length / k * (k + 1 - h) ≤ loads := by
  obtain ⟨cheaper, last, served, less⟩ := serves.sublist among
  refine le_trans ?_ less
  obtain few | many := Nat.lt_or_ge loaded.length k
  · rw [Nat.div_eq_of_lt few, Nat.zero_mul]
    exact Nat.zero_le _
  · rw [← List.take_append_drop k loaded] at served
    obtain ⟨middle, early, late, front, back, rfl⟩ := served.split
    have length : (loaded.take k).length = k := List.length_take_of_le many
    have nodup : (loaded.take k).Nodup := by
      have longer := spread.nodup_take
      exact longer.sublist (List.take_sublist_take_left (Nat.le_succ k))
    have first : k ≤ early := by
      have all := front.loads_ge
      rwa [Finset.sdiff_empty, List.toFinset_card_of_nodup nodup, length] at all
    obtain ⟨place, isPlace⟩ := Nat.exists_eq_succ_of_ne_zero positive.ne'
    have below : place < loaded.length := by omega
    have isLast : (loaded.take k).getLast? = some loaded[place] := by
      rw [isPlace, ← List.take_append_getElem below, List.getLast?_concat]
    obtain ⟨lastHeld, lastFits⟩ := front.last isLast
    have held := Finset.card_pos.mpr ⟨_, lastHeld⟩
    have isNext : loaded.drop place = loaded[place] :: loaded.drop k := by
      rw [isPlace, List.drop_eq_getElem_cons below]
    have rest : (loaded.length / k - 1) * (k + 1 - h) ≤ late := by
      apply Services.blocks _ _ _ lastHeld lastFits back
      · rw [← isNext]
        exact spread.drop place
      · rw [List.length_drop, Nat.sub_mul, Nat.one_mul]
        have whole := Nat.div_mul_le_self loaded.length k
        omega
    have one : 1 ≤ loaded.length / k := (Nat.one_le_div_iff positive).mpr many
    calc loaded.length / k * (k + 1 - h)
        = (k + 1 - h) + (loaded.length / k - 1) * (k + 1 - h) := by
          rw [Nat.sub_mul, Nat.one_mul, Nat.add_sub_cancel']
          exact Nat.le_mul_of_pos_left _ one
      _ ≤ early + late := by
          refine Nat.add_le_add ?_ rest
          omega

end OsProjects.Theory
