import Mathlib.Data.List.Range
import Mathlib.Logic.Function.Basic
import Mathlib.Data.Nat.ModEq

/-!
Owns the circular buffer with one spare slot: an array with a head and a tail
index that both move up by one modulo its size.

`contents` reads the stored elements from the head to the tail. The two
operations are total, as in programs that leave the test for an empty or a full
ring to someone else; the results say what they do where they are safe.

Does not own who calls the operations or in which order.
-/

namespace OsProjects.Theory

/-- A circular buffer: the slots, the index of the next element to take and the
index of the next slot to fill. -/
structure Ring (α : Type) (size : ℕ) where
  slot : Fin size → α
  head : Fin size
  tail : Fin size

namespace Ring

variable {α : Type} {size : ℕ}

/-- The index `places` further on, around the end of the array. -/
def advance (i : Fin size) (places : ℕ) : Fin size :=
  ⟨(i + places) % size, Nat.mod_lt _ (Nat.zero_lt_of_lt i.isLt)⟩

/-- The number of stored elements. -/
def count (ring : Ring α size) : ℕ :=
  (ring.tail + size - ring.head) % size

/-- The stored elements, from the head to the tail. -/
def contents (ring : Ring α size) : List α :=
  (List.range ring.count).map fun place => ring.slot (advance ring.head place)

/-- Slot `i` holds a stored element. -/
def Holds (ring : Ring α size) (i : Fin size) : Prop :=
  ∃ place, place < ring.count ∧ advance ring.head place = i

/-- Fills the slot at the tail. -/
def push (ring : Ring α size) (item : α) : Ring α size :=
  { ring with
    slot := Function.update ring.slot ring.tail item
    tail := advance ring.tail 1 }

/-- Gives up the slot at the head. -/
def pop (ring : Ring α size) : Ring α size :=
  { ring with head := advance ring.head 1 }

/-! ## Places -/

theorem advance_zero (i : Fin size) : advance i 0 = i := by
  apply Fin.ext
  exact Nat.mod_eq_of_lt i.isLt

theorem advance_advance (i : Fin size) (first second : ℕ) :
    advance (advance i first) second = advance i (first + second) := by
  apply Fin.ext
  simp only [advance, Nat.mod_add_mod, Nat.add_assoc]

theorem advance_injective {i : Fin size} {first second : ℕ} (firstBelow : first < size)
    (secondBelow : second < size) (same : advance i first = advance i second) :
    first = second := by
  have congruent : (i + first : ℕ) ≡ i + second [MOD size] := congrArg Fin.val same
  exact Nat.ModEq.eq_of_lt_of_lt (Nat.ModEq.add_left_cancel' _ congruent) firstBelow secondBelow

theorem count_lt (ring : Ring α size) : ring.count < size :=
  Nat.mod_lt _ (Nat.zero_lt_of_lt ring.head.isLt)

/-- The tail is `count` places after the head. -/
theorem advance_count (ring : Ring α size) : advance ring.head ring.count = ring.tail := by
  apply Fin.ext
  have headBelow := ring.head.isLt
  simp only [advance, count, Nat.add_mod_mod]
  rw [show (ring.head : ℕ) + (ring.tail + size - ring.head) = ring.tail + size by omega,
    Nat.add_mod_right, Nat.mod_eq_of_lt ring.tail.isLt]

theorem count_eq {ring : Ring α size} {places : ℕ} (below : places < size)
    (reaches : advance ring.head places = ring.tail) : ring.count = places := by
  rw [← ring.advance_count] at reaches
  exact (advance_injective below ring.count_lt reaches).symm

@[simp] theorem length_contents (ring : Ring α size) : ring.contents.length = ring.count := by
  simp [contents]

/-- The tail is one place before the head exactly when one slot is left. -/
theorem full_iff (ring : Ring α size) :
    advance ring.tail 1 = ring.head ↔ ring.count + 1 = size := by
  have countBelow := ring.count_lt
  rw [← ring.advance_count, advance_advance]
  constructor
  · intro full
    by_contra room
    have wraps : ring.count + 1 = 0 :=
      advance_injective (by omega) (by omega) (full.trans (advance_zero _).symm)
    omega
  · intro last
    apply Fin.ext
    simp only [advance]
    rw [last, Nat.add_mod_right, Nat.mod_eq_of_lt ring.head.isLt]

/-- The slot at the tail is never in use. -/
theorem tail_free (ring : Ring α size) : ¬ ring.Holds ring.tail := by
  intro held
  obtain ⟨place, stored, reaches⟩ := held
  have last := count_eq (stored.trans ring.count_lt) reaches
  omega

/-! ## Filling and taking -/

theorem count_push {ring : Ring α size} (room : ring.count + 1 < size) (item : α) :
    (ring.push item).count = ring.count + 1 := by
  apply count_eq room
  show advance ring.head (ring.count + 1) = advance ring.tail 1
  rw [← ring.advance_count, advance_advance]

/-- A filled slot is the new last element, and no stored element changes. -/
theorem contents_push {ring : Ring α size} (room : ring.count + 1 < size) (item : α) :
    (ring.push item).contents = ring.contents ++ [item] := by
  have kept : ∀ place ∈ List.range ring.count,
      (ring.push item).slot (advance ring.head place) =
        ring.slot (advance ring.head place) := by
    intro place stored
    apply Function.update_of_ne
    intro atTail
    exact ring.tail_free ⟨place, List.mem_range.mp stored, atTail⟩
  have filled : (ring.push item).slot (advance ring.head ring.count) = item := by
    rw [ring.advance_count]
    exact Function.update_self _ _ _
  unfold contents
  rw [count_push room, List.range_succ, List.map_append]
  show _ ++ [(ring.push item).slot (advance ring.head ring.count)] = _
  rw [filled]
  congr 1
  exact List.map_congr_left kept

theorem count_pop {ring : Ring α size} (stored : 0 < ring.count) :
    ring.pop.count = ring.count - 1 := by
  have countBelow := ring.count_lt
  apply count_eq (by omega)
  show advance (advance ring.head 1) (ring.count - 1) = ring.tail
  rw [advance_advance, show 1 + (ring.count - 1) = ring.count by omega]
  exact ring.advance_count

/-- Taking from a ring that holds something removes its first element. -/
theorem contents_pop {ring : Ring α size} (stored : 0 < ring.count) :
    ring.contents = ring.slot ring.head :: ring.pop.contents := by
  unfold contents
  rw [count_pop stored]
  obtain ⟨rest, more⟩ : ∃ rest, ring.count = rest + 1 := ⟨ring.count - 1, by omega⟩
  rw [more, List.range_succ_eq_map, List.map_cons, List.map_map, advance_zero]
  congr 1
  apply List.map_congr_left
  intro place _
  show ring.slot (advance ring.head (place + 1)) =
    ring.slot (advance (advance ring.head 1) place)
  rw [advance_advance, Nat.add_comm 1 place]

/-- Filling a slot leaves the slots in use as they are. -/
theorem push_keeps {ring : Ring α size} {i : Fin size} (room : ring.count + 1 < size) (item : α)
    (held : ring.Holds i) : (ring.push item).Holds i ∧ (ring.push item).slot i = ring.slot i := by
  constructor
  · obtain ⟨place, stored, reaches⟩ := held
    refine ⟨place, ?_, reaches⟩
    rw [count_push room]
    omega
  · apply Function.update_of_ne
    intro atTail
    rw [atTail] at held
    exact ring.tail_free held

/-- Taking gives up the slot at the head and no other. -/
theorem pop_keeps {ring : Ring α size} {i : Fin size} (held : ring.Holds i)
    (behind : i ≠ ring.head) : ring.pop.Holds i := by
  obtain ⟨place, stored, reaches⟩ := held
  cases place with
  | zero =>
      rw [advance_zero] at reaches
      exact absurd reaches.symm behind
  | succ place =>
      refine ⟨place, ?_, ?_⟩
      · rw [count_pop (Nat.zero_lt_of_lt stored)]
        omega
      · show advance (advance ring.head 1) place = i
        rw [advance_advance, Nat.add_comm 1 place, reaches]

/-- Filling brings the slot at the tail into use. -/
theorem holds_push {ring : Ring α size} {i : Fin size} (room : ring.count + 1 < size) (item : α) :
    (ring.push item).Holds i ↔ ring.Holds i ∨ i = ring.tail := by
  unfold Holds
  rw [count_push room]
  show (∃ place, place < ring.count + 1 ∧ advance ring.head place = i) ↔ _
  constructor
  · rintro ⟨place, stored, reaches⟩
    by_cases before : place < ring.count
    · exact .inl ⟨place, before, reaches⟩
    · have last : place = ring.count := by omega
      rw [last, ring.advance_count] at reaches
      exact .inr reaches.symm
  · rintro (⟨place, stored, reaches⟩ | atTail)
    · exact ⟨place, by omega, reaches⟩
    · exact ⟨ring.count, by omega, ring.advance_count.trans atTail.symm⟩

/-- The slot at the head is in use when anything is stored. -/
theorem head_held {ring : Ring α size} (stored : 0 < ring.count) : ring.Holds ring.head :=
  ⟨0, stored, advance_zero _⟩

/-- Taking brings the slot at the head out of use. -/
theorem holds_pop {ring : Ring α size} {i : Fin size} (stored : 0 < ring.count) :
    ring.pop.Holds i ↔ ring.Holds i ∧ i ≠ ring.head := by
  constructor
  · rintro ⟨place, remains, reaches⟩
    rw [count_pop stored] at remains
    have reached : advance ring.head (place + 1) = i := by
      rw [← reaches, Nat.add_comm place 1]
      exact (advance_advance ring.head 1 place).symm
    have countBelow := ring.count_lt
    refine ⟨⟨place + 1, by omega, reached⟩, fun atHead => ?_⟩
    have wraps : place + 1 = 0 :=
      advance_injective (by omega) (by omega)
        (reached.trans (atHead.trans (advance_zero _).symm))
    omega
  · rintro ⟨held, behind⟩
    exact pop_keeps held behind

end Ring

end OsProjects.Theory
