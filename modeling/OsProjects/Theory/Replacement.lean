import Mathlib.Data.List.Nodup
import Mathlib.Data.Nat.ModEq

/-!
Owns replacement in turn: items arrive one after the other, each goes to the next of
`capacity` slots, around the end, and takes it over from the item that was there.

Only the last `capacity` items still have their slots. When no item arrives that still
has one, they are all different. Of two such caches, one before the other, the back one
sees only the accesses that the front one does not answer.

Does not own what an item or a slot is.
-/

namespace OsProjects.Theory

variable {α : Type} {capacity : ℕ} {history : List α} {item other arriving : α} {slot : ℕ}

/-- The last items to arrive, as many as there are slots. -/
def recent (capacity : ℕ) (history : List α) : List α :=
  history.drop (history.length - capacity)

/-- The item has the slot: it arrived there, and nothing has taken it over since. -/
def Assigned (capacity : ℕ) (history : List α) (item : α) (slot : ℕ) : Prop :=
  ∃ turn, history.length ≤ turn + capacity ∧ history[turn]? = some item ∧ slot = turn % capacity

/-- Two turns that are less than a round apart are at different slots. -/
theorem turn_unique {first second : ℕ} (last : ℕ) (firstRecent : last ≤ first + capacity)
    (secondRecent : last ≤ second + capacity) (firstBelow : first < last)
    (secondBelow : second < last) (same : first % capacity = second % capacity) :
    first = second := by
  have within : ∀ early late : ℕ, early ≤ late → late < early + capacity →
      early % capacity = late % capacity → early = late := by
    intro early late ordered close same
    have divides : late - early ≡ 0 [MOD capacity] := by
      apply Nat.ModEq.add_left_cancel' early
      rw [Nat.add_sub_cancel' ordered]
      exact same.symm
    have none : late - early = 0 :=
      Nat.eq_zero_of_dvd_of_lt (Nat.modEq_zero_iff_dvd.mp divides) (by omega)
    omega
  rcases Nat.le_total first second with ordered | ordered
  · exact within first second ordered (by omega) same
  · exact (within second first ordered (by omega) same.symm).symm

theorem Assigned.slot_lt (assigned : Assigned capacity history item slot)
    (positive : 0 < capacity) : slot < capacity := by
  rcases assigned with ⟨turn, _, _, isSlot⟩
  rw [isSlot]
  exact Nat.mod_lt _ positive

theorem getElem?_lt {turn : ℕ} (arrived : history[turn]? = some item) : turn < history.length :=
  (List.getElem?_eq_some_iff.mp arrived).1

/-- A slot has one item. -/
theorem Assigned.unique (first : Assigned capacity history item slot)
    (second : Assigned capacity history other slot) : item = other := by
  rcases first with ⟨turn, firstRecent, firstArrived, isSlot⟩
  rcases second with ⟨turn', secondRecent, secondArrived, isSlot'⟩
  have same : turn = turn' := turn_unique _ firstRecent secondRecent
    (getElem?_lt firstArrived) (getElem?_lt secondArrived) (isSlot.symm.trans isSlot')
  subst same
  exact Option.some.inj (firstArrived.symm.trans secondArrived)

/-- While slots are left, the next one has no item. -/
theorem not_assigned_next (room : history.length < capacity) :
    ¬Assigned capacity history item history.length := by
  rintro ⟨turn, _, arrived, isSlot⟩
  have below := getElem?_lt arrived
  rw [Nat.mod_eq_of_lt (by omega)] at isSlot
  omega

/-- An arrival takes over its slot and no other. -/
theorem assigned_append (positive : 0 < capacity) :
    Assigned capacity (history ++ [arriving]) item slot ↔
      item = arriving ∧ slot = history.length % capacity ∨
        Assigned capacity history item slot ∧ slot ≠ history.length % capacity := by
  constructor
  · rintro ⟨turn, isRecent, arrived, isSlot⟩
    have below := getElem?_lt arrived
    rw [List.length_append, List.length_singleton] at isRecent below
    by_cases last : turn = history.length
    · left
      rw [last, List.getElem?_concat_length] at arrived
      rw [last] at isSlot
      exact ⟨(Option.some.inj arrived).symm, isSlot⟩
    · right
      rw [List.getElem?_append_left (by omega)] at arrived
      refine ⟨⟨turn, by omega, arrived, isSlot⟩, fun isLast => last ?_⟩
      exact turn_unique (history.length + 1) isRecent (by omega) below (by omega)
        (isSlot.symm.trans isLast)
  · rintro (⟨isArriving, isLast⟩ | ⟨⟨turn, isRecent, arrived, isSlot⟩, notLast⟩)
    · refine ⟨history.length, ?_, ?_, isLast⟩
      · rw [List.length_append, List.length_singleton]
        omega
      · rw [List.getElem?_concat_length, isArriving]
    · refine ⟨turn, ?_, ?_, isSlot⟩
      · have notOldest : history.length ≠ turn + capacity := by
          intro oldest
          apply notLast
          rw [isSlot, oldest, Nat.add_mod_right]
        rw [List.length_append, List.length_singleton]
        omega
      · rw [List.getElem?_append_left (getElem?_lt arrived), arrived]

theorem mem_recent :
    item ∈ recent capacity history ↔ ∃ slot, Assigned capacity history item slot := by
  unfold recent
  rw [List.mem_iff_getElem?]
  simp only [List.getElem?_drop]
  constructor
  · rintro ⟨place, arrived⟩
    exact ⟨_, history.length - capacity + place, by omega, arrived, rfl⟩
  · rintro ⟨slot, turn, isRecent, arrived, _⟩
    refine ⟨turn - (history.length - capacity), ?_⟩
    have below := getElem?_lt arrived
    rw [show history.length - capacity + (turn - (history.length - capacity)) = turn by omega]
    exact arrived

/-- Items that have one slot each are different. -/
theorem nodup_recent (single : ∀ item slot slot', Assigned capacity history item slot →
    Assigned capacity history item slot' → slot = slot') : (recent capacity history).Nodup := by
  unfold recent
  rw [List.nodup_iff_getElem?_ne_getElem?]
  intro first second ordered below same
  rw [List.length_drop] at below
  rw [List.getElem?_drop, List.getElem?_drop] at same
  have secondBelow : history.length - capacity + second < history.length := by omega
  have arrived : history[history.length - capacity + second]? = some
      history[history.length - capacity + second] := List.getElem?_eq_getElem secondBelow
  have slots := single _ _ _ ⟨_, by omega, same.trans arrived, rfl⟩ ⟨_, by omega, arrived, rfl⟩
  have turns := turn_unique history.length (by omega) (by omega) (by omega) secondBelow
    slots
  omega

/-! ## The cache as a queue -/

/-- A queue with room for some items, and the number of accesses it has missed. -/
structure Queue (α : Type) where
  items : List α
  misses : ℕ

/-- An access that the queue does not answer puts the item at its end; when there is no
room for it, the first one leaves. -/
def Queue.access [DecidableEq α] (capacity : ℕ) (queue : Queue α) (item : α) : Queue α :=
  if item ∈ queue.items then
    queue
  else if queue.items.length < capacity then
    ⟨queue.items ++ [item], queue.misses + 1⟩
  else
    ⟨queue.items.tail ++ [item], queue.misses + 1⟩

/-- While there is room an arrival takes nothing away from the last items; then the
first of them. -/
theorem recent_append (positive : 0 < capacity) (history : List α) (arriving : α) :
    recent capacity (history ++ [arriving]) =
      if (recent capacity history).length < capacity then recent capacity history ++ [arriving]
      else (recent capacity history).tail ++ [arriving] := by
  unfold recent
  rw [List.length_append, List.length_singleton, List.length_drop]
  split
  · next room =>
      rw [show history.length + 1 - capacity = 0 by omega,
        show history.length - capacity = 0 by omega]
      rfl
  · next full =>
      rw [List.tail_drop, List.drop_append_of_le_length (by omega),
        show history.length - capacity + 1 = history.length + 1 - capacity by omega]

/-- The queue holds the last items that have arrived, and counts the arrivals. -/
def Queue.after (capacity : ℕ) (history : List α) : Queue α :=
  ⟨recent capacity history, history.length⟩

theorem Queue.access_after_of_mem [DecidableEq α] (held : item ∈ recent capacity history) :
    (Queue.after capacity history).access capacity item = Queue.after capacity history :=
  if_pos held

theorem Queue.access_after_of_not_mem [DecidableEq α] (positive : 0 < capacity)
    (missed : item ∉ recent capacity history) :
    (Queue.after capacity history).access capacity item =
      Queue.after capacity (history ++ [item]) := by
  unfold Queue.after Queue.access
  rw [if_neg missed, recent_append positive, List.length_append, List.length_singleton]
  by_cases room : (recent capacity history).length < capacity
  · rw [if_pos room, if_pos room]
  · rw [if_neg room, if_neg room]

/-! ## One cache before another -/

/-- The items that have come into two caches, in order. -/
structure Arrivals (α : Type) where
  front : List α
  back : List α

section Accesses

variable [DecidableEq α] {frontCapacity backCapacity : ℕ} {arrivals : Arrivals α}

/-- An access that the front cache does not answer brings the item there, and into the
back cache as well when that does not have it either. -/
def Arrivals.access (frontCapacity backCapacity : ℕ) (arrivals : Arrivals α) (item : α) :
    Arrivals α :=
  if item ∈ recent frontCapacity arrivals.front then
    arrivals
  else if item ∈ recent backCapacity arrivals.back then
    { arrivals with front := arrivals.front ++ [item] }
  else
    ⟨arrivals.front ++ [item], arrivals.back ++ [item]⟩

theorem Arrivals.access_of_mem_front (held : item ∈ recent frontCapacity arrivals.front) :
    arrivals.access frontCapacity backCapacity item = arrivals := if_pos held

theorem Arrivals.access_of_mem_back (missed : item ∉ recent frontCapacity arrivals.front)
    (held : item ∈ recent backCapacity arrivals.back) :
    arrivals.access frontCapacity backCapacity item =
      { arrivals with front := arrivals.front ++ [item] } := by
  rw [Arrivals.access, if_neg missed, if_pos held]

theorem Arrivals.access_of_not_mem (missed : item ∉ recent frontCapacity arrivals.front)
    (missedToo : item ∉ recent backCapacity arrivals.back) :
    arrivals.access frontCapacity backCapacity item =
      ⟨arrivals.front ++ [item], arrivals.back ++ [item]⟩ := by
  rw [Arrivals.access, if_neg missed, if_neg missedToo]

theorem Arrivals.length_back_le_access (arrivals : Arrivals α) (item : α) :
    arrivals.back.length ≤ (arrivals.access frontCapacity backCapacity item).back.length := by
  unfold Arrivals.access
  split
  · exact Nat.le_refl _
  · split
    · exact Nat.le_refl _
    · rw [List.length_append]
      exact Nat.le_add_right _ _

/-- Accesses never take an arrival back. -/
theorem Arrivals.length_back_le_foldl (arrivals : Arrivals α) (items : List α) :
    arrivals.back.length ≤
      (items.foldl (Arrivals.access frontCapacity backCapacity) arrivals).back.length := by
  induction items generalizing arrivals with
  | nil => exact Nat.le_refl _
  | cons item rest inductionHypothesis =>
      exact (arrivals.length_back_le_access item).trans (inductionHypothesis _)

end Accesses

end OsProjects.Theory
