import Mathlib.Data.Fintype.Sum
import OsProjects.BoundedBuffer.Model

/-!
Owns the invariants of the bounded buffer: how the semaphores, the threads inside the
two functions and the stored items add up, who holds the lock, and what the histories
say of the buffer.

A thread past its `sem_wait` holds a claim: a producer on an empty slot until it has
filled it, then on a post of `full`; a consumer on an item until it has taken it, then
on a post of `empty`. Every slot is counted once by `empty`, a claim or an item, and
every item once by `full` or a claim.

Does not own what follows from them.
-/

namespace OsProjects.BoundedBuffer

open OsProjects.Theory

variable {Producer Consumer : Type}
variable {s after : State Producer Consumer} {t : Thread Producer Consumer}

/-- Which kind of thread stands where. -/
def State.places (s : State Producer Consumer) : Thread Producer Consumer → Bool × ThreadAt :=
  fun t => (t.isLeft, s.place t)

/-- The thread counts against `empty`: it is about to fill a slot or has just emptied
one. -/
def claimsSlot : Bool × ThreadAt → Bool
  | (true, .locking) | (true, .inside) | (false, .unlocking) | (false, .posting) => true
  | _ => false

/-- The thread counts against `full`: it is about to take an item or has just stored
one. -/
def claimsItem : Bool × ThreadAt → Bool
  | (false, .locking) | (false, .inside) | (true, .unlocking) | (true, .posting) => true
  | _ => false

/-- The thread is between lock and unlock. -/
def ThreadAt.holdsLock : ThreadAt → Bool
  | .inside | .unlocking => true
  | _ => false

/-- The lock is held by the thread between lock and unlock. -/
def Exclusive (s : State Producer Consumer) : Prop :=
  ∀ t, (s.place t).holdsLock = true ↔ s.lock = some t

/-- The items in the buffer are those inserted and not yet removed, in the slots that
are written and not yet read. -/
structure Historic (s : State Producer Consumer) : Prop where
  ordered : s.removed ++ s.buffer.ring.contents = s.inserted
  unread : ∀ slot, slot ∈ s.unread ↔ s.buffer.ring.Holds slot

section Counting

variable [Fintype Producer] [Fintype Consumer]

/-- Every slot and every item is counted once. -/
structure Conserved (s : State Producer Consumer) : Prop where
  slots : s.empty + threadsAt claimsSlot s.places + s.buffer.ring.count = bufferSize
  items : s.full + threadsAt claimsItem s.places = s.buffer.ring.count

/-- What every step keeps. -/
structure Sound (s : State Producer Consumer) : Prop extends Conserved s where
  exclusive : Exclusive s
  historic : Historic s

/-- A thread that is about to take an item finds one. -/
theorem Conserved.stored (conserved : Conserved s) {j : Consumer}
    (at_j : s.place (.inr j) = .inside) : 0 < s.buffer.ring.count := by
  have items := conserved.items
  have present : 0 < threadsAt claimsItem s.places :=
    threadsAt_pos (.inr j) (by simp [State.places, at_j, claimsItem])
  omega

/-- A thread that is about to fill a slot finds an empty one. -/
theorem Conserved.room (conserved : Conserved s) {i : Producer}
    (at_i : s.place (.inl i) = .inside) : s.buffer.ring.count < bufferSize := by
  have slots := conserved.slots
  have present : 0 < threadsAt claimsSlot s.places :=
    threadsAt_pos (.inl i) (by simp [State.places, at_i, claimsSlot])
  omega

/-- When every thread is at `sem_wait`, the units of the two semaphores are the slots
of the buffer. -/
theorem Conserved.units (conserved : Conserved s)
    (waiting : ∀ t, s.place t = .waiting) : s.empty + s.full = bufferSize := by
  have noSlot : threadsAt claimsSlot s.places = 0 := threadsAt_eq_zero (fun t => by
    cases t <;> simp [State.places, waiting, claimsSlot])
  have noItem : threadsAt claimsItem s.places = 0 := threadsAt_eq_zero (fun t => by
    cases t <;> simp [State.places, waiting, claimsItem])
  have slots := conserved.slots
  have items := conserved.items
  omega

theorem initBuffer_sound : Sound (initBuffer : State Producer Consumer) := by
  have count : (⟨fun _ => 0, 0, 0⟩ : Buffer).ring.count = 0 := rfl
  refine ⟨⟨?_, ?_⟩, ?_, ?_⟩
  · have none : threadsAt claimsSlot (initBuffer : State Producer Consumer).places = 0 :=
      threadsAt_eq_zero (fun t => by cases t <;> rfl)
    rw [none]
    exact congrArg (bufferSize + 0 + ·) count
  · have none : threadsAt claimsItem (initBuffer : State Producer Consumer).places = 0 :=
      threadsAt_eq_zero (fun t => by cases t <;> rfl)
    rw [none]
    exact count.symm
  · intro t
    simp [initBuffer, ThreadAt.holdsLock]
  · constructor
    · exact List.eq_nil_of_length_eq_zero ((Ring.length_contents _).trans count)
    · intro slot
      apply iff_of_false (Finset.notMem_empty slot)
      rintro ⟨place, stored, _⟩
      exact absurd (stored.trans_eq count) (Nat.not_lt_zero place)

end Counting

/-! ## One step -/

variable [DecidableEq Producer] [DecidableEq Consumer]

theorem places_move (s : State Producer Consumer) (t : Thread Producer Consumer)
    (place : ThreadAt) :
    (s.move t place).places = Function.update s.places t (t.isLeft, place) := by
  funext other
  by_cases same : other = t
  · subst same
    simp [State.places, State.move]
  · simp [State.places, State.move, same]

/-- A thread that moves outside lock and unlock leaves the lock alone. -/
theorem Exclusive.move (exclusive : Exclusive s) {place : ThreadAt}
    (same : (s.place t).holdsLock = place.holdsLock) : Exclusive (s.move t place) := by
  intro other
  by_cases isMover : other = t
  · subst isMover
    show (Function.update s.place other place other).holdsLock = true ↔ s.lock = some other
    rw [Function.update_self, ← same]
    exact exclusive other
  · show (Function.update s.place t place other).holdsLock = true ↔ s.lock = some other
    rw [Function.update_of_ne isMover]
    exact exclusive other

theorem Exclusive.lock (exclusive : Exclusive s) (free : s.lock = none) :
    Exclusive { s.move t .inside with lock := some t } := by
  intro other
  by_cases isMover : other = t
  · subst isMover
    simp [State.move, ThreadAt.holdsLock]
  · have before := exclusive other
    have notHolder : t ≠ other := fun same => isMover same.symm
    rw [free] at before
    simpa [State.move, isMover, notHolder] using before

theorem Exclusive.unlock (exclusive : Exclusive s) (at_t : s.place t = .unlocking) :
    Exclusive { s.move t .posting with lock := none } := by
  have holder : s.lock = some t := (exclusive t).mp (by rw [at_t]; rfl)
  intro other
  by_cases isMover : other = t
  · subst isMover
    simp [State.move, ThreadAt.holdsLock]
  · have before := exclusive other
    rw [holder] at before
    have notHolder : t ≠ other := fun same => isMover same.symm
    simpa [State.move, isMover, notHolder] using before

variable [Fintype Producer] [Fintype Consumer]

/-- The counts stay right when what the thread's claims change by is what the
semaphores and the buffer change by. -/
theorem Conserved.change (conserved : Conserved s) {place : ThreadAt}
    (moved : after.places = (s.move t place).places)
    (slots : after.empty + (claimsSlot (t.isLeft, place)).toNat + after.buffer.ring.count =
      s.empty + (claimsSlot (t.isLeft, s.place t)).toNat + s.buffer.ring.count)
    (items : after.full + (claimsItem (t.isLeft, place)).toNat + s.buffer.ring.count =
      s.full + (claimsItem (t.isLeft, s.place t)).toNat + after.buffer.ring.count) :
    Conserved after := by
  have slotsMoved := threadsAt_update claimsSlot s.places t (t.isLeft, place)
  have itemsMoved := threadsAt_update claimsItem s.places t (t.isLeft, place)
  rw [← places_move, ← moved] at slotsMoved itemsMoved
  have slotsBefore := conserved.slots
  have itemsBefore := conserved.items
  have place_t : s.places t = (t.isLeft, s.place t) := rfl
  rw [place_t] at slotsMoved itemsMoved
  exact ⟨by omega, by omega⟩

/-- A thread that moves between places without a claim changes nothing. -/
theorem Sound.move (sound : Sound s) {place : ThreadAt}
    (slot : claimsSlot (t.isLeft, s.place t) = claimsSlot (t.isLeft, place))
    (item : claimsItem (t.isLeft, s.place t) = claimsItem (t.isLeft, place))
    (lock : (s.place t).holdsLock = place.holdsLock) : Sound (s.move t place) := by
  refine ⟨sound.toConserved.change rfl ?_ ?_, sound.exclusive.move lock,
    ⟨sound.historic.ordered, sound.historic.unread⟩⟩
  · rw [slot]
    rfl
  · rw [item]
    rfl

/-- Passing `sem_wait` turns a unit of the semaphore into a claim. -/
theorem Sound.waited (sound : Sound s) (at_t : s.place t = .waiting)
    (positive : 0 < s.awaited t) : Sound (s.waited t) := by
  have exclusive : Exclusive (s.move t .locking) := sound.exclusive.move (by rw [at_t]; rfl)
  cases t with
  | inl i =>
      have positive : 0 < s.empty := positive
      refine ⟨sound.toConserved.change rfl ?_ ?_, exclusive,
        ⟨sound.historic.ordered, sound.historic.unread⟩⟩
      · simp only [at_t, State.waited, State.move, claimsSlot, Sum.isLeft_inl, Bool.toNat_true,
          Bool.toNat_false]
        omega
      · simp only [at_t, State.waited, State.move, claimsItem, Sum.isLeft_inl]
  | inr j =>
      have positive : 0 < s.full := positive
      refine ⟨sound.toConserved.change rfl ?_ ?_, exclusive,
        ⟨sound.historic.ordered, sound.historic.unread⟩⟩
      · simp only [at_t, State.waited, State.move, claimsSlot, Sum.isLeft_inr]
      · simp only [at_t, State.waited, State.move, claimsItem, Sum.isLeft_inr, Bool.toNat_true,
          Bool.toNat_false]
        omega

/-- Inside the lock, a claim on a slot becomes an item, and a claim on an item a
slot. -/
theorem Sound.accessed (sound : Sound s) (at_t : s.place t = .inside) : Sound (s.accessed t) := by
  have exclusive : Exclusive (s.move t .unlocking) := sound.exclusive.move (by rw [at_t]; rfl)
  cases t with
  | inl i =>
      have room := sound.room at_t
      have fits : s.buffer.ring.count + 1 < bufferSize + 1 := by omega
      have count := Ring.count_push fits (s.item (.inl i))
      refine ⟨sound.toConserved.change rfl ?_ ?_, exclusive, ?_⟩
      · simp only [at_t, State.accessed, State.move, ring_insertItem, count, claimsSlot,
          Sum.isLeft_inl, Bool.toNat_true, Bool.toNat_false]
        omega
      · simp only [at_t, State.accessed, State.move, ring_insertItem, count, claimsItem,
          Sum.isLeft_inl, Bool.toNat_true, Bool.toNat_false]
        omega
      · constructor
        · show s.removed ++ (s.buffer.ring.push (s.item (.inl i))).contents =
            s.inserted ++ [s.item (.inl i)]
          rw [Ring.contents_push fits, ← List.append_assoc, sound.historic.ordered]
        · intro slot
          show slot ∈ insert s.buffer.ring.tail s.unread ↔
            (s.buffer.ring.push (s.item (.inl i))).Holds slot
          rw [Ring.holds_push fits, Finset.mem_insert, sound.historic.unread slot, or_comm]
  | inr j =>
      have stored := sound.stored at_t
      have count := Ring.count_pop stored
      rcases ring_removeItem s.buffer with ⟨taken, rest⟩
      refine ⟨sound.toConserved.change rfl ?_ ?_, exclusive, ?_⟩
      · simp only [at_t, State.accessed, State.move, rest, count, claimsSlot, Sum.isLeft_inr,
          Bool.toNat_true, Bool.toNat_false]
        omega
      · simp only [at_t, State.accessed, State.move, rest, count, claimsItem, Sum.isLeft_inr,
          Bool.toNat_true, Bool.toNat_false]
        omega
      · constructor
        · show (s.removed ++ [(removeItem s.buffer).1]) ++ (removeItem s.buffer).2.ring.contents =
            s.inserted
          rw [taken, rest, List.append_assoc, List.singleton_append, ← Ring.contents_pop stored,
            sound.historic.ordered]
        · intro slot
          show slot ∈ s.unread.erase s.buffer.ring.head ↔ (removeItem s.buffer).2.ring.Holds slot
          rw [rest, Ring.holds_pop stored, Finset.mem_erase, sound.historic.unread slot, and_comm]

/-- `sem_post` turns the claim into a unit of the other semaphore. -/
theorem Sound.posted (sound : Sound s) (at_t : s.place t = .posting) : Sound (s.posted t) := by
  have exclusive : Exclusive (s.move t .outside) := sound.exclusive.move (by rw [at_t]; rfl)
  cases t with
  | inl i =>
      refine ⟨sound.toConserved.change rfl ?_ ?_, exclusive,
        ⟨sound.historic.ordered, sound.historic.unread⟩⟩
      · simp only [at_t, State.posted, State.move, claimsSlot, Sum.isLeft_inl]
      · simp only [at_t, State.posted, State.move, claimsItem, Sum.isLeft_inl, Bool.toNat_true,
          Bool.toNat_false]
  | inr j =>
      refine ⟨sound.toConserved.change rfl ?_ ?_, exclusive,
        ⟨sound.historic.ordered, sound.historic.unread⟩⟩
      · simp only [at_t, State.posted, State.move, claimsSlot, Sum.isLeft_inr, Bool.toNat_true,
          Bool.toNat_false]
      · simp only [at_t, State.posted, State.move, claimsItem, Sum.isLeft_inr]

theorem claims_inside (producer : Bool) :
    claimsSlot (producer, .inside) = claimsSlot (producer, .locking) ∧
      claimsItem (producer, .inside) = claimsItem (producer, .locking) := by
  cases producer with
  | false => exact ⟨rfl, rfl⟩
  | true => exact ⟨rfl, rfl⟩

theorem claims_posting (producer : Bool) :
    claimsSlot (producer, .posting) = claimsSlot (producer, .unlocking) ∧
      claimsItem (producer, .posting) = claimsItem (producer, .unlocking) := by
  cases producer with
  | false => exact ⟨rfl, rfl⟩
  | true => exact ⟨rfl, rfl⟩

/-- Taking the lock keeps the claim. -/
theorem Sound.locked (sound : Sound s) (at_t : s.place t = .locking) (free : s.lock = none) :
    Sound { s.move t .inside with lock := some t } := by
  rcases claims_inside t.isLeft with ⟨slot, item⟩
  refine ⟨sound.toConserved.change rfl ?_ ?_, sound.exclusive.lock free,
    ⟨sound.historic.ordered, sound.historic.unread⟩⟩
  · rw [at_t, slot]
    rfl
  · rw [at_t, item]
    rfl

theorem Sound.unlocked (sound : Sound s) (at_t : s.place t = .unlocking) :
    Sound { s.move t .posting with lock := none } := by
  rcases claims_posting t.isLeft with ⟨slot, item⟩
  refine ⟨sound.toConserved.change rfl ?_ ?_, sound.exclusive.unlock at_t,
    ⟨sound.historic.ordered, sound.historic.unread⟩⟩
  · rw [at_t, slot]
    rfl
  · rw [at_t, item]
    rfl

/-- A step that is taken finds its thread at its place, and leads to the state that
belongs to it. -/
theorem Sound.step {action : Action Producer Consumer} (sound : Sound s)
    (taken : step action s = some after) : Sound after := by
  cases action with
  | callInsert i item =>
      rcases Option.ite_none_right_eq_some.mp taken with ⟨at_i, isAfter⟩
      cases isAfter
      have moved : Sound (s.move (.inl i) .waiting) := by
        apply sound.move
        · simp [at_i, claimsSlot]
        · simp [at_i, claimsItem]
        · simp [at_i, ThreadAt.holdsLock]
      exact ⟨⟨moved.slots, moved.items⟩, moved.exclusive,
        ⟨moved.historic.ordered, moved.historic.unread⟩⟩
  | callRemove j =>
      rcases Option.ite_none_right_eq_some.mp taken with ⟨at_j, isAfter⟩
      cases isAfter
      apply sound.move
      · simp [at_j, claimsSlot]
      · simp [at_j, claimsItem]
      · simp [at_j, ThreadAt.holdsLock]
  | wait t =>
      rcases Option.ite_none_right_eq_some.mp taken with ⟨⟨at_t, positive⟩, isAfter⟩
      cases isAfter
      exact sound.waited at_t positive
  | lock t =>
      rcases Option.ite_none_right_eq_some.mp taken with ⟨⟨at_t, free⟩, isAfter⟩
      cases isAfter
      exact sound.locked at_t free
  | access t =>
      rcases Option.ite_none_right_eq_some.mp taken with ⟨at_t, isAfter⟩
      cases isAfter
      exact sound.accessed at_t
  | unlock t =>
      rcases Option.ite_none_right_eq_some.mp taken with ⟨at_t, isAfter⟩
      cases isAfter
      exact sound.unlocked at_t
  | post t =>
      rcases Option.ite_none_right_eq_some.mp taken with ⟨at_t, isAfter⟩
      cases isAfter
      exact sound.posted at_t

/-- A cancelled thread has no claim and does not hold the lock. -/
theorem Sound.stepOrCancel {event : Event Producer Consumer} (sound : Sound s)
    (taken : stepOrCancel event s = some after) : Sound after := by
  cases event with
  | step action => exact sound.step taken
  | cancel t =>
      rcases Option.ite_none_right_eq_some.mp taken with ⟨at_t, isAfter⟩
      cases isAfter
      apply sound.move
      · cases t <;> rcases at_t with at_t | at_t <;> simp [at_t, claimsSlot]
      · cases t <;> rcases at_t with at_t | at_t <;> simp [at_t, claimsItem]
      · rcases at_t with at_t | at_t <;> simp [at_t, ThreadAt.holdsLock]

theorem Reachable.sound (reachable : Reachable s) : Sound s :=
  reachable.invariant initBuffer_sound Sound.stepOrCancel

theorem ReachableLooping.sound (reachable : ReachableLooping s) : Sound s :=
  reachable.invariant initBuffer_sound Sound.step

end OsProjects.BoundedBuffer
