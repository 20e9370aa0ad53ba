import OsProjects.BoundedBuffer.Conservation

/-!
Owns what the bounded buffer guarantees under every interleaving: the items leave in
the order in which they came, the slots are used in turn, and some thread can always go
on.

The threads that loop forever are never cancelled, which is why they cannot all be
stuck; a cancelled producer alone may leave the consumers waiting.
-/

namespace OsProjects.BoundedBuffer

open OsProjects.Theory

variable {Producer Consumer : Type} [DecidableEq Producer] [DecidableEq Consumer]

/-! ## Order and slots -/

/-- What the buffer holds, and what the next critical section may do to it. -/
structure Correct (s : State Producer Consumer) : Prop where
  bounded : s.buffer.ring.contents.length ≤ bufferSize
  ordered : s.removed ++ s.buffer.ring.contents = s.inserted
  notOverwritten : ∀ i after, step (.access (.inl i)) s = some after →
    s.buffer.bufferTail ∉ s.unread
  writtenFirst : ∀ j after, step (.access (.inr j)) s = some after →
    s.buffer.bufferHead ∈ s.unread

theorem reachable_correct [Fintype Producer] [Fintype Consumer] {s : State Producer Consumer}
    (reachable : Reachable s) : Correct s := by
  have sound := reachable.sound
  have slots := sound.slots
  constructor
  · rw [Ring.length_contents]
    omega
  · exact sound.historic.ordered
  · intro i after taken
    rw [sound.historic.unread]
    exact Ring.tail_free s.buffer.ring
  · intro j after taken
    rcases Option.ite_none_right_eq_some.mp taken with ⟨at_j, _⟩
    rw [sound.historic.unread]
    exact Ring.head_held (sound.stored at_j)

/-- A producer that fills a slot while a second one is cancelled at `sem_wait`, and a
consumer that has passed its own. -/
def filledEvents : List (Event Bool Unit) :=
  [.step (.callInsert false 7), .step (.wait (.inl false)), .step (.callInsert true 8),
    .cancel (.inl true), .step (.lock (.inl false)), .step (.access (.inl false)),
    .step (.unlock (.inl false)), .step (.post (.inl false)), .step (.callRemove ()),
    .step (.wait (.inr ()))]

theorem reachable_correct_demo :
    ∃ s : State Bool Unit,
      runActions stepOrCancel filledEvents initBuffer = some s ∧ s.inserted = [7] ∧ Correct s := by
  rcases run : runActions stepOrCancel filledEvents initBuffer with _ | s
  · cases run
  · refine ⟨s, rfl, ?_, reachable_correct (ReachedFrom.start.run run)⟩
    cases run
    rfl

/-! ## Progress -/

/-- No thread is cancelled. -/
def Looping (s : State Producer Consumer) : Prop :=
  ∀ t, s.place t ≠ .cancelled

theorem Looping.move {s : State Producer Consumer} (looping : Looping s)
    (t : Thread Producer Consumer) {place : ThreadAt} (goesOn : place ≠ .cancelled) :
    Looping (s.move t place) := by
  intro other
  show Function.update s.place t place other ≠ .cancelled
  by_cases isMover : other = t
  · rw [isMover, Function.update_self]
    exact goesOn
  · rw [Function.update_of_ne isMover]
    exact looping other

/-- Every step moves its thread to the next place of its loop. -/
theorem Looping.step {s after : State Producer Consumer} {action : Action Producer Consumer}
    (looping : Looping s) (taken : step action s = some after) : Looping after := by
  cases action with
  | callInsert i item =>
      rcases Option.ite_none_right_eq_some.mp taken with ⟨_, isAfter⟩
      cases isAfter
      exact looping.move (.inl i) (by decide : ThreadAt.waiting ≠ .cancelled)
  | callRemove j =>
      rcases Option.ite_none_right_eq_some.mp taken with ⟨_, isAfter⟩
      cases isAfter
      exact looping.move (.inr j) (by decide)
  | wait t =>
      rcases Option.ite_none_right_eq_some.mp taken with ⟨_, isAfter⟩
      cases isAfter
      cases t with
      | inl i => exact looping.move (.inl i) (by decide : ThreadAt.locking ≠ .cancelled)
      | inr j => exact looping.move (.inr j) (by decide : ThreadAt.locking ≠ .cancelled)
  | lock t =>
      rcases Option.ite_none_right_eq_some.mp taken with ⟨_, isAfter⟩
      cases isAfter
      exact looping.move t (by decide : ThreadAt.inside ≠ .cancelled)
  | access t =>
      rcases Option.ite_none_right_eq_some.mp taken with ⟨_, isAfter⟩
      cases isAfter
      cases t with
      | inl i => exact looping.move (.inl i) (by decide : ThreadAt.unlocking ≠ .cancelled)
      | inr j => exact looping.move (.inr j) (by decide : ThreadAt.unlocking ≠ .cancelled)
  | unlock t =>
      rcases Option.ite_none_right_eq_some.mp taken with ⟨_, isAfter⟩
      cases isAfter
      exact looping.move t (by decide : ThreadAt.posting ≠ .cancelled)
  | post t =>
      rcases Option.ite_none_right_eq_some.mp taken with ⟨_, isAfter⟩
      cases isAfter
      cases t with
      | inl i => exact looping.move (.inl i) (by decide : ThreadAt.outside ≠ .cancelled)
      | inr j => exact looping.move (.inr j) (by decide : ThreadAt.outside ≠ .cancelled)

theorem ReachableLooping.looping {s : State Producer Consumer} (reachable : ReachableLooping s) :
    Looping s :=
  reachable.invariant (fun _ place => by cases place) Looping.step

/-- The thread that takes the step. -/
def Action.thread : Action Producer Consumer → Thread Producer Consumer
  | .callInsert i _ => .inl i
  | .callRemove j => .inr j
  | .wait t | .lock t | .access t | .unlock t | .post t => t

/-- The thread can take a step. -/
def CanStep (s : State Producer Consumer) (t : Thread Producer Consumer) : Prop :=
  ∃ action after, action.thread = t ∧ step action s = some after

/-- Only the lock and the two semaphores hold a thread up. -/
theorem canStep_of_free {s : State Producer Consumer} {t : Thread Producer Consumer}
    (looping : Looping s) (passes : s.place t = .waiting → 0 < s.awaited t)
    (free : s.place t = .locking → s.lock = none) : CanStep s t := by
  rcases place : s.place t with _ | _ | _ | _ | _ | _ | _
  · cases t with
    | inl i => exact ⟨.callInsert i 0, _, rfl, if_pos place⟩
    | inr j => exact ⟨.callRemove j, _, rfl, if_pos place⟩
  · exact ⟨.wait t, _, rfl, if_pos ⟨place, passes place⟩⟩
  · exact ⟨.lock t, _, rfl, if_pos ⟨place, free place⟩⟩
  · exact ⟨.access t, _, rfl, if_pos place⟩
  · exact ⟨.unlock t, _, rfl, if_pos place⟩
  · exact ⟨.post t, _, rfl, if_pos place⟩
  · exact absurd place (looping t)

/-- The thread that holds the lock is never held up. -/
theorem canStep_of_holdsLock {s : State Producer Consumer} {t : Thread Producer Consumer}
    (looping : Looping s) (holds : (s.place t).holdsLock = true) : CanStep s t := by
  apply canStep_of_free looping
  · intro waiting
    rw [waiting] at holds
    cases holds
  · intro locking
    rw [locking] at holds
    cases holds

/-- Nobody is stuck for good: some thread can go on, not all threads wait for a
semaphore, and who waits for the lock waits for a thread that can go on. -/
structure Unstuck (s : State Producer Consumer) : Prop where
  someCanStep : ∃ t, CanStep s t
  notAllWaiting : ¬((∀ t, s.place t = .waiting) ∧ s.empty = 0 ∧ s.full = 0)
  holderCanStep : ∀ t, s.place t = .locking → s.lock ≠ none →
    ∃ holder, s.lock = some holder ∧ CanStep s holder

theorem reachableLooping_unstuck [Fintype Producer] [Fintype Consumer] [Nonempty Producer]
    [Nonempty Consumer] {s : State Producer Consumer} (reachable : ReachableLooping s) :
    Unstuck s := by
  have sound := reachable.sound
  have looping := reachable.looping
  have holderCanStep : ∀ holder, s.lock = some holder → CanStep s holder := by
    intro holder held
    exact canStep_of_holdsLock looping ((sound.exclusive holder).mpr held)
  have notAllWaiting : ¬((∀ t, s.place t = .waiting) ∧ s.empty = 0 ∧ s.full = 0) := by
    rintro ⟨waiting, noEmpty, noFull⟩
    have units : s.empty + s.full = 10 := sound.units waiting
    omega
  constructor
  · by_contra stuck
    have noneCanStep : ∀ t, ¬CanStep s t := fun t can => stuck ⟨t, can⟩
    have free : s.lock = none := by
      rcases held : s.lock with _ | holder
      · rfl
      · exact absurd (holderCanStep holder held) (noneCanStep holder)
    have blocked : ∀ t, s.place t = .waiting ∧ s.awaited t = 0 := by
      intro t
      by_contra goesOn
      apply noneCanStep t
      apply canStep_of_free looping
      · intro waiting
        exact Nat.pos_of_ne_zero fun noUnit => goesOn ⟨waiting, noUnit⟩
      · intro _
        exact free
    rcases ‹Nonempty Producer› with ⟨i⟩
    rcases ‹Nonempty Consumer› with ⟨j⟩
    exact notAllWaiting
      ⟨fun t => (blocked t).1, (blocked (.inl i)).2, (blocked (.inr j)).2⟩
  · exact notAllWaiting
  · intro t _ taken
    rcases held : s.lock with _ | holder
    · exact absurd held taken
    · exact ⟨holder, rfl, holderCanStep holder held⟩

/-- One producer inside the lock, one at the lock, and the consumer at `sem_wait`. -/
def crowdedActions : List (Action Bool Unit) :=
  [.callInsert false 7, .wait (.inl false), .callInsert true 8, .wait (.inl true),
    .lock (.inl false), .callRemove ()]

theorem reachableLooping_unstuck_demo :
    ∃ s : State Bool Unit, runActions step crowdedActions initBuffer = some s ∧
      s.lock = some (.inl false) ∧ Unstuck s := by
  rcases run : runActions step crowdedActions initBuffer with _ | s
  · cases run
  · refine ⟨s, rfl, ?_, reachableLooping_unstuck (ReachedFrom.start.run run)⟩
    cases run
    rfl

end OsProjects.BoundedBuffer
