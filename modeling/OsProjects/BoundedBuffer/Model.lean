import OsProjects.Theory.Interleaving
import OsProjects.Theory.Ring

/-!
Owns the bounded buffer of `buffer.c`: the shared variables, the two critical
sections, and the steps of the threads that loop in `producer` and `consumer`.

`insert_item` and `remove_item` have the same shape: wait for one semaphore, lock, use
the buffer, unlock, post the other semaphore. Each of these is a step, and a thread is
at the same five places in both. A thread may be cancelled while it is outside the two
functions or at `sem_wait`, which are its only cancellation points.

The last three fields of `State` record what the critical sections did; no step reads
them.
-/

namespace OsProjects.BoundedBuffer

open OsProjects.Theory

/-- `BUFFER_SIZE` -/
abbrev bufferSize : ℕ := 10

/-- Where a thread stands in its loop, and in the function that the loop calls. -/
inductive ThreadAt where
  | outside
  | waiting
  | locking
  | inside
  | unlocking
  | posting
  | cancelled
deriving DecidableEq, Repr

/-- The buffer with its two indices. -/
structure Buffer where
  buffer : Fin (bufferSize + 1) → Int
  bufferHead : Fin (bufferSize + 1)
  bufferTail : Fin (bufferSize + 1)

/-- `(i + 1) % (BUFFER_SIZE + 1)` -/
def nextIndex (i : Fin (bufferSize + 1)) : Fin (bufferSize + 1) :=
  ⟨(i + 1) % (bufferSize + 1), Nat.mod_lt _ (Nat.succ_pos bufferSize)⟩

/-- The section of `insert_item` under the lock. It does not test for a full buffer. -/
def insertItem (item : Int) (b : Buffer) : Buffer :=
  { b with
    buffer := Function.update b.buffer b.bufferTail item
    bufferTail := nextIndex b.bufferTail }

/-- The section of `remove_item` under the lock. It does not test for an empty buffer. -/
def removeItem (b : Buffer) : Int × Buffer :=
  (b.buffer b.bufferHead, { b with bufferHead := nextIndex b.bufferHead })

/-- The threads: producers and consumers. -/
abbrev Thread (Producer Consumer : Type) := Producer ⊕ Consumer

/-- The shared variables, the place and the variable `item` of every thread, the items
inserted and removed so far, and the slots written and not read since. -/
structure State (Producer Consumer : Type) where
  buffer : Buffer
  full : ℕ
  empty : ℕ
  lock : Option (Thread Producer Consumer)
  place : Thread Producer Consumer → ThreadAt
  item : Thread Producer Consumer → Int
  inserted : List Int
  removed : List Int
  unread : Finset (Fin (bufferSize + 1))

/-- The steps of the threads. -/
inductive Action (Producer Consumer : Type) where
  | callInsert (i : Producer) (item : Int)
  | callRemove (j : Consumer)
  | wait (t : Thread Producer Consumer)
  | lock (t : Thread Producer Consumer)
  | access (t : Thread Producer Consumer)
  | unlock (t : Thread Producer Consumer)
  | post (t : Thread Producer Consumer)

/-- A step of a thread, or the cancellation of one. -/
inductive Event (Producer Consumer : Type) where
  | step (action : Action Producer Consumer)
  | cancel (t : Thread Producer Consumer)

section Steps

variable {Producer Consumer : Type}

/-- The state after `init_buffer`, with every thread at the start of its loop. -/
def initBuffer : State Producer Consumer where
  buffer := ⟨fun _ => 0, 0, 0⟩
  full := 0
  empty := bufferSize
  lock := none
  place := fun _ => .outside
  item := fun _ => 0
  inserted := []
  removed := []
  unread := ∅

/-- The semaphore that the thread waits for: `empty` to insert, `full` to remove. -/
def State.awaited (s : State Producer Consumer) : Thread Producer Consumer → ℕ
  | .inl _ => s.empty
  | .inr _ => s.full

variable [DecidableEq Producer] [DecidableEq Consumer]

def State.move (s : State Producer Consumer) (t : Thread Producer Consumer) (place : ThreadAt) :
    State Producer Consumer :=
  { s with place := Function.update s.place t place }

/-- The state after `sem_wait` lets the thread through. -/
def State.waited (s : State Producer Consumer) : Thread Producer Consumer → State Producer Consumer
  | .inl i => { s.move (.inl i) .locking with empty := s.empty - 1 }
  | .inr j => { s.move (.inr j) .locking with full := s.full - 1 }

/-- The state after the statements between lock and unlock. -/
def State.accessed (s : State Producer Consumer) :
    Thread Producer Consumer → State Producer Consumer
  | .inl i =>
      { s.move (.inl i) .unlocking with
        buffer := insertItem (s.item (.inl i)) s.buffer
        inserted := s.inserted ++ [s.item (.inl i)]
        unread := insert s.buffer.bufferTail s.unread }
  | .inr j =>
      { s.move (.inr j) .unlocking with
        buffer := (removeItem s.buffer).2
        item := Function.update s.item (.inr j) (removeItem s.buffer).1
        removed := s.removed ++ [(removeItem s.buffer).1]
        unread := s.unread.erase s.buffer.bufferHead }

/-- The state after `sem_post` and the return to the loop. -/
def State.posted (s : State Producer Consumer) : Thread Producer Consumer → State Producer Consumer
  | .inl i => { s.move (.inl i) .outside with full := s.full + 1 }
  | .inr j => { s.move (.inr j) .outside with empty := s.empty + 1 }

/-- One step of one thread, `none` where the thread is elsewhere or blocks. -/
def step : Action Producer Consumer → State Producer Consumer → Option (State Producer Consumer)
  | .callInsert i item, s =>
      if s.place (.inl i) = .outside then
        some { s.move (.inl i) .waiting with item := Function.update s.item (.inl i) item }
      else none
  | .callRemove j, s =>
      if s.place (.inr j) = .outside then some (s.move (.inr j) .waiting) else none
  | .wait t, s =>
      if s.place t = .waiting ∧ 0 < s.awaited t then some (s.waited t) else none
  | .lock t, s =>
      if s.place t = .locking ∧ s.lock = none then
        some { s.move t .inside with lock := some t }
      else none
  | .access t, s => if s.place t = .inside then some (s.accessed t) else none
  | .unlock t, s =>
      if s.place t = .unlocking then some { s.move t .posting with lock := none } else none
  | .post t, s => if s.place t = .posting then some (s.posted t) else none

/-- One step or one cancellation. -/
def stepOrCancel : Event Producer Consumer → State Producer Consumer →
    Option (State Producer Consumer)
  | .step action, s => step action s
  | .cancel t, s =>
      if s.place t = .outside ∨ s.place t = .waiting then some (s.move t .cancelled) else none

/-- The states that some interleaving reaches, with cancellations. -/
abbrev Reachable (s : State Producer Consumer) : Prop :=
  ReachedFrom initBuffer stepOrCancel s

/-- The states that some interleaving of threads reaches that loop forever. -/
abbrev ReachableLooping (s : State Producer Consumer) : Prop :=
  ReachedFrom initBuffer step s

end Steps

/-! ## The buffer as a ring -/

/-- The buffer. -/
def Buffer.ring (b : Buffer) : Ring Int (bufferSize + 1) :=
  ⟨b.buffer, b.bufferHead, b.bufferTail⟩

theorem ring_insertItem (item : Int) (b : Buffer) :
    (insertItem item b).ring = b.ring.push item := rfl

theorem ring_removeItem (b : Buffer) :
    (removeItem b).1 = b.ring.slot b.ring.head ∧ (removeItem b).2.ring = b.ring.pop :=
  ⟨rfl, rfl⟩

end OsProjects.BoundedBuffer
