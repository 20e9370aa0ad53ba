import OsProjects.Theory.Interleaving
import OsProjects.Theory.Ring

/-!
Owns the thread pool of `threadpool.c`: the shared variables, the two functions
on the work queue, and the steps of the threads that call `pool_submit` or run
`worker`.

A step is what the program does without another thread in between: one section
under `lock`, one semaphore operation, a call or a return. A step that would
block is disabled. The two histories at the end of `State` record what the
critical sections did; no step reads them.

Does not own `pool_shutdown`.
-/

namespace OsProjects.ThreadPool

open OsProjects.Theory

/-- `QUEUE_SIZE` -/
def queueSize : ℕ := 10

/-- `task`: a function pointer and its argument, as addresses. -/
structure Task where
  function : ℕ
  data : ℕ
deriving DecidableEq, Repr

/-- The variables the threads share. -/
structure Globals where
  taskCnt : ℕ
  taskQueue : Fin (queueSize + 1) → Task
  queueHead : Fin (queueSize + 1)
  queueTail : Fin (queueSize + 1)

/-- The variables after `pool_init`. -/
def Globals.initial : Globals where
  taskCnt := 0
  taskQueue := fun _ => ⟨0, 0⟩
  queueHead := 0
  queueTail := 0

/-- `(i + 1) % (QUEUE_SIZE + 1)` -/
def following (i : Fin (queueSize + 1)) : Fin (queueSize + 1) :=
  ⟨(i + 1) % (queueSize + 1), Nat.mod_lt _ (Nat.succ_pos queueSize)⟩

/-- The section of `enqueue` under the lock, with its return value. -/
def enqueue (t : Task) (g : Globals) : Int × Globals :=
  if following g.queueTail = g.queueHead then
    (1, g)
  else
    (0, { g with
      taskQueue := Function.update g.taskQueue g.queueTail t
      queueTail := following g.queueTail })

/-- The section of `dequeue` under the lock. It does not test for emptiness. -/
def dequeue (g : Globals) : Task × Globals :=
  (g.taskQueue g.queueHead, { g with queueHead := following g.queueHead })

/-- Where a thread stands in `pool_submit`. -/
inductive SubmitterAt where
  | outside
  | enqueueing (newTask : Task)
  | posting
  | returned (err : Int)
deriving DecidableEq, Repr

/-- Where a thread stands in the loop of `worker`. -/
inductive WorkerAt where
  | waiting
  | dequeueing
  | executing (workToDo : Task)
deriving DecidableEq, Repr

/-- The shared variables, the threads, and the tasks stored and taken so far. -/
structure State (Submitter Worker : Type) where
  globals : Globals
  submitters : Submitter → SubmitterAt
  workers : Worker → WorkerAt
  enqueued : List Task
  dequeued : List Task

/-- The steps of the threads. -/
inductive Action (Submitter Worker : Type) where
  | call (i : Submitter) (newTask : Task)
  | enqueue (i : Submitter)
  | post (i : Submitter)
  | leave (i : Submitter)
  | wait (j : Worker)
  | dequeue (j : Worker)
  | execute (j : Worker)

section Steps

variable {Submitter Worker : Type} [DecidableEq Submitter] [DecidableEq Worker]

/-- The state after `pool_init`, with no call of `pool_submit` under way. -/
def poolInit : State Submitter Worker where
  globals := .initial
  submitters := fun _ => .outside
  workers := fun _ => .waiting
  enqueued := []
  dequeued := []

def State.moveSubmitter (s : State Submitter Worker) (i : Submitter) (control : SubmitterAt) :
    State Submitter Worker :=
  { s with submitters := Function.update s.submitters i control }

def State.moveWorker (s : State Submitter Worker) (j : Worker) (control : WorkerAt) :
    State Submitter Worker :=
  { s with workers := Function.update s.workers j control }

/-- The state after a successful `enqueue` of `newTask` by submitter `i`. -/
def State.stored (s : State Submitter Worker) (i : Submitter) (newTask : Task) :
    State Submitter Worker :=
  { s.moveSubmitter i .posting with
    globals := (enqueue newTask s.globals).2
    enqueued := s.enqueued ++ [newTask] }

/-- The state after `sem_post` by submitter `i`. -/
def State.posted (s : State Submitter Worker) (i : Submitter) : State Submitter Worker :=
  { s.moveSubmitter i (.returned 0) with
    globals := { s.globals with taskCnt := s.globals.taskCnt + 1 } }

/-- The state after `sem_wait` lets worker `j` through. -/
def State.woken (s : State Submitter Worker) (j : Worker) : State Submitter Worker :=
  { s.moveWorker j .dequeueing with
    globals := { s.globals with taskCnt := s.globals.taskCnt - 1 } }

/-- The state after `dequeue` by worker `j`. -/
def State.taken (s : State Submitter Worker) (j : Worker) : State Submitter Worker :=
  { s.moveWorker j (.executing (dequeue s.globals).1) with
    globals := (dequeue s.globals).2
    dequeued := s.dequeued ++ [(dequeue s.globals).1] }

/-- One step of one thread, `none` where the thread is elsewhere or blocks. -/
def step : Action Submitter Worker → State Submitter Worker → Option (State Submitter Worker)
  | .call i newTask, s =>
      match s.submitters i with
      | .outside => some (s.moveSubmitter i (.enqueueing newTask))
      | _ => none
  | .enqueue i, s =>
      match s.submitters i with
      | .enqueueing newTask =>
          -- `if(!err)`: a failed call goes straight to `return err`
          let err := (enqueue newTask s.globals).1
          if err = 0 then some (s.stored i newTask) else some (s.moveSubmitter i (.returned err))
      | _ => none
  | .post i, s =>
      match s.submitters i with
      | .posting => some (s.posted i)
      | _ => none
  | .leave i, s =>
      match s.submitters i with
      | .returned _ => some (s.moveSubmitter i .outside)
      | _ => none
  | .wait j, s =>
      match s.workers j with
      | .waiting => if 0 < s.globals.taskCnt then some (s.woken j) else none
      | _ => none
  | .dequeue j, s =>
      match s.workers j with
      | .dequeueing => some (s.taken j)
      | _ => none
  | .execute j, s =>
      match s.workers j with
      | .executing _ => some (s.moveWorker j .waiting)
      | _ => none

/-- The states of the pool that some interleaving reaches. -/
abbrev Reachable (s : State Submitter Worker) : Prop :=
  ReachedFrom poolInit step s

end Steps

/-! ## The work queue as a ring -/

/-- The work queue. -/
def Globals.queue (g : Globals) : Ring Task (queueSize + 1) :=
  ⟨g.taskQueue, g.queueHead, g.queueTail⟩

theorem enqueue_full {t : Task} {g : Globals} (full : g.queue.count = queueSize) :
    enqueue t g = (1, g) := by
  have wraps : following g.queueTail = g.queueHead :=
    (g.queue.full_iff).mpr (congrArg (· + 1) full)
  rw [enqueue, if_pos wraps]

theorem enqueue_room {t : Task} {g : Globals} (room : g.queue.count ≠ queueSize) :
    (enqueue t g).1 = 0 ∧ (enqueue t g).2.queue = g.queue.push t ∧
      (enqueue t g).2.taskCnt = g.taskCnt := by
  have apart : following g.queueTail ≠ g.queueHead := by
    intro full
    have last := (g.queue.full_iff).mp full
    omega
  rw [enqueue, if_neg apart]
  exact ⟨rfl, rfl, rfl⟩

theorem dequeue_queue (g : Globals) :
    (dequeue g).1 = g.queue.slot g.queue.head ∧ (dequeue g).2.queue = g.queue.pop ∧
      (dequeue g).2.taskCnt = g.taskCnt :=
  ⟨rfl, rfl, rfl⟩

end OsProjects.ThreadPool
