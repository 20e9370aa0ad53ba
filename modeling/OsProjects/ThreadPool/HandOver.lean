import OsProjects.ThreadPool.Model

/-!
Owns the hand-over of tasks: in every state that an interleaving reaches, the
tasks dequeued and the tasks in the ring are the tasks enqueued, in order, and
no `dequeue` finds the ring empty.

`Accounted` is the invariant. The semaphore is posted after the lock of
`enqueue` is released and taken before the lock of `dequeue` is acquired, so its
value is the number of stored tasks only up to the threads in between.
-/

namespace OsProjects.ThreadPool

open OsProjects.Theory

variable {Submitter Worker : Type}
variable {s after : State Submitter Worker} {i : Submitter} {j : Worker} {newTask : Task}

/-! ## What each step does -/

section Inversion

variable [DecidableEq Submitter] [DecidableEq Worker]

theorem step_call (taken : step (.call i newTask) s = some after) :
    s.submitters i = .outside ∧ after = s.moveSubmitter i (.enqueueing newTask) := by
  simp only [step] at taken
  cases at_i : s.submitters i with
  | outside => simpa [at_i] using taken.symm
  | _ => simp [at_i] at taken

/-- The section of `enqueue` refuses in a full ring and stores in any other. -/
theorem step_enqueue (taken : step (.enqueue i) s = some after) :
    ∃ newTask, s.submitters i = .enqueueing newTask ∧
      (s.globals.queue.count = queueSize ∧ after = s.moveSubmitter i (.returned 1) ∨
        s.globals.queue.count ≠ queueSize ∧ after = s.stored i newTask) := by
  simp only [step] at taken
  cases at_i : s.submitters i with
  | enqueueing newTask =>
      refine ⟨newTask, rfl, ?_⟩
      by_cases full : s.globals.queue.count = queueSize
      · left
        simp only [at_i, enqueue_full full] at taken
        exact ⟨full, by simpa using taken.symm⟩
      · right
        have success := (enqueue_room (t := newTask) full).1
        simp only [at_i, success] at taken
        exact ⟨full, by simpa using taken.symm⟩
  | _ => simp [at_i] at taken

theorem step_post (taken : step (.post i) s = some after) :
    s.submitters i = .posting ∧ after = s.posted i := by
  simp only [step] at taken
  cases at_i : s.submitters i with
  | posting => simpa [at_i] using taken.symm
  | _ => simp [at_i] at taken

theorem step_leave (taken : step (.leave i) s = some after) :
    (∃ err, s.submitters i = .returned err) ∧ after = s.moveSubmitter i .outside := by
  simp only [step] at taken
  cases at_i : s.submitters i with
  | returned err => simpa [at_i] using taken.symm
  | _ => simp [at_i] at taken

/-- `sem_wait` lets a worker through only while the semaphore is positive. -/
theorem step_wait (taken : step (.wait j) s = some after) :
    s.workers j = .waiting ∧ 0 < s.globals.taskCnt ∧ after = s.woken j := by
  simp only [step] at taken
  cases at_j : s.workers j with
  | waiting =>
      by_cases positive : 0 < s.globals.taskCnt
      · simpa [at_j, positive] using taken.symm
      · simp [at_j, positive] at taken
  | _ => simp [at_j] at taken

theorem step_dequeue (taken : step (.dequeue j) s = some after) :
    s.workers j = .dequeueing ∧ after = s.taken j := by
  simp only [step] at taken
  cases at_j : s.workers j with
  | dequeueing => simpa [at_j] using taken.symm
  | _ => simp [at_j] at taken

theorem step_execute (taken : step (.execute j) s = some after) :
    (∃ workToDo, s.workers j = .executing workToDo) ∧ after = s.moveWorker j .waiting := by
  simp only [step] at taken
  cases at_j : s.workers j with
  | executing workToDo => simpa [at_j] using taken.symm
  | _ => simp [at_j] at taken

/-- A slot that is in use stays in use with its task until a `dequeue` hands
this task to a worker. -/
theorem slot_kept {action : Action Submitter Worker} {slot : Fin (queueSize + 1)}
    (taken : step action s = some after) (held : s.globals.queue.Holds slot) :
    (after.globals.queue.Holds slot ∧
        after.globals.taskQueue slot = s.globals.taskQueue slot) ∨
      ∃ j, action = .dequeue j ∧ after.workers j = .executing (s.globals.taskQueue slot) := by
  cases action with
  | call i newTask =>
      rcases step_call taken with ⟨_, rfl⟩
      exact Or.inl ⟨held, rfl⟩
  | enqueue i =>
      rcases step_enqueue taken with ⟨newTask, _, ⟨_, rfl⟩ | ⟨room, rfl⟩⟩
      · exact Or.inl ⟨held, rfl⟩
      · left
        have below := s.globals.queue.count_lt
        have kept := Ring.push_keeps (by omega) newTask held
        rw [← (enqueue_room room).2.1] at kept
        exact kept
  | post i =>
      rcases step_post taken with ⟨_, rfl⟩
      exact Or.inl ⟨held, rfl⟩
  | leave i =>
      rcases step_leave taken with ⟨_, rfl⟩
      exact Or.inl ⟨held, rfl⟩
  | wait j =>
      rcases step_wait taken with ⟨_, _, rfl⟩
      exact Or.inl ⟨held, rfl⟩
  | dequeue j =>
      rcases step_dequeue taken with ⟨_, rfl⟩
      by_cases first : slot = s.globals.queueHead
      · right
        subst first
        exact ⟨j, rfl, Function.update_self _ _ _⟩
      · exact Or.inl ⟨Ring.pop_keeps held first, rfl⟩
  | execute j =>
      rcases step_execute taken with ⟨_, rfl⟩
      exact Or.inl ⟨held, rfl⟩

/-- A call comes to return 1 in its critical section, with a full ring, and in
no other way. -/
theorem returns_one_iff {action : Action Submitter Worker} (taken : step action s = some after)
    (notYet : s.submitters i ≠ .returned 1) :
    after.submitters i = .returned 1 ↔
      action = .enqueue i ∧ s.globals.queue.count = queueSize := by
  have moved : ∀ (d : Submitter) (control : SubmitterAt),
      Function.update s.submitters d control i = .returned 1 ↔
        i = d ∧ control = .returned 1 := by
    intro d control
    by_cases same : i = d
    · subst same
      simp
    · simp [same, notYet]
  cases action with
  | call d newTask =>
      rcases step_call taken with ⟨_, rfl⟩
      simp [State.moveSubmitter, moved]
  | enqueue d =>
      rcases step_enqueue taken with ⟨newTask, _, ⟨full, rfl⟩ | ⟨room, rfl⟩⟩
      · simp [State.moveSubmitter, moved, full, eq_comm]
      · simp [State.stored, State.moveSubmitter, moved, room]
  | post d =>
      rcases step_post taken with ⟨_, rfl⟩
      simp [State.posted, State.moveSubmitter, moved]
  | leave d =>
      rcases step_leave taken with ⟨_, rfl⟩
      simp [State.moveSubmitter, moved]
  | wait j =>
      rcases step_wait taken with ⟨_, _, rfl⟩
      simpa [State.woken, State.moveWorker] using notYet
  | dequeue j =>
      rcases step_dequeue taken with ⟨_, rfl⟩
      simpa [State.taken, State.moveWorker] using notYet
  | execute j =>
      rcases step_execute taken with ⟨_, rfl⟩
      simpa [State.moveWorker] using notYet

end Inversion

/-! ## The invariant -/

/-- The thread has stored a task and not yet posted the semaphore. -/
def SubmitterAt.isPosting : SubmitterAt → Bool
  | .posting => true
  | _ => false

/-- The thread has passed the semaphore and not yet taken a task. -/
def WorkerAt.isDequeueing : WorkerAt → Bool
  | .dequeueing => true
  | _ => false

variable [Fintype Submitter] [Fintype Worker]

/-- Every stored task is counted once: by the semaphore, by a submitter about to
post it, or by a worker about to take it. The ring holds what has been enqueued
and not yet dequeued. -/
structure Accounted (s : State Submitter Worker) : Prop where
  counted : s.globals.taskCnt + threadsAt WorkerAt.isDequeueing s.workers +
    threadsAt SubmitterAt.isPosting s.submitters = s.globals.queue.count
  history : s.dequeued ++ s.globals.queue.contents = s.enqueued

theorem count_initial : Globals.initial.queue.count = 0 := rfl

theorem contents_initial : Globals.initial.queue.contents = [] :=
  List.eq_nil_of_length_eq_zero (Globals.initial.queue.length_contents.trans count_initial)

theorem accounted_poolInit : Accounted (poolInit : State Submitter Worker) := by
  refine ⟨?_, (List.nil_append _).trans contents_initial⟩
  have noWorker : threadsAt WorkerAt.isDequeueing
      (poolInit : State Submitter Worker).workers = 0 :=
    threadsAt_eq_zero (fun _ => rfl)
  have noSubmitter : threadsAt SubmitterAt.isPosting
      (poolInit : State Submitter Worker).submitters = 0 :=
    threadsAt_eq_zero (fun _ => rfl)
  rw [noWorker, noSubmitter]
  exact count_initial.symm

namespace Accounted

/-- A worker about to take a task finds one. -/
theorem nonempty (accounted : Accounted s) (at_j : s.workers j = .dequeueing) :
    0 < s.globals.queue.count := by
  have counted := accounted.counted
  have present : 0 < threadsAt WorkerAt.isDequeueing s.workers :=
    threadsAt_pos j (by rw [at_j]; rfl)
  omega

section SubmitterSteps

variable [DecidableEq Submitter]

/-- A submitter that neither posts before nor after its step changes nothing. -/
theorem moveSubmitter (accounted : Accounted s) {control : SubmitterAt}
    (before : (s.submitters i).isPosting = false) (now : control.isPosting = false) :
    Accounted (s.moveSubmitter i control) := by
  refine ⟨?_, accounted.history⟩
  have counted := accounted.counted
  have moved := threadsAt_update SubmitterAt.isPosting s.submitters i control
  rw [before, now] at moved
  simp only [State.moveSubmitter, Bool.toNat_false, Nat.add_zero] at moved ⊢
  omega

/-- Storing a task adds one to the ring and one to the submitters about to post. -/
theorem stored (accounted : Accounted s) (at_i : s.submitters i = .enqueueing newTask)
    (room : s.globals.queue.count ≠ queueSize) : Accounted (s.stored i newTask) := by
  rcases enqueue_room (t := newTask) room with ⟨_, queue, taskCnt⟩
  have below := s.globals.queue.count_lt
  have fits : s.globals.queue.count + 1 < queueSize + 1 := by omega
  constructor
  · have counted := accounted.counted
    have moved := threadsAt_update SubmitterAt.isPosting s.submitters i .posting
    rw [at_i] at moved
    simp only [State.stored, State.moveSubmitter, queue, taskCnt, Ring.count_push fits,
      SubmitterAt.isPosting, Bool.toNat_false, Bool.toNat_true] at moved ⊢
    omega
  · show s.dequeued ++ (enqueue newTask s.globals).2.queue.contents = s.enqueued ++ [newTask]
    rw [queue, Ring.contents_push fits, ← List.append_assoc, accounted.history]

/-- Posting hands the count of the stored task over to the semaphore. -/
theorem posted (accounted : Accounted s) (at_i : s.submitters i = .posting) :
    Accounted (s.posted i) := by
  refine ⟨?_, accounted.history⟩
  have counted := accounted.counted
  have moved := threadsAt_update SubmitterAt.isPosting s.submitters i (.returned 0)
  rw [at_i] at moved
  simp only [State.posted, State.moveSubmitter, SubmitterAt.isPosting, Bool.toNat_false,
    Bool.toNat_true, Globals.queue] at counted moved ⊢
  omega

end SubmitterSteps

section WorkerSteps

variable [DecidableEq Worker]

theorem moveWorker (accounted : Accounted s) {control : WorkerAt}
    (before : (s.workers j).isDequeueing = false) (now : control.isDequeueing = false) :
    Accounted (s.moveWorker j control) := by
  refine ⟨?_, accounted.history⟩
  have counted := accounted.counted
  have moved := threadsAt_update WorkerAt.isDequeueing s.workers j control
  rw [before, now] at moved
  simp only [State.moveWorker, Bool.toNat_false, Nat.add_zero] at moved ⊢
  omega

/-- Waking hands the count of a stored task over to the worker. -/
theorem woken (accounted : Accounted s) (at_j : s.workers j = .waiting)
    (positive : 0 < s.globals.taskCnt) : Accounted (s.woken j) := by
  refine ⟨?_, accounted.history⟩
  have counted := accounted.counted
  have moved := threadsAt_update WorkerAt.isDequeueing s.workers j .dequeueing
  rw [at_j] at moved
  simp only [State.woken, State.moveWorker, WorkerAt.isDequeueing, Bool.toNat_false,
    Bool.toNat_true, Globals.queue] at counted moved ⊢
  omega

theorem taken (accounted : Accounted s) (at_j : s.workers j = .dequeueing) :
    Accounted (s.taken j) := by
  rcases dequeue_queue s.globals with ⟨task, queue, taskCnt⟩
  have stored := accounted.nonempty at_j
  constructor
  · have counted := accounted.counted
    have moved := threadsAt_update WorkerAt.isDequeueing s.workers j
      (.executing (dequeue s.globals).1)
    rw [at_j] at moved
    simp only [State.taken, State.moveWorker, queue, taskCnt, Ring.count_pop stored,
      WorkerAt.isDequeueing, Bool.toNat_false, Bool.toNat_true] at moved ⊢
    omega
  · show (s.dequeued ++ [(dequeue s.globals).1]) ++ (dequeue s.globals).2.queue.contents =
      s.enqueued
    rw [queue, task, List.append_assoc, List.singleton_append, ← Ring.contents_pop stored,
      accounted.history]

end WorkerSteps

variable [DecidableEq Submitter] [DecidableEq Worker]

/-- Every step keeps the account. -/
theorem step {action : Action Submitter Worker} (accounted : Accounted s)
    (taken : step action s = some after) : Accounted after := by
  cases action with
  | call i newTask =>
      rcases step_call taken with ⟨at_i, rfl⟩
      exact accounted.moveSubmitter (by rw [at_i]; rfl) rfl
  | enqueue i =>
      rcases step_enqueue taken with ⟨newTask, at_i, ⟨_, rfl⟩ | ⟨room, rfl⟩⟩
      · exact accounted.moveSubmitter (by rw [at_i]; rfl) rfl
      · exact accounted.stored at_i room
  | post i =>
      rcases step_post taken with ⟨at_i, rfl⟩
      exact accounted.posted at_i
  | leave i =>
      rcases step_leave taken with ⟨⟨err, at_i⟩, rfl⟩
      exact accounted.moveSubmitter (by rw [at_i]; rfl) rfl
  | wait j =>
      rcases step_wait taken with ⟨at_j, positive, rfl⟩
      exact accounted.woken at_j positive
  | dequeue j =>
      rcases step_dequeue taken with ⟨at_j, rfl⟩
      exact accounted.taken at_j
  | execute j =>
      rcases step_execute taken with ⟨⟨workToDo, at_j⟩, rfl⟩
      exact accounted.moveWorker (by rw [at_j]; rfl) rfl

end Accounted

variable [DecidableEq Submitter] [DecidableEq Worker]

theorem Reachable.accounted (reachable : Reachable s) : Accounted s :=
  reachable.invariant accounted_poolInit Accounted.step

/-! ## The hand-over -/

/-- What the pool promises in a state: about the ring as it is, and about every
step out of the state. -/
structure HandsOver (s : State Submitter Worker) : Prop where
  fifo : s.dequeued ++ s.globals.queue.contents = s.enqueued
  bounded : s.globals.queue.contents.length ≤ queueSize
  /-- `dequeue` is only executed on a ring that holds a task, and takes the first. -/
  takesFirst : ∀ {j after}, step (.dequeue j) s = some after →
    ∃ workToDo, s.globals.queue.contents = workToDo :: after.globals.queue.contents ∧
      after.workers j = .executing workToDo
  notOverwritten : ∀ {action after slot}, step action s = some after →
    s.globals.queue.Holds slot →
      (after.globals.queue.Holds slot ∧
          after.globals.taskQueue slot = s.globals.taskQueue slot) ∨
        ∃ j, action = .dequeue j ∧ after.workers j = .executing (s.globals.taskQueue slot)
  /-- A call returns 1 exactly when the ring is full at its critical section. -/
  returnsOne : ∀ {action after i}, step action s = some after →
    s.submitters i ≠ .returned 1 →
      (after.submitters i = .returned 1 ↔
        action = .enqueue i ∧ s.globals.queue.contents.length = queueSize)
  /-- A call that is refused changes nothing but its own place. -/
  refuses : ∀ {i newTask}, s.submitters i = .enqueueing newTask →
    s.globals.queue.contents.length = queueSize →
      step (.enqueue i) s = some (s.moveSubmitter i (.returned 1))
  accepts : ∀ {i newTask}, s.submitters i = .enqueueing newTask →
    s.globals.queue.contents.length ≠ queueSize →
      step (.enqueue i) s = some (s.stored i newTask) ∧
        (s.stored i newTask).globals.queue.contents = s.globals.queue.contents ++ [newTask]

/-- The pool hands every task over once and in order, in every interleaving of
any number of submitters and workers. -/
theorem reachable_handsOver (reachable : Reachable s) : HandsOver s := by
  have accounted := Reachable.accounted reachable
  have below := s.globals.queue.count_lt
  refine ⟨accounted.history, ?_, ?_, slot_kept, ?_, ?_, ?_⟩
  · rw [Ring.length_contents]
    omega
  · intro j after taken
    rcases step_dequeue taken with ⟨at_j, rfl⟩
    exact ⟨_, Ring.contents_pop (accounted.nonempty at_j), Function.update_self _ _ _⟩
  · intro action after i taken notYet
    rw [Ring.length_contents]
    exact returns_one_iff taken notYet
  · intro i newTask at_i full
    rw [Ring.length_contents] at full
    simp [step, at_i, enqueue_full full]
  · intro i newTask at_i room
    rw [Ring.length_contents] at room
    rcases enqueue_room (t := newTask) room with ⟨success, queue, _⟩
    constructor
    · simp [step, at_i, success]
    · show (enqueue newTask s.globals).2.queue.contents = _
      rw [queue, Ring.contents_push (by omega)]

/-- Submitter 0 has had a task accepted and worker 1 is about to take it. -/
def demoState : State (Fin 2) (Fin 3) :=
  (((poolInit.moveSubmitter 0 (.enqueueing ⟨7, 9⟩)).stored 0 ⟨7, 9⟩).posted 0).woken 1

theorem reachable_handsOver_demo : HandsOver demoState := by
  have called : Reachable (poolInit.moveSubmitter 0 (.enqueueing ⟨7, 9⟩) :
      State (Fin 2) (Fin 3)) :=
    .step .start (.call 0 ⟨7, 9⟩) rfl
  have stored : Reachable ((poolInit.moveSubmitter 0 (.enqueueing ⟨7, 9⟩)).stored 0 ⟨7, 9⟩ :
      State (Fin 2) (Fin 3)) :=
    .step called (.enqueue 0) rfl
  have posted : Reachable (((poolInit.moveSubmitter 0 (.enqueueing ⟨7, 9⟩)).stored 0
      ⟨7, 9⟩).posted 0 : State (Fin 2) (Fin 3)) :=
    .step stored (.post 0) rfl
  exact reachable_handsOver (.step posted (.wait 1) rfl)

/-! ## Wake-ups -/

/-- No task lies in the ring unnoticed: the semaphore announces it, or a submitter is
about to post it, or a worker that has passed the semaphore is about to take it. The
semaphore never announces more than the ring can hold. -/
structure Announced (s : State Submitter Worker) : Prop where
  noLostWakeup : s.globals.queue.contents ≠ [] → s.globals.taskCnt = 0 →
    (∃ i, s.submitters i = .posting) ∨ ∃ j, s.workers j = .dequeueing
  bounded : s.globals.taskCnt ≤ queueSize

omit [DecidableEq Submitter] [DecidableEq Worker] in
/-- A semaphore at 0 leaves a stored task to the threads in between. -/
theorem Accounted.announced (accounted : Accounted s) : Announced s := by
  have counted := accounted.counted
  have below := s.globals.queue.count_lt
  constructor
  · intro stored unannounced
    have positive : 0 < s.globals.queue.count := by
      rw [← Ring.length_contents]
      exact List.length_pos_iff.mpr stored
    by_cases posting : ∃ i, s.submitters i = .posting
    · exact Or.inl posting
    · right
      have noSubmitter : threadsAt SubmitterAt.isPosting s.submitters = 0 := by
        apply threadsAt_eq_zero
        intro i
        cases at_i : s.submitters i with
        | posting => exact absurd ⟨i, at_i⟩ posting
        | _ => rfl
      by_contra dequeueing
      have noWorker : threadsAt WorkerAt.isDequeueing s.workers = 0 := by
        apply threadsAt_eq_zero
        intro j
        cases at_j : s.workers j with
        | dequeueing => exact absurd ⟨j, at_j⟩ dequeueing
        | _ => rfl
      omega
  · omega

/-- No wake-up is lost, in every interleaving of any number of submitters and
workers. -/
theorem reachable_announced (reachable : Reachable s) : Announced s :=
  (Reachable.accounted reachable).announced

/-- Submitter 1 has stored a task and not posted it: the ring holds it at semaphore 0. -/
theorem reachable_announced_demo : Announced ((poolInit.moveSubmitter 1
    (.enqueueing ⟨7, 9⟩)).stored 1 ⟨7, 9⟩ : State (Fin 2) (Fin 3)) := by
  have called : Reachable (poolInit.moveSubmitter 1 (.enqueueing ⟨7, 9⟩) :
      State (Fin 2) (Fin 3)) :=
    .step .start (.call 1 ⟨7, 9⟩) rfl
  exact reachable_announced (.step called (.enqueue 1) rfl)

end OsProjects.ThreadPool
