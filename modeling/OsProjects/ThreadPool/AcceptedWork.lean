import OsProjects.ThreadPool.Record

/-!
Owns what becomes of accepted work when the pool is shut down.

A worker that leaves inside its task takes the task with it, and the last worker to
leave takes whatever lies in the ring, now or later. A run loses nothing when no step
does this. Such a run has executed every accepted task once when `pool_shutdown`
returns, and of the runs that end with no call under way no other has.
-/

namespace OsProjects.ThreadPool

open OsProjects.Theory

variable {Submitter : Type} {threads : ℕ} [DecidableEq Submitter]
variable {s after : Pool Submitter threads} {action : PoolAction Submitter threads}

/-- Every accepted task has been executed to completion, once. -/
def AcceptedDone (s : Pool Submitter threads) : Prop :=
  ∀ k ∈ s.record.accepted, ∃ task, s.core.enqueued[k]? = some task ∧
    s.record.runsOf k = [(k, task)]

/-- A task is stored while a worker is left, no worker leaves inside its task, and the
last worker to leave leaves the ring empty. -/
def LosesNothing : PoolAction Submitter threads → Pool Submitter threads → Prop
  | .core (.enqueue _), s => ∃ j, s.exited j = false
  | .exit j, s => s.core.workers j = .waiting ∧
      ((∀ other, other ≠ j → s.exited other = true) → s.core.globals.queue.contents = [])
  | _, _ => True

/-- A task is lost: with a worker that left inside it, or in the ring of a pool without
workers. -/
def Damaged (s : Pool Submitter threads) : Prop :=
  (∃ j t, s.exited j = true ∧ s.core.workers j = .executing t) ∨
    (∀ j, s.exited j = true) ∧ s.core.globals.queue.contents ≠ []

/-! ## The ring -/

section Ring

variable {s after : State Submitter (Fin threads)} {i : Submitter}

/-- After the critical section of `enqueue` the ring holds something. -/
theorem enqueue_nonempty (taken : step (.enqueue i) s = some after) :
    after.globals.queue.contents ≠ [] := by
  rcases step_enqueue taken with ⟨newTask, _, ⟨full, rfl⟩ | ⟨room, rfl⟩⟩
  · intro empty
    have length := s.globals.queue.length_contents
    have full : s.globals.queue.count = 10 := full
    have empty : s.globals.queue.contents = [] := empty
    rw [empty, full] at length
    cases length
  · have below := s.globals.queue.count_lt
    show (enqueue newTask s.globals).2.queue.contents ≠ []
    rw [(enqueue_room room).2.1, Ring.contents_push (by omega)]
    simp

/-- A submitter leaves the ring as it is, but in the critical section of `enqueue`. -/
theorem submitter_contents {action : Action Submitter (Fin threads)}
    (taken : step action s = some after) (isSubmitter : action.worker = none)
    (other : ∀ i, action ≠ .enqueue i) :
    after.globals.queue.contents = s.globals.queue.contents := by
  cases action with
  | call i newTask =>
      rcases step_call taken with ⟨_, rfl⟩
      rfl
  | enqueue i => exact absurd rfl (other i)
  | post i =>
      rcases step_post taken with ⟨_, rfl⟩
      rfl
  | leave i =>
      rcases step_leave taken with ⟨_, rfl⟩
      rfl
  | wait j => cases isSubmitter
  | dequeue j => cases isSubmitter
  | execute j => cases isSubmitter

end Ring

/-! ## Workers that have left -/

/-- A step of the pool does not move a worker that has left. -/
theorem exited_worker_kept {core : State Submitter (Fin threads)}
    {action : Action Submitter (Fin threads)} {j : Fin threads}
    (running : ∀ j, action.worker = some j → s.exited j = false)
    (stepped : step action s.core = some core) (exited : s.exited j = true) :
    core.workers j = s.core.workers j := by
  apply step_worker_kept stepped
  intro isWorker
  rw [running j isWorker] at exited
  cases exited

omit [DecidableEq Submitter] in
/-- When all workers have left, only submitters take steps. -/
theorem submitter_of_allExited {action : Action Submitter (Fin threads)}
    (running : ∀ j, action.worker = some j → s.exited j = false)
    (allExited : ∀ j, s.exited j = true) : action.worker = none := by
  cases isWorker : action.worker with
  | none => rfl
  | some j =>
      have runs := running j isWorker
      rw [allExited j] at runs
      cases runs

omit [DecidableEq Submitter] in
/-- A worker that has left does not come back when another one leaves. -/
theorem still_exited (j : Fin threads) {l : Fin threads} (exited : s.exited l = true) :
    Function.update s.exited j true l = true := by
  by_cases same : l = j
  · rw [same, Function.update_self]
  · rw [Function.update_of_ne same, exited]

/-! ## Damage -/

/-- A lost task stays lost. -/
theorem Damaged.step (damaged : Damaged s) (joined : s.Joined)
    (taken : poolStep action s = some after) : Damaged after := by
  cases action with
  | core action =>
      rcases poolStep_core taken with ⟨running, core, stepped, rfl⟩
      rcases damaged with ⟨j, t, exited, executing⟩ | ⟨allExited, stored⟩
      · have kept := exited_worker_kept running stepped exited
        exact Or.inl ⟨j, t, exited, kept.trans executing⟩
      · right
        refine ⟨allExited, ?_⟩
        have isSubmitter := submitter_of_allExited running allExited
        by_cases isEnqueue : ∃ i, action = .enqueue i
        · rcases isEnqueue with ⟨i, rfl⟩
          exact enqueue_nonempty stepped
        · have same := submitter_contents stepped isSubmitter
            (fun i isIt => isEnqueue ⟨i, isIt⟩)
          exact fun empty => stored (same.symm.trans empty)
  | shutdown =>
      rcases poolStep_shutdown joined taken with ⟨core, exited, _, _⟩
      unfold Damaged
      rw [core, exited]
      exact damaged
  | exit j =>
      rcases poolStep_exit taken with ⟨_, _, rfl⟩
      rcases damaged with ⟨l, t, exited, executing⟩ | ⟨allExited, stored⟩
      · exact Or.inl ⟨l, t, still_exited j exited, executing⟩
      · exact Or.inr ⟨fun l => still_exited j (allExited l), stored⟩

omit [DecidableEq Submitter] in
/-- As long as no task is lost, no worker has left inside one. -/
theorem no_task_left {j : Fin threads} {t : Task} (undamaged : ¬Damaged s)
    (exited : s.exited j = true) : s.core.workers j ≠ .executing t :=
  fun executing => undamaged (Or.inl ⟨j, t, exited, executing⟩)

theorem losesNothing_core_iff {action : Action Submitter (Fin threads)} (undamaged : ¬Damaged s)
    (taken : poolStep (.core action) s = some after) :
    LosesNothing (.core action) s ↔ ¬Damaged after := by
  rcases poolStep_core taken with ⟨running, core, stepped, rfl⟩
  have damagedIff : Damaged (s.advance action core) ↔
      (∀ j, s.exited j = true) ∧ core.globals.queue.contents ≠ [] := by
    constructor
    · intro damaged
      rcases damaged with ⟨j, t, exited, executing⟩ | inRing
      · have kept := exited_worker_kept running stepped exited
        exact absurd (kept.symm.trans executing) (no_task_left undamaged exited)
      · exact inRing
    · exact Or.inr
  rw [damagedIff]
  by_cases isEnqueue : ∃ i, action = .enqueue i
  · rcases isEnqueue with ⟨i, rfl⟩
    have stored := enqueue_nonempty stepped
    simp [LosesNothing, stored]
  · have harmless : LosesNothing (.core action) s := by
      cases action with
      | enqueue i => exact absurd ⟨i, rfl⟩ isEnqueue
      | _ => trivial
    refine iff_of_true harmless ?_
    intro damaged
    have isSubmitter := submitter_of_allExited running damaged.1
    have same := submitter_contents stepped isSubmitter (fun i isIt => isEnqueue ⟨i, isIt⟩)
    exact undamaged (Or.inr ⟨damaged.1, fun empty => damaged.2 (same.trans empty)⟩)

theorem losesNothing_exit_iff {j : Fin threads} (undamaged : ¬Damaged s)
    (taken : poolStep (.exit j) s = some after) :
    LosesNothing (.exit j) s ↔ ¬Damaged after := by
  rcases poolStep_exit taken with ⟨_, at_j, rfl⟩
  have allExited : (∀ l, Function.update s.exited j true l = true) ↔
      ∀ other, other ≠ j → s.exited other = true := by
    constructor
    · intro all other isOther
      have exited := all other
      rwa [Function.update_of_ne isOther] at exited
    · intro others l
      by_cases same : l = j
      · rw [same, Function.update_self]
      · rw [Function.update_of_ne same, others l same]
  show s.core.workers j = .waiting ∧ _ ↔ _
  unfold Damaged
  simp only [allExited]
  rcases at_j with waiting | ⟨t, executing⟩
  · have stillNone : ¬∃ l t, Function.update s.exited j true l = true ∧
        s.core.workers l = .executing t := by
      rintro ⟨l, t, exited, executing⟩
      by_cases same : l = j
      · rw [same, waiting] at executing
        cases executing
      · rw [Function.update_of_ne same] at exited
        exact no_task_left undamaged exited executing
    simp only [waiting, true_and, stillNone, false_or, not_and, not_not]
  · have inTask : ∃ l t, Function.update s.exited j true l = true ∧
        s.core.workers l = .executing t :=
      ⟨j, t, Function.update_self _ _ _, executing⟩
    have notWaiting : s.core.workers j ≠ .waiting := by simp [executing]
    exact iff_of_false (fun both => notWaiting both.1)
      (fun harmless => harmless (Or.inl inTask))

/-- The first task is lost by exactly the steps that lose something. -/
theorem losesNothing_iff (undamaged : ¬Damaged s) (joined : s.Joined)
    (taken : poolStep action s = some after) : LosesNothing action s ↔ ¬Damaged after := by
  cases action with
  | core action => exact losesNothing_core_iff undamaged taken
  | shutdown =>
      rcases poolStep_shutdown joined taken with ⟨core, exited, _, _⟩
      refine iff_of_true trivial ?_
      unfold Damaged
      rw [core, exited]
      exact undamaged
  | exit j => exact losesNothing_exit_iff undamaged taken

/-! ## Runs -/

variable [Fintype Submitter]

/-- What is kept by every step, whether it loses something or not. -/
structure Tracked (s : Pool Submitter threads) : Prop where
  accounted : Accounted s.core
  submitted : Submitted s.record s.core
  executed : Executed s.record s.core
  joined : s.Joined

omit [DecidableEq Submitter] in
theorem initial_tracked : Tracked (Pool.initial : Pool Submitter threads) := by
  refine ⟨accounted_poolInit, ⟨?_, ?_, ?_⟩, ⟨?_, ?_, ?_, ?_⟩, trivial⟩
  · intro k accepted
    cases accepted
  · intro i stored
    cases stored
  · intro k below
    exact absurd below (Nat.not_lt_zero k)
  · intro k _
    rfl
  · intro j t running
    cases running
  · intro j l t u running
    cases running
  · intro k t taken
    cases taken

theorem Tracked.step (tracked : Tracked s) (taken : poolStep action s = some after) :
    Tracked after := by
  cases action with
  | core action =>
      rcases poolStep_core taken with ⟨_, core, stepped, rfl⟩
      exact ⟨tracked.accounted.step stepped, tracked.submitted.step stepped,
        tracked.executed.step stepped, tracked.joined⟩
  | shutdown =>
      rcases poolStep_shutdown tracked.joined taken with ⟨core, _, record, joined⟩
      refine ⟨?_, ?_, ?_, joined⟩
      · rw [core]
        exact tracked.accounted
      · rw [core, record]
        exact tracked.submitted
      · rw [core, record]
        exact tracked.executed
  | exit j =>
      rcases poolStep_exit taken with ⟨_, _, rfl⟩
      refine ⟨tracked.accounted, tracked.submitted, tracked.executed, ?_⟩
      have joined := tracked.joined
      unfold Pool.Joined at joined ⊢
      cases at_shutdown : s.shutdownAt with
      | notCalled => trivial
      | cancelling i =>
          rw [at_shutdown] at joined
          exact fun l before => still_exited j (joined l before)
      | joining i =>
          rw [at_shutdown] at joined
          exact fun l before => still_exited j (joined l before)
      | returned =>
          rw [at_shutdown] at joined
          exact fun l => still_exited j (joined l)

omit [DecidableEq Submitter] in
theorem Tracked.allExited (tracked : Tracked s) (returned : s.shutdownAt = .returned) :
    ∀ j, s.exited j = true := by
  have joined := tracked.joined
  unfold Pool.Joined at joined
  rwa [returned] at joined

omit [DecidableEq Submitter] in
/-- Without damage, every task stored has been run when `pool_shutdown` has returned. -/
theorem Tracked.acceptedDone (tracked : Tracked s) (returned : s.shutdownAt = .returned)
    (undamaged : ¬Damaged s) : AcceptedDone s := by
  have allExited := tracked.allExited returned
  have empty : s.core.globals.queue.contents = [] := by
    by_contra stored
    exact undamaged (Or.inr ⟨allExited, stored⟩)
  have sameTasks : s.core.dequeued = s.core.enqueued := by
    have history := tracked.accounted.history
    rwa [empty, List.append_nil] at history
  intro k accepted
  have below := tracked.submitted.accepted k accepted
  have place := List.getElem?_eq_getElem below
  generalize s.core.enqueued[k] = task at place
  refine ⟨task, place, ?_⟩
  rw [← sameTasks] at place
  rcases tracked.executed.taken k task place with done | ⟨j, running, _⟩
  · exact done
  · exact absurd (Or.inl ⟨j, _, allExited j, running⟩) undamaged

omit [DecidableEq Submitter] in
/-- With all calls returned, a lost task is one that was accepted. -/
theorem Tracked.not_acceptedDone (tracked : Tracked s)
    (quiet : ∀ i, s.core.submitters i = .outside) (damaged : Damaged s) : ¬AcceptedDone s := by
  intro done
  have accepted : ∀ k, k < s.core.enqueued.length → k ∈ s.record.accepted := by
    intro k below
    rcases tracked.submitted.complete k below with accepted | ⟨i, stored, _⟩
    · exact accepted
    · rw [quiet i] at stored
      cases stored
  have history := congrArg List.length tracked.accounted.history
  rw [List.length_append] at history
  rcases damaged with ⟨j, t, _, executing⟩ | ⟨_, stored⟩
  · rcases tracked.executed.running executing with ⟨place, unrun⟩
    have below := (List.getElem?_eq_some_iff.mp place).1
    rcases done _ (accepted (s.record.taking j) (by omega)) with ⟨task, _, ran⟩
    rw [unrun] at ran
    cases ran
  · have positive := List.length_pos_iff.mpr stored
    rcases done _ (accepted s.core.dequeued.length (by omega)) with ⟨task, _, ran⟩
    rw [tracked.executed.notYet _ (Nat.le_refl _)] at ran
    cases ran

/-- When `pool_shutdown` returns, a run that has lost nothing has executed every accepted
task exactly once. Where no call of `pool_submit` is under way, only such a run has. -/
theorem accepted_done_of_loses_nothing {actions : List (PoolAction Submitter threads)}
    (run : runActions poolStep actions Pool.initial = some s)
    (returned : s.shutdownAt = .returned) :
    (AllAlong poolStep LosesNothing actions Pool.initial → AcceptedDone s) ∧
      ((∀ i, s.core.submitters i = .outside) → AcceptedDone s →
        AllAlong poolStep LosesNothing actions Pool.initial) := by
  have undamaged : ¬Damaged (Pool.initial : Pool Submitter threads) := by
    intro damaged
    rcases damaged with ⟨j, t, exited, _⟩ | ⟨_, stored⟩
    · cases exited
    · exact stored contents_initial
  have along := (allAlong_iff Tracked.step (fun tracked damaged => damaged.step tracked.joined)
    (fun tracked undamaged => losesNothing_iff undamaged tracked.joined)
    initial_tracked run).2 undamaged
  have tracked : Tracked s := (ReachedFrom.run .start run).invariant initial_tracked Tracked.step
  rw [along]
  constructor
  · exact tracked.acceptedDone returned
  · intro quiet done damaged
    exact tracked.not_acceptedDone quiet damaged done

/-! ## Two runs of one submitter and the three workers -/

/-- A call of `pool_submit` that stores the task. -/
def submit (newTask : Task) : List (PoolAction Unit numberOfThreads) :=
  [.core (.call () newTask), .core (.enqueue ()), .core (.post ()), .core (.leave ())]

/-- A worker passes `sem_wait` and takes a task. -/
def take (j : Fin numberOfThreads) : List (PoolAction Unit numberOfThreads) :=
  [.core (.wait j), .core (.dequeue j)]

def firstWorker : Fin numberOfThreads := ⟨0, by decide⟩

/-- One task is submitted and executed, and then the pool is shut down. -/
def quietRun : List (PoolAction Unit numberOfThreads) :=
  submit ⟨7, 0⟩ ++ take firstWorker ++ [.core (.execute firstWorker), .shutdown] ++
    (List.finRange numberOfThreads).flatMap (fun j => [.shutdown, .exit j, .shutdown]) ++
    [.shutdown]

/-- Four tasks are submitted and three of them taken when the pool is shut down. Every
worker finishes its task and ends at `sem_wait`. -/
def hastyRun : List (PoolAction Unit numberOfThreads) :=
  (List.finRange numberOfThreads).flatMap (fun j => submit ⟨7, j.val⟩ ++ take j) ++
    submit ⟨7, 3⟩ ++ [.shutdown] ++
    (List.finRange numberOfThreads).flatMap (fun j =>
      [.shutdown, .core (.execute j), .exit j, .shutdown]) ++ [.shutdown]

instance (action : PoolAction Unit numberOfThreads) (s : Pool Unit numberOfThreads) :
    Decidable (LosesNothing action s) :=
  match action with
  | .core (.enqueue _) => inferInstanceAs (Decidable (∃ j, s.exited j = false))
  | .exit j => inferInstanceAs (Decidable (s.core.workers j = .waiting ∧
      ((∀ other, other ≠ j → s.exited other = true) → s.core.globals.queue.contents = [])))
  | .shutdown | .core (.call _ _) | .core (.post _) | .core (.leave _) | .core (.wait _)
  | .core (.dequeue _) | .core (.execute _) => isTrue trivial

theorem accepted_done_of_loses_nothing_demo :
    ∃ s, runActions poolStep quietRun Pool.initial = some s ∧ s.record.accepted = [0] ∧
      AcceptedDone s := by
  have ends : (runActions poolStep quietRun Pool.initial).map
      (fun s => (s.shutdownAt, s.record.accepted)) = some (.returned, [0]) := by decide
  rcases Option.map_eq_some_iff.mp ends with ⟨s, run, fields⟩
  rcases Prod.mk.inj fields with ⟨returned, accepted⟩
  refine ⟨s, run, accepted, (accepted_done_of_loses_nothing run returned).1 ?_⟩
  decide

/-- The fourth task of the run is accepted and never executed. -/
theorem hastyRun_drops_task : ¬∀ (actions : List (PoolAction Unit numberOfThreads)) s,
    runActions poolStep actions Pool.initial = some s → s.shutdownAt = .returned →
      AcceptedDone s := by
  intro claimed
  have ends : (runActions poolStep hastyRun Pool.initial).map
      (fun s => (s.shutdownAt, s.record.accepted, s.record.runsOf 3)) =
        some (.returned, [0, 1, 2, 3], []) := by decide
  rcases Option.map_eq_some_iff.mp ends with ⟨s, run, fields⟩
  rcases Prod.mk.inj fields with ⟨returned, others⟩
  rcases Prod.mk.inj others with ⟨accepted, unrun⟩
  rcases claimed hastyRun s run returned 3 (by simp [accepted]) with ⟨task, _, ran⟩
  rw [unrun] at ran
  cases ran

end OsProjects.ThreadPool
