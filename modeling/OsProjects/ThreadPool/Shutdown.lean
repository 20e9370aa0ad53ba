import OsProjects.ThreadPool.HandOver

/-!
Owns the pool with `pool_shutdown`: the thread that cancels and joins the workers one
after the other, and the workers that act on a cancellation. A cancelled worker leaves
at `sem_wait` or inside its task.

The places of tasks in the order of the critical sections serve as their names. They
and the lists of accepted calls and completed runs are recorded, and no step reads
them.

Does not own what the record says of the tasks.
-/

namespace OsProjects.ThreadPool

open OsProjects.Theory

/-- `NUMBER_OF_THREADS` -/
abbrev numberOfThreads : ℕ := 3

/-- Where the program stands in the loop of `pool_shutdown`. -/
inductive ShutdownAt (threads : ℕ) where
  | notCalled
  | cancelling (i : ℕ)
  | joining (i : Fin threads)
  | returned
deriving DecidableEq, Repr

/-- What is recorded of the tasks: the place of the task that a submitter stored last
and that a worker took last, the places of the tasks whose `pool_submit` returned 0, and
the completed runs. -/
structure Record (Submitter Worker : Type) where
  ticket : Submitter → ℕ
  taking : Worker → ℕ
  accepted : List ℕ
  completed : List (ℕ × Task)

/-- The pool with the threads that are told to end and those that have ended. -/
structure Pool (Submitter : Type) (threads : ℕ) where
  core : State Submitter (Fin threads)
  shutdownAt : ShutdownAt threads
  cancelled : Fin threads → Bool
  exited : Fin threads → Bool
  record : Record Submitter (Fin threads)

/-- A step of a submitter or a worker, the next step of `pool_shutdown`, or a worker
that acts on its cancellation. -/
inductive PoolAction (Submitter : Type) (threads : ℕ) where
  | core (action : Action Submitter (Fin threads))
  | shutdown
  | exit (j : Fin threads)

/-- The worker that takes the step. -/
def Action.worker {Submitter Worker : Type} : Action Submitter Worker → Option Worker
  | .wait j | .dequeue j | .execute j => some j
  | _ => none

section Steps

variable {Submitter : Type} {threads : ℕ} [DecidableEq Submitter]

/-- The pool after `pool_init`. -/
def Pool.initial : Pool Submitter threads where
  core := poolInit
  shutdownAt := .notCalled
  cancelled := fun _ => false
  exited := fun _ => false
  record := ⟨fun _ => 0, fun _ => 0, [], []⟩

/-- What is recorded of a step from `before` to `after`. -/
def Record.note (r : Record Submitter (Fin threads))
    (before after : State Submitter (Fin threads)) :
    Action Submitter (Fin threads) → Record Submitter (Fin threads)
  | .enqueue i =>
      if after.submitters i = .posting then
        { r with ticket := Function.update r.ticket i before.enqueued.length }
      else
        r
  | .leave i =>
      if before.submitters i = .returned 0 then
        { r with accepted := r.accepted ++ [r.ticket i] }
      else
        r
  | .dequeue j => { r with taking := Function.update r.taking j before.dequeued.length }
  | .execute j =>
      match before.workers j with
      | .executing workToDo => { r with completed := r.completed ++ [(r.taking j, workToDo)] }
      | _ => r
  | _ => r

/-- The pool after a step of a submitter or a worker. -/
def Pool.advance (s : Pool Submitter threads) (action : Action Submitter (Fin threads))
    (core : State Submitter (Fin threads)) : Pool Submitter threads :=
  { s with core, record := s.record.note s.core core action }

/-- One step, `none` where it is disabled. A worker that has ended takes no step, and
nobody uses the pool after `sem_destroy` and `pthread_mutex_destroy`. -/
def poolStep : PoolAction Submitter threads → Pool Submitter threads →
    Option (Pool Submitter threads)
  | .core action, s =>
      if s.shutdownAt = .returned ∨ ∃ j, action.worker = some j ∧ s.exited j then none
      else (step action s.core).map (s.advance action)
  | .shutdown, s =>
      match s.shutdownAt with
      | .notCalled => some { s with shutdownAt := .cancelling 0 }
      | .cancelling i =>
          if below : i < threads then
            some { s with
              shutdownAt := .joining ⟨i, below⟩
              cancelled := Function.update s.cancelled ⟨i, below⟩ true }
          else
            -- the loop is done: `sem_destroy`, `pthread_mutex_destroy`, return
            some { s with shutdownAt := .returned }
      | .joining i =>
          if s.exited i then some { s with shutdownAt := .cancelling (i + 1) } else none
      | .returned => none
  | .exit j, s =>
      if s.cancelled j ∧ ¬s.exited j then
        match s.core.workers j with
        -- `sem_wait` and the task's own calls are cancellation points, the lock is not
        | .waiting | .executing _ => some { s with exited := Function.update s.exited j true }
        | .dequeueing => none
      else
        none

/-! ## What each step does -/

variable {s after : Pool Submitter threads} {action : Action Submitter (Fin threads)}
variable {j : Fin threads}

theorem poolStep_core (taken : poolStep (.core action) s = some after) :
    (∀ j, action.worker = some j → s.exited j = false) ∧
      ∃ core, step action s.core = some core ∧ after = s.advance action core := by
  simp only [poolStep] at taken
  split at taken
  · cases taken
  · next allowed =>
      constructor
      · intro j isWorker
        by_contra exited
        exact allowed (Or.inr ⟨j, isWorker, by simpa using exited⟩)
      · rcases Option.map_eq_some_iff.mp taken with ⟨core, stepped, rfl⟩
        exact ⟨core, stepped, rfl⟩

theorem poolStep_exit (taken : poolStep (.exit j) s = some after) :
    s.exited j = false ∧ (s.core.workers j = .waiting ∨ ∃ t, s.core.workers j = .executing t) ∧
      after = { s with exited := Function.update s.exited j true } := by
  simp only [poolStep] at taken
  split at taken
  · next pending =>
      have running : s.exited j = false := by simpa using pending.2
      cases at_j : s.core.workers j with
      | waiting => exact ⟨running, Or.inl rfl, by simpa [at_j] using taken.symm⟩
      | executing t => exact ⟨running, Or.inr ⟨t, rfl⟩, by simpa [at_j] using taken.symm⟩
      | dequeueing => simp [at_j] at taken
  · cases taken

/-- Up to the place in the loop, every worker has been joined. -/
def Pool.Joined (s : Pool Submitter threads) : Prop :=
  match s.shutdownAt with
  | .notCalled => True
  | .cancelling i => ∀ j : Fin threads, j < i → s.exited j = true
  | .joining i => ∀ j, j < i → s.exited j = true
  | .returned => ∀ j, s.exited j = true

/-- A step of `pool_shutdown` only moves on in the loop. -/
theorem poolStep_shutdown (joined : s.Joined) (taken : poolStep .shutdown s = some after) :
    after.core = s.core ∧ after.exited = s.exited ∧ after.record = s.record ∧ after.Joined := by
  simp only [poolStep] at taken
  unfold Pool.Joined at joined
  split at taken
  · next at_start =>
      cases taken
      exact ⟨rfl, rfl, rfl, fun j impossible => absurd impossible (Nat.not_lt_zero _)⟩
  · next i at_i =>
      rw [at_i] at joined
      split at taken
      · next below =>
          cases taken
          exact ⟨rfl, rfl, rfl, fun j before => joined j before⟩
      · next beyond =>
          cases taken
          refine ⟨rfl, rfl, rfl, fun j => joined j ?_⟩
          have below := j.isLt
          omega
  · next i at_i =>
      rw [at_i] at joined
      split at taken
      · next ended =>
          cases taken
          refine ⟨rfl, rfl, rfl, fun j upTo => ?_⟩
          cases Nat.lt_succ_iff_lt_or_eq.mp upTo with
          | inl before => exact joined j before
          | inr last =>
              rw [Fin.ext last]
              exact ended
      · cases taken
  · cases taken

end Steps

end OsProjects.ThreadPool
