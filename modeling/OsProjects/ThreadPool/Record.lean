import OsProjects.ThreadPool.Shutdown

/-!
Owns what the record says of the tasks: every task stored belongs to a call that has
returned 0 or is going to, and every task taken has been run once, or one worker runs
it now.

Each of the two is kept by every step of a submitter or a worker. Neither speaks of
cancellations, which change no such thread's place.
-/

namespace OsProjects.ThreadPool

section Recorded

variable {Submitter : Type} {threads : ℕ}
variable {s after : State Submitter (Fin threads)} {r : Record Submitter (Fin threads)}
variable {action : Action Submitter (Fin threads)}

/-- The thread has stored a task and its call has not returned yet. -/
def SubmitterAt.hasStored : SubmitterAt → Bool
  | .posting => true
  | .returned err => err = 0
  | _ => false

/-- The completed runs of the task at the place. -/
def Record.runsOf (r : Record Submitter (Fin threads)) (place : ℕ) : List (ℕ × Task) :=
  r.completed.filter (·.1 = place)

/-- Every task stored belongs to a call that has returned 0 or is going to. -/
structure Submitted (r : Record Submitter (Fin threads)) (s : State Submitter (Fin threads)) :
    Prop where
  accepted : ∀ k ∈ r.accepted, k < s.enqueued.length
  pending : ∀ i, (s.submitters i).hasStored → r.ticket i < s.enqueued.length
  complete : ∀ k, k < s.enqueued.length →
    k ∈ r.accepted ∨ ∃ i, (s.submitters i).hasStored ∧ r.ticket i = k

/-- Every task taken has been run once, or one worker runs it now. -/
structure Executed (r : Record Submitter (Fin threads)) (s : State Submitter (Fin threads)) :
    Prop where
  notYet : ∀ k, s.dequeued.length ≤ k → r.runsOf k = []
  running : ∀ {j t}, s.workers j = .executing t →
    s.dequeued[r.taking j]? = some t ∧ r.runsOf (r.taking j) = []
  apart : ∀ {j l t u}, s.workers j = .executing t → s.workers l = .executing u →
    r.taking j = r.taking l → j = l
  taken : ∀ k t, s.dequeued[k]? = some t →
    r.runsOf k = [(k, t)] ∨ ∃ j, s.workers j = .executing t ∧ r.taking j = k

/-- The workers that execute a task after worker `j` has moved on. -/
theorem executing_moveWorker {j l : Fin threads} {control : WorkerAt} {t : Task} :
    (s.moveWorker j control).workers l = .executing t ↔
      l = j ∧ control = .executing t ∨ l ≠ j ∧ s.workers l = .executing t := by
  by_cases same : l = j
  · simp [State.moveWorker, same]
  · simp [State.moveWorker, same]

/-- A worker that wakes up neither runs a task nor takes one. -/
theorem Executed.woken (executed : Executed r s) {j : Fin threads}
    (at_j : s.workers j = .waiting) : Executed r (s.woken j) := by
  have still : ∀ {l t}, (s.woken j).workers l = .executing t ↔ s.workers l = .executing t := by
    intro l t
    refine executing_moveWorker.trans ⟨?_, fun running => Or.inr ⟨?_, running⟩⟩
    · rintro (⟨_, dequeues⟩ | ⟨_, running⟩)
      · cases dequeues
      · exact running
    · intro same
      rw [same, at_j] at running
      cases running
  constructor
  · exact executed.notYet
  · intro l t running
    exact executed.running (still.mp running)
  · intro l m t u first second
    exact executed.apart (still.mp first) (still.mp second)
  · intro k t taken
    rcases executed.taken k t taken with done | ⟨l, running, isPlace⟩
    · exact Or.inl done
    · exact Or.inr ⟨l, still.mpr running, isPlace⟩

/-- The task that a worker runs is among those taken. -/
theorem Executed.place_lt (executed : Executed r s) {l : Fin threads} {t : Task}
    (running : s.workers l = .executing t) : r.taking l < s.dequeued.length :=
  (List.getElem?_eq_some_iff.mp (executed.running running).1).1

/-- A task taken is one that has not been run, and now one worker runs it. -/
theorem Executed.took (executed : Executed r s) {j : Fin threads}
    (at_j : s.workers j = .dequeueing) :
    Executed { r with taking := Function.update r.taking j s.dequeued.length } (s.taken j) := by
  have executes : ∀ {l t}, (s.taken j).workers l = .executing t ↔
      l = j ∧ WorkerAt.executing (dequeue s.globals).1 = .executing t ∨
        l ≠ j ∧ s.workers l = .executing t := executing_moveWorker
  constructor
  · intro k beyond
    apply executed.notYet k
    have length : (s.taken j).dequeued.length = s.dequeued.length + 1 := List.length_append
    omega
  · intro l t running
    show (s.dequeued ++ [(dequeue s.globals).1])[Function.update r.taking j s.dequeued.length l]? =
      some t ∧ r.runsOf (Function.update r.taking j s.dequeued.length l) = []
    obtain ⟨rfl, ⟨⟩⟩ | ⟨other, running⟩ := executes.mp running
    · rw [Function.update_self]
      exact ⟨List.getElem?_concat_length, executed.notYet _ (Nat.le_refl _)⟩
    · rw [Function.update_of_ne other, List.getElem?_append_left (executed.place_lt running)]
      exact executed.running running
  · intro l m t u first second samePlace
    have samePlace : Function.update r.taking j s.dequeued.length l =
        Function.update r.taking j s.dequeued.length m := samePlace
    obtain ⟨rfl, _⟩ | ⟨firstOther, firstRuns⟩ := executes.mp first
    · obtain ⟨rfl, _⟩ | ⟨secondOther, secondRuns⟩ := executes.mp second
      · rfl
      · rw [Function.update_self, Function.update_of_ne secondOther] at samePlace
        exact absurd samePlace (executed.place_lt secondRuns).ne'
    · obtain ⟨rfl, _⟩ | ⟨secondOther, secondRuns⟩ := executes.mp second
      · rw [Function.update_self, Function.update_of_ne firstOther] at samePlace
        exact absurd samePlace (executed.place_lt firstRuns).ne
      · rw [Function.update_of_ne firstOther, Function.update_of_ne secondOther] at samePlace
        exact executed.apart firstRuns secondRuns samePlace
  · intro k t taken
    have taken : (s.dequeued ++ [(dequeue s.globals).1])[k]? = some t := taken
    by_cases before : k < s.dequeued.length
    · rw [List.getElem?_append_left before] at taken
      rcases executed.taken k t taken with done | ⟨l, running, isPlace⟩
      · exact Or.inl done
      · right
        have isOther : l ≠ j := by
          intro same
          rw [same, at_j] at running
          cases running
        refine ⟨l, executes.mpr (Or.inr ⟨isOther, running⟩), ?_⟩
        exact (Function.update_of_ne isOther _ _).trans isPlace
    · right
      have last : k = s.dequeued.length := by
        have inside := (List.getElem?_eq_some_iff.mp taken).1
        simp only [List.length_append, List.length_singleton] at inside
        omega
      rw [last, List.getElem?_concat_length] at taken
      cases taken
      exact ⟨j, executes.mpr (Or.inl ⟨rfl, rfl⟩), (Function.update_self _ _ _).trans last.symm⟩

/-- A run that is completed was the only one of its task. -/
theorem Executed.ran (executed : Executed r s) {j : Fin threads} {workToDo : Task}
    (at_j : s.workers j = .executing workToDo) :
    Executed { r with completed := r.completed ++ [(r.taking j, workToDo)] }
      (s.moveWorker j .waiting) := by
  rcases executed.running at_j with ⟨place, unrun⟩
  have placeBelow := executed.place_lt at_j
  have still : ∀ {l t}, (s.moveWorker j .waiting).workers l = .executing t ↔
      l ≠ j ∧ s.workers l = .executing t := by
    intro l t
    rw [executing_moveWorker]
    simp
  have runs : ∀ k, Record.runsOf { r with completed := r.completed ++ [(r.taking j, workToDo)] } k =
      r.runsOf k ++ if r.taking j = k then [(r.taking j, workToDo)] else [] := by
    intro k
    simp only [Record.runsOf, List.filter_append]
    by_cases same : r.taking j = k
    · simp [same]
    · simp [same]
  constructor
  · intro k beyond
    have beyond : s.dequeued.length ≤ k := beyond
    rw [runs, if_neg (by omega), executed.notYet k beyond]
    rfl
  · intro l t running
    rcases still.mp running with ⟨different, before⟩
    rcases executed.running before with ⟨taken, unrunBefore⟩
    refine ⟨taken, ?_⟩
    have apart : r.taking j ≠ r.taking l :=
      fun same => different (executed.apart at_j before same).symm
    rw [runs, unrunBefore, if_neg apart]
    rfl
  · intro l m t u first second
    exact executed.apart (still.mp first).2 (still.mp second).2
  · intro k t taken
    rw [runs]
    rcases executed.taken k t taken with done | ⟨l, running, isPlace⟩
    · left
      have apart : r.taking j ≠ k := by
        intro same
        rw [same, done] at unrun
        cases unrun
      rw [done, if_neg apart]
      rfl
    · by_cases same : l = j
      · subst same
        left
        rw [at_j] at running
        cases running
        rw [← isPlace, unrun, if_pos rfl]
        rfl
      · exact Or.inr ⟨l, still.mpr ⟨same, running⟩, isPlace⟩

section Submitters

variable [DecidableEq Submitter]

/-- A submitter that has stored nothing moves on to another such place. -/
theorem Submitted.move (submitted : Submitted r s) {i : Submitter} {control : SubmitterAt}
    (before : (s.submitters i).hasStored = control.hasStored) :
    Submitted r (s.moveSubmitter i control) := by
  have same : ∀ d, (Function.update s.submitters i control d).hasStored =
      (s.submitters d).hasStored := by
    intro d
    by_cases isMover : d = i
    · rw [isMover, Function.update_self, before]
    · rw [Function.update_of_ne isMover]
  constructor
  · exact submitted.accepted
  · intro d stored
    exact submitted.pending d ((same d).symm.trans stored)
  · intro k below
    rcases submitted.complete k below with accepted | ⟨d, stored, isTicket⟩
    · exact Or.inl accepted
    · exact Or.inr ⟨d, (same d).trans stored, isTicket⟩

/-- A task stored gets the next place. -/
theorem Submitted.stored (submitted : Submitted r s) {i : Submitter} {newTask : Task}
    (at_i : s.submitters i = .enqueueing newTask) :
    Submitted { r with ticket := Function.update r.ticket i s.enqueued.length }
      (s.stored i newTask) := by
  have length : (s.stored i newTask).enqueued.length = s.enqueued.length + 1 :=
    List.length_append
  constructor
  · intro k accepted
    have below := submitted.accepted k accepted
    omega
  · intro d stored
    rw [length]
    by_cases isMover : d = i
    · simp [isMover]
    · have before : (s.submitters d).hasStored := by
        simpa [State.stored, State.moveSubmitter, isMover] using stored
      have below := submitted.pending d before
      simp only [Function.update_of_ne isMover]
      omega
  · intro k below
    rw [length] at below
    by_cases isNew : k = s.enqueued.length
    · right
      refine ⟨i, ?_, ?_⟩
      · simp [State.stored, State.moveSubmitter, SubmitterAt.hasStored]
      · simp [isNew]
    · rcases submitted.complete k (by omega) with accepted | ⟨d, stored, isTicket⟩
      · exact Or.inl accepted
      · right
        have isOther : d ≠ i := by
          intro same
          rw [same, at_i] at stored
          cases stored
        refine ⟨d, ?_, ?_⟩
        · simpa [State.stored, State.moveSubmitter, isOther] using stored
        · simpa [isOther] using isTicket

/-- A call that returns 0 has its task accepted. -/
theorem Submitted.leave (submitted : Submitted r s) {i : Submitter} {err : Int}
    (at_i : s.submitters i = .returned err) :
    Submitted (r.note s (s.moveSubmitter i .outside) (.leave i)) (s.moveSubmitter i .outside) := by
  by_cases success : err = 0
  · subst success
    simp only [Record.note, at_i, if_true]
    have stored : (s.submitters i).hasStored := by
      rw [at_i]
      rfl
    have below := submitted.pending i stored
    constructor
    · intro k member
      rcases List.mem_append.mp member with accepted | isNew
      · exact submitted.accepted k accepted
      · rw [List.mem_singleton.mp isNew]
        exact below
    · intro d now
      have isOther : d ≠ i := by
        intro same
        simp [State.moveSubmitter, same, SubmitterAt.hasStored] at now
      apply submitted.pending d
      simpa [State.moveSubmitter, isOther] using now
    · intro k kBelow
      rcases submitted.complete k kBelow with accepted | ⟨d, storedBefore, isTicket⟩
      · exact Or.inl (List.mem_append_left _ accepted)
      · by_cases isMover : d = i
        · left
          rw [← isTicket, isMover]
          simp
        · right
          exact ⟨d, by simpa [State.moveSubmitter, isMover] using storedBefore, isTicket⟩
  · have unchanged : r.note s (s.moveSubmitter i .outside) (.leave i) = r := by
      simp [Record.note, at_i, success]
    rw [unchanged]
    apply submitted.move
    simp [at_i, SubmitterAt.hasStored, success]

/-- Every step keeps track of the calls. -/
theorem Submitted.step (submitted : Submitted r s) (taken : step action s = some after) :
    Submitted (r.note s after action) after := by
  cases action with
  | call i newTask =>
      rcases step_call taken with ⟨at_i, rfl⟩
      apply submitted.move
      rw [at_i]
      rfl
  | enqueue i =>
      rcases step_enqueue taken with ⟨newTask, at_i, ⟨_, rfl⟩ | ⟨_, rfl⟩⟩
      · have unchanged : r.note s (s.moveSubmitter i (.returned 1)) (.enqueue i) = r := by
          simp [Record.note, State.moveSubmitter]
        rw [unchanged]
        apply submitted.move
        rw [at_i]
        rfl
      · have noted : r.note s (s.stored i newTask) (.enqueue i) =
            { r with ticket := Function.update r.ticket i s.enqueued.length } := by
          simp [Record.note, State.stored, State.moveSubmitter]
        rw [noted]
        exact submitted.stored at_i
  | post i =>
      rcases step_post taken with ⟨at_i, rfl⟩
      have moved : Submitted r (s.moveSubmitter i (.returned 0)) := by
        apply submitted.move
        rw [at_i]
        rfl
      exact ⟨moved.accepted, moved.pending, moved.complete⟩
  | leave i =>
      rcases step_leave taken with ⟨⟨err, at_i⟩, rfl⟩
      exact submitted.leave at_i
  | wait j =>
      rcases step_wait taken with ⟨_, _, rfl⟩
      exact ⟨submitted.accepted, submitted.pending, submitted.complete⟩
  | dequeue j =>
      rcases step_dequeue taken with ⟨_, rfl⟩
      exact ⟨submitted.accepted, submitted.pending, submitted.complete⟩
  | execute j =>
      rcases step_execute taken with ⟨⟨workToDo, at_j⟩, rfl⟩
      simp only [Record.note, at_j]
      exact ⟨submitted.accepted, submitted.pending, submitted.complete⟩

/-- Only the worker that takes a step changes its place. -/
theorem step_worker_kept (taken : step action s = some after) {j : Fin threads}
    (other : action.worker ≠ some j) : after.workers j = s.workers j := by
  have moved : ∀ {l control}, some l ≠ some j → Function.update s.workers l control j =
      s.workers j := by
    intro l control different
    exact Function.update_of_ne (fun same => different (congrArg some same.symm)) _ _
  cases action with
  | call i newTask =>
      rcases step_call taken with ⟨_, rfl⟩
      rfl
  | enqueue i =>
      rcases step_enqueue taken with ⟨newTask, _, ⟨_, rfl⟩ | ⟨_, rfl⟩⟩
      · rfl
      · rfl
  | post i =>
      rcases step_post taken with ⟨_, rfl⟩
      rfl
  | leave i =>
      rcases step_leave taken with ⟨_, rfl⟩
      rfl
  | wait l =>
      rcases step_wait taken with ⟨_, _, rfl⟩
      exact moved other
  | dequeue l =>
      rcases step_dequeue taken with ⟨_, rfl⟩
      exact moved other
  | execute l =>
      rcases step_execute taken with ⟨_, rfl⟩
      exact moved other

/-- A step of a submitter concerns neither the tasks taken nor their runs. -/
theorem submitter_step (taken : step action s = some after) (isSubmitter : action.worker = none) :
    after.workers = s.workers ∧ after.dequeued = s.dequeued ∧
      (r.note s after action).taking = r.taking ∧
      (r.note s after action).completed = r.completed := by
  cases action with
  | call i newTask =>
      rcases step_call taken with ⟨_, rfl⟩
      exact ⟨rfl, rfl, rfl, rfl⟩
  | enqueue i =>
      have sameRecord : (r.note s after (.enqueue i)).taking = r.taking ∧
          (r.note s after (.enqueue i)).completed = r.completed := by
        simp only [Record.note]
        split
        · exact ⟨rfl, rfl⟩
        · exact ⟨rfl, rfl⟩
      rcases step_enqueue taken with ⟨newTask, _, ⟨_, rfl⟩ | ⟨_, rfl⟩⟩
      · exact ⟨rfl, rfl, sameRecord⟩
      · exact ⟨rfl, rfl, sameRecord⟩
  | post i =>
      rcases step_post taken with ⟨_, rfl⟩
      exact ⟨rfl, rfl, rfl, rfl⟩
  | leave i =>
      have sameRecord : (r.note s after (.leave i)).taking = r.taking ∧
          (r.note s after (.leave i)).completed = r.completed := by
        simp only [Record.note]
        split
        · exact ⟨rfl, rfl⟩
        · exact ⟨rfl, rfl⟩
      rcases step_leave taken with ⟨_, rfl⟩
      exact ⟨rfl, rfl, sameRecord⟩
  | wait j => cases isSubmitter
  | dequeue j => cases isSubmitter
  | execute j => cases isSubmitter

/-- Every step keeps track of the runs. -/
theorem Executed.step (executed : Executed r s) (taken : step action s = some after) :
    Executed (r.note s after action) after := by
  cases isWorker : action.worker with
  | none =>
      rcases submitter_step (r := r) taken isWorker with ⟨workers, dequeued, taking, completed⟩
      have runs : ∀ k, (r.note s after action).runsOf k = r.runsOf k := by
        intro k
        rw [Record.runsOf, completed]
        rfl
      constructor
      · intro k beyond
        rw [runs]
        exact executed.notYet k (dequeued ▸ beyond)
      · intro j t running
        rw [runs, taking, dequeued]
        exact executed.running (workers ▸ running)
      · intro j l t u first second samePlace
        rw [taking] at samePlace
        exact executed.apart (workers ▸ first) (workers ▸ second) samePlace
      · intro k t isTaken
        rw [runs, taking, workers]
        exact executed.taken k t (dequeued ▸ isTaken)
  | some j =>
      cases action with
      | wait l =>
          rcases step_wait taken with ⟨at_l, _, rfl⟩
          exact executed.woken at_l
      | dequeue l =>
          rcases step_dequeue taken with ⟨at_l, rfl⟩
          exact executed.took at_l
      | execute l =>
          rcases step_execute taken with ⟨⟨workToDo, at_l⟩, rfl⟩
          simp only [Record.note, at_l]
          exact executed.ran at_l
      | call i newTask => cases isWorker
      | enqueue i => cases isWorker
      | post i => cases isWorker
      | leave i => cases isWorker

end Submitters

end Recorded

end OsProjects.ThreadPool
