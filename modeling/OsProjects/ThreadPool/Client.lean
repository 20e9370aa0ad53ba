import OsProjects.C.Array
import OsProjects.ThreadPool.AcceptedWork

/-!
Owns the client of the thread pool: `main` writes the data of `n` tasks and submits them one
after the other, again and again while the queue is full. It then rests, shuts the pool down and
frees the data.

`undefined` records a call of something that is not `add`, and an access to data that is not
there. The tasks are told apart by the places of their data in `params`.

Does not own the pool itself (`Model`, `Shutdown`).
-/

namespace OsProjects.ThreadPool

open OsProjects.Theory

/-- `struct data` -/
structure Data where
  a : Int
  b : Int
deriving DecidableEq, Repr

/-- The three numbers of the line that `add` prints. -/
structure Line where
  a : Int
  b : Int
  result : Int
deriving DecidableEq, Repr

/-- The block at `params`, `none` once it is freed. Its elements are not initialised. -/
abbrev Params (n : ℕ) := Option (Fin n → Option Data)

/-- `&add`, an address that is not `NULL`. -/
def addAddress : ℕ := 1

/-- The task with `&add` and `&params[i]`. -/
def addTask (i : ℕ) : Task := ⟨addAddress, i⟩

section Data

variable {n : ℕ}

/-- `add`, `none` where it reads what is not there or its sum overflows. -/
def add (params : Params n) (param : ℕ) : Option Line :=
  match params with
  | none => none
  | some block =>
      match C.read block param with
      | .ok (some temp) =>
          match C.addInt temp.a temp.b with
          | .ok result => some ⟨temp.a, temp.b, result⟩
          | .error _ => none
      | _ => none

/-- `execute` -/
def execute (params : Params n) (workToDo : Task) : Option Line :=
  if workToDo.function = addAddress then add params workToDo.data else none

/-- `params[i].a = i; params[i].b = -i;` -/
def prepare (params : Params n) (i : ℕ) : Option (Params n) :=
  match params with
  | none => none
  | some block =>
      match C.write block i (some ⟨i, -i⟩) with
      | .ok block => some (some block)
      | .error _ => none

end Data

/-- Where `main` stands, with the number of the task in the loop. -/
inductive ClientAt where
  | preparing (i : ℕ)
  | submitting (i : ℕ)
  | calling (i : ℕ)
  | resting
  | shuttingDown
  | done
deriving DecidableEq

structure Client (n threads : ℕ) where
  pool : Pool Unit threads
  mainAt : ClientAt
  params : Params n
  printed : List Line
  undefined : Bool

/-- A step of `main`, of a worker, or a worker that acts on its cancellation. -/
inductive ClientAction (threads : ℕ) where
  | main
  | wait (j : Fin threads)
  | dequeue (j : Fin threads)
  | execute (j : Fin threads)
  | exit (j : Fin threads)

variable {n threads : ℕ}

/-- `main` has created the pool and allocated the block. -/
def Client.initial : Client n threads where
  pool := .initial
  mainAt := .preparing 0
  params := some fun _ => none
  printed := []
  undefined := false

/-- The next step of the call of `pool_submit`. -/
def submitAction : SubmitterAt → Option (Action Unit (Fin threads))
  | .outside => none
  | .enqueueing _ => some (.enqueue ())
  | .posting => some (.post ())
  | .returned _ => some (.leave ())

/-- Where `main` goes on with the call: a call that has failed is made once more. -/
def afterCall (i : ℕ) : SubmitterAt → ClientAt
  | .returned err => if err ≠ 0 then .submitting i else .preparing (i + 1)
  | _ => .calling i

/-- The next step of `main`. -/
def clientMain (c : Client n threads) : Option (Client n threads) :=
  match c.mainAt with
  | .preparing i =>
      if i = n then some { c with mainAt := .resting }
      else
        match prepare c.params i with
        | some params => some { c with params, mainAt := .submitting i }
        | none => some { c with undefined := true, mainAt := .submitting i }
  | .submitting i =>
      (poolStep (.core (.call () (addTask i))) c.pool).map fun pool =>
        { c with pool, mainAt := .calling i }
  | .calling i =>
      match submitAction (c.pool.core.submitters ()) with
      | some action =>
          (poolStep (.core action) c.pool).map fun pool =>
            { c with pool, mainAt := afterCall i (c.pool.core.submitters ()) }
      | none => none
  | .resting => some { c with mainAt := .shuttingDown }
  | .shuttingDown =>
      if c.pool.shutdownAt = .returned then some { c with params := none, mainAt := .done }
      else (poolStep .shutdown c.pool).map fun pool => { c with pool }
  | .done => none

/-- What a worker prints when it runs the task. -/
def Client.print (c : Client n threads) (workToDo : Task) : Client n threads :=
  match execute c.params workToDo with
  | some line => { c with printed := c.printed ++ [line] }
  | none => { c with undefined := true }

def clientStep : ClientAction threads → Client n threads → Option (Client n threads)
  | .main, c => clientMain c
  | .wait j, c => (poolStep (.core (.wait j)) c.pool).map fun pool => { c with pool }
  | .dequeue j, c => (poolStep (.core (.dequeue j)) c.pool).map fun pool => { c with pool }
  | .execute j, c =>
      match c.pool.core.workers j with
      | .executing workToDo =>
          (poolStep (.core (.execute j)) c.pool).map fun pool =>
            { c.print workToDo with pool }
      | _ => none
  | .exit j, c => (poolStep (.exit j) c.pool).map fun pool => { c with pool }

/-- The states that some interleaving of `main` and the workers reaches. -/
abbrev ClientReachable (c : Client n threads) : Prop :=
  ReachedFrom Client.initial clientStep c

/-! ## What every step keeps -/

/-- The tasks before the place, in order. -/
def tasksBefore (stored : ℕ) : List Task := (List.range stored).map addTask

/-- The line that belongs to the task. -/
def lineOf (i : ℕ) : Line := ⟨i, -i, 0⟩

/-- The block after the first `written` elements have been written. -/
def prepared (n written : ℕ) : Fin n → Option Data :=
  fun i => if i < written then some ⟨i, -i⟩ else none

/-- How many elements of the block are written. -/
def ClientAt.written (n : ℕ) : ClientAt → ℕ
  | .preparing i => i
  | .submitting i => i + 1
  | .calling i => i + 1
  | .resting | .shuttingDown | .done => n

/-- Where the call of `pool_submit` for task `i` stands, when `stored` tasks have been
stored. -/
def CallPlace (i stored : ℕ) : SubmitterAt → Prop
  | .outside => False
  | .enqueueing newTask => newTask = addTask i ∧ stored = i
  | .posting => stored = i + 1
  | .returned err => err = 0 ∧ stored = i + 1 ∨ err = 1 ∧ stored = i

/-- Where `main` is in its loop, when `stored` tasks have been stored. -/
def ClientAt.Place (n stored : ℕ) (call : SubmitterAt) : ClientAt → Prop
  | .preparing i => call = .outside ∧ i ≤ n ∧ stored = i
  | .submitting i => call = .outside ∧ i < n ∧ stored = i
  | .calling i => i < n ∧ CallPlace i stored call
  | .resting | .shuttingDown | .done => call = .outside ∧ stored = n

/-- `main` has not called `pool_shutdown`. -/
def ClientAt.beforeShutdown : ClientAt → Bool
  | .shuttingDown | .done => false
  | _ => true

/-- The tasks are stored in order and their data is there as long as a worker may read it. -/
structure Orderly (c : Client n threads) : Prop where
  tracked : Tracked c.pool
  told : ∀ j, c.pool.shutdownAt = .joining j → c.pool.cancelled j = true
  quiet : c.mainAt.beforeShutdown = true → c.pool.shutdownAt = .notCalled ∧
    ∀ j, c.pool.cancelled j = false ∧ c.pool.exited j = false
  ended : c.mainAt = .done → c.pool.shutdownAt = .returned
  params : c.params = if c.mainAt = .done then none else some (prepared n (c.mainAt.written n))
  place : ∃ stored, c.mainAt.Place n stored (c.pool.core.submitters ()) ∧
    c.pool.core.enqueued = tasksBefore stored
  printed : c.printed = c.pool.record.completed.map fun run => lineOf run.2.data
  defined : c.undefined = false

theorem ClientAt.Place.stored_le {stored : ℕ} {call : SubmitterAt} {mainAt : ClientAt}
    (place : mainAt.Place n stored call) : stored ≤ mainAt.written n ∧ mainAt.written n ≤ n := by
  cases mainAt with
  | preparing i =>
      obtain ⟨_, inside, isStored⟩ := place
      exact ⟨isStored.le, inside⟩
  | submitting i =>
      obtain ⟨_, inside, isStored⟩ := place
      exact ⟨isStored.le.trans (Nat.le_succ i), inside⟩
  | calling i =>
      obtain ⟨inside, called⟩ := place
      refine ⟨?_, inside⟩
      show stored ≤ i + 1
      cases call with
      | outside => exact called.elim
      | enqueueing newTask => exact called.2.le.trans (Nat.le_succ i)
      | posting => exact called.le
      | returned err =>
          rcases called with ⟨_, isStored⟩ | ⟨_, isStored⟩
          · exact isStored.le
          · exact isStored.le.trans (Nat.le_succ i)
  | resting | shuttingDown | done =>
      obtain ⟨_, isStored⟩ := place
      exact ⟨isStored.le, Nat.le_refl n⟩

theorem initial_orderly : Orderly (Client.initial : Client n threads) where
  tracked := initial_tracked
  told := fun _ at_join => by cases at_join
  quiet := fun _ => ⟨rfl, fun _ => ⟨rfl, rfl⟩⟩
  ended := fun isDone => by cases isDone
  params := by
    have nothing : prepared n 0 = fun _ => none := funext fun i => if_neg (Nat.not_lt_zero i)
    simp [Client.initial, ClientAt.written, nothing]
  place := ⟨0, ⟨rfl, Nat.zero_le n, rfl⟩, rfl⟩
  printed := rfl
  defined := rfl

/-- The next element is written behind those that are. -/
theorem prepare_prepared {i : ℕ} (inside : i < n) :
    prepare (some (prepared n i)) i = some (some (prepared n (i + 1))) := by
  have extended : Function.update (prepared n i) ⟨i, inside⟩ (some ⟨i, -i⟩) =
      prepared n (i + 1) := by
    rw [Function.update_eq_iff]
    constructor
    · simp [prepared]
    · intro k elsewhere
      have other : k.val ≠ i := fun same => elsewhere (Fin.ext same)
      have sameSide : k.val < i ↔ k.val < i + 1 := by omega
      simp only [prepared, sameSide]
  simp only [prepare, C.write_natCast _ inside, extended]

/-- A task whose data is written prints its line. -/
theorem execute_addTask {i written : ℕ} (before : i < written) (inside : written ≤ n) :
    execute (some (prepared n written)) (addTask i) = some (lineOf i) := by
  have below : i < n := by omega
  have sum : C.addInt (i : Int) (-i) = .ok 0 := by
    rw [C.addInt_ok (by rw [Int.add_right_neg]; exact C.isInt_zero), Int.add_right_neg]
  simp [execute, addTask, add, C.read_natCast _ below, prepared, before, sum, lineOf]

variable {c after : Client n threads} {pool : Pool Unit threads}
variable {action : Action Unit (Fin threads)} {j : Fin threads}

theorem not_done {mainAt : ClientAt} (before : mainAt.beforeShutdown = true) :
    mainAt ≠ .done := by
  rintro rfl
  cases before

/-- A worker runs one of the tasks that have been submitted. -/
theorem Orderly.running (orderly : Orderly c) {workToDo : Task}
    (at_j : c.pool.core.workers j = .executing workToDo) :
    ∃ i, i < c.mainAt.written n ∧ workToDo = addTask i := by
  obtain ⟨stored, place, enqueued⟩ := orderly.place
  have taken : workToDo ∈ c.pool.core.dequeued :=
    List.mem_of_getElem? (orderly.tracked.executed.running at_j).1
  have member : workToDo ∈ c.pool.core.enqueued := by
    rw [← orderly.tracked.accounted.history]
    exact List.mem_append_left _ taken
  rw [enqueued] at member
  obtain ⟨i, below, isTask⟩ := List.mem_map.mp member
  exact ⟨i, (List.mem_range.mp below).trans_le place.stored_le.1, isTask.symm⟩

/-- Its data is there, and nothing else is called. -/
theorem Orderly.prints (orderly : Orderly c) (ongoing : c.mainAt ≠ .done) {workToDo : Task}
    (at_j : c.pool.core.workers j = .executing workToDo) :
    execute c.params workToDo = some (lineOf workToDo.data) := by
  obtain ⟨i, below, rfl⟩ := orderly.running at_j
  obtain ⟨stored, place, _⟩ := orderly.place
  rw [orderly.params, if_neg ongoing]
  exact execute_addTask below place.stored_le.2

/-- A step of a worker that is none of `main`'s business. -/
theorem Orderly.withPool (orderly : Orderly c) {printed : List Line} (tracked : Tracked pool)
    (shutdownAt : pool.shutdownAt = c.pool.shutdownAt)
    (cancelled : pool.cancelled = c.pool.cancelled)
    (exited : c.mainAt.beforeShutdown = true → pool.exited = c.pool.exited)
    (submitters : pool.core.submitters = c.pool.core.submitters)
    (enqueued : pool.core.enqueued = c.pool.core.enqueued)
    (lines : printed = pool.record.completed.map fun run => lineOf run.2.data) :
    Orderly { c with pool, printed } where
  tracked := tracked
  told := by
    intro l at_join
    rw [cancelled]
    exact orderly.told l (shutdownAt ▸ at_join)
  quiet := by
    intro before
    obtain ⟨notCalled, untouched⟩ := orderly.quiet before
    refine ⟨shutdownAt.trans notCalled, ?_⟩
    show ∀ j, pool.cancelled j = false ∧ pool.exited j = false
    rw [cancelled, exited before]
    exact untouched
  ended := fun isDone => shutdownAt.trans (orderly.ended isDone)
  params := orderly.params
  place := by
    show ∃ stored, c.mainAt.Place n stored (pool.core.submitters ()) ∧
      pool.core.enqueued = tasksBefore stored
    rw [submitters, enqueued]
    exact orderly.place
  printed := lines
  defined := orderly.defined

/-- A step of the call of `pool_submit`. -/
theorem Orderly.submits (orderly : Orderly c) (before : c.mainAt.beforeShutdown = true)
    (taken : poolStep (.core action) c.pool = some pool) (isSubmitter : action.worker = none)
    {mainAt : ClientAt} (still : mainAt.beforeShutdown = true)
    (written : mainAt.written n = c.mainAt.written n)
    (place : ∃ stored, mainAt.Place n stored (pool.core.submitters ()) ∧
      pool.core.enqueued = tasksBefore stored) :
    Orderly { c with pool, mainAt } := by
  have tracked := orderly.tracked.step taken
  obtain ⟨_, core, stepped, rfl⟩ := poolStep_core taken
  obtain ⟨notCalled, untouched⟩ := orderly.quiet before
  obtain ⟨_, _, _, completed⟩ :=
    submitter_step (r := c.pool.record) stepped isSubmitter
  refine ⟨tracked, orderly.told, fun _ => ⟨notCalled, untouched⟩,
    fun isDone => absurd isDone (not_done still), ?_, place, ?_, orderly.defined⟩
  · show c.params = if mainAt = .done then none else some (prepared n (mainAt.written n))
    rw [if_neg (not_done still), written, orderly.params, if_neg (not_done before)]
  · show c.printed = (c.pool.record.note c.pool.core core action).completed.map _
    rw [completed]
    exact orderly.printed

theorem tasksBefore_succ (stored : ℕ) :
    tasksBefore (stored + 1) = tasksBefore stored ++ [addTask stored] := by
  simp [tasksBefore, List.range_succ]

/-- The call goes on, ends with the task stored, or is made once more. -/
theorem Orderly.calls (orderly : Orderly c) {i : ℕ} (at_i : c.mainAt = .calling i)
    (goesOn : submitAction (c.pool.core.submitters ()) = some action)
    (taken : poolStep (.core action) c.pool = some pool) :
    Orderly { c with pool, mainAt := afterCall i (c.pool.core.submitters ()) } := by
  have before : c.mainAt.beforeShutdown = true := by
    rw [at_i]
    rfl
  obtain ⟨stored, place, enqueued⟩ := orderly.place
  rw [at_i] at place
  obtain ⟨inside, called⟩ := place
  have isTaken := taken
  obtain ⟨_, core, stepped, isPool⟩ := poolStep_core taken
  have sameCore : pool.core = core := by
    rw [isPool]
    rfl
  cases call : c.pool.core.submitters () with
  | outside =>
      rw [call] at called
      exact called.elim
  | enqueueing newTask =>
      rw [call] at called goesOn
      cases goesOn
      obtain ⟨rfl, rfl⟩ := called
      refine orderly.submits before isTaken rfl rfl (by rw [at_i]; rfl) ?_
      rw [sameCore]
      obtain ⟨newTask, at_call, ⟨_, rfl⟩ | ⟨_, rfl⟩⟩ := step_enqueue stepped
      · refine ⟨stored, ⟨inside, ?_⟩, enqueued⟩
        exact Or.inr ⟨rfl, rfl⟩
      · rw [call] at at_call
        cases at_call
        refine ⟨stored + 1, ⟨inside, rfl⟩, ?_⟩
        show c.pool.core.enqueued ++ [addTask stored] = _
        rw [enqueued, tasksBefore_succ]
  | posting =>
      rw [call] at called goesOn
      cases goesOn
      refine orderly.submits before isTaken rfl rfl (by rw [at_i]; rfl) ?_
      rw [sameCore]
      obtain ⟨_, rfl⟩ := step_post stepped
      refine ⟨stored, ⟨inside, Or.inl ⟨rfl, called⟩⟩, enqueued⟩
  | returned err =>
      rw [call] at called goesOn
      cases goesOn
      obtain ⟨_, rfl⟩ := step_leave stepped
      have left : pool.core.submitters () = .outside := by
        rw [sameCore]
        rfl
      have stays : pool.core.enqueued = tasksBefore stored := by
        rw [sameCore]
        exact enqueued
      rcases called with ⟨rfl, isStored⟩ | ⟨rfl, isStored⟩
      · refine orderly.submits before isTaken rfl rfl (by rw [at_i]; rfl) ?_
        exact ⟨stored, ⟨left, inside, isStored⟩, stays⟩
      · refine orderly.submits before isTaken rfl rfl (by rw [at_i]; rfl) ?_
        exact ⟨stored, ⟨left, inside, isStored⟩, stays⟩

/-- `pool_shutdown` joins a worker that it has told to end. -/
theorem poolStep_tells {s after : Pool Unit threads} (taken : poolStep .shutdown s = some after)
    (at_join : after.shutdownAt = .joining j) : after.cancelled j = true := by
  simp only [poolStep] at taken
  split at taken
  · cases taken
    cases at_join
  · split at taken
    · cases taken
      cases at_join
      exact Function.update_self _ _ _
    · cases taken
      cases at_join
  · split at taken
    · cases taken
      cases at_join
    · cases taken
  · cases taken

theorem Orderly.main (orderly : Orderly c) (taken : clientMain c = some after) :
    Orderly after := by
  obtain ⟨stored, place, enqueued⟩ := orderly.place
  rw [clientMain] at taken
  cases at_main : c.mainAt with
  | preparing i =>
      simp only [at_main] at taken place
      obtain ⟨outside, inside, isStored⟩ := place
      have before : c.mainAt.beforeShutdown = true := by
        rw [at_main]
        rfl
      have block : c.params = some (prepared n i) := by
        rw [orderly.params, at_main]
        rfl
      split at taken
      · rename_i last
        cases taken
        refine ⟨orderly.tracked, orderly.told, fun _ => orderly.quiet before,
          fun isDone => (by cases isDone), ?_, ⟨stored, ⟨outside, isStored.trans last⟩, enqueued⟩,
          orderly.printed, orderly.defined⟩
        show c.params = some (prepared n n)
        rw [block, last]
      · rename_i more
        rw [block, prepare_prepared (by omega)] at taken
        cases taken
        exact ⟨orderly.tracked, orderly.told, fun _ => orderly.quiet before,
          fun isDone => (by cases isDone), rfl, ⟨stored, ⟨outside, by omega, isStored⟩, enqueued⟩,
          orderly.printed, orderly.defined⟩
  | submitting i =>
      simp only [at_main] at taken place
      obtain ⟨outside, inside, isStored⟩ := place
      obtain ⟨pool, submitted, rfl⟩ := Option.map_eq_some_iff.mp taken
      refine orderly.submits (by rw [at_main]; rfl) submitted rfl rfl (by rw [at_main]; rfl) ?_
      obtain ⟨_, core, stepped, rfl⟩ := poolStep_core submitted
      obtain ⟨_, rfl⟩ := step_call stepped
      exact ⟨stored, ⟨inside, rfl, isStored⟩, enqueued⟩
  | calling i =>
      simp only [at_main] at taken
      split at taken
      · rename_i action goesOn
        obtain ⟨pool, submitted, rfl⟩ := Option.map_eq_some_iff.mp taken
        exact orderly.calls at_main goesOn submitted
      · cases taken
  | resting =>
      simp only [at_main] at taken place
      cases taken
      refine ⟨orderly.tracked, orderly.told, fun early => (by cases early),
        fun isDone => (by cases isDone), ?_, ⟨stored, place, enqueued⟩, orderly.printed,
        orderly.defined⟩
      rw [orderly.params, at_main]
      rfl
  | shuttingDown =>
      simp only [at_main] at taken place
      have block : c.params = some (prepared n n) := by
        rw [orderly.params, at_main]
        rfl
      split at taken
      · rename_i returned
        cases taken
        exact ⟨orderly.tracked, orderly.told, fun early => (by cases early), fun _ => returned, rfl,
          ⟨stored, place, enqueued⟩, orderly.printed, orderly.defined⟩
      · obtain ⟨pool, moved, rfl⟩ := Option.map_eq_some_iff.mp taken
        obtain ⟨core, _, record, _⟩ := poolStep_shutdown orderly.tracked.joined moved
        refine ⟨orderly.tracked.step moved, fun j at_join => poolStep_tells moved at_join,
          fun early => ?_, fun isDone => ?_, ?_, ⟨stored, ?_, ?_⟩, ?_, orderly.defined⟩
        · cases early
        · cases isDone
        · exact block
        · show ClientAt.shuttingDown.Place n stored (pool.core.submitters ())
          rw [core]
          exact place
        · exact (congrArg State.enqueued core).trans enqueued
        · show c.printed = pool.record.completed.map _
          rw [record]
          exact orderly.printed
  | done =>
      simp only [at_main] at taken
      cases taken

/-- Every step of `main` or of a worker keeps the order. -/
theorem Orderly.step {action : ClientAction threads} (orderly : Orderly c)
    (taken : clientStep action c = some after) : Orderly after := by
  cases action with
  | main => exact orderly.main taken
  | wait j =>
      obtain ⟨pool, moved, rfl⟩ := Option.map_eq_some_iff.mp taken
      have tracked := orderly.tracked.step moved
      obtain ⟨_, core, stepped, rfl⟩ := poolStep_core moved
      obtain ⟨_, _, rfl⟩ := step_wait stepped
      exact orderly.withPool tracked rfl rfl (fun _ => rfl) rfl rfl orderly.printed
  | dequeue j =>
      obtain ⟨pool, moved, rfl⟩ := Option.map_eq_some_iff.mp taken
      have tracked := orderly.tracked.step moved
      obtain ⟨_, core, stepped, rfl⟩ := poolStep_core moved
      obtain ⟨_, rfl⟩ := step_dequeue stepped
      exact orderly.withPool tracked rfl rfl (fun _ => rfl) rfl rfl orderly.printed
  | execute j =>
      simp only [clientStep] at taken
      split at taken
      · rename_i workToDo at_j
        obtain ⟨pool, moved, rfl⟩ := Option.map_eq_some_iff.mp taken
        have tracked := orderly.tracked.step moved
        have ongoing : c.mainAt ≠ .done := by
          intro isDone
          simp [poolStep, orderly.ended isDone] at moved
        obtain ⟨_, core, stepped, rfl⟩ := poolStep_core moved
        obtain ⟨_, rfl⟩ := step_execute stepped
        rw [Client.print, orderly.prints ongoing at_j]
        refine orderly.withPool tracked rfl rfl (fun _ => rfl) rfl rfl ?_
        simp [Pool.advance, Record.note, at_j, orderly.printed]
      · cases taken
  | exit j =>
      obtain ⟨pool, moved, rfl⟩ := Option.map_eq_some_iff.mp taken
      have tracked := orderly.tracked.step moved
      have told : c.pool.cancelled j = true := by
        by_contra untold
        simp [poolStep, untold] at moved
      obtain ⟨_, _, rfl⟩ := poolStep_exit moved
      refine orderly.withPool tracked rfl rfl (fun before => ?_) rfl rfl orderly.printed
      have untold := ((orderly.quiet before).2 j).1
      rw [told] at untold
      cases untold

theorem ClientReachable.orderly (reachable : ClientReachable c) : Orderly c :=
  reachable.invariant initial_orderly Orderly.step

/-! ## What is printed -/

section Runs

variable {s : State Unit (Fin threads)} {r : Record Unit (Fin threads)}

/-- A completed run is the only one of the task at its place. -/
theorem Executed.of_completed (executed : Executed r s) {k : ℕ} {t : Task}
    (ran : (k, t) ∈ r.completed) : s.dequeued[k]? = some t ∧ r.runsOf k = [(k, t)] := by
  have listed : (k, t) ∈ r.runsOf k := List.mem_filter.mpr ⟨ran, by simp⟩
  have below : k < s.dequeued.length := by
    by_contra beyond
    rw [executed.notYet k (by omega)] at listed
    cases listed
  have place := List.getElem?_eq_getElem below
  generalize s.dequeued[k] = u at place
  rcases executed.taken k u place with only | ⟨j, running, rfl⟩
  · rw [only] at listed
    cases List.mem_singleton.mp listed
    exact ⟨place, only⟩
  · rw [(executed.running running).2] at listed
    cases listed

/-- No task is run twice. -/
theorem Executed.places_nodup (executed : Executed r s) :
    (r.completed.map Prod.fst).Nodup := by
  rw [List.nodup_iff_count_le_one]
  intro k
  have runs : (r.completed.map Prod.fst).count k = (r.runsOf k).length := by
    rw [List.count, List.countP_map, List.countP_eq_length_filter]
    rfl
  rw [runs]
  cases runsOf : r.runsOf k with
  | nil => exact Nat.zero_le 1
  | cons run rest =>
      have listed : run ∈ r.runsOf k := by
        rw [runsOf]
        exact List.mem_cons_self
      obtain ⟨ran, isPlace⟩ := List.mem_filter.mp listed
      obtain ⟨place, t⟩ := run
      have same : place = k := by simpa using isPlace
      subst same
      rw [← runsOf, (executed.of_completed ran).2]
      exact Nat.le_refl 1

end Runs

/-- The places of the tasks that have been run, in the order of their lines. -/
def Client.runPlaces (c : Client n threads) : List ℕ := c.pool.record.completed.map Prod.fst

/-- The task at a place of the queue's history is the one with this number. -/
theorem Orderly.dequeued_eq (orderly : Orderly c) {k : ℕ} {t : Task}
    (place : c.pool.core.dequeued[k]? = some t) :
    t = addTask k ∧ k < n := by
  obtain ⟨stored, isPlace, enqueued⟩ := orderly.place
  have stays : c.pool.core.enqueued[k]? = some t := by
    have isTaken := (List.getElem?_eq_some_iff.mp place).1
    rw [← orderly.tracked.accounted.history, List.getElem?_append_left isTaken]
    exact place
  obtain ⟨below, isTask⟩ := List.getElem?_eq_some_iff.mp (enqueued ▸ stays)
  have length : (tasksBefore stored).length = stored := by simp [tasksBefore]
  have bounds := isPlace.stored_le
  refine ⟨?_, by omega⟩
  rw [← isTask]
  simp [tasksBefore]

/-- The lines are those of the tasks that have been run. -/
theorem Orderly.printed_eq (orderly : Orderly c) : c.printed = c.runPlaces.map lineOf := by
  rw [orderly.printed, Client.runPlaces, List.map_map]
  apply List.map_congr_left
  rintro ⟨k, t⟩ ran
  obtain ⟨rfl, _⟩ := orderly.dequeued_eq (orderly.tracked.executed.of_completed ran).1
  rfl

theorem Orderly.runPlaces_lt (orderly : Orderly c) {k : ℕ} (ran : k ∈ c.runPlaces) : k < n := by
  obtain ⟨⟨place, t⟩, listed, rfl⟩ := List.mem_map.mp ran
  exact (orderly.dequeued_eq (orderly.tracked.executed.of_completed listed).1).2

/-- A task that has been taken has been run, unless a worker is inside it. -/
theorem Orderly.ran_or_running (orderly : Orderly c) {k : ℕ} {t : Task}
    (place : c.pool.core.dequeued[k]? = some t) :
    k ∈ c.runPlaces ∨ ∃ j, c.pool.core.workers j = .executing t := by
  rcases orderly.tracked.executed.taken k t place with only | ⟨j, running, _⟩
  · left
    have listed : (k, t) ∈ c.pool.record.runsOf k := by
      rw [only]
      exact List.mem_singleton_self _
    exact List.mem_map_of_mem (List.mem_filter.mp listed).1
  · exact Or.inr ⟨j, running⟩

/-- A worker runs the task now. -/
def Client.Running (c : Client n threads) (t : Task) : Prop :=
  ∃ j, c.pool.core.workers j = .executing t ∧ c.pool.exited j = false

/-- `pool_shutdown` has been called, and a worker ended inside the task. -/
def Client.Lost (c : Client n threads) (t : Task) : Prop :=
  c.mainAt.beforeShutdown = false ∧
    ∃ j, c.pool.core.workers j = .executing t ∧ c.pool.exited j = true

/-- What holds of the client in every state: the tasks go into the queue in order and once each;
every line belongs to a task of its own, and none is printed twice; a task in the queue's history
is printed, stored or being run, or it is lost; and nothing is read that is not there. -/
structure PrintsOnce (c : Client n threads) : Prop where
  inOrder : ∃ stored ≤ n, c.pool.core.enqueued = tasksBefore stored
  lines : ∃ places : List ℕ, places.Nodup ∧ (∀ i ∈ places, i < n) ∧
    c.printed = places.map lineOf
  kept : ∀ i, addTask i ∈ c.pool.core.enqueued →
    lineOf i ∈ c.printed ∨ addTask i ∈ c.pool.core.globals.queue.contents ∨
      c.Running (addTask i) ∨ c.Lost (addTask i)
  defined : c.undefined = false
  freed : c.params = none → ∀ j, c.pool.exited j = true

/-- Before `pool_shutdown` is called, a worker that is inside a task runs it. -/
theorem Orderly.running_or_lost (orderly : Orderly c) {t : Task}
    (inside : c.pool.core.workers j = .executing t) : c.Running t ∨ c.Lost t := by
  cases ended : c.pool.exited j with
  | false => exact Or.inl ⟨j, inside, ended⟩
  | true =>
      right
      refine ⟨?_, j, inside, ended⟩
      cases before : c.mainAt.beforeShutdown with
      | false => rfl
      | true =>
          rw [((orderly.quiet before).2 j).2] at ended
          cases ended

/-- In every interleaving of `main` with the workers, the client prints the line of each task at
most once, from data that is still there. -/
theorem client_prints_once (reachable : ClientReachable c) : PrintsOnce c := by
  have orderly := reachable.orderly
  obtain ⟨stored, place, enqueued⟩ := orderly.place
  refine ⟨⟨stored, place.stored_le.1.trans place.stored_le.2, enqueued⟩,
    ⟨c.runPlaces, orderly.tracked.executed.places_nodup, fun i => orderly.runPlaces_lt,
      orderly.printed_eq⟩, ?_, orderly.defined, ?_⟩
  · intro i submitted
    rw [← orderly.tracked.accounted.history] at submitted
    rcases List.mem_append.mp submitted with taken | stays
    · obtain ⟨k, isTask⟩ := List.mem_iff_getElem?.mp taken
      have same : i = k := congrArg Task.data (orderly.dequeued_eq isTask).1
      subst same
      rcases orderly.ran_or_running isTask with ran | ⟨j, inside⟩
      · left
        rw [orderly.printed_eq]
        exact List.mem_map_of_mem ran
      · exact Or.inr (Or.inr (orderly.running_or_lost inside))
    · exact Or.inr (Or.inl stays)
  · intro free
    rw [orderly.params] at free
    split at free
    · rename_i isDone
      exact orderly.tracked.allExited (orderly.ended isDone)
    · cases free

/-- The first task is run while the second is being submitted. -/
def busyActions : List (ClientAction numberOfThreads) :=
  [.main, .main, .main, .main, .main, .wait firstWorker, .dequeue firstWorker, .main, .main,
    .main, .main, .execute firstWorker]

theorem client_prints_once_demo :
    ∃ c : Client 2 numberOfThreads, runActions clientStep busyActions .initial = some c ∧
      c.printed = [⟨0, 0, 0⟩] ∧ PrintsOnce c := by
  rcases run : runActions clientStep busyActions
      (Client.initial : Client 2 numberOfThreads) with _ | c
  · cases run
  · refine ⟨c, rfl, ?_, client_prints_once (ReachedFrom.start.run run)⟩
    cases run
    rfl

/-! ## `main` comes to its end -/

/-- No worker has anything to do. -/
structure Idle (c : Client n threads) : Prop where
  waiting : ∀ j, c.pool.core.workers j = .waiting
  unannounced : c.pool.core.globals.taskCnt = 0

def WorkerAt.isExecuting : WorkerAt → Bool
  | .executing _ => true
  | _ => false

/-- What is left for the workers to do with the tasks that have been announced. -/
def Client.work (c : Client n threads) : ℕ :=
  3 * c.pool.core.globals.taskCnt + 2 * threadsAt WorkerAt.isDequeueing c.pool.core.workers +
    threadsAt WorkerAt.isExecuting c.pool.core.workers

/-- The pool is in use: no worker has been told to end. -/
def InUse (s : Pool Unit threads) : Prop :=
  s.shutdownAt = .notCalled ∧ ∀ j, s.exited j = false

theorem poolStep_inUse {s : Pool Unit threads} (inUse : InUse s) :
    poolStep (.core action) s = (step action s.core).map (s.advance action) := by
  obtain ⟨notCalled, running⟩ := inUse
  have allowed : ¬(s.shutdownAt = .returned ∨ ∃ j, action.worker = some j ∧ s.exited j) := by
    rintro (returned | ⟨j, _, exited⟩)
    · rw [notCalled] at returned
      cases returned
    · rw [running j] at exited
      cases exited
  rw [poolStep, if_neg allowed]

theorem Orderly.inUse (orderly : Orderly c) (before : c.mainAt.beforeShutdown = true) :
    InUse c.pool :=
  ⟨(orderly.quiet before).1, fun j => ((orderly.quiet before).2 j).2⟩

/-- `main` stands where it stood. -/
def SameMain (c after : Client n threads) : Prop :=
  after.mainAt = c.mainAt ∧ after.pool.core.submitters = c.pool.core.submitters

theorem clientStep_wait (inUse : InUse c.pool) (at_j : c.pool.core.workers j = .waiting)
    (announced : 0 < c.pool.core.globals.taskCnt) :
    clientStep (.wait j) c =
      some { c with pool := c.pool.advance (.wait j) (c.pool.core.woken j) } := by
  simp [clientStep, poolStep_inUse inUse, step, at_j, announced]

theorem clientStep_dequeue (inUse : InUse c.pool) (at_j : c.pool.core.workers j = .dequeueing) :
    clientStep (.dequeue j) c =
      some { c with pool := c.pool.advance (.dequeue j) (c.pool.core.taken j) } := by
  simp [clientStep, poolStep_inUse inUse, step, at_j]

theorem clientStep_execute (inUse : InUse c.pool) {workToDo : Task}
    (at_j : c.pool.core.workers j = .executing workToDo) :
    clientStep (.execute j) c = some { c.print workToDo with
      pool := c.pool.advance (.execute j) (c.pool.core.moveWorker j .waiting) } := by
  simp [clientStep, poolStep_inUse inUse, step, at_j]

theorem print_mainAt (c : Client n threads) (workToDo : Task) :
    (c.print workToDo).mainAt = c.mainAt := by
  unfold Client.print
  split
  · rfl
  · rfl

/-- While a task is announced or under way, some worker can go on with it. -/
theorem worker_goes_on (workers : 0 < threads) (inUse : InUse c.pool) (busy : ¬Idle c) :
    ∃ (action : ClientAction threads) (after : Client n threads),
      clientStep action c = some after ∧ SameMain c after ∧ after.work < c.work := by
  by_cases allWaiting : ∀ j, c.pool.core.workers j = .waiting
  · have announced : 0 < c.pool.core.globals.taskCnt := by
      by_contra none
      exact busy ⟨allWaiting, by omega⟩
    have at_first := allWaiting ⟨0, workers⟩
    refine ⟨_, _, clientStep_wait inUse at_first announced, ⟨rfl, rfl⟩, ?_⟩
    have dequeueing := threadsAt_update WorkerAt.isDequeueing c.pool.core.workers ⟨0, workers⟩
      .dequeueing
    have executing := threadsAt_update WorkerAt.isExecuting c.pool.core.workers ⟨0, workers⟩
      .dequeueing
    rw [at_first] at dequeueing executing
    simp only [Client.work, Pool.advance, State.woken, State.moveWorker,
      WorkerAt.isDequeueing, WorkerAt.isExecuting, Bool.toNat_false, Bool.toNat_true]
      at dequeueing executing ⊢
    omega
  · obtain ⟨j, working⟩ := not_forall.mp allWaiting
    cases at_j : c.pool.core.workers j with
    | waiting => exact absurd at_j working
    | dequeueing =>
        refine ⟨_, _, clientStep_dequeue inUse at_j, ⟨rfl, rfl⟩, ?_⟩
        have dequeueing := threadsAt_update WorkerAt.isDequeueing c.pool.core.workers j
          (.executing (dequeue c.pool.core.globals).1)
        have executing := threadsAt_update WorkerAt.isExecuting c.pool.core.workers j
          (.executing (dequeue c.pool.core.globals).1)
        rw [at_j] at dequeueing executing
        simp only [Client.work, Pool.advance, State.taken, State.moveWorker, dequeue,
          WorkerAt.isDequeueing, WorkerAt.isExecuting, Bool.toNat_false, Bool.toNat_true]
          at dequeueing executing ⊢
        omega
    | executing workToDo =>
        refine ⟨_, _, clientStep_execute inUse at_j, ⟨print_mainAt c workToDo, rfl⟩, ?_⟩
        have dequeueing := threadsAt_update WorkerAt.isDequeueing c.pool.core.workers j .waiting
        have executing := threadsAt_update WorkerAt.isExecuting c.pool.core.workers j .waiting
        rw [at_j] at dequeueing executing
        simp only [Client.work, Pool.advance, State.moveWorker, WorkerAt.isDequeueing,
          WorkerAt.isExecuting, Bool.toNat_false, Bool.toNat_true] at dequeueing executing ⊢
        omega

/-- The workers, left to themselves, finish what has been announced. -/
theorem leads_to_idle (workers : 0 < threads) (orderly : Orderly c)
    (before : c.mainAt.beforeShutdown = true) :
    ∃ after, LeadsTo clientStep (fun _ => True) c after ∧ (Orderly after ∧ SameMain c after) ∧
      Idle after := by
  apply LeadsTo.of_measure (fun x => Orderly x ∧ SameMain c x) Idle Client.work
  · rintro x ⟨orderlyX, sameAt, sameCall⟩ busy
    have inUse := orderlyX.inUse (sameAt ▸ before)
    obtain ⟨action, after, taken, ⟨keepsAt, keepsCall⟩, less⟩ :=
      worker_goes_on workers inUse busy
    exact ⟨after, .one action trivial taken, ⟨orderlyX.step taken, keepsAt.trans sameAt,
      keepsCall.trans sameCall⟩, less⟩
  · exact ⟨orderly, rfl, rfl⟩

/-- What is left of the loop of `main`; a refused call is made once more. -/
def ClientAt.left (n : ℕ) (call : SubmitterAt) : ClientAt → ℕ
  | .preparing i => 6 * (n - i) + 5
  | .submitting i => 6 * (n - i) + 4
  | .calling i => 6 * (n - i) + match call with
      | .enqueueing _ => 3
      | .posting => 1
      | .returned err => if err = 0 then 0 else 5
      | .outside => 0
  | .resting | .shuttingDown | .done => 0

def Client.left (c : Client n threads) : ℕ := c.mainAt.left n (c.pool.core.submitters ())

/-- A queue whose tasks have all been worked off has room. -/
theorem Idle.room (idle : Idle c) (accounted : Accounted c.pool.core)
    (notPosting : c.pool.core.submitters () ≠ .posting) : c.pool.core.globals.queue.count = 0 := by
  have counted := accounted.counted
  have noWorker : threadsAt WorkerAt.isDequeueing c.pool.core.workers = 0 :=
    threadsAt_eq_zero fun j => by rw [idle.waiting j]; rfl
  have noSubmitter : threadsAt SubmitterAt.isPosting c.pool.core.submitters = 0 := by
    apply threadsAt_eq_zero
    rintro ⟨⟩
    cases call : c.pool.core.submitters () with
    | posting => exact absurd call notPosting
    | outside | enqueueing newTask | returned err => rfl
  have unannounced := idle.unannounced
  omega

/-- While the workers have nothing to do, `main` goes on with its loop. -/
theorem main_goes_on (orderly : Orderly c) (idle : Idle c)
    (before : c.mainAt.beforeShutdown = true) (busy : c.mainAt ≠ .resting) :
    ∃ after, clientStep .main c = some after ∧ after.mainAt.beforeShutdown = true ∧
      after.left < c.left := by
  have inUse := orderly.inUse before
  obtain ⟨stored, place, _⟩ := orderly.place
  cases at_main : c.mainAt with
  | preparing i =>
      rw [at_main] at place
      by_cases last : i = n
      · refine ⟨{ c with mainAt := .resting }, ?_, rfl, ?_⟩
        · simp [clientStep, clientMain, at_main, last]
        · simp [Client.left, at_main, ClientAt.left]
      · have inside := place.2.1
        have block : c.params = some (prepared n i) := by
          rw [orderly.params, at_main]
          rfl
        refine ⟨{ c with params := some (prepared n (i + 1)), mainAt := .submitting i }, ?_, rfl,
          ?_⟩
        · simp [clientStep, clientMain, at_main, last, block, prepare_prepared (by omega : i < n)]
        · simp [Client.left, at_main, ClientAt.left]
  | submitting i =>
      rw [at_main] at place
      refine ⟨{ c with
        pool := c.pool.advance (.call () (addTask i))
          (c.pool.core.moveSubmitter () (.enqueueing (addTask i)))
        mainAt := .calling i }, ?_, rfl, ?_⟩
      · simp [clientStep, clientMain, at_main, poolStep_inUse inUse, OsProjects.ThreadPool.step,
          place.1]
      · simp [Client.left, at_main, ClientAt.left, Pool.advance, State.moveSubmitter]
  | calling i =>
      rw [at_main] at place
      obtain ⟨inside, called⟩ := place
      cases call : c.pool.core.submitters () with
      | outside =>
          rw [call] at called
          exact called.elim
      | enqueueing newTask =>
          have room : c.pool.core.globals.queue.count ≠ queueSize := by
            rw [idle.room orderly.tracked.accounted (by rw [call]; simp)]
            decide
          refine ⟨{ c with
            pool := c.pool.advance (.enqueue ()) (c.pool.core.stored () newTask)
            mainAt := .calling i }, ?_, rfl, ?_⟩
          · simp [clientStep, clientMain, at_main, call, submitAction, afterCall,
              poolStep_inUse inUse, OsProjects.ThreadPool.step, (enqueue_room room).1]
          · simp [Client.left, at_main, call, ClientAt.left, Pool.advance, State.stored,
              State.moveSubmitter]
      | posting =>
          refine ⟨{ c with
            pool := c.pool.advance (.post ()) (c.pool.core.posted ())
            mainAt := .calling i }, ?_, rfl, ?_⟩
          · simp [clientStep, clientMain, at_main, call, submitAction, afterCall,
              poolStep_inUse inUse, OsProjects.ThreadPool.step]
          · simp [Client.left, at_main, call, ClientAt.left, Pool.advance, State.posted,
              State.moveSubmitter]
      | returned err =>
          refine ⟨{ c with
            pool := c.pool.advance (.leave ()) (c.pool.core.moveSubmitter () .outside)
            mainAt := afterCall i (.returned err) }, ?_, ?_, ?_⟩
          · simp [clientStep, clientMain, at_main, call, submitAction, poolStep_inUse inUse,
              OsProjects.ThreadPool.step]
          · by_cases success : err = 0 <;> simp [afterCall, success, ClientAt.beforeShutdown]
          · by_cases success : err = 0
            · simp only [Client.left, at_main, call, afterCall, success, ClientAt.left, if_true,
                ne_eq, not_true_eq_false, if_false]
              omega
            · simp [Client.left, at_main, call, afterCall, success, ClientAt.left]
  | resting => exact absurd at_main busy
  | shuttingDown | done =>
      rw [at_main] at before
      cases before

/-- `main` gets to its rest, and the workers have nothing left to do: a full queue is worked off
while `main` waits for room. -/
theorem leads_to_rest (workers : 0 < threads) (orderly : Orderly c)
    (before : c.mainAt.beforeShutdown = true) :
    ∃ after, LeadsTo clientStep (fun _ => True) c after ∧
      (Orderly after ∧ after.mainAt = .resting) ∧ Idle after := by
  have lowers : ∀ x : Client n threads, Orderly x ∧ x.mainAt.beforeShutdown = true →
      ¬x.mainAt = .resting → ∃ after, LeadsTo clientStep (fun _ => True) x after ∧
        (Orderly after ∧ after.mainAt.beforeShutdown = true) ∧ after.left < x.left := by
    rintro x ⟨orderlyX, beforeX⟩ busy
    obtain ⟨y, works, ⟨orderlyY, sameAt, sameCall⟩, idle⟩ := leads_to_idle workers orderlyX beforeX
    have sameLeft : y.left = x.left := by rw [Client.left, sameAt, sameCall, Client.left]
    obtain ⟨after, taken, stays, less⟩ :=
      main_goes_on orderlyY idle (sameAt ▸ beforeX) (sameAt ▸ busy)
    exact ⟨after, works.tail ⟨.main, trivial, taken⟩, ⟨orderlyY.step taken, stays⟩,
      sameLeft ▸ less⟩
  obtain ⟨middle, leads, ⟨orderlyMiddle, _⟩, resting⟩ := LeadsTo.of_measure
    (fun x : Client n threads => Orderly x ∧ x.mainAt.beforeShutdown = true)
    (fun x => x.mainAt = .resting) Client.left lowers ⟨orderly, before⟩
  obtain ⟨after, leadsOn, ⟨orderlyAfter, sameAt, _⟩, idle⟩ :=
    leads_to_idle workers orderlyMiddle (by rw [resting]; rfl)
  exact ⟨after, leads.trans leadsOn, ⟨orderlyAfter, sameAt.trans resting⟩, idle⟩

/-- With all tasks submitted and nothing left for the workers, every line is printed. -/
theorem Orderly.printed_all (orderly : Orderly c) (resting : c.mainAt = .resting)
    (idle : Idle c) : c.printed.Perm ((List.range n).map lineOf) := by
  obtain ⟨stored, place, enqueued⟩ := orderly.place
  rw [resting] at place
  obtain ⟨outside, isStored⟩ := place
  rw [isStored] at enqueued
  have empty : c.pool.core.globals.queue.contents = [] := by
    apply List.eq_nil_of_length_eq_zero
    rw [Ring.length_contents]
    exact idle.room orderly.tracked.accounted (by rw [outside]; simp)
  have history := orderly.tracked.accounted.history
  rw [empty, List.append_nil, enqueued] at history
  rw [orderly.printed_eq]
  apply List.Perm.map
  have nodup : c.runPlaces.Nodup := orderly.tracked.executed.places_nodup
  rw [List.perm_ext_iff_of_nodup nodup List.nodup_range]
  intro k
  rw [List.mem_range]
  constructor
  · exact orderly.runPlaces_lt
  · intro below
    have isTaken : c.pool.core.dequeued[k]? = some (addTask k) := by
      rw [history]
      simp [tasksBefore, below]
    rcases orderly.ran_or_running isTaken with ran | ⟨j, running⟩
    · exact ran
    · rw [idle.waiting j] at running
      cases running

/-- What is left for `pool_shutdown` to do. -/
def ShutdownAt.left : ShutdownAt threads → ℕ
  | .notCalled => 2 * threads + 2
  | .cancelling i => 2 * (threads - i) + 1
  | .joining i => 2 * (threads - i)
  | .returned => 0

theorem clientStep_shutdown (shutting : c.mainAt = .shuttingDown)
    (running : c.pool.shutdownAt ≠ .returned) {pool : Pool Unit threads}
    (taken : poolStep .shutdown c.pool = some pool) :
    clientStep .main c = some { c with pool } := by
  simp [clientStep, clientMain, shutting, running, taken]

/-- The worker that `pool_shutdown` waits for can leave. -/
theorem leads_to_exit (orderly : Orderly c) (at_join : c.pool.shutdownAt = .joining j) :
    ∃ after, LeadsTo clientStep (fun _ => True) c after ∧ after.mainAt = c.mainAt ∧
      after.pool.shutdownAt = c.pool.shutdownAt ∧ after.pool.exited j = true := by
  have told := orderly.told j at_join
  have leaves : ∀ x : Client n threads, x.pool.cancelled j = true → x.pool.exited j = false →
      (x.pool.core.workers j = .waiting ∨ ∃ t, x.pool.core.workers j = .executing t) →
      clientStep (.exit j) x = some { x with
        pool := { x.pool with exited := Function.update x.pool.exited j true } } := by
    intro x told running at_j
    rcases at_j with waiting | ⟨t, executing⟩
    · simp [clientStep, poolStep, told, running, waiting]
    · simp [clientStep, poolStep, told, running, executing]
  cases running : c.pool.exited j with
  | true => exact ⟨c, .refl, rfl, rfl, running⟩
  | false =>
      cases at_j : c.pool.core.workers j with
      | waiting =>
          exact ⟨_, .one (.exit j) trivial (leaves c told running (Or.inl at_j)), rfl, rfl,
            Function.update_self _ _ _⟩
      | executing t =>
          exact ⟨_, .one (.exit j) trivial (leaves c told running (Or.inr ⟨t, at_j⟩)), rfl, rfl,
            Function.update_self _ _ _⟩
      | dequeueing =>
          have takes : clientStep (.dequeue j) c =
              some { c with pool := c.pool.advance (.dequeue j) (c.pool.core.taken j) } := by
            simp [clientStep, poolStep, at_join, Action.worker, running, step, at_j]
          have leavesTask := leaves
            { c with pool := c.pool.advance (.dequeue j) (c.pool.core.taken j) } told running
            (Or.inr ⟨_, Function.update_self _ _ _⟩)
          refine ⟨_, (LeadsTo.one (.dequeue j) trivial takes).tail ⟨.exit j, trivial, leavesTask⟩,
            rfl, rfl, Function.update_self _ _ _⟩

/-- `pool_shutdown` only waits for workers to leave. -/
theorem shutdown_goes_on {s : Pool Unit threads} (busy : s.shutdownAt ≠ .returned)
    (joins : ∀ j, s.shutdownAt = .joining j → s.exited j = true) :
    ∃ after, poolStep .shutdown s = some after ∧ after.shutdownAt.left < s.shutdownAt.left := by
  cases at_shutdown : s.shutdownAt with
  | notCalled =>
      refine ⟨{ s with shutdownAt := .cancelling 0 }, ?_, ?_⟩
      · simp [poolStep, at_shutdown]
      · simp [ShutdownAt.left]
  | cancelling i =>
      by_cases below : i < threads
      · refine ⟨{ s with
          shutdownAt := .joining ⟨i, below⟩
          cancelled := Function.update s.cancelled ⟨i, below⟩ true }, ?_, ?_⟩
        · simp [poolStep, at_shutdown, below]
        · simp [ShutdownAt.left]
      · refine ⟨{ s with shutdownAt := .returned }, ?_, ?_⟩
        · simp [poolStep, at_shutdown, below]
        · simp [ShutdownAt.left]
  | joining i =>
      have below := i.isLt
      refine ⟨{ s with shutdownAt := .cancelling (i + 1) }, ?_, ?_⟩
      · simp [poolStep, at_shutdown, joins i at_shutdown]
      · simp only [ShutdownAt.left]
        omega
  | returned => exact absurd at_shutdown busy

/-- `pool_shutdown` returns. -/
theorem leads_to_returned (orderly : Orderly c) (shutting : c.mainAt = .shuttingDown) :
    ∃ after, LeadsTo clientStep (fun _ => True) c after ∧
      (Orderly after ∧ after.mainAt = .shuttingDown) ∧ after.pool.shutdownAt = .returned := by
  apply LeadsTo.of_measure
    (fun x : Client n threads => Orderly x ∧ x.mainAt = .shuttingDown)
    (fun x => x.pool.shutdownAt = .returned) (fun x => x.pool.shutdownAt.left)
  · rintro x ⟨orderlyX, shuttingX⟩ busy
    have ready : ∃ y, LeadsTo clientStep (fun _ => True) x y ∧ y.mainAt = x.mainAt ∧
        y.pool.shutdownAt = x.pool.shutdownAt ∧
        ∀ j, y.pool.shutdownAt = .joining j → y.pool.exited j = true := by
      by_cases joining : ∃ j, x.pool.shutdownAt = .joining j
      · obtain ⟨j, at_join⟩ := joining
        obtain ⟨y, leads, sameAt, sameShutdown, exited⟩ := leads_to_exit orderlyX at_join
        refine ⟨y, leads, sameAt, sameShutdown, fun l at_l => ?_⟩
        rw [sameShutdown, at_join] at at_l
        cases at_l
        exact exited
      · exact ⟨x, .refl, rfl, rfl, fun j at_join => absurd ⟨j, at_join⟩ joining⟩
    obtain ⟨y, leads, sameAt, sameShutdown, joins⟩ := ready
    obtain ⟨pool, taken, less⟩ := shutdown_goes_on (sameShutdown ▸ busy) joins
    have moves := clientStep_shutdown (sameAt.trans shuttingX) (sameShutdown ▸ busy) taken
    have reaches : LeadsTo clientStep (fun _ => True) x { y with pool } :=
      leads.tail ⟨.main, trivial, moves⟩
    refine ⟨_, reaches, ⟨?_, sameAt.trans shuttingX⟩, ?_⟩
    · exact LeadsTo.invariant Orderly (fun kept _ taken => kept.step taken) reaches orderlyX
    · rw [← sameShutdown]
      exact less
  · exact ⟨orderly, shutting⟩

/-- From every state, `main` can come to its end: the busy loop around `pool_submit` ends as soon
as the workers make room, and no `pthread_join` waits for ever. Before `pool_shutdown` is called,
it can do so after all lines have been printed, once each. -/
theorem client_can_finish (reachable : ClientReachable c) (workers : 0 < threads) :
    (∃ after, LeadsTo clientStep (fun _ => True) c after ∧ after.mainAt = .done) ∧
      (c.mainAt.beforeShutdown = true →
        ∃ after, LeadsTo clientStep (fun _ => True) c after ∧ after.mainAt = .resting ∧
          after.printed.Perm ((List.range n).map lineOf)) := by
  have orderly := reachable.orderly
  have fromShutdown : ∀ x : Client n threads, Orderly x → x.mainAt = .shuttingDown →
      ∃ after, LeadsTo clientStep (fun _ => True) x after ∧ after.mainAt = .done := by
    intro x orderlyX shutting
    obtain ⟨y, leads, ⟨_, shuttingY⟩, returned⟩ := leads_to_returned orderlyX shutting
    have frees : clientStep .main y = some { y with params := none, mainAt := .done } := by
      simp [clientStep, clientMain, shuttingY, returned]
    exact ⟨_, leads.tail ⟨.main, trivial, frees⟩, rfl⟩
  constructor
  · by_cases before : c.mainAt.beforeShutdown = true
    · obtain ⟨y, leads, ⟨orderlyY, resting⟩, _⟩ := leads_to_rest workers orderly before
      have ends : clientStep .main y = some { y with mainAt := .shuttingDown } := by
        simp [clientStep, clientMain, resting]
      obtain ⟨after, leadsOn, done⟩ := fromShutdown _ (orderlyY.step ends) rfl
      exact ⟨after, (leads.tail ⟨.main, trivial, ends⟩).trans leadsOn, done⟩
    · cases at_main : c.mainAt with
      | shuttingDown => exact fromShutdown c orderly at_main
      | done => exact ⟨c, .refl, at_main⟩
      | preparing i | submitting i | calling i | resting =>
          rw [at_main] at before
          exact absurd rfl before
  · intro before
    obtain ⟨after, leads, ⟨orderlyAfter, resting⟩, idle⟩ := leads_to_rest workers orderly before
    exact ⟨after, leads, resting, orderlyAfter.printed_all resting idle⟩

/-- Ten tasks fill the queue while no worker takes one, and the call with the next is refused. -/
def refusedActions : List (ClientAction numberOfThreads) :=
  (List.replicate 10 (List.replicate 5 ClientAction.main)).flatten ++ List.replicate 4 .main

theorem client_can_finish_demo :
    ∃ c : Client 11 numberOfThreads, runActions clientStep refusedActions .initial = some c ∧
      c.mainAt = .submitting 10 ∧ ∃ after, LeadsTo clientStep (fun _ => True) c after ∧
        after.mainAt = .resting ∧ after.printed.Perm ((List.range 11).map lineOf) := by
  have ends : (runActions clientStep refusedActions
      (Client.initial : Client 11 numberOfThreads)).map (·.mainAt) = some (.submitting 10) := by
    decide
  obtain ⟨c, run, isAt⟩ := Option.map_eq_some_iff.mp ends
  refine ⟨c, run, isAt, (client_can_finish (ReachedFrom.start.run run) (by decide)).2 ?_⟩
  rw [isAt]
  rfl

end OsProjects.ThreadPool
