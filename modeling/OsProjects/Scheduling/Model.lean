import OsProjects.C.Array
import OsProjects.C.Heap

/-!
Owns the five schedulers of Project 4, with the list of tasks in `list.c` and `run`.

A task and a node are never freed. The names of tasks are strings and `strcmp` tells
whether they are equal. `remaining_burst` never drops below zero when a burst is not
negative, and `remaining_burst - slice` cannot overflow for any burst, since a slice is
`QUANTUM` only where more than that remains.

`log` records the calls of `run`, and which task's node `delete` unlinks. No function
reads it.

Does not own the parsing of the task file.
-/

namespace OsProjects.Scheduling

open OsProjects.C

/-- `QUANTUM` -/
def quantum : Int := 10

/-- `MIN_PRIORITY` -/
def minPriority : ℕ := 1

/-- `MAX_PRIORITY` -/
def maxPriority : ℕ := 10

/-- `Task`, without the `tid` that nothing uses. -/
structure Task where
  name : String
  priority : Int
  burst : Int
  remainingBurst : Int
deriving DecidableEq, Repr

/-- `struct node` -/
structure Node where
  task : Pointer
  next : Pointer
deriving DecidableEq, Repr

/-- What the log records. -/
inductive Event where
  | run (task : Pointer) (slice : Int)
  | unlink (task : Pointer)
deriving DecidableEq, Repr

/-- The heap, and the log. -/
structure Memory where
  nodes : Heap Node
  tasks : Heap Task
  log : List Event

def Memory.initial : Memory := ⟨.empty, .empty, []⟩

def Memory.record (m : Memory) (event : Event) : Memory :=
  { m with log := m.log ++ [event] }

/-- The arguments of `add`. -/
structure NewTask where
  name : String
  priority : Int
  burst : Int
deriving DecidableEq, Repr

/-! ## `list.c` and `run` -/

/-- `insert`, with the new head of the list. -/
def insert (head newTask : Pointer) (m : Memory) : Pointer × Memory :=
  let (newNode, nodes) := m.nodes.malloc ⟨newTask, head⟩
  (newNode, { m with nodes })

/-- One iteration of the search in `delete` for a node whose task has the name. -/
def deleteBody (name : String) (m : Memory) (place : Pointer × Pointer) :
    Outcome (LoopStep (Pointer × Pointer) (Pointer × Pointer)) := do
  let (_, temp) := place
  let node ← m.nodes.load temp
  if (← m.tasks.load node.task).name = name then
    pure (.exit place)
  else
    pure (.next (temp, node.next))

/-- `delete`, with the new head of the list. -/
def delete (head task : Pointer) (m : Memory) : Outcome (Pointer × Memory) := do
  let name := (← m.tasks.load task).name
  let first ← m.nodes.load head
  if (← m.tasks.load first.task).name = name then
    pure (first.next, m.record (.unlink first.task))
  else
    let last ← whileLoop (fun _ => true) (deleteBody name m) m.nodes.fresh (head, first.next)
    let (prev, temp) := last.state
    let unlinked ← m.nodes.load temp
    let nodes ← m.nodes.assign prev fun node => { node with next := unlinked.next }
    pure (head, { m with nodes }.record (.unlink unlinked.task))

/-- `run` prints fields of the task. -/
def run (task : Pointer) (slice : Int) (m : Memory) : Outcome Memory := do
  let _ ← m.tasks.load task
  pure (m.record (.run task slice))

/-- The body of `add`, with the value it assigns to `remaining_burst`. -/
def addTo (taskList : Pointer) (new : NewTask) (remaining : Int) (m : Memory) :
    Pointer × Memory :=
  let (t, tasks) := m.tasks.malloc ⟨new.name, new.priority, new.burst, remaining⟩
  insert taskList t { m with tasks }

/-! ## First come first served, shortest job first, priority -/

/-- `taskList` and the memory. -/
structure State where
  taskList : Pointer
  memory : Memory

def State.initial : State := ⟨none, .initial⟩

/-- `add` of the three programs; nothing reads `remaining_burst`, which it leaves
unassigned. -/
def add (s : State) (new : NewTask) : State :=
  let (taskList, memory) := addTo s.taskList new 0 s.memory
  ⟨taskList, memory⟩

/-- One iteration of `schedule`. -/
def scheduleBody (pickNextTask : State → Outcome Pointer) (s : State) :
    Outcome (LoopStep State State) := do
  let t ← pickNextTask s
  let task ← s.memory.tasks.load t
  let memory ← run t task.burst s.memory
  let (taskList, memory) ← delete s.taskList t memory
  pure (.next ⟨taskList, memory⟩)

/-- `schedule`, for at most `fuel` iterations. -/
def scheduleWith (pickNextTask : State → Outcome Pointer) (fuel : ℕ) (s : State) :
    Outcome State := do
  let last ← whileLoop (fun s => s.taskList.isSome) (scheduleBody pickNextTask) fuel s
  pure last.state

namespace Fcfs

/-- One iteration of the search for the last node. -/
def lastBody (m : Memory) (lastNode : Pointer) : Outcome (LoopStep Pointer Pointer) := do
  let node ← m.nodes.load lastNode
  if node.next = none then
    pure (.exit lastNode)
  else
    pure (.next node.next)

def pickNextTask (s : State) : Outcome Pointer := do
  let last ← whileLoop (fun _ => true) (lastBody s.memory) s.memory.nodes.fresh s.taskList
  let node ← s.memory.nodes.load last.state
  pure node.task

def schedule : ℕ → State → Outcome State := scheduleWith pickNextTask

end Fcfs

/-- One iteration of the search for the best task: a task takes the place of the best
so far when it `replaces` it. -/
def bestBody (replaces : Task → Task → Bool) (m : Memory) (place : Pointer × Pointer) :
    Outcome (LoopStep (Pointer × Pointer) (Pointer × Pointer)) := do
  let (best, n) := place
  let node ← m.nodes.load n
  let task ← m.tasks.load node.task
  if replaces task (← m.tasks.load best) then
    pure (.next (node.task, node.next))
  else
    pure (.next (best, node.next))

def pickBest (replaces : Task → Task → Bool) (s : State) : Outcome Pointer := do
  let first ← s.memory.nodes.load s.taskList
  let last ← whileLoop (fun (place : Pointer × Pointer) => place.2.isSome)
    (bestBody replaces s.memory) s.memory.nodes.fresh (first.task, s.taskList)
  pure last.state.1

namespace Sjf

def pickNextTask : State → Outcome Pointer :=
  pickBest fun task shortestJob => task.burst ≤ shortestJob.burst

def schedule : ℕ → State → Outcome State := scheduleWith pickNextTask

end Sjf

namespace Priority

def pickNextTask : State → Outcome Pointer :=
  pickBest fun task highestPriorityJob => task.priority ≥ highestPriorityJob.priority

def schedule : ℕ → State → Outcome State := scheduleWith pickNextTask

end Priority

/-! ## Round robin -/

/-- A list of tasks that is served in turn, `next_node`, and the memory. -/
structure Turns where
  taskList : Pointer
  nextNode : Pointer
  memory : Memory

/-- `pickNextTask` of both round-robin programs: the next task, and `next_node`
afterwards. -/
def pickTurn (s : Turns) : Outcome (Pointer × Pointer) := do
  let node ← s.memory.nodes.load s.nextNode
  pure (node.task, if node.next.isSome then node.next else s.taskList)

/-- One iteration of the loop `while(taskList)` in `schedule`. -/
def turnBody (s : Turns) : Outcome (LoopStep Turns Turns) := do
  let (t, nextNode) ← pickTurn s
  let task ← s.memory.tasks.load t
  let slice := if quantum < task.remainingBurst then quantum else task.remainingBurst
  let memory ← run t slice s.memory
  let tasks ← memory.tasks.assign t fun task =>
    { task with remainingBurst := task.remainingBurst - slice }
  let memory := { memory with tasks }
  let task ← memory.tasks.load t
  if task.remainingBurst = 0 then
    let (taskList, memory) ← delete s.taskList t memory
    pure (.next ⟨taskList, nextNode, memory⟩)
  else
    pure (.next ⟨s.taskList, nextNode, memory⟩)

/-- `next_node = taskList; while(taskList) ...`, for at most `fuel` iterations. -/
def takeTurns (fuel : ℕ) (taskList : Pointer) (m : Memory) : Outcome Turns := do
  let last ← whileLoop (fun s => s.taskList.isSome) turnBody fuel ⟨taskList, taskList, m⟩
  pure last.state

namespace RoundRobin

def initial : Turns := ⟨none, none, .initial⟩

def add (s : Turns) (new : NewTask) : Turns :=
  let (taskList, memory) := addTo s.taskList new new.burst s.memory
  { s with taskList, memory }

def schedule (fuel : ℕ) (s : Turns) : Outcome Turns :=
  takeTurns fuel s.taskList s.memory

end RoundRobin

namespace PriorityRoundRobin

/-- The global variables. -/
structure Levels where
  taskList : Fin (maxPriority + 1) → Pointer
  nextNode : Pointer
  memory : Memory

def initial : Levels := ⟨fun _ => none, none, .initial⟩

def add (s : Levels) (new : NewTask) : Outcome Levels := do
  let (head, memory) := addTo (← read s.taskList new.priority) new new.burst s.memory
  let taskList ← write s.taskList new.priority head
  pure { s with taskList, memory }

/-- One iteration of the loop over the priorities. -/
def levelBody (fuel : ℕ) (place : ℕ × Levels) : Outcome (LoopStep Levels (ℕ × Levels)) := do
  let (p, s) := place
  let level ← takeTurns fuel (← read s.taskList p) s.memory
  let taskList ← write s.taskList p level.taskList
  pure (.next (p - 1, ⟨taskList, level.nextNode, level.memory⟩))

/-- `schedule`, for at most `fuel` turns on each level. -/
def schedule (fuel : ℕ) (s : Levels) : Outcome Levels := do
  match ← whileLoop (fun (place : ℕ × Levels) => minPriority ≤ place.1) (levelBody fuel)
    maxPriority (maxPriority, s) with
  | .next (_, s) => pure s
  | .exit s => pure s

end PriorityRoundRobin

end OsProjects.Scheduling
