import OsProjects.C.Iteration
import OsProjects.Scheduling.TaskList
import OsProjects.Theory.Selection

/-!
Owns the three schedulers that run a task to its end: what they pick, and when they run
every task once.

All three pick the last of the best tasks in the list and then delete the first task
with its name. Where that is another task, it is never run, and the one picked is run
again.

Does not own the round-robin schedulers.
-/

namespace OsProjects.Scheduling

open OsProjects.C
open OsProjects.Theory

variable {m : Memory} {first e : Entry} {entries front rest : List Entry}
variable {replaces : Task → Task → Bool}

/-- Entries compare as their tasks. -/
def onEntries (replaces : Task → Task → Bool) (d e : Entry) : Bool :=
  replaces d.content e.content

theorem ranks_onEntries (ranks : Ranks replaces) : Ranks (onEntries replaces) :=
  ⟨fun d e => ranks.total d.content e.content,
    fun c d e => ranks.trans c.content d.content e.content⟩

/-- `pickNextTask` picks the last of the best tasks. -/
def Picks (pickNextTask : State → Outcome Pointer) (replaces : Task → Task → Bool) : Prop :=
  ∀ {m first rest}, Represents m (first :: rest) →
    pickNextTask ⟨firstNode (first :: rest), m⟩ =
      .ok (some (pickLast (onEntries replaces) first rest).task)

/-! ## What the three programs pick -/

theorem lastLoop_eq (fuel : ℕ) (front : List Entry) (represents : Represents m (front ++ e :: rest))
    (enough : rest.length < fuel) :
    whileLoop (fun _ => true) (Fcfs.lastBody m) fuel (some e.node) =
      .ok (.exit (some (pickLast (onEntries fun _ _ => true) e rest).node)) := by
  induction rest generalizing e front fuel with
  | nil =>
      rcases fuel with _ | fuel
      · exact absurd enough (Nat.not_lt_zero _)
      · simp only [whileLoop, if_true, Fcfs.lastBody, represents.load_node, ok_bind, firstNode_nil,
          pure_eq_ok, pickLast]
  | cons next rest inductionHypothesis =>
      rcases fuel with _ | fuel
      · exact absurd enough (Nat.not_lt_zero _)
      · simp only [whileLoop, if_true, Fcfs.lastBody, represents.load_node, ok_bind,
          firstNode_cons, reduceCtorEq, if_false, pure_eq_ok, pickLast, onEntries]
        exact inductionHypothesis fuel (front ++ [e]) (by simpa using represents)
          (by simpa using enough)

theorem ranks_always : Ranks fun _ _ : Task => true :=
  ⟨fun _ _ => .inl rfl, fun _ _ _ _ _ => rfl⟩

theorem Fcfs.picks : Picks pickNextTask fun _ _ => true := by
  intro m first rest represents
  have length : rest.length < m.nodes.fresh := represents.length_le
  have search := lastLoop_eq m.nodes.fresh [] represents length
  have member : pickLast (onEntries fun _ _ => true) first rest ∈ first :: rest :=
    pickLast_mem (ranks_onEntries ranks_always) first rest
  rcases List.append_of_mem member with ⟨pre, post, split⟩
  rw [split] at represents
  unfold Fcfs.pickNextTask
  simp only [firstNode_cons, search, ok_bind, LoopStep.state, represents.load_node, pure_eq_ok]

theorem bestLoop_eq (replaces : Task → Task → Bool) (fuel : ℕ) (front : List Entry) (best : Entry)
    (represents : Represents m (front ++ rest))
    (member : best ∈ front ++ rest) (enough : rest.length ≤ fuel) :
    whileLoop (fun (place : Pointer × Pointer) => place.2.isSome) (bestBody replaces m) fuel
        (some best.task, firstNode rest) =
      .ok (.next (some (pickLast (onEntries replaces) best rest).task, none)) := by
  induction rest generalizing best front fuel with
  | nil =>
      rcases fuel with _ | fuel
      · rfl
      · rfl
  | cons next rest inductionHypothesis =>
      rcases fuel with _ | fuel
      · exact absurd enough (Nat.not_succ_le_zero _)
      · have nextTask : m.tasks.load (some next.task) = .ok next.content :=
          represents.load_task (by simp)
        have bestTask := represents.load_task member
        have later : Represents m ((front ++ [next]) ++ rest) := by simpa using represents
        simp only [whileLoop, firstNode_cons, Option.isSome_some, if_true, bestBody,
          represents.load_node, ok_bind, nextTask, bestTask]
        by_cases replaced : replaces next.content best.content = true
        · have picked : pickLast (onEntries replaces) best (next :: rest) =
              pickLast (onEntries replaces) next rest :=
            congrArg (pickLast _ · rest) (if_pos replaced)
          simp only [if_pos replaced, pure_eq_ok, ok_bind, picked]
          exact inductionHypothesis fuel (front ++ [next]) next later (by simp)
            (Nat.le_of_succ_le_succ enough)
        · have picked : pickLast (onEntries replaces) best (next :: rest) =
              pickLast (onEntries replaces) best rest :=
            congrArg (pickLast _ · rest) (if_neg replaced)
          simp only [if_neg replaced, pure_eq_ok, ok_bind, picked]
          exact inductionHypothesis fuel (front ++ [next]) best later (by simpa using member)
            (Nat.le_of_succ_le_succ enough)

theorem pickBest_picks (replaces : Task → Task → Bool) : Picks (pickBest replaces) replaces := by
  intro m first rest represents
  have search := bestLoop_eq replaces m.nodes.fresh [] first represents List.mem_cons_self
    represents.length_le
  have again : pickLast (onEntries replaces) first (first :: rest) =
      pickLast (onEntries replaces) first rest := by
    simp only [pickLast, ite_self]
  rw [again] at search
  unfold pickBest
  simp only [firstNode_cons, represents.load_head, ok_bind] at search ⊢
  rw [search]
  rfl

/-! ## The loop of `schedule` -/

/-- The call of `run` for the task. -/
def Entry.call (e : Entry) : Pointer × Int := (some e.task, e.content.burst)

/-- One iteration runs the task picked and unlinks the first entry with its name. -/
theorem scheduleBody_eq {pickNextTask : State → Outcome Pointer} (ranks : Ranks replaces)
    (picks : Picks pickNextTask replaces) (represents : Represents m (first :: rest)) :
    ∃ after, scheduleBody pickNextTask ⟨firstNode (first :: rest), m⟩ =
        .ok (.next ⟨firstNode ((first :: rest).eraseP fun e =>
          e.name = (pickLast (onEntries replaces) first rest).name), after⟩) ∧
      Represents after ((first :: rest).eraseP fun e =>
        e.name = (pickLast (onEntries replaces) first rest).name) ∧
      calls after.log = calls m.log ++ [(pickLast (onEntries replaces) first rest).call] := by
  have picked := picks represents
  have member := pickLast_mem (ranks_onEntries ranks) first rest
  revert picked member
  generalize pickLast (onEntries replaces) first rest = p
  intro picked member
  let sameAs : Entry → Bool := fun e => e.name = p.name
  have matching : sameAs p = true := decide_eq_true rfl
  rcases List.exists_of_eraseP (p := sameAs) member matching with
    ⟨removed, front, back, others, sameName, whole, erased⟩
  have task : m.tasks.load (some p.task) = .ok p.content := represents.load_task member
  have ran : run (some p.task) p.content.burst m =
      .ok (m.record (.run (some p.task) p.content.burst)) := by
    simp only [run, task, ok_bind, pure_eq_ok]
  have recorded := represents.record (.run (some p.task) p.content.burst)
  rw [whole] at recorded
  rcases recorded.delete task (of_decide_eq_true sameName)
    (fun e inFront same => others e inFront (decide_eq_true same)) with
    ⟨after, deleted, unlinks⟩
  have list : (first :: rest).eraseP (fun e => e.name = p.name) = front ++ back := erased
  rw [list]
  refine ⟨after, ?_, unlinks.represents, ?_⟩
  · unfold scheduleBody
    rw [picked, ok_bind]
    simp only [task, ran, ok_bind]
    rw [whole, deleted]
    rfl
  · rw [unlinks.log, calls_append]
    show calls (m.log ++ [_]) ++ [] = _
    rw [List.append_nil, calls_append]
    rfl

/-- `schedule` ends, and runs what is selected from the list. -/
theorem schedule_serves {pickNextTask : State → Outcome Pointer} (ranks : Ranks replaces)
    (picks : Picks pickNextTask replaces) (represents : Represents m entries) :
    ∃ order final, Serves Entry.name (onEntries replaces) entries order ∧
      Ends (fun fuel => scheduleWith pickNextTask fuel ⟨firstNode entries, m⟩) final ∧
      calls final.memory.log = calls m.log ++ order.map Entry.call := by
  have reaches : ∀ n (entries : List Entry) m, entries.length = n → Represents m entries →
      ∃ order after, Serves Entry.name (onEntries replaces) entries order ∧
        Reaches (fun s => s.taskList.isSome) (scheduleBody pickNextTask)
          ⟨firstNode entries, m⟩ ⟨none, after⟩ ∧
        calls after.log = calls m.log ++ order.map Entry.call := by
    intro n
    induction n with
    | zero =>
        intro entries m length represents
        have isNil := List.eq_nil_of_length_eq_zero length
        subst isNil
        exact ⟨[], m, .nil, .refl, (List.append_nil _).symm⟩
    | succ n inductionHypothesis =>
        intro entries m length represents
        cases entries with
        | nil => cases length
        | cons first rest =>
            rcases scheduleBody_eq ranks picks represents with ⟨after, step, remains, called⟩
            have member := pickLast_mem (ranks_onEntries ranks) first rest
            have shorter : ((first :: rest).eraseP fun e =>
                e.name = (pickLast (onEntries replaces) first rest).name).length = n := by
              rw [List.length_eraseP_of_mem member (decide_eq_true rfl), length]
              rfl
            rcases inductionHypothesis _ after shorter remains with
              ⟨order, final, serves, reaches, calledLater⟩
            refine ⟨_, final, .cons serves, .head ⟨rfl, step⟩ reaches, ?_⟩
            rw [calledLater, called, List.map_cons, List.append_assoc, List.singleton_append]
  rcases reaches _ entries m rfl represents with ⟨order, after, serves, reaches, called⟩
  have loopEnds := whileLoop_of_reaches reaches rfl
  exact ⟨order, ⟨none, after⟩, serves, loopEnds.bind rfl, called⟩

/-! ## Tasks added and tasks run -/

/-- The calls of `add`, in order. -/
def addAll (adds : List NewTask) : State := adds.foldl add State.initial

theorem addAll_added (adds : List NewTask) :
    Added (fun _ => 0) adds (addAll adds).taskList (addAll adds).memory := by
  induction adds using List.reverseRecOn with
  | nil => exact added_nil _
  | append_singleton adds new added =>
      unfold addAll
      rw [List.foldl_append]
      exact added.step new

/-- `schedule` ends, and has called `run` once on every task added, with its burst. -/
def RunsEachOnce (schedule : ℕ → State → Outcome State) (adds : List NewTask) : Prop :=
  ∃ final, Ends (fun fuel => schedule fuel (addAll adds)) final ∧
    (calls final.memory.log).Perm (adds.zipIdx.map fun (new, i) => (some i, new.burst))

theorem calls_perm_iff {order : List Entry} (distinct : (entries.map Entry.task).Nodup)
    (subset : order ⊆ entries) :
    (order.map Entry.call).Perm (entries.map Entry.call) ↔ order.Perm entries := by
  constructor
  · intro permutation
    have tasks : (order.map Entry.task).Perm (entries.map Entry.task) := by
      have pointers := permutation.map fun call => call.1.getD 0
      rwa [List.map_map, List.map_map] at pointers
    have nodup : order.Nodup := (tasks.nodup_iff.mpr distinct).of_map
    have length : entries.length ≤ order.length := by
      have same := permutation.length_eq
      rw [List.length_map, List.length_map] at same
      exact Nat.le_of_eq same.symm
    exact (nodup.subperm subset).perm_of_length_le length
  · intro permutation
    exact permutation.map Entry.call

theorem entriesOf_calls (remaining : NewTask → Int) (adds : List NewTask) :
    ((entriesOf remaining adds.zipIdx).map Entry.call).Perm
      (adds.zipIdx.map fun (new, i) => (some i, new.burst)) := by
  unfold entriesOf
  rw [List.map_reverse, List.map_map]
  exact List.reverse_perm _

/-- After the calls of `add`, `schedule` ends and runs what is selected from the tasks. -/
theorem schedule_addAll {pickNextTask : State → Outcome Pointer} (ranks : Ranks replaces)
    (picks : Picks pickNextTask replaces) (adds : List NewTask) :
    ∃ order final, Serves Entry.name (onEntries replaces) (entriesOf (fun _ => 0) adds.zipIdx)
        order ∧
      Ends (fun fuel => scheduleWith pickNextTask fuel (addAll adds)) final ∧
      calls final.memory.log = order.map Entry.call := by
  have added := addAll_added adds
  rcases schedule_serves ranks picks added.represents with ⟨order, final, serves, ends, called⟩
  have start : (⟨firstNode (entriesOf (fun _ => 0) adds.zipIdx), (addAll adds).memory⟩ : State) =
      addAll adds := by
    rw [← added.head]
  rw [start] at ends
  rw [added.log] at called
  exact ⟨order, final, serves, ends, called⟩

/-- A scheduler that picks the last of the best tasks runs every task once exactly when
no task is at least as good as one of its name that was added later. -/
theorem runsEachOnce_iff {pickNextTask : State → Outcome Pointer} (ranks : Ranks replaces)
    (picks : Picks pickNextTask replaces) (adds : List NewTask) :
    (∃ final, Ends (fun fuel => scheduleWith pickNextTask fuel (addAll adds)) final) ∧
      (RunsEachOnce (scheduleWith pickNextTask) adds ↔
        adds.Pairwise fun earlier later => earlier.name = later.name →
          replaces ⟨earlier.name, earlier.priority, earlier.burst, 0⟩
            ⟨later.name, later.priority, later.burst, 0⟩ = false) := by
  have added := addAll_added adds
  rcases schedule_addAll ranks picks adds with ⟨order, final, serves, ends, called⟩
  have nodup : (entriesOf (fun _ => 0) adds.zipIdx).Nodup := added.represents.distinct.of_map
  have entryRanks := ranks_onEntries ranks
  have once : RunsEachOnce (scheduleWith pickNextTask) adds ↔
      order.Perm (entriesOf (fun _ => 0) adds.zipIdx) := by
    rw [← calls_perm_iff added.represents.distinct (serves.subset entryRanks)]
    constructor
    · rintro ⟨other, endsToo, permutation⟩
      rw [endsToo.unique ends, called] at permutation
      exact permutation.trans (entriesOf_calls _ adds).symm
    · intro permutation
      refine ⟨final, ends, ?_⟩
      rw [called]
      exact permutation.trans (entriesOf_calls _ adds)
  refine ⟨⟨final, ends⟩, ?_⟩
  rw [once, serves.perm_iff entryRanks nodup]
  have pairs := entriesOf_pairwise (fun _ => 0) adds
    (fun first second => first.name = second.name → replaces second first = false)
  constructor
  · intro pairwise
    exact (pairs.mp pairwise).imp fun less same => less same.symm
  · intro pairwise
    exact pairs.mpr (pairwise.imp fun less same => less same.symm)

theorem ranks_byBurst : Ranks fun task shortestJob : Task =>
    decide (task.burst ≤ shortestJob.burst) := by
  constructor
  · intro a b
    simp only [decide_eq_true_eq]
    omega
  · intro a b c
    simp only [decide_eq_true_eq]
    omega

theorem ranks_byPriority : Ranks fun task highestPriorityJob : Task =>
    decide (task.priority ≥ highestPriorityJob.priority) := by
  constructor
  · intro a b
    simp only [decide_eq_true_eq]
    omega
  · intro a b c
    simp only [decide_eq_true_eq]
    omega

/-- The three schedulers always end. They run every task exactly once, with its burst:
FCFS when no two tasks have one name; SJF when of two tasks with one name the later added
has the smaller burst; Priority when it has the higher priority; and not otherwise. -/
theorem schedulers_run_each_once_iff (adds : List NewTask) :
    ((∃ final, Ends (fun fuel => Fcfs.schedule fuel (addAll adds)) final) ∧
      (RunsEachOnce Fcfs.schedule adds ↔
        adds.Pairwise fun earlier later => earlier.name ≠ later.name)) ∧
    ((∃ final, Ends (fun fuel => Sjf.schedule fuel (addAll adds)) final) ∧
      (RunsEachOnce Sjf.schedule adds ↔ adds.Pairwise fun earlier later =>
        earlier.name = later.name → later.burst < earlier.burst)) ∧
    ((∃ final, Ends (fun fuel => Priority.schedule fuel (addAll adds)) final) ∧
      (RunsEachOnce Priority.schedule adds ↔ adds.Pairwise fun earlier later =>
        earlier.name = later.name → earlier.priority < later.priority)) := by
  have fcfs := runsEachOnce_iff ranks_always Fcfs.picks adds
  have sjf := runsEachOnce_iff ranks_byBurst (pickBest_picks _) adds
  have priority := runsEachOnce_iff ranks_byPriority (pickBest_picks _) adds
  simp only [Bool.true_eq_false, imp_false] at fcfs
  simp only [decide_eq_false_iff_not, not_le] at sjf
  simp only [decide_eq_false_iff_not, ge_iff_le, not_le] at priority
  exact ⟨fcfs, sjf, priority⟩

/-- Of two tasks with one name, FCFS runs the first twice and the second never. -/
theorem namesakes_not_run_once : ¬∀ adds, RunsEachOnce Fcfs.schedule adds ∧
    RunsEachOnce Sjf.schedule adds ∧ RunsEachOnce Priority.schedule adds := by
  intro runs
  have once := (runsEachOnce_iff ranks_always Fcfs.picks [⟨"A", 1, 5⟩, ⟨"A", 1, 7⟩]).2.mp (runs _).1
  simp at once

end OsProjects.Scheduling
