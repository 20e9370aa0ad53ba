import OsProjects.C.Iteration
import OsProjects.Scheduling.TaskList

/-!
Owns the loop of the round-robin schedulers: one turn, and the rounds that the turns
make up.

In round `k` every task that needs more than `k` quanta has one turn, in the order of
the list. Within a round the entries fall into those that had their turn and those that
did not; the list holds what is left of both, and `next_node` is the first of the
latter, or the head of the list when there is none.

A turn that ends a task is right when no entry before it has its name: only then does
`delete` unlink its own entry.

Does not own how the list was made.
-/

namespace OsProjects.Scheduling

open OsProjects.C

variable {m start : Memory} {s next : Turns} {d e : Entry} {k : ℕ}
variable {entries done rest pre post : List Entry}

/-! ## One turn -/

/-- The slice that a task gets. -/
def Entry.slice (e : Entry) : Int :=
  if quantum < e.content.remainingBurst then quantum else e.content.remainingBurst

/-- The entry with another value of `remaining_burst`. -/
def Entry.left (e : Entry) (remaining : Int) : Entry :=
  { e with content := { e.content with remainingBurst := remaining } }

/-- The memory after the task has had its slice. -/
def Memory.served (m : Memory) (e : Entry) : Memory :=
  { m.record (.run (some e.task) e.slice) with
    tasks := m.tasks.write e.task (e.left (e.content.remainingBurst - e.slice)).content }

/-- `next_node` after the turn of the entry. -/
def nextTurn (pre : List Entry) (e : Entry) (post : List Entry) : Pointer :=
  if (firstNode post).isSome then firstNode post else firstNode (pre ++ e :: post)

theorem Represents.served (represents : Represents m (pre ++ e :: post)) :
    Represents (m.served e) (pre ++ e.left (e.content.remainingBurst - e.slice) :: post) :=
  (represents.record _).assign _

/-- A turn runs the task, and deletes it when nothing remains. -/
theorem turnBody_eq (represents : Represents m (pre ++ e :: post)) :
    turnBody ⟨firstNode (pre ++ e :: post), some e.node, m⟩ =
      if e.content.remainingBurst - e.slice = 0 then do
        let (taskList, memory) ← delete (firstNode (pre ++ e :: post)) (some e.task) (m.served e)
        pure (.next ⟨taskList, nextTurn pre e post, memory⟩)
      else
        .ok (.next ⟨firstNode (pre ++ e :: post), nextTurn pre e post, m.served e⟩) := by
  have task : m.tasks.load (some e.task) = .ok e.content := represents.load_task (by simp)
  have served : (m.served e).tasks.load (some e.task) =
      .ok (e.left (e.content.remainingBurst - e.slice)).content :=
    represents.served.load_task (e := e.left (e.content.remainingBurst - e.slice)) (by simp)
  have slice : (if quantum < e.content.remainingBurst then quantum
      else e.content.remainingBurst) = e.slice := rfl
  have assigned : (m.record (.run (some e.task) e.slice)).tasks.assign (some e.task)
      (fun task => { task with remainingBurst := task.remainingBurst - e.slice }) =
        .ok (m.served e).tasks :=
    Heap.assign_some (represents.contents e (by simp)) _
  unfold turnBody
  simp only [pickTurn, represents.load_node, ok_bind, pure_eq_ok, task, run, slice]
  rw [assigned, ok_bind, served]
  rfl

/-! ## Rounds -/

/-- The entry after `k` quanta. -/
def Entry.inRound (k : ℕ) (e : Entry) : Entry := e.left (e.burst - quantum * k)

/-- The entries that need more than `k` quanta, after `k` of them. -/
def atRound (k : ℕ) (entries : List Entry) : List Entry :=
  (entries.filter fun e => quantum * k < e.burst).map (Entry.inRound k)

/-- The turn of an entry in round `k`, if it has one. -/
def turnLog (k : ℕ) (e : Entry) : List Event :=
  if quantum * k < e.burst then
    .run (some e.task) (min quantum (e.burst - quantum * k)) ::
      if e.burst ≤ quantum * (k + 1) then [.unlink (some e.task)] else []
  else
    []

/-- The log of the rounds before round `k`, and of the turns of `done` in round `k`. -/
def logAt (entries : List Entry) (k : ℕ) (done : List Entry) : List Event :=
  (List.range k).flatMap (fun k => entries.flatMap (turnLog k)) ++ done.flatMap (turnLog k)

/-- No entry of the other list is one of these. -/
def Apart (entries others : List Entry) : Prop :=
  ∀ e ∈ entries, ∀ d ∈ others, d.node ≠ e.node ∧ d.task ≠ e.task

/-- The state in round `k` of the entries, when those of `done` had their turn. The lists
that are apart from this one are as at the start. -/
structure At (start : Memory) (entries : List Entry) (k : ℕ) (done rest : List Entry)
    (s : Turns) : Prop where
  represents : Represents s.memory (atRound (k + 1) done ++ atRound k rest)
  taskList : s.taskList = firstNode (atRound (k + 1) done ++ atRound k rest)
  nextNode : s.taskList ≠ none →
    s.nextNode = firstNode (atRound k rest ++ atRound (k + 1) done)
  log : s.memory.log = start.log ++ logAt entries k done
  kept : ∀ {others}, Represents start others → Apart entries others → Represents s.memory others

/-- The turn of the entry in round `k` deletes no other entry: it does not end the task,
or no entry before it has its name. -/
def Right (k : ℕ) (done : List Entry) (e : Entry) : Prop :=
  e.burst ≤ quantum * (k + 1) → ∀ d ∈ done, quantum * (k + 1) < d.burst → d.name ≠ e.name

theorem atRound_append (k : ℕ) (first second : List Entry) :
    atRound k (first ++ second) = atRound k first ++ atRound k second := by
  unfold atRound
  rw [List.filter_append, List.map_append]

theorem atRound_cons_of_lt (needs : quantum * k < e.burst) (rest : List Entry) :
    atRound k (e :: rest) = e.inRound k :: atRound k rest := by
  unfold atRound
  rw [List.filter_cons, if_pos (decide_eq_true needs), List.map_cons]

theorem atRound_eq_nil (ended : ∀ e ∈ entries, e.burst ≤ quantum * k) : atRound k entries = [] := by
  unfold atRound
  rw [List.map_eq_nil_iff, List.filter_eq_nil_iff]
  intro e member
  have ended := ended e member
  simp only [decide_eq_true_eq]
  omega

theorem quantum_succ (k : ℕ) : quantum * ((k + 1 : ℕ) : Int) = quantum * (k + 1) := by
  rw [Nat.cast_add, Nat.cast_one]

/-- Entries that have no turn in round `k` are passed. -/
theorem At.skip (pre : List Entry) (state : At start entries k done (pre ++ rest) s)
    (ended : ∀ e ∈ pre, e.burst ≤ quantum * k) : At start entries k (done ++ pre) rest s := by
  have noTurn : atRound k pre = [] := atRound_eq_nil ended
  have endedToo : ∀ e ∈ pre, e.burst ≤ quantum * ((k + 1 : ℕ) : Int) := by
    intro e member
    have ended := ended e member
    simp only [quantum] at ended ⊢
    omega
  have noNext : atRound (k + 1) pre = [] := atRound_eq_nil endedToo
  have noLog : pre.flatMap (turnLog k) = [] := by
    rw [List.flatMap_eq_nil_iff]
    intro e member
    exact if_neg (Int.not_lt.mpr (ended e member))
  rcases state with ⟨represents, taskList, nextNode, log, kept⟩
  rw [atRound_append, noTurn, List.nil_append] at represents taskList nextNode
  constructor
  · rwa [atRound_append, noNext, List.append_nil]
  · rwa [atRound_append, noNext, List.append_nil]
  · rwa [atRound_append, noNext, List.append_nil]
  · rw [log, logAt, logAt, List.flatMap_append, noLog, List.append_nil]
  · exact kept

/-- The end of a round is the start of the next one. -/
theorem At.nextRound (state : At start entries k entries [] s) :
    At start entries (k + 1) [] entries s := by
  rcases state with ⟨represents, taskList, nextNode, log, kept⟩
  have none : ∀ k, atRound k [] = [] := fun _ => rfl
  rw [none, List.append_nil] at represents taskList
  rw [none, List.nil_append] at nextNode
  refine ⟨represents, taskList, ?_, ?_, kept⟩
  · rw [none, List.append_nil]
    exact nextNode
  · rw [log, logAt, logAt, List.range_succ, List.flatMap_append, List.flatMap_singleton,
      List.flatMap_nil, List.append_nil]

/-! ## A turn in its round -/

theorem firstNode_left (pre : List Entry) (e : Entry) (remaining : Int) (post : List Entry) :
    firstNode (pre ++ e.left remaining :: post) = firstNode (pre ++ e :: post) := by
  cases pre with
  | nil => rfl
  | cons head pre => rfl

theorem firstNode_eq_none_iff : firstNode entries = none ↔ entries = [] := by
  cases entries with
  | nil => simp
  | cons e rest => simp

theorem mem_atRound (member : d ∈ atRound k entries) :
    ∃ e ∈ entries, quantum * k < e.burst ∧ d = e.inRound k := by
  rcases List.mem_map.mp member with ⟨e, inFilter, isAfter⟩
  rcases List.mem_filter.mp inFilter with ⟨isEntry, needs⟩
  exact ⟨e, isEntry, of_decide_eq_true needs, isAfter.symm⟩

theorem inRound_slice (k : ℕ) (e : Entry) :
    (e.inRound k).slice = min quantum (e.burst - quantum * k) := by
  show (if quantum < e.burst - quantum * k then quantum else e.burst - quantum * k) = _
  split
  · next more => rw [min_eq_left (Int.le_of_lt more)]
  · next less => rw [min_eq_right (Int.not_lt.mp less)]

/-- Nothing remains after the slice exactly when the task needs no further quantum. -/
theorem remaining_eq_zero_iff (needs : quantum * k < e.burst) :
    (e.inRound k).content.remainingBurst - (e.inRound k).slice = 0 ↔
      e.burst ≤ quantum * (k + 1) := by
  rw [inRound_slice]
  show e.burst - quantum * k - min quantum (e.burst - quantum * k) = 0 ↔ _
  simp only [quantum] at needs ⊢
  omega

/-- The entry after its turn in round `k`. -/
def Entry.afterTurn (k : ℕ) (e : Entry) : Entry :=
  (e.inRound k).left ((e.inRound k).content.remainingBurst - (e.inRound k).slice)

theorem afterTurn_of_lt (more : quantum * (k + 1) < e.burst) :
    e.afterTurn k = e.inRound (k + 1) := by
  have remaining : (e.inRound k).content.remainingBurst - (e.inRound k).slice =
      e.burst - quantum * ((k + 1 : ℕ) : Int) := by
    rw [inRound_slice]
    show e.burst - quantum * k - min quantum (e.burst - quantum * k) = _
    simp only [quantum] at more ⊢
    omega
  rw [Entry.afterTurn, remaining]
  rfl

/-- The memory after the slice holds the list with the slice taken off. -/
structure Sliced (start : Memory) (entries : List Entry) (k : ℕ) (done : List Entry) (e : Entry)
    (rest : List Entry) (m : Memory) : Prop where
  represents : Represents m (atRound (k + 1) done ++ e.afterTurn k :: atRound k rest)
  log : m.log = start.log ++ logAt entries k done ++
    [.run (some e.task) (min quantum (e.burst - quantum * k))]
  kept : ∀ {others}, Represents start others → Apart entries others → Represents m others

theorem Sliced.load_task (sliced : Sliced start entries k done e rest m) :
    m.tasks.load (some e.task) = .ok (e.afterTurn k).content :=
  sliced.represents.load_task (e := e.afterTurn k) (by simp)

/-- The slice does not change where the list starts. -/
theorem Sliced.head (_ : Sliced start entries k done e rest m) :
    firstNode (atRound (k + 1) done ++ e.afterTurn k :: atRound k rest) =
      firstNode (atRound (k + 1) done ++ e :: atRound k rest) :=
  firstNode_left _ e _ _

theorem At.sliced (state : At start entries k done (e :: rest) s) (member : e ∈ entries)
    (needs : quantum * k < e.burst) :
    Sliced start entries k done e rest (s.memory.served (e.inRound k)) := by
  have represents := state.represents
  rw [atRound_cons_of_lt needs] at represents
  constructor
  · exact represents.served
  · show s.memory.log ++ [.run (some e.task) (e.inRound k).slice] = _
    rw [state.log, inRound_slice]
  · intro others list apart
    apply (state.kept list apart).frame
    · intro d _
      rfl
    · intro d isOther
      exact Heap.write_other (apart e member d isOther).2 _

/-- The turn of an entry takes its slice off, and deletes its task when it has no need
of a further quantum. -/
theorem At.turnBody_eq (state : At start entries k done (e :: rest) s)
    (needs : quantum * k < e.burst) :
    turnBody s =
      if e.burst ≤ quantum * (k + 1) then do
        let (taskList, memory) ← delete (firstNode (atRound (k + 1) done ++ e :: atRound k rest))
          (some e.task) (s.memory.served (e.inRound k))
        pure (.next ⟨taskList, nextTurn (atRound (k + 1) done) (e.inRound k) (atRound k rest),
          memory⟩)
      else
        .ok (.next ⟨s.taskList, nextTurn (atRound (k + 1) done) (e.inRound k) (atRound k rest),
          s.memory.served (e.inRound k)⟩) := by
  have represents := state.represents
  have taskList := state.taskList
  have nextNode := state.nextNode
  rw [atRound_cons_of_lt needs] at represents taskList nextNode
  have isSome : s.taskList ≠ none := by
    rw [taskList, Ne, firstNode_eq_none_iff]
    exact List.append_ne_nil_of_right_ne_nil _ (List.cons_ne_nil _ _)
  have whole : s = ⟨firstNode (atRound (k + 1) done ++ e.inRound k :: atRound k rest),
      some (e.inRound k).node, s.memory⟩ := by
    rw [← taskList]
    exact congrArg (fun next => (⟨s.taskList, next, s.memory⟩ : Turns)) (nextNode isSome)
  have turn := Scheduling.turnBody_eq represents
  have head : firstNode (atRound (k + 1) done ++ e.inRound k :: atRound k rest) =
      firstNode (atRound (k + 1) done ++ e :: atRound k rest) := firstNode_left _ _ _ _
  rw [← whole] at turn
  rw [turn]
  by_cases ended : e.burst ≤ quantum * (k + 1)
  · rw [if_pos ended, if_pos ((remaining_eq_zero_iff needs).mpr ended), head]
    rfl
  · rw [if_neg ended, if_neg fun zero => ended ((remaining_eq_zero_iff needs).mp zero), taskList]

theorem apart_of_atRound {others : List Entry} (apart : Apart entries others)
    (subset : done ⊆ entries) : ∀ d ∈ others, d.node ∉ (atRound k done).map Entry.node := by
  intro d isOther member
  rcases List.mem_map.mp member with ⟨x, inRound, sameNode⟩
  rcases mem_atRound inRound with ⟨e, isDone, _, isAfter⟩
  apply (apart e (subset isDone) d isOther).1
  rw [← sameNode, isAfter]
  rfl

/-- The next turn is that of the first entry behind, or of the first in the list. -/
theorem nextTurn_eq (pre : List Entry) (e : Entry) (post : List Entry) :
    nextTurn pre e post = firstNode (post ++ (pre ++ [e])) := by
  cases post with
  | nil => rfl
  | cons next post => rfl

theorem firstNode_append (nonempty : pre ≠ []) : firstNode (pre ++ post) = firstNode pre := by
  cases pre with
  | nil => exact absurd rfl nonempty
  | cons head pre => rfl

/-- An entry that ends in round `k` is not there in the next one. -/
theorem atRound_append_ended (done : List Entry) (ended : e.burst ≤ quantum * (k + 1)) :
    atRound (k + 1) (done ++ [e]) = atRound (k + 1) done := by
  have gone : atRound (k + 1) [e] = [] := by
    apply atRound_eq_nil
    intro d isLast
    rw [List.mem_singleton.mp isLast, quantum_succ]
    exact ended
  rw [atRound_append, gone, List.append_nil]

/-- An entry that needs a further quantum is the last one so far of the next round. -/
theorem atRound_append_more (done : List Entry) (more : quantum * (k + 1) < e.burst) :
    atRound (k + 1) (done ++ [e]) = atRound (k + 1) done ++ [e.inRound (k + 1)] := by
  rw [← quantum_succ] at more
  rw [atRound_append, atRound_cons_of_lt more]
  rfl

theorem logAt_append (entries : List Entry) (k : ℕ) (done : List Entry) (e : Entry) :
    logAt entries k (done ++ [e]) = logAt entries k done ++ turnLog k e := by
  rw [logAt, logAt, List.flatMap_append, List.flatMap_singleton, List.append_assoc]

/-- A turn that does not end its task leads on in the round. -/
theorem At.turn_more (state : At start entries k done (e :: rest) s) (member : e ∈ entries)
    (needs : quantum * k < e.burst) (more : quantum * (k + 1) < e.burst) :
    ∃ next, turnBody s = .ok (.next next) ∧ At start entries k (done ++ [e]) rest next := by
  have sliced := state.sliced member needs
  have turn := state.turnBody_eq needs
  have notEnded : ¬e.burst ≤ quantum * (k + 1) := Int.not_le.mpr more
  have stays := atRound_append_more done more
  have represents := sliced.represents
  rw [afterTurn_of_lt more] at represents
  rw [if_neg notEnded] at turn
  refine ⟨_, turn, ?_⟩
  constructor
  · rw [stays, List.append_assoc]
    exact represents
  · show s.taskList = _
    rw [state.taskList, stays, atRound_cons_of_lt needs, List.append_assoc]
    exact (firstNode_left _ e _ _).trans (firstNode_left _ e _ _).symm
  · intro _
    show nextTurn _ _ _ = _
    rw [nextTurn_eq, stays, ← List.append_assoc, ← List.append_assoc]
    exact (firstNode_left _ e _ []).trans (firstNode_left _ e _ []).symm
  · show (s.memory.served (e.inRound k)).log = _
    rw [sliced.log, logAt_append, turnLog, if_pos needs, if_neg notEnded, List.append_assoc]
  · exact sliced.kept

/-- A turn that ends its task leads on in the round when it deletes that task. -/
theorem At.turn_ended (state : At start entries k done (e :: rest) s)
    (split : entries = done ++ e :: rest) (needs : quantum * k < e.burst)
    (ended : e.burst ≤ quantum * (k + 1))
    (others : ∀ d ∈ done, quantum * (k + 1) < d.burst → d.name ≠ e.name) :
    ∃ next, turnBody s = .ok (.next next) ∧ At start entries k (done ++ [e]) rest next := by
  have member : e ∈ entries := by simp [split]
  have subset : done ⊆ entries := by simp [split]
  have sliced := state.sliced member needs
  have turn := state.turnBody_eq needs
  have leaves := atRound_append_ended done ended
  have othersInRound : ∀ d ∈ atRound (k + 1) done, d.content.name ≠ e.content.name := by
    intro d inRound
    rcases mem_atRound inRound with ⟨x, isDone, needsMore, isAfter⟩
    rw [isAfter]
    exact others x isDone (by rwa [quantum_succ] at needsMore)
  rcases sliced.represents.delete sliced.load_task rfl othersInRound with
    ⟨after, deleted, unlinks⟩
  rw [sliced.head] at deleted
  rw [if_pos ended, deleted] at turn
  refine ⟨_, turn, ?_⟩
  constructor
  · rw [leaves]
    exact unlinks.represents
  · rw [leaves]
  · intro isSome
    have nonempty : atRound k rest ++ atRound (k + 1) done ≠ [] := by
      intro isNil
      rcases List.append_eq_nil_iff.mp isNil with ⟨noRest, noDone⟩
      apply isSome
      show firstNode (atRound (k + 1) done ++ atRound k rest) = none
      rw [noRest, noDone]
      rfl
    show nextTurn _ _ _ = _
    rw [nextTurn_eq, leaves, ← List.append_assoc, firstNode_append nonempty]
  · show after.log = _
    rw [unlinks.log, sliced.log, logAt_append, turnLog, if_pos needs, if_pos ended]
    simp only [List.append_assoc, List.singleton_append]
    rfl
  · intro others list apart
    apply (sliced.kept list apart).frame
    · intro d isOther
      exact unlinks.others d.node (apart_of_atRound apart subset d isOther)
    · intro d _
      rw [unlinks.tasks]

/-- A turn that is right leads on in the round. -/
theorem At.turn (state : At start entries k done (e :: rest) s)
    (split : entries = done ++ e :: rest) (needs : quantum * k < e.burst)
    (right : Right k done e) :
    ∃ next, turnBody s = .ok (.next next) ∧ At start entries k (done ++ [e]) rest next := by
  by_cases ended : e.burst ≤ quantum * (k + 1)
  · exact state.turn_ended split needs ended (right ended)
  · exact state.turn_more (by simp [split]) needs (Int.not_le.mp ended)

/-! ## All rounds -/

/-- The loop leads from one state to the other. -/
abbrev TurnsReach : Turns → Turns → Prop := Reaches (fun s : Turns => s.taskList.isSome) turnBody

theorem At.isSome (state : At start entries k done (e :: rest) s) (needs : quantum * k < e.burst) :
    s.taskList.isSome = true := by
  rw [state.taskList, atRound_cons_of_lt needs, Option.isSome_iff_ne_none, Ne,
    firstNode_eq_none_iff]
  exact List.append_ne_nil_of_right_ne_nil _ (List.cons_ne_nil _ _)

/-- While every turn is right, every place of every round is reached. -/
theorem At.reaches (begins : At start entries 0 [] entries s)
    (right : ∀ {k : ℕ} {done e rest next}, entries = done ++ e :: rest → quantum * k < e.burst →
      TurnsReach s next → At start entries k done (e :: rest) next → Right k done e) :
    ∀ k done rest, entries = done ++ rest →
      ∃ next, TurnsReach s next ∧ At start entries k done rest next := by
  have round : ∀ k, (∃ next, TurnsReach s next ∧ At start entries k [] entries next) →
      ∀ done rest, entries = done ++ rest →
        ∃ next, TurnsReach s next ∧ At start entries k done rest next := by
    intro k starts done
    induction done using List.reverseRecOn with
    | nil =>
        intro rest split
        rw [List.nil_append] at split
        exact split ▸ starts
    | append_singleton done e inductionHypothesis =>
        intro rest split
        rw [List.append_assoc, List.singleton_append] at split
        rcases inductionHypothesis (e :: rest) split with ⟨next, reaches, state⟩
        by_cases needs : quantum * k < e.burst
        · rcases state.turn split needs (right split needs reaches state) with
            ⟨after, turn, stateAfter⟩
          exact ⟨after, reaches.tail ⟨state.isSome needs, turn⟩, stateAfter⟩
        · refine ⟨next, reaches, state.skip [e] ?_⟩
          intro d isLast
          rw [List.mem_singleton.mp isLast]
          omega
  intro k
  induction k with
  | zero => exact round 0 ⟨s, .refl, begins⟩
  | succ k inductionHypothesis =>
      rcases inductionHypothesis entries [] (List.append_nil _).symm with ⟨next, reaches, state⟩
      exact round (k + 1) ⟨next, reaches, state.nextRound⟩

/-- After as many rounds as the longest task needs, the list is empty. -/
theorem At.empty (state : At start entries k [] entries s)
    (ended : ∀ e ∈ entries, e.burst ≤ quantum * k) : s.taskList = none := by
  rw [state.taskList, atRound_eq_nil ended]
  rfl

theorem exists_rounds (entries : List Entry) : ∃ k : ℕ, ∀ e ∈ entries, e.burst ≤ quantum * k := by
  induction entries with
  | nil => exact ⟨0, fun _ member => absurd member List.not_mem_nil⟩
  | cons first rest inductionHypothesis =>
      rcases inductionHypothesis with ⟨k, ended⟩
      refine ⟨k + first.burst.toNat, fun e member => ?_⟩
      have before : quantum * (k : Int) ≤ quantum * ((k + first.burst.toNat : ℕ) : Int) := by
        simp only [quantum]
        omega
      rcases List.mem_cons.mp member with isFirst | isRest
      · rw [isFirst]
        simp only [quantum]
        omega
      · exact (ended e isRest).trans before

/-- Every turn of every round is right. -/
def AllRight (entries : List Entry) : Prop :=
  ∀ (k : ℕ) done e rest, entries = done ++ e :: rest → quantum * k < e.burst → Right k done e

/-- No task has run yet, and each has something to run. -/
def Unserved (entries : List Entry) : Prop :=
  ∀ e ∈ entries, 0 < e.burst ∧ e.content.remainingBurst = e.burst

theorem Unserved.atRound_zero (unserved : Unserved entries) : atRound 0 entries = entries := by
  induction entries with
  | nil => rfl
  | cons e rest inductionHypothesis =>
      rcases unserved e List.mem_cons_self with ⟨positive, remaining⟩
      have needs : quantum * ((0 : ℕ) : Int) < e.burst := by
        rw [Nat.cast_zero, mul_zero]
        exact positive
      have same : e.inRound 0 = e := by
        show e.left (e.burst - quantum * ((0 : ℕ) : Int)) = e
        rw [Nat.cast_zero, mul_zero, sub_zero, ← remaining]
        rfl
      rw [atRound_cons_of_lt needs, same,
        inductionHypothesis fun d member => unserved d (List.mem_cons_of_mem _ member)]

/-- The loop starts with round 0. -/
theorem Unserved.begins (unserved : Unserved entries) (represents : Represents m entries) :
    At m entries 0 [] entries ⟨firstNode entries, firstNode entries, m⟩ := by
  have noneDone : atRound 1 [] = [] := rfl
  constructor
  · rw [noneDone, unserved.atRound_zero]
    exact represents
  · rw [noneDone, unserved.atRound_zero]
    rfl
  · intro _
    rw [noneDone, unserved.atRound_zero, List.append_nil]
  · exact (List.append_nil _).symm
  · intro others list _
    exact list

/-- What is left when the loop has ended. -/
structure TurnsOver (start : Memory) (entries : List Entry) (final : Turns) : Prop where
  taskList : final.taskList = none
  log : ∀ k : ℕ, (∀ e ∈ entries, e.burst ≤ quantum * k) →
    final.memory.log = start.log ++ logAt entries k []
  kept : ∀ {others}, Represents start others → Apart entries others →
    Represents final.memory others

/-- When every turn is right, the loop ends after the rounds. -/
theorem takeTurns_ends (unserved : Unserved entries) (represents : Represents m entries)
    (right : AllRight entries) :
    ∃ final, Ends (fun fuel => takeTurns fuel (firstNode entries) m) final ∧
      TurnsOver m entries final := by
  have places := (unserved.begins represents).reaches
    (fun split needs _ _ => right _ _ _ _ split needs)
  have endsAt : ∀ k : ℕ, (∀ e ∈ entries, e.burst ≤ quantum * k) →
      ∃ final, Ends (fun fuel => takeTurns fuel (firstNode entries) m) final ∧
        At m entries k [] entries final := by
    intro k ended
    rcases places k [] entries rfl with ⟨final, reaches, state⟩
    have stops : final.taskList.isSome = false := by
      rw [state.empty ended]
      rfl
    have loopEnds := whileLoop_of_reaches reaches stops
    exact ⟨final, loopEnds.bind rfl, state⟩
  rcases exists_rounds entries with ⟨k, ended⟩
  rcases endsAt k ended with ⟨final, ends, state⟩
  refine ⟨final, ends, state.empty ended, ?_, state.kept⟩
  intro k' ended'
  rcases endsAt k' ended' with ⟨final', ends', state'⟩
  rw [ends.unique ends']
  exact state'.log

end OsProjects.Scheduling
