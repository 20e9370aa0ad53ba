import OsProjects.Scheduling.Rounds

/-!
Owns what round robin does with the CPU time: when the slices of every task add up to
its burst and no task runs after it was unlinked.

`delete` unlinks the first task with the name of the one that ended. When that is a task
that still needs time, it either runs although it is not in the list any more, or never
gets the rest of its burst.

Does not own the rounds themselves.
-/

namespace OsProjects.Scheduling

open OsProjects.C

variable {m start : Memory} {s : Turns} {d e : Entry} {k : ℕ} {t : Pointer}
variable {entries done rest : List Entry} {adds : List NewTask} {log : List Event}

/-- The sum of the slices of the task. -/
def received (t : Pointer) (trace : List (Pointer × Int)) : Int :=
  ((trace.filter fun call => call.1 = t).map Prod.snd).sum

/-- The later event is no run of the task that the earlier one unlinks. -/
def RunsOnlyLinked (earlier later : Event) : Prop :=
  ∀ t slice, earlier = .unlink t → later ≠ .run t slice

/-- No task runs after it was unlinked, every slice is one of at least 1 and at most
`QUANTUM` units, and the slices of every task add up to its burst. -/
structure ConservesTime (adds : List NewTask) (log : List Event) : Prop where
  linked : log.Pairwise RunsOnlyLinked
  slices : ∀ t slice, .run t slice ∈ log → 0 < slice ∧ slice ≤ quantum
  bursts : ∀ (i : ℕ) new, adds[i]? = some new → received (some i) (calls log) = new.burst

/-! ## What a task receives -/

theorem received_append (t : Pointer) (first second : List (Pointer × Int)) :
    received t (first ++ second) = received t first + received t second := by
  unfold received
  rw [List.filter_append, List.map_append, List.sum_append]

theorem received_eq_zero {trace : List (Pointer × Int)} (others : ∀ call ∈ trace, call.1 ≠ t) :
    received t trace = 0 := by
  have noCalls : trace.filter (fun call => call.1 = t) = [] := by
    rw [List.filter_eq_nil_iff]
    intro call member same
    exact others call member (of_decide_eq_true same)
  unfold received
  rw [noCalls]
  rfl

theorem received_eq_zero_of_parts {α : Type} {part : α → List (Pointer × Int)} {list : List α}
    (nothing : ∀ item ∈ list, received t (part item) = 0) : received t (list.flatMap part) = 0 := by
  induction list with
  | nil => rfl
  | cons first rest inductionHypothesis =>
      rw [List.flatMap_cons, received_append, nothing first List.mem_cons_self, zero_add]
      exact inductionHypothesis fun item member => nothing item (List.mem_cons_of_mem _ member)

/-- When only one part of the trace has calls for the task, it receives what that part
gives it. -/
theorem received_flatMap {α : Type} {part : α → List (Pointer × Int)} {list : List α} {own : α}
    (distinct : list.Nodup) (member : own ∈ list)
    (others : ∀ other ∈ list, other ≠ own → received t (part other) = 0) :
    received t (list.flatMap part) = received t (part own) := by
  induction list with
  | nil => cases member
  | cons first rest inductionHypothesis =>
      rcases List.nodup_cons.mp distinct with ⟨notLater, distinctRest⟩
      rw [List.flatMap_cons, received_append]
      rcases List.mem_cons.mp member with isFirst | isLater
      · have noMore : received t (rest.flatMap part) = 0 := by
          apply received_eq_zero_of_parts
          intro other isRest
          apply others other (List.mem_cons_of_mem _ isRest)
          intro same
          exact notLater (isFirst ▸ same ▸ isRest)
        rw [noMore, add_zero, isFirst]
      · have different : first ≠ own := fun same => notLater (same ▸ isLater)
        rw [others first List.mem_cons_self different, zero_add]
        exact inductionHypothesis distinctRest isLater fun other isRest =>
          others other (List.mem_cons_of_mem _ isRest)

/-- What the entry gets in round `k`. -/
def share (k : ℕ) (e : Entry) : Int :=
  if quantum * k < e.burst then min quantum (e.burst - quantum * k) else 0

theorem received_own_turn (k : ℕ) (e : Entry) :
    received (some e.task) (calls (turnLog k e)) = share k e := by
  rw [calls_turnLog, share]
  split
  · simp [received]
  · rfl

/-- In one round an entry gets its share and nothing else. -/
theorem received_turns (k : ℕ) (distinct : (entries.map Entry.task).Nodup) (member : e ∈ entries) :
    received (some e.task) (calls (entries.flatMap (turnLog k))) = share k e := by
  have others : ∀ d ∈ entries, d ≠ e → received (some e.task) (calls (turnLog k d)) = 0 := by
    intro d isEntry different
    apply received_eq_zero
    intro call isCall same
    rw [calls_turnLog] at isCall
    split at isCall
    · rw [List.mem_singleton.mp isCall] at same
      exact different (List.inj_on_of_nodup_map distinct isEntry member (Option.some.inj same))
    · cases isCall
  have turns : calls (entries.flatMap (turnLog k)) =
      entries.flatMap fun d => calls (turnLog k d) := List.filterMap_flatMap
  rw [turns, received_flatMap distinct.of_map member others, received_own_turn]

/-- The first `k` rounds give an entry what it needs, but at most `k` quanta. -/
theorem received_rounds (k : ℕ) (distinct : (entries.map Entry.task).Nodup) (member : e ∈ entries)
    (positive : 0 < e.burst) :
    received (some e.task) (calls (logAt entries k [])) = min e.burst (quantum * k) := by
  induction k with
  | zero =>
      show (0 : Int) = _
      rw [Nat.cast_zero, mul_zero, min_eq_right (Int.le_of_lt positive)]
  | succ k inductionHypothesis =>
      have oneMore : logAt entries (k + 1) [] =
          logAt entries k [] ++ entries.flatMap (turnLog k) := by
        simp only [logAt, List.range_succ, List.flatMap_append, List.flatMap_singleton,
          List.flatMap_nil, List.append_nil]
      rw [oneMore, calls_append, received_append, inductionHypothesis,
        received_turns k distinct member, share]
      simp only [quantum]
      omega

/-! ## The rounds conserve the time -/

theorem run_mem_turnLog {slice : Int} (member : .run t slice ∈ turnLog k e) :
    t = some e.task ∧ quantum * k < e.burst ∧ slice = min quantum (e.burst - quantum * k) := by
  unfold turnLog at member
  split at member
  · next needs =>
    rcases List.mem_cons.mp member with isRun | isUnlink
    · cases isRun
      exact ⟨rfl, needs, rfl⟩
    · split at isUnlink
      · cases List.mem_singleton.mp isUnlink
      · cases isUnlink
  · cases member

theorem unlink_mem_turnLog (member : .unlink t ∈ turnLog k e) :
    t = some e.task ∧ e.burst ≤ quantum * (k + 1) := by
  unfold turnLog at member
  split at member
  · rcases List.mem_cons.mp member with isRun | isUnlink
    · cases isRun
    · split at isUnlink
      · next ended =>
        cases List.mem_singleton.mp isUnlink
        exact ⟨rfl, ended⟩
      · cases isUnlink
  · cases member

theorem turnLog_linked (k : ℕ) (e : Entry) : (turnLog k e).Pairwise RunsOnlyLinked := by
  unfold turnLog
  split
  · split
    · rw [List.pairwise_pair]
      intro t slice isUnlink
      cases isUnlink
    · exact List.pairwise_singleton _ _
  · exact .nil

/-- In one round every task has at most one turn. -/
theorem round_linked (k : ℕ) (distinct : (entries.map Entry.task).Nodup) :
    (entries.flatMap (turnLog k)).Pairwise RunsOnlyLinked := by
  rw [List.pairwise_flatMap]
  refine ⟨fun e _ => turnLog_linked k e, ?_⟩
  rw [List.Nodup, List.pairwise_map] at distinct
  apply distinct.imp
  intro d e different earlier isEarlier later isLater t slice isUnlink isRun
  rw [isUnlink] at isEarlier
  rw [isRun] at isLater
  have first := (unlink_mem_turnLog isEarlier).1
  have second := (run_mem_turnLog isLater).1
  exact different (Option.some.inj (first.symm.trans second))

/-- A task that is unlinked in one round has no turn in a later one. -/
theorem rounds_linked (k : ℕ) (distinct : (entries.map Entry.task).Nodup) :
    (logAt entries k []).Pairwise RunsOnlyLinked := by
  rw [logAt, List.flatMap_nil, List.append_nil, List.pairwise_flatMap]
  refine ⟨fun k _ => round_linked k distinct, ?_⟩
  apply List.pairwise_lt_range.imp
  intro k k' before earlier isEarlier later isLater t slice isUnlink isRun
  rw [isUnlink] at isEarlier
  rw [isRun] at isLater
  rcases List.mem_flatMap.mp isEarlier with ⟨d, isFirst, unlinked⟩
  rcases List.mem_flatMap.mp isLater with ⟨e, isSecond, runs⟩
  rcases unlink_mem_turnLog unlinked with ⟨task, ended⟩
  rcases run_mem_turnLog runs with ⟨taskToo, needs, _⟩
  have same : d = e := List.inj_on_of_nodup_map distinct isFirst isSecond
    (Option.some.inj (task.symm.trans taskToo))
  rw [same] at ended
  simp only [quantum] at ended needs
  omega

theorem rounds_slices {slice : Int} (member : .run t slice ∈ logAt entries k []) :
    0 < slice ∧ slice ≤ quantum := by
  rw [logAt, List.flatMap_nil, List.append_nil, List.mem_flatMap] at member
  rcases member with ⟨round, _, inRound⟩
  rcases List.mem_flatMap.mp inRound with ⟨e, _, inTurn⟩
  rcases run_mem_turnLog inTurn with ⟨_, needs, isSlice⟩
  rw [isSlice]
  exact ⟨lt_min (by decide) (by omega), min_le_left _ _⟩

/-- A task added has an entry. -/
theorem entry_of_add {new : NewTask} {i : ℕ} (remaining : NewTask → Int)
    (added : adds[i]? = some new) :
    ⟨i, i, ⟨new.name, new.priority, new.burst, remaining new⟩⟩ ∈
      entriesOf remaining adds.zipIdx := by
  unfold entriesOf
  rw [List.mem_reverse, List.mem_map]
  exact ⟨(new, i), List.mem_zipIdx_iff_getElem?.mpr added, rfl⟩

theorem conservesTime_rounds (positive : ∀ new ∈ adds, 1 ≤ new.burst)
    (distinct : ((entriesOf NewTask.burst adds.zipIdx).map Entry.task).Nodup)
    (ended : ∀ e ∈ entriesOf NewTask.burst adds.zipIdx, e.burst ≤ quantum * k) :
    ConservesTime adds (logAt (entriesOf NewTask.burst adds.zipIdx) k []) := by
  constructor
  · exact rounds_linked k distinct
  · intro t slice member
    exact rounds_slices member
  · intro i new added
    have member := entry_of_add NewTask.burst added
    have all := received_rounds k distinct member (positive new (List.mem_of_getElem? added))
    rw [min_eq_left (ended _ member)] at all
    exact all

/-! ## A turn only adds to the log -/

theorem delete_log {head : Pointer} {result : Pointer × Memory}
    (deleted : delete head t m = .ok result) : m.log <+: result.2.log := by
  unfold delete at deleted
  rcases bind_eq_ok.mp deleted with ⟨task, _, deleted⟩
  rcases bind_eq_ok.mp deleted with ⟨first, _, deleted⟩
  rcases bind_eq_ok.mp deleted with ⟨firstTask, _, deleted⟩
  split at deleted
  · cases deleted
    exact List.prefix_append _ _
  · rcases bind_eq_ok.mp deleted with ⟨last, _, deleted⟩
    rcases bind_eq_ok.mp deleted with ⟨unlinked, _, deleted⟩
    rcases bind_eq_ok.mp deleted with ⟨nodes, _, deleted⟩
    cases deleted
    exact List.prefix_append _ _

theorem turnBody_log {step : LoopStep Turns Turns} (turn : turnBody s = .ok step) :
    s.memory.log <+: step.state.memory.log := by
  unfold turnBody at turn
  rcases bind_eq_ok.mp turn with ⟨⟨t, nextNode⟩, _, turn⟩
  rcases bind_eq_ok.mp turn with ⟨task, _, turn⟩
  rcases bind_eq_ok.mp turn with ⟨memory, ran, turn⟩
  rcases bind_eq_ok.mp turn with ⟨tasks, _, turn⟩
  rcases bind_eq_ok.mp turn with ⟨served, _, turn⟩
  have recorded : s.memory.log <+: memory.log := by
    rcases bind_eq_ok.mp ran with ⟨_, _, ran⟩
    cases ran
    exact List.prefix_append _ _
  split at turn
  · rcases bind_eq_ok.mp turn with ⟨⟨taskList, after⟩, deleted, turn⟩
    cases turn
    exact recorded.trans (delete_log deleted)
  · cases turn
    exact recorded

/-- The log of the second state begins with that of the first. -/
def LogExtends (s after : Turns) : Prop := s.memory.log <+: after.memory.log

/-- What the log holds at some point of the loop, it holds at the end. -/
theorem takeTurns_log {head : Pointer} {fuel : ℕ} {final : Turns}
    (reaches : TurnsReach ⟨head, head, m⟩ s) (ends : takeTurns fuel head m = .ok final) :
    LogExtends s final := by
  rcases bind_eq_ok.mp ends with ⟨last, loopEnds, isFinal⟩
  cases isFinal
  rcases whileLoop_resume reaches loopEnds with ⟨rest, endsFromHere⟩
  exact whileLoop_extends (fun _ => List.prefix_refl _) List.IsPrefix.trans turnBody_log
    endsFromHere

/-! ## A turn that deletes another task -/

/-- After a turn that is not right, an entry is unlinked that still needs a quantum. -/
theorem At.wrong_turn (state : At start entries k done (e :: rest) s)
    (split : entries = done ++ e :: rest) (needs : quantum * k < e.burst)
    (wrong : ¬Right k done e) :
    ∃ next d, turnBody s = .ok (.next next) ∧ d ∈ done ∧ quantum * (k + 1) < d.burst ∧
      next.memory.log = start.log ++ logAt entries k done ++
        [.run (some e.task) (min quantum (e.burst - quantum * k))] ++ [.unlink (some d.task)] := by
  have member : e ∈ entries := by simp [split]
  have sliced := state.sliced member needs
  have turn := state.turnBody_eq needs
  unfold Right at wrong
  push Not at wrong
  rcases wrong with ⟨ended, d, isDone, needsMore, sameName⟩
  have inRound : d.inRound (k + 1) ∈ atRound (k + 1) done := by
    apply List.mem_map_of_mem
    rw [List.mem_filter, quantum_succ]
    exact ⟨isDone, decide_eq_true needsMore⟩
  -- `delete` stops at the first entry with the name, which need not be the one of `d`
  let sameAs : Entry → Bool := fun x => x.name = e.name
  rcases List.exists_of_eraseP (p := sameAs) inRound (decide_eq_true sameName) with
    ⟨x, front, back, others, named, whole, _⟩
  have isInRound : x ∈ atRound (k + 1) done := by simp [whole]
  rcases mem_atRound isInRound with ⟨d, isDone, needsMore, isAfter⟩
  rw [quantum_succ] at needsMore
  have represents := sliced.represents
  rw [whole, List.append_assoc, List.cons_append] at represents
  rcases represents.delete sliced.load_task (of_decide_eq_true named)
    (fun x inFront same => others x inFront (decide_eq_true same)) with ⟨after, deleted, unlinks⟩
  rw [← List.cons_append, ← List.append_assoc, ← whole, sliced.head] at deleted
  rw [if_pos ended, deleted] at turn
  refine ⟨_, d, turn, isDone, needsMore, ?_⟩
  show after.log = _
  rw [unlinks.log, sliced.log, isAfter]
  rfl

/-- What an entry of `done` has got by then. -/
theorem received_at (distinct : (entries.map Entry.task).Nodup) (split : entries = done ++ rest)
    (isDone : d ∈ done) (needs : quantum * (k + 1) < d.burst) :
    received (some d.task) (calls (logAt entries k done)) = quantum * (k + 1) := by
  have member : d ∈ entries := by simp [split, isDone]
  have positive : 0 < d.burst := by
    simp only [quantum] at needs
    omega
  have rounds := received_rounds k distinct member positive
  have doneDistinct : (done.map Entry.task).Nodup := by
    rw [split, List.map_append] at distinct
    exact distinct.of_append_left
  have turns := received_turns k doneDistinct isDone
  have whole : logAt entries k done = logAt entries k [] ++ done.flatMap (turnLog k) := by
    rw [logAt, logAt, List.flatMap_nil, List.append_nil]
  rw [whole, calls_append, received_append, rounds, turns, share]
  simp only [quantum] at needs ⊢
  omega

/-- A task that is unlinked does not run again in a log that conserves the time. -/
theorem ConservesTime.received_prefix {before later : List Event}
    (conserves : ConservesTime adds log) (split : log = before ++ .unlink t :: later) :
    received t (calls log) = received t (calls before) := by
  have linked := conserves.linked
  rw [split, List.pairwise_append, List.pairwise_cons] at linked
  have noMore : received t (calls later) = 0 := by
    apply received_eq_zero
    intro call member same
    rcases List.mem_filterMap.mp member with ⟨event, isLater, isCall⟩
    cases event with
    | run task slice =>
        cases isCall
        exact linked.2.1.1 _ isLater t slice rfl (by rw [← same])
    | unlink task => cases isCall
  have cut : calls (.unlink t :: later) = calls later := rfl
  rw [split, calls_append, received_append, cut, noMore, add_zero]

/-- When the loop ends and the time is conserved, every turn was right. -/
theorem allRight_of_conserves {final : Turns} (unserved : Unserved entries)
    (represents : Represents m entries) (logStart : m.log = [])
    (ends : Ends (fun fuel => takeTurns fuel (firstNode entries) m) final)
    (bursts : ∀ e ∈ entries, received (some e.task) (calls final.memory.log) = e.burst)
    (conserves : ConservesTime adds final.memory.log) : AllRight entries := by
  rcases ends with ⟨enough, ends⟩
  have isRight : ∀ {k done e rest next}, entries = done ++ e :: rest → quantum * (k : ℕ) < e.burst →
      TurnsReach ⟨firstNode entries, firstNode entries, m⟩ next →
        At m entries k done (e :: rest) next → Right k done e := by
    intro k done e rest next split needs reaches state
    by_contra wrong
    rcases state.wrong_turn split needs wrong with ⟨after, d, turn, isDone, needsMore, log⟩
    have later := takeTurns_log (reaches.tail ⟨state.isSome needs, turn⟩) (ends _ (Nat.le_refl _))
    rcases later with ⟨later, isFinal⟩
    rw [log, logStart, List.nil_append, List.append_assoc, List.singleton_append] at isFinal
    -- the entry unlinked by mistake has got `k + 1` quanta and gets nothing any more
    have noMore := conserves.received_prefix isFinal.symm
    have different : e.task ≠ d.task := by
      have distinct := represents.distinct
      rw [split, List.map_append, List.map_cons, List.nodup_append] at distinct
      exact fun same => distinct.2.2 d.task (List.mem_map_of_mem isDone) e.task
        List.mem_cons_self same.symm
    have otherRun : received (some d.task)
        (calls [.run (some e.task) (min quantum (e.burst - quantum * k))]) = 0 := by
      apply received_eq_zero
      intro call member same
      rw [List.mem_singleton.mp member] at same
      exact different (Option.some.inj same)
    rw [calls_append, received_append, otherRun, add_zero,
      received_at represents.distinct split isDone needsMore,
      bursts d (by simp [split, isDone])] at noMore
    omega
  have places := (unserved.begins represents).reaches isRight
  intro k done e rest split needs
  rcases places k done (e :: rest) split with ⟨next, reaches, state⟩
  exact isRight split needs reaches state

/-! ## When every turn is right -/

theorem pairwise_iff_splits {α : Type} {related : α → α → Prop} {list : List α} :
    list.Pairwise related ↔
      ∀ pre last post, list = pre ++ last :: post → ∀ earlier ∈ pre, related earlier last := by
  constructor
  · intro pairwise pre last post split earlier member
    rw [split, List.pairwise_append] at pairwise
    exact pairwise.2.2 earlier member last List.mem_cons_self
  · intro splits
    induction list using List.reverseRecOn with
    | nil => exact .nil
    | append_singleton list final inductionHypothesis =>
        rw [List.pairwise_append]
        refine ⟨?_, List.pairwise_singleton _ _, ?_⟩
        · apply inductionHypothesis
          intro pre last post split
          apply splits pre last (post ++ [final])
          rw [split, List.append_assoc, List.cons_append]
        · intro earlier member last isFinal
          rw [List.mem_singleton.mp isFinal]
          exact splits list final [] rfl earlier member

/-- Every turn is right when no entry needs more quanta than one of its name behind it. -/
theorem allRight_iff (unserved : Unserved entries) :
    AllRight entries ↔ entries.Pairwise fun d e =>
      d.name = e.name → (d.burst - 1) / quantum ≤ (e.burst - 1) / quantum := by
  rw [pairwise_iff_splits]
  constructor
  · intro right done e rest split d isDone same
    by_contra more
    -- the round in which the entry behind ends
    have positive := (unserved e (by simp [split])).1
    have lastRound : quantum * (((e.burst - 1) / quantum).toNat : Int) < e.burst ∧
        e.burst ≤ quantum * ((((e.burst - 1) / quantum).toNat : Int) + 1) ∧
        quantum * ((((e.burst - 1) / quantum).toNat : Int) + 1) < d.burst := by
      simp only [quantum] at more ⊢
      omega
    exact right _ done e rest split lastRound.1 lastRound.2.1 d isDone lastRound.2.2 same
  · intro quanta k done e rest split needs ended d isDone more same
    have notMore := quanta done e rest split d isDone same
    simp only [quantum] at needs ended more notMore
    omega

/-! ## `schedule_rr.c` -/

theorem conserves_iff_allRight (adds : List NewTask) (positive : ∀ new ∈ adds, 1 ≤ new.burst) :
    (∃ final, Ends (fun fuel => RoundRobin.schedule fuel (RoundRobin.addAll adds)) final ∧
      ConservesTime adds final.memory.log) ↔
    AllRight (entriesOf NewTask.burst adds.zipIdx) := by
  have added := RoundRobin.addAll_added adds
  have unserved := unserved_entriesOf (zipIdx_positive positive)
  constructor
  · rintro ⟨final, ends, conserves⟩
    have endsFrom : Ends (fun fuel => takeTurns fuel
        (firstNode (entriesOf NewTask.burst adds.zipIdx)) (RoundRobin.addAll adds).memory)
          final := by
      rw [← added.head]
      exact ends
    apply allRight_of_conserves unserved added.represents added.log endsFrom _ conserves
    intro e member
    rcases mem_entriesOf member with ⟨new, i, isAdded, isEntry⟩
    rw [isEntry]
    exact conserves.bursts i new (List.mem_zipIdx_iff_getElem?.mp isAdded)
  · intro right
    rcases takeTurns_ends unserved added.represents right with ⟨final, ends, turnsOver⟩
    rw [← added.head] at ends
    rcases exists_rounds (entriesOf NewTask.burst adds.zipIdx) with ⟨rounds, ended⟩
    refine ⟨final, ends, ?_⟩
    rw [turnsOver.log rounds ended, added.log, List.nil_append]
    exact conservesTime_rounds positive added.represents.distinct ended

/-- `schedule` ends and conserves the time exactly when, of two tasks with one name, the
one added later needs no more quanta. -/
theorem roundRobin_conserves_iff (adds : List NewTask) (positive : ∀ new ∈ adds, 1 ≤ new.burst) :
    (∃ final, Ends (fun fuel => RoundRobin.schedule fuel (RoundRobin.addAll adds)) final ∧
      ConservesTime adds final.memory.log) ↔
    adds.Pairwise fun earlier later => earlier.name = later.name →
      (later.burst - 1) / quantum ≤ (earlier.burst - 1) / quantum := by
  rw [conserves_iff_allRight adds positive,
    allRight_iff (unserved_entriesOf (zipIdx_positive positive))]
  have pairs := entriesOf_pairwise NewTask.burst adds fun first second =>
    first.name = second.name → (first.burst - 1) / quantum ≤ (second.burst - 1) / quantum
  constructor
  · intro pairwise
    exact (pairs.mp pairwise).imp fun quanta same => quanta same.symm
  · intro pairwise
    exact pairs.mpr (pairwise.imp fun quanta same => quanta same.symm)

theorem roundRobin_conserves_demo :
    ∃ final, Ends (fun fuel =>
        RoundRobin.schedule fuel (RoundRobin.addAll [⟨"A", 1, 15⟩, ⟨"A", 1, 12⟩])) final ∧
      ConservesTime [⟨"A", 1, 15⟩, ⟨"A", 1, 12⟩] final.memory.log :=
  (roundRobin_conserves_iff [⟨"A", 1, 15⟩, ⟨"A", 1, 12⟩] (by decide)).mpr (by decide)

/-- The end of the first task unlinks the second, which needs another quantum. -/
theorem roundRobin_loses_time : ¬∀ adds : List NewTask, (∀ new ∈ adds, 1 ≤ new.burst) →
    ∃ final, Ends (fun fuel => RoundRobin.schedule fuel (RoundRobin.addAll adds)) final ∧
      ConservesTime adds final.memory.log := by
  intro conserves
  have right := (conserves_iff_allRight [⟨"A", 1, 5⟩, ⟨"A", 1, 20⟩] (by decide)).mp
    (conserves _ (by decide))
  exact right 0 [_] _ [] rfl (by decide) (by decide) _ List.mem_cons_self (by decide) rfl

end OsProjects.Scheduling
