import OsProjects.Scheduling.CpuTime

/-!
Owns `schedule_priority_rr.c`: a round robin for every priority, from the highest to the
lowest.

The lists of the levels have no entry in common, so serving one leaves the others as they
are, and `next_node` is set to the head of the next list before it is read again.

Does not own the round robin of one level.
-/

namespace OsProjects.Scheduling

open OsProjects.C

variable {m : Memory} {adds : List NewTask} {new : NewTask}

/-- The tasks added with the priority, with the numbers of their calls of `add`. -/
def onLevel (adds : List NewTask) (p : ℕ) : List (NewTask × ℕ) :=
  adds.zipIdx.filter fun added => added.1.priority = p

/-- The entries of the list `taskList[p]`. -/
def levelEntries (adds : List NewTask) (p : ℕ) : List Entry :=
  entriesOf NewTask.burst (onLevel adds p)

/-- The priorities, from the highest to the lowest. -/
def priorities : List ℕ := (List.range' minPriority (maxPriority + 1 - minPriority)).reverse

/-- The calls of `run` in the given number of rounds over the tasks of one level. -/
def levelTrace (adds : List NewTask) (rounds p : ℕ) : List (Pointer × Int) :=
  (List.range rounds).flatMap (round (onLevel adds p))

/-- The priority is one of the levels. -/
def ValidPriority (new : NewTask) : Prop :=
  minPriority ≤ new.priority ∧ new.priority ≤ maxPriority

instance (new : NewTask) : Decidable (ValidPriority new) :=
  inferInstanceAs (Decidable (_ ∧ _))

/-- The priority is an index of `taskList`. -/
def InBounds (new : NewTask) : Prop :=
  0 ≤ new.priority ∧ new.priority ≤ maxPriority

theorem ValidPriority.inBounds (valid : ValidPriority new) : InBounds new :=
  ⟨(by decide : (0 : Int) ≤ minPriority).trans valid.1, valid.2⟩

/-! ## The levels -/

theorem mem_onLevel {p i : ℕ} :
    (new, i) ∈ onLevel adds p ↔ adds[i]? = some new ∧ new.priority = p := by
  unfold onLevel
  rw [List.mem_filter, List.mem_zipIdx_iff_getElem?, decide_eq_true_eq]

theorem onLevel_append (adds : List NewTask) (new : NewTask) (p : ℕ) :
    onLevel (adds ++ [new]) p =
      if new.priority = p then onLevel adds p ++ [(new, adds.length)] else onLevel adds p := by
  unfold onLevel
  rw [List.zipIdx_append, List.zipIdx_singleton, List.filter_append, Nat.zero_add]
  by_cases same : new.priority = p
  · simp [same]
  · simp [same]

/-- The entries of different levels are apart. -/
theorem levelEntries_apart {p q : ℕ} (different : p ≠ q) :
    Apart (levelEntries adds p) (levelEntries adds q) := by
  intro e inFirst d inSecond
  rcases mem_entriesOf inFirst with ⟨new, i, isFirst, isEntry⟩
  rcases mem_entriesOf inSecond with ⟨other, j, isSecond, isOther⟩
  rcases mem_onLevel.mp isFirst with ⟨added, level⟩
  rcases mem_onLevel.mp isSecond with ⟨addedToo, levelToo⟩
  have apart : j ≠ i := by
    intro same
    rw [same, added] at addedToo
    rw [← Option.some.inj addedToo, level] at levelToo
    exact different (Int.ofNat.inj levelToo)
  rw [isEntry, isOther]
  exact ⟨apart, apart⟩

/-! ## Adding tasks -/

/-- The lists of all levels. -/
structure LevelsAdded (adds : List NewTask) (s : PriorityRoundRobin.Levels) : Prop where
  represents : ∀ p : Fin (maxPriority + 1), Represents s.memory (levelEntries adds p)
  heads : ∀ p : Fin (maxPriority + 1), s.taskList p = firstNode (levelEntries adds p)
  nodes : s.memory.nodes.fresh = adds.length
  tasks : s.memory.tasks.fresh = adds.length
  log : s.memory.log = []

namespace PriorityRoundRobin

/-- The calls of `add`, in order. -/
def addAll (adds : List NewTask) : Outcome Levels := adds.foldlM add initial

theorem added_nil : LevelsAdded [] initial := by
  constructor
  · intro p
    exact represents_nil _
  · intro p
    rfl
  · rfl
  · rfl
  · rfl

theorem added_inBounds {s : Levels} (added : LevelsAdded adds s) (inBounds : InBounds new) :
    ∃ after, add s new = .ok after ∧ LevelsAdded (adds ++ [new]) after := by
  obtain ⟨p, isLevel⟩ := Int.eq_ofNat_of_zero_le inBounds.1
  have below : p < maxPriority + 1 := by
    have upper := inBounds.2
    omega
  have newEntry : s.memory.newEntry new new.burst =
      ⟨adds.length, adds.length, ⟨new.name, new.priority, new.burst, new.burst⟩⟩ := by
    rw [Memory.newEntry, added.nodes, added.tasks]
  have own : levelEntries (adds ++ [new]) p =
      s.memory.newEntry new new.burst :: levelEntries adds p := by
    rw [levelEntries, onLevel_append, if_pos isLevel, entriesOf_append, newEntry]
    rfl
  have other : ∀ q : ℕ, q ≠ p → levelEntries (adds ++ [new]) q = levelEntries adds q := by
    intro q different
    have notLevel : new.priority ≠ q := by
      rw [isLevel]
      exact fun same => different (Int.ofNat.inj same).symm
    rw [levelEntries, onLevel_append, if_neg notLevel, levelEntries]
  have head := added.heads ⟨p, below⟩
  have step : add s new = .ok ⟨Function.update s.taskList ⟨p, below⟩
      (some (s.memory.newEntry new new.burst).node), s.nextNode,
        s.memory.added (firstNode (levelEntries adds p)) new new.burst⟩ := by
    unfold add
    rw [isLevel]
    simp only [read_natCast _ below, ok_bind, head, addTo_eq, write_natCast _ below, pure_eq_ok]
  refine ⟨_, step, ?_⟩
  constructor
  · intro q
    by_cases same : q = ⟨p, below⟩
    · rw [same, own]
      exact (added.represents ⟨p, below⟩).added new new.burst
    · rw [other q fun value => same (Fin.ext value)]
      exact (added.represents q).added_other _ new new.burst
  · intro q
    by_cases same : q = ⟨p, below⟩
    · rw [same, own]
      exact Function.update_self _ _ _
    · rw [other q fun value => same (Fin.ext value), ← added.heads q]
      exact Function.update_of_ne same _ _
  · show s.memory.nodes.fresh + 1 = _
    rw [added.nodes, List.length_append, List.length_singleton]
  · show s.memory.tasks.fresh + 1 = _
    rw [added.tasks, List.length_append, List.length_singleton]
  · exact added.log

theorem addAll_inBounds (inBounds : ∀ new ∈ adds, InBounds new) :
    ∃ ready, addAll adds = .ok ready ∧ LevelsAdded adds ready := by
  induction adds using List.reverseRecOn with
  | nil => exact ⟨initial, rfl, added_nil⟩
  | append_singleton adds new inductionHypothesis =>
      rcases inductionHypothesis fun new member => inBounds new (List.mem_append_left _ member) with
        ⟨before, addsBefore, added⟩
      rcases added_inBounds added (inBounds new (by simp)) with ⟨ready, step, addedToo⟩
      refine ⟨ready, ?_, addedToo⟩
      unfold addAll at addsBefore ⊢
      rw [List.foldlM_append, addsBefore, ok_bind, List.foldlM_cons, step]
      rfl

/-- `add` only accepts a priority that is an index. -/
theorem add_inBounds {s after : Levels} (step : add s new = .ok after) : InBounds new := by
  by_contra outside
  have failed : read s.taskList new.priority = .error .outOfBounds := by
    apply dif_neg
    rintro ⟨lower, upper⟩
    exact outside ⟨lower, by omega⟩
  unfold add at step
  rw [failed] at step
  cases step

theorem inBounds_of_addAll {ready : Levels} (adding : addAll adds = .ok ready) :
    ∀ new ∈ adds, InBounds new := by
  induction adds using List.reverseRecOn generalizing ready with
  | nil => simp
  | append_singleton adds new inductionHypothesis =>
      unfold addAll at adding
      rw [List.foldlM_append] at adding
      cases before : adds.foldlM add initial with
      | error fault =>
          rw [before] at adding
          cases adding
      | ok middle =>
          rw [before, ok_bind, List.foldlM_cons] at adding
          cases step : add middle new with
          | error fault =>
              rw [step] at adding
              cases adding
          | ok after =>
              intro other member
              obtain earlier | isNew := List.mem_append.mp member
              · exact inductionHypothesis before other earlier
              · exact List.mem_singleton.mp isNew ▸ add_inBounds step

theorem addAll_added (valid : ∀ new ∈ adds, ValidPriority new) :
    ∃ ready, addAll adds = .ok ready ∧ LevelsAdded adds ready :=
  addAll_inBounds fun new member => (valid new member).inBounds

/-! ## Serving the levels -/

/-- The lists of the levels up to `p` are as they were when the tasks had been added. -/
structure LevelsReady (adds : List NewTask) (p : ℕ) (s : Levels) : Prop where
  represents : ∀ q : Fin (maxPriority + 1), q.val ≤ p → Represents s.memory (levelEntries adds q)
  heads : ∀ q : Fin (maxPriority + 1), q.val ≤ p → s.taskList q = firstNode (levelEntries adds q)

/-- One iteration serves one level and leaves those below it as they were. -/
theorem levelBody_ends {p : ℕ} {s : Levels} (ready : LevelsReady adds (p + 1) s)
    (below : p + 1 < maxPriority + 1) (unserved : Unserved (levelEntries adds (p + 1)))
    (right : AllRight (levelEntries adds (p + 1))) :
    ∃ after, Ends (fun fuel => levelBody fuel (p + 1, s)) (.next (p, after)) ∧
      LevelsReady adds p after ∧
      ∀ rounds : ℕ, (∀ e ∈ levelEntries adds (p + 1), e.burst ≤ quantum * rounds) →
        after.memory.log = s.memory.log ++ logAt (levelEntries adds (p + 1)) rounds [] := by
  have represents := ready.represents ⟨p + 1, below⟩ (Nat.le_refl _)
  have head := ready.heads ⟨p + 1, below⟩ (Nat.le_refl _)
  rcases takeTurns_ends unserved represents right with ⟨final, ⟨enough, ends⟩, turnsOver⟩
  refine ⟨⟨Function.update s.taskList ⟨p + 1, below⟩ final.taskList, final.nextNode,
    final.memory⟩, ⟨enough, fun fuel more => ?_⟩, ?_, turnsOver.log⟩
  · have level := ends fuel more
    unfold levelBody
    simp only [read_natCast _ below, ok_bind, head, level, write_natCast _ below, pure_eq_ok,
      Nat.add_sub_cancel]
  · constructor
    · intro q lower
      have different : p + 1 ≠ q.val := Nat.ne_of_gt (Nat.lt_succ_of_le lower)
      exact turnsOver.kept (ready.represents q (Nat.le_succ_of_le lower))
        (levelEntries_apart different)
    · intro q lower
      have different : q ≠ ⟨p + 1, below⟩ := by
        intro same
        rw [same] at lower
        exact Nat.not_succ_le_self p lower
      rw [← ready.heads q (Nat.le_succ_of_le lower)]
      exact Function.update_of_ne different _ _

/-- The loop serves the levels one after the other. -/
theorem levelLoop_ends (unserved : ∀ p, Unserved (levelEntries adds p))
    (right : ∀ p, AllRight (levelEntries adds p)) (p : ℕ) (below : p < maxPriority + 1)
    {s : Levels} (ready : LevelsReady adds p s) :
    ∃ final, Ends (fun fuel => whileLoop (fun (place : ℕ × Levels) => minPriority ≤ place.1)
        (levelBody fuel) p (p, s)) (.next (0, final)) ∧
      ∀ rounds : ℕ, (∀ p, ∀ e ∈ levelEntries adds p, e.burst ≤ quantum * rounds) →
        final.memory.log = s.memory.log ++ (List.range' minPriority p).reverse.flatMap fun p =>
          logAt (levelEntries adds p) rounds [] := by
  induction p generalizing s with
  | zero =>
      refine ⟨s, ⟨0, fun _ _ => rfl⟩, fun rounds _ => ?_⟩
      exact (List.append_nil _).symm
  | succ p inductionHypothesis =>
      rcases levelBody_ends ready below (unserved (p + 1)) (right (p + 1)) with
        ⟨after, ⟨enoughHere, level⟩, readyBelow, levelLog⟩
      rcases inductionHypothesis (Nat.lt_of_succ_lt below) readyBelow with
        ⟨final, ⟨enoughBelow, lower⟩, lowerLog⟩
      refine ⟨final, ⟨max enoughHere enoughBelow, fun fuel more => ?_⟩, fun rounds ended => ?_⟩
      · have here : levelBody fuel (p + 1, s) = .ok (.next (p, after)) :=
          level fuel ((Nat.le_max_left _ _).trans more)
        have goesOn : decide (minPriority ≤ p + 1) = true :=
          decide_eq_true (Nat.succ_le_succ (Nat.zero_le p))
        show whileLoop _ (levelBody fuel) (p + 1) (p + 1, s) = _
        rw [whileLoop, if_pos goesOn, here, ok_bind]
        exact lower fuel ((Nat.le_max_right _ _).trans more)
      · have highest : (List.range' minPriority (p + 1)).reverse =
            (p + 1) :: (List.range' minPriority p).reverse := by
          rw [List.range'_concat, List.reverse_append, minPriority, Nat.one_mul, Nat.add_comm 1 p]
          rfl
        rw [lowerLog rounds ended, levelLog rounds (ended (p + 1)), highest, List.flatMap_cons,
          List.append_assoc]

end PriorityRoundRobin

/-! ## The trace -/

theorem levelTrace_eq_calls (adds : List NewTask) (rounds p : ℕ) :
    levelTrace adds rounds p = calls (logAt (levelEntries adds p) rounds []) :=
  (calls_logAt NewTask.burst (onLevel adds p) rounds).symm

theorem calls_levels (adds : List NewTask) (rounds : ℕ) :
    calls (priorities.flatMap fun p => logAt (levelEntries adds p) rounds []) =
      priorities.flatMap (levelTrace adds rounds) := by
  rw [calls, List.filterMap_flatMap]
  apply List.flatMap_congr
  intro p _
  exact (levelTrace_eq_calls adds rounds p).symm

/-- Only the tasks of the level run on it. -/
theorem mem_levelTrace {rounds p : ℕ} {call : Pointer × Int}
    (member : call ∈ levelTrace adds rounds p) :
    ∃ (i : ℕ) (new : NewTask), call.1 = some i ∧ adds[i]? = some new ∧ new.priority = p := by
  rcases List.mem_flatMap.mp member with ⟨k, _, inRound⟩
  rcases List.mem_map.mp inRound with ⟨⟨new, i⟩, served, isCall⟩
  have isOnLevel := List.mem_reverse.mp (List.mem_of_mem_filter served)
  rcases mem_onLevel.mp isOnLevel with ⟨added, level⟩
  exact ⟨i, new, by rw [← isCall], added, level⟩

theorem mem_priorities {p : ℕ} : p ∈ priorities ↔ minPriority ≤ p ∧ p ≤ maxPriority := by
  unfold priorities
  rw [List.mem_reverse, List.mem_range'_1]
  simp only [minPriority, maxPriority]
  omega

theorem priorities_descend : priorities.Pairwise fun p q => q < p := by
  unfold priorities
  rw [List.pairwise_reverse]
  exact List.pairwise_lt_range'

theorem ValidPriority.level (valid : ValidPriority new) :
    ∃ p : ℕ, new.priority = p ∧ p ∈ priorities := by
  rcases valid with ⟨lower, upper⟩
  refine ⟨new.priority.toNat, ?_, ?_⟩
  · simp only [minPriority] at lower
    omega
  · rw [mem_priorities]
    simp only [minPriority, maxPriority] at lower upper ⊢
    omega

/-- Over all levels a task receives its burst. -/
theorem received_levels {rounds i : ℕ} (valid : ValidPriority new) (added : adds[i]? = some new)
    (distinct : ∀ p ∈ priorities, ((levelEntries adds p).map Entry.task).Nodup)
    (positive : 1 ≤ new.burst) (ended : new.burst ≤ quantum * rounds) :
    received (some i) (priorities.flatMap (levelTrace adds rounds)) = new.burst := by
  rcases valid.level with ⟨p, level, isPriority⟩
  have others : ∀ q ∈ priorities, q ≠ p → received (some i) (levelTrace adds rounds q) = 0 := by
    intro q _ different
    apply received_eq_zero
    intro call member same
    rcases mem_levelTrace member with ⟨j, other, isCall, addedToo, levelToo⟩
    rw [isCall] at same
    rw [Option.some.inj same, added] at addedToo
    rw [← Option.some.inj addedToo, level] at levelToo
    exact different (Int.ofNat.inj levelToo).symm
  have isEntry : ⟨i, i, ⟨new.name, new.priority, new.burst, new.burst⟩⟩ ∈ levelEntries adds p := by
    unfold levelEntries entriesOf
    rw [List.mem_reverse, List.mem_map]
    exact ⟨(new, i), mem_onLevel.mpr ⟨added, level⟩, rfl⟩
  have own := received_rounds rounds (distinct p isPriority) isEntry positive
  have different : priorities.Nodup := priorities_descend.imp fun lower => Nat.ne_of_gt lower
  rw [received_flatMap different isPriority others, levelTrace_eq_calls]
  exact own.trans (min_eq_left ended)

/-- The task of the later call has no higher priority than that of the earlier one. -/
def NotHigher (adds : List NewTask) (earlier later : Pointer × Int) : Prop :=
  ∀ (i j : ℕ) first second, earlier.1 = some i → later.1 = some j →
    adds[i]? = some first → adds[j]? = some second → second.priority ≤ first.priority

theorem levels_descend (adds : List NewTask) (rounds : ℕ) :
    (priorities.flatMap (levelTrace adds rounds)).Pairwise (NotHigher adds) := by
  have levels : ∀ {p q : ℕ} {earlier later}, q ≤ p → earlier ∈ levelTrace adds rounds p →
      later ∈ levelTrace adds rounds q → NotHigher adds earlier later := by
    intro p q earlier later lower isEarlier isLater i j first second isFirst isSecond added addedToo
    rcases mem_levelTrace isEarlier with ⟨i', first', isFirst', added', level⟩
    rcases mem_levelTrace isLater with ⟨j', second', isSecond', addedToo', levelToo⟩
    rw [isFirst] at isFirst'
    rw [isSecond] at isSecond'
    rw [← Option.some.inj isFirst', added] at added'
    rw [← Option.some.inj isSecond', addedToo] at addedToo'
    rw [Option.some.inj added', Option.some.inj addedToo', level, levelToo]
    exact Int.ofNat_le.mpr lower
  rw [List.pairwise_flatMap]
  constructor
  · intro p _
    exact List.pairwise_of_forall_mem_list fun earlier isEarlier later isLater =>
      levels (Nat.le_refl p) isEarlier isLater
  · apply priorities_descend.imp
    intro p q lower earlier isEarlier later isLater
    exact levels (Nat.le_of_lt lower) isEarlier isLater

/-- When a task runs, all tasks of higher priorities have received their bursts. -/
def HigherFirst (adds : List NewTask) (trace : List (Pointer × Int)) : Prop :=
  ∀ before later (i : ℕ) slice, trace = before ++ (some i, slice) :: later →
    ∀ (j : ℕ) new higher, adds[i]? = some new → adds[j]? = some higher →
      new.priority < higher.priority → received (some j) before = higher.burst

theorem higherFirst_of_descending {trace : List (Pointer × Int)}
    (descends : trace.Pairwise (NotHigher adds))
    (bursts : ∀ (i : ℕ) new, adds[i]? = some new → received (some i) trace = new.burst) :
    HigherFirst adds trace := by
  intro before later i slice split j new higher added addedToo lower
  rw [split, List.pairwise_append, List.pairwise_cons] at descends
  have noMore : received (some j) ((some i, slice) :: later) = 0 := by
    apply received_eq_zero
    intro call member same
    rcases List.mem_cons.mp member with isHere | isLater
    · rw [isHere] at same
      rw [Option.some.inj same, addedToo] at added
      rw [Option.some.inj added] at lower
      exact absurd lower (Int.lt_irrefl _)
    · have notHigher := descends.2.1.1 call isLater i j new higher rfl same added addedToo
      exact absurd lower (Int.not_lt.mpr notHigher)
  have all := bursts j higher addedToo
  rwa [split, received_append, noMore, add_zero] at all

/-! ## `schedule_priority_rr.c` -/

/-- No two tasks of one level have one name. -/
theorem levels_allRight (names : adds.Pairwise fun earlier later =>
    earlier.priority = later.priority → earlier.name ≠ later.name) (p : ℕ) :
    AllRight (levelEntries adds p) := by
  apply allRight_of_names
  unfold levelEntries
  rw [names_entriesOf, List.nodup_reverse, List.Nodup, List.pairwise_map]
  rw [← List.zipIdx_map_fst 0 adds, List.pairwise_map] at names
  apply (names.filter _).imp_of_mem
  intro earlier later isEarlier isLater different
  rcases mem_onLevel.mp isEarlier with ⟨_, level⟩
  rcases mem_onLevel.mp isLater with ⟨_, levelToo⟩
  exact different (level.trans levelToo.symm)

theorem levels_unserved (positive : ∀ new ∈ adds, 1 ≤ new.burst) (p : ℕ) :
    Unserved (levelEntries adds p) := by
  apply unserved_entriesOf
  intro added isOnLevel
  exact zipIdx_positive positive added (List.mem_of_mem_filter isOnLevel)

theorem levels_bursts {rounds : ℕ} (ended : ∀ new ∈ adds, new.burst ≤ quantum * rounds) (p : ℕ) :
    ∀ e ∈ levelEntries adds p, e.burst ≤ quantum * rounds := by
  apply bursts_entriesOf
  intro added isOnLevel
  exact ended _ (List.fst_mem_of_mem_zipIdx (List.mem_of_mem_filter isOnLevel))

/-- As many rounds as the longest task needs. -/
theorem exists_rounds_of_adds (adds : List NewTask) :
    ∃ rounds : ℕ, ∀ new ∈ adds, new.burst ≤ quantum * rounds := by
  rcases exists_rounds (entriesOf NewTask.burst adds.zipIdx) with ⟨rounds, ended⟩
  refine ⟨rounds, fun new member => ?_⟩
  rcases List.getElem?_of_mem member with ⟨i, added⟩
  exact ended _ (entry_of_add NewTask.burst added)

/-- Once the tasks have been added, with bursts of at least 1 and different names on each
level, `schedule` ends, and its calls of `run` are those of the levels. -/
theorem schedule_levels {ready : PriorityRoundRobin.Levels} (added : LevelsAdded adds ready)
    (positive : ∀ new ∈ adds, 1 ≤ new.burst)
    (names : adds.Pairwise fun earlier later =>
      earlier.priority = later.priority → earlier.name ≠ later.name) :
    ∃ final, Ends (fun fuel => PriorityRoundRobin.schedule fuel ready) final ∧
      ∀ rounds : ℕ, (∀ new ∈ adds, new.burst ≤ quantum * rounds) →
        calls final.memory.log = priorities.flatMap (levelTrace adds rounds) := by
  have startsReady : PriorityRoundRobin.LevelsReady adds maxPriority ready :=
    ⟨fun p _ => added.represents p, fun p _ => added.heads p⟩
  rcases PriorityRoundRobin.levelLoop_ends (levels_unserved positive) (levels_allRight names)
    maxPriority (Nat.lt_succ_self _) startsReady with ⟨final, loopEnds, log⟩
  refine ⟨final, loopEnds.bind rfl, ?_⟩
  intro rounds ended
  rw [log rounds (levels_bursts ended), added.log, List.nil_append]
  exact calls_levels adds rounds

/-- On the trace of the levels a task of one of them receives its burst. -/
theorem received_trace {ready final : PriorityRoundRobin.Levels} {i : ℕ}
    (added : LevelsAdded adds ready) (positive : ∀ new ∈ adds, 1 ≤ new.burst)
    (trace : ∀ rounds : ℕ, (∀ new ∈ adds, new.burst ≤ quantum * rounds) →
      calls final.memory.log = priorities.flatMap (levelTrace adds rounds))
    (isAdded : adds[i]? = some new) (valid : ValidPriority new) :
    received (some i) (calls final.memory.log) = new.burst := by
  rcases exists_rounds_of_adds adds with ⟨rounds, ended⟩
  have member := List.mem_of_getElem? isAdded
  rw [trace rounds ended]
  apply received_levels valid isAdded _ (positive new member) (ended new member)
  intro p isPriority
  exact (added.represents ⟨p, Nat.lt_succ_of_le (mem_priorities.mp isPriority).2⟩).distinct

/-- With priorities of the levels, bursts of at least 1 and different names on each level,
`schedule` ends, and its calls of `run` are those of the rounds of one level after the
other, the highest priority first. So no task runs while one of a higher priority is
unfinished, and every task receives its burst. -/
theorem priorityRoundRobin_levels (adds : List NewTask) (valid : ∀ new ∈ adds, ValidPriority new)
    (positive : ∀ new ∈ adds, 1 ≤ new.burst)
    (names : adds.Pairwise fun earlier later =>
      earlier.priority = later.priority → earlier.name ≠ later.name) :
    ∃ ready final, PriorityRoundRobin.addAll adds = .ok ready ∧
      Ends (fun fuel => PriorityRoundRobin.schedule fuel ready) final ∧
      (∀ rounds : ℕ, (∀ new ∈ adds, new.burst ≤ quantum * rounds) →
        calls final.memory.log = priorities.flatMap (levelTrace adds rounds)) ∧
      HigherFirst adds (calls final.memory.log) ∧
      ∀ (i : ℕ) new, adds[i]? = some new →
        received (some i) (calls final.memory.log) = new.burst := by
  rcases PriorityRoundRobin.addAll_added valid with ⟨ready, adding, added⟩
  rcases schedule_levels added positive names with ⟨final, ends, trace⟩
  have bursts : ∀ (i : ℕ) new, adds[i]? = some new →
      received (some i) (calls final.memory.log) = new.burst := by
    intro i new isAdded
    exact received_trace added positive trace isAdded (valid new (List.mem_of_getElem? isAdded))
  have descends : (calls final.memory.log).Pairwise (NotHigher adds) := by
    rcases exists_rounds_of_adds adds with ⟨rounds, ended⟩
    rw [trace rounds ended]
    exact levels_descend adds rounds
  exact ⟨ready, final, adding, ends, trace, higherFirst_of_descending descends bursts, bursts⟩

theorem priorityRoundRobin_levels_demo :
    ∃ ready final, PriorityRoundRobin.addAll [⟨"A", 1, 15⟩, ⟨"A", 2, 12⟩, ⟨"B", 1, 5⟩] = .ok ready ∧
      Ends (fun fuel => PriorityRoundRobin.schedule fuel ready) final ∧
      calls final.memory.log =
        [(some 1, 10), (some 1, 2), (some 2, 5), (some 0, 10), (some 0, 5)] := by
  rcases priorityRoundRobin_levels [⟨"A", 1, 15⟩, ⟨"A", 2, 12⟩, ⟨"B", 1, 5⟩] (by decide)
    (by decide) (by decide) with ⟨ready, final, adding, ends, trace, _⟩
  exact ⟨ready, final, adding, ends, trace 2 (by decide)⟩

end OsProjects.Scheduling
