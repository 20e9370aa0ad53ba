import OsProjects.Scheduling.CpuTime
import OsProjects.Scheduling.ServiceOrder
import OsProjects.Theory.Turnaround

/-!
Owns the turnaround times of the schedulers: how much CPU time passes until a task has had its
last slice.

SJF has the smallest total of all, preemptive schedules included. Under round robin a task of
`k` quanta is done when it and the tasks served before it in a round have had `k` quanta, and
the others `k - 1`, as far as they need them.

Does not own which slices there are (`Rounds`, `ServiceOrder`).
-/

namespace OsProjects.Scheduling

open OsProjects.C
open OsProjects.Theory

variable {adds : List NewTask} {new : NewTask} {trace : List (Pointer × Int)} {i k : ℕ}

/-- The tasks added. -/
def tasksOf (adds : List NewTask) : Finset Pointer := (Finset.range adds.length).image some

/-- The trace gives every task its burst, in slices that are not negative; it may leave the
CPU to others. -/
structure GivesBursts (adds : List NewTask) (trace : List (Pointer × Int)) : Prop where
  slices : ∀ call ∈ trace, 0 ≤ call.2
  bursts : ∀ (i : ℕ) new, adds[i]? = some new → timeOf (some i) trace = new.burst

theorem mem_tasksOf {task : Pointer} :
    task ∈ tasksOf adds ↔ ∃ i new, adds[i]? = some new ∧ some i = task := by
  simp [tasksOf, List.getElem?_eq_some_iff]

/-! ## Shortest job first -/

/-- The calls of `run` that serve every task once and whole. -/
def wholeCalls (adds : List NewTask) : List (Pointer × Int) := adds.zipIdx.map wholeCall

theorem wholeCalls_owners : ∀ call ∈ wholeCalls adds, call.1 ∈ tasksOf adds := by
  intro call member
  rcases List.mem_map.mp member with ⟨⟨new, i⟩, isAdded, rfl⟩
  exact mem_tasksOf.mpr ⟨i, new, List.mem_zipIdx_iff_getElem?.mp isAdded, rfl⟩

theorem wholeCalls_distinct (adds : List NewTask) : ((wholeCalls adds).map Prod.fst).Nodup := by
  have indices : (adds.zipIdx.map Prod.snd).Nodup := by
    rw [List.zipIdx_map_snd]
    exact List.nodup_range'
  rw [wholeCalls, List.map_map]
  rw [show Prod.fst ∘ wholeCall = some ∘ Prod.snd from rfl, ← List.map_map]
  exact indices.map (Option.some_injective ℕ)

/-- A trace of whole calls gives every task its burst. -/
theorem givesBursts_of_perm (nonneg : ∀ new ∈ adds, 0 ≤ new.burst)
    (whole : trace.Perm (wholeCalls adds)) : GivesBursts adds trace := by
  constructor
  · intro call member
    rcases List.mem_map.mp (whole.mem_iff.mp member) with ⟨⟨new, i⟩, isAdded, rfl⟩
    exact nonneg new (List.fst_mem_of_mem_zipIdx isAdded)
  · intro i new isAdded
    rw [timeOf_perm whole]
    exact timeOf_eq (wholeCalls_distinct adds)
      (List.mem_map.mpr ⟨(new, i), List.mem_zipIdx_iff_getElem?.mpr isAdded, rfl⟩)

/-- The whole calls in the order of their bursts. -/
theorem shortestFirst_mergeSort (adds : List NewTask) :
    ShortestFirst ((adds.zipIdx.mergeSort fun first second =>
      first.1.burst ≤ second.1.burst).map wholeCall) := by
  have ascending : (adds.zipIdx.mergeSort fun first second =>
      decide (first.1.burst ≤ second.1.burst)).Pairwise fun first second =>
        first.1.burst ≤ second.1.burst := by
    refine (List.pairwise_mergeSort ?_ ?_ _).imp of_decide_eq_true
    · intro a b c
      simp only [decide_eq_true_eq]
      omega
    · intro a b
      simp only [Bool.or_eq_true, decide_eq_true_eq]
      omega
  have distinct : (((adds.zipIdx.mergeSort fun first second =>
      decide (first.1.burst ≤ second.1.burst)).map wholeCall).map Prod.fst).Nodup :=
    (((List.mergeSort_perm _ _).map wholeCall).map Prod.fst).nodup_iff.mpr
      (wholeCalls_distinct adds)
  rw [List.map_map, List.Nodup, List.pairwise_map] at distinct
  rw [ShortestFirst, List.pairwise_map]
  exact distinct.and ascending

/-- With different names, a scheduler that picks the last of the best tasks gives every task
its burst. -/
theorem schedule_givesBursts {replaces : Task → Task → Bool}
    {pickNextTask : State → Outcome Pointer} (ranks : Ranks replaces)
    (picks : Picks pickNextTask replaces)
    (names : adds.Pairwise fun earlier later => earlier.name ≠ later.name)
    (nonneg : ∀ new ∈ adds, 0 ≤ new.burst) :
    ∃ final, Ends (fun fuel => scheduleWith pickNextTask fuel (addAll adds)) final ∧
      GivesBursts adds (calls final.memory.log) := by
  obtain ⟨final, ends, called⟩ := schedule_stable ranks picks names
  refine ⟨final, ends, givesBursts_of_perm nonneg ?_⟩
  rw [called]
  exact (List.mergeSort_perm _ _).map wholeCall

theorem mem_calls {log : List Event} {task : Pointer} {slice : Int}
    (member : (task, slice) ∈ calls log) : .run task slice ∈ log := by
  rcases List.mem_filterMap.mp member with ⟨event, isEvent, called⟩
  cases event with
  | run other length =>
      cases called
      exact isEvent
  | unlink other => cases called

theorem ConservesTime.givesBursts {log : List Event} (conserves : ConservesTime adds log) :
    GivesBursts adds (calls log) where
  slices := fun (task, slice) member =>
    Int.le_of_lt (conserves.slices task slice (mem_calls member)).1
  bursts := conserves.bursts

theorem mem_round {added : List (NewTask × ℕ)} {call : Pointer × Int}
    (member : call ∈ round added k) :
    ∃ a ∈ added, quantum * k < a.1.burst ∧
      call = (some a.2, min quantum (a.1.burst - quantum * k)) := by
  rcases List.mem_map.mp member with ⟨a, filtered, rfl⟩
  rcases List.mem_filter.mp filtered with ⟨isAdded, needs⟩
  exact ⟨a, List.mem_reverse.mp isAdded, of_decide_eq_true needs, rfl⟩

theorem round_slices {added : List (NewTask × ℕ)} {call : Pointer × Int}
    (member : call ∈ round added k) : 0 ≤ call.2 := by
  obtain ⟨a, _, needs, rfl⟩ := mem_round member
  simp only [quantum] at needs ⊢
  omega

/-- With different names, round robin gives every task its burst. -/
theorem roundRobin_givesBursts
    (names : adds.Pairwise fun earlier later => earlier.name ≠ later.name)
    (positive : ∀ new ∈ adds, 1 ≤ new.burst) :
    ∃ final, Ends (fun fuel => RoundRobin.schedule fuel (RoundRobin.addAll adds)) final ∧
      GivesBursts adds (calls final.memory.log) := by
  have right : AllRight (entriesOf NewTask.burst adds.zipIdx) := by
    apply (allRight_iff (unserved_entriesOf (zipIdx_positive positive))).mpr
    apply (entriesOf_pairwise NewTask.burst adds fun first second =>
      first.name = second.name → (first.burst - 1) / quantum ≤ (second.burst - 1) / quantum).mpr
    exact names.imp fun different same => absurd same.symm different
  obtain ⟨final, ends, conserves⟩ := (conserves_iff_allRight adds positive).mpr right
  exact ⟨final, ends, conserves.givesBursts⟩

/-- With different names and priorities that are levels, so does round robin by priority. -/
theorem priorityRoundRobin_givesBursts (valid : ∀ new ∈ adds, ValidPriority new)
    (names : adds.Pairwise fun earlier later => earlier.name ≠ later.name)
    (positive : ∀ new ∈ adds, 1 ≤ new.burst) :
    ∃ ready final, PriorityRoundRobin.addAll adds = .ok ready ∧
      Ends (fun fuel => PriorityRoundRobin.schedule fuel ready) final ∧
      GivesBursts adds (calls final.memory.log) := by
  obtain ⟨ready, adding, added⟩ := PriorityRoundRobin.addAll_added valid
  have onLevels : adds.Pairwise fun earlier later =>
      earlier.priority = later.priority → earlier.name ≠ later.name := by
    apply names.imp
    intro earlier later different _
    exact different
  obtain ⟨final, ends, trace⟩ := schedule_levels added positive onLevels
  refine ⟨ready, final, adding, ends, ?_, ?_⟩
  · obtain ⟨rounds, ended⟩ := exists_rounds_of_adds adds
    rw [trace rounds ended]
    intro call member
    rcases List.mem_flatMap.mp member with ⟨p, _, onLevel⟩
    rcases List.mem_flatMap.mp onLevel with ⟨k, _, inRound⟩
    exact round_slices inRound
  · intro i new isAdded
    exact received_trace added positive trace isAdded (valid new (List.mem_of_getElem? isAdded))

/-- The total turnaround is no larger than on any trace that gives every task its burst. -/
def LeastTurnaround (adds : List NewTask) (log : List Event) : Prop :=
  ∀ trace, GivesBursts adds trace →
    totalTurnaround (tasksOf adds) (calls log) ≤ totalTurnaround (tasksOf adds) trace

theorem sjf_leastTurnaround
    (names : adds.Pairwise fun earlier later => earlier.name ≠ later.name)
    (nonneg : ∀ new ∈ adds, 0 ≤ new.burst) :
    ∃ final, Ends (fun fuel => Sjf.schedule fuel (addAll adds)) final ∧
      LeastTurnaround adds final.memory.log := by
  obtain ⟨final, ends, called⟩ := schedule_stable ranks_byBurst (pickBest_picks _) names
  have whole : (calls final.memory.log).Perm (wholeCalls adds) := by
    rw [called]
    exact (List.mergeSort_perm _ _).map wholeCall
  have given := givesBursts_of_perm nonneg whole
  refine ⟨final, ends, fun trace gives => ?_⟩
  have short : ShortestFirst (calls final.memory.log) := by
    rw [called]
    exact shortestFirst_mergeSort adds
  apply short.least given.slices _ gives.slices
  · intro task member
    rcases mem_tasksOf.mp member with ⟨i, new, isAdded, rfl⟩
    rw [gives.bursts i new isAdded, given.bursts i new isAdded]
  · exact fun call member => wholeCalls_owners call (whole.mem_iff.mp member)

/-- The total turnaround of the one log is no larger than that of the other. -/
def NoLonger (adds : List NewTask) (log other : List Event) : Prop :=
  totalTurnaround (tasksOf adds) (calls log) ≤ totalTurnaround (tasksOf adds) (calls other)

/-- With different names and bursts of at least 1, SJF has the smallest total turnaround of all
schedules of the tasks, the preemptive ones included; in particular it is no larger than those
of the other four programs. -/
theorem sjf_has_least_turnaround (adds : List NewTask)
    (names : adds.Pairwise fun earlier later => earlier.name ≠ later.name)
    (positive : ∀ new ∈ adds, 1 ≤ new.burst) :
    ∃ sjf, Ends (fun fuel => Sjf.schedule fuel (addAll adds)) sjf ∧
      LeastTurnaround adds sjf.memory.log ∧
      (∃ fcfs, Ends (fun fuel => Fcfs.schedule fuel (addAll adds)) fcfs ∧
        NoLonger adds sjf.memory.log fcfs.memory.log) ∧
      (∃ priority, Ends (fun fuel => Priority.schedule fuel (addAll adds)) priority ∧
        NoLonger adds sjf.memory.log priority.memory.log) ∧
      (∃ turns, Ends (fun fuel => RoundRobin.schedule fuel (RoundRobin.addAll adds)) turns ∧
        NoLonger adds sjf.memory.log turns.memory.log) ∧
      ((∀ new ∈ adds, ValidPriority new) → ∃ ready levels,
        PriorityRoundRobin.addAll adds = .ok ready ∧
          Ends (fun fuel => PriorityRoundRobin.schedule fuel ready) levels ∧
          NoLonger adds sjf.memory.log levels.memory.log) := by
  have nonneg : ∀ new ∈ adds, 0 ≤ new.burst := fun new member =>
    (by decide : (0 : Int) ≤ 1).trans (positive new member)
  obtain ⟨sjf, sjfEnds, least⟩ := sjf_leastTurnaround names nonneg
  obtain ⟨fcfs, fcfsEnds, fcfsGives⟩ := schedule_givesBursts ranks_always Fcfs.picks names nonneg
  obtain ⟨priority, priorityEnds, priorityGives⟩ :=
    schedule_givesBursts ranks_byPriority (pickBest_picks _) names nonneg
  obtain ⟨turns, turnsEnd, turnsGive⟩ := roundRobin_givesBursts names positive
  refine ⟨sjf, sjfEnds, least, ⟨fcfs, fcfsEnds, least _ fcfsGives⟩,
    ⟨priority, priorityEnds, least _ priorityGives⟩, ⟨turns, turnsEnd, least _ turnsGive⟩, ?_⟩
  intro valid
  obtain ⟨ready, levels, adding, levelsEnd, levelsGive⟩ :=
    priorityRoundRobin_givesBursts valid names positive
  exact ⟨ready, levels, adding, levelsEnd, least _ levelsGive⟩

/-- Served in the order `B`, `C`, `A`, the three tasks are done after 5, 20 and 50 units; their
total is the least. -/
theorem sjf_has_least_turnaround_demo :
    ∃ sjf, Ends (fun fuel => Sjf.schedule fuel
        (addAll [⟨"A", 1, 30⟩, ⟨"B", 1, 5⟩, ⟨"C", 2, 15⟩])) sjf ∧
      LeastTurnaround [⟨"A", 1, 30⟩, ⟨"B", 1, 5⟩, ⟨"C", 2, 15⟩] sjf.memory.log := by
  obtain ⟨sjf, ends, least, _⟩ :=
    sjf_has_least_turnaround [⟨"A", 1, 30⟩, ⟨"B", 1, 5⟩, ⟨"C", 2, 15⟩] (by decide) (by decide)
  exact ⟨sjf, ends, least⟩

/-! ## Round robin -/

/-- The number of quanta that the task needs. -/
def quanta (new : NewTask) : ℕ := ((new.burst - 1) / quantum + 1).toNat

/-- What the tasks get in the given number of rounds. -/
def sharesOf (rounds : ℕ) (adds : List NewTask) : Int :=
  (adds.map fun new => min new.burst (quantum * rounds)).sum

theorem quanta_bounds (positive : 1 ≤ new.burst) :
    1 ≤ quanta new ∧ quantum * (quanta new - 1 : ℕ) < new.burst ∧
      new.burst ≤ quantum * quanta new := by
  simp only [quanta, quantum]
  omega

/-- What a round gives a task. -/
def turnOf (k : ℕ) (new : NewTask) : Int :=
  if quantum * k < new.burst then min quantum (new.burst - quantum * k) else 0

theorem sum_round_append (added : List (NewTask × ℕ)) (new : NewTask) (i k : ℕ) :
    ((round (added ++ [(new, i)]) k).map Prod.snd).sum =
      turnOf k new + ((round added k).map Prod.snd).sum := by
  rw [round, List.reverse_concat, turnOf]
  by_cases needs : quantum * k < new.burst
  · rw [List.filter_cons_of_pos (by simpa using needs), if_pos needs]
    simp [round]
  · rw [List.filter_cons_of_neg (by simpa using needs), if_neg needs]
    simp [round]

theorem min_add_turnOf (k : ℕ) (new : NewTask) :
    min new.burst (quantum * k) + turnOf k new = min new.burst (quantum * (k + 1 : ℕ)) := by
  rw [turnOf]
  by_cases needs : quantum * k < new.burst
  · rw [if_pos needs]
    simp only [quantum] at needs ⊢
    omega
  · rw [if_neg needs]
    simp only [quantum] at needs ⊢
    omega

/-- One more round gives every task what it still needs of a quantum. -/
theorem sharesOf_succ (added : List (NewTask × ℕ)) (k : ℕ) :
    sharesOf k (added.map Prod.fst) + ((round added k).map Prod.snd).sum =
      sharesOf (k + 1) (added.map Prod.fst) := by
  induction added using List.reverseRecOn with
  | nil => rfl
  | append_singleton added last inductionHypothesis =>
      obtain ⟨new, i⟩ := last
      have turn := min_add_turnOf k new
      rw [sum_round_append]
      simp only [sharesOf, List.map_append, List.map_cons, List.map_nil, List.sum_append,
        List.sum_cons, List.sum_nil] at inductionHypothesis ⊢
      omega

/-- The first rounds give every task what it needs, up to as many quanta. -/
theorem sum_rounds (added : List (NewTask × ℕ)) (nonneg : ∀ a ∈ added, 0 ≤ a.1.burst) (k : ℕ) :
    (((List.range k).flatMap (round added)).map Prod.snd).sum =
      sharesOf k (added.map Prod.fst) := by
  induction k with
  | zero =>
      symm
      apply List.sum_eq_zero
      intro share member
      simp only [List.map_map, List.mem_map, Function.comp_apply] at member
      obtain ⟨a, isAdded, rfl⟩ := member
      have lower := nonneg a isAdded
      simp only [quantum]
      omega
  | succ k inductionHypothesis =>
      rw [List.range_succ, List.flatMap_append, List.flatMap_singleton, List.map_append,
        List.sum_append, inductionHypothesis, sharesOf_succ]

theorem round_append (front behind : List (NewTask × ℕ)) (k : ℕ) :
    round (front ++ behind) k = round behind k ++ round front k := by
  rw [round, List.reverse_append, List.filter_append, List.map_append]
  rfl

theorem round_cons {behind : List (NewTask × ℕ)} (needs : quantum * k < new.burst) :
    round ((new, i) :: behind) k = round behind k ++ [(some i, turnOf k new)] := by
  have own : round [(new, i)] k = [(some i, turnOf k new)] := by
    simp [round, turnOf, needs]
  rw [← List.singleton_append, round_append, own]

/-- The calls of `add` before and after one of them. -/
theorem zipIdx_split (isAdded : adds[i]? = some new) :
    adds.zipIdx = (adds.take i).zipIdx ++ (new, i) :: (adds.drop (i + 1)).zipIdx (i + 1) := by
  obtain ⟨below, rfl⟩ := List.getElem?_eq_some_iff.mp isAdded
  conv_lhs => rw [← List.take_append_drop i adds, List.drop_eq_getElem_cons below]
  rw [List.zipIdx_append, List.zipIdx_cons, List.length_take, Nat.min_eq_left below.le,
    Nat.zero_add]

/-- The rounds up to the one in which a task ends, and in that round the turns up to its own. -/
theorem untilDone_rounds (isAdded : adds[i]? = some new) (positive : 1 ≤ new.burst) {rounds : ℕ}
    (ended : new.burst ≤ quantum * rounds) :
    untilDone (some i) ((List.range rounds).flatMap (round adds.zipIdx)) =
      (List.range (quanta new - 1)).flatMap (round adds.zipIdx) ++
        (round ((adds.drop (i + 1)).zipIdx (i + 1)) (quanta new - 1) ++
          [(some i, turnOf (quanta new - 1) new)]) := by
  obtain ⟨atLeast, needs, enough⟩ := quanta_bounds positive
  obtain ⟨later, rfl⟩ : ∃ later, rounds = quanta new - 1 + (later + 1) := by
    refine ⟨rounds - quanta new, ?_⟩
    simp only [quantum] at needs ended
    omega
  have own : ∀ {k : ℕ} {call : Pointer × Int}, call ∈ round adds.zipIdx k → call.1 = some i →
      quantum * k < new.burst := by
    intro k call member same
    obtain ⟨⟨other, j⟩, isTask, more, rfl⟩ := mem_round member
    cases same
    rw [List.mem_zipIdx_iff_getElem?, isAdded, Option.some.injEq] at isTask
    exact isTask ▸ more
  have laterAbsent : ∀ call ∈ ((List.range later).map (quanta new - 1 + 1 + ·)).flatMap
      (round adds.zipIdx), call.1 ≠ some i := by
    intro call member same
    obtain ⟨k, inRange, inRound⟩ := List.mem_flatMap.mp member
    obtain ⟨offset, _, rfl⟩ := List.mem_map.mp inRange
    have more := own inRound same
    simp only [quantum] at more enough
    omega
  have lastRound : round adds.zipIdx (quanta new - 1) =
      round ((adds.drop (i + 1)).zipIdx (i + 1)) (quanta new - 1) ++
        [(some i, turnOf (quanta new - 1) new)] ++ round (adds.take i).zipIdx (quanta new - 1) := by
    rw [zipIdx_split isAdded, round_append, round_cons needs]
  have frontAbsent : ∀ call ∈ round (adds.take i).zipIdx (quanta new - 1), call.1 ≠ some i := by
    intro call member same
    obtain ⟨⟨other, j⟩, isTask, _, rfl⟩ := mem_round member
    cases same
    have below := List.snd_lt_of_mem_zipIdx isTask
    rw [List.length_take] at below
    omega
  rw [show quanta new - 1 + (later + 1) = quanta new - 1 + 1 + later by omega, List.range_add,
    List.flatMap_append, untilDone_append_absent laterAbsent, List.range_succ, List.flatMap_append,
    List.flatMap_singleton, lastRound, ← List.append_assoc,
    untilDone_append_absent frontAbsent, ← List.append_assoc, untilDone_concat, if_pos rfl]

/-- When a task is done in the rounds. -/
theorem turnaround_rounds (isAdded : adds[i]? = some new) (positive : ∀ new ∈ adds, 1 ≤ new.burst)
    {rounds : ℕ} (ended : new.burst ≤ quantum * rounds) :
    turnaround (some i) ((List.range rounds).flatMap (round adds.zipIdx)) =
      sharesOf (quanta new - 1) (adds.take i) + sharesOf (quanta new) (adds.drop i) := by
  have own := positive new (List.mem_of_getElem? isAdded)
  obtain ⟨atLeast, _, _⟩ := quanta_bounds own
  have nonneg : ∀ a ∈ adds.zipIdx, 0 ≤ a.1.burst := fun a member =>
    (by decide : (0 : Int) ≤ 1).trans (zipIdx_positive positive a member)
  have behind := sharesOf_succ ((adds.drop (i + 1)).zipIdx (i + 1)) (quanta new - 1)
  have last := min_add_turnOf (quanta new - 1) new
  have from_i : adds.drop i = new :: adds.drop (i + 1) := by
    obtain ⟨below, rfl⟩ := List.getElem?_eq_some_iff.mp isAdded
    exact List.drop_eq_getElem_cons below
  have all : sharesOf (quanta new - 1) adds = sharesOf (quanta new - 1) (adds.take i) +
      (min new.burst (quantum * (quanta new - 1 : ℕ)) +
        sharesOf (quanta new - 1) (adds.drop (i + 1))) := by
    conv_lhs => rw [← List.take_append_drop i adds, from_i]
    simp only [sharesOf, List.map_append, List.map_cons, List.sum_append, List.sum_cons]
  rw [Nat.sub_add_cancel atLeast] at behind last
  rw [List.zipIdx_map_fst] at behind
  rw [turnaround, untilDone_rounds isAdded own ended, List.map_append, List.sum_append,
    List.map_append, List.sum_append, sum_rounds _ nonneg, List.zipIdx_map_fst, all, from_i]
  simp only [sharesOf, List.map_cons, List.sum_cons, List.map_nil, List.sum_nil] at behind ⊢
  omega

/-- With different names and bursts of at least 1, a task is done when the tasks added before it
have had one quantum less than it needs, and the others as many, as far as they need them. -/
theorem roundRobin_turnaround (adds : List NewTask)
    (names : adds.Pairwise fun earlier later => earlier.name ≠ later.name)
    (positive : ∀ new ∈ adds, 1 ≤ new.burst) :
    ∃ final, Ends (fun fuel => RoundRobin.schedule fuel (RoundRobin.addAll adds)) final ∧
      ∀ (i : ℕ) new, adds[i]? = some new →
        turnaround (some i) (calls final.memory.log) =
          sharesOf (quanta new - 1) (adds.take i) + sharesOf (quanta new) (adds.drop i) := by
  obtain ⟨final, ends, trace⟩ := roundRobin_trace (List.pairwise_map.mpr names) positive
  obtain ⟨rounds, ended⟩ := exists_rounds_of_adds adds
  refine ⟨final, ends, fun i new isAdded => ?_⟩
  rw [trace rounds ended]
  exact turnaround_rounds isAdded positive (ended new (List.mem_of_getElem? isAdded))

/-- `C` is served first, and `A` is done with the third quantum that it gets. -/
theorem roundRobin_turnaround_demo :
    ∃ final, Ends (fun fuel => RoundRobin.schedule fuel
        (RoundRobin.addAll [⟨"A", 1, 25⟩, ⟨"B", 1, 5⟩, ⟨"C", 2, 30⟩])) final ∧
      turnaround (some 0) (calls final.memory.log) = 60 ∧
      turnaround (some 1) (calls final.memory.log) = 15 := by
  obtain ⟨final, ends, done⟩ :=
    roundRobin_turnaround [⟨"A", 1, 25⟩, ⟨"B", 1, 5⟩, ⟨"C", 2, 30⟩] (by decide) (by decide)
  exact ⟨final, ends, done 0 _ rfl, done 1 _ rfl⟩

end OsProjects.Scheduling
