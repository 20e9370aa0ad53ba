import OsProjects.Scheduling.Levels
import OsProjects.Scheduling.NonPreemptive

/-!
Owns the order in which tasks of different names are served: it is the order of the
calls of `add`, or a stable sort of it; and the two priority schedulers serve the same
tasks, the higher priority first, when all priorities are levels of `taskList`.

`schedule_priority.c` compares priorities. `schedule_priority_rr.c` uses them as
indices, which its `add` does not check, and never looks at level 0.

Does not own what a single scheduler does to its list.
-/

namespace OsProjects.Scheduling

open OsProjects.C
open OsProjects.Theory

variable {adds : List NewTask} {replaces : Task → Task → Bool}

/-! ## The order of service -/

/-- The call of `run` that serves a task to its end. A task comes with the number of its
call of `add`. -/
def wholeCall (added : NewTask × ℕ) : Pointer × Int := (some added.2, added.1.burst)

/-- The entry of a task that is added without a remaining burst. -/
def plainEntry (added : NewTask × ℕ) : Entry :=
  ⟨added.2, added.2, ⟨added.1.name, added.1.priority, added.1.burst, 0⟩⟩

theorem entriesOf_plain (adds : List NewTask) :
    entriesOf (fun _ => 0) adds.zipIdx = (adds.zipIdx.map plainEntry).reverse := rfl

theorem plainEntries_ordered (adds : List NewTask) :
    (adds.zipIdx.map plainEntry).Pairwise fun d e => d.task < e.task := by
  have indices : (adds.zipIdx.map Prod.snd).Pairwise (· < ·) := by
    rw [List.zipIdx_map_snd]
    exact List.pairwise_lt_range'
  rw [List.pairwise_map] at indices ⊢
  exact indices

theorem plainEntries_distinct
    (names : adds.Pairwise fun earlier later => earlier.name ≠ later.name) :
    ((adds.zipIdx.map plainEntry).map Entry.name).Nodup := by
  rw [← List.zipIdx_map_fst 0 adds, List.pairwise_map] at names
  rw [List.map_map, List.Nodup, List.pairwise_map]
  exact names

/-- With different names, a scheduler that picks the last of the best tasks serves a
stable sort of the tasks in the order of their `add`. -/
theorem schedule_stable {pickNextTask : State → Outcome Pointer} (ranks : Ranks replaces)
    (picks : Picks pickNextTask replaces)
    (names : adds.Pairwise fun earlier later => earlier.name ≠ later.name) :
    ∃ final, Ends (fun fuel => scheduleWith pickNextTask fuel (addAll adds)) final ∧
      calls final.memory.log = (adds.zipIdx.mergeSort fun first second =>
        onEntries replaces (plainEntry first) (plainEntry second)).map wholeCall := by
  rcases schedule_addAll ranks picks adds with ⟨order, final, serves, ends, called⟩
  rw [entriesOf_plain] at serves
  have sorted := serves.eq_mergeSort (ranks_onEntries ranks) (plainEntries_distinct names)
    (fun d e less => Nat.not_lt.mpr (Nat.le_of_lt less)) (plainEntries_ordered adds)
  have back := List.map_mergeSort (l := adds.zipIdx) (f := plainEntry)
    (r := fun first second => onEntries replaces (plainEntry first) (plainEntry second))
    (s := onEntries replaces) (fun _ _ _ _ => rfl)
  refine ⟨final, ends, ?_⟩
  rw [called, sorted, ← back, List.map_map]
  rfl

/-- With different names, FCFS serves the tasks in the order of their `add`, SJF in the
stable sort of this order by ascending burst, and Priority in the stable sort by
descending priority. -/
theorem schedulers_serve_in_order (adds : List NewTask)
    (names : adds.Pairwise fun earlier later => earlier.name ≠ later.name) :
    (∃ final, Ends (fun fuel => Fcfs.schedule fuel (addAll adds)) final ∧
      calls final.memory.log = adds.zipIdx.map wholeCall) ∧
    (∃ final, Ends (fun fuel => Sjf.schedule fuel (addAll adds)) final ∧
      calls final.memory.log = (adds.zipIdx.mergeSort fun first second =>
        first.1.burst ≤ second.1.burst).map wholeCall) ∧
    (∃ final, Ends (fun fuel => Priority.schedule fuel (addAll adds)) final ∧
      calls final.memory.log = (adds.zipIdx.mergeSort fun first second =>
        first.1.priority ≥ second.1.priority).map wholeCall) := by
  refine ⟨?_, schedule_stable ranks_byBurst (pickBest_picks _) names,
    schedule_stable ranks_byPriority (pickBest_picks _) names⟩
  rcases schedule_stable ranks_always Fcfs.picks names with ⟨final, ends, called⟩
  refine ⟨final, ends, ?_⟩
  rw [called, List.mergeSort_of_pairwise]
  exact List.pairwise_of_forall fun _ _ => rfl

/-- Three tasks, two of them with one burst and two with one priority. -/
theorem schedulers_serve_in_order_demo :
    (∃ final, Ends (fun fuel => Fcfs.schedule fuel
        (addAll [⟨"A", 1, 15⟩, ⟨"B", 2, 5⟩, ⟨"C", 2, 15⟩])) final ∧
      calls final.memory.log = [(some 0, 15), (some 1, 5), (some 2, 15)]) ∧
    (∃ final, Ends (fun fuel => Sjf.schedule fuel
        (addAll [⟨"A", 1, 15⟩, ⟨"B", 2, 5⟩, ⟨"C", 2, 15⟩])) final ∧
      calls final.memory.log = [(some 1, 5), (some 0, 15), (some 2, 15)]) ∧
    (∃ final, Ends (fun fuel => Priority.schedule fuel
        (addAll [⟨"A", 1, 15⟩, ⟨"B", 2, 5⟩, ⟨"C", 2, 15⟩])) final ∧
      calls final.memory.log = [(some 1, 5), (some 2, 15), (some 0, 15)]) := by
  have served := schedulers_serve_in_order [⟨"A", 1, 15⟩, ⟨"B", 2, 5⟩, ⟨"C", 2, 15⟩] (by decide)
  simpa [List.mergeSort, wholeCall] using served

/-! ## The two priority schedulers -/

/-- Of two tasks that run, the one with the higher priority runs first for the first
time. -/
def FirstRunsDescend (adds : List NewTask) (trace : List (Pointer × Int)) : Prop :=
  ∀ (i j : ℕ) higher lower, adds[i]? = some higher → adds[j]? = some lower →
    lower.priority < higher.priority → some i ∈ trace.map Prod.fst →
      some j ∈ trace.map Prod.fst →
        (trace.map Prod.fst).idxOf (some i) < (trace.map Prod.fst).idxOf (some j)

/-- Both priority schedulers end without an access outside `taskList`, the second one
runs every task that the first one runs to its full burst, and the first runs of both
are in descending order of priority. -/
def PrioritySchedulersAgree (adds : List NewTask) : Prop :=
  ∃ plain ready final, Ends (fun fuel => Priority.schedule fuel (addAll adds)) plain ∧
    PriorityRoundRobin.addAll adds = .ok ready ∧
    Ends (fun fuel => PriorityRoundRobin.schedule fuel ready) final ∧
    (∀ (i : ℕ) new, adds[i]? = some new → some i ∈ (calls plain.memory.log).map Prod.fst →
      received (some i) (calls final.memory.log) = new.burst) ∧
    FirstRunsDescend adds (calls plain.memory.log) ∧
    FirstRunsDescend adds (calls final.memory.log)

theorem firstRunsDescend_of_descending {trace : List (Pointer × Int)}
    (descends : trace.Pairwise (NotHigher adds)) : FirstRunsDescend adds trace := by
  intro i j higher lower added addedToo below runs runsToo
  have first := List.idxOf_lt_length_of_mem runs
  have second := List.idxOf_lt_length_of_mem runsToo
  have isFirst := List.getElem_idxOf first
  have isSecond := List.getElem_idxOf second
  rw [List.getElem_map] at isFirst isSecond
  rcases Nat.lt_trichotomy ((trace.map Prod.fst).idxOf (some i))
    ((trace.map Prod.fst).idxOf (some j)) with before | same | behind
  · exact before
  · have sameTask : i = j := Option.some.inj ((List.idxOf_inj runs).mp same)
    rw [sameTask, addedToo] at added
    rw [Option.some.inj added] at below
    exact absurd below (Int.lt_irrefl _)
  · have notHigher := List.pairwise_iff_getElem.mp descends _ _ (by simpa using second)
      (by simpa using first) behind j i lower higher isSecond isFirst addedToo added
    exact absurd below (Int.not_lt.mpr notHigher)

theorem mem_zipIdx_of_add {i : ℕ} {new : NewTask} (added : adds[i]? = some new) :
    (new, i) ∈ adds.zipIdx :=
  List.mem_zipIdx_iff_getElem?.mpr added

/-- `schedule_priority.c` runs every task, in descending order of priority. -/
theorem priority_trace {trace : List (Pointer × Int)}
    (called : trace = (adds.zipIdx.mergeSort fun first second =>
      first.1.priority ≥ second.1.priority).map wholeCall) :
    trace.Pairwise (NotHigher adds) ∧
      ∀ (i : ℕ) new, adds[i]? = some new → some i ∈ trace.map Prod.fst := by
  subst called
  have sorted : (adds.zipIdx.mergeSort fun first second =>
      first.1.priority ≥ second.1.priority).Pairwise fun first second =>
        decide (first.1.priority ≥ second.1.priority) = true := by
    apply List.pairwise_mergeSort
    · intro a b c
      simp only [decide_eq_true_eq]
      omega
    · intro a b
      simp only [Bool.or_eq_true, decide_eq_true_eq]
      omega
  constructor
  · rw [List.pairwise_map]
    apply sorted.imp_of_mem
    intro earlier later isEarlier isLater ordered i j first second isFirst isSecond added addedToo
    have stored := List.mem_zipIdx_iff_getElem?.mp (List.mem_mergeSort.mp isEarlier)
    have storedToo := List.mem_zipIdx_iff_getElem?.mp (List.mem_mergeSort.mp isLater)
    rw [Option.some.inj isFirst, added] at stored
    rw [Option.some.inj isSecond, addedToo] at storedToo
    rw [Option.some.inj stored, Option.some.inj storedToo]
    exact of_decide_eq_true ordered
  · intro i new added
    rw [List.map_map]
    exact List.mem_map.mpr ⟨(new, i), List.mem_mergeSort.mpr (mem_zipIdx_of_add added), rfl⟩

/-- Only a task whose priority is one of the levels runs. -/
theorem validPriority_of_received {rounds i : ℕ} {new : NewTask} (added : adds[i]? = some new)
    (runs : received (some i) (priorities.flatMap (levelTrace adds rounds)) ≠ 0) :
    ValidPriority new := by
  by_contra invalid
  apply runs
  apply received_eq_zero
  intro call member same
  rcases List.mem_flatMap.mp member with ⟨p, isLevel, onLevel⟩
  rcases mem_levelTrace onLevel with ⟨j, other, isCall, addedToo, level⟩
  rw [isCall] at same
  rw [Option.some.inj same, added] at addedToo
  rw [← Option.some.inj addedToo] at level
  rcases mem_priorities.mp isLevel with ⟨lower, upper⟩
  apply invalid
  unfold ValidPriority
  omega

theorem onLevels (names : adds.Pairwise fun earlier later => earlier.name ≠ later.name) :
    adds.Pairwise fun earlier later =>
      earlier.priority = later.priority → earlier.name ≠ later.name := by
  apply names.imp
  intro earlier later different _
  exact different

/-- When the schedulers agree, all priorities are levels: another index is outside
`taskList`, or it is that of level 0, whose tasks never run. -/
theorem PrioritySchedulersAgree.valid
    (names : adds.Pairwise fun earlier later => earlier.name ≠ later.name)
    (positive : ∀ new ∈ adds, 1 ≤ new.burst) (agree : PrioritySchedulersAgree adds) :
    ∀ new ∈ adds, ValidPriority new := by
  rcases agree with ⟨plain, ready, final, ends, adding, endsToo, whole, _⟩
  rcases schedule_stable ranks_byPriority (pickBest_picks _) names with ⟨_, plainEnds, called⟩
  rw [← ends.unique plainEnds] at called
  rcases PriorityRoundRobin.addAll_inBounds (PriorityRoundRobin.inBounds_of_addAll adding) with
    ⟨_, addingToo, added⟩
  rw [← Except.ok.inj (adding.symm.trans addingToo)] at added
  rcases schedule_levels added positive (onLevels names) with
    ⟨_, levelEnds, trace⟩
  rw [← endsToo.unique levelEnds] at trace
  rcases exists_rounds_of_adds adds with ⟨rounds, ended⟩
  intro new member
  rcases List.getElem?_of_mem member with ⟨i, isAdded⟩
  have received := whole i new isAdded ((priority_trace called).2 i new isAdded)
  rw [trace rounds ended] at received
  apply validPriority_of_received isAdded
  rw [received]
  exact (Int.lt_of_lt_of_le Int.zero_lt_one (positive new member)).ne'

/-- For tasks of different names with bursts of at least 1, the priority schedulers
agree exactly when all priorities are levels. -/
theorem priority_schedulers_agree_iff (adds : List NewTask)
    (names : adds.Pairwise fun earlier later => earlier.name ≠ later.name)
    (positive : ∀ new ∈ adds, 1 ≤ new.burst) :
    PrioritySchedulersAgree adds ↔ ∀ new ∈ adds, ValidPriority new := by
  constructor
  · exact PrioritySchedulersAgree.valid names positive
  · intro valid
    rcases schedule_stable ranks_byPriority (pickBest_picks _) names with ⟨plain, ends, called⟩
    rcases PriorityRoundRobin.addAll_added valid with ⟨ready, adding, added⟩
    rcases schedule_levels added positive (onLevels names) with
      ⟨final, endsToo, trace⟩
    refine ⟨plain, ready, final, ends, adding, endsToo, ?_,
      firstRunsDescend_of_descending (priority_trace called).1, ?_⟩
    · intro i new isAdded _
      exact received_trace added positive trace isAdded (valid new (List.mem_of_getElem? isAdded))
    · rcases exists_rounds_of_adds adds with ⟨rounds, ended⟩
      rw [trace rounds ended]
      exact firstRunsDescend_of_descending (levels_descend adds rounds)

theorem priority_schedulers_agree_iff_demo :
    PrioritySchedulersAgree [⟨"A", 1, 15⟩, ⟨"B", 10, 5⟩] ↔
      ∀ new ∈ [(⟨"A", 1, 15⟩ : NewTask), ⟨"B", 10, 5⟩], ValidPriority new :=
  priority_schedulers_agree_iff [⟨"A", 1, 15⟩, ⟨"B", 10, 5⟩] (by decide) (by decide)

/-- A task of priority 0 is run by `schedule_priority.c` only. -/
theorem priority_zero_disagrees : ¬PrioritySchedulersAgree [⟨"A", 0, 5⟩] := by
  intro agree
  have valid := agree.valid (by decide) (by decide) ⟨"A", 0, 5⟩ (by simp)
  exact absurd valid (by decide)

end OsProjects.Scheduling
