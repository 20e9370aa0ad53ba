import Mathlib.Algebra.BigOperators.Group.Finset.Piecewise
import Mathlib.Algebra.Order.BigOperators.Group.Finset
import Mathlib.Algebra.Order.BigOperators.Group.List
import Mathlib.Data.List.DropRight

/-!
Owns the turnaround times of jobs that share one processor, all of them present from the
start: a trace lists who runs for how long, and a job is done with its last slice.

The turnaround of a job is the sum of what every job gets until the first one is done. Of
two jobs, the one that is done first gets everything before the other is done; so each pair
of jobs costs at least the time of the shorter one. Serving the jobs whole, the shortest
first, costs no more than that.

Does not own how a scheduler comes to its trace.
-/

namespace OsProjects.Theory

variable {Job Time : Type} {job other owner : Job} {slice : Time}
variable {trace shortest : List (Job × Time)} {jobs : Finset Job}

/-- The jobs are served whole, a shorter one before a longer one. -/
def ShortestFirst [LE Time] (trace : List (Job × Time)) : Prop :=
  trace.Pairwise fun earlier later => earlier.1 ≠ later.1 ∧ earlier.2 ≤ later.2

theorem ShortestFirst.of_append [LE Time] {first second : List (Job × Time)}
    (short : ShortestFirst (first ++ second)) : ShortestFirst first :=
  (List.pairwise_append.mp short).1

theorem ShortestFirst.before_last [LE Time] (short : ShortestFirst (trace ++ [(owner, slice)]))
    {call : Job × Time} (member : call ∈ trace) : call.1 ≠ owner ∧ call.2 ≤ slice :=
  (List.pairwise_append.mp short).2.2 call member _ (List.mem_singleton_self _)

section Trace

variable [DecidableEq Job]

/-- The trace up to the last slice of the job. -/
def untilDone (job : Job) (trace : List (Job × Time)) : List (Job × Time) :=
  trace.rdropWhile fun call => call.1 ≠ job

theorem mem_untilDone {call : Job × Time} (member : call ∈ untilDone job trace) : call ∈ trace :=
  List.IsPrefix.mem member (List.rdropWhile_prefix _ _)

theorem untilDone_nil : untilDone job ([] : List (Job × Time)) = [] := rfl

theorem untilDone_concat (trace : List (Job × Time)) (owner : Job) (slice : Time) :
    untilDone job (trace ++ [(owner, slice)]) =
      if owner = job then trace ++ [(owner, slice)] else untilDone job trace := by
  rw [untilDone, List.rdropWhile_concat]
  by_cases same : owner = job
  · simp [same]
  · simp [same, untilDone]

/-- Behind the last slice of a job nothing changes when it is done. -/
theorem untilDone_append_absent {first second : List (Job × Time)}
    (absent : ∀ call ∈ second, call.1 ≠ job) :
    untilDone job (first ++ second) = untilDone job first := by
  induction second using List.reverseRecOn with
  | nil => rw [List.append_nil]
  | append_singleton second last inductionHypothesis =>
      rw [← List.append_assoc, untilDone_concat, if_neg (absent last (by simp))]
      exact inductionHypothesis fun call member => absent call (by simp [member])

end Trace

section Sums

variable [DecidableEq Job] [AddCommMonoid Time]

/-- The time that a job gets. -/
def timeOf (job : Job) (trace : List (Job × Time)) : Time :=
  ((trace.filter fun call => call.1 = job).map Prod.snd).sum

/-- The time that passes until the job is done. -/
def turnaround (job : Job) (trace : List (Job × Time)) : Time :=
  ((untilDone job trace).map Prod.snd).sum

/-- The time that a job gets until another one is done. -/
def timeUntil (job other : Job) (trace : List (Job × Time)) : Time :=
  timeOf job (untilDone other trace)

def totalTurnaround (jobs : Finset Job) (trace : List (Job × Time)) : Time :=
  ∑ job ∈ jobs, turnaround job trace

/-! ## The time of one job -/

@[simp] theorem timeOf_nil : timeOf job ([] : List (Job × Time)) = 0 := rfl

theorem timeOf_append (job : Job) (first second : List (Job × Time)) :
    timeOf job (first ++ second) = timeOf job first + timeOf job second := by
  unfold timeOf
  rw [List.filter_append, List.map_append, List.sum_append]

theorem timeOf_singleton :
    timeOf job [(owner, slice)] = if owner = job then slice else 0 := by
  by_cases same : owner = job
  · simp [timeOf, same]
  · simp [timeOf, same]

theorem timeOf_eq_zero (absent : ∀ call ∈ trace, call.1 ≠ job) : timeOf job trace = 0 := by
  have none : trace.filter (fun call => call.1 = job) = [] := by
    simpa [List.filter_eq_nil_iff] using absent
  rw [timeOf, none]
  rfl

theorem timeOf_perm {first second : List (Job × Time)} (permutation : first.Perm second)
    (job : Job) : timeOf job first = timeOf job second :=
  ((permutation.filter _).map Prod.snd).sum_eq

/-- Where every job has one slice, that is its time. -/
theorem timeOf_eq (distinct : (trace.map Prod.fst).Nodup) (member : (job, slice) ∈ trace) :
    timeOf job trace = slice := by
  rcases List.append_of_mem member with ⟨before, behind, rfl⟩
  rw [List.map_append, List.map_cons, List.nodup_middle, List.nodup_cons, ← List.map_append]
    at distinct
  have absent : ∀ call ∈ before ++ behind, call.1 ≠ job := fun call isOther same =>
    distinct.1 (List.mem_map.mpr ⟨call, isOther, same⟩)
  have front : (before ++ (job, slice) :: behind).Perm ([(job, slice)] ++ (before ++ behind)) :=
    List.perm_middle
  rw [timeOf_perm front, timeOf_append, timeOf_singleton, if_pos rfl, timeOf_eq_zero absent,
    add_zero]

theorem timeUntil_absent (absent : ∀ call ∈ trace, call.1 ≠ job) :
    timeUntil job other trace = 0 :=
  timeOf_eq_zero fun call member => absent call (mem_untilDone member)

/-! ## Pairs of jobs -/

/-- Of two jobs, one gets all its time until the other is done. -/
theorem done_first (job other : Job) (trace : List (Job × Time)) :
    timeUntil job other trace = timeOf job trace ∨
      timeUntil other job trace = timeOf other trace := by
  induction trace using List.reverseRecOn with
  | nil => exact .inl rfl
  | append_singleton trace last inductionHypothesis =>
      obtain ⟨owner, slice⟩ := last
      by_cases isOther : owner = other
      · left
        rw [timeUntil, untilDone_concat, if_pos isOther]
      · by_cases isJob : owner = job
        · right
          rw [timeUntil, untilDone_concat, if_pos isJob]
        · simpa only [timeUntil, untilDone_concat, if_neg isOther, if_neg isJob, timeOf_append,
            timeOf_singleton, add_zero] using inductionHypothesis

/-- A job gets all its time until it is done itself. -/
theorem timeUntil_self (job : Job) (trace : List (Job × Time)) :
    timeUntil job job trace = timeOf job trace := by
  rcases done_first job job trace with same | same
  · exact same
  · exact same

/-- All that passes is the time of some job. -/
theorem sum_timeOf (owners : ∀ call ∈ trace, call.1 ∈ jobs) :
    ∑ job ∈ jobs, timeOf job trace = (trace.map Prod.snd).sum := by
  induction trace with
  | nil => simp
  | cons call rest inductionHypothesis =>
      obtain ⟨owner, slice⟩ := call
      have split : ∀ job, timeOf job ((owner, slice) :: rest) =
          (if owner = job then slice else 0) + timeOf job rest := by
        intro job
        rw [← timeOf_singleton, ← timeOf_append]
        rfl
      have present : owner ∈ jobs := owners (owner, slice) (by simp)
      simp only [split, Finset.sum_add_distrib, Finset.sum_ite_eq, if_pos present, List.map_cons,
        List.sum_cons]
      rw [inductionHypothesis fun call member => owners call (by simp [member])]

theorem turnaround_eq (owners : ∀ call ∈ trace, call.1 ∈ jobs) :
    turnaround other trace = ∑ job ∈ jobs, timeUntil job other trace :=
  (sum_timeOf fun call member => owners call (mem_untilDone member)).symm

/-- Twice the sum over all pairs of jobs is the sum of what both cost each other. -/
theorem sum_pairs (trace : List (Job × Time)) :
    (∑ other ∈ jobs, ∑ job ∈ jobs, timeUntil job other trace) +
        ∑ other ∈ jobs, ∑ job ∈ jobs, timeUntil job other trace =
      ∑ other ∈ jobs, ∑ job ∈ jobs,
        (timeUntil job other trace + timeUntil other job trace) := by
  have swapped : ∑ other ∈ jobs, ∑ job ∈ jobs, timeUntil job other trace =
      ∑ other ∈ jobs, ∑ job ∈ jobs, timeUntil other job trace := Finset.sum_comm
  simp only [Finset.sum_add_distrib]
  rw [← swapped]

end Sums

section Order

variable [DecidableEq Job] [AddCommGroup Time] [LinearOrder Time]

/-! ## The shortest first -/

/-- No job gets more than a bound of all slices. -/
theorem ShortestFirst.timeOf_le (short : ShortestFirst trace) {bound : Time}
    (nonneg : 0 ≤ bound) (slices : ∀ call ∈ trace, call.2 ≤ bound) : timeOf job trace ≤ bound := by
  induction trace using List.reverseRecOn with
  | nil => exact nonneg
  | append_singleton trace last inductionHypothesis =>
      obtain ⟨owner, slice⟩ := last
      rw [timeOf_append, timeOf_singleton]
      split
      · next isLast =>
          have absent : ∀ call ∈ trace, call.1 ≠ job :=
            fun call member => isLast ▸ (short.before_last member).1
          rw [timeOf_eq_zero absent, zero_add]
          exact slices (owner, slice) (by simp)
      · rw [add_zero]
        exact inductionHypothesis short.of_append fun call member => slices call (by simp [member])

/-- The last job of the trace costs another one nothing, and waits for all of it. -/
theorem ShortestFirst.timeUntil_last (short : ShortestFirst (trace ++ [(owner, slice)]))
    (nonneg : 0 ≤ slice) (different : job ≠ owner) :
    timeUntil job owner (trace ++ [(owner, slice)]) +
        timeUntil owner job (trace ++ [(owner, slice)]) ≤
      min (timeOf job (trace ++ [(owner, slice)])) (timeOf owner (trace ++ [(owner, slice)])) := by
  have absent : ∀ call ∈ trace, call.1 ≠ owner := fun call member => (short.before_last member).1
  have none : timeOf owner (untilDone job trace) = 0 := timeUntil_absent absent
  rw [timeUntil, timeUntil, untilDone_concat, untilDone_concat, if_pos rfl,
    if_neg (Ne.symm different), timeOf_append, timeOf_append, timeOf_singleton, timeOf_singleton,
    if_neg (Ne.symm different), if_pos rfl, timeOf_eq_zero absent, add_zero, zero_add, none,
    add_zero]
  exact le_min le_rfl (short.of_append.timeOf_le nonneg fun call member =>
    (short.before_last member).2)

/-- A pair of jobs costs no more than the time of the shorter one. -/
theorem ShortestFirst.timeUntil_le (short : ShortestFirst trace)
    (nonneg : ∀ call ∈ trace, 0 ≤ call.2) (different : job ≠ other) :
    timeUntil job other trace + timeUntil other job trace ≤
      min (timeOf job trace) (timeOf other trace) := by
  induction trace using List.reverseRecOn with
  | nil => simp [timeUntil, untilDone_nil]
  | append_singleton trace last inductionHypothesis =>
      obtain ⟨owner, slice⟩ := last
      have lastNonneg : 0 ≤ slice := nonneg (owner, slice) (by simp)
      by_cases isOther : owner = other
      · subst isOther
        exact short.timeUntil_last lastNonneg different
      · by_cases isJob : owner = job
        · subst isJob
          rw [add_comm, min_comm]
          exact short.timeUntil_last lastNonneg (Ne.symm different)
        · have before := inductionHypothesis short.of_append fun call member =>
            nonneg call (by simp [member])
          simpa only [timeUntil, untilDone_concat, if_neg isOther, if_neg isJob, timeOf_append,
            timeOf_singleton, add_zero] using before

/-! ## Any trace -/

variable [IsOrderedAddMonoid Time]

theorem timeOf_nonneg (nonneg : ∀ call ∈ trace, 0 ≤ call.2) : 0 ≤ timeOf job trace := by
  apply List.sum_nonneg
  intro time member
  rcases List.mem_map.mp member with ⟨call, filtered, rfl⟩
  exact nonneg call (List.mem_filter.mp filtered).1

theorem timeUntil_nonneg (nonneg : ∀ call ∈ trace, 0 ≤ call.2) : 0 ≤ timeUntil job other trace :=
  timeOf_nonneg fun call member => nonneg call (mem_untilDone member)

/-- A pair of jobs costs at least the time of the shorter one. -/
theorem min_le_timeUntil (nonneg : ∀ call ∈ trace, 0 ≤ call.2) (job other : Job) :
    min (timeOf job trace) (timeOf other trace) ≤
      timeUntil job other trace + timeUntil other job trace := by
  rcases done_first job other trace with jobFirst | otherFirst
  · rw [jobFirst]
    exact (min_le_left _ _).trans (le_add_of_nonneg_right (timeUntil_nonneg nonneg))
  · rw [otherFirst]
    exact (min_le_right _ _).trans (le_add_of_nonneg_left (timeUntil_nonneg nonneg))

theorem sum_timeOf_le (nonneg : ∀ call ∈ trace, 0 ≤ call.2) :
    ∑ job ∈ jobs, timeOf job trace ≤ (trace.map Prod.snd).sum := by
  have everyone : ∀ call ∈ trace, call.1 ∈ jobs ∪ (trace.map Prod.fst).toFinset := by
    intro call member
    exact Finset.mem_union_right _ (List.mem_toFinset.mpr (List.mem_map_of_mem member))
  rw [← sum_timeOf everyone]
  exact Finset.sum_le_sum_of_subset_of_nonneg Finset.subset_union_left
    fun job _ _ => timeOf_nonneg nonneg

theorem turnaround_ge (nonneg : ∀ call ∈ trace, 0 ≤ call.2) :
    ∑ job ∈ jobs, timeUntil job other trace ≤ turnaround other trace :=
  sum_timeOf_le fun call member => nonneg call (mem_untilDone member)

/-- No trace that gives every job the same time has a smaller total turnaround than the one
that serves them whole and the shortest first. -/
theorem ShortestFirst.least (short : ShortestFirst shortest)
    (nonneg : ∀ call ∈ shortest, 0 ≤ call.2) (owners : ∀ call ∈ shortest, call.1 ∈ jobs)
    (slices : ∀ call ∈ trace, 0 ≤ call.2)
    (same : ∀ job ∈ jobs, timeOf job trace = timeOf job shortest) :
    totalTurnaround jobs shortest ≤ totalTurnaround jobs trace := by
  have pairs : ∀ other ∈ jobs, ∀ job ∈ jobs,
      timeUntil job other shortest + timeUntil other job shortest ≤
        timeUntil job other trace + timeUntil other job trace := by
    intro other isOther job isJob
    by_cases different : job = other
    · subst different
      rw [timeUntil_self, timeUntil_self, same job isJob]
    · calc
        timeUntil job other shortest + timeUntil other job shortest
            ≤ min (timeOf job shortest) (timeOf other shortest) :=
          short.timeUntil_le nonneg different
        _ = min (timeOf job trace) (timeOf other trace) := by
          rw [same job isJob, same other isOther]
        _ ≤ timeUntil job other trace + timeUntil other job trace :=
          min_le_timeUntil slices job other
  have doubled : (∑ other ∈ jobs, ∑ job ∈ jobs, timeUntil job other shortest) +
        ∑ other ∈ jobs, ∑ job ∈ jobs, timeUntil job other shortest ≤
      (∑ other ∈ jobs, ∑ job ∈ jobs, timeUntil job other trace) +
        ∑ other ∈ jobs, ∑ job ∈ jobs, timeUntil job other trace := by
    rw [sum_pairs, sum_pairs]
    exact Finset.sum_le_sum fun other isOther => Finset.sum_le_sum (pairs other isOther)
  have single : ∑ other ∈ jobs, ∑ job ∈ jobs, timeUntil job other shortest ≤
      ∑ other ∈ jobs, ∑ job ∈ jobs, timeUntil job other trace := by
    by_contra more
    exact absurd doubled (not_le.mpr (add_lt_add (not_le.mp more) (not_le.mp more)))
  calc
    totalTurnaround jobs shortest = ∑ other ∈ jobs, ∑ job ∈ jobs, timeUntil job other shortest :=
      Finset.sum_congr rfl fun other _ => turnaround_eq owners
    _ ≤ ∑ other ∈ jobs, ∑ job ∈ jobs, timeUntil job other trace := single
    _ ≤ totalTurnaround jobs trace := Finset.sum_le_sum fun other _ => turnaround_ge slices

end Order

end OsProjects.Theory
