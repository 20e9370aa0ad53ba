import OsProjects.Scheduling.Driver
import OsProjects.Scheduling.Levels
import OsProjects.Scheduling.ServiceOrder
import OsProjects.Scheduling.Turnaround

/-!
Owns the five programs from the task file to the calls of `run`: a file that is written in the
format of the driver is read back as its tasks, and each program serves them in its order.

Does not own the reading of a line (`Driver`) or the orders themselves (`ServiceOrder`,
`Rounds`, `Levels`).
-/

namespace OsProjects.Scheduling

open OsProjects.C

/-- The task can be written on a line of the file: its name does not end the field or the line,
its numbers are of type `int`, and the line fits into `task` with its newline. -/
structure Writable (new : NewTask) : Prop where
  name : ∀ c ∈ new.name.toList, c ∉ [',', '\n', '\x00']
  priority : IsInt new.priority
  burst : IsInt new.burst
  fits : (lineOf new).length + 1 < size

theorem writable_iff {new : NewTask} : Writable new ↔
    (∀ c ∈ new.name.toList, c ∉ [',', '\n', '\x00']) ∧ IsInt new.priority ∧ IsInt new.burst ∧
      (lineOf new).length + 1 < size :=
  ⟨fun writable => ⟨writable.name, writable.priority, writable.burst, writable.fits⟩,
    fun ⟨name, priority, burst, fits⟩ => ⟨name, priority, burst, fits⟩⟩

instance : DecidablePred Writable := fun new =>
  have : Decidable (∀ c ∈ new.name.toList, c ∉ [',', '\n', '\x00']) := List.decidableBAll _ _
  decidable_of_iff _ writable_iff.symm

section File

variable {new : NewTask} {adds : List NewTask} {c : Char} {value : Int}

theorem not_mem_signedDecimal (notDigit : c.isDigit = false) (notMinus : c ≠ '-') :
    c ∉ signedDecimal value := by
  intro member
  have digit : c ∈ decimal value.natAbs → False := by
    intro member
    rw [isDigit_of_mem_decimal member] at notDigit
    cases notDigit
  rw [signedDecimal] at member
  split at member
  · rcases List.mem_cons.mp member with minus | member
    · exact notMinus minus
    · exact digit member
  · exact digit member

/-- The characters that end a field, a line or a string are not part of one. -/
theorem Writable.free (writable : Writable new) (member : c ∈ [',', '\n', '\x00']) :
    c ∉ new.name.toList ∧ c ∉ ' ' :: signedDecimal new.priority ∧
      c ∉ ' ' :: signedDecimal new.burst := by
  have notName : c ∉ new.name.toList := fun inName => writable.name c inName member
  have others : c ≠ ' ' ∧ c.isDigit = false ∧ c ≠ '-' := by
    simp only [List.mem_cons, List.not_mem_nil, or_false] at member
    rcases member with rfl | rfl | rfl
    · decide
    · decide
    · decide
  refine ⟨notName, ?_, ?_⟩
  · exact List.not_mem_cons_of_ne_of_not_mem others.1 (not_mem_signedDecimal others.2.1 others.2.2)
  · exact List.not_mem_cons_of_ne_of_not_mem others.1 (not_mem_signedDecimal others.2.1 others.2.2)

theorem lineOf_eq (new : NewTask) :
    lineOf new = new.name.toList ++ ',' :: (' ' :: signedDecimal new.priority ++
      ',' :: (' ' :: signedDecimal new.burst)) := by
  simp [lineOf]

theorem atoi_field (rest : List Char) (fits : IsInt value)
    (ends : ∀ c, rest.head? = some c → isSpace c = true)
    (blank : ∀ c ∈ rest, isSpace c = true) :
    atoi (' ' :: signedDecimal value ++ rest) = .ok value := by
  have spells : Spells [signedDecimal value] ([' '] ++ signedDecimal value ++ rest) :=
    .word (by simp [isSpace]) (signedDecimal_ne_nil value) (solid_signedDecimal value) ends
      (.blank blank)
  exact spells.atoi fits

/-- A line is read back as its task. -/
theorem Writable.taskOf (writable : Writable new) :
    Scheduling.taskOf (lineOf new ++ ['\n']) = some new := by
  obtain ⟨plainName, plainPriority, plainBurst⟩ := writable.free (c := '\x00') (by simp)
  obtain ⟨nameFree, priorityFree, burstFree⟩ := writable.free (c := ',') (by simp)
  have split : cString (lineOf new ++ ['\n']) = new.name.toList ++ ',' ::
      (' ' :: signedDecimal new.priority ++ ',' :: (' ' :: signedDecimal new.burst ++ ['\n'])) := by
    have plain : '\x00' ∉ lineOf new ++ ['\n'] := by
      rw [lineOf_eq]
      simp only [List.mem_append, List.mem_cons, not_or] at plainName plainPriority plainBurst ⊢
      simp [plainName, plainPriority, plainBurst]
    have whole := cString_plain [] plain (Or.inl rfl)
    rw [List.append_nil] at whole
    rw [whole, lineOf_eq]
    simp
  have thirdFree : ',' ∉ ' ' :: signedDecimal new.burst ++ ['\n'] := by
    simp only [List.mem_append, not_or]
    exact ⟨burstFree, by decide⟩
  have priority := atoi_field [] writable.priority (by simp) (by simp)
  have burst := atoi_field ['\n'] writable.burst (by simp [isSpace]) (by simp [isSpace])
  rw [List.append_nil] at priority
  rw [taskOf_fields split nameFree priorityFree thirdFree, priority, burst, String.ofList_toList]

/-- A written file is read back as its tasks. -/
theorem tasksIn_fileOf (writable : ∀ new ∈ adds, Writable new) :
    tasksIn (fileOf adds) = some adds := by
  induction adds with
  | nil =>
      rw [tasksIn, fileOf, List.flatMap_nil, fgetsAll_nil]
      rfl
  | cons new adds inductionHypothesis =>
      have first := writable new (by simp)
      have unbroken : '\n' ∉ lineOf new := by
        obtain ⟨name, priority, burst⟩ := first.free (c := '\n') (by simp)
        rw [lineOf_eq]
        simp only [List.mem_append, List.mem_cons, not_or] at name priority burst ⊢
        simp [name, priority, burst]
      have others := inductionHypothesis fun new member => writable new (by simp [member])
      rw [tasksIn] at others
      rw [tasksIn, fileOf, List.flatMap_cons, List.append_assoc, List.singleton_append,
        fgetsAll_short unbroken first.fits, List.mapM_cons, first.taskOf]
      rw [fileOf] at others
      rw [others]
      rfl

/-! ## The programs -/

/-- From a file of tasks the program adds the tasks and runs `schedule`. -/
theorem main_of_tasks {σ : Type} {add : σ → NewTask → Outcome σ} {schedule : ℕ → σ → Outcome σ}
    {start ready : σ} {inputFile : List Char} (isTasks : tasksIn inputFile = some adds)
    (added : adds.foldlM add start = .ok ready) (fuel : ℕ) :
    main add schedule start fuel (some inputFile) = schedule fuel ready := by
  obtain ⟨d, read, rfl⟩ :=
    (readTasks_iff add inputFile start ready).1.mpr ⟨adds, isTasks, added⟩
  rw [main, read]
  rfl

theorem foldlM_ok {σ : Type} (step : σ → NewTask → σ) (start : σ) (adds : List NewTask) :
    adds.foldlM (fun s new => (.ok (step s new) : Outcome σ)) start =
      .ok (adds.foldl step start) := by
  induction adds generalizing start with
  | nil => rfl
  | cons new adds inductionHypothesis => exact inductionHypothesis (step start new)

end File

/-- `main` of the first three programs. -/
def plainMain (schedule : ℕ → State → Outcome State) : ℕ → Option (List Char) → Outcome State :=
  main (fun s new => .ok (add s new)) schedule State.initial

def RoundRobin.main : ℕ → Option (List Char) → Outcome Turns :=
  Scheduling.main (fun s new => .ok (add s new)) schedule initial

def PriorityRoundRobin.main : ℕ → Option (List Char) → Outcome Levels :=
  Scheduling.main add schedule initial

/-- The five programs, from a written task file to the calls of `run`: each ends, and serves the
tasks of the file in its order. -/
theorem taskFile_is_scheduled (adds : List NewTask) (writable : ∀ new ∈ adds, Writable new)
    (names : adds.Pairwise fun earlier later => earlier.name ≠ later.name) :
    (∃ final, Ends (fun fuel => plainMain Fcfs.schedule fuel (some (fileOf adds))) final ∧
      calls final.memory.log = adds.zipIdx.map wholeCall) ∧
    (∃ final, Ends (fun fuel => plainMain Sjf.schedule fuel (some (fileOf adds))) final ∧
      calls final.memory.log = (adds.zipIdx.mergeSort fun first second =>
        first.1.burst ≤ second.1.burst).map wholeCall) ∧
    (∃ final, Ends (fun fuel => plainMain Priority.schedule fuel (some (fileOf adds))) final ∧
      calls final.memory.log = (adds.zipIdx.mergeSort fun first second =>
        first.1.priority ≥ second.1.priority).map wholeCall) ∧
    ((∀ new ∈ adds, 1 ≤ new.burst) →
      ∃ final, Ends (fun fuel => RoundRobin.main fuel (some (fileOf adds))) final ∧
        ∀ rounds : ℕ, (∀ new ∈ adds, new.burst ≤ quantum * rounds) →
          calls final.memory.log = (List.range rounds).flatMap (round adds.zipIdx)) ∧
    ((∀ new ∈ adds, 1 ≤ new.burst) → (∀ new ∈ adds, ValidPriority new) →
      ∃ final, Ends (fun fuel => PriorityRoundRobin.main fuel (some (fileOf adds))) final ∧
        ∀ rounds : ℕ, (∀ new ∈ adds, new.burst ≤ quantum * rounds) →
          calls final.memory.log = priorities.flatMap (levelTrace adds rounds)) := by
  have isTasks := tasksIn_fileOf writable
  have plain : ∀ schedule fuel, plainMain schedule fuel (some (fileOf adds)) =
      schedule fuel (addAll adds) := fun schedule fuel =>
    main_of_tasks isTasks (foldlM_ok add State.initial adds) fuel
  refine ⟨?_, ?_, ?_, fun positive => ?_, fun positive valid => ?_⟩
  · obtain ⟨final, ends, called⟩ := schedule_stable ranks_always Fcfs.picks names
    refine ⟨final, ?_, ?_⟩
    · simp only [plain]
      exact ends
    · rw [called, List.mergeSort_of_pairwise]
      exact List.pairwise_of_forall fun _ _ => rfl
  · simp only [plain]
    exact schedule_stable ranks_byBurst (pickBest_picks _) names
  · simp only [plain]
    exact schedule_stable ranks_byPriority (pickBest_picks _) names
  · have turns : ∀ fuel, RoundRobin.main fuel (some (fileOf adds)) =
        RoundRobin.schedule fuel (RoundRobin.addAll adds) := fun fuel =>
      main_of_tasks isTasks (foldlM_ok RoundRobin.add RoundRobin.initial adds) fuel
    simp only [turns]
    exact roundRobin_trace (List.pairwise_map.mpr names) positive
  · obtain ⟨ready, adding, added⟩ := PriorityRoundRobin.addAll_added valid
    have levels : ∀ fuel, PriorityRoundRobin.main fuel (some (fileOf adds)) =
        PriorityRoundRobin.schedule fuel ready := fun fuel =>
      main_of_tasks isTasks adding fuel
    simp only [levels]
    have onLevel : adds.Pairwise fun earlier later =>
        earlier.priority = later.priority → earlier.name ≠ later.name := by
      refine List.Pairwise.imp ?_ names
      intro earlier later different _
      exact different
    exact schedule_levels added positive onLevel

/-- The first tasks of the shipped file. -/
def demoTasks : List NewTask := [⟨"T1", 4, 20⟩, ⟨"T2", 3, 25⟩, ⟨"T3", 3, 15⟩]

theorem taskFile_is_scheduled_demo :
    (∃ final, Ends (fun fuel => plainMain Sjf.schedule fuel (some (fileOf demoTasks))) final ∧
      calls final.memory.log = [(some 2, 15), (some 0, 20), (some 1, 25)]) ∧
    ∃ final, Ends (fun fuel => PriorityRoundRobin.main fuel (some (fileOf demoTasks))) final ∧
      calls final.memory.log = [(some 0, 10), (some 0, 10), (some 2, 10), (some 1, 10),
        (some 2, 5), (some 1, 10), (some 1, 5)] := by
  obtain ⟨_, ⟨sjf, ends, called⟩, _, _, levels⟩ :=
    taskFile_is_scheduled demoTasks (by decide) (by decide)
  obtain ⟨final, endsToo, trace⟩ := levels (by decide) (by decide)
  refine ⟨⟨sjf, ends, ?_⟩, final, endsToo, trace 3 (by decide)⟩
  rw [called]
  simp [demoTasks, List.mergeSort, List.MergeSort.Internal.splitInTwo, wholeCall]

end OsProjects.Scheduling
