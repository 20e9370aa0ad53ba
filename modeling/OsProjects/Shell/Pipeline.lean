import OsProjects.Theory.Interleaving

/-!
Owns the two processes that `run_command` sets up for `cmd1 | cmd2`: their system calls
up to `execvp`, the pipe between them, and the question whether they can get stuck.

The pipe is a bounded FIFO of bytes. The first command writes some number of bytes and
exits, the second reads until the end of file. `fd[0]` is the read end of the pipe and
`fd[1]` its write end; both processes have both of them after the second `fork`.

Does not own files, redirections, or calls that fail.
-/

namespace OsProjects.Shell

open OsProjects.Theory

/-- `fd[0]` and `fd[1]` -/
inductive PipeEnd where
  | read
  | write
deriving DecidableEq

/-- The system calls of the two processes: `close(fd[i])`, `dup2(fd[0], STDIN_FILENO)`
and `dup2(fd[1], STDOUT_FILENO)`, `wait(NULL)`, `execvp`. -/
inductive SystemCall where
  | close (pipeEnd : PipeEnd)
  | dup2 (pipeEnd : PipeEnd)
  | wait
  | execvp
deriving DecidableEq

/-- The grandchild, for the first command. -/
def firstCalls : List SystemCall := [.close .read, .dup2 .write, .execvp]

/-- The child, for the second command. -/
def secondCalls : List SystemCall := [.close .write, .dup2 .read, .wait, .execvp]

/-- The calls that are left, the descriptors `fd[i]` that are open, whether standard
input and standard output are the ends of the pipe, and whether the process has ended. -/
structure Process where
  calls : List SystemCall
  opened : PipeEnd → Bool
  standard : PipeEnd → Bool
  exited : Bool

/-- After the `fork`. -/
def Process.start (calls : List SystemCall) : Process where
  calls := calls
  opened := fun _ => true
  standard := fun _ => false
  exited := false

/-- The process has a descriptor for the end of the pipe. -/
def Process.holds (p : Process) (pipeEnd : PipeEnd) : Bool :=
  !p.exited && (p.opened pipeEnd || p.standard pipeEnd)

/-- What a system call does to the descriptors. -/
def SystemCall.perform (p : Process) : SystemCall → Process
  | .close pipeEnd => { p with opened := Function.update p.opened pipeEnd false }
  | .dup2 pipeEnd =>
      { p with
        standard := Function.update p.standard pipeEnd
          (p.opened pipeEnd || p.standard pipeEnd) }
  | .wait => p
  | .execvp => p

/-- The next system call of a process. `wait` blocks while a child is running. -/
def Process.call (childRunning : Bool) (p : Process) : Option Process :=
  match p.calls with
  | [] => none
  | next :: rest =>
      if next = .wait ∧ childRunning = true then none
      else some { next.perform p with calls := rest }

/-- The two processes, the bytes in the pipe, and the bytes that the first command has
written and the second has read so far. -/
structure Pipeline where
  first : Process
  second : Process
  buffered : ℕ
  written : ℕ
  consumed : ℕ

def Pipeline.start (first second : List SystemCall) : Pipeline where
  first := .start first
  second := .start second
  buffered := 0
  written := 0
  consumed := 0

inductive PipelineAction where
  | first
  | second
  | write (bytes : ℕ)
  | exit
  | read (bytes : ℕ)
  | endOfFile

/-- The steps for a pipe of a given capacity and a first command that writes `total`
bytes. The first process is the only child of the second and has none itself. -/
def pipelineStep (capacity total : ℕ) : PipelineAction → Pipeline → Option Pipeline
  | .first, s => (s.first.call false).map fun first => { s with first }
  | .second, s => (s.second.call !s.first.exited).map fun second => { s with second }
  | .write bytes, s =>
      if (s.first.calls = [] ∧ s.first.exited = false ∧ s.first.standard .write = true) ∧
          0 < bytes ∧ s.written + bytes ≤ total ∧ s.buffered + bytes ≤ capacity then
        some { s with buffered := s.buffered + bytes, written := s.written + bytes }
      else none
  | .exit, s =>
      if s.first.calls = [] ∧ s.first.exited = false ∧ s.written = total then
        some { s with first := { s.first with exited := true } }
      else none
  | .read bytes, s =>
      if (s.second.calls = [] ∧ s.second.exited = false ∧ s.second.standard .read = true) ∧
          0 < bytes ∧ bytes ≤ s.buffered then
        some { s with buffered := s.buffered - bytes, consumed := s.consumed + bytes }
      else none
  | .endOfFile, s =>
      if (s.second.calls = [] ∧ s.second.exited = false ∧ s.second.standard .read = true) ∧
          s.buffered = 0 ∧ s.first.holds .write = false ∧ s.second.holds .write = false then
        some { s with second := { s.second with exited := true } }
      else none

/-- No state is reached in which neither process can take a step although the second
command has not read all bytes. -/
def NeverStuck (first second : List SystemCall) (capacity total : ℕ) : Prop :=
  ∀ s, ReachedFrom (Pipeline.start first second) (pipelineStep capacity total) s →
    s.consumed < total → ∃ action, (pipelineStep capacity total action s).isSome

/-! ## Processes -/

/-- The process has or will have the end of the pipe as its standard stream, and never
closes it. -/
structure Process.Keeps (pipeEnd : PipeEnd) (p : Process) : Prop where
  opened : p.opened pipeEnd = true
  notClosed : .close pipeEnd ∉ p.calls
  standard : .dup2 pipeEnd ∈ p.calls ∨ p.standard pipeEnd = true

section Process

variable {p after : Process} {pipeEnd : PipeEnd} {childRunning : Bool}

theorem Process.Keeps.start {calls : List SystemCall} (notClosed : .close pipeEnd ∉ calls)
    (standard : .dup2 pipeEnd ∈ calls) : (Process.start calls).Keeps pipeEnd :=
  ⟨rfl, notClosed, Or.inl standard⟩

theorem Process.Keeps.holds (keeps : p.Keeps pipeEnd) (alive : p.exited = false) :
    p.holds pipeEnd = true := by
  simp [Process.holds, alive, keeps.opened]

theorem Process.call_cases (called : p.call childRunning = some after) :
    ∃ next rest, p.calls = next :: rest ∧ after = { next.perform p with calls := rest } := by
  rw [Process.call] at called
  split at called
  · cases called
  · next next rest calls =>
      split at called
      · cases called
      · exact ⟨next, rest, calls, (Option.some.inj called).symm⟩

theorem SystemCall.exited_perform (call : SystemCall) : (call.perform p).exited = p.exited := by
  cases call with
  | close _ => rfl
  | dup2 _ => rfl
  | wait => rfl
  | execvp => rfl

theorem Process.exited_call (called : p.call childRunning = some after) :
    after.exited = p.exited := by
  obtain ⟨next, rest, -, rfl⟩ := Process.call_cases called
  exact next.exited_perform

theorem Process.Keeps.call (keeps : p.Keeps pipeEnd) (called : p.call childRunning = some after) :
    after.Keeps pipeEnd := by
  obtain ⟨next, rest, calls, rfl⟩ := Process.call_cases called
  obtain ⟨opened, notClosed, standard⟩ := keeps
  rw [calls] at notClosed standard
  have stillNotClosed : .close pipeEnd ∉ rest := List.not_mem_of_not_mem_cons notClosed
  cases next with
  | close other =>
      have different : pipeEnd ≠ other := fun same => notClosed (by simp [same])
      refine ⟨?_, stillNotClosed, ?_⟩
      · simpa [SystemCall.perform, different] using opened
      · simpa [SystemCall.perform] using standard
  | dup2 other =>
      refine ⟨opened, stillNotClosed, ?_⟩
      by_cases same : pipeEnd = other
      · right
        simp [SystemCall.perform, ← same, opened]
      · simpa [SystemCall.perform, same] using standard
  | wait => exact ⟨opened, stillNotClosed, by simpa [SystemCall.perform] using standard⟩
  | execvp => exact ⟨opened, stillNotClosed, by simpa [SystemCall.perform] using standard⟩

/-- Only `wait` blocks. -/
theorem Process.call_isSome (left : p.calls ≠ [])
    (free : childRunning = false ∨ .wait ∉ p.calls) : (p.call childRunning).isSome := by
  obtain ⟨next, rest, calls⟩ := List.exists_cons_of_ne_nil left
  have passes : ¬(next = .wait ∧ childRunning = true) := by
    rintro ⟨rfl, running⟩
    cases free with
    | inl finished => exact Bool.false_ne_true (finished.symm.trans running)
    | inr never => exact never (by simp [calls])
  simp [Process.call, calls, passes]

end Process

/-! ## Runs of the pipeline -/

/-- What holds in every state: no byte is lost, and a process ends only after its last
byte. -/
structure Intact (total : ℕ) (s : Pipeline) : Prop where
  first : s.first.Keeps .write
  second : s.second.Keeps .read
  bytes : s.buffered + s.consumed = s.written
  atMost : s.written ≤ total
  firstEnds : s.first.exited = true → s.written = total
  secondEnds : s.second.exited = true → s.consumed = total

section Runs

variable {capacity total : ℕ} {s after : Pipeline} {action : PipelineAction}

theorem Intact.step (intact : Intact total s)
    (taken : pipelineStep capacity total action s = some after) : Intact total after := by
  obtain ⟨first, second, bytes, atMost, firstEnds, secondEnds⟩ := intact
  cases action with
  | first =>
      obtain ⟨process, called, rfl⟩ := Option.map_eq_some_iff.mp taken
      exact ⟨first.call called, second, bytes, atMost,
        by rwa [Process.exited_call called], secondEnds⟩
  | second =>
      obtain ⟨process, called, rfl⟩ := Option.map_eq_some_iff.mp taken
      exact ⟨first, second.call called, bytes, atMost, firstEnds,
        by rwa [Process.exited_call called]⟩
  | write count =>
      obtain ⟨can, ⟨⟩⟩ := Option.ite_none_right_eq_some.mp taken
      refine ⟨first, second, ?_, can.2.2.1, fun exited => ?_, secondEnds⟩
      · show s.buffered + count + s.consumed = s.written + count
        omega
      · exact absurd (can.1.2.1.symm.trans exited) Bool.false_ne_true
  | exit =>
      obtain ⟨can, ⟨⟩⟩ := Option.ite_none_right_eq_some.mp taken
      exact ⟨⟨first.opened, first.notClosed, first.standard⟩, second, bytes, atMost,
        fun _ => can.2.2, secondEnds⟩
  | read count =>
      obtain ⟨can, ⟨⟩⟩ := Option.ite_none_right_eq_some.mp taken
      refine ⟨first, second, ?_, atMost, firstEnds, fun exited => ?_⟩
      · show s.buffered - count + (s.consumed + count) = s.written
        omega
      · exact absurd (can.1.2.1.symm.trans exited) Bool.false_ne_true
  | endOfFile =>
      obtain ⟨can, ⟨⟩⟩ := Option.ite_none_right_eq_some.mp taken
      refine ⟨first, ⟨second.opened, second.notClosed, second.standard⟩, bytes, atMost,
        firstEnds, fun _ => ?_⟩
      -- The first process has the write end for as long as it lives.
      have ended : s.first.exited = true := by
        by_contra alive
        have holds := first.holds (Bool.eq_false_iff.mpr alive)
        exact Bool.false_ne_true (can.2.2.1.symm.trans holds)
      have all := firstEnds ended
      show s.consumed = total
      omega

/-- No write meets a pipe without a reader, which would end the first process. -/
theorem Intact.reader (intact : Intact total s) (unfinished : s.consumed < total) :
    s.second.holds .read = true := by
  refine intact.second.holds (Bool.eq_false_iff.mpr fun exited => ?_)
  have all := intact.secondEnds exited
  omega

theorem intact_of_reached {first second : List SystemCall}
    (firstKeeps : (Process.start first).Keeps .write)
    (secondKeeps : (Process.start second).Keeps .read)
    (reached : ReachedFrom (Pipeline.start first second) (pipelineStep capacity total) s) :
    Intact total s :=
  reached.invariant ⟨firstKeeps, secondKeeps, rfl, Nat.zero_le _,
    fun exited => absurd exited Bool.false_ne_true,
    fun exited => absurd exited Bool.false_ne_true⟩ Intact.step

/-- The second process takes a step when there is something to read, unless it waits. -/
theorem Intact.second_enabled (intact : Intact total s) (unfinished : s.consumed < total)
    (available : 0 < s.buffered) (free : s.first.exited = true ∨ .wait ∉ s.second.calls) :
    ∃ action, (pipelineStep capacity total action s).isSome := by
  have alive : s.second.exited = false := Bool.eq_false_iff.mpr fun exited => by
    have all := intact.secondEnds exited
    omega
  by_cases calling : s.second.calls = []
  · have reads : s.second.standard .read = true := by
      simpa [calling] using intact.second.standard
    refine ⟨.read 1, ?_⟩
    rw [pipelineStep, if_pos ⟨⟨calling, alive, reads⟩, Nat.one_pos, available⟩]
    rfl
  · refine ⟨.second, ?_⟩
    rw [pipelineStep, Option.isSome_map]
    exact Process.call_isSome calling (free.imp_left fun exited => by simp [exited])

/-- The first process takes a step unless it has ended or the pipe is full. -/
theorem Intact.first_enabled (intact : Intact total s) (alive : s.first.exited = false)
    (space : s.buffered < capacity ∨ s.written = total) :
    ∃ action, (pipelineStep capacity total action s).isSome := by
  by_cases calling : s.first.calls = []
  · have writes : s.first.standard .write = true := by
      simpa [calling] using intact.first.standard
    by_cases all : s.written = total
    · refine ⟨.exit, ?_⟩
      rw [pipelineStep, if_pos ⟨calling, alive, all⟩]
      rfl
    · have more : s.written + 1 ≤ total := Nat.lt_of_le_of_ne intact.atMost all
      refine ⟨.write 1, ?_⟩
      rw [pipelineStep, if_pos ⟨⟨calling, alive, writes⟩, Nat.one_pos, more,
        space.resolve_right all⟩]
      rfl
  · refine ⟨.first, ?_⟩
    rw [pipelineStep, Option.isSome_map]
    exact Process.call_isSome calling (Or.inl rfl)

/-- Some step is possible when all bytes fit into the pipe, or when the second process
does not wait. -/
theorem Intact.enabled (intact : Intact total s) (unfinished : s.consumed < total)
    (enough : total ≤ capacity ∨ (0 < capacity ∧ .wait ∉ s.second.calls)) :
    ∃ action, (pipelineStep capacity total action s).isSome := by
  have bytes := intact.bytes
  cases exited : s.first.exited with
  | true =>
      have all := intact.firstEnds exited
      exact intact.second_enabled unfinished (by omega) (Or.inl exited)
  | false =>
      by_cases space : s.buffered < capacity ∨ s.written = total
      · exact intact.first_enabled exited space
      · have atMost := intact.atMost
        obtain ⟨positive, never⟩ := enough.resolve_left (by omega)
        exact intact.second_enabled unfinished (by omega) (Or.inr never)

theorem firstCalls_keeps : (Process.start firstCalls).Keeps .write :=
  .start (by decide) (by decide)

theorem secondCalls_keeps : (Process.start secondCalls).Keeps .read :=
  .start (by decide) (by decide)

end Runs

/-! ## The deadlock -/

section Deadlock

variable {capacity total : ℕ}

/-- The first command writes into a full pipe, and the second process waits for the
first one to end. -/
def deadlock (capacity : ℕ) : Pipeline where
  first := {
    calls := []
    opened := Function.update (fun _ => true) .read false
    standard := Function.update (fun _ => false) .write true
    exited := false }
  second := {
    calls := [.wait, .execvp]
    opened := Function.update (fun _ => true) .write false
    standard := Function.update (fun _ => false) .read true
    exited := false }
  buffered := capacity
  written := capacity
  consumed := 0

theorem deadlock_reached (small : capacity < total) :
    ReachedFrom (Pipeline.start firstCalls secondCalls) (pipelineStep capacity total)
      (deadlock capacity) := by
  let ready : Pipeline := { deadlock capacity with buffered := 0, written := 0 }
  have called : runActions (pipelineStep capacity total)
      [.first, .first, .first, .second, .second] (Pipeline.start firstCalls secondCalls) =
      some ready := rfl
  have reached := ReachedFrom.run .start called
  by_cases positive : 0 < capacity
  · refine reached.step (.write capacity) ?_
    rw [pipelineStep, if_pos ⟨⟨rfl, rfl, rfl⟩, positive, by simpa [ready] using small.le,
      by simp [ready]⟩]
    simp [ready, deadlock]
  · obtain rfl : capacity = 0 := by omega
    exact reached

theorem deadlock_stuck (small : capacity < total) (action : PipelineAction) :
    pipelineStep capacity total action (deadlock capacity) = none := by
  cases action with
  | first => rfl
  | second => rfl
  | write bytes =>
      refine if_neg fun can => ?_
      have full : capacity + bytes ≤ capacity := can.2.2.2
      omega
  | exit => exact if_neg fun can => Nat.ne_of_lt small can.2.2
  | read bytes =>
      rw [pipelineStep, if_neg]
      intro can
      exact List.cons_ne_nil _ _ can.1.1
  | endOfFile =>
      rw [pipelineStep, if_neg]
      intro can
      exact List.cons_ne_nil _ _ can.1.1

theorem not_neverStuck (small : capacity < total) :
    ¬NeverStuck firstCalls secondCalls capacity total := by
  intro never
  obtain ⟨action, enabled⟩ := never _ (deadlock_reached small) (Nat.zero_lt_of_lt small)
  rw [deadlock_stuck small] at enabled
  exact Bool.false_ne_true enabled

/-- The pipeline never gets stuck exactly when the pipe can hold all that the first
command writes. -/
theorem neverStuck_iff (capacity total : ℕ) :
    NeverStuck firstCalls secondCalls capacity total ↔ total ≤ capacity := by
  constructor
  · intro never
    exact Nat.le_of_not_lt fun small => not_neverStuck small never
  · intro fits s reached unfinished
    exact (intact_of_reached firstCalls_keeps secondCalls_keeps reached).enabled unfinished
      (Or.inl fits)

/-- One byte more than a pipe of 64 KiB holds. -/
theorem long_output_demo : ¬NeverStuck firstCalls secondCalls 65536 65537 :=
  not_neverStuck (by decide)

end Deadlock

/-! ## Without the `wait` -/

section Immediate

variable {capacity total : ℕ} {first second : List SystemCall} {s after : Pipeline}

def CallsLeft (second : List SystemCall) (s : Pipeline) : Prop :=
  s.second.calls <:+ second

/-- The calls of the second process are worked off in their order. -/
theorem CallsLeft.step {action : PipelineAction} (left : CallsLeft second s)
    (taken : pipelineStep capacity total action s = some after) : CallsLeft second after := by
  cases action with
  | second =>
      obtain ⟨process, called, rfl⟩ := Option.map_eq_some_iff.mp taken
      obtain ⟨next, rest, calls, rfl⟩ := Process.call_cases called
      rw [CallsLeft, calls] at left
      exact (List.suffix_cons next rest).trans left
  | first =>
      obtain ⟨process, called, rfl⟩ := Option.map_eq_some_iff.mp taken
      exact left
  | write bytes =>
      obtain ⟨-, ⟨⟩⟩ := Option.ite_none_right_eq_some.mp taken
      exact left
  | exit =>
      obtain ⟨-, ⟨⟩⟩ := Option.ite_none_right_eq_some.mp taken
      exact left
  | read bytes =>
      obtain ⟨-, ⟨⟩⟩ := Option.ite_none_right_eq_some.mp taken
      exact left
  | endOfFile =>
      obtain ⟨-, ⟨⟩⟩ := Option.ite_none_right_eq_some.mp taken
      exact left

theorem noWait_of_reached (never : .wait ∉ second)
    (reached : ReachedFrom (Pipeline.start first second) (pipelineStep capacity total) s) :
    .wait ∉ s.second.calls := by
  have initially : CallsLeft second (Pipeline.start first second) := List.suffix_refl second
  have left : CallsLeft second s := reached.invariant initially CallsLeft.step
  exact fun member => never (left.subset member)

/-- The second command may as well start at once: then any pipe is large enough. -/
theorem neverStuck_immediately (capacity total : ℕ) (positive : 0 < capacity) :
    NeverStuck firstCalls (secondCalls.erase .wait) capacity total := by
  intro s reached unfinished
  have keeps : (Process.start (secondCalls.erase .wait)).Keeps .read :=
    .start (by decide) (by decide)
  exact (intact_of_reached firstCalls_keeps keeps reached).enabled unfinished
    (Or.inr ⟨positive, noWait_of_reached (by decide) reached⟩)

end Immediate

end OsProjects.Shell
