import OsProjects.Shell.Processes

/-!
Owns the program names that `run_command` hands to `execvp`: which lines make a process execute
an empty command.

The loop of `main` only looks at the number of tokens. The ampersand, the pipe and the
redirections are taken out after that, and nothing looks at what is left. A token that an
earlier line left behind the line is then taken for the program.

Does not own how a process leaves `run_command` (`Processes`).
-/

namespace OsProjects.Shell

open OsProjects.C

/-- A process that calls `execvp` hands it a program name. -/
def Fate.Named : Fate → Prop
  | .returns _ => True
  | .executes args base _ => ∃ name, read args base = .ok (some name)

/-- Whatever calls succeed, no process executes an empty command. A call of `execvp` gets the
same arguments whether it succeeds or not. -/
def NeverEmpty (args : Args) (argsNum : ℕ) : Prop :=
  ∀ system : System, ∃ processes, system.runCommand args argsNum = .ok processes ∧
    ∀ process ∈ processes, process.2.Named

/-- A token is left when the redirections are taken out of the command, or else the slot behind
it is not `NULL`. -/
def HasProgram (command : List Token) (behind : Option Token) : Prop :=
  (redirected 2 command).words ≠ [] ∨ behind.isSome

instance (command : List Token) (behind : Option Token) : Decidable (HasProgram command behind) :=
  inferInstanceAs (Decidable (_ ∨ _))

/-- Each command of the line has a program, when the line got the first `number` slots of the
array. -/
def HasPrograms (behind : Args) (number : ℕ) (line : List Token) : Prop :=
  HasProgram (firstCommand line) (slotBehindFirst behind number line) ∧
    (secondCommand line ≠ [] → HasProgram (secondCommand line) (slotBehind behind number line))

instance (behind : Args) (number : ℕ) (line : List Token) :
    Decidable (HasPrograms behind number line) :=
  inferInstanceAs (Decidable (_ ∧ (_ → _)))

section EmptyCommands

variable {args : Args} {base : ℕ} {words command tokens line : List Token} {value : Option Token}

theorem named_iff_of_window (window : Window args base (words.map some ++ [value])) :
    (∃ name, read args base = .ok (some name)) ↔ words ≠ [] ∨ value.isSome := by
  cases words with
  | nil =>
      have first : read args base = .ok value := window 0 value rfl
      simp [first, Option.isSome_iff_exists]
  | cons name others =>
      have first : read args base = .ok (some name) := window 0 (some name) rfl
      simp [first]

/-- `redirect_io` does not fail when every file opens. -/
theorem redirectIo_of_opens {opens : Direction → Bool} (all : ∀ direction, opens direction = true)
    (ioFlag : UInt32) (files : Files) :
    ∃ streams, redirectIo opens ioFlag files = some streams := by
  have stream : ∀ direction, ∃ file, redirectStream opens ioFlag files direction = some file := by
    intro direction
    rw [redirectStream, all, if_pos rfl]
    split
    · exact ⟨_, rfl⟩
    · exact ⟨_, rfl⟩
  obtain ⟨output, outputOpened⟩ := stream .output
  obtain ⟨input, inputOpened⟩ := stream .input
  rw [redirectIo, outputOpened, inputOpened]
  exact ⟨_, rfl⟩

/-- A process hands `execvp` a program name if its command has one. When every call succeeds it
does so in no other case. -/
theorem execute_named (system : System) (role : Role) (mask : UInt32 → UInt32)
    (window : Window args base (command.map some ++ [value])) :
    ∃ fate, system.execute role args base command.length mask = .ok fate ∧
      (HasProgram command value → fate.Named) ∧
      (system = everythingWorks → fate.Named → HasProgram command value) := by
  obtain ⟨after, found, left⟩ := checkRedirection_ok window
  rw [System.execute, found]
  simp only [ok_bind]
  cases opened : redirectIo (system.opens role) (mask (flagOf (redirected 2 command).files))
      (redirected 2 command).files with
  | none =>
      refine ⟨_, rfl, fun _ => trivial, ?_⟩
      rintro rfl
      obtain ⟨streams, succeeds⟩ := @redirectIo_of_opens (everythingWorks.opens role)
        (fun _ => rfl) (mask (flagOf (redirected 2 command).files)) (redirected 2 command).files
      rw [opened] at succeeds
      cases succeeds
  | some files =>
      by_cases executed : system.executes role = true
      · refine ⟨_, if_pos executed, ?_, fun _ => ?_⟩
        · exact (named_iff_of_window left).mpr
        · exact (named_iff_of_window left).mp
      · refine ⟨_, if_neg executed, fun _ => trivial, ?_⟩
        rintro rfl
        exact absurd rfl executed

/-- The processes that are forked have programs exactly when the commands do. -/
theorem runChild_named (args : Args) {number : ℕ} (inside : line.length ≤ number)
    (room : number < argsSize) (system : System) :
    ∃ children, system.runChild (commandsOf args number line) = .ok children ∧
      (HasPrograms args number line → ∀ process ∈ children, process.2.Named) ∧
      (system = everythingWorks → (∀ process ∈ children, process.2.Named) →
        HasPrograms args number line) := by
  have first := window_firstCommand args inside room
  by_cases plain : secondCommand line = []
  · obtain ⟨fate, run, named, onlyThen⟩ := execute_named system .child id first
    refine ⟨[(.child, fate)], ?_, ?_, ?_⟩
    · simp [System.runChild, commandsOf, plain, run]
    · simpa [HasPrograms, plain] using named
    · simpa [HasPrograms, plain] using onlyThen
  · obtain ⟨place, pipe⟩ := pipeAt_of_second plain
    have second := window_secondCommand args inside room pipe
    obtain ⟨child, runSecond, secondNamed, onlySecond⟩ :=
      execute_named system .child (· &&& 2) second
    obtain ⟨grandchild, runFirst, firstNamed, onlyFirst⟩ :=
      execute_named system .grandchild (· &&& 1) first
    by_cases forked : system.forks .child = true
    · refine ⟨[(.child, child), (.grandchild, grandchild)], ?_, ?_, ?_⟩
      · simp [System.runChild, commandsOf, plain, pipe, forked, runFirst, runSecond]
      · rintro ⟨hasFirst, hasSecond⟩
        simp [firstNamed hasFirst, secondNamed (hasSecond plain)]
      · intro works named
        simp only [List.forall_mem_cons] at named
        exact ⟨onlyFirst works named.2.1, fun _ => onlySecond works named.1⟩
    · refine ⟨[(.child, .returns 1)], ?_, ?_, ?_⟩
      · simp [System.runChild, commandsOf, plain, pipe, forked]
      · simp [Fate.Named]
      · rintro rfl
        exact absurd rfl forked

/-- A call of `run_command` never executes an empty command exactly when each command has a
program. -/
theorem neverEmpty_laid (behind : Args) (nonempty : tokens ≠ [])
    (words : ∀ token ∈ tokens, token ≠ []) (room : tokens.length < argsSize) :
    NeverEmpty (laid behind tokens.length tokens) tokens.length ↔
      HasPrograms behind tokens.length (afterAmpersand tokens) := by
  have split := splitCommand_eq behind nonempty words room.le
  have children := runChild_named behind (length_afterAmpersand_le tokens) room
  constructor
  · intro never
    obtain ⟨processes, run, named⟩ := never everythingWorks
    obtain ⟨forked, runChild, _, onlyThen⟩ := children everythingWorks
    have all : everythingWorks.runCommand (laid behind tokens.length tokens) tokens.length =
        .ok ((.shell, .returns 1) :: forked) := by
      have forks : everythingWorks.forks .shell = true := rfl
      simp [System.runCommand, split, forks, runChild]
    rw [all, Except.ok.injEq] at run
    subst run
    exact onlyThen rfl fun process member => named process (List.mem_cons_of_mem _ member)
  · intro programs system
    obtain ⟨forked, runChild, named, _⟩ := children system
    by_cases shellForks : system.forks .shell = true
    · refine ⟨(.shell, .returns 1) :: forked, ?_, ?_⟩
      · simp [System.runCommand, split, shellForks, runChild]
      · exact List.forall_mem_cons.mpr ⟨trivial, named programs⟩
    · refine ⟨[(.shell, .returns 0)], ?_, ?_⟩
      · simp [System.runCommand, split, shellForks]
      · simp [Fate.Named]

/-- The shell executes no empty command for a line with tokens exactly when, after the removal
of the ampersand, each command of the line has a program. -/
theorem neverEmpty_iff (behind : Args) {command : List Char} (short : command.length ≤ maxLine)
    (nonempty : tokensOf command ≠ []) :
    ∃ args argsNum, parseInput behind command = .ok (argsNum, args) ∧
      (NeverEmpty args argsNum ↔
        HasPrograms behind argsNum (afterAmpersand (tokensOf command))) := by
  have bound := length_tokensOf command
  have room : (tokensOf command).length < argsSize := by
    simp only [argsSize, maxLine] at *
    omega
  exact ⟨_, _, parseInput_ok behind room.le,
    neverEmpty_laid behind nonempty (fun _ => ne_nil_of_mem_tokensOf) room⟩

/-- `ls > out &` -/
theorem neverEmpty_demo :
    ∃ args argsNum, parseInput initArgs ['l', 's', ' ', '>', ' ', 'o', ' ', '&'] =
        .ok (argsNum, args) ∧
      (NeverEmpty args argsNum ↔ HasPrograms initArgs argsNum
        (afterAmpersand (tokensOf ['l', 's', ' ', '>', ' ', 'o', ' ', '&']))) :=
  neverEmpty_iff initArgs (by decide) (by decide)

/-- A line of a single `&` has one token, and nothing is left of it when the child calls
`execvp`. -/
theorem ampersand_alone_demo :
    ∃ args, parseInput initArgs ['&', '\n'] = .ok (1, args) ∧ ¬NeverEmpty args 1 := by
  refine ⟨_, rfl, fun never => ?_⟩
  obtain ⟨processes, run, named⟩ := never everythingWorks
  cases run
  obtain ⟨name, program⟩ := named (.child, _) (List.mem_cons_of_mem _ (List.mem_singleton.mpr rfl))
  cases program

end EmptyCommands

end OsProjects.Shell
