import OsProjects.Shell.Redirection
import OsProjects.Shell.Waiting

/-!
Owns the processes of a call of `run_command` by the way they leave it: when the shell is the
only one that comes back to the loop of `main`.

Does not own what a process executes or when it ends.
-/

namespace OsProjects.Shell

open OsProjects.C

/-! ## What the processes are asked to do -/

/-- The part of the line that a process gets. -/
def commandFor (line : List Token) : Role → List Token
  | .shell => []
  | .child => if secondCommand line = [] then firstCommand line else secondCommand line
  | .grandchild => firstCommand line

/-- The files that a process redirects to: in a pipe, the second command writes to a file and
the first reads from one. -/
def filesFor (line : List Token) : Role → Files
  | .shell => .unassigned
  | .child =>
      if secondCommand line = [] then (redirected 2 (firstCommand line)).files
      else (redirected 2 (secondCommand line)).files.only .output
  | .grandchild => (redirected 2 (firstCommand line)).files.only .input

def Fate.Returns : Fate → Prop
  | .returns _ => True
  | .executes _ _ _ => False

/-- The process executes the words. -/
def Fate.Executes (words : List Token) : Fate → Prop
  | .returns _ => False
  | .executes args base _ => Window args base (words.map some)

/-- The shell returns, and any other process executes the words of its command. -/
def ProperFate (line : List Token) : Role → Fate → Prop
  | .shell, fate => fate.Returns
  | role, fate => fate.Executes (redirected 2 (commandFor line role)).words

/-- Of all processes of the call, only the shell comes back to the loop of `main`, and the
others execute their programs. -/
def OnlyShellReturns (system : System) (call : Call) : Prop :=
  ∃ processes, system.runCommand call.args call.tokens.length = .ok processes ∧
    ∀ process ∈ processes, ProperFate (afterAmpersand call.tokens) process.1 process.2

/-- The process can open its files and execute its program. -/
def System.Starts (system : System) (line : List Token) (role : Role) : Prop :=
  (filesFor line role).Open (system.opens role) ∧ system.executes role = true

/-- No call of the child or the grandchild fails. -/
def System.StartsAll (system : System) (line : List Token) : Prop :=
  if secondCommand line = [] then
    system.Starts line .child
  else
    system.forks .child = true ∧ system.Starts line .child ∧ system.Starts line .grandchild

instance (system : System) (line : List Token) (role : Role) :
    Decidable (system.Starts line role) :=
  inferInstanceAs (Decidable (_ ∧ _))

instance (system : System) (line : List Token) : Decidable (system.StartsAll line) := by
  unfold System.StartsAll
  infer_instance

section Processes

variable {system : System} {role : Role} {args : Args} {base : ℕ} {tokens line : List Token}
variable {value : Option Token} {kept : Files}

/-- A process executes its words when its files open and `execvp` does not fail, and returns
otherwise. -/
theorem execute_ok (system : System) (role : Role) (mask : UInt32 → UInt32)
    (window : Window args base (tokens.map some ++ [value]))
    (masked : mask (flagOf (redirected 2 tokens).files) = flagOf kept)
    (among : kept.Among (redirected 2 tokens).files) :
    ∃ fate, system.execute role args base tokens.length mask = .ok fate ∧
      (fate.Executes (redirected 2 tokens).words ↔ ¬fate.Returns) ∧
      (fate.Executes (redirected 2 tokens).words ↔
        kept.Open (system.opens role) ∧ system.executes role = true) := by
  obtain ⟨after, found, left⟩ := checkRedirection_ok window
  rw [System.execute, found]
  simp only [ok_bind, masked]
  by_cases opened : kept.Open (system.opens role)
  · rw [redirectIo_ok among opened]
    by_cases executed : system.executes role = true
    · exact ⟨_, if_pos executed, iff_of_true left.left id, iff_of_true left.left ⟨opened, executed⟩⟩
    · exact ⟨_, if_neg executed, iff_of_false id fun stays => stays trivial,
        iff_of_false id fun both => executed both.2⟩
  · rw [redirectIo_failed among opened]
    exact ⟨_, rfl, iff_of_false id fun stays => stays trivial,
      iff_of_false id fun both => opened both.1⟩

theorem pipeAt_of_second (piped : secondCommand line ≠ []) :
    ∃ place, pipeAt line = some place := by
  cases pipe : pipeAt line with
  | none => exact absurd (by simp [secondCommand, pipe]) piped
  | some place => exact ⟨place, rfl⟩

/-- A process that the shell has forked: it executes its words or returns. -/
def Descends (line : List Token) (process : Role × Fate) : Prop :=
  process.1 ≠ .shell ∧ (ProperFate line process.1 process.2 ↔ ¬process.2.Returns)

/-- The processes that are forked all execute their words exactly when no call fails. -/
theorem runChild_ok (system : System) (args : Args) {number : ℕ} (inside : line.length ≤ number)
    (room : number < argsSize) :
    ∃ children, system.runChild (commandsOf args number line) = .ok children ∧ children ≠ [] ∧
      (∀ process ∈ children, Descends line process) ∧
      ((∀ process ∈ children, ProperFate line process.1 process.2) ↔ system.StartsAll line) := by
  have first := window_firstCommand args inside room
  by_cases plain : secondCommand line = []
  · obtain ⟨fate, run, leaves, executes⟩ :=
      execute_ok system .child id first rfl (Files.among_self _)
    refine ⟨[(.child, fate)], ?_, List.cons_ne_nil _ _, ?_, ?_⟩
    · simp [System.runChild, commandsOf, plain, run]
    · simpa [Descends, ProperFate, commandFor, plain] using leaves
    · simpa [System.StartsAll, System.Starts, ProperFate, commandFor, filesFor, plain]
        using executes
  · obtain ⟨place, pipe⟩ := pipeAt_of_second plain
    have second := window_secondCommand args inside room pipe
    obtain ⟨child, runSecond, secondLeaves, secondExecutes⟩ :=
      execute_ok system .child (· &&& 2) second (flagOf_mask _ .output) (Files.only_among _ _)
    obtain ⟨grandchild, runFirst, firstLeaves, firstExecutes⟩ :=
      execute_ok system .grandchild (· &&& 1) first (flagOf_mask _ .input) (Files.only_among _ _)
    by_cases forked : system.forks .child = true
    · refine ⟨[(.child, child), (.grandchild, grandchild)], ?_, List.cons_ne_nil _ _, ?_, ?_⟩
      · simp [System.runChild, commandsOf, plain, pipe, forked, runFirst, runSecond]
      · simpa [Descends, ProperFate, commandFor, plain] using And.intro secondLeaves firstLeaves
      · simpa [System.StartsAll, System.Starts, ProperFate, commandFor, filesFor, plain, forked]
          using and_congr secondExecutes firstExecutes
    · refine ⟨[(.child, .returns 1)], ?_, List.cons_ne_nil _ _, ?_, ?_⟩
      · simp [System.runChild, commandsOf, plain, pipe, forked]
      · simp [Descends, ProperFate, Fate.Executes, Fate.Returns]
      · simp [System.StartsAll, plain, forked, ProperFate, Fate.Executes]

/-- The shell comes back, alone when its `fork` fails. -/
theorem runCommand_forks (system : System) (call : Call) (room : call.tokens.length < argsSize) :
    (system.forks .shell = false ∧
      system.runCommand call.args call.tokens.length = .ok [(.shell, .returns 0)]) ∨
    (system.forks .shell = true ∧ ∃ children, children ≠ [] ∧
      system.runCommand call.args call.tokens.length = .ok ((.shell, .returns 1) :: children) ∧
      (∀ process ∈ children, Descends (afterAmpersand call.tokens) process) ∧
      ((∀ process ∈ children, ProperFate (afterAmpersand call.tokens) process.1 process.2) ↔
        system.StartsAll (afterAmpersand call.tokens))) := by
  have split := splitCommand_eq call.behind call.nonempty call.words call.fits
  obtain ⟨children, runChild, nonempty, descend, all⟩ := runChild_ok system call.behind
    (length_afterAmpersand_le call.tokens) room
  cases forked : system.forks .shell with
  | true =>
      refine Or.inr ⟨rfl, children, nonempty, ?_, descend, all⟩
      simp [System.runCommand, Call.args, split, forked, runChild]
  | false =>
      refine Or.inl ⟨rfl, ?_⟩
      simp [System.runCommand, Call.args, split, forked]

/-- Only the shell returns from the call exactly when its `fork` fails or no `fork`, `open` or
`execvp` of a descendant does. A line has fewer tokens than the array has slots
(`length_tokensNow`). -/
theorem onlyShellReturns_iff (system : System) (call : Call)
    (room : call.tokens.length < argsSize) :
    OnlyShellReturns system call ↔
      (system.forks .shell = true → system.StartsAll (afterAmpersand call.tokens)) := by
  have shell : ∀ value, ProperFate (afterAmpersand call.tokens) .shell (.returns value) :=
    fun _ => trivial
  rcases runCommand_forks system call room with ⟨alone, run⟩ | ⟨forked, children, _, run, _, all⟩
  · simp only [OnlyShellReturns, run, Except.ok.injEq, exists_eq_left', List.forall_mem_singleton,
      shell, alone, Bool.false_eq_true, false_implies]
  · simp only [OnlyShellReturns, run, Except.ok.injEq, exists_eq_left', List.forall_mem_cons, shell,
      true_and, all, forked, forall_const]

/-- `ls | wc > out` -/
def countFiles : Call where
  tokens := [['l', 's'], ['|'], ['w', 'c'], ['>'], ['o', 'u', 't']]
  behind := initArgs
  nonempty := by decide
  words := by decide
  fits := by decide

/-- Every call succeeds. -/
def everythingWorks : System where
  forks _ := true
  opens _ _ := true
  executes _ := true

theorem onlyShellReturns_demo : OnlyShellReturns everythingWorks countFiles :=
  (onlyShellReturns_iff everythingWorks countFiles (by decide)).mpr fun _ =>
    ⟨rfl, ⟨fun _ _ => rfl, rfl⟩, fun _ _ => rfl, rfl⟩

/-- `nosuchcommand` -/
def unknownProgram : Call where
  tokens := [['n', 'o', 's', 'u', 'c', 'h', 'c', 'o', 'm', 'm', 'a', 'n', 'd']]
  behind := initArgs
  nonempty := by decide
  words := by decide
  fits := by decide

/-- Every call succeeds but `execvp`. -/
def nothingExecutes : System where
  forks _ := true
  opens _ _ := true
  executes _ := false

/-- The child comes back to the loop of `main` when its program is not found. -/
theorem child_returns_demo : ¬OnlyShellReturns nothingExecutes unknownProgram := by
  rintro ⟨_, run, proper⟩
  cases run
  exact proper (.child, .returns 1) (by simp)

end Processes

end OsProjects.Shell
