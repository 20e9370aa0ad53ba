import OsProjects.C.Iteration
import OsProjects.C.Stream
import OsProjects.Shell.Processes

/-!
Owns the loop of `main` of the shell over its whole standard input: it is left exactly when a
line that it reads has `exit` as its first token.

A line is what one call of `fgets` reads, so that a longer one counts as several. At the end of
the input `get_input` fails and the loop starts again, without a command.

The processes of a command have the same standard input. One that comes back from `run_command`
into the loop reads lines of it, and its `fflush(stdin)` and `exit` move the offset from which
the shell goes on; a program may use it as well. What the shell finds after that is left open.
Until then it reads the lines of its input one after the other. As in `Children`, `wait(NULL)`
returns.

Does not own what the other processes do with the input, when they end, or what stays in the array
for the next command (`Arguments`).
-/

namespace OsProjects.Shell

open OsProjects.C

/-- What the loop of the shell depends on besides its input, by the number of the iteration. -/
structure World where
  /-- The calls of the processes that the iteration starts. -/
  system : ℕ → System
  /-- A program that the iteration starts uses the standard input of the shell, or changes what is
  in it. -/
  uses : ℕ → Bool
  /-- What the shell finds when other processes have the rest of the input too. -/
  leaves : ℕ → List Char → List Char

/-- The input from which an iteration reads its line. -/
def World.found (world : World) (turn : ℕ) (shared : Bool) (input : List Char) : List Char :=
  if shared then world.leaves turn input else input

/-- A process that uses the standard input: it has come back to the loop of `main`, or its program
does. -/
def Fate.usesInput (programUses : Bool) : Fate → Bool
  | .returns _ => true
  | .executes _ _ _ => programUses

/-- A process besides the shell uses the input. -/
def World.shares (world : World) (turn : ℕ) (process : Role × Fate) : Bool :=
  process.1 ≠ .shell && process.2.usesInput (world.uses turn)

/-- The number of the iteration, the standard input that is left, whether other processes use it,
and the variables of `main`. -/
structure Prompt where
  turn : ℕ
  input : List Char
  shared : Bool
  session : Session

def Prompt.start (input : List Char) : Prompt where
  turn := 0
  input := input
  shared := false
  session := .start

/-- One iteration of the loop of `main`. -/
def promptBody (world : World) (p : Prompt) : Outcome (LoopStep Unit Prompt) := do
  let (text, input) := fgets (maxLine + 1) (world.found p.turn p.shared p.input)
  match ← mainBody (text.map cString) p.session with
  | .continued session => pure (.next ⟨p.turn + 1, input, p.shared, session⟩)
  | .ran args argsNum session =>
      let processes ← (world.system p.turn).runCommand args argsNum
      let shared := p.shared || processes.any (world.shares p.turn)
      pure (.next ⟨p.turn + 1, input, shared, session⟩)
  | .left => pure (.exit ())

/-- The string that a call of `fgets` leaves in the buffer. -/
structure Stored where
  text : List Char
  short : text.length ≤ maxLine

/-- The loop of `main` over what calls of `fgets` leave in the buffer, `none` for one that fails. -/
def mainLoop : List (Option Stored) → Session → Outcome (LoopStep Unit Session)
  | [], s => pure (.next s)
  | line :: lines, s => do
      match ← mainBody (line.map Stored.text) s with
      | .continued session => mainLoop lines session
      | .ran _ _ session => mainLoop lines session
      | .left => pure (.exit ())

/-- At the end of the input no command is run. -/
def RunsFromInput (world : World) (p : Prompt) : Prop :=
  world.found p.turn p.shared p.input = [] → ∀ args argsNum session,
    mainBody none p.session ≠ .ok (.ran args argsNum session)

/-- The shell leaves its loop after finitely many iterations, and runs no command once the input
has ended. -/
def ShellStops (world : World) (input : List Char) : Prop :=
  Leaves (promptBody world) (RunsFromInput world) (.start input)

/-! ## The lines that say `exit` -/

/-- The first token of the text is `exit`. -/
def Exits (text : List Char) : Prop := (tokensOf text).head? = some ['e', 'x', 'i', 't']

instance (text : List Char) : Decidable (Exits text) :=
  inferInstanceAs (Decidable (_ = _))

/-- The last command, once `fgets` has stored a line or failed. -/
def recorded (line : Option (List Char)) (command : List Char) : List Char :=
  (getInput line command).getD command

/-- The tokens of the command that an iteration runs, if it runs one. -/
def tokensGiven (line : Option (List Char)) (command : List Char) : List Token :=
  ((getInput line command).map tokensOf).getD []

/-- A process of the command uses the input: the shell forks, and some call of the others fails,
or a program uses it. -/
def World.Spreads (world : World) (turn : ℕ) (tokens : List Token) : Prop :=
  tokens ≠ [] ∧ (world.system turn).forks .shell = true ∧
    ((world.system turn).StartsAll (afterAmpersand tokens) → world.uses turn = true)

instance (world : World) (turn : ℕ) (tokens : List Token) :
    Decidable (world.Spreads turn tokens) :=
  inferInstanceAs (Decidable (_ ∧ _ ∧ (_ → _)))

/-- From an iteration on, a line that says `exit` is read; the last command and the input are
those that the iteration starts with. -/
inductive ReadsExitFrom (world : World) : ℕ → List Char → List Char → Bool → Prop where
  | here {turn : ℕ} {command input line rest : List Char} {shared : Bool}
      (read : fgets (maxLine + 1) (world.found turn shared input) = (some line, rest))
      (exits : Exits (cString line)) : ReadsExitFrom world turn command input shared
  | later {turn : ℕ} {command input rest : List Char} {text : Option (List Char)} {shared : Bool}
      (read : fgets (maxLine + 1) (world.found turn shared input) = (text, rest))
      (reads : ReadsExitFrom world (turn + 1) (recorded (text.map cString) command) rest
        (shared || world.Spreads turn (tokensGiven (text.map cString) command))) :
      ReadsExitFrom world turn command input shared

/-- The shell reads a line that says `exit`. -/
def ReadsExit (world : World) (input : List Char) : Prop := ReadsExitFrom world 0 [] input false

/-- Some line of the input says `exit`. -/
def ExitTyped (input : List Char) : Prop :=
  ∃ line ∈ fgetsAll (maxLine + 1) input, Exits (cString line)

/-- Up to a line that says `exit`, no process of a command uses the input. -/
def UndisturbedFrom (world : World) : ℕ → List Char → List (List Char) → Prop
  | _, _, [] => True
  | turn, command, line :: lines =>
      Exits (cString line) ∨
        ¬world.Spreads turn (tokensGiven (some (cString line)) command) ∧
          UndisturbedFrom world (turn + 1) (recorded (some (cString line)) command) lines

def Undisturbed (world : World) (input : List Char) : Prop :=
  UndisturbedFrom world 0 [] (fgetsAll (maxLine + 1) input)

/-! ## One iteration -/

/-- What holds at every prompt, whatever was typed: the last slot of the array is free, and the
last command is not `exit`. -/
structure Ready (s : Session) : Prop where
  ended : s.args ⟨maxLine / 2, by decide⟩ = none
  short : s.command.length ≤ maxLine
  stayed : ¬Exits s.command

/-- An iteration that comes back to the prompt: it runs its command, unless the command has no
tokens. -/
inductive GoesOn (line : Option (List Char)) (s after : Session) : Prop where
  | idle (blank : tokensGiven line s.command = []) (turn : mainBody line s = .ok (.continued after))
  | runs (call : Call) (room : call.tokens.length < argsSize)
      (given : call.tokens = tokensGiven line s.command)
      (turn : mainBody line s = .ok (.ran call.args call.tokens.length after))

section Iteration

variable {s : Session} {args : Args} {line : Option (List Char)} {text : List Char}

theorem ready_start : Ready Session.start where
  ended := rfl
  short := Nat.zero_le _
  stayed := by simp [Exits, Session.start]

/-- `refresh_args` ends when the last slot is free, and leaves it free. -/
theorem refreshArgs_ended (ended : args ⟨maxLine / 2, by decide⟩ = none) :
    ∃ refreshed, refreshArgs args = .ok refreshed ∧
      refreshed ⟨maxLine / 2, by decide⟩ = none := by
  have someFree : ∃ slot, ∃ below : slot < argsSize, args ⟨slot, below⟩ = none :=
    ⟨maxLine / 2, by decide, ended⟩
  obtain ⟨below, free⟩ := Nat.find_spec someFree
  have full : ∀ slot : Fin argsSize, slot.val < Nat.find someFree → args slot ≠ none :=
    fun slot before empty => Nat.find_min someFree before ⟨slot.isLt, empty⟩
  refine ⟨_, refreshArgs_ok free full, ?_⟩
  rw [clearedBelow]
  split
  · rfl
  · exact ended

/-- A line that recalls the last command does not begin with `exit` itself. -/
theorem not_exits_of_recalls (recalling : recalls text = true) : ¬Exits text := by
  obtain ⟨others, rfl⟩ := List.isPrefixOf_iff_prefix.mp recalling
  have first : (strtok (['!', '!'] ++ others)).1 =
      some ('!' :: '!' :: others.takeWhile (!isDelimiter ·)) := by
    have word : isDelimiter '!' = false := by decide
    simp [strtok, word]
  rw [Exits, ← (strtok_head _).1, first]
  simp

/-- `get_input` fails, or yields a command that is `exit` exactly when the line is. -/
theorem getInput_ready (ready : Ready s) (short : text.length ≤ maxLine) :
    (getInput (some text) s.command = none ∧ ¬Exits text) ∨
      ∃ command, getInput (some text) s.command = some command ∧ command.length ≤ maxLine ∧
        (Exits command ↔ Exits text) := by
  by_cases recalling : recalls text = true
  · have notTyped := not_exits_of_recalls recalling
    by_cases noHistory : s.command.length = 0
    · exact Or.inl ⟨by simp [getInput, recalling, noHistory], notTyped⟩
    · refine Or.inr ⟨s.command, ?_, ready.short, iff_of_false ready.stayed notTyped⟩
      simp [getInput, recalling, noHistory]
  · exact Or.inr ⟨text, by simp [getInput, recalling], short, Iff.rfl⟩

/-- The last slot stays free when a command is split. -/
theorem cut_ended {tokens : List Token} {number : ℕ} (room : number < argsSize)
    (ended : args ⟨maxLine / 2, by decide⟩ = none) :
    cut args number tokens ⟨maxLine / 2, by decide⟩ = none := by
  have behind : ¬maxLine / 2 < number := by
    simp only [argsSize] at room
    omega
  rw [cut, laid, if_neg behind, ended, ite_self]

/-- An iteration with a command, once the array is refreshed. -/
theorem mainBody_command {command : List Char} (refresh : refreshArgs s.args = .ok args)
    (ended : args ⟨maxLine / 2, by decide⟩ = none)
    (given : getInput line s.command = some command) (short : command.length ≤ maxLine) :
    (Exits command ∧ mainBody line s = .ok .left) ∨
      (¬Exits command ∧
        ∃ after, Ready after ∧ after.command = command ∧ GoesOn line s after) := by
  have bound := length_tokensOf command
  have room : (tokensOf command).length < argsSize := by
    simp only [argsSize, maxLine] at *
    omega
  have parse := parseInput_ok args room.le
  have words : ∀ token ∈ tokensOf command, token ≠ [] := fun token => ne_nil_of_mem_tokensOf
  have isGiven : tokensGiven line s.command = tokensOf command := by rw [tokensGiven, given]; rfl
  cases tokens : tokensOf command with
  | nil =>
      have notTyped : ¬Exits command := by simp [Exits, tokens]
      rw [tokens, List.length_nil, laid_nil] at parse
      refine Or.inr ⟨notTyped, ⟨args, command⟩, ⟨ended, short, notTyped⟩, rfl,
        .idle (isGiven.trans tokens) ?_⟩
      rw [mainBody, refresh, ok_bind, given]
      simp only [parse, ok_bind]
      rfl
  | cons name others =>
      rw [tokens] at parse room words isGiven
      have first : C.read (laid args (name :: others).length (name :: others)) 0 =
          .ok (some name) := by
        simp [C.read, laid]
      have split := splitCommand_eq args (List.cons_ne_nil name others) words room.le
      by_cases exits : name = ['e', 'x', 'i', 't']
      · refine Or.inl ⟨by simp [Exits, tokens, exits], ?_⟩
        rw [mainBody, refresh, ok_bind, given]
        simp only [parse, ok_bind, first, if_pos exits]
        rfl
      · have notTyped : ¬Exits command := by simpa [Exits, tokens] using exits
        have ran : mainBody line s = .ok (.ran
            (laid args (name :: others).length (name :: others)) (name :: others).length
            ⟨cut args (name :: others).length (afterAmpersand (name :: others)), command⟩) := by
          rw [mainBody, refresh, ok_bind, given]
          simp only [parse, ok_bind, first, split, if_neg exits]
          rfl
        exact Or.inr ⟨notTyped, _, ⟨cut_ended room ended, short, notTyped⟩, rfl,
          .runs ⟨name :: others, args, List.cons_ne_nil _ _, words, room.le⟩ room isGiven.symm ran⟩

/-- An iteration leaves the loop if its line says `exit`, and otherwise comes back to the prompt.
At the end of the input it does nothing but clear the array. -/
theorem mainBody_ready (ready : Ready s)
    (short : ∀ text, line = some text → text.length ≤ maxLine) :
    ((∃ text, line = some text ∧ Exits text) ∧ mainBody line s = .ok .left) ∨
      ((∀ text, line = some text → ¬Exits text) ∧
        ∃ after, Ready after ∧ after.command = recorded line s.command ∧ GoesOn line s after) := by
  obtain ⟨refreshed, refresh, ended⟩ := refreshArgs_ended ready.ended
  have stays : Ready ⟨refreshed, s.command⟩ := ⟨ended, ready.short, ready.stayed⟩
  cases line with
  | none =>
      refine Or.inr ⟨fun text same => absurd same.symm (Option.some_ne_none text), _, stays, rfl,
        .idle rfl ?_⟩
      rw [mainBody, refresh]
      rfl
  | some text =>
      rcases getInput_ready ready (short text rfl) with
        ⟨failed, notTyped⟩ | ⟨command, given, fits, same⟩
      · refine Or.inr ⟨fun other isText => ?_, _, stays, by rw [recorded, failed]; rfl,
          .idle (by rw [tokensGiven, failed]; rfl) ?_⟩
        · cases isText
          exact notTyped
        · rw [mainBody, refresh, ok_bind, failed]
          rfl
      · rcases mainBody_command refresh ended given fits with
          ⟨typed, left⟩ | ⟨notTyped, after, readyAfter, command, goesOn⟩
        · exact Or.inl ⟨⟨text, rfl, same.mp typed⟩, left⟩
        · refine Or.inr ⟨fun other isText => ?_, after, readyAfter, ?_, goesOn⟩
          · cases isText
            exact fun typed => notTyped (same.mpr typed)
          · rw [command, recorded, given]
            rfl

theorem Stored.fits (line : Option Stored) (same : line.map Stored.text = some text) :
    text.length ≤ maxLine := by
  obtain ⟨stored, rfl, rfl⟩ := Option.map_eq_some_iff.mp same
  exact stored.short

/-- What `fgets` leaves in the buffer. -/
theorem exists_stored {read : Option (List Char)} {stream rest : List Char}
    (reads : fgets (maxLine + 1) stream = (read, rest)) :
    ∃ line : Option Stored, line.map Stored.text = read.map cString := by
  cases read with
  | none => exact ⟨none, rfl⟩
  | some read =>
      have shorter : (cString read).length ≤ read.length := (List.takeWhile_sublist _).length_le
      exact ⟨some ⟨cString read, shorter.trans (length_fgets_le reads)⟩, rfl⟩

end Iteration

/-! ## The processes of a command -/

section Processes

variable {world : World} {turn : ℕ} {line : List Token} {process : Role × Fate}

theorem usesInput_iff {programUses : Bool} {fate : Fate} :
    fate.usesInput programUses = true ↔ fate.Returns ∨ programUses = true := by
  cases fate with
  | returns value => simp [Fate.usesInput, Fate.Returns]
  | executes args base files => simp [Fate.usesInput, Fate.Returns]

/-- A process that does not execute its words has come back. -/
theorem shares_iff (descends : Descends line process) :
    world.shares turn process = true ↔
      (ProperFate line process.1 process.2 → world.uses turn = true) := by
  rw [World.shares, Bool.and_eq_true, decide_eq_true_eq, and_iff_right descends.1, usesInput_iff,
    descends.2, ← or_iff_not_imp_left]

/-- Other processes of a call of `run_command` use the input exactly when the world says so. -/
theorem runCommand_shares (world : World) (turn : ℕ) (call : Call)
    (room : call.tokens.length < argsSize) :
    ∃ processes, (world.system turn).runCommand call.args call.tokens.length = .ok processes ∧
      processes.any (world.shares turn) = decide (world.Spreads turn call.tokens) := by
  rcases runCommand_forks (world.system turn) call room with
    ⟨alone, run⟩ | ⟨forked, children, nonempty, run, descend, all⟩
  · exact ⟨_, run, by simp [World.shares, World.Spreads, alone]⟩
  · have shell : world.shares turn (.shell, .returns 1) = false := rfl
    refine ⟨_, run, ?_⟩
    rw [List.any_cons, shell, Bool.false_or, Bool.eq_iff_iff, List.any_eq_true, decide_eq_true_eq,
      World.Spreads, and_iff_right call.nonempty, and_iff_right forked, ← all]
    constructor
    · rintro ⟨process, member, shares⟩ proper
      exact (shares_iff (descend process member)).mp shares (proper process member)
    · intro programUses
      by_cases proper : ∀ process ∈ children, ProperFate (afterAmpersand call.tokens) process.1
        process.2
      · obtain ⟨process, member⟩ := List.exists_mem_of_ne_nil children nonempty
        exact ⟨process, member, (shares_iff (descend process member)).mpr fun _ =>
          programUses proper⟩
      · simp only [not_forall] at proper
        obtain ⟨process, member, returns⟩ := proper
        exact ⟨process, member, (shares_iff (descend process member)).mpr fun executes =>
          absurd executes returns⟩

end Processes

/-! ## The lines of a run -/

section Lines

variable {s middle after : Session} {line : Option Stored} {lines others : List (Option Stored)}

theorem GoesOn.mainLoop (goesOn : GoesOn (line.map Stored.text) s after) :
    mainLoop (line :: lines) s = Shell.mainLoop lines after := by
  cases goesOn with
  | idle _ turn =>
      rw [Shell.mainLoop, turn]
      rfl
  | runs _ _ _ turn =>
      rw [Shell.mainLoop, turn]
      rfl

theorem mainLoop_left (left : mainBody (line.map Stored.text) s = .ok .left) :
    mainLoop (line :: lines) s = .ok (.exit ()) := by
  rw [mainLoop, left]
  rfl

/-- The loop goes on from the session that the first lines lead to. -/
theorem mainLoop_append : ∀ {lines : List (Option Stored)} {s : Session}, Ready s →
    mainLoop lines s = .ok (.next middle) → mainLoop (lines ++ others) s = mainLoop others middle
  | [], _, _, ran => by
      cases ran
      rfl
  | line :: lines, s, ready, ran => by
      rcases mainBody_ready ready (fun _ => Stored.fits line) with
        ⟨_, left⟩ | ⟨_, after, readyAfter, _, goesOn⟩
      · rw [mainLoop_left left] at ran
        cases ran
      · rw [goesOn.mainLoop] at ran
        rw [List.cons_append, goesOn.mainLoop]
        exact mainLoop_append readyAfter ran

end Lines

/-! ## The whole input -/

section Input

variable {world : World} {p : Prompt} {text : Option (List Char)} {line rest : List Char}

theorem runsFromInput (ready : Ready p.session) : RunsFromInput world p := by
  intro _ args argsNum session ran
  have nothing : ∀ text : List Char, none = some text → text.length ≤ maxLine := fun text same =>
    absurd same.symm (Option.some_ne_none text)
  rcases mainBody_ready ready nothing with ⟨_, left⟩ | ⟨_, after, _, _, goesOn⟩
  · rw [left] at ran
    cases ran
  · cases goesOn with
    | idle blank turn =>
        rw [turn] at ran
        cases ran
    | runs call room given turn =>
        exact absurd given call.nonempty

/-- What an iteration of the loop does, by the line that it reads. -/
theorem promptBody_line (ready : Ready p.session)
    (read : fgets (maxLine + 1) (world.found p.turn p.shared p.input) = (text, rest)) :
    ((∃ line, text = some line ∧ Exits (cString line)) ∧ promptBody world p = .ok (.exit ())) ∨
      ((∀ line, text = some line → ¬Exits (cString line)) ∧ ∃ session, Ready session ∧
        session.command = recorded (text.map cString) p.session.command ∧
        GoesOn (text.map cString) p.session session ∧
        promptBody world p = .ok (.next ⟨p.turn + 1, rest, p.shared ||
          world.Spreads p.turn (tokensGiven (text.map cString) p.session.command), session⟩)) := by
  obtain ⟨stored, isText⟩ := exists_stored read
  have short : ∀ string, text.map cString = some string → string.length ≤ maxLine :=
    fun string same => Stored.fits stored (isText.trans same)
  rcases mainBody_ready ready short with
    ⟨⟨string, same, typed⟩, left⟩ | ⟨notTyped, session, readyAfter, command, goesOn⟩
  · obtain ⟨line, rfl, rfl⟩ := Option.map_eq_some_iff.mp same
    refine Or.inl ⟨⟨line, rfl, typed⟩, ?_⟩
    rw [promptBody, read]
    dsimp only
    rw [left, ok_bind]
    rfl
  · refine Or.inr ⟨fun line isLine => notTyped _ (by rw [isLine]; rfl), session, readyAfter,
      command, goesOn, ?_⟩
    rw [promptBody, read]
    dsimp only
    cases goesOn with
    | idle blank turn =>
        have alone : ¬world.Spreads p.turn [] := fun spreads => spreads.1 rfl
        rw [turn, ok_bind, blank, decide_eq_false alone, Bool.or_false]
        rfl
    | runs call room given turn =>
        obtain ⟨processes, ran, shares⟩ := runCommand_shares world p.turn call room
        rw [turn, ok_bind]
        dsimp only
        rw [ran, ok_bind, shares, given]
        rfl

/-- At every prompt, the variables of `main` are those that the lines read so far lead to. -/
theorem mainLoop_of_reaches {input : List Char}
    (reaches : Reaches (fun _ => true) (promptBody world) (.start input) p) :
    Ready p.session ∧ ∃ lines : List (Option Stored), lines.length = p.turn ∧
      mainLoop lines Session.start = .ok (.next p.session) := by
  induction reaches with
  | refl => exact ⟨ready_start, [], rfl, rfl⟩
  | @tail p after _ iteration inductionHypothesis =>
      obtain ⟨ready, lines, number, ran⟩ := inductionHypothesis
      obtain ⟨text, rest, read⟩ : ∃ text rest, fgets (maxLine + 1)
        (world.found p.turn p.shared p.input) = (text, rest) := ⟨_, _, rfl⟩
      rcases promptBody_line ready read with ⟨_, left⟩ | ⟨_, session, readyAfter, _, goesOn, same⟩
      · rw [iteration.2] at left
        cases left
      · rw [iteration.2, Except.ok.injEq, LoopStep.next.injEq] at same
        subst same
        obtain ⟨line, isText⟩ := exists_stored read
        rw [← isText] at goesOn
        refine ⟨readyAfter, lines ++ [line], by simp [number], ?_⟩
        rw [mainLoop_append ready_start ran, goesOn.mainLoop]
        rfl

theorem leaves_of_readsExit {turn : ℕ} {command input : List Char} {shared : Bool}
    (reads : ReadsExitFrom world turn command input shared) :
    ∀ {session : Session}, Ready session → session.command = command →
      Leaves (promptBody world) (RunsFromInput world) ⟨turn, input, shared, session⟩ := by
  induction reads with
  | here read exits =>
      intro session ready _
      rcases promptBody_line (p := ⟨_, _, _, session⟩) ready read with
        ⟨_, left⟩ | ⟨notTyped, _⟩
      · exact .exit (runsFromInput ready) left
      · exact absurd exits (notTyped _ rfl)
  | later read _ inductionHypothesis =>
      intro session ready same
      subst same
      rcases promptBody_line (p := ⟨_, _, _, session⟩) ready read with
        ⟨_, left⟩ | ⟨_, after, readyAfter, command, _, step⟩
      · exact .exit (runsFromInput ready) left
      · exact .next (runsFromInput ready) step (inductionHypothesis readyAfter command)

theorem readsExit_of_leaves (leaves : Leaves (promptBody world) (RunsFromInput world) p)
    (ready : Ready p.session) : ReadsExitFrom world p.turn p.session.command p.input p.shared := by
  induction leaves with
  | @exit p result here left =>
      obtain ⟨text, rest, read⟩ : ∃ text rest, fgets (maxLine + 1)
        (world.found p.turn p.shared p.input) = (text, rest) := ⟨_, _, rfl⟩
      rcases promptBody_line ready read with ⟨⟨line, rfl, typed⟩, _⟩ | ⟨_, session, _, _, _, step⟩
      · exact .here read typed
      · rw [step] at left
        cases left
  | @next p after here step later inductionHypothesis =>
      obtain ⟨text, rest, read⟩ : ∃ text rest, fgets (maxLine + 1)
        (world.found p.turn p.shared p.input) = (text, rest) := ⟨_, _, rfl⟩
      rcases promptBody_line ready read with
        ⟨⟨line, rfl, typed⟩, _⟩ | ⟨_, session, readyAfter, command, _, same⟩
      · exact .here read typed
      · rw [same, Except.ok.injEq, LoopStep.next.injEq] at step
        subst step
        have reads := inductionHypothesis readyAfter
        rw [command] at reads
        exact .later read reads

/-- The shell leaves its loop exactly when it reads a line that says `exit`. -/
theorem shellStops_iff (world : World) (input : List Char) :
    ShellStops world input ↔ ReadsExit world input :=
  ⟨fun stops => readsExit_of_leaves stops ready_start,
    fun reads => leaves_of_readsExit reads ready_start rfl⟩

/-! ## An input that nobody else uses -/

/-- While no other process uses the input, the lines that are read are its lines. -/
theorem readsExit_of_typed : ∀ {input : List Char} {turn : ℕ} {command : List Char},
    UndisturbedFrom world turn command (fgetsAll (maxLine + 1) input) → ExitTyped input →
      ReadsExitFrom world turn command input false := by
  intro input
  induction length : input.length using Nat.strong_induction_on generalizing input with
  | _ size inductionHypothesis =>
      rintro turn command undisturbed ⟨line, member, exits⟩
      rcases fgets_cases (maxLine + 1) input with ended | ⟨first, rest, read⟩
      · rw [ended, fgetsAll_nil] at member
        cases member
      · rw [fgetsAll_of_read (by decide) read] at member undisturbed
        rcases undisturbed with typed | ⟨alone, others⟩
        · exact .here read typed
        · rcases List.mem_cons.mp member with rfl | later
          · exact .here read exits
          · have shorter := fgets_shorter (by decide) read
            have reads := inductionHypothesis rest.length (by omega) rfl others ⟨line, later, exits⟩
            refine .later read ?_
            rwa [Option.map_some, decide_eq_false alone, Bool.or_false]

theorem typed_of_readsExit {turn : ℕ} {command input : List Char} {shared : Bool}
    (reads : ReadsExitFrom world turn command input shared) : shared = false →
      UndisturbedFrom world turn command (fgetsAll (maxLine + 1) input) → ExitTyped input := by
  induction reads with
  | @here turn command input line rest shared read exits =>
      rintro rfl _
      have all : fgetsAll (maxLine + 1) input = line :: fgetsAll (maxLine + 1) rest :=
        fgetsAll_of_read (by decide) read
      exact ⟨line, all ▸ List.mem_cons_self, exits⟩
  | @later turn command input rest text shared read reads inductionHypothesis =>
      rintro rfl undisturbed
      cases text with
      | none =>
          obtain ⟨rfl, rfl⟩ := fgets_none read
          rw [fgetsAll_nil] at inductionHypothesis
          have alone : ¬world.Spreads turn [] := fun spreads => spreads.1 rfl
          exact inductionHypothesis (decide_eq_false alone) trivial
      | some line =>
          have all : fgetsAll (maxLine + 1) input = line :: fgetsAll (maxLine + 1) rest :=
            fgetsAll_of_read (by decide) read
          rw [ExitTyped, all]
          rw [all] at undisturbed
          rcases undisturbed with typed | ⟨alone, others⟩
          · exact ⟨line, List.mem_cons_self, typed⟩
          · obtain ⟨exit, member, exits⟩ :=
              inductionHypothesis (by rw [Option.map_some, decide_eq_false alone]; rfl) others
            exact ⟨exit, List.mem_cons_of_mem _ member, exits⟩

/-- Until `exit` is typed nobody else uses the input: the shell leaves its loop exactly when `exit`
is typed. -/
theorem readsExit_iff_typed {input : List Char} (undisturbed : Undisturbed world input) :
    ReadsExit world input ↔ ExitTyped input :=
  ⟨fun reads => typed_of_readsExit reads rfl undisturbed, readsExit_of_typed undisturbed⟩

end Input

end OsProjects.Shell
