import Mathlib.Data.List.Infix
import OsProjects.Shell.Leftovers

/-!
Owns the array of arguments over a whole run of the shell: which slots still hold a
token of an earlier command, and for which runs `run_command` always gets the tokens
of the current line with a `NULL` behind them.

Does not own the children, which work on copies of the array.
-/

namespace OsProjects.Shell

open OsProjects.C

/-! ## The commands of a run -/

/-- The text of the command after the lines have been read: the last of them that does
not recall an earlier one. -/
def currentText (lines : List Line) : List Char :=
  (((lines.map Line.typed).filter (!recalls ·)).getLast?).getD []

/-- The tokens of the command after the lines have been read. -/
def tokensNow (lines : List Line) : List Token := tokensOf (currentText lines)

/-- The tokens of the command at every line. -/
def history (lines : List Line) : List (List Token) := lines.inits.tail.map tokensNow

/-- None of the commands makes the shell leave its loop. -/
def Running (commands : List (List Token)) : Prop :=
  ∀ tokens ∈ commands, tokens.head? ≠ some ['e', 'x', 'i', 't']

/-- The slot holds a token that one of the commands has left behind a pipe, and no later
command was long enough to overwrite it. -/
def Stale (commands : List (List Token)) (slot : ℕ) : Prop :=
  ∃ earlier tokens later, commands = earlier ++ tokens :: later ∧ LeftBy tokens slot ∧
    ∀ command ∈ later, command.length ≤ slot

/-- The array and the number that `run_command` gets are those of the tokens, and a
`NULL` stands behind them. -/
structure Argv (tokens : List Token) (args : Args) (argsNum : ℕ) : Prop where
  number : argsNum = tokens.length
  room : argsNum < argsSize
  slots : ∀ slot : Fin argsSize, slot ≤ argsNum → args slot = tokens[slot.val]?

/-- Whenever `run_command` is called, it gets the tokens of the current line. -/
def ArgumentsExact (lines : List Line) : Prop :=
  ∀ earlier line, earlier ++ [line] <+: lines →
    ∀ s, readLines earlier Session.start = .ok (some s) →
      ∀ args argsNum next, mainBody (some line.typed) s = .ok (.ran args argsNum next) →
        Argv (tokensNow (earlier ++ [line])) args argsNum

/-- At every line that is run, the slot behind its tokens is not stale. -/
def NothingStale (lines : List Line) : Prop :=
  ∀ earlier line, earlier ++ [line] <+: lines → Running (history (earlier ++ [line])) →
    ¬Stale (history earlier) (tokensNow (earlier ++ [line])).length

section History

variable {lines earlier : List Line} {line : Line} {commands : List (List Token)}
variable {tokens : List Token} {slot : ℕ}

theorem currentText_snoc : currentText (lines ++ [line]) =
    if recalls line.typed then currentText lines else line.typed := by
  cases recalling : recalls line.typed with
  | true => simp [currentText, recalling]
  | false => simp [currentText, recalling]

@[simp] theorem history_nil : history [] = [] := rfl

theorem history_snoc :
    history (lines ++ [line]) = history lines ++ [tokensNow (lines ++ [line])] := by
  have nonempty : lines.inits ≠ [] :=
    List.ne_nil_of_mem ((List.mem_inits _ _).mpr List.nil_prefix)
  rw [history, history, List.inits_append, List.tail_append_of_ne_nil nonempty, List.map_append]
  rfl

theorem running_snoc : Running (commands ++ [tokens]) ↔
    Running commands ∧ tokens.head? ≠ some ['e', 'x', 'i', 't'] := by
  simp [Running, or_imp, forall_and]

theorem length_typed (line : Line) : line.typed.length ≤ maxLine := by
  have kept := (List.takeWhile_sublist (· ≠ '\x00') (l := line.text ++ ['\n'])).length_le
  rw [List.length_append, List.length_singleton] at kept
  exact kept.trans line.short

/-- A command fills at most 80 characters. -/
theorem length_currentText (lines : List Line) : (currentText lines).length ≤ maxLine := by
  induction lines using List.reverseRecOn with
  | nil => exact Nat.zero_le _
  | append_singleton lines line inductionHypothesis =>
      rw [currentText_snoc]
      split
      · exact inductionHypothesis
      · exact length_typed line

theorem length_tokensNow (lines : List Line) : (tokensNow lines).length < argsSize := by
  have bound := length_tokensOf (currentText lines)
  have short := length_currentText lines
  simp only [tokensNow, argsSize, maxLine] at *
  omega

/-- A command adds the tokens that it leaves and removes what it overwrites. -/
theorem stale_snoc : Stale (commands ++ [tokens]) slot ↔
    LeftBy tokens slot ∨ (tokens.length ≤ slot ∧ Stale commands slot) := by
  constructor
  · rintro ⟨before, leaving, later, split, leaves, short⟩
    cases later using List.reverseRecOn with
    | nil =>
        obtain ⟨-, rfl⟩ := List.append_singleton_inj.mp split
        exact Or.inl leaves
    | append_singleton later last =>
        rw [← List.cons_append, ← List.append_assoc] at split
        obtain ⟨rfl, rfl⟩ := List.append_singleton_inj.mp split
        refine Or.inr ⟨short _ (by simp), before, leaving, later, rfl, leaves, ?_⟩
        exact fun command member => short command (List.mem_append_left _ member)
  · rintro (leaves | ⟨fits, before, leaving, later, rfl, leaves, short⟩)
    · exact ⟨commands, tokens, [], rfl, leaves, fun _ member => absurd member List.not_mem_nil⟩
    · refine ⟨before, leaving, later ++ [tokens], by simp, leaves, fun command member => ?_⟩
      cases List.mem_append.mp member with
      | inl earlier => exact short command earlier
      | inr last =>
          rw [List.mem_singleton.mp last]
          exact fits

theorem not_stale_zero : ¬Stale commands 0 := by
  rintro ⟨_, _, _, _, ⟨place, _, before, _⟩, _⟩
  exact Nat.not_lt_zero place before

end History

/-! ## An iteration of the loop -/

/-- What holds before each line: after `refresh_args` exactly the stale slots are not
`NULL`. -/
structure AtPrompt (lines : List Line) (s : Session) : Prop where
  command : s.command = currentText lines
  refreshed : ∃ args, refreshArgs s.args = .ok args ∧
    ∀ slot : Fin argsSize, (args slot).isSome ↔ Stale (history lines) slot

section Iteration

variable {lines : List Line} {line : Line} {s : Session} {args : Args}

theorem not_stale_nil {slot : ℕ} : ¬Stale [] slot := by
  rintro ⟨earlier, tokens, later, split, _⟩
  simp at split

theorem atPrompt_start : AtPrompt [] Session.start where
  command := rfl
  refreshed := ⟨initArgs, refreshArgs_of_empty rfl, fun _ => by
    simp [initArgs, not_stale_nil]⟩

/-- `get_input` makes the current text the command, or fails when there is none. -/
theorem getInput_current (lines : List Line) (line : Line) :
    getInput (some line.typed) (currentText lines) = some (currentText (lines ++ [line])) ∨
      (getInput (some line.typed) (currentText lines) = none ∧ currentText lines = [] ∧
        currentText (lines ++ [line]) = []) := by
  rw [currentText_snoc]
  by_cases recalling : recalls line.typed = true
  · by_cases noHistory : currentText lines = []
    · right
      simp [getInput, recalling, noHistory]
    · left
      simp [getInput, recalling, noHistory]
  · left
    simp [getInput, recalling]

/-- A line without tokens leaves the stale slots as they are. -/
theorem mainBody_blank (prompt : AtPrompt lines s) (blank : tokensNow (lines ++ [line]) = []) :
    ∃ after, mainBody (some line.typed) s = .ok (.continued after) ∧
      AtPrompt (lines ++ [line]) after := by
  obtain ⟨command, args, refresh, stale⟩ := prompt
  have empty : args ⟨0, by decide⟩ = none := by
    rw [← Option.not_isSome_iff_eq_none, stale]
    exact not_stale_zero
  have unmoved : AtPrompt (lines ++ [line]) ⟨args, currentText (lines ++ [line])⟩ := by
    refine ⟨rfl, args, refreshArgs_of_empty empty, fun slot => ?_⟩
    rw [stale, history_snoc, stale_snoc, blank, or_iff_right not_leftBy_nil]
    simp
  cases getInput_current lines line with
  | inl input =>
      have parse : parseInput args (currentText (lines ++ [line])) = .ok (0, args) := by
        have parsed := parseInput_ok args
          (Nat.le_of_lt (length_tokensNow (lines ++ [line])))
        rwa [show tokensOf (currentText (lines ++ [line])) = [] from blank, List.length_nil,
          laid_nil] at parsed
      refine ⟨_, ?_, unmoved⟩
      rw [mainBody, refresh, ok_bind, command, input]
      simp only [parse, ok_bind]
      rfl
  | inr failure =>
      obtain ⟨input, noHistory, still⟩ := failure
      refine ⟨_, ?_, unmoved⟩
      rw [mainBody, refresh, ok_bind, command, input, still, ← noHistory, ← command]
      rfl

/-- What the calls of an iteration yield at a line with tokens. -/
theorem mainBody_tokens (args : Args) {name : Token} {others : List Token}
    (command : s.command = currentText lines)
    (tokens : tokensNow (lines ++ [line]) = name :: others) :
    parseInput args (currentText (lines ++ [line])) =
        .ok ((name :: others).length, laid args (name :: others).length (name :: others)) ∧
      getInput (some line.typed) s.command = some (currentText (lines ++ [line])) ∧
      read (laid args (name :: others).length (name :: others)) 0 = .ok (some name) := by
  refine ⟨?_, ?_, by simp [C.read, laid]⟩
  · rw [parseInput_ok args (Nat.le_of_lt (length_tokensNow (lines ++ [line]))),
      show tokensOf (currentText (lines ++ [line])) = name :: others from tokens]
  · rw [command]
    refine (getInput_current lines line).resolve_right fun failure => ?_
    rw [tokensNow, failure.2.2, tokensOf_nil] at tokens
    cases tokens

theorem mainBody_exit (prompt : AtPrompt lines s)
    (leaves : (tokensNow (lines ++ [line])).head? = some ['e', 'x', 'i', 't']) :
    mainBody (some line.typed) s = .ok .left := by
  obtain ⟨command, args, refresh, stale⟩ := prompt
  obtain ⟨others, tokens⟩ := List.head?_eq_some_iff.mp leaves
  obtain ⟨parse, input, first⟩ := mainBody_tokens args command tokens
  rw [mainBody, refresh, ok_bind, input]
  simp only [parse, ok_bind, first]
  rfl

/-- The array ends behind the tokens when the slot there was `NULL`. -/
theorem argv_laid {tokens : List Token} (room : tokens.length < argsSize) :
    Argv tokens (laid args tokens.length tokens) tokens.length ↔
      args ⟨tokens.length, room⟩ = none := by
  constructor
  · intro argv
    have ended := argv.slots ⟨tokens.length, room⟩ (Nat.le_refl _)
    simpa [laid] using ended
  · intro ended
    refine ⟨rfl, room, fun slot within => ?_⟩
    by_cases behind : slot = ⟨tokens.length, room⟩
    · simp [behind, laid, ended]
    · have before : slot.val ≠ tokens.length := fun same => behind (Fin.ext same)
      rw [laid, if_pos (by omega)]

/-- `run_command` gets the tokens of the line. Unless the slot behind them is stale, the
array ends there, and the next line finds the stale slots of the longer history. -/
theorem mainBody_ran (prompt : AtPrompt lines s) (nonempty : tokensNow (lines ++ [line]) ≠ [])
    (stays : (tokensNow (lines ++ [line])).head? ≠ some ['e', 'x', 'i', 't']) :
    ∃ args argsNum after, mainBody (some line.typed) s = .ok (.ran args argsNum after) ∧
      (Argv (tokensNow (lines ++ [line])) args argsNum ↔
        ¬Stale (history lines) (tokensNow (lines ++ [line])).length) ∧
      (¬Stale (history lines) (tokensNow (lines ++ [line])).length →
        AtPrompt (lines ++ [line]) after) := by
  obtain ⟨command, args, refresh, stale⟩ := prompt
  have room := length_tokensNow (lines ++ [line])
  have words : ∀ token ∈ tokensNow (lines ++ [line]), token ≠ [] :=
    fun token => ne_nil_of_mem_tokensOf
  have behind : args ⟨_, room⟩ = none ↔
      ¬Stale (history lines) (tokensNow (lines ++ [line])).length := by
    rw [← stale ⟨_, room⟩, Option.not_isSome_iff_eq_none]
  obtain ⟨commands, split, cutArgs⟩ := splitCommand_ok args nonempty words room.le
  refine ⟨laid args (tokensNow (lines ++ [line])).length (tokensNow (lines ++ [line])),
    (tokensNow (lines ++ [line])).length, ⟨commands.args, currentText (lines ++ [line])⟩,
    ?_, (argv_laid room).trans behind, fun fresh => ⟨rfl, ?_⟩⟩
  · obtain ⟨name, others, tokens⟩ := List.exists_cons_of_ne_nil nonempty
    obtain ⟨parse, input, first⟩ := mainBody_tokens args command tokens
    rw [tokens, List.head?_cons, ne_eq, Option.some.injEq] at stays
    rw [tokens] at split ⊢
    rw [mainBody, refresh, ok_bind, input]
    simp only [parse, ok_bind, first, split, if_neg stays]
    rfl
  · obtain ⟨refreshed, refreshAgain, left⟩ := refreshArgs_cut room (behind.mpr fresh)
    refine ⟨refreshed, by rw [cutArgs, refreshAgain], fun slot => ?_⟩
    rw [left, stale, history_snoc, stale_snoc]

end Iteration

/-! ## Whole runs -/

section Run

variable {lines : List Line} {line : Line} {s : Session}

theorem readLines_snoc : ∀ (lines : List Line) (s : Session),
    readLines (lines ++ [line]) s = readLines lines s >>= fun
      | none => pure none
      | some s => readLines [line] s
  | [], s => rfl
  | first :: rest, s => by
      rw [List.cons_append, readLines, readLines]
      cases mainBody (some first.typed) s with
      | error fault => rfl
      | ok turn =>
          cases turn with
          | continued after => exact readLines_snoc rest after
          | ran args argsNum after => exact readLines_snoc rest after
          | left => rfl

/-- The lines at which something holds, for one line more. -/
theorem forall_prefix_snoc {P : List Line → Line → Prop} :
    (∀ earlier next, earlier ++ [next] <+: lines ++ [line] → P earlier next) ↔
      (∀ earlier next, earlier ++ [next] <+: lines → P earlier next) ∧ P lines line := by
  simp only [List.prefix_concat_iff]
  constructor
  · intro all
    exact ⟨fun earlier next inside => all earlier next (Or.inr inside),
      all lines line (Or.inl rfl)⟩
  · rintro ⟨before, last⟩ earlier next (same | inside)
    · obtain ⟨rfl, rfl⟩ := List.append_singleton_inj.mp same
      exact last
    · exact before earlier next inside

theorem nothingStale_snoc : NothingStale (lines ++ [line]) ↔
    NothingStale lines ∧ (Running (history (lines ++ [line])) →
      ¬Stale (history lines) (tokensNow (lines ++ [line])).length) :=
  forall_prefix_snoc

theorem argumentsExact_snoc : ArgumentsExact (lines ++ [line]) ↔
    ArgumentsExact lines ∧ ∀ s, readLines lines Session.start = .ok (some s) →
      ∀ args argsNum next, mainBody (some line.typed) s = .ok (.ran args argsNum next) →
        Argv (tokensNow (lines ++ [line])) args argsNum :=
  forall_prefix_snoc

/-- A run with nothing stale comes back to the prompt after every line, or leaves the
loop at `exit`. -/
theorem readLines_ok (fresh : NothingStale lines) :
    (Running (history lines) ∧
        ∃ s, readLines lines Session.start = .ok (some s) ∧ AtPrompt lines s) ∨
      (¬Running (history lines) ∧ readLines lines Session.start = .ok none) := by
  induction lines using List.reverseRecOn with
  | nil => exact Or.inl ⟨fun _ member => absurd member List.not_mem_nil, _, rfl, atPrompt_start⟩
  | append_singleton lines line inductionHypothesis =>
      obtain ⟨freshBefore, freshNow⟩ := nothingStale_snoc.mp fresh
      rw [history_snoc, running_snoc] at *
      rw [readLines_snoc]
      cases inductionHypothesis freshBefore with
      | inr left => exact Or.inr ⟨fun running => left.1 running.1, by rw [left.2]; rfl⟩
      | inl prompted =>
          obtain ⟨running, s, run, prompt⟩ := prompted
          rw [run, ok_bind]
          by_cases leaves : (tokensNow (lines ++ [line])).head? = some ['e', 'x', 'i', 't']
          · refine Or.inr ⟨fun both => both.2 leaves, ?_⟩
            simp [readLines, mainBody_exit prompt leaves]
          · refine Or.inl ⟨⟨running, leaves⟩, ?_⟩
            by_cases blank : tokensNow (lines ++ [line]) = []
            · obtain ⟨after, body, promptAfter⟩ := mainBody_blank prompt blank
              exact ⟨after, by simp [readLines, body], promptAfter⟩
            · obtain ⟨args, argsNum, after, body, _, promptAfter⟩ :=
                mainBody_ran prompt blank leaves
              exact ⟨after, by simp [readLines, body], promptAfter (freshNow ⟨running, leaves⟩)⟩

/-- The arguments of a line are exact when the slot behind its tokens is not stale. -/
theorem exact_line_iff (fresh : NothingStale lines) :
    (∀ s, readLines lines Session.start = .ok (some s) →
      ∀ args argsNum next, mainBody (some line.typed) s = .ok (.ran args argsNum next) →
        Argv (tokensNow (lines ++ [line])) args argsNum) ↔
      (Running (history (lines ++ [line])) →
        ¬Stale (history lines) (tokensNow (lines ++ [line])).length) := by
  rw [history_snoc, running_snoc]
  cases readLines_ok fresh with
  | inr left =>
      refine iff_of_true (fun s run => ?_) fun running => absurd running.1 left.1
      rw [left.2] at run
      cases run
  | inl prompted =>
      obtain ⟨running, s, run, prompt⟩ := prompted
      simp only [run, Except.ok.injEq, Option.some.injEq, forall_eq']
      by_cases leaves : (tokensNow (lines ++ [line])).head? = some ['e', 'x', 'i', 't']
      · simp [mainBody_exit prompt leaves, leaves]
      · by_cases blank : tokensNow (lines ++ [line]) = []
        · obtain ⟨after, body, _⟩ := mainBody_blank prompt blank
          simp [body, blank, not_stale_zero]
        · obtain ⟨args, argsNum, after, body, exact, _⟩ := mainBody_ran prompt blank leaves
          simp [body, exact, running, leaves]

/-- The arguments are exact in all runs in which nothing stale is met, and in no others. -/
theorem argumentsExact_iff (lines : List Line) : ArgumentsExact lines ↔ NothingStale lines := by
  induction lines using List.reverseRecOn with
  | nil =>
      have none : ∀ (earlier : List Line) (line : Line), ¬earlier ++ [line] <+: [] := by simp
      exact iff_of_true (fun earlier line inside => absurd inside (none earlier line))
        fun earlier line inside => absurd inside (none earlier line)
  | append_singleton lines line inductionHypothesis =>
      rw [argumentsExact_snoc, nothingStale_snoc, inductionHypothesis]
      exact and_congr_right fun fresh => exact_line_iff fresh

/-- The command `x y` gets the argument `b` of the line before, `a | b c`. -/
theorem leftover_argument_demo : ¬ArgumentsExact
    [⟨['a', ' ', '|', ' ', 'b', ' ', 'c'], by decide, by decide⟩,
      ⟨['x', ' ', 'y'], by decide, by decide⟩] := by
  intro exact
  have argv := exact [_] _ (List.prefix_refl _) _ rfl _ _ _ rfl
  have behind := argv.slots ⟨2, by decide⟩ (by decide)
  revert behind
  decide

end Run

end OsProjects.Shell
