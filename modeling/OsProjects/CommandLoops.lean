import OsProjects.Allocator.CommandLoop
import OsProjects.Shell.CommandLoop

/-!
Owns the two programs that read commands until one of them tells them to stop: neither looks at
whether its input has ended, so each stops exactly when it reads that it shall.

Does not own the loops themselves (`Shell.CommandLoop`, `Allocator.CommandLoop`).
-/

namespace OsProjects

open OsProjects.C

/-- The shell stops exactly when it reads an `exit`, which is when one is typed, as long as nobody
else uses its input; the allocator exactly on the inputs with an `X` that is read as an operator. -/
theorem commandLoops_stop_iff (world : Shell.World) (input : List Char) :
    (Shell.ShellStops world input ↔ Shell.ReadsExit world input) ∧
      (Shell.Undisturbed world input →
        (Shell.ShellStops world input ↔ Shell.ExitTyped input)) ∧
      (Allocator.AllocatorStops input ↔ Allocator.ReadsX input) := by
  have stops := Shell.shellStops_iff world input
  refine ⟨stops, fun undisturbed => ?_, Allocator.allocatorStops_of_readsX input⟩
  exact stops.trans (Shell.readsExit_iff_typed undisturbed)

/-- Every call succeeds, and no program uses the input. -/
def quietWorld : Shell.World where
  system _ := Shell.everythingWorks
  uses _ := false
  leaves _ input := input

/-- `ls`, then `exit` -/
def typedExit : List Char := ['l', 's', '\n', 'e', 'x', 'i', 't', '\n']

/-- The shell runs `ls` and stops at `exit`. -/
theorem commandLoops_stop_iff_demo : Shell.ShellStops quietWorld typedExit := by
  have lines : fgetsAll (Shell.maxLine + 1) typedExit =
      [['l', 's', '\n'], ['e', 'x', 'i', 't', '\n']] := by
    rw [typedExit, fgetsAll_of_read (by decide) rfl, fgetsAll_of_read (by decide) rfl, fgetsAll_nil]
    rfl
  have undisturbed : Shell.Undisturbed quietWorld typedExit := by
    rw [Shell.Undisturbed, lines]
    exact Or.inr ⟨by decide, Or.inl (by decide)⟩
  refine ((commandLoops_stop_iff quietWorld typedExit).2.1 undisturbed).mpr ?_
  exact ⟨['e', 'x', 'i', 't', '\n'], by rw [lines]; simp, by decide⟩

/-- `nosuchcommand`, and three times `exit` -/
def unknownThenExits : List Char :=
  ['n', 'o', 's', 'u', 'c', 'h', 'c', 'o', 'm', 'm', 'a', 'n', 'd', '\n', 'e', 'x', 'i', 't', '\n',
    'e', 'x', 'i', 't', '\n', 'e', 'x', 'i', 't', '\n']

/-- No program is found. The child reads the first `exit` and puts the offset behind it; the shell
goes back from there by what it has not read itself, to the fifth character. -/
def sharedFile : Shell.World where
  system _ := Shell.nothingExecutes
  uses _ := false
  leaves _ _ := unknownThenExits.drop 4

theorem line_of_read {size : ℕ} {stream line expected rest : List Char}
    (read : fgets size stream = (some line, rest))
    (first : (fgets size stream).1 = some expected) : line = expected := by
  rw [read] at first
  exact Option.some.inj first

/-- Once the file is shared, the shell reads `chcommand` in every iteration. -/
theorem sharedFile_repeats {turn : ℕ} {command input : List Char} {shared : Bool}
    (reads : Shell.ReadsExitFrom sharedFile turn command input shared) : shared = false := by
  induction reads with
  | @here turn command input line rest shared read exits =>
      cases shared with
      | false => rfl
      | true =>
          have isLine : line = ['c', 'h', 'c', 'o', 'm', 'm', 'a', 'n', 'd', '\n'] :=
            line_of_read read rfl
          subst isLine
          exact absurd exits (by decide)
  | later _ _ inductionHypothesis => exact (Bool.or_eq_false_iff.mp inductionHypothesis).1

/-- Without any input the shell prompts for ever; after a last `C` the allocator compacts for
ever. A file with an `exit` does not stop the shell when the child before it comes back. -/
theorem no_exit_demo :
    ¬Shell.ShellStops quietWorld [] ∧ ¬Allocator.AllocatorStops ['C', '\n'] ∧
      ¬Shell.ShellStops sharedFile unknownThenExits := by
  refine ⟨?_, ?_, ?_⟩
  · have undisturbed : Shell.Undisturbed quietWorld [] := by
      rw [Shell.Undisturbed, fgetsAll_nil]
      trivial
    rw [Shell.shellStops_iff, Shell.readsExit_iff_typed undisturbed]
    rintro ⟨line, member, _⟩
    rw [fgetsAll_nil] at member
    cases member
  · rw [Allocator.allocatorStops_of_readsX]
    intro reads
    have first : Allocator.scanfString Allocator.operatorLengthLimit ['C', '\n'] =
        .ok (some ['C'], ['\n']) := by decide
    have second : Allocator.scanfString Allocator.operatorLengthLimit ['\n'] =
        .ok (none, []) := by decide
    cases reads with
    | here read =>
        rw [first] at read
        cases read
    | later read arguments reads =>
        rw [first] at read
        cases read
        cases arguments
        cases reads with
        | here read =>
            rw [second] at read
            cases read
        | later read _ _ =>
            rw [second] at read
            cases read
  · rw [Shell.shellStops_iff]
    intro reads
    cases reads with
    | @here _ _ _ line rest _ read exits =>
        have isLine : line = unknownThenExits.take 14 := line_of_read read rfl
        subst isLine
        exact absurd exits (by decide)
    | @later _ _ _ rest text _ read reads =>
        have isFirst : (fgets (Shell.maxLine + 1) unknownThenExits).1 = text :=
          congrArg Prod.fst read
        have alone := sharedFile_repeats reads
        rw [← isFirst] at alone
        exact absurd alone (by decide)

end OsProjects
