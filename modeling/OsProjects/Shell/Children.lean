import Mathlib.Data.UInt
import OsProjects.Shell.Model

/-!
Owns the translation of what `run_command` does after `fork`: the search for redirections
in the copy of the arguments that a process has, the opening of the files, and the processes
that come out of a call.

Whether a `fork`, an `open` or an `execvp` succeeds is given by a `System`; every process
makes each of these calls at most once for each direction. `execvp` returns when it fails and
does not return otherwise, whatever program it gets. `wait(NULL)` returns. The results of
`pipe` and `dup2` are not looked at by the code, and `close_file` and `fflush` decide nothing
about how a process leaves the call.

Does not own the pipe, the order of the calls of two processes, or what a process that returns
does to the standard input (`CommandLoop`).
-/

namespace OsProjects.Shell

open OsProjects.C

/-! ## `check_redirection`

The function gets a pointer into an array of any length. -/

/-- What a redirection changes: `<` the standard input, `>` the standard output. -/
inductive Direction where
  | input
  | output
deriving DecidableEq

/-- The bit of the IO flag. -/
def Direction.bit : Direction → UInt32
  | .input => 1
  | .output => 2

/-- `input_file` and `output_file`, `none` while they are not assigned. -/
structure Files where
  input : Option Token
  output : Option Token
deriving DecidableEq

def Files.unassigned : Files where
  input := none
  output := none

def Files.get (files : Files) : Direction → Option Token
  | .input => files.input
  | .output => files.output

/-- `*input_file = file` or `*output_file = file` -/
def Files.assign (files : Files) (file : Option Token) : Direction → Files
  | .input => { files with input := file }
  | .output => { files with output := file }

/-- The variables of the first loop of `check_redirection`; `remove_cnt` is the length of
`to_remove`. -/
structure Scanning where
  i : ℕ
  flag : UInt32
  toRemove : List ℕ
  files : Files

/-- `to_remove[remove_cnt++] = index`; the array has four slots. -/
def Scanning.mark (s : Scanning) (index : ℕ) : Outcome Scanning :=
  if s.toRemove.length < 4 then .ok { s with toRemove := s.toRemove ++ [index] }
  else .error .outOfBounds

section CheckRedirection

variable {slots : ℕ}

/-- The branch of an indicator, with the increment of `i`. -/
def indicatorBranch (direction : Direction) (args : Fin slots → Option Token) (base size : ℕ)
    (s : Scanning) : Outcome (LoopStep Scanning Scanning) := do
  let s ← s.mark s.i
  if s.i = size - 1 then
    pure (.exit s)
  else
    let file ← read args (base + s.i + 1 : ℕ)
    let s := { s with
      flag := s.flag ||| direction.bit
      files := s.files.assign file direction }
    let s ← s.mark (s.i + 1)
    pure (.next { s with i := s.i + 2 })

/-- One iteration of the first loop of `check_redirection`. The pointer that the function
gets is `args + base`. -/
def scanBody (args : Fin slots → Option Token) (base size : ℕ) (s : Scanning) :
    Outcome (LoopStep Scanning Scanning) := do
  if 4 ≤ s.toRemove.length then
    pure (.exit s)
  else
    match ← read args (base + s.i : ℕ) with
    | none => .error .nullDereference
    | some text =>
        if text = ['<'] then indicatorBranch .input args base size s
        else if text = ['>'] then indicatorBranch .output args base size s
        else pure (.next { s with i := s.i + 1 })

/-- The variables of the loop that removes an argument. -/
structure Shifting (slots : ℕ) where
  pos : ℕ
  args : Fin slots → Option Token

/-- `args[pos] = args[pos + 1]; ++pos` -/
def shiftBody (base : ℕ) (s : Shifting slots) :
    Outcome (LoopStep (Shifting slots) (Shifting slots)) := do
  let next ← read s.args (base + s.pos + 1 : ℕ)
  let args ← write s.args (base + s.pos : ℕ) next
  pure (.next ⟨s.pos + 1, args⟩)

/-- One iteration of the second loop of `check_redirection`. -/
def removeAt (base pos : ℕ) (command : (Fin slots → Option Token) × ℕ) :
    Outcome ((Fin slots → Option Token) × ℕ) := do
  let (args, size) := command
  let last ← whileLoop (·.pos ≠ size) (shiftBody base) slots ⟨pos, args⟩
  pure (last.state.args, size - 1)

/-- What `check_redirection` returns, and the values it changes. -/
structure Redirection (slots : ℕ) where
  flag : UInt32
  args : Fin slots → Option Token
  size : ℕ
  files : Files

/-- `check_redirection`. The second loop goes from the last index to the first. -/
def checkRedirection (args : Fin slots → Option Token) (base size : ℕ) :
    Outcome (Redirection slots) := do
  let last ← whileLoop (·.i ≠ size) (scanBody args base size) size ⟨0, 0, [], .unassigned⟩
  let s := last.state
  let (args, size) ← s.toRemove.foldrM (removeAt base) (args, size)
  pure ⟨s.flag, args, size, s.files⟩

end CheckRedirection

/-! ## `redirect_io` -/

/-- One half of `redirect_io`: the file that becomes the standard stream, if there is one;
nothing when the file does not open. -/
def redirectStream (opens : Direction → Bool) (ioFlag : UInt32) (files : Files)
    (direction : Direction) : Option (Option Token) :=
  if ioFlag &&& direction.bit ≠ 0 then
    if opens direction then some (files.get direction) else none
  else
    some none

/-- `redirect_io`: the files that become standard streams, nothing after a failure. -/
def redirectIo (opens : Direction → Bool) (ioFlag : UInt32) (files : Files) : Option Files := do
  let output ← redirectStream opens ioFlag files .output
  let input ← redirectStream opens ioFlag files .input
  pure ⟨input, output⟩

/-! ## The processes of `run_command` -/

/-- The processes of a call of `run_command`. For a pipe, the child executes the second
command and the grandchild the first. -/
inductive Role where
  | shell
  | child
  | grandchild
deriving DecidableEq

/-- Which calls succeed in which process. -/
structure System where
  forks : Role → Bool
  opens : Role → Direction → Bool
  executes : Role → Bool

/-- How a process leaves `run_command`: by `return value`, or with `execvp` of the
arguments from `args + base` on, where the files are its standard streams. -/
inductive Fate where
  | returns (value : Int)
  | executes (args : Args) (base : ℕ) (files : Files)

/-- A process from its call of `check_redirection` on; `mask` disables redirections. -/
def System.execute (system : System) (role : Role) (args : Args) (base size : ℕ)
    (mask : UInt32 → UInt32) : Outcome Fate := do
  let redirection ← checkRedirection args base size
  let ioFlag := mask redirection.flag
  match redirectIo (system.opens role) ioFlag redirection.files with
  | none => pure (.returns 0)
  | some files =>
      if system.executes role then pure (.executes redirection.args base files)
      else pure (.returns 1)

/-- The branch of the child in `run_command`. Every process works on its own copy of the
arguments. -/
def System.runChild (system : System) (commands : Commands) : Outcome (List (Role × Fate)) :=
  if commands.argsNum2 ≠ 0 then
    match commands.args2 with
    | none => .error .nullDereference
    | some args2 =>
        if system.forks .child then do
          let second ← system.execute .child commands.args args2 commands.argsNum2 (· &&& 2)
          let first ← system.execute .grandchild commands.args 0 commands.argsNum (· &&& 1)
          pure [(.child, second), (.grandchild, first)]
        else
          pure [(.child, .returns 1)]
  else do
    let fate ← system.execute .child commands.args 0 commands.argsNum id
    pure [(.child, fate)]

/-- `run_command` with all processes that it creates, and how each of them leaves it. -/
def System.runCommand (system : System) (args : Args) (argsNum : ℕ) :
    Outcome (List (Role × Fate)) := do
  let (_, commands) ← splitCommand args argsNum
  if system.forks .shell then
    let children ← system.runChild commands
    pure ((.shell, .returns 1) :: children)
  else
    pure [(.shell, .returns 0)]

end OsProjects.Shell
