import OsProjects.C.Array

/-!
Owns the translation of `simple_shell.c` as far as the shell itself executes it:
the reading and splitting of a line, what `run_command` does to the array of
arguments before it forks, and the loop of `main`.

A pointer into `args` is the text it points to, `none` for `NULL`; `free` is
followed by an assignment of `NULL` in all places, so it leaves no trace. The
loops that end at a `NULL` get one iteration more than the array has slots. What
`fgets` stores is the input of an iteration, `none` at the end of file.

Does not own what the children do with their copies of the array, files, or the
texts that are printed.
-/

namespace OsProjects.Shell

open OsProjects.C

def maxLine : ℕ := 80

/-- The length of the array `args`. -/
abbrev argsSize : ℕ := maxLine / 2 + 1

abbrev Token := List Char

/-- `char *args[MAX_LINE / 2 + 1]` -/
abbrev Args := Fin argsSize → Option Token

/-- `DELIMITERS` -/
def delimiters : List Char := [' ', '\t', '\n', '\x0b', '\x0c', '\r']

def isDelimiter (c : Char) : Bool := delimiters.contains c

/-- `init_args` -/
def initArgs : Args := fun _ => none

/-! ## `refresh_args` -/

/-- The pointer that walks over the array, as an index, and the array. -/
structure Refreshing where
  position : ℕ
  args : Args

/-- One iteration of the loop of `refresh_args`, with its test. -/
def refreshBody (r : Refreshing) : Outcome (LoopStep Args Refreshing) := do
  match ← read r.args r.position with
  | none => pure (.exit r.args)
  | some _ =>
      let args ← write r.args r.position none
      pure (.next ⟨r.position + 1, args⟩)

/-- `refresh_args` -/
def refreshArgs (args : Args) : Outcome Args := do
  match ← whileLoop (fun _ => true) refreshBody (argsSize + 1) ⟨0, args⟩ with
  | .exit args => pure args
  | .next r => pure r.args

/-! ## `parse_input` -/

/-- `strtok` at the text that is left: the next token, and the text behind the
delimiter that ends it. -/
def strtok (text : List Char) : Option Token × List Char :=
  let text := text.dropWhile isDelimiter
  if text = [] then (none, [])
  else (some (text.takeWhile (!isDelimiter ·)), (text.dropWhile (!isDelimiter ·)).drop 1)

/-- The variables of `parse_input`. -/
structure Parsing where
  num : ℕ
  args : Args
  token : Option Token
  rest : List Char

/-- One iteration of the loop of `parse_input`. -/
def parseBody (p : Parsing) : Outcome (LoopStep Parsing Parsing) := do
  let args ← write p.args p.num p.token
  let next := strtok p.rest
  pure (.next ⟨p.num + 1, args, next.1, next.2⟩)

/-- `parse_input`. A text has no more tokens than characters. -/
def parseInput (args : Args) (command : List Char) : Outcome (ℕ × Args) := do
  let first := strtok command
  let last ← whileLoop (·.token.isSome) parseBody command.length ⟨0, args, first.1, first.2⟩
  pure (last.state.num, last.state.args)

/-! ## `get_input` -/

/-- `strncmp(text, "!!", 2) == 0` -/
def recalls (text : List Char) : Bool := ['!', '!'].isPrefixOf text

/-- `get_input`: the command after a success, `none` after a failure, which leaves
the command as it was. -/
def getInput (input : Option (List Char)) (command : List Char) : Option (List Char) :=
  match input with
  | none => none
  | some text =>
      if recalls text then
        if command.length = 0 then none else some command
      else
        some text

/-! ## `run_command` before it forks -/

/-- What `check_ampersand` returns, and the values it changes. -/
structure Ampersand where
  runConcurrently : Bool
  args : Args
  size : ℕ

/-- `check_ampersand` -/
def checkAmpersand (args : Args) (size : ℕ) : Outcome Ampersand := do
  match ← read args ((size : Int) - 1) with
  | none => .error .nullDereference
  | some text =>
      match text.getLast? with
      | none => .error .outOfBounds
      | some last =>
          if last ≠ '&' then
            pure ⟨false, args, size⟩
          else if text.length = 1 then
            let args ← write args ((size : Int) - 1) none
            pure ⟨true, args, size - 1⟩
          else
            let args ← write args ((size : Int) - 1) (some text.dropLast)
            pure ⟨true, args, size⟩

/-- The commands on both sides of a pipe; `args2` is an index into `args`, `none`
while the pointer is not assigned. -/
structure Commands where
  args : Args
  argsNum : ℕ
  args2 : Option ℕ
  argsNum2 : ℕ

/-- One iteration of the loop of `detect_pipe`. -/
def detectBody (argsNum i : ℕ) (args : Args) : Outcome (LoopStep Commands Args) := do
  match ← read args i with
  | none => .error .nullDereference
  | some text =>
      if text = ['|'] then
        let args ← write args i none
        pure (.exit ⟨args, i, some (i + 1), argsNum - i - 1⟩)
      else
        pure (.next args)

/-- `detect_pipe` -/
def detectPipe (args : Args) (argsNum : ℕ) : Outcome Commands := do
  match ← forLoop (detectBody argsNum) argsNum 0 args with
  | .exit commands => pure commands
  | .next args => pure ⟨args, argsNum, none, 0⟩

/-- `run_command` up to `fork`: whether the shell will wait, and the commands of
the children. The shell itself does not touch `args` after that. -/
def splitCommand (args : Args) (argsNum : ℕ) : Outcome (Bool × Commands) := do
  let ampersand ← checkAmpersand args argsNum
  let commands ← detectPipe ampersand.args ampersand.size
  pure (ampersand.runConcurrently, commands)

/-! ## `main` -/

/-- The variables of `main`. -/
structure Session where
  args : Args
  command : List Char

/-- Before the loop; `init_command` has made the command empty. -/
def Session.start : Session where
  args := initArgs
  command := []

/-- How an iteration of the loop of `main` ends: without a command to run, after
`run_command(args, args_num)`, or by leaving the loop. -/
inductive Turn where
  | continued (s : Session)
  | ran (args : Args) (argsNum : ℕ) (s : Session)
  | left

/-- An iteration of the loop of `main`. -/
def mainBody (input : Option (List Char)) (s : Session) : Outcome Turn := do
  let args ← refreshArgs s.args
  match getInput input s.command with
  | none => pure (.continued { s with args })
  | some command =>
      let parsed ← parseInput args command
      if parsed.1 = 0 then
        pure (.continued ⟨parsed.2, command⟩)
      else
        match ← read parsed.2 0 with
        | none => .error .nullDereference
        | some name =>
            if name = ['e', 'x', 'i', 't'] then
              pure .left
            else
              let split ← splitCommand parsed.2 parsed.1
              pure (.ran parsed.2 parsed.1 ⟨split.2.args, command⟩)

/-! ## Lines that are typed -/

/-- A line that `fgets` reads whole, without the character that ends it. -/
structure Line where
  text : List Char
  unbroken : '\n' ∉ text
  short : text.length < maxLine

/-- What `fgets` stores for a line. A NUL ends the string for all that read it. -/
def Line.typed (line : Line) : List Char := (line.text ++ ['\n']).takeWhile (· ≠ '\x00')

/-- The shell after it has read the lines, `none` when it has left the loop. -/
def readLines : List Line → Session → Outcome (Option Session)
  | [], s => pure (some s)
  | line :: rest, s => do
      match ← mainBody (some line.typed) s with
      | .continued s => readLines rest s
      | .ran _ _ s => readLines rest s
      | .left => pure none

end OsProjects.Shell
