import OsProjects.C.Heap
import OsProjects.Shell.CommandLoop

/-!
Owns the shell with its tokens on the heap: `args` holds the pointers that `malloc` returned, and
the tokens are given back by `refresh_args`, by `check_ampersand` and by `detect_pipe`.

Every function does to the array what its namesake in `Model` does, and besides that what the
source does to the tokens.

Does not own why no token is used after it was given back (`TokenOwnership`).
-/

namespace OsProjects.Shell.Pointers

open OsProjects.C

/-- `args`, and the tokens that `malloc` has handed out. -/
structure Memory where
  args : Fin argsSize → Pointer
  tokens : Heap Token

/-- After `init_args`. -/
def initArgs : Memory where
  args := fun _ => none
  tokens := .empty

/-! ## `refresh_args` -/

/-- The pointer that walks over the array, as an index. -/
structure Refreshing where
  position : ℕ
  memory : Memory

/-- One iteration of the loop of `refresh_args`, with its test. -/
def refreshBody (r : Refreshing) : Outcome (LoopStep Memory Refreshing) := do
  let pointer ← read r.memory.args r.position
  if pointer = none then
    pure (.exit r.memory)
  else
    let tokens ← r.memory.tokens.free pointer
    let args ← write r.memory.args r.position none
    pure (.next ⟨r.position + 1, ⟨args, tokens⟩⟩)

/-- `refresh_args` -/
def refreshArgs (memory : Memory) : Outcome Memory := do
  match ← whileLoop (fun _ => true) refreshBody (argsSize + 1) ⟨0, memory⟩ with
  | .exit memory => pure memory
  | .next r => pure r.memory

/-! ## `parse_input` -/

/-- The variables of `parse_input`. -/
structure Parsing where
  num : ℕ
  memory : Memory
  token : Option Token
  rest : List Char

/-- One iteration of the loop of `parse_input`. -/
def parseBody (p : Parsing) : Outcome (LoopStep Parsing Parsing) := do
  match p.token with
  | none => .error .nullDereference
  | some token =>
      let (copy, tokens) := p.memory.tokens.malloc token
      let args ← write p.memory.args p.num copy
      let next := strtok p.rest
      pure (.next ⟨p.num + 1, ⟨args, tokens⟩, next.1, next.2⟩)

/-- `parse_input` -/
def parseInput (memory : Memory) (command : List Char) : Outcome (ℕ × Memory) := do
  let first := strtok command
  let last ← whileLoop (·.token.isSome) parseBody command.length ⟨0, memory, first.1, first.2⟩
  pure (last.state.num, last.state.memory)

/-! ## `run_command` before it forks -/

/-- What `check_ampersand` returns, and the values it changes. -/
structure Ampersand where
  runConcurrently : Bool
  memory : Memory
  size : ℕ

/-- `check_ampersand` -/
def checkAmpersand (memory : Memory) (size : ℕ) : Outcome Ampersand := do
  let pointer ← read memory.args ((size : Int) - 1)
  let text ← memory.tokens.load pointer
  match text.getLast? with
  | none => .error .outOfBounds
  | some last =>
      if last ≠ '&' then
        pure ⟨false, memory, size⟩
      else if text.length = 1 then
        let tokens ← memory.tokens.free pointer
        let args ← write memory.args ((size : Int) - 1) none
        pure ⟨true, ⟨args, tokens⟩, size - 1⟩
      else
        let tokens ← memory.tokens.assign pointer List.dropLast
        pure ⟨true, { memory with tokens }, size⟩

/-- The commands on both sides of a pipe. -/
structure Commands where
  memory : Memory
  argsNum : ℕ
  args2 : Option ℕ
  argsNum2 : ℕ

/-- One iteration of the loop of `detect_pipe`. -/
def detectBody (argsNum i : ℕ) (memory : Memory) : Outcome (LoopStep Commands Memory) := do
  let pointer ← read memory.args i
  let text ← memory.tokens.load pointer
  if text = ['|'] then
    let tokens ← memory.tokens.free pointer
    let args ← write memory.args i none
    pure (.exit ⟨⟨args, tokens⟩, i, some (i + 1), argsNum - i - 1⟩)
  else
    pure (.next memory)

/-- `detect_pipe` -/
def detectPipe (memory : Memory) (argsNum : ℕ) : Outcome Commands := do
  match ← forLoop (detectBody argsNum) argsNum 0 memory with
  | .exit commands => pure commands
  | .next memory => pure ⟨memory, argsNum, none, 0⟩

/-- `run_command` up to `fork`. -/
def splitCommand (memory : Memory) (argsNum : ℕ) : Outcome (Bool × Commands) := do
  let ampersand ← checkAmpersand memory argsNum
  let commands ← detectPipe ampersand.memory ampersand.size
  pure (ampersand.runConcurrently, commands)

/-! ## `main` -/

/-- The variables of `main`. -/
structure Session where
  memory : Memory
  command : List Char

/-- Before the loop. -/
def Session.start : Session where
  memory := initArgs
  command := []

/-- How an iteration of the loop of `main` ends. -/
inductive Turn where
  | continued (s : Session)
  | ran (args : Fin argsSize → Pointer) (argsNum : ℕ) (s : Session)
  | left (memory : Memory)

/-- An iteration of the loop of `main`. -/
def mainBody (input : Option (List Char)) (s : Session) : Outcome Turn := do
  let memory ← refreshArgs s.memory
  match getInput input s.command with
  | none => pure (.continued { s with memory })
  | some command =>
      let parsed ← parseInput memory command
      if parsed.1 = 0 then
        pure (.continued ⟨parsed.2, command⟩)
      else
        let name ← read parsed.2.args 0
        let text ← parsed.2.tokens.load name
        if text = ['e', 'x', 'i', 't'] then
          pure (.left parsed.2)
        else
          let split ← splitCommand parsed.2 parsed.1
          pure (.ran parsed.2.args parsed.1 ⟨split.2.memory, command⟩)

/-- The loop of `main` over what calls of `fgets` leave in the buffer, `none` for one that fails;
it is left with the array as it is at `exit`. -/
def mainLoop : List (Option Stored) → Session → Outcome (LoopStep Memory Session)
  | [], s => pure (.next s)
  | line :: lines, s => do
      match ← mainBody (line.map Stored.text) s with
      | .continued session => mainLoop lines session
      | .ran _ _ session => mainLoop lines session
      | .left memory => pure (.exit memory)

end OsProjects.Shell.Pointers
