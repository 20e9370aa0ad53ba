import OsProjects.C.Iteration
import OsProjects.C.Ownership
import OsProjects.Shell.TokenHeap

/-!
Owns the tokens of the shell: over its whole input no token is used or given back after it was
given back, and when no line has a command behind a pipe, every token is given back in the end.

`refresh_args` stops at the first `NULL`, so what stands behind a pipe stays in the array. A later
line may write its own tokens over it, and then no pointer to it is left.

Does not own what the children do with their copies of the array.
-/

namespace OsProjects.Shell.Pointers

open OsProjects.C

/-- The slots own the tokens that the array shows. While the session is tidy, there are no other
tokens on the heap. -/
structure Memory.Shows (tidy : Prop) (memory : Memory) (shown : Shell.Args) : Prop where
  tokens : contents memory.args memory.tokens = shown
  owns : Owns memory.args memory.tokens
  noneLost : tidy → NoneLost memory.args memory.tokens

section Slots

variable {tidy : Prop} {memory : Memory} {shown after : Shell.Args} {slot : Fin argsSize}
variable {address : ℕ} {token : Token}

theorem initArgs_shows (tidy : Prop) : initArgs.Shows tidy Shell.initArgs := by
  refine ⟨rfl, ⟨fun _ _ points => ?_, fun _ _ _ points => ?_⟩, fun _ _ live => absurd rfl live⟩
  · cases points
  · cases points

theorem Memory.Shows.null_iff (shows : memory.Shows tidy shown) :
    memory.args slot = none ↔ shown slot = none := by
  rw [← shows.tokens, shows.owns.contents_eq_none]

/-- The slot has the pointer to the token that it shows. -/
theorem Memory.Shows.points (shows : memory.Shows tidy shown) (holds : shown slot = some token) :
    ∃ address, memory.args slot = some address ∧ memory.tokens.cell address = some token := by
  cases pointer : memory.args slot with
  | none =>
      rw [shows.null_iff.mp pointer] at holds
      cases holds
  | some address => exact ⟨address, rfl, by rw [← contents_some pointer, shows.tokens, holds]⟩

/-- A token is given back. -/
theorem Memory.Shows.clear (shows : memory.Shows tidy shown)
    (points : memory.args slot = some address) :
    memory.tokens.free (some address) = .ok (memory.tokens.remove address) ∧
      Memory.Shows tidy ⟨Function.update memory.args slot none, memory.tokens.remove address⟩
        (Function.update shown slot none) := by
  obtain ⟨freed, owns⟩ := shows.owns.free points
  refine ⟨freed, ?_, owns, fun isTidy => (shows.noneLost isTidy).free points⟩
  rw [shows.owns.contents_free points, shows.tokens]

/-- A new token: what the slot had before is lost. -/
theorem Memory.Shows.store (shows : memory.Shows tidy shown)
    (free : tidy → shown slot = none) (token : Token) :
    Memory.Shows tidy ⟨Function.update memory.args slot (some memory.tokens.fresh),
        (memory.tokens.malloc token).2⟩ (Function.update shown slot (some token)) := by
  refine ⟨?_, shows.owns.malloc slot token, fun isTidy =>
    (shows.noneLost isTidy).malloc (shows.null_iff.mpr (free isTidy)) token⟩
  rw [shows.owns.contents_malloc slot token, shows.tokens]

/-- A token is changed where it is. -/
theorem Memory.Shows.change (shows : memory.Shows tidy shown)
    (points : memory.args slot = some address) (now : Token) :
    Memory.Shows tidy { memory with tokens := memory.tokens.write address now }
      (Function.update shown slot (some now)) := by
  refine ⟨?_, shows.owns.write address now, fun isTidy =>
    (shows.noneLost isTidy).write address now⟩
  rw [shows.owns.contents_write points now, shows.tokens]

end Slots

/-! ## `refresh_args` -/

section Refresh

variable {tidy : Prop} {memory : Memory} {shown after : Shell.Args}

/-- The variables of `refresh_args` in the two programs. -/
structure Refreshing.Shows (tidy : Prop) (r : Refreshing) (q : Shell.Refreshing) : Prop where
  position : r.position = q.position
  memory : r.memory.Shows tidy q.args

theorem Refreshing.Shows.body {r : Refreshing} {q : Shell.Refreshing}
    {step : LoopStep Shell.Args Shell.Refreshing} (shows : r.Shows tidy q)
    (run : Shell.refreshBody q = .ok step) :
    ∃ step', refreshBody r = .ok step' ∧
      step'.Related (Memory.Shows tidy) (Refreshing.Shows tidy) step := by
  obtain ⟨value, ran, run⟩ := bind_eq_ok.mp run
  obtain ⟨slot, isSlot, rfl⟩ := read_eq_ok ran
  have below : q.position < argsSize := by omega
  obtain rfl : slot = ⟨q.position, below⟩ := Fin.ext (Int.ofNat_inj.mp isSlot.symm)
  rw [refreshBody, shows.position, read_natCast _ below, ok_bind]
  cases pointer : r.memory.args ⟨q.position, below⟩ with
  | none =>
      rw [shows.memory.null_iff.mp pointer] at run
      cases run
      exact ⟨_, if_pos rfl, .exit shows.memory⟩
  | some address =>
      obtain ⟨freed, after⟩ := shows.memory.clear pointer
      rw [if_neg (Option.some_ne_none _), freed, ok_bind, write_natCast _ below, ok_bind]
      cases value : q.args ⟨q.position, below⟩ with
      | none => exact absurd (shows.memory.null_iff.mpr value) (by simp [pointer])
      | some token =>
          rw [value] at run
          dsimp only at run
          rw [write_natCast _ below, ok_bind] at run
          cases run
          exact ⟨_, rfl, .next ⟨rfl, after⟩⟩

theorem Memory.Shows.refreshArgs (shows : memory.Shows tidy shown)
    (run : Shell.refreshArgs shown = .ok after) :
    ∃ memory', refreshArgs memory = .ok memory' ∧ memory'.Shows tidy after := by
  obtain ⟨last, loop, run⟩ := bind_eq_ok.mp run
  obtain ⟨last', ranLoop, related⟩ := whileLoop_follows (R := Refreshing.Shows tidy)
    (fun _ => true) (fun _ => rfl) (fun shows _ run => shows.body run)
    (⟨rfl, shows⟩ : Refreshing.Shows tidy ⟨0, memory⟩ ⟨0, shown⟩) loop
  rw [Pointers.refreshArgs, ranLoop, ok_bind]
  cases related with
  | next states =>
      cases run
      exact ⟨_, rfl, states.memory⟩
  | exit results =>
      cases run
      exact ⟨_, rfl, results⟩

end Refresh

/-! ## `parse_input` -/

section Parse

variable {tidy : Prop} {memory : Memory} {shown : Shell.Args} {result : ℕ × Shell.Args}

/-- The variables of `parse_input` in the two programs. A tidy session writes into free slots. -/
structure Parsing.Shows (tidy : Prop) (p : Parsing) (q : Shell.Parsing) : Prop where
  num : p.num = q.num
  memory : p.memory.Shows tidy q.args
  token : p.token = q.token
  rest : p.rest = q.rest
  free : tidy → ∀ slot : Fin argsSize, q.num ≤ slot.val → q.args slot = none

theorem Parsing.Shows.body {p : Parsing} {q : Shell.Parsing}
    {step : LoopStep Shell.Parsing Shell.Parsing} (shows : p.Shows tidy q)
    (more : q.token.isSome = true) (run : Shell.parseBody q = .ok step) :
    ∃ step', parseBody p = .ok step' ∧
      step'.Related (Parsing.Shows tidy) (Parsing.Shows tidy) step := by
  obtain ⟨token, isToken⟩ := Option.isSome_iff_exists.mp more
  obtain ⟨args, ran, returned⟩ := bind_eq_ok.mp run
  cases returned
  obtain ⟨slot, isSlot, rfl⟩ := write_eq_ok ran
  have sameSlot : q.num = slot.val := Int.ofNat_inj.mp isSlot
  have after := shows.memory.store
    (fun isTidy => shows.free isTidy slot sameSlot.le) token
  refine ⟨.next ⟨p.num + 1, ⟨Function.update p.memory.args slot (some p.memory.tokens.fresh),
    (p.memory.tokens.malloc token).2⟩, (strtok p.rest).1, (strtok p.rest).2⟩, ?_, .next ?_⟩
  · rw [parseBody, shows.token, isToken]
    dsimp only
    rw [Heap.malloc_eq, shows.num, isSlot]
    dsimp only
    rw [write_fin, ok_bind]
    rfl
  · refine ⟨by rw [shows.num], ?_, by rw [shows.rest], by rw [shows.rest],
      fun isTidy other behind => ?_⟩
    · rw [isToken]
      exact after
    · have different : other ≠ slot := by
        rintro rfl
        dsimp only at behind
        omega
      dsimp only at behind ⊢
      rw [Function.update_of_ne different]
      exact shows.free isTidy other (by omega)

/-- `parse_input` on an array that is free when the session is tidy. -/
theorem Memory.Shows.parseInput (shows : memory.Shows tidy shown)
    (free : tidy → ∀ slot, shown slot = none) {command : List Char}
    (run : Shell.parseInput shown command = .ok result) :
    ∃ memory', parseInput memory command = .ok (result.1, memory') ∧
      memory'.Shows tidy result.2 := by
  obtain ⟨last, loop, returned⟩ := bind_eq_ok.mp run
  cases returned
  obtain ⟨last', ranLoop, related⟩ := whileLoop_follows (R := Parsing.Shows tidy)
    (fun p => p.token.isSome) (fun shows => by rw [shows.token])
    (fun shows more run => shows.body more run)
    (⟨rfl, shows, rfl, rfl, fun isTidy slot _ => free isTidy slot⟩ : Parsing.Shows tidy
      ⟨0, memory, (strtok command).1, (strtok command).2⟩ _) loop
  refine ⟨last'.state.memory, ?_, related.state.memory⟩
  rw [Pointers.parseInput, ranLoop, ok_bind, ← related.state.num]
  rfl

end Parse

/-! ## `run_command` before it forks -/

section Split

variable {tidy : Prop} {memory : Memory} {shown : Shell.Args} {size argsNum : ℕ}

theorem Memory.Shows.checkAmpersand (shows : memory.Shows tidy shown) {result : Shell.Ampersand}
    (run : Shell.checkAmpersand shown size = .ok result) :
    ∃ memory', checkAmpersand memory size = .ok ⟨result.runConcurrently, memory', result.size⟩ ∧
      memory'.Shows tidy result.args := by
  obtain ⟨value, ran, run⟩ := bind_eq_ok.mp run
  obtain ⟨slot, isSlot, rfl⟩ := read_eq_ok ran
  rw [Pointers.checkAmpersand, isSlot, read_fin, ok_bind]
  cases holds : shown slot with
  | none =>
      rw [holds] at run
      cases run
  | some text =>
      obtain ⟨address, points, cell⟩ := shows.points holds
      rw [points, Heap.load_some cell, ok_bind]
      rw [holds, isSlot] at run
      dsimp only at run
      cases ends : text.getLast? with
      | none =>
          rw [ends] at run
          cases run
      | some last =>
          rw [ends] at run
          dsimp only at run ⊢
          split at run
          · rename_i other
            cases run
            exact ⟨memory, if_pos other, shows⟩
          · rename_i ampersand
            rw [if_neg ampersand]
            split at run
            · rename_i alone
              obtain ⟨args, wrote, returned⟩ := bind_eq_ok.mp run
              rw [write_fin] at wrote
              cases wrote
              cases returned
              obtain ⟨freed, after⟩ := shows.clear points
              rw [if_pos alone, freed, ok_bind, write_fin, ok_bind]
              exact ⟨_, rfl, after⟩
            · rename_i glued
              obtain ⟨args, wrote, returned⟩ := bind_eq_ok.mp run
              rw [write_fin] at wrote
              cases wrote
              cases returned
              rw [if_neg glued, Heap.assign_some cell, ok_bind]
              exact ⟨_, rfl, shows.change points text.dropLast⟩

/-- What `detect_pipe` does in the two programs. -/
structure Commands.Shows (tidy : Prop) (commands : Commands) (shown : Shell.Commands) : Prop where
  memory : commands.memory.Shows tidy shown.args
  argsNum : commands.argsNum = shown.argsNum
  args2 : commands.args2 = shown.args2
  argsNum2 : commands.argsNum2 = shown.argsNum2

theorem Memory.Shows.detectBody (shows : memory.Shows tidy shown) {i : ℕ}
    {step : LoopStep Shell.Commands Shell.Args}
    (run : Shell.detectBody argsNum i shown = .ok step) :
    ∃ step', detectBody argsNum i memory = .ok step' ∧
      step'.Related (Commands.Shows tidy) (Memory.Shows tidy) step := by
  obtain ⟨value, ran, run⟩ := bind_eq_ok.mp run
  obtain ⟨slot, isSlot, rfl⟩ := read_eq_ok ran
  rw [Pointers.detectBody, isSlot, read_fin, ok_bind]
  cases holds : shown slot with
  | none =>
      rw [holds] at run
      cases run
  | some text =>
      obtain ⟨address, points, cell⟩ := shows.points holds
      rw [points, Heap.load_some cell, ok_bind]
      rw [holds, isSlot] at run
      dsimp only at run
      split at run
      · rename_i pipe
        obtain ⟨args, wrote, returned⟩ := bind_eq_ok.mp run
        rw [write_fin] at wrote
        cases wrote
        cases returned
        obtain ⟨freed, after⟩ := shows.clear points
        rw [if_pos pipe, freed, ok_bind, write_fin, ok_bind]
        exact ⟨_, rfl, .exit ⟨after, rfl, rfl, rfl⟩⟩
      · rename_i word
        cases run
        exact ⟨_, if_neg word, .next shows⟩

theorem Memory.Shows.detectPipe (shows : memory.Shows tidy shown) {result : Shell.Commands}
    (run : Shell.detectPipe shown argsNum = .ok result) :
    ∃ commands, detectPipe memory argsNum = .ok commands ∧ commands.Shows tidy result := by
  obtain ⟨last, loop, run⟩ := bind_eq_ok.mp run
  obtain ⟨last', ranLoop, related⟩ := forLoop_follows (fun shows run => shows.detectBody run)
    shows loop
  rw [Pointers.detectPipe, ranLoop, ok_bind]
  cases related with
  | next states =>
      cases run
      exact ⟨_, rfl, states, rfl, rfl, rfl⟩
  | exit results =>
      cases run
      exact ⟨_, rfl, results⟩

theorem Memory.Shows.splitCommand (shows : memory.Shows tidy shown)
    {result : Bool × Shell.Commands} (run : Shell.splitCommand shown argsNum = .ok result) :
    ∃ commands, splitCommand memory argsNum = .ok (result.1, commands) ∧
      commands.Shows tidy result.2 := by
  obtain ⟨ampersand, check, run⟩ := bind_eq_ok.mp run
  obtain ⟨split, detect, returned⟩ := bind_eq_ok.mp run
  cases returned
  obtain ⟨checked, ranCheck, shows⟩ := shows.checkAmpersand check
  obtain ⟨commands, ranDetect, shows⟩ := shows.detectPipe detect
  refine ⟨commands, ?_, shows⟩
  rw [Pointers.splitCommand, ranCheck, ok_bind, ranDetect, ok_bind]
  rfl

end Split

/-! ## `main` -/

/-- Behind the first `NULL` there are only `NULL`s. -/
def Gapless (args : Shell.Args) : Prop :=
  ∀ slot other : Fin argsSize, args slot = none → slot ≤ other → args other = none

/-- Nothing stands behind a pipe. -/
def OneCommand (tokens : List Token) : Prop := secondCommand (afterAmpersand tokens) = []

/-- The variables of `main` in the two programs. -/
structure Session.Shows (tidy : Prop) (n : Session) (s : Shell.Session) : Prop where
  memory : n.memory.Shows tidy s.args
  command : n.command = s.command
  gapless : tidy → Gapless s.args
  plain : tidy → OneCommand (tokensOf s.command)

/-- `exit` has been read: the array that `refresh_args` gets. -/
structure Leaving (tidy : Prop) (memory : Memory) (shown : Shell.Args) : Prop where
  memory : memory.Shows tidy shown
  ended : shown ⟨maxLine / 2, by decide⟩ = none
  gapless : tidy → Gapless shown

/-- The iterations end alike. -/
inductive Turn.Related (tidy : Prop) : Turn → Shell.Turn → Prop where
  | continued {n : Session} {s : Shell.Session} (sessions : n.Shows tidy s) :
      Related tidy (.continued n) (.continued s)
  | ran {pointers : Fin argsSize → Pointer} {args : Shell.Args} {argsNum : ℕ} {n : Session}
      {s : Shell.Session} (sessions : n.Shows tidy s) :
      Related tidy (.ran pointers argsNum n) (.ran args argsNum s)
  | left {memory : Memory} {shown : Shell.Args} (leaving : Leaving tidy memory shown) :
      Related tidy (.left memory) .left

section Main

variable {tidy : Prop} {memory : Memory} {args refreshed : Shell.Args} {tokens line : List Token}
variable {n : Session} {s : Shell.Session} {input : Option (List Char)} {turn : Shell.Turn}

/-- `refresh_args` gives back everything when nothing stands behind the first `NULL`. -/
theorem refreshArgs_gapless (gapless : Gapless args) (ended : args ⟨maxLine / 2, by decide⟩ = none)
    (run : Shell.refreshArgs args = .ok refreshed) (slot : Fin argsSize) :
    refreshed slot = none := by
  have someFree : ∃ slot, ∃ below : slot < argsSize, args ⟨slot, below⟩ = none :=
    ⟨maxLine / 2, by decide, ended⟩
  obtain ⟨below, free⟩ := Nat.find_spec someFree
  have full : ∀ slot : Fin argsSize, slot.val < Nat.find someFree → args slot ≠ none :=
    fun slot before empty => Nat.find_min someFree before ⟨slot.isLt, empty⟩
  rw [refreshArgs_ok free full] at run
  cases run
  rw [clearedBelow]
  split
  · rfl
  · rename_i behind
    exact gapless _ slot free (Nat.le_of_not_lt behind)

theorem laid_gapless (free : ∀ slot, args slot = none) (number : ℕ) (tokens : List Token) :
    Gapless (laid args number tokens) := by
  intro slot other null before
  have order : slot.val ≤ other.val := before
  rw [laid] at null ⊢
  split
  · rename_i inside
    rw [if_pos (by omega), List.getElem?_eq_none_iff] at null
    exact List.getElem?_eq_none (by omega)
  · exact free other

/-- A pipe that is cut out at the end leaves no gap. -/
theorem cut_gapless (free : ∀ slot, args slot = none) (number : ℕ)
    (plain : secondCommand line = []) : Gapless (cut args number line) := by
  intro slot other null before
  have order : slot.val ≤ other.val := before
  by_cases here : pipeAt line = some slot.val
  · have last : line.length ≤ slot.val + 1 := by
      rw [secondCommand, here] at plain
      exact List.drop_eq_nil_iff.mp plain
    rw [cut]
    split
    · rfl
    · rename_i elsewhere
      have behind : slot.val < other.val := by
        refine lt_of_le_of_ne order fun same => elsewhere ?_
        rw [here, same]
      rw [laid]
      split
      · exact List.getElem?_eq_none (by omega)
      · exact free other
  · rw [cut, if_neg here] at null
    rw [cut]
    split
    · rfl
    · exact laid_gapless free number line slot other null before

/-- The command is the line or the last one. -/
theorem getInput_cases {command : List Char} (given : getInput input s.command = some command) :
    input = some command ∨ command = s.command := by
  cases input with
  | none => cases given
  | some text =>
      rw [getInput] at given
      split at given
      · split at given
        · cases given
        · cases given
          exact Or.inr rfl
      · cases given
        exact Or.inl rfl

theorem Session.Shows.mainBody (shows : n.Shows tidy s) (ready : Ready s)
    (short : ∀ text, input = some text → text.length ≤ maxLine)
    (plain : tidy → ∀ text, input = some text → OneCommand (tokensOf text))
    (run : Shell.mainBody input s = .ok turn) :
    ∃ turn', mainBody input n = .ok turn' ∧ turn'.Related tidy turn := by
  obtain ⟨args, refresh, run⟩ := bind_eq_ok.mp run
  obtain ⟨memory, ranRefresh, refreshed⟩ := shows.memory.refreshArgs refresh
  have free : tidy → ∀ slot, args slot = none := fun isTidy =>
    refreshArgs_gapless (shows.gapless isTidy) ready.ended refresh
  have ended : args ⟨maxLine / 2, by decide⟩ = none := by
    obtain ⟨again, same, ended⟩ := refreshArgs_ended ready.ended
    rw [refresh] at same
    cases same
    exact ended
  rw [Pointers.mainBody, ranRefresh, ok_bind, shows.command]
  cases given : getInput input s.command with
  | none =>
      rw [given] at run
      cases run
      exact ⟨_, rfl, .continued ⟨refreshed, rfl,
        fun isTidy _ other _ _ => free isTidy other, shows.plain⟩⟩
  | some command =>
      rw [given] at run
      dsimp only at run ⊢
      have plainCommand : tidy → OneCommand (tokensOf command) := by
        intro isTidy
        rcases getInput_cases given with typed | recalled
        · exact plain isTidy command typed
        · exact recalled ▸ shows.plain isTidy
      have fits : command.length ≤ maxLine := by
        rcases getInput_cases given with typed | recalled
        · exact short command typed
        · exact recalled ▸ ready.short
      have bound := length_tokensOf command
      have room : (tokensOf command).length < argsSize := by
        simp only [argsSize, maxLine] at *
        omega
      obtain ⟨parsed, parse, run⟩ := bind_eq_ok.mp run
      obtain ⟨memory', ranParse, parsedShows⟩ := refreshed.parseInput free parse
      rw [parseInput_ok args room.le] at parse
      cases parse
      rw [ranParse, ok_bind]
      dsimp only at run parsedShows ⊢
      by_cases blank : (tokensOf command).length = 0
      · rw [if_pos blank] at run ⊢
        cases run
        exact ⟨_, rfl, .continued ⟨parsedShows, rfl,
          fun isTidy => laid_gapless (free isTidy) _ _, plainCommand⟩⟩
      · rw [if_neg blank] at run ⊢
        obtain ⟨value, first, run⟩ := bind_eq_ok.mp run
        obtain ⟨slot, isSlot, rfl⟩ := read_eq_ok first
        rw [isSlot, read_fin, ok_bind]
        cases holds : laid args (tokensOf command).length (tokensOf command) slot with
        | none =>
            rw [holds] at run
            cases run
        | some name =>
            obtain ⟨address, points, cell⟩ := parsedShows.points holds
            rw [points, Heap.load_some cell, ok_bind]
            rw [holds] at run
            dsimp only at run
            split at run
            · rename_i exits
              cases run
              refine ⟨_, if_pos exits, .left ⟨parsedShows, ?_,
                fun isTidy => laid_gapless (free isTidy) _ _⟩⟩
              have behind : ¬maxLine / 2 < (tokensOf command).length := by
                simp only [argsSize] at room
                omega
              rw [laid, if_neg behind, ended]
            · rename_i stays
              have nonempty : tokensOf command ≠ [] := fun noTokens => blank (by rw [noTokens]; rfl)
              rw [splitCommand_eq args nonempty (fun token => ne_nil_of_mem_tokensOf) room.le,
                ok_bind] at run
              cases run
              obtain ⟨commands, ranSplit, after⟩ := parsedShows.splitCommand
                (splitCommand_eq args nonempty (fun token => ne_nil_of_mem_tokensOf) room.le)
              rw [if_neg stays, ranSplit, ok_bind]
              exact ⟨_, rfl, .ran ⟨after.memory, rfl,
                fun isTidy => cut_gapless (free isTidy) _ (plainCommand isTidy), plainCommand⟩⟩

end Main

/-! ## The loop -/

/-- No line has a command behind a pipe. -/
def NoPipes (lines : List (Option Stored)) : Prop :=
  ∀ line, some line ∈ lines → OneCommand (tokensOf line.text)

/-- The variables of `main`: every slot owns its token, and the tokens are those of the session
with the texts in the array. While the session is tidy, there are no other tokens on the heap. -/
structure Keeps (tidy : Prop) (n : Session) (s : Shell.Session) : Prop where
  owns : Owns n.memory.args n.memory.tokens
  noneLost : tidy → NoneLost n.memory.args n.memory.tokens
  tokens : contents n.memory.args n.memory.tokens = s.args
  command : n.command = s.command

/-- `refresh_args` after the loop goes well, and leaves a tidy session without tokens. -/
def Releases (tidy : Prop) (memory : Memory) : Prop :=
  ∃ ended, refreshArgs memory = .ok ended ∧ (tidy → ∀ address, ended.tokens.cell address = none)

/-- Over these lines the shell does the same as the shell with the texts in the array: no token is
used or given back after it was given back, and when no line has a command behind a pipe, none is
lost and none is left in the end. -/
def KeepsTokens (lines : List (Option Stored)) : Prop :=
  ∃ step shown, mainLoop lines Session.start = .ok step ∧
    Shell.mainLoop lines Shell.Session.start = .ok shown ∧
      step.Related (fun memory _ => Releases (NoPipes lines) memory) (Keeps (NoPipes lines)) shown

section Loop

variable {tidy : Prop} {n : Session} {s : Shell.Session} {memory : Memory} {shown : Shell.Args}
variable {line : Option Stored} {lines : List (Option Stored)}

/-- Whatever the array is when `exit` is read, it can be refreshed. -/
theorem Leaving.releases (leaving : Leaving tidy memory shown) : Releases tidy memory := by
  obtain ⟨refreshed, refresh, _⟩ := refreshArgs_ended leaving.ended
  obtain ⟨ended, ran, shows⟩ := leaving.memory.refreshArgs refresh
  refine ⟨ended, ran, fun isTidy address => ?_⟩
  by_contra live
  obtain ⟨slot, points⟩ := shows.noneLost isTidy address live
  have null := shows.null_iff.mpr
    (refreshArgs_gapless (leaving.gapless isTidy) leaving.ended refresh slot)
  rw [null] at points
  cases points

theorem Session.Shows.keeps (shows : n.Shows tidy s) : Keeps tidy n s :=
  ⟨shows.memory.owns, shows.memory.noneLost, shows.memory.tokens, shows.command⟩

/-- The two loops go on from the sessions after the first line, or both have been left. -/
theorem Session.Shows.mainLoop : ∀ {lines : List (Option Stored)} {n : Session}
    {s : Shell.Session}, n.Shows tidy s → Ready s → (tidy → NoPipes lines) →
      ∃ step shown, mainLoop lines n = .ok step ∧ Shell.mainLoop lines s = .ok shown ∧
        step.Related (fun memory _ => Releases tidy memory) (Keeps tidy) shown
  | [], _, _, shows, _, _ => ⟨_, _, rfl, rfl, .next shows.keeps⟩
  | line :: lines, n, s, shows, ready, plain => by
      have plainLine : tidy → ∀ text, line.map Stored.text = some text →
          OneCommand (tokensOf text) := by
        intro isTidy text same
        obtain ⟨stored, rfl, rfl⟩ := Option.map_eq_some_iff.mp same
        exact plain isTidy stored List.mem_cons_self
      have plainRest : tidy → NoPipes lines := fun isTidy stored member =>
        plain isTidy stored (List.mem_cons_of_mem _ member)
      rcases mainBody_ready ready (fun _ => Stored.fits line) with
        ⟨_, left⟩ | ⟨_, after, readyAfter, _, goesOn⟩
      · obtain ⟨turn, ran, related⟩ := shows.mainBody ready (fun _ => Stored.fits line)
          plainLine left
        cases related with
        | left leaving =>
            refine ⟨_, _, ?_, mainLoop_left left, .exit leaving.releases⟩
            rw [Pointers.mainLoop, ran]
            rfl
      · rw [goesOn.mainLoop]
        cases goesOn with
        | idle _ isTurn =>
            obtain ⟨turn, ran, related⟩ := shows.mainBody ready (fun _ => Stored.fits line)
              plainLine isTurn
            cases related with
            | continued sessions =>
                rw [Pointers.mainLoop, ran]
                exact sessions.mainLoop readyAfter plainRest
        | runs _ _ _ isTurn =>
            obtain ⟨turn, ran, related⟩ := shows.mainBody ready (fun _ => Stored.fits line)
              plainLine isTurn
            cases related with
            | ran sessions =>
                rw [Pointers.mainLoop, ran]
                exact sessions.mainLoop readyAfter plainRest

theorem start_shows (tidy : Prop) : Session.start.Shows tidy Shell.Session.start := by
  refine ⟨initArgs_shows _, rfl, fun _ _ _ _ _ => rfl, fun _ => ?_⟩
  show secondCommand (afterAmpersand (tokensOf [])) = []
  rw [tokensOf_nil]
  rfl

end Loop

/-- Whatever lines are read, no token is used or given back after it was given back, and without
pipes none is lost. At every prompt the shell has read such lines. -/
theorem keepsTokens (world : World) (input : List Char) :
    (∀ lines, KeepsTokens lines) ∧
      ∀ p, Reaches (fun _ => true) (promptBody world) (.start input) p →
        ∃ lines : List (Option Stored), lines.length = p.turn ∧
          Shell.mainLoop lines Shell.Session.start = .ok (.next p.session) :=
  ⟨fun _ => (start_shows _).mainLoop ready_start id,
    fun _ reaches => (mainLoop_of_reaches reaches).2⟩

end OsProjects.Shell.Pointers
