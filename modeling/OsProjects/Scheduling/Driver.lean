import OsProjects.C.Heap
import OsProjects.C.Iteration
import OsProjects.C.Words
import OsProjects.Scheduling.Model

/-!
Owns `driver.c`: reading the task file line by line, splitting a line at its commas, and passing
what stands between them to `add`.

A line lives in a block of the heap and is split in place: a comma is overwritten with a NUL. A
pointer to a character is the address of the block and an offset into it. Freeing a pointer that
is not the start of a block is the fault of freeing what is not allocated.

Does not own `add` and `schedule`, which depend on the program that is linked.
-/

namespace OsProjects.Scheduling

open OsProjects.C

/-- `SIZE` -/
def size : ℕ := 100

/-- A `char *`. -/
abbrev CharPointer := Option (ℕ × ℕ)

variable {σ : Type}

/-! ## Strings in the heap -/

/-- The string that starts at the pointer. -/
def stringAt (strings : Heap (List Char)) : CharPointer → Outcome (List Char)
  | none => .error .nullDereference
  | some (address, offset) => do
      let block ← strings.load (some address)
      if block.length < offset then .error .outOfBounds else return cString (block.drop offset)

/-- `strdup` -/
def strdup (strings : Heap (List Char)) (string : List Char) : CharPointer × Heap (List Char) :=
  let (address, strings) := strings.malloc (cString string)
  (address.map (·, 0), strings)

/-- `strsep(&stringp, ",")`: the token, the value of `stringp` afterwards, and the heap. -/
def strsep (strings : Heap (List Char)) :
    CharPointer → Outcome (CharPointer × CharPointer × Heap (List Char))
  | none => .ok (none, none, strings)
  | some (address, offset) => do
      let string ← stringAt strings (some (address, offset))
      let token := string.takeWhile (· ≠ ',')
      if token.length = string.length then return (some (address, offset), none, strings)
      else
        let strings ← strings.assign (some address) fun block =>
          block.set (offset + token.length) '\x00'
        return (some (address, offset), some (address, offset + token.length + 1), strings)

/-- `free` -/
def freeString (strings : Heap (List Char)) : CharPointer → Outcome (Heap (List Char))
  | none => .ok strings
  | some (address, 0) => strings.free (some address)
  | some (_, _ + 1) => .error .useAfterFree

/-! ## `main` -/

/-- The file that is left, the heap of strings, and the variables of the linked program. -/
structure Driver (σ : Type) where
  inputFile : List Char
  strings : Heap (List Char)
  state : σ

/-- One iteration of the loop of `main`, with its test. -/
def driverBody (add : σ → NewTask → Outcome σ) (d : Driver σ) :
    Outcome (LoopStep (Driver σ) (Driver σ)) := do
  match fgets size d.inputFile with
  | (none, inputFile) => return .exit { d with inputFile := inputFile }
  | (some task, inputFile) =>
      let (temp, strings) := strdup d.strings task
      let (name, temp, strings) ← strsep strings temp
      let (second, temp, strings) ← strsep strings temp
      let priority ← atoi (← stringAt strings second)
      let (third, temp, strings) ← strsep strings temp
      let burst ← atoi (← stringAt strings third)
      let state ← add d.state ⟨String.ofList (← stringAt strings name), priority, burst⟩
      let strings ← freeString strings temp
      return .next ⟨inputFile, strings, state⟩

/-- The loop of `main`. Every iteration but the last reads a character. -/
def readTasks (add : σ → NewTask → Outcome σ) (d : Driver σ) : Outcome (Driver σ) := do
  let last ← whileLoop (fun _ => true) (driverBody add) (d.inputFile.length + 1) d
  return last.state

/-- `main`, with the file `argv[1]`, which is `none` when it cannot be opened; `schedule` runs for
at most `fuel` iterations. -/
def main (add : σ → NewTask → Outcome σ) (schedule : ℕ → σ → Outcome σ) (start : σ) (fuel : ℕ) :
    Option (List Char) → Outcome σ
  | none => .error .nullDereference
  | some inputFile => do
      let d ← readTasks add ⟨inputFile, .empty, start⟩
      schedule fuel d.state

/-! ## The tasks of a file -/

/-- The task that a line stands for: a name and two numbers that fit, between two commas. -/
def taskOf (line : List Char) : Option NewTask :=
  match (cString line).splitOn ',' with
  | [name, second, third] =>
      match atoi second, atoi third with
      | .ok priority, .ok burst => some ⟨String.ofList name, priority, burst⟩
      | _, _ => none
  | _ => none

/-- The tasks of a file, if each of its lines stands for one. -/
def tasksIn (inputFile : List Char) : Option (List NewTask) :=
  (fgetsAll size inputFile).mapM taskOf

/-- `[name], [priority], [CPU burst]` -/
def lineOf (new : NewTask) : List Char :=
  new.name.toList ++ ", ".toList ++ signedDecimal new.priority ++ ", ".toList ++
    signedDecimal new.burst

def fileOf (adds : List NewTask) : List Char := adds.flatMap fun new => lineOf new ++ ['\n']

section Splitting

variable {strings : Heap (List Char)} {address : ℕ} {front token behind : List Char}

theorem cString_plain {text : List Char} (behind : List Char) (plain : '\x00' ∉ text)
    (ends : behind = [] ∨ behind.head? = some '\x00') : cString (text ++ behind) = text := by
  have all : ∀ c ∈ text, decide (c ≠ '\x00') = true := by
    intro c member
    exact decide_eq_true fun same => plain (same ▸ member)
  rw [cString, List.takeWhile_append_of_pos all]
  rcases ends with rfl | nul
  · simp
  · cases behind with
    | nil => simp
    | cons c behind =>
        cases nul
        simp

theorem stringAt_of_cell (front token behind : List Char)
    (cell : strings.cell address = some (front ++ token ++ behind))
    (plain : '\x00' ∉ token) (ends : behind = [] ∨ behind.head? = some '\x00') :
    stringAt strings (some (address, front.length)) = .ok token := by
  have inside : ¬(front ++ token ++ behind).length < front.length := by simp
  rw [stringAt, Heap.load_some cell, ok_bind, if_neg inside, List.append_assoc, List.drop_left,
    cString_plain behind plain ends]
  rfl

theorem token_last (free : ',' ∉ token) : token.takeWhile (· ≠ ',') = token :=
  List.takeWhile_eq_self_iff.mpr fun _ member => decide_eq_true fun same => free (same ▸ member)

theorem token_comma (free : ',' ∉ token) :
    (token ++ ',' :: behind).takeWhile (· ≠ ',') = token := by
  have all : ∀ c ∈ token, decide (c ≠ ',') = true := fun c member =>
    decide_eq_true fun same => free (same ▸ member)
  rw [List.takeWhile_append_of_pos all]
  simp

/-- A comma is overwritten, and the pointer moves behind it. -/
theorem strsep_comma (cell : strings.cell address = some (front ++ (token ++ ',' :: behind)))
    (free : ',' ∉ token) (plain : '\x00' ∉ token ++ ',' :: behind) :
    strsep strings (some (address, front.length)) =
      .ok (some (address, front.length), some (address, (front ++ token ++ ['\x00']).length),
        strings.write address (front ++ token ++ ['\x00'] ++ behind)) := by
  have string : stringAt strings (some (address, front.length)) = .ok (token ++ ',' :: behind) :=
    stringAt_of_cell front _ [] (by rw [List.append_nil, cell]) plain (Or.inl rfl)
  have more : ¬token.length = (token ++ ',' :: behind).length := by
    rw [List.length_append, List.length_cons]
    omega
  rw [strsep, string, ok_bind]
  simp only [token_comma free, if_neg more, Heap.assign_some cell, ok_bind, pure_eq_ok]
  have overwritten : (front ++ (token ++ ',' :: behind)).set (front.length + token.length) '\x00' =
      front ++ token ++ ['\x00'] ++ behind := by
    simp
  rw [overwritten]
  simp [Nat.add_assoc]

/-- Without a comma the rest of the string is the token. -/
theorem strsep_last (cell : strings.cell address = some (front ++ token)) (free : ',' ∉ token)
    (plain : '\x00' ∉ token) :
    strsep strings (some (address, front.length)) =
      .ok (some (address, front.length), none, strings) := by
  have string : stringAt strings (some (address, front.length)) = .ok token :=
    stringAt_of_cell front _ [] (by rw [List.append_nil, cell]) plain (Or.inl rfl)
  rw [strsep, string, ok_bind]
  simp only [token_last free, if_true, pure_eq_ok]

theorem freeString_inside (c : Char) :
    freeString strings (some (address, (front ++ [c]).length)) = .error .useAfterFree := by
  rw [List.length_append]
  rfl

/-- A string without a comma, or the token before the first one. -/
theorem comma_cases (string : List Char) :
    ',' ∉ string ∨ ∃ token behind, string = token ++ ',' :: behind ∧ ',' ∉ token := by
  by_cases comma : ',' ∈ string
  · obtain ⟨token, behind, split, free⟩ := List.eq_append_cons_of_mem comma
    exact Or.inr ⟨token, behind, split, free⟩
  · exact Or.inl comma

end Splitting

/-! ## One line -/

section Line

variable {add : σ → NewTask → Outcome σ} {d : Driver σ} {line rest : List Char} {new : NewTask}
variable {name second third : List Char}

theorem plain_cString (text : List Char) : '\x00' ∉ cString text := by
  intro member
  have kept := List.mem_takeWhile_imp member
  simp at kept

theorem taskOf_fields (split : cString line = name ++ ',' :: (second ++ ',' :: third))
    (nameFree : ',' ∉ name) (secondFree : ',' ∉ second) (thirdFree : ',' ∉ third) :
    taskOf line =
      match atoi second, atoi third with
      | .ok priority, .ok burst => some ⟨String.ofList name, priority, burst⟩
      | _, _ => none := by
  rw [taskOf, split, List.splitOn_append_cons_self_of_not_mem nameFree,
    List.splitOn_append_cons_self_of_not_mem secondFree, List.splitOn_eq_singleton thirdFree]

theorem first_token (split : cString line = name ++ ',' :: third) (nameFree : ',' ∉ name) :
    strsep (strdup d.strings line).2 (strdup d.strings line).1 =
      .ok (some (d.strings.fresh, 0), some (d.strings.fresh, (name ++ ['\x00']).length),
        (d.strings.malloc (name ++ ['\x00'] ++ third)).2) := by
  have plain := plain_cString line
  have cell : (d.strings.malloc (cString line)).2.cell d.strings.fresh =
      some ([] ++ (name ++ ',' :: third)) := by
    rw [Heap.malloc_cell, if_pos rfl, split]
    rfl
  have token := strsep_comma cell nameFree (split ▸ plain)
  rw [List.nil_append, Heap.write_malloc] at token
  exact token

theorem second_token (plain : '\x00' ∉ second ++ ',' :: third) (secondFree : ',' ∉ second) :
    strsep (d.strings.malloc (name ++ ['\x00'] ++ (second ++ ',' :: third))).2
        (some (d.strings.fresh, (name ++ ['\x00']).length)) =
      .ok (some (d.strings.fresh, (name ++ ['\x00']).length),
        some (d.strings.fresh, (name ++ ['\x00'] ++ second ++ ['\x00']).length),
        (d.strings.malloc (name ++ ['\x00'] ++ second ++ ['\x00'] ++ third)).2) := by
  have cell : (d.strings.malloc (name ++ ['\x00'] ++ (second ++ ',' :: third))).2.cell
      d.strings.fresh = some (name ++ ['\x00'] ++ (second ++ ',' :: third)) := by
    rw [Heap.malloc_cell, if_pos rfl]
  rw [strsep_comma cell secondFree plain, Heap.write_malloc]

/-- A line with three fields is one call of `add`. -/
theorem driverBody_fields (read : fgets size d.inputFile = (some line, rest))
    (split : cString line = name ++ ',' :: (second ++ ',' :: third)) (nameFree : ',' ∉ name)
    (secondFree : ',' ∉ second) (thirdFree : ',' ∉ third) :
    driverBody add d = do
      let priority ← atoi second
      let burst ← atoi third
      let state ← add d.state ⟨String.ofList name, priority, burst⟩
      return .next ⟨rest, (d.strings.malloc
        (name ++ ['\x00'] ++ second ++ ['\x00'] ++ third)).2, state⟩ := by
  have plain := plain_cString line
  rw [split] at plain
  have plainRest : '\x00' ∉ second ++ ',' :: third := fun member => plain (by simp [member])
  have plainName : '\x00' ∉ name := fun member => plain (by simp [member])
  have plainSecond : '\x00' ∉ second := fun member => plain (by simp [member])
  have plainThird : '\x00' ∉ third := fun member => plain (by simp [member])
  have cell : (d.strings.malloc (name ++ ['\x00'] ++ second ++ ['\x00'] ++ third)).2.cell
      d.strings.fresh = some (name ++ ['\x00'] ++ second ++ ['\x00'] ++ third) := by
    rw [Heap.malloc_cell, if_pos rfl]
  have nameString : stringAt (d.strings.malloc
      (name ++ ['\x00'] ++ second ++ ['\x00'] ++ third)).2 (some (d.strings.fresh, 0)) =
        .ok name :=
    stringAt_of_cell [] name (['\x00'] ++ second ++ ['\x00'] ++ third) (by rw [cell]; simp)
      plainName (Or.inr rfl)
  have secondString : stringAt
      (d.strings.malloc (name ++ ['\x00'] ++ second ++ ['\x00'] ++ third)).2
      (some (d.strings.fresh, (name ++ ['\x00']).length)) = .ok second :=
    stringAt_of_cell _ second (['\x00'] ++ third) (by rw [cell]; simp) plainSecond (Or.inr rfl)
  have thirdString : stringAt (d.strings.malloc (name ++ ['\x00'] ++ second ++ ['\x00'] ++ third)).2
      (some (d.strings.fresh, (name ++ ['\x00'] ++ second ++ ['\x00']).length)) = .ok third :=
    stringAt_of_cell _ third [] (by rw [cell]; simp) plainThird (Or.inl rfl)
  rw [driverBody, read]
  simp only [first_token split nameFree, second_token plainRest secondFree, secondString, ok_bind,
    strsep_last cell thirdFree plainThird, thirdString, nameString, freeString, pure_eq_ok]

/-- Without a comma, the second call of `strsep` yields `NULL`. -/
theorem driverBody_no_comma (read : fgets size d.inputFile = (some line, rest))
    (free : ',' ∉ cString line) : driverBody add d = .error .nullDereference := by
  have cell : (d.strings.malloc (cString line)).2.cell d.strings.fresh =
      some ([] ++ cString line) := by
    rw [Heap.malloc_cell, if_pos rfl]
    rfl
  have token : strsep (strdup d.strings line).2 (strdup d.strings line).1 =
      .ok (some (d.strings.fresh, 0), none, (d.strings.malloc (cString line)).2) :=
    strsep_last cell free (plain_cString line)
  rw [driverBody, read]
  simp only [token, ok_bind]
  rfl

/-- With one comma, the third call does. -/
theorem driverBody_one_comma (read : fgets size d.inputFile = (some line, rest))
    (split : cString line = name ++ ',' :: second) (nameFree : ',' ∉ name)
    (secondFree : ',' ∉ second) : ∃ fault, driverBody add d = .error fault := by
  have plain := plain_cString line
  rw [split] at plain
  have plainSecond : '\x00' ∉ second := fun member => plain (by simp [member])
  have cell : (d.strings.malloc (name ++ ['\x00'] ++ second)).2.cell d.strings.fresh =
      some (name ++ ['\x00'] ++ second) := by
    rw [Heap.malloc_cell, if_pos rfl]
  have secondString : stringAt (d.strings.malloc (name ++ ['\x00'] ++ second)).2
      (some (d.strings.fresh, (name ++ ['\x00']).length)) = .ok second :=
    stringAt_of_cell _ second [] (by rw [cell]; simp) plainSecond (Or.inl rfl)
  rw [driverBody, read]
  simp only [first_token split nameFree, strsep_last cell secondFree plainSecond, secondString,
    ok_bind]
  cases atoi second with
  | error fault => exact ⟨fault, rfl⟩
  | ok priority => exact ⟨.nullDereference, rfl⟩

/-- With a third comma, `free` is given a pointer into the block. -/
theorem driverBody_more_commas {more : List Char}
    (read : fgets size d.inputFile = (some line, rest))
    (split : cString line = name ++ ',' :: (second ++ ',' :: (third ++ ',' :: more)))
    (nameFree : ',' ∉ name) (secondFree : ',' ∉ second) (thirdFree : ',' ∉ third) :
    ∃ fault, driverBody add d = .error fault := by
  have plain := plain_cString line
  rw [split] at plain
  have plainRest : '\x00' ∉ second ++ ',' :: (third ++ ',' :: more) :=
    fun member => plain (by simp only [List.mem_append, List.mem_cons] at member ⊢; tauto)
  have plainMore : '\x00' ∉ third ++ ',' :: more :=
    fun member => plainRest (List.mem_append_right _ (List.mem_cons_of_mem _ member))
  have plainSecond : '\x00' ∉ second := fun member => plainRest (List.mem_append_left _ member)
  have cell : (d.strings.malloc (name ++ ['\x00'] ++ second ++ ['\x00'] ++
      (third ++ ',' :: more))).2.cell d.strings.fresh =
        some (name ++ ['\x00'] ++ second ++ ['\x00'] ++ (third ++ ',' :: more)) := by
    rw [Heap.malloc_cell, if_pos rfl]
  have secondString : stringAt (d.strings.malloc (name ++ ['\x00'] ++ second ++ ['\x00'] ++
      (third ++ ',' :: more))).2 (some (d.strings.fresh, (name ++ ['\x00']).length)) =
        .ok second :=
    stringAt_of_cell _ second (['\x00'] ++ (third ++ ',' :: more)) (by rw [cell]; simp)
      plainSecond (Or.inr rfl)
  have thirdToken := strsep_comma cell thirdFree plainMore
  rw [driverBody, read]
  simp only [first_token split nameFree, second_token plainRest secondFree, secondString, ok_bind,
    thirdToken]
  cases atoi second with
  | error fault => exact ⟨fault, rfl⟩
  | ok priority =>
      simp only [ok_bind]
      generalize stringAt _ _ = thirdString
      generalize stringAt _ _ = nameString
      cases thirdString with
      | error fault => exact ⟨fault, rfl⟩
      | ok third =>
          simp only [ok_bind]
          cases atoi third with
          | error fault => exact ⟨fault, rfl⟩
          | ok burst =>
              cases nameString with
              | error fault => exact ⟨fault, rfl⟩
              | ok name =>
                  simp only [ok_bind]
                  cases add d.state ⟨String.ofList name, priority, burst⟩ with
                  | error fault => exact ⟨fault, rfl⟩
                  | ok state =>
                      refine ⟨.useAfterFree, ?_⟩
                      rw [ok_bind, freeString_inside]
                      rfl

/-- An iteration adds the task of its line, or the line stands for none and it fails. -/
theorem driverBody_cases (add : σ → NewTask → Outcome σ)
    (read : fgets size d.inputFile = (some line, rest)) :
    (∃ new block, taskOf line = some new ∧ driverBody add d =
        (add d.state new).map fun state => .next ⟨rest, (d.strings.malloc block).2, state⟩) ∨
      (taskOf line = none ∧ ∃ fault, driverBody add d = .error fault) := by
  rcases comma_cases (cString line) with free | ⟨name, behind, split, nameFree⟩
  · refine Or.inr ⟨?_, _, driverBody_no_comma read free⟩
    rw [taskOf, List.splitOn_eq_singleton free]
  rcases comma_cases behind with secondFree | ⟨second, behind, rfl, secondFree⟩
  · refine Or.inr ⟨?_, driverBody_one_comma read split nameFree secondFree⟩
    rw [taskOf, split, List.splitOn_append_cons_self_of_not_mem nameFree,
      List.splitOn_eq_singleton secondFree]
  rcases comma_cases behind with thirdFree | ⟨third, more, rfl, thirdFree⟩
  · rw [taskOf_fields split nameFree secondFree thirdFree,
      driverBody_fields read split nameFree secondFree thirdFree]
    cases atoi second with
    | error fault => exact Or.inr ⟨rfl, fault, rfl⟩
    | ok priority =>
        rw [ok_bind]
        cases atoi behind with
        | error fault => exact Or.inr ⟨rfl, fault, rfl⟩
        | ok burst =>
            refine Or.inl ⟨⟨String.ofList name, priority, burst⟩,
              name ++ ['\x00'] ++ second ++ ['\x00'] ++ behind, rfl, ?_⟩
            rw [ok_bind]
            cases add d.state ⟨String.ofList name, priority, burst⟩ with
            | error fault => rfl
            | ok state => rfl
  · refine Or.inr ⟨?_, driverBody_more_commas read split nameFree secondFree thirdFree⟩
    rw [taskOf, split, List.splitOn_append_cons_self_of_not_mem nameFree,
      List.splitOn_append_cons_self_of_not_mem secondFree,
      List.splitOn_append_cons_self_of_not_mem thirdFree]
    cases fields : more.splitOn ',' with
    | nil => exact absurd fields (List.splitOn_ne_nil _ _)
    | cons first others => rfl

end Line

/-! ## The whole file -/

section File

variable {add : σ → NewTask → Outcome σ} {d after : Driver σ} {tasks : List NewTask}
variable {inputFile : List Char}

/-- Every block that was ever allocated still is. -/
def Leaked (strings : Heap (List Char)) : Prop :=
  ∀ address, address < strings.fresh → (strings.cell address).isSome = true

theorem Leaked.malloc {strings : Heap (List Char)} (leaked : Leaked strings) (block : List Char) :
    Leaked (strings.malloc block).2 := by
  intro address below
  rw [Heap.malloc_cell]
  by_cases new : address = strings.fresh
  · rw [if_pos new]
    rfl
  · rw [if_neg new]
    have belowToo : address < strings.fresh + 1 := below
    exact leaked address (by omega)

theorem tasksIn_line {line rest : List Char} (read : fgets size inputFile = (some line, rest)) :
    tasksIn inputFile = (taskOf line).bind fun new => (tasksIn rest).map (new :: ·) := by
  rw [tasksIn, fgetsAll_of_read (by decide) read, List.mapM_cons]
  cases taskOf line with
  | none => rfl
  | some new =>
      rw [tasksIn]
      cases (fgetsAll size rest).mapM taskOf with
      | none => rfl
      | some tasks => rfl

/-- What an iteration leads to, the rest of the loop starts from. -/
theorem whileLoop_line {fuel : ℕ} {rest block : List Char} {new : NewTask}
    (body : driverBody add d =
      (add d.state new).map fun state => .next ⟨rest, (d.strings.malloc block).2, state⟩) :
    whileLoop (fun _ => true) (driverBody add) (fuel + 1) d =
      add d.state new >>= fun state => whileLoop (fun _ => true) (driverBody add) fuel
        ⟨rest, (d.strings.malloc block).2, state⟩ := by
  rw [whileLoop, if_pos rfl, body]
  cases add d.state new with
  | error fault => rfl
  | ok state => rfl

/-- The loop adds the tasks of the file, in the order of its lines, and gives no line back; or a
line stands for no task, and the program does not survive it. -/
theorem whileLoop_reads {fuel : ℕ} (enough : d.inputFile.length < fuel) :
    (∃ tasks, tasksIn d.inputFile = some tasks ∧
        (whileLoop (fun _ => true) (driverBody add) fuel d).map (·.state.state) =
          tasks.foldlM add d.state ∧
        ∀ last, whileLoop (fun _ => true) (driverBody add) fuel d = .ok last →
          last.state.strings.fresh = d.strings.fresh + tasks.length ∧
            (Leaked d.strings → Leaked last.state.strings)) ∨
      (tasksIn d.inputFile = none ∧
        ∃ fault, whileLoop (fun _ => true) (driverBody add) fuel d = .error fault) := by
  induction fuel generalizing d with
  | zero => exact absurd enough (Nat.not_lt_zero _)
  | succ fuel inductionHypothesis =>
      rcases fgets_cases size d.inputFile with ended | ⟨line, rest, read⟩
      · have leaves : whileLoop (fun _ => true) (driverBody add) (fuel + 1) d =
            .ok (.exit { d with inputFile := [] }) := by
          apply whileLoop_of_exit rfl
          rw [driverBody, ended]
          rfl
        refine Or.inl ⟨[], ?_, ?_, ?_⟩
        · rw [tasksIn, ended, fgetsAll_nil]
          rfl
        · rw [leaves]
          rfl
        · rw [leaves]
          rintro last same
          cases same
          exact ⟨rfl, id⟩
      · have shorter := fgets_shorter (by decide) read
        rw [tasksIn_line read]
        rcases driverBody_cases add read with ⟨new, block, task, body⟩ | ⟨noTask, fault, body⟩
        · rw [task, Option.bind_some, whileLoop_line body]
          cases added : add d.state new with
          | error fault =>
              cases tasksIn rest with
              | none => exact Or.inr ⟨rfl, fault, rfl⟩
              | some tasks =>
                  refine Or.inl ⟨new :: tasks, rfl, ?_, fun last same => ?_⟩
                  · rw [List.foldlM_cons, added]
                    rfl
                  · cases same
          | ok state =>
              rw [ok_bind]
              rcases inductionHypothesis
                (d := ⟨rest, (d.strings.malloc block).2, state⟩) (by simp only; omega) with
                ⟨tasks, isTasks, run, leaked⟩ | ⟨noTasks, fails⟩
              · refine Or.inl ⟨new :: tasks, by rw [isTasks]; rfl, ?_, fun last same => ?_⟩
                · rw [run, List.foldlM_cons, added, ok_bind]
                · obtain ⟨count, keeps⟩ := leaked last same
                  have fresh : (d.strings.malloc block).2.fresh = d.strings.fresh + 1 := rfl
                  refine ⟨?_, fun leaked => keeps (leaked.malloc block)⟩
                  rw [count, fresh, List.length_cons]
                  omega
              · exact Or.inr ⟨by rw [noTasks]; rfl, fails⟩
        · refine Or.inr ⟨by rw [noTask]; rfl, fault, ?_⟩
          rw [whileLoop, if_pos rfl, body]
          rfl

end File

/-- The driver reads a task file exactly when each of its lines has two commas with numbers that
fit behind them, and the program can add the tasks. It adds them in the order of the lines, and
at the end every line that it has read is still allocated. -/
theorem readTasks_iff (add : σ → NewTask → Outcome σ) (inputFile : List Char) (start after : σ) :
    ((∃ d, readTasks add ⟨inputFile, .empty, start⟩ = .ok d ∧ d.state = after) ↔
        ∃ tasks, tasksIn inputFile = some tasks ∧ tasks.foldlM add start = .ok after) ∧
      ∀ d tasks, readTasks add ⟨inputFile, .empty, start⟩ = .ok d →
        tasksIn inputFile = some tasks → d.strings.fresh = tasks.length ∧ Leaked d.strings := by
  have nothingYet : Leaked (Heap.empty : Heap (List Char)) := fun _ below =>
    absurd below (Nat.not_lt_zero _)
  have readEq : readTasks add ⟨inputFile, .empty, start⟩ =
      (whileLoop (fun _ => true) (driverBody add) (inputFile.length + 1)
        ⟨inputFile, .empty, start⟩).map (·.state) := by
    rw [readTasks]
    cases whileLoop (fun _ => true) (driverBody add) (inputFile.length + 1)
        (⟨inputFile, .empty, start⟩ : Driver σ) with
    | error fault => rfl
    | ok last => rfl
  rw [readEq]
  have enough : (⟨inputFile, .empty, start⟩ : Driver σ).inputFile.length < inputFile.length + 1 :=
    Nat.lt_succ_self _
  have reads := @whileLoop_reads σ add ⟨inputFile, .empty, start⟩ _ enough
  rcases reads with
    ⟨tasks, isTasks, run, leaked⟩ | ⟨noTasks, fault, fails⟩
  · simp only at isTasks run leaked
    rw [isTasks]
    cases loop : whileLoop (fun _ => true) (driverBody add) (inputFile.length + 1)
        (⟨inputFile, .empty, start⟩ : Driver σ) with
    | error fault =>
        rw [loop] at run
        refine ⟨iff_of_false ?_ ?_, fun d others same => ?_⟩
        · rintro ⟨d, same, _⟩
          cases same
        · rintro ⟨others, same, added⟩
          cases same
          rw [← run] at added
          cases added
        · cases same
    | ok last =>
        rw [loop] at run
        obtain ⟨count, keeps⟩ := leaked last loop
        refine ⟨⟨?_, ?_⟩, ?_⟩
        · rintro ⟨d, same, rfl⟩
          cases same
          exact ⟨tasks, rfl, run.symm⟩
        · rintro ⟨others, same, added⟩
          cases same
          rw [← run] at added
          cases added
          exact ⟨_, rfl, rfl⟩
        · rintro d others same isOthers
          cases same
          cases isOthers
          rw [count]
          exact ⟨Nat.zero_add _, keeps nothingYet⟩
  · rw [fails]
    simp only at noTasks
    refine ⟨iff_of_false ?_ ?_, fun d others same => ?_⟩
    · rintro ⟨d, same, _⟩
      cases same
    · rintro ⟨others, same, _⟩
      rw [noTasks] at same
      cases same
    · cases same

end OsProjects.Scheduling
