import OsProjects.Banker.Run
import OsProjects.C.Iteration
import OsProjects.C.Words

/-!
Owns `main` of the banker over its command line, the resources file and its whole standard input:
the texts decide which calls are made, and the calls are made one after the other.

A variable that `scanf` does not assign holds whatever it held: the entries of the global arrays
zero, the local variables of a wrapper something arbitrary.

Does not own what the calls do (`Request`, `Release`), or the wording of the messages.
-/

namespace OsProjects.Banker

open OsProjects.C

variable {customers resources : ℕ}

/-! ## `init` -/

/-- `available[i] = atoi(argv[i + 1])`, with the arguments behind the name of the program. -/
def argumentBody (arguments : List (List Char)) (i : ℕ) (available : Fin resources → Int) :
    Outcome (Fin resources → Int) := do
  write available i (← atoi (arguments.getD i []))

/-- `fscanf(f, "%d", &maximum[c][r])` and `need[c][r] = maximum[c][r]`. -/
def entryBody (c r : ℕ) (reading : List Char × State customers resources) :
    Outcome (List Char × State customers resources) := do
  let (text, s) := reading
  let (entry, text) ← scanInt text
  let row ← read s.maximum c
  let value := entry.getD (← read row r)
  let maximum ← write s.maximum c (← write row r value)
  let need ← write s.need c (← write (← read s.need c) r value)
  return (text, { s with maximum := maximum, need := need })

/-- `init` over the texts of the arguments and of the file, which is `none` when it cannot be
opened. -/
def initText (arguments : List (List Char)) (resourcesFile : Option (List Char))
    (s : State customers resources) : Outcome (Int × State customers resources) := do
  if arguments.length ≠ resources then return (-1, s) else
    let available ← forEach (argumentBody arguments) resources 0 s.available
    match resourcesFile with
    | none => return (-2, { s with available := available })
    | some text =>
        let (_, s) ← forEach (fun c => forEach (entryBody c) resources 0) customers 0
          (text, { s with available := available })
        return (0, s)

/-! ## The wrappers -/

/-- What the local variables of a wrapper hold before they are assigned. -/
structure Uninitialized (resources : ℕ) where
  customer : Int
  amounts : Fin resources → Int

/-- What is printed about a command: `SUCCESS.`, `DENIED.`, the tables, or the usage. -/
inductive Reply (customers resources : ℕ) where
  | success
  | denied
  | table (s : State customers resources)
  | usage

def replyOf (code : Int) : Reply customers resources :=
  if code ≠ 0 then .denied else .success

/-- `scanf("%d", &request[i])` -/
def amountBody (i : ℕ) (reading : List Char × (Fin resources → Int)) :
    Outcome (List Char × (Fin resources → Int)) := do
  let (amount, input) ← scanInt reading.1
  let amounts ← write reading.2 i (amount.getD (← read reading.2 i))
  return (input, amounts)

/-- The calls of `scanf` in a wrapper. -/
def scanCall (garbage : Uninitialized resources) (input : List Char) :
    Outcome ((Int × (Fin resources → Int)) × List Char) := do
  let (customer, input) ← scanInt input
  let (input, amounts) ← forEach amountBody resources 0 (input, garbage.amounts)
  return ((customer.getD garbage.customer, amounts), input)

/-- `request_wrapper` -/
def requestWrapper (garbage : Uninitialized resources) (input : List Char)
    (s : State customers resources) :
    Outcome (Reply customers resources × List Char × State customers resources) := do
  let ((customer, request), input) ← scanCall garbage input
  let (code, s) ← requestResources customer request s
  return (replyOf code, input, s)

/-- `release_wrapper` -/
def releaseWrapper (garbage : Uninitialized resources) (input : List Char)
    (s : State customers resources) :
    Outcome (Reply customers resources × List Char × State customers resources) := do
  let ((customer, release), input) ← scanCall garbage input
  let (code, s) ← releaseResources customer release s
  return (replyOf code, input, s)

/-! ## `main` -/

/-- The size of `op`. -/
def opSize : ℕ := 5

/-- The standard input that is left, the number of iterations so far, what has been printed, and
the global arrays. -/
structure Console (customers resources : ℕ) where
  input : List Char
  turn : ℕ
  replies : List (Reply customers resources)
  state : State customers resources

def Console.answer (c : Console customers resources) (reply : Reply customers resources)
    (input : List Char) (s : State customers resources) : Console customers resources :=
  ⟨input, c.turn + 1, c.replies ++ [reply], s⟩

/-- One iteration of the loop of `main`, with its test. -/
def mainBody (garbage : ℕ → Uninitialized resources) (c : Console customers resources) :
    Outcome (LoopStep (Console customers resources) (Console customers resources)) := do
  match scanWord c.input with
  | (none, input) => return .exit { c with input := input }
  | (some word, input) =>
      if opSize ≤ word.length then .error .outOfBounds else
        let op := cString word
        if op = ['R', 'Q'] then
          let (reply, input, s) ← requestWrapper (garbage c.turn) input c.state
          return .next (c.answer reply input s)
        else if op = ['R', 'L'] then
          let (reply, input, s) ← releaseWrapper (garbage c.turn) input c.state
          return .next (c.answer reply input s)
        else if op = ['*'] then
          return .next (c.answer (.table c.state) input c.state)
        else
          return .next (c.answer .usage input c.state)

/-- The loop of `main`. Every iteration but the last reads a word. -/
def mainLoop (garbage : ℕ → Uninitialized resources) (c : Console customers resources) :
    Outcome (Console customers resources) := do
  let last ← whileLoop (fun _ => true) (mainBody garbage) (c.input.length + 1) c
  return last.state

/-- `main` -/
def main (arguments : List (List Char)) (resourcesFile : Option (List Char))
    (garbage : ℕ → Uninitialized resources) (input : List Char) :
    Outcome (Console customers resources) := do
  let (err, s) ← initText arguments resourcesFile (State.zero customers resources)
  if err ≠ 0 then return ⟨input, 0, [.usage], s⟩ else
    mainLoop garbage ⟨input, 0, [], s⟩

/-! ## Commands -/

inductive Operation (resources : ℕ) where
  | request (customer : Int) (amounts : Fin resources → Int)
  | release (customer : Int) (amounts : Fin resources → Int)
  | display
  | other (word : List Char)

/-- The words of a command. -/
def Operation.words : Operation resources → List (List Char)
  | .request customer amounts =>
      ['R', 'Q'] :: signedDecimal customer :: List.ofFn fun r => signedDecimal (amounts r)
  | .release customer amounts =>
      ['R', 'L'] :: signedDecimal customer :: List.ofFn fun r => signedDecimal (amounts r)
  | .display => [['*']]
  | .other word => [word]

/-- The numbers are of type `int`, and any other word fits into `op` and is no operator. -/
def Operation.Typed : Operation resources → Prop
  | .request customer amounts => IsInt customer ∧ ∀ r, IsInt (amounts r)
  | .release customer amounts => IsInt customer ∧ ∀ r, IsInt (amounts r)
  | .display => True
  | .other word => word.length < opSize ∧ cString word ∉ [['R', 'Q'], ['R', 'L'], ['*']]

instance : ∀ operation : Operation resources, Decidable operation.Typed
  | .request _ _ => inferInstanceAs (Decidable (_ ∧ _))
  | .release _ _ => inferInstanceAs (Decidable (_ ∧ _))
  | .display => inferInstanceAs (Decidable True)
  | .other _ => inferInstanceAs (Decidable (_ ∧ _))

/-- What a command does, whatever text it was read from. -/
def Operation.perform (s : State customers resources) :
    Operation resources → Outcome (Reply customers resources × State customers resources)
  | .request customer amounts => do
      let (code, s) ← requestResources customer amounts s
      return (replyOf code, s)
  | .release customer amounts => do
      let (code, s) ← releaseResources customer amounts s
      return (replyOf code, s)
  | .display => .ok (.table s, s)
  | .other _ => .ok (.usage, s)

def performAll : List (Operation resources) → State customers resources →
    Outcome (List (Reply customers resources) × State customers resources)
  | [], s => .ok ([], s)
  | operation :: operations, s => do
      let (reply, s) ← operation.perform s
      let (replies, s) ← performAll operations s
      return (reply :: replies, s)

/-- The next command, or `none` at the end of the input. -/
def readOperation (garbage : Uninitialized resources) (input : List Char) :
    Outcome (Option (Operation resources) × List Char) := do
  match scanWord input with
  | (none, input) => return (none, input)
  | (some word, input) =>
      if opSize ≤ word.length then .error .outOfBounds else
        if cString word = ['R', 'Q'] then
          let ((customer, amounts), input) ← scanCall garbage input
          return (some (.request customer amounts), input)
        else if cString word = ['R', 'L'] then
          let ((customer, amounts), input) ← scanCall garbage input
          return (some (.release customer amounts), input)
        else if cString word = ['*'] then
          return (some .display, input)
        else
          return (some (.other word), input)

/-- The commands of a text, and the fault that reading stops with when it does not reach the
end. -/
def operationsIn (garbage : ℕ → Uninitialized resources) (turn : ℕ) (input : List Char) :
    List (Operation resources) × Option Fault :=
  match readOperation (garbage turn) input with
  | .error fault => ([], some fault)
  | .ok (none, _) => ([], none)
  | .ok (some operation, rest) =>
      if rest.length < input.length then
        let (operations, trouble) := operationsIn garbage (turn + 1) rest
        (operation :: operations, trouble)
      else ([operation], none)
termination_by input.length

/-! ## Reading a command -/

section Reading

variable {garbage : Uninitialized resources} {input rest text : List Char}
variable {words : List (List Char)} {operation : Operation resources}

theorem readOperation_of_word {word : List Char} (read : scanWord input = (some word, rest))
    (fits : word.length < opSize) :
    readOperation garbage input =
      if cString word = ['R', 'Q'] then
        (scanCall garbage rest).map fun (call, rest) => (some (.request call.1 call.2), rest)
      else if cString word = ['R', 'L'] then
        (scanCall garbage rest).map fun (call, rest) => (some (.release call.1 call.2), rest)
      else if cString word = ['*'] then .ok (some .display, rest)
      else .ok (some (.other word), rest) := by
  rw [readOperation, read]
  simp only [if_neg (Nat.not_le.mpr fits), pure_eq_ok]
  split
  · cases scanCall garbage rest <;> rfl
  · split
    · cases scanCall garbage rest <;> rfl
    · rfl

/-- An iteration reads a command and does what it says. -/
theorem mainBody_eq (garbage : ℕ → Uninitialized resources) (c : Console customers resources) :
    mainBody garbage c = do
      let (operation, input) ← readOperation (garbage c.turn) c.input
      match operation with
      | none => return .exit { c with input := input }
      | some operation => do
          let (reply, s) ← operation.perform c.state
          return .next (c.answer reply input s) := by
  cases read : scanWord c.input with
  | mk found rest =>
      cases found with
      | none =>
          rw [mainBody, readOperation, read]
          rfl
      | some word =>
          by_cases fits : word.length < opSize
          · rw [readOperation_of_word read fits, mainBody, read]
            simp only [if_neg (Nat.not_le.mpr fits)]
            split
            · rw [requestWrapper]
              cases scanCall (garbage c.turn) rest with
              | error fault => rfl
              | ok scanned =>
                  obtain ⟨⟨customer, amounts⟩, behind⟩ := scanned
                  simp only [ok_bind, Except.map, Operation.perform, bind_assoc, pure_bind]
            · split
              · rw [releaseWrapper]
                cases scanCall (garbage c.turn) rest with
                | error fault => rfl
                | ok scanned =>
                    obtain ⟨⟨customer, amounts⟩, behind⟩ := scanned
                    simp only [ok_bind, Except.map, Operation.perform, bind_assoc, pure_bind]
              · split
                · rfl
                · rfl
          · rw [mainBody, readOperation, read]
            simp only [if_pos (Nat.not_lt.mp fits)]
            rfl

theorem scanCall_le {call : Int × (Fin resources → Int)}
    (read : scanCall garbage input = .ok (call, rest)) : rest.length ≤ input.length := by
  obtain ⟨⟨customer, behind⟩, first, others⟩ := bind_eq_ok.mp read
  obtain ⟨⟨left, amounts⟩, loop, returned⟩ := bind_eq_ok.mp others
  cases returned
  refine forEach_keeps (fun reading => reading.1.length ≤ input.length) ?_ (scanInt_le first) loop
  intro i reading after shorter step
  obtain ⟨⟨amount, behind⟩, scanned, stored⟩ := bind_eq_ok.mp step
  obtain ⟨_, _, stored⟩ := bind_eq_ok.mp stored
  obtain ⟨_, _, returned⟩ := bind_eq_ok.mp stored
  cases returned
  exact (scanInt_le scanned).trans shorter

/-- Every command that is read has a character. -/
theorem readOperation_shorter (read : readOperation garbage input = .ok (some operation, rest)) :
    rest.length < input.length := by
  cases word : scanWord input with
  | mk found behind =>
      cases found with
      | none =>
          rw [readOperation, word] at read
          cases read
      | some found =>
          have shorter := scanWord_shorter word
          by_cases fits : found.length < opSize
          · rw [readOperation_of_word word fits] at read
            have call : ∀ kind : Int × (Fin resources → Int) → Operation resources,
                (scanCall garbage behind).map (fun (call, rest) => (some (kind call), rest)) =
                  .ok (some operation, rest) → rest.length < input.length := by
              intro kind read
              cases scanned : scanCall garbage behind with
              | error fault =>
                  rw [scanned] at read
                  cases read
              | ok result =>
                  obtain ⟨call, left⟩ := result
                  rw [scanned] at read
                  cases read
                  exact (scanCall_le scanned).trans_lt shorter
            split at read
            · exact call (fun call => .request call.1 call.2) read
            · split at read
              · exact call (fun call => .release call.1 call.2) read
              · split at read
                · cases read
                  exact shorter
                · cases read
                  exact shorter
          · rw [readOperation, word] at read
            simp only [if_pos (Nat.not_lt.mp fits)] at read
            cases read

/-- A word or an index does not fit into its array, or a number not into an `int`. -/
def ReadFault (fault : Fault) : Prop := fault = .outOfBounds ∨ fault = .overflow

theorem scanCall_fails {fault : Fault} (fails : scanCall garbage input = .error fault) :
    ReadFault fault := by
  rcases bind_eq_error.mp fails with customer | ⟨⟨customer, behind⟩, _, fails⟩
  · exact Or.inr (scanInt_error customer)
  · rcases bind_eq_error.mp fails with loop | ⟨_, _, returned⟩
    · refine forEach_fails ReadFault ?_ loop
      intro i reading fault step
      rcases bind_eq_error.mp step with amount | ⟨_, _, step⟩
      · exact Or.inr (scanInt_error amount)
      · rcases bind_eq_error.mp step with old | ⟨_, _, step⟩
        · exact Or.inl (read_error old)
        · rcases bind_eq_error.mp step with stored | ⟨_, _, returned⟩
          · exact Or.inl (write_error stored)
          · cases returned
    · cases returned

theorem readOperation_fails {fault : Fault} (fails : readOperation garbage input = .error fault) :
    ReadFault fault := by
  cases word : scanWord input with
  | mk found behind =>
      cases found with
      | none =>
          rw [readOperation, word] at fails
          cases fails
      | some found =>
          by_cases fits : found.length < opSize
          · rw [readOperation_of_word word fits] at fails
            have call : ∀ kind : Int × (Fin resources → Int) → Operation resources,
                (scanCall garbage behind).map (fun (call, rest) => (some (kind call), rest)) =
                  .error fault → ReadFault fault := by
              intro kind fails
              cases scanned : scanCall garbage behind with
              | error first =>
                  rw [scanned] at fails
                  cases fails
                  exact scanCall_fails scanned
              | ok result =>
                  rw [scanned] at fails
                  cases fails
            split at fails
            · exact call (fun call => .request call.1 call.2) fails
            · split at fails
              · exact call (fun call => .release call.1 call.2) fails
              · split at fails <;> cases fails
          · rw [readOperation, word] at fails
            simp only [if_pos (Nat.not_lt.mp fits)] at fails
            cases fails
            exact Or.inl rfl

/-- The calls of `scanf` read the numbers of a command back. -/
theorem scanCall_spells (garbage : Uninitialized resources) {customer : Int}
    {amounts : Fin resources → Int}
    (customerInt : IsInt customer) (amountsInt : ∀ r, IsInt (amounts r))
    (spells : Spells ((signedDecimal customer ::
      List.ofFn fun r => signedDecimal (amounts r)) ++ words) text) :
    ∃ rest, scanCall garbage text = .ok ((customer, amounts), rest) ∧ Spells words rest := by
  obtain ⟨behind, first, others⟩ := spells.scanInt_cons customerInt
  have numeralsEnd : (List.ofFn fun r => signedDecimal (amounts r)).drop resources = [] :=
    List.drop_eq_nil_of_le (by simp)
  obtain ⟨⟨rest, stored⟩, loop, left, all⟩ :
      ∃ after, forEach amountBody resources 0 (behind, garbage.amounts) = .ok after ∧ _ := by
    apply forEach_holds fun i reading =>
      Spells ((List.ofFn fun r => signedDecimal (amounts r)).drop i ++ words) reading.1 ∧
        reading.2 = fun r => if r.val < i then amounts r else garbage.amounts r
    · rintro i ⟨input, stored⟩ below ⟨left, same⟩
      rw [List.drop_eq_getElem_cons (by simpa using below), List.getElem_ofFn] at left
      obtain ⟨rest, scanned, behind⟩ := left.scanInt_cons (amountsInt ⟨i, below⟩)
      refine ⟨(rest, fun r => if r.val < i + 1 then amounts r else garbage.amounts r), ?_,
        behind, rfl⟩
      cases same
      simp only [amountBody, scanned, ok_bind, pure_eq_ok, write_natCast _ below,
        read_natCast _ below, Option.getD_some, update_prefix below (fun _ _ => rfl) rfl]
    · exact ⟨others, by simp⟩
  rw [numeralsEnd, List.nil_append] at left
  refine ⟨rest, ?_, left⟩
  rw [scanCall, first]
  simp only [ok_bind, loop, pure_eq_ok, Option.getD_some]
  cases all
  simp

/-- A command is read back from its words. -/
theorem readOperation_spells (garbage : Uninitialized resources) (typed : operation.Typed)
    (spells : Spells (operation.words ++ words) text) :
    ∃ rest, readOperation garbage text = .ok (some operation, rest) ∧ Spells words rest := by
  cases operation with
  | request customer amounts =>
      obtain ⟨rest, read, behind⟩ := spells.scanWord_cons
      obtain ⟨left, call, others⟩ := scanCall_spells garbage typed.1 typed.2 behind
      refine ⟨left, ?_, others⟩
      rw [readOperation_of_word read (by decide), if_pos (by decide), call]
      rfl
  | release customer amounts =>
      obtain ⟨rest, read, behind⟩ := spells.scanWord_cons
      obtain ⟨left, call, others⟩ := scanCall_spells garbage typed.1 typed.2 behind
      refine ⟨left, ?_, others⟩
      rw [readOperation_of_word read (by decide), if_neg (by decide), if_pos (by decide), call]
      rfl
  | display =>
      obtain ⟨rest, read, behind⟩ := spells.scanWord_cons
      refine ⟨rest, ?_, behind⟩
      rw [readOperation_of_word read (by decide), if_neg (by decide), if_neg (by decide),
        if_pos (by decide)]
  | other word =>
      obtain ⟨rest, read, behind⟩ := spells.scanWord_cons
      refine ⟨rest, ?_, behind⟩
      obtain ⟨fits, noOperator⟩ := typed
      simp only [List.mem_cons, List.not_mem_nil, or_false, not_or] at noOperator
      rw [readOperation_of_word read fits, if_neg noOperator.1, if_neg noOperator.2.1,
        if_neg noOperator.2.2]

end Reading

/-! ## The loop -/

section Loop

variable {garbage : ℕ → Uninitialized resources} {turn : ℕ} {input rest : List Char}
variable {operation : Operation resources} {operations : List (Operation resources)}

theorem operationsIn_error {fault : Fault}
    (read : readOperation (garbage turn) input = .error fault) :
    operationsIn garbage turn input = ([], some fault) := by
  rw [operationsIn, read]

theorem operationsIn_none (read : readOperation (garbage turn) input = .ok (none, rest)) :
    operationsIn garbage turn input = ([], none) := by
  rw [operationsIn, read]

theorem operationsIn_some
    (read : readOperation (garbage turn) input = .ok (some operation, rest)) :
    operationsIn garbage turn input =
      (operation :: (operationsIn garbage (turn + 1) rest).1,
        (operationsIn garbage (turn + 1) rest).2) := by
  rw [operationsIn, read]
  simp only [if_pos (readOperation_shorter read)]

theorem operationsIn_trouble {fault : Fault}
    (trouble : (operationsIn garbage turn input).2 = some fault) : ReadFault fault := by
  induction lengthEq : input.length using Nat.strong_induction_on generalizing turn input with
  | _ length inductionHypothesis =>
      cases read : readOperation (garbage turn) input with
      | error first =>
          rw [operationsIn_error read] at trouble
          cases trouble
          exact readOperation_fails read
      | ok found =>
          obtain ⟨found, rest⟩ := found
          cases found with
          | none =>
              rw [operationsIn_none read] at trouble
              cases trouble
          | some operation =>
              have shorter := readOperation_shorter read
              rw [operationsIn_some read] at trouble
              exact inductionHypothesis rest.length (lengthEq ▸ shorter) trouble rfl

/-- The commands of a script are read back, however the white space is laid out. -/
theorem operationsIn_spells (typed : ∀ operation ∈ operations, operation.Typed)
    (spells : Spells (operations.flatMap Operation.words) input) :
    operationsIn garbage turn input = (operations, none) := by
  induction operations generalizing turn input with
  | nil =>
      have ended : readOperation (garbage turn) input = .ok (none, []) := by
        rw [readOperation, spells.scanWord_nil]
        rfl
      exact operationsIn_none ended
  | cons operation operations inductionHypothesis =>
      rw [List.flatMap_cons] at spells
      obtain ⟨rest, read, behind⟩ :=
        readOperation_spells (garbage turn) (typed operation (by simp)) spells
      rw [operationsIn_some read,
        inductionHypothesis (fun operation member => typed operation (by simp [member])) behind]

/-- What the commands of a text do, and then the fault that reading them stops with. -/
def performText (garbage : ℕ → Uninitialized resources) (turn : ℕ) (input : List Char)
    (s : State customers resources) :
    Outcome (List (Reply customers resources) × State customers resources) := do
  let after ← performAll (operationsIn garbage turn input).1 s
  match (operationsIn garbage turn input).2 with
  | none => return after
  | some fault => .error fault

theorem performText_some (s : State customers resources)
    (read : readOperation (garbage turn) input = .ok (some operation, rest)) :
    performText garbage turn input s = do
      let (reply, s) ← operation.perform s
      let (replies, s) ← performText garbage (turn + 1) rest s
      return (reply :: replies, s) := by
  rw [performText, operationsIn_some read, performAll]
  cases operation.perform s with
  | error fault => rfl
  | ok first =>
      obtain ⟨reply, middle⟩ := first
      simp only [ok_bind, performText]
      cases performAll (operationsIn garbage (turn + 1) rest).1 middle with
      | error fault => rfl
      | ok others =>
          obtain ⟨replies, after⟩ := others
          simp only [ok_bind, pure_eq_ok]
          cases (operationsIn garbage (turn + 1) rest).2 with
          | none => rfl
          | some fault => rfl

/-- What was printed, and the global arrays. -/
def Console.result (c : Console customers resources) :
    List (Reply customers resources) × State customers resources :=
  (c.replies, c.state)

/-- The loop does what the commands of its input say, one after the other. -/
theorem whileLoop_performs {fuel : ℕ} {c : Console customers resources}
    (enough : c.input.length < fuel) :
    (whileLoop (fun _ => true) (mainBody garbage) fuel c).map (·.state.result) =
      (performText garbage c.turn c.input c.state).map fun after =>
        (c.replies ++ after.1, after.2) := by
  induction fuel generalizing c with
  | zero => exact absurd enough (Nat.not_lt_zero _)
  | succ fuel inductionHypothesis =>
      rw [whileLoop, if_pos rfl, mainBody_eq]
      cases read : readOperation (garbage c.turn) c.input with
      | error fault =>
          rw [performText, operationsIn_error read]
          rfl
      | ok found =>
          obtain ⟨found, rest⟩ := found
          cases found with
          | none =>
              rw [performText, operationsIn_none read]
              simp [performAll, Except.map, LoopStep.state, Console.result]
          | some operation =>
              have shorter := readOperation_shorter read
              rw [performText_some _ read]
              simp only [ok_bind]
              cases operation.perform c.state with
              | error fault => rfl
              | ok first =>
                  obtain ⟨reply, middle⟩ := first
                  have later := inductionHypothesis (c := c.answer reply rest middle)
                    (show rest.length < fuel by omega)
                  simp only [ok_bind, pure_eq_ok]
                  rw [later]
                  simp only [Console.answer]
                  cases performText garbage (c.turn + 1) rest middle with
                  | error fault => rfl
                  | ok others => simp [Except.map]

theorem mainLoop_performs (c : Console customers resources) :
    (mainLoop garbage c).map Console.result =
      (performText garbage c.turn c.input c.state).map fun after =>
        (c.replies ++ after.1, after.2) := by
  rw [← whileLoop_performs (Nat.lt_succ_self c.input.length), mainLoop]
  cases whileLoop (fun _ => true) (mainBody garbage) (c.input.length + 1) c with
  | error fault => rfl
  | ok last => rfl

end Loop

end OsProjects.Banker
