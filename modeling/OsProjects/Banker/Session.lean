import OsProjects.Banker.CommandLoop

/-!
Owns whole runs of the banker, from the texts it is given to the replies it prints: a script is
performed exactly as written, and no text whatever makes it show an unsafe state.

Does not own the reading of single commands (`CommandLoop`) or the invariant of the calls (`Run`).
-/

namespace OsProjects.Banker

open OsProjects.C

variable {customers resources : ℕ}

/-! ## Initialisation from texts -/

/-- The numerals of the resources file, row by row. -/
def entryWords (claims : Fin customers → Fin resources → Int) : List (List Char) :=
  (List.ofFn fun c => List.ofFn fun r => signedDecimal (claims c r)).flatten

/-- The claims entered up to resource `r` of customer `c`. -/
def State.entered (s : State customers resources) (claims : Fin customers → Fin resources → Int)
    (c r : ℕ) : State customers resources :=
  { s with
    maximum := fun d q => if d.val < c ∨ d.val = c ∧ q.val < r then claims d q else s.maximum d q
    need := fun d q => if d.val < c ∨ d.val = c ∧ q.val < r then claims d q else s.need d q }

section Initialisation

variable {s initial : State customers resources} {stock : Fin resources → Int}
variable {claims : Fin customers → Fin resources → Int} {arguments : List (List Char)}
variable {words more : List (List Char)} {text : List Char} {c r : ℕ}

theorem entered_succ (table : Fin customers → Fin resources → Int) (row : c < customers)
    (below : r < resources) :
    Function.update
        (fun d q => if d.val < c ∨ d.val = c ∧ q.val < r then claims d q else table d q)
        ⟨c, row⟩
        (Function.update
          (fun q => if q.val < r then claims ⟨c, row⟩ q else table ⟨c, row⟩ q)
          ⟨r, below⟩ (claims ⟨c, row⟩ ⟨r, below⟩)) =
      fun d q => if d.val < c ∨ d.val = c ∧ q.val < r + 1 then claims d q else table d q := by
  funext d q
  by_cases sameRow : d = ⟨c, row⟩
  · subst sameRow
    by_cases same : q = ⟨r, below⟩
    · subst same
      simp
    · have other : q.val ≠ r := fun equal => same (Fin.ext equal)
      have sameTest : q.val < r + 1 ↔ q.val < r := by omega
      simp [same, sameTest]
  · have other : d.val ≠ c := fun equal => sameRow (Fin.ext equal)
    simp [sameRow, other]

/-- One numeral of the file is entered in both tables. -/
theorem entryBody_spells (row : c < customers) (below : r < resources)
    (fits : IsInt (claims ⟨c, row⟩ ⟨r, below⟩))
    (spells : Spells (signedDecimal (claims ⟨c, row⟩ ⟨r, below⟩) :: words) text) :
    ∃ rest, entryBody c r (text, s.entered claims c r) =
      .ok (rest, s.entered claims c (r + 1)) ∧ Spells words rest := by
  obtain ⟨rest, scanned, behind⟩ := spells.scanInt_cons fits
  refine ⟨rest, ?_, behind⟩
  simp only [entryBody, scanned, ok_bind, pure_eq_ok, State.entered, read_natCast _ row,
    write_natCast _ row, read_natCast _ below, write_natCast _ below, Option.getD_some,
    lt_irrefl, false_or, true_and, entered_succ]

theorem rowLoop_spells (row : c < customers) (claimsInt : ∀ c r, IsInt (claims c r))
    (spells : Spells ((List.ofFn fun r => signedDecimal (claims ⟨c, row⟩ r)) ++ words) text) :
    ∃ rest, forEach (entryBody c) resources 0 (text, s.entered claims c 0) =
      .ok (rest, s.entered claims c resources) ∧ Spells words rest := by
  have numeralsEnd : (List.ofFn fun r => signedDecimal (claims ⟨c, row⟩ r)).drop resources = [] :=
    List.drop_eq_nil_of_le (by simp)
  obtain ⟨⟨rest, after⟩, loop, left, entered⟩ :
      ∃ after, forEach (entryBody c) resources 0 (text, s.entered claims c 0) = .ok after ∧ _ := by
    apply forEach_holds fun i reading =>
      Spells ((List.ofFn fun r => signedDecimal (claims ⟨c, row⟩ r)).drop i ++ words) reading.1 ∧
        reading.2 = s.entered claims c i
    · rintro i ⟨text, entered⟩ below ⟨left, same⟩
      rw [List.drop_eq_getElem_cons (by simpa using below), List.getElem_ofFn] at left
      obtain ⟨rest, entry, behind⟩ := entryBody_spells (s := s) row below (claimsInt _ _) left
      cases same
      exact ⟨_, entry, behind, rfl⟩
    · exact ⟨spells, rfl⟩
  rw [numeralsEnd, List.nil_append] at left
  cases entered
  exact ⟨rest, loop, left⟩

/-- The file is entered row by row, and what stands behind the numerals is not read. -/
theorem fileLoop_spells (claimsInt : ∀ c r, IsInt (claims c r))
    (spells : Spells (entryWords claims ++ more) text) :
    ∃ rest, forEach (fun c => forEach (entryBody c) resources 0) customers 0 (text, s) =
      .ok (rest, { s with maximum := claims, need := claims }) := by
  have start : s.entered claims 0 0 = s := by simp [State.entered]
  have full : s.entered claims customers 0 = { s with maximum := claims, need := claims } := by
    simp [State.entered]
  have nextRow : ∀ i, s.entered claims i resources = s.entered claims (i + 1) 0 := by
    intro i
    have sameTest : ∀ (d : Fin customers) (q : Fin resources),
        (d.val < i ∨ d.val = i ∧ q.val < resources) ↔
          (d.val < i + 1 ∨ d.val = i + 1 ∧ q.val < 0) := by
      intro d q
      have below := q.isLt
      omega
    simp only [State.entered, sameTest]
  obtain ⟨⟨rest, after⟩, loop, _, entered⟩ : ∃ after,
      forEach (fun c => forEach (entryBody c) resources 0) customers 0 (text, s) = .ok after ∧
        _ := by
    apply forEach_holds fun i reading =>
      Spells (((List.ofFn fun c => List.ofFn fun r => signedDecimal (claims c r)).drop i).flatten ++
        more) reading.1 ∧ reading.2 = s.entered claims i 0
    · rintro i ⟨text, entered⟩ row ⟨left, same⟩
      rw [List.drop_eq_getElem_cons (by simpa using row), List.getElem_ofFn, List.flatten_cons,
        List.append_assoc] at left
      obtain ⟨rest, loop, behind⟩ := rowLoop_spells (s := s) row claimsInt left
      cases same
      exact ⟨_, loop, behind, nextRow i⟩
    · exact ⟨spells, start.symm⟩
  rw [full] at entered
  cases entered
  exact ⟨rest, loop⟩

theorem argumentLoop_spells (stockInt : ∀ r, IsInt (stock r))
    (argumentsSpell : ∀ r : Fin resources, Spells [signedDecimal (stock r)] (arguments.getD r [])) :
    forEach (argumentBody arguments) resources 0 s.available = .ok stock := by
  obtain ⟨available, loop, all⟩ : ∃ after,
      forEach (argumentBody arguments) resources 0 s.available = .ok after ∧ _ := by
    apply forEach_holds fun i available => available = fun r : Fin resources =>
      if r.val < i then stock r else s.available r
    · intro i available below same
      refine ⟨_, ?_, rfl⟩
      rw [same, argumentBody, (argumentsSpell ⟨i, below⟩).atoi (stockInt _), ok_bind,
        write_natCast _ below, update_prefix below (fun _ _ => rfl) rfl]
    · simp
  rw [loop, all]
  simp

/-- From texts that spell the numbers, `init` starts with the numbers. -/
theorem initText_spells (stockInt : ∀ r, IsInt (stock r)) (claimsInt : ∀ c r, IsInt (claims c r))
    (count : arguments.length = resources)
    (argumentsSpell : ∀ r : Fin resources, Spells [signedDecimal (stock r)] (arguments.getD r []))
    (spells : Spells (entryWords claims ++ more) text) :
    initText arguments (some text) s = .ok (init (1 + resources) stock (some claims) s) := by
  obtain ⟨rest, loop⟩ := fileLoop_spells (s := { s with available := stock }) claimsInt spells
  rw [initText, if_neg (not_not.mpr count), argumentLoop_spells stockInt argumentsSpell]
  simp only [ok_bind, loop, pure_eq_ok, init, ne_eq, not_true, if_false]

theorem update_isInt {n : ℕ} {array : Fin n → Int} {place : Fin n} {value : Int}
    (fits : ∀ i, IsInt (array i)) (valueInt : IsInt value) (i : Fin n) :
    IsInt (Function.update array place value i) := by
  by_cases same : i = place
  · rwa [same, Function.update_self]
  · rw [Function.update_of_ne same]
    exact fits i

theorem argumentLoop_isInt {before available : Fin resources → Int}
    (fits : ∀ r, IsInt (before r))
    (loop : forEach (argumentBody arguments) resources 0 before = .ok available) :
    ∀ r, IsInt (available r) := by
  refine forEach_keeps (fun available => ∀ r, IsInt (available r)) ?_ fits loop
  intro i available after fits step
  obtain ⟨value, number, stored⟩ := bind_eq_ok.mp step
  obtain ⟨place, _, rfl⟩ := write_eq_ok stored
  exact update_isInt fits (atoi_isInt number)

/-- Both tables hold the same values of `int`, and nothing is allocated. -/
def Entered (available : Fin resources → Int) (s : State customers resources) : Prop :=
  (∀ c r, IsInt (s.maximum c r)) ∧
    s = ⟨available, s.maximum, (State.zero customers resources).allocation, s.maximum⟩

theorem entryBody_keeps {available : Fin resources → Int} {rest : List Char}
    {after : State customers resources} (entered : Entered available s)
    (step : entryBody c r (text, s) = .ok (rest, after)) : Entered available after := by
  obtain ⟨fits, shape⟩ := entered
  obtain ⟨⟨entry, left⟩, scanned, step⟩ := bind_eq_ok.mp step
  obtain ⟨line, lineRead, step⟩ := bind_eq_ok.mp step
  obtain ⟨old, oldRead, step⟩ := bind_eq_ok.mp step
  obtain ⟨newLine, lineWritten, step⟩ := bind_eq_ok.mp step
  obtain ⟨maximum, maximumWritten, step⟩ := bind_eq_ok.mp step
  obtain ⟨needLine, needRead, step⟩ := bind_eq_ok.mp step
  obtain ⟨newNeedLine, needLineWritten, step⟩ := bind_eq_ok.mp step
  obtain ⟨need, needWritten, returned⟩ := bind_eq_ok.mp step
  cases returned
  -- The row of `need` is the row of `maximum`, so that both writes store the same.
  have sameTable : s.need = s.maximum := by rw [shape]
  rw [sameTable, lineRead] at needRead
  cases needRead
  rw [lineWritten] at needLineWritten
  cases needLineWritten
  rw [sameTable, maximumWritten] at needWritten
  cases needWritten
  obtain ⟨d, _, rfl⟩ := write_eq_ok maximumWritten
  obtain ⟨q, _, rfl⟩ := write_eq_ok lineWritten
  obtain ⟨e, _, rfl⟩ := read_eq_ok lineRead
  obtain ⟨p, _, rfl⟩ := read_eq_ok oldRead
  have valueInt : IsInt (entry.getD (s.maximum e p)) := by
    cases entry with
    | none => exact fits e p
    | some number => exact scanInt_isInt scanned
  refine ⟨fun c r => ?_, ?_⟩
  · show IsInt (Function.update s.maximum d _ c r)
    by_cases sameRow : c = d
    · rw [sameRow, Function.update_self]
      exact update_isInt (fits e) valueInt r
    · rw [Function.update_of_ne sameRow]
      exact fits c r
  · show State.mk s.available _ s.allocation _ = _
    rw [shape]

/-- Whatever the texts are, the numbers that `init` enters are values of `int`, and nothing is
allocated. -/
theorem initText_built
    (started : initText arguments (some text) (State.zero customers resources) = .ok (0, initial)) :
    BuiltByInit initial := by
  rw [initText] at started
  split at started
  · cases started
  · obtain ⟨available, argumentLoop, fileRead⟩ := bind_eq_ok.mp started
    obtain ⟨⟨rest, after⟩, fileLoop, returned⟩ := bind_eq_ok.mp fileRead
    cases returned
    have entered : Entered available initial := by
      refine forEach_keeps (fun reading : List Char × State customers resources =>
        Entered available reading.2) ?_ ⟨fun _ _ => isInt_zero, rfl⟩ fileLoop
      intro c reading after inv row
      exact forEach_keeps (fun reading : List Char × State customers resources =>
        Entered available reading.2) (fun inv step => entryBody_keeps inv step) inv row
    refine ⟨1 + resources, available, initial.maximum,
      argumentLoop_isInt (fun _ => isInt_zero) argumentLoop, entered.1, ?_⟩
    rw [init, if_neg (by simp)]
    exact congrArg (Prod.mk 0) entered.2.symm

end Initialisation

/-! ## Scripts -/

/-- Customer 0 takes what it needs and is refused more, the tables are shown, and a line that is
no command is answered with the usage. -/
def demoOperations : List (Operation numberOfResources) :=
  [.request 0 ![3, 1, 2, 1], .request 0 ![9, 0, 0, 0], .display, .other ['q', 'u', 'i', 't']]

def demoArguments : List (List Char) :=
  [spaced [signedDecimal 10], spaced [signedDecimal 6], spaced [signedDecimal 7],
    spaced [signedDecimal 8]]

/-- What the variables of the wrappers hold before they are assigned. -/
def demoGarbage : ℕ → Uninitialized numberOfResources := fun _ => ⟨-1, ![7, 7, 7, 7]⟩

theorem demoArguments_spell (r : Fin numberOfResources) :
    Spells [signedDecimal ((![10, 6, 7, 8] : Fin numberOfResources → Int) r)]
      (demoArguments.getD r []) := by
  match r with
  | 0 => exact .of_spaced (by decide) (by decide)
  | 1 => exact .of_spaced (by decide) (by decide)
  | 2 => exact .of_spaced (by decide) (by decide)
  | 3 => exact .of_spaced (by decide) (by decide)

theorem demoFile_spells :
    Spells (entryWords shippedMaximum ++ []) (spaced (entryWords shippedMaximum)) := by
  rw [List.append_nil]
  exact .of_spaced (by decide) (by decide)

theorem demoScript_spells : Spells (demoOperations.flatMap Operation.words)
    (spaced (demoOperations.flatMap Operation.words)) := .of_spaced (by decide) (by decide)

/-- A script is performed as it is written: whatever stands between its words, and whatever the
variables of the wrappers held before, the program answers its commands one after the other, from
the numbers that its command line and the resources file spell. -/
theorem main_performs_script {stock : Fin resources → Int}
    {claims : Fin customers → Fin resources → Int} {arguments : List (List Char)}
    {more : List (List Char)} {file script : List Char} {operations : List (Operation resources)}
    (stockInt : ∀ r, IsInt (stock r)) (claimsInt : ∀ c r, IsInt (claims c r))
    (typed : ∀ operation ∈ operations, operation.Typed)
    (count : arguments.length = resources)
    (argumentsSpell : ∀ r : Fin resources, Spells [signedDecimal (stock r)] (arguments.getD r []))
    (fileSpells : Spells (entryWords claims ++ more) file)
    (scriptSpells : Spells (operations.flatMap Operation.words) script)
    (garbage : ℕ → Uninitialized resources) :
    (main arguments (some file) garbage script).map Console.result =
      performAll operations
        (init (1 + resources) stock (some claims) (State.zero customers resources)).2 := by
  have started := initText_spells (s := State.zero customers resources) stockInt claimsInt count
    argumentsSpell fileSpells
  have accepted : (init (1 + resources) stock (some claims)
      (State.zero customers resources)).1 = 0 := by
    rw [init, if_neg (by simp)]
  rw [main, started]
  simp only [ok_bind, accepted, ne_eq, not_true, if_false]
  rw [mainLoop_performs, performText, operationsIn_spells typed scriptSpells]
  cases performAll operations
      (init (1 + resources) stock (some claims) (State.zero customers resources)).2 with
  | error fault => rfl
  | ok after => rfl

theorem main_performs_script_demo :
    (main demoArguments (some (spaced (entryWords shippedMaximum))) demoGarbage
        (spaced (demoOperations.flatMap Operation.words))).map Console.result =
      performAll demoOperations demoState := by
  have stockInt : ∀ r, IsInt ((![10, 6, 7, 8] : Fin numberOfResources → Int) r) := by decide
  have claimsInt : ∀ c r, IsInt (shippedMaximum c r) := by decide
  have typed : ∀ operation ∈ demoOperations, operation.Typed := by decide
  have count : demoArguments.length = numberOfResources := rfl
  exact main_performs_script stockInt claimsInt typed count demoArguments_spell demoFile_spells
    demoScript_spells demoGarbage

/-! ## Any text -/

/-- A release by a customer that exists, turned down at a resource other than the first. -/
def RefusedLate (s : State customers resources) : Operation resources → Prop
  | .release customer amounts =>
      ∃ c : Fin customers, customer = c ∧ ∃ k, RejectsAt s c amounts k ∧ k.val ≠ 0
  | _ => False

/-- One of the commands is a release that is turned down at a resource other than the first, in
the state that the commands before it lead to. -/
inductive RefusesLate : State customers resources → List (Operation resources) → Prop where
  | here {s : State customers resources} {operation : Operation resources}
      {operations : List (Operation resources)} (refused : RefusedLate s operation) :
      RefusesLate s (operation :: operations)
  | later {s after : State customers resources} {operation : Operation resources}
      {operations : List (Operation resources)} {reply : Reply customers resources}
      (ran : operation.perform s = .ok (reply, after)) (rest : RefusesLate after operations) :
      RefusesLate s (operation :: operations)

/-- A table that is shown is one of a state that keeps the invariant of the run. -/
def Reply.Honest (initial : State customers resources) : Reply customers resources → Prop
  | .table s => Consistent initial s
  | _ => True

section AnyText

variable {initial s : State customers resources} {operations : List (Operation resources)}

theorem replyOf_honest (code : Int) :
    (replyOf code : Reply customers resources).Honest initial := by
  rw [replyOf]
  split
  · trivial
  · trivial

/-- A command is carried out and keeps the invariant, or it is a release refused late, which
leaves the arrays through their lower end. -/
theorem Consistent.perform (consistent : Consistent initial s) (operation : Operation resources) :
    (¬RefusedLate s operation ∧ ∃ reply after, operation.perform s = .ok (reply, after) ∧
        Consistent initial after ∧ reply.Honest initial) ∨
      (RefusedLate s operation ∧ operation.perform s = .error .outOfBounds) := by
  cases operation with
  | request customer amounts =>
      obtain ⟨code, after, run⟩ := requestResources_defined consistent.toSound customer amounts
      refine Or.inl ⟨id, replyOf code, after, ?_, consistent.request run, replyOf_honest code⟩
      rw [Operation.perform, run]
      rfl
  | release customer amounts =>
      rcases customer_cases customers customer with outside | ⟨c, rfl⟩
      · have run : releaseResources customer amounts s = .ok (-1, s) := if_pos outside
        refine Or.inl ⟨?_, replyOf (-1), s, ?_, consistent, replyOf_honest _⟩
        · rintro ⟨c, rfl, _⟩
          have below := c.isLt
          omega
        · rw [Operation.perform, run]
          rfl
      · rcases releaseResources_cases consistent.toSound.availableInt
            consistent.toSound.allocationInt with
          ⟨good, run⟩ | ⟨_, _, run⟩ | ⟨k, rejects, run⟩
        · refine Or.inl ⟨?_, replyOf 0, _, ?_, consistent.released fun r => (good r).1,
            replyOf_honest _⟩
          · rintro ⟨d, same, k, rejects, _⟩
            cases Fin.ext (Int.ofNat_inj.mp same)
            exact rejects.1 (good k).1
          · rw [Operation.perform, run]
            rfl
        · exact absurd run (releaseResources_no_overflow consistent.toSound _)
        · by_cases first : k.val = 0
          · rw [if_pos first] at run
            refine Or.inl ⟨?_, replyOf (-1), s, ?_, consistent, replyOf_honest _⟩
            · rintro ⟨d, same, j, rejectsLater, later⟩
              cases Fin.ext (Int.ofNat_inj.mp same)
              have before : k < j := Fin.lt_def.mpr (by omega)
              exact rejects.1 (rejectsLater.2 k before).1
            · rw [Operation.perform, run]
              rfl
          · rw [if_neg first] at run
            refine Or.inr ⟨⟨c, rfl, k, rejects, first⟩, ?_⟩
            rw [Operation.perform, run]
            rfl
  | display => exact Or.inl ⟨id, .table s, s, rfl, consistent, consistent⟩
  | other word => exact Or.inl ⟨id, .usage, s, rfl, consistent, trivial⟩

/-- The same for commands one after the other. -/
theorem Consistent.performAll (consistent : Consistent initial s)
    (operations : List (Operation resources)) :
    (¬RefusesLate s operations ∧
        ∃ replies after, Banker.performAll operations s = .ok (replies, after) ∧
          Consistent initial after ∧ ∀ reply ∈ replies, reply.Honest initial) ∨
      (RefusesLate s operations ∧ Banker.performAll operations s = .error .outOfBounds) := by
  induction operations generalizing s with
  | nil => exact Or.inl ⟨fun refuses => (nomatch refuses), [], s, rfl, consistent, by simp⟩
  | cons operation operations inductionHypothesis =>
      rcases consistent.perform operation with
        ⟨accepted, reply, middle, ran, kept, honest⟩ | ⟨refused, ran⟩
      · have refusesLater : RefusesLate s (operation :: operations) ↔
            RefusesLate middle operations := by
          constructor
          · intro refuses
            cases refuses with
            | here refused => exact absurd refused accepted
            | later other rest =>
                rw [ran] at other
                cases other
                exact rest
          · exact RefusesLate.later ran
        rw [Banker.performAll, ran, refusesLater]
        simp only [ok_bind]
        rcases inductionHypothesis kept with
          ⟨accepted, replies, after, run, keptAfter, honestAfter⟩ | ⟨refused, run⟩
        · refine Or.inl ⟨accepted, reply :: replies, after, ?_, keptAfter, ?_⟩
          · rw [run]
            rfl
          · exact List.forall_mem_cons.mpr ⟨honest, honestAfter⟩
        · refine Or.inr ⟨refused, ?_⟩
          rw [run]
          rfl
      · refine Or.inr ⟨.here refused, ?_⟩
        rw [Banker.performAll, ran]
        rfl

/-- The commands of a text are carried out to its end, or something stops the program. -/
theorem Consistent.performText (consistent : Consistent initial s)
    (garbage : ℕ → Uninitialized resources) (turn : ℕ) (input : List Char) :
    (((operationsIn garbage turn input).2 = none ∧
          ¬RefusesLate s (operationsIn garbage turn input).1) ∧
        ∃ replies after, Banker.performText garbage turn input s = .ok (replies, after) ∧
          Consistent initial after ∧ ∀ reply ∈ replies, reply.Honest initial) ∨
      (¬((operationsIn garbage turn input).2 = none ∧
          ¬RefusesLate s (operationsIn garbage turn input).1) ∧
        ∃ fault, ReadFault fault ∧
          Banker.performText garbage turn input s = .error fault) := by
  rw [Banker.performText]
  rcases consistent.performAll (operationsIn garbage turn input).1 with
    ⟨accepted, replies, after, run, kept, honest⟩ | ⟨refused, run⟩
  · rw [run, ok_bind]
    cases trouble : (operationsIn garbage turn input).2 with
    | none => exact Or.inl ⟨⟨rfl, accepted⟩, replies, after, rfl, kept, honest⟩
    | some fault =>
        exact Or.inr ⟨fun fine => absurd fine.1 (Option.some_ne_none fault), fault,
          operationsIn_trouble trouble, rfl⟩
  · rw [run]
    exact Or.inr ⟨fun fine => fine.2 refused, .outOfBounds, Or.inl rfl, rfl⟩

end AnyText

/-- Whatever is typed, every table that the banker shows is one of a state that is safe and has
lost no resource. The program runs to the end of its input exactly when every word and numeral it
reads fits, and no release is turned down at a resource other than the first; it never hangs. -/
theorem main_keeps_bank_safe {arguments : List (List Char)} {file : List Char}
    {initial : State customers resources}
    (started : initText arguments (some file) (State.zero customers resources) = .ok (0, initial))
    (availableNonneg : ∀ r, 0 ≤ initial.available r)
    (maximumNonneg : ∀ c r, 0 ≤ initial.maximum c r) (safe : isSafe initial = .ok (1, initial))
    (garbage : ℕ → Uninitialized resources) (input : List Char) :
    (∀ last, main arguments (some file) garbage input = .ok last →
        Consistent initial last.state ∧ ∀ reply ∈ last.replies, reply.Honest initial) ∧
      ((∃ last : Console customers resources,
          main arguments (some file) garbage input = .ok last) ↔
        (operationsIn garbage 0 input).2 = none ∧
          ¬RefusesLate initial (operationsIn garbage 0 input).1) ∧
      (main arguments (some file) garbage input : Outcome (Console customers resources)) ≠
        .error .divergence := by
  have consistent : Consistent initial initial :=
    SafeStart.consistent ⟨initText_built started, availableNonneg, maximumNonneg, safe⟩
  set c : Console customers resources := ⟨input, 0, [], initial⟩
  have loop := @mainLoop_performs _ _ garbage c
  have mainEq : main arguments (some file) garbage input = mainLoop garbage c := by
    rw [main, started]
    rfl
  rw [mainEq]
  rcases consistent.performText garbage 0 input with
    ⟨fine, replies, after, run, kept, honest⟩ | ⟨wrong, fault, readFault, run⟩
  · cases ran : mainLoop garbage c with
    | error fault =>
        rw [ran, run] at loop
        cases loop
    | ok last =>
        rw [ran, run] at loop
        simp only [Except.map, Console.result, Except.ok.injEq, Prod.mk.injEq] at loop
        refine ⟨?_, iff_of_true ⟨last, rfl⟩ fine, by simp⟩
        rintro other same
        cases same
        rw [loop.1, loop.2]
        exact ⟨kept, honest⟩
  · cases ran : mainLoop garbage c with
    | error other =>
        rw [ran, run] at loop
        cases loop
        refine ⟨fun last same => ?_, iff_of_false ?_ wrong, fun hangs => ?_⟩
        · cases same
        · rintro ⟨last, same⟩
          cases same
        · cases hangs
          rcases readFault with same | same
          · cases same
          · cases same
    | ok last =>
        rw [ran, run] at loop
        cases loop

/-- Where nothing is released, nothing is turned down late. -/
theorem not_refusesLate {s : State customers resources} {operations : List (Operation resources)}
    (noRelease : ∀ operation ∈ operations, ∀ customer amounts,
      operation ≠ .release customer amounts) : ¬RefusesLate s operations := by
  intro late
  induction late with
  | @here _ operation operations refused =>
      cases operation with
      | release customer amounts => exact noRelease _ List.mem_cons_self customer amounts rfl
      | request customer amounts => exact refused
      | display => exact refused
      | other word => exact refused
  | later _ _ inductionHypothesis =>
      exact inductionHypothesis fun operation member =>
        noRelease operation (List.mem_cons_of_mem _ member)

theorem main_keeps_bank_safe_demo :
    ∃ last : Console numberOfCustomers numberOfResources,
      main demoArguments (some (spaced (entryWords shippedMaximum))) demoGarbage
          (spaced (demoOperations.flatMap Operation.words)) = .ok last ∧
        Consistent demoState last.state ∧ ∀ reply ∈ last.replies, reply.Honest demoState := by
  have started : initText demoArguments (some (spaced (entryWords shippedMaximum)))
      (State.zero numberOfCustomers numberOfResources) = .ok (0, demoState) :=
    initText_spells (by decide) (by decide) rfl demoArguments_spell demoFile_spells
  have script : operationsIn demoGarbage 0 (spaced (demoOperations.flatMap Operation.words)) =
      (demoOperations, none) := operationsIn_spells (by decide) demoScript_spells
  obtain ⟨kept, runs, _⟩ := main_keeps_bank_safe started (by decide) (by decide) rfl demoGarbage
    (spaced (demoOperations.flatMap Operation.words))
  obtain ⟨last, run⟩ := runs.mpr (by
    rw [script]
    exact ⟨rfl, not_refusesLate (by simp [demoOperations])⟩)
  exact ⟨last, run, kept last run⟩

end OsProjects.Banker
