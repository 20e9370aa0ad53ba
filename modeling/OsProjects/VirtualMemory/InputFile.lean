import OsProjects.C.Iteration
import OsProjects.C.Stream
import OsProjects.VirtualMemory.PhysicalAddress

/-!
Owns the loop of `main` over the lines of the input file: which addresses it has translated.

A line of seven or more characters does not fit into the buffer with its newline, so that it is
read in two pieces. A piece without a numeral leaves `logical` as it is, and it has no value
then: what it holds in an iteration is an input of the model.

Does not own the printed lines.
-/

namespace OsProjects.VirtualMemory

open OsProjects.C

/-- `sscanf(line, "%u", &logical)`: what is stored, if anything is. -/
def sscanfUnsigned (line : List Char) : Option UInt32 :=
  (scanNumeral line).1.map fun (negative, magnitude) =>
    if negative then -UInt32.ofNat magnitude else UInt32.ofNat magnitude

/-- The input file, the arguments of the calls of `translate_address` so far, and the global
variables. -/
structure Reading where
  inputFile : List Char
  calls : List UInt32
  state : State

/-- One iteration of the loop of `main`, with its test; `garbage` is what `logical` holds before
it is assigned. -/
def mainBody (storage : BackingStorage) (garbage : ℕ → UInt32) (r : Reading) :
    Outcome (LoopStep Reading Reading) := do
  match fgets 8 r.inputFile with
  | (none, inputFile) => pure (.exit { r with inputFile })
  | (some line, inputFile) =>
      let logical := (sscanfUnsigned line).getD (garbage r.calls.length)
      let (physical, state) ← translateAddress storage logical r.state
      let _ ← accessMemory physical state
      pure (.next ⟨inputFile, r.calls ++ [logical], state⟩)

/-- The loop of `main`. Every iteration but the last reads a character. -/
def mainLoop (storage : BackingStorage) (garbage : ℕ → UInt32) (inputFile : List Char) :
    Outcome Reading := do
  let last ← whileLoop (fun _ => true) (mainBody storage garbage) (inputFile.length + 1)
    ⟨inputFile, [], State.initial⟩
  pure last.state

/-- An input file with a numeral on every line. -/
def linesOf (values : List UInt32) : List Char :=
  values.flatMap fun value => decimal value.toNat ++ ['\n']

/-- Whatever `logical` holds before it is assigned, every line leads to one translation, of its
value. -/
def OneAccessPerLine (storage : BackingStorage) (values : List UInt32) : Prop :=
  ∀ garbage, ∃ last, mainLoop storage garbage (linesOf values) = .ok last ∧ last.calls = values

section InputFile

variable {storage : BackingStorage} {garbage : ℕ → UInt32} {r : Reading}

/-! ## What the loop translates -/

/-- The values that `logical` has for the pieces, from the iteration `first` on. -/
def valuesRead (garbage : ℕ → UInt32) : ℕ → List (List Char) → List UInt32
  | _, [] => []
  | first, piece :: rest =>
      (sscanfUnsigned piece).getD (garbage first) :: valuesRead garbage (first + 1) rest

theorem length_valuesRead : ∀ (first : ℕ) (pieces : List (List Char)),
    (valuesRead garbage first pieces).length = pieces.length
  | _, [] => rfl
  | first, piece :: rest => by
      rw [valuesRead, List.length_cons, length_valuesRead, List.length_cons]

theorem mainBody_end (ended : r.inputFile = []) :
    mainBody storage garbage r = .ok (.exit { r with inputFile := [] }) := by
  rw [mainBody, ended]
  rfl

theorem mainBody_piece {piece rest : List Char} (below : FramesBelow r.state)
    (read : fgets 8 r.inputFile = (some piece, rest)) :
    ∃ state, FramesBelow state ∧ mainBody storage garbage r = .ok (.next
      ⟨rest, r.calls ++ [(sscanfUnsigned piece).getD (garbage r.calls.length)], state⟩) := by
  obtain ⟨physical, state, value, translated, _, _, belowAfter, accessed⟩ :=
    below.access storage ((sscanfUnsigned piece).getD (garbage r.calls.length))
  refine ⟨state, belowAfter, ?_⟩
  rw [mainBody, read]
  simp only [translated, accessed, ok_bind, pure_eq_ok]

/-- The loop translates the values of all pieces of the file. -/
theorem mainLoop_from (below : FramesBelow r.state) {fuel : ℕ}
    (enough : r.inputFile.length < fuel) :
    ∃ last, whileLoop (fun _ => true) (mainBody storage garbage) fuel r = .ok (.exit last) ∧
      last.calls = r.calls ++ valuesRead garbage r.calls.length (fgetsAll 8 r.inputFile) := by
  induction fuel generalizing r with
  | zero => exact absurd enough (Nat.not_lt_zero _)
  | succ fuel inductionHypothesis =>
      cases read : fgets 8 r.inputFile with
      | mk piece rest =>
          cases piece with
          | none =>
              have ended : r.inputFile = [] := by
                by_contra more
                rw [fgets, if_neg more] at read
                cases read
              refine ⟨_, whileLoop_of_exit rfl (mainBody_end ended), ?_⟩
              rw [ended, fgetsAll_nil, valuesRead, List.append_nil]
          | some piece =>
              obtain ⟨state, belowAfter, step⟩ := mainBody_piece below read
              have shorter := fgets_shorter (by decide) read
              have less : rest.length < fuel := by omega
              obtain ⟨last, run, calls⟩ := inductionHypothesis (r := ⟨rest, _, state⟩)
                belowAfter less
              refine ⟨last, ?_, ?_⟩
              · rw [Iterates.whileLoop_succ ⟨rfl, step⟩, run]
              · rw [calls, fgetsAll_of_read (by decide) read, valuesRead]
                simp

theorem mainLoop_calls (storage : BackingStorage) (garbage : ℕ → UInt32)
    (inputFile : List Char) :
    ∃ last, mainLoop storage garbage inputFile = .ok last ∧
      last.calls = valuesRead garbage 0 (fgetsAll 8 inputFile) := by
  obtain ⟨last, run, calls⟩ := @mainLoop_from storage garbage ⟨inputFile, [], State.initial⟩
    initial_framesBelow _ (Nat.lt_succ_self inputFile.length)
  refine ⟨last, ?_, calls⟩
  rw [mainLoop, run]
  rfl

/-! ## The pieces of a line -/

variable {value : UInt32} {values : List UInt32}

/-- The numeral of the value and its newline fit into the buffer. -/
def FitsBuffer (value : UInt32) : Prop := value.toNat < 1000000

instance (value : UInt32) : Decidable (FitsBuffer value) :=
  inferInstanceAs (Decidable (_ < _))

theorem linesOf_cons (value : UInt32) (values : List UInt32) :
    linesOf (value :: values) = decimal value.toNat ++ '\n' :: linesOf values := by
  simp [linesOf]

theorem newline_not_mem_decimal (number : ℕ) : '\n' ∉ decimal number := by
  intro member
  have digit := Nat.isDigit_of_mem_toDigits (by decide) (by decide) member
  cases digit

theorem length_decimal_fits : (decimal value.toNat).length ≤ 6 ↔ FitsBuffer value :=
  length_decimal_le_iff (by decide)

theorem length_decimal_value (value : UInt32) : (decimal value.toNat).length ≤ 10 :=
  (length_decimal_le_iff (by decide)).mpr (value.toNat_lt.trans (by decide))

/-- A numeral that fits is read whole. -/
theorem fgetsAll_of_fits (fits : FitsBuffer value) (values : List UInt32) :
    fgetsAll 8 (linesOf (value :: values)) =
      (decimal value.toNat ++ ['\n']) :: fgetsAll 8 (linesOf values) := by
  have length := length_decimal_fits.mpr fits
  rw [linesOf_cons, fgetsAll_short (newline_not_mem_decimal _) (by omega)]

/-- Any other numeral is read in two pieces. -/
theorem fgetsAll_of_not_fits (large : ¬FitsBuffer value) (values : List UInt32) :
    ∃ first second, fgetsAll 8 (linesOf (value :: values)) =
      first :: second :: fgetsAll 8 (linesOf values) := by
  have atLeast : 7 ≤ (decimal value.toNat).length := by
    by_contra short
    exact large (length_decimal_fits.mp (by omega))
  have atMost := length_decimal_value value
  have unbroken := newline_not_mem_decimal value.toNat
  have unbrokenRest : '\n' ∉ (decimal value.toNat).drop 7 :=
    fun member => unbroken (List.mem_of_mem_drop member)
  have shortRest : ((decimal value.toNat).drop 7).length + 1 < 8 := by
    rw [List.length_drop]
    omega
  refine ⟨(decimal value.toNat).take 7, (decimal value.toNat).drop 7 ++ ['\n'], ?_⟩
  rw [linesOf_cons, fgetsAll_long (by decide) unbroken (by omega),
    fgetsAll_short unbrokenRest shortRest]

/-- Every numeral that does not fit adds an iteration. -/
theorem length_fgetsAll_linesOf (values : List UInt32) :
    (fgetsAll 8 (linesOf values)).length =
      values.length + values.countP (fun value => ¬FitsBuffer value) := by
  induction values with
  | nil => simp [linesOf, fgetsAll_nil]
  | cons value values inductionHypothesis =>
      by_cases fits : FitsBuffer value
      · rw [fgetsAll_of_fits fits, List.length_cons, inductionHypothesis,
          List.countP_cons_of_neg (by simpa using fits), List.length_cons]
        omega
      · obtain ⟨first, second, pieces⟩ := fgetsAll_of_not_fits fits values
        rw [pieces, List.length_cons, List.length_cons, inductionHypothesis,
          List.countP_cons_of_pos (by simpa using fits), List.length_cons]
        omega

theorem sscanfUnsigned_line (value : UInt32) :
    sscanfUnsigned (decimal value.toNat ++ ['\n']) = some value := by
  have ends : ∀ c, ['\n'].head? = some c → c.isDigit = false := by
    intro c first
    cases first
    rfl
  rw [sscanfUnsigned, scanNumeral_decimal _ ends]
  simp

theorem valuesRead_of_fits (fits : ∀ value ∈ values, FitsBuffer value) (garbage : ℕ → UInt32)
    (first : ℕ) : valuesRead garbage first (fgetsAll 8 (linesOf values)) = values := by
  induction values generalizing first with
  | nil => simp [linesOf, fgetsAll_nil, valuesRead]
  | cons value values inductionHypothesis =>
      rw [fgetsAll_of_fits (fits value (by simp)), valuesRead, sscanfUnsigned_line,
        inductionHypothesis fun other member => fits other (List.mem_cons_of_mem _ member)]
      rfl

/-- As many translations as lines are only made when no line is read in pieces. -/
theorem OneAccessPerLine.all_fit (exact : OneAccessPerLine storage values) :
    values.countP (fun value => ¬FitsBuffer value) = 0 := by
  obtain ⟨last, run, calls⟩ := exact fun _ => 0
  obtain ⟨other, otherRun, translated⟩ := mainLoop_calls storage (fun _ => 0) (linesOf values)
  rw [run, Except.ok.injEq] at otherRun
  subst otherRun
  have lengths := congrArg List.length (translated.symm.trans calls)
  rw [length_valuesRead, length_fgetsAll_linesOf] at lengths
  omega

/-- There is one translation for every line, of its value, exactly when each numeral fits into
the buffer with its newline. -/
theorem oneAccessPerLine_iff (storage : BackingStorage) (values : List UInt32) :
    OneAccessPerLine storage values ↔ ∀ value ∈ values, value.toNat < 1000000 := by
  constructor
  · intro exact value member
    simpa [FitsBuffer] using List.countP_eq_zero.mp exact.all_fit value member
  · intro fits garbage
    obtain ⟨last, run, calls⟩ := mainLoop_calls storage garbage (linesOf values)
    exact ⟨last, run, calls.trans (valuesRead_of_fits fits garbage 0)⟩

/-- The one line `1000000` leads to two translations. -/
theorem seven_digits_demo : ¬OneAccessPerLine ⟨0, fun _ => 0⟩ [1000000] := by
  intro exact
  have none := exact.all_fit
  revert none
  decide

end InputFile

end OsProjects.VirtualMemory
