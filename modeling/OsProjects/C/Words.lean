import OsProjects.C.Array
import OsProjects.C.Stream

/-!
Owns numbers that are read as `int`, by `scanf` and by `atoi`, and texts that are words with white
space between them: word after word, `scanf` reads back what the text was made of.

Does not own what a program does with the words.
-/

namespace OsProjects.C

/-- `%d`: what is stored, if anything is. A numeral whose value does not fit is undefined. -/
def scanInt (input : List Char) : Outcome (Option Int × List Char) :=
  match scanNumeral input with
  | (none, rest) => .ok (none, rest)
  | (some (negative, magnitude), rest) => do
      let value ← checked (if negative then -(magnitude : Int) else magnitude)
      pure (some value, rest)

/-- `atoi`: a string without a numeral counts as 0. -/
def atoi (string : List Char) : Outcome Int := do
  let (value, _) ← scanInt string
  pure (value.getD 0)

/-- The text consists of the words, in this order, with white space between them. -/
inductive Spells : List (List Char) → List Char → Prop where
  | blank {text : List Char} (spaces : ∀ c ∈ text, isSpace c = true) : Spells [] text
  | word {words : List (List Char)} {spaces word rest : List Char}
      (before : ∀ c ∈ spaces, isSpace c = true) (nonempty : word ≠ [])
      (solid : ∀ c ∈ word, isSpace c = false)
      (ends : ∀ c, rest.head? = some c → isSpace c = true)
      (behind : Spells words rest) : Spells (word :: words) (spaces ++ word ++ rest)

/-- The words with one space before each of them. -/
def spaced (words : List (List Char)) : List Char := words.flatMap (' ' :: ·)

section Words

variable {words : List (List Char)} {spaces word rest text : List Char} {value : Int}

theorem Spells.of_spaced (nonempty : ∀ word ∈ words, word ≠ [])
    (solid : ∀ word ∈ words, word.all (!isSpace ·) = true) : Spells words (spaced words) := by
  induction words with
  | nil => exact .blank (by simp [spaced])
  | cons word words inductionHypothesis =>
      have behind := inductionHypothesis (fun word member => nonempty word (by simp [member]))
        (fun word member => solid word (by simp [member]))
      have ends : ∀ c, (spaced words).head? = some c → isSpace c = true := by
        intro c head
        cases words with
        | nil => cases head
        | cons next words =>
            cases head
            rfl
      have oneSpace : ∀ c ∈ [' '], isSpace c = true := by simp [isSpace]
      have wordSolid : ∀ c ∈ word, isSpace c = false := by
        intro c member
        simpa using List.all_eq_true.mp (solid word (by simp)) c member
      exact .word oneSpace (nonempty word (by simp)) wordSolid ends behind

/-! ## Words -/

/-- White space before a word is skipped. -/
theorem dropWhile_before (before : ∀ c ∈ spaces, isSpace c = true) (nonempty : word ≠ [])
    (solid : ∀ c ∈ word, isSpace c = false) :
    (spaces ++ word ++ rest).dropWhile isSpace = word ++ rest := by
  obtain ⟨first, others, rfl⟩ := List.exists_cons_of_ne_nil nonempty
  have firstSolid : ¬isSpace first = true := by simp [solid first (by simp)]
  rw [List.append_assoc, List.dropWhile_append_of_pos before, List.cons_append,
    List.dropWhile_cons_of_neg firstSolid]

theorem dropWhile_blank (spaces : ∀ c ∈ text, isSpace c = true) : text.dropWhile isSpace = [] :=
  List.dropWhile_eq_nil_iff.mpr spaces

/-- A word ends before white space. -/
theorem takeWhile_solid (solid : ∀ c ∈ word, isSpace c = false)
    (ends : ∀ c, rest.head? = some c → isSpace c = true) :
    (word ++ rest).takeWhile (!isSpace ·) = word ∧
      (word ++ rest).dropWhile (!isSpace ·) = rest := by
  have all : ∀ c ∈ word, (!isSpace c) = true := by
    intro c member
    rw [solid c member]
    rfl
  rw [List.takeWhile_append_of_pos all, List.dropWhile_append_of_pos all]
  cases rest with
  | nil => simp
  | cons c rest => simp [ends c rfl]

theorem Spells.scanWord_nil (spells : Spells [] text) : scanWord text = (none, []) := by
  cases spells with
  | blank spaces => simp [scanWord, dropWhile_blank spaces]

/-- `%s` reads the first word, and the others are left. -/
theorem Spells.scanWord_cons (spells : Spells (word :: words) text) :
    ∃ rest, scanWord text = (some word, rest) ∧ Spells words rest := by
  cases spells with
  | @word _ _ _ rest before nonempty solid ends behind =>
      obtain ⟨taken, left⟩ := takeWhile_solid solid ends
      refine ⟨rest, ?_, behind⟩
      rw [scanWord, dropWhile_before before nonempty solid]
      simp only [taken, left, List.append_eq_nil_iff, nonempty, false_and, if_false]

theorem length_dropWhile_le (test : Char → Bool) (text : List Char) :
    (text.dropWhile test).length ≤ text.length :=
  (List.dropWhile_sublist test).length_le

/-- A word that is read has characters. -/
theorem scanWord_shorter (read : scanWord text = (some word, rest)) :
    rest.length < text.length := by
  have skipped := length_dropWhile_le isSpace text
  rw [scanWord] at read
  split at read
  · cases read
  · rename_i more
    obtain ⟨first, others, shape⟩ := List.exists_cons_of_ne_nil more
    have firstSolid : isSpace first = false := by
      have head := List.head_dropWhile_not isSpace more
      simpa [shape] using head
    simp only [Prod.mk.injEq] at read
    rw [shape, List.dropWhile_cons_of_pos (by simp [firstSolid])] at read
    have behind := length_dropWhile_le (!isSpace ·) others
    rw [shape, List.length_cons] at skipped
    rw [← read.2]
    omega

/-! ## Numbers -/

theorem isDigit_of_mem_decimal {c : Char} {magnitude : ℕ} (member : c ∈ decimal magnitude) :
    c.isDigit = true :=
  Nat.isDigit_of_mem_toDigits (by decide) (by decide) member

theorem signedDecimal_ne_nil (value : Int) : signedDecimal value ≠ [] := by
  rw [signedDecimal]
  split
  · exact List.cons_ne_nil _ _
  · exact decimal_ne_nil _

theorem solid_signedDecimal (value : Int) : ∀ c ∈ signedDecimal value, isSpace c = false := by
  intro c member
  rw [signedDecimal] at member
  split at member
  · rcases List.mem_cons.mp member with rfl | digit
    · rfl
    · exact isSpace_of_isDigit (isDigit_of_mem_decimal digit)
  · exact isSpace_of_isDigit (isDigit_of_mem_decimal member)

theorem isDigit_of_isSpace {c : Char} (space : isSpace c = true) : c.isDigit = false := by
  by_contra digit
  rw [isSpace_of_isDigit (by simpa using digit)] at space
  cases space

theorem scanNumeral_before (before : ∀ c ∈ spaces, isSpace c = true) :
    scanNumeral (spaces ++ text) = scanNumeral text := by
  rw [scanNumeral, scanNumeral, List.dropWhile_append_of_pos before]

/-- A numeral with its sign is read back. -/
theorem scanNumeral_signedDecimal (value : Int)
    (ends : ∀ c, rest.head? = some c → c.isDigit = false) :
    scanNumeral (signedDecimal value ++ rest) =
      (some (decide (value < 0), value.natAbs), rest) := by
  rw [signedDecimal]
  by_cases negative : value < 0
  · obtain ⟨taken, left⟩ := takeWhile_digits
      (fun c (member : c ∈ decimal value.natAbs) => isDigit_of_mem_decimal member) ends
    have noSpace : ('-' :: decimal value.natAbs ++ rest).dropWhile isSpace =
        '-' :: (decimal value.natAbs ++ rest) := List.dropWhile_cons_of_neg (by decide)
    rw [if_pos negative, scanNumeral, noSpace]
    simp only [List.head?_cons, true_or, if_true, List.drop_succ_cons, List.drop_zero, taken, left,
      if_neg (decimal_ne_nil _)]
    simp [negative, decimal, Nat.ofDigitChars_ten_toDigits]
  · rw [if_neg negative, scanNumeral_decimal _ ends, decide_eq_false negative]

/-- `%d` reads back a number, whatever white space stands before it. -/
theorem Spells.scanInt_cons (fits : IsInt value)
    (spells : Spells (signedDecimal value :: words) text) :
    ∃ rest, scanInt text = .ok (some value, rest) ∧ Spells words rest := by
  cases spells with
  | @word _ spaces _ rest before nonempty solid ends behind =>
      refine ⟨rest, ?_, behind⟩
      have magnitude : (if decide (value < 0) = true then -(value.natAbs : Int)
          else value.natAbs) = value := by
        by_cases negative : value < 0
        · rw [if_pos (decide_eq_true negative)]
          omega
        · rw [if_neg (by simp [negative])]
          omega
      rw [scanInt, List.append_assoc, scanNumeral_before before,
        scanNumeral_signedDecimal value fun c head => isDigit_of_isSpace (ends c head)]
      simp only [magnitude, checked, if_pos fits, ok_bind, pure_eq_ok]

theorem Spells.scanInt_nil (spells : Spells [] text) : scanInt text = .ok (none, []) := by
  cases spells with
  | blank spaces => simp [scanInt, scanNumeral, dropWhile_blank spaces]

theorem Spells.atoi (fits : IsInt value) (spells : Spells [signedDecimal value] text) :
    C.atoi text = .ok value := by
  obtain ⟨rest, scanned, _⟩ := spells.scanInt_cons fits
  rw [C.atoi, scanned]
  rfl

theorem scanNumeral_le {numeral : Option (Bool × ℕ)} (read : scanNumeral text = (numeral, rest)) :
    rest.length ≤ text.length := by
  have skipped := length_dropWhile_le isSpace text
  rw [scanNumeral] at read
  set digits := if (text.dropWhile isSpace).head? = some '-' ∨
      (text.dropWhile isSpace).head? = some '+' then (text.dropWhile isSpace).drop 1
    else text.dropWhile isSpace with digitsEq
  have unsigned : digits.length ≤ text.length := by
    rw [digitsEq]
    split
    · rw [List.length_drop]
      omega
    · exact skipped
  have read' : (if digits.takeWhile Char.isDigit = [] then (none, digits)
      else (some (decide ((text.dropWhile isSpace).head? = some '-'),
        Nat.ofDigitChars 10 (digits.takeWhile Char.isDigit) 0), digits.dropWhile Char.isDigit)) =
      (numeral, rest) := by
    simpa [digitsEq] using read
  split at read'
  · rw [Prod.mk.injEq] at read'
    rw [← read'.2]
    exact unsigned
  · rw [Prod.mk.injEq] at read'
    rw [← read'.2]
    exact (length_dropWhile_le _ _).trans unsigned

theorem scanInt_le {number : Option Int} (read : scanInt text = .ok (number, rest)) :
    rest.length ≤ text.length := by
  rw [scanInt] at read
  cases numeral : scanNumeral text with
  | mk found left =>
      have shorter := scanNumeral_le numeral
      rw [numeral] at read
      cases found with
      | none =>
          cases read
          exact shorter
      | some found =>
          obtain ⟨value, _, returned⟩ := bind_eq_ok.mp read
          cases returned
          exact shorter

theorem scanInt_isInt (read : scanInt text = .ok (some value, rest)) : IsInt value := by
  rw [scanInt] at read
  split at read
  · cases read
  · rename_i negative magnitude _ _
    by_cases fits : IsInt (if negative = true then -(magnitude : Int) else magnitude)
    · rw [checked, if_pos fits] at read
      cases read
      exact fits
    · rw [checked, if_neg fits] at read
      cases read

theorem atoi_isInt (read : C.atoi text = .ok value) : IsInt value := by
  obtain ⟨⟨number, rest⟩, scanned, returned⟩ := bind_eq_ok.mp read
  cases returned
  cases number with
  | none => exact isInt_zero
  | some number => exact scanInt_isInt scanned

/-- Reading a number fails in one way only. -/
theorem scanInt_error {fault : Fault} (fails : scanInt text = .error fault) :
    fault = .overflow := by
  rw [scanInt] at fails
  split at fails
  · cases fails
  · rename_i negative magnitude _ _
    by_cases fits : IsInt (if negative = true then -(magnitude : Int) else magnitude)
    · rw [checked, if_pos fits] at fails
      cases fails
    · rw [checked, if_neg fits] at fails
      cases fails
      rfl

end Words

end OsProjects.C
