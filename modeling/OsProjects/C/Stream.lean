import Mathlib.Data.List.TakeWhile
import OsProjects.C.Numeral

/-!
Owns reading from a stream of characters as `stdio` does it: lines of a bounded length with
`fgets`, and words, numbers and single characters with `scanf`.

A stream is the text that is left. A function that fails at the end of the stream, or at text
that does not match, yields `none`; what it was to store is then as it was.

Does not own what a program does with the text.
-/

namespace OsProjects.C

/-- The string in a buffer: what is behind a NUL is not looked at. -/
def cString (buffer : List Char) : List Char := buffer.takeWhile (· ≠ '\x00')

/-! ## `fgets` -/

/-- The text up to the end of the first line, at most `room` characters of it, and what is left. -/
def lineWithin : ℕ → List Char → List Char × List Char
  | 0, stream => ([], stream)
  | _ + 1, [] => ([], [])
  | room + 1, c :: stream =>
      if c = '\n' then ([c], stream)
      else
        let (line, rest) := lineWithin room stream
        (c :: line, rest)

/-- `fgets(line, size, stream)` -/
def fgets (size : ℕ) (stream : List Char) : Option (List Char) × List Char :=
  if stream = [] then (none, [])
  else
    let (line, rest) := lineWithin (size - 1) stream
    (some line, rest)

section Lines

variable {size room : ℕ} {stream line text rest : List Char}

theorem lineWithin_parts : ∀ (room : ℕ) (stream : List Char),
    (lineWithin room stream).1 ++ (lineWithin room stream).2 = stream
  | 0, _ => rfl
  | _ + 1, [] => rfl
  | room + 1, c :: stream => by
      rw [lineWithin]
      split
      · rfl
      · simp [lineWithin_parts room stream]

theorem length_lineWithin_le : ∀ (room : ℕ) (stream : List Char),
    (lineWithin room stream).1.length ≤ room
  | 0, _ => Nat.le_refl _
  | _ + 1, [] => Nat.zero_le _
  | room + 1, c :: stream => by
      rw [lineWithin]
      split
      · simp
      · simpa using length_lineWithin_le room stream

/-- What is read fits into the buffer, with a NUL behind it. -/
theorem length_fgets_le (read : fgets size stream = (some line, rest)) :
    line.length ≤ size - 1 := by
  rw [fgets] at read
  split at read
  · cases read
  · simp only [Prod.mk.injEq, Option.some.injEq] at read
    rw [← read.1]
    exact length_lineWithin_le _ _

theorem fgets_cases (size : ℕ) (stream : List Char) :
    stream = [] ∨ ∃ line rest, fgets size stream = (some line, rest) := by
  by_cases ended : stream = []
  · exact Or.inl ended
  · exact Or.inr ⟨_, _, if_neg ended⟩

theorem fgets_none (read : fgets size stream = (none, rest)) : stream = [] ∧ rest = [] := by
  rw [fgets] at read
  split at read
  · rename_i ended
    cases read
    exact ⟨ended, rfl⟩
  · cases read

theorem fgets_shorter (large : 1 < size) (read : fgets size stream = (some line, rest)) :
    rest.length < stream.length := by
  cases stream with
  | nil => cases read
  | cons c stream =>
      have parts := congrArg List.length (lineWithin_parts (size - 1) (c :: stream))
      obtain ⟨room, positive⟩ : ∃ room, size - 1 = room + 1 := ⟨size - 2, by omega⟩
      rw [fgets, if_neg (List.cons_ne_nil _ _), positive] at read
      rw [positive, List.length_append] at parts
      have nonempty : 0 < (lineWithin (room + 1) (c :: stream)).1.length := by
        rw [lineWithin]
        split
        · simp
        · simp
      simp only [Prod.mk.injEq] at read
      rw [← read.2]
      omega

/-- What successive calls of `fgets` read. -/
def fgetsAll (size : ℕ) (stream : List Char) : List (List Char) :=
  match fgets size stream with
  | (none, _) => []
  | (some line, rest) =>
      if rest.length < stream.length then line :: fgetsAll size rest else [line]
termination_by stream.length

theorem fgetsAll_nil (size : ℕ) : fgetsAll size [] = [] := by
  rw [fgetsAll, fgets, if_pos rfl]

theorem fgetsAll_of_read (large : 1 < size) (read : fgets size stream = (some line, rest)) :
    fgetsAll size stream = line :: fgetsAll size rest := by
  rw [fgetsAll, read]
  simp only [if_pos (fgets_shorter large read)]

theorem lineWithin_short : ∀ {room : ℕ} {text : List Char}, '\n' ∉ text → text.length < room →
    lineWithin room (text ++ '\n' :: rest) = (text ++ ['\n'], rest)
  | 0, _, _, short => absurd short (Nat.not_lt_zero _)
  | room + 1, [], _, _ => by simp [lineWithin]
  | room + 1, c :: text, unbroken, short => by
      rw [List.mem_cons, not_or] at unbroken
      have later := lineWithin_short unbroken.2 (Nat.lt_of_succ_lt_succ short)
      simp [lineWithin, Ne.symm unbroken.1, later]

theorem lineWithin_long : ∀ {room : ℕ} {text : List Char}, '\n' ∉ text → room ≤ text.length →
    lineWithin room (text ++ rest) = (text.take room, text.drop room ++ rest)
  | 0, _, _, _ => by simp [lineWithin]
  | room + 1, [], _, long => absurd long (Nat.not_succ_le_zero _)
  | room + 1, c :: text, unbroken, long => by
      rw [List.mem_cons, not_or] at unbroken
      have later := lineWithin_long unbroken.2 (Nat.le_of_succ_le_succ long)
      simp [lineWithin, Ne.symm unbroken.1, later]

/-- A line that fits into the buffer is read whole. -/
theorem fgetsAll_short (unbroken : '\n' ∉ text) (short : text.length + 1 < size) :
    fgetsAll size (text ++ '\n' :: rest) = (text ++ ['\n']) :: fgetsAll size rest := by
  apply fgetsAll_of_read (by omega)
  rw [fgets, if_neg (by simp), lineWithin_short unbroken (by omega)]

/-- Of a longer line, as much is read as the buffer can hold. -/
theorem fgetsAll_long (large : 1 < size) (unbroken : '\n' ∉ text) (long : size ≤ text.length + 1) :
    fgetsAll size (text ++ '\n' :: rest) =
      text.take (size - 1) :: fgetsAll size (text.drop (size - 1) ++ '\n' :: rest) := by
  apply fgetsAll_of_read large
  rw [fgets, if_neg (by simp), lineWithin_long unbroken (by omega)]

end Lines

/-! ## `scanf` -/

/-- `isspace` -/
def isSpace (c : Char) : Bool :=
  c = ' ' || c = '\t' || c = '\n' || c = '\x0b' || c = '\x0c' || c = '\r'

/-- `%s`: the next word. -/
def scanWord (stream : List Char) : Option (List Char) × List Char :=
  let text := stream.dropWhile isSpace
  if text = [] then (none, [])
  else (some (text.takeWhile (!isSpace ·)), text.dropWhile (!isSpace ·))

/-- A space and `%c`: the next character that is no white space. -/
def scanChar (stream : List Char) : Option Char × List Char :=
  match stream.dropWhile isSpace with
  | [] => (none, [])
  | c :: rest => (some c, rest)

/-- `%u` and `%zu`: the sign, and the magnitude of the numeral. A sign without a numeral is
lost. -/
def scanNumeral (stream : List Char) : Option (Bool × ℕ) × List Char :=
  let text := stream.dropWhile isSpace
  let negative := text.head? = some '-'
  let digits := if negative ∨ text.head? = some '+' then text.drop 1 else text
  if digits.takeWhile Char.isDigit = [] then (none, digits)
  else
    (some (negative, Nat.ofDigitChars 10 (digits.takeWhile Char.isDigit) 0),
      digits.dropWhile Char.isDigit)

section Numerals

variable {c : Char} {text rest : List Char}

theorem isSpace_of_isDigit (digit : c.isDigit = true) : isSpace c = false := by
  by_contra space
  rw [Bool.not_eq_false, isSpace] at space
  simp only [Bool.or_eq_true, decide_eq_true_eq] at space
  rcases space with ((((rfl | rfl) | rfl) | rfl) | rfl) | rfl <;> cases digit

theorem takeWhile_digits (digits : ∀ c ∈ text, c.isDigit = true)
    (ends : ∀ c, rest.head? = some c → c.isDigit = false) :
    (text ++ rest).takeWhile Char.isDigit = text ∧
      (text ++ rest).dropWhile Char.isDigit = rest := by
  rw [List.takeWhile_append_of_pos digits, List.dropWhile_append_of_pos digits]
  cases rest with
  | nil => simp
  | cons c rest =>
      have other : ¬c.isDigit = true := by simp [ends c rfl]
      rw [List.takeWhile_cons_of_neg other, List.dropWhile_cons_of_neg other, List.append_nil]
      exact ⟨rfl, rfl⟩

/-- A numeral is read back as its value. -/
theorem scanNumeral_decimal (value : ℕ) (ends : ∀ c, rest.head? = some c → c.isDigit = false) :
    scanNumeral (decimal value ++ rest) = (some (false, value), rest) := by
  have digits : ∀ c ∈ decimal value, c.isDigit = true := fun c member =>
    Nat.isDigit_of_mem_toDigits (by decide) (by decide) member
  obtain ⟨first, others, numeral⟩ := List.exists_cons_of_ne_nil (decimal_ne_nil value)
  have digit : first.isDigit = true := digits first (by simp [numeral])
  have noSpace : (decimal value ++ rest).dropWhile isSpace = decimal value ++ rest := by
    rw [numeral, List.cons_append,
      List.dropWhile_cons_of_neg (by simp [isSpace_of_isDigit digit])]
  have head : (decimal value ++ rest).head? = some first := by simp [numeral]
  have noSign : ∀ sign : Char, sign.isDigit = false →
      (decimal value ++ rest).head? ≠ some sign := by
    intro sign isSign same
    rw [head, Option.some.injEq] at same
    rw [← same, digit] at isSign
    cases isSign
  obtain ⟨taken, left⟩ := takeWhile_digits digits ends
  rw [scanNumeral]
  simp only [noSpace, noSign '-' (by decide), noSign '+' (by decide), or_self, if_false, taken,
    left, if_neg (decimal_ne_nil value)]
  simp [decimal, Nat.ofDigitChars_ten_toDigits]

end Numerals

end OsProjects.C
