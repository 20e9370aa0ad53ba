import Mathlib.Data.List.TakeWhile
import OsProjects.Shell.Model

/-!
Owns the meaning of `strtok` and of `parse_input`: the tokens of a text are the
non-empty pieces between its delimiters, and `parse_input` puts them into the first
slots of the array and leaves the others as they were.

Does not own what was in the array before.
-/

namespace OsProjects.Shell

open OsProjects.C

/-- The tokens of a text. -/
def tokensOf (text : List Char) : List Token :=
  (text.splitOnP isDelimiter).filter (· ≠ [])

section Tokens

variable {text before after : List Char} {c : Char}

@[simp] theorem tokensOf_nil : tokensOf [] = [] := by
  simp [tokensOf]

theorem tokensOf_cons_delimiter (delimiter : isDelimiter c = true) :
    tokensOf (c :: text) = tokensOf text := by
  simp [tokensOf, List.splitOnP_cons_eq_if_modifyHead, delimiter]

theorem tokensOf_dropWhile : tokensOf (text.dropWhile isDelimiter) = tokensOf text := by
  induction text with
  | nil => rfl
  | cons c text inductionHypothesis =>
      by_cases delimiter : isDelimiter c = true
      · rw [List.dropWhile_cons_of_pos delimiter, inductionHypothesis,
          tokensOf_cons_delimiter delimiter]
      · rw [List.dropWhile_cons_of_neg delimiter]

/-- A text without delimiters is one token. -/
theorem tokensOf_word (nonempty : before ≠ []) (word : ∀ c ∈ before, isDelimiter c = false) :
    tokensOf before = [before] := by
  rw [tokensOf, List.splitOnP_eq_singleton word]
  simp [nonempty]

theorem tokensOf_word_append (nonempty : before ≠ []) (word : ∀ c ∈ before, isDelimiter c = false)
    (delimiter : isDelimiter c = true) :
    tokensOf (before ++ c :: after) = before :: tokensOf after := by
  rw [tokensOf, List.splitOnP_append_cons_of_forall_mem word _ delimiter]
  simp [nonempty, tokensOf]

theorem ne_nil_of_mem_tokensOf {token : Token} (member : token ∈ tokensOf text) : token ≠ [] := by
  simpa using (List.mem_filter.mp member).2

/-- The delimiter at the end of a token does not count. -/
theorem tokensOf_word_append_drop (nonempty : before ≠ [])
    (word : ∀ c ∈ before, isDelimiter c = false)
    (ends : ∀ c, after.head? = some c → isDelimiter c = true) :
    tokensOf (before ++ after) = before :: tokensOf (after.drop 1) := by
  cases after with
  | nil => simpa using tokensOf_word nonempty word
  | cons c rest => exact tokensOf_word_append nonempty word (ends c rfl)

/-- `strtok` finds no token, or the first one, and leaves a text that has the others. -/
theorem strtok_cases (text : List Char) :
    (strtok text = (none, []) ∧ tokensOf text = []) ∨
      ∃ word rest, strtok text = (some word, rest) ∧ tokensOf text = word :: tokensOf rest ∧
        0 < word.length ∧ word.length ≤ text.length ∧
        (rest = [] ∨ word.length + rest.length < text.length) := by
  have sameTokens : tokensOf (text.dropWhile isDelimiter) = tokensOf text := tokensOf_dropWhile
  have shorter : (text.dropWhile isDelimiter).length ≤ text.length :=
    (List.dropWhile_sublist _).length_le
  have starts := List.head?_dropWhile_not isDelimiter text
  cases body : text.dropWhile isDelimiter with
  | nil =>
      rw [body, tokensOf_nil] at sameTokens
      exact Or.inl ⟨by simp [strtok, body], sameTokens.symm⟩
  | cons c more =>
      rw [body] at sameTokens shorter starts
      have parts : (c :: more).takeWhile (!isDelimiter ·) ++
          (c :: more).dropWhile (!isDelimiter ·) = c :: more :=
        List.takeWhile_append_dropWhile
      have word : ∀ d ∈ (c :: more).takeWhile (!isDelimiter ·), isDelimiter d = false := by
        intro d member
        simpa using List.mem_takeWhile_imp member
      have nonempty : (c :: more).takeWhile (!isDelimiter ·) ≠ [] := by
        rw [List.takeWhile_cons_of_pos (by simpa using starts)]
        exact List.cons_ne_nil _ _
      have ends := List.head?_dropWhile_not (!isDelimiter ·) (c :: more)
      have lengths := congrArg List.length parts
      rw [List.length_append] at lengths
      refine Or.inr ⟨(c :: more).takeWhile (!isDelimiter ·),
        ((c :: more).dropWhile (!isDelimiter ·)).drop 1, by simp [strtok, body], ?_,
        List.length_pos_iff.mpr nonempty, by omega, ?_⟩
      · rw [← sameTokens]
        conv => lhs; rw [← parts]
        apply tokensOf_word_append_drop nonempty word
        intro d first
        rw [first] at ends
        simpa using ends
      · cases tail : (c :: more).dropWhile (!isDelimiter ·) with
        | nil => exact Or.inl rfl
        | cons d rest =>
            right
            rw [tail] at lengths
            simp only [List.length_cons, List.drop_one, List.tail_cons] at *
            omega

/-- Two tokens need a delimiter between them. -/
theorem length_tokensOf (text : List Char) : 2 * (tokensOf text).length ≤ text.length + 1 := by
  induction length : text.length using Nat.strong_induction_on generalizing text with
  | _ size inductionHypothesis =>
      cases strtok_cases text with
      | inl blank => simp [blank.2]
      | inr found =>
          obtain ⟨word, rest, _, tokens, wordPos, wordFits, shorter⟩ := found
          rw [tokens, List.length_cons]
          cases shorter with
          | inl last =>
              rw [last, tokensOf_nil, List.length_nil]
              omega
          | inr shorter =>
              have bound := inductionHypothesis rest.length (by omega) rest rfl
              omega

end Tokens

/-! ## `parse_input` -/

/-- The array after its first `number` slots got the tokens, and `NULL` behind them. -/
def laid (args : Args) (number : ℕ) (tokens : List Token) : Args := fun slot =>
  if slot.val < number then tokens[slot.val]? else args slot

section Parse

variable {args : Args} {tokens : List Token} {text : List Char}

theorem laid_nil : laid args 0 tokens = args := by
  funext slot
  exact if_neg (Nat.not_lt_zero _)

theorem laid_snoc {token : Token} (room : tokens.length < argsSize) :
    Function.update (laid args tokens.length tokens) ⟨tokens.length, room⟩ (some token) =
      laid args (tokens.length + 1) (tokens ++ [token]) :=
  update_prefix room (fun _ before => List.getElem?_append_left before) (by simp)

/-- The tokens `rest` are left to be stored. -/
structure Parsed (args : Args) (tokens rest : List Token) (p : Parsing) : Prop where
  done : ∃ done, done ++ rest = tokens ∧ p.num = done.length ∧ p.args = laid args done.length done
  found : p.token = rest.head?
  remaining : tokensOf p.rest = rest.tail

theorem strtok_head (text : List Char) :
    (strtok text).1 = (tokensOf text).head? ∧
      tokensOf (strtok text).2 = (tokensOf text).tail := by
  cases strtok_cases text with
  | inl blank =>
      rw [blank.1, blank.2]
      exact ⟨rfl, tokensOf_nil⟩
  | inr more =>
      obtain ⟨word, others, call, tokens, _⟩ := more
      rw [call, tokens]
      exact ⟨rfl, rfl⟩

/-- One iteration stores the token that `strtok` has found and looks for the next one. -/
theorem parseBody_parsed {token : Token} {rest : List Token} {p : Parsing}
    (fits : tokens.length ≤ argsSize) (parsed : Parsed args tokens (token :: rest) p) :
    ∃ after, parseBody p = .ok (.next after) ∧ Parsed args tokens rest after := by
  obtain ⟨⟨done, split, num, stored⟩, found, remaining⟩ := parsed
  have room : done.length < argsSize := by
    rw [← split, List.length_append, List.length_cons] at fits
    omega
  have next := strtok_head p.rest
  rw [remaining] at next
  refine ⟨⟨p.num + 1, laid args (done.length + 1) (done ++ [token]), (strtok p.rest).1,
    (strtok p.rest).2⟩, ?_, ⟨⟨done ++ [token], ?_, ?_, ?_⟩, next.1, next.2⟩⟩
  · rw [parseBody, num, stored, found, write_natCast _ room, ok_bind, List.head?_cons,
      laid_snoc room]
    rfl
  · rw [List.append_assoc, List.singleton_append, split]
  · simp [num]
  · simp

/-- `parse_input` stores the tokens of a text that has no more of them than the array
has slots, and returns their number. -/
theorem parseInput_ok (args : Args) (fits : (tokensOf text).length ≤ argsSize) :
    parseInput args text = .ok ((tokensOf text).length,
      laid args (tokensOf text).length (tokensOf text)) := by
  have first := strtok_head text
  have initially : Parsed args (tokensOf text) (tokensOf text)
      ⟨0, args, (strtok text).1, (strtok text).2⟩ :=
    ⟨⟨[], rfl, rfl, laid_nil.symm⟩, first.1, first.2⟩
  have enough : (tokensOf text).length ≤ text.length := by
    have bound := length_tokensOf text
    omega
  obtain ⟨last, run, ⟨done, split, num, stored⟩, _, _⟩ :=
    whileLoop_list_next (·.token.isSome) parseBody (Parsed args (tokensOf text))
      (fun parsed => by simp [parsed.found]) (fun parsed => by simp [parsed.found])
      (parseBody_parsed fits) initially enough
  rw [List.append_nil] at split
  subst split
  rw [parseInput, run, ok_bind, LoopStep.state, num, stored]
  rfl

end Parse

end OsProjects.Shell
