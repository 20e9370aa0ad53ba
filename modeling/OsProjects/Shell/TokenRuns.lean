import OsProjects.Shell.Tokens

/-!
Owns where the tokens of a text stand in it: each is a maximal run of characters that are not
delimiters, every such run is a token, and `parse_input` stores them in their order within the
bounds of the array.

Does not own what a line leaves in the array for the next one.
-/

namespace OsProjects.Shell

open OsProjects.C

/-! ## Maximal runs -/

/-- From `start` up to `stop` stand characters that are not delimiters, and the run cannot be
made longer on either side. -/
structure MaximalRun (text : List Char) (run : ℕ × ℕ) : Prop where
  nonempty : run.1 < run.2
  inside : run.2 ≤ text.length
  word : ∀ place c, run.1 ≤ place → place < run.2 → text[place]? = some c → isDelimiter c = false
  before : ∀ c, 0 < run.1 → text[run.1 - 1]? = some c → isDelimiter c = true
  behind : ∀ c, text[run.2]? = some c → isDelimiter c = true

/-- All maximal runs of a text, from left to right. -/
structure RunsOf (text : List Char) (runs : List (ℕ × ℕ)) : Prop where
  ordered : runs.Pairwise fun earlier later => earlier.2 < later.1
  exact : ∀ run, run ∈ runs ↔ MaximalRun text run

/-- The characters of a run. -/
def runText (text : List Char) (run : ℕ × ℕ) : Token := (text.drop run.1).take (run.2 - run.1)

/-- A text of a gap, a word and a rest that does not continue the word. -/
structure FirstWord (gap word rest : List Char) : Prop where
  gaps : ∀ c ∈ gap, isDelimiter c = true
  nonempty : word ≠ []
  letters : ∀ c ∈ word, isDelimiter c = false
  ends : ∀ c, rest.head? = some c → isDelimiter c = true

section Runs

variable {text gap word rest : List Char} {place : ℕ} {c : Char} {run : ℕ × ℕ}
variable {runs : List (ℕ × ℕ)}

theorem gap_or_firstWord (text : List Char) : (∀ c ∈ text, isDelimiter c = true) ∨
    ∃ gap word rest, text = gap ++ (word ++ rest) ∧ FirstWord gap word rest := by
  have parts : text.takeWhile isDelimiter ++ text.dropWhile isDelimiter = text :=
    List.takeWhile_append_dropWhile
  have gap : ∀ c ∈ text.takeWhile isDelimiter, isDelimiter c = true :=
    fun c member => List.mem_takeWhile_imp member
  have starts := List.head?_dropWhile_not isDelimiter text
  cases body : text.dropWhile isDelimiter with
  | nil =>
      rw [body, List.append_nil] at parts
      exact Or.inl (parts ▸ gap)
  | cons c more =>
      rw [body] at parts starts
      have wordParts : (c :: more).takeWhile (!isDelimiter ·) ++
          (c :: more).dropWhile (!isDelimiter ·) = c :: more := List.takeWhile_append_dropWhile
      have ends := List.head?_dropWhile_not (!isDelimiter ·) (c :: more)
      refine Or.inr ⟨_, _, _, by rw [wordParts, parts], gap, ?_, ?_, ?_⟩
      · rw [List.takeWhile_cons_of_pos (by simpa using starts)]
        exact List.cons_ne_nil _ _
      · intro d member
        simpa using List.mem_takeWhile_imp member
      · intro d first
        rw [first] at ends
        simpa using ends

theorem tokensOf_gap (gaps : ∀ c ∈ gap, isDelimiter c = true) :
    tokensOf (gap ++ rest) = tokensOf rest := by
  induction gap with
  | nil => rfl
  | cons c gap inductionHypothesis =>
      rw [List.cons_append, tokensOf_cons_delimiter (gaps c (by simp)),
        inductionHypothesis fun d member => gaps d (List.mem_cons_of_mem _ member)]

theorem FirstWord.tokens (first : FirstWord gap word rest) :
    tokensOf (gap ++ (word ++ rest)) = word :: tokensOf rest := by
  rw [tokensOf_gap first.gaps, tokensOf_word_append_drop first.nonempty first.letters first.ends]
  cases rest with
  | nil => rfl
  | cons c rest => rw [tokensOf_cons_delimiter (first.ends c rfl), List.drop_one, List.tail_cons]

theorem FirstWord.delimiter (first : FirstWord gap word rest) (inGap : place < gap.length)
    (here : (gap ++ (word ++ rest))[place]? = some c) : isDelimiter c = true := by
  rw [List.getElem?_append_left inGap] at here
  exact first.gaps c (List.mem_of_getElem? here)

theorem FirstWord.letter (first : FirstWord gap word rest) (behindGap : gap.length ≤ place)
    (inWord : place < gap.length + word.length)
    (here : (gap ++ (word ++ rest))[place]? = some c) : isDelimiter c = false := by
  rw [List.getElem?_append_right behindGap, List.getElem?_append_left (by omega)] at here
  exact first.letters c (List.mem_of_getElem? here)

theorem getElem?_rest (behind : gap.length + word.length ≤ place) :
    (gap ++ (word ++ rest))[place]? = rest[place - (gap.length + word.length)]? := by
  rw [List.getElem?_append_right (by omega), List.getElem?_append_right (by omega), Nat.sub_sub]

theorem FirstWord.ends_word (first : FirstWord gap word rest)
    (here : (gap ++ (word ++ rest))[gap.length + word.length]? = some c) :
    isDelimiter c = true := by
  rw [getElem?_rest (Nat.le_refl _), Nat.sub_self, ← List.head?_eq_getElem?] at here
  exact first.ends c here

theorem exists_getElem? (inside : place < text.length) : ∃ c, text[place]? = some c :=
  ⟨_, List.getElem?_eq_getElem inside⟩

/-- No character is both in a run and a delimiter. -/
theorem MaximalRun.not_delimiter (maximal : MaximalRun text run) (lower : run.1 ≤ place)
    (upper : place < run.2) (delimiter : ∀ c, text[place]? = some c → isDelimiter c = true) :
    False := by
  obtain ⟨c, here⟩ := exists_getElem? (Nat.lt_of_lt_of_le upper maximal.inside)
  have letter := maximal.word place c lower upper here
  rw [delimiter c here] at letter
  cases letter

theorem FirstWord.maximal (first : FirstWord gap word rest) :
    MaximalRun (gap ++ (word ++ rest)) (gap.length, gap.length + word.length) where
  nonempty := Nat.lt_add_of_pos_right (List.length_pos_iff.mpr first.nonempty)
  inside := by simp only [List.length_append]; omega
  word _ _ lower upper here := first.letter lower upper here
  before _ positive here := first.delimiter (Nat.sub_one_lt_of_lt positive) here
  behind _ here := first.ends_word here

/-- A run that begins before the end of the word is the word. -/
theorem FirstWord.eq_of_maximal (first : FirstWord gap word rest)
    (maximal : MaximalRun (gap ++ (word ++ rest)) run)
    (early : run.1 < gap.length + word.length) :
    run = (gap.length, gap.length + word.length) := by
  have total : (gap ++ (word ++ rest)).length = gap.length + word.length + rest.length := by
    simp [Nat.add_assoc]
  have behindGap : gap.length ≤ run.1 := by
    by_contra inGap
    exact maximal.not_delimiter (Nat.le_refl _) maximal.nonempty
      fun c here => first.delimiter (by omega) here
  have atStart : run.1 = gap.length := by
    by_contra later
    obtain ⟨c, here⟩ := exists_getElem? (show run.1 - 1 < (gap ++ (word ++ rest)).length by omega)
    have delimiter := maximal.before c (by omega) here
    rw [first.letter (by omega) (by omega) here] at delimiter
    cases delimiter
  have atStop : run.2 = gap.length + word.length := by
    rcases Nat.lt_trichotomy run.2 (gap.length + word.length) with short | same | long
    · obtain ⟨c, here⟩ := exists_getElem? (show run.2 < (gap ++ (word ++ rest)).length by omega)
      have delimiter := maximal.behind c here
      have nonempty := maximal.nonempty
      rw [first.letter (by omega) short here] at delimiter
      cases delimiter
    · exact same
    · exact (maximal.not_delimiter (by omega) long fun c here => first.ends_word here).elim
  exact Prod.ext atStart atStop

/-- The runs behind the word are the runs of the rest. -/
theorem maximalRun_rest (behind : gap.length + word.length ≤ run.1)
    (maximal : MaximalRun (gap ++ (word ++ rest)) run) :
    MaximalRun rest (run.1 - (gap.length + word.length), run.2 - (gap.length + word.length)) := by
  obtain ⟨nonempty, inside, letters, before, ends⟩ := maximal
  simp only [List.length_append] at inside
  refine ⟨by simp only; omega, by simp only; omega, ?_, ?_, ?_⟩
  · intro place c lower upper here
    simp only at lower upper
    apply letters (place + (gap.length + word.length)) c (by omega) (by omega)
    rw [getElem?_rest (by omega), Nat.add_sub_cancel, here]
  · intro c positive here
    simp only at positive here
    apply before c (by omega)
    rw [getElem?_rest (by omega), Nat.sub_right_comm, here]
  · intro c here
    apply ends c
    rw [getElem?_rest (by omega), here]

/-- The rest begins with a delimiter, so its runs do not touch the word. -/
theorem FirstWord.apart (first : FirstWord gap word rest) (maximal : MaximalRun rest run) :
    0 < run.1 := by
  by_contra touching
  have none : run.1 = 0 := by omega
  refine maximal.not_delimiter (Nat.le_refl _) maximal.nonempty fun c here => first.ends c ?_
  rwa [List.head?_eq_getElem?, ← none]

/-- The place of a run of the rest in the whole text. -/
def shiftRun (offset : ℕ) (run : ℕ × ℕ) : ℕ × ℕ := (run.1 + offset, run.2 + offset)

theorem FirstWord.maximal_rest (first : FirstWord gap word rest) (maximal : MaximalRun rest run) :
    MaximalRun (gap ++ (word ++ rest)) (shiftRun (gap.length + word.length) run) := by
  have apart := first.apart maximal
  rw [shiftRun]
  obtain ⟨nonempty, inside, letters, before, ends⟩ := maximal
  refine ⟨by simp only; omega, by simp only [List.length_append]; omega, ?_, ?_, ?_⟩
  · intro place c lower upper here
    simp only at lower upper
    rw [getElem?_rest (by omega)] at here
    exact letters _ c (by omega) (by omega) here
  · intro c positive here
    simp only at here
    rw [getElem?_rest (by omega), Nat.sub_right_comm, Nat.add_sub_cancel] at here
    exact before c apart here
  · intro c here
    simp only at here
    rw [getElem?_rest (by omega), Nat.add_sub_cancel] at here
    exact ends c here

theorem FirstWord.runsOf (first : FirstWord gap word rest) (restRuns : RunsOf rest runs) :
    RunsOf (gap ++ (word ++ rest))
      ((gap.length, gap.length + word.length) ::
        runs.map (shiftRun (gap.length + word.length))) where
  ordered := by
    refine List.pairwise_cons.mpr ⟨?_, ?_⟩
    · intro later member
      obtain ⟨run, inRest, rfl⟩ := List.mem_map.mp member
      have apart := first.apart ((restRuns.exact run).mp inRest)
      simp only [shiftRun]
      omega
    · refine List.Pairwise.map _ (fun earlier later before => ?_) restRuns.ordered
      simp only [shiftRun]
      omega
  exact := by
    intro run
    rw [List.mem_cons, List.mem_map]
    constructor
    · rintro (rfl | ⟨later, inRest, rfl⟩)
      · exact first.maximal
      · exact first.maximal_rest ((restRuns.exact later).mp inRest)
    · intro maximal
      by_cases early : run.1 < gap.length + word.length
      · exact Or.inl (first.eq_of_maximal maximal early)
      · right
        refine ⟨_, (restRuns.exact _).mpr (maximalRun_rest (Nat.le_of_not_lt early) maximal), ?_⟩
        have nonempty := maximal.nonempty
        ext
        · simp only [shiftRun]
          omega
        · simp only [shiftRun]
          omega

theorem runText_word :
    runText (gap ++ (word ++ rest)) (gap.length, gap.length + word.length) = word := by
  simp [runText]

theorem runText_shiftRun (run : ℕ × ℕ) :
    runText (gap ++ (word ++ rest)) (shiftRun (gap.length + word.length) run) =
      runText rest run := by
  have behind : (gap ++ (word ++ rest)).drop (run.1 + (gap.length + word.length)) =
      rest.drop run.1 := by
    rw [← List.append_assoc, ← List.length_append, Nat.add_comm, List.drop_length_add_append]
  rw [runText, runText, shiftRun, behind, Nat.add_sub_add_right]

/-- The tokens are the texts of the maximal runs. -/
theorem tokensOf_runs (text : List Char) :
    ∃ runs, RunsOf text runs ∧ tokensOf text = runs.map (runText text) := by
  induction length : text.length using Nat.strong_induction_on generalizing text with
  | _ size inductionHypothesis =>
      rcases gap_or_firstWord text with gaps | ⟨gap, word, rest, rfl, first⟩
      · refine ⟨[], ⟨List.Pairwise.nil, fun run => iff_of_false List.not_mem_nil ?_⟩, ?_⟩
        · intro maximal
          exact maximal.not_delimiter (Nat.le_refl _) maximal.nonempty
            fun c here => gaps c (List.mem_of_getElem? here)
        · simpa using @tokensOf_gap text [] gaps
      · have wordPos := List.length_pos_iff.mpr first.nonempty
        have shorter : rest.length < size := by
          rw [← length, List.length_append, List.length_append]
          omega
        obtain ⟨runs, restRuns, tokens⟩ := inductionHypothesis rest.length shorter rest rfl
        refine ⟨_, first.runsOf restRuns, ?_⟩
        rw [first.tokens, tokens, List.map_cons, runText_word, List.map_map]
        congr 1
        exact List.map_congr_left fun run _ => (runText_shiftRun run).symm

end Runs

/-! ## `parse_input` -/

/-- The array after a call of `parse_input`: the runs in the first slots, and the others as
they were. -/
structure StoresRuns (text : List Char) (runs : List (ℕ × ℕ)) (before after : Args) : Prop where
  all : RunsOf text runs
  stored : ∀ (slot : Fin argsSize) run, runs[slot.val]? = some run →
    after slot = some (runText text run) ∧ runText text run ≠ []
  unchanged : ∀ slot : Fin argsSize, runs.length ≤ slot → after slot = before slot

/-- `parse_input` stores the maximal runs of a command and stays within the array, whose last
slot it does not use. -/
theorem parseInput_stores_runs (args : Args) (text : List Char) (short : text.length ≤ maxLine) :
    ∃ runs after, parseInput args text = .ok (runs.length, after) ∧
      StoresRuns text runs args after ∧
      runs.length ≤ (text.length + 1) / 2 ∧ (text.length + 1) / 2 ≤ maxLine / 2 := by
  obtain ⟨runs, all, tokens⟩ := tokensOf_runs text
  have number : (tokensOf text).length = runs.length := by rw [tokens, List.length_map]
  have bound := length_tokensOf text
  have fits : (tokensOf text).length ≤ argsSize := by
    simp only [argsSize]
    omega
  refine ⟨runs, laid args runs.length (tokensOf text), ?_, ⟨all, ?_, ?_⟩, by omega, ?_⟩
  · rw [parseInput_ok args fits, number]
  · intro slot run here
    have inside := (List.getElem?_eq_some_iff.mp here).1
    have stored : (tokensOf text)[slot.val]? = some (runText text run) := by
      rw [tokens, List.getElem?_map, here, Option.map_some]
    exact ⟨by rw [laid, if_pos inside, stored],
      ne_nil_of_mem_tokensOf (List.mem_of_getElem? stored)⟩
  · intro slot behind
    rw [laid, if_neg (Nat.not_lt.mpr behind)]
  · simp only [maxLine] at *
    omega

theorem parseInput_stores_runs_demo :
    ∃ runs after, parseInput initArgs ['l', 's', ' ', '-', 'l', '\n'] = .ok (runs.length, after) ∧
      StoresRuns ['l', 's', ' ', '-', 'l', '\n'] runs initArgs after ∧ runs.length ≤ 3 ∧ 3 ≤ 40 :=
  parseInput_stores_runs initArgs ['l', 's', ' ', '-', 'l', '\n'] (by decide)

end OsProjects.Shell
