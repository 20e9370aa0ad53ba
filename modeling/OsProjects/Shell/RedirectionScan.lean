import OsProjects.Shell.Redirection

/-!
Owns the scan of `check_redirection` as a relation on tokens, apart from the array: which tokens
stay, and which pairs of an operator and a file are consumed. The call carries out this scan for
every list of tokens in an array of any length.

Does not own the commands in which a line has redirections.
-/

namespace OsProjects.Shell

open OsProjects.C

def Direction.operator : Direction → Token
  | .input => ['<']
  | .output => ['>']

/-- From left to right, with room for `room` more pairs: the tokens that are kept and the pairs
that are consumed. The scan stops when there is no room, or at an operator without a file. -/
inductive Scans : ℕ → List Token → List Token → List (Direction × Token) → Prop where
  | full (rest : List Token) : Scans 0 rest rest []
  | done (room : ℕ) : Scans (room + 1) [] [] []
  | word {room : ℕ} {token : Token} {rest kept : List Token} {consumed : List (Direction × Token)}
      (noOperator : ∀ direction : Direction, token ≠ direction.operator)
      (later : Scans (room + 1) rest kept consumed) :
      Scans (room + 1) (token :: rest) (token :: kept) consumed
  | pair {room : ℕ} {rest kept : List Token} {consumed : List (Direction × Token)}
      (direction : Direction) (file : Token) (later : Scans room rest kept consumed) :
      Scans (room + 1) (direction.operator :: file :: rest) kept ((direction, file) :: consumed)
  | lone (room : ℕ) (direction : Direction) : Scans (room + 1) [direction.operator] [] []

/-- The last file that was consumed for a direction. -/
def lastFile (direction : Direction) (consumed : List (Direction × Token)) : Option Token :=
  ((consumed.filter (·.1 = direction)).getLast?).map Prod.snd

section Scans

variable {slots base room : ℕ} {tokens kept others : List Token} {token : Token}
variable {consumed more : List (Direction × Token)} {direction : Direction}

theorem directionOf_operator (direction : Direction) :
    directionOf direction.operator = some direction := by
  cases direction with
  | input => rfl
  | output => rfl

theorem directionOf_eq_some : directionOf token = some direction ↔ token = direction.operator := by
  constructor
  · intro found
    by_cases input : token = ['<']
    · rw [directionOf, if_pos input, Option.some.injEq] at found
      rw [input, ← found, Direction.operator]
    · by_cases output : token = ['>']
      · rw [directionOf, if_neg input, if_pos output, Option.some.injEq] at found
        rw [output, ← found, Direction.operator]
      · rw [directionOf, if_neg input, if_neg output] at found
        cases found
  · rintro rfl
    exact directionOf_operator direction

theorem directionOf_eq_none :
    directionOf token = none ↔ ∀ direction : Direction, token ≠ direction.operator := by
  rw [Option.eq_none_iff_forall_ne_some]
  exact forall_congr' fun direction => not_congr directionOf_eq_some

theorem operator_injective : Function.Injective Direction.operator := by
  intro first second same
  have found := directionOf_operator first
  rw [same, directionOf_operator, Option.some.injEq] at found
  exact found.symm

/-- The tokens determine the scan. -/
theorem Scans.unique (first : Scans room tokens kept consumed)
    (second : Scans room tokens others more) : kept = others ∧ consumed = more := by
  induction first generalizing others more with
  | full rest =>
      cases second
      exact ⟨rfl, rfl⟩
  | done room =>
      cases second
      exact ⟨rfl, rfl⟩
  | word noOperator later inductionHypothesis =>
      cases second with
      | word _ laterToo =>
          obtain ⟨rfl, rfl⟩ := inductionHypothesis laterToo
          exact ⟨rfl, rfl⟩
      | pair direction => exact absurd rfl (noOperator direction)
      | lone _ direction => exact absurd rfl (noOperator direction)
  | pair direction file later inductionHypothesis =>
      generalize start : direction.operator = operator at second
      cases second with
      | word noOperator => exact absurd start.symm (noOperator direction)
      | pair other _ laterToo =>
          obtain rfl := operator_injective start
          obtain ⟨rfl, rfl⟩ := inductionHypothesis laterToo
          exact ⟨rfl, rfl⟩
  | lone room direction =>
      generalize start : direction.operator = operator at second
      cases second with
      | word noOperator => exact absurd start.symm (noOperator direction)
      | lone => exact ⟨rfl, rfl⟩

theorem lastFile_cons (pair : Direction × Token) :
    lastFile direction (pair :: consumed) =
      (lastFile direction consumed).or (lastFile direction [pair]) := by
  by_cases same : pair.1 = direction
  · rw [lastFile, List.filter_cons_of_pos (by simpa using same), List.getLast?_cons]
    cases later : lastFile direction consumed with
    | none =>
        rw [lastFile, Option.map_eq_none_iff] at later
        simp [lastFile, later, same]
    | some file =>
        obtain ⟨last, here, rfl⟩ := Option.map_eq_some_iff.mp later
        simp [here]
  · have alone : lastFile direction [pair] = none := by simp [lastFile, same]
    rw [alone, Option.or_none, lastFile, List.filter_cons_of_neg (by simpa using same), lastFile]

theorem isSome_lastFile :
    (lastFile direction consumed).isSome ↔ ∃ file, (direction, file) ∈ consumed := by
  simp [lastFile]

theorem Files.get_orElse (first before : Files) :
    (first.orElse before).get direction = (first.get direction).or (before.get direction) := by
  cases direction with
  | input => rfl
  | output => rfl

theorem Files.get_one (other : Direction) (file : Token) :
    (Files.one other file).get direction = lastFile direction [(other, file)] := by
  cases direction with
  | input => cases other with
    | input => rfl
    | output => rfl
  | output => cases other with
    | input => rfl
    | output => rfl

theorem Files.get_unassigned (direction : Direction) :
    Files.unassigned.get direction = lastFile direction [] := by
  cases direction with
  | input => rfl
  | output => rfl

/-- `redirected` carries out the scan. -/
theorem redirected_scans : ∀ (room : ℕ) (tokens : List Token),
    ∃ consumed, Scans room tokens (redirected room tokens).words consumed ∧
      ∀ direction, (redirected room tokens).files.get direction = lastFile direction consumed := by
  intro room tokens
  induction room, tokens using redirected.induct with
  | case1 rest =>
      rw [redirected]
      exact ⟨[], Scans.full rest, Files.get_unassigned⟩
  | case2 room =>
      rw [redirected]
      exact ⟨[], Scans.done room, Files.get_unassigned⟩
  | case3 room token rest word inductionHypothesis =>
      obtain ⟨consumed, scans, files⟩ := inductionHypothesis
      rw [redirected, word]
      exact ⟨consumed, scans.word (directionOf_eq_none.mp word), files⟩
  | case4 room token direction indicator =>
      obtain rfl := directionOf_eq_some.mp indicator
      rw [redirected, indicator]
      exact ⟨[], Scans.lone room direction, Files.get_unassigned⟩
  | case5 room token direction indicator file rest inductionHypothesis =>
      obtain rfl := directionOf_eq_some.mp indicator
      obtain ⟨consumed, scans, files⟩ := inductionHypothesis
      rw [redirected, indicator]
      refine ⟨(direction, file) :: consumed, scans.pair direction file, fun other => ?_⟩
      rw [Files.get_orElse, Files.get_one, files]
      exact (lastFile_cons _).symm

/-- What a call leaves behind when it has scanned the tokens: the tokens that are kept, with
`NULL` behind them, a bit of the flag for each direction with a consumed pair, and the last
file of each direction. -/
structure CarriesOut (base : ℕ) (kept : List Token) (consumed : List (Direction × Token))
    (redirection : Redirection slots) : Prop where
  size : redirection.size = kept.length
  window : Window redirection.args base (kept.map some ++ [none])
  bit : ∀ direction : Direction,
    redirection.flag &&& direction.bit ≠ 0 ↔ ∃ file, (direction, file) ∈ consumed
  file : ∀ direction, redirection.files.get direction = lastFile direction consumed

/-- `check_redirection` carries out the scan with room for two pairs, and never marks more than
the four indices that `to_remove` can hold. -/
theorem checkRedirection_scans {args : Fin slots → Option Token}
    (window : Window args base (tokens.map some ++ [none])) :
    ∃ kept consumed redirection, Scans 2 tokens kept consumed ∧
      checkRedirection args base tokens.length = .ok redirection ∧
      CarriesOut base kept consumed redirection := by
  obtain ⟨consumed, scans, files⟩ := redirected_scans 2 tokens
  obtain ⟨after, run, left⟩ := checkRedirection_ok window
  refine ⟨_, consumed, _, scans, run, rfl, left, fun direction => ?_, files⟩
  rw [flagOf_bit, files, isSome_lastFile]

/-- An array with the tokens and `NULL` behind them. -/
def argsOf (tokens : List Token) : Fin (tokens.length + 1) → Option Token :=
  fun slot => tokens[slot.val]?

theorem window_argsOf (tokens : List Token) :
    Window (argsOf tokens) 0 (tokens.map some ++ [none]) := by
  intro slot value here
  have inside : slot < tokens.length + 1 := by
    simpa using (List.getElem?_eq_some_iff.mp here).1
  rw [Nat.zero_add, read_natCast _ inside, argsOf]
  by_cases behind : slot = tokens.length
  · subst behind
    simpa [eq_comm] using here
  · have token : slot < tokens.length := by omega
    simpa [List.getElem?_append_left, token] using here

theorem checkRedirection_scans_demo :
    ∃ kept consumed redirection,
      Scans 2 [['a'], ['<'], ['<'], ['b'], ['>']] kept consumed ∧
      checkRedirection (argsOf [['a'], ['<'], ['<'], ['b'], ['>']]) 0 5 = .ok redirection ∧
      CarriesOut 0 kept consumed redirection :=
  checkRedirection_scans (window_argsOf [['a'], ['<'], ['<'], ['b'], ['>']])

end Scans

end OsProjects.Shell
