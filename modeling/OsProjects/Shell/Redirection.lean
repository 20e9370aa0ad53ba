import OsProjects.C.Iteration
import OsProjects.Shell.Children
import OsProjects.Shell.Leftovers

/-!
Owns what `check_redirection` finds in a command and what it leaves in the array, and which
files `redirect_io` opens for the flag.

The loops are followed on the slots of the array that belong to the command, with the one
behind them. The result is stated for the tokens: the first two redirections are taken out,
with an indicator at the end that has no file, and a later file for a stream replaces an
earlier one.

Does not own the outcome of the calls.
-/

namespace OsProjects.Shell

open OsProjects.C

/-! ## Slots of the array -/

/-- The slots from `base` on hold the values. -/
def Window {slots : ℕ} (args : Fin slots → Option Token) (base : ℕ)
    (values : List (Option Token)) : Prop :=
  ∀ i value, values[i]? = some value → read args (base + i : ℕ) = .ok value

section Window

variable {slots : ℕ} {args : Fin slots → Option Token} {base : ℕ}
variable {front behind : List (Option Token)} {value : Option Token}

theorem Window.read (window : Window args base (front ++ value :: behind)) :
    read args (base + front.length : ℕ) = .ok value :=
  window front.length value (by simp)

theorem Window.left (window : Window args base (front ++ behind)) : Window args base front := by
  intro i value here
  refine window i value ?_
  rw [List.getElem?_append_left (List.getElem?_eq_some_iff.mp here).1, here]

theorem Window.length_le {values : List (Option Token)} (window : Window args base values) :
    values.length ≤ slots := by
  cases values using List.reverseRecOn with
  | nil => exact Nat.zero_le _
  | append_singleton front last =>
      have below := lt_of_read window.read
      rw [List.length_append, List.length_singleton]
      omega

theorem Window.write (window : Window args base (front ++ value :: behind)) (new : Option Token) :
    ∃ after, write args (base + front.length : ℕ) new = .ok after ∧
      Window after base (front ++ new :: behind) := by
  have below := lt_of_read window.read
  refine ⟨_, write_natCast args below new, fun i other here => ?_⟩
  rw [read_update]
  by_cases same : i = front.length
  · rw [if_pos (by omega)]
    simpa [same] using here
  · rw [if_neg (by omega)]
    refine window i other ?_
    have replaced : front ++ new :: behind = (front ++ value :: behind).set front.length new := by
      simp
    rwa [replaced, List.getElem?_set_ne (Ne.symm same)] at here

end Window

/-! ## The second loop -/

section Remove

variable {slots base size : ℕ}

/-- What is behind `pos` moves one slot to the left. -/
theorem shift_loop {removed : Option Token} :
    ∀ {behind front : List (Option Token)} {args : Fin slots → Option Token} {fuel : ℕ},
      Window args base (front ++ removed :: behind) → front.length + behind.length = size →
      behind.length ≤ fuel →
      ∃ after, whileLoop (·.pos ≠ size) (shiftBody base) fuel ⟨front.length, args⟩ =
          .ok (.next ⟨size, after⟩) ∧
        Window after base (front ++ behind) := by
  intro behind
  induction behind generalizing removed with
  | nil =>
      intro front args fuel window reached _
      have last : front.length = size := reached
      exact ⟨args, by rw [last, whileLoop_of_stop (by simp)], by simpa using window.left⟩
  | cons next behind inductionHypothesis =>
      intro front args fuel window reached enough
      rw [List.length_cons] at reached enough
      obtain ⟨fuel, rfl⟩ := Nat.exists_eq_add_one.mpr (Nat.zero_lt_of_lt enough)
      have follows : read args (base + front.length + 1 : ℕ) = .ok next := by
        have shifted : Window args base ((front ++ [removed]) ++ next :: behind) := by
          simpa using window
        simpa [Nat.add_assoc] using shifted.read
      obtain ⟨written, write, moved⟩ := window.write next
      have iteration : Iterates (ρ := Shifting slots) (·.pos ≠ size) (shiftBody base)
          ⟨front.length, args⟩ ⟨front.length + 1, written⟩ := by
        refine ⟨by simp; omega, ?_⟩
        simp only [shiftBody, follows, write, ok_bind, pure_eq_ok]
      have moved : Window written base ((front ++ [next]) ++ next :: behind) := by
        simpa using moved
      obtain ⟨after, run, result⟩ := inductionHypothesis moved
        (by rw [List.length_append, List.length_singleton]; omega) (Nat.le_of_succ_le_succ enough)
      refine ⟨after, ?_, by simpa using result⟩
      rw [iteration.whileLoop_succ]
      simpa using run

/-- The second loop takes the slots at the indices out of the front part of the array. -/
def Removes (slots base : ℕ) (toRemove : List ℕ) (front kept : List (Option Token)) : Prop :=
  ∀ (args : Fin slots → Option Token) behind size, Window args base (front ++ behind) →
    front.length + behind.length = size + 1 → behind ≠ [] →
    ∃ after, toRemove.foldrM (removeAt base) (args, size) =
        .ok (after, kept.length + behind.length - 1) ∧
      Window after base (kept ++ behind)

variable {toRemove : List ℕ} {front kept : List (Option Token)}

theorem Removes.nil : Removes slots base [] [] [] := by
  intro args behind size window total _
  refine ⟨args, ?_, window⟩
  have same : size = behind.length - 1 := by
    rw [List.length_nil] at total
    omega
  simp [same]

theorem Removes.keep (removes : Removes slots base toRemove front kept)
    (more : List (Option Token)) : Removes slots base toRemove (front ++ more) (kept ++ more) := by
  intro args behind size window total nonempty
  rw [List.append_assoc] at window
  rw [List.length_append, Nat.add_assoc, ← List.length_append] at total
  obtain ⟨after, run, result⟩ :=
    removes args (more ++ behind) size window total (by simp [nonempty])
  refine ⟨after, ?_, by rwa [List.append_assoc]⟩
  rw [run, List.length_append, List.length_append, Nat.add_assoc]

theorem Removes.remove (removes : Removes slots base toRemove front kept)
    (removed : Option Token) :
    Removes slots base (toRemove ++ [front.length]) (front ++ [removed]) kept := by
  intro args behind size window total nonempty
  have positive := List.length_pos_of_ne_nil nonempty
  rw [List.length_append, List.length_singleton] at total
  rw [List.append_assoc, List.singleton_append] at window
  have enough : behind.length ≤ slots := by
    have fits := window.length_le
    simp only [List.length_append, List.length_cons] at fits
    omega
  obtain ⟨shifted, loop, moved⟩ := shift_loop window (show _ = size by omega) enough
  have one : removeAt base front.length (args, size) = .ok (shifted, size - 1) := by
    simp only [removeAt, loop, ok_bind, pure_eq_ok, LoopStep.state]
  obtain ⟨after, run, result⟩ := removes shifted behind (size - 1) moved (by omega) nonempty
  refine ⟨after, ?_, result⟩
  rw [List.foldrM_append]
  simp only [List.foldrM_cons, List.foldrM_nil, pure_eq_ok, ok_bind, one, run]

end Remove

/-! ## The redirections of a command -/

/-- The words of a command without its redirections, and the files. -/
structure Redirected where
  words : List Token
  files : Files

/-- The files that are known first, and the others as they were before. -/
def Files.orElse (first before : Files) : Files where
  input := first.input.or before.input
  output := first.output.or before.output

def Files.one (direction : Direction) (file : Token) : Files :=
  Files.unassigned.assign (some file) direction

/-- The direction of an indicator. -/
def directionOf (token : Token) : Option Direction :=
  if token = ['<'] then some .input else if token = ['>'] then some .output else none

/-- The first redirections of a command, `pairs` at most, taken out of it. -/
def redirected : ℕ → List Token → Redirected
  | 0, tokens => ⟨tokens, .unassigned⟩
  | _ + 1, [] => ⟨[], .unassigned⟩
  | pairs + 1, token :: rest =>
      match directionOf token with
      | none =>
          let later := redirected (pairs + 1) rest
          { later with words := token :: later.words }
      | some direction =>
          match rest with
          | [] => ⟨[], .unassigned⟩
          | file :: rest =>
              let later := redirected pairs rest
              { later with files := later.files.orElse (.one direction file) }

/-- The IO flag for the files that are there. -/
def flagOf (files : Files) : UInt32 :=
  flagBits files.input.isSome files.output.isSome
where
  flagBits (input output : Bool) : UInt32 :=
    (if input then 1 else 0) ||| (if output then 2 else 0)

/-! ## The first loop -/

section Scan

variable {slots : ℕ} {args : Fin slots → Option Token} {base pairs : ℕ}
variable {s : Scanning} {token : Token} {direction : Direction}
variable {front kept rest tokens : List Token} {behind : List (Option Token)}

theorem flagOf_assign (files : Files) (file : Token) (direction : Direction) :
    flagOf (files.assign (some file) direction) = flagOf files ||| direction.bit := by
  have input : ∀ input output,
      flagOf.flagBits true output = flagOf.flagBits input output ||| 1 := by decide
  have output : ∀ input output,
      flagOf.flagBits input true = flagOf.flagBits input output ||| 2 := by decide
  cases direction with
  | input => exact input _ _
  | output => exact output _ _

theorem orElse_one (files later : Files) (file : Token) (direction : Direction) :
    (later.orElse (.one direction file)).orElse files =
      later.orElse (files.assign (some file) direction) := by
  cases direction with
  | input => simp [Files.orElse, Files.one, Files.unassigned, Files.assign]
  | output => simp [Files.orElse, Files.one, Files.unassigned, Files.assign]

/-- What holds before an iteration: the tokens `front` are done, and `pairs` redirections may
follow. -/
structure Scanned (slots base : ℕ) (front kept : List Token) (pairs : ℕ) (s : Scanning) : Prop where
  place : s.i = front.length
  budget : s.toRemove.length + 2 * pairs = 4
  flag : s.flag = flagOf s.files
  removes : Removes slots base s.toRemove (front.map some) (kept.map some)

/-- The token at the place of the loop. -/
theorem Scanned.stored (scanned : Scanned slots base front kept pairs s)
    (window : Window args base (tokens.map some ++ behind))
    (split : front ++ token :: rest = tokens) :
    read args (base + s.i : ℕ) = .ok (some token) := by
  have here : Window args base (front.map some ++ some token :: (rest.map some ++ behind)) := by
    simpa [← split] using window
  simpa [scanned.place] using here.read

theorem Scanned.continues (scanned : Scanned slots base front kept pairs s)
    (split : front ++ token :: rest = tokens) : decide (s.i ≠ tokens.length) = true := by
  simp [scanned.place, ← split]

theorem Scanned.stops (scanned : Scanned slots base front kept pairs s) (all : front = tokens) :
    decide (s.i ≠ tokens.length) = false := by
  simp [scanned.place, all]

theorem Scanned.room (scanned : Scanned slots base front kept (pairs + 1) s) :
    s.toRemove.length < 4 := by
  have budget := scanned.budget
  omega

theorem Scanning.mark_ok (index : ℕ) (room : s.toRemove.length < 4) :
    s.mark index = .ok { s with toRemove := s.toRemove ++ [index] } := if_pos room

theorem scanBody_word (room : s.toRemove.length < 4)
    (stored : read args (base + s.i : ℕ) = .ok (some token)) (word : directionOf token = none)
    (size : ℕ) : scanBody args base size s = .ok (.next { s with i := s.i + 1 }) := by
  have notInput : token ≠ ['<'] := fun same => by simp [directionOf, same] at word
  have notOutput : token ≠ ['>'] := fun same => by simp [directionOf, same] at word
  simp only [scanBody, if_neg (Nat.not_le.mpr room), stored, ok_bind, if_neg notInput,
    if_neg notOutput, pure_eq_ok]

theorem scanBody_indicator (room : s.toRemove.length < 4)
    (stored : read args (base + s.i : ℕ) = .ok (some token))
    (indicator : directionOf token = some direction) (size : ℕ) :
    scanBody args base size s = indicatorBranch direction args base size s := by
  simp only [scanBody, if_neg (Nat.not_le.mpr room), stored, ok_bind]
  by_cases input : token = ['<']
  · rw [directionOf, if_pos input] at indicator
    obtain rfl := Option.some.inj indicator
    rw [if_pos input]
  · by_cases output : token = ['>']
    · rw [directionOf, if_neg input, if_pos output] at indicator
      obtain rfl := Option.some.inj indicator
      rw [if_neg input, if_pos output]
    · rw [directionOf, if_neg input, if_neg output] at indicator
      cases indicator

theorem Scanned.word (scanned : Scanned slots base front kept pairs s) (token : Token) :
    Scanned slots base (front ++ [token]) (kept ++ [token]) pairs { s with i := s.i + 1 } where
  place := by simp [scanned.place]
  budget := scanned.budget
  flag := scanned.flag
  removes := by simpa using scanned.removes.keep [some token]

/-- An indicator with its file is taken out, and the file is assigned. -/
theorem Scanned.pair {file : Token} (scanned : Scanned slots base front kept (pairs + 1) s)
    (window : Window args base (tokens.map some ++ behind))
    (split : front ++ token :: file :: rest = tokens) (direction : Direction) :
    ∃ after, indicatorBranch direction args base tokens.length s = .ok (.next after) ∧
      Scanned slots base (front ++ [token, file]) kept pairs after ∧
      after.files = s.files.assign (some file) direction := by
  have place := scanned.place
  have room := scanned.room
  have budget := scanned.budget
  have notLast : s.i ≠ tokens.length - 1 := by
    rw [← split, List.length_append, List.length_cons, List.length_cons]
    omega
  have next : read args (base + s.i + 1 : ℕ) = .ok (some file) := by
    have moved : (front ++ [token]) ++ file :: rest = tokens := by simpa using split
    exact (scanned.word token).stored window moved
  refine ⟨⟨s.i + 2, s.flag ||| direction.bit, (s.toRemove ++ [s.i]) ++ [s.i + 1],
    s.files.assign (some file) direction⟩, ?_, ⟨?_, ?_, ?_, ?_⟩, rfl⟩
  · rw [indicatorBranch, Scanning.mark_ok s.i room]
    simp only [ok_bind, if_neg notLast, next]
    rw [Scanning.mark_ok _ (by simp only [List.length_append, List.length_singleton]; omega)]
    rfl
  · simp [place]
  · simp only [List.length_append, List.length_singleton]
    omega
  · rw [flagOf_assign, scanned.flag]
  · have first := scanned.removes.remove (some token)
    have both := first.remove (some file)
    simpa [place] using both

/-- What the first loop has found when it ends. -/
structure Found (slots base : ℕ) (tokens kept : List Token) (files : Files) (s : Scanning) :
    Prop where
  assigned : s.files = files
  flag : s.flag = flagOf files
  removes : Removes slots base s.toRemove (tokens.map some) (kept.map some)

theorem Scanned.found (scanned : Scanned slots base front kept pairs s) (rest : List Token) :
    Found slots base (front ++ rest) (kept ++ rest) (Files.unassigned.orElse s.files) s where
  assigned := by simp [Files.orElse, Files.unassigned]
  flag := by simpa [Files.orElse, Files.unassigned] using scanned.flag
  removes := by simpa using scanned.removes.keep (rest.map some)

/-- An indicator at the end is taken out, and the loop ends. -/
theorem Scanned.last (scanned : Scanned slots base front kept (pairs + 1) s)
    (split : front ++ [token] = tokens) (direction : Direction) :
    ∃ after, indicatorBranch direction args base tokens.length s = .ok (.exit after) ∧
      Found slots base tokens kept (Files.unassigned.orElse s.files) after := by
  have last : s.i = tokens.length - 1 := by
    simp [scanned.place, ← split]
  refine ⟨{ s with toRemove := s.toRemove ++ [s.i] }, ?_, ?_, ?_, ?_⟩
  · rw [indicatorBranch, Scanning.mark_ok s.i scanned.room]
    simp only [ok_bind, if_pos last, pure_eq_ok]
  · simp [Files.orElse, Files.unassigned]
  · simpa [Files.orElse, Files.unassigned] using scanned.flag
  · simpa [scanned.place, ← split] using scanned.removes.remove (some token)

theorem Scanned.iterates_word (scanned : Scanned slots base front kept (pairs + 1) s)
    (window : Window args base (tokens.map some ++ behind))
    (split : front ++ token :: rest = tokens) (word : directionOf token = none) :
    Iterates (·.i ≠ tokens.length) (scanBody args base tokens.length) s
      { s with i := s.i + 1 } :=
  ⟨scanned.continues split, scanBody_word scanned.room (scanned.stored window split) word _⟩

theorem Scanned.iterates_pair {file : Token} (scanned : Scanned slots base front kept (pairs + 1) s)
    (window : Window args base (tokens.map some ++ behind))
    (split : front ++ token :: file :: rest = tokens)
    (indicator : directionOf token = some direction) :
    ∃ after, Iterates (·.i ≠ tokens.length) (scanBody args base tokens.length) s after ∧
      Scanned slots base (front ++ [token, file]) kept pairs after ∧
      after.files = s.files.assign (some file) direction := by
  obtain ⟨after, branch, paired⟩ := scanned.pair window split direction
  refine ⟨after, ⟨scanned.continues split, ?_⟩, paired⟩
  rw [scanBody_indicator scanned.room (scanned.stored window split) indicator, branch]

/-- From any place on, the first loop finds the redirections of what is left, as many as the
four slots still take. -/
theorem scan_loop (window : Window args base (tokens.map some ++ behind)) :
    ∀ {pairs : ℕ} {rest front kept : List Token} {s : Scanning} {fuel : ℕ},
      front ++ rest = tokens → Scanned slots base front kept pairs s → rest.length ≤ fuel →
      ∃ last, whileLoop (·.i ≠ tokens.length) (scanBody args base tokens.length) fuel s = .ok last ∧
        Found slots base tokens (kept ++ (redirected pairs rest).words)
          ((redirected pairs rest).files.orElse s.files) last.state := by
  intro pairs rest
  induction pairs, rest using redirected.induct with
  | case1 rest =>
      -- No slot is left.
      intro front kept s fuel split scanned enough
      rw [redirected]
      have found := split ▸ scanned.found rest
      cases rest with
      | nil => exact ⟨.next s, whileLoop_of_stop (scanned.stops (by simpa using split)), found⟩
      | cons token rest =>
          obtain ⟨fuel, rfl⟩ := Nat.exists_eq_add_one.mpr (Nat.zero_lt_of_lt enough)
          have full : 4 ≤ s.toRemove.length := by
            have budget := scanned.budget
            omega
          refine ⟨.exit s, whileLoop_of_exit (scanned.continues split) ?_, found⟩
          rw [scanBody, if_pos full, pure_eq_ok]
  | case2 pairs =>
      intro front kept s fuel split scanned enough
      rw [redirected]
      refine ⟨.next s, whileLoop_of_stop (scanned.stops (by simpa using split)), ?_⟩
      exact split ▸ scanned.found []
  | case3 pairs token rest word inductionHypothesis =>
      intro front kept s fuel split scanned enough
      obtain ⟨fuel, rfl⟩ := Nat.exists_eq_add_one.mpr (Nat.zero_lt_of_lt enough)
      have iteration := scanned.iterates_word window split word
      obtain ⟨last, run, found⟩ := inductionHypothesis (by simpa using split)
        (scanned.word token) (Nat.le_of_succ_le_succ enough)
      refine ⟨last, by rw [iteration.whileLoop_succ, run], ?_⟩
      rw [redirected, word]
      simpa using found
  | case4 pairs token direction indicator =>
      -- An indicator without a file
      intro front kept s fuel split scanned enough
      obtain ⟨fuel, rfl⟩ := Nat.exists_eq_add_one.mpr (Nat.zero_lt_of_lt enough)
      obtain ⟨after, branch, found⟩ := scanned.last split direction
      refine ⟨.exit after, whileLoop_of_exit (scanned.continues split) ?_, ?_⟩
      · rw [scanBody_indicator scanned.room (scanned.stored window split) indicator, branch]
      · rw [redirected, indicator, List.append_nil]
        exact found
  | case5 pairs token direction indicator file rest inductionHypothesis =>
      intro front kept s fuel split scanned enough
      obtain ⟨fuel, rfl⟩ := Nat.exists_eq_add_one.mpr (Nat.zero_lt_of_lt enough)
      obtain ⟨after, iteration, paired, assigned⟩ := scanned.iterates_pair window split indicator
      have shorter : rest.length ≤ fuel := Nat.le_of_succ_le (Nat.le_of_succ_le_succ enough)
      obtain ⟨last, run, found⟩ := inductionHypothesis (by simpa using split) paired shorter
      refine ⟨last, by rw [iteration.whileLoop_succ, run], ?_⟩
      rw [redirected, indicator]
      rw [assigned, ← orElse_one] at found
      exact found

theorem scanned_start : Scanned slots base [] [] 2 ⟨0, 0, [], .unassigned⟩ where
  place := rfl
  budget := rfl
  flag := by decide
  removes := Removes.nil

/-- `check_redirection` takes the first two redirections out of the command. The slot behind
the tokens moves along, so it stands behind the words that are left. -/
theorem checkRedirection_ok {value : Option Token}
    (window : Window args base (tokens.map some ++ [value])) :
    ∃ after, checkRedirection args base tokens.length =
        .ok ⟨flagOf (redirected 2 tokens).files, after, (redirected 2 tokens).words.length,
          (redirected 2 tokens).files⟩ ∧
      Window after base ((redirected 2 tokens).words.map some ++ [value]) := by
  obtain ⟨last, scan, found⟩ := scan_loop window rfl scanned_start (Nat.le_refl tokens.length)
  have total : (tokens.map some).length + [value].length = tokens.length + 1 := by simp
  obtain ⟨after, remove, result⟩ := found.removes args [value] _ window total (by simp)
  have assigned : last.state.files = (redirected 2 tokens).files := by
    simpa [Files.orElse, Files.unassigned] using found.assigned
  refine ⟨after, ?_, result⟩
  rw [checkRedirection, scan]
  simp only [ok_bind, remove, pure_eq_ok, found.flag, ← found.assigned, assigned]
  simp

end Scan

/-! ## `redirect_io` -/

section Open

variable {opens : Direction → Bool} {files kept : Files}

/-- All files that are there can be opened. -/
def Files.Open (files : Files) (opens : Direction → Bool) : Prop :=
  ∀ direction, (files.get direction).isSome → opens direction = true

theorem Files.open_iff {files : Files} {opens : Direction → Bool} :
    files.Open opens ↔
      (files.input.isSome → opens .input = true) ∧
        (files.output.isSome → opens .output = true) := by
  constructor
  · exact fun opened => ⟨opened .input, opened .output⟩
  · rintro ⟨input, output⟩ (_ | _)
    · exact input
    · exact output

instance (files : Files) (opens : Direction → Bool) : Decidable (files.Open opens) :=
  decidable_of_iff _ Files.open_iff.symm

/-- The files for one direction. -/
def Files.only (files : Files) : Direction → Files
  | .input => { Files.unassigned with input := files.input }
  | .output => { Files.unassigned with output := files.output }

theorem flagOf_bit (files : Files) (direction : Direction) :
    flagOf files &&& direction.bit ≠ 0 ↔ (files.get direction).isSome := by
  have input : ∀ input output, flagOf.flagBits input output &&& 1 ≠ 0 ↔ input = true := by decide
  have output : ∀ input output, flagOf.flagBits input output &&& 2 ≠ 0 ↔ output = true := by decide
  cases direction with
  | input => exact input _ _
  | output => exact output _ _

/-- A mask disables the other redirection. -/
theorem flagOf_mask (files : Files) (direction : Direction) :
    flagOf files &&& direction.bit = flagOf (files.only direction) := by
  have input : ∀ input output,
      flagOf.flagBits input output &&& 1 = flagOf.flagBits input false := by decide
  have output : ∀ input output,
      flagOf.flagBits input output &&& 2 = flagOf.flagBits false output := by decide
  cases direction with
  | input => exact input _ _
  | output => exact output _ _

/-- The files are among the others. -/
def Files.Among (kept files : Files) : Prop :=
  ∀ direction, kept.get direction = none ∨ kept.get direction = files.get direction

theorem Files.among_self (files : Files) : files.Among files := fun _ => Or.inr rfl

theorem Files.only_among (files : Files) (direction : Direction) :
    (files.only direction).Among files := by
  intro other
  cases direction <;> cases other <;> simp [Files.only, Files.get, Files.unassigned]

/-- A file that is not there need not be opened. -/
theorem redirectStream_ok {direction : Direction} (among : kept.Among files)
    (opened : (kept.get direction).isSome → opens direction = true) :
    redirectStream opens (flagOf kept) files direction = some (kept.get direction) := by
  rw [redirectStream]
  by_cases present : (kept.get direction).isSome
  · have same := (among direction).resolve_left (Option.isSome_iff_ne_none.mp present)
    rw [if_pos ((flagOf_bit kept direction).mpr present), if_pos (opened present), same]
  · rw [if_neg fun flag => present ((flagOf_bit kept direction).mp flag),
      Option.not_isSome_iff_eq_none.mp present]

theorem redirectStream_failed {direction : Direction} (present : (kept.get direction).isSome)
    (closed : ¬opens direction = true) :
    redirectStream opens (flagOf kept) files direction = none := by
  rw [redirectStream, if_pos ((flagOf_bit kept direction).mpr present), if_neg closed]

theorem redirectIo_ok (among : kept.Among files) (opened : kept.Open opens) :
    redirectIo opens (flagOf kept) files = some kept := by
  rw [redirectIo, redirectStream_ok among (opened .output),
    redirectStream_ok among (opened .input)]
  rfl

theorem redirectIo_failed (among : kept.Among files) (closed : ¬kept.Open opens) :
    redirectIo opens (flagOf kept) files = none := by
  rw [redirectIo]
  by_cases output : (kept.get .output).isSome → opens .output = true
  · rw [redirectStream_ok among output]
    have input : ¬((kept.get .input).isSome → opens .input = true) := fun input =>
      closed fun
        | .input => input
        | .output => output
    rw [Classical.not_imp] at input
    rw [redirectStream_failed input.1 input.2]
    rfl
  · rw [Classical.not_imp] at output
    rw [redirectStream_failed output.1 output.2]
    rfl

end Open

/-! ## The commands on both sides of a pipe -/

section Sides

variable {args : Args} {base number place : ℕ} {tokens : List Token} {value : Option Token}

theorem window_of_slots (room : base + tokens.length < argsSize)
    (slots : ∀ i (inside : i < tokens.length), args ⟨base + i, by omega⟩ = some tokens[i])
    (last : args ⟨base + tokens.length, room⟩ = value) :
    Window args base (tokens.map some ++ [value]) := by
  intro i other here
  have inside : i < tokens.length + 1 := by
    simpa using (List.getElem?_eq_some_iff.mp here).1
  rw [read_natCast args (show base + i < argsSize by omega)]
  by_cases before : i < tokens.length
  · rw [slots i before]
    rw [List.getElem?_append_left (by simpa using before)] at here
    simpa [before] using here
  · obtain rfl : i = tokens.length := by omega
    rw [last]
    simpa using here

/-- The slot behind a line for which `parse_input` filled `number` slots: it is `NULL` after
the removal of an argument, and otherwise as it was. -/
def slotBehind (args : Args) (number : ℕ) (tokens : List Token) : Option Token :=
  if tokens.length < number then none
  else if room : number < argsSize then args ⟨number, room⟩ else none

/-- The slot behind the first command, where `NULL` replaces a pipe. -/
def slotBehindFirst (args : Args) (number : ℕ) (tokens : List Token) : Option Token :=
  if (pipeAt tokens).isNone then slotBehind args number tokens else none

theorem slotBehind_of_null (room : number < argsSize) (ended : args ⟨number, room⟩ = none) :
    slotBehind args number tokens = none := by
  simp [slotBehind, ended]

theorem slotBehindFirst_of_null (room : number < argsSize) (ended : args ⟨number, room⟩ = none) :
    slotBehindFirst args number tokens = none := by
  simp [slotBehindFirst, slotBehind_of_null room ended]

theorem cut_end (inside : tokens.length ≤ number) (room : number < argsSize) :
    cut args number tokens ⟨tokens.length, by omega⟩ = slotBehind args number tokens := by
  rw [cut_of_ge (by exact Nat.le_refl _), slotBehind]
  by_cases shorter : tokens.length < number
  · rw [if_pos shorter, if_pos shorter]
  · have same : tokens.length = number := by omega
    simp [same, room]

/-- The first command with the slot behind it. -/
theorem window_firstCommand (args : Args) (inside : tokens.length ≤ number)
    (room : number < argsSize) :
    Window (cut args number tokens) 0
      ((firstCommand tokens).map some ++ [slotBehindFirst args number tokens]) := by
  cases pipe : pipeAt tokens with
  | some place =>
      have before := pipeAt_lt pipe
      have first : firstCommand tokens = tokens.take place := by simp [firstCommand, pipe]
      have length : (tokens.take place).length = place := by simp [before.le]
      rw [first]
      refine window_of_slots (by omega) (fun i inFirst => ?_) ?_
      · rw [cut_of_lt (by omega) inside (by omega) (by simp [pipe]; omega)]
        simp
      · simp [cut, pipe, length, slotBehindFirst]
  | none =>
      have first : firstCommand tokens = tokens := by simp [firstCommand, pipe]
      rw [first]
      refine window_of_slots (by omega) (fun i inFirst => ?_) ?_
      · rw [cut_of_lt (by omega) inside (by omega) (by simp [pipe])]
        simp
      · simpa [slotBehindFirst, pipe] using cut_end inside room

/-- The second command with the slot behind it. -/
theorem window_secondCommand (args : Args) (inside : tokens.length ≤ number)
    (room : number < argsSize) (pipe : pipeAt tokens = some place) :
    Window (cut args number tokens) (place + 1)
      ((secondCommand tokens).map some ++ [slotBehind args number tokens]) := by
  have before := pipeAt_lt pipe
  have second : secondCommand tokens = tokens.drop (place + 1) := by simp [secondCommand, pipe]
  have length : place + 1 + (tokens.drop (place + 1)).length = tokens.length := by
    simp only [List.length_drop]
    omega
  rw [second]
  refine window_of_slots (by omega) (fun i inSecond => ?_) ?_
  · rw [cut_of_lt (by omega) inside (by omega) (by simp [pipe]; omega)]
    simp
  · rw [← cut_end inside room]
    congr

end Sides

end OsProjects.Shell
