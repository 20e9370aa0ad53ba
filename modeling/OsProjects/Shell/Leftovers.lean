import Mathlib.Data.List.Induction
import OsProjects.C.Iteration
import OsProjects.Shell.Tokens

/-!
Owns what `run_command` does to the array before it forks, and what `refresh_args`
then leaves in it: the tokens behind a pipe stay, those in front of it go.

Does not own the commands of a whole run.
-/

namespace OsProjects.Shell

open OsProjects.C

/-! ## `refresh_args` -/

section Refresh

variable {args : Args} {first : ℕ}

/-- The array without what its first slots held. -/
def clearedBelow (args : Args) (bound : ℕ) : Args := fun slot =>
  if slot.val < bound then none else args slot

theorem clearedBelow_zero : clearedBelow args 0 = args :=
  funext fun _ => if_neg (Nat.not_lt_zero _)

theorem clearedBelow_succ {bound : ℕ} (below : bound < argsSize) :
    Function.update (clearedBelow args bound) ⟨bound, below⟩ none =
      clearedBelow args (bound + 1) :=
  update_prefix below (fun _ _ => rfl) rfl

/-- From any slot on, the loop clears what stands before the first `NULL`. -/
theorem refresh_loop {below : first < argsSize} (empty : args ⟨first, below⟩ = none)
    (full : ∀ slot, slot.val < first → args slot ≠ none) :
    ∀ {left position fuel : ℕ}, position + left = first → left < fuel →
      whileLoop (fun _ => true) refreshBody fuel ⟨position, clearedBelow args position⟩ =
        .ok (.exit (clearedBelow args first)) := by
  intro left
  induction left with
  | zero =>
      intro position fuel reached more
      obtain ⟨fuel, rfl⟩ := Nat.exists_eq_add_one.mpr (Nat.zero_lt_of_lt more)
      obtain rfl : position = first := by omega
      have here : clearedBelow args position ⟨position, below⟩ = none := by
        simpa [clearedBelow] using empty
      simp [whileLoop, refreshBody, below, here]
  | succ left inductionHypothesis =>
      intro position fuel reached more
      obtain ⟨fuel, rfl⟩ := Nat.exists_eq_add_one.mpr (Nat.zero_lt_of_lt more)
      have inside : position < argsSize := by omega
      obtain ⟨token, present⟩ := Option.ne_none_iff_exists'.mp
        (full ⟨position, inside⟩ (show position < first by omega))
      have here : clearedBelow args position ⟨position, inside⟩ = some token := by
        simpa [clearedBelow] using present
      have iteration : Iterates (ρ := Args) (fun _ => true) refreshBody
          ⟨position, clearedBelow args position⟩
          ⟨position + 1, clearedBelow args (position + 1)⟩ := by
        refine ⟨rfl, ?_⟩
        simp [refreshBody, inside, here, clearedBelow_succ]
      rw [iteration.whileLoop_succ]
      exact inductionHypothesis (by omega) (by omega)

/-- `refresh_args` stops at the first `NULL`. -/
theorem refreshArgs_ok {below : first < argsSize} (empty : args ⟨first, below⟩ = none)
    (full : ∀ slot, slot.val < first → args slot ≠ none) :
    refreshArgs args = .ok (clearedBelow args first) := by
  have run := refresh_loop empty full (Nat.zero_add first) (show first < argsSize + 1 by omega)
  rw [clearedBelow_zero] at run
  rw [refreshArgs, run]
  rfl

theorem refreshArgs_of_empty (empty : args ⟨0, by decide⟩ = none) :
    refreshArgs args = .ok args := by
  rw [refreshArgs_ok empty fun slot before => absurd before (Nat.not_lt_zero _),
    clearedBelow_zero]

end Refresh

/-! ## `check_ampersand` -/

/-- The last token ends with `&`. -/
def inBackground (tokens : List Token) : Bool :=
  tokens.getLast?.bind List.getLast? = some '&'

/-- The tokens without the `&` at the end. -/
def afterAmpersand (tokens : List Token) : List Token :=
  if inBackground tokens then
    match tokens.getLast? with
    | some last => if last.length = 1 then tokens.dropLast else tokens.dropLast ++ [last.dropLast]
    | none => []
  else tokens

section Ampersand

variable {args : Args} {tokens : List Token}

variable {front : List Token} {last : Token}

@[simp] theorem inBackground_snoc :
    inBackground (front ++ [last]) = decide (last.getLast? = some '&') := by
  simp [inBackground]

theorem afterAmpersand_snoc : afterAmpersand (front ++ [last]) =
    if last.getLast? = some '&' then
      if last.length = 1 then front else front ++ [last.dropLast]
    else front ++ [last] := by
  simp [afterAmpersand]

theorem length_afterAmpersand_le (tokens : List Token) :
    (afterAmpersand tokens).length ≤ tokens.length := by
  cases tokens using List.reverseRecOn with
  | nil => rfl
  | append_singleton front last =>
      rw [afterAmpersand_snoc]
      split
      · split
        · simp
        · simp
      · rfl

theorem laid_replace (room : front.length < argsSize) (value : Option Token) :
    Function.update (laid args (front.length + 1) (front ++ [last])) ⟨front.length, room⟩ value =
      laid args (front.length + 1) (front ++ value.toList) := by
  rw [← laid_snoc room, Function.update_idem]
  refine update_prefix room (fun _ before => List.getElem?_append_left before) ?_
  cases value with
  | none => simp
  | some token => simp

/-- `check_ampersand` removes what it looks for from the last token. -/
theorem checkAmpersand_ok (nonempty : tokens ≠ []) (words : ∀ token ∈ tokens, token ≠ [])
    (fits : tokens.length ≤ argsSize) :
    checkAmpersand (laid args tokens.length tokens) tokens.length =
      .ok ⟨inBackground tokens, laid args tokens.length (afterAmpersand tokens),
        (afterAmpersand tokens).length⟩ := by
  cases tokens using List.reverseRecOn with
  | nil => exact absurd rfl nonempty
  | append_singleton front last =>
      have room : front.length < argsSize := by
        rw [List.length_append] at fits
        exact fits
      have place : (((front ++ [last]).length : ℕ) : Int) - 1 = (front.length : ℕ) := by
        rw [List.length_append, List.length_singleton]
        omega
      have stored : laid args (front ++ [last]).length (front ++ [last]) ⟨front.length, room⟩ =
          some last := by
        simp [laid]
      obtain ⟨c, ends⟩ := Option.ne_none_iff_exists'.mp
        (List.getLast?_eq_none_iff.not.mpr (words last (by simp)))
      rw [checkAmpersand, place, read_natCast _ room, ok_bind, stored, afterAmpersand_snoc,
        inBackground_snoc]
      simp only [ends, Option.some.injEq]
      by_cases ampersand : c = '&'
      · by_cases alone : last.length = 1
        · simp [ampersand, alone, room, laid_replace]
        · simp [ampersand, alone, room, laid_replace]
      · simp [ampersand]

end Ampersand

/-! ## `detect_pipe` -/

/-- The place of the first pipe. -/
def pipeAt (tokens : List Token) : Option ℕ := tokens.findIdx? (· = ['|'])

/-- The array after its slots got the tokens, with `NULL` for the first pipe. -/
def cut (args : Args) (number : ℕ) (tokens : List Token) : Args := fun slot =>
  if pipeAt tokens = some slot.val then none else laid args number tokens slot

section Pipe

variable {args : Args} {tokens : List Token} {number : ℕ}

theorem laid_of_lt {slot : ℕ} (here : slot < tokens.length) (inside : tokens.length ≤ number)
    (below : slot < argsSize) :
    laid args number tokens ⟨slot, below⟩ = some tokens[slot] := by
  rw [laid, if_pos (by exact Nat.lt_of_lt_of_le here inside), List.getElem?_eq_getElem here]

theorem cut_of_pipe {place : ℕ} (pipe : pipeAt tokens = some place) (below : place < argsSize) :
    Function.update (laid args number tokens) ⟨place, below⟩ none = cut args number tokens := by
  rw [Function.update_eq_iff]
  constructor
  · simp [cut, pipe]
  · intro slot elsewhere
    have other : place ≠ slot.val := fun same => elsewhere (Fin.ext same.symm)
    simp [cut, pipe, other]

theorem pipeAt_lt {place : ℕ} (pipe : pipeAt tokens = some place) : place < tokens.length :=
  (List.findIdx?_eq_some_iff_findIdx_eq.mp pipe).1

/-- The tokens in front of the first pipe. -/
def firstCommand (tokens : List Token) : List Token :=
  match pipeAt tokens with
  | some place => tokens.take place
  | none => tokens

/-- The tokens behind the first pipe. -/
def secondCommand (tokens : List Token) : List Token :=
  match pipeAt tokens with
  | some place => tokens.drop (place + 1)
  | none => []

/-- The two commands in the array that got the tokens. -/
def commandsOf (args : Args) (number : ℕ) (tokens : List Token) : Commands where
  args := cut args number tokens
  argsNum := (firstCommand tokens).length
  args2 := (pipeAt tokens).map (· + 1)
  argsNum2 := (secondCommand tokens).length

/-- `detect_pipe` writes `NULL` over the first pipe, if there is one. -/
theorem detectPipe_ok (args : Args) (inside : tokens.length ≤ number) (fits : number ≤ argsSize) :
    detectPipe (laid args number tokens) tokens.length = .ok (commandsOf args number tokens) := by
  have below : ∀ slot : Fin tokens.length, slot.val < argsSize := fun slot => by omega
  have passes : ∀ slot : Fin tokens.length, tokens[slot.val] = ['|'] →
      detectBody tokens.length slot (laid args number tokens) = .ok (.exit
        ⟨Function.update (laid args number tokens) ⟨slot, below slot⟩ none, slot,
          some (slot + 1), tokens.length - slot - 1⟩) := fun slot pipe => by
    simpa [detectBody, laid_of_lt, inside, below slot] using pipe
  have fails : ∀ slot : Fin tokens.length, ¬tokens[slot.val] = ['|'] →
      detectBody tokens.length slot (laid args number tokens) =
        .ok (.next (laid args number tokens)) := fun slot other => by
    simpa [detectBody, laid_of_lt, inside, below slot] using other
  cases forLoop_search _ _ passes fails with
  | inl found =>
      obtain ⟨place, pipe, first, run⟩ := found
      have here : pipeAt tokens = some place.val := by
        refine List.findIdx?_eq_some_iff_getElem.mpr ⟨place.isLt, by simpa using pipe, ?_⟩
        intro slot before
        simpa using first ⟨slot, by omega⟩ before
      rw [detectPipe, run, commandsOf, ← cut_of_pipe here (below place)]
      simp [firstCommand, secondCommand, here, place.isLt.le, Nat.sub_sub]
  | inr missing =>
      obtain ⟨others, run⟩ := missing
      have nowhere : pipeAt tokens = none := by
        refine List.findIdx?_eq_none_iff.mpr fun token member => ?_
        obtain ⟨slot, inList, rfl⟩ := List.getElem_of_mem member
        simpa using others ⟨slot, inList⟩
      have uncut : cut args number tokens = laid args number tokens := by
        funext slot
        simp [cut, nowhere]
      rw [detectPipe, run, commandsOf, uncut]
      simp [firstCommand, secondCommand, nowhere]

end Pipe

/-! ## What stays in the array -/

/-- Running the command leaves a pointer in the slot: a token behind the first pipe. -/
def LeftBy (tokens : List Token) (slot : ℕ) : Prop :=
  ∃ place, pipeAt (afterAmpersand tokens) = some place ∧ place < slot ∧
    slot < (afterAmpersand tokens).length

theorem not_leftBy_nil {slot : ℕ} : ¬LeftBy [] slot := by
  rintro ⟨place, _, _, inside⟩
  exact Nat.not_lt_zero slot inside

section Leftover

variable {args : Args} {tokens : List Token}

/-- `run_command` up to `fork`. -/
theorem splitCommand_eq (args : Args) (nonempty : tokens ≠ [])
    (words : ∀ token ∈ tokens, token ≠ []) (fits : tokens.length ≤ argsSize) :
    splitCommand (laid args tokens.length tokens) tokens.length =
      .ok (inBackground tokens, commandsOf args tokens.length (afterAmpersand tokens)) := by
  rw [splitCommand, checkAmpersand_ok nonempty words fits, ok_bind,
    detectPipe_ok args (length_afterAmpersand_le tokens) fits]
  rfl

/-- The array after `run_command`. -/
theorem splitCommand_ok (args : Args) (nonempty : tokens ≠ [])
    (words : ∀ token ∈ tokens, token ≠ []) (fits : tokens.length ≤ argsSize) :
    ∃ commands, splitCommand (laid args tokens.length tokens) tokens.length =
        .ok (inBackground tokens, commands) ∧
      commands.args = cut args tokens.length (afterAmpersand tokens) :=
  ⟨_, splitCommand_eq args nonempty words fits, rfl⟩

theorem cut_of_lt {number slot : ℕ} (here : slot < tokens.length)
    (inside : tokens.length ≤ number) (below : slot < argsSize)
    (noPipe : pipeAt tokens ≠ some slot) :
    cut args number tokens ⟨slot, below⟩ = some tokens[slot] := by
  rw [cut, if_neg noPipe, laid_of_lt here inside]

theorem cut_of_ge {number : ℕ} {slot : Fin argsSize}
    (behind : tokens.length ≤ slot) :
    cut args number tokens slot = if slot < number then none else args slot := by
  have noPipe : pipeAt tokens ≠ some slot.val := fun pipe => by
    have before := pipeAt_lt pipe
    omega
  rw [cut, if_neg noPipe, laid, List.getElem?_eq_none behind]

theorem leftBy_of_pipe {place : ℕ} (pipe : pipeAt (afterAmpersand tokens) = some place)
    (slot : ℕ) : LeftBy tokens slot ↔ place < slot ∧ slot < (afterAmpersand tokens).length := by
  simp [LeftBy, pipe]

theorem not_leftBy_of_noPipe (noPipe : pipeAt (afterAmpersand tokens) = none) (slot : ℕ) :
    ¬LeftBy tokens slot := by
  simp [LeftBy, noPipe]

/-- Behind the tokens, the array after `run_command` is the array before. -/
theorem isSome_behind {slot : Fin argsSize} (behind : (afterAmpersand tokens).length ≤ slot) :
    (cut args tokens.length (afterAmpersand tokens) slot).isSome ↔
      tokens.length ≤ slot ∧ (args slot).isSome := by
  rw [cut_of_ge behind]
  by_cases inside : slot.val < tokens.length
  · simp [inside]
  · simp [inside, Nat.le_of_not_lt inside]

/-- `refresh_args` clears the first command of a pipe and keeps the second. -/
theorem refreshArgs_cut (room : tokens.length < argsSize)
    (ended : args ⟨tokens.length, room⟩ = none) :
    ∃ refreshed, refreshArgs (cut args tokens.length (afterAmpersand tokens)) = .ok refreshed ∧
      ∀ slot : Fin argsSize, (refreshed slot).isSome ↔
        LeftBy tokens slot ∨ (tokens.length ≤ slot ∧ (args slot).isSome) := by
  have shorter := length_afterAmpersand_le tokens
  cases pipe : pipeAt (afterAmpersand tokens) with
  | some place =>
      have placeBelow := pipeAt_lt pipe
      have empty : cut args tokens.length (afterAmpersand tokens) ⟨place, by omega⟩ = none := by
        simp [cut, pipe]
      refine ⟨_, refreshArgs_ok empty fun slot before => ?_, fun slot => ?_⟩
      · rw [cut_of_lt (by omega) shorter slot.isLt]
        · exact Option.some_ne_none _
        · rw [pipe]
          exact fun same => (Option.some.inj same).not_gt before
      · rw [clearedBelow, leftBy_of_pipe pipe]
        by_cases behind : (afterAmpersand tokens).length ≤ slot
        · rw [if_neg (by omega), isSome_behind behind, or_iff_right (by omega)]
        · rw [or_iff_left (by omega)]
          by_cases second : place < slot
          · rw [if_neg (by omega), cut_of_lt (by omega) shorter slot.isLt (by simp [pipe]; omega)]
            simp [second, Nat.lt_of_not_le behind]
          · by_cases first : slot.val < place
            · simp [first, second]
            · obtain rfl : place = slot.val := by omega
              simp [cut, pipe]
  | none =>
      have empty : cut args tokens.length (afterAmpersand tokens)
          ⟨(afterAmpersand tokens).length, by omega⟩ = none := by
        rw [cut_of_ge (by exact Nat.le_refl _)]
        by_cases same : (afterAmpersand tokens).length = tokens.length
        · simp [same, ended]
        · rw [if_pos (by simp only; omega)]
      refine ⟨_, refreshArgs_ok empty fun slot before => ?_, fun slot => ?_⟩
      · rw [cut_of_lt before shorter slot.isLt (by simp [pipe])]
        exact Option.some_ne_none _
      · rw [clearedBelow, or_iff_right (not_leftBy_of_noPipe pipe slot)]
        by_cases before : slot.val < (afterAmpersand tokens).length
        · rw [if_pos before]
          simp only [Option.isSome_none, Bool.false_eq_true, false_iff, not_and]
          omega
        · rw [if_neg before, isSome_behind (Nat.le_of_not_lt before)]

end Leftover

end OsProjects.Shell
