import Mathlib.Data.Nat.Find
import Mathlib.Data.Nat.Notation

/-!
Owns the outcome of executing a C statement and the counted loops of the
sources, with the rules that run them.

An execution either yields a value or stops with a `Fault`: one of the
undefined behaviours the programs can meet, a call of `exit`, or a loop that
does not end. A loop body says by `LoopStep` whether the loop goes on. The rules
take the sequence of states the iterations pass through, so a caller proves one
equation about the body and never unfolds the loop.

Does not own integers, arrays or the heap.
-/

namespace OsProjects.C

/-- The ways an execution leaves the defined behaviour of the program text. -/
inductive Fault where
  | overflow
  | outOfBounds
  | nullDereference
  | useAfterFree
  | divergence
  | exited (code : Int)
deriving DecidableEq, Repr

abbrev Outcome (α : Type) := Except Fault α

section Outcome

variable {α β : Type}

@[simp] theorem ok_bind (value : α) (next : α → Outcome β) :
    ((Except.ok value : Outcome α) >>= next) = next value := rfl

@[simp] theorem error_bind (fault : Fault) (next : α → Outcome β) :
    ((Except.error fault : Outcome α) >>= next) = .error fault := rfl

@[simp] theorem pure_eq_ok (value : α) : (pure value : Outcome α) = .ok value := rfl

theorem bind_eq_ok {first : Outcome α} {next : α → Outcome β} {result : β} :
    first >>= next = .ok result ↔ ∃ value, first = .ok value ∧ next value = .ok result := by
  cases first with
  | error fault => simp
  | ok value => simp

theorem bind_eq_error {first : Outcome α} {next : α → Outcome β} {fault : Fault} :
    first >>= next = .error fault ↔
      first = .error fault ∨ ∃ value, first = .ok value ∧ next value = .error fault := by
  cases first with
  | error other => simp
  | ok value => simp

end Outcome

/-! ## Loops -/

/-- What one iteration does: go on with a new state, or leave the loop by
`break` or `return`. -/
inductive LoopStep (result state : Type) where
  | next (state : state)
  | exit (result : result)
deriving DecidableEq, Repr

/-- The state after a loop that is left only by `break`. -/
def LoopStep.state {σ : Type} : LoopStep σ σ → σ
  | .next state => state
  | .exit state => state

section Loops

variable {ρ σ : Type}

/-- `for(i = index; i != index + count; ++i)`. -/
def forLoop (body : ℕ → σ → Outcome (LoopStep ρ σ)) : ℕ → ℕ → σ → Outcome (LoopStep ρ σ)
  | 0, _, state => .ok (.next state)
  | count + 1, index, state => do
      match ← body index state with
      | .next state => forLoop body count (index + 1) state
      | .exit result => .ok (.exit result)

/-- A counted loop that is never left early. -/
def forEach (body : ℕ → σ → Outcome σ) : ℕ → ℕ → σ → Outcome σ
  | 0, _, state => .ok state
  | count + 1, index, state => do
      let state ← body index state
      forEach body count (index + 1) state

/-- `while(i--)`, with the value of `i` on entry. The body sees `i` after the
decrement. -/
def whileDecrement (body : ℕ → σ → Outcome σ) : ℕ → σ → Outcome σ
  | 0, state => .ok state
  | index + 1, state => do
      let state ← body index state
      whileDecrement body index state

/-- `while(guard) { body }`, run for at most `fuel` iterations. A loop that would
go on after them counts as one that does not end. -/
def whileLoop (guard : σ → Bool) (body : σ → Outcome (LoopStep ρ σ)) :
    ℕ → σ → Outcome (LoopStep ρ σ)
  | 0, state => if guard state then .error .divergence else .ok (.next state)
  | fuel + 1, state =>
      if guard state then do
        match ← body state with
        | .next state => whileLoop guard body fuel state
        | .exit result => .ok (.exit result)
      else
        .ok (.next state)

@[simp] theorem forLoop_zero (body : ℕ → σ → Outcome (LoopStep ρ σ)) (index : ℕ) (state : σ) :
    forLoop body 0 index state = .ok (.next state) := rfl

theorem forLoop_of_next {body : ℕ → σ → Outcome (LoopStep ρ σ)} {index : ℕ} {state after : σ}
    (count : ℕ) (step : body index state = .ok (.next after)) :
    forLoop body (count + 1) index state = forLoop body count (index + 1) after := by
  rw [forLoop, step]
  rfl

theorem forLoop_of_exit {body : ℕ → σ → Outcome (LoopStep ρ σ)} {index : ℕ} {state : σ}
    {result : ρ} (count : ℕ) (step : body index state = .ok (.exit result)) :
    forLoop body (count + 1) index state = .ok (.exit result) := by
  rw [forLoop, step]
  rfl

theorem forLoop_of_error {body : ℕ → σ → Outcome (LoopStep ρ σ)} {index : ℕ} {state : σ}
    {fault : Fault} (count : ℕ) (step : body index state = .error fault) :
    forLoop body (count + 1) index state = .error fault := by
  rw [forLoop, step]
  rfl

/-- Iterations that all go on can be taken off the front of a loop. -/
theorem forLoop_skip {body : ℕ → σ → Outcome (LoopStep ρ σ)} (states : ℕ → σ) :
    ∀ {done : ℕ} (rest index : ℕ),
      (∀ i, index ≤ i → i < index + done →
        body i (states i) = .ok (.next (states (i + 1)))) →
      forLoop body (done + rest) index (states index) =
        forLoop body rest (index + done) (states (index + done))
  | 0, rest, index, _ => by simp
  | done + 1, rest, index, steps => by
      rw [show done + 1 + rest = done + rest + 1 by omega,
        forLoop_of_next _ (steps index (Nat.le_refl _) (by omega)),
        forLoop_skip states rest (index + 1) (fun i lower upper =>
          steps i (by omega) (by omega)),
        show index + 1 + done = index + (done + 1) by omega]

/-- A loop whose iterations all go on ends in the last state. -/
theorem forLoop_next {body : ℕ → σ → Outcome (LoopStep ρ σ)} (states : ℕ → σ) {count : ℕ}
    (steps : ∀ i, i < count → body i (states i) = .ok (.next (states (i + 1)))) :
    forLoop body count 0 (states 0) = .ok (.next (states count)) := by
  have skipped : forLoop body (count + 0) 0 (states 0) =
      forLoop body 0 (0 + count) (states (0 + count)) :=
    forLoop_skip states 0 0 (fun i _ upper => steps i (by omega))
  simpa using skipped

/-- A loop that leaves at iteration `last` yields what that iteration does. -/
theorem forLoop_exit {body : ℕ → σ → Outcome (LoopStep ρ σ)} (states : ℕ → σ)
    {count last : ℕ} {result : ρ} (below : last < count)
    (steps : ∀ i, i < last → body i (states i) = .ok (.next (states (i + 1))))
    (leaves : body last (states last) = .ok (.exit result)) :
    forLoop body count 0 (states 0) = .ok (.exit result) := by
  obtain ⟨rest, rfl⟩ : ∃ rest, count = last + (rest + 1) := ⟨count - last - 1, by omega⟩
  rw [forLoop_skip states (rest + 1) 0 (fun i _ upper => steps i (by omega)),
    Nat.zero_add, forLoop_of_exit rest leaves]

/-- A loop stops with the fault of the first iteration that has one. -/
theorem forLoop_error {body : ℕ → σ → Outcome (LoopStep ρ σ)} (states : ℕ → σ)
    {count last : ℕ} {fault : Fault} (below : last < count)
    (steps : ∀ i, i < last → body i (states i) = .ok (.next (states (i + 1))))
    (fails : body last (states last) = .error fault) :
    forLoop body count 0 (states 0) = .error fault := by
  obtain ⟨rest, rfl⟩ : ∃ rest, count = last + (rest + 1) := ⟨count - last - 1, by omega⟩
  rw [forLoop_skip states (rest + 1) 0 (fun i _ upper => steps i (by omega)),
    Nat.zero_add, forLoop_of_error rest fails]

/-- When not all iterations are good and the good ones go on, the first that is not good
decides what the loop does. -/
theorem forLoop_first {body : ℕ → σ → Outcome (LoopStep ρ σ)} (states : ℕ → σ) {count : ℕ}
    {good : Fin count → Prop}
    (steps : ∀ i, good i → body i (states i) = .ok (.next (states (i + 1))))
    (bad : ¬∀ i, good i) :
    ∃ i, ¬good i ∧ (∀ j, j < i → good j) ∧
      (∀ result, body i (states i) = .ok (.exit result) →
        forLoop body count 0 (states 0) = .ok (.exit result)) ∧
      ∀ fault, body i (states i) = .error fault →
        forLoop body count 0 (states 0) = .error fault := by
  classical
  have someBad : ∃ i, ∃ below : i < count, ¬good ⟨i, below⟩ := by
    rcases not_forall.mp bad with ⟨i, isBad⟩
    exact ⟨i, i.isLt, isBad⟩
  rcases Nat.find_spec someBad with ⟨below, isBad⟩
  have earlierGood : ∀ j : Fin count, j.val < Nat.find someBad → good j := by
    intro j earlier
    by_contra isBadToo
    exact Nat.find_min someBad earlier ⟨j.isLt, isBadToo⟩
  have earlierSteps : ∀ i, i < Nat.find someBad →
      body i (states i) = .ok (.next (states (i + 1))) := by
    intro i earlier
    exact steps ⟨i, Nat.lt_trans earlier below⟩ (earlierGood _ earlier)
  refine ⟨⟨_, below⟩, isBad, earlierGood, ?_, ?_⟩
  · intro result leaves
    exact forLoop_exit states below earlierSteps leaves
  · intro fault fails
    exact forLoop_error states below earlierSteps fails

/-- A linear search leaves the loop at the first index that passes the test, and
runs to the end when there is none. -/
theorem forLoop_search {body : ℕ → σ → Outcome (LoopStep ρ σ)} {state : σ} {count : ℕ}
    (test : Fin count → Prop) (found : Fin count → ρ)
    (passes : ∀ i, test i → body i state = .ok (.exit (found i)))
    (fails : ∀ i, ¬test i → body i state = .ok (.next state)) :
    (∃ i, test i ∧ (∀ j, j < i → ¬test j) ∧
        forLoop body count 0 state = .ok (.exit (found i))) ∨
      ((∀ i, ¬test i) ∧ forLoop body count 0 state = .ok (.next state)) := by
  by_cases none : ∀ i, ¬test i
  · right
    exact ⟨none, forLoop_next (fun _ => state) (fun i below => fails ⟨i, below⟩ (none _))⟩
  · left
    rcases forLoop_first (fun _ => state) fails none with ⟨i, passing, first, exits, _⟩
    exact ⟨i, not_not.mp passing, first, exits _ (passes i (not_not.mp passing))⟩

/-- Counting up through states that the body maps to one another. -/
theorem forEach_from {body : ℕ → σ → Outcome σ} (states : ℕ → σ) :
    ∀ (count index : ℕ),
      (∀ i, index ≤ i → i < index + count → body i (states i) = .ok (states (i + 1))) →
      forEach body count index (states index) = .ok (states (index + count))
  | 0, _, _ => rfl
  | count + 1, index, steps => by
      rw [forEach, steps index (Nat.le_refl _) (by omega), ok_bind,
        forEach_from states count (index + 1) (fun i lower upper =>
          steps i (by omega) (by omega)),
        show index + 1 + count = index + (count + 1) by omega]

theorem forEach_eq {body : ℕ → σ → Outcome σ} (states : ℕ → σ) {count : ℕ}
    (steps : ∀ i, i < count → body i (states i) = .ok (states (i + 1))) :
    forEach body count 0 (states 0) = .ok (states count) := by
  have run := forEach_from states count 0 (fun i _ upper => steps i (by omega))
  rwa [Nat.zero_add] at run

/-- The iterations of a counted loop, in two parts. -/
theorem forEach_add (body : ℕ → σ → Outcome σ) (first second index : ℕ) (state : σ) :
    forEach body (first + second) index state =
      forEach body first index state >>= forEach body second (index + first) := by
  induction first generalizing index state with
  | zero => rw [Nat.zero_add, forEach, ok_bind, Nat.add_zero]
  | succ first inductionHypothesis =>
      rw [Nat.succ_add, forEach, forEach]
      cases body index state with
      | error fault => rfl
      | ok middle =>
          simp only [ok_bind, inductionHypothesis]
          rw [Nat.add_right_comm, ← Nat.add_assoc]

theorem forEach_holds_from {body : ℕ → σ → Outcome σ} (Holds : ℕ → σ → Prop) :
    ∀ (count index : ℕ) {state : σ},
      (∀ i state, index ≤ i → i < index + count → Holds i state →
        ∃ after, body i state = .ok after ∧ Holds (i + 1) after) →
      Holds index state →
      ∃ after, forEach body count index state = .ok after ∧ Holds (index + count) after
  | 0, _, state, _, holds => ⟨state, rfl, holds⟩
  | count + 1, index, state, steps, holds => by
      obtain ⟨middle, step, holdsNext⟩ := steps index state (Nat.le_refl _) (by omega) holds
      obtain ⟨after, run, holdsAfter⟩ := forEach_holds_from Holds count (index + 1)
        (fun i state lower upper => steps i state (by omega) (by omega)) holdsNext
      refine ⟨after, ?_, by rwa [show index + (count + 1) = index + 1 + count by omega]⟩
      rw [forEach, step, ok_bind, run]

/-- Counting up, when every iteration returns and establishes what the next one needs. -/
theorem forEach_holds {body : ℕ → σ → Outcome σ} (Holds : ℕ → σ → Prop) {count : ℕ} {state : σ}
    (steps : ∀ i state, i < count → Holds i state →
      ∃ after, body i state = .ok after ∧ Holds (i + 1) after)
    (holds : Holds 0 state) :
    ∃ after, forEach body count 0 state = .ok after ∧ Holds count after := by
  obtain ⟨after, run, holdsAfter⟩ := forEach_holds_from Holds count 0
    (fun i state _ upper => steps i state (by omega)) holds
  exact ⟨after, run, by rwa [Nat.zero_add] at holdsAfter⟩

/-- What every iteration that returns keeps, the loop keeps. -/
theorem forEach_keeps {body : ℕ → σ → Outcome σ} (Inv : σ → Prop)
    (keeps : ∀ {i state after}, Inv state → body i state = .ok after → Inv after) :
    ∀ {count index : ℕ} {state after : σ}, Inv state →
      forEach body count index state = .ok after → Inv after
  | 0, _, _, _, inv, run => by
      cases run
      exact inv
  | count + 1, index, _, _, inv, run => by
      obtain ⟨_, step, rest⟩ := bind_eq_ok.mp run
      exact forEach_keeps Inv keeps (keeps inv step) rest

/-- A counted loop stops with a fault of its body. -/
theorem forEach_fails {body : ℕ → σ → Outcome σ} (Possible : Fault → Prop)
    (fails : ∀ {i state fault}, body i state = .error fault → Possible fault) :
    ∀ {count index : ℕ} {state : σ} {fault : Fault},
      forEach body count index state = .error fault → Possible fault
  | 0, _, _, _, run => by cases run
  | count + 1, index, state, fault, run => by
      rw [forEach] at run
      cases step : body index state with
      | error first =>
          rw [step] at run
          cases run
          exact fails step
      | ok after =>
          rw [step] at run
          exact forEach_fails Possible fails run

/-- Counting down through states that the body maps to one another. -/
theorem whileDecrement_eq {body : ℕ → σ → Outcome σ} (states : ℕ → σ) :
    ∀ {index : ℕ}, (∀ i, i < index → body i (states (i + 1)) = .ok (states i)) →
      whileDecrement body index (states index) = .ok (states 0)
  | 0, _ => rfl
  | index + 1, steps => by
      rw [whileDecrement, steps index (by omega), ok_bind]
      exact whileDecrement_eq states (fun i below => steps i (by omega))

/-- Counting down stops with the fault of the body at `index`, when every
iteration above it succeeds. -/
theorem whileDecrement_error {body : ℕ → σ → Outcome σ} (states : ℕ → σ) {fault : Fault}
    {index : ℕ} (fails : body index (states (index + 1)) = .error fault) :
    ∀ {start : ℕ}, index < start →
      (∀ i, index < i → i < start → body i (states (i + 1)) = .ok (states i)) →
      whileDecrement body start (states start) = .error fault
  | 0, below, _ => by omega
  | start + 1, below, steps => by
      rw [whileDecrement]
      by_cases last : index = start
      · subst last
        rw [fails]
        rfl
      · rw [steps start (by omega) (by omega), ok_bind]
        exact whileDecrement_error states fails (by omega)
          (fun i lower upper => steps i lower (by omega))

/-- A loop that works off a list ends within as many iterations as the list is
long. `Inv rest` holds while `rest` is left to do, `Post` of a result that leaves
the loop early. -/
theorem whileLoop_list {α : Type} (guard : σ → Bool) (body : σ → Outcome (LoopStep ρ σ))
    (Inv : List α → σ → Prop) (Post : ρ → Prop)
    (stops : ∀ {state}, Inv [] state → guard state = false)
    (goesOn : ∀ {item rest state}, Inv (item :: rest) state → guard state = true)
    (steps : ∀ {item rest state}, Inv (item :: rest) state →
      (∃ after, body state = .ok (.next after) ∧ Inv rest after) ∨
        ∃ result, body state = .ok (.exit result) ∧ Post result) :
    ∀ {rest : List α} {state : σ} {fuel : ℕ}, Inv rest state → rest.length ≤ fuel →
      (∃ after, whileLoop guard body fuel state = .ok (.next after) ∧ Inv [] after) ∨
        ∃ result, whileLoop guard body fuel state = .ok (.exit result) ∧ Post result := by
  intro rest
  induction rest with
  | nil =>
      intro state fuel inv _
      refine Or.inl ⟨state, ?_, inv⟩
      cases fuel with
      | zero => simp [whileLoop, stops inv]
      | succ fuel => simp [whileLoop, stops inv]
  | cons item rest inductionHypothesis =>
      intro state fuel inv enough
      cases fuel with
      | zero => simp at enough
      | succ fuel =>
          rw [whileLoop, if_pos (goesOn inv)]
          cases steps inv with
          | inl going =>
              obtain ⟨after, run, invAfter⟩ := going
              rw [run, ok_bind]
              exact inductionHypothesis invAfter (by simpa using enough)
          | inr leaving =>
              obtain ⟨result, run, post⟩ := leaving
              rw [run, ok_bind]
              exact Or.inr ⟨result, rfl, post⟩

/-- The same for a loop that is never left early. -/
theorem whileLoop_list_next {α : Type} (guard : σ → Bool) (body : σ → Outcome (LoopStep ρ σ))
    (Inv : List α → σ → Prop)
    (stops : ∀ {state}, Inv [] state → guard state = false)
    (goesOn : ∀ {item rest state}, Inv (item :: rest) state → guard state = true)
    (steps : ∀ {item rest state}, Inv (item :: rest) state →
      ∃ after, body state = .ok (.next after) ∧ Inv rest after)
    {rest : List α} {state : σ} {fuel : ℕ} (inv : Inv rest state) (enough : rest.length ≤ fuel) :
    ∃ after, whileLoop guard body fuel state = .ok (.next after) ∧ Inv [] after := by
  have run := whileLoop_list guard body Inv (fun _ => False) stops goesOn
    (fun inv => Or.inl (steps inv)) inv enough
  cases run with
  | inl ended => exact ended
  | inr left => exact left.choose_spec.2.elim

end Loops

end OsProjects.C
