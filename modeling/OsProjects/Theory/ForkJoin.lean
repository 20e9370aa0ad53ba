import Mathlib.Data.Set.BooleanAlgebra
import Mathlib.Logic.Function.Basic
import Mathlib.Logic.Relation
import Mathlib.Order.CompletePartialOrder

/-!
Owns programs that fork two threads and wait for both: their interleaved execution on a shared
memory, their weakest preconditions, and the theorem that joins the two.

A program is the tree of its accesses. The threads of a fork take their steps in any order, one
access at a time. `wp` only looks at the order in which the first thread runs before the second.
This is sound for a program that is confined: at every fork, the two threads keep to disjoint
parts of the memory, so that they never race.

Does not own any particular program, or what an address is.
-/

namespace OsProjects.Theory

/-- A program with a result, over a memory that gives every address a value. -/
inductive Program (Error Address Value : Type) : Type → Type 1 where
  | pure {Result : Type} (result : Result) : Program Error Address Value Result
  | fail {Result : Type} (error : Error) : Program Error Address Value Result
  | read {Result : Type} (address : Address) (next : Value → Program Error Address Value Result) :
      Program Error Address Value Result
  | write {Result : Type} (address : Address) (value : Value)
      (next : Program Error Address Value Result) : Program Error Address Value Result
  /-- Goes on with any number below the bound. -/
  | choose {Result : Type} (bound : ℕ) (next : ℕ → Program Error Address Value Result) :
      Program Error Address Value Result
  /-- Runs two threads, and goes on when both have ended. -/
  | fork {Result : Type} (left right : Program Error Address Value Unit)
      (next : Program Error Address Value Result) : Program Error Address Value Result

namespace Program

variable {Error Address Value Result After : Type}

def bind : Program Error Address Value Result →
    (Result → Program Error Address Value After) → Program Error Address Value After
  | .pure result, after => after result
  | .fail error, _ => .fail error
  | .read address next, after => .read address fun value => (next value).bind after
  | .write address value next, after => .write address value (next.bind after)
  | .choose bound next, after => .choose bound fun chosen => (next chosen).bind after
  | .fork left right next, after => .fork left right (next.bind after)

instance : Monad (Program Error Address Value) where
  pure := .pure
  bind := .bind

/-! ## Loops -/

section Loops

variable {State : Type}

/-- `for(i = index; i != index + count; ++i)` -/
def forRange (body : ℕ → State → Program Error Address Value State) :
    ℕ → ℕ → State → Program Error Address Value State
  | 0, _, state => Pure.pure state
  | count + 1, index, state => do
      let state ← body index state
      forRange body count (index + 1) state

/-- `while(guard) { body }`, which fails if it would go on after as many iterations. -/
def whileWithin (exhausted : Error) (guard : State → Bool)
    (body : State → Program Error Address Value State) :
    ℕ → State → Program Error Address Value State
  | 0, state => if guard state then .fail exhausted else Pure.pure state
  | iterations + 1, state =>
      if guard state then do
        let state ← body state
        whileWithin exhausted guard body iterations state
      else
        Pure.pure state

end Loops

/-! ## Execution -/

section Execution

variable [DecidableEq Address]

/-- One step, of any of the threads that run. -/
inductive Step : {Result : Type} → Program Error Address Value Result → (Address → Value) →
    Program Error Address Value Result → (Address → Value) → Prop where
  | read {Result : Type} {address : Address} {next : Value → Program Error Address Value Result}
      {memory : Address → Value} : Step (.read address next) memory (next (memory address)) memory
  | write {Result : Type} {address : Address} {value : Value}
      {next : Program Error Address Value Result} {memory : Address → Value} :
      Step (.write address value next) memory next (Function.update memory address value)
  | choose {Result : Type} {bound chosen : ℕ} {next : ℕ → Program Error Address Value Result}
      {memory : Address → Value} (below : chosen < bound) :
      Step (.choose bound next) memory (next chosen) memory
  | left {Result : Type} {left after right : Program Error Address Value Unit}
      {next : Program Error Address Value Result} {memory changed : Address → Value}
      (step : Step left memory after changed) :
      Step (.fork left right next) memory (.fork after right next) changed
  | right {Result : Type} {left right after : Program Error Address Value Unit}
      {next : Program Error Address Value Result} {memory changed : Address → Value}
      (step : Step right memory after changed) :
      Step (.fork left right next) memory (.fork left after next) changed
  | join {Result : Type} {next : Program Error Address Value Result} {memory : Address → Value} :
      Step (.fork (.pure ()) (.pure ()) next) memory next memory

/-- A program that runs, and the memory. -/
abbrev Config (Error Address Value Result : Type) :=
  Program Error Address Value Result × (Address → Value)

/-- One step leads from one configuration to the other. -/
def Moves (before after : Config Error Address Value Result) : Prop :=
  Step before.1 before.2 after.1 after.2

/-- Some thread that runs has failed. -/
def Fails : {Result : Type} → Program Error Address Value Result → Prop
  | _, .fail _ => True
  | _, .fork left right _ => Fails left ∨ Fails right
  | _, _ => False

/-- Some thread that runs is about to access the address. -/
def Accesses : {Result : Type} → Program Error Address Value Result → Address → Prop
  | _, .read address _, place => place = address
  | _, .write address _ _, place => place = address
  | _, .fork left right _, place => Accesses left place ∨ Accesses right place
  | _, _, _ => False

/-- Two threads that run are about to access the same address. -/
def Races : {Result : Type} → Program Error Address Value Result → Prop
  | _, .fork left right _ =>
      (∃ place, Accesses left place ∧ Accesses right place) ∨ Races left ∨ Races right
  | _, _ => False

/-- Every run ends, no thread ever fails, no two threads ever race, and at the end the result and
the memory are as said. -/
structure Computes (program : Program Error Address Value Result) (memory : Address → Value)
    (post : Result → (Address → Value) → Prop) : Prop where
  terminates : Acc (fun after before => Moves before after) (program, memory)
  safe : ∀ config, Relation.ReflTransGen Moves (program, memory) config → ¬Fails config.1
  raceFree : ∀ config, Relation.ReflTransGen Moves (program, memory) config → ¬Races config.1
  ends : ∀ config, Relation.ReflTransGen Moves (program, memory) config →
    (∃ after, Moves config after) ∨ ∃ result, config.1 = .pure result ∧ post result config.2

/-- Some run ends with the result and leaves the memory. -/
def EndsIn (program : Program Error Address Value Result) (memory : Address → Value)
    (result : Result) (after : Address → Value) : Prop :=
  Relation.ReflTransGen Moves (program, memory) (.pure result, after)

section Ends

variable {program : Program Error Address Value Result} {memory : Address → Value}
variable {result : Result} {after expected : Address → Value}

theorem Computes.post {post : Result → (Address → Value) → Prop}
    (computes : Computes program memory post) (ends : EndsIn program memory result after) :
    post result after := by
  rcases computes.ends _ ends with ⟨later, step⟩ | ⟨other, same, holds⟩
  · cases step
  · cases same
    exact holds

/-- Some run comes to its end. -/
theorem Computes.exists_end {post : Result → (Address → Value) → Prop}
    (computes : Computes program memory post) :
    ∃ result after, EndsIn program memory result after ∧ post result after := by
  have onward : ∀ config, Acc (fun after before => Moves before after) config →
      Relation.ReflTransGen Moves (program, memory) config →
      ∃ result after, EndsIn program memory result after := by
    intro config ends
    induction ends with
    | intro config _ inductionHypothesis =>
        intro reaches
        rcases computes.ends config reaches with ⟨later, step⟩ | ⟨result, ended, _⟩
        · exact inductionHypothesis later step (reaches.tail step)
        · refine ⟨result, config.2, ?_⟩
          rw [EndsIn, ← ended]
          exact reaches
  obtain ⟨result, after, ends⟩ := onward _ computes.terminates .refl
  exact ⟨result, after, ends, computes.post ends⟩

/-- When only one memory meets the condition, the runs end in this one. -/
theorem Computes.endsIn_iff {program : Program Error Address Value Unit}
    {post : (Address → Value) → Prop} (computes : Computes program memory fun _ => post)
    (unique : ∀ other, post other ↔ other = expected) :
    EndsIn program memory () after ↔ after = expected := by
  constructor
  · intro ends
    exact (unique after).mp (computes.post ends)
  · rintro rfl
    obtain ⟨_, other, ends, holds⟩ := computes.exists_end
    rwa [(unique other).mp holds] at ends

end Ends

end Execution

/-! ## Weakest preconditions -/

/-- The program, run with the first thread of every fork before the second, ends and meets the
condition, whatever is chosen. -/
def wp [DecidableEq Address] : {Result : Type} → Program Error Address Value Result →
    (Result → (Address → Value) → Prop) → (Address → Value) → Prop
  | _, .pure result, post, memory => post result memory
  | _, .fail _, _, _ => False
  | _, .read address next, post, memory => wp (next (memory address)) post memory
  | _, .write address value next, post, memory =>
      wp next post (Function.update memory address value)
  | _, .choose bound next, post, memory =>
      0 < bound ∧ ∀ chosen, chosen < bound → wp (next chosen) post memory
  | _, .fork left right next, post, memory =>
      wp left (fun _ memory => wp right (fun _ memory => wp next post memory) memory) memory

/-- Every access of the program is to the part, and at every fork the two threads keep to
disjoint parts of it. -/
def Confined : {Result : Type} → Program Error Address Value Result → Set Address → Prop
  | _, .pure _, _ => True
  | _, .fail _, _ => True
  | _, .read address next, part => address ∈ part ∧ ∀ value, Confined (next value) part
  | _, .write address _ next, part => address ∈ part ∧ Confined next part
  | _, .choose bound next, part => ∀ chosen, chosen < bound → Confined (next chosen) part
  | _, .fork left right next, part =>
      (∃ leftPart rightPart, leftPart ⊆ part ∧ rightPart ⊆ part ∧ Disjoint leftPart rightPart ∧
        Confined left leftPart ∧ Confined right rightPart) ∧ Confined next part

/-! ## Rules -/

section Rules

variable {program : Program Error Address Value Result} {memory other : Address → Value}
variable {part larger : Set Address} {post weaker : Result → (Address → Value) → Prop}

theorem Confined.mono (confined : Confined program part) (subset : part ⊆ larger) :
    Confined program larger := by
  induction program generalizing part larger with
  | pure result => trivial
  | fail error => trivial
  | read address next inductionHypothesis =>
      exact ⟨subset confined.1, fun value => inductionHypothesis value (confined.2 value) subset⟩
  | write address value next inductionHypothesis =>
      exact ⟨subset confined.1, inductionHypothesis confined.2 subset⟩
  | choose bound next inductionHypothesis =>
      exact fun chosen below => inductionHypothesis chosen (confined chosen below) subset
  | fork left right next _ _ inductionHypothesis =>
      obtain ⟨⟨leftPart, rightPart, leftInside, rightInside, apart⟩, later⟩ := confined
      exact ⟨⟨leftPart, rightPart, leftInside.trans subset, rightInside.trans subset, apart⟩,
        inductionHypothesis later subset⟩

theorem Confined.bind {after : Result → Program Error Address Value After}
    (confined : Confined program part) (later : ∀ result, Confined (after result) part) :
    Confined (program >>= after) part := by
  show Confined (program.bind after) part
  induction program with
  | pure result => exact later result
  | fail error => trivial
  | read address next inductionHypothesis =>
      exact ⟨confined.1, fun value => inductionHypothesis value (confined.2 value) later⟩
  | write address value next inductionHypothesis =>
      exact ⟨confined.1, inductionHypothesis confined.2 later⟩
  | choose bound next inductionHypothesis =>
      exact fun chosen below => inductionHypothesis chosen (confined chosen below) later
  | fork left right next _ _ inductionHypothesis =>
      exact ⟨confined.1, inductionHypothesis confined.2 later⟩

variable [DecidableEq Address]

theorem wp_mono (holds : wp program post memory)
    (weaken : ∀ result memory, post result memory → weaker result memory) :
    wp program weaker memory := by
  induction program generalizing memory with
  | pure result => exact weaken result memory holds
  | fail error => exact holds
  | read address next inductionHypothesis => exact inductionHypothesis _ holds weaken
  | write address value next inductionHypothesis => exact inductionHypothesis holds weaken
  | choose bound next inductionHypothesis =>
      exact ⟨holds.1, fun chosen below => inductionHypothesis chosen (holds.2 chosen below) weaken⟩
  | fork left right next leftHypothesis rightHypothesis inductionHypothesis =>
      apply leftHypothesis holds
      intro _ between rightHolds
      exact rightHypothesis rightHolds fun _ joined later => inductionHypothesis later weaken

theorem wp_fork {left right : Program Error Address Value Unit}
    (holds : wp left (fun _ memory => wp right (fun _ memory => wp program post memory) memory)
      memory) : wp (.fork left right program) post memory :=
  holds

theorem wp_bind {after : Result → Program Error Address Value After}
    {post : After → (Address → Value) → Prop}
    (holds : wp program (fun result memory => wp (after result) post memory) memory) :
    wp (program >>= after) post memory := by
  show wp (program.bind after) post memory
  induction program generalizing memory with
  | pure result => exact holds
  | fail error => exact holds
  | read address next inductionHypothesis => exact inductionHypothesis _ holds
  | write address value next inductionHypothesis => exact inductionHypothesis holds
  | choose bound next inductionHypothesis =>
      exact ⟨holds.1, fun chosen below => inductionHypothesis chosen (holds.2 chosen below)⟩
  | fork left right next _ _ inductionHypothesis =>
      refine wp_fork (wp_mono holds fun _ between rightHolds => ?_)
      exact wp_mono rightHolds fun _ joined later => inductionHypothesis later

/-- A program that meets a condition ends in some way that meets it. -/
theorem exists_of_wp (holds : wp program post memory) : ∃ result memory, post result memory := by
  induction program generalizing memory with
  | pure result => exact ⟨result, memory, holds⟩
  | fail error => exact holds.elim
  | read address next inductionHypothesis => exact inductionHypothesis _ holds
  | write address value next inductionHypothesis => exact inductionHypothesis holds
  | choose bound next inductionHypothesis => exact inductionHypothesis 0 (holds.2 0 holds.1)
  | fork left right next leftHypothesis rightHypothesis inductionHypothesis =>
      obtain ⟨_, between, rightHolds⟩ := leftHypothesis holds
      obtain ⟨_, joined, later⟩ := rightHypothesis rightHolds
      exact inductionHypothesis later

/-- An assignment inside the part keeps two memories the same there. -/
theorem update_same (same : ∀ address ∈ part, other address = memory address) (address : Address)
    (value : Value) : ∀ place ∈ part, Function.update other address value place =
      Function.update memory address value place := by
  intro place inside
  by_cases here : place = address
  · rw [here, Function.update_self, Function.update_self]
  · rw [Function.update_of_ne here, Function.update_of_ne here, same place inside]

/-- And it changes nothing outside. -/
theorem update_elsewhere {address : Address} (inside : address ∈ part) (memory : Address → Value)
    (value : Value) : ∀ place, place ∉ part →
      Function.update memory address value place = memory place := by
  intro place outside
  apply Function.update_of_ne
  rintro rfl
  exact outside inside

/-- A confined program does the same in a memory that only differs elsewhere, and changes nothing
elsewhere. -/
theorem wp_transfer (confined : Confined program part) (holds : wp program post memory)
    (same : ∀ address ∈ part, other address = memory address) :
    wp program (fun result otherEnd => ∃ memoryEnd, post result memoryEnd ∧
      (∀ address ∈ part, otherEnd address = memoryEnd address) ∧
      (∀ address, address ∉ part → otherEnd address = other address) ∧
      ∀ address, address ∉ part → memoryEnd address = memory address) other := by
  induction program generalizing part memory other with
  | pure result => exact ⟨memory, holds, same, fun _ _ => rfl, fun _ _ => rfl⟩
  | fail error => exact holds
  | read address next inductionHypothesis =>
      have value := same address confined.1
      show wp (next (other address)) _ other
      rw [value]
      exact inductionHypothesis _ (confined.2 _) holds same
  | write address value next inductionHypothesis =>
      have otherKept := update_elsewhere confined.1 other value
      have memoryKept := update_elsewhere confined.1 memory value
      have sameAfter := update_same same address value
      apply wp_mono (inductionHypothesis confined.2 holds sameAfter)
      rintro result otherEnd ⟨memoryEnd, meets, agree, otherLater, memoryLater⟩
      refine ⟨memoryEnd, meets, agree, ?_, ?_⟩
      · intro place outside
        rw [otherLater place outside, otherKept place outside]
      · intro place outside
        rw [memoryLater place outside, memoryKept place outside]
  | choose bound next inductionHypothesis =>
      exact ⟨holds.1, fun chosen below =>
        inductionHypothesis chosen (confined chosen below) (holds.2 chosen below) same⟩
  | fork left right next leftHypothesis rightHypothesis inductionHypothesis =>
      obtain ⟨⟨leftPart, rightPart, leftInside, rightInside, _, leftConfined, rightConfined⟩,
        confinedLater⟩ := confined
      -- the first thread, then the second, then what follows: each keeps the two memories the
      -- same inside the part and leaves the rest of both alone
      refine wp_fork (wp_mono (leftHypothesis (leftConfined.mono leftInside) holds same) ?_)
      rintro _ otherBetween ⟨between, rightHolds, agreeBetween, otherFirst, memoryFirst⟩
      apply wp_mono (rightHypothesis (rightConfined.mono rightInside) rightHolds agreeBetween)
      rintro _ otherJoined ⟨joined, later, agreeJoined, otherSecond, memorySecond⟩
      apply wp_mono (inductionHypothesis confinedLater later agreeJoined)
      rintro result otherEnd ⟨memoryEnd, meets, agree, otherThird, memoryThird⟩
      refine ⟨memoryEnd, meets, agree, ?_, ?_⟩
      · intro place outside
        rw [otherThird place outside, otherSecond place outside, otherFirst place outside]
      · intro place outside
        rw [memoryThird place outside, memorySecond place outside, memoryFirst place outside]

section Loops

variable {State : Type} {exhausted : Error} {guard : State → Bool} {state : State}
variable {body : ℕ → State → Program Error Address Value State} {index : ℕ}
variable {iteration : State → Program Error Address Value State}

omit [DecidableEq Address] in
theorem Confined.forRange (confined : ∀ index state, Confined (body index state) part)
    (count index : ℕ) (state : State) : Confined (forRange body count index state) part := by
  induction count generalizing index state with
  | zero => trivial
  | succ count inductionHypothesis =>
      exact (confined index state).bind fun after => inductionHypothesis (index + 1) after

omit [DecidableEq Address] in
theorem Confined.whileWithin (confined : ∀ state, Confined (iteration state) part)
    (iterations : ℕ) (state : State) :
    Confined (whileWithin exhausted guard iteration iterations state) part := by
  induction iterations generalizing state with
  | zero =>
      rw [Program.whileWithin]
      split
      · trivial
      · trivial
  | succ iterations inductionHypothesis =>
      rw [Program.whileWithin]
      split
      · exact (confined state).bind inductionHypothesis
      · trivial

/-- A counted loop keeps what every iteration keeps. -/
theorem wp_forRange (Inv : ℕ → State → (Address → Value) → Prop) {count : ℕ}
    (steps : ∀ {i state memory}, index ≤ i → i < index + count → Inv i state memory →
      wp (body i state) (Inv (i + 1)) memory)
    (inv : Inv index state memory) :
    wp (forRange body count index state) (Inv (index + count)) memory := by
  induction count generalizing index state memory with
  | zero => exact inv
  | succ count inductionHypothesis =>
      refine wp_bind (wp_mono (steps (Nat.le_refl _) (by omega) inv) fun after changed inv => ?_)
      rw [show index + (count + 1) = index + 1 + count by omega]
      exact inductionHypothesis (fun lower upper => steps (by omega) (by omega)) inv

/-- A loop ends within as many iterations as a measure says that every iteration lowers. -/
theorem wp_whileWithin (Inv : State → (Address → Value) → Prop) (measure : State → ℕ)
    (steps : ∀ {state memory}, Inv state memory → guard state = true →
      wp (iteration state) (fun after changed => Inv after changed ∧
        measure after < measure state) memory)
    (inv : Inv state memory) {iterations : ℕ} (enough : measure state ≤ iterations) :
    wp (whileWithin exhausted guard iteration iterations state)
      (fun after changed => Inv after changed ∧ guard after = false) memory := by
  induction iterations generalizing state memory with
  | zero =>
      rw [whileWithin]
      split
      · rename_i goesOn
        obtain ⟨after, _, _, lower⟩ := exists_of_wp (steps inv goesOn)
        omega
      · rename_i stops
        exact ⟨inv, Bool.eq_false_iff.mpr stops⟩
  | succ iterations inductionHypothesis =>
      rw [whileWithin]
      split
      · rename_i goesOn
        refine wp_bind (wp_mono (steps inv goesOn) ?_)
        rintro after changed ⟨kept, lower⟩
        exact inductionHypothesis kept (by omega)
      · rename_i stops
        exact ⟨inv, Bool.eq_false_iff.mpr stops⟩

end Loops

end Rules

/-! ## The order of the steps does not matter -/

section Adequacy

variable [DecidableEq Address] {program after : Program Error Address Value Result}
variable {memory changed other : Address → Value} {part : Set Address}
variable {post : Result → (Address → Value) → Prop}

/-- A step of a confined program stays in its part. -/
theorem Step.confined (step : Step program memory after changed)
    (confined : Confined program part) :
    Confined after part ∧ ∀ address, address ∉ part → changed address = memory address := by
  induction step generalizing part with
  | read => exact ⟨confined.2 _, fun _ _ => rfl⟩
  | write => exact ⟨confined.2, update_elsewhere confined.1 _ _⟩
  | choose below => exact ⟨confined _ below, fun _ _ => rfl⟩
  | left step inductionHypothesis =>
      obtain ⟨⟨leftPart, rightPart, leftInside, rightInside, apart, leftConfined, rightConfined⟩,
        later⟩ := confined
      obtain ⟨afterConfined, kept⟩ := inductionHypothesis leftConfined
      exact ⟨⟨⟨leftPart, rightPart, leftInside, rightInside, apart, afterConfined, rightConfined⟩,
        later⟩, fun place outside => kept place fun inside => outside (leftInside inside)⟩
  | right step inductionHypothesis =>
      obtain ⟨⟨leftPart, rightPart, leftInside, rightInside, apart, leftConfined, rightConfined⟩,
        later⟩ := confined
      obtain ⟨afterConfined, kept⟩ := inductionHypothesis rightConfined
      exact ⟨⟨⟨leftPart, rightPart, leftInside, rightInside, apart, leftConfined, afterConfined⟩,
        later⟩, fun place outside => kept place fun inside => outside (rightInside inside)⟩
  | join => exact ⟨confined.2, fun _ _ => rfl⟩

/-- The step can be taken in any memory that is the same inside the part. -/
theorem Step.transfer (step : Step program memory after changed)
    (confined : Confined program part) (same : ∀ address ∈ part, other address = memory address) :
    ∃ otherChanged, Step program other after otherChanged ∧
      (∀ address ∈ part, otherChanged address = changed address) ∧
      ∀ address, address ∉ part → otherChanged address = other address := by
  induction step generalizing part other with
  | @read _ address next memory =>
      refine ⟨other, ?_, same, fun _ _ => rfl⟩
      rw [← same address confined.1]
      exact .read
  | @write _ address value next memory =>
      exact ⟨Function.update other address value, .write, update_same same address value,
        update_elsewhere confined.1 other value⟩
  | choose below => exact ⟨other, .choose below, same, fun _ _ => rfl⟩
  | left step inductionHypothesis =>
      obtain ⟨⟨leftPart, rightPart, leftInside, _, _, leftConfined, _⟩, _⟩ := confined
      obtain ⟨otherChanged, taken, agree, kept⟩ :=
        inductionHypothesis (leftConfined.mono leftInside) same
      exact ⟨otherChanged, .left taken, agree, kept⟩
  | right step inductionHypothesis =>
      obtain ⟨⟨leftPart, rightPart, _, rightInside, _, _, rightConfined⟩, _⟩ := confined
      obtain ⟨otherChanged, taken, agree, kept⟩ :=
        inductionHypothesis (rightConfined.mono rightInside) same
      exact ⟨otherChanged, .right taken, agree, kept⟩
  | join => exact ⟨other, .join, same, fun _ _ => rfl⟩

/-- Every step of every thread keeps the weakest precondition. -/
theorem wp_step (confined : Confined program part) (holds : wp program post memory)
    (step : Step program memory after changed) : wp after post changed := by
  induction program generalizing part memory changed with
  | pure result => cases step
  | fail error => cases step
  | read address next _ =>
      cases step
      exact holds
  | write address value next _ =>
      cases step
      exact holds
  | choose bound next _ =>
      cases step with
      | choose below => exact holds.2 _ below
  | fork left right next leftHypothesis rightHypothesis _ =>
      obtain ⟨⟨leftPart, rightPart, _, _, apart, leftConfined, rightConfined⟩, _⟩ := confined
      cases step with
      | left step => exact leftHypothesis leftConfined holds step
      | join => exact holds
      | @right _ _ _ rightAfter _ _ _ step =>
          have kept := (step.confined rightConfined).2
          -- the first thread runs as if the second had not yet taken the step
          have same : ∀ place ∈ leftPart, changed place = memory place := fun place inside =>
            kept place fun insideToo => Set.disjoint_left.mp apart inside insideToo
          refine wp_fork (wp_mono (wp_transfer leftConfined holds same) ?_)
          rintro _ changedBetween ⟨between, rightHolds, agree, changedKept, betweenKept⟩
          -- and the second takes the step after the first
          have untouched : ∀ place ∈ rightPart, between place = memory place :=
            fun place inside => betweenKept place fun insideToo =>
              Set.disjoint_left.mp apart insideToo inside
          obtain ⟨betweenChanged, taken, agreeToo, keptToo⟩ :=
            step.transfer rightConfined untouched
          have equal : betweenChanged = changedBetween := by
            funext place
            by_cases insideRight : place ∈ rightPart
            · have outsideLeft : place ∉ leftPart := fun insideLeft =>
                Set.disjoint_left.mp apart insideLeft insideRight
              rw [agreeToo place insideRight, changedKept place outsideLeft]
            · by_cases insideLeft : place ∈ leftPart
              · rw [keptToo place insideRight, agree place insideLeft]
              · rw [keptToo place insideRight, betweenKept place insideLeft,
                  changedKept place insideLeft, kept place insideRight]
          rw [← equal]
          exact rightHypothesis rightConfined rightHolds taken

omit [DecidableEq Address] in
theorem Confined.accesses (confined : Confined program part) {place : Address}
    (accesses : Accesses program place) : place ∈ part := by
  induction program generalizing part with
  | pure result => exact accesses.elim
  | fail error => exact accesses.elim
  | read address next _ =>
      cases accesses
      exact confined.1
  | write address value next _ =>
      cases accesses
      exact confined.1
  | choose bound next _ => exact accesses.elim
  | fork left right next leftHypothesis rightHypothesis _ =>
      obtain ⟨⟨leftPart, rightPart, leftInside, rightInside, _, leftConfined, rightConfined⟩, _⟩ :=
        confined
      rcases accesses with first | second
      · exact leftInside (leftHypothesis leftConfined first)
      · exact rightInside (rightHypothesis rightConfined second)

omit [DecidableEq Address] in
theorem Confined.not_races (confined : Confined program part) : ¬Races program := by
  induction program generalizing part with
  | pure result => exact id
  | fail error => exact id
  | read address next _ => exact id
  | write address value next _ => exact id
  | choose bound next _ => exact id
  | fork left right next leftHypothesis rightHypothesis _ =>
      obtain ⟨⟨leftPart, rightPart, _, _, apart, leftConfined, rightConfined⟩, _⟩ := confined
      rintro (⟨place, first, second⟩ | races | races)
      · exact Set.disjoint_left.mp apart (leftConfined.accesses first)
          (rightConfined.accesses second)
      · exact leftHypothesis leftConfined races
      · exact rightHypothesis rightConfined races

/-- A step can turn one program into the other, in some memory. -/
def Precedes (after before : Program Error Address Value Result) : Prop :=
  ∃ memory changed, Step before memory after changed

theorem not_fails_of_wp (holds : wp program post memory) : ¬Fails program := by
  induction program generalizing memory with
  | pure result => exact id
  | fail error => exact holds.elim
  | read address next inductionHypothesis => exact id
  | write address value next inductionHypothesis => exact id
  | choose bound next inductionHypothesis => exact id
  | fork left right next leftHypothesis rightHypothesis inductionHypothesis =>
      have leftHolds : wp left (fun _ memory => wp right (fun _ memory => wp next post memory)
        memory) memory := holds
      obtain ⟨_, between, rightHolds⟩ := exists_of_wp leftHolds
      rintro (failed | failed)
      · exact leftHypothesis leftHolds failed
      · exact rightHypothesis rightHolds failed

/-- A program that meets a condition has ended or can take a step. -/
theorem step_of_wp (holds : wp program post memory) :
    (∃ after changed, Step program memory after changed) ∨
      ∃ result, program = .pure result ∧ post result memory := by
  induction program generalizing memory with
  | pure result => exact Or.inr ⟨result, rfl, holds⟩
  | fail error => exact holds.elim
  | read address next inductionHypothesis => exact Or.inl ⟨_, _, .read⟩
  | write address value next inductionHypothesis => exact Or.inl ⟨_, _, .write⟩
  | choose bound next inductionHypothesis => exact Or.inl ⟨_, _, .choose holds.1⟩
  | fork left right next leftHypothesis rightHypothesis inductionHypothesis =>
      left
      rcases leftHypothesis holds with ⟨after, changed, step⟩ | ⟨_, rfl, rightHolds⟩
      · exact ⟨_, _, .left step⟩
      · rcases rightHypothesis rightHolds with ⟨after, changed, step⟩ | ⟨_, rfl, _⟩
        · exact ⟨_, _, .right step⟩
        · exact ⟨_, _, .join⟩

/-- A fork ends when its threads do, whatever the order of their steps. -/
theorem acc_fork {left right : Program Error Address Value Unit}
    {next : Program Error Address Value Result} (leftEnds : Acc Precedes left)
    (rightEnds : Acc Precedes right) (nextEnds : Acc Precedes next) :
    Acc Precedes (.fork left right next) := by
  induction leftEnds generalizing right with
  | intro left _ leftHypothesis =>
      induction rightEnds with
      | intro right rightSteps rightHypothesis =>
          refine ⟨_, ?_⟩
          rintro after ⟨memory, changed, step⟩
          cases step with
          | left step => exact leftHypothesis _ ⟨_, _, step⟩ ⟨_, rightSteps⟩
          | right step => exact rightHypothesis _ ⟨_, _, step⟩
          | join => exact nextEnds

theorem acc_precedes (program : Program Error Address Value Result) : Acc Precedes program := by
  induction program with
  | pure result =>
      refine ⟨_, ?_⟩
      rintro after ⟨memory, changed, step⟩
      cases step
  | fail error =>
      refine ⟨_, ?_⟩
      rintro after ⟨memory, changed, step⟩
      cases step
  | read address next inductionHypothesis =>
      refine ⟨_, ?_⟩
      rintro after ⟨memory, changed, step⟩
      cases step
      exact inductionHypothesis _
  | write address value next inductionHypothesis =>
      refine ⟨_, ?_⟩
      rintro after ⟨memory, changed, step⟩
      cases step
      exact inductionHypothesis
  | choose bound next inductionHypothesis =>
      refine ⟨_, ?_⟩
      rintro after ⟨memory, changed, step⟩
      cases step
      exact inductionHypothesis _
  | fork left right next leftEnds rightEnds nextEnds => exact acc_fork leftEnds rightEnds nextEnds

/-- Every run of a program ends. -/
theorem acc_moves (program : Program Error Address Value Result) (memory : Address → Value) :
    Acc (fun after before : Config Error Address Value Result => Moves before after)
      (program, memory) :=
  Subrelation.accessible (fun {_ _} moves => ⟨_, _, moves⟩)
    (InvImage.accessible Prod.fst (acc_precedes program))

theorem computes_of_wp (confined : Confined program part) (holds : wp program post memory) :
    Computes program memory post := by
  have reached : ∀ config, Relation.ReflTransGen Moves (program, memory) config →
      Confined config.1 part ∧ wp config.1 post config.2 := by
    intro config reaches
    induction reaches with
    | refl => exact ⟨confined, holds⟩
    | tail _ step inductionHypothesis =>
        obtain ⟨confinedBefore, holdsBefore⟩ := inductionHypothesis
        exact ⟨(Step.confined step confinedBefore).1, wp_step confinedBefore holdsBefore step⟩
  refine ⟨acc_moves program memory, ?_, ?_, ?_⟩
  · intro config reaches
    exact not_fails_of_wp (reached config reaches).2
  · intro config reaches
    exact (reached config reaches).1.not_races
  · intro config reaches
    rcases step_of_wp (reached config reaches).2 with ⟨after, changed, step⟩ | ended
    · exact Or.inl ⟨(after, changed), step⟩
    · exact Or.inr ended

end Adequacy

end Program

end OsProjects.Theory
