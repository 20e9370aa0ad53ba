import Mathlib.Logic.Relation
import OsProjects.C.Execution

/-!
Owns the runs of a `while` loop as sequences of iterations, for loops whose number of
iterations no list gives.

Does not own the counted loops.
-/

namespace OsProjects.C

variable {ρ σ : Type} {guard : σ → Bool} {body : σ → Outcome (LoopStep ρ σ)}
variable {s after : σ} {last : LoopStep ρ σ} {fuel : ℕ}

/-- The program ends in the state, given enough fuel. -/
def Ends (program : ℕ → Outcome σ) (after : σ) : Prop :=
  ∃ enough, ∀ fuel, enough ≤ fuel → program fuel = .ok after

/-- One iteration of the loop leads from one state to the other. -/
def Iterates (guard : σ → Bool) (body : σ → Outcome (LoopStep ρ σ)) (s after : σ) : Prop :=
  guard s = true ∧ body s = .ok (.next after)

/-- Some iterations of the loop lead from one state to the other. -/
abbrev Reaches (guard : σ → Bool) (body : σ → Outcome (LoopStep ρ σ)) : σ → σ → Prop :=
  Relation.ReflTransGen (Iterates guard body)

/-- A program ends in one state only. -/
theorem Ends.unique {program : ℕ → Outcome σ} (first : Ends program s)
    (second : Ends program after) : s = after := by
  rcases first with ⟨enough, ends⟩
  rcases second with ⟨enough', ends'⟩
  have both := (ends _ (Nat.le_max_left enough enough')).symm.trans
    (ends' _ (Nat.le_max_right enough enough'))
  exact Except.ok.inj both

/-- What follows a program that ends. -/
theorem Ends.bind {τ : Type} {program : ℕ → Outcome σ} {next : σ → Outcome τ} {result : τ}
    (ends : Ends program s) (goesOn : next s = .ok result) :
    Ends (fun fuel => program fuel >>= next) result := by
  rcases ends with ⟨enough, ends⟩
  refine ⟨enough, fun fuel more => ?_⟩
  show program fuel >>= next = _
  rw [ends fuel more, ok_bind, goesOn]

theorem Iterates.whileLoop_succ (iteration : Iterates guard body s after) (fuel : ℕ) :
    whileLoop guard body (fuel + 1) s = whileLoop guard body fuel after := by
  rw [whileLoop, if_pos iteration.1, iteration.2]
  rfl

theorem whileLoop_of_stop (stops : guard s = false) :
    whileLoop guard body fuel s = .ok (.next s) := by
  cases fuel with
  | zero => simp [whileLoop, stops]
  | succ fuel => simp [whileLoop, stops]

theorem whileLoop_of_exit {result : ρ} (continues : guard s = true)
    (leaves : body s = .ok (.exit result)) :
    whileLoop guard body (fuel + 1) s = .ok (.exit result) := by
  rw [whileLoop, if_pos continues, leaves]
  rfl

/-- A loop that reaches a state where the guard fails ends there, given enough fuel. -/
theorem whileLoop_of_reaches (reaches : Reaches guard body s after)
    (stops : guard after = false) :
    Ends (fun fuel => whileLoop guard body fuel s) (.next after) := by
  induction reaches using Relation.ReflTransGen.head_induction_on with
  | refl => exact ⟨0, fun _ _ => whileLoop_of_stop stops⟩
  | head iteration _ inductionHypothesis =>
      rcases inductionHypothesis with ⟨enough, ends⟩
      refine ⟨enough + 1, fun fuel more => ?_⟩
      cases fuel with
      | zero => omega
      | succ fuel =>
          exact (iteration.whileLoop_succ fuel).trans (ends fuel (by omega))

/-- A loop whose iterations keep an invariant and lower a measure ends within as many
iterations as the measure says. -/
theorem whileLoop_decreasing {Inv : σ → Prop} (measure : σ → ℕ)
    (steps : ∀ {s}, Inv s → guard s = true →
      ∃ after, body s = .ok (.next after) ∧ Inv after ∧ measure after < measure s)
    (inv : Inv s) (enough : measure s ≤ fuel) :
    ∃ after, whileLoop guard body fuel s = .ok (.next after) ∧ Inv after ∧
      guard after = false := by
  induction fuel generalizing s with
  | zero =>
      cases goesOn : guard s with
      | true =>
          obtain ⟨after, _, _, lower⟩ := steps inv goesOn
          omega
      | false => exact ⟨s, by simp [whileLoop, goesOn], inv, goesOn⟩
  | succ fuel inductionHypothesis =>
      cases goesOn : guard s with
      | true =>
          obtain ⟨middle, step, invMiddle, lower⟩ := steps inv goesOn
          rw [Iterates.whileLoop_succ ⟨goesOn, step⟩]
          exact inductionHypothesis invMiddle (by omega)
      | false => exact ⟨s, by simp [whileLoop, goesOn], inv, goesOn⟩

/-- A loop that ends, ends from every state that it reaches. -/
theorem whileLoop_resume (reaches : Reaches guard body s after)
    (ends : whileLoop guard body fuel s = .ok last) :
    ∃ rest, whileLoop guard body rest after = .ok last := by
  induction reaches using Relation.ReflTransGen.head_induction_on generalizing fuel with
  | refl => exact ⟨fuel, ends⟩
  | head iteration _ inductionHypothesis =>
      cases fuel with
      | zero =>
          rw [whileLoop, if_pos iteration.1] at ends
          cases ends
      | succ fuel =>
          rw [iteration.whileLoop_succ] at ends
          exact inductionHypothesis ends

/-- What every iteration extends, the whole loop extends. -/
theorem whileLoop_extends {body : σ → Outcome (LoopStep σ σ)} {last : LoopStep σ σ}
    {Extends : σ → σ → Prop} (refl : ∀ s, Extends s s)
    (trans : ∀ {first second third}, Extends first second → Extends second third →
      Extends first third)
    (extend : ∀ {s step}, body s = .ok step → Extends s step.state)
    (ends : whileLoop guard body fuel s = .ok last) : Extends s last.state := by
  induction fuel generalizing s with
  | zero =>
      rw [whileLoop] at ends
      split at ends
      · cases ends
      · cases ends
        exact refl _
  | succ fuel inductionHypothesis =>
      rw [whileLoop] at ends
      split at ends
      · rcases bind_eq_ok.mp ends with ⟨step, iteration, goesOn⟩
        cases step with
        | next middle => exact trans (extend iteration) (inductionHypothesis goesOn)
        | exit result =>
            cases goesOn
            exact extend iteration
      · cases ends
        exact refl _

/-! ## Endless loops -/

/-- `while(1)` is left after finitely many iterations, and the condition holds before each of
them. -/
inductive Leaves (body : σ → Outcome (LoopStep ρ σ)) (condition : σ → Prop) : σ → Prop where
  | exit {s : σ} {result : ρ} (here : condition s) (leaves : body s = .ok (.exit result)) :
      Leaves body condition s
  | next {s after : σ} (here : condition s) (step : body s = .ok (.next after))
      (later : Leaves body condition after) : Leaves body condition s

/-! ## Loops that keep a record -/

section Erase

variable {τ : Type} {erase : τ → σ} {plain : σ → Outcome (LoopStep σ σ)}
variable {recording : τ → Outcome (LoopStep τ τ)}

def LoopStep.map (f : τ → σ) : LoopStep τ τ → LoopStep σ σ
  | .next state => .next (f state)
  | .exit state => .exit (f state)

@[simp] theorem LoopStep.state_map (f : τ → σ) (last : LoopStep τ τ) :
    (last.map f).state = f last.state := by
  cases last with
  | next state => rfl
  | exit state => rfl

/-- A loop that also keeps a record does what the loop without it does. -/
theorem whileLoop_erase (guard : σ → Bool)
    (same : ∀ t, (recording t).map (LoopStep.map erase) = plain (erase t)) :
    ∀ (fuel : ℕ) (t : τ),
      (whileLoop (fun t => guard (erase t)) recording fuel t).map (LoopStep.map erase) =
        whileLoop guard plain fuel (erase t) := by
  intro fuel
  induction fuel with
  | zero =>
      intro t
      cases goesOn : guard (erase t) with
      | true => simp [whileLoop, goesOn, Except.map]
      | false => simp [whileLoop, goesOn, Except.map, LoopStep.map]
  | succ fuel inductionHypothesis =>
      intro t
      cases goesOn : guard (erase t) with
      | true =>
          rw [whileLoop, whileLoop, if_pos goesOn, if_pos goesOn, ← same t]
          cases recording t with
          | error fault => rfl
          | ok last =>
              cases last with
              | next after => exact inductionHypothesis after
              | exit after => rfl
      | false => simp [whileLoop, goesOn, Except.map, LoopStep.map]

end Erase

/-! ## Loops of two programs -/

section Follow

variable {ρ' τ : Type} {body' : τ → Outcome (LoopStep ρ' τ)} {t : τ}

/-- The iterations end alike, in states and results that are related. -/
inductive LoopStep.Related (Q : ρ' → ρ → Prop) (R : τ → σ → Prop) :
    LoopStep ρ' τ → LoopStep ρ σ → Prop where
  | next {t : τ} {s : σ} (states : R t s) : Related Q R (.next t) (.next s)
  | exit {result' : ρ'} {result : ρ} (results : Q result' result) :
      Related Q R (.exit result') (.exit result)

theorem LoopStep.Related.state {R : τ → σ → Prop} {last' : LoopStep τ τ}
    {last : LoopStep σ σ} (related : last'.Related R R last) :
    R last'.state last.state := by
  cases related with
  | next states => exact states
  | exit results => exact results

/-- A loop whose iterations do what those of another loop do, does what the other loop does. -/
theorem whileLoop_follows {Q : ρ' → ρ → Prop} {R : τ → σ → Prop} (guard' : τ → Bool)
    (sameGuard : ∀ {t s}, R t s → guard' t = guard s)
    (iteration : ∀ {t s step}, R t s → guard s = true → body s = .ok step →
      ∃ step', body' t = .ok step' ∧ step'.Related Q R step)
    (start : R t s) (ends : whileLoop guard body fuel s = .ok last) :
    ∃ last', whileLoop guard' body' fuel t = .ok last' ∧ last'.Related Q R last := by
  induction fuel generalizing s t with
  | zero =>
      rw [whileLoop] at ends
      split at ends
      · cases ends
      · rename_i stops
        cases ends
        refine ⟨.next t, ?_, .next start⟩
        rw [whileLoop, sameGuard start, if_neg stops]
  | succ fuel inductionHypothesis =>
      rw [whileLoop] at ends
      rw [whileLoop, sameGuard start]
      split at ends
      · rename_i goesOn
        obtain ⟨step, ran, ends⟩ := bind_eq_ok.mp ends
        obtain ⟨step', ran', related⟩ := iteration start goesOn ran
        rw [if_pos goesOn, ran', ok_bind]
        cases related with
        | next states => exact inductionHypothesis states ends
        | exit results =>
            cases ends
            exact ⟨_, rfl, .exit results⟩
      · rename_i stops
        cases ends
        rw [if_neg stops]
        exact ⟨_, rfl, .next start⟩

/-- The same for a counted loop. -/
theorem forLoop_follows {Q : ρ' → ρ → Prop} {R : τ → σ → Prop}
    {body : ℕ → σ → Outcome (LoopStep ρ σ)} {body' : ℕ → τ → Outcome (LoopStep ρ' τ)}
    (iteration : ∀ {i t s step}, R t s → body i s = .ok step →
      ∃ step', body' i t = .ok step' ∧ step'.Related Q R step)
    {count index : ℕ} (start : R t s) (ends : forLoop body count index s = .ok last) :
    ∃ last', forLoop body' count index t = .ok last' ∧ last'.Related Q R last := by
  induction count generalizing index s t with
  | zero =>
      cases ends
      exact ⟨_, rfl, .next start⟩
  | succ count inductionHypothesis =>
      obtain ⟨step, ran, ends⟩ := bind_eq_ok.mp ends
      obtain ⟨step', ran', related⟩ := iteration start ran
      rw [forLoop, ran', ok_bind]
      cases related with
      | next states => exact inductionHypothesis states ends
      | exit results =>
          cases ends
          exact ⟨_, rfl, .exit results⟩

end Follow

end OsProjects.C
