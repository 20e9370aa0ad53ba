import Mathlib.Data.Fintype.Card
import Mathlib.Logic.Relation

/-!
Owns transition systems whose steps may be disabled, conditions on the steps of a
run, and the counting of threads: how many of finitely many threads stand at a
control point, and how the step of one thread changes that number.

Does not own any particular program.
-/

namespace OsProjects.Theory

section Reached

variable {State Action : Type} {start : State} {step : Action → State → Option State}

/-- The states reached from `start` by steps that are enabled, in any order. -/
inductive ReachedFrom (start : State) (step : Action → State → Option State) : State → Prop where
  | start : ReachedFrom start step start
  | step {s after : State} (before : ReachedFrom start step s) (action : Action)
      (taken : step action s = some after) : ReachedFrom start step after

/-- What holds at the start and survives every step holds in every state
reached. -/
theorem ReachedFrom.invariant {Invariant : State → Prop} (initially : Invariant start)
    (preserved : ∀ {s after action}, Invariant s → step action s = some after → Invariant after)
    {s : State} (reached : ReachedFrom start step s) : Invariant s := by
  induction reached with
  | start => exact initially
  | step _ action taken inductionHypothesis => exact preserved inductionHypothesis taken

/-- The state after steps in a given order, `none` when one of them is disabled. -/
def runActions (step : Action → State → Option State) : List Action → State → Option State
  | [], s => some s
  | action :: rest, s =>
      match step action s with
      | some after => runActions step rest after
      | none => none

/-- The condition holds for every action of the run, in the state before it. -/
def AllAlong (step : Action → State → Option State) (condition : Action → State → Prop) :
    List Action → State → Prop
  | [], _ => True
  | action :: rest, s =>
      condition action s ∧ ∀ after, step action s = some after →
        AllAlong step condition rest after

theorem runActions_cons {action : Action} {rest : List Action} {s final : State}
    (run : runActions step (action :: rest) s = some final) :
    ∃ after, step action s = some after ∧ runActions step rest after = some final := by
  unfold runActions at run
  split at run
  · next after taken => exact ⟨after, taken, run⟩
  · cases run

theorem allAlong_cons {condition : Action → State → Prop} {action : Action} {rest : List Action}
    {s after : State} (taken : step action s = some after) :
    AllAlong step condition (action :: rest) s ↔
      condition action s ∧ AllAlong step condition rest after := by
  simp [AllAlong, taken]

instance AllAlong.decide {condition : Action → State → Prop}
    [∀ action s, Decidable (condition action s)] :
    ∀ (actions : List Action) (s : State), Decidable (AllAlong step condition actions s)
  | [], _ => isTrue trivial
  | action :: rest, s =>
      match taken : step action s with
      | some after =>
          have : Decidable (AllAlong step condition rest after) := AllAlong.decide rest after
          decidable_of_iff (condition action s ∧ AllAlong step condition rest after)
            (allAlong_cons taken).symm
      | none => decidable_of_iff (condition action s) (by simp [AllAlong, taken])

/-- The steps of a run reach its last state. -/
theorem ReachedFrom.run {s final : State} {actions : List Action}
    (reached : ReachedFrom start step s) (run : runActions step actions s = some final) :
    ReachedFrom start step final := by
  induction actions generalizing s with
  | nil =>
      cases run
      exact reached
  | cons action rest inductionHypothesis =>
      rcases runActions_cons run with ⟨after, taken, others⟩
      exact inductionHypothesis (.step reached action taken) others

/-- A damage that is never repaired, and that a step does exactly when it fails the
condition, is absent at the end of exactly the runs that meet the condition. -/
theorem allAlong_iff {Invariant : State → Prop} {Damaged : State → Prop}
    {condition : Action → State → Prop}
    (preserved : ∀ {s after action}, Invariant s → step action s = some after → Invariant after)
    (stays : ∀ {s after action}, Invariant s → Damaged s → step action s = some after →
      Damaged after)
    (does : ∀ {s after action}, Invariant s → ¬Damaged s → step action s = some after →
      (condition action s ↔ ¬Damaged after)) :
    ∀ {actions : List Action} {s final : State}, Invariant s →
      runActions step actions s = some final →
      (Damaged s → Damaged final) ∧
        (¬Damaged s → (AllAlong step condition actions s ↔ ¬Damaged final))
  | [], s, final, invariant, run => by
      cases run
      exact ⟨id, fun undamaged => iff_of_true trivial undamaged⟩
  | action :: rest, s, final, invariant, run => by
      rcases runActions_cons run with ⟨after, taken, others⟩
      have later := allAlong_iff preserved stays does (preserved invariant taken) others
      refine ⟨fun damaged => later.1 (stays invariant damaged taken), fun undamaged => ?_⟩
      rw [allAlong_cons taken, does invariant undamaged taken]
      constructor
      · intro both
        exact (later.2 both.1).mp both.2
      · intro unharmed
        have before : ¬Damaged after := fun damaged => unharmed (later.1 damaged)
        exact ⟨before, (later.2 before).mpr unharmed⟩

/-- Steps that the condition allows lead from one state to the other. -/
abbrev LeadsTo (step : Action → State → Option State) (allowed : Action → Prop) :
    State → State → Prop :=
  Relation.ReflTransGen fun s after => ∃ action, allowed action ∧ step action s = some after

theorem LeadsTo.one {allowed : Action → Prop} {s after : State} (action : Action)
    (allows : allowed action) (taken : step action s = some after) :
    LeadsTo step allowed s after :=
  .single ⟨action, allows, taken⟩

/-- What every allowed step keeps, still holds where the steps lead. -/
theorem LeadsTo.invariant {allowed : Action → Prop} (Invariant : State → Prop)
    (preserved : ∀ {s after action}, Invariant s → allowed action → step action s = some after →
      Invariant after)
    {s after : State} (leads : LeadsTo step allowed s after) (invariant : Invariant s) :
    Invariant after := by
  induction leads with
  | refl => exact invariant
  | tail _ last inductionHypothesis =>
      obtain ⟨action, allows, taken⟩ := last
      exact preserved inductionHypothesis allows taken

/-- A measure that can always be lowered while the goal is not met leads to the goal. -/
theorem LeadsTo.of_measure {allowed : Action → Prop} (Invariant Goal : State → Prop)
    (measure : State → ℕ)
    (lowers : ∀ s, Invariant s → ¬Goal s →
      ∃ after, LeadsTo step allowed s after ∧ Invariant after ∧ measure after < measure s)
    {s : State} (invariant : Invariant s) :
    ∃ after, LeadsTo step allowed s after ∧ Invariant after ∧ Goal after := by
  induction value : measure s using Nat.strong_induction_on generalizing s with
  | _ value inductionHypothesis =>
      by_cases met : Goal s
      · exact ⟨s, .refl, invariant, met⟩
      · obtain ⟨middle, leads, kept, lower⟩ := lowers s invariant met
        obtain ⟨after, leadsOn, keptAfter, metAfter⟩ :=
          inductionHypothesis (measure middle) (value ▸ lower) kept rfl
        exact ⟨after, leads.trans leadsOn, keptAfter, metAfter⟩

end Reached

section Threads

variable {Thread Control : Type} [Fintype Thread]

/-- The number of threads at a control point that satisfies `here`. -/
def threadsAt (here : Control → Bool) (threads : Thread → Control) : ℕ :=
  (Finset.univ.filter fun thread => here (threads thread) = true).card

/-- No thread is at the control point when all of them are elsewhere. -/
theorem threadsAt_eq_zero {here : Control → Bool} {threads : Thread → Control}
    (elsewhere : ∀ thread, here (threads thread) = false) : threadsAt here threads = 0 := by
  unfold threadsAt
  rw [Finset.card_eq_zero, Finset.filter_eq_empty_iff]
  intro thread _
  simp [elsewhere thread]

theorem threadsAt_pos {here : Control → Bool} {threads : Thread → Control} (thread : Thread)
    (present : here (threads thread) = true) : 0 < threadsAt here threads := by
  unfold threadsAt
  rw [Finset.card_pos]
  exact ⟨thread, by simp [present]⟩

variable [DecidableEq Thread]

/-- One thread moves: its old place loses one, its new place gains one. -/
theorem threadsAt_update (here : Control → Bool) (threads : Thread → Control) (thread : Thread)
    (control : Control) :
    threadsAt here (Function.update threads thread control) + (here (threads thread)).toNat =
      threadsAt here threads + (here control).toNat := by
  have split : ∀ threads : Thread → Control, threadsAt here threads =
      ((Finset.univ.erase thread).filter fun other => here (threads other) = true).card +
        (here (threads thread)).toNat := by
    intro threads
    unfold threadsAt
    rw [← Finset.insert_erase (Finset.mem_univ thread), Finset.filter_insert]
    cases present : here (threads thread) with
    | false => simp
    | true => simp
  have others : ((Finset.univ.erase thread).filter fun other =>
        here (Function.update threads thread control other) = true) =
      (Finset.univ.erase thread).filter fun other => here (threads other) = true := by
    apply Finset.filter_congr
    intro other member
    rw [Function.update_of_ne (Finset.ne_of_mem_erase member)]
  rw [split (Function.update threads thread control), split threads, others,
    Function.update_self]
  omega

end Threads

end OsProjects.Theory
