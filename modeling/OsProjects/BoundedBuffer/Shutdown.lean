import OsProjects.BoundedBuffer.Correctness

/-!
Owns `main` of the bounded buffer: after a while it cancels and joins the producers one after the
other, leaves the consumers some time, cancels and joins them, and destroys the buffer.

A thread that has been told to end may act on it at its next cancellation point, or still go on
from there; a thread that is blocked in `sem_wait` can act on it.

Does not own the steps of the threads (`Model`) or their invariants (`Conservation`).
-/

namespace OsProjects.BoundedBuffer

open OsProjects.Theory

/-- Where `main` stands, with the number of the thread in the loop. -/
inductive MainAt (producers consumers : ℕ) where
  | sleeping
  | cancellingProducer (i : ℕ)
  | joiningProducer (i : Fin producers)
  | cancellingConsumer (j : ℕ)
  | joiningConsumer (j : Fin consumers)
  | destroyed
deriving DecidableEq

/-- The threads that `main` creates. -/
abbrev Created (producers consumers : ℕ) := Thread (Fin producers) (Fin consumers)

structure Program (producers consumers : ℕ) where
  core : State (Fin producers) (Fin consumers)
  mainAt : MainAt producers consumers

/-- A step of a thread, the next step of `main`, or a thread that acts on its cancellation. -/
inductive ProgramAction (producers consumers : ℕ) where
  | core (action : Action (Fin producers) (Fin consumers))
  | main
  | exit (t : Created producers consumers)

variable {producers consumers : ℕ}

/-- `main` has called `pthread_cancel` for the thread. -/
def MainAt.Told : MainAt producers consumers → Created producers consumers → Prop
  | .sleeping, _ => False
  | .cancellingProducer i, .inl k => k < i
  | .joiningProducer i, .inl k => k ≤ i
  | .cancellingProducer _, .inr _ => False
  | .joiningProducer _, .inr _ => False
  | .cancellingConsumer _, .inl _ => True
  | .joiningConsumer _, .inl _ => True
  | .cancellingConsumer j, .inr k => k < j
  | .joiningConsumer j, .inr k => k ≤ j
  | .destroyed, _ => True

/-- `pthread_join` has returned for the thread. -/
def MainAt.Joined : MainAt producers consumers → Created producers consumers → Prop
  | .sleeping, _ => False
  | .cancellingProducer i, .inl k => k < i
  | .joiningProducer i, .inl k => k < i
  | .cancellingProducer _, .inr _ => False
  | .joiningProducer _, .inr _ => False
  | .cancellingConsumer _, .inl _ => True
  | .joiningConsumer _, .inl _ => True
  | .cancellingConsumer j, .inr k => k < j
  | .joiningConsumer j, .inr k => k < j
  | .destroyed, _ => True

instance (mainAt : MainAt producers consumers) (t : Created producers consumers) :
    Decidable (mainAt.Told t) := by
  cases mainAt <;> cases t <;> unfold MainAt.Told <;> infer_instance

/-- The program once `init_buffer` has run and the threads are created. -/
def Program.initial : Program producers consumers := ⟨initBuffer, .sleeping⟩

/-- The next step of `main`; `pthread_join` waits for the thread to end. -/
def mainStep (p : Program producers consumers) : Option (Program producers consumers) :=
  match p.mainAt with
  | .sleeping => some { p with mainAt := .cancellingProducer 0 }
  | .cancellingProducer i =>
      if below : i < producers then some { p with mainAt := .joiningProducer ⟨i, below⟩ }
      else some { p with mainAt := .cancellingConsumer 0 }
  | .joiningProducer i =>
      if p.core.place (.inl i) = .cancelled then
        some { p with mainAt := .cancellingProducer (i + 1) }
      else none
  | .cancellingConsumer j =>
      if below : j < consumers then some { p with mainAt := .joiningConsumer ⟨j, below⟩ }
      else some { p with mainAt := .destroyed }
  | .joiningConsumer j =>
      if p.core.place (.inr j) = .cancelled then
        some { p with mainAt := .cancellingConsumer (j + 1) }
      else none
  | .destroyed => none

def programStep : ProgramAction producers consumers → Program producers consumers →
    Option (Program producers consumers)
  | .core action, p => (step action p.core).map fun core => { p with core := core }
  | .main, p => mainStep p
  | .exit t, p =>
      if p.mainAt.Told t then
        (stepOrCancel (.cancel t) p.core).map fun core => { p with core := core }
      else none

/-- The states that some interleaving of the threads and of `main` reaches. -/
abbrev ProgramReachable (p : Program producers consumers) : Prop :=
  ReachedFrom Program.initial programStep p

/-! ## What each step keeps -/

section Steps

variable {Producer Consumer : Type} [DecidableEq Producer] [DecidableEq Consumer]
variable {s after : State Producer Consumer} {t : Thread Producer Consumer}

/-- A step moves a thread that has not been cancelled, and leaves the others where they are. -/
theorem step_place {action : Action Producer Consumer} (taken : step action s = some after) :
    s.place action.thread ≠ .cancelled ∧
      ∃ place, place ≠ .cancelled ∧
        after.place = Function.update s.place action.thread place := by
  cases action with
  | callInsert i item =>
      rcases Option.ite_none_right_eq_some.mp taken with ⟨at_i, isAfter⟩
      cases isAfter
      exact ⟨by simp [Action.thread, at_i], .waiting, by decide, rfl⟩
  | callRemove j =>
      rcases Option.ite_none_right_eq_some.mp taken with ⟨at_j, isAfter⟩
      cases isAfter
      exact ⟨by simp [Action.thread, at_j], .waiting, by decide, rfl⟩
  | wait t =>
      rcases Option.ite_none_right_eq_some.mp taken with ⟨⟨at_t, _⟩, isAfter⟩
      cases isAfter
      refine ⟨by simp [Action.thread, at_t], .locking, by decide, ?_⟩
      cases t with
      | inl i => rfl
      | inr j => rfl
  | lock t =>
      rcases Option.ite_none_right_eq_some.mp taken with ⟨⟨at_t, _⟩, isAfter⟩
      cases isAfter
      exact ⟨by simp [Action.thread, at_t], .inside, by decide, rfl⟩
  | access t =>
      rcases Option.ite_none_right_eq_some.mp taken with ⟨at_t, isAfter⟩
      cases isAfter
      refine ⟨by simp [Action.thread, at_t], .unlocking, by decide, ?_⟩
      cases t with
      | inl i => rfl
      | inr j => rfl
  | unlock t =>
      rcases Option.ite_none_right_eq_some.mp taken with ⟨at_t, isAfter⟩
      cases isAfter
      exact ⟨by simp [Action.thread, at_t], .posting, by decide, rfl⟩
  | post t =>
      rcases Option.ite_none_right_eq_some.mp taken with ⟨at_t, isAfter⟩
      cases isAfter
      refine ⟨by simp [Action.thread, at_t], .outside, by decide, ?_⟩
      cases t with
      | inl i => rfl
      | inr j => rfl

/-- Only a cancellation makes a thread cancelled, and it stays so. -/
theorem step_cancelled_iff {action : Action Producer Consumer}
    (taken : step action s = some after) :
    after.place t = .cancelled ↔ s.place t = .cancelled := by
  obtain ⟨going, place, stays, places⟩ := step_place taken
  rw [places]
  by_cases mover : t = action.thread
  · rw [mover, Function.update_self]
    exact iff_of_false stays going
  · rw [Function.update_of_ne mover]

end Steps

/-- What every step of the program keeps: who has been joined has ended, and only who was told to
end has. -/
structure Coherent (p : Program producers consumers) : Prop where
  sound : Sound p.core
  joined : ∀ t, p.mainAt.Joined t → p.core.place t = .cancelled
  told : ∀ t, p.core.place t = .cancelled → p.mainAt.Told t

section Program

variable {p after : Program producers consumers} {t : Created producers consumers}

theorem initial_coherent : Coherent (Program.initial : Program producers consumers) :=
  ⟨initBuffer_sound, fun _ joined => joined.elim, fun _ place => by cases place⟩

/-- A step of `main` leaves the buffer alone. It tells no thread less, and has joined no thread
more than the one that has ended. -/
theorem mainStep_moves (taken : mainStep p = some after) :
    after.core = p.core ∧ (∀ t, p.mainAt.Told t → after.mainAt.Told t) ∧
      ∀ t, after.mainAt.Joined t → p.mainAt.Joined t ∨ p.core.place t = .cancelled := by
  obtain ⟨core, mainAt⟩ := p
  cases mainAt with
  | sleeping =>
      cases taken
      refine ⟨rfl, fun _ told => told.elim, ?_⟩
      rintro (i | j) joined
      · exact absurd joined (Nat.not_lt_zero _)
      · exact joined.elim
  | cancellingProducer i =>
      rw [mainStep] at taken
      simp only at taken
      split at taken
      · cases taken
        refine ⟨rfl, ?_, fun t joined => Or.inl ?_⟩
        · rintro (k | k) told
          · exact Nat.le_of_lt told
          · exact told
        · cases t with
          | inl k => exact joined
          | inr k => exact joined
      · rename_i beyond
        cases taken
        refine ⟨rfl, ?_, fun t joined => Or.inl ?_⟩
        · rintro (k | k) told
          · trivial
          · exact told.elim
        · cases t with
          | inl k =>
              have below := k.isLt
              exact show k.val < i by omega
          | inr k => exact absurd joined (Nat.not_lt_zero _)
  | joiningProducer i =>
      rw [mainStep] at taken
      simp only at taken
      rcases Option.ite_none_right_eq_some.mp taken with ⟨ended, isAfter⟩
      cases isAfter
      refine ⟨rfl, ?_, ?_⟩
      · rintro (k | k) told
        · exact Nat.lt_succ_of_le told
        · exact told
      · rintro (k | k) joined
        · rcases Nat.lt_succ_iff_lt_or_eq.mp joined with before | last
          · exact Or.inl before
          · rw [Fin.ext last]
            exact Or.inr ended
        · exact joined.elim
  | cancellingConsumer j =>
      rw [mainStep] at taken
      simp only at taken
      split at taken
      · cases taken
        refine ⟨rfl, ?_, fun t joined => Or.inl ?_⟩
        · rintro (k | k) told
          · trivial
          · exact Nat.le_of_lt told
        · cases t with
          | inl k => trivial
          | inr k => exact joined
      · rename_i beyond
        cases taken
        refine ⟨rfl, fun _ _ => trivial, fun t _ => Or.inl ?_⟩
        cases t with
        | inl k => trivial
        | inr k =>
            have below := k.isLt
            exact show k.val < j by omega
  | joiningConsumer j =>
      rw [mainStep] at taken
      simp only at taken
      rcases Option.ite_none_right_eq_some.mp taken with ⟨ended, isAfter⟩
      cases isAfter
      refine ⟨rfl, ?_, ?_⟩
      · rintro (k | k) told
        · trivial
        · exact Nat.lt_succ_of_le told
      · rintro (k | k) joined
        · exact Or.inl trivial
        · rcases Nat.lt_succ_iff_lt_or_eq.mp joined with before | last
          · exact Or.inl before
          · rw [Fin.ext last]
            exact Or.inr ended
  | destroyed => cases taken

theorem Coherent.step {action : ProgramAction producers consumers} (coherent : Coherent p)
    (taken : programStep action p = some after) : Coherent after := by
  cases action with
  | core action =>
      obtain ⟨core, stepped, rfl⟩ := Option.map_eq_some_iff.mp taken
      refine ⟨coherent.sound.step stepped, fun t joined => ?_, fun t ended => ?_⟩
      · exact (step_cancelled_iff stepped).mpr (coherent.joined t joined)
      · exact coherent.told t ((step_cancelled_iff stepped).mp ended)
  | main =>
      obtain ⟨sameCore, told, joined⟩ := mainStep_moves taken
      refine ⟨sameCore ▸ coherent.sound, fun t isJoined => ?_, fun t ended => ?_⟩
      · rw [sameCore]
        rcases joined t isJoined with before | ended
        · exact coherent.joined t before
        · exact ended
      · rw [sameCore] at ended
        exact told t (coherent.told t ended)
  | exit t =>
      rcases Option.ite_none_right_eq_some.mp taken with ⟨told, acted⟩
      obtain ⟨core, ended, rfl⟩ := Option.map_eq_some_iff.mp acted
      have sound := coherent.sound.stepOrCancel ended
      rcases Option.ite_none_right_eq_some.mp ended with ⟨_, isCore⟩
      cases isCore
      refine ⟨sound, fun other joined => ?_, fun other isEnded => ?_⟩
      · show Function.update p.core.place t .cancelled other = .cancelled
        by_cases same : other = t
        · rw [same, Function.update_self]
        · rw [Function.update_of_ne same]
          exact coherent.joined other joined
      · by_cases same : other = t
        · rw [same]
          exact told
        · have place : Function.update p.core.place t .cancelled other = .cancelled := isEnded
          rw [Function.update_of_ne same] at place
          exact coherent.told other place

theorem ProgramReachable.coherent (reachable : ProgramReachable p) : Coherent p :=
  reachable.invariant initial_coherent Coherent.step

end Program

/-! ## The way out of the functions -/

section WayOut

variable {Producer Consumer : Type} [DecidableEq Producer] [DecidableEq Consumer]
variable {s after : State Producer Consumer} {t holder : Thread Producer Consumer}
variable {allowed : Action Producer Consumer → Prop}

/-- The steps of the thread are allowed. -/
def AllowsThread (allowed : Action Producer Consumer → Prop) (t : Thread Producer Consumer) :
    Prop :=
  ∀ action, action.thread = t → allowed action

theorem place_accessed (s : State Producer Consumer) (t : Thread Producer Consumer) :
    (s.accessed t).place = Function.update s.place t .unlocking ∧ (s.accessed t).lock = s.lock := by
  cases t with
  | inl i => exact ⟨rfl, rfl⟩
  | inr j => exact ⟨rfl, rfl⟩

theorem place_posted (s : State Producer Consumer) (t : Thread Producer Consumer) :
    (s.posted t).place = Function.update s.place t .outside := by
  cases t with
  | inl i => rfl
  | inr j => rfl

/-- The thread leaves the lock, and nobody else moves. -/
theorem leads_to_posting (allows : AllowsThread allowed t)
    (holds : (s.place t).holdsLock = true) :
    ∃ after, LeadsTo step allowed s after ∧ after.lock = none ∧
      after.place = Function.update s.place t .posting := by
  have fromUnlocking : ∀ s : State Producer Consumer, s.place t = .unlocking →
      ∃ after, LeadsTo step allowed s after ∧ after.lock = none ∧
        after.place = Function.update s.place t .posting := fun s at_t =>
    ⟨{ s.move t .posting with lock := none },
      .one (.unlock t) (allows _ rfl) (if_pos at_t), rfl, rfl⟩
  cases at_t : s.place t with
  | inside =>
      obtain ⟨places, _⟩ := place_accessed s t
      obtain ⟨after, leads, free, moved⟩ := fromUnlocking (s.accessed t) (by
        rw [places, Function.update_self])
      refine ⟨after, ?_, free, ?_⟩
      · exact (LeadsTo.one (.access t) (allows _ rfl) (if_pos at_t)).trans leads
      · rw [moved, places, Function.update_idem]
  | unlocking => exact fromUnlocking s at_t
  | outside | waiting | locking | posting | cancelled =>
      rw [at_t] at holds
      cases holds

theorem leads_to_outside (allows : AllowsThread allowed t) (at_t : s.place t = .posting) :
    ∃ after, LeadsTo step allowed s after ∧ after.place = Function.update s.place t .outside :=
  ⟨s.posted t, .one (.post t) (allows _ rfl) (if_pos at_t), place_posted s t⟩

/-- Where a thread is cancelled, or may act on being told to end. -/
def CanEnd (s : State Producer Consumer) (t : Thread Producer Consumer) : Prop :=
  s.place t = .outside ∨ s.place t = .waiting ∨ s.place t = .cancelled

/-- The lock becomes free, and nobody but its holder moves. -/
theorem leads_to_free (exclusive : Exclusive s)
    (allows : ∀ holder, s.lock = some holder → AllowsThread allowed holder) :
    ∃ after, LeadsTo step allowed s after ∧ after.lock = none ∧
      ∀ t, s.lock ≠ some t → after.place t = s.place t := by
  cases held : s.lock with
  | none => exact ⟨s, .refl, held, fun _ _ => rfl⟩
  | some holder =>
      obtain ⟨after, leads, free, places⟩ :=
        leads_to_posting (allows holder held) ((exclusive holder).mpr held)
      refine ⟨after, leads, free, fun t other => ?_⟩
      rw [places, Function.update_of_ne]
      intro same
      exact other (by rw [same])

/-- Every thread gets out of the two functions, whoever holds the lock. -/
theorem leads_to_canEnd (exclusive : Exclusive s) (t : Thread Producer Consumer) :
    ∃ after, LeadsTo step (fun _ => True) s after ∧ CanEnd after t := by
  have allows : ∀ t : Thread Producer Consumer,
      AllowsThread (fun _ : Action Producer Consumer => True) t := fun _ _ _ => trivial
  have fromPosting : ∀ s : State Producer Consumer, s.place t = .posting →
      ∃ after, LeadsTo step (fun _ => True) s after ∧ CanEnd after t := by
    intro s at_t
    obtain ⟨after, leads, places⟩ := leads_to_outside (allows t) at_t
    exact ⟨after, leads, Or.inl (by rw [places, Function.update_self])⟩
  have fromHolding : ∀ s : State Producer Consumer, (s.place t).holdsLock = true →
      ∃ after, LeadsTo step (fun _ => True) s after ∧ CanEnd after t := by
    intro s holds
    obtain ⟨middle, leads, _, places⟩ := leads_to_posting (allows t) holds
    obtain ⟨after, leadsOn, ends⟩ := fromPosting middle (by rw [places, Function.update_self])
    exact ⟨after, leads.trans leadsOn, ends⟩
  cases at_t : s.place t with
  | outside => exact ⟨s, .refl, Or.inl at_t⟩
  | waiting => exact ⟨s, .refl, Or.inr (Or.inl at_t)⟩
  | cancelled => exact ⟨s, .refl, Or.inr (Or.inr at_t)⟩
  | posting => exact fromPosting s at_t
  | inside | unlocking => exact fromHolding s (by rw [at_t]; rfl)
  | locking =>
      obtain ⟨middle, leads, free, others⟩ := leads_to_free exclusive fun holder _ => allows holder
      have notHolder : s.lock ≠ some t := by
        intro held
        have holds := (exclusive t).mpr held
        rw [at_t] at holds
        cases holds
      have stillLocking : middle.place t = .locking := (others t notHolder).trans at_t
      have takes : LeadsTo step (fun _ => True) middle
          { middle.move t .inside with lock := some t } :=
        .one (.lock t) trivial (if_pos ⟨stillLocking, free⟩)
      obtain ⟨after, leadsOn, ends⟩ := fromHolding { middle.move t .inside with lock := some t } (by
        show (Function.update middle.place t .inside t).holdsLock = true
        rw [Function.update_self]
        rfl)
      exact ⟨after, (leads.trans takes).trans leadsOn, ends⟩

end WayOut

/-! ## `main` ends -/

section Ends

variable {p after : Program producers consumers} {t : Created producers consumers}

/-- What is left for `main` to do. -/
def MainAt.left : MainAt producers consumers → ℕ
  | .sleeping => 2 * producers + 2 * consumers + 3
  | .cancellingProducer i => 2 * (producers - i) + 2 * consumers + 2
  | .joiningProducer i => 2 * (producers - i) + 2 * consumers + 1
  | .cancellingConsumer j => 2 * (consumers - j) + 1
  | .joiningConsumer j => 2 * (consumers - j)
  | .destroyed => 0

/-- The thread that `main` waits for. -/
def MainAt.awaits : MainAt producers consumers → Option (Created producers consumers)
  | .joiningProducer i => some (.inl i)
  | .joiningConsumer j => some (.inr j)
  | _ => none

/-- `main` only waits for threads to end. -/
theorem mainStep_goes_on (waits : ∀ t, p.mainAt.awaits = some t → p.core.place t = .cancelled)
    (busy : p.mainAt ≠ .destroyed) :
    ∃ after, mainStep p = some after ∧ after.mainAt.left < p.mainAt.left := by
  obtain ⟨core, mainAt⟩ := p
  cases mainAt with
  | sleeping =>
      refine ⟨_, rfl, ?_⟩
      simp only [MainAt.left]
      omega
  | cancellingProducer i =>
      by_cases below : i < producers
      · refine ⟨⟨core, .joiningProducer ⟨i, below⟩⟩, dif_pos below, ?_⟩
        simp only [MainAt.left]
        omega
      · refine ⟨⟨core, .cancellingConsumer 0⟩, dif_neg below, ?_⟩
        simp only [MainAt.left]
        omega
  | joiningProducer i =>
      have below := i.isLt
      refine ⟨⟨core, .cancellingProducer (i + 1)⟩, if_pos (waits _ rfl), ?_⟩
      simp only [MainAt.left]
      omega
  | cancellingConsumer j =>
      by_cases below : j < consumers
      · refine ⟨⟨core, .joiningConsumer ⟨j, below⟩⟩, dif_pos below, ?_⟩
        simp only [MainAt.left]
        omega
      · refine ⟨⟨core, .destroyed⟩, dif_neg below, ?_⟩
        simp only [MainAt.left]
        omega
  | joiningConsumer j =>
      have below := j.isLt
      refine ⟨⟨core, .cancellingConsumer (j + 1)⟩, if_pos (waits _ rfl), ?_⟩
      simp only [MainAt.left]
      omega
  | destroyed => exact absurd rfl busy

theorem awaits_told (awaits : p.mainAt.awaits = some t) : p.mainAt.Told t := by
  obtain ⟨core, mainAt⟩ := p
  cases mainAt with
  | joiningProducer i =>
      cases awaits
      exact Nat.le_refl _
  | joiningConsumer j =>
      cases awaits
      exact Nat.le_refl _
  | sleeping | cancellingProducer i | cancellingConsumer j | destroyed => cases awaits

/-- The steps of the threads are steps of the program. -/
theorem leads_core {core : State (Fin producers) (Fin consumers)}
    {allowed : Action (Fin producers) (Fin consumers) → Prop}
    {may : ProgramAction producers consumers → Prop}
    (lifts : ∀ action, allowed action → may (.core action))
    (leads : LeadsTo step allowed p.core core) :
    LeadsTo programStep may p { p with core := core } := by
  induction leads with
  | refl => exact .refl
  | tail _ last inductionHypothesis =>
      obtain ⟨action, allows, taken⟩ := last
      refine inductionHypothesis.tail ⟨.core action, lifts action allows, ?_⟩
      simp [programStep, taken]

/-- The thread that `main` waits for can end. -/
theorem leads_to_end (exclusive : Exclusive p.core) (told : p.mainAt.Told t) :
    ∃ core, LeadsTo programStep (fun _ => True) p { p with core := core } ∧
      core.place t = .cancelled := by
  obtain ⟨core, leads, canEnd⟩ := leads_to_canEnd exclusive t
  have reaches : LeadsTo programStep (fun _ => True) p { p with core := core } :=
    leads_core (fun _ _ => trivial) leads
  by_cases ended : core.place t = .cancelled
  · exact ⟨core, reaches, ended⟩
  · have acts : core.place t = .outside ∨ core.place t = .waiting := by
      rcases canEnd with outside | waiting | cancelled
      · exact Or.inl outside
      · exact Or.inr waiting
      · exact absurd cancelled ended
    refine ⟨core.move t .cancelled, reaches.tail ⟨.exit t, trivial, ?_⟩, Function.update_self _ _ _⟩
    show (if p.mainAt.Told t then _ else _) = _
    rw [if_pos told, stepOrCancel, if_pos acts]
    rfl

/-- From every state that the program reaches, steps of its threads and of `main` lead to the
end of `main`: it never waits for a thread that cannot end. -/
theorem shutdown_ends (reachable : ProgramReachable p) :
    ∃ after, LeadsTo programStep (fun _ => True) p after ∧ after.mainAt = .destroyed := by
  have lowers : ∀ p : Program producers consumers, Coherent p → ¬p.mainAt = .destroyed →
      ∃ after, LeadsTo programStep (fun _ => True) p after ∧ Coherent after ∧
        after.mainAt.left < p.mainAt.left := by
    intro p coherent busy
    have ready : ∃ core, LeadsTo programStep (fun _ => True) p { p with core := core } ∧
        ∀ t, p.mainAt.awaits = some t → core.place t = .cancelled := by
      cases awaited : p.mainAt.awaits with
      | none => exact ⟨p.core, .refl, fun t same => by cases same⟩
      | some t =>
          obtain ⟨core, leads, ended⟩ := leads_to_end coherent.sound.exclusive (awaits_told awaited)
          refine ⟨core, leads, fun other same => ?_⟩
          cases same
          exact ended
    obtain ⟨core, leads, waits⟩ := ready
    obtain ⟨after, taken, less⟩ := mainStep_goes_on (p := { p with core := core }) waits busy
    have reaches : LeadsTo programStep (fun _ => True) p after :=
      leads.tail ⟨.main, trivial, taken⟩
    exact ⟨after, reaches, LeadsTo.invariant Coherent (fun kept _ taken => kept.step taken) reaches
      coherent, less⟩
  obtain ⟨after, leads, _, ended⟩ := LeadsTo.of_measure Coherent (fun p => p.mainAt = .destroyed)
    (fun p => p.mainAt.left) lowers reachable.coherent
  exact ⟨after, leads, ended⟩

end Ends

/-! ## The last items -/

section Drain

variable {Producer Consumer : Type} [DecidableEq Producer] [DecidableEq Consumer]
variable {s after : State Producer Consumer} {j : Consumer}

/-- Only consumers are left, and none of them has been cancelled. -/
structure OnlyConsumers (s : State Producer Consumer) : Prop where
  producers : ∀ i, s.place (.inl i) = .cancelled
  consumers : ∀ j, s.place (.inr j) ≠ .cancelled

theorem OnlyConsumers.step {action : Action Producer Consumer} (only : OnlyConsumers s)
    (taken : step action s = some after) : OnlyConsumers after :=
  ⟨fun i => (step_cancelled_iff taken).mpr (only.producers i),
    fun j ended => only.consumers j ((step_cancelled_iff taken).mp ended)⟩

/-- Only a producer inserts. -/
theorem OnlyConsumers.inserted {action : Action Producer Consumer} (only : OnlyConsumers s)
    (taken : BoundedBuffer.step action s = some after) : after.inserted = s.inserted := by
  cases action with
  | access t =>
      rcases Option.ite_none_right_eq_some.mp taken with ⟨at_t, isAfter⟩
      cases isAfter
      cases t with
      | inl i =>
          rw [only.producers i] at at_t
          cases at_t
      | inr j => rfl
  | wait t | post t =>
      rcases Option.ite_none_right_eq_some.mp taken with ⟨_, isAfter⟩
      cases isAfter
      cases t with
      | inl i => rfl
      | inr j => rfl
  | callInsert i item | callRemove j | lock t | unlock t =>
      rcases Option.ite_none_right_eq_some.mp taken with ⟨_, isAfter⟩
      cases isAfter
      rfl

theorem OnlyConsumers.leads_inserted (only : OnlyConsumers s)
    (leads : LeadsTo BoundedBuffer.step (fun _ => True) s after) : after.inserted = s.inserted :=
  (LeadsTo.invariant (fun after => OnlyConsumers after ∧ after.inserted = s.inserted)
    (fun kept _ taken => ⟨kept.1.step taken, (kept.1.inserted taken).trans kept.2⟩) leads
    ⟨only, rfl⟩).2

/-- The number of items in the buffer. -/
def State.stored (s : State Producer Consumer) : ℕ := s.buffer.ring.count

/-- Steps lead to a state with fewer items. -/
def Takes (s : State Producer Consumer) : Prop :=
  ∃ after, LeadsTo step (fun _ => True) s after ∧ after.stored < s.stored

theorem Takes.of_step {action : Action Producer Consumer} (taken : step action s = some after)
    (same : after.stored = s.stored) (takes : Takes after) : Takes s := by
  obtain ⟨last, leads, fewer⟩ := takes
  exact ⟨last, (LeadsTo.one action trivial taken).trans leads, same ▸ fewer⟩

variable [Fintype Producer] [Fintype Consumer]

theorem takes_of_inside (sound : Sound s) (at_j : s.place (.inr j) = .inside) : Takes s := by
  refine ⟨s.accessed (.inr j), .one (.access (.inr j)) trivial (if_pos at_j), ?_⟩
  show (removeItem s.buffer).2.ring.count < s.buffer.ring.count
  have stored := sound.stored at_j
  rw [(ring_removeItem s.buffer).2]
  have count := Ring.count_pop stored
  omega

theorem takes_of_locking (sound : Sound s) (at_j : s.place (.inr j) = .locking)
    (free : s.lock = none) : Takes s := by
  have taken : step (.lock (.inr j)) s =
      some { s.move (.inr j) .inside with lock := some (.inr j) } := if_pos ⟨at_j, free⟩
  exact .of_step taken rfl (takes_of_inside (sound.step taken) (Function.update_self _ _ _))

theorem takes_of_waiting (sound : Sound s) (at_j : s.place (.inr j) = .waiting)
    (positive : 0 < s.full) (free : s.lock = none) : Takes s := by
  have taken : step (.wait (.inr j)) s = some (s.waited (.inr j)) := if_pos ⟨at_j, positive⟩
  exact .of_step taken rfl (takes_of_locking (sound.step taken) (Function.update_self _ _ _) free)

theorem takes_of_outside (sound : Sound s) (at_j : s.place (.inr j) = .outside)
    (positive : 0 < s.full) (free : s.lock = none) : Takes s := by
  have taken : step (.callRemove j) s = some (s.move (.inr j) .waiting) := if_pos at_j
  exact .of_step taken rfl
    (takes_of_waiting (sound.step taken) (Function.update_self _ _ _) positive free)

theorem takes_of_posting (sound : Sound s) (at_j : s.place (.inr j) = .posting)
    (positive : 0 < s.full) (free : s.lock = none) : Takes s := by
  have taken : step (.post (.inr j)) s = some (s.posted (.inr j)) := if_pos at_j
  exact .of_step taken rfl
    (takes_of_outside (sound.step taken) (Function.update_self _ _ _) positive free)

/-- With the lock free, some consumer gets through to the next item. -/
theorem takes_of_free (sound : Sound s) (only : OnlyConsumers s) (j : Consumer)
    (free : s.lock = none) (more : 0 < s.stored) : Takes s := by
  by_cases someLocking : ∃ k, s.place (.inr k) = .locking
  · obtain ⟨k, at_k⟩ := someLocking
    exact takes_of_locking sound at_k free
  · have noHolder : ∀ t, (s.place t).holdsLock = false := by
      intro t
      by_contra holds
      have held := (sound.exclusive t).mp (by simpa using holds)
      rw [free] at held
      cases held
    have noClaim : threadsAt claimsItem s.places = 0 := by
      apply threadsAt_eq_zero
      intro t
      cases t with
      | inl i => simp [State.places, only.producers i, claimsItem]
      | inr k =>
          have notHolding := noHolder (.inr k)
          cases at_k : s.place (.inr k) with
          | locking => exact absurd ⟨k, at_k⟩ someLocking
          | inside =>
              rw [at_k] at notHolding
              cases notHolding
          | outside | waiting | unlocking | posting | cancelled =>
              simp [State.places, at_k, claimsItem]
    have items := sound.items
    have positive : 0 < s.full := by
      have count : s.stored = s.buffer.ring.count := rfl
      omega
    have notHolding := noHolder (.inr j)
    cases at_j : s.place (.inr j) with
    | outside => exact takes_of_outside sound at_j positive free
    | waiting => exact takes_of_waiting sound at_j positive free
    | posting => exact takes_of_posting sound at_j positive free
    | locking => exact absurd ⟨j, at_j⟩ someLocking
    | inside | unlocking =>
        rw [at_j] at notHolding
        cases notHolding
    | cancelled => exact absurd at_j (only.consumers j)

/-- While there are items, consumers can take the next one. -/
theorem takes_next (sound : Sound s) (only : OnlyConsumers s) (j : Consumer)
    (more : 0 < s.stored) : Takes s := by
  cases held : s.lock with
  | none => exact takes_of_free sound only j held more
  | some holder =>
      have holds := (sound.exclusive holder).mpr held
      cases holder with
      | inl i =>
          rw [only.producers i] at holds
          cases holds
      | inr k =>
          cases at_k : s.place (.inr k) with
          | inside => exact takes_of_inside sound at_k
          | unlocking =>
              have taken : step (.unlock (.inr k)) s =
                  some { s.move (.inr k) .posting with lock := none } := if_pos at_k
              exact .of_step taken rfl
                (takes_of_free (sound.step taken) (only.step taken) j rfl more)
          | outside | waiting | locking | posting | cancelled =>
              rw [at_k] at holds
              cases holds

/-- The consumers can take all the items that were inserted. -/
theorem leads_to_drained (sound : Sound s) (only : OnlyConsumers s) (j : Consumer) :
    ∃ after, LeadsTo step (fun _ => True) s after ∧ after.removed = s.inserted := by
  have lowers : ∀ s : State Producer Consumer, Sound s ∧ OnlyConsumers s → ¬s.stored = 0 →
      ∃ after, LeadsTo step (fun _ => True) s after ∧ (Sound after ∧ OnlyConsumers after) ∧
        after.stored < s.stored := by
    rintro s ⟨sound, only⟩ more
    obtain ⟨after, leads, fewer⟩ := takes_next sound only j (Nat.pos_of_ne_zero more)
    refine ⟨after, leads, ?_, fewer⟩
    exact LeadsTo.invariant (fun s => Sound s ∧ OnlyConsumers s)
      (fun kept _ taken => ⟨kept.1.step taken, kept.2.step taken⟩) leads ⟨sound, only⟩
  obtain ⟨after, leads, ⟨soundAfter, _⟩, drained⟩ := LeadsTo.of_measure
    (fun s : State Producer Consumer => Sound s ∧ OnlyConsumers s) (fun s => s.stored = 0)
    State.stored lowers ⟨sound, only⟩
  have sameInserted := only.leads_inserted leads
  have empty : after.buffer.ring.contents = [] :=
    List.eq_nil_of_length_eq_zero ((Ring.length_contents _).trans drained)
  have ordered := soundAfter.historic.ordered
  rw [empty, List.append_nil] at ordered
  exact ⟨after, leads, ordered.trans sameInserted⟩

end Drain

/-! ## What `main` leaves behind -/

section Destroyed

variable {p : Program producers consumers}

/-- `destroy_buffer` finds the lock free and no thread left that could use it or wait for a
semaphore. Every item is taken or still in the buffer, and every slot is counted by one of the
semaphores. -/
structure SafelyDestroyed (p : Program producers consumers) : Prop where
  ended : ∀ t, p.core.place t = .cancelled
  unlocked : p.core.lock = none
  settled : p.core.empty + p.core.full = bufferSize
  counted : p.core.full = p.core.buffer.ring.contents.length
  kept : p.core.removed ++ p.core.buffer.ring.contents = p.core.inserted
  idle : ∀ action, programStep action p = none

theorem Coherent.safelyDestroyed (coherent : Coherent p) (done : p.mainAt = .destroyed) :
    SafelyDestroyed p := by
  have ended : ∀ t, p.core.place t = .cancelled := by
    intro t
    apply coherent.joined
    rw [done]
    trivial
  have noSlot : threadsAt claimsSlot p.core.places = 0 := threadsAt_eq_zero fun t => by
    cases t <;> simp [State.places, ended, claimsSlot]
  have noItem : threadsAt claimsItem p.core.places = 0 := threadsAt_eq_zero fun t => by
    cases t <;> simp [State.places, ended, claimsItem]
  have slots := coherent.sound.slots
  have items := coherent.sound.items
  refine ⟨ended, ?_, by omega, ?_, coherent.sound.historic.ordered, ?_⟩
  · cases held : p.core.lock with
    | none => rfl
    | some holder =>
        have holds := (coherent.sound.exclusive holder).mpr held
        rw [ended] at holds
        cases holds
  · rw [Ring.length_contents]
    omega
  · intro action
    cases action with
    | core action =>
        cases taken : BoundedBuffer.step action p.core with
        | none => simp [programStep, taken]
        | some after => exact absurd (ended _) (step_place taken).1
    | main => simp [programStep, mainStep, done]
    | exit t => simp [programStep, stepOrCancel, ended]

/-- From every state that an interleaving reaches, `main` can still come to its end, and where it
has, the buffer was destroyed with nobody using it and no item lost. -/
theorem shutdown_completes (reachable : ProgramReachable p) :
    (∃ after, LeadsTo programStep (fun _ => True) p after ∧ after.mainAt = .destroyed) ∧
      (p.mainAt = .destroyed → SafelyDestroyed p) :=
  ⟨shutdown_ends reachable, fun done => reachable.coherent.safelyDestroyed done⟩

/-- The producer holds the lock when `main` waits for it. -/
def heldUpActions : List (ProgramAction 1 1) :=
  [.core (.callInsert 0 7), .core (.wait (.inl 0)), .core (.lock (.inl 0)), .main, .main]

theorem shutdown_completes_demo :
    ∃ p : Program 1 1, runActions programStep heldUpActions Program.initial = some p ∧
      p.mainAt = .joiningProducer 0 ∧ p.core.lock = some (.inl 0) ∧
      ∃ after, LeadsTo programStep (fun _ => True) p after ∧ after.mainAt = .destroyed := by
  rcases run : runActions programStep heldUpActions (Program.initial : Program 1 1) with _ | p
  · cases run
  · refine ⟨p, rfl, ?_, ?_, (shutdown_completes (ReachedFrom.start.run run)).1⟩
    · cases run
      rfl
    · cases run
      rfl

/-- Once the producers have been joined and before a consumer is cancelled, no item comes in any
more, and the consumers, if there is one, can take all that have. -/
theorem consumers_can_drain (reachable : ProgramReachable p)
    (resting : p.mainAt = .cancellingConsumer 0) :
    (∀ core, LeadsTo step (fun _ => True) p.core core → core.inserted = p.core.inserted) ∧
      (0 < consumers → ∃ core, LeadsTo programStep (fun _ => True) p { p with core := core } ∧
        core.removed = p.core.inserted) := by
  have coherent := reachable.coherent
  have only : OnlyConsumers p.core := by
    constructor
    · intro i
      apply coherent.joined
      rw [resting]
      trivial
    · intro j ended
      have told := coherent.told _ ended
      rw [resting] at told
      exact absurd told (Nat.not_lt_zero _)
  constructor
  · intro core leads
    exact only.leads_inserted leads
  · intro isConsumer
    obtain ⟨core, leads, drained⟩ := leads_to_drained coherent.sound only ⟨0, isConsumer⟩
    exact ⟨core, leads_core (fun _ _ => trivial) leads, drained⟩

/-- An item is inserted, and the producer is cancelled and joined. -/
def restingActions : List (ProgramAction 1 1) :=
  [.core (.callInsert 0 7), .core (.wait (.inl 0)), .core (.lock (.inl 0)), .main, .main,
    .core (.access (.inl 0)), .core (.unlock (.inl 0)), .core (.post (.inl 0)), .exit (.inl 0),
    .main, .main]

theorem consumers_can_drain_demo :
    ∃ p : Program 1 1, runActions programStep restingActions Program.initial = some p ∧
      p.core.inserted = [7] ∧
      (∀ core, LeadsTo step (fun _ => True) p.core core → core.inserted = p.core.inserted) ∧
      ∃ core, LeadsTo programStep (fun _ => True) p { p with core := core } ∧
        core.removed = p.core.inserted := by
  rcases run : runActions programStep restingActions (Program.initial : Program 1 1) with _ | p
  · cases run
  · have resting : p.mainAt = .cancellingConsumer 0 := by
      cases run
      rfl
    obtain ⟨noMore, drains⟩ := consumers_can_drain (ReachedFrom.start.run run) resting
    refine ⟨p, rfl, ?_, noMore, drains (by decide)⟩
    cases run
    rfl

end Destroyed

end OsProjects.BoundedBuffer
