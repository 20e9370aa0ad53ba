import Mathlib.Data.List.Pairwise
import OsProjects.Shell.Leftovers
import OsProjects.Theory.Interleaving

/-!
Owns the children of the shell: `fork` adds a child, children terminate in any order,
and `wait(NULL)` returns when it reaps any one that has terminated.

Does not own what a child executes, or the processes that a child forks.
-/

namespace OsProjects.Shell

open OsProjects.C OsProjects.Theory

inductive Status where
  | running
  | terminated
  | reaped
deriving DecidableEq

/-- A call of `run_command`: the array with the tokens of a line, and whatever is behind
them. -/
structure Call where
  tokens : List Token
  behind : Args
  nonempty : tokens ≠ []
  words : ∀ token ∈ tokens, token ≠ []
  fits : tokens.length ≤ argsSize

def Call.args (call : Call) : Args := laid call.behind call.tokens.length call.tokens

/-- The shell with the calls of `run_command` that are still to come. A child is named by
its place in the order of the forks; `waiting` is the child of the call that is in
`wait(NULL)`. -/
structure Parent where
  calls : List Call
  children : List Status
  waiting : Option ℕ

def Parent.start (calls : List Call) : Parent where
  calls := calls
  children := []
  waiting := none

/-- `run_command` in the shell, until it returns or waits. -/
def runCommand (call : Call) (p : Parent) : Outcome Parent := do
  let (runConcurrently, _) ← splitCommand call.args call.tokens.length
  let pid := p.children.length
  let children := p.children ++ [.running]
  if !runConcurrently then
    pure { p with children, waiting := some pid }
  else
    pure { p with children }

/-- The shell makes its next call, a child terminates, or `wait(NULL)` reaps a child and
returns, and the call with it. -/
inductive ParentAction where
  | call
  | terminate (pid : ℕ)
  | reap (pid : ℕ)

def parentStep : ParentAction → Parent → Option Parent
  | .call, p =>
      match p.waiting, p.calls with
      | none, call :: rest => (runCommand call { p with calls := rest }).toOption
      | _, _ => none
  | .terminate pid, p =>
      if p.children[pid]? = some .running then
        some { p with children := p.children.set pid .terminated }
      else none
  | .reap pid, p =>
      if p.waiting.isSome ∧ p.children[pid]? = some .terminated then
        some { p with children := p.children.set pid .reaped, waiting := none }
      else none

/-- Whenever a call returns from `wait(NULL)`, the child that it has forked is not
running any more. -/
def WaitsForOwn (calls : List Call) : Prop :=
  ∀ s, ReachedFrom (Parent.start calls) parentStep s → ∀ pid after own,
    parentStep (.reap pid) s = some after → s.waiting = some own →
    after.children[own]? ≠ some .running

/-- The call is for a line that ends with `&`. -/
def Call.background (call : Call) : Bool := inBackground call.tokens

/-- No call without `&` comes after one with `&`. -/
def BackgroundLast (calls : List Call) : Prop :=
  calls.Pairwise fun earlier later => earlier.background = true → later.background = true

section Steps

variable {p after : Parent} {call : Call}

/-- A call forks a child and waits for it unless it is a background call. -/
theorem runCommand_ok : runCommand call p = .ok
    { p with
      children := p.children ++ [.running]
      waiting := if call.background then p.waiting else some p.children.length } := by
  obtain ⟨commands, split, _⟩ := splitCommand_ok call.behind call.nonempty call.words call.fits
  rw [runCommand, Call.args, split]
  cases background : inBackground call.tokens with
  | true => simp [Call.background, background]
  | false => simp [Call.background, background]

/-- What a step can do. -/
theorem parentStep_cases {action : ParentAction} (taken : parentStep action p = some after) :
    (action = .call ∧ p.waiting = none ∧ ∃ call rest, p.calls = call :: rest ∧
      after = ⟨rest, p.children ++ [.running],
        if call.background then none else some p.children.length⟩) ∨
    (∃ pid, action = .terminate pid ∧ p.children[pid]? = some .running ∧
      after = { p with children := p.children.set pid .terminated }) ∨
    ∃ pid, action = .reap pid ∧ p.waiting.isSome ∧ p.children[pid]? = some .terminated ∧
      after = { p with children := p.children.set pid .reaped, waiting := none } := by
  cases action with
  | call =>
      rw [parentStep] at taken
      split at taken
      · next call rest idle next =>
          rw [runCommand_ok] at taken
          cases taken
          exact Or.inl ⟨rfl, idle, call, rest, next, by rw [idle]⟩
      · cases taken
  | terminate pid =>
      obtain ⟨running, ⟨⟩⟩ := Option.ite_none_right_eq_some.mp taken
      exact Or.inr (Or.inl ⟨pid, rfl, running, rfl⟩)
  | reap pid =>
      obtain ⟨both, ⟨⟩⟩ := Option.ite_none_right_eq_some.mp taken
      exact Or.inr (Or.inr ⟨pid, rfl, both.1, both.2, rfl⟩)

end Steps

/-! ## Background calls at the end -/

section Alone

variable {calls made : List Call} {p after : Parent} {pid own : ℕ}

def AllForeground (made : List Call) : Prop := ∀ call ∈ made, call.background = false

/-- While no background call has been made, the only child that is not reaped is the one
that the shell waits for; and it never waits after a background call. -/
structure Alone (made : List Call) (p : Parent) : Prop where
  foreground : p.waiting.isSome → AllForeground made
  others : AllForeground made → ∀ pid status, p.children[pid]? = some status →
    status = .reaped ∨ p.waiting = some pid

theorem Alone.unreaped {status : Status} (alone : Alone made p) (foreground : AllForeground made)
    (child : p.children[pid]? = some status) (unreaped : status ≠ .reaped) :
    p.waiting = some pid :=
  (alone.others foreground pid status child).resolve_left unreaped

theorem Alone.start : Alone [] (Parent.start calls) where
  foreground waiting := absurd waiting Bool.false_ne_true
  others _ pid status child := by simp [Parent.start] at child

theorem Alone.call {call : Call} {rest : List Call} (alone : Alone made p) (idle : p.waiting = none)
    (foregroundBefore : call.background = false → AllForeground made) :
    Alone (made ++ [call]) ⟨rest, p.children ++ [.running],
      if call.background then none else some p.children.length⟩ where
  foreground waiting := by
    have foreground : call.background = false := by
      simpa using waiting
    intro other member
    cases List.mem_append.mp member with
    | inl before => exact foregroundBefore foreground other before
    | inr last => rwa [List.mem_singleton.mp last]
  others allForeground pid status child := by
    have foreground : call.background = false := allForeground call (by simp)
    rw [foreground]
    by_cases last : pid = p.children.length
    · exact Or.inr (by simp [last])
    · have earlier : p.children[pid]? = some status := by
        rw [List.getElem?_append] at child
        split at child
        · exact child
        · next behind =>
            rw [List.getElem?_singleton, if_neg (by omega)] at child
            cases child
      have allBefore : AllForeground made := fun other before =>
        allForeground other (List.mem_append_left _ before)
      refine Or.inl ((alone.others allBefore pid status earlier).resolve_right ?_)
      rw [idle]
      exact Option.some_ne_none pid ∘ Eq.symm

theorem Alone.terminate (alone : Alone made p) (running : p.children[pid]? = some .running) :
    Alone made { p with children := p.children.set pid .terminated } where
  foreground := alone.foreground
  others allForeground other status child := by
    by_cases same : pid = other
    · rw [← same]
      exact Or.inr (alone.unreaped allForeground running (by decide))
    · rw [List.getElem?_set_ne same] at child
      exact alone.others allForeground other status child

theorem Alone.reap (alone : Alone made p)
    (terminated : p.children[pid]? = some .terminated) :
    Alone made { p with children := p.children.set pid .reaped, waiting := none } where
  foreground again := absurd again Bool.false_ne_true
  others allForeground other status child := by
    left
    by_cases same : pid = other
    · rw [← same, List.getElem?_set_self', terminated] at child
      exact (Option.some.inj child).symm
    · rw [List.getElem?_set_ne same] at child
      refine (alone.others allForeground other status child).resolve_right fun own => same ?_
      have waitsForPid := alone.unreaped allForeground terminated (by decide)
      exact Option.some.inj (waitsForPid.symm.trans own)

/-- The child that is reaped is the one that the shell waits for. -/
theorem Alone.reaps_own (alone : Alone made p) (waiting : p.waiting = some own)
    (terminated : p.children[pid]? = some .terminated) : pid = own := by
  have foreground : AllForeground made := alone.foreground (by simp [waiting])
  have unreaped := alone.unreaped foreground terminated (by decide)
  exact (Option.some.inj (waiting.symm.trans unreaped)).symm

/-- The calls that have been made are those that are not to come. -/
def AloneSoFar (calls : List Call) (p : Parent) : Prop :=
  ∃ made, made ++ p.calls = calls ∧ Alone made p

theorem AloneSoFar.step {action : ParentAction} (last : BackgroundLast calls)
    (alone : AloneSoFar calls p) (taken : parentStep action p = some after) :
    AloneSoFar calls after := by
  obtain ⟨made, split, alone⟩ := alone
  obtain ⟨-, idle, call, rest, next, rfl⟩ | ⟨pid, -, running, rfl⟩ |
    ⟨pid, -, waiting, terminated, rfl⟩ := parentStep_cases taken
  · rw [next] at split
    refine ⟨made ++ [call], by simpa using split, alone.call idle fun foreground other before => ?_⟩
    rw [← split, BackgroundLast, List.pairwise_append] at last
    have order := last.2.2 other before call List.mem_cons_self
    rw [foreground] at order
    exact Bool.eq_false_iff.mpr fun background => Bool.false_ne_true (order background)
  · exact ⟨made, split, alone.terminate running⟩
  · exact ⟨made, split, alone.reap terminated⟩

theorem alone_of_reached (last : BackgroundLast calls)
    (reached : ReachedFrom (Parent.start calls) parentStep p) : AloneSoFar calls p :=
  reached.invariant ⟨[], rfl, .start⟩ (AloneSoFar.step last)

end Alone

/-! ## A foreground call after a background one -/

section Overtaken

variable {calls made rest : List Call} {call : Call} {children : List Status}

/-- The child of a call that has returned, when the children of background calls take
longer than all else. -/
def Call.served (call : Call) : Status := if call.background then .running else .reaped

theorem parentStep_call : parentStep .call ⟨call :: rest, children, none⟩ =
    some ⟨rest, children ++ [.running],
      if call.background then none else some children.length⟩ := by
  simp only [parentStep, runCommand_ok]
  rfl

/-- One call returns without any other child having terminated. -/
theorem reached_served_one
    (reached : ReachedFrom (Parent.start calls) parentStep ⟨call :: rest, children, none⟩) :
    ReachedFrom (Parent.start calls) parentStep ⟨rest, children ++ [call.served], none⟩ := by
  have called := reached.step .call parentStep_call
  rw [Call.served]
  cases background : call.background with
  | true => simpa [background] using called
  | false =>
      rw [background, if_neg Bool.false_ne_true] at called
      have terminates : parentStep (.terminate children.length)
          ⟨rest, children ++ [.running], some children.length⟩ =
          some ⟨rest, children ++ [.terminated], some children.length⟩ := by
        simp [parentStep]
      exact (called.step _ terminates).step (.reap children.length) (by simp [parentStep])

theorem reached_served : ∀ {made : List Call} {children : List Status},
    ReachedFrom (Parent.start calls) parentStep ⟨made ++ rest, children, none⟩ →
      ReachedFrom (Parent.start calls) parentStep ⟨rest, children ++ made.map Call.served, none⟩
  | [], children, reached => by simpa using reached
  | call :: made, children, reached => by
      have others := reached_served (reached_served_one reached)
      rwa [List.append_assoc] at others

/-- A child of the background call terminates while the shell waits for another one. -/
theorem not_waitsForOwn (made rest : List Call) (pid : ℕ) {earlier : Call}
    (early : made[pid]? = some earlier)
    (background : earlier.background = true) (foreground : call.background = false) :
    ¬WaitsForOwn (made ++ call :: rest) := by
  intro waits
  have idle : ReachedFrom (Parent.start (made ++ call :: rest)) parentStep
      ⟨call :: rest, made.map Call.served, none⟩ := reached_served .start
  have called := idle.step .call parentStep_call
  rw [foreground, if_neg Bool.false_ne_true, List.length_map] at called
  have inside : pid < made.length := (List.getElem?_eq_some_iff.mp early).1
  have other : pid ≠ made.length := Nat.ne_of_lt inside
  generalize forked : made.map Call.served ++ [Status.running] = children at called
  have runs : children[pid]? = some .running := by
    rw [← forked, List.getElem?_append_left (by simpa using inside), List.getElem?_map, early]
    simp [Call.served, background]
  have ownRuns : children[made.length]? = some .running := by
    rw [← forked, List.getElem?_append_right (by simp)]
    simp
  have terminated := called.step (.terminate pid) (if_pos runs)
  have reaps : parentStep (.reap pid) ⟨rest, children.set pid .terminated, some made.length⟩ =
      some ⟨rest, (children.set pid .terminated).set pid .reaped, none⟩ := by
    refine if_pos ⟨rfl, ?_⟩
    rw [List.getElem?_set_self', runs]
    rfl
  refine waits _ terminated pid _ made.length reaps rfl ?_
  rw [List.getElem?_set_ne other, List.getElem?_set_ne other, ownRuns]

/-- The shell waits for its own child in every run exactly when no foreground call comes
after a background one. -/
theorem waitsForOwn_iff (calls : List Call) : WaitsForOwn calls ↔ BackgroundLast calls := by
  constructor
  · intro waits
    refine List.pairwise_iff_getElem.mpr fun i j inside inside' before background => ?_
    by_contra foreground
    refine not_waitsForOwn (calls.take j) (calls.drop (j + 1)) i ?_
      background (Bool.eq_false_iff.mpr foreground) ?_
    · rw [List.getElem?_take_of_lt before, List.getElem?_eq_getElem inside]
    · rwa [← List.drop_eq_getElem_cons inside', List.take_append_drop]
  · intro last s reached pid after own taken waiting
    obtain ⟨made, _, alone⟩ := alone_of_reached last reached
    obtain ⟨action, -⟩ | ⟨_, action, -⟩ | ⟨reaped, action, -, terminated, rfl⟩ :=
      parentStep_cases taken
    · cases action
    · cases action
    · cases action
      obtain rfl := alone.reaps_own waiting terminated
      rw [List.getElem?_set_self', terminated]
      exact fun running => Status.noConfusion (Option.some.inj running)

/-- `sleep 1 &` -/
def sleepInBackground : Call where
  tokens := [['s', 'l', 'e', 'e', 'p'], ['1'], ['&']]
  behind := initArgs
  nonempty := by decide
  words := by decide
  fits := by decide

/-- `sleep 5` -/
def sleepInForeground : Call where
  tokens := [['s', 'l', 'e', 'e', 'p'], ['5']]
  behind := initArgs
  nonempty := by decide
  words := by decide
  fits := by decide

/-- The first child is reaped while the shell waits for the second. -/
theorem waits_for_other_demo : ¬WaitsForOwn [sleepInBackground, sleepInForeground] :=
  not_waitsForOwn [sleepInBackground] [] 0 rfl (by decide) (by decide)

end Overtaken

end OsProjects.Shell
