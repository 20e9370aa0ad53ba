import OsProjects.Allocator.Run
import OsProjects.C.Iteration
import OsProjects.C.Stream

/-!
Owns the loop of `main` of the allocator over its whole standard input: it is left, without a
command after the end of the input, exactly when the operator `X` is read.

A variable that `scanf` does not assign holds whatever it held: `op` the operator of the turn
before, the arguments of a request or a release something arbitrary.

Does not own what the commands do (`Request`, `Release`, `Compact`), or the texts the program
prints.
-/

namespace OsProjects.Allocator

open OsProjects.C

/-- `OPERATOR_LENGTH_LIMIT` -/
def operatorLengthLimit : ℕ := 8

/-- `NAME_LENGTH_LIMIT` -/
def nameLengthLimit : ℕ := 128

/-! ## `scanf` -/

/-- `%s` into an array of the size: the string that is stored, `none` when the input has ended. -/
def scanfString (size : ℕ) (input : List Char) : Outcome (Option (List Char) × List Char) :=
  match scanWord input with
  | (none, rest) => .ok (none, rest)
  | (some word, rest) =>
      if word.length < size then .ok (some (cString word), rest) else .error .outOfBounds

/-- `%zu`: a numeral that is too large is read as the largest `size_t`. -/
def scanfSize (input : List Char) : Option UInt64 × List Char :=
  let (numeral, rest) := scanNumeral input
  (numeral.map fun (negative, magnitude) =>
    if magnitude < 18446744073709551616 then
      if negative then -UInt64.ofNat magnitude else UInt64.ofNat magnitude
    else
      -1, rest)

/-- What `scanf("%s %zu %c", name, &size, &strategy)` assigns. -/
structure RequestArguments where
  name : Option String
  size : Option UInt64
  strategy : Option Char

/-- `scanf("%s %zu %c", name, &size, &strategy)`, which stops at the first conversion that
fails. -/
def scanRequest (input : List Char) : Outcome (RequestArguments × List Char) := do
  match ← scanfString nameLengthLimit input with
  | (none, input) => pure (⟨none, none, none⟩, input)
  | (some name, input) =>
      match scanfSize input with
      | (none, input) => pure (⟨some (String.ofList name), none, none⟩, input)
      | (some size, input) =>
          let (strategy, input) := scanChar input
          pure (⟨some (String.ofList name), some size, strategy⟩, input)

/-! ## The program -/

/-- What the local variables of a wrapper hold before they are assigned. -/
structure Uninitialized where
  name : String
  size : UInt64
  strategy : Char

/-- `request_wrapper` -/
def requestWrapper (garbage : Uninitialized) (input : List Char) (s : State) :
    Outcome (List Char × State) := do
  let (arguments, input) ← scanRequest input
  let (_, s) ← requestMemory (arguments.name.getD garbage.name)
    (arguments.size.getD garbage.size) (arguments.strategy.getD garbage.strategy) s
  pure (input, s)

/-- `release_wrapper` -/
def releaseWrapper (garbage : Uninitialized) (input : List Char) (s : State) :
    Outcome (List Char × State) := do
  let (name, input) ← scanfString nameLengthLimit input
  let (_, s) ← releaseMemory ((name.map String.ofList).getD garbage.name) s
  pure (input, s)

/-- One iteration of the loop of `clean_up`. -/
def cleanUpBody (s : State) : Outcome (LoopStep State State) := do
  let temp := s.mem
  let block ← s.heap.load s.mem
  let heap ← s.heap.free temp
  pure (.next { s with mem := block.next, heap })

/-- `clean_up` -/
def cleanUp (s : State) : Outcome State := do
  let last ← whileLoop (·.mem.isSome) cleanUpBody s.heap.fresh s
  pure last.state

/-- The standard input that is left, the string in `op`, the number of iterations so far, and the
global variables. -/
structure Console where
  input : List Char
  op : List Char
  turn : ℕ
  state : State

/-- One iteration of the loop of `main`. -/
def mainBody (garbage : ℕ → Uninitialized) (c : Console) : Outcome (LoopStep State Console) := do
  let (word, input) ← scanfString operatorLengthLimit c.input
  let op := word.getD c.op
  if op = ['R', 'Q'] then
    let (input, state) ← requestWrapper (garbage c.turn) input c.state
    pure (.next ⟨input, op, c.turn + 1, state⟩)
  else if op = ['R', 'L'] then
    let (input, state) ← releaseWrapper (garbage c.turn) input c.state
    pure (.next ⟨input, op, c.turn + 1, state⟩)
  else if op = ['C'] then
    let state ← compactMemory c.state
    pure (.next ⟨input, op, c.turn + 1, state⟩)
  else if op = ['S', 'T', 'A', 'T'] then
    pure (.next ⟨input, op, c.turn + 1, c.state⟩)
  else if op = ['X'] then
    let state ← cleanUp c.state
    pure (.exit state)
  else
    pure (.next ⟨input, op, c.turn + 1, c.state⟩)

/-- The allocator leaves its loop after finitely many iterations, and runs no command whose
operator it has not just read, whatever the variables hold that were never assigned. -/
def AllocatorStops (input : List Char) : Prop :=
  ∀ garbage op memSize, Leaves (mainBody garbage) (fun c => (scanWord c.input).1.isSome)
    ⟨input, op, 0, start memSize⟩

/-- What is left of the input behind the arguments of an operator. -/
def behindArguments (op input : List Char) : Outcome (List Char) :=
  if op = ['R', 'Q'] then
    (scanRequest input).map Prod.snd
  else if op = ['R', 'L'] then
    (scanfString nameLengthLimit input).map Prod.snd
  else
    .ok input

/-- The operator `X` is read before the input ends, and no word before it is longer than the
array it is read into. -/
inductive ReadsX : List Char → Prop where
  | here {input rest : List Char}
      (read : scanfString operatorLengthLimit input = .ok (some ['X'], rest)) : ReadsX input
  | later {input rest behind op : List Char}
      (read : scanfString operatorLengthLimit input = .ok (some op, rest))
      (arguments : behindArguments op rest = .ok behind) (reads : ReadsX behind) : ReadsX input

/-! ## One iteration -/

section Iteration

variable {s : State} {nodes : List Node} {c : Console} {garbage : ℕ → Uninitialized}
variable {input rest behind op : List Char} {step : LoopStep State Console}

/-- What is left to free: the nodes from `mem` on. -/
def LeftToFree (nodes : List Node) (s : State) : Prop :=
  s.mem = firstAddress nodes none ∧ (nodes.map Prod.fst).Nodup ∧
    ∃ before, Segment Extent.block s.heap before nodes none

theorem cleanUpBody_step {node : Node} (left : LeftToFree (node :: nodes) s) :
    ∃ after, cleanUpBody s = .ok (.next after) ∧ LeftToFree nodes after := by
  obtain ⟨address, extent⟩ := node
  obtain ⟨head, distinct, before, cell, others⟩ := left
  rw [List.map_cons, List.nodup_cons] at distinct
  refine ⟨{ s with mem := firstAddress nodes none, heap := s.heap.remove address }, ?_, rfl,
    distinct.2, some address, others.frame ?_⟩
  · rw [cleanUpBody, head, firstAddress_cons, Heap.load_some cell, ok_bind, Heap.free_some cell]
    rfl
  · intro other member
    exact Heap.remove_other fun same => distinct.1 (same ▸ member)

/-- `clean_up` frees every block. -/
theorem cleanUp_ok (consistent : Consistent s nodes) :
    ∃ after, cleanUp s = .ok after ∧ after.mem = none := by
  have linked := consistent.represents.linked
  have start : LeftToFree nodes s :=
    ⟨consistent.represents.head, linked.distinct, none, linked.segment⟩
  obtain ⟨after, run, empty, _⟩ := whileLoop_list_next (ρ := State) (·.mem.isSome) cleanUpBody
    LeftToFree (fun left => by simp [left.1]) (fun {node} _ _ left => by cases node; simp [left.1])
    cleanUpBody_step start linked.length_le_fresh
  refine ⟨after, ?_, empty⟩
  rw [cleanUp, run]
  rfl

/-- A wrapper that returns has read what its operator reads. -/
theorem requestWrapper_input {garbage : Uninitialized} {after : State}
    (ran : requestWrapper garbage input s = .ok (rest, after)) :
    (scanRequest input).map Prod.snd = .ok rest := by
  obtain ⟨⟨arguments, left⟩, scanned, requested⟩ := bind_eq_ok.mp ran
  obtain ⟨_, _, returned⟩ := bind_eq_ok.mp requested
  cases returned
  rw [scanned]
  rfl

theorem releaseWrapper_input {garbage : Uninitialized} {after : State}
    (ran : releaseWrapper garbage input s = .ok (rest, after)) :
    (scanfString nameLengthLimit input).map Prod.snd = .ok rest := by
  obtain ⟨⟨name, left⟩, scanned, released⟩ := bind_eq_ok.mp ran
  obtain ⟨_, _, returned⟩ := bind_eq_ok.mp released
  cases returned
  rw [scanned]
  rfl

/-- An iteration that returns leaves the loop at `X`, and otherwise has read the arguments of its
operator. -/
theorem mainBody_inv (read : scanfString operatorLengthLimit c.input = .ok (some op, rest))
    (ran : mainBody garbage c = .ok step) :
    op = ['X'] ∨ ∃ after, step = .next after ∧ behindArguments op rest = .ok after.input := by
  rw [mainBody, read] at ran
  simp only [ok_bind, Option.getD_some] at ran
  rw [behindArguments]
  split at ran
  · rename_i isRequest
    obtain ⟨⟨left, after⟩, requested, returned⟩ := bind_eq_ok.mp ran
    cases returned
    rw [if_pos isRequest]
    exact Or.inr ⟨_, rfl, requestWrapper_input requested⟩
  · rename_i noRequest
    rw [if_neg noRequest]
    split at ran
    · rename_i isRelease
      obtain ⟨⟨left, after⟩, released, returned⟩ := bind_eq_ok.mp ran
      cases returned
      rw [if_pos isRelease]
      exact Or.inr ⟨_, rfl, releaseWrapper_input released⟩
    · rename_i noRelease
      rw [if_neg noRelease]
      split at ran
      · obtain ⟨after, _, returned⟩ := bind_eq_ok.mp ran
        cases returned
        exact Or.inr ⟨_, rfl, rfl⟩
      · split at ran
        · cases ran
          exact Or.inr ⟨_, rfl, rfl⟩
        · split at ran
          · exact Or.inl ‹_›
          · cases ran
            exact Or.inr ⟨_, rfl, rfl⟩

theorem requestWrapper_ok (garbage : Uninitialized) (consistent : Consistent s nodes)
    (scanned : (scanRequest input).map Prod.snd = .ok rest) :
    ∃ after changed, requestWrapper garbage input s = .ok (rest, after) ∧
      Consistent after changed := by
  cases scan : scanRequest input with
  | error fault =>
      rw [scan] at scanned
      cases scanned
  | ok given =>
      rw [scan] at scanned
      cases scanned
      obtain ⟨code, after, changed, run, _, kept, _⟩ := consistent.perform
        (.request (given.1.name.getD garbage.name) (given.1.size.getD garbage.size)
          (given.1.strategy.getD garbage.strategy))
      have requested : requestMemory _ _ _ s = .ok (code, after) := run
      refine ⟨after, changed, ?_, kept⟩
      rw [requestWrapper, scan]
      simp only [ok_bind, requested]
      rfl

theorem releaseWrapper_ok (garbage : Uninitialized) (consistent : Consistent s nodes)
    (scanned : (scanfString nameLengthLimit input).map Prod.snd = .ok rest) :
    ∃ after changed, releaseWrapper garbage input s = .ok (rest, after) ∧
      Consistent after changed := by
  cases scan : scanfString nameLengthLimit input with
  | error fault =>
      rw [scan] at scanned
      cases scanned
  | ok given =>
      rw [scan] at scanned
      cases scanned
      obtain ⟨code, after, changed, run, _, kept, _⟩ := consistent.perform
        (.release ((given.1.map String.ofList).getD garbage.name))
      have released : releaseMemory _ s = .ok (code, after) := run
      refine ⟨after, changed, ?_, kept⟩
      rw [releaseWrapper, scan]
      simp only [ok_bind, released]
      rfl

theorem compactMemory_ok (consistent : Consistent s nodes) :
    ∃ after changed, compactMemory s = .ok after ∧ Consistent after changed := by
  obtain ⟨code, after, changed, run, _, kept, _⟩ := consistent.perform .compact
  obtain ⟨compacted, compact, returned⟩ := bind_eq_ok.mp run
  cases returned
  exact ⟨after, changed, compact, kept⟩

/-- From a consistent list every iteration returns whose words fit into their arrays. -/
theorem mainBody_next (garbage : ℕ → Uninitialized) (consistent : Consistent c.state nodes)
    (read : scanfString operatorLengthLimit c.input = .ok (some op, rest)) (stays : op ≠ ['X'])
    (arguments : behindArguments op rest = .ok behind) :
    ∃ after changed, mainBody garbage c = .ok (.next after) ∧ after.input = behind ∧
      Consistent after.state changed := by
  rw [behindArguments] at arguments
  rw [mainBody, read]
  simp only [ok_bind, Option.getD_some, if_neg stays]
  split
  · rename_i isRequest
    rw [if_pos isRequest] at arguments
    obtain ⟨after, changed, run, kept⟩ :=
      requestWrapper_ok (garbage c.turn) consistent arguments
    rw [run]
    exact ⟨_, changed, rfl, rfl, kept⟩
  · rename_i noRequest
    rw [if_neg noRequest] at arguments
    split
    · rename_i isRelease
      rw [if_pos isRelease] at arguments
      obtain ⟨after, changed, run, kept⟩ :=
        releaseWrapper_ok (garbage c.turn) consistent arguments
      rw [run]
      exact ⟨_, changed, rfl, rfl, kept⟩
    · rename_i noRelease
      rw [if_neg noRelease, Except.ok.injEq] at arguments
      split
      · obtain ⟨after, changed, run, kept⟩ := compactMemory_ok consistent
        rw [run]
        exact ⟨_, changed, rfl, arguments, kept⟩
      · split
        · exact ⟨_, nodes, rfl, arguments, consistent⟩
        · exact ⟨_, nodes, rfl, arguments, consistent⟩

theorem mainBody_exit (garbage : ℕ → Uninitialized) (consistent : Consistent c.state nodes)
    (read : scanfString operatorLengthLimit c.input = .ok (some ['X'], rest)) :
    ∃ after, mainBody garbage c = .ok (.exit after) := by
  obtain ⟨after, cleaned, _⟩ := cleanUp_ok consistent
  refine ⟨after, ?_⟩
  rw [mainBody, read]
  simp only [ok_bind, Option.getD_some, cleaned]
  rfl

end Iteration

/-! ## The whole input -/

section Input

variable {c : Console} {garbage : ℕ → Uninitialized} {input : List Char}

/-- Where a word is left to be read, an iteration that returns has stored it. -/
theorem scanfString_of_returns {step : LoopStep State Console}
    (reads : (scanWord c.input).1.isSome) (ran : mainBody garbage c = .ok step) :
    ∃ op rest, scanfString operatorLengthLimit c.input = .ok (some op, rest) := by
  obtain ⟨⟨word, rest⟩, scanned, _⟩ := bind_eq_ok.mp ran
  rw [scanned]
  rw [scanfString] at scanned
  split at scanned
  · rename_i ended
    rw [ended] at reads
    cases reads
  · split at scanned
    · cases scanned
      exact ⟨_, _, rfl⟩
    · cases scanned

theorem readsX_of_leaves
    (leaves : Leaves (mainBody garbage) (fun c => (scanWord c.input).1.isSome) c) :
    ReadsX c.input := by
  induction leaves with
  | exit here left =>
      obtain ⟨op, rest, read⟩ := scanfString_of_returns here left
      rcases mainBody_inv read left with rfl | ⟨after, goesOn, _⟩
      · exact .here read
      · cases goesOn
  | next here step _ inductionHypothesis =>
      obtain ⟨op, rest, read⟩ := scanfString_of_returns here step
      rcases mainBody_inv read step with rfl | ⟨after, same, arguments⟩
      · exact .here read
      · cases same
        exact .later read arguments inductionHypothesis

theorem scanWord_isSome {size : ℕ} {word rest : List Char}
    (read : scanfString size input = .ok (some word, rest)) : (scanWord input).1.isSome := by
  rw [scanfString] at read
  split at read
  · cases read
  · rename_i scanned
    rw [scanned]
    rfl

theorem leaves_of_readsX (reads : ReadsX input) {nodes : List Node} (same : c.input = input)
    (consistent : Consistent c.state nodes) :
    Leaves (mainBody garbage) (fun c => (scanWord c.input).1.isSome) c := by
  induction reads generalizing c nodes with
  | here read =>
      rw [← same] at read
      obtain ⟨after, left⟩ := mainBody_exit garbage consistent read
      exact .exit (scanWord_isSome read) left
  | @later input rest behind op read arguments _ inductionHypothesis =>
      rw [← same] at read
      by_cases exits : op = ['X']
      · subst exits
        obtain ⟨after, left⟩ := mainBody_exit garbage consistent read
        exact .exit (scanWord_isSome read) left
      · obtain ⟨after, changed, step, left, kept⟩ :=
          mainBody_next garbage consistent read exits arguments
        exact .next (scanWord_isSome read) step (inductionHypothesis left kept)

/-- The allocator leaves its loop exactly when `X` is read. -/
theorem allocatorStops_of_readsX (input : List Char) : AllocatorStops input ↔ ReadsX input := by
  constructor
  · intro stops
    exact readsX_of_leaves (stops (fun _ => ⟨"", 0, 'F'⟩) [] 1)
  · intro reads garbage op memSize
    exact leaves_of_readsX reads rfl (start_consistent memSize)

end Input

end OsProjects.Allocator
