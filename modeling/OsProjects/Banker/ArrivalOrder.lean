import Mathlib.Data.List.Perm.Subperm
import OsProjects.Banker.Request

/-!
Owns the independence of grants from the order of arrival.

A list of requests is granted one after the other exactly when its end state
has no negative entry and is safe: taking a grant back keeps a state safe and
only raises `available` and `need`, so every state on the way is acceptable as
well. The end state is a sum of moves, so it does not see their order.
-/

namespace OsProjects.Banker

open OsProjects.C
open OsProjects.Theory

variable {customers resources : ℕ}

/-- `request_resources` grants the requests one after the other. -/
inductive Grants : State customers resources → List (Int × (Fin resources → Int)) →
    State customers resources → Prop where
  | nil (s : State customers resources) : Grants s [] s
  | cons {s middle after : State customers resources} {customer : Int}
      {request : Fin resources → Int} {calls : List (Int × (Fin resources → Int))}
      (call : requestResources customer request s = .ok (0, middle))
      (rest : Grants middle calls after) : Grants s ((customer, request) :: calls) after

/-- A request of an existing customer. -/
abbrev Move (customers resources : ℕ) := Fin customers × (Fin resources → Int)

def Move.call (move : Move customers resources) : Int × (Fin resources → Int) :=
  (move.1, move.2)

/-- All the moves made, whatever the checks say. -/
def State.grantAll (s : State customers resources) :
    List (Move customers resources) → State customers resources
  | [] => s
  | move :: moves => (s.granted move.1 move.2).grantAll moves

/-- No available or needed amount is negative. -/
structure NonNegative (s : State customers resources) : Prop where
  available : ∀ r, 0 ≤ s.available r
  need : ∀ c r, 0 ≤ s.need c r

/-- The moves are non-negative, their end state has no negative entry, and it is
safe when there is a move at all. -/
structure Feasible (s : State customers resources) (moves : List (Move customers resources)) :
    Prop where
  amounts : ∀ move ∈ moves, ∀ r, 0 ≤ move.2 r
  finalNonNegative : NonNegative (s.grantAll moves)
  finalSafe : moves ≠ [] → (s.grantAll moves).ledger.Safe

/-! ## Moves in any order -/

theorem granted_comm (s : State customers resources) (first second : Move customers resources) :
    (s.granted first.1 first.2).granted second.1 second.2 =
      (s.granted second.1 second.2).granted first.1 first.2 := by
  obtain ⟨c, request⟩ := first
  obtain ⟨d, other⟩ := second
  apply State.ext
  · funext r
    simp only [granted_available]
    omega
  · rfl
  · funext e r
    simp only [granted_allocation]
    omega
  · funext e r
    simp only [granted_need]
    omega

theorem grantAll_perm {moves other : List (Move customers resources)}
    (permutation : moves.Perm other) (s : State customers resources) :
    s.grantAll moves = s.grantAll other := by
  induction permutation generalizing s with
  | nil => rfl
  | cons move _ inductionHypothesis => exact inductionHypothesis (s.granted move.1 move.2)
  | swap first second rest =>
      simp only [State.grantAll, granted_comm s second first]
  | trans _ _ firstHypothesis secondHypothesis =>
      rw [firstHypothesis s, secondHypothesis s]

theorem grantAll_append (s : State customers resources)
    (moves rest : List (Move customers resources)) :
    s.grantAll (moves ++ rest) = (s.grantAll moves).grantAll rest := by
  induction moves generalizing s with
  | nil => rfl
  | cons move moves inductionHypothesis => exact inductionHypothesis (s.granted move.1 move.2)

/-- Moves only lower what is available and needed. -/
theorem grantAll_le {moves : List (Move customers resources)}
    (amounts : ∀ move ∈ moves, ∀ r, 0 ≤ move.2 r) (s : State customers resources) :
    (∀ r, (s.grantAll moves).available r ≤ s.available r) ∧
      ∀ c r, (s.grantAll moves).need c r ≤ s.need c r := by
  induction moves generalizing s with
  | nil => exact ⟨fun _ => le_rfl, fun _ _ => le_rfl⟩
  | cons move moves inductionHypothesis =>
      obtain ⟨available, need⟩ := inductionHypothesis
        (fun other member => amounts other (List.mem_cons_of_mem _ member))
        (s.granted move.1 move.2)
      have amount := amounts move (by simp)
      constructor
      · intro r
        refine (available r).trans ?_
        have entry := amount r
        rw [granted_available]
        omega
      · intro c r
        refine (need c r).trans ?_
        have entry := amount r
        rw [granted_need]
        split <;> omega

/-- A state is safe when the moves from it lead to a safe state. -/
theorem safe_of_grantAll {moves : List (Move customers resources)}
    (amounts : ∀ move ∈ moves, ∀ r, 0 ≤ move.2 r) {s : State customers resources}
    (safe : (s.grantAll moves).ledger.Safe) : s.ledger.Safe := by
  induction moves generalizing s with
  | nil => exact safe
  | cons move moves inductionHypothesis =>
      have next := inductionHypothesis
        (fun other member => amounts other (List.mem_cons_of_mem _ member)) safe
      rw [granted_ledger] at next
      exact Ledger.safe_of_grant (amounts move (by simp)) next

/-! ## Granted lists -/

theorem NonNegative.granted {s : State customers resources} {c : Fin customers}
    {request : Fin resources → Int} (nonNegative : NonNegative s)
    (acceptable : Acceptable s c request) : NonNegative (s.granted c request) where
  available := by
    intro r
    have inStock := (acceptable r).2.2
    rw [granted_available]
    omega
  need := by
    intro d r
    have needed := (acceptable r).2.1
    have own := nonNegative.need d r
    rw [granted_need]
    by_cases same : d = c
    · subst same
      rw [if_pos rfl]
      omega
    · rwa [if_neg same, sub_zero]

theorem Grants.unique {s first second : State customers resources}
    {calls : List (Int × (Fin resources → Int))} (grants : Grants s calls first)
    (other : Grants s calls second) : first = second := by
  induction grants with
  | nil s =>
      cases other
      rfl
  | cons call rest inductionHypothesis =>
      cases other with
      | cons otherCall otherRest =>
          rw [call] at otherCall
          simp only [Except.ok.injEq, Prod.mk.injEq, true_and] at otherCall
          subst otherCall
          exact inductionHypothesis otherRest

/-- A granted list consists of moves of existing customers, and is feasible. -/
theorem Grants.feasible {s after : State customers resources}
    {calls : List (Int × (Fin resources → Int))} (grants : Grants s calls after)
    (sound : Sound s) (nonNegative : NonNegative s) :
    ∃ moves : List (Move customers resources), calls = moves.map Move.call ∧
      Feasible s moves ∧ after = s.grantAll moves := by
  induction grants with
  | nil s =>
      exact ⟨[], rfl, ⟨by simp, nonNegative, by simp⟩, rfl⟩
  | cons call rest inductionHypothesis =>
      rcases (requestResources_eq_zero_iff sound).mp call with ⟨c, rfl, acceptable, safe, rfl⟩
      obtain ⟨moves, rfl, feasible, rfl⟩ := inductionHypothesis
        (granted_sound sound acceptable) (nonNegative.granted acceptable)
      refine ⟨(c, _) :: moves, rfl, ⟨?_, feasible.finalNonNegative, ?_⟩, rfl⟩
      · intro move member
        rcases List.mem_cons.mp member with rfl | later
        · exact fun r => (acceptable r).1
        · exact feasible.amounts move later
      · intro _
        by_cases last : moves = []
        · rw [last]
          exact safe
        · exact feasible.finalSafe last

/-- A feasible list of moves is granted call by call. -/
theorem Feasible.grants {moves : List (Move customers resources)} :
    ∀ {s : State customers resources}, Sound s → NonNegative s → Feasible s moves →
      Grants s (moves.map Move.call) (s.grantAll moves) := by
  induction moves with
  | nil => exact fun {s} _ _ _ => .nil s
  | cons move moves inductionHypothesis =>
      intro s sound nonNegative feasible
      have laterAmounts : ∀ other ∈ moves, ∀ r, 0 ≤ other.2 r := fun other member =>
        feasible.amounts other (List.mem_cons_of_mem _ member)
      have amount := feasible.amounts move (by simp)
      rcases grantAll_le laterAmounts (s.granted move.1 move.2) with ⟨availableLe, needLe⟩
      have acceptable : Acceptable s move.1 move.2 := by
        intro r
        have available := (feasible.finalNonNegative.available r).trans (availableLe r)
        have need := (feasible.finalNonNegative.need move.1 r).trans (needLe move.1 r)
        rw [granted_available] at available
        rw [granted_need, if_pos rfl] at need
        exact ⟨amount r, by omega, by omega⟩
      have safe := safe_of_grantAll laterAmounts (feasible.finalSafe (by simp))
      exact .cons (requestResources_granted sound acceptable safe)
        (inductionHypothesis (granted_sound sound acceptable) (nonNegative.granted acceptable)
          ⟨laterAmounts, feasible.finalNonNegative, fun _ => feasible.finalSafe (by simp)⟩)

/-- The first part of a feasible list is feasible. -/
theorem Feasible.left {s : State customers resources}
    {moves rest : List (Move customers resources)} (feasible : Feasible s (moves ++ rest)) :
    Feasible s moves := by
  have restAmounts : ∀ move ∈ rest, ∀ r, 0 ≤ move.2 r := fun move member =>
    feasible.amounts move (List.mem_append_right _ member)
  have final := feasible.finalNonNegative
  rw [grantAll_append] at final
  rcases grantAll_le restAmounts (s.grantAll moves) with ⟨availableLe, needLe⟩
  refine ⟨fun move member => feasible.amounts move (List.mem_append_left _ member),
    ⟨fun r => (final.available r).trans (availableLe r),
      fun c r => (final.need c r).trans (needLe c r)⟩, ?_⟩
  intro nonempty
  have safe := feasible.finalSafe (by simp [nonempty])
  rw [grantAll_append] at safe
  exact safe_of_grantAll restAmounts safe

theorem Feasible.perm {s : State customers resources}
    {moves other : List (Move customers resources)} (feasible : Feasible s moves)
    (permutation : moves.Perm other) : Feasible s other where
  amounts := fun move member => feasible.amounts move (permutation.mem_iff.mpr member)
  finalNonNegative := grantAll_perm permutation s ▸ feasible.finalNonNegative
  finalSafe := by
    intro nonempty
    rw [← grantAll_perm permutation s]
    exact feasible.finalSafe fun isNil => nonempty (by simpa [isNil] using permutation)

theorem call_injective :
    Function.Injective (Move.call : Move customers resources → Int × (Fin resources → Int)) := by
  intro first second same
  rcases Prod.mk.inj same with ⟨sameCustomer, sameRequest⟩
  exact Prod.ext (Fin.ext (by omega)) sameRequest

/-- A list whose calls all come from moves is the image of a list of moves. -/
theorem exists_moves {calls : List (Int × (Fin resources → Int))}
    (valid : ∀ call ∈ calls, ∃ move : Move customers resources, move.call = call) :
    ∃ moves : List (Move customers resources), calls = moves.map Move.call := by
  induction calls with
  | nil => exact ⟨[], rfl⟩
  | cons call calls inductionHypothesis =>
      rcases valid call (by simp) with ⟨move, same⟩
      obtain ⟨moves, rest⟩ := inductionHypothesis fun other member =>
        valid other (List.mem_cons_of_mem _ member)
      exact ⟨move :: moves, by rw [List.map_cons, same, rest]⟩

/-- Requests that are granted one after the other are granted in every order and
in every selection, and all orders of the whole list end in the same state. -/
theorem grants_any_order {s after : State customers resources}
    {calls : List (Int × (Fin resources → Int))} (sound : Sound s)
    (nonNegative : NonNegative s) (grants : Grants s calls after) :
    (∀ selected issued, selected.Sublist calls → issued.Perm selected →
        ∃ final, Grants s issued final) ∧
      ∀ issued, issued.Perm calls →
        Grants s issued after ∧ ∀ final, Grants s issued final → final = after := by
  rcases grants.feasible sound nonNegative with ⟨moves, rfl, feasible, rfl⟩
  have selection : ∀ issued, issued.Subperm (moves.map Move.call) →
      ∃ chosen rest : List (Move customers resources),
        issued = chosen.map Move.call ∧ moves.Perm (chosen ++ rest) := by
    intro issued subperm
    obtain ⟨selected, permutation, sublist⟩ := subperm
    obtain ⟨others, complement⟩ := sublist.exists_perm_append
    have whole : (moves.map Move.call).Perm (issued ++ others) :=
      complement.trans (permutation.append_right others)
    have valid : ∀ call ∈ issued ++ others, ∃ move : Move customers resources,
        move.call = call := by
      intro call member
      rcases List.mem_map.mp (whole.mem_iff.mpr member) with ⟨move, _, same⟩
      exact ⟨move, same⟩
    obtain ⟨chosen, rfl⟩ := exists_moves fun call member =>
      valid call (List.mem_append_left _ member)
    obtain ⟨rest, rfl⟩ := exists_moves fun call member =>
      valid call (List.mem_append_right _ member)
    rw [← List.map_append] at whole
    exact ⟨chosen, rest, rfl, (List.map_perm_map_iff call_injective).mp whole⟩
  constructor
  · intro selected issued sublist permutation
    rcases selection issued ⟨selected, permutation.symm, sublist⟩ with ⟨chosen, rest, rfl, split⟩
    exact ⟨_, ((feasible.perm split).left).grants sound nonNegative⟩
  · intro issued permutation
    rcases selection issued permutation.subperm with ⟨chosen, rest, rfl, split⟩
    have none : rest = [] := by
      have issuedLength := permutation.length_eq
      have splitLength := split.length_eq
      rw [List.length_map, List.length_map] at issuedLength
      rw [List.length_append] at splitLength
      exact List.length_eq_zero_iff.mp (by omega)
    rw [none, List.append_nil] at split
    have granted := (feasible.perm split).grants sound nonNegative
    rw [← grantAll_perm split] at granted
    exact ⟨granted, fun final other => other.unique granted⟩

theorem grants_any_order_demo :
    ∃ final, Grants demoState [((1 : Int), ![1, 0, 0, 0]), (0, ![3, 1, 2, 1])] final := by
  have sound : Sound demoState :=
    ⟨⟨by decide, by decide, by decide⟩, by decide, by decide⟩
  have nonNegative : NonNegative demoState := ⟨by decide, by decide⟩
  have first : Acceptable demoState 0 ![3, 1, 2, 1] := by
    unfold Acceptable
    decide
  have second : Acceptable (demoState.granted 0 ![3, 1, 2, 1]) 1 ![1, 0, 0, 0] := by
    unfold Acceptable
    decide
  have middleSound := granted_sound sound first
  have firstSafe := safe_of_tested middleSound.toSumsFit rfl
  have secondSafe := safe_of_tested (granted_sound middleSound second).toSumsFit rfl
  have grants : Grants demoState [((0 : Int), ![3, 1, 2, 1]), (1, ![1, 0, 0, 0])] _ :=
    .cons (requestResources_granted sound first firstSafe)
      (.cons (requestResources_granted middleSound second secondSafe) (.nil _))
  exact ⟨_, ((grants_any_order sound nonNegative grants).2 _ (List.Perm.swap _ _ _)).1⟩

end OsProjects.Banker
