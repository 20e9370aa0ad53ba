import OsProjects.Banker.Run

/-!
Owns the operational reading of safety: from every reachable state the
customers can be served one after the other by the calls themselves.

Serving a customer requests its whole remaining need and then releases all it
holds. Both calls are accepted when its need is covered, they keep the
invariant of runs, and afterwards the stock has grown by what the customer
held. So a safe order of the ledger is an order in which every call returns 0.
-/

namespace OsProjects.Banker

open OsProjects.C
open OsProjects.Theory

variable {customers resources : ℕ}

/-- Going through the customers in order, `request_resources(c, need[c])` and
then `release_resources(c, allocation[c])` return 0, each with the rows as they
stand at the call. -/
inductive Serves :
    State customers resources → List (Fin customers) → State customers resources → Prop where
  | nil (s : State customers resources) : Serves s [] s
  | cons {s middle served after : State customers resources} {c : Fin customers}
      {order : List (Fin customers)}
      (request : requestResources c (s.need c) s = .ok (0, middle))
      (release : releaseResources c (middle.allocation c) middle = .ok (0, served))
      (rest : Serves served order after) : Serves s (c :: order) after

/-- The state after customer `c` has been served. -/
def State.served (s : State customers resources) (c : Fin customers) :
    State customers resources :=
  (s.granted c (s.need c)).released c ((s.granted c (s.need c)).allocation c)

section Served

variable {s : State customers resources} {c : Fin customers}

theorem served_available : (s.served c).available = s.available + s.allocation c := by
  funext r
  simp only [State.served, State.released, State.returned, State.granted, State.moved,
    Function.update_self, if_true, Pi.add_apply]
  omega

theorem served_allocation_self : (s.served c).allocation c = fun _ => 0 := by
  funext r
  simp [State.served, State.released, State.returned]

theorem served_other {d : Fin customers} (different : d ≠ c) :
    (s.served c).allocation d = s.allocation d ∧ (s.served c).need d = s.need d := by
  constructor <;>
    simp [State.served, State.released, State.returned, State.granted, State.moved, different]

/-- Both calls for a covered customer are accepted, and the invariant is kept. -/
theorem serve_covered {initial : State customers resources}
    (consistent : Consistent initial s) (covered : s.need c ≤ s.available) :
    requestResources c (s.need c) s = .ok (0, s.granted c (s.need c)) ∧
      releaseResources c ((s.granted c (s.need c)).allocation c) (s.granted c (s.need c)) =
        .ok (0, s.served c) ∧
      Consistent initial (s.served c) := by
  have acceptable : Acceptable s c (s.need c) := fun r =>
    ⟨consistent.needNonneg c r, le_rfl, covered r⟩
  have safe : (s.granted c (s.need c)).ledger.Safe := by
    rw [granted_ledger]
    exact Ledger.grant_need_safe (fun d => consistent.allocationNonneg d) covered consistent.safe
  have grantedConsistent := consistent.granted acceptable safe
  have returnable : ∀ r, Returnable (s.granted c (s.need c)) c
      ((s.granted c (s.need c)).allocation c) r := fun r =>
    ⟨grantedConsistent.allocationNonneg c r, le_rfl⟩
  exact ⟨requestResources_granted consistent.toSound acceptable safe,
    releaseResources_accepted grantedConsistent.toSound returnable,
    grantedConsistent.released returnable⟩

end Served

/-- A completing order of the ledger is served in full. Induction along the
order: serving its head gives the tail the stock the ledger promises. -/
theorem serves_of_completes {initial : State customers resources} :
    ∀ {order : List (Fin customers)} {s : State customers resources},
      Consistent initial s → order.Nodup → s.ledger.Completes s.available order →
        ∃ after, Serves s order after ∧ Consistent initial after ∧
          (∀ c ∈ order, after.allocation c = fun _ => 0) ∧
            ∀ c, c ∉ order → after.allocation c = s.allocation c
  | [], s, consistent, _, _ =>
      ⟨s, .nil s, consistent, fun _ member => by simp at member, fun _ _ => rfl⟩
  | c :: order, s, consistent, nodup, completes => by
      rcases List.nodup_cons.mp nodup with ⟨headFresh, restNodup⟩
      rcases serve_covered consistent completes.1 with ⟨request, release, servedConsistent⟩
      have restCompletes : (s.served c).ledger.Completes (s.served c).available order := by
        rw [served_available]
        refine Ledger.completes_congr _ (fun d member => ?_) completes.2
        exact served_other fun same => headFresh (same ▸ member)
      obtain ⟨after, serves, afterConsistent, emptied, untouched⟩ :=
        serves_of_completes servedConsistent restNodup restCompletes
      refine ⟨after, .cons request release serves, afterConsistent, ?_, ?_⟩
      · intro d member
        rcases List.mem_cons.mp member with same | later
        · rw [same, untouched c headFresh, served_allocation_self]
        · exact emptied d later
      · intro d notMember
        have different : d ≠ c := fun same => notMember (by simp [same])
        have notLater : d ∉ order := fun later => notMember (List.mem_cons_of_mem _ later)
        rw [untouched d notLater, (served_other different).1]

/-- From every reachable state some order of all customers is served in full,
and the bank ends with everything back in stock. -/
theorem reachable_serves_all {initial s : State customers resources}
    (start : SafeStart initial) (reachable : Reachable initial s) :
    ∃ order : List (Fin customers), order.Nodup ∧ (∀ c, c ∈ order) ∧
      ∃ after, Serves s order after ∧ (∀ c r, after.allocation c r = 0) ∧
        after.available = initial.available := by
  have consistent := reachable.consistent start
  obtain ⟨order, nodup, all, completes⟩ := consistent.safe
  obtain ⟨after, serves, afterConsistent, emptied, _⟩ :=
    serves_of_completes consistent nodup completes
  have empty : ∀ c r, after.allocation c r = 0 := by
    intro c r
    rw [emptied c (all c)]
  refine ⟨order, nodup, all, after, serves, empty, ?_⟩
  funext r
  have total := afterConsistent.conserved r
  simpa [empty] using total

/-- After a granted request and an accepted release. -/
theorem reachable_serves_all_demo :
    ∃ order : List (Fin numberOfCustomers), order.Nodup ∧ (∀ c, c ∈ order) ∧
      ∃ after, Serves ((demoState.granted 0 ![3, 1, 2, 1]).released 0 ![1, 1, 0, 1]) order after ∧
        (∀ c r, after.allocation c r = 0) ∧ after.available = demoState.available :=
  reachable_serves_all demoState_safeStart
    (.release (.request .start demoState_granted) demoState_released)

end OsProjects.Banker
