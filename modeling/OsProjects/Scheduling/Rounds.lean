import OsProjects.Scheduling.RoundRobin

/-!
Owns the definition of round robin by rounds, and that `schedule_rr.c` runs the rounds
when no two tasks have one name.

Does not own what happens with equal names.
-/

namespace OsProjects.Scheduling

open OsProjects.C

variable {s : Turns} {entries : List Entry} {adds : List NewTask} {k : ℕ}

/-- The calls of `run` in round `k`: the tasks that need more than `k` quanta, the last
one added first. A task comes with the number of its call of `add`. -/
def round (added : List (NewTask × ℕ)) (k : ℕ) : List (Pointer × Int) :=
  (added.reverse.filter fun (new, _) => quantum * k < new.burst).map fun (new, i) =>
    (some i, min quantum (new.burst - quantum * k))

/-! ## The calls of the rounds -/

theorem calls_turnLog (k : ℕ) (e : Entry) :
    calls (turnLog k e) =
      if quantum * k < e.burst then [(some e.task, min quantum (e.burst - quantum * k))]
      else [] := by
  unfold turnLog
  split
  · split
    · rfl
    · rfl
  · rfl

theorem calls_turns (k : ℕ) (entries : List Entry) :
    calls (entries.flatMap (turnLog k)) =
      (entries.filter fun e => quantum * k < e.burst).map fun e =>
        (some e.task, min quantum (e.burst - quantum * k)) := by
  induction entries with
  | nil => rfl
  | cons e rest inductionHypothesis =>
      rw [List.flatMap_cons, calls_append, inductionHypothesis, List.filter_cons, calls_turnLog]
      by_cases needs : quantum * k < e.burst
      · rw [if_pos needs, if_pos (decide_eq_true needs), List.map_cons, List.singleton_append]
      · rw [if_neg needs, if_neg fun holds => needs (of_decide_eq_true holds), List.nil_append]

theorem calls_turns_entriesOf (remaining : NewTask → Int) (added : List (NewTask × ℕ)) (k : ℕ) :
    calls ((entriesOf remaining added).flatMap (turnLog k)) = round added k := by
  rw [calls_turns, round, entriesOf, ← List.map_reverse, List.filter_map, List.map_map]
  rfl

theorem calls_logAt (remaining : NewTask → Int) (added : List (NewTask × ℕ)) (rounds : ℕ) :
    calls (logAt (entriesOf remaining added) rounds []) =
      (List.range rounds).flatMap (round added) := by
  rw [logAt, List.flatMap_nil, List.append_nil, calls, List.filterMap_flatMap]
  apply List.flatMap_congr
  intro k _
  exact calls_turns_entriesOf remaining added k

/-! ## Entries with different names -/

/-- A turn is right when no two entries have one name. -/
theorem allRight_of_names (names : (entries.map Entry.name).Nodup) : AllRight entries := by
  intro k done e rest split _ _ d isDone _ same
  rw [split, List.map_append, List.map_cons, List.nodup_append] at names
  exact names.2.2 d.name (List.mem_map_of_mem isDone) e.name List.mem_cons_self same

theorem names_entriesOf (remaining : NewTask → Int) (added : List (NewTask × ℕ)) :
    (entriesOf remaining added).map Entry.name = (added.map fun a => a.1.name).reverse := by
  rw [entriesOf, List.map_reverse, List.map_map]
  rfl

theorem mem_entriesOf {remaining : NewTask → Int} {added : List (NewTask × ℕ)} {e : Entry}
    (member : e ∈ entriesOf remaining added) :
    ∃ new i, (new, i) ∈ added ∧
      e = ⟨i, i, ⟨new.name, new.priority, new.burst, remaining new⟩⟩ := by
  rcases List.mem_map.mp (List.mem_reverse.mp member) with ⟨⟨new, i⟩, isAdded, isEntry⟩
  exact ⟨new, i, isAdded, isEntry.symm⟩

theorem unserved_entriesOf {added : List (NewTask × ℕ)}
    (positive : ∀ a ∈ added, 1 ≤ a.1.burst) : Unserved (entriesOf NewTask.burst added) := by
  intro e member
  rcases mem_entriesOf member with ⟨new, i, isAdded, isEntry⟩
  rw [isEntry]
  exact ⟨positive _ isAdded, rfl⟩

theorem bursts_entriesOf (remaining : NewTask → Int) {added : List (NewTask × ℕ)} {bound : Int}
    (ended : ∀ a ∈ added, a.1.burst ≤ bound) :
    ∀ e ∈ entriesOf remaining added, e.burst ≤ bound := by
  intro e member
  rcases mem_entriesOf member with ⟨new, i, isAdded, isEntry⟩
  rw [isEntry]
  exact ended _ isAdded

/-! ## `next_node` -/

/-- The first entry that has a turn. -/
theorem exists_first {rest : List Entry} (nonempty : atRound k rest ≠ []) :
    ∃ pre e post, rest = pre ++ e :: post ∧ (∀ d ∈ pre, d.burst ≤ quantum * k) ∧
      quantum * k < e.burst := by
  rcases inFilter : rest.filter (fun e => quantum * k < e.burst) with _ | ⟨e, others⟩
  · unfold atRound at nonempty
    rw [inFilter] at nonempty
    exact absurd rfl nonempty
  · rcases List.filter_eq_cons_iff.mp inFilter with ⟨pre, post, split, passed, needs, _⟩
    refine ⟨pre, e, post, split, ?_, of_decide_eq_true needs⟩
    intro d member
    exact Int.not_lt.mp fun needsToo => passed d member (decide_eq_true needsToo)

/-- While the list is not empty, the next turn is that of an entry in this round or in
the one after it. -/
theorem At.next_turn {start : Memory} {done rest : List Entry}
    (state : At start entries k done rest s) (split : entries = done ++ rest)
    (isSome : s.taskList ≠ none) :
    ∃ (k : ℕ) (done : List Entry) (e : Entry) (rest : List Entry),
      entries = done ++ e :: rest ∧ quantum * k < e.burst ∧
        At start entries k done (e :: rest) s := by
  by_cases noneLeft : atRound k rest = []
  · have ended : ∀ e ∈ rest, e.burst ≤ quantum * k := by
      intro e member
      rw [atRound, List.map_eq_nil_iff, List.filter_eq_nil_iff] at noneLeft
      exact Int.not_lt.mp fun needs => noneLeft e member (decide_eq_true needs)
    rw [← List.append_nil rest] at state
    have atEnd := state.skip rest ended
    rw [← split] at atEnd
    have next := atEnd.nextRound
    have nonempty : atRound (k + 1) entries ≠ [] := by
      intro isNil
      apply isSome
      rw [next.taskList, isNil]
      rfl
    rcases exists_first nonempty with ⟨pre, e, post, whole, passed, needs⟩
    refine ⟨k + 1, pre, e, post, whole, needs, ?_⟩
    have starts : At start entries (k + 1) [] (pre ++ e :: post) s := by
      rw [← whole]
      exact next
    exact starts.skip pre passed
  · rcases exists_first noneLeft with ⟨pre, e, post, whole, passed, needs⟩
    rw [whole] at state split
    refine ⟨k, done ++ pre, e, post, ?_, needs, state.skip pre passed⟩
    rw [split, List.append_assoc]

/-- Every state of the loop is at some place of some round. -/
theorem At.reached {start : Memory} {first : Turns} (begins : At start entries 0 [] entries first)
    (right : AllRight entries) (reaches : TurnsReach first s) :
    ∃ k done rest, entries = done ++ rest ∧ At start entries k done rest s := by
  induction reaches with
  | refl => exact ⟨0, [], entries, rfl, begins⟩
  | @tail previous s _ iteration inductionHypothesis =>
      rcases inductionHypothesis with ⟨k, done, rest, split, state⟩
      rcases state.next_turn split (Option.isSome_iff_ne_none.mp iteration.1) with
        ⟨k, done, e, rest, split, needs, state⟩
      rcases state.turn split needs (right k done e rest split needs) with
        ⟨after, turn, stateAfter⟩
      have same : after = s := LoopStep.next.inj (Except.ok.inj (turn.symm.trans iteration.2))
      refine ⟨k, done ++ [e], rest, ?_, same ▸ stateAfter⟩
      rw [split, List.append_assoc, List.singleton_append]

/-- `next_node` is on the list. -/
theorem At.onList {start : Memory} {done rest : List Entry}
    (state : At start entries k done rest s) (isSome : s.taskList ≠ none) :
    ∃ node, s.nextNode = some node ∧ OnList s.memory.nodes s.taskList node := by
  have nonempty : atRound k rest ++ atRound (k + 1) done ≠ [] := by
    intro isNil
    rcases List.append_eq_nil_iff.mp isNil with ⟨noRest, noDone⟩
    apply isSome
    rw [state.taskList, noRest, noDone]
    rfl
  rcases List.exists_cons_of_ne_nil nonempty with ⟨e, others, isCons⟩
  have member : e ∈ atRound (k + 1) done ++ atRound k rest := by
    have inRotated : e ∈ atRound k rest ++ atRound (k + 1) done := by
      rw [isCons]
      exact List.mem_cons_self
    exact List.mem_append.mpr (List.mem_append.mp inRotated).symm
  refine ⟨e.node, ?_, ?_⟩
  · rw [state.nextNode isSome, isCons]
    rfl
  · rw [state.taskList]
    exact state.represents.onList member

/-! ## `schedule_rr.c` -/

namespace RoundRobin

/-- The calls of `add`, in order. -/
def addAll (adds : List NewTask) : Turns := adds.foldl add initial

theorem addAll_added (adds : List NewTask) :
    Added NewTask.burst adds (addAll adds).taskList (addAll adds).memory := by
  induction adds using List.reverseRecOn with
  | nil => exact added_nil _
  | append_singleton adds new added =>
      unfold addAll
      rw [List.foldl_append]
      exact added.step new

/-- The state in which the loop of `schedule` starts. -/
def loopStart (adds : List NewTask) : Turns :=
  { addAll adds with nextNode := (addAll adds).taskList }

end RoundRobin

theorem zipIdx_positive (positive : ∀ new ∈ adds, 1 ≤ new.burst) :
    ∀ a ∈ adds.zipIdx, 1 ≤ a.1.burst := by
  intro a member
  exact positive a.1 (List.fst_mem_of_mem_zipIdx member)

theorem allRight_of_adds (names : (adds.map NewTask.name).Nodup) :
    AllRight (entriesOf NewTask.burst adds.zipIdx) := by
  apply allRight_of_names
  rw [names_entriesOf, List.nodup_reverse]
  rwa [show (fun a : NewTask × ℕ => a.1.name) = NewTask.name ∘ Prod.fst from rfl,
    ← List.map_map, List.zipIdx_map_fst]

/-- `schedule` ends, and its calls of `run` are those of the rounds. -/
theorem roundRobin_trace (names : (adds.map NewTask.name).Nodup)
    (positive : ∀ new ∈ adds, 1 ≤ new.burst) :
    ∃ final, Ends (fun fuel => RoundRobin.schedule fuel (RoundRobin.addAll adds)) final ∧
      ∀ rounds : ℕ, (∀ new ∈ adds, new.burst ≤ quantum * rounds) →
        calls final.memory.log = (List.range rounds).flatMap (round adds.zipIdx) := by
  have added := RoundRobin.addAll_added adds
  have unserved := unserved_entriesOf (zipIdx_positive positive)
  rcases takeTurns_ends unserved added.represents (allRight_of_adds names) with
    ⟨final, ends, turnsOver⟩
  rw [← added.head] at ends
  refine ⟨final, ends, fun rounds ended => ?_⟩
  have endedToo : ∀ a ∈ adds.zipIdx, a.1.burst ≤ quantum * rounds :=
    fun a member => ended a.1 (List.fst_mem_of_mem_zipIdx member)
  rw [turnsOver.log rounds (bursts_entriesOf NewTask.burst endedToo), added.log, List.nil_append,
    calls_logAt]

/-- With different names and bursts of at least 1, `schedule` ends, its calls of `run` are
those of the rounds, and `next_node` is on the list as long as there is one. -/
theorem roundRobin_rounds (adds : List NewTask) (names : (adds.map NewTask.name).Nodup)
    (positive : ∀ new ∈ adds, 1 ≤ new.burst) :
    (∃ final, Ends (fun fuel => RoundRobin.schedule fuel (RoundRobin.addAll adds)) final ∧
      ∀ rounds : ℕ, (∀ new ∈ adds, new.burst ≤ quantum * rounds) →
        calls final.memory.log = (List.range rounds).flatMap (round adds.zipIdx)) ∧
    ∀ s, TurnsReach (RoundRobin.loopStart adds) s → s.taskList ≠ none →
      ∃ node, s.nextNode = some node ∧ OnList s.memory.nodes s.taskList node := by
  refine ⟨roundRobin_trace names positive, fun s reaches isSome => ?_⟩
  have added := RoundRobin.addAll_added adds
  have begins := (unserved_entriesOf (zipIdx_positive positive)).begins added.represents
  rw [← added.head] at begins
  rcases begins.reached (allRight_of_adds names) reaches with ⟨k, done, rest, _, state⟩
  exact state.onList isSome

theorem roundRobin_rounds_demo :
    ∃ final, Ends (fun fuel =>
        RoundRobin.schedule fuel (RoundRobin.addAll [⟨"A", 1, 5⟩, ⟨"B", 1, 15⟩])) final ∧
      calls final.memory.log = [(some 1, 10), (some 0, 5), (some 1, 5)] := by
  rcases roundRobin_rounds [⟨"A", 1, 5⟩, ⟨"B", 1, 15⟩] (by decide) (by decide) with
    ⟨⟨final, ends, rounds⟩, _⟩
  exact ⟨final, ends, rounds 2 (by decide)⟩

end OsProjects.Scheduling
