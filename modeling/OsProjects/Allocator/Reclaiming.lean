import OsProjects.Allocator.Region

/-!
Owns what `release_memory` gives back: which blocks it removes, which holes it
leaves, and that it undoes a request.

On the list of extents a release joins every maximal run of extents that are
unused or carry the name. A list without neighbouring holes has only runs of
one, so nothing is joined that was not divided by the request or named by the
caller.

Does not own how the blocks are linked.
-/

namespace OsProjects.Allocator

open OsProjects.C

/-- The states that commands after a successful `init` reach. -/
def Reachable (s : State) : Prop :=
  ∃ memSize operations first, init 2 (some memSize) State.zero = .ok (0, first) ∧
    performAll operations first = .ok s

theorem Reachable.consistent {s : State} (reachable : Reachable s) :
    ∃ nodes, Consistent s nodes := by
  obtain ⟨memSize, operations, first, started, run⟩ := reachable
  rw [init_eq memSize] at started
  cases started
  obtain ⟨after, nodes, otherRun, _, consistent⟩ :=
    (start_consistent memSize).performAll operations
  rw [run] at otherRun
  cases otherRun
  exact ⟨nodes, consistent⟩

/-- The extent is unused once the blocks called `name` have been given up. -/
def Freed (name : String) (extent : Extent) : Prop :=
  extent.name = none ∨ extent.name = some name

instance (name : String) : DecidablePred (Freed name) :=
  fun extent => inferInstanceAs (Decidable (extent.name = none ∨ extent.name = some name))

/-- `after` is the list with every maximal run of free extents replaced by one
unused extent that spans the run. -/
inductive RunsJoined (free : Extent → Prop) : List Extent → List Extent → Prop where
  | nil : RunsJoined free [] []
  | keep {extent : Extent} {rest after : List Extent} (owned : ¬free extent)
      (others : RunsJoined free rest after) :
      RunsJoined free (extent :: rest) (extent :: after)
  | join {run rest after : List Extent} {first last : Extent}
      (runFree : ∀ extent ∈ run, free extent) (starts : run.head? = some first)
      (ends : run.getLast? = some last)
      (maximal : ∀ next, rest.head? = some next → ¬free next)
      (others : RunsJoined free rest after) :
      RunsJoined free (run ++ rest) (⟨first.lo, last.hi, none⟩ :: after)

variable {name : String} {extents pre post : List Extent} {extent : Extent}

/-! ## Coalescing joins runs -/

theorem clear_of_freed (freed : Freed name extent) :
    extent.clear name = ⟨extent.lo, extent.hi, none⟩ := by
  unfold Extent.clear
  cases freed with
  | inl unused =>
      rw [if_neg (by simp [unused]), ← unused]
  | inr named => rw [if_pos named]

theorem clear_of_owned (owned : ¬Freed name extent) : extent.clear name = extent :=
  if_neg fun named => owned (Or.inr named)

/-- A used extent is final, whatever follows. -/
theorem coalesce_used (used : extent.name ≠ none) (extents : List Extent) :
    coalesce (some extent) extents = extent :: coalesce none extents := by
  cases extents with
  | nil => rfl
  | cons next rest =>
      conv_lhs => rw [coalesce, if_neg fun holes => used holes.1]
      rfl

/-- The pending extent stands for the free run passed last. -/
theorem coalesce_runsJoined (name : String) (extents : List Extent) :
    RunsJoined (Freed name) extents (coalesce none (extents.map (Extent.clear name))) ∧
      ∀ (run : List Extent) (first last : Extent), (∀ extent ∈ run, Freed name extent) →
        run.head? = some first → run.getLast? = some last →
        RunsJoined (Freed name) (run ++ extents)
          (coalesce (some ⟨first.lo, last.hi, none⟩) (extents.map (Extent.clear name))) := by
  induction extents with
  | nil =>
      refine ⟨.nil, ?_⟩
      intro run first last runFree starts ends
      exact .join runFree starts ends (by simp) .nil
  | cons extent rest inductionHypothesis =>
      obtain ⟨apart, behindRun⟩ := inductionHypothesis
      by_cases freed : Freed name extent
      · -- the extent starts a run, or continues the pending one
        rw [List.map_cons, clear_of_freed freed]
        constructor
        · exact behindRun [extent] extent extent (by simpa using freed) rfl rfl
        · intro run first last runFree starts ends
          rw [coalesce, if_pos ⟨rfl, rfl⟩, ← List.singleton_append, ← List.append_assoc]
          apply behindRun (run ++ [extent]) first extent
          · intro other member
            cases List.mem_append.mp member with
            | inl earlier => exact runFree other earlier
            | inr same => exact List.mem_singleton.mp same ▸ freed
          · simp [starts]
          · simp
      · -- the extent ends the pending run
        have used : extent.name ≠ none := fun unused => freed (Or.inl unused)
        have whole : RunsJoined (Freed name) (extent :: rest)
            (coalesce (some extent) (rest.map (Extent.clear name))) := by
          rw [coalesce_used used]
          exact .keep freed apart
        rw [List.map_cons, clear_of_owned freed]
        refine ⟨whole, ?_⟩
        intro run first last runFree starts ends
        rw [coalesce, if_neg fun holes => used holes.2]
        exact .join runFree starts ends (by simpa using freed) whole

namespace RunsJoined

variable {free : Extent → Prop} [DecidablePred free] {before after : List Extent}

/-- The extents that are not free stay as they are, in their order. -/
theorem used (joined : RunsJoined free before after) (unused : ∀ extent, extent.name = none →
    free extent) : usedExtents after = before.filter fun extent => ¬free extent := by
  induction joined with
  | nil => rfl
  | keep owned others inductionHypothesis =>
      rename_i extent rest after
      have named : extent.name.isSome = true := by
        rw [Option.isSome_iff_ne_none]
        exact fun nameless => owned (unused extent nameless)
      simp only [usedExtents, List.filter_cons, named, if_true, owned, not_false_eq_true,
        decide_true] at inductionHypothesis ⊢
      rw [inductionHypothesis]
  | join runFree starts ends maximal others inductionHypothesis =>
      rename_i run rest after first last
      have none : run.filter (fun extent => ¬free extent) = [] := by
        rw [List.filter_eq_nil_iff]
        intro extent member
        simpa using runFree extent member
      rw [List.filter_append, none, List.nil_append, ← inductionHypothesis]
      rfl

omit [DecidablePred free] in
/-- No extent of the joined list has a name that counted as free. -/
theorem not_named (joined : RunsJoined free before after) {owner : String}
    (named : ∀ extent, extent.name = some owner → free extent) :
    ∀ extent ∈ after, extent.name ≠ some owner := by
  induction joined with
  | nil => simp
  | keep owned others inductionHypothesis =>
      exact List.forall_mem_cons.mpr
        ⟨fun carries => owned (named _ carries), inductionHypothesis⟩
  | join runFree starts ends maximal others inductionHypothesis =>
      exact List.forall_mem_cons.mpr ⟨by simp, inductionHypothesis⟩

end RunsJoined

/-! ## Lists without neighbouring holes -/

/-- Without neighbouring holes nothing is joined. -/
theorem coalesce_separated (pending : Option Extent)
    (separated : Separated (pending.toList ++ extents)) :
    coalesce pending extents = pending.toList ++ extents := by
  induction extents generalizing pending with
  | nil =>
      cases pending with
      | none => rfl
      | some pending => rfl
  | cons extent rest inductionHypothesis =>
      cases pending with
      | none => exact inductionHypothesis (some extent) separated
      | some pending =>
          rcases List.isChain_cons_cons.mp separated with ⟨apart, others⟩
          rw [coalesce, if_neg apart, inductionHypothesis (some extent) others]
          rfl

/-- Two neighbouring holes may as well be one from the beginning. -/
theorem coalesce_pair {first second : Extent} (firstUnused : first.name = none)
    (secondUnused : second.name = none) (pending : Option Extent) :
    coalesce pending (pre ++ first :: second :: post) =
      coalesce pending (pre ++ ⟨first.lo, second.hi, none⟩ :: post) := by
  induction pre generalizing pending with
  | nil =>
      have step : ∀ (pending extent : Extent) (rest : List Extent),
          coalesce (some pending) (extent :: rest) =
            if pending.name = none ∧ extent.name = none then
              coalesce (some ⟨pending.lo, extent.hi, none⟩) rest
            else pending :: coalesce (some extent) rest := fun _ _ _ => rfl
      have joined : coalesce (some first) (second :: post) =
          coalesce (some ⟨first.lo, second.hi, none⟩) post := by
        rw [step, if_pos ⟨firstUnused, secondUnused⟩]
      cases pending with
      | none => exact joined
      | some pending =>
          rw [List.nil_append, List.nil_append, step pending first, step pending ⟨_, _, none⟩]
          by_cases unused : pending.name = none
          · rw [if_pos ⟨unused, firstUnused⟩, if_pos ⟨unused, rfl⟩, step,
              if_pos ⟨rfl, secondUnused⟩]
          · rw [if_neg fun holes => unused holes.1, if_neg fun holes => unused holes.1, joined]
  | cons extent rest inductionHypothesis =>
      cases pending with
      | none => exact inductionHypothesis (some extent)
      | some pending =>
          rw [List.cons_append, List.cons_append, coalesce, coalesce, inductionHypothesis,
            inductionHypothesis]

theorem clear_fresh (fresh : ∀ extent ∈ extents, extent.name ≠ some name) :
    extents.map (Extent.clear name) = extents := by
  have same : extents.map (Extent.clear name) = extents.map id :=
    List.map_congr_left fun extent member => if_neg (fresh extent member)
  rw [same, List.map_id]

theorem occupy_named (name : String) (size : UInt64) (hole : Extent) :
    ∃ extent ∈ occupy name size hole, extent.name = some name := by
  unfold occupy
  split
  · exact ⟨_, List.mem_singleton_self _, rfl⟩
  · exact ⟨_, List.mem_cons_self, rfl⟩

/-- The blocks that a request makes of a hole are joined to the same hole again. -/
theorem releaseExtents_occupy {hole : Extent} {size : UInt64} (unused : hole.name = none)
    (separated : Separated (pre ++ hole :: post))
    (fresh : ∀ extent ∈ pre ++ hole :: post, extent.name ≠ some name) :
    releaseExtents name (pre ++ occupy name size hole ++ post) = pre ++ hole :: post := by
  have freshPre : pre.map (Extent.clear name) = pre :=
    clear_fresh fun extent member => fresh extent (by simp [member])
  have freshPost : post.map (Extent.clear name) = post :=
    clear_fresh fun extent member => fresh extent (by simp [member])
  have restored : (⟨hole.lo, hole.hi, none⟩ : Extent) = hole := by rw [← unused]
  have unchanged := coalesce_separated none separated
  unfold releaseExtents occupy
  rw [List.map_append, List.map_append, freshPre, freshPost, List.append_assoc]
  by_cases wholeHole : hole.size = size
  · rw [if_pos wholeHole]
    simp only [List.map_cons, List.map_nil, Extent.clear, if_true, restored]
    exact unchanged
  · rw [if_neg wholeHole]
    simp only [List.map_cons, List.map_nil, Extent.clear, if_true, reduceCtorEq, if_false,
      List.cons_append, List.nil_append]
    rw [coalesce_pair rfl rfl]
    simp only [restored]
    exact unchanged

/-! ## A name that no block carries -/

section Unnamed

variable {s : State} {nodes done rest : List Node} {node : Node}

/-- At a block that neither carries the name nor continues a hole, an iteration
only moves the cursor. -/
theorem releaseBody_unnamed (represents : Represents s (done ++ node :: rest))
    (separated : Separated (extentsOf (done ++ node :: rest)))
    (fresh : node.2.name ≠ some name) :
    releaseBody name ⟨some node.1, 1, s.mem, s.heap⟩ =
      .ok (.next ⟨firstAddress rest none, 1, s.mem, s.heap⟩) := by
  have linked := represents.linked
  have mark : markUnused name ⟨some node.1, 1, s.mem, s.heap⟩ =
      .ok ⟨some node.1, 1, s.mem, s.heap⟩ := by
    unfold markUnused
    rw [Heap.load_some linked.cell, ok_bind, Extent.block_name, if_neg fresh]
    rfl
  cases done using List.reverseRecOn with
  | nil =>
      have merge := mergeUnused_first (r := ⟨some node.1, 1, s.mem, s.heap⟩) linked rfl
      rw [releaseBody_eq mark merge rfl linked.cell, lastAddress_nil, if_pos rfl,
        represents.head]
      rfl
  | append_singleton init last =>
      rw [List.append_assoc, List.singleton_append] at linked separated
      have apart : ¬(last.2.name = none ∧ node.2.name = none) := by
        rw [Separated, extentsOf, List.map_append] at separated
        exact (List.isChain_cons_cons.mp (List.isChain_append.mp separated).2.1).1
      have merge := mergeUnused_apart (r := ⟨some node.1, 1, s.mem, s.heap⟩) linked rfl apart
      rw [releaseBody_eq mark merge rfl linked.cell_next, if_neg (by simp)]

/-- A release of a name that no block carries returns 1 and writes nothing. -/
theorem releaseMemory_unnamed (represents : Represents s nodes)
    (separated : Separated (extentsOf nodes))
    (fresh : ∀ extent ∈ extentsOf nodes, extent.name ≠ some name) :
    releaseMemory name s = .ok (1, s) := by
  have moves : ∀ done node rest, nodes = done ++ node :: rest →
      releaseBody name ⟨some node.1, 1, s.mem, s.heap⟩ =
        .ok (.next ⟨firstAddress rest none, 1, s.mem, s.heap⟩) := by
    intro done node rest split
    subst split
    exact releaseBody_unnamed represents separated (fresh node.2 (by simp))
  have run := whileLoop_walk (·.cursor.isSome) (releaseBody name)
    (fun cursor => ⟨cursor, 1, s.mem, s.heap⟩) (fun _ => rfl) moves
    represents.linked.length_le_fresh
  rw [← represents.head] at run
  unfold releaseMemory
  rw [run, ok_bind]
  rfl

end Unnamed

/-! ## The exact outcome of a release -/

/-- In every state that commands after `init` reach, a release returns 0 exactly
when a block carries the name. It joins the maximal runs of blocks that are unused
or carry the name, keeps the others, and does nothing when there is nothing to
release. -/
theorem releaseMemory_exact (memSize : UInt64) (operations : List Operation) (name : String) :
    ∃ first s code after, init 2 (some memSize) State.zero = .ok (0, first) ∧
      performAll operations first = .ok s ∧ releaseMemory name s = .ok (code, after) ∧
      ((∃ block ∈ displayMemory s, block.name = some name) → code = 0) ∧
      ((∀ block ∈ displayMemory s, block.name ≠ some name) → code = 1) ∧
      (code = 1 → after = s) ∧
      (∀ block ∈ displayMemory after, block.name ≠ some name) ∧
      usedExtents (displayMemory after) =
        (displayMemory s).filter (fun block => ¬Freed name block) ∧
      RunsJoined (Freed name) (displayMemory s) (displayMemory after) ∧
      ∃ path, PathFrom after path := by
  obtain ⟨s, nodes, run, _, consistent⟩ := (start_consistent memSize).performAll operations
  obtain ⟨code, after, changed, release, _, consistentAfter, _⟩ :=
    consistent.perform (.release name)
  obtain ⟨other, others, exact, _, represents, extents⟩ :=
    releaseMemory_eq name consistent.represents
  have same : releaseMemory name s = .ok (code, after) := release
  rw [same] at exact
  cases exact
  have joined : RunsJoined (Freed name) (displayMemory s) (displayMemory after) := by
    rw [consistent.represents.display, represents.display, extents]
    exact (coalesce_runsJoined name (extentsOf nodes)).1
  refine ⟨start memSize, s, _, after, init_eq memSize, run, same, ?_, ?_, ?_,
    joined.not_named fun _ named => Or.inr named, joined.used fun _ unused => Or.inl unused,
    joined, _, consistentAfter.path⟩
  · intro carried
    rw [consistent.represents.display] at carried
    exact if_pos carried
  · intro fresh
    rw [consistent.represents.display] at fresh
    apply if_neg
    rintro ⟨extent, member, named⟩
    exact fresh extent member named
  · intro nothing
    have fresh : ∀ extent ∈ extentsOf nodes, extent.name ≠ some name := by
      intro extent member named
      have flag : releaseFlag name (extentsOf nodes) = 0 := if_pos ⟨extent, member, named⟩
      rw [flag] at nothing
      cases nothing
    have unchanged :=
      releaseMemory_unnamed consistent.represents consistent.separated fresh
    rw [same] at unchanged
    simp only [Except.ok.injEq, Prod.mk.injEq] at unchanged
    exact unchanged.2

/-! ## Requests and releases -/

/-- A granted request of a name that no block carries is undone by a release. -/
theorem release_undoes_request {s granted : State} {size : UInt64} {strategy : Char}
    (reachable : Reachable s) (fresh : ∀ block ∈ displayMemory s, block.name ≠ some name)
    (grants : requestMemory name size strategy s = .ok (0, granted)) :
    ∃ after, releaseMemory name granted = .ok (0, after) ∧
      displayMemory after = displayMemory s := by
  obtain ⟨nodes, consistent⟩ := reachable.consistent
  have separated := consistent.separated
  rw [consistent.represents.display] at fresh ⊢
  cases requestMemory_cases name size strategy consistent.represents with
  | inl refused =>
      obtain ⟨code, failed, run, _⟩ := refused
      rw [grants] at run
      cases run
      exact absurd rfl failed
  | inr taken =>
      obtain ⟨pre, address, hole, post, other, changed, rfl, _, unused, _, run, _, represents,
        extents⟩ := taken
      rw [grants] at run
      cases run
      obtain ⟨after, final, release, _, representsAfter, extentsAfter⟩ :=
        releaseMemory_eq name represents
      have carried : releaseFlag name (extentsOf changed) = 0 := by
        obtain ⟨extent, member, named⟩ := occupy_named name size hole
        exact if_pos ⟨extent, by simp [extents, member], named⟩
      rw [carried] at release
      refine ⟨after, release, ?_⟩
      simp only [extentsOf, List.map_append, List.map_cons] at extents fresh separated ⊢
      rw [representsAfter.display, extentsAfter]
      simp only [extentsOf, extents]
      exact releaseExtents_occupy unused separated fresh

/-- In a region of 100 bytes where P0 has 10, P1 takes 20 and gives them back. -/
theorem release_undoes_request_demo :
    ∃ s granted after, performAll [.request "P0" 10 'F'] (start 100) = .ok s ∧
      requestMemory "P1" 20 'B' s = .ok (0, granted) ∧
      releaseMemory "P1" granted = .ok (0, after) ∧ displayMemory after = displayMemory s := by
  obtain ⟨s, nodes, run, _⟩ := (start_consistent 100).performAll [.request "P0" 10 'F']
  have shown : (performAll [.request "P0" 10 'F'] (start 100)).toOption.map (fun s =>
      (displayMemory s, (requestMemory "P1" 20 'B' s).toOption.map Prod.fst)) =
        some ([⟨0, 9, some "P0"⟩, ⟨10, 99, none⟩], some 0) := by
    decide +kernel
  rw [run] at shown
  rcases Prod.mk.inj (Option.some.inj shown) with ⟨display, granted⟩
  cases request : requestMemory "P1" 20 'B' s with
  | error fault =>
      rw [request] at granted
      cases granted
  | ok result =>
      obtain ⟨code, state⟩ := result
      rw [request] at granted
      cases granted
      have fresh : ∀ block ∈ displayMemory s, block.name ≠ some "P1" := by
        rw [display]
        decide
      obtain ⟨after, release, restored⟩ :=
        release_undoes_request ⟨100, _, _, init_eq 100, run⟩ fresh request
      exact ⟨s, state, after, run, request, release, restored⟩

end OsProjects.Allocator
