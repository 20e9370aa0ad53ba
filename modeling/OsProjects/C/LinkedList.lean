import Mathlib.Data.List.Nodup
import Mathlib.Data.Finset.Card
import OsProjects.C.Heap

/-!
Owns doubly linked lists in a heap. `Segment` says that the cells at given
addresses are linked in order, with given payloads; `Linked` says it of a whole
list, from one `NULL` to the other.

A program changes such a list one assignment at a time. The three edits at the
end (a new payload, a node merged into its successor, a node inserted behind
another) therefore ask only for the cells of the final heap, in whatever order
they were assigned.

Does not own what a payload is: `make` builds a cell from a payload and its two
links.
-/

namespace OsProjects.C

section LinkedLists

variable {Cell Payload : Type} {make : Payload → Pointer → Pointer → Cell}
variable {heap changed : Heap Cell} {before after : Pointer}

/-- The address of the first node, `after` when there is none. -/
def firstAddress (nodes : List (ℕ × Payload)) (after : Pointer) : Pointer :=
  match nodes with
  | [] => after
  | (address, _) :: _ => some address

/-- The address of the last node, `before` when there is none. -/
def lastAddress (before : Pointer) : List (ℕ × Payload) → Pointer
  | [] => before
  | (address, _) :: rest => lastAddress (some address) rest

/-- The nodes are linked in order; `before` precedes the first and `after`
follows the last. -/
def Segment (make : Payload → Pointer → Pointer → Cell) (heap : Heap Cell) (before : Pointer) :
    List (ℕ × Payload) → Pointer → Prop
  | [], _ => True
  | (address, payload) :: rest, after =>
      heap.cell address = some (make payload before (firstAddress rest after)) ∧
        Segment make heap (some address) rest after

/-- The nodes are distinct cells and make up a whole list. -/
structure Linked (make : Payload → Pointer → Pointer → Cell) (heap : Heap Cell)
    (nodes : List (ℕ × Payload)) : Prop where
  segment : Segment make heap none nodes none
  distinct : (nodes.map Prod.fst).Nodup

@[simp] theorem firstAddress_nil : firstAddress ([] : List (ℕ × Payload)) after = after := rfl

@[simp] theorem firstAddress_cons (address : ℕ) (payload : Payload)
    (rest : List (ℕ × Payload)) :
    firstAddress ((address, payload) :: rest) after = some address := rfl

@[simp] theorem lastAddress_nil : lastAddress before ([] : List (ℕ × Payload)) = before := rfl

@[simp] theorem firstAddress_append (nodes more : List (ℕ × Payload)) :
    firstAddress (nodes ++ more) after = firstAddress nodes (firstAddress more after) := by
  cases nodes with
  | nil => rfl
  | cons node rest => rfl

@[simp] theorem lastAddress_append_singleton (nodes : List (ℕ × Payload)) (address : ℕ)
    (payload : Payload) : lastAddress before (nodes ++ [(address, payload)]) = some address := by
  induction nodes generalizing before with
  | nil => rfl
  | cons node rest inductionHypothesis => exact inductionHypothesis

/-- The last address is one of the segment, or the one before it. -/
theorem lastAddress_mem {nodes : List (ℕ × Payload)} {address : ℕ}
    (last : lastAddress none nodes = some address) : address ∈ nodes.map Prod.fst := by
  cases nodes using List.reverseRecOn with
  | nil => cases last
  | append_singleton init node =>
      rw [lastAddress_append_singleton] at last
      cases last
      simp

theorem firstAddress_eq_head? (nodes : List (ℕ × Payload)) :
    firstAddress nodes none = (nodes.map Prod.fst).head? := by
  cases nodes with
  | nil => rfl
  | cons node rest => rfl

theorem lastAddress_eq_getLast? (nodes : List (ℕ × Payload)) :
    lastAddress none nodes = (nodes.map Prod.fst).getLast? := by
  cases nodes using List.reverseRecOn with
  | nil => rfl
  | append_singleton init node =>
      rw [lastAddress_append_singleton]
      simp

theorem lastAddress_eq_none_iff {nodes : List (ℕ × Payload)} :
    lastAddress none nodes = none ↔ nodes = [] := by
  cases nodes using List.reverseRecOn with
  | nil => simp
  | append_singleton init node =>
      rw [lastAddress_append_singleton]
      simp

/-- A loop that only moves its cursor along the nodes ends behind the last of them.
`state` is what its variables are while the cursor is at a place. -/
theorem whileLoop_walk {ρ σ : Type} (guard : σ → Bool) (body : σ → Outcome (LoopStep ρ σ))
    (state : Pointer → σ) {nodes : List (ℕ × Payload)} {fuel : ℕ}
    (guardEq : ∀ cursor, guard (state cursor) = cursor.isSome)
    (moves : ∀ done node rest, nodes = done ++ node :: rest →
      body (state (some node.1)) = .ok (.next (state (firstAddress rest none))))
    (enough : nodes.length ≤ fuel) :
    whileLoop guard body fuel (state (firstAddress nodes none)) =
      .ok (.next (state none)) := by
  let Inv : List (ℕ × Payload) → σ → Prop := fun rest s =>
    s = state (firstAddress rest none) ∧ ∃ done, nodes = done ++ rest
  have steps : ∀ {node : ℕ × Payload} {rest : List (ℕ × Payload)} {s : σ},
      Inv (node :: rest) s → ∃ after, body s = .ok (.next after) ∧ Inv rest after := by
    intro node rest s inv
    obtain ⟨rfl, done, split⟩ := inv
    exact ⟨_, moves done node rest split, rfl, done ++ [node], by simp [split]⟩
  obtain ⟨last, run, rfl, _⟩ := whileLoop_list_next guard body Inv
    (fun inv => by rw [inv.1, guardEq]; rfl) (fun inv => by rw [inv.1, guardEq]; rfl) steps
    (⟨rfl, [], rfl⟩ : Inv nodes _) enough
  exact run

theorem firstAddress_mem {nodes : List (ℕ × Payload)} {address : ℕ}
    (first : firstAddress nodes none = some address) : address ∈ nodes.map Prod.fst := by
  cases nodes with
  | nil => cases first
  | cons node rest =>
      cases first
      exact List.mem_cons_self

namespace Segment

/-- A segment is two segments that meet. -/
theorem append_iff {nodes more : List (ℕ × Payload)} :
    Segment make heap before (nodes ++ more) after ↔
      Segment make heap before nodes (firstAddress more after) ∧
        Segment make heap (lastAddress before nodes) more after := by
  induction nodes generalizing before with
  | nil => simp [Segment]
  | cons node rest inductionHypothesis =>
      obtain ⟨address, payload⟩ := node
      simp only [List.cons_append, Segment, firstAddress_append, lastAddress, and_assoc]
      rw [inductionHypothesis]

/-- A segment only depends on the cells of its nodes. -/
theorem frame {nodes : List (ℕ × Payload)} (segment : Segment make heap before nodes after)
    (same : ∀ address ∈ nodes.map Prod.fst, changed.cell address = heap.cell address) :
    Segment make changed before nodes after := by
  induction nodes generalizing before with
  | nil => trivial
  | cons node rest inductionHypothesis =>
      obtain ⟨address, payload⟩ := node
      obtain ⟨cell, others⟩ := segment
      constructor
      · rw [same address (by simp), cell]
      · apply inductionHypothesis others
        intro other member
        exact same other (List.mem_cons_of_mem _ member)

/-- Every node is a live cell. -/
theorem live {nodes : List (ℕ × Payload)} (segment : Segment make heap before nodes after)
    {address : ℕ} (member : address ∈ nodes.map Prod.fst) :
    ∃ content, heap.cell address = some content := by
  induction nodes generalizing before with
  | nil => cases member
  | cons node rest inductionHypothesis =>
      obtain ⟨cell, others⟩ := segment
      cases List.mem_cons.mp member with
      | inl same =>
          rw [same]
          exact ⟨_, cell⟩
      | inr later => exact inductionHypothesis others later

end Segment

namespace Linked

variable {pre post : List (ℕ × Payload)} {address previous inserted : ℕ}
variable {payload now given : Payload}

/-- The cell of a node holds its payload and the addresses of its neighbours. -/
theorem cell (linked : Linked make heap (pre ++ (address, payload) :: post)) :
    heap.cell address =
      some (make payload (lastAddress none pre) (firstAddress post none)) :=
  (Segment.append_iff.mp linked.segment).2.1

/-- The same by position in the list. -/
theorem cell_getElem {nodes : List (ℕ × Payload)} (linked : Linked make heap nodes) {i : ℕ}
    (below : i < nodes.length) :
    heap.cell nodes[i].1 = some (make nodes[i].2 (lastAddress none (nodes.take i))
      (nodes.map Prod.fst)[i + 1]?) := by
  have split : nodes = nodes.take i ++ nodes[i] :: nodes.drop (i + 1) := by
    rw [List.getElem_cons_drop, List.take_append_drop]
  have whole := linked
  rw [split] at whole
  have cell : heap.cell nodes[i].1 = some (make nodes[i].2 (lastAddress none (nodes.take i))
      (firstAddress (nodes.drop (i + 1)) none)) := whole.cell
  rw [cell, firstAddress_eq_head?, List.map_drop, List.head?_drop]

theorem not_mem_pre (linked : Linked make heap (pre ++ (address, payload) :: post)) :
    address ∉ pre.map Prod.fst := by
  have distinct := linked.distinct
  rw [List.map_append, List.map_cons, List.nodup_middle, List.nodup_cons] at distinct
  intro member
  exact distinct.1 (List.mem_append_left _ member)

theorem not_mem_post (linked : Linked make heap (pre ++ (address, payload) :: post)) :
    address ∉ post.map Prod.fst := by
  have distinct := linked.distinct
  rw [List.map_append, List.map_cons, List.nodup_middle, List.nodup_cons] at distinct
  intro member
  exact distinct.1 (List.mem_append_right _ member)

theorem ne_of_mem_post {other : ℕ}
    (linked : Linked make heap (pre ++ (address, payload) :: post))
    (member : other ∈ post.map Prod.fst) : address ≠ other := by
  intro same
  exact linked.not_mem_post (same ▸ member)

/-- The cell of the node behind another one. -/
theorem cell_next
    (linked : Linked make heap (pre ++ (previous, given) :: (address, payload) :: post)) :
    heap.cell address = some (make payload (some previous) (firstAddress post none)) :=
  (Segment.append_iff.mp linked.segment).2.2.1

theorem ne_next
    (linked : Linked make heap (pre ++ (previous, given) :: (address, payload) :: post)) :
    previous ≠ address := by
  intro same
  exact linked.not_mem_post (by simp [same])

/-- The last node before two others is neither of them. -/
theorem last_ne {last : ℕ}
    (linked : Linked make heap (pre ++ (previous, given) :: (address, payload) :: post))
    (isLast : lastAddress none pre = some last) : last ≠ previous ∧ last ≠ address := by
  have member := lastAddress_mem isLast
  have distinct := linked.distinct
  simp only [List.map_append, List.nodup_append] at distinct
  exact ⟨distinct.2.2 last member previous (by simp), distinct.2.2 last member address (by simp)⟩

theorem fresh_not_mem {nodes : List (ℕ × Payload)} (linked : Linked make heap nodes) :
    heap.fresh ∉ nodes.map Prod.fst := by
  intro member
  rcases linked.segment.live member with ⟨content, live⟩
  exact absurd (Heap.lt_fresh live) (Nat.lt_irrefl _)

/-- A list has no more nodes than cells were ever allocated. -/
theorem length_le_fresh {nodes : List (ℕ × Payload)} (linked : Linked make heap nodes) :
    nodes.length ≤ heap.fresh := by
  have below : (nodes.map Prod.fst).toFinset ⊆ Finset.range heap.fresh := by
    intro address member
    rcases linked.segment.live (List.mem_toFinset.mp member) with ⟨content, live⟩
    exact Finset.mem_range.mpr (Heap.lt_fresh live)
  have counted := Finset.card_le_card below
  rwa [List.toFinset_card_of_nodup linked.distinct, List.length_map, Finset.card_range] at counted

/-- A node gets a new payload. -/
theorem assign (linked : Linked make heap (pre ++ (address, payload) :: post))
    (cell : changed.cell address =
      some (make now (lastAddress none pre) (firstAddress post none)))
    (kept : ∀ other, other ≠ address → changed.cell other = heap.cell other) :
    Linked make changed (pre ++ (address, now) :: post) := by
  have notPre := linked.not_mem_pre
  have notPost := linked.not_mem_post
  rcases Segment.append_iff.mp linked.segment with ⟨front, _, back⟩
  constructor
  · apply Segment.append_iff.mpr
    refine ⟨front.frame ?_, cell, back.frame ?_⟩
    · intro other member
      exact kept other (fun same => notPre (same ▸ member))
    · intro other member
      exact kept other (fun same => notPost (same ▸ member))
  · simpa using linked.distinct

/-- A node is merged into its successor: the node before it is linked to the
successor, and nothing refers to it any more. -/
theorem mergePrevious
    (linked : Linked make heap (pre ++ (previous, given) :: (address, payload) :: post))
    (cell : changed.cell address =
      some (make now (lastAddress none pre) (firstAddress post none)))
    (relinked : ∀ init last between, pre = init ++ [(last, between)] →
      changed.cell last = some (make between (lastAddress none init) (some address)))
    (kept : ∀ other, other ≠ address → other ≠ previous → lastAddress none pre ≠ some other →
      changed.cell other = heap.cell other) :
    Linked make changed (pre ++ (address, now) :: post) := by
  have distinct := linked.distinct
  rcases Segment.append_iff.mp linked.segment with ⟨front, back⟩
  obtain ⟨_, _, back⟩ := back
  simp only [List.map_append, List.map_cons, List.nodup_append, List.nodup_cons,
    List.mem_cons, not_or] at distinct
  obtain ⟨preDistinct, ⟨⟨previousFirst, previousPost⟩, addressPost, postDistinct⟩, apart⟩ :=
    distinct
  have preApart : ∀ other ∈ pre.map Prod.fst, other ≠ address ∧ other ≠ previous := by
    intro other member
    exact ⟨apart other member address (by simp), apart other member previous (by simp)⟩
  constructor
  · apply Segment.append_iff.mpr
    refine ⟨?_, cell, back.frame ?_⟩
    · cases pre using List.reverseRecOn with
      | nil => trivial
      | append_singleton init node =>
          obtain ⟨last, between⟩ := node
          rw [Segment.append_iff] at front ⊢
          refine ⟨front.1.frame ?_, relinked init last between rfl, trivial⟩
          intro other member
          have inPre : other ∈ (init ++ [(last, between)]).map Prod.fst := by
            rw [List.map_append]
            exact List.mem_append_left _ member
          apply kept other (preApart other inPre).1 (preApart other inPre).2
          rw [lastAddress_append_singleton]
          intro same
          simp only [List.map_append, List.nodup_append] at preDistinct
          exact preDistinct.2.2 other member last (by simp) (Option.some.inj same).symm
    · intro other member
      apply kept other
      · intro same
        exact addressPost (same ▸ member)
      · intro same
        exact previousPost (same ▸ member)
      · intro last
        exact apart other (lastAddress_mem last) other (by simp [member]) rfl
  · simp only [List.map_append, List.map_cons, List.nodup_append, List.nodup_cons]
    refine ⟨preDistinct, ⟨addressPost, postDistinct⟩, ?_⟩
    intro other member next nextMember
    exact apart other member next (Or.inr (List.mem_cons.mp nextMember))

/-- A new node is inserted behind another one. -/
theorem insertAfter (linked : Linked make heap (pre ++ (address, payload) :: post))
    (isNew : inserted ∉ (pre ++ (address, payload) :: post).map Prod.fst)
    (cell : changed.cell address = some (make now (lastAddress none pre) (some inserted)))
    (insertedCell : changed.cell inserted =
      some (make given (some address) (firstAddress post none)))
    (relinked : ∀ next beyond rest, post = (next, beyond) :: rest →
      changed.cell next = some (make beyond (some inserted) (firstAddress rest none)))
    (kept : ∀ other, other ≠ address → other ≠ inserted → firstAddress post none ≠ some other →
      changed.cell other = heap.cell other) :
    Linked make changed (pre ++ (address, now) :: (inserted, given) :: post) := by
  have notPre := linked.not_mem_pre
  have notPost := linked.not_mem_post
  have distinct := linked.distinct
  rcases Segment.append_iff.mp linked.segment with ⟨front, _, back⟩
  simp only [List.map_append, List.map_cons, List.mem_append, List.mem_cons, not_or] at isNew
  obtain ⟨newPre, newAddress, newPost⟩ := isNew
  simp only [List.map_append, List.map_cons, List.nodup_append, List.nodup_cons,
    List.mem_cons] at distinct
  obtain ⟨preDistinct, ⟨_, postDistinct⟩, apart⟩ := distinct
  constructor
  · apply Segment.append_iff.mpr
    refine ⟨front.frame ?_, cell, insertedCell, ?_⟩
    · intro other member
      apply kept other
      · intro same
        exact notPre (same ▸ member)
      · intro same
        exact newPre (same ▸ member)
      · cases post with
        | nil => simp
        | cons node rest =>
            intro same
            exact apart other member node.1 (by simp) (Option.some.inj same).symm
    · cases post with
      | nil => trivial
      | cons node rest =>
          obtain ⟨next, beyond⟩ := node
          refine ⟨relinked next beyond rest rfl, back.2.frame ?_⟩
          intro other member
          apply kept other
          · intro same
            exact notPost (same ▸ List.mem_cons_of_mem _ member)
          · intro same
            exact newPost (same ▸ List.mem_cons_of_mem _ member)
          · intro same
            have first : next = other := Option.some.inj same
            rw [List.map_cons, List.nodup_cons] at postDistinct
            exact postDistinct.1 (first ▸ member)
  · simp only [List.map_append, List.map_cons, List.nodup_append, List.nodup_cons, List.mem_cons,
      not_or]
    refine ⟨preDistinct, ⟨⟨Ne.symm newAddress, notPost⟩, newPost, postDistinct⟩, ?_⟩
    intro other member next nextMember
    cases nextMember with
    | inl same => exact apart other member next (Or.inl same)
    | inr later =>
        cases later with
        | inl same =>
            intro equal
            exact newPre (same ▸ equal ▸ member)
        | inr inPost => exact apart other member next (Or.inr inPost)

end Linked

/-! ## Lists with one link

In a singly linked list `make` ignores the link to the node before. -/

section OneWay

variable {nodes pre post : List (ℕ × Payload)} {address previous inserted : ℕ}
variable {payload given : Payload}

/-- A node does not know the node before it. -/
def OneWay (make : Payload → Pointer → Pointer → Cell) : Prop :=
  ∀ payload before before' next, make payload before next = make payload before' next

theorem Segment.reseat (oneWay : OneWay make) {before' : Pointer}
    (segment : Segment make heap before nodes after) : Segment make heap before' nodes after := by
  cases nodes with
  | nil => trivial
  | cons node rest =>
      rcases segment with ⟨cell, others⟩
      constructor
      · rw [cell, oneWay]
      · exact others

/-- A node is put in front of the list. -/
theorem Linked.push (oneWay : OneWay make) (linked : Linked make heap nodes)
    (isNew : inserted ∉ nodes.map Prod.fst)
    (cell : changed.cell inserted = some (make given none (firstAddress nodes none)))
    (kept : ∀ other, other ≠ inserted → changed.cell other = heap.cell other) :
    Linked make changed ((inserted, given) :: nodes) := by
  constructor
  · refine ⟨cell, Segment.reseat oneWay (linked.segment.frame ?_)⟩
    intro other member
    exact kept other (fun same => isNew (same ▸ member))
  · exact List.nodup_cons.mpr ⟨isNew, linked.distinct⟩

/-- The list goes on without its first node. -/
theorem Linked.pop (oneWay : OneWay make)
    (linked : Linked make heap ((address, payload) :: nodes)) :
    Linked make heap nodes := by
  constructor
  · exact Segment.reseat oneWay linked.segment.2
  · exact (List.nodup_cons.mp linked.distinct).2

/-- A node behind another one is unlinked: the one before it gets its link. -/
theorem Linked.unlink (oneWay : OneWay make)
    (linked : Linked make heap (pre ++ (previous, given) :: (address, payload) :: post))
    (cell : changed.cell previous = some (make given none (firstAddress post none)))
    (kept : ∀ other, other ≠ previous → changed.cell other = heap.cell other) :
    Linked make changed (pre ++ (previous, given) :: post) := by
  have notPre := linked.not_mem_pre
  have notPost := linked.not_mem_post
  rcases Segment.append_iff.mp linked.segment with ⟨front, _, _, back⟩
  constructor
  · apply Segment.append_iff.mpr
    refine ⟨front.frame ?_, ?_, Segment.reseat oneWay (back.frame ?_)⟩
    · intro other member
      exact kept other (fun same => notPre (same ▸ member))
    · rw [cell]
      exact congrArg some (oneWay _ _ _ _)
    · intro other member
      exact kept other (fun same => notPost (same ▸ List.mem_cons_of_mem _ member))
  · have sublist : (pre ++ (previous, given) :: post).Sublist
        (pre ++ (previous, given) :: (address, payload) :: post) :=
      (((List.sublist_cons_self _ _).cons_cons _).append_left pre)
    exact linked.distinct.sublist (sublist.map Prod.fst)

end OneWay

end LinkedLists

end OsProjects.C
