import OsProjects.C.LinkedList
import OsProjects.Scheduling.Model

/-!
Owns what the list operations of the schedulers do to the list of tasks: which entries
are linked in which order, and that everything else stays as it is.

An entry is a node together with its task. `delete` is given a task and unlinks the
first entry with its name, whichever task that is.

Does not own how a scheduler picks a task.
-/

namespace OsProjects.Scheduling

open OsProjects.C

/-- A node in the list: its address, and the address and content of its task. -/
structure Entry where
  node : ℕ
  task : ℕ
  content : Task
deriving DecidableEq, Repr

def Entry.name (e : Entry) : String := e.content.name

def Entry.burst (e : Entry) : Int := e.content.burst

def Entry.link (e : Entry) : ℕ × ℕ := (e.node, e.task)

/-- The pointer to the first node. -/
def firstNode (entries : List Entry) : Pointer := firstAddress (entries.map Entry.link) none

/-- The node of a task. -/
def nodeOf (task : ℕ) (_ next : Pointer) : Node := ⟨some task, next⟩

/-- The memory holds the list of these entries. -/
structure Represents (m : Memory) (entries : List Entry) : Prop where
  linked : Linked nodeOf m.nodes (entries.map Entry.link)
  contents : ∀ e ∈ entries, m.tasks.cell e.task = some e.content
  distinct : (entries.map Entry.task).Nodup

variable {m after : Memory} {entries pre post : List Entry} {d e : Entry} {name : String}

theorem nodeOf_oneWay : OneWay nodeOf := fun _ _ _ _ => rfl

@[simp] theorem firstNode_nil : firstNode [] = none := rfl

@[simp] theorem firstNode_cons (e : Entry) (entries : List Entry) :
    firstNode (e :: entries) = some e.node := rfl

theorem map_link_fst (entries : List Entry) :
    (entries.map Entry.link).map Prod.fst = entries.map Entry.node := by
  rw [List.map_map]
  rfl

/-! ## Reading the list -/

theorem Represents.cell (represents : Represents m (pre ++ e :: post)) :
    m.nodes.cell e.node = some ⟨some e.task, firstNode post⟩ := by
  have linked := represents.linked
  rw [List.map_append, List.map_cons] at linked
  exact linked.cell

theorem Represents.load_node (represents : Represents m (pre ++ e :: post)) :
    m.nodes.load (some e.node) = .ok ⟨some e.task, firstNode post⟩ :=
  Heap.load_some represents.cell

theorem Represents.load_head (represents : Represents m (e :: post)) :
    m.nodes.load (some e.node) = .ok ⟨some e.task, firstNode post⟩ :=
  Heap.load_some represents.linked.segment.1

theorem Represents.load_task (represents : Represents m entries) (member : e ∈ entries) :
    m.tasks.load (some e.task) = .ok e.content :=
  Heap.load_some (represents.contents e member)

theorem Represents.length_le (represents : Represents m entries) :
    entries.length ≤ m.nodes.fresh := by
  have length := represents.linked.length_le_fresh
  rwa [List.length_map] at length

/-- The list only depends on its own nodes and tasks. -/
theorem Represents.frame (represents : Represents m entries)
    (nodes : ∀ e ∈ entries, after.nodes.cell e.node = m.nodes.cell e.node)
    (tasks : ∀ e ∈ entries, after.tasks.cell e.task = m.tasks.cell e.task) :
    Represents after entries := by
  refine ⟨⟨represents.linked.segment.frame ?_, represents.linked.distinct⟩, ?_,
    represents.distinct⟩
  · intro address member
    rw [map_link_fst] at member
    rcases List.mem_map.mp member with ⟨e, isEntry, isNode⟩
    rw [← isNode]
    exact nodes e isEntry
  · intro e member
    rw [tasks e member]
    exact represents.contents e member

theorem represents_nil (m : Memory) : Represents m [] :=
  ⟨⟨trivial, List.nodup_nil⟩, fun _ member => absurd member List.not_mem_nil, List.nodup_nil⟩

/-- The node is on the list that starts at the pointer. -/
inductive OnList (nodes : Heap Node) : Pointer → ℕ → Prop where
  | here {address : ℕ} : OnList nodes (some address) address
  | next {address other : ℕ} {node : Node} (cell : nodes.cell address = some node)
      (later : OnList nodes node.next other) : OnList nodes (some address) other

theorem Represents.onList (represents : Represents m entries) (member : e ∈ entries) :
    OnList m.nodes (firstNode entries) e.node := by
  rcases List.append_of_mem member with ⟨pre, post, split⟩
  rw [split] at represents ⊢
  have walks : ∀ front, Represents m (front ++ pre ++ e :: post) →
      OnList m.nodes (firstNode (pre ++ e :: post)) e.node := by
    clear split represents member
    induction pre with
    | nil => exact fun _ _ => .here
    | cons head pre inductionHypothesis =>
        intro front represents
        have later := inductionHypothesis (front ++ [head]) (by simpa using represents)
        rw [List.append_assoc, List.cons_append] at represents
        exact .next represents.cell later
  exact walks [] represents

/-- An assignment to the task of an entry changes that entry's content. -/
theorem Represents.assign (represents : Represents m (pre ++ e :: post)) (now : Task) :
    Represents { m with tasks := m.tasks.write e.task now }
      (pre ++ { e with content := now } :: post) := by
  have distinct := represents.distinct
  rw [List.map_append, List.map_cons, List.nodup_middle, List.nodup_cons] at distinct
  have others : ∀ d ∈ pre ++ post, d.task ≠ e.task := by
    intro d member same
    apply distinct.1
    rw [← List.map_append, ← same]
    exact List.mem_map_of_mem member
  constructor
  · have linked := represents.linked
    rw [List.map_append, List.map_cons] at linked ⊢
    exact linked
  · intro d member
    rcases List.mem_append.mp member with inPre | inRest
    · exact (Heap.write_other (others d (List.mem_append_left _ inPre)) _).trans
        (represents.contents d (List.mem_append_left _ inPre))
    · rcases List.mem_cons.mp inRest with isAssigned | inPost
      · rw [isAssigned]
        exact Heap.write_self (represents.contents e (by simp)) _
      · exact (Heap.write_other (others d (List.mem_append_right _ inPost)) _).trans
          (represents.contents d (by simp [inPost]))
  · have same := represents.distinct
    rw [List.map_append, List.map_cons] at same ⊢
    exact same

/-! ## Adding a task -/

/-- The entry that `add` makes. -/
def Memory.newEntry (m : Memory) (new : NewTask) (remaining : Int) : Entry :=
  ⟨m.nodes.fresh, m.tasks.fresh, ⟨new.name, new.priority, new.burst, remaining⟩⟩

/-- The memory after `add`. -/
def Memory.added (m : Memory) (head : Pointer) (new : NewTask) (remaining : Int) : Memory :=
  { m with
    nodes := (m.nodes.malloc ⟨some m.tasks.fresh, head⟩).2
    tasks := (m.tasks.malloc ⟨new.name, new.priority, new.burst, remaining⟩).2 }

theorem addTo_eq (head : Pointer) (new : NewTask) (remaining : Int) (m : Memory) :
    addTo head new remaining m =
      (some (m.newEntry new remaining).node, m.added head new remaining) := rfl

theorem added_nodes_other {address : ℕ} (head : Pointer) (new : NewTask) (remaining : Int)
    (different : address ≠ m.nodes.fresh) :
    (m.added head new remaining).nodes.cell address = m.nodes.cell address := by
  show (m.nodes.malloc _).2.cell address = _
  rw [Heap.malloc_cell, if_neg different]

theorem added_tasks_other {address : ℕ} (head : Pointer) (new : NewTask) (remaining : Int)
    (different : address ≠ m.tasks.fresh) :
    (m.added head new remaining).tasks.cell address = m.tasks.cell address := by
  show (m.tasks.malloc _).2.cell address = _
  rw [Heap.malloc_cell, if_neg different]

theorem Represents.node_lt (represents : Represents m entries) (member : e ∈ entries) :
    e.node < m.nodes.fresh := by
  have isNode : e.node ∈ (entries.map Entry.link).map Prod.fst := by
    rw [map_link_fst]
    exact List.mem_map_of_mem member
  rcases represents.linked.segment.live isNode with ⟨content, live⟩
  exact Heap.lt_fresh live

theorem Represents.task_lt (represents : Represents m entries) (member : e ∈ entries) :
    e.task < m.tasks.fresh :=
  Heap.lt_fresh (represents.contents e member)

/-- A list that is already there stays when a task is added to any list. -/
theorem Represents.added_other (represents : Represents m entries) (head : Pointer)
    (new : NewTask) (remaining : Int) : Represents (m.added head new remaining) entries := by
  apply represents.frame
  · intro e member
    exact added_nodes_other head new remaining (Nat.ne_of_lt (represents.node_lt member))
  · intro e member
    exact added_tasks_other head new remaining (Nat.ne_of_lt (represents.task_lt member))

/-- The list that a task is added to has it in front. -/
theorem Represents.added (represents : Represents m entries) (new : NewTask) (remaining : Int) :
    Represents (m.added (firstNode entries) new remaining)
      (m.newEntry new remaining :: entries) := by
  have stays := represents.added_other (firstNode entries) new remaining
  have newNode : (m.newEntry new remaining).node ∉ entries.map Entry.node := by
    intro member
    rcases List.mem_map.mp member with ⟨e, isEntry, isNode⟩
    exact absurd (represents.node_lt isEntry) (by rw [isNode]; exact Nat.lt_irrefl _)
  have newTask : (m.newEntry new remaining).task ∉ entries.map Entry.task := by
    intro member
    rcases List.mem_map.mp member with ⟨e, isEntry, isTask⟩
    exact absurd (represents.task_lt isEntry) (by rw [isTask]; exact Nat.lt_irrefl _)
  refine ⟨?_, ?_, List.nodup_cons.mpr ⟨newTask, represents.distinct⟩⟩
  · apply stays.linked.push nodeOf_oneWay
    · rw [map_link_fst]
      exact newNode
    · show (m.nodes.malloc _).2.cell m.nodes.fresh = _
      rw [Heap.malloc_cell, if_pos rfl]
      rfl
    · intro other _
      rfl
  · intro e member
    rcases List.mem_cons.mp member with isNew | isOld
    · subst isNew
      show (m.tasks.malloc _).2.cell m.tasks.fresh = _
      rw [Heap.malloc_cell, if_pos rfl]
      rfl
    · exact stays.contents e isOld

/-! ## Deleting a task -/

/-- `delete` has unlinked the entry. -/
structure Unlinks (m after : Memory) (pre : List Entry) (e : Entry) (post : List Entry) :
    Prop where
  represents : Represents after (pre ++ post)
  log : after.log = m.log ++ [.unlink (some e.task)]
  tasks : after.tasks = m.tasks
  others : ∀ address, address ∉ pre.map Entry.node →
    after.nodes.cell address = m.nodes.cell address

/-- The search passes the entries with other names. -/
theorem deleteLoop_eq (front : List Entry) (prev : Pointer) (fuel : ℕ)
    (represents : Represents m (front ++ pre ++ e :: post)) (named : e.content.name = name)
    (others : ∀ d ∈ pre, d.content.name ≠ name) (enough : pre.length < fuel) :
    whileLoop (fun _ => true) (deleteBody name m) fuel (prev, firstNode (pre ++ e :: post)) =
      .ok (.exit (lastAddress prev (pre.map Entry.link), some e.node)) := by
  induction pre generalizing front prev fuel with
  | nil =>
      rcases fuel with _ | fuel
      · exact absurd enough (Nat.not_lt_zero _)
      · rw [List.append_nil] at represents
        have task := represents.load_task (e := e) (by simp)
        simp only [whileLoop, deleteBody, List.nil_append, firstNode_cons, represents.load_node,
          ok_bind, task, named, if_true, pure_eq_ok, List.map_nil, lastAddress_nil]
  | cons d rest inductionHypothesis =>
      rcases fuel with _ | fuel
      · exact absurd enough (Nat.not_lt_zero _)
      · have other := others d List.mem_cons_self
        rw [List.append_assoc, List.cons_append] at represents
        have task := represents.load_task (e := d) (by simp)
        simp only [whileLoop, deleteBody, List.cons_append, firstNode_cons, represents.load_node,
          ok_bind, task, if_neg other, if_true, pure_eq_ok]
        rw [← List.cons_append, ← List.singleton_append, List.append_assoc, ← List.append_assoc]
          at represents
        exact inductionHypothesis (front ++ [d]) _ fuel (by simpa using represents)
          (fun d member => others d (List.mem_cons_of_mem _ member)) (by simpa using enough)

/-- The list without its first entry is linked already. -/
theorem Represents.unlink_head (represents : Represents m (e :: post)) :
    Unlinks m (m.record (.unlink (some e.task))) [] e post := by
  refine ⟨⟨represents.linked.pop nodeOf_oneWay, ?_, ?_⟩, rfl, rfl, fun _ _ => rfl⟩
  · intro d member
    exact represents.contents d (List.mem_cons_of_mem _ member)
  · exact (List.nodup_cons.mp represents.distinct).2

/-- An entry behind another one is unlinked by an assignment to that one's node. -/
theorem Represents.unlink_next (represents : Represents m (pre ++ d :: e :: post)) :
    Unlinks m ({ m with nodes := m.nodes.write d.node ⟨some d.task, firstNode post⟩ }.record
      (.unlink (some e.task))) (pre ++ [d]) e post := by
  have linked := represents.linked
  simp only [List.map_append, List.map_cons] at linked
  have sublist : (pre ++ d :: post).Sublist (pre ++ d :: e :: post) :=
    ((List.sublist_cons_self e post).cons_cons d).append_left pre
  have live : m.nodes.cell d.node = some ⟨some d.task, some e.node⟩ := linked.cell
  constructor
  · rw [List.append_assoc, List.singleton_append]
    refine ⟨?_, ?_, represents.distinct.sublist (sublist.map Entry.task)⟩
    · simp only [List.map_append, List.map_cons]
      apply linked.unlink nodeOf_oneWay
      · exact Heap.write_self live _
      · intro other different
        exact Heap.write_other different _
    · intro other member
      exact represents.contents other (sublist.subset member)
  · rfl
  · rfl
  · intro address notPre
    apply Heap.write_other
    intro same
    exact notPre (by simp [same])

/-- `delete` unlinks the first entry with the name of the task. -/
theorem Represents.delete {t : Pointer} {content : Task}
    (represents : Represents m (pre ++ e :: post)) (loads : m.tasks.load t = .ok content)
    (named : e.content.name = content.name)
    (others : ∀ d ∈ pre, d.content.name ≠ content.name) :
    ∃ after, delete (firstNode (pre ++ e :: post)) t m = .ok (firstNode (pre ++ post), after) ∧
      Unlinks m after pre e post := by
  have taskOf : ∀ d ∈ pre ++ e :: post, m.tasks.load (some d.task) = .ok d.content :=
    fun d member => represents.load_task member
  cases pre with
  | nil =>
      refine ⟨_, ?_, represents.unlink_head⟩
      simp only [Scheduling.delete, loads, ok_bind, List.nil_append, firstNode_cons,
        represents.load_head, taskOf e (by simp), named, if_true, pure_eq_ok]
  | cons head rest =>
      have length : rest.length < m.nodes.fresh := by
        have length := represents.length_le
        simp only [List.cons_append, List.length_cons, List.length_append] at length
        omega
      have search := deleteLoop_eq [head] (some head.node) m.nodes.fresh represents named
        (fun d member => others d (List.mem_cons_of_mem _ member)) length
      have entry : m.nodes.load (some e.node) = .ok ⟨some e.task, firstNode post⟩ :=
        represents.load_node
      have start : m.nodes.load (some head.node) =
          .ok ⟨some head.task, firstNode (rest ++ e :: post)⟩ := represents.load_head
      -- the last entry that the search passed, or the head
      rcases List.eq_nil_or_concat (head :: rest) with isNil | ⟨init, last, isConcat⟩
      · cases isNil
      · rw [List.concat_eq_append] at isConcat
        have isLast : lastAddress (some head.node) (rest.map Entry.link) = some last.node := by
          have same : lastAddress none ((head :: rest).map Entry.link) = some last.node := by
            rw [isConcat, List.map_append]
            exact lastAddress_append_singleton _ _ _
          exact same
        rw [isConcat, List.append_assoc, List.singleton_append] at represents
        have assigned : m.nodes.assign (some last.node)
            (fun node => { node with next := firstNode post }) =
              .ok (m.nodes.write last.node ⟨some last.task, firstNode post⟩) :=
          Heap.assign_some represents.cell _
        refine ⟨_, ?_, isConcat ▸ represents.unlink_next⟩
        simp only [Scheduling.delete, loads, ok_bind, List.cons_append, firstNode_cons, start,
          taskOf head (by simp), if_neg (others head List.mem_cons_self), search, isLast,
          LoopStep.state, entry, assigned, pure_eq_ok]

/-! ## The log and the tasks added -/

theorem Represents.record (represents : Represents m entries) (event : Event) :
    Represents (m.record event) entries :=
  ⟨represents.linked, represents.contents, represents.distinct⟩

/-- The calls of `run`. -/
def calls (log : List Event) : List (Pointer × Int) :=
  log.filterMap fun
    | .run task slice => some (task, slice)
    | .unlink _ => none

theorem calls_append (first second : List Event) :
    calls (first ++ second) = calls first ++ calls second :=
  List.filterMap_append

/-- The entries of tasks that were added, the last one first. A task comes with the
number of its call of `add`, which is the address of its node and its task. -/
def entriesOf (remaining : NewTask → Int) (added : List (NewTask × ℕ)) : List Entry :=
  (added.map fun (new, i) =>
    ⟨i, i, ⟨new.name, new.priority, new.burst, remaining new⟩⟩).reverse

theorem entriesOf_append (remaining : NewTask → Int) (added : List (NewTask × ℕ))
    (new : NewTask) (i : ℕ) :
    entriesOf remaining (added ++ [(new, i)]) =
      ⟨i, i, ⟨new.name, new.priority, new.burst, remaining new⟩⟩ ::
        entriesOf remaining added := by
  simp [entriesOf]

/-- Pairs of entries are pairs of tasks added, in the other order. -/
theorem entriesOf_pairwise (remaining : NewTask → Int) (adds : List NewTask)
    (related : Task → Task → Prop) :
    (entriesOf remaining adds.zipIdx).Pairwise (fun d e => related d.content e.content) ↔
      adds.Pairwise fun earlier later =>
        related ⟨later.name, later.priority, later.burst, remaining later⟩
          ⟨earlier.name, earlier.priority, earlier.burst, remaining earlier⟩ := by
  unfold entriesOf
  rw [List.pairwise_reverse, List.pairwise_map]
  conv_rhs => rw [← List.zipIdx_map_fst 0 adds, List.pairwise_map]

/-- What the calls of `add` on one list leave behind. -/
structure Added (remaining : NewTask → Int) (adds : List NewTask) (head : Pointer) (m : Memory) :
    Prop where
  represents : Represents m (entriesOf remaining adds.zipIdx)
  head : head = firstNode (entriesOf remaining adds.zipIdx)
  nodes : m.nodes.fresh = adds.length
  tasks : m.tasks.fresh = adds.length
  log : m.log = []

theorem added_nil (remaining : NewTask → Int) : Added remaining [] none .initial :=
  ⟨represents_nil _, rfl, rfl, rfl, rfl⟩

theorem Added.step {remaining : NewTask → Int} {adds : List NewTask} {head : Pointer}
    (added : Added remaining adds head m) (new : NewTask) :
    Added remaining (adds ++ [new]) (addTo head new (remaining new) m).1
      (addTo head new (remaining new) m).2 := by
  have isNew : entriesOf remaining (adds ++ [new]).zipIdx =
      m.newEntry new (remaining new) :: entriesOf remaining adds.zipIdx := by
    rw [List.zipIdx_append, List.zipIdx_singleton, entriesOf_append, Memory.newEntry, added.nodes,
      added.tasks, Nat.zero_add]
  rw [added.head, addTo_eq]
  constructor
  · rw [isNew]
    exact added.represents.added new _
  · rw [isNew]
    rfl
  · show m.nodes.fresh + 1 = _
    rw [added.nodes, List.length_append, List.length_singleton]
  · show m.tasks.fresh + 1 = _
    rw [added.tasks, List.length_append, List.length_singleton]
  · exact added.log

end OsProjects.Scheduling
