import OsProjects.C.Heap

/-!
Owns what it is for pointers that a program keeps to own the cells they point to: no two of them
share a cell, and no cell is without a pointer.

The pointers are a function on keys, so that they can be the entries of an array, or a field of
every cell of another heap. The contents that the keys show is what a program that stored the
contents in place of the pointers would have.

Does not own the cells of the program that hold the pointers.
-/

namespace OsProjects.C

variable {κ α : Type} {pointers : κ → Pointer} {cells : Heap α} {key other : κ}

/-- Every pointer is to a live cell, and no two are to the same. -/
structure Owns (pointers : κ → Pointer) (cells : Heap α) : Prop where
  live : ∀ key address, pointers key = some address → cells.cell address ≠ none
  unique : ∀ key other address, pointers key = some address → pointers other = some address →
    key = other

/-- There is a pointer to every live cell. -/
def NoneLost (pointers : κ → Pointer) (cells : Heap α) : Prop :=
  ∀ address, cells.cell address ≠ none → ∃ key, pointers key = some address

/-- What the key shows: the content behind its pointer. -/
def contents (pointers : κ → Pointer) (cells : Heap α) (key : κ) : Option α :=
  (pointers key).bind cells.cell

theorem contents_some {address : ℕ} (points : pointers key = some address) :
    contents pointers cells key = cells.cell address := by
  rw [contents, points, Option.bind_some]

theorem contents_none (null : pointers key = none) : contents pointers cells key = none := by
  rw [contents, null, Option.bind_none]

theorem Owns.contents_eq_none (owns : Owns pointers cells) :
    contents pointers cells key = none ↔ pointers key = none := by
  cases points : pointers key with
  | none => simp [contents_none points]
  | some address => simp [contents_some points, owns.live key address points]

/-- The content behind a pointer can be loaded. -/
theorem Owns.load (owns : Owns pointers cells) {address : ℕ}
    (points : pointers key = some address) :
    ∃ content, cells.load (some address) = .ok content ∧
      contents pointers cells key = some content := by
  obtain ⟨content, live⟩ := Option.ne_none_iff_exists'.mp (owns.live key address points)
  exact ⟨content, Heap.load_some live, by rw [contents_some points, live]⟩

theorem Owns.below (owns : Owns pointers cells) {address : ℕ}
    (points : pointers key = some address) : address ≠ cells.fresh := by
  obtain ⟨content, live⟩ := Option.ne_none_iff_exists'.mp (owns.live key address points)
  exact Nat.ne_of_lt (Heap.lt_fresh live)

section Operations

variable [DecidableEq κ]

/-! ## `free`, and `NULL` in place of the pointer -/

theorem Owns.free (owns : Owns pointers cells) {address : ℕ}
    (points : pointers key = some address) :
    cells.free (some address) = .ok (cells.remove address) ∧
      Owns (Function.update pointers key none) (cells.remove address) := by
  obtain ⟨content, live⟩ := Option.ne_none_iff_exists'.mp (owns.live key address points)
  refine ⟨Heap.free_some live, fun other target pointsOther => ?_,
    fun first second target pointsFirst pointsSecond => ?_⟩
  · by_cases same : other = key
    · rw [same, Function.update_self] at pointsOther
      cases pointsOther
    · rw [Function.update_of_ne same] at pointsOther
      have different : target ≠ address := by
        rintro rfl
        exact same (owns.unique other key target pointsOther points)
      rw [Heap.remove_other different]
      exact owns.live other target pointsOther
  · by_cases sameFirst : first = key
    · rw [sameFirst, Function.update_self] at pointsFirst
      cases pointsFirst
    · by_cases sameSecond : second = key
      · rw [sameSecond, Function.update_self] at pointsSecond
        cases pointsSecond
      · rw [Function.update_of_ne sameFirst] at pointsFirst
        rw [Function.update_of_ne sameSecond] at pointsSecond
        exact owns.unique first second target pointsFirst pointsSecond

theorem NoneLost.free (noneLost : NoneLost pointers cells) {address : ℕ}
    (points : pointers key = some address) :
    NoneLost (Function.update pointers key none) (cells.remove address) := by
  intro target live
  rw [Heap.remove_cell] at live
  split at live
  · exact absurd rfl live
  · rename_i different
    obtain ⟨owner, pointsTo⟩ := noneLost target live
    have other : owner ≠ key := by
      rintro rfl
      exact different (Option.some.inj (pointsTo.symm.trans points))
    exact ⟨owner, by rw [Function.update_of_ne other, pointsTo]⟩

theorem Owns.contents_free (owns : Owns pointers cells) {address : ℕ}
    (points : pointers key = some address) :
    contents (Function.update pointers key none) (cells.remove address) =
      Function.update (contents pointers cells) key none := by
  funext other
  by_cases same : other = key
  · subst same
    rw [contents_none (Function.update_self _ _ _), Function.update_self]
  · rw [Function.update_of_ne same, contents, Function.update_of_ne same, contents]
    cases pointsOther : pointers other with
    | none => rfl
    | some target =>
        have different : target ≠ address := by
          rintro rfl
          exact same (owns.unique other key target pointsOther points)
        rw [Option.bind_some, Option.bind_some, Heap.remove_other different]

/-! ## `malloc`, and its result in place of `NULL` -/

/-- Whatever pointer was there. -/
theorem Owns.malloc (owns : Owns pointers cells) (key : κ) (content : α) :
    Owns (Function.update pointers key (some cells.fresh)) (cells.malloc content).2 := by
  refine ⟨fun other target points => ?_, fun first second target pointsFirst pointsSecond => ?_⟩
  · rw [Heap.malloc_cell]
    split
    · exact Option.some_ne_none _
    · by_cases same : other = key
      · rw [same, Function.update_self] at points
        rename_i different
        exact absurd (Option.some.inj points).symm different
      · rw [Function.update_of_ne same] at points
        exact owns.live other target points
  · by_cases sameFirst : first = key
    · by_cases sameSecond : second = key
      · rw [sameFirst, sameSecond]
      · rw [sameFirst, Function.update_self] at pointsFirst
        rw [Function.update_of_ne sameSecond] at pointsSecond
        exact absurd (Option.some.inj pointsFirst).symm (owns.below pointsSecond)
    · rw [Function.update_of_ne sameFirst] at pointsFirst
      by_cases sameSecond : second = key
      · rw [sameSecond, Function.update_self] at pointsSecond
        exact absurd (Option.some.inj pointsSecond).symm (owns.below pointsFirst)
      · rw [Function.update_of_ne sameSecond] at pointsSecond
        exact owns.unique first second target pointsFirst pointsSecond

theorem NoneLost.malloc (noneLost : NoneLost pointers cells) (null : pointers key = none)
    (content : α) :
    NoneLost (Function.update pointers key (some cells.fresh)) (cells.malloc content).2 := by
  intro target live
  rw [Heap.malloc_cell] at live
  split at live
  · rename_i isFresh
    exact ⟨key, by rw [Function.update_self, isFresh]⟩
  · obtain ⟨owner, points⟩ := noneLost target live
    have other : owner ≠ key := by
      rintro rfl
      rw [null] at points
      cases points
    exact ⟨owner, by rw [Function.update_of_ne other, points]⟩

theorem Owns.contents_malloc (owns : Owns pointers cells) (key : κ) (content : α) :
    contents (Function.update pointers key (some cells.fresh)) (cells.malloc content).2 =
      Function.update (contents pointers cells) key (some content) := by
  funext other
  by_cases same : other = key
  · subst same
    rw [contents_some (Function.update_self _ _ _), Heap.malloc_cell, if_pos rfl,
      Function.update_self]
  · rw [Function.update_of_ne same, contents, Function.update_of_ne same, contents]
    cases points : pointers other with
    | none => rfl
    | some target =>
        rw [Option.bind_some, Option.bind_some, Heap.malloc_cell, if_neg (owns.below points)]

/-! ## An assignment to the content -/

omit [DecidableEq κ] in
theorem Owns.write (owns : Owns pointers cells) (address : ℕ) (now : α) :
    Owns pointers (cells.write address now) := by
  refine ⟨fun key target points => ?_, owns.unique⟩
  obtain ⟨content, live⟩ := Option.ne_none_iff_exists'.mp (owns.live key target points)
  by_cases same : target = address
  · subst same
    rw [Heap.write_self live]
    exact Option.some_ne_none _
  · rw [Heap.write_other same, live]
    exact Option.some_ne_none _

omit [DecidableEq κ] in
theorem NoneLost.write (noneLost : NoneLost pointers cells) (address : ℕ) (now : α) :
    NoneLost pointers (cells.write address now) := by
  intro target live
  by_cases same : target = address
  · subst same
    rw [Heap.write_cell, if_pos rfl, ne_eq, Option.map_eq_none_iff] at live
    exact noneLost target live
  · rw [Heap.write_other same] at live
    exact noneLost target live

theorem Owns.contents_write (owns : Owns pointers cells) {address : ℕ}
    (points : pointers key = some address) (now : α) :
    contents pointers (cells.write address now) =
      Function.update (contents pointers cells) key (some now) := by
  obtain ⟨content, live⟩ := Option.ne_none_iff_exists'.mp (owns.live key address points)
  funext other
  by_cases same : other = key
  · subst same
    rw [contents_some points, Heap.write_self live, Function.update_self]
  · rw [Function.update_of_ne same, contents, contents]
    cases pointsOther : pointers other with
    | none => rfl
    | some target =>
        have different : target ≠ address := by
          rintro rfl
          exact same (owns.unique other key target pointsOther points)
        rw [Option.bind_some, Option.bind_some, Heap.write_other different]

/-! ## A pointer that moves to another key -/

theorem Owns.move (owns : Owns pointers cells) (key other : κ) :
    Owns (Function.update (Function.update pointers key (pointers other)) other none) cells := by
  -- the key that had the pointer that a key has after the move
  have source : ∀ now target, Function.update (Function.update pointers key (pointers other))
      other none now = some target → (now = key ∧ key ≠ other ∧ pointers other = some target) ∨
        (now ≠ key ∧ now ≠ other ∧ pointers now = some target) := by
    intro now target points
    by_cases atOther : now = other
    · rw [atOther, Function.update_self] at points
      cases points
    · rw [Function.update_of_ne atOther] at points
      by_cases atKey : now = key
      · rw [atKey, Function.update_self] at points
        exact Or.inl ⟨atKey, atKey ▸ atOther, points⟩
      · rw [Function.update_of_ne atKey] at points
        exact Or.inr ⟨atKey, atOther, points⟩
  refine ⟨fun now target points => ?_, fun first second target pointsFirst pointsSecond => ?_⟩
  · rcases source now target points with ⟨_, _, before⟩ | ⟨_, _, before⟩
    · exact owns.live _ _ before
    · exact owns.live _ _ before
  · rcases source first target pointsFirst with ⟨isKey, _, before⟩ | ⟨notKey, notOther, before⟩
    · rcases source second target pointsSecond with ⟨isKey', _, _⟩ | ⟨_, notOther, before'⟩
      · rw [isKey, isKey']
      · exact absurd (owns.unique _ _ _ before' before) notOther
    · rcases source second target pointsSecond with ⟨_, _, before'⟩ | ⟨_, _, before'⟩
      · exact absurd (owns.unique _ _ _ before before') notOther
      · exact owns.unique _ _ _ before before'

theorem NoneLost.move (noneLost : NoneLost pointers cells) (null : pointers key = none)
    (different : key ≠ other) :
    NoneLost (Function.update (Function.update pointers key (pointers other)) other none)
      cells := by
  intro target live
  obtain ⟨owner, points⟩ := noneLost target live
  by_cases moved : owner = other
  · refine ⟨key, ?_⟩
    rw [Function.update_of_ne different, Function.update_self, ← moved, points]
  · have stays : owner ≠ key := by
      rintro rfl
      rw [null] at points
      cases points
    exact ⟨owner, by rw [Function.update_of_ne moved, Function.update_of_ne stays, points]⟩

theorem contents_move (pointers : κ → Pointer) (cells : Heap α) (key other : κ) :
    contents (Function.update (Function.update pointers key (pointers other)) other none) cells =
      Function.update (Function.update (contents pointers cells) key
        (contents pointers cells other)) other none := by
  funext now
  by_cases atOther : now = other
  · subst atOther
    rw [contents_none (Function.update_self _ _ _), Function.update_self]
  · rw [Function.update_of_ne atOther, contents, Function.update_of_ne atOther]
    by_cases atKey : now = key
    · subst atKey
      rw [Function.update_self, Function.update_self, contents]
    · rw [Function.update_of_ne atKey, Function.update_of_ne atKey, contents]

end Operations

end OsProjects.C
