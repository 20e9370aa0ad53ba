import OsProjects.C.Execution
import Mathlib.Logic.Function.Basic

/-!
Owns the heap of a C program whose cells all have one type: `malloc`, `free`
and access through a pointer.

An address is never handed out twice, so a cell that is in the heap now has
never been freed, and an access through a pointer that has outlived its cell is
a fault. `malloc` does not fail.

Does not own the shape of what is stored.
-/

namespace OsProjects.C

/-- A pointer, `none` for `NULL`. -/
abbrev Pointer := Option ℕ

/-- The live cells, and the address from which on nothing was ever allocated. -/
structure Heap (Cell : Type) where
  cell : ℕ → Option Cell
  fresh : ℕ
  unallocated : ∀ address, fresh ≤ address → cell address = none

namespace Heap

variable {Cell : Type}

def empty : Heap Cell where
  cell := fun _ => none
  fresh := 0
  unallocated := fun _ _ => rfl

/-- `malloc`, with what the caller stores in the new cell. -/
def malloc (heap : Heap Cell) (content : Cell) : Pointer × Heap Cell :=
  (some heap.fresh,
    { cell := Function.update heap.cell heap.fresh (some content)
      fresh := heap.fresh + 1
      unallocated := by
        intro address beyond
        rw [Function.update_of_ne (by omega)]
        exact heap.unallocated address (by omega) })

/-- Replaces the content of a live cell. -/
def write (heap : Heap Cell) (address : ℕ) (content : Cell) : Heap Cell where
  cell := Function.update heap.cell address ((heap.cell address).map fun _ => content)
  fresh := heap.fresh
  unallocated := by
    intro other beyond
    by_cases same : other = address
    · subst same
      rw [Function.update_self, heap.unallocated other beyond]
      rfl
    · rw [Function.update_of_ne same]
      exact heap.unallocated other beyond

/-- Gives a cell back. -/
def remove (heap : Heap Cell) (address : ℕ) : Heap Cell where
  cell := Function.update heap.cell address none
  fresh := heap.fresh
  unallocated := by
    intro other beyond
    by_cases same : other = address
    · subst same
      exact Function.update_self _ _ _
    · rw [Function.update_of_ne same]
      exact heap.unallocated other beyond

/-- `*pointer` -/
def load (heap : Heap Cell) : Pointer → Outcome Cell
  | none => .error .nullDereference
  | some address =>
      match heap.cell address with
      | none => .error .useAfterFree
      | some content => .ok content

/-- An assignment to fields of `*pointer`. -/
def assign (heap : Heap Cell) (pointer : Pointer) (change : Cell → Cell) :
    Outcome (Heap Cell) :=
  match pointer with
  | none => .error .nullDereference
  | some address =>
      match heap.cell address with
      | none => .error .useAfterFree
      | some content => .ok (heap.write address (change content))

/-- `free(pointer)` -/
def free (heap : Heap Cell) : Pointer → Outcome (Heap Cell)
  | none => .ok heap
  | some address =>
      match heap.cell address with
      | none => .error .useAfterFree
      | some _ => .ok (heap.remove address)

/-! ## Accesses to live cells -/

variable {heap : Heap Cell} {address other : ℕ} {content : Cell}

theorem load_some (live : heap.cell address = some content) :
    heap.load (some address) = .ok content := by
  simp [load, live]

theorem assign_some (live : heap.cell address = some content) (change : Cell → Cell) :
    heap.assign (some address) change = .ok (heap.write address (change content)) := by
  simp [assign, live]

theorem free_some (live : heap.cell address = some content) :
    heap.free (some address) = .ok (heap.remove address) := by
  simp [free, live]

theorem write_cell (now : Cell) :
    (heap.write address now).cell other =
      if other = address then (heap.cell other).map fun _ => now else heap.cell other := by
  by_cases same : other = address
  · subst same
    simp [write]
  · simp [write, same]

theorem write_self (live : heap.cell address = some content) (now : Cell) :
    (heap.write address now).cell address = some now := by
  simp [write_cell, live]

theorem write_other (different : other ≠ address) (now : Cell) :
    (heap.write address now).cell other = heap.cell other := by
  rw [write_cell, if_neg different]

theorem remove_cell :
    (heap.remove address).cell other = if other = address then none else heap.cell other := by
  by_cases same : other = address
  · subst same
    simp [remove]
  · simp [remove, same]

theorem remove_other (different : other ≠ address) :
    (heap.remove address).cell other = heap.cell other := by
  rw [remove_cell, if_neg different]

theorem malloc_eq (now : Cell) : heap.malloc now = (some heap.fresh, (heap.malloc now).2) := rfl

theorem malloc_cell (now : Cell) :
    (heap.malloc now).2.cell other = if other = heap.fresh then some now else heap.cell other := by
  by_cases same : other = heap.fresh
  · subst same
    simp [malloc]
  · simp [malloc, same]

theorem write_malloc (first now : Cell) :
    (heap.malloc first).2.write heap.fresh now = (heap.malloc now).2 := by
  have cells : ((heap.malloc first).2.write heap.fresh now).cell = (heap.malloc now).2.cell := by
    simp [write, malloc]
  rw [Heap.mk.injEq]
  exact ⟨cells, rfl⟩

/-- A live cell lies below the addresses never allocated. -/
theorem lt_fresh (live : heap.cell address = some content) : address < heap.fresh := by
  by_contra beyond
  rw [heap.unallocated address (by omega)] at live
  cases live

end Heap

end OsProjects.C
