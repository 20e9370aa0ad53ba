import Mathlib.Logic.Function.Basic
import Mathlib.Tactic.Linarith
import OsProjects.C.Execution

/-!
Owns the `int` type with its overflow check and arrays of a fixed length with
their bounds check.

A C `int` is an `Int`; an addition or subtraction whose exact value does not
fit is the fault `overflow`. An array of `n` elements is a function on `Fin n`;
an access at an index outside `0 .. n - 1` is the fault `outOfBounds`. A row of
a two-dimensional array has its own bounds, as in C.
-/

namespace OsProjects.C

/-! ## Integers -/

def intMin : Int := -2147483648

def intMax : Int := 2147483647

/-- The value is one of a 32-bit `int`. -/
def IsInt (value : Int) : Prop := intMin ≤ value ∧ value ≤ intMax

instance (value : Int) : Decidable (IsInt value) := by
  unfold IsInt
  infer_instance

def checked (value : Int) : Outcome Int :=
  if IsInt value then .ok value else .error .overflow

def addInt (left right : Int) : Outcome Int := checked (left + right)

def subInt (left right : Int) : Outcome Int := checked (left - right)

theorem isInt_of_between {low value high : Int} (lowInt : IsInt low) (highInt : IsInt high)
    (lower : low ≤ value) (upper : value ≤ high) : IsInt value :=
  ⟨lowInt.1.trans lower, upper.trans highInt.2⟩

theorem isInt_zero : IsInt 0 := by decide

theorem isInt_of_nonneg {value : Int} (nonneg : 0 ≤ value) (upper : value ≤ intMax) :
    IsInt value :=
  ⟨le_trans (by decide) nonneg, upper⟩

theorem addInt_ok {left right : Int} (fits : IsInt (left + right)) :
    addInt left right = .ok (left + right) := if_pos fits

theorem addInt_overflow {left right : Int} (large : ¬ IsInt (left + right)) :
    addInt left right = .error .overflow := if_neg large

theorem subInt_ok {left right : Int} (fits : IsInt (left - right)) :
    subInt left right = .ok (left - right) := if_pos fits

/-! ## Arrays -/

section Arrays

variable {α : Type} {n m : ℕ}

/-- `array[index]` as a value. -/
def read (array : Fin n → α) (index : Int) : Outcome α :=
  if inside : 0 ≤ index ∧ index.toNat < n then .ok (array ⟨index.toNat, inside.2⟩)
  else .error .outOfBounds

/-- `array[index] = value`. -/
def write (array : Fin n → α) (index : Int) (value : α) : Outcome (Fin n → α) :=
  if inside : 0 ≤ index ∧ index.toNat < n then
    .ok (Function.update array ⟨index.toNat, inside.2⟩ value)
  else .error .outOfBounds

@[simp] theorem read_natCast (array : Fin n → α) {index : ℕ} (below : index < n) :
    read array (index : Int) = .ok (array ⟨index, below⟩) := by
  simp [read, below]

@[simp] theorem write_natCast (array : Fin n → α) {index : ℕ} (below : index < n) (value : α) :
    write array (index : Int) value = .ok (Function.update array ⟨index, below⟩ value) := by
  simp [write, below]

@[simp] theorem read_fin (array : Fin n → α) (index : Fin n) :
    read array ((index : ℕ) : Int) = .ok (array index) :=
  read_natCast array index.isLt

@[simp] theorem write_fin (array : Fin n → α) (index : Fin n) (value : α) :
    write array ((index : ℕ) : Int) value = .ok (Function.update array index value) :=
  write_natCast array index.isLt value

theorem read_eq_ok {array : Fin n → α} {index : Int} {value : α}
    (stored : read array index = .ok value) :
    ∃ i : Fin n, index = ((i : ℕ) : Int) ∧ value = array i := by
  rw [read] at stored
  split at stored
  · rename_i inside
    cases stored
    exact ⟨⟨index.toNat, inside.2⟩, (Int.toNat_of_nonneg inside.1).symm, rfl⟩
  · cases stored

theorem write_eq_ok {array after : Fin n → α} {index : Int} {value : α}
    (written : write array index value = .ok after) :
    ∃ i : Fin n, index = ((i : ℕ) : Int) ∧ after = Function.update array i value := by
  rw [write] at written
  split at written
  · rename_i inside
    cases written
    exact ⟨⟨index.toNat, inside.2⟩, (Int.toNat_of_nonneg inside.1).symm, rfl⟩
  · cases written

theorem read_error {array : Fin n → α} {index : Int} {fault : Fault}
    (fails : read array index = .error fault) : fault = .outOfBounds := by
  rw [read] at fails
  split at fails
  · cases fails
  · cases fails
    rfl

theorem write_error {array : Fin n → α} {index : Int} {value : α} {fault : Fault}
    (fails : write array index value = .error fault) : fault = .outOfBounds := by
  rw [write] at fails
  split at fails
  · cases fails
  · cases fails
    rfl

theorem lt_of_read {array : Fin n → α} {index : ℕ} {value : α}
    (stored : read array (index : Int) = .ok value) : index < n := by
  by_contra outside
  have failed : read array (index : Int) = .error .outOfBounds := by
    simp [read, outside]
  rw [failed] at stored
  cases stored

theorem read_update (array : Fin n → α) {place index : ℕ} (below : place < n) (value : α) :
    read (Function.update array ⟨place, below⟩ value) (index : Int) =
      if index = place then .ok value else read array (index : Int) := by
  by_cases same : index = place
  · simp [same, below]
  · by_cases inside : index < n
    · simp [inside, same]
    · simp [read, inside, same]

theorem read_of_neg (array : Fin n → α) {index : Int} (negative : index < 0) :
    read array index = .error .outOfBounds := by
  have outside : ¬ (0 ≤ index ∧ index.toNat < n) := fun inside => by omega
  exact dif_neg outside

/-- A write behind the first `written` elements of an array makes them one more. -/
theorem update_prefix {written : ℕ} (below : written < n) {front longer behind : Fin n → α}
    {value : α} (same : ∀ index : Fin n, index < written → longer index = front index)
    (last : longer ⟨written, below⟩ = value) :
    Function.update (fun index : Fin n => if index < written then front index else behind index)
        ⟨written, below⟩ value =
      fun index : Fin n => if index < written + 1 then longer index else behind index := by
  rw [Function.update_eq_iff]
  constructor
  · rw [if_pos (Nat.lt_succ_self written), last]
  · intro index elsewhere
    have other : index.val ≠ written := fun equal => elsewhere (Fin.ext equal)
    by_cases before : index.val < written
    · rw [if_pos before, if_pos (by omega), same index before]
    · rw [if_neg before, if_neg (by omega)]

/-- `array[index] += value`. -/
def addAt (array : Fin n → Int) (index value : Int) : Outcome (Fin n → Int) := do
  let sum ← addInt (← read array index) value
  write array index sum

/-- `array[index] -= value`. -/
def subAt (array : Fin n → Int) (index value : Int) : Outcome (Fin n → Int) := do
  let difference ← subInt (← read array index) value
  write array index difference

/-- `array[row][index] += value`. -/
def addAt₂ (array : Fin m → Fin n → Int) (row index value : Int) :
    Outcome (Fin m → Fin n → Int) := do
  let line ← addAt (← read array row) index value
  write array row line

/-- `array[row][index] -= value`. -/
def subAt₂ (array : Fin m → Fin n → Int) (row index value : Int) :
    Outcome (Fin m → Fin n → Int) := do
  let line ← subAt (← read array row) index value
  write array row line

theorem addAt_ok (array : Fin n → Int) {index : ℕ} (below : index < n) {value : Int}
    (fits : IsInt (array ⟨index, below⟩ + value)) :
    addAt array index value =
      .ok (Function.update array ⟨index, below⟩ (array ⟨index, below⟩ + value)) := by
  simp [addAt, below, addInt_ok fits]

theorem addAt_overflow (array : Fin n → Int) {index : ℕ} (below : index < n) {value : Int}
    (large : ¬ IsInt (array ⟨index, below⟩ + value)) :
    addAt array index value = .error .overflow := by
  simp [addAt, below, addInt_overflow large]

theorem subAt_ok (array : Fin n → Int) {index : ℕ} (below : index < n) {value : Int}
    (fits : IsInt (array ⟨index, below⟩ - value)) :
    subAt array index value =
      .ok (Function.update array ⟨index, below⟩ (array ⟨index, below⟩ - value)) := by
  simp [subAt, below, subInt_ok fits]

theorem addAt₂_ok (array : Fin m → Fin n → Int) {row index : ℕ} (rowBelow : row < m)
    (below : index < n) {value : Int}
    (fits : IsInt (array ⟨row, rowBelow⟩ ⟨index, below⟩ + value)) :
    addAt₂ array row index value =
      .ok (Function.update array ⟨row, rowBelow⟩
        (Function.update (array ⟨row, rowBelow⟩) ⟨index, below⟩
          (array ⟨row, rowBelow⟩ ⟨index, below⟩ + value))) := by
  simp [addAt₂, rowBelow, addAt_ok _ below fits]

theorem subAt₂_ok (array : Fin m → Fin n → Int) {row index : ℕ} (rowBelow : row < m)
    (below : index < n) {value : Int}
    (fits : IsInt (array ⟨row, rowBelow⟩ ⟨index, below⟩ - value)) :
    subAt₂ array row index value =
      .ok (Function.update array ⟨row, rowBelow⟩
        (Function.update (array ⟨row, rowBelow⟩) ⟨index, below⟩
          (array ⟨row, rowBelow⟩ ⟨index, below⟩ - value))) := by
  simp [subAt₂, rowBelow, subAt_ok _ below fits]

end Arrays

end OsProjects.C
