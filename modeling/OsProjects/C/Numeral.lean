import Mathlib.Algebra.Group.Nat.Defs

/-!
Owns the decimal numerals that `printf` writes for `%lu`, `%d` and `%ld`, with their length.

Does not own how a numeral is read.
-/

namespace OsProjects.C

/-- The decimal numeral of a number, without leading zeros. -/
def decimal (value : ℕ) : List Char := Nat.toDigits 10 value

def signedDecimal (value : Int) : List Char :=
  if value < 0 then '-' :: decimal value.natAbs else decimal value.natAbs

theorem decimal_ne_nil (value : ℕ) : decimal value ≠ [] := Nat.toDigits_ne_nil

theorem length_decimal_le_iff {value digits : ℕ} (positive : 0 < digits) :
    (decimal value).length ≤ digits ↔ value < 10 ^ digits :=
  Nat.length_toDigits_le_iff (by decide) positive

theorem length_signedDecimal {value : Int} {digits : ℕ} (positive : 0 < digits)
    (small : value.natAbs < 10 ^ digits) : (signedDecimal value).length ≤ digits + 1 := by
  have numeral := (length_decimal_le_iff positive).mpr small
  rw [signedDecimal]
  split
  · rw [List.length_cons]
    omega
  · omega

end OsProjects.C
