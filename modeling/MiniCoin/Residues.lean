import Mathlib.Data.ZMod.Basic
import Mathlib.Algebra.BigOperators.Finprod

/-!
# Wrapping arithmetic as residues

Sixty-four bit arithmetic wraps, so it is arithmetic modulo `2 ^ 64`, signed or not.
The residue of a machine integer is its value in `ZMod (2 ^ 64)`; the operations of
the machine become ring operations, casts between signed and unsigned disappear, and
sums may be rearranged. A residue determines the machine integer.
-/

namespace Residues

/-- The ring of values modulo `2 ^ 64`. -/
abbrev Word := ZMod (2 ^ 64)

/-- The residue of a signed value. -/
def signed (x : Int64) : Word := (x.toInt : Word)

/-- The residue of an unsigned value. -/
def unsigned (x : UInt64) : Word := (x.toNat : Word)

/-- The wrapped value and the value are the same residue. -/
theorem cast_bmod (z : Int) : ((z.bmod (2 ^ 64) : Int) : Word) = (z : Word) := by
  rw [ZMod.intCast_eq_intCast_iff]
  exact Int.bmod_emod

/-- Zero is the residue zero. -/
@[simp] theorem signed_zero : signed 0 = 0 := by simp [signed]

/-- Wrapping addition is addition of residues, so sums can be computed without
overflow in mind. -/
@[simp] theorem signed_add (x y : Int64) : signed (x + y) = signed x + signed y := by
  rw [signed, Int64.toInt_add, cast_bmod, Int.cast_add]
  rfl

/-- So is wrapping subtraction. -/
@[simp] theorem signed_sub (x y : Int64) : signed (x - y) = signed x - signed y := by
  rw [signed, Int64.toInt_sub, cast_bmod, Int.cast_sub]
  rfl

/-- And addition without sign. -/
@[simp] theorem unsigned_add (x y : UInt64) : unsigned (x + y) = unsigned x + unsigned y := by
  rw [unsigned, UInt64.toNat_add, ZMod.natCast_mod, Nat.cast_add]
  rfl

/-- The signed value of an unsigned word. -/
theorem toInt_toInt64 (x : UInt64) : x.toInt64.toInt = (x.toNat : Int).bmod (2 ^ 64) := by
  rw [← UInt64.ofNat_toNat (x := x), UInt64.toInt64_ofNat', Int64.toInt_ofNat']
  simp

/-- Reinterpreting an unsigned value as a signed one keeps the residue. -/
@[simp] theorem signed_toInt64 (x : UInt64) : signed x.toInt64 = unsigned x := by
  rw [signed, toInt_toInt64, cast_bmod]
  simp [unsigned]

/-- A signed value is the signed representative of its residue. -/
theorem toInt_of_signed (x : Int64) (z : Int) (same : signed x = (z : Word)) :
    x.toInt = z.bmod (2 ^ 64) := by
  have congruent : x.toInt % (2 ^ 64 : Nat) = z % (2 ^ 64 : Nat) :=
    (ZMod.intCast_eq_intCast_iff _ _ _).mp same
  have lower := x.le_toInt
  have upper := x.toInt_lt
  rw [Int.bmod_def]
  omega

/-- Adding one changes a residue. -/
theorem add_one_ne (x : Word) : x + 1 ≠ x := by
  intro same
  have zero : (1 : Word) = 0 := by simpa using same
  exact absurd zero (by decide)

end Residues
