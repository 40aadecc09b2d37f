import Mathlib.Data.Int.Notation

/-!
# Serial numbers

A protocol that numbers the places of a stream with 32-bit words compares two of
these numbers by the sign of their difference as an `int`
(`Plan9.Lib.Serial.signed`). The comparison is about places only when these are
near each other.

`Plan9.Lib.Serial.At i p x` says that `x` is the number of the place `p`, an
integer, when `i` is the number of place `0`. The rules
`Plan9.Lib.Serial.At.signed_sub` and `Plan9.Lib.Serial.At.toNat_sub` turn a
difference of numbers into the difference of the places, for places less than
half a turn and less than a turn apart.
-/

namespace Plan9

namespace Lib

namespace Serial

/-- A 32-bit word read as an `int`. It is irreducible so that no comparison of types counts up to
the literal. -/
@[irreducible] def signed (x : UInt32) : ℤ :=
  if x.toNat < 2147483648 then x.toNat else x.toNat - 4294967296

theorem toNat_lt (x : UInt32) : x.toNat < 4294967296 := x.toNat_lt

theorem signed_zero : signed 0 = 0 := by
  rw [signed]
  rfl

theorem toNat_sub (x y : UInt32) :
    ((x - y).toNat : ℤ) = ((x.toNat : ℤ) - y.toNat) % 4294967296 := by
  have hx := toNat_lt x
  have hy := toNat_lt y
  rw [UInt32.toNat_sub]
  omega

theorem toNat_add (x y : UInt32) :
    ((x + y).toNat : ℤ) = ((x.toNat : ℤ) + y.toNat) % 4294967296 := by
  rw [UInt32.toNat_add]
  omega

/-- `x` is the number of the place `p`, where `i` is the number of place `0`. -/
def At (i : UInt32) (p : ℤ) (x : UInt32) : Prop :=
  (x.toNat : ℤ) = (i.toNat + p) % 4294967296

variable {i x y : UInt32} {p q : ℤ}

theorem at_zero (i : UInt32) : At i 0 i := by
  have hi := toNat_lt i
  rw [At]
  omega

/-- The number of the place that lies `n` places further. -/
theorem At.add (h : At i p x) {d : UInt32} {n : ℤ} (hd : (d.toNat : ℤ) = n) :
    At i (p + n) (x + d) := by
  have hadd := toNat_add x d
  rw [At] at h ⊢
  omega

theorem At.sub (h : At i p x) {d : UInt32} {n : ℤ} (hd : (d.toNat : ℤ) = n) :
    At i (p - n) (x - d) := by
  have hsub := toNat_sub x d
  rw [At] at h ⊢
  omega

/-- **The difference of two numbers** is the difference of their places, from the lower place to
one less than a turn above it. -/
theorem At.toNat_sub (h : At i p x) (h' : At i q y) (hle : q ≤ p) (hlt : p < q + 4294967296) :
    ((x - y).toNat : ℤ) = p - q := by
  have hsub := Serial.toNat_sub x y
  rw [At] at h h'
  omega

/-- **The sign of a difference** orders the places that are less than half a turn apart. -/
theorem At.signed_sub (h : At i p x) (h' : At i q y) (hle : q ≤ p + 2147483648)
    (hlt : p < q + 2147483648) : signed (x - y) = p - q := by
  have hsub := Serial.toNat_sub x y
  rw [At] at h h'
  rw [signed]
  split <;> omega

/-- Two places less than a turn apart do not have one number. -/
theorem At.unique (h : At i p x) (h' : At i q x) (hle : q < p + 4294967296)
    (hlt : p < q + 4294967296) : p = q := by
  rw [At] at h h'
  omega

end Serial

end Lib

end Plan9
