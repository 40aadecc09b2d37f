import Plan9.Libc.Rune
import Mathlib.Algebra.BigOperators.Group.List.Basic
import Mathlib.Algebra.Order.BigOperators.Group.List

/-!
# The length of runes

`runelen` and `runenlen`: how many bytes the runes take as UTF-8. The sum is an `int`, and the
length of one rune is found by comparisons of its own, which do not know what `runetochar` writes
instead of a rune that is out of range.

* `Plan9.Libc.length_runetochar` – how many bytes `runetochar` writes;
* `Plan9.Libc.toInt_runenlen` – what `runenlen` computes;
* `Plan9.Libc.runenlen_eq_iff` – the two agree if and only if no rune is out of range and the sum
  is an `int`.
-/

namespace Plan9

namespace Libc

open Lib

/-! ### The code -/

/-- `runelen`. -/
def runelen (c : Int32) : ℕ := (runetochar c.toUInt32.toNat).2

/-- The loop of `runenlen` over the number of bytes of one rune, from `i` on: what is added. -/
def runenlenLoop (c i : ℕ) : ℕ :=
  if i < UTFmax + 1 then
    if c ≤ RuneX i ∨ i = UTFmax then i else runenlenLoop c (i + 1)
  else 0
  termination_by UTFmax + 1 - i

/-- The loop of `runenlen` over the runes. -/
def runenlen (r : List UInt32) : Int32 :=
  r.foldl (fun nb c =>
    if c.toNat ≤ Rune1 then nb + 1 else nb + Int32.ofNat (runenlenLoop c.toNat 2)) 0

/-! ### One rune -/

/-- **`runelen`** is the number of bytes that `runetochar` writes. -/
theorem runelen_eq (c : Int32) : runelen c = (runetochar c.toUInt32.toNat).1.length := by
  rw [runelen, runetochar_eq, encode, List.length_map, length_form]

/-- How many bytes are written: those of the error rune for a rune that is out of range. -/
theorem length_runetochar (c : ℕ) :
    (runetochar c).1.length = if c ≤ Runemax then follow c + 1 else 3 := by
  rw [runetochar_eq, encode, List.length_map, length_form]
  have herror : follow Runeerror = 2 := rfl
  by_cases hmax : c ≤ Runemax
  · rw [if_pos hmax]
    by_cases hscalar : Scalar c
    · rw [if_pos hscalar]
    · -- a surrogate takes as many bytes as the error rune
      have hsurrogate : 0xD800 ≤ c ∧ c ≤ 0xDFFF := by
        by_contra hno
        exact hscalar ⟨hmax, hno⟩
      rw [if_neg hscalar, herror, follow_two (by omega) (by omega)]
  · rw [if_neg hmax, if_neg fun hscalar => hmax hscalar.1, herror]

theorem runenlenLoop_two {c : ℕ} (hc : 0x80 ≤ c) : runenlenLoop c 2 = follow c + 1 := by
  have h2 : runenlenLoop c 2 = if c ≤ RuneX 2 then 2 else runenlenLoop c 3 := by
    rw [runenlenLoop]
    simp [UTFmax]
  have h3 : runenlenLoop c 3 = if c ≤ RuneX 3 then 3 else runenlenLoop c 4 := by
    rw [runenlenLoop]
    simp [UTFmax]
  have h4 : runenlenLoop c 4 = 4 := by
    rw [runenlenLoop]
    simp [UTFmax]
  rw [h2, h3, h4, runeX_two, runeX_three]
  split_ifs with hlt hlt'
  · rw [follow_one hc (by omega)]
  · rw [follow_two (by omega) (by omega)]
  · rw [follow_three (by omega)]

/-! ### All runes -/

/-- **`runenlen`** adds up the lengths by the range of the runes, as an `int`. -/
theorem toInt_runenlen (r : List UInt32) : (runenlen r).toInt =
    Int.bmod ((r.map fun c => follow c.toNat + 1).sum : ℕ) (2 ^ 32) := by
  have hstep (nb : Int32) (c : UInt32) :
      (if c.toNat ≤ Rune1 then nb + 1 else nb + Int32.ofNat (runenlenLoop c.toNat 2)) =
        nb + Int32.ofNat (follow c.toNat + 1) := by
    split
    · rename_i hascii
      rw [rune1] at hascii
      rw [follow, if_pos (by omega)]
      rfl
    · rename_i hno
      rw [rune1] at hno
      rw [runenlenLoop_two (by omega)]
  have hfold : ∀ (l : List UInt32) (nb : Int32) (k : ℕ), nb = Int32.ofNat k →
      l.foldl (fun nb c => if c.toNat ≤ Rune1 then nb + 1
        else nb + Int32.ofNat (runenlenLoop c.toNat 2)) nb =
        Int32.ofNat (k + (l.map fun c => follow c.toNat + 1).sum) := by
    intro l
    induction l with
    | nil => exact fun nb k hk => hk
    | cons c l ih =>
      intro nb k hk
      rw [List.foldl_cons, hstep, hk, ← Int32.ofNat_add, ih _ _ rfl, List.map_cons, List.sum_cons,
        Nat.add_assoc]
  rw [runenlen, hfold r 0 0 rfl, Nat.zero_add, Int32.toInt_ofNat']
  rfl

/-- The runes that are out of range. -/
def outOfRange (r : List UInt32) : List UInt32 := r.filter fun c => ¬c.toNat ≤ Runemax

/-- Each rune that is out of range is counted one byte too long. -/
theorem sum_follow (r : List UInt32) : (r.map fun c => follow c.toNat + 1).sum =
    (r.map fun c => (runetochar c.toNat).1.length).sum + (outOfRange r).length := by
  induction r with
  | nil => rfl
  | cons c r ih =>
    rw [outOfRange] at ih ⊢
    rw [List.map_cons, List.sum_cons, List.map_cons, List.sum_cons, ih, length_runetochar,
      List.filter_cons]
    by_cases hmax : c.toNat ≤ Runemax
    · rw [if_pos hmax, if_neg (by simpa using hmax)]
      omega
    · rw [if_neg hmax, if_pos (by simpa using hmax), List.length_cons, follow_three]
      · omega
      · rw [Runemax] at hmax
        omega

/-- **The predicted length** is that of the encoding if and only if no rune is out of range and
the sum is an `int`. -/
theorem runenlen_eq_iff (r : List UInt32) (hn : r.length < 2147483648) :
    (runenlen r).toInt = ((r.map fun c => (runetochar c.toNat).1.length).sum : ℕ) ↔
      (∀ c ∈ r, c.toNat ≤ Runemax) ∧ (r.map fun c => follow c.toNat + 1).sum < 2147483648 := by
  have hsum := sum_follow r
  have hcount : (outOfRange r).length ≤ r.length := List.length_filter_le _ r
  have hnone : (∀ c ∈ r, c.toNat ≤ Runemax) ↔ (outOfRange r).length = 0 := by
    rw [List.length_eq_zero_iff, outOfRange, List.filter_eq_nil_iff]
    simp
  rw [toInt_runenlen, hnone]
  generalize (r.map fun c => (runetochar c.toNat).1.length).sum = written at hsum ⊢
  generalize (r.map fun c => follow c.toNat + 1).sum = predicted at hsum ⊢
  rw [Int.bmod_def]
  constructor
  · intro h
    split at h <;> omega
  · rintro ⟨hzero, hlt⟩
    split <;> omega

/-- A rune of each length. -/
def someRunes : List UInt32 := [0x61, 0xE9, 0x20AC, 0x1F600]

theorem runenlen_eq_iff_some :
    (runenlen someRunes).toInt = ((someRunes.map fun c => (runetochar c.toNat).1.length).sum : ℕ) ↔
      (∀ c ∈ someRunes, c.toNat ≤ Runemax) ∧
        (someRunes.map fun c => follow c.toNat + 1).sum < 2147483648 :=
  runenlen_eq_iff someRunes (by decide)

/-- **A rune out of range** is counted four bytes long, and three are written. -/
theorem runenlen_out_of_range : ¬(runenlen [0x110000]).toInt =
    (([0x110000].map fun c : UInt32 => (runetochar c.toNat).1.length).sum : ℕ) := by
  have hlen : (runenlen [0x110000]).toInt = 4 := by
    rw [toInt_runenlen, List.map_singleton, List.sum_singleton, follow_three (by decide)]
    rfl
  have hwritten : ([0x110000].map fun c : UInt32 => (runetochar c.toNat).1.length).sum = 3 := by
    rw [List.map_singleton, List.sum_singleton, length_runetochar]
    rfl
  rw [hlen, hwritten]
  decide

end Libc

end Plan9
