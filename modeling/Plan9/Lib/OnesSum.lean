import Mathlib.Data.Nat.Bits
import Mathlib.Data.Nat.ModEq
import Mathlib.Data.UInt
import Mathlib.Tactic.Ring

/-!
# One's-complement sums

Addition with an end-around carry, and the sum of a string of bytes read as 16-bit words. The
sum of a row of words is the residue `Plan9.Lib.residue` of their plain sum, the one of
`1, …, m` that is congruent to it, and `0` for the sum `0` alone
(`Plan9.Lib.sum_endAround`). So a sum may be taken in any order, in any number of accumulators
and with the carries put off to the end: what has to be kept is the remainder modulo `m` and
whether it is zero, `Plan9.Lib.SameSum`.

For words of two bytes a byte counts as it is or 256-fold, by the parity of its place. A string
that begins at an odd place has the sum of the same string at an even place with its two bytes
swapped, that is 256 times as much (`Plan9.Lib.weigh_odd`).
-/

namespace Plan9

namespace Lib

/-! ### Residues -/

/-- Add with an end-around carry: a sum above `m` goes on from 1. -/
def endAround (m a b : ℕ) : ℕ := if a + b ≤ m then a + b else a + b - m

/-- The one of `1, …, m` that is congruent to `n`; 0 has itself. -/
def residue (m n : ℕ) : ℕ := if n = 0 then 0 else (n - 1) % m + 1

/-- Two numbers with one residue. -/
def SameSum (m a b : ℕ) : Prop := a % m = b % m ∧ (a = 0 ↔ b = 0)

namespace SameSum

variable {m a b c d : ℕ}

theorem refl (m a : ℕ) : SameSum m a a := ⟨Eq.refl _, Iff.rfl⟩

theorem symm (h : SameSum m a b) : SameSum m b a := ⟨h.1.symm, h.2.symm⟩

theorem trans (h : SameSum m a b) (h' : SameSum m b c) : SameSum m a c :=
  ⟨h.1.trans h'.1, h.2.trans h'.2⟩

theorem add (h : SameSum m a b) (h' : SameSum m c d) : SameSum m (a + c) (b + d) := by
  constructor
  · exact Nat.ModEq.add h.1 h'.1
  · rw [Nat.add_eq_zero_iff, Nat.add_eq_zero_iff, h.2, h'.2]

theorem mul (h : SameSum m a b) (k : ℕ) : SameSum m (k * a) (k * b) := by
  constructor
  · exact Nat.ModEq.mul_left k h.1
  · rw [Nat.mul_eq_zero, Nat.mul_eq_zero, h.2]

end SameSum

theorem residue_of_le {m n : ℕ} (h : n ≤ m) : residue m n = n := by
  rw [residue]
  split
  · rename_i hn
    exact hn.symm
  · rw [Nat.mod_eq_of_lt (by omega)]
    omega

theorem residue_le {m : ℕ} (hm : 0 < m) (n : ℕ) : residue m n ≤ m := by
  rw [residue]
  split
  · exact Nat.zero_le m
  · exact Nat.mod_lt (n - 1) hm

theorem sameSum_residue (m n : ℕ) : SameSum m (residue m n) n := by
  rw [residue]
  split
  · rename_i hn
    rw [hn]
    exact SameSum.refl m 0
  · refine ⟨?_, by omega⟩
    rw [Nat.mod_add_mod]
    congr 1
    omega

/-- **The residue is all that two congruent numbers have to share.** -/
theorem residue_eq_iff {m a b : ℕ} : residue m a = residue m b ↔ SameSum m a b := by
  constructor
  · intro h
    have ha := (sameSum_residue m a).symm
    rw [h] at ha
    exact ha.trans (sameSum_residue m b)
  · rintro ⟨hmod, hzero⟩
    rw [residue, residue]
    by_cases hb : b = 0
    · rw [if_pos hb, if_pos (hzero.2 hb)]
    · have ha : a ≠ 0 := fun ha => hb (hzero.1 ha)
      rw [if_neg hb, if_neg ha]
      have hpred : (a - 1) % m = (b - 1) % m := by
        refine Nat.ModEq.add_right_cancel' 1 ?_
        rw [Nat.sub_add_cancel (Nat.pos_of_ne_zero ha), Nat.sub_add_cancel (Nat.pos_of_ne_zero hb)]
        exact hmod
      rw [hpred]

/-- The carry that comes around is 1 more, and `m` less. -/
theorem endAround_residue {m : ℕ} (hm : 0 < m) (a b : ℕ) :
    endAround m (residue m a) (residue m b) = residue m (a + b) := by
  have ha := residue_le hm a
  have hb := residue_le hm b
  have hsum : SameSum m (residue m a + residue m b) (a + b) :=
    (sameSum_residue m a).add (sameSum_residue m b)
  rw [← residue_eq_iff.2 hsum, endAround]
  split
  · rename_i hle
    exact (residue_of_le hle).symm
  · rename_i hgt
    rw [← residue_of_le (show residue m a + residue m b - m ≤ m by omega), residue_eq_iff]
    constructor
    · rw [← Nat.mod_eq_sub_mod (by omega)]
    · omega

/-- **A sum with end-around carries is the residue of the plain sum.** -/
theorem sum_endAround {m : ℕ} (hm : 0 < m) (l : List ℕ) (hl : ∀ n ∈ l, n ≤ m) :
    l.foldr (endAround m) 0 = residue m l.sum := by
  induction l with
  | nil => rfl
  | cons n l ih =>
    rw [List.foldr_cons, List.sum_cons, ih fun k hk => hl k (List.mem_cons_of_mem n hk),
      ← endAround_residue hm, residue_of_le (hl n List.mem_cons_self)]

/-! ### Words of two bytes -/

/-- The 16-bit words of a string, the first byte of each the upper one; a last byte that is
alone is an upper one. -/
def words : List UInt8 → List ℕ
  | [] => []
  | [a] => [256 * a.toNat]
  | a :: b :: l => (256 * a.toNat + b.toNat) :: words l

/-- The 16-bit one's-complement sum of a string. -/
def onesSum (l : List UInt8) : ℕ := (words l).foldr (endAround 65535) 0

/-- The bytes of a string counted as they are at an odd place, and 256-fold at an even one. -/
def weigh : Bool → List UInt8 → ℕ
  | _, [] => 0
  | odd, b :: l => (if odd then b.toNat else 256 * b.toNat) + weigh (!odd) l

@[simp]
theorem weigh_nil (odd : Bool) : weigh odd [] = 0 := rfl

theorem weigh_cons (odd : Bool) (b : UInt8) (l : List UInt8) :
    weigh odd (b :: l) = (if odd then b.toNat else 256 * b.toNat) + weigh (!odd) l := rfl

theorem sum_words (l : List UInt8) : (words l).sum = weigh false l := by
  induction l using words.induct with
  | case1 => rfl
  | case2 a => rfl
  | case3 a b l ih =>
    rw [words, List.sum_cons, ih, weigh_cons, weigh_cons, Nat.add_assoc]
    rfl

theorem words_le (l : List UInt8) : ∀ n ∈ words l, n ≤ 65535 := by
  intro n hn
  induction l using words.induct with
  | case1 => cases hn
  | case2 a =>
    have := a.toNat_lt
    rw [words, List.mem_singleton] at hn
    omega
  | case3 a b l ih =>
    have := a.toNat_lt
    have := b.toNat_lt
    rw [words, List.mem_cons] at hn
    rcases hn with rfl | hn
    · omega
    · exact ih hn

/-- **The sum of a string is the residue of its weight.** -/
theorem onesSum_eq (l : List UInt8) : onesSum l = residue 65535 (weigh false l) := by
  rw [onesSum, sum_endAround (by omega) _ (words_le l), sum_words]

theorem onesSum_le (l : List UInt8) : onesSum l ≤ 65535 := by
  rw [onesSum_eq]
  exact residue_le (by omega) _

/-- What follows an odd number of bytes changes places. -/
theorem weigh_append (odd : Bool) (l r : List UInt8) :
    weigh odd (l ++ r) = weigh odd l + weigh (odd ^^ l.length.bodd) r := by
  induction l generalizing odd with
  | nil => simp
  | cons b l ih =>
    have hodd : ((!odd) ^^ l.length.bodd) = (odd ^^ (b :: l).length.bodd) := by
      rw [List.length_cons, Nat.bodd_succ, Bool.not_xor, Bool.xor_not]
    rw [List.cons_append, weigh_cons, weigh_cons, ih, hodd, Nat.add_assoc]

/-- **A string at an odd place weighs 256 times what it weighs at an even one**, up to
multiples of 65535. -/
theorem weigh_odd (odd : Bool) (l : List UInt8) :
    SameSum 65535 (256 * weigh odd l) (weigh (!odd) l) := by
  induction l generalizing odd with
  | nil => exact SameSum.refl _ _
  | cons b l ih =>
    rw [weigh_cons, weigh_cons, Nat.mul_add]
    refine SameSum.add ?_ (ih !odd)
    cases odd with
    | true => exact SameSum.refl _ _
    | false =>
      -- twice 256-fold is 65536-fold
      constructor
      · show 256 * (256 * b.toNat) % 65535 = b.toNat % 65535
        omega
      · show 256 * (256 * b.toNat) = 0 ↔ b.toNat = 0
        omega

/-- The sum of a string, in its place among others. -/
theorem weigh_sameSum (odd : Bool) (l : List UInt8) :
    SameSum 65535 (weigh odd l) (if odd then 256 * onesSum l else onesSum l) := by
  have hsum : SameSum 65535 (weigh false l) (onesSum l) := by
    rw [onesSum_eq]
    exact (sameSum_residue _ _).symm
  cases odd with
  | false => exact hsum
  | true => exact (weigh_odd false l).symm.trans (hsum.mul 256)

end Lib

end Plan9
