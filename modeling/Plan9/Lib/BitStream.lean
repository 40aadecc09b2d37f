import Mathlib.Tactic.Ring
import Plan9.Lib.Bytes

/-!
# Bit streams, most significant bit first

A stream of bits is a list of booleans. Numbers enter and leave it through
**accumulators**: machine words whose lowest `n` bits are the part of the stream in
transit, the first bit of the stream being the highest of them.

* `Plan9.Lib.bitsOf_add` – an accumulator falls into a high and a low part;
* `Plan9.Lib.bitsOf_push` – shifting a code in at the bottom appends its bits;
* `Plan9.Lib.bitsOf_shiftOut` – shifting a byte out at the top;
* `Plan9.Lib.eq_of_bitsOf_append` – what is read off the top of an accumulator is
  the number its first bits spell.
-/

namespace Plan9

namespace Lib

/-- The lowest `n` bits of a number, highest first. -/
def bitsOf : ℕ → ℕ → List Bool
  | 0, _ => []
  | n + 1, v => v.testBit n :: bitsOf n v

/-- The bits of a byte string. -/
def bytesBits (b : List UInt8) : List Bool := b.flatMap fun x => bitsOf 8 x.toNat

@[simp]
theorem bitsOf_zero (v : ℕ) : bitsOf 0 v = [] := rfl

@[simp]
theorem length_bitsOf (n v : ℕ) : (bitsOf n v).length = n := by
  induction n with
  | zero => rfl
  | succ n ih => rw [bitsOf, List.length_cons, ih]

@[simp]
theorem bytesBits_nil : bytesBits [] = [] := rfl

theorem bytesBits_cons (x : UInt8) (b : List UInt8) :
    bytesBits (x :: b) = bitsOf 8 x.toNat ++ bytesBits b := rfl

theorem bytesBits_concat (b : List UInt8) (x : UInt8) :
    bytesBits (b ++ [x]) = bytesBits b ++ bitsOf 8 x.toNat := by
  simp [bytesBits, List.flatMap_append]

@[simp]
theorem length_bytesBits (b : List UInt8) : (bytesBits b).length = 8 * b.length := by
  induction b with
  | nil => rfl
  | cons x b ih =>
    rw [bytesBits_cons, List.length_append, length_bitsOf, ih, List.length_cons]
    ring

/-- **An accumulator falls apart** into its high and its low bits. -/
theorem bitsOf_add (m n v : ℕ) : bitsOf (m + n) v = bitsOf m (v >>> n) ++ bitsOf n v := by
  induction m with
  | zero => simp
  | succ m ih =>
    rw [Nat.succ_add, bitsOf, ih, bitsOf, Nat.testBit_shiftRight, Nat.add_comm n m,
      List.cons_append]

variable {n v w : ℕ}

/-- Only the lowest bits matter. -/
theorem bitsOf_congr (h : ∀ i < n, v.testBit i = w.testBit i) :
    bitsOf n v = bitsOf n w := by
  induction n with
  | zero => rfl
  | succ n ih => rw [bitsOf, bitsOf, h n (by omega), ih fun i hi => h i (by omega)]

theorem bitsOf_mod {m : ℕ} (h : n ≤ m) : bitsOf n (v % 2 ^ m) = bitsOf n v := by
  refine bitsOf_congr fun i hi => ?_
  have him : i < m := by omega
  rw [Nat.testBit_mod_two_pow]
  simp [him]

/-- The bits determine the number. -/
theorem mod_eq_of_bitsOf_eq (h : bitsOf n v = bitsOf n w) : v % 2 ^ n = w % 2 ^ n := by
  have key : ∀ {n : ℕ}, bitsOf n v = bitsOf n w → ∀ i < n, v.testBit i = w.testBit i := by
    intro n
    induction n with
    | zero => exact fun _ i hi => absurd hi (by omega)
    | succ n ih =>
      intro h i hi
      obtain ⟨hn, htail⟩ := List.cons.inj h
      rcases Nat.lt_succ_iff_lt_or_eq.1 hi with hlt | rfl
      · exact ih htail i hlt
      · exact hn
  refine Nat.eq_of_testBit_eq fun i => ?_
  rw [Nat.testBit_mod_two_pow, Nat.testBit_mod_two_pow]
  by_cases hi : i < n
  · rw [key h i hi]
  · simp [hi]

variable {k : ℕ}

/-- **Shifting a code in**: the bits of the code come behind those that were there, as
long as they all fit the word. -/
theorem bitsOf_push (v : UInt32) {c : UInt32} (hc : c.toNat < 2 ^ k) (hk : k < 32)
    (hn : n + k ≤ 32) :
    bitsOf (n + k) ((v <<< UInt32.ofNat k) ||| c).toNat = bitsOf n v.toNat ++ bitsOf k c.toNat := by
  have hval : ((v <<< UInt32.ofNat k) ||| c).toNat = v.toNat <<< k % 2 ^ 32 ||| c.toNat := by
    have hk' : (UInt32.ofNat k).toNat = k := UInt32.toNat_ofNat_of_lt' (lt_trans hk (by decide))
    rw [UInt32.toNat_or, UInt32.toNat_shiftLeft, hk', Nat.mod_eq_of_lt hk]
  rw [hval, bitsOf_add]
  congr 1
  · refine bitsOf_congr fun i hi => ?_
    have h1 : k + i < 32 := by omega
    have h2 : c.toNat.testBit (k + i) = false :=
      Nat.testBit_lt_two_pow (lt_of_lt_of_le hc (Nat.pow_le_pow_right (by omega) (by omega)))
    rw [Nat.testBit_shiftRight, Nat.testBit_or, Nat.testBit_mod_two_pow, Nat.testBit_shiftLeft, h2]
    simp [h1]
  · refine bitsOf_congr fun i hi => ?_
    rw [Nat.testBit_or, Nat.testBit_mod_two_pow, Nat.testBit_shiftLeft]
    simp [hi]

/-- The numbers read off the top of an accumulator. -/
theorem toNat_shiftRight (v : UInt32) (hk : k < 32) :
    (v >>> UInt32.ofNat k).toNat = v.toNat >>> k := by
  have hk' : (UInt32.ofNat k).toNat = k := UInt32.toNat_ofNat_of_lt' (lt_trans hk (by decide))
  rw [UInt32.toNat_shiftRight, hk', Nat.mod_eq_of_lt hk]

/-- **Shifting a byte out**: the highest eight bits of an accumulator. -/
theorem bitsOf_shiftOut (v : UInt32) (hn : n + 8 ≤ 32) :
    bitsOf 8 (v >>> UInt32.ofNat n).toUInt8.toNat ++ bitsOf n v.toNat = bitsOf (n + 8) v.toNat := by
  rw [UInt32.toNat_toUInt8, toNat_shiftRight v (by omega), bitsOf_mod le_rfl, Nat.add_comm n 8,
    bitsOf_add]

/-- **Reading from the top**: if the bits of an accumulator start with those of a code,
shifting the rest away and masking gives the code. -/
theorem eq_of_bitsOf_append {c : ℕ} {rest : List Bool} (hc : c < 2 ^ k) (hk : k ≤ n)
    (h : bitsOf n v = bitsOf k c ++ rest) :
    (v >>> (n - k)) % 2 ^ k = c ∧ bitsOf (n - k) v = rest := by
  have hsplit := bitsOf_add k (n - k) v
  rw [Nat.add_sub_cancel' hk, h] at hsplit
  obtain ⟨htop, hrest⟩ := List.append_inj hsplit (by simp)
  exact ⟨(mod_eq_of_bitsOf_eq htop).symm.trans (Nat.mod_eq_of_lt hc), hrest.symm⟩

end Lib

end Plan9
