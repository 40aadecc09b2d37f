import Mathlib.Data.Nat.Basic
import Mathlib.Logic.Function.Basic
import Mathlib.Tactic.Ring

/-!
# Numbers in memory

A number of any size lies in memory as a row of 32-bit digits, the least significant one
first. `Plan9.Lib.Digits.val m p n` is the number in the `n` digits from address `p` on. A
digit loop that writes from `s` on while it reads from `a` on never reads what it has written
when `s ≤ a`, or when the two rows do not meet; that is the condition under which the loops
of the developments below are described.
-/

namespace Plan9

namespace Lib

/-- The radix. -/
abbrev radix : ℕ := 4294967296

/-- A memory of digits. -/
abbrev Digits := ℕ → UInt32

namespace Digits

variable {m m' : Digits} {p q n k i : ℕ}

/-- Write a digit. -/
def set (m : Digits) (p : ℕ) (x : UInt32) : Digits := Function.update m p x

@[simp]
theorem set_self (m : Digits) (p : ℕ) (x : UInt32) : m.set p x p = x := by
  rw [set, Function.update_self]

theorem set_of_ne (m : Digits) (x : UInt32) (h : q ≠ p) : m.set p x q = m q := by
  rw [set, Function.update_of_ne h]

/-- The number in `n` digits. -/
def val (m : Digits) (p : ℕ) : ℕ → ℕ
  | 0 => 0
  | n + 1 => (m p).toNat + radix * val m (p + 1) n

@[simp]
theorem val_zero (m : Digits) (p : ℕ) : m.val p 0 = 0 := rfl

theorem val_succ (m : Digits) (p n : ℕ) :
    m.val p (n + 1) = (m p).toNat + radix * m.val (p + 1) n := rfl

theorem val_one (m : Digits) (p : ℕ) : m.val p 1 = (m p).toNat := by
  rw [val_succ, val_zero, Nat.mul_zero, Nat.add_zero]

/-- A number depends on its digits only. -/
theorem val_congr (h : ∀ i < n, m' (q + i) = m (p + i)) : m'.val q n = m.val p n := by
  induction n generalizing p q with
  | zero => rfl
  | succ n ih =>
    have h0 : m' q = m p := h 0 (Nat.succ_pos n)
    have h1 : m'.val (q + 1) n = m.val (p + 1) n := ih fun i hi => by
      rw [Nat.add_assoc, Nat.add_assoc, Nat.add_comm 1 i]
      exact h (i + 1) (Nat.succ_lt_succ hi)
    rw [val_succ, val_succ, h0, h1]

/-- Frame: what is written elsewhere does not matter. -/
theorem val_frame (h : ∀ j, p ≤ j → j < p + n → m' j = m j) : m'.val p n = m.val p n :=
  val_congr fun i hi => h _ (Nat.le_add_right p i) (Nat.add_lt_add_left hi p)

theorem val_add (m : Digits) (p k n : ℕ) :
    m.val p (k + n) = m.val p k + radix ^ k * m.val (p + k) n := by
  induction k generalizing p with
  | zero => simp
  | succ k ih =>
    rw [Nat.succ_add_eq_add_succ, Nat.add_succ, val_succ, val_succ, ih (p + 1),
      Nat.add_assoc p 1 k, Nat.add_comm 1 k, pow_succ]
    ring

theorem val_succ_top (m : Digits) (p n : ℕ) :
    m.val p (n + 1) = m.val p n + radix ^ n * (m (p + n)).toNat := by
  rw [val_add, val_one]

theorem val_lt (m : Digits) (p n : ℕ) : m.val p n < radix ^ n := by
  induction n generalizing p with
  | zero => exact Nat.one_pos
  | succ n ih =>
    have h1 := ih (p + 1)
    have h2 : (m p).toNat < radix := (m p).toNat_lt
    rw [val_succ, pow_succ, Nat.mul_comm _ radix]
    calc (m p).toNat + radix * m.val (p + 1) n
        < radix + radix * m.val (p + 1) n := Nat.add_lt_add_right h2 _
      _ = radix * (m.val (p + 1) n + 1) := by ring
      _ ≤ radix * radix ^ n := Nat.mul_le_mul_left _ h1

theorem val_eq_zero (h : ∀ i < n, m (p + i) = 0) : m.val p n = 0 := by
  induction n generalizing p with
  | zero => rfl
  | succ n ih =>
    have h0 : m p = 0 := h 0 (Nat.succ_pos n)
    have h1 : m.val (p + 1) n = 0 := ih fun i hi => by
      rw [Nat.add_assoc, Nat.add_comm 1 i]
      exact h (i + 1) (Nat.succ_lt_succ hi)
    rw [val_succ, h0, h1]
    rfl

theorem eq_zero_of_val (h : m.val p n = 0) (hi : i < n) : m (p + i) = 0 := by
  induction n generalizing p i with
  | zero => exact absurd hi (Nat.not_lt_zero i)
  | succ n ih =>
    rw [val_succ] at h
    have h1 : (m p).toNat = 0 := (Nat.add_eq_zero_iff.1 h).1
    have h2 : m.val (p + 1) n = 0 := by
      rcases Nat.mul_eq_zero.1 (Nat.add_eq_zero_iff.1 h).2 with h2 | h2
      · exact absurd h2 (by decide)
      · exact h2
    rcases i with _ | i
    · exact UInt32.toNat_inj.1 h1
    · rw [Nat.add_comm i 1, ← Nat.add_assoc]
      exact ih h2 (Nat.lt_of_succ_lt_succ hi)

/-- Zero digits above a number do not count. -/
theorem val_of_zeros (hk : k ≤ n) (h : ∀ i, k ≤ i → i < n → m (p + i) = 0) :
    m.val p n = m.val p k := by
  obtain ⟨j, rfl⟩ := Nat.exists_eq_add_of_le hk
  have h1 : m.val (p + k) j = 0 := val_eq_zero fun i hi => by
    rw [Nat.add_assoc]
    exact h (k + i) (Nat.le_add_right k i) (Nat.add_lt_add_left hi k)
  rw [val_add, h1, Nat.mul_zero, Nat.add_zero]

/-- The high digits of a small number are zero. -/
theorem val_of_lt (hk : k ≤ n) (h : m.val p n < radix ^ k) : m.val p n = m.val p k := by
  obtain ⟨j, rfl⟩ := Nat.exists_eq_add_of_le hk
  rw [val_add] at h ⊢
  have h1 : m.val (p + k) j = 0 := by
    by_contra h0
    have h1 : radix ^ k * 1 ≤ radix ^ k * m.val (p + k) j :=
      Nat.mul_le_mul_left _ (Nat.pos_of_ne_zero h0)
    omega
  rw [h1, Nat.mul_zero, Nat.add_zero]

/-- A number with a nonzero top digit. -/
theorem pow_le_val (h : m (p + n) ≠ 0) : radix ^ n ≤ m.val p (n + 1) := by
  have h1 : 1 ≤ (m (p + n)).toNat := Nat.one_le_iff_ne_zero.2 fun h0 => h (UInt32.toNat_inj.1 h0)
  rw [val_succ_top]
  calc radix ^ n = radix ^ n * 1 := (Nat.mul_one _).symm
    _ ≤ radix ^ n * (m (p + n)).toNat := Nat.mul_le_mul_left _ h1
    _ ≤ _ := Nat.le_add_left _ _

/-- Write a row of zeros. -/
def zero (m : Digits) (p n : ℕ) : Digits := fun j => if p ≤ j ∧ j < p + n then 0 else m j

theorem zero_apply (h : p ≤ i) (h' : i < p + n) : m.zero p n i = 0 := if_pos ⟨h, h'⟩

theorem zero_of_ne (h : i < p ∨ p + n ≤ i) : m.zero p n i = m i := if_neg fun h' => by omega

/-- Copy a row, as it was before. -/
def copy (m : Digits) (dst src n : ℕ) : Digits := fun j =>
  if dst ≤ j ∧ j < dst + n then m (src + (j - dst)) else m j

theorem copy_apply {dst src : ℕ} (h : i < n) : m.copy dst src n (dst + i) = m (src + i) := by
  rw [copy, if_pos ⟨Nat.le_add_right _ _, Nat.add_lt_add_left h _⟩, Nat.add_sub_cancel_left]

theorem copy_of_ne {dst src : ℕ} (h : i < dst ∨ dst + n ≤ i) : m.copy dst src n i = m i :=
  if_neg fun h' => by omega

theorem val_copy (m : Digits) (dst src n : ℕ) : (m.copy dst src n).val dst n = m.val src n :=
  val_congr fun _ hi => copy_apply hi

/-! ### Rows and writes -/

/-- `m'` differs from `m` at most in the `n` digits from `p` on. -/
def Same (m m' : Digits) (p n : ℕ) : Prop := ∀ j, j < p ∨ p + n ≤ j → m' j = m j

theorem Same.refl (m : Digits) (p n : ℕ) : Same m m p n := fun _ _ => rfl

theorem Same.trans {m'' : Digits} (h : Same m m' p n) (h' : Same m' m'' p n) : Same m m'' p n :=
  fun j hj => (h' j hj).trans (h j hj)

theorem Same.mono {p' n' : ℕ} (h : Same m m' p' n') (hp : p ≤ p') (hn : p' + n' ≤ p + n) :
    Same m m' p n :=
  fun j hj => h j (by omega)

theorem Same.set (m : Digits) (p : ℕ) (x : UInt32) : Same m (m.set p x) p 1 :=
  fun _ hj => set_of_ne m x (by omega)

/-- A row that is written digit after digit: its first digit, then the others. -/
theorem Same.cons {x : UInt32} (h : Same (m.set p x) m' (p + 1) n) :
    m'.val p (n + 1) = x.toNat + radix * m'.val (p + 1) n ∧ Same m m' p (n + 1) := by
  refine ⟨?_, ((Same.set m p x).mono le_rfl (by omega)).trans (h.mono (Nat.le_succ p) (by omega))⟩
  rw [val_succ, h p (Or.inl (Nat.lt_succ_self p)), set_self]

/-- A number that lies apart from the writes. -/
theorem Same.val_eq (h : Same m m' p n) (hq : q + k ≤ p ∨ p + n ≤ q) : m'.val q k = m.val q k :=
  val_frame fun j h1 h2 => h j (by omega)

end Digits

end Lib

end Plan9
