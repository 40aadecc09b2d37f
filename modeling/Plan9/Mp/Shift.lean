import Plan9.Mp.Vec

/-!
# Shifts of vectors

The loops of `mpleft.c` and `mpright.c`, by whole digits and by bits. A shift to the left goes
down from the top digit, a shift to the right up from the lowest one, so that a number can be
shifted in place; `Plan9.Mp.Clear` and `Plan9.Mp.ClearDown` say when a loop does not read what
it has written.
-/

namespace Plan9

namespace Mp

open Lib

variable {m : Digits} {src dst n : ℕ} {y : UInt32} {l r : ℕ}

/-- `mpright` by whole digits. -/
def digitsDown (m : Digits) (src dst : ℕ) : ℕ → Digits
  | 0 => m
  | n + 1 => digitsDown (m.set dst (m src)) (src + 1) (dst + 1) n

/-- `mpright` by `r` bits; the digit `last` was read before. -/
def bitsDown (m : Digits) (src dst r : ℕ) (last : UInt32) : ℕ → Digits
  | 0 => m.set dst (last >>> UInt32.ofNat r)
  | n + 1 =>
    bitsDown (m.set dst ((m src <<< UInt32.ofNat (32 - r)) ||| (last >>> UInt32.ofNat r)))
      (src + 1) (dst + 1) r (m src) n

/-- `mpleft` by whole digits. -/
def digitsUp (m : Digits) (src dst : ℕ) : ℕ → Digits
  | 0 => m
  | n + 1 => digitsUp (m.set (dst + n) (m (src + n))) src dst n

/-- `mpleft` by `l` bits; the digit `last` was read before. -/
def bitsUp (m : Digits) (src dst l : ℕ) (last : UInt32) : ℕ → Digits
  | 0 => m.set dst (last <<< UInt32.ofNat l)
  | n + 1 =>
    bitsUp (m.set (dst + n + 1)
      ((last <<< UInt32.ofNat l) ||| (m (src + n) >>> UInt32.ofNat (32 - l)))) src dst l
      (m (src + n)) n

/-! ### The bits of a digit -/

theorem toNat_shiftRight_ofNat (x : UInt32) (hr : r < 32) :
    (x >>> UInt32.ofNat r).toNat = x.toNat / 2 ^ r := by
  rw [UInt32.toNat_shiftRight, UInt32.toNat_ofNat_of_lt' (by simp [UInt32.size]; omega),
    Nat.mod_eq_of_lt hr, Nat.shiftRight_eq_div_pow]

theorem toNat_shiftLeft_ofNat (x : UInt32) (hl : l < 32) :
    (x <<< UInt32.ofNat l).toNat = x.toNat * 2 ^ l % radix := by
  rw [UInt32.toNat_shiftLeft, UInt32.toNat_ofNat_of_lt' (by simp [UInt32.size]; omega),
    Nat.mod_eq_of_lt hl, Nat.shiftLeft_eq]

/-- What a shift to the left leaves of a digit, and what it pushes out. -/
theorem shiftLeft_add (x : UInt32) (hl : l ≤ 32) :
    x.toNat * 2 ^ l % radix + radix * (x.toNat / 2 ^ (32 - l)) = x.toNat * 2 ^ l := by
  have h := shift_split (d := x.toNat) hl
  rw [Nat.mul_comm radix, Nat.add_comm]
  exact h

/-- The bits of two digits that are put together do not meet. -/
theorem toNat_or_shift (x y : UInt32) (hl : 0 < l) (hl' : l < 32) :
    ((x <<< UInt32.ofNat l) ||| (y >>> UInt32.ofNat (32 - l))).toNat =
      x.toNat * 2 ^ l % radix + y.toNat / 2 ^ (32 - l) := by
  have hr : radix = 2 ^ (32 - l) * 2 ^ l := by
    rw [← pow_add, Nat.sub_add_cancel (Nat.le_of_lt hl')]
    rfl
  have hy : y.toNat / 2 ^ (32 - l) < 2 ^ l := by
    refine Nat.div_lt_of_lt_mul ?_
    rw [← hr]
    exact y.toNat_lt
  rw [UInt32.toNat_or, toNat_shiftLeft_ofNat _ hl', toNat_shiftRight_ofNat _ (by omega), hr,
    Nat.mul_mod_mul_right, Nat.mul_comm _ (2 ^ l), Nat.two_pow_add_eq_or_of_lt hy]

/-! ### To the right -/

theorem digitsDown_spec (h : Clear dst src n) : (digitsDown m src dst n).val dst n = m.val src n ∧
      Digits.Same m (digitsDown m src dst n) dst n := by
  induction n generalizing m src dst with
  | zero => exact ⟨rfl, Digits.Same.refl _ _ _⟩
  | succ n ih =>
    obtain ⟨h1, h2⟩ := ih (m := m.set dst (m src)) h.tail
    rw [h.val_set] at h1
    rw [digitsDown]
    refine ⟨?_, ((Digits.Same.set _ _ _).mono le_rfl (by omega)).trans
      (h2.mono (Nat.le_succ dst) (by omega))⟩
    rw [Digits.val_succ, h1, h2 dst (Or.inl (Nat.lt_succ_self dst)), Digits.set_self,
      Digits.val_succ]

theorem bitsDown_spec (h : Clear dst src n) (hr : 0 < r) (hr' : r < 32) :
    (bitsDown m src dst r y n).val dst (n + 1) = (y.toNat + radix * m.val src n) / 2 ^ r ∧
      Digits.Same m (bitsDown m src dst r y n) dst (n + 1) := by
  have hrad : radix = 2 ^ r * 2 ^ (32 - r) := by
    rw [← pow_add, Nat.add_sub_cancel' (Nat.le_of_lt hr')]
    rfl
  have hdiv : ∀ u X : ℕ, (u + radix * X) / 2 ^ r = u / 2 ^ r + 2 ^ (32 - r) * X := by
    intro u X
    rw [hrad, Nat.mul_assoc, Nat.add_mul_div_left _ _ (Nat.two_pow_pos r)]
  induction n generalizing m src dst y with
  | zero =>
    rw [bitsDown]
    refine ⟨?_, Digits.Same.set _ _ _⟩
    rw [Digits.val_one, Digits.set_self, toNat_shiftRight_ofNat _ hr', Digits.val_zero,
      Nat.mul_zero, Nat.add_zero]
  | succ n ih =>
    rw [bitsDown]
    have hdig := toNat_or_shift (m src) y (by omega : 0 < 32 - r) (by omega)
    rw [show 32 - (32 - r) = r by omega] at hdig
    generalize m src <<< UInt32.ofNat (32 - r) ||| y >>> UInt32.ofNat r = x at hdig ⊢
    obtain ⟨h1, h2⟩ := ih (m := m.set dst x) (y := m src) h.tail
    rw [h.val_set] at h1
    have h3 : bitsDown (m.set dst x) (src + 1) (dst + 1) r (m src) n dst = x := by
      rw [h2 dst (Or.inl (Nat.lt_succ_self dst)), Digits.set_self]
    refine ⟨?_, ((Digits.Same.set _ _ _).mono le_rfl (by omega)).trans
      (h2.mono (Nat.le_succ dst) (by omega))⟩
    have h4 := shiftLeft_add (m src) (by omega : 32 - r ≤ 32)
    rw [show 32 - (32 - r) = r by omega] at h4
    rw [Digits.val_succ, h3, h1, hdig, hdiv, hdiv, Digits.val_succ]
    calc (m src).toNat * 2 ^ (32 - r) % radix + y.toNat / 2 ^ r +
          radix * ((m src).toNat / 2 ^ r + 2 ^ (32 - r) * m.val (src + 1) n)
        = ((m src).toNat * 2 ^ (32 - r) % radix + radix * ((m src).toNat / 2 ^ r)) +
            y.toNat / 2 ^ r + 2 ^ (32 - r) * (radix * m.val (src + 1) n) := by ring
      _ = _ := by rw [h4]; ring

/-! ### To the left -/

/-- A row that is read down from its top is not overwritten by one that is written from `dst`
on, in the same order. -/
def ClearDown (dst src n : ℕ) : Prop := src ≤ dst ∨ dst + n ≤ src

theorem ClearDown.init (h : ClearDown dst src (n + 1)) : ClearDown dst src n :=
  h.imp_right fun h => by omega

theorem digitsUp_spec (h : ClearDown dst src n) : (digitsUp m src dst n).val dst n = m.val src n ∧
      Digits.Same m (digitsUp m src dst n) dst n := by
  induction n generalizing m with
  | zero => exact ⟨rfl, Digits.Same.refl _ _ _⟩
  | succ n ih =>
    obtain ⟨h1, h2⟩ := ih (m := m.set (dst + n) (m (src + n))) h.init
    have h3 : (m.set (dst + n) (m (src + n))).val src n = m.val src n :=
      Digits.val_frame fun j hj hj' => Digits.set_of_ne _ _ (by rcases h with h | h <;> omega)
    rw [h3] at h1
    rw [digitsUp]
    refine ⟨?_, ((Digits.Same.set _ _ _).mono (Nat.le_add_right _ _) (by omega)).trans
      (h2.mono le_rfl (by omega))⟩
    rw [Digits.val_succ_top, h1, h2 _ (Or.inr le_rfl), Digits.set_self, Digits.val_succ_top]

theorem bitsUp_spec (h : ClearDown (dst + 1) src n) (hl : 0 < l) (hl' : l < 32) :
    (bitsUp m src dst l y n).val dst (n + 1) =
        2 ^ l * m.val src n + radix ^ n * (y.toNat * 2 ^ l % radix) ∧
      Digits.Same m (bitsUp m src dst l y n) dst (n + 1) := by
  induction n generalizing m y with
  | zero =>
    rw [bitsUp]
    refine ⟨?_, Digits.Same.set _ _ _⟩
    rw [Digits.val_one, Digits.set_self, toNat_shiftLeft_ofNat _ hl', Digits.val_zero,
      Nat.mul_zero, pow_zero, Nat.one_mul, Nat.zero_add]
  | succ n ih =>
    rw [bitsUp]
    have hdig := toNat_or_shift y (m (src + n)) hl hl'
    generalize y <<< UInt32.ofNat l ||| m (src + n) >>> UInt32.ofNat (32 - l) = x at hdig ⊢
    obtain ⟨h1, h2⟩ := ih (m := m.set (dst + n + 1) x) (y := m (src + n)) h.init
    have h3 : (m.set (dst + n + 1) x).val src n = m.val src n :=
      Digits.val_frame fun j hj hj' => Digits.set_of_ne _ _ (by rcases h with h | h <;> omega)
    rw [h3] at h1
    refine ⟨?_, ((Digits.Same.set _ _ _).mono (by omega) (by omega)).trans
      (h2.mono le_rfl (by omega))⟩
    have h4 := shiftLeft_add (m (src + n)) (Nat.le_of_lt hl')
    rw [Digits.val_succ_top, h1, h2 _ (Or.inr le_rfl), ← Nat.add_assoc dst n 1, Digits.set_self,
      hdig, Digits.val_succ_top]
    calc 2 ^ l * m.val src n + radix ^ n * ((m (src + n)).toNat * 2 ^ l % radix) +
          radix ^ (n + 1) * (y.toNat * 2 ^ l % radix + (m (src + n)).toNat / 2 ^ (32 - l))
        = 2 ^ l * m.val src n + radix ^ n * ((m (src + n)).toNat * 2 ^ l % radix +
            radix * ((m (src + n)).toNat / 2 ^ (32 - l))) +
            radix ^ (n + 1) * (y.toNat * 2 ^ l % radix) := by ring
      _ = _ := by rw [h4]; ring

end Mp

end Plan9
