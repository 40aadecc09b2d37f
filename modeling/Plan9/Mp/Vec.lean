import Plan9.Lib.Digits

/-!
# Vectors of digits

The inner loops of `libmp`: `mpvecadd.c`, `mpvecsub.c`, `mpveccmp.c`, `mpvecdigmuladd.c` and
`mpdigdiv.c`. Each is described by the equation between the numbers it reads and writes:

* `Plan9.Mp.mpvecadd_spec` and `Plan9.Mp.mpvecsub_spec`, also where the result overwrites an
  operand;
* `Plan9.Mp.mpveccmp_spec`;
* `Plan9.Mp.mpvecdigmuladd_spec` and `Plan9.Mp.mpvecdigmulsub_spec`: what is carried from one
  digit to the next is a digit and a carry whose sum is again less than the radix;
* `Plan9.Mp.mpdigdiv_spec`.
-/

namespace Plan9

namespace Mp

open Lib

variable {m : Digits} {a b s p alen blen n : ℕ} {x y c carry : UInt32}

/-- A C comparison as a digit. -/
def ofBool (b : Bool) : UInt32 := if b then 1 else 0

theorem toNat_ofBool (b : Bool) : (ofBool b).toNat = if b then 1 else 0 := by
  cases b <;> rfl

/-! ### Addition -/

/-- The body of the first loop of `mpvecadd`: a digit and the carry. -/
def addDigit (x y carry : UInt32) : UInt32 × UInt32 :=
  (x + carry + y, ofBool (x + carry < carry) + ofBool (x + carry + y < y))

/-- The first loop of `mpvecadd`. -/
def addLoop (m : Digits) (a b sum : ℕ) (carry : UInt32) : ℕ → Digits × UInt32
  | 0 => (m, carry)
  | n + 1 =>
    let d := addDigit (m a) (m b) carry
    addLoop (m.set sum d.1) (a + 1) (b + 1) (sum + 1) d.2 n

/-- The second loop of `mpvecadd`. -/
def carryLoop (m : Digits) (a sum : ℕ) (carry : UInt32) : ℕ → Digits × UInt32
  | 0 => (m, carry)
  | n + 1 =>
    let x := m a + carry
    carryLoop (m.set sum x) (a + 1) (sum + 1) (ofBool (x < carry)) n

/-- `mpvecadd`. -/
def mpvecadd (m : Digits) (a alen b blen sum : ℕ) : Digits :=
  let r := addLoop m a b sum 0 blen
  let r' := carryLoop r.1 (a + blen) (sum + blen) r.2 (alen - blen)
  r'.1.set (sum + blen + (alen - blen)) r'.2

theorem addDigit_spec (x y : UInt32) (hc : carry.toNat ≤ 1) :
    (addDigit x y carry).1.toNat + radix * (addDigit x y carry).2.toNat =
      x.toNat + y.toNat + carry.toNat ∧ (addDigit x y carry).2.toNat ≤ 1 := by
  have hx := x.toNat_lt
  have hy := y.toNat_lt
  simp only [radix, addDigit, UInt32.toNat_add, toNat_ofBool, decide_eq_true_eq,
    UInt32.lt_iff_toNat_lt]
  split <;> split <;> omega

theorem carryDigit_spec (x : UInt32) (hc : carry.toNat ≤ 1) :
    (x + carry).toNat + radix * (ofBool (x + carry < carry)).toNat = x.toNat + carry.toNat ∧
      (ofBool (x + carry < carry)).toNat ≤ 1 := by
  have hx := x.toNat_lt
  simp only [radix, UInt32.toNat_add, toNat_ofBool, decide_eq_true_eq, UInt32.lt_iff_toNat_lt]
  split <;> omega

/-- A row that is read from `a` on is not overwritten by one that is written from `s` on,
digit by digit in the same order. -/
def Clear (s a n : ℕ) : Prop := s ≤ a ∨ a + n ≤ s

theorem Clear.tail (h : Clear s a (n + 1)) : Clear (s + 1) (a + 1) n :=
  h.imp Nat.succ_le_succ fun h => by omega

/-- The digits behind the first one are still there when that one is written. -/
theorem Clear.val_set (h : Clear s a (n + 1)) (x : UInt32) :
    (m.set s x).val (a + 1) n = m.val (a + 1) n :=
  Digits.val_frame fun j h1 h2 => Digits.set_of_ne m x (by
    rcases h with h | h <;> omega)

theorem pow_succ_mul (n k : ℕ) : radix ^ (n + 1) * k = radix * (radix ^ n * k) := by
  rw [pow_succ', Nat.mul_assoc]

theorem addLoop_spec (ha : Clear s a n) (hb : Clear s b n) (hc : carry.toNat ≤ 1) :
    (addLoop m a b s carry n).1.val s n + radix ^ n * (addLoop m a b s carry n).2.toNat =
        m.val a n + m.val b n + carry.toNat ∧
      (addLoop m a b s carry n).2.toNat ≤ 1 ∧ Digits.Same m (addLoop m a b s carry n).1 s n := by
  induction n generalizing m a b s carry with
  | zero => exact ⟨by simp [addLoop], hc, Digits.Same.refl m s 0⟩
  | succ n ih =>
    obtain ⟨h1, h2⟩ := addDigit_spec (m a) (m b) hc
    rw [addLoop]
    generalize addDigit (m a) (m b) carry = d at h1 h2 ⊢
    obtain ⟨h3, h4, h5⟩ := ih (m := m.set s d.1) ha.tail hb.tail h2
    rw [ha.val_set, hb.val_set] at h3
    obtain ⟨h6, h7⟩ := h5.cons
    refine ⟨?_, h4, h7⟩
    rw [h6, Digits.val_succ, Digits.val_succ, pow_succ_mul]
    have h8 := congrArg (radix * ·) h3
    simp only [Nat.mul_add] at h8
    omega

theorem carryLoop_spec (ha : Clear s a n) (hc : carry.toNat ≤ 1) :
    (carryLoop m a s carry n).1.val s n + radix ^ n * (carryLoop m a s carry n).2.toNat =
        m.val a n + carry.toNat ∧
      (carryLoop m a s carry n).2.toNat ≤ 1 ∧ Digits.Same m (carryLoop m a s carry n).1 s n := by
  induction n generalizing m a s carry with
  | zero => exact ⟨by simp [carryLoop], hc, Digits.Same.refl m s 0⟩
  | succ n ih =>
    obtain ⟨h1, h2⟩ := carryDigit_spec (m a) hc
    rw [carryLoop]
    generalize ofBool (m a + carry < carry) = c' at h1 h2 ⊢
    generalize m a + carry = x at h1 ⊢
    obtain ⟨h3, h4, h5⟩ := ih (m := m.set s x) ha.tail h2
    rw [ha.val_set] at h3
    obtain ⟨h6, h7⟩ := h5.cons
    refine ⟨?_, h4, h7⟩
    rw [h6, Digits.val_succ, pow_succ_mul]
    have h8 := congrArg (radix * ·) h3
    simp only [Nat.mul_add] at h8
    omega

/-- **Addition**, with the carry as one digit more. -/
theorem mpvecadd_spec (hlen : blen ≤ alen) (ha : Clear s a alen) (hb : Clear s b blen) :
    (mpvecadd m a alen b blen s).val s (alen + 1) = m.val a alen + m.val b blen ∧
      Digits.Same m (mpvecadd m a alen b blen s) s (alen + 1) := by
  obtain ⟨k, rfl⟩ := Nat.exists_eq_add_of_le hlen
  have ha1 : Clear s a blen := ha.imp_right fun h => by omega
  obtain ⟨h1, h2, h3⟩ := addLoop_spec (m := m) ha1 hb (by decide : (0 : UInt32).toNat ≤ 1)
  rw [mpvecadd, Nat.add_sub_cancel_left]
  generalize addLoop m a b s 0 blen = r at h1 h2 h3 ⊢
  have ha2 : Clear (s + blen) (a + blen) k := ha.imp (fun h => by omega) fun h => by omega
  obtain ⟨h4, h5, h6⟩ := carryLoop_spec (m := r.1) ha2 h2
  generalize carryLoop r.1 (a + blen) (s + blen) r.2 k = r' at h4 h5 h6 ⊢
  -- the rest of the first operand is still there
  have h7 : r.1.val (a + blen) k = m.val (a + blen) k :=
    Digits.val_frame fun j hj hj' => h3 j (by rcases ha with h | h <;> omega)
  have h8 : (r'.1.set (s + blen + k) r'.2).val s (blen + k) =
      r.1.val s blen + radix ^ blen * r'.1.val (s + blen) k := by
    rw [Digits.val_add]
    congr 1
    · exact Digits.val_frame fun j _ hj => by
        rw [Digits.set_of_ne _ _ (by omega), h6 j (by omega)]
    · congr 1
      exact Digits.val_frame fun j _ hj => Digits.set_of_ne _ _ (by omega)
  refine ⟨?_, ?_⟩
  · rw [Digits.val_succ_top, h8, ← Nat.add_assoc, Digits.set_self, pow_add, Digits.val_add m a]
    rw [h7] at h4
    have h9 := congrArg (radix ^ blen * ·) h4
    simp only [Nat.mul_add] at h9
    rw [UInt32.toNat_zero, Nat.add_zero] at h1
    rw [Nat.mul_assoc]
    omega
  · refine ((h3.mono le_rfl (by omega)).trans (h6.mono (Nat.le_add_right _ _) (by omega))).trans ?_
    exact (Digits.Same.set _ _ _).mono (by omega) (by omega)

/-! ### Subtraction -/

/-- The body of the first loop of `mpvecsub`. -/
def subDigit (x y borrow : UInt32) : UInt32 × UInt32 :=
  (x - (y + borrow), ofBool (y + borrow < borrow) + ofBool (x < y + borrow))

/-- The first loop of `mpvecsub`. -/
def subLoop (m : Digits) (a b diff : ℕ) (borrow : UInt32) : ℕ → Digits × UInt32
  | 0 => (m, borrow)
  | n + 1 =>
    let d := subDigit (m a) (m b) borrow
    subLoop (m.set diff d.1) (a + 1) (b + 1) (diff + 1) d.2 n

/-- The second loop of `mpvecsub`. -/
def borrowLoop (m : Digits) (a diff : ℕ) (borrow : UInt32) : ℕ → Digits × UInt32
  | 0 => (m, borrow)
  | n + 1 =>
    let y := m a - borrow
    borrowLoop (m.set diff y) (a + 1) (diff + 1) (ofBool (m a < y)) n

/-- `mpvecsub`. -/
def mpvecsub (m : Digits) (a alen b blen diff : ℕ) : Digits :=
  let r := subLoop m a b diff 0 blen
  (borrowLoop r.1 (a + blen) (diff + blen) r.2 (alen - blen)).1

theorem subDigit_spec (x y : UInt32) (hc : carry.toNat ≤ 1) :
    (subDigit x y carry).1.toNat + y.toNat + carry.toNat =
      x.toNat + radix * (subDigit x y carry).2.toNat ∧ (subDigit x y carry).2.toNat ≤ 1 := by
  have hx := x.toNat_lt
  have hy := y.toNat_lt
  simp only [radix, subDigit, UInt32.toNat_add, UInt32.toNat_sub, toNat_ofBool, decide_eq_true_eq,
    UInt32.lt_iff_toNat_lt]
  split <;> split <;> omega

theorem borrowDigit_spec (x : UInt32) (hc : carry.toNat ≤ 1) :
    (x - carry).toNat + carry.toNat = x.toNat + radix * (ofBool (x < x - carry)).toNat ∧
      (ofBool (x < x - carry)).toNat ≤ 1 := by
  have hx := x.toNat_lt
  simp only [radix, UInt32.toNat_sub, toNat_ofBool, decide_eq_true_eq, UInt32.lt_iff_toNat_lt]
  split <;> omega

theorem subLoop_spec (ha : Clear s a n) (hb : Clear s b n) (hc : carry.toNat ≤ 1) :
    (subLoop m a b s carry n).1.val s n + m.val b n + carry.toNat =
        m.val a n + radix ^ n * (subLoop m a b s carry n).2.toNat ∧
      (subLoop m a b s carry n).2.toNat ≤ 1 ∧ Digits.Same m (subLoop m a b s carry n).1 s n := by
  induction n generalizing m a b s carry with
  | zero => exact ⟨by simp [subLoop], hc, Digits.Same.refl m s 0⟩
  | succ n ih =>
    obtain ⟨h1, h2⟩ := subDigit_spec (m a) (m b) hc
    rw [subLoop]
    generalize subDigit (m a) (m b) carry = d at h1 h2 ⊢
    obtain ⟨h3, h4, h5⟩ := ih (m := m.set s d.1) ha.tail hb.tail h2
    rw [ha.val_set, hb.val_set] at h3
    obtain ⟨h6, h7⟩ := h5.cons
    refine ⟨?_, h4, h7⟩
    rw [h6, Digits.val_succ, Digits.val_succ, pow_succ_mul]
    have h8 := congrArg (radix * ·) h3
    simp only [Nat.mul_add] at h8
    omega

theorem borrowLoop_spec (ha : Clear s a n) (hc : carry.toNat ≤ 1) :
    (borrowLoop m a s carry n).1.val s n + carry.toNat =
        m.val a n + radix ^ n * (borrowLoop m a s carry n).2.toNat ∧
      (borrowLoop m a s carry n).2.toNat ≤ 1 ∧ Digits.Same m (borrowLoop m a s carry n).1 s n := by
  induction n generalizing m a s carry with
  | zero => exact ⟨by simp [borrowLoop], hc, Digits.Same.refl m s 0⟩
  | succ n ih =>
    obtain ⟨h1, h2⟩ := borrowDigit_spec (m a) hc
    rw [borrowLoop]
    generalize ofBool (m a < m a - carry) = c' at h1 h2 ⊢
    generalize m a - carry = x at h1 ⊢
    obtain ⟨h3, h4, h5⟩ := ih (m := m.set s x) ha.tail h2
    rw [ha.val_set] at h3
    obtain ⟨h6, h7⟩ := h5.cons
    refine ⟨?_, h4, h7⟩
    rw [h6, Digits.val_succ, pow_succ_mul]
    have h8 := congrArg (radix * ·) h3
    simp only [Nat.mul_add] at h8
    omega

/-- **Subtraction** of a number that is not greater. -/
theorem mpvecsub_spec (hlen : blen ≤ alen) (ha : Clear s a alen) (hb : Clear s b blen)
    (hle : m.val b blen ≤ m.val a alen) :
    (mpvecsub m a alen b blen s).val s alen + m.val b blen = m.val a alen ∧
      Digits.Same m (mpvecsub m a alen b blen s) s alen := by
  obtain ⟨k, rfl⟩ := Nat.exists_eq_add_of_le hlen
  have ha1 : Clear s a blen := ha.imp_right fun h => by omega
  obtain ⟨h1, h2, h3⟩ := subLoop_spec (m := m) ha1 hb (by decide : (0 : UInt32).toNat ≤ 1)
  rw [mpvecsub, Nat.add_sub_cancel_left]
  generalize subLoop m a b s 0 blen = r at h1 h2 h3 ⊢
  have ha2 : Clear (s + blen) (a + blen) k := ha.imp (fun h => by omega) fun h => by omega
  obtain ⟨h4, h5, h6⟩ := borrowLoop_spec (m := r.1) ha2 h2
  generalize borrowLoop r.1 (a + blen) (s + blen) r.2 k = r' at h4 h5 h6 ⊢
  have h7 : r.1.val (a + blen) k = m.val (a + blen) k :=
    Digits.val_frame fun j hj hj' => h3 j (by rcases ha with h | h <;> omega)
  have h8 : r'.1.val s (blen + k) = r.1.val s blen + radix ^ blen * r'.1.val (s + blen) k := by
    rw [Digits.val_add]
    congr 1
    exact Digits.val_frame fun j _ hj => h6 j (by omega)
  have h9 : r'.1.val s (blen + k) + m.val b blen =
      m.val a (blen + k) + radix ^ (blen + k) * r'.2.toNat := by
    rw [h8, pow_add, Digits.val_add m a]
    rw [h7] at h4
    have h9 := congrArg (radix ^ blen * ·) h4
    simp only [Nat.mul_add] at h9
    have h10 : radix ^ blen * radix ^ k * r'.2.toNat = radix ^ blen * (radix ^ k * r'.2.toNat) := by
      ring
    rw [UInt32.toNat_zero, Nat.add_zero] at h1
    omega
  -- a borrow out of the last digit would make the difference too large
  have h10 : r'.2.toNat = 0 := by
    by_contra h
    have h11 : r'.2.toNat = 1 := by omega
    have h12 := r'.1.val_lt s (blen + k)
    rw [h11, Nat.mul_one] at h9
    omega
  refine ⟨by rw [h9, h10, Nat.mul_zero, Nat.add_zero], ?_⟩
  exact (h3.mono le_rfl (by omega)).trans (h6.mono (Nat.le_add_right _ _) (by omega))

/-! ### Comparison -/

/-- The first loops of `mpveccmp`: whether one of `k` digits from `p` on is not zero, looked
for from the top. -/
def anyDigit (m : Digits) (p : ℕ) : ℕ → Bool
  | 0 => false
  | k + 1 => m (p + k) ≠ 0 || anyDigit m p k

/-- The last loop of `mpveccmp`. -/
def cmpLoop (m : Digits) (a b : ℕ) : ℕ → ℤ
  | 0 => 0
  | n + 1 =>
    let x := m (a + n) - m (b + n)
    if x = 0 then cmpLoop m a b n else if m (a + n) < x then -1 else 1

/-- `mpveccmp`. -/
def mpveccmp (m : Digits) (a alen b blen : ℕ) : ℤ :=
  if anyDigit m (a + blen) (alen - blen) then 1
  else if anyDigit m (b + alen) (blen - alen) then -1
  else cmpLoop m a b (min alen blen)

/-- A comparison of two numbers as the C library gives it. -/
def Compares (r : ℤ) (u v : ℕ) : Prop := r = -1 ∧ u < v ∨ r = 0 ∧ u = v ∨ r = 1 ∧ v < u

theorem anyDigit_iff {k : ℕ} : anyDigit m p k = true ↔ 0 < m.val p k := by
  induction k with
  | zero => simp [anyDigit]
  | succ k ih =>
    rw [anyDigit, Bool.or_eq_true, ih, Digits.val_succ_top, decide_eq_true_eq]
    constructor
    · rintro (h | h)
      · have h1 : 0 < (m (p + k)).toNat := Nat.pos_of_ne_zero fun h0 => h (UInt32.toNat_inj.1 h0)
        exact Nat.add_pos_right _ (Nat.mul_pos (Nat.pow_pos (by decide)) h1)
      · exact Nat.add_pos_left h _
    · intro h
      by_cases h0 : m (p + k) = 0
      · rw [h0, UInt32.toNat_zero, Nat.mul_zero, Nat.add_zero] at h
        exact Or.inr h
      · exact Or.inl h0

/-- The top digits decide. -/
theorem lt_of_top {u v P i j : ℕ} (hu : u < P) (h : i < j) : u + P * i < v + P * j :=
  calc u + P * i < P + P * i := Nat.add_lt_add_right hu _
    _ = P * (i + 1) := by ring
    _ ≤ P * j := Nat.mul_le_mul_left _ h
    _ ≤ v + P * j := Nat.le_add_left _ _

theorem cmpLoop_spec : Compares (cmpLoop m a b n) (m.val a n) (m.val b n) := by
  induction n with
  | zero => exact Or.inr (Or.inl ⟨rfl, rfl⟩)
  | succ n ih =>
    have ha := m.val_lt a n
    have hb := m.val_lt b n
    have hx := (m (a + n)).toNat_lt
    have hy := (m (b + n)).toNat_lt
    have hsub : (m (a + n) - m (b + n)).toNat =
        (2 ^ 32 - (m (b + n)).toNat + (m (a + n)).toNat) % 2 ^ 32 := UInt32.toNat_sub _ _
    rw [cmpLoop, Digits.val_succ_top, Digits.val_succ_top]
    rcases Nat.lt_trichotomy (m (a + n)).toNat (m (b + n)).toNat with h | h | h
    · rw [if_neg fun h0 => by rw [h0, UInt32.toNat_zero] at hsub; omega,
        if_pos (UInt32.lt_iff_toNat_lt.2 (by omega))]
      exact Or.inl ⟨rfl, lt_of_top ha h⟩
    · rw [UInt32.toNat_inj.1 h, if_pos (UInt32.sub_self _)]
      rcases ih with ⟨h1, h2⟩ | ⟨h1, h2⟩ | ⟨h1, h2⟩
      · exact Or.inl ⟨h1, Nat.add_lt_add_right h2 _⟩
      · exact Or.inr (Or.inl ⟨h1, by rw [h2]⟩)
      · exact Or.inr (Or.inr ⟨h1, Nat.add_lt_add_right h2 _⟩)
    · rw [if_neg fun h0 => by rw [h0, UInt32.toNat_zero] at hsub; omega,
        if_neg fun h0 => by rw [UInt32.lt_iff_toNat_lt] at h0; omega]
      exact Or.inr (Or.inr ⟨rfl, lt_of_top hb h⟩)

/-- **Comparison.** -/
theorem mpveccmp_spec (m : Digits) (a alen b blen : ℕ) :
    Compares (mpveccmp m a alen b blen) (m.val a alen) (m.val b blen) := by
  rw [mpveccmp]
  rcases Nat.le_total alen blen with hlen | hlen
  · obtain ⟨k, rfl⟩ := Nat.exists_eq_add_of_le hlen
    have hb := Digits.val_add m b alen k
    rw [Nat.sub_eq_zero_of_le hlen, if_neg (by simp [anyDigit]), Nat.add_sub_cancel_left,
      Nat.min_eq_left hlen]
    by_cases h : anyDigit m (b + alen) k = true
    · rw [if_pos h]
      have h1 := anyDigit_iff.1 h
      have h2 : radix ^ alen * 1 ≤ radix ^ alen * m.val (b + alen) k := Nat.mul_le_mul_left _ h1
      have h3 := m.val_lt a alen
      exact Or.inl ⟨rfl, by omega⟩
    · rw [if_neg h]
      have h1 : m.val (b + alen) k = 0 := by
        by_contra h0
        exact h (anyDigit_iff.2 (Nat.pos_of_ne_zero h0))
      rw [hb, h1, Nat.mul_zero, Nat.add_zero]
      exact cmpLoop_spec
  · obtain ⟨k, rfl⟩ := Nat.exists_eq_add_of_le hlen
    have ha := Digits.val_add m a blen k
    rw [Nat.sub_eq_zero_of_le hlen, Nat.add_sub_cancel_left, Nat.min_eq_right hlen]
    by_cases h : anyDigit m (a + blen) k = true
    · rw [if_pos h]
      have h1 := anyDigit_iff.1 h
      have h2 : radix ^ blen * 1 ≤ radix ^ blen * m.val (a + blen) k := Nat.mul_le_mul_left _ h1
      have h3 := m.val_lt b blen
      exact Or.inr (Or.inr ⟨rfl, by omega⟩)
    · rw [if_neg h, if_neg (by simp [anyDigit])]
      have h1 : m.val (a + blen) k = 0 := by
        by_contra h0
        exact h (anyDigit_iff.2 (Nat.pos_of_ne_zero h0))
      rw [ha, h1, Nat.mul_zero, Nat.add_zero]
      exact cmpLoop_spec

/-! ### Multiplication by a digit -/

/-- `LO`. -/
def lo (x : UInt32) : UInt32 := x &&& 65535

/-- `HI`. -/
def hi (x : UInt32) : UInt32 := x >>> 16

/-- `mpdigmul`: the low and the high digit of a product. -/
def mpdigmul (a b : UInt32) : UInt32 × UInt32 :=
  let p1 := hi a * lo b
  let p2 := hi b * lo a
  let p3 := lo b * lo a
  let p4 := hi a * hi b
  let x := p1 <<< 16
  let p3' := p3 + x
  let carry := ofBool (p3' < x)
  let x' := p2 <<< 16
  let p3'' := p3' + x'
  (p3'', p4 + (carry + ofBool (p3'' < x') + hi p1 + hi p2))

theorem toNat_lo (x : UInt32) : (lo x).toNat = x.toNat % 65536 := by
  rw [lo, UInt32.toNat_and]
  exact Nat.and_two_pow_sub_one_eq_mod _ 16

theorem toNat_hi (x : UInt32) : (hi x).toNat = x.toNat / 65536 := by
  rw [hi, UInt32.toNat_shiftRight]
  exact Nat.shiftRight_eq_div_pow _ 16

theorem toNat_shiftLeft_16 (x : UInt32) : (x <<< 16).toNat = x.toNat * 65536 % 4294967296 := by
  rw [UInt32.toNat_shiftLeft]
  exact congrArg (· % 4294967296) (Nat.shiftLeft_eq _ 16)

/-- A product of two half digits is a digit. -/
theorem toNat_mul_half {x y : UInt32} (hx : x.toNat < 65536) (hy : y.toNat < 65536) :
    (x * y).toNat = x.toNat * y.toNat ∧ x.toNat * y.toNat ≤ 4294836225 := by
  have h : x.toNat * y.toNat ≤ 65535 * 65535 :=
    Nat.mul_le_mul (Nat.le_of_lt_succ hx) (Nat.le_of_lt_succ hy)
  refine ⟨?_, h⟩
  rw [UInt32.toNat_mul]
  exact Nat.mod_eq_of_lt (by omega)

/-- **The product of two digits.** -/
theorem mpdigmul_spec (x y : UInt32) :
    (mpdigmul x y).1.toNat + radix * (mpdigmul x y).2.toNat = x.toNat * y.toNat := by
  have hx := x.toNat_lt
  have hy := y.toNat_lt
  have hxh : (hi x).toNat < 65536 := by rw [toNat_hi]; omega
  have hxl : (lo x).toNat < 65536 := by rw [toNat_lo]; omega
  have hyh : (hi y).toNat < 65536 := by rw [toNat_hi]; omega
  have hyl : (lo y).toNat < 65536 := by rw [toNat_lo]; omega
  obtain ⟨e1, b1⟩ := toNat_mul_half hxh hyl
  obtain ⟨e2, b2⟩ := toNat_mul_half hyh hxl
  obtain ⟨e3, b3⟩ := toNat_mul_half hyl hxl
  obtain ⟨e4, b4⟩ := toNat_mul_half hxh hyh
  have hprod : x.toNat * y.toNat = (hi x).toNat * (hi y).toNat * 4294967296 +
      ((hi x).toNat * (lo y).toNat + (hi y).toNat * (lo x).toNat) * 65536 +
      (lo y).toNat * (lo x).toNat := by
    have h1 : x.toNat = (hi x).toNat * 65536 + (lo x).toNat := by
      rw [toNat_hi, toNat_lo, Nat.div_add_mod']
    have h2 : y.toNat = (hi y).toNat * 65536 + (lo y).toNat := by
      rw [toNat_hi, toNat_lo, Nat.div_add_mod']
    rw [h1, h2]
    generalize (hi x).toNat = u
    generalize (hi y).toNat = v
    ring
  rw [hprod]
  simp only [mpdigmul, radix, UInt32.toNat_add, toNat_ofBool, decide_eq_true_eq,
    UInt32.lt_iff_toNat_lt, toNat_shiftLeft_16, toNat_hi (hi x * lo y), toNat_hi (hi y * lo x),
    e1, e2, e3, e4]
  generalize (hi x).toNat * (lo y).toNat = p1 at b1 ⊢
  generalize (hi y).toNat * (lo x).toNat = p2 at b2 ⊢
  generalize (lo y).toNat * (lo x).toNat = p3 at b3 ⊢
  generalize (hi x).toNat * (hi y).toNat = p4 at b4 ⊢
  clear e1 e2 e3 e4 hprod
  split <;> split <;> omega

/-- The body of the loop of `mpvecdigmuladd`: the digit, and what is carried, the carry and
the high digit of the last product. -/
def mulAddDigit (b q y carry part1 : UInt32) : UInt32 × UInt32 × UInt32 :=
  let x := part1 + carry
  let part := mpdigmul b q
  let x' := x + part.1
  (x' + y, ofBool (x < carry) + ofBool (x' < part.1) + ofBool (x' + y < y), part.2)

/-- The loop of `mpvecdigmuladd`, and the digit behind it. -/
def mulAddLoop (m : Digits) (b : ℕ) (q : UInt32) (p : ℕ) (carry part1 : UInt32) : ℕ → Digits
  | 0 => m.set p (part1 + carry)
  | n + 1 =>
    let d := mulAddDigit (m b) q (m p) carry part1
    mulAddLoop (m.set p d.1) (b + 1) q (p + 1) d.2.1 d.2.2 n

/-- `mpvecdigmuladd`. -/
def mpvecdigmuladd (m : Digits) (b n : ℕ) (q : UInt32) (p : ℕ) : Digits :=
  mulAddLoop m b q p 0 0 n

theorem mul_digit_le (x y : UInt32) : x.toNat * y.toNat ≤ 4294967295 * 4294967295 :=
  Nat.mul_le_mul (Nat.le_of_lt_succ x.toNat_lt) (Nat.le_of_lt_succ y.toNat_lt)

theorem mulAddDigit_spec (b q y : UInt32) {carry part1 : UInt32}
    (h : carry.toNat + part1.toNat < radix) :
    (mulAddDigit b q y carry part1).1.toNat + radix *
        ((mulAddDigit b q y carry part1).2.1.toNat + (mulAddDigit b q y carry part1).2.2.toNat) =
      carry.toNat + part1.toNat + b.toNat * q.toNat + y.toNat ∧
    (mulAddDigit b q y carry part1).2.1.toNat + (mulAddDigit b q y carry part1).2.2.toNat <
      radix := by
  have h1 := mpdigmul_spec b q
  have h2 := mul_digit_le b q
  have hb := (mpdigmul b q).1.toNat_lt
  have hy := y.toNat_lt
  simp only [mulAddDigit, radix, UInt32.toNat_add, toNat_ofBool, decide_eq_true_eq,
    UInt32.lt_iff_toNat_lt] at h h1 ⊢
  generalize (mpdigmul b q).1.toNat = u at h1 hb ⊢
  generalize (mpdigmul b q).2.toNat = v at h1 ⊢
  generalize b.toNat * q.toNat = w at h1 h2 ⊢
  split <;> split <;> split <;> omega

/-- The multiplication loop writes behind the digits that it has read. -/
theorem mulAddLoop_spec {q part1 : UInt32} (hb : Clear p b n)
    (h : carry.toNat + part1.toNat < radix) :
    (mulAddLoop m b q p carry part1 n).val p (n + 1) =
        m.val p n + m.val b n * q.toNat + (carry.toNat + part1.toNat) ∧
      Digits.Same m (mulAddLoop m b q p carry part1 n) p (n + 1) := by
  induction n generalizing m b p carry part1 with
  | zero =>
    refine ⟨?_, Digits.Same.set _ _ _⟩
    rw [mulAddLoop, Digits.val_one, Digits.set_self, UInt32.toNat_add, Digits.val_zero,
      Digits.val_zero, Nat.mod_eq_of_lt (by simp only [radix] at h; omega)]
    omega
  | succ n ih =>
    obtain ⟨h1, h2⟩ := mulAddDigit_spec (m b) q (m p) h
    rw [mulAddLoop]
    generalize mulAddDigit (m b) q (m p) carry part1 = d at h1 h2 ⊢
    obtain ⟨h3, h4⟩ := ih (m := m.set p d.1) hb.tail h2
    have h5 : (m.set p d.1).val (p + 1) n = m.val (p + 1) n :=
      (Digits.Same.set m p d.1).val_eq (Or.inr le_rfl)
    rw [hb.val_set, h5] at h3
    obtain ⟨h6, h7⟩ := h4.cons
    refine ⟨?_, h7⟩
    rw [h6, h3, Digits.val_succ m p n, Digits.val_succ m b n, Nat.add_mul, Nat.mul_assoc radix,
      Nat.mul_add, Nat.mul_add]
    omega

/-- **A multiple is added**; the digit behind the vector is overwritten. -/
theorem mpvecdigmuladd_spec {q : UInt32} (hb : Clear p b n) :
    (mpvecdigmuladd m b n q p).val p (n + 1) = m.val p n + m.val b n * q.toNat ∧
      Digits.Same m (mpvecdigmuladd m b n q p) p (n + 1) :=
  mulAddLoop_spec hb (by decide)

/-- The body of the loop of `mpvecdigmulsub`. -/
def mulSubDigit (b q x borrow part1 : UInt32) : UInt32 × UInt32 × UInt32 :=
  let y := x - borrow
  let part := mpdigmul b q
  let z := part1 + part.1
  (y - z, ofBool (x < y) + ofBool (z < part.1) + ofBool (y < y - z), part.2)

/-- The loop of `mpvecdigmulsub`, and the digit behind it; the sign of the result. -/
def mulSubLoop (m : Digits) (b : ℕ) (q : UInt32) (p : ℕ) (borrow part1 : UInt32) :
    ℕ → Digits × ℤ
  | 0 => (m.set p (m p - borrow - part1), if m p < m p - borrow - part1 then -1 else 1)
  | n + 1 =>
    let d := mulSubDigit (m b) q (m p) borrow part1
    mulSubLoop (m.set p d.1) (b + 1) q (p + 1) d.2.1 d.2.2 n

/-- `mpvecdigmulsub`. -/
def mpvecdigmulsub (m : Digits) (b n : ℕ) (q : UInt32) (p : ℕ) : Digits × ℤ :=
  mulSubLoop m b q p 0 0 n

theorem mulSubDigit_spec (b q x : UInt32) {borrow part1 : UInt32}
    (h : borrow.toNat + part1.toNat < radix) :
    (mulSubDigit b q x borrow part1).1.toNat + (borrow.toNat + part1.toNat) + b.toNat * q.toNat =
      x.toNat + radix *
        ((mulSubDigit b q x borrow part1).2.1.toNat + (mulSubDigit b q x borrow part1).2.2.toNat) ∧
    (mulSubDigit b q x borrow part1).2.1.toNat + (mulSubDigit b q x borrow part1).2.2.toNat <
      radix := by
  have h1 := mpdigmul_spec b q
  have h2 := mul_digit_le b q
  have hb := (mpdigmul b q).1.toNat_lt
  have hx := x.toNat_lt
  simp only [mulSubDigit, radix, UInt32.toNat_add, UInt32.toNat_sub, toNat_ofBool,
    decide_eq_true_eq, UInt32.lt_iff_toNat_lt] at h h1 ⊢
  generalize (mpdigmul b q).1.toNat = u at h1 hb ⊢
  generalize (mpdigmul b q).2.toNat = v at h1 ⊢
  generalize b.toNat * q.toNat = w at h1 h2 ⊢
  split <;> split <;> split <;> omega

theorem mulSubLoop_spec {q part1 : UInt32} (hb : Clear p b n)
    (h : carry.toNat + part1.toNat < radix) :
    ∃ bor : ℕ, (mulSubLoop m b q p carry part1 n).1.val p (n + 1) + m.val b n * q.toNat +
        (carry.toNat + part1.toNat) = m.val p (n + 1) + radix ^ (n + 1) * bor ∧
      (bor = 0 ∧ (mulSubLoop m b q p carry part1 n).2 = 1 ∨
        bor = 1 ∧ (mulSubLoop m b q p carry part1 n).2 = -1) ∧
      Digits.Same m (mulSubLoop m b q p carry part1 n).1 p (n + 1) := by
  induction n generalizing m b p carry part1 with
  | zero =>
    have hx := (m p).toNat_lt
    have h1 : (m p - carry - part1).toNat + (carry.toNat + part1.toNat) =
        (m p).toNat + radix * if m p < m p - carry - part1 then 1 else 0 := by
      simp only [radix, UInt32.toNat_sub, UInt32.lt_iff_toNat_lt] at h ⊢
      split <;> omega
    rw [mulSubLoop]
    by_cases hlt : m p < m p - carry - part1
    · rw [if_pos hlt] at h1
      refine ⟨1, ?_, Or.inr ⟨rfl, if_pos hlt⟩, Digits.Same.set _ _ _⟩
      dsimp only
      rw [Digits.val_one, Digits.set_self, Digits.val_zero, Digits.val_one, Nat.zero_mul,
        Nat.add_zero, h1, pow_succ, pow_zero, Nat.one_mul]
    · rw [if_neg hlt] at h1
      refine ⟨0, ?_, Or.inl ⟨rfl, if_neg hlt⟩, Digits.Same.set _ _ _⟩
      dsimp only
      rw [Digits.val_one, Digits.set_self, Digits.val_zero, Digits.val_one, Nat.zero_mul,
        Nat.add_zero, h1, Nat.mul_zero, Nat.mul_zero]
  | succ n ih =>
    obtain ⟨h1, h2⟩ := mulSubDigit_spec (m b) q (m p) h
    rw [mulSubLoop]
    generalize mulSubDigit (m b) q (m p) carry part1 = d at h1 h2 ⊢
    obtain ⟨bor, h3, hs, h4⟩ := ih (m := m.set p d.1) hb.tail h2
    have h5 : (m.set p d.1).val (p + 1) (n + 1) = m.val (p + 1) (n + 1) :=
      (Digits.Same.set m p d.1).val_eq (Or.inr le_rfl)
    rw [hb.val_set, h5] at h3
    obtain ⟨h6, h7⟩ := h4.cons
    refine ⟨bor, ?_, hs, h7⟩
    rw [h6, Digits.val_succ m p (n + 1), Digits.val_succ m b n, pow_succ_mul (n + 1), Nat.add_mul,
      Nat.mul_assoc radix]
    have h8 := congrArg (radix * ·) h3
    simp only [Nat.mul_add] at h8 h1
    omega

/-- **A multiple is taken off**; the sign tells whether it was too large. -/
theorem mpvecdigmulsub_spec {q : UInt32} (hb : Clear p b n) :
    ∃ bor : ℕ, (mpvecdigmulsub m b n q p).1.val p (n + 1) + m.val b n * q.toNat =
        m.val p (n + 1) + radix ^ (n + 1) * bor ∧
      (bor = 0 ∧ (mpvecdigmulsub m b n q p).2 = 1 ∨ bor = 1 ∧ (mpvecdigmulsub m b n q p).2 = -1) ∧
      Digits.Same m (mpvecdigmulsub m b n q p).1 p (n + 1) :=
  mulSubLoop_spec (m := m) (q := q) hb
    (by decide : (0 : UInt32).toNat + (0 : UInt32).toNat < radix)

/-! ### Division of two digits by one -/

/-- The loop of `mpdigdiv` over the bits below `k`; `x` is the divisor, shifted down. -/
def digdivLoop (divisor : UInt32) (x hi lo q : UInt32) : ℕ → UInt32 × UInt32
  | 0 => (q, lo)
  | k + 1 =>
    if hi = 0 then (q, lo)
    else
      let x := x >>> 1
      let y := divisor <<< UInt32.ofNat k
      if hi < x then digdivLoop divisor x hi lo q k
      else if x = hi ∧ lo < y then digdivLoop divisor x hi lo q k
      else digdivLoop divisor x ((if lo < y then hi - 1 else hi) - x) (lo - y)
        (q ||| (1 <<< UInt32.ofNat k)) k

/-- `mpdigdiv`: the quotient of the number `hi`, `lo`, or the greatest digit. -/
def mpdigdiv (hi lo divisor : UInt32) : UInt32 :=
  if divisor ≤ hi ∨ divisor = 0 then ~~~0
  else
    let r := digdivLoop divisor divisor hi lo 0 32
    r.1 + r.2 / divisor

/-- The divisor shifted up by `k` bits, as two digits. -/
theorem shift_split {k d : ℕ} (hk : k ≤ 32) :
    d / 2 ^ (32 - k) * radix + d * 2 ^ k % radix = d * 2 ^ k := by
  have h1 : radix = 2 ^ (32 - k) * 2 ^ k := by
    rw [← pow_add, Nat.sub_add_cancel hk]
    rfl
  rw [h1, Nat.mul_mod_mul_right, ← Nat.mul_assoc, ← Nat.add_mul, Nat.div_add_mod']

/-- The subtraction of two digits from two. -/
theorem take_off {x hi : UInt32} (lo y : UInt32) (hle : x.toNat ≤ hi.toNat)
    (hne : x.toNat = hi.toNat → y.toNat ≤ lo.toNat) :
    ((if lo < y then hi - 1 else hi) - x).toNat * radix + (lo - y).toNat +
      (x.toNat * radix + y.toNat) = hi.toNat * radix + lo.toNat := by
  have hhi := hi.toNat_lt
  have hlo := lo.toNat_lt
  have hy := y.toNat_lt
  have hone : (1 : UInt32).toNat = 1 := rfl
  by_cases h : lo < y
  · rw [if_pos h]
    rw [UInt32.lt_iff_toNat_lt] at h
    simp only [radix, UInt32.toNat_sub, hone]
    omega
  · rw [if_neg h]
    rw [UInt32.lt_iff_toNat_lt] at h
    simp only [radix, UInt32.toNat_sub]
    omega

/-- **The loop divides.** Where it stops, less than `2 ^ k` is left of the quotient. -/
theorem digdivLoop_spec {divisor hi lo q : UInt32} {k N : ℕ} (hk : k ≤ 32)
    (hx : x.toNat = divisor.toNat / 2 ^ (32 - k))
    (hq : 2 ^ k ∣ q.toNat) (hlt : hi.toNat * radix + lo.toNat < divisor.toNat * 2 ^ k)
    (hN : q.toNat * divisor.toNat + (hi.toNat * radix + lo.toNat) = N) :
    (digdivLoop divisor x hi lo q k).1.toNat +
        (digdivLoop divisor x hi lo q k).2.toNat / divisor.toNat = N / divisor.toNat := by
  have hd : 0 < divisor.toNat := by
    rcases Nat.eq_zero_or_pos divisor.toNat with h | h
    · rw [h] at hlt
      omega
    · exact h
  have hfin : ∀ lo' q' : UInt32, q'.toNat * divisor.toNat + lo'.toNat = N →
      q'.toNat + lo'.toNat / divisor.toNat = N / divisor.toNat := fun lo' q' h => by
    rw [← h, Nat.add_comm (q'.toNat * _), Nat.add_mul_div_right _ _ hd, Nat.add_comm]
  induction k generalizing x hi lo q with
  | zero =>
    rw [digdivLoop]
    refine hfin lo q ?_
    have hd' := divisor.toNat_lt
    have h0 : hi.toNat = 0 := by
      by_contra h0
      have h1 : 1 * radix ≤ hi.toNat * radix := Nat.mul_le_mul_right _ (Nat.pos_of_ne_zero h0)
      simp only [radix] at h1 hlt
      omega
    rw [← hN, h0]
    omega
  | succ k ih =>
    rw [digdivLoop]
    by_cases h0 : hi = 0
    · rw [if_pos h0]
      refine hfin lo q ?_
      rw [← hN, h0, UInt32.toNat_zero]
      omega
    rw [if_neg h0]
    have hx' : (x >>> 1).toNat = divisor.toNat / 2 ^ (32 - k) := by
      rw [UInt32.toNat_shiftRight, hx]
      show (divisor.toNat / 2 ^ (32 - (k + 1))) >>> 1 = _
      rw [Nat.shiftRight_eq_div_pow, Nat.div_div_eq_div_mul, ← pow_succ]
      congr 2
      omega
    have hy : (divisor <<< UInt32.ofNat k).toNat = divisor.toNat * 2 ^ k % radix := by
      rw [UInt32.toNat_shiftLeft, UInt32.toNat_ofNat_of_lt' (by simp [UInt32.size]; omega),
        Nat.mod_eq_of_lt (by omega : k < 32), Nat.shiftLeft_eq]
    have hone : ((1 : UInt32) <<< UInt32.ofNat k).toNat = 2 ^ k := by
      rw [UInt32.toNat_shiftLeft, UInt32.toNat_ofNat_of_lt' (by simp [UInt32.size]; omega),
        Nat.mod_eq_of_lt (by omega : k < 32), Nat.shiftLeft_eq]
      show 1 * 2 ^ k % 2 ^ 32 = 2 ^ k
      rw [Nat.one_mul, Nat.mod_eq_of_lt (Nat.pow_lt_pow_right (by decide) (by omega))]
    have hsplit := shift_split (d := divisor.toNat) (by omega : k ≤ 32)
    rw [← hx', ← hy] at hsplit
    have hpow : divisor.toNat * 2 ^ (k + 1) = divisor.toNat * 2 ^ k + divisor.toNat * 2 ^ k := by
      ring
    have hlo := lo.toNat_lt
    have hyl := (divisor <<< UInt32.ofNat k).toNat_lt
    have hq' : 2 ^ k ∣ q.toNat := Dvd.dvd.trans (pow_dvd_pow 2 (Nat.le_succ k)) hq
    generalize divisor <<< UInt32.ofNat k = y at hy hsplit hyl ⊢
    generalize x >>> 1 = x' at hx' hsplit ⊢
    by_cases h1 : hi < x'
    · -- the shifted divisor is greater
      rw [if_pos h1]
      rw [UInt32.lt_iff_toNat_lt] at h1
      refine ih (by omega) hx' hq' ?_ hN
      simp only [radix] at hsplit ⊢
      omega
    rw [if_neg h1]
    by_cases h2 : x' = hi ∧ lo < y
    · rw [if_pos h2]
      rw [UInt32.lt_iff_toNat_lt] at h2
      refine ih (by omega) hx' hq' ?_ hN
      have h3 : x'.toNat = hi.toNat := by rw [h2.1]
      simp only [radix] at hsplit ⊢
      omega
    rw [if_neg h2]
    -- the shifted divisor is taken off
    have h3 : x'.toNat ≤ hi.toNat := by
      rw [UInt32.lt_iff_toNat_lt] at h1
      omega
    have h4 := take_off lo y h3 fun h6 => by
      rw [UInt32.lt_iff_toNat_lt] at h2
      exact Nat.le_of_not_lt fun h7 => h2 ⟨UInt32.toNat_inj.1 h6, h7⟩
    rw [hsplit] at h4
    have h5 : (q ||| 1 <<< UInt32.ofNat k).toNat = q.toNat + 2 ^ k := by
      obtain ⟨u, hu⟩ := hq
      rw [UInt32.toNat_or, hone, hu,
        Nat.two_pow_add_eq_or_of_lt (Nat.pow_lt_pow_right (by decide) (Nat.lt_succ_self k))]
    generalize (if lo < y then hi - 1 else hi) - x' = hi' at h4 ⊢
    generalize lo - y = lo' at h4 ⊢
    refine ih (by omega) hx' (by rw [h5]; exact Nat.dvd_add hq' (Nat.dvd_refl _)) ?_ ?_
    · rw [hpow, ← h4] at hlt
      exact Nat.lt_of_add_lt_add_right hlt
    · rw [h5, Nat.add_mul, Nat.mul_comm (2 ^ k), Nat.add_assoc, Nat.add_comm (_ * 2 ^ k), h4, hN]

/-- **Division of two digits by one.** -/
theorem mpdigdiv_spec (hi lo divisor : UInt32) :
    (divisor.toNat ≤ hi.toNat → (mpdigdiv hi lo divisor).toNat = radix - 1) ∧
      (hi.toNat < divisor.toNat → (mpdigdiv hi lo divisor).toNat =
        (hi.toNat * radix + lo.toNat) / divisor.toNat) := by
  have hlo := lo.toNat_lt
  refine ⟨fun h => ?_, fun h => ?_⟩
  · rw [mpdigdiv, if_pos (Or.inl (UInt32.le_iff_toNat_le.2 h))]
    rfl
  · have hle : ¬divisor ≤ hi := fun h' => by
      rw [UInt32.le_iff_toNat_le] at h'
      omega
    have hz : divisor ≠ 0 := fun h0 => by
      rw [h0, UInt32.toNat_zero] at h
      omega
    have hd : 0 < divisor.toNat := Nat.zero_lt_of_lt h
    have hN : hi.toNat * radix + lo.toNat < divisor.toNat * radix := by
      simp only [radix]
      omega
    have hspec := digdivLoop_spec (x := divisor) (q := 0) (k := 32) le_rfl
      (by rw [Nat.sub_self, pow_zero, Nat.div_one])
      (Nat.dvd_zero _) hN (by rw [UInt32.toNat_zero, Nat.zero_mul, Nat.zero_add])
    have hlt : (hi.toNat * radix + lo.toNat) / divisor.toNat < radix := Nat.div_lt_of_lt_mul hN
    rw [mpdigdiv, if_neg (not_or.2 ⟨hle, hz⟩), UInt32.toNat_add, UInt32.toNat_div, hspec]
    exact Nat.mod_eq_of_lt hlt

end Mp

end Plan9
