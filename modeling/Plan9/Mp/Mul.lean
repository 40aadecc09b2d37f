import Mathlib.Tactic.Linarith
import Plan9.Mp.Vec

/-!
# Multiplication of vectors

`mpkaratsuba` and `mpvecmul` of `mpmul.c`. Memory from `brk` on is free; `mallocz` takes it
from there, and it is free again when the function returns.

`Plan9.Mp.mpvecmul_spec`: the product is exact at every depth of the recursion, and no digit
is written outside the product and the scratch space. One step of the recursion is in three
parts: the two differences, the three products, and the sum of the products at their places
(`Plan9.Mp.diffU_spec`, `Plan9.Mp.products_spec`, `Plan9.Mp.sums_spec`).
-/

namespace Plan9

namespace Mp

open Lib

/-! ### The functions -/

/-- `KARATSUBAMIN`. -/
def karatsubaMin : ℕ := 32

/-- The sizes that `mpkaratsuba` works with, and where its arguments and its scratch space lie:
`u1len ≤ n` high digits of the first factor, and `v0len` low and `v1len` high digits of the
second one. -/
structure Halves where
  a : ℕ
  b : ℕ
  n : ℕ
  u1len : ℕ
  v0len : ℕ
  v1len : ℕ
  t : ℕ

/-- The halves of two factors. -/
def halves (a alen b blen t : ℕ) : Halves :=
  let n := alen / 2 + alen % 2
  ⟨a, b, n, alen - n, if n < blen then n else blen, if n < blen then blen - n else 0, t⟩

namespace Halves

/-- Where `u1v1` is. -/
def u1v1 (h : Halves) : ℕ := h.t + (2 * h.n + 1)

/-- Where `diffprod` is. -/
def diffprod (h : Halves) : ℕ := h.t + 2 * (2 * h.n + 1)

/-- Where `res` is. -/
def res (h : Halves) : ℕ := h.t + 3 * (2 * h.n + 1)

/-- How many digits `mallocz` gives. -/
def room (h : Halves) : ℕ := 5 * (2 * h.n + 1)

end Halves

/-- `mpkaratsuba`: `u1-u0`, and whether it is negative. -/
def diffU (m : Digits) (h : Halves) : Digits × Bool :=
  if mpveccmp m (h.a + h.n) h.u1len h.a h.n < 0 then
    (mpvecsub m h.a h.n (h.a + h.n) h.u1len h.t, true)
  else (mpvecsub m (h.a + h.n) h.u1len h.a h.u1len h.t, false)

/-- `mpkaratsuba`: `v0-v1`, and whether it is negative. -/
def diffV (m : Digits) (h : Halves) : Digits × Bool :=
  if mpveccmp m h.b h.v0len (h.b + h.v0len) h.v1len < 0 then
    (mpvecsub m (h.b + h.v0len) h.v1len h.b h.v1len h.u1v1, true)
  else (mpvecsub m h.b h.v0len (h.b + h.v0len) h.v1len h.u1v1, false)

/-- A multiplication: memory, the free memory, two factors with their lengths, the product. -/
abbrev Vecmul := Digits → ℕ → ℕ → ℕ → ℕ → ℕ → ℕ → Digits

/-- `mpkaratsuba`: the three products. -/
def products (vecmul : Vecmul) (m : Digits) (h : Halves) : Digits :=
  let brk := h.t + h.room
  let m := vecmul m brk h.t h.n h.u1v1 h.v0len h.diffprod
  let m := m.zero h.t (2 * (2 * h.n + 1))
  let m := if 0 < h.v1len then
    vecmul m brk (h.a + h.n) h.u1len (h.b + h.v0len) h.v1len h.u1v1 else m
  vecmul m brk h.a h.n h.b h.v0len h.t

/-- Add a product into `res` at a digit. -/
def addAt (m : Digits) (h : Halves) (k p n : ℕ) : Digits :=
  mpvecadd m (h.res + k) (4 * h.n + 1 - k) p n (h.res + k)

/-- `mpkaratsuba`: the sum of the products in `res`. -/
def sums (m : Digits) (h : Halves) (neg : Bool) : Digits :=
  let m := addAt m h 0 h.t (h.n + h.v0len)
  let m := addAt m h h.n h.t (h.n + h.v0len)
  let m := if 0 < h.v1len then
    addAt (addAt m h h.n h.u1v1 (h.u1len + h.v1len)) h (2 * h.n) h.u1v1 (h.u1len + h.v1len) else m
  if neg then
    mpvecsub m (h.res + h.n) (4 * h.n + 1 - h.n) h.diffprod (h.n + h.v0len) (h.res + h.n)
  else addAt m h h.n h.diffprod (h.n + h.v0len)

/-- `mpkaratsuba`. -/
def mpkaratsuba (vecmul : Vecmul) : Vecmul := fun m brk a alen b blen p =>
  let h := halves a alen b blen brk
  let d := diffU (m.zero h.t h.room) h
  let d' := diffV d.1 h
  let m := sums (products vecmul d'.1 h) h (d.2 != d'.2)
  m.copy p h.res (alen + blen)

/-- The loop of `mpvecmul` for short vectors. -/
def schoolLoop (m : Digits) (a alen b p : ℕ) : ℕ → Digits
  | 0 => m
  | k + 1 =>
    schoolLoop (if m b ≠ 0 then mpvecdigmuladd m a alen (m b) p else m) a alen (b + 1) (p + 1) k

/-- `mpvecmul` behind the exchange of the factors. -/
def vecmulStep (vecmul : Vecmul) : Vecmul := fun m brk a alen b blen p =>
  if blen = 0 then m.zero p (alen + blen)
  else if karatsubaMin ≤ alen ∧ 1 < blen then mpkaratsuba vecmul m brk a alen b blen p
  else schoolLoop m a alen b p blen

/-- `mpvecmul`, at most so many levels deep. -/
def vecmulDeep : ℕ → Digits → ℕ → ℕ → ℕ → ℕ → ℕ → ℕ → Digits
  | 0, m, _, _, _, _, _, _ => m
  | fuel + 1, m, brk, a, alen, b, blen, p =>
    if alen < blen then vecmulStep (vecmulDeep fuel) m brk b blen a alen p
    else vecmulStep (vecmulDeep fuel) m brk a alen b blen p

/-- `mpvecmul`. Every level works on shorter vectors. -/
def mpvecmul : Vecmul := fun m brk a alen b blen p =>
  vecmulDeep (max alen blen + 1) m brk a alen b blen p

/-! ### Short vectors -/

variable {m m' : Digits} {a b p t brk alen blen n k : ℕ}

/-- Two rows of digits lie apart. -/
def Disjoint (p n q k : ℕ) : Prop := p + n ≤ q ∨ q + k ≤ p

theorem schoolLoop_spec (ha : Disjoint p (alen + k) a alen) (hb : Disjoint p (alen + k) b k)
    (hz : ∀ i < k, m (p + alen + i) = 0) :
    (schoolLoop m a alen b p k).val p (alen + k) = m.val p alen + m.val a alen * m.val b k ∧
      Digits.Same m (schoolLoop m a alen b p k) p (alen + k) := by
  induction k generalizing m b p with
  | zero => exact ⟨by simp [schoolLoop], Digits.Same.refl _ _ _⟩
  | succ k ih =>
    rw [schoolLoop]
    -- one digit of the second factor, whether it is zero or not
    obtain ⟨h1, h2⟩ : (if m b ≠ 0 then mpvecdigmuladd m a alen (m b) p else m).val p (alen + 1) =
          m.val p alen + m.val a alen * (m b).toNat ∧
        Digits.Same m (if m b ≠ 0 then mpvecdigmuladd m a alen (m b) p else m) p (alen + 1) := by
      by_cases h : m b = 0
      · have hz0 := hz 0 (Nat.succ_pos k)
        rw [Nat.add_zero] at hz0
        rw [if_neg (not_not.2 h), h, Digits.val_succ_top, hz0, UInt32.toNat_zero, Nat.mul_zero,
          Nat.mul_zero]
        exact ⟨rfl, Digits.Same.refl _ _ _⟩
      · rw [if_pos h]
        exact mpvecdigmuladd_spec (by rcases ha with h | h <;> [left; right] <;> omega)
    generalize (if m b ≠ 0 then mpvecdigmuladd m a alen (m b) p else m) = m1 at h1 h2 ⊢
    have ha1 : m1.val a alen = m.val a alen := h2.val_eq (by rcases ha with h | h <;> omega)
    have hb1 : m1.val (b + 1) k = m.val (b + 1) k := h2.val_eq (by rcases hb with h | h <;> omega)
    obtain ⟨h3, h4⟩ := ih (m := m1) (p := p + 1) (b := b + 1)
      (by rcases ha with h | h <;> [left; right] <;> omega)
      (by rcases hb with h | h <;> [left; right] <;> omega)
      (fun i hi => by
        rw [h2 _ (Or.inr (by omega)), show p + 1 + alen + i = p + alen + (i + 1) by omega]
        exact hz (i + 1) (by omega))
    rw [ha1, hb1] at h3
    refine ⟨?_, (h2.mono le_rfl (by omega)).trans (h4.mono (Nat.le_succ p) (by omega))⟩
    have h5 : schoolLoop m1 a alen (b + 1) (p + 1) k p = m1 p := h4 p (Or.inl (Nat.lt_succ_self p))
    rw [← Nat.add_assoc, Digits.val_succ, h5, h3, Digits.val_succ m b k]
    rw [Digits.val_succ] at h1
    calc (m1 p).toNat + radix * (m1.val (p + 1) alen + m.val a alen * m.val (b + 1) k)
        = ((m1 p).toNat + radix * m1.val (p + 1) alen) +
            m.val a alen * (radix * m.val (b + 1) k) := by ring
      _ = _ := by rw [h1]; ring

/-! ### The differences -/

/-- The memory changes at most in a row and in the scratch space. -/
def Within (m m' : Digits) (p n brk k : ℕ) : Prop :=
  ∀ j, j < p ∨ p + n ≤ j → j < brk ∨ brk + k ≤ j → m' j = m j

/-- Where the halves lie, and how long they are. -/
structure Halves.Ok (h : Halves) : Prop where
  n_pos : 0 < h.n
  u1len_le : h.u1len ≤ h.n
  v0len_le : h.v0len ≤ h.n
  v1len_le : h.v1len ≤ h.u1len
  /-- The second factor has high digits only behind as many low ones. -/
  v0len_eq : 0 < h.v1len → h.v0len = h.n
  a_le : h.a + (h.n + h.u1len) ≤ h.t
  b_le : h.b + (h.v0len + h.v1len) ≤ h.t

variable {h : Halves} {x y : ℕ}

/-- The `n` digits from `t` on are the absolute difference of two numbers; `neg` tells whether
the first one is the smaller one. -/
def AbsDiff (m : Digits) (t n : ℕ) (u v : ℕ) (neg : Bool) : Prop :=
  neg = true ∧ m.val t n + u = v ∨ neg = false ∧ m.val t n + v = u

/-- `mpvecsub` of a number that is not greater, and not longer. -/
theorem sub_long (hk : k ≤ n) (hx : x + k ≤ t) (hy : y + n ≤ t) (hle : m.val x k ≤ m.val y n) :
    (mpvecsub m y n x k t).val t n + m.val x k = m.val y n ∧
      Digits.Same m (mpvecsub m y n x k t) t n :=
  mpvecsub_spec hk (Or.inr hy) (Or.inr hx) hle

/-- `mpvecsub` of a number that is not greater, but longer: what is longer about it is zero. -/
theorem sub_short (hk : k ≤ n) (hx : x + k ≤ t) (hy : y + n ≤ t) (hle : m.val y n ≤ m.val x k)
    (hz : ∀ i, k ≤ i → i < n → m (t + i) = 0) :
    (mpvecsub m x k y k t).val t n + m.val y n = m.val x k ∧
      Digits.Same m (mpvecsub m x k y k t) t n := by
  have hyk : m.val y n = m.val y k := Digits.val_of_lt hk (Nat.lt_of_le_of_lt hle (m.val_lt x k))
  rw [hyk] at hle ⊢
  obtain ⟨h1, h2⟩ := mpvecsub_spec (m := m) (s := t) le_rfl (Or.inr hx)
    (Or.inr (by omega : y + k ≤ t)) hle
  refine ⟨?_, h2.mono le_rfl (by omega)⟩
  rw [← h1, Digits.val_of_zeros hk fun i hi hi' => ?_]
  rw [h2 _ (Or.inr (by omega))]
  exact hz i hi hi'

theorem diffU_spec (hok : h.Ok) (hz : ∀ i < h.n, m (h.t + i) = 0) :
    AbsDiff (diffU m h).1 h.t h.n (m.val (h.a + h.n) h.u1len) (m.val h.a h.n) (diffU m h).2 ∧
      Digits.Same m (diffU m h).1 h.t h.n := by
  have hu := hok.u1len_le
  have ha := hok.a_le
  rw [diffU]
  by_cases hlt : mpveccmp m (h.a + h.n) h.u1len h.a h.n < 0
  · have hle : m.val (h.a + h.n) h.u1len ≤ m.val h.a h.n := by
      rcases mpveccmp_spec m (h.a + h.n) h.u1len h.a h.n with ⟨h1, h2⟩ | ⟨h1, h2⟩ | ⟨h1, h2⟩ <;>
        omega
    obtain ⟨h1, h2⟩ := sub_long (t := h.t) hu (by omega) (by omega) hle
    rw [if_pos hlt]
    exact ⟨Or.inl ⟨rfl, h1⟩, h2⟩
  · have hle : m.val h.a h.n ≤ m.val (h.a + h.n) h.u1len := by
      rcases mpveccmp_spec m (h.a + h.n) h.u1len h.a h.n with ⟨h1, h2⟩ | ⟨h1, h2⟩ | ⟨h1, h2⟩ <;>
        omega
    obtain ⟨h1, h2⟩ := sub_short (t := h.t) hu (by omega) (by omega) hle fun i _ hi => hz i hi
    rw [if_neg hlt]
    exact ⟨Or.inr ⟨rfl, h1⟩, h2⟩

theorem Halves.Ok.v1len_le_v0len (hok : h.Ok) : h.v1len ≤ h.v0len := by
  have h1 := hok.v1len_le
  have h2 := hok.u1len_le
  rcases Nat.eq_zero_or_pos h.v1len with h0 | h0
  · omega
  · rw [hok.v0len_eq h0]
    omega

theorem diffV_spec (hok : h.Ok) (hz : ∀ i < h.v0len, m (h.u1v1 + i) = 0) :
    AbsDiff (diffV m h).1 h.u1v1 h.v0len (m.val h.b h.v0len) (m.val (h.b + h.v0len) h.v1len)
        (diffV m h).2 ∧
      Digits.Same m (diffV m h).1 h.u1v1 h.v0len := by
  have hv := hok.v1len_le_v0len
  have hb := hok.b_le
  have hd : h.u1v1 = h.t + (2 * h.n + 1) := rfl
  rw [diffV]
  by_cases hlt : mpveccmp m h.b h.v0len (h.b + h.v0len) h.v1len < 0
  · have hle : m.val h.b h.v0len ≤ m.val (h.b + h.v0len) h.v1len := by
      rcases mpveccmp_spec m h.b h.v0len (h.b + h.v0len) h.v1len with
        ⟨h1, h2⟩ | ⟨h1, h2⟩ | ⟨h1, h2⟩ <;> omega
    obtain ⟨h1, h2⟩ := sub_short (t := h.u1v1) hv (by omega) (by omega) hle fun i _ hi => hz i hi
    rw [if_pos hlt]
    exact ⟨Or.inl ⟨rfl, h1⟩, h2⟩
  · have hle : m.val (h.b + h.v0len) h.v1len ≤ m.val h.b h.v0len := by
      rcases mpveccmp_spec m h.b h.v0len (h.b + h.v0len) h.v1len with
        ⟨h1, h2⟩ | ⟨h1, h2⟩ | ⟨h1, h2⟩ <;> omega
    obtain ⟨h1, h2⟩ := sub_long (t := h.u1v1) hv (by omega) (by omega) hle
    rw [if_neg hlt]
    exact ⟨Or.inr ⟨rfl, h1⟩, h2⟩

/-! ### The products -/

/-- What a multiplication does, for vectors of at most `len` digits and with `k` digits of
scratch space. -/
def Multiplies (vecmul : Vecmul) (len k : ℕ) : Prop :=
  ∀ (m : Digits) (brk a alen b blen p : ℕ), alen ≤ len → blen ≤ len → a + alen ≤ brk →
    b + blen ≤ brk → p + (alen + blen) ≤ brk → Disjoint p (alen + blen) a alen →
    Disjoint p (alen + blen) b blen → (∀ i < alen + blen, m (p + i) = 0) →
    (vecmul m brk a alen b blen p).val p (alen + blen) = m.val a alen * m.val b blen ∧
      Within m (vecmul m brk a alen b blen p) p (alen + blen) brk k

theorem Within.val_eq {q l : ℕ} (hw : Within m m' p n brk k) (hq : Disjoint q l p n)
    (hb : q + l ≤ brk) : m'.val q l = m.val q l :=
  Digits.val_frame fun j h1 h2 => hw j (by rcases hq with h | h <;> omega) (Or.inl (by omega))

/-- What the products are. -/
structure Products (m m' : Digits) (h : Halves) (k : ℕ) : Prop where
  u0v0 : m'.val h.t (h.n + h.v0len) = m.val h.a h.n * m.val h.b h.v0len
  u1v1 : m'.val h.u1v1 (h.u1len + h.v1len) =
    m.val (h.a + h.n) h.u1len * m.val (h.b + h.v0len) h.v1len
  diffprod : m'.val h.diffprod (h.n + h.v0len) = m.val h.t h.n * m.val h.u1v1 h.v0len
  res : ∀ j, h.res ≤ j → j < h.t + h.room → m' j = m j
  rest : ∀ j, j < h.t ∨ h.t + h.room + k ≤ j → m' j = m j

theorem products_spec {vecmul : Vecmul} (hok : h.Ok) (hmul : Multiplies vecmul h.n k)
    (hz : ∀ j, h.diffprod ≤ j → j < h.t + h.room → m j = 0) :
    Products m (products vecmul m h) h k := by
  have hu := hok.u1len_le
  have hv := hok.v0len_le
  have hv1 := hok.v1len_le
  have ha := hok.a_le
  have hb := hok.b_le
  have hd1 : h.u1v1 = h.t + (2 * h.n + 1) := rfl
  have hd2 : h.diffprod = h.t + 2 * (2 * h.n + 1) := rfl
  have hd3 : h.res = h.t + 3 * (2 * h.n + 1) := rfl
  have hr : h.room = 5 * (2 * h.n + 1) := rfl
  rw [products]
  -- the product of the differences
  obtain ⟨e1, w1⟩ := hmul m (h.t + h.room) h.t h.n h.u1v1 h.v0len h.diffprod le_rfl hv (by omega)
    (by omega) (by omega) (Or.inr (by omega)) (Or.inr (by omega))
    fun i hi => hz _ (by omega) (by omega)
  generalize vecmul m (h.t + h.room) h.t h.n h.u1v1 h.v0len h.diffprod = m1 at e1 w1 ⊢
  have hz2 : ∀ j, j < h.t ∨ h.t + 2 * (2 * h.n + 1) ≤ j →
      m1.zero h.t (2 * (2 * h.n + 1)) j = m1 j := fun j hj => Digits.zero_of_ne hj
  have hz2' : ∀ j, h.t ≤ j → j < h.t + 2 * (2 * h.n + 1) →
      m1.zero h.t (2 * (2 * h.n + 1)) j = 0 := fun j hj hj' => Digits.zero_apply hj hj'
  generalize m1.zero h.t (2 * (2 * h.n + 1)) = m2 at hz2 hz2' ⊢
  -- the product of the high halves, where there is one
  have hlow : ∀ q l, q + l ≤ h.t → m2.val q l = m.val q l := fun q l hq =>
    Digits.val_frame fun j _ hj' => by rw [hz2 j (Or.inl (by omega)), w1 j (by omega) (by omega)]
  obtain ⟨e3, w3⟩ : (if 0 < h.v1len then
        vecmul m2 (h.t + h.room) (h.a + h.n) h.u1len (h.b + h.v0len) h.v1len h.u1v1
          else m2).val h.u1v1 (h.u1len + h.v1len) =
          m2.val (h.a + h.n) h.u1len * m2.val (h.b + h.v0len) h.v1len ∧
      Within m2 (if 0 < h.v1len then
        vecmul m2 (h.t + h.room) (h.a + h.n) h.u1len (h.b + h.v0len) h.v1len h.u1v1
          else m2) h.u1v1 (h.u1len + h.v1len) (h.t + h.room) k := by
    by_cases hpos : 0 < h.v1len
    · rw [if_pos hpos]
      exact hmul m2 _ _ _ _ _ _ hu (by omega) (by omega) (by omega) (by omega)
        (Or.inr (by omega)) (Or.inr (by omega)) fun i hi => hz2' _ (by omega) (by omega)
    · rw [if_neg hpos, Nat.eq_zero_of_not_pos hpos, Digits.val_zero, Nat.mul_zero, Nat.add_zero]
      exact ⟨Digits.val_eq_zero fun i hi => hz2' _ (by omega) (by omega), fun _ _ _ => rfl⟩
  generalize (if 0 < h.v1len then vecmul m2 (h.t + h.room) (h.a + h.n) h.u1len (h.b + h.v0len)
    h.v1len h.u1v1 else m2) = m3 at e3 w3 ⊢
  -- the product of the low halves
  obtain ⟨e4, w4⟩ := hmul m3 (h.t + h.room) h.a h.n h.b h.v0len h.t le_rfl hv (by omega)
    (by omega) (by omega) (Or.inr (by omega)) (Or.inr (by omega)) fun i hi => by
      rw [w3 _ (Or.inl (by omega)) (Or.inl (by omega))]
      exact hz2' _ (by omega) (by omega)
  generalize vecmul m3 (h.t + h.room) h.a h.n h.b h.v0len h.t = m4 at e4 w4 ⊢
  have hlow3 : ∀ q l, q + l ≤ h.t → m3.val q l = m.val q l := fun q l hq => by
    rw [← hlow q l hq]
    exact w3.val_eq (Or.inl (by omega)) (by omega)
  refine ⟨?_, ?_, ?_, fun j hj hj' => ?_, fun j hj => ?_⟩
  · rw [e4, hlow3 _ _ (by omega), hlow3 _ _ (by omega)]
  · rw [w4.val_eq (Or.inr (by omega)) (by omega), e3, hlow _ _ (by omega), hlow _ _ (by omega)]
  · rw [w4.val_eq (Or.inr (by omega)) (by omega), w3.val_eq (Or.inr (by omega)) (by omega), ← e1]
    exact Digits.val_frame fun j hj _ => hz2 j (Or.inr (by omega))
  · rw [w4 j (by omega) (by omega), w3 j (by omega) (by omega), hz2 j (by omega),
      w1 j (by omega) (by omega)]
  · rw [w4 j (by omega) (by omega), w3 j (by omega) (by omega), hz2 j (by omega),
      w1 j (by omega) (by omega)]

/-! ### The sum -/

/-- **A product added into `res`.** The digit of the carry is written again and again; it is
zero as long as the sum is smaller. -/
theorem addAt_spec (hk : k ≤ 2 * h.n) (hn : n ≤ 2 * h.n) (hp : p + n ≤ h.res)
    (hR : m.val h.res (4 * h.n + 2) < radix ^ (4 * h.n + 1)) :
    (addAt m h k p n).val h.res (4 * h.n + 2) = m.val h.res (4 * h.n + 2) + radix ^ k * m.val p n ∧
      Digits.Same m (addAt m h k p n) h.res (4 * h.n + 2) := by
  obtain ⟨h1, h2⟩ := mpvecadd_spec (m := m) (s := h.res + k) (a := h.res + k) (b := p)
    (by omega : n ≤ 4 * h.n + 1 - k) (Or.inl le_rfl) (Or.inr (by omega))
  refine ⟨?_, h2.mono (Nat.le_add_right _ _) (by omega)⟩
  have h3 : (addAt m h k p n).val h.res k = m.val h.res k := h2.val_eq (Or.inl le_rfl)
  have h4 : 4 * h.n + 1 - k + 1 = 4 * h.n + 2 - k := by omega
  rw [h4] at h1
  rw [Digits.val_of_lt (by omega) hR]
  have h5 := Digits.val_add (addAt m h k p n) h.res k (4 * h.n + 2 - k)
  have h6 := Digits.val_add m h.res k (4 * h.n + 1 - k)
  rw [show k + (4 * h.n + 2 - k) = 4 * h.n + 2 by omega] at h5
  rw [show k + (4 * h.n + 1 - k) = 4 * h.n + 1 by omega] at h6
  rw [h5, h6, h3, addAt, h1]
  ring

/-- A product taken off `res`. -/
theorem subAt_spec (hn : n ≤ 2 * h.n) (hp : p + n ≤ h.res)
    (hR : m.val h.res (4 * h.n + 2) < radix ^ (4 * h.n + 1))
    (hle : radix ^ h.n * m.val p n ≤ m.val h.res (4 * h.n + 2)) :
    (mpvecsub m (h.res + h.n) (4 * h.n + 1 - h.n) p n (h.res + h.n)).val h.res (4 * h.n + 2) +
        radix ^ h.n * m.val p n = m.val h.res (4 * h.n + 2) ∧
      Digits.Same m (mpvecsub m (h.res + h.n) (4 * h.n + 1 - h.n) p n (h.res + h.n)) h.res
        (4 * h.n + 2) := by
  have h3 := Digits.val_add m h.res h.n (3 * h.n + 1)
  rw [show h.n + (3 * h.n + 1) = 4 * h.n + 1 by omega] at h3
  have h4 : m.val h.res (4 * h.n + 2) = m.val h.res (4 * h.n + 1) := Digits.val_of_lt (by omega) hR
  have htop : m (h.res + (4 * h.n + 1)) = 0 := by
    rw [Digits.val_succ_top] at h4
    rcases Nat.mul_eq_zero.1 (Nat.add_eq_left.1 h4) with h5 | h5
    · exact absurd h5 (Nat.pos_iff_ne_zero.1 (Nat.pow_pos (by decide)))
    · exact UInt32.toNat_inj.1 h5
  have hle' : m.val p n ≤ m.val (h.res + h.n) (3 * h.n + 1) := by
    by_contra hlt
    have h5 : radix ^ h.n * (m.val (h.res + h.n) (3 * h.n + 1) + 1) ≤ radix ^ h.n * m.val p n :=
      Nat.mul_le_mul_left _ (Nat.lt_of_not_le hlt)
    have h6 := m.val_lt h.res h.n
    rw [Nat.mul_add, Nat.mul_one] at h5
    rw [h4, h3] at hle
    generalize radix ^ h.n = P at h5 h6 hle
    omega
  rw [show 4 * h.n + 1 - h.n = 3 * h.n + 1 by omega]
  obtain ⟨h1, h2⟩ := mpvecsub_spec (m := m) (s := h.res + h.n) (a := h.res + h.n) (b := p)
    (by omega : n ≤ 3 * h.n + 1) (Or.inl le_rfl) (Or.inr (by omega)) hle'
  generalize mpvecsub m (h.res + h.n) (3 * h.n + 1) p n (h.res + h.n) = m' at h1 h2 ⊢
  refine ⟨?_, h2.mono (Nat.le_add_right _ _) (by omega)⟩
  have h5 : m'.val h.res h.n = m.val h.res h.n := h2.val_eq (Or.inl le_rfl)
  have h6 := Digits.val_add m' h.res h.n (3 * h.n + 1)
  rw [show h.n + (3 * h.n + 1) = 4 * h.n + 1 by omega] at h6
  have h7 : m'.val h.res (4 * h.n + 2) = m'.val h.res (4 * h.n + 1) := by
    rw [Digits.val_succ_top, h2 _ (Or.inr (by omega)), htop, UInt32.toNat_zero, Nat.mul_zero,
      Nat.add_zero]
  rw [h7, h6, h5, h4, h3, ← h1]
  ring

/-- The sum of the products fits. -/
theorem sums_lt {P x0 x1 d : ℕ} (hP : 0 < P) (h0 : x0 < P ^ 2) (h1 : x1 < P ^ 2) (hd : d < P ^ 2) :
    x0 + P * x0 + P * x1 + P ^ 2 * x1 + P * d < radix * P ^ 4 := by
  have h2 : P ^ 2 ≤ P ^ 4 := Nat.pow_le_pow_right hP (by decide)
  have h3 : P * P ^ 2 ≤ P ^ 4 := by
    rw [← pow_succ']
    exact Nat.pow_le_pow_right hP (by decide)
  have h4 : P * x0 ≤ P * P ^ 2 := Nat.mul_le_mul_left _ (Nat.le_of_lt h0)
  have h5 : P * x1 ≤ P * P ^ 2 := Nat.mul_le_mul_left _ (Nat.le_of_lt h1)
  have h6 : P * d ≤ P * P ^ 2 := Nat.mul_le_mul_left _ (Nat.le_of_lt hd)
  have h7 : P ^ 2 * x1 ≤ P ^ 4 := by
    rw [show P ^ 4 = P ^ 2 * P ^ 2 by ring]
    exact Nat.mul_le_mul_left _ (Nat.le_of_lt h1)
  have h8 : 0 < P ^ 4 := Nat.pow_pos hP
  simp only [radix]
  omega

/-- **The sum** of the products at their places. -/
theorem sums_spec (hok : h.Ok) {g : Bool} (hz : ∀ j, h.res ≤ j → j < h.t + h.room → m j = 0)
    (hneg : g = true → radix ^ h.n * m.val h.diffprod (h.n + h.v0len) ≤
      m.val h.t (h.n + h.v0len) + radix ^ h.n * m.val h.t (h.n + h.v0len) +
        radix ^ h.n * m.val h.u1v1 (h.u1len + h.v1len) +
        (radix ^ h.n) ^ 2 * m.val h.u1v1 (h.u1len + h.v1len))
    (hx1 : h.v1len = 0 → m.val h.u1v1 (h.u1len + h.v1len) = 0) :
    ((sums m h g).val h.res (4 * h.n + 2) +
        (if g then radix ^ h.n * m.val h.diffprod (h.n + h.v0len) else 0) =
      m.val h.t (h.n + h.v0len) + radix ^ h.n * m.val h.t (h.n + h.v0len) +
        radix ^ h.n * m.val h.u1v1 (h.u1len + h.v1len) +
        (radix ^ h.n) ^ 2 * m.val h.u1v1 (h.u1len + h.v1len) +
        (if g then 0 else radix ^ h.n * m.val h.diffprod (h.n + h.v0len))) ∧
      Digits.Same m (sums m h g) h.res (4 * h.n + 2) := by
  have hu := hok.u1len_le
  have hv := hok.v0len_le
  have hv1 := hok.v1len_le
  have hd1 : h.u1v1 = h.t + (2 * h.n + 1) := rfl
  have hd2 : h.diffprod = h.t + 2 * (2 * h.n + 1) := rfl
  have hd3 : h.res = h.t + 3 * (2 * h.n + 1) := rfl
  have hr : h.room = 5 * (2 * h.n + 1) := rfl
  have hsq : radix ^ (h.n + h.n) = (radix ^ h.n) ^ 2 := by ring
  have hb0 : m.val h.t (h.n + h.v0len) < (radix ^ h.n) ^ 2 := by
    rw [← hsq]
    exact Nat.lt_of_lt_of_le (m.val_lt _ _) (Nat.pow_le_pow_right (by decide) (by omega))
  have hb1 : m.val h.u1v1 (h.u1len + h.v1len) < (radix ^ h.n) ^ 2 := by
    rw [← hsq]
    exact Nat.lt_of_lt_of_le (m.val_lt _ _) (Nat.pow_le_pow_right (by decide) (by omega))
  have hbd : m.val h.diffprod (h.n + h.v0len) < (radix ^ h.n) ^ 2 := by
    rw [← hsq]
    exact Nat.lt_of_lt_of_le (m.val_lt _ _) (Nat.pow_le_pow_right (by decide) (by omega))
  have hfit := sums_lt (Nat.pow_pos (by decide) : 0 < radix ^ h.n) hb0 hb1 hbd
  rw [show radix * (radix ^ h.n) ^ 4 = radix ^ (4 * h.n + 1) by ring] at hfit
  have h0 : m.val h.res (4 * h.n + 2) = 0 :=
    Digits.val_eq_zero fun i hi => hz _ (by omega) (by omega)
  rw [sums]
  -- `u0v0` twice
  obtain ⟨e1, s1⟩ := addAt_spec (m := m) (h := h) (k := 0) (n := h.n + h.v0len) (p := h.t)
    (by omega) (by omega) (by omega) (by rw [h0]; exact Nat.pow_pos (by decide))
  rw [h0, pow_zero, Nat.one_mul, Nat.zero_add] at e1
  generalize addAt m h 0 h.t (h.n + h.v0len) = m1 at e1 s1 ⊢
  have f1 : ∀ q l, q + l ≤ h.res → m1.val q l = m.val q l := fun q l hq => s1.val_eq (Or.inl hq)
  obtain ⟨e2, s2⟩ := addAt_spec (m := m1) (h := h) (k := h.n) (n := h.n + h.v0len) (p := h.t)
    (by omega) (by omega) (by omega) (by omega)
  rw [e1, f1 h.t _ (by omega)] at e2
  generalize addAt m1 h h.n h.t (h.n + h.v0len) = m2 at e2 s2 ⊢
  have f2 : ∀ q l, q + l ≤ h.res → m2.val q l = m.val q l := fun q l hq => by
    rw [s2.val_eq (Or.inl hq), f1 q l hq]
  -- `u1v1` twice, where there is one
  obtain ⟨e3, s3⟩ : (if 0 < h.v1len then
        addAt (addAt m2 h h.n h.u1v1 (h.u1len + h.v1len)) h (2 * h.n) h.u1v1
          (h.u1len + h.v1len) else m2).val h.res (4 * h.n + 2) =
        m2.val h.res (4 * h.n + 2) + radix ^ h.n * m.val h.u1v1 (h.u1len + h.v1len) +
          (radix ^ h.n) ^ 2 * m.val h.u1v1 (h.u1len + h.v1len) ∧
      Digits.Same m2 (if 0 < h.v1len then
        addAt (addAt m2 h h.n h.u1v1 (h.u1len + h.v1len)) h (2 * h.n) h.u1v1
          (h.u1len + h.v1len) else m2) h.res (4 * h.n + 2) := by
    by_cases hpos : 0 < h.v1len
    · obtain ⟨e3, s3⟩ := addAt_spec (m := m2) (h := h) (k := h.n) (n := h.u1len + h.v1len)
        (p := h.u1v1) (by omega) (by omega) (by omega) (by omega)
      rw [f2 h.u1v1 _ (by omega)] at e3
      generalize addAt m2 h h.n h.u1v1 (h.u1len + h.v1len) = m3 at e3 s3 ⊢
      obtain ⟨e4, s4⟩ := addAt_spec (m := m3) (h := h) (k := 2 * h.n) (n := h.u1len + h.v1len)
        (p := h.u1v1) (by omega) (by omega) (by omega) (by omega)
      rw [s3.val_eq (Or.inl (by omega : h.u1v1 + (h.u1len + h.v1len) ≤ h.res)),
        f2 h.u1v1 _ (by omega), show radix ^ (2 * h.n) = (radix ^ h.n) ^ 2 by ring] at e4
      rw [if_pos hpos]
      exact ⟨by rw [e4, e3], s3.trans s4⟩
    · rw [if_neg hpos, hx1 (Nat.eq_zero_of_not_pos hpos)]
      exact ⟨by simp, Digits.Same.refl _ _ _⟩
  rw [e2] at e3
  generalize (if 0 < h.v1len then addAt (addAt m2 h h.n h.u1v1 (h.u1len + h.v1len)) h (2 * h.n)
    h.u1v1 (h.u1len + h.v1len) else m2) = m3 at e3 s3 ⊢
  have f3 : ∀ q l, q + l ≤ h.res → m3.val q l = m.val q l := fun q l hq => by
    rw [s3.val_eq (Or.inl hq), f2 q l hq]
  have hs := (s1.trans s2).trans s3
  -- the product of the differences, with its sign
  rcases g with _ | _
  · obtain ⟨e4, s4⟩ := addAt_spec (m := m3) (h := h) (k := h.n) (n := h.n + h.v0len)
      (p := h.diffprod) (by omega) (by omega) (by omega) (by omega)
    rw [f3 h.diffprod _ (by omega), e3] at e4
    rw [if_neg Bool.false_ne_true, if_neg Bool.false_ne_true, if_neg Bool.false_ne_true]
    exact ⟨e4, hs.trans s4⟩
  · obtain ⟨e4, s4⟩ := subAt_spec (m := m3) (h := h) (n := h.n + h.v0len) (p := h.diffprod)
      (by omega) (by omega) (by omega) (by
        rw [f3 h.diffprod _ (by omega), e3]
        exact hneg rfl)
    rw [f3 h.diffprod _ (by omega), e3] at e4
    rw [if_pos rfl, if_pos rfl, if_pos rfl]
    exact ⟨e4, hs.trans s4⟩

/-! ### One level of the recursion -/

/-- The two products in the middle, by the product of the differences. -/
theorem middle {u0 u1 v0 v1 du dv : ℕ} {su sv : Bool}
    (hu : su = true ∧ du + u1 = u0 ∨ su = false ∧ du + u0 = u1)
    (hv : sv = true ∧ dv + v0 = v1 ∨ sv = false ∧ dv + v1 = v0) :
    u0 * v0 + u1 * v1 + (if su != sv then 0 else du * dv) =
      u1 * v0 + u0 * v1 + (if su != sv then du * dv else 0) := by
  rcases hu with ⟨rfl, rfl⟩ | ⟨rfl, rfl⟩ <;> rcases hv with ⟨rfl, rfl⟩ | ⟨rfl, rfl⟩ <;>
    simp <;> ring

/-- How much scratch space the levels of the recursion take, one inside the other. -/
def scratch : ℕ → ℕ → ℕ
  | 0, _ => 0
  | fuel + 1, len =>
    if karatsubaMin ≤ len then
      5 * (2 * (len / 2 + len % 2) + 1) + scratch fuel (len / 2 + len % 2)
    else 0

theorem scratch_mono (fuel : ℕ) {l l' : ℕ} (h : l ≤ l') : scratch fuel l ≤ scratch fuel l' := by
  induction fuel generalizing l l' with
  | zero => exact le_rfl
  | succ fuel ih =>
    rw [scratch, scratch]
    by_cases h1 : karatsubaMin ≤ l
    · have h2 := ih (by omega : l / 2 + l % 2 ≤ l' / 2 + l' % 2)
      rw [if_pos h1, if_pos (Nat.le_trans h1 h)]
      omega
    · rw [if_neg h1]
      exact Nat.zero_le _

theorem halves_ok (hlen : blen ≤ alen) (hmin : karatsubaMin ≤ alen) (ha : a + alen ≤ brk)
    (hb : b + blen ≤ brk) : (halves a alen b blen brk).Ok := by
  have h32 : karatsubaMin = 32 := rfl
  simp only [halves]
  constructor <;> simp only <;> (try split) <;> omega

/-- **Karatsuba's step is exact**, if the multiplications of the halves are. -/
theorem mpkaratsuba_spec {vecmul : Vecmul} (hlen : blen ≤ alen) (hmin : karatsubaMin ≤ alen)
    (ha : a + alen ≤ brk) (hb : b + blen ≤ brk)
    (hmul : Multiplies vecmul (alen / 2 + alen % 2) k) :
    (mpkaratsuba vecmul m brk a alen b blen p).val p (alen + blen) = m.val a alen * m.val b blen ∧
      Within m (mpkaratsuba vecmul m brk a alen b blen p) p (alen + blen) brk
        (5 * (2 * (alen / 2 + alen % 2) + 1) + k) := by
  have hok := halves_ok hlen hmin ha hb
  have hn : (halves a alen b blen brk).n = alen / 2 + alen % 2 := rfl
  have ht : (halves a alen b blen brk).t = brk := rfl
  have ha' : (halves a alen b blen brk).a = a := rfl
  have hb' : (halves a alen b blen brk).b = b := rfl
  have hulen : (halves a alen b blen brk).n + (halves a alen b blen brk).u1len = alen := by
    show alen / 2 + alen % 2 + (alen - (alen / 2 + alen % 2)) = alen
    omega
  have hvlen : (halves a alen b blen brk).v0len + (halves a alen b blen brk).v1len = blen := by
    simp only [halves]
    split <;> omega
  rw [mpkaratsuba]
  generalize halves a alen b blen brk = h at hok hn ht ha' hb' hulen hvlen ⊢
  have hu := hok.u1len_le
  have hv := hok.v0len_le
  have hv1 := hok.v1len_le
  have hd1 : h.u1v1 = h.t + (2 * h.n + 1) := rfl
  have hd2 : h.diffprod = h.t + 2 * (2 * h.n + 1) := rfl
  have hd3 : h.res = h.t + 3 * (2 * h.n + 1) := rfl
  have hr : h.room = 5 * (2 * h.n + 1) := rfl
  rw [← hn] at hmul
  -- the factors are below the scratch space and stay as they are
  have hz0 : ∀ j, h.t ≤ j → j < h.t + h.room → m.zero h.t h.room j = 0 := fun j =>
    Digits.zero_apply
  have hf0 : ∀ j, j < h.t ∨ h.t + h.room ≤ j → m.zero h.t h.room j = m j := fun j =>
    Digits.zero_of_ne
  generalize m.zero h.t h.room = m0 at hz0 hf0 ⊢
  obtain ⟨du, su⟩ := diffU_spec hok fun i hi => hz0 (h.t + i) (by omega) (by omega)
  generalize diffU m0 h = d at du su ⊢
  obtain ⟨dv, sv⟩ := diffV_spec (m := d.1) hok fun i hi => by
    rw [su _ (Or.inr (by omega))]
    exact hz0 _ (by omega) (by omega)
  generalize diffV d.1 h = d' at dv sv ⊢
  have hlow : ∀ q l, q + l ≤ h.t → d'.1.val q l = m.val q l := fun q l hq =>
    Digits.val_frame fun j _ hj => by
      rw [sv _ (Or.inl (by omega)), su _ (Or.inl (by omega)), hf0 _ (Or.inl (by omega))]
  have hlow1 : ∀ q l, q + l ≤ h.t → d.1.val q l = m.val q l := fun q l hq =>
    Digits.val_frame fun j _ hj => by rw [su _ (Or.inl (by omega)), hf0 _ (Or.inl (by omega))]
  have hlow0 : ∀ q l, q + l ≤ h.t → m0.val q l = m.val q l := fun q l hq =>
    Digits.val_frame fun j _ hj => hf0 _ (Or.inl (by omega))
  have hpr := products_spec hok hmul (m := d'.1) fun j hj hj' => by
    rw [sv _ (Or.inr (by omega)), su _ (Or.inr (by omega))]
    exact hz0 _ (by omega) (by omega)
  have hres := hpr.res
  have hrest := hpr.rest
  have hx0 := hpr.u0v0
  have hx1 := hpr.u1v1
  have hd := hpr.diffprod
  generalize products vecmul d'.1 h = m1 at hres hrest hx0 hx1 hd hpr ⊢
  rw [sv.val_eq (Or.inl (by omega))] at hd
  rw [hlow _ _ (by rw [ha']; omega), hlow _ _ (by rw [hb']; omega)] at hx0 hx1
  rw [AbsDiff, hlow0 _ _ (by rw [ha']; omega), hlow0 _ _ (by rw [ha']; omega)] at du
  rw [AbsDiff, hlow1 _ _ (by rw [hb']; omega), hlow1 _ _ (by rw [hb']; omega)] at dv
  have hmid := middle du dv
  rw [← hd] at hmid
  generalize hP : radix ^ h.n = P
  have hPpos : 0 < P := by
    rw [← hP]
    exact Nat.pow_pos (by decide)
  obtain ⟨hsum, ssum⟩ := sums_spec (m := m1) (g := d.2 != d'.2) hok (fun j hj hj' => by
      rw [hres j hj hj', sv _ (Or.inr (by omega)), su _ (Or.inr (by omega))]
      exact hz0 _ (by omega) (by omega))
    (fun hneg => by
      rw [hneg, if_pos rfl, if_pos rfl] at hmid
      rw [hP, hx0, hx1]
      have h1 : P * (m.val h.a h.n * m.val h.b h.v0len +
          m.val (h.a + h.n) h.u1len * m.val (h.b + h.v0len) h.v1len) =
        P * (m.val (h.a + h.n) h.u1len * m.val h.b h.v0len +
          m.val h.a h.n * m.val (h.b + h.v0len) h.v1len) +
          P * m1.val h.diffprod (h.n + h.v0len) := by
        rw [← Nat.mul_add, ← hmid, Nat.add_zero]
      rw [Nat.mul_add] at h1
      omega)
    (fun h0 => by rw [hx1, h0, Digits.val_zero, Nat.mul_zero])
  generalize sums m1 h (d.2 != d'.2) = m2 at hsum ssum ⊢
  rw [hP, hx0, hx1] at hsum
  have hA := Digits.val_add m a h.n h.u1len
  have hB := Digits.val_add m b h.v0len h.v1len
  rw [hulen, ← ha', hP] at hA
  rw [hvlen, ← hb'] at hB
  have hB' : m.val h.b blen = m.val h.b h.v0len + P * m.val (h.b + h.v0len) h.v1len := by
    rw [hB]
    rcases Nat.eq_zero_or_pos h.v1len with h0 | h0
    · rw [h0, Digits.val_zero, Nat.mul_zero, Nat.mul_zero]
    · rw [hok.v0len_eq h0, hP]
  have hprod : m2.val h.res (4 * h.n + 2) = m.val a alen * m.val b blen := by
    rw [← ha', ← hb', hA, hB']
    have h1 : (m.val h.a h.n + P * m.val (h.a + h.n) h.u1len) *
          (m.val h.b h.v0len + P * m.val (h.b + h.v0len) h.v1len) =
        m.val h.a h.n * m.val h.b h.v0len + P * (m.val (h.a + h.n) h.u1len * m.val h.b h.v0len +
          m.val h.a h.n * m.val (h.b + h.v0len) h.v1len) +
          P ^ 2 * (m.val (h.a + h.n) h.u1len * m.val (h.b + h.v0len) h.v1len) := by ring
    have h2 := congrArg (P * ·) hmid
    simp only [Nat.mul_add] at h2
    rw [h1, Nat.mul_add]
    rcases hneg : (d.2 != d'.2) with _ | _
    · rw [hneg] at hsum h2
      simp only [Bool.false_eq_true, if_false, Nat.mul_zero, Nat.add_zero] at hsum h2
      omega
    · rw [hneg] at hsum h2
      simp only [if_true, Nat.mul_zero, Nat.add_zero] at hsum h2
      omega
  refine ⟨?_, fun j hj hj' => ?_⟩
  · rw [Digits.val_copy, ← hprod]
    refine (Digits.val_of_lt (by omega) ?_).symm
    rw [hprod, pow_add]
    exact Nat.mul_lt_mul'' (m.val_lt _ _) (m.val_lt _ _)
  · rw [Digits.copy_of_ne hj, ssum j (by omega), hrest j (by omega), sv j (by omega),
      su j (by omega), hf0 j (by omega)]

/-! ### The whole -/

theorem vecmulStep_spec {vecmul : Vecmul} {fuel : ℕ}
    (hvec : ∀ l < alen, Multiplies vecmul l (scratch fuel l)) (hlen : blen ≤ alen)
    (ha : a + alen ≤ brk) (hb : b + blen ≤ brk)
    (hpa : Disjoint p (alen + blen) a alen) (hpb : Disjoint p (alen + blen) b blen)
    (hz : ∀ i < alen + blen, m (p + i) = 0) :
    (vecmulStep vecmul m brk a alen b blen p).val p (alen + blen) = m.val a alen * m.val b blen ∧
      Within m (vecmulStep vecmul m brk a alen b blen p) p (alen + blen) brk
        (scratch (fuel + 1) alen) := by
  have h32 : karatsubaMin = 32 := rfl
  rw [vecmulStep]
  by_cases h0 : blen = 0
  · rw [if_pos h0]
    refine ⟨?_, fun j hj _ => Digits.zero_of_ne hj⟩
    rw [Digits.val_eq_zero fun i hi => Digits.zero_apply (Nat.le_add_right p i)
      (Nat.add_lt_add_left hi p), h0, Digits.val_zero, Nat.mul_zero]
  rw [if_neg h0]
  by_cases h1 : karatsubaMin ≤ alen ∧ 1 < blen
  · rw [if_pos h1, scratch, if_pos h1.1]
    exact mpkaratsuba_spec hlen h1.1 ha hb (hvec _ (by omega))
  · rw [if_neg h1]
    obtain ⟨h2, h3⟩ := schoolLoop_spec (m := m) hpa hpb fun i hi => by
      rw [Nat.add_assoc]
      exact hz _ (Nat.add_lt_add_left hi alen)
    refine ⟨?_, fun j hj _ => h3 j hj⟩
    rw [h2, Digits.val_eq_zero fun i hi => hz i (by omega), Nat.zero_add]

/-- **The recursion**: so many levels are enough for vectors of less than so many digits. -/
theorem vecmulDeep_spec (fuel : ℕ) :
    ∀ len < fuel, Multiplies (vecmulDeep fuel) len (scratch fuel len) := by
  induction fuel with
  | zero => exact fun len h => absurd h (Nat.not_lt_zero len)
  | succ fuel ih =>
    intro len hlen m brk a alen b blen p hal hbl ha hb hp hpa hpb hz
    rw [vecmulDeep]
    by_cases hlt : alen < blen
    · rw [if_pos hlt]
      obtain ⟨h1, h2⟩ := vecmulStep_spec (m := m) (a := b) (b := a) (p := p)
        (fun l hl => ih l (by omega)) (Nat.le_of_lt hlt) hb ha
        (by rwa [Nat.add_comm blen]) (by rwa [Nat.add_comm blen]) (by rwa [Nat.add_comm blen])
      rw [Nat.add_comm blen] at h1 h2
      refine ⟨by rw [h1, Nat.mul_comm], fun j hj hj' => h2 j hj ?_⟩
      have h3 := scratch_mono (fuel + 1) hbl
      omega
    · rw [if_neg hlt]
      obtain ⟨h1, h2⟩ := vecmulStep_spec (m := m) (fun l hl => ih l (by omega))
        (Nat.le_of_not_lt hlt) ha hb hpa hpb hz
      refine ⟨h1, fun j hj hj' => h2 j hj ?_⟩
      have h3 := scratch_mono (fuel + 1) hal
      omega

/-- **Multiplication of vectors is exact**, and writes only the product and scratch space. -/
theorem mpvecmul_spec (ha : a + alen ≤ brk) (hb : b + blen ≤ brk) (hp : p + (alen + blen) ≤ brk)
    (hpa : Disjoint p (alen + blen) a alen) (hpb : Disjoint p (alen + blen) b blen)
    (hz : ∀ i < alen + blen, m (p + i) = 0) :
    (mpvecmul m brk a alen b blen p).val p (alen + blen) = m.val a alen * m.val b blen ∧
      Within m (mpvecmul m brk a alen b blen p) p (alen + blen) brk
        (scratch (max alen blen + 1) (max alen blen)) :=
  vecmulDeep_spec (max alen blen + 1) (max alen blen) (Nat.lt_succ_self _) m brk a alen b blen p
    (Nat.le_max_left _ _) (Nat.le_max_right _ _) ha hb hp hpa hpb hz

end Mp

end Plan9
