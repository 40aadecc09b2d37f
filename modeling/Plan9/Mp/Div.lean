import Plan9.Mp.DivLoop
import Plan9.Mp.Ring

/-!
# Division

`mpdiv.c` and `mpmod.c`. The dividend is copied and both numbers are shifted until the top digit
of the divisor has its high bit, the loop divides the copies, and the remainder is shifted back.
Quotient and remainder may each be absent, and each may be the dividend or the divisor.

* `Plan9.Mp.mpdiv_end` – what `mpdiv` leaves in the quotient and in the remainder: their absolute
  values are right, and what their signs are;
* `Plan9.Mp.mpdiv_exact_iff`, `Plan9.Mp.mpmod_exact_iff` – so when the results are right;
* `Plan9.Mp.division_iff` – both together.
-/

namespace Plan9

namespace Mp

open Lib Option

variable {s s' s'' : Heap} {dividend divisor u v t r x b m res : Ref}
  {quotient remainder : Option Ref}
  {sh n k : ℕ} {qd : UInt32}

/-! ### The code -/

/-- Step D1: by how much the top digit of the divisor is shifted until its high bit is set. The
loop does not end for a digit that is zero. -/
def shiftCount (qd : UInt32) : ℕ → Option ℕ
  | 0 => none
  | n + 1 =>
    if qd &&& 0x80000000 ≠ 0 then some 0 else (shiftCount (qd <<< 1) n).map (· + 1)

/-- Step D1: `u` and `v`. -/
def divCopies (s : Heap) (dividend divisor : Ref) (quotient remainder : Option Ref) (sh : ℕ) :
    Heap × Ref × Ref :=
  let u := s.next
  let s := mpnew s (((s.obj dividend).top + 2) * 32 + sh)
  if sh = 0 ∧ quotient ≠ some divisor ∧ remainder ≠ some divisor then
    (mpassign s dividend u, u, divisor)
  else
    let s := mpleft s dividend sh u
    let v := s.next
    let s := mpnew s ((s.obj divisor).top * 32)
    (mpleft s divisor sh v, u, v)

/-- Step D1a: the high digit of the dividend is made less than that of the divisor. -/
def divHigh (s : Heap) (u v : Ref) : Heap :=
  let up := (s.obj u).p + (s.obj u).top - 1
  let vp := (s.obj v).p + (s.obj v).top - 1
  if s.mem vp ≤ s.mem up then
    let s := s.need u ((s.obj u).top + 1)
    (s.setMem (s.mem.set (up + 1) 0)).setTop u ((s.obj u).top + 1)
  else s

/-- Room for the quotient. -/
def divRoom (s : Heap) (u v : Ref) (quotient : Option Ref) : Heap :=
  match quotient with
  | none => s
  | some q =>
    let n := (s.obj u).top - (s.obj v).top
    ((mpbits s q ((n : ℤ) * 32)).need q n).setTop q n

/-- The loop; every turn takes a digit off `u`. -/
def divDigits (s : Heap) (u v t : Ref) (quotient : Option Ref) : Option Heap :=
  let n := (s.obj u).top - (s.obj v).top
  (divLoop (s.obj t).p (s.obj v).p (s.obj v).top (s.obj u).p
    (quotient.map fun q => (s.obj q).p) s.mem n).map fun m =>
      (s.setMem m).setTop u ((s.obj u).top - n)

/-- The quotient at the end. -/
def divQuotient (s : Heap) (dividend divisor : Ref) (quotient : Option Ref) : Heap :=
  match quotient with
  | none => s
  | some q =>
    let s := mpnorm s q
    if (s.obj dividend).sign ≠ (s.obj divisor).sign then s.setSign q (-1) else s

/-- The remainder at the end. -/
def divRemainder (s : Heap) (dividend u : Ref) (sh : ℕ) (remainder : Option Ref) : Heap :=
  match remainder with
  | none => s
  | some r =>
    let s := mpright s u sh r
    s.setSign r (s.obj dividend).sign

/-- `mpfree` of what is not needed any more. -/
def divFree (s : Heap) (divisor u v t : Ref) : Heap :=
  let s := mpfree (mpfree s t) u
  if v ≠ divisor then mpfree s v else s

/-- The remainder, where the dividend is smaller. -/
def quickRemainder (s : Heap) (dividend : Ref) (remainder : Option Ref) : Heap :=
  match remainder with
  | none => s
  | some r => mpassign s dividend r

/-- The quotient, where the dividend is smaller. -/
def quickQuotient (s : Heap) (quotient : Option Ref) : Heap :=
  match quotient with
  | none => s
  | some q => mpassignZero s q

/-- `mpdiv`, where the dividend is smaller. -/
def divQuick (s : Heap) (dividend : Ref) (quotient remainder : Option Ref) : Heap :=
  quickQuotient (quickRemainder s dividend remainder) quotient

/-- `mpdiv`, where the dividend is not smaller, and both are shifted by `sh`. -/
def divLong (s : Heap) (dividend divisor : Ref) (quotient remainder : Option Ref) (sh : ℕ) :
    Option Heap :=
  let c := divCopies s dividend divisor quotient remainder sh
  let u := c.2.1
  let v := c.2.2
  let s := divHigh c.1 u v
  let t := s.next
  let s := divRoom (mpnew s 128) u v quotient
  (divDigits s u v t quotient).map fun s =>
    let s := divQuotient s dividend divisor quotient
    divFree (divRemainder s dividend u sh remainder) divisor u v t

/-- `mpdiv`; `none`: the program is aborted, or does not end. -/
def mpdiv (s : Heap) (dividend divisor : Ref) (quotient remainder : Option Ref) : Option Heap :=
  if (s.obj divisor).top = 0 then none
  else if mpmagcmp s dividend divisor < 0 then some (divQuick s dividend quotient remainder)
  else
    (shiftCount (s.mem ((s.obj divisor).p + (s.obj divisor).top - 1)) 32).bind
      (divLong s dividend divisor quotient remainder)

/-- `mpmod`. -/
def mpmod (s : Heap) (b m remainder : Ref) : Option Heap :=
  (mpdiv s b m none (some remainder)).map fun s =>
    if (s.obj remainder).sign < 0 then mpadd s m remainder remainder else s

/-! ### Step D1 -/

/-- **The high bit is found** in a digit that is not zero. -/
theorem shiftCount_spec (hn : n ≤ 32) (hle : 2 ^ (32 - n) ≤ qd.toNat) :
    ∃ sh < n, shiftCount qd n = some sh := by
  induction n generalizing qd with
  | zero =>
    have h := qd.toNat_lt
    rw [Nat.sub_zero] at hle
    omega
  | succ n ih =>
    rw [shiftCount]
    by_cases hhi : qd &&& 0x80000000 ≠ 0
    · rw [if_pos hhi]
      exact ⟨0, Nat.succ_pos n, rfl⟩
    · rw [if_neg hhi]
      -- without the high bit, the digit is doubled
      have hlt : qd.toNat < 2147483648 := by
        by_contra hge
        refine hhi fun h0 => ?_
        have h1 : (qd &&& 0x80000000).toNat = 0 := by rw [h0]; rfl
        rw [UInt32.toNat_and] at h1
        have h2 : qd.toNat.testBit 31 = true := by
          rw [Nat.testBit_eq_decide_div_mod_eq, decide_eq_true_eq]
          have h3 := qd.toNat_lt
          omega
        have h3 : (qd.toNat &&& 2147483648).testBit 31 = true := by
          rw [Nat.testBit_and, h2]
          rfl
        have h4 : (qd.toNat &&& 2147483648) = 0 := h1
        rw [h4, Nat.zero_testBit] at h3
        exact Bool.noConfusion h3
      have hdbl : (qd <<< 1).toNat = qd.toNat * 2 := by
        rw [UInt32.toNat_shiftLeft, show (1 : UInt32).toNat % 32 = 1 from rfl, Nat.shiftLeft_eq]
        exact Nat.mod_eq_of_lt (by omega)
      have hpow : 2 ^ (32 - n) = 2 ^ (32 - (n + 1)) * 2 := by
        rw [← pow_succ]
        congr 1
        omega
      obtain ⟨sh, h1, h2⟩ :=
        ih (by omega) (by rw [hdbl, hpow]; omega : 2 ^ (32 - n) ≤ (qd <<< 1).toNat)
      exact ⟨sh + 1, Nat.succ_lt_succ h1, by rw [h2]; rfl⟩

/-! ### The copies -/

/-- The sign of a normalized number. -/
theorem Heap.Normal.sign_eq (h : s.Normal r) : (s.obj r).sign = if s.int r < 0 then -1 else 1 := by
  rcases h.sign with hs | hs
  · rw [if_neg (by rw [Heap.Normal.int_of_pos hs]; omega), hs]
  · obtain ⟨h1, h2⟩ := h.int_of_neg hs
    rw [if_pos (by omega), hs]

theorem Heap.Trimmed.top_le (h : s.Trimmed r) (hlt : s.mag r < radix ^ n) : (s.obj r).top ≤ n := by
  rcases htop : (s.obj r).top with _ | k
  · exact Nat.zero_le n
  · have h1 : radix ^ k ≤ s.mag r := by
      rw [Heap.mag, htop]
      exact Digits.pow_le_val (h k htop)
    exact (Nat.pow_lt_pow_iff_right (by decide)).1 (h1.trans_lt hlt)

theorem leftNonneg_size_le (s : Heap) (b : Ref) (k : ℕ) (res : Ref) :
    (s.obj res).size ≤ ((leftNonneg s b k res).obj res).size := by
  have h0 : (s.obj res).size = ((s.setSign res (s.obj b).sign).obj res).size := by
    rw [Heap.setSign, Heap.setObj_self]
  rw [h0, leftNonneg]
  generalize s.setSign res (s.obj b).sign = t
  by_cases h : (t.obj b).top = 0
  · simp only [h, if_true, Heap.setTop, Heap.setObj_self]
    exact le_rfl
  · simp only [h, if_false, leftBody, Heap.setTop, Heap.setObj_self, Heap.setMem_obj]
    exact mpbits_size_le t res _

theorem mpleft_natCast (s : Heap) (b : Ref) (k : ℕ) (res : Ref) :
    mpleft s b k res = leftNonneg s b k res := by
  have hmin : intMin = -2 ^ 31 := rfl
  rw [mpleft_eq s b res (by omega), if_neg (by omega), Int.toNat_natCast]

theorem mpnew_size (s : Heap) (x : ℤ) : (digits x).toNat ≤ ((mpnew s x).obj s.next).size := by
  simp only [mpnew, Function.update_self]
  exact Nat.le_max_left _ _

/-- What the copies are. -/
structure Copies (s s' : Heap) (dividend divisor : Ref) (quotient remainder : Option Ref) (sh : ℕ)
    (u v : Ref) : Prop where
  ok : s'.Ok
  next_le : s.next ≤ s'.next
  keeps : ∀ x < s.next, Heap.Keeps s s' x
  le_u : s.next ≤ u
  u_lt : u < s'.next
  v_lt : v < s'.next
  u_ne_v : u ≠ v
  v_eq : v = divisor ∨ s.next ≤ v
  ne_v : ∀ x, quotient = some x ∨ remainder = some x → x < s.next → x ≠ v
  u_normal : s'.Normal u
  u_int : s'.int u = s.int dividend * 2 ^ sh
  u_size : (s'.obj u).top + 2 ≤ (s'.obj u).size
  v_trimmed : s'.Trimmed v
  v_mag : s'.mag v = s.mag divisor * 2 ^ sh

/-- **The copies,** shifted. -/
theorem divCopies_spec (quotient remainder : Option Ref) (hok : s.Ok) (hr1 : dividend < s.next)
    (hr2 : divisor < s.next) (h1 : s.Normal dividend) (h2 : s.Normal divisor) (hsh : sh < 32)
    (hle : (s.obj divisor).top ≤ (s.obj dividend).top)
    (hfits : ((s.obj dividend).top + 2) * 32 + 62 < 2 ^ 31) :
    Copies s (divCopies s dividend divisor quotient remainder sh).1 dividend divisor quotient
      remainder sh (divCopies s dividend divisor quotient remainder sh).2.1
      (divCopies s dividend divisor quotient remainder sh).2.2 := by
  rw [divCopies]
  have hnew := mpnew_writes hok (x := ((s.obj dividend).top + 2) * 32 + sh)
    (by rw [int32_eq (by omega) (by omega)]; omega)
  have hsize := mpnew_size s (((s.obj dividend).top + 2) * 32 + sh)
  have hlt : s.next < (mpnew s (((s.obj dividend).top + 2) * 32 + sh)).next :=
    Nat.lt_succ_self s.next
  rw [digits_toNat (by omega) (by omega)] at hsize
  generalize mpnew s (((s.obj dividend).top + 2) * 32 + sh) = t at hnew hsize hlt ⊢
  have hk : ∀ x < s.next, Heap.Keeps s t x := fun x hx => hnew.keeps hok hx.ne
  have hn1 := (hk dividend hr1).normal hok h1
  have hn2 := (hk divisor hr2).normal hok h2
  have hi1 := (hk dividend hr1).int_eq hok
  by_cases hcase : sh = 0 ∧ quotient ≠ some divisor ∧ remainder ≠ some divisor
  · simp only [hcase, ne_eq, not_false_eq_true, and_self, if_true]
    obtain ⟨rfl, hq, hr⟩ := hcase
    obtain ⟨h3, h4, h5⟩ := mpassign_result hnew.ok hlt hn1
    have hsize' := mpassign_size_le t dividend s.next
    generalize mpassign t dividend s.next = t' at h3 h4 h5 hsize' ⊢
    rw [hi1] at h5
    have hmag : t'.mag s.next = s.mag dividend := by
      rw [← h4.natAbs_int, h5, h1.natAbs_int]
    have htop := h4.trimmed.top_le (n := (s.obj dividend).top) (by
      rw [hmag]
      exact Digits.val_lt _ _ _)
    have hkd := (hk divisor hr2).trans (h3.keeps hnew.ok hr2.ne)
    exact
      { ok := h3.ok
        next_le := hnew.next_le.trans h3.next_le
        keeps := fun x hx => (hk x hx).trans (h3.keeps hnew.ok hx.ne)
        le_u := le_rfl
        u_lt := hlt.trans_le h3.next_le
        v_lt := hr2.trans_le (hnew.next_le.trans h3.next_le)
        u_ne_v := hr2.ne'
        v_eq := Or.inl rfl
        ne_v := fun x hx _ hxd => by
          rcases hx with hx | hx
          · exact hq (hxd ▸ hx)
          · exact hr (hxd ▸ hx)
        u_normal := h4
        u_int := by rw [h5, pow_zero, mul_one]
        u_size := by omega
        v_trimmed := hkd.trimmed hok h2.trimmed
        v_mag := by rw [hkd.mag_eq hok, pow_zero, Nat.mul_one] }
  · simp only [if_neg hcase, mpleft_natCast]
    have htop1 : (t.obj dividend).top = (s.obj dividend).top := by rw [(hk dividend hr1).obj]
    obtain ⟨h3, h4, h5⟩ := (leftNonneg_iff hnew.ok hlt hn1 sh).2 fun _ => by omega
    have hsize' := leftNonneg_size_le t dividend sh s.next
    generalize leftNonneg t dividend sh s.next = t1 at h3 h4 h5 hsize' ⊢
    rw [hi1] at h5
    have hk1 : ∀ x < s.next, Heap.Keeps s t1 x :=
      fun x hx => (hk x hx).trans (h3.keeps hnew.ok hx.ne)
    have hle1 := hnew.next_le.trans h3.next_le
    have hut : s.next < t1.next := hlt.trans_le h3.next_le
    have htop2 : (t1.obj divisor).top = (s.obj divisor).top := by rw [(hk1 divisor hr2).obj]
    have hnew' := mpnew_writes h3.ok (x := (t1.obj divisor).top * 32)
      (by rw [int32_eq (by omega) (by omega)]; omega)
    have hlt' : t1.next < (mpnew t1 ((t1.obj divisor).top * 32)).next := Nat.lt_succ_self t1.next
    generalize mpnew t1 ((t1.obj divisor).top * 32) = t2 at hnew' hlt' ⊢
    have hk2 : ∀ x < t1.next, Heap.Keeps t1 t2 x := fun x hx => hnew'.keeps h3.ok hx.ne
    have hn2' := (hk2 divisor (hr2.trans hut)).normal h3.ok ((hk1 divisor hr2).normal hok h2)
    have htop3 : (t2.obj divisor).top = (s.obj divisor).top := by
      rw [(hk2 divisor (hr2.trans hut)).obj, htop2]
    obtain ⟨h6, h7, h8⟩ := (leftNonneg_iff hnew'.ok hlt' hn2' sh).2 fun _ => by omega
    generalize leftNonneg t2 divisor sh t1.next = t3 at h6 h7 h8 ⊢
    have hk3 : ∀ x < t1.next, Heap.Keeps t1 t3 x :=
      fun x hx => (hk2 x hx).trans (h6.keeps hnew'.ok hx.ne)
    have hku := hk3 s.next hut
    have hmag : t1.mag s.next = s.mag dividend * 2 ^ sh := by
      rw [← h4.natAbs_int, h5, Int.natAbs_mul, h1.natAbs_int, Int.natAbs_pow]
      rfl
    have hlt2 : s.mag dividend * 2 ^ sh < radix ^ ((s.obj dividend).top +
        if sh = 0 then 0 else 1) := by
      have hd : s.mag dividend < radix ^ (s.obj dividend).top := Digits.val_lt _ _ _
      rcases Nat.eq_zero_or_pos sh with rfl | hpos
      · rwa [pow_zero, Nat.mul_one, if_pos rfl, Nat.add_zero]
      · rw [if_neg hpos.ne', pow_succ]
        refine Nat.mul_lt_mul_of_lt_of_le hd ?_ (by decide)
        exact Nat.pow_le_pow_right (by decide) (Nat.le_of_lt hsh)
    have htop := h4.trimmed.top_le (hmag.le.trans_lt hlt2)
    exact
      { ok := h6.ok
        next_le := hle1.trans (hnew'.next_le.trans h6.next_le)
        keeps := fun x hx => (hk1 x hx).trans (hk3 x (hx.trans hut))
        le_u := le_rfl
        u_lt := hut.trans (hlt'.trans_le h6.next_le)
        v_lt := hlt'.trans_le h6.next_le
        u_ne_v := hut.ne
        v_eq := Or.inr hle1
        ne_v := fun x _ hx => (hx.trans hut).ne
        u_normal := hku.normal h3.ok h4
        u_int := by rw [hku.int_eq h3.ok, h5]
        u_size := by
          rw [hku.obj]
          split at htop <;> omega
        v_trimmed := h7.trimmed
        v_mag := by
          rw [← h7.natAbs_int, h8, (hk2 divisor (hr2.trans hut)).int_eq h3.ok,
            (hk1 divisor hr2).int_eq hok, Int.natAbs_mul, h2.natAbs_int, Int.natAbs_pow]
          rfl }

/-! ### The high digit -/

/-- **The window below the first one is less than the divisor.** -/
theorem divHigh_spec (hok : s.Ok) (hu : u < s.next) (htv : s.Trimmed v) (hpos : 0 < s.mag v)
    (hle : s.mag v ≤ s.mag u)
    (hsize : (s.obj u).top + 2 ≤ (s.obj u).size) :
    Heap.Writes s (divHigh s u v) u 0 ∧ (divHigh s u v).next = s.next ∧
      ((divHigh s u v).obj u).sign = (s.obj u).sign ∧ (divHigh s u v).mag u = s.mag u ∧
      (s.obj v).top < ((divHigh s u v).obj u).top ∧
      ((divHigh s u v).obj u).top + 1 ≤ ((divHigh s u v).obj u).size ∧
      (divHigh s u v).mem.val (((divHigh s u v).obj u).p +
        (((divHigh s u v).obj u).top - (s.obj v).top)) (s.obj v).top < s.mag v := by
  have htop : (s.obj v).top ≤ (s.obj u).top := by
    by_contra hlt
    exact absurd (mag_lt_of_top_lt htv (Nat.lt_of_not_le hlt)) (Nat.not_lt_of_le hle)
  obtain ⟨n, hn⟩ : ∃ n, (s.obj v).top = n + 1 := Nat.exists_eq_succ_of_ne_zero fun h0 => by
    rw [htv.mag_eq_zero.2 h0] at hpos
    exact Nat.lt_irrefl 0 hpos
  obtain ⟨k, hk⟩ := Nat.exists_eq_add_of_le htop
  rw [hn] at hk
  have hk' : (s.obj u).top = k + n + 1 := by omega
  have hvtop : radix ^ n ≤ s.mag v := by
    rw [Heap.mag, hn]
    exact Digits.pow_le_val (htv n hn)
  have hvmag : s.mag v = s.mem.val (s.obj v).p n + radix ^ n * (s.mem ((s.obj v).p + n)).toNat := by
    rw [Heap.mag, hn, Digits.val_succ_top]
  have e1 : (s.obj u).p + (k + n + 1) - 1 = (s.obj u).p + (k + n) := by omega
  have e2 : (s.obj v).p + (n + 1) - 1 = (s.obj v).p + n := by omega
  rw [divHigh]
  simp only [hn, hk', e1, e2]
  by_cases hcmp : s.mem ((s.obj v).p + n) ≤ s.mem ((s.obj u).p + (k + n))
  · have hneed : s.need u (k + n + 1 + 1) = s := Heap.need_eq (by omega)
    simp only [hcmp, if_true, hneed, hk']
    have h1 : Heap.Writes s (s.setMem (s.mem.set ((s.obj u).p + (k + n) + 1) 0)) u 0 :=
      Heap.Writes.setMem_same (n := k + n + 2) hok
        ((Digits.Same.set _ _ _).mono (by omega) (by omega)) (by omega)
    generalize hm : s.mem.set ((s.obj u).p + (k + n) + 1) 0 = m at h1 ⊢
    have hlow : m.val (s.obj u).p (k + n + 1) = s.mag u := by
      rw [Heap.mag, hk', ← hm]
      exact Digits.val_frame fun j hj hj' => Digits.set_of_ne _ _ (by omega)
    have hself : ((s.setMem m).setTop u (k + n + 1 + 1)).obj u =
        { s.obj u with top := k + n + 1 + 1 } := Heap.setObj_self _ _ _
    have hz : m ((s.obj u).p + (k + n + 1)) = 0 := by
      have e5 : (s.obj u).p + (k + n + 1) = (s.obj u).p + (k + n) + 1 := rfl
      rw [← hm, e5]
      exact Digits.set_self _ _ _
    refine ⟨h1.trans (Heap.Writes.setTop h1.ok hu (by rw [Heap.setMem_obj]; omega)), rfl,
      ?_, ?_, ?_,
      ?_, ?_⟩
    · rw [hself]
    · rw [Heap.mag, hself]
      have h3 : m.val (s.obj u).p (k + n + 1 + 1) = s.mag u := by
        rw [Digits.val_succ_top, hz, hlow, UInt32.toNat_zero, Nat.mul_zero, Nat.add_zero]
      exact h3
    · rw [hself]
      show n + 1 < k + n + 1 + 1
      omega
    · rw [hself]
      show k + n + 1 + 1 + 1 ≤ (s.obj u).size
      omega
    · rw [hself]
      have e3 : k + n + 1 + 1 - (n + 1) = k + 1 := by omega
      have h3 : m.val ((s.obj u).p + (k + 1)) (n + 1) < s.mag v := by
        have e4 : (s.obj u).p + (k + 1) + n = (s.obj u).p + (k + n + 1) := by omega
        rw [Digits.val_succ_top, e4, hz, UInt32.toNat_zero, Nat.mul_zero, Nat.add_zero]
        exact (Digits.val_lt _ _ _).trans_le hvtop
      simp only [e3]
      exact h3
  · simp only [hcmp, if_false]
    have hlt : (s.mem ((s.obj u).p + (k + n))).toNat + 1 ≤ (s.mem ((s.obj v).p + n)).toNat := by
      rw [UInt32.le_iff_toNat_le] at hcmp
      omega
    -- below the top digit of the divisor, whatever the other digits are
    have hwin : s.mem.val ((s.obj u).p + k) (n + 1) < s.mag v := by
      have h3 := s.mem.val_lt ((s.obj u).p + k) n
      have h4 : radix ^ n * ((s.mem ((s.obj u).p + (k + n))).toNat + 1) ≤
          radix ^ n * (s.mem ((s.obj v).p + n)).toNat := Nat.mul_le_mul_left _ hlt
      rw [Nat.mul_succ] at h4
      rw [Digits.val_succ_top, Nat.add_assoc, hvmag]
      omega
    have hkpos : 0 < k := Nat.pos_of_ne_zero fun h0 => by
      have humag : s.mag u = s.mem.val (s.obj u).p (k + n + 1) := by rw [Heap.mag, hk']
      rw [h0] at hwin humag
      simp only [Nat.zero_add, Nat.add_zero] at hwin humag
      omega
    refine ⟨Heap.Writes.refl hok u, trivial, trivial, trivial, by omega, by omega, ?_⟩
    have e3 : k + n + 1 - (n + 1) = k := by omega
    rw [hk', e3]
    exact hwin

/-! ### The digits -/

theorem Disjoint.mono {p q l n' l' : ℕ} (h : Disjoint p n q l) (hn : n' ≤ n) (hl : l' ≤ l) :
    Disjoint p n' q l' :=
  h.imp (fun h => by omega) fun h => by omega

/-- **Quotient and remainder of the absolute values.** -/
theorem divDigits_spec (hok : s.Ok) (hu : u < s.next) (huv : u ≠ v) (htu : t ≠ u) (htv : t ≠ v)
    (hq : ∀ x, quotient = some x → x ≠ u ∧ x ≠ v ∧ x ≠ t ∧
      (s.obj x).top = (s.obj u).top - (s.obj v).top)
    (ht : 3 ≤ (s.obj t).size) (hv : s.Trimmed v) (hv0 : 0 < (s.obj v).top)
    (hle : (s.obj v).top ≤ (s.obj u).top) (hsize : (s.obj u).top + 1 ≤ (s.obj u).size)
    (hlt : s.mem.val ((s.obj u).p + ((s.obj u).top - (s.obj v).top)) (s.obj v).top < s.mag v) :
    ∃ s', divDigits s u v t quotient = some s' ∧ s'.Ok ∧ s'.next = s.next ∧
      (∀ x, x ≠ u → x ≠ t → quotient ≠ some x → Heap.Keeps s s' x) ∧
      s'.obj u = { s.obj u with top := (s.obj v).top } ∧ s'.mag u = s.mag u % s.mag v ∧
      ∀ x, quotient = some x → s'.obj x = s.obj x ∧ s'.mag x = s.mag u / s.mag v := by
  obtain ⟨k, hk⟩ := Nat.exists_eq_add_of_le hle
  have hkk : (s.obj u).top - (s.obj v).top = k := by omega
  rw [hkk] at hlt hq
  have htopv := hok.top_le v
  have hd : LoopApart (s.obj t).p (s.obj v).p (s.obj v).top (s.obj u).p k
      (quotient.map fun q => (s.obj q).p) := by
    have hqk : ∀ p, (quotient.map fun q => (s.obj q).p) = some p → ∀ y n', n' ≤ (s.obj y).size →
        (∀ x, quotient = some x → x ≠ y) → Disjoint p k (s.obj y).p n' := by
      intro p hp y n' hn' hy
      obtain ⟨x, hx, rfl⟩ := map_eq_some_iff.1 hp
      have htopx := hok.top_le x
      rw [(hq x hx).2.2.2] at htopx
      exact (hok.apart x y (hy x hx)).mono htopx hn'
    exact
      { tv := (hok.apart t v htv).mono ht htopv
        tu := (hok.apart t u htu).mono ht (by omega)
        vu := (hok.apart v u huv.symm).mono htopv (by omega)
        qt := fun p hp => hqk p hp t 3 ht fun x hx => (hq x hx).2.2.1
        qv := fun p hp => hqk p hp v _ htopv fun x hx => (hq x hx).2.1
        qu := fun p hp => hqk p hp u _ (by omega) fun x hx => (hq x hx).1 }
  obtain ⟨n, hn⟩ : ∃ n, (s.obj v).top = n + 1 := Nat.exists_eq_succ_of_ne_zero hv0.ne'
  have htop : s.mem ((s.obj v).p + (s.obj v).top - 1) ≠ 0 := by
    rw [hn]
    exact hv n hn
  obtain ⟨m, h1, h2, h3, h4⟩ := divLoop_spec (m := s.mem) hd hv0 htop hlt
  rw [← hk] at h2 h3 h4
  have hsub : (s.obj u).top - k = (s.obj v).top := by omega
  refine ⟨(s.setMem m).setTop u (s.obj v).top, ?_, ?_, rfl, fun x hxu hxt hxq => ⟨?_, ?_⟩, ?_, ?_,
    fun x hx => ⟨?_, ?_⟩⟩
  · simp only [divDigits, hkk, h1, map_some, hsub]
  · have hok' : (s.setMem m).Ok := { hok with }
    exact (Heap.Writes.setTop hok' hu (by rw [Heap.setMem_obj]; omega)).ok
  · exact Heap.setObj_of_ne _ _ hxu
  · intro j hj hj'
    have hju := hok.apart x u hxu
    have hjt := hok.apart x t hxt
    refine h4 j ?_ ?_ fun p hp => ?_
    · rcases hjt with h | h <;> omega
    · rcases hju with h | h <;> omega
    · obtain ⟨y, hy, rfl⟩ := map_eq_some_iff.1 hp
      have hjy := hok.apart x y fun hxy => hxq (hxy ▸ hy)
      have htopy := hok.top_le y
      rw [(hq y hy).2.2.2] at htopy
      rcases hjy with h | h <;> omega
  · rw [Heap.setTop, Heap.setObj_self]
    rfl
  · rw [Heap.mag, Heap.setTop, Heap.setObj_self]
    exact h2
  · exact Heap.setObj_of_ne _ _ (hq x hx).1
  · rw [Heap.mag, Heap.setTop, Heap.setObj_of_ne _ _ (hq x hx).1, Heap.setMem_obj, (hq x hx).2.2.2]
    exact h3 _ (by rw [hx]; rfl)

/-! ### Signs -/

/-- The quotient at the end: its sign is not set where both signs are equal. -/
theorem divQuotient_spec (dividend divisor : Ref) (hok : s.Ok) (hx : x < s.next)
    (hmag : 0 < s.mag x) :
    Heap.Writes s (divQuotient s dividend divisor (some x)) x 0 ∧
      (divQuotient s dividend divisor (some x)).Trimmed x ∧
      (divQuotient s dividend divisor (some x)).mag x = s.mag x ∧
      ((divQuotient s dividend divisor (some x)).obj x).sign =
        if (s.obj dividend).sign ≠ (s.obj divisor).sign then -1 else (s.obj x).sign := by
  obtain ⟨h1, h2, h3⟩ := trim_spec hok hx
  have hsign : ∀ y, ((s.setTop x (significant s.mem (s.obj x).p (s.obj x).top)).obj y).sign =
      (s.obj y).sign := fun y => by
    rcases eq_or_ne y x with rfl | hy
    · rw [Heap.setTop, Heap.setObj_self]
    · rw [h1.obj y hy]
  have hnorm : mpnorm s x = s.setTop x (significant s.mem (s.obj x).p (s.obj x).top) := by
    rw [mpnorm]
    refine if_neg fun h0 => ?_
    rw [← h3, h2.mag_eq_zero.2 h0] at hmag
    exact Nat.lt_irrefl 0 hmag
  simp only [divQuotient, hnorm]
  generalize s.setTop x (significant s.mem (s.obj x).p (s.obj x).top) = w at h1 h2 h3 hsign ⊢
  simp only [hsign]
  by_cases hs : (s.obj dividend).sign ≠ (s.obj divisor).sign
  · simp only [if_pos hs]
    have hself : (w.setSign x (-1)).obj x = { w.obj x with sign := -1 } := Heap.setObj_self _ _ _
    refine ⟨h1.trans (Heap.Writes.setSign h1.ok (hx.trans_le h1.next_le) _), fun n hn => ?_, ?_, ?_⟩
    · rw [hself] at hn ⊢
      exact h2 n hn
    · rw [Heap.mag, hself]
      exact h3
    · rw [hself]
  · simp only [if_neg hs]
    exact ⟨h1, h2, h3, hsign x⟩

/-- The remainder at the end: a zero gets the sign of the dividend, unless it is written over the
dividend. -/
theorem divRemainder_spec (dividend : Ref) (hok : s.Ok) (hr : r < s.next) (hru : r ≠ u)
    (hsh : sh < 32)
    (htop : 0 < (s.obj u).top) (hs : (s.obj u).sign = 1 ∨ (s.obj u).sign = -1) :
    Heap.Writes s (divRemainder s dividend u sh (some r)) r 0 ∧
      (divRemainder s dividend u sh (some r)).Trimmed r ∧
      (divRemainder s dividend u sh (some r)).mag r = s.mag u / 2 ^ sh ∧
      ((divRemainder s dividend u sh (some r)).obj r).sign =
        if r = dividend then if s.mag u / 2 ^ sh = 0 then 1 else (s.obj u).sign
        else (s.obj dividend).sign := by
  have hw := Heap.Writes.setSign hok hr (s.obj u).sign
  have hself : ((s.setSign r (s.obj u).sign).obj r).sign = (s.obj u).sign := by
    rw [Heap.setSign, Heap.setObj_self]
  have hobj := hw.obj u hru.symm
  have hmag := hw.mag_eq hok hru.symm
  have hright : mpright s u sh r = rightBody (s.setSign r (s.obj u).sign) u sh r := by
    have hmin : intMin = -2 ^ 31 := rfl
    rw [mpright_eq s u r (by omega), if_neg (by omega), Int.toNat_natCast, rightNonneg]
    refine if_neg ?_
    rw [hobj]
    omega
  have hother : ∀ y, y ≠ r → (s.setSign r (s.obj u).sign).obj y = s.obj y := hw.obj
  simp only [divRemainder, hright]
  generalize s.setSign r (s.obj u).sign = w at hw hself hobj hmag hother ⊢
  obtain ⟨h1, h2, h3⟩ := rightBody_result (k := sh) (b := u) hw.ok (hr.trans_le hw.next_le)
    (by rw [hobj]; omega) (by rw [hself]; exact hs)
  rw [hself, hmag] at h3
  generalize rightBody w u sh r = w' at h1 h2 h3 ⊢
  have hmag' : w'.mag r = s.mag u / 2 ^ sh := by
    rw [← h2.natAbs_int, h3, Int.natAbs_mul, Int.natAbs_natCast]
    rcases hs with h | h <;> rw [h] <;> exact Nat.one_mul _
  have hself' : (w'.setSign r (w'.obj dividend).sign).obj r =
      { w'.obj r with sign := (w'.obj dividend).sign } := Heap.setObj_self _ _ _
  refine ⟨hw.trans (h1.trans (Heap.Writes.setSign h1.ok ((hr.trans_le hw.next_le).trans_le
    h1.next_le) _)), fun n hn => ?_, ?_, ?_⟩
  · rw [hself'] at hn ⊢
    exact h2.trimmed n hn
  · rw [Heap.mag, hself']
    exact hmag'
  · rw [hself']
    rcases eq_or_ne r dividend with rfl | hne
    · rw [if_pos rfl]
      by_cases h0 : s.mag u / 2 ^ sh = 0
      · rw [if_pos h0]
        exact h2.zero (h2.trimmed.mag_eq_zero.1 (hmag'.trans h0))
      · rw [if_neg h0]
        have hsign := h2.sign_eq
        rw [h3] at hsign
        rw [hsign]
        have hpos : 0 < ((s.mag u / 2 ^ sh : ℕ) : ℤ) := by omega
        rcases hs with h | h
        · rw [h, one_mul, if_neg (by omega)]
        · rw [h, neg_one_mul, if_pos (by omega)]
    · rw [if_neg hne, h1.obj dividend hne.symm, hother dividend hne.symm]

/-! ### The end -/

theorem divRoom_spec (u v : Ref) (hok : s.Ok) (hq : ∀ x, quotient = some x → x < s.next) :
    (divRoom s u v quotient).Ok ∧ (divRoom s u v quotient).next = s.next ∧
      (∀ y, quotient ≠ some y → Heap.Keeps s (divRoom s u v quotient) y) ∧
      ∀ x, quotient = some x → ((divRoom s u v quotient).obj x).sign = (s.obj x).sign ∧
        ((divRoom s u v quotient).obj x).top = (s.obj u).top - (s.obj v).top := by
  rcases quotient with _ | q
  · exact ⟨hok, rfl, fun y _ => Heap.Keeps.refl s y, fun x hx => absurd hx (some_ne_none x).symm⟩
  · have hroom := mpbits_spec hok (hq q rfl) ((((s.obj u).top - (s.obj v).top : ℕ) : ℤ) * 32)
    rw [digits_mul (((Nat.sub_le ..).trans (hok.top_le u)).trans (hok.size_le u))] at hroom
    simp only [divRoom]
    generalize mpbits s q ((((s.obj u).top - (s.obj v).top : ℕ) : ℤ) * 32) = w at hroom ⊢
    rw [Heap.need_eq hroom.size_ge]
    have hw : Heap.Writes w (w.setTop q ((s.obj u).top - (s.obj v).top)) q 0 :=
      Heap.Writes.setTop hroom.writes.ok (by rw [hroom.next]; exact hq q rfl) hroom.size_ge
    refine ⟨hw.ok, hroom.next, fun y hy => ?_, fun x hx => ?_⟩
    · exact (hroom.writes.trans hw).keeps hok fun h => hy (h ▸ rfl)
    · cases hx
      rw [Heap.setTop, Heap.setObj_self]
      exact ⟨hroom.sign, rfl⟩

theorem divQuotient_keeps (dividend divisor : Ref) (hok : s.Ok)
    (hq : ∀ x, quotient = some x → x < s.next ∧ 0 < s.mag x) :
    (divQuotient s dividend divisor quotient).Ok ∧
      s.next ≤ (divQuotient s dividend divisor quotient).next ∧
      ∀ y, quotient ≠ some y → Heap.Keeps s (divQuotient s dividend divisor quotient) y := by
  rcases quotient with _ | q
  · exact ⟨hok, le_rfl, fun y _ => Heap.Keeps.refl s y⟩
  · have h := (divQuotient_spec dividend divisor hok (hq q rfl).1
      (hq q rfl).2).1
    exact ⟨h.ok, h.next_le, fun y hy => h.keeps hok fun hyq => hy (hyq ▸ rfl)⟩

theorem divRemainder_keeps (dividend : Ref) (hok : s.Ok)
    (hr : ∀ x, remainder = some x → x < s.next ∧ x ≠ u)
    (hsh : sh < 32) (htop : 0 < (s.obj u).top)
    (hs : (s.obj u).sign = 1 ∨ (s.obj u).sign = -1) :
    (divRemainder s dividend u sh remainder).Ok ∧
      ∀ y, remainder ≠ some y → Heap.Keeps s (divRemainder s dividend u sh remainder) y := by
  rcases remainder with _ | r
  · exact ⟨hok, fun y _ => Heap.Keeps.refl s y⟩
  · have h := (divRemainder_spec dividend hok (hr r rfl).1 (hr r rfl).2 hsh htop hs).1
    exact ⟨h.ok, fun y hy => h.keeps hok fun hyr => hy (hyr ▸ rfl)⟩

theorem divFree_keeps (divisor u v t : Ref) (hok : s.Ok) : (divFree s divisor u v t).Ok ∧
      ∀ y, y ≠ t → y ≠ u → (y = v → v = divisor) → Heap.Keeps s (divFree s divisor u v t) y := by
  have h1 := mpfree_writes hok t
  have h2 := mpfree_writes h1.ok u
  rw [divFree]
  by_cases hv : v ≠ divisor
  · have h3 := mpfree_writes h2.ok v
    simp only [if_pos hv]
    exact ⟨h3.ok, fun y ht hu hyv => ((h1.keeps hok ht).trans (h2.keeps h1.ok hu)).trans
      (h3.keeps h2.ok fun h => hv (hyv h))⟩
  · simp only [if_neg hv]
    exact ⟨h2.ok, fun y ht hu _ => (h1.keeps hok ht).trans (h2.keeps h1.ok hu)⟩

/-- What a division leaves, where the dividend is not smaller. -/
structure Ended (s s' : Heap) (dividend divisor : Ref) (quotient remainder : Option Ref) :
    Prop where
  ok : s'.Ok
  keeps : ∀ x < s.next, quotient ≠ some x → remainder ≠ some x → Heap.Keeps s s' x
  quot : ∀ x, quotient = some x →
    s'.Trimmed x ∧ s'.mag x = s.mag dividend / s.mag divisor ∧
      (s'.obj x).sign =
        if (s.obj dividend).sign ≠ (s.obj divisor).sign then -1 else (s.obj x).sign
  rem : ∀ x, remainder = some x →
    s'.Trimmed x ∧ s'.mag x = s.mag dividend % s.mag divisor ∧
      (s'.obj x).sign =
        if x = dividend then
          if s.mag dividend % s.mag divisor = 0 then 1 else (s.obj dividend).sign
        else if quotient = some dividend ∧ (s.obj dividend).sign ≠ (s.obj divisor).sign then -1
        else (s.obj dividend).sign

/-- What the loop leaves: the remainder, shifted, in `u`, and the digits of the quotient. -/
structure Looped (s s' : Heap) (dividend divisor u v t : Ref) (quotient : Option Ref) (sh : ℕ) :
    Prop where
  ok : s'.Ok
  next_le : s.next ≤ s'.next
  le_u : s.next ≤ u
  le_t : s.next ≤ t
  v_eq : v = divisor ∨ s.next ≤ v
  keeps : ∀ x < s.next, quotient ≠ some x → Heap.Keeps s s' x
  sign : ∀ x < s.next, (s'.obj x).sign = (s.obj x).sign
  quot : ∀ x, quotient = some x → s'.mag x = s.mag dividend / s.mag divisor
  rem : s'.mag u = s.mag dividend % s.mag divisor * 2 ^ sh
  u_sign : (s'.obj u).sign = (s.obj dividend).sign
  u_top : 0 < (s'.obj u).top

/-- The long division, up to the end of its loop. -/
theorem divLong_loop (remainder : Option Ref) (hok : s.Ok) (hr1 : dividend < s.next)
    (hr2 : divisor < s.next) (hq : ∀ x, quotient = some x → x < s.next) (h1 : s.Normal dividend)
    (h2 : s.Normal divisor) (hpos : 0 < s.mag divisor) (hle : s.mag divisor ≤ s.mag dividend)
    (hsh : sh < 32) (hfits : ((s.obj dividend).top + 2) * 32 + 62 < 2 ^ 31) :
    ∃ s' u v t, Looped s s' dividend divisor u v t quotient sh ∧
      divLong s dividend divisor quotient remainder sh = some (divFree (divRemainder
        (divQuotient s' dividend divisor quotient) dividend u sh remainder) divisor u v t) := by
  have htop : (s.obj divisor).top ≤ (s.obj dividend).top := by
    by_contra hlt
    exact absurd (mag_lt_of_top_lt h2.trimmed (Nat.lt_of_not_le hlt)) (Nat.not_lt_of_le hle)
  have hcop := divCopies_spec quotient remainder hok hr1 hr2 h1 h2 hsh htop hfits
  rw [divLong]
  generalize (divCopies s dividend divisor quotient remainder sh).2.1 = u at hcop ⊢
  generalize (divCopies s dividend divisor quotient remainder sh).2.2 = v at hcop ⊢
  generalize (divCopies s dividend divisor quotient remainder sh).1 = s1 at hcop ⊢
  have hP : 0 < 2 ^ sh := Nat.two_pow_pos sh
  have humag : s1.mag u = s.mag dividend * 2 ^ sh := by
    rw [← hcop.u_normal.natAbs_int, hcop.u_int, Int.natAbs_mul, h1.natAbs_int, Int.natAbs_pow]
    rfl
  have hvpos : 0 < s1.mag v := by
    rw [hcop.v_mag]
    exact Nat.mul_pos hpos hP
  have husign : (s1.obj u).sign = (s.obj dividend).sign := by
    have hlt : s1.int u < 0 ↔ s.int dividend < 0 := by
      rw [hcop.u_int]
      have h0 : (0 : ℤ) < 2 ^ sh := by positivity
      exact ⟨fun h => neg_of_mul_neg_left h h0.le, fun h => mul_neg_of_neg_of_pos h h0⟩
    rw [hcop.u_normal.sign_eq, h1.sign_eq]
    simp only [hlt]
  -- the high digit
  obtain ⟨hw2, hn2, hs2, hm2, htop2, hsz2, hwin2⟩ := divHigh_spec hcop.ok hcop.u_lt hcop.v_trimmed
    hvpos (by rw [hcop.v_mag, humag]; exact Nat.mul_le_mul_right _ hle) hcop.u_size
  generalize divHigh s1 u v = s2 at hw2 hn2 hs2 hm2 htop2 hsz2 hwin2 ⊢
  have hk2 : ∀ x, x ≠ u → Heap.Keeps s1 s2 x := fun x hx => hw2.keeps hcop.ok hx
  have hv2 := hk2 v hcop.u_ne_v.symm
  -- storage for multiplies
  have hnew := mpnew_writes hw2.ok (x := 128) (by decide)
  have hsize3 := mpnew_size s2 128
  have hlt3 : s2.next < (mpnew s2 128).next := Nat.lt_succ_self s2.next
  rw [digits_toNat (by decide) (by decide)] at hsize3
  generalize ht : s2.next = t at hnew hsize3 hlt3 ⊢
  generalize mpnew s2 128 = s3 at hnew hsize3 hlt3 ⊢
  have hut : u < t := by rw [← ht, hn2]; exact hcop.u_lt
  have hvt : v < t := by rw [← ht, hn2]; exact hcop.v_lt
  have hst : s.next ≤ t := by rw [← ht, hn2]; exact hcop.next_le
  have hk3 : ∀ x < t, Heap.Keeps s2 s3 x := fun x hx => hnew.keeps hw2.ok hx.ne
  -- room for the quotient
  have hqne : ∀ x, quotient = some x → x ≠ u ∧ x ≠ v ∧ x ≠ t := fun x hx =>
    ⟨((hq x hx).trans_le hcop.le_u).ne, hcop.ne_v x (Or.inl hx) (hq x hx),
      ((hq x hx).trans_le hst).ne⟩
  have hu3 := hk3 u hut
  have hv3 := hk3 v hvt
  obtain ⟨hok4, hn4, hk4, hq4⟩ := divRoom_spec u v hnew.ok
    (fun x hx => ((hq x hx).trans_le hst).trans hlt3)
  generalize divRoom s3 u v quotient = s4 at hok4 hn4 hk4 hq4 ⊢
  have hu4 : Heap.Keeps s2 s4 u := hu3.trans (hk4 u fun h => (hqne u h).1 rfl)
  have hv4 : Heap.Keeps s1 s4 v := hv2.trans (hv3.trans (hk4 v fun h => (hqne v h).2.1 rfl))
  have ht4 := hk4 t fun h => (hqne t h).2.2 rfl
  have hvt4 := hv4.trimmed hcop.ok hcop.v_trimmed
  have hvm4 := hv4.mag_eq hcop.ok
  have hum4 := hu4.mag_eq hw2.ok
  -- the loop
  obtain ⟨s5, h5, hok5, hn5, hk5, hu5, hum5, hq5⟩ := divDigits_spec hok4
    (by rw [hn4]; exact hut.trans hlt3) hcop.u_ne_v hut.ne' hvt.ne'
    (fun x hx => ⟨(hqne x hx).1, (hqne x hx).2.1, (hqne x hx).2.2, by
      rw [(hq4 x hx).2, hu3.obj, hv3.obj, hu4.obj, hv4.obj, hv2.obj]⟩)
    (by rw [ht4.obj]; exact le_trans (by decide) hsize3) hvt4
    (Nat.pos_of_ne_zero fun h0 => by
      rw [← hvm4, hvt4.mag_eq_zero.2 h0] at hvpos
      exact Nat.lt_irrefl 0 hvpos)
    (by rw [hu4.obj, hv4.obj]; exact htop2.le) (by rw [hu4.obj]; exact hsz2)
    (by
      rw [hu4.obj, hv4.obj, hvm4, ← hv4.obj] at *
      refine lt_of_eq_of_lt (Digits.val_frame fun j hj hj' => hu4.digit j ?_ ?_) hwin2 <;> omega)
  have hmul : s.mag dividend * 2 ^ sh % (s.mag divisor * 2 ^ sh) =
      s.mag dividend % s.mag divisor * 2 ^ sh := Nat.mul_mod_mul_right _ _ _
  rw [hum4, hm2, humag, hvm4, hcop.v_mag, hmul] at hum5
  -- the objects that were there before, up to the end of the loop
  have hold : ∀ x < s.next, quotient ≠ some x → Heap.Keeps s s5 x := fun x hx hxq =>
    ((((hcop.keeps x hx).trans (hk2 x (hx.trans_le hcop.le_u).ne)).trans
      (hk3 x (hx.trans_le hst))).trans (hk4 x hxq)).trans
        (hk5 x (hx.trans_le hcop.le_u).ne (hx.trans_le hst).ne hxq)
  refine ⟨s5, u, v, t, ⟨hok5, ?_, hcop.le_u, hst, hcop.v_eq, hold, fun x hx => ?_, fun x hx => ?_,
    hum5, ?_, ?_⟩, by rw [h5]; rfl⟩
  · rw [hn5, hn4]
    exact hst.trans hlt3.le
  · by_cases hxq : quotient = some x
    · rw [(hq5 x hxq).1, (hq4 x hxq).1, (hk3 x (hx.trans_le hst)).obj,
        (hk2 x (hx.trans_le hcop.le_u).ne).obj, (hcop.keeps x hx).obj]
    · rw [(hold x hx hxq).obj]
  · rw [(hq5 x hx).2, hum4, hm2, humag, hvm4, hcop.v_mag, Nat.mul_div_mul_right _ _ hP]
  · rw [hu5, hu4.obj, hs2, husign]
  · rw [hu5]
    refine Nat.pos_of_ne_zero fun h0 => ?_
    rw [← hvm4, hvt4.mag_eq_zero.2 h0] at hvpos
    exact Nat.lt_irrefl 0 hvpos

/-- **The long division.** -/
theorem divLong_spec (hok : s.Ok) (hr1 : dividend < s.next) (hr2 : divisor < s.next)
    (hq : ∀ x, quotient = some x → x < s.next) (hr : ∀ x, remainder = some x → x < s.next)
    (hqr : ∀ x, quotient = some x → remainder ≠ some x) (h1 : s.Normal dividend)
    (h2 : s.Normal divisor) (hpos : 0 < s.mag divisor) (hle : s.mag divisor ≤ s.mag dividend)
    (hsh : sh < 32) (hfits : ((s.obj dividend).top + 2) * 32 + 62 < 2 ^ 31) :
    ∃ s', divLong s dividend divisor quotient remainder sh = some s' ∧
      Ended s s' dividend divisor quotient remainder := by
  obtain ⟨s5, u, v, t, hl, hlong⟩ :=
    divLong_loop remainder hok hr1 hr2 hq h1 h2 hpos hle hsh hfits
  rw [hlong]
  have hqpos : 0 < s.mag dividend / s.mag divisor := Nat.div_pos hle hpos
  have hq5' : ∀ x, quotient = some x → x < s5.next ∧ 0 < s5.mag x := fun x hx =>
    ⟨(hq x hx).trans_le hl.next_le, by rw [hl.quot x hx]; exact hqpos⟩
  -- the quotient
  obtain ⟨hok6, hn6, hk6⟩ := divQuotient_keeps dividend divisor hl.ok hq5'
  have hq6 : ∀ x, quotient = some x → (divQuotient s5 dividend divisor quotient).Trimmed x ∧
      (divQuotient s5 dividend divisor quotient).mag x = s.mag dividend / s.mag divisor ∧
      ((divQuotient s5 dividend divisor quotient).obj x).sign =
        if (s.obj dividend).sign ≠ (s.obj divisor).sign then -1 else (s.obj x).sign := by
    intro x hx
    obtain ⟨-, h6, h7, h8⟩ := divQuotient_spec dividend divisor hl.ok
      (hq5' x hx).1 (hq5' x hx).2
    rw [hx]
    rw [hl.sign dividend hr1, hl.sign divisor hr2, hl.sign x (hq x hx)] at h8
    exact ⟨h6, h7.trans (hl.quot x hx), h8⟩
  generalize divQuotient s5 dividend divisor quotient = s6 at hok6 hn6 hk6 hq6 ⊢
  have hu6 := hk6 u fun h => absurd (hq u h) (Nat.not_lt_of_le hl.le_u)
  have hum6 : s6.mag u / 2 ^ sh = s.mag dividend % s.mag divisor := by
    rw [hu6.mag_eq hl.ok, hl.rem, Nat.mul_div_cancel _ (Nat.two_pow_pos sh)]
  have hus6 : (s6.obj u).sign = (s.obj dividend).sign := by
    rw [hu6.obj, hl.u_sign]
  have hut6 : 0 < (s6.obj u).top := by
    rw [hu6.obj]
    exact hl.u_top
  have hdsign6 : (s6.obj dividend).sign =
      if quotient = some dividend ∧ (s.obj dividend).sign ≠ (s.obj divisor).sign then -1
      else (s.obj dividend).sign := by
    by_cases hqd : quotient = some dividend
    · rw [(hq6 dividend hqd).2.2]
      simp only [hqd, true_and]
    · rw [if_neg fun h => hqd h.1, (hk6 dividend hqd).obj, hl.sign dividend hr1]
  -- the remainder
  have hr6 : ∀ x, remainder = some x → x < s6.next ∧ x ≠ u := fun x hx =>
    ⟨((hr x hx).trans_le hl.next_le).trans_le hn6, ((hr x hx).trans_le hl.le_u).ne⟩
  have hsu6 : (s6.obj u).sign = 1 ∨ (s6.obj u).sign = -1 := by
    rw [hus6]
    exact h1.sign
  obtain ⟨hok7, hk7⟩ := divRemainder_keeps dividend hok6 hr6 hsh hut6 hsu6
  have hr7 : ∀ x, remainder = some x → (divRemainder s6 dividend u sh remainder).Trimmed x ∧
      (divRemainder s6 dividend u sh remainder).mag x = s.mag dividend % s.mag divisor ∧
      ((divRemainder s6 dividend u sh remainder).obj x).sign = if x = dividend then
          if s.mag dividend % s.mag divisor = 0 then 1 else (s.obj dividend).sign
        else if quotient = some dividend ∧ (s.obj dividend).sign ≠ (s.obj divisor).sign then -1
        else (s.obj dividend).sign := by
    intro x hx
    obtain ⟨-, h6, h7, h8⟩ := divRemainder_spec dividend hok6 (hr6 x hx).1
      (hr6 x hx).2 hsh hut6 hsu6
    rw [hx]
    rw [hum6, hus6, hdsign6] at h8
    exact ⟨h6, h7.trans hum6, h8⟩
  generalize divRemainder s6 dividend u sh remainder = s7 at hok7 hk7 hr7 ⊢
  -- what is given back was not there before
  obtain ⟨hok8, hk8⟩ := divFree_keeps divisor u v t hok7
  have hk8' : ∀ x < s.next, Heap.Keeps s7 (divFree s7 divisor u v t) x := fun x hx =>
    hk8 x (hx.trans_le hl.le_t).ne (hx.trans_le hl.le_u).ne fun hxv =>
      hl.v_eq.resolve_right fun h => absurd (hxv ▸ hx) (Nat.not_lt_of_le h)
  refine ⟨_, rfl, hok8, fun x hx hxq hxr => ?_, fun x hx => ?_, fun x hx => ?_⟩
  · exact (((hl.keeps x hx hxq).trans (hk6 x hxq)).trans (hk7 x hxr)).trans (hk8' x hx)
  · obtain ⟨h6, h7, h8⟩ := hq6 x hx
    have hk := (hk7 x (hqr x hx)).trans (hk8' x (hq x hx))
    exact ⟨hk.trimmed hok6 h6, (hk.mag_eq hok6).trans h7, by rw [hk.obj, h8]⟩
  · obtain ⟨h6, h7, h8⟩ := hr7 x hx
    have hk := hk8' x (hr x hx)
    exact ⟨hk.trimmed hok7 h6, (hk.mag_eq hok7).trans h7, by rw [hk.obj, h8]⟩

/-! ### Exact division -/

/-- Quotient and remainder of whole numbers: the remainder is zero or has the sign of the
dividend. -/
def TruncDiv (a b q r : ℤ) : Prop := a = q * b + r ∧ |r| < |b| ∧ (r = 0 ∨ r.sign = a.sign)

theorem truncDiv_self {a c : ℤ} (hc : c ≠ 0) : TruncDiv a c (a.tdiv c) (a.tmod c) := by
  have h := Int.mul_tdiv_add_tmod a c
  rw [TruncDiv, Int.abs_eq_natAbs, Int.abs_eq_natAbs]
  rcases lt_trichotomy a 0 with ha | rfl | ha
  · obtain ⟨-, h2, h3⟩ := (Int.tdiv_tmod_unique' ha.le hc).1 ⟨rfl, rfl⟩
    refine ⟨by rw [Int.mul_comm, h], by omega, ?_⟩
    rcases h3.eq_or_lt with h4 | h4
    · exact Or.inl h4
    · exact Or.inr (by rw [Int.sign_eq_neg_one_of_neg h4, Int.sign_eq_neg_one_of_neg ha])
  · refine ⟨by rw [Int.mul_comm, h], ?_, Or.inl (Int.zero_tmod c)⟩
    rw [Int.zero_tmod]
    omega
  · obtain ⟨-, h2, h3⟩ := (Int.tdiv_tmod_unique ha.le hc).1 ⟨rfl, rfl⟩
    refine ⟨by rw [Int.mul_comm, h], by omega, ?_⟩
    rcases h2.eq_or_lt with h4 | h4
    · exact Or.inl h4.symm
    · exact Or.inr (by rw [Int.sign_eq_one_of_pos h4, Int.sign_eq_one_of_pos ha])

/-- Quotient and remainder are unique. -/
theorem TruncDiv.unique {a c q y : ℤ} (hc : c ≠ 0) (h : TruncDiv a c q y) :
    a.tdiv c = q ∧ a.tmod c = y := by
  rw [TruncDiv, Int.abs_eq_natAbs, Int.abs_eq_natAbs] at h
  obtain ⟨h1, h2, h3⟩ := h
  rw [Int.mul_comm] at h1
  rcases le_total 0 a with ha | ha
  · have hy : 0 ≤ y := by
      rcases h3 with h3 | h3
      · exact h3.ge
      · exact Int.sign_nonneg_iff.1 (h3 ▸ Int.sign_nonneg_iff.2 ha)
    exact (Int.tdiv_tmod_unique ha hc).2 ⟨by omega, hy, by omega⟩
  · have hy : y ≤ 0 := by
      rcases h3 with h3 | h3
      · exact h3.le
      · exact Int.sign_nonpos_iff.1 (h3 ▸ Int.sign_nonpos_iff.2 ha)
    exact (Int.tdiv_tmod_unique' ha hc).2 ⟨by omega, by omega, hy⟩

/-- The remainder by the absolute values. -/
theorem tmod_eq (h1 : s.Normal dividend) (h2 : s.Normal divisor) :
    (s.int dividend).tmod (s.int divisor) =
      (s.obj dividend).sign * (s.mag dividend % s.mag divisor : ℕ) := by
  rw [Heap.int, Heap.int]
  rcases h1.sign with e1 | e1 <;> rcases h2.sign with e2 | e2 <;> rw [e1, e2] <;>
    simp only [one_mul, neg_one_mul, Int.neg_tmod, Int.tmod_neg, Int.ofNat_tmod]

/-- The quotient by the absolute values. -/
theorem tdiv_eq (h1 : s.Normal dividend) (h2 : s.Normal divisor) :
    (s.int dividend).tdiv (s.int divisor) =
      (if (s.obj dividend).sign ≠ (s.obj divisor).sign then -1 else 1) *
        (s.mag dividend / s.mag divisor : ℕ) := by
  rw [Heap.int, Heap.int]
  rcases h1.sign with e1 | e1 <;> rcases h2.sign with e2 | e2 <;> rw [e1, e2] <;>
    simp [Int.neg_tdiv, Int.tdiv_neg]

/-- The operands and results of a division; a result that is absent is `none`. -/
structure Operands (s : Heap) (dividend divisor : Ref) (quotient remainder : Option Ref) :
    Prop where
  ok : s.Ok
  dividend_lt : dividend < s.next
  divisor_lt : divisor < s.next
  quotient_lt : ∀ x, quotient = some x → x < s.next
  remainder_lt : ∀ x, remainder = some x → x < s.next
  apart : ∀ x, quotient = some x → remainder ≠ some x
  dividend_normal : s.Normal dividend
  divisor_normal : s.Normal divisor
  divisor_ne : s.int divisor ≠ 0
  /-- An `int` counts the bits of the shifted dividend, rounded up to digits. -/
  dividend_fits : ((s.obj dividend).top + 2) * 32 + 31 + 31 < 2 ^ 31

section

variable (h : Operands s dividend divisor quotient remainder)

include h

theorem Operands.mag_pos :
    0 < s.mag divisor := by
  rw [← h.divisor_normal.natAbs_int]
  exact Int.natAbs_pos.2 h.divisor_ne

theorem Operands.top_ne :
    (s.obj divisor).top ≠ 0 :=
  fun h0 => h.divisor_ne (h.divisor_normal.int_eq_zero.2 h0)

/-- **What `mpdiv` leaves,** where the dividend is not smaller. -/
theorem mpdiv_end
    (hle : s.mag divisor ≤ s.mag dividend) :
    ∃ s', mpdiv s dividend divisor quotient remainder = some s' ∧
      Ended s s' dividend divisor quotient remainder := by
  have hcmp := mpmagcmp_sign h.dividend_normal.trimmed h.divisor_normal.trimmed
  have hge : ¬mpmagcmp s dividend divisor < 0 := fun hlt => by
    rw [Int.sign_eq_neg_one_of_neg hlt] at hcmp
    have h1 := Int.neg_of_sign_eq_neg_one hcmp.symm
    omega
  obtain ⟨n, hn⟩ := Nat.exists_eq_succ_of_ne_zero h.top_ne
  have htop : s.mem ((s.obj divisor).p + (s.obj divisor).top - 1) ≠ 0 := by
    rw [hn]
    exact h.divisor_normal.trimmed n hn
  have hpos : 2 ^ (32 - 32) ≤ (s.mem ((s.obj divisor).p + (s.obj divisor).top - 1)).toNat :=
    Nat.one_le_iff_ne_zero.2 fun h0 => htop (UInt32.toNat_inj.1 h0)
  obtain ⟨sh, hsh, hcount⟩ := shiftCount_spec le_rfl hpos
  rw [mpdiv, if_neg h.top_ne, if_neg hge, hcount, bind_some]
  exact divLong_spec h.ok h.dividend_lt h.divisor_lt h.quotient_lt h.remainder_lt h.apart
    h.dividend_normal h.divisor_normal h.mag_pos hle hsh h.dividend_fits

end

/-- **Exact division:** `mpdiv` ends, leaves the other objects as they are, and the results that
are there are normalized, and quotient and remainder. -/
def DivExact (s : Heap) (dividend divisor : Ref) (quotient remainder : Option Ref) : Prop :=
  ∃ s', mpdiv s dividend divisor quotient remainder = some s' ∧ s'.Ok ∧
    (∀ x < s.next, quotient ≠ some x → remainder ≠ some x → Heap.Keeps s s' x) ∧
    ∃ q y, TruncDiv (s.int dividend) (s.int divisor) q y ∧
      (∀ x, quotient = some x → s'.Normal x ∧ s'.int x = q) ∧
      ∀ x, remainder = some x → s'.Normal x ∧ s'.int x = y

/-- A dividend that is smaller. -/
theorem mpdiv_quick (h : Operands s dividend divisor quotient remainder)
    (hlt : s.mag dividend < s.mag divisor) :
    mpdiv s dividend divisor quotient remainder = some (divQuick s dividend quotient remainder) ∧
      DivExact s dividend divisor quotient remainder := by
  have hcmp := mpmagcmp_sign h.dividend_normal.trimmed h.divisor_normal.trimmed
  have hneg : mpmagcmp s dividend divisor < 0 := by
    rw [Int.sign_eq_neg_one_of_neg (a := (s.mag dividend : ℤ) - _) (by omega)] at hcmp
    exact Int.neg_of_sign_eq_neg_one hcmp
  have heq : mpdiv s dividend divisor quotient remainder =
      some (divQuick s dividend quotient remainder) := by
    rw [mpdiv, if_neg h.top_ne, if_pos hneg]
  have htd : TruncDiv (s.int dividend) (s.int divisor) 0 (s.int dividend) := by
    refine ⟨by rw [zero_mul, zero_add], ?_, Or.inr rfl⟩
    rw [Int.abs_eq_natAbs, Int.abs_eq_natAbs, h.dividend_normal.natAbs_int,
      h.divisor_normal.natAbs_int]
    exact_mod_cast hlt
  refine ⟨heq, _, heq, ?_⟩
  -- the remainder first
  obtain ⟨s1, hs1, hok1, hnext1, hk1, hr1⟩ : ∃ s1, quickRemainder s dividend remainder = s1 ∧
      s1.Ok ∧ s.next ≤ s1.next ∧
      (∀ x, remainder ≠ some x → Heap.Keeps s s1 x) ∧
      ∀ x, remainder = some x → s1.Normal x ∧ s1.int x = s.int dividend := by
    rcases remainder with _ | r
    · exact ⟨s, rfl, h.ok, le_rfl, fun x _ => Heap.Keeps.refl s x,
        fun x hx => absurd hx (some_ne_none x).symm⟩
    · have hres := mpassign_result h.ok (h.remainder_lt r rfl) h.dividend_normal
      refine ⟨_, rfl, hres.writes.ok, hres.writes.next_le,
        fun x hx => hres.writes.keeps h.ok fun hxr => hx (hxr ▸ rfl), fun x hx => ?_⟩
      cases hx
      exact ⟨hres.normal, hres.int⟩
  rw [divQuick, hs1]
  rcases quotient with _ | q
  · exact ⟨hok1, fun x _ _ hxr => hk1 x hxr, 0, _, htd,
      fun x hx => absurd hx (some_ne_none x).symm, hr1⟩
  · have hres := mpassignZero_result hok1 ((h.quotient_lt q rfl).trans_le hnext1)
    refine ⟨hres.writes.ok, fun x _ hxq hxr => (hk1 x hxr).trans
      (hres.writes.keeps hok1 fun hx => hxq (hx ▸ rfl)), 0, _, htd, fun x hx => ?_, fun x hx => ?_⟩
    · cases hx
      exact ⟨hres.normal, hres.int⟩
    · have hne : x ≠ q := fun hxq => h.apart q rfl (hxq ▸ hx)
      have hk := hres.writes.keeps hok1 hne
      exact ⟨hk.normal hok1 (hr1 x hx).1, (hk.int_eq hok1).trans (hr1 x hx).2⟩

/-- A number without leading zeros and with a sign that it may have. -/
theorem Heap.Trimmed.normal (ht : s.Trimmed r) (hs : (s.obj r).sign = 1 ∨ (s.obj r).sign = -1)
    (h0 : s.mag r = 0 → (s.obj r).sign = 1) : s.Normal r :=
  ⟨hs, fun h => h0 (ht.mag_eq_zero.2 h), ht⟩

/-- The results of a long division have the right signs: the quotient had sign `1` before, if its
sign is not set; and the sign of the remainder, if it is not the dividend, is neither that of a
quotient written over the dividend, nor that of a negative multiple. -/
def SignsOk (s : Heap) (dividend divisor : Ref) (quotient remainder : Option Ref) : Prop :=
  (∀ x, quotient = some x → (s.obj dividend).sign = (s.obj divisor).sign → (s.obj x).sign = 1) ∧
    ∀ x, remainder = some x → x ≠ dividend →
      ¬(quotient = some dividend ∧ 0 < s.int dividend ∧ s.int divisor < 0) ∧
        ¬(s.int dividend < 0 ∧ s.int divisor ∣ s.int dividend)

theorem dvd_iff_mod (h1 : s.Normal dividend) (h2 : s.Normal divisor) :
    s.int divisor ∣ s.int dividend ↔ s.mag dividend % s.mag divisor = 0 := by
  rw [← Int.natAbs_dvd_natAbs, h1.natAbs_int, h2.natAbs_int, Nat.dvd_iff_mod_eq_zero]

/-- **`mpdiv` is exact** if and only if the dividend is smaller or the signs come out right. -/
theorem mpdiv_exact_iff (h : Operands s dividend divisor quotient remainder) :
    DivExact s dividend divisor quotient remainder ↔
      |s.int dividend| < |s.int divisor| ∨ SignsOk s dividend divisor quotient remainder := by
  have h1 := h.dividend_normal
  have h2 := h.divisor_normal
  have habs : |s.int dividend| < |s.int divisor| ↔ s.mag dividend < s.mag divisor := by
    rw [Int.abs_eq_natAbs, Int.abs_eq_natAbs, h1.natAbs_int, h2.natAbs_int]
    exact Nat.cast_lt
  rw [habs]
  rcases Nat.lt_or_ge (s.mag dividend) (s.mag divisor) with hlt | hle
  · exact ⟨fun _ => Or.inl hlt, fun _ => (mpdiv_quick h hlt).2⟩
  rw [or_iff_right (Nat.not_lt_of_le hle)]
  obtain ⟨s', heq, hend⟩ := mpdiv_end h hle
  have hpos : 0 < s.mag dividend := h.mag_pos.trans_le hle
  have hqpos : 0 < s.mag dividend / s.mag divisor := Nat.div_pos hle h.mag_pos
  have htd := truncDiv_self (a := s.int dividend) h.divisor_ne
  have hsign1 : (s.obj dividend).sign = -1 ↔ s.int dividend < 0 := by
    rw [h1.sign_eq]
    split <;> omega
  have hsign2 : (s.obj divisor).sign = -1 ↔ s.int divisor < 0 := by
    rw [h2.sign_eq]
    split <;> omega
  have hne1 : s.int dividend ≠ 0 := fun h0 => by
    rw [← h1.natAbs_int, h0] at hpos
    exact Nat.lt_irrefl 0 hpos
  constructor
  · rintro ⟨s'', heq', -, -, q, y, htd', hq, hr⟩
    obtain rfl : s' = s'' := some.inj (heq.symm.trans heq')
    obtain ⟨rfl, rfl⟩ := htd'.unique h.divisor_ne
    refine ⟨fun x hx hs => ?_, fun x hx hxd => ?_⟩
    · obtain ⟨hn, hint⟩ := hq x hx
      obtain ⟨-, -, hsx⟩ := hend.quot x hx
      rw [if_neg (not_not.2 hs)] at hsx
      rw [tdiv_eq h1 h2, if_neg (not_not.2 hs), one_mul] at hint
      rw [← hsx, hn.sign_eq, if_neg (by omega)]
    · obtain ⟨hn, hint⟩ := hr x hx
      obtain ⟨-, -, hsx⟩ := hend.rem x hx
      rw [if_neg hxd] at hsx
      rw [tmod_eq h1 h2] at hint
      have hnsign := hn.sign_eq
      refine ⟨fun ⟨hqd, hd, hv⟩ => ?_, fun ⟨hd, hdvd⟩ => ?_⟩
      · have e1 : (s.obj dividend).sign = 1 :=
          h1.sign.resolve_right fun e => absurd (hsign1.1 e) (not_lt.2 hd.le)
        have e2 := hsign2.2 hv
        rw [if_pos ⟨hqd, by rw [e1, e2]; decide⟩] at hsx
        rw [e1, one_mul] at hint
        rw [hsx, if_neg (by omega)] at hnsign
        omega
      · rw [(dvd_iff_mod h1 h2).1 hdvd, Nat.cast_zero, mul_zero] at hint
        rw [if_neg (by omega)] at hnsign
        rw [hnsign, hsign1.2 hd] at hsx
        split at hsx <;> omega
  · rintro ⟨hq, hr⟩
    refine ⟨s', heq, hend.ok, hend.keeps, _, _, htd, fun x hx => ?_, fun x hx => ?_⟩
    · obtain ⟨ht, hm, hsx⟩ := hend.quot x hx
      have hsx' : (s'.obj x).sign =
          if (s.obj dividend).sign ≠ (s.obj divisor).sign then -1 else 1 := by
        rw [hsx]
        by_cases hs : (s.obj dividend).sign = (s.obj divisor).sign
        · rw [if_neg (not_not.2 hs), if_neg (not_not.2 hs), hq x hx hs]
        · rw [if_pos hs, if_pos hs]
      refine ⟨ht.normal ?_ fun h0 => absurd h0 (by rw [hm]; exact hqpos.ne'), ?_⟩
      · rw [hsx']
        split
        · exact Or.inr rfl
        · exact Or.inl rfl
      · rw [Heap.int, hm, hsx', tdiv_eq h1 h2]
    · obtain ⟨ht, hm, hsx⟩ := hend.rem x hx
      have hsx' : (s'.obj x).sign = (s.obj dividend).sign ∨
          s.mag dividend % s.mag divisor = 0 ∧ (s'.obj x).sign = 1 := by
        rcases eq_or_ne x dividend with hxd | hxd
        · rw [if_pos hxd] at hsx
          by_cases h0 : s.mag dividend % s.mag divisor = 0
          · rw [if_pos h0] at hsx
            exact Or.inr ⟨h0, hsx⟩
          · rw [if_neg h0] at hsx
            exact Or.inl hsx
        · rw [if_neg hxd] at hsx
          by_cases hqd : quotient = some dividend ∧ (s.obj dividend).sign ≠ (s.obj divisor).sign
          · -- then the dividend is negative anyway
            rw [if_pos hqd] at hsx
            refine Or.inl (hsx.trans (Eq.symm (h1.sign.resolve_left fun e1 => ?_)))
            have e2 : (s.obj divisor).sign = -1 :=
              h2.sign.resolve_left fun e2 => hqd.2 (e1.trans e2.symm)
            refine (hr x hx hxd).1 ⟨hqd.1, ?_, hsign2.1 e2⟩
            rw [Heap.Normal.int_of_pos e1]
            exact_mod_cast hpos
          · rw [if_neg hqd] at hsx
            exact Or.inl hsx
      have hzero : s.mag dividend % s.mag divisor = 0 → (s'.obj x).sign = 1 := fun h0 => by
        rcases hsx' with hs | ⟨-, hs⟩
        · rcases eq_or_ne x dividend with hxd | hxd
          · rw [hsx, if_pos hxd, if_pos h0]
          · rw [hs]
            refine h1.sign.resolve_right fun e1 => (hr x hx hxd).2 ⟨hsign1.1 e1, ?_⟩
            exact (dvd_iff_mod h1 h2).2 h0
        · exact hs
      refine ⟨ht.normal ?_ fun h0 => hzero (by rw [← hm, h0]), ?_⟩
      · rcases hsx' with hs | ⟨-, hs⟩
        · rw [hs]
          exact h1.sign
        · exact Or.inl hs
      · rw [Heap.int, hm, tmod_eq h1 h2]
        rcases hsx' with hs | ⟨h0, -⟩
        · rw [hs]
        · rw [h0, Nat.cast_zero, mul_zero, mul_zero]

/-! ### `mpmod` -/

/-- **The residue:** `mpmod` ends, leaves the other objects as they are, and the remainder is
normalized, congruent, not negative and less than the modulus. -/
def ModExact (s : Heap) (b m r : Ref) : Prop :=
  ∃ s', mpmod s b m r = some s' ∧ s'.Ok ∧ (∀ x < s.next, x ≠ r → Heap.Keeps s s' x) ∧
    s'.Normal r ∧ 0 ≤ s'.int r ∧ s'.int r < s.int m ∧ s.int m ∣ s.int b - s'.int r

/-- A negative multiple, where the residue is neither operand, or a negative number that is no
multiple, where it is the modulus. -/
def ModFails (s : Heap) (b m r : Ref) : Prop :=
  s.int b < 0 ∧ (s.int m ∣ s.int b ∧ r ≠ m ∧ r ≠ b ∨ ¬s.int m ∣ s.int b ∧ r = m)

/-- `mpmod` after a division that left a negative remainder. -/
theorem mpmod_negative {s1 : Heap} (h : Operands s b m none (some r)) (hpos : 0 < s.int m)
    (heq : mpdiv s b m none (some r) = some s1) (hok : s1.Ok)
    (hk : ∀ x < s.next, x ≠ r → Heap.Keeps s s1 x) (hn : s1.Normal r) (hneg : s1.int r < 0)
    (habs : |s1.int r| < |s.int m|) (hle : |s1.int r| ≤ |s.int b|)
    (hdvd : s.int m ∣ s.int b - s1.int r) : ModExact s b m r ↔ r ≠ m := by
  have hsign : (s1.obj r).sign < 0 := by
    rw [hn.sign_eq, if_pos hneg]
    decide
  have hmod : mpmod s b m r = some (mpadd s1 m r r) := by
    rw [mpmod, heq, map_some, if_pos hsign]
  have hr1 : r < s1.next := by
    by_contra hge
    rw [hok.unused r (Nat.le_of_not_lt hge)] at hsign
    exact absurd hsign (by decide)
  rw [Int.abs_eq_natAbs, Int.abs_eq_natAbs] at habs hle
  constructor
  · rintro ⟨s', heq', -, -, -, hge, -, -⟩ rfl
    obtain rfl := some.inj (hmod.symm.trans heq')
    have hfits : max (s1.obj r).top (s1.obj r).top < Heap.maxDigits := by
      have htop : (s1.obj r).top ≤ (s.obj b).top := hn.trimmed.top_le (by
        rw [hn.natAbs_int, h.dividend_normal.natAbs_int] at hle
        exact (Int.ofNat_le.1 hle).trans_lt (Digits.val_lt _ _ _))
      have hdividend := h.dividend_fits
      rw [Nat.max_self, Heap.maxDigits]
      omega
    rw [(mpadd_result hok hr1 hn hn fun _ => hfits).int] at hge
    omega
  · intro hrm
    have hkm := hk m h.divisor_lt hrm.symm
    have hnm := hkm.normal h.ok h.divisor_normal
    have hne : (s1.obj m).sign ≠ (s1.obj r).sign := by
      rw [hnm.sign_eq, hkm.int_eq h.ok, if_neg (not_lt.2 hpos.le)]
      omega
    have hres := mpadd_result hok hr1 hnm hn fun heq => absurd heq hne
    rw [hkm.int_eq h.ok] at hres
    refine ⟨_, hmod, hres.writes.ok, fun x hx hxr => (hk x hx hxr).trans
      (hres.writes.keeps hok hxr), hres.normal, ?_, ?_, ?_⟩
    · rw [hres.int]
      omega
    · rw [hres.int]
      omega
    · rw [hres.int, add_comm, ← sub_sub]
      exact Int.dvd_sub hdvd (Int.dvd_refl _)

/-- `mpmod` after a division that left a zero with a negative sign. -/
theorem mpmod_negative_zero {s1 : Heap} (h : Operands s b m none (some r)) (hpos : 0 < s.int m)
    (heq : mpdiv s b m none (some r) = some s1) (hok : s1.Ok)
    (hk : ∀ x < s.next, x ≠ r → Heap.Keeps s s1 x) (htop : (s1.obj r).top = 0)
    (hsign : (s1.obj r).sign = -1) (hdvd : s.int m ∣ s.int b) :
    ModExact s b m r ↔ r = m := by
  have hmod : mpmod s b m r = some (mpadd s1 m r r) := by
    rw [mpmod, heq, map_some, if_pos (by rw [hsign]; decide)]
  have hr1 : r < s1.next := by
    by_contra hge
    rw [hok.unused r (Nat.le_of_not_lt hge)] at hsign
    exact absurd hsign (by decide)
  constructor
  · rintro ⟨s', heq', -, -, -, -, hlt, -⟩
    obtain rfl := some.inj (hmod.symm.trans heq')
    by_contra hrm
    have hkm := hk m h.divisor_lt (Ne.symm hrm)
    have hnm := hkm.normal h.ok h.divisor_normal
    have hm1 : (s1.obj m).sign = 1 := by
      rw [hnm.sign_eq, hkm.int_eq h.ok, if_neg (not_lt.2 hpos.le)]
    have hmtop : (s1.obj m).top ≠ 0 := by
      rw [hkm.obj]
      exact h.top_ne
    -- the modulus is copied
    have hadd : mpadd s1 m r r = (mpassign s1 m r).setSign r 1 := by
      have hcmp : mpmagcmp s1 m r = (s1.obj m).top := by
        rw [mpmagcmp, htop, Nat.cast_zero, sub_zero, if_pos (by omega)]
      have h1 : ¬((s1.obj m).sign = (s1.obj r).sign) := by omega
      have h2 : ¬mpmagcmp s1 m r < 0 := by omega
      rw [mpadd, if_pos h1, if_neg (by omega), mpmagsub, if_neg h2, magsubGreat]
      simp only [htop, if_true]
    have hcopy := mpassign_result hok hr1 hnm
    have hres := hcopy.setSign 1 hr1 (Or.inl rfl) fun _ => rfl
    rw [hadd, hres.int, hkm.int_eq h.ok] at hlt
    omega
  · rintro rfl
    -- zero is added to zero
    have hadd : mpadd s1 r r r = mpassignZero s1 r := by
      have hz : ((mpassignZero s1 r).obj r).top = 0 := by
        rw [mpassignZero, Heap.setObj_self]
      rw [mpadd, if_neg (not_not.2 rfl), mpmagadd, if_neg (Nat.lt_irrefl _), magaddLong]
      simp only [htop, if_true, hz, ne_eq, not_true_eq_false, if_false]
    have hres := mpassignZero_result hok hr1
    rw [hadd] at hmod
    refine ⟨_, hmod, hres.writes.ok, fun x hx hxr => (hk x hx hxr).trans
      (hres.writes.keeps hok hxr), hres.normal, hres.int.ge, ?_, ?_⟩
    · rw [hres.int]
      exact hpos
    · rw [hres.int, sub_zero]
      exact hdvd

/-- **`mpmod` is exact** if and only if it is not a negative multiple, with the residue in a third
object, nor a negative number that is no multiple, with the residue in the modulus. -/
theorem mpmod_exact_iff (h : Operands s b m none (some r)) (hpos : 0 < s.int m) :
    ModExact s b m r ↔ ¬ModFails s b m r := by
  have hdiv := mpdiv_exact_iff h
  have hiff : s.int m ∣ s.int b ↔ (s.int b).tmod (s.int m) = 0 := Int.dvd_iff_tmod_eq_zero
  obtain ⟨htd1, htd2, htd3⟩ := truncDiv_self (a := s.int b) h.divisor_ne
  have hcong : s.int m ∣ s.int b - (s.int b).tmod (s.int m) :=
    ⟨(s.int b).tdiv (s.int m), by rw [mul_comm]; omega⟩
  by_cases hex : DivExact s b m none (some r)
  · have hcond := hdiv.1 hex
    obtain ⟨s1, heq, hok, hk, q, y, htd, -, hr⟩ := hex
    obtain ⟨-, rfl⟩ := htd.unique h.divisor_ne
    obtain ⟨hn, hint⟩ := hr r rfl
    have hk' : ∀ x < s.next, x ≠ r → Heap.Keeps s s1 x := fun x hx hxr =>
      hk x hx (some_ne_none x).symm fun h0 => hxr (some.inj h0).symm
    rcases lt_or_ge ((s.int b).tmod (s.int m)) 0 with hneg | hge
    · have hnd : ¬s.int m ∣ s.int b := fun hd => hneg.ne (hiff.1 hd)
      have hb : s.int b < 0 := by
        rcases htd3 with h0 | h0
        · exact absurd h0 hneg.ne
        · rw [Int.sign_eq_neg_one_of_neg hneg] at h0
          exact Int.neg_of_sign_eq_neg_one h0.symm
      have hle : |s1.int r| ≤ |s.int b| := by
        rw [hint, Int.abs_eq_natAbs, Int.abs_eq_natAbs, Int.natAbs_tmod]
        exact Int.ofNat_le.2 (Nat.mod_le ..)
      rw [mpmod_negative h hpos heq hok hk' hn (by rwa [hint]) (by rwa [hint]) hle
        (by rwa [hint])]
      exact ⟨fun hrm hf => hf.2.elim (fun hd => hnd hd.1) fun hd => hrm hd.2,
        fun hf hrm => hf ⟨hb, Or.inr ⟨hnd, hrm⟩⟩⟩
    · have hsign : ¬(s1.obj r).sign < 0 := by
        rw [hn.sign_eq, hint, if_neg (not_lt.2 hge)]
        decide
      have hmod : mpmod s b m r = some s1 := by
        rw [mpmod, heq, map_some, if_neg hsign]
      have hlt : (s.int b).tmod (s.int m) < s.int m := Int.tmod_lt_of_pos _ hpos
      refine iff_of_true ⟨s1, hmod, hok, hk', hn, by rwa [hint], by rwa [hint], by rwa [hint]⟩ ?_
      rintro ⟨hb, ⟨hd, hrm, hrb⟩ | ⟨hd, hrm⟩⟩
      · -- a negative multiple: the sign would be wrong
        rcases hcond with hlt' | hs
        · have h0 := Int.le_of_dvd (neg_pos.2 hb) (Int.dvd_neg.2 hd)
          rw [abs_of_neg hb, abs_of_pos hpos] at hlt'
          omega
        · exact (hs.2 r rfl hrb).2 ⟨hb, hd⟩
      · refine hd (hiff.2 ?_)
        rcases htd3 with h0 | h0
        · exact h0
        · rw [Int.sign_eq_neg_one_of_neg hb] at h0
          exact absurd (Int.neg_of_sign_eq_neg_one h0) (not_lt.2 hge)
  · -- a negative multiple that is not smaller, and the remainder is not the dividend
    have hcond := mt hdiv.2 hex
    have habs : ¬|s.int b| < |s.int m| := fun h0 => hcond (Or.inl h0)
    have hle : s.mag m ≤ s.mag b := by
      rw [Int.abs_eq_natAbs, Int.abs_eq_natAbs, h.dividend_normal.natAbs_int,
        h.divisor_normal.natAbs_int] at habs
      omega
    have hfail : r ≠ b ∧ s.int b < 0 ∧ s.int m ∣ s.int b := by
      by_contra hnot
      refine hcond (Or.inr ⟨fun x hx => absurd hx (some_ne_none x).symm, fun x hx hxb =>
        ⟨fun h0 => absurd h0.1 (some_ne_none b).symm, fun h0 => ?_⟩⟩)
      cases hx
      exact hnot ⟨hxb, h0⟩
    obtain ⟨hrb, hb, hd⟩ := hfail
    obtain ⟨s1, heq, hend⟩ := mpdiv_end h hle
    obtain ⟨ht, hm, hs⟩ := hend.rem r rfl
    have hbs : (s.obj b).sign = -1 := by
      rw [h.dividend_normal.sign_eq, if_pos hb]
    rw [if_neg hrb, hbs, ite_self] at hs
    rw [(dvd_iff_mod h.dividend_normal h.divisor_normal).1 hd] at hm
    have hk' : ∀ x < s.next, x ≠ r → Heap.Keeps s s1 x := fun x hx hxr =>
      hend.keeps x hx (some_ne_none x).symm fun h0 => hxr (some.inj h0).symm
    rw [mpmod_negative_zero h hpos heq hend.ok hk' (ht.mag_eq_zero.1 hm) hs hd]
    exact ⟨fun hrm hf => hf.2.elim (fun h0 => h0.2.1 hrm) fun h0 => h0.1 hd, fun hf => by
      by_contra hrm
      exact hf ⟨hb, Or.inl ⟨hd, hrm, hrb⟩⟩⟩

/-- **Division is exact** – `mpdiv` for any aliasing of quotient and remainder, and `mpmod` for a
positive modulus – if and only if the signs come out right. -/
theorem division_iff (h : Operands s dividend divisor quotient remainder)
    (h' : Operands s b m none (some r)) (hpos : 0 < s.int m) :
    DivExact s dividend divisor quotient remainder ∧ ModExact s b m r ↔
      (|s.int dividend| < |s.int divisor| ∨ SignsOk s dividend divisor quotient remainder) ∧
        ¬ModFails s b m r :=
  and_congr (mpdiv_exact_iff h) (mpmod_exact_iff h' hpos)

/-! ### Two numbers and a zero -/

/-- The objects `0` and `1` have a digit each, and `2` is zero. -/
def twoNumbers (sign : ℤ) (x y : UInt32) : Heap where
  mem j := if j = 0 then x else if j = 1 then y else 0
  brk := 3
  obj r := match r with
    | 0 => ⟨sign, 1, 1, 0⟩
    | 1 => ⟨1, 1, 1, 1⟩
    | 2 => ⟨1, 1, 0, 2⟩
    | _ + 3 => Mpint.none
  next := 3
  mindigits := 33
  lost := false

theorem twoNumbers_ok (sign : ℤ) (x y : UInt32) : (twoNumbers sign x y).Ok where
  top_le r := by
    rcases r with _ | _ | _ | r <;> simp [twoNumbers, Mpint.none]
  size_le r := by
    rcases r with _ | _ | _ | r <;> simp [twoNumbers, Mpint.none, Heap.maxDigits]
  mindigits_le := (by decide : 33 ≤ Heap.maxDigits)
  found := rfl
  below r := by
    rcases r with _ | _ | _ | r <;> simp [twoNumbers, Mpint.none]
  apart r r' hne := by
    rcases r with _ | _ | _ | r <;> rcases r' with _ | _ | _ | r' <;>
      simp [twoNumbers, Mpint.none, Disjoint] at hne ⊢
  unused r hr := by
    obtain ⟨k, rfl⟩ := Nat.exists_eq_add_of_le hr
    rw [show (twoNumbers sign x y).next + k = k + 3 from Nat.add_comm _ _]
    rfl

theorem twoNumbers_operands {sign : ℤ} {x y : UInt32} (hs : sign = 1 ∨ sign = -1) (hx : x ≠ 0)
    (hy : y ≠ 0) : Operands (twoNumbers sign x y) 0 1 none (some 2) where
  ok := twoNumbers_ok sign x y
  dividend_lt := (by decide : 0 < 3)
  divisor_lt := (by decide : 1 < 3)
  quotient_lt r h := absurd h (some_ne_none r).symm
  remainder_lt r h := by
    cases h
    exact (by decide : 2 < 3)
  apart r h := absurd h (some_ne_none r).symm
  dividend_normal := ⟨hs, fun h => absurd h Nat.one_ne_zero, fun n hn => by
    obtain rfl : n = 0 := Nat.succ_injective hn.symm
    exact hx⟩
  divisor_normal := ⟨Or.inl rfl, fun h => absurd h Nat.one_ne_zero, fun n hn => by
    obtain rfl : n = 0 := Nat.succ_injective hn.symm
    exact hy⟩
  divisor_ne := by
    have h : (twoNumbers sign x y).mag 1 = y.toNat := Digits.val_one _ _
    have h0 : y.toNat ≠ 0 := fun h0 => hy (UInt32.toNat_inj.1 h0)
    rw [Heap.int, h]
    simpa [twoNumbers] using h0
  dividend_fits := (by decide : (1 + 2) * 32 + 31 + 31 < 2 ^ 31)

theorem twoNumbers_int_zero (sign : ℤ) (x y : UInt32) :
    (twoNumbers sign x y).int 0 = sign * x.toNat := by
  have h : (twoNumbers sign x y).mag 0 = x.toNat := Digits.val_one _ _
  rw [Heap.int, h]
  rfl

theorem twoNumbers_int_one (sign : ℤ) (x y : UInt32) : (twoNumbers sign x y).int 1 = y.toNat := by
  have h : (twoNumbers sign x y).mag 1 = y.toNat := Digits.val_one _ _
  rw [Heap.int, h]
  exact one_mul _

/-- Minus six is a multiple of three: the remainder is a zero with a negative sign, and the residue
is three. -/
theorem not_division_minusSix :
    ¬∀ (s : Heap) (dividend divisor : Ref) (quotient remainder : Option Ref) (b m r : Ref),
      Operands s dividend divisor quotient remainder → Operands s b m none (some r) →
        0 < s.int m → DivExact s dividend divisor quotient remainder ∧ ModExact s b m r := by
  intro h
  have hop : Operands (twoNumbers (-1) 6 3) 0 1 none (some 2) :=
    twoNumbers_operands (Or.inr rfl) (by decide) (by decide)
  have hpos : 0 < (twoNumbers (-1) 6 3).int 1 := by
    rw [twoNumbers_int_one]
    decide
  have h1 := (h _ 0 1 none (some 2) 0 1 2 hop hop hpos).2
  refine (mpmod_exact_iff hop hpos).1 h1 ⟨?_, Or.inl ⟨?_, by decide, by decide⟩⟩
  · rw [twoNumbers_int_zero]
    decide
  · rw [twoNumbers_int_zero, twoNumbers_int_one]
    decide

/-- Seven by three, with the remainder in a third object. -/
theorem division_iff_seven :
    DivExact (twoNumbers 1 7 3) 0 1 none (some 2) ∧ ModExact (twoNumbers 1 7 3) 0 1 2 ↔
      (|(twoNumbers 1 7 3).int 0| < |(twoNumbers 1 7 3).int 1| ∨
        SignsOk (twoNumbers 1 7 3) 0 1 none (some 2)) ∧ ¬ModFails (twoNumbers 1 7 3) 0 1 2 :=
  division_iff (twoNumbers_operands (Or.inl rfl) (by decide) (by decide))
    (twoNumbers_operands (Or.inl rfl) (by decide) (by decide))
    (by rw [twoNumbers_int_one]; decide)

end Mp

end Plan9
