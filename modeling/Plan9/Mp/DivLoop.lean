import Plan9.Mp.Mul

/-!
# The loop of `mpdiv`

Long division, digit by digit, as `mpdiv.c` does it. A trial digit comes from the two top digits
of the window and the top digit of the divisor; it may be too large, and is made smaller as long
as the two top digits of the divisor show it. What is left of the error, at most one, shows when
the multiple is taken off, and is put right.

* `Plan9.Mp.trial_le` – what is left of the error;
* `Plan9.Mp.divStep_spec` – one digit: quotient and remainder of the window;
* `Plan9.Mp.divLoop_spec` – all digits.
-/

namespace Plan9

namespace Mp

open Lib

variable {m m' : Digits} {t u v w p k n vn q fuel : ℕ} {qd : UInt32}

/-! ### The code -/

/-- Step D3a: the trial digit is made smaller as long as its product with the two top digits of
the divisor, from `v2` on, is greater than the three top digits of the window, from `u3` on. -/
def ruleOut (t v2 u3 : ℕ) (m : Digits) (qd : UInt32) : ℕ → Option (Digits × UInt32)
  | 0 => none
  | fuel + 1 =>
    let m := mpvecdigmuladd (m.zero t 3) v2 2 qd t
    if 0 < mpveccmp m t 3 u3 3 then ruleOut t v2 u3 m (qd - 1) fuel else some (m, qd)

/-- Steps D3 and D3a, for the window of `vn + 1` digits from `w` on. -/
def divTrial (t v vn w : ℕ) (m : Digits) : Option (Digits × UInt32) :=
  let qd := mpdigdiv (m (w + vn)) (m (w + vn - 1)) (m (v + vn - 1))
  if 1 < vn then ruleOut t (v + vn - 2) (w + vn - 2) m qd (qd.toNat + 1) else some (m, qd)

/-- Steps D4 and D6: a multiple is taken off, and one too many is added back. -/
def divSub (v vn w : ℕ) (m : Digits) (qd : UInt32) : Digits × UInt32 :=
  let r := mpvecdigmulsub m v vn qd w
  if r.2 < 0 then (mpvecadd r.1 w (vn + 1) v vn w, qd - 1) else (r.1, qd)

/-- One digit of the quotient. -/
def divStep (t v vn w : ℕ) (m : Digits) : Option (Digits × UInt32) :=
  (divTrial t v vn w m).map fun r => divSub v vn w r.1 r.2

/-- Step D5: the digit is saved, if there is a quotient. -/
def saveDigit (qp : Option ℕ) (k : ℕ) (qd : UInt32) (m : Digits) : Digits :=
  match qp with
  | none => m
  | some q => m.set (q + k) qd

/-- Steps D2 and D7: the loop, over the `k` digits above the lowest `vn` of the dividend, which
is at `u`; the top digit of every window is cleared. -/
def divLoop (t v vn u : ℕ) (qp : Option ℕ) (m : Digits) : ℕ → Option Digits
  | 0 => some m
  | k + 1 =>
    (divStep t v vn (u + k) m).bind fun r =>
      divLoop t v vn u qp ((saveDigit qp k r.2 r.1).set (u + k + vn) 0) k

/-! ### The trial digit -/

/-- A digit that is not too large is not too large for the top digits either. -/
theorem le_trial {V W P : ℕ} (hP : 0 < P) (h : q * V ≤ W) : q * (V / P) ≤ W / P := by
  rw [Nat.le_div_iff_mul_le hP]
  calc q * (V / P) * P = q * (V / P * P) := Nat.mul_assoc _ _ _
    _ ≤ q * V := Nat.mul_le_mul_left q (Nat.div_mul_le_self V P)
    _ ≤ W := h

/-- **A digit that is not too large for the top digits is at most one too large.** -/
theorem trial_le {V W P : ℕ} (hP : 0 < P) (hV : 0 < V) (hq : q ≤ V / P)
    (h : q * (V / P) ≤ W / P) : q ≤ W / V + 1 := by
  rcases Nat.eq_zero_or_pos q with rfl | hpos
  · exact Nat.zero_le _
  · obtain ⟨x, rfl⟩ := Nat.exists_eq_succ_of_ne_zero hpos.ne'
    have h1 : (x + 1) * (V / P) * P ≤ W := (Nat.le_div_iff_mul_le hP).1 h
    have h2 : (x + 1) * P ≤ V := (Nat.mul_le_mul_right P hq).trans (Nat.div_mul_le_self V P)
    have h3 : V < (V / P + 1) * P := Nat.lt_mul_of_div_lt (Nat.lt_succ_self _) hP
    have h4 : (x + 1) * V < W + V :=
      calc (x + 1) * V < (x + 1) * ((V / P + 1) * P) := Nat.mul_lt_mul_of_pos_left h3 hpos
        _ = (x + 1) * (V / P) * P + (x + 1) * P := by ring
        _ ≤ W + V := Nat.add_le_add h1 h2
    refine Nat.succ_le_succ ((Nat.le_div_iff_mul_le hV).2 ?_)
    rw [Nat.succ_mul] at h4
    omega

/-- The top digits of a number. -/
theorem val_div (m : Digits) (p k n : ℕ) : m.val p (k + n) / radix ^ k = m.val (p + k) n := by
  rw [Digits.val_add, Nat.add_mul_div_left _ _ (Nat.pow_pos (by decide)),
    Nat.div_eq_of_lt (Digits.val_lt _ _ _), Nat.zero_add]

theorem val_two (m : Digits) (p : ℕ) : m.val p 2 = (m (p + 1)).toNat * radix + (m p).toNat := by
  rw [Digits.val_succ, Digits.val_one, Nat.mul_comm, Nat.add_comm]

/-- **Step D3a ends,** with the greatest digit that passes the test. -/
theorem ruleOut_spec {v2 u3 : ℕ} (hv : Disjoint t 3 v2 2) (hu : Disjoint t 3 u3 3)
    (hf : qd.toNat < fuel) :
    ∃ m' qd', ruleOut t v2 u3 m qd fuel = some (m', qd') ∧ Digits.Same m m' t 3 ∧
      qd'.toNat * m.val v2 2 ≤ m.val u3 3 ∧
      ∀ x ≤ qd.toNat, x * m.val v2 2 ≤ m.val u3 3 → x ≤ qd'.toNat := by
  induction fuel generalizing m qd with
  | zero => exact absurd hf (Nat.not_lt_zero _)
  | succ fuel ih =>
    have hc : Clear t v2 2 := by
      rcases hv with h | h
      · exact Or.inl (by omega)
      · exact Or.inr h
    obtain ⟨h1, h2⟩ := mpvecdigmuladd_spec (m := m.zero t 3) (q := qd) hc
    have hz : (m.zero t 3).val t 2 = 0 :=
      Digits.val_eq_zero fun i hi => Digits.zero_apply (by omega) (by omega)
    have hs0 : Digits.Same m (m.zero t 3) t 3 := fun j hj => Digits.zero_of_ne hj
    have hs : Digits.Same m (mpvecdigmuladd (m.zero t 3) v2 2 qd t) t 3 := hs0.trans h2
    rw [hz, Nat.zero_add, hs0.val_eq (hv.symm.imp_left id)] at h1
    rw [ruleOut]
    generalize mpvecdigmuladd (m.zero t 3) v2 2 qd t = m1 at h1 hs ⊢
    have hv' : m1.val v2 2 = m.val v2 2 := hs.val_eq hv.symm
    have hu' : m1.val u3 3 = m.val u3 3 := hs.val_eq hu.symm
    have hcmp := mpveccmp_spec m1 t 3 u3 3
    rw [h1, hu', Nat.mul_comm] at hcmp
    by_cases hgt : 0 < mpveccmp m1 t 3 u3 3
    · have hlt : m.val u3 3 < qd.toNat * m.val v2 2 := by
        rcases hcmp with ⟨h, h'⟩ | ⟨h, h'⟩ | ⟨h, h'⟩ <;> omega
      have hpos : 0 < qd.toNat := Nat.pos_of_ne_zero fun h0 => by
        rw [h0, Nat.zero_mul] at hlt
        exact Nat.not_lt_zero _ hlt
      have hle : (1 : UInt32) ≤ qd := UInt32.le_iff_toNat_le.2 hpos
      have hsub : (qd - 1).toNat = qd.toNat - 1 := UInt32.toNat_sub_of_le _ _ hle
      simp only [hgt, if_true]
      obtain ⟨m', qd', h3, h4, h5, h6⟩ := ih (m := m1) (by omega : (qd - 1).toNat < fuel)
      rw [hv', hu'] at h5 h6
      refine ⟨m', qd', h3, hs.trans h4, h5, fun x hx hx' => h6 x ?_ hx'⟩
      -- the digit that was ruled out is too large
      rcases Nat.lt_or_ge x qd.toNat with h | h
      · omega
      · obtain rfl : x = qd.toNat := by omega
        omega
    · simp only [hgt, if_false]
      refine ⟨m1, qd, rfl, hs, ?_, fun x hx _ => hx⟩
      rcases hcmp with ⟨h, h'⟩ | ⟨h, h'⟩ | ⟨h, h'⟩ <;> omega

/-- Where the digits of one step lie. -/
structure StepApart (t v vn w : ℕ) : Prop where
  tv : Disjoint t 3 v vn
  tw : Disjoint t 3 w (vn + 2)
  vw : Disjoint v vn w (vn + 2)

/-- **The trial digit is the digit of the quotient, or one more.** -/
theorem divTrial_spec (hd : StepApart t v vn w) (hvn : 0 < vn) (htop : m (v + vn - 1) ≠ 0)
    (hlt : m.val w (vn + 1) < m.val v vn * radix) :
    ∃ m' qd, divTrial t v vn w m = some (m', qd) ∧ Digits.Same m m' t 3 ∧
      m.val w (vn + 1) / m.val v vn ≤ qd.toNat ∧
      qd.toNat ≤ m.val w (vn + 1) / m.val v vn + 1 := by
  obtain ⟨n, rfl⟩ := Nat.exists_eq_succ_of_ne_zero hvn.ne'
  have hP : 0 < radix ^ n := Nat.pow_pos (by decide)
  have htop' : 0 < (m (v + n)).toNat := Nat.pos_of_ne_zero fun h => htop (UInt32.toNat_inj.1 h)
  have hV1 : m.val v (n + 1) / radix ^ n = (m (v + n)).toNat := by
    rw [val_div, Digits.val_one]
  have hV : 0 < m.val v (n + 1) := by
    have h := Digits.pow_le_val htop
    exact hP.trans_le h
  have hW1 : m.val w (n + 1 + 1) / radix ^ n =
      (m (w + (n + 1))).toNat * radix + (m (w + n)).toNat := by
    rw [Nat.add_assoc, val_div, val_two, Nat.add_assoc]
  have hq : m.val w (n + 1 + 1) / m.val v (n + 1) * m.val v (n + 1) ≤ m.val w (n + 1 + 1) :=
    Nat.div_mul_le_self _ _
  have hqlt : m.val w (n + 1 + 1) / m.val v (n + 1) < radix := Nat.div_lt_of_lt_mul hlt
  obtain ⟨hsat, hdiv⟩ := mpdigdiv_spec (m (w + (n + 1))) (m (w + n)) (m (v + n))
  rw [divTrial]
  simp only [Nat.succ_eq_add_one, ← Nat.add_assoc, Nat.add_sub_cancel]
  simp only [← Nat.add_assoc] at hsat hdiv hW1
  generalize mpdigdiv (m (w + n + 1)) (m (w + n)) (m (v + n)) = qd at hsat hdiv ⊢
  -- the first trial digit is not too small
  have hge : m.val w (n + 1 + 1) / m.val v (n + 1) ≤ qd.toNat := by
    rcases Nat.lt_or_ge (m (w + n + 1)).toNat (m (v + n)).toNat with h | h
    · have h1 := le_trial hP hq
      rw [hV1, hW1] at h1
      rw [hdiv h]
      exact (Nat.le_div_iff_mul_le htop').2 h1
    · rw [hsat h]
      omega
  by_cases hn : 1 < n + 1
  · obtain ⟨k, rfl⟩ := Nat.exists_eq_succ_of_ne_zero (by omega : n ≠ 0)
    have e1 : v + (k + 1) + 1 - 2 = v + k := by omega
    have e2 : w + (k + 1) + 1 - 2 = w + k := by omega
    simp only [Nat.succ_eq_add_one, hn, if_true, e1, e2]
    have hd1 : Disjoint t 3 (v + k) 2 := by
      rcases hd.tv with h | h
      · exact Or.inl (by omega)
      · exact Or.inr (by omega)
    have hd2 : Disjoint t 3 (w + k) 3 := by
      rcases hd.tw with h | h
      · exact Or.inl (by omega)
      · exact Or.inr (by omega)
    obtain ⟨m', qd', h1, h2, h3, h4⟩ := ruleOut_spec (m := m) hd1 hd2
      (Nat.lt_succ_self qd.toNat)
    have hPk : 0 < radix ^ k := Nat.pow_pos (by decide)
    have hV2 : m.val v (k + 1 + 1) / radix ^ k = m.val (v + k) 2 := val_div m v k 2
    have hW3 : m.val w (k + 1 + 1 + 1) / radix ^ k = m.val (w + k) 3 := val_div m w k 3
    refine ⟨m', qd', h1, h2, h4 _ hge ?_, ?_⟩
    · rw [← hV2, ← hW3]
      exact le_trial hPk hq
    · refine trial_le hPk hV ?_ (by rw [hV2, hW3]; exact h3)
      have h5 := qd'.toNat_lt
      have h6 := Digits.pow_le_val (m := m) (p := v + k) (n := 1) htop
      rw [hV2]
      rw [pow_one] at h6
      exact (Nat.le_of_lt h5).trans h6
  · obtain rfl : n = 0 := by omega
    simp only [hn, if_false]
    refine ⟨m, qd, rfl, Digits.Same.refl _ _ _, hge, ?_⟩
    have hV0 : m.val v (0 + 1) = (m (v + 0)).toNat := Digits.val_one _ _
    have hW0 : m.val w (0 + 1 + 1) = (m (w + 0 + 1)).toNat * radix + (m (w + 0)).toNat :=
      val_two m w
    have hhi : (m (w + 0 + 1)).toNat < (m (v + 0)).toNat := by
      rw [hV0, hW0] at hlt
      exact Nat.lt_of_mul_lt_mul_right ((Nat.le_add_right _ _).trans_lt hlt)
    rw [hdiv hhi, hV0, hW0]
    exact Nat.le_succ _

/-! ### One digit -/

/-- **A multiple is taken off,** and one too many is added back. -/
theorem divSub_spec (hd : Disjoint v vn w (vn + 2)) (hV : 0 < m.val v vn)
    (hge : m.val w (vn + 1) / m.val v vn ≤ qd.toNat)
    (hle : qd.toNat ≤ m.val w (vn + 1) / m.val v vn + 1) :
    (divSub v vn w m qd).2.toNat = m.val w (vn + 1) / m.val v vn ∧
      (divSub v vn w m qd).1.val w (vn + 1) = m.val w (vn + 1) % m.val v vn ∧
      Digits.Same m (divSub v vn w m qd).1 w (vn + 2) := by
  have hc : Clear w v vn := by
    rcases hd with h | h
    · exact Or.inr h
    · exact Or.inl (by omega)
  obtain ⟨bor, h1, h2, h3⟩ := mpvecdigmulsub_spec (m := m) (q := qd) hc
  have hdiv := Nat.div_add_mod (m.val w (vn + 1)) (m.val v vn)
  have hmod := Nat.mod_lt (m.val w (vn + 1)) hV
  have hv : (mpvecdigmulsub m v vn qd w).1.val v vn = m.val v vn := h3.val_eq (by
    rcases hd with h | h
    · exact Or.inl h
    · exact Or.inr (by omega))
  rw [divSub]
  generalize mpvecdigmulsub m v vn qd w = r at h1 h2 h3 hv ⊢
  have hlt := r.1.val_lt w (vn + 1)
  rcases Nat.lt_or_ge (m.val w (vn + 1) / m.val v vn) qd.toNat with hbig | hsmall
  · -- one too many: the difference is negative
    have hqd : qd.toNat = m.val w (vn + 1) / m.val v vn + 1 := by omega
    rw [hqd, Nat.mul_succ] at h1
    have hbor : bor = 1 := by
      rcases h2 with ⟨h, -⟩ | ⟨h, -⟩
      · rw [h, Nat.mul_zero] at h1
        omega
      · exact h
    have hneg : r.2 < 0 := by
      rcases h2 with ⟨h, -⟩ | ⟨-, h⟩ <;> omega
    rw [hbor, Nat.mul_one] at h1
    obtain ⟨h4, h5⟩ := mpvecadd_spec (m := r.1) (a := w) (s := w)
      (Nat.le_add_right vn 1) (Or.inl le_rfl) hc
    rw [hv, Digits.val_succ_top] at h4
    have hlow := (mpvecadd r.1 w (vn + 1) v vn w).val_lt w (vn + 1)
    rw [if_pos hneg]
    refine ⟨?_, ?_, (h3.mono le_rfl (by omega)).trans h5⟩
    · have hone : (1 : UInt32) ≤ qd := UInt32.le_iff_toNat_le.2 (by
        rw [hqd]
        exact Nat.succ_le_succ (Nat.zero_le _))
      rw [UInt32.toNat_sub_of_le _ _ hone, hqd]
      exact Nat.add_sub_cancel _ _
    · -- the digit of the carry makes up for the borrow
      have hsum : (mpvecadd r.1 w (vn + 1) v vn w).val w (vn + 1) + radix ^ (vn + 1) *
          ((mpvecadd r.1 w (vn + 1) v vn w) (w + (vn + 1))).toNat =
          m.val w (vn + 1) % m.val v vn + radix ^ (vn + 1) := by omega
      have hVP : m.val v vn < radix ^ (vn + 1) := (Digits.val_lt _ _ _).trans_le
        (Nat.pow_le_pow_right (by decide) (Nat.le_succ vn))
      generalize (mpvecadd r.1 w (vn + 1) v vn w).val w (vn + 1) = x at hsum hlow ⊢
      generalize ((mpvecadd r.1 w (vn + 1) v vn w) (w + (vn + 1))).toNat = c at hsum
      generalize radix ^ (vn + 1) = P at hsum hlow hVP
      have hc1 : c = 1 := by
        rcases Nat.lt_trichotomy c 1 with h | h | h
        · obtain rfl : c = 0 := by omega
          omega
        · exact h
        · have h6 : P * 2 ≤ P * c := Nat.mul_le_mul_left P h
          omega
      rw [hc1] at hsum
      omega
  · have hqd : qd.toNat = m.val w (vn + 1) / m.val v vn := by omega
    rw [hqd] at h1
    have hbor : bor = 0 ∧ r.2 = 1 := by
      rcases h2 with h | ⟨h, -⟩
      · exact h
      · rw [h] at h1
        omega
    rw [hbor.1, Nat.mul_zero] at h1
    rw [if_neg (by omega)]
    have hrem : r.1.val w (vn + 1) = m.val w (vn + 1) % m.val v vn := by omega
    exact ⟨hqd, hrem, h3.mono le_rfl (by omega)⟩

/-- **One digit of the quotient,** and the remainder of the window. -/
theorem divStep_spec (hd : StepApart t v vn w) (hvn : 0 < vn) (htop : m (v + vn - 1) ≠ 0)
    (hlt : m.val w (vn + 1) < m.val v vn * radix) :
    ∃ m' qd, divStep t v vn w m = some (m', qd) ∧ qd.toNat = m.val w (vn + 1) / m.val v vn ∧
      m'.val w (vn + 1) = m.val w (vn + 1) % m.val v vn ∧
      ∀ j, j < t ∨ t + 3 ≤ j → j < w ∨ w + (vn + 2) ≤ j → m' j = m j := by
  obtain ⟨m1, qd, h1, h2, h3, h4⟩ := divTrial_spec hd hvn htop hlt
  have hv : m1.val v vn = m.val v vn := h2.val_eq hd.tv.symm
  have hw : m1.val w (vn + 1) = m.val w (vn + 1) := h2.val_eq (by
    rcases hd.tw with h | h
    · exact Or.inr h
    · exact Or.inl (by omega))
  have hV : 0 < m.val v vn := by
    rcases Nat.eq_zero_or_pos (m.val v vn) with h | h
    · rw [h, Nat.zero_mul] at hlt
      exact absurd hlt (Nat.not_lt_zero _)
    · exact h
  rw [← hv, ← hw] at h3 h4
  obtain ⟨h5, h6, h7⟩ := divSub_spec (m := m1) hd.vw (by rwa [hv]) h3 h4
  rw [hv, hw] at h5 h6
  refine ⟨_, _, by rw [divStep, h1]; rfl, h5, h6, fun j hj hj' => ?_⟩
  exact (h7 j hj').trans (h2 j hj)

/-! ### All digits -/

/-- Where the digits of the loop lie: the dividend has `vn + k` digits. -/
structure LoopApart (t v vn u k : ℕ) (qp : Option ℕ) : Prop where
  tv : Disjoint t 3 v vn
  tu : Disjoint t 3 u (vn + k + 1)
  vu : Disjoint v vn u (vn + k + 1)
  qt : ∀ q, qp = some q → Disjoint q k t 3
  qv : ∀ q, qp = some q → Disjoint q k v vn
  qu : ∀ q, qp = some q → Disjoint q k u (vn + k + 1)

variable {qp : Option ℕ}

theorem LoopApart.tail (h : LoopApart t v vn u (k + 1) qp) : LoopApart t v vn u k qp where
  tv := h.tv
  tu := h.tu.imp id fun h' => by omega
  vu := h.vu.imp id fun h' => by omega
  qt q hq := (h.qt q hq).imp (fun h' => by omega) id
  qv q hq := (h.qv q hq).imp (fun h' => by omega) id
  qu q hq := (h.qu q hq).imp (fun h' => by omega) fun h' => by omega

theorem LoopApart.step (h : LoopApart t v vn u (k + 1) qp) : StepApart t v vn (u + k) where
  tv := h.tv
  tw := h.tu.imp (fun h' => by omega) fun h' => by omega
  vw := h.vu.imp (fun h' => by omega) fun h' => by omega

theorem saveDigit_of_ne {j : ℕ} (h : ∀ q, qp = some q → j ≠ q + k) :
    saveDigit qp k qd m j = m j := by
  rcases qp with _ | q
  · rfl
  · exact Digits.set_of_ne m qd (h q rfl)

/-- What the loop leaves alone. -/
def LoopSame (m m' : Digits) (t u n : ℕ) (qp : Option ℕ) (k : ℕ) : Prop :=
  ∀ j, j < t ∨ t + 3 ≤ j → j < u ∨ u + n ≤ j → (∀ q, qp = some q → j < q ∨ q + k ≤ j) →
    m' j = m j

/-- **The loop divides.** Quotient and remainder are in the place of the quotient and in the
lowest digits of the dividend. -/
theorem divLoop_spec (hd : LoopApart t v vn u k qp) (hvn : 0 < vn) (htop : m (v + vn - 1) ≠ 0)
    (hlt : m.val (u + k) vn < m.val v vn) :
    ∃ m', divLoop t v vn u qp m k = some m' ∧ m'.val u vn = m.val u (vn + k) % m.val v vn ∧
      (∀ q, qp = some q → m'.val q k = m.val u (vn + k) / m.val v vn) ∧
      LoopSame m m' t u (vn + k + 1) qp k := by
  induction k generalizing m with
  | zero =>
    have hlt' : m.val u (vn + 0) < m.val v vn := hlt
    exact ⟨m, rfl, (Nat.mod_eq_of_lt hlt').symm, fun q _ => (Nat.div_eq_of_lt hlt').symm,
      fun _ _ _ _ => rfl⟩
  | succ k ih =>
    have hV : 0 < m.val v vn := Nat.zero_lt_of_lt hlt
    -- the window is below the divisor, one digit up
    have hwin : m.val (u + k) (vn + 1) < m.val v vn * radix := by
      rw [Digits.val_succ]
      have h1 := (m (u + k)).toNat_lt
      have h2 : m.val (u + k + 1) vn + 1 ≤ m.val v vn := hlt
      have h3 : radix * (m.val (u + k + 1) vn + 1) ≤ radix * m.val v vn := Nat.mul_le_mul_left _ h2
      rw [Nat.mul_comm (m.val v vn)]
      rw [Nat.mul_succ] at h3
      exact (Nat.add_lt_add_right h1 _).trans_le (by rw [Nat.add_comm]; exact h3)
    obtain ⟨m1, qd, h1, h2, h3, h4⟩ := divStep_spec hd.step hvn htop hwin
    rw [divLoop, h1, Option.bind_some]
    generalize hm2 : (saveDigit qp k qd m1).set (u + k + vn) 0 = m2
    have hmod : m.val (u + k) (vn + 1) % m.val v vn < m.val v vn := Nat.mod_lt _ hV
    have hVlt := m.val_lt v vn
    -- nothing but the rows of the step is written
    have hsame : ∀ j, j < t ∨ t + 3 ≤ j → j < u + k ∨ u + (vn + k + 2) ≤ j →
        (∀ q, qp = some q → j ≠ q + k) → m2 j = m j := fun j hj hj' hq => by
      rw [← hm2, Digits.set_of_ne _ _ (by omega), saveDigit_of_ne hq]
      exact h4 j hj (hj'.imp id fun h => by omega)
    have hq2 : ∀ q, qp = some q → m2 (q + k) = qd := fun q hq => by
      have h5 := hd.qu q hq
      rw [← hm2, Digits.set_of_ne _ _ (by rcases h5 with h | h <;> omega), hq]
      exact Digits.set_self _ _ _
    have hv2 : ∀ j, v ≤ j → j < v + vn → m2 j = m j := fun j hj hj' => by
      refine hsame j ?_ ?_ fun q hq => ?_
      · rcases hd.tv with h | h <;> omega
      · rcases hd.vu with h | h <;> omega
      · rcases hd.qv q hq with h | h <;> omega
    have hV2 : m2.val v vn = m.val v vn := Digits.val_frame hv2
    have htop2 : m2 (v + vn - 1) ≠ 0 := by
      rw [hv2 _ (by omega) (by omega)]
      exact htop
    -- the remainder of the window needs no more than `vn` digits
    have hw1 : m1.val (u + k) vn = m.val (u + k) (vn + 1) % m.val v vn := by
      rw [← h3]
      exact (Digits.val_of_lt (Nat.le_succ vn) (by rw [h3]; exact hmod.trans hVlt)).symm
    have hw2 : m2.val (u + k) vn = m.val (u + k) (vn + 1) % m.val v vn := by
      rw [← hw1]
      refine Digits.val_frame fun j hj hj' => ?_
      rw [← hm2, Digits.set_of_ne _ _ (by omega), saveDigit_of_ne fun q hq => ?_]
      rcases hd.qu q hq with h | h <;> omega
    have hu2 : m2.val u k = m.val u k := Digits.val_frame fun j hj hj' => by
      refine hsame j ?_ (Or.inl hj') fun q hq => ?_
      · rcases hd.tu with h | h <;> omega
      · rcases hd.qu q hq with h | h <;> omega
    obtain ⟨m', h5, h6, h7, h8⟩ := ih (m := m2) hd.tail htop2 (by rw [hw2, hV2]; exact hmod)
    -- the dividend is what is left and a multiple of the divisor
    have hsplit : m.val u (vn + (k + 1)) =
        m2.val u (vn + k) + radix ^ k * qd.toNat * m.val v vn := by
      have e1 : vn + (k + 1) = k + (vn + 1) := by omega
      rw [e1, Nat.add_comm vn k, Digits.val_add m u k, Digits.val_add m2 u k, hu2, hw2, h2]
      have h9 := Nat.div_add_mod (m.val (u + k) (vn + 1)) (m.val v vn)
      calc m.val u k + radix ^ k * m.val (u + k) (vn + 1)
          = m.val u k + radix ^ k * (m.val v vn * (m.val (u + k) (vn + 1) / m.val v vn) +
              m.val (u + k) (vn + 1) % m.val v vn) := by rw [h9]
        _ = _ := by ring
    refine ⟨m', h5, ?_, fun q hq => ?_, fun j hj hj' hq => ?_⟩
    · rw [h6, hV2, hsplit, Nat.add_mul_mod_self_right]
    · have h9 : m' (q + k) = qd := by
        rw [← hq2 q hq]
        refine h8 _ ?_ ?_ fun q' hq' => ?_
        · rcases hd.qt q hq with h | h <;> omega
        · rcases hd.qu q hq with h | h <;> omega
        · rw [hq] at hq'
          cases hq'
          exact Or.inr le_rfl
      rw [Digits.val_succ_top, h7 q hq, h9, hV2, hsplit, Nat.add_mul_div_right _ _ hV]
    · rw [h8 j hj (hj'.imp id fun h => by omega) fun q hq' => (hq q hq').imp id fun h => by omega]
      exact hsame j hj (hj'.imp (fun h => by omega) fun h => by omega) fun q hq' => by
        rcases hq q hq' with h | h <;> omega

end Mp

end Plan9
