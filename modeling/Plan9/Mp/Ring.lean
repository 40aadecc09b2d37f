import Plan9.Mp.Object

/-!
# Sums, products and shifts are exact

* `Plan9.Mp.mpcmp_sign` – `mpcmp` orders numbers as whole numbers;
* `Plan9.Mp.mpadd_result`, `Plan9.Mp.mpsub_result`, `Plan9.Mp.mpmul_result` – sum, difference
  and product, into any object, also an operand;
* `Plan9.Mp.mpleft_result_iff`, `Plan9.Mp.mpright_result_iff` – shifts, which leave a zero with a
  negative sign where all bits of a negative number are shifted out;
* `Plan9.Mp.ring_iff` – all of them together.
-/

namespace Plan9

namespace Mp

open Lib

variable {s s' t : Heap} {b b1 b2 r res sum diff prod : Ref} {k n : ℕ} {z : ℤ}

/-! ### Comparison -/

/-- A number with more digits is greater. -/
theorem mag_lt_of_top_lt (h : s.Trimmed b2) (hlt : (s.obj b1).top < (s.obj b2).top) :
    s.mag b1 < s.mag b2 := by
  obtain ⟨n, hn⟩ := Nat.exists_eq_add_of_lt hlt
  have h1 : radix ^ ((s.obj b1).top + n) ≤ s.mag b2 := by
    rw [Heap.mag, hn]
    exact Digits.pow_le_val (h _ hn)
  calc s.mag b1 < radix ^ (s.obj b1).top := Digits.val_lt _ _ _
    _ ≤ radix ^ ((s.obj b1).top + n) := Nat.pow_le_pow_right (by decide) (Nat.le_add_right _ _)
    _ ≤ s.mag b2 := h1

/-- **The comparison of absolute values.** -/
theorem mpmagcmp_sign (h1 : s.Trimmed b1) (h2 : s.Trimmed b2) :
    (mpmagcmp s b1 b2).sign = ((s.mag b1 : ℤ) - s.mag b2).sign := by
  rw [mpmagcmp]
  rcases Nat.lt_trichotomy (s.obj b1).top (s.obj b2).top with h | h | h
  · have h3 := mag_lt_of_top_lt h2 h
    rw [if_pos (by omega), Int.sign_eq_neg_one_of_neg (by omega),
      Int.sign_eq_neg_one_of_neg (by omega)]
  · rw [if_neg (by omega)]
    rcases mpveccmp_spec s.mem (s.obj b1).p (s.obj b1).top (s.obj b2).p (s.obj b2).top with
      ⟨h3, h4⟩ | ⟨h3, h4⟩ | ⟨h3, h4⟩
    · rw [h3, Int.sign_eq_neg_one_of_neg (a := (s.mag b1 : ℤ) - _)
        (by simp only [Heap.mag]; omega)]
      rfl
    · rw [h3, Heap.mag, Heap.mag, h4, sub_self]
    · rw [h3, Int.sign_eq_one_of_pos (a := (s.mag b1 : ℤ) - _) (by simp only [Heap.mag]; omega)]
      rfl
  · have h3 := mag_lt_of_top_lt h1 h
    rw [if_pos (by omega), Int.sign_eq_one_of_pos (by omega), Int.sign_eq_one_of_pos (by omega)]

/-- A number that is positive, or zero. -/
theorem Heap.Normal.int_of_pos (hs : (s.obj r).sign = 1) : s.int r = s.mag r := by
  rw [Heap.int, hs, one_mul]

/-- A negative number. -/
theorem Heap.Normal.int_of_neg (h : s.Normal r) (hs : (s.obj r).sign = -1) :
    s.int r = -s.mag r ∧ 0 < s.mag r := by
  refine ⟨by rw [Heap.int, hs, neg_one_mul], Nat.pos_of_ne_zero fun h0 => ?_⟩
  have h1 := h.zero (h.trimmed.mag_eq_zero.1 h0)
  omega

/-- **`mpcmp` compares whole numbers.** -/
theorem mpcmp_sign (h1 : s.Normal b1) (h2 : s.Normal b2) :
    (mpcmp s b1 b2).sign = (s.int b1 - s.int b2).sign := by
  rw [mpcmp]
  rcases h1.sign with hs1 | hs1 <;> rcases h2.sign with hs2 | hs2
  · rw [if_neg (by omega), if_neg (by omega), mpmagcmp_sign h1.trimmed h2.trimmed,
      Heap.Normal.int_of_pos hs1, Heap.Normal.int_of_pos hs2]
  · obtain ⟨h4, h5⟩ := h2.int_of_neg hs2
    rw [if_pos (by omega), Heap.Normal.int_of_pos hs1, h4, hs1, hs2,
      Int.sign_eq_one_of_pos (a := (s.mag b1 : ℤ) - _) (by omega)]
    rfl
  · obtain ⟨h4, h5⟩ := h1.int_of_neg hs1
    rw [if_pos (by omega), Heap.Normal.int_of_pos hs2, h4, hs1, hs2,
      Int.sign_eq_neg_one_of_neg (a := -(s.mag b1 : ℤ) - _) (by omega)]
    rfl
  · rw [if_neg (by omega), if_pos (by omega), mpmagcmp_sign h2.trimmed h1.trimmed,
      (h1.int_of_neg hs1).1, (h2.int_of_neg hs2).1]
    congr 1
    omega

/-! ### Sums and differences of absolute values -/

/-- **The sum of absolute values**; a number that is only copied keeps its sign. -/
theorem magaddLong_result (hok : s.Ok) (hr : sum < s.next) (h1 : s.Normal b1) (h2 : s.Normal b2)
    (hle : (s.obj b2).top ≤ (s.obj b1).top) (hfits : (s.obj b1).top < Heap.maxDigits) :
    ∃ e : ℤ, (e = 1 ∨ e = -1) ∧
      Result s (magaddLong s b1 b2 sum) sum 0 (e * (s.mag b1 + s.mag b2 : ℕ)) := by
  rw [magaddLong]
  by_cases hn : (s.obj b1).top = 0
  · simp only [hn, if_true]
    have hm : (s.obj b2).top = 0 := by omega
    refine ⟨1, Or.inl rfl, ?_⟩
    rw [h1.trimmed.mag_eq_zero.2 hn, h2.trimmed.mag_eq_zero.2 hm]
    exact mpassignZero_result hok hr
  · simp only [hn, if_false]
    by_cases hm : (s.obj b2).top = 0
    · simp only [hm, if_true]
      refine ⟨(s.obj b1).sign, h1.sign, ?_⟩
      rw [h2.trimmed.mag_eq_zero.2 hm, Nat.add_zero]
      exact mpassign_result hok hr h1
    · simp only [hm, if_false]
      refine ⟨1, Or.inl rfl, ?_⟩
      have hroom := mpbits_spec hok hr ((((s.obj b1).top + 1 : ℕ) : ℤ) * 32)
      rw [digits_mul (by omega)] at hroom
      generalize mpbits s sum ((((s.obj b1).top + 1 : ℕ) : ℤ) * 32) = t at hroom ⊢
      rw [Heap.need_eq hroom.size_ge]
      obtain ⟨h3, h4⟩ := mpvecadd_spec (m := t.mem) (s := (t.obj sum).p) hle
        (hroom.p_clear b1 le_rfl hok) (hroom.p_clear b2 le_rfl hok)
      have hres := mpnorm_put_result (r := sum) (k := 0) (n := (s.obj b1).top + 1)
        (m := mpvecadd t.mem (t.obj b1).p (s.obj b1).top (t.obj b2).p (s.obj b2).top (t.obj sum).p)
        hroom.writes.ok (by rw [hroom.next]; exact hr) (Within.of_same h4 hroom.size_ge rfl)
        hroom.size_ge (Or.inl rfl : (1 : ℤ) = 1 ∨ (1 : ℤ) = -1)
      rw [h3, hroom.val_eq hok b1, hroom.val_eq hok b2] at hres
      refine Result.trans hroom.writes ?_
      convert hres using 2
      simp only [Heap.put, Heap.setSign, Heap.setTop, Heap.setObj_setMem, Heap.setObj_setObj,
        Heap.setObj_self, Heap.setObj_p, Heap.setObj_mem]

/-- `mpmagadd` adds absolute values. -/
theorem mpmagadd_result (hok : s.Ok) (hr : sum < s.next) (h1 : s.Normal b1) (h2 : s.Normal b2)
    (hfits : max (s.obj b1).top (s.obj b2).top < Heap.maxDigits) :
    ∃ e : ℤ, (e = 1 ∨ e = -1) ∧
      Result s (mpmagadd s b1 b2 sum) sum 0 (e * (s.mag b1 + s.mag b2 : ℕ)) := by
  rw [mpmagadd]
  by_cases h : (s.obj b1).top < (s.obj b2).top
  · rw [if_pos h, Nat.add_comm]
    exact magaddLong_result hok hr h2 h1 (Nat.le_of_lt h) ((le_max_right ..).trans_lt hfits)
  · rw [if_neg h]
    exact magaddLong_result hok hr h1 h2 (Nat.le_of_not_lt h) ((le_max_left ..).trans_lt hfits)

/-- The sign of a result is set. -/
theorem Result.setSign (sign : ℤ) (h : Result s s' res k z) (hr : res < s.next)
    (hs : sign = 1 ∨ sign = -1) (h0 : z = 0 → sign = 1) :
    Result s (s'.setSign res sign) res k (sign * z.natAbs) := by
  have h1 := setSign_result h.writes.ok (hr.trans_le h.writes.next_le) h.normal.trimmed hs
    fun ht => h0 (by rw [← h.int]; exact h.normal.int_eq_zero.2 ht)
  rw [← h.normal.natAbs_int, h.int] at h1
  exact ⟨h.writes.trans (h1.writes.mono (Nat.zero_le k)), h1.normal, h1.int⟩

/-- A smaller absolute value is taken off. -/
theorem magsubGreat_result {sign : ℤ} (hok : s.Ok) (hr : diff < s.next) (h1 : s.Normal b1)
    (h2 : s.Normal b2) (hle : s.mag b2 ≤ s.mag b1) (hs : sign = 1 ∨ sign = -1)
    (h0 : s.mag b1 = 0 → sign = 1) :
    Result s (magsubGreat s b1 b2 diff sign) diff 0 (sign * (s.mag b1 - s.mag b2 : ℕ)) := by
  have htop : (s.obj b2).top ≤ (s.obj b1).top := by
    by_contra hlt
    exact absurd (mag_lt_of_top_lt h2.trimmed (Nat.lt_of_not_le hlt)) (Nat.not_lt_of_le hle)
  rw [magsubGreat]
  by_cases hm : (s.obj b2).top = 0
  · simp only [hm, if_true]
    have h3 := (mpassign_result hok hr h1).setSign sign hr hs fun hz =>
      h0 (h1.trimmed.mag_eq_zero.2 (h1.int_eq_zero.1 hz))
    rw [h1.natAbs_int] at h3
    rwa [h2.trimmed.mag_eq_zero.2 hm, Nat.sub_zero]
  · simp only [hm, if_false]
    have hroom := mpbits_spec hok hr (((s.obj b1).top : ℤ) * 32)
    rw [digits_mul ((hok.top_le b1).trans (hok.size_le b1))] at hroom
    generalize mpbits s diff (((s.obj b1).top : ℤ) * 32) = t at hroom ⊢
    rw [Heap.need_eq hroom.size_ge]
    have hv1 := hroom.val_eq hok b1
    have hv2 := hroom.val_eq hok b2
    obtain ⟨h3, h4⟩ := mpvecsub_spec (m := t.mem) (s := (t.obj diff).p) htop
      (hroom.p_clear b1 le_rfl hok) (hroom.p_clear b2 le_rfl hok) (by rwa [hv1, hv2])
    have hres := mpnorm_put_result (r := diff) (k := 0) (n := (s.obj b1).top)
      (m := mpvecsub t.mem (t.obj b1).p (s.obj b1).top (t.obj b2).p (s.obj b2).top (t.obj diff).p)
      hroom.writes.ok (by rw [hroom.next]; exact hr) (Within.of_same h4 hroom.size_ge rfl)
      hroom.size_ge hs
    rw [hv1, hv2] at h3
    rw [Nat.eq_sub_of_add_eq h3] at hres
    exact Result.trans hroom.writes hres

/-- **`mpmagsub` subtracts absolute values**, with a sign. -/
theorem mpmagsub_result (hok : s.Ok) (hr : diff < s.next) (h1 : s.Normal b1) (h2 : s.Normal b2) :
    Result s (mpmagsub s b1 b2 diff) diff 0 ((s.mag b1 : ℤ) - s.mag b2) := by
  have hcmp := mpmagcmp_sign h1.trimmed h2.trimmed
  rw [mpmagsub]
  by_cases h : mpmagcmp s b1 b2 < 0
  · rw [Int.sign_eq_neg_one_of_neg h] at hcmp
    have hlt : (s.mag b1 : ℤ) - s.mag b2 < 0 := Int.neg_of_sign_eq_neg_one hcmp.symm
    rw [if_pos h]
    have h3 := magsubGreat_result hok hr h2 h1 (by omega) (Or.inr rfl : (-1 : ℤ) = 1 ∨ _)
      fun h0 => by omega
    rwa [Nat.cast_sub (by omega), neg_one_mul, neg_sub] at h3
  · have hle : ¬(s.mag b1 : ℤ) - s.mag b2 < 0 := fun hlt => by
      rw [Int.sign_eq_neg_one_of_neg hlt] at hcmp
      exact h (Int.neg_of_sign_eq_neg_one hcmp)
    rw [if_neg h]
    have h3 := magsubGreat_result hok hr h1 h2 (by omega) (Or.inl rfl : (1 : ℤ) = 1 ∨ _)
      fun _ => rfl
    rwa [Nat.cast_sub (by omega), one_mul] at h3

/-! ### Sums and differences -/

/-- **`mpadd` is exact.** -/
theorem mpadd_result (hok : s.Ok) (hr : sum < s.next) (h1 : s.Normal b1) (h2 : s.Normal b2)
    (hfits : (s.obj b1).sign = (s.obj b2).sign →
      max (s.obj b1).top (s.obj b2).top < Heap.maxDigits) :
    Result s (mpadd s b1 b2 sum) sum 0 (s.int b1 + s.int b2) := by
  rw [mpadd]
  by_cases hs : (s.obj b1).sign = (s.obj b2).sign
  · rw [if_neg (not_not.2 hs)]
    obtain ⟨e, he, h3⟩ := mpmagadd_result hok hr h1 h2 (hfits hs)
    have hz : s.int b1 + s.int b2 = (s.obj b1).sign * (s.mag b1 + s.mag b2 : ℕ) := by
      rw [Heap.int, Heap.int, ← hs, Nat.cast_add, mul_add]
    rw [hz]
    generalize s.mag b1 + s.mag b2 = x at h3 ⊢
    have hx : (e * (x : ℤ)).natAbs = x := by
      rcases he with rfl | rfl <;> simp
    by_cases htop : ((mpmagadd s b1 b2 sum).obj sum).top = 0
    · simp only [htop, ne_eq, not_true_eq_false, if_false]
      have h4 := h3.normal.int_eq_zero.2 htop
      rw [h3.int] at h4
      rw [h4] at hx h3
      rw [← hx]
      simpa using h3
    · simp only [htop, ne_eq, not_false_eq_true, if_true]
      have h4 := h3.setSign _ hr h1.sign fun h0 =>
        absurd (h3.normal.int_eq_zero.1 (h3.int.trans h0)) htop
      rwa [hx] at h4
  · rw [if_pos hs]
    rcases h1.sign with hs1 | hs1
    · have hs2 : (s.obj b2).sign = -1 := by
        rcases h2.sign with h | h <;> omega
      rw [if_neg (by omega), Heap.Normal.int_of_pos hs1, (h2.int_of_neg hs2).1]
      exact mpmagsub_result hok hr h1 h2
    · have hs2 : (s.obj b2).sign = 1 := by
        rcases h2.sign with h | h <;> omega
      rw [if_pos (by omega), Heap.Normal.int_of_pos hs2, (h1.int_of_neg hs1).1, neg_add_eq_sub]
      exact mpmagsub_result hok hr h2 h1

/-- **`mpsub` is exact.** -/
theorem mpsub_result (hok : s.Ok) (hr : diff < s.next) (h1 : s.Normal b1) (h2 : s.Normal b2)
    (hfits : max (s.obj b1).top (s.obj b2).top < Heap.maxDigits) :
    Result s (mpsub s b1 b2 diff) diff 0 (s.int b1 - s.int b2) := by
  rw [mpsub]
  by_cases hs : (s.obj b1).sign = (s.obj b2).sign
  · simp only [hs, ne_eq, not_true_eq_false, if_false]
    have h3 := mpmagsub_result hok hr h1 h2
    have hz : s.int b1 - s.int b2 = (s.obj b2).sign * ((s.mag b1 : ℤ) - s.mag b2) := by
      rw [Heap.int, Heap.int, hs, mul_sub]
    rw [hz]
    generalize (s.mag b1 : ℤ) - s.mag b2 = x at h3 ⊢
    by_cases htop : ((mpmagsub s b1 b2 diff).obj diff).top = 0
    · simp only [htop, not_true_eq_false, if_false]
      have h4 := h3.normal.int_eq_zero.2 htop
      rw [h3.int] at h4
      rw [h4] at h3 ⊢
      rwa [mul_zero]
    · simp only [htop, not_false_eq_true, if_true]
      have hx : x ≠ 0 := fun h0 => htop (h3.normal.int_eq_zero.1 (h3.int.trans h0))
      have hsign : ((mpmagsub s b1 b2 diff).obj diff).sign = x.sign := by
        have h5 := h3.int
        have h6 : 0 < ((mpmagsub s b1 b2 diff).mag diff : ℤ) := by
          rw [Int.natCast_pos, Nat.pos_iff_ne_zero]
          exact fun h0 => htop (h3.normal.trimmed.mag_eq_zero.1 h0)
        rw [← h5, Heap.int, Int.sign_mul, Int.sign_eq_one_of_pos h6, mul_one]
        rcases h3.normal.sign with h7 | h7 <;> rw [h7] <;> rfl
      have h4 := h3.setSign (((mpmagsub s b1 b2 diff).obj diff).sign * (s.obj b2).sign) hr
        (by rcases h3.normal.sign with h7 | h7 <;> rcases h2.sign with h8 | h8 <;>
              rw [h7, h8] <;> decide)
        fun h0 => absurd h0 hx
      rw [hsign, mul_comm x.sign, mul_assoc, Int.sign_mul_natAbs] at h4
      rwa [hsign, mul_comm x.sign]
  · simp only [hs, ne_eq, not_false_eq_true, if_true]
    obtain ⟨e, he, h3⟩ := mpmagadd_result hok hr h1 h2 hfits
    have hx : (e * ((s.mag b1 + s.mag b2 : ℕ) : ℤ)).natAbs = s.mag b1 + s.mag b2 := by
      rcases he with rfl | rfl <;> simp <;> omega
    have hpos : 0 < s.mag b1 + s.mag b2 := by
      rcases h1.sign with hs1 | hs1
      · have hs2 : (s.obj b2).sign = -1 := by
          rcases h2.sign with h | h <;> omega
        exact Nat.add_pos_right _ (h2.int_of_neg hs2).2
      · exact Nat.add_pos_left (h1.int_of_neg hs1).2 _
    have h4 := h3.setSign _ hr h1.sign fun h0 => by
      rw [h0] at hx
      omega
    have hz : s.int b1 - s.int b2 = (s.obj b1).sign * (s.mag b1 + s.mag b2 : ℕ) := by
      have hneg : (s.obj b2).sign = -(s.obj b1).sign := by
        rcases h1.sign with h | h <;> rcases h2.sign with h' | h' <;> omega
      rw [Heap.int, Heap.int, hneg, Nat.cast_add, mul_add, neg_mul, sub_neg_eq_add]
    rw [hx] at h4
    rwa [hz]

/-! ### Products -/

/-- The scratch space for a product of numbers with at most `n` digits. -/
abbrev mulScratch (n : ℕ) : ℕ := scratch (n + 1) n

/-- **A product into an object that is no operand.** -/
theorem mulApart_result (hok : s.Ok) (hr : prod < s.next) (h1 : s.Normal b1) (h2 : s.Normal b2)
    (hne1 : b1 ≠ prod) (hne2 : b2 ≠ prod)
    (hfits : (s.obj b1).top + (s.obj b2).top < Heap.maxDigits) :
    Result s (mulApart s b1 b2 prod) prod
      (mulScratch (max (s.obj b1).top (s.obj b2).top)) (s.int b1 * s.int b2) := by
  rw [mulApart]
  have hw : Heap.Writes s (s.setTop prod 0) prod 0 := Heap.Writes.setTop hok hr (Nat.zero_le _)
  have hm1 := hw.mag_eq hok hne1
  have hm2 := hw.mag_eq hok hne2
  have ho1 := hw.obj b1 hne1
  have ho2 := hw.obj b2 hne2
  have ht0 : ((s.setTop prod 0).obj prod).top = 0 := by rw [Heap.setTop, Heap.setObj_self]
  have hr0 : prod < (s.setTop prod 0).next := hr
  generalize s.setTop prod 0 = u at hw hm1 hm2 ho1 ho2 ht0 hr0 ⊢
  have hroom := mpbits_spec hw.ok hr0 ((((s.obj b1).top + (s.obj b2).top + 1 : ℕ) : ℤ) * 32)
  rw [digits_mul (by omega)] at hroom
  generalize mpbits u prod ((((s.obj b1).top + (s.obj b2).top + 1 : ℕ) : ℤ) * 32) = t at hroom ⊢
  rw [Heap.need_eq hroom.size_ge]
  have hv1 := hroom.val_eq hw.ok b1
  have hv2 := hroom.val_eq hw.ok b2
  have hsize := hroom.size_ge
  have ht1 := hroom.writes.obj b1 hne1
  have ht2 := hroom.writes.obj b2 hne2
  rw [ht1, ho1, hm1] at hv1
  rw [ht2, ho2, hm2] at hv2
  rw [ho1] at ht1
  rw [ho2] at ht2
  have hd1 := hroom.writes.ok.apart b1 prod hne1
  have hd2 := hroom.writes.ok.apart b2 prod hne2
  have hb1 := hroom.writes.ok.below b1
  have hb2 := hroom.writes.ok.below b2
  have hbp := hroom.writes.ok.below prod
  have hz : ∀ i < (s.obj b1).top + (s.obj b2).top + 1, t.mem ((t.obj prod).p + i) = 0 :=
    fun i hi => hroom.high i (by omega) hi
  simp only [ht1, ht2, Heap.setMem_obj] at hd1 hd2 hb1 hb2 ⊢
  have htop1 := hok.top_le b1
  have htop2 := hok.top_le b2
  have hd1' : Disjoint (t.obj prod).p ((s.obj b1).top + (s.obj b2).top) (s.obj b1).p
      (s.obj b1).top := by
    rcases hd1 with h | h
    · exact Or.inr (by omega)
    · exact Or.inl (by omega)
  have hd2' : Disjoint (t.obj prod).p ((s.obj b1).top + (s.obj b2).top) (s.obj b2).p
      (s.obj b2).top := by
    rcases hd2 with h | h
    · exact Or.inr (by omega)
    · exact Or.inl (by omega)
  obtain ⟨h3, h4⟩ := mpvecmul_spec (m := t.mem) (by omega : (s.obj b1).p + _ ≤ t.brk)
    (by omega : (s.obj b2).p + _ ≤ t.brk) (by omega) hd1' hd2' fun i hi => hz i (by omega)
  have h5 : Within t.mem (mpvecmul t.mem t.brk (s.obj b1).p (s.obj b1).top (s.obj b2).p
      (s.obj b2).top (t.obj prod).p) (t.obj prod).p (t.obj prod).size t.brk
      (mulScratch (max (s.obj b1).top (s.obj b2).top)) :=
    fun j hj hj' => h4 j (by omega) hj'
  generalize mpvecmul t.mem t.brk (s.obj b1).p (s.obj b1).top (s.obj b2).p (s.obj b2).top
    (t.obj prod).p = m at h3 h4 h5 ⊢
  have hsign : (s.obj b1).sign * (s.obj b2).sign = 1 ∨ (s.obj b1).sign * (s.obj b2).sign = -1 := by
    rcases h1.sign with h | h <;> rcases h2.sign with h' | h' <;> rw [h, h'] <;> decide
  have hres := mpnorm_put_result (n := (s.obj b1).top + (s.obj b2).top + 1) hroom.writes.ok
    (by rw [hroom.next]; exact hr0) h5 hsize hsign
  -- the digit behind the product stays zero
  have hlast : m ((t.obj prod).p + ((s.obj b1).top + (s.obj b2).top)) = 0 := by
    rw [h4 _ (Or.inr (by omega)) (Or.inl (by omega))]
    exact hz _ (Nat.lt_succ_self _)
  rw [Digits.val_succ_top, hlast, h3, UInt32.toNat_zero, Nat.mul_zero, Nat.add_zero, hv1, hv2]
    at hres
  have hint : s.int b1 * s.int b2 =
      (s.obj b1).sign * (s.obj b2).sign * (s.mag b1 * s.mag b2 : ℕ) := by
    rw [Heap.int, Heap.int, Nat.cast_mul]
    ring
  rw [hint]
  exact Result.trans ((hw.trans hroom.writes).mono (Nat.zero_le _)) hres

theorem mpbits_lost (s : Heap) (b : Ref) (x : ℤ) : (mpbits s b x).lost = s.lost := by
  rw [mpbits, mpbitsHere]
  split_ifs <;> rfl

theorem mpnorm_lost (s : Heap) (b : Ref) : (mpnorm s b).lost = s.lost := by
  rw [mpnorm]
  split_ifs <;> rfl

/-- What is lost stays lost. -/
theorem mpassign_lost (h : s.lost = true) (r res : Ref) : (mpassign s r res).lost = true := by
  have hbits := (mpbits_lost s res (((s.obj r).top : ℤ) * 32)).trans h
  rw [mpassign]
  generalize mpbits s res (((s.obj r).top : ℤ) * 32) = t at hbits ⊢
  change (t.lost || _) = true
  rw [hbits, Bool.true_or]

/-- **A product that is too long** has no space. -/
theorem mulApart_lost (hok : s.Ok) (hr : prod < s.next)
    (hlong : Heap.maxDigits ≤ (s.obj b1).top + (s.obj b2).top) :
    (mulApart s b1 b2 prod).lost = true := by
  have hw : Heap.Writes s (s.setTop prod 0) prod 0 := Heap.Writes.setTop hok hr (Nat.zero_le _)
  rw [mulApart, mpnorm_lost]
  have hroom := mpbits_spec hw.ok (b := prod) hr
    ((((s.obj b1).top + (s.obj b2).top + 1 : ℕ) : ℤ) * 32)
  exact Heap.need_lost (((hroom.writes.ok.size_le prod).trans hlong).trans_lt (Nat.lt_succ_self _))

/-- **`mpmul` is exact,** if and only if the product is not too long. -/
theorem mpmul_result_iff (hok : s.Ok) (hr : prod < s.next) (hr1 : b1 < s.next) (hr2 : b2 < s.next)
    (h1 : s.Normal b1) (h2 : s.Normal b2) :
    Result s (mpmul s b1 b2 prod) prod
        (mulScratch (max (s.obj b1).top (s.obj b2).top)) (s.int b1 * s.int b2) ↔
      (s.obj b1).top + (s.obj b2).top < Heap.maxDigits := by
  rw [mpmul]
  by_cases hin : prod = b1 ∨ prod = b2
  · simp only [if_pos hin]
    have hnew := mpnew_writes hok (x := 0) (by decide)
    have hlt : s.next < (mpnew s 0).next := Nat.lt_succ_self s.next
    generalize mpnew s 0 = t at hnew hlt ⊢
    constructor
    · intro hres
      by_contra hlong
      have hlost : (mulApart t b1 b2 s.next).lost = true := by
        refine mulApart_lost hnew.ok hlt ?_
        rw [hnew.obj b1 hr1.ne, hnew.obj b2 hr2.ne]
        exact Nat.le_of_not_lt hlong
      have hfound := hres.writes.ok.found
      rw [mpfree] at hfound
      exact Bool.false_ne_true (hfound.symm.trans (mpassign_lost hlost s.next prod))
    intro hfits
    have hi1 : t.int b1 = s.int b1 := by
      rw [Heap.int, Heap.int, hnew.obj b1 hr1.ne, hnew.mag_eq hok hr1.ne]
    have hi2 : t.int b2 = s.int b2 := by
      rw [Heap.int, Heap.int, hnew.obj b2 hr2.ne, hnew.mag_eq hok hr2.ne]
    have hres := mulApart_result hnew.ok hlt (hnew.normal hok hr1.ne h1)
      (hnew.normal hok hr2.ne h2) hr1.ne hr2.ne
      (by rwa [hnew.obj b1 hr1.ne, hnew.obj b2 hr2.ne])
    rw [hi1, hi2, hnew.obj b1 hr1.ne, hnew.obj b2 hr2.ne] at hres
    have hltp : prod < (mulApart t b1 b2 s.next).next := (hr.trans hlt).trans_le hres.writes.next_le
    generalize mulApart t b1 b2 s.next = u at hres hltp ⊢
    have hcopy := mpassign_result (r := s.next) hres.writes.ok hltp hres.normal
    generalize mpassign u s.next prod = v at hcopy ⊢
    have hfree := mpfree_writes hcopy.writes.ok s.next
    have hself : (mpfree v s.next).obj s.next = Mpint.none := by
      rw [mpfree, Heap.setObj_self]
    have hne : prod ≠ s.next := hr.ne
    refine ⟨((hnew.mono (Nat.zero_le _)).trans hres.writes).through hcopy.writes hfree hne.symm
      (hok.unused _ le_rfl) hself, hfree.normal hcopy.writes.ok hne hcopy.normal, ?_⟩
    rw [Heap.int, hfree.obj prod hne, hfree.mag_eq hcopy.writes.ok hne, ← hres.int, ← hcopy.int,
      Heap.int]
  · rw [if_neg hin]
    refine ⟨fun hres => ?_, mulApart_result hok hr h1 h2 (fun h => hin (Or.inl h.symm))
      fun h => hin (Or.inr h.symm)⟩
    by_contra hlong
    exact Bool.false_ne_true
      (hres.writes.ok.found.symm.trans (mulApart_lost hok hr (Nat.le_of_not_lt hlong)))

/-! ### Shifts -/

/-- A number whose absolute value is shifted to the left by `k` bits, or to the right by `-k`. -/
def shift (z k : ℤ) : ℤ := if 0 ≤ k then z * 2 ^ k.toNat else z.tdiv (2 ^ (-k).toNat)

theorem radix_pow_mul (d l : ℕ) : radix ^ d * 2 ^ l = 2 ^ (32 * d + l) := by
  rw [pow_add, pow_mul]
  rfl

/-- The digits that `mpleft` writes. -/
theorem upDigits_spec {otop d l : ℕ} (hok : s.Ok) (hl : l < 32)
    (hsize : otop + d + (if l = 0 then 0 else 1) ≤ (s.obj res).size) :
    ((upDigits s b res otop d l).zero (s.obj res).p d).val (s.obj res).p
        (otop + d + if l = 0 then 0 else 1) =
        s.mem.val (s.obj b).p otop * 2 ^ (32 * d + l) ∧
      Digits.Same s.mem ((upDigits s b res otop d l).zero (s.obj res).p d) (s.obj res).p
        (otop + d + if l = 0 then 0 else 1) := by
  have hclear : ∀ i, ClearDown ((s.obj res).p + d + i) (s.obj b).p otop ∨
      (s.obj res).size < d + i + otop := fun i => by
    rcases eq_or_ne b res with rfl | hne
    · exact Or.inl (Or.inl (by omega))
    · rcases hok.apart b res hne with h | h
      · exact Or.inl (Or.inl (by omega))
      · rcases Nat.lt_or_ge (s.obj res).size (d + i + otop) with h' | h'
        · exact Or.inr h'
        · exact Or.inl (Or.inr (by omega))
  -- what is above the zeros is the shifted number
  have hup : (upDigits s b res otop d l).val ((s.obj res).p + d)
        (otop + if l = 0 then 0 else 1) = s.mem.val (s.obj b).p otop * 2 ^ l ∧
      Digits.Same s.mem (upDigits s b res otop d l) ((s.obj res).p + d)
        (otop + if l = 0 then 0 else 1) := by
    rw [upDigits]
    rcases Nat.eq_zero_or_pos l with rfl | hpos
    · simp only [if_true] at hsize ⊢
      have hc := (hclear 0).resolve_right (by omega)
      obtain ⟨h1, h2⟩ := digitsUp_spec (m := s.mem) hc
      exact ⟨by rw [Nat.add_zero, pow_zero, Nat.mul_one]; exact h1, h2⟩
    · have h0 : l ≠ 0 := by omega
      simp only [h0, if_false] at hsize ⊢
      have hc := (hclear 1).resolve_right (by omega)
      obtain ⟨h1, h2⟩ := bitsUp_spec (m := s.mem) (y := 0) hc hpos hl
      refine ⟨?_, h2⟩
      rw [h1, UInt32.toNat_zero, Nat.zero_mul, Nat.zero_mod, Nat.mul_zero, Nat.add_zero,
        Nat.mul_comm]
  obtain ⟨h1, h2⟩ := hup
  generalize upDigits s b res otop d l = m at h1 h2 ⊢
  generalize (if l = 0 then 0 else 1) = e at h1 h2 ⊢
  constructor
  · have h3 : (m.zero (s.obj res).p d).val (s.obj res).p d = 0 :=
      Digits.val_eq_zero fun i hi => Digits.zero_apply (by omega) (by omega)
    have h4 : (m.zero (s.obj res).p d).val ((s.obj res).p + d) (otop + e) =
        m.val ((s.obj res).p + d) (otop + e) :=
      Digits.val_frame fun j hj hj' => Digits.zero_of_ne (Or.inr hj)
    rw [Nat.add_comm otop d, Nat.add_assoc, Digits.val_add, h3, h4, h1, ← radix_pow_mul]
    ring
  · intro j hj
    rw [Digits.zero_of_ne (by omega)]
    exact h2 j (by omega)

/-- How many digits a number of `n` digits needs when it is shifted to the left. -/
theorem digits_left {n k : ℕ} (hint : n * 32 + k + 31 < 2 ^ 31) :
    (digits ((n * 32 + k : ℕ) : ℤ)).toNat = n + k / 32 + if k - k / 32 * 32 = 0 then 0 else 1 := by
  rw [digits_toNat (by omega) (by omega)]
  split <;> omega

/-- How many digits are left of a number that is shifted to the right. -/
theorem digits_right {n k : ℕ} (h : k / 32 < n) (hn : n ≤ Heap.maxDigits) :
    (digits ((n : ℤ) * 32 - k)).toNat = n - k / 32 := by
  rw [Heap.maxDigits] at hn
  rw [digits_toNat (by omega) (by omega)]
  omega

/-- **A shift to the left.** -/
theorem leftBody_result (hok : s.Ok) (hr : res < s.next) (htop : (s.obj b).top ≠ 0)
    (ht : s.Trimmed b) (hs : (s.obj res).sign = 1 ∨ (s.obj res).sign = -1) {k : ℕ}
    (hint : (s.obj b).top * 32 + k + 31 < 2 ^ 31) :
    Result s (leftBody s b k res) res 0 ((s.obj res).sign * (s.mag b * 2 ^ k : ℕ)) := by
  rw [leftBody]
  have hroom := mpbits_spec hok hr (((s.obj b).top * 32 + k : ℕ) : ℤ)
  have hn := digits_left hint
  generalize (digits (((s.obj b).top * 32 + k : ℕ) : ℤ)).toNat = n at hroom hn ⊢
  have hk : 32 * (k / 32) + (k - k / 32 * 32) = k := by omega
  have hl : k - k / 32 * 32 < 32 := by omega
  generalize k / 32 = d at hn hk hl ⊢
  generalize k - d * 32 = l at hn hk hl ⊢
  generalize mpbits s res (((s.obj b).top * 32 + k : ℕ) : ℤ) = t at hroom ⊢
  rw [← hn, Heap.need_eq hroom.size_ge]
  have hv := hroom.val_eq hok b
  have hu : Heap.Writes t (t.setTop res n) res 0 :=
    Heap.Writes.setTop hroom.writes.ok (by rw [hroom.next]; exact hr) hroom.size_ge
  have hself : (t.setTop res n).obj res = { t.obj res with top := n } := Heap.setObj_self _ _ _
  have hp := t.setTop_p res b n
  have hmem : (t.setTop res n).mem = t.mem := rfl
  have hnext : res < (t.setTop res n).next := by
    rw [Heap.setTop, Heap.setObj_next, hroom.next]
    exact hr
  generalize t.setTop res n = u at hu hself hp hmem hnext ⊢
  have hsize : n ≤ (u.obj res).size := by
    rw [hself]
    exact hroom.size_ge
  have hsize' : (s.obj b).top + d + (if l = 0 then 0 else 1) ≤ (u.obj res).size := by
    rw [← hn]
    exact hsize
  obtain ⟨h1, h2⟩ := upDigits_spec (b := b) hu.ok hl hsize'
  rw [← hn, hk, hmem, hp, hv] at h1
  rw [← hn, hmem] at h2
  generalize (upDigits u b res (s.obj b).top d l).zero (u.obj res).p d = m at h1 h2 ⊢
  have hw : Heap.Writes u (u.setMem m) res 0 :=
    Heap.Writes.setMem_same hu.ok (by rw [hmem]; exact h2) hsize
  have hmag : (u.setMem m).mag res = s.mag b * 2 ^ k := by
    have h3 : (u.obj res).top = n := by rw [hself]
    rw [Heap.mag, Heap.setMem_mem, Heap.setMem_obj, h3]
    exact h1
  have hsign : ((u.setMem m).obj res).sign = (s.obj res).sign := by
    rw [Heap.setMem_obj, hself]
    exact hroom.sign
  obtain ⟨h3, h4, h5⟩ := trim_spec (r := res) hw.ok hnext
  rw [hmag] at h5
  have hsign' : (((u.setMem m).setTop res (significant (u.setMem m).mem ((u.setMem m).obj res).p
      ((u.setMem m).obj res).top)).obj res).sign = (s.obj res).sign := by
    rw [Heap.setTop, Heap.setObj_self, ← hsign]
  refine ⟨hroom.writes.trans (hu.trans (hw.trans h3)), ⟨?_, fun h0 => ?_, h4⟩, ?_⟩
  · rw [hsign']
    exact hs
  · -- no bit is lost
    have h6 := h4.mag_eq_zero.2 h0
    rw [h5] at h6
    rcases Nat.mul_eq_zero.1 h6 with h7 | h7
    · exact absurd (ht.mag_eq_zero.1 h7) htop
    · exact absurd h7 (Nat.two_pow_pos k).ne'
  · rw [Heap.int, h5, hsign']

/-- The digits that `mpright` writes. -/
theorem downDigits_spec (res : Ref) {d l : ℕ} (hok : s.Ok) (hl : l < 32) (hd : d < (s.obj b).top) :
    (downDigits s b res d l).val (s.obj res).p ((s.obj b).top - d) = s.mag b / 2 ^ (32 * d + l) ∧
      Digits.Same s.mem (downDigits s b res d l) (s.obj res).p ((s.obj b).top - d) := by
  have hclear : ∀ i n, d + i + n ≤ (s.obj b).top →
      Clear (s.obj res).p ((s.obj b).p + d + i) n := fun i n hn => by
    rcases eq_or_ne b res with rfl | hne
    · exact Or.inl (by omega)
    · have htop := hok.top_le b
      rcases hok.apart b res hne with h | h
      · exact Or.inr (by omega)
      · exact Or.inl (by omega)
  obtain ⟨n, hn⟩ := Nat.exists_eq_add_of_lt hd
  have hsub : (s.obj b).top - d = n + 1 := by omega
  -- the digits below are shifted out
  have hhi : s.mag b / 2 ^ (32 * d) = s.mem.val ((s.obj b).p + d) (n + 1) := by
    have h1 : (2 : ℕ) ^ (32 * d) = radix ^ d := by
      rw [pow_mul]
      rfl
    rw [Heap.mag, hn, Nat.add_assoc, Digits.val_add, h1, Nat.add_mul_div_left _ _ (by positivity),
      Nat.div_eq_of_lt (Digits.val_lt _ _ _), Nat.zero_add]
  rw [pow_add, ← Nat.div_div_eq_div_mul, hhi, hsub, downDigits, hsub]
  rcases Nat.eq_zero_or_pos l with rfl | hpos
  · rw [if_pos rfl, pow_zero, Nat.div_one]
    exact digitsDown_spec (hclear 0 (n + 1) (by omega))
  · rw [if_neg (by omega), Nat.add_sub_cancel, Digits.val_succ]
    exact bitsDown_spec (hclear 1 n (by omega)) hpos hl

/-- **A shift to the right** by less than all digits. -/
theorem rightBody_result (hok : s.Ok) (hr : res < s.next) {k : ℕ}
    (hd : k < 32 * (s.obj b).top) (hs : (s.obj res).sign = 1 ∨ (s.obj res).sign = -1) :
    Result s (rightBody s b k res) res 0 ((s.obj res).sign * (s.mag b / 2 ^ k : ℕ)) := by
  rw [rightBody]
  have hk : 32 * (k / 32) + (k - k / 32 * 32) = k := by omega
  have hl : k - k / 32 * 32 < 32 := by omega
  have hdt : k / 32 < (s.obj b).top := by omega
  -- there is room for the result, also where it is the operand
  have hroom : Room s (if res ≠ b then mpbits s res ((s.obj b).top * 32 - k) else s) res
      ((s.obj b).top - k / 32) := by
    by_cases hne : res ≠ b
    · rw [if_pos hne, ← digits_right hdt ((hok.top_le b).trans (hok.size_le b))]
      exact mpbits_spec hok hr _
    · rw [if_neg hne]
      obtain rfl : res = b := not_not.1 hne
      exact ⟨Heap.Writes.refl hok res, rfl, rfl, (Nat.max_eq_left (Nat.sub_le _ _)).symm,
        fun _ _ => rfl, fun i hi hi' => by omega⟩
  have htop : ((if res ≠ b then mpbits s res ((s.obj b).top * 32 - k) else s).obj b).top =
      (s.obj b).top := by
    by_cases hne : res ≠ b
    · rw [if_pos hne] at hroom ⊢
      rw [hroom.writes.obj b hne.symm]
    · rw [if_neg hne]
  generalize (if res ≠ b then mpbits s res ((s.obj b).top * 32 - k) else s) = t at hroom htop ⊢
  have hmag : t.mag b = s.mag b := by
    rw [← hroom.val_eq hok b, Heap.mag, htop]
  have hsize := hroom.size_ge
  have hdt' : k / 32 < (t.obj b).top := by rwa [htop]
  obtain ⟨h1, h2⟩ := downDigits_spec res hroom.writes.ok hl hdt'
  rw [hk, hmag] at h1
  rw [htop] at h1 h2
  simp only [htop, if_neg (Nat.not_le_of_lt hdt), Heap.need_eq hsize]
  generalize k / 32 = d at *
  generalize downDigits t b res d (k - d * 32) = m at h1 h2 ⊢
  have hw : Heap.Writes t (t.setMem m) res 0 := Heap.Writes.setMem_same hroom.writes.ok h2 hsize
  have hres := mpnorm_put_result hroom.writes.ok (by rw [hroom.next]; exact hr)
    (Within.of_same (k := 0) h2 hsize rfl) hsize hs
  rw [h1] at hres
  have heq : downEnd (t.setMem m) res ((s.obj b).top - d) =
      mpnorm (t.put res m (s.obj res).sign ((s.obj b).top - d)) res := by
    rw [downEnd, mpnorm, ← hroom.sign]
    simp only [Heap.put_obj, Heap.put_mem]
    simp only [Heap.put, Heap.setTop, Heap.setObj_setObj, Heap.setObj_self]
    rfl
  rw [heq]
  exact Result.trans hroom.writes hres

/-- A shift to the right by all digits: the sign stays. -/
theorem rightBody_out (hok : s.Ok) (hr : res < s.next) (hd : 32 * (s.obj b).top ≤ k) :
    Heap.Writes s (rightBody s b k res) res 0 ∧ ((rightBody s b k res).obj res).top = 0 ∧
      ((rightBody s b k res).obj res).sign = (s.obj res).sign := by
  rw [rightBody]
  have hroom : ∃ n, Room s (if res ≠ b then mpbits s res ((s.obj b).top * 32 - k) else s) res n ∧
      ((if res ≠ b then mpbits s res ((s.obj b).top * 32 - k) else s).obj b).top =
        (s.obj b).top := by
    by_cases hne : res ≠ b
    · have h := mpbits_spec hok hr ((s.obj b).top * 32 - k : ℤ)
      rw [if_pos hne]
      exact ⟨_, h, by rw [h.writes.obj b hne.symm]⟩
    · rw [if_neg hne]
      exact ⟨0, ⟨Heap.Writes.refl hok res, rfl, rfl, (Nat.max_zero _).symm, fun _ _ => rfl,
        fun i _ hi => absurd hi (Nat.not_lt_zero i)⟩, rfl⟩
  obtain ⟨n, hroom, htop⟩ := hroom
  generalize (if res ≠ b then mpbits s res ((s.obj b).top * 32 - k) else s) = t at hroom htop ⊢
  have hdt : (s.obj b).top ≤ k / 32 := by omega
  simp only [htop, if_pos hdt]
  refine ⟨hroom.writes.trans (Heap.Writes.setTop hroom.writes.ok (by rw [hroom.next]; exact hr)
    (Nat.zero_le _)), ?_, ?_⟩
  · rw [Heap.setTop, Heap.setObj_self]
  · rw [Heap.setTop, Heap.setObj_self, ← hroom.sign]

/-- A number whose sign is set from an operand; where the operand has no digits, neither has the
result. -/
theorem signed_start (hok : s.Ok) (hr : res < s.next) (h : s.Normal b) :
    Heap.Writes s (s.setSign res (s.obj b).sign) res 0 ∧
      ((s.setSign res (s.obj b).sign).obj res).sign = (s.obj b).sign ∧
      ((s.setSign res (s.obj b).sign).obj b).top = (s.obj b).top ∧
      (s.setSign res (s.obj b).sign).Normal b ∧
      (s.setSign res (s.obj b).sign).mag b = s.mag b := by
  have hw := Heap.Writes.setSign hok hr (s.obj b).sign
  refine ⟨hw, by rw [Heap.setSign, Heap.setObj_self], ?_⟩
  rcases eq_or_ne b res with rfl | hne
  · have heq : s.setSign b (s.obj b).sign = s := by
      simp only [Heap.setSign, Heap.setObj, Function.update_eq_self]
    rw [heq]
    exact ⟨rfl, h, rfl⟩
  · exact ⟨by rw [hw.obj b hne], hw.normal hok hne h, hw.mag_eq hok hne⟩

/-- The result of a shift of zero. -/
theorem setTop_zero_result (hok : s.Ok) (hr : res < s.next) (hs : (s.obj res).sign = 1) :
    Result s (s.setTop res 0) res 0 0 := by
  have hself : (s.setTop res 0).obj res = { s.obj res with top := 0 } := Heap.setObj_self _ _ _
  refine ⟨Heap.Writes.setTop hok hr (Nat.zero_le _), ⟨?_, fun _ => ?_, fun n hn => ?_⟩, ?_⟩
  · rw [hself]
    exact Or.inl hs
  · rw [hself]
    exact hs
  · rw [hself] at hn
    exact absurd hn (Nat.succ_ne_zero n).symm
  · rw [Heap.int, Heap.mag, hself, Digits.val_zero, Nat.cast_zero, mul_zero]

/-- **A shift to the left by too many bits** has no space. -/
theorem leftBody_lost (hok : s.Ok) (hr : res < s.next) {k : ℕ}
    (hlong : 2 ^ 31 ≤ (s.obj b).top * 32 + k + 31) : (leftBody s b k res).lost = true := by
  rw [leftBody]
  have hsize := (mpbits_spec hok hr (((s.obj b).top * 32 + k : ℕ) : ℤ)).writes.ok.size_le res
  have hdigits : Heap.maxDigits <
      (s.obj b).top + k / 32 + if k - k / 32 * 32 = 0 then 0 else 1 := by
    rw [Heap.maxDigits]
    split <;> omega
  exact Heap.need_lost (hsize.trans_lt hdigits)

/-- **A shift to the left is exact,** if and only if an `int` counts the bits of the result. -/
theorem leftNonneg_iff (hok : s.Ok) (hr : res < s.next) (h : s.Normal b) (k : ℕ) :
    Result s (leftNonneg s b k res) res 0 (s.int b * 2 ^ k) ↔
      ((s.obj b).top ≠ 0 → (s.obj b).top * 32 + k + 31 < 2 ^ 31) := by
  obtain ⟨hw, hsign, htop, hn, hmag⟩ := signed_start hok hr h
  rw [leftNonneg]
  generalize s.setSign res (s.obj b).sign = t at hw hsign htop hn hmag ⊢
  have hr' : res < t.next := hr.trans_le hw.next_le
  by_cases h0 : (t.obj b).top = 0
  · simp only [h0, if_true]
    have hb0 : (s.obj b).top = 0 := by rw [← htop, h0]
    rw [h.int_eq_zero.2 hb0, zero_mul]
    exact ⟨fun _ hne => absurd hb0 hne, fun _ =>
      Result.trans hw (setTop_zero_result hw.ok hr' (by rw [hsign]; exact h.zero hb0))⟩
  · simp only [h0, if_false]
    rw [← htop]
    constructor
    · intro hres _
      by_contra hlong
      exact Bool.false_ne_true
        (hres.writes.ok.found.symm.trans (leftBody_lost hw.ok hr' (Nat.le_of_not_lt hlong)))
    · intro hint
      have h1 := leftBody_result hw.ok hr' h0 hn.trimmed (by rw [hsign]; exact h.sign) (hint h0)
      rw [hsign, hmag, Nat.cast_mul, ← mul_assoc, Nat.cast_pow] at h1
      exact Result.trans hw h1

theorem Heap.Normal.tdiv_int (h : s.Normal b) (n : ℕ) :
    (s.int b).tdiv n = (s.obj b).sign * (s.mag b / n : ℕ) := by
  rw [Heap.int]
  rcases h.sign with h1 | h1 <;> rw [h1]
  · rw [one_mul, one_mul]
    exact Int.ofNat_tdiv _ _
  · rw [neg_one_mul, neg_one_mul, Int.neg_tdiv]
    exact congrArg Neg.neg (Int.ofNat_tdiv _ _)

/-- **A shift to the right is exact,** except where all bits of a negative number are shifted
out: the result has no digits, but a negative sign. -/
theorem rightNonneg_iff (hok : s.Ok) (hr : res < s.next) (h : s.Normal b) (k : ℕ) :
    Result s (rightNonneg s b k res) res 0 ((s.int b).tdiv (2 ^ k)) ↔
      ¬(s.int b < 0 ∧ 32 * (s.obj b).top ≤ k) := by
  obtain ⟨hw, hsign, htop, hn, hmag⟩ := signed_start hok hr h
  rw [rightNonneg]
  generalize s.setSign res (s.obj b).sign = t at hw hsign htop hn hmag ⊢
  have hr' : res < t.next := hr.trans_le hw.next_le
  have hz : (s.int b).tdiv (2 ^ k) = (s.obj b).sign * (s.mag b / 2 ^ k : ℕ) := by
    rw [← h.tdiv_int, Nat.cast_pow]
    rfl
  by_cases h0 : (t.obj b).top = 0
  · simp only [h0, if_true]
    have hb0 : (s.obj b).top = 0 := by rw [← htop, h0]
    rw [h.int_eq_zero.2 hb0, Int.zero_tdiv]
    exact ⟨fun _ hlt => absurd hlt.1 (lt_irrefl 0), fun _ =>
      Result.trans hw (setTop_zero_result hw.ok hr' (by rw [hsign]; exact h.zero hb0))⟩
  · simp only [h0, if_false]
    rcases Nat.lt_or_ge k (32 * (s.obj b).top) with hd | hd
    · have h1 := rightBody_result (k := k) (b := b) hw.ok hr' (by rwa [htop])
        (by rw [hsign]; exact h.sign)
      rw [hsign, hmag] at h1
      rw [hz]
      exact ⟨fun _ hlt => by omega, fun _ => Result.trans hw h1⟩
    · obtain ⟨h1, h2, h3⟩ := rightBody_out (k := k) (b := b) hw.ok hr' (by rwa [htop])
      rw [hsign] at h3
      have hlt : s.mag b < 2 ^ k := by
        have h4 : radix ^ (s.obj b).top = 2 ^ (32 * (s.obj b).top) := by
          rw [pow_mul]
          rfl
        calc s.mag b < radix ^ (s.obj b).top := Digits.val_lt _ _ _
          _ ≤ 2 ^ k := by
            rw [h4]
            exact Nat.pow_le_pow_right (by decide) hd
      have hb0 : (s.obj b).top ≠ 0 := by rwa [← htop]
      rw [hz, Nat.div_eq_of_lt hlt, Nat.cast_zero, mul_zero]
      constructor
      · -- a zero with a negative sign is not normalized
        rintro ⟨-, h4, -⟩ ⟨h5, -⟩
        have h6 := h4.zero h2
        rw [h3] at h6
        rw [Heap.Normal.int_of_pos h6] at h5
        omega
      · intro h4
        have h5 : (s.obj b).sign = 1 := by
          refine h.sign.resolve_right fun h6 => h4 ⟨?_, hd⟩
          obtain ⟨h7, h8⟩ := h.int_of_neg h6
          omega
        refine ⟨hw.trans h1, ⟨?_, fun _ => ?_, fun n hn' => ?_⟩, ?_⟩
        · rw [h3, h5]
          exact Or.inl rfl
        · rw [h3, h5]
        · rw [h2] at hn'
          exact absurd hn' (Nat.succ_ne_zero n).symm
        · rw [Heap.int, Heap.mag, h2, Digits.val_zero, Nat.cast_zero, mul_zero]

theorem shift_of_nonneg {z x : ℤ} (hx : 0 ≤ x) : shift z x = z * 2 ^ x.toNat := if_pos hx

theorem shift_of_neg {z x : ℤ} (hx : x < 0) : shift z x = z.tdiv (2 ^ (-x).toNat) :=
  if_neg (not_le.2 hx)

theorem shift_zero (z : ℤ) : z.tdiv (2 ^ 0) = z * 2 ^ 0 := by
  rw [pow_zero, Int.tdiv_one, mul_one]

/-- The sign of the result is set once or twice. -/
theorem setSign_again (s : Heap) (b res : Ref) :
    (s.setSign res (s.obj b).sign).setSign res ((s.setSign res (s.obj b).sign).obj b).sign =
      s.setSign res (s.obj b).sign := by
  have h : ((s.setSign res (s.obj b).sign).obj b).sign = (s.obj b).sign := by
    rcases eq_or_ne b res with rfl | hne
    · rw [Heap.setSign, Heap.setObj_self]
    · rw [Heap.setSign, Heap.setObj_of_ne _ _ hne]
  rw [h]
  simp only [Heap.setSign, Heap.setObj_setObj, Heap.setObj_self]

/-- `mpright` of a negative shift is a shift to the left. -/
theorem mpright_eq (s : Heap) (b : Ref) {x : ℤ} (res : Ref) (hx : x ≠ intMin) :
    mpright s b x res =
      if x < 0 then leftNonneg s b (-x).toNat res else rightNonneg s b x.toNat res := by
  rw [mpright, leftNonneg, rightNonneg, leftNonneg, setSign_again]
  generalize s.setSign res (s.obj b).sign = t
  by_cases h0 : (t.obj b).top = 0 <;> simp only [h0, hx, if_true, if_false, ite_self]

/-- `mpleft` of a negative shift is a shift to the right. -/
theorem mpleft_eq (s : Heap) (b : Ref) {x : ℤ} (res : Ref) (hx : x ≠ intMin) :
    mpleft s b x res =
      if x < 0 then rightNonneg s b (-x).toNat res else leftNonneg s b x.toNat res := by
  rw [mpleft, leftNonneg, rightNonneg, rightNonneg, setSign_again]
  generalize s.setSign res (s.obj b).sign = t
  by_cases h0 : (t.obj b).top = 0 <;> simp only [h0, hx, if_true, if_false, ite_self]

/-- What a shift by `intMin` leaves. -/
def shiftMin (s : Heap) (b res : Ref) : Heap :=
  let s := s.setSign res (s.obj b).sign
  if (s.obj b).top = 0 then s.setTop res 0 else shiftLost s

theorem mpright_min (s : Heap) (b res : Ref) : mpright s b intMin res = shiftMin s b res := by
  rw [mpright, shiftMin]
  simp only [if_true]

theorem mpleft_min (s : Heap) (b res : Ref) : mpleft s b intMin res = shiftMin s b res := by
  rw [mpleft, shiftMin]
  simp only [if_true]

/-- **A shift by the smallest `int`** ends for zero only. -/
theorem shiftMin_iff (hok : s.Ok) (hr : res < s.next) (h : s.Normal b) (k : ℤ) :
    Result s (shiftMin s b res) res 0 (shift (s.int b) k) ↔ (s.obj b).top = 0 := by
  obtain ⟨hw, hsign, htop, -, -⟩ := signed_start hok hr h
  rw [shiftMin]
  generalize s.setSign res (s.obj b).sign = t at hw hsign htop ⊢
  have hr' : res < t.next := hr.trans_le hw.next_le
  by_cases h0 : (t.obj b).top = 0
  · simp only [h0, if_true]
    have hb0 : (s.obj b).top = 0 := by rw [← htop, h0]
    have hzero : shift (s.int b) k = 0 := by
      rw [shift, h.int_eq_zero.2 hb0, zero_mul, Int.zero_tdiv, ite_self]
    rw [hzero]
    exact ⟨fun _ => hb0, fun _ =>
      Result.trans hw (setTop_zero_result hw.ok hr' (by rw [hsign]; exact h.zero hb0))⟩
  · simp only [h0, if_false]
    rw [← htop]
    exact ⟨fun hres => absurd hres.writes.ok.found Bool.noConfusion, fun h1 => absurd h1 h0⟩

/-- **`mpright` is exact,** except where all bits of a negative number are shifted out, and where
an `int` does not count the bits of the result. -/
theorem mpright_result_iff (hok : s.Ok) (hr : res < s.next) (h : s.Normal b) {x : ℤ}
    (hx : -2 ^ 31 ≤ x) :
    Result s (mpright s b x res) res 0 (shift (s.int b) (-x)) ↔
      ¬(s.int b < 0 ∧ 32 * ((s.obj b).top : ℤ) ≤ x) ∧
        ((s.obj b).top ≠ 0 → x < 0 → (s.obj b).top * 32 - x + 31 < 2 ^ 31) := by
  rcases eq_or_ne x intMin with rfl | hmin
  · rw [mpright_min, shiftMin_iff hok hr h, intMin]
    refine ⟨fun h0 => ⟨fun hlt => by omega, fun h1 => absurd h0 h1⟩, fun hlt => ?_⟩
    by_contra h0
    have := hlt.2 h0 (by omega)
    omega
  rw [mpright_eq s b res hmin]
  rcases lt_trichotomy x 0 with hx0 | rfl | hx0
  · rw [if_pos hx0, shift_of_nonneg (by omega), leftNonneg_iff hok hr h]
    refine ⟨fun hfits => ⟨fun hlt => by omega, fun h0 _ => ?_⟩, fun hlt h0 => ?_⟩
    · have := hfits h0
      omega
    · have := hlt.2 h0 hx0
      omega
  · rw [if_neg (lt_irrefl 0), neg_zero, shift_of_nonneg le_rfl, Int.toNat_zero, ← shift_zero,
      rightNonneg_iff hok hr h 0]
    exact ⟨fun hlt => ⟨fun h1 => hlt ⟨h1.1, by omega⟩, fun _ h1 => absurd h1 (lt_irrefl 0)⟩,
      fun hlt h1 => hlt.1 ⟨h1.1, by omega⟩⟩
  · rw [if_neg (not_lt.2 hx0.le), shift_of_neg (by omega), neg_neg, rightNonneg_iff hok hr h]
    exact ⟨fun hlt => ⟨fun h1 => hlt ⟨h1.1, by omega⟩, fun _ h1 => by omega⟩,
      fun hlt h1 => hlt.1 ⟨h1.1, by omega⟩⟩

/-- **`mpleft` is exact,** except where a negative shift takes all bits of a negative number, and
where an `int` does not count the bits of the result. -/
theorem mpleft_result_iff (hok : s.Ok) (hr : res < s.next) (h : s.Normal b) {x : ℤ}
    (hx : -2 ^ 31 ≤ x) :
    Result s (mpleft s b x res) res 0 (shift (s.int b) x) ↔
      ¬(s.int b < 0 ∧ 32 * ((s.obj b).top : ℤ) ≤ -x) ∧
        ((s.obj b).top ≠ 0 → x ≠ intMin ∧ (0 ≤ x → (s.obj b).top * 32 + x + 31 < 2 ^ 31)) := by
  rcases eq_or_ne x intMin with rfl | hmin
  · rw [mpleft_min, shiftMin_iff hok hr h]
    refine ⟨fun h0 => ⟨fun hlt => ?_, fun h1 => absurd h0 h1⟩, fun hlt => ?_⟩
    · exact absurd (h.int_eq_zero.2 h0) hlt.1.ne
    · by_contra h0
      exact (hlt.2 h0).1 rfl
  rw [mpleft_eq s b res hmin]
  rcases lt_or_ge x 0 with hx0 | hx0
  · rw [if_pos hx0, shift_of_neg hx0, rightNonneg_iff hok hr h]
    exact ⟨fun hlt => ⟨fun h1 => hlt ⟨h1.1, by omega⟩, fun _ => ⟨hmin, fun h1 => by omega⟩⟩,
      fun hlt h1 => hlt.1 ⟨h1.1, by omega⟩⟩
  · rw [if_neg (not_lt.2 hx0), shift_of_nonneg hx0, leftNonneg_iff hok hr h]
    refine ⟨fun hfits => ⟨fun hlt => ?_, fun h0 => ⟨hmin, fun _ => ?_⟩⟩, fun hlt h0 => ?_⟩
    · -- a shift by nothing, of a number without digits
      have htop : (s.obj b).top = 0 := by omega
      exact absurd (h.int_eq_zero.2 htop) hlt.1.ne
    · have := hfits h0
      omega
    · have := (hlt.2 h0).2 hx0
      omega

/-! ### All together -/

/-- What the operations are for, on two operands, a result, and a shift. -/
structure Ring (s : Heap) (b1 b2 res : Ref) (x : Int32) : Prop where
  add : Result s (mpadd s b1 b2 res) res 0 (s.int b1 + s.int b2)
  sub : Result s (mpsub s b1 b2 res) res 0 (s.int b1 - s.int b2)
  mul : Result s (mpmul s b1 b2 res) res (mulScratch (max (s.obj b1).top (s.obj b2).top))
    (s.int b1 * s.int b2)
  left : Result s (mpleft s b1 x.toInt res) res 0 (shift (s.int b1) x.toInt)
  right : Result s (mpright s b1 x.toInt res) res 0 (shift (s.int b1) (-x.toInt))
  cmp : (mpcmp s b1 b2).sign = (s.int b1 - s.int b2).sign
  vecmul : ∀ n, Multiplies mpvecmul n (mulScratch n)

/-- An `int` counts the bits that are asked for, rounded up to digits: those of a product, and those
of a number that is shifted to the left. -/
structure Counted (s : Heap) (b1 b2 : Ref) (x : Int32) : Prop where
  mul : ((s.obj b1).top + (s.obj b2).top + 1) * 32 + 31 < 2 ^ 31
  left : (s.obj b1).top ≠ 0 → (s.obj b1).top * 32 + |x.toInt| + 31 < 2 ^ 31

theorem scratch_fuel_mono {f f' : ℕ} (h : f ≤ f') (l : ℕ) : scratch f l ≤ scratch f' l := by
  induction f generalizing f' l with
  | zero => exact Nat.zero_le _
  | succ f ih =>
    obtain ⟨e, rfl⟩ : ∃ e, f' = e + 1 := ⟨f' - 1, by omega⟩
    rw [scratch, scratch]
    split
    · exact Nat.add_le_add_left (ih (Nat.le_of_succ_le_succ h) _) _
    · exact le_rfl

theorem mpvecmul_multiplies (n : ℕ) : Multiplies mpvecmul n (mulScratch n) := by
  intro m brk a alen b blen p ha hb hab hbb hp hpa hpb hz
  obtain ⟨h1, h2⟩ := mpvecmul_spec (m := m) hab hbb hp hpa hpb hz
  refine ⟨h1, fun j hj hj' => h2 j hj (hj'.imp_right fun h => ?_)⟩
  have h3 : max alen blen ≤ n := Nat.max_le.2 ⟨ha, hb⟩
  have h4 : scratch (max alen blen + 1) (max alen blen) ≤ mulScratch n :=
    (scratch_mono _ h3).trans (scratch_fuel_mono (Nat.succ_le_succ h3) n)
  omega

/-- **The operations are exact, whether or not the result is an operand,** if and only if an `int`
counts their bits and the shift does not take all bits of a negative number. -/
theorem ring_iff (hok : s.Ok) (hr : res < s.next) (hr1 : b1 < s.next) (hr2 : b2 < s.next)
    (h1 : s.Normal b1) (h2 : s.Normal b2) (x : Int32) :
    Ring s b1 b2 res x ↔
      Counted s b1 b2 x ∧ ¬(s.int b1 < 0 ∧ 32 * ((s.obj b1).top : ℤ) ≤ |x.toInt|) := by
  have hmin : -2 ^ 31 ≤ x.toInt := x.le_toInt
  have hmax : (s.obj b1).top + (s.obj b2).top < Heap.maxDigits ↔
      ((s.obj b1).top + (s.obj b2).top + 1) * 32 + 31 < 2 ^ 31 := by
    rw [Heap.maxDigits]
    omega
  constructor
  · rintro ⟨-, -, hmul, hl, hr', -, -⟩
    obtain ⟨hl, hl'⟩ := (mpleft_result_iff hok hr h1 hmin).1 hl
    obtain ⟨hout, hr'⟩ := (mpright_result_iff hok hr h1 hmin).1 hr'
    refine ⟨⟨hmax.1 ((mpmul_result_iff hok hr hr1 hr2 h1 h2).1 hmul), fun h0 => ?_⟩, ?_⟩
    · rcases abs_cases x.toInt with ⟨habs, h3⟩ | ⟨habs, h3⟩
      · rw [habs]
        exact (hl' h0).2 h3
      · have := hr' h0 h3
        omega
    · rintro ⟨h3, h4⟩
      rcases abs_choice x.toInt with h5 | h5
      · exact hout ⟨h3, by omega⟩
      · exact hl ⟨h3, by omega⟩
  · rintro ⟨⟨hmul, hleft⟩, h3⟩
    have h4 := le_abs_self x.toInt
    have h5 := neg_le_abs x.toInt
    have hfits : max (s.obj b1).top (s.obj b2).top < Heap.maxDigits := by
      have := hmax.2 hmul
      omega
    refine ⟨mpadd_result hok hr h1 h2 fun _ => hfits, mpsub_result hok hr h1 h2 hfits,
      (mpmul_result_iff hok hr hr1 hr2 h1 h2).2 (hmax.2 hmul),
      (mpleft_result_iff hok hr h1 hmin).2 ⟨fun h6 => h3 ⟨h6.1, by omega⟩, fun h0 => ?_⟩,
      (mpright_result_iff hok hr h1 hmin).2 ⟨fun h6 => h3 ⟨h6.1, by omega⟩, fun h0 _ => ?_⟩,
      mpcmp_sign h1 h2, mpvecmul_multiplies⟩
    · have h6 := hleft h0
      have hintMin : intMin = -2 ^ 31 := rfl
      exact ⟨fun h7 => by omega, fun _ => by omega⟩
    · have h6 := hleft h0
      omega

/-! ### A number alone -/

/-- A heap with one number of one digit. -/
def oneNumber (sign : ℤ) (x : UInt32) : Heap where
  mem j := if j = 0 then x else 0
  brk := 1
  obj := Function.update (fun _ => Mpint.none) 0 ⟨sign, 1, 1, 0⟩
  next := 1
  mindigits := 33
  lost := false

theorem oneNumber_of_ne {sign : ℤ} {x : UInt32} (hr : r ≠ 0) :
    (oneNumber sign x).obj r = Mpint.none := by
  simp only [oneNumber, Function.update_of_ne hr]

theorem oneNumber_ok (sign : ℤ) (x : UInt32) : (oneNumber sign x).Ok where
  top_le r := by
    rcases eq_or_ne r 0 with rfl | hr
    · exact le_rfl
    · rw [oneNumber_of_ne hr]
      exact le_rfl
  size_le r := by
    rcases eq_or_ne r 0 with rfl | hr
    · exact (by decide : 1 ≤ Heap.maxDigits)
    · rw [oneNumber_of_ne hr]
      exact Nat.zero_le _
  mindigits_le := (by decide : 33 ≤ Heap.maxDigits)
  found := rfl
  below r := by
    rcases eq_or_ne r 0 with rfl | hr
    · exact le_rfl
    · rw [oneNumber_of_ne hr]
      exact Nat.zero_le _
  apart r r' hne := by
    rcases eq_or_ne r 0 with rfl | hr
    · rw [oneNumber_of_ne hne.symm]
      exact Or.inr (Nat.zero_le _)
    · rw [oneNumber_of_ne hr]
      exact Or.inl (Nat.zero_le _)
  unused r hr := oneNumber_of_ne (Nat.pos_iff_ne_zero.1 hr)

theorem oneNumber_normal {sign : ℤ} {x : UInt32} (hs : sign = 1 ∨ sign = -1) (hx : x ≠ 0) :
    (oneNumber sign x).Normal 0 where
  sign := hs
  zero h := absurd h (by decide : ¬(1 : ℕ) = 0)
  trimmed n hn := by
    obtain rfl : n = 0 := Nat.succ_injective hn.symm
    exact hx

theorem oneNumber_int (sign : ℤ) (x : UInt32) : (oneNumber sign x).int 0 = sign * x.toNat := by
  have h : (oneNumber sign x).mag 0 = x.toNat := Digits.val_one _ _
  rw [Heap.int, h]
  rfl

/-- Minus one, shifted to the right by a whole digit, has no digits and a negative sign. -/
theorem not_ring_minusOne :
    ¬∀ (s : Heap) (b1 b2 res : Ref) (x : Int32), s.Ok → res < s.next → b1 < s.next → b2 < s.next →
      s.Normal b1 → s.Normal b2 → Ring s b1 b2 res x := by
  intro h
  have hn : (oneNumber (-1) 1).Normal 0 := oneNumber_normal (Or.inr rfl) (by decide)
  have h1 := (h (oneNumber (-1) 1) 0 0 0 32 (oneNumber_ok _ _) Nat.one_pos Nat.one_pos Nat.one_pos
    hn hn).right
  refine ((mpright_result_iff (oneNumber_ok _ _) Nat.one_pos hn (by decide)).1 h1).1 ⟨?_, le_rfl⟩
  rw [oneNumber_int]
  decide

/-- One, shifted by a whole digit to both sides. -/
theorem ring_iff_one : Ring (oneNumber 1 1) 0 0 0 32 ↔ Counted (oneNumber 1 1) 0 0 32 ∧
    ¬((oneNumber 1 1).int 0 < 0 ∧ 32 * (((oneNumber 1 1).obj 0).top : ℤ) ≤ |(32 : Int32).toInt|) :=
  ring_iff (oneNumber_ok _ _) Nat.one_pos Nat.one_pos Nat.one_pos
    (oneNumber_normal (Or.inl rfl) (by decide)) (oneNumber_normal (Or.inl rfl) (by decide)) 32

end Mp

end Plan9
