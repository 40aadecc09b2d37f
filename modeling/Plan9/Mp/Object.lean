import Plan9.Mp.Mpint

/-!
# Objects that keep apart

What every operation on numbers keeps: each object has its own space for digits, and a write to
one object leaves the others as they are.

* `Plan9.Mp.Heap.Writes` – an operation changes one object, its space and new memory only;
  `Heap.Writes.mag_eq` – so the other numbers stay;
* `Plan9.Mp.mpbits_spec` – room for digits; the digits that are there can still be read, also
  by an operand that is the result;
* `Plan9.Mp.Result` – the result of an operation is a normalized number with a given value;
  `Plan9.Mp.mpnorm_result`, `Plan9.Mp.mpassign_result`.
-/

namespace Plan9

namespace Mp

open Lib Function

namespace Heap

variable {s s' s'' : Heap} {r r' res : Ref} {x : Mpint} {j k n : ℕ}

/-! ### Writing an object -/

@[simp]
theorem setObj_self (s : Heap) (r : Ref) (x : Mpint) : (s.setObj r x).obj r = x := by
  simp only [setObj, update_self]

theorem setObj_of_ne (s : Heap) (x : Mpint) (h : r' ≠ r) : (s.setObj r x).obj r' = s.obj r' := by
  simp only [setObj, update_of_ne h]

@[simp]
theorem setObj_mem (s : Heap) (r : Ref) (x : Mpint) : (s.setObj r x).mem = s.mem := rfl

@[simp]
theorem setObj_brk (s : Heap) (r : Ref) (x : Mpint) : (s.setObj r x).brk = s.brk := rfl

@[simp]
theorem setObj_next (s : Heap) (r : Ref) (x : Mpint) : (s.setObj r x).next = s.next := rfl

@[simp]
theorem setMem_obj (s : Heap) (m : Digits) : (s.setMem m).obj = s.obj := rfl

@[simp]
theorem setMem_mem (s : Heap) (m : Digits) : (s.setMem m).mem = m := rfl

@[simp]
theorem setMem_brk (s : Heap) (m : Digits) : (s.setMem m).brk = s.brk := rfl

@[simp]
theorem setMem_next (s : Heap) (m : Digits) : (s.setMem m).next = s.next := rfl

@[simp]
theorem setObj_setObj (s : Heap) (r : Ref) (x y : Mpint) :
    (s.setObj r x).setObj r y = s.setObj r y := by
  simp only [setObj, update_idem]

theorem setObj_setMem (s : Heap) (r : Ref) (x : Mpint) (m : Digits) :
    (s.setObj r x).setMem m = (s.setMem m).setObj r x := rfl

/-- Where the digits of a number lie does not depend on its sign and length. -/
@[simp]
theorem setObj_p (s : Heap) (r r' : Ref) (sign : ℤ) (top : ℕ) :
    ((s.setObj r { s.obj r with sign := sign, top := top }).obj r').p = (s.obj r').p := by
  by_cases h : r' = r
  · rw [h, setObj_self]
  · rw [setObj_of_ne s _ h]

@[simp]
theorem setTop_p (s : Heap) (r r' : Ref) (top : ℕ) : ((s.setTop r top).obj r').p = (s.obj r').p :=
  setObj_p s r r' (s.obj r).sign top

@[simp]
theorem need_obj (s : Heap) (r : Ref) (n : ℕ) : (s.need r n).obj = s.obj := rfl

/-- Digits that are in the space of a number may be used. -/
theorem need_eq (h : n ≤ (s.obj r).size) : s.need r n = s := by
  rw [need, decide_eq_false (Nat.not_lt.2 h), Bool.or_false]

theorem need_lost (h : (s.obj r).size < n) : (s.need r n).lost = true := by
  rw [need, decide_eq_true h, Bool.or_true]

/-! ### The invariant -/

/-- The most digits a number has space for: an `int` counts no more bits. -/
def maxDigits : ℕ := 2 ^ 26 - 1

/-- The objects have spaces of their own, below free memory, and nothing has gone wrong. -/
structure Ok (s : Heap) : Prop where
  top_le : ∀ r, (s.obj r).top ≤ (s.obj r).size
  size_le : ∀ r, (s.obj r).size ≤ maxDigits
  mindigits_le : s.mindigits ≤ maxDigits
  found : s.lost = false
  below : ∀ r, (s.obj r).p + (s.obj r).size ≤ s.brk
  apart : ∀ r r', r ≠ r' → Disjoint (s.obj r).p (s.obj r).size (s.obj r').p (s.obj r').size
  unused : ∀ r, s.next ≤ r → s.obj r = Mpint.none

/-- A number without leading zeros. -/
def Trimmed (s : Heap) (r : Ref) : Prop :=
  ∀ n, (s.obj r).top = n + 1 → s.mem ((s.obj r).p + n) ≠ 0

/-- A normalized number; zero is positive. -/
structure Normal (s : Heap) (r : Ref) : Prop where
  sign : (s.obj r).sign = 1 ∨ (s.obj r).sign = -1
  zero : (s.obj r).top = 0 → (s.obj r).sign = 1
  trimmed : s.Trimmed r

/-- **What an operation may change**: the object `res`, the digits in its space, and memory that
was free, of which `k` digits are freed again. -/
structure Writes (s s' : Heap) (res : Ref) (k : ℕ) : Prop where
  ok : s'.Ok
  brk_le : s.brk ≤ s'.brk
  next_le : s.next ≤ s'.next
  obj : ∀ r, r ≠ res → s'.obj r = s.obj r
  mem : ∀ j, j < (s.obj res).p ∨ (s.obj res).p + (s.obj res).size ≤ j →
    j < s.brk ∨ s'.brk + k ≤ j → s'.mem j = s.mem j
  space : (s'.obj res).p = (s.obj res).p ∧ (s'.obj res).size = (s.obj res).size ∨
    s.brk ≤ (s'.obj res).p ∨ (s'.obj res).size = 0

theorem Writes.refl (hok : s.Ok) (res : Ref) : Writes s s res 0 :=
  ⟨hok, le_rfl, le_rfl, fun _ _ => rfl, fun _ _ _ => rfl, Or.inl ⟨rfl, rfl⟩⟩

theorem Writes.mono {k' : ℕ} (h : Writes s s' res k) (hk : k ≤ k') : Writes s s' res k' :=
  { h with mem := fun j hj hj' => h.mem j hj (hj'.imp_right fun h' => by omega) }

theorem Writes.trans (h : Writes s s' res k) (h' : Writes s' s'' res k) : Writes s s'' res k where
  ok := h'.ok
  brk_le := h.brk_le.trans h'.brk_le
  next_le := h.next_le.trans h'.next_le
  obj r hr := (h'.obj r hr).trans (h.obj r hr)
  mem j hj hj' := by
    have hbrk := h'.brk_le
    have hbelow := h.ok.below res
    have h1 : s'.mem j = s.mem j := h.mem j hj (hj'.imp_right fun h0 => by omega)
    have h2 : s''.mem j = s'.mem j := by
      refine h'.mem j ?_ (hj'.imp (fun h0 => h0.trans_le h.brk_le) id)
      -- the space of the result is the old one, or was free before, or is none
      rcases h.space with ⟨hp, hs⟩ | hp | hs
      · rw [hp, hs]
        exact hj
      · omega
      · omega
    rw [h2, h1]
  space := by
    have hbrk := h.brk_le
    rcases h'.space with ⟨hp', hs'⟩ | hp' | hs'
    · rcases h.space with ⟨hp, hs⟩ | hp | hs
      · exact Or.inl ⟨hp'.trans hp, hs'.trans hs⟩
      · exact Or.inr (Or.inl (by omega))
      · exact Or.inr (Or.inr (by omega))
    · exact Or.inr (Or.inl (hbrk.trans hp'))
    · exact Or.inr (Or.inr hs')

section

variable (hok : s.Ok)

include hok

/-- The digits of the other objects stay. -/
theorem Writes.digit_eq (h : Writes s s' res k) (hr : r ≠ res)
    (hj : (s.obj r).p ≤ j) (hj' : j < (s.obj r).p + (s.obj r).size) : s'.mem j = s.mem j := by
  have hbelow := hok.below r
  have hapart := hok.apart r res hr
  refine h.mem j ?_ (Or.inl (by omega))
  rcases hapart with h1 | h1 <;> omega

theorem Writes.val_eq (h : Writes s s' res k) (hr : r ≠ res)
    (hn : n ≤ (s.obj r).size) : s'.mem.val (s.obj r).p n = s.mem.val (s.obj r).p n :=
  Digits.val_frame fun _ hj hj' => h.digit_eq hok hr hj (by omega)

/-- **The other numbers stay.** -/
theorem Writes.mag_eq (h : Writes s s' res k) (hr : r ≠ res) : s'.mag r = s.mag r := by
  rw [mag, h.obj r hr]
  exact h.val_eq hok hr (hok.top_le r)

theorem Writes.trimmed (h : Writes s s' res k) (hr : r ≠ res) (ht : s.Trimmed r) :
    s'.Trimmed r := by
  intro n hn
  rw [h.obj r hr] at hn ⊢
  have htop := hok.top_le r
  rw [h.digit_eq hok hr (Nat.le_add_right _ _) (by omega)]
  exact ht n hn

theorem Writes.normal (h : Writes s s' res k) (hr : r ≠ res) (hn : s.Normal r) :
    s'.Normal r where
  sign := by
    rw [h.obj r hr]
    exact hn.sign
  zero := by
    rw [h.obj r hr]
    exact hn.zero
  trimmed := h.trimmed hok hr hn.trimmed

/-- The invariant is kept where one object gets a new space apart from the others. -/
theorem Ok.update (hobj : s'.obj = update s.obj r x) (hmin : s'.mindigits = s.mindigits)
    (hfound : s'.lost = false) (hbrk : s.brk ≤ s'.brk) (hnext : s.next ≤ s'.next)
    (ht : x.top ≤ x.size) (hs : x.size ≤ maxDigits) (hb : x.p + x.size ≤ s'.brk)
    (ha : ∀ r', r' ≠ r → Disjoint (s.obj r').p (s.obj r').size x.p x.size)
    (hu : s'.next ≤ r → x = Mpint.none) : s'.Ok := by
  have hself : s'.obj r = x := by rw [hobj, update_self]
  have hne : ∀ r', r' ≠ r → s'.obj r' = s.obj r' := fun r' h => by
    rw [hobj, update_of_ne h]
  refine ⟨fun r' => ?_, fun r' => ?_, hmin.trans_le hok.mindigits_le, hfound, fun r' => ?_,
    fun r1 r2 h12 => ?_, fun r' hr' => ?_⟩
  · rcases eq_or_ne r' r with rfl | h
    · rwa [hself]
    · rw [hne r' h]
      exact hok.top_le r'
  · rcases eq_or_ne r' r with rfl | h
    · rwa [hself]
    · rw [hne r' h]
      exact hok.size_le r'
  · rcases eq_or_ne r' r with rfl | h
    · rwa [hself]
    · rw [hne r' h]
      exact (hok.below r').trans hbrk
  · rcases eq_or_ne r1 r with rfl | h
    · rw [hself, hne r2 h12.symm]
      exact (ha r2 h12.symm).symm
    · rcases eq_or_ne r2 r with rfl | h'
      · rw [hself, hne r1 h]
        exact ha r1 h
      · rw [hne r1 h, hne r2 h']
        exact hok.apart r1 r2 h12
  · rcases eq_or_ne r' r with rfl | h
    · rw [hself, hu hr']
    · rw [hne r' h]
      exact hok.unused r' (hnext.trans hr')

/-- A write of the fields of a number. -/
theorem Writes.setObj (hr : r < s.next) (hp : x.p = (s.obj r).p)
    (hs : x.size = (s.obj r).size) (ht : x.top ≤ x.size) : Writes s (s.setObj r x) r 0 where
  ok := by
    refine hok.update rfl rfl hok.found le_rfl le_rfl ht ?_ ?_ (fun r' h => ?_) fun h => by
      exact absurd h (Nat.not_le_of_lt hr)
    · rw [hs]
      exact hok.size_le r
    · rw [hp, hs]
      exact hok.below r
    · rw [hp, hs]
      exact hok.apart r' r h
  brk_le := le_rfl
  next_le := le_rfl
  obj r' hr' := setObj_of_ne s x hr'
  mem _ _ _ := rfl
  space := Or.inl (by rw [setObj_self]; exact ⟨hp, hs⟩)

theorem Writes.setTop (hr : r < s.next) (hn : n ≤ (s.obj r).size) :
    Writes s (s.setTop r n) r 0 :=
  Writes.setObj hok hr rfl rfl hn

theorem Writes.setSign (hr : r < s.next) (sign : ℤ) :
    Writes s (s.setSign r sign) r 0 :=
  Writes.setObj hok hr rfl rfl (hok.top_le r)

/-- A write of digits into the space of an object, and into memory behind all spaces. -/
theorem Writes.setMem {m : Digits}
    (h : Within s.mem m (s.obj r).p (s.obj r).size s.brk k) : Writes s (s.setMem m) r k where
  ok := { hok with }
  brk_le := le_rfl
  next_le := le_rfl
  obj _ _ := rfl
  mem j hj hj' := h j hj hj'
  space := Or.inl ⟨rfl, rfl⟩

theorem Writes.setMem_same {m : Digits}
    (h : Digits.Same s.mem m (s.obj r).p n) (hn : n ≤ (s.obj r).size) :
    Writes s (s.setMem m) r 0 :=
  Writes.setMem hok fun j hj _ => h j (by omega)

end

end Heap

variable {s s' s'' : Heap} {b r res : Ref} {m : Digits} {p k n : ℕ} {z : ℤ}

/-! ### Room for digits -/

theorem int32_eq {x : ℤ} (hx : 0 ≤ x) (hint : x < 2 ^ 31) : int32 x = x :=
  Int32.toInt_ofInt_of_le (by omega) hint

theorem digits_toNat {x : ℤ} (hx : 0 ≤ x) (hint : x + 31 < 2 ^ 31) :
    (digits x).toNat = ((31 + x) / 32).toNat := by
  rw [digits, int32_eq (by omega) (by omega), Int.tdiv_eq_ediv_of_nonneg (by omega)]

/-- `n` digits have room for `n` digits. -/
theorem digits_mul (hn : n ≤ Heap.maxDigits) : (digits ((n : ℤ) * 32)).toNat = n := by
  rw [Heap.maxDigits] at hn
  rw [digits_toNat (by omega) (by omega)]
  omega

/-- An `int` counts the bits of no more digits. -/
theorem digits_le (x : ℤ) : (digits x).toNat ≤ Heap.maxDigits := by
  have hlt : int32 (31 + x) < 2 ^ 31 := Int32.toInt_lt _
  rw [Heap.maxDigits, digits]
  rcases Int.lt_or_le (int32 (31 + x)) 0 with hneg | hpos
  · have hle : 0 ≤ (-int32 (31 + x)).tdiv 32 := Int.tdiv_nonneg (by omega) (by norm_num)
    rw [Int.neg_tdiv] at hle
    omega
  · rw [Int.tdiv_eq_ediv_of_nonneg hpos]
    omega

/-- What `mpbits` guarantees, for `n` digits. -/
structure Room (s s' : Heap) (b : Ref) (n : ℕ) : Prop where
  writes : Heap.Writes s s' b 0
  next : s'.next = s.next
  sign : (s'.obj b).sign = (s.obj b).sign
  top : (s'.obj b).top = max (s.obj b).top n
  low : ∀ i < (s.obj b).top, s'.mem ((s'.obj b).p + i) = s.mem ((s.obj b).p + i)
  high : ∀ i, (s.obj b).top ≤ i → i < n → s'.mem ((s'.obj b).p + i) = 0

theorem mpbitsHere_room (hok : s.Ok) (hb : b < s.next) (hn : n ≤ (s.obj b).size) :
    Room s (mpbitsHere s b n) b n := by
  rw [mpbitsHere]
  by_cases h : n ≤ (s.obj b).top
  · rw [if_pos h]
    exact ⟨Heap.Writes.refl hok b, rfl, rfl, (Nat.max_eq_left h).symm, fun _ _ => rfl,
      fun i hi hi' => by omega⟩
  · rw [if_neg h]
    have hlt : (s.obj b).top < n := Nat.lt_of_not_le h
    have h1 : Heap.Writes s (s.setMem (s.mem.zero ((s.obj b).p + (s.obj b).top)
        (n - (s.obj b).top))) b 0 :=
      Heap.Writes.setMem_same hok (fun j hj => Digits.zero_of_ne (by omega)) hn
    refine ⟨h1.trans (Heap.Writes.setTop h1.ok hb hn), rfl, ?_, ?_, fun i hi => ?_,
      fun i hi hi' => ?_⟩
    · rw [Heap.setTop, Heap.setObj_self]
      rfl
    · rw [Heap.setTop, Heap.setObj_self, Nat.max_eq_right (Nat.le_of_lt hlt)]
    · rw [Heap.setTop_p]
      exact Digits.zero_of_ne (by simp only [Heap.setMem_obj]; omega)
    · rw [Heap.setTop_p]
      exact Digits.zero_apply (by simp only [Heap.setMem_obj]; omega)
        (by simp only [Heap.setMem_obj]; omega)

theorem mpbitsMove_room (hok : s.Ok) (hb : b < s.next) (hn : (s.obj b).size < n)
    (hmax : n ≤ Heap.maxDigits) : Room s (mpbitsMove s b n) b n := by
  have htop := hok.top_le b
  have hself : (mpbitsMove s b n).obj b = { s.obj b with size := n, top := n, p := s.brk } := by
    simp only [mpbitsMove, update_self]
  have hp : ((mpbitsMove s b n).obj b).p = s.brk := by rw [hself]
  have hbrk : (mpbitsMove s b n).brk = s.brk + n := rfl
  -- all other spaces lie below the new one
  have hok' : (mpbitsMove s b n).Ok := hok.update rfl rfl hok.found (Nat.le_add_right _ _) le_rfl
    le_rfl hmax le_rfl (fun r' _ => Or.inl (hok.below r')) fun h => absurd h (Nat.not_le_of_lt hb)
  refine ⟨⟨hok', by omega, le_rfl, fun r hr => ?_, fun j hj hj' => ?_, Or.inr (Or.inl ?_)⟩, rfl,
    ?_, ?_, fun i hi => ?_, fun i hi hi' => ?_⟩
  · simp only [mpbitsMove, update_of_ne hr]
  · have h1 : (s.mem.copy s.brk (s.obj b).p (s.obj b).size) j = s.mem j :=
      Digits.copy_of_ne (by omega)
    rw [← h1]
    exact Digits.zero_of_ne (by omega)
  · rw [hself]
  · rw [hself]
  · rw [hself]
    exact (Nat.max_eq_right (Nat.le_of_lt (htop.trans_lt hn))).symm
  · rw [hp]
    have h1 : (s.mem.copy s.brk (s.obj b).p (s.obj b).size) (s.brk + i) =
      s.mem ((s.obj b).p + i) := Digits.copy_apply (by omega)
    rw [← h1]
    exact Digits.zero_of_ne (by omega)
  · rw [hp]
    exact Digits.zero_apply (by omega) (by omega)

/-- **Room for digits.** -/
theorem mpbits_spec (hok : s.Ok) (hb : b < s.next) (x : ℤ) :
    Room s (mpbits s b x) b (digits x).toNat := by
  rw [mpbits]
  by_cases h : digits x ≤ (s.obj b).size
  · rw [if_pos h]
    exact mpbitsHere_room hok hb (by omega)
  · rw [if_neg h]
    exact mpbitsMove_room hok hb (by omega) (digits_le x)

theorem Room.size_ge (h : Room s s' b n) : n ≤ (s'.obj b).size := by
  have h1 := h.writes.ok.top_le b
  have h2 := h.top
  omega

/-- **An operand can still be read**, also when it is the object that was given room. -/
theorem Room.val_eq (hok : s.Ok) (h : Room s s' res n) (r : Ref) :
    s'.mem.val (s'.obj r).p (s.obj r).top = s.mag r := by
  rcases eq_or_ne r res with rfl | hr
  · exact Digits.val_congr h.low
  · rw [h.writes.obj r hr]
    exact h.writes.val_eq hok hr (hok.top_le r)

theorem Room.top_of_le (h : Room s s' res n) (r : Ref) (hr : n ≤ (s.obj r).top) :
    (s'.obj r).top = (s.obj r).top := by
  rcases eq_or_ne r res with rfl | hne
  · rw [h.top, Nat.max_eq_left hr]
  · rw [h.writes.obj r hne]

theorem Room.p_clear (h : Room s s' res n) (r : Ref) (hk : k ≤ (s.obj r).top)
    (hok : s.Ok) : Clear (s'.obj res).p (s'.obj r).p k := by
  rcases eq_or_ne r res with rfl | hr
  · exact Or.inl le_rfl
  · have h1 := h.writes.ok.apart r res hr
    have h2 := hok.top_le r
    rw [h.writes.obj r hr] at h1 ⊢
    rcases h1 with h1 | h1
    · exact Or.inr (by omega)
    · exact Or.inl (by omega)

/-! ### Results -/

/-- **An operation has a result**: it writes no other object, and the result is normalized and
has the value `z`. -/
structure Result (s s' : Heap) (res : Ref) (k : ℕ) (z : ℤ) : Prop where
  writes : Heap.Writes s s' res k
  normal : s'.Normal res
  int : s'.int res = z

theorem Result.trans (h : Heap.Writes s s' res k) (h' : Result s' s'' res k z) :
    Result s s'' res k z :=
  ⟨h.trans h'.writes, h'.normal, h'.int⟩

theorem significant_le (m : Digits) (p n : ℕ) : significant m p n ≤ n := by
  induction n with
  | zero => exact le_rfl
  | succ n ih =>
    rw [significant]
    split
    · exact ih.trans (Nat.le_succ n)
    · exact le_rfl

theorem significant_ne (h : significant m p n = k + 1) : m (p + k) ≠ 0 := by
  induction n with
  | zero => exact absurd h (Nat.succ_ne_zero k).symm
  | succ n ih =>
    rw [significant] at h
    split at h
    · exact ih h
    · obtain rfl : n = k := by omega
      assumption

theorem val_significant (m : Digits) (p n : ℕ) : m.val p (significant m p n) = m.val p n := by
  induction n with
  | zero => rfl
  | succ n ih =>
    rw [significant]
    split
    · next h => rw [ih, Digits.val_succ_top, h, UInt32.toNat_zero, Nat.mul_zero, Nat.add_zero]
    · rfl

theorem Heap.Trimmed.mag_eq_zero (h : s.Trimmed r) : s.mag r = 0 ↔ (s.obj r).top = 0 := by
  rw [Heap.mag]
  constructor
  · intro h0
    rcases hn : (s.obj r).top with _ | n
    · rfl
    · rw [hn] at h0
      exact absurd (Digits.eq_zero_of_val h0 (Nat.lt_succ_self n)) (h n hn)
  · intro h0
    rw [h0, Digits.val_zero]

theorem Heap.Normal.natAbs_int (h : s.Normal r) : (s.int r).natAbs = s.mag r := by
  rw [Heap.int, Int.natAbs_mul, Int.natAbs_natCast]
  rcases h.sign with h1 | h1 <;> rw [h1] <;> exact Nat.one_mul _

theorem Heap.Normal.int_eq_zero (h : s.Normal r) : s.int r = 0 ↔ (s.obj r).top = 0 := by
  rw [← h.trimmed.mag_eq_zero, ← h.natAbs_int, Int.natAbs_eq_zero]

/-- Leading zeros are taken off. -/
theorem trim_spec (hok : s.Ok) (hr : r < s.next) :
    Heap.Writes s (s.setTop r (significant s.mem (s.obj r).p (s.obj r).top)) r 0 ∧
      (s.setTop r (significant s.mem (s.obj r).p (s.obj r).top)).Trimmed r ∧
      (s.setTop r (significant s.mem (s.obj r).p (s.obj r).top)).mag r = s.mag r := by
  have hle := significant_le s.mem (s.obj r).p (s.obj r).top
  refine ⟨Heap.Writes.setTop hok hr (hle.trans (hok.top_le r)), fun n hn => ?_, ?_⟩
  · rw [Heap.setTop, Heap.setObj_self] at hn ⊢
    exact significant_ne hn
  · rw [Heap.mag, Heap.setTop, Heap.setObj_self]
    exact val_significant _ _ _

/-- A sign is given to a number. -/
theorem setSign_result (hok : s.Ok) (hr : r < s.next) (ht : s.Trimmed r) {sign : ℤ}
    (hs : sign = 1 ∨ sign = -1) (h0 : (s.obj r).top = 0 → sign = 1) :
    Result s (s.setSign r sign) r 0 (sign * s.mag r) := by
  have hself : (s.setSign r sign).obj r = { s.obj r with sign := sign } := Heap.setObj_self _ _ _
  refine ⟨Heap.Writes.setSign hok hr sign, ⟨?_, fun h => ?_, fun n hn => ?_⟩, ?_⟩
  · rw [hself]
    exact hs
  · rw [hself] at h ⊢
    exact h0 h
  · rw [hself] at hn ⊢
    exact ht n hn
  · rw [Heap.int, Heap.mag, hself]
    rfl

/-- **`mpnorm` makes a number normalized.** -/
theorem mpnorm_result (hok : s.Ok) (hr : r < s.next)
    (hs : (s.obj r).sign = 1 ∨ (s.obj r).sign = -1) : Result s (mpnorm s r) r 0 (s.int r) := by
  obtain ⟨h1, h2, h3⟩ := trim_spec hok hr
  rw [mpnorm]
  generalize ht : s.setTop r (significant s.mem (s.obj r).p (s.obj r).top) = t at h1 h2 h3 ⊢
  have hsign : (t.obj r).sign = (s.obj r).sign := by
    rw [← ht, Heap.setTop, Heap.setObj_self]
  have hnext : r < t.next := hr.trans_le h1.next_le
  by_cases h0 : (t.obj r).top = 0
  · simp only [h0, if_true]
    obtain ⟨h4, h5, h6⟩ := setSign_result h1.ok hnext h2 (Or.inl rfl) fun _ => rfl
    refine ⟨h1.trans h4, h5, ?_⟩
    rw [h6, Heap.int, ← h3, h2.mag_eq_zero.2 h0, Nat.cast_zero, mul_zero, mul_zero]
  · simp only [h0, if_false]
    refine ⟨h1, ⟨?_, fun h => absurd h h0, h2⟩, ?_⟩
    · rw [hsign]
      exact hs
    · rw [Heap.int, hsign, h3, Heap.int]

/-- Digits, sign and length of a number are written. -/
def Heap.put (s : Heap) (r : Ref) (m : Digits) (sign : ℤ) (top : ℕ) : Heap :=
  (s.setMem m).setObj r { s.obj r with sign := sign, top := top }

section Put

variable {sign : ℤ}

@[simp]
theorem Heap.put_mem (s : Heap) (r : Ref) (m : Digits) (sign : ℤ) (n : ℕ) :
    (s.put r m sign n).mem = m := rfl

@[simp]
theorem Heap.put_brk (s : Heap) (r : Ref) (m : Digits) (sign : ℤ) (n : ℕ) :
    (s.put r m sign n).brk = s.brk := rfl

@[simp]
theorem Heap.put_next (s : Heap) (r : Ref) (m : Digits) (sign : ℤ) (n : ℕ) :
    (s.put r m sign n).next = s.next := rfl

theorem Heap.put_obj (s : Heap) (r : Ref) (m : Digits) (sign : ℤ) (n : ℕ) :
    (s.put r m sign n).obj r = { s.obj r with sign := sign, top := n } :=
  Heap.setObj_self _ _ _

theorem Heap.put_size (s : Heap) (r : Ref) (m : Digits) (sign : ℤ) (n : ℕ) :
    ((s.put r m sign n).obj r).size = (s.obj r).size := by
  rw [Heap.put_obj]

theorem Heap.put_writes (hok : s.Ok) (hr : r < s.next)
    (h : Within s.mem m (s.obj r).p (s.obj r).size s.brk k) (hn : n ≤ (s.obj r).size) :
    Heap.Writes s (s.put r m sign n) r k := by
  have h1 := Heap.Writes.setMem hok h
  have h2 : Heap.Writes (s.setMem m) (s.put r m sign n) r 0 :=
    Heap.Writes.setObj h1.ok hr rfl rfl hn
  exact h1.trans (h2.mono (Nat.zero_le k))

/-- A number without leading zeros is written. -/
theorem put_result (sign : ℤ) (hok : s.Ok) (hr : r < s.next)
    (h : Within s.mem m (s.obj r).p (s.obj r).size s.brk k) (hn : n ≤ (s.obj r).size)
    (hs : sign = 1 ∨ sign = -1) (h0 : n = 0 → sign = 1)
    (ht : ∀ i, n = i + 1 → m ((s.obj r).p + i) ≠ 0) :
    Result s (s.put r m sign n) r k (sign * m.val (s.obj r).p n) := by
  refine ⟨Heap.put_writes hok hr h hn, ⟨?_, ?_, fun i hi => ?_⟩, ?_⟩
  · rw [Heap.put_obj]
    exact hs
  · rw [Heap.put_obj]
    exact h0
  · rw [Heap.put_obj] at hi ⊢
    exact ht i hi
  · rw [Heap.int, Heap.mag, Heap.put_obj]
    rfl

/-- **Digits are written and leading zeros are taken off.** -/
theorem mpnorm_put_result (hok : s.Ok) (hr : r < s.next)
    (h : Within s.mem m (s.obj r).p (s.obj r).size s.brk k) (hn : n ≤ (s.obj r).size)
    (hs : sign = 1 ∨ sign = -1) :
    Result s (mpnorm (s.put r m sign n) r) r k (sign * m.val (s.obj r).p n) := by
  have h1 : Heap.Writes s (s.put r m sign n) r k := Heap.put_writes hok hr h hn
  obtain ⟨h2, h3, h4⟩ := mpnorm_result (r := r) h1.ok hr (by rw [Heap.put_obj]; exact hs)
  refine ⟨h1.trans (h2.mono (Nat.zero_le k)), h3, ?_⟩
  rw [h4, Heap.int, Heap.mag, Heap.put_obj]
  rfl

end Put

theorem Within.of_same {q l brk : ℕ} {m' : Digits} (h : Digits.Same m m' p n) (hn : n ≤ l)
    (hq : q = p) : Within m m' q l brk k :=
  fun j hj _ => h j (by omega)

/-- The digits of an operand, also of one that was given room. -/
theorem Room.digit_eq (hok : s.Ok) (h : Room s s' res n) (r : Ref) {i : ℕ}
    (hi : i < (s.obj r).top) : s'.mem ((s'.obj r).p + i) = s.mem ((s.obj r).p + i) := by
  rcases eq_or_ne r res with rfl | hr
  · exact h.low i hi
  · have hle := hok.top_le r
    rw [h.writes.obj r hr]
    exact h.writes.digit_eq hok hr (by omega) (by omega)

/-- The end of `mpassign`, its writes together. -/
theorem assign_put (s : Heap) (r res : Ref) :
    (s.setObj res { s.obj res with sign := (s.obj r).sign, top := (s.obj r).top }).setMem
      ((s.setObj res { s.obj res with sign := (s.obj r).sign, top := (s.obj r).top }).mem.copy
        ((s.setObj res { s.obj res with
          sign := (s.obj r).sign, top := (s.obj r).top }).obj res).p
        ((s.setObj res { s.obj res with
          sign := (s.obj r).sign, top := (s.obj r).top }).obj r).p
        ((s.setObj res { s.obj res with
          sign := (s.obj r).sign, top := (s.obj r).top }).obj r).top) =
      s.put res (s.mem.copy (s.obj res).p (s.obj r).p (s.obj r).top) (s.obj r).sign
        (s.obj r).top := by
  have htop : ((s.setObj res { s.obj res with
      sign := (s.obj r).sign, top := (s.obj r).top }).obj r).top = (s.obj r).top := by
    rcases eq_or_ne r res with rfl | hne
    · rw [Heap.setObj_self]
    · rw [Heap.setObj_of_ne _ _ hne]
  simp only [Heap.setObj_p, htop, Heap.setObj_mem]
  rfl

/-- **`mpassign` copies a number.** -/
theorem mpassign_result (hok : s.Ok) (hr : res < s.next) (hn : s.Normal r) :
    Result s (mpassign s r res) res 0 (s.int r) := by
  have hroom := mpbits_spec hok hr (((s.obj r).top : ℤ) * 32)
  rw [digits_mul ((hok.top_le r).trans (hok.size_le r))] at hroom
  rw [mpassign]
  generalize mpbits s res (((s.obj r).top : ℤ) * 32) = t at hroom ⊢
  dsimp only
  rw [hroom.top_of_le r le_rfl, Heap.need_eq hroom.size_ge, assign_put]
  have hsign : (t.obj r).sign = (s.obj r).sign := by
    rcases eq_or_ne r res with rfl | hne
    · exact hroom.sign
    · rw [hroom.writes.obj r hne]
  rw [hsign, hroom.top_of_le r le_rfl]
  have hput := put_result (r := res) (k := 0) (n := (s.obj r).top)
    (m := t.mem.copy (t.obj res).p (t.obj r).p (s.obj r).top) (s.obj r).sign hroom.writes.ok
    (by rw [hroom.next]; exact hr)
    (Within.of_same (fun j hj => Digits.copy_of_ne hj) hroom.size_ge rfl) hroom.size_ge hn.sign
    hn.zero fun i hi => by
      rw [Digits.copy_apply (by omega), hroom.digit_eq hok r (by omega)]
      exact hn.trimmed i hi
  rw [Digits.val_copy, hroom.val_eq hok r] at hput
  exact Result.trans hroom.writes hput

/-- `mpassign` of zero. -/
theorem mpassignZero_result (hok : s.Ok) (hr : res < s.next) :
    Result s (mpassignZero s res) res 0 0 := by
  have hroom := mpbits_spec hok hr 0
  rw [mpassignZero]
  generalize mpbits s res 0 = t at hroom ⊢
  have hput := put_result (r := res) (k := 0) (n := 0) (m := t.mem) 1
    hroom.writes.ok (by rw [hroom.next]; exact hr) (fun _ _ _ => rfl) (Nat.zero_le _) (Or.inl rfl)
    (fun _ => rfl) fun i hi => absurd hi (Nat.succ_ne_zero i).symm
  rw [Digits.val_zero, Nat.cast_zero, mul_zero] at hput
  exact Result.trans hroom.writes hput

/-! ### New objects -/

/-- `mpnew` gives a new object; its digits are zero. -/
theorem mpnew_writes (hok : s.Ok) {x : ℤ} (hx : 0 ≤ int32 x) :
    Heap.Writes s (mpnew s x) s.next 0 where
  ok := hok.update rfl rfl (by rw [mpnew, hok.found, decide_eq_false (Int.not_lt.2 hx)]; rfl)
    (Nat.le_add_right _ _) (Nat.le_succ _) (Nat.zero_le _) (Nat.max_le.2 ⟨digits_le x,
      hok.mindigits_le⟩) le_rfl (fun r' _ => Or.inl (hok.below r'))
    fun h => absurd h (Nat.not_succ_le_self _)
  brk_le := Nat.le_add_right _ _
  next_le := Nat.le_succ _
  obj r hr := update_of_ne hr _ _
  mem j _ hj' := Digits.zero_of_ne (by
    simp only [mpnew] at hj'
    omega)
  space := Or.inr (Or.inl (by simp only [mpnew, update_self]; exact le_rfl))

/-- `mpfree` gives an object back. -/
theorem mpfree_writes (hok : s.Ok) (b : Ref) : Heap.Writes s (mpfree s b) b 0 where
  ok := hok.update rfl rfl hok.found le_rfl le_rfl le_rfl (Nat.zero_le _) (Nat.zero_le _)
    (fun r' _ => Or.inr (Nat.zero_le _)) fun _ => rfl
  brk_le := le_rfl
  next_le := le_rfl
  obj r hr := Heap.setObj_of_ne _ _ hr
  mem j hj _ := Digits.zero_of_ne hj
  space := Or.inr (Or.inr (by rw [mpfree, Heap.setObj_self]; rfl))

/-- An operation through a temporary object. -/
theorem Heap.Writes.through {s1 s2 s3 : Heap} {t : Ref} (h1 : Heap.Writes s s1 t k)
    (h2 : Heap.Writes s1 s2 res 0) (h3 : Heap.Writes s2 s3 t 0) (hne : t ≠ res)
    (h0 : s.obj t = Mpint.none) (h0' : s3.obj t = Mpint.none) : Heap.Writes s s3 res k where
  ok := h3.ok
  brk_le := h1.brk_le.trans (h2.brk_le.trans h3.brk_le)
  next_le := h1.next_le.trans (h2.next_le.trans h3.next_le)
  obj r hr := by
    rcases eq_or_ne r t with rfl | hrt
    · rw [h0', h0]
    · rw [h3.obj r hrt, h2.obj r hr, h1.obj r hrt]
  mem j hj hj' := by
    have hb1 := h1.brk_le
    have hb2 := h2.brk_le
    have hb3 := h3.brk_le
    have hbelow := h1.ok.below t
    have e1 : s1.mem j = s.mem j :=
      h1.mem j (by rw [h0]; exact Or.inr (Nat.zero_le j)) (hj'.imp_right fun h => by omega)
    have e2 : s2.mem j = s1.mem j := by
      refine h2.mem j ?_ (hj'.imp (fun h => by omega) fun h => by omega)
      rw [h1.obj res hne.symm]
      exact hj
    have e3 : s3.mem j = s2.mem j := by
      refine h3.mem j ?_ (hj'.imp (fun h => by omega) fun h => by omega)
      rw [h2.obj t hne]
      -- the temporary object had no space before
      rcases h1.space with ⟨-, hs⟩ | hp | hs
      · rw [h0] at hs
        have hs' : (s1.obj t).size = 0 := hs
        omega
      · omega
      · omega
    rw [e3, e2, e1]
  space := by
    have hb1 := h1.brk_le
    have e1 := h1.obj res hne.symm
    have e3 := h3.obj res hne.symm
    rw [e3]
    rcases h2.space with ⟨hp, hs⟩ | hp | hs
    · rw [e1] at hp hs
      exact Or.inl ⟨hp, hs⟩
    · exact Or.inr (Or.inl (by omega))
    · exact Or.inr (Or.inr hs)

/-! ### Objects that stay -/

/-- An object and all its digits stay as they are. -/
structure Heap.Keeps (s s' : Heap) (r : Ref) : Prop where
  obj : s'.obj r = s.obj r
  digit : ∀ j, (s.obj r).p ≤ j → j < (s.obj r).p + (s.obj r).size → s'.mem j = s.mem j

theorem Heap.Writes.keeps (hok : s.Ok) (h : Heap.Writes s s' res k) (hr : r ≠ res) :
    Heap.Keeps s s' r :=
  ⟨h.obj r hr, fun _ hj hj' => h.digit_eq hok hr hj hj'⟩

theorem Heap.Keeps.refl (s : Heap) (r : Ref) : Heap.Keeps s s r := ⟨rfl, fun _ _ _ => rfl⟩

theorem Heap.Keeps.trans (h : Heap.Keeps s s' r) (h' : Heap.Keeps s' s'' r) :
    Heap.Keeps s s'' r where
  obj := h'.obj.trans h.obj
  digit j hj hj' := by
    rw [h'.digit j (by rwa [h.obj]) (by rwa [h.obj]), h.digit j hj hj']

theorem Heap.Keeps.val_eq (h : Heap.Keeps s s' r) (hn : n ≤ (s.obj r).size) :
    s'.mem.val (s.obj r).p n = s.mem.val (s.obj r).p n :=
  Digits.val_frame fun j hj hj' => h.digit j hj (by omega)

theorem Heap.Keeps.mag_eq (hok : s.Ok) (h : Heap.Keeps s s' r) : s'.mag r = s.mag r := by
  rw [Heap.mag, h.obj]
  exact h.val_eq (hok.top_le r)

theorem Heap.Keeps.trimmed (hok : s.Ok) (h : Heap.Keeps s s' r) (ht : s.Trimmed r) :
    s'.Trimmed r := by
  intro n hn
  have htop := hok.top_le r
  rw [h.obj] at hn ⊢
  rw [h.digit _ (Nat.le_add_right _ _) (by omega)]
  exact ht n hn

theorem Heap.Keeps.normal (hok : s.Ok) (h : Heap.Keeps s s' r) (hn : s.Normal r) : s'.Normal r where
  sign := by
    rw [h.obj]
    exact hn.sign
  zero := by
    rw [h.obj]
    exact hn.zero
  trimmed := h.trimmed hok hn.trimmed

theorem Heap.Keeps.int_eq (hok : s.Ok) (h : Heap.Keeps s s' r) : s'.int r = s.int r := by
  rw [Heap.int, Heap.int, h.mag_eq hok, h.obj]

/-! ### Sizes -/

/-- Space never gets smaller. -/
theorem mpbits_size_le (s : Heap) (b : Ref) (x : ℤ) :
    (s.obj b).size ≤ ((mpbits s b x).obj b).size := by
  rw [mpbits]
  by_cases h : digits x ≤ (s.obj b).size
  · rw [if_pos h, mpbitsHere]
    split
    · exact le_rfl
    · rw [Heap.setTop, Heap.setObj_self]
      exact le_rfl
  · rw [if_neg h]
    simp only [mpbitsMove, update_self]
    omega

theorem mpassign_size_le (s : Heap) (r res : Ref) :
    (s.obj res).size ≤ ((mpassign s r res).obj res).size := by
  rw [mpassign]
  dsimp only
  rw [assign_put, Heap.put_size, Heap.need_obj]
  exact mpbits_size_le s res (((s.obj r).top : ℤ) * 32)

end Mp

end Plan9
