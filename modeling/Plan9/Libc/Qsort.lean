import Mathlib.Data.List.Perm.Basic
import Mathlib.Data.List.Sort
import Mathlib.Logic.Equiv.Basic
import Mathlib.Order.Defs.LinearOrder

/-!
# `qsort.c`

A quicksort in place. The elements that are greater than the first one and those that are less are
looked for from both ends and change places, and then the first one goes in between. A part with
more than ten elements has the median of three of them put in front before.

An array is a function on places here. What the functions do to it is a permutation of the places
they work on (`Plan9.Libc.Rearr`), and the comparison need only be that of some keys.

* `Plan9.Libc.partition_spec` – the array is split;
* `Plan9.Libc.qsort_spec` – **`qsort` sorts**;
* `Plan9.Libc.qsort_in_place` – and touches nothing behind the elements.
-/

namespace Plan9

namespace Libc

open Function

variable {α : Type*} (cmp : α → α → Ordering)

/-- `swapb` and `swapi`: two elements change places. -/
def swap (a : ℕ → α) (i j : ℕ) : ℕ → α := a ∘ Equiv.swap i j

/-- `pivot`: the median of three elements. -/
def pivot (a : ℕ → α) (l n : ℕ) : ℕ :=
  let j := n / 6
  let pi := l + j
  let pj := pi + (j + j)
  let pk := pj + (j + j)
  if cmp (a pi) (a pj) = .lt then
    if cmp (a pi) (a pk) = .lt then if cmp (a pj) (a pk) = .lt then pj else pk
    else pi
  else if cmp (a pj) (a pk) = .lt then if cmp (a pi) (a pk) = .lt then pi else pk
  else pj

/-- The loop that moves `pi` up. -/
def scanUp (p : ℕ → Bool) (pn pi : ℕ) : ℕ :=
  if pi + 1 < pn ∧ p (pi + 1) then scanUp p pn (pi + 1) else pi + 1
termination_by pn - pi

/-- The loop that moves `pj` down. -/
def scanDown (p : ℕ → Bool) (l : ℕ) : ℕ → ℕ
  | 0 => 0
  | pj + 1 => if l < pj ∧ p pj then scanDown p l pj else pj

/-- The endless loop of `qsorts`; it takes no more than `pj - l` rounds. -/
def partLoop (l pn : ℕ) : ℕ → (ℕ → α) → ℕ → ℕ → (ℕ → α) × ℕ
  | 0, a, _, pj => (a, pj)
  | k + 1, a, pi, pj =>
    let pi := scanUp (fun i => cmp (a i) (a l) = .lt) pn pi
    let pj := scanDown (fun j => cmp (a j) (a l) = .gt) l pj
    if pj < pi then (a, pj) else partLoop l pn k (swap a pi pj) pi pj

/-- What `qsorts` does before it goes on with the two parts. -/
def partition (a : ℕ → α) (l n : ℕ) : (ℕ → α) × ℕ :=
  let pi := if 10 < n then pivot cmp a l n else l + n / 2
  let r := partLoop cmp l (l + n) n (swap a l pi) l (l + n)
  (swap r.1 l r.2, r.2)

/-- `qsorts`, with the loop for the smaller part as a call. -/
def qsorts : ℕ → (ℕ → α) → ℕ → ℕ → ℕ → α
  | 0, a, _, _ => a
  | k + 1, a, l, n =>
    if n ≤ 1 then a
    else
      let r := partition cmp a l n
      let j := r.2 - l
      let n := n - j - 1
      if n ≤ j then qsorts k (qsorts k r.1 l j) (l + j + 1) n
      else qsorts k (qsorts k r.1 (l + j + 1) n) l j

/-- `qsort`. -/
def qsort (a : ℕ → α) (n : ℕ) : ℕ → α := qsorts cmp n a 0 n

/-! ### Rearranging -/

variable {cmp} {a b c : ℕ → α} {l r l' r' i j k n m pi pj pn : ℕ}

/-- The elements between two places have changed places. -/
def Rearr (l r : ℕ) (a b : ℕ → α) : Prop :=
  ∃ σ : Equiv.Perm ℕ, (∀ k, k < l ∨ r ≤ k → σ k = k) ∧ b = a ∘ σ

theorem Rearr.refl (l r : ℕ) (a : ℕ → α) : Rearr l r a a := ⟨Equiv.refl ℕ, fun _ _ => rfl, rfl⟩

theorem Rearr.trans (h : Rearr l r a b) (h' : Rearr l r b c) : Rearr l r a c := by
  obtain ⟨σ, hσ, rfl⟩ := h
  obtain ⟨τ, hτ, rfl⟩ := h'
  refine ⟨τ.trans σ, fun k hk => ?_, rfl⟩
  rw [Equiv.trans_apply, hτ k hk, hσ k hk]

theorem Rearr.widen (h : Rearr l r a b) (hl : l' ≤ l) (hr : r ≤ r') : Rearr l' r' a b := by
  obtain ⟨σ, hσ, hb⟩ := h
  exact ⟨σ, fun k hk => hσ k (by omega), hb⟩

theorem rearr_swap (hi : l ≤ i ∧ i < r) (hj : l ≤ j ∧ j < r) : Rearr l r a (swap a i j) :=
  ⟨Equiv.swap i j, fun k hk => Equiv.swap_apply_of_ne_of_ne (by omega) (by omega), rfl⟩

theorem Rearr.apply_of_ne (h : Rearr l r a b) (hk : k < l ∨ r ≤ k) : b k = a k := by
  obtain ⟨σ, hσ, rfl⟩ := h
  rw [comp_apply, hσ k hk]

/-- What is there was there before. -/
theorem Rearr.exists_apply (h : Rearr l r a b) (hk : l ≤ k ∧ k < r) :
    ∃ i, l ≤ i ∧ i < r ∧ b k = a i := by
  obtain ⟨σ, hσ, rfl⟩ := h
  by_contra hno
  have hout : σ k < l ∨ r ≤ σ k := by
    by_contra hin
    exact hno ⟨σ k, by omega, by omega, rfl⟩
  have hfix := σ.injective (hσ _ hout)
  omega

theorem Rearr.perm (h : Rearr 0 n a b) : ((List.range n).map b).Perm ((List.range n).map a) := by
  obtain ⟨σ, hσ, rfl⟩ := h
  rw [← List.map_map]
  refine List.Perm.map a ((List.perm_ext_iff_of_nodup ?_ List.nodup_range).2 fun i => ?_)
  · exact List.nodup_range.map σ.injective
  · rw [List.mem_map, List.mem_range]
    constructor
    · rintro ⟨k, hk, rfl⟩
      rw [List.mem_range] at hk
      by_contra hout
      have hfix := σ.injective (hσ (σ k) (Or.inr (Nat.not_lt.1 hout)))
      omega
    · intro hi
      refine ⟨σ.symm i, ?_, Equiv.apply_symm_apply σ i⟩
      rw [List.mem_range]
      by_contra hout
      have hfix := hσ (σ.symm i) (Or.inr (Nat.not_lt.1 hout))
      rw [Equiv.apply_symm_apply] at hfix
      omega

/-! ### Splitting -/

theorem scanUp_spec (p : ℕ → Bool) (hpi : pi < pn) : pi < scanUp p pn pi ∧ scanUp p pn pi ≤ pn ∧
      (∀ k, pi < k → k < scanUp p pn pi → p k = true) ∧
      (scanUp p pn pi < pn → p (scanUp p pn pi) = false) := by
  fun_induction scanUp p pn pi with
  | case1 pi h ih =>
    obtain ⟨hlt, hle, hall, hstop⟩ := ih h.1
    refine ⟨by omega, hle, fun k hk hk' => ?_, hstop⟩
    rcases Nat.lt_or_ge (pi + 1) k with hgt | hge
    · exact hall k hgt hk'
    · obtain rfl : k = pi + 1 := by omega
      exact h.2
  | case2 pi h =>
    refine ⟨by omega, hpi, fun k hk hk' => by omega, fun hlt => ?_⟩
    by_contra hno
    exact h ⟨hlt, (Bool.not_eq_false _).mp hno⟩

theorem scanDown_spec (p : ℕ → Bool) (hpj : l < pj) : l ≤ scanDown p l pj ∧ scanDown p l pj < pj ∧
      (∀ k, scanDown p l pj < k → k < pj → p k = true) ∧
      (l < scanDown p l pj → p (scanDown p l pj) = false) := by
  induction pj with
  | zero => omega
  | succ pj ih =>
    rw [scanDown]
    split
    next h =>
      obtain ⟨hle, hlt, hall, hstop⟩ := ih h.1
      refine ⟨hle, by omega, fun k hk hk' => ?_, hstop⟩
      rcases Nat.lt_or_ge k pj with hlt' | hge
      · exact hall k hk hlt'
      · obtain rfl : k = pj := by omega
        exact h.2
    next h =>
      refine ⟨by omega, by omega, fun k hk hk' => by omega, fun hlt => ?_⟩
      by_contra hno
      exact h ⟨hlt, (Bool.not_eq_false _).mp hno⟩

variable {κ : Type*} [LinearOrder κ] {key : α → κ}

/-- The comparison of what is in the array is that of the keys. -/
def Compares (cmp : α → α → Ordering) (key : α → κ) (a : ℕ → α) : Prop :=
  ∀ i j, cmp (a i) (a j) = compare (key (a i)) (key (a j))

theorem Compares.swap (h : Compares cmp key a) (i j : ℕ) : Compares cmp key (swap a i j) :=
  fun _ _ => h _ _

theorem Compares.rearr (h : Compares cmp key a) (hre : Rearr l r a b) : Compares cmp key b := by
  obtain ⟨σ, -, rfl⟩ := hre
  exact fun _ _ => h _ _

/-- What is in front of a place is at most what is there, and what is behind it at least. -/
structure Split (key : α → κ) (a : ℕ → α) (l m r : ℕ) : Prop where
  below : ∀ k, l ≤ k → k < m → key (a k) ≤ key (a m)
  above : ∀ k, m < k → k < r → key (a m) ≤ key (a k)

/-- **The loop** that splits around the first element. -/
theorem partLoop_spec (hcmp : Compares cmp key a) (hk : pj ≤ l + k) (hpi : l ≤ pi ∧ pi < pn)
    (hpj : l < pj ∧ pj ≤ pn) (hle : pi ≤ pj)
    (hlow : ∀ i, l < i → i ≤ pi → key (a i) ≤ key (a l))
    (hhigh : ∀ i, pj ≤ i → i < pn → key (a l) ≤ key (a i)) :
    Rearr l pn a (partLoop cmp l pn k a pi pj).1 ∧ l ≤ (partLoop cmp l pn k a pi pj).2 ∧
      (partLoop cmp l pn k a pi pj).2 < pn ∧
      (partLoop cmp l pn k a pi pj).1 l = a l ∧
      (∀ i, l < i → i ≤ (partLoop cmp l pn k a pi pj).2 →
        key ((partLoop cmp l pn k a pi pj).1 i) ≤ key (a l)) ∧
      (∀ i, (partLoop cmp l pn k a pi pj).2 < i → i < pn →
        key (a l) ≤ key ((partLoop cmp l pn k a pi pj).1 i)) := by
  induction k generalizing a pi pj with
  | zero => omega
  | succ k ih =>
    obtain ⟨hi, hin, hall, hstop⟩ := scanUp_spec (fun i => decide (cmp (a i) (a l) = .lt)) hpi.2
    obtain ⟨hj, hjn, hall', hstop'⟩ := scanDown_spec (fun j => decide (cmp (a j) (a l) = .gt)) hpj.1
    rw [partLoop]
    generalize scanUp (fun i => decide (cmp (a i) (a l) = .lt)) pn pi = i' at *
    generalize scanDown (fun j => decide (cmp (a j) (a l) = .gt)) l pj = j' at *
    simp only [decide_eq_true_eq, decide_eq_false_iff_not, hcmp _ _, compare_lt_iff_lt,
      compare_gt_iff_gt, not_lt] at hall hstop hall' hstop'
    have hlow' : ∀ x, l < x → x < i' → key (a x) ≤ key (a l) := by
      intro x hx hx'
      rcases Nat.lt_or_ge pi x with hgt | hge
      · exact (hall x hgt hx').le
      · exact hlow x hx hge
    have hhigh' : ∀ x, j' < x → x < pn → key (a l) ≤ key (a x) := by
      intro x hx hx'
      rcases Nat.lt_or_ge x pj with hlt | hge
      · exact (hall' x hx hlt).le
      · exact hhigh x hge hx'
    by_cases hcross : j' < i'
    · simp only [if_pos hcross]
      exact ⟨Rearr.refl l pn a, hj, by omega, trivial,
        fun x hx hx' => hlow' x hx (by omega), hhigh'⟩
    · simp only [if_neg hcross]
      have hsl : swap a i' j' l = a l := by
        rw [swap, comp_apply, Equiv.swap_apply_of_ne_of_ne (by omega) (by omega)]
      have hsi : swap a i' j' i' = a j' := by rw [swap, comp_apply, Equiv.swap_apply_left]
      have hsj : swap a i' j' j' = a i' := by rw [swap, comp_apply, Equiv.swap_apply_right]
      have hso : ∀ x, x ≠ i' → x ≠ j' → swap a i' j' x = a x := by
        intro x hx hx'
        rw [swap, comp_apply, Equiv.swap_apply_of_ne_of_ne hx hx']
      obtain ⟨hre, hl, hr, hself, hbelow, habove⟩ := @ih (swap a i' j') i' j'
        (hcmp.swap i' j') (by omega) (by omega) (by omega) (by omega)
        (fun x hx hx' => by
          rw [hsl]
          rcases eq_or_ne x i' with rfl | hne
          · rw [hsi]
            exact hstop' (by omega)
          · rw [hso x hne (by omega)]
            exact hlow' x hx (by omega))
        (fun x hx hx' => by
          rw [hsl]
          rcases eq_or_ne x j' with rfl | hne
          · rw [hsj]
            exact hstop (by omega)
          · rw [hso x (by omega) hne]
            exact hhigh' x (by omega) hx')
      rw [hsl] at hself hbelow habove
      exact ⟨(rearr_swap (by omega) (by omega)).trans hre, hl, hr, hself, hbelow, habove⟩

theorem pivot_mem (cmp : α → α → Ordering) (a : ℕ → α) (hn : 0 < n) :
    l ≤ pivot cmp a l n ∧ pivot cmp a l n < l + n := by
  rw [pivot]
  split_ifs <;> omega

/-- **The array is split.** -/
theorem partition_spec (hcmp : Compares cmp key a) (hn : 1 < n) :
    Rearr l (l + n) a (partition cmp a l n).1 ∧ l ≤ (partition cmp a l n).2 ∧
      (partition cmp a l n).2 < l + n ∧
      Split key (partition cmp a l n).1 l (partition cmp a l n).2 (l + n) := by
  rw [partition]
  have hpi : l ≤ (if 10 < n then pivot cmp a l n else l + n / 2) ∧
      (if 10 < n then pivot cmp a l n else l + n / 2) < l + n := by
    split
    · exact pivot_mem cmp a (by omega)
    · omega
  generalize (if 10 < n then pivot cmp a l n else l + n / 2) = pi at hpi
  obtain ⟨hre, hl, hr, hself, hbelow, habove⟩ := @partLoop_spec α cmp (swap a l pi) l n l (l + n)
    (l + n) κ _ key (hcmp.swap l pi) le_rfl (by omega) (by omega) (by omega)
    (fun i hi hi' => by omega) (fun i hi hi' => by omega)
  generalize partLoop cmp l (l + n) n (swap a l pi) l (l + n) = r at *
  refine ⟨((rearr_swap (by omega) hpi).trans hre).trans (rearr_swap (by omega) (by omega)), hl, hr,
    ⟨fun k hk hk' => ?_, fun k hk hk' => ?_⟩⟩
  · simp only [swap, comp_apply, Equiv.swap_apply_right] at *
    rcases eq_or_ne k l with rfl | hne
    · rw [Equiv.swap_apply_left, hself]
      exact hbelow _ hk' le_rfl
    · rw [Equiv.swap_apply_of_ne_of_ne hne (by omega), hself]
      exact hbelow k (by omega) (by omega)
  · simp only [swap, comp_apply, Equiv.swap_apply_right] at *
    rw [Equiv.swap_apply_of_ne_of_ne (by omega) (by omega), hself]
    exact habove k hk hk'

/-! ### Sorting -/

/-- The elements between two places are sorted. -/
def SortedOn (key : α → κ) (a : ℕ → α) (l r : ℕ) : Prop :=
  ∀ i j, l ≤ i → i < j → j < r → key (a i) ≤ key (a j)

theorem SortedOn.congr (h : SortedOn key a l r) (hab : ∀ k, l ≤ k → k < r → b k = a k) :
    SortedOn key b l r := by
  intro i j hi hij hj
  rw [hab i hi (by omega), hab j (by omega) hj]
  exact h i j hi hij hj

/-- Rearranging one side keeps the split. -/
theorem Split.left (h : Split key a l m r) (hre : Rearr l m a b) : Split key b l m r := by
  refine ⟨fun k hk hk' => ?_, fun k hk hk' => ?_⟩
  · obtain ⟨i, hi, hi', hki⟩ := hre.exists_apply ⟨hk, hk'⟩
    rw [hki, hre.apply_of_ne (Or.inr le_rfl)]
    exact h.below i hi hi'
  · rw [hre.apply_of_ne (Or.inr le_rfl), hre.apply_of_ne (Or.inr hk.le)]
    exact h.above k hk hk'

theorem Split.right (h : Split key a l m r) (hre : Rearr (m + 1) r a b) : Split key b l m r := by
  refine ⟨fun k hk hk' => ?_, fun k hk hk' => ?_⟩
  · rw [hre.apply_of_ne (Or.inl (by omega)), hre.apply_of_ne (Or.inl (by omega))]
    exact h.below k hk hk'
  · obtain ⟨i, hi, hi', hki⟩ := hre.exists_apply ⟨hk, hk'⟩
    rw [hki, hre.apply_of_ne (Or.inl (by omega))]
    exact h.above i hi hi'

theorem Split.sorted (h : Split key a l m r) (hl : SortedOn key a l m)
    (hr : SortedOn key a (m + 1) r) : SortedOn key a l r := by
  intro i j hi hij hj
  rcases lt_trichotomy j m with hjm | rfl | hjm
  · exact hl i j hi hij hjm
  · exact h.below i hi hij
  · rcases lt_trichotomy i m with him | rfl | him
    · exact (h.below i hi him).trans (h.above j hjm hj)
    · exact h.above j hjm hj
    · exact hr i j him hij hj

/-- **Both parts are sorted.** -/
theorem qsorts_spec (hcmp : Compares cmp key a) (hk : n ≤ k) :
    Rearr l (l + n) a (qsorts cmp k a l n) ∧ SortedOn key (qsorts cmp k a l n) l (l + n) := by
  induction k generalizing a l n with
  | zero =>
    obtain rfl : n = 0 := by omega
    exact ⟨Rearr.refl _ _ a, fun i j hi hij hj => by omega⟩
  | succ k ih =>
    rw [qsorts]
    by_cases hn : n ≤ 1
    · rw [if_pos hn]
      exact ⟨Rearr.refl _ _ a, fun i j hi hij hj => by omega⟩
    rw [if_neg hn]
    obtain ⟨hre, hl, hr, hsplit⟩ := @partition_spec α cmp a l n κ _ key hcmp (by omega)
    generalize partition cmp a l n = part at *
    obtain ⟨x, m⟩ := part
    simp only at hre hl hr hsplit ⊢
    have hcmp' : Compares cmp key x := hcmp.rearr hre
    obtain ⟨j, rfl⟩ := Nat.exists_eq_add_of_le hl
    have hj : l + j - l = j := by omega
    have hend : l + j + 1 + (n - j - 1) = l + n := by omega
    rw [hj]
    split
    next =>
      -- the part in front is sorted first
      obtain ⟨hre₁, hsort₁⟩ := @ih x l j hcmp' (by omega)
      obtain ⟨hre₂, hsort₂⟩ :=
        @ih (qsorts cmp k x l j) (l + j + 1) (n - j - 1) (hcmp'.rearr hre₁) (by omega)
      rw [hend] at hre₂ hsort₂
      refine ⟨(hre.trans (hre₁.widen le_rfl (by omega))).trans (hre₂.widen (by omega) le_rfl), ?_⟩
      refine ((hsplit.left hre₁).right hre₂).sorted (hsort₁.congr fun i _ hi => ?_) hsort₂
      exact hre₂.apply_of_ne (Or.inl (by omega))
    next =>
      obtain ⟨hre₂, hsort₂⟩ := @ih x (l + j + 1) (n - j - 1) hcmp' (by omega)
      rw [hend] at hre₂ hsort₂
      obtain ⟨hre₁, hsort₁⟩ :=
        @ih (qsorts cmp k x (l + j + 1) (n - j - 1)) l j (hcmp'.rearr hre₂) (by omega)
      refine ⟨(hre.trans (hre₂.widen (by omega) le_rfl)).trans (hre₁.widen le_rfl (by omega)), ?_⟩
      refine ((hsplit.right hre₂).left hre₁).sorted hsort₁ (hsort₂.congr fun i hi _ => ?_)
      exact hre₁.apply_of_ne (Or.inr (by omega))

/-- **`qsort` sorts**: the elements are the same, and in order. -/
theorem qsort_spec (hcmp : Compares cmp key a) (n : ℕ) :
    ((List.range n).map (qsort cmp a n)).Perm ((List.range n).map a) ∧
      ((List.range n).map (qsort cmp a n)).Pairwise fun x y => key x ≤ key y := by
  obtain ⟨hre, hsort⟩ := @qsorts_spec α cmp a 0 n n κ _ key hcmp le_rfl
  rw [Nat.zero_add] at hre hsort
  refine ⟨hre.perm, List.pairwise_map.2 ?_⟩
  refine List.pairwise_lt_range.imp_of_mem fun hi hj hij => ?_
  exact hsort _ _ (Nat.zero_le _) hij (List.mem_range.1 hj)

/-- **`qsort` works in place**: the elements are the same and in order, and what is behind them is
as it was. -/
theorem qsort_in_place (hcmp : Compares cmp key a) (n : ℕ) :
    (((List.range n).map (qsort cmp a n)).Perm ((List.range n).map a) ∧
      ((List.range n).map (qsort cmp a n)).Pairwise fun x y => key x ≤ key y) ∧
      ∀ i, n ≤ i → qsort cmp a n i = a i := by
  refine ⟨qsort_spec hcmp n, fun i hi => ?_⟩
  obtain ⟨hre, -⟩ := @qsorts_spec α cmp a 0 n n κ _ key hcmp le_rfl
  exact hre.apply_of_ne (Or.inr (by omega))

/-- Three numbers in the wrong order. -/
theorem qsort_in_place_three :
    (((List.range 3).map (qsort (@compare ℕ instOrdNat) (9 - ·) 3)).Perm [9, 8, 7] ∧
      ((List.range 3).map (qsort (@compare ℕ instOrdNat) (9 - ·) 3)).Pairwise fun x y => x ≤ y) ∧
      ∀ i, 3 ≤ i → qsort (@compare ℕ instOrdNat) (9 - ·) 3 i = 9 - i :=
  @qsort_in_place ℕ (@compare ℕ instOrdNat) (9 - ·) ℕ _ id (fun _ _ => rfl) 3

end Libc

end Plan9
