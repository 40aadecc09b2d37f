import Mathlib.Algebra.Order.Floor.Div
import Mathlib.Order.Interval.Set.Basic

/-!
# Splitting a key space into buckets and the buckets into ranges

A hash table with `n` buckets over the keys below `M` can send the key `h` to the
bucket `h / d`, where `d` is `M` divided by `n` and rounded up. Rounding makes
some buckets unreachable: the keys use `M ⌈/⌉ d` of them, which may be fewer than
`n`. Taking *that* number for `n` gives a pair that no further rounding changes
(`Plan9.Lib.ceilDiv_ceilDiv_ceilDiv`), and is what
`Plan9.Lib.IsBucketing` says of a divisor and a number of buckets.

The buckets are then dealt out in contiguous ranges, some of them possibly empty
(`Plan9.Lib.Contiguous`). No bucket lies in two ranges
(`Plan9.Lib.Contiguous.unique`): its range is the last one that starts at or before it
(`Plan9.Lib.Contiguous.lt_start`), and a search for it may look at the starts alone.
-/

namespace Plan9

namespace Lib

/-! ### Buckets -/

section Bucketing

variable {M n d h : ℕ}

/-- Rounded-up division by one side bounds the other. -/
theorem ceilDiv_le_comm (hn : 0 < n) (hd : 0 < d) : M ⌈/⌉ n ≤ d ↔ M ⌈/⌉ d ≤ n := by
  rw [ceilDiv_le_iff_le_mul hn, ceilDiv_le_iff_le_mul hd, Nat.mul_comm]

theorem ceilDiv_pos (hM : 0 < M) (hd : 0 < d) : 0 < M ⌈/⌉ d := by
  rw [Nat.pos_iff_ne_zero]
  intro hc
  have := (ceilDiv_le_iff_le_mul (b := M) (c := 0) hd).mp hc.le
  omega

/-- Rounding twice never needs more buckets than there were. -/
theorem ceilDiv_ceilDiv_le (hM : 0 < M) (hn : 0 < n) : M ⌈/⌉ (M ⌈/⌉ n) ≤ n :=
  (ceilDiv_le_comm hn (ceilDiv_pos hM hn)).mp le_rfl

theorem ceilDiv_anti {d' : ℕ} (hd : 0 < d) (h : d ≤ d') : M ⌈/⌉ d' ≤ M ⌈/⌉ d := by
  have hle : M ≤ d * (M ⌈/⌉ d) := (ceilDiv_le_iff_le_mul hd).mp le_rfl
  exact (ceilDiv_le_iff_le_mul (by omega)).mpr (hle.trans (Nat.mul_le_mul_right _ h))

/-- **Rounding settles after one turn**: the number of buckets in use gives a
divisor that uses all of them. -/
theorem ceilDiv_ceilDiv_ceilDiv (hM : 0 < M) (hn : 0 < n) : M ⌈/⌉ (M ⌈/⌉ (M ⌈/⌉ n)) = M ⌈/⌉ n := by
  have hd := ceilDiv_pos hM hn
  exact le_antisymm (ceilDiv_ceilDiv_le hM hd)
    (ceilDiv_anti (ceilDiv_pos hM hd) (ceilDiv_ceilDiv_le hM hn))

/-- The number of buckets in use, in the form that needs no `M + d`. -/
theorem pred_div_add_one (hM : 0 < M) (hd : 0 < d) : (M - 1) / d + 1 = M ⌈/⌉ d := by
  rw [Nat.ceilDiv_eq_add_pred_div, show M + d - 1 = M - 1 + d by omega, Nat.add_div_right _ hd]

/-- **Every key has a bucket.** -/
theorem div_lt_ceilDiv (hd : 0 < d) (hh : h < M) : h / d < M ⌈/⌉ d := by
  have hle : M ≤ d * (M ⌈/⌉ d) := (ceilDiv_le_iff_le_mul hd).mp le_rfl
  exact Nat.div_lt_of_lt_mul (by omega)

/-- A divisor and a number of buckets that fit each other. -/
structure IsBucketing (M n d : ℕ) : Prop where
  div_pos : 0 < d
  buckets_eq : M ⌈/⌉ d = n

theorem IsBucketing.of_buckets (hM : 0 < M) (hd : 0 < d) :
    IsBucketing M (M ⌈/⌉ d) (M ⌈/⌉ (M ⌈/⌉ d)) :=
  ⟨ceilDiv_pos hM (ceilDiv_pos hM hd), ceilDiv_ceilDiv_ceilDiv hM hd⟩

theorem IsBucketing.div_lt (hb : IsBucketing M n d) (hh : h < M) : h / d < n :=
  hb.buckets_eq ▸ div_lt_ceilDiv hb.div_pos hh

/-- The last bucket begins below `M`. -/
theorem IsBucketing.pred_mul_lt (hb : IsBucketing M n d) (hn : 0 < n) : (n - 1) * d < M := by
  by_contra hc
  have hle := (ceilDiv_le_iff_le_mul (c := n - 1) hb.div_pos).mpr
    (show M ≤ d * (n - 1) by rw [Nat.mul_comm]; omega)
  rw [hb.buckets_eq] at hle
  omega

/-- The buckets together cover the keys. -/
theorem IsBucketing.le_mul (hb : IsBucketing M n d) : M ≤ n * d := by
  have hle := (ceilDiv_le_iff_le_mul (b := M) (c := n) hb.div_pos).mp hb.buckets_eq.le
  rwa [Nat.mul_comm] at hle

end Bucketing

/-! ### Contiguous ranges -/

/-- **Contiguous ranges**: `n` half-open ranges `[start i, stop i)`, each possibly
empty, that follow one another from `0` to `top`. -/
structure Contiguous (start stop : ℕ → ℕ) (n top : ℕ) : Prop where
  pos : 0 < n
  first : start 0 = 0
  next : ∀ i, i + 1 < n → stop i = start (i + 1)
  le : ∀ i, i < n → start i ≤ stop i
  last : stop (n - 1) = top

namespace Contiguous

variable {start stop : ℕ → ℕ} {n top : ℕ} (hc : Contiguous start stop n top)

include hc

variable {i j : ℕ}

theorem stop_le_start (hij : i < j) (hj : j < n) : stop i ≤ start j := by
  induction j with
  | zero => omega
  | succ j ih =>
    rw [← hc.next j hj]
    rcases Nat.lt_succ_iff_lt_or_eq.mp hij with hlt | rfl
    · exact (ih hlt (by omega)).trans (hc.le j (by omega))
    · exact le_rfl

theorem start_mono (hij : i ≤ j) (hj : j < n) : start i ≤ start j := by
  rcases Nat.eq_or_lt_of_le hij with rfl | hlt
  · exact le_rfl
  · exact (hc.le i (by omega)).trans (hc.stop_le_start hlt hj)

theorem stop_le_top (hi : i < n) : stop i ≤ top := by
  rcases Nat.eq_or_lt_of_le (Nat.le_sub_one_of_lt hi) with h | h
  · rw [h, hc.last]
  · exact (hc.stop_le_start h (by omega)).trans ((hc.le (n - 1) (by omega)).trans hc.last.le)

variable {x : ℕ}

/-- A range that holds `x` is the last one that starts at or before `x`. -/
theorem lt_start (hx : x < stop i) (hij : i < j) (hj : j < n) : x < start j :=
  hx.trans_le (hc.stop_le_start hij hj)

/-- Two ranges that hold a common `x` are the same. -/
theorem unique (hi : i < n) (hj : j < n) (hxi : start i ≤ x ∧ x < stop i)
    (hxj : start j ≤ x ∧ x < stop j) : i = j := by
  rcases Nat.lt_trichotomy i j with h | h | h
  · exact absurd hxj.1 (not_le.mpr (hc.lt_start hxi.2 h hj))
  · exact h
  · exact absurd hxi.1 (not_le.mpr (hc.lt_start hxj.2 h hi))

/-- The last range that starts at or before `x < top` holds `x`. -/
theorem mem_of_last (hi : i < n) (hx : x < top) (h0 : i = 0 ∨ start i ≤ x)
    (hlast : ∀ j, i < j → j < n → x < start j) : start i ≤ x ∧ x < stop i := by
  refine ⟨?_, ?_⟩
  · rcases h0 with rfl | h0
    · rw [hc.first]
      exact Nat.zero_le _
    · exact h0
  · rcases Nat.lt_or_ge (i + 1) n with h | h
    · rw [hc.next i h]
      exact hlast _ (Nat.lt_succ_self i) h
    · rw [show i = n - 1 by omega, hc.last]
      exact hx

end Contiguous

/-! ### Ranges in a list -/

/-- The ranges of the list follow one another from `a` to `top`; the shape in which a
loop over a table checks it. -/
def ChainFrom (top : ℕ) : ℕ → List (ℕ × ℕ) → Prop
  | a, [] => a = top
  | a, r :: l => r.1 = a ∧ r.1 ≤ r.2 ∧ ChainFrom top r.2 l

/-- The start of the `i`-th range of a list. -/
def rangeStart (l : List (ℕ × ℕ)) (i : ℕ) : ℕ := (l.getD i (0, 0)).1

/-- The stop of the `i`-th range of a list. -/
def rangeStop (l : List (ℕ × ℕ)) (i : ℕ) : ℕ := (l.getD i (0, 0)).2

@[simp] theorem rangeStart_cons_zero (r : ℕ × ℕ) (l : List (ℕ × ℕ)) :
    rangeStart (r :: l) 0 = r.1 := rfl

@[simp] theorem rangeStart_cons_succ (r : ℕ × ℕ) (l : List (ℕ × ℕ)) (i : ℕ) :
    rangeStart (r :: l) (i + 1) = rangeStart l i := rfl

@[simp] theorem rangeStop_cons_zero (r : ℕ × ℕ) (l : List (ℕ × ℕ)) :
    rangeStop (r :: l) 0 = r.2 := rfl

@[simp] theorem rangeStop_cons_succ (r : ℕ × ℕ) (l : List (ℕ × ℕ)) (i : ℕ) :
    rangeStop (r :: l) (i + 1) = rangeStop l i := rfl

theorem chainFrom_iff {top : ℕ} : ∀ {a : ℕ} {l : List (ℕ × ℕ)}, l ≠ [] →
    (ChainFrom top a l ↔ rangeStart l 0 = a ∧
      (∀ i, i + 1 < l.length → rangeStop l i = rangeStart l (i + 1)) ∧
      (∀ i, i < l.length → rangeStart l i ≤ rangeStop l i) ∧ rangeStop l (l.length - 1) = top)
  | a, [r], _ => by simp [ChainFrom]
  | a, r :: r' :: l, _ => by
    have ih := @chainFrom_iff top r.2 (r' :: l) (by simp)
    rw [ChainFrom, ih]
    constructor
    · rintro ⟨h1, h2, h3, h4, h5, h6⟩
      refine ⟨h1, fun i hi => ?_, fun i hi => ?_, by simpa using h6⟩
      · cases i with
        | zero => exact h3.symm
        | succ i => exact h4 i (by simpa using hi)
      · cases i with
        | zero => exact h2
        | succ i => exact h5 i (by simpa using hi)
    · rintro ⟨h1, h2, h3, h4⟩
      exact ⟨h1, h3 0 (by simp), (h2 0 (by simp)).symm,
        fun i hi => h2 (i + 1) (by simpa using hi), fun i hi => h3 (i + 1) (by simpa using hi),
        by simpa using h4⟩

/-- **A table that passes the loop's check is contiguous**, and conversely. -/
theorem chainFrom_zero_iff {top : ℕ} {l : List (ℕ × ℕ)} (hl : l ≠ []) :
    ChainFrom top 0 l ↔ Contiguous (rangeStart l) (rangeStop l) l.length top := by
  rw [chainFrom_iff hl]
  exact ⟨fun h => ⟨List.length_pos_iff.mpr hl, h.1, h.2.1, h.2.2.1, h.2.2.2⟩,
    fun h => ⟨h.first, h.next, h.le, h.last⟩⟩

end Lib

end Plan9
