import Mathlib.Algebra.Order.Ring.Int
import Mathlib.Data.Nat.Basic

/-!
# Binary search

**For the last index that passes a test.** Tables of ranges are searched by their starts: the
wanted entry is the last one whose start is not beyond the key. The loop below keeps entry `0` out
of the search – it is the answer when nothing else passes – and narrows `l .. r` around
the boundary between the entries that pass and those that do not
(`Plan9.Lib.searchLast_spec`).

**For a key in a sorted table.** The comparison of the key with an entry may fail (the
entry is unpacked first); where it does not and agrees with the order of the table, the
search finds the key or the place to insert it (`Plan9.Lib.searchBy_spec`). There are two
loops, on an interval that is half open and on one that is closed
(`Plan9.Lib.searchIn_spec`).
-/

namespace Plan9

namespace Lib

/-- The search loop over `l .. r`, one turn a unit of fuel: the answer is the
index before `l` when the interval is empty. -/
def searchLastFrom (p : ℕ → Bool) : ℕ → ℕ → ℕ → ℕ
  | 0, l, _ => l - 1
  | fuel + 1, l, r =>
    if l ≤ r then
      if p ((r + l) / 2) then searchLastFrom p fuel ((r + l) / 2 + 1) r
      else searchLastFrom p fuel l ((r + l) / 2 - 1)
    else l - 1

/-- The search over the `n` entries of a table. The interval `1 .. n - 1` shrinks
on every turn, so `n` turns are enough. -/
def searchLast (p : ℕ → Bool) (n : ℕ) : ℕ := searchLastFrom p n 1 (n - 1)

variable {p : ℕ → Bool} {n : ℕ}

/-- The invariant of the loop: what lies before `l` passes, what lies beyond `r`
does not. -/
theorem searchLastFrom_spec (hmono : ∀ i j, i ≤ j → j < n → p j = true → p i = true) :
    ∀ fuel l r, 1 ≤ l → r < n → l ≤ r + 1 → r + 1 - l ≤ fuel →
      (∀ i, 1 ≤ i → i < l → p i = true) → (∀ i, r < i → i < n → p i = false) →
      searchLastFrom p fuel l r < n ∧
      (∀ i, 1 ≤ i → i ≤ searchLastFrom p fuel l r → p i = true) ∧
      ∀ i, searchLastFrom p fuel l r < i → i < n → p i = false := by
  intro fuel
  induction fuel with
  | zero =>
    intro l r hl hr hlr hfuel hlo hhi
    rw [searchLastFrom]
    exact ⟨by omega, fun i h1 h2 => hlo i h1 (by omega), fun i h1 h2 => hhi i (by omega) h2⟩
  | succ fuel ih =>
    intro l r hl hr hlr hfuel hlo hhi
    rw [searchLastFrom]
    rcases Nat.lt_or_ge r l with hlt | hle
    · rw [if_neg (by omega)]
      exact ⟨by omega, fun i h1 h2 => hlo i h1 (by omega), fun i h1 h2 => hhi i (by omega) h2⟩
    · have hml : l ≤ (r + l) / 2 := by omega
      have hmr : (r + l) / 2 ≤ r := by omega
      rw [if_pos hle]
      generalize (r + l) / 2 = m at hml hmr ⊢
      by_cases hp : p m = true
      · -- the middle passes, and with it everything before it
        rw [if_pos hp]
        refine ih _ _ (by omega) hr (by omega) (by omega) (fun i h1 h2 => ?_) hhi
        exact hmono i _ (by omega) (by omega) hp
      · -- the middle fails, and with it everything behind it
        rw [if_neg hp]
        refine ih _ _ hl (by omega) (by omega) (by omega) hlo fun i h1 h2 => ?_
        rcases hpi : p i with _ | _
        · rfl
        · exact absurd (hmono _ i (by omega) h2 hpi) hp

/-- **The search finds the last entry that passes**, or entry `0`. -/
theorem searchLast_spec (hn : 0 < n)
    (hmono : ∀ i j, i ≤ j → j < n → p j = true → p i = true) :
    searchLast p n < n ∧ (searchLast p n = 0 ∨ p (searchLast p n) = true) ∧
      ∀ i, searchLast p n < i → i < n → p i = false := by
  obtain ⟨h1, h2, h3⟩ := searchLastFrom_spec hmono n 1 (n - 1) le_rfl (by omega) (by omega)
    (by omega) (fun i _ _ => by omega) (fun i _ _ => by omega)
  refine ⟨h1, ?_, h3⟩
  rcases Nat.eq_zero_or_pos (searchLast p n) with h | h
  · exact Or.inl h
  · exact Or.inr (h2 _ h le_rfl)

/-! ### The search for a key -/

/-- What a search for a key ends with: the index of an equal entry, or the index at which
the key would be inserted. -/
inductive Found
  /-- The entry at this index equals the key. -/
  | at (i : ℕ)
  /-- No entry does; all before this index are smaller. -/
  | absent (i : ℕ)
  deriving DecidableEq, Repr

/-- The search loop over `b .. t - 1`; `cmp i` compares entry `i` with the key. -/
def searchBy (cmp : ℕ → Option ℤ) : ℕ → ℕ → ℕ → Option Found
  | 0, _, _ => none
  | fuel + 1, b, t =>
    if b < t then
      (cmp ((b + t) / 2)).bind fun x =>
        if x = 0 then some (.at ((b + t) / 2))
        else if x < 0 then searchBy cmp fuel ((b + t) / 2 + 1) t
        else searchBy cmp fuel b ((b + t) / 2)
    else some (.absent b)

variable {cmp : ℕ → Option ℤ} {c : ℕ → ℤ}

/-- The invariant of the loop: what lies before `b` is smaller than the key, what lies from
`t` on is greater. -/
theorem searchBy_from (hcmp : ∀ i < n, cmp i = some (c i))
    (hlt : ∀ i j, i < j → j < n → c j ≤ 0 → c i < 0)
    (hgt : ∀ i j, i < j → j < n → 0 ≤ c i → 0 < c j) :
    ∀ fuel b t, b ≤ t → t ≤ n → t - b < fuel → (∀ i < b, c i < 0) → (∀ i, t ≤ i → i < n → 0 < c i) →
      (∃ i < n, c i = 0 ∧ searchBy cmp fuel b t = some (.at i)) ∨
        ∃ i ≤ n, (∀ j < i, c j < 0) ∧ (∀ j, i ≤ j → j < n → 0 < c j) ∧
          searchBy cmp fuel b t = some (.absent i) := by
  intro fuel
  induction fuel with
  | zero =>
    intro b t _ _ h
    exact absurd h (Nat.not_lt_zero _)
  | succ fuel ih =>
    intro b t hbt htn hfuel hlo hhi
    rw [searchBy]
    rcases Nat.lt_or_ge b t with hb | hb
    · have hm : (b + t) / 2 < n := by omega
      have hm1 : b ≤ (b + t) / 2 := by omega
      have hm2 : (b + t) / 2 < t := by omega
      rw [if_pos hb, hcmp _ hm, Option.bind_some]
      generalize (b + t) / 2 = m at hm hm1 hm2 ⊢
      rcases lt_trichotomy (c m) 0 with h | h | h
      · -- the middle is smaller, and with it everything before it
        rw [if_neg (ne_of_lt h), if_pos h]
        refine ih _ _ (by omega) htn (by omega) (fun i hi => ?_) hhi
        rcases Nat.lt_or_ge i m with hi' | hi'
        · exact hlt i m hi' hm (le_of_lt h)
        · rwa [show i = m by omega]
      · rw [if_pos h]
        exact Or.inl ⟨m, hm, h, rfl⟩
      · -- the middle is greater, and with it everything behind it
        rw [if_neg (ne_of_gt h), if_neg (not_lt.2 (le_of_lt h))]
        refine ih _ _ hm1 (by omega) (by omega) hlo fun i hi hin => ?_
        rcases Nat.lt_or_ge m i with hi' | hi'
        · exact hgt m i hi' hin (le_of_lt h)
        · rwa [show i = m by omega]
    · rw [if_neg (by omega)]
      exact Or.inr ⟨b, by omega, hlo, fun j h1 h2 => hhi j (by omega) h2, rfl⟩

/-- **The search finds the key, or the place for it.** -/
theorem searchBy_spec (hcmp : ∀ i < n, cmp i = some (c i))
    (hlt : ∀ i j, i < j → j < n → c j ≤ 0 → c i < 0)
    (hgt : ∀ i j, i < j → j < n → 0 ≤ c i → 0 < c j) :
    (∃ i < n, c i = 0 ∧ searchBy cmp (n + 1) 0 n = some (.at i)) ∨
      ∃ i ≤ n, (∀ j < i, c j < 0) ∧ (∀ j, i ≤ j → j < n → 0 < c j) ∧
        searchBy cmp (n + 1) 0 n = some (.absent i) :=
  searchBy_from hcmp hlt hgt (n + 1) 0 n (Nat.zero_le n) le_rfl (by omega)
    (fun i hi => absurd hi (Nat.not_lt_zero i)) fun i h1 h2 => absurd h2 (Nat.not_lt.2 h1)

/-! ### In a closed interval -/

/-- The search loop over `l .. r`; `cmp i` compares entry `i` with the key. -/
def searchIn (cmp : ℕ → Ordering) (l r : ℤ) : Found :=
  if l ≤ r then
    match cmp ((r + l) / 2).toNat with
    | .eq => .at ((r + l) / 2).toNat
    | .lt => searchIn cmp ((r + l) / 2 + 1) r
    | .gt => searchIn cmp l ((r + l) / 2 - 1)
  else .absent l.toNat
termination_by (r + 1 - l).toNat
decreasing_by all_goals omega

variable {ord : ℕ → Ordering} {n : ℕ}

/-- The invariant of the loop: what lies before `l` is smaller than the key, what lies behind
`r` is greater. -/
theorem searchIn_from (hlt : ∀ i j, i < j → j < n → ord j ≠ .gt → ord i = .lt)
    (hgt : ∀ i j, i < j → j < n → ord i ≠ .lt → ord j = .gt) (l r : ℤ) :
    0 ≤ l → l ≤ r + 1 → r < n → (∀ i : ℕ, i < l → ord i = .lt) →
      (∀ i : ℕ, r < i → i < n → ord i = .gt) →
      (∃ i < n, ord i = .eq ∧ searchIn ord l r = .at i) ∨
        ∃ i ≤ n, (∀ j < i, ord j = .lt) ∧ (∀ j, i ≤ j → j < n → ord j = .gt) ∧
          searchIn ord l r = .absent i := by
  fun_induction searchIn ord l r with
  | case1 l r hle heq =>
    intro hl _ hr _ _
    exact Or.inl ⟨_, by omega, heq, rfl⟩
  | case2 l r hle heq ih =>
    intro hl _ hr hlo hhi
    -- the middle is smaller, and with it everything before it
    refine ih (by omega) (by omega) hr (fun i hi => ?_) hhi
    rcases lt_or_eq_of_le (show i ≤ ((r + l) / 2).toNat by omega) with hi' | rfl
    · exact hlt i _ hi' (by omega) (by rw [heq]; decide)
    · exact heq
  | case3 l r hle heq ih =>
    intro hl _ hr hlo hhi
    -- the middle is greater, and with it everything behind it
    refine ih hl (by omega) (by omega) hlo fun i hi hin => ?_
    rcases lt_or_eq_of_le (show ((r + l) / 2).toNat ≤ i by omega) with hi' | rfl
    · exact hgt _ i hi' hin (by rw [heq]; decide)
    · exact heq
  | case4 l r hle =>
    intro hl hlr hr hlo hhi
    exact Or.inr ⟨l.toNat, by omega, fun j hj => hlo j (by omega),
      fun j h1 h2 => hhi j (by omega) h2, rfl⟩

/-- **The search finds the key, or the place for it.** -/
theorem searchIn_spec (hlt : ∀ i j, i < j → j < n → ord j ≠ .gt → ord i = .lt)
    (hgt : ∀ i j, i < j → j < n → ord i ≠ .lt → ord j = .gt) :
    (∃ i < n, ord i = .eq ∧ searchIn ord 0 (n - 1) = .at i) ∨
      ∃ i ≤ n, (∀ j < i, ord j = .lt) ∧ (∀ j, i ≤ j → j < n → ord j = .gt) ∧
        searchIn ord 0 (n - 1) = .absent i :=
  searchIn_from hlt hgt 0 (n - 1) le_rfl (by omega) (by omega) (fun i hi => by omega)
    fun i h1 h2 => by omega

end Lib

end Plan9
