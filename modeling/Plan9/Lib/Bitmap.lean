import Mathlib.Data.BitVec
import Mathlib.Logic.Function.Basic

/-!
# Bitmaps

A set of numbers as an array of words of `w` bits: `t` is in the set when bit `t % w` of
word `t / w` is on. Setting and clearing a bit change the membership of one number
(`Plan9.Lib.Bitmap.get_setBit`, `Plan9.Lib.Bitmap.get_clearBit`). What is found by looking for a
word that is not full and a clear bit in it is not in the set
(`Plan9.Lib.Bitmap.find_spec`).
-/

namespace Plan9

namespace Lib

/-- An array of words. -/
abbrev Bitmap (w : ℕ) := ℕ → BitVec w

namespace Bitmap

variable {w : ℕ} (m : Bitmap w)

/-- Is the bit on? -/
def get (t : ℕ) : Bool := (m (t / w)).getLsbD (t % w)

/-- Turn a bit of a word on. -/
def setBit (i j : ℕ) : Bitmap w := Function.update m i (m i ||| 1#w <<< j)

/-- Turn a bit of a word off. -/
def clearBit (i j : ℕ) : Bitmap w := Function.update m i (m i &&& ~~~(1#w <<< j))

/-- The first word that is not full, and its first bit that is off, below `n` words. -/
def find (n : ℕ) : Option (ℕ × ℕ) :=
  (List.range n).findSome? fun i =>
    if m i = ~~~0#w then none
    else ((List.range w).find? fun j => m i &&& 1#w <<< j = 0#w).map fun j => (i, j)

variable {m}

theorem getLsbD_one_shiftLeft {j k : ℕ} (hk : k < w) : (1#w <<< j).getLsbD k = decide (k = j) := by
  rw [BitVec.getLsbD_shiftLeft, BitVec.getLsbD_one]
  rcases lt_trichotomy k j with hlt | rfl | hgt
  · simp [hlt, hlt.ne]
  · simp [hk, Nat.pos_of_ne_zero (Nat.ne_zero_of_lt hk)]
  · have hsub : k - j ≠ 0 := Nat.sub_ne_zero_of_lt hgt
    simp [hsub, hgt.ne']

/-- A number is its word and its bit. -/
theorem eq_iff_div_mod {i j t : ℕ} (hj : j < w) : t = i * w + j ↔ t / w = i ∧ t % w = j := by
  constructor
  · rintro rfl
    rw [Nat.mul_comm, Nat.mul_add_div (Nat.zero_lt_of_lt hj), Nat.mul_add_mod,
      Nat.div_eq_of_lt hj, Nat.mod_eq_of_lt hj, Nat.add_zero]
    exact ⟨rfl, rfl⟩
  · rintro ⟨rfl, rfl⟩
    rw [Nat.mul_comm, Nat.div_add_mod]

theorem get_setBit {i j : ℕ} (hj : j < w) (t : ℕ) :
    (m.setBit i j).get t = (decide (t = i * w + j) || m.get t) := by
  rw [get, setBit, get]
  have hmod : t % w < w := Nat.mod_lt t (Nat.zero_lt_of_lt hj)
  by_cases hi : t / w = i
  · subst hi
    rw [Function.update_self, BitVec.getLsbD_or, getLsbD_one_shiftLeft hmod, Bool.or_comm]
    congr 1
    rw [decide_eq_decide, eq_iff_div_mod hj]
    exact ⟨fun h => ⟨rfl, h⟩, And.right⟩
  · have hne : t ≠ i * w + j := fun h => hi ((eq_iff_div_mod hj).1 h).1
    rw [Function.update_of_ne hi, decide_eq_false hne, Bool.false_or]

theorem get_clearBit {i j : ℕ} (hj : j < w) (t : ℕ) :
    (m.clearBit i j).get t = (!decide (t = i * w + j) && m.get t) := by
  rw [get, clearBit, get]
  have hmod : t % w < w := Nat.mod_lt t (Nat.zero_lt_of_lt hj)
  by_cases hi : t / w = i
  · subst hi
    rw [Function.update_self, BitVec.getLsbD_and, BitVec.getLsbD_not,
      getLsbD_one_shiftLeft hmod, decide_eq_true hmod, Bool.true_and, Bool.and_comm]
    congr 2
    rw [decide_eq_decide, eq_iff_div_mod hj]
    exact ⟨fun h => ⟨rfl, h⟩, And.right⟩
  · have hne : t ≠ i * w + j := fun h => hi ((eq_iff_div_mod hj).1 h).1
    rw [Function.update_of_ne hi, decide_eq_false hne, Bool.not_false, Bool.true_and]

/-- **What `find` finds** is off. -/
theorem find_spec {n i j : ℕ} (h : m.find n = some (i, j)) :
    i < n ∧ j < w ∧ m.get (i * w + j) = false := by
  rw [find] at h
  obtain ⟨i', hi', hword⟩ := List.exists_of_findSome?_eq_some h
  split at hword
  · cases hword
  · obtain ⟨j', hj', heq⟩ := Option.map_eq_some_iff.1 hword
    obtain ⟨rfl, rfl⟩ := Prod.mk.inj heq
    have hjw : j' < w := List.mem_range.1 (List.mem_of_find?_eq_some hj')
    have hoff := List.find?_some hj'
    rw [decide_eq_true_iff] at hoff
    refine ⟨List.mem_range.1 hi', hjw, ?_⟩
    obtain ⟨hdiv, hmod⟩ := (eq_iff_div_mod hjw).1 rfl
    rw [get, hdiv, hmod]
    have hbit := congrArg (fun v => BitVec.getLsbD v j') hoff
    simpa [getLsbD_one_shiftLeft hjw] using hbit

end Bitmap

end Lib

end Plan9
