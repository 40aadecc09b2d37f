import Mathlib.Data.List.Perm.Basic
import Mathlib.Order.Lattice

/-!
# Agendas

Entries with keys, kept in the order of their keys, those with equal keys in the order in which they
came.

* `Plan9.Lib.Sorts` – an agenda and the same entries in the order in which they came;
* `Plan9.Lib.Sorts.insertAfter`, `Plan9.Lib.Sorts.filter` – adding and removing entries;
* `Plan9.Lib.Sorts.head` – the first entry of the agenda is the earliest of the least ones.
-/

namespace Plan9

namespace Lib

open List

variable {α κ : Type*} [LinearOrder κ] {x y : α × κ} {s p : List (α × κ)}

/-- An entry comes behind those whose keys are not greater. -/
def insertAfter (x : α × κ) : List (α × κ) → List (α × κ)
  | [] => [x]
  | y :: s => if x.2 < y.2 then x :: y :: s else y :: insertAfter x s

/-- The one list is the other one in the order of the keys. -/
structure Sorts (s p : List (α × κ)) : Prop where
  perm : s.Perm p
  sorted : s.Pairwise fun x y => x.2 ≤ y.2
  stable : ∀ k, s.filter (fun x => x.2 = k) = p.filter (fun x => x.2 = k)

theorem insertAfter_perm (x : α × κ) (s : List (α × κ)) : (insertAfter x s).Perm (x :: s) := by
  induction s with
  | nil => rfl
  | cons y s ih =>
    rw [insertAfter]
    split_ifs
    · rfl
    · exact (ih.cons y).trans (Perm.swap x y s)

theorem insertAfter_sorted (h : s.Pairwise fun x y => x.2 ≤ y.2) :
    (insertAfter x s).Pairwise fun x y => x.2 ≤ y.2 := by
  induction s with
  | nil => exact pairwise_singleton _ _
  | cons y s ih =>
    obtain ⟨hy, hs⟩ := pairwise_cons.1 h
    rw [insertAfter]
    split_ifs with hlt
    · refine pairwise_cons.2 ⟨?_, h⟩
      rintro z hz
      rcases mem_cons.1 hz with rfl | hz
      · exact hlt.le
      · exact hlt.le.trans (hy z hz)
    · refine pairwise_cons.2 ⟨fun z hz => ?_, ih hs⟩
      rcases mem_cons.1 ((insertAfter_perm x s).mem_iff.1 hz) with rfl | hz
      · exact not_lt.1 hlt
      · exact hy z hz

/-- It comes last of those with the same key. -/
theorem filter_insertAfter (h : s.Pairwise fun x y => x.2 ≤ y.2) (k : κ) :
    (insertAfter x s).filter (fun x => x.2 = k) =
      s.filter (fun x => x.2 = k) ++ [x].filter fun x => x.2 = k := by
  induction s with
  | nil => rfl
  | cons y s ih =>
    obtain ⟨hy, hs⟩ := pairwise_cons.1 h
    rw [insertAfter]
    split_ifs with hlt
    · by_cases hk : x.2 = k
      · have hnil : (y :: s).filter (fun x => x.2 = k) = [] := by
          refine filter_eq_nil_iff.2 fun z hz => ?_
          have hle : y.2 ≤ z.2 := by
            rcases mem_cons.1 hz with rfl | hz
            · exact le_rfl
            · exact hy z hz
          simpa [← hk] using (hlt.trans_le hle).ne'
        rw [hnil, filter_cons_of_pos (by simpa using hk), hnil,
          filter_cons_of_pos (by simpa using hk)]
        rfl
      · rw [filter_cons_of_neg (by simpa using hk),
          filter_cons_of_neg (a := x) (by simpa using hk), filter_nil, append_nil]
    · rw [filter_cons, filter_cons, ih hs]
      split_ifs <;> rfl

namespace Sorts

theorem nil : Sorts ([] : List (α × κ)) [] := ⟨.nil, .nil, fun _ => rfl⟩

/-- **A new entry** comes last. -/
theorem insertAfter (h : Sorts s p) (x : α × κ) : Sorts (insertAfter x s) (p ++ [x]) where
  perm := ((insertAfter_perm x s).trans (h.perm.cons x)).trans (perm_append_singleton x p).symm
  sorted := insertAfter_sorted h.sorted
  stable k := by rw [filter_insertAfter h.sorted, filter_append, h.stable]

/-- **Entries are removed.** -/
theorem filter (h : Sorts s p) (f : α × κ → Bool) : Sorts (s.filter f) (p.filter f) where
  perm := h.perm.filter f
  sorted := h.sorted.filter f
  stable k := by rw [filter_comm, h.stable, filter_comm]

/-- **The first entry** is the earliest of the least ones. -/
theorem head (h : Sorts (x :: s) p) (hnodup : p.Nodup) :
    ∃ l r, p = l ++ x :: r ∧ (∀ y ∈ l, x.2 < y.2) ∧ ∀ y ∈ r, x.2 ≤ y.2 := by
  obtain ⟨l, r, rfl⟩ := append_of_mem (h.perm.mem_iff.1 (mem_cons_self ..))
  have hle : ∀ y ∈ l ++ x :: r, x.2 ≤ y.2 := by
    intro y hy
    rcases mem_cons.1 (h.perm.mem_iff.2 hy) with rfl | hy
    · exact le_rfl
    · exact (pairwise_cons.1 h.sorted).1 y hy
  refine ⟨l, r, rfl, fun y hy => ?_, fun y hy => hle y (by simp [hy])⟩
  refine lt_of_le_of_ne (hle y (by simp [hy])) fun heq => ?_
  -- the entries with this key begin with `x` in both lists
  have hst := h.stable x.2
  rw [filter_cons_of_pos (by simp), filter_append] at hst
  have hxl : x ∈ l := by
    rcases hl : l.filter (fun z => z.2 = x.2) with - | ⟨z, zs⟩
    · have hyl : y ∈ l.filter fun z => z.2 = x.2 := mem_filter.2 ⟨hy, by simpa using heq.symm⟩
      rw [hl] at hyl
      exact absurd hyl not_mem_nil
    · rw [hl, cons_append] at hst
      have hzx : x = z := (cons.inj hst).1
      have hz : z ∈ l.filter (fun z => z.2 = x.2) := by
        rw [hl]
        exact mem_cons_self ..
      rw [hzx]
      exact (mem_filter.1 hz).1
  exact (nodup_append.1 hnodup).2.2 x hxl x (mem_cons_self ..) rfl

end Sorts

end Lib

end Plan9
