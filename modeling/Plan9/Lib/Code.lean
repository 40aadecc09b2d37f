import Mathlib.Logic.Relation
import Mathlib.Data.List.Basic
import Mathlib.Data.Nat.Init

/-!
# Code in place

A program in memory is a function `fetch` from addresses to instructions, and
`Plan9.Lib.Placed fetch pc l` says that the instructions `l` stand at `pc`. A machine is a partial
function on its states; it runs (`Plan9.Lib.Goes`) until it has no next state, and where that is
is unique: `Plan9.Lib.Halts.unique`.
-/

namespace Plan9

namespace Lib

/-! ### Where the instructions are -/

section Placed

variable {ι : Type*} {fetch : ℕ → Option ι} {pc i : ℕ} {x : ι} {l l₁ l₂ : List ι}

/-- The instructions `l` stand at `pc`. -/
def Placed (fetch : ℕ → Option ι) (pc : ℕ) (l : List ι) : Prop :=
  ∀ i x, l[i]? = some x → fetch (pc + i) = some x

theorem Placed.head (h : Placed fetch pc (x :: l)) : fetch pc = some x := h 0 x rfl

theorem Placed.tail (h : Placed fetch pc (x :: l)) : Placed fetch (pc + 1) l := by
  intro i y hy
  rw [show pc + 1 + i = pc + (i + 1) by omega]
  exact h (i + 1) y (by rwa [List.getElem?_cons_succ])

theorem Placed.left (h : Placed fetch pc (l₁ ++ l₂)) : Placed fetch pc l₁ := by
  intro i y hy
  have hi : i < l₁.length := (List.getElem?_eq_some_iff.1 hy).1
  exact h i y (by rwa [List.getElem?_append_left hi])

theorem Placed.right (h : Placed fetch pc (l₁ ++ l₂)) : Placed fetch (pc + l₁.length) l₂ := by
  intro i y hy
  rw [Nat.add_assoc]
  exact h (l₁.length + i) y (by
    rwa [List.getElem?_append_right (Nat.le_add_right _ _), Nat.add_sub_cancel_left])

/-- The memory that holds the instructions `l` at `pc` and nothing else. -/
def memory (pc : ℕ) (l : List ι) (i : ℕ) : Option ι := if pc ≤ i then l[i - pc]? else none

theorem memory_placed (pc : ℕ) (l : List ι) : Placed (memory pc l) pc l := by
  intro i x hx
  rw [memory, if_pos (Nat.le_add_right pc i), Nat.add_sub_cancel_left, hx]

theorem memory_below (h : i < pc) : memory pc l i = none := if_neg (Nat.not_le.2 h)

end Placed

/-! ### Runs of a machine -/

section Goes

variable {σ : Type*} {next : σ → Option σ} {s t t' : σ}

/-- The machine goes from `s` to `t`. -/
def Goes (next : σ → Option σ) : σ → σ → Prop := Relation.ReflTransGen fun a b => next a = some b

/-- The machine goes from `s` to `t` and stops there. -/
def Halts (next : σ → Option σ) (s t : σ) : Prop := Goes next s t ∧ next t = none

theorem Goes.refl (s : σ) : Goes next s s := Relation.ReflTransGen.refl

theorem Goes.step (h : next s = some t) (ht : Goes next t t') : Goes next s t' :=
  Relation.ReflTransGen.head h ht

theorem Goes.trans (h : Goes next s t) (h' : Goes next t t') : Goes next s t' :=
  Relation.ReflTransGen.trans h h'

/-- **A machine stops in one state only.** -/
theorem Halts.unique (h : Halts next s t) (h' : Halts next s t') : t = t' := by
  obtain ⟨hg, ht⟩ := h
  obtain ⟨hg', ht'⟩ := h'
  induction hg using Relation.ReflTransGen.head_induction_on with
  | refl =>
    rcases Relation.ReflTransGen.cases_head hg' with rfl | ⟨u, hu, -⟩
    · rfl
    · rw [ht] at hu
      exact absurd hu nofun
  | head ha _ ih =>
    rcases Relation.ReflTransGen.cases_head hg' with rfl | ⟨u, hu, hrest⟩
    · rw [ht'] at ha
      exact absurd ha nofun
    · rw [ha, Option.some.injEq] at hu
      subst hu
      exact ih hrest

end Goes

end Lib

end Plan9
