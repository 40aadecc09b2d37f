import Mathlib.Data.List.Infix
import Mathlib.Logic.Relation

/-!
# Runs of a labelled step relation

A program whose operations can be called in any order is a step relation
`step s a t`: in state `s` the operation `a` may lead to `t`. The relation is
not a function, so that a read of uninitialised memory, a failing disk or the
order of two processes can be left open.

`Plan9.Lib.Run` lists the operations of a run in order. The two rules that the
developments below use are `Plan9.Lib.Run.inv` – what every step preserves holds
at the end of every run – and `Plan9.Lib.Run.guarded_inv`, the same for the runs
each of whose steps meets a side condition in the state it starts from.
`Plan9.Lib.Run.guarded_iff` is for a side condition that says exactly when a
property is preserved.
-/

namespace Plan9

namespace Lib

variable {σ α : Type*}

/-- **Runs**: `Run step s l t` when the operations of `l`, taken in order, lead
from `s` to `t`. -/
inductive Run (step : σ → α → σ → Prop) : σ → List α → σ → Prop
  /-- The empty run stays where it is. -/
  | nil (s : σ) : Run step s [] s
  /-- A run begins with a step. -/
  | cons {s t u : σ} {a : α} {l : List α} : step s a t → Run step t l u → Run step s (a :: l) u

/-- A step relation restricted to the steps that meet a side condition in the
state they start from. -/
def Guarded (ok : σ → α → Prop) (step : σ → α → σ → Prop) : σ → α → σ → Prop :=
  fun s a t => ok s a ∧ step s a t

namespace Run

variable {step : σ → α → σ → Prop} {s t u : σ} {a : α} {l l' : List α}

theorem single (h : step s a t) : Run step s [a] t := .cons h (.nil t)

theorem append (h : Run step s l t) (h' : Run step t l' u) : Run step s (l ++ l') u := by
  induction h with
  | nil => exact h'
  | cons hstep _ ih => exact .cons hstep (ih h')

theorem snoc (h : Run step s l t) (hstep : step t a u) : Run step s (l ++ [a]) u :=
  h.append (single hstep)

/-- **What every step preserves holds at the end of every run.** -/
theorem inv {I : σ → Prop} (hI : ∀ s a t, I s → step s a t → I t)
    (h : Run step s l t) (hs : I s) : I t := by
  induction h with
  | nil => exact hs
  | cons hstep _ ih => exact ih (hI _ _ _ hs hstep)

/-- The invariant rule for runs whose steps all meet a side condition. -/
theorem guarded_inv {ok : σ → α → Prop} {I : σ → Prop}
    (hI : ∀ s a t, I s → ok s a → step s a t → I t)
    (h : Run (Guarded ok step) s l t) (hs : I s) : I t :=
  h.inv (fun s a t hs hst => hI s a t hs hst.1 hst.2) hs

/-- A run whose steps meet a side condition is a run. -/
theorem of_guarded {ok : σ → α → Prop} (h : Run (Guarded ok step) s l t) : Run step s l t := by
  induction h with
  | nil => exact .nil _
  | cons hstep _ ih => exact .cons hstep.2 ih

/-- **The runs through which a property holds**: if a step from a state with the property leads to
one again exactly when it meets a side condition, then all states that a run goes through have the
property exactly when all its steps meet the condition. -/
theorem guarded_iff {ok : σ → α → Prop} {I P : σ → Prop}
    (hstep : ∀ s a t, I s → P s → step s a t → I t ∧ (P t ↔ ok s a))
    (hdet : ∀ s a t t', step s a t → step s a t' → t = t') (hI : I s) (hP : P s) :
    Run (Guarded ok step) s l t ↔ Run step s l t ∧ ∀ l₁ u, l₁ <+: l → Run step s l₁ u → P u := by
  constructor
  · intro h
    refine ⟨h.of_guarded, ?_⟩
    induction h with
    | nil s =>
      rintro l₁ u hl hu
      obtain rfl := List.prefix_nil.1 hl
      cases hu
      exact hP
    | @cons s v t a l hv hrun ih =>
      obtain ⟨hok, hv⟩ := hv
      have hIP := hstep s a v hI hP hv
      intro l₁ u hl hu
      cases hu with
      | nil => exact hP
      | @cons _ v' _ b l₁ hv' hu =>
        obtain ⟨rfl, hpre⟩ := List.cons_prefix_cons.1 hl
        obtain rfl := hdet s b v v' hv hv'
        exact ih hIP.1 (hIP.2.2 hok) l₁ u hpre hu
  · rintro ⟨h, hall⟩
    induction h with
    | nil s => exact .nil s
    | @cons s v t a l hv hrun ih =>
      have hIP := hstep s a v hI hP hv
      have hPv : P v := hall [a] v (List.cons_prefix_cons.2 ⟨rfl, List.nil_prefix⟩) (single hv)
      refine .cons ⟨hIP.2.1 hPv, hv⟩ (ih hIP.1 hPv fun l₁ u hl hu => ?_)
      exact hall (a :: l₁) u (List.cons_prefix_cons.2 ⟨rfl, hl⟩) (.cons hv hu)

/-- **A run of a program that computes its steps.** -/
theorem of_foldlM {f : σ → α → Option σ} (hstep : ∀ s, ∀ a ∈ l, ∀ t, f s a = some t → step s a t)
    (h : l.foldlM f s = some t) : Run step s l t := by
  induction l generalizing s with
  | nil =>
    obtain rfl := Option.some.inj h
    exact .nil s
  | cons a l ih =>
    rw [List.foldlM_cons] at h
    obtain ⟨u, hu, hrest⟩ := Option.bind_eq_some_iff.1 h
    exact .cons (hstep s a List.mem_cons_self u hu)
      (ih (fun s b hb => hstep s b (List.mem_cons_of_mem a hb)) hrest)

end Run

end Lib

end Plan9
