import Mathlib.Tactic.ByContra
import Mathlib.Tactic.SplitIfs

/-!
# Outcomes

What can be said about a computation that may fail: its value is good, or it has failed and a given
proposition holds. With `True` for it this is partial correctness and with `False` total
correctness, so that one proof covers both: a side condition is only needed when failing is not
allowed.

* `Plan9.Lib.Outcome.bind` – outcomes of a sequence;
* `Plan9.Lib.outcome_false` – total correctness.
-/

namespace Plan9

namespace Lib

universe u v

variable {ε : Type v} {α β : Type u} {E c : Prop} {x : Except ε α} {f : α → Except ε β}
  {Q Q' : α → Prop}
  {R : β → Prop} {a : α}

/-- The value is good, or the computation has failed and `E` holds. -/
def Outcome (E : Prop) (x : Except ε α) (Q : α → Prop) : Prop :=
  match x with
  | .ok a => Q a
  | .error _ => E

theorem outcome_false : Outcome False x Q ↔ ∃ a, x = .ok a ∧ Q a := by
  cases x with
  | ok a =>
    constructor
    · intro h
      exact ⟨a, rfl, h⟩
    · rintro ⟨b, hb, h⟩
      exact Except.ok.inj hb ▸ h
  | error e => exact ⟨False.elim, fun ⟨_, hb, _⟩ => absurd hb nofun⟩

/-- A value that has been computed. -/
theorem exists_of_any [DecidablePred Q] (h : x.toOption.any (fun a => decide (Q a)) = true) :
    ∃ a, x = .ok a ∧ Q a := by
  cases x with
  | ok a => exact ⟨a, rfl, of_decide_eq_true h⟩
  | error e => exact absurd h nofun

namespace Outcome

theorem mono (h : Outcome E x Q) (hQ : ∀ a, Q a → Q' a) : Outcome E x Q' := by
  cases x with
  | ok a => exact hQ a h
  | error e => exact h

/-- **The rule of sequences.** -/
theorem bind (h : Outcome E x Q) (hf : ∀ a, Q a → Outcome E (f a) R) : Outcome E (x >>= f) R := by
  cases x with
  | ok a => exact hf a h
  | error e => exact h

/-- The rule of sequences, with the value that the first computation has. -/
theorem bind_eq (h : Outcome E x Q) (hf : ∀ a, x = .ok a → Q a → Outcome E (f a) R) :
    Outcome E (x >>= f) R := by
  cases x with
  | ok a => exact hf a rfl h
  | error e => exact h

theorem of_eq (h : Outcome E x Q) (hx : x = .ok a) : Q a := by
  subst hx
  exact h

theorem ite [Decidable c] {y : Except ε α} (h : c → Outcome E x Q) (h' : ¬c → Outcome E y Q) :
    Outcome E (if c then x else y) Q := by
  split_ifs with hc
  · exact h hc
  · exact h' hc

/-- An error has to be excluded where failing is not allowed. -/
theorem error_of {e : ε} (h : ¬E → False) : Outcome E (.error e : Except ε α) Q := by_contra h

end Outcome

end Lib

end Plan9
