import Mathlib.Logic.Basic
import Mathlib.Data.Prod.Basic

/-!
# Programs that may fault

A C function that changes memory and can fault – by a nil pointer, a failed assertion,
a call of `abort` – is a computation of `StateT σ (Except ε)`: it goes from one state
to the next, or stops with the fault. `Plan9.Lib.Returns` is total correctness for
such programs: **the program returns, and what it returns is as promised**. Its
counterpart `Plan9.Lib.Faults` says that the program stops with a fault. The rules below
take a program apart from its front.
-/

namespace Plan9

namespace Lib

variable {σ ε α β : Type}

/-- From `s` the program `x` returns, without a fault, a value and a state that meet
`Q`. -/
def Returns (x : StateT σ (Except ε) α) (s : σ) (Q : α → σ → Prop) : Prop :=
  ∃ a t, x.run s = .ok (a, t) ∧ Q a t

variable {x : StateT σ (Except ε) α} {k : α → StateT σ (Except ε) β} {s : σ}

theorem Returns.mono {P Q : α → σ → Prop} (h : Returns x s P) (hPQ : ∀ a t, P a t → Q a t) :
    Returns x s Q := by
  obtain ⟨a, t, hx, hP⟩ := h
  exact ⟨a, t, hx, hPQ a t hP⟩

/-- **Sequencing**: what the first part promises is what the second part starts from. -/
theorem Returns.bind {P : α → σ → Prop} {Q : β → σ → Prop} (h : Returns x s P)
    (hk : ∀ a t, P a t → Returns (k a) t Q) : Returns (x >>= k) s Q := by
  obtain ⟨a, t, hx, hP⟩ := h
  obtain ⟨b, u, hb, hQ⟩ := hk a t hP
  refine ⟨b, u, ?_, hQ⟩
  rw [StateT.run_bind, hx]
  exact hb

@[simp]
theorem returns_pure {a : α} {Q : α → σ → Prop} :
    Returns (pure a : StateT σ (Except ε) α) s Q ↔ Q a s := by
  constructor
  · rintro ⟨b, t, hrun, hQ⟩
    have heq : (a, s) = (b, t) := Except.ok.inj hrun
    rw [Prod.mk.injEq] at heq
    rwa [heq.1, heq.2]
  · exact fun hQ => ⟨a, s, rfl, hQ⟩

@[simp]
theorem returns_pure_bind {a : α} {Q : β → σ → Prop} :
    Returns ((pure a : StateT σ (Except ε) α) >>= k) s Q ↔ Returns (k a) s Q := Iff.rfl

@[simp]
theorem returns_get_bind {k : σ → StateT σ (Except ε) β} {Q : β → σ → Prop} :
    Returns (get >>= k) s Q ↔ Returns (k s) s Q := Iff.rfl

@[simp]
theorem returns_modify {f : σ → σ} {Q : Unit → σ → Prop} :
    Returns (modify f : StateT σ (Except ε) Unit) s Q ↔ Q () (f s) := by
  constructor
  · rintro ⟨b, t, hrun, hQ⟩
    have heq : ((), f s) = (b, t) := Except.ok.inj hrun
    rw [Prod.mk.injEq] at heq
    rwa [heq.2]
  · exact fun hQ => ⟨(), f s, rfl, hQ⟩

@[simp]
theorem returns_modify_bind {f : σ → σ} {k : Unit → StateT σ (Except ε) β}
    {Q : β → σ → Prop} :
    Returns ((modify f : StateT σ (Except ε) Unit) >>= k) s Q ↔ Returns (k ()) (f s) Q := Iff.rfl

/-! ### Programs that do fault -/

/-- From `s` the program `x` stops with the fault `e`. -/
def Faults (x : StateT σ (Except ε) α) (s : σ) (e : ε) : Prop := x.run s = .error e

variable {e : ε}

/-- A program that faults does not return. -/
theorem Faults.not_returns (h : Faults x s e) {Q : α → σ → Prop} : ¬Returns x s Q := by
  rintro ⟨a, t, hx, -⟩
  rw [Faults, hx] at h
  cases h

/-- A fault of the first part is a fault of the whole. -/
theorem Faults.bind (h : Faults x s e) : Faults (x >>= k) s e := by
  rw [Faults, StateT.run_bind, h]
  rfl

/-- The first part returns, and the second one faults wherever it starts. -/
theorem Returns.bind_faults {P : α → σ → Prop} (h : Returns x s P)
    (hk : ∀ a t, P a t → Faults (k a) t e) : Faults (x >>= k) s e := by
  obtain ⟨a, t, hx, hP⟩ := h
  rw [Faults, StateT.run_bind, hx]
  exact hk a t hP

/-- **When the whole returns**, if the first part does: when the second part returns. -/
theorem Returns.bind_iff {P : α → σ → Prop} {Q : β → σ → Prop} {c : Prop} (h : Returns x s P)
    (hk : ∀ a t, P a t → (Returns (k a) t Q ↔ c)) : Returns (x >>= k) s Q ↔ c := by
  obtain ⟨a, t, hx, hP⟩ := h
  rw [← hk a t hP, Returns, StateT.run_bind, hx]
  rfl

@[simp]
theorem faults_get_bind {k : σ → StateT σ (Except ε) β} :
    Faults (get >>= k) s e ↔ Faults (k s) s e := Iff.rfl

/-! ### How a program changes the state, if it returns -/

/-- If `x` returns from `s`, the state has changed by `R`, and the result meets `Q`. -/
def Moves (R : σ → σ → Prop) (x : StateT σ (Except ε) α) (s : σ) (Q : α → σ → Prop) : Prop :=
  ∀ a t, x.run s = .ok (a, t) → R s t ∧ Q a t

section Moves

variable {R : σ → σ → Prop} {P Q : α → σ → Prop}

/-- What a program does that returns. -/
theorem Moves.returns (h : Moves R x s Q) (hret : Returns x s P) :
    Returns x s fun a t => P a t ∧ R s t ∧ Q a t := by
  obtain ⟨a, t, hx, hP⟩ := hret
  exact ⟨a, t, hx, hP, h a t hx⟩

theorem moves_throw : Moves R (throw e : StateT σ (Except ε) α) s Q := fun _ _ hrun => by cases hrun

theorem moves_pure {a : α} (hrefl : R s s) (hQ : Q a s) :
    Moves R (pure a : StateT σ (Except ε) α) s Q := by
  intro b t hrun
  obtain ⟨rfl, rfl⟩ := Prod.mk.inj (Except.ok.inj hrun)
  exact ⟨hrefl, hQ⟩

theorem moves_modify {f : σ → σ} {Q : Unit → σ → Prop} (hR : R s (f s)) (hQ : Q () (f s)) :
    Moves R (modify f : StateT σ (Except ε) Unit) s Q := by
  intro b t hrun
  obtain ⟨-, rfl⟩ := Prod.mk.inj (Except.ok.inj hrun)
  exact ⟨hR, hQ⟩

theorem moves_get_bind {k : σ → StateT σ (Except ε) β} {Q : β → σ → Prop}
    (h : Moves R (k s) s Q) : Moves R (get >>= k) s Q := h

/-- **Sequencing**, for a relation that is transitive. -/
theorem Moves.bind {Q : β → σ → Prop} (htrans : ∀ {s t u}, R s t → R t u → R s u)
    (h : Moves R x s P) (hk : ∀ a t, P a t → Moves R (k a) t Q) : Moves R (x >>= k) s Q := by
  intro b u hrun
  rw [StateT.run_bind] at hrun
  cases hx : x.run s with
  | error e =>
    rw [hx] at hrun
    cases hrun
  | ok r =>
    rw [hx] at hrun
    obtain ⟨hst, hP⟩ := h r.1 r.2 hx
    obtain ⟨htu, hQ⟩ := hk r.1 r.2 hP b u hrun
    exact ⟨htrans hst htu, hQ⟩

end Moves

end Lib

end Plan9
