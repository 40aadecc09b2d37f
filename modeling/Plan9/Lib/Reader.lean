import Plan9.Lib.Bytes

/-!
# Readers of byte strings

A **reader** takes what it needs from the front of a byte string and returns the
rest, or stops with an error. Readers are composed with `do`; the file gives the
three rules by which a composed reader is reasoned about:

* `Plan9.Lib.run_bind_of_ok` – running the first part of a composed reader away;
* `Plan9.Lib.run_bind_eq_ok` – what a composed reader that succeeds has done;
* `Plan9.Lib.run_bind_eq_error` – where a composed reader that stops has stopped.
-/

namespace Plan9

namespace Lib

variable {ε α β : Type}

/-- A reader of byte strings with errors in `ε`. -/
abbrev Reader (ε : Type) := StateT (List UInt8) (Except ε)

variable {p q : List UInt8}

@[simp]
theorem run_pure_eq_ok {a b : α} : (pure a : Reader ε α).run p = .ok (b, q) ↔ a = b ∧ p = q := by
  have h : (pure a : Reader ε α).run p = .ok (a, p) := rfl
  rw [h, Except.ok.injEq, Prod.mk.injEq]

@[simp]
theorem run_pure_ne_error {a : α} {e : ε} : (pure a : Reader ε α).run p ≠ .error e := nofun

@[simp]
theorem run_throw_ne_ok {e : ε} {b : α} : (throw e : Reader ε α).run p ≠ .ok (b, q) := nofun

@[simp]
theorem run_throw_eq_error {e e' : ε} : (throw e : Reader ε α).run p = .error e' ↔ e = e' := by
  have h : (throw e : Reader ε α).run p = .error e := rfl
  rw [h, Except.error.injEq]

/-- A composed reader succeeds exactly if both parts do. -/
theorem run_bind_eq_ok {r : Reader ε α} {k : α → Reader ε β} {y : β} :
    (r >>= k).run p = .ok (y, q) ↔ ∃ x p', r.run p = .ok (x, p') ∧ (k x).run p' = .ok (y, q) := by
  rw [StateT.run_bind]
  cases h : r.run p with
  | error e => simp [bind, Except.bind]
  | ok s =>
    obtain ⟨x, p'⟩ := s
    simp [bind, Except.bind]

/-- The first part of a composed reader may be run away. -/
theorem run_bind_of_ok {r : Reader ε α} {k : α → Reader ε β} {p' : List UInt8} {x : α}
    (h : r.run p = .ok (x, p')) : (r >>= k).run p = (k x).run p' := by
  rw [StateT.run_bind, h]
  rfl

/-- A composed reader stops in its first part, or in its second part on what the
first one leaves. -/
theorem run_bind_eq_error {r : Reader ε α} {k : α → Reader ε β} {e : ε} :
    (r >>= k).run p = .error e ↔
      r.run p = .error e ∨ ∃ x p', r.run p = .ok (x, p') ∧ (k x).run p' = .error e := by
  rw [StateT.run_bind]
  cases h : r.run p with
  | error e => simp [bind, Except.bind]
  | ok s =>
    obtain ⟨x, p'⟩ := s
    simp [bind, Except.bind]

end Lib

end Plan9
