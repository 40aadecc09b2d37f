import Mathlib.Data.Set.Defs
import Plan9.Lib.Buffer

/-!
# Programs that leave a trace of what they touch

A piece of code that reads and writes memory, and may end early. Beside its result and the memory
it leaves, it has a trace: the places that it has read or written. The judgement `Plan9.Lib.Stays`
says that all of these lie in a given set, and what the result and the memory are then; with the
set of all places it says only the latter. There is one rule for each way to build a program, and
each is an equivalence, so that the rules also show where a program leaves the set.

* `Plan9.Lib.stays_bind` – the rule of sequences;
* `Plan9.Lib.stays_load` and `Plan9.Lib.stays_store` – reading and writing;
* `Plan9.Lib.Slice` – a pointer and the number of bytes behind it, for code that takes a record
  apart from its front;
* `Plan9.Lib.Careful.bind` – such code stays inside the record if its parts do;
* `Plan9.Lib.Reads.bind` – such code reads the record that its parts read one behind the other.
-/

namespace Plan9

namespace Lib

open List

variable {ε α β : Type}

/-- What a program has done. -/
structure Trace (ε α : Type) where
  result : Except ε α
  mem : Buffer
  places : List ℕ

/-- A program that touches memory. -/
def Access (ε α : Type) : Type := Buffer → Trace ε α

namespace Access

/-- Run one program behind another. -/
def andThen (x : Access ε α) (f : α → Access ε β) : Access ε β := fun d =>
  match (x d).result with
  | .ok a =>
    ⟨(f a (x d).mem).result, (f a (x d).mem).mem, (x d).places ++ (f a (x d).mem).places⟩
  | .error e => ⟨.error e, (x d).mem, (x d).places⟩

instance : Monad (Access ε) where
  pure a d := ⟨.ok a, d, []⟩
  bind := andThen

/-- End early. -/
def stop (e : ε) : Access ε α := fun d => ⟨.error e, d, []⟩

/-- End early unless a condition holds. -/
def require (e : ε) (c : Prop) [Decidable c] : Access ε Unit := if c then pure () else stop e

/-- Read `k` bytes. -/
def load (i k : ℕ) : Access ε (List UInt8) := fun d => ⟨.ok (d.load i k), d, List.range' i k⟩

/-- Write bytes. -/
def store (i : ℕ) (l : List UInt8) : Access ε Unit := fun d =>
  ⟨.ok (), d.store i l, List.range' i l.length⟩

/-- Read a number on `k` bytes. -/
def num (i k : ℕ) : Access ε ℕ := do
  let b ← load i k
  return beVal b

/-- `memmove`. -/
def move (dst src n : ℕ) : Access ε Unit := do
  let b ← load src n
  store dst b

/-- `memset` with zero. -/
def clear (p n : ℕ) : Access ε Unit := store p (List.replicate n 0)

end Access

open Access

/-! ### Staying in a set of places -/

/-- The places that the program touches lie in `S`, and it ends as promised. -/
def Stays (S : Set ℕ) (x : Access ε α) (d : Buffer) (Q : Except ε α → Buffer → Prop) : Prop :=
  (∀ i ∈ (x d).places, i ∈ S) ∧ Q (x d).result (x d).mem

variable {S T : Set ℕ} {x : Access ε α} {f : α → Access ε β} {d : Buffer}
  {Q Q' : Except ε α → Buffer → Prop} {R : Except ε β → Buffer → Prop} {e : ε} {c : Prop}

theorem Stays.mono (h : Stays S x d Q) (hS : ∀ i ∈ S, i ∈ T) (hQ : ∀ r m, Q r m → Q' r m) :
    Stays T x d Q' := ⟨fun i hi => hS i (h.1 i hi), hQ _ _ h.2⟩

theorem Stays.imp (h : Stays S x d Q) (hQ : ∀ r m, Q r m → Q' r m) : Stays S x d Q' :=
  h.mono (fun _ hi => hi) hQ

/-- Without a set this is what the program ends with. -/
theorem stays_univ : Stays Set.univ x d Q ↔ Q (x d).result (x d).mem :=
  ⟨fun h => h.2, fun h => ⟨fun i _ => Set.mem_univ i, h⟩⟩

@[simp]
theorem stays_pure {a : α} : Stays S (pure a) d Q ↔ Q (.ok a) d :=
  ⟨fun h => h.2, fun h => ⟨fun _ hi => absurd hi not_mem_nil, h⟩⟩

@[simp]
theorem stays_stop : Stays S (stop e) d Q ↔ Q (.error e) d :=
  ⟨fun h => h.2, fun h => ⟨fun _ hi => absurd hi not_mem_nil, h⟩⟩

theorem forall_mem_range' {i k : ℕ} :
    (∀ j ∈ range' i k, j ∈ S) ↔ ∀ j, i ≤ j → j < i + k → j ∈ S := by
  simp only [mem_range'_1, and_imp]

@[simp]
theorem stays_load {Q : Except ε (List UInt8) → Buffer → Prop} {i k : ℕ} :
    Stays S (load i k) d Q ↔ (∀ j, i ≤ j → j < i + k → j ∈ S) ∧ Q (.ok (d.load i k)) d :=
  and_congr_left' forall_mem_range'

@[simp]
theorem stays_store {Q : Except ε Unit → Buffer → Prop} {i : ℕ} {l : List UInt8} :
    Stays S (store i l) d Q ↔
      (∀ j, i ≤ j → j < i + l.length → j ∈ S) ∧ Q (.ok ()) (d.store i l) :=
  and_congr_left' forall_mem_range'

/-- **The rule of sequences.** -/
@[simp]
theorem stays_bind : Stays S (x >>= f) d R ↔ Stays S x d fun r m =>
    match r with
    | .ok a => Stays S (f a) m R
    | .error e => R (.error e) m := by
  have hbind : (x >>= f) d = andThen x f d := rfl
  rw [Stays, hbind, andThen]
  cases h : (x d).result with
  | error e => rw [Stays, h]
  | ok a =>
    simp only [Stays, h, mem_append]
    constructor
    · rintro ⟨hS, hR⟩
      exact ⟨fun i hi => hS i (Or.inl hi), fun i hi => hS i (Or.inr hi), hR⟩
    · rintro ⟨hx, hf, hR⟩
      exact ⟨fun i hi => hi.elim (hx i) (hf i), hR⟩

theorem stays_require_of [Decidable c] {Q : Except ε Unit → Buffer → Prop} (hc : c) :
    Stays S (require e c) d Q ↔ Q (.ok ()) d := by
  rw [require, if_pos hc]
  exact stays_pure

theorem stays_require_of_not [Decidable c] {Q : Except ε Unit → Buffer → Prop} (hc : ¬c) :
    Stays S (require e c) d Q ↔ Q (.error e) d := by
  rw [require, if_neg hc, stays_stop]

@[simp]
theorem stays_require [Decidable c] {Q : Except ε Unit → Buffer → Prop} :
    Stays S (require e c) d Q ↔ (c → Q (.ok ()) d) ∧ (¬c → Q (.error e) d) := by
  by_cases hc : c
  · rw [stays_require_of hc]
    exact ⟨fun h => ⟨fun _ => h, fun h' => absurd hc h'⟩, fun h => h.1 hc⟩
  · rw [stays_require_of_not hc]
    exact ⟨fun h => ⟨fun h' => absurd h' hc, fun _ => h⟩, fun h => h.2 hc⟩

@[simp]
theorem stays_num {Q : Except ε ℕ → Buffer → Prop} {i k : ℕ} : Stays S (num i k) d Q ↔
      (∀ j, i ≤ j → j < i + k → j ∈ S) ∧ Q (.ok (beVal (d.load i k))) d := by
  simp [num]

@[simp]
theorem stays_move {Q : Except ε Unit → Buffer → Prop} {dst src n : ℕ} :
    Stays S (move dst src n) d Q ↔ (∀ j, src ≤ j → j < src + n → j ∈ S) ∧
      (∀ j, dst ≤ j → j < dst + n → j ∈ S) ∧ Q (.ok ()) (d.move dst src n) := by
  simp [move, Buffer.move]

@[simp]
theorem stays_clear {Q : Except ε Unit → Buffer → Prop} {p n : ℕ} : Stays S (clear p n) d Q ↔
      (∀ j, p ≤ j → j < p + n → j ∈ S) ∧ Q (.ok ()) (d.clear p n) := by
  simp [clear, Buffer.clear]

/-! ### Taking a record apart -/

/-- A pointer, and how many bytes of the record are left there. -/
structure Slice where
  p : ℕ
  n : ℕ
deriving DecidableEq

namespace Slice

/-- The places of the bytes. -/
def places (s : Slice) : Set ℕ := {i | s.p ≤ i ∧ i < s.p + s.n}

/-- The record has the same end, and begins no earlier. -/
def Suffix (s t : Slice) : Prop := t.p ≤ s.p ∧ s.p + s.n = t.p + t.n

theorem Suffix.refl (s : Slice) : s.Suffix s := ⟨le_rfl, rfl⟩

theorem Suffix.trans {s t u : Slice} (h : s.Suffix t) (h' : t.Suffix u) : s.Suffix u :=
  ⟨le_trans h'.1 h.1, h.2.trans h'.2⟩

theorem Suffix.mem {s t : Slice} (h : s.Suffix t) {i : ℕ} (hi : i ∈ s.places) : i ∈ t.places :=
  ⟨le_trans h.1 hi.1, lt_of_lt_of_le hi.2 (le_of_eq h.2)⟩

/-- The slice behind the first `k` bytes. -/
def drop (s : Slice) (k : ℕ) : Slice := ⟨s.p + k, s.n - k⟩

theorem suffix_drop {s : Slice} {k : ℕ} (h : k ≤ s.n) : (s.drop k).Suffix s :=
  ⟨Nat.le_add_right _ _, by simp only [drop]; omega⟩

end Slice

/-- Code that takes a record apart: from its front, or not at all. -/
def Taker (ε α : Type) : Type := Slice → Access ε (α × Slice)

namespace Taker

/-- Take nothing. -/
def give (a : α) : Taker ε α := fun s => pure (a, s)

/-- Refuse with `e` unless a condition holds. -/
def demand (e : ε) (c : Prop) [Decidable c] : Taker ε Unit := fun s => do
  require e c
  return ((), s)

/-- The next `k` bytes. -/
def bytes (e : ε) (k : ℕ) : Taker ε (List UInt8) := fun s => do
  require e (k ≤ s.n)
  let b ← load s.p k
  return (b, s.drop k)

/-- Pass over the next `k` bytes. -/
def skip (e : ε) (k : ℕ) : Taker ε Unit := fun s => do
  require e (k ≤ s.n)
  return ((), s.drop k)

/-- A number on the next `k` bytes. -/
def number (e : ε) (k : ℕ) : Taker ε ℕ := fun s => do
  let (b, s) ← bytes e k s
  return (beVal b, s)

instance : Monad (Taker ε) where
  pure := give
  bind t f s := do
    let (a, s) ← t s
    f a s

end Taker

/-- The code touches only bytes of its record and no memory is changed; what is left then is an end
of the record. If it ends early then with `e`. -/
def Careful (e : ε) (t : Taker ε α) : Prop :=
  ∀ s d, Stays s.places (t s) d fun r m =>
    m = d ∧ match r with
      | .ok (_, s') => s'.Suffix s
      | .error e' => e' = e

namespace Careful

variable {t : Taker ε α} {k : ℕ}

theorem give (e : ε) (a : α) : Careful e (pure a) :=
  fun s _ => stays_pure.2 ⟨rfl, Slice.Suffix.refl s⟩

/-- **The rule of sequences.** -/
theorem bind {f : α → Taker ε β} (h : Careful e t) (hf : ∀ a, Careful e (f a)) :
    Careful e (t >>= f) := by
  intro s d
  refine stays_bind.2 ((h s d).imp ?_)
  rintro (e' | ⟨a, s'⟩) m ⟨rfl, hr⟩
  · exact ⟨rfl, hr⟩
  · refine (hf a s' m).mono (fun i hi => hr.mem hi) ?_
    rintro (e' | ⟨b, s''⟩) m' ⟨rfl, hr'⟩
    · exact ⟨rfl, hr'⟩
    · exact ⟨rfl, hr'.trans hr⟩

theorem demand (e : ε) (c : Prop) [Decidable c] : Careful e (Taker.demand e c) := by
  intro s d
  simp [Taker.demand, Slice.Suffix.refl]

theorem bytes (e : ε) (k : ℕ) : Careful e (Taker.bytes e k) := by
  intro s d
  simp only [Taker.bytes, stays_bind, stays_require, stays_load, stays_pure]
  refine ⟨fun hk => ⟨fun i h1 h2 => ⟨h1, ?_⟩, trivial, Slice.suffix_drop hk⟩,
    fun _ => ⟨trivial, trivial⟩⟩
  exact lt_of_lt_of_le h2 (Nat.add_le_add_left hk s.p)

theorem skip (e : ε) (k : ℕ) : Careful e (Taker.skip e k) := by
  intro s d
  simp only [Taker.skip, stays_bind, stays_require, stays_pure]
  exact ⟨fun hk => ⟨trivial, Slice.suffix_drop hk⟩, fun _ => ⟨trivial, trivial⟩⟩

theorem number (e : ε) (k : ℕ) : Careful e (Taker.number e k) :=
  bind (bytes e k) fun b => give e (beVal b)

theorem ite [Decidable c] {u : Taker ε α} (h : Careful e t) (h' : Careful e u) :
    Careful e (if c then t else u) := by
  split
  next => exact h
  next => exact h'

end Careful

/-- The code takes the bytes `l` off a record that has `k` more, and makes `a` of them. -/
def Reads (k : ℕ) (t : Taker ε α) (l : List UInt8) (a : α) : Prop :=
  ∀ p d, d.load p l.length = l → Stays Set.univ (t ⟨p, l.length + k⟩) d fun r m =>
    r = .ok (a, ⟨p + l.length, k⟩) ∧ m = d

namespace Reads

variable {t : Taker ε α} {k n : ℕ} {l l' : List UInt8} {a : α} {b : β}

theorem give (k : ℕ) (a : α) : Reads k (pure a : Taker ε α) [] a := by
  intro p d _
  show Stays Set.univ (pure (a, (⟨p, 0 + k⟩ : Slice))) d _
  rw [stays_pure, Nat.zero_add]
  exact ⟨rfl, rfl⟩

/-- **The rule of sequences.** -/
theorem bind {f : α → Taker ε β} (h : Reads (l'.length + k) t l a) (hf : Reads k (f a) l' b) :
    Reads k (t >>= f) (l ++ l') b := by
  intro p d hd
  rw [length_append, Buffer.load_add] at hd
  obtain ⟨hl, hl'⟩ := append_inj hd (Buffer.length_load d p l.length)
  rw [length_append, Nat.add_assoc]
  refine stays_bind.2 ((h p d hl).imp ?_)
  rintro r m ⟨rfl, rfl⟩
  have hrest := hf (p + l.length) m hl'
  rw [Nat.add_assoc] at hrest
  exact hrest

theorem bytes (e : ε) (hn : l.length = n) : Reads k (Taker.bytes e n) l l := by
  intro p d hl
  subst hn
  simp only [Taker.bytes, stays_bind, stays_require, stays_load, stays_pure, hl, Slice.drop,
    Nat.add_sub_cancel_left]
  exact ⟨fun _ => ⟨fun j _ _ => Set.mem_univ j, trivial, trivial⟩,
    fun hno => absurd (Nat.le_add_right _ _) hno⟩

theorem number (e : ε) (hn : l.length = n) : Reads k (Taker.number e n) l (beVal l) := by
  have h := bind (f := fun b => pure (beVal b)) (bytes e hn) (give k (beVal l))
  rw [append_nil] at h
  exact h

/-- A number is read back from its bytes. -/
theorem number_beBytes (e : ε) (k n : ℕ) {v : ℕ} (hv : v < 256 ^ n) :
    Reads k (Taker.number e n) (beBytes n v) v := by
  have h := number (k := k) e (length_beBytes n v)
  rw [beVal_beBytes hv] at h
  exact h

theorem demand (e : ε) (k : ℕ) {c : Prop} [Decidable c] (hc : c) :
    Reads k (Taker.demand e c) [] () := by
  intro p d _
  rw [Taker.demand, stays_bind, stays_require_of hc]
  exact stays_pure.2 ⟨by rw [length_nil, Nat.zero_add, Nat.add_zero], rfl⟩

end Reads

end Lib

end Plan9
