import Mathlib.Data.List.GetD
import Plan9.Lib.Bytes

/-!
# Buffers

The memory behind a pointer, as a function from offsets to bytes. A number of bytes is
loaded from an offset, or stored at one; what was stored is loaded again, and what lies
beside it is not changed.

* `Plan9.Lib.Buffer.load_store` and `Plan9.Lib.Buffer.load_store_of_disjoint` – a load
  behind a store;
* `Plan9.Lib.Buffer.store_load` – storing what is there;
* `Plan9.Lib.Buffer.get16`, `put16`, `move` and `clear` – two-byte numbers, and the moves and
  fills of the C library.
-/

namespace Plan9

namespace Lib

open List

/-- A buffer. -/
abbrev Buffer := ℕ → UInt8

namespace Buffer

variable {d : Buffer} {i j n : ℕ} {l : List UInt8}

/-- The `n` bytes from offset `i` on. -/
def load (d : Buffer) (i n : ℕ) : List UInt8 := (List.range n).map fun k => d (i + k)

/-- Store bytes from offset `i` on. -/
def store (d : Buffer) (i : ℕ) (l : List UInt8) : Buffer := fun j =>
  if i ≤ j ∧ j < i + l.length then l.getD (j - i) 0 else d j

@[simp]
theorem length_load (d : Buffer) (i n : ℕ) : (load d i n).length = n := by
  simp [load]

variable {k : ℕ}

theorem getElem_load (hk : k < (load d i n).length) : (load d i n)[k] = d (i + k) := by
  simp [load]

variable {d' : Buffer}

theorem load_congr (h : ∀ k < n, d' (i + k) = d (i + k)) :
    load d' i n = load d i n := by
  refine ext_getElem (by simp) fun k hk _ => ?_
  rw [length_load] at hk
  rw [getElem_load, getElem_load, h k hk]

theorem store_of_lt (h : j < i) : store d i l j = d j :=
  if_neg fun hj => absurd h (Nat.not_lt.2 hj.1)

theorem store_of_ge (h : i + l.length ≤ j) : store d i l j = d j :=
  if_neg fun hj => absurd hj.2 (Nat.not_lt.2 h)

theorem store_add (hk : k < l.length) : store d i l (i + k) = l[k] := by
  rw [store, if_pos ⟨Nat.le_add_right i k, Nat.add_lt_add_left hk i⟩, Nat.add_sub_cancel_left,
    getD_eq_getElem _ _ hk]

/-- **What was stored** is loaded again. -/
theorem load_store (d : Buffer) (i : ℕ) (l : List UInt8) : load (store d i l) i l.length = l := by
  refine ext_getElem (by simp) fun k hk hk' => ?_
  rw [getElem_load, store_add hk']

/-- **What lies beside it** is not changed. -/
theorem load_store_of_disjoint (h : j + n ≤ i ∨ i + l.length ≤ j) :
    load (store d i l) j n = load d j n := by
  refine load_congr fun k hk => ?_
  rcases h with h | h
  · exact store_of_lt (Nat.lt_of_lt_of_le (Nat.add_lt_add_left hk j) h)
  · exact store_of_ge (Nat.le_trans h (Nat.le_add_right j k))

/-- **Storing what is there** changes nothing. -/
theorem store_load (d : Buffer) (i n : ℕ) : store d i (load d i n) = d := by
  funext j
  by_cases hj : i ≤ j ∧ j < i + n
  · obtain ⟨k, rfl⟩ := Nat.exists_eq_add_of_le hj.1
    have hk : k < (load d i n).length := by
      rw [length_load]
      exact Nat.lt_of_add_lt_add_left hj.2
    rw [store_add hk, getElem_load]
  · rw [store, length_load, if_neg hj]

/-! ### Numbers, moves and fills -/

/-- The two-byte number at an offset. -/
def get16 (d : Buffer) (p : ℕ) : ℕ := beVal (d.load p 2)

/-- Write a two-byte number; what does not fit is cut off. -/
def put16 (d : Buffer) (p v : ℕ) : Buffer := d.store p (beBytes 2 v)

/-- `memmove`: the source is read as it was before the move. -/
def move (d : Buffer) (dst src n : ℕ) : Buffer := d.store dst (d.load src n)

/-- `memset` with zero. -/
def clear (d : Buffer) (p n : ℕ) : Buffer := d.store p (List.replicate n 0)

theorem load_add (d : Buffer) (i m n : ℕ) : d.load i (m + n) = d.load i m ++ d.load (i + m) n := by
  refine ext_getElem (by simp) fun k hk hk' => ?_
  rw [getElem_load]
  rcases Nat.lt_or_ge k m with h | h
  · rw [getElem_append_left (by simpa using h), getElem_load]
  · rw [getElem_append_right (by simpa using h), getElem_load, length_load]
    congr 1
    omega

variable {m n : ℕ}

theorem take_load (d : Buffer) (i : ℕ) (h : m ≤ n) : (d.load i n).take m = d.load i m := by
  obtain ⟨k, rfl⟩ := Nat.exists_eq_add_of_le h
  rw [load_add, take_left' (length_load d i m)]

theorem drop_load (d : Buffer) (i : ℕ) (h : m ≤ n) :
    (d.load i n).drop m = d.load (i + m) (n - m) := by
  obtain ⟨k, rfl⟩ := Nat.exists_eq_add_of_le h
  rw [load_add, drop_left' (length_load d i m), Nat.add_sub_cancel_left]

variable {p : ℕ}

theorem get16_congr {q : ℕ} (h : ∀ k < 2, d' (q + k) = d (p + k)) :
    get16 d' q = get16 d p := by
  refine congrArg beVal (ext_getElem (by simp) fun k hk _ => ?_)
  rw [length_load] at hk
  rw [getElem_load, getElem_load, h k hk]

variable {v : ℕ}

theorem get16_put16 (d : Buffer) (p : ℕ) (hv : v < 65536) : get16 (put16 d p v) p = v := by
  have h := load_store d p (beBytes 2 v)
  rw [length_beBytes] at h
  rw [get16, put16, h, beVal_beBytes hv]

theorem get16_store_of_disjoint (h : p + 2 ≤ i ∨ i + l.length ≤ p) :
    get16 (d.store i l) p = get16 d p := by
  rw [get16, load_store_of_disjoint h, get16]

theorem put16_apply_of_ne (d : Buffer) (h : j < p ∨ p + 2 ≤ j) : put16 d p v j = d j := by
  rcases h with h | h
  · exact store_of_lt h
  · exact store_of_ge (by rwa [length_beBytes])

theorem move_add (d : Buffer) (dst src : ℕ) (hk : k < n) :
    d.move dst src n (dst + k) = d (src + k) := by
  rw [move, store_add (by rwa [length_load]), getElem_load]

theorem move_apply_of_ne (d : Buffer) {dst src : ℕ} (h : j < dst ∨ dst + n ≤ j) :
    d.move dst src n j = d j := by
  rcases h with h | h
  · exact store_of_lt h
  · exact store_of_ge (by rwa [length_load])

theorem clear_apply_of_ne (d : Buffer) (h : j < p ∨ p + n ≤ j) : d.clear p n j = d j := by
  rcases h with h | h
  · exact store_of_lt h
  · exact store_of_ge (by rwa [length_replicate])

/-- A part of what was stored. -/
theorem load_store_mid {a b c : List UInt8} (hi : a.length = i) (hn : b.length = n) :
    (d.store p (a ++ (b ++ c))).load (p + i) n = b := by
  subst hi hn
  have h := load_store d p (a ++ (b ++ c))
  rw [length_append, length_append, load_add, load_add] at h
  exact (append_inj (append_inj h (by simp)).2 (by simp)).1

end Buffer

end Lib

end Plan9
