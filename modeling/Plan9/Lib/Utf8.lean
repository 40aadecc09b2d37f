import Mathlib.Data.List.Basic
import Mathlib.Algebra.Group.Nat.Defs
import Mathlib.Data.Nat.Init

/-!
# UTF-8

Code points as bytes. A code point has a form (`Plan9.Lib.IsForm`) with up to three continuation
bytes for each of the lengths that its bits fit in, and it is well formed
(`Plan9.Lib.WellFormed`) in the shortest of them when it is not a surrogate.

* `Plan9.Lib.wellFormed_iff` – which of the forms is the shortest;
* `Plan9.Lib.exists_wellFormed` – every code point that is not a surrogate has one.
-/

namespace Plan9

namespace Lib

/-- The high bits of the first byte, when `k` bytes follow. -/
def lead : ℕ → ℕ
  | 0 => 0
  | 1 => 0xC0
  | 2 => 0xE0
  | _ => 0xF0

/-- The code points below this one fit in a first byte and `k` bytes that follow. -/
def capacity : ℕ → ℕ
  | 0 => 0x80
  | 1 => 0x800
  | 2 => 0x10000
  | _ => 0x200000

/-- The bytes that follow: six bits each, the high ones first. -/
def tails : ℕ → ℕ → List ℕ
  | 0, _ => []
  | k + 1, r => (0x80 + r / 64 ^ k % 64) :: tails k r

/-- The form of `r` with `k` bytes behind the first one. -/
def form (k r : ℕ) : List ℕ := (lead k + r / 64 ^ k) :: tails k r

/-- The bytes are a form of the code point, be it the shortest or not. -/
def IsForm (r : ℕ) (bs : List UInt8) : Prop :=
  ∃ k ≤ 3, r < capacity k ∧ bs.map UInt8.toNat = form k r

/-- A code point that is not half of a surrogate pair. -/
def Scalar (r : ℕ) : Prop := r ≤ 0x10FFFF ∧ ¬(0xD800 ≤ r ∧ r ≤ 0xDFFF)

instance (r : ℕ) : Decidable (Scalar r) := inferInstanceAs (Decidable (_ ∧ _))

/-- **Well formed**: the shortest form of a code point that is not a surrogate. -/
def WellFormed (r : ℕ) (bs : List UInt8) : Prop :=
  Scalar r ∧ IsForm r bs ∧ ∀ bs', IsForm r bs' → bs.length ≤ bs'.length

variable {r k : ℕ} {bs : List UInt8}

theorem length_tails (k r : ℕ) : (tails k r).length = k := by
  induction k with
  | zero => rfl
  | succ k ih => rw [tails, List.length_cons, ih]

theorem length_form (k r : ℕ) : (form k r).length = k + 1 := by
  rw [form, List.length_cons, length_tails]

theorem length_of_map_eq (h : bs.map UInt8.toNat = form k r) : bs.length = k + 1 := by
  rw [← List.length_map UInt8.toNat, h, length_form]

/-- How many bytes follow in the shortest form. -/
def follow (r : ℕ) : ℕ :=
  if r < 0x80 then 0 else if r < 0x800 then 1 else if r < 0x10000 then 2 else 3

theorem follow_le (r : ℕ) : follow r ≤ 3 := by
  unfold follow
  split_ifs <;> omega

/-- The shortest form is the first that the code point fits in. -/
theorem follow_le_of_lt (hk : k ≤ 3) (h : r < capacity k) : follow r ≤ k := by
  have hcases : k = 0 ∨ k = 1 ∨ k = 2 ∨ k = 3 := by omega
  rw [follow]
  rcases hcases with rfl | rfl | rfl | rfl <;> simp only [capacity] at h <;> split_ifs <;> omega

theorem lt_capacity_follow (h : Scalar r) : r < capacity (follow r) := by
  have := h.1
  unfold follow
  split_ifs with h1 h2 h3
  · exact h1
  · exact h2
  · exact h3
  · change r < 0x200000
    omega

/-- Every byte of a form is a byte. -/
theorem form_lt (hk : k ≤ 3) (h : r < capacity k) : ∀ b ∈ form k r, b < 256 := by
  have htails (k : ℕ) : ∀ b ∈ tails k r, b < 256 := by
    induction k with
    | zero => exact nofun
    | succ k ih =>
      intro b hb
      rcases List.mem_cons.1 hb with rfl | hb
      · have := Nat.mod_lt (r / 64 ^ k) (show 64 > 0 by omega)
        omega
      · exact ih b hb
  intro b hb
  rcases List.mem_cons.1 hb with rfl | hb
  · have hcases : k = 0 ∨ k = 1 ∨ k = 2 ∨ k = 3 := by omega
    rcases hcases with rfl | rfl | rfl | rfl <;> simp only [lead, capacity] at h ⊢ <;> omega
  · exact htails k b hb

/-- Bytes with the given values. -/
theorem map_toNat_ofNat {l : List ℕ} (h : ∀ b ∈ l, b < 256) :
    (l.map UInt8.ofNat).map UInt8.toNat = l := by
  rw [List.map_map]
  refine (List.map_congr_left fun b hb => ?_).trans (List.map_id l)
  exact Nat.mod_eq_of_lt (h b hb)

/-- The shortest form as bytes. -/
def encode (r : ℕ) : List UInt8 := (form (follow r) r).map UInt8.ofNat

theorem map_encode (h : Scalar r) : (encode r).map UInt8.toNat = form (follow r) r :=
  map_toNat_ofNat (form_lt (follow_le r) (lt_capacity_follow h))

/-- **The well-formed bytes** of a code point are its shortest form. -/
theorem wellFormed_iff : WellFormed r bs ↔ Scalar r ∧ bs.map UInt8.toNat = form (follow r) r := by
  constructor
  · rintro ⟨hr, ⟨k, hk, hlt, hbs⟩, hmin⟩
    have henc := map_encode hr
    have hle := hmin (encode r) ⟨follow r, follow_le r, lt_capacity_follow hr, henc⟩
    rw [length_of_map_eq hbs, length_of_map_eq henc] at hle
    have : k = follow r := by
      have := follow_le_of_lt hk hlt
      omega
    exact ⟨hr, this ▸ hbs⟩
  · rintro ⟨hr, hbs⟩
    refine ⟨hr, ⟨follow r, follow_le r, lt_capacity_follow hr, hbs⟩, ?_⟩
    rintro bs' ⟨k, hk, hlt, hbs'⟩
    rw [length_of_map_eq hbs, length_of_map_eq hbs']
    have := follow_le_of_lt hk hlt
    omega

/-- **Every code point** that is not a surrogate is well formed as some bytes. -/
theorem exists_wellFormed (h : Scalar r) : WellFormed r (encode r) :=
  wellFormed_iff.2 ⟨h, map_encode h⟩

/-- The bytes are determined by the code point. -/
theorem WellFormed.eq_encode (h : WellFormed r bs) : bs = encode r := by
  have hinj : Function.Injective UInt8.toNat := fun _ _ => UInt8.toNat_inj.1
  have h' := wellFormed_iff.1 h
  exact List.map_injective_iff.2 hinj (h'.2.trans (map_encode h'.1).symm)

end Lib

end Plan9
