import Mathlib.Data.List.Basic
import Mathlib.Order.Compare
import Mathlib.Tactic.Ring
import Mathlib.Tactic.NormNum
import Mathlib.Tactic.IntervalCases

/-!
# Bytes, big-endian numbers and little-endian words

Disk and wire formats are byte lists. Two encodings of numbers are used on them:

* `Plan9.Lib.beBytes` and `Plan9.Lib.beVal`, the big-endian encoding on `n`
  bytes that the formats themselves use; they are inverse below `256 ^ n`
  (`Plan9.Lib.beVal_beBytes`) and on the nose in the other direction
  (`Plan9.Lib.beBytes_beVal`); `memcmp` compares these numbers (`Plan9.Lib.memCmp_eq`);
* `Plan9.Lib.ldWord` and `Plan9.Lib.stWord`, the little-endian 32-bit load and
  store of a machine that aliases a byte buffer as an array of words.

The second pair is described bit by bit: `Plan9.Lib.bitAt` is the bit of a
buffer at a bit address, and a word store is the update of thirty-two of them
(`Plan9.Lib.bitAt_stWord`).
-/

namespace Plan9

namespace Lib

/-! ### Big-endian numbers -/

/-- The `n` low bytes of `v`, the most significant first. -/
def beBytes : ℕ → ℕ → List UInt8
  | 0, _ => []
  | n + 1, v => UInt8.ofNat (v / 256 ^ n) :: beBytes n v

/-- The number a byte string spells, its first byte the most significant. -/
def beVal : List UInt8 → ℕ
  | [] => 0
  | b :: bs => b.toNat * 256 ^ bs.length + beVal bs

@[simp] theorem beBytes_zero (v : ℕ) : beBytes 0 v = [] := rfl

@[simp] theorem beVal_nil : beVal [] = 0 := rfl

@[simp] theorem length_beBytes (n v : ℕ) : (beBytes n v).length = n := by
  induction n with
  | zero => rfl
  | succ n ih => simp [beBytes, ih]

theorem beVal_lt (bs : List UInt8) : beVal bs < 256 ^ bs.length := by
  induction bs with
  | nil => simp
  | cons b bs ih =>
    have hb : b.toNat < 256 := b.toNat_lt
    calc b.toNat * 256 ^ bs.length + beVal bs
        < b.toNat * 256 ^ bs.length + 256 ^ bs.length := by omega
      _ = (b.toNat + 1) * 256 ^ bs.length := by ring
      _ ≤ 256 * 256 ^ bs.length := Nat.mul_le_mul_right _ (by omega)
      _ = 256 ^ (b :: bs).length := by rw [List.length_cons, pow_succ]; ring

/-- Reading back `n` big-endian bytes gives the number modulo `256 ^ n`. -/
theorem beVal_beBytes_mod (n v : ℕ) : beVal (beBytes n v) = v % 256 ^ n := by
  induction n with
  | zero => simp [Nat.mod_one]
  | succ n ih =>
    have h : (UInt8.ofNat (v / 256 ^ n)).toNat = v / 256 ^ n % 256 := by simp
    rw [beBytes, beVal, length_beBytes, ih, h, pow_succ, Nat.mod_mul]
    ring

/-- **Round trip of a number** that fits in its field. -/
theorem beVal_beBytes {n v : ℕ} (h : v < 256 ^ n) : beVal (beBytes n v) = v := by
  rw [beVal_beBytes_mod, Nat.mod_eq_of_lt h]

theorem beBytes_mod (n v : ℕ) : ∀ m, n ≤ m → beBytes n (v % 256 ^ m) = beBytes n v := by
  induction n with
  | zero => intros; rfl
  | succ n ih =>
    intro m hm
    have hdiv : v % 256 ^ m / 256 ^ n % 256 = v / 256 ^ n % 256 := by
      obtain ⟨k, rfl⟩ : ∃ k, m = n + (1 + k) := ⟨m - n - 1, by omega⟩
      rw [pow_add, Nat.mod_mul_right_div_self, pow_add, pow_one, Nat.mod_mul_right_mod]
    have hhead : UInt8.ofNat (v % 256 ^ m / 256 ^ n) = UInt8.ofNat (v / 256 ^ n) := by
      rw [← UInt8.toNat_inj]
      simpa using hdiv
    rw [beBytes, beBytes, hhead, ih m (by omega)]

/-- **Round trip of a field**: its bytes are those of the number it spells. -/
theorem beBytes_beVal (bs : List UInt8) : beBytes bs.length (beVal bs) = bs := by
  induction bs with
  | nil => rfl
  | cons b bs ih =>
    have hlt := beVal_lt bs
    have hhead : (b.toNat * 256 ^ bs.length + beVal bs) / 256 ^ bs.length = b.toNat := by
      rw [Nat.add_comm, Nat.add_mul_div_right _ _ (by positivity), Nat.div_eq_of_lt hlt,
        Nat.zero_add]
    have htail : beBytes bs.length (b.toNat * 256 ^ bs.length + beVal bs) = bs := by
      rw [← beBytes_mod bs.length _ bs.length le_rfl, Nat.add_comm, Nat.add_mul_mod_self_right,
        Nat.mod_eq_of_lt hlt, ih]
    rw [List.length_cons, beBytes, beVal, hhead, htail, UInt8.ofNat_toNat]

theorem beVal_append (as bs : List UInt8) :
    beVal (as ++ bs) = beVal as * 256 ^ bs.length + beVal bs := by
  induction as with
  | nil => simp
  | cons a as ih =>
    rw [List.cons_append, beVal, beVal, ih, List.length_append, pow_add]
    ring

/-- `memcmp`: byte strings are compared by the first byte in which they differ. -/
def memCmp : List UInt8 → List UInt8 → Ordering
  | a :: as, b :: bs =>
    if a.toNat < b.toNat then .lt else if b.toNat < a.toNat then .gt else memCmp as bs
  | _, _ => .eq

/-- **`memcmp` compares the numbers that the strings spell.** -/
theorem memCmp_eq : ∀ {as bs : List UInt8}, as.length = bs.length →
    memCmp as bs = compare (beVal as) (beVal bs)
  | [], [], _ => by simp [memCmp]
  | a :: as, b :: bs, h => by
    have hlen : as.length = bs.length := Nat.succ.inj h
    have ha := beVal_lt as
    have hb := beVal_lt bs
    rw [memCmp, beVal, beVal, memCmp_eq hlen, hlen]
    rw [hlen] at ha
    rcases lt_trichotomy a.toNat b.toNat with hab | hab | hab
    · have hmul : (a.toNat + 1) * 256 ^ bs.length ≤ b.toNat * 256 ^ bs.length :=
        Nat.mul_le_mul_right _ hab
      rw [Nat.succ_mul] at hmul
      rw [if_pos hab, eq_comm, compare_lt_iff_lt]
      omega
    · rw [if_neg (by omega), if_neg (by omega), hab]
      rcases lt_trichotomy (beVal as) (beVal bs) with h' | h' | h'
      · rw [compare_lt_iff_lt.2 h', eq_comm, compare_lt_iff_lt]
        omega
      · rw [h', compare_eq_iff_eq.2 rfl, compare_eq_iff_eq.2 rfl]
      · rw [compare_gt_iff_gt.2 h', eq_comm, compare_gt_iff_gt]
        omega
    · have hmul : (b.toNat + 1) * 256 ^ bs.length ≤ a.toNat * 256 ^ bs.length :=
        Nat.mul_le_mul_right _ hab
      rw [Nat.succ_mul] at hmul
      rw [if_neg (by omega), if_pos hab, eq_comm, compare_gt_iff_gt]
      omega

theorem beVal_inj {as bs : List UInt8} (hlen : as.length = bs.length) (h : beVal as = beVal bs) :
    as = bs := by
  rw [← beBytes_beVal as, ← beBytes_beVal bs, hlen, h]

/-- The signed reading of a 32-bit number, as an assignment to an `int` gives it. -/
def int32 (n : ℕ) : ℤ := if n < 2 ^ 31 then n else n - 2 ^ 32

/-! ### Little-endian words over a byte buffer -/

/-- The byte of a buffer at an address, zero past its end. -/
def byteAt (d : List UInt8) (i : ℕ) : UInt8 := d.getD i 0

/-- The 32-bit load of word `w`, on a little-endian machine. -/
def ldWord (d : List UInt8) (w : ℕ) : UInt32 :=
  (byteAt d (4 * w)).toUInt32 ||| (byteAt d (4 * w + 1)).toUInt32 <<< 8 |||
    (byteAt d (4 * w + 2)).toUInt32 <<< 16 ||| (byteAt d (4 * w + 3)).toUInt32 <<< 24

/-- The 32-bit store of word `w`, on a little-endian machine. -/
def stWord (d : List UInt8) (w : ℕ) (v : UInt32) : List UInt8 :=
  (((d.set (4 * w) v.toUInt8).set (4 * w + 1) (v >>> 8).toUInt8).set (4 * w + 2)
    (v >>> 16).toUInt8).set (4 * w + 3) (v >>> 24).toUInt8

/-- The bit of a buffer at a bit address, counted from the low bit of byte `0`. -/
def bitAt (d : List UInt8) (j : ℕ) : Bool := (byteAt d (j / 8)).toBitVec.getLsbD (j % 8)

@[simp] theorem length_stWord (d : List UInt8) (w : ℕ) (v : UInt32) :
    (stWord d w v).length = d.length := by
  simp [stWord]

theorem byteAt_set (d : List UInt8) (i j : ℕ) (b : UInt8) (hi : i < d.length) :
    byteAt (d.set i b) j = if i = j then b else byteAt d j := by
  by_cases h : i = j
  · subst h
    simp [byteAt, hi]
  · simp [byteAt, List.getD_eq_getElem?_getD, h]

theorem bitAt_eq (d : List UInt8) {i r : ℕ} (hr : r < 8) :
    bitAt d (8 * i + r) = (byteAt d i).toBitVec.getLsbD r := by
  rw [bitAt, show (8 * i + r) / 8 = i by omega, show (8 * i + r) % 8 = r by omega]

/-- A loaded word holds the thirty-two bits of the buffer from its bit address on. -/
theorem getLsbD_ldWord (d : List UInt8) (w b : ℕ) (hb : b < 32) :
    (ldWord d w).toBitVec.getLsbD b = bitAt d (32 * w + b) := by
  have h8 : ∀ (x : UInt8) (i : ℕ), 8 ≤ i → x.toBitVec.getLsbD i = false :=
    fun x i hi => BitVec.getLsbD_of_ge _ _ hi
  obtain ⟨q, r, hr, rfl⟩ : ∃ q r, r < 8 ∧ b = 8 * q + r := ⟨b / 8, b % 8, by omega, by omega⟩
  have hq : q < 4 := by omega
  rw [show 32 * w + (8 * q + r) = 8 * (4 * w + q) + r by ring, bitAt_eq d hr]
  simp only [ldWord]
  interval_cases q <;> simp [hb, hr] <;> grind

/-- **A word store updates the thirty-two bits of its word** and no others. -/
theorem bitAt_stWord (d : List UInt8) (w : ℕ) (v : UInt32) (j : ℕ) (hw : 4 * w + 3 < d.length) :
    bitAt (stWord d w v) j = if j / 32 = w then v.toBitVec.getLsbD (j % 32) else bitAt d j := by
  obtain ⟨i, r, hr, rfl⟩ : ∃ i r, r < 8 ∧ j = 8 * i + r := ⟨j / 8, j % 8, by omega, by omega⟩
  have hbyte : byteAt (stWord d w v) i =
      if 4 * w + 3 = i then (v >>> 24).toUInt8 else if 4 * w + 2 = i then (v >>> 16).toUInt8
      else if 4 * w + 1 = i then (v >>> 8).toUInt8 else if 4 * w = i then v.toUInt8
      else byteAt d i := by
    simp only [stWord]
    rw [byteAt_set _ _ _ _ (by simp; omega), byteAt_set _ _ _ _ (by simp; omega),
      byteAt_set _ _ _ _ (by simp; omega), byteAt_set _ _ _ _ (by omega)]
  rw [bitAt_eq _ hr, bitAt_eq _ hr, hbyte]
  have hdiv : (8 * i + r) / 32 = i / 4 := by omega
  rw [hdiv]
  by_cases hiw : i / 4 = w
  · obtain ⟨q, hq, rfl⟩ : ∃ q, q < 4 ∧ i = 4 * w + q := ⟨i % 4, by omega, by omega⟩
    have hmod : (8 * (4 * w + q) + r) % 32 = 8 * q + r := by omega
    rw [if_pos hiw, hmod]
    interval_cases q <;> simp [hr]
  · rw [if_neg hiw, if_neg (by omega), if_neg (by omega), if_neg (by omega), if_neg (by omega)]

/-- The mask of bit `k` of a word. -/
theorem getLsbD_one_shiftLeft (k : UInt32) (hk : k.toNat < 32) (i : ℕ) :
    ((1 : UInt32) <<< k).toBitVec.getLsbD i = decide (i = k.toNat) := by
  have h : (k.toBitVec % 32).toNat = k.toNat := by
    rw [BitVec.toNat_umod]
    exact Nat.mod_eq_of_lt hk
  rw [UInt32.toBitVec_shiftLeft, BitVec.shiftLeft_eq', h, BitVec.getLsbD_shiftLeft]
  by_cases hik : i = k.toNat
  · subst hik
    simp [hk]
  · have h1 : ¬(i < 32 ∧ k.toNat ≤ i ∧ i - k.toNat = 0) := by omega
    simp [hik]
    omega

/-- Testing a word against the mask of bit `k` reads that bit. -/
theorem and_one_shiftLeft_eq_zero (y k : UInt32) (hk : k.toNat < 32) :
    y &&& 1 <<< k = 0 ↔ y.toBitVec.getLsbD k.toNat = false := by
  rw [← UInt32.toBitVec_inj, UInt32.toBitVec_and]
  constructor
  · intro h
    have hbit := congrArg (fun v => v.getLsbD k.toNat) h
    simp only [BitVec.getLsbD_and, getLsbD_one_shiftLeft k hk] at hbit
    simpa using hbit
  · intro h
    apply BitVec.eq_of_getLsbD_eq
    intro i hi
    rw [BitVec.getLsbD_and, getLsbD_one_shiftLeft k hk]
    by_cases hik : i = k.toNat
    · subst hik
      simp [h]
    · simp [hik]

/-- Storing a word with bit `k` added sets one bit of the buffer. -/
theorem bitAt_stWord_or (d : List UInt8) (w : ℕ) (k : UInt32) (hk : k.toNat < 32) (j : ℕ)
    (hw : 4 * w + 3 < d.length) :
    bitAt (stWord d w (ldWord d w ||| 1 <<< k)) j =
      (bitAt d j || decide (j = 32 * w + k.toNat)) := by
  rw [bitAt_stWord d w _ j hw]
  by_cases hjw : j / 32 = w
  · have hlt : j % 32 < 32 := Nat.mod_lt _ (by norm_num)
    have hj : 32 * w + j % 32 = j := by omega
    have hiff : j % 32 = k.toNat ↔ j = 32 * w + k.toNat := by omega
    rw [if_pos hjw, UInt32.toBitVec_or, BitVec.getLsbD_or, getLsbD_ldWord d w _ hlt, hj,
      getLsbD_one_shiftLeft k hk]
    simp only [hiff]
  · have hne : j ≠ 32 * w + k.toNat := by omega
    simp [hjw, hne]

end Lib

end Plan9
