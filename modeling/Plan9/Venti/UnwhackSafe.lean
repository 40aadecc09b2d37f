import Plan9.Venti.Unwhack

/-!
# Decompression of anything

`unwhack` reads data from a disk that may hold anything. Here its variables are where
the source has them – a position in the source and one in the destination, counts of
bits that are C's `int` – and every access is checked: the table entries, the widths of
the shifts, the bytes read and written, the range of an `int`, and the rounds of every
loop (`Plan9.Venti.Fault`).

* `Plan9.Venti.Unwhack.step_inMemory` – a round of the loop does, without a fault, what
  `Plan9.Venti.Unwhack.step` says;
* `Plan9.Venti.unwhackMem_eq` – so does `unwhack`, for every source and every
  destination.
-/

namespace Plan9

namespace Venti

open Lib List

/-! ### The machine -/

/-- What must not happen. -/
inductive Fault
  /-- A shift by less than 0 or more than 31. -/
  | shift
  /-- A table has no such entry. -/
  | index
  /-- A byte is written outside the destination. -/
  | write
  /-- A byte is copied that has not been written. -/
  | history
  /-- A byte is read outside the source. -/
  | source
  /-- An `int` overflows. -/
  | overflow
  /-- A loop goes on for too long. -/
  | rounds

/-- How `unwhack` stops before its end. -/
inductive Stop
  /-- It returns -1. -/
  | minusOne
  | fault (f : Fault)

/-- The variables of `unwhack`; `src` and `d` are positions. -/
structure Mem where
  src : ℤ
  uwbits : UInt32
  uwnbits : ℤ
  overbits : ℤ
  d : ℤ
  dst : List UInt8
  lithist : UInt32

/-- `(x >> n) & mask`. -/
def shiftField (x : UInt32) (n : ℤ) (mask : ℕ) : Except Stop ℕ :=
  if 0 ≤ n ∧ n < 32 then .ok (field x n.toNat mask) else .error (.fault .shift)

/-- `t[i]`. -/
def look (t : List ℕ) (i : ℕ) : Except Stop ℕ :=
  if i < t.length then .ok (t.getD i 0) else .error (.fault .index)

/-- A result that has to be an `int`. -/
def int (z : ℤ) : Except Stop ℤ :=
  if -2 ^ 31 ≤ z ∧ z < 2 ^ 31 then .ok z else .error (.fault .overflow)

namespace Mem

variable (s : List UInt8) (m : Mem)

/-- `*src`. -/
def fetch : Except Stop UInt8 :=
  if 0 ≤ m.src ∧ m.src < s.length then .ok (s.getD m.src.toNat 0) else .error (.fault .source)

/-- `*d++ = c`. -/
def store (c : UInt8) : Except Stop Mem :=
  if 0 ≤ m.d ∧ m.d < m.dst.length then
    .ok { m with dst := m.dst.set m.d.toNat c, d := m.d + 1 }
  else .error (.fault .write)

/-- `d[-off]`. -/
def history (off : ℤ) : Except Stop UInt8 :=
  if 0 ≤ m.d - off ∧ m.d - off < m.d then .ok (m.dst.getD (m.d - off).toNat 0)
  else .error (.fault .history)

def refillByte : Except Stop Mem := do
  if m.src < s.length then
    let b ← m.fetch s
    .ok { m with
      uwbits := (m.uwbits <<< 8) ||| b.toUInt32
      src := m.src + 1
      uwnbits := m.uwnbits + 8 }
  else .ok { m with uwbits := m.uwbits <<< 8, overbits := m.overbits + 8, uwnbits := m.uwnbits + 8 }

def refillLoop : ℕ → Mem → Except Stop Mem
  | 0, m => if m.uwnbits ≤ 24 then .error (.fault .rounds) else .ok m
  | k + 1, m => if m.uwnbits ≤ 24 then m.refillByte s >>= refillLoop k else .ok m

/-- `while(uwnbits <= 24)`: four rounds. -/
def refill : Except Stop Mem := refillLoop s 4 m

/-- A literal, and the bits left behind it. -/
def literal : Except Stop (ℤ × UInt8) := do
  if m.lithist &&& 0xf ≠ 0 then
    let lit ← shiftField m.uwbits (m.uwnbits - 9) 0xff
    .ok (m.uwnbits - 9, UInt8.ofNat lit)
  else
    let lit ← shiftField m.uwbits (m.uwnbits - 8) 0x7f
    if lit < 32 then
      if lit < 24 then
        let low ← shiftField m.uwbits (m.uwnbits - 8 - 2) 3
        .ok (m.uwnbits - 8 - 2, UInt8.ofNat ((lit <<< 2) ||| low) - 64)
      else
        let low ← shiftField m.uwbits (m.uwnbits - 8 - 3) 7
        .ok (m.uwnbits - 8 - 3, UInt8.ofNat ((lit <<< 3) ||| low) - 64)
    else .ok (m.uwnbits - 8, UInt8.ofNat lit)

/-- `while(code >= use)`, with at most `k` rounds. The low bit of `code` is clear when the next bit
goes there. -/
def lenLoop (w : UInt32) : ℕ → ℤ → ℤ → ℕ → ℕ → ℤ → Except Stop (ℤ × ℤ)
  | 0, n, code, use, _, len =>
    if (use : ℤ) ≤ code then .error (.fault .rounds) else do
      let len ← int (len + code)
      .ok (len, n)
  | k + 1, n, code, use, bits, len =>
    if (use : ℤ) ≤ code then do
      let len ← int (len + use)
      let code ← int ((code - use) * 2)
      if n - 1 < 0 then .error .minusOne
      else
        let bit ← shiftField w (n - 1) 1
        lenLoop w k (n - 1) (code + bit) (use <<< bits) (bits ^^^ 1) len
    else do
      let len ← int (len + code)
      .ok (len, n)

/-- The length of a match, given its entry of `lenVal`. -/
def getLen (len : ℕ) : Except Stop (ℤ × Mem) := do
  if len < 255 then
    let bits ← look lenBits len
    .ok (len, { m with uwnbits := m.uwnbits - bits })
  else
    let n := m.uwnbits - dBigLenBits
    let code ← shiftField m.uwbits n (1 <<< dBigLenBits - 1)
    let (len, n) ← lenLoop m.uwbits 32 n ((code : ℤ) - dBigLenCode) dBigLenBase
      ((dBigLenBits &&& 1) ^^^ 1) dMaxFastLen
    let m ← refill s { m with uwnbits := n }
    .ok (len, m)

/-- The offset of a match. -/
def getOff : Except Stop (ℤ × Mem) := do
  let n := m.uwnbits - 4
  let i ← shiftField m.uwbits n 0xf
  let off ← look offBase i
  let bits ← look offBits i
  let low ← shiftField m.uwbits (n - bits) (1 <<< bits - 1)
  .ok (((off ||| low) + 1 : ℕ), { m with uwnbits := n - bits })

/-- `for(i = 0; i < len; i++) d[i] = s[i]`, and `d += len`. -/
def copy (off : ℤ) : ℕ → Mem → Except Stop Mem
  | 0, m => .ok m
  | len + 1, m => do
    let c ← m.history off
    let m ← m.store c
    copy off len m

/-- The body of the loop of `unwhack`. -/
def step : Except Stop Mem := do
  let m ← m.refill s
  let i ← shiftField m.uwbits (m.uwnbits - 5) 0x1f
  let len ← look lenVal i
  if len = 0 then
    let (n, lit) ← m.literal
    if (m.dst.length : ℤ) ≤ m.d then .error .minusOne
    else
      let m ← m.store lit
      .ok { m with uwnbits := n, lithist := nextHist m.lithist lit }
  else
    let (len, m) ← m.getLen s len
    let (off, m) ← m.getOff
    if m.d < off then .error .minusOne
    else if (m.dst.length : ℤ) < m.d + len then .error .minusOne
    else copy off len.toNat m

/-- The loop of `unwhack`, with at most `k` rounds. -/
def loop : ℕ → Mem → Except Stop Mem
  | 0, m =>
    if m.src < s.length ∨ m.overbits + minDecode ≤ m.uwnbits then .error (.fault .rounds) else .ok m
  | k + 1, m =>
    if m.src < s.length ∨ m.overbits + minDecode ≤ m.uwnbits then m.step s >>= loop k else .ok m

end Mem

/-- `unwhack`: what it returns, unless there is a fault. -/
def unwhackMem (k : ℕ) (s dst : List UInt8) : Except Fault ℤ :=
  match Mem.loop s k ⟨0, 0, 0, 0, 0, dst, ~~~0⟩ with
  | .error .minusOne => .ok (-1)
  | .error (.fault f) => .error f
  | .ok m => if m.uwnbits < m.overbits then .ok (-1) else .ok m.d

/-! ### Checks that succeed -/

variable {n : ℕ}

theorem shiftField_eq (x : UInt32) (hn : n < 32) (mask : ℕ) :
    shiftField x n mask = .ok (field x n mask) := by
  rw [shiftField, if_pos (by omega), Int.toNat_natCast]

variable {i : ℕ}

theorem look_eq {t : List ℕ} (hi : i < t.length) : look t i = .ok (t.getD i 0) := if_pos hi

theorem int_eq {z : ℤ} (hz : -2 ^ 31 ≤ z ∧ z < 2 ^ 31) : int z = .ok z := if_pos hz

namespace Unwhack

/-- Where the variables of a state are, for the source `s` and the destination `dst`. -/
def inMemory (s dst : List UInt8) (u : Unwhack) : Mem where
  src := s.length - u.src.length
  uwbits := u.uwbits
  uwnbits := u.uwnbits
  overbits := u.overbits
  d := u.out.length
  dst := u.out ++ dst.drop u.out.length
  lithist := u.lithist

/-- A state fits its source and its destination. -/
structure Lies (s dst : List UInt8) (u : Unwhack) : Prop where
  src : u.src <:+ s
  out : u.out.length ≤ dst.length
  bits : u.uwnbits ≤ 32

variable {s dst : List UInt8} {u : Unwhack}

theorem Lies.length_dst (h : Lies s dst u) : (u.inMemory s dst).dst.length = dst.length := by
  rw [inMemory, length_append, length_drop]
  exact Nat.add_sub_cancel' h.out

/-- There is another byte exactly when the position is in the source. -/
theorem Lies.src_lt (h : Lies s dst u) : (u.inMemory s dst).src < s.length ↔ u.src ≠ [] := by
  have hle := h.src.length_le
  rw [← length_pos_iff]
  simp only [inMemory]
  omega

/-! ### The accumulator -/

theorem refillByte_inMemory (h : Lies s dst u) (hn : u.uwnbits ≤ 24) :
    (u.inMemory s dst).refillByte s = .ok (u.refillByte.inMemory s dst) ∧
      Lies s dst u.refillByte := by
  have hlt := h.src_lt
  obtain ⟨pre, hpre⟩ := h.src
  rw [Mem.refillByte, Unwhack.refillByte]
  cases hsrc : u.src with
  | nil =>
    rw [if_neg fun hc => hlt.1 hc hsrc]
    refine ⟨?_, nil_suffix, h.out, Nat.add_le_add_right hn 8⟩
    simp only [inMemory, hsrc, length_nil, Nat.cast_add, Nat.cast_ofNat]
  | cons b src =>
    have hlen : s.length = pre.length + (src.length + 1) := by
      rw [← hpre, hsrc, length_append, length_cons]
    have hpos : (u.inMemory s dst).src = pre.length := by
      simp only [inMemory, hsrc, length_cons, hlen]
      omega
    have hget : s.getD pre.length 0 = b := by
      rw [← hpre, hsrc, List.getD_eq_getElem?_getD, List.getElem?_append_right le_rfl, Nat.sub_self]
      rfl
    have hfetch : (u.inMemory s dst).fetch s = .ok b := by
      rw [Mem.fetch, hpos, if_pos (by omega), Int.toNat_natCast, hget]
    rw [if_pos (hlt.2 (by rw [hsrc]; exact cons_ne_nil b src)), hfetch]
    refine ⟨?_, ⟨pre ++ [b], ?_⟩, h.out, Nat.add_le_add_right hn 8⟩
    · change Except.ok _ = Except.ok _
      simp only [inMemory, hsrc, length_cons, Nat.cast_add, Nat.cast_ofNat, Nat.cast_one]
      congr 2
      omega
    · rw [append_assoc, ← hpre, hsrc]
      rfl

variable {k : ℕ}

theorem refillLoop_inMemory (h : Lies s dst u) (hk : 25 ≤ u.uwnbits + 8 * k) :
    Mem.refillLoop s k (u.inMemory s dst) = .ok ((refillLoop k u).inMemory s dst) ∧
      Lies s dst (refillLoop k u) ∧ 25 ≤ (refillLoop k u).uwnbits ∧
        (refillLoop k u).out = u.out ∧ (refillLoop k u).lithist = u.lithist := by
  induction k generalizing u with
  | zero =>
    have hn : ¬(u.inMemory s dst).uwnbits ≤ 24 := by
      simp only [inMemory]
      omega
    rw [Mem.refillLoop, if_neg hn]
    exact ⟨rfl, h, hk, rfl, rfl⟩
  | succ k ih =>
    rw [Mem.refillLoop, refillLoop]
    by_cases hn : u.uwnbits ≤ 24
    · have hn' : (u.inMemory s dst).uwnbits ≤ 24 := by
        simp only [inMemory]
        omega
      obtain ⟨hbyte, hlies⟩ := refillByte_inMemory h hn
      have hsame : u.refillByte.uwnbits = u.uwnbits + 8 ∧ u.refillByte.out = u.out ∧
          u.refillByte.lithist = u.lithist := by
        rw [refillByte]
        split <;> exact ⟨rfl, rfl, rfl⟩
      obtain ⟨hnext, hl, hbits, hout, hhist⟩ := ih hlies (by omega)
      rw [if_pos hn', if_pos hn, hbyte]
      exact ⟨hnext, hl, hbits, hout.trans hsame.2.1, hhist.trans hsame.2.2⟩
    · have hn' : ¬(u.inMemory s dst).uwnbits ≤ 24 := by
        simp only [inMemory]
        omega
      rw [if_neg hn', if_neg hn]
      exact ⟨rfl, h, by omega, rfl, rfl⟩

/-- **Filling the accumulator.** -/
theorem refill_inMemory (h : Lies s dst u) :
    (u.inMemory s dst).refill s = .ok (u.refill.inMemory s dst) ∧ Lies s dst u.refill ∧
      25 ≤ u.refill.uwnbits ∧ u.refill.out = u.out ∧ u.refill.lithist = u.lithist :=
  refillLoop_inMemory h (by omega)

/-! ### Codes -/

/-- **A literal.** -/
theorem literal_inMemory (h : Lies s dst u) (hn : 25 ≤ u.uwnbits) :
    (u.inMemory s dst).literal = .ok (u.literal.1, u.literal.2) ∧ u.literal.1 ≤ 32 := by
  have hn32 := h.bits
  have hnine : (u.uwnbits : ℤ) - 9 = (u.uwnbits - 9 : ℕ) := by omega
  have height : (u.uwnbits : ℤ) - 8 = (u.uwnbits - 8 : ℕ) := by omega
  have hten : ((u.uwnbits - 8 : ℕ) : ℤ) - 2 = (u.uwnbits - 8 - 2 : ℕ) := by omega
  have heleven : ((u.uwnbits - 8 : ℕ) : ℤ) - 3 = (u.uwnbits - 8 - 3 : ℕ) := by omega
  rw [Mem.literal, Unwhack.literal]
  simp only [inMemory, hnine, height, hten, heleven]
  rw [shiftField_eq _ (by omega), shiftField_eq _ (by omega), shiftField_eq _ (by omega),
    shiftField_eq _ (by omega)]
  by_cases hist : u.lithist &&& 0xf ≠ 0
  · rw [if_pos hist, if_pos hist]
    exact ⟨rfl, by dsimp only; omega⟩
  rw [if_neg hist, if_neg hist]
  by_cases hlow : field u.uwbits (u.uwnbits - 8) 0x7f < 32
  · by_cases hlower : field u.uwbits (u.uwnbits - 8) 0x7f < 24
    · simp only [if_pos hlow, if_pos hlower, bind, Except.bind]
      exact ⟨trivial, by omega⟩
    · simp only [if_pos hlow, if_neg hlower, bind, Except.bind]
      exact ⟨trivial, by omega⟩
  · simp only [if_neg hlow, bind, Except.bind]
    exact ⟨trivial, by omega⟩

variable {code use bits len : ℕ}

/-- **A long length**, bit by bit: the width of `use` and the sizes of `code` and `len` grow by one
bit with every bit that is read. -/
theorem lenLoop_inMemory (w : UInt32) (hk : n < k) (hn : n ≤ 26) (huse : 1 ≤ use)
    (huse' : use ≤ 2 ^ (26 - n)) (hbits : bits ≤ 1) (hcode : code < 2 ^ (28 - n))
    (hlen : len ≤ 6 + 2 ^ (26 - n)) :
    Mem.lenLoop w k n code use bits len =
      (Unwhack.lenLoop w n code use bits len).elim (.error .minusOne) fun r => .ok (r.1, r.2) := by
  have hpow : ∀ i, 2 ^ (26 - i) ≤ 2 ^ 26 := fun i => Nat.pow_le_pow_right (by decide) (by omega)
  have hpow' : ∀ i, 2 ^ (28 - i) ≤ 2 ^ 28 := fun i => Nat.pow_le_pow_right (by decide) (by omega)
  induction n generalizing k code use bits len with
  | zero =>
    obtain ⟨k, rfl⟩ : ∃ k', k = k' + 1 := ⟨k - 1, by omega⟩
    rw [Mem.lenLoop, Unwhack.lenLoop]
    by_cases hge : use ≤ code
    · rw [if_pos (by omega), if_pos hge, int_eq (by omega), int_eq (by omega)]
      rfl
    · rw [if_neg (by omega), if_neg hge, int_eq (by omega)]
      rfl
  | succ n ih =>
    obtain ⟨k, rfl⟩ : ∃ k', k = k' + 1 := ⟨k - 1, by omega⟩
    have huse₁ := hpow (n + 1)
    have hcode₁ := hpow' (n + 1)
    rw [Mem.lenLoop, Unwhack.lenLoop]
    by_cases hge : use ≤ code
    · have hbit : field w n 1 < 2 := by
        have h1 : field w n 1 = w.toNat >>> n % 2 ^ 1 := field_eq (k := 1) (by omega) (by omega)
        rw [h1]
        exact Nat.mod_lt _ (by decide)
      have hnext : ((code : ℤ) - use) * (2 : ℤ) + (field w n 1 : ℤ) =
          ((((code - use) <<< 1) ||| field w n 1 : ℕ) : ℤ) := by
        rw [← Nat.shiftLeft_add_eq_or_of_lt (i := 1) hbit, Nat.shiftLeft_eq]
        omega
      have hval : ((code - use) <<< 1) ||| field w n 1 = (code - use) * 2 + field w n 1 := by
        rw [← Nat.shiftLeft_add_eq_or_of_lt (i := 1) hbit, Nat.shiftLeft_eq]
      have hdouble : 2 ^ (26 - n) = 2 * 2 ^ (26 - (n + 1)) := by
        rw [← Nat.pow_succ']
        congr 1
        omega
      have hdouble' : 2 ^ (28 - n) = 2 * 2 ^ (28 - (n + 1)) := by
        rw [← Nat.pow_succ']
        congr 1
        omega
      have hshift : use ≤ use <<< bits ∧ use <<< bits ≤ 2 * use := by
        rw [Nat.shiftLeft_eq]
        interval_cases bits <;> omega
      have hflip : bits ^^^ 1 ≤ 1 := by interval_cases bits <;> decide
      have hstep : Mem.lenLoop w k n ((((code - use) <<< 1) ||| field w n 1 : ℕ) : ℤ) (use <<< bits)
          (bits ^^^ 1) ((len + use : ℕ) : ℤ) = _ :=
        ih (by omega) (by omega) (by omega) (by omega) hflip (by omega) (by omega)
      rw [if_pos (by omega), if_pos hge, int_eq (by omega), int_eq (by omega), ← hstep, ← hnext]
      simp only [bind, Except.bind]
      rw [if_neg (by omega), show ((n + 1 : ℕ) : ℤ) - 1 = n by omega, shiftField_eq _ (by omega)]
      simp only [Nat.cast_add]
    · rw [if_neg (by omega), if_neg hge, int_eq (by omega)]
      rfl

theorem lenLoop_le {w : UInt32} {r : ℕ × ℕ} (hr : r ∈ Unwhack.lenLoop w n code use bits len) :
    len ≤ r.1 ∧ r.2 ≤ n := by
  induction n generalizing code use bits len with
  | zero =>
    rw [Unwhack.lenLoop] at hr
    split at hr
    · exact absurd hr (Option.not_mem_none r)
    · cases hr
      exact ⟨Nat.le_add_right .., le_rfl⟩
  | succ n ih =>
    rw [Unwhack.lenLoop] at hr
    split at hr
    · obtain ⟨hlen, hn⟩ := ih hr
      omega
    · cases hr
      exact ⟨Nat.le_add_right .., le_rfl⟩

/-- What the table of lengths holds. -/
theorem lenVal_cases (hi : i < 32) (hne : lenVal.getD i 0 ≠ 0) :
    3 ≤ lenVal.getD i 0 ∧ lenVal.getD i 0 < 7 ∧ lenBits.getD (lenVal.getD i 0) 0 ≤ 5 ∨
      lenVal.getD i 0 = 255 ∧ 30 ≤ i := by
  have hall : ∀ i < 32, lenVal.getD i 0 ≠ 0 →
      3 ≤ lenVal.getD i 0 ∧ lenVal.getD i 0 < 7 ∧ lenBits.getD (lenVal.getD i 0) 0 ≤ 5 ∨
        lenVal.getD i 0 = 255 ∧ 30 ≤ i := by
    decide
  exact hall i hi hne

/-- **A length.** -/
theorem getLen_inMemory (h : Lies s dst u) (hn : 25 ≤ u.uwnbits)
    (hi : i = field u.uwbits (u.uwnbits - 5) 0x1f) (hne : lenVal.getD i 0 ≠ 0) :
    (u.inMemory s dst).getLen s (lenVal.getD i 0) =
        (u.getLen (lenVal.getD i 0)).elim (.error .minusOne)
          (fun r => .ok (r.1, r.2.inMemory s dst)) ∧
      ∀ r ∈ u.getLen (lenVal.getD i 0), Lies s dst r.2 ∧ 17 ≤ r.2.uwnbits ∧ 0 < r.1 ∧
        r.2.out = u.out ∧ r.2.lithist = u.lithist := by
  have hn32 := h.bits
  have hfive : i = u.uwbits.toNat >>> (u.uwnbits - 5) % 2 ^ 5 := by
    rw [hi]
    exact field_eq (k := 5) (by omega) (by omega)
  have hlt : i < 32 := by
    rw [hfive]
    exact Nat.mod_lt _ (by decide)
  rcases lenVal_cases hlt hne with ⟨hthree, hseven, hbits⟩ | ⟨hlong, hthirty⟩
  · generalize lenVal.getD i 0 = len at hthree hseven hbits
    rw [Mem.getLen, Unwhack.getLen, if_pos (by omega), if_pos (by omega), look_eq hseven]
    constructor
    · change Except.ok _ = Except.ok _
      simp only [inMemory]
      rw [Nat.cast_sub (by omega)]
    · rintro r hr
      cases hr
      exact ⟨⟨h.src, h.out, by dsimp only; omega⟩, by dsimp only; omega, by dsimp only; omega, rfl,
        rfl⟩
  · have hsix : field u.uwbits (u.uwnbits - 6) (1 <<< dBigLenBits - 1) =
        u.uwbits.toNat >>> (u.uwnbits - 6) % 2 ^ 6 := field_eq (k := 6) (by omega) (by omega)
    have htop := top_eq (v := u.uwbits.toNat) (n := u.uwnbits) (k := 6) 5 (by omega) (by omega) rfl
    rw [← hfive, Nat.shiftRight_eq_div_pow] at htop
    have hsmall : u.uwbits.toNat >>> (u.uwnbits - 6) % 2 ^ 6 < 64 := Nat.mod_lt _ (by decide)
    rw [← hsix] at htop hsmall
    obtain ⟨c, hc⟩ : ∃ c, c = field u.uwbits (u.uwnbits - 6) (1 <<< dBigLenBits - 1) := ⟨_, rfl⟩
    rw [← hc] at htop hsmall
    have hfour : 2 ^ 2 ≤ 2 ^ (28 - (u.uwnbits - 6)) := Nat.pow_le_pow_right (by decide) (by omega)
    have hone : 1 ≤ 2 ^ (26 - (u.uwnbits - 6)) := Nat.one_le_two_pow
    have hloop : Mem.lenLoop u.uwbits 32 ((u.uwnbits - 6 : ℕ) : ℤ) ((c - 60 : ℕ) : ℤ) 1 1
        ((7 : ℕ) : ℤ) = _ :=
      lenLoop_inMemory u.uwbits (by omega) (by omega) le_rfl hone le_rfl (by omega) (by omega)
    rw [Nat.cast_sub (show 60 ≤ c by omega)] at hloop
    have hsub : (u.uwnbits : ℤ) - dBigLenBits = (u.uwnbits - 6 : ℕ) := by
      rw [dBigLenBits]
      omega
    rw [hlong]
    have hmem : (u.inMemory s dst).getLen s 255 = (Unwhack.lenLoop u.uwbits (u.uwnbits - 6) (c - 60)
        1 1 7).elim (.error .minusOne)
          fun r => (Mem.refill s (Unwhack.inMemory s dst { u with uwnbits := r.2 })).map
            fun m => ((r.1 : ℤ), m) := by
      unfold Mem.getLen
      rw [if_neg (by decide)]
      simp only [inMemory, hsub]
      rw [shiftField_eq _ (by omega), ← hc]
      change (Mem.lenLoop u.uwbits 32 ((u.uwnbits - 6 : ℕ) : ℤ) ((c : ℤ) - (60 : ℕ)) 1 1
        ((7 : ℕ) : ℤ) >>= _) = _
      rw [hloop]
      cases Unwhack.lenLoop u.uwbits (u.uwnbits - 6) (c - 60) 1 1 7 with
      | none => rfl
      | some r => rfl
    have hpure : u.getLen 255 = (Unwhack.lenLoop u.uwbits (u.uwnbits - 6) (c - 60) 1 1 7).map
        fun r => (r.1, Unwhack.refill { u with uwnbits := r.2 }) := by
      have hargs : Unwhack.lenLoop u.uwbits (u.uwnbits - dBigLenBits)
          (field u.uwbits (u.uwnbits - dBigLenBits) (1 <<< dBigLenBits - 1) - dBigLenCode)
          dBigLenBase ((dBigLenBits &&& 1) ^^^ 1) dMaxFastLen =
            Unwhack.lenLoop u.uwbits (u.uwnbits - 6) (c - 60) 1 1 7 := by
        rw [hc]
        rfl
      unfold Unwhack.getLen
      rw [if_neg (by decide)]
      dsimp only
      rw [hargs]
      cases Unwhack.lenLoop u.uwbits (u.uwnbits - 6) (c - 60) 1 1 7 with
      | none => rfl
      | some r => rfl
    rw [hmem, hpure]
    cases hr : Unwhack.lenLoop u.uwbits (u.uwnbits - 6) (c - 60) 1 1 7 with
    | none => exact ⟨rfl, fun r hr => absurd hr (Option.not_mem_none r)⟩
    | some r =>
      obtain ⟨hseven, hle⟩ := lenLoop_le hr
      have hlies : Lies s dst { u with uwnbits := r.2 } := ⟨h.src, h.out, by dsimp only; omega⟩
      obtain ⟨hrefill, hl, hbits, hout, hhist⟩ := refill_inMemory hlies
      rw [Option.elim_some, hrefill]
      refine ⟨rfl, ?_⟩
      rintro r' hr'
      cases hr'
      exact ⟨hl, by dsimp only; omega, by dsimp only; omega, hout, hhist⟩

/-- **An offset.** -/
theorem getOff_inMemory (h : Lies s dst u) (hn : 17 ≤ u.uwnbits) :
    (u.inMemory s dst).getOff = .ok (u.getOff.1, u.getOff.2.inMemory s dst) ∧
      Lies s dst u.getOff.2 ∧ 1 ≤ u.getOff.1 ∧ u.getOff.2.out = u.out ∧
        u.getOff.2.lithist = u.lithist := by
  have hn32 := h.bits
  obtain ⟨i, hi⟩ : ∃ i, i = field u.uwbits (u.uwnbits - 4) 0xf := ⟨_, rfl⟩
  have hlt : i < 16 := by
    have hmod : i = u.uwbits.toNat >>> (u.uwnbits - 4) % 2 ^ 4 := by
      rw [hi]
      exact field_eq (k := 4) (by omega) (by omega)
    rw [hmod]
    exact Nat.mod_lt _ (by decide)
  have hbits : ∀ i < 16, offBits.getD i 0 ≤ 13 := by decide
  have hle := hbits i hlt
  refine ⟨?_, ⟨h.src, h.out, by dsimp only [getOff]; omega⟩, Nat.le_add_left .., rfl, rfl⟩
  rw [Mem.getOff, Unwhack.getOff, ← hi]
  have hfour : (u.uwnbits : ℤ) - 4 = (u.uwnbits - 4 : ℕ) := by omega
  have hrest : ((u.uwnbits - 4 : ℕ) : ℤ) - offBits.getD i 0 =
      (u.uwnbits - 4 - offBits.getD i 0 : ℕ) := by omega
  simp only [inMemory, hfour]
  rw [shiftField_eq _ (by omega), ← hi]
  simp only [bind, Except.bind]
  rw [look_eq (t := offBase) hlt, look_eq (t := offBits) hlt]
  simp only [hrest]
  rw [shiftField_eq _ (by omega)]

/-! ### The destination -/

theorem store_inMemory (c : UInt8) (hroom : u.out.length < dst.length) :
    (u.inMemory s dst).store c = .ok (Unwhack.inMemory s dst { u with out := u.out ++ [c] }) := by
  have hlen : (u.inMemory s dst).dst.length = dst.length := by
    rw [inMemory, length_append, length_drop]
    omega
  have hd : (u.inMemory s dst).d = u.out.length := rfl
  rw [Mem.store, hlen, hd, if_pos (by omega), Int.toNat_natCast]
  simp only [inMemory, length_append, length_singleton, Nat.cast_add, Nat.cast_one]
  rw [set_append_right _ _ le_rfl, Nat.sub_self, drop_eq_getElem_cons hroom,
    set_cons_zero, append_assoc]
  rfl

/-- **A copy** reads what has been written. -/
theorem copy_inMemory {off : ℕ} (h1 : 1 ≤ off) (h2 : off ≤ u.out.length)
    (hroom : u.out.length + len ≤ dst.length) :
    Mem.copy off len (u.inMemory s dst) =
      .ok (Unwhack.inMemory s dst { u with out := copyBack off len u.out }) := by
  induction len generalizing u with
  | zero => rfl
  | succ len ih =>
    have hlt : u.out.length - off < u.out.length := by omega
    have hd : (u.inMemory s dst).d = u.out.length := rfl
    have hpos : ((u.out.length : ℤ) - off) = (u.out.length - off : ℕ) := by omega
    have hback : (u.inMemory s dst).history off = .ok (u.out.get ⟨u.out.length - off, hlt⟩) := by
      rw [Mem.history, hd, if_pos (by omega), hpos, Int.toNat_natCast, inMemory,
        List.getD_eq_getElem?_getD, List.getElem?_append_left hlt, List.getElem?_eq_getElem hlt]
      rfl
    rw [Mem.copy, hback, copyBack, List.getElem?_eq_getElem hlt]
    change ((u.inMemory s dst).store _ >>= _) = _
    rw [store_inMemory _ (by omega)]
    refine (ih ?_ ?_).trans rfl
    · dsimp only
      rw [length_append]
      omega
    · dsimp only
      rw [length_append, length_singleton]
      omega

/-! ### The loop -/

/-- **A round of the loop** does what `step` says, and appends something if it goes on. -/
theorem step_inMemory (h : Lies s dst u) : (u.inMemory s dst).step s =
        ((u.step dst.length).mapError fun _ => Stop.minusOne).map (inMemory s dst) ∧
      ∀ u', u.step dst.length = .ok u' → Lies s dst u' ∧ u.out.length < u'.out.length := by
  obtain ⟨hrefill, hl, hn, hout, -⟩ := refill_inMemory h
  rw [← hout]
  unfold Mem.step Unwhack.step
  rw [hrefill]
  simp only [bind, Except.bind]
  generalize u.refill = r at hl hn
  have hn32 := hl.bits
  obtain ⟨i, hi⟩ : ∃ i, i = field r.uwbits (r.uwnbits - 5) 0x1f := ⟨_, rfl⟩
  have hlt : i < 32 := by
    have hmod : i = r.uwbits.toNat >>> (r.uwnbits - 5) % 2 ^ 5 := by
      rw [hi]
      exact field_eq (k := 5) (by omega) (by omega)
    rw [hmod]
    exact Nat.mod_lt _ (by decide)
  have hfive : ((r.inMemory s dst).uwnbits - 5) = (r.uwnbits - 5 : ℕ) := by
    simp only [inMemory]
    omega
  have hcode : shiftField (r.inMemory s dst).uwbits ((r.inMemory s dst).uwnbits - 5) 0x1f =
    .ok i := by
    rw [hfive, shiftField_eq _ (by omega), hi]
    rfl
  have hd : (r.inMemory s dst).d = r.out.length := rfl
  rw [hcode, ← hi]
  dsimp only
  rw [look_eq (t := lenVal) hlt]
  dsimp only
  by_cases hzero : lenVal.getD i 0 = 0
  · obtain ⟨hlit, hbits⟩ := literal_inMemory hl hn
    rw [if_pos hzero, if_pos hzero, hlit]
    dsimp only
    rw [hl.length_dst, hd]
    by_cases hroom : r.out.length ≥ dst.length
    · rw [if_pos (by omega), if_pos hroom]
      exact ⟨rfl, fun u' hu' => by cases hu'⟩
    · rw [if_neg (by omega), if_neg hroom, store_inMemory _ (by omega)]
      refine ⟨rfl, ?_⟩
      rintro u' hu'
      obtain rfl := Except.ok.inj hu'
      refine ⟨⟨hl.src, ?_, hbits⟩, ?_⟩
      · dsimp only
        rw [length_append, length_singleton]
        omega
      · dsimp only
        rw [length_append, length_singleton]
        omega
  · obtain ⟨hlen, hspec⟩ := getLen_inMemory hl hn hi hzero
    rw [if_neg hzero, if_neg hzero, hlen]
    cases hr : r.getLen (lenVal.getD i 0) with
    | none => exact ⟨rfl, fun u' hu' => by cases hu'⟩
    | some v =>
      obtain ⟨len, v⟩ := v
      obtain ⟨hlv, hnv, hpos, houtv, -⟩ := hspec _ hr
      obtain ⟨hoff, hlo, hone, houto, -⟩ := getOff_inMemory hlv hnv
      dsimp only at hlv hnv hpos houtv hoff hlo hone houto
      rw [← houtv, ← houto]
      simp only [Option.elim_some]
      rw [hoff]
      dsimp only
      have hdo : (v.getOff.2.inMemory s dst).d = v.getOff.2.out.length := rfl
      rw [hlo.length_dst, hdo]
      by_cases hback : v.getOff.1 > v.getOff.2.out.length
      · rw [if_pos (by omega), if_pos hback]
        exact ⟨rfl, fun u' hu' => by cases hu'⟩
      rw [if_neg (by omega), if_neg hback]
      by_cases hroom : v.getOff.2.out.length + len > dst.length
      · rw [if_pos (by omega), if_pos hroom]
        exact ⟨rfl, fun u' hu' => by cases hu'⟩
      rw [if_neg (by omega), if_neg hroom, Int.toNat_natCast,
        copy_inMemory hone (by omega) (by omega)]
      refine ⟨rfl, ?_⟩
      rintro u' hu'
      obtain rfl := Except.ok.inj hu'
      have hgrown : (copyBack _ len v.getOff.2.out).length = _ :=
        length_copyBack len hone (by omega)
      refine ⟨⟨hlo.src, ?_, hlo.bits⟩, ?_⟩
      · dsimp only
        omega
      · dsimp only
        omega

/-- **The loop ends**: every round but the last appends something. -/
theorem loop_inMemory (h : Lies s dst u) (hk : dst.length < u.out.length + k) (j : ℕ) :
    Mem.loop s (k + j) (u.inMemory s dst) =
        ((loop dst.length k u).mapError fun _ => Stop.minusOne).map (inMemory s dst) ∧
      ∀ u', loop dst.length k u = .ok u' → Lies s dst u' := by
  induction k generalizing u with
  | zero => exact absurd h.out (by omega)
  | succ k ih =>
    have hgo : ((u.inMemory s dst).src < s.length ∨
        (u.inMemory s dst).overbits + minDecode ≤ (u.inMemory s dst).uwnbits) ↔
          (u.src ≠ [] ∨ u.uwnbits ≥ u.overbits + minDecode) := by
      rw [h.src_lt]
      refine or_congr Iff.rfl ?_
      simp only [inMemory]
      omega
    obtain ⟨hstep, hnext⟩ := step_inMemory h
    rw [Nat.add_right_comm, Mem.loop, loop]
    by_cases hc : u.src ≠ [] ∨ u.uwnbits ≥ u.overbits + minDecode
    · rw [if_pos (hgo.2 hc), if_pos hc, hstep]
      cases hu : u.step dst.length with
      | error e => exact ⟨rfl, fun u' hu' => by cases hu'⟩
      | ok v =>
        obtain ⟨hlv, hgrown⟩ := hnext v hu
        exact ih hlv (by omega)
    · rw [if_neg fun hc' => hc (hgo.1 hc'), if_neg hc]
      refine ⟨rfl, ?_⟩
      rintro u' hu'
      obtain rfl := Except.ok.inj hu'
      exact h

end Unwhack

/-- **Decompression is memory-bounded on every input.** For every source and every destination
`unwhack` ends, within one round more than the destination has bytes; no access is out of range, no
byte of the history is copied before it has been written, no shift is too wide and no `int`
overflows; and it returns -1, or the length of what it has written to the destination. -/
theorem unwhackMem_eq (s dst : List UInt8) (k : ℕ) :
    ∃ r, unwhackMem (dst.length + 1 + k) s dst = .ok r ∧ (r = -1 ∨ 0 ≤ r ∧ r ≤ dst.length) ∧
      (∀ e, unwhack dst.length s = .error e → r = -1) ∧
      ∀ out, unwhack dst.length s = .ok out → r = out.length := by
  have hlies : Unwhack.Lies s dst ⟨s, 0, 0, 0, [], ~~~0⟩ :=
    ⟨List.suffix_rfl, Nat.zero_le _, Nat.zero_le _⟩
  obtain ⟨hloop, hend⟩ := Unwhack.loop_inMemory hlies (k := dst.length + 1)
    (by rw [List.length_nil]; omega) k
  have hstart : Unwhack.inMemory s dst ⟨s, 0, 0, 0, [], ~~~0⟩ = ⟨0, 0, 0, 0, 0, dst, ~~~0⟩ := by
    simp [Unwhack.inMemory]
  rw [hstart] at hloop
  unfold unwhackMem unwhack
  rw [hloop]
  cases hu : Unwhack.loop dst.length (dst.length + 1) ⟨s, 0, 0, 0, [], ~~~0⟩ with
  | error e => exact ⟨-1, rfl, .inl rfl, fun _ _ => rfl, fun out ho => by cases ho⟩
  | ok u =>
    have hl := hend u hu
    simp only [Except.mapError, Except.map]
    by_cases hover : u.uwnbits < u.overbits
    · rw [if_pos (by simp only [Unwhack.inMemory]; omega), if_pos hover]
      exact ⟨-1, rfl, .inl rfl, fun _ _ => rfl, fun out ho => by cases ho⟩
    · rw [if_neg (by simp only [Unwhack.inMemory]; omega), if_neg hover]
      refine ⟨u.out.length, rfl, .inr ⟨by omega, by exact_mod_cast hl.out⟩,
        fun e he => (by cases he), fun out ho => ?_⟩
      rw [Except.ok.inj ho]

end Venti

end Plan9
