import Plan9.Venti.Whack

/-!
# Block decompression

`unwhack.c` reads the codes of `whack.c` back with tables of its own: five bits tell a
literal from a length, four bits the class of an offset, and the long lengths start
from six bits instead of nine. It refills a 32-bit accumulator by whole bytes and pads
the end of the input with zeros that it counts.

* `Plan9.Venti.Unwhack.Feeds` – the bits a state will still read;
* `Plan9.Venti.Unwhack.literal_spec`, `Plan9.Venti.Unwhack.getLen_spec`,
  `Plan9.Venti.Unwhack.getOff_spec` – each code is read back to what was put;
* `Plan9.Venti.unwhack_whackBlock` – decompression undoes compression.
-/

namespace Plan9

namespace Venti

open Lib List

/-! ### Tables -/

/-- The table `lenval`: 0 for a literal, 255 for a long length. -/
def lenVal : List ℕ :=
  [0, 0, 0, 0, 0, 0, 0, 0, 0, 0, 0, 0, 0, 0, 0, 0, 3, 3, 3, 3, 3, 3, 3, 3, 4, 4, 4, 4, 5, 6,
    255, 255]

/-- The table `lenbits`. -/
def lenBits : List ℕ := [0, 0, 0, 2, 3, 5, 5]

/-- The table `offbits`. -/
def offBits : List ℕ := [5, 5, 5, 5, 6, 6, 7, 7, 8, 8, 9, 9, 10, 10, 12, 13]

/-- The table `offbase`. -/
def offBase : List ℕ :=
  [0, 0x20, 0x40, 0x60, 0x80, 0xc0, 0x100, 0x180, 0x200, 0x300, 0x400, 0x600, 0x800, 0xc00,
    0x1000, 0x2000]

/-- `DMaxFastLen`. -/
def dMaxFastLen : ℕ := 7

/-- `DBigLenCode`. -/
def dBigLenCode : ℕ := 0x3c

/-- `DBigLenBits`. -/
def dBigLenBits : ℕ := 6

/-- `DBigLenBase`. -/
def dBigLenBase : ℕ := 1

/-- `MinDecode`: the fewest bits of a code. -/
def minDecode : ℕ := 8

/-! ### The decompressor -/

/-- The variables of `unwhack`. -/
structure Unwhack where
  src : List UInt8
  uwbits : UInt32
  uwnbits : ℕ
  overbits : ℕ
  out : List UInt8
  lithist : UInt32

/-- `(uwbits >> n) & mask`. -/
def field (uwbits : UInt32) (n mask : ℕ) : ℕ :=
  ((uwbits >>> UInt32.ofNat n) &&& UInt32.ofNat mask).toNat

namespace Unwhack

/-- One round of the loop that fills the accumulator. -/
def refillByte (u : Unwhack) : Unwhack :=
  match u.src with
  | [] =>
    { u with
      uwbits := u.uwbits <<< 8
      overbits := u.overbits + 8
      uwnbits := u.uwnbits + 8 }
  | b :: src =>
    { u with
      src := src
      uwbits := (u.uwbits <<< 8) ||| b.toUInt32
      uwnbits := u.uwnbits + 8 }

/-- The loop that fills the accumulator; the first argument bounds the rounds. -/
def refillLoop : ℕ → Unwhack → Unwhack
  | 0, u => u
  | k + 1, u => if u.uwnbits ≤ 24 then refillLoop k u.refillByte else u

/-- Fill the accumulator to more than 24 bits: four bytes are always enough. -/
def refill (u : Unwhack) : Unwhack := refillLoop 4 u

/-- The literal at the top of the accumulator, and the bits left behind it. -/
def literal (u : Unwhack) : ℕ × UInt8 :=
  if u.lithist &&& 0xf ≠ 0 then
    let n := u.uwnbits - 9
    (n, UInt8.ofNat (field u.uwbits n 0xff))
  else
    let n := u.uwnbits - 8
    let lit := field u.uwbits n 0x7f
    if lit < 32 then
      if lit < 24 then
        let n := n - 2
        (n, UInt8.ofNat ((lit <<< 2) ||| field u.uwbits n 3) - 64)
      else
        let n := n - 3
        (n, UInt8.ofNat ((lit <<< 3) ||| field u.uwbits n 7) - 64)
    else (n, UInt8.ofNat lit)

/-- The loop that reads a long length bit by bit: the length and the bits left. -/
def lenLoop (uwbits : UInt32) : ℕ → ℕ → ℕ → ℕ → ℕ → Option (ℕ × ℕ)
  | 0, code, use, _, len => if code ≥ use then none else some (len + code, 0)
  | n + 1, code, use, bits, len =>
    if code ≥ use then
      lenLoop uwbits n (((code - use) <<< 1) ||| field uwbits n 1) (use <<< bits) (bits ^^^ 1)
        (len + use)
    else some (len + code, n + 1)

/-- The length of a match, given its entry of `lenVal`. The accumulator is filled again
behind a long one. -/
def getLen (u : Unwhack) (len : ℕ) : Option (ℕ × Unwhack) :=
  if len < 255 then some (len, { u with uwnbits := u.uwnbits - lenBits.getD len 0 })
  else
    let n := u.uwnbits - dBigLenBits
    let code := field u.uwbits n (1 <<< dBigLenBits - 1) - dBigLenCode
    match lenLoop u.uwbits n code dBigLenBase ((dBigLenBits &&& 1) ^^^ 1) dMaxFastLen with
    | none => none
    | some (len, n) => some (len, refill { u with uwnbits := n })

/-- The offset of a match. -/
def getOff (u : Unwhack) : ℕ × Unwhack :=
  let n := u.uwnbits - 4
  let i := field u.uwbits n 0xf
  let bits := offBits.getD i 0
  ((offBase.getD i 0 ||| field u.uwbits (n - bits) (1 <<< bits - 1)) + 1,
    { u with uwnbits := n - bits })

/-- The body of the loop of `unwhack`. -/
def step (ndst : ℕ) (u : Unwhack) : Except String Unwhack :=
  let u := u.refill
  let len := lenVal.getD (field u.uwbits (u.uwnbits - 5) 0x1f) 0
  if len = 0 then
    let lit := u.literal
    if u.out.length ≥ ndst then .error "too much output"
    else
      .ok { u with
        uwnbits := lit.1
        out := u.out ++ [lit.2]
        lithist := nextHist u.lithist lit.2 }
  else
    match u.getLen len with
    | none => .error "len out of range"
    | some (len, u) =>
      let off := u.getOff.1
      let u := u.getOff.2
      let d := u.out.length
      if off > d then
        .error s!"offset out of range: off={off} d={d} len={len} nbits={u.uwnbits}"
      else if d + len > ndst then .error "len out of range"
      else .ok { u with out := copyBack off len u.out }

/-- The loop of `unwhack`. The first argument bounds the rounds, each of which appends a
byte or fails. -/
def loop (ndst : ℕ) : ℕ → Unwhack → Except String Unwhack
  | 0, _ => .error "too many rounds"
  | k + 1, u =>
    if u.src ≠ [] ∨ u.uwnbits ≥ u.overbits + minDecode then
      match u.step ndst with
      | .error e => .error e
      | .ok u' => loop ndst k u'
    else .ok u

end Unwhack

/-- `unwhack`: the bytes written to a destination of `ndst` bytes. -/
def unwhack (ndst : ℕ) (src : List UInt8) : Except String (List UInt8) :=
  match Unwhack.loop ndst (ndst + 1) ⟨src, 0, 0, 0, [], ~~~0⟩ with
  | .error e => .error e
  | .ok u => if u.uwnbits < u.overbits then .error "compressed data overrun" else .ok u.out

/-! ### Reading from the accumulator -/

variable {n k : ℕ}

theorem field_eq {uwbits : UInt32} (hn : n < 32) (hk : k < 32) :
    field uwbits n (2 ^ k - 1) = (uwbits.toNat >>> n) % 2 ^ k := by
  have hmask : (UInt32.ofNat (2 ^ k - 1)).toNat = 2 ^ k - 1 := by
    have hpow : 2 ^ k ≤ 2 ^ 31 := Nat.pow_le_pow_right (by omega) (by omega)
    exact UInt32.toNat_ofNat_of_lt' (lt_of_le_of_lt (Nat.sub_le _ _)
      (lt_of_le_of_lt hpow (by decide)))
  rw [field, UInt32.toNat_and, toNat_shiftRight _ hn, hmask, Nat.and_two_pow_sub_one_eq_mod]

variable {v c : ℕ}

/-- The first bits of a code at the top of an accumulator. -/
theorem top_eq (j : ℕ) (hj : j ≤ k) (hk : k ≤ n) (h : (v >>> (n - k)) % 2 ^ k = c) :
    (v >>> (n - j)) % 2 ^ j = c >>> (k - j) := by
  rw [show n - j = n - k + (k - j) by omega, Nat.shiftRight_add,
    Nat.shiftRight_eq_div_pow _ (k - j), Nat.shiftRight_eq_div_pow _ (k - j), ← h,
    ← Nat.mod_mul_right_div_self, ← Nat.pow_add, Nat.sub_add_cancel hj]

/-- The last bits of a code at the top of an accumulator. -/
theorem bottom_eq (j : ℕ) (hj : j ≤ k) (h : (v >>> (n - k)) % 2 ^ k = c) :
    (v >>> (n - k)) % 2 ^ j = c % 2 ^ j := by
  rw [← h, Nat.mod_mod_of_dvd _ (Nat.pow_dvd_pow 2 hj)]

namespace Unwhack

/-- The bits in the accumulator and in the input behind it. -/
def stream (u : Unwhack) : List Bool := bitsOf u.uwnbits u.uwbits.toNat ++ bytesBits u.src

/-- The state will read these bits, before the zeros it pads the input with. -/
def Feeds (u : Unwhack) (b : List Bool) : Prop :=
  (∃ z : List Bool, z.length = u.overbits ∧ u.stream = b ++ z) ∧
    (u.overbits = 0 ∨ u.src = []) ∧ u.uwnbits ≤ 32

variable {u : Unwhack} {b : List Bool}

theorem refillByte_feeds (h : u.Feeds b) (hn : u.uwnbits ≤ 24) :
    u.refillByte.Feeds b ∧ u.refillByte.uwnbits = u.uwnbits + 8 ∧ u.refillByte.out = u.out ∧
      u.refillByte.lithist = u.lithist := by
  obtain ⟨⟨z, hz, hs⟩, hover, _⟩ := h
  rw [refillByte]
  cases hsrc : u.src with
  | nil =>
    refine ⟨⟨⟨z ++ bitsOf 8 0, by simp [hz], ?_⟩, .inr rfl, by dsimp only; omega⟩, rfl, rfl, rfl⟩
    have hpush := bitsOf_push (n := u.uwnbits) (k := 8) u.uwbits (c := 0) (by decide)
      (by omega) (by omega)
    rw [UInt32.or_zero] at hpush
    simp only [stream, hsrc, bytesBits_nil, append_nil] at hs ⊢
    rw [← append_assoc, ← hs]
    exact hpush
  | cons x src =>
    have hzero : u.overbits = 0 := hover.resolve_right (by simp [hsrc])
    refine ⟨⟨⟨z, hz, ?_⟩, .inl hzero, by dsimp only; omega⟩, rfl, rfl, rfl⟩
    have hx : x.toUInt32.toNat = x.toNat := UInt8.toNat_toUInt32 x
    have hpush := bitsOf_push (n := u.uwnbits) (k := 8) u.uwbits (c := x.toUInt32)
      (by rw [hx]; exact x.toNat_lt) (by omega) (by omega)
    rw [hx] at hpush
    simp only [stream, hsrc, bytesBits_cons, ← append_assoc] at hs ⊢
    rw [← hs]
    exact congrArg (· ++ bytesBits src) hpush

theorem refillLoop_feeds (k : ℕ) (h : u.Feeds b) :
    (refillLoop k u).Feeds b ∧ min 25 (u.uwnbits + 8 * k) ≤ (refillLoop k u).uwnbits ∧
      (refillLoop k u).out = u.out ∧ (refillLoop k u).lithist = u.lithist := by
  induction k generalizing u with
  | zero => exact ⟨h, by simp [refillLoop], rfl, rfl⟩
  | succ k ih =>
    rw [refillLoop]
    by_cases hn : u.uwnbits ≤ 24
    · rw [if_pos hn]
      obtain ⟨h1, h2, h3, h4⟩ := refillByte_feeds h hn
      obtain ⟨h5, h6, h7, h8⟩ := ih h1
      exact ⟨h5, by omega, h7.trans h3, h8.trans h4⟩
    · rw [if_neg hn]
      exact ⟨h, by omega, rfl, rfl⟩

/-- **Filling the accumulator** changes nothing about the bits to come. -/
theorem refill_feeds (h : u.Feeds b) :
    u.refill.Feeds b ∧ 25 ≤ u.refill.uwnbits ∧ u.refill.out = u.out ∧
      u.refill.lithist = u.lithist := by
  obtain ⟨h1, h2, h3, h4⟩ := refillLoop_feeds 4 h
  exact ⟨h1, le_trans (by omega) h2, h3, h4⟩

/-- **Taking a code** off the top of the accumulator. -/
theorem take_feeds (h : u.Feeds (bitsOf k c ++ b)) (hc : c < 2 ^ k) (hk : k ≤ u.uwnbits) :
    (u.uwbits.toNat >>> (u.uwnbits - k)) % 2 ^ k = c ∧
      Feeds { u with uwnbits := u.uwnbits - k } b := by
  obtain ⟨⟨z, hz, hs⟩, hover, hn⟩ := h
  rw [stream, append_assoc] at hs
  have hlen : (bitsOf k c).length ≤ (bitsOf u.uwnbits u.uwbits.toNat).length := by
    simpa using hk
  obtain ⟨rest, hrest, htail⟩ : ∃ rest, bitsOf u.uwnbits u.uwbits.toNat = bitsOf k c ++ rest ∧
      rest ++ bytesBits u.src = b ++ z := by
    obtain ⟨rest, hrest⟩ := prefix_of_prefix_length_le
      (prefix_append (bitsOf k c) (b ++ z)) (hs ▸ prefix_append _ _) hlen
    refine ⟨rest, hrest.symm, ?_⟩
    rw [← hrest, append_assoc] at hs
    exact append_cancel_left hs
  obtain ⟨hval, hbits⟩ := eq_of_bitsOf_append hc hk hrest
  exact ⟨hval, ⟨z, hz, by rw [stream, hbits, htail]⟩, hover, by dsimp only; omega⟩

/-! ### Literals -/

theorem nextHist_toNat (h : UInt32) (c : UInt8) :
    (nextHist h c).toNat = h.toNat * 2 % 2 ^ 32 + if c < 32 ∨ c > 127 then 1 else 0 := by
  obtain ⟨bit, hbit, hval⟩ : ∃ bit : UInt32, nextHist h c = (h <<< 1) ||| bit ∧
      bit.toNat = if c < 32 ∨ c > 127 then 1 else 0 := by
    refine ⟨if c < 32 ∨ c > 127 then 1 else 0, ?_, ?_⟩
    · rw [nextHist]
      by_cases h1 : c < 32 <;> by_cases h2 : c > 127 <;> simp [h1, h2, UInt32.or_assoc]
    · split <;> rfl
  have hlt : bit.toNat < 2 ^ 1 := by
    rw [hval]
    split <;> decide
  have hshift : (h <<< 1).toNat = (h.toNat % 2 ^ 31) <<< 1 := by
    have h1 : (h <<< 1).toNat = h.toNat <<< 1 % 2 ^ 32 := UInt32.toNat_shiftLeft h 1
    rw [h1, Nat.shiftLeft_eq, Nat.shiftLeft_eq]
    omega
  rw [hbit, UInt32.toNat_or, hshift, ← Nat.shiftLeft_add_eq_or_of_lt hlt, hval, Nat.shiftLeft_eq]
  omega

/-- The encoder looks at its history behind the literal, the decoder before it. -/
theorem nextHist_and_thirty (h : UInt32) (c : UInt8) :
    nextHist h c &&& 0x1e ≠ 0 ↔ h &&& 0xf ≠ 0 := by
  have hthirty : ∀ x, x &&& 0x1e = x % 32 / 2 * 2 := by
    intro x
    have hsmall : ∀ y < 32, y &&& 0x1e = y / 2 * 2 := by decide
    have h31 : x &&& 31 = x % 32 := Nat.and_two_pow_sub_one_eq_mod x 5
    rw [← hsmall _ (Nat.mod_lt x (by decide)), ← h31, Nat.and_assoc]
    rfl
  have hfifteen : h.toNat &&& 0xf = h.toNat % 16 := Nat.and_two_pow_sub_one_eq_mod _ 4
  rw [not_iff_not, ← UInt32.toNat_inj, ← UInt32.toNat_inj, UInt32.toNat_and, UInt32.toNat_and]
  change (nextHist h c).toNat &&& 0x1e = 0 ↔ h.toNat &&& 0xf = 0
  rw [hthirty, hfifteen, nextHist_toNat]
  split <;> omega

theorem nextHist_and_one (h : UInt32) (c : UInt8) : nextHist h c &&& 1 ≠ 0 ↔ c < 32 ∨ c > 127 := by
  have hone : ((nextHist h c) &&& 1).toNat = (nextHist h c).toNat % 2 := by
    rw [UInt32.toNat_and]
    exact Nat.and_one_is_mod _
  rw [ne_eq, ← UInt32.toNat_inj, hone, nextHist_toNat]
  change ¬_ = 0 ↔ _
  split
  · next hc => exact iff_of_true (by omega) hc
  · next hc => exact iff_of_false (by omega) hc

variable {i : ℕ}

/-- Five bits below 16 are a literal. -/
theorem lenVal_lit (h : i < 16) : lenVal.getD i 0 = 0 := by
  have : ∀ i < 16, lenVal.getD i 0 = 0 := by decide
  exact this i h

/-- **A literal is read back.** -/
theorem literal_spec {c : UInt8} (h : u.Feeds (bitsOf (litCode (nextHist u.lithist c) c).1
      (litCode (nextHist u.lithist c) c).2 ++ b)) (hn : 25 ≤ u.uwnbits) :
    lenVal.getD (field u.uwbits (u.uwnbits - 5) 0x1f) 0 = 0 ∧ u.literal.2 = c ∧
      Feeds { u with uwnbits := u.literal.1 } b := by
  have hc := c.toNat_lt
  have hn32 := h.2.2
  obtain ⟨hcode, hmin, hmax⟩ := litCode_lt (nextHist u.lithist c) c
  obtain ⟨hval, hfeeds⟩ := take_feeds h hcode (by omega)
  have h5 : field u.uwbits (u.uwnbits - 5) 0x1f = _ := field_eq (k := 5) (by omega) (by omega)
  have h8 : field u.uwbits (u.uwnbits - 8) 0x7f = _ := field_eq (k := 7) (by omega) (by omega)
  have htop := top_eq 8 hmin (by omega) hval
  rw [top_eq 5 (by omega) (by omega) hval, Nat.shiftRight_eq_div_pow] at h5
  rw [← Nat.mod_mod_of_dvd _ (Nat.pow_dvd_pow 2 (show 7 ≤ 8 by omega)), htop,
    Nat.shiftRight_eq_div_pow] at h8
  suffices hlit : (litCode (nextHist u.lithist c) c).2 /
      2 ^ ((litCode (nextHist u.lithist c) c).1 - 5) < 16 ∧
      u.literal = (u.uwnbits - (litCode (nextHist u.lithist c) c).1, c) by
    rw [hlit.2, h5]
    exact ⟨lenVal_lit hlit.1, rfl, hfeeds⟩
  -- the three shapes of a code, told apart by the history and the byte
  by_cases hist : u.lithist &&& 0xf ≠ 0
  · have hkc : litCode (nextHist u.lithist c) c = (9, c.toNat) := by
      rw [litCode, if_pos ((nextHist_and_thirty _ _).2 hist)]
    rw [hkc] at hval ⊢
    have hfield : field u.uwbits (u.uwnbits - 9) 0xff = c.toNat := by
      rw [← Nat.mod_eq_of_lt hc, ← bottom_eq 8 (by omega) hval]
      exact field_eq (k := 8) (by omega) (by omega)
    refine ⟨by change c.toNat / 2 ^ 4 < 16; omega, ?_⟩
    rw [literal, if_pos hist]
    simp only [hfield, UInt8.ofNat_toNat]
  · have hthirty := mt (nextHist_and_thirty u.lithist c).1 hist
    by_cases hbin : c < 32 ∨ c > 127
    · have hone := (nextHist_and_one u.lithist c).2 hbin
      have hbin' : c.toNat < 32 ∨ 127 < c.toNat :=
        hbin.imp UInt8.lt_iff_toNat_lt.1 UInt8.lt_iff_toNat_lt.1
      generalize htoff : (c.toNat + 64) % 256 = toff
      have hback : UInt8.ofNat toff - 64 = c := by
        refine UInt8.toNat_inj.1 ?_
        rw [UInt8.toNat_sub, UInt8.toNat_ofNat_of_lt' (show toff < 256 by omega)]
        change (256 - 64 + toff) % 256 = c.toNat
        omega
      by_cases hsmall : toff < 96
      · have hkc : litCode (nextHist u.lithist c) c = (10, toff) := by
          rw [litCode, if_neg hthirty, if_pos hone]
          simp only [htoff, if_pos hsmall]
        rw [hkc] at hval h8 ⊢
        have hlit : field u.uwbits (u.uwnbits - 8) 0x7f = toff / 4 := by
          rw [h8]
          change toff / 2 ^ 2 % 2 ^ 7 = toff / 4
          omega
        have hval' : (u.uwbits.toNat >>> (u.uwnbits - 10)) % 2 ^ 10 = toff := hval
        have hlow : field u.uwbits (u.uwnbits - 10) 3 = toff % 4 :=
          (field_eq (k := 2) (by omega) (by omega)).trans (bottom_eq 2 (by omega) hval')
        have hor : (toff / 4) <<< 2 ||| toff % 4 = toff := by
          rw [← Nat.shiftLeft_add_eq_or_of_lt (show toff % 4 < 2 ^ 2 by omega), Nat.shiftLeft_eq]
          omega
        refine ⟨by change toff / 2 ^ 5 < 16; omega, ?_⟩
        rw [literal, if_neg hist]
        simp only [hlit, if_pos (show toff / 4 < 32 by omega), if_pos (show toff / 4 < 24 by omega),
          show u.uwnbits - 8 - 2 = u.uwnbits - 10 by omega, hlow, hor, hback]
      · have hkc : litCode (nextHist u.lithist c) c = (11, toff) := by
          rw [litCode, if_neg hthirty, if_pos hone]
          simp only [htoff, if_neg hsmall]
        rw [hkc] at hval h8 ⊢
        have hlit : field u.uwbits (u.uwnbits - 8) 0x7f = toff / 8 := by
          rw [h8]
          change toff / 2 ^ 3 % 2 ^ 7 = toff / 8
          omega
        have hval' : (u.uwbits.toNat >>> (u.uwnbits - 11)) % 2 ^ 11 = toff := hval
        have hlow : field u.uwbits (u.uwnbits - 11) 7 = toff % 8 :=
          (field_eq (k := 3) (by omega) (by omega)).trans (bottom_eq 3 (by omega) hval')
        have hor : (toff / 8) <<< 3 ||| toff % 8 = toff := by
          rw [← Nat.shiftLeft_add_eq_or_of_lt (show toff % 8 < 2 ^ 3 by omega), Nat.shiftLeft_eq]
          omega
        refine ⟨by change toff / 2 ^ 6 < 16; omega, ?_⟩
        rw [literal, if_neg hist]
        simp only [hlit, if_pos (show toff / 8 < 32 by omega),
          if_neg (show ¬toff / 8 < 24 by omega),
          show u.uwnbits - 8 - 3 = u.uwnbits - 11 by omega, hlow, hor, hback]
    · have hone := mt (nextHist_and_one u.lithist c).1 hbin
      have hkc : litCode (nextHist u.lithist c) c = (8, c.toNat) := by
        rw [litCode, if_neg hthirty, if_neg hone]
      rw [not_or, UInt8.not_lt, UInt8.not_lt, UInt8.le_iff_toNat_le, UInt8.le_iff_toNat_le]
        at hbin
      have hprint : 32 ≤ c.toNat ∧ c.toNat ≤ 127 := hbin
      rw [hkc] at h8 ⊢
      have hlit : field u.uwbits (u.uwnbits - 8) 0x7f = c.toNat := by
        rw [h8]
        change c.toNat / 2 ^ 0 % 2 ^ 7 = c.toNat
        omega
      refine ⟨by change c.toNat / 2 ^ 3 < 16; omega, ?_⟩
      rw [literal, if_neg hist]
      simp only [hlit, if_neg (show ¬c.toNat < 32 by omega), UInt8.ofNat_toNat]

/-! ### Lengths -/

theorem shift_flip (bits : ℕ) : ((bits &&& 1) ^^^ 1) ^^^ 1 = ((bits + 1) &&& 1) ^^^ 1 := by
  rcases Nat.mod_two_eq_zero_or_one bits with h | h
  · rw [shift_even h, shift_odd (by omega)]
    rfl
  · rw [shift_odd h, shift_even (by omega)]
    rfl

variable {w : UInt32} {code use : ℕ}

theorem lenLoop_stop (bits len : ℕ) (h : code < use) :
    lenLoop w n code use bits len = some (len + code, n) := by
  cases n with
  | zero => rw [lenLoop, if_neg (by omega)]
  | succ n => rw [lenLoop, if_neg (by omega)]

variable {x : ℕ}

/-- **The two loops over the widths meet**: reading a long code bit by bit goes through
the stages the code was found by. -/
theorem lenLoop_spec {bits b : ℕ} (h : LenCode x code bits use b v) (hn : n ≤ 32) (hb : b ≤ n)
    (hval : (w.toNat >>> (n - b)) % 2 ^ b = v) (len : ℕ) :
    lenLoop w (n - bits) (v >>> (b - bits) - code) use ((bits &&& 1) ^^^ 1) len =
      some (len + x, n - b) := by
  induction h generalizing len with
  | @stop x code bits use hx =>
    rw [Nat.sub_self, Nat.shiftRight_zero, Nat.add_sub_cancel_left, lenLoop_stop _ _ hx]
  | @more x code bits use b v hx hmore ih =>
    obtain ⟨hbits, hcode⟩ := hmore.le
    have hhalf : v >>> (b - bits) = v >>> (b - (bits + 1)) / 2 := by
      rw [show b - bits = b - (bits + 1) + 1 by omega, Nat.shiftRight_succ]
    have hbit : field w (n - (bits + 1)) 1 = v >>> (b - (bits + 1)) % 2 := by
      have h1 : field w (n - (bits + 1)) 1 = w.toNat >>> (n - (bits + 1)) % 2 ^ 1 :=
        field_eq (k := 1) (by omega) (by omega)
      rw [h1, ← top_eq (bits + 1) hbits hb hval,
        ← Nat.mod_mod_of_dvd (w.toNat >>> (n - (bits + 1))) (Nat.pow_dvd_pow 2 (by omega) :
          2 ^ 1 ∣ 2 ^ (bits + 1))]
    rw [Nat.shiftLeft_eq, pow_one] at hcode
    have hnext : (v >>> (b - bits) - code - use) <<< 1 ||| field w (n - (bits + 1)) 1 =
        v >>> (b - (bits + 1)) - (code + use) <<< 1 := by
      rw [hbit, ← Nat.shiftLeft_add_eq_or_of_lt (show _ % 2 < 2 ^ 1 by omega), hhalf,
        Nat.shiftLeft_eq, Nat.shiftLeft_eq]
      omega
    have hge : v >>> (b - bits) - code ≥ use := by omega
    rw [show n - bits = n - (bits + 1) + 1 by omega, lenLoop, if_pos hge, hnext, shift_flip,
      ih hb hval]
    congr 2
    omega

variable {len : ℕ}

/-- The short lengths in the table. -/
theorem lenVal_short (hlen : len < 4) (hi : i < 32)
    (h : i >>> (5 - (lenCode len).1) = (lenCode len).2) :
    lenVal.getD i 0 = len + minMatch ∧ lenBits.getD (len + minMatch) 0 = (lenCode len).1 := by
  have : ∀ len < 4, ∀ i < 32, i >>> (5 - (lenCode len).1) = (lenCode len).2 →
      lenVal.getD i 0 = len + minMatch ∧ lenBits.getD (len + minMatch) 0 = (lenCode len).1 := by
    decide
  exact this len hlen i hi h

/-- **A length is read back**, and leaves enough bits for an offset. -/
theorem getLen_spec (hlen : len + minMatch ≤ maxLen)
    (h : u.Feeds (bitsOf (lenCode len).1 (lenCode len).2 ++ b)) (hn : 25 ≤ u.uwnbits) :
    lenVal.getD (field u.uwbits (u.uwnbits - 5) 0x1f) 0 ≠ 0 ∧ ∃ u',
      u.getLen (lenVal.getD (field u.uwbits (u.uwnbits - 5) 0x1f) 0) = some (len + minMatch, u') ∧
      u'.Feeds b ∧ 17 ≤ u'.uwnbits ∧ u'.out = u.out ∧ u'.lithist = u.lithist := by
  have hmin : minMatch = 3 := rfl
  have hn32 := h.2.2
  have h24 := lenCode_bits_le hlen
  obtain ⟨hval, hfeeds⟩ := take_feeds h (lenCode_lt len) (by omega)
  have h5 : field u.uwbits (u.uwnbits - 5) 0x1f = u.uwbits.toNat >>> (u.uwnbits - 5) % 2 ^ 5 :=
    field_eq (k := 5) (by omega) (by omega)
  rw [h5]
  rcases Nat.lt_or_ge len 4 with hlt | hge
  · have hshort : ∀ l < 4, (lenCode l).1 ≤ 5 := by decide
    have hle := hshort len hlt
    have htop := top_eq (v := u.uwbits.toNat) (n := u.uwnbits) (lenCode len).1 hle (by omega) rfl
    rw [hval] at htop
    have hmod : u.uwbits.toNat >>> (u.uwnbits - 5) % 2 ^ 5 < 32 := Nat.mod_lt _ (by decide)
    obtain ⟨hv, hb⟩ := lenVal_short hlt hmod htop.symm
    rw [hv]
    refine ⟨by omega, { u with uwnbits := u.uwnbits - (lenCode len).1 }, ?_, hfeeds, ?_, rfl, rfl⟩
    · rw [getLen, if_pos (by omega), hb]
    · dsimp only
      omega
  · have hcode := lenCode_spec hge
    obtain ⟨hbits, hle⟩ := hcode.le
    have hlt := hcode.lt stage_six
    generalize hkc : lenCode len = kc at hval hfeeds hbits hle hlt hcode h24
    obtain ⟨k, v⟩ := kc
    -- the first five bits of a code from `0x3c` on are 30 or 31
    have htop : u.uwbits.toNat >>> (u.uwnbits - 5) % 2 ^ 5 = v >>> (k - 5) :=
      top_eq 5 (by dsimp only at hbits; omega) (by dsimp only at h24; omega) hval
    have hsix : v >>> (k - 5) = v >>> (k - 6) / 2 := by
      dsimp only at hbits
      rw [show k - 5 = k - 6 + 1 by omega, Nat.shiftRight_succ]
    have hbig : lenVal.getD (v >>> (k - 5)) 0 = 255 := by
      have hmod : v >>> (k - 5) < 32 := by
        rw [← htop]
        exact Nat.mod_lt _ (by decide)
      have : ∀ i < 32, 30 ≤ i → lenVal.getD i 0 = 255 := by decide
      refine this _ hmod ?_
      dsimp only at hle
      omega
    have hfirst : field u.uwbits (u.uwnbits - dBigLenBits) (1 <<< dBigLenBits - 1) =
        v >>> (k - 6) := by
      dsimp only at hbits h24
      rw [← top_eq 6 hbits (by omega) hval]
      exact field_eq (k := 6) (by change u.uwnbits - 6 < 32; omega) (by omega)
    have hloop := lenLoop_spec hcode hn32 (by dsimp only; omega) hval dMaxFastLen
    dsimp only at hloop hfeeds
    obtain ⟨hf, h25, hout, hhist⟩ := refill_feeds hfeeds
    rw [htop, hbig]
    refine ⟨by decide, _, ?_, hf, by omega, hout, hhist⟩
    rw [getLen, if_neg (by decide)]
    simp only [hfirst]
    have hstart : lenLoop u.uwbits (u.uwnbits - dBigLenBits) (v >>> (k - 6) - dBigLenCode)
        dBigLenBase ((dBigLenBits &&& 1) ^^^ 1) dMaxFastLen =
          some (dMaxFastLen + (len - 4), u.uwnbits - k) := hloop
    rw [hstart]
    have hd : dMaxFastLen = 7 := rfl
    simp only [Option.some.injEq, Prod.mk.injEq, and_true]
    omega

/-! ### Offsets -/

variable {toff : ℕ}

/-- The row of the decoder's tables that an offset falls into, and its code in terms of
the row. -/
theorem offCode_row (h : toff < whackMaxOff) :
    ∃ i < 16, offBase.getD i 0 ≤ toff ∧ toff < offBase.getD i 0 + 2 ^ offBits.getD i 0 ∧
      (offCode toff).1 + (offCode toff).2.2 = offBits.getD i 0 + 4 ∧
      (offCode toff).2.1 * 2 ^ (offCode toff).2.2 + toff % 2 ^ (offCode toff).2.2 =
        i * 2 ^ offBits.getD i 0 + (toff - offBase.getD i 0) := by
  have hmax : whackMaxOff = 16384 := rfl
  have leaf : ∀ i a p b lo w, i < 16 → offBase.getD i 0 = lo → offBits.getD i 0 = w →
      offCode toff = (a, p, b) → a + b = w + 4 → lo ≤ toff → toff < lo + 2 ^ w →
      p * 2 ^ b + toff % 2 ^ b = i * 2 ^ w + (toff - lo) →
      ∃ i < 16, offBase.getD i 0 ≤ toff ∧ toff < offBase.getD i 0 + 2 ^ offBits.getD i 0 ∧
        (offCode toff).1 + (offCode toff).2.2 = offBits.getD i 0 + 4 ∧
        (offCode toff).2.1 * 2 ^ (offCode toff).2.2 + toff % 2 ^ (offCode toff).2.2 =
          i * 2 ^ offBits.getD i 0 + (toff - offBase.getD i 0) := by
    intro i a p b lo w hi hlo hw hc hab h1 h2 heq
    rw [hc]
    refine ⟨i, hi, ?_⟩
    rw [hlo, hw]
    exact ⟨h1, h2, hab, heq⟩
  -- the smallest class has two rows with the same number of bits, every other class one row
  -- for each value of the bit below the highest
  rcases offCode_cases h with ⟨h6, hc⟩ | ⟨b, hb1, hb2, hlo, hhi, hc⟩ | ⟨hlo, hhi, hc⟩ | ⟨hlo, hc⟩
  · rcases Nat.lt_or_ge toff 32 with hlt | hge
    · exact leaf 0 3 0 6 0 5 (by decide) rfl rfl hc rfl (by omega) (by omega) (by omega)
    · exact leaf 1 3 0 6 32 5 (by decide) rfl rfl hc rfl (by omega) (by omega) (by omega)
  · have hb : b = 7 ∨ b = 8 ∨ b = 9 ∨ b = 10 ∨ b = 11 ∨ b = 12 := by omega
    rcases hb with rfl | rfl | rfl | rfl | rfl | rfl
    · rcases Nat.lt_or_ge toff 96 with hlt | hge
      · exact leaf 2 3 1 6 64 5 (by decide) rfl rfl hc rfl (by omega) (by omega) (by omega)
      · exact leaf 3 3 1 6 96 5 (by decide) rfl rfl hc rfl (by omega) (by omega) (by omega)
    · rcases Nat.lt_or_ge toff 192 with hlt | hge
      · exact leaf 4 3 2 7 128 6 (by decide) rfl rfl hc rfl (by omega) (by omega) (by omega)
      · exact leaf 5 3 2 7 192 6 (by decide) rfl rfl hc rfl (by omega) (by omega) (by omega)
    · rcases Nat.lt_or_ge toff 384 with hlt | hge
      · exact leaf 6 3 3 8 256 7 (by decide) rfl rfl hc rfl (by omega) (by omega) (by omega)
      · exact leaf 7 3 3 8 384 7 (by decide) rfl rfl hc rfl (by omega) (by omega) (by omega)
    · rcases Nat.lt_or_ge toff 768 with hlt | hge
      · exact leaf 8 3 4 9 512 8 (by decide) rfl rfl hc rfl (by omega) (by omega) (by omega)
      · exact leaf 9 3 4 9 768 8 (by decide) rfl rfl hc rfl (by omega) (by omega) (by omega)
    · rcases Nat.lt_or_ge toff 1536 with hlt | hge
      · exact leaf 10 3 5 10 1024 9 (by decide) rfl rfl hc rfl (by omega) (by omega) (by omega)
      · exact leaf 11 3 5 10 1536 9 (by decide) rfl rfl hc rfl (by omega) (by omega) (by omega)
    · rcases Nat.lt_or_ge toff 3072 with hlt | hge
      · exact leaf 12 3 6 11 2048 10 (by decide) rfl rfl hc rfl (by omega) (by omega) (by omega)
      · exact leaf 13 3 6 11 3072 10 (by decide) rfl rfl hc rfl (by omega) (by omega) (by omega)
  · exact leaf 14 4 14 12 4096 12 (by decide) rfl rfl hc rfl (by omega) (by omega) (by omega)
  · exact leaf 15 4 15 13 8192 13 (by decide) rfl rfl hc rfl (by omega) (by omega) (by omega)

/-- The rows of the tables leave the low bits free. -/
theorem offBase_or (hi : i < 16) (hx : x < 2 ^ offBits.getD i 0) :
    offBase.getD i 0 ||| x = offBase.getD i 0 + x := by
  have : ∀ i < 16, (offBase.getD i 0 >>> offBits.getD i 0) <<< offBits.getD i 0 =
      offBase.getD i 0 := by decide
  rw [← this i hi, Nat.shiftLeft_add_eq_or_of_lt hx]

/-- **An offset is read back.** -/
theorem getOff_spec (htoff : toff < whackMaxOff)
    (h : u.Feeds (bitsOf (offCode toff).1 (offCode toff).2.1 ++
      (bitsOf (offCode toff).2.2 (toff % 2 ^ (offCode toff).2.2) ++ b))) (hn : 17 ≤ u.uwnbits) :
    u.getOff.1 = toff + 1 ∧ u.getOff.2.Feeds b ∧ u.getOff.2.out = u.out ∧
      u.getOff.2.lithist = u.lithist := by
  obtain ⟨i, hi, hlo, hhi, hwidth, hcode⟩ := offCode_row htoff
  obtain ⟨hclass, h17, h9⟩ := offCode_lt htoff
  have hn32 := h.2.2
  generalize offCode toff = kc at h hwidth hcode hclass h17 h9
  obtain ⟨a, p, k⟩ := kc
  dsimp only at h hwidth hcode hclass h17 h9
  generalize hbits : offBits.getD i 0 = bits at hhi hwidth hcode
  generalize hbase : offBase.getD i 0 = base at hlo hhi hcode
  -- class and low bits are one code of `bits + 4` bits, the number of the row on top
  have hlow : toff % 2 ^ k < 2 ^ k := Nat.mod_lt _ (by positivity)
  have hjoin : bitsOf a p ++ bitsOf k (toff % 2 ^ k) = bitsOf (a + k)
    (p * 2 ^ k + toff % 2 ^ k) := by
    rw [bitsOf_add, ← Nat.shiftLeft_eq, Nat.shiftLeft_add_eq_or_of_lt hlow]
    congr 1
    · congr 1
      rw [← Nat.shiftLeft_add_eq_or_of_lt hlow, Nat.shiftLeft_eq, Nat.shiftRight_eq_div_pow,
        Nat.mul_comm, Nat.mul_add_div (by positivity), Nat.div_eq_of_lt hlow, Nat.add_zero]
    · refine bitsOf_congr fun j hj => ?_
      simp [Nat.testBit_or, Nat.testBit_shiftLeft, hj]
  rw [← append_assoc, hjoin, hcode, hwidth] at h
  have hsub : toff - base < 2 ^ bits := by omega
  have hlt : i * 2 ^ bits + (toff - base) < 2 ^ (bits + 4) := by
    rw [Nat.pow_add, Nat.mul_comm (2 ^ bits)]
    have : (i + 1) * 2 ^ bits ≤ 2 ^ 4 * 2 ^ bits := Nat.mul_le_mul_right _ (by omega)
    rw [Nat.succ_mul] at this
    omega
  obtain ⟨hval, hfeeds⟩ := take_feeds h hlt (by omega)
  have hrow : field u.uwbits (u.uwnbits - 4) 0xf = i := by
    have h4 : field u.uwbits (u.uwnbits - 4) 0xf = u.uwbits.toNat >>> (u.uwnbits - 4) % 2 ^ 4 :=
      field_eq (k := 4) (by omega) (by omega)
    rw [h4, top_eq 4 (by omega) (by omega) hval, Nat.add_sub_cancel, Nat.shiftRight_eq_div_pow,
      Nat.mul_comm, Nat.mul_add_div (by positivity), Nat.div_eq_of_lt hsub, Nat.add_zero]
  have hrest : field u.uwbits (u.uwnbits - (bits + 4)) (1 <<< bits - 1) = toff - base := by
    have hb : field u.uwbits (u.uwnbits - (bits + 4)) (2 ^ bits - 1) =
        u.uwbits.toNat >>> (u.uwnbits - (bits + 4)) % 2 ^ bits :=
      field_eq (by omega) (by omega)
    rw [Nat.one_shiftLeft, hb, bottom_eq bits (by omega) hval, Nat.mul_comm, Nat.mul_add_mod,
      Nat.mod_eq_of_lt hsub]
  have hnext : u.uwnbits - 4 - bits = u.uwnbits - (bits + 4) := by omega
  have hor := offBase_or (x := toff - base) hi (by rw [hbits]; exact hsub)
  rw [hbase] at hor
  simp only [getOff, hrow, hbits, hbase, hnext, hrest, hor]
  exact ⟨by omega, hfeeds, trivial, trivial⟩

/-! ### Runs -/

variable {ndst : ℕ}

/-- **A step of the loop** reads the code of one token back and applies the token. -/
theorem step_spec {t : Token UInt8} (h : u.Feeds (tokBits u.lithist t ++ b)) (ht : Codable t)
    (hfits : t.Fits u.out) (hroom : (t.apply u.out).length ≤ ndst) :
    ∃ u', u.step ndst = .ok u' ∧ u'.Feeds b ∧ u'.out = t.apply u.out ∧
      u'.lithist = tokHist u.lithist t := by
  obtain ⟨hf, hn, hout, hhist⟩ := refill_feeds h
  rw [← hhist] at hf
  rw [← hout] at hfits hroom ⊢
  rw [← hhist]
  simp only [step]
  generalize u.refill = r at hf hn hfits hroom ⊢
  cases t with
  | lit c =>
    obtain ⟨hval, hlit, hfeeds⟩ := literal_spec hf hn
    have hlt : ¬r.out.length ≥ ndst := by
      rw [Token.apply, length_append, length_singleton] at hroom
      omega
    rw [if_pos hval, if_neg hlt, hlit]
    exact ⟨_, rfl, hfeeds, rfl, rfl⟩
  | copy len off =>
    obtain ⟨hmin, hmax, hpos, hle⟩ := ht
    rw [tokBits, append_assoc, append_assoc] at hf
    obtain ⟨hval, u₁, hlen, hf₁, hn₁, hout₁, hhist₁⟩ := getLen_spec (by omega) hf hn
    obtain ⟨hoff, hf₂, hout₂, hhist₂⟩ := getOff_spec (by omega) hf₁ hn₁
    rw [Nat.sub_add_cancel hpos] at hoff
    rw [Nat.sub_add_cancel hmin] at hlen
    have hback : ¬off > r.out.length := Nat.not_lt.2 hfits.2
    have hfit : ¬r.out.length + len > ndst := by
      rw [Token.apply, length_copyBack len hfits.1 hfits.2] at hroom
      omega
    rw [if_neg hval, hlen]
    simp only [hoff, hout₂, hout₁, if_neg hback, if_neg hfit]
    exact ⟨_, rfl, hf₂, rfl, hhist₂.trans hhist₁⟩

variable {ts : List (Token UInt8)}

/-- A stream has no more tokens than its expansion has elements. -/
theorem length_le_expand {out : List UInt8} (hc : ∀ t ∈ ts, Codable t) (hf : FitsFrom out ts) :
    out.length + ts.length ≤ (ts.foldl Token.apply out).length := by
  induction ts generalizing out with
  | nil => exact le_rfl
  | cons t ts ih =>
    have hstep : out.length + 1 ≤ (t.apply out).length := by
      cases t with
      | lit c => simp [Token.apply]
      | copy len off =>
        obtain ⟨hmin, -⟩ := hc _ (mem_cons_self ..)
        have hmin' : minMatch = 3 := rfl
        rw [Token.apply, length_copyBack len hf.1.1 hf.1.2]
        omega
    have := ih (fun t ht => hc t (mem_cons_of_mem _ ht)) hf.2
    rw [foldl_cons, length_cons]
    omega

/-- **The loop of `unwhack`** applies the tokens whose codes it is fed, and stops in the
padding. -/
theorem loop_spec {pad : List Bool} (h : u.Feeds (encode u.lithist ts ++ pad))
    (hpad : pad.length < 8) (hc : ∀ t ∈ ts, Codable t) (hf : FitsFrom u.out ts)
    (hroom : (ts.foldl Token.apply u.out).length ≤ ndst) (hk : ts.length < k) :
    ∃ u', loop ndst k u = .ok u' ∧ u'.out = ts.foldl Token.apply u.out ∧
      u'.overbits ≤ u'.uwnbits := by
  have hmin : minDecode = 8 := rfl
  induction ts generalizing u k with
  | nil =>
    obtain ⟨⟨z, hz, hs⟩, hover, -⟩ := h
    obtain _ | k := k
    · exact absurd hk (by simp)
    have hlen := congrArg List.length hs
    simp only [stream, encode, nil_append, length_append, length_bitsOf, length_bytesBits] at hlen
    -- a byte of input that is left would be more than the padding
    have hsrc : u.src = [] := by
      rcases hover with hover | hover
      · exact length_eq_zero_iff.1 (by omega)
      · exact hover
    rw [hsrc, length_nil] at hlen
    have hstop : ¬(u.src ≠ [] ∨ u.uwnbits ≥ u.overbits + minDecode) := by
      rw [hsrc]
      simp only [ne_eq, not_true_eq_false, false_or]
      omega
    rw [loop, if_neg hstop]
    exact ⟨u, rfl, rfl, by omega⟩
  | cons t ts ih =>
    obtain _ | k := k
    · exact absurd hk (by simp)
    have ht := hc t (mem_cons_self ..)
    have hgo : u.src ≠ [] ∨ u.uwnbits ≥ u.overbits + minDecode := by
      by_cases hsrc : u.src = []
      · obtain ⟨⟨z, hz, hs⟩, -⟩ := h
        have hlen := congrArg List.length hs
        have h8 := eight_le_length_tokBits u.lithist ht
        simp only [stream, encode, length_append, length_bitsOf, hsrc, bytesBits_nil,
          length_nil] at hlen
        exact .inr (by omega)
      · exact .inl hsrc
    rw [encode, append_assoc] at h
    have hle := length_le_foldl_apply hf.2
    obtain ⟨u₁, hstep, hf₁, hout, hhist⟩ := step_spec h ht hf.1 (le_trans hle hroom)
    rw [← hhist] at hf₁
    rw [length_cons] at hk
    obtain ⟨u₂, hloop, hout₂, hover⟩ := ih (k := k) hf₁ (fun t ht => hc t (mem_cons_of_mem _ ht))
      (by rw [hout]; exact hf.2) (by rw [hout]; exact hroom) (by omega)
    rw [loop, if_pos hgo, hstep]
    exact ⟨u₂, hloop, by rw [hout₂, hout, foldl_cons], hover⟩

end Unwhack

/-- **Codes of tokens** with less than a byte of padding are read back as what the tokens expand
to, when there is room for it. -/
theorem unwhack_of_encode {ts : List (Token UInt8)} {pad : List Bool} {r : List UInt8} {n : ℕ}
    (hc : ∀ t ∈ ts, Codable t) (hfits : FitsFrom [] ts) (hroom : (expand ts).length ≤ n)
    (hbits : bytesBits r = encode (~~~0) ts ++ pad) (hpad : pad.length < 8) :
    unwhack n r = .ok (expand ts) := by
  have hfeeds : Unwhack.Feeds ⟨r, 0, 0, 0, [], ~~~0⟩ (encode (~~~0) ts ++ pad) :=
    ⟨⟨[], rfl, by rw [Unwhack.stream, List.append_nil, ← hbits]; rfl⟩, .inl rfl, by simp⟩
  have hcount := Unwhack.length_le_expand hc hfits
  rw [List.length_nil, Nat.zero_add] at hcount
  obtain ⟨u, hloop, hout, hover⟩ := Unwhack.loop_spec (k := n + 1) hfeeds hpad hc hfits hroom
    (Nat.lt_succ_of_le (hcount.trans hroom))
  rw [unwhack, hloop]
  simp only [if_neg (Nat.not_lt.2 hover), hout]
  rfl

/-- **Compression is undone by decompression**: what `whackblock` writes for a block of at
most `vtMaxLumpSize` bytes is no longer than the block, and `unwhack` returns the block
from it. -/
theorem unwhack_whackBlock {compressBlocks : Bool} {src r : List UInt8}
    (hmax : src.length ≤ vtMaxLumpSize)
    (h : whackBlock compressBlocks src = some r) :
    r.length ≤ src.length ∧ unwhack src.length r = .ok src := by
  obtain ⟨hlen, ts, pad, rfl, hfits, hc, hbits, hpad⟩ :=
    whack_eq_some (hmax.trans_lt (by decide)) h
  exact ⟨hlen, unwhack_of_encode hc hfits le_rfl hbits hpad⟩

/-- Eight zeros are compressed to three bytes. -/
theorem unwhack_whackBlock_zeros :
    ∃ r, whackBlock true [0, 0, 0, 0, 0, 0, 0, 0] = some r ∧ r.length ≤ 8 ∧
      unwhack 8 r = .ok [0, 0, 0, 0, 0, 0, 0, 0] := by
  have h : whackBlock true [0, 0, 0, 0, 0, 0, 0, 0] = some [0, 120, 0] := by decide
  obtain ⟨hlen, hback⟩ := unwhack_whackBlock (by decide) h
  exact ⟨_, h, hlen, hback⟩

end Venti

end Plan9
