import Mathlib.Data.List.GetD
import Plan9.Lib.BitStream
import Plan9.Lib.Lz77
import Plan9.Venti.Dat

/-!
# Block compression

`whack.c` compresses a block in one pass: at each byte it looks the next three up in
a hash table of earlier positions, follows a chain of them for the longest match, and
writes a literal or a length and an offset. The times in the table have sixteen bits
and start at `2 * whackMaxOff`; the codes go through a 32-bit accumulator.

* `Plan9.Venti.whackMatch_sound` – what the search returns has been compared, and lies
  within the block;
* `Plan9.Venti.Whack.step_inv` – a step of the loop writes the code of one token;
* `Plan9.Venti.whack_eq_some` – the bytes of a compressed block are the codes of
  tokens that expand to the block, and less than a byte of padding.
-/

namespace Plan9

namespace Venti

open Lib List Option

/-! ### Constants -/

/-- `WhackMaxOff`: the largest offset. -/
def whackMaxOff : ℕ := 16 * 1024

/-- `HashLog`. -/
def hashLog : ℕ := 14

/-- `HashMask`. -/
def hashMask : ℕ := 2 ^ hashLog - 1

/-- `MinMatch`: the shortest match. -/
def minMatch : ℕ := 3

/-- `MaxFastLen`: the lengths whose codes are in a table. -/
def maxFastLen : ℕ := 9

/-- `BigLenCode`: the least code of the other lengths. -/
def bigLenCode : ℕ := 0x1f4

/-- `BigLenBits`. -/
def bigLenBits : ℕ := 9

/-- `BigLenBase`: how many lengths have a code of `bigLenBits` bits. -/
def bigLenBase : ℕ := 4

/-- `MinOffBits`. -/
def minOffBits : ℕ := 6

/-- `MaxOffBits`. -/
def maxOffBits : ℕ := minOffBits + 8

/-- `MaxLen`: the longest match with a code of 24 bits. -/
def maxLen : ℕ := 2051

/-- The table `lentab`: width and code of the short lengths. -/
def lenTab : List (ℕ × ℕ) :=
  [(2, 0x2), (3, 0x6), (5, 0x1c), (5, 0x1d), (6, 0x3c), (7, 0x7a), (7, 0x7b), (8, 0xf8),
    (8, 0xf9)]

/-! ### Codes -/

/-- The literal history: a bit for every literal, set if it is not printable. -/
def nextHist (lithist : UInt32) (c : UInt8) : UInt32 :=
  (lithist <<< 1) ||| (if c < 32 then 1 else 0) ||| (if c > 127 then 1 else 0)

/-- Width and code of a literal, in the history that ends with it. -/
def litCode (lithist : UInt32) (c : UInt8) : ℕ × ℕ :=
  if lithist &&& 0x1e ≠ 0 then (9, c.toNat)
  else if lithist &&& 1 ≠ 0 then
    let toff := (c.toNat + 64) % 256
    if toff < 96 then (10, toff) else (11, toff)
  else (8, c.toNat)

/-- The loop that finds width and code of a long length: every width has twice or as
many codes as the one before. The first argument bounds the rounds. -/
def bigLenLoop : ℕ → ℕ → ℕ → ℕ → ℕ → ℕ × ℕ
  | 0, len, code, bits, _ => (bits, code + len)
  | k + 1, len, code, bits, use =>
    if len ≥ use then
      bigLenLoop k (len - use) ((code + use) <<< 1) (bits + 1) (use <<< ((bits &&& 1) ^^^ 1))
    else (bits, code + len)

/-- Width and code of the length of a match, less `minMatch`. -/
def lenCode (len : ℕ) : ℕ × ℕ :=
  if len < maxFastLen then lenTab.getD len (0, 0)
  else bigLenLoop (len - maxFastLen) (len - maxFastLen) bigLenCode bigLenBits bigLenBase

/-- The loop that counts the bits of an offset; the first argument bounds the rounds. -/
def offBitsLoop (toff : ℕ) : ℕ → ℕ → ℕ
  | 0, bits => bits
  | k + 1, bits => if toff ≥ 1 <<< bits then offBitsLoop toff k (bits + 1) else bits

/-- Width and code of the class of an offset, and how many of its bits follow. -/
def offCode (toff : ℕ) : ℕ × ℕ × ℕ :=
  let bits := offBitsLoop toff toff minOffBits
  if bits < maxOffBits - 1 then
    (3, bits - minOffBits, if bits ≠ minOffBits then bits - 1 else bits)
  else (4, 0xe ||| (bits - (maxOffBits - 1)), bits - 1)

/-! ### The output -/

/-- What has been written, and the accumulator: the lowest `wnbits` bits of `wbits` are
still to be written. -/
structure Out where
  dst : List UInt8
  wbits : UInt32
  wnbits : ℕ

namespace Out

/-- Append a code to the accumulator. -/
def put (o : Out) (bits code : ℕ) : Out :=
  { o with
    wbits := (o.wbits <<< UInt32.ofNat bits) ||| UInt32.ofNat code
    wnbits := o.wnbits + bits }

/-- The loop that writes the whole bytes of the accumulator, unless `wdmax` bytes have
been written. The first argument bounds the rounds. -/
def flushLoop (wdmax : ℕ) : ℕ → Out → Option Out
  | 0, o => some o
  | k + 1, o =>
    if o.wnbits ≥ 8 then
      if o.dst.length ≥ wdmax then none
      else
        flushLoop wdmax k
          { o with
            dst := o.dst ++ [(o.wbits >>> UInt32.ofNat (o.wnbits - 8)).toUInt8]
            wnbits := o.wnbits - 8 }
    else some o

/-- Write the whole bytes of the accumulator. -/
def flush (wdmax : ℕ) (o : Out) : Option Out := flushLoop wdmax o.wnbits o

/-- Put the length of a match; after a long one the accumulator is written out. -/
def putLen (wdmax len : ℕ) (o : Out) : Option Out :=
  let code := lenCode len
  if len < maxFastLen then some (o.put code.1 code.2)
  else (o.put code.1 code.2).flush wdmax

/-- Put an offset less one: its class, then its lowest bits. -/
def putOff (toff : ℕ) (o : Out) : Out :=
  let code := offCode toff
  (o.put code.1 code.2.1).put code.2.2 (toff % 2 ^ code.2.2)

end Out

/-! ### The dictionary -/

/-- `hashit`, in 32 bits. -/
def hashIt (c : UInt32) : ℕ :=
  ((((c &&& 0xffffff) * 0x6b43a9b5) >>> UInt32.ofNat (32 - hashLog)) &&&
    UInt32.ofNat hashMask).toNat

/-- The loop that extends a match of which three bytes have been compared: the position
`s` where it ends, at most `k` bytes on. -/
def matchRun (src : List UInt8) : ℕ → ℕ → ℕ → ℕ
  | 0, s, _ => s
  | k + 1, s, t => if src.getD s 0 ≠ src.getD t 0 then s else matchRun src k (s + 1) (t + 1)

/-- The length of the match with the bytes at `t`; an entry that cannot be longer than the
best so far is not followed. -/
def matchLen (src : List UInt8) (s esrc t bestlen : ℕ) : ℕ :=
  if src.getD s 0 = src.getD t 0 ∧ src.getD (s + 1) 0 = src.getD (t + 1) 0 ∧
      src.getD (s + 2) 0 = src.getD (t + 2) 0 ∧
      (bestlen = 0 ∨ esrc - s > bestlen ∧
        src.getD (s + bestlen) 0 = src.getD (t + bestlen) 0) then
    matchRun src (esrc - (s + 3)) (s + 3) (t + 3) - s
  else 0

/-- The loop of `whackmatch` over the chain that starts with the time `t`, for at most
`check` entries. -/
def whackMatchLoop (next : ℕ → UInt16) (maxCheck : ℕ) (src : List UInt8) (now : UInt16)
    (s esrc : ℕ) : ℕ → UInt16 → UInt16 → ℕ → ℕ → ℕ × ℕ
  | 0, _, _, bestoff, bestlen => (bestoff, bestlen)
  | check + 1, thn, last, bestoff, bestlen =>
    let off := now - thn
    if off ≤ last ∨ off > UInt16.ofNat whackMaxOff then (bestoff, bestlen)
    else
      let len := matchLen src s esrc (s - off.toNat) bestlen
      if len > bestlen then
        if len > maxCheck then (off.toNat, len)
        else
          whackMatchLoop next maxCheck src now s esrc check
            (next (thn.toNat % whackMaxOff)) off off.toNat len
      else
        whackMatchLoop next maxCheck src now s esrc check
          (next (thn.toNat % whackMaxOff)) off bestoff bestlen

/-- `whackmatch`: offset and length of the best match at `s`, the length 0 if there is
none. -/
def whackMatch (hash next : ℕ → UInt16) (maxCheck : ℕ) (src : List UInt8) (s h : ℕ)
    (now : UInt16) : ℕ × ℕ :=
  if src.length < s + minMatch then (0, 0)
  else
    let esrc := if s + maxLen < src.length then s + maxLen else src.length
    whackMatchLoop next maxCheck src now s esrc maxCheck (hash h) 0 0 0

/-! ### The compressor -/

/-- The variables of the loop of `whack`, with the tables of `struct Whack`. The
counters that only go into the statistics are left out. -/
structure Whack where
  s : ℕ
  now : UInt16
  hash : ℕ → UInt16
  next : ℕ → UInt16
  cont : UInt32
  out : Out
  lithist : UInt32
  lits : ℕ
  half : ℕ

namespace Whack

/-- Enter the position `s` into the tables, if three bytes are left there, and go to the
next one. -/
def advance (src : List UInt8) (w : Whack) : Whack :=
  if w.s + minMatch ≤ src.length then
    { w with
      next := Function.update w.next (w.now.toNat % whackMaxOff) (w.hash (hashIt w.cont))
      hash := Function.update w.hash (hashIt w.cont) w.now
      cont :=
        if w.s + minMatch < src.length then
          (w.cont <<< 8) ||| (src.getD (w.s + minMatch) 0).toUInt32
        else w.cont
      now := w.now + 1
      s := w.s + 1 }
  else { w with now := w.now + 1, s := w.s + 1 }

/-- The loop that enters every position of a match. -/
def advanceBy (src : List UInt8) : ℕ → Whack → Whack
  | 0, w => w
  | k + 1, w => advanceBy src k (w.advance src)

/-- The branch of the loop that writes a literal. The last test gives a block up that
has not become shorter in its first half. -/
def literal (src : List UInt8) (w : Whack) : Option Whack :=
  let c := src.getD w.s 0
  let lithist := nextHist w.lithist c
  let code := litCode lithist c
  let w' := { w with
    out := w.out.put code.1 code.2
    lithist := lithist
    lits := w.lits + 1 }
  if w.s > w.half then
    if 4 * w.s < 5 * w'.lits then none
    else some (advance src { w' with half := src.length })
  else some (advance src w')

/-- The branch of the loop that writes a match. -/
def copy (src : List UInt8) (w : Whack) (toff len : ℕ) : Option Whack :=
  let len := if len > maxLen then maxLen else len
  match w.out.putLen src.length (len - minMatch) with
  | none => none
  | some out => some (advanceBy src len { w with out := out.putOff (toff - 1) })

/-- The body of the loop of `whack`. -/
def step (maxCheck : ℕ) (src : List UInt8) (w : Whack) : Option Whack :=
  let m := whackMatch w.hash w.next maxCheck src w.s (hashIt w.cont) w.now
  match w.out.flush src.length with
  | none => none
  | some out =>
    if m.2 < minMatch then literal src { w with out := out }
    else copy src { w with out := out } m.1 m.2

/-- The loop of `whack`; the first argument bounds the rounds. -/
def loop (maxCheck : ℕ) (src : List UInt8) : ℕ → Whack → Option Whack
  | 0, w => some w
  | k + 1, w =>
    if w.s < src.length then
      match step maxCheck src w with
      | none => none
      | some w' => loop maxCheck src k w'
    else some w

/-- The end of `whack`: pad the accumulator to whole bytes and write it. -/
def finish (wdmax : ℕ) (o : Out) : Option (List UInt8) :=
  let o := if o.wnbits % 8 ≠ 0 then o.put (8 - o.wnbits % 8) 0 else o
  (o.flush wdmax).map (·.dst)

end Whack

/-- `whackinit`: the number of chain entries to look at, for a level. -/
def thwMaxCheck (level : ℕ) : ℕ :=
  let c := 1 <<< level
  let c := c - c >>> 2
  if c < 2 then 2 else if c > 1024 then 1024 else c

/-- `whack` with tables as `whackinit` leaves them. `none` is the return value -1. -/
def whack (compressBlocks : Bool) (maxCheck : ℕ) (src : List UInt8) : Option (List UInt8) :=
  if !compressBlocks ∨ src.length < minMatch then none
  else
    let w : Whack := {
      s := 0
      now := UInt16.ofNat (2 * whackMaxOff)
      hash := fun _ => 0
      next := fun _ => 0
      cont := ((src.getD 0 0).toUInt32 <<< 16) ||| ((src.getD 1 0).toUInt32 <<< 8) |||
        (src.getD 2 0).toUInt32
      out := ⟨[], 0, 0⟩
      lithist := ~~~0
      lits := 0
      half := src.length >>> 1 }
    match w.loop maxCheck src src.length with
    | none => none
    | some w => Whack.finish src.length w.out

/-- `whackblock`: compress at level 6. The flag is the global `compressblocks`. -/
def whackBlock (compressBlocks : Bool) (src : List UInt8) : Option (List UInt8) :=
  whack compressBlocks (thwMaxCheck 6) src

/-! ### The length code -/

/-- The code of a length, found from a stage on: at the stage of width `bits`, `use`
lengths have the codes from `code` on. -/
inductive LenCode : ℕ → ℕ → ℕ → ℕ → ℕ → ℕ → Prop
  | stop {len code bits use : ℕ} (h : len < use) : LenCode len code bits use bits (code + len)
  | more {len code bits use b v : ℕ} (h : use ≤ len)
      (hmore : LenCode (len - use) ((code + use) <<< 1) (bits + 1)
        (use <<< ((bits &&& 1) ^^^ 1)) b v) :
      LenCode len code bits use b v

/-- How the least code and the number of codes belong to a width: four times as many
codes, or three times as many, are still free. -/
def Stage (code bits use : ℕ) : Prop :=
  ∃ j, bits = 2 * j + 6 ∧ use = 2 ^ j ∧ code + 4 * 2 ^ j = 2 ^ (2 * j + 6) ∨
    bits = 2 * j + 7 ∧ use = 2 ^ (j + 1) ∧ code + 3 * 2 ^ (j + 1) = 2 ^ (2 * j + 7)

/-- The stage the decoder starts with. -/
theorem stage_six : Stage 0x3c 6 1 := ⟨0, .inl ⟨rfl, rfl, rfl⟩⟩

/-- The stage behind the table of the encoder. -/
theorem stage_nine : Stage bigLenCode bigLenBits bigLenBase := ⟨1, .inr ⟨rfl, rfl, rfl⟩⟩

variable {code use : ℕ}

theorem Stage.use_pos {bits : ℕ} (h : Stage code bits use) : 0 < use := by
  obtain ⟨j, ⟨_, rfl, _⟩ | ⟨_, rfl, _⟩⟩ := h <;> positivity

theorem shift_even {bits : ℕ} (h : bits % 2 = 0) : (bits &&& 1) ^^^ 1 = 1 := by
  rw [Nat.and_one_is_mod, h]
  rfl

theorem shift_odd {bits : ℕ} (h : bits % 2 = 1) : (bits &&& 1) ^^^ 1 = 0 := by
  rw [Nat.and_one_is_mod, h]
  rfl

theorem Stage.next {bits : ℕ} (h : Stage code bits use) :
    Stage ((code + use) <<< 1) (bits + 1) (use <<< ((bits &&& 1) ^^^ 1)) := by
  obtain ⟨j, ⟨rfl, rfl, hcode⟩ | ⟨rfl, rfl, hcode⟩⟩ := h
  · refine ⟨j, .inr ⟨rfl, ?_, ?_⟩⟩
    · rw [shift_even (by omega), Nat.shiftLeft_eq, pow_one, pow_succ]
    · rw [Nat.shiftLeft_eq, pow_one, pow_succ, pow_succ 2 (2 * j + 6), ← hcode]
      ring
  · refine ⟨j + 1, .inl ⟨by ring, ?_, ?_⟩⟩
    · rw [shift_odd (by omega), Nat.shiftLeft_zero]
    · rw [Nat.shiftLeft_eq, pow_one, show 2 * (j + 1) + 6 = 2 * j + 7 + 1 by ring,
        pow_succ 2 (2 * j + 7), ← hcode]
      ring

variable {k len : ℕ}

theorem bigLenLoop_spec {bits : ℕ} (hs : Stage code bits use) (hk : len ≤ k) :
    LenCode len code bits use (bigLenLoop k len code bits use).1
      (bigLenLoop k len code bits use).2 := by
  have huse := hs.use_pos
  induction k generalizing len code bits use with
  | zero => exact .stop (by omega)
  | succ k ih =>
    rw [bigLenLoop]
    by_cases h : len ≥ use
    · rw [if_pos h]
      exact .more h (ih hs.next (by omega) hs.next.use_pos)
    · rw [if_neg h]
      exact .stop (by omega)

variable {b v : ℕ}

/-- The bits of the stage are a prefix of those of the code, and no less than the least
code of the stage. -/
theorem LenCode.le {bits : ℕ} (h : LenCode len code bits use b v) :
    bits ≤ b ∧ code ≤ v >>> (b - bits) := by
  induction h with
  | stop h => simp
  | @more len code bits use b v h _ ih =>
    obtain ⟨hb, hcode⟩ := ih
    refine ⟨by omega, ?_⟩
    rw [show b - bits = b - (bits + 1) + 1 by omega, Nat.shiftRight_add]
    rw [Nat.shiftLeft_eq] at hcode
    rw [Nat.shiftRight_eq_div_pow _ 1]
    omega

theorem LenCode.lt {bits : ℕ} (h : LenCode len code bits use b v) (hs : Stage code bits use) :
    v < 2 ^ b := by
  induction h with
  | stop h =>
    obtain ⟨j, ⟨rfl, rfl, hcode⟩ | ⟨rfl, rfl, hcode⟩⟩ := hs
    · omega
    · omega
  | more h _ ih => exact ih hs.next

/-- A potential that no stage increases: it keeps long lengths within 24 bits. -/
theorem LenCode.bits_le {bits : ℕ} (h : LenCode len code bits use b v) (hs : Stage code bits use)
    (hlen : len + (3 - bits % 2) * use ≤ 2047) : b ≤ 24 := by
  induction h with
  | @stop len code bits use h =>
    have hpow : ∀ j, 2 ^ j ≤ 1023 → j ≤ 9 := by
      intro j hj
      by_contra hlt
      have := Nat.pow_le_pow_right (show 0 < 2 by omega) (show 10 ≤ j by omega)
      omega
    obtain ⟨j, ⟨rfl, rfl, hcode⟩ | ⟨rfl, rfl, hcode⟩⟩ := hs
    · rw [show 3 - (2 * j + 6) % 2 = 3 by omega] at hlen
      have := hpow j (by omega)
      omega
    · rw [show 3 - (2 * j + 7) % 2 = 2 by omega] at hlen
      have := hpow (j + 1) (by omega)
      omega
  | @more len code bits use b v h _ ih =>
    refine ih hs.next ?_
    rcases Nat.mod_two_eq_zero_or_one bits with hb | hb
    · rw [shift_even hb, Nat.shiftLeft_eq, show (bits + 1) % 2 = 1 by omega]
      rw [hb] at hlen
      omega
    · rw [shift_odd hb, Nat.shiftLeft_zero, show (bits + 1) % 2 = 0 by omega]
      rw [hb] at hlen
      omega

/-- The long lengths of the encoder are lengths of its own first stage. -/
theorem lenCode_big (h : maxFastLen ≤ len) :
    LenCode (len - maxFastLen) bigLenCode bigLenBits bigLenBase (lenCode len).1
      (lenCode len).2 := by
  rw [lenCode, if_neg (Nat.not_lt.2 h)]
  exact bigLenLoop_spec stage_nine le_rfl

/-- **One code for both tables**: from length 4 on, the codes of the encoder – the end of
its table and its loop – are those of the stages from six bits on. -/
theorem lenCode_spec (h : 4 ≤ len) :
    LenCode (len - 4) 0x3c 6 1 (lenCode len).1 (lenCode len).2 := by
  rcases Nat.lt_or_ge len maxFastLen with hlt | hge
  · have hlen : len = 4 ∨ len = 5 ∨ len = 6 ∨ len = 7 ∨ len = 8 := by
      have : maxFastLen = 9 := rfl
      omega
    rcases hlen with rfl | rfl | rfl | rfl | rfl
    · exact .stop (by decide)
    · exact .more (by decide) (.stop (by decide))
    · exact .more (by decide) (.stop (by decide))
    · exact .more (by decide) (.more (by decide) (.stop (by decide)))
    · exact .more (by decide) (.more (by decide) (.stop (by decide)))
  · have hbig := lenCode_big hge
    have hmax : maxFastLen = 9 := rfl
    refine .more (by omega) (.more ?_ (.more ?_ ?_))
    · change 2 ≤ len - 4 - 1
      omega
    · change 2 ≤ len - 4 - 1 - 2
      omega
    · have hsub : len - 4 - 1 - 2 - 2 = len - maxFastLen := by omega
      change LenCode (len - 4 - 1 - 2 - 2) 0x1f4 9 4 _ _
      rw [hsub]
      exact hbig

theorem lenCode_lt (len : ℕ) : (lenCode len).2 < 2 ^ (lenCode len).1 := by
  rcases Nat.lt_or_ge len 4 with h | h
  · have : ∀ l < 4, (lenCode l).2 < 2 ^ (lenCode l).1 := by decide
    exact this len h
  · exact (lenCode_spec h).lt stage_six

theorem lenCode_bits_le (h : len + minMatch ≤ maxLen) : (lenCode len).1 ≤ 24 := by
  have hmax : maxLen = 2051 ∧ minMatch = 3 := ⟨rfl, rfl⟩
  rcases Nat.lt_or_ge len 4 with hlt | hge
  · have : ∀ l < 4, (lenCode l).1 ≤ 24 := by decide
    exact this len hlt
  · exact (lenCode_spec hge).bits_le stage_six (by omega)

theorem lenCode_bits_fast (h : len < maxFastLen) : (lenCode len).1 ≤ 8 := by
  have : ∀ l < maxFastLen, (lenCode l).1 ≤ 8 := by decide
  exact this len h

/-! ### The other codes -/

theorem litCode_lt (hist : UInt32) (c : UInt8) :
    (litCode hist c).2 < 2 ^ (litCode hist c).1 ∧ 8 ≤ (litCode hist c).1 ∧
      (litCode hist c).1 ≤ 11 := by
  have hc := c.toNat_lt
  simp only [litCode]
  split
  · exact ⟨by change c.toNat < 2 ^ 9; omega, by omega⟩
  · split
    · split
      · exact ⟨by change _ < 2 ^ 10; omega, by omega⟩
      · exact ⟨by change _ < 2 ^ 11; omega, by omega⟩
    · exact ⟨hc, by omega⟩

variable {toff : ℕ}

theorem offBitsLoop_spec (k bits : ℕ) (hk : toff < 2 ^ (bits + k)) :
    bits ≤ offBitsLoop toff k bits ∧ toff < 2 ^ offBitsLoop toff k bits ∧
      (bits < offBitsLoop toff k bits → 2 ^ (offBitsLoop toff k bits - 1) ≤ toff) := by
  induction k generalizing bits with
  | zero => exact ⟨le_rfl, hk, fun h => absurd h (lt_irrefl _)⟩
  | succ k ih =>
    rw [offBitsLoop]
    by_cases h : toff ≥ 1 <<< bits
    · rw [if_pos h]
      obtain ⟨h1, h2, h3⟩ := ih (bits + 1) (by rwa [Nat.add_right_comm, Nat.add_assoc])
      refine ⟨by omega, h2, fun _ => ?_⟩
      rcases Nat.lt_or_ge (bits + 1) (offBitsLoop toff k (bits + 1)) with hlt | hge
      · exact h3 hlt
      · rw [show offBitsLoop toff k (bits + 1) - 1 = bits by omega]
        rwa [Nat.one_shiftLeft] at h
    · rw [if_neg h]
      rw [Nat.one_shiftLeft] at h
      exact ⟨le_rfl, by omega, fun h => absurd h (lt_irrefl _)⟩

/-- **The codes of the offsets**, by the number of bits of an offset: a class of three or
four bits, and the bits below the highest. -/
theorem offCode_cases (h : toff < whackMaxOff) : (toff < 2 ^ 6 ∧ offCode toff = (3, 0, 6)) ∨
      (∃ b, 7 ≤ b ∧ b ≤ 12 ∧ 2 ^ (b - 1) ≤ toff ∧ toff < 2 ^ b ∧ offCode toff = (3, b - 6, b - 1)) ∨
      (2 ^ 12 ≤ toff ∧ toff < 2 ^ 13 ∧ offCode toff = (4, 0xe, 12)) ∨
      (2 ^ 13 ≤ toff ∧ offCode toff = (4, 0xf, 13)) := by
  have hfuel : toff < 2 ^ (minOffBits + toff) :=
    lt_of_lt_of_le Nat.lt_two_pow_self (Nat.pow_le_pow_right (by omega) (by omega))
  obtain ⟨h1, h2, h3⟩ := offBitsLoop_spec toff minOffBits hfuel
  have hmin : minOffBits = 6 := rfl
  have hmax : maxOffBits = 14 := rfl
  have hoff : whackMaxOff = 2 ^ 14 := rfl
  have hle : offBitsLoop toff toff minOffBits ≤ 14 := by
    by_contra hlt
    have := h3 (by omega)
    have := Nat.pow_le_pow_right (show 0 < 2 by omega)
      (show 14 ≤ offBitsLoop toff toff minOffBits - 1 by omega)
    omega
  simp only [offCode]
  generalize offBitsLoop toff toff minOffBits = b at h1 h2 h3 hle ⊢
  rw [hmin] at h1 h3 ⊢
  rw [hmax]
  have hb : b = 6 ∨ 7 ≤ b ∧ b ≤ 12 ∨ b = 13 ∨ b = 14 := by omega
  rcases hb with rfl | ⟨hb1, hb2⟩ | rfl | rfl
  · exact .inl ⟨h2, rfl⟩
  · refine .inr (.inl ⟨b, hb1, hb2, h3 (by omega), h2, ?_⟩)
    rw [if_pos (show b < 14 - 1 by omega), if_pos (show b ≠ 6 by omega)]
  · exact .inr (.inr (.inl ⟨h3 (by omega), h2, rfl⟩))
  · exact .inr (.inr (.inr ⟨h3 (by omega), rfl⟩))

theorem offCode_lt {toff : ℕ} (h : toff < whackMaxOff) :
    (offCode toff).2.1 < 2 ^ (offCode toff).1 ∧ (offCode toff).1 + (offCode toff).2.2 ≤ 17 ∧
      9 ≤ (offCode toff).1 + (offCode toff).2.2 := by
  rcases offCode_cases h with ⟨_, hc⟩ | ⟨b, hb1, hb2, _, _, hc⟩ | ⟨_, _, hc⟩ | ⟨_, hc⟩
  · simp [hc]
  · rw [hc]
    exact ⟨by change b - 6 < 8; omega, by change 3 + (b - 1) ≤ 17; omega,
      by change 9 ≤ 3 + (b - 1); omega⟩
  · simp [hc]
  · simp [hc]

/-! ### Tokens and their bits -/

/-- The bits of a token, in a literal history. -/
def tokBits (hist : UInt32) : Token UInt8 → List Bool
  | .lit c => bitsOf (litCode (nextHist hist c) c).1 (litCode (nextHist hist c) c).2
  | .copy len off =>
    bitsOf (lenCode (len - minMatch)).1 (lenCode (len - minMatch)).2 ++
      (bitsOf (offCode (off - 1)).1 (offCode (off - 1)).2.1 ++
        bitsOf (offCode (off - 1)).2.2 ((off - 1) % 2 ^ (offCode (off - 1)).2.2))

/-- The literal history behind a token. -/
def tokHist (hist : UInt32) : Token UInt8 → UInt32
  | .lit c => nextHist hist c
  | .copy _ _ => hist

/-- The bits of a stream of tokens. -/
def encode : UInt32 → List (Token UInt8) → List Bool
  | _, [] => []
  | hist, t :: ts => tokBits hist t ++ encode (tokHist hist t) ts

/-- The literal history behind a stream. -/
def histOf (hist : UInt32) (ts : List (Token UInt8)) : UInt32 := ts.foldl tokHist hist

/-- The tokens that have a code. -/
def Codable : Token UInt8 → Prop
  | .lit _ => True
  | .copy len off => minMatch ≤ len ∧ len ≤ maxLen ∧ 1 ≤ off ∧ off ≤ whackMaxOff

theorem encode_concat (hist : UInt32) (ts : List (Token UInt8)) (t : Token UInt8) :
    encode hist (ts ++ [t]) = encode hist ts ++ tokBits (histOf hist ts) t := by
  induction ts generalizing hist with
  | nil => simp [encode, histOf]
  | cons u ts ih =>
    rw [cons_append, encode, ih, encode, append_assoc]
    rfl

theorem histOf_concat (hist : UInt32) (ts : List (Token UInt8)) (t : Token UInt8) :
    histOf hist (ts ++ [t]) = tokHist (histOf hist ts) t := by
  simp [histOf]

/-- No token has a code of less than a byte. -/
theorem eight_le_length_tokBits (hist : UInt32) {t : Token UInt8} (ht : Codable t) :
    8 ≤ (tokBits hist t).length := by
  cases t with
  | lit c =>
    rw [tokBits, length_bitsOf]
    exact (litCode_lt _ c).2.1
  | copy len off =>
    obtain ⟨_, _, h1, h2⟩ := ht
    have := (@offCode_lt (off - 1) (by omega)).2.2
    simp only [tokBits, length_append, length_bitsOf]
    omega

/-! ### The output as a bit stream -/

variable {o : Out} {wdmax : ℕ}

namespace Out

/-- All bits that were put. -/
def bits (o : Out) : List Bool := bytesBits o.dst ++ bitsOf o.wnbits o.wbits.toNat

theorem bits_put {bits : ℕ} (hcode : code < 2 ^ bits) (hbits : bits < 32)
    (hroom : o.wnbits + bits ≤ 32) : (o.put bits code).bits = o.bits ++ bitsOf bits code := by
  have hc : (UInt32.ofNat code).toNat = code :=
    UInt32.toNat_ofNat_of_lt' (lt_of_lt_of_le hcode (Nat.pow_le_pow_right (by omega) hbits.le))
  have hpush := bitsOf_push o.wbits (c := UInt32.ofNat code) (by rwa [hc]) hbits hroom
  rw [hc] at hpush
  simp only [Out.bits, put]
  rw [hpush, append_assoc]

variable {o' : Out}

/-- What the loop that writes bytes keeps: the bits, and the bound on the bytes. -/
theorem flushLoop_spec (h : flushLoop wdmax k o = some o') (hroom : o.wnbits ≤ 32)
    (hk : o.wnbits < 8 * (k + 1)) :
    o'.bits = o.bits ∧ o'.wnbits < 8 ∧ (o.dst.length ≤ wdmax → o'.dst.length ≤ wdmax) := by
  induction k generalizing o with
  | zero =>
    obtain rfl : o = o' := some.inj h
    exact ⟨rfl, by omega, id⟩
  | succ k ih =>
    rw [flushLoop] at h
    by_cases h8 : o.wnbits ≥ 8
    · rw [if_pos h8] at h
      by_cases hmax : o.dst.length ≥ wdmax
      · rw [if_pos hmax] at h
        exact absurd h (by simp)
      · rw [if_neg hmax] at h
        obtain ⟨hbits, hlt, hdst⟩ := ih h (by dsimp only; omega) (by dsimp only; omega)
        refine ⟨?_, hlt, fun _ => hdst (by simp; omega)⟩
        have hout := bitsOf_shiftOut o.wbits (n := o.wnbits - 8) (by omega)
        rw [Nat.sub_add_cancel h8] at hout
        rw [hbits, Out.bits, Out.bits, bytesBits_concat, append_assoc, hout]
    · rw [if_neg h8] at h
      obtain rfl : o = o' := some.inj h
      exact ⟨rfl, by omega, id⟩

/-- **Writing out** keeps the bits, leaves less than a byte in the accumulator, and stays
within the block. -/
theorem flush_spec (h : o.flush wdmax = some o') (hroom : o.wnbits ≤ 32) :
    o'.bits = o.bits ∧ o'.wnbits < 8 ∧ (o.dst.length ≤ wdmax → o'.dst.length ≤ wdmax) :=
  flushLoop_spec h hroom (by omega)

theorem putLen_spec (h : o.putLen wdmax len = some o') (hroom : o.wnbits < 8)
    (hlen : len + minMatch ≤ maxLen) :
    o'.bits = o.bits ++ bitsOf (lenCode len).1 (lenCode len).2 ∧ o'.wnbits ≤ 15 ∧
      (o.dst.length ≤ wdmax → o'.dst.length ≤ wdmax) := by
  have h24 := lenCode_bits_le hlen
  have hput := bits_put (o := o) (lenCode_lt len) (by omega) (by omega)
  simp only [putLen] at h
  by_cases hfast : len < maxFastLen
  · rw [if_pos hfast] at h
    cases h
    have h8 := lenCode_bits_fast hfast
    exact ⟨hput, by change o.wnbits + (lenCode len).1 ≤ 15; omega, id⟩
  · rw [if_neg hfast] at h
    obtain ⟨hbits, hlt, hdst⟩ := flush_spec h (by change o.wnbits + (lenCode len).1 ≤ 32; omega)
    exact ⟨hbits.trans hput, by omega, hdst⟩

theorem putOff_spec (htoff : toff < whackMaxOff) (hroom : o.wnbits ≤ 15) :
    (o.putOff toff).bits = o.bits ++ (bitsOf (offCode toff).1 (offCode toff).2.1 ++
      bitsOf (offCode toff).2.2 (toff % 2 ^ (offCode toff).2.2)) ∧
      (o.putOff toff).wnbits ≤ 32 := by
  obtain ⟨hlt, h17, h9⟩ := offCode_lt htoff
  have hclass := bits_put (o := o) hlt (by omega) (by omega)
  have hlow := bits_put (o := o.put (offCode toff).1 (offCode toff).2.1)
    (Nat.mod_lt toff (by positivity : 2 ^ (offCode toff).2.2 > 0)) (by omega)
    (by change o.wnbits + (offCode toff).1 + (offCode toff).2.2 ≤ 32; omega)
  refine ⟨?_, by change o.wnbits + (offCode toff).1 + (offCode toff).2.2 ≤ 32; omega⟩
  rw [putOff, hlow, hclass, append_assoc]

end Out

/-! ### The dictionary names earlier positions -/

/-- A time in the tables at position `s`: of an earlier position, or the initial zero. -/
def Seen (s : ℕ) (t : UInt16) : Prop :=
  t = 0 ∨ ∃ q < s, t = UInt16.ofNat (2 * whackMaxOff + q)

/-- The tables at position `s`. -/
structure Chains (s : ℕ) (now : UInt16) (hash next : ℕ → UInt16) : Prop where
  now_eq : now = UInt16.ofNat (2 * whackMaxOff + s)
  hash_seen : ∀ h, Seen s (hash h)
  next_seen : ∀ i, Seen s (next i)

/-- A match that has been compared: `len` bytes at `s` are those `off` places back. -/
structure Matches (src : List UInt8) (s off len : ℕ) : Prop where
  min_le : minMatch ≤ len
  le_max : len ≤ maxLen
  off_pos : 1 ≤ off
  off_le : off ≤ whackMaxOff
  off_le_s : off ≤ s
  end_le : s + len ≤ src.length
  eq : ∀ j < len, src.getD (s + j) 0 = src.getD (s + j - off) 0

variable {s : ℕ}

/-- **The sixteen-bit times do not lie**: in a block, a difference of times that is a valid
offset reaches an earlier position of the block. -/
theorem off_le_of_seen {now t : UInt16} (hs : s < 2 ^ 16)
    (hnow : now = UInt16.ofNat (2 * whackMaxOff + s)) (ht : Seen s t)
    (hmax : (now - t).toNat ≤ whackMaxOff) : (now - t).toNat ≤ s := by
  have hoff : whackMaxOff = 16384 := rfl
  have hnow' : now.toNat = (32768 + s) % 65536 := by
    rw [hnow, UInt16.toNat_ofNat', hoff]
  rw [UInt16.toNat_sub] at hmax ⊢
  rw [hnow'] at hmax ⊢
  rcases ht with rfl | ⟨q, hq, rfl⟩
  · rw [UInt16.toNat_zero] at hmax ⊢
    omega
  · have hq' : (UInt16.ofNat (2 * whackMaxOff + q)).toNat = (32768 + q) % 65536 := by
      rw [UInt16.toNat_ofNat', hoff]
    rw [hq'] at hmax ⊢
    omega

theorem matchRun_spec (src : List UInt8) (k s t : ℕ) :
    s ≤ matchRun src k s t ∧ matchRun src k s t ≤ s + k ∧
      ∀ j < matchRun src k s t - s, src.getD (s + j) 0 = src.getD (t + j) 0 := by
  induction k generalizing s t with
  | zero => exact ⟨le_rfl, le_rfl, fun j hj => absurd hj (by simp [matchRun])⟩
  | succ k ih =>
    rw [matchRun]
    by_cases h : src.getD s 0 ≠ src.getD t 0
    · rw [if_pos h]
      exact ⟨le_rfl, by omega, fun j hj => by omega⟩
    · rw [if_neg h]
      obtain ⟨h1, h2, h3⟩ := ih (s + 1) (t + 1)
      refine ⟨by omega, by omega, fun j hj => ?_⟩
      rcases j with _ | j
      · exact not_not.1 h
      · rw [show s + (j + 1) = s + 1 + j by omega, show t + (j + 1) = t + 1 + j by omega]
        exact h3 j (by omega)

/-- A match that is longer than the best so far has been compared. -/
theorem matches_of_matchLen {src : List UInt8} {esrc off bestlen : ℕ} (hmin : s + minMatch ≤ esrc)
    (hmax : esrc ≤ s + maxLen) (hsrc : esrc ≤ src.length) (hpos : 1 ≤ off) (hle : off ≤ whackMaxOff)
    (hback : off ≤ s) (h : matchLen src s esrc (s - off) bestlen > bestlen) :
    Matches src s off (matchLen src s esrc (s - off) bestlen) := by
  have hmatch : minMatch = 3 := rfl
  generalize hlen : matchLen src s esrc (s - off) bestlen = len at h ⊢
  rw [matchLen] at hlen
  split at hlen
  · next h3 =>
    obtain ⟨h1, h2, h4⟩ := matchRun_spec src (esrc - (s + 3)) (s + 3) (s - off + 3)
    refine ⟨by omega, by omega, hpos, hle, hback, by omega, fun j hj => ?_⟩
    have hj3 : j = 0 ∨ j = 1 ∨ j = 2 ∨ 3 ≤ j := by omega
    rcases hj3 with rfl | rfl | rfl | hj3
    · exact h3.1
    · rw [h3.2.1]
      congr 1
      omega
    · rw [h3.2.2.1]
      congr 1
      omega
    · have := h4 (j - 3) (by omega)
      rw [show s + 3 + (j - 3) = s + j by omega,
        show s - off + 3 + (j - 3) = s + j - off by omega] at this
      exact this
  · omega

/-- The loop over a chain returns nothing or a match. -/
theorem whackMatchLoop_sound {next : ℕ → UInt16} {maxCheck : ℕ} {src : List UInt8}
    {now : UInt16} {s esrc : ℕ} (hs : s < 2 ^ 16)
    (hnow : now = UInt16.ofNat (2 * whackMaxOff + s)) (hnext : ∀ i, Seen s (next i))
    (hmin : s + minMatch ≤ esrc) (hmax : esrc ≤ s + maxLen) (hsrc : esrc ≤ src.length)
    (check : ℕ) {thn last : UInt16} {bestoff bestlen : ℕ} (hthn : Seen s thn)
    (hbest : bestlen = 0 ∨ Matches src s bestoff bestlen) :
    let m := whackMatchLoop next maxCheck src now s esrc check thn last bestoff bestlen
    m.2 = 0 ∨ Matches src s m.1 m.2 := by
  induction check generalizing thn last bestoff bestlen with
  | zero => exact hbest
  | succ check ih =>
    rw [whackMatchLoop]
    dsimp only
    split
    · exact hbest
    · next hoff =>
      rw [not_or, UInt16.not_le, UInt16.not_lt] at hoff
      have hpos : 1 ≤ (now - thn).toNat := by
        have := UInt16.lt_iff_toNat_lt.1 hoff.1
        omega
      have hle : (now - thn).toNat ≤ whackMaxOff := UInt16.le_iff_toNat_le.1 hoff.2
      have hback := off_le_of_seen hs hnow hthn hle
      split
      · next hgt =>
        have hm := matches_of_matchLen hmin hmax hsrc hpos hle hback hgt
        split
        · exact .inr hm
        · exact ih (hnext _) (.inr hm)
      · exact ih (hnext _) hbest

/-- **The search is sound**: what it returns is too short to be used, or a match. -/
theorem whackMatch_sound {hash next : ℕ → UInt16} {src : List UInt8} {s : ℕ} {now : UInt16}
    (maxCheck h : ℕ) (hc : Chains s now hash next) (hs : s < 2 ^ 16) :
    let m := whackMatch hash next maxCheck src s h now
    m.2 < minMatch ∨ Matches src s m.1 m.2 := by
  have hmin : minMatch = 3 := rfl
  have hmax : maxLen = 2051 := rfl
  rw [whackMatch]
  by_cases hshort : src.length < s + minMatch
  · rw [if_pos hshort]
    exact .inl (by change 0 < minMatch; omega)
  · rw [if_neg hshort]
    have hesrc : ∀ esrc, esrc = (if s + maxLen < src.length then s + maxLen else src.length) →
        s + minMatch ≤ esrc ∧ esrc ≤ s + maxLen ∧ esrc ≤ src.length := by
      intro esrc he
      split at he <;> omega
    obtain ⟨h1, h2, h3⟩ := hesrc _ rfl
    have := @whackMatchLoop_sound next maxCheck src now s _ hs hc.now_eq hc.next_seen h1 h2 h3
      maxCheck (hash h) 0 0 0 (hc.hash_seen h) (.inl rfl)
    exact this.imp (fun h => lt_of_eq_of_lt h (by decide)) id

theorem Seen.succ {t : UInt16} (h : Seen s t) : Seen (s + 1) t :=
  h.imp_right fun ⟨q, hq, ht⟩ => ⟨q, by omega, ht⟩

/-! ### The invariant of the compressor -/

variable {maxCheck : ℕ}

namespace Whack

variable {src : List UInt8} {w : Whack} {ts : List (Token UInt8)}

/-- The invariant of the loop: what has been read is the expansion of some tokens, and
what has been put is their code. -/
structure Inv (src : List UInt8) (ts : List (Token UInt8)) (w : Whack) : Prop where
  s_le : w.s ≤ src.length
  expand_eq : expand ts = src.take w.s
  fits : FitsFrom [] ts
  codable : ∀ t ∈ ts, Codable t
  bits_eq : w.out.bits = encode (~~~0) ts
  hist_eq : w.lithist = histOf (~~~0) ts
  room : w.out.wnbits ≤ 32
  dst_le : w.out.dst.length ≤ src.length
  chains : Chains w.s w.now w.hash w.next

@[simp]
theorem advance_s : (w.advance src).s = w.s + 1 := by
  rw [advance]
  split <;> rfl

@[simp]
theorem advance_out : (w.advance src).out = w.out := by
  rw [advance]
  split <;> rfl

@[simp]
theorem advance_lithist : (w.advance src).lithist = w.lithist := by
  rw [advance]
  split <;> rfl

/-- Entering a position keeps the tables truthful. -/
theorem advance_chains (h : Chains w.s w.now w.hash w.next) :
    Chains (w.advance src).s (w.advance src).now (w.advance src).hash (w.advance src).next := by
  have hnow : w.now + 1 = UInt16.ofNat (2 * whackMaxOff + (w.s + 1)) := by
    rw [h.now_eq, ← Nat.add_assoc, UInt16.ofNat_add (2 * whackMaxOff + w.s) 1]
    rfl
  have hseen : Seen (w.s + 1) w.now := .inr ⟨w.s, by omega, h.now_eq⟩
  rw [advance]
  split
  · refine ⟨hnow, fun i => ?_, fun i => ?_⟩
    · rcases eq_or_ne i (hashIt w.cont) with rfl | hi
      · simpa using hseen
      · simpa [Function.update_of_ne hi] using (h.hash_seen i).succ
    · rcases eq_or_ne i (w.now.toNat % whackMaxOff) with rfl | hi
      · simpa using (h.hash_seen _).succ
      · simpa [Function.update_of_ne hi] using (h.next_seen i).succ
  · exact ⟨hnow, fun i => (h.hash_seen i).succ, fun i => (h.next_seen i).succ⟩

theorem advanceBy_spec (k : ℕ) (h : Chains w.s w.now w.hash w.next) :
    (w.advanceBy src k).s = w.s + k ∧ (w.advanceBy src k).out = w.out ∧
      (w.advanceBy src k).lithist = w.lithist ∧
      Chains (w.advanceBy src k).s (w.advanceBy src k).now (w.advanceBy src k).hash
        (w.advanceBy src k).next := by
  induction k generalizing w with
  | zero => exact ⟨rfl, rfl, rfl, h⟩
  | succ k ih =>
    obtain ⟨hs, hout, hhist, hc⟩ := ih (advance_chains h)
    refine ⟨?_, hout.trans advance_out, hhist.trans advance_lithist, hc⟩
    rw [advanceBy, hs, advance_s]
    omega

variable {w' : Whack}

/-- A literal is the code of the token that appends the next byte. -/
theorem literal_inv (hw : w.Inv src ts) (hlt : w.s < src.length) (hroom : w.out.wnbits < 8)
    (h : w.literal src = some w') :
    w'.s = w.s + 1 ∧ w'.Inv src (ts ++ [.lit (src.getD w.s 0)]) := by
  obtain ⟨hcode, hmin, hmax⟩ := litCode_lt (nextHist w.lithist (src.getD w.s 0)) (src.getD w.s 0)
  -- both ways out of the last test differ only in `half`
  have key : ∃ half, w' = advance src { w with
      out := w.out.put (litCode (nextHist w.lithist (src.getD w.s 0)) (src.getD w.s 0)).1
        (litCode (nextHist w.lithist (src.getD w.s 0)) (src.getD w.s 0)).2
      lithist := nextHist w.lithist (src.getD w.s 0)
      lits := w.lits + 1
      half := half } := by
    simp only [literal] at h
    split at h
    · split at h
      · exact absurd h (by simp)
      · exact ⟨_, (some.inj h).symm⟩
    · exact ⟨_, (some.inj h).symm⟩
  obtain ⟨half, rfl⟩ := key
  refine ⟨advance_s, ⟨?_, ?_, ?_, ?_, ?_, ?_, ?_, ?_, advance_chains hw.chains⟩⟩
  · rw [advance_s]
    exact hlt
  · rw [advance_s, expand_concat, hw.expand_eq, Token.apply, getD_eq_getElem _ _ hlt,
      take_append_getElem hlt]
  · exact fitsFrom_concat.2 ⟨hw.fits, trivial⟩
  · intro t ht
    rcases mem_append.1 ht with ht | ht
    · exact hw.codable t ht
    · rw [mem_singleton.1 ht]
      trivial
  · rw [advance_out, Out.bits_put hcode (by omega) (by omega), hw.bits_eq, encode_concat,
      tokBits, ← hw.hist_eq]
  · rw [advance_lithist, histOf_concat, tokHist, ← hw.hist_eq]
  · rw [advance_out]
    change w.out.wnbits + _ ≤ 32
    omega
  · rw [advance_out]
    exact hw.dst_le

/-- A match is the code of the token that copies it. -/
theorem copy_inv {off : ℕ} (hw : w.Inv src ts) (hroom : w.out.wnbits < 8)
    (hm : Matches src w.s off len) (h : w.copy src off len = some w') :
    w'.s = w.s + len ∧ w'.Inv src (ts ++ [.copy len off]) := by
  have hmin := hm.min_le
  have hmax := hm.le_max
  have hoff : off - 1 < whackMaxOff := by
    have := hm.off_le
    have := hm.off_pos
    omega
  simp only [copy, if_neg (Nat.not_lt.2 hmax)] at h
  cases hout : w.out.putLen src.length (len - minMatch) with
  | none => rw [hout] at h; exact absurd h (by simp)
  | some out =>
    rw [hout] at h
    cases h
    obtain ⟨hlbits, hlroom, hldst⟩ := Out.putLen_spec hout hroom (by omega)
    obtain ⟨hobits, horoom⟩ := Out.putOff_spec hoff hlroom
    obtain ⟨hs, hout', hhist, hc⟩ := advanceBy_spec
      (w := { w with out := out.putOff (off - 1) }) len hw.chains
    refine ⟨hs, ⟨?_, ?_, ?_, ?_, ?_, ?_, ?_, ?_, hc⟩⟩
    · rw [hs]
      exact hm.end_le
    · rw [hs, expand_concat, hw.expand_eq]
      refine copyBack_eq_take len hm.off_pos hm.off_le_s hm.end_le fun j hj => ?_
      have hend := hm.end_le
      have heq := hm.eq j hj
      have h1 : w.s + j < src.length := by omega
      have h2 : w.s + j - off < src.length := by omega
      rw [getD_eq_getElem _ _ h1, getD_eq_getElem _ _ h2] at heq
      rw [List.getElem?_eq_getElem h1, List.getElem?_eq_getElem h2, heq]
    · refine fitsFrom_concat.2 ⟨hw.fits, hm.off_pos, ?_⟩
      change off ≤ (expand ts).length
      rw [hw.expand_eq, length_take, Nat.min_eq_left hw.s_le]
      exact hm.off_le_s
    · intro t ht
      rcases mem_append.1 ht with ht | ht
      · exact hw.codable t ht
      · rw [mem_singleton.1 ht]
        exact ⟨hmin, hmax, hm.off_pos, hm.off_le⟩
    · rw [hout', hobits, hlbits, hw.bits_eq, encode_concat, tokBits, append_assoc]
    · rw [hhist, histOf_concat, tokHist, ← hw.hist_eq]
    · rw [hout']
      exact horoom
    · rw [hout']
      exact hldst hw.dst_le

/-- **A step of the loop** writes the code of one token and goes on in the block. -/
theorem step_inv (hw : w.Inv src ts) (hlt : w.s < src.length) (hn : src.length < 2 ^ 16)
    (h : w.step maxCheck src = some w') :
    w.s < w'.s ∧ ∃ t, w'.Inv src (ts ++ [t]) := by
  have hm := @whackMatch_sound _ _ src _ _ maxCheck (hashIt w.cont) hw.chains (by omega)
  simp only [step] at h
  cases hout : w.out.flush src.length with
  | none => rw [hout] at h; exact absurd h (by simp)
  | some out =>
    rw [hout] at h
    obtain ⟨hbits, hroom, hdst⟩ := Out.flush_spec hout hw.room
    have hw' : Inv src ts { w with out := out } :=
      ⟨hw.s_le, hw.expand_eq, hw.fits, hw.codable, hbits.trans hw.bits_eq, hw.hist_eq,
        by dsimp only; omega, hdst hw.dst_le, hw.chains⟩
    dsimp only at h
    split at h
    · obtain ⟨hs, hinv⟩ := literal_inv hw' hlt hroom h
      exact ⟨by rw [hs]; exact Nat.lt_succ_self _, _, hinv⟩
    · next hlen =>
      have hm' := hm.resolve_left hlen
      obtain ⟨hs, hinv⟩ := copy_inv hw' hroom hm' h
      have := hm'.min_le
      refine ⟨?_, _, hinv⟩
      rw [hs]
      change w.s < w.s + _
      have : minMatch = 3 := rfl
      omega

/-- **The loop of `whack`** reads the block to its end. -/
theorem loop_inv (hw : w.Inv src ts) (hn : src.length < 2 ^ 16) (hk : src.length - w.s ≤ k)
    (h : w.loop maxCheck src k = some w') :
    w'.s = src.length ∧ ∃ ts', w'.Inv src ts' := by
  induction k generalizing w ts with
  | zero =>
    cases h
    exact ⟨by have := hw.s_le; omega, ts, hw⟩
  | succ k ih =>
    rw [loop] at h
    by_cases hlt : w.s < src.length
    · rw [if_pos hlt] at h
      cases hstep : w.step maxCheck src with
      | none => rw [hstep] at h; exact absurd h (by simp)
      | some w₁ =>
        rw [hstep] at h
        obtain ⟨hs, t, hw₁⟩ := step_inv hw hlt hn hstep
        exact ih hw₁ (by omega) h
    · rw [if_neg hlt] at h
      cases h
      exact ⟨by have := hw.s_le; omega, ts, hw⟩

/-- The end of `whack` writes what is left and less than a byte of padding. -/
theorem finish_spec {r : List UInt8} (hroom : o.wnbits ≤ 32) (hdst : o.dst.length ≤ wdmax)
    (h : finish wdmax o = some r) :
    r.length ≤ wdmax ∧ ∃ pad, bytesBits r = o.bits ++ pad ∧ pad.length < 8 := by
  obtain ⟨o₁, ho₁, hwn, pad, hbits, hpad⟩ : ∃ o₁ : Out,
      o₁ = (if o.wnbits % 8 ≠ 0 then o.put (8 - o.wnbits % 8) 0 else o) ∧
      (o₁.wnbits % 8 = 0 ∧ o₁.wnbits ≤ 32 ∧ o₁.dst = o.dst) ∧
      ∃ pad, o₁.bits = o.bits ++ pad ∧ pad.length < 8 := by
    refine ⟨_, rfl, ?_⟩
    by_cases hpad : o.wnbits % 8 ≠ 0
    · rw [if_pos hpad]
      refine ⟨⟨?_, ?_, rfl⟩, bitsOf (8 - o.wnbits % 8) 0, ?_, ?_⟩
      · change (o.wnbits + (8 - o.wnbits % 8)) % 8 = 0
        omega
      · change o.wnbits + (8 - o.wnbits % 8) ≤ 32
        omega
      · exact Out.bits_put (by positivity) (by omega) (by omega)
      · rw [length_bitsOf]
        omega
    · rw [if_neg hpad]
      exact ⟨⟨by omega, hroom, rfl⟩, [], by simp, by simp⟩
  simp only [finish, ← ho₁, map_eq_some_iff] at h
  obtain ⟨o₂, hflush, rfl⟩ := h
  obtain ⟨hb, hlt, hd⟩ := Out.flush_spec hflush hwn.2.1
  -- the accumulator held whole bytes, so nothing is left in it
  have hlen := congrArg List.length hb
  simp only [Out.bits, length_append, length_bytesBits, length_bitsOf] at hlen
  have hzero : o₂.wnbits = 0 := by omega
  refine ⟨hd (by rw [hwn.2.2]; exact hdst), pad, ?_, hpad⟩
  rw [← hbits, ← hb, Out.bits, hzero, bitsOf_zero, append_nil]

end Whack

/-- **What `whack` writes** is no longer than the block, and spells the codes of tokens
that expand to the block, followed by less than a byte of padding. -/
theorem whack_eq_some {compressBlocks : Bool} {src r : List UInt8} (hn : src.length < 2 ^ 16)
    (h : whack compressBlocks maxCheck src = some r) :
    r.length ≤ src.length ∧ ∃ ts pad, expand ts = src ∧ FitsFrom [] ts ∧
      (∀ t ∈ ts, Codable t) ∧ bytesBits r = encode (~~~0) ts ++ pad ∧ pad.length < 8 := by
  rw [whack] at h
  split at h
  · exact absurd h (by simp)
  · dsimp only at h
    generalize hw : Whack.mk _ _ _ _ _ _ _ _ _ = w at h
    have hinv : w.Inv src [] := by
      subst hw
      exact ⟨Nat.zero_le _, rfl, trivial, by simp, rfl, rfl, by simp, by simp,
        ⟨rfl, fun _ => .inl rfl, fun _ => .inl rfl⟩⟩
    cases hloop : w.loop maxCheck src src.length with
    | none => rw [hloop] at h; exact absurd h (by simp)
    | some w' =>
      rw [hloop] at h
      obtain ⟨hs, ts, hw'⟩ := Whack.loop_inv hinv hn (by omega) hloop
      obtain ⟨hlen, pad, hbits, hpad⟩ := Whack.finish_spec hw'.room hw'.dst_le h
      refine ⟨hlen, ts, pad, ?_, hw'.fits, hw'.codable, ?_, hpad⟩
      · rw [hw'.expand_eq, hs, take_length]
      · rw [hbits, hw'.bits_eq]

end Venti

end Plan9
