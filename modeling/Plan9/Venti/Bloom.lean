import Mathlib.Data.List.GetD
import Plan9.Lib.Run
import Plan9.Venti.Dat

/-!
# The Bloom filter of the venti server

`bloom.c` keeps the filter in one buffer: sixteen bytes of header, written over
the front of the buffer by `wbbloomhead` before every write to disk, and the bits
of the filter behind them. `gethashes` keeps the indices it derives from a score
out of the header – but it does so *before* `_markbloomfilter` reduces them to the
size of the filter with `b->bitmask`, so an index above the filter's size can
still come down on a header bit.

The file models the buffer byte by byte, with the 32-bit aliasing of the source,
and reads it back as a set of bit slots:

* `Plan9.Venti.Bloom.bitAt_mark` – marking a score adds its slots;
* `Plan9.Venti.Bloom.bitAt_packHead` – writing the header replaces the slots
  below `8 * bloomHeadSize` by those of `Plan9.Venti.Bloom.head`;
* `Plan9.Venti.Bloom.no_false_negative_iff` – the scores that are never lost are
  exactly those whose slots the header leaves alone;
* `Plan9.Venti.Bloom.inBloomFilter_of_maxBloomSize` – in the largest filter these are all.
-/

namespace Plan9

namespace Venti

open Lib

/-! ### The header on disk -/

/-- What `unpackbloomhead` fills in: the number of hashes, an `int` assigned from
an unsigned word, and the size in bytes. -/
structure BloomHead where
  nhash : ℤ
  size : ℕ

/-- `unpackbloomhead`: check the magic number, the version and the size. -/
def unpackBloomHead (buf : List UInt8) : Option BloomHead :=
  if beVal (buf.take 4) ≠ bloomMagic then none
  else if beVal ((buf.drop 4).take 4) ≠ bloomVersion then none
  else
    let nhash := beVal ((buf.drop 8).take 4)
    let size := beVal ((buf.drop 12).take 4)
    if size < bloomHeadSize ∨ size > maxBloomSize ∨ size &&& (size - 1) ≠ 0 then none
    else some ⟨int32 nhash, size⟩

/-- The in-core filter of `struct Bloom`, without its buffer. -/
structure Bloom where
  nhash : ℤ
  size : ℕ
  /-- Turns a hash into a bit index. -/
  bitmask : UInt32
deriving DecidableEq

/-- `bloominit` on a buffer that holds a header: the size and the number of hashes
are the header's, and `bitmask` is `(size << 3) - 1` in 32-bit arithmetic. -/
def bloomInit (data : List UInt8) : Option Bloom :=
  (unpackBloomHead data).map fun h => ⟨h.nhash, h.size, (UInt32.ofNat h.size <<< 3) - 1⟩

/-! ### Hashes -/

/-- The loop of `gethashes` that fills `h`, from `a` in steps of `b`: an index in
the header is moved behind it. -/
def getHashesFrom (b : UInt32) : ℕ → UInt32 → List UInt32
  | 0, _ => []
  | n + 1, a =>
    (if a < UInt32.ofNat (bloomHeadSize * 8) then UInt32.ofNat (bloomHeadSize * 8) else a) ::
      getHashesFrom b n (a + b)

/-- `gethashes`: the words of the score behind the first are folded into `a` and
`b`, alternately, and the indices are `a + b * i`. -/
def getHashes (score : Score) : List UInt32 :=
  let a := ldWord score.toList 1 ^^^ ldWord score.toList 3
  let b := ldWord score.toList 2 ^^^ ldWord score.toList 4
  getHashesFrom b bloomMaxHash a

namespace Bloom

variable (b : Bloom)

/-- The hashes a filter looks at: the first `nhash`. There are `bloomMaxHash` of them, and with more
the source would read behind its array, so that the results below ask for `nhash ≤ 32`. -/
def hashes (score : Score) : List UInt32 := (getHashes score).take b.nhash.toNat

/-- The word of the buffer that holds the bit of a hash. -/
def word (x : UInt32) : ℕ := ((x &&& b.bitmask) >>> 5).toNat

/-- The bit of a hash within its word. -/
def bit (x : UInt32) : UInt32 := 1 <<< (x &&& 31)

/-- The body of the loop of `_markbloomfilter`. -/
def markBit (data : List UInt8) (x : UInt32) : List UInt8 :=
  let y := ldWord data (b.word x)
  if y &&& bit x = 0 then stWord data (b.word x) (y ||| bit x) else data

/-- `_markbloomfilter`. -/
def markData (data : List UInt8) (score : Score) : List UInt8 :=
  (b.hashes score).foldl b.markBit data

/-- `_inbloomfilter`. -/
def inData (data : List UInt8) (score : Score) : Bool :=
  (b.hashes score).all fun x => ldWord data (b.word x) &&& bit x != 0

/-- The sixteen bytes `packbloomhead` writes. -/
def head : List UInt8 :=
  beBytes 4 bloomMagic ++ beBytes 4 bloomVersion ++ beBytes 4 (b.nhash % 2 ^ 32).toNat ++
    beBytes 4 b.size

/-- `packbloomhead(b, b->data)`: the header over the front of the buffer. -/
def packHead (data : List UInt8) : List UInt8 := b.head ++ data.drop bloomHeadSize

end Bloom

/-! ### The operations -/

/-- The filter's memory and its partition. The buffer is absent until the filter
is loaded. -/
structure BloomState where
  data : Option (List UInt8)
  part : List UInt8

/-- The operations on a filter. `writeBloom` says whether the write and the flush
of the partition succeed. -/
inductive BloomOp
  /-- `markbloomfilter` of a score. -/
  | mark (score : Score)
  /-- `wbbloomhead`. -/
  | wbBloomHead
  /-- `writebloom`. -/
  | writeBloom (ok : Bool)
  /-- `loadbloom`. -/
  | loadBloom

namespace Bloom

variable (b : Bloom)

/-- `inbloomfilter`: without a buffer, or when told to ignore the filter, every
score may be present. -/
def inBloomFilter (ignoreBloom : Bool) (s : BloomState) (score : Score) : Bool :=
  match s.data with
  | none => true
  | some data => if ignoreBloom then true else b.inData data score

/-- `markbloomfilter`: without a buffer it does nothing. -/
def markBloomFilter (s : BloomState) (score : Score) : BloomState :=
  { s with data := s.data.map fun data => b.markData data score }

/-- One operation. A failed `writebloom` has packed the header and leaves
anything on the partition; `loadbloom` reads `size` bytes of it. -/
inductive Step : BloomState → BloomOp → BloomState → Prop
  | mark {s : BloomState} {score : Score} : Step s (.mark score) (b.markBloomFilter s score)
  | wbBloomHead {data part : List UInt8} :
      Step ⟨some data, part⟩ .wbBloomHead ⟨some (b.packHead data), part⟩
  | writeBloom {data part : List UInt8} :
      Step ⟨some data, part⟩ (.writeBloom true)
        ⟨some (b.packHead data), b.packHead data ++ part.drop (b.packHead data).length⟩
  | writeBloomFail {data part part' : List UInt8} :
      Step ⟨some data, part⟩ (.writeBloom false) ⟨some (b.packHead data), part'⟩
  | loadBloom {s : BloomState} (h : b.size ≤ s.part.length) :
      Step s .loadBloom ⟨some (s.part.take b.size), s.part⟩

/-- **What `loadbloom` may read back**: the partition holds what was written, that
is, nothing was marked in memory since. The other operations are unrestricted. -/
def LoadsBack (s : BloomState) : BloomOp → Prop
  | .loadBloom => s.data = some (s.part.take b.size)
  | _ => True

end Bloom

namespace Bloom

/-! ### The filter as a set of slots -/

/-- **The sizes `unpackbloomhead` accepts** are the powers of two from `2 ^ 4` to
`2 ^ 29`, and the mask of `bloominit` is then the number of bits less one – also
for the largest size, where the shift wraps. -/
def Sized (b : Bloom) : Prop :=
  ∃ k, 4 ≤ k ∧ k ≤ 29 ∧ b.size = 2 ^ k ∧ b.bitmask.toNat = 2 ^ (k + 3) - 1

theorem bitmask_toNat {k : ℕ} (h4 : 4 ≤ k) (h29 : k ≤ 29) :
    ((UInt32.ofNat (2 ^ k) <<< 3) - 1).toNat = 2 ^ (k + 3) - 1 := by
  interval_cases k <;> decide

variable {data : List UInt8}

theorem sized_of_bloomInit {b : Bloom} (h : bloomInit data = some b) : b.Sized := by
  simp only [bloomInit, Option.map_eq_some_iff] at h
  obtain ⟨hd, hh, rfl⟩ := h
  unfold unpackBloomHead at hh
  dsimp only at hh
  split_ifs at hh with h1 h2 h3
  cases hh
  generalize beVal ((data.drop 12).take 4) = size at h3 ⊢
  simp only [bloomHeadSize, maxBloomSize, not_or, not_lt] at h3
  obtain ⟨hlo, hhi, hpow⟩ := h3
  obtain ⟨k, rfl⟩ := (Nat.and_sub_one_eq_zero_iff_isPowerOfTwo (by omega)).mp (not_not.mp hpow)
  have hk : k ≤ 29 := (Nat.pow_le_pow_iff_right (a := 2) (by norm_num)).mp (by simpa using hhi)
  have hk4 : 4 ≤ k := by
    by_contra hc
    have : (2 : ℕ) ^ k ≤ 2 ^ 3 := Nat.pow_le_pow_right (by norm_num) (by omega)
    omega
  exact ⟨k, hk4, hk, rfl, bitmask_toNat hk4 hk⟩

variable {b : Bloom}

/-- The slot of a hash: its bit address in the buffer. -/
def slot (b : Bloom) (x : UInt32) : ℕ := (x &&& b.bitmask).toNat

/-- A slot is the hash reduced to the number of bits of the filter. -/
theorem slot_eq (hb : b.Sized) (x : UInt32) : b.slot x = x.toNat % (8 * b.size) := by
  obtain ⟨k, -, -, hsize, hmask⟩ := hb
  rw [slot, UInt32.toNat_and, hmask, Nat.and_two_pow_sub_one_eq_mod, hsize, pow_add]
  congr 1
  ring

theorem slot_lt (hb : b.Sized) (x : UInt32) : b.slot x < 8 * b.size := by
  rw [slot_eq hb]
  obtain ⟨k, -, -, hsize, -⟩ := hb
  exact Nat.mod_lt _ (by rw [hsize]; positivity)

/-- The size is a whole number of words, so the low five bits of a hash are those
of its slot. -/
theorem slot_mod (hb : b.Sized) (x : UInt32) : (x &&& 31).toNat = b.slot x % 32 := by
  rw [slot_eq hb]
  obtain ⟨k, hk, -, hsize, -⟩ := hb
  obtain ⟨m, rfl⟩ : ∃ m, k = m + 2 := ⟨k - 2, by omega⟩
  have h32 : 8 * b.size = 32 * 2 ^ m := by rw [hsize, pow_add]; ring
  rw [UInt32.toNat_and, h32, Nat.mod_mul_right_mod]
  exact Nat.and_two_pow_sub_one_eq_mod x.toNat 5

theorem slot_mod_lt (hb : b.Sized) (x : UInt32) : (x &&& 31).toNat < 32 := by
  rw [slot_mod hb]
  exact Nat.mod_lt _ (by norm_num)

theorem word_eq (x : UInt32) : b.word x = b.slot x / 32 := by
  rw [word, slot, UInt32.toNat_shiftRight]
  exact Nat.shiftRight_eq_div_pow _ 5

theorem word_lt (hb : b.Sized) (hd : data.length = b.size) (x : UInt32) :
    4 * b.word x + 3 < data.length := by
  have hlt := slot_lt hb x
  obtain ⟨k, hk, -, hsize, -⟩ := hb
  obtain ⟨m, rfl⟩ : ∃ m, k = m + 2 := ⟨k - 2, by omega⟩
  have h4 : b.size = 4 * 2 ^ m := by rw [hsize, pow_add]; ring
  rw [word_eq, hd]
  omega

/-- A slot, taken apart into its word and its bit and put together again. -/
theorem word_bit (hb : b.Sized) (x : UInt32) : 32 * b.word x + (x &&& 31).toNat = b.slot x := by
  rw [word_eq, slot_mod hb]
  omega

/-- **The test of `_inbloomfilter`** reads the bit of the slot. -/
theorem test_eq (hb : b.Sized) (data : List UInt8) (x : UInt32) :
    (ldWord data (b.word x) &&& bit x != 0) = bitAt data (b.slot x) := by
  have hlt := slot_mod_lt hb x
  rw [← word_bit hb x, ← getLsbD_ldWord data _ _ hlt]
  have hiff := and_one_shiftLeft_eq_zero (ldWord data (b.word x)) (x &&& 31) hlt
  cases hbit : (ldWord data (b.word x)).toBitVec.getLsbD (x &&& 31).toNat with
  | false => simpa [bit] using hiff.mpr hbit
  | true =>
    have hne : ¬(ldWord data (b.word x) &&& 1 <<< (x &&& 31) = 0) := fun hc => by
      rw [hiff.mp hc] at hbit
      exact absurd hbit (by simp)
    simpa [bit] using hne

@[simp] theorem length_markBit (data : List UInt8) (x : UInt32) :
    (b.markBit data x).length = data.length := by
  simp only [markBit]
  split <;> simp

/-- **The loop body of `_markbloomfilter`** sets the bit of the slot. -/
theorem bitAt_markBit (hb : b.Sized) (hd : data.length = b.size) (x : UInt32) (j : ℕ) :
    bitAt (b.markBit data x) j = (bitAt data j || decide (j = b.slot x)) := by
  have htest := test_eq hb data x
  simp only [markBit]
  split_ifs with h
  · rw [bit, bitAt_stWord_or data _ _ (slot_mod_lt hb x) j (word_lt hb hd x), word_bit hb x]
  · have hset : bitAt data (b.slot x) = true := by
      rw [← htest]
      simpa using h
    by_cases hj : j = b.slot x
    · rw [hj, hset, Bool.true_or]
    · simp [hj]

@[simp] theorem length_markData (data : List UInt8) (score : Score) :
    (b.markData data score).length = data.length := by
  rw [markData]
  induction b.hashes score generalizing data with
  | nil => rfl
  | cons x l ih => simp [ih]

/-- **Marking a score adds its slots** and removes none. -/
theorem bitAt_mark (hb : b.Sized) (hd : data.length = b.size) (score : Score) (j : ℕ) :
    bitAt (b.markData data score) j = true ↔
      bitAt data j = true ∨ ∃ x ∈ b.hashes score, b.slot x = j := by
  rw [markData]
  induction b.hashes score generalizing data with
  | nil => simp
  | cons x l ih =>
    rw [List.foldl_cons, ih (by simpa using hd), bitAt_markBit hb hd]
    simp only [Bool.or_eq_true, decide_eq_true_eq, List.mem_cons, exists_eq_or_imp, or_assoc,
      eq_comm (a := j)]

/-- **A score is found** when all its slots are set. -/
theorem inData_iff (hb : b.Sized) (data : List UInt8) (score : Score) :
    b.inData data score = true ↔ ∀ x ∈ b.hashes score, bitAt data (b.slot x) = true := by
  simp only [inData, List.all_eq_true, test_eq hb]

/-! ### Writing the header over the slots -/

@[simp] theorem length_head : b.head.length = bloomHeadSize := by simp [head, bloomHeadSize]

theorem length_packHead (h : bloomHeadSize ≤ data.length) :
    (b.packHead data).length = data.length := by
  simp [packHead, h]

theorem bloomHeadSize_le (hb : b.Sized) : bloomHeadSize ≤ b.size := by
  obtain ⟨k, hk, -, hsize, -⟩ := hb
  rw [hsize]
  exact Nat.pow_le_pow_right (n := 2) (by norm_num) hk

/-- **Writing the header** replaces the slots below `8 * bloomHeadSize`. -/
theorem bitAt_packHead (data : List UInt8) (j : ℕ) : bitAt (b.packHead data) j =
      if j < 8 * bloomHeadSize then bitAt b.head j else bitAt data j := by
  have hlen : b.head.length = bloomHeadSize := length_head
  simp only [bitAt, byteAt, packHead]
  by_cases h : j < 8 * bloomHeadSize
  · rw [if_pos h, List.getD_append _ _ _ _ (by omega)]
  · have hj : bloomHeadSize + (j / 8 - bloomHeadSize) = j / 8 := by omega
    rw [if_neg h, List.getD_append_right _ _ _ _ (by omega), hlen, List.getD_eq_getElem?_getD,
      List.getElem?_drop, ← List.getD_eq_getElem?_getD, hj]

/-- **A slot the header leaves alone**: one behind it, or one it sets itself. -/
def Kept (b : Bloom) (j : ℕ) : Prop := 8 * bloomHeadSize ≤ j ∨ bitAt b.head j = true

instance (b : Bloom) (j : ℕ) : Decidable (b.Kept j) := inferInstanceAs (Decidable (_ ∨ _))

theorem bitAt_packHead_of_kept {j : ℕ} (hj : b.Kept j) (h : bitAt data j = true) :
    bitAt (b.packHead data) j = true := by
  rw [bitAt_packHead]
  split_ifs with hlt
  · exact hj.resolve_left (by omega)
  · exact h

/-! ### Runs -/

/-- The buffer, when there is one, has the size of the filter. -/
def WellSized (b : Bloom) (s : BloomState) : Prop :=
  ∀ data, s.data = some data → data.length = b.size

/-- Every slot of the score is set in the buffer, when there is one. -/
def Holds (b : Bloom) (score : Score) (s : BloomState) : Prop :=
  ∀ data, s.data = some data → ∀ x ∈ b.hashes score, bitAt data (b.slot x) = true

variable {s : BloomState}

theorem wellSized_mark (h : b.WellSized s) (score : Score) :
    b.WellSized (b.markBloomFilter s score) := by
  intro data hdata
  obtain ⟨data', hs, rfl⟩ := Option.map_eq_some_iff.mp hdata
  rw [length_markData]
  exact h _ hs

theorem holds_mark (hb : b.Sized) (h : b.WellSized s) (score : Score) :
    b.Holds score (b.markBloomFilter s score) := by
  intro data hdata x hx
  obtain ⟨data', hs, rfl⟩ := Option.map_eq_some_iff.mp hdata
  exact (bitAt_mark hb (h _ hs) score _).mpr (Or.inr ⟨x, hx, rfl⟩)

theorem wellSized_packHead (hb : b.Sized) {part part' : List UInt8}
    (h : b.WellSized ⟨some data, part⟩) : b.WellSized ⟨some (b.packHead data), part'⟩ := by
  rintro _ ⟨⟩
  have hlen : data.length = b.size := h _ rfl
  rw [length_packHead (hlen ▸ bloomHeadSize_le hb), hlen]

variable {score : Score}

theorem holds_packHead (hk : ∀ x ∈ b.hashes score, b.Kept (b.slot x)) {part part' : List UInt8}
    (h : b.Holds score ⟨some data, part⟩) :
    b.Holds score ⟨some (b.packHead data), part'⟩ := by
  rintro _ ⟨⟩ x hx
  exact bitAt_packHead_of_kept (hk x hx) (h _ rfl x hx)

/-- **What one step preserves**: a score whose slots the header leaves alone stays
in the filter, whatever else is marked, written or read back. -/
theorem step_inv (hb : b.Sized) (hk : ∀ x ∈ b.hashes score, b.Kept (b.slot x)) {t : BloomState}
    {op : BloomOp} (hs : b.WellSized s ∧ b.Holds score s) (hload : b.LoadsBack s op)
    (hstep : b.Step s op t) : b.WellSized t ∧ b.Holds score t := by
  obtain ⟨hw, hh⟩ := hs
  cases hstep with
  | @mark s score' =>
    refine ⟨wellSized_mark hw score', fun data hdata x hx => ?_⟩
    obtain ⟨data', hs, rfl⟩ := Option.map_eq_some_iff.mp hdata
    exact (bitAt_mark hb (hw _ hs) score' _).mpr (Or.inl (hh _ hs x hx))
  | wbBloomHead | writeBloom | writeBloomFail => exact ⟨wellSized_packHead hb hw,
    holds_packHead hk hh⟩
  | loadBloom h =>
    have hdata : s.data = some (s.part.take b.size) := hload
    refine ⟨fun data hd => ?_, fun data hd => ?_⟩
    · cases hd
      exact hw _ hdata
    · cases hd
      exact hh _ hdata

theorem inBloomFilter_of_holds (hb : b.Sized) (h : b.Holds score s) (ignoreBloom : Bool) :
    b.inBloomFilter ignoreBloom s score = true := by
  rcases hs : s.data with _ | data
  · simp [inBloomFilter, hs]
  · simpa [inBloomFilter, hs] using Or.inr ((inData_iff hb data score).mpr (h data hs))

/-- A marked score whose slots are kept is found in every later state of a run. -/
theorem inBloomFilter_of_run (hb : b.Sized) (hk : ∀ x ∈ b.hashes score, b.Kept (b.slot x))
    {s t : BloomState} {ops : List BloomOp} (hs : b.WellSized s)
    (hrun : Run (Guarded b.LoadsBack b.Step) (b.markBloomFilter s score) ops t) :
    b.inBloomFilter false t score = true := by
  have hinv := hrun.guarded_inv (I := fun s => b.WellSized s ∧ b.Holds score s)
    (fun _ _ _ hs => step_inv hb hk hs) ⟨wellSized_mark hs score, holds_mark hb hs score⟩
  exact inBloomFilter_of_holds hb hinv.2 false

/-- **No false negatives, exactly.** A marked score is found in every later state
of every run if and only if the header leaves its slots alone: each of them lies
behind the header, or on a bit that the header has set. -/
theorem no_false_negative_iff {hdr : List UInt8} (hb : bloomInit hdr = some b)
    (_hn : b.nhash ≤ 32) (score : Score) :
    (∀ (s t : BloomState) (ops : List BloomOp), b.WellSized s →
        Run (Guarded b.LoadsBack b.Step) (b.markBloomFilter s score) ops t →
        b.inBloomFilter false t score = true) ↔
      ∀ x ∈ b.hashes score, b.Kept (b.slot x) := by
  have hsz := sized_of_bloomInit hb
  constructor
  · intro h x hx
    -- the run that fails otherwise: mark the score in an empty filter and write the header
    let s : BloomState := ⟨some (List.replicate b.size 0), []⟩
    have hs : b.WellSized s := by
      rintro _ ⟨⟩
      simp
    have hrun : Run (Guarded b.LoadsBack b.Step) (b.markBloomFilter s score) [.wbBloomHead]
        ⟨some (b.packHead (b.markData (List.replicate b.size 0) score)), []⟩ :=
      .single ⟨trivial, .wbBloomHead⟩
    have hin := h s _ _ hs hrun
    have hset := (inData_iff hsz _ score).mp hin x hx
    rw [bitAt_packHead] at hset
    by_cases hlt : b.slot x < 8 * bloomHeadSize
    · rw [if_pos hlt] at hset
      exact Or.inr hset
    · exact Or.inl (by omega)
  · exact fun hk s t ops hs hrun => inBloomFilter_of_run hsz hk hs hrun

/-! ### The filters of the two extreme sizes

A filter of the largest size has a bit for every 32-bit hash, so the reservation
of `gethashes` is all it needs; in a small one it is undone by the mask. -/

theorem le_toNat_of_mem_getHashesFrom {c : UInt32} {n : ℕ} {a x : UInt32}
    (h : x ∈ getHashesFrom c n a) : bloomHeadSize * 8 ≤ x.toNat := by
  induction n generalizing a with
  | zero => exact absurd h (by simp [getHashesFrom])
  | succ n ih =>
    rcases List.mem_cons.mp h with rfl | h'
    · split_ifs with hlt
      · decide
      · exact Nat.le_of_not_lt fun hc => hlt (UInt32.lt_iff_toNat_lt.mpr hc)
    · exact ih h'

/-- **At the largest size no score is ever lost**: the mask is then the identity
and the hashes stay behind the header, where `gethashes` has put them. -/
theorem kept_of_maxBloomSize (hb : b.Sized) (hmax : b.size = maxBloomSize) (score : Score) :
    ∀ x ∈ b.hashes score, b.Kept (b.slot x) := by
  intro x hx
  have hle := le_toNat_of_mem_getHashesFrom (List.mem_of_mem_take hx)
  have hlt : x.toNat < 8 * maxBloomSize := x.toNat_lt
  refine Or.inl ?_
  rw [slot_eq hb, hmax, Nat.mod_eq_of_lt hlt]
  omega

/-- **In a filter of the largest size no score is ever lost**: with up to `bloomMaxHash` hashes, it
is found in every later state of every run, whatever else is marked, written and read back. -/
theorem inBloomFilter_of_maxBloomSize {hdr : List UInt8} (hb : bloomInit hdr = some b)
    (_hn : b.nhash ≤ 32) (hmax : b.size = maxBloomSize) {score : Score} {s t : BloomState}
    {ops : List BloomOp}
    (hs : b.WellSized s)
    (hrun : Run (Guarded b.LoadsBack b.Step) (b.markBloomFilter s score) ops t) :
    b.inBloomFilter false t score = true := by
  have hsz := sized_of_bloomInit hb
  exact inBloomFilter_of_run hsz (kept_of_maxBloomSize hsz hmax score) hs hrun

/-- The largest filter, with as many hashes as there can be. -/
def largest : Bloom := ⟨32, maxBloomSize, 0xFFFFFFFF⟩

theorem inBloomFilter_largest : largest.inBloomFilter false
    ⟨some (largest.packHead (largest.markData (List.replicate maxBloomSize 0)
      (Vector.replicate 20 0))), []⟩ (Vector.replicate 20 0) = true := by
  have hs : largest.WellSized ⟨some (List.replicate maxBloomSize 0), []⟩ := by
    intro data hdata
    rw [← Option.some.inj hdata, List.length_replicate, largest]
  have hrun : Run (Guarded largest.LoadsBack largest.Step)
      (largest.markBloomFilter ⟨some (List.replicate maxBloomSize 0), []⟩ (Vector.replicate 20 0))
      [.wbBloomHead] _ := .single ⟨trivial, .wbBloomHead⟩
  exact inBloomFilter_of_maxBloomSize (show bloomInit largest.head = some largest by decide)
    (by decide) rfl hs hrun

/-- A filter of 32 bytes with one hash. -/
def small : Bloom := ⟨1, 32, 255⟩

/-- A score whose one hash is `0x108`: beyond the end of the filter
`Plan9.Venti.Bloom.small`, in which it comes down on bit 8 of the header. -/
def lostScore : Score := #v[0, 0, 0, 0, 8, 1, 0, 0, 0, 0, 0, 0, 0, 0, 0, 0, 0, 0, 0, 0]

/-- **A marked score can be lost**: marked in the empty filter, and gone once the
header is written. -/
theorem lostScore_not_inBloomFilter :
    ∃ t, bloomInit small.head = some small ∧ small.nhash ≤ 32 ∧
      small.WellSized ⟨some (List.replicate 32 0), []⟩ ∧
      Run (Guarded small.LoadsBack small.Step)
        (small.markBloomFilter ⟨some (List.replicate 32 0), []⟩ lostScore) [.wbBloomHead] t ∧
      small.inBloomFilter false t lostScore = false := by
  refine ⟨_, by decide, by decide, ?_, .single ⟨trivial, .wbBloomHead⟩, by decide⟩
  rintro _ ⟨⟩
  rfl

/-- A score of `Plan9.Venti.Bloom.small` that no run loses: its hash is `0x88`,
behind the header. -/
theorem no_false_negative_small :
    bloomInit small.head = some small ∧
      ∀ (s t : BloomState) (ops : List BloomOp), small.WellSized s →
        Run (Guarded small.LoadsBack small.Step)
          (small.markBloomFilter s (lostScore.set 4 0x88 |>.set 5 0)) ops t →
        small.inBloomFilter false t (lostScore.set 4 0x88 |>.set 5 0) = true := by
  refine ⟨by decide, (@no_false_negative_iff _ small.head (by decide) (by decide) _).mpr ?_⟩
  have hhash : small.hashes (lostScore.set 4 0x88 |>.set 5 0) = [0x88] := by decide
  rw [hhash]
  intro x hx
  rw [List.mem_singleton.1 hx]
  exact .inl (by decide)

end Bloom

end Venti

end Plan9
