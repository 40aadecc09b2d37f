import Mathlib.Tactic.Linarith
import Plan9.Ip.Qio
import Plan9.Lib.OnesSum

/-!
# The checksum of a packet

`Plan9.Ip.ptclcsum` complements the one's-complement sum of some bytes of a packet that lies in
a chain of blocks, `len` bytes from `offset` on. Each block is summed by itself with `ptclbsum`,
which is a parameter here. The sum of a block that begins at an odd place has its bytes swapped,
and is put into an accumulator of its own, `hisum`, whose bytes change places at the end; the
carries out of the low 16 bits are left for the end as well.

The result is that of a packet in one block (`Plan9.Ip.ptclcsum_eq`), but for two limits. The
accumulators have 32 bits, so the carries of 65537 blocks fit and those of 65538 need not
(`Plan9.Ip.ptclcsum_losses`). And where the blocks end at `offset` there is nothing to sum, and the
result is 0, not the complement of 0.
-/

namespace Plan9

namespace Ip

open Lib List

/-! ### The code -/

/-- The first loop of `ptclcsum`, to the front of the data. -/
def skipFront : List Block → ℕ → List Block × ℕ
  | [], offset => ([], offset)
  | b :: bp, offset =>
    if offset ≠ 0 ∧ b.blen ≤ offset then skipFront bp (offset - b.blen) else (b :: bp, offset)

section Code

variable (ptclbsum : List UInt8 → UInt16)

/-- The second loop of `ptclcsum`: `data` is what is left of the block at hand, and `odd` the
parity of its place. The result is `losum` and `hisum`. -/
def sumLoop : List UInt8 → List Block → ℕ → Bool → UInt32 → UInt32 → UInt32 × UInt32
  | data, bp, len, odd, losum, hisum =>
    if len = 0 then (losum, hisum)
    else
      let blocklen := if len < data.length then len else data.length
      let csum := (ptclbsum (data.take blocklen)).toUInt32
      let losum' := if odd then losum else losum + csum
      let hisum' := if odd then hisum + csum else hisum
      match bp with
      | [] => (losum', hisum')
      | b :: bp => sumLoop b.data bp (len - blocklen) (odd ^^ blocklen.bodd) losum' hisum'

theorem toNat_carry (losum : UInt32) :
    (losum >>> 16).toUInt16.toUInt32.toNat = losum.toNat / 65536 := by
  have hlt := losum.toNat_lt
  rw [UInt16.toNat_toUInt32, UInt32.toNat_toUInt16, UInt32.toNat_shiftRight,
    Nat.shiftRight_eq_div_pow]
  show losum.toNat / 65536 % 65536 = losum.toNat / 65536
  omega

theorem toNat_low (losum : UInt32) : (losum &&& 0xffff).toNat = losum.toNat % 65536 := by
  rw [UInt32.toNat_and]
  exact Nat.and_two_pow_sub_one_eq_mod losum.toNat 16

/-- One turn of the third loop of `ptclcsum`. -/
theorem toNat_turn (losum : UInt32) :
    ((losum >>> 16).toUInt16.toUInt32 + (losum &&& 0xffff)).toNat =
      losum.toNat / 65536 + losum.toNat % 65536 := by
  have hlt := losum.toNat_lt
  rw [UInt32.toNat_add, toNat_carry, toNat_low]
  omega

theorem carry_eq_zero_iff (losum : UInt32) : (losum >>> 16).toUInt16 = 0 ↔ losum.toNat < 65536 := by
  rw [← UInt16.toNat_inj, ← UInt16.toNat_toUInt32, toNat_carry]
  show losum.toNat / 65536 = 0 ↔ _
  omega

/-- The third loop of `ptclcsum`: bring the carries around. -/
def foldCarry (losum : UInt32) : UInt32 :=
  let csum := (losum >>> 16).toUInt16
  if csum = 0 then losum else foldCarry (csum.toUInt32 + (losum &&& 0xffff))
termination_by losum.toNat
decreasing_by
  rename_i h
  have hge := mt (carry_eq_zero_iff losum).2 h
  rw [toNat_turn]
  omega

def ptclcsum (bp : List Block) (offset len : ℕ) : UInt16 :=
  match skipFront bp offset with
  | ([], _) => 0
  | ([b], offset) => ~~~(ptclbsum ((b.data.drop offset).take len))
  | (b :: bp, offset) =>
    let (losum, hisum) := sumLoop ptclbsum (b.data.drop offset) bp len false 0 0
    let losum := losum + (hisum >>> 8)
    let losum := losum + ((hisum &&& 0xff) <<< 8)
    (~~~(foldCarry losum) &&& 0xffff).toUInt16

end Code

/-! ### Carries -/

/-- **The third loop leaves the residue.** -/
theorem toNat_foldCarry (losum : UInt32) : (foldCarry losum).toNat = residue 65535 losum.toNat := by
  induction losum using foldCarry.induct with
  | case1 losum csum h =>
    have hlt := (carry_eq_zero_iff losum).1 h
    rw [foldCarry, if_pos h, residue_of_le (by omega)]
  | case2 losum csum h ih =>
    have hge := mt (carry_eq_zero_iff losum).2 h
    rw [foldCarry, if_neg h, ih, toNat_turn, residue_eq_iff]
    constructor
    · omega
    · omega

/-! ### The accumulators -/

/-- The accumulators hold the sums of `n` blocks at most. -/
def Small (losum hisum : UInt32) (n : ℕ) : Prop :=
  ∃ nl nh, nl + nh ≤ n ∧ losum.toNat ≤ 65535 * nl ∧ hisum.toNat ≤ 65535 * nh

/-- 1 for a string that is not empty. -/
def filled (data : List UInt8) : ℕ := if data = [] then 0 else 1

theorem filled_mono {data data' : List UInt8} (h : data = [] → data' = []) :
    filled data' ≤ filled data := by
  rw [filled, filled]
  split
  · exact Nat.zero_le _
  · rename_i hdata'
    rw [if_neg fun hdata => hdata' (h hdata)]

/-- The number of blocks with bytes. -/
def nfilled (bp : List Block) : ℕ := (bp.map fun b => filled b.data).sum

theorem nfilled_cons (b : Block) (bp : List Block) :
    nfilled (b :: bp) = filled b.data + nfilled bp := by
  rw [nfilled, map_cons, sum_cons, nfilled]

theorem onesSum_le_filled (data : List UInt8) : onesSum data ≤ 65535 * filled data := by
  rw [filled]
  split
  · rename_i hdata
    rw [hdata]
    exact Nat.le_refl 0
  · exact onesSum_le data

variable {losum hisum : UInt32} {n : ℕ}

/-- **One block**: its sum goes to the accumulator of its parity. -/
theorem add_block (h : Small losum hisum n) (odd : Bool) {csum : UInt16} {data : List UInt8}
    (hcsum : csum.toNat = onesSum data) (hn : n + filled data ≤ 65537) :
    let losum' := if odd then losum else losum + csum.toUInt32
    let hisum' := if odd then hisum + csum.toUInt32 else hisum
    Small losum' hisum' (n + filled data) ∧ SameSum 65535 (losum'.toNat + 256 * hisum'.toNat)
        (losum.toNat + 256 * hisum.toNat + weigh odd data) := by
  intro losum' hisum'
  obtain ⟨nl, nh, hle, hlo, hhi⟩ := h
  have hc : csum.toUInt32.toNat = onesSum data := by
    rw [UInt16.toNat_toUInt32, hcsum]
  have hbound := onesSum_le_filled data
  have hweigh := (weigh_sameSum odd data).symm
  cases odd with
  | true =>
    have hadd : (hisum + csum.toUInt32).toNat = hisum.toNat + onesSum data := by
      rw [UInt32.toNat_add, hc]
      exact Nat.mod_eq_of_lt (by omega)
    refine ⟨⟨nl, nh + filled data, by omega, hlo, ?_⟩, ?_⟩
    · show (hisum + csum.toUInt32).toNat ≤ _
      omega
    · show SameSum 65535 (losum.toNat + 256 * (hisum + csum.toUInt32).toNat) _
      rw [hadd, Nat.mul_add, ← Nat.add_assoc]
      exact (SameSum.refl _ _).add hweigh
  | false =>
    have hadd : (losum + csum.toUInt32).toNat = losum.toNat + onesSum data := by
      rw [UInt32.toNat_add, hc]
      exact Nat.mod_eq_of_lt (by omega)
    refine ⟨⟨nl + filled data, nh, by omega, ?_, hhi⟩, ?_⟩
    · show (losum + csum.toUInt32).toNat ≤ _
      omega
    · show SameSum 65535 ((losum + csum.toUInt32).toNat + 256 * hisum.toNat) _
      rw [hadd, Nat.add_right_comm]
      exact (SameSum.refl _ _).add hweigh

/-- **The second loop**: the two accumulators together hold the weight of the bytes read. -/
theorem sumLoop_spec {ptclbsum : List UInt8 → UInt16}
    (hsum : ∀ data, (ptclbsum data).toNat = onesSum data) (bp : List Block) (data : List UInt8)
    (len : ℕ) (odd : Bool) (h : Small losum hisum n) (hlen : len ≤ (data ++ bytes bp).length)
    (hn : n + filled data + nfilled bp ≤ 65537) :
    let sums := sumLoop ptclbsum data bp len odd losum hisum
    Small sums.1 sums.2 65537 ∧ SameSum 65535 (sums.1.toNat + 256 * sums.2.toNat)
        (losum.toNat + 256 * hisum.toNat + weigh odd ((data ++ bytes bp).take len)) := by
  have hgrow : ∀ {lo hi : UInt32} {k : ℕ}, Small lo hi k → k ≤ 65537 → Small lo hi 65537 := by
    rintro lo hi k ⟨nl, nh, hle, hrest⟩ hk
    exact ⟨nl, nh, hle.trans hk, hrest⟩
  induction bp generalizing data len odd losum hisum n with
  | nil =>
    rw [sumLoop]
    split
    · rename_i hzero
      rw [hzero, take_zero, weigh_nil, Nat.add_zero]
      exact ⟨hgrow h (by omega), SameSum.refl _ _⟩
    · rename_i hpos
      have hdata : (if len < data.length then len else data.length) = len := by
        rw [bytes_nil, append_nil] at hlen
        split <;> omega
      have hfill : filled (data.take len) ≤ filled data := filled_mono fun hnil => by
        rw [hnil, List.take_nil]
      rw [hdata, bytes_nil, append_nil]
      obtain ⟨hsmall, hsame⟩ := add_block h odd (hsum (data.take len)) (by omega)
      exact ⟨hgrow hsmall (by omega), hsame⟩
  | cons b bp ih =>
    rw [sumLoop]
    split
    · rename_i hzero
      rw [hzero, take_zero, weigh_nil, Nat.add_zero]
      exact ⟨hgrow h (by omega), SameSum.refl _ _⟩
    · rename_i hpos
      -- `blocklen`, the bytes taken from the block at hand
      obtain ⟨k, hk⟩ : ∃ k, (if len < data.length then len else data.length) = k := ⟨_, rfl⟩
      have hkl : k = min len data.length := by
        rw [← hk]
        split <;> omega
      have htake : (data ++ bytes (b :: bp)).take len =
          data.take k ++ (b.data ++ bytes bp).take (len - k) := by
        rw [take_append, bytes_cons, hkl]
        congr 1
        · rw [← take_take, take_length]
        · congr 1
          omega
      have hfill : filled (data.take k) ≤ filled data := filled_mono fun hnil => by
        rw [hnil, List.take_nil]
      rw [nfilled_cons] at hn
      obtain ⟨hsmall, hsame⟩ := add_block h odd (hsum (data.take k)) (by omega)
      have hlen' : len - k ≤ (b.data ++ bytes bp).length := by
        rw [length_append, bytes_cons] at hlen
        omega
      obtain ⟨hsmall', hsame'⟩ := ih b.data (len - k) (odd ^^ k.bodd) hsmall hlen' (by omega)
      simp only [hk]
      refine ⟨hsmall', hsame'.trans ?_⟩
      have hklen : (data.take k).length = k := by
        rw [length_take]
        omega
      rw [htake, weigh_append, hklen, ← Nat.add_assoc]
      exact hsame.add (SameSum.refl _ _)

/-! ### The front of the data -/

/-- The last block has no bytes. -/
def EndsEmpty (bp : List Block) : Prop := ∃ b ∈ bp.getLast?, b.data = []

theorem endsEmpty_cons {b : Block} {bp : List Block} (h : bp ≠ []) :
    EndsEmpty (b :: bp) ↔ EndsEmpty bp := by
  obtain ⟨c, bp, rfl⟩ := exists_cons_of_ne_nil h
  rw [EndsEmpty, EndsEmpty, List.getLast?_cons_cons]

/-- **The first loop stands at the byte asked for.** -/
theorem skipFront_spec (bp : List Block) (offset : ℕ) (h : offset ≤ (bytes bp).length) :
    (bytes (skipFront bp offset).1).drop (skipFront bp offset).2 = (bytes bp).drop offset ∧
      (skipFront bp offset).2 ≤ (bytes (skipFront bp offset).1).length ∧
      nfilled (skipFront bp offset).1 ≤ nfilled bp ∧
      ∀ b ∈ (skipFront bp offset).1.head?, (skipFront bp offset).2 ≤ b.blen := by
  induction bp generalizing offset with
  | nil => exact ⟨rfl, h, Nat.le_refl _, fun b hb => by cases hb⟩
  | cons b bp ih =>
    rw [skipFront]
    split
    · rename_i hskip
      rw [bytes_cons, length_append] at h
      obtain ⟨hdrop, hle, hfilled, hhead⟩ := ih (offset - b.blen) (by rw [Block.blen]; omega)
      refine ⟨?_, hle, ?_, hhead⟩
      · rw [hdrop, bytes_cons, drop_append, drop_eq_nil_of_le hskip.2, nil_append]
        rfl
      · rw [nfilled_cons]
        omega
    · rename_i hstay
      refine ⟨rfl, h, Nat.le_refl _, ?_⟩
      intro c hc
      obtain rfl : b = c := Option.some_inj.1 hc
      -- the loop stops at a block with a byte at `offset`, or at the front of one
      show offset ≤ b.blen
      omega

/-- No block is left where the packet ends at `offset`, unless an empty block follows. -/
theorem skipFront_eq_nil_iff (bp : List Block) (offset : ℕ) (h : offset ≤ (bytes bp).length) :
    (skipFront bp offset).1 = [] ↔ ¬(offset < (bytes bp).length ∨ EndsEmpty bp) := by
  induction bp generalizing offset with
  | nil =>
    refine ⟨fun _ => ?_, fun _ => rfl⟩
    rintro (hlt | ⟨b, hb, -⟩)
    · exact Nat.not_lt_zero offset hlt
    · cases hb
  | cons b bp ih =>
    rw [bytes_cons, length_append] at h ⊢
    rw [skipFront]
    split
    · rename_i hskip
      rw [Block.blen] at hskip ⊢
      rw [ih (offset - b.data.length) (by omega)]
      by_cases hbp : bp = []
      · -- the last block: it is skipped, so it has bytes
        have hne : ¬EndsEmpty (b :: bp) := by
          rintro ⟨c, hc, hdata⟩
          rw [hbp] at hc h
          obtain rfl : b = c := Option.some_inj.1 hc
          rw [hdata] at h hskip
          exact hskip.1 (Nat.le_zero.1 h)
        have hne' : ¬EndsEmpty bp := by
          rintro ⟨c, hc, -⟩
          rw [hbp] at hc
          cases hc
        rw [or_iff_left hne, or_iff_left hne']
        omega
      · rw [endsEmpty_cons hbp]
        have hsub : offset - b.data.length < (bytes bp).length ↔
            offset < b.data.length + (bytes bp).length := by omega
        rw [hsub]
    · rename_i hstay
      refine iff_of_false (cons_ne_nil b bp) (not_not_intro ?_)
      by_cases hlt : offset < b.data.length + (bytes bp).length
      · exact Or.inl hlt
      · -- the packet is empty, and every block of it is
        right
        rw [Block.blen] at hstay
        have hempty : bytes (b :: bp) = [] := by
          rw [← length_eq_zero_iff, bytes_cons, length_append]
          omega
        obtain ⟨c, hc⟩ : ∃ c, (b :: bp).getLast? = some c :=
          ⟨_, List.getLast?_eq_some_getLast (cons_ne_nil b bp)⟩
        exact ⟨c, hc, flatMap_eq_nil_iff.1 hempty c (List.mem_of_getLast? hc)⟩

/-! ### The result -/

/-- The accumulators are joined without a carry out of 32 bits. -/
theorem toNat_join (h : Small losum hisum 65537) :
    (losum + (hisum >>> 8) + ((hisum &&& 0xff) <<< 8)).toNat =
      losum.toNat + hisum.toNat / 256 + 256 * (hisum.toNat % 256) := by
  obtain ⟨nl, nh, hle, hlo, hhi⟩ := h
  have hhilt := hisum.toNat_lt
  have hshift : (hisum >>> 8).toNat = hisum.toNat / 256 := by
    rw [UInt32.toNat_shiftRight, Nat.shiftRight_eq_div_pow]
    rfl
  have hlow : (hisum &&& 0xff).toNat = hisum.toNat % 256 := by
    rw [UInt32.toNat_and]
    exact Nat.and_two_pow_sub_one_eq_mod hisum.toNat 8
  have hswap : ((hisum &&& 0xff) <<< 8).toNat = 256 * (hisum.toNat % 256) := by
    rw [UInt32.toNat_shiftLeft, hlow, Nat.shiftLeft_eq]
    show hisum.toNat % 256 * 256 % 4294967296 = _
    omega
  -- one sum in `hisum` only has its bytes swapped; with two there are fewer in `losum`
  have hfit : losum.toNat + hisum.toNat / 256 + 256 * (hisum.toNat % 256) < 4294967296 := by
    obtain rfl | rfl | hnh : nh = 0 ∨ nh = 1 ∨ 2 ≤ nh := by omega
    · omega
    · omega
    · omega
  rw [UInt32.toNat_add, UInt32.toNat_add, hshift, hswap]
  omega

theorem toNat_not_low {x : UInt32} (h : x.toNat = n) :
    (~~~x &&& 0xffff).toUInt16 = ~~~UInt16.ofNat n := by
  have hx : x = UInt32.ofNat n := by
    rw [← h, UInt32.ofNat_toNat]
  have hones : (65535 : UInt16) = -1 := rfl
  rw [hx, UInt32.toUInt16_and, UInt32.toUInt16_not, UInt32.toUInt16_ofNat']
  show ~~~UInt16.ofNat n &&& 65535 = _
  rw [hones, UInt16.and_neg_one]

/-- **The checksum does not depend on how a packet is cut into blocks.** It is the complement
of the one's-complement sum of the bytes, for a packet of 65537 blocks with bytes at most.
Where no block is left at `offset` it is 0. -/
theorem ptclcsum_eq {ptclbsum : List UInt8 → UInt16}
    (hsum : ∀ data, (ptclbsum data).toNat = onesSum data) (bp : List Block) (offset len : ℕ)
    (hlen : offset + len ≤ blocklen bp) (hn : nfilled bp ≤ 65537) :
    (offset < blocklen bp ∨ EndsEmpty bp →
        ptclcsum ptclbsum bp offset len =
          ~~~UInt16.ofNat (onesSum (((bytes bp).drop offset).take len))) ∧
      (¬(offset < blocklen bp ∨ EndsEmpty bp) → ptclcsum ptclbsum bp offset len = 0) := by
  rw [blocklen_eq] at hlen ⊢
  obtain ⟨hdrop, hle, hfilled, hhead⟩ := skipFront_spec bp offset (by omega)
  have hnil := skipFront_eq_nil_iff bp offset (by omega)
  rw [ptclcsum, ← hdrop]
  have hlen' : len ≤ ((bytes bp).drop offset).length := by
    rw [List.length_drop]
    omega
  rw [← hdrop] at hlen'
  generalize skipFront bp offset = left at hle hfilled hhead hnil hlen'
  obtain ⟨_ | ⟨b, bp'⟩, o⟩ := left
  · exact ⟨fun h => absurd h (hnil.1 rfl), fun _ => rfl⟩
  · refine ⟨fun _ => ?_, fun h => absurd (hnil.2 h) (List.cons_ne_nil b bp')⟩
    have hob : o ≤ b.data.length := hhead b rfl
    have hbytes : (bytes (b :: bp')).drop o = b.data.drop o ++ bytes bp' := by
      rw [bytes_cons, List.drop_append_of_le_length hob]
    simp only [hbytes] at hlen' ⊢
    rcases bp' with _ | ⟨c, bp'⟩
    · -- one block
      rw [bytes_nil, List.append_nil, ← hsum, UInt16.ofNat_toNat]
    · have hfill : filled (b.data.drop o) ≤ filled b.data := filled_mono fun h => by
        rw [h, List.drop_nil]
      have hcount : filled (b.data.drop o) + nfilled (c :: bp') ≤ 65537 := by
        change nfilled (b :: c :: bp') ≤ nfilled bp at hfilled
        rw [nfilled_cons] at hfilled
        omega
      have hzero : Small 0 0 0 := ⟨0, 0, Nat.le_refl 0, Nat.le_refl 0, Nat.le_refl 0⟩
      obtain ⟨hsmall, hsame⟩ := sumLoop_spec hsum (c :: bp') (b.data.drop o) len false hzero
        hlen' (by omega)
      refine toNat_not_low ?_
      rw [toNat_foldCarry, toNat_join hsmall, onesSum_eq, residue_eq_iff]
      refine SameSum.trans ?_ (hsame.trans ?_)
      · constructor
        · omega
        · omega
      · show SameSum 65535 (0 + 256 * 0 + _) _
        rw [Nat.mul_zero, Nat.add_zero, Nat.zero_add]
        exact SameSum.refl _ _

/-! ### Beyond the limits -/

/-- `ptclbsum` by its specification. -/
def refSum (data : List UInt8) : UInt16 := UInt16.ofNat (onesSum data)

theorem toNat_refSum (data : List UInt8) : (refSum data).toNat = onesSum data :=
  UInt16.toNat_ofNat_of_lt (Nat.lt_succ_of_le (onesSum_le data))

theorem ptclcsum_eq_two :
    ptclcsum refSum [⟨[0x12], 1, Nat.le_refl 1⟩, ⟨[0x34, 0x56], 2, Nat.le_refl 2⟩] 0 3 =
      ~~~UInt16.ofNat (onesSum [0x12, 0x34, 0x56]) :=
  (ptclcsum_eq toNat_refSum [⟨[0x12], 1, Nat.le_refl 1⟩, ⟨[0x34, 0x56], 2, Nat.le_refl 2⟩] 0 3
    (by decide) (by decide)).1 (Or.inl (by decide))

/-- A block of one word with all bits. -/
def fullBlock : Block := ⟨[0xff, 0xff], 2, Nat.le_refl 2⟩

/-- Full blocks add 65535 each to `losum`. -/
theorem sumLoop_full (n : ℕ) (losum : UInt32) :
    sumLoop refSum fullBlock.data (replicate n fullBlock) (2 * (n + 1)) false losum 0 =
      (losum + UInt32.ofNat (65535 * (n + 1)), 0) := by
  have hcsum : (refSum (fullBlock.data.take 2)).toUInt32 = UInt32.ofNat 65535 := rfl
  induction n generalizing losum with
  | zero => rfl
  | succ n ih =>
    have hlt : ¬2 * (n + 1 + 1) < 2 := by omega
    have hlen : fullBlock.data.length = 2 := rfl
    have hodd : (false ^^ Nat.bodd 2) = false := rfl
    rw [replicate_succ, sumLoop, if_neg (by omega)]
    simp only [hlen, if_neg hlt, hcsum, hodd, Bool.false_eq_true, if_false]
    rw [show 2 * (n + 1 + 1) - 2 = 2 * (n + 1) by omega, ih, UInt32.add_assoc, ← UInt32.ofNat_add,
      show 65535 + 65535 * (n + 1) = 65535 * (n + 1 + 1) by ring]

theorem blocklen_full (n : ℕ) : blocklen (replicate n fullBlock) = 2 * n := by
  induction n with
  | zero => rfl
  | succ n ih =>
    have hlen : fullBlock.blen = 2 := rfl
    rw [replicate_succ, blocklen, map_cons, sum_cons, ← blocklen, ih, hlen]
    ring

theorem weigh_full (n : ℕ) : weigh false (bytes (replicate n fullBlock)) = 65535 * n := by
  induction n with
  | zero => rfl
  | succ n ih =>
    have hone : weigh false fullBlock.data = 65535 := rfl
    have hodd : (false ^^ fullBlock.data.length.bodd) = false := rfl
    rw [replicate_succ, bytes_cons, weigh_append, hodd, ih, hone]
    ring

/-- The sum of a packet of full blocks, before it is complemented. -/
theorem ptclcsum_full (n : ℕ) : ptclcsum refSum (replicate (n + 2) fullBlock) 0 (2 * (n + 2)) =
      (~~~foldCarry (UInt32.ofNat (65535 * (n + 2))) &&& 0xffff).toUInt16 := by
  have hsum := sumLoop_full (n + 1) 0
  have hfront : skipFront (replicate (n + 2) fullBlock) 0 =
      (fullBlock :: fullBlock :: replicate n fullBlock, 0) := by
    rw [replicate_succ, replicate_succ, skipFront, if_neg (by simp)]
  rw [replicate_succ] at hsum
  rw [ptclcsum, hfront]
  simp only [drop_zero, hsum, UInt32.zero_add]
  have hzero : (0 : UInt32) >>> 8 = 0 := rfl
  have hzero' : ((0 : UInt32) &&& 0xff) <<< 8 = 0 := rfl
  rw [hzero, hzero', UInt32.add_zero, UInt32.add_zero]

/-- **The limits are there.** At the end of a packet the result is not the complement of the
empty sum, and 65538 full blocks overflow the accumulator. -/
theorem ptclcsum_losses :
    (blocklen [fullBlock] = 2 ∧ ptclcsum refSum [fullBlock] 2 0 = 0 ∧
      ~~~UInt16.ofNat (onesSum []) = 0xffff) ∧
      ∃ n, n = 65538 ∧ blocklen (List.replicate n fullBlock) = 2 * n ∧
        ptclcsum refSum (List.replicate n fullBlock) 0 (2 * n) = 1 ∧
        ~~~UInt16.ofNat (onesSum (bytes (List.replicate n fullBlock))) = 0 := by
  have hwrap : UInt32.ofNat (65535 * (65536 + 2)) = 65534 := rfl
  have hcarry : ((65534 : UInt32) >>> 16).toUInt16 = 0 := rfl
  have hlast : foldCarry 65534 = 65534 := by
    rw [foldCarry]
    exact if_pos hcarry
  have hres : residue 65535 (65535 * (65536 + 2)) = 65535 := by
    rw [residue]
    norm_num
  refine ⟨⟨rfl, rfl, rfl⟩, 65536 + 2, rfl, ?_, ?_, ?_⟩
  · exact blocklen_full _
  · rw [ptclcsum_full, hwrap, hlast]
    rfl
  · rw [onesSum_eq, weigh_full, hres]
    rfl

end Ip

end Plan9
