import Plan9.Lib.BinarySearch
import Plan9.Venti.Index

/-!
# Where an index entry lives on disk

The reader of an index finds the section of a bucket by a binary search over the
starts of the sections (`indexsect0`). The writer goes the other way round: for
each section `icachewritesect` computes the range of hashes whose buckets the
section holds, from the products `start * div` and `stop * div - 1` in 32-bit
arithmetic, and writes every dirty entry in that range to the section's disk.

The two agree on every section that holds a bucket, and on an empty one in the
middle of the index. An empty section at either end gets the range of all hashes,
or almost all: at the front `stop * div - 1` wraps below zero, at the back the test
for the last section catches it (`Plan9.Venti.placed_iff`).
-/

namespace Plan9

namespace Venti

open Lib

/-! ### Readers and the writer -/

/-- `hashbits`: the leading bits of a score. -/
def hashBits (sc : Score) (bits : ℕ) : UInt32 :=
  let v := UInt32.ofNat (beVal (sc.toList.take 4))
  if bits < 32 then v >>> UInt32.ofNat (32 - bits) else v

/-- The test of `initisect1` on the numbers of a section: the block size is the
power of two the shift stands for, and the buckets fit the blocks. -/
def okSect (is : ISect) : Bool :=
  is.blocksize.toNat = 2 ^ is.blocklog ∧ ¬is.stop - is.start > is.blocks ∧ ¬is.start > is.stop

/-- `indexsect0`: the number of the section holding a bucket. -/
def indexSect0 (ix : Index) (buck : UInt32) : ℕ :=
  searchLast (fun m => ix.sects[m]?.any fun is => is.start ≤ buck) ix.sects.length

/-- `loadibucket0` up to the read: the section and the address of a bucket. -/
def ibucketAddr (ix : Index) (buck : UInt32) : Option (ISect × UInt64) :=
  match ix.sects[indexSect0 ix buck]? with
  | none => none
  | some is =>
    if buck < is.start ∨ is.stop ≤ buck then none
    else some (is, is.blockbase.toUInt64 +
      (buck - is.start).toUInt64 <<< UInt64.ofNat is.blocklog)

/-- `ie2diskaddr`: the address the writer gives to an entry. -/
def ie2DiskAddr (ix : Index) (is : ISect) (sc : Score) : UInt64 :=
  let bucket := (hashBits sc 32 / ix.div).toUInt64
  is.blockbase.toUInt64 + (bucket - is.start.toUInt64) <<< UInt64.ofNat is.blocklog

/-- The least hash `icachewritesect` writes to a section. -/
def sectLo (ix : Index) (is : ISect) : UInt32 := is.start * ix.div

/-- The greatest hash `icachewritesect` writes to a section. -/
def sectHi (ix : Index) (is : ISect) : UInt32 :=
  if 0xFFFFFFFF / ix.div < is.stop then 0xFFFFFFFF else is.stop * ix.div - 1

/-- The hashes `icachewritesect` writes to a section. -/
def InSect (ix : Index) (is : ISect) (h : UInt32) : Prop := sectLo ix is ≤ h ∧ h ≤ sectHi ix is

instance (ix : Index) (is : ISect) (h : UInt32) : Decidable (InSect ix is h) :=
  inferInstanceAs (Decidable (_ ∧ _))

/-- **Readers and the writer agree on a score**: exactly one section takes it, the
one the readers look in, and at the address they read, which is that of a block of
the section. -/
def Placed (ix : Index) (sc : Score) : Prop :=
  ∃ i is, ix.sects[i]? = some is ∧ InSect ix is (hashBits sc 32) ∧
    (∀ j js, ix.sects[j]? = some js → InSect ix js (hashBits sc 32) → j = i) ∧
    indexSect0 ix (hashBits sc 32 / ix.div) = i ∧
    ibucketAddr ix (hashBits sc 32 / ix.div) = some (is, ie2DiskAddr ix is sc) ∧
    is.blockbase.toNat ≤ (ie2DiskAddr ix is sc).toNat ∧
    (ie2DiskAddr ix is sc).toNat + 2 ^ is.blocklog ≤
      is.blockbase.toNat + is.blocks.toNat * 2 ^ is.blocklog

/-! ### Hashes -/

variable {bits : ℕ}

theorem hashBits_toNat {sc : Score} (hb : 1 ≤ bits) (hb' : bits ≤ 32) :
    (hashBits sc bits).toNat = beVal (sc.toList.take 4) / 2 ^ (32 - bits) := by
  have hlt := beVal_lt (sc.toList.take 4)
  rw [List.length_take, Vector.length_toList] at hlt
  have hv : (UInt32.ofNat (beVal (sc.toList.take 4))).toNat = beVal (sc.toList.take 4) :=
    UInt32.toNat_ofNat_of_lt' hlt
  rw [hashBits]
  rcases hb'.eq_or_lt with rfl | hlt'
  · rw [if_neg (lt_irrefl _), hv, Nat.sub_self, pow_zero, Nat.div_one]
  · have hshift : (UInt32.ofNat (32 - bits)).toNat = 32 - bits :=
      UInt32.toNat_ofNat_of_lt' (show 32 - bits < 2 ^ 32 by omega)
    rw [if_pos hlt', UInt32.toNat_shiftRight, hv, hshift, Nat.mod_eq_of_lt (by omega),
      Nat.shiftRight_eq_div_pow]

theorem hashBits_lt (sc : Score) (hb : 1 ≤ bits) (hb' : bits ≤ 32) :
    (hashBits sc bits).toNat < 2 ^ bits := by
  have hlt := beVal_lt (sc.toList.take 4)
  rw [List.length_take, Vector.length_toList] at hlt
  rw [hashBits_toNat hb hb', Nat.div_lt_iff_lt_mul (Nat.two_pow_pos _), ← pow_add,
    Nat.add_sub_cancel' hb']
  exact hlt

/-- Scores in order have their hashes in order. -/
theorem hashBits_mono {sc sc' : Score} (hb : 1 ≤ bits) (hb' : bits ≤ 32)
    (h : beVal sc.toList ≤ beVal sc'.toList) :
    (hashBits sc bits).toNat ≤ (hashBits sc' bits).toNat := by
  have hsplit : ∀ sc : Score, beVal sc.toList =
      beVal (sc.toList.take 4) * 256 ^ 16 + beVal (sc.toList.drop 4) := by
    intro sc
    have happ := beVal_append (sc.toList.take 4) (sc.toList.drop 4)
    rw [List.take_append_drop] at happ
    rw [happ, List.length_drop, Vector.length_toList]
  have hlow : ∀ sc : Score, beVal (sc.toList.drop 4) < 256 ^ 16 := by
    intro sc
    have hlt := beVal_lt (sc.toList.drop 4)
    rwa [List.length_drop, Vector.length_toList] at hlt
  rw [hashBits_toNat hb hb', hashBits_toNat hb hb']
  refine Nat.div_le_div_right ?_
  by_contra hcon
  have hmul := Nat.mul_le_mul_right (256 ^ 16) (Nat.succ_le_of_lt (not_le.1 hcon))
  rw [hsplit sc, hsplit sc'] at h
  have := hlow sc'
  rw [Nat.succ_mul] at hmul
  omega

/-! ### What an accepted index is -/

/-- An index that `initindex` has accepted, of sections that `initisect` has: the
divisor and the buckets fit, and the sections follow one another. -/
structure Index.Accepted (ix : Index) : Prop where
  bucketing : IsBucketing (2 ^ 32) ix.buckets.toNat ix.div.toNat
  contiguous : Contiguous (rangeStart (sectRanges ix.sects)) (rangeStop (sectRanges ix.sects))
    ix.sects.length ix.buckets.toNat
  sects_ok : ∀ is ∈ ix.sects, okSect is = true

theorem chainFrom_of_checkSects {name : AName} {bs ts : UInt32} :
    ∀ {last lim : UInt32} {sects : List ISect} {smap : List AMap}, smap.length = sects.length →
      checkSects name bs ts last sects smap = .ok lim →
      ChainFrom lim.toNat last.toNat (sectRanges sects)
  | last, lim, [], [], _, h => by
    obtain rfl := Except.ok.inj h
    exact rfl
  | last, lim, is :: sects, m :: smap, hlen, h => by
    rw [checkSects] at h
    split_ifs at h with hbad
    simp only [not_or, not_not] at hbad
    obtain ⟨-, -, -, -, -, -, hlast, hle⟩ := hbad
    have ih := chainFrom_of_checkSects (by simpa using hlen) h
    exact ⟨by rw [hlast], UInt32.le_iff_toNat_le.mp (UInt32.not_lt.mp hle), ih⟩

theorem accepted_of_initIndex {name : AName} {bs : UInt32} {smap : List AMap} {sects : List ISect}
    {ix : Index} (h : initIndex name bs smap sects = .ok ix)
    (hok : ∀ is ∈ sects, okSect is = true) : ix.Accepted := by
  cases sects with
  | nil => exact absurd h (by simp [initIndex])
  | cons is rest =>
    simp only [initIndex] at h
    split_ifs at h with hlen
    rcases hcheck : checkSects name bs is.tabsize 0 (is :: rest) smap with e | last
    · rw [hcheck] at h
      exact absurd h (by simp [bind, Except.bind])
    · rw [hcheck] at h
      obtain ⟨hb, hbuckets, hsects⟩ := initIndex1_isBucketing h
      have hchain := chainFrom_of_checkSects (not_not.mp hlen) hcheck
      have hsects' : ix.sects = is :: rest := hsects
      have hbuckets' : ix.buckets = last := hbuckets
      refine ⟨hb, ?_, hsects' ▸ hok⟩
      rw [hsects', hbuckets']
      have hne : sectRanges (is :: rest) ≠ [] := by simp [sectRanges]
      have hl : (sectRanges (is :: rest)).length = (is :: rest).length := List.length_map _
      rw [← hl]
      exact (chainFrom_zero_iff hne).mp hchain

variable {ix : Index}

variable {is : ISect}

namespace Index.Accepted

variable (hix : ix.Accepted)

variable {i : ℕ}

theorem rangeStart_eq (h : ix.sects[i]? = some is) :
    rangeStart (sectRanges ix.sects) i = is.start.toNat := by
  simp [rangeStart, sectRanges, List.getD_eq_getElem?_getD, h]

theorem rangeStop_eq (h : ix.sects[i]? = some is) :
    rangeStop (sectRanges ix.sects) i = is.stop.toNat := by
  simp [rangeStop, sectRanges, List.getD_eq_getElem?_getD, h]

include hix

theorem start_le_stop (h : ix.sects[i]? = some is) : is.start.toNat ≤ is.stop.toNat := by
  have := hix.contiguous.le i (List.getElem?_eq_some_iff.mp h).1
  rwa [rangeStart_eq h, rangeStop_eq h] at this

theorem stop_le_buckets (h : ix.sects[i]? = some is) : is.stop.toNat ≤ ix.buckets.toNat := by
  have := hix.contiguous.stop_le_top (List.getElem?_eq_some_iff.mp h).1
  rwa [rangeStop_eq h] at this

theorem buckets_pos : 0 < ix.buckets.toNat :=
  (Nat.zero_le _).trans_lt (hix.bucketing.div_lt (h := 0) (by norm_num))

theorem bucket_lt (h : UInt32) : (h / ix.div).toNat < ix.buckets.toNat := by
  rw [UInt32.toNat_div]
  exact hix.bucketing.div_lt h.toNat_lt

/-- The product of `sectLo` does not wrap for a section that starts below the number
of buckets. -/
theorem sectLo_toNat (h : is.start.toNat < ix.buckets.toNat) :
    (sectLo ix is).toNat = is.start.toNat * ix.div.toNat := by
  have hlt := hix.bucketing.pred_mul_lt hix.buckets_pos
  have hle : is.start.toNat * ix.div.toNat ≤ (ix.buckets.toNat - 1) * ix.div.toNat :=
    Nat.mul_le_mul_right _ (by omega)
  rw [sectLo, UInt32.toNat_mul, Nat.mod_eq_of_lt (by omega)]

/-- The test of `sectHi` picks out the sections that reach the last bucket. -/
theorem sectHi_eq (is : ISect) : sectHi ix is =
    if ix.buckets.toNat ≤ is.stop.toNat then 0xFFFFFFFF else is.stop * ix.div - 1 := by
  have hdiv : (0xFFFFFFFF / ix.div : UInt32).toNat + 1 = ix.buckets.toNat := by
    rw [UInt32.toNat_div, ← hix.bucketing.buckets_eq,
      ← pred_div_add_one (by norm_num) hix.bucketing.div_pos]
    rfl
  have hiff : (0xFFFFFFFF / ix.div < is.stop) ↔ ix.buckets.toNat ≤ is.stop.toNat := by
    rw [UInt32.lt_iff_toNat_lt]
    omega
  simp only [sectHi, hiff]

/-- **The range of a section is the range of its buckets**, unless the section is an
empty one at the end or at the front of the index. -/
theorem inSect_iff (hi : ix.sects[i]? = some is)
    (hend : is.start = is.stop → 0 < is.start.toNat ∧ is.start.toNat < ix.buckets.toNat)
    (h : UInt32) : InSect ix is h ↔
      is.start.toNat ≤ (h / ix.div).toNat ∧ (h / ix.div).toNat < is.stop.toNat := by
  have hle := hix.start_le_stop hi
  have htop := hix.stop_le_buckets hi
  have hd := hix.bucketing.div_pos
  have hh := h.toNat_lt
  have hstart : is.start.toNat < ix.buckets.toNat := by
    rcases Nat.eq_or_lt_of_le hle with he | hlt
    · exact (hend (UInt32.toNat_inj.mp he)).2
    · omega
  have hstop : 0 < is.stop.toNat := by
    rcases Nat.eq_or_lt_of_le hle with he | hlt
    · rw [← he]
      exact (hend (UInt32.toNat_inj.mp he)).1
    · omega
  rw [InSect, UInt32.le_iff_toNat_le, UInt32.le_iff_toNat_le, hix.sectLo_toNat hstart,
    hix.sectHi_eq is, UInt32.toNat_div, Nat.le_div_iff_mul_le hd, Nat.div_lt_iff_lt_mul hd]
  refine and_congr_right fun _ => ?_
  split_ifs with hlast
  · -- the last bucket: no hash lies beyond it
    have hmul : 2 ^ 32 ≤ is.stop.toNat * ix.div.toNat :=
      hix.bucketing.le_mul.trans (Nat.mul_le_mul_right _ hlast)
    exact iff_of_true (Nat.le_of_lt_succ hh) (by omega)
  · have hlt := hix.bucketing.pred_mul_lt hix.buckets_pos
    have hmul : is.stop.toNat * ix.div.toNat ≤ (ix.buckets.toNat - 1) * ix.div.toNat :=
      Nat.mul_le_mul_right _ (by omega)
    have hpos : 0 < is.stop.toNat * ix.div.toNat := Nat.mul_pos hstop hd
    have hnat : (is.stop * ix.div - 1).toNat = is.stop.toNat * ix.div.toNat - 1 := by
      have hprod : (is.stop * ix.div).toNat = is.stop.toNat * ix.div.toNat := by
        rw [UInt32.toNat_mul, Nat.mod_eq_of_lt (by omega)]
      rw [UInt32.toNat_sub_of_le _ _
        (UInt32.le_iff_toNat_le.mpr (by rw [hprod]; exact hpos)), hprod]
      rfl
    rw [hnat]
    omega

/-- **The readers' search** finds the section that holds a bucket. -/
theorem indexSect0_spec {buck : UInt32} (hb : buck.toNat < ix.buckets.toNat) :
    ∃ is, ix.sects[indexSect0 ix buck]? = some is ∧ is.start.toNat ≤ buck.toNat ∧
      buck.toNat < is.stop.toNat := by
  have hc := hix.contiguous
  have hpass : ∀ i is, ix.sects[i]? = some is →
      ((ix.sects[i]?.any fun is => decide (is.start ≤ buck)) = true ↔
        rangeStart (sectRanges ix.sects) i ≤ buck.toNat) := by
    intro i is hi
    rw [rangeStart_eq hi]
    simp [hi, UInt32.le_iff_toNat_le]
  have hget : ∀ i, i < ix.sects.length → ∃ is, ix.sects[i]? = some is :=
    fun i hi => ⟨_, List.getElem?_eq_getElem hi⟩
  obtain ⟨hlt, h0, hlast⟩ := searchLast_spec
    (p := fun m => ix.sects[m]?.any fun is => decide (is.start ≤ buck)) hc.pos
    fun i j hij hj hp => by
      obtain ⟨is, hi⟩ := hget i (by omega)
      obtain ⟨js, hjs⟩ := hget j hj
      exact (hpass i is hi).mpr ((hc.start_mono hij hj).trans ((hpass j js hjs).mp hp))
  obtain ⟨is, hi⟩ := hget _ hlt
  have hmem := hc.mem_of_last hlt hb (h0.imp_right (hpass _ is hi).mp) fun j hij hj => by
    obtain ⟨js, hjs⟩ := hget j hj
    have := hlast j hij hj
    by_contra hcon
    rw [(hpass j js hjs).mpr (not_lt.mp hcon)] at this
    exact absurd this (by simp)
  rw [rangeStart_eq hi, rangeStop_eq hi] at hmem
  exact ⟨is, hi, hmem⟩

/-- Two sections that hold a common bucket are the same. -/
theorem sect_unique {j : ℕ} {js : ISect} (hi : ix.sects[i]? = some is) (hj : ix.sects[j]? = some js)
    {x : ℕ} (hxi : is.start.toNat ≤ x ∧ x < is.stop.toNat)
    (hxj : js.start.toNat ≤ x ∧ x < js.stop.toNat) : i = j :=
  hix.contiguous.unique (List.getElem?_eq_some_iff.mp hi).1 (List.getElem?_eq_some_iff.mp hj).1
    (by rw [rangeStart_eq hi, rangeStop_eq hi]; exact hxi)
    (by rw [rangeStart_eq hj, rangeStop_eq hj]; exact hxj)

end Index.Accepted

/-! ### Addresses -/

/-- The address of the bucket `k` of a section, in the 64-bit arithmetic of the source. -/
theorem bucketAddr_toNat (hok : okSect is = true) {k : ℕ} (hk : k < is.blocks.toNat) :
    (is.blockbase.toUInt64 + UInt64.ofNat k <<< UInt64.ofNat is.blocklog).toNat =
      is.blockbase.toNat + k * 2 ^ is.blocklog := by
  simp only [okSect, Bool.decide_and, Bool.and_eq_true, decide_eq_true_eq] at hok
  have hlog : is.blocklog < 32 := by
    have := is.blocksize.toNat_lt
    rw [hok.1] at this
    exact (Nat.pow_lt_pow_iff_right (by norm_num)).mp this
  have h1 := is.blockbase.toNat_lt
  have h2 := is.blocks.toNat_lt
  have hpow : 2 ^ is.blocklog ≤ 2 ^ 31 := Nat.pow_le_pow_right (by norm_num) (by omega)
  have hmul : k * 2 ^ is.blocklog ≤ 2 ^ 32 * 2 ^ 31 := Nat.mul_le_mul (by omega) hpow
  have hknat : (UInt64.ofNat k).toNat = k := UInt64.toNat_ofNat_of_lt' (show k < 2 ^ 64 by omega)
  have hlognat : (UInt64.ofNat is.blocklog).toNat = is.blocklog :=
    UInt64.toNat_ofNat_of_lt' (show is.blocklog < 2 ^ 64 by omega)
  rw [UInt64.toNat_add, UInt64.toNat_shiftLeft, hknat, hlognat, UInt32.toNat_toUInt64,
    Nat.mod_eq_of_lt (show is.blocklog < 64 by omega), Nat.shiftLeft_eq,
    Nat.mod_eq_of_lt (a := k * 2 ^ is.blocklog) (by omega), Nat.mod_eq_of_lt (by omega)]

/-- The reader and the writer compute the same address for a bucket of the section. -/
theorem addr_eq {buck : UInt32} (h : is.start.toNat ≤ buck.toNat) :
    (buck - is.start).toUInt64 = UInt64.ofNat (buck.toNat - is.start.toNat) ∧
      buck.toUInt64 - is.start.toUInt64 = UInt64.ofNat (buck.toNat - is.start.toNat) := by
  have hb := buck.toNat_lt
  have hs := is.start.toNat_lt
  have hk : (UInt64.ofNat (buck.toNat - is.start.toNat)).toNat = buck.toNat - is.start.toNat :=
    UInt64.toNat_ofNat_of_lt' (show _ < 2 ^ 64 by omega)
  refine ⟨UInt64.toNat_inj.mp ?_, UInt64.toNat_inj.mp ?_⟩
  · rw [UInt32.toNat_toUInt64, UInt32.toNat_sub_of_le _ _ (UInt32.le_iff_toNat_le.mpr h), hk]
  · rw [UInt64.toNat_sub, UInt32.toNat_toUInt64, UInt32.toNat_toUInt64, hk]
    omega

theorem sub_le_blocks (hok : okSect is = true) :
    is.stop.toNat - is.start.toNat ≤ is.blocks.toNat := by
  simp only [okSect, Bool.decide_and, Bool.and_eq_true, decide_eq_true_eq] at hok
  have hle := UInt32.not_lt.mp hok.2.2
  have hsub := UInt32.le_iff_toNat_le.mp (UInt32.not_lt.mp hok.2.1)
  rwa [UInt32.toNat_sub_of_le _ _ hle] at hsub

/-! ### When they agree -/

/-- An empty section at the front of the index, or behind its last bucket, takes the
greatest hash – which belongs to another section. -/
theorem inSect_of_empty_end (hix : ix.Accepted) (hempty : is.start = is.stop)
    (hend : ¬(0 < is.start.toNat ∧ is.start.toNat < ix.buckets.toNat)) :
    InSect ix is 0xFFFFFFFF := by
  have hmax : ∀ x : UInt32, x ≤ 0xFFFFFFFF := fun x =>
    UInt32.le_iff_toNat_le.mpr (Nat.le_of_lt_succ x.toNat_lt)
  refine ⟨hmax _, ?_⟩
  rw [hix.sectHi_eq is]
  split_ifs with hlast
  · exact hmax _
  · have hzero : is.stop = 0 := by
      apply UInt32.toNat_inj.mp
      rw [← hempty] at hlast ⊢
      rw [UInt32.toNat_zero]
      omega
    rw [hzero, UInt32.zero_mul]
    exact UInt32.le_refl _

/-- **When the readers and the writer agree on every score**: exactly when no empty
section stands at the front of the index or behind its last bucket. -/
theorem placed_iff {name : AName} {bs : UInt32} {smap : List AMap} {sects : List ISect}
    (h : initIndex name bs smap sects = .ok ix) (hok : ∀ is ∈ sects, okSect is = true) :
    (∀ sc, Placed ix sc) ↔ ∀ is ∈ ix.sects, is.start = is.stop →
      0 < is.start.toNat ∧ is.start.toNat < ix.buckets.toNat := by
  have hix := accepted_of_initIndex h hok
  constructor
  · intro hall is his hempty
    by_contra hend
    obtain ⟨j, hj⟩ := List.getElem?_of_mem his
    obtain ⟨i, is', -, -, huniq, hsect, -⟩ := hall (Vector.replicate 20 0xFF)
    have hhash : hashBits (Vector.replicate 20 0xFF) 32 = 0xFFFFFFFF := by decide
    rw [hhash] at huniq hsect
    obtain ⟨is'', hi', hmem⟩ := hix.indexSect0_spec (hix.bucket_lt 0xFFFFFFFF)
    rw [hsect, ← huniq j is hj (inSect_of_empty_end hix hempty hend), hj] at hi'
    obtain rfl := Option.some.inj hi'
    rw [hempty] at hmem
    omega
  · intro hends sc
    have hends' : ∀ {i : ℕ} {is : ISect}, ix.sects[i]? = some is → is.start = is.stop →
        0 < is.start.toNat ∧ is.start.toNat < ix.buckets.toNat :=
      fun hi => hends _ (List.mem_of_getElem? hi)
    obtain ⟨is, hi, hmem⟩ := hix.indexSect0_spec (hix.bucket_lt (hashBits sc 32))
    have hisok := hix.sects_ok is (List.mem_of_getElem? hi)
    have hk := sub_le_blocks hisok
    obtain ⟨hread, hwrite⟩ := addr_eq hmem.1
    have hdisk : ie2DiskAddr ix is sc = is.blockbase.toUInt64 +
        UInt64.ofNat ((hashBits sc 32 / ix.div).toNat - is.start.toNat) <<<
          UInt64.ofNat is.blocklog := by
      simp only [ie2DiskAddr, hwrite]
    have haddr := bucketAddr_toNat hisok
      (k := (hashBits sc 32 / ix.div).toNat - is.start.toNat) (by omega)
    have hin : ¬(hashBits sc 32 / ix.div < is.start ∨ is.stop ≤ hashBits sc 32 / ix.div) := by
      rw [UInt32.lt_iff_toNat_lt, UInt32.le_iff_toNat_le]
      omega
    refine ⟨_, is, hi, (hix.inSect_iff hi (hends' hi) _).mpr hmem, fun j js hj hin' => ?_, rfl,
      ?_, ?_, ?_⟩
    · exact hix.sect_unique hj hi ((hix.inSect_iff hj (hends' hj) _).mp hin') hmem
    · simp only [ibucketAddr, hi, if_neg hin, hread, hdisk]
    · rw [hdisk, haddr]
      omega
    · rw [hdisk, haddr, Nat.add_assoc, ← Nat.succ_mul]
      exact Nat.add_le_add_left (Nat.mul_le_mul_right _ (by omega)) _

/-! ### An empty section at the front -/

/-- A name of one letter. -/
def letter (c : UInt8) : AName := ⟨[c], by rw [aNameSize]; simp⟩

/-- Two sections of the index "m", the first of them empty. -/
def emptyFront : List ISect :=
  [{ freshSect (letter 97) 100 with index := letter 109 },
    { freshSect (letter 98) 100 with index := letter 109, stop := 100 }]

/-- The section map of `emptyFront`. -/
def emptyFrontMap : List AMap := mapOf emptyFront

/-- **An empty first section takes every hash**: `initindex` accepts the index, and
both of its sections are told to write an entry of the section `1`. -/
theorem emptyFront_not_placed :
    (∀ is ∈ emptyFront, okSect is = true) ∧
      ∃ ix, initIndex (letter 109) 8192 emptyFrontMap emptyFront = .ok ix ∧
        ¬Placed ix (Vector.replicate 20 0) := by
  refine ⟨by decide, _, rfl, ?_⟩
  rintro ⟨i, is, -, -, huniq, -⟩
  have h0 := huniq 0 _ rfl (by decide)
  have h1 := huniq 1 _ rfl (by decide)
  omega

/-- The index of two sections that share a hundred buckets evenly. -/
def evenSects : List ISect :=
  [{ freshSect (letter 97) 100 with index := letter 109, stop := 50 },
    { freshSect (letter 98) 100 with index := letter 109, start := 50, stop := 100 }]

/-- What `initindex` makes of `evenSects`. -/
def evenIndex : Index :=
  { name := letter 109, div := 42949673, buckets := 100, blocksize := 8192,
    tabsize := 524288, sects := evenSects, smap := mapOf evenSects }

/-- Without empty sections every score is placed. -/
theorem evenSects_placed :
    initIndex (letter 109) 8192 (mapOf evenSects) evenSects = .ok evenIndex ∧
      ∀ sc, Placed evenIndex sc := by
  have hinit : initIndex (letter 109) 8192 (mapOf evenSects) evenSects = .ok evenIndex := rfl
  exact ⟨hinit, (placed_iff hinit (by decide)).mpr (by decide)⟩

end Venti

end Plan9
