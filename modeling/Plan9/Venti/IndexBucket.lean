import Mathlib.Data.Nat.Bitwise
import Plan9.Lib.SortedTable
import Plan9.Venti.Icache

/-!
# An entry goes into its bucket

A bucket of the index is a table sorted by score and type, packed into the bytes of a block.
`bucklook` finds the place of an entry in it, by an answer that is odd if the entry is there, and
the entry then takes the place of the old one or is moved in between the others.

* `Plan9.Venti.Icache.buckLook_spec` – where `bucklook` ends in a bucket that is sorted;
* `Plan9.Venti.Icache.insertEntry_spec` – the bytes are changed as `Plan9.Lib.tryPut` changes the
  table.
-/

namespace Plan9

namespace Venti

open Lib LibVenti List

namespace Icache

/-! ### Keys -/

/-- The key of a packed entry: its score, then its type. -/
def entryKey (e : List UInt8) : ℕ :=
  beVal (e.take vtScoreSize) * 256 + (e.getD iEntryTypeOff 0).toNat

/-- The key of a score and a type on disk. -/
def scoreKey (score : Score) (type : ℕ) : ℕ := beVal score.toList * 256 + type

/-- The key of an entry of the cache. -/
def IEntry.key (ie : IEntry) : ℕ := scoreKey ie.score (vtToDiskType ie.ia.type.toNat)

theorem vtToDiskType_lt (n : ℕ) : vtToDiskType n < 256 := by
  rcases Nat.lt_or_ge n 17 with h | h
  · revert n
    decide
  · rw [vtToDiskType, getD_eq_default _ _ (by rw [toDisk_length]; exact h)]
    decide

theorem length_packIEntry (ie : IEntry) : (packIEntry ie).length = iEntrySize := by
  simp [packIEntry, put64, iEntrySize, vtScoreSize]

theorem entryKey_packIEntry (ie : IEntry) : entryKey (packIEntry ie) = ie.key := by
  have hscore : (packIEntry ie).take vtScoreSize = ie.score.toList := by
    rw [packIEntry, take_left' (by simp [vtScoreSize])]
  have htype : (packIEntry ie).getD iEntryTypeOff 0 =
      UInt8.ofNat (vtToDiskType ie.ia.type.toNat) := by
    rw [packIEntry]
    simp [put64, iEntryTypeOff, vtScoreSize]
  rw [entryKey, hscore, htype, UInt8.toNat_ofNat', Nat.mod_eq_of_lt (vtToDiskType_lt _)]
  rfl

/-- What is read back from a packed entry. -/
theorem unpackIAddr_packIEntry (ie : IEntry) : unpackIAddr (packIEntry ie) =
    { ie.ia with type := UInt8.ofNat (vtFromDiskType (vtToDiskType ie.ia.type.toNat)) } := by
  have hfront : (ie.score.toList ++ beBytes 4 0 ++ beBytes 2 0).length = iEntryAddrOff := by
    simp [iEntryAddrOff, vtScoreSize]
  have hsplit : packIEntry ie = (ie.score.toList ++ beBytes 4 0 ++ beBytes 2 0) ++
      (put64 ie.ia.addr ++ (beBytes 2 ie.ia.size.toNat ++
        [UInt8.ofNat (vtToDiskType ie.ia.type.toNat), ie.ia.blocks])) := by
    simp only [packIEntry, append_assoc]
  have h8 : (put64 ie.ia.addr).length = 8 := length_beBytes 8 _
  have haddr : ((packIEntry ie).drop iEntryAddrOff).take 8 = put64 ie.ia.addr := by
    rw [hsplit, drop_left' hfront, take_left' h8]
  have hsize : ((packIEntry ie).drop (iEntryAddrOff + 8)).take 2 = beBytes 2 ie.ia.size.toNat := by
    rw [← drop_drop, hsplit, drop_left' hfront, drop_left' h8, take_left' (length_beBytes 2 _)]
  have htype : (packIEntry ie).getD iEntryTypeOff 0 =
      UInt8.ofNat (vtToDiskType ie.ia.type.toNat) := by
    simp [packIEntry, put64, iEntryTypeOff, vtScoreSize]
  have hblocks : (packIEntry ie).getD (iEntryTypeOff + 1) 0 = ie.ia.blocks := by
    simp [packIEntry, put64, iEntryTypeOff, vtScoreSize]
  rw [unpackIAddr, haddr, hsize, htype, hblocks, put64, beVal_beBytes ie.ia.addr.toNat_lt,
    beVal_beBytes ie.ia.size.toNat_lt, UInt8.toNat_ofNat', Nat.mod_eq_of_lt (vtToDiskType_lt _),
    UInt64.ofNat_toNat, UInt16.ofNat_toNat]

/-- Numbers with a low byte are compared by their high parts first. -/
theorem compare_byte {a b c d : ℕ} (hb : b < 256) (hd : d < 256) :
    compare (a * 256 + b) (c * 256 + d) = match compare a c with
      | .eq => if b ≠ d then if b < d then .lt else .gt else .eq
      | o => o := by
  rcases lt_trichotomy a c with h | rfl | h
  · rw [compare_lt_iff_lt.2 h]
    exact compare_lt_iff_lt.2 (by omega)
  · rw [compare_eq_iff_eq.2 rfl]
    rcases lt_trichotomy b d with h | rfl | h
    · rw [compare_lt_iff_lt.2 (by omega)]
      simp only
      rw [if_pos h.ne, if_pos h]
    · rw [compare_eq_iff_eq.2 rfl]
      simp only
      rw [if_neg (not_not_intro rfl)]
    · rw [compare_gt_iff_gt.2 (by omega)]
      simp only
      rw [if_pos h.ne', if_neg h.not_gt]
  · rw [compare_gt_iff_gt.2 h]
    exact compare_gt_iff_gt.2 (by omega)

variable {e : List UInt8}

/-- **`ientrycmp` compares the keys.** -/
theorem ientryCmp_eq {e' : List UInt8} (he : e.length = iEntrySize) (he' : e'.length = iEntrySize) :
    ientryCmp e e' = compare (entryKey e) (entryKey e') := by
  have hscore : memCmp (e.take vtScoreSize) (e'.take vtScoreSize) =
      compare (beVal (e.take vtScoreSize)) (beVal (e'.take vtScoreSize)) :=
    memCmp_eq (by simp [he, he'])
  rw [entryKey, entryKey, compare_byte (UInt8.toNat_lt _) (UInt8.toNat_lt _), ← hscore]
  unfold ientryCmp
  cases memCmp (e.take vtScoreSize) (e'.take vtScoreSize) <;> rfl

/-- **`bucklook` compares the keys**, if it looks for a type. -/
theorem buckCmp_eq (score : Score) {type : ℕ} (htype : type < 256) (data : Buffer) (h : ℕ) :
    buckCmp score type data h = compare (entryKey (data.load h iEntrySize))
      (scoreKey score type) := by
  have hscore : (data.load h iEntrySize).take vtScoreSize = data.load h vtScoreSize :=
    Buffer.take_load data h (by decide)
  have hlt : iEntryTypeOff < (data.load h iEntrySize).length := by
    rw [Buffer.length_load]
    decide
  have hbyte : (data.load h iEntrySize).getD iEntryTypeOff 0 = data (h + iEntryTypeOff) := by
    rw [getD_eq_getElem _ _ hlt, Buffer.getElem_load]
  rw [buckCmp, memCmp_eq (by simp [vtScoreSize]), entryKey, hscore, hbyte, scoreKey,
    compare_byte (UInt8.toNat_lt _) htype]
  cases compare (beVal (data.load h vtScoreSize)) (beVal score.toList) with
  | lt => rfl
  | gt => rfl
  | eq =>
    simp only
    split
    next hne =>
      have hne' : (data (h + iEntryTypeOff)).toNat ≠ type := fun heq => hne.1 (by rw [heq])
      rw [if_pos hne']
      split <;> split <;> first | rfl | omega
    next heq =>
      have heq' : (data (h + iEntryTypeOff)).toNat = type := by
        by_contra hne
        refine heq ⟨fun hcc => hne ?_, by omega⟩
        exact_mod_cast hcc.symm
      rw [if_neg (not_not_intro heq')]

/-! ### Buckets -/

variable {is : Sect} {d d' : Buffer} {a b : ℕ} {ie : IEntry}

/-- The entries of the bucket at an address. -/
def bucketEntries (is : Sect) (d : Buffer) (a : ℕ) : List (List UInt8) :=
  (List.range (unpackIBucket d a is.bucketmagic).n).map
    fun i => d.load (a + iBucketSize + i * iEntrySize) iEntrySize

theorem length_bucketEntries (is : Sect) (d : Buffer) (a : ℕ) : (bucketEntries is d a).length =
    (unpackIBucket d a is.bucketmagic).n := by
  rw [bucketEntries, length_map, length_range]

variable {i : ℕ}

theorem getElem_bucketEntries (hi : i < (bucketEntries is d a).length) :
    (bucketEntries is d a)[i] = d.load (a + iBucketSize + i * iEntrySize) iEntrySize := by
  simp only [bucketEntries, getElem_map, getElem_range]

theorem length_of_mem_bucketEntries (he : e ∈ bucketEntries is d a) : e.length = iEntrySize := by
  obtain ⟨i, -, rfl⟩ := mem_map.1 he
  exact Buffer.length_load _ _ _

theorem bsize_eq (is : Sect) : is.bsize = is.blocksize.toNat := by
  have h := is.ok
  simp only [okSect, Bool.decide_and, Bool.and_eq_true, decide_eq_true_eq] at h
  exact h.1.symm

variable {n : ℕ}

/-- A bucket lies in its block. -/
theorem bucket_le (hn : n ≤ is.buckMax) : iBucketSize + n * iEntrySize ≤ is.bsize := by
  have h := is.header_le
  have hdiv : is.buckMax * iEntrySize ≤ is.blocksize.toNat - iBucketSize := Nat.div_mul_le_self _ _
  have hmul := Nat.mul_le_mul_right iEntrySize hn
  rw [bsize_eq]
  omega

theorem buckMax_lt (is : Sect) : is.buckMax < 65536 := by
  have h := is.blocksize_le
  have hle : is.buckMax ≤ is.blocksize.toNat - iBucketSize := Nat.div_le_self _ _
  have hpos : iBucketSize = 6 := rfl
  have hmax : maxDiskBlock = 65536 := rfl
  omega

/-- A bucket that is not corrupt is determined by the bytes of its block. -/
theorem bucketEntries_congr (hn : (unpackIBucket d a is.bucketmagic).n ≤ is.buckMax)
    (h : ∀ j < is.bsize, d' (b + j) = d (a + j)) :
      bucketEntries is d' b = bucketEntries is d a := by
  have hle := bucket_le hn
  have h6 : iBucketSize = 6 := rfl
  have hunpack : (unpackIBucket d' b is.bucketmagic).n = (unpackIBucket d a is.bucketmagic).n := by
    have hmagic : d'.load (b + 2) 4 = d.load (a + 2) 4 := by
      refine ext_getElem (by simp) fun k hk _ => ?_
      rw [Buffer.length_load] at hk
      rw [Buffer.getElem_load, Buffer.getElem_load, Nat.add_assoc, Nat.add_assoc, h _ (by omega)]
    simp only [unpackIBucket, hmagic, Buffer.get16_congr fun k hk => h k (by omega)]
  refine ext_getElem (by rw [length_bucketEntries, length_bucketEntries, hunpack])
    fun i hi hi' => ?_
  rw [getElem_bucketEntries, getElem_bucketEntries]
  rw [length_bucketEntries] at hi'
  have hmul : (i + 1) * iEntrySize ≤ (unpackIBucket d a is.bucketmagic).n * iEntrySize :=
    Nat.mul_le_mul_right _ hi'
  rw [Nat.succ_mul] at hmul
  refine ext_getElem (by simp) fun k hk _ => ?_
  rw [Buffer.length_load] at hk
  have hidx : ∀ c, c + iBucketSize + i * iEntrySize + k = c + (iBucketSize + i * iEntrySize + k) :=
    fun c => by omega
  rw [Buffer.getElem_load, Buffer.getElem_load, hidx, hidx, h _ (by omega)]

/-! ### Looking an entry up -/

theorem even_mul_iEntrySize (i : ℕ) : i * iEntrySize = 2 * (i * 19) := by
  have h : iEntrySize = 38 := rfl
  rw [h]
  omega

theorem or_one (i : ℕ) : i * iEntrySize ||| 1 = i * iEntrySize + 1 := by
  rw [even_mul_iEntrySize]
  exact (Nat.two_pow_add_eq_or_of_lt (i := 1) (b := 1) (by decide) (i * 19)).symm

/-- What the two answers of `bucklook` look like to its caller. -/
theorem and_one_found (i : ℕ) : (i * iEntrySize + 1) &&& 1 ≠ 0 ∧
    (i * iEntrySize + 1) ^^^ 1 = i * iEntrySize := by
  rw [even_mul_iEntrySize, Nat.and_one_is_mod, Nat.xor_one_of_odd ⟨i * 19, rfl⟩]
  omega

theorem and_one_absent (i : ℕ) : ¬(i * iEntrySize) &&& 1 ≠ 0 := by
  rw [even_mul_iEntrySize, Nat.and_one_is_mod]
  omega

/-- **Where `bucklook` ends** in a sorted bucket: at the entry of the key, or where that would
be. -/
theorem buckLook_spec (score : Score) {otype : ℕ} (hotype : otype < 2 ^ 32) {data : Buffer}
    (hsorted : ∀ i j, i < j → j < n → entryKey (data.load (i * iEntrySize) iEntrySize) <
      entryKey (data.load (j * iEntrySize) iEntrySize)) :
    (∃ i < n, entryKey (data.load (i * iEntrySize) iEntrySize) =
        scoreKey score (vtToDiskType otype) ∧
      buckLook score otype data n = i * iEntrySize + 1) ∨
    ∃ i ≤ n, (∀ j < i, entryKey (data.load (j * iEntrySize) iEntrySize) <
        scoreKey score (vtToDiskType otype)) ∧
      (∀ j, i ≤ j → j < n → scoreKey score (vtToDiskType otype) <
        entryKey (data.load (j * iEntrySize) iEntrySize)) ∧
      buckLook score otype data n = i * iEntrySize := by
  have htype : (if (otype : ℤ) = -1 then (-1 : ℤ) else vtToDiskType ((otype : ℤ) % 2 ^ 32).toNat) =
      (vtToDiskType otype : ℕ) := by
    have hmod : ((otype : ℤ) % 2 ^ 32).toNat = otype := by
      rw [Int.emod_eq_of_lt (by omega) (by omega), Int.toNat_natCast]
    rw [if_neg (by omega), hmod]
  have hcmp : ∀ m, buckCmp score (vtToDiskType otype : ℕ) data (m * iEntrySize) =
      compare (entryKey (data.load (m * iEntrySize) iEntrySize))
        (scoreKey score (vtToDiskType otype)) := fun m => buckCmp_eq score (vtToDiskType_lt _) _ _
  simp only [buckLook, htype, hcmp]
  have hlt : ∀ i j, i < j → j < n → compare (entryKey (data.load (j * iEntrySize) iEntrySize))
        (scoreKey score (vtToDiskType otype)) ≠ .gt →
      compare (entryKey (data.load (i * iEntrySize) iEntrySize))
        (scoreKey score (vtToDiskType otype)) = .lt := by
    intro i j hij hj hle
    rw [Ne, compare_gt_iff_gt, not_lt] at hle
    exact compare_lt_iff_lt.2 ((hsorted i j hij hj).trans_le hle)
  have hgt : ∀ i j, i < j → j < n → compare (entryKey (data.load (i * iEntrySize) iEntrySize))
        (scoreKey score (vtToDiskType otype)) ≠ .lt →
      compare (entryKey (data.load (j * iEntrySize) iEntrySize))
        (scoreKey score (vtToDiskType otype)) = .gt := by
    intro i j hij hj hge
    rw [Ne, compare_lt_iff_lt, not_lt] at hge
    exact compare_gt_iff_gt.2 (hge.trans_lt (hsorted i j hij hj))
  rcases searchIn_spec hlt hgt with ⟨i, hi, heq, hfound⟩ | ⟨i, hi, hlo, hhi, habsent⟩
  · refine Or.inl ⟨i, hi, compare_eq_iff_eq.1 heq, ?_⟩
    rw [hfound]
    exact or_one i
  · refine Or.inr ⟨i, hi, fun j hj => compare_lt_iff_lt.1 (hlo j hj),
      fun j h1 h2 => compare_gt_iff_gt.1 (hhi j h1 h2), ?_⟩
    rw [habsent]

/-! ### Putting an entry in -/

theorem load_shift (d : Buffer) (b h n : ℕ) :
    Buffer.load (fun i => d (b + i)) h n = d.load (b + h) n := by
  simp only [Buffer.load, Nat.add_assoc]

theorem unpackIBucket_packIBucket (hn : n < 65536) (d : Buffer) (a : ℕ) (magic : UInt32) :
    (unpackIBucket (packIBucket n d a magic) a magic).n = n := by
  have hmagic : (packIBucket n d a magic).load (a + 2) 4 = put32 magic := by
    have h := Buffer.load_store (d.put16 a n) (a + 2) (put32 magic)
    rwa [put32, length_beBytes] at h
  have hval : magic.toNat = beVal (put32 magic) := (beVal_beBytes magic.toNat_lt).symm
  simp only [unpackIBucket, hmagic]
  rw [if_neg fun h => h.2 hval, packIBucket, Buffer.get16_store_of_disjoint (Or.inl le_rfl),
    Buffer.get16_put16 d a hn]

theorem packIBucket_apply {j : ℕ} {magic : UInt32} (h : j < a ∨ a + iBucketSize ≤ j) :
    packIBucket n d a magic j = d j := by
  have h6 : iBucketSize = 6 := rfl
  rcases h with h | h
  · rw [packIBucket, Buffer.store_of_lt (by omega), Buffer.put16_apply_of_ne d (Or.inl h)]
  · rw [packIBucket, Buffer.store_of_ge (by rw [put32, length_beBytes]; omega),
      Buffer.put16_apply_of_ne d (Or.inr (by omega))]

/-- The entries of a bucket whose header was just written. -/
theorem bucketEntries_packIBucket (hn : n < 65536) (d : Buffer) (a : ℕ) :
    bucketEntries is (packIBucket n d a is.bucketmagic) a =
      (List.range n).map fun i => d.load (a + iBucketSize + i * iEntrySize) iEntrySize := by
  rw [bucketEntries, unpackIBucket_packIBucket hn]
  refine map_congr_left fun i _ => Buffer.load_congr fun k _ => ?_
  exact packIBucket_apply (Or.inr (by omega))

/-- **An entry is overwritten.** -/
theorem bucketEntries_store (he : e.length = iEntrySize)
    (hn : (bucketEntries is d a).length ≤ is.buckMax) :
    bucketEntries is (packIBucket (bucketEntries is d a).length
      (d.store (a + iBucketSize + i * iEntrySize) e) a is.bucketmagic) a =
      (bucketEntries is d a).set i e := by
  have hmax := buckMax_lt is
  rw [bucketEntries_packIBucket (by omega)]
  refine ext_getElem (by simp) fun j hj hj' => ?_
  rw [length_set] at hj'
  rw [getElem_set, getElem_map, getElem_range]
  split
  next heq =>
    subst heq
    rw [← he, Buffer.load_store]
  next hne =>
    rw [getElem_bucketEntries, Buffer.load_store_of_disjoint]
    rw [he]
    rcases Nat.lt_or_gt_of_ne hne with hlt | hlt
    · have hmul := Nat.mul_le_mul_right iEntrySize hlt
      rw [Nat.succ_mul] at hmul
      omega
    · have hmul := Nat.mul_le_mul_right iEntrySize hlt
      rw [Nat.succ_mul] at hmul
      omega

/-- **An entry is moved in**, behind the first `i`. -/
theorem bucketEntries_move (he : e.length = iEntrySize) (hi : i ≤ (bucketEntries is d a).length)
    (hn : (bucketEntries is d a).length < is.buckMax) :
    bucketEntries is (packIBucket ((bucketEntries is d a).length + 1)
      ((d.move (a + iBucketSize + i * iEntrySize + iEntrySize) (a + iBucketSize + i * iEntrySize)
        ((bucketEntries is d a).length * iEntrySize - i * iEntrySize)).store
          (a + iBucketSize + i * iEntrySize) e) a is.bucketmagic) a =
      (bucketEntries is d a).insertIdx i e := by
  have hmax := buckMax_lt is
  rw [bucketEntries_packIBucket (by omega)]
  refine ext_getElem (by simp [length_insertIdx_of_le_length hi]) fun j hj hj' => ?_
  rw [length_insertIdx_of_le_length hi] at hj'
  rw [getElem_map, getElem_range]
  rcases lt_trichotomy j i with hji | rfl | hij
  · -- the entries before it stay where they are
    have hmul := Nat.mul_le_mul_right iEntrySize hji
    rw [Nat.succ_mul] at hmul
    rw [getElem_insertIdx_of_lt hji, getElem_bucketEntries,
      Buffer.load_store_of_disjoint (Or.inl (by omega)), Buffer.move,
      Buffer.load_store_of_disjoint (Or.inl (by omega))]
  · rw [getElem_insertIdx_self, ← he, Buffer.load_store]
  · -- those behind it have moved by one
    obtain ⟨k, rfl⟩ := Nat.exists_eq_add_of_lt hij
    have hk : i + k + 1 - 1 = i + k := rfl
    have hmul : (i + k + 1) * iEntrySize = i * iEntrySize + k * iEntrySize + iEntrySize := by ring
    have hmul' : (i + k) * iEntrySize = i * iEntrySize + k * iEntrySize := by ring
    have hlen : (i + k + 1) * iEntrySize ≤ (bucketEntries is d a).length * iEntrySize :=
      Nat.mul_le_mul_right _ (by omega)
    rw [getElem_insertIdx_of_gt hij]
    simp only [hk]
    rw [getElem_bucketEntries, Buffer.load_store_of_disjoint (Or.inr (by rw [he, hmul]; omega))]
    refine ext_getElem (by simp) fun m hm _ => ?_
    rw [Buffer.length_load] at hm
    have hfrom : a + iBucketSize + (i + k + 1) * iEntrySize + m =
        a + iBucketSize + i * iEntrySize + iEntrySize + (k * iEntrySize + m) := by
      rw [hmul]
      omega
    rw [Buffer.getElem_load, Buffer.getElem_load, hfrom, Buffer.move_add _ _ _ (by omega), hmul']
    congr 1
    omega

theorem insertIdx_eq_append {α : Type*} {l : List α} {x : α} (hi : i ≤ l.length) :
    l.insertIdx i x = l.take i ++ x :: l.drop i := by
  induction i generalizing l with
  | zero => rfl
  | succ i ih =>
    cases l with
    | nil => exact absurd hi (Nat.not_succ_le_zero i)
    | cons y l =>
      rw [insertIdx_succ_cons, ih (Nat.le_of_succ_le_succ hi)]
      rfl

/-- **One entry**: the bytes of its bucket are changed as the table is, and no others. -/
theorem insertEntry_spec (hn : (bucketEntries is d a).length ≤ is.buckMax)
    (hsorted : KeySorted entryKey (bucketEntries is d a)) (ie : IEntry) :
    (insertEntry is ie a d = none ∧
      tryPut entryKey is.buckMax (packIEntry ie) (bucketEntries is d a) = none) ∨
    ∃ d', insertEntry is ie a d = some d' ∧
      tryPut entryKey is.buckMax (packIEntry ie) (bucketEntries is d a) =
        some (bucketEntries is d' a) ∧
      ∀ j, j < a ∨ a + is.bsize ≤ j → d' j = d j := by
  have h6 : iBucketSize = 6 := rfl
  have hlen := length_bucketEntries is d a
  have hkey := entryKey_packIEntry ie
  have hpack := length_packIEntry ie
  have hentry : ∀ i (hi : i < (bucketEntries is d a).length), (bucketEntries is d a)[i] =
      Buffer.load (fun k => d (a + iBucketSize + k)) (i * iEntrySize) iEntrySize := fun i hi => by
    rw [getElem_bucketEntries, load_shift]
  have hbelow : ∀ i j, i < j → j < (bucketEntries is d a).length →
      entryKey (Buffer.load (fun k => d (a + iBucketSize + k)) (i * iEntrySize) iEntrySize) <
        entryKey (Buffer.load (fun k => d (a + iBucketSize + k)) (j * iEntrySize) iEntrySize) := by
    intro i j hij hj
    rw [← hentry i (hij.trans hj), ← hentry j hj]
    exact pairwise_iff_getElem.1 hsorted i j _ _ hij
  have hdata : (unpackIBucket d a is.bucketmagic).data = a + iBucketSize := rfl
  rw [insertEntry]
  simp only [hdata, ← hlen]
  rw [if_pos hn]
  rcases buckLook_spec ie.score (ie.ia.type.toNat_lt.trans (by decide)) hbelow with
    ⟨i, hi, hik, hlook⟩ | ⟨i, hi, hlo, hhi, hlook⟩
  · -- the entry takes the place of an old one
    obtain ⟨hodd, hxor⟩ := and_one_found i
    rw [← hentry i hi] at hik
    have hik' : entryKey (bucketEntries is d a)[i] = entryKey (packIEntry ie) := hik.trans hkey.symm
    rw [hlook, if_pos hodd, hxor]
    refine Or.inr ⟨_, rfl, ?_, fun j hj => ?_⟩
    · rw [tryPut, if_pos (Or.inl ⟨_, getElem_mem hi, hik'⟩), bucketEntries_store hpack hn,
        set_eq_take_append_cons_drop, if_pos hi]
      have hsplit : bucketEntries is d a = (bucketEntries is d a).take i ++
          (bucketEntries is d a)[i] :: (bucketEntries is d a).drop (i + 1) := by
        rw [getElem_cons_drop, take_append_drop]
      conv_lhs => rw [hsplit]
      rw [hsplit] at hsorted
      exact congrArg some (putSorted_of_hit hsorted hik')
    · have hle := bucket_le hn
      have hmul := Nat.mul_le_mul_right iEntrySize hi
      rw [Nat.succ_mul] at hmul
      rw [packIBucket_apply (by omega)]
      rcases hj with hj | hj
      · exact Buffer.store_of_lt (by omega)
      · exact Buffer.store_of_ge (by rw [hpack]; omega)
  · -- there is no old one
    have hno : ¬∃ x ∈ bucketEntries is d a, entryKey x = entryKey (packIEntry ie) := by
      rintro ⟨x, hx, hxk⟩
      obtain ⟨j, hj, rfl⟩ := getElem_of_mem hx
      rw [hkey, hentry j hj] at hxk
      rcases Nat.lt_or_ge j i with hji | hij
      · exact absurd hxk (hlo j hji).ne
      · exact absurd hxk (hhi j hij hj).ne'
    rw [hlook, if_neg (and_one_absent i)]
    rcases Nat.lt_or_ge (bucketEntries is d a).length is.buckMax with hroom | hfull
    · rw [if_pos hroom]
      refine Or.inr ⟨_, rfl, ?_, fun j hj => ?_⟩
      · rw [tryPut, if_pos (Or.inr hroom), bucketEntries_move hpack hi hroom,
          insertIdx_eq_append hi]
        conv_lhs => rw [← take_append_drop i (bucketEntries is d a)]
        refine congrArg some (putSorted_of_split (fun x hx => ?_) fun x hx => ?_)
        · obtain ⟨j, hj, rfl⟩ := getElem_of_mem hx
          rw [length_take] at hj
          rw [getElem_take, hkey, hentry j (by omega)]
          exact hlo j (by omega)
        · obtain ⟨j, hj, rfl⟩ := getElem_of_mem hx
          rw [length_drop] at hj
          rw [getElem_drop, hkey, hentry (i + j) (by omega)]
          exact hhi (i + j) (by omega) (by omega)
      · have hle := bucket_le (Nat.succ_le_of_lt hroom)
        have hmul := Nat.mul_le_mul_right iEntrySize hi
        rw [Nat.succ_mul] at hle
        rw [packIBucket_apply (by omega)]
        rcases hj with hj | hj
        · rw [Buffer.store_of_lt (by omega), Buffer.move_apply_of_ne d (Or.inl (by omega))]
        · rw [Buffer.store_of_ge (by rw [hpack]; omega),
            Buffer.move_apply_of_ne d (Or.inr (by omega))]
    · rw [if_neg (not_lt.2 hfull), tryPut, if_neg (not_or.2 ⟨hno, not_lt.2 hfull⟩)]
      exact Or.inl ⟨rfl, rfl⟩

/-- **A corrupt bucket** takes nothing. -/
theorem insertEntry_corrupt (hn : is.buckMax < (bucketEntries is d a).length) (ie : IEntry) :
    insertEntry is ie a d = none := by
  rw [length_bucketEntries] at hn
  rw [insertEntry]
  exact if_neg (not_le.2 hn)

end Icache

end Venti

end Plan9
