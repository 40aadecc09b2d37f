import Plan9.Venti.IndexBucket

/-!
# Flushing the dirty entries of a section

`icachewritesect` seen from outside: the buckets of the section are filled with the dirty entries
in the order of their scores, the older of two entries with one score before the newer one, and
those that found room are clean from then on.

* `Plan9.Venti.Icache.iesort_eq_mergeSort` – `iesort` is the stable merge sort;
* `Plan9.Venti.Icache.updateBuf_spec` and `Plan9.Venti.Icache.writeChunks_spec` – a chunk, and
  all chunks, fill the buckets as `Plan9.Lib.fill` does;
* `Plan9.Venti.Icache.Ready.flushes` – what the section and the cache are afterwards.
-/

namespace Plan9

namespace Venti

open Lib LibVenti List Function

namespace Icache

/-! ### The order of the entries -/

variable {α : Type*}

/-- **`iesort` is the stable merge sort.** -/
theorem iesort_eq_mergeSort (le : α → α → Bool) (l : List α) : iesort le l = l.mergeSort le := by
  induction l using iesort.induct with
  | case1 => rw [iesort, mergeSort_nil]
  | case2 x => rw [iesort, mergeSort_singleton]
  | case3 x y l s ih₁ ih₂ =>
    simp only [s, splitList_tail_tail] at ih₁ ih₂
    rw [iesort, mergeSort]
    simp only [splitList_tail_tail, ih₁, ih₂, MergeSort.Internal.splitInTwo_fst,
      MergeSort.Internal.splitInTwo_snd]
    rfl

variable {ix : Index} {is : Sect} {ic ic' : ICache} {dc : Dcache}

/-- The number a score spells. -/
def scoreVal (ic : ICache) (p : ℕ) : ℕ := beVal (ic.entries p).score.toList

variable {p q : ℕ}

theorem scoreLe_iff : scoreLe ic p q = true ↔ scoreVal ic p ≤ scoreVal ic q := by
  rw [scoreLe, memCmp_eq (by simp), decide_eq_true_eq, Ne, compare_gt_iff_gt, not_lt]
  rfl

theorem scoreLe_trans (p q r : ℕ) (hpq : scoreLe ic p q = true) (hqr : scoreLe ic q r = true) :
    scoreLe ic p r = true :=
  scoreLe_iff.2 ((scoreLe_iff.1 hpq).trans (scoreLe_iff.1 hqr))

theorem scoreLe_total (p q : ℕ) : (scoreLe ic p q || scoreLe ic q p) = true := by
  rw [Bool.or_eq_true, scoreLe_iff, scoreLe_iff]
  exact le_total _ _

/-! ### Buckets and addresses -/

/-- The bucket of a score, counted from the start of the section. -/
def bucketOf (ix : Index) (is : Sect) (score : Score) : ℕ :=
  (hashBits score 32 / ix.div).toNat - is.start.toNat

/-- The bucket of an entry. -/
def home (ix : Index) (is : Sect) (ic : ICache) (p : ℕ) : ℕ := bucketOf ix is (ic.entries p).score

/-- The score of an entry belongs to the section. -/
def Belongs (ix : Index) (is : Sect) (ic : ICache) (p : ℕ) : Prop :=
  is.start ≤ hashBits (ic.entries p).score 32 / ix.div ∧
    hashBits (ic.entries p).score 32 / ix.div < is.stop

/-- The number of buckets in the section. -/
def Sect.buckets (is : Sect) : ℕ := is.stop.toNat - is.start.toNat

/-- The address of a bucket. -/
def Sect.bucketAt (is : Sect) (k : ℕ) : ℕ := is.blockbase.toNat + k * is.bsize

theorem Belongs.home_lt (h : Belongs ix is ic p) : home ix is ic p < is.buckets := by
  have h1 := UInt32.le_iff_toNat_le.1 h.1
  have h2 := UInt32.lt_iff_toNat_lt.1 h.2
  rw [home, bucketOf, Sect.buckets]
  omega

/-- **The address of an entry** is that of its bucket. -/
theorem Belongs.diskAddr_toNat (h : Belongs ix is ic p) :
    (diskAddr ix is ic p).toNat = is.bucketAt (home ix is ic p) := by
  have hle := UInt32.le_iff_toNat_le.1 h.1
  have hk := h.home_lt.trans_le (sub_le_blocks is.ok)
  have haddr := bucketAddr_toNat is.ok hk
  rw [diskAddr, ie2DiskAddr]
  simp only [(addr_eq hle).2]
  exact haddr

theorem home_mono (h : scoreLe ic p q = true) : home ix is ic p ≤ home ix is ic q := by
  have hmono := hashBits_mono (by decide) le_rfl (scoreLe_iff.1 h)
  rw [home, home, bucketOf, bucketOf, UInt32.toNat_div, UInt32.toNat_div]
  exact Nat.sub_le_sub_right (Nat.div_le_div_right hmono) _

theorem bsize_pos (is : Sect) : 0 < is.bsize := Nat.two_pow_pos _

theorem bsize_le (is : Sect) : is.bsize ≤ 65536 := by
  rw [bsize_eq]
  exact is.blocksize_le

variable {addr : UInt64} {k : ℕ}

/-- How far an entry is from the first one of its chunk. -/
theorem Belongs.toNat_sub (h : Belongs ix is ic p) (haddr : addr.toNat = is.bucketAt k)
    (hk : k ≤ home ix is ic p) :
    (diskAddr ix is ic p - addr).toNat = (home ix is ic p - k) * is.bsize := by
  have hmul := Nat.mul_le_mul_right is.bsize hk
  have hp := h.diskAddr_toNat
  rw [Sect.bucketAt] at haddr hp
  rw [UInt64.toNat_sub_of_le _ _ (UInt64.le_iff_toNat_le.2 (by omega)), hp, haddr, Nat.sub_mul]
  omega

variable {ps : List ℕ}

/-- **The loop of `nextchunk`** cuts off entries whose buckets fit into the buffer. -/
theorem nextChunkFrom_spec {m : ℕ} (haddr : addr.toNat = is.bucketAt k)
    (hm : m * is.bsize < bufSize) (hend : k + m < is.buckets)
    (hps : ps.Pairwise fun p q => home ix is ic p ≤ home ix is ic q)
    (hin : ∀ p ∈ ps, Belongs ix is ic p ∧ k + m ≤ home ix is ic p) :
    ∃ m', m ≤ m' ∧ m' * is.bsize < bufSize ∧ k + m' < is.buckets ∧
      (nextChunkFrom ix is ic addr ps (m * is.bsize)).2.2 = m' * is.bsize ∧
      ps = (nextChunkFrom ix is ic addr ps (m * is.bsize)).1 ++
        (nextChunkFrom ix is ic addr ps (m * is.bsize)).2.1 ∧
      ∀ p ∈ (nextChunkFrom ix is ic addr ps (m * is.bsize)).1, home ix is ic p ≤ k + m' := by
  induction ps generalizing m with
  | nil => exact ⟨m, le_rfl, hm, hend, rfl, rfl, fun p hp => by cases hp⟩
  | cons p ps ih =>
    obtain ⟨hp, hps'⟩ := pairwise_cons.1 hps
    obtain ⟨hbelongs, hle⟩ := hin p mem_cons_self
    have hoff := hbelongs.toNat_sub haddr (by omega)
    rw [nextChunkFrom]
    simp only [hoff]
    split
    next => exact ⟨m, le_rfl, hm, hend, rfl, rfl, fun q hq => by cases hq⟩
    next hfits =>
      have hlt := not_le.1 hfits
      have hbuf : bufSize < 2 ^ 32 := by decide
      have hhome := hbelongs.home_lt
      rw [Nat.mod_eq_of_lt (hlt.trans hbuf)]
      obtain ⟨m', hmm', hm', hend', hnbuf, hsplit, hchunk⟩ := ih hlt (by omega) hps' fun q hq =>
        ⟨(hin q (mem_cons_of_mem p hq)).1, by have := hp q hq; omega⟩
      refine ⟨m', by omega, hm', hend', hnbuf, congrArg (List.cons p) hsplit, fun q hq => ?_⟩
      rcases mem_cons.1 hq with rfl | hq
      · omega
      · exact hchunk q hq

/-! ### The buckets in memory -/

section Fill

variable {closed : ℕ → Prop} {t : ℕ → List (List UInt8)} {d d' buf : Buffer}
  {a b k m : ℕ}

/-- The bucket at an address is the one of a table: if it is open, its entries are; if it is
closed, it is corrupt. -/
structure Shows (is : Sect) (closed : ℕ → Prop) (t : ℕ → List (List UInt8)) (d : Buffer)
    (a k : ℕ) : Prop where
  entries_eq : ¬closed k → bucketEntries is d a = t k
  corrupt : closed k → is.buckMax < (bucketEntries is d a).length

/-- The open buckets of a table are in order. -/
def Ordered (is : Sect) (closed : ℕ → Prop) (t : ℕ → List (List UInt8)) (k : ℕ) : Prop :=
  ¬closed k → KeySorted entryKey (t k) ∧ (t k).length ≤ is.buckMax

/-- What a bucket shows is in the bytes of its block. -/
theorem Shows.congr (h : Shows is closed t d a k) (ht : Ordered is closed t k)
    (heq : ∀ j < is.bsize, d' (b + j) = d (a + j)) : Shows is closed t d' b k where
  entries_eq := fun hopen => by
    have hle : (unpackIBucket d a is.bucketmagic).n ≤ is.buckMax := by
      rw [← length_bucketEntries, h.entries_eq hopen]
      exact (ht hopen).2
    rw [bucketEntries_congr hle heq, h.entries_eq hopen]
  corrupt := fun hclosed => by
    have h6 : iBucketSize = 6 := rfl
    have hhead := is.header_le
    rw [← bsize_eq, h6] at hhead
    have hmagic : d'.load (b + 2) 4 = d.load (a + 2) 4 := by
      refine ext_getElem (by simp) fun k hk _ => ?_
      rw [Buffer.length_load] at hk
      rw [Buffer.getElem_load, Buffer.getElem_load, Nat.add_assoc, Nat.add_assoc, heq _ (by omega)]
    have hlen := h.corrupt hclosed
    rw [length_bucketEntries] at hlen ⊢
    simpa only [unpackIBucket, hmagic, Buffer.get16_congr fun k hk => heq k (by omega)] using hlen

variable [DecidablePred closed]

/-- The packed entry. -/
def packed (ic : ICache) (p : ℕ) : List UInt8 := packIEntry (ic.entries p)

/-- **The loop over a chunk** fills the buckets that are in the buffer. -/
theorem updateBuf_spec {nbuf : ℕ} (haddr : addr.toNat = is.bucketAt k) (hnbuf : nbuf = m * is.bsize)
    (hsmall : nbuf < 2 ^ 32)
    (hps : ∀ p ∈ ps, Belongs ix is ic p ∧ k ≤ home ix is ic p ∧ home ix is ic p < k + m)
    (ht : ∀ i, k ≤ i → i < k + m → Ordered is closed t i)
    (hbuf : ∀ i, k ≤ i → i < k + m → Shows is closed t buf ((i - k) * is.bsize) i) :
    ∃ buf' ok, updateBuf ix is ic addr nbuf ps buf = some (buf',
        (fill entryKey is.buckMax closed (packed ic) (home ix is ic) ps t).2, ok) ∧
      ∀ i, k ≤ i → i < k + m → Shows is closed
        (fill entryKey is.buckMax closed (packed ic) (home ix is ic) ps t).1 buf'
          ((i - k) * is.bsize) i := by
  induction ps generalizing t buf with
  | nil => exact ⟨buf, true, rfl, hbuf⟩
  | cons p ps ih =>
    obtain ⟨hbelongs, hle, hlt⟩ := hps p mem_cons_self
    have hps' := fun q hq => hps q (mem_cons_of_mem p hq)
    have hoff := hbelongs.toNat_sub haddr hle
    have hfits : (home ix is ic p - k) * is.bsize + is.bsize ≤ nbuf := by
      rw [hnbuf, ← Nat.succ_mul]
      exact Nat.mul_le_mul_right _ (by omega)
    have hpos := bsize_pos is
    rw [updateBuf, Lib.fill]
    simp only [hoff]
    rw [Nat.mod_eq_of_lt (by omega), Nat.mod_eq_of_lt (by omega), if_neg (by omega)]
    have hshow := hbuf _ hle hlt
    by_cases hclosed : closed (home ix is ic p)
    · -- a corrupt bucket
      rw [insertEntry_corrupt (hshow.corrupt hclosed), putAt, if_pos hclosed]
      obtain ⟨buf', ok, heq, hbuf'⟩ := ih hps' ht hbuf
      exact ⟨buf', false, by simp only [heq, Option.map_some], hbuf'⟩
    · obtain ⟨hsorted, hmax⟩ := ht _ hle hlt hclosed
      rw [← hshow.entries_eq hclosed] at hsorted hmax
      rw [putAt, if_neg hclosed, ← hshow.entries_eq hclosed]
      rcases insertEntry_spec hmax hsorted (ic.entries p) with ⟨hnone, hput⟩ | ⟨d', hsome,
        hput, hout⟩
      · -- a full one
        rw [hnone, packed, hput, Option.map_none]
        obtain ⟨buf', ok, heq, hbuf'⟩ := ih hps' ht hbuf
        exact ⟨buf', false, by simp only [heq, Option.map_some], hbuf'⟩
      · rw [hsome, packed, hput, Option.map_some]
        have hputs := tryPut_eq_some hput
        have ht' : ∀ i, k ≤ i → i < k + m → Ordered is closed
            (update t (home ix is ic p)
              (bucketEntries is d' ((home ix is ic p - k) * is.bsize))) i := by
          intro i hki hik hopen
          by_cases hi : i = home ix is ic p
          · subst hi
            rw [update_self]
            refine ⟨?_, length_tryPut_le hput hmax⟩
            rw [hputs]
            exact keySorted_putSorted hsorted _
          · rw [update_of_ne hi]
            exact ht i hki hik hopen
        have hbuf' : ∀ i, k ≤ i → i < k + m → Shows is closed
            (update t (home ix is ic p)
              (bucketEntries is d' ((home ix is ic p - k) * is.bsize))) d'
                ((i - k) * is.bsize) i := by
          intro i hki hik
          by_cases hi : i = home ix is ic p
          · subst hi
            exact ⟨fun _ => by rw [update_self], fun h => absurd h hclosed⟩
          · have hold : Shows is closed t d' ((i - k) * is.bsize) i := by
              refine (hbuf i hki hik).congr (ht i hki hik) fun j hj => hout _ ?_
              -- the blocks of two buckets do not meet
              rcases Nat.lt_or_gt_of_ne hi with hlt' | hgt'
              · have hmul := Nat.mul_le_mul_right is.bsize
                  (show i - k + 1 ≤ home ix is ic p - k by omega)
                rw [Nat.succ_mul] at hmul
                exact Or.inl (by omega)
              · have hmul := Nat.mul_le_mul_right is.bsize
                  (show home ix is ic p - k + 1 ≤ i - k by omega)
                rw [Nat.succ_mul] at hmul
                exact Or.inr (by omega)
            exact ⟨fun hopen => by rw [update_of_ne hi, hold.entries_eq hopen], hold.corrupt⟩
        obtain ⟨buf', ok, heq, hbuf''⟩ := ih hps' ht' hbuf'
        exact ⟨buf', ok, by simp only [heq, Option.map_some], hbuf''⟩

/-! ### The clean list -/

/-- The cache after the entries of a list were cleaned. -/
def cleaned (ic : ICache) (ps : List ℕ) : ICache where
  entries p := if p ∈ ps then { ic.entries p with state := .clean } else ic.entries p
  clean := ps.reverse ++ ic.clean
  dirty := ic.dirty.filter fun p => p ∉ ps
  ndirty := ic.ndirty - UInt32.ofNat ps.length

theorem cleaned_nil (ic : ICache) : cleaned ic [] = ic := by
  simp [cleaned]

theorem cleaned_append (ic : ICache) (ps qs : List ℕ) :
    cleaned (cleaned ic ps) qs = cleaned ic (ps ++ qs) := by
  simp only [cleaned, ICache.mk.injEq]
  refine ⟨?_, ?_, ?_, ?_⟩
  · funext p
    by_cases hp : p ∈ ps <;> by_cases hq : p ∈ qs <;> simp [hp, hq]
  · rw [reverse_append, append_assoc]
  · rw [filter_filter]
    refine filter_congr fun p _ => ?_
    by_cases hp : p ∈ ps <;> by_cases hq : p ∈ qs <;> simp [hp, hq]
  · rw [length_append, UInt32.ofNat_add]
    grind

/-- **`icacheclean`** takes dirty entries from one list to the other. -/
theorem icacheClean_eq (hnodup : ps.Nodup) (hring : ic.dirty.Nodup)
    (hdirty : ∀ p ∈ ps, (ic.entries p).state = .dirty) :
    icacheClean ic ps = some (cleaned ic ps) := by
  induction ps generalizing ic with
  | nil => rw [cleaned_nil, icacheClean]
  | cons p ps ih =>
    obtain ⟨hp, hnodup'⟩ := nodup_cons.1 hnodup
    have hone : cleaned ic [p] =
        { entries := update ic.entries p { ic.entries p with state := .clean }
          clean := p :: ic.clean
          dirty := ic.dirty.erase p
          ndirty := ic.ndirty - 1 } := by
      simp only [cleaned, ICache.mk.injEq]
      refine ⟨?_, rfl, ?_, rfl⟩
      · funext q
        by_cases hq : q = p
        · subst hq
          rw [if_pos (mem_singleton_self q), update_self]
        · rw [if_neg (by simpa using hq), update_of_ne hq]
      · rw [hring.erase_eq_filter]
        refine filter_congr fun q _ => ?_
        by_cases hq : q = p <;> simp [hq]
    rw [icacheClean, if_pos (hdirty p mem_cons_self), ← hone, ih hnodup']
    · rw [cleaned_append, singleton_append]
    · exact hring.filter _
    · intro q hq
      have hne : q ≠ p := fun heq => hp (heq ▸ hq)
      rw [cleaned]
      simp only [mem_singleton, if_neg hne]
      exact hdirty q (mem_cons_of_mem p hq)

/-- The scores and the addresses do not change. -/
theorem cleaned_entries (ic : ICache) (ps : List ℕ) (p : ℕ) :
    ((cleaned ic ps).entries p).score = (ic.entries p).score ∧
      ((cleaned ic ps).entries p).ia = (ic.entries p).ia := by
  simp only [cleaned]
  split <;> exact ⟨rfl, rfl⟩

theorem home_cleaned (ic : ICache) (ps : List ℕ) : home ix is (cleaned ic ps) = home ix is ic := by
  funext p
  rw [home, home, (cleaned_entries ic ps p).1]

theorem packed_cleaned (ic : ICache) (ps : List ℕ) : packed (cleaned ic ps) = packed ic := by
  funext p
  rw [packed, packed, packIEntry, packIEntry, (cleaned_entries ic ps p).1,
    (cleaned_entries ic ps p).2]

theorem belongs_cleaned (ic : ICache) (ps : List ℕ) (p : ℕ) :
    Belongs ix is (cleaned ic ps) p ↔ Belongs ix is ic p := by
  rw [Belongs, Belongs, (cleaned_entries ic ps p).1]

/-! ### Chunk after chunk -/

/-- The blocks of the section that are in the disk cache are as they are on disk. -/
def Mirrored (is : Sect) (dc : Dcache) : Prop :=
  ∀ k < is.buckets, ∀ b, dc.blocks (is.bucketAt k) = some b →
    ∀ i < is.bsize, b.data i = dc.disk (is.bucketAt k + i)

/-- A bucket of the section or another one. -/
theorem Sect.bucketAt_disjoint (is : Sect) {i j : ℕ} (h : i < j) :
    is.bucketAt i + is.bsize ≤ is.bucketAt j := by
  have hmul := Nat.mul_le_mul_right is.bsize (Nat.succ_le_of_lt h)
  rw [Nat.succ_mul] at hmul
  rw [Sect.bucketAt, Sect.bucketAt]
  omega

/-- **One chunk**: the buckets on disk are filled with its entries, and those that were taken
become clean. -/
theorem writeChunk_spec {s : WriteState} {nbuf : ℕ} (haddr : addr.toNat = is.bucketAt k)
    (hnbuf : nbuf = m * is.bsize) (hsmall : nbuf < 2 ^ 32) (hend : k + m ≤ is.buckets)
    (hps : ∀ p ∈ ps, Belongs ix is s.ic p ∧ k ≤ home ix is s.ic p ∧ home ix is s.ic p < k + m)
    (hnodup : ps.Nodup) (hring : s.ic.dirty.Nodup)
    (hdirty : ∀ p ∈ ps, (s.ic.entries p).state = .dirty)
    (ht : ∀ i < is.buckets, Ordered is closed t i)
    (hdisk : ∀ i < is.buckets, Shows is closed t s.dc.disk (is.bucketAt i) i) :
    ∃ s', writeChunk ix is .good ps addr nbuf s = some s' ∧ s'.ic = cleaned s.ic
        (fill entryKey is.buckMax closed (packed s.ic) (home ix is s.ic) ps t).2 ∧
      (∀ i < is.buckets, Shows is closed
        (fill entryKey is.buckMax closed (packed s.ic) (home ix is s.ic) ps t).1 s'.dc.disk
          (is.bucketAt i) i) ∧
      (Mirrored is s.dc → Mirrored is s'.dc) ∧
      (∀ a, a < is.bucketAt 0 ∨ is.bucketAt is.buckets ≤ a → s'.dc.disk a = s.dc.disk a) := by
  have hpos := bsize_pos is
  have hload : ∀ i, k ≤ i → i < k + m → ∀ j < is.bsize,
      Buffer.store s.buf 0 (Buffer.load s.dc.disk addr.toNat nbuf) ((i - k) * is.bsize + j) =
        s.dc.disk (is.bucketAt i + j) := by
    intro i hki hik j hj
    have hmul := Nat.mul_le_mul_right is.bsize (show i - k + 1 ≤ m by omega)
    rw [Nat.succ_mul] at hmul
    have hlt : (i - k) * is.bsize + j < (Buffer.load s.dc.disk addr.toNat nbuf).length := by
      rw [Buffer.length_load, hnbuf]
      omega
    have hstore := Buffer.store_add (d := s.buf) (i := 0) hlt
    rw [Nat.zero_add] at hstore
    rw [hstore, Buffer.getElem_load, haddr, Sect.bucketAt, Sect.bucketAt]
    congr 1
    have hsub : i * is.bsize = k * is.bsize + (i - k) * is.bsize := by
      rw [← Nat.add_mul]
      congr 1
      omega
    omega
  obtain ⟨buf', ok, hupdate, hbuf'⟩ := updateBuf_spec haddr hnbuf hsmall hps
    (fun i _ hik => ht i (by omega)) fun i hki hik =>
      (hdisk i (by omega)).congr (ht i (by omega)) (hload i hki hik)
  have htake : (buf'.load 0 nbuf).take nbuf = buf'.load 0 nbuf := by
    rw [take_of_length_le]
    rw [Buffer.length_load]
  have hsub := fill_taken_sublist entryKey is.buckMax closed (packed s.ic) (home ix is s.ic) ps t
  have hclean := icacheClean_eq (hsub.nodup hnodup) hring fun p hp => hdirty p (hsub.subset hp)
  have hread : SectIo.good.readOk addr = true := rfl
  rw [writeChunk, if_pos hread]
  simp only [hupdate, SectIo.good, Option.getD_none, Option.isSome_none, Bool.false_eq_true,
    if_false, htake, hclean, Option.map_some, refreshBlocks]
  -- what is on disk now
  have hin : ∀ j < nbuf, Buffer.store s.dc.disk addr.toNat (buf'.load 0 nbuf) (addr.toNat + j) =
      buf' j := by
    intro j hj
    have hlt : j < (buf'.load 0 nbuf).length := by rwa [Buffer.length_load]
    rw [Buffer.store_add hlt, Buffer.getElem_load, Nat.zero_add]
  have hout : ∀ a, a < addr.toNat ∨ addr.toNat + nbuf ≤ a →
      Buffer.store s.dc.disk addr.toNat (buf'.load 0 nbuf) a = s.dc.disk a := by
    intro a ha
    rcases ha with ha | ha
    · exact Buffer.store_of_lt ha
    · exact Buffer.store_of_ge (by rwa [Buffer.length_load])
  have hwithin : ∀ i, k ≤ i → i < k + m →
      is.bucketAt i = addr.toNat + (i - k) * is.bsize ∧ (i - k) * is.bsize + is.bsize ≤ nbuf := by
    intro i hki hik
    obtain ⟨j, rfl⟩ := Nat.exists_eq_add_of_le hki
    have hmul := Nat.mul_le_mul_right is.bsize (show j + 1 ≤ m by omega)
    rw [Nat.succ_mul] at hmul
    rw [haddr, Sect.bucketAt, Sect.bucketAt, Nat.add_mul, Nat.add_sub_cancel_left]
    exact ⟨by omega, by omega⟩
  have hbeside : ∀ i, i < k ∨ k + m ≤ i → ∀ j < is.bsize,
      is.bucketAt i + j < addr.toNat ∨ addr.toNat + nbuf ≤ is.bucketAt i + j := by
    intro i hi j hj
    rw [haddr, hnbuf]
    rcases hi with hi | hi
    · have := is.bucketAt_disjoint hi
      exact Or.inl (by omega)
    · have hmul := Nat.mul_le_mul_right is.bsize hi
      rw [Nat.add_mul] at hmul
      rw [Sect.bucketAt, Sect.bucketAt]
      exact Or.inr (by omega)
  refine ⟨_, rfl, rfl, fun i hi => ?_, fun hmirror i hi b hb j hj => ?_, fun a ha => ?_⟩
  · by_cases hik : k ≤ i ∧ i < k + m
    · obtain ⟨hat, hfits⟩ := hwithin i hik.1 hik.2
      refine (hbuf' i hik.1 hik.2).congr (fun hopen => fill_ordered (ht i hi hopen) ps)
        fun j hj => ?_
      rw [hat, Nat.add_assoc]
      exact hin _ (by omega)
    · have hother : ∀ p ∈ ps, home ix is s.ic p ≠ i := by
        rintro p hp rfl
        exact hik (hps p hp).2
      have hsame : Shows is closed t (Buffer.store s.dc.disk addr.toNat (buf'.load 0 nbuf))
          (is.bucketAt i) i :=
        (hdisk i hi).congr (ht i hi) fun j hj => hout _ (hbeside i (by omega) j hj)
      exact ⟨fun hopen => by rw [fill_other hother, hsame.entries_eq hopen], hsame.corrupt⟩
  · obtain ⟨b₀, hb₀, rfl⟩ := Option.map_eq_some_iff.1 hb
    by_cases hik : k ≤ i ∧ i < k + m
    · obtain ⟨hat, hfits⟩ := hwithin i hik.1 hik.2
      have hmod : (is.bucketAt i - addr.toNat) % is.bsize = 0 := by
        rw [hat, Nat.add_sub_cancel_left]
        exact Nat.mul_mod_left _ _
      rw [if_pos ⟨by omega, by omega, hmod⟩]
      simp only [hj, if_true]
      rw [hat, Nat.add_sub_cancel_left, Nat.add_assoc]
      exact (hin _ (by omega)).symm
    · have hside := hbeside i (by omega)
      have hpos' := hside 0 hpos
      rw [Nat.add_zero] at hpos'
      rw [if_neg (by omega)]
      exact (hmirror i hi b₀ hb₀ j hj).trans (hout _ (hside j hj)).symm
  · refine hout a ?_
    have h0 : is.bucketAt 0 ≤ is.bucketAt k := by
      rw [Sect.bucketAt, Sect.bucketAt, Nat.zero_mul]
      omega
    have hmul := Nat.mul_le_mul_right is.bsize hend
    rw [Nat.add_mul] at hmul
    rw [haddr, hnbuf]
    rcases ha with ha | ha
    · exact Or.inl (by omega)
    · rw [Sect.bucketAt] at ha ⊢
      exact Or.inr (by omega)

/-- **All chunks.** -/
theorem writeChunks_spec {s : WriteState}
    (hsorted : ps.Pairwise fun p q => home ix is s.ic p ≤ home ix is s.ic q)
    (hps : ∀ p ∈ ps, Belongs ix is s.ic p) (hnodup : ps.Nodup) (hring : s.ic.dirty.Nodup)
    (hdirty : ∀ p ∈ ps, (s.ic.entries p).state = .dirty)
    (ht : ∀ i < is.buckets, Ordered is closed t i)
    (hdisk : ∀ i < is.buckets, Shows is closed t s.dc.disk (is.bucketAt i) i) :
    ∃ s', writeChunks ix is .good ps s = some s' ∧ s'.ic = cleaned s.ic
        (fill entryKey is.buckMax closed (packed s.ic) (home ix is s.ic) ps t).2 ∧
      (∀ i < is.buckets, Shows is closed
        (fill entryKey is.buckMax closed (packed s.ic) (home ix is s.ic) ps t).1 s'.dc.disk
          (is.bucketAt i) i) ∧
      (Mirrored is s.dc → Mirrored is s'.dc) ∧
      (∀ a, a < is.bucketAt 0 ∨ is.bucketAt is.buckets ≤ a → s'.dc.disk a = s.dc.disk a) := by
  induction hlen : ps.length using Nat.strong_induction_on generalizing ps s t with
  | _ n ih =>
    cases ps with
    | nil =>
      refine ⟨s, by rw [writeChunks], ?_, hdisk, id, fun a _ => rfl⟩
      exact (cleaned_nil s.ic).symm
    | cons p ps =>
      obtain ⟨hp, hsorted'⟩ := pairwise_cons.1 hsorted
      have hbelongs := hps p mem_cons_self
      have haddr := hbelongs.diskAddr_toNat
      have hpos := bsize_pos is
      have hsize := bsize_le is
      have hbuf : bufSize = 8388608 := rfl
      obtain ⟨m, -, hm, hend, hnbuf, hsplit, hchunk⟩ := nextChunkFrom_spec (m := 0) haddr
        (by rw [Nat.zero_mul, hbuf]; decide) hbelongs.home_lt hsorted' fun q hq =>
          ⟨hps q (mem_cons_of_mem p hq), hp q hq⟩
      rw [Nat.zero_mul] at hnbuf hsplit hchunk
      generalize hr : nextChunkFrom ix is s.ic (diskAddr ix is s.ic p) ps 0 =
        r at hnbuf hsplit hchunk
      obtain ⟨chunk, rest, nbuf⟩ := r
      simp only at hnbuf hsplit hchunk
      subst hnbuf hsplit
      have hsum : (m * is.bsize + is.bsize) % 2 ^ 32 = (m + 1) * is.bsize := by
        rw [Nat.mod_eq_of_lt (by omega), Nat.succ_mul]
      rw [← cons_append] at hsorted hps hnodup hdirty
      obtain ⟨hsorted₁, hsorted₂, -⟩ := pairwise_append.1 hsorted
      obtain ⟨hnodup₁, hnodup₂, hdisjoint⟩ := nodup_append'.1 hnodup
      have hin : ∀ q ∈ p :: chunk, Belongs ix is s.ic q ∧ home ix is s.ic p ≤ home ix is s.ic q ∧
          home ix is s.ic q < home ix is s.ic p + (m + 1) := by
        intro q hq
        refine ⟨hps q (mem_append_left _ hq), ?_⟩
        rcases mem_cons.1 hq with rfl | hq
        · omega
        · exact ⟨hp q (mem_append_left _ hq), by have := hchunk q hq; omega⟩
      obtain ⟨s₁, hs₁, hic₁, hdisk₁, hmirror₁, hout₁⟩ := writeChunk_spec (s := s) haddr rfl
        (by rw [← hsum]; exact Nat.mod_lt _ (by decide)) (by omega) hin hnodup₁ hring
        (fun q hq => hdirty q (mem_append_left _ hq)) ht hdisk
      have hfill := fill_append entryKey is.buckMax closed (packed s.ic) (home ix is s.ic)
        (p :: chunk) rest t
      have htaken := fill_taken_sublist entryKey is.buckMax closed (packed s.ic) (home ix is s.ic)
        (p :: chunk) t
      have ht₁ : ∀ i < is.buckets, Ordered is closed
          (fill entryKey is.buckMax closed (packed s.ic) (home ix is s.ic) (p :: chunk) t).1 i :=
        fun i hi hopen => fill_ordered (ht i hi hopen) _
      rw [← cons_append, hfill]
      generalize fill entryKey is.buckMax closed (packed s.ic) (home ix is s.ic) (p :: chunk) t = r₁
        at hic₁ hdisk₁ htaken ht₁ ⊢
      have hhome₁ : home ix is s₁.ic = home ix is s.ic := by rw [hic₁, home_cleaned]
      have hpacked₁ : packed s₁.ic = packed s.ic := by rw [hic₁, packed_cleaned]
      obtain ⟨s₂, hs₂, hic₂, hdisk₂, hmirror₂, hout₂⟩ := ih rest.length
        (by rw [← hlen, length_cons, length_append]; omega) (s := s₁)
        (t := r₁.1) (by rw [hhome₁]; exact hsorted₂)
        (fun q hq => by
          rw [hic₁, belongs_cleaned]
          exact hps q (mem_append_right _ hq)) hnodup₂
        (by rw [hic₁]; exact hring.filter _)
        (fun q hq => by
          have hnot : q ∉ r₁.2 := fun hmem => hdisjoint (htaken.subset hmem) hq
          rw [hic₁, cleaned]
          simp only [if_neg hnot]
          exact hdirty q (mem_append_right _ hq)) ht₁ hdisk₁ rfl
      rw [hhome₁, hpacked₁] at hic₂ hdisk₂
      refine ⟨s₂, ?_, ?_, hdisk₂, fun hmirror => hmirror₂ (hmirror₁ hmirror),
        fun a ha => (hout₂ a ha).trans (hout₁ a ha)⟩
      · rw [cons_append, writeChunks]
        simp only [hr, hsum, hs₁, hs₂]
      · rw [hic₂, hic₁, cleaned_append]

end Fill

/-! ### What the section is afterwards -/

/-- `okibucket` refuses the bucket. -/
def Corrupt (is : Sect) (d : Buffer) (k : ℕ) : Prop :=
  is.buckMax < (bucketEntries is d (is.bucketAt k)).length

instance (is : Sect) (d : Buffer) : DecidablePred (Corrupt is d) :=
  fun k => inferInstanceAs (Decidable (_ < (bucketEntries is d (is.bucketAt k)).length))

/-- The bucket is strictly sorted by `ientrycmp`. -/
def InOrder (is : Sect) (d : Buffer) (k : ℕ) : Prop :=
  (bucketEntries is d (is.bucketAt k)).Pairwise fun e e' => ientryCmp e e' = .lt

variable {d : Buffer}

theorem inOrder_iff : InOrder is d k ↔ KeySorted entryKey (bucketEntries is d (is.bucketAt k)) := by
  refine List.Pairwise.iff_of_mem fun he he' => ?_
  rw [ientryCmp_eq (length_of_mem_bucketEntries he) (length_of_mem_bucketEntries he'),
    compare_lt_iff_lt]

/-- What `bucklook` answers for a score and a type, in a bucket of the section. -/
def lookIn (is : Sect) (d : Buffer) (k : ℕ) (score : Score) (type : UInt8) : ℕ :=
  buckLook score type.toNat (fun i => d (is.bucketAt k + iBucketSize + i))
    (unpackIBucket d (is.bucketAt k) is.bucketmagic).n

/-- **What `bucklook` finds** in a bucket in order: the entry of the key. -/
theorem lookIn_spec (h : InOrder is d k) (score : Score) (type : UInt8) :
    (∃ e ∈ bucketEntries is d (is.bucketAt k), entryKey e =
        scoreKey score (vtToDiskType type.toNat) ∧ lookIn is d k score type &&& 1 ≠ 0 ∧
      d.load (is.bucketAt k + iBucketSize + (lookIn is d k score type ^^^ 1)) iEntrySize = e) ∨
    (∀ e ∈ bucketEntries is d (is.bucketAt k), entryKey e ≠
        scoreKey score (vtToDiskType type.toNat)) ∧ lookIn is d k score type &&& 1 = 0 := by
  rw [inOrder_iff] at h
  have hlen := length_bucketEntries is d (is.bucketAt k)
  have hentry : ∀ i (hi : i < (bucketEntries is d (is.bucketAt k)).length),
      (bucketEntries is d (is.bucketAt k))[i] =
        Buffer.load (fun j => d (is.bucketAt k + iBucketSize + j)) (i * iEntrySize) iEntrySize :=
    fun i hi => by rw [getElem_bucketEntries, load_shift]
  have hbelow : ∀ i j, i < j → j < (unpackIBucket d (is.bucketAt k) is.bucketmagic).n →
      entryKey (Buffer.load (fun j => d (is.bucketAt k + iBucketSize + j)) (i * iEntrySize)
        iEntrySize) <
      entryKey (Buffer.load (fun j => d (is.bucketAt k + iBucketSize + j)) (j * iEntrySize)
        iEntrySize) := by
    intro i j hij hj
    rw [← hlen] at hj
    rw [← hentry i (hij.trans hj), ← hentry j hj]
    exact pairwise_iff_getElem.1 h i j _ _ hij
  rw [lookIn]
  rcases buckLook_spec score (type.toNat_lt.trans (by decide)) hbelow with
    ⟨i, hi, hik, hlook⟩ | ⟨i, hi, hlo, hhi, hlook⟩
  · obtain ⟨hodd, hxor⟩ := and_one_found i
    rw [← hlen] at hi
    refine Or.inl ⟨_, getElem_mem hi, ?_, ?_, ?_⟩
    · rw [hentry i hi, hik]
    · rwa [hlook]
    · rw [hlook, hxor, getElem_bucketEntries]
  · refine Or.inr ⟨fun e he hek => ?_, ?_⟩
    · obtain ⟨j, hj, rfl⟩ := getElem_of_mem he
      rw [hentry j hj] at hek
      rcases Nat.lt_or_ge j i with hji | hij
      · exact absurd hek (hlo j hji).ne
      · exact absurd hek (hhi j hij (by omega)).ne'
    · rw [hlook]
      exact not_not.1 (and_one_absent i)

/-- Two entries have the same score and the same type on disk. -/
def SameKey (ic : ICache) (p q : ℕ) : Prop :=
  (ic.entries p).score = (ic.entries q).score ∧
    vtToDiskType (ic.entries p).ia.type.toNat = vtToDiskType (ic.entries q).ia.type.toNat

theorem sameKey_of_key (h : (ic.entries p).key = (ic.entries q).key) : SameKey ic p q := by
  have hp := vtToDiskType_lt (ic.entries p).ia.type.toNat
  have hq := vtToDiskType_lt (ic.entries q).ia.type.toNat
  rw [IEntry.key, IEntry.key, scoreKey, scoreKey] at h
  have hval : beVal (ic.entries p).score.toList = beVal (ic.entries q).score.toList := by omega
  exact ⟨Vector.toList_inj.1 (beVal_inj (by simp) hval), by omega⟩

theorem SameKey.key (h : SameKey ic p q) : (ic.entries p).key = (ic.entries q).key := by
  rw [IEntry.key, IEntry.key, h.1, h.2]

/-- The address part of an entry, read back from disk. -/
def IAddr.reread (ia : IAddr) : IAddr :=
  { ia with type := UInt8.ofNat (vtFromDiskType (vtToDiskType ia.type.toNat)) }

/-- The entries `icachewritesect` is to write. -/
def picked (ix : Index) (is : Sect) (limit : UInt64) (ic : ICache) : List ℕ :=
  icacheDirty ic (sectLo ix is.toISect) (sectHi ix is.toISect) limit

/-- **A flushed section**: what has become of the section and of the cache, when the entries of a
list were taken. -/
structure Flushed (ix : Index) (is : Sect) (limit : UInt64) (ic : ICache) (dc : Dcache)
    (taken : List ℕ) (ic' : ICache) (dc' : Dcache) : Prop where
  /-- The buckets are in order, and within their bounds. -/
  in_order : ∀ k < is.buckets, ¬Corrupt is dc.disk k →
    InOrder is dc'.disk k ∧ (bucketEntries is dc'.disk (is.bucketAt k)).length ≤ is.buckMax
  /-- What was corrupt still is. -/
  corrupt : ∀ k < is.buckets, Corrupt is dc.disk k → Corrupt is dc'.disk k
  /-- Which entries were taken: those that are found in their bucket. -/
  taken_iff : ∀ p, p ∈ taken ↔ p ∈ picked ix is limit ic ∧
    ¬Corrupt is dc.disk (home ix is ic p) ∧ lookIn is dc'.disk (home ix is ic p)
      (ic.entries p).score (ic.entries p).ia.type &&& 1 ≠ 0
  /-- What is found for an entry that was taken: the newest entry of its key. -/
  found : ∀ p ∈ taken, ∃ q ∈ taken, SameKey ic q p ∧
    (∀ r ∈ picked ix is limit ic, SameKey ic r p → r = q ∨ [q, r].Sublist ic.dirty) ∧
    unpackIAddr (Buffer.load dc'.disk (is.bucketAt (home ix is ic p) + iBucketSize +
      (lookIn is dc'.disk (home ix is ic p) (ic.entries p).score (ic.entries p).ia.type ^^^ 1))
        iEntrySize) = (ic.entries q).ia.reread
  /-- The entries of other keys. -/
  others : ∀ k < is.buckets, ¬Corrupt is dc.disk k → ∀ e : List UInt8,
    (∀ p ∈ taken, home ix is ic p = k → (ic.entries p).key ≠ entryKey e) →
      (e ∈ bucketEntries is dc'.disk (is.bucketAt k) ↔
        e ∈ bucketEntries is dc.disk (is.bucketAt k))
  /-- Why an entry was not taken. -/
  not_taken : ∀ p ∈ picked ix is limit ic, p ∉ taken → Corrupt is dc.disk (home ix is ic p) ∨
    (bucketEntries is dc'.disk (is.bucketAt (home ix is ic p))).length = is.buckMax
  /-- Those that were taken are on the clean list, and no others have moved. -/
  clean_eq : ic'.clean = taken.reverse ++ ic.clean
  dirty_eq : ic'.dirty = ic.dirty.filter fun p => p ∉ taken
  entries_eq : ∀ p, ic'.entries p =
    if p ∈ taken then { ic.entries p with state := .clean } else ic.entries p
  /-- The disk cache agrees with the disk if it did. -/
  mirrored : Mirrored is dc → Mirrored is dc'
  /-- The rest of the partition. -/
  outside : ∀ a, a < is.bucketAt 0 ∨ is.bucketAt is.buckets ≤ a → dc'.disk a = dc.disk a

theorem pair_sublist_or {l : List α} {a b : α} (ha : a ∈ l) (hb : b ∈ l) (hab : a ≠ b) :
    [a, b].Sublist l ∨ [b, a].Sublist l := by
  induction l with
  | nil => cases ha
  | cons x l ih =>
    rcases mem_cons.1 ha with rfl | ha' <;> rcases mem_cons.1 hb with rfl | hb'
    · exact absurd rfl hab
    · exact Or.inl ((singleton_sublist.2 hb').cons_cons a)
    · exact Or.inr ((singleton_sublist.2 ha').cons_cons b)
    · exact (ih ha' hb').imp (Sublist.cons x) (Sublist.cons x)

theorem not_pair_sublist {l : List α} {a b : α} (hl : l.Nodup) (hab : [a, b].Sublist l) :
    ¬[b, a].Sublist l := by
  induction l with
  | nil => cases hab
  | cons x l ih =>
    obtain ⟨hx, hl'⟩ := nodup_cons.1 hl
    intro hba
    rcases sublist_cons_iff.1 hab with hab' | ⟨r, heq, hr⟩
    · rcases sublist_cons_iff.1 hba with hba' | ⟨r, heq, hr⟩
      · exact ih hl' hab' hba'
      · obtain ⟨rfl, rfl⟩ := cons.inj heq
        exact hx (hab'.subset (mem_cons_of_mem a mem_cons_self))
    · obtain ⟨rfl, rfl⟩ := cons.inj heq
      rcases sublist_cons_iff.1 hba with hba' | ⟨r, heq', hr'⟩
      · exact hx (hba'.subset (mem_cons_of_mem b mem_cons_self))
      · obtain ⟨rfl, rfl⟩ := cons.inj heq'
        exact hx (hr.subset mem_cons_self)

/-- The dirty entries, the oldest first. -/
theorem icacheDirty_eq (ic : ICache) (lo hi : UInt32) (limit : UInt64) :
    icacheDirty ic lo hi limit = (ic.dirty.filter fun p =>
      (ic.entries p).state = .dirty ∧ (ic.entries p).ia.addr ≤ limit ∧
        lo ≤ hashBits (ic.entries p).score 32 ∧ hashBits (ic.entries p).score 32 ≤ hi).reverse := by
  have hfold : ∀ (l acc : List ℕ), l.foldl (fun dirty p =>
      let ie := ic.entries p
      if ie.state = .dirty ∧ ie.ia.addr ≤ limit ∧ lo ≤ hashBits ie.score 32 ∧
        hashBits ie.score 32 ≤ hi then p :: dirty else dirty) acc =
      (l.filter fun p => (ic.entries p).state = .dirty ∧ (ic.entries p).ia.addr ≤ limit ∧
        lo ≤ hashBits (ic.entries p).score 32 ∧
          hashBits (ic.entries p).score 32 ≤ hi).reverse ++ acc := by
    intro l
    induction l with
    | nil => exact fun acc => rfl
    | cons p l ih =>
      intro acc
      rw [foldl_cons, ih, filter_cons]
      simp only [decide_eq_true_eq]
      split
      next => rw [reverse_cons, append_assoc, singleton_append]
      next => rfl
  rw [icacheDirty, hfold, append_nil]

/-- **Before**: the dirty list is a list of different entries, those to be written belong to the
section, and the buckets of the section are in order or corrupt. -/
structure Ready (ix : Index) (is : Sect) (limit : UInt64) (ic : ICache) (dc : Dcache) : Prop where
  ring : ic.dirty.Nodup
  belongs : ∀ p ∈ picked ix is limit ic, Belongs ix is ic p
  in_order : ∀ k < is.buckets, ¬Corrupt is dc.disk k → InOrder is dc.disk k

/-- The buckets of a section. -/
def sectTable (is : Sect) (d : Buffer) (k : ℕ) : List (List UInt8) :=
  bucketEntries is d (is.bucketAt k)

/-- The buckets of a section, filled with the entries to be written; and those that are taken. -/
def filled (ix : Index) (is : Sect) (limit : UInt64) (ic : ICache) (dc : Dcache) :
    (ℕ → List (List UInt8)) × List ℕ :=
  fill entryKey is.buckMax (Corrupt is dc.disk) (packed ic) (home ix is ic)
    (iesort (scoreLe ic) (picked ix is limit ic)) (sectTable is dc.disk)

variable {limit : UInt64} {p q r k : ℕ}

namespace Ready

theorem sublist_dirty (ix : Index) (is : Sect) (limit : UInt64) (ic : ICache) :
    (picked ix is limit ic).reverse.Sublist ic.dirty := by
  rw [picked, icacheDirty_eq, reverse_reverse]
  exact filter_sublist

theorem state_eq (hp : p ∈ picked ix is limit ic) : (ic.entries p).state = .dirty := by
  rw [picked, icacheDirty_eq, mem_reverse, mem_filter, decide_eq_true_eq] at hp
  exact hp.2.1

theorem mem_sorted : p ∈ iesort (scoreLe ic) (picked ix is limit ic) ↔
    p ∈ picked ix is limit ic := by
  rw [iesort_eq_mergeSort, mem_mergeSort]

theorem mem_picked (hp : p ∈ (filled ix is limit ic dc).2) : p ∈ picked ix is limit ic :=
  mem_sorted.1 ((fill_taken_sublist _ _ _ _ _ _ _).subset hp)

variable (h : Ready ix is limit ic dc)

include h

theorem nodup_picked : (picked ix is limit ic).Nodup :=
  nodup_reverse.1 ((sublist_dirty ix is limit ic).nodup h.ring)

theorem nodup_sorted : (iesort (scoreLe ic) (picked ix is limit ic)).Nodup := by
  rw [iesort_eq_mergeSort]
  exact (mergeSort_perm _ _).nodup_iff.2 h.nodup_picked

theorem ordered (hk : k < is.buckets) : Ordered is (Corrupt is dc.disk) (sectTable is dc.disk) k :=
  fun hopen => ⟨inOrder_iff.1 (h.in_order k hk hopen), not_lt.1 hopen⟩

theorem ordered_home (hp : p ∈ iesort (scoreLe ic) (picked ix is limit ic)) :
    Ordered is (Corrupt is dc.disk) (sectTable is dc.disk) (home ix is ic p) :=
  h.ordered (h.belongs p (mem_sorted.1 hp)).home_lt

/-- **`icachewritesect` fills the buckets.** -/
theorem writes (buf : Buffer) : ∃ s, icacheWriteSect ix is limit .good ic dc buf = some s ∧
    s.ic = cleaned ic (filled ix is limit ic dc).2 ∧
    (∀ k < is.buckets, Shows is (Corrupt is dc.disk) (filled ix is limit ic dc).1 s.dc.disk
      (is.bucketAt k) k) ∧
    (Mirrored is dc → Mirrored is s.dc) ∧
    (∀ a, a < is.bucketAt 0 ∨ is.bucketAt is.buckets ≤ a → s.dc.disk a = dc.disk a) := by
  refine writeChunks_spec (s := ⟨ic, dc, buf, false⟩) ?_
    (fun p hp => h.belongs p (mem_sorted.1 hp)) h.nodup_sorted h.ring
    (fun p hp => state_eq (mem_sorted.1 hp)) (fun k hk => h.ordered hk)
    fun k _ => ⟨fun _ => rfl, id⟩
  rw [iesort_eq_mergeSort]
  exact (pairwise_mergeSort scoreLe_trans scoreLe_total _).imp home_mono

/-- Which entries are taken. -/
theorem taken_iff (hp : p ∈ picked ix is limit ic) : p ∈ (filled ix is limit ic dc).2 ↔
    ¬Corrupt is dc.disk (home ix is ic p) ∧
      ∃ y ∈ (filled ix is limit ic dc).1 (home ix is ic p), entryKey y = (ic.entries p).key := by
  rw [← entryKey_packIEntry]
  exact fill_taken_iff h.nodup_sorted (fun q hq => h.ordered_home hq) (mem_sorted.2 hp)

/-- The entry of a key that is taken last. -/
theorem exists_last (hp : p ∈ (filled ix is limit ic dc).2) : ∃ l₁ q l₂,
    (filled ix is limit ic dc).2 = l₁ ++ q :: l₂ ∧ home ix is ic q = home ix is ic p ∧
    (ic.entries q).key = (ic.entries p).key ∧
    packed ic q ∈ (filled ix is limit ic dc).1 (home ix is ic p) ∧
    ∀ r ∈ l₂, home ix is ic r = home ix is ic p → (ic.entries r).key ≠ (ic.entries p).key := by
  obtain ⟨-, y, hy, hkey⟩ := (h.taken_iff (mem_picked hp)).1 hp
  rcases (mem_fill_iff _ _ _ _).1 hy with ⟨l₁, q, l₂, heq, hq, rfl, hlast⟩ | ⟨-, hno⟩
  · rw [packed, entryKey_packIEntry] at hkey
    refine ⟨l₁, q, l₂, heq, hq, hkey, hy, fun r hr hrp hrk => hlast r hr hrp ?_⟩
    rw [packed, packed, entryKey_packIEntry, entryKey_packIEntry, hrk, hkey]
  · refine absurd ?_ (hno p hp rfl)
    rw [packed, entryKey_packIEntry, hkey]

/-- **Of the entries of one key the newest is taken last.** -/
theorem newest {l₁ l₂ : List ℕ} (heq : (filled ix is limit ic dc).2 = l₁ ++ q :: l₂)
    (hlast : ∀ r ∈ l₂, home ix is ic r = home ix is ic q → (ic.entries r).key ≠ (ic.entries q).key)
    (hr : r ∈ picked ix is limit ic) (hrq : SameKey ic r q) :
    r = q ∨ [q, r].Sublist ic.dirty := by
  have hq : q ∈ (filled ix is limit ic dc).2 := heq ▸ mem_append_right _ mem_cons_self
  have hhome : home ix is ic r = home ix is ic q := by rw [home, home, hrq.1]
  have hr' : r ∈ (filled ix is limit ic dc).2 := by
    rw [h.taken_iff hr, hhome, hrq.key]
    exact (h.taken_iff (mem_picked hq)).1 hq
  by_cases hne : r = q
  · exact Or.inl hne
  · refine Or.inr ?_
    -- it was taken before the last one, and so it was before it in the sorted list
    have hbefore : [r, q].Sublist (iesort (scoreLe ic) (picked ix is limit ic)) := by
      refine Sublist.trans ?_ (fill_taken_sublist entryKey is.buckMax (Corrupt is dc.disk)
        (packed ic) (home ix is ic) _ (sectTable is dc.disk))
      have hmem : r ∈ l₁ := by
        rw [heq] at hr'
        rcases mem_append.1 hr' with hr' | hr'
        · exact hr'
        · rcases mem_cons.1 hr' with hr' | hr'
          · exact absurd hr' hne
          · exact absurd hrq.key (hlast r hr' hhome)
      have hsub : [r, q].Sublist (l₁ ++ q :: l₂) :=
        (singleton_sublist.2 hmem).append (singleton_sublist.2 mem_cons_self)
      rw [← heq] at hsub
      exact hsub
    rcases pair_sublist_or hr (mem_picked hq) hne with hsub | hsub
    · -- the list goes from the oldest to the newest
      exact hsub.reverse.trans (sublist_dirty ix is limit ic)
    · refine absurd ?_ (not_pair_sublist h.nodup_sorted hbefore)
      rw [iesort_eq_mergeSort]
      refine pair_sublist_mergeSort scoreLe_trans scoreLe_total (scoreLe_iff.2 ?_) hsub
      rw [scoreVal, scoreVal, hrq.1]

/-- **Writing the dirty entries of a section** flushes it: the buckets are in order, and what is
found for an entry that was taken is the newest entry of its key. -/
theorem flushes (buf : Buffer) : ∃ s taken, icacheWriteSect ix is limit .good ic dc buf = some s ∧
    Flushed ix is limit ic dc taken s.ic s.dc := by
  obtain ⟨s, hs, hic, hdisk, hmirror, hout⟩ := h.writes buf
  have hopen : ∀ k < is.buckets, ¬Corrupt is dc.disk k → bucketEntries is s.dc.disk
      (is.bucketAt k) = (filled ix is limit ic dc).1 k := fun k hk => (hdisk k hk).entries_eq
  have hfilled : ∀ k < is.buckets, ¬Corrupt is dc.disk k →
      InOrder is s.dc.disk k ∧
        (bucketEntries is s.dc.disk (is.bucketAt k)).length ≤ is.buckMax := by
    intro k hk hok
    rw [inOrder_iff, hopen k hk hok]
    exact fill_ordered (h.ordered hk hok) _
  have hhome : ∀ p ∈ picked ix is limit ic, home ix is ic p < is.buckets :=
    fun p hp => (h.belongs p hp).home_lt
  refine ⟨s, (filled ix is limit ic dc).2, hs, ⟨hfilled, fun k hk => (hdisk k hk).corrupt,
    fun p => ⟨fun hp => ?_, ?_⟩, fun p hp => ?_, fun k hk hok e hno => ?_, fun p hp hnot => ?_,
    by rw [hic]; rfl, by rw [hic]; rfl, fun p => by rw [hic]; rfl, hmirror, hout⟩⟩
  · have hpick := mem_picked hp
    obtain ⟨hok, y, hy, hkey⟩ := (h.taken_iff hpick).1 hp
    rw [← hopen _ (hhome p hpick) hok] at hy
    refine ⟨hpick, hok, ?_⟩
    rcases lookIn_spec (hfilled _ (hhome p hpick) hok).1 (ic.entries p).score
      (ic.entries p).ia.type with ⟨-, -, -, hodd, -⟩ | ⟨hno, -⟩
    · exact hodd
    · exact absurd hkey (hno y hy)
  · rintro ⟨hpick, hok, hodd⟩
    refine (h.taken_iff hpick).2 ⟨hok, ?_⟩
    rcases lookIn_spec (hfilled _ (hhome p hpick) hok).1 (ic.entries p).score
      (ic.entries p).ia.type with ⟨e, he, hkey, -⟩ | ⟨-, heven⟩
    · rw [hopen _ (hhome p hpick) hok] at he
      exact ⟨e, he, hkey⟩
    · exact absurd heven hodd
  · have hpick := mem_picked hp
    have hok := ((h.taken_iff hpick).1 hp).1
    obtain ⟨l₁, q, l₂, heq, hqp, hkey, hmem, hlast⟩ := h.exists_last hp
    have hsame := sameKey_of_key hkey
    refine ⟨q, heq ▸ List.mem_append_right _ List.mem_cons_self, hsame, fun r hr hrp => ?_, ?_⟩
    · refine h.newest heq (fun r hr hrq => ?_) hr ⟨hrp.1.trans hsame.1.symm,
        hrp.2.trans hsame.2.symm⟩
      rw [hkey]
      exact hlast r hr (hrq.trans hqp)
    · obtain ⟨hord, -⟩ := hfilled _ (hhome p hpick) hok
      rw [← hopen _ (hhome p hpick) hok] at hmem
      have hkeyq : entryKey (packed ic q) = (ic.entries p).key := by
        rw [packed, entryKey_packIEntry, hkey]
      rcases lookIn_spec hord (ic.entries p).score (ic.entries p).ia.type with
        ⟨e, he, hek, -, hload⟩ | ⟨hno, -⟩
      · have heq : e = packed ic q :=
          (inOrder_iff.1 hord).inj he hmem (hek.trans hkeyq.symm)
        rw [hload, heq, packed, unpackIAddr_packIEntry]
        rfl
      · exact absurd hkeyq (hno _ hmem)
  · rw [hopen k hk hok, filled, mem_fill_iff]
    constructor
    · rintro (⟨l₁, p, l₂, heq, hp, rfl, -⟩ | ⟨he, -⟩)
      · refine absurd ?_ (hno p (heq ▸ List.mem_append_right _ List.mem_cons_self) hp)
        rw [packed, entryKey_packIEntry]
      · exact he
    · intro he
      refine Or.inr ⟨he, fun p hp hpk => ?_⟩
      rw [packed, entryKey_packIEntry]
      exact hno p hp hpk
  · by_cases hok : Corrupt is dc.disk (home ix is ic p)
    · exact Or.inl hok
    · refine Or.inr ?_
      rw [hopen _ (hhome p hp) hok]
      exact fill_full_of_not_taken h.nodup_sorted (fun q hq => h.ordered_home hq)
        (mem_sorted.2 hp) hnot hok

end Ready

/-! ### Two entries of one key -/

/-- The first of two sections, with buckets of 8192 bytes. -/
def aSect : ISect := { freshSect (letter 97) 100 with index := letter 109, stop := 50 }

theorem okSect_aSect : okSect aSect = true := by decide

theorem header_le_aSect : iBucketSize ≤ aSect.blocksize.toNat := by decide

theorem blocksize_le_aSect : aSect.blocksize.toNat ≤ maxDiskBlock := by decide

/-- It has a magic number, so that its buckets are empty where the disk is. -/
def magicSect : Sect := ⟨aSect, 7, okSect_aSect, header_le_aSect, blocksize_le_aSect⟩

/-- A disk of zeros. -/
def zeroDisk : Dcache := ⟨8192, fun _ => 0, fun _ => none⟩

/-- Two blocks of one score: pointers of data, and pointers of a directory, which are the same on
disk. -/
def twins : ICache where
  entries p := ⟨Vector.replicate 20 0, ⟨UInt64.ofNat p, 8192, if p = 0 then 1 else 9, 1⟩, .dirty⟩
  clean := []
  dirty := [1, 0]
  ndirty := 2

theorem picked_twins : picked evenIndex magicSect 1 twins = [0, 1] := by
  have hhash : ∀ p, hashBits (twins.entries p).score 32 = 0 := fun p => by
    have h : hashBits (Vector.replicate 20 0) 32 = 0 := by decide
    exact h
  have hlo : sectLo evenIndex magicSect.toISect = 0 := by decide
  have hhi : sectHi evenIndex magicSect.toISect = 2147483649 := by decide
  have haddr : ∀ p ∈ [1, 0], (twins.entries p).ia.addr ≤ 1 := by
    intro p hp
    rcases mem_pair.1 hp with rfl | rfl
    · exact UInt64.le_refl 1
    · exact UInt64.zero_le
  rw [picked, icacheDirty_eq, hlo, hhi, filter_eq_self.2]
  · rfl
  · intro p hp
    rw [decide_eq_true_eq, hhash]
    exact ⟨rfl, haddr p hp, by decide, by decide⟩

theorem bucketEntries_zeroDisk (a : ℕ) : bucketEntries magicSect zeroDisk.disk a = [] := by
  have hload : Buffer.load zeroDisk.disk (a + 2) 4 = [0, 0, 0, 0] := rfl
  have hmagic : magicSect.bucketmagic ≠ 0 ∧
      magicSect.bucketmagic.toNat ≠ beVal (Buffer.load zeroDisk.disk (a + 2) 4) := by
    rw [hload]
    decide
  rw [bucketEntries, unpackIBucket, if_pos hmagic]
  rfl

theorem ready_twins : Ready evenIndex magicSect 1 twins zeroDisk where
  ring := by decide
  belongs p hp := by
    rw [picked_twins] at hp
    rcases mem_pair.1 hp with rfl | rfl
    · exact ⟨by decide, by decide⟩
    · exact ⟨by decide, by decide⟩
  in_order k _ _ := by
    rw [InOrder, bucketEntries_zeroDisk]
    exact List.Pairwise.nil

/-- Both are taken. -/
theorem filled_twins : (filled evenIndex magicSect 1 twins zeroDisk).2 = [0, 1] := by
  have hsorted : iesort (scoreLe twins) [0, 1] = [0, 1] := by
    rw [iesort_eq_mergeSort]
    exact mergeSort_of_pairwise (by decide)
  have hnot : ∀ k, ¬Corrupt magicSect zeroDisk.disk k := by
    intro k
    rw [Corrupt, bucketEntries_zeroDisk]
    exact Nat.not_lt_zero _
  have hempty : sectTable magicSect zeroDisk.disk = fun _ => [] := by
    funext k
    exact bucketEntries_zeroDisk _
  have hkey : entryKey (packed twins 0) = entryKey (packed twins 1) := by
    rw [packed, packed, entryKey_packIEntry, entryKey_packIEntry]
    rfl
  have hhome : home evenIndex magicSect twins 0 = home evenIndex magicSect twins 1 := rfl
  have hcap : ([] : List (List UInt8)).length < magicSect.buckMax := by decide
  rw [filled, picked_twins, hsorted, hempty, Lib.fill, putAt, if_neg (hnot _), tryPut,
    if_pos (Or.inr hcap), Option.map_some]
  simp only
  rw [Lib.fill, putAt, if_neg (hnot _), ← hhome, update_self, tryPut,
    if_pos (Or.inl ⟨packed twins 0, mem_putSorted.2 (Or.inl rfl), hkey⟩), Option.map_some]
  rfl

/-- The section after the two were written. -/
theorem twins_flushed : ∃ s taken,
    icacheWriteSect evenIndex magicSect 1 .good twins zeroDisk (fun _ => 0) = some s ∧
      Flushed evenIndex magicSect 1 twins zeroDisk taken s.ic s.dc :=
  ready_twins.flushes fun _ => 0

/-- `bucklook` cannot tell two types that are the same on disk. -/
theorem lookIn_congr (score : Score) {type type' : UInt8}
    (h : vtToDiskType type.toNat = vtToDiskType type'.toNat) :
    lookIn is d k score type = lookIn is d k score type' := by
  have hmod : ∀ n : UInt8, ((n.toNat : ℤ) % 2 ^ 32).toNat = n.toNat := by
    intro n
    have hn := n.toNat_lt
    rw [Int.emod_eq_of_lt (by omega) (by omega), Int.toNat_natCast]
  have hpos : ∀ n : UInt8, ¬(n.toNat : ℤ) = -1 := fun n => by omega
  rw [lookIn, lookIn, buckLook, buckLook, if_neg (hpos _), if_neg (hpos _), hmod, hmod, h]

/-- **The older of two entries of one key is lost**: both go to the clean list, but `bucklook`
does not find each of them. -/
theorem twins_not_found : Ready evenIndex magicSect 1 twins zeroDisk ∧
    ∃ s, icacheWriteSect evenIndex magicSect 1 .good twins zeroDisk (fun _ => 0) = some s ∧
      s.ic.clean = [1, 0] ∧ ¬∀ p ∈ s.ic.clean, (unpackIAddr (Buffer.load s.dc.disk
        (magicSect.bucketAt (home evenIndex magicSect twins p) + iBucketSize +
          (lookIn magicSect s.dc.disk (home evenIndex magicSect twins p) (twins.entries p).score
            (twins.entries p).ia.type ^^^ 1)) iEntrySize)).addr = (twins.entries p).ia.addr := by
  refine ⟨ready_twins, ?_⟩
  obtain ⟨s, hs, hic, -⟩ := ready_twins.writes fun _ => 0
  have hclean : s.ic.clean = [1, 0] := by
    rw [hic, cleaned, filled_twins]
    rfl
  refine ⟨s, hs, hclean, fun hall => ?_⟩
  rw [hclean] at hall
  have h0 := hall 0 (by decide)
  have h1 := hall 1 (by decide)
  have hlook : lookIn magicSect s.dc.disk (home evenIndex magicSect twins 1) (twins.entries 1).score
      (twins.entries 1).ia.type = lookIn magicSect s.dc.disk (home evenIndex magicSect twins 0)
        (twins.entries 0).score (twins.entries 0).ia.type := lookIn_congr _ (by decide)
  have hhome : home evenIndex magicSect twins 1 = home evenIndex magicSect twins 0 := rfl
  rw [hlook, hhome, h0] at h1
  exact absurd h1 (by decide)

end Icache

end Venti

end Plan9
