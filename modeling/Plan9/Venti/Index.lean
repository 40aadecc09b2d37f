import Plan9.Lib.Buckets
import Plan9.Venti.Dat

/-!
# Laying out an index

A venti index is a hash table of blocks, spread over index sections that usually
sit on different disks. `newindex` counts the blocks of all sections, derives from
the count a divisor `div` of the 32-bit hashes and the number `ub` of buckets this
divisor uses, and deals the buckets out to the sections in order, each section
giving up an equal share of the blocks that stay unused. `initindex` reads such a
layout back and checks it.

The arithmetic is that of the source: 64-bit for the counts, 32-bit for everything
that is stored, so that a share larger than a section makes its end wrap around.

* `Plan9.Venti.planBuckets_eq` – what the count of blocks determines;
* `Plan9.Venti.newIndex_partitions_iff` – the layouts that are partitions of the
  bucket space are exactly those of sections big enough for their share.
-/

namespace Plan9

namespace Venti

open Lib List

/-! ### Sections and indexes -/

/-- The contents of a `char[ANameSize]` that `namecp` has filled: a string that
leaves room for the terminating zero. -/
abbrev AName := {s : List UInt8 // s.length < aNameSize}

/-- `namecp`: copy a string into a name, cutting it to fit. -/
def nameCp (s : List UInt8) : AName :=
  ⟨s.take (aNameSize - 1), by simp [aNameSize]⟩

/-- `struct ISect`, the fields the index layout reads and writes. -/
structure ISect where
  name : AName
  /-- The index owning the section; empty in a fresh one. -/
  index : AName
  blocksize : UInt32
  tabsize : UInt32
  /-- Address of the buckets on the section's partition. -/
  blockbase : UInt32
  blocklog : ℕ
  /-- Blocks on disk, some of which may stay unused. -/
  blocks : UInt32
  /-- First bucket in this section. -/
  start : UInt32
  /-- Limit of the buckets in this section. -/
  stop : UInt32
deriving DecidableEq

/-- `struct AMap`: a named range. -/
structure AMap where
  start : UInt32
  stop : UInt32
  name : AName
deriving DecidableEq

/-- `struct Index`, as far as the layout of the buckets goes. -/
structure Index where
  name : AName
  div : UInt32
  buckets : UInt32
  blocksize : UInt32
  tabsize : UInt32
  sects : List ISect
  smap : List AMap
deriving DecidableEq

/-- The ways in which making or reading an index fails: the messages of the
source, and the trap of a division by zero. -/
inductive IndexError
  /-- "creating index with no index sections" -/
  | noSections
  /-- "creating new index using non-empty section" -/
  | nonEmptySection
  /-- "mismatched block sizes in index sections" -/
  | mismatchedBlockSizes
  /-- "mismatched config table sizes in index sections" -/
  | mismatchedTableSizes
  /-- "duplicate section name for index" -/
  | duplicateName
  /-- "index initialization math wrong" -/
  | mathWrong
  /-- "inconsistent math for divisor and buckets" -/
  | inconsistentMath
  /-- "inconsistent index sections" -/
  | inconsistentSections
  /-- The processor traps. -/
  | divideByZero
deriving DecidableEq

/-! ### Checking a layout -/

/-- `initindex1`: derive the divisor from the number of buckets, and see that it
gives the same number back. -/
def initIndex1 (ix : Index) : Except IndexError Index :=
  if ix.buckets = 0 then .error .divideByZero
  else
    let div := UInt32.ofNat ((2 ^ 32 + ix.buckets.toNat - 1) / ix.buckets.toNat)
    if div = 0 then .error .divideByZero
    else if UInt32.ofNat ((2 ^ 32 - 1) / div.toNat + 1) ≠ ix.buckets then
      .error .inconsistentMath
    else .ok { ix with div := div }

/-- The loop of `initindex` over the sections and the section map, from the bucket
`last`; the result is the limit of the last section. -/
def checkSects (name : AName) (blocksize tabsize : UInt32) :
    UInt32 → List ISect → List AMap → Except IndexError UInt32
  | last, is :: sects, m :: smap =>
    if name ≠ is.index ∨ is.blocksize ≠ blocksize ∨ is.tabsize ≠ tabsize ∨ is.name ≠ m.name ∨
        is.start ≠ m.start ∨ is.stop ≠ m.stop ∨ last ≠ is.start ∨ is.start > is.stop then
      .error .inconsistentSections
    else checkSects name blocksize tabsize is.stop sects smap
  | last, _, _ => .ok last

/-- `initindex`, given the configuration that was read back: the name, the block
size and the section map. The sections are checked against it, and the buckets
end where the last of them does. -/
def initIndex (name : AName) (blocksize : UInt32) (smap : List AMap) (sects : List ISect) :
    Except IndexError Index :=
  match sects with
  | [] => .error .noSections
  | is :: _ =>
    if smap.length ≠ sects.length then .error .inconsistentSections
    else do
      let last ← checkSects name blocksize is.tabsize 0 sects smap
      initIndex1 ⟨name, 0, last, blocksize, is.tabsize, sects, smap⟩

/-! ### Making a layout -/

/-- The first loop of `newindex`: every section is unused or belongs to this
index, and all have the same sizes. -/
def checkNew (name : List UInt8) (blocksize tabsize : UInt32) :
    List ISect → Except IndexError Unit
  | [] => .ok ()
  | is :: sects =>
    if is.index.1 ≠ [] ∧ is.index.1 ≠ name then .error .nonEmptySection
    else if blocksize ≠ is.blocksize then .error .mismatchedBlockSizes
    else if tabsize ≠ is.tabsize then .error .mismatchedTableSizes
    else checkNew name blocksize tabsize sects

/-- The divisor `newindex` starts from, the buckets it puts in use and the blocks
that stay unused. -/
structure BucketPlan where
  div : UInt32
  ub : UInt32
  xb : UInt32
deriving DecidableEq

/-- The arithmetic of `newindex` on the number `nb` of blocks. A divisor below 100
is found too coarse and part of the blocks is ignored. -/
def planBuckets (nb : ℕ) : Except IndexError BucketPlan :=
  let nb := if nb ≥ 2 ^ 32 then 2 ^ 32 - 1 else nb
  if nb = 0 then .error .divideByZero
  else
    let div := UInt32.ofNat ((2 ^ 32 + nb - 1) / nb)
    let (div, nb) := if div < 100 then (100, (2 ^ 32 - 1) / (100 - 1)) else (div, nb)
    let ub := UInt32.ofNat ((2 ^ 32 - 1) / div.toNat + 1)
    if ub.toNat > nb then .error .mathWrong
    else .ok ⟨div, ub, UInt32.ofNat (nb - ub.toNat)⟩

/-- The loop of `newindex` that lays the sections out from the bucket `start`:
each gives up `share` of its blocks, and the last one ends at `ub`. -/
def layOut (name : List UInt8) (share ub : UInt32) :
    UInt32 → List ISect → Except IndexError (List ISect)
  | _, [] => .ok []
  | start, is :: sects =>
    let stop := if sects = [] then ub else start + is.blocks - share
    if (is.start ≠ 0 ∨ is.stop ≠ 0) ∧ (is.start ≠ start ∨ is.stop ≠ stop) then
      .error .nonEmptySection
    else do
      let rest ← layOut name share ub stop sects
      .ok ({ is with start := start, stop := stop, index := nameCp name } :: rest)

/-- The blocks of all sections. -/
def totalBlocks (sects : List ISect) : ℕ := (sects.map fun is => is.blocks.toNat).sum

/-- `newindex`. -/
def newIndex (name : List UInt8) (sects : List ISect) : Except IndexError Index :=
  match sects with
  | [] => .error .noSections
  | is :: _ => do
    checkNew name is.blocksize is.tabsize sects
    if ¬(sects.map fun is => is.name).Nodup then .error .duplicateName
    else do
      let plan ← planBuckets (totalBlocks sects % 2 ^ 64)
      let sects ← layOut name (plan.xb / UInt32.ofNat sects.length) plan.ub 0 sects
      initIndex1
        { name := nameCp name, div := plan.div, buckets := plan.ub, blocksize := is.blocksize,
          tabsize := is.tabsize, sects := sects,
          smap := sects.map fun is => ⟨is.start, is.stop, nameCp is.name.1⟩ }

/-! ### What the count of blocks determines -/

/-- The most blocks an index makes use of: those that a divisor of 100 can still
address. -/
def maxIndexBlocks : ℕ := (2 ^ 32 - 1) / (100 - 1)

/-- The blocks `newindex` reckons with. A single block makes the divisor wrap to
zero, which passes for too coarse. -/
def reckonedBlocks (nb : ℕ) : ℕ := if nb = 1 then maxIndexBlocks else min nb maxIndexBlocks

/-- The buckets put in use when there are `nb` blocks. -/
def usedBuckets (nb : ℕ) : ℕ := 2 ^ 32 ⌈/⌉ (2 ^ 32 ⌈/⌉ nb)

theorem usedBuckets_le {nb : ℕ} (h : 0 < nb) : usedBuckets nb ≤ nb :=
  ceilDiv_ceilDiv_le (by norm_num) h

theorem ceilDiv_le_half {n : ℕ} (h : 2 ≤ n) : 2 ^ 32 ⌈/⌉ n ≤ 2 ^ 31 :=
  (ceilDiv_le_iff_le_mul (by omega)).mpr (by omega)

variable {nb : ℕ}

theorem two_le_usedBuckets (h : 2 ≤ nb) : 2 ≤ usedBuckets nb := by
  by_contra hc
  have hle : 2 ^ 32 ⌈/⌉ (2 ^ 32 ⌈/⌉ nb) ≤ 1 := by
    have : usedBuckets nb ≤ 1 := by omega
    exact this
  have hpos : 0 < 2 ^ 32 ⌈/⌉ nb := ceilDiv_pos (by norm_num) (by omega)
  have hone : 2 ^ 32 ≤ (2 ^ 32 ⌈/⌉ nb) * 1 := (ceilDiv_le_iff_le_mul hpos).mp hle
  have hhalf := ceilDiv_le_half h
  omega

theorem planBuckets_of_le (h2 : 2 ≤ nb) (hle : nb ≤ maxIndexBlocks) :
    planBuckets nb = .ok ⟨UInt32.ofNat (2 ^ 32 ⌈/⌉ nb), UInt32.ofNat (usedBuckets nb),
      UInt32.ofNat (nb - usedBuckets nb)⟩ := by
  have hmax : maxIndexBlocks = 43383508 := rfl
  have hdiv : (2 ^ 32 + nb - 1) / nb = 2 ^ 32 ⌈/⌉ nb := rfl
  have hhalf := ceilDiv_le_half h2
  have hge : 100 ≤ 2 ^ 32 ⌈/⌉ nb := by
    by_contra hc
    have := (ceilDiv_le_iff_le_mul (b := 2 ^ 32) (c := 99) (show 0 < nb by omega)).mp (by omega)
    omega
  have hub : (2 ^ 32 - 1) / (2 ^ 32 ⌈/⌉ nb) + 1 = usedBuckets nb :=
    pred_div_add_one (by norm_num) (by omega)
  have hule := @usedBuckets_le nb (by omega)
  have hdnat : (UInt32.ofNat (2 ^ 32 ⌈/⌉ nb)).toNat = 2 ^ 32 ⌈/⌉ nb :=
    UInt32.toNat_ofNat_of_lt' (hhalf.trans_lt (by norm_num))
  have hunat : (UInt32.ofNat (usedBuckets nb)).toNat = usedBuckets nb :=
    UInt32.toNat_ofNat_of_lt' (show usedBuckets nb < 2 ^ 32 by omega)
  have hlt : ¬UInt32.ofNat (2 ^ 32 ⌈/⌉ nb) < 100 := by
    rw [UInt32.lt_iff_toNat_lt, hdnat]
    exact not_lt.mpr hge
  simp only [planBuckets]
  rw [if_neg (show ¬nb ≥ 2 ^ 32 by omega), if_neg (show ¬nb = 0 by omega), hdiv, if_neg hlt]
  simp only [hdnat, hub, hunat]
  rw [if_neg (show ¬usedBuckets nb > nb by omega)]

theorem planBuckets_of_lt (h : nb = 1 ∨ maxIndexBlocks < nb) :
    planBuckets nb = .ok ⟨100, UInt32.ofNat (usedBuckets maxIndexBlocks),
      UInt32.ofNat (maxIndexBlocks - usedBuckets maxIndexBlocks)⟩ := by
  have hmax : maxIndexBlocks = 43383508 := rfl
  rcases h with rfl | h
  · decide
  · have hn : ∃ m, maxIndexBlocks < m ∧ m < 2 ^ 32 ∧
      (if nb ≥ 2 ^ 32 then 2 ^ 32 - 1 else nb) = m := by
      split_ifs
      · exact ⟨_, by rw [hmax]; norm_num, by norm_num, rfl⟩
      · exact ⟨_, h, by omega, rfl⟩
    obtain ⟨m, hm, hm2, hmeq⟩ := hn
    have hdiv : (2 ^ 32 + m - 1) / m ≤ 99 := by
      have := (ceilDiv_le_iff_le_mul (b := 2 ^ 32) (c := 99) (show 0 < m by omega)).mpr
        (by omega)
      exact this
    have hlt : UInt32.ofNat ((2 ^ 32 + m - 1) / m) < 100 := by
      rw [UInt32.lt_iff_toNat_lt, UInt32.toNat_ofNat_of_lt' (hdiv.trans_lt (by norm_num))]
      exact Nat.lt_of_le_of_lt hdiv (by decide)
    simp only [planBuckets, hmeq]
    rw [if_neg (show ¬m = 0 by omega), if_pos hlt]
    rfl

/-- **What the count of blocks determines**: the divisor, the buckets in use and
the blocks left over. -/
theorem planBuckets_eq (h : 0 < nb) :
    planBuckets nb = .ok ⟨UInt32.ofNat (2 ^ 32 ⌈/⌉ reckonedBlocks nb),
      UInt32.ofNat (usedBuckets (reckonedBlocks nb)),
      UInt32.ofNat (reckonedBlocks nb - usedBuckets (reckonedBlocks nb))⟩ := by
  by_cases hbad : nb = 1 ∨ maxIndexBlocks < nb
  · have hr : reckonedBlocks nb = maxIndexBlocks := by
      rcases hbad with rfl | hlt
      · rfl
      · rw [reckonedBlocks, if_neg, min_eq_right hlt.le]
        rintro rfl
        exact absurd hlt (by decide)
    rw [planBuckets_of_lt hbad, hr]
    rfl
  · rw [not_or, not_lt] at hbad
    have hr : reckonedBlocks nb = nb := by rw [reckonedBlocks, if_neg hbad.1, min_eq_left hbad.2]
    rw [planBuckets_of_le (by omega) hbad.2, hr]

/-! ### Dealing the buckets out -/

/-- The bucket ranges of a list of sections. -/
def sectRanges (sects : List ISect) : List (ℕ × ℕ) :=
  sects.map fun is => (is.start.toNat, is.stop.toNat)

/-- What `newindex` makes of fresh sections: `layOut` without its check. -/
def place (name : List UInt8) (share ub : UInt32) : UInt32 → List ISect → List ISect
  | _, [] => []
  | start, is :: sects =>
    let stop := if sects = [] then ub else start + is.blocks - share
    { is with start := start, stop := stop, index := nameCp name } ::
      place name share ub stop sects

/-- A list of sections that `newindex` may turn into an index: no section has been
laid out before, and all agree on their sizes but not on their names. -/
structure FreshSects (name : List UInt8) (sects : List ISect) : Prop where
  ne_nil : sects ≠ []
  /-- The number of sections is an `int`. -/
  length_lt : sects.length < 2 ^ 31
  start_eq : ∀ is ∈ sects, is.start = 0
  stop_eq : ∀ is ∈ sects, is.stop = 0
  index_eq : ∀ is ∈ sects, is.index.1 = [] ∨ is.index.1 = name
  blocksize_eq : ∀ is ∈ sects, ∀ is' ∈ sects, is.blocksize = is'.blocksize
  tabsize_eq : ∀ is ∈ sects, ∀ is' ∈ sects, is.tabsize = is'.tabsize
  nodup : (sects.map fun is => is.name).Nodup

variable {name : List UInt8} {share ub : UInt32}

theorem layOut_fresh : ∀ {sects : List ISect} (start : UInt32), (∀ is ∈ sects, is.start = 0) →
    (∀ is ∈ sects, is.stop = 0) →
    layOut name share ub start sects = .ok (place name share ub start sects)
  | [], _, _, _ => rfl
  | is :: sects, start, h0, h1 => by
    have ih := fun stop => @layOut_fresh sects stop
      (fun s hs => h0 s (mem_cons_of_mem _ hs)) (fun s hs => h1 s (mem_cons_of_mem _ hs))
    have hfresh : ¬(is.start ≠ 0 ∨ is.stop ≠ 0) := by
      simp [h0 is mem_cons_self, h1 is mem_cons_self]
    simp only [layOut, place, hfresh, false_and, if_false, ih]
    rfl

@[simp] theorem length_place (start : UInt32) (sects : List ISect) :
    (place name share ub start sects).length = sects.length := by
  induction sects generalizing start with
  | nil => rfl
  | cons is sects ih => simp [place, ih]

/-- **The condition on the sections**, in the order of the loop: from bucket `acc`
on, every section but the last has its share to give up, and the last one can hold
what remains up to `top`. -/
def Shares (share top : ℕ) : ℕ → List ℕ → Prop
  | _, [] => False
  | acc, [b] => acc ≤ top ∧ top ≤ acc + b
  | acc, b :: b' :: bs => share ≤ b ∧ Shares share top (acc + (b - share)) (b' :: bs)

theorem Shares.le_top {q top : ℕ} : ∀ {acc : ℕ} {bs : List ℕ}, Shares q top acc bs → acc ≤ top
  | _, [_], h => h.1
  | _, _ :: _ :: _, h => (Nat.le_add_right _ _).trans (Shares.le_top h.2)

/-- The condition, summed up. -/
theorem shares_iff {q top : ℕ} : ∀ {acc : ℕ} {bs : List ℕ}, bs ≠ [] →
    (Shares q top acc bs ↔ (∀ b ∈ bs.dropLast, q ≤ b) ∧ acc + (bs.dropLast.map (· - q)).sum ≤ top ∧
      top ≤ acc + (bs.dropLast.map (· - q)).sum + bs.getLastD 0)
  | acc, [b], _ => by simp [Shares]
  | acc, b :: b' :: bs, _ => by
    rw [Shares, shares_iff (by simp)]
    simp only [dropLast_cons_cons, mem_cons, forall_eq_or_imp, map_cons, sum_cons,
      getLastD_cons, and_assoc, Nat.add_assoc]

/-- The ranges dealt out are contiguous and fit their sections. -/
def Fits (top acc : ℕ) (sects : List ISect) : Prop :=
  ChainFrom top acc (sectRanges sects) ∧
    ∀ is ∈ sects, is.stop.toNat - is.start.toNat ≤ is.blocks.toNat

/-- One section's end: it stays in order and within the section exactly when the
section has its share to give up and the sum does not wrap. -/
theorem stop_fits_iff {start blocks share : UInt32} :
    (start.toNat ≤ (start + blocks - share).toNat ∧
        (start + blocks - share).toNat - start.toNat ≤ blocks.toNat) ↔
      share.toNat ≤ blocks.toNat ∧ start.toNat + (blocks.toNat - share.toNat) < 2 ^ 32 := by
  have h1 := start.toNat_lt
  have h2 := blocks.toNat_lt
  have h3 := share.toNat_lt
  rw [UInt32.toNat_sub, UInt32.toNat_add]
  omega

theorem toNat_stop {start blocks share : UInt32} (h : share.toNat ≤ blocks.toNat)
    (hlt : start.toNat + (blocks.toNat - share.toNat) < 2 ^ 32) :
    (start + blocks - share).toNat = start.toNat + (blocks.toNat - share.toNat) := by
  have h3 := share.toNat_lt
  rw [UInt32.toNat_sub, UInt32.toNat_add]
  omega

/-- **When the sections dealt out fit**: by induction on the sections, the bucket
reached so far being the sum of what the earlier ones kept. -/
theorem fits_place_iff : ∀ {sects : List ISect} (start : UInt32), sects ≠ [] →
    (Fits ub.toNat start.toNat (place name share ub start sects) ↔
      Shares share.toNat ub.toNat start.toNat (sects.map fun is => is.blocks.toNat))
  | [is], start, _ => by
    simp [Fits, place, sectRanges, ChainFrom, Shares]
    omega
  | is :: is' :: sects, start, _ => by
    have ih := @fits_place_iff (is' :: sects) (start + is.blocks - share) (by simp)
    have hplace : place name share ub start (is :: is' :: sects) =
        { is with start := start, stop := start + is.blocks - share, index := nameCp name } ::
          place name share ub (start + is.blocks - share) (is' :: sects) := by
      rw [place]
      simp
    have hfits : Fits ub.toNat start.toNat (place name share ub start (is :: is' :: sects)) ↔
        (start.toNat ≤ (start + is.blocks - share).toNat ∧
          (start + is.blocks - share).toNat - start.toNat ≤ is.blocks.toNat) ∧
        Fits ub.toNat (start + is.blocks - share).toNat
          (place name share ub (start + is.blocks - share) (is' :: sects)) := by
      rw [hplace]
      simp only [Fits, sectRanges, map_cons, ChainFrom, mem_cons, forall_eq_or_imp, true_and]
      tauto
    rw [hfits, stop_fits_iff, ih]
    simp only [map_cons, Shares]
    constructor
    · rintro ⟨⟨h1, h2⟩, h3⟩
      rw [toNat_stop h1 h2] at h3
      exact ⟨h1, h3⟩
    · rintro ⟨h1, h3⟩
      have h2 : start.toNat + (is.blocks.toNat - share.toNat) < 2 ^ 32 :=
        h3.le_top.trans_lt ub.toNat_lt
      rw [toNat_stop h1 h2]
      exact ⟨⟨h1, h2⟩, h3⟩

/-! ### Reading the layout back -/

/-- The section map `newindex` makes of the sections it has laid out. -/
def mapOf (sects : List ISect) : List AMap :=
  sects.map fun is => ⟨is.start, is.stop, nameCp is.name.1⟩

theorem nameCp_name (s : AName) : nameCp s.1 = s := by
  have hlen : s.1.length < 64 := s.2
  exact Subtype.ext (take_of_length_le (by simp only [aNameSize]; omega))

/-- **The check of `initindex` accepts what `newindex` has laid out**, when the
ranges are in order. -/
theorem checkSects_place {bs ts : UInt32} : ∀ {sects : List ISect} (start : UInt32), sects ≠ [] →
    (∀ is ∈ sects, is.blocksize = bs) → (∀ is ∈ sects, is.tabsize = ts) →
    ChainFrom ub.toNat start.toNat (sectRanges (place name share ub start sects)) →
    checkSects (nameCp name) bs ts start (place name share ub start sects)
      (mapOf (place name share ub start sects)) = .ok ub
  | [is], start, _, hb, ht, hc => by
    have hle : ¬start > ub := by
      simp only [place, sectRanges, if_true, map_cons, map_nil, ChainFrom] at hc
      exact UInt32.not_lt.mpr (UInt32.le_iff_toNat_le.mpr hc.2.1)
    simp [place, mapOf, checkSects, nameCp_name, hb is, ht is, hle]
  | is :: is' :: sects, start, _, hb, ht, hc => by
    have hplace : place name share ub start (is :: is' :: sects) =
        { is with start := start, stop := start + is.blocks - share, index := nameCp name } ::
          place name share ub (start + is.blocks - share) (is' :: sects) := by
      rw [place]
      simp
    rw [hplace] at hc ⊢
    simp only [sectRanges, map_cons, ChainFrom, true_and] at hc
    have hle : ¬start > start + is.blocks - share :=
      UInt32.not_lt.mpr (UInt32.le_iff_toNat_le.mpr hc.1)
    have ih := @checkSects_place bs ts (is' :: sects) (start + is.blocks - share) (by simp)
      (fun s hs => hb s (mem_cons_of_mem _ hs)) (fun s hs => ht s (mem_cons_of_mem _ hs))
      hc.2
    simp only [mapOf, map_cons] at ih ⊢
    rw [checkSects, if_neg]
    · exact ih
    · simp [nameCp_name, hb is, ht is, hle]

/-- `initindex1` accepts a number of buckets that comes from a divisor. -/
theorem initIndex1_eq {ix : Index} {d : ℕ} (h2 : 2 ≤ ix.buckets.toNat) (hd : 0 < d)
    (hbuckets : 2 ^ 32 ⌈/⌉ d = ix.buckets.toNat) :
    initIndex1 ix = .ok { ix with div := UInt32.ofNat (2 ^ 32 ⌈/⌉ ix.buckets.toNat) } := by
  have hhalf := ceilDiv_le_half h2
  have hpos : 0 < 2 ^ 32 ⌈/⌉ ix.buckets.toNat := ceilDiv_pos (by norm_num) (by omega)
  have hdiv : (2 ^ 32 + ix.buckets.toNat - 1) / ix.buckets.toNat =
      2 ^ 32 ⌈/⌉ ix.buckets.toNat := rfl
  have hdnat : (UInt32.ofNat (2 ^ 32 ⌈/⌉ ix.buckets.toNat)).toNat =
      2 ^ 32 ⌈/⌉ ix.buckets.toNat := UInt32.toNat_ofNat_of_lt' (hhalf.trans_lt (by norm_num))
  have hne0 : ix.buckets ≠ 0 := by
    intro hc
    rw [hc] at h2
    exact absurd h2 (by decide)
  have hdne0 : UInt32.ofNat (2 ^ 32 ⌈/⌉ ix.buckets.toNat) ≠ 0 := by
    intro hc
    rw [hc, UInt32.toNat_zero] at hdnat
    omega
  have hback : (2 ^ 32 - 1) / (2 ^ 32 ⌈/⌉ ix.buckets.toNat) + 1 = ix.buckets.toNat := by
    rw [pred_div_add_one (by norm_num) hpos, ← hbuckets]
    exact ceilDiv_ceilDiv_ceilDiv (by norm_num) hd
  simp only [initIndex1, hdiv, hdnat, hback, UInt32.ofNat_toNat]
  rw [if_neg hne0, if_neg hdne0, if_neg (not_not.mpr rfl)]

/-- What the buckets and the divisor of an index that `initindex1` has accepted are
to each other. -/
theorem initIndex1_isBucketing {ix ix' : Index} (h : initIndex1 ix = .ok ix') :
    IsBucketing (2 ^ 32) ix'.buckets.toNat ix'.div.toNat ∧ ix'.buckets = ix.buckets ∧
      ix'.sects = ix.sects := by
  simp only [initIndex1] at h
  split_ifs at h with h1 h2 h3
  have hix := Except.ok.inj h
  subst hix
  have hlt := ix.buckets.toNat_lt
  have hb0 : 0 < ix.buckets.toNat := by
    rw [Nat.pos_iff_ne_zero]
    exact fun hc => h1 (UInt32.toNat_inj.mp hc)
  -- the divisor is at least two before it is cut to 32 bits, and not zero after
  have hge : 2 ≤ (2 ^ 32 + ix.buckets.toNat - 1) / ix.buckets.toNat := by
    rw [Nat.le_div_iff_mul_le hb0]
    omega
  have hle : (2 ^ 32 + ix.buckets.toNat - 1) / ix.buckets.toNat ≤ 2 ^ 32 :=
    (ceilDiv_le_iff_le_mul hb0).mpr (Nat.le_mul_of_pos_left _ hb0)
  have hdiv : 2 ≤ (UInt32.ofNat ((2 ^ 32 + ix.buckets.toNat - 1) / ix.buckets.toNat)).toNat := by
    generalize (2 ^ 32 + ix.buckets.toNat - 1) / ix.buckets.toNat = v at h2 hge hle ⊢
    rcases Nat.eq_or_lt_of_le hle with rfl | hv
    · exact absurd rfl h2
    · rw [UInt32.toNat_ofNat_of_lt' hv]
      exact hge
  refine ⟨⟨lt_of_lt_of_le Nat.two_pos hdiv, ?_⟩, rfl, rfl⟩
  generalize UInt32.ofNat ((2 ^ 32 + ix.buckets.toNat - 1) / ix.buckets.toNat) = div at *
  have hback := congrArg UInt32.toNat (not_not.mp h3)
  rw [pred_div_add_one (by norm_num) (by omega)] at hback
  rwa [UInt32.toNat_ofNat_of_lt' ((ceilDiv_le_half hdiv).trans_lt (by norm_num))] at hback

/-! ### The partition -/

/-- **An index that partitions the bucket space**: the sections divide the buckets
among them, none holds more than it has blocks, every hash falls into a bucket, and
reading the layout back accepts it. -/
structure Index.Partitions (ix : Index) : Prop where
  contiguous : Contiguous (rangeStart (sectRanges ix.sects)) (rangeStop (sectRanges ix.sects))
    ix.sects.length ix.buckets.toNat
  fits : ∀ is ∈ ix.sects, is.stop.toNat - is.start.toNat ≤ is.blocks.toNat
  bucket_lt : ∀ h, h < 2 ^ 32 → h / ix.div.toNat < ix.buckets.toNat
  accepted : initIndex ix.name ix.blocksize ix.smap ix.sects = .ok ix

/-- The index `newindex` makes of fresh sections with `nb` blocks. -/
def builtIndex (name : List UInt8) (is : ISect) (sects : List ISect) (nb : ℕ) : Index :=
  let ub := UInt32.ofNat (usedBuckets nb)
  let share := UInt32.ofNat (nb - usedBuckets nb) / UInt32.ofNat sects.length
  { name := nameCp name
    div := UInt32.ofNat (2 ^ 32 ⌈/⌉ usedBuckets nb)
    buckets := ub
    blocksize := is.blocksize
    tabsize := is.tabsize
    sects := place name share ub 0 sects
    smap := mapOf (place name share ub 0 sects) }

theorem checkNew_fresh {bs ts : UInt32} : ∀ {sects : List ISect},
    (∀ is ∈ sects, is.index.1 = [] ∨ is.index.1 = name) → (∀ is ∈ sects, bs = is.blocksize) →
    (∀ is ∈ sects, ts = is.tabsize) → checkNew name bs ts sects = .ok ()
  | [], _, _, _ => rfl
  | is :: sects, hi, hb, ht => by
    have hindex : ¬(is.index.1 ≠ [] ∧ is.index.1 ≠ name) := by
      have := hi is mem_cons_self
      tauto
    rw [checkNew, if_neg hindex, if_neg (not_not.mpr (hb is mem_cons_self)),
      if_neg (not_not.mpr (ht is mem_cons_self))]
    exact checkNew_fresh (fun s hs => hi s (mem_cons_of_mem _ hs))
      (fun s hs => hb s (mem_cons_of_mem _ hs)) fun s hs => ht s (mem_cons_of_mem _ hs)

variable {sects : List ISect}

theorem totalBlocks_lt (h : sects.length < 2 ^ 31) : totalBlocks sects < 2 ^ 64 := by
  have hle : totalBlocks sects ≤ sects.length * 2 ^ 32 := by
    clear h
    induction sects with
    | nil => simp [totalBlocks]
    | cons is sects ih =>
      have hlt := is.blocks.toNat_lt
      simp only [totalBlocks, map_cons, sum_cons, length_cons] at ih ⊢
      omega
  omega

theorem two_le_reckonedBlocks (h : 0 < nb) : 2 ≤ reckonedBlocks nb := by
  have hmax : maxIndexBlocks = 43383508 := rfl
  rw [reckonedBlocks]
  split_ifs with h1
  · omega
  · rw [le_min_iff]
    omega

theorem reckonedBlocks_le (nb : ℕ) : reckonedBlocks nb ≤ maxIndexBlocks := by
  rw [reckonedBlocks]
  split_ifs
  · exact le_rfl
  · exact min_le_right _ _

theorem toNat_usedBuckets (nb : ℕ) (h : 0 < nb) :
    (UInt32.ofNat (usedBuckets (reckonedBlocks nb))).toNat = usedBuckets (reckonedBlocks nb) := by
  have h2 := two_le_reckonedBlocks h
  have hle := (@usedBuckets_le (reckonedBlocks nb) (by omega)).trans (reckonedBlocks_le nb)
  exact UInt32.toNat_ofNat_of_lt' (hle.trans_lt (by decide))

/-- **What `newindex` makes of fresh sections** that have any blocks. -/
theorem newIndex_fresh {is : ISect} (h : FreshSects name (is :: sects))
    (hnb : 0 < totalBlocks (is :: sects)) :
    newIndex name (is :: sects) =
      .ok (builtIndex name is (is :: sects) (reckonedBlocks (totalBlocks (is :: sects)))) := by
  have hcheck : checkNew name is.blocksize is.tabsize (is :: sects) = .ok () :=
    checkNew_fresh h.index_eq (fun s hs => h.blocksize_eq is mem_cons_self s hs)
      (fun s hs => h.tabsize_eq is mem_cons_self s hs)
  have hmod : totalBlocks (is :: sects) % 2 ^ 64 = totalBlocks (is :: sects) :=
    Nat.mod_eq_of_lt (totalBlocks_lt h.length_lt)
  have h2 := two_le_reckonedBlocks hnb
  have hu2 := two_le_usedBuckets h2
  have hunat := toNat_usedBuckets _ hnb
  have hlay := fun q u => @layOut_fresh name q u _ 0 h.start_eq h.stop_eq
  simp only [newIndex, hcheck, hmod, planBuckets_eq hnb, h.nodup, hlay, not_true, if_false]
  refine (initIndex1_eq (d := 2 ^ 32 ⌈/⌉ reckonedBlocks (totalBlocks (is :: sects))) ?_ ?_
    ?_).trans ?_
  · rw [hunat]
    exact hu2
  · exact ceilDiv_pos (by norm_num) (by omega)
  · rw [hunat]
    rfl
  · rw [hunat]
    rfl

/-- A layout whose ranges fit is a partition. -/
theorem builtIndex_partitions_iff {is : ISect} (h : FreshSects name (is :: sects)) (h2 : 2 ≤ nb)
    (hle : nb ≤ maxIndexBlocks) :
    (builtIndex name is (is :: sects) nb).Partitions ↔
      Shares ((nb - usedBuckets nb) / (is :: sects).length) (usedBuckets nb) 0
        ((is :: sects).map fun is => is.blocks.toNat) := by
  have hmax : maxIndexBlocks = 43383508 := rfl
  have hule := @usedBuckets_le nb (by omega)
  have hu2 := two_le_usedBuckets h2
  have hhalf := ceilDiv_le_half hu2
  have hpos : 0 < 2 ^ 32 ⌈/⌉ usedBuckets nb := ceilDiv_pos (by norm_num) (by omega)
  have hlen := h.length_lt
  have hunat : (UInt32.ofNat (usedBuckets nb)).toNat = usedBuckets nb :=
    UInt32.toNat_ofNat_of_lt' (show _ < 2 ^ 32 by omega)
  have hshare : (UInt32.ofNat (nb - usedBuckets nb) / UInt32.ofNat (is :: sects).length).toNat =
      (nb - usedBuckets nb) / (is :: sects).length := by
    rw [UInt32.toNat_div, UInt32.toNat_ofNat_of_lt' (show _ < 2 ^ 32 by omega),
      UInt32.toNat_ofNat_of_lt' (show _ < 2 ^ 32 by omega)]
  have hfits := @fits_place_iff name (UInt32.ofNat (nb - usedBuckets nb) /
    UInt32.ofNat (is :: sects).length) (UInt32.ofNat (usedBuckets nb)) _ 0 h.ne_nil
  rw [hunat, hshare, UInt32.toNat_zero] at hfits
  rw [← hfits]
  set built := place name (UInt32.ofNat (nb - usedBuckets nb) / UInt32.ofNat (is :: sects).length)
    (UInt32.ofNat (usedBuckets nb)) 0 (is :: sects) with hbuilt
  have hbuiltlen : built.length = (is :: sects).length := length_place _ _
  have hne : sectRanges built ≠ [] := by
    rw [← length_pos_iff, sectRanges, length_map, hbuiltlen]
    exact Nat.succ_pos _
  have hrlen : (sectRanges built).length = built.length := length_map _
  constructor
  · intro hp
    have hcont : Contiguous (rangeStart (sectRanges built)) (rangeStop (sectRanges built))
        built.length (UInt32.ofNat (usedBuckets nb)).toNat := hp.contiguous
    rw [hunat, ← hrlen] at hcont
    exact ⟨(chainFrom_zero_iff hne).mpr hcont, hp.fits⟩
  · rintro ⟨hchain, hfit⟩
    refine ⟨?_, hfit, fun k hk => ?_, ?_⟩
    · show Contiguous (rangeStart (sectRanges built)) (rangeStop (sectRanges built))
        built.length (UInt32.ofNat (usedBuckets nb)).toNat
      rw [hunat, ← hrlen]
      exact (chainFrom_zero_iff hne).mp hchain
    · show k / (UInt32.ofNat (2 ^ 32 ⌈/⌉ usedBuckets nb)).toNat <
        (UInt32.ofNat (usedBuckets nb)).toNat
      rw [hunat, UInt32.toNat_ofNat_of_lt' (hhalf.trans_lt (by norm_num))]
      have hb := IsBucketing.of_buckets (M := 2 ^ 32) (by norm_num)
        (ceilDiv_pos (M := 2 ^ 32) (d := nb) (by norm_num) (by omega))
      exact hb.div_lt hk
    · have hcheck : checkSects (nameCp name) is.blocksize is.tabsize 0 built (mapOf built) =
          .ok (UInt32.ofNat (usedBuckets nb)) := by
        refine checkSects_place 0 h.ne_nil
          (fun s hs => h.blocksize_eq s hs is mem_cons_self)
          (fun s hs => h.tabsize_eq s hs is mem_cons_self) ?_
        rw [hunat, UInt32.toNat_zero]
        exact hchain
      obtain ⟨t, rest, hcons, ht⟩ : ∃ t rest, built = t :: rest ∧ t.tabsize = is.tabsize :=
        ⟨_, _, rfl, rfl⟩
      have hmaplen : (mapOf built).length = built.length := length_map _
      show initIndex (nameCp name) is.blocksize (mapOf built) built = .ok _
      rw [hcons] at hcheck hmaplen ⊢
      simp only [initIndex, hmaplen, ne_eq, not_true, if_false, ht, hcheck]
      refine (initIndex1_eq (d := 2 ^ 32 ⌈/⌉ nb) ?_ ?_ ?_).trans ?_
      · rw [hunat]
        exact hu2
      · exact ceilDiv_pos (by norm_num) (by omega)
      · rw [hunat]
        rfl
      · rw [hunat, ← hcons]
        rfl

/-- **The sections are big enough for the layout.** With `T` blocks in all, `N` of
them reckoned with and `U` buckets in use, every section but the last has the equal
share of the `N - U` unused blocks to give up, and what the others leave of the `U`
buckets is not negative and fits the last section. -/
def SharesFit (sects : List ISect) : Prop :=
  let bs := sects.map fun is => is.blocks.toNat
  let U := usedBuckets (min bs.sum maxIndexBlocks)
  let q := (min bs.sum maxIndexBlocks - U) / sects.length
  2 ≤ bs.sum ∧ (∀ b ∈ bs.dropLast, q ≤ b) ∧ (bs.dropLast.map (· - q)).sum ≤ U ∧
    U ≤ (bs.dropLast.map (· - q)).sum + bs.getLastD 0

instance (sects : List ISect) : Decidable (SharesFit sects) :=
  inferInstanceAs (Decidable (_ ∧ _ ∧ _ ∧ _))

/-- A single block cannot hold the buckets that are dealt out for it. -/
theorem not_shares_of_sum_le_one {q top : ℕ} {bs : List ℕ} (hsum : bs.sum ≤ 1) (htop : 2 ≤ top) :
    ∀ acc, acc + bs.sum ≤ 1 → ¬Shares q top acc bs := by
  induction bs with
  | nil => exact fun _ _ h => h
  | cons b bs ih =>
    intro acc hacc h
    rw [sum_cons] at hsum hacc
    cases bs with
    | nil =>
      have := h.2
      simp only [sum_nil] at hacc
      omega
    | cons b' bs => exact ih (by omega) _ (by omega) h.2

/-- **`newindex` partitions the bucket space exactly when the sections are big
enough for their shares**: for fresh sections it then makes an index whose sections
divide the buckets and that `initindex` accepts. Without any blocks it divides by
zero; otherwise it makes an index that is no partition. -/
theorem newIndex_partitions_iff {sects : List ISect} (h : FreshSects name sects) :
    (∃ ix, newIndex name sects = .ok ix ∧ ix.Partitions) ↔ SharesFit sects := by
  obtain ⟨is, rest, rfl⟩ := List.exists_cons_of_ne_nil h.ne_nil
  have hmax : maxIndexBlocks = 43383508 := rfl
  have htotal : totalBlocks (is :: rest) = ((is :: rest).map fun is => is.blocks.toNat).sum := rfl
  have hshares := fun q U =>
    @shares_iff q U 0 ((is :: rest).map fun is => is.blocks.toNat) (by simp)
  simp only [Nat.zero_add] at hshares
  rcases Nat.lt_or_ge 0 (totalBlocks (is :: rest)) with hnb | hnb
  · have h2 := two_le_reckonedBlocks hnb
    rw [newIndex_fresh h hnb]
    have hpart := builtIndex_partitions_iff h h2 (reckonedBlocks_le _)
    simp only [Except.ok.injEq, exists_eq_left', hpart]
    by_cases h1 : totalBlocks (is :: rest) = 1
    · refine iff_of_false (not_shares_of_sum_le_one (by omega) (two_le_usedBuckets h2) 0 (by omega))
        fun hc => ?_
      have := hc.1
      omega
    · have hr : reckonedBlocks (totalBlocks (is :: rest)) =
          min (totalBlocks (is :: rest)) maxIndexBlocks := by rw [reckonedBlocks, if_neg h1]
      rw [hr, hshares]
      exact (and_iff_right (show 2 ≤ _ by omega)).symm
  · refine iff_of_false ?_ fun hc => ?_
    · rintro ⟨ix, hix, -⟩
      have hcheck : checkNew name is.blocksize is.tabsize (is :: rest) = .ok () :=
        checkNew_fresh h.index_eq (fun s hs => h.blocksize_eq is List.mem_cons_self s hs)
          (fun s hs => h.tabsize_eq is List.mem_cons_self s hs)
      have hz : totalBlocks (is :: rest) % 2 ^ 64 = 0 := by rw [Nat.le_zero.mp hnb, Nat.zero_mod]
      have hplan : planBuckets 0 = .error .divideByZero := rfl
      simp only [newIndex, hcheck, hz, hplan, h.nodup, not_true, if_false] at hix
      exact absurd hix (by simp [bind, Except.bind])
    · have := hc.1
      omega


/-! ### A layout that is no partition -/

/-- A freshly formatted section of 8k blocks. -/
def freshSect (name : AName) (blocks : UInt32) : ISect :=
  { name := name, index := ⟨[], by decide⟩, blocksize := 8192, tabsize := 524288,
    blockbase := 794624, blocklog := 13, blocks := blocks, start := 0, stop := 0 }

/-- Three sections of the same number of blocks. -/
def threeSects (blocks : UInt32) : List ISect :=
  [freshSect ⟨[97], by decide⟩ blocks, freshSect ⟨[98], by decide⟩ blocks,
    freshSect ⟨[99], by decide⟩ blocks]

theorem freshSects_threeSects (blocks : UInt32) : FreshSects [109] (threeSects blocks) where
  ne_nil := by simp [threeSects]
  length_lt := by simp [threeSects]
  start_eq := by simp [threeSects, freshSect]
  stop_eq := by simp [threeSects, freshSect]
  index_eq := by simp [threeSects, freshSect]
  blocksize_eq := by simp [threeSects, freshSect]
  tabsize_eq := by simp [threeSects, freshSect]
  nodup := by simp [threeSects, freshSect]

/-- Three sections of a thousand blocks share the buckets evenly. -/
theorem newIndex_threeSects_partitions :
    ∃ ix, newIndex [109] (threeSects 1000) = .ok ix ∧ ix.Partitions :=
  (newIndex_partitions_iff (freshSects_threeSects 1000)).mpr (by decide)

/-- **Three sections of thirty million blocks overflow the layout**: only 42949673
buckets are put in use, the first two sections already take more, and the third is
left with a range that ends before it starts. The index that `newindex` returns is
refused by `initindex`. -/
theorem newIndex_threeSects_overflow :
    FreshSects [109] (threeSects 30000000) ∧
      ∃ ix, newIndex [109] (threeSects 30000000) = .ok ix ∧ ¬ix.Partitions ∧
        initIndex ix.name ix.blocksize ix.smap ix.sects = .error .inconsistentSections := by
  refine ⟨freshSects_threeSects _, _, rfl, fun h => ?_, rfl⟩
  exact absurd h.accepted (by decide)

end Venti

end Plan9
