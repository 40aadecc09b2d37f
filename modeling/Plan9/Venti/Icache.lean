import Plan9.Lib.BinarySearch
import Plan9.Lib.Buffer
import Plan9.LibVenti.Dtype
import Plan9.Venti.Conv
import Plan9.Venti.Dcache
import Plan9.Venti.Placement

/-!
# Writing dirty index entries

New index entries gather in memory, on the dirty list of the index cache. `icachewritesect`
writes those of one section: it sorts them by score, which is also the order of their buckets on
disk, reads stretches of the section that fit into its buffer, puts the entries into their
buckets there, writes the stretch back and moves the entries to the clean list. An entry whose
bucket is full or corrupt is taken off the stretch and stays dirty.

The buffer, the section and the buckets are bytes; the dirty entries are named by their numbers
in `icache.entries`, and a list linked through `nextdirty` is the list of the numbers on it.

What becomes of the buckets is in `Plan9.Venti.IndexBucket` and `Plan9.Venti.IcacheWrite`.
-/

namespace Plan9

namespace Venti

open Lib LibVenti

namespace Icache

/-! ### Entries and buckets on disk -/

/-- `struct IAddr`. -/
structure IAddr where
  addr : UInt64
  /-- Uncompressed size. -/
  size : UInt16
  type : UInt8
  blocks : UInt8
deriving DecidableEq

/-- The states of an entry of the cache. -/
inductive IEState
  | clean
  | dirty
deriving DecidableEq

/-- `struct IEntry`, without the links of the lists it is on. -/
structure IEntry where
  score : Score
  ia : IAddr
  state : IEState
deriving DecidableEq

/-- `IBucketSize`. -/
def iBucketSize : ℕ := 4 + 2

/-- `IEntrySize`. -/
def iEntrySize : ℕ := 8 + 4 + 2 * 2 + 2 * 1 + vtScoreSize

/-- `IEntryTypeOff`. -/
def iEntryTypeOff : ℕ := vtScoreSize + 4 + 2 + 8 + 2

/-- `IEntryAddrOff`. -/
def iEntryAddrOff : ℕ := vtScoreSize + 4 + 2

/-- `MaxDiskBlock`. -/
def maxDiskBlock : ℕ := 64 * 1024

/-- `packientry`: the score, two fields that are zero, the address, the size, the type as it is on
disk and the blocks. -/
def packIEntry (ie : IEntry) : List UInt8 :=
  ie.score.toList ++ (beBytes 4 0 ++ (beBytes 2 0 ++ (put64 ie.ia.addr ++
    (beBytes 2 ie.ia.size.toNat ++ [UInt8.ofNat (vtToDiskType ie.ia.type.toNat), ie.ia.blocks]))))

/-- `unpackientry`, the address part. -/
def unpackIAddr (e : List UInt8) : IAddr where
  addr := UInt64.ofNat (beVal ((e.drop iEntryAddrOff).take 8))
  size := UInt16.ofNat (beVal ((e.drop (iEntryAddrOff + 8)).take 2))
  type := UInt8.ofNat (vtFromDiskType (e.getD iEntryTypeOff 0).toNat)
  blocks := e.getD (iEntryTypeOff + 1) 0

/-- `ientrycmp`. -/
def ientryCmp (ie₁ ie₂ : List UInt8) : Ordering :=
  match memCmp (ie₁.take vtScoreSize) (ie₂.take vtScoreSize) with
  | .eq =>
    let v₁ := (ie₁.getD iEntryTypeOff 0).toNat
    let v₂ := (ie₂.getD iEntryTypeOff 0).toNat
    if v₁ ≠ v₂ then if v₁ < v₂ then .lt else .gt else .eq
  | o => o

/-- How `bucklook` compares the entry at byte `h` of a bucket with what it looks for. -/
def buckCmp (score : Score) (type : ℤ) (data : Buffer) (h : ℕ) : Ordering :=
  match memCmp (data.load h vtScoreSize) score.toList with
  | .eq =>
    let cc : ℤ := (data (h + iEntryTypeOff)).toNat
    if type ≠ cc ∧ type ≠ -1 then if type > cc then .lt else .gt else .eq
  | o => o

/-- `bucklook`: `1 |` the byte index of the matching entry, or the byte index of the least entry
that is greater. The type `-1` matches every type. -/
def buckLook (score : Score) (otype : ℤ) (data : Buffer) (n : ℕ) : ℕ :=
  let type : ℤ := if otype = -1 then -1 else vtToDiskType (otype % 2 ^ 32).toNat
  match searchIn (fun m => buckCmp score type data (m * iEntrySize)) 0 (n - 1) with
  | .at m => m * iEntrySize ||| 1
  | .absent l => l * iEntrySize

/-- `struct IBucket`: the number of its entries, and where they start in the buffer. -/
structure IBucket where
  n : ℕ
  data : ℕ
deriving DecidableEq

/-- `unpackibucket`. A bucket without the magic number of the section was never written. -/
def unpackIBucket (buf : Buffer) (off : ℕ) (magic : UInt32) : IBucket where
  n := if magic ≠ 0 ∧ magic.toNat ≠ beVal (buf.load (off + 2) 4) then 0 else buf.get16 off
  data := off + iBucketSize

/-- `packibucket`. -/
def packIBucket (n : ℕ) (buf : Buffer) (off : ℕ) (magic : UInt32) : Buffer :=
  (buf.put16 off n).store (off + 2) (put32 magic)

/-- An index section that `initisect1` has accepted, and whose block size `fmtisect` has: one that
has room for the header of a bucket and is at most `MaxDiskBlock`. -/
structure Sect extends ISect where
  bucketmagic : UInt32
  ok : okSect toISect = true
  header_le : iBucketSize ≤ blocksize.toNat
  blocksize_le : blocksize.toNat ≤ maxDiskBlock

/-- `is->buckmax`, as `initisect1` computes it. -/
def Sect.buckMax (is : Sect) : ℕ := (is.blocksize.toNat - iBucketSize) / iEntrySize

/-- `1<<is->blocklog`. -/
def Sect.bsize (is : Sect) : ℕ := 2 ^ is.blocklog

/-- Put an entry into the bucket at an offset of the buffer: the part of the loop of
`icachewritesect` from `unpackibucket` to `packibucket`. If the bucket is corrupt or full, the
entry is skipped. -/
def insertEntry (is : Sect) (ie : IEntry) (off : ℕ) (buf : Buffer) : Option Buffer :=
  let ib := unpackIBucket buf off is.bucketmagic
  -- okibucket
  if ib.n ≤ is.buckMax then
    let h := buckLook ie.score ie.ia.type.toNat (fun i => buf (ib.data + i)) ib.n
    if h &&& 1 ≠ 0 then
      some (packIBucket ib.n (buf.store (ib.data + (h ^^^ 1)) (packIEntry ie)) off is.bucketmagic)
    else if ib.n < is.buckMax then
      some (packIBucket (ib.n + 1)
        ((buf.move (ib.data + h + iEntrySize) (ib.data + h) (ib.n * iEntrySize - h)).store
          (ib.data + h) (packIEntry ie)) off is.bucketmagic)
    else none
  else none

/-! ### The cache -/

/-- `icache`, as far as the dirty entries are concerned: the entries, the clean list and the
dirty list with the newest entry first, and `icache.ndirty`. -/
structure ICache where
  entries : ℕ → IEntry
  clean : List ℕ
  dirty : List ℕ
  ndirty : UInt32

/-- `icachedirty`: the dirty entries whose hash is in a range and whose address is at most
`limit`, the oldest first. -/
def icacheDirty (ic : ICache) (lo hi : UInt32) (limit : UInt64) : List ℕ :=
  ic.dirty.foldl (fun dirty p =>
    let ie := ic.entries p
    if ie.state = .dirty ∧ ie.ia.addr ≤ limit ∧ lo ≤ hashBits ie.score 32 ∧
        hashBits ie.score 32 ≤ hi then p :: dirty else dirty) []

/-- `icacheclean`. An entry that is not dirty fails the assertion. -/
def icacheClean (ic : ICache) : List ℕ → Option ICache
  | [] => some ic
  | p :: ps =>
    if (ic.entries p).state = .dirty then
      icacheClean
        { entries := Function.update ic.entries p { ic.entries p with state := .clean }
          clean := p :: ic.clean
          dirty := ic.dirty.erase p
          ndirty := ic.ndirty - 1 } ps
    else none

/-! ### Sorting -/

section Merge

variable {α : Type*}

/-- How `iesort` splits a list: `ie1` goes one step and `ie2` goes two, and the list is cut behind
`ie1` when `ie2` is at the end. -/
def splitList : List α → List α → List α × List α
  | x :: ie1, _ :: ie2 => (x :: (splitList ie1 ie2.tail).1, (splitList ie1 ie2.tail).2)
  | x :: ie1, [] => ([x], ie1)
  | [], _ => ([], [])

theorem splitList_eq (xs ys : List α) (h : (ys.length + 1) / 2 < xs.length) :
    splitList xs ys = (xs.take ((ys.length + 1) / 2 + 1), xs.drop ((ys.length + 1) / 2 + 1)) := by
  induction xs generalizing ys with
  | nil => exact absurd h (Nat.not_lt_zero _)
  | cons x xs ih =>
    cases ys with
    | nil =>
      rw [splitList]
      simp
    | cons y ys =>
      have hhalf : ((y :: ys).length + 1) / 2 = (ys.tail.length + 1) / 2 + 1 := by
        rw [List.length_tail, List.length_cons]
        omega
      rw [hhalf, List.length_cons] at h
      rw [hhalf, splitList, ih _ (by omega)]
      rfl

/-- The first half has the middle one. -/
theorem splitList_tail_tail (x y : α) (l : List α) :
    splitList (x :: y :: l) l = ((x :: y :: l).take ((l.length + 3) / 2),
      (x :: y :: l).drop ((l.length + 3) / 2)) := by
  rw [splitList_eq _ _ (by simp only [List.length_cons]; omega)]
  have hhalf : (l.length + 1) / 2 + 1 = (l.length + 3) / 2 := by omega
  rw [hhalf]

/-- `iesort`, by an order that tells when `cmp > 0` is false. -/
def iesort (le : α → α → Bool) : List α → List α
  | [] => []
  | [x] => [x]
  | x :: y :: l =>
    let s := splitList (x :: y :: l) l
    (iesort le s.1).merge (iesort le s.2) le
termination_by l => l.length
decreasing_by
  all_goals
    rw [splitList_tail_tail]
    simp only [List.length_take, List.length_drop, List.length_cons]
    omega

end Merge

/-- `scorecmp(ie1->score, ie2->score) <= 0`. -/
def scoreLe (ic : ICache) (p q : ℕ) : Bool :=
  memCmp (ic.entries p).score.toList (ic.entries q).score.toList ≠ .gt

/-! ### Writing a section -/

/-- `Bufsize`. -/
def bufSize : ℕ := 8 * 1024 * 1024

section Write

variable (ix : Index) (is : Sect) (ic : ICache)

/-- `ie2diskaddr` of an entry. -/
def diskAddr (p : ℕ) : UInt64 := ie2DiskAddr ix is.toISect (ic.entries p).score

/-- The loop of `nextchunk` behind the first entry: the entries of the chunk, the rest of the
list, and `nbuf`. -/
def nextChunkFrom (addr : UInt64) : List ℕ → ℕ → List ℕ × List ℕ × ℕ
  | [], nbuf => ([], [], nbuf)
  | p :: ps, nbuf =>
    let naddr := diskAddr ix is ic p
    if (naddr - addr).toNat ≥ bufSize then ([], p :: ps, nbuf)
    else
      let r := nextChunkFrom addr ps ((naddr - addr).toNat % 2 ^ 32)
      (p :: r.1, r.2)

/-- The loop of `icachewritesect` over a chunk: the buffer, the entries that stay on the chunk,
and whether all do. An entry beyond the buffer fails the assertion. -/
def updateBuf (addr : UInt64) (nbuf : ℕ) : List ℕ → Buffer → Option (Buffer × List ℕ × Bool)
  | [], buf => some (buf, [], true)
  | p :: ps, buf =>
    let off := (diskAddr ix is ic p - addr).toNat % 2 ^ 32
    if (off + is.bsize) % 2 ^ 32 > nbuf then none
    else
      match insertEntry is (ic.entries p) off buf with
      | none => (updateBuf addr nbuf ps buf).map fun r => (r.1, r.2.1, false)
      | some buf => (updateBuf addr nbuf ps buf).map fun r => (r.1, p :: r.2.1, r.2.2)

end Write

/-- How the partition behaves: where `readpart` succeeds, and what a `writepart` that fails leaves
on the disk. -/
structure SectIo where
  readOk : UInt64 → Bool
  torn : UInt64 → Option (List UInt8)

/-- Nothing fails. -/
def SectIo.good : SectIo := ⟨fun _ => true, fun _ => none⟩

/-- What `icachewritesect` works on: the cache, the section with the blocks of it that are in the
disk cache, its buffer, and whether it has met an error. -/
structure WriteState where
  ic : ICache
  dc : Dcache
  buf : Buffer
  err : Bool

/-- The loop at the end of a chunk: blocks that are in the disk cache get their new contents. -/
def refreshBlocks (dc : Dcache) (bsize addr nbuf : ℕ) (buf : Buffer) : Dcache where
  blocksize := dc.blocksize
  disk := dc.disk
  blocks a := (dc.blocks a).map fun b =>
    if addr ≤ a ∧ a < addr + nbuf ∧ (a - addr) % bsize = 0 then
      { b with data := fun i => if i < bsize then buf (a - addr + i) else b.data i }
    else b

/-- One chunk. -/
def writeChunk (ix : Index) (is : Sect) (io : SectIo) (chunk : List ℕ) (addr : UInt64) (nbuf : ℕ)
    (s : WriteState) : Option WriteState :=
  if io.readOk addr then
    let buf := s.buf.store 0 (Buffer.load s.dc.disk addr.toNat nbuf)
    match updateBuf ix is s.ic addr nbuf chunk buf with
    | none => none
    | some (buf, kept, ok) =>
      let bytes := (io.torn addr).getD (buf.load 0 nbuf)
      let disk := Buffer.store s.dc.disk addr.toNat (bytes.take nbuf)
      let dc := refreshBlocks { s.dc with disk := disk } is.bsize addr.toNat nbuf buf
      let s := { s with dc := dc, buf := buf, err := s.err || !ok }
      if (io.torn addr).isSome then some { s with err := true }
      else (icacheClean s.ic kept).map fun ic => { s with ic := ic }
  else some { s with err := true }

theorem length_nextChunkFrom_le (ix : Index) (is : Sect) (ic : ICache) (addr : UInt64)
    (ps : List ℕ) (nbuf : ℕ) :
    (nextChunkFrom ix is ic addr ps nbuf).2.1.length ≤ ps.length := by
  induction ps generalizing nbuf with
  | nil => exact le_rfl
  | cons p ps ih =>
    rw [nextChunkFrom]
    dsimp only
    split
    next => exact le_rfl
    next => exact (ih _).trans (Nat.le_succ _)

/-- The chunks, one after the other. -/
def writeChunks (ix : Index) (is : Sect) (io : SectIo) : List ℕ → WriteState → Option WriteState
  | [], s => some s
  | p :: ps, s =>
    let addr := diskAddr ix is s.ic p
    let r := nextChunkFrom ix is s.ic addr ps 0
    match writeChunk ix is io (p :: r.1) addr ((r.2.2 + is.bsize) % 2 ^ 32) s with
    | none => none
    | some s => writeChunks ix is io r.2.1 s
termination_by ps => ps.length
decreasing_by exact Nat.lt_succ_of_le (length_nextChunkFrom_le _ _ _ _ _ _)

/-- `icachewritesect`. -/
def icacheWriteSect (ix : Index) (is : Sect) (limit : UInt64) (io : SectIo) (ic : ICache)
    (dc : Dcache) (buf : Buffer) : Option WriteState :=
  writeChunks ix is io (iesort (scoreLe ic)
    (icacheDirty ic (sectLo ix is.toISect) (sectHi ix is.toISect) limit)) ⟨ic, dc, buf, false⟩

end Icache

end Venti

end Plan9
