import Plan9.Lib.ChainTable
import Plan9.Lib.IndexedHeap
import Plan9.Lib.Run
import Plan9.Venti.Dcache

/-!
# The blocks of the disk cache

`dcache.c` again, for who owns a block. A block is on the free list or in a hash chain;
one that is in a chain, but not used, is in the heap too, where `bumpdblock` finds the
next one to be reused. What runs under `dcache.lock` is one step here; the locks of the
blocks are taken and given back in steps of their own. Any number of processes may be
inside `getdblock` and `putdblock`, besides `flushproc` and the `writeproc` of every
partition.

`flushproc` puts the blocks that were written into the heap, long after `writeproc`
has cleaned them. Between the two, `putdblock` may have put one there already, and
`emptydcache` may have moved it to the free list: then it is in both.

* `Plan9.Venti.BlockCache.dcache_sound` – in every run without that, every block has
  one owner;
* `Plan9.Venti.BlockCache.free_block_in_heap` – a run that ends with a block in both.
-/

namespace Plan9

namespace Venti

open Lib

namespace BlockCache

/-! ### Blocks -/

/-- `RWLock`. -/
structure RWLock where
  readers : ℕ
  writer : Bool
deriving DecidableEq

/-- `struct DBlock`, without its data; `filled` says that `size` is the block size of the
partition. The index `heap` is part of the heap. -/
structure Block where
  part : Option ℕ
  addr : UInt64
  filled : Bool
  dirty : ℕ
  next : Option ℕ
  prev : Option ℕ
  used : UInt32
  used2 : UInt32
  ref : ℕ
  lock : RWLock

/-- Where a process is that uses the cache. -/
inductive Client
  | idle
  /-- In front of `dcache.lock` in `_getdblock`. -/
  | entering (part : ℕ) (addr : UInt64) (mode : IOMode) (load : Bool)
  /-- In `rsleep(&dcache.full)`. -/
  | stalled (part : ℕ) (addr : UInt64) (mode : IOMode)
  /-- In front of the first lock of the block. -/
  | locking (b : ℕ) (mode : IOMode)
  /-- Between the locks of a block that is to be read. -/
  | upgrading (b : ℕ)
  /-- With the block locked for writing, to fill it. -/
  | filling (b : ℕ) (mode : IOMode)
  /-- In front of the last lock of a block that was read. -/
  | relocking (b : ℕ)
  /-- Behind `_getdblock`. -/
  | holding (b : ℕ) (mode : IOMode)
  /-- In front of `dcache.lock` in `putdblock`. -/
  | putting (b : ℕ)

/-- The block a process refers to. -/
def Client.block : Client → Option ℕ
  | locking b _ | upgrading b | filling b _ | relocking b | holding b _ | putting b => some b
  | idle | entering .. | stalled .. => none

/-- Where `flushproc` is. -/
inductive Flush
  | waiting
  /-- In front of block `i`, with the dirty blocks found so far. -/
  | scanning (i : ℕ) (write : List ℕ)
  /-- The blocks of `left` are not written yet. -/
  | writing (write left : List ℕ)

/-- The blocks that the last section of `flushproc` will look at. -/
def Flush.batch : Flush → List ℕ
  | waiting => []
  | scanning _ write => write
  | writing write _ => write

/-- `struct DCache`, with the processes. `writer` has the block that the `writeproc` of a
partition is writing. -/
structure DCache where
  nblocks : ℕ
  blocks : ℕ → Block
  free : Option ℕ
  heads : ℕ → Option ℕ
  heap : IndexedHeap ℕ
  now : UInt32
  client : ℕ → Client
  flush : Flush
  writer : ℕ → Option ℕ
  /-- `sysfatal`, or an assertion that failed. -/
  fatal : Bool

/-- `initdcache`. -/
def start (nblocks : ℕ) : DCache where
  nblocks := nblocks
  blocks i := {
    part := none
    addr := 0
    filled := false
    dirty := 0
    next := if i = 0 then none else some (i - 1)
    prev := none
    used := 0
    used2 := 0
    ref := 0
    lock := ⟨0, false⟩ }
  free := if nblocks = 0 then none else some (nblocks - 1)
  heads _ := none
  heap := ⟨fun _ => 0, fun _ => none, 0⟩
  now := 0
  client _ := .idle
  flush := .waiting
  writer _ := none
  fatal := false

/-- `pbhash`. -/
def pbhash (addr : UInt64) : ℕ :=
  ((((addr >>> 32) ^^^ addr).toUInt32 * 0x6b43a9b5) >>> 23 &&& 511).toNat

namespace DCache

variable (s : DCache)

/-- `b->used2 - dcache.now`, in 32 bits. -/
def key (b : ℕ) : ℕ := ((s.blocks b).used2 - s.now).toNat

/-- The links of the blocks. -/
def next (b : ℕ) : Option ℕ := (s.blocks b).next

def prev (b : ℕ) : Option ℕ := (s.blocks b).prev

/-- The blocks on the free list. -/
def freeList : List ℕ := walk s.next s.nblocks s.free

/-- The blocks in the chain `heads[h]`. -/
def chain (h : ℕ) : List ℕ := walk s.next s.nblocks (s.heads h)

/-- Change one block. -/
def set (b : ℕ) (f : Block → Block) : DCache :=
  { s with blocks := Function.update s.blocks b (f (s.blocks b)) }

/-- `delheap`; `fixheap`, `upheap` and `downheap` are `IndexedHeap.fix`, `IndexedHeap.siftUp` and
`IndexedHeap.siftDown`. -/
def delheap (db : ℕ) : DCache := { s with heap := s.heap.erase s.key db }

/-- `upheap(dcache.nheap++, b)`. -/
def addheap (b : ℕ) : DCache := { s with heap := s.heap.insert s.key b }

/-- `rwakeupall(&dcache.full)`. -/
def wakeAll : DCache :=
  { s with
    client := fun c =>
      match s.client c with
      | .stalled part addr mode => .entering part addr mode true
      | x => x }

/-- `unchain`. -/
def unchain (b : ℕ) : DCache :=
  let blk := s.blocks b
  let h := pbhash blk.addr
  if blk.prev = none ∧ s.heads h ≠ some b then { s with fatal := true }
  else
    { s with
      heads := if blk.prev = none then Function.update s.heads h blk.next else s.heads
      blocks := fun y => {
        s.blocks y with
        next := if blk.prev = some y then blk.next else (s.blocks y).next
        prev := if blk.next = some y then blk.prev else (s.blocks y).prev } }

/-- The loop of `bumpdblock`. The first argument bounds the rounds. -/
def bumpLoop : ℕ → DCache → Option ℕ × DCache
  | 0, s => (none, s)
  | k + 1, s =>
    if s.heap.size = 0 then (none, s)
    else
      let b := s.heap.arr 0
      let s := s.delheap b
      if (s.blocks b).ref = 0 ∧ (s.blocks b).dirty = 0 then (some b, s.unchain b)
      else bumpLoop k s

/-- `bumpdblock`. That `flushproc` is kicked is left out: it may begin at any time. -/
def bumpdblock : Option ℕ × DCache :=
  match s.free with
  | some b => (some b, { s with free := (s.blocks b).next })
  | none => bumpLoop s.heap.size s

/-- The loop of `emptydcache`. -/
def emptyLoop : ℕ → DCache → DCache
  | 0, s => s
  | k + 1, s =>
    if s.heap.size = 0 ∨ s.fatal = true then s
    else
      let b := s.heap.arr 0
      let s := s.delheap b
      if (s.blocks b).ref = 0 ∧ (s.blocks b).dirty = 0 then
        let s := s.unchain b
        emptyLoop k { s.set b fun x => { x with next := s.free } with free := some b }
      else emptyLoop k s

/-- The search of `_getdblock`. -/
def lookup (part : ℕ) (addr : UInt64) : Option ℕ :=
  (s.chain (pbhash addr)).find? fun b => (s.blocks b).part = some part && (s.blocks b).addr = addr

/-- A block that was bumped gets its new address, and goes to the front of its chain. -/
def rechain (b part : ℕ) (addr : UInt64) : DCache :=
  let h := pbhash addr
  { s with
    heads := Function.update s.heads h (some b)
    blocks := fun y =>
      if y = b then
        { s.blocks b with
          used := ((s.blocks b).used2 + s.now) / 2
          next := s.heads h
          prev := none
          addr := addr
          part := some part
          filled := false }
      else if s.heads h = some y then { s.blocks y with prev := some b }
      else s.blocks y }

/-- A process refers to a block that it found, and the clock ticks. -/
def refer (c b : ℕ) (mode : IOMode) : DCache :=
  { s.set b fun x => { x with ref := x.ref + 1, used2 := x.used, used := s.now } with
    now := s.now + 1
    client := Function.update s.client c (.locking b mode) }

/-- The block is put where it belongs, if it is in the heap. -/
def refix (b : ℕ) : DCache :=
  match s.heap.pos b with
  | none => s
  | some i => { s with heap := s.heap.fix s.key b i }

/-- `_getdblock` from `found` on, up to the end of its section. -/
def found (c b : ℕ) (mode : IOMode) : DCache := (s.refer c b mode).refix b

/-- The section of `_getdblock`. -/
def getSection (c part : ℕ) (addr : UInt64) (mode : IOMode) (load : Bool) : DCache :=
  match s.lookup part addr with
  | some b => s.found c b mode
  | none =>
    if load = false then { s with client := Function.update s.client c .idle }
    else
      match s.bumpdblock with
      | (none, s) => { s with client := Function.update s.client c (.stalled part addr mode) }
      | (some b, s) =>
        if s.fatal = true ∨ (s.blocks b).dirty ≠ 0 then { s with fatal := true }
        else (s.rechain b part addr).found c b mode

/-- The section of `putdblock`. -/
def putSection (c b : ℕ) : DCache :=
  let s := {
    s.set b fun x => { x with ref := x.ref - 1 } with
    client := Function.update s.client c .idle }
  if (s.blocks b).ref = 0 ∧ (s.blocks b).dirty = 0 then
    (if s.heap.pos b = none then s.addheap b else s).wakeAll
  else s

/-- One block of the last section of `flushproc`. -/
def undirty (s : DCache) (b : ℕ) : DCache :=
  if (s.blocks b).ref = 0 ∧ s.heap.pos b = none then (s.addheap b).wakeAll else s

end DCache

/-! ### Steps -/

/-- What happens to the cache. -/
inductive Act
  /-- A process calls `_getdblock`. -/
  | get (c part : ℕ) (addr : UInt64) (mode : IOMode) (load : Bool)
  /-- Its section under `dcache.lock`. -/
  | enter (c : ℕ)
  /-- It takes the lock of the block. -/
  | lock (c : ℕ)
  /-- It takes the lock for writing, to fill a block that it wants to read. -/
  | upgrade (c : ℕ)
  /-- The block is filled, if reading it succeeds. -/
  | fill (c : ℕ) (ok : Bool)
  /-- It takes the lock for reading again. -/
  | relock (c : ℕ)
  /-- `dirtydblock`. -/
  | dirty (c tag : ℕ)
  /-- `putdblock` up to its section. -/
  | unlock (c : ℕ)
  /-- The section of `putdblock`. -/
  | put (c : ℕ)
  /-- `emptydcache`. -/
  | empty
  /-- `flushproc` begins a round. -/
  | kick
  /-- It looks at one block. -/
  | scan
  /-- It has looked at all of them. -/
  | scanned
  /-- The `writeproc` of a partition takes the lock of a block. -/
  | write (part b : ℕ)
  /-- The block is written. -/
  | written (part : ℕ)
  /-- The last section of `flushproc`. -/
  | finish

namespace DCache

variable (s : DCache)

/-- A process goes on, and the lock of its block changes. -/
def relocked (c : ℕ) (x : Client) (b : ℕ) (lock : RWLock) : DCache :=
  { s.set b fun y => { y with lock := lock } with client := Function.update s.client c x }

/-- The first lock of a block. -/
def lockBlock (c b : ℕ) (mode : IOMode) : Option DCache :=
  let blk := s.blocks b
  if mode = .oread then
    if blk.lock.writer = true then none
    else if blk.filled = true then
      some (s.relocked c (.holding b mode) b { blk.lock with readers := blk.lock.readers + 1 })
    else some (s.relocked c (.upgrading b) b blk.lock)
  else if blk.lock = ⟨0, false⟩ then
    some (s.relocked c (if blk.filled = true then .holding b mode else .filling b mode) b ⟨0, true⟩)
  else none

/-- The lock for writing, to fill the block. -/
def upgradeBlock (c b : ℕ) : Option DCache :=
  if (s.blocks b).lock = ⟨0, false⟩ then some (s.relocked c (.filling b .oread) b ⟨0, true⟩)
  else none

/-- The block is filled, or `readpart` fails. -/
def fillBlock (c b : ℕ) (mode : IOMode) (ok : Bool) : DCache :=
  if mode ≠ .owrite ∧ (s.blocks b).filled = false ∧ ok = false then
    s.relocked c (.putting b) b ⟨0, false⟩
  else
    let s := s.set b fun y => { y with filled := true }
    if mode = .oread then s.relocked c (.relocking b) b ⟨0, false⟩
    else s.relocked c (.holding b mode) b ⟨0, true⟩

/-- The lock for reading. -/
def relockBlock (c b : ℕ) : Option DCache :=
  let lock := (s.blocks b).lock
  if lock.writer = true then none
  else some (s.relocked c (.holding b .oread) b { lock with readers := lock.readers + 1 })

/-- `dirtydblock`: its callers keep to the modes and to one tag, as it asserts. -/
def dirtyBlock (b : ℕ) (mode : IOMode) (tag : ℕ) : Option DCache :=
  if mode ≠ .oread ∧ tag ≠ 0 ∧ ((s.blocks b).dirty = 0 ∨ (s.blocks b).dirty = tag) then
    some (s.set b fun y => { y with dirty := tag })
  else none

/-- `putdblock` up to its section. -/
def unlockBlock (c b : ℕ) (mode : IOMode) : DCache :=
  let lock := (s.blocks b).lock
  s.relocked c (.putting b) b
    (if mode = .oread then { lock with readers := lock.readers - 1 }
    else { lock with writer := false })

/-- `flushproc` looks at a block, without its lock. -/
def scanBlock (i : ℕ) (write : List ℕ) : Option DCache :=
  if i < s.nblocks then
    some { s with
      flush := .scanning (i + 1) (if (s.blocks i).dirty ≠ 0 then write ++ [i] else write) }
  else none

/-- A `writeproc` takes the lock of a block that was sent to it. The blocks are sent by their
tags; among those with one tag any may be written first. -/
def writeBlock (part b : ℕ) (left : List ℕ) : Option DCache :=
  if b ∈ left ∧ (s.blocks b).part = some part ∧ s.writer part = none ∧
      (∀ b' ∈ left, (s.blocks b).dirty ≤ (s.blocks b').dirty) ∧
      (s.blocks b).lock = ⟨0, false⟩ then
    some { s.set b fun y => { y with lock := ⟨0, true⟩ } with
      writer := Function.update s.writer part (some b) }
  else none

/-- The block is written, and clean. -/
def writtenBlock (part b : ℕ) (write left : List ℕ) : DCache :=
  { s.set b fun y => { y with dirty := 0, lock := ⟨0, false⟩ } with
    writer := Function.update s.writer part none
    flush := .writing write (left.erase b) }

/-- The last section of `flushproc`. -/
def finishFlush (write : List ℕ) : DCache :=
  { write.foldl undirty s with flush := .waiting }

/-- One step. -/
def act : Act → Option DCache
  | .get c part addr mode load =>
    match s.client c with
    | .idle => some { s with client := Function.update s.client c (.entering part addr mode load) }
    | _ => none
  | .enter c =>
    match s.client c with
    | .entering part addr mode load => some (s.getSection c part addr mode load)
    | _ => none
  | .lock c =>
    match s.client c with
    | .locking b mode => s.lockBlock c b mode
    | _ => none
  | .upgrade c =>
    match s.client c with
    | .upgrading b => s.upgradeBlock c b
    | _ => none
  | .fill c ok =>
    match s.client c with
    | .filling b mode => some (s.fillBlock c b mode ok)
    | _ => none
  | .relock c =>
    match s.client c with
    | .relocking b => s.relockBlock c b
    | _ => none
  | .dirty c tag =>
    match s.client c with
    | .holding b mode => s.dirtyBlock b mode tag
    | _ => none
  | .unlock c =>
    match s.client c with
    | .holding b mode => some (s.unlockBlock c b mode)
    | _ => none
  | .put c =>
    match s.client c with
    | .putting b => some (s.putSection c b)
    | _ => none
  | .empty => some (emptyLoop s.heap.size s)
  | .kick =>
    match s.flush with
    | .waiting => some { s with flush := .scanning 0 [] }
    | _ => none
  | .scan =>
    match s.flush with
    | .scanning i write => s.scanBlock i write
    | _ => none
  | .scanned =>
    match s.flush with
    | .scanning i write =>
      if i = s.nblocks then some { s with flush := .writing write write } else none
    | _ => none
  | .write part b =>
    match s.flush with
    | .writing _ left => s.writeBlock part b left
    | _ => none
  | .written part =>
    match s.flush, s.writer part with
    | .writing write left, some b => some (s.writtenBlock part b write left)
    | _, _ => none
  | .finish =>
    match s.flush with
    | .writing write [] => some (s.finishFlush write)
    | _ => none

/-- The steps of a cache that has not failed. -/
def Step (s : DCache) (a : Act) (t : DCache) : Prop := s.fatal = false ∧ s.act a = some t

end DCache

end BlockCache

end Venti

end Plan9
