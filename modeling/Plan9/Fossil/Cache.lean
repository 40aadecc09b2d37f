import Mathlib.Data.List.Sort
import Plan9.Lib.IndexedHeap
import Plan9.Lib.Run
import Plan9.Venti.Dat
import Plan9.Fossil.FreeList

/-!
# The block cache of fossil

`cache.c` and `disk.c`, for the states of the blocks: who refers to a block, who has its
lock, whether it is in the heap, on the disk queue or dirty. What runs under `c->lk` is
one step here; the locks of the blocks are taken and given back in steps of their own. Any
number of processes look blocks up, change them and put them back, besides `diskThread`;
a process that has several blocks is several processes here, one for each block.

The order in which a sleeping process is woken is left open, and so are the answers that
`blockWrite` gets when it looks for the blocks that are to be written before its own: its
looking for them is what some other process does.

* `Plan9.Fossil.BlockState.Cache` – the cache;
* `Plan9.Fossil.BlockState.Cache.act` – its steps.
-/

namespace Plan9

namespace Fossil

open Lib
open Venti (Score)

namespace BlockState

/-! ### Blocks -/

/-- The states of a block, `BioEmpty` to `BioVentiError`. -/
inductive IoState
  | empty
  | label
  | clean
  | dirty
  | reading
  | writing
  | readError
  | ventiError
deriving DecidableEq

/-- The state is that of a block in `diskThread`'s hands. -/
def IoState.busy : IoState → Bool
  | reading | writing => true
  | _ => false

/-- The block counts in `c->ndirty`. -/
def IoState.unwritten : IoState → Bool
  | dirty | writing => true
  | _ => false

/-- The partitions, `PartError` to `PartVenti`. -/
inductive Part
  | error
  | super
  | label
  | data
  | venti
deriving DecidableEq

/-- `OReadOnly`, `OReadWrite` and `OOverWrite`. -/
inductive Mode
  | readOnly
  | readWrite
  | overWrite
deriving DecidableEq

/-- A process that uses the cache, or `diskThread`. -/
inductive Proc
  | client (c : ℕ)
  | disk
deriving DecidableEq

/-- A block that has to be written first: `struct BList` as `blockDependency` fills it in.
`index` is `none` for `-1`. -/
structure Prior where
  part : Part
  addr : UInt32
  vers : UInt32
  index : Option ℕ

/-- `struct Block`, without its data; `lk` names the process that has the lock, and `chain` is
the hash chain that `prev` and `next` link the block into. The index `heap` is part of the
heap. -/
structure Block where
  ref : ℕ
  nlock : ℕ
  lk : Option Proc
  part : Part
  addr : UInt32
  score : Score
  l : Label
  chain : Option ℕ
  used : UInt32
  vers : UInt32
  uhead : List BList
  prior : List Prior
  iostate : IoState

/-- The label that `memset` leaves. -/
def zeroLabel : Label := ⟨0, 0, 0, 0, 0⟩

/-! ### Processes -/

/-- What is looked for. -/
inductive Query
  /-- `_cacheLocalLookup`. -/
  | localLookup (part : Part) (addr vers : UInt32) (waitlock : Bool)
  /-- `_cacheLocal`. -/
  | cacheLocal (part : Part) (addr : UInt32) (mode : Mode) (epoch : UInt32)
  /-- `cacheGlobal`, for a score that is not local. -/
  | cacheGlobal (score : Score) (type : UInt8)

/-- The test in the search of a chain. -/
def Query.finds : Query → Block → Bool
  | localLookup part addr _ _, b | cacheLocal part addr _ _, b => b.part = part && b.addr = addr
  | cacheGlobal score type, b => b.part = .venti && b.score = score && b.l.type = type

/-- A block that was bumped is given to what was looked for. -/
def Query.fill : Query → Block → Block
  | .localLookup part addr _ _, b | .cacheLocal part addr _ _, b =>
    { b with part := part, addr := addr }
  | .cacheGlobal score type, b =>
    { b with part := .venti, addr := ~~~0, score := score, l := { b.l with type := type } }

/-- What is looked for on the disk is not in `PartVenti`. -/
def Query.ok : Query → Bool
  | localLookup part .. | cacheLocal part .. => part ≠ .error && part ≠ .venti
  | cacheGlobal .. => true

/-- What a process that sleeps on `b->ioready` goes on with. -/
inductive Await
  | look (q : Query)
  /-- `diskWriteAndWait` waits for `BioClean`; `nlock` is what it will restore. -/
  | clean (nlock : ℕ)
  /-- `superWrite` waits until the block is written. -/
  | settled

/-- Where a process is. -/
inductive Frame
  | idle
  /-- In front of `c->lk`. -/
  | entering (q : Query)
  /-- In `rsleep(&c->heapwait)`, called by `cacheBumpBlock`. -/
  | stalled (q : Query)
  /-- In front of `b->lk`. -/
  | locking (b : ℕ) (q : Query)
  /-- In `_cacheLocal`, with the lock, in front of the label. -/
  | checking (b : ℕ) (q : Query)
  /-- With the lock, in front of the `switch`. -/
  | looking (b : ℕ) (q : Query)
  /-- In `rsleep(&disk->flow)`, called by `diskQueue`; then it sleeps, or `blockWrite` returns. -/
  | queueing (b : ℕ) (k : Option Await)
  /-- In `rsleep(&b->ioready)`. -/
  | sleeping (b : ℕ) (k : Await)
  /-- With the block locked; `flush` is set behind `_cacheLocalLookup`. -/
  | holding (b : ℕ) (flush : Bool)
  /-- In `blockWrite`, in front of entry `n` of `b->prior`. -/
  | pruning (b n : ℕ) (dmap : List ℕ) (flush : Bool)
  /-- Behind a `blockWrite` that wrote the block. -/
  | wrote (b : ℕ)
  /-- In `blockPut`, in front of `c->lk`. -/
  | putting (b : ℕ)
  /-- The same, where `_blockSetLabel` has called it for the block of its caller. -/
  | labelPutting (b : ℕ)
  /-- `diskThread` in front of `b->lk`. -/
  | popped (b : ℕ)
  /-- `diskThread` with the lock. -/
  | serving (b : ℕ)
  /-- `diskThread` behind `blockPut`. -/
  | finishing

/-- The block a process has a reference of its own to. -/
def Frame.block : Frame → Option ℕ
  | locking b _ | checking b _ | looking b _ | queueing b _ | sleeping b _ | holding b _
  | pruning b _ _ _ | wrote b | putting b | labelPutting b => some b
  | idle | entering _ | stalled _ | popped _ | serving _ | finishing => none

/-- The block whose lock a process has. -/
def Frame.locks : Frame → Option ℕ
  | checking b _ | looking b _ | queueing b _ | holding b _ | pruning b _ _ _ | wrote b
  | serving b => some b
  | idle | entering _ | stalled _ | locking _ _ | sleeping _ _ | putting _ | labelPutting _
  | popped _ | finishing => none

/-- The block that `diskThread` has taken off the queue. -/
def Frame.request : Frame → Option ℕ
  | popped b | serving b => some b
  | _ => none

/-! ### The cache -/

/-- `struct Cache` and `struct Disk`, with the processes. -/
structure Cache where
  nblocks : ℕ
  hashSize : ℕ
  blocks : ℕ → Block
  heads : ℕ → List ℕ
  heap : IndexedHeap ℕ
  now : UInt32
  ndirty : ℕ
  vers : UInt32
  uhead : List BList
  /-- The blocks to do on the current scan, and on the next one. -/
  cur : List ℕ
  next : List ℕ
  nqueue : ℕ
  proc : Proc → Frame
  /-- An assertion that failed, or `abort`. -/
  fatal : Bool

/-- `cacheAlloc`. -/
def start (nblocks : ℕ) : Cache where
  nblocks := nblocks
  hashSize := nblocks
  blocks _ := {
    ref := 0
    nlock := 0
    lk := none
    part := .error
    addr := 0
    score := Vector.replicate 20 0
    l := zeroLabel
    chain := none
    used := 0
    vers := 0
    uhead := []
    prior := []
    iostate := .empty }
  heads _ := []
  heap := ⟨fun i => i, fun b => if b < nblocks then some b else none, nblocks⟩
  now := 0
  ndirty := 0
  vers := 1
  uhead := []
  cur := []
  next := []
  nqueue := 0
  proc _ := .idle
  fatal := false

/-- `QueueSize`. -/
def queueSize : ℕ := 100

namespace Cache

variable (s : Cache)

/-- `b->used - c->now`, in 32 bits. -/
def key (b : ℕ) : ℕ := ((s.blocks b).used - s.now).toNat

/-- The chain of an address, or of a score. -/
def hash : Query → ℕ
  | .localLookup _ addr _ _ | .cacheLocal _ addr _ _ => addr.toNat % s.hashSize
  | .cacheGlobal score _ =>
    (score[0].toUInt32 ||| score[1].toUInt32 <<< 8 ||| score[2].toUInt32 <<< 16 |||
      score[3].toUInt32 <<< 24).toNat % s.hashSize

/-- The search of a chain. -/
def find (q : Query) : Option ℕ := (s.heads (s.hash q)).find? fun b => q.finds (s.blocks b)

/-- Change one block. -/
def set (b : ℕ) (blk : Block) : Cache := { s with blocks := Function.update s.blocks b blk }

/-- A process goes on. -/
def go (p : Proc) (x : Frame) : Cache := { s with proc := Function.update s.proc p x }

/-- An assertion fails. -/
def abort : Cache := { s with fatal := true }

/-- `heapDel`; `upHeap` and `downHeap` are `IndexedHeap.siftUp` and `IndexedHeap.siftDown`, and
`IndexedHeap.fix` is the one and, if the block stays, the other. -/
def heapDel (b : ℕ) : Cache :=
  match s.heap.pos b with
  | none => s
  | some si =>
    let heap := { s.heap.forget b with size := s.heap.size - 1 }
    if si = heap.size then { s with heap := heap }
    else { s with heap := IndexedHeap.fix s.key (heap.arr heap.size) heap si }

/-- `heapIns`. -/
def heapIns (b : ℕ) : Cache :=
  if s.heap.pos b ≠ none then s.abort else { s with heap := s.heap.insert s.key b }

/-- The block leaves its chain. -/
def unchain (b : ℕ) : Cache :=
  match (s.blocks b).chain with
  | none => s
  | some h =>
    { s with
      heads := Function.update s.heads h ((s.heads h).erase b)
      blocks := Function.update s.blocks b { s.blocks b with chain := none } }

/-- The assertions of `cacheBumpBlock`. -/
def idleBlock (b : ℕ) : Bool :=
  s.heap.pos b = none && (s.blocks b).ref = 0 && !(s.blocks b).iostate.busy &&
    (s.blocks b).iostate ≠ .dirty && (s.blocks b).prior.isEmpty && (s.blocks b).uhead.isEmpty

/-- `cacheBumpBlock`, when the heap is not empty. -/
def cacheBumpBlock : ℕ × Cache :=
  let b := s.heap.arr 0
  let s := s.heapDel b
  if s.idleBlock b = true then
    let s := s.unchain b
    (b, s.set b { s.blocks b with ref := 1, part := .error, l := zeroLabel, iostate := .empty })
  else (b, s.abort)

/-- The block goes to the front of its chain. -/
def chain (q : Query) (b : ℕ) : Cache :=
  let h := s.hash q
  { s with
    heads := Function.update s.heads h (b :: s.heads h)
    blocks := Function.update s.blocks b { Query.fill q (s.blocks b) with chain := some h } }

/-- What follows a search that found nothing, when the heap is not empty. -/
def load (p : Proc) (q : Query) : Cache :=
  let r := s.cacheBumpBlock
  if r.2.fatal = true then r.2 else (r.2.chain q r.1).go p (.locking r.1 q)

/-- A process refers to a block that it found. -/
def refer (p : Proc) (b : ℕ) (q : Query) : Cache :=
  let s := s.heapDel b
  (s.set b { s.blocks b with ref := (s.blocks b).ref + 1 }).go p (.locking b q)

/-- The same, with the lock. -/
def referLocked (p : Proc) (b : ℕ) (q : Query) : Cache :=
  let s := s.heapDel b
  (s.set b { s.blocks b with ref := (s.blocks b).ref + 1, lk := some p, nlock := 1 }).go p
    (.looking b q)

/-- What follows a search that found a block. -/
def found (p : Proc) (b : ℕ) : Query → Cache
  | .localLookup part addr vers waitlock =>
    if (s.blocks b).vers ≠ vers then s.go p .idle
    else if waitlock = true then s.refer p b (.localLookup part addr vers waitlock)
    else if (s.blocks b).lk ≠ none then s.go p .idle
    else s.referLocked p b (.localLookup part addr vers waitlock)
  | .cacheLocal part addr mode epoch =>
    if epoch ≠ 0 ∧ (s.blocks b).l.epoch ≠ epoch then s.go p .idle
    else s.refer p b (.cacheLocal part addr mode epoch)
  | .cacheGlobal score type => s.refer p b (.cacheGlobal score type)

/-- The section of a search. -/
def enterSection (p : Proc) (q : Query) : Cache :=
  match s.find q with
  | some b => s.found p b q
  | none =>
    match q with
    | .localLookup .. => s.go p .idle
    | _ => if s.heap.size = 0 then s.go p (.stalled q) else s.load p q

/-- `blockPut` up to its section: `x` is where the process is if the block stays locked. The
assertion and `qunlock` fail for a block that is not locked. -/
def blockPut (p : Proc) (b : ℕ) (x : Frame) : Cache :=
  let blk := s.blocks b
  if 1 < blk.nlock then (s.set b { blk with nlock := blk.nlock - 1 }).go p x
  else if blk.nlock = 0 ∨ blk.lk = none then s.abort
  else (s.set b { blk with nlock := 1, lk := none }).go p (.putting b)

/-- `_blockSetLabel`, when it does not get the block of labels: it puts the block, which its caller
will put again, and use until then. -/
def labelFails (p : Proc) (b : ℕ) : Cache :=
  let t := s.blockPut p b (.holding b false)
  match t.proc p with
  | .putting b => t.go p (.labelPutting b)
  | _ => t

/-- The block is put into the heap, as used now. -/
def putUsed (b : ℕ) : Cache :=
  { s.set b { s.blocks b with used := s.now } with now := s.now + 1 }.heapIns b

/-- The `switch` of `blockPut`, for a block that nobody uses any more. -/
def putIdle (b : ℕ) : Cache :=
  match (s.blocks b).iostate with
  | .empty | .label =>
    if s.heap.size = 0 then s.putUsed b
    else (s.set b { s.blocks b with used := (s.blocks (s.heap.arr 0)).used }).heapIns b
  | .dirty => s
  | _ => s.putUsed b

/-- The section of `blockPut`. -/
def putSection (p : Proc) (b : ℕ) (x : Frame) : Cache :=
  let t := s.set b { s.blocks b with ref := (s.blocks b).ref - 1 }
  if (s.blocks b).ref = 0 then s.abort
  else if (s.blocks b).ref = 1 then (t.putIdle b).go p x
  else t.go p x

/-- `blockSetIOState`. -/
def blockSetIOState (b : ℕ) (iostate : IoState) : Cache :=
  let blk := s.blocks b
  match iostate with
  | .empty | .label =>
    if blk.uhead.isEmpty = true then s.set b { blk with iostate := iostate } else s.abort
  | .clean =>
    if blk.iostate.unwritten = true then
      { s.set b { blk with prior := [], uhead := [], vers := s.vers, iostate := .clean } with
        ndirty := s.ndirty - 1
        vers := s.vers + 1
        uhead := s.uhead ++ blk.uhead }
    else if blk.uhead.isEmpty = true then s.set b { blk with prior := [], iostate := .clean }
    else s.abort
  | .dirty =>
    if blk.iostate = .writing then
      { s.set b { blk with vers := s.vers, iostate := .dirty } with vers := s.vers + 1 }
    else s.set b { blk with iostate := .dirty }
  | .reading | .writing => s.set b { blk with ref := blk.ref + 1, iostate := iostate }
  | .readError | .ventiError => s.set b { blk with iostate := iostate }

/-- The place of a block on the disk queue. -/
def ioInsert (b : ℕ) (l : List ℕ) : List ℕ :=
  l.orderedInsert (fun b bb => (s.blocks b).addr < (s.blocks bb).addr) b

/-- A process behind `diskQueue`: it sleeps, which gives up the lock, or `blockWrite` returns. -/
def queued (p : Proc) (b : ℕ) : Option Await → Cache
  | some k => (s.set b { s.blocks b with lk := none }).go p (.sleeping b k)
  | none => s.go p (.wrote b)

/-- The block goes on the current scan, if the disk has not come past it yet. -/
def onCur (b : ℕ) : Bool :=
  match s.cur with
  | [] => true
  | c :: _ => (s.blocks c).addr < (s.blocks b).addr

/-- `diskQueue`, when the queue is not full. -/
def enqueue (p : Proc) (b : ℕ) (k : Option Await) : Cache :=
  (if s.onCur b = true then
    { s with cur := s.ioInsert b s.cur, nqueue := s.nqueue + 1 }
  else { s with next := s.ioInsert b s.next, nqueue := s.nqueue + 1 }).queued p b k

/-- `diskQueue`. -/
def diskQueue (p : Proc) (b : ℕ) (k : Option Await) : Cache :=
  if queueSize ≤ s.nqueue then s.go p (.queueing b k) else s.enqueue p b k

/-- `diskRead`, and sleeping until it is done. -/
def diskRead (p : Proc) (b : ℕ) (q : Query) : Cache :=
  if (s.blocks b).iostate = .empty ∨ (s.blocks b).iostate = .label then
    (s.blockSetIOState b .reading).diskQueue p b (some (.look q))
  else s.abort

/-- `diskWrite`. -/
def diskWrite (p : Proc) (b : ℕ) (k : Option Await) : Cache :=
  if (s.blocks b).nlock = 1 ∧ (s.blocks b).iostate = .dirty then
    (s.blockSetIOState b .writing).diskQueue p b k
  else s.abort

/-- A lookup gives up its block. -/
def drop (p : Proc) (b : ℕ) : Cache := s.blockPut p b (.holding b true)

/-- `rsleep(&b->ioready)`. -/
def sleep (p : Proc) (b : ℕ) (q : Query) : Cache :=
  (s.set b { s.blocks b with lk := none }).go p (.sleeping b (.look q))

/-- The `switch` of `_cacheLocalLookup`, `_cacheLocal` and `cacheGlobal`. `ok` says that
`vtread` finds the block. -/
def look (p : Proc) (b : ℕ) (q : Query) (ok : Bool) : Cache :=
  let blk := s.blocks b
  match q with
  | .localLookup _ _ vers _ =>
    match blk.iostate with
    | .empty | .label | .clean | .dirty =>
      if blk.vers ≠ vers then s.drop p b else s.go p (.holding b true)
    | .reading | .writing => s.sleep p b q
    | .ventiError | .readError => s.drop p b
  | .cacheLocal _ _ mode _ =>
    match blk.iostate with
    | .label => if mode = .overWrite then s.go p (.holding b false) else s.diskRead p b q
    | .empty => s.diskRead p b q
    | .clean | .dirty => s.go p (.holding b false)
    | .reading | .writing => s.sleep p b q
    | .readError => (s.blockSetIOState b .empty).drop p b
    | .ventiError => s.abort
  | .cacheGlobal .. =>
    match blk.iostate with
    | .empty =>
      if ok = true then (s.blockSetIOState b .clean).go p (.holding b false)
      else (s.blockSetIOState b .ventiError).drop p b
    | .clean => s.go p (.holding b false)
    | .ventiError | .readError => s.drop p b
    | _ => s.abort

/-- The epoch that `_cacheLocal` was asked for. -/
def checkEpoch (p : Proc) (b : ℕ) (q : Query) : Cache :=
  match q with
  | .cacheLocal _ _ _ epoch =>
    if epoch ≠ 0 ∧ (s.blocks b).l.epoch ≠ epoch then s.drop p b else s.go p (.looking b q)
  | _ => s.go p (.looking b q)

/-- `_cacheLocal` reads the label, if it has to; `l` is what `readLabel` finds. -/
def check (p : Proc) (b : ℕ) (q : Query) (l : Option Label) : Cache :=
  if (s.blocks b).part = .data ∧ (s.blocks b).iostate = .empty then
    match l with
    | none => s.drop p b
    | some l =>
      ((s.set b { s.blocks b with l := l }).blockSetIOState b .label).checkEpoch p b q
  else s.checkEpoch p b q

/-- The block's lock is taken. -/
def lockBlock (p : Proc) (b : ℕ) (q : Query) : Cache :=
  (s.set b { s.blocks b with lk := some p, nlock := 1 }).go p
    (match q with
    | .cacheLocal .. => .checking b q
    | _ => .looking b q)

/-- A sleeping process has the lock again. -/
def wakeUp (p : Proc) (b : ℕ) : Await → Option Cache
  | .look q => some ((s.set b { s.blocks b with lk := some p }).go p (.looking b q))
  | .clean nlock =>
    if (s.blocks b).iostate = .clean then
      some ((s.set b { s.blocks b with lk := some p, nlock := nlock }).go p (.holding b false))
    else none
  | .settled =>
    if (s.blocks b).iostate = .clean ∨ (s.blocks b).iostate = .dirty then
      some ((s.set b { s.blocks b with lk := some p }).go p (.holding b false))
    else none

/-- `blockDirty`: its callers keep away from Venti blocks, as it asserts. -/
def blockDirty (b : ℕ) : Option Cache :=
  let blk := s.blocks b
  if blk.part = .venti then none
  else if blk.iostate = .dirty then some s
  else if blk.iostate = .clean ∨ blk.iostate = .label then
    some { s.set b { blk with iostate := .dirty } with ndirty := s.ndirty + 1 }
  else some s.abort

/-- `blockDependency`: its callers have the other block locked, and it is clean or dirty. Where
there is no index and the other block is in `PartData`, the block is a data block. -/
def blockDependency (b bb : ℕ) (index : Option ℕ) : Option Cache :=
  let blk := s.blocks b
  let other := s.blocks bb
  if other.iostate = .clean then some s
  else if other.iostate = .dirty ∧
      (index = none → other.part = .data → blk.l.type = btData) then
    some (s.set b { blk with prior := ⟨other.part, other.addr, other.vers, index⟩ :: blk.prior })
  else none

/-- `blockRemoveLink`: when the block is clean the link is removed at once. -/
def blockRemoveLink (b : ℕ) (p : BList) : Option Cache :=
  let blk := s.blocks b
  let blk := { blk with
    prior := blk.prior.filter fun x => !(x.part = .data && x.addr.toNat = p.addr) }
  if blk.iostate = .dirty then some (s.set b { blk with uhead := blk.uhead ++ [p] })
  else if blk.iostate = .clean then some (s.set b blk)
  else none

end Cache

/-- What `_cacheLocalLookup` gives for an entry of `b->prior`. -/
inductive Answer
  | missing
  | lockfail
  /-- The same version is still in the cache; maybe it is clean. -/
  | found (clean : Bool)

namespace Cache

variable (s : Cache)

/-- The loop of `blockWrite`, for entry `n`, and `diskWrite` behind the last one. -/
def prune (p : Proc) (b n : ℕ) (dmap : List ℕ) (flush : Bool) (ans : Answer) : Option Cache :=
  let blk := s.blocks b
  match blk.prior[n]? with
  | none => some (s.diskWrite p b none)
  | some e =>
    let without := s.set b { blk with prior := blk.prior.eraseIdx n }
    -- a more recent dependency has succeeded
    if (e.index.any fun i => dmap.contains i) = true then
      some (without.go p (.pruning b n dmap flush))
    else
      match ans with
      | .missing => some (without.go p (.pruning b n (e.index.toList ++ dmap) flush))
      | .lockfail => if flush = true then some (s.go p (.holding b flush)) else none
      | .found clean =>
        if clean = true then some (without.go p (.pruning b n dmap flush))
        else if e.index = none then some (s.go p (.holding b flush))
        else some (s.go p (.pruning b (n + 1) dmap flush))

/-- `diskThread` takes a block off the queue. -/
def pop : Cache :=
  let s := if s.cur.isEmpty = true then { s with cur := s.next, next := [] } else s
  match s.cur with
  | [] => s.abort
  | b :: cur => { s with cur := cur }.go .disk (.popped b)

/-- `diskThread` reads or writes a block, which `ok` says that the disk does. -/
def serve (b : ℕ) (ok : Bool) : Cache :=
  let blk := s.blocks b
  match blk.iostate with
  | .reading =>
    (s.blockSetIOState b (if ok = true then .clean else .readError)).blockPut .disk b (.serving b)
  | .writing =>
    -- what was written is an old version if there are dependencies
    if ok = true then
      (s.blockSetIOState b (if blk.prior.isEmpty = true then .clean else .dirty)).blockPut .disk b
        (.serving b)
    else s.blockPut .disk b (.serving b)
  | _ => s.abort

/-- `flushFill`, for what it writes. -/
def flushFill : Cache :=
  if s.ndirty = 0 then s
  else
    { s with
      ndirty := (List.range s.nblocks).countP fun b =>
        (s.blocks b).part ≠ .error && (s.blocks b).iostate.unwritten }

end Cache

/-! ### Steps -/

/-- What happens to the cache. -/
inductive Act
  /-- A process looks for a block. -/
  | call (c : ℕ) (q : Query)
  /-- Its section under `c->lk`. -/
  | enter (c : ℕ)
  /-- It goes on in `cacheBumpBlock`, where it waited for the heap. -/
  | resume (c : ℕ)
  /-- It takes the lock of the block. -/
  | lock (c : ℕ)
  /-- It reads the label. -/
  | check (c : ℕ) (l : Option Label)
  /-- It looks at the state of the block. -/
  | look (c : ℕ) (ok : Bool)
  /-- It puts the block on the disk queue, which was full. -/
  | enqueue (c : ℕ)
  /-- It wakes up and takes the lock again. -/
  | wake (c : ℕ)
  /-- `blockDupLock`. -/
  | dup (c : ℕ)
  /-- `_blockSetLabel`, for the block itself. -/
  | label (c : ℕ) (l : Label)
  /-- The same, when the block of labels cannot be had. -/
  | labelFails (c : ℕ)
  /-- `blockDirty`. -/
  | dirty (c : ℕ)
  /-- `blockDependency`, for a block that another process has. -/
  | depend (c c' : ℕ) (index : Option ℕ)
  /-- `blockRemoveLink`. -/
  | unlink (c : ℕ) (p : BList)
  /-- `diskWriteAndWait`, which `blistAlloc` calls for a block without dependencies. -/
  | writeAndWait (c : ℕ)
  /-- `blockWrite`. -/
  | write (c : ℕ)
  /-- Its loop. -/
  | prune (c : ℕ) (ans : Answer)
  /-- `superWrite` waits for the block it wrote. -/
  | settle (c : ℕ)
  /-- `blockPut` up to its section. -/
  | put (c : ℕ)
  /-- The section of `blockPut`. -/
  | putSection (c : ℕ)
  /-- `diskThread` takes a block off the queue. -/
  | pop
  /-- It takes the lock of the block. -/
  | diskLock
  /-- It reads or writes the block, and puts it. -/
  | serve (ok : Bool)
  /-- The section of its `blockPut`. -/
  | diskPut
  /-- It has finished. -/
  | finish
  /-- `flushFill`. -/
  | flushFill
  /-- `unlinkBody` takes a block off its queue. -/
  | unlinkBody

namespace Cache

variable (s : Cache)

/-- One step. -/
def act : Act → Option Cache
  | .call c q =>
    match s.proc (.client c) with
    | .idle => if q.ok = true then some (s.go (.client c) (.entering q)) else none
    | _ => none
  | .enter c =>
    match s.proc (.client c) with
    | .entering q => some (s.enterSection (.client c) q)
    | _ => none
  | .resume c =>
    match s.proc (.client c) with
    | .stalled q => if s.heap.size = 0 then none else some (s.load (.client c) q)
    | _ => none
  | .lock c =>
    match s.proc (.client c) with
    | .locking b q => if (s.blocks b).lk = none then some (s.lockBlock (.client c) b q) else none
    | _ => none
  | .check c l =>
    match s.proc (.client c) with
    | .checking b q => some (s.check (.client c) b q l)
    | _ => none
  | .look c ok =>
    match s.proc (.client c) with
    | .looking b q => some (s.look (.client c) b q ok)
    | _ => none
  | .enqueue c =>
    match s.proc (.client c) with
    | .queueing b k => if s.nqueue < queueSize then some (s.enqueue (.client c) b k) else none
    | _ => none
  | .wake c =>
    match s.proc (.client c) with
    | .sleeping b k => if (s.blocks b).lk = none then s.wakeUp (.client c) b k else none
    | _ => none
  | .dup c =>
    match s.proc (.client c) with
    | .holding b _ => some (s.set b { s.blocks b with nlock := (s.blocks b).nlock + 1 })
    | _ => none
  | .label c l =>
    match s.proc (.client c) with
    | .holding b false =>
      if (s.blocks b).part = .data then some (s.set b { s.blocks b with l := l }) else none
    | _ => none
  | .labelFails c =>
    match s.proc (.client c) with
    | .holding b false =>
      if (s.blocks b).part = .data then some (s.labelFails (.client c) b) else none
    | _ => none
  | .dirty c =>
    match s.proc (.client c) with
    | .holding b false => s.blockDirty b
    | _ => none
  | .depend c c' index =>
    match s.proc (.client c), s.proc (.client c') with
    | .holding b false, .holding bb false => s.blockDependency b bb index
    | _, _ => none
  | .unlink c p =>
    match s.proc (.client c) with
    | .holding b false => s.blockRemoveLink b p
    | _ => none
  | .writeAndWait c =>
    match s.proc (.client c) with
    | .holding b false =>
      if (s.blocks b).iostate = .dirty ∧ (s.blocks b).prior.isEmpty = true then
        -- the lock count is one for the time of the write
        some ((s.set b { s.blocks b with nlock := 1 }).diskWrite (.client c) b
          (some (.clean (s.blocks b).nlock)))
      else none
    | _ => none
  | .write c =>
    match s.proc (.client c) with
    | .holding b flush =>
      if (s.blocks b).nlock ≠ 1 then none
      else if (s.blocks b).iostate ≠ .dirty then some s
      else some (s.go (.client c) (.pruning b 0 [] flush))
    | _ => none
  | .prune c ans =>
    match s.proc (.client c) with
    | .pruning b n dmap flush => s.prune (.client c) b n dmap flush ans
    | _ => none
  | .settle c =>
    match s.proc (.client c) with
    | .wrote b =>
      some ((s.set b { s.blocks b with lk := none }).go (.client c) (.sleeping b .settled))
    | _ => none
  | .put c =>
    match s.proc (.client c) with
    | .holding b flush => some (s.blockPut (.client c) b (.holding b flush))
    | .wrote b => some (s.blockPut (.client c) b (.wrote b))
    | _ => none
  | .putSection c =>
    match s.proc (.client c) with
    | .putting b => some (s.putSection (.client c) b .idle)
    | .labelPutting b => some (s.putSection (.client c) b (.holding b false))
    | _ => none
  | .pop =>
    match s.proc .disk with
    | .idle => if s.nqueue = 0 then none else some s.pop
    | _ => none
  | .diskLock =>
    match s.proc .disk with
    | .popped b =>
      if (s.blocks b).lk ≠ none then none
      else if (s.blocks b).nlock = 1 then
        some ((s.set b { s.blocks b with lk := some .disk }).go .disk (.serving b))
      else some s.abort
    | _ => none
  | .serve ok =>
    match s.proc .disk with
    | .serving b => some (s.serve b ok)
    | _ => none
  | .diskPut =>
    match s.proc .disk with
    | .putting b => some (s.putSection .disk b .finishing)
    | _ => none
  | .finish =>
    match s.proc .disk with
    | .finishing => some ({ s with nqueue := s.nqueue - 1 }.go .disk .idle)
    | _ => none
  | .flushFill => some s.flushFill
  | .unlinkBody => some { s with uhead := s.uhead.tail }

/-- The steps of a cache that has not failed. -/
def Step (s : Cache) (a : Act) (t : Cache) : Prop := s.fatal = false ∧ s.act a = some t

end Cache

end BlockState

end Fossil

end Plan9
