import Plan9.Lib.ChainTable
import Plan9.Lib.IndexedHeap
import Plan9.Lib.Run
import Plan9.Venti.Placement

/-!
# The cache of lumps

`lumpcache.c`, with `checklumpcache`. A lump is on the free list, with the type `TWID8`, or in a
hash chain; of the lumps in chains those that nobody refers to are in a heap, and so may others
be. What runs under `lumpcache.lock` is one step here, up to an `rsleep`; the locks of the lumps
are taken and given back in steps of their own. Any number of processes may be inside `lookuplump`,
`insertlump` and `putlump`.

The lumps are numbered, and their fields are functions of the number. Of a packet there is only
what `packetasize` says, which is all that the cache looks at.
-/

namespace Plan9

namespace Venti

open Lib

namespace Lumps

/-- `TWID8`. -/
def twid8 : UInt8 := 0xff

/-- Where a process is that uses the cache. -/
inductive Client
  | idle
  /-- In front of `lumpcache.lock` in `lookuplump`. -/
  | entering (score : Score) (type : UInt8)
  /-- In the `rsleep` of `lookuplump`. -/
  | stalled (score : Score) (type : UInt8)
  /-- In front of the lock of the lump. -/
  | locking (b : ℕ)
  /-- Behind `lookuplump`. -/
  | holding (b : ℕ)
  /-- In front of `lumpcache.lock` in `insertlump`. -/
  | inserting (b : ℕ) (size : UInt32)
  /-- In the `rsleep` of `insertlump`. -/
  | full (b : ℕ) (size : UInt32)
  /-- In front of `lumpcache.lock` in `putlump`. -/
  | putting (b : ℕ)

namespace Client

/-- The lump a process refers to. -/
def block : Client → Option ℕ
  | locking b | holding b | inserting b _ | full b _ | putting b => some b
  | idle | entering .. | stalled .. => none

/-- The lump a process has locked. -/
def holds : Client → Option ℕ
  | holding b | inserting b _ | full b _ => some b
  | idle | entering .. | stalled .. | locking _ | putting _ => none

/-- The lump a process is inside `insertlump` for. -/
def inserts : Client → Option ℕ
  | inserting b _ | full b _ => some b
  | idle | entering .. | stalled .. | locking _ | holding _ | putting _ => none

/-- A process in `lookuplump` that has not got its lump yet. -/
def looking : Client → Option Unit
  | entering .. | stalled .. => some ()
  | idle | locking _ | holding _ | inserting .. | full .. | putting _ => none

/-- Behind the `rsleep`. -/
def wake : Client → Client
  | stalled score type => entering score type
  | full b size => inserting b size
  | x => x

end Client

/-- `struct LumpCache`, with the fields of the lumps and the processes. -/
structure LumpCache where
  nblocks : ℕ
  data : ℕ → Option UInt32
  score : ℕ → Score
  type : ℕ → UInt8
  size : ℕ → UInt32
  next : ℕ → Option ℕ
  prev : ℕ → Option ℕ
  used : ℕ → UInt32
  used2 : ℕ → UInt32
  ref : ℕ → ℕ
  /-- Who has the lock of a lump. -/
  lock : ℕ → Option ℕ
  free : Option ℕ
  heads : ℕ → Option ℕ
  /-- `heap` and `nheap`, with the fields `heap` of the lumps. -/
  heap : IndexedHeap ℕ
  allowed : UInt32
  avail : UInt32
  now : UInt32
  client : ℕ → Client
  /-- `sysfatal`. -/
  fatal : Bool

/-- `initlumpcache`. -/
def start (size nblocks : ℕ) : LumpCache where
  nblocks := nblocks
  data _ := none
  score _ := Vector.replicate 20 0
  type _ := twid8
  size _ := 0
  next i := if i = 0 then none else some (i - 1)
  prev _ := none
  used _ := 0
  used2 _ := 0
  ref _ := 0
  lock _ := none
  free := if nblocks = 0 then none else some (nblocks - 1)
  heads _ := none
  heap := ⟨fun _ => 0, fun _ => none, 0⟩
  allowed := UInt32.ofNat size
  avail := UInt32.ofNat size
  now := 0
  client _ := .idle
  fatal := false

/-- The chain of a score. -/
def lumpHash (score : Score) : ℕ := (hashBits score 9).toNat

namespace LumpCache

variable (s : LumpCache)

/-- `b->used2 - lumpcache.now`, in 32 bits. -/
def key (b : ℕ) : ℕ := (s.used2 b - s.now).toNat

/-- The lumps in the chain `heads[h]`. -/
def chain (h : ℕ) : List ℕ := walk s.next s.nblocks (s.heads h)

/-- The search of `lookuplump`. -/
def lookup (score : Score) (type : UInt8) : Option ℕ :=
  (s.chain (lumpHash score)).find? fun b => score = s.score b && type = s.type b

/-- `delheap`; `fixheap`, `upheap` and `downheap` are `IndexedHeap.fix`, `IndexedHeap.siftUp` and
`IndexedHeap.siftDown`. -/
def delheap (db : ℕ) : LumpCache := { s with heap := s.heap.erase s.key db }

/-- `upheap(lumpcache.nheap++, b)`. -/
def addheap (b : ℕ) : LumpCache := { s with heap := s.heap.insert s.key b }

/-- `rwakeupall(&lumpcache.full)`. -/
def wakeAll : LumpCache := { s with client := fun c => (s.client c).wake }

/-- The loop of `bumplump`. The first argument bounds the rounds. -/
def bumpLoop : ℕ → LumpCache → Option ℕ × LumpCache
  | 0, s => (none, s)
  | k + 1, s =>
    if s.heap.size = 0 then (none, s)
    else
      let b := s.heap.arr 0
      let s := s.delheap b
      if s.ref b = 0 then (some b, s.wakeAll) else bumpLoop k s

/-- The part of `bumplump` that unchains a lump, and frees it. -/
def release (b : ℕ) : LumpCache :=
  let h := lumpHash (s.score b)
  if s.prev b = none ∧ s.heads h ≠ some b then { s with fatal := true }
  else
    { s with
      heads := if s.prev b = none then Function.update s.heads h (s.next b) else s.heads
      next := fun y =>
        if y = b then s.free else if s.prev b = some y then s.next b else s.next y
      prev := fun y => if s.next b = some y then s.prev b else s.prev y
      data := if s.data b ≠ none then Function.update s.data b none else s.data
      avail := if s.data b ≠ none then s.avail + s.size b else s.avail
      size := if s.data b ≠ none then Function.update s.size b 0 else s.size
      type := Function.update s.type b twid8
      free := some b }

/-- `bumplump`. -/
def bumplump : Option ℕ × LumpCache :=
  match bumpLoop s.heap.size s with
  | (some b, s) => (some b, s.release b)
  | (none, s) => (none, s)

/-- The first free lump gets a score and a type, and goes to the front of its chain. -/
def alloc (b : ℕ) (score : Score) (type : UInt8) : LumpCache :=
  let h := lumpHash score
  { s with
    free := s.next b
    used := Function.update s.used b ((s.used2 b + s.now) / 2)
    heads := Function.update s.heads h (some b)
    next := fun y => if y = b then s.heads h else s.next y
    prev := fun y => if y = b then none else if s.heads h = some y then some b else s.prev y
    score := Function.update s.score b score
    type := Function.update s.type b type
    size := Function.update s.size b 0
    data := Function.update s.data b none }

/-- A process refers to a lump that it found, and the clock ticks. -/
def refer (c b : ℕ) : LumpCache :=
  { s with
    ref := Function.update s.ref b (s.ref b + 1)
    used2 := Function.update s.used2 b (s.used b)
    used := Function.update s.used b s.now
    now := s.now + 1
    client := Function.update s.client c (.locking b) }

/-- The lump is put where it belongs, if it is in the heap. -/
def refix (b : ℕ) : LumpCache :=
  match s.heap.pos b with
  | none => s
  | some i => { s with heap := s.heap.fix s.key b i }

/-- `lookuplump` from `found` on, up to the end of its section. -/
def found (c b : ℕ) : LumpCache := (s.refer c b).refix b

/-- The section of `lookuplump`. A lump that was bumped is the first free one then. -/
def getSection (c : ℕ) (score : Score) (type : UInt8) : LumpCache :=
  match s.lookup score type with
  | some b => s.found c b
  | none =>
    match s.free with
    | some b => (s.alloc b score type).found c b
    | none =>
      match s.bumplump with
      | (none, s) => { s with client := Function.update s.client c (.stalled score type) }
      | (some b, s) => (s.alloc b score type).found c b

/-- The loop of `insertlump` that makes room, and whether there is room. The first argument bounds
the rounds. -/
def roomLoop : ℕ → LumpCache → UInt32 → Bool × LumpCache
  | 0, s, _ => (false, s)
  | k + 1, s, size =>
    if s.avail < size then
      match s.bumplump with
      | (none, s) => (false, s)
      | (some _, s) => roomLoop k s size
    else (true, s)

/-- The section of `insertlump`. -/
def insertSection (c b : ℕ) (size : UInt32) : LumpCache :=
  match roomLoop (s.heap.size + 1) s size with
  | (false, s) => { s with client := Function.update s.client c (.full b size) }
  | (true, s) =>
    { s with
      data := Function.update s.data b (some size)
      size := Function.update s.size b size
      avail := s.avail - size
      client := Function.update s.client c (.holding b) }

/-- The section of `putlump`. -/
def putSection (c b : ℕ) : LumpCache :=
  let s := {
    s with
    ref := Function.update s.ref b (s.ref b - 1)
    client := Function.update s.client c .idle }
  if s.ref b = 0 then (if s.heap.pos b = none then s.addheap b else s).wakeAll else s

/-- The loop of `emptylumpcache`. The first argument bounds the rounds. -/
def emptyLoop : ℕ → LumpCache → LumpCache
  | 0, s => s
  | k + 1, s =>
    match s.bumplump with
    | (none, s) => s
    | (some _, s) => emptyLoop k s

end LumpCache

/-! ### Steps -/

/-- What happens to the cache. -/
inductive Act
  /-- A process calls `lookuplump`. -/
  | lookup (c : ℕ) (score : Score) (type : UInt8)
  /-- Its section under `lumpcache.lock`. -/
  | enter (c : ℕ)
  /-- It takes the lock of the lump. -/
  | lock (c : ℕ)
  /-- It calls `insertlump`, as it has found no packet. -/
  | insert (c : ℕ) (size : UInt32)
  /-- The section of `insertlump`. -/
  | store (c : ℕ)
  /-- `putlump` up to its section. -/
  | unlock (c : ℕ)
  /-- The section of `putlump`. -/
  | put (c : ℕ)
  /-- `bumplump`. -/
  | bump
  /-- `emptylumpcache`. -/
  | empty
deriving DecidableEq

namespace LumpCache

variable (s : LumpCache)

/-- One step. -/
def act : Act → Option LumpCache
  | .lookup c score type =>
    match s.client c with
    | .idle => some { s with client := Function.update s.client c (.entering score type) }
    | _ => none
  | .enter c =>
    match s.client c with
    | .entering score type => some (s.getSection c score type)
    | _ => none
  | .lock c =>
    match s.client c with
    | .locking b =>
      if s.lock b = none then
        some { s with
          lock := Function.update s.lock b (some c)
          client := Function.update s.client c (.holding b) }
      else none
    | _ => none
  | .insert c size =>
    match s.client c with
    | .holding b =>
      if s.data b = none then
        some { s with client := Function.update s.client c (.inserting b size) }
      else none
    | _ => none
  | .store c =>
    match s.client c with
    | .inserting b size => some (s.insertSection c b size)
    | _ => none
  | .unlock c =>
    match s.client c with
    | .holding b =>
      some { s with
        lock := Function.update s.lock b none
        client := Function.update s.client c (.putting b) }
    | _ => none
  | .put c =>
    match s.client c with
    | .putting b => some (s.putSection c b)
    | _ => none
  | .bump => some s.bumplump.2
  | .empty => some (emptyLoop s.heap.size s)

/-- The steps of a cache that has not failed. -/
def Step (s : LumpCache) (a : Act) (t : LumpCache) : Prop := s.fatal = false ∧ s.act a = some t

/-! ### The check -/

/-- The loop of `findblock`, from a lump on; `last` is the one before. The first argument bounds the
rounds. -/
def findLoop (bb : ℕ) : ℕ → Option ℕ → Option ℕ → Bool
  | k + 1, some b, last =>
    if last ≠ s.prev b then false
    else if b = bb then true
    else findLoop bb k (s.next b) (some b)
  | _, _, _ => false

/-- `findblock`. -/
def findblock (bb : ℕ) : Bool :=
  s.findLoop bb s.nblocks (s.heads (lumpHash (s.score bb))) none

/-- The part of `checklumpcache` about one place of the heap. -/
def checkHeap (i : ℕ) : Bool :=
  s.heap.pos (s.heap.arr i) = some i &&
    !(0 < i && s.key (s.heap.arr i) < s.key (s.heap.arr ((i - 1) / 2))) &&
    !(2 * i + 1 < s.heap.size && s.key (s.heap.arr (2 * i + 1)) < s.key (s.heap.arr i)) &&
    !(2 * i + 2 < s.heap.size && s.key (s.heap.arr (2 * i + 2)) < s.key (s.heap.arr i))

/-- The part of `checklumpcache` about one lump. -/
def checkBlock (b : ℕ) : Bool :=
  !(s.data b = none && s.size b ≠ 0) && (s.type b = twid8 || s.findblock b) &&
    (s.heap.pos b).all fun i => s.heap.arr i = b

/-- What `checklumpcache` adds up. -/
def sizeSum : UInt32 :=
  (List.range s.nblocks).foldl (fun size b => if s.type b ≠ twid8 then size + s.size b else size) 0

/-- The lumps that `checklumpcache` counts as referenced. -/
def refed : ℕ := ((List.range s.nblocks).filter fun b => s.ref b ≠ 0 ∧ s.heap.pos b = none).length

/-- The loop of `checklumpcache` over the free list: its length, if the lumps on it are unused. The
first argument bounds the rounds. -/
def freeLoop : ℕ → Option ℕ → Option ℕ
  | _, none => some 0
  | 0, some _ => none
  | k + 1, some b =>
    if s.type b ≠ twid8 ∨ s.heap.pos b ≠ none then none
    else (freeLoop k (s.next b)).map (· + 1)

/-- `checklumpcache`. -/
def checklumpcache : Bool :=
  (List.range s.heap.size).all s.checkHeap && (List.range s.nblocks).all s.checkBlock &&
    s.avail = s.allowed - s.sizeSum &&
    (s.freeLoop s.nblocks s.free).any fun nfree => s.heap.size + nfree + s.refed = s.nblocks

end LumpCache

end Lumps

end Venti

end Plan9
