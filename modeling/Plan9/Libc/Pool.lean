import Plan9.Lib.RingTree
import Mathlib.Data.Multiset.Count

/-!
# The pool allocator

`pool.c`: a pool takes regions from a coarser allocator and uses them as arenas. An arena is split
into blocks, free blocks are in a tree of rings, and a block has its size in its header and, for
walking backwards, in its tail.

The sizes are those of a machine with 64-bit pointers: a header and a tail take 16 bytes, the header
of an arena 40, and a free block needs at least 64. The header of an arena is followed by its first
block without a tail between them: what is read there as one is the size of the arena.

* `Plan9.Libc.Pool.poolallocl`, `Plan9.Libc.Pool.poolreallocl`, `Plan9.Libc.Pool.poolallocalignl`,
  `Plan9.Libc.Pool.poolfreel`, `Plan9.Libc.Pool.poolcompactl` – the operations;
* `Plan9.Libc.Pool.run` – runs of operations.
-/

namespace Plan9

namespace Libc

open Lib

/-! ### Blocks, arenas and pools -/

/-- The magic value in a header. -/
inductive Magic
  /-- FREE_MAGIC -/
  | free
  /-- UNALLOC_MAGIC -/
  | unalloc
  /-- ALLOC_MAGIC -/
  | alloc
  deriving DecidableEq, Repr

/-- A block: its header, its tail, and what else the allocator writes into it. -/
structure Block where
  addr : ℕ
  magic : Magic
  size : ℕ
  /-- the size in the tail -/
  tail : ℕ
  /-- `datasize` of the tail -/
  short : ℕ
  /-- how far from the start of the data the caller's pointer is; the words between are
  `ALIGN_MAGIC` -/
  skip : ℕ
  /-- where `datamagic` has been written, modulo 4 -/
  phase : ℕ
  deriving DecidableEq, Repr

/-- An arena and its blocks. -/
structure Arena where
  base : ℕ
  asize : ℕ
  blocks : List Block
  deriving DecidableEq, Repr

/-- What the owner of a pool sets. -/
structure Params where
  maxsize : ℕ
  minarena : ℕ
  quantum : ℕ
  minblock : ℕ
  /-- whether there is a `p->move` -/
  move : Bool
  quantum_pow : ∃ k < 64, quantum = 2 ^ k
  minblock_lt : minblock < 2 ^ 64
  minarena_lt : minarena < 2 ^ 64

/-- The free blocks and their size. -/
structure FreeTree where
  freeroot : RingTree ℕ ℕ
  curfree : ℤ
  deriving DecidableEq, Repr

/-- The state of a pool. -/
structure Pool where
  /-- by descending base address -/
  arenalist : List Arena
  tree : FreeTree
  cursize : ℕ
  curalloc : ℤ
  nfree : ℕ
  lastcompact : ℕ
  deriving DecidableEq, Repr

/-- A pool without arenas. -/
def Pool.empty : Pool := ⟨[], ⟨.nil, 0⟩, 0, 0, 0, 0⟩

/-- The blocks of all arenas. -/
def Pool.blocks (P : Pool) : List Block := P.arenalist.flatMap (·.blocks)

/-- A region is apart from the arenas there are. -/
def Apart (P : Pool) (a n : ℕ) : Prop :=
  0 < a ∧ a + n ≤ 2 ^ 64 ∧ ∀ A ∈ P.arenalist, a + n ≤ A.base ∨ A.base + A.asize ≤ a

instance (P : Pool) (a n : ℕ) : Decidable (Apart P a n) := by unfold Apart; infer_instance

/-- The code outside: the allocator of the regions, which are apart from the arenas there are, the
function that says which arenas can be merged, and what callers have left in their data. -/
structure Env where
  alloc : Pool → ℕ → Option ℕ
  alloc_apart : ∀ {P n a}, alloc P n = some a → Apart P a n
  merge : ℕ → ℕ → Bool
  /-- whether the data at an address look like `FREE_MAGIC` -/
  junk : ℕ → Bool
  /-- whether a load from an address outside of the arenas traps -/
  trap : ℕ → Bool

/-- An environment that offers the regions at the given addresses. The first page of the address
space and its upper part are not mapped. -/
def Env.at (bases : List ℕ) (merge : Bool) : Env where
  alloc P n := bases.find? fun a => Apart P a n
  alloc_apart {P n a} h := by
    have h := List.find?_some (p := fun a => decide (Apart P a n)) h
    exact of_decide_eq_true h
  merge _ _ := merge
  junk _ := false
  trap w := w < 4096 ∨ 2 ^ 47 ≤ w

/-- How an operation can go wrong. -/
inductive Fault
  /-- an assertion fails, or `p->panic` -/
  | panic
  /-- memory is written outside of the block it is meant for, a stale pointer is used, or a header
  is read where there is none, from memory that is missing or looks like a free block -/
  | wild
  deriving DecidableEq, Repr

/-- An assertion. -/
def assertion (c : Prop) [Decidable c] : Except Fault Unit := if c then .ok () else .error .panic

/-! ### Sizes -/

namespace Params

variable (p : Params)

/-- `x & ~(quantum-1)`, for a power of two. -/
def mask (x : ℕ) : ℕ := x - x % p.quantum

/-- The size of a block for so many bytes of data. -/
def dsize2bsize (sz : ℕ) : ℕ :=
  let sz := (sz + 32) % 2 ^ 64
  let sz := if sz < p.minblock then p.minblock else sz
  let sz := if sz < 64 then 64 else sz
  p.mask ((sz + p.quantum - 1) % 2 ^ 64)

/-- The size of an arena for a block. -/
def bsize2asize (sz : ℕ) : ℕ :=
  let sz := (sz + 56) % 2 ^ 64
  let sz := if sz < p.minarena then p.minarena else sz
  p.mask ((sz + p.quantum) % 2 ^ 64)

/-- Whether a fragment is worth being freed. -/
def Abovemin (n bsz : ℕ) : Prop := bsz / 4 ≤ n ∧ 64 ≤ n ∧ p.minblock ≤ n

instance (n bsz : ℕ) : Decidable (p.Abovemin n bsz) := by unfold Abovemin; infer_instance

/-- What is left of a block. -/
def extra (size bsize : ℕ) : ℕ := (size + 2 ^ 64 - bsize) % 2 ^ 64

/-- Whether `trim` cuts a block of the given size. -/
def Cuts (size dsize : ℕ) : Prop :=
  65536 ≤ extra size dsize ∨ p.Abovemin (extra size (p.dsize2bsize dsize)) (p.dsize2bsize dsize)

instance (size dsize : ℕ) : Decidable (p.Cuts size dsize) := by unfold Cuts; infer_instance

/-- Whether `freefromfront` frees something. -/
def FreesFront (size skip : ℕ) : Prop := 65536 ≤ p.mask skip ∨ p.Abovemin (p.mask skip) size

instance (size skip : ℕ) : Decidable (p.FreesFront size skip) := by
  unfold FreesFront; infer_instance

end Params

/-! ### The free pool -/

/-- Add a block to the free pool. -/
def pooladd (t : FreeTree) (b : Block) : FreeTree × Block :=
  (⟨t.freeroot.add b.size b.addr, t.curfree + b.size⟩, { b with magic := .free })

/-- Remove a block from the free pool. -/
def pooldel (t : FreeTree) (b : Block) : Except Fault (FreeTree × Block) :=
  match t.freeroot.remove b.size b.addr with
  | none => .error .panic
  | some root => .ok (⟨root, t.curfree - b.size⟩, { b with magic := .unalloc })

/-- `pooldel` where the block is free. -/
def unfree (t : FreeTree) (b : Block) : Except Fault (FreeTree × Block) :=
  if b.magic = .free then pooldel t b else .ok (t, b)

/-! ### Blocks -/

/-- The requested data size of an allocated block. -/
def Block.getdsize (b : Block) : ℕ := b.size - b.short

/-- Merge two blocks. -/
def blockmerge (t : FreeTree) (a b : Block) : Except Fault (FreeTree × Block) := do
  assertion (a.addr + a.size = b.addr)
  let (t, a) ← unfree t a
  let (t, b) ← unfree t b
  return (t, { a with
    magic := .unalloc, size := a.size + b.size, tail := a.size + b.size, short := 0xFFFF })

/-- Set the size of a block, in the header and in the tail. -/
def blocksetsize (b : Block) (bsize : ℕ) : Except Fault Block := do
  assertion (b.magic ≠ .free)
  assertion (bsize < 2 ^ 48)
  return { b with size := bsize, tail := bsize }

/-- Set the size of a block's data. They may not reach into the tail. -/
def blocksetdsize (p : Params) (b : Block) (dsize : ℕ) : Except Fault Block := do
  assertion (p.dsize2bsize dsize ≤ b.size)
  assertion (Params.extra b.size dsize < 65536)
  if b.size < dsize + 32 then .error .wild
  else return { b with short := b.size - dsize, phase := (b.addr + 16 + dsize) % 4 }

/-- Trim a block down to what is needed to hold `dsize` bytes of data. The block and the fragment
behind it have to have room for the links of a free block. -/
def trim (p : Params) (t : FreeTree) (b : Block) (dsize : ℕ) :
    Except Fault (FreeTree × Block × List Block) :=
  if p.Cuts b.size dsize then do
    let extra := Params.extra b.size (p.dsize2bsize dsize)
    let b ← blocksetsize b (p.dsize2bsize dsize)
    let frag ← blocksetsize ⟨b.addr + b.size, .unalloc, 0, 0, 0, 0, 0⟩ extra
    if b.size < 64 ∨ frag.size < 64 then .error .wild
    else do
      let (t, frag) := pooladd t frag
      let b ← blocksetdsize p { b with magic := .alloc } dsize
      return (t, b, [frag])
  else if b.size < 64 then .error .wild
  else do
    let b ← blocksetdsize p { b with magic := .alloc } dsize
    return (t, b, [])

/-- Free the front of a block. The size of the rest is set before its magic value. -/
def freefromfront (e : Env) (p : Params) (t : FreeTree) (b : Block) (skip : ℕ) :
    Except Fault (FreeTree × List Block × Block) :=
  if p.FreesFront b.size skip then do
    let skip := p.mask skip
    let magic := if e.junk (b.addr + skip) then Magic.free else .unalloc
    let bb ← blocksetsize ⟨b.addr + skip, magic, 0, 0, 0, 0, 0⟩ (Params.extra b.size skip)
    let b ← blocksetsize b skip
    let (t, b) := pooladd t b
    return (t, [b], bb)
  else return (t, [], b)

/-- Check that a block is consistent. -/
def blockcheck (p : Params) (b : Block) : Except Fault Unit := do
  assertion (b.tail = b.size)
  match b.magic with
  | .free | .unalloc => return ()
  | .alloc => do
    assertion (p.dsize2bsize b.getdsize ≤ b.size)
    -- datamagic, if there is room for it
    assertion (b.getdsize + 32 < b.size → b.phase = (b.addr + 16 + b.getdsize) % 4)

/-! ### Places -/

/-- A block in its place. The lists before it and above it begin with what is nearest. -/
structure Focus where
  above : List Arena
  base : ℕ
  asize : ℕ
  before : List Block
  cur : Block
  after : List Block
  below : List Arena
  deriving DecidableEq, Repr

namespace Focus

/-- The arenas around a place. -/
def arenas (f : Focus) : List Arena :=
  f.above.reverse ++ ⟨f.base, f.asize, f.before.reverse ++ f.cur :: f.after⟩ :: f.below

/-- `B2NB(b)`, unless it is the tail of the arena. -/
def right (f : Focus) : Option Block := f.after.head?

/-- `T2HDR(B2PT(b))`, if a block is there. For the first block of an arena the size of the arena
takes the place of the tail. -/
def left (f : Focus) : Option Block :=
  match f.before with
  | x :: _ => if x.addr + x.tail = f.cur.addr then some x else none
  | [] => (f.arenas.flatMap (·.blocks)).find? fun b => (b.addr + f.asize) % 2 ^ 64 = f.cur.addr

/-- Whether it goes wrong to read `T2HDR(B2PT(b))->magic`. It does not if a block is there. -/
def strays (e : Env) (f : Focus) : Bool :=
  let w := (f.cur.addr + 2 ^ 64 - f.before.head?.elim f.asize (·.tail)) % 2 ^ 64
  f.left.isNone && (e.junk w ||
    e.trap w && !f.arenas.any fun A => A.base ≤ w ∧ w < A.base + A.asize)

/-- Read `T2HDR(B2PT(b))->magic`. -/
def readleft (e : Env) (f : Focus) : Except Fault Unit :=
  if f.strays e then .error .wild else .ok ()

/-- Merge with the block on the left. Nothing else is adjacent. -/
def mergeLeft (t : FreeTree) (f : Focus) : Except Fault (FreeTree × Focus) :=
  match f.before with
  | [] => .error .panic
  | x :: before => do
    let (t, a) ← blockmerge t x f.cur
    return (t, { f with before := before, cur := a })

/-- Merge with the block on the right. -/
def mergeRight (t : FreeTree) (f : Focus) : Except Fault (FreeTree × Focus) :=
  match f.after with
  | [] => .error .panic
  | x :: after => do
    let (t, a) ← blockmerge t f.cur x
    return (t, { f with cur := a, after := after })

/-- `mergeLeft` under a condition. -/
def mergeLeftIf (c : Bool) (t : FreeTree) (f : Focus) : Except Fault (FreeTree × Focus) :=
  if c then f.mergeLeft t else .ok (t, f)

/-- `mergeRight` under a condition. -/
def mergeRightIf (c : Bool) (t : FreeTree) (f : Focus) : Except Fault (FreeTree × Focus) :=
  if c then f.mergeRight t else .ok (t, f)

end Focus

/-- Whether there is a block, and it is free. -/
def isFree (b : Option Block) : Bool := b.any (·.magic = .free)

/-- Whether there is a block, and it is the one at a given address. -/
def isNew (newb : ℕ) (b : Option Block) : Bool := b.any (·.addr = newb)

/-- Look for the block at an address in an arena. -/
def findBlock (addr : ℕ) : List Block → List Block → Option (List Block × Block × List Block)
  | _, [] => none
  | before, b :: after =>
    if b.addr = addr then some (before, b, after) else findBlock addr (b :: before) after

/-- Look for the block at an address. -/
def findArena (addr : ℕ) : List Arena → List Arena → Option Focus
  | _, [] => none
  | above, A :: below =>
    match findBlock addr [] A.blocks with
    | some (before, b, after) => some ⟨above, A.base, A.asize, before, b, after, below⟩
    | none => findArena addr (A :: above) below

namespace Pool

variable (p : Params) (e : Env) (P : Pool)

/-- The block whose header is at an address. -/
def at? (addr : ℕ) : Option Focus := findArena addr [] P.arenalist

/-- Whether the word at an address is `ALIGN_MAGIC`. -/
def aligned (w : ℕ) : Bool :=
  P.blocks.any fun b => b.magic = .alloc ∧ b.addr + 16 ≤ w ∧ (w - (b.addr + 16)) % 4 = 0 ∧
    (w - (b.addr + 16)) / 4 < b.skip / 4

/-- `while(u[-1] == ALIGN_MAGIC) u--`, counting in words. -/
def unalign : ℕ → ℕ
  | 0 => 0
  | u + 1 => if P.aligned (4 * u) then unalign u else u + 1

/-- The allocated block of a pointer. -/
def d2b (v : ℕ) : Except Fault Focus :=
  match P.at? (4 * P.unalign (v / 4) - 16) with
  | none => .error .panic
  | some f => if f.cur.magic = .alloc then .ok f else .error .panic

/-! ### Compaction -/

/-- The loop of `arenacompact`: allocated blocks move down to `wb`, free ones are taken out. -/
def compactBlocks (t : FreeTree) (wb : ℕ) :
    List Block → Except Fault (FreeTree × List Block × ℕ × Bool)
  | [] => .ok (t, [], wb, false)
  | b :: bs =>
    match b.magic with
    | .free => do
      let (t, _) ← pooldel t b
      compactBlocks t wb bs
    | .unalloc => compactBlocks t wb bs
    | .alloc => do
      let (t, bs, wb', compacted) ← compactBlocks t (wb + b.size) bs
      return (t, { b with addr := wb } :: bs, wb', compacted || wb ≠ b.addr)

/-- Check all blocks of an arena. -/
def poolcheckarena (A : Arena) : Except Fault Unit := A.blocks.forM (blockcheck p)

/-- Check the tree: its blocks are free ones, of the sizes of their rings, and these are in order
between two bounds. -/
def checktree (a b : ℕ) : RingTree ℕ ℕ → Except Fault Unit
  | .nil => return ()
  | .node size ring left right => do
    assertion (a < size ∧ size < b)
    ring.forM fun x =>
      assertion (P.blocks.any fun b => b.addr = x ∧ b.magic = .free ∧ b.size = size)
    checktree a size left
    checktree size b right

/-- Check a pool. -/
def poolcheckl : Except Fault Unit := do
  P.arenalist.forM (poolcheckarena p)
  P.checktree 0 (2 ^ 46) P.tree.freeroot

/-- Compact an arena by shifting all the free blocks to the end. -/
def arenacompact (t : FreeTree) (A : Arena) : Except Fault (FreeTree × Arena × Bool) := do
  poolcheckarena p A
  let (t, bs, wb, compacted) ← compactBlocks t (A.base + 40) A.blocks
  let eb := A.base + A.asize - 16
  if wb < eb then do
    let b ← blocksetsize ⟨wb, .unalloc, 0, 0, 0, 0, 0⟩ (eb - wb)
    let (t, b) := pooladd t b
    return (t, { A with blocks := bs ++ [b] }, compacted)
  else return (t, { A with blocks := bs }, compacted)

/-- Compact one arena after the other. -/
def compactArenas (t : FreeTree) : List Arena → Except Fault (FreeTree × List Arena × Bool)
  | [] => .ok (t, [], false)
  | A :: As => do
    let (t, A, compacted) ← arenacompact p t A
    let (t, As, compacted') ← compactArenas t As
    return (t, A :: As, compacted || compacted')

/-- Compact a pool. -/
def poolcompactl : Except Fault (Pool × Bool) :=
  if p.move = false ∨ P.lastcompact = P.nfree then .ok (P, false)
  else do
    let (t, As, compacted) ← compactArenas p P.tree P.arenalist
    return ({ P with tree := t, arenalist := As, lastcompact := P.nfree }, compacted)

/-! ### Arenas -/

/-- Grow a block to encompass space past its end, `rest` being the blocks behind that space. -/
def blockgrow (t : FreeTree) (b : Block) (nsize : ℕ) (rest : List Block) :
    Except Fault (FreeTree × List Block) :=
  if b.magic = .free then do
    let (t, a) ← pooldel t b
    let a ← blocksetsize a nsize
    if isFree rest.head? then
      match rest with
      | [] => .error .panic
      | bnxt :: rest => do
        let (t, a) ← blockmerge t a bnxt
        let (t, a) := pooladd t a
        return (t, a :: rest)
    else
      let (t, a) := pooladd t a
      return (t, a :: rest)
  else do
    let a ← blocksetsize b nsize
    let (t, a, frag) ← trim p t a b.getdsize
    return (t, a :: frag ++ rest)

/-- Attempt to coalesce two arenas that might be adjacent. -/
def arenamerge (t : FreeTree) (bot top : Arena) : Except Fault (FreeTree × Option Arena) :=
  if e.merge bot.base top.base then
    match bot.blocks.reverse, top.blocks with
    | bbot :: before, btop :: rest => do
      blockcheck p bbot
      blockcheck p btop
      let (t, bs) ← blockgrow p t bbot (btop.addr - bbot.addr) (btop :: rest)
      return (t, some ⟨bot.base, top.asize + (top.base - bot.base), before.reverse ++ bs⟩)
    | _, _ => .error .wild
  else return (t, none)

/-- The first merge of a new arena: with the one above, which is the last of `above`. -/
def mergeUp (t : FreeTree) (a : Arena) (above : List Arena) :
    Except Fault (FreeTree × List Arena × Arena) :=
  match above.reverse with
  | [] => return (t, above, a)
  | aup :: above' => do
    let (t, m) ← arenamerge p e t a aup
    match m with
    | some a => return (t, above'.reverse, a)
    | none => return (t, above, a)

/-- The second merge: of the arena below with the new one. -/
def mergeDown (t : FreeTree) (a : Arena) (below : List Arena) :
    Except Fault (FreeTree × List Arena) :=
  match below with
  | [] => return (t, [a])
  | down :: below' => do
    let (t, m) ← arenamerge p e t down a
    match m with
    | some a => return (t, a :: below')
    | none => return (t, a :: below)

/-- The arena in a new region, with one large block. -/
def arenainit (a asize : ℕ) : Except Fault Block :=
  if asize < 120 then .error .wild
  else blocksetsize ⟨a + 40, .unalloc, 0, 0, 0, 0, 0⟩ (asize - 56)

/-- Allocate a new arena. -/
def poolnewarena (asize : ℕ) : Except Fault Pool :=
  if p.maxsize < (P.cursize + asize) % 2 ^ 64 then do
    let (P, _) ← P.poolcompactl p
    return P
  else
    match e.alloc P asize with
    | none => return P
    | some a => do
      let b ← arenainit a asize
      let (t, b) := pooladd P.tree b
      let above := P.arenalist.takeWhile fun A => a < A.base
      let below := P.arenalist.dropWhile fun A => a < A.base
      let (t, above, A) ← mergeUp p e t ⟨a, asize, [b]⟩ above
      let (t, below) ← mergeDown p e t A below
      return { P with
        tree := t, arenalist := above ++ below, cursize := (P.cursize + asize) % 2 ^ 64 }

/-! ### Allocators -/

/-- Take a free block from the tree and trim it. -/
def take (fb dsize : ℕ) : Except Fault (Pool × Option ℕ) :=
  match P.at? fb with
  | none => .error .wild
  | some f => do
    let (t, b) ← pooldel P.tree f.cur
    let (t, ab, frag) ← trim p t { b with skip := 0 } dsize
    let f := { f with cur := ab, after := frag ++ f.after }
    return ({ P with tree := t, arenalist := f.arenas, curalloc := P.curalloc + ab.size },
      some (ab.addr + 16))

/-- Attempt to allocate a block to hold `dsize` user bytes. -/
def poolallocl (dsize : ℕ) : Except Fault (Pool × Option ℕ) :=
  if 2 ^ 63 ≤ dsize then return (P, none)
  else
    let bsize := p.dsize2bsize dsize
    match P.tree.freeroot.lookupGe bsize none with
    | some fb => P.take p fb dsize
    | none => do
      let P ← P.poolnewarena p e (p.bsize2asize bsize)
      match P.tree.freeroot.lookupGe bsize none with
      | none => return (P, none)
      | some fb => P.take p fb dsize

/-- Free a block. -/
def poolfreel (v : ℕ) : Except Fault Pool :=
  if v = 0 then return P
  else do
    let f ← P.d2b v
    blockcheck p f.cur
    f.readleft e
    let (t, f') ← f.mergeLeftIf (isFree f.left) P.tree
    let (t, f') ← f'.mergeRightIf (isFree f'.right) t
    let (t, b) := pooladd t f'.cur
    return { P with
      tree := t
      arenalist := { f' with cur := b }.arenas
      nfree := (P.nfree + 1) % 2 ^ 32
      curalloc := P.curalloc - f.cur.size }

/-- The first half of `poolreallocl`: use the same block, merged with its free neighbours if it is
too small. -/
def reuse (t : FreeTree) (f : Focus) (nbsize : ℕ) : Except Fault (Option (FreeTree × Focus)) :=
  let size (b : Option Block) := b.elim 0 (·.size)
  if nbsize ≤ f.cur.size then return some (t, f)
  else if isFree f.right ∧ nbsize ≤ f.cur.size + size f.right then return some (← f.mergeRight t)
  else do
    f.readleft e
    if isFree f.left ∧ nbsize ≤ size f.left + f.cur.size then return some (← f.mergeLeft t)
    else if isFree f.left ∧ isFree f.right ∧
        nbsize ≤ size f.left + f.cur.size + size f.right then do
      let (t, f) ← f.mergeLeft t
      return some (← f.mergeRight t)
    else return none

/-- `Returnblock`: the data are moved to the start of the block, which is trimmed. -/
def returnblock (t : FreeTree) (f : Focus) (obsize ndsize : ℕ) :
    Except Fault (Pool × Option ℕ) := do
  let (t, a, frag) ← trim p t { f.cur with skip := 0 } ndsize
  let f := { f with cur := a, after := frag ++ f.after }
  return ({ P with tree := t, arenalist := f.arenas, curalloc := P.curalloc - obsize + a.size },
    some (a.addr + 16))

/-- The middle of `poolreallocl`: the new block may be next to the old one. -/
def mergeNew (t : FreeTree) (f : Focus) (newb : ℕ) : Except Fault (Option (FreeTree × Focus)) :=
  if isNew newb f.left ∨ isNew newb f.right then do
    f.readleft e
    let (t, f) ← f.mergeLeftIf (isNew newb f.left || isFree f.left) t
    let (t, f) ← f.mergeRightIf (isNew newb f.right || isFree f.right) t
    return some (t, f)
  else return none

/-- Whether a block that was at `f` in `P` has been moved in `P'` by a compaction. -/
def moved (P' : Pool) (f : Focus) : Prop :=
  P'.lastcompact ≠ P.lastcompact ∧ f.before.any (·.magic = .free)

instance (P' : Pool) (f : Focus) : Decidable (P.moved P' f) := by unfold moved; infer_instance

/-- Attempt to grow `v` to `ndsize` bytes. A compaction on the way makes the block a stale one if
it moves it. -/
def poolreallocl (v ndsize : ℕ) : Except Fault (Pool × Option ℕ) :=
  if v = 0 then P.poolallocl p e ndsize
  else if ndsize = 0 then do
    let P ← P.poolfreel p e v
    return (P, none)
  else do
    let f ← P.d2b v
    blockcheck p f.cur
    let nbsize := p.dsize2bsize ndsize
    match ← reuse e P.tree f nbsize with
    | some (t, f') => P.returnblock p t f' f.cur.size ndsize
    | none => do
      let (P', nv) ← P.poolallocl p e ndsize
      match nv with
      | none => return (P', none)
      | some nv =>
        if P.moved P' f then .error .wild
        else
          match P'.at? f.cur.addr with
          | none => .error .wild
          | some f' => do
            let newb ← P'.d2b nv
            match ← mergeNew e P'.tree f' newb.cur.addr with
            | some (t, f') => do
              assertion (nbsize ≤ f'.cur.size)
              P'.returnblock p t f' f.cur.size ndsize
            | none => do
              let P' ← P'.poolfreel p e v
              return (P', some nv)

/-- `offset` modulo `align`. -/
def alignoffset (align : ℕ) (offset : ℤ) : ℕ :=
  if offset < 0 then align - (-offset).toNat % align else offset.toNat % align

/-- The first address from `v` on that is `offset` modulo `align`. -/
def alignptr (v align offset : ℕ) : ℕ :=
  if align = 0 then v
  else
    let off := v % align
    if off = offset then v
    else (v + offset + (if offset < off then align else 0) + 2 ^ 64 - off) % 2 ^ 64

/-- Whether two addresses are in different blocks of `span` bytes. -/
def crosses (span a b : ℕ) : Prop := span ≠ 0 ∧ a / span ≠ b / span

instance (span a b : ℕ) : Decidable (crosses span a b) := by unfold crosses; infer_instance

/-- The allocation of `poolallocalignl`: a second one of twice the size if the first crosses. -/
def allocspan (asize span : ℕ) : Except Fault (Pool × Option ℕ) := do
  let (P, v) ← P.poolallocl p e asize
  match v with
  | none => return (P, none)
  | some v =>
    if crosses span v ((v + asize) % 2 ^ 64) then do
      let P ← P.poolfreel p e v
      P.poolallocl p e (2 * asize % 2 ^ 64)
    else return (P, some v)

/-- The pointer that `poolallocalignl` wants to return. -/
def alignplace (v dsize align offset span : ℕ) : Option ℕ :=
  let last (c : ℕ) := (c + dsize + 2 ^ 64 - 1) % 2 ^ 64
  let c := alignptr v align offset
  if crosses span c (last c) then
    let c := alignptr ((c + (span - c % span)) % 2 ^ 64) align offset
    if crosses span c (last c) then none else some c
  else some c

/-- A difference as an `int`, and that as a `uintptr`. -/
def intskip (c v : ℕ) : ℕ :=
  let d := (c + 2 ^ 64 - v) % 2 ^ 32
  if d < 2 ^ 31 then d else d + (2 ^ 64 - 2 ^ 32)

/-- The end of `poolallocalignl`: the bytes before the pointer are freed or marked, and the block is
trimmed. -/
def aligncut (f : Focus) (v c dsize : ℕ) : Except Fault Pool := do
  let (t, front, b) ← freefromfront e p P.tree f.cur (intskip c v)
  let v := b.addr + 16
  let (t, b, frag) ← trim p t { b with skip := c - v } ((intskip c v + dsize) % 2 ^ 64)
  let f := { f with before := front ++ f.before, cur := b, after := frag ++ f.after }
  let P := { P with tree := t, arenalist := f.arenas }
  let f ← P.d2b c
  assertion (f.cur.addr = b.addr)
  return P

/-- Allocate `dsize` bytes at an address that is `offset` modulo `align` and such that they do not
cross a boundary between blocks of `span` bytes. -/
def poolallocalignl (dsize align : ℕ) (offset : ℤ) (span : ℕ) : Except Fault (Pool × Option ℕ) := do
  let offset := if align = 0 then 0 else alignoffset align offset
  let (P, v) ← P.allocspan p e ((dsize + align) % 2 ^ 64) span
  match v with
  | none => return (P, none)
  | some v =>
    match alignplace v dsize align offset span with
    | none => do
      let P ← P.poolfreel p e v
      return (P, none)
    | some c =>
      match P.at? (v - 16) with
      | none => .error .wild
      | some f => do
        let P ← P.aligncut p e f v c dsize
        return (P, some c)

/-! ### Runs -/

end Pool

/-- An operation on a pool. -/
inductive PoolOp
  | alloc (dsize : BitVec 64)
  | free (v : BitVec 64)
  | realloc (v ndsize : BitVec 64)
  | allocalign (dsize align offset span : BitVec 64)
  | compact
  deriving DecidableEq

namespace Pool

variable (p : Params) (P : Pool)

/-- An operation, in an environment. -/
def step (e : Env) : PoolOp → Except Fault (Pool × Option ℕ)
  | .alloc dsize => P.poolallocl p e dsize.toNat
  | .free v => do
    let P ← P.poolfreel p e v.toNat
    return (P, none)
  | .realloc v ndsize => P.poolreallocl p e v.toNat ndsize.toNat
  | .allocalign dsize align offset span =>
    P.poolallocalignl p e dsize.toNat align.toNat offset.toInt span.toNat
  | .compact => do
    let (P, _) ← P.poolcompactl p
    return (P, none)

/-- A run of operations. -/
def run (P : Pool) : List (Env × PoolOp) → Except Fault Pool
  | [] => .ok P
  | (e, op) :: ops => do
    let (P, _) ← P.step p e op
    run P ops

end Pool

end Libc

end Plan9
