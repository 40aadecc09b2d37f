import Mathlib.Algebra.Order.Ring.Int
import Mathlib.Tactic.Simps.Basic
import Plan9.Lib.Faulty
import Plan9.Lib.Linked
import Plan9.LibVenti.ByteString

/-!
# `packet.c`

A **packet** is a chain of fragments; a **fragment** is a range of a reference-counted
piece of memory, which fragments of several packets may share. Two fragments of a
packet are part of the packet itself (`local`); others come from a free list. The
functions below are those of `packet.c`, on a heap of packets, fragments and memory.

A **foreign** fragment is a range of a buffer that a caller of `packetforeign` keeps; it
has no memory of the library behind it, and may say how the buffer is given back.

What is only kept for debugging is left out (the calling addresses, a fragment's parent
packet, the count of allocated bytes). The free lists are stacks here.
-/

namespace Plan9

namespace LibVenti

open Lib

/-- `MaxFragSize`, which is `BigMemSize`. -/
def maxFragSize : ℕ := 9 * 1024

/-- `SmallMemSize`. -/
def smallMemSize : ℕ := maxFragSize / 8

/-- Where `memalloc` puts the bytes in a piece of memory. -/
inductive Pos
  | pFront
  | pMiddle
  | pEnd
deriving DecidableEq

/-- The name of a fragment: one of the two of a packet, or one of the others. -/
inductive FragId
  | loc (p : ℕ) (i : Fin 2)
  | glob (k : ℕ)
deriving DecidableEq

/-- The states of a fragment. -/
inductive FragState
  | fragLocalFree
  | fragLocalAlloc
  | fragGlobal
deriving DecidableEq

/-- `struct Mem`. Pointers into it are offsets from `bp`; `size` is `ep - bp`. -/
structure Mem where
  ref : ℤ
  size : ℕ
  data : ℕ → UInt8
  rp : ℕ
  wp : ℕ

/-- What the pointers of a fragment point into: memory of the library, or a buffer of a
caller of `packetforeign`. -/
inductive Base
  | mem (m : ℕ)
  | foreign (buf : ℕ)
deriving DecidableEq

/-- `struct Frag`. Without memory, `rp` and `wp` are offsets into the buffer `buf`; `free`
is the routine that gives it back, and `a` its argument. -/
structure Frag where
  state : FragState
  mem : Option ℕ
  rp : ℕ
  wp : ℕ
  next : Option FragId
  buf : ℕ
  free : Option ℕ
  a : Option ℕ

/-- What the pointers of the fragment point into. -/
def Frag.base (f : Frag) : Base := f.mem.elim (.foreign f.buf) .mem

/-- The fragment has no routine that gives it back, and no argument for one. -/
def Frag.Plain (f : Frag) : Prop := f.free = none ∧ f.a = none

instance (f : Frag) : Decidable f.Plain := inferInstanceAs (Decidable (_ ∧ _))

/-- `struct Packet`. -/
structure Packet where
  size : ℤ
  first : Option FragId
  last : Option FragId

/-- The memory of the packet library, and `freelist`. What was not allocated yet is
zero. `foreign` are the contents of the callers' buffers. -/
structure Heap where
  packet : ℕ → Packet
  frag : FragId → Frag
  mem : ℕ → Mem
  foreign : ℕ → ℕ → UInt8
  freePacket : List ℕ
  npacket : ℕ
  freeFrag : List FragId
  nfrag : ℕ
  freeSmall : List ℕ
  freeBig : List ℕ
  nmem : ℕ

/-- How a call can end the program. -/
inductive PacketFault
  /-- `abort` in `memhead` or `memtail` -/
  | abort
  /-- a nil pointer -/
  | nil
  /-- a failed `assert` -/
  | assertion
  /-- a chain without an end -/
  | endless
deriving DecidableEq

/-- The functions of `packet.c`. -/
abbrev PacketM := StateT Heap (Except PacketFault)

/-- The value of a sum in an `int`. -/
def wrapInt (x : ℤ) : ℤ := x.bmod (2 ^ 32)

/-- `FRAGSIZE`. -/
def Heap.fragSize (s : Heap) (f : FragId) : ℕ := (s.frag f).wp - (s.frag f).rp

/-- The link of a fragment. -/
def Heap.next (s : Heap) (f : FragId) : Option FragId := (s.frag f).next

/-- More than the fragments there are: no chain that ends is as long. -/
def Heap.count (s : Heap) : ℕ := 2 * s.npacket + s.nfrag + 1

/-- Replace a packet. -/
@[simps]
def Heap.setPacket (s : Heap) (p : ℕ) (x : Packet) : Heap :=
  { s with packet := Function.update s.packet p x }

/-- Replace a fragment. -/
@[simps]
def Heap.setFrag (s : Heap) (f : FragId) (x : Frag) : Heap :=
  { s with frag := Function.update s.frag f x }

/-- Replace a piece of memory. -/
@[simps]
def Heap.setMem (s : Heap) (m : ℕ) (x : Mem) : Heap :=
  { s with mem := Function.update s.mem m x }

/-- Change a packet. -/
def modifyPacket (p : ℕ) (g : Packet → Packet) : PacketM Unit :=
  modify fun s => s.setPacket p (g (s.packet p))

/-- Change a fragment. -/
def modifyFrag (f : FragId) (g : Frag → Frag) : PacketM Unit :=
  modify fun s => s.setFrag f (g (s.frag f))

/-- Change a piece of memory. -/
def modifyMem (m : ℕ) (g : Mem → Mem) : PacketM Unit :=
  modify fun s => s.setMem m (g (s.mem m))

/-- Follow a pointer. -/
def deref {α : Type} (a : Option α) : PacketM α :=
  match a with
  | some x => pure x
  | none => throw .nil

/-- `assert`. -/
def assert (c : Bool) : PacketM Unit := if c then pure () else throw .assertion

/-- `NOTFREE`. -/
def notFree (p : ℕ) : PacketM Unit := do
  let s ← get
  assert (0 ≤ (s.packet p).size)

/-- The memory with `bytes` at the offset `off`. -/
def Mem.store (mem : Mem) (off : ℕ) (bytes : List UInt8) : Mem :=
  { mem with
    data := fun i =>
      if off ≤ i ∧ i < off + bytes.length then bytes.getD (i - off) 0 else mem.data i }

/-- `memmove` of `bytes` to the offset `off` of a piece of memory. -/
def memmove (m off : ℕ) (bytes : List UInt8) : PacketM Unit :=
  modifyMem m fun mem => mem.store off bytes

/-- The `n` bytes at the offset `off` of a piece of memory. -/
def Mem.read (mem : Mem) (off n : ℕ) : List UInt8 := (List.range n).map fun i => mem.data (off + i)

/-! ### Memory and fragments -/

/-- `memalloc`, for the sizes it takes: `nil` for others. -/
def memalloc (n : ℤ) (pos : Pos) : PacketM (Option ℕ) := do
  if n < 0 ∨ n > maxFragSize then pure none
  else
    let s ← get
    let nn := if n ≤ smallMemSize then smallMemSize else maxFragSize
    let m ← match if n ≤ smallMemSize then s.freeSmall else s.freeBig with
      | m :: rest =>
        if n ≤ smallMemSize then set { s with freeSmall := rest }
        else set { s with freeBig := rest }
        pure m
      | [] =>
        set { s.setMem s.nmem ⟨0, nn, fun _ => 0, 0, 0⟩ with nmem := s.nmem + 1 }
        pure s.nmem
    let s ← get
    assert ((s.mem m).ref = 0)
    let rp : ℤ := match pos with
      | .pFront => 0
      | .pMiddle => (s.mem m).size - n - 32
      | .pEnd => (s.mem m).size - n
    let rp := if rp < 0 then 0 else rp
    modifyMem m fun mem => { mem with ref := 1, rp := rp.toNat, wp := (rp + n).toNat }
    assert (rp + n ≤ (s.mem m).size)
    pure (some m)

/-- `memfree`. -/
def memfree (m : ℕ) : PacketM Unit := do
  modifyMem m fun mem => { mem with ref := mem.ref - 1 }
  let s ← get
  if (s.mem m).ref > 0 then pure ()
  else
    assert ((s.mem m).ref = 0)
    if (s.mem m).size = smallMemSize then set { s with freeSmall := m :: s.freeSmall }
    else if (s.mem m).size = maxFragSize then set { s with freeBig := m :: s.freeBig }
    else throw .assertion

/-- `memhead`: what stands behind its `abort` is never reached. -/
def memhead (_m _rp _n : ℕ) : PacketM ℤ := throw .abort

/-- `memtail`, the same. -/
def memtail (_m _wp _n : ℕ) : PacketM ℤ := throw .abort

/-- The fragment that `fragalloc` takes: a free one of the packet, or one of the free
list, or a new one. -/
def findFrag (p : ℕ) : PacketM FragId := do
  let s ← get
  if (s.frag (.loc p 0)).state = .fragLocalFree then
    modifyFrag (.loc p 0) fun f => { f with state := .fragLocalAlloc }
    pure (.loc p 0)
  else if (s.frag (.loc p 1)).state = .fragLocalFree then
    modifyFrag (.loc p 1) fun f => { f with state := .fragLocalAlloc }
    pure (.loc p 1)
  else
    match s.freeFrag with
    | f :: rest =>
      set { s with freeFrag := rest }
      pure f
    | [] =>
      set { s with nfrag := s.nfrag + 1 }
      modifyFrag (.glob s.nfrag) fun f => { f with state := .fragGlobal }
      pure (.glob s.nfrag)

/-- `fragalloc`. -/
def fragalloc (p : ℕ) (n : ℤ) (pos : Pos) (next : Option FragId) : PacketM FragId := do
  let f ← findFrag p
  if n = 0 then
    modifyFrag f fun g => { g with next := next, mem := none, rp := 0, wp := 0 }
    pure f
  else
    let pos := if pos = .pEnd ∧ next = none then .pMiddle else pos
    let m ← memalloc n pos
    let m ← deref m
    let s ← get
    modifyFrag f fun g =>
      { g with next := next, mem := some m, rp := (s.mem m).rp, wp := (s.mem m).wp }
    pure f

/-- The memory of the fragment learns its range, if no other fragment refers to it. -/
def noteRange (f : Frag) : PacketM Unit :=
  match f.mem with
  | some m => do
    let s ← get
    if (s.mem m).ref = 1 then modifyMem m fun mem => { mem with rp := f.rp, wp := f.wp }
    else pure ()
  | none => pure ()

/-- The memory of the fragment has one reference more. -/
def addRef (f : Frag) : PacketM Unit :=
  match f.mem with
  | some m => modifyMem m fun mem => { mem with ref := mem.ref + 1 }
  | none => pure ()

/-- `fragdup`. A fragment with a routine that gives it back has no duplicates. -/
def fragdup (p : ℕ) (f : FragId) : PacketM FragId := do
  let s ← get
  noteRange (s.frag f)
  let ff ← fragalloc p 0 .pFront none
  let s ← get
  modifyFrag ff fun g => { g with
    mem := (s.frag f).mem, rp := (s.frag f).rp, wp := (s.frag f).wp, buf := (s.frag f).buf,
    next := (s.frag f).next }
  assert (s.frag f).Plain
  addRef (s.frag f)
  pure ff

/-- `fragfree`. -/
def fragfree (f : FragId) : PacketM Unit := do
  let s ← get
  match (s.frag f).mem with
  | some m =>
    memfree m
    modifyFrag f fun g => { g with mem := none }
  -- the routine of a foreign fragment, if it has one, takes its buffer back: nothing changes here
  | none => pure ()
  if (s.frag f).state = .fragLocalAlloc then
    modifyFrag f fun g => { g with state := .fragLocalFree }
  else modify fun s => { s with freeFrag := f :: s.freeFrag }

/-- Free the fragments of a chain, at most `k` of them. -/
def freeChain : ℕ → Option FragId → PacketM Unit
  | _, none => pure ()
  | 0, some _ => throw .endless
  | k + 1, some f => do
    let s ← get
    let ff := s.next f
    fragfree f
    freeChain k ff

/-! ### Packets -/

/-- `packetalloc`. -/
def packetalloc : PacketM ℕ := do
  let s ← get
  match s.freePacket with
  | p :: rest =>
    set { s with freePacket := rest }
    assert ((s.packet p).size = -1)
    modifyPacket p fun _ => ⟨0, none, none⟩
    pure p
  | [] =>
    set { s with npacket := s.npacket + 1 }
    modifyPacket s.npacket fun _ => ⟨0, none, none⟩
    pure s.npacket

/-- `packetforeign`, for the buffer `buf`. -/
def packetforeign (buf n : ℕ) (free a : Option ℕ) : PacketM ℕ := do
  let p ← packetalloc
  let f ← fragalloc p 0 .pFront none
  modifyFrag f fun g =>
    { g with free := free, a := a, next := none, buf := buf, rp := 0, wp := n }
  modifyPacket p fun _ => ⟨n, some f, some f⟩
  notFree p
  pure p

/-- `packetfree`. -/
def packetfree (p : ℕ) : PacketM Unit := do
  notFree p
  let s ← get
  freeChain s.count (s.packet p).first
  modifyPacket p fun _ => ⟨-1, none, none⟩
  modify fun s => { s with freePacket := p :: s.freePacket }

/-- The loop that skips the fragments in front of an offset: the fragment it stops at,
and the offset there. -/
def skipFrags : ℕ → Option FragId → ℤ → PacketM (FragId × ℤ)
  | 0, _, _ => throw .endless
  | k + 1, f, offset => do
    let f ← deref f
    let s ← get
    if offset ≥ s.fragSize f then skipFrags k (s.next f) (offset - s.fragSize f)
    else pure (f, offset)

/-- The loop of `packetdup` for the remaining fragments: `f` is the last one
duplicated, `ff` its duplicate. The result is the last duplicate and `n`. -/
def dupFrags (pp : ℕ) : ℕ → FragId → FragId → ℤ → PacketM (FragId × ℤ)
  | 0, _, _, _ => throw .endless
  | k + 1, f, ff, n => do
    if n > 0 then
      let s ← get
      let f ← deref (s.next f)
      let gg ← fragdup pp f
      modifyFrag ff fun g => { g with next := some gg }
      let s ← get
      dupFrags pp k f gg (n - s.fragSize gg)
    else pure (ff, n)

/-- `packetdup`. -/
def packetdup (p : ℕ) (offset n : ℤ) : PacketM (Except String ℕ) := do
  notFree p
  let s ← get
  if offset < 0 ∨ n < 0 ∨ wrapInt (offset + n) > (s.packet p).size then pure (.error eBadSize)
  else
    let pp ← packetalloc
    if n = 0 then
      notFree pp
      pure (.ok pp)
    else
      modifyPacket pp fun q => { q with size := n }
      let s ← get
      let (f, offset) ← skipFrags s.count (s.packet p).first offset
      let ff ← fragdup pp f
      modifyFrag ff fun g => { g with rp := (g.rp + offset).toNat }
      modifyPacket pp fun q => { q with first := some ff }
      let t ← get
      let (ff, n) ← dupFrags pp s.count f ff (n - t.fragSize ff)
      modifyFrag ff fun g => { g with wp := (g.wp + n).toNat, next := none }
      modifyPacket pp fun q => { q with last := some ff }
      notFree pp
      notFree p
      pure (.ok pp)

/-- The loop of `packetsplit`: the last fragment that goes, the one behind it, and how
many bytes of that one go. -/
def splitFrags : ℕ → Option FragId → Option FragId → ℤ →
    PacketM (Option FragId × Option FragId × ℤ)
  | 0, _, _, _ => throw .endless
  | k + 1, ff, f, n => do
    if n > 0 then
      let g ← deref f
      let s ← get
      if n ≥ s.fragSize g then splitFrags k f (s.next g) (n - s.fragSize g)
      else pure (ff, f, n)
    else pure (ff, f, n)

/-- `packetsplit`. -/
def packetsplit (p : ℕ) (n : ℤ) : PacketM (Except String ℕ) := do
  notFree p
  let s ← get
  if n < 0 ∨ n > (s.packet p).size then pure (.error ePacketSize)
  else
    let pp ← packetalloc
    if n = 0 then
      notFree pp
      pure (.ok pp)
    else
      modifyPacket pp fun q => { q with size := n }
      modifyPacket p fun q => { q with size := q.size - n }
      let s ← get
      let (ff, f, n) ← splitFrags s.count none (s.packet p).first n
      let (ff, f) ← if n > 0 then do
          let g ← deref f
          let d ← fragdup p g
          modifyFrag g fun h => { h with wp := (h.rp + n).toNat }
          modifyFrag d fun h => { h with rp := (h.rp + n).toNat }
          pure (some g, some d)
        else pure (ff, f)
      let s ← get
      modifyPacket pp fun q => { q with first := (s.packet p).first, last := ff }
      let g ← deref ff
      modifyFrag g fun h => { h with next := none }
      modifyPacket p fun q => { q with first := f }
      let s ← get
      match f with
      | none => modifyPacket p fun q => { q with last := f }
      | some d =>
        if s.next d = none then modifyPacket p fun q => { q with last := f } else pure ()
      notFree pp
      notFree p
      pure (.ok pp)

/-- The loop of `packettrim` that frees the fragments in front of the offset. -/
def freeBefore : ℕ → Option FragId → ℤ → PacketM (FragId × ℤ)
  | 0, _, _ => throw .endless
  | k + 1, f, offset => do
    let f ← deref f
    let s ← get
    if offset ≥ s.fragSize f then
      fragfree f
      freeBefore k (s.next f) (offset - s.fragSize f)
    else pure (f, offset)

/-- The loop of `packettrim` that skips the middle. -/
def skipMiddle : ℕ → Option FragId → ℤ → PacketM (FragId × ℤ)
  | 0, _, _ => throw .endless
  | k + 1, f, n => do
    let f ← deref f
    let s ← get
    if n > 0 ∧ n > s.fragSize f then skipMiddle k (s.next f) (n - s.fragSize f)
    else pure (f, n)

/-- `packettrim`. -/
def packettrim (p : ℕ) (offset n : ℤ) : PacketM (Except String Unit) := do
  notFree p
  let s ← get
  if offset < 0 ∨ offset > (s.packet p).size then pure (.error ePacketOffset)
  else if n < 0 ∨ wrapInt (offset + n) > (s.packet p).size then pure (.error ePacketOffset)
  else
    modifyPacket p fun q => { q with size := n }
    if n = 0 then
      freeChain s.count (s.packet p).first
      modifyPacket p fun q => { q with first := none, last := none }
      notFree p
      pure (.ok ())
    else
      let (f, offset) ← freeBefore s.count (s.packet p).first offset
      modifyFrag f fun g => { g with rp := (g.rp + offset).toNat }
      modifyPacket p fun q => { q with first := some f }
      let (f, n) ← skipMiddle s.count (some f) n
      modifyFrag f fun g => { g with wp := (g.rp + n).toNat }
      modifyPacket p fun q => { q with last := some f }
      let t ← get
      let ff := t.next f
      modifyFrag f fun g => { g with next := none }
      freeChain s.count ff
      notFree p
      pure (.ok ())

/-- Put a new fragment, which leads to the first one, in front of it. -/
def linkFirst (p : ℕ) (f : FragId) : PacketM Unit := do
  let s ← get
  if (s.packet p).first = none then modifyPacket p fun q => { q with last := some f }
  else pure ()
  modifyPacket p fun q => { q with first := some f }

/-- `packetheader`: the address of the new bytes. -/
def packetheader (p : ℕ) (n : ℤ) : PacketM (Except String (ℕ × ℕ)) := do
  notFree p
  if n ≤ 0 ∨ n > maxFragSize then pure (.error ePacketSize)
  else
    modifyPacket p fun q => { q with size := wrapInt (q.size + n) }
    let s ← get
    let fits ← match (s.packet p).first with
      | none => pure none
      | some f => do
        let m ← deref (s.frag f).mem
        if n ≤ (s.frag f).rp then
          if (s.mem m).ref = 1 then pure (some f)
          else
            let r ← memhead m (s.frag f).rp n.toNat
            pure (if r ≥ 0 then some f else none)
        else pure none
    match fits with
    | some f =>
      modifyFrag f fun g => { g with rp := (g.rp - n).toNat }
      notFree p
      let s ← get
      let m ← deref (s.frag f).mem
      pure (.ok (m, (s.frag f).rp))
    | none =>
      let f ← fragalloc p n .pEnd (s.packet p).first
      linkFirst p f
      notFree p
      let s ← get
      let m ← deref (s.frag f).mem
      pure (.ok (m, (s.frag f).rp))

/-- Put a new fragment behind the last one. -/
def linkLast (p : ℕ) (f : FragId) : PacketM Unit := do
  let s ← get
  if (s.packet p).first = none then modifyPacket p fun q => { q with first := some f }
  else
    let l ← deref (s.packet p).last
    modifyFrag l fun g => { g with next := some f }
  modifyPacket p fun q => { q with last := some f }

/-- `packettrailer`: the address of the new bytes. -/
def packettrailer (p : ℕ) (n : ℤ) : PacketM (Except String (ℕ × ℕ)) := do
  notFree p
  if n ≤ 0 ∨ n > maxFragSize then pure (.error ePacketSize)
  else
    modifyPacket p fun q => { q with size := wrapInt (q.size + n) }
    let s ← get
    let fits ← if (s.packet p).first = none then pure none
      else do
        let f ← deref (s.packet p).last
        let m ← deref (s.frag f).mem
        if n ≤ (s.mem m).size - (s.frag f).wp then
          if (s.mem m).ref = 1 then pure (some f)
          else
            let r ← memtail m (s.frag f).wp n.toNat
            pure (if r ≥ 0 then some f else none)
        else pure none
    match fits with
    | some f =>
      let m ← deref (s.frag f).mem
      modifyFrag f fun g => { g with wp := (g.wp + n).toNat }
      notFree p
      pure (.ok (m, (s.frag f).wp))
    | none =>
      let f ← fragalloc p n (if (s.packet p).first = none then .pMiddle else .pFront) none
      linkLast p f
      notFree p
      let s ← get
      let m ← deref (s.frag f).mem
      pure (.ok (m, (s.frag f).rp))

/-- The loop of `packetprefix`: the bytes that are left go to new fragments, the last
ones first. -/
def prefixFrags (p : ℕ) : ℕ → List UInt8 → PacketM Unit
  | 0, _ => pure ()
  | k + 1, buf => do
    if buf = [] then pure ()
    else
      let nn := min buf.length maxFragSize
      let s ← get
      let f ← fragalloc p nn .pEnd (s.packet p).first
      linkFirst p f
      let s ← get
      let m ← deref (s.frag f).mem
      memmove m (s.frag f).rp (buf.drop (buf.length - nn))
      prefixFrags p k (buf.take (buf.length - nn))

/-- `packetprefix`. -/
def packetprefix (p : ℕ) (buf : List UInt8) : PacketM Unit := do
  notFree p
  if buf = [] then pure ()
  else
    modifyPacket p fun q => { q with size := wrapInt (q.size + buf.length) }
    let s ← get
    let rest ← match (s.packet p).first with
      | none => pure buf
      | some f => do
        let m ← deref (s.frag f).mem
        let nn := min (s.frag f).rp buf.length
        let ok ← if (s.mem m).ref = 1 then pure true
          else do
            let r ← memhead m (s.frag f).rp nn
            pure (decide (r ≥ 0))
        if ok then
          modifyFrag f fun g => { g with rp := g.rp - nn }
          memmove m ((s.frag f).rp - nn) (buf.drop (buf.length - nn))
          pure (buf.take (buf.length - nn))
        else pure buf
    prefixFrags p rest.length rest
    notFree p

/-- The loop of `packetappend`: the bytes that are left go to new fragments. -/
def appendFrags (p : ℕ) : ℕ → List UInt8 → PacketM Unit
  | 0, _ => pure ()
  | k + 1, buf => do
    if buf = [] then pure ()
    else
      let nn := min buf.length maxFragSize
      let s ← get
      let f ← fragalloc p nn (if (s.packet p).first = none then .pMiddle else .pFront) none
      linkLast p f
      let s ← get
      let m ← deref (s.frag f).mem
      memmove m (s.frag f).rp (buf.take nn)
      appendFrags p k (buf.drop nn)

/-- `packetappend`. -/
def packetappend (p : ℕ) (buf : List UInt8) : PacketM Unit := do
  notFree p
  if buf = [] then pure ()
  else
    modifyPacket p fun q => { q with size := wrapInt (q.size + buf.length) }
    let s ← get
    let rest ← if (s.packet p).first = none then pure buf
      else do
        let f ← deref (s.packet p).last
        let m ← deref (s.frag f).mem
        let nn := min ((s.mem m).size - (s.frag f).wp) buf.length
        let ok ← if (s.mem m).ref = 1 then pure true
          else do
            let r ← memtail m (s.frag f).wp nn
            pure (decide (r ≥ 0))
        if ok then
          memmove m (s.frag f).wp (buf.take nn)
          modifyFrag f fun g => { g with wp := g.wp + nn }
          pure (buf.drop nn)
        else pure buf
    appendFrags p rest.length rest
    notFree p

/-- `packetconcat`. -/
def packetconcat (p pp : ℕ) : PacketM Unit := do
  notFree p
  notFree pp
  let s ← get
  if (s.packet pp).size = 0 then pure ()
  else
    modifyPacket p fun q => { q with size := wrapInt (q.size + (s.packet pp).size) }
    if (s.packet p).first ≠ none then
      let l ← deref (s.packet p).last
      modifyFrag l fun g => { g with next := (s.packet pp).first }
    else modifyPacket p fun q => { q with first := (s.packet pp).first }
    modifyPacket p fun q => { q with last := (s.packet pp).last }
    modifyPacket pp fun _ => ⟨0, none, none⟩
    notFree p
    notFree pp

/-- `IOchunk`: a run of bytes. An address is what the pointer points into, and an offset
there. -/
structure IOchunk where
  addr : Option (Base × ℕ)
  len : ℕ
deriving DecidableEq

/-- The `n` bytes at an address. -/
def Heap.read (s : Heap) (n : ℕ) : Base × ℕ → List UInt8
  | (.mem m, off) => (s.mem m).read off n
  | (.foreign buf, off) => (List.range n).map fun i => s.foreign buf (off + i)

/-- The bytes of runs. -/
def Heap.readChunks (s : Heap) (io : List IOchunk) : List UInt8 :=
  io.flatMap fun c => c.addr.elim [] (s.read c.len)

/-- The run of `n` bytes of a fragment behind an offset. -/
def Heap.chunk (s : Heap) (f : FragId) (offset n : ℤ) : IOchunk :=
  ⟨some ((s.frag f).base, ((s.frag f).rp + offset).toNat), n.toNat⟩

/-- The loop of `packetpeek` that copies from several fragments: the runs it copies. -/
def peekFrags : ℕ → Option FragId → ℤ → ℤ → PacketM (List IOchunk)
  | 0, _, _, _ => throw .endless
  | k + 1, f, offset, n => do
    if n > 0 then
      let f ← deref f
      let s ← get
      let nn := min (s.fragSize f - offset) n
      let rest ← peekFrags k (s.next f) 0 (n - nn)
      pure (s.chunk f offset nn :: rest)
    else pure []

/-- `packetpeek`: the run behind the pointer it returns, or the runs it has copied. -/
def packetpeek (p : ℕ) (offset n : ℤ) : PacketM (Except String (List IOchunk)) := do
  notFree p
  if n = 0 then pure (.ok [])
  else
    let s ← get
    if offset < 0 ∨ offset ≥ (s.packet p).size then pure (.error ePacketOffset)
    else if n < 0 ∨ wrapInt (offset + n) > (s.packet p).size then pure (.error ePacketSize)
    else
      let (f, offset) ← skipFrags s.count (s.packet p).first offset
      if wrapInt (offset + n) ≤ s.fragSize f then
        notFree p
        pure (.ok [s.chunk f offset n])
      else
        let io ← peekFrags s.count (some f) offset n
        notFree p
        pure (.ok io)

/-- `packetcopy`: the runs it copies, or the error behind the -1. -/
def packetcopy (p : ℕ) (offset n : ℤ) : PacketM (Except String (List IOchunk)) := do
  notFree p
  packetpeek p offset n

/-- The bytes in the runs that a reader finds. -/
def bytesIn (x : PacketM (Except String (List IOchunk))) :
    PacketM (Except String (List UInt8)) := do
  let r ← x
  let s ← get
  pure (r.map s.readChunks)

/-- The loops of `packetfragments` that fill the array: what is left of it gets `nil`. -/
def fillChunks (s : Heap) : ℕ → Option FragId → ℤ → List IOchunk
  | 0, _, _ => []
  | nio + 1, none, offset => ⟨none, 0⟩ :: fillChunks s nio none offset
  | nio + 1, some f, offset =>
    s.chunk f offset (s.fragSize f - offset) :: fillChunks s nio (s.next f) 0

/-- `packetfragments`: what it puts into the array, and the size it returns. -/
def packetfragments (p : ℕ) (nio offset : ℤ) : PacketM (Except String (List IOchunk × ℕ)) := do
  notFree p
  let s ← get
  if (s.packet p).size = 0 ∨ nio ≤ 0 then pure (.ok ([], 0))
  else if offset < 0 ∨ offset > (s.packet p).size then pure (.error ePacketOffset)
  else
    let (f, offset) ← skipFrags s.count (s.packet p).first offset
    let io := fillChunks s nio.toNat (some f) offset
    pure (.ok (io, (io.map IOchunk.len).sum))

/-- `packetconsume`, with a buffer or without one. -/
def packetconsume (p : ℕ) (buf : Bool) (n : ℤ) : PacketM (Except String (List UInt8)) := do
  notFree p
  let b ← if buf then bytesIn (packetcopy p 0 n) else pure (.ok [])
  match b with
  | .error e => pure (.error e)
  | .ok b =>
    let s ← get
    let r ← packettrim p n (wrapInt ((s.packet p).size - n))
    pure (r.map fun _ => b)

end LibVenti

end Plan9
