import Mathlib.Data.List.Sort
import Plan9.Lib.BinarySearch
import Plan9.Lib.Buffer

/-!
# Metadata blocks

`vac.c` of fossil. A metadata block holds the directory entries of some children of a
directory: a header, a table of offsets and sizes sorted by the names of the entries, and
behind the table the entries, in no order and with holes between them.

The block is its buffer together with the numbers that `mbUnpack` takes out of the header;
the table is read from the buffer and written to it on every use. A pointer into the buffer
is an offset. An operation that can fail an assertion returns `none` where it does.
-/

namespace Plan9

namespace Fossil

namespace Vac

open Lib

/-! ### Directory entries -/

/-- A C string: the bytes before the zero. -/
def Str : Type := {l : List UInt8 // 0 ∉ l}
deriving DecidableEq

theorem zero_notMem_replicate (n : ℕ) : (0 : UInt8) ∉ List.replicate n 97 := by
  intro h
  cases List.eq_of_mem_replicate h

/-- `n` letters. -/
def letters (n : ℕ) : Str := ⟨List.replicate n 97, zero_notMem_replicate n⟩

/-- `MetaMagic`. -/
def metaMagic : ℕ := 0x5656fc7a

/-- `MetaHeaderSize`. -/
def metaHeaderSize : ℕ := 12

/-- `MetaIndexSize`. -/
def metaIndexSize : ℕ := 4

/-- `DirMagic`. -/
def dirMagic : ℕ := 0x1c4d9072

/-- `DeQidSpace`. -/
def deQidSpace : ℕ := 3

/-- `struct DirEntry`, the fields that are packed. -/
structure DirEntry where
  elem : Str
  entry : ℕ
  gen : ℕ
  mentry : ℕ
  mgen : ℕ
  qid : ℕ
  uid : Str
  gid : Str
  mid : Str
  mtime : ℕ
  mcount : ℕ
  ctime : ℕ
  atime : ℕ
  mode : ℕ
  qidSpace : Option (ℕ × ℕ)

/-- `stringPack`. -/
def stringPack (s : Str) : List UInt8 := beBytes 2 s.1.length ++ s.1

/-- The optional section of a packed entry. -/
def DirEntry.options (dir : DirEntry) : List UInt8 :=
  match dir.qidSpace with
  | none => []
  | some (qidOffset, qidMax) =>
    beBytes 1 deQidSpace ++ beBytes 2 (2 * 8) ++ beBytes 8 qidOffset ++ beBytes 8 qidMax

/-- The bytes that `dePack` writes. -/
def DirEntry.bytes (dir : DirEntry) : List UInt8 :=
  beBytes 4 dirMagic ++ (beBytes 2 9 ++ (stringPack dir.elem ++
    (beBytes 4 dir.entry ++ beBytes 4 dir.gen ++ beBytes 4 dir.mentry ++ beBytes 4 dir.mgen ++
      beBytes 8 dir.qid ++ stringPack dir.uid ++ stringPack dir.gid ++ stringPack dir.mid ++
      beBytes 4 dir.mtime ++ beBytes 4 dir.mcount ++ beBytes 4 dir.ctime ++ beBytes 4 dir.atime ++
      beBytes 4 dir.mode ++ dir.options)))

/-- `deSize`. -/
def deSize (dir : DirEntry) : ℕ :=
  4 + 2 + 4 + 4 + 4 + 4 + 8 + 4 + 4 + 4 + 4 + 4 + (2 + dir.elem.1.length) +
    (2 + dir.uid.1.length) + (2 + dir.gid.1.length) + (2 + dir.mid.1.length) +
    if dir.qidSpace = none then 0 else 3 + 8 + 8

/-- `struct MetaEntry`: where an entry lies in its block. -/
structure MetaEntry where
  p : ℕ
  size : ℕ
deriving DecidableEq, Repr

/-- `dePack`, into the buffer of the block; the end is asserted to be that of the entry. -/
def dePack (dir : DirEntry) (me : MetaEntry) (d : Buffer) : Option Buffer :=
  if me.p + dir.bytes.length = me.p + me.size then some (d.store me.p dir.bytes) else none

/-! ### Blocks -/

/-- `struct MetaBlock`. -/
structure MetaBlock where
  maxsize : ℕ
  size : ℕ
  free : ℤ
  maxindex : ℕ
  nindex : ℕ
  botch : Bool
  buf : Buffer

/-- The value of a `ushort` that `n` is stored in. -/
def ushort (n : ℕ) : ℕ := n % 65536

/-- Where the table has entry `i`. -/
def slot (i : ℕ) : ℕ := metaHeaderSize + i * metaIndexSize

/-- Entry `i` of the table. -/
def entryAt (d : Buffer) (i : ℕ) : MetaEntry := ⟨d.get16 (slot i), d.get16 (slot i + 2)⟩

/-- The end of the header and the table, where the entries begin. -/
def MetaBlock.omin (mb : MetaBlock) : ℕ := metaHeaderSize + mb.maxindex * metaIndexSize

/-- `mbInit`. -/
def mbInit (p : Buffer) (n ne : ℕ) : MetaBlock where
  maxsize := n
  size := metaHeaderSize + ne * metaIndexSize
  free := 0
  maxindex := ne
  nindex := 0
  botch := false
  buf := p.clear 0 n

/-- The checks that `mbUnpack` makes of an entry of the table. -/
def entryOk (p : Buffer) (omin size : ℕ) (me : MetaEntry) : Bool :=
  !(me.p < omin || size < me.p + me.size || me.size < 8) && beVal (p.load me.p 4) = dirMagic

/-- `mbUnpack`, behind the test for an empty block; `none` for the label `Err`. -/
def unpackBlock (p : Buffer) (n : ℕ) : Option MetaBlock :=
  let magic := beVal (p.load 0 4)
  let mb : MetaBlock :=
    { maxsize := n, size := p.get16 4, free := p.get16 6, maxindex := p.get16 8,
      nindex := p.get16 10, botch := magic ≠ metaMagic, buf := p }
  if magic ≠ metaMagic ∧ magic ≠ metaMagic - 1 then none
  else if n < mb.size then none
  else if n < mb.omin then none
  else if (List.range mb.nindex).all fun i => entryOk p mb.omin mb.size (entryAt p i) then some mb
  else none

/-- `mbUnpack`. -/
def mbUnpack (p : Buffer) (n : ℕ) : Option MetaBlock :=
  if n = 0 then some ⟨0, 0, 0, 0, 0, false, p⟩ else unpackBlock p n

/-- The header that `mbPack` writes. -/
def MetaBlock.header (mb : MetaBlock) : List UInt8 :=
  beBytes 4 metaMagic ++ beBytes 2 mb.size ++ beBytes 2 (mb.free % 65536).toNat ++
    beBytes 2 mb.maxindex ++ beBytes 2 mb.nindex

/-- `mbPack`. A block in the old order is never written. -/
def mbPack (mb : MetaBlock) : Option MetaBlock :=
  if mb.botch then none else some { mb with buf := mb.buf.store 0 mb.header }

/-- `meUnpack`. -/
def meUnpack (mb : MetaBlock) (i : ℕ) : Option MetaEntry :=
  if i < mb.nindex ∧ 8 ≤ (entryAt mb.buf i).size then some (entryAt mb.buf i) else none

/-! ### Names -/

/-- The bytes of the name of an entry, cut at the end of the entry. -/
def nameBytes (d : Buffer) (me : MetaEntry) : List UInt8 :=
  d.load (me.p + 8) (min (d.get16 (me.p + 6)) (me.size - 8))

/-- The loop of `meCmp`: the name of an entry against a string. -/
def cmpNew : List UInt8 → List UInt8 → ℤ
  | [], [] => 0
  | [], _ :: _ => -1
  | _ :: _, [] => 1
  | p :: ps, s :: ss => if p < s then -1 else if s < p then 1 else cmpNew ps ss

/-- The loop of `meCmpOld`: of two names one of which begins with the other, the longer one
is first. -/
def cmpOld : List UInt8 → List UInt8 → ℤ
  | [], [] => 0
  | [], _ :: _ => 1
  | _ :: _, [] => -1
  | p :: ps, s :: ss => if p < s then -1 else if s < p then 1 else cmpOld ps ss

/-- `meCmp`, or `meCmpOld` for a block in the old order. -/
def meCmp (mb : MetaBlock) (me : MetaEntry) (s : Str) : ℤ :=
  if mb.botch then cmpOld (nameBytes mb.buf me) s.1 else cmpNew (nameBytes mb.buf me) s.1

/-- What `mbSearch` ends with: the entry and its index, or the index to insert at. -/
inductive Search
  /-- `return 1`. -/
  | found (i : ℕ) (me : MetaEntry)
  /-- `return 0`. -/
  | absent (i : ℕ)
deriving DecidableEq, Repr

/-- The end of the loop of `mbSearch`: the entry was unpacked for the comparison. -/
def searched (mb : MetaBlock) : Found → Option Search
  | .at i => (meUnpack mb i).map fun me => .found i me
  | .absent i => some (.absent i)

/-- `mbSearch`. -/
def mbSearch (mb : MetaBlock) (elem : Str) : Option Search :=
  (searchBy (fun i => (meUnpack mb i).map fun me => meCmp mb me elem) (mb.nindex + 1) 0
    mb.nindex).bind (searched mb)

/-! ### Deletion and insertion -/

/-- `mbDelete`, behind `meUnpack`. -/
def deleteAt (mb : MetaBlock) (i : ℕ) (me : MetaEntry) : MetaBlock :=
  let d := mb.buf.clear me.p me.size
  let n := (mb.nindex - i - 1) * metaIndexSize
  { mb with
    size := if me.p + me.size = mb.size then mb.size - me.size else mb.size
    free := if me.p + me.size = mb.size then mb.free else mb.free + me.size
    nindex := mb.nindex - 1
    buf := (d.move (slot i) (slot i + metaIndexSize) n).clear (slot i + n) metaIndexSize }

/-- `mbDelete`. -/
def mbDelete (mb : MetaBlock) (i : ℕ) : Option MetaBlock :=
  (meUnpack mb i).map (deleteAt mb i)

/-- `mbInsert`, behind its assertion. -/
def insertAt (mb : MetaBlock) (i : ℕ) (me : MetaEntry) : MetaBlock :=
  let n := (mb.nindex - i) * metaIndexSize
  { mb with
    size := if mb.size < me.p + me.size then me.p + me.size else mb.size
    free := if mb.size < me.p + me.size then mb.free - (mb.size - me.p) else mb.free - me.size
    nindex := mb.nindex + 1
    buf := ((mb.buf.move (slot i + metaIndexSize) (slot i) n).put16 (slot i) me.p).put16
      (slot i + 2) me.size }

/-- `mbInsert`. -/
def mbInsert (mb : MetaBlock) (i : ℕ) (me : MetaEntry) : Option MetaBlock :=
  if mb.nindex < mb.maxindex then some (insertAt mb i me) else none

/-! ### Allocation -/

/-- `struct MetaChunk`. -/
structure MetaChunk where
  offset : ℕ
  size : ℕ
  index : ℕ
deriving DecidableEq, Repr

/-- The chunks in the order of the table. -/
def MetaBlock.chunks (mb : MetaBlock) : List MetaChunk :=
  (List.range mb.nindex).map fun i => ⟨(entryAt mb.buf i).p, (entryAt mb.buf i).size, i⟩

/-- `offsetCmp`. -/
def offsetLe (mc0 mc1 : MetaChunk) : Prop := mc0.offset ≤ mc1.offset

instance : DecidableRel offsetLe := fun a b => inferInstanceAs (Decidable (a.offset ≤ b.offset))

/-- The loop of `metaChunks` over the sorted chunks: `oo` is the least place at which the
next one can begin, `o` and `n` are offset and size of the last one. -/
def checkChunks : ℕ → ℕ → ℕ → List MetaChunk → Option (ℕ × ℕ × ℕ)
  | oo, o, n, [] => some (oo, o, n)
  | oo, _, _, c :: cs =>
    if c.offset < oo then none else checkChunks (oo + c.size) c.offset c.size cs

/-- `metaChunks`. -/
def metaChunks (mb : MetaBlock) : Option (List MetaChunk) :=
  let mc := mb.chunks.insertionSort offsetLe
  (checkChunks mb.omin mb.omin 0 mc).bind fun x =>
    if mb.size < x.2.1 + x.2.2 then none
    else if (mb.size : ℤ) - x.1 ≠ mb.free then none
    else some mc

/-- The loop of `mbCompact`. -/
def compactFrom (d : Buffer) (oo : ℕ) : List MetaChunk → Buffer × ℕ
  | [] => (d, oo)
  | c :: cs =>
    compactFrom
      (if c.offset = oo then d else (d.move oo c.offset c.size).put16 (slot c.index) oo)
      (oo + c.size) cs

/-- `mbCompact`. -/
def mbCompact (mb : MetaBlock) (mc : List MetaChunk) : MetaBlock :=
  { mb with
    buf := (compactFrom mb.buf mb.omin mc).1
    size := (compactFrom mb.buf mb.omin mc).2
    free := 0 }

/-- The search of `mbAlloc` for a hole, the room behind the last chunk included. -/
def findHole (n maxsize : ℕ) : ℕ → List MetaChunk → Option ℕ
  | o, [] => if o + n ≤ maxsize then some o else none
  | o, c :: cs => if o + n ≤ c.offset then some o else findHole n maxsize (c.offset + c.size) cs

/-- The last resort of `mbAlloc`: make one hole of all. -/
def allocCompact (mb : MetaBlock) (mc : List MetaChunk) (n : ℕ) : MetaBlock × Option ℕ :=
  let mb := mbCompact mb mc
  if mb.size + n ≤ mb.maxsize then (mb, some mb.size) else (mb, none)

/-- `mbAlloc` behind the search for a hole. -/
def allocHole (mb : MetaBlock) (mc : List MetaChunk) (n : ℕ) : Option ℕ → MetaBlock × Option ℕ
  | some o => (mb, some o)
  | none => allocCompact mb mc n

/-- `mbAlloc` behind `metaChunks`. -/
def allocChunks (mb : MetaBlock) (n : ℕ) : Option (List MetaChunk) → MetaBlock × Option ℕ
  | none => (mb, none)
  | some mc => allocHole mb mc n (findHole n mb.maxsize mb.omin mc)

/-- `mbAlloc`. -/
def mbAlloc (mb : MetaBlock) (n : ℕ) : MetaBlock × Option ℕ :=
  if mb.size + n ≤ mb.maxsize then (mb, some mb.size)
  else if mb.maxsize - mb.size + mb.free < n then (mb, none)
  else allocChunks mb n (metaChunks mb)

/-- The end of the zero bytes from `p` on, looked for in `fuel` places. -/
def zeroEnd (d : Buffer) : ℕ → ℕ → ℕ
  | 0, p => p
  | fuel + 1, p => if d p = 0 then zeroEnd d fuel (p + 1) else p

/-- `mbResize`. -/
def mbResize (mb : MetaBlock) (me : MetaEntry) (n : ℕ) : MetaBlock × Option MetaEntry :=
  if n ≤ me.size then (mb, some ⟨me.p, n⟩)
  else if n ≤ zeroEnd mb.buf (mb.maxsize - (me.p + me.size)) (me.p + me.size) - me.p then
    (mb, some ⟨me.p, ushort n⟩)
  else ((mbAlloc mb n).1, (mbAlloc mb n).2.map fun p => ⟨p, ushort n⟩)

/-! ### The edits of the callers -/

/-- The edits of a block. -/
inductive Edit
  /-- `dirLookup`. -/
  | search (elem : Str)
  /-- A new entry, `fileMetaAlloc` once it has its block. -/
  | alloc (dir : DirEntry)
  /-- A changed entry, `fileMetaFlush2`; with `elsewhere`, an entry that does not fit any more
  finds room in another block. -/
  | resize (oelem : Str) (dir : DirEntry) (elsewhere : Bool)
  /-- `fileMetaRemove`. -/
  | delete (elem : Str)
  /-- The block is written and read again. -/
  | reread

/-- `dePack` and `mbInsert`. -/
def packInsert (mb : MetaBlock) (i : ℕ) (me : MetaEntry) (dir : DirEntry) : Option MetaBlock :=
  (dePack dir me mb.buf).bind fun d => mbInsert { mb with buf := d } i me

/-- `fileMetaAlloc` behind `mbSearch`, which is asserted to fail. -/
def placeEntry (mb : MetaBlock) (dir : DirEntry) (p : ℕ) : Search → Option MetaBlock
  | .found _ _ => none
  | .absent i => packInsert mb i ⟨p, ushort (deSize dir)⟩ dir

/-- `fileMetaAlloc` behind `mbAlloc`. -/
def allocated (mb : MetaBlock) (dir : DirEntry) : Option ℕ → Option MetaBlock
  | none => some mb
  | some p => (mbSearch mb dir.elem).bind (placeEntry mb dir p)

/-- `fileMetaAlloc` in a block. -/
def allocEntry (mb : MetaBlock) (dir : DirEntry) : Option MetaBlock :=
  allocated (mbAlloc mb (deSize dir)).1 dir (mbAlloc mb (deSize dir)).2

/-- The index that `mbSearch` stores through `ri`. -/
def Search.index : Search → ℕ
  | .found i _ => i
  | .absent i => i

/-- `fileMetaFlush2` where the entry fits: it is taken out and put back under its new name. -/
def replaceEntry (mb : MetaBlock) (i : ℕ) (me : MetaEntry) (oelem : Str) (dir : DirEntry) :
    Option MetaBlock :=
  (mbDelete mb i).bind fun mb =>
    (if dir.elem = oelem then some i else (mbSearch mb dir.elem).map Search.index).bind fun i =>
      packInsert mb i me dir

/-- `fileMetaFlush2` behind `mbResize`. -/
def resized (mb : MetaBlock) (i : ℕ) (oelem : Str) (dir : DirEntry) (elsewhere : Bool) :
    Option MetaEntry → Option MetaBlock
  | some me => replaceEntry mb i me oelem dir
  | none => if elsewhere then mbDelete mb i else some mb

/-- `fileMetaFlush2` behind `mbSearch`. -/
def resizeFound (mb : MetaBlock) (oelem : Str) (dir : DirEntry) (elsewhere : Bool) :
    Search → Option MetaBlock
  | .absent _ => some mb
  | .found i me =>
    resized (mbResize mb me (deSize dir)).1 i oelem dir elsewhere (mbResize mb me (deSize dir)).2

/-- `fileMetaFlush2` in a block. -/
def resizeEntry (mb : MetaBlock) (oelem : Str) (dir : DirEntry) (elsewhere : Bool) :
    Option MetaBlock :=
  (mbSearch mb oelem).bind (resizeFound mb oelem dir elsewhere)

/-- `fileMetaRemove` behind `mbSearch`. -/
def deleteFound (mb : MetaBlock) : Search → Option MetaBlock
  | .absent _ => some mb
  | .found i _ => mbDelete mb i

/-- `fileMetaRemove`. -/
def deleteEntry (mb : MetaBlock) (elem : Str) : Option MetaBlock :=
  (mbSearch mb elem).bind (deleteFound mb)

/-- What an edit makes of a block. -/
def Edit.apply (mb : MetaBlock) : Edit → Option MetaBlock
  | .search elem => (mbSearch mb elem).map fun _ => mb
  | .alloc dir => allocEntry mb dir
  | .resize oelem dir elsewhere => resizeEntry mb oelem dir elsewhere
  | .delete elem => deleteEntry mb elem
  | .reread => (mbPack mb).bind fun mb => mbUnpack mb.buf mb.maxsize

end Vac

end Fossil

end Plan9
