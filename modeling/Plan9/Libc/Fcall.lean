import Plan9.Lib.Buffer
import Plan9.Lib.Cursor
import Plan9.LibVenti.Fcall

/-!
# Messages of 9P

`fcall.h`, `convS2M.c` and `convM2S.c`: a structure is turned into a message by two switches, one
that sizes it and one that writes it, and a message into a structure by a third one. Strings and
bulk data in a structure are pointers; what is behind them is a parameter of the type, so that the
third switch can return places in the message.

* `Plan9.Libc.sizeS2M`, `Plan9.Libc.convS2M`, `Plan9.Libc.convM2S` – the three switches;
* `Plan9.Libc.Fcall.fields`, `Plan9.Libc.Fcall.bulk` – which of its fields a message of a type
  carries.
-/

namespace Plan9

namespace Libc

open Lib

open LibVenti (CString)

/-! ### Structures -/

/-- The types of messages. (106, `Terror`, is illegal.) -/
inductive MsgType where
  | tversion | rversion | tauth | rauth | tattach | rattach | rerror | tflush | rflush | twalk
  | rwalk | topen | ropen | tcreate | rcreate | tread | rread | twrite | rwrite | tclunk | rclunk
  | tremove | rremove | tstat | rstat | twstat | rwstat
deriving DecidableEq

/-- Their numbers. -/
def MsgType.code : MsgType → UInt8
  | tversion => 100
  | rversion => 101
  | tauth => 102
  | rauth => 103
  | tattach => 104
  | rattach => 105
  | rerror => 107
  | tflush => 108
  | rflush => 109
  | twalk => 110
  | rwalk => 111
  | topen => 112
  | ropen => 113
  | tcreate => 114
  | rcreate => 115
  | tread => 116
  | rread => 117
  | twrite => 118
  | rwrite => 119
  | tclunk => 120
  | rclunk => 121
  | tremove => 122
  | rremove => 123
  | tstat => 124
  | rstat => 125
  | twstat => 126
  | rwstat => 127

/-- The type with a given number, if there is one. -/
def MsgType.ofCode (c : UInt8) : Option MsgType :=
  [tversion, rversion, tauth, rauth, tattach, rattach, rerror, tflush, rflush, twalk, rwalk, topen,
    ropen, tcreate, rcreate, tread, rread, twrite, rwrite, tclunk, rclunk, tremove, rremove, tstat,
    rstat, twstat, rwstat].find? fun t => t.code == c

@[simp]
theorem MsgType.ofCode_code (t : MsgType) : MsgType.ofCode t.code = some t := by
  cases t <;> rfl

/-- `MAXWELEM`. -/
abbrev maxwelem : ℕ := 16

/-- `struct Qid`. -/
structure Qid where
  type : UInt8
  vers : UInt32
  path : UInt64
deriving DecidableEq

/-- `struct Fcall`, with `σ` for `char*` that points to a string and `δ` for a pointer to bytes.
The members of the union that belong to one type of message do not overlap. -/
structure Fcall (σ δ : Type) where
  type : UInt8
  fid : UInt32
  tag : UInt16
  msize : UInt32
  version : σ
  oldtag : UInt16
  ename : σ
  qid : Qid
  iounit : UInt32
  aqid : Qid
  afid : UInt32
  uname : σ
  aname : σ
  perm : UInt32
  name : σ
  mode : UInt8
  newfid : UInt32
  nwname : UInt16
  wname : Vector σ maxwelem
  nwqid : UInt16
  wqid : Vector Qid maxwelem
  offset : UInt64
  count : UInt32
  data : δ
  nstat : UInt16
  stat : δ

/-- A structure of zeros. -/
def Fcall.zero {σ δ : Type} (s : σ) (d : δ) : Fcall σ δ where
  type := 0
  fid := 0
  tag := 0
  msize := 0
  version := s
  oldtag := 0
  ename := s
  qid := ⟨0, 0, 0⟩
  iounit := 0
  aqid := ⟨0, 0, 0⟩
  afid := 0
  uname := s
  aname := s
  perm := 0
  name := s
  mode := 0
  newfid := 0
  nwname := 0
  wname := .replicate maxwelem s
  nwqid := 0
  wqid := .replicate maxwelem ⟨0, 0, 0⟩
  offset := 0
  count := 0
  data := d
  nstat := 0
  stat := d

/-- What a program hands to `convS2M`: strings, or null pointers, and memory. -/
abbrev SFcall := Fcall (Option CString) Buffer

/-- What `convM2S` returns: addresses. -/
abbrev MFcall := Fcall ℕ ℕ

/-! ### From structures to messages -/

/-- The bytes of a string, none for a null pointer. -/
def cbytes : Option CString → List UInt8
  | none => []
  | some s => s.bytes

/-- `stringsz`. -/
def stringsz (s : Option CString) : ℕ := 2 + (cbytes s).length

/-- The loop over `f->wname` in `sizeS2M`, which stops at `f->nwname` only. -/
def wnamesz (wname : Vector (Option CString) maxwelem) : ℕ → ℕ → Except Stop ℕ
  | 0, _ => .ok 0
  | n + 1, i =>
    if h : i < maxwelem then do
      let m ← wnamesz wname n (i + 1)
      return stringsz wname[i] + m
    else .error .wild

/-- `QIDSZ`. -/
def qidsz : ℕ := 1 + 4 + 8

/-- `sizeS2M`. -/
def sizeS2M (f : SFcall) : Except Stop ℕ := do
  let n := 4 + 1 + 2
  match MsgType.ofCode f.type with
  | none => return 0
  | some t =>
    let m ← match t with
      | .tversion => pure (4 + stringsz f.version)
      | .tflush => pure 2
      | .tauth => pure (4 + stringsz f.uname + stringsz f.aname)
      | .tattach => pure (4 + 4 + stringsz f.uname + stringsz f.aname)
      | .twalk => do
        let m ← wnamesz f.wname f.nwname.toNat 0
        pure (4 + 4 + 2 + m)
      | .topen => pure (4 + 1)
      | .tcreate => pure (4 + stringsz f.name + 4 + 1)
      | .tread => pure (4 + 8 + 4)
      | .twrite => pure (4 + 8 + 4 + f.count.toNat)
      | .tclunk => pure 4
      | .tremove => pure 4
      | .tstat => pure 4
      | .twstat => pure (4 + 2 + f.nstat.toNat)
      | .rversion => pure (4 + stringsz f.version)
      | .rerror => pure (stringsz f.ename)
      | .rflush => pure 0
      | .rauth => pure qidsz
      | .rattach => pure qidsz
      | .rwalk => pure (2 + f.nwqid.toNat * qidsz)
      | .ropen => pure (qidsz + 4)
      | .rcreate => pure (qidsz + 4)
      | .rread => pure (4 + f.count.toNat)
      | .rwrite => pure 4
      | .rclunk => pure 0
      | .rremove => pure 0
      | .rstat => pure (2 + f.nstat.toNat)
      | .rwstat => pure 0
    return (n + m) % 2 ^ 32

/-- What writes a message: the bytes from `ap` on that have been written. -/
abbrev Encoder := StateT (List UInt8) (Except Stop)

section Encoder

variable (nap : ℕ)

/-- Write bytes at `p` and move `p` behind them; there is room for `nap` bytes. -/
def put (bs : List UInt8) : Encoder Unit := fun out =>
  if out.length + bs.length ≤ nap then .ok ((), out ++ bs) else .error .wild

/-- `PBIT8`. -/
def pbit8 (v : UInt8) : Encoder Unit := put nap (leBytes 1 v.toNat)

/-- `PBIT16`. -/
def pbit16 (v : UInt16) : Encoder Unit := put nap (leBytes 2 v.toNat)

/-- `PBIT32`. -/
def pbit32 (v : UInt32) : Encoder Unit := put nap (leBytes 4 v.toNat)

/-- `PBIT64`. -/
def pbit64 (v : UInt64) : Encoder Unit := put nap (leBytes 8 v.toNat)

/-- `pstring`. The length is kept in a `uint`, and two bytes of it are written. -/
def pstring : Option CString → Encoder Unit
  | none => put nap (leBytes 2 0)
  | some s =>
    let n := s.bytes.length % 2 ^ 32
    put nap (leBytes 2 n ++ s.bytes.take n)

/-- `pqid`. -/
def pqid (q : Qid) : Encoder Unit := do
  pbit8 nap q.type
  pbit32 nap q.vers
  pbit64 nap q.path

/-- `memmove(p, d, n)`, and the move of `p`. -/
def pdata (d : Buffer) (n : ℕ) : Encoder Unit := put nap (d.load 0 n)

/-- The loops over `f->wname` and `f->wqid`. -/
def pelems {α : Type} (pelem : α → Encoder Unit) (elems : Vector α maxwelem) :
    ℕ → ℕ → Encoder Unit
  | 0, _ => pure ()
  | n + 1, i =>
    if h : i < maxwelem then do
      pelem elems[i]
      pelems pelem elems n (i + 1)
    else throw .wild

/-- The switch of `convS2M`. -/
def convBody (f : SFcall) : MsgType → Encoder Unit
  | .tversion => do
    pbit32 nap f.msize
    pstring nap f.version
  | .tflush => pbit16 nap f.oldtag
  | .tauth => do
    pbit32 nap f.afid
    pstring nap f.uname
    pstring nap f.aname
  | .tattach => do
    pbit32 nap f.fid
    pbit32 nap f.afid
    pstring nap f.uname
    pstring nap f.aname
  | .twalk => do
    pbit32 nap f.fid
    pbit32 nap f.newfid
    pbit16 nap f.nwname
    if f.nwname.toNat > maxwelem then throw .refused
    else pelems (pstring nap) f.wname f.nwname.toNat 0
  | .topen => do
    pbit32 nap f.fid
    pbit8 nap f.mode
  | .tcreate => do
    pbit32 nap f.fid
    pstring nap f.name
    pbit32 nap f.perm
    pbit8 nap f.mode
  | .tread => do
    pbit32 nap f.fid
    pbit64 nap f.offset
    pbit32 nap f.count
  | .twrite => do
    pbit32 nap f.fid
    pbit64 nap f.offset
    pbit32 nap f.count
    pdata nap f.data f.count.toNat
  | .tclunk => pbit32 nap f.fid
  | .tremove => pbit32 nap f.fid
  | .tstat => pbit32 nap f.fid
  | .twstat => do
    pbit32 nap f.fid
    pbit16 nap f.nstat
    pdata nap f.stat f.nstat.toNat
  | .rversion => do
    pbit32 nap f.msize
    pstring nap f.version
  | .rerror => pstring nap f.ename
  | .rflush => pure ()
  | .rauth => pqid nap f.aqid
  | .rattach => pqid nap f.qid
  | .rwalk => do
    pbit16 nap f.nwqid
    if f.nwqid.toNat > maxwelem then throw .refused
    else pelems (pqid nap) f.wqid f.nwqid.toNat 0
  | .ropen => do
    pqid nap f.qid
    pbit32 nap f.iounit
  | .rcreate => do
    pqid nap f.qid
    pbit32 nap f.iounit
  | .rread => do
    pbit32 nap f.count
    pdata nap f.data f.count.toNat
  | .rwrite => pbit32 nap f.count
  | .rclunk => pure ()
  | .rremove => pure ()
  | .rstat => do
    pbit16 nap f.nstat
    pdata nap f.stat f.nstat.toNat
  | .rwstat => pure ()

/-- What `convS2M` writes. -/
def writeMsg (f : SFcall) (size : ℕ) : Encoder Unit := do
  put nap (leBytes 4 size)
  pbit8 nap f.type
  pbit16 nap f.tag
  match MsgType.ofCode f.type with
  | none => throw .refused
  | some t => convBody nap f t

end Encoder

/-- `convS2M`. It is `refused` that stands for `return 0`. The result is the size and what has been
written. -/
def convS2M (f : SFcall) (nap : ℕ) : Except Stop (ℕ × List UInt8) := do
  let size ← sizeS2M f
  if size = 0 then throw .refused
  else if size > nap then throw .refused
  else do
    let ((), out) ← (writeMsg nap f size).run []
    if size ≠ out.length then throw .refused
    else return (size, out)

/-! ### From messages to structures -/

section Decoder

variable (r : Region)

/-- `GBIT8`, and the move of `p`. -/
def gbit8 : Decoder UInt8 := do return UInt8.ofNat (← number r 1)

/-- `GBIT16`, and the move of `p`. -/
def gbit16 : Decoder UInt16 := do return UInt16.ofNat (← number r 2)

/-- `GBIT32`, and the move of `p`. -/
def gbit32 : Decoder UInt32 := do return UInt32.ofNat (← number r 4)

/-- `GBIT64`, and the move of `p`. -/
def gbit64 : Decoder UInt64 := do return UInt64.ofNat (← number r 8)

/-- `gstring`: the string is moved down, on top of the count, to make room for the zero. -/
def gstring : Decoder ℕ := do
  room r 2
  let n := leVal (← load r 0 2)
  skip r 1
  room r (n + 1)
  let s ← load r 1 n
  store r (s ++ [0])
  let p ← here
  skip r (n + 1)
  return p

/-- `gqid`. -/
def gqid : Decoder Qid := do
  room r qidsz
  let type ← gbit8 r
  let vers ← gbit32 r
  let path ← gbit64 r
  return ⟨type, vers, path⟩

/-- The loops over `f->wname` and `f->wqid`. -/
def gelems {α : Type} (gelem : Decoder α) : ℕ → ℕ → Vector α maxwelem → Decoder (Vector α maxwelem)
  | 0, _, elems => pure elems
  | n + 1, i, elems => do
    let x ← gelem
    if h : i < maxwelem then gelems gelem n (i + 1) (elems.set i x)
    else throw .wild

/-- The switch of `convM2S`. -/
def parseBody (f : MFcall) : MsgType → Decoder MFcall
  | .tversion => do
    room r 4
    let msize ← gbit32 r
    let version ← gstring r
    return { f with msize, version }
  | .tflush => do
    room r 2
    let oldtag ← gbit16 r
    return { f with oldtag }
  | .tauth => do
    room r 4
    let afid ← gbit32 r
    let uname ← gstring r
    let aname ← gstring r
    return { f with afid, uname, aname }
  | .tattach => do
    room r 4
    let fid ← gbit32 r
    room r 4
    let afid ← gbit32 r
    let uname ← gstring r
    let aname ← gstring r
    return { f with fid, afid, uname, aname }
  | .twalk => do
    room r (4 + 4 + 2)
    let fid ← gbit32 r
    let newfid ← gbit32 r
    let nwname ← gbit16 r
    if nwname.toNat > maxwelem then throw .refused
    else do
      let wname ← gelems (gstring r) nwname.toNat 0 f.wname
      return { f with fid, newfid, nwname, wname }
  | .topen => do
    room r (4 + 1)
    let fid ← gbit32 r
    let mode ← gbit8 r
    return { f with fid, mode }
  | .tcreate => do
    room r 4
    let fid ← gbit32 r
    let name ← gstring r
    room r (4 + 1)
    let perm ← gbit32 r
    let mode ← gbit8 r
    return { f with fid, name, perm, mode }
  | .tread => do
    room r (4 + 8 + 4)
    let fid ← gbit32 r
    let offset ← gbit64 r
    let count ← gbit32 r
    return { f with fid, offset, count }
  | .twrite => do
    room r (4 + 8 + 4)
    let fid ← gbit32 r
    let offset ← gbit64 r
    let count ← gbit32 r
    let data ← bulk r count.toNat
    return { f with fid, offset, count, data }
  | .tclunk => do
    room r 4
    let fid ← gbit32 r
    return { f with fid }
  | .tremove => do
    room r 4
    let fid ← gbit32 r
    return { f with fid }
  | .tstat => do
    room r 4
    let fid ← gbit32 r
    return { f with fid }
  | .twstat => do
    room r (4 + 2)
    let fid ← gbit32 r
    let nstat ← gbit16 r
    let stat ← bulk r nstat.toNat
    return { f with fid, nstat, stat }
  | .rversion => do
    room r 4
    let msize ← gbit32 r
    let version ← gstring r
    return { f with msize, version }
  | .rerror => do
    let ename ← gstring r
    return { f with ename }
  | .rflush => pure f
  | .rauth => do
    let aqid ← gqid r
    return { f with aqid }
  | .rattach => do
    let qid ← gqid r
    return { f with qid }
  | .rwalk => do
    room r 2
    let nwqid ← gbit16 r
    if nwqid.toNat > maxwelem then throw .refused
    else do
      let wqid ← gelems (gqid r) nwqid.toNat 0 f.wqid
      return { f with nwqid, wqid }
  | .ropen => do
    let qid ← gqid r
    room r 4
    let iounit ← gbit32 r
    return { f with qid, iounit }
  | .rcreate => do
    let qid ← gqid r
    room r 4
    let iounit ← gbit32 r
    return { f with qid, iounit }
  | .rread => do
    room r 4
    let count ← gbit32 r
    let data ← bulk r count.toNat
    return { f with count, data }
  | .rwrite => do
    room r 4
    let count ← gbit32 r
    return { f with count }
  | .rclunk => pure f
  | .rremove => pure f
  | .rstat => do
    room r 2
    let nstat ← gbit16 r
    let stat ← bulk r nstat.toNat
    return { f with nstat, stat }
  | .rwstat => pure f

/-- `convM2S`, up to its last test: the size the message begins with, and the structure. -/
def parse (f : MFcall) : Decoder (ℕ × MFcall) := do
  room r (4 + 1 + 2)
  let size ← gbit32 r
  if size.toNat < 4 + 1 + 2 then throw .refused
  else do
    let type ← gbit8 r
    let tag ← gbit16 r
    match MsgType.ofCode type with
    | none => throw .refused
    | some t => do
      let f ← parseBody r { f with type, tag } t
      return (size.toNat, f)

end Decoder

/-- `convM2S` on the message `mem` at an address; `f` is what the structure holds before. The
result is the size, the structure, and the message with its strings moved. -/
def convM2S (r : Region) (mem : List UInt8) (f : MFcall) :
    Except Stop (ℕ × MFcall × List UInt8) := do
  let ((size, f), c) ← (parse r f).run ⟨r.addr, mem⟩
  if c.p = 0 ∨ c.p > r.addr + mem.length then throw .refused
  else if (r.addr + size) % r.space = c.p then return (size, f, c.mem)
  else throw .refused

end Libc

end Plan9
