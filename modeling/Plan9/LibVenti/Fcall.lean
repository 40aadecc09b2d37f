import Mathlib.Data.List.TakeWhile
import Plan9.Lib.Reader
import Plan9.LibVenti.ByteString
import Plan9.LibVenti.Dtype

/-!
# The venti wire codec

`fcall.c` packs a message of the venti protocol into a packet and unpacks it
again. Packing appends to a byte string; unpacking is a reader of the byte string
that copies what it reads to places of a fixed size – the local buffer of four
bytes, the score, memory just allocated – so that the model can say when a copy
does not fit.

* `Plan9.LibVenti.vtGetString_stringBytes` – strings go over the wire unchanged;
* `Plan9.LibVenti.unpackBody_pack` – what was packed is unpacked, message type by
  message type;
* `Plan9.LibVenti.overrun_iff` – the packets whose unpacking writes out of bounds;
* `Plan9.LibVenti.vtFcall_codec_iff` – the codec returns every message but the
  greetings that name a crypto or a codec, whose bytes go to the local buffer.
-/

namespace Plan9

namespace LibVenti

open Lib Venti List

/-! ### Messages -/

/-- A C string: bytes up to the terminating zero. -/
@[ext]
structure CString where
  bytes : List UInt8
  noZero : 0 ∉ bytes
deriving DecidableEq

/-- The C string at the start of some memory. -/
def CString.read (mem : List UInt8) : CString where
  bytes := mem.takeWhile (· ≠ 0)
  noZero h := by simpa using List.mem_takeWhile_imp h

/-- `VtMaxStringSize`. -/
def vtMaxStringSize : ℕ := 1024

/-- The message types `vtfcallpack` and `vtfcallunpack` know. -/
inductive VtMsg
  | rerror
  | tping
  | rping
  | thello
  | rhello
  | tgoodbye
  | tread
  | rread
  | twrite
  | rwrite
  | tsync
  | rsync
deriving DecidableEq

/-- The numbers of the message types. -/
def VtMsg.code : VtMsg → UInt8
  | rerror => 1
  | tping => 2
  | rping => 3
  | thello => 4
  | rhello => 5
  | tgoodbye => 6
  | tread => 12
  | rread => 13
  | twrite => 14
  | rwrite => 15
  | tsync => 16
  | rsync => 17

/-- The message type with a given number, if there is one. -/
def VtMsg.ofCode (c : UInt8) : Option VtMsg :=
  [rerror, tping, rping, thello, rhello, tgoodbye, tread, rread, twrite, rwrite, tsync,
    rsync].find? fun m => m.code == c

@[simp]
theorem VtMsg.ofCode_code (m : VtMsg) : VtMsg.ofCode m.code = some m := by
  cases m <;> rfl

variable {m : VtMsg}

theorem VtMsg.code_of_ofCode {c : UInt8} (h : VtMsg.ofCode c = some m) : m.code = c := by
  simpa using List.find?_some h

/-- `struct VtFcall`. A pointer to bytes is the bytes it points to; the strings
and the packet may be absent. -/
structure VtFcall where
  msgtype : UInt8 := 0
  tag : UInt8 := 0
  error : Option CString := none
  version : Option CString := none
  uid : Option CString := none
  strength : UInt8 := 0
  crypto : List UInt8 := []
  ncrypto : ℕ := 0
  codec : List UInt8 := []
  ncodec : ℕ := 0
  sid : Option CString := none
  rcrypto : UInt8 := 0
  rcodec : UInt8 := 0
  score : Score := Vector.replicate 20 0
  blocktype : UInt8 := 0
  count : UInt16 := 0
  data : Option ByteString := none
deriving DecidableEq

/-! ### Packing -/

/-- `vtputstring`: a length of two bytes and the string. -/
def vtPutString (p : ByteString) : Option CString → Except String ByteString
  | none => .error "null string in packet"
  | some s =>
    let n := s.bytes.length
    if n > vtMaxStringSize then .error "string too long in packet"
    else .ok (p ++ [UInt8.ofNat (n >>> 8), UInt8.ofNat n] ++ s.bytes)

/-- The byte of the block type in `VtTread` and `VtTwrite`. The test the source
makes of it, `~buf[0] == 0`, is false of every byte, which C promotes to `int`
first. -/
def packBlockType (blocktype : UInt8) : UInt8 := UInt8.ofNat (vtToDiskType blocktype.toNat)

/-- `packetconcat` of the message's data. Without a packet the code would follow
a null pointer. -/
def concatData (p : ByteString) : Option ByteString → Except String ByteString
  | none => .error "null packet"
  | some data => .ok (p ++ data)

/-- `vtfcallpack`. (The packet `data` points to is emptied into the result.) -/
def vtFcallPack (f : VtFcall) : Except String ByteString := do
  let p : ByteString := [f.msgtype, f.tag]
  match VtMsg.ofCode f.msgtype with
  | none => .error s!"vtfcallpack: unknown packet type {f.msgtype.toNat}"
  | some .rerror => vtPutString p f.error
  | some .tping => .ok p
  | some .rping => .ok p
  | some .thello => do
    let p ← vtPutString p f.version
    let p ← vtPutString p f.uid
    let p := p ++ [f.strength, UInt8.ofNat f.ncrypto] ++ f.crypto.take f.ncrypto
    return p ++ [UInt8.ofNat f.ncodec] ++ f.codec.take f.ncodec
  | some .rhello => do
    let p ← vtPutString p f.sid
    return p ++ [f.rcrypto, f.rcodec]
  | some .tgoodbye => .ok p
  | some .tread =>
    .ok (p ++ f.score.toList ++ [packBlockType f.blocktype, 0,
      UInt8.ofNat (f.count.toNat >>> 8), UInt8.ofNat f.count.toNat])
  | some .rread => concatData p f.data
  | some .twrite => concatData (p ++ [packBlockType f.blocktype, 0, 0, 0]) f.data
  | some .rwrite => .ok (p ++ f.score.toList)
  | some .tsync => .ok p
  | some .rsync => .ok p

/-! ### Unpacking -/

/-- How unpacking ends without a message. -/
inductive Fault
  /-- `-1`, with the error reported. -/
  | error (msg : String)
  /-- `n` bytes were copied to a place that has room for `room`. -/
  | overrun (room n : ℕ)
deriving DecidableEq

/-- `packetconsume(p, buf, n)`, where `buf` has room for `room` bytes. -/
def packetConsume (room n : ℕ) : Reader Fault (List UInt8) := fun p =>
  match ByteString.consume p n with
  | .error e => .error (.error e)
  | .ok (b, rest) => if room < n then .error (.overrun room n) else .ok (b, rest)

/-- The label `Err`: whatever went wrong, the error is "bad packet". -/
def orBadPacket {α : Type} (r : Reader Fault α) : Reader Fault α := fun p =>
  match r p with
  | .error (.error _) => .error (.error "bad packet")
  | x => x

/-- `vtgetstring`: the string is read into memory of its own, with a zero behind
it. -/
def vtGetString : Reader Fault CString := do
  let buf ← packetConsume 2 2
  let n := (buf.getD 0 0).toNat <<< 8 + (buf.getD 1 0).toNat
  if n > vtMaxStringSize then throw (.error "string too long in packet")
  else do
    let s ← packetConsume (n + 1) n
    return CString.read (s ++ [0])

/-- The two allocations of `vtfcallunpack` that nothing is written to. -/
inductive Alloc
  | crypto
  | codec

/-- `vtmalloc`: memory whose contents are whatever the heap holds there. -/
def vtMalloc (heap : Alloc → ℕ → UInt8) (a : Alloc) (n : ℕ) : List UInt8 :=
  (List.range n).map (heap a)

/-- One of the two byte vectors of a greeting: `n` bytes are allocated for the
field and `n` bytes are consumed – into `buf`, which has room for four. -/
def unpackVector (heap : Alloc → ℕ → UInt8) (a : Alloc) (n : ℕ) :
    Reader Fault (List UInt8) := do
  if n ≠ 0 then do
    let mem := vtMalloc heap a n
    let _ ← packetConsume 4 n
    return mem
  else return []

/-- The score that twenty bytes spell. -/
def scoreOf (b : List UInt8) : Score := Vector.ofFn fun i => b.getD i 0

/-- `packetconcat` of the rest of the packet to an empty packet. -/
def takeData : Reader Fault ByteString := fun p => .ok (p, [])

/-- The `switch` of `vtfcallunpack`: the fields of one message type. -/
def unpackBody (heap : Alloc → ℕ → UInt8) (f : VtFcall) : VtMsg → Reader Fault VtFcall
  | .rerror => do
    let error ← vtGetString
    return { f with error := some error }
  | .tping => return f
  | .rping => return f
  | .thello => do
    let version ← vtGetString
    let uid ← vtGetString
    let buf ← packetConsume 4 2
    let ncrypto := (buf.getD 1 0).toNat
    let crypto ← unpackVector heap .crypto ncrypto
    let buf' ← packetConsume 4 1
    let ncodec := (buf'.getD 0 0).toNat
    let codec ← unpackVector heap .codec ncodec
    return { f with
      version := some version, uid := some uid, strength := buf.getD 0 0,
      crypto := crypto, ncrypto := ncrypto, codec := codec, ncodec := ncodec }
  | .rhello => do
    let sid ← vtGetString
    let buf ← packetConsume 4 2
    return { f with sid := some sid, rcrypto := buf.getD 0 0, rcodec := buf.getD 1 0 }
  | .tgoodbye => return f
  | .tread => do
    let score ← packetConsume vtScoreSize vtScoreSize
    let buf ← packetConsume 4 4
    -- `~f->blocktype == 0` does not hold of any byte
    return { f with
      score := scoreOf score, blocktype := UInt8.ofNat (vtFromDiskType (buf.getD 0 0).toNat),
      count := UInt16.ofNat ((buf.getD 2 0).toNat <<< 8 ||| (buf.getD 3 0).toNat) }
  | .rread => do
    let data ← takeData
    return { f with data := some data }
  | .twrite => do
    let buf ← packetConsume 4 4
    let data ← takeData
    return { f with
      blocktype := UInt8.ofNat (vtFromDiskType (buf.getD 0 0).toNat), data := some data }
  | .rwrite => do
    let score ← packetConsume vtScoreSize vtScoreSize
    return { f with score := scoreOf score }
  | .tsync => return f
  | .rsync => return f

/-- The test after the `switch`: nothing may be left. -/
def atEnd : Reader Fault Unit := fun p =>
  if p.length ≠ 0 then .error (.error "bad packet") else .ok ((), p)

/-- `vtfcallunpack`, as a reader. -/
def unpackFcall (heap : Alloc → ℕ → UInt8) : Reader Fault VtFcall := do
  let buf ← packetConsume 4 2
  let f : VtFcall := { msgtype := buf.getD 0 0, tag := buf.getD 1 0 }
  match VtMsg.ofCode f.msgtype with
  | none => throw (.error s!"vtfcallunpack: unknown bad packet type {f.msgtype.toNat}")
  | some m => orBadPacket do
    let f ← unpackBody heap f m
    atEnd
    return f

/-- `vtfcallunpack`: unpack a whole packet. -/
def vtFcallUnpack (heap : Alloc → ℕ → UInt8) (p : ByteString) : Except Fault VtFcall :=
  ((unpackFcall heap).run p).map (·.1)

/-! ### What the readers read -/

variable {room n : ℕ} {p b q : List UInt8}

theorem packetConsume_eq_ok :
    (packetConsume room n).run p = .ok (b, q) ↔ p = b ++ q ∧ b.length = n ∧ n ≤ room := by
  have hrun : (packetConsume room n).run p = packetConsume room n p := rfl
  rw [hrun, packetConsume]
  rcases Nat.lt_or_ge p.length n with hn | hn
  · rw [ByteString.consume_eq_error hn]
    simp only [reduceCtorEq, false_iff]
    rintro ⟨rfl, hb, _⟩
    rw [length_append] at hn
    omega
  · rw [ByteString.consume_eq_ok hn]
    by_cases hroom : room < n
    · simp only [if_pos hroom, reduceCtorEq, false_iff]
      omega
    · simp only [if_neg hroom, Except.ok.injEq, Prod.mk.injEq]
      constructor
      · rintro ⟨rfl, rfl⟩
        exact ⟨(take_append_drop n p).symm, by simpa using hn, by omega⟩
      · rintro ⟨rfl, rfl, _⟩
        simp

theorem packetConsume_eq_overrun {r k : ℕ} : (packetConsume room n).run p = .error (.overrun r k) ↔
      room < n ∧ n ≤ p.length ∧ r = room ∧ k = n := by
  have hrun : (packetConsume room n).run p = packetConsume room n p := rfl
  rw [hrun, packetConsume]
  rcases Nat.lt_or_ge p.length n with hn | hn
  · rw [ByteString.consume_eq_error hn]
    simp only [Except.error.injEq, reduceCtorEq, false_iff]
    omega
  · rw [ByteString.consume_eq_ok hn]
    by_cases hroom : room < n
    · simp only [if_pos hroom, Except.error.injEq, Fault.overrun.injEq]
      omega
    · simp only [if_neg hroom, reduceCtorEq, false_iff]
      omega

/-- A string on the wire: its length in two bytes, at most `vtMaxStringSize`, and as
many bytes. -/
def WireString (b : List UInt8) : Prop :=
  ∃ hi lo s, b = hi :: lo :: s ∧ s.length = hi.toNat <<< 8 + lo.toNat ∧
    s.length ≤ vtMaxStringSize

variable {s : CString}

/-- **`vtgetstring` reads the strings of the wire**, and of their bytes those before
the first zero. -/
theorem vtGetString_eq_ok : vtGetString.run p = .ok (s, q) ↔
      ∃ b, WireString b ∧ p = b ++ q ∧ s = CString.read (b.drop 2 ++ [0]) := by
  rw [vtGetString, run_bind_eq_ok]
  constructor
  · rintro ⟨buf, p₁, hbuf, h⟩
    obtain ⟨rfl, hlen, _⟩ := packetConsume_eq_ok.1 hbuf
    obtain ⟨hi, lo, rfl⟩ := length_eq_two.1 hlen
    simp only [getD_cons_zero, getD_cons_succ] at h
    split at h
    · exact absurd h run_throw_ne_ok
    · next hmax =>
      obtain ⟨t, p₂, ht, hread⟩ := run_bind_eq_ok.1 h
      obtain ⟨rfl, hlen', _⟩ := packetConsume_eq_ok.1 ht
      obtain ⟨rfl, rfl⟩ := run_pure_eq_ok.1 hread
      exact ⟨hi :: lo :: t, ⟨hi, lo, t, rfl, hlen', by omega⟩, by simp, rfl⟩
  · rintro ⟨b, ⟨hi, lo, t, rfl, hlen, hmax⟩, rfl, rfl⟩
    refine ⟨[hi, lo], t ++ q, packetConsume_eq_ok.2 ⟨by simp, rfl, le_rfl⟩, ?_⟩
    simp only [getD_cons_zero, getD_cons_succ, ← hlen, if_neg (Nat.not_lt.2 hmax)]
    exact run_bind_eq_ok.2 ⟨t, q, packetConsume_eq_ok.2 ⟨rfl, rfl, by omega⟩,
      run_pure_eq_ok.2 ⟨rfl, rfl⟩⟩

theorem vtGetString_append (hb : WireString b) (q : List UInt8) :
    vtGetString.run (b ++ q) = .ok (CString.read (b.drop 2 ++ [0]), q) :=
  vtGetString_eq_ok.2 ⟨b, hb, rfl, rfl⟩

variable {heap : Alloc → ℕ → UInt8}

theorem unpackVector_eq_ok {a : Alloc} {mem : List UInt8} :
    (unpackVector heap a n).run p = .ok (mem, q) ↔
      mem = vtMalloc heap a n ∧ n ≤ 4 ∧ ∃ c, p = c ++ q ∧ c.length = n := by
  rw [unpackVector]
  by_cases hn : n = 0
  · subst hn
    rw [if_neg (not_not.2 rfl), run_pure_eq_ok]
    constructor
    · rintro ⟨rfl, rfl⟩
      exact ⟨rfl, by omega, [], rfl, rfl⟩
    · rintro ⟨rfl, _, c, rfl, hc⟩
      rw [length_eq_zero_iff.1 hc]
      exact ⟨rfl, rfl⟩
  · rw [if_pos hn, run_bind_eq_ok]
    constructor
    · rintro ⟨c, q', hc, hmem⟩
      obtain ⟨rfl, hlen, hle⟩ := packetConsume_eq_ok.1 hc
      obtain ⟨rfl, rfl⟩ := run_pure_eq_ok.1 hmem
      exact ⟨rfl, hle, c, rfl, hlen⟩
    · rintro ⟨rfl, hle, c, rfl, hlen⟩
      exact ⟨c, q, packetConsume_eq_ok.2 ⟨rfl, hlen, hle⟩, run_pure_eq_ok.2 ⟨rfl, rfl⟩⟩

theorem unpackVector_eq_overrun {a : Alloc} {k : ℕ} :
    (unpackVector heap a n).run p = .error (.overrun room k) ↔
      4 < n ∧ n ≤ p.length ∧ room = 4 ∧ k = n := by
  rw [unpackVector]
  by_cases hn : n = 0
  · rw [if_neg (not_not.2 hn)]
    exact iff_of_false run_pure_ne_error (by omega)
  · rw [if_pos hn, run_bind_eq_error, packetConsume_eq_overrun]
    refine ⟨fun h => h.resolve_right ?_, Or.inl⟩
    rintro ⟨_, _, _, h⟩
    exact run_pure_ne_error h

/-! ### Where unpacking writes out of bounds -/

/-- The reader stays within the places it copies to. -/
def NoOverrun {α : Type} (r : Reader Fault α) : Prop :=
  ∀ p room n, r.run p ≠ .error (.overrun room n)

variable {α : Type}

theorem NoOverrun.pure (a : α) : NoOverrun (pure a : Reader Fault α) :=
  fun _ _ _ => run_pure_ne_error

theorem NoOverrun.throw (msg : String) : NoOverrun (throw (.error msg) : Reader Fault α) := by
  intro p room n h
  exact Fault.noConfusion (run_throw_eq_error.1 h)

theorem NoOverrun.bind {β : Type} {r : Reader Fault α} {k : α → Reader Fault β} (hr : NoOverrun r)
    (hk : ∀ a, NoOverrun (k a)) : NoOverrun (r >>= k) := by
  intro p room n h
  rcases run_bind_eq_error.1 h with h | ⟨a, p', _, h⟩
  · exact hr p room n h
  · exact hk a p' room n h

theorem NoOverrun.consume (h : n ≤ room) : NoOverrun (packetConsume room n) := by
  intro p r k hrun
  have := packetConsume_eq_overrun.1 hrun
  omega

theorem NoOverrun.takeData : NoOverrun takeData := fun _ _ _ => nofun

theorem NoOverrun.vtGetString : NoOverrun vtGetString := by
  refine (NoOverrun.consume le_rfl).bind fun buf => ?_
  dsimp only
  split
  · exact .throw _
  · exact (NoOverrun.consume (Nat.le_succ _)).bind fun _ => .pure _

/-- Only a greeting is unpacked into places too small for it. -/
theorem NoOverrun.unpackBody (heap : Alloc → ℕ → UInt8) (f : VtFcall) (hm : m ≠ .thello) :
    NoOverrun (unpackBody heap f m) := by
  cases m with
  | thello => exact absurd rfl hm
  | rerror => exact NoOverrun.vtGetString.bind fun _ => .pure _
  | rhello =>
    exact NoOverrun.vtGetString.bind fun _ =>
      (NoOverrun.consume (by omega)).bind fun _ => .pure _
  | tread =>
    exact (NoOverrun.consume le_rfl).bind fun _ =>
      (NoOverrun.consume le_rfl).bind fun _ => .pure _
  | rread => exact NoOverrun.takeData.bind fun _ => .pure _
  | twrite =>
    exact (NoOverrun.consume le_rfl).bind fun _ => NoOverrun.takeData.bind fun _ => .pure _
  | rwrite => exact (NoOverrun.consume le_rfl).bind fun _ => .pure _
  | tping | rping | tgoodbye | tsync | rsync => exact .pure _

/-- A byte vector that goes to the local buffer and does not fit: its length is
above four, and the packet has as many bytes. -/
def TooLong (n : UInt8) (r : List UInt8) : Prop := 4 < n.toNat ∧ n.toNat ≤ r.length

/-- The body of a greeting one of whose byte vectors is too long for the buffer. -/
def GreetingOverruns (p : List UInt8) : Prop :=
  ∃ version uid strength n r, WireString version ∧ WireString uid ∧
    p = version ++ (uid ++ strength :: n :: r) ∧
    (TooLong n r ∨
      n.toNat ≤ 4 ∧ ∃ crypto k t, crypto.length = n.toNat ∧ r = crypto ++ k :: t ∧ TooLong k t)

variable {f : VtFcall}

/-- **A greeting overruns the buffer** exactly if one of its vectors is too long. -/
theorem unpackBody_thello_eq_overrun :
    (∃ room k, (unpackBody heap f .thello).run p = .error (.overrun room k)) ↔
      GreetingOverruns p := by
  constructor
  · rintro ⟨room, k, h⟩
    rw [unpackBody, run_bind_eq_error] at h
    obtain ⟨_, p₁, hversion, h₁⟩ := h.resolve_left (NoOverrun.vtGetString _ _ _)
    obtain ⟨version, hv, rfl, _⟩ := vtGetString_eq_ok.1 hversion
    rw [run_bind_eq_error] at h₁
    obtain ⟨_, p₂, huid, h₂⟩ := h₁.resolve_left (NoOverrun.vtGetString _ _ _)
    obtain ⟨uid, hu, rfl, _⟩ := vtGetString_eq_ok.1 huid
    rw [run_bind_eq_error] at h₂
    obtain ⟨buf, p₃, hbuf, h₃⟩ := h₂.resolve_left (NoOverrun.consume (by omega) _ _ _)
    obtain ⟨rfl, hlen, _⟩ := packetConsume_eq_ok.1 hbuf
    obtain ⟨strength, n, rfl⟩ := length_eq_two.1 hlen
    refine ⟨version, uid, strength, n, p₃, hv, hu, rfl, ?_⟩
    -- the first vector, or behind it the second
    rcases run_bind_eq_error.1 h₃ with h₄ | ⟨_, p₄, hcrypto, h₄⟩
    · obtain ⟨hlt, hle, _⟩ := unpackVector_eq_overrun.1 h₄
      exact .inl ⟨hlt, hle⟩
    · obtain ⟨_, hle, crypto, rfl, hclen⟩ := unpackVector_eq_ok.1 hcrypto
      rw [run_bind_eq_error] at h₄
      obtain ⟨buf', p₅, hbuf', h₅⟩ := h₄.resolve_left (NoOverrun.consume (by omega) _ _ _)
      obtain ⟨rfl, hlen', _⟩ := packetConsume_eq_ok.1 hbuf'
      obtain ⟨k', rfl⟩ := length_eq_one_iff.1 hlen'
      rcases run_bind_eq_error.1 h₅ with h₆ | ⟨_, _, _, h₆⟩
      · obtain ⟨hlt, hle', _⟩ := unpackVector_eq_overrun.1 h₆
        exact .inr ⟨hle, crypto, k', p₅, hclen, rfl, hlt, hle'⟩
      · exact absurd h₆ run_pure_ne_error
  · rintro ⟨version, uid, strength, n, r, hv, hu, rfl, htail⟩
    have hbuf : (packetConsume 4 2).run (strength :: n :: r) = .ok ([strength, n], r) :=
      packetConsume_eq_ok.2 ⟨rfl, rfl, by omega⟩
    rw [unpackBody, run_bind_of_ok (vtGetString_append hv _),
      run_bind_of_ok (vtGetString_append hu _), run_bind_of_ok hbuf]
    rcases htail with ⟨hlt, hle⟩ | ⟨hle, crypto, k, t, hclen, rfl, hlt, hle'⟩
    · exact ⟨_, _, run_bind_eq_error.2 (.inl (unpackVector_eq_overrun.2 ⟨hlt, hle, rfl, rfl⟩))⟩
    · have hcrypto : (unpackVector heap .crypto n.toNat).run (crypto ++ k :: t) =
          .ok (vtMalloc heap .crypto n.toNat, k :: t) :=
        unpackVector_eq_ok.2 ⟨rfl, hle, crypto, rfl, hclen⟩
      have hbuf' : (packetConsume 4 1).run (k :: t) = .ok ([k], t) :=
        packetConsume_eq_ok.2 ⟨rfl, rfl, by omega⟩
      simp only [getD_cons_succ, getD_cons_zero]
      rw [run_bind_of_ok hcrypto, run_bind_of_ok hbuf']
      exact ⟨_, _, run_bind_eq_error.2
        (.inl (unpackVector_eq_overrun.2 ⟨hlt, hle', rfl, rfl⟩))⟩

theorem orBadPacket_eq_ok {r : Reader Fault α} {a : α} :
    (orBadPacket r).run p = .ok (a, q) ↔ r.run p = .ok (a, q) := by
  change orBadPacket r p = _ ↔ r p = _
  rw [orBadPacket]
  rcases r p with (_ | _) | _ <;> simp

theorem orBadPacket_eq_overrun {r : Reader Fault α} :
    (orBadPacket r).run p = .error (.overrun room n) ↔ r.run p = .error (.overrun room n) := by
  change orBadPacket r p = _ ↔ r p = _
  rw [orBadPacket]
  rcases r p with (_ | _) | _ <;> simp

theorem atEnd_eq_ok : atEnd.run p = .ok ((), q) ↔ p = [] ∧ q = [] := by
  change atEnd p = _ ↔ _
  rw [atEnd]
  cases p with
  | nil => simp [eq_comm]
  | cons a p => simp

theorem NoOverrun.atEnd : NoOverrun atEnd := by
  intro p room n h
  change LibVenti.atEnd p = _ at h
  rw [LibVenti.atEnd] at h
  split at h
  · simp at h
  · simp at h

/-- What `vtfcallunpack` makes of a packet whose message type it knows. -/
theorem unpackFcall_run (heap : Alloc → ℕ → UInt8) {c : UInt8} (hm : VtMsg.ofCode c = some m)
    (tag : UInt8) (p : List UInt8) :
    (unpackFcall heap).run (c :: tag :: p) = (orBadPacket do
        let f ← unpackBody heap { msgtype := c, tag := tag } m
        atEnd
        return f).run p := by
  have hbuf : (packetConsume 4 2).run (c :: tag :: p) = .ok ([c, tag], p) :=
    packetConsume_eq_ok.2 ⟨rfl, rfl, by omega⟩
  rw [unpackFcall, run_bind_of_ok hbuf]
  simp only [getD_cons_succ, getD_cons_zero, hm]

/-- **`vtfcallunpack` succeeds** exactly on two bytes, the first of them the number of
a message type, and a body that is read to its end. -/
theorem vtFcallUnpack_eq_ok : vtFcallUnpack heap p = .ok f ↔
      ∃ c tag q m, p = c :: tag :: q ∧ VtMsg.ofCode c = some m ∧
        (unpackBody heap { msgtype := c, tag := tag } m).run q = .ok (f, []) := by
  have hmap : vtFcallUnpack heap p = .ok f ↔ ∃ q, (unpackFcall heap).run p = .ok (f, q) := by
    rw [vtFcallUnpack]
    rcases (unpackFcall heap).run p with _ | ⟨g, q⟩
    · simp [Except.map]
    · simp [Except.map]
  rw [hmap]
  constructor
  · rintro ⟨rest, h⟩
    obtain ⟨buf, q, hbuf, -⟩ := run_bind_eq_ok.1 h
    obtain ⟨rfl, hlen, _⟩ := packetConsume_eq_ok.1 hbuf
    obtain ⟨c, tag, rfl⟩ := length_eq_two.1 hlen
    cases hm : VtMsg.ofCode c with
    | none =>
      rw [unpackFcall, run_bind_of_ok hbuf] at h
      simp only [getD_cons_zero, hm] at h
      exact absurd h run_throw_ne_ok
    | some m =>
      rw [cons_append, cons_append, nil_append, unpackFcall_run heap hm, orBadPacket_eq_ok] at h
      obtain ⟨g, q', hbody, hend⟩ := run_bind_eq_ok.1 h
      obtain ⟨_, q'', hat, hret⟩ := run_bind_eq_ok.1 hend
      obtain ⟨rfl, rfl⟩ := atEnd_eq_ok.1 hat
      obtain ⟨rfl, rfl⟩ := run_pure_eq_ok.1 hret
      exact ⟨c, tag, q, m, rfl, hm, hbody⟩
  · rintro ⟨c, tag, q, m, rfl, hm, hbody⟩
    refine ⟨[], ?_⟩
    rw [unpackFcall_run heap hm, orBadPacket_eq_ok, run_bind_of_ok hbody,
      run_bind_of_ok (atEnd_eq_ok.2 ⟨rfl, rfl⟩)]
    rfl

/-- **The packets whose unpacking writes out of bounds** are the greetings with a byte
vector too long for the local buffer. -/
theorem overrun_iff : (∃ room n, vtFcallUnpack heap p = .error (.overrun room n)) ↔
      ∃ tag q, p = VtMsg.thello.code :: tag :: q ∧ GreetingOverruns q := by
  have hmap : ∀ room n, vtFcallUnpack heap p = .error (.overrun room n) ↔
      (unpackFcall heap).run p = .error (.overrun room n) := by
    intro room n
    rw [vtFcallUnpack]
    rcases (unpackFcall heap).run p with _ | _
    · simp [Except.map]
    · simp [Except.map]
  simp only [hmap]
  have hbody : ∀ {c : UInt8} {m : VtMsg}, VtMsg.ofCode c = some m → ∀ tag q room n,
      (unpackFcall heap).run (c :: tag :: q) = .error (.overrun room n) ↔
        (unpackBody heap { msgtype := c, tag := tag } m).run q = .error (.overrun room n) := by
    intro c m hm tag q room n
    rw [unpackFcall_run heap hm, orBadPacket_eq_overrun, run_bind_eq_error]
    refine ⟨fun h => h.resolve_right ?_, Or.inl⟩
    rintro ⟨f, q', _, h⟩
    exact NoOverrun.bind NoOverrun.atEnd (fun _ => .pure f) q' room n h
  constructor
  · rintro ⟨room, n, h⟩
    rcases run_bind_eq_error.1 h with h' | ⟨buf, q, hbuf, -⟩
    · exact absurd h' (NoOverrun.consume (by omega) _ _ _)
    · obtain ⟨rfl, hlen, _⟩ := packetConsume_eq_ok.1 hbuf
      obtain ⟨c, tag, rfl⟩ := length_eq_two.1 hlen
      cases hm : VtMsg.ofCode c with
      | none =>
        rw [unpackFcall, run_bind_of_ok hbuf] at h
        simp only [getD_cons_zero, hm] at h
        exact absurd h (NoOverrun.throw _ _ _ _)
      | some m =>
        have h' := (hbody hm tag q room n).1 h
        by_cases hthello : m = .thello
        · subst hthello
          refine ⟨tag, q, ?_, unpackBody_thello_eq_overrun.1 ⟨room, n, h'⟩⟩
          rw [VtMsg.code_of_ofCode hm]
          rfl
        · exact absurd h' (NoOverrun.unpackBody heap _ hthello _ _ _)
  · rintro ⟨tag, q, rfl, hq⟩
    obtain ⟨room, n, h⟩ := unpackBody_thello_eq_overrun.2 hq
    exact ⟨room, n, (hbody (VtMsg.ofCode_code .thello) tag q room n).2 h⟩

/-- The byte vectors of an unpacked greeting are what the heap held where they were
allocated. -/
theorem vectors_of_unpack {tag : UInt8}
    (h : vtFcallUnpack heap (VtMsg.thello.code :: tag :: q) = .ok f) :
    f.crypto = vtMalloc heap .crypto f.ncrypto ∧ f.codec = vtMalloc heap .codec f.ncodec := by
  obtain ⟨c, tag', q', m, hp, hm, hbody⟩ := vtFcallUnpack_eq_ok.1 h
  obtain ⟨rfl, rfl, rfl⟩ : VtMsg.thello.code = c ∧ tag = tag' ∧ q = q' := by simpa using hp
  obtain rfl : VtMsg.thello = m := by simpa using hm
  rw [unpackBody] at hbody
  obtain ⟨version, q₁, -, h₁⟩ := run_bind_eq_ok.1 hbody
  obtain ⟨uid, q₂, -, h₂⟩ := run_bind_eq_ok.1 h₁
  obtain ⟨buf, q₃, -, h₃⟩ := run_bind_eq_ok.1 h₂
  obtain ⟨crypto, q₄, hcrypto, h₄⟩ := run_bind_eq_ok.1 h₃
  obtain ⟨buf', q₅, -, h₅⟩ := run_bind_eq_ok.1 h₄
  obtain ⟨codec, q₆, hcodec, h₆⟩ := run_bind_eq_ok.1 h₅
  obtain ⟨rfl, -⟩ := run_pure_eq_ok.1 h₆
  exact ⟨(unpackVector_eq_ok.1 hcrypto).1, (unpackVector_eq_ok.1 hcodec).1⟩

/-! ### The round trip -/

/-- A string `vtputstring` takes. -/
def Puttable (s : Option CString) : Prop :=
  ∃ t, s = some t ∧ t.bytes.length ≤ vtMaxStringSize

/-- The messages of a type that can be packed: the strings are there and not too long,
the byte vectors have a length of one byte and as many bytes, the block type is one
that came from disk, and the data is there. -/
def Packable (f : VtFcall) : VtMsg → Prop
  | .rerror => Puttable f.error
  | .thello => Puttable f.version ∧ Puttable f.uid ∧ f.ncrypto ≤ 255 ∧
      f.ncrypto ≤ f.crypto.length ∧ f.ncodec ≤ 255 ∧ f.ncodec ≤ f.codec.length
  | .rhello => Puttable f.sid
  | .tread => ∃ n, f.blocktype.toNat = vtFromDiskType n
  | .rread => f.data.isSome
  | .twrite => (∃ n, f.blocktype.toNat = vtFromDiskType n) ∧ f.data.isSome
  | .tping | .rping | .tgoodbye | .rwrite | .tsync | .rsync => True

/-- Equality in every field of a message type. -/
def SameMessage (f g : VtFcall) (m : VtMsg) : Prop :=
  g.msgtype = f.msgtype ∧ g.tag = f.tag ∧
    match m with
    | .rerror => g.error = f.error
    | .thello => g.version = f.version ∧ g.uid = f.uid ∧ g.strength = f.strength ∧
        g.ncrypto = f.ncrypto ∧ g.crypto.take g.ncrypto = f.crypto.take f.ncrypto ∧
        g.ncodec = f.ncodec ∧ g.codec.take g.ncodec = f.codec.take f.ncodec
    | .rhello => g.sid = f.sid ∧ g.rcrypto = f.rcrypto ∧ g.rcodec = f.rcodec
    | .tread => g.score = f.score ∧ g.blocktype = f.blocktype ∧ g.count = f.count
    | .rread => g.data = f.data
    | .twrite => g.blocktype = f.blocktype ∧ g.data = f.data
    | .rwrite => g.score = f.score
    | .tping | .rping | .tgoodbye | .tsync | .rsync => True

/-- What `vtputstring` puts on the wire. -/
def stringBytes (s : CString) : List UInt8 :=
  UInt8.ofNat (s.bytes.length >>> 8) :: UInt8.ofNat s.bytes.length :: s.bytes

theorem vtPutString_eq (p : ByteString) (hs : s.bytes.length ≤ vtMaxStringSize) :
    vtPutString p (some s) = .ok (p ++ stringBytes s) := by
  simp [vtPutString, stringBytes, Nat.not_lt.2 hs]

/-- Two bytes carry a number below `2 ^ 16`. -/
theorem two_bytes (h : n < 2 ^ 16) :
    (UInt8.ofNat (n >>> 8)).toNat <<< 8 + (UInt8.ofNat n).toNat = n := by
  simp only [UInt8.toNat_ofNat', Nat.shiftLeft_eq, Nat.shiftRight_eq_div_pow]
  omega

theorem wireString_stringBytes (hs : s.bytes.length ≤ vtMaxStringSize) :
    WireString (stringBytes s) := by
  refine ⟨_, _, s.bytes, rfl, ?_, hs⟩
  have : vtMaxStringSize = 1024 := rfl
  rw [two_bytes (by omega)]

/-- A C string is read back from its own memory. -/
theorem read_noZero (s : CString) : CString.read (s.bytes ++ [0]) = s := by
  ext1
  have h : ∀ b ∈ s.bytes, decide (b ≠ 0) = true := by
    intro b hb
    have hne : b ≠ 0 := fun h => s.noZero (h ▸ hb)
    simpa using hne
  change (s.bytes ++ [0]).takeWhile (fun b => decide (b ≠ 0)) = s.bytes
  rw [takeWhile_append_of_pos h]
  simp

/-- **Strings go over the wire unchanged.** -/
theorem vtGetString_stringBytes (hs : s.bytes.length ≤ vtMaxStringSize) (q : List UInt8) :
    vtGetString.run (stringBytes s ++ q) = .ok (s, q) := by
  rw [vtGetString_append (wireString_stringBytes hs)]
  have : (stringBytes s).drop 2 = s.bytes := rfl
  rw [this, read_noZero]

theorem scoreOf_toList (score : Score) : scoreOf score.toList = score := by
  ext i hi
  simp [scoreOf]

/-- A block type that came from disk survives the wire. -/
theorem unpack_packBlockType {b : UInt8} (hb : b.toNat = vtFromDiskType n) :
    UInt8.ofNat (vtFromDiskType (packBlockType b).toNat) = b := by
  have hlt := vtToDiskType_fromDisk_lt n
  rw [packBlockType, hb, UInt8.toNat_ofNat_of_lt' hlt, vtFromDiskType_toDisk_fromDisk, ← hb,
    UInt8.ofNat_toNat]

theorem unpack_count (c : UInt16) :
    UInt16.ofNat ((UInt8.ofNat (c.toNat >>> 8)).toNat <<< 8 ||| (UInt8.ofNat c.toNat).toNat) =
      c := by
  have hc : c.toNat < 2 ^ 16 := c.toNat_lt
  have hlow : (UInt8.ofNat c.toNat).toNat < 2 ^ 8 := UInt8.toNat_lt _
  rw [← Nat.shiftLeft_add_eq_or_of_lt hlow, two_bytes hc, UInt16.ofNat_toNat]

/-- What `vtfcallpack` makes of a greeting. -/
theorem vtFcallPack_thello (hf : f.msgtype = VtMsg.thello.code) (h : Packable f .thello) :
    ∃ version uid, f.version = some version ∧ f.uid = some uid ∧
      version.bytes.length ≤ vtMaxStringSize ∧ uid.bytes.length ≤ vtMaxStringSize ∧
      vtFcallPack f = .ok (f.msgtype :: f.tag :: (stringBytes version ++ (stringBytes uid ++
        ([f.strength, UInt8.ofNat f.ncrypto] ++ (f.crypto.take f.ncrypto ++
          ([UInt8.ofNat f.ncodec] ++ f.codec.take f.ncodec)))))) := by
  obtain ⟨⟨version, hv, hvlen⟩, ⟨uid, hu, hulen⟩, -⟩ := h
  refine ⟨version, uid, hv, hu, hvlen, hulen, ?_⟩
  have hm : VtMsg.ofCode f.msgtype = some .thello := by rw [hf, VtMsg.ofCode_code]
  simp only [vtFcallPack, hm, hv, hu, vtPutString_eq _ hvlen, vtPutString_eq _ hulen, bind,
    Except.bind, pure, Except.pure]
  simp

/-- **What was packed is unpacked**, apart from greetings with byte vectors. -/
theorem unpackBody_pack (hf : f.msgtype = m.code) (h : Packable f m)
    (hvec : m = .thello → f.ncrypto = 0 ∧ f.ncodec = 0) (heap : Alloc → ℕ → UInt8) :
    ∃ q g, vtFcallPack f = .ok (f.msgtype :: f.tag :: q) ∧
      (unpackBody heap { msgtype := f.msgtype, tag := f.tag } m).run q = .ok (g, []) ∧
      SameMessage f g m := by
  have hm : VtMsg.ofCode f.msgtype = some m := by rw [hf, VtMsg.ofCode_code]
  let f₀ : VtFcall := { msgtype := f.msgtype, tag := f.tag }
  cases m with
  | tping | rping | tgoodbye | tsync | rsync =>
    refine ⟨[], f₀, ?_, rfl, ?_⟩
    · simp only [vtFcallPack, hm]
    · exact ⟨rfl, rfl, trivial⟩
  | rerror =>
    obtain ⟨s, hs, hlen⟩ := h
    refine ⟨stringBytes s, { f₀ with error := some s }, ?_, ?_, ?_⟩
    · simp only [vtFcallPack, hm, hs, vtPutString_eq _ hlen]
      rfl
    · have hread := vtGetString_stringBytes hlen []
      rw [append_nil] at hread
      rw [unpackBody, run_bind_of_ok hread]
      rfl
    · exact ⟨rfl, rfl, hs.symm⟩
  | rhello =>
    obtain ⟨s, hs, hlen⟩ := h
    refine ⟨stringBytes s ++ [f.rcrypto, f.rcodec],
      { f₀ with sid := some s, rcrypto := f.rcrypto, rcodec := f.rcodec }, ?_, ?_, ?_⟩
    · simp only [vtFcallPack, hm, hs, vtPutString_eq _ hlen]
      rfl
    · have hbuf : (packetConsume 4 2).run [f.rcrypto, f.rcodec] =
          .ok ([f.rcrypto, f.rcodec], []) := packetConsume_eq_ok.2 ⟨rfl, rfl, by omega⟩
      rw [unpackBody, run_bind_of_ok (vtGetString_stringBytes hlen _), run_bind_of_ok hbuf]
      rfl
    · exact ⟨rfl, rfl, hs.symm, rfl, rfl⟩
  | tread =>
    obtain ⟨n, hn⟩ := h
    let tail := [packBlockType f.blocktype, 0, UInt8.ofNat (f.count.toNat >>> 8),
      UInt8.ofNat f.count.toNat]
    let count : UInt16 := UInt16.ofNat
      ((UInt8.ofNat (f.count.toNat >>> 8)).toNat <<< 8 ||| (UInt8.ofNat f.count.toNat).toNat)
    let blocktype := UInt8.ofNat (vtFromDiskType (packBlockType f.blocktype).toNat)
    refine ⟨f.score.toList ++ tail, { f₀ with
      score := scoreOf f.score.toList, blocktype := blocktype, count := count }, ?_, ?_, ?_⟩
    · simp only [vtFcallPack, hm]
      rfl
    · have hscore : (packetConsume vtScoreSize vtScoreSize).run (f.score.toList ++ tail) =
          .ok (f.score.toList, tail) := packetConsume_eq_ok.2 ⟨rfl, by simp [vtScoreSize], le_rfl⟩
      have hbuf : (packetConsume 4 4).run tail = .ok (tail, []) :=
        packetConsume_eq_ok.2 ⟨rfl, rfl, le_rfl⟩
      rw [unpackBody, run_bind_of_ok hscore, run_bind_of_ok hbuf]
      rfl
    · exact ⟨rfl, rfl, scoreOf_toList f.score, unpack_packBlockType hn, unpack_count f.count⟩
  | rread =>
    obtain ⟨data, hdata⟩ := Option.isSome_iff_exists.1 h
    refine ⟨data, { f₀ with data := some data }, ?_, rfl, ?_⟩
    · simp only [vtFcallPack, hm, hdata, concatData]
      rfl
    · exact ⟨rfl, rfl, hdata.symm⟩
  | twrite =>
    obtain ⟨⟨n, hn⟩, hsome⟩ := h
    obtain ⟨data, hdata⟩ := Option.isSome_iff_exists.1 hsome
    let blocktype := UInt8.ofNat (vtFromDiskType (packBlockType f.blocktype).toNat)
    refine ⟨[packBlockType f.blocktype, 0, 0, 0] ++ data,
      { f₀ with blocktype := blocktype, data := some data }, ?_, ?_, ?_⟩
    · simp only [vtFcallPack, hm, hdata, concatData]
      rfl
    · have hbuf : (packetConsume 4 4).run ([packBlockType f.blocktype, 0, 0, 0] ++ data) =
          .ok ([packBlockType f.blocktype, 0, 0, 0], data) :=
        packetConsume_eq_ok.2 ⟨rfl, rfl, le_rfl⟩
      rw [unpackBody, run_bind_of_ok hbuf]
      rfl
    · exact ⟨rfl, rfl, unpack_packBlockType hn, hdata.symm⟩
  | rwrite =>
    refine ⟨f.score.toList, { f₀ with score := scoreOf f.score.toList }, ?_, ?_, ?_⟩
    · simp only [vtFcallPack, hm]
      rfl
    · have hscore : (packetConsume vtScoreSize vtScoreSize).run f.score.toList =
          .ok (f.score.toList, []) := packetConsume_eq_ok.2 ⟨by simp, by simp [vtScoreSize], le_rfl⟩
      rw [unpackBody, run_bind_of_ok hscore]
      rfl
    · exact ⟨rfl, rfl, scoreOf_toList f.score⟩
  | thello =>
    obtain ⟨hcrypto, hcodec⟩ := hvec rfl
    obtain ⟨version, uid, hv, hu, hvlen, hulen, hpack⟩ := vtFcallPack_thello hf h
    let g : VtFcall := { f₀ with version := some version, uid := some uid, strength := f.strength }
    refine ⟨_, g, hpack, ?_, ?_⟩
    · have hbuf : (packetConsume 4 2).run ([f.strength, UInt8.ofNat f.ncrypto] ++
          (f.crypto.take f.ncrypto ++ ([UInt8.ofNat f.ncodec] ++ f.codec.take f.ncodec))) =
            .ok ([f.strength, 0], [0]) := by
        rw [hcrypto, hcodec]
        exact packetConsume_eq_ok.2 ⟨rfl, rfl, by omega⟩
      rw [unpackBody, run_bind_of_ok (vtGetString_stringBytes hvlen _),
        run_bind_of_ok (vtGetString_stringBytes hulen _), run_bind_of_ok hbuf]
      rfl
    · refine ⟨rfl, rfl, hv.symm, hu.symm, rfl, hcrypto.symm, ?_, hcodec.symm, ?_⟩
      · rw [hcrypto]
        rfl
      · rw [hcodec]
        rfl

/-- The codec returns the message: it is packed, whatever the heap holds the packet is
unpacked, and every field of the message type is what it was. -/
def RoundTrips (f : VtFcall) (m : VtMsg) : Prop :=
  ∃ p, vtFcallPack f = .ok p ∧ ∀ heap, ∃ g, vtFcallUnpack heap p = .ok g ∧ SameMessage f g m

/-- A heap that differs from given bytes everywhere. -/
def otherHeap (f : VtFcall) : Alloc → ℕ → UInt8
  | .crypto => fun i => f.crypto.getD i 0 + 1
  | .codec => fun i => f.codec.getD i 0 + 1

/-- Memory that differs from some bytes everywhere agrees with them on no byte. -/
theorem eq_zero_of_map_eq_take {mem : ℕ → UInt8} (hmem : ∀ i, mem i ≠ b.getD i 0)
    (h : ((List.range n).map mem).take n = b.take n) :
    n = 0 := by
  by_contra hn
  have hget := congrArg (fun l => l.getD 0 0) h
  have hpos : 0 < n := by omega
  simp only [List.getD_eq_getElem?_getD, List.getElem?_take, hpos, if_true, List.getElem?_map,
    List.getElem?_range hpos, Option.map_some, Option.getD_some] at hget
  exact hmem 0 (by rw [hget, List.getD_eq_getElem?_getD])

/-- **A message round-trips** exactly if it is not a greeting with byte vectors. -/
theorem roundTrips_iff (hf : f.msgtype = m.code) (h : Packable f m) :
    RoundTrips f m ↔ (m = .thello → f.ncrypto = 0 ∧ f.ncodec = 0) := by
  constructor
  · rintro ⟨p, hp, hunpack⟩ rfl
    obtain ⟨version, uid, -, -, -, -, hpack⟩ := vtFcallPack_thello hf h
    obtain ⟨g, hg, -, -, -, -, -, hncrypto, hcrypto, hncodec, hcodec⟩ := hunpack (otherHeap f)
    obtain rfl : _ = p := Except.ok.inj (hpack.symm.trans hp)
    rw [hf] at hg
    obtain ⟨hc, hd⟩ := vectors_of_unpack hg
    have hne : ∀ x : UInt8, x + 1 ≠ x := by
      intro x h
      have := congrArg UInt8.toNat h
      simp only [UInt8.toNat_add, UInt8.toNat_one] at this
      omega
    rw [hc, hncrypto] at hcrypto
    rw [hd, hncodec] at hcodec
    exact ⟨eq_zero_of_map_eq_take (fun _ => hne _) hcrypto,
      eq_zero_of_map_eq_take (fun _ => hne _) hcodec⟩
  · intro hvec
    obtain ⟨q, -, hq, -⟩ := unpackBody_pack hf h hvec fun _ _ => 0
    refine ⟨_, hq, fun heap => ?_⟩
    obtain ⟨q', g, hq', hbody, hsame⟩ := unpackBody_pack hf h hvec heap
    obtain rfl : q = q' := by simpa using Except.ok.inj (hq.symm.trans hq')
    have hm : VtMsg.ofCode f.msgtype = some m := by rw [hf, VtMsg.ofCode_code]
    exact ⟨g, vtFcallUnpack_eq_ok.2 ⟨_, _, q, m, rfl, hm, hbody⟩, hsame⟩

/-- **The wire codec** returns a message exactly if it is not a greeting with byte
vectors, and unpacking stays in bounds exactly if the packet is not a greeting with a
vector too long for the local buffer. -/
theorem vtFcall_codec_iff (f : VtFcall) (m : VtMsg) (p : ByteString) (heap : Alloc → ℕ → UInt8) :
    (f.msgtype = m.code → Packable f m →
      (RoundTrips f m ↔ (m = .thello → f.ncrypto = 0 ∧ f.ncodec = 0))) ∧
    ((∀ room n, vtFcallUnpack heap p ≠ .error (.overrun room n)) ↔
      ¬∃ tag q, p = VtMsg.thello.code :: tag :: q ∧ GreetingOverruns q) := by
  refine ⟨roundTrips_iff, ?_⟩
  rw [← overrun_iff]
  push Not
  rfl

/-- A write of three bytes. -/
def writeRequest : VtFcall where
  msgtype := VtMsg.twrite.code
  tag := 7
  blocktype := 8
  data := some [1, 2, 3]

theorem writeRequest_roundTrips :
    RoundTrips writeRequest .twrite ∧
      ∀ room n, vtFcallUnpack (fun _ _ => 0) [14, 7, 2, 0, 0, 0, 1, 2, 3] ≠
        .error (.overrun room n) := by
  have hiff := vtFcall_codec_iff writeRequest .twrite [14, 7, 2, 0, 0, 0, 1, 2, 3] fun _ _ => 0
  refine ⟨(hiff.1 rfl ⟨⟨2, rfl⟩, rfl⟩).2 nofun, hiff.2.2 ?_⟩
  rintro ⟨tag, q, h, -⟩
  exact absurd (List.cons.inj h).1 (by decide)

/-- A greeting that names one crypto. -/
def cryptoHello : VtFcall where
  msgtype := VtMsg.thello.code
  version := some ⟨[48, 50], by decide⟩
  uid := some ⟨[97], by decide⟩
  crypto := [1]
  ncrypto := 1

/-- The name of the crypto is lost, and a peer that claims five of them has five bytes
written to the buffer of four. -/
theorem cryptoHello_not_roundTrips :
    Packable cryptoHello .thello ∧ ¬RoundTrips cryptoHello .thello ∧
      vtFcallUnpack (fun _ _ => 0) [4, 0, 0, 0, 0, 0, 0, 5, 1, 2, 3, 4, 5] =
        .error (.overrun 4 5) := by
  have hstr : Puttable cryptoHello.version ∧ Puttable cryptoHello.uid :=
    ⟨⟨_, rfl, by decide⟩, ⟨_, rfl, by decide⟩⟩
  have hpack : Packable cryptoHello .thello :=
    ⟨hstr.1, hstr.2, by decide, by decide, by decide, by decide⟩
  refine ⟨hpack, fun h => ?_, rfl⟩
  exact absurd ((roundTrips_iff rfl hpack).1 h rfl).1 (by decide)

end LibVenti

end Plan9
