import Mathlib.Data.Nat.Bitwise
import Plan9.Lib.Run
import Plan9.LibVenti.PacketRange
import Plan9.LibVenti.PacketSole

/-!
# Framing

`_vtsend` puts the length of a message, in two bytes, in front of it and writes it out fragment by
fragment. `_vtrecv` reads into the packet `z->part`: first two bytes for the length, then as many as
are missing, and hands out the front of the packet. `read` may return less than it is asked for, or
may be interrupted.

`_vtrecv` is given here as the code up to a `read` and the code behind it, with what the function
knows there (`Plan9.LibVenti.Recv`); a connection takes the steps one after the other
(`Plan9.LibVenti.Conn.exec`).

* `Plan9.LibVenti.vtSend_sound` – what `_vtsend` writes is the message in its frame;
* `Plan9.LibVenti.Conn.Inv.step` – what every step of a connection keeps, if no `read` for the
  length is interrupted;
* `Plan9.LibVenti.vtRecv_sound` – then the messages come out as they were sent;
* `Plan9.LibVenti.interrupted_header` – and otherwise they do not.
-/

namespace Plan9

namespace LibVenti

open Lib List Function

/-! ### Sending -/

/-- The length in front of a message. -/
def frameHead (n : ℕ) : List UInt8 := [UInt8.ofNat (n >>> 8), UInt8.ofNat n]

/-- A message as it is sent. -/
def frame (m : ByteString) : List UInt8 := frameHead m.length ++ m

/-- The loop of `_vtsend`; `write` says whether the `write` behind so many bytes is complete. The
result is what has been written, or nothing if a `write` is not complete. -/
def sendLoop (p : ℕ) (write : ℕ → Bool) : ℕ → ℕ → PacketM (Option (List UInt8))
  | 0, _ => throw .endless
  | k + 1, tot => do
    match ← packetfragments p 1 0 with
    | .error _ => throw .nil
    | .ok (io, n) =>
      if n = 0 then
        packetfree p
        pure (some [])
      else
        let ioc ← deref io.head?
        let s ← get
        if write tot then
          let _ ← packetconsume p false ioc.len
          let rest ← sendLoop p write k (tot + ioc.len)
          pure (rest.map (s.readChunks [ioc] ++ ·))
        else
          packetfree p
          pure none

/-- `_vtsend`, on a connection that is open: what it writes, or nothing where it returns -1. -/
def vtSend (p : ℕ) (write : ℕ → Bool) : PacketM (Option (List UInt8)) := do
  notFree p
  let s ← get
  let n := (s.packet p).size
  if n ≥ 2 ^ 16 then
    packetfree p
    pure none
  else
    packetprefix p (frameHead n.toNat)
    sendLoop p write (n.toNat + 3) 0

/-! ### Receiving -/

/-- What a `read` returns. -/
inductive ReadResult
  | bytes (x : List UInt8)
  | interrupted
  | failed

/-- Where `_vtrecv` stops: at a `read` of two bytes, or of `n` bytes, to the address `b`; or at its
end. -/
inductive Recv
  | idle
  | header (size : ℤ) (b : ℕ × ℕ)
  | body (size len : ℤ) (n : ℕ) (b : ℕ × ℕ)
  | packet (q : ℕ)
  | err

/-- The loop for the body, up to its `read`. -/
def bodyLoop (p : ℕ) (size len : ℤ) : PacketM Recv := do
  if size < len then
    let n := if len - size > maxFragSize then maxFragSize else (len - size).toNat
    match ← packettrailer p n with
    | .ok b => pure (.body size len n b)
    | .error _ => throw .nil
  else
    match ← packetsplit p len with
    | .ok q => pure (.packet q)
    | .error _ => pure .err

/-- The loop for the header, up to its `read`, and what is behind it. -/
def headerLoop (p : ℕ) (size : ℤ) : PacketM Recv := do
  if size < 2 then
    match ← packettrailer p 2 with
    | .ok b => pure (.header size b)
    | .error _ => throw .assertion
  else
    match ← packetconsume p true 2 with
    | .ok buf => bodyLoop p (size - 2) ((buf.getD 0 0).toNat <<< 8 ||| (buf.getD 1 0).toNat : ℕ)
    | .error _ => pure .err

/-- `_vtrecv`, on a connection that is open. -/
def vtRecv (p : ℕ) : PacketM Recv := do
  notFree p
  let s ← get
  headerLoop p (s.packet p).size

/-- The loop for the header, from its `read` on: `n` is added to `size` also where it is -1. -/
def headerRead (p : ℕ) (size : ℤ) (b : ℕ × ℕ) : ReadResult → PacketM Recv
  | .bytes [] => pure .err
  | .bytes (y :: x) => do
    fill b (y :: x)
    let size := size + (y :: x).length
    let _ ← packettrim p 0 size
    headerLoop p size
  | .interrupted => do
    let size := size + -1
    let _ ← packettrim p 0 size
    headerLoop p size
  | .failed => pure .err

/-- The loop for the body, from its `read` on. -/
def bodyRead (p : ℕ) (size len : ℤ) (b : ℕ × ℕ) : ReadResult → PacketM Recv
  | .bytes [] => do
    let _ ← packettrim p 0 size
    pure .err
  | .bytes (y :: x) => do
    fill b (y :: x)
    let size := size + (y :: x).length
    let _ ← packettrim p 0 size
    bodyLoop p size len
  | .interrupted => do
    let _ ← packettrim p 0 size
    bodyLoop p size len
  | .failed => do
    let _ ← packettrim p 0 size
    pure .err

/-! ### A connection -/

/-- The receiver, the bytes that are on their way to it, what has been sent, and what `_vtrecv` has
returned, where nothing stands for `nil`. -/
structure Conn where
  heap : Heap
  part : ℕ
  pc : Recv
  wire : List UInt8
  sent : List ByteString
  received : List (Option ByteString)

/-- What can happen. -/
inductive Action
  /-- A process sends the packet `q` of its heap. -/
  | send (h : Heap) (q : ℕ) (write : ℕ → Bool)
  /-- The receiver calls `_vtrecv`. -/
  | call
  /-- The `read` returns one byte and up to `k` more, as far as it asks for them and there are
  any. -/
  | read (k : ℕ)
  /-- The `read` is interrupted. -/
  | interrupt
  /-- The packets of the receiver are used, all but `z->part`. -/
  | use (t : Heap)

namespace Conn

variable (c : Conn)

/-- Where the code stops. -/
def stop (t : Heap) : Recv → Conn
  | .packet q => { c with heap := t, pc := .idle, received := c.received ++ [t.abs q] }
  | .err => { c with heap := t, pc := .idle, received := c.received ++ [none] }
  | pc => { c with heap := t, pc := pc }

/-- A piece of the code is run. -/
def run (x : PacketM Recv) : Option Conn :=
  match x.run c.heap with
  | .ok (r, t) => some (c.stop t r)
  | .error _ => none

/-- What `read` returns for a request. -/
def taken (k n : ℕ) : List UInt8 := c.wire.take (min (k + 1) n)

/-- One step. -/
def exec : Action → Option Conn
  | .send h q write =>
    match (vtSend q write).run h, h.abs q with
    | .ok (some w, _), some m => some { c with wire := c.wire ++ w, sent := c.sent ++ [m] }
    | _, _ => none
  | .call =>
    match c.pc with
    | .idle => c.run (vtRecv c.part)
    | _ => none
  | .read k =>
    if c.wire = [] then none
    else
      match c.pc with
      | .header size b =>
        { c with wire := c.wire.drop (c.taken k 2).length }.run
          (headerRead c.part size b (.bytes (c.taken k 2)))
      | .body size len n b =>
        { c with wire := c.wire.drop (c.taken k n).length }.run
          (bodyRead c.part size len b (.bytes (c.taken k n)))
      | _ => none
  | .interrupt =>
    match c.pc with
    | .header size b => c.run (headerRead c.part size b .interrupted)
    | .body size len _ b => c.run (bodyRead c.part size len b .interrupted)
    | _ => none
  | .use t => some { c with heap := t }

/-- The others leave `z->part` alone. -/
structure Leaves (s t : Heap) (p : ℕ) : Prop where
  ok : t.Ok
  abs : t.abs p = s.abs p
  frags : t.frags p = s.frags p
  frag : ∀ f ∈ s.frags p, t.frag f = s.frag f
  mem : ∀ f ∈ s.frags p, ∀ m, (s.frag f).mem = some m → (t.mem m).ref = (s.mem m).ref

end Conn

/-- A heap in order, and packets that nobody else uses. -/
def Action.Ok (c : Conn) : Action → Prop
  | .send h _ _ => h.Ok
  | .use t => Conn.Leaves c.heap t c.part
  | _ => True

/-- The steps of a connection. -/
def Conn.Step (c : Conn) (a : Action) (d : Conn) : Prop := a.Ok c ∧ c.exec a = some d

/-- A connection that has been opened. -/
def Conn.start (s : Heap) (p : ℕ) : Conn := ⟨s, p, .idle, [], [], []⟩

/-- **No `read` for the length is interrupted.** -/
def Conn.Calm (c : Conn) (a : Action) : Prop :=
  match c.pc, a with
  | .header _ _, .interrupt => False
  | _, _ => True

/-! ### What `_vtsend` writes -/

variable {s t : Heap} {p k tot : ℕ} {b m : ByteString} {write : ℕ → Bool}

/-- One fragment of a packet: its first bytes. -/
theorem packetfragments_one (hok : s.Ok) (hp : s.abs p = some b) :
    Returns (packetfragments p 1 0) s fun r t => t = s ∧ (b = [] → r = .ok ([], 0)) ∧
      (b ≠ [] → ∃ c, r = .ok ([c], c.len) ∧ 0 < c.len ∧ c.len ≤ b.length ∧
        s.readChunks [c] = b.take c.len) := by
  obtain ⟨own, held, hok⟩ := hok
  obtain ⟨hlive, hbytes, hsize⟩ := hok.of_abs hp
  rw [packetfragments]
  refine returns_notFree_bind hlive ?_
  rw [returns_get_bind]
  by_cases hb : b = []
  · have hzero : (s.packet p).size = 0 ∨ (1 : ℤ) ≤ 0 := Or.inl (by rw [hsize, hb]; rfl)
    rw [if_pos hzero, returns_pure]
    exact ⟨rfl, fun _ => rfl, fun hne => absurd hb hne⟩
  have hpos := length_pos_of_ne_nil hb
  have hzero : ¬((s.packet p).size = 0 ∨ (1 : ℤ) ≤ 0) := by omega
  have hrange : ¬((0 : ℤ) < 0 ∨ (0 : ℤ) > (s.packet p).size) := by omega
  have hlen := hok.ok.length_bytesOf (hok.mem (p := p))
  rw [hbytes] at hlen
  rw [if_neg hzero, if_neg hrange]
  refine (skipFrags_spec (hok.chain p hlive).linked le_rfl (by omega)
    (hok.length_lt hlive).le).bind ?_
  rintro ⟨f, o⟩ t ⟨rfl, l₁, f', l₂, hown, heq, hle, hlt⟩
  obtain ⟨rfl, rfl⟩ := Prod.mk.inj heq
  -- no fragment is skipped, since each one has bytes
  have hl₁ : t.sizeOf l₁ = 0 := by omega
  have hmem := hok.mem (p := p)
  rw [hown] at hmem hbytes
  have hlen₁ := hok.ok.length_bytesOf fun g hg => hmem g (mem_append_left _ hg)
  rw [hl₁, length_eq_zero_iff] at hlen₁
  have hlenf := hok.ok.length_fragBytes (hmem f (by simp))
  obtain ⟨m, hm, hfm, hrange, -⟩ := hok.ok.inMem f (hmem f (by simp))
  rw [bytesOf_append, hlen₁, nil_append, bytesOf_cons] at hbytes
  have hle : t.fragSize f ≤ b.length := by
    rw [← hbytes, length_append]
    omega
  have hchunk : fillChunks t (Int.toNat 1) (some f) (0 - t.sizeOf l₁) =
      [⟨some (.mem m, (t.frag f).rp), t.fragSize f⟩] := by
    rw [hl₁]
    simp [fillChunks, Heap.chunk, Frag.base, hfm]
  simp only [hchunk, returns_pure]
  refine ⟨trivial, fun h => absurd h hb,
    fun _ => ⟨⟨some (.mem m, (t.frag f).rp), t.fragSize f⟩, ?_, ?_, hle, ?_⟩⟩
  · simp
  · change 0 < t.fragSize f
    rw [Heap.fragSize]
    omega
  · have hread : t.readChunks [⟨some (.mem m, (t.frag f).rp), t.fragSize f⟩] =
        t.fragBytes f := by
      simp [Heap.readChunks, Heap.read, Heap.fragBytes, hfm]
    rw [hread, ← hbytes, ← hlenf, take_left']
    rfl

/-- **The loop writes the packet**, if it writes all that it is to. -/
theorem sendLoop_spec (hok : s.Ok) (hp : s.abs p = some b) (hb : b.length < 2 ^ 31)
    (hk : b.length < k) : Returns (sendLoop p write k tot) s fun r _ =>
      (r = none ∨ r = some b) ∧ ((∀ i, write i = true) → r = some b) := by
  induction k generalizing s b tot with
  | zero => omega
  | succ k ih =>
    rw [sendLoop]
    refine (packetfragments_one hok hp).bind ?_
    rintro r t ⟨rfl, hnil, hcons⟩
    by_cases hempty : b = []
    · rw [hnil hempty, hempty]
      simp only [if_true]
      refine (packetfree_spec hok hp).bind ?_
      rintro - u -
      rw [returns_pure]
      exact ⟨Or.inr rfl, fun _ => rfl⟩
    · obtain ⟨c, rfl, hpos, hle, hread⟩ := hcons hempty
      simp only [if_neg hpos.ne', List.head?_cons, returns_deref_bind, returns_get_bind]
      cases hw : write tot with
      | true =>
        simp only [if_true]
        refine (@packetconsume_spec t p b false c.len hok hp hb (by omega)).bind ?_
        rintro r u ⟨hu, heffect⟩
        have htrim := @ByteString.trim_eq_ok b c.len (b.length - c.len) (by omega)
        have hcast : ((b.length - c.len : ℕ) : ℤ) = b.length - c.len := by omega
        rw [hcast] at htrim
        simp only [ByteString.consumeInto, Bool.false_eq_true, if_false, htrim, Except.map]
          at heffect
        have habs : u.abs p = some (b.drop c.len) := by
          rw [heffect.2, update_self]
          simp [ByteString.slice]
        refine (@ih u (tot + c.len) (b.drop c.len) hu habs ?_ ?_).bind ?_
        · rw [length_drop]
          omega
        · rw [length_drop]
          omega
        · rintro r v ⟨hr, hall⟩
          rw [returns_pure]
          refine ⟨?_, fun h => ?_⟩
          · rcases hr with rfl | rfl
            · exact Or.inl rfl
            · rw [Option.map_some, hread, take_append_drop]
              exact Or.inr rfl
          · rw [hall h, Option.map_some, hread, take_append_drop]
      | false =>
        simp only [Bool.false_eq_true, if_false]
        refine (packetfree_spec hok hp).bind ?_
        rintro - u -
        rw [returns_pure]
        refine ⟨Or.inl rfl, fun h => ?_⟩
        rw [h tot] at hw
        cases hw

theorem length_frameHead (n : ℕ) : (frameHead n).length = 2 := rfl

theorem length_frame (m : ByteString) : (frame m).length = m.length + 2 := by
  rw [frame, length_append, length_frameHead]
  omega

/-- `_vtsend` behind its prefix. -/
theorem vtSend_framed (hok : s.Ok) (hp : s.abs p = some m) (hm : m.length < 2 ^ 16)
    (hsole : ∀ f, (s.packet p).first = some f → Sole s f) :
    Returns (vtSend p write) s fun r _ =>
      (r = none ∨ r = some (frame m)) ∧ ((∀ i, write i = true) → r = some (frame m)) := by
  have hsize : 0 ≤ (s.packet p).size ∧ (s.packet p).size = m.length := by
    obtain ⟨own, held, hok⟩ := hok
    exact ⟨(hok.of_abs hp).1, (hok.of_abs hp).2.2⟩
  rw [vtSend]
  refine returns_notFree_bind hsize.1 ?_
  have hsmall : ¬((m.length : ℤ) ≥ 2 ^ 16) := by omega
  simp only [returns_get_bind, hsize.2, if_neg hsmall, Int.toNat_natCast]
  refine (packetprefix_spec hok hp ?_ fun _ => hsole).bind ?_
  · rw [length_frameHead]
    omega
  · rintro - t ⟨ht, habs⟩
    refine sendLoop_spec (b := frame m) ht ?_ ?_ ?_
    · rw [habs, update_self, frame]
    · rw [length_frame]
      omega
    · rw [length_frame]
      omega

/-- `packetprefix` aborts where it would have to write to memory that is shared. -/
theorem packetprefix_faults {f : FragId} {buf : List UInt8} (hbuf : buf ≠ [])
    (hlive : 0 ≤ (s.packet p).size) (hf : (s.packet p).first = some f) (hsole : ¬Sole s f) :
    Faults ( packetprefix p buf) s PacketFault.abort := by
  obtain ⟨m, hm⟩ := not_forall.1 hsole
  obtain ⟨hfm, href⟩ := Classical.not_imp.1 hm
  unfold packetprefix
  refine faults_notFree_bind hlive ?_
  rw [if_neg hbuf, faults_modifyPacket_bind, faults_get_bind]
  simp only [Heap.setPacket_packet, update_self, hf, Heap.setPacket_frag, hfm, Heap.setPacket_mem]
  rw [faults_deref_bind, if_neg href]
  rfl

/-- **What `_vtsend` writes**, when it returns 1. -/
theorem vtSend_sound {w : List UInt8} (hok : s.Ok) (hp : s.abs p = some m)
    (hrun : (vtSend p write).run s = .ok (some w, t)) : m.length < 2 ^ 16 ∧ w = frame m := by
  have hsize : 0 ≤ (s.packet p).size ∧ (s.packet p).size = m.length := by
    obtain ⟨own, held, hok⟩ := hok
    exact ⟨(hok.of_abs hp).1, (hok.of_abs hp).2.2⟩
  by_cases hm : m.length < 2 ^ 16
  · by_cases hsole : ∀ f, (s.packet p).first = some f → Sole s f
    · obtain ⟨r, t', hrun', hr, -⟩ := @vtSend_framed s p m write hok hp hm hsole
      obtain ⟨rfl, rfl⟩ := Prod.mk.inj (Except.ok.inj (hrun.symm.trans hrun'))
      rcases hr with hr | hr
      · cases hr
      · exact ⟨hm, Option.some.inj hr⟩
    · -- it would have aborted
      obtain ⟨f, hf⟩ := not_forall.1 hsole
      obtain ⟨hf, hno⟩ := Classical.not_imp.1 hf
      have hsmall : ¬((m.length : ℤ) ≥ 2 ^ 16) := by omega
      have hfault : Faults (vtSend p write) s PacketFault.abort := by
        rw [vtSend]
        refine faults_notFree_bind hsize.1 ?_
        simp only [faults_get_bind, hsize.2, if_neg hsmall]
        exact (packetprefix_faults (by simp [frameHead]) hsize.1 hf hno).bind
      rw [Faults, hrun] at hfault
      cases hfault
  · -- it would have returned -1
    have hlarge : (m.length : ℤ) ≥ 2 ^ 16 := by omega
    have hnone : Returns (vtSend p write) s fun r _ => r = none := by
      rw [vtSend]
      refine returns_notFree_bind hsize.1 ?_
      simp only [returns_get_bind, hsize.2, if_pos hlarge]
      refine (packetfree_spec hok hp).bind fun _ u _ => ?_
      exact returns_pure.2 rfl
    obtain ⟨r, t', hrun', hr⟩ := hnone
    obtain ⟨rfl, rfl⟩ := Prod.mk.inj (Except.ok.inj (hrun.symm.trans hrun'))
    cases hr

/-! ### Where the receiver is in the stream -/

/-- `z->part` has the packet `b`, and nobody else refers to its memory. -/
structure Part (s : Heap) (p : ℕ) (b : ByteString) : Prop where
  ok : s.Ok
  abs : s.abs p = some b
  priv : Private s p

/-- **The receiver in the stream**: what it has, and what is on its way, are the messages `rest` in
their frames. At a `read` the packet has, behind what has been received, the bytes to be filled
in. -/
def Reached (s : Heap) (p : ℕ) (wire : List UInt8) (rest : List ByteString) : Recv → Prop
  | .idle => ∃ hand, Part s p hand ∧ hand.length < 2 ∧ hand ++ wire = rest.flatMap frame
  | .header size a => ∃ hand x, Part s p (hand ++ x) ∧ x.length = 2 ∧ hand.length < 2 ∧
      size = hand.length ∧ Located s p hand.length 2 a ∧ hand ++ wire = rest.flatMap frame
  | .body size len n a => ∃ hand x m rest', rest = m :: rest' ∧ Part s p (hand ++ x) ∧
      x.length = n ∧ hand.length < m.length ∧ n = min (m.length - hand.length) maxFragSize ∧
      size = hand.length ∧ len = m.length ∧ Located s p hand.length n a ∧
      hand ++ wire = m ++ rest'.flatMap frame
  | .packet q => ∃ m rest' hand, rest = m :: rest' ∧ s.abs q = some m ∧ Part s p hand ∧
      hand.length < 2 ∧ hand ++ wire = rest'.flatMap frame
  | .err => False

variable {hand wire : List UInt8} {rest : List ByteString} {size : ℤ} {n : ℕ} {a : ℕ × ℕ}

/-- The length that the receiver computes. -/
theorem frameHead_value {n : ℕ} (hn : n < 2 ^ 16) (l : List UInt8) :
    (((frameHead n ++ l).getD 0 0).toNat <<< 8 ||| ((frameHead n ++ l).getD 1 0).toNat) = n := by
  have hhi : (UInt8.ofNat (n >>> 8)).toNat = n / 256 := by
    rw [UInt8.toNat_ofNat', Nat.shiftRight_eq_div_pow]
    omega
  have hlo : (UInt8.ofNat n).toNat = n % 256 := UInt8.toNat_ofNat'
  have hsum : (n / 256) <<< 8 + n % 256 = (n / 256) <<< 8 ||| n % 256 :=
    Nat.shiftLeft_add_eq_or_of_lt (Nat.mod_lt n (by decide)) _
  simp only [frameHead, cons_append, getD_cons_zero, getD_cons_succ, hhi, hlo]
  rw [← hsum, Nat.shiftLeft_eq]
  omega

/-- **The body**: with `hand` of the message there. -/
theorem bodyLoop_spec {rest' : List ByteString} (h : Part s p hand) (hm : m.length < 2 ^ 16)
    (hlen : hand.length ≤ m.length ∨ m = [] ∧ hand.length < 2)
    (hstream : hand ++ wire = m ++ rest'.flatMap frame) :
    Returns (bodyLoop p hand.length m.length) s fun r t => Reached t p wire (m :: rest') r := by
  rw [bodyLoop]
  by_cases hlt : hand.length < m.length
  · have hcast : ((hand.length : ℤ) < (m.length : ℤ)) := by omega
    rw [if_pos hcast]
    have hn : (if (m.length : ℤ) - hand.length > maxFragSize then maxFragSize
        else ((m.length : ℤ) - hand.length).toNat) =
        min (m.length - hand.length) maxFragSize := by
      split <;> omega
    simp only [hn]
    have hpos : 0 < min (m.length - hand.length) maxFragSize := lt_min (by omega) (by decide)
    refine (h.priv.packettrailer h.ok h.abs hpos (min_le_right _ _) (by omega)).bind ?_
    rintro r t ⟨ht, hpriv, a, x, rfl, hx, ha, habs⟩
    rw [returns_pure]
    have hself : t.abs p = some (hand ++ x) := by rw [habs, update_self]
    exact ⟨hand, x, m, rest', rfl, ⟨ht, hself, hpriv⟩, hx, hlt, rfl, rfl, rfl, ha, hstream⟩
  · have hcast : ¬((hand.length : ℤ) < (m.length : ℤ)) := by omega
    rw [if_neg hcast]
    have hn : m.length = hand.length ∨ m.length = 0 := by
      rcases hlen with hle | ⟨rfl, -⟩
      · exact Or.inl (by omega)
      · exact Or.inr rfl
    refine (h.priv.packetsplit h.ok h.abs hn).bind ?_
    rintro r t ⟨ht, hpriv, q, rfl, hnone, habs⟩
    rw [returns_pure]
    have hne : p ≠ q := by
      rintro rfl
      rw [h.abs] at hnone
      cases hnone
    have hle : m.length ≤ hand.length := Nat.not_lt.1 hlt
    have htake : hand.take m.length = m := by
      have heq := congrArg (List.take m.length) hstream
      rwa [take_append_of_le_length hle, take_left'] at heq
      rfl
    have hdrop : hand.drop m.length ++ wire = rest'.flatMap frame := by
      have heq := congrArg (List.drop m.length) hstream
      rwa [drop_append_of_le_length hle, drop_left'] at heq
      rfl
    have hq : t.abs q = some m := by rw [habs, update_self, htake]
    have hself : t.abs p = some (hand.drop m.length) := by
      rw [habs, update_of_ne hne, update_self]
    refine ⟨m, rest', _, rfl, hq, ⟨ht, hself, hpriv⟩, ?_, hdrop⟩
    rw [length_drop]
    rcases hlen with hle' | ⟨-, hlt'⟩ <;> omega

/-- The first message is there when its length is. -/
theorem exists_cons_of_flatMap (hstream : hand ++ wire = rest.flatMap frame)
    (hlen : 2 ≤ hand.length) : ∃ m rest' got, rest = m :: rest' ∧
      hand = frameHead m.length ++ got ∧ got ++ wire = m ++ rest'.flatMap frame := by
  cases rest with
  | nil =>
    have hzero := congrArg List.length hstream
    rw [flatMap_nil, length_append, length_nil] at hzero
    omega
  | cons m rest' =>
    rw [flatMap_cons, frame, append_assoc] at hstream
    have htake : hand.take 2 = frameHead m.length := by
      have heq := congrArg (List.take 2) hstream
      rwa [take_append_of_le_length hlen, take_left' (length_frameHead _)] at heq
    have hdrop : hand.drop 2 ++ wire = m ++ rest'.flatMap frame := by
      have heq := congrArg (List.drop 2) hstream
      rwa [drop_append_of_le_length hlen, drop_left' (length_frameHead _)] at heq
    refine ⟨m, rest', hand.drop 2, rfl, ?_, hdrop⟩
    rw [← htake, take_append_drop]

/-- **The header**: with at most one byte of what is behind it. -/
theorem headerLoop_spec (h : Part s p hand) (hrest : ∀ m ∈ rest, m.length < 2 ^ 16)
    (hlen : hand.length ≤ 3) (hstream : hand ++ wire = rest.flatMap frame) :
    Returns (headerLoop p hand.length) s fun r t => Reached t p wire rest r := by
  rw [headerLoop]
  by_cases hlt : hand.length < 2
  · have hcast : (hand.length : ℤ) < 2 := by omega
    rw [if_pos hcast]
    refine (h.priv.packettrailer (n := 2) h.ok h.abs (by decide) (by decide) (by omega)).bind ?_
    rintro r t ⟨ht, hpriv, a, x, rfl, hx, ha, habs⟩
    rw [returns_pure]
    have hself : t.abs p = some (hand ++ x) := by rw [habs, update_self]
    exact ⟨hand, x, ⟨ht, hself, hpriv⟩, hx, hlt, rfl, ha, hstream⟩
  · have hcast : ¬(hand.length : ℤ) < 2 := by omega
    rw [if_neg hcast]
    obtain ⟨m, rest', got, rfl, rfl, hgot⟩ := exists_cons_of_flatMap hstream (Nat.not_lt.1 hlt)
    have hm := hrest m mem_cons_self
    rw [length_append, length_frameHead] at hlen
    refine (h.priv.packetconsume (n := 2) h.ok h.abs ?_ ?_).bind ?_
    · rw [length_append, length_frameHead]
      omega
    · rw [length_append, length_frameHead]
      omega
    rintro r t ⟨ht, hpriv, rfl, habs⟩
    have hhead : (frameHead m.length ++ got).take 2 = frameHead m.length ++ [] := by
      rw [take_left' (length_frameHead _), append_nil]
    have hself : t.abs p = some got := by
      rw [habs, update_self, drop_left' (length_frameHead _)]
    have hsize : ((frameHead m.length ++ got).length : ℤ) - 2 = got.length := by
      rw [length_append, length_frameHead]
      omega
    simp only [hhead, frameHead_value hm, hsize]
    refine bodyLoop_spec ⟨ht, hself, hpriv⟩ hm ?_ hgot
    -- one byte may be that of a message, or of the next length
    cases m with
    | nil => exact Or.inr ⟨rfl, by omega⟩
    | cons y m =>
      rw [length_cons]
      exact Or.inl (by omega)

/-- **`_vtrecv` begins.** -/
theorem vtRecv_spec (h : Part s p hand) (hrest : ∀ m ∈ rest, m.length < 2 ^ 16)
    (hlen : hand.length < 2) (hstream : hand ++ wire = rest.flatMap frame) :
    Returns (vtRecv p) s fun r t => Reached t p wire rest r := by
  have hsize : 0 ≤ (s.packet p).size ∧ (s.packet p).size = hand.length := by
    obtain ⟨own, held, hok⟩ := h.ok
    exact ⟨(hok.of_abs h.abs).1, (hok.of_abs h.abs).2.2⟩
  rw [vtRecv]
  refine returns_notFree_bind hsize.1 ?_
  rw [returns_get_bind, hsize.2]
  exact headerLoop_spec h hrest (by omega) hstream

/-- What a `read` has filled in, and `packettrim` keeps. -/
theorem Part.filled {x y : List UInt8} {α : Type} {k : ℤ → PacketM α} {Q : α → Heap → Prop}
    (h : Part s p (hand ++ x)) (hx : x.length = n) (hn : n ≤ maxFragSize)
    (hhand : hand.length < 2 ^ 16) (hy : y.length ≤ n) (ha : Located s p hand.length n a)
    (hk : ∀ t, Part t p (hand ++ y) → Returns (k (hand ++ y).length) t Q) :
    Returns (do
        fill a y
        let size := (hand.length + y.length : ℤ)
        let _ ← packettrim p 0 size
        k size) s Q := by
  have hmax : maxFragSize < 2 ^ 16 := by decide
  have hsize : (hand.length + y.length : ℤ) = (hand ++ y).length := by
    rw [length_append, Nat.cast_add]
  simp only [hsize]
  refine (h.priv.fill h.ok h.abs ha hy).bind ?_
  rintro - t ⟨ht, hpriv, habs⟩
  have hself : t.abs p = some (ByteString.splice (hand ++ x) hand.length y) := by
    rw [habs, update_self]
  have hsplice : ByteString.splice (hand ++ x) hand.length y = hand ++ y ++ x.drop y.length := by
    rw [ByteString.splice, take_left' rfl, drop_append, drop_of_length_le (by omega),
      nil_append, Nat.add_sub_cancel_left]
  rw [hsplice] at hself
  have hlen : (hand ++ y ++ x.drop y.length).length = hand.length + n := by
    rw [length_append, length_append, length_drop, hx]
    omega
  refine (hpriv.packettrim_take ht hself ?_ ?_).bind ?_
  · rw [hlen]
    omega
  · rw [hlen, length_append]
    omega
  · rintro - u ⟨hu, hprivu, habsu⟩
    refine hk u ⟨hu, ?_, hprivu⟩
    rw [habsu, update_self, take_left' rfl]

/-- **A `read` for the length** returns. -/
theorem headerRead_spec {x : List UInt8} (h : Reached s p wire rest (.header size a))
    (hrest : ∀ m ∈ rest, m.length < 2 ^ 16) (hx : x ≠ []) (hlen : x.length ≤ 2)
    (hwire : x <+: wire) : Returns (headerRead p size a (.bytes x)) s fun r t =>
      Reached t p (wire.drop x.length) rest r := by
  obtain ⟨hand, y, hpart, hy, hlt, rfl, ha, hstream⟩ := h
  obtain ⟨wire', rfl⟩ := hwire
  cases x with
  | nil => exact absurd rfl hx
  | cons z x =>
    refine hpart.filled (k := headerLoop p) hy (by decide) (by omega) hlen ha fun t ht => ?_
    rw [drop_left' rfl]
    refine headerLoop_spec ht hrest ?_ ?_
    · rw [length_append]
      omega
    · rw [append_assoc]
      exact hstream

/-- **A `read` for the message** returns. -/
theorem bodyRead_spec {x : List UInt8} {len : ℤ} (h : Reached s p wire rest (.body size len n a))
    (hrest : ∀ m ∈ rest, m.length < 2 ^ 16) (hx : x ≠ []) (hlen : x.length ≤ n)
    (hwire : x <+: wire) : Returns (bodyRead p size len a (.bytes x)) s fun r t =>
      Reached t p (wire.drop x.length) rest r := by
  obtain ⟨hand, y, m, rest', rfl, hpart, hy, hlt, hn, rfl, rfl, ha, hstream⟩ := h
  obtain ⟨wire', rfl⟩ := hwire
  have hm := hrest m mem_cons_self
  have hnm : n ≤ m.length - hand.length := hn ▸ min_le_left _ _
  have hnmax : n ≤ maxFragSize := hn ▸ min_le_right _ _
  cases x with
  | nil => exact absurd rfl hx
  | cons z x =>
    refine hpart.filled (k := fun size => bodyLoop p size m.length) hy hnmax (by omega) hlen ha
      fun t ht => ?_
    rw [drop_left' rfl]
    refine bodyLoop_spec ht hm (Or.inl ?_) ?_
    · rw [length_append]
      omega
    · rw [append_assoc]
      exact hstream

/-- **A `read` for the message** is interrupted: nothing is lost. -/
theorem bodyRead_interrupted {len : ℤ} (h : Reached s p wire rest (.body size len n a))
    (hrest : ∀ m ∈ rest, m.length < 2 ^ 16) :
    Returns (bodyRead p size len a .interrupted) s fun r t => Reached t p wire rest r := by
  obtain ⟨hand, y, m, rest', rfl, hpart, hy, hlt, hn, rfl, rfl, ha, hstream⟩ := h
  have hm := hrest m mem_cons_self
  have hnm : n ≤ m.length - hand.length := hn ▸ min_le_left _ _
  have hlen : (hand ++ y).length = hand.length + n := by rw [length_append, hy]
  rw [bodyRead]
  refine (hpart.priv.packettrim_take (n := hand.length) hpart.ok hpart.abs ?_ ?_).bind ?_
  · rw [hlen]
    omega
  · rw [hlen]
    omega
  · rintro - t ⟨ht, hpriv, habs⟩
    have hself : t.abs p = some hand := by rw [habs, update_self, take_left' rfl]
    exact bodyLoop_spec ⟨ht, hself, hpriv⟩ hm (Or.inl hlt.le) hstream

/-- The others leave the receiver where it is. -/
theorem Reached.leaves {r : Recv} (h : Reached s p wire rest r) (ht : Conn.Leaves s t p)
    (hr : ∀ q, r ≠ .packet q) : Reached t p wire rest r := by
  have hpart : ∀ {b}, Part s p b → Part t p b := by
    intro b hb
    refine ⟨ht.ok, ht.abs.trans hb.abs, fun f hf m hm => ?_⟩
    rw [ht.frags] at hf
    rw [ht.frag f hf] at hm
    rw [ht.mem f hf m hm]
    exact hb.priv f hf m hm
  have hloc : ∀ {k n a}, Located s p k n a → Located t p k n a := by
    rintro k n a ⟨l, f, l', hfrags, hfm, hle, hend, rfl⟩
    have hf : f ∈ s.frags p := by
      rw [hfrags]
      exact mem_append_right l mem_cons_self
    refine ⟨l, f, l', ht.frags.trans hfrags, ?_, ?_, ?_, ?_⟩
    · rw [ht.frag f hf, hfm]
    · rw [ht.frag f hf]
      exact hle
    · rw [ht.frag f hf]
      exact hend
    · rw [ht.frag f hf]
      congr 1
      refine sizeOf_congr fun g hg => ?_
      rw [ht.frag g (by rw [hfrags]; exact mem_append_left _ hg)]
  cases r with
  | idle =>
    obtain ⟨hand, hb, hlt, hstream⟩ := h
    exact ⟨hand, hpart hb, hlt, hstream⟩
  | header size a =>
    obtain ⟨hand, x, hb, hx, hlt, hsize, ha, hstream⟩ := h
    exact ⟨hand, x, hpart hb, hx, hlt, hsize, hloc ha, hstream⟩
  | body size len n a =>
    obtain ⟨hand, x, m, rest', hrest, hb, hx, hlt, hn, hsize, hlen, ha, hstream⟩ := h
    exact ⟨hand, x, m, rest', hrest, hpart hb, hx, hlt, hn, hsize, hlen, hloc ha, hstream⟩
  | packet q => exact absurd rfl (hr q)
  | err => exact h

/-- A message more is sent. -/
theorem Reached.send {r : Recv} (h : Reached s p wire rest r) (m : ByteString) :
    Reached s p (wire ++ frame m) (rest ++ [m]) r := by
  have happ : ∀ {hand : List UInt8} {l : List ByteString}, hand ++ wire = l.flatMap frame →
      hand ++ (wire ++ frame m) = (l ++ [m]).flatMap frame := by
    intro hand l hl
    rw [← append_assoc, hl, flatMap_append, flatMap_singleton]
  cases r with
  | idle =>
    obtain ⟨hand, hb, hlt, hstream⟩ := h
    exact ⟨hand, hb, hlt, happ hstream⟩
  | header size a =>
    obtain ⟨hand, x, hb, hx, hlt, hsize, ha, hstream⟩ := h
    exact ⟨hand, x, hb, hx, hlt, hsize, ha, happ hstream⟩
  | body size len n a =>
    obtain ⟨hand, x, m', rest', rfl, hb, hx, hlt, hn, hsize, hlen, ha, hstream⟩ := h
    refine ⟨hand, x, m', rest' ++ [m], rfl, hb, hx, hlt, hn, hsize, hlen, ha, ?_⟩
    rw [← append_assoc, hstream, flatMap_append, flatMap_singleton, append_assoc]
  | packet q =>
    obtain ⟨m', rest', hand, rfl, hq, hb, hlt, hstream⟩ := h
    exact ⟨m', rest' ++ [m], hand, rfl, hq, hb, hlt, happ hstream⟩
  | err => exact h

/-! ### What every step keeps -/

namespace Conn

variable {c d : Conn} {act : Action}

/-- **The invariant**: what has been returned are the first messages, and the receiver is somewhere
in those that follow. -/
structure Inv (c : Conn) : Prop where
  small : ∀ m ∈ c.sent, m.length < 2 ^ 16
  reached : ∃ k ≤ c.sent.length, c.received = (c.sent.take k).map some ∧
    Reached c.heap c.part c.wire (c.sent.drop k) c.pc
  stops : ∀ q, c.pc ≠ .packet q

/-- **A piece of the code** that leads on in the stream. -/
theorem Inv.run {x : PacketM Recv} {k : ℕ} (hsmall : ∀ m ∈ c.sent, m.length < 2 ^ 16)
    (hk : k ≤ c.sent.length) (hrec : c.received = (c.sent.take k).map some)
    (hx : Returns x c.heap fun r t => Reached t c.part c.wire (c.sent.drop k) r) :
    ∃ d, c.run x = some d ∧ d.Inv ∧ d.wire = c.wire := by
  obtain ⟨r, t, hrun, hr⟩ := hx
  refine ⟨c.stop t r, by rw [Conn.run, hrun], ?_⟩
  cases r with
  | packet q =>
    -- one message more
    obtain ⟨m, rest', hand, hrest, hq, hpart, hlt, hstream⟩ := hr
    have hlt' : k < c.sent.length := by
      have hlen := congrArg List.length hrest
      rw [length_drop, length_cons] at hlen
      omega
    have hm : c.sent[k] = m ∧ c.sent.drop (k + 1) = rest' := by
      rw [drop_eq_getElem_cons hlt'] at hrest
      exact cons.inj hrest
    refine ⟨⟨hsmall, ⟨k + 1, hlt', ?_, ?_⟩, fun q hq => by cases hq⟩, rfl⟩
    · change c.received ++ [t.abs q] = (c.sent.take (k + 1)).map some
      rw [hrec, hq, ← hm.1, take_succ_eq_append_getElem hlt', map_append]
      rfl
    · refine ⟨hand, hpart, hlt, ?_⟩
      change hand ++ c.wire = (c.sent.drop (k + 1)).flatMap frame
      rw [hstream, hm.2]
  | err => exact hr.elim
  | idle => exact ⟨⟨hsmall, ⟨k, hk, hrec, hr⟩, fun q hq => by cases hq⟩, rfl⟩
  | header size a => exact ⟨⟨hsmall, ⟨k, hk, hrec, hr⟩, fun q hq => by cases hq⟩, rfl⟩
  | body size len n a => exact ⟨⟨hsmall, ⟨k, hk, hrec, hr⟩, fun q hq => by cases hq⟩, rfl⟩

/-- **A call.** -/
theorem Inv.call (h : c.Inv) (hpc : c.pc = .idle) :
    ∃ d, c.exec .call = some d ∧ d.Inv ∧ d.wire = c.wire := by
  obtain ⟨k, hk, hrec, hreached⟩ := h.reached
  rw [hpc] at hreached
  obtain ⟨hand, hpart, hlt, hstream⟩ := hreached
  rw [exec, hpc]
  refine Inv.run h.small hk hrec (vtRecv_spec hpart (fun m hm => ?_) hlt hstream)
  exact h.small m (mem_of_mem_drop hm)

theorem taken_spec (c : Conn) (k n : ℕ) : c.taken k n <+: c.wire ∧ (c.taken k n).length ≤ n ∧
    (c.wire ≠ [] → 0 < n → c.taken k n ≠ []) := by
  rw [taken]
  refine ⟨ take_prefix _ _, ?_, fun hwire hn hnil => ?_⟩
  · rw [length_take]
    omega
  · have hlen := congrArg List.length hnil
    have hpos := length_pos_of_ne_nil hwire
    rw [length_take, length_nil] at hlen
    omega

/-- **A `read` returns**, with a byte at least. -/
theorem Inv.read (h : c.Inv) (hpc : c.pc ≠ .idle) (hwire : c.wire ≠ []) (k : ℕ) :
    ∃ d, c.exec (.read k) = some d ∧ d.Inv ∧ d.wire.length < c.wire.length := by
  obtain ⟨i, hi, hrec, hreached⟩ := h.reached
  have hrest : ∀ m ∈ c.sent.drop i, m.length < 2 ^ 16 := fun m hm =>
    h.small m (mem_of_mem_drop hm)
  have hless : ∀ {d : Conn} {n}, 0 < n → d.wire = c.wire.drop (c.taken k n).length →
      d.wire.length < c.wire.length := by
    intro d n hn hd
    have hpos := length_pos_of_ne_nil ((c.taken_spec k n).2.2 hwire hn)
    have hpos' := length_pos_of_ne_nil hwire
    rw [hd, length_drop]
    omega
  cases hcase : c.pc with
  | idle => exact absurd hcase hpc
  | packet q => exact absurd hcase (h.stops q)
  | err =>
    rw [hcase] at hreached
    exact hreached.elim
  | header size a =>
    rw [hcase] at hreached
    obtain ⟨hpre, hle, hne⟩ := c.taken_spec k 2
    obtain ⟨d, hd, hinv, hdw⟩ := @Inv.run { c with wire := c.wire.drop (c.taken k 2).length }
      _ i h.small hi hrec (headerRead_spec hreached hrest (hne hwire (by decide)) hle hpre)
    simp only [exec, if_neg hwire, hcase]
    exact ⟨d, hd, hinv, hless (by decide) hdw⟩
  | body size len n a =>
    rw [hcase] at hreached
    obtain ⟨hpre, hle, hne⟩ := c.taken_spec k n
    have hn : 0 < n := by
      obtain ⟨hand, x, m, rest', -, -, -, hlt, hn, -⟩ := hreached
      rw [hn]
      exact lt_min (by omega) (by decide)
    obtain ⟨d, hd, hinv, hdw⟩ := @Inv.run { c with wire := c.wire.drop (c.taken k n).length }
      _ i h.small hi hrec (bodyRead_spec hreached hrest (hne hwire hn) hle hpre)
    simp only [exec, if_neg hwire, hcase]
    exact ⟨d, hd, hinv, hless hn hdw⟩

/-- **A `read` for a message is interrupted.** -/
theorem Inv.interrupt {size len : ℤ} (h : c.Inv) (hpc : c.pc = .body size len n a) :
    ∃ d, c.exec .interrupt = some d ∧ d.Inv ∧ d.wire = c.wire := by
  obtain ⟨k, hk, hrec, hreached⟩ := h.reached
  rw [hpc] at hreached
  rw [exec, hpc]
  refine Inv.run h.small hk hrec (bodyRead_interrupted hreached fun m hm => ?_)
  exact h.small m (mem_of_mem_drop hm)

/-- **Every step keeps the invariant**, if no `read` for a length is interrupted. -/
theorem Inv.step (h : c.Inv) (hcalm : c.Calm act) (hstep : c.Step act d) : d.Inv := by
  obtain ⟨hact, hexec⟩ := hstep
  cases act with
  | send s q write =>
    rw [exec] at hexec
    split at hexec
    next w t m hrun hm =>
      cases hexec
      obtain ⟨hsmall, rfl⟩ := vtSend_sound hact hm hrun
      obtain ⟨k, hk, hrec, hreached⟩ := h.reached
      refine ⟨fun m' hm' => ?_, ⟨k, ?_, ?_, ?_⟩, h.stops⟩
      · rcases mem_append.1 hm' with hm' | hm'
        · exact h.small m' hm'
        · rw [mem_singleton.1 hm']
          exact hsmall
      · rw [length_append]
        omega
      · rw [take_append_of_le_length hk]
        exact hrec
      · rw [drop_append_of_le_length hk]
        exact hreached.send m
    next => cases hexec
  | call =>
    by_cases hpc : c.pc = .idle
    · obtain ⟨d', hd', hinv, -⟩ := h.call hpc
      obtain rfl := Option.some.inj (hexec.symm.trans hd')
      exact hinv
    · rw [exec] at hexec
      split at hexec
      next hidle => exact absurd hidle hpc
      next => cases hexec
  | read k =>
    by_cases hwire : c.wire = []
    · rw [exec, if_pos hwire] at hexec
      cases hexec
    · by_cases hpc : c.pc = .idle
      · rw [exec, if_neg hwire, hpc] at hexec
        cases hexec
      · obtain ⟨d', hd', hinv, -⟩ := h.read hpc hwire k
        obtain rfl := Option.some.inj (hexec.symm.trans hd')
        exact hinv
  | interrupt =>
    cases hpc : c.pc with
    | body size len n a =>
      obtain ⟨d', hd', hinv, -⟩ := h.interrupt hpc
      obtain rfl := Option.some.inj (hexec.symm.trans hd')
      exact hinv
    | header size a =>
      simp only [Calm, hpc] at hcalm
    | idle =>
      rw [exec, hpc] at hexec
      cases hexec
    | packet q =>
      rw [exec, hpc] at hexec
      cases hexec
    | err =>
      rw [exec, hpc] at hexec
      cases hexec
  | use t =>
    cases hexec
    obtain ⟨k, hk, hrec, hreached⟩ := h.reached
    exact ⟨h.small, ⟨k, hk, hrec, hreached.leaves hact h.stops⟩, h.stops⟩

theorem calm_of_ne (c : Conn) (hact : act ≠ .interrupt) : c.Calm act := by
  unfold Calm
  split
  · exact hact rfl
  · trivial

theorem inv_start (hok : s.Ok) (hp : s.abs p = some []) : (start s p).Inv where
  small m hm := by cases hm
  reached := ⟨0, le_rfl, rfl, [], ⟨hok, hp, private_of_nil hok hp⟩, by decide, rfl⟩
  stops q hq := by cases hq

/-- The receiver has not all of a message as long as it waits for it. -/
theorem Inv.received_of_wire_nil (h : c.Inv) (hwire : c.wire = []) :
    c.received = c.sent.map some := by
  obtain ⟨k, hk, hrec, hreached⟩ := h.reached
  have hnil : ∀ hand : List UInt8, hand.length < 2 →
      hand ++ c.wire = (c.sent.drop k).flatMap frame → c.received = c.sent.map some := by
    intro hand hlt hstream
    cases hrest : c.sent.drop k with
    | nil =>
      have hle : c.sent.length ≤ k := drop_eq_nil_iff.1 hrest
      rw [hrec, take_of_length_le hle]
    | cons m rest' =>
      have hlen := congrArg List.length hstream
      rw [hwire, hrest, append_nil, flatMap_cons, length_append, length_frame] at hlen
      omega
  cases hpc : c.pc with
  | idle =>
    rw [hpc] at hreached
    obtain ⟨hand, -, hlt, hstream⟩ := hreached
    exact hnil hand hlt hstream
  | header size a =>
    rw [hpc] at hreached
    obtain ⟨hand, x, -, -, hlt, -, -, hstream⟩ := hreached
    exact hnil hand hlt hstream
  | body size len n a =>
    rw [hpc] at hreached
    obtain ⟨hand, x, m, rest', -, -, -, hlt, -, -, -, -, hstream⟩ := hreached
    have hlen := congrArg List.length hstream
    rw [hwire, append_nil, length_append] at hlen
    omega
  | packet q => exact absurd hpc (h.stops q)
  | err =>
    rw [hpc] at hreached
    exact hreached.elim

/-- What is left in `z->part` between two calls. -/
theorem Inv.leftover (h : c.Inv) (hpc : c.pc = .idle) : ∃ hand, c.heap.abs c.part = some hand ∧
    hand.length < 2 ∧ hand ++ c.wire = (c.sent.drop c.received.length).flatMap frame := by
  obtain ⟨k, hk, hrec, hreached⟩ := h.reached
  rw [hpc] at hreached
  obtain ⟨hand, hpart, hlt, hstream⟩ := hreached
  refine ⟨hand, hpart.abs, hlt, ?_⟩
  rw [hrec, length_map, length_take_of_le hk]
  exact hstream

end Conn

open Conn in
/-- **The messages come out as they were sent**, however the stream is cut, if no `read` for a
length is interrupted. What `_vtrecv` has returned are the first messages, and all of them once the
stream has been read; between two calls the bytes of `z->part` and those on their way are the
messages that follow. A call is possible whenever none is under way; a `read` that is under way can
return any number of the bytes there are, or, in a message, be interrupted, and no such step
fails. -/
theorem vtRecv_sound {s : Heap} {p : ℕ} {l : List Action} {c : Conn} (hok : s.Ok)
    (hp : s.abs p = some []) (h : Run (Guarded Calm Conn.Step) (start s p) l c) :
    (∃ k ≤ c.sent.length, c.received = (c.sent.take k).map some) ∧
      (c.wire = [] → c.received = c.sent.map some) ∧
      (c.pc = .idle → ∃ hand, c.heap.abs c.part = some hand ∧ hand.length < 2 ∧
        hand ++ c.wire = (c.sent.drop c.received.length).flatMap frame) ∧
      (c.pc = .idle → (c.exec .call).isSome) ∧
      (c.pc ≠ .idle → c.wire ≠ [] → ∀ k, ∃ d, c.exec (.read k) = some d ∧
        d.wire.length < c.wire.length) ∧
      (∀ size len n a, c.pc = .body size len n a →
        ∃ d, c.exec .interrupt = some d ∧ d.wire = c.wire) := by
  have hinv : c.Inv := h.guarded_inv (fun _ _ _ hs hcalm hstep => hs.step hcalm hstep)
    (inv_start hok hp)
  refine ⟨?_, hinv.received_of_wire_nil, hinv.leftover, fun hpc => ?_, fun hpc hwire k => ?_,
    fun size len n a hpc => ?_⟩
  · obtain ⟨k, hk, hrec, -⟩ := hinv.reached
    exact ⟨k, hk, hrec⟩
  · obtain ⟨d, hd, -⟩ := hinv.call hpc
    rw [hd]
    rfl
  · obtain ⟨d, hd, -, hless⟩ := hinv.read hpc hwire k
    exact ⟨d, hd, hless⟩
  · obtain ⟨d, hd, -, hkeep⟩ := hinv.interrupt hpc
    exact ⟨d, hd, hkeep⟩

/-- One packet, which is empty. -/
def freshPart : Heap :=
  { emptyHeap with
    packet := Function.update emptyHeap.packet 0 ⟨0, none, none⟩
    npacket := 1 }

theorem freshPart_spec : freshPart.Ok ∧ freshPart.abs 0 = some [] := by
  obtain ⟨q, t, hrun, ht, -, habs⟩ := packetalloc_spec emptyHeap_bounded.1
  obtain ⟨rfl, rfl⟩ := Prod.mk.inj (Except.ok.inj hrun)
  exact ⟨ht, by decide⟩

/-- A message of one byte can be sent. -/
theorem exists_send (c : Conn) : ∃ h q, (Action.send h q fun _ => true).Ok c ∧
    c.exec (.send h q fun _ => true) =
      some { c with wire := c.wire ++ frame [0], sent := c.sent ++ [[0]] } := by
  obtain ⟨hok, hp⟩ := freshPart_spec
  have hsole : ([0] : List UInt8) ≠ [] → ∀ f, (freshPart.packet 0).first = some f →
      Sole freshPart f := fun _ f hf => by cases hf
  obtain ⟨⟨⟩, h, hrun, hh, habs⟩ := packetappend_spec hok hp (by decide) hsole
  have heval : ((packetappend 0 [0] >>= fun _ => vtSend 0 fun _ => true).run freshPart).map
      Prod.fst = .ok (some (frame [0])) := by decide +kernel
  rw [StateT.run_bind, hrun] at heval
  refine ⟨h, 0, hh, ?_⟩
  have hm : h.abs 0 = some [0] := by
    rw [habs, update_self]
    rfl
  cases hsend : (vtSend 0 fun _ => true).run h with
  | error e =>
    change ((vtSend 0 fun _ => true).run h).map Prod.fst = _ at heval
    rw [hsend] at heval
    cases heval
  | ok r =>
    change ((vtSend 0 fun _ => true).run h).map Prod.fst = _ at heval
    rw [hsend] at heval
    obtain ⟨w, t⟩ := r
    obtain rfl : w = some (frame [0]) := Except.ok.inj heval
    rw [Conn.exec, hsend, hm]

/-- The message `[0]` has been sent. -/
def oneSent : Conn := { Conn.start freshPart 0 with wire := frame [0], sent := [[0]] }

/-- The message is received, its length in two parts, when no `read` is interrupted. -/
theorem vtRecv_sound_oneSent : ∃ l c, Run (Guarded Conn.Calm Conn.Step)
    (Conn.start freshPart 0) l c ∧ c.sent = [[0]] ∧ c.received = c.sent.map some := by
  obtain ⟨hok, hp⟩ := freshPart_spec
  obtain ⟨h, q, hact, hsend⟩ := exists_send (Conn.start freshPart 0)
  have heval : (([.call, .read 0, .read 0, .read 0] : List Action).foldlM Conn.exec oneSent).map
      (fun c => (c.wire, c.sent)) = some ([], [[0]]) := by decide +kernel
  obtain ⟨c, hc, heq⟩ := Option.map_eq_some_iff.1 heval
  obtain ⟨hwire, hsent⟩ := Prod.mk.inj heq
  have hrun : Run (Guarded Conn.Calm Conn.Step) (Conn.start freshPart 0)
      (.send h q (fun _ => true) :: [.call, .read 0, .read 0, .read 0]) c := by
    refine Run.cons (t := oneSent) ⟨trivial, hact, hsend⟩ (Run.of_foldlM ?_ hc)
    intro d act hmem d' hd
    have hcases : act = .call ∨ act = .read 0 := by simpa using hmem
    rcases hcases with rfl | rfl <;> exact ⟨d.calm_of_ne (by simp), trivial, hd⟩
  exact ⟨_, c, hrun, hsent, (vtRecv_sound hok hp hrun).2.1 hwire⟩

/-- **An interrupted header**: the `read` for the length of `[0]` is interrupted, and an empty
message is received. -/
theorem interrupted_header : ∃ l c, Run Conn.Step (Conn.start freshPart 0) l c ∧
    freshPart.Ok ∧ freshPart.abs 0 = some [] ∧ c.sent = [[0]] ∧ c.received = [some []] := by
  obtain ⟨hok, hp⟩ := freshPart_spec
  obtain ⟨h, q, hact, hsend⟩ := exists_send (Conn.start freshPart 0)
  have heval : (([.call, .interrupt, .read 1, .read 0] : List Action).foldlM Conn.exec oneSent).map
      (fun c => (c.sent, c.received)) = some ([[0]], [some []]) := by decide +kernel
  obtain ⟨c, hc, heq⟩ := Option.map_eq_some_iff.1 heval
  obtain ⟨hsent, hrec⟩ := Prod.mk.inj heq
  refine ⟨.send h q (fun _ => true) :: [.call, .interrupt, .read 1, .read 0], c,
    Run.cons (t := oneSent) ⟨hact, hsend⟩ (Run.of_foldlM ?_ hc), hok, hp, hsent, hrec⟩
  intro d act hmem d' hd
  have hcases : act = .call ∨ act = .interrupt ∨ act = .read 1 ∨ act = .read 0 := by
    simpa using hmem
  rcases hcases with rfl | rfl | rfl | rfl <;> exact ⟨trivial, hd⟩

end LibVenti

end Plan9
