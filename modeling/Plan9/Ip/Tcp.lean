import Plan9.Lib.Run
import Plan9.Lib.Serial
import Plan9.Ip.Qio

/-!
# A TCP conversation

The control block of a conversation, its two queues, and what changes them: a
segment that arrives, the user's reads, writes and closes, and the timers.

The functions are those of the source under its names. `tcpiput` holds the lock
of the conversation over the whole of its loop, and is cut up at the loop: what
comes before is `Plan9.Ip.Conv.arrive`, and one turn is `Plan9.Ip.Conv.turn`. The
segment in hand between two turns is `Plan9.Ip.Conv.cur`; while there is one,
only the user's reads and writes, which take no lock but the queue's, come in
between. `tcpoutput` lets go of the lock after every fourth message; what it does
after that is `Plan9.Ip.Act.more`, a step that may be taken at any time.

A timer may fire at any time, so nothing here says which are running, and the
round trip times that set them are left out; whether a timer has been put off for
so long that the conversation is hung up is left open. So is whether a message
finds a route (`Plan9.Ip.Conv.route`), and whether there is memory for a
segment that waits.
-/

namespace Plan9

namespace Ip

open Lib (Run Guarded)
open Lib.Serial (signed)

/-! ### Sequence numbers -/

def seqWithin (x low high : UInt32) : Bool :=
  if low ≤ high then decide (low ≤ x) && decide (x ≤ high)
  else decide (low ≤ x) || decide (x ≤ high)

def seqLt (x y : UInt32) : Bool := decide (signed (x - y) < 0)

def seqLe (x y : UInt32) : Bool := decide (signed (x - y) ≤ 0)

def seqGt (x y : UInt32) : Bool := decide (0 < signed (x - y))

def seqGe (x y : UInt32) : Bool := decide (0 ≤ signed (x - y))

/-! ### The control block -/

inductive State
  | closed
  | listen
  | synSent
  | synReceived
  | established
  | finwait1
  | finwait2
  | closeWait
  | closing
  | lastAck
  | timeWait
  deriving DecidableEq

/-- The flags of a segment. -/
structure Flags where
  urg : Bool := false
  ack : Bool := false
  psh : Bool := false
  rst : Bool := false
  syn : Bool := false
  fin : Bool := false
  deriving DecidableEq

/-- What the header of a segment says. -/
structure Tcp where
  seq : UInt32
  ack : UInt32
  flags : Flags
  update : Bool := false
  ws : UInt16 := 0
  wnd : UInt32
  urg : UInt16 := 0
  mss : UInt16 := 0
  deriving DecidableEq

/-- A segment and its data. -/
structure Reseq where
  seg : Tcp
  bp : List Block
  length : UInt16
  deriving DecidableEq

structure Snd where
  una : UInt32
  nxt : UInt32
  ptr : UInt32
  wnd : UInt32
  urg : UInt32
  wl2 : UInt32
  dupacks : UInt32
  partialack : UInt32
  recovery : Bool
  retransmit : Bool
  rto : Bool
  rxt : UInt32

structure Rcv where
  nxt : UInt32
  wnd : UInt32
  wsnt : UInt32
  wptr : UInt32
  urg : UInt32
  ackptr : UInt32
  blocked : Bool
  scale : UInt16

structure Tcpctl where
  state : State
  snd : Snd
  rcv : Rcv
  iss : UInt32
  cwind : UInt32
  abcbytes : UInt32
  scale : UInt16
  ssthresh : UInt32
  mss : UInt16
  rerecv : ℤ
  window : UInt32
  qscale : UInt16
  force : Bool
  retran : Bool
  synack : Bool
  reseq : List Reseq
  nreseq : ℤ
  reseqlen : ℤ
  flgcnt : ℤ

/-- A conversation. The segments given to `ipoput` are remembered, and `route` says which of them
find a route. -/
structure Conv where
  tcb : Tcpctl
  rq : Queue
  wq : Queue
  cur : Option Reseq
  out : List (Tcp × List UInt8)
  route : ℕ → Bool
  panicked : Bool

def QMAX : UInt32 := 64 * 1024 - 1

def maxqscale : UInt16 := 4

namespace Tcpctl

variable (tcb : Tcpctl)

def dumpreseq : Tcpctl := { tcb with reseq := [], nreseq := 0, reseqlen := 0 }

def tcpcongestion : Tcpctl :=
  let inflight := min (tcb.snd.nxt - tcb.snd.una) tcb.cwind
  { tcb with ssthresh := max (inflight / 2) (2 * tcb.mss.toUInt32) }

/-- Appropriate byte counting: slow start below `ssthresh`, avoidance from there on. -/
def tcpabcincr (acked : UInt32) : Tcpctl :=
  let abcbytes := tcb.abcbytes + acked
  if tcb.cwind < tcb.ssthresh then
    let limit := if tcb.snd.rto then tcb.mss.toUInt32 else 2 * tcb.mss.toUInt32
    { tcb with cwind := tcb.cwind + min abcbytes limit, abcbytes := 0 }
  else if tcb.cwind ≤ abcbytes then
    { tcb with
      abcbytes := abcbytes - tcb.cwind, cwind := tcb.cwind + tcb.mss.toUInt32,
      snd := { tcb.snd with rto := false } }
  else { tcb with abcbytes, snd := { tcb.snd with rto := false } }

def initialwindow : Tcpctl :=
  { tcb with
    cwind := if tcb.mss < 1095 then 4 * tcb.mss.toUInt32
      else if tcb.mss < 2190 then 2 * 2190 else 2 * tcb.mss.toUInt32 }

/-- The state after a received SYN. -/
def procsyn (seg : Tcp) : Tcpctl :=
  let mss := if seg.mss ≠ 0 ∧ seg.mss < tcb.mss then seg.mss else tcb.mss
  initialwindow { tcb with
    force := true, mss, snd := { tcb.snd with wnd := seg.wnd },
    rcv := { tcb.rcv with
      nxt := seg.seq + 1, wptr := seg.seq + 1, wsnt := 0, urg := seg.seq + 1 } }

def inwindow (seq : UInt32) : Bool :=
  seqWithin seq tcb.rcv.nxt (tcb.rcv.nxt + tcb.rcv.wnd - 1)

/-- The segment takes its place by its sequence number, after those with the same. -/
def insert (r : Reseq) : List Reseq → List Reseq
  | [] => [r]
  | r' :: rs => if seqLt r.seg.seq r'.seg.seq then r :: r' :: rs else r' :: insert r rs

/-- With no memory the segment is dropped; with too many bytes or segments all are. -/
def addreseq (mem : Bool) (r : Reseq) : Tcpctl :=
  if mem = false then tcb
  else
    let added := { tcb with
      reseq := insert r tcb.reseq, nreseq := tcb.nreseq + 1,
      reseqlen := tcb.reseqlen + r.length.toNat }
    if signed tcb.window < added.reseqlen then added.dumpreseq
    else if signed (tcb.window / tcb.mss.toUInt32) < added.nreseq then added.dumpreseq
    else added

/-- The control block without the first segment that waits. -/
def getreseq : Tcpctl :=
  match tcb.reseq with
  | [] => tcb
  | r :: rs =>
    { tcb with reseq := rs, nreseq := tcb.nreseq - 1, reseqlen := tcb.reseqlen - r.length.toNat }

/-- Some part of the segment is in the window, with its flags counted in. -/
def accepts (seg : Tcp) (length : UInt16) : Bool :=
  let len := length + (if seg.flags.syn then 1 else 0) + (if seg.flags.fin then 1 else 0)
  tcb.inwindow seg.seq || decide (len ≠ 0) &&
    (tcb.inwindow (seg.seq + len.toUInt32 - 1) ||
      seqWithin tcb.rcv.nxt seg.seq (seg.seq + len.toUInt32 - 1))

/-- What the receiver has of the segment is cut off in front. -/
def trimDup (r : Reseq) : Tcpctl × Reseq :=
  let dupcnt := signed (tcb.rcv.nxt - r.seg.seq)
  if dupcnt ≤ 0 then (tcb, r)
  else
    let tcb' := { tcb with rerecv := tcb.rerecv + dupcnt }
    let syn := r.seg.flags.syn
    let seg := if syn = false then r.seg else
      { r.seg with
        seq := r.seg.seq + 1, urg := if 1 < r.seg.urg then r.seg.urg - 1 else r.seg.urg,
        flags := { r.seg.flags with
          syn := false, urg := r.seg.flags.urg && decide (1 < r.seg.urg) } }
    let dup := (dupcnt - (if syn then 1 else 0)).toNat
    if dup = 0 then (tcb', { r with seg })
    else
      let urgent := decide (dup < seg.urg.toNat)
      (tcb', {
        seg := { seg with
          seq := seg.seq + UInt32.ofNat dup,
          urg := if urgent then seg.urg - UInt16.ofNat dup else 0,
          flags := { seg.flags with urg := seg.flags.urg && urgent } },
        bp := pullblock r.bp (dup % 65536), length := r.length - UInt16.ofNat dup })

/-- The result of `tcptrim`. -/
inductive Trim
  /-- Nothing of the segment is in the window. -/
  | outside
  | panic
  | kept (tcb : Tcpctl) (r : Reseq)

/-- What does not fit the window is cut off at the end, with the FIN. -/
def trimExcess (r : Reseq) : Trim :=
  let excess := signed (r.seg.seq + r.length.toUInt32 - (tcb.rcv.nxt + tcb.rcv.wnd))
  if excess ≤ 0 then .kept tcb r
  else
    let length := r.length - UInt16.ofNat excess.toNat
    match trimblock r.bp 0 length.toNat with
    | none | some [] => .panic
    | some bp =>
      .kept { tcb with rerecv := tcb.rerecv + excess }
        { seg := { r.seg with flags := { r.seg.flags with fin := false } }, bp, length }

def tcptrim (r : Reseq) : Trim :=
  if tcb.rcv.wnd = 0 then
    -- a bare acknowledgement, or one whose length has come round to nothing
    if r.length + (if r.seg.flags.syn then 1 else 0) + (if r.seg.flags.fin then 1 else 0) = 0 ∧
        r.seg.seq = tcb.rcv.nxt then .kept tcb r
    else .outside
  else if tcb.accepts r.seg r.length then
    (tcb.trimDup r).1.trimExcess (tcb.trimDup r).2
  else .outside

end Tcpctl

/-! ### The conversation -/

namespace Conv

variable (s : Conv)

def mapSnd (f : Snd → Snd) : Conv := { s with tcb := { s.tcb with snd := f s.tcb.snd } }

def mapRcv (f : Rcv → Rcv) : Conv := { s with tcb := { s.tcb with rcv := f s.tcb.rcv } }

def force : Conv := { s with tcb := { s.tcb with force := true } }

/-- Nothing is queued, and no flag of ours waits for an acknowledgement. -/
def allAcked : Bool := decide (s.wq.qlen + s.tcb.flgcnt = 0)

def tcpsetstate (newstate : State) : Conv :=
  if s.tcb.state = newstate then s
  else
    let t := { s with tcb := { s.tcb with state := newstate } }
    match newstate with
    | .closed => { t with rq := s.rq.qclose, wq := s.wq.qclose }
    | .closeWait => { t with rq := s.rq.qhangup }
    | _ => t

def localclose : Conv :=
  tcpsetstate { s with
    tcb := s.tcb.dumpreseq, rq := s.rq.qhangup, wq := s.wq.qhangup } .closed

/-- What there is room for, but no less than was promised. -/
def room : UInt32 :=
  let left := s.tcb.window - UInt32.ofNat s.rq.qlen
  let left := if signed left < 0 then 0 else left
  if seqLt (s.tcb.rcv.nxt + left) s.tcb.rcv.wptr then s.tcb.rcv.wptr - s.tcb.rcv.nxt else left

def tcprcvwin : Conv :=
  let w := s.room
  let small := decide (signed w >>> s.tcb.rcv.scale.toNat = 0) ||
    decide (4 * s.tcb.mss.toUInt32 < s.tcb.window) && decide (signed w < s.tcb.mss.toNat / 4)
  s.mapRcv fun rcv => { rcv with
    blocked := rcv.blocked || decide (w ≠ rcv.wnd) && small, wnd := w, wptr := rcv.nxt + w }

def tcpsetscale (rcvscale : UInt16) : Conv :=
  let qscale := if maxqscale < rcvscale then maxqscale else rcvscale &&& 0xff
  let window := QMAX <<< qscale.toUInt32
  tcprcvwin { s with
    tcb := { s.tcb with
      rcv := { s.tcb.rcv with scale := rcvscale &&& 0xff }, qscale, window, ssthresh := window },
    rq := s.rq.qsetlimit window.toNat, wq := s.wq.qsetlimit window.toNat }

/-- A call that has been answered and not yet accepted. -/
structure Limbo where
  irs : UInt32
  iss : UInt32
  mss : UInt16
  rcvscale : UInt16

def QUEUE : Queue := { blocks := [], limit := QMAX.toNat, closed := false, gone := [] }

/-- The conversation that `tcpincoming` makes of a call in limbo, on the acknowledgement `segp` of
its SYN; `mtu` is what `tcpmtu` finds, and `route` which segments will find a route. -/
def tcpincoming (lp : Limbo) (segp : Tcp) (mtu : UInt16) (route : ℕ → Bool) : Conv :=
  let new : Conv := {
    tcb := {
      state := .listen
      snd := {
        una := lp.iss + 1, nxt := lp.iss + 1, ptr := lp.iss + 1, wnd := 0, urg := 0,
        wl2 := lp.iss, dupacks := 0, partialack := 0, recovery := false, retransmit := false,
        rto := false, rxt := lp.iss + 1 }
      rcv := {
        nxt := lp.irs + 1, wnd := 0, wsnt := 0, wptr := lp.irs + 1, urg := lp.irs + 1,
        ackptr := 0, blocked := false, scale := 0 }
      iss := lp.iss, cwind := 0, abcbytes := 0, scale := 4, ssthresh := QMAX
      mss := if lp.mss ≠ 0 ∧ lp.mss < mtu then lp.mss else mtu
      rerecv := 0, window := QMAX, qscale := 0, force := false, retran := false, synack := true
      reseq := [], nreseq := 0, reseqlen := 0, flgcnt := 0 }
    rq := QUEUE, wq := QUEUE, cur := none, out := [], route, panicked := false }
  let new := new.tcpsetscale lp.rcvscale
  { new with
    tcb := Tcpctl.initialwindow
      { new.tcb with snd := { new.tcb.snd with wnd := segp.wnd } } }
    |>.tcpsetstate .established

/-- How much may be sent: one byte into a closed window, else what the windows leave open. -/
def usable (sndcnt sent : UInt32) : UInt32 :=
  if s.tcb.snd.wnd = 0 then
    if sndcnt ≤ sent then 0 else 1
  else
    let ssize := min (min sndcnt s.tcb.cwind) s.tcb.snd.wnd
    if ssize < sent then 0 else min (ssize - sent) s.tcb.mss.toUInt32

/-- The header of the next segment, the size of it in sequence numbers, and of its data. -/
def header (ssize : UInt32) : Tcp × UInt32 × UInt32 :=
  let seg : Tcp := {
    seq := s.tcb.snd.ptr, ack := s.tcb.rcv.nxt, wnd := s.tcb.rcv.wnd, flags := { ack := true } }
  let syn := { seg with mss := s.tcb.mss, ws := s.tcb.scale }
  match s.tcb.state with
  | .synSent =>
    if s.tcb.snd.ptr = s.tcb.iss then ({ syn with flags := { syn := true } }, ssize, ssize - 1)
    else ({ seg with flags := {} }, ssize, ssize)
  | .synReceived =>
    if s.tcb.snd.ptr = s.tcb.iss then ({ syn with flags := { ack := true, syn := true } }, 1, 0)
    else (seg, ssize, ssize)
  | _ => (seg, ssize, ssize)

/-- A segment of `ssize` sequence numbers is put together and sent. -/
def send (ssize : UInt32) : Conv :=
  let sndcnt := UInt32.ofInt (s.wq.qlen + s.tcb.flgcnt)
  let sent := s.tcb.snd.ptr - s.tcb.snd.una
  let (seg, ssize, dsize) := s.header ssize
  let data := if dsize = 0 then [] else s.wq.qcopy dsize.toNat sent.toNat
  let fin := decide (data.length ≠ dsize.toNat)
  let dsize := if fin then dsize - 1 else dsize
  let seg := { seg with flags := { seg.flags with
    fin, psh := decide (sent + dsize = sndcnt) && decide (dsize ≠ 0) } }
  let ptr := s.tcb.snd.ptr + ssize
  let t := { s with
    tcb := { s.tcb with
      force := false,
      snd := { s.tcb.snd with ptr, nxt := if seqGt ptr s.tcb.snd.nxt then ptr else s.tcb.snd.nxt },
      rcv := { s.tcb.rcv with ackptr := seg.ack, wsnt := s.tcb.rcv.wptr } },
    out := s.out ++ [(seg, data)] }
  if s.route s.out.length then t else t.localclose

/-- A window that has opened up forces an acknowledgement. -/
def unblock : Conv :=
  if s.tcb.rcv.blocked && decide (0 < s.tcb.rcv.wnd) then
    (s.mapRcv fun rcv => { rcv with blocked := false }).force
  else s

/-- What a turn of the loop of `tcpoutput` sends, if it sends anything. -/
def sendable : Option UInt32 :=
  let sndcnt := UInt32.ofInt (s.wq.qlen + s.tcb.flgcnt)
  let sent := s.tcb.snd.ptr - s.tcb.snd.una
  -- already probing: the retransmission timer probes again
  if s.tcb.snd.wnd = 0 ∧ 0 < sent ∧ s.tcb.force = false then none
  else
    let ssize := s.usable sndcnt sent
    if s.tcb.force = false ∧ (ssize = 0 ∨ ssize < s.tcb.mss.toUInt32 ∧
        s.tcb.snd.nxt = s.tcb.snd.ptr ∧ 3 * s.tcb.mss.toUInt32 < sent) then none
    else some ssize

/-- Whether `tcpoutput` sends anything in this state. -/
def silent : Bool :=
  match s.tcb.state with
  | .listen | .closed | .finwait2 => true
  -- nothing else is sent until our SYN has been acked
  | _ => decide (s.tcb.snd.ptr ≠ s.tcb.iss) && !s.tcb.synack

/-- A turn of the loop of `tcpoutput`, and whether there is another one. -/
def message : Conv × Bool :=
  if s.silent then (s, false)
  else
    let t := s.tcprcvwin.unblock
    match t.sendable with
    | none => (t, false)
    | some ssize => (t.send ssize, true)

/-- Turns of the loop, as long as the lock is held. -/
def messages : ℕ → Conv → Conv
  | 0, s => s
  | k + 1, s => if s.message.2 then messages k s.message.1 else s.message.1

/-- An acknowledgement is forced every second segment, and when the window opens. -/
def forced : Conv :=
  if s.tcb.force then s
  else if 2 * s.tcb.mss.toUInt32 ≤ s.tcb.rcv.nxt - s.tcb.rcv.ackptr then s.force
  else
    let t := s.tcprcvwin
    if 2 * (t.tcb.mss.toNat : ℤ) ≤ signed (t.tcb.rcv.wptr - t.tcb.rcv.wsnt) then t.force else t

def tcpoutput : Conv := messages 4 s.forced

/-- One segment is sent again from `snd.una` on; `cwind` and `snd.ptr` are as before. -/
def tcprxmit : Conv :=
  let t := tcpoutput { s with tcb := { s.tcb with
    retran := true, force := true, cwind := s.tcb.mss.toUInt32,
    snd := { s.tcb.snd with ptr := s.tcb.snd.una, retransmit := true } } }
  { t with tcb := { t.tcb with
    cwind := s.tcb.cwind, snd := { t.tcb.snd with ptr := s.tcb.snd.ptr, retransmit := false } } }

/-! ### Acknowledgements -/

/-- Recovery is entered, or goes on. -/
def recover (seg : Tcp) : Conv :=
  if s.tcb.snd.recovery then
    { s with tcb := { s.tcb with cwind := s.tcb.cwind + s.tcb.mss.toUInt32 } }
  else if seqLe s.tcb.snd.rxt seg.ack then
    let tcb := Tcpctl.tcpcongestion { s.tcb with
      abcbytes := 0,
      snd := { s.tcb.snd with recovery := true, partialack := 0, rxt := s.tcb.snd.nxt } }
    tcprxmit { s with tcb := { tcb with cwind := tcb.ssthresh + 3 * tcb.mss.toUInt32 } }
  else s

/-- The same is acknowledged again, and there is more to acknowledge. -/
def duplicate (seg : Tcp) : Bool :=
  decide (seg.ack = s.tcb.snd.una) && decide (s.tcb.snd.una ≠ s.tcb.snd.nxt)

def countDup (seg : Tcp) : Conv :=
  if s.duplicate seg then s.mapSnd fun snd => { snd with dupacks := snd.dupacks + 1 } else s

/-- A window that opens again and the third duplicate acknowledgement lead to recovery. -/
def fastRetransmit (seg : Tcp) : Conv :=
  if s.tcb.snd.wnd = 0 ∧ 0 < seg.wnd ∧ seqLt seg.ack s.tcb.snd.ptr then
    (s.mapSnd fun snd => { snd with wnd := seg.wnd }).recover seg
  else
    let t := s.countDup seg
    if s.duplicate seg && decide (t.tcb.snd.dupacks = 3) then t.recover seg
    else if t.tcb.snd.recovery then
      { t with tcb := { t.tcb with cwind := t.tcb.cwind + t.tcb.mss.toUInt32 } }
    else t

def updateWindow (seg : Tcp) : Conv :=
  if seqGt seg.ack s.tcb.snd.wl2 ∨ s.tcb.snd.wl2 = seg.ack ∧ s.tcb.snd.wnd < seg.wnd then
    s.mapSnd fun snd => { snd with
      dupacks := if snd.wl2 = seg.ack then snd.dupacks else 0, wnd := seg.wnd, wl2 := seg.ack }
  else s

/-- Congestion control for `acked` bytes. -/
def congestion (seg : Tcp) (acked : UInt32) : Conv :=
  let mss := s.tcb.mss.toUInt32
  if s.tcb.snd.recovery then
    if seqGe seg.ack s.tcb.snd.rxt then
      { s with tcb := { s.tcb with
        cwind := min (s.tcb.snd.nxt - s.tcb.snd.una + mss) s.tcb.ssthresh,
        snd := { s.tcb.snd with dupacks := 0, recovery := false } } }
    else
      -- a partial acknowledgement: more than one segment was lost
      let cwind := if acked < s.tcb.cwind then s.tcb.cwind - acked else mss
      { s with tcb := { s.tcb with
        cwind := if mss ≤ acked then cwind + mss else cwind,
        snd := { s.tcb.snd with partialack := s.tcb.snd.partialack + 1 } } }
  else { s with tcb := s.tcb.tcpabcincr acked }

/-- The acknowledged bytes leave the queue. When there are fewer of them than were acknowledged
one was a flag. -/
def dequeue (seg : Tcp) (acked : UInt32) : Conv :=
  { s with
    wq := (s.wq.qdiscard acked.toNat).1,
    tcb := { s.tcb with
      flgcnt := if (s.wq.qdiscard acked.toNat).2 < acked.toNat then s.tcb.flgcnt - 1
        else s.tcb.flgcnt,
      snd := { s.tcb.snd with una := seg.ack } } }

/-- In recovery every acknowledgement has one more segment sent. -/
def fastRecovery : Conv := if s.tcb.snd.recovery then s.tcprxmit else s

def discard (seg : Tcp) (acked : UInt32) : Conv :=
  let t := (s.dequeue seg acked).fastRecovery.mapSnd fun snd => { snd with
    urg := if seqGt seg.ack snd.urg then seg.ack else snd.urg,
    ptr := if seqLt snd.ptr snd.una then snd.una else snd.ptr }
  if t.tcb.snd.recovery then t else { t with tcb := { t.tcb with retran := false } }

/-- Our SYN has been acknowledged. -/
def synAcked : Conv := { s with tcb := { s.tcb with synack := true, flgcnt := s.tcb.flgcnt - 1 } }

def update (seg : Tcp) : Conv :=
  if seg.update then s
  else
    let t := (s.fastRetransmit seg).updateWindow seg
    if seqGt seg.ack t.tcb.snd.una = false then t
    else
      let acked := seg.ack - t.tcb.snd.una
      if t.tcb.synack = false then t.synAcked.discard seg (acked - 1)
      else (t.congestion seg acked).discard seg acked

/-! ### A segment arrives -/

inductive Version
  | v4
  | v6
  deriving DecidableEq

/-- The headers in front of TCP's in a packet, `TCP4_PKT` or `TCP6_PKT`. -/
def Version.pkt : Version → ℕ
  | .v4 => 20
  | .v6 => 40

/-- A packet whose header has been read: `plen` is the length the datagram claims, `hdrlen` that of
the TCP header. -/
structure Packet where
  version : Version
  plen : UInt16
  hdrlen : UInt16
  seg : Tcp
  bp : List Block

/-- The packet is cut to the size claimed by the datagram; a packet too short for that, or for its
headers, is dropped. -/
def Packet.trim (pk : Packet) : Option Reseq :=
  if pk.hdrlen < 20 then none
  else
    let length := match pk.version with
      | .v4 => pk.plen - (pk.hdrlen + 20)
      | .v6 => pk.plen - pk.hdrlen
    (trimblock pk.bp (pk.hdrlen.toNat + pk.version.pkt) length.toNat).map fun bp =>
      { seg := { pk.seg with update := false }, bp, length }

/-- `tcpiput` in `Syn_sent`; `.error` when it is done with the segment. -/
def synSent (r : Reseq) : Except Conv Conv :=
  let seg := r.seg
  if seg.flags.ack ∧ seqWithin seg.ack (s.tcb.iss + 1) s.tcb.snd.nxt = false then .error s
  else if seg.flags.rst then .error (if seg.flags.ack then s.localclose else s)
  else if seg.flags.syn = false then .error s
  else
    let t := { s with tcb := s.tcb.procsyn seg }
    let t := if seg.flags.ack then
        ((t.update seg).tcpsetstate .established).tcpsetscale seg.ws
      else t.tcpsetstate .synReceived
    if r.length ≠ 0 ∨ seg.flags.fin then .ok t else .error t.tcpoutput

/-- The segment is outside the window: it is used for what it acknowledges, and answered. -/
def reject (seg : Tcp) : Conv :=
  let t := s.update seg
  let t := if t.allAcked ∧ t.tcb.state = .closing then t.tcpsetstate .timeWait else t
  if seg.flags.rst then t else t.force.tcpoutput

/-- The segment waits, and what has arrived is acknowledged again. -/
def wait (mem : Bool) (r : Reseq) : Conv :=
  let t := s.update r.seg
  let r := { r with seg := { r.seg with update := true } }
  tcpoutput (force { t with tcb := t.tcb.addreseq mem r })

/-- The segment is taken in hand. When it fills a hole the acknowledgement is forced. -/
def takeUp (r : Reseq) : Conv :=
  let t := if 0 < s.tcb.nreseq then s.force else s
  { t with cur := some r }

/-- A segment beyond `rcv.nxt` waits; any other is taken in hand. -/
def accept (mem : Bool) (r : Reseq) : Conv :=
  if r.length ≠ 0 ∧ s.tcb.state = .closed then s
  else if r.seg.seq ≠ s.tcb.rcv.nxt ∧ (r.length ≠ 0 ∨ r.seg.flags.syn ∨ r.seg.flags.fin) then
    s.wait mem r
  else s.takeUp r

/-- The segment is cut to the window. -/
def window (mem : Bool) (r : Reseq) : Conv :=
  let t := s.tcprcvwin
  match t.tcb.tcptrim r with
  | .panic => { t with panicked := true }
  | .outside => t.reject r.seg
  | .kept tcb r => { t with tcb }.accept mem r

/-- Someone took the port and left it; `hog` when this defence is on. -/
def hogged (hog : Bool) (seg : Tcp) : Conv :=
  if s.tcb.state ≠ .synReceived ∧ seg.flags.rst = false ∧ hog ∧
      seqWithin seg.ack (s.tcb.snd.una - 2147483648) (s.tcb.snd.una - 536870912) then s.localclose
  else s

/-- `tcpiput` up to its loop. -/
def receive (mem hog : Bool) (r : Reseq) : Conv :=
  let r := { r with seg := { r.seg with wnd := r.seg.wnd <<< s.tcb.rcv.scale.toUInt32 } }
  match s.tcb.state with
  -- a listener answers from its table of calls; a closed conversation with a reset
  | .closed | .listen => s
  | .synSent =>
    match s.synSent r with
    | .error t => t
    | .ok t => (t.hogged hog r.seg).window mem
      { r with seg := { r.seg with update := r.seg.flags.ack } }
  | _ => (s.hogged hog r.seg).window mem r

def arrive (pk : Packet) (mem hog : Bool) : Conv :=
  match pk.trim with
  | none => s
  | some r => s.receive mem hog r

/-! ### A turn of the loop -/

/-- What a turn does first: the acknowledgement is taken in, and may move the state on. -/
def acknowledge (seg : Tcp) : Except Conv Conv :=
  if seg.flags.rst then .error s.localclose
  else if seg.flags.ack = false then .error s
  else
    let t := s.update seg
    match s.tcb.state with
    | .synReceived =>
      if seqWithin seg.ack (s.tcb.snd.una + 1) s.tcb.snd.nxt then .ok (t.tcpsetstate .established)
      else .error s
    | .established | .closeWait | .finwait2 => .ok t
    | .finwait1 => .ok (if t.allAcked then t.tcpsetstate .finwait2 else t)
    | .closing => .ok (if t.allAcked then t.tcpsetstate .timeWait else t)
    | .lastAck => if t.allAcked then .error t.localclose else .ok t.force
    | .timeWait => .ok s.force
    | .closed | .listen | .synSent => .ok s

/-- Urgent data is skipped. -/
def urgent (r : Reseq) : Conv × List Block :=
  if r.seg.flags.urg ∧ r.seg.urg ≠ 0 then
    let urg := r.seg.urg.toUInt32 + r.seg.seq
    if seqGt urg s.tcb.rcv.urg then
      (s.mapRcv fun rcv => { rcv with urg }, pullblock r.bp r.seg.urg.toNat)
    else (s, r.bp)
  else if seqGt s.tcb.rcv.nxt s.tcb.rcv.urg then
    (s.mapRcv fun rcv => { rcv with urg := rcv.nxt }, r.bp)
  else (s, r.bp)

/-- The text is put in the queue of the reader, and `rcv.nxt` steps over it. -/
def passText (bp : List Block) (length : UInt16) : Conv :=
  let rq := if bp = [] then s.rq else s.rq.qpassnolim (packblock bp)
  { s with rq }.mapRcv fun rcv => { rcv with nxt := rcv.nxt + length.toUInt32 }

/-- The text of the segment goes to the reader, in the states that have one. -/
def text (bp : List Block) (length : UInt16) : Except Conv Conv :=
  if length = 0 then .ok s
  else
    match s.tcb.state with
    | .synReceived | .established | .finwait1 => .ok (s.passText bp length)
    -- no process to read the data
    | .finwait2 => .error s
    | _ => .ok s

/-- `rcv.nxt` steps over the FIN. -/
def stepFin : Conv := s.mapRcv fun rcv => { rcv with nxt := rcv.nxt + 1 }

/-- The other end has closed. -/
def fin (seg : Tcp) : Conv :=
  if seg.flags.fin = false then s
  else
    let s := s.force
    match s.tcb.state with
    | .synReceived | .established => s.stepFin.tcpsetstate .closeWait
    | .finwait1 =>
      if s.allAcked then s.stepFin.tcpsetstate .timeWait else s.stepFin.tcpsetstate .closing
    | .finwait2 => s.stepFin.tcpsetstate .timeWait
    | _ => s

/-- The first segment no longer waits. -/
def popreseq : Conv := tcprcvwin { s with tcb := s.tcb.getreseq }

/-- The next adjacent segment of those that wait is taken in hand; what overlaps is dropped. -/
def adjacent (s : Conv) : List Reseq → Conv
  | [] => s.tcpoutput
  | r :: rs =>
    if seqGe s.tcb.rcv.nxt r.seg.seq = false then s.tcpoutput
    else
      match s.popreseq.tcb.tcptrim r with
      | .panic => { s.popreseq with panicked := true }
      | .outside => s.popreseq.adjacent rs
      | .kept tcb r => { s.popreseq with tcb, cur := some r }.force

/-- A turn of the loop of `tcpiput`, after the acknowledgement. -/
def deliver (r : Reseq) : Except Conv Conv :=
  let (t, bp) := s.urgent r
  match t.text bp r.length with
  | .error u => .error u
  | .ok u =>
    let u := u.fin r.seg
    .ok (u.adjacent u.tcb.reseq)

/-- A turn of the loop of `tcpiput`. -/
def turn (r : Reseq) : Except Conv Conv :=
  match { s with cur := none }.acknowledge r.seg with
  | .error t => .error t
  | .ok t => t.deliver r

/-! ### The user and the timers -/

def tcpclosestate (state : State) : Conv :=
  ({ s with tcb := { s.tcb with
    flgcnt := s.tcb.flgcnt + 1, snd := { s.tcb.snd with nxt := s.tcb.snd.nxt + 1 } } }.tcpsetstate
      state).tcpoutput

/-- The output half is closed. -/
def tcpxmitclose : Conv :=
  let s := { s with wq := s.wq.qhangup }
  match s.tcb.state with
  | .listen | .closed | .synSent => s.localclose
  | .synReceived | .established | .closeWait => s.tcpclosestate s.tcb.state
  | _ => s

def tcpclose : Conv :=
  let s := { s with rq := s.rq.qhangup.qflush, wq := s.wq.qhangup }
  match s.tcb.state with
  | .listen | .closed | .synSent => s.localclose
  | .synReceived | .established => s.tcpclosestate .finwait1
  | .closeWait => s.tcpclosestate .lastAck
  | _ => s

def tcpkick : Conv :=
  match s.tcb.state with
  | .synSent | .synReceived | .established | .closeWait => s.tcpoutput
  | _ => s.localclose

def tcpacktimer : Conv := if s.tcb.state = .closed then s else s.force.tcpoutput

/-- The retransmission timer; `hang` when it was put off for too long. -/
def tcptimeout (hang : Bool) : Conv :=
  match s.tcb.state with
  | .timeWait => s.localclose
  | .closed => s
  | _ =>
    if hang then s.localclose
    else
      let s := if s.tcb.snd.rto then s else { s with tcb := s.tcb.tcpcongestion }
      let t := s.tcprxmit
      { t with tcb := { t.tcb with
        cwind := t.tcb.mss.toUInt32, abcbytes := 0,
        snd := { t.tcb.snd with
          ptr := t.tcb.snd.una, rto := true, recovery := false,
          dupacks := if t.tcb.snd.recovery then 0 else t.tcb.snd.dupacks,
          rxt := if t.tcb.snd.recovery then t.tcb.snd.nxt else t.tcb.snd.rxt } } }

/-- The keepalive timer. What it sends is not remembered: it is a byte that was acknowledged. -/
def tcpkeepalive (hang : Bool) : Conv :=
  if s.tcb.state = .closed then s
  else if hang then s.localclose
  else (s.mapRcv fun rcv => { rcv with ackptr := rcv.nxt }).tcprcvwin

/-! ### Steps -/

/-- What can happen. -/
inductive Act
  | arrive (pk : Packet) (mem hog : Bool)
  | turn
  | read (n : ℕ)
  | write (b : Block)
  | xmitclose
  | close
  | kick
  | acktimer
  | more
  | timeout (hang : Bool)
  | keepalive (hang : Bool)

/-- A step of someone who has the lock of the conversation. -/
def locked : Act → Conv
  | .arrive pk mem hog => s.arrive pk mem hog
  | .xmitclose => s.tcpxmitclose
  | .close => s.tcpclose
  | .kick => s.tcpkick
  | .acktimer => s.tcpacktimer
  | .more => s.messages 4
  | .timeout hang => s.tcptimeout hang
  | .keepalive hang => s.tcpkeepalive hang
  | .turn | .read _ | .write _ => s

/-- The conversation when `tcpiput` has finished a turn: with the next segment in hand, or with the
lock let go. -/
def finished : Except Conv Conv → Conv
  | .error t | .ok t => t

def act : Act → Option Conv
  | .read n => some { s with rq := s.rq.qread n }
  | .write b => some { s with wq := s.wq.qbwrite b }
  | .turn => s.cur.map fun r => finished (s.turn r)
  | a => if s.cur.isNone then some (s.locked a) else none

/-- The steps of a conversation that has not panicked. -/
def Step (s : Conv) (a : Act) (t : Conv) : Prop := s.panicked = false ∧ s.act a = some t

end Conv

end Ip

end Plan9
