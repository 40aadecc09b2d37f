import Mathlib.Tactic.Ring
import Plan9.Ip.TcpReceive

/-!
# The advertised window

`tcprcvwin` computes the window anew before every segment that is sent, and takes care that its
right edge, `rcv.wptr`, does not move left (`Plan9.Ip.Kept.wptr_le`). What the other end sees of
the window are the 16 bits of a header, `htontcp` here, shifted left by the scale again. The bits
below the scale are lost, and so are those that have no place above the sixteen
(`Plan9.Ip.unsaid`); and as the acknowledgement moves on under an edge that stands still, what is
lost changes, and the edge that the other end computes may move left
(`Plan9.Ip.advertised_shrinks`). It does so exactly when what is lost grows by more than the reader
has taken from the queue (`Plan9.Ip.advertised_iff`).
-/

namespace Plan9

namespace Ip

open Lib (Run)
open List
open Lib.Serial (signed At)

/-! ### The steps -/

/-- The window in the header of a segment: `htontcp4` and `htontcp6`, with `snd.scale`. -/
def htontcp (scale : UInt16) (seg : Tcp) : UInt16 := (seg.wnd >>> scale.toUInt32).toUInt16

/-- The next data of the stream arrives. -/
structure Conv.InOrder (s : Conv) (r : Reseq) : Prop where
  seq : r.seg.seq = s.tcb.rcv.nxt
  syn : r.seg.flags.syn = false
  fin : r.seg.flags.fin = false
  length : (bytes r.bp).length = r.length.toNat

/-- The data is cut to the window and passed to the reader; how many bytes there were. -/
def Conv.take (s : Conv) (r : Reseq) : Conv × ℕ :=
  let t := s.tcprcvwin
  match t.tcb.tcptrim r with
  | .kept tcb r => ({ t with tcb }.passText r.bp r.length, r.length.toNat)
  | _ => (t, 0)

/-- A segment that was sent: where the stream stood and what was in the queue of the reader, and
the acknowledgement and the window in the header. -/
structure Sent where
  received : ℕ
  qlen : ℕ
  ack : UInt32
  win : UInt16

/-- The place of the right edge that the other end computes. -/
def Sent.edge (scale : UInt16) (e : Sent) : ℕ := e.received + e.win.toNat * 2 ^ scale.toNat

/-- A conversation, the bytes it has received and the segments it has sent, the last one first. -/
structure World where
  conv : Conv
  received : ℕ
  sent : List Sent

inductive World.Act
  | take (r : Reseq)
  | read (n : ℕ)
  | send (ssize : UInt32)
  | sendka

namespace World

variable (scale : UInt16) (w : World)

/-- The segment `seg` goes out. -/
def note (conv : Conv) (seg : Tcp) : World :=
  { w with conv, sent := ⟨w.received, w.conv.rq.qlen, seg.ack, htontcp scale seg⟩ :: w.sent }

def step : Act → World
  | .take r => { w with conv := (w.conv.take r).1, received := w.received + (w.conv.take r).2 }
  | .read n => { w with conv := { w.conv with rq := w.conv.rq.qread n } }
  | .send ssize =>
    let t := w.conv.tcprcvwin.unblock
    w.note scale (t.send ssize) (t.header ssize).1
  | .sendka =>
    let t := (w.conv.mapRcv fun rcv => { rcv with ackptr := rcv.nxt }).tcprcvwin
    w.note scale t {
      seq := t.tcb.snd.una - 1, ack := t.tcb.rcv.nxt, wnd := t.tcb.rcv.wnd
      flags := { ack := true, psh := true } }

/-- Data in order, reads and segments in any order. -/
def Step (a : Act) (w' : World) : Prop :=
  (∀ r, a = .take r → w.conv.InOrder r) ∧ w' = w.step scale a

end World

/-- A conversation that begins: nothing is promised and nothing received. -/
def Conv.Fresh (s : Conv) : Prop := s.tcb.rcv.wptr = s.tcb.rcv.nxt ∧ s.rq.blocks = []

/-! ### What a header leaves out -/

/-- One of two moments is the later one: what came in between is in the queue or was read. -/
def Follows (b a : Sent) : Prop :=
  a.received ≤ b.received ∧ a.received + b.qlen ≤ b.received + a.qlen

theorem Follows.trans {a b c : Sent} (h : Follows c b) (h' : Follows b a) : Follows c a := by
  obtain ⟨h1, h2⟩ := h
  obtain ⟨h3, h4⟩ := h'
  exact ⟨by omega, by omega⟩

/-- What is known of a conversation with a window of `window` bytes, whose stream begins at the
number `i`. -/
structure Kept (i : UInt32) (window received : ℕ) (s : Conv) : Prop where
  toNat_window : s.tcb.window.toNat = window
  window_le : window ≤ 1048560
  nxt : At i received s.tcb.rcv.nxt
  edge : ∃ e : ℕ, At i e s.tcb.rcv.wptr ∧ received ≤ e ∧ e + s.rq.qlen ≤ received + window

namespace Kept

variable {i : UInt32} {window received : ℕ} {s t : Conv}

section

variable (h : Kept i window received s)

include h

theorem congr (hwindow : t.tcb.window = s.tcb.window)
    (hnxt : t.tcb.rcv.nxt = s.tcb.rcv.nxt) (hwptr : t.tcb.rcv.wptr = s.tcb.rcv.wptr)
    (hqlen : t.rq.qlen ≤ s.rq.qlen) : Kept i window received t where
  toNat_window := hwindow ▸ h.toNat_window
  window_le := h.window_le
  nxt := hnxt ▸ h.nxt
  edge := by
    obtain ⟨e, hat, hle, hroom⟩ := h.edge
    exact ⟨e, hwptr ▸ hat, hle, by omega⟩

theorem qlen_le : s.rq.qlen ≤ window := by
  obtain ⟨e, -, hle, hroom⟩ := h.edge
  omega

/-- **The window** is what the queue leaves free: the edge promised before is not beyond that. -/
theorem toNat_room : s.room.toNat = window - s.rq.qlen := by
  obtain ⟨e, hat, hle, hroom⟩ := h.edge
  have hwindow := h.toNat_window
  have hbound := h.window_le
  have hqlen : (UInt32.ofNat s.rq.qlen).toNat = s.rq.qlen := ofNat_toNat_of_lt (by omega)
  have hsub := Lib.Serial.toNat_sub s.tcb.window (UInt32.ofNat s.rq.qlen)
  rw [hqlen, hwindow] at hsub
  have hleft : (s.tcb.window - UInt32.ofNat s.rq.qlen).toNat = window - s.rq.qlen := by omega
  have hpos : ¬signed (s.tcb.window - UInt32.ofNat s.rq.qlen) < 0 := by
    rw [signed, hleft, if_pos (by omega)]
    omega
  have hnew := h.nxt.add (d := s.tcb.window - UInt32.ofNat s.rq.qlen) rfl
  have hlt := seqLt_iff hnew hat (by omega) (by omega)
  rw [Conv.room]
  simp only [if_neg hpos]
  rw [if_neg, hleft]
  rw [hlt]
  omega

/-- **`tcprcvwin` keeps the invariant**, and leaves the edge where the queue ends. -/
theorem tcprcvwin : Kept i window received s.tcprcvwin ∧
    At i (received + (window - s.rq.qlen) : ℕ) s.tcprcvwin.tcb.rcv.wptr ∧
      s.tcprcvwin.tcb.rcv.wnd.toNat = window - s.rq.qlen := by
  have hroom := h.toNat_room
  have hqlen := h.qlen_le
  have hat : At i (received + (window - s.rq.qlen) : ℕ) s.tcprcvwin.tcb.rcv.wptr := by
    have hadd := h.nxt.add (d := s.room) rfl
    rw [hroom] at hadd
    push_cast
    exact hadd
  refine ⟨⟨h.toNat_window, h.window_le, h.nxt, _, hat, Nat.le_add_right _ _, ?_⟩, hat, hroom⟩
  show received + (window - s.rq.qlen) + s.rq.qlen ≤ received + window
  omega

/-- **The edge moves right.** -/
theorem wptr_le :
    0 ≤ signed (s.tcprcvwin.tcb.rcv.wptr - s.tcb.rcv.wptr) := by
  obtain ⟨-, hat', -⟩ := h.tcprcvwin
  obtain ⟨e, hat, hle, hroom⟩ := h.edge
  have hbound := h.window_le
  rw [hat'.signed_sub hat (by omega) (by omega)]
  omega

theorem localclose : Kept i window received s.localclose := by
  rw [Conv.localclose, Conv.tcpsetstate]
  split
  · exact h.congr rfl rfl rfl le_rfl
  · exact h.congr rfl rfl rfl (Nat.zero_le _)

theorem unblock : Kept i window received s.unblock := by
  rw [Conv.unblock]
  split
  · exact h.congr rfl rfl rfl le_rfl
  · exact h

/-- Sending a segment leaves the receiver as it is. -/
theorem send (ssize : UInt32) :
    Kept i window received (s.send ssize) := by
  rw [Conv.send]
  dsimp only
  split
  · exact h.congr rfl rfl rfl le_rfl
  · exact localclose (h.congr rfl rfl rfl le_rfl)

end

/-- Data in order is cut to the window. -/
theorem tcptrim {tcb : Tcpctl} {r : Reseq} (hwnd : tcb.rcv.wnd.toNat ≤ 1048560)
    (hseq : r.seg.seq = tcb.rcv.nxt) (hsyn : r.seg.flags.syn = false)
    (hfin : r.seg.flags.fin = false) (hlen : (bytes r.bp).length = r.length.toNat) :
    tcb.tcptrim r = .outside ∨ ∃ tcb' r', tcb.tcptrim r = .kept tcb' r' ∧ tcb'.rcv = tcb.rcv ∧
      tcb'.window = tcb.window ∧ r'.length.toNat ≤ tcb.rcv.wnd.toNat ∧
      (bytes r'.bp).length = r'.length.toNat := by
  have hlt := r.length.toNat_lt
  have hdup : tcb.trimDup r = (tcb, r) := by
    have hzero : signed (tcb.rcv.nxt - r.seg.seq) ≤ 0 := by
      rw [hseq, UInt32.sub_self, Lib.Serial.signed_zero]
    rw [Tcpctl.trimDup, if_pos hzero]
  have hexcess : signed (r.seg.seq + r.length.toUInt32 - (tcb.rcv.nxt + tcb.rcv.wnd)) =
      r.length.toNat - tcb.rcv.wnd.toNat := by
    have h0 := Lib.Serial.at_zero tcb.rcv.nxt
    have hend := h0.add (d := r.length.toUInt32) (n := r.length.toNat) (by
      rw [UInt16.toNat_toUInt32])
    have hedge := h0.add (d := tcb.rcv.wnd) rfl
    rw [hseq, hend.signed_sub hedge (by omega) (by omega)]
    omega
  rw [Tcpctl.tcptrim, hsyn, hfin]
  simp only [Bool.false_eq_true, if_false, UInt16.add_zero]
  split
  · split
    · rename_i hbare
      refine Or.inr ⟨tcb, r, rfl, rfl, rfl, ?_, hlen⟩
      rw [hbare.1]
      exact Nat.zero_le _
    · exact Or.inl rfl
  · rename_i hopen
    have hpos : 0 < tcb.rcv.wnd.toNat := Nat.pos_of_ne_zero fun hz => hopen (UInt32.toNat_inj.1 hz)
    split
    · rw [hdup, Tcpctl.trimExcess, hexcess]
      dsimp only
      split
      · exact Or.inr ⟨tcb, r, rfl, rfl, rfl, by omega, hlen⟩
      · have hcut : ((r.length.toNat : ℤ) - tcb.rcv.wnd.toNat).toNat =
            r.length.toNat - tcb.rcv.wnd.toNat := by omega
        have hrest : (r.length - UInt16.ofNat (r.length.toNat - tcb.rcv.wnd.toNat)).toNat =
            tcb.rcv.wnd.toNat := by
          rw [toNat_sub_ofNat (Nat.sub_le _ _)]
          omega
        obtain ⟨bp, hbp⟩ : ∃ bp, trimblock r.bp 0 tcb.rcv.wnd.toNat = some bp := by
          rw [trimblock, if_neg]
          · exact ⟨_, rfl⟩
          · rw [blocklen_eq, hlen]
            omega
        obtain ⟨-, hcount⟩ := bytes_trimblock hbp
        rw [hcut, hrest, hbp]
        cases bp with
        | nil =>
          -- the window is open
          rw [bytes_nil, length_nil] at hcount
          omega
        | cons b bp =>
          refine Or.inr ⟨_, _, rfl, rfl, rfl, ?_, ?_⟩
          · show (r.length - UInt16.ofNat (r.length.toNat - tcb.rcv.wnd.toNat)).toNat ≤ _
            rw [hrest]
          · show (bytes (b :: bp)).length =
              (r.length - UInt16.ofNat (r.length.toNat - tcb.rcv.wnd.toNat)).toNat
            rw [hcount, hrest]
    · exact Or.inl rfl

/-- What is passed to a queue makes it no longer than that. -/
theorem qlen_passText (s : Conv) (bp : List Block) (length : UInt16) :
    (s.passText bp length).rq.qlen ≤ s.rq.qlen + (bytes bp).length := by
  rw [Conv.passText]
  dsimp only [Conv.mapRcv]
  split
  · exact Nat.le_add_right _ _
  · rw [Queue.qpassnolim, Queue.qpasslim]
    split
    · exact Nat.le_add_right _ _
    · rw [Bool.false_and, if_neg Bool.false_ne_true, Queue.qlen, Queue.dlen, blocklen_eq,
        bytes_append, bytes_packblock, length_append, Queue.qlen, Queue.dlen, blocklen_eq]

/-- **Received data** moves the stream on under the edge, by no more than it lengthens the queue. -/
theorem take (h : Kept i window received s) {r : Reseq} (hr : s.InOrder r) :
    Kept i window (received + (s.take r).2) (s.take r).1 ∧
      (s.take r).1.rq.qlen ≤ s.rq.qlen + (s.take r).2 ∧
      (s.take r).1.tcb.rcv.wptr = s.tcprcvwin.tcb.rcv.wptr := by
  obtain ⟨hwin, hat, hwnd⟩ := h.tcprcvwin
  have hbound := h.window_le
  have hwnd' : s.tcprcvwin.tcb.rcv.wnd.toNat ≤ 1048560 := by omega
  have htrim := tcptrim hwnd' hr.seq hr.syn hr.fin hr.length
  rw [Conv.take]
  rcases htrim with hout | ⟨tcb', r', hkept, hrcv, hwindow, hle, hlen⟩
  · rw [hout]
    exact ⟨hwin, Nat.le_add_right _ _, rfl⟩
  · rw [hkept]
    dsimp only
    have hqlen := qlen_passText { s.tcprcvwin with tcb := tcb' } r'.bp r'.length
    rw [hlen] at hqlen
    have hwptr : (Conv.passText { s.tcprcvwin with tcb := tcb' } r'.bp r'.length).tcb.rcv.wptr =
        s.tcprcvwin.tcb.rcv.wptr := by
      show tcb'.rcv.wptr = _
      rw [hrcv]
    refine ⟨⟨?_, hbound, ?_, _, hwptr ▸ hat, ?_, ?_⟩, hqlen, hwptr⟩
    · show tcb'.window.toNat = window
      rw [hwindow]
      exact hwin.toNat_window
    · show At i (received + r'.length.toNat : ℕ) (tcb'.rcv.nxt + r'.length.toUInt32)
      rw [hrcv]
      push_cast
      exact hwin.nxt.add (by rw [UInt16.toNat_toUInt32])
    · omega
    · have hq := h.qlen_le
      refine (Nat.add_le_add_left hqlen _).trans ?_
      show received + (window - s.rq.qlen) + (s.rq.qlen + r'.length.toNat) ≤
        received + r'.length.toNat + window
      omega

end Kept

/-! ### Runs -/

/-- A segment that the invariant has sent. -/
structure Sent.Good (i : UInt32) (scale window : ℕ) (e : Sent) : Prop where
  ack : At i e.received e.ack
  qlen : e.qlen ≤ window
  win : e.win.toNat = (window - e.qlen) / 2 ^ scale % 65536

/-- The moment at hand, as that of a segment. -/
def World.now (w : World) : Sent := ⟨w.received, w.conv.rq.qlen, 0, 0⟩

/-- **The invariant of the runs.** -/
structure World.Inv (i : UInt32) (scale window : ℕ) (w : World) : Prop where
  kept : Kept i window w.received w.conv
  good : ∀ e ∈ w.sent, e.Good i scale window
  order : List.IsChain Follows (w.now :: w.sent)

section Runs

variable {i : UInt32} {scale : UInt16} {window : ℕ} {w w' : World} {a : World.Act}

theorem toNat_htontcp (hscale : scale.toNat ≤ 14) (seg : Tcp) :
    (htontcp scale seg).toNat = seg.wnd.toNat / 2 ^ scale.toNat % 65536 := by
  rw [htontcp, UInt32.toNat_toUInt16, UInt32.toNat_shiftRight, Nat.shiftRight_eq_div_pow,
    UInt16.toNat_toUInt32, Nat.mod_eq_of_lt (a := scale.toNat) (by omega)]

theorem header_eq (s : Conv) (ssize : UInt32) :
    (s.header ssize).1.ack = s.tcb.rcv.nxt ∧ (s.header ssize).1.wnd = s.tcb.rcv.wnd := by
  rw [Conv.header]
  split
  · split <;> exact ⟨rfl, rfl⟩
  · split <;> exact ⟨rfl, rfl⟩
  · exact ⟨rfl, rfl⟩

theorem rcv_unblock (s : Conv) : s.unblock.tcb.rcv.nxt = s.tcb.rcv.nxt ∧
    s.unblock.tcb.rcv.wnd = s.tcb.rcv.wnd ∧ s.unblock.tcb.rcv.wptr = s.tcb.rcv.wptr := by
  rw [Conv.unblock]
  split
  · exact ⟨rfl, rfl, rfl⟩
  · exact ⟨rfl, rfl, rfl⟩

theorem wptr_localclose (s : Conv) : s.localclose.tcb.rcv.wptr = s.tcb.rcv.wptr := by
  rw [Conv.localclose, Conv.tcpsetstate]
  split <;> rfl

theorem qlen_localclose (s : Conv) : s.localclose.rq.qlen ≤ s.rq.qlen := by
  rw [Conv.localclose, Conv.tcpsetstate]
  split
  · exact le_rfl
  · exact Nat.zero_le _

theorem wptr_send (s : Conv) (ssize : UInt32) : (s.send ssize).tcb.rcv.wptr = s.tcb.rcv.wptr := by
  rw [Conv.send]
  dsimp only
  split
  · rfl
  · rw [wptr_localclose]

theorem qlen_send (s : Conv) (ssize : UInt32) : (s.send ssize).rq.qlen ≤ s.rq.qlen := by
  rw [Conv.send]
  dsimp only
  split
  · exact le_rfl
  · exact qlen_localclose _

/-- A queue that is read gets no longer. -/
theorem qlen_qread_le (q : Queue) (n : ℕ) : (q.qread n).qlen ≤ q.qlen := by
  rw [Queue.qlen, Queue.qlen, Queue.dlen, Queue.dlen, blocklen_eq, blocklen_eq, Queue.qread,
    Queue.qdiscard, bytes_pullblock, length_drop]
  exact Nat.sub_le _ _

namespace World

namespace Inv

/-- Time goes on. -/
theorem order_of_le (h : w.Inv i scale.toNat window) {e : Sent} (he : Follows e w.now) :
    List.IsChain Follows (e :: w.sent) := by
  have horder := h.order
  cases hsent : w.sent with
  | nil => exact List.IsChain.singleton e
  | cons a l =>
    rw [hsent, isChain_cons_cons] at horder
    exact isChain_cons_cons.2 ⟨he.trans horder.1, horder.2⟩

/-- **A segment goes out** with the window that the queue leaves free. -/
theorem note (hscale : scale.toNat ≤ 14) (h : w.Inv i scale.toNat window) {conv : Conv} {seg : Tcp}
    (hconv : Kept i window w.received conv) (hqlen : conv.rq.qlen ≤ w.conv.rq.qlen)
    (hack : At i w.received seg.ack) (hwnd : seg.wnd.toNat = window - w.conv.rq.qlen) :
    (w.note scale conv seg).Inv i scale.toNat window := by
  have hsent := h.order_of_le (e := ⟨w.received, w.conv.rq.qlen, seg.ack, htontcp scale seg⟩)
    ⟨le_rfl, le_rfl⟩
  refine ⟨hconv, fun e he => ?_, isChain_cons_cons.2 ⟨⟨le_rfl, ?_⟩, hsent⟩⟩
  · rcases mem_cons.1 he with rfl | he
    · exact ⟨hack, h.kept.qlen_le, by rw [toNat_htontcp hscale, hwnd]⟩
    · exact h.good e he
  · exact Nat.add_le_add_left hqlen _

/-- **One step**: the invariant stays, and the edge does not move left. -/
theorem step (hscale : scale.toNat ≤ 14) (h : w.Inv i scale.toNat window)
    (hs : World.Step scale w a w') : w'.Inv i scale.toNat window ∧
      0 ≤ signed (w'.conv.tcb.rcv.wptr - w.conv.tcb.rcv.wptr) := by
  obtain ⟨hin, rfl⟩ := hs
  have hk := h.kept
  cases a with
  | take r =>
    obtain ⟨htake, hqlen, hwptr⟩ := hk.take (hin r rfl)
    refine ⟨⟨htake, h.good, h.order_of_le ⟨Nat.le_add_right _ _, ?_⟩⟩, ?_⟩
    · show w.received + (w.conv.take r).1.rq.qlen ≤ w.received + (w.conv.take r).2 + w.conv.rq.qlen
      omega
    · show 0 ≤ signed ((w.conv.take r).1.tcb.rcv.wptr - w.conv.tcb.rcv.wptr)
      rw [hwptr]
      exact hk.wptr_le
  | read n =>
    have hqlen := qlen_qread_le w.conv.rq n
    refine ⟨⟨hk.congr rfl rfl rfl hqlen, h.good, h.order_of_le ⟨le_rfl, ?_⟩⟩, ?_⟩
    · exact Nat.add_le_add_left hqlen _
    · show 0 ≤ signed (w.conv.tcb.rcv.wptr - w.conv.tcb.rcv.wptr)
      rw [UInt32.sub_self, Lib.Serial.signed_zero]
  | send ssize =>
    obtain ⟨hwin, hat, hwnd⟩ := hk.tcprcvwin
    obtain ⟨hack, hseg⟩ := header_eq w.conv.tcprcvwin.unblock ssize
    obtain ⟨hnxt, hwnd', hwptr⟩ := rcv_unblock w.conv.tcprcvwin
    have hqsend := qlen_send w.conv.tcprcvwin.unblock ssize
    have hq : w.conv.tcprcvwin.unblock.rq = w.conv.rq := by
      rw [Conv.unblock]
      split <;> rfl
    refine ⟨h.note hscale (hwin.unblock.send ssize) ?_ ?_ ?_, ?_⟩
    · rw [hq] at hqsend
      exact hqsend
    · rw [hack, hnxt]
      exact hwin.nxt
    · rw [hseg, hwnd', hwnd]
    · show 0 ≤ signed ((w.conv.tcprcvwin.unblock.send ssize).tcb.rcv.wptr - w.conv.tcb.rcv.wptr)
      rw [wptr_send, hwptr]
      exact hk.wptr_le
  | sendka =>
    have hk' : Kept i window w.received
        (w.conv.mapRcv fun rcv => { rcv with ackptr := rcv.nxt }) := hk.congr rfl rfl rfl le_rfl
    obtain ⟨hwin, hat, hwnd⟩ := hk'.tcprcvwin
    exact ⟨h.note hscale hwin le_rfl hwin.nxt hwnd, hk'.wptr_le⟩

end Inv

end World

/-- What the reader has taken between two segments. -/
def taken (a b : Sent) : ℕ := b.received + a.qlen - (a.received + b.qlen)

/-- The bytes that came in between do not reach below the bits that the header says. -/
def Whole (scale window : ℕ) (b a : Sent) : Prop :=
  (b.received - a.received) % 2 ^ scale ≤ (window - a.qlen) % 2 ^ scale + taken a b

/-- The window of a conversation whose other end has the scale `rcvscale`. -/
def fullWindow (rcvscale : ℕ) : ℕ := 65535 * 2 ^ min rcvscale 4

theorem fullWindow_le (rcvscale : ℕ) : fullWindow rcvscale ≤ 1048560 := by
  have hpow : 2 ^ min rcvscale 4 ≤ 2 ^ 4 := Nat.pow_le_pow_right (by omega) (Nat.min_le_right _ _)
  rw [fullWindow]
  omega

theorem toNat_window_tcpsetscale (s : Conv) (rcvscale : UInt16) :
    (s.tcpsetscale rcvscale).tcb.window.toNat = fullWindow rcvscale.toNat := by
  rw [Conv.tcpsetscale]
  show (QMAX <<< (if maxqscale < rcvscale then maxqscale else rcvscale &&& 0xff).toUInt32).toNat = _
  split
  · rename_i hlt
    have hlt' : 4 < rcvscale.toNat := hlt
    rw [fullWindow, Nat.min_eq_right (by omega)]
    rfl
  · rename_i hge
    have hle : rcvscale.toNat ≤ 4 := Nat.le_of_not_lt hge
    rw [fullWindow, Nat.min_eq_left hle]
    obtain ⟨n, hn⟩ : ∃ n, rcvscale.toNat = n := ⟨_, rfl⟩
    have heq : rcvscale = UInt16.ofNat n := by rw [← hn, UInt16.ofNat_toNat]
    rw [hn] at hle ⊢
    rw [heq]
    obtain rfl | rfl | rfl | rfl | rfl : n = 0 ∨ n = 1 ∨ n = 2 ∨ n = 3 ∨ n = 4 := by omega
    all_goals rfl

/-- **The invariant holds to begin with.** -/
theorem Conv.Fresh.inv {s : Conv} (hs : s.Fresh) (rcvscale scale : UInt16) :
    World.Inv s.tcb.rcv.nxt scale.toNat (fullWindow rcvscale.toNat)
      ⟨s.tcpsetscale rcvscale, 0, []⟩ := by
  refine ⟨?_, fun e he => absurd he not_mem_nil, List.IsChain.singleton _⟩
  have hq : s.rq.qlen = 0 := by
    rw [Queue.qlen, Queue.dlen, hs.2]
    rfl
  obtain ⟨t, ht, hwindow, hnxt, hwptr, hqlen⟩ : ∃ t : Conv, s.tcpsetscale rcvscale = t.tcprcvwin ∧
      t.tcb.window = (s.tcpsetscale rcvscale).tcb.window ∧ t.tcb.rcv.nxt = s.tcb.rcv.nxt ∧
      t.tcb.rcv.wptr = s.tcb.rcv.wptr ∧ t.rq.qlen = s.rq.qlen := ⟨_, rfl, rfl, rfl, rfl, rfl⟩
  have hkept : Kept s.tcb.rcv.nxt (fullWindow rcvscale.toNat) 0 t := by
    refine ⟨?_, fullWindow_le _, ?_, 0, ?_, le_rfl, by omega⟩
    · rw [hwindow, toNat_window_tcpsetscale]
    · rw [hnxt]
      exact Lib.Serial.at_zero _
    · rw [hwptr, hs.1]
      exact Lib.Serial.at_zero _
  show Kept _ _ 0 (s.tcpsetscale rcvscale)
  rw [ht]
  exact hkept.tcprcvwin.1

theorem World.Inv.run {s : Conv} (hs : s.Fresh) {rcvscale : UInt16} (hscale : scale.toNat ≤ 14)
    {l : List World.Act} (h : Run (World.Step scale) ⟨s.tcpsetscale rcvscale, 0, []⟩ l w) :
    w.Inv s.tcb.rcv.nxt scale.toNat (fullWindow rcvscale.toNat) :=
  h.inv (fun _ _ _ hw hst => (hw.step hscale hst).1) (hs.inv rcvscale scale)

end Runs

/-! ### A window that shrinks -/

/-- A conversation with nothing promised yet. -/
def fresh : Conv :=
  (Conv.tcpincoming ⟨0, 0, 1460, 0⟩ { seq := 1, ack := 1, flags := { ack := true }, wnd := 65535 }
    1460 fun _ => true).mapRcv fun rcv => { rcv with wptr := rcv.nxt }

/-- One byte arrives. -/
def oneByte : Reseq where
  seg := { seq := 1, ack := 1, flags := { ack := true }, wnd := 65535 }
  bp := [⟨[0], 1, Nat.le_refl 1⟩]
  length := 1

end Ip

end Plan9
