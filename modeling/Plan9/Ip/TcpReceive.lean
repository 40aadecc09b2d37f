import Plan9.Ip.Tcp

/-!
# The receiver

What the receive path of `Plan9.Ip.Conv` makes of segments cut from one byte
stream `S`, lost, repeated, out of order and overlapping as may be.

Sequence numbers are 32 bits and `S` is as long as it likes, so every segment has
a place in `S`, an integer (`Plan9.Ip.Piece`), and what is asked of a segment that
arrives is that its place is less than half a turn away from that of `rcv.nxt`
(`Plan9.Ip.Arrives`).

Three things have to be arranged for the argument.

* **A step of the sender does not matter.** `update` and `tcpoutput` touch, of all
  the invariant speaks of, only the right edge of the window, and may close the
  conversation; `Plan9.Ip.Receiving.congr` covers the rest.
* **The queue of waiting segments stays near `rcv.nxt`.** A segment without an ACK
  ends the loop of `tcpiput` with the queue as it is, though `rcv.nxt` has moved on.
  What is left lies behind a segment that reached into the window, so at most
  `65536` behind (`Plan9.Ip.Receiving.adjacent`).
* **A segment that is taken in hand begins at `rcv.nxt`**, or has nothing to add
  (`Plan9.Ip.InHand`).
-/

namespace Plan9

namespace Ip

open Lib (Run Guarded)
open List
open Lib.Serial (signed At)

/-! ### Comparing sequence numbers -/

theorem ofNat_toNat_of_lt {m : ℕ} (hm : m < 4294967296) : (UInt32.ofNat m).toNat = m :=
  UInt32.toNat_ofNat_of_lt' hm

variable {d : ℕ}

theorem toNat_sub_ofNat {x : UInt16} (hd : d ≤ x.toNat) :
    (x - UInt16.ofNat d).toNat = x.toNat - d := by
  have hx := x.toNat_lt
  rw [UInt16.toNat_sub, UInt16.toNat_ofNat']
  omega

theorem seqWithin_iff (x low high : UInt32) :
    seqWithin x low high = true ↔ (x - low).toNat ≤ (high - low).toNat := by
  have hx := Lib.Serial.toNat_lt x
  have hlow := Lib.Serial.toNat_lt low
  have hhigh := Lib.Serial.toNat_lt high
  have hsub := Lib.Serial.toNat_sub x low
  have hsub' := Lib.Serial.toNat_sub high low
  rw [seqWithin]
  split
  · rename_i hle
    rw [UInt32.le_iff_toNat_le] at hle
    rw [Bool.and_eq_true, decide_eq_true_eq, decide_eq_true_eq, UInt32.le_iff_toNat_le,
      UInt32.le_iff_toNat_le]
    omega
  · rename_i hlt
    rw [UInt32.le_iff_toNat_le] at hlt
    rw [Bool.or_eq_true, decide_eq_true_eq, decide_eq_true_eq, UInt32.le_iff_toNat_le,
      UInt32.le_iff_toNat_le]
    omega

section Places

variable {i x y z : UInt32} {p q r : ℤ}

/-- The places between two others, less than a turn away from both. -/
theorem seqWithin_iff_place (hx : At i p x) (hy : At i q y) (hz : At i r z) (hqr : q ≤ r)
    (hp : p < q + 4294967296) (hr : r < p + 4294967296) (hr' : r < q + 4294967296) :
    seqWithin x y z = true ↔ q ≤ p ∧ p ≤ r := by
  have hsub := Lib.Serial.toNat_sub x y
  have hlast := hz.toNat_sub hy hqr hr'
  rw [At] at hx hy
  rw [seqWithin_iff]
  omega

theorem seqLt_iff (hx : At i p x) (hy : At i q y) (hp : p < q + 2147483648)
    (hq : q < p + 2147483648) : seqLt x y = true ↔ p < q := by
  rw [seqLt, hx.signed_sub hy (by omega) hp, decide_eq_true_eq]
  omega

theorem seqLe_iff (hx : At i p x) (hy : At i q y) (hp : p < q + 2147483648)
    (hq : q < p + 2147483648) : seqLe x y = true ↔ p ≤ q := by
  rw [seqLe, hx.signed_sub hy (by omega) hp, decide_eq_true_eq]
  omega

theorem seqGe_iff (hx : At i p x) (hy : At i q y) (hp : p < q + 2147483648)
    (hq : q < p + 2147483648) : seqGe x y = true ↔ q ≤ p := by
  rw [seqGe, hx.signed_sub hy (by omega) hp, decide_eq_true_eq]
  omega

end Places

/-! ### Pieces of the stream -/

variable {S : List UInt8} {i : UInt32} {p n : ℤ} {r : Reseq}

/-- **A piece of the stream**: the segment has its bytes from the place `p` on – those before the
first place are nobody's – and a FIN only where the stream ends. -/
structure Agrees (S : List UInt8) (i : UInt32) (p : ℤ) (r : Reseq) : Prop where
  place : At i p r.seg.seq
  data : ∀ k (hk : k < (bytes r.bp).length), 0 ≤ p + k →
    S[(p + k).toNat]? = some (bytes r.bp)[k]
  fin : r.seg.flags.fin = true → p + r.length.toNat = S.length
  syn : r.seg.flags.syn = false
  rst : r.seg.flags.rst = false
  urg : r.seg.flags.urg = false

/-- A piece of the stream with all its bytes. -/
structure Piece (S : List UInt8) (i : UInt32) (p : ℤ) (r : Reseq) : Prop extends
    Agrees S i p r where
  length : (bytes r.bp).length = r.length.toNat

/-- What matters of a segment: not what it acknowledges. -/
theorem Piece.congr (h : Piece S i p r) {seg : Tcp} (hseq : seg.seq = r.seg.seq)
    (hflags : seg.flags = r.seg.flags) : Piece S i p { r with seg } where
  place := by rw [hseq]; exact h.place
  length := h.length
  data := h.data
  fin := by rw [hflags]; exact h.fin
  syn := by rw [hflags]; exact h.syn
  rst := by rw [hflags]; exact h.rst
  urg := by rw [hflags]; exact h.urg

/-- A piece at or after the first place continues what is before it. -/
theorem Piece.continues (h : Piece S i p r) {l : List UInt8} (hl : l <+: S) (hp : p = l.length) :
    l ++ bytes r.bp <+: S := by
  obtain ⟨rest, rfl⟩ := hl
  rw [prefix_append_right_inj, List.prefix_iff_getElem?]
  intro k hk
  have hk' := h.data k hk (by omega)
  rw [hp, show ((l.length : ℤ) + k).toNat = l.length + k by omega,
    List.getElem?_append_right (Nat.le_add_right ..), Nat.add_sub_cancel_left] at hk'
  exact hk'

variable {seg : Tcp}

variable {bp : List Block} {length : UInt16}

/-- A piece without its first `d` bytes. -/
theorem Piece.drop (h : Piece S i p r) (hd : d ≤ r.length.toNat) (hseq : At i (p + d) seg.seq)
    (hflags : seg.flags = r.seg.flags) (hbp : bytes bp = (bytes r.bp).drop d)
    (hlen : length.toNat = r.length.toNat - d) :
    Piece S i (p + d) { seg, bp, length } where
  place := hseq
  length := by rw [hbp, length_drop, h.length, hlen]
  data k hk hp := by
    have hk' : d + k < (bytes r.bp).length := by
      dsimp only at hk
      rw [hbp, length_drop] at hk
      omega
    have hdata := h.data (d + k) hk' (by omega)
    dsimp only
    rw [show (p + d + k).toNat = (p + (d + k : ℕ)).toNat by omega, hdata]
    simp [hbp]
  fin hfin := by
    dsimp only at hfin ⊢
    rw [hflags] at hfin
    have hend := h.fin hfin
    omega
  syn := by dsimp only; rw [hflags]; exact h.syn
  rst := by dsimp only; rw [hflags]; exact h.rst
  urg := by dsimp only; rw [hflags]; exact h.urg

/-- The first bytes of a piece, without its FIN. -/
theorem Piece.take (h : Piece S i p r) (hbp : bytes bp = (bytes r.bp).take length.toNat)
    (hlen : length.toNat ≤ r.length.toNat) :
    Piece S i p
      { seg := { r.seg with flags := { r.seg.flags with fin := false } }, bp, length } where
  place := h.place
  length := by
    rw [hbp, length_take, h.length]
    exact Nat.min_eq_left hlen
  data k hk hp := by
    dsimp only at hk ⊢
    have hk' : k < (bytes r.bp).length := by
      rw [hbp, length_take] at hk
      omega
    rw [h.data k hk' hp]
    simp [hbp]
  fin hfin := by cases hfin
  syn := h.syn
  rst := h.rst
  urg := h.urg

/-! ### The invariant -/

/-- The states of a conversation in which both ends have each other's first number. -/
def State.synchronized : State → Bool
  | .listen | .synSent | .synReceived => false
  | _ => true

/-- The states that a FIN of the other end leads to. -/
def State.gotFin : State → Bool
  | .closeWait | .closing | .lastAck | .timeWait => true
  | _ => false

/-- The states in which the text of a segment goes to the reader. -/
def State.reads : State → Bool
  | .established | .finwait1 => true
  | _ => false

variable {st : State}

theorem State.synchronized_of_gotFin (h : st.gotFin = true) :
    st.synchronized = true := by
  cases st <;> first | rfl | cases h

theorem State.not_reads (h : st.gotFin = true) : st.reads = false := by
  cases st <;> first | rfl | cases h

/-- A segment that waits lies around the place `n` of `rcv.nxt`, at most `k` before it. -/
def Waits (S : List UInt8) (i : UInt32) (k n : ℤ) (r : Reseq) : Prop :=
  ∃ p, Piece S i p r ∧ n - k ≤ p ∧ p < n + 1048576

/-- What the invariant keeps account of: the size of the window, a bound for the buffers in the
queue of the reader, whether there may be a reader, the place of `rcv.nxt` and whether a FIN is
counted in it, the segment in hand, and how far before `rcv.nxt` the right edge of the window and a
segment that waits may lie. -/
structure Ledger where
  window : ℕ
  len : ℕ
  reader : Bool
  place : ℤ
  fin : Bool
  hand : Option Reseq
  behind : ℤ
  late : ℤ

/-- **The invariant of the receiver.** -/
structure Receiving (S : List UInt8) (i : UInt32) (g : Ledger) (s : Conv) : Prop where
  calm : s.panicked = false
  cur : s.cur = g.hand
  synchronized : s.tcb.state.synchronized = true
  gotFin : s.tcb.state ≠ .closed → s.tcb.state.gotFin = g.fin
  reader : s.tcb.state.reads = true → g.reader = true
  window_le : g.window ≤ 1048576
  window : s.tcb.window.toNat = g.window
  limit : s.rq.limit = g.window
  dlen : s.rq.dlen < g.window + 65536
  len : s.rq.len ≤ g.len
  stream : s.rq.all <+: S
  whole : g.fin = true → s.rq.all = S
  place : g.place = s.rq.all.length + g.fin.toNat
  nxt : At i g.place s.tcb.rcv.nxt
  slack : 0 ≤ g.behind ∧ g.behind ≤ 65536
  edge : ∃ e, At i e s.tcb.rcv.wptr ∧ g.place - g.behind ≤ e ∧ e ≤ g.place + 1048576
  waits : ∀ r ∈ s.tcb.reseq, Waits S i g.late g.place r
  sorted : s.tcb.reseq.Pairwise fun r r' => seqLe r.seg.seq r'.seg.seq = true
  nreseq : s.tcb.nreseq = s.tcb.reseq.length
  reseqlen : s.tcb.reseqlen = (s.tcb.reseq.map fun r => r.length.toNat).sum
  le_window : s.tcb.reseqlen ≤ g.window

/-- A segment in hand begins at `rcv.nxt`, or has neither bytes nor a FIN. -/
def InHand (S : List UInt8) (i : UInt32) (n : ℤ) (r : Reseq) : Prop :=
  ∃ p, Piece S i p r ∧ (r.length ≠ 0 ∨ r.seg.flags.fin = true → p = n)

/-- What the invariant speaks of. -/
def Conv.view (s : Conv) := (s.panicked, s.cur, s.tcb.state, s.tcb.window, s.rq, s.tcb.rcv.nxt,
  s.tcb.rcv.wptr, s.tcb.reseq, s.tcb.nreseq, s.tcb.reseqlen)

variable {g : Ledger} {s t : Conv}

variable {new : State} {late : ℤ}

namespace Receiving

variable (h : Receiving S i g s)

include h

/-- What the invariant does not speak of may change. -/
theorem congr (hv : t.view = s.view) :
    Receiving S i g t := by
  simp only [Conv.view, Prod.mk.injEq] at hv
  obtain ⟨hcalm, hcur, hstate, hwindow, hrq, hnxt, hwptr, hreseq, hnreseq, hlen⟩ := hv
  constructor
  · rw [hcalm]; exact h.calm
  · rw [hcur]; exact h.cur
  · rw [hstate]; exact h.synchronized
  · rw [hstate]; exact h.gotFin
  · rw [hstate]; exact h.reader
  · exact h.window_le
  · rw [hwindow]; exact h.window
  · rw [hrq]; exact h.limit
  · rw [hrq]; exact h.dlen
  · rw [hrq]; exact h.len
  · rw [hrq]; exact h.stream
  · rw [hrq]; exact h.whole
  · rw [hrq]; exact h.place
  · rw [hnxt]; exact h.nxt
  · exact h.slack
  · rw [hwptr]; exact h.edge
  · rw [hreseq]; exact h.waits
  · rw [hreseq]; exact h.sorted
  · rw [hnreseq, hreseq]; exact h.nreseq
  · rw [hlen, hreseq]; exact h.reseqlen
  · rw [hlen]; exact h.le_window

/-- The queue of segments that wait is dumped. -/
theorem dumpreseq :
    Receiving S i g { s with tcb := s.tcb.dumpreseq } :=
  { h with
    waits := fun _ hr => absurd hr not_mem_nil
    sorted := .nil
    nreseq := rfl
    reseqlen := rfl
    le_window := Int.natCast_nonneg _ }

/-- A queue that has had the same bytes put in, and no more left in it. -/
theorem queue {rq : Queue} (hall : rq.all = s.rq.all)
    (hlimit : rq.limit = s.rq.limit) (hdlen : rq.dlen ≤ s.rq.dlen) (hlen : rq.len ≤ s.rq.len) :
    Receiving S i g { s with rq } :=
  { h with
    limit := hlimit.trans h.limit
    dlen := hdlen.trans_lt h.dlen
    len := hlen.trans h.len
    stream := by dsimp only; rw [hall]; exact h.stream
    whole := by dsimp only; rw [hall]; exact h.whole
    place := by dsimp only; rw [hall]; exact h.place }

theorem tcpsetstate (hsync : new.synchronized = true)
    (hfin : new ≠ .closed → new.gotFin = g.fin) (hreads : new.reads = true → g.reader = true) :
    Receiving S i g (s.tcpsetstate new) := by
  rw [Conv.tcpsetstate]
  split
  · exact h
  · have hnew : Receiving S i g { s with tcb := { s.tcb with state := new } } :=
      { h with synchronized := hsync, gotFin := hfin, reader := hreads }
    split
    · have hclosed := hnew.queue (s.rq.all_qclose) rfl (Nat.zero_le _) (Nat.zero_le _)
      exact hclosed.congr rfl
    · exact hnew.queue s.rq.all_qhangup rfl le_rfl le_rfl
    · exact hnew

theorem localclose : Receiving S i g s.localclose := by
  have hdump := h.dumpreseq
  have hhang : Receiving S i g
      { s with tcb := s.tcb.dumpreseq, rq := s.rq.qhangup, wq := s.wq.qhangup } :=
    (hdump.queue s.rq.all_qhangup rfl le_rfl le_rfl).congr rfl
  exact hhang.tcpsetstate rfl (fun hne => absurd rfl hne) nofun

/-! ### The window -/

/-- **The window** reaches from `rcv.nxt` to a right edge that does not come near the other end of
the numbers. -/
theorem room :
    ∃ e, (s.room.toNat : ℤ) = e - g.place ∧ g.place ≤ e ∧ e ≤ g.place + 1048576 := by
  obtain ⟨e, hedge, hle, hge⟩ := h.edge
  have hslack := h.slack
  have hwindow := h.window
  have hbound := h.window_le
  have hdlen := h.dlen
  -- what is left of the window as a number, not below zero
  have hleft : ∃ left : UInt32, (if signed (s.tcb.window - UInt32.ofNat s.rq.qlen) < 0 then 0
      else s.tcb.window - UInt32.ofNat s.rq.qlen) = left ∧ left.toNat ≤ 1048576 := by
    have hlen : (UInt32.ofNat s.rq.qlen).toNat = s.rq.dlen :=
      ofNat_toNat_of_lt (by rw [Queue.qlen]; omega)
    have hsub := Lib.Serial.toNat_sub s.tcb.window (UInt32.ofNat s.rq.qlen)
    rw [hlen] at hsub
    refine ⟨_, rfl, ?_⟩
    rcases Nat.lt_or_ge s.tcb.window.toNat s.rq.dlen with hfull | hfree
    · have hneg : signed (s.tcb.window - UInt32.ofNat s.rq.qlen) < 0 := by
        rw [signed, if_neg (by omega)]
        omega
      rw [if_pos hneg]
      exact Nat.zero_le _
    · have hpos : ¬signed (s.tcb.window - UInt32.ofNat s.rq.qlen) < 0 := by
        rw [signed, if_pos (by omega)]
        omega
      rw [if_neg hpos]
      omega
  obtain ⟨left, hleft, hsmall⟩ := hleft
  rw [Conv.room, hleft]
  have hnew : At i (g.place + left.toNat) (s.tcb.rcv.nxt + left) := h.nxt.add rfl
  have hlt := seqLt_iff hnew hedge (by omega) (by omega)
  split
  · rename_i hpast
    rw [hlt] at hpast
    exact ⟨e, hedge.toNat_sub h.nxt (by omega) (by omega), by omega, hge⟩
  · exact ⟨g.place + left.toNat, by omega, by omega, by omega⟩

/-- The right edge of the window does not stay behind. -/
theorem tcprcvwin_ahead :
    Receiving S i { g with behind := 0 } s.tcprcvwin := by
  obtain ⟨e, hroom, hle, hge⟩ := h.room
  have hplace : At i e (s.tcb.rcv.nxt + s.room) := by
    have hadd := h.nxt.add hroom
    rwa [add_sub_cancel] at hadd
  exact { h with
    slack := ⟨le_rfl, by dsimp only; omega⟩
    edge := ⟨e, hplace, by dsimp only; omega, hge⟩ }

/-- A longer account. -/
theorem mono {len : ℕ} {behind : ℤ} (hlen : g.len ≤ len)
    (hbehind : g.behind ≤ behind) (hle : behind ≤ 65536) (hlate : g.late ≤ late) :
    Receiving S i { g with len, behind, late } s :=
  { h with
    len := h.len.trans hlen
    slack := ⟨h.slack.1.trans hbehind, hle⟩
    edge := by
      obtain ⟨e, hedge, hlo, hhi⟩ := h.edge
      exact ⟨e, hedge, by dsimp only; omega, hhi⟩
    waits := fun r hr => by
      obtain ⟨p, hp, hlo, hhi⟩ := h.waits r hr
      exact ⟨p, hp, by dsimp only; omega, hhi⟩ }

theorem tcprcvwin : Receiving S i g s.tcprcvwin :=
  h.tcprcvwin_ahead.mono le_rfl h.slack.1 h.slack.2 le_rfl

/-! ### What is sent -/

theorem force : Receiving S i g s.force := h.congr rfl

theorem unblock : Receiving S i g s.unblock := by
  rw [Conv.unblock]
  split
  · exact h.congr rfl
  · exact h

theorem send (ssize : UInt32) :
    Receiving S i g (s.send ssize) := by
  rw [Conv.send]
  dsimp only
  split
  · exact h.congr rfl
  · exact localclose (h.congr rfl)

theorem message : Receiving S i g s.message.1 := by
  have ht := h.tcprcvwin.unblock
  rw [Conv.message]
  split
  · exact h
  · dsimp only
    split
    · exact ht
    · exact ht.send _

theorem messages (m : ℕ) :
    Receiving S i g (Conv.messages m s) := by
  induction m generalizing s with
  | zero => exact h
  | succ m ih =>
    rw [Conv.messages]
    split
    · exact ih h.message
    · exact h.message

theorem forced : Receiving S i g s.forced := by
  rw [Conv.forced]
  split
  · exact h
  · split
    · exact h.force
    · dsimp only
      split
      · exact h.tcprcvwin.force
      · exact h.tcprcvwin

theorem tcpoutput : Receiving S i g s.tcpoutput :=
  h.forced.messages 4

theorem tcprxmit : Receiving S i g s.tcprxmit := by
  have hrewound : Receiving S i g { s with tcb := { s.tcb with
      retran := true, force := true, cwind := s.tcb.mss.toUInt32,
      snd := { s.tcb.snd with ptr := s.tcb.snd.una, retransmit := true } } } := h.congr rfl
  exact hrewound.tcpoutput.congr rfl

/-! ### What is acknowledged -/

theorem recover (seg : Tcp) :
    Receiving S i g (s.recover seg) := by
  rw [Conv.recover]
  split
  · exact h.congr rfl
  · split
    · exact tcprxmit (h.congr rfl)
    · exact h

theorem fastRetransmit (seg : Tcp) :
    Receiving S i g (s.fastRetransmit seg) := by
  rw [Conv.fastRetransmit]
  split
  · have hopen : Receiving S i g (s.mapSnd fun snd => { snd with wnd := seg.wnd }) :=
      h.congr rfl
    exact hopen.recover seg
  · have hcount : Receiving S i g (s.countDup seg) := by
      rw [Conv.countDup]
      split
      · exact h.congr rfl
      · exact h
    dsimp only
    split
    · exact hcount.recover seg
    · split
      · exact hcount.congr rfl
      · exact hcount

theorem updateWindow (seg : Tcp) :
    Receiving S i g (s.updateWindow seg) := by
  rw [Conv.updateWindow]
  split
  · exact h.congr rfl
  · exact h

theorem congestion (seg : Tcp) (acked : UInt32) :
    Receiving S i g (s.congestion seg acked) := by
  rw [Conv.congestion]
  dsimp only
  split
  · split <;> exact h.congr rfl
  · rw [Tcpctl.tcpabcincr]
    dsimp only
    split
    · exact h.congr rfl
    · split <;> exact h.congr rfl

theorem discard (seg : Tcp) (acked : UInt32) :
    Receiving S i g (s.discard seg acked) := by
  have hless : Receiving S i g (s.dequeue seg acked) := h.congr rfl
  have hsent : Receiving S i g (s.dequeue seg acked).fastRecovery := by
    rw [Conv.fastRecovery]
    split
    · exact hless.tcprxmit
    · exact hless
  rw [Conv.discard]
  dsimp only
  split
  · exact hsent.congr rfl
  · exact hsent.congr rfl

theorem update (seg : Tcp) :
    Receiving S i g (s.update seg) := by
  have ht := (h.fastRetransmit seg).updateWindow seg
  rw [Conv.update]
  split
  · exact h
  · dsimp only
    split
    · exact ht
    · split
      · have hsyn : Receiving S i g ((s.fastRetransmit seg).updateWindow seg).synAcked :=
          ht.congr rfl
        exact hsyn.discard seg _
      · exact (ht.congestion seg _).discard seg _

end Receiving

/-! ### Trimming -/

/-- The window of a control block: from `rcv.nxt` at the place `n` to the place `e`. -/
structure Window (i : UInt32) (n e : ℤ) (tcb : Tcpctl) : Prop where
  nxt : At i n tcb.rcv.nxt
  wnd : (tcb.rcv.wnd.toNat : ℤ) = e - n
  le : n ≤ e
  ge : e ≤ n + 1048576

theorem Receiving.window_tcprcvwin (h : Receiving S i g s) :
    ∃ e, Window i g.place e s.tcprcvwin.tcb := by
  obtain ⟨e, hroom, hle, hge⟩ := h.room
  exact ⟨e, h.nxt, hroom, hle, hge⟩

/-- How many sequence numbers a segment without a SYN takes. -/
def Reseq.size (r : Reseq) : ℕ := r.length.toNat + r.seg.flags.fin.toNat

/-- The size as the source counts it, in 16 bits: right when it is not zero. -/
theorem size_eq (hsyn : r.seg.flags.syn = false) {len : UInt16}
    (hlen : r.length + (if r.seg.flags.syn then 1 else 0) + (if r.seg.flags.fin then 1 else 0) =
      len) (hne : len ≠ 0) : len.toNat = r.size := by
  have hlt := r.length.toNat_lt
  have hpos : len.toNat ≠ 0 := fun hz => hne (UInt16.toNat_inj.1 hz)
  rw [hsyn] at hlen
  rw [Reseq.size]
  cases hfin : r.seg.flags.fin with
  | false =>
    rw [hfin] at hlen
    simp only [Bool.false_eq_true, if_false, UInt16.add_zero] at hlen
    rw [← hlen]
    rfl
  | true =>
    rw [hfin] at hlen
    simp only [Bool.false_eq_true, if_false, if_true, UInt16.add_zero] at hlen
    rw [← hlen, UInt16.toNat_add] at hpos ⊢
    simp only [UInt16.toNat_one, Bool.toNat_true] at hpos ⊢
    omega

section Trim

variable {e : ℤ} {tcb : Tcpctl}

theorem inwindow_iff (hw : Window i n e tcb) (hne : n < e) {x : UInt32} (hx : At i p x)
    (hp : n ≤ p + 2147483648) (hp' : p < n + 2147549184) :
    tcb.inwindow x = true ↔ n ≤ p ∧ p < e := by
  have hle := hw.ge
  have hlast : At i (e - 1) (tcb.rcv.nxt + tcb.rcv.wnd - 1) := by
    have hadd := (hw.nxt.add hw.wnd).sub (d := 1) (n := 1) rfl
    rwa [add_sub_cancel] at hadd
  rw [Tcpctl.inwindow, seqWithin_iff_place hx hw.nxt hlast (by omega) (by omega) (by omega)
    (by omega)]
  omega

/-- **What is accepted** begins before the end of the window, and ends after its beginning. -/
theorem accepts_spec (hw : Window i n e tcb) (hne : n < e) (hr : Piece S i p r)
    (hp : n < p + 2147483648) (hp' : p < n + 2147483648)
    (h : tcb.accepts r.seg r.length = true) : p < e ∧ (n ≤ p ∨ n < p + r.size) := by
  have hge := hw.ge
  rw [Tcpctl.accepts] at h
  generalize hlen : r.length + (if r.seg.flags.syn then 1 else 0) +
    (if r.seg.flags.fin then 1 else 0) = len at h
  rw [Bool.or_eq_true, Bool.and_eq_true, decide_eq_true_eq, Bool.or_eq_true] at h
  rcases h with hin | ⟨hpos, hlast⟩
  · rw [inwindow_iff hw hne hr.place (by omega) (by omega)] at hin
    exact ⟨hin.2, .inl hin.1⟩
  · -- the last sequence number of the segment
    have hsize := size_eq hr.syn hlen hpos
    have hsmall := len.toNat_lt
    have hnum : At i (p + r.size - 1) (r.seg.seq + len.toUInt32 - 1) := by
      refine (hr.place.add ?_).sub rfl
      rw [UInt16.toNat_toUInt32, hsize]
    have hfirst : 0 < r.size := by
      rw [← hsize]
      exact Nat.pos_of_ne_zero fun hz => hpos (UInt16.toNat_inj.1 hz)
    rcases hlast with hin | hover
    · rw [inwindow_iff hw hne hnum (by omega) (by omega)] at hin
      exact ⟨by omega, .inr (by omega)⟩
    · rw [seqWithin_iff_place hw.nxt hr.place hnum (by omega) (by omega) (by omega) (by omega)]
        at hover
      exact ⟨by omega, .inr (by omega)⟩

theorem size_le (r : Reseq) : r.size ≤ r.length.toNat + 1 := by
  have hfin := Bool.toNat_le r.seg.flags.fin
  rw [Reseq.size]
  omega

/-- The front of an accepted segment is cut off at `rcv.nxt`. -/
theorem trimDup_spec (hw : Window i n e tcb) (hr : Piece S i p r)
    (hp : n < p + 2147483648) (hp' : p < n + 2147483648) (hin : n ≤ p ∨ n < p + r.size) :
    ∃ rerecv r', tcb.trimDup r = ({ tcb with rerecv }, r') ∧ Piece S i (max p n) r' ∧
      r'.length.toNat ≤ r.length.toNat := by
  have hdup : signed (tcb.rcv.nxt - r.seg.seq) = n - p :=
    hw.nxt.signed_sub hr.place (by omega) hp
  have hlt := r.length.toNat_lt
  have hsize := size_le r
  rw [Tcpctl.trimDup, hdup]
  dsimp only
  split
  · rw [max_eq_left (by omega)]
    exact ⟨tcb.rerecv, r, rfl, hr, le_rfl⟩
  · rw [max_eq_right (by omega)]
    obtain ⟨d, hd⟩ : ∃ d : ℕ, n - p = d := ⟨(n - p).toNat, by omega⟩
    have hd' : d ≤ r.length.toNat := by omega
    rw [hr.syn, if_pos rfl, hd]
    simp only [Bool.false_eq_true, if_false, sub_zero, Int.toNat_natCast]
    rw [if_neg (by omega)]
    have hlen := toNat_sub_ofNat hd'
    refine ⟨_, _, rfl, ?_, ?_⟩
    · have hplace : n = p + d := by omega
      rw [hplace]
      refine hr.drop hd' (hr.place.add ?_) ?_ ?_ hlen
      · exact_mod_cast ofNat_toNat_of_lt (by omega)
      · rw [hr.urg, Bool.false_and]
        have hurg := hr.urg
        cases hflags : r.seg.flags
        rw [hflags] at hurg
        cases hurg
        rfl
      · rw [bytes_pullblock, Nat.mod_eq_of_lt (by omega)]
    · dsimp only
      rw [hlen]
      omega

/-- What is beyond the window is cut off, and something is left. -/
theorem trimExcess_spec (hw : Window i n e tcb) (hr : Piece S i p r) (hn : n ≤ p) (he : p < e) :
    ∃ rerecv r', tcb.trimExcess r = .kept { tcb with rerecv } r' ∧ Piece S i p r' ∧
      r'.length.toNat ≤ r.length.toNat := by
  have hlt := r.length.toNat_lt
  have hge := hw.ge
  have hexcess : signed (r.seg.seq + r.length.toUInt32 - (tcb.rcv.nxt + tcb.rcv.wnd)) =
      p + r.length.toNat - e := by
    have hend : At i (p + r.length.toNat) (r.seg.seq + r.length.toUInt32) :=
      hr.place.add (by rw [UInt16.toNat_toUInt32])
    have hedge := hw.nxt.add hw.wnd
    rw [add_sub_cancel] at hedge
    exact hend.signed_sub hedge (by omega) (by omega)
  rw [Tcpctl.trimExcess, hexcess]
  dsimp only
  split
  · exact ⟨tcb.rerecv, r, rfl, hr, le_rfl⟩
  · obtain ⟨d, hd⟩ : ∃ d : ℕ, p + r.length.toNat - e = d :=
      ⟨(p + r.length.toNat - e).toNat, by omega⟩
    have hlen : (r.length - UInt16.ofNat d).toNat = r.length.toNat - d :=
      toNat_sub_ofNat (by omega)
    rw [hd, Int.toNat_natCast]
    -- all bytes are there, so `trimblock` does not fail
    obtain ⟨bp, hbp⟩ : ∃ bp, trimblock r.bp 0 (r.length - UInt16.ofNat d).toNat = some bp := by
      rw [trimblock, if_neg]
      · exact ⟨_, rfl⟩
      · rw [blocklen_eq, hr.length, hlen]
        omega
    obtain ⟨hbytes, hcount⟩ := bytes_trimblock hbp
    rw [drop_zero] at hbytes
    rw [hbp]
    cases bp with
    | nil =>
      rw [hlen] at hcount
      simp only [bytes_nil, length_nil] at hcount
      omega
    | cons b bp =>
      refine ⟨_, _, rfl, hr.take hbytes (by omega), ?_⟩
      dsimp only
      omega

/-- **The trimmed segment**: what is kept of a piece of the stream is a piece of the stream that
begins in the window, and nothing is lost in front; the kernel does not panic. -/
theorem tcptrim_spec (hw : Window i n e tcb) (hr : Piece S i p r) (hp : n < p + 2147483648)
    (hp' : p < n + 2147483648) :
    tcb.tcptrim r = .outside ∨ ∃ rerecv r', tcb.tcptrim r = .kept { tcb with rerecv } r' ∧
      Piece S i (max p n) r' ∧ r'.length.toNat ≤ r.length.toNat ∧ n ≤ p + 65535 ∧
      (p = n ∨ p < e) := by
  have hlt := r.length.toNat_lt
  have hsize := size_le r
  have hle := hw.le
  have hwnd := hw.wnd
  rw [Tcpctl.tcptrim]
  generalize r.length + (if r.seg.flags.syn then 1 else 0) +
    (if r.seg.flags.fin then 1 else 0) = len
  split
  · split
    · rename_i hbare
      have hplace : p = n := by
        have hseq := hr.place
        rw [hbare.2] at hseq
        exact hseq.unique hw.nxt (by omega) (by omega)
      refine .inr ⟨tcb.rerecv, r, rfl, ?_, le_rfl, by omega, .inl hplace⟩
      rw [hplace, max_self]
      exact hplace ▸ hr
    · exact .inl rfl
  · rename_i hopen
    have hne : n < e := by
      rcases lt_or_eq_of_le hle with hlt' | heq
      · exact hlt'
      · refine absurd (UInt32.toNat_inj.1 ?_) hopen
        rw [UInt32.toNat_zero]
        omega
    split
    · rename_i hacc
      obtain ⟨hbefore, hin⟩ := accepts_spec hw hne hr hp hp' hacc
      obtain ⟨rerecv, r', hdup, hr', hshort⟩ := trimDup_spec hw hr hp hp' hin
      have hw' : Window i n e { tcb with rerecv } := ⟨hw.nxt, hw.wnd, hw.le, hw.ge⟩
      obtain ⟨rerecv', r'', hexc, hr'', hshort'⟩ :=
        trimExcess_spec hw' hr' (le_max_right ..) (max_lt hbefore hne)
      rw [hdup]
      exact .inr ⟨rerecv', r'', hexc, hr'', hshort'.trans hshort, by omega, .inr hbefore⟩
    · exact .inl rfl

end Trim

/-! ### The queue of segments that wait -/

section Waiting

variable {k : ℤ} {r' : Reseq} {rs : List Reseq}

/-- Segments that wait are compared by their places. -/
theorem Waits.seqLe_iff (h : Waits S i k n r) (h' : Waits S i k n r') (hk : k ≤ 1048576) :
    ∃ p p', Piece S i p r ∧ Piece S i p' r' ∧ (seqLe r.seg.seq r'.seg.seq = true ↔ p ≤ p') ∧
      (seqLt r.seg.seq r'.seg.seq = true ↔ p < p') ∧ n - k ≤ p ∧ p < n + 1048576 ∧
      n - k ≤ p' ∧ p' < n + 1048576 := by
  obtain ⟨p, hp, hlo, hhi⟩ := h
  obtain ⟨p', hp', hlo', hhi'⟩ := h'
  exact ⟨p, p', hp, hp', Ip.seqLe_iff hp.place hp'.place (by omega) (by omega),
    Ip.seqLt_iff hp.place hp'.place (by omega) (by omega), hlo, hhi, hlo', hhi'⟩

theorem mem_insert {x : Reseq} : x ∈ Tcpctl.insert r rs ↔ x = r ∨ x ∈ rs := by
  induction rs with
  | nil => rw [Tcpctl.insert, mem_singleton, or_iff_left not_mem_nil]
  | cons y rs ih =>
    rw [Tcpctl.insert]
    split
    · rw [mem_cons]
    · rw [mem_cons, ih, mem_cons, or_left_comm]

theorem length_insert : (Tcpctl.insert r rs).length = rs.length + 1 := by
  induction rs with
  | nil => rfl
  | cons y rs ih =>
    rw [Tcpctl.insert]
    split
    · rfl
    · rw [length_cons, ih, length_cons]

theorem sum_insert : ((Tcpctl.insert r rs).map fun x => x.length.toNat).sum =
    r.length.toNat + (rs.map fun x => x.length.toNat).sum := by
  induction rs with
  | nil => rfl
  | cons y rs ih =>
    rw [Tcpctl.insert]
    split
    · rfl
    · rw [map_cons, sum_cons, ih, map_cons, sum_cons, Nat.add_left_comm]

/-- **The queue stays sorted**: the segment is put before the first with a greater number. -/
theorem sorted_insert (hk : k ≤ 1048576) (hr : Waits S i k n r) (hrs : ∀ x ∈ rs, Waits S i k n x)
    (h : rs.Pairwise fun x y => seqLe x.seg.seq y.seg.seq = true) :
    (Tcpctl.insert r rs).Pairwise fun x y => seqLe x.seg.seq y.seg.seq = true := by
  induction rs with
  | nil => exact pairwise_singleton _ _
  | cons y rs ih =>
    have hy := hrs y mem_cons_self
    obtain ⟨hfirst, hrest⟩ := pairwise_cons.1 h
    obtain ⟨p, q, hp, hq, hle, hlt, hp1, hp2, hq1, hq2⟩ := hr.seqLe_iff hy hk
    rw [Tcpctl.insert]
    split
    · rename_i hbefore
      rw [hlt] at hbefore
      refine pairwise_cons.2 ⟨fun x hx => ?_, h⟩
      rcases mem_cons.1 hx with rfl | htail
      · exact hle.2 hbefore.le
      · -- through the first: the places are near each other
        obtain ⟨o, ho, ho1, ho2⟩ := hrs x hx
        have hyx := hfirst x htail
        rw [Ip.seqLe_iff hq.place ho.place (by omega) (by omega)] at hyx
        exact (Ip.seqLe_iff hp.place ho.place (by omega) (by omega)).2 (by omega)
    · rename_i hafter
      rw [hlt] at hafter
      refine pairwise_cons.2 ⟨fun x hx => ?_, ih (fun x hx => hrs x (mem_cons_of_mem _ hx))
        hrest⟩
      rcases mem_insert.1 hx with rfl | htail
      · exact (Ip.seqLe_iff hq.place hp.place (by omega) (by omega)).2 (by omega)
      · exact hfirst x htail

end Waiting

namespace Receiving

/-- **The queue of segments that wait never outgrows the window.** -/
theorem addreseq (h : Receiving S i g s) (hk : g.late ≤ 1048576) (hr : Waits S i g.late g.place r)
    (mem : Bool) : Receiving S i g { s with tcb := s.tcb.addreseq mem r } := by
  have hsigned : signed s.tcb.window = g.window := by
    have hwindow := h.window
    have hle := h.window_le
    rw [signed, if_pos (by omega), hwindow]
  have hnreseq := h.nreseq
  have hreseqlen := h.reseqlen
  rw [Tcpctl.addreseq]
  split
  · exact h
  · dsimp only
    split
    · exact h.dumpreseq.congr rfl
    · split
      · exact h.dumpreseq.congr rfl
      · rename_i hfits _
        refine { h with
          waits := fun x hx => ?_
          sorted := sorted_insert hk hr h.waits h.sorted
          nreseq := ?_
          reseqlen := ?_
          le_window := ?_ }
        · rcases mem_insert.1 hx with rfl | hold
          · exact hr
          · exact h.waits x hold
        · dsimp only
          rw [length_insert]
          omega
        · dsimp only
          rw [sum_insert]
          omega
        · dsimp only
          omega

/-! ### A segment arrives -/

/-- The segment is used for what it acknowledges. -/
theorem reject (h : Receiving S i g s) (seg : Tcp) : Receiving S i g (s.reject seg) := by
  have ht := h.update seg
  have hmove : Receiving S i g (if (s.update seg).allAcked ∧
      (s.update seg).tcb.state = .closing then (s.update seg).tcpsetstate .timeWait
      else s.update seg) := by
    split
    · rename_i hclosing
      refine ht.tcpsetstate rfl (fun _ => ?_) nofun
      have hfin := ht.gotFin (by rw [hclosing.2]; decide)
      rw [hclosing.2] at hfin
      exact hfin
    · exact ht
  rw [Conv.reject]
  split
  · exact hmove
  · exact hmove.force.tcpoutput

/-- A segment that waits is used for what it acknowledges, too. -/
theorem wait (h : Receiving S i g s) (hk : g.late ≤ 1048576)
    (hr : Waits S i g.late g.place { r with seg := { r.seg with update := true } }) (mem : Bool) :
    Receiving S i g (s.wait mem r) :=
  ((h.update r.seg).addreseq hk hr mem).force.tcpoutput

end Receiving

/-- Between two steps: no segment is in hand, or one that fits; and nothing is far away. -/
def Ready (S : List UInt8) (i : UInt32) (s : Conv) : Prop :=
  ∃ g : Ledger, g.late = 65536 ∧ Receiving S i g s ∧
    ∀ r, g.hand = some r → InHand S i g.place r ∧ g.behind = 0

theorem Receiving.ready (h : Receiving S i g s) (hlate : g.late = 65536) (hhand : g.hand = none) :
    Ready S i s := by
  refine ⟨g, hlate, h, fun r hr => ?_⟩
  rw [hhand] at hr
  cases hr

/-- A segment is taken in hand. -/
theorem Receiving.take (h : Receiving S i g s) (hlate : g.late = 65536)
    (hr : InHand S i g.place r) (hbehind : g.behind = 0) {t : Conv}
    (ht : t.view = { s with cur := some r }.view) : Ready S i t := by
  have hcur : Receiving S i { g with hand := some r } { s with cur := some r } :=
    { h with cur := rfl }
  refine ⟨{ g with hand := some r }, hlate, hcur.congr ht, fun r' hr' => ?_⟩
  cases hr'
  exact ⟨hr, hbehind⟩

namespace Receiving

theorem takeUp (h : Receiving S i g s) (hlate : g.late = 65536) (hr : InHand S i g.place r)
    (hbehind : g.behind = 0) : Ready S i (s.takeUp r) := by
  refine h.take hlate hr hbehind ?_
  rw [Conv.takeUp]
  split <;> rfl

/-- A segment whose front is cut off waits, or is taken in hand. -/
theorem accept (h : Receiving S i g s) (hlate : g.late = 65536) (hhand : g.hand = none)
    (hbehind : g.behind = 0) (hr : Piece S i p r) (hp : g.place ≤ p)
    (hp' : p = g.place ∨ p < g.place + 1048576) (mem : Bool) : Ready S i (s.accept mem r) := by
  have hk : g.late ≤ 1048576 := by omega
  rw [Conv.accept]
  split
  · exact h.ready hlate hhand
  · split
    · rename_i hbeyond
      -- the place of the segment is beyond that of `rcv.nxt`
      have hne : p ≠ g.place := by
        intro heq
        have hplace := hr.place
        have hnxt := h.nxt
        rw [heq, At, ← hnxt] at hplace
        exact hbeyond.1 (UInt32.toNat_inj.1 (by exact_mod_cast hplace))
      have hwait : Waits S i g.late g.place { r with seg := { r.seg with update := true } } :=
        ⟨p, hr.congr rfl rfl, by omega, by omega⟩
      exact (h.wait hk hwait mem).ready hlate hhand
    · rename_i hnear
      refine h.takeUp hlate ⟨p, hr, fun hsome => ?_⟩ hbehind
      have hseq : r.seg.seq = s.tcb.rcv.nxt := by
        by_contra hne
        refine hnear ⟨hne, ?_⟩
        rcases hsome with hlen | hfin
        · exact .inl hlen
        · exact .inr (.inr hfin)
      have hplace := hr.place
      rw [hseq] at hplace
      exact hplace.unique h.nxt (by omega) (by omega)

/-- **A segment that arrives** is thrown away, waits, or is taken in hand. -/
theorem window_ready (h : Receiving S i g s) (hlate : g.late = 65536) (hhand : g.hand = none)
    (hr : Piece S i p r) (hp : g.place < p + 2147483648) (hp' : p < g.place + 2147483648)
    (mem : Bool) : Ready S i (s.window mem r) := by
  obtain ⟨e, hw⟩ := h.window_tcprcvwin
  have ht := h.tcprcvwin_ahead
  have hge := hw.ge
  unfold Conv.window
  rcases tcptrim_spec hw hr hp hp' with hout | ⟨rerecv, r', hkept, hr', -, -, hbefore⟩
  · dsimp only
    rw [hout]
    exact (ht.reject r.seg).ready hlate hhand
  · have hcut : Receiving S i { g with behind := 0 }
        { s.tcprcvwin with tcb := { s.tcprcvwin.tcb with rerecv } } := ht.congr rfl
    dsimp only
    rw [hkept]
    exact hcut.accept hlate hhand rfl hr' (le_max_right ..) (by dsimp only; omega) mem

end Receiving

/-- The place of `rcv.nxt`: what has been passed to the reader, and the FIN. -/
def Conv.place (s : Conv) : ℤ := s.rq.all.length + s.tcb.state.gotFin.toNat

/-- **What is asked of a packet that arrives**: it is cut from the stream, and less than half a turn
away from `rcv.nxt`. -/
def Arrives (S : List UInt8) (i : UInt32) (s : Conv) (pk : Conv.Packet) : Prop :=
  ∀ r, pk.trim = some r → ∃ p, Agrees S i p r ∧ s.place < p + 2147483648 ∧
    p < s.place + 2147483648

variable {pk : Conv.Packet}

/-- A packet that has been cut to the length it claims has that many bytes. -/
theorem trim_length (h : pk.trim = some r) :
    (bytes r.bp).length = r.length.toNat := by
  rw [Conv.Packet.trim] at h
  split at h
  · cases h
  · obtain ⟨bp, hbp, rfl⟩ := Option.map_eq_some_iff.1 h
    exact (bytes_trimblock hbp).2

variable {a : Conv.Act}

namespace Receiving

variable (h : Receiving S i g s)

include h

theorem hogged (hog : Bool) (seg : Tcp) :
    Receiving S i g (s.hogged hog seg) := by
  rw [Conv.hogged]
  split
  · exact h.localclose
  · exact h

theorem arrive (hlate : g.late = 65536) (hhand : g.hand = none)
    (hpk : Arrives S i s pk) (mem hog : Bool) :
    Ready S i (s.arrive pk mem hog) := by
  rw [Conv.arrive]
  cases hr : pk.trim with
  | none => exact h.ready hlate hhand
  | some r =>
    obtain ⟨p, hagrees, hp, hp'⟩ := hpk r hr
    have hpiece : Piece S i p r := { hagrees with length := trim_length hr }
    have hplace : s.tcb.state ≠ .closed → g.place = s.place := by
      intro hopen
      rw [h.place, Conv.place, h.gotFin hopen]
    have hsync := h.synchronized
    unfold Conv.receive
    dsimp only
    split
    · exact h.ready hlate hhand
    · exact h.ready hlate hhand
    · rename_i hstate
      rw [hstate] at hsync
      cases hsync
    · rename_i hclosed _ _
      rw [← hplace hclosed] at hp hp'
      have hscaled : Piece S i p
          { r with seg := { r.seg with wnd := r.seg.wnd <<< s.tcb.rcv.scale.toUInt32 } } :=
        hpiece.congr rfl rfl
      exact (h.hogged hog _).window_ready hlate hhand hscaled hp hp' mem

/-! ### A turn of the loop -/

/-- The acknowledgement of a segment may move the state on. -/
theorem acknowledge (hrst : seg.flags.rst = false) :
    Receiving S i g (Conv.finished (s.acknowledge seg)) := by
  have ht := h.update seg
  have hsync := h.synchronized
  unfold Conv.acknowledge
  rw [hrst, if_neg Bool.false_ne_true]
  split
  · exact h
  · dsimp only
    split
    · rename_i hstate
      rw [hstate] at hsync
      cases hsync
    · exact ht
    · exact ht
    · exact ht
    · rename_i hstate
      have hfin := h.gotFin (by rw [hstate]; decide)
      rw [hstate] at hfin
      dsimp only [Conv.finished]
      split
      · exact ht.tcpsetstate rfl (fun _ => hfin) nofun
      · exact ht
    · rename_i hstate
      have hfin := h.gotFin (by rw [hstate]; decide)
      rw [hstate] at hfin
      dsimp only [Conv.finished]
      split
      · exact ht.tcpsetstate rfl (fun _ => hfin) nofun
      · exact ht
    · split
      · exact ht.localclose
      · exact ht.force
    · exact h.force
    · exact h
    · exact h
    · exact h

/-- Without urgent data the segment stays as it is. -/
theorem urgent (hurg : r.seg.flags.urg = false) :
    Receiving S i g (s.urgent r).1 ∧ (s.urgent r).2 = r.bp ∧
      (s.urgent r).1.tcb.state = s.tcb.state := by
  unfold Conv.urgent
  rw [if_neg (by rw [hurg]; exact fun hand => Bool.false_ne_true hand.1)]
  split
  · exact ⟨h.congr rfl, rfl, rfl⟩
  · exact ⟨h, rfl, rfl⟩

/-- **The text of a segment** is passed to the reader as it is, when the queue is not full. -/
theorem passText (hlate : g.late = 65536) (hbehind : g.behind = 0)
    (hfin : g.fin = false) (hr : Piece S i g.place r) (hlen : r.length ≠ 0)
    (hroom : g.len < g.window) : Receiving S i { g with
      place := g.place + r.length.toNat, len := s.rq.len + ((packblock r.bp).map Block.alloc).sum,
      behind := r.length.toNat, late := 65536 + r.length.toNat }
    (s.passText r.bp r.length) := by
  have hbp : r.bp ≠ [] := by
    intro hnil
    have hcount := hr.length
    rw [hnil] at hcount
    exact hlen (UInt16.toNat_inj.1 hcount.symm)
  have hlt := r.length.toNat_lt
  have hlen' := h.len
  have hlimit := h.limit
  have hplace := h.place
  have hall : (s.rq.qpassnolim (packblock r.bp)).all = s.rq.all ++ bytes r.bp := by
    rw [Queue.all_qpassnolim _ (by omega), bytes_packblock]
  have hblocks : (s.rq.qpassnolim (packblock r.bp)).blocks = s.rq.blocks ++ packblock r.bp := by
    rw [Queue.qpassnolim, Queue.qpasslim, if_neg (by omega), Bool.false_and,
      if_neg Bool.false_ne_true]
  rw [hfin, Bool.toNat_false, Int.natCast_zero, add_zero] at hplace
  rw [Conv.passText, if_neg hbp]
  refine { h with
    limit := ?_
    dlen := ?_
    len := ?_
    stream := ?_
    whole := fun htrue => ?_
    place := ?_
    nxt := ?_
    slack := ?_
    edge := ?_
    waits := fun x hx => ?_ }
  · rw [← hlimit]
    dsimp only [Conv.mapRcv]
    rw [Queue.qpassnolim, Queue.qpasslim, if_neg (by omega), Bool.false_and,
      if_neg Bool.false_ne_true]
  · have hle := s.rq.dlen_le_len
    rw [Queue.dlen_eq] at hle ⊢
    dsimp only [Conv.mapRcv]
    rw [hblocks, bytes_append, bytes_packblock, length_append, hr.length]
    omega
  · rw [Queue.len]
    dsimp only [Conv.mapRcv]
    rw [hblocks, map_append, sum_append]
    rfl
  · dsimp only [Conv.mapRcv]
    rw [hall]
    exact hr.continues h.stream hplace
  · dsimp only at htrue
    rw [hfin] at htrue
    cases htrue
  · dsimp only [Conv.mapRcv]
    rw [hall, length_append, hr.length, hfin, Bool.toNat_false]
    push_cast
    omega
  · exact h.nxt.add (by rw [UInt16.toNat_toUInt32])
  · dsimp only
    omega
  · obtain ⟨e, hedge, hlo, hhi⟩ := h.edge
    exact ⟨e, hedge, by dsimp only; omega, by dsimp only; omega⟩
  · obtain ⟨p, hp, hlo, hhi⟩ := h.waits x hx
    exact ⟨p, hp, by dsimp only; omega, by dsimp only; omega⟩

/-- All of the stream is there when `rcv.nxt` is at its end. -/
theorem eq_of_place (hfin : g.fin = false) (hend : g.place = S.length) :
    s.rq.all = S := by
  have hplace := h.place
  rw [hfin, Bool.toNat_false, Int.natCast_zero, add_zero] at hplace
  exact h.stream.eq_of_length (by omega)

/-- **A FIN is counted in once**: only the states without one go on, to those with one. -/
theorem stepFin (hstate : s.tcb.state.gotFin = false)
    (hopen : s.tcb.state ≠ .closed) (hend : g.place = S.length) (hbehind : g.behind ≤ 65535)
    (hnew : new.gotFin = true) :
    Receiving S i
      { g with place := g.place + 1, fin := true, behind := g.behind + 1, late := g.late + 1 }
      (s.stepFin.tcpsetstate new) := by
  have hfin : g.fin = false := by rw [← h.gotFin hopen, hstate]
  have hall := h.eq_of_place hfin hend
  have hplace := h.place
  have hslack := h.slack
  rw [hfin, Bool.toNat_false, Int.natCast_zero, add_zero] at hplace
  have hstep : Receiving S i
      { g with place := g.place + 1, fin := true, behind := g.behind + 1, late := g.late + 1 }
      { s.stepFin with tcb := { s.stepFin.tcb with state := new } } :=
    { h with
      synchronized := State.synchronized_of_gotFin hnew
      gotFin := fun _ => hnew
      reader := fun hreads => absurd hreads (by simp [State.not_reads hnew])
      whole := fun _ => hall
      place := by
        dsimp only [Conv.stepFin, Conv.mapRcv]
        rw [hplace, Bool.toNat_true]
        rfl
      nxt := h.nxt.add rfl
      slack := by dsimp only; omega
      edge := by
        obtain ⟨e, hedge, hlo, hhi⟩ := h.edge
        exact ⟨e, hedge, by dsimp only; omega, by dsimp only; omega⟩
      waits := fun x hx => by
        obtain ⟨p, hp, hlo, hhi⟩ := h.waits x hx
        exact ⟨p, hp, by dsimp only; omega, by dsimp only; omega⟩ }
  rw [Conv.tcpsetstate]
  split
  · rename_i hsame
    have hno : new.gotFin = false := hsame ▸ hstate
    rw [hno] at hnew
    cases hnew
  · split
    · cases hnew
    · exact hstep.queue s.rq.all_qhangup rfl le_rfl le_rfl
    · exact hstep

/-- The other end has closed, at the end of the stream. -/
theorem fin (hbehind : g.behind ≤ 65535)
    (hend : seg.flags.fin = true → s.tcb.state.gotFin = false → s.tcb.state ≠ .closed →
      g.place = S.length) :
    ∃ g' : Ledger, Receiving S i g' (s.fin seg) ∧ g'.hand = g.hand ∧ g'.late ≤ g.late + 1 := by
  rw [Conv.fin]
  split
  · exact ⟨g, h, rfl, by omega⟩
  · rename_i hflag
    have hflag' : seg.flags.fin = true := Bool.eq_true_of_not_eq_false hflag
    have hsync := h.synchronized
    have hend' := hend hflag'
    dsimp only
    split
    · rename_i hstate
      have hsyn : s.tcb.state = .synReceived := hstate
      rw [hsyn] at hsync
      cases hsync
    · rename_i hstate
      have hest : s.tcb.state = .established := hstate
      rw [hest] at hend'
      exact ⟨_, h.force.stepFin (by rw [hstate]; rfl) (by rw [hstate]; decide)
        (hend' rfl (by decide)) hbehind rfl, rfl, le_rfl⟩
    · rename_i hstate
      have hest : s.tcb.state = .finwait1 := hstate
      rw [hest] at hend'
      split
      · exact ⟨_, h.force.stepFin (by rw [hstate]; rfl) (by rw [hstate]; decide)
          (hend' rfl (by decide)) hbehind rfl, rfl, le_rfl⟩
      · exact ⟨_, h.force.stepFin (by rw [hstate]; rfl) (by rw [hstate]; decide)
          (hend' rfl (by decide)) hbehind rfl, rfl, le_rfl⟩
    · rename_i hstate
      have hest : s.tcb.state = .finwait2 := hstate
      rw [hest] at hend'
      exact ⟨_, h.force.stepFin (by rw [hstate]; rfl) (by rw [hstate]; decide)
        (hend' rfl (by decide)) hbehind rfl, rfl, le_rfl⟩
    · exact ⟨g, h.force, rfl, by omega⟩

/-- The text of a segment in hand is passed on, or there is nobody to read it. -/
theorem text (hlate : g.late = 65536) (hbehind : g.behind = 0)
    (hr : InHand S i g.place r)
    (hroom : r.length ≠ 0 → g.reader = true → g.len < g.window) :
    (∃ t, s.text r.bp r.length = .error t ∧ Receiving S i g t) ∨
      ∃ t g', s.text r.bp r.length = .ok t ∧ Receiving S i g' t ∧ g'.hand = g.hand ∧
        g'.behind ≤ 65535 ∧ g'.late ≤ 131071 ∧
        (r.seg.flags.fin = true → t.tcb.state.gotFin = false → t.tcb.state ≠ .closed →
          g'.place = S.length) := by
  obtain ⟨p, hpiece, hplace⟩ := hr
  have hlt := r.length.toNat_lt
  have hsync := h.synchronized
  -- a reader that takes the text takes all of it
  have hpass : r.length ≠ 0 → s.tcb.state.reads = true → s.tcb.state.gotFin = false →
      s.tcb.state ≠ .closed → ∃ g' : Ledger, Receiving S i g' (s.passText r.bp r.length) ∧
        g'.hand = g.hand ∧
        g'.behind ≤ 65535 ∧ g'.late ≤ 131071 ∧ (r.seg.flags.fin = true → g'.place = S.length) := by
    intro hlen hreads hstate hopen
    have hp : p = g.place := hplace (.inl hlen)
    have hfin : g.fin = false := by rw [← h.gotFin hopen, hstate]
    have hpiece' : Piece S i g.place r := hp ▸ hpiece
    refine ⟨_, h.passText hlate hbehind hfin hpiece' hlen (hroom hlen (h.reader hreads)), rfl, ?_,
      ?_, hpiece'.fin⟩
    · dsimp only
      omega
    · dsimp only
      omega
  rw [Conv.text]
  split
  · rename_i hzero
    refine .inr ⟨s, g, rfl, h, rfl, by omega, by omega, fun hflag _ _ => ?_⟩
    have hend := hpiece.fin hflag
    rw [hplace (.inr hflag), hzero] at hend
    simpa using hend
  · rename_i hlen
    split
    · rename_i hstate
      rw [hstate] at hsync
      cases hsync
    · rename_i hstate
      obtain ⟨g', hg', hhand, hb, hl, hend⟩ :=
        hpass hlen (by rw [hstate]; rfl) (by rw [hstate]; rfl) (by rw [hstate]; decide)
      exact .inr ⟨_, g', rfl, hg', hhand, hb, hl, fun hflag _ _ => hend hflag⟩
    · rename_i hstate
      obtain ⟨g', hg', hhand, hb, hl, hend⟩ :=
        hpass hlen (by rw [hstate]; rfl) (by rw [hstate]; rfl) (by rw [hstate]; decide)
      exact .inr ⟨_, g', rfl, hg', hhand, hb, hl, fun hflag _ _ => hend hflag⟩
    · exact .inl ⟨s, rfl, h⟩
    · rename_i hsyn hest hfw1 hfw2
      refine .inr ⟨s, g, rfl, h, rfl, by omega, by omega, fun _ hstate hopen => ?_⟩
      cases hs : s.tcb.state <;> simp_all [State.gotFin, State.synchronized]

/-- A closer account of the segments that wait. -/
theorem nearer (hwaits : ∀ r ∈ s.tcb.reseq, Waits S i late g.place r) :
    Receiving S i { g with late } s :=
  { h with waits := hwaits }

variable {rs : List Reseq}

theorem popreseq (hrs : s.tcb.reseq = r :: rs) :
    Receiving S i { g with behind := 0 } s.popreseq ∧ s.popreseq.tcb.reseq = rs ∧
      ∃ e, Window i g.place e s.popreseq.tcb := by
  have hnreseq := h.nreseq
  have hreseqlen := h.reseqlen
  have hle := h.le_window
  have hpop : s.tcb.getreseq = { s.tcb with
      reseq := rs, nreseq := s.tcb.nreseq - 1,
      reseqlen := s.tcb.reseqlen - r.length.toNat } := by rw [Tcpctl.getreseq, hrs]
  rw [hrs, length_cons] at hnreseq
  rw [hrs, map_cons, sum_cons] at hreseqlen
  have hnext : Receiving S i g { s with tcb := s.tcb.getreseq } := by
    rw [hpop]
    exact { h with
      waits := fun x hx => h.waits x (by rw [hrs]; exact mem_cons_of_mem r hx)
      sorted := by
        have hsorted := h.sorted
        rw [hrs] at hsorted
        exact hsorted.of_cons
      nreseq := by dsimp only; omega
      reseqlen := by dsimp only; omega
      le_window := by dsimp only; omega }
  refine ⟨hnext.tcprcvwin_ahead, ?_, hnext.window_tcprcvwin⟩
  rw [Conv.popreseq, hpop]
  rfl

/-- **The segments that wait** after a turn lie near `rcv.nxt` again: either all lie beyond it, or
the first of them, which is taken in hand, reaches into the window. -/
theorem adjacent (hhand : g.hand = none) (hlate : g.late ≤ 131072)
    (hrs : s.tcb.reseq = rs) : Ready S i (s.adjacent rs) := by
  induction rs generalizing s g with
  | nil =>
    have hnear : Receiving S i { g with late := 65536 } s := by
      refine h.nearer fun x hx => ?_
      rw [hrs] at hx
      cases hx
    exact hnear.tcpoutput.ready rfl hhand
  | cons r rs ih =>
    obtain ⟨p, hpiece, hlo, hhi⟩ := h.waits r (by rw [hrs]; exact mem_cons_self)
    have hge := Ip.seqGe_iff h.nxt hpiece.place (by omega) (by omega)
    -- what waits behind the first lies behind it
    have hbehind : ∀ x ∈ rs, ∃ q, Piece S i q x ∧ p ≤ q ∧ q < g.place + 1048576 := by
      intro x hx
      obtain ⟨q, hq, hqlo, hqhi⟩ := h.waits x (by rw [hrs]; exact mem_cons_of_mem r hx)
      have hsorted := h.sorted
      rw [hrs] at hsorted
      have hle := (pairwise_cons.1 hsorted).1 x hx
      rw [Ip.seqLe_iff hpiece.place hq.place (by omega) (by omega)] at hle
      exact ⟨q, hq, hle, hqhi⟩
    unfold Conv.adjacent
    split
    · rename_i hbeyond
      have hfar : g.place < p := by
        by_contra hle
        rw [hge.2 (by omega)] at hbeyond
        cases hbeyond
      have hnear : Receiving S i { g with late := 65536 } s := by
        refine h.nearer fun x hx => ?_
        rw [hrs] at hx
        rcases mem_cons.1 hx with rfl | htail
        · exact ⟨p, hpiece, by omega, hhi⟩
        · obtain ⟨q, hq, hle, hqhi⟩ := hbehind x htail
          exact ⟨q, hq, by omega, hqhi⟩
      exact hnear.tcpoutput.ready rfl hhand
    · rename_i hdue
      have hdue' := hge.1 (Bool.eq_true_of_not_eq_false hdue)
      obtain ⟨hpop, htail, e, hw⟩ := h.popreseq hrs
      rcases tcptrim_spec hw hpiece (by omega) (by omega) with
        hout | ⟨rerecv, r', hkept, hr', -, hback, -⟩
      · rw [hout]
        exact ih hpop hhand hlate htail
      · rw [hkept]
        rw [max_eq_right hdue'] at hr'
        have hnear : Receiving S i { g with behind := 0, late := 65536 } s.popreseq := by
          refine hpop.nearer fun x hx => ?_
          rw [htail] at hx
          obtain ⟨q, hq, hle, hqhi⟩ := hbehind x hx
          exact ⟨q, hq, by dsimp only; omega, hqhi⟩
        have hcut : Receiving S i { g with behind := 0, late := 65536 }
            { s.popreseq with tcb := { s.popreseq.tcb with rerecv } } := hnear.congr rfl
        exact hcut.take rfl ⟨g.place, hr', fun _ => rfl⟩ rfl rfl

theorem deliver (hhand : g.hand = none) (hlate : g.late = 65536)
    (hbehind : g.behind = 0) (hr : InHand S i g.place r)
    (hroom : r.length ≠ 0 → g.reader = true → g.len < g.window) :
      Ready S i (Conv.finished (s.deliver r)) := by
  have hurg : r.seg.flags.urg = false := by
    obtain ⟨p, hpiece, -⟩ := hr
    exact hpiece.urg
  obtain ⟨hu, hbp, -⟩ := h.urgent hurg
  rw [Conv.deliver]
  dsimp only
  rw [hbp]
  rcases hu.text hlate hbehind hr hroom with ⟨t, htext, ht⟩ | ⟨t, g', htext, ht, hhand', hb,
    hl, hend⟩
  · rw [htext]
    exact ht.ready hlate hhand
  · rw [htext]
    obtain ⟨g'', hfin, hhand'', hl'⟩ := ht.fin hb hend
    exact hfin.adjacent (hhand''.trans (hhand'.trans hhand)) (by omega) rfl

/-- A turn of the loop begins with nothing in hand. -/
theorem putDown :
    Receiving S i { g with hand := none } { s with cur := none } :=
  { h with cur := rfl }

theorem turn (hlate : g.late = 65536) (hbehind : g.behind = 0)
    (hr : InHand S i g.place r)
    (hroom : r.length ≠ 0 → g.reader = true → g.len < g.window) :
    Ready S i (Conv.finished (s.turn r)) := by
  have hrst : r.seg.flags.rst = false := by
    obtain ⟨p, hpiece, -⟩ := hr
    exact hpiece.rst
  have hack := h.putDown.acknowledge hrst
  rw [Conv.turn]
  cases hcase : ({ s with cur := none } : Conv).acknowledge r.seg with
  | error t =>
    rw [hcase] at hack
    exact hack.ready hlate rfl
  | ok t =>
    rw [hcase] at hack
    exact hack.deliver rfl hlate hbehind hr hroom

/-! ### The user and the timers -/

theorem tcpclosestate {state : State} (hsync : state.synchronized = true)
    (hfin : state ≠ .closed → state.gotFin = g.fin)
    (hreads : state.reads = true → g.reader = true) :
    Receiving S i g (s.tcpclosestate state) := by
  have hcount : Receiving S i g { s with tcb := { s.tcb with
      flgcnt := s.tcb.flgcnt + 1, snd := { s.tcb.snd with nxt := s.tcb.snd.nxt + 1 } } } :=
    h.congr rfl
  exact (hcount.tcpsetstate hsync hfin hreads).tcpoutput

theorem tcpxmitclose : Receiving S i g s.tcpxmitclose := by
  have hhang : Receiving S i g { s with wq := s.wq.qhangup } := h.congr rfl
  have hsync := h.synchronized
  have hfin := h.gotFin
  have hreads := h.reader
  rw [Conv.tcpxmitclose]
  dsimp only
  split
  · exact hhang.localclose
  · exact hhang.localclose
  · exact hhang.localclose
  · exact hhang.tcpclosestate hsync hfin hreads
  · exact hhang.tcpclosestate hsync hfin hreads
  · exact hhang.tcpclosestate hsync hfin hreads
  · exact hhang

theorem tcpclose : Receiving S i g s.tcpclose := by
  have hflush : Receiving S i g { s with rq := s.rq.qhangup.qflush } :=
    h.queue s.rq.qhangup.all_qflush rfl (Nat.zero_le _) (Nat.zero_le _)
  have hhang : Receiving S i g
      { s with rq := s.rq.qhangup.qflush, wq := s.wq.qhangup } := hflush.congr rfl
  have hsync := h.synchronized
  have hfin := h.gotFin
  have hreads := h.reader
  rw [Conv.tcpclose]
  dsimp only
  split
  · exact hhang.localclose
  · exact hhang.localclose
  · exact hhang.localclose
  · rename_i hstate
    rw [hstate] at hsync
    cases hsync
  · rename_i hstate
    rw [hstate] at hfin hreads
    exact hhang.tcpclosestate rfl (fun _ => hfin (by decide)) fun _ => hreads rfl
  · rename_i hstate
    rw [hstate] at hfin
    exact hhang.tcpclosestate rfl (fun _ => hfin (by decide)) nofun
  · exact hhang

theorem tcptimeout (hang : Bool) :
    Receiving S i g (s.tcptimeout hang) := by
  rw [Conv.tcptimeout]
  split
  · exact h.localclose
  · exact h
  · split
    · exact h.localclose
    · dsimp only
      split
      · exact h.tcprxmit.congr rfl
      · have hcong : Receiving S i g { s with tcb := s.tcb.tcpcongestion } := h.congr rfl
        exact hcong.tcprxmit.congr rfl

theorem tcpkeepalive (hang : Bool) :
    Receiving S i g (s.tcpkeepalive hang) := by
  rw [Conv.tcpkeepalive]
  split
  · exact h
  · split
    · exact h.localclose
    · have hack : Receiving S i g (s.mapRcv fun rcv => { rcv with ackptr := rcv.nxt }) :=
        h.congr rfl
      exact hack.tcprcvwin

/-- What the user and the timers do with the lock of the conversation. -/
theorem locked (ha : ∀ pk mem hog, a ≠ .arrive pk mem hog) :
    Receiving S i g (s.locked a) := by
  cases a with
  | arrive pk mem hog => exact absurd rfl (ha pk mem hog)
  | xmitclose => exact h.tcpxmitclose
  | close => exact h.tcpclose
  | kick =>
    rw [Conv.locked, Conv.tcpkick]
    split
    · exact h.tcpoutput
    · exact h.tcpoutput
    · exact h.tcpoutput
    · exact h.tcpoutput
    · exact h.localclose
  | acktimer =>
    rw [Conv.locked, Conv.tcpacktimer]
    split
    · exact h
    · exact h.force.tcpoutput
  | more => exact h.messages 4
  | timeout hang => exact h.tcptimeout hang
  | keepalive hang => exact h.tcpkeepalive hang
  | turn | read _ | write _ => exact h

/-- The user reads. -/
theorem read (m : ℕ) :
    Receiving S i g { s with rq := s.rq.qread m } := by
  refine h.queue (s.rq.all_qread m) rfl ?_ ?_
  · rw [Queue.dlen_eq, Queue.dlen_eq, Queue.qread, Queue.qdiscard]
    dsimp only
    rw [bytes_pullblock, length_drop]
    exact Nat.sub_le ..
  · exact s.rq.len_qread_le m

end Receiving

/-! ### Runs -/

/-- A packet that arrives is cut from the stream. -/
def Cut (S : List UInt8) (i : UInt32) (s : Conv) : Conv.Act → Prop
  | .arrive pk _ _ => Arrives S i s pk
  | _ => True

/-- When text is to be passed to the reader the buffers in its queue are below the limit. -/
def Roomy (s : Conv) : Conv.Act → Prop
  | .turn => ∀ r, s.cur = some r → r.length ≠ 0 → s.tcb.state.reads = true →
      s.rq.len < s.rq.limit
  | _ => True

/-- What the steps of a run are to meet. -/
def StepOk (S : List UInt8) (i : UInt32) (s : Conv) (a : Conv.Act) : Prop :=
  Cut S i s a ∧ Roomy s a

/-- **A step keeps the invariant.** -/
theorem Ready.act (h : Ready S i s) (hok : StepOk S i s a) (hact : s.act a = some t) :
    Ready S i t := by
  obtain ⟨hcut, hroomy⟩ := hok
  obtain ⟨g, hlate, hrcv, hhand⟩ := h
  -- whoever takes the lock finds no segment in hand
  have hlocked : ∀ b : Conv.Act, (if s.cur.isNone then some (s.locked b) else none) = some t →
      g.hand = none ∧ s.locked b = t := by
    intro b hb
    split at hb
    · rename_i hnone
      rw [hrcv.cur, Option.isNone_iff_eq_none] at hnone
      exact ⟨hnone, Option.some.inj hb⟩
    · cases hb
  cases a with
  | arrive pk mem hog =>
    obtain ⟨hnone, rfl⟩ := hlocked _ hact
    exact hrcv.arrive hlate hnone hcut mem hog
  | turn =>
    obtain ⟨r, hr, rfl⟩ := Option.map_eq_some_iff.1 hact
    have hroom := hroomy r hr
    rw [hrcv.limit] at hroom
    rw [hrcv.cur] at hr
    obtain ⟨hinhand, hbehind⟩ := hhand r hr
    have hexact : Receiving S i { g with len := s.rq.len, reader := s.tcb.state.reads } s :=
      { hrcv with len := le_rfl, reader := id }
    exact hexact.turn hlate hbehind hinhand hroom
  | read m =>
    cases hact
    exact ⟨g, hlate, hrcv.read m, hhand⟩
  | write b =>
    cases hact
    exact ⟨g, hlate, hrcv.congr rfl, hhand⟩
  | xmitclose | close | kick | acktimer | more | timeout _ | keepalive _ =>
    obtain ⟨hnone, rfl⟩ := hlocked _ hact
    exact (hrcv.locked (by simp)).ready hlate hnone

/-- **The start of a conversation** that has just been set up, with `i` the first number of the
other end's stream. -/
structure Starts (i : UInt32) (s : Conv) : Prop where
  calm : s.panicked = false
  cur : s.cur = none
  state : s.tcb.state = .established
  window : s.tcb.window ≤ QMAX <<< maxqscale.toUInt32
  limit : s.rq.limit = s.tcb.window.toNat
  queue : s.rq.blocks = [] ∧ s.rq.gone = []
  nxt : s.tcb.rcv.nxt = i
  edge : s.tcb.rcv.wptr - i ≤ s.tcb.window
  reseq : s.tcb.reseq = []
  nreseq : s.tcb.nreseq = 0
  reseqlen : s.tcb.reseqlen = 0

theorem window_le (scale : UInt16) :
    QMAX <<< (if maxqscale < scale then maxqscale else scale &&& 0xff).toUInt32 ≤
      QMAX <<< maxqscale.toUInt32 := by
  split
  · exact UInt32.le_refl _
  · rename_i hle
    have hle' : scale.toNat ≤ 4 := by
      rw [UInt16.lt_iff_toNat_lt] at hle
      exact Nat.le_of_not_lt hle
    obtain ⟨k, hk, rfl⟩ : ∃ k ≤ 4, scale = UInt16.ofNat k :=
      ⟨scale.toNat, hle', UInt16.ofNat_toNat.symm⟩
    have hcases : k = 0 ∨ k = 1 ∨ k = 2 ∨ k = 3 ∨ k = 4 := by omega
    rcases hcases with rfl | rfl | rfl | rfl | rfl <;> decide

/-- A new conversation has room for all of its window. -/
theorem room_new (hqlen : s.rq.qlen = 0) (hwptr : s.tcb.rcv.wptr = s.tcb.rcv.nxt)
    (hwindow : s.tcb.window ≤ QMAX <<< maxqscale.toUInt32) : s.room = s.tcb.window := by
  have hle := UInt32.le_iff_toNat_le.1 hwindow
  have hmax : (QMAX <<< maxqscale.toUInt32).toNat = 1048560 := by decide
  have hsigned : signed s.tcb.window = s.tcb.window.toNat := by
    rw [signed, if_pos (by omega)]
  have hzero : s.tcb.window - UInt32.ofNat 0 = s.tcb.window := UInt32.sub_zero ..
  have hback : s.tcb.rcv.nxt + s.tcb.window - s.tcb.rcv.nxt = s.tcb.window := by
    rw [UInt32.add_comm, UInt32.add_sub_cancel]
  have hpos : ¬signed s.tcb.window < 0 := by omega
  have hpast : seqLt (s.tcb.rcv.nxt + s.tcb.window) s.tcb.rcv.wptr = false := by
    rw [seqLt, hwptr, hback, decide_eq_false hpos]
  rw [Conv.room, hqlen, hzero, if_neg hpos, hpast, if_neg Bool.false_ne_true]

/-- What `tcpincoming` sets up is a start. -/
theorem starts_tcpincoming (lp : Conv.Limbo) (segp : Tcp) (mtu : UInt16) (route : ℕ → Bool) :
    Starts (lp.irs + 1) (Conv.tcpincoming lp segp mtu route) := by
  have hle := window_le lp.rcvscale
  rw [Conv.tcpincoming, Conv.tcpsetscale]
  dsimp only
  generalize QMAX <<< (if maxqscale < lp.rcvscale then maxqscale
    else lp.rcvscale &&& 0xff).toUInt32 = window at hle ⊢
  rw [Conv.tcpsetstate, if_neg nofun]
  refine ⟨rfl, rfl, rfl, hle, rfl, ⟨rfl, rfl⟩, rfl, ?_, rfl, rfl, rfl⟩
  dsimp only [Conv.tcprcvwin, Conv.mapRcv, Tcpctl.initialwindow]
  rw [room_new rfl rfl hle, UInt32.add_comm, UInt32.add_sub_cancel]
  exact UInt32.le_refl _

/-- The account of a conversation that has just been set up. -/
def Ledger.start (window : ℕ) : Ledger where
  window := window
  len := 0
  reader := true
  place := 0
  fin := false
  hand := none
  behind := 0
  late := 65536

theorem Starts.ready (h : Starts i s) : Ready S i s := by
  obtain ⟨hblocks, hgone⟩ := h.queue
  have hwindow := UInt32.le_iff_toNat_le.1 h.window
  have hmax : (QMAX <<< maxqscale.toUInt32).toNat = 1048560 := by decide
  have hall : s.rq.all = [] := by rw [Queue.all, hblocks, hgone]; rfl
  have hstart := Lib.Serial.at_zero i
  have hrcv : Receiving S i (.start s.tcb.window.toNat) s :=
    { calm := h.calm
      cur := h.cur
      synchronized := by rw [h.state]; rfl
      gotFin := fun _ => by rw [h.state]; rfl
      reader := fun _ => rfl
      window_le := by dsimp only [Ledger.start]; omega
      window := rfl
      limit := h.limit
      dlen := by rw [Queue.dlen_eq, hblocks]; exact Nat.succ_pos _
      len := by rw [Queue.len, hblocks]; exact le_rfl
      stream := by rw [hall]; exact nil_prefix
      whole := fun hfin => by cases hfin
      place := by rw [hall]; rfl
      nxt := by rw [h.nxt]; exact hstart
      slack := ⟨le_rfl, by dsimp only [Ledger.start]; omega⟩
      edge := by
        have hedge := UInt32.le_iff_toNat_le.1 h.edge
        have hsub := Lib.Serial.toNat_sub s.tcb.rcv.wptr i
        refine ⟨(s.tcb.rcv.wptr - i).toNat, ?_, by dsimp only [Ledger.start]; omega,
          by dsimp only [Ledger.start]; omega⟩
        have hlt := Lib.Serial.toNat_lt s.tcb.rcv.wptr
        rw [At, hsub]
        omega
      waits := fun r hr => by rw [h.reseq] at hr; cases hr
      sorted := by rw [h.reseq]; exact .nil
      nreseq := by rw [h.nreseq, h.reseq]; rfl
      reseqlen := by rw [h.reseqlen, h.reseq]; rfl
      le_window := by rw [h.reseqlen]; exact Int.natCast_nonneg _ }
  exact hrcv.ready rfl rfl

/-- **What the receiver promises**: the reader gets the stream as far as `rcv.nxt` has come, and a
FIN counts once, at its end. -/
structure Delivered (S : List UInt8) (i : UInt32) (s : Conv) : Prop where
  stream : ∃ n : ℕ, s.tcb.rcv.nxt = i + UInt32.ofNat n ∧ s.rq.all = S.take n ∧
    n ≤ S.length + 1 ∧ (s.tcb.state ≠ .closed → (n = S.length + 1 ↔ s.tcb.state.gotFin = true))
  sorted : s.tcb.reseq.Pairwise fun r r' => seqLe r.seg.seq r'.seg.seq = true
  nreseq : s.tcb.nreseq = s.tcb.reseq.length
  reseqlen : s.tcb.reseqlen = (s.tcb.reseq.map fun r => r.length.toNat).sum
  le_window : s.tcb.reseqlen ≤ s.tcb.window.toNat
  /-- `tcptrim` has not panicked. -/
  calm : s.panicked = false

theorem Ready.delivered (h : Ready S i s) : Delivered S i s := by
  obtain ⟨g, -, hrcv, -⟩ := h
  have hplace := hrcv.place
  have hlen := hrcv.stream.length_le
  refine ⟨⟨s.rq.all.length + g.fin.toNat, ?_, ?_, ?_, fun hopen => ?_⟩, hrcv.sorted, hrcv.nreseq,
    hrcv.reseqlen, ?_, hrcv.calm⟩
  · have hnxt := hrcv.nxt
    have hadd := Lib.Serial.toNat_add i (UInt32.ofNat (s.rq.all.length + g.fin.toNat))
    rw [UInt32.toNat_ofNat'] at hadd
    rw [At, hplace] at hnxt
    refine UInt32.toNat_inj.1 ?_
    omega
  · cases hfin : g.fin with
    | false => exact prefix_iff_eq_take.1 hrcv.stream
    | true =>
      rw [hrcv.whole hfin, take_of_length_le (Nat.le_add_right ..)]
  · have hbit := Bool.toNat_le g.fin
    omega
  · rw [hrcv.gotFin hopen]
    cases hfin : g.fin with
    | false =>
      rw [Bool.toNat_false]
      exact iff_of_false (by omega) Bool.false_ne_true
    | true =>
      rw [hrcv.whole hfin]
      exact iff_of_true rfl rfl
  · rw [hrcv.window]
    exact hrcv.le_window

/-- **The stream is delivered exactly**: in a run in which every packet is cut from the stream, and
the queue of the reader is below its limit whenever text is put in it. -/
theorem stream_delivered (S : List UInt8) {acts : List Conv.Act} (hs : Starts i s)
    (h : Run (Guarded (StepOk S i) Conv.Step) s acts t) : Delivered S i t := by
  have hready : Ready S i t :=
    h.guarded_inv (fun s a t hinv hok hstep => hinv.act hok hstep.2) hs.ready
  exact hready.delivered

/-! ### Runs that are computed -/

/-- The packet is cut from the stream, by its sequence number. -/
def cutAt (S : List UInt8) (i : UInt32) (s : Conv) (pk : Conv.Packet) : Bool :=
  match pk.trim with
  | none => true
  | some r =>
    let p := (r.seg.seq - i).toNat
    decide (bytes r.bp = (S.drop p).take r.length.toNat) &&
      (!r.seg.flags.fin || decide (p + r.length.toNat = S.length)) &&
      !r.seg.flags.syn && !r.seg.flags.rst && !r.seg.flags.urg &&
      decide (s.place < p + 2147483648) && decide ((p : ℤ) < s.place + 2147483648)

theorem arrives_of_cutAt (h : cutAt S i s pk = true) : Arrives S i s pk := by
  intro r hr
  rw [cutAt, hr] at h
  simp only [Bool.and_eq_true, decide_eq_true_eq, Bool.or_eq_true, Bool.not_eq_true'] at h
  obtain ⟨⟨⟨⟨⟨⟨hdata, hfin⟩, hsyn⟩, hrst⟩, hurg⟩, hlo⟩, hhi⟩ := h
  refine ⟨(r.seg.seq - i).toNat, ⟨?_, fun k hk hp => ?_, fun hflag => ?_, hsyn, hrst, hurg⟩, hlo,
    hhi⟩
  · have hsub := Lib.Serial.toNat_sub r.seg.seq i
    have hlt := Lib.Serial.toNat_lt r.seg.seq
    rw [At, hsub]
    omega
  · have hk' : k < ((S.drop (r.seg.seq - i).toNat).take r.length.toNat).length := by
      rw [← hdata]
      exact hk
    have hget := (getElem_of_eq hdata hk).trans (getElem_take (h := hk'))
    rw [getElem_drop] at hget
    rw [hget, show ((r.seg.seq - i).toNat + (k : ℤ)).toNat = (r.seg.seq - i).toNat + k by omega]
    exact List.getElem?_eq_getElem _
  · rcases hfin with hno | hend
    · rw [hflag] at hno
      cases hno
    · exact_mod_cast hend

/-- `Cut`, decided. -/
def cutOk (S : List UInt8) (i : UInt32) (s : Conv) : Conv.Act → Bool
  | .arrive pk _ _ => cutAt S i s pk
  | _ => true

/-- `cutOk` for a stream of `n` zeros, looked at byte by byte. -/
def zerosOk (n : ℕ) (i : UInt32) (s : Conv) : Conv.Act → Bool
  | .arrive pk _ _ =>
    match pk.trim with
    | none => true
    | some r =>
      let p := (r.seg.seq - i).toNat
      (bytes r.bp).all (· == 0) && decide (p + r.length.toNat ≤ n) &&
        (!r.seg.flags.fin || decide (p + r.length.toNat = n)) &&
        !r.seg.flags.syn && !r.seg.flags.rst && !r.seg.flags.urg &&
        decide (s.place < p + 2147483648) && decide ((p : ℤ) < s.place + 2147483648)
  | _ => true

theorem cutOk_of_zerosOk {n : ℕ} (h : zerosOk n i s a = true) :
    cutOk (replicate n 0) i s a = true := by
  cases a with
  | arrive pk mem hog =>
    rw [zerosOk] at h
    rw [cutOk, cutAt]
    cases htrim : pk.trim with
    | none => rfl
    | some r =>
      rw [htrim] at h
      simp only [Bool.and_eq_true, decide_eq_true_eq, length_replicate] at h ⊢
      obtain ⟨⟨⟨⟨⟨⟨⟨hzero, hle⟩, hfin⟩, hsyn⟩, hrst⟩, hurg⟩, hlo⟩, hhi⟩ := h
      refine ⟨⟨⟨⟨⟨⟨?_, hfin⟩, hsyn⟩, hrst⟩, hurg⟩, hlo⟩, hhi⟩
      rw [drop_replicate, take_replicate, eq_replicate_iff, trim_length htrim]
      refine ⟨by omega, fun b hb => ?_⟩
      exact eq_of_beq (all_eq_true.1 hzero b hb)
  | _ => rfl

/-- `Roomy`, decided. -/
def roomyOk (s : Conv) : Conv.Act → Bool
  | .turn =>
    match s.cur with
    | none => true
    | some r => decide (r.length = 0) || !s.tcb.state.reads || decide (s.rq.len < s.rq.limit)
  | _ => true

theorem cut_of_cutOk (h : cutOk S i s a = true) : Cut S i s a := by
  cases a with
  | arrive pk mem hog => exact arrives_of_cutAt h
  | _ => exact trivial

theorem roomy_of_roomyOk (h : roomyOk s a = true) : Roomy s a := by
  cases a with
  | turn =>
    intro r hr hlen hreads
    rw [roomyOk, hr] at h
    simp only [Bool.or_eq_true, decide_eq_true_eq, Bool.not_eq_true', hreads] at h
    rcases h with (hzero | hno) | hroom
    · exact absurd hzero hlen
    · cases hno
    · exact hroom
  | _ => exact trivial

/-- The steps of a run, one after the other, each checked before it is taken. -/
def runAll (ok : Conv → Conv.Act → Bool) (s : Conv) (acts : List Conv.Act) : Option Conv :=
  acts.foldlM (fun s a => if ok s a && !s.panicked then s.act a else none) s

theorem run_of_runAll {ok : Conv → Conv.Act → Bool} {good : Conv → Conv.Act → Prop}
    (hok : ∀ s a, ok s a = true → good s a) {acts : List Conv.Act}
    (h : runAll ok s acts = some t) : Run (Guarded good Conv.Step) s acts t := by
  refine .of_foldlM (fun s a _ t hstep => ?_) h
  split at hstep
  · rename_i hcheck
    rw [Bool.and_eq_true, Bool.not_eq_true'] at hcheck
    exact ⟨hok s a hcheck.1, hcheck.2, hstep⟩
  · cases hstep

/-- A call that has been answered. -/
def call : Conv.Limbo := { irs := 6, iss := 1000, mss := 1460, rcvscale := 0 }

/-- The conversation made of it. -/
def answered : Conv :=
  Conv.tcpincoming call { seq := 7, ack := 1001, flags := { ack := true }, wnd := 8192 } 1460
    fun _ => true

theorem starts_answered : Starts 7 answered :=
  starts_tcpincoming call _ 1460 _

/-- A packet with the bytes of a segment behind 40 bytes of headers, in a buffer of `alloc`
bytes. -/
def packet (seq : UInt32) (data : List UInt8) (alloc : ℕ) (fin : Bool)
    (h : (List.replicate 40 0 ++ data).length ≤ alloc) : Conv.Packet where
  version := .v4
  plen := UInt16.ofNat (40 + data.length)
  hdrlen := 20
  seg := { seq, ack := 1001, flags := { ack := true, fin }, wnd := 8192 }
  bp := [⟨List.replicate 40 0 ++ data, alloc, h⟩]

/-- The second half of a stream before the first, the whole once more, and a reader. -/
def halves : List Conv.Act :=
  [.arrive (packet 9 [3, 4] 128 true (by decide)) true false,
    .arrive (packet 7 [1, 2] 128 false (by decide)) true false, .turn, .turn, .read 3,
    .arrive (packet 7 [1, 2, 3, 4] 128 true (by decide)) true false]

/-- A stream that is put together again, and acknowledged with its FIN. -/
theorem stream_delivered_halves : ∃ t, Run (Guarded (StepOk [1, 2, 3, 4] 7) Conv.Step) answered
    halves t ∧ t.rq.all = [1, 2, 3, 4] ∧ t.tcb.rcv.nxt = 12 ∧ Delivered [1, 2, 3, 4] 7 t := by
  have hrun : (runAll (fun s a => cutOk [1, 2, 3, 4] 7 s a && roomyOk s a) answered halves).map
      (fun t => (t.rq.all, t.tcb.rcv.nxt)) = some ([1, 2, 3, 4], 12) := by decide +kernel
  obtain ⟨t, ht, hends⟩ := Option.map_eq_some_iff.1 hrun
  obtain ⟨hall, hnxt⟩ := Prod.mk.inj hends
  have hgood : Run (Guarded (StepOk [1, 2, 3, 4] 7) Conv.Step) answered halves t := by
    refine run_of_runAll (fun s a h => ?_) ht
    rw [Bool.and_eq_true] at h
    exact ⟨cut_of_cutOk h.1, roomy_of_roomyOk h.2⟩
  exact ⟨t, hgood, hall, hnxt, stream_delivered [1, 2, 3, 4] starts_answered hgood⟩

/-- A segment of 6556 bytes that was put together from fragments: each is in a buffer of its own. -/
def fragmented : Conv.Packet where
  version := .v4
  plen := 6596
  hdrlen := 20
  seg := { seq := 7, ack := 1001, flags := { ack := true }, wnd := 8192 }
  bp := ⟨List.replicate 44 0, 128, by decide⟩ ::
    List.replicate 819 ⟨List.replicate 8 0, 128, by decide⟩

/-- The segment of fragments, and a segment of one byte. -/
def flood : List Conv.Act :=
  [.arrive fragmented true false, .turn,
    .arrive (packet 6563 [0] 128 false (by decide)) true false, .turn]

set_option maxRecDepth 100000 in
/-- **A byte is lost**: the queue of the reader holds a tenth of the window, but its buffers are at
the limit; the byte is acknowledged and thrown away. -/
theorem acknowledged_and_lost : Starts 7 answered ∧
    ∃ t, Run (Guarded (Cut (List.replicate 6557 0) 7) Conv.Step) answered flood t ∧
      ¬Delivered (List.replicate 6557 0) 7 t := by
  have hrun : (runAll (zerosOk 6557 7) answered flood).map
      (fun t => (t.rq.all.length, t.tcb.rcv.nxt)) = some (6556, 6564) := by decide +kernel
  obtain ⟨t, ht, hends⟩ := Option.map_eq_some_iff.1 hrun
  obtain ⟨hall, hnxt⟩ := Prod.mk.inj hends
  have hcut (s : Conv) (a : Conv.Act) (ha : zerosOk 6557 7 s a = true) :=
    cut_of_cutOk (cutOk_of_zerosOk ha)
  refine ⟨starts_answered, t, run_of_runAll hcut ht, fun hgood => ?_⟩
  obtain ⟨n, hn, htake, hle, -⟩ := hgood.stream
  rw [List.length_replicate] at hle
  have hlen := congrArg List.length htake
  rw [hall, List.length_take, List.length_replicate] at hlen
  -- `rcv.nxt` is one further than what the reader was given
  have hadd := Lib.Serial.toNat_add 7 (UInt32.ofNat n)
  rw [← hn, hnxt, UInt32.toNat_ofNat'] at hadd
  have h6564 : (6564 : UInt32).toNat = 6564 := rfl
  have h7 : (7 : UInt32).toNat = 7 := rfl
  omega

end Ip

end Plan9
