import Plan9.Kernel.QioSystem
import Mathlib.Data.List.Nodup

/-!
# A queue is a reliable stream

What goes through a queue that nobody flushes: without `Qmsg` the bytes come out in the
order in which they went in, and none is lost; with it a read is from one message.
Either way a write that returns a number has queued that many bytes.

There are two exceptions (`Plan9.Kernel.System.Meets`). `qwrite` stops after the first
64K of a message, but returns its length (`Plan9.Kernel.System.longMessage`). And
`qread` puts the rest of a block back in front of what is on the queue by then, which
is wrong if a routine that does not ask for `rlock` – `qget`, `qdiscard` or
`qconsume` – has taken something in the meantime
(`Plan9.Kernel.System.overtake`).

* `Plan9.Kernel.System.Flow` – the invariant for what goes through,
  `Plan9.Kernel.System.Calls` – the invariant for the calls that are under way;
* `Plan9.Kernel.System.reliable` – what holds after every run without an exception.
-/

namespace Plan9

namespace Kernel

open Lib (Run Guarded)
open List Function
open Lib.Channel

/-- What the users of a stream do. -/
def Act.Transfers : Act → Prop
  | .qpass .. | .qpassnolim .. | .qputback _ | .qaddlist .. | .qremove | .qclose | .qflush
  | .qnoblock _ => False
  | _ => True

/-- What `qread` will put back. -/
def Reader.rest : Reader → List Block
  | copying _ len first => (bl2mem first len).2
  | _ => []

namespace System

/-- The runs of a stream or message queue are those of this relation. -/
def Transfer (s : System) (a : Act) (t : System) : Prop := a.Transfers ∧ s.Step a t

/-- **The exceptions**: a message longer than a block, and a stream from which a routine takes
something while `qread` has the beginning of it in hand. -/
def Meets (s : System) : Act → Prop
  | .qwrite _ data => s.q.msg = true → data.length ≤ Maxatomic
  | .qget _ | .qdiscard .. | .qconsume .. =>
    s.q.msg = false → bytes s.reader.rest = [] ∨ bytes s.q.bfirst = []
  | _ => True

variable {s t : System} {q q' : Queue} {msg : Bool} {new : List ℕ} {bs data : List UInt8}
  {p p' len : ℕ} {w : Writer} {b : Block} {es h : List (Event UInt8)}

/-! ### What goes through -/

/-- **The invariant for what goes through**: a stream is in order, and every block of a message
queue is the end of a message. -/
structure Flow (msg : Bool) (q : Queue) (r : Reader) (h : List (Event UInt8)) : Prop where
  sound : Sound q r.blocks
  mode_eq : q.mode = (msg, false, false, false)
  single : r.blocks.length ≤ 1
  fifo : msg = false → Fifo (bytes r.rest ++ bytes q.bfirst) h
  parts : msg = true → ∀ b ∈ q.bfirst, ∃ m ∈ messages h, b.data <:+ m
  fromOne : msg = true → Always FromOne h

namespace Flow

variable {r : Reader}

section

variable (H : Flow msg q r h)

include H

theorem msg_eq : q.msg = msg := congrArg Prod.fst H.mode_eq

theorem coalesce_eq : q.coalesce = false := congrArg (fun m => m.2.1) H.mode_eq

theorem noblock_eq : q.noblock = false := congrArg (fun m => m.2.2.1) H.mode_eq

theorem bypass_eq : q.bypass = false := congrArg (fun m => m.2.2.2) H.mode_eq

/-- Flags and limits do not matter. -/
theorem of_eq (hq : q'.bfirst = q.bfirst) (hlen : q'.len = q.len)
    (hdlen : q'.dlen = q.dlen) (hblast : q'.blast = q.blast) (hmode : q'.mode = q.mode) :
    Flow msg q' r h :=
  ⟨H.sound.of_eq hq hlen hdlen hblast, hmode.trans H.mode_eq, H.single, hq ▸ H.fifo, hq ▸ H.parts,
    H.fromOne⟩

theorem called : Flow msg q r (.called p data :: h) :=
  { H with fromOne := fun hmsg => ⟨trivial, H.fromOne hmsg⟩ }

theorem returned {n : ℕ} : Flow msg q r (.returned p n :: h) :=
  { H with fromOne := fun hmsg => ⟨trivial, H.fromOne hmsg⟩ }

/-- A block is queued. -/
theorem put (hp : q.Puts q' [b])
    (hb : b.addr ∉ addrs q.bfirst ++ addrs r.blocks) : Flow msg q' r (.put p b.data :: h) := by
  have hbfirst := hp.bfirst_eq H.sound.accounted (nodup_append.1 H.sound.nodup).1
  refine ⟨H.sound.puts hp ⟨nodup_singleton _, ?_⟩, hp.mode_eq.trans H.mode_eq, H.single, ?_, ?_,
    fun hmsg => ⟨trivial, H.fromOne hmsg⟩⟩
  · intro a ha
    rw [mem_singleton.1 ha]
    exact hb
  · intro hmsg
    rw [hbfirst, bytes_append, ← append_assoc, bytes_cons, bytes_nil, append_nil]
    exact (H.fifo hmsg).put
  · intro hmsg c hc
    rw [hbfirst, mem_append, mem_singleton] at hc
    rcases hc with hc | rfl
    · obtain ⟨m, hm, hcm⟩ := H.parts hmsg c hc
      exact ⟨m, mem_append_left _ hm, hcm⟩
    · exact ⟨c.data, mem_append_right _ mem_cons_self, suffix_rfl⟩

theorem put_nil (hp : q.Puts q' []) : Flow msg q' r h := by
  have hbfirst := hp.bfirst_eq H.sound.accounted (nodup_append.1 H.sound.nodup).1
  rw [append_nil] at hbfirst
  exact ⟨H.sound.puts_nil hp, hp.mode_eq.trans H.mode_eq, H.single, hbfirst ▸ H.fifo,
    hbfirst ▸ H.parts, H.fromOne⟩

/-- Something is taken, but nothing that `qread` has in hand. -/
theorem take (hy : q.Yields new q' bs)
    (hnew : new.Nodup ∧ ∀ a ∈ new, a ∉ addrs q.bfirst ++ addrs r.blocks)
    (hrest : msg = false → bytes r.rest = [] ∨ bytes q.bfirst = []) :
    Flow msg q' r (.dropped p bs :: h) := by
  refine ⟨H.sound.yields hy hnew, hy.mode_eq.trans H.mode_eq, H.single, ?_, ?_,
    fun hmsg => ⟨trivial, H.fromOne hmsg⟩⟩
  · intro hmsg
    have hfifo := H.fifo hmsg
    have hbytes := hy.bytes_eq (H.msg_eq.trans hmsg)
    refine Fifo.dropped ?_
    rcases hrest hmsg with hnil | hnil
    · rw [hnil, nil_append] at hfifo ⊢
      rwa [← hbytes]
    · rw [hnil] at hbytes hfifo
      obtain ⟨hbs, hq'⟩ := append_eq_nil_iff.1 hbytes.symm
      rwa [hbs, hq']
  · intro hmsg c hc
    obtain ⟨d, hd, hcd⟩ := hy.parts c hc
    obtain ⟨m, hm, hdm⟩ := H.parts hmsg d hd
    exact ⟨m, hm, hcd.trans hdm⟩

end

/-- What is handed out is from one of the blocks. -/
theorem got (H : Flow msg q r (.dropped p bs :: h)) {q₀ : Queue} {r₀ : Reader}
    (H₀ : Flow msg q₀ r₀ h) (hone : ∃ c ∈ q₀.bfirst, bs <:+: c.data) :
    Flow msg q r (.got p bs :: h) := by
  refine ⟨H.sound, H.mode_eq, H.single, H.fifo, H.parts, fun hmsg => ⟨?_, H₀.fromOne hmsg⟩⟩
  obtain ⟨c, hc, hbc⟩ := hone
  obtain ⟨m, hm, hcm⟩ := H₀.parts hmsg c hc
  exact ⟨m, hm, hbc.trans hcm.isInfix⟩

/-- If nothing is taken, nothing is recorded. -/
theorem take_nil (H : Flow msg q r (.dropped p [] :: h)) : Flow msg q r h := by
  refine ⟨H.sound, H.mode_eq, H.single, fun hmsg => ?_, H.parts, fun hmsg => (H.fromOne hmsg).2⟩
  have hfifo := H.fifo hmsg
  rwa [Fifo, consumed_dropped, append_nil] at hfifo

end Flow

/-! ### The calls that are under way -/

/-- A writer that has asked for `req` and put in the pieces `wr`. -/
structure Progress (w : Writer) (req : List UInt8) (wr : List (List UInt8)) : Prop where
  req_eq : req = w.data
  le : w.sofar ≤ w.data.length
  flatten_eq : wr.flatten = w.data.take w.sofar

/-- Between two of its steps; a message is one piece. -/
structure Underway (msg : Bool) (w : Writer) (req : List UInt8) (wr : List (List UInt8)) : Prop
    extends Progress w req wr where
  calm : w.interrupt = true → w.blocked = false
  fresh : msg = true → w.blocked = false →
    w.sofar = 0 ∧ wr = [] ∧ (w.interrupt = false → w.data.length ≤ Maxatomic)
  queued : msg = true → w.blocked = true → w.sofar = w.data.length ∧ wr = [w.data]

/-- **The invariant for the calls.** -/
structure Calls (msg : Bool) (writer : ℕ → Option Writer) (h : List (Event UInt8)) : Prop where
  underway : ∀ p, ∀ w ∈ writer p, Underway msg w (request p h) (written p h)
  exact : Always Exact h
  whole : msg = true → Always Whole h

namespace Calls

variable {f : ℕ → Option Writer} {e : Event UInt8} {n : ℕ} {intr : Bool}

theorem set (H : Calls msg (update f p none) h)
    (hw : Underway msg w (request p h) (written p h)) :
    Calls msg (update f p (some w)) h := by
  refine ⟨fun p' w' hw' => ?_, H.exact, H.whole⟩
  by_cases hp : p' = p
  · subst hp
    rw [update_self] at hw'
    cases hw'
    exact hw
  · rw [update_of_ne hp] at hw'
    exact H.underway p' w' (by rwa [update_of_ne hp])

theorem unset (H : Calls msg f h) : Calls msg (update f p none) h := by
  refine ⟨fun p' w' hw' => ?_, H.exact, H.whole⟩
  by_cases hp : p' = p
  · subst hp
    rw [update_self] at hw'
    exact absurd hw' (Option.not_mem_none w')
  · rw [update_of_ne hp] at hw'
    exact H.underway p' w' hw'

/-- Something that has to do with `p` only. -/
theorem event (H : Calls msg f h)
    (he : ∀ p' ≠ p, request p' (e :: h) = request p' h ∧ written p' (e :: h) = written p' h)
    (hexact : Exact e h) (hwhole : msg = true → Whole e h) :
    Calls msg (update f p none) (e :: h) := by
  refine ⟨fun p' w' hw' => ?_, ⟨hexact, H.exact⟩, fun hmsg => ⟨hwhole hmsg, H.whole hmsg⟩⟩
  by_cases hp : p' = p
  · subst hp
    rw [update_self] at hw'
    exact absurd hw' (Option.not_mem_none w')
  · rw [update_of_ne hp] at hw'
    obtain ⟨hreq, hwr⟩ := he p' hp
    rw [hreq, hwr]
    exact H.underway p' w' hw'

theorem got (H : Calls msg f h) : Calls msg f (.got p bs :: h) :=
  ⟨H.underway, ⟨trivial, H.exact⟩, fun hmsg => ⟨trivial, H.whole hmsg⟩⟩

theorem dropped (H : Calls msg f h) : Calls msg f (.dropped p bs :: h) :=
  ⟨H.underway, ⟨trivial, H.exact⟩, fun hmsg => ⟨trivial, H.whole hmsg⟩⟩

/-- A call begins. -/
theorem called (H : Calls msg f h) : Calls msg (update f p none) (.called p data :: h) := by
  refine H.event (fun p' hp => ?_) trivial fun _ => trivial
  rw [request_called, written_called, if_neg (Ne.symm hp), if_neg (Ne.symm hp)]
  exact ⟨rfl, rfl⟩

theorem underway_called (hlen : msg = true → intr = false → data.length ≤ Maxatomic) :
    Underway msg ⟨data, 0, intr, false⟩ (request p (.called p data :: h))
      (written p (.called p data :: h)) := by
  rw [request_called, written_called, if_pos rfl, if_pos rfl]
  exact ⟨⟨rfl, Nat.zero_le _, rfl⟩, fun _ => rfl, fun hmsg _ => ⟨rfl, rfl, hlen hmsg⟩,
    fun _ hb => absurd hb Bool.false_ne_true⟩

/-- A piece is put in. -/
theorem put (H : Calls msg f h) : Calls msg (update f p none) (.put p bs :: h) := by
  refine H.event (fun p' hp => ?_) trivial fun _ => trivial
  rw [request_put, written_put, if_neg (Ne.symm hp)]
  exact ⟨rfl, rfl⟩

/-- The call returns. -/
theorem returned (H : Calls msg f h) (hw : Progress w (request p h) (written p h))
    (hone : msg = true → w.sofar = w.data.length → w.sofar ≠ 0 → written p h = [w.data]) :
    Calls msg (update f p none) (.returned p w.sofar :: h) := by
  obtain ⟨hreq, hle, hflat⟩ := hw
  refine H.event (fun p' _ => ⟨rfl, rfl⟩) ⟨?_, ?_⟩ fun hmsg => ?_
  · rwa [hreq]
  · rw [hreq, hflat]
  · intro hlen hne
    rw [hreq] at hlen ⊢
    exact hone hmsg hlen hne

end Calls

/-- A piece of what is still to be written. -/
theorem Progress.put (hw : Progress w (request p h) (written p h))
    (hbs : bs <+: w.data.drop w.sofar)
    (blocked : Bool) :
    Progress { w with sofar := w.sofar + bs.length, blocked } (request p (.put p bs :: h))
      (written p (.put p bs :: h)) := by
  obtain ⟨hreq, hle, hflat⟩ := hw
  have hlen : bs.length ≤ w.data.length - w.sofar := by
    rw [← length_drop]
    exact hbs.length_le
  rw [request_put, written_put, if_pos rfl]
  refine ⟨hreq, ?_, ?_⟩
  · dsimp only
    omega
  · rw [flatten_append, hflat, flatten_singleton, take_add]
    exact congrArg (w.data.take w.sofar ++ ·) (prefix_iff_eq_take.1 hbs)

/-- Nothing more is known of a writer to a stream. -/
theorem Progress.underway {req : List UInt8} {wr : List (List UInt8)} (hw : Progress w req wr)
    (hmsg : msg = false) (hcalm : w.interrupt = true → w.blocked = false) :
    Underway msg w req wr :=
  ⟨hw, hcalm, fun hm => absurd (hmsg.symm.trans hm) Bool.false_ne_true,
    fun hm => absurd (hmsg.symm.trans hm) Bool.false_ne_true⟩

/-- A block is queued: all of the message, if it is one. -/
theorem Progress.queue (hw : Progress w (request p h) (written p h)) (hintr : w.interrupt = false)
    (hbs : bs <+: w.data.drop w.sofar)
    (hmsg : msg = true → bs = w.data ∧ w.sofar = 0 ∧ written p h = []) :
    Underway msg { w with sofar := w.sofar + bs.length, blocked := true }
      (request p (.put p bs :: h)) (written p (.put p bs :: h)) := by
  refine ⟨hw.put hbs true, fun hi => absurd (hintr.symm.trans hi) Bool.false_ne_true,
    fun _ hb => Bool.noConfusion hb, fun hm _ => ?_⟩
  obtain ⟨hall, hsofar, hwr⟩ := hmsg hm
  rw [written_put, if_pos rfl, hwr, hall, hsofar]
  exact ⟨Nat.zero_add _, rfl⟩

/-! ### Runs -/

/-- Both invariants. -/
structure Streams (msg : Bool) (s : System) : Prop where
  flow : Flow msg s.q s.reader s.hist
  calls : Calls msg s.writer s.hist

/-- `qwrite` after one of its blocks. -/
theorem streams_advance (H : Streams msg s)
    (hw : Underway msg w (request p s.hist) (written p s.hist))
    (hblocked : w.blocked = true) : Streams msg (s.advance p w) := by
  have hmsg := H.flow.msg_eq
  rw [advance]
  split
  · rename_i hmore
    rw [Bool.and_eq_true, Bool.not_eq_true', hmsg] at hmore
    refine ⟨H.flow, H.calls.unset.set ?_⟩
    exact Progress.underway ⟨hw.req_eq, hw.le, hw.flatten_eq⟩ hmore.2 fun _ => rfl
  · rename_i hdone
    have hall : w.sofar = w.data.length := by
      cases hm : msg with
      | true => exact (hw.queued hm hblocked).1
      | false =>
        rw [hmsg, hm, Bool.not_false, Bool.and_true, decide_eq_true_iff] at hdone
        exact hw.le.antisymm (Nat.le_of_not_lt hdone)
    refine ⟨H.flow.returned, ?_⟩
    rw [← hall]
    exact H.calls.returned hw.toProgress fun hm _ _ => (hw.queued hm hblocked).2

theorem qbwrite_ne_dropped (h : q.noblock = false) : (q.qbwrite b).2 ≠ .dropped := by
  rw [Queue.qbwrite, h, Bool.and_false, if_neg Bool.false_ne_true]
  split <;> exact fun heq => Wrote.noConfusion heq

/-- `qbwrite` up to where it waits for room. -/
theorem streams_submit (H : Streams msg s) (hw : Progress w (request p s.hist) (written p s.hist))
    (hintr : w.interrupt = false) (hb : b.data <+: w.data.drop w.sofar)
    (hmsg : msg = true → b.data = w.data ∧ w.sofar = 0 ∧ written p s.hist = [])
    (hfresh : s.Fresh [b.addr]) : Streams msg (s.submit p w b) := by
  have hput := Queue.Puts.qbwrite (q := s.q) (b := b)
  have hne := qbwrite_ne_dropped (b := b) H.flow.noblock_eq
  unfold submit
  rw [H.flow.bypass_eq]
  dsimp only
  rw [if_neg Bool.false_ne_true]
  split
  · rename_i q heq
    rw [heq] at hput
    exact ⟨H.flow.put_nil hput, H.calls.unset⟩
  · rename_i q heq
    rw [heq] at hne
    exact absurd rfl hne
  · rename_i q heq
    rw [heq] at hput
    exact ⟨H.flow.put hput (hfresh.2 _ mem_cons_self), H.calls.put.set (hw.queue hintr hb hmsg)⟩

theorem next_isPrefix (w : Writer) : w.next <+: w.data.drop w.sofar := take_prefix ..

/-- One round of `qiwrite`. -/
theorem streams_isubmit {o : Option ℕ} (H : Streams msg s) (hw : w ∈ s.writer p)
    (hintr : w.interrupt = true) (hfresh : s.Fresh o.toList) : Streams msg (s.isubmit p w o) := by
  have hput := Queue.Puts.qiwrite (q := s.q) (o := o.map fun a => .filled a w.next)
  have hway := H.calls.underway p w hw
  unfold isubmit
  split
  · rename_i q heq
    rw [heq] at hput
    refine ⟨(H.flow.put_nil hput).returned, H.calls.returned hway.toProgress fun hm hall hne => ?_⟩
    exact absurd (hway.fresh hm (hway.calm hintr)).1 hne
  · rename_i q heq
    obtain ⟨a, rfl⟩ : ∃ a, o = some a := by
      cases o with
      | none => cases heq
      | some a => exact ⟨a, rfl⟩
    rw [heq] at hput
    have hflow : Flow msg q s.reader (.put p w.next :: s.hist) :=
      H.flow.put (b := .filled a w.next) hput (hfresh.2 _ mem_cons_self)
    have hprog := hway.toProgress.put (next_isPrefix w) w.blocked
    dsimp only
    split
    · rename_i hmore
      rw [Bool.and_eq_true, Bool.not_eq_true', hflow.msg_eq] at hmore
      exact ⟨hflow, H.calls.put.set (hprog.underway hmore.2 hway.calm)⟩
    · refine ⟨hflow.returned, ?_⟩
      have hput : Calls msg (update s.writer p none) (.put p w.next :: s.hist) := H.calls.put
      have hcalls := hput.returned hprog fun hm hall _ => ?_
      · rwa [update_idem] at hcalls
      · obtain ⟨hsofar, hwr, -⟩ := hway.fresh hm (hway.calm hintr)
        rw [hsofar, Nat.zero_add] at hall
        have hnext := next_isPrefix w
        rw [hsofar, drop_zero] at hnext
        rw [written_put, if_pos rfl, hwr, hnext.eq_of_length hall]
        rfl

theorem streams_produce {o : Option ℕ} (H : Streams msg s) (hfree : s.writer p = none)
    (hfresh : s.Fresh o.toList) : Streams msg (s.produce p data o) := by
  have hsame : update s.writer p none = s.writer := by
    rw [← hfree, update_eq_self]
  have hput := Queue.Puts.qproduce (q := s.q) (o := o.map fun a => .filled a data)
  have hcalls : Calls msg (update s.writer p none) (.called p data :: s.hist) := H.calls.called
  have hway : Underway msg ⟨data, 0, true, false⟩ (request p (.called p data :: s.hist))
      (written p (.called p data :: s.hist)) :=
    Calls.underway_called fun _ hi => absurd hi Bool.noConfusion
  have hstart := hway.toProgress
  rw [hsame] at hcalls
  rw [produce]
  cases hr : (s.q.qproduce (o.map fun a => .filled a data)).2 with
  | none =>
    rw [hr, if_pos rfl] at hput
    exact ⟨(H.flow.put_nil hput).called, hcalls⟩
  | some n =>
    have hn := Queue.qproduce_eq_some hr
    rw [hr, if_neg (Option.some_ne_none n)] at hput
    cases o with
    | none =>
      obtain rfl : n = 0 := hn
      refine ⟨(H.flow.put_nil hput).called.returned, ?_⟩
      have hret := hcalls.returned hstart fun _ _ hne => absurd rfl hne
      rwa [hsame] at hret
    | some a =>
      obtain rfl : n = data.length := hn
      refine ⟨?_, ?_⟩
      · exact (H.flow.called.put (b := .filled a data) hput
          (hfresh.2 _ mem_cons_self)).returned
      · have hend := hstart.put (prefix_rfl (l := data)) false
        have hputs : Calls msg (update s.writer p none)
            (.put p data :: .called p data :: s.hist) := hcalls.put
        rw [hsame] at hputs
        have hret := hputs.returned hend fun _ _ _ => ?_
        · rw [hsame] at hret
          change Calls msg s.writer (.returned p (0 + data.length) :: _) at hret
          rwa [Nat.zero_add] at hret
        · rw [written_put, if_pos rfl, written_called, if_pos rfl]
          rfl

/-- The process with `rlock` in `qread`. -/
theorem streams_readLook (H : Streams msg s) (hr : s.reader = .waiting p len false) :
    Streams msg (s.readLook p len) := by
  obtain ⟨hflow, hcalls⟩ := H
  rw [hr] at hflow
  obtain ⟨q₀, hy, ht, hone⟩ := s.q.qreadTake_takes len
  obtain ⟨hq₀, hle⟩ := hone hflow.coalesce_eq
  have hdata := Queue.qreadTake_data (q := s.q) (n := len)
  unfold readLook
  dsimp only
  by_cases hfound : (s.q.qreadTake len).2.1 = .data
  · rw [hfound]
    dsimp only
    obtain ⟨c, hc⟩ : ∃ c, (s.q.qreadTake len).2.2 = [c] := by
      refine length_eq_one_iff.1 (hle.antisymm ?_)
      exact length_pos_iff.2 (hdata.1 hfound)
    have hbfirst := ht.bfirst_eq
    rw [hq₀, hc] at hbfirst
    have hsplit := bytes_bl2mem (l := [c]) (n := len)
    rw [bytes_cons, bytes_nil, append_nil] at hsplit
    rw [hc] at ht hle ⊢
    refine ⟨⟨(hflow.sound.yields_nil hy).takes ht, ?_, hle, fun hmsg => ?_, fun hmsg b hb => ?_,
      fun hmsg => ⟨?_, hflow.fromOne hmsg⟩⟩, hcalls.got⟩
    · exact ht.mode_eq.trans (hy.mode_eq.trans hflow.mode_eq)
    · have hfifo : Fifo (bytes s.q.bfirst) s.hist := hflow.fifo hmsg
      rw [hbfirst, bytes_append, bytes_cons, bytes_nil, append_nil, ← hsplit, append_assoc] at hfifo
      exact hfifo.got
    · exact hflow.parts hmsg b (hbfirst ▸ mem_append_right _ hb)
    · obtain ⟨m, hm, hcm⟩ := hflow.parts hmsg c (hbfirst ▸ mem_cons_self)
      have hpart : (bl2mem [c] len).1 <+: c.data := ⟨_, hsplit⟩
      exact ⟨m, hm, hpart.isInfix.trans hcm.isInfix⟩
  · have hnil : (s.q.qreadTake len).2.2 = [] := by
      by_contra hne
      exact hfound (hdata.2 hne)
    rw [hnil] at ht
    have hnext : Flow msg (s.q.qreadTake len).1 (.waiting p len false) s.hist := by
      refine (hflow.take (p := p) (hy.trans ht.yields) ⟨nodup_nil, ?_⟩ fun _ => .inl rfl).take_nil
      exact fun a ha => absurd ha not_mem_nil
    split
    · rename_i hw
      exact absurd hw hfound
    · exact ⟨hr ▸ hnext, hcalls⟩
    · exact ⟨⟨hnext.sound, hnext.mode_eq, Nat.zero_le 1, hnext.fifo, hnext.parts, hnext.fromOne⟩,
        hcalls⟩

/-- A routine takes from the queue, or finds nothing. -/
theorem streams_take {β : Type*} {o : Option β} {f : β → List UInt8} (H : Streams msg s)
    (hy : s.q.Yields [] q' (o.elim [] f))
    (hrest : msg = false → bytes s.reader.rest = [] ∨ bytes s.q.bfirst = [])
    (hone : ∀ x ∈ o, ∃ c ∈ s.q.bfirst, f x <:+: c.data) :
    Streams msg (s.log q' (o.toList.map fun x => .got p (f x))) := by
  have hnext := H.flow.take (p := p) hy ⟨nodup_nil, fun a ha => absurd ha not_mem_nil⟩ hrest
  cases o with
  | none => exact ⟨hnext.take_nil, H.calls⟩
  | some x => exact ⟨hnext.got H.flow (hone x rfl), H.calls.got⟩

theorem streams_breadLook {a : ℕ} (H : Streams msg s) (hr : s.reader = .waiting p len true)
    (ha : s.Fresh [a]) : Streams msg (s.breadLook p len a) := by
  obtain ⟨hflow, hcalls⟩ := H
  have hidle : ∀ {q h}, Flow msg q s.reader h → Flow msg q .idle h := fun H => by
    rw [hr] at H
    exact ⟨H.sound, H.mode_eq, Nat.zero_le 1, H.fifo, H.parts, H.fromOne⟩
  have hrest : msg = false → bytes s.reader.rest = [] ∨ bytes s.q.bfirst = [] := fun _ => by
    rw [hr]
    exact .inl rfl
  have hwait : s.q.Yields [] s.q.qwait.1 [] := .qwait
  unfold breadLook
  dsimp only
  split
  · have hy := hwait.trans (Queue.Yields.qbreadTake (n := len) (a := a))
    have hnext := hflow.take (p := p) hy ha hrest
    have hbfirst : s.q.qwait.1.bfirst = s.q.bfirst := by
      rw [Queue.qwait]
      dsimp only
      split_ifs <;> rfl
    cases hb : (s.q.qwait.1.qbreadTake len a).2 with
    | none =>
      rw [hb] at hnext
      exact ⟨hidle hnext.take_nil, hcalls⟩
    | some b =>
      rw [hb] at hnext
      refine ⟨hidle (hnext.got hflow ?_), hcalls.got⟩
      rw [← hbfirst]
      exact Queue.qbreadTake_mem hb
  · have hnext := (hflow.take (p := p) hwait ⟨nodup_nil, fun a ha => absurd ha
      not_mem_nil⟩ hrest).take_nil
    exact ⟨hnext, hcalls⟩
  · have hnext := (hflow.take (p := p) hwait ⟨nodup_nil, fun a ha => absurd ha
      not_mem_nil⟩ hrest).take_nil
    exact ⟨hidle hnext, hcalls⟩

/-- What is left over goes back. -/
theorem Flow.copied {first : List Block} (H : Flow msg q (.copying p len first) h) :
    Flow msg (q.qreadFinish (bl2mem first len).2) .idle h := by
  have hbfirst := q.bfirst_qreadFinish (bl2mem first len).2
  refine ⟨H.sound.finish, (Queue.mode_qreadFinish _).trans H.mode_eq, Nat.zero_le 1, fun hmsg => ?_,
    fun hmsg => ?_, H.fromOne⟩
  · have hle : (bl2mem first len).2.length ≤ 1 := length_bl2mem_le.trans H.single
    rw [hbfirst, Queue.leftover, H.msg_eq, hmsg, if_neg Bool.false_ne_true,
      take_of_length_le hle, bytes_append]
    exact H.fifo hmsg
  · rw [hbfirst, Queue.leftover, H.msg_eq, hmsg, if_pos rfl]
    exact H.parts hmsg

/-- **What every step without an exception preserves.** -/
theorem Streams.step {a : Act} (H : Streams msg s) (hm : s.Meets a) (ha : a.Transfers)
    (hs : s.step a = some t) : Streams msg t := by
  have hmsg := H.flow.msg_eq
  have hnil : ([] : List ℕ).Nodup ∧ ∀ a ∈ [], a ∉ addrs s.q.bfirst ++ addrs s.reader.blocks :=
    ⟨nodup_nil, fun a ha => absurd ha not_mem_nil⟩
  cases a with
  | qget p =>
    cases hs
    exact streams_take H .qget (hmsg ▸ hm) fun b hb => Queue.qget_mem hb
  | qdiscard p len =>
    cases hs
    exact ⟨H.flow.take .qdiscard hnil (hmsg ▸ hm), H.calls.dropped⟩
  | qconsume p len =>
    cases hs
    refine streams_take H (.replace .qconsume fun _ => ?_) (hmsg ▸ hm)
      fun bs hbs => Queue.qconsume_mem hbs
    cases (s.q.qconsume len).2 <;> rfl
  | qproduce p data o =>
    obtain ⟨⟨hfree, hfresh⟩, hs⟩ := Option.ite_none_right_eq_some.1 hs
    cases hs
    exact streams_produce H (Option.isNone_iff_eq_none.1 hfree) hfresh
  | qread p len | qbread p len =>
    simp only [System.step] at hs
    split at hs
    · rename_i hr
      cases hs
      have hflow := H.flow
      rw [hr] at hflow
      exact ⟨⟨hflow.sound, hflow.mode_eq, hflow.single, hflow.fifo, hflow.parts, hflow.fromOne⟩,
        H.calls⟩
    · cases hs
  | look a =>
    simp only [System.step] at hs
    split at hs
    · rename_i hr
      cases hs
      exact streams_readLook H hr
    · rename_i hr
      obtain ⟨hfresh, hs⟩ := Option.ite_none_right_eq_some.1 hs
      cases hs
      exact streams_breadLook H hr hfresh
    · cases hs
  | copied =>
    simp only [System.step] at hs
    split at hs
    · rename_i hr
      cases hs
      have hflow := H.flow
      rw [hr] at hflow
      exact ⟨hflow.copied, H.calls⟩
    · cases hs
  | rintr =>
    simp only [System.step] at hs
    split at hs
    · rename_i hr
      cases hs
      have hflow := H.flow
      rw [hr] at hflow
      exact ⟨⟨hflow.sound, hflow.mode_eq, hflow.single, hflow.fifo, hflow.parts, hflow.fromOne⟩,
        H.calls⟩
    · cases hs
  | qbwrite p b =>
    obtain ⟨⟨hfree, -, hfresh⟩, hs⟩ := Option.ite_none_right_eq_some.1 hs
    cases hs
    have hcalls : Calls msg (update s.writer p none) (.called p b.data :: s.hist) := H.calls.called
    rw [← Option.isNone_iff_eq_none.1 hfree, update_eq_self] at hcalls
    have hreq : request p (.called p b.data :: s.hist) = b.data := if_pos rfl
    have hwr : written p (.called p b.data :: s.hist) = [] := if_pos rfl
    exact streams_submit (s := s.log s.q [.called p b.data]) ⟨H.flow.called, hcalls⟩
      ⟨hreq, Nat.zero_le _, congrArg flatten hwr⟩ rfl prefix_rfl
      (fun _ => ⟨rfl, rfl, hwr⟩) hfresh
  | qwrite p data =>
    obtain ⟨hfree, hs⟩ := Option.ite_none_right_eq_some.1 hs
    cases hs
    exact ⟨H.flow.called,
      H.calls.called.set (Calls.underway_called fun hmsg' _ => hm (hmsg.trans hmsg'))⟩
  | chunk p a =>
    simp only [System.step] at hs
    split at hs
    · rename_i w hw
      obtain ⟨⟨hintr, hblocked, -, hfresh⟩, hs⟩ := Option.ite_none_right_eq_some.1 hs
      cases hs
      have hway := H.calls.underway p w hw
      refine streams_submit H hway.toProgress hintr (next_isPrefix w) (fun hmsg => ?_) hfresh
      obtain ⟨hsofar, hwr, hlen⟩ := hway.fresh hmsg hblocked
      refine ⟨?_, hsofar, hwr⟩
      rw [Block.data_filled, Writer.next, hsofar, drop_zero, take_of_length_le (hlen hintr)]
    · cases hs
  | room p =>
    simp only [System.step] at hs
    split at hs
    · rename_i w hw
      obtain ⟨⟨hblocked, -⟩, hs⟩ := Option.ite_none_right_eq_some.1 hs
      split at hs
      · cases hs
        exact streams_advance (s := { s with wlock := none }) ⟨H.flow, H.calls⟩
          (H.calls.underway p w hw) hblocked
      · cases hs
        exact ⟨H.flow.of_eq rfl rfl rfl rfl rfl, H.calls⟩
    · cases hs
  | wintr p =>
    simp only [System.step] at hs
    split at hs
    · obtain ⟨-, hs⟩ := Option.ite_none_right_eq_some.1 hs
      cases hs
      exact ⟨H.flow, H.calls.unset⟩
    · cases hs
  | qiwrite p data =>
    obtain ⟨-, hs⟩ := Option.ite_none_right_eq_some.1 hs
    cases hs
    exact ⟨H.flow.called,
      H.calls.called.set (Calls.underway_called fun _ hi => absurd hi Bool.noConfusion)⟩
  | ichunk p o =>
    simp only [System.step] at hs
    split at hs
    · rename_i w hw
      obtain ⟨⟨hintr, hfresh⟩, hs⟩ := Option.ite_none_right_eq_some.1 hs
      cases hs
      exact streams_isubmit H hw hintr hfresh
    · cases hs
  | qhangup | qreopen | qsetlimit =>
    cases hs
    exact ⟨H.flow.of_eq rfl rfl rfl rfl rfl, H.calls⟩
  | qpass | qpassnolim | qputback | qaddlist | qremove | qclose | qflush | qnoblock => exact ha.elim

theorem streams_start (limit : Int32) (msg : Bool) :
    Streams msg (start (.qopen limit msg false)) where
  flow := ⟨⟨.qopen .., nodup_nil⟩, rfl, Nat.zero_le 1, fun _ => rfl,
      fun _ _ hb => absurd hb not_mem_nil, fun _ => trivial⟩
  calls := ⟨fun _ w hw => absurd hw (Option.not_mem_none w), trivial, fun _ => trivial⟩

/-- **A queue is a reliable channel**, in a run without an exception. Every write that returns `n`
has queued just the first `n` bytes of what it was given. What has come out of a stream is the
beginning of what has gone in, and the remainder is what is queued, after what a `qread` that is
copying will put back. With `Qmsg`, every read is from one message, and a write that returns the
length of its message has queued it as one. -/
theorem reliable (limit : Int32) (msg : Bool) {acts : List Act} {s : System}
    (h : Run (Guarded Meets Transfer) (start (.qopen limit msg false)) acts s) :
    Always Exact s.hist ∧
      (msg = false → consumed s.hist <+: accepted s.hist ∧
        Fifo (bytes s.reader.rest ++ bytes s.q.bfirst) s.hist) ∧
      (msg = true → Always FromOne s.hist ∧ Always Whole s.hist) := by
  obtain ⟨hflow, hcalls⟩ := h.guarded_inv (I := Streams msg)
    (fun _ _ _ H hm hs => H.step hm hs.1 hs.2) (streams_start limit msg)
  exact ⟨hcalls.exact, fun hmsg => ⟨(hflow.fifo hmsg).isPrefix, hflow.fifo hmsg⟩,
    fun hmsg => ⟨hflow.fromOne hmsg, hcalls.whole hmsg⟩⟩

/-- Three bytes are written and two of them read. -/
theorem reliable_three : ∃ s, Run (Guarded Meets Transfer) (start (.qopen 1024 false false))
    [.qwrite 0 [1, 2, 3], .chunk 0 8, .room 0, .qread 1 2, .look 0, .copied] s ∧
      consumed s.hist = [1, 2] ∧ consumed s.hist <+: accepted s.hist := by
  obtain ⟨s, hrun, hbytes⟩ : ∃ s, Run (Guarded Meets Transfer) (start (.qopen 1024 false false))
      [.qwrite 0 [1, 2, 3], .chunk 0 8, .room 0, .qread 1 2, .look 0, .copied] s ∧
        consumed s.hist = [1, 2] :=
    ⟨_, .cons ⟨fun hm => absurd hm Bool.false_ne_true, trivial, rfl⟩
      (.cons ⟨trivial, trivial, rfl⟩ (.cons ⟨trivial, trivial, rfl⟩ (.cons ⟨trivial, trivial, rfl⟩
        (.cons ⟨trivial, trivial, rfl⟩ (.cons ⟨trivial, trivial, rfl⟩ (.nil _)))))), rfl⟩
  exact ⟨s, hrun, hbytes, ((reliable 1024 false hrun).2.1 rfl).1⟩

/-! ### The exceptions -/

theorem advance_of_msg (hmsg : s.q.msg = true) :
    s.advance p w = (s.setWriter p none).log s.q [.returned p w.data.length] := by
  rw [advance, hmsg, Bool.not_true, Bool.and_false, if_neg Bool.false_ne_true]

/-- **A message longer than a block is cut off, but `qwrite` returns its length.** -/
theorem longMessage (hlong : Maxatomic < data.length) :
    ∃ s, Run Transfer (start (.qopen 131072 true false)) [.qwrite 0 data, .chunk 0 8, .room 0] s ∧
      s.hist = [.returned 0 data.length, .put 0 (data.take Maxatomic), .called 0 data] := by
  have hlen : (data.take Maxatomic).length = Maxatomic := by
    rw [length_take]
    exact Nat.min_eq_left hlong.le
  have hnotfull : decide ((0 : Int32) + (Int32.ofNat (Ip.balloc (data.take Maxatomic).length) + 0) <
      131072) = true := by
    rw [hlen]
    decide
  let w : Writer := ⟨data, 0, false, false⟩
  let b : Block := .filled 8 w.next
  let s₁ : System := (start (.qopen 131072 true false)).log (.qopen 131072 true false)
    [.called 0 data] |>.setWriter 0 (some w)
  let w' : Writer := { w with sofar := 0 + b.blen, blocked := true }
  let s₂ : System := { (s₁.log (s₁.q.enqueue b []).feed [.put 0 w.next]).setWriter 0 (some w') with
    wlock := some 0 }
  have hroom : s₂.step (.room 0) = some ({ s₂ with wlock := none }.advance 0 w') := by
    have hgo : (s₂.q.noblock || s₂.q.qnotfull) = true := by
      rw [Queue.qnotfull]
      exact congrArg (fun c => false || (c || false)) hnotfull
    have hstep : s₂.step (.room 0) = if w'.blocked = true ∧ s₂.wlock = some 0 then
        if s₂.q.noblock || s₂.q.qnotfull then some ({ s₂ with wlock := none }.advance 0 w')
        else some (s₂.log { s₂.q with flow := true } []) else none := rfl
    rw [hstep, if_pos ⟨rfl, rfl⟩, if_pos hgo]
  have hend := advance_of_msg (s := { s₂ with wlock := none }) (p := 0) (w := w') rfl
  refine ⟨_, .cons (t := s₁) ⟨trivial, rfl⟩ (.cons (t := s₂) ⟨trivial, rfl⟩
    (.cons ⟨trivial, hroom⟩ (.nil _))), ?_⟩
  rw [hend]
  rfl

/-- **What `qread` puts back is overtaken** by what a routine takes while it copies. -/
theorem overtake : ∃ s, Run Transfer (start (.qopen 1024 false false))
    [.qproduce 0 [1, 2, 3] (some 8), .qproduce 0 [4] (some 16), .qread 1 1, .look 0, .qget 2,
      .copied] s ∧
      accepted s.hist = [1, 2, 3, 4] ∧ consumed s.hist = [1, 4] :=
  ⟨_, .cons ⟨trivial, rfl⟩ (.cons ⟨trivial, rfl⟩ (.cons ⟨trivial, rfl⟩ (.cons ⟨trivial, rfl⟩
    (.cons ⟨trivial, rfl⟩ (.cons ⟨trivial, rfl⟩ (.nil _)))))), rfl, rfl⟩

/-- Without the condition it is false: 65537 bytes are reported and 65536 queued, and bytes come out
in another order. -/
theorem longMessage_lost :
    (∃ acts s, Run Transfer (start (.qopen 131072 true false)) acts s ∧
      ¬Always Exact s.hist ∧ ¬Always Whole s.hist) ∧
    ∃ acts s, Run Transfer (start (.qopen 1024 false false)) acts s ∧
      ¬consumed s.hist <+: accepted s.hist := by
  constructor
  · have hlen : (List.replicate 65537 (0 : UInt8)).length = 65537 := List.length_replicate
    have hlong : Maxatomic < (List.replicate 65537 (0 : UInt8)).length := by
      rw [hlen]
      decide
    obtain ⟨s, hrun, hhist⟩ := longMessage hlong
    have hne : (List.replicate 65537 (0 : UInt8)).take Maxatomic ≠ List.replicate 65537 0 := by
      intro heq
      have hlength := congrArg List.length heq
      rw [List.length_take, hlen] at hlength
      exact absurd hlength (by decide)
    refine ⟨_, s, hrun, fun hexact => ?_, fun hwhole => ?_⟩
    · rw [hhist] at hexact
      obtain ⟨⟨-, hflat⟩, -⟩ := hexact
      rw [request_put, request_called, written_put, written_called, if_pos rfl, if_pos rfl,
        if_pos rfl, List.take_length, List.nil_append, List.flatten_singleton] at hflat
      exact hne hflat
    · rw [hhist] at hwhole
      have hone := hwhole.1 rfl (by rw [hlen]; decide)
      rw [request_put, request_called, written_put, written_called, if_pos rfl, if_pos rfl,
        if_pos rfl] at hone
      exact hne (List.cons.inj hone).1
  · obtain ⟨s, hrun, hin, hout⟩ := overtake
    refine ⟨_, s, hrun, ?_⟩
    rw [hin, hout]
    decide

end System

end Kernel

end Plan9
