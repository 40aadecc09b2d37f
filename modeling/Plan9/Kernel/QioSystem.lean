import Plan9.Kernel.Qio
import Plan9.Lib.Channel
import Plan9.Lib.Run
import Mathlib.Logic.Function.Basic

/-!
# A queue and its users

Processes and interrupt routines share a queue. What they do is taken apart where the
source lets go of the lock (`Plan9.Kernel.Act`): a `qread` takes blocks from the
queue and, later, puts a rest back; a `qwrite` queues one block after another and
waits for room after each of them, in its turn with other writers; a `qiwrite`
queues its blocks without waiting. `rlock` and `wlock` are held by the process that
`Plan9.Kernel.System.reader` and `Plan9.Kernel.System.wlock` name.

`Plan9.Kernel.System.hist` is not in the source: it records what has been asked for,
queued, handed out and returned.

* `Plan9.Kernel.System.Sound.step` – what every step preserves: the counts are right, and no block
  is both on the queue and with a reader, or twice on it;
* `Plan9.Kernel.System.accounting` – so the counts are right after every run.
-/

namespace Plan9

namespace Kernel

open Lib (Run)
open List
open Lib.Channel (Event)

/-- `qwrite` and `qiwrite` queue no more than this in one block. -/
def Maxatomic : ℕ := 64 * 1024

/-- The process that holds `rlock`. -/
inductive Reader
  | idle
  /-- It is in `qread`, or in `qbread` if `block`, and has not found anything yet. -/
  | waiting (p len : ℕ) (block : Bool)
  /-- It is in `qread` and copies from the blocks `first`, without the queue's lock. -/
  | copying (p len : ℕ) (first : List Block)

def Reader.blocks : Reader → List Block
  | copying _ _ first => first
  | _ => []

/-- A process in `qwrite` or `qbwrite`, or a routine in `qiwrite`. -/
structure Writer where
  data : List UInt8
  sofar : ℕ
  /-- This is a `qiwrite`. -/
  interrupt : Bool
  /-- A block is queued, and the process waits for room. -/
  blocked : Bool

/-- The data of the next block. -/
def Writer.next (w : Writer) : List UInt8 := (w.data.drop w.sofar).take Maxatomic

/-- A queue and its users. -/
structure System where
  q : Queue
  reader : Reader
  wlock : Option ℕ
  writer : ℕ → Option Writer
  hist : List (Event UInt8)

/-- What can happen: whole calls, or parts of one that do not let go of the lock. -/
inductive Act
  | qget (p : ℕ)
  | qdiscard (p len : ℕ)
  | qconsume (p len : ℕ)
  | qpass (b : Block) (bp : List Block)
  | qpassnolim (b : Block) (bp : List Block)
  /-- `iallocb` finds a block at `a`, or none. -/
  | qproduce (p : ℕ) (data : List UInt8) (a : Option ℕ)
  | qputback (b : Block)
  | qaddlist (b : Block) (bp : List Block)
  | qremove
  /-- A process gets `rlock`. -/
  | qread (p len : ℕ)
  | qbread (p len : ℕ)
  /-- The process with `rlock` looks at the queue; for a block that it has to split, `allocb` finds
  another at `a`. -/
  | look (a : ℕ)
  /-- It has copied. -/
  | copied
  /-- It is interrupted in its sleep. -/
  | rintr
  | qbwrite (p : ℕ) (b : Block)
  | qwrite (p : ℕ) (data : List UInt8)
  /-- The next round of a `qwrite`; `allocb` finds a block at `a`. -/
  | chunk (p a : ℕ)
  /-- The process with `wlock` looks whether there is room. -/
  | room (p : ℕ)
  /-- It is interrupted in its sleep. -/
  | wintr (p : ℕ)
  | qiwrite (p : ℕ) (data : List UInt8)
  /-- The next round of a `qiwrite`. -/
  | ichunk (p : ℕ) (a : Option ℕ)
  | qclose
  | qhangup (msg : String)
  | qreopen
  | qflush
  | qsetlimit (limit : Int32)
  | qnoblock (onoff : Bool)

namespace System

variable (s : System)

def start (q : Queue) : System := ⟨q, .idle, none, fun _ => none, []⟩

/-- The addresses of the blocks on the queue and of those that a reader will look at again. -/
def held : List ℕ := addrs s.q.bfirst ++ addrs s.reader.blocks

/-- Blocks that are somebody else's so far. -/
def Fresh (as : List ℕ) : Prop := as.Nodup ∧ ∀ a ∈ as, a ∉ s.held

instance (as : List ℕ) : Decidable (s.Fresh as) := inferInstanceAs (Decidable (_ ∧ _))

/-- The queue changes, and there are new events. -/
def log (q : Queue) (es : List (Event UInt8)) : System := { s with q, hist := es ++ s.hist }

def setWriter (p : ℕ) (w : Option Writer) : System :=
  { s with writer := Function.update s.writer p w }

/-- `qwrite` after one of its blocks: the next one, or the end. -/
def advance (p : ℕ) (w : Writer) : System :=
  if decide (w.sofar < w.data.length) && !s.q.msg then s.setWriter p
    (some { w with blocked := false })
  else (s.setWriter p none).log s.q [.returned p w.data.length]

/-- `qbwrite` up to where it waits for room. -/
def submit (p : ℕ) (w : Writer) (b : Block) : System :=
  let w := { w with sofar := w.sofar + b.blen, blocked := true }
  if s.q.bypass then s.advance p w
  else
    match s.q.qbwrite b with
    | (q, .error) => (s.log q []).setWriter p none
    | (q, .dropped) => (s.log q []).advance p w
    | (q, .queued) => { (s.log q [.put p b.data]).setWriter p (some w) with wlock := some p }

/-- One round of `qiwrite`. -/
def isubmit (p : ℕ) (w : Writer) (a : Option ℕ) : System :=
  match s.q.qiwrite (a.map fun a => .filled a w.next) with
  | (q, false) => (s.setWriter p none).log q [.returned p w.sofar]
  | (q, true) =>
    let sofar := w.sofar + w.next.length
    let s := s.log q [.put p w.next]
    if decide (sofar < w.data.length) && !q.msg then s.setWriter p (some { w with sofar })
    else (s.setWriter p none).log q [.returned p sofar]

def produce (p : ℕ) (data : List UInt8) (a : Option ℕ) : System :=
  let r := s.q.qproduce (a.map fun a => .filled a data)
  s.log r.1 (r.2.toList.map (.returned p) ++
    (if r.2 = none then [] else a.toList.map fun _ => .put p data) ++ [.called p data])

/-- The process with `rlock` in `qread`. -/
def readLook (p len : ℕ) : System :=
  let r := s.q.qreadTake len
  match r.2.1 with
  | .data => { s.log r.1 [.got p (bl2mem r.2.2 len).1] with reader := .copying p len r.2.2 }
  | .sleep => s.log r.1 []
  | _ => { s.log r.1 [] with reader := .idle }

/-- The process with `rlock` in `qbread`. -/
def breadLook (p len a : ℕ) : System :=
  let w := s.q.qwait
  match w.2 with
  | .data =>
    let r := w.1.qbreadTake len a
    { s.log r.1 (r.2.toList.map fun b => .got p b.data) with reader := .idle }
  | .sleep => s.log w.1 []
  | _ => { s.log w.1 [] with reader := .idle }

/-- What a step leads to; there is none for a step that cannot be taken now. -/
def step : Act → Option System
  | .qget p => some (s.log s.q.qget.1 (s.q.qget.2.toList.map fun b => .got p b.data))
  | .qdiscard p len => some (s.log (s.q.qdiscard len).1 [.dropped p (s.q.qdiscard len).2])
  | .qconsume p len => some (s.log (s.q.qconsume len).1 ((s.q.qconsume len).2.toList.map (.got p)))
  | .qpass b bp => if s.Fresh (addrs (b :: bp)) then some (s.log (s.q.qpass b bp).1 []) else none
  | .qpassnolim b bp =>
    if s.Fresh (addrs (b :: bp)) then some (s.log (s.q.qpassnolim b bp).1 []) else none
  | .qproduce p data a =>
    if (s.writer p).isNone ∧ s.Fresh a.toList then some (s.produce p data a) else none
  | .qputback b => if s.Fresh [b.addr] then some (s.log (s.q.qputback b) []) else none
  | .qaddlist b bp =>
    if s.Fresh (addrs (b :: bp)) then some (s.log (s.q.qaddlist b bp) []) else none
  | .qremove => some (s.log s.q.qremove.1 [])
  | .qread p len =>
    match s.reader with
    | .idle => some { s with reader := .waiting p len false }
    | _ => none
  | .qbread p len =>
    match s.reader with
    | .idle => some { s with reader := .waiting p len true }
    | _ => none
  | .look a =>
    match s.reader with
    | .waiting p len false => some (s.readLook p len)
    | .waiting p len true => if s.Fresh [a] then some (s.breadLook p len a) else none
    | _ => none
  | .copied =>
    match s.reader with
    | .copying _ len first =>
      some { s.log (s.q.qreadFinish (bl2mem first len).2) [] with reader := .idle }
    | _ => none
  | .rintr =>
    match s.reader with
    | .waiting .. => some { s with reader := .idle }
    | _ => none
  | .qbwrite p b =>
    if (s.writer p).isNone ∧ s.wlock = none ∧ s.Fresh [b.addr] then
      some ((s.log s.q [.called p b.data]).submit p ⟨b.data, 0, false, false⟩ b)
    else none
  | .qwrite p data =>
    if (s.writer p).isNone then
      some ((s.log s.q [.called p data]).setWriter p (some ⟨data, 0, false, false⟩))
    else none
  | .chunk p a =>
    match s.writer p with
    | some w =>
      if w.interrupt = false ∧ w.blocked = false ∧ s.wlock = none ∧ s.Fresh [a] then
        some (s.submit p w (.filled a w.next))
      else none
    | none => none
  | .room p =>
    match s.writer p with
    | some w =>
      if w.blocked = true ∧ s.wlock = some p then
        if s.q.noblock || s.q.qnotfull then some ({ s with wlock := none }.advance p w)
        else some (s.log { s.q with flow := true } [])
      else none
    | none => none
  | .wintr p =>
    match s.writer p with
    | some w =>
      if w.blocked = true ∧ s.wlock = some p ∧ (s.q.noblock || s.q.qnotfull) = false then
        some ({ s with wlock := none }.setWriter p none)
      else none
    | none => none
  | .qiwrite p data =>
    if (s.writer p).isNone then
      some ((s.log s.q [.called p data]).setWriter p (some ⟨data, 0, true, false⟩))
    else none
  | .ichunk p a =>
    match s.writer p with
    | some w => if w.interrupt = true ∧ s.Fresh a.toList then some (s.isubmit p w a) else none
    | none => none
  | .qclose => some (s.log s.q.qclose [])
  | .qhangup msg => some (s.log (s.q.qhangup msg) [])
  | .qreopen => some (s.log s.q.qreopen [])
  | .qflush => some (s.log s.q.qflush [])
  | .qsetlimit limit => some (s.log (s.q.qsetlimit limit) [])
  | .qnoblock onoff => some (s.log (s.q.qnoblock onoff) [])

/-- The runs of the system are those of this relation. -/
def Step (s : System) (a : Act) (t : System) : Prop := s.step a = some t

/-! ### The invariant -/

/-- **The invariant**, for a queue and the blocks that a reader has in hand: the counts are right,
and no block is met twice. -/
structure Sound (q : Queue) (bp : List Block) : Prop where
  accounted : q.Accounted
  nodup : (addrs q.bfirst ++ addrs bp).Nodup

variable {s} {t : System} {q q' : Queue} {bp bl : List Block} {new : List ℕ} {bs : List UInt8}
  {p len : ℕ} {w : Writer}

namespace Sound

theorem yields (h : Sound q bp) (hy : q.Yields new q' bs)
    (hnew : new.Nodup ∧ ∀ a ∈ new, a ∉ addrs q.bfirst ++ addrs bp) : Sound q' bp := by
  refine ⟨hy.accounted h.accounted, ?_⟩
  refine (hy.addrs_le.append_right _).nodup ?_
  rw [append_assoc]
  exact nodup_append.2 ⟨hnew.1, h.nodup, fun a ha b hb hab => hnew.2 a ha (hab ▸ hb)⟩

theorem yields_nil (h : Sound q bp) (hy : q.Yields [] q' bs) : Sound q' bp :=
  h.yields hy ⟨nodup_nil, fun _ ha => absurd ha not_mem_nil⟩

theorem puts (h : Sound q bp) (hp : q.Puts q' bl)
    (hnew : (addrs bl).Nodup ∧ ∀ a ∈ addrs bl, a ∉ addrs q.bfirst ++ addrs bp) : Sound q' bp := by
  have hnd := (nodup_append.1 h.nodup).1
  refine ⟨hp.accounted h.accounted hnd, ?_⟩
  rw [hp.bfirst_eq h.accounted hnd, addrs_append, append_assoc]
  refine (perm_append_comm_assoc ..).nodup_iff.1 ?_
  exact nodup_append.2 ⟨hnew.1, h.nodup, fun a ha b hb hab => hnew.2 a ha (hab ▸ hb)⟩

theorem puts_nil (h : Sound q bp) (hp : q.Puts q' []) : Sound q' bp :=
  h.puts hp ⟨nodup_nil, fun _ ha => absurd ha not_mem_nil⟩

theorem takes (h : Sound q []) (ht : q.Takes q' bp) : Sound q' bp := by
  refine ⟨ht.accounted h.accounted, ?_⟩
  have hnd := h.nodup
  rw [ht.bfirst_eq, addrs_append, addrs_nil, append_nil] at hnd
  exact perm_append_comm.nodup_iff.1 hnd

/-- What is left of the blocks in hand goes back. -/
theorem finish (h : Sound q bp) : Sound (q.qreadFinish (bl2mem bp len).2) [] := by
  refine ⟨h.accounted.qreadFinish _, ?_⟩
  have hle : (addrs (q.leftover (bl2mem bp len).2)).Sublist (addrs bp) := by
    rw [Queue.leftover]
    split
    · exact nil_sublist _
    · exact ((take_sublist ..).map _).trans addrs_bl2mem
  rw [q.bfirst_qreadFinish, addrs_append, addrs_nil, append_nil]
  exact (hle.append_right _).nodup (perm_append_comm.nodup_iff.1 h.nodup)

theorem discard (h : Sound q bp) : Sound q [] := by
  refine ⟨h.accounted, ?_⟩
  rw [addrs_nil, append_nil]
  exact (nodup_append.1 h.nodup).1

theorem of_eq (h : Sound q bp) (hq : q'.bfirst = q.bfirst) (hlen : q'.len = q.len)
    (hdlen : q'.dlen = q.dlen) (hblast : q'.blast = q.blast) : Sound q' bp :=
  ⟨h.accounted.of_eq hq hlen hdlen hblast, hq ▸ h.nodup⟩

theorem of_nil (h : Sound q bp) (hq : q'.bfirst = []) (hlen : q'.len = 0) (hdlen : q'.dlen = 0) :
    Sound q' bp := by
  refine ⟨.of_nil hlen hdlen hq, ?_⟩
  rw [hq]
  exact (nodup_append.1 h.nodup).2.1

theorem qputback {b : Block} (h : Sound q bp) (hb : b.addr ∉ addrs q.bfirst ++ addrs bp) :
    Sound (q.qputback b) bp :=
  ⟨h.accounted.qputback b, nodup_cons.2 ⟨hb, h.nodup⟩⟩

end Sound

section Parts

variable {b : Block} {a : ℕ} {o : Option ℕ}

theorem q_advance (s : System) (p : ℕ) (w : Writer) : (s.advance p w).q = s.q := by
  rw [advance]
  split <;> rfl

theorem reader_advance (s : System) (p : ℕ) (w : Writer) : (s.advance p w).reader = s.reader := by
  rw [advance]
  split <;> rfl

section

variable (h : Sound s.q s.reader.blocks)

include h

theorem sound_advance :
    Sound (s.advance p w).q (s.advance p w).reader.blocks := by
  rwa [q_advance, reader_advance]

theorem sound_submit (hb : s.Fresh [b.addr]) :
    Sound (s.submit p w b).q (s.submit p w b).reader.blocks := by
  unfold submit
  dsimp only
  split
  · exact sound_advance h
  · have hput := Queue.Puts.qbwrite (q := s.q) (b := b)
    split
    · rename_i q heq
      rw [heq] at hput
      exact h.puts_nil hput
    · rename_i q heq
      rw [heq] at hput
      exact sound_advance (s := s.log q []) (h.puts_nil hput)
    · rename_i q heq
      rw [heq] at hput
      exact h.puts hput hb

theorem sound_isubmit (ho : s.Fresh o.toList) :
    Sound (s.isubmit p w o).q (s.isubmit p w o).reader.blocks := by
  have hput := Queue.Puts.qiwrite (q := s.q) (o := o.map fun a => .filled a w.next)
  unfold isubmit
  split
  · rename_i q heq
    rw [heq] at hput
    exact h.puts_nil hput
  · rename_i q heq
    rw [heq] at hput
    have hq : Sound q s.reader.blocks := by
      refine h.puts hput ?_
      cases o with
      | none => exact ho
      | some a => exact ho
    dsimp only
    split
    · exact hq
    · exact hq

theorem sound_produce {data : List UInt8} (ho : s.Fresh o.toList) :
    Sound (s.produce p data o).q (s.produce p data o).reader.blocks := by
  have hput := Queue.Puts.qproduce (q := s.q) (o := o.map fun a => .filled a data)
  refine h.puts hput ?_
  split
  · exact ⟨nodup_nil, fun _ ha => absurd ha not_mem_nil⟩
  · cases o with
    | none => exact ho
    | some a => exact ho

end

theorem sound_readLook (h : Sound s.q []) (hr : s.reader.blocks = []) :
    Sound (s.readLook p len).q (s.readLook p len).reader.blocks := by
  obtain ⟨q, hy, ht, -⟩ := s.q.qreadTake_takes len
  have htake := (h.yields_nil hy).takes ht
  unfold readLook
  dsimp only
  split
  · exact htake
  · exact hr ▸ htake.discard
  · exact htake.discard

theorem sound_breadLook (h : Sound s.q []) (hr : s.reader.blocks = []) (ha : s.Fresh [a]) :
    Sound (s.breadLook p len a).q (s.breadLook p len a).reader.blocks := by
  have hwait : s.q.Yields [] s.q.qwait.1 [] := .qwait
  unfold breadLook
  dsimp only
  split
  · refine h.yields (hwait.trans .qbreadTake) ⟨ha.1, fun b hb => ?_⟩
    rw [← hr]
    exact ha.2 b hb
  · exact hr ▸ h.yields_nil hwait
  · exact h.yields_nil hwait

end Parts

/-- **What every step preserves.** -/
theorem Sound.step {a : Act} (h : Sound s.q s.reader.blocks) (hs : s.step a = some t) :
    Sound t.q t.reader.blocks := by
  cases a with
  | qget p =>
    cases hs
    exact h.yields_nil .qget
  | qdiscard p len =>
    cases hs
    exact h.yields_nil .qdiscard
  | qconsume p len =>
    cases hs
    exact h.yields_nil .qconsume
  | qpass b bp =>
    obtain ⟨hfresh, hs⟩ := Option.ite_none_right_eq_some.1 hs
    cases hs
    obtain ⟨l, rfl | rfl, hput⟩ : ∃ l, (l = [] ∨ l = b :: bp) ∧
      s.q.Puts (s.q.qpasslim b bp true).1 l :=
      Queue.Puts.qpasslim
    · exact h.puts_nil hput
    · exact h.puts hput hfresh
  | qpassnolim b bp =>
    obtain ⟨hfresh, hs⟩ := Option.ite_none_right_eq_some.1 hs
    cases hs
    obtain ⟨l, rfl | rfl, hput⟩ : ∃ l, (l = [] ∨ l = b :: bp) ∧
      s.q.Puts (s.q.qpasslim b bp false).1 l :=
      Queue.Puts.qpasslim
    · exact h.puts_nil hput
    · exact h.puts hput hfresh
  | qproduce p data o =>
    obtain ⟨⟨-, hfresh⟩, hs⟩ := Option.ite_none_right_eq_some.1 hs
    cases hs
    exact sound_produce h hfresh
  | qputback b =>
    obtain ⟨hfresh, hs⟩ := Option.ite_none_right_eq_some.1 hs
    cases hs
    exact h.qputback (hfresh.2 _ mem_cons_self)
  | qaddlist b bp =>
    obtain ⟨hfresh, hs⟩ := Option.ite_none_right_eq_some.1 hs
    cases hs
    exact h.puts .qaddlist hfresh
  | qremove =>
    cases hs
    exact h.yields_nil .qremove
  | qread p len | qbread p len =>
    simp only [System.step] at hs
    split at hs
    · rename_i hr
      cases hs
      rw [hr] at h
      exact h
    · cases hs
  | look a =>
    simp only [System.step] at hs
    split at hs
    · rename_i hr
      cases hs
      rw [hr] at h
      exact sound_readLook h (by rw [hr]; rfl)
    · rename_i hr
      obtain ⟨hfresh, hs⟩ := Option.ite_none_right_eq_some.1 hs
      cases hs
      rw [hr] at h
      exact sound_breadLook h (by rw [hr]; rfl) hfresh
    · cases hs
  | copied =>
    simp only [System.step] at hs
    split at hs
    · rename_i hr
      cases hs
      rw [hr] at h
      exact h.finish
    · cases hs
  | rintr =>
    simp only [System.step] at hs
    split at hs
    · rename_i hr
      cases hs
      rw [hr] at h
      exact h
    · cases hs
  | qbwrite p b =>
    obtain ⟨⟨-, -, hfresh⟩, hs⟩ := Option.ite_none_right_eq_some.1 hs
    cases hs
    exact sound_submit (s := s.log s.q _) h hfresh
  | qwrite p data | qiwrite p data =>
    obtain ⟨-, hs⟩ := Option.ite_none_right_eq_some.1 hs
    cases hs
    exact h
  | chunk p a =>
    simp only [System.step] at hs
    split at hs
    · obtain ⟨⟨-, -, -, hfresh⟩, hs⟩ := Option.ite_none_right_eq_some.1 hs
      cases hs
      exact sound_submit h hfresh
    · cases hs
  | room p =>
    simp only [System.step] at hs
    split at hs
    · obtain ⟨-, hs⟩ := Option.ite_none_right_eq_some.1 hs
      split at hs
      · cases hs
        exact sound_advance (s := { s with wlock := none }) h
      · cases hs
        exact h.of_eq rfl rfl rfl rfl
    · cases hs
  | wintr p =>
    simp only [System.step] at hs
    split at hs
    · obtain ⟨-, hs⟩ := Option.ite_none_right_eq_some.1 hs
      cases hs
      exact h
    · cases hs
  | ichunk p o =>
    simp only [System.step] at hs
    split at hs
    · obtain ⟨⟨-, hfresh⟩, hs⟩ := Option.ite_none_right_eq_some.1 hs
      cases hs
      exact sound_isubmit h hfresh
    · cases hs
  | qclose | qflush =>
    cases hs
    exact h.of_nil rfl rfl rfl
  | qhangup | qreopen | qsetlimit | qnoblock =>
    cases hs
    exact h.of_eq rfl rfl rfl rfl

/-- **The counts of a queue are right** in every state with its lock free: `len` is the space of its
blocks and `dlen` their bytes, added up as the `int` they are – and exactly as long as they fit in
one – and `blast` is the last block, if there is one. -/
theorem accounting {limit : Int32} {msg coalesce : Bool} {q₀ : Queue} {acts : List Act} {s : System}
    (h₀ : q₀ = .qopen limit msg coalesce ∨ q₀ = .qbypass) (h : Run Step (start q₀) acts s) :
    s.q.len = blockalloclen s.q.bfirst ∧ s.q.dlen = blocklen s.q.bfirst ∧
      ((s.q.bfirst.map fun b => b.alloc).sum < 2 ^ 31 →
        s.q.len.toInt = (s.q.bfirst.map fun b => b.alloc).sum) ∧
      ((bytes s.q.bfirst).length < 2 ^ 31 → s.q.dlen.toInt = (bytes s.q.bfirst).length) ∧
      ∀ hne : s.q.bfirst ≠ [], s.q.blast = (s.q.bfirst.getLast hne).addr := by
  have hstart : q₀.Accounted ∧ q₀.bfirst = [] := by
    rcases h₀ with rfl | rfl
    · exact ⟨.qopen .., rfl⟩
    · exact ⟨.qbypass, rfl⟩
  have hsound : Sound (start q₀).q (start q₀).reader.blocks := by
    refine ⟨hstart.1, ?_⟩
    change (addrs q₀.bfirst ++ addrs []).Nodup
    rw [hstart.2]
    exact List.nodup_nil
  obtain ⟨hacc, -⟩ := h.inv (I := fun s => Sound s.q s.reader.blocks)
    (fun _ _ _ h hs => h.step hs) hsound
  exact ⟨hacc.len, hacc.dlen, hacc.toInt_len, hacc.toInt_dlen,
    fun hne => hacc.blast _ (List.getLast?_eq_some_getLast hne)⟩

/-- Two of three bytes are read; the third goes back, in its block. -/
theorem accounting_three : ∃ s, Run Step (start (.qopen 1024 false false))
    [.qproduce 0 [1, 2, 3] (some 8), .qread 1 2, .look 0, .copied] s ∧ bytes s.q.bfirst = [3] ∧
      s.q.len = 80 ∧ s.q.dlen = 1 := by
  obtain ⟨s, hrun, hbytes, hlen, hdlen⟩ : ∃ s, Run Step (start (.qopen 1024 false false))
      [.qproduce 0 [1, 2, 3] (some 8), .qread 1 2, .look 0, .copied] s ∧ bytes s.q.bfirst = [3] ∧
        blockalloclen s.q.bfirst = 80 ∧ blocklen s.q.bfirst = 1 :=
    ⟨_, .cons rfl (.cons rfl (.cons rfl (.cons rfl (.nil _)))), rfl, rfl, rfl⟩
  obtain ⟨hl, hd, -⟩ := accounting (.inl rfl) hrun
  exact ⟨s, hrun, hbytes, hl.trans hlen, hd.trans hdlen⟩

end System

end Kernel

end Plan9
