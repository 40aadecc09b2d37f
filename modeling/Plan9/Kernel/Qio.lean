import Plan9.Ip.Qio

/-!
# The kernel's queues

The queues of `qio.c`, with the counts they keep by hand: `len`, the buffers of the
blocks on the queue, and `dlen`, their bytes, both of C's type `int` and both changed
one block at a time, and `blast`, where the next block will be linked.
`Plan9.Kernel.Queue` follows the source's structure; the blocks from `bfirst` on are a
list, but they have addresses, so that what is linked to the wrong block
(`Plan9.Kernel.setNext`) is lost.

* `Plan9.Kernel.Queue.Accounted` – the counts are those of the blocks, and `blast` is
  the last one;
* one lemma for each function of the source that it keeps the counts, and what it does to the
  blocks and their bytes (`Plan9.Kernel.Queue.Yields.qget` and so on).

A function is modelled from one `ilock` to the next `iunlock`; `qread`, which copies
to the user's memory in between, is two (`Plan9.Kernel.Queue.qreadTake`,
`Plan9.Kernel.Queue.qreadFinish`).
-/

namespace Plan9

namespace Kernel

open List Option

/-! ### Blocks -/

/-- A block, and where it is. -/
structure Block extends Ip.Block where
  addr : ℕ

namespace Block

def BLEN (b : Block) : Int32 := Int32.ofNat b.blen

def BALLOC (b : Block) : Int32 := Int32.ofNat b.alloc

/-- `rp += n`. -/
def drop (b : Block) (n : ℕ) : Block := ⟨b.toBlock.drop n, b.addr⟩

/-- `wp = rp + n`. -/
def take (b : Block) (n : ℕ) : Block := ⟨b.toBlock.take n, b.addr⟩

/-- The block that `allocb` or `iallocb` finds at `addr`, with `data` copied into it. -/
def filled (addr : ℕ) (data : List UInt8) : Block :=
  ⟨⟨data, Ip.balloc data.length, Ip.le_balloc _⟩, addr⟩

end Block

/-- The count of bytes, as a C `int`. -/
def blocklen : List Block → Int32
  | [] => 0
  | b :: bp => b.BLEN + blocklen bp

/-- The count of space, as a C `int`. -/
def blockalloclen : List Block → Int32
  | [] => 0
  | b :: bp => b.BALLOC + blockalloclen bp

/-- The bytes themselves. -/
def bytes (bp : List Block) : List UInt8 := bp.flatMap fun b => b.data

/-- Where the blocks are. -/
def addrs (bp : List Block) : List ℕ := bp.map Block.addr

/-- `while(b->next) b = b->next`: the last block of a list. -/
def lastAddr : Block → List Block → ℕ
  | b, [] => b.addr
  | _, b :: bp => lastAddr b bp

/-- The list after `p->next = bp`: what followed the block at `p` is no longer on it, and nothing
happens to it when the block at `p` is not. -/
def setNext (p : ℕ) (bp : List Block) : List Block → List Block
  | [] => []
  | b :: l => if b.addr = p then b :: bp else b :: setNext p bp l

/-- Up to `n` bytes are copied out of a list of blocks, and emptied blocks freed. -/
def bl2mem : List Block → ℕ → List UInt8 × List Block
  | [], _ => ([], [])
  | b :: bp, n =>
    if n < b.blen then (b.data.take n, b.drop n :: bp)
    else (b.data ++ (bl2mem bp (n - b.blen)).1, (bl2mem bp (n - b.blen)).2)

/-! ### Queues -/

/-- The error of a closed queue. -/
def Ehungup : String := "i/o on hungup channel"

/-- A queue. The bits of `state` are fields of their own. -/
structure Queue where
  /-- The blocks that are met from `bfirst` on. -/
  bfirst : List Block
  blast : ℕ
  len : Int32
  dlen : Int32
  limit : Int32
  inilim : Int32
  /-- `Qstarve`: consumer starved. -/
  starve : Bool
  /-- `Qmsg`: message stream. -/
  msg : Bool
  /-- `Qclosed`: closed or hung up. -/
  closed : Bool
  /-- `Qflow`: producer flow controlled. -/
  flow : Bool
  /-- `Qcoalesce`: coalesce packets on read. -/
  coalesce : Bool
  noblock : Bool
  /-- Whether `bypass` is set. -/
  bypass : Bool
  eof : ℕ
  err : String

/-- What `qwait` finds. -/
inductive Wait
  /-- There is a block. -/
  | data
  /-- The queue is closed. -/
  | eof
  /-- It has been read too often since, or closed with an error. -/
  | error
  /-- The process has to sleep. -/
  | sleep
  deriving DecidableEq

/-- What `qbwrite` does with a block. -/
inductive Wrote
  | queued
  /-- Thrown away: the queue is full and must not block. -/
  | dropped
  /-- Thrown away with an error: the queue is closed. -/
  | error
  deriving DecidableEq

namespace Queue

/-- A new queue; `state` is any combination of `Qmsg` and `Qcoalesce`. -/
def qopen (limit : Int32) (msg coalesce : Bool) : Queue where
  bfirst := []
  blast := 0
  len := 0
  dlen := 0
  limit := limit
  inilim := limit
  starve := true
  msg := msg
  closed := false
  flow := false
  coalesce := coalesce
  noblock := false
  bypass := false
  eof := 0
  err := ""

/-- A queue to be bypassed. -/
def qbypass : Queue := { qopen 0 false false with starve := false, bypass := true }

variable (q : Queue)

/-- The block at the head leaves the queue, which goes on with `bl`. -/
def pop (b : Block) (bl : List Block) : Queue :=
  { q with bfirst := bl, len := q.len - b.BALLOC, dlen := q.dlen - b.BLEN }

/-- The list of blocks `b :: bp` is linked to the last block of the queue. -/
def enqueue (b : Block) (bp : List Block) : Queue :=
  { q with
    bfirst := if q.bfirst.isEmpty then b :: bp else setNext q.blast (b :: bp) q.bfirst
    blast := lastAddr b bp
    len := q.len + blockalloclen (b :: bp)
    dlen := q.dlen + blocklen (b :: bp) }

/-- If the writer is flow controlled and there is room again, it is woken. -/
def restart : Queue :=
  if q.flow && decide (q.len < q.limit / 2) then { q with flow := false } else q

/-- The starving consumer is woken. -/
def feed : Queue := { q with starve := false }

def qget : Queue × Option Block :=
  match q.bfirst with
  | [] => ({ q with starve := true }, none)
  | b :: bl => ((q.pop b bl).restart, some b)

/-- The loop of `qdiscard`, when the queue is `l` and there are `n` bytes left to discard. -/
def discard : Queue → List Block → ℕ → Queue × List UInt8
  | q, [], _ => ({ q with bfirst := [] }, [])
  | q, b :: bl, n =>
    if n = 0 then ({ q with bfirst := b :: bl }, [])
    else if b.blen ≤ n then
      ((discard (q.pop b bl) bl (n - b.blen)).1, b.data ++ (discard (q.pop b bl) bl (n - b.blen)).2)
    else ({ q with bfirst := b.drop n :: bl, dlen := q.dlen - Int32.ofNat n }, b.data.take n)

/-- The queue and the bytes that are thrown away; the source returns how many these are. -/
def qdiscard (len : ℕ) : Queue × List UInt8 :=
  ((q.discard q.bfirst len).1.restart, (q.discard q.bfirst len).2)

/-- The first loop of `qconsume`, when the queue is `l`: empty blocks go away. -/
def skipEmpty : Queue → List Block → Queue
  | q, [] => { q with bfirst := [] }
  | q, b :: bl =>
    if 0 < b.blen then { q with bfirst := b :: bl }
    else skipEmpty { q with bfirst := bl, len := q.len - b.BALLOC } bl

/-- The rest of `qconsume`. -/
def consumeHead (len : ℕ) : Queue × Option (List UInt8) :=
  match q.bfirst with
  | [] => ({ q with starve := true }, none)
  | b :: bl =>
    let n := min len b.blen
    let q := { q with bfirst := b.drop n :: bl, dlen := q.dlen - Int32.ofNat n }
    ((if q.msg || decide (n = b.blen) then q.pop (b.drop n) bl else q).restart,
      some (b.data.take n))

/-- The bytes that are copied, `none` where the source returns -1. -/
def qconsume (len : ℕ) : Queue × Option (List UInt8) := (q.skipEmpty q.bfirst).consumeHead len

/-- The source returns the size of the buffers, or -1. -/
def qpasslim (b : Block) (bp : List Block) (lim : Bool) : Queue × Int32 :=
  if q.limit ≤ q.len then (q, -1)
  else if lim && q.closed then (q, b.BALLOC)
  else
    let q := q.enqueue b bp
    ((if q.limit / 2 ≤ q.len then { q with flow := true } else q).feed, blockalloclen (b :: bp))

def qpass (b : Block) (bp : List Block) : Queue × Int32 := q.qpasslim b bp true

def qpassnolim (b : Block) (bp : List Block) : Queue × Int32 := q.qpasslim b bp false

/-- `b` is the block that `iallocb` found, with the data in it. The number of bytes taken; `none`
where the source returns -1. -/
def qproduce (b : Option Block) : Queue × Option ℕ :=
  if q.limit ≤ q.len then ({ q with flow := true }, none)
  else
    match b with
    | none => (q, some 0)
    | some b =>
      let q := (q.enqueue b []).feed
      (if q.limit ≤ q.len then { q with flow := true } else q, some b.blen)

/-- `++q->eof > 3`, or an error that is not the one of a hangup. -/
def qwait : Queue × Wait :=
  if q.bfirst.isEmpty then
    if q.closed then
      let q := { q with eof := q.eof + 1 }
      if 3 < q.eof then (q, .error)
      else if q.err ≠ "" ∧ q.err ≠ Ehungup then (q, .error)
      else (q, .eof)
    else ({ q with starve := true }, .sleep)
  else (q, .data)

def qaddlist (b : Block) (bp : List Block) : Queue := q.enqueue b bp

def qremove : Queue × Option Block :=
  match q.bfirst with
  | [] => (q, none)
  | b :: bl => (q.pop b bl, some b)

def qputback (b : Block) : Queue :=
  { q with
    bfirst := b :: q.bfirst
    blast := if q.bfirst.isEmpty then b.addr else q.blast
    len := q.len + b.BALLOC
    dlen := q.dlen + b.BLEN }

/-- `qbread` with a block in the queue: the block, cut to `len` bytes. The rest of it goes back to
the queue in a new block at `addr`, unless this is a message queue. -/
def qbreadTake (len addr : ℕ) : Queue × Option Block :=
  match q.bfirst with
  | [] => (q, none)
  | b :: bl =>
    let q := q.pop b bl
    if len < b.blen then
      ((if q.msg then q else q.qputback (.filled addr (b.data.drop len))).restart,
        some (b.take len))
    else (q.restart, some b)

/-- When coalescing, 0 length blocks just go away. -/
def dropEmpty : Queue → List Block → Queue
  | q, [] => { q with bfirst := [] }
  | q, b :: bl => if 0 < b.blen then { q with bfirst := b :: bl } else dropEmpty (q.pop b bl) bl

/-- The first block plus as many following blocks as will completely fit in the read, when there are
`n` bytes already. -/
def gather (len : Int32) : Queue → Block → List Block → Int32 → Queue × List Block
  | q, b, [], _ => (q.pop b [], [b])
  | q, b, b' :: bl, n =>
    let q := q.pop b (b' :: bl)
    if len < n + b.BLEN + b'.BLEN then (q, [b])
    else ((gather len q b' bl (n + b.BLEN)).1, b :: (gather len q b' bl (n + b.BLEN)).2)

/-- `qread` up to where it copies to the user's memory, or has to sleep: the blocks it has taken. -/
def qreadTake (len : ℕ) : Queue × Wait × List Block :=
  let q := if q.coalesce then q.dropEmpty q.bfirst else q
  let w := q.qwait
  match q.bfirst with
  | [] => (w.1, w.2, [])
  | b :: bl =>
    if q.coalesce then ((q.gather (Int32.ofNat len) b bl 0).1, .data,
      (q.gather (Int32.ofNat len) b bl 0).2)
    else (q.pop b bl, .data, [b])

/-- `qread` after it has copied: a block that is left over goes back to the queue, unless this is a
message queue. -/
def qreadFinish (rest : List Block) : Queue :=
  (match rest with
    | [] => q
    | b :: _ => if q.msg then q else q.qputback b).restart

/-- `qbwrite`, as far as it holds the lock. -/
def qbwrite (b : Block) : Queue × Wrote :=
  if q.closed then (q, .error)
  else if decide (q.limit ≤ q.len) && q.noblock then (q, .dropped)
  else ((q.enqueue b []).feed, .queued)

/-- The writer need not wait any longer. -/
def qnotfull : Bool := decide (q.len < q.limit) || q.closed

/-- One round of `qiwrite`; `b` is the block that `iallocb` found, with the data in it. Whether it
has been queued. -/
def qiwrite (b : Option Block) : Queue × Bool :=
  match b with
  | none => (q, false)
  | some b => if 16 * 1024 ≤ q.dlen then (q, false) else ((q.enqueue b []).feed, true)

def qflush : Queue := { q with bfirst := [], len := 0, dlen := 0 }

def qclose : Queue :=
  { q.qflush with closed := true, flow := false, starve := false, err := Ehungup, noblock := false }

def qhangup (msg : String) : Queue :=
  { q with closed := true, err := if msg = "" then Ehungup else msg }

def qreopen : Queue := { q with closed := false, starve := true, eof := 0, limit := q.inilim }

def qsetlimit (limit : Int32) : Queue := { q with limit }

def qnoblock (onoff : Bool) : Queue := { q with noblock := onoff }

end Queue

/-! ### Lists of blocks -/

variable {b c : Block} {bp bl l : List Block} {n p : ℕ}

@[simp] theorem bytes_nil : bytes [] = [] := rfl

@[simp] theorem bytes_cons : bytes (b :: bp) = b.data ++ bytes bp := rfl

@[simp] theorem bytes_append : bytes (bp ++ bl) = bytes bp ++ bytes bl := flatMap_append

@[simp] theorem addrs_nil : addrs [] = [] := rfl

@[simp] theorem addrs_append : addrs (bp ++ bl) = addrs bp ++ addrs bl := map_append

@[simp] theorem Block.data_drop : (b.drop n).data = b.data.drop n := rfl

@[simp] theorem Block.data_filled (data : List UInt8) : (Block.filled p data).data = data := rfl

theorem Block.BLEN_drop (h : n ≤ b.blen) : (b.drop n).BLEN = b.BLEN - Int32.ofNat n := by
  have hsplit : b.blen = (b.drop n).blen + n := by
    rw [Ip.Block.blen, Ip.Block.blen, Block.data_drop, length_drop]
    exact (Nat.sub_add_cancel h).symm
  rw [BLEN, BLEN, hsplit, Int32.ofNat_add]
  grind

theorem blocklen_append : blocklen (bp ++ bl) = blocklen bp + blocklen bl := by
  induction bp with
  | nil => exact (Int32.zero_add _).symm
  | cons b bp ih => rw [cons_append, blocklen, blocklen, ih, Int32.add_assoc]

theorem blockalloclen_append : blockalloclen (bp ++ bl) = blockalloclen bp + blockalloclen bl := by
  induction bp with
  | nil => exact (Int32.zero_add _).symm
  | cons b bp ih => rw [cons_append, blockalloclen, blockalloclen, ih, Int32.add_assoc]

/-- The count is the number of bytes, modulo the size of an `int`. -/
theorem blocklen_eq : blocklen l = Int32.ofNat (bytes l).length := by
  induction l with
  | nil => rfl
  | cons b l ih =>
    rw [blocklen, ih, bytes_cons, length_append, Int32.ofNat_add]
    rfl

theorem blockalloclen_eq : blockalloclen l = Int32.ofNat (l.map fun b => b.alloc).sum := by
  induction l with
  | nil => rfl
  | cons b l ih =>
    rw [blockalloclen, ih, map_cons, sum_cons, Int32.ofNat_add]
    rfl

theorem lastAddr_eq (hc : c ∈ (b :: bp).getLast?) : lastAddr b bp = c.addr := by
  induction bp generalizing b with
  | nil =>
    cases hc
    rfl
  | cons b' bp ih =>
    rw [List.getLast?_cons_cons] at hc
    exact ih hc

/-- **Linking to the last block** appends. -/
theorem setNext_last (hnd : (addrs l).Nodup) (hc : c ∈ l.getLast?) :
    setNext c.addr bp l = l ++ bp := by
  induction l with
  | nil => cases hc
  | cons b l ih =>
    obtain ⟨hb, hnd⟩ := nodup_cons.1 hnd
    cases l with
    | nil =>
      obtain rfl : b = c := some.inj hc
      rw [setNext, if_pos rfl, singleton_append]
    | cons b' l =>
      rw [List.getLast?_cons_cons] at hc
      have hne : b.addr ≠ c.addr := by
        intro heq
        rw [heq] at hb
        exact hb (mem_map_of_mem (List.mem_of_getLast? hc))
      rw [setNext, if_neg hne, ih hnd hc]
      rfl

namespace Queue

variable {q : Queue}

/-! ### The counts -/

/-- **The counts of a queue are right**: `len` is the space and `dlen` the bytes of its blocks, and
`blast` is the last of them. -/
structure Accounted (q : Queue) : Prop where
  len : q.len = blockalloclen q.bfirst
  dlen : q.dlen = blocklen q.bfirst
  blast : ∀ c ∈ q.bfirst.getLast?, q.blast = c.addr

variable {q' : Queue}

namespace Accounted

theorem of_nil (hlen : q.len = 0) (hdlen : q.dlen = 0) (hq : q.bfirst = []) : q.Accounted := by
  refine ⟨by rw [hlen, hq]; rfl, by rw [hdlen, hq]; rfl, fun c hc => ?_⟩
  rw [hq] at hc
  exact absurd hc (not_mem_none c)

theorem qopen (limit : Int32) (msg coalesce : Bool) : (qopen limit msg coalesce).Accounted :=
  of_nil rfl rfl rfl

theorem qbypass : qbypass.Accounted := of_nil rfl rfl rfl

variable (h : q.Accounted)

include h

/-- The exact counts, as far as an `int` can hold them. -/
theorem toInt_len (hfit : (q.bfirst.map fun b => b.alloc).sum < 2 ^ 31) :
    q.len.toInt = (q.bfirst.map fun b => b.alloc).sum := by
  rw [h.len, blockalloclen_eq]
  exact Int32.toInt_ofNat_of_lt hfit

theorem toInt_dlen (hfit : (bytes q.bfirst).length < 2 ^ 31) :
    q.dlen.toInt = (bytes q.bfirst).length := by
  rw [h.dlen, blocklen_eq]
  exact Int32.toInt_ofNat_of_lt hfit

theorem pop (hq : q.bfirst = b :: bl) : (q.pop b bl).Accounted := by
  obtain ⟨hlen, hdlen, hlast⟩ := h
  rw [hq] at hlen hdlen hlast
  refine ⟨?_, ?_, fun c hc => hlast c ?_⟩
  · rw [Queue.pop, hlen, blockalloclen]
    grind
  · rw [Queue.pop, hdlen, blocklen]
    grind
  · cases bl with
    | nil => exact absurd hc (not_mem_none c)
    | cons b' bl => rwa [List.getLast?_cons_cons]

/-- The first block gives some of its bytes away. -/
theorem trim (hq : q.bfirst = b :: bl) (hn : n ≤ b.blen) :
    { q with bfirst := b.drop n :: bl, dlen := q.dlen - Int32.ofNat n }.Accounted := by
  obtain ⟨hlen, hdlen, hlast⟩ := h
  rw [hq] at hlen hdlen hlast
  refine ⟨hlen, ?_, ?_⟩
  · rw [hdlen, blocklen, blocklen, Block.BLEN_drop hn]
    grind
  · cases bl with
    | nil =>
      intro c hc
      obtain rfl : b.drop n = c := some.inj hc
      exact hlast b rfl
    | cons b' bl =>
      intro c hc
      exact hlast c hc

/-- What is linked to `blast` goes to the end. -/
theorem bfirst_enqueue (hnd : (addrs q.bfirst).Nodup) :
    (q.enqueue b bp).bfirst = q.bfirst ++ b :: bp := by
  rw [enqueue]
  dsimp only
  split
  · rename_i hempty
    rw [List.isEmpty_iff.1 hempty, nil_append]
  · rename_i hempty
    have hne : q.bfirst ≠ [] := fun heq => hempty (List.isEmpty_iff.2 heq)
    have hlast := List.getLast?_eq_some_getLast hne
    rw [h.blast _ hlast]
    exact setNext_last hnd hlast

theorem enqueue (hnd : (addrs q.bfirst).Nodup) : (q.enqueue b bp).Accounted := by
  refine ⟨?_, ?_, fun c hc => ?_⟩
  · rw [h.bfirst_enqueue hnd, blockalloclen_append, ← h.len]
    rfl
  · rw [h.bfirst_enqueue hnd, blocklen_append, ← h.dlen]
    rfl
  · rw [h.bfirst_enqueue hnd, List.getLast?_append_cons] at hc
    exact lastAddr_eq hc

theorem qputback (b : Block) : (q.qputback b).Accounted := by
  obtain ⟨hlen, hdlen, hlast⟩ := h
  refine ⟨?_, ?_, fun c hc => ?_⟩
  · rw [Queue.qputback, hlen, blockalloclen]
    exact Int32.add_comm _ _
  · rw [Queue.qputback, hdlen, blocklen]
    exact Int32.add_comm _ _
  · cases hq : q.bfirst with
    | nil =>
      rw [Queue.qputback, hq] at hc ⊢
      obtain rfl : b = c := some.inj hc
      rfl
    | cons b' bl =>
      rw [Queue.qputback, hq, List.getLast?_cons_cons] at hc
      rw [hq] at hlast
      rw [Queue.qputback, hq]
      exact hlast c hc

theorem restart : q.restart.Accounted := by
  rw [Queue.restart]
  split
  · exact ⟨h.len, h.dlen, h.blast⟩
  · exact h

theorem of_eq (hq : q'.bfirst = q.bfirst) (hlen : q'.len = q.len)
    (hdlen : q'.dlen = q.dlen) (hblast : q'.blast = q.blast) : q'.Accounted := by
  obtain ⟨hl, hd, hb⟩ := h
  exact ⟨by rw [hlen, hq, hl], by rw [hdlen, hq, hd], by rwa [hblast, hq]⟩

end Accounted

/-! ### What leaves a queue -/

/-- What no function but `qnoblock` and `qclose` changes. -/
def mode (q : Queue) : Bool × Bool × Bool × Bool := (q.msg, q.coalesce, q.noblock, q.bypass)

/-- **A function that takes from the head of a queue**, and hands out `bs`: the counts stay right,
every block that is left is the end of a block that was there, and none is at a new address but for
those of `new`. A stream loses nothing but `bs`. -/
structure Yields (new : List ℕ) (q q' : Queue) (bs : List UInt8) : Prop where
  accounted : q.Accounted → q'.Accounted
  bytes_eq : q.msg = false → bytes q.bfirst = bs ++ bytes q'.bfirst
  addrs_le : (addrs q'.bfirst).Sublist (new ++ addrs q.bfirst)
  parts : ∀ b ∈ q'.bfirst, ∃ c ∈ q.bfirst, b.data <:+ c.data
  mode_eq : q'.mode = q.mode

variable {a : ℕ}

namespace Yields

variable {q' q'' : Queue} {new : List ℕ} {bs bs' : List UInt8}

theorem refl (q : Queue) : Yields [] q q [] where
  accounted h := h
  bytes_eq _ := rfl
  addrs_le := .refl _
  parts b hb := ⟨b, hb, suffix_rfl⟩
  mode_eq := rfl

theorem msg_eq (h : Yields new q q' bs) : q'.msg = q.msg := congrArg Prod.fst h.mode_eq

theorem trans (h : Yields [] q q' bs) (h' : Yields new q' q'' bs') :
    Yields new q q'' (bs ++ bs') where
  accounted ha := h'.accounted (h.accounted ha)
  bytes_eq hmsg := by
    rw [h.bytes_eq hmsg, h'.bytes_eq (h.msg_eq.trans hmsg), append_assoc]
  addrs_le := h'.addrs_le.trans (h.addrs_le.append_left new)
  parts b hb := by
    obtain ⟨c, hc, hbc⟩ := h'.parts b hb
    obtain ⟨d, hd, hcd⟩ := h.parts c hc
    exact ⟨d, hd, hbc.trans hcd⟩
  mode_eq := h'.mode_eq.trans h.mode_eq

/-- The other fields do not matter. -/
theorem congr (h : Yields new q q' bs) (hq : q''.bfirst = q'.bfirst) (hlen : q''.len = q'.len)
    (hdlen : q''.dlen = q'.dlen) (hblast : q''.blast = q'.blast) (hmode : q''.mode = q'.mode) :
    Yields new q q'' bs where
  accounted ha := (h.accounted ha).of_eq hq hlen hdlen hblast
  bytes_eq := by rw [hq]; exact h.bytes_eq
  addrs_le := by rw [hq]; exact h.addrs_le
  parts := by rw [hq]; exact h.parts
  mode_eq := hmode.trans h.mode_eq

theorem restart (h : Yields new q q' bs) : Yields new q q'.restart bs := by
  rw [Queue.restart]
  split
  · exact h.congr rfl rfl rfl rfl rfl
  · exact h

/-- A block is taken. -/
theorem pop (hq : q.bfirst = b :: bl) : Yields [] q (q.pop b bl) b.data where
  accounted h := h.pop hq
  bytes_eq _ := by
    rw [hq]
    rfl
  addrs_le := by
    rw [hq]
    exact sublist_cons_self ..
  parts c hc := ⟨c, by rw [hq]; exact mem_cons_of_mem b hc, suffix_rfl⟩
  mode_eq := rfl

/-- A part of a block is taken. -/
theorem trim (hq : q.bfirst = b :: bl) (hn : n ≤ b.blen) :
    Yields [] q { q with bfirst := b.drop n :: bl, dlen := q.dlen - Int32.ofNat n }
      (b.data.take n) where
  accounted h := h.trim hq hn
  bytes_eq _ := by
    rw [hq, bytes_cons, bytes_cons, Block.data_drop, ← append_assoc, take_append_drop]
  addrs_le := by
    rw [hq]
    exact .refl _
  parts c hc := by
    rw [hq]
    rcases mem_cons.1 hc with rfl | hc
    · exact ⟨b, mem_cons_self, drop_suffix n b.data⟩
    · exact ⟨c, mem_cons_of_mem b hc, suffix_rfl⟩
  mode_eq := rfl

theorem discard (hq : q.bfirst = l) : Yields [] q (q.discard l n).1 (q.discard l n).2 := by
  induction l generalizing q n with
  | nil =>
    rw [Queue.discard]
    exact (refl q).congr hq.symm rfl rfl rfl rfl
  | cons b l ih =>
    rw [Queue.discard]
    split_ifs with hn hle
    · exact (refl q).congr hq.symm rfl rfl rfl rfl
    · exact (pop hq).trans (ih rfl)
    · exact trim hq (Nat.le_of_not_le hle)

/-- What is handed out matters for streams only. -/
theorem replace (h : Yields new q q' bs) (hbs : q.msg = false → bs = bs') : Yields new q q' bs' :=
  { h with bytes_eq := fun hmsg => hbs hmsg ▸ h.bytes_eq hmsg }

theorem qget : Yields [] q q.qget.1 (q.qget.2.elim [] fun b => b.data) := by
  rw [Queue.qget]
  split
  · exact (refl q).congr rfl rfl rfl rfl rfl
  · rename_i b bl hq
    exact (pop hq).restart

theorem qremove : Yields [] q q.qremove.1 (q.qremove.2.elim [] fun b => b.data) := by
  rw [Queue.qremove]
  split
  · exact refl q
  · rename_i b bl hq
    exact pop hq

theorem qdiscard : Yields [] q (q.qdiscard n).1 (q.qdiscard n).2 := (discard rfl).restart

theorem skipEmpty (hq : q.bfirst = l) : Yields [] q (q.skipEmpty l) [] := by
  induction l generalizing q with
  | nil => exact (refl q).congr hq.symm rfl rfl rfl rfl
  | cons b l ih =>
    rw [Queue.skipEmpty]
    split
    · exact (refl q).congr hq.symm rfl rfl rfl rfl
    · rename_i hzero
      have hb : b.data = [] := length_eq_zero_iff.1 (Nat.eq_zero_of_not_pos hzero)
      have hpop : Yields [] q { q with bfirst := l, len := q.len - b.BALLOC } b.data := by
        refine (pop hq).congr rfl rfl ?_ rfl rfl
        change q.dlen = q.dlen - Int32.ofNat b.data.length
        rw [hb]
        exact (Int32.sub_zero _).symm
      rw [hb] at hpop
      exact hpop.trans (ih rfl)

theorem consumeHead : Yields [] q (q.consumeHead n).1 ((q.consumeHead n).2.getD []) := by
  rw [Queue.consumeHead]
  split
  · exact (refl q).congr rfl rfl rfl rfl rfl
  · rename_i b bl hq
    have hle : min n b.blen ≤ b.blen := Nat.min_le_right ..
    refine restart ?_
    split
    · rename_i hdone
      refine ((trim hq hle).trans (pop rfl)).replace fun hmsg => ?_
      rw [hmsg, Bool.false_or, decide_eq_true_iff] at hdone
      rw [hdone, getD_some, Block.data_drop, Ip.Block.blen, drop_length, append_nil]
    · exact trim hq hle

theorem qconsume : Yields [] q (q.qconsume n).1 ((q.qconsume n).2.getD []) :=
  (skipEmpty rfl).trans consumeHead

theorem qbreadTake :
    Yields [a] q (q.qbreadTake n a).1 ((q.qbreadTake n a).2.elim [] fun b => b.data) := by
  have hweak : ∀ {q' bs}, Yields [] q q' bs → Yields [a] q q' bs := fun h =>
    { h with addrs_le := h.addrs_le.trans (sublist_cons_self ..) }
  rw [Queue.qbreadTake]
  split
  · exact hweak (refl q)
  · rename_i b bl hq
    split
    · refine restart ?_
      split
      · rename_i hmsg
        refine (hweak (pop hq)).replace fun hstream => ?_
        exact absurd (hmsg.symm.trans hstream) Bool.noConfusion
      · refine ⟨fun h => (h.pop hq).qputback _, fun _ => ?_, ?_, fun c hc => ?_, rfl⟩
        · rw [hq]
          exact (congrArg (· ++ bytes bl) (take_append_drop n b.data).symm).trans
            (append_assoc ..)
        · rw [hq]
          exact (sublist_cons_self ..).cons_cons a
        · rw [hq]
          rcases mem_cons.1 hc with rfl | hc
          · exact ⟨b, mem_cons_self, drop_suffix n b.data⟩
          · exact ⟨c, mem_cons_of_mem b hc, suffix_rfl⟩
    · exact (hweak (pop hq)).restart

theorem dropEmpty (hq : q.bfirst = l) : Yields [] q (q.dropEmpty l) [] := by
  induction l generalizing q with
  | nil => exact (refl q).congr hq.symm rfl rfl rfl rfl
  | cons b l ih =>
    rw [Queue.dropEmpty]
    split
    · exact (refl q).congr hq.symm rfl rfl rfl rfl
    · rename_i hzero
      have hb : b.data = [] := length_eq_zero_iff.1 (Nat.eq_zero_of_not_pos hzero)
      have hpop := pop hq
      rw [hb] at hpop
      exact hpop.trans (ih rfl)

/-- `qwait` changes flags only. -/
theorem qwait : Yields [] q q.qwait.1 [] := by
  rw [Queue.qwait]
  dsimp only
  split_ifs <;> exact (refl q).congr rfl rfl rfl rfl rfl

end Yields

/-- A reader takes whole blocks from the head of the queue. -/
structure Takes (q q' : Queue) (bp : List Block) : Prop where
  accounted : q.Accounted → q'.Accounted
  bfirst_eq : q.bfirst = bp ++ q'.bfirst
  mode_eq : q'.mode = q.mode

theorem Takes.pop (hq : q.bfirst = b :: bl) : Takes q (q.pop b bl) [b] where
  accounted h := h.pop hq
  bfirst_eq := hq
  mode_eq := rfl

theorem Takes.gather {len m : Int32} (hq : q.bfirst = b :: bl) :
    Takes q (q.gather len b bl m).1 (q.gather len b bl m).2 := by
  induction bl generalizing q b m with
  | nil => exact .pop hq
  | cons b' bl ih =>
    have hpop := Takes.pop hq
    rw [Queue.gather]
    split
    · exact hpop
    · obtain ⟨hacc, hbfirst, hmode⟩ := ih (q := q.pop b (b' :: bl)) (b := b') (m := m + b.BLEN) rfl
      refine ⟨fun h => hacc (h.pop hq), ?_, hmode⟩
      rw [hq, cons_append, ← hbfirst]
      rfl

theorem Takes.refl (q : Queue) : Takes q q [] := ⟨id, rfl, rfl⟩

/-- **What a reader takes**: a stream or a message queue gives it one block at most. -/
theorem qreadTake_takes (q : Queue) (n : ℕ) : ∃ q₀, Yields [] q q₀ [] ∧
    Takes q₀ (q.qreadTake n).1 (q.qreadTake n).2.2 ∧
      (q.coalesce = false → q₀.bfirst = q.bfirst ∧ (q.qreadTake n).2.2.length ≤ 1) := by
  have hdrop : Yields [] q (if q.coalesce then q.dropEmpty q.bfirst else q) [] := by
    split
    · exact .dropEmpty rfl
    · exact .refl q
  have hsame : q.coalesce = false → (if q.coalesce then q.dropEmpty q.bfirst else q) = q := by
    intro hc
    rw [hc]
    rfl
  rw [qreadTake]
  generalize (if q.coalesce then q.dropEmpty q.bfirst else q) = q₁ at hdrop hsame
  have hcoalesce : q₁.coalesce = q.coalesce := congrArg (fun m => m.2.1) hdrop.mode_eq
  split
  · rename_i hq
    refine ⟨q₁.qwait.1, hdrop.trans .qwait, .refl _, fun hc => ⟨?_, Nat.zero_le 1⟩⟩
    rw [hsame hc] at hq ⊢
    rw [qwait]
    dsimp only
    split_ifs <;> rfl
  · rename_i b bl hq
    refine ⟨q₁, hdrop, ?_, fun hc => ⟨by rw [hsame hc], ?_⟩⟩
    · split
      · exact .gather hq
      · exact .pop hq
    · rw [if_neg (by rw [hcoalesce, hc]; exact Bool.false_ne_true)]
      exact le_rfl

theorem Takes.yields (h : Takes q q' bp) : Yields [] q q' (bytes bp) where
  accounted := h.accounted
  bytes_eq _ := by rw [h.bfirst_eq, bytes_append]
  addrs_le := by
    rw [h.bfirst_eq, addrs_append]
    exact sublist_append_right ..
  parts c hc := ⟨c, by rw [h.bfirst_eq]; exact mem_append_right _ hc, suffix_rfl⟩
  mode_eq := h.mode_eq

theorem qwait_ne_data (hq : q.bfirst = []) : q.qwait.2 ≠ .data := by
  unfold qwait
  rw [hq, if_pos isEmpty_nil]
  split
  · dsimp only
    split
    · exact Wait.noConfusion
    · split <;> exact Wait.noConfusion
  · exact Wait.noConfusion

/-- There is something to be read exactly when a block has been taken. -/
theorem qreadTake_data : (q.qreadTake n).2.1 = .data ↔ (q.qreadTake n).2.2 ≠ [] := by
  rw [qreadTake]
  generalize (if q.coalesce then q.dropEmpty q.bfirst else q) = q₁
  split
  · rename_i hq
    exact ⟨fun hw => absurd hw (qwait_ne_data hq), fun hne => absurd rfl hne⟩
  · rename_i b bl hq
    refine ⟨fun _ => ?_, fun _ => ?_⟩
    · split
      · cases bl with
        | nil => exact cons_ne_nil _ _
        | cons b' bl =>
          rw [gather]
          split <;> exact cons_ne_nil _ _
      · exact cons_ne_nil _ _
    · split <;> rfl

/-- What is handed out is in one of the blocks. -/
theorem qget_mem (hb : b ∈ q.qget.2) : ∃ c ∈ q.bfirst, b.data <:+: c.data := by
  rw [qget] at hb
  split at hb
  · exact absurd hb (not_mem_none b)
  · rename_i c bl hq
    obtain rfl : c = b := some.inj hb
    rw [hq]
    exact ⟨c, mem_cons_self, infix_rfl⟩

theorem qconsume_mem {bs : List UInt8} (hbs : bs ∈ (q.qconsume n).2) :
    ∃ c ∈ q.bfirst, bs <:+: c.data := by
  rw [qconsume, consumeHead] at hbs
  split at hbs
  · exact absurd hbs (not_mem_none bs)
  · rename_i c bl hq
    obtain rfl : c.data.take (min n c.blen) = bs := some.inj hbs
    obtain ⟨d, hd, hcd⟩ := (Yields.skipEmpty (q := q) rfl).parts c (hq ▸ mem_cons_self)
    have hcut := take_prefix (min n c.blen) c.data
    exact ⟨d, hd, hcut.isInfix.trans hcd.isInfix⟩

theorem qbreadTake_mem (hb : b ∈ (q.qbreadTake n a).2) :
    ∃ c ∈ q.bfirst, b.data <:+: c.data := by
  rw [qbreadTake] at hb
  split at hb
  · exact absurd hb (not_mem_none b)
  · rename_i c bl hq
    rw [hq]
    refine ⟨c, mem_cons_self, ?_⟩
    split at hb
    · obtain rfl : c.take n = b := some.inj hb
      have hcut := take_prefix n c.data
      exact hcut.isInfix
    · obtain rfl : c = b := some.inj hb
      exact infix_rfl

/-! ### What goes onto a queue -/

/-- **A function that links blocks to the end of a queue.** -/
structure Puts (q q' : Queue) (bp : List Block) : Prop where
  accounted : q.Accounted → (addrs q.bfirst).Nodup → q'.Accounted
  bfirst_eq : q.Accounted → (addrs q.bfirst).Nodup → q'.bfirst = q.bfirst ++ bp
  mode_eq : q'.mode = q.mode

variable {o : Option Block}

namespace Puts

variable {q' q'' : Queue}

theorem refl (q : Queue) : Puts q q [] := ⟨fun h _ => h, fun _ _ => (append_nil _).symm, rfl⟩

theorem enqueue : Puts q (q.enqueue b bp) (b :: bp) :=
  ⟨fun h hnd => h.enqueue hnd, fun h hnd => h.bfirst_enqueue hnd, rfl⟩

theorem congr (h : Puts q q' bp) (hq : q''.bfirst = q'.bfirst) (hlen : q''.len = q'.len)
    (hdlen : q''.dlen = q'.dlen) (hblast : q''.blast = q'.blast) (hmode : q''.mode = q'.mode) :
    Puts q q'' bp where
  accounted ha hnd := (h.accounted ha hnd).of_eq hq hlen hdlen hblast
  bfirst_eq := by rw [hq]; exact h.bfirst_eq
  mode_eq := hmode.trans h.mode_eq

theorem qpasslim {lim : Bool} : ∃ l, (l = [] ∨ l = b :: bp) ∧ Puts q (q.qpasslim b bp lim).1 l := by
  rw [Queue.qpasslim]
  split_ifs
  · exact ⟨[], .inl rfl, refl q⟩
  · exact ⟨[], .inl rfl, refl q⟩
  · refine ⟨b :: bp, .inr rfl, enqueue.congr ?_ ?_ ?_ ?_ ?_⟩ <;> dsimp only <;> split <;> rfl

theorem qaddlist : Puts q (q.qaddlist b bp) (b :: bp) := enqueue

/-- `qproduce` puts its block on the queue, if it has one and does not return -1. -/
theorem qproduce :
    Puts q (q.qproduce o).1 (if (q.qproduce o).2 = none then [] else o.toList) := by
  unfold Queue.qproduce
  split_ifs with hfull h
  · exact (refl q).congr rfl rfl rfl rfl rfl
  · exact absurd rfl h
  · cases o with
    | none => exact refl q
    | some b =>
      rename_i h
      exact absurd h (some_ne_none _)
  · cases o with
    | none => exact refl q
    | some b => refine enqueue.congr ?_ ?_ ?_ ?_ ?_ <;> dsimp only <;> split <;> rfl

theorem qbwrite : Puts q (q.qbwrite b).1 (if (q.qbwrite b).2 = .queued then [b] else []) := by
  rw [Queue.qbwrite]
  split
  · exact refl q
  · split
    · exact refl q
    · exact enqueue.congr rfl rfl rfl rfl rfl

theorem qiwrite :
    Puts q (q.qiwrite o).1 (if (q.qiwrite o).2 then o.toList else []) := by
  unfold Queue.qiwrite
  split
  · exact refl q
  · split
    · exact refl q
    · exact enqueue.congr rfl rfl rfl rfl rfl

end Puts

theorem qproduce_eq_some (h : (q.qproduce o).2 = some n) :
    n = o.elim 0 fun b => b.blen := by
  unfold Queue.qproduce at h
  split at h
  · cases h
  · cases o with
    | none => exact (some.inj h).symm
    | some b => exact (some.inj h).symm

/-! ### What comes back -/

/-- The blocks that `qreadFinish` puts back. -/
def leftover (q : Queue) (rest : List Block) : List Block := if q.msg then [] else rest.take 1

theorem Accounted.qreadFinish (h : q.Accounted) (rest : List Block) :
    (q.qreadFinish rest).Accounted := by
  refine restart ?_
  split
  · exact h
  · split
    · exact h
    · exact h.qputback _

theorem mode_restart : q.restart.mode = q.mode := by
  rw [restart]
  split <;> rfl

theorem bfirst_restart : q.restart.bfirst = q.bfirst := by
  rw [restart]
  split <;> rfl

theorem mode_qreadFinish (rest : List Block) : (q.qreadFinish rest).mode = q.mode := by
  unfold qreadFinish
  rw [mode_restart]
  split
  · rfl
  · split <;> rfl

theorem bfirst_qreadFinish (rest : List Block) :
    (q.qreadFinish rest).bfirst = q.leftover rest ++ q.bfirst := by
  unfold qreadFinish
  rw [bfirst_restart, leftover]
  cases rest with
  | nil =>
    rw [List.take_nil, ite_self]
    rfl
  | cons b rest =>
    dsimp only
    split <;> rfl

end Queue

/-- What `bl2mem` copies and leaves. -/
theorem bytes_bl2mem : (bl2mem l n).1 ++ bytes (bl2mem l n).2 = bytes l := by
  induction l generalizing n with
  | nil => rfl
  | cons b l ih =>
    rw [bl2mem]
    split
    · rw [bytes_cons, ← append_assoc]
      exact congrArg (· ++ bytes l) (take_append_drop n b.data)
    · rw [append_assoc, ih, bytes_cons]

theorem addrs_bl2mem : (addrs (bl2mem l n).2).Sublist (addrs l) := by
  induction l generalizing n with
  | nil => exact .refl _
  | cons b l ih =>
    rw [bl2mem]
    split
    · exact .refl _
    · exact ih.trans (sublist_cons_self ..)

theorem length_bl2mem_le : (bl2mem l n).2.length ≤ l.length := by
  have hlen := (addrs_bl2mem (l := l) (n := n)).length_le
  rwa [addrs, addrs, length_map, length_map] at hlen

end Kernel

end Plan9
