import Plan9.Kernel.BlockList
import Plan9.Lib.Wire
import Plan9.Libc.U32

/-!
# Reading replies in the mount driver

`mntrpcread` of `devmnt.c`: the bytes of a channel come in lists of blocks and are queued; a message
is taken off the queue, its header pulled up into one block and the rest of it handed out as a list
of blocks, the last of which is split where the next message begins. What turns a header into a
structure (`convM2S`) is a parameter.

* `Plan9.Kernel.MntRead.mntrpcread` – the function, with the ones of `qio.c` it calls;
* `Plan9.Kernel.MntRead.mntrpcread_spec` – one message is consumed, and presented;
* `Plan9.Kernel.MntRead.mntrpcread_frames` – any number of messages, however the bytes come.
-/

namespace Plan9

open List

namespace Kernel

namespace MntRead

open Lib BlockList

export BlockList (Block bytes addrs blocklen bytes_nil bytes_cons blocklen_eq)

/-! ### The queue -/

/-- The queue of a mount point: its blocks, the last of them, and the count of bytes. -/
structure Queue where
  bfirst : List Block
  blast : ℕ
  dlen : ℤ

/-- The list after `p->next = bp`. -/
def link (p : ℕ) (bp : List Block) : List Block → List Block
  | [] => []
  | b :: l => if b.addr = p then b :: bp else b :: link p bp l

/-- `while(b->next) b = b->next`. -/
def lastAddr : Block → List Block → ℕ
  | b, [] => b.addr
  | _, b :: bp => lastAddr b bp

/-- `qaddlist`. -/
def Queue.qaddlist (q : Queue) : List Block → Queue
  | [] => q
  | b :: bp =>
    { bfirst := if q.bfirst.isEmpty then b :: bp else link q.blast (b :: bp) q.bfirst
      blast := lastAddr b bp
      dlen := q.dlen + blocklen (b :: bp) }

/-- `qremove`, when `b` is the first block. -/
def Queue.qremove (q : Queue) (b : Block) (bl : List Block) : Queue :=
  { q with bfirst := bl, dlen := q.dlen - b.blen }

/-- `qputback`. -/
def Queue.qputback (q : Queue) (b : Block) : Queue where
  bfirst := b :: q.bfirst
  blast := if q.bfirst.isEmpty then b.addr else q.blast
  dlen := q.dlen + b.blen

/-- The loop of `qdiscard`, with `n` bytes to go: how many have been discarded, and what is left. -/
def discard : List Block → ℕ → Prog (ℕ × List Block)
  | [], _ => return (0, [])
  | b :: bl, n =>
    if n = 0 then return (0, b :: bl)
    else if b.blen ≤ n then do
      freeb b
      let r ← discard bl (n - b.blen)
      return (b.blen + r.1, r.2)
    else return (n, b.drop n :: bl)

/-- `qdiscard`. -/
def Queue.qdiscard (q : Queue) (len : ℕ) : Prog Queue := do
  let r ← discard q.bfirst len
  return { q with bfirst := r.2, dlen := q.dlen - r.1 }

/-- `pullupqueue`. -/
def Queue.pullupqueue (q : Queue) (n : ℕ) : Prog Queue :=
  match q.bfirst with
  | [] => throw .nil
  | b :: bl =>
    if b.blen ≥ n then return q
    else do
      let r ← pullupblock (b :: bl) n
      match r with
      | none | some [] => return { q with bfirst := [], blast := 0 }
      | some (b :: bl) => return { q with bfirst := b :: bl, blast := lastAddr b bl }

/-! ### Messages -/

/-- `doread`, which reads `incoming` from the channel; whether it has returned 0. An empty list of
blocks is the end of the file. -/
def doread (q : Queue) : List (List Block) → ℤ → Prog (Bool × Queue × List (List Block))
  | incoming, len =>
    if q.dlen < len then
      match incoming with
      | [] => return (false, q, [])
      | b :: incoming =>
        if blocklen b = 0 then do
          freeblist b
          return (false, q, incoming)
        else doread (q.qaddlist b) incoming len
    else return (true, q, incoming)

/-- `Rread`. -/
def Rread : UInt8 := 117

/-- The loop that hangs the data off the structure: the data blocks, and the queue. For a message
that is shorter than its header the source goes back before `rp`; here that is a fault. -/
def hang (q : Queue) : List Block → ℤ → ℤ → Prog (List Block × Queue)
  | [], _, _ => throw .nil
  | b :: bl, hlen, len => do
    let q := q.qremove b bl
    let b := if hlen > 0 then b.drop hlen.toNat else b
    let len := if hlen > 0 then len - hlen else len
    if b.blen ≤ len then
      if len - b.blen > 0 then do
        let r ← hang q bl 0 (len - b.blen)
        return (b :: r.1, r.2)
      else return ([b], q)
    -- the block is split, and what is not used goes back
    else if len < 0 then throw .overrun
    else do
      let nb ← allocb (b.blen - len.toNat)
      let nb ← nb.append (b.data.drop len.toNat)
      return ([b.take len.toNat], q.qputback nb)

variable {R : Type} (conv : List UInt8 → ℕ → Option R)

/-- `mntrpcread` once all of the message is on the queue. -/
def present (len : ℤ) (q : Queue) : Prog (Option (R × List Block) × Queue) :=
  match q.bfirst with
  | [] => throw .nil
  | nb :: _ => do
    let hlen := if nb.data.getD 4 0 = Rread then 4 + 1 + 2 + 4 else len
    let q ← q.pullupqueue hlen.toNat
    match q.bfirst with
    | [] => throw .nil
    | nb :: bl =>
      match conv nb.data (len % 2 ^ 32).toNat with
      | none => do
        let q ← q.qdiscard len.toNat
        return (none, q)
      | some reply => do
        let r ← hang q (nb :: bl) hlen len
        return (some (reply, r.1), r.2)

/-- `mntrpcread`: the reply and its data, if 0 is returned, the queue, and what is still to come. -/
def mntrpcread (msize : Int32) (q : Queue) (incoming : List (List Block)) :
    Prog (Option (R × List Block) × Queue × List (List Block)) := do
  let d ← doread q incoming (4 + 1 + 2)
  if d.1 = false then return (none, d.2)
  else do
    let q ← d.2.1.pullupqueue (4 + 1 + 2)
    match q.bfirst with
    | [] => throw .nil
    | nb :: _ => do
      let len := Libc.int (leVal (nb.data.take 4))
      if len > msize.toInt then do
        let q ← q.qdiscard q.dlen.toNat
        return (none, q, d.2.2)
      else do
        let d ← doread q d.2.2 len
        if d.1 = false then return (none, d.2)
        else do
          let r ← present conv len d.2.1
          return (r.1, r.2, d.2.2)

/-- Successive calls, up to the first that fails. -/
def reads (msize : Int32) : ℕ → Queue → List (List Block) →
    Prog (List (R × List Block) × Queue × List (List Block))
  | 0, q, incoming => return ([], q, incoming)
  | n + 1, q, incoming => do
    let r ← mntrpcread conv msize q incoming
    match r.1 with
    | none => return ([], r.2)
    | some x => do
      let rs ← reads msize n r.2.1 r.2.2
      return (x :: rs.1, rs.2)

/-! ### The queue stays in order -/

variable {conv} {m : Mem} {frame : Finset ℕ} {l : List ℕ} {q : Queue} {b c : Block}
  {bp bl : List Block} {n : ℕ}

/-- The count is that of the bytes, and `blast` is the last block. -/
structure Queue.Ok (q : Queue) : Prop where
  dlen : q.dlen = (bytes q.bfirst).length
  blast : ∀ c ∈ q.bfirst.getLast?, q.blast = c.addr

theorem lastAddr_eq (hc : c ∈ (b :: bp).getLast?) : lastAddr b bp = c.addr := by
  induction bp generalizing b with
  | nil =>
    cases hc
    rfl
  | cons b' bp ih =>
    rw [List.getLast?_cons_cons] at hc
    exact ih hc

/-- Linking to the last block appends. -/
theorem link_last {l : List Block} (hnd : (addrs l).Nodup) (hc : c ∈ l.getLast?) :
    link c.addr bp l = l ++ bp := by
  induction l with
  | nil => cases hc
  | cons b l ih =>
    obtain ⟨hb, hnd⟩ := nodup_cons.1 hnd
    cases l with
    | nil =>
      obtain rfl : b = c := Option.some.inj hc
      rw [link, if_pos rfl, singleton_append]
    | cons b' l =>
      rw [List.getLast?_cons_cons] at hc
      have hne : b.addr ≠ c.addr := by
        intro heq
        rw [heq] at hb
        exact hb (mem_map_of_mem (List.mem_of_getLast? hc))
      rw [link, if_neg hne, ih hnd hc]
      rfl

theorem bytes_append (bp bl : List Block) : bytes (bp ++ bl) = bytes bp ++ bytes bl :=
  flatMap_append

theorem addrs_append (bp bl : List Block) : addrs (bp ++ bl) = addrs bp ++ addrs bl := map_append

/-- **A list is added** at the end. -/
theorem Queue.Ok.qaddlist (h : q.Ok) (hnd : (addrs q.bfirst).Nodup) (bp : List Block) :
    (q.qaddlist bp).Ok ∧ (q.qaddlist bp).bfirst = q.bfirst ++ bp := by
  cases bp with
  | nil => exact ⟨h, (append_nil _).symm⟩
  | cons b bp =>
    have hbfirst : (q.qaddlist (b :: bp)).bfirst = q.bfirst ++ b :: bp := by
      rw [Queue.qaddlist]
      dsimp only
      split_ifs with hempty
      · rw [List.isEmpty_iff.1 hempty, nil_append]
      · have hne : q.bfirst ≠ [] := fun heq => hempty (List.isEmpty_iff.2 heq)
        have hlast := List.getLast?_eq_some_getLast hne
        rw [h.blast _ hlast]
        exact link_last hnd hlast
    refine ⟨⟨?_, fun c hc => ?_⟩, hbfirst⟩
    · rw [hbfirst, bytes_append, length_append, Nat.cast_add, ← h.dlen, ← blocklen_eq]
      rfl
    · rw [hbfirst, List.getLast?_append_cons] at hc
      exact lastAddr_eq hc

/-- The first block is taken. -/
theorem Queue.Ok.qremove (h : q.Ok) (hq : q.bfirst = b :: bl) : (q.qremove b bl).Ok := by
  obtain ⟨hdlen, hblast⟩ := h
  rw [hq] at hdlen hblast
  refine ⟨?_, fun c hc => hblast c ?_⟩
  · rw [bytes_cons, length_append, Nat.cast_add] at hdlen
    change q.dlen - b.data.length = (bytes bl).length
    omega
  · cases bl with
    | nil => exact absurd hc (Option.not_mem_none c)
    | cons b' bl => rwa [List.getLast?_cons_cons]

/-- A block is put back. -/
theorem Queue.Ok.qputback (h : q.Ok) (b : Block) : (q.qputback b).Ok := by
  obtain ⟨hdlen, hblast⟩ := h
  refine ⟨?_, fun c hc => ?_⟩
  · rw [Queue.qputback, bytes_cons, length_append, Nat.cast_add, hdlen]
    exact add_comm _ _
  · cases hq : q.bfirst with
    | nil =>
      rw [Queue.qputback, hq] at hc ⊢
      obtain rfl : b = c := Option.some.inj hc
      rfl
    | cons b' bl =>
      rw [Queue.qputback, hq, List.getLast?_cons_cons] at hc
      rw [hq] at hblast
      rw [Queue.qputback, hq]
      exact hblast c hc

/-- **The head of the queue is pulled up**; no byte is lost. -/
theorem pullupqueue_spec (h : q.Ok) (howned : Owned m.live (addrs q.bfirst ++ l) frame)
    (hne : q.bfirst ≠ []) (hn : n ≤ (bytes q.bfirst).length) :
    Returns (q.pullupqueue n) m fun q' m' => q'.Ok ∧ (∃ b bl, q'.bfirst = b :: bl ∧ n ≤ b.blen) ∧
      bytes q'.bfirst = bytes q.bfirst ∧ Owned m'.live (addrs q'.bfirst ++ l) frame := by
  obtain ⟨b, bl, hq⟩ := exists_cons_of_ne_nil hne
  rw [Queue.pullupqueue, hq]
  rw [hq] at howned hn
  dsimp only
  by_cases hblen : b.blen ≥ n
  · rw [if_pos hblen, returns_pure, hq]
    exact ⟨h, ⟨b, bl, rfl, hblen⟩, rfl, howned⟩
  · rw [if_neg hblen]
    refine (pullupblock_spec howned.split).bind fun r m' hr => ?_
    obtain ⟨b', bl', rfl, hblen', howned', hbytes⟩ := hr.1 hn
    refine returns_pure.2 ⟨⟨?_, fun c hc => lastAddr_eq hc⟩, ⟨b', bl', rfl, hblen'⟩, hbytes,
      howned.join howned'⟩
    rw [hbytes, ← hq]
    exact h.dlen

/-! ### Reading -/

/-- The bytes that are still to come. -/
def coming (incoming : List (List Block)) : List UInt8 := incoming.flatMap bytes

/-- The blocks they are in. -/
def blocks (incoming : List (List Block)) : List ℕ := incoming.flatMap addrs

variable {incoming : List (List Block)}

/-- **Enough is read**, and added to the queue in order. -/
theorem doread_spec (len : ℤ) (h : q.Ok)
    (howned : Owned m.live (addrs q.bfirst ++ (blocks incoming ++ l)) frame)
    (hne : ∀ bp ∈ incoming, bytes bp ≠ [])
    (hlen : len ≤ (bytes q.bfirst ++ coming incoming).length) :
    Returns (doread q incoming len) m fun d m' => d.1 = true ∧ d.2.1.Ok ∧
      (∃ added, d.2.1.bfirst = q.bfirst ++ added) ∧
      Owned m'.live (addrs d.2.1.bfirst ++ (blocks d.2.2 ++ l)) frame ∧
      (∀ bp ∈ d.2.2, bytes bp ≠ []) ∧ len ≤ (bytes d.2.1.bfirst).length ∧
      bytes d.2.1.bfirst ++ coming d.2.2 = bytes q.bfirst ++ coming incoming := by
  induction incoming generalizing q with
  | nil =>
    have hq : ¬q.dlen < len := by
      rw [h.dlen]
      rw [coming, flatMap_nil, append_nil] at hlen
      omega
    rw [doread, if_neg hq, returns_pure]
    exact ⟨rfl, h, ⟨[], (append_nil _).symm⟩, howned, hne, by rw [← h.dlen]; omega, rfl⟩
  | cons bp incoming ih =>
    rw [doread]
    by_cases hq : q.dlen < len
    · have hbp : blocklen bp ≠ 0 := by
        rw [blocklen_eq]
        exact fun h0 => hne bp mem_cons_self (length_eq_zero_iff.1 h0)
      have hnd : (addrs q.bfirst).Nodup := howned.nodup.of_append_left
      obtain ⟨hok, hbfirst⟩ := h.qaddlist hnd bp
      have hbytes : bytes (q.qaddlist bp).bfirst ++ coming incoming =
          bytes q.bfirst ++ coming (bp :: incoming) := by
        rw [hbfirst, bytes_append, append_assoc]
        rfl
      have haddrs : addrs (q.qaddlist bp).bfirst ++ (blocks incoming ++ l) =
          addrs q.bfirst ++ (blocks (bp :: incoming) ++ l) := by
        rw [hbfirst, addrs_append, blocks, blocks, flatMap_cons]
        simp only [append_assoc]
      rw [if_pos hq, if_neg hbp, ← hbytes]
      refine (ih hok (by rwa [haddrs]) (fun bp' hbp' => hne bp' (mem_cons_of_mem _ hbp'))
        (by rwa [hbytes])).mono fun d m' hd => ?_
      obtain ⟨hd, hok, ⟨added, hadded⟩, hrest⟩ := hd
      exact ⟨hd, hok, ⟨bp ++ added, by rw [hadded, hbfirst, append_assoc]⟩, hrest⟩
    · rw [if_neg hq, returns_pure]
      exact ⟨rfl, h, ⟨[], (append_nil _).symm⟩, howned, hne, by rw [← h.dlen]; omega, rfl⟩

/-! ### Handing out the data -/

/-- What `hang` promises: the bytes `X` are handed out up to the `n`th, the rest stays. -/
def Hung (l : List ℕ) (frame : Finset ℕ) (X : List UInt8) (n : ℕ) (r : List Block × Queue)
    (m : Mem) : Prop :=
  bytes r.1 = X.take n ∧ bytes r.2.bfirst = X.drop n ∧ r.2.Ok ∧
    Owned m.live (addrs r.1 ++ (addrs r.2.bfirst ++ l)) frame

/-- **One block** is handed out: all of it, which is the end if nothing more is wanted, or a
part. -/
theorem hang_block {b' : Block} {r : Prog (List Block × Queue)} (h : q.Ok)
    (haddr : b'.addr = b.addr)
    (howned : Owned m.live (b.addr :: (addrs q.bfirst ++ l)) frame)
    (hmore : b'.blen < n → Returns r m (Hung (b.addr :: l) frame (bytes q.bfirst) (n - b'.blen))) :
    Returns (if (b'.blen : ℤ) ≤ n then
        if (n : ℤ) - b'.blen > 0 then r >>= fun r => pure (b' :: r.1, r.2)
        else pure ([b'], q)
      else if (n : ℤ) < 0 then throw .overrun
      else allocb (b'.blen - n) >>= fun nb => nb.append (b'.data.drop n) >>= fun nb =>
        pure ([b'.take n], q.qputback nb)) m (Hung l frame (bytes (b' :: q.bfirst)) n) := by
  rcases Nat.lt_trichotomy b'.blen n with hlt | heq | hgt
  · rw [if_pos (by omega), if_pos (by omega)]
    refine (hmore hlt).bind fun r m' hr => returns_pure.2 ?_
    obtain ⟨hdata, hrest, hok, howned⟩ := hr
    refine ⟨?_, ?_, hok, ?_⟩
    · rw [bytes_cons, bytes_cons, hdata, take_append, take_of_length_le hlt.le]
      rfl
    · rw [hrest, bytes_cons, drop_append, drop_of_length_le hlt.le, nil_append]
      rfl
    · refine howned.perm ?_
      rw [addrs_cons, haddr, ← append_assoc, ← append_assoc]
      exact perm_middle
  · rw [if_pos (by omega), if_neg (by omega), returns_pure]
    refine ⟨?_, ?_, h, by rwa [addrs_cons, haddr]⟩
    · rw [bytes_cons, bytes_cons, bytes_nil, append_nil, ← heq]
      exact (take_left' rfl).symm
    · rw [bytes_cons, ← heq]
      exact (drop_left' rfl).symm
  · rw [if_neg (by omega), if_neg (by omega)]
    refine (allocb_spec (b'.blen - n) howned).bind fun nb m' hnb => ?_
    obtain ⟨howned', hdata, hroom⟩ := hnb
    have hlen : (b'.data.drop n).length ≤ nb.tail.length := by
      rw [length_drop]
      exact hroom
    rw [BlockList.Block.append_of_le hlen, returns_pure_bind, returns_pure]
    refine ⟨?_, ?_, h.qputback _, ?_⟩
    · rw [bytes_cons, bytes_cons, bytes_nil, append_nil, BlockList.Block.data_take,
        take_append_of_le_length hgt.le]
    · rw [Queue.qputback, bytes_cons, bytes_cons, BlockList.Block.data_appended, hdata, nil_append,
        drop_append_of_le_length hgt.le]
    · rw [Queue.qputback, addrs_cons, addrs_cons, BlockList.Block.addr_appended,
        BlockList.Block.addr_take, haddr]
      exact howned'.perm (.swap ..)

/-- **Behind the first block** there is no header. -/
theorem hang_spec (h : q.Ok) (howned : Owned m.live (addrs q.bfirst ++ l) frame)
    (hn : 0 < n) (hle : n ≤ (bytes q.bfirst).length) :
    Returns (hang q q.bfirst 0 n) m (Hung l frame (bytes q.bfirst) n) := by
  obtain ⟨bl, hbl⟩ : ∃ bl, q.bfirst = bl := ⟨_, rfl⟩
  rw [hbl] at howned hle ⊢
  induction bl generalizing q n l with
  | nil =>
    rw [bytes_nil, length_nil] at hle
    omega
  | cons b bl ih =>
    have hok := h.qremove hbl
    rw [hang, if_neg (lt_irrefl 0), if_neg (lt_irrefl 0), Int.toNat_natCast]
    refine hang_block (q := q.qremove b bl) (b := b) hok rfl howned fun hlt => ?_
    rw [show (n : ℤ) - b.blen = (n - b.blen : ℕ) by omega]
    rw [bytes_cons, length_append] at hle
    have hrest : n - b.blen ≤ (bytes bl).length := by
      rw [BlockList.Block.blen]
      omega
    exact ih (q := q.qremove b bl) hok (by omega) hrest (howned.perm perm_middle.symm) rfl

/-- **The first block** gives up its header. -/
theorem hang_first {hlen : ℕ} (h : q.Ok) (hq : q.bfirst = b :: bl)
    (howned : Owned m.live (addrs q.bfirst ++ l) frame) (hpos : 0 < hlen) (hb : hlen ≤ b.blen)
    (hn : hlen ≤ n) (hle : n ≤ (bytes q.bfirst).length) :
    Returns (hang q (b :: bl) hlen n) m
      (Hung l frame ((bytes q.bfirst).drop hlen) (n - hlen)) := by
  have hok := h.qremove hq
  rw [hq] at howned hle ⊢
  rw [bytes_cons, length_append] at hle
  have hdrop : (b.drop hlen).blen = b.blen - hlen := length_drop
  have hbytes : (bytes (b :: bl)).drop hlen = bytes (b.drop hlen :: bl) := by
    rw [bytes_cons, bytes_cons, BlockList.Block.data_drop, drop_append_of_le_length hb]
  have hpos' : (hlen : ℤ) > 0 := by omega
  have hsub : (n : ℤ) - hlen = (n - hlen : ℕ) := by omega
  rw [hang, hbytes]
  simp only [if_pos hpos', hsub, Int.toNat_natCast]
  refine hang_block (q := q.qremove b bl) (b := b) hok rfl howned fun hlt => ?_
  have hsub' : ((n - hlen : ℕ) : ℤ) - (b.drop hlen).blen = (n - hlen - (b.drop hlen).blen : ℕ) := by
    omega
  have hrest : n - hlen - (b.drop hlen).blen ≤ (bytes bl).length := by
    rw [hdrop, BlockList.Block.blen]
    omega
  rw [hsub']
  exact hang_spec (q := q.qremove b bl) hok (howned.perm perm_middle.symm) (by omega) hrest

/-! ### One message -/

/-- The header of a message: everything except the data of an `Rread`. -/
def hdrlen (msg : List UInt8) : ℕ := if msg.getD 4 0 = Rread then 4 + 1 + 2 + 4 else msg.length

/-- **A well-formed message**, and the structure that its header is turned into, whatever follows it
in memory. -/
structure WellFormed (conv : List UInt8 → ℕ → Option R) (msize : Int32) (msg : List UInt8)
    (reply : R) : Prop where
  size : leVal (msg.take 4) = msg.length
  complete : 4 + 1 + 2 ≤ msg.length
  fits : msg.length ≤ msize.toInt
  header : hdrlen msg ≤ msg.length
  accepted : ∀ post, conv (msg.take (hdrlen msg) ++ post) msg.length = some reply

variable {msize : Int32} {msg : List UInt8}

theorem WellFormed.hdrlen_ge {reply : R} (h : WellFormed conv msize msg reply) :
    4 + 1 + 2 ≤ hdrlen msg := by
  rw [hdrlen]
  split_ifs
  · norm_num
  · exact h.complete

theorem WellFormed.length_lt {reply : R} (h : WellFormed conv msize msg reply) :
    msg.length < 2 ^ 31 := by
  have := h.fits
  have := msize.toInt_lt
  omega

variable {rest : List UInt8}

/-- The first bytes of a block at the head of the queue are those of the message. -/
theorem take_of_head {bl : List Block} (h : bytes (b :: bl) = msg ++ rest) (hn : n ≤ b.blen)
    (hmsg : n ≤ msg.length) :
    b.data.take n = msg.take n := by
  rw [← @take_append_of_le_length _ _ (bytes bl) _ hn, ← bytes_cons, h,
    take_append_of_le_length hmsg]

theorem present_spec {reply : R} (hmsg : WellFormed conv msize msg reply) (h : q.Ok)
    (howned : Owned m.live (addrs q.bfirst ++ l) frame) (hb : q.bfirst = b :: bl)
    (hblen : 4 + 1 + 2 ≤ b.blen) (hbytes : bytes q.bfirst = msg ++ rest) :
    Returns (present conv msg.length q) m fun r m' => ∃ data, r.1 = some (reply, data) ∧
      bytes data = msg.drop (hdrlen msg) ∧ bytes r.2.bfirst = rest ∧ r.2.Ok ∧
        Owned m'.live (addrs data ++ (addrs r.2.bfirst ++ l)) frame := by
  have hlen : (bytes q.bfirst).length = msg.length + rest.length := by
    rw [hbytes, length_append]
  have hhdr := hmsg.header
  have hcomplete := hmsg.complete
  -- the type is in the first block
  have htype : b.data.getD 4 0 = msg.getD 4 0 := by
    have htake := take_of_head (hb ▸ hbytes) (n := 5) (by omega) (by omega)
    rw [List.getD_eq_getElem?_getD, List.getD_eq_getElem?_getD,
      ← List.getElem?_take_of_lt (show 4 < 5 by omega), htake,
      List.getElem?_take_of_lt (show 4 < 5 by omega)]
  have hhlen : (if b.data.getD 4 0 = Rread then 4 + 1 + 2 + 4 else (msg.length : ℤ)) =
      hdrlen msg := by
    rw [htype, hdrlen]
    split_ifs <;> rfl
  rw [present, hb]
  dsimp only
  rw [hhlen, Int.toNat_natCast]
  refine (pullupqueue_spec (n := hdrlen msg) h howned (by rw [hb]; exact cons_ne_nil _ _)
    (by omega)).bind fun q' m' hq' => ?_
  obtain ⟨hok, ⟨nb, bl', hq', hnb⟩, hbytes', howned'⟩ := hq'
  rw [hbytes] at hbytes'
  have hconv : conv nb.data ((msg.length : ℤ) % 2 ^ 32).toNat = some reply := by
    have htake := take_of_head (hq' ▸ hbytes') hnb hhdr
    have hmod : ((msg.length : ℤ) % 2 ^ 32).toNat = msg.length := by
      have := hmsg.length_lt
      omega
    rw [hmod, ← take_append_drop (hdrlen msg) nb.data, htake]
    exact hmsg.accepted _
  rw [hq']
  dsimp only
  rw [hconv]
  refine (hang_first hok hq' howned' (by have := hmsg.hdrlen_ge; omega) hnb hhdr ?_).bind
    fun r m'' hr => returns_pure.2 ?_
  · rw [hbytes', length_append]
    omega
  · obtain ⟨hdata, hrest, hok', howned''⟩ := hr
    rw [hbytes', drop_append_of_le_length hhdr] at hdata hrest
    refine ⟨r.1, rfl, ?_, ?_, hok', howned''⟩
    · rw [hdata, take_append_of_le_length (by rw [length_drop]), take_of_length_le]
      rw [length_drop]
    · rw [hrest, drop_append, drop_drop, length_drop, Nat.sub_self, drop_zero,
        drop_of_length_le (by omega), nil_append]

/-- **A call consumes one message**, and presents it. -/
theorem mntrpcread_spec {reply : R} (hmsg : WellFormed conv msize msg reply) (h : q.Ok)
    (howned : Owned m.live (addrs q.bfirst ++ (blocks incoming ++ l)) frame)
    (hne : ∀ bp ∈ incoming, bytes bp ≠ [])
    (hbytes : bytes q.bfirst ++ coming incoming = msg ++ rest) :
    Returns (mntrpcread conv msize q incoming) m fun r m' => ∃ data, r.1 = some (reply, data) ∧
      bytes data = msg.drop (hdrlen msg) ∧ bytes r.2.1.bfirst ++ coming r.2.2 = rest ∧ r.2.1.Ok ∧
        (∀ bp ∈ r.2.2, bytes bp ≠ []) ∧
        Owned m'.live (addrs r.2.1.bfirst ++ (blocks r.2.2 ++ (addrs data ++ l))) frame := by
  have hcomplete := hmsg.complete
  have hall : (bytes q.bfirst ++ coming incoming).length = msg.length + rest.length := by
    rw [hbytes, length_append]
  rw [mntrpcread]
  refine (doread_spec (4 + 1 + 2) h howned hne (by omega)).bind fun d m₁ hd => ?_
  obtain ⟨hd₁, hok₁, -, howned₁, hne₁, hlen₁, hbytes₁⟩ := hd
  rw [if_neg (by rw [hd₁]; exact Bool.noConfusion)]
  refine (pullupqueue_spec (n := 4 + 1 + 2) hok₁ howned₁ ?_ (by omega)).bind fun q₂ m₂ hq₂ => ?_
  · intro hnil
    rw [hnil, bytes_nil, length_nil] at hlen₁
    omega
  obtain ⟨hok₂, ⟨nb, bl, hq₂, hnb⟩, hbytes₂, howned₂⟩ := hq₂
  have hstream : bytes q₂.bfirst ++ coming d.2.2 = msg ++ rest := by rw [hbytes₂, hbytes₁, hbytes]
  have hlen : Libc.int (leVal (nb.data.take 4)) = msg.length := by
    have htake : nb.data.take 4 = msg.take 4 := by
      have hcat : nb.data ++ (bytes bl ++ coming d.2.2) = msg ++ rest := by
        rw [← hstream, hq₂, bytes_cons, append_assoc]
      rw [← @take_append_of_le_length _ _ (bytes bl ++ coming d.2.2) _
        (show 4 ≤ nb.data.length by rw [BlockList.Block.blen] at hnb; omega), hcat,
        take_append_of_le_length (by omega)]
    rw [htake, hmsg.size, Libc.int, Int.bmod_def]
    have := hmsg.length_lt
    split_ifs <;> omega
  rw [hq₂]
  dsimp only
  rw [hlen, if_neg (Int.not_lt.2 hmsg.fits)]
  refine (doread_spec msg.length hok₂ howned₂ hne₁ ?_).bind fun d' m₃ hd' => ?_
  · rw [hstream, length_append]
    omega
  obtain ⟨hd₃, hok₃, ⟨added, hadded⟩, howned₃, hne₃, hlen₃, hbytes₃⟩ := hd'
  rw [if_neg (by rw [hd₃]; exact Bool.noConfusion)]
  rw [hq₂, cons_append] at hadded
  -- what is on the queue now begins with the message
  have hprefix : bytes d'.2.1.bfirst = msg ++ (bytes d'.2.1.bfirst).drop msg.length := by
    have htake : (bytes d'.2.1.bfirst).take msg.length = msg := by
      rw [← @take_append_of_le_length _ _ (coming d'.2.2) _ (by omega), hbytes₃, hstream, take_left]
    nth_rewrite 1 [← take_append_drop msg.length (bytes d'.2.1.bfirst), htake]
    rfl
  refine (present_spec hmsg hok₃ howned₃ hadded hnb hprefix).bind fun r m₄ hr => returns_pure.2 ?_
  obtain ⟨data, hreply, hdata, hrest, hok₄, howned₄⟩ := hr
  refine ⟨data, hreply, hdata, ?_, hok₄, hne₃, howned₄.perm ?_⟩
  · rw [hrest, ← drop_append_of_le_length (by omega), hbytes₃, hstream, drop_left]
  · have hperm : (addrs data ++ (addrs r.2.bfirst ++ blocks d'.2.2)).Perm
        ((addrs r.2.bfirst ++ blocks d'.2.2) ++ addrs data) := perm_append_comm
    simpa only [append_assoc] using hperm.append_right l

/-! ### Any number of messages -/

/-- **Framing does not depend on read boundaries**: successive calls consume one message each and
present just its bytes, and what follows the messages is still there. -/
theorem mntrpcread_frames {msize : Int32} {msgs : List (List UInt8 × R)} {rest : List UInt8}
    {incoming : List (List Block)} (hmsgs : ∀ x ∈ msgs, WellFormed conv msize x.1 x.2) (h : q.Ok)
    (howned : Owned m.live (addrs q.bfirst ++ (blocks incoming ++ l)) frame)
    (hne : ∀ bp ∈ incoming, bytes bp ≠ [])
    (hbytes : bytes q.bfirst ++ coming incoming = (msgs.map Prod.fst).flatten ++ rest) :
    Returns (reads conv msize msgs.length q incoming) m fun r m' =>
      r.1.map (fun x => (x.1, bytes x.2)) = msgs.map (fun x => (x.2, x.1.drop (hdrlen x.1))) ∧
        bytes r.2.1.bfirst ++ coming r.2.2 = rest ∧ r.2.1.Ok ∧
        Owned m'.live (addrs r.2.1.bfirst ++
          (blocks r.2.2 ++ ((r.1.flatMap fun x => addrs x.2) ++ l))) frame := by
  induction msgs generalizing m q incoming l with
  | nil => exact returns_pure.2 ⟨rfl, hbytes, h, howned⟩
  | cons x msgs ih =>
    rw [List.map_cons, List.flatten_cons, List.append_assoc] at hbytes
    rw [List.length_cons, reads]
    refine (mntrpcread_spec (hmsgs x List.mem_cons_self) h howned hne hbytes).bind
      fun r m₁ hr => ?_
    obtain ⟨data, hreply, hdata, hrest, hok, hne', howned'⟩ := hr
    rw [hreply]
    dsimp only
    refine (ih (fun y hy => hmsgs y (List.mem_cons_of_mem _ hy)) hok howned' hne' hrest).bind
      fun rs m₂ hrs => returns_pure.2 ?_
    obtain ⟨hmap, hrest', hok', howned''⟩ := hrs
    refine ⟨?_, hrest', hok', howned''.perm ?_⟩
    · rw [List.map_cons, List.map_cons, hmap, hdata]
    · rw [List.flatMap_cons]
      have hperm : ((rs.1.flatMap fun x => addrs x.2) ++ (addrs data ++ l)).Perm
          ((addrs data ++ rs.1.flatMap fun x => addrs x.2) ++ l) := by
        rw [← List.append_assoc]
        exact List.perm_append_comm.append_right l
      exact (hperm.append_left _).append_left _

/-- The message `Rclunk` with tag 1, which begins in one block and ends in another. -/
def rclunk : List Block := [⟨1, [], [7, 0, 0], [], false⟩, ⟨2, [], [0, 121, 1, 0, 11], [], false⟩]

/-- Memory with these blocks. -/
def twoBlocks : Mem := ⟨{1, 2}, fun _ _ => 0, false⟩

/-- The tag of an `Rclunk`. -/
def clunkTag (data : List UInt8) (len : ℕ) : Option ℕ :=
  if data.getD 4 0 = 121 ∧ len = 7 then some (leVal ((data.drop 5).take 2)) else none

theorem mntrpcread_frames_rclunk :
    Returns (reads clunkTag 256 1 ⟨[], 0, 0⟩ [rclunk]) twoBlocks fun r m' =>
      r.1.map (fun x => (x.1, bytes x.2)) = [(1, [])] ∧
        bytes r.2.1.bfirst ++ coming r.2.2 = [11] ∧ r.2.1.Ok ∧
        Owned m'.live (addrs r.2.1.bfirst ++
          (blocks r.2.2 ++ ((r.1.flatMap fun x => addrs x.2) ++ []))) ∅ := by
  refine mntrpcread_frames
    (?_ : ∀ x ∈ [([7, 0, 0, 0, 121, 1, 0], 1)], WellFormed clunkTag 256 x.1 x.2) ?_ ?_ ?_ ?_
  · intro x hx
    rw [List.mem_singleton.1 hx]
    exact ⟨by decide, by decide, by decide, by decide, fun post => rfl⟩
  · exact ⟨rfl, fun c hc => absurd hc (Option.not_mem_none c)⟩
  · exact ⟨by decide, by simp [twoBlocks, addrs, blocks, rclunk], by simp⟩
  · intro bp hbp
    rw [List.mem_singleton.1 hbp]
    exact List.cons_ne_nil _ _
  · rfl

/-- A message longer than `msize` is not presented, and all that is on the queue is thrown away. -/
theorem mntrpcread_long (hq : q.bfirst = b :: bl) (hdlen : 4 + 1 + 2 ≤ q.dlen)
    (hb : 4 + 1 + 2 ≤ b.blen) (hlong : msize.toInt < Libc.int (leVal (b.data.take 4))) :
    mntrpcread conv msize q incoming = do
      let q ← q.qdiscard q.dlen.toNat
      return (none, q, incoming) := by
  have hread : doread q incoming (4 + 1 + 2) = pure (true, q, incoming) := by
    rw [doread.eq_def]
    exact if_neg (Int.not_lt.2 hdlen)
  have hpull : q.pullupqueue (4 + 1 + 2) = pure q := by
    rw [Queue.pullupqueue, hq]
    exact if_pos hb
  rw [mntrpcread, hread, pure_bind]
  dsimp only
  rw [if_neg Bool.noConfusion, hpull, pure_bind, hq]
  exact if_pos hlong

/-- An `Rread` of 257 bytes. -/
def rread257 : List UInt8 := [1, 1, 0, 0, 117, 1, 0, 246, 0, 0, 0] ++ List.replicate 246 5

set_option maxRecDepth 10000 in
/-- It is not longer than `msize + IOHDRSZ`, if `msize` is 256, and is not presented. -/
theorem mntrpcread_rread257 :
    WellFormed (fun _ _ => some ()) (256 + 24) rread257 () ∧
      ¬Returns (mntrpcread (fun _ _ => some ()) 256 ⟨[⟨1, [], rread257, [], false⟩], 1, 257⟩ [])
        ⟨{1}, fun _ _ => 0, false⟩
        fun r _ => ∃ data, r.1 = some ((), data) ∧ bytes data = rread257.drop 11 := by
  refine ⟨⟨by decide, by decide, by decide, by decide, fun _ => rfl⟩, ?_⟩
  rw [mntrpcread_long rfl (by decide) (by decide) (by decide)]
  rintro ⟨r, m', hrun, data, hr, -⟩
  rw [StateT.run_bind] at hrun
  cases hdiscard : (Queue.qdiscard ⟨[⟨1, [], rread257, [], false⟩], 1, 257⟩ 257).run
      ⟨{1}, fun _ _ => 0, false⟩ with
  | error e =>
    rw [show (257 : ℤ).toNat = 257 from rfl, hdiscard] at hrun
    cases hrun
  | ok s =>
    rw [show (257 : ℤ).toNat = 257 from rfl, hdiscard] at hrun
    obtain ⟨rfl, -⟩ := Prod.mk.inj (Except.ok.inj hrun)
    cases hr

end MntRead

end Kernel

end Plan9
