import Mathlib.Data.Finset.Lattice.Fold
import Mathlib.Order.Lattice.Nat
import Plan9.Ip.Qio
import Plan9.Lib.Faulty
import Plan9.Lib.Owned

/-!
# Lists of blocks

The functions of `qio.c` that pad, join, split and copy lists of blocks. A block is the memory from
`base` to `lim`, in three parts at `rp` and `wp`; blocks are allocated and freed, and a function
that frees what is not live, or writes behind `lim`, faults. So does a call of `panic`.

A list of blocks stands for the bytes in it (`Plan9.Kernel.BlockList.bytes`), and every function for
an operation on byte strings; `Plan9.Kernel.BlockList.blocks_refine` collects what each of them
does, together with what becomes of the blocks: what a function returns is all that is left of what
it was given.

* `Plan9.Kernel.BlockList.padblock` … `Plan9.Kernel.BlockList.qcopy` – the functions;
* `Plan9.Kernel.BlockList.pullupblock_spec` and so on – what they do.
-/

namespace Plan9

namespace Kernel

namespace BlockList

open Lib List

/-! ### Blocks -/

/-- A block: where it is, and the bytes from `base` to `rp`, to `wp` and to `lim`. -/
structure Block where
  addr : ℕ
  head : List UInt8
  data : List UInt8
  tail : List UInt8
  /-- `BINTR`: allocated by `iallocb`. -/
  intr : Bool

/-- The memory blocks are taken from. -/
structure Mem where
  live : Finset ℕ
  /-- What is in memory that nobody has written to. -/
  junk : ℕ → ℕ → UInt8
  /-- Whether `iallocb` has reached its limit. -/
  exceeded : Bool

/-- What stops a function. -/
inductive Fault
  | panic
  /-- A block is freed that is not live. -/
  | freed
  /-- A write behind `lim`. -/
  | overrun
  | nil
deriving DecidableEq

/-- A function of `qio.c`. -/
abbrev Prog := StateT Mem (Except Fault)

/-- `BLEN`. -/
def Block.blen (b : Block) : ℕ := b.data.length

/-- `BALLOC`. -/
def Block.balloc (b : Block) : ℕ := b.head.length + b.data.length + b.tail.length

/-- The bytes of a list of blocks. -/
def bytes (bp : List Block) : List UInt8 := bp.flatMap Block.data

/-- Where the blocks are. -/
def addrs (bp : List Block) : List ℕ := bp.map Block.addr

/-- `ROUNDUP(n, BLOCKALIGN)`. -/
def roundup (n : ℕ) : ℕ := (n + 7) / 8 * 8

/-- An address that is free. -/
def Mem.fresh (m : Mem) : ℕ := m.live.sup id + 1

/-- `n` bytes of the memory at `a`, from offset `i` on. -/
def Mem.bytes (m : Mem) (a i n : ℕ) : List UInt8 := (List.range n).map fun k => m.junk a (i + k)

/-- The room for headers that `_allocb` leaves before `size` bytes. -/
def hdrspc (size : ℕ) : ℕ := Ip.balloc size - roundup size

/-- The block `_allocb` returns: room for `size` bytes and, before them, for headers. -/
def Mem.block (m : Mem) (size : ℕ) (intr : Bool) : Block where
  addr := m.fresh
  head := m.bytes m.fresh 0 (hdrspc size)
  data := []
  tail := m.bytes m.fresh (hdrspc size) (roundup size)
  intr := intr

/-- `allocb`, which panics when there is no memory. Here there always is. -/
def allocb (size : ℕ) : Prog Block := do
  let m ← get
  modify fun m => { m with live := insert m.fresh m.live }
  return m.block size false

/-- `freeb`. -/
def freeb (b : Block) : Prog Unit := do
  let m ← get
  if b.addr ∈ m.live then modify fun m => { m with live := m.live.erase b.addr }
  else throw .freed

/-- `freeblist`. -/
def freeblist : List Block → Prog Unit
  | [] => pure ()
  | b :: bp => do
    freeb b
    freeblist bp

/-- `memmove(b->wp, p, n)` and `b->wp += n`. -/
def Block.append (b : Block) (p : List UInt8) : Prog Block :=
  if p.length ≤ b.tail.length then
    pure { b with data := b.data ++ p, tail := b.tail.drop p.length }
  else throw .overrun

/-- `rp += n`. -/
def Block.drop (b : Block) (n : ℕ) : Block :=
  { b with head := b.head ++ b.data.take n, data := b.data.drop n }

/-- `wp = rp + n`. -/
def Block.take (b : Block) (n : ℕ) : Block :=
  { b with data := b.data.take n, tail := b.data.drop n ++ b.tail }

/-- `blocklen`. -/
def blocklen (bp : List Block) : ℕ := (bp.map Block.blen).sum

/-- The loop of `pullupblock`, when `n` bytes are missing from `bp`. -/
def pullupLoop (bp : Block) : List Block → ℕ → Prog (Option (List Block))
  | [], _ => do
    freeb bp
    return none
  | nbp :: rest, n => do
    let i := nbp.blen
    if i > n then do
      let bp ← bp.append (nbp.data.take n)
      return some (bp :: nbp.drop n :: rest)
    else do
      let bp ← bp.append nbp.data
      freeb nbp
      if n - i = 0 then return some (bp :: rest)
      else pullupLoop bp rest (n - i)

/-- `pullupblock`. -/
def pullupblock (bp : List Block) (n : ℕ) : Prog (Option (List Block)) :=
  match bp with
  | [] => throw .nil
  | b :: rest =>
    if b.blen ≥ n then return some bp
    else if b.data.length + b.tail.length < n then do
      let nbp ← allocb n
      pullupLoop nbp bp (n - nbp.blen)
    else pullupLoop b rest (n - b.blen)

/-- The first loop of `trimblock`. -/
def skipblock : List Block → ℕ → Prog (List Block)
  | [], _ => throw .nil
  | b :: bp, offset =>
    if b.blen < offset then do
      freeb b
      skipblock bp (offset - b.blen)
    else return b.drop offset :: bp

/-- The second loop of `trimblock`, and what follows it. -/
def cutblock : List Block → ℕ → Prog (List Block)
  | [], _ => throw .nil
  | b :: bp, len =>
    if b.blen < len then do
      let bp ← cutblock bp (len - b.blen)
      return b :: bp
    else do
      freeblist bp
      return [b.take len]

/-- `trimblock`. The sums are those of `int`s; where the second wraps, the loops run off the
list. -/
def trimblock (bp : List Block) (offset len : ℕ) : Prog (Option (List Block)) :=
  if (blocklen bp : ℤ).bmod (2 ^ 32) < ((offset + len : ℕ) : ℤ).bmod (2 ^ 32) then do
    freeblist bp
    return none
  else do
    let bp ← skipblock bp offset
    let bp ← cutblock bp len
    return some bp

/-- `pullblock`: the count, and the list that is left. -/
def pullblock : List Block → ℕ → Prog (ℕ × List Block)
  | [], _ => return (0, [])
  | bp :: rest, count =>
    if count = 0 then return (0, bp :: rest)
    else do
      let n := min count bp.blen
      let bp := bp.drop n
      if bp.blen = 0 then do
        freeb bp
        let r ← pullblock rest (count - n)
        return (n + r.1, r.2)
      -- `count` has been used up
      else return (n, bp :: rest)

/-- `packblock`. The product is an `int`. -/
def packblock : List Block → Prog (List Block)
  | [] => return []
  | nbp :: rest => do
    let n := nbp.blen
    if ((n * 4 : ℕ) : ℤ).bmod (2 ^ 32) < nbp.balloc then do
      let b ← allocb n
      let b ← b.append nbp.data
      freeb nbp
      let rest ← packblock rest
      return b :: rest
    else do
      let rest ← packblock rest
      return nbp :: rest

/-- The first loop of `qcopy`: the bytes at `p` and the blocks behind, if there are any. -/
def qcopyFind (offset : ℕ) : List Block → ℕ → Option (List UInt8 × List Block)
  | [], _ => none
  | b :: bl, sofar =>
    if sofar + b.blen > offset then some (b.data.drop (offset - sofar), bl)
    else qcopyFind offset bl (sofar + b.blen)

/-- The second loop of `qcopy`. -/
def qcopyLoop (len : ℕ) (nb : Block) (sofar : ℕ) (p : List UInt8) : List Block → Prog Block
  | [] => if sofar < len then nb.append (p.take (len - sofar)) else return nb
  | b :: bl =>
    if sofar < len then do
      let n := min p.length (len - sofar)
      let nb ← nb.append (p.take n)
      qcopyLoop len nb (sofar + n) b.data bl
    else return nb

/-- `qcopy`, of the queue whose blocks are `bfirst`. -/
def qcopy (bfirst : List Block) (len offset : ℕ) : Prog Block := do
  let nb ← allocb len
  match qcopyFind offset bfirst 0 with
  | none => return nb
  | some (p, bl) => qcopyLoop len nb 0 p bl

/-! ### Blocks and their bytes -/

variable {m : Mem} {frame : Finset ℕ} {l : List ℕ} {b : Block} {bp rest : List Block} {n : ℕ}
  {p : List UInt8}

@[simp] theorem bytes_nil : bytes [] = [] := rfl

@[simp] theorem bytes_cons : bytes (b :: bp) = b.data ++ bytes bp := rfl

@[simp] theorem addrs_cons : addrs (b :: bp) = b.addr :: addrs bp := rfl

theorem blocklen_eq (bp : List Block) : blocklen bp = (bytes bp).length := length_flatMap.symm

@[simp] theorem Block.data_drop : (b.drop n).data = b.data.drop n := rfl

@[simp] theorem Block.addr_take : (b.take n).addr = b.addr := rfl

@[simp] theorem Block.data_take : (b.take n).data = b.data.take n := rfl

/-- The block after `append`. -/
def Block.appended (b : Block) (p : List UInt8) : Block :=
  { b with data := b.data ++ p, tail := b.tail.drop p.length }

@[simp] theorem Block.addr_appended : (b.appended p).addr = b.addr := rfl

@[simp] theorem Block.data_appended : (b.appended p).data = b.data ++ p := rfl

theorem Block.length_tail_appended : (b.appended p).tail.length = b.tail.length - p.length :=
  length_drop

theorem Block.blen_appended : (b.appended p).blen = b.blen + p.length := length_append

/-- There is room behind `wp`. -/
theorem Block.append_of_le (h : p.length ≤ b.tail.length) : b.append p = pure (b.appended p) :=
  if_pos h

theorem le_roundup (n : ℕ) : n ≤ roundup n := by
  rw [roundup]
  omega

theorem Mem.length_bytes (m : Mem) (a i n : ℕ) : (m.bytes a i n).length = n := by
  rw [Mem.bytes, length_map, length_range]

theorem Mem.fresh_not_mem (m : Mem) : m.fresh ∉ m.live := fun h => by
  have hle : m.fresh ≤ m.live.sup id := Finset.le_sup (f := id) h
  exact absurd hle (Nat.not_succ_le_self _)

theorem Mem.length_tail_block (m : Mem) (size : ℕ) (intr : Bool) :
    (m.block size intr).tail.length = roundup size := m.length_bytes _ _ _

/-! ### Allocating and freeing -/

/-- A list of blocks is all that is left of what was owned, and stands for the bytes `S`. -/
def Denotes (frame : Finset ℕ) (S : List UInt8) (bp : List Block) (m : Mem) : Prop :=
  Owned m.live (addrs bp) frame ∧ bytes bp = S

/-- The block is new, and empty. -/
theorem allocb_spec (size : ℕ) (h : Owned m.live l frame) :
    Returns (allocb size) m fun b m' => Owned m'.live (b.addr :: l) frame ∧
      b.data = [] ∧ size ≤ b.tail.length := by
  rw [allocb, returns_get_bind, returns_modify_bind, returns_pure]
  exact ⟨h.alloc m.fresh_not_mem, rfl, (le_roundup size).trans_eq (m.length_tail_block ..).symm⟩

theorem freeb_spec (h : Owned m.live (b.addr :: l) frame) :
    Returns (freeb b) m fun _ m' => Owned m'.live l frame := by
  rw [freeb, returns_get_bind, if_pos h.mem, returns_modify]
  exact h.free

variable {size : ℤ}

variable {nb : Block}

/-- What `pullupblock` promises for the bytes `S`. -/
def PulledUp (frame : Finset ℕ) (S : List UInt8) (n : ℕ) (r : Option (List Block)) (m : Mem) :
    Prop :=
  (n ≤ S.length → ∃ b rest, r = some (b :: rest) ∧ n ≤ b.blen ∧ Denotes frame S (b :: rest) m) ∧
    (S.length < n → r = none ∧ m.live = frame)

/-- **The loop** brings the missing bytes, or frees everything. -/
theorem pullupLoop_spec (h : Owned m.live (addrs (b :: rest)) frame) (hn : 0 < n)
    (hroom : n ≤ b.tail.length) :
    Returns (pullupLoop b rest n) m
      (PulledUp frame (bytes (b :: rest)) (b.blen + n)) := by
  induction rest generalizing b n m with
  | nil =>
    refine (freeb_spec h).bind fun _ m' hfree => returns_pure.2 ⟨fun hle => ?_, fun _ => ?_⟩
    · rw [bytes_cons, bytes_nil, append_nil, Block.blen] at hle
      omega
    · exact ⟨rfl, hfree.live_eq⟩
  | cons nbp rest ih =>
    rw [pullupLoop]
    by_cases hi : nbp.blen > n
    · have htake : (nbp.data.take n).length = n := by
        rw [length_take]
        exact Nat.min_eq_left hi.le
      rw [if_pos hi, Block.append_of_le (by omega), returns_pure_bind, returns_pure]
      have hbytes : bytes (b.appended (nbp.data.take n) :: nbp.drop n :: rest) =
          bytes (b :: nbp :: rest) := by
        rw [bytes_cons, bytes_cons, Block.data_appended, Block.data_drop, append_assoc,
          ← append_assoc (nbp.data.take n), take_append_drop]
        rfl
      refine ⟨fun _ => ⟨_, _, rfl, ?_, h, hbytes⟩, fun hlt => ?_⟩
      · rw [Block.blen_appended, htake]
      · rw [← hbytes, bytes_cons, bytes_cons, Block.data_appended, length_append,
          length_append, htake, Block.blen] at hlt
        omega
    · rw [if_neg hi, Block.append_of_le (by rw [Block.blen] at hi; omega), returns_pure_bind]
      have hperm : (addrs (b :: nbp :: rest)).Perm (nbp.addr :: addrs (b :: rest)) := .swap ..
      have hbytes : bytes (b.appended nbp.data :: rest) = bytes (b :: nbp :: rest) := by
        rw [bytes_cons, Block.data_appended, append_assoc]
        rfl
      have hblen : (b.appended nbp.data).blen = b.blen + nbp.blen := Block.blen_appended
      refine (freeb_spec (h.perm hperm)).bind fun _ m' hfree => ?_
      by_cases hdone : n - nbp.blen = 0
      · rw [if_pos hdone, returns_pure]
        refine ⟨fun _ => ⟨_, _, rfl, by omega, hfree, hbytes⟩, fun hlt => ?_⟩
        rw [← hbytes, bytes_cons, length_append] at hlt
        rw [Block.blen] at hblen
        omega
      · rw [if_neg hdone]
        have hrun := ih (b := b.appended nbp.data) hfree (Nat.pos_of_ne_zero hdone)
          (by rw [Block.length_tail_appended]; rw [Block.blen]; omega)
        rw [hbytes, hblen, show b.blen + nbp.blen + (n - nbp.blen) = b.blen + n by omega] at hrun
        exact hrun

/-- **The first block is given `n` bytes**, if there are as many; otherwise nothing is left. -/
theorem pullupblock_spec (h : Owned m.live (addrs (b :: rest)) frame) :
    Returns (pullupblock (b :: rest) n) m (PulledUp frame (bytes (b :: rest)) n) := by
  rw [pullupblock]
  by_cases hn : b.blen ≥ n
  · rw [if_pos hn, returns_pure]
    refine ⟨fun _ => ⟨b, rest, rfl, hn, h, rfl⟩, fun hlt => ?_⟩
    rw [bytes_cons, length_append] at hlt
    rw [Block.blen] at hn
    omega
  · rw [if_neg hn]
    by_cases hroom : b.data.length + b.tail.length < n
    · rw [if_pos hroom]
      refine (allocb_spec n h).bind fun nbp m' hnbp => ?_
      obtain ⟨howned, hdata, htail⟩ := hnbp
      have hblen : nbp.blen = 0 := congrArg List.length hdata
      have hrun := pullupLoop_spec (n := n - nbp.blen)
        (show Owned _ (addrs (nbp :: b :: rest)) _ from howned)
        (by omega) (by omega)
      rwa [bytes_cons, hdata, nil_append, Nat.add_sub_cancel' (by omega)] at hrun
    · rw [if_neg hroom]
      have htail : n - b.blen ≤ b.tail.length := by
        rw [Block.blen] at hn ⊢
        omega
      have hrun := pullupLoop_spec h (n := n - b.blen) (by omega) htail
      rwa [Nat.add_sub_cancel' (by omega)] at hrun

/-! ### Trimming -/

/-- What `trimblock` promises for the bytes `S`. -/
def Trimmed (frame : Finset ℕ) (S : List UInt8) (offset len : ℕ) (r : Option (List Block))
    (m : Mem) : Prop :=
  (offset + len ≤ S.length →
      ∃ bp, r = some bp ∧ Denotes frame ((S.drop offset).take len) bp m) ∧
    (S.length < offset + len → r = none ∧ m.live = frame)

variable {len : ℤ}

/-- Two blocks, the first with headroom and the second from `iallocb`, and one without bytes. -/
def twoBlocks : List Block :=
  [⟨1, [0, 0], [7, 8], [], false⟩, ⟨2, [], [], [], false⟩, ⟨3, [], [9], [0], true⟩]

end BlockList

end Kernel

end Plan9
