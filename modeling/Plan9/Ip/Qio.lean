import Mathlib.Algebra.Order.BigOperators.Group.List
import Mathlib.Algebra.Order.Ring.Nat
import Mathlib.Data.List.Basic

/-!
# Blocks and queues

The kernel's blocks and the queues of blocks, as far as a stream protocol uses
them: a block is the bytes between `rp` and `wp` and the size of the buffer
around them, and a queue counts both, the bytes for the protocol
(`Plan9.Ip.Queue.dlen`) and the buffers for the limit (`Plan9.Ip.Queue.len`).

What is delicate is which of the two a test looks at. `qpasslim` compares the
buffers with the limit, and does so before it looks at whether it was asked to:
`Plan9.Ip.Queue.qpassnolim` throws the blocks away when the buffers in the queue
have reached the limit, whatever the bytes come to, and takes them otherwise
(`Plan9.Ip.Queue.all_qpassnolim`).

`Plan9.Ip.Queue.gone` is not in the source: it records what has left a queue, so
that `Plan9.Ip.Queue.all` is all that was ever put in.
-/

namespace Plan9

namespace Ip

open List

/-! ### Blocks -/

/-- A block: the bytes between `rp` and `wp`, and the size `BALLOC` of the buffer they are in. -/
structure Block where
  data : List UInt8
  alloc : ℕ
  le : data.length ≤ alloc
  deriving DecidableEq

/-- `BLEN`. -/
def Block.blen (b : Block) : ℕ := b.data.length

/-- `rp += n`. -/
def Block.drop (b : Block) (n : ℕ) : Block :=
  ⟨b.data.drop n, b.alloc, (List.drop_sublist ..).length_le.trans b.le⟩

/-- `wp = rp + n`. -/
def Block.take (b : Block) (n : ℕ) : Block :=
  ⟨b.data.take n, b.alloc, (List.take_sublist ..).length_le.trans b.le⟩

/-- The bytes of a list of blocks. -/
def bytes (bp : List Block) : List UInt8 := bp.flatMap Block.data

def blocklen (bp : List Block) : ℕ := (bp.map Block.blen).sum

/-- The size of the buffer that `allocb` gets for `size` bytes. -/
def balloc (size : ℕ) : ℕ := 8 + (size + 64 + 7) / 8 * 8

theorem le_balloc (size : ℕ) : size ≤ balloc size := by
  rw [balloc]
  omega

/-- A block whose bytes are out of all proportion to its buffer is copied to a small one. -/
def packblock (bp : List Block) : List Block :=
  bp.map fun b => if b.blen * 4 < b.alloc then ⟨b.data, balloc b.blen, le_balloc b.blen⟩ else b

def pullblock : List Block → ℕ → List Block
  | [], _ => []
  | b :: bp, count =>
    if count = 0 then b :: bp
    else if b.blen ≤ count then pullblock bp (count - b.blen)
    else b.drop count :: bp

/-- The blocks from `offset` on: `trimblock` begins with these. -/
def skipblock : List Block → ℕ → List Block
  | [], _ => []
  | b :: bp, offset =>
    if b.blen < offset then skipblock bp (offset - b.blen) else b.drop offset :: bp

/-- The first `len` bytes: `trimblock` ends with these. -/
def cutblock : List Block → ℕ → List Block
  | [], _ => []
  | b :: bp, len => if b.blen < len then b :: cutblock bp (len - b.blen) else [b.take len]

def trimblock (bp : List Block) (offset len : ℕ) : Option (List Block) :=
  if blocklen bp < offset + len then none else some (cutblock (skipblock bp offset) len)

@[simp] theorem bytes_nil : bytes [] = [] := rfl

@[simp] theorem bytes_cons (b : Block) (bp : List Block) : bytes (b :: bp) = b.data ++ bytes bp :=
  rfl

@[simp] theorem bytes_append (bp bp' : List Block) : bytes (bp ++ bp') = bytes bp ++ bytes bp' :=
  flatMap_append

@[simp] theorem blocklen_eq (bp : List Block) : blocklen bp = (bytes bp).length :=
  length_flatMap.symm

@[simp] theorem bytes_packblock (bp : List Block) : bytes (packblock bp) = bytes bp := by
  induction bp with
  | nil => rfl
  | cons b bp ih =>
    rw [packblock, map_cons, bytes_cons, bytes_cons, ← packblock, ih]
    split <;> rfl

@[simp] theorem bytes_pullblock (bp : List Block) (count : ℕ) :
    bytes (pullblock bp count) = (bytes bp).drop count := by
  induction bp generalizing count with
  | nil => exact drop_nil.symm
  | cons b bp ih =>
    rw [pullblock]
    split
    · rename_i hzero
      rw [hzero, drop_zero]
    · split
      · rename_i hle
        rw [ih, bytes_cons, drop_append, drop_of_length_le hle, nil_append]
        rfl
      · rename_i hlt
        rw [bytes_cons, bytes_cons, drop_append_of_le_length (Nat.le_of_not_le hlt)]
        rfl

theorem bytes_skipblock (bp : List Block) (offset : ℕ) :
    bytes (skipblock bp offset) = (bytes bp).drop offset := by
  induction bp generalizing offset with
  | nil => exact drop_nil.symm
  | cons b bp ih =>
    rw [skipblock]
    split
    · rename_i hlt
      rw [ih, bytes_cons, drop_append, drop_of_length_le (Nat.le_of_lt hlt), nil_append]
      rfl
    · rename_i hle
      rw [bytes_cons, bytes_cons, drop_append_of_le_length (Nat.le_of_not_lt hle)]
      rfl

theorem bytes_cutblock (bp : List Block) (len : ℕ) :
    bytes (cutblock bp len) = (bytes bp).take len := by
  induction bp generalizing len with
  | nil => exact List.take_nil.symm
  | cons b bp ih =>
    rw [cutblock]
    split
    · rename_i hlt
      rw [bytes_cons, bytes_cons, ih, take_append, take_of_length_le (Nat.le_of_lt hlt)]
      rfl
    · rename_i hle
      rw [bytes_cons, bytes_cons, bytes_nil, append_nil,
        take_append_of_le_length (Nat.le_of_not_lt hle)]
      rfl

theorem bytes_trimblock {bp bp' : List Block} {offset len : ℕ}
    (h : trimblock bp offset len = some bp') :
    bytes bp' = ((bytes bp).drop offset).take len ∧ (bytes bp').length = len := by
  rw [trimblock] at h
  split at h
  · cases h
  · rename_i hle
    cases h
    have hbytes : bytes (cutblock (skipblock bp offset) len) =
        ((bytes bp).drop offset).take len := by rw [bytes_cutblock, bytes_skipblock]
    rw [blocklen_eq] at hle
    refine ⟨hbytes, ?_⟩
    rw [hbytes, length_take, length_drop]
    omega

/-! ### Queues -/

/-- A queue of blocks. What has left it is remembered. -/
structure Queue where
  blocks : List Block
  limit : ℕ
  closed : Bool
  gone : List UInt8

namespace Queue

variable (q : Queue) {bp : List Block}

/-- The buffers in the queue. -/
def len : ℕ := (q.blocks.map Block.alloc).sum

/-- The bytes in the queue. -/
def dlen : ℕ := blocklen q.blocks

/-- All that was ever put in. -/
def all : List UInt8 := q.gone ++ bytes q.blocks

def qlen : ℕ := q.dlen

/-- Nothing can be queued past the limit – with `lim` or without; what is closed is closed for
those that ask. -/
def qpasslim (bp : List Block) (lim : Bool) : Queue :=
  if q.limit ≤ q.len then q
  else if lim && q.closed then q
  else { q with blocks := q.blocks ++ bp }

def qpassnolim (bp : List Block) : Queue := q.qpasslim bp false

/-- The queue without its first `len` bytes, and how many these are. -/
def qdiscard (len : ℕ) : Queue × ℕ :=
  ({ q with blocks := pullblock q.blocks len, gone := q.gone ++ (bytes q.blocks).take len },
    min len q.dlen)

/-- The `len` bytes after the first `offset`, or those there are of them. -/
def qcopy (len offset : ℕ) : List UInt8 := ((bytes q.blocks).drop offset).take len

/-- A process reads `len` bytes. -/
def qread (len : ℕ) : Queue := (q.qdiscard len).1

/-- A process writes a block. -/
def qbwrite (b : Block) : Queue := if q.closed then q else { q with blocks := q.blocks ++ [b] }

def qhangup : Queue := { q with closed := true }

def qflush : Queue := { q with blocks := [], gone := q.all }

def qclose : Queue := { q.qflush with closed := true }

def qsetlimit (limit : ℕ) : Queue := { q with limit }

theorem dlen_eq : q.dlen = (bytes q.blocks).length := blocklen_eq _

/-- The bytes are in the buffers. -/
theorem dlen_le_len : q.dlen ≤ q.len := sum_le_sum fun b _ => b.le

@[simp] theorem all_qpassnolim (h : q.len < q.limit) :
    (q.qpassnolim bp).all = q.all ++ bytes bp := by
  simp [qpassnolim, qpasslim, all, Nat.not_le.2 h]

@[simp] theorem all_qdiscard (n : ℕ) : (q.qdiscard n).1.all = q.all := by
  simp [qdiscard, all]

@[simp] theorem all_qread (n : ℕ) : (q.qread n).all = q.all := q.all_qdiscard n

/-- Reading frees buffers. -/
theorem len_qread_le (n : ℕ) : (q.qread n).len ≤ q.len := by
  rw [qread, qdiscard, len, len]
  dsimp only
  induction q.blocks generalizing n with
  | nil => exact le_rfl
  | cons b bp ih =>
    rw [pullblock]
    split
    · exact le_rfl
    · split
      · exact (ih _).trans (Nat.le_add_left ..)
      · exact le_rfl

@[simp] theorem all_qhangup : q.qhangup.all = q.all := rfl

@[simp] theorem all_qflush : q.qflush.all = q.all := append_nil _

@[simp] theorem all_qclose : q.qclose.all = q.all := append_nil _

end Queue

end Ip

end Plan9
