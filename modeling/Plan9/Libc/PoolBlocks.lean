import Plan9.Libc.Pool
import Plan9.Lib.Outcome
import Mathlib.Algebra.BigOperators.Group.Multiset.Basic
import Mathlib.Algebra.BigOperators.Group.List.Basic
import Mathlib.Data.List.Chain
import Mathlib.Tactic.Ring

/-!
# What the allocator does to blocks

The functions of `pool.c` below the allocators proper: what they do to a block or two, and to the
tree of the free blocks.

* `Plan9.Libc.outcome_pooldel`, `Plan9.Libc.outcome_blockmerge` – taking out and merging;
* `Plan9.Libc.outcome_trim`, `Plan9.Libc.outcome_freefromfront` – the two functions that make
  fragments.

A statement about an outcome has a proposition `E` for the case of a fault. What has to be assumed
to exclude faults is assumed if `E` is false.
-/

namespace Plan9

namespace Libc

open Lib

variable {p : Params} {e : Env} {E : Prop} {t : FreeTree} {M : Multiset (ℕ × ℕ)} {a b : Block}
  {n x size dsize skip : ℕ}

/-! ### Sizes -/

namespace Params

theorem quantum_pos (p : Params) : 0 < p.quantum := by
  obtain ⟨k, -, hk⟩ := p.quantum_pow
  rw [hk]
  exact Nat.two_pow_pos k

theorem quantum_le (p : Params) : p.quantum ≤ 2 ^ 63 := by
  obtain ⟨k, hk, hq⟩ := p.quantum_pow
  rw [hq]
  exact Nat.pow_le_pow_right two_pos (by omega)

theorem mask_le (p : Params) (x : ℕ) : p.mask x ≤ x := Nat.sub_le _ _

theorem lt_mask_add (p : Params) (x : ℕ) : x < p.mask x + p.quantum := by
  have := Nat.mod_lt x p.quantum_pos
  rw [mask]
  omega

theorem mask_eq_zero (h : x < p.quantum) : p.mask x = 0 := by
  rw [mask, Nat.mod_eq_of_lt h, Nat.sub_self]

/-- A request whose block is large enough, but not too large for the tail, and does not take the
blocks behind it off the word boundaries. -/
structure Fits (p : Params) (n : ℕ) : Prop where
  room : n + 32 ≤ p.dsize2bsize n
  short : p.dsize2bsize n + 64 ≤ n + 65536
  word : 4 ∣ p.dsize2bsize n

/-- The size of an arena does not overflow. -/
structure FitsArena (p : Params) (bsize : ℕ) : Prop where
  room : bsize + 56 ≤ p.bsize2asize bsize
  word : 4 ∣ p.bsize2asize bsize

theorem dsize2bsize_ge (h : n + 32 ≤ p.dsize2bsize n) : 64 ≤ p.dsize2bsize n := by
  unfold dsize2bsize at h ⊢
  simp only at h ⊢
  set y := if (n + 32) % 2 ^ 64 < p.minblock then p.minblock else (n + 32) % 2 ^ 64 with hy
  set x := if y < 64 then 64 else y with hx
  have hylt : y < 2 ^ 64 := by
    have := p.minblock_lt
    rw [hy]
    split_ifs
    · exact this
    · exact Nat.mod_lt _ (by norm_num)
  have hge : 64 ≤ x ∧ x < 2 ^ 64 := by
    rw [hx]
    split_ifs <;> omega
  have hq := p.quantum_pos
  have hle := p.quantum_le
  rcases lt_or_ge (x + p.quantum - 1) (2 ^ 64) with hlt | hwrap
  · rw [Nat.mod_eq_of_lt hlt]
    have := p.lt_mask_add (x + p.quantum - 1)
    omega
  · -- a sum that overflows is less than the quantum
    rw [mask_eq_zero (by omega)] at h
    omega

theorem Fits.ge (h : p.Fits n) : 64 ≤ p.dsize2bsize n := dsize2bsize_ge h.room

end Params

/-! ### Weights -/

section Weights

variable {N : Type*} [AddCommMonoid N] {w : Block → N} {bs bs' : List Block}

/-- The sum of a weight over some blocks. -/
def weigh (w : Block → N) (bs : List Block) : N := (bs.map w).sum

@[simp]
theorem weigh_nil : weigh w [] = 0 := rfl

@[simp]
theorem weigh_cons : weigh w (b :: bs) = w b + weigh w bs := rfl

@[simp]
theorem weigh_append : weigh w (bs ++ bs') = weigh w bs + weigh w bs' := by
  rw [weigh, List.map_append, List.sum_append]
  rfl

end Weights

/-- What a block adds to the tree: its size and its address, if it is free. -/
def Block.elem (b : Block) : Multiset (ℕ × ℕ) := if b.magic = .free then {(b.size, b.addr)} else 0

/-- What a block adds to `curalloc`. -/
def Block.allocsize (b : Block) : ℤ := if b.magic = .alloc then b.size else 0

namespace Block

theorem elem_of_free (h : b.magic = .free) : b.elem = {(b.size, b.addr)} := if_pos h

theorem elem_of_ne (h : b.magic ≠ .free) : b.elem = 0 := if_neg h

theorem allocsize_of_alloc (h : b.magic = .alloc) : b.allocsize = b.size := if_pos h

theorem allocsize_of_ne (h : b.magic ≠ .alloc) : b.allocsize = 0 := if_neg h

end Block

/-! ### The free pool -/

/-- The tree holds the given blocks. -/
structure FreeTree.Sync (t : FreeTree) (M : Multiset (ℕ × ℕ)) : Prop where
  ordered : t.freeroot.Ordered
  elems : t.freeroot.elems = M
  curfree : t.curfree = (M.map fun e => (e.1 : ℤ)).sum

theorem pooladd_sync (h : t.Sync M) (b : Block) :
    (pooladd t b).1.Sync ((b.size, b.addr) ::ₘ M) where
  ordered := h.ordered.add _ _
  elems := by rw [pooladd, RingTree.elems_add, h.elems]
  curfree := by
    rw [pooladd, Multiset.map_cons, Multiset.sum_cons, h.curfree]
    exact add_comm _ _

/-- **A free block** can be taken out. -/
theorem outcome_pooldel (h : t.Sync ((b.size, b.addr) ::ₘ M)) :
    Outcome E (pooldel t b) fun r => r.1.Sync M ∧ r.2 = { b with magic := .unalloc } := by
  obtain ⟨root, hroot, hord, helems⟩ := RingTree.remove_spec h.ordered
    (h.elems ▸ Multiset.mem_cons_self (b.size, b.addr) M)
  have hM : root.elems = M := by
    rw [h.elems] at helems
    exact ((Multiset.cons_inj_right _).1 helems).symm
  rw [pooldel, hroot]
  refine ⟨⟨hord, hM, ?_⟩, rfl⟩
  have := h.curfree
  rw [Multiset.map_cons, Multiset.sum_cons] at this
  simp only [this]
  ring

theorem outcome_unfree (h : t.Sync (b.elem + M)) : Outcome E (unfree t b) fun r =>
      r.1.Sync M ∧ r.2 = { b with magic := r.2.magic } ∧ r.2.magic ≠ .free := by
  rw [unfree]
  refine Outcome.ite ?_ ?_
  · intro hfree
    rw [Block.elem_of_free hfree, Multiset.singleton_add] at h
    refine (outcome_pooldel h).mono ?_
    rintro ⟨t', b'⟩ ⟨hsync, rfl⟩
    exact ⟨hsync, rfl, nofun⟩
  · intro hne
    rw [Block.elem_of_ne hne, zero_add] at h
    exact ⟨h, rfl, hne⟩

/-! ### Blocks -/

theorem outcome_assertion {c : Prop} [Decidable c] (h : ¬E → c) :
    Outcome E (assertion c) fun _ => c := by
  rw [assertion]
  refine Outcome.ite (fun hc => hc) ?_
  rintro hc
  exact Outcome.error_of fun hE => hc (h hE)

/-- The block that two adjacent ones become. -/
def Block.merged (a b : Block) : Block :=
  { a with magic := .unalloc, size := a.size + b.size, tail := a.size + b.size, short := 0xFFFF }

@[simp]
theorem Block.merged_addr : (a.merged b).addr = a.addr := rfl

@[simp]
theorem Block.merged_size : (a.merged b).size = a.size + b.size := rfl

theorem outcome_blockmerge (h : t.Sync (a.elem + b.elem + M)) (hadj : a.addr + a.size = b.addr) :
    Outcome E (blockmerge t a b) fun r => r.1.Sync M ∧ r.2 = a.merged b := by
  rw [blockmerge]
  refine (outcome_assertion fun _ => hadj).bind fun _ _ => ?_
  rw [add_assoc] at h
  refine (outcome_unfree h).bind ?_
  rintro ⟨t', a'⟩ ⟨h', ha', -⟩
  refine (outcome_unfree h').bind ?_
  rintro ⟨t'', b'⟩ ⟨h'', hb', -⟩
  refine ⟨h'', ?_⟩
  simp only at ha' hb' ⊢
  rw [ha', hb']
  rfl

/-- A block with another size. -/
def Block.resized (b : Block) (n : ℕ) : Block := { b with size := n, tail := n }

@[simp]
theorem Block.resized_addr : (b.resized n).addr = b.addr := rfl

@[simp]
theorem Block.resized_size : (b.resized n).size = n := rfl

theorem outcome_blocksetsize (hm : ¬E → b.magic ≠ .free) (hn : ¬E → n < 2 ^ 48) :
    Outcome E (blocksetsize b n) fun r => r = b.resized n ∧ n < 2 ^ 48 ∧ b.magic ≠ .free := by
  rw [blocksetsize]
  refine (outcome_assertion hm).bind fun _ hm => ?_
  refine (outcome_assertion hn).bind fun _ hn => ?_
  exact ⟨rfl, hn, hm⟩

/-- An allocated block with its size of data. -/
def Block.sized (b : Block) (dsize : ℕ) : Block :=
  { b with
    magic := .alloc, short := b.size - dsize, phase := (b.addr + 16 + dsize) % 4 }

@[simp]
theorem Block.sized_addr : (b.sized n).addr = b.addr := rfl

@[simp]
theorem Block.sized_size : (b.sized n).size = b.size := rfl

theorem outcome_blocksetdsize (hb : b.magic = .alloc)
    (h : ¬E → p.dsize2bsize dsize ≤ b.size ∧ b.size - dsize < 65536 ∧ dsize + 32 ≤ b.size) :
    Outcome E (blocksetdsize p b dsize) fun r =>
      r = b.sized dsize ∧ p.dsize2bsize dsize ≤ b.size ∧ dsize + 32 ≤ b.size := by
  rw [blocksetdsize]
  refine (outcome_assertion fun hE => (h hE).1).bind fun _ hbsize => ?_
  refine (outcome_assertion fun hE => ?_).bind fun _ _ => ?_
  · have := h hE
    rw [Params.extra]
    omega
  · refine Outcome.ite ?_ ?_
    · intro hlt
      exact Outcome.error_of fun hE => absurd (h hE).2.2 hlt.not_ge
    · intro hge
      refine ⟨?_, hbsize, not_lt.1 hge⟩
      rw [Block.sized, ← hb]

/-! ### Fragments -/

/-- A free block as `pooladd` leaves it. -/
def freeblock (addr size : ℕ) : Block := ⟨addr, .free, size, size, 0, 0, 0⟩

/-- What `trim` makes of a block: it has the size `n`, and what is left is a free block. -/
structure Trimmed (p : Params) (t : FreeTree) (M : Multiset (ℕ × ℕ)) (b : Block) (dsize : ℕ)
    (r : FreeTree × Block × List Block) (n : ℕ) : Prop where
  block : r.2.1 = (b.resized n).sized dsize
  fits : p.dsize2bsize dsize ≤ n
  data : dsize + 32 ≤ n
  ge : 64 ≤ n
  le : n ≤ b.size
  sync : r.1.Sync (weigh Block.elem r.2.2 + M)
  whole : ¬p.Cuts b.size dsize → n = b.size ∧ r.2.2 = []
  cut : p.Cuts b.size dsize → n = p.dsize2bsize dsize ∧ n + 64 ≤ b.size ∧
    r.2.2 = [freeblock (b.addr + n) (b.size - n)]

/-- **The outcome of `trim`.** -/
theorem outcome_trim (h : t.Sync M) (hm : b.magic ≠ .free) (hge : 64 ≤ b.size)
    (htail : b.tail = b.size) (hlt : b.size < 2 ^ 64)
    (hfits : ¬E → p.Fits dsize ∧ p.dsize2bsize dsize ≤ b.size ∧ b.size < 2 ^ 48) :
    Outcome E (trim p t b dsize) fun r => ∃ n, Trimmed p t M b dsize r n := by
  rw [trim]
  refine Outcome.ite ?_ ?_
  · intro hcuts
    refine (outcome_blocksetsize (fun _ => hm) fun hE => ?_).bind ?_
    · have := (hfits hE).2
      omega
    rintro b' ⟨rfl, hbsize, -⟩
    refine (outcome_blocksetsize (fun _ => (nofun : Magic.unalloc ≠ .free)) fun hE => ?_).bind ?_
    · have := (hfits hE).2
      rw [Params.extra]
      omega
    rintro frag ⟨rfl, hextra, -⟩
    -- the size of the fragment has not wrapped around
    have hle : p.dsize2bsize dsize ≤ b.size := by
      rw [Params.extra] at hextra
      omega
    have hextra' : Params.extra b.size (p.dsize2bsize dsize) = b.size - p.dsize2bsize dsize := by
      rw [Params.extra]
      omega
    simp only [hextra']
    refine Outcome.ite ?_ ?_
    · simp only [Block.resized_size]
      intro hsmall
      refine Outcome.error_of fun hE => ?_
      obtain ⟨hf, -, -⟩ := hfits hE
      have h64 := hf.ge
      have hroom := hf.room
      have hshort := hf.short
      rcases hcuts with hbig | ⟨-, habove, -⟩
      · rw [Params.extra] at hbig
        omega
      · rw [hextra'] at habove
        omega
    · simp only [Block.resized_size, not_or, not_lt]
      intro hbig
      refine (outcome_blocksetdsize rfl fun hE => ?_).bind ?_
      · obtain ⟨hf, -, -⟩ := hfits hE
        have hroom := hf.room
        have hshort := hf.short
        refine ⟨le_rfl, ?_, hroom⟩
        simp only
        omega
      · rintro b' ⟨rfl, -, hdata⟩
        refine ⟨p.dsize2bsize dsize, rfl, le_rfl, hdata, hbig.1, hle, ?_, fun hc => absurd hcuts hc,
          fun _ => ⟨rfl, ?_, rfl⟩⟩
        · rw [weigh_cons, weigh_nil, add_zero, Block.elem_of_free rfl]
          exact pooladd_sync h _
        · omega
  · intro hcuts
    refine Outcome.ite ?_ ?_
    · intro hsmall
      exact absurd hsmall (by omega)
    · intro _
      refine (outcome_blocksetdsize rfl fun hE => ?_).bind ?_
      · obtain ⟨hf, hle, -⟩ := hfits hE
        have hroom := hf.room
        rw [Params.Cuts, not_or] at hcuts
        have hextra := hcuts.1
        rw [Params.extra] at hextra
        refine ⟨hle, ?_, ?_⟩ <;> simp only <;> omega
      · rintro b' ⟨rfl, hb', hdata⟩
        refine ⟨b.size, ?_, hb', hdata, hge, le_rfl, ?_, fun _ => ⟨rfl, rfl⟩,
          fun hc => absurd hc hcuts⟩
        · rw [Block.resized, ← htail]
          simp only [Block.sized, htail]
        · rw [weigh_nil, zero_add]
          exact h

/-- A block that is too small is not trimmed. -/
theorem outcome_trim_small {Q : FreeTree × Block × List Block → Prop} (h : b.size < 64) (hE : E) :
    Outcome E (trim p t b dsize) Q := by
  have hnot : ¬E → False := fun h => h hE
  rw [trim]
  refine Outcome.ite (fun _ => ?_) fun _ => Outcome.ite (fun _ => hE) fun hge => absurd h hge
  refine (outcome_blocksetsize (fun h => (hnot h).elim) fun h => (hnot h).elim).bind ?_
  rintro b' ⟨rfl, hbsize, -⟩
  refine (outcome_blocksetsize (fun h => (hnot h).elim) fun h => (hnot h).elim).bind ?_
  rintro frag ⟨rfl, hextra, -⟩
  refine Outcome.ite (fun _ => hE) fun hbig => ?_
  rw [Params.extra] at hextra
  simp only [Block.resized_size] at hbig
  omega

/-- What `freefromfront` makes of a block. -/
structure Fronted (p : Params) (t : FreeTree) (M : Multiset (ℕ × ℕ)) (b : Block) (skip : ℕ)
    (r : FreeTree × List Block × Block) : Prop where
  sync : r.1.Sync (weigh Block.elem r.2.1 + M)
  whole : ¬p.FreesFront b.size skip → r.2.1 = [] ∧ r.2.2 = b
  cut : p.FreesFront b.size skip → 64 ≤ p.mask skip ∧ p.mask skip ≤ b.size ∧
    r.2.1 = [{ b.resized (p.mask skip) with magic := .free }] ∧
    ∃ m ≠ Magic.free, r.2.2 =
      ⟨b.addr + p.mask skip, m, b.size - p.mask skip, b.size - p.mask skip, 0, 0, 0⟩

/-- **The outcome of `freefromfront`.** -/
theorem outcome_freefromfront (h : t.Sync M) (hm : b.magic ≠ .free) (hlt : b.size < 2 ^ 64)
    (hbig : ¬E → b.size < 2 ^ 48)
    (hskip : ¬E → p.FreesFront b.size skip →
      p.mask skip ≤ b.size ∧ e.junk (b.addr + p.mask skip) = false) :
    Outcome E (freefromfront e p t b skip) (Fronted p t M b skip) := by
  rw [freefromfront]
  refine Outcome.ite ?_ ?_
  · intro hfront
    have h64 : 64 ≤ p.mask skip := by
      rcases hfront with h | h
      · omega
      · exact h.2.1
    refine (outcome_blocksetsize (fun hE => ?_) fun hE => ?_).bind ?_
    · rw [(hskip hE hfront).2]
      exact (nofun : Magic.unalloc ≠ .free)
    · have := (hskip hE hfront).1
      have := hbig hE
      rw [Params.extra]
      omega
    rintro bb ⟨rfl, hextra, hbb⟩
    refine (outcome_blocksetsize (fun _ => hm) fun hE => ?_).bind ?_
    · have := (hskip hE hfront).1
      have := hbig hE
      omega
    rintro b' ⟨rfl, hmask, -⟩
    -- a skip that has wrapped around is too large for the front
    have hle : p.mask skip ≤ b.size := by
      rw [Params.extra] at hextra
      omega
    have hextra' : Params.extra b.size (p.mask skip) = b.size - p.mask skip := by
      rw [Params.extra]
      omega
    refine ⟨?_, fun hc => absurd hfront hc, fun _ => ⟨h64, hle, rfl, _, hbb, ?_⟩⟩
    · rw [weigh_cons, weigh_nil, add_zero, Block.elem_of_free rfl]
      exact pooladd_sync h _
    · rw [hextra']
      rfl
  · intro hfront
    refine ⟨?_, fun _ => ⟨rfl, rfl⟩, fun hc => absurd hc hfront⟩
    rw [weigh_nil, zero_add]
    exact h

end Libc

end Plan9
