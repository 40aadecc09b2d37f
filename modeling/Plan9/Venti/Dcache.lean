import Mathlib.Tactic.Ring
import Mathlib.Data.Nat.Basic
import Plan9.Lib.Bytes

/-!
# The disk cache

`dcache.c` keeps blocks of a partition in memory. A block that is fetched to be
written as a whole (`OWRITE`) is not read from disk: it holds what the cache had, or
zeros. Blocks become dirty when they are written, are flushed to disk at some later
time, and may leave the cache once they are clean.

Whoever goes through the cache sees one array of bytes, its **view**
(`Plan9.Venti.Dcache.view`). Flushing blocks and bumping clean ones does not change
the view (`Plan9.Venti.Dcache.view_flush`, `Plan9.Venti.Dcache.view_bump`), and a
write changes it within one block (`Plan9.Venti.Dcache.WriteSpec`).
-/

namespace Plan9

namespace Venti

open Function

/-- The modes of `getdblock`. -/
inductive IOMode
  | oread
  | owrite
  | ordwr
deriving DecidableEq

/-- `struct DBlock`, as far as its contents go. -/
structure DBlock where
  data : ℕ → UInt8
  dirty : Bool

/-- A partition and the blocks of it that are cached, by address. -/
structure Dcache where
  blocksize : ℕ
  disk : ℕ → UInt8
  blocks : ℕ → Option DBlock

namespace Dcache

variable (c : Dcache)

/-- `getdblock`: the cached block, or one that is made. The read it may need fails at
the addresses where `readOk` is false. -/
def getDBlock (addr : ℕ) (mode : IOMode) (readOk : ℕ → Bool) : Option DBlock :=
  match c.blocks addr with
  | some b => some b
  | none =>
    if mode = .owrite then some ⟨fun _ => 0, false⟩
    else if readOk addr then some ⟨fun i => c.disk (addr + i), false⟩
    else none

/-- `getdblock`, `dirtydblock`, a `memmove` of `bytes` to the offset `off` of the block,
and `putdblock`. What kind of dirty block it is (`DirtyArena`, `DirtyArenaCib`, ...) is left
out, and with it the assertion that a dirty block stays of its kind: it can only fail where
data, directory and trailer share a block. -/
def writeDBlock (addr : ℕ) (mode : IOMode) (readOk : ℕ → Bool) (off : ℕ) (bytes : List UInt8) :
    Option Dcache :=
  (c.getDBlock addr mode readOk).map fun b =>
    let data i := if off ≤ i ∧ i < off + bytes.length then bytes.getD (i - off) 0 else b.data i
    { c with blocks := Function.update c.blocks addr (some ⟨data, true⟩) }

/-- Write the dirty blocks among those selected to disk. -/
def flush (sel : ℕ → Bool) : Dcache where
  blocksize := c.blocksize
  disk a :=
    match c.blocks (a / c.blocksize * c.blocksize) with
    | some b =>
      if b.dirty && sel (a / c.blocksize * c.blocksize) then b.data (a % c.blocksize)
      else c.disk a
    | none => c.disk a
  blocks addr := (c.blocks addr).map fun b => if sel addr then { b with dirty := false } else b

/-- `bumpdblock`: take a block out of the cache, if it is clean. -/
def bump (addr : ℕ) : Dcache where
  blocksize := c.blocksize
  disk := c.disk
  blocks := Function.update c.blocks addr
    ((c.blocks addr).bind fun b => if b.dirty then some b else none)

/-- What is read at an address through the cache. -/
def view (a : ℕ) : UInt8 :=
  match c.blocks (a / c.blocksize * c.blocksize) with
  | some b => b.data (a % c.blocksize)
  | none => c.disk a

/-- The cache is in order: its blocks start at multiples of the block size, and the
clean ones are what the disk holds. -/
structure Coherent : Prop where
  pos : 0 < c.blocksize
  aligned : ∀ addr b, c.blocks addr = some b → c.blocksize ∣ addr
  clean : ∀ addr b, c.blocks addr = some b → b.dirty = false →
    ∀ i < c.blocksize, b.data i = c.disk (addr + i)

variable {c}

variable {addr a : ℕ}

variable {bs : ℕ}

/-- The address of a byte and that of its block. -/
theorem block_eq (hbs : 0 < bs) (haddr : bs ∣ addr) (h1 : addr ≤ a) (h2 : a < addr + bs) :
    a / bs * bs = addr ∧ a % bs = a - addr := by
  obtain ⟨q, rfl⟩ := haddr
  have hdiv : a / bs = q := by
    rw [Nat.div_eq_iff hbs]
    constructor
    · rw [Nat.mul_comm]
      exact h1
    · rw [Nat.mul_comm q bs]
      omega
  refine ⟨by rw [hdiv, Nat.mul_comm], ?_⟩
  have hmod := Nat.div_add_mod a bs
  rw [hdiv] at hmod
  omega

theorem block_ne (hbs : 0 < bs) (h : a < addr ∨ addr + bs ≤ a) : a / bs * bs ≠ addr := by
  have h1 := Nat.div_mul_le_self a bs
  have h2 := Nat.lt_div_mul_add hbs (a := a)
  omega

variable {b : DBlock}

/-- The bytes of a block that is in the cache. -/
theorem view_of_block (hbs : 0 < c.blocksize) (haddr : c.blocksize ∣ addr)
    (hb : c.blocks addr = some b) (h1 : addr ≤ a) (h2 : a < addr + c.blocksize) :
    c.view a = b.data (a - addr) := by
  obtain ⟨hblock, hoff⟩ := block_eq hbs haddr h1 h2
  rw [view, hblock, hb, hoff]

theorem view_of_none (hbs : 0 < c.blocksize) (haddr : c.blocksize ∣ addr)
    (hb : c.blocks addr = none) (h1 : addr ≤ a) (h2 : a < addr + c.blocksize) :
    c.view a = c.disk a := by
  obtain ⟨hblock, -⟩ := block_eq hbs haddr h1 h2
  rw [view, hblock, hb]

theorem view_flush (sel : ℕ → Bool) (a : ℕ) : (c.flush sel).view a = c.view a := by
  simp only [view, flush]
  cases hb : c.blocks (a / c.blocksize * c.blocksize) with
  | none => rfl
  | some b =>
    simp only [Option.map_some]
    split <;> rfl

theorem coherent_flush (h : c.Coherent) (sel : ℕ → Bool) : (c.flush sel).Coherent := by
  refine ⟨h.pos, fun addr b hb => ?_, fun addr b hb hdirty i hi => ?_⟩
  · simp only [flush, Option.map_eq_some_iff] at hb
    obtain ⟨b₀, hb₀, -⟩ := hb
    exact h.aligned addr b₀ hb₀
  · simp only [flush, Option.map_eq_some_iff] at hb
    obtain ⟨b₀, hb₀, rfl⟩ := hb
    obtain ⟨hblock, hoff⟩ := block_eq (a := addr + i) h.pos (h.aligned addr b₀ hb₀) (by omega)
      (Nat.add_lt_add_left hi addr)
    simp only [flush, hblock, hb₀, hoff, Nat.add_sub_cancel_left]
    by_cases hsel : sel addr = true
    · rw [if_pos hsel]
      cases hd : b₀.dirty with
      | true => rw [hsel]; rfl
      | false => exact h.clean addr b₀ hb₀ hd i hi
    · rw [if_neg hsel] at hdirty ⊢
      rw [hdirty]
      exact h.clean addr b₀ hb₀ hdirty i hi

theorem view_bump (h : c.Coherent) (addr a : ℕ) : (c.bump addr).view a = c.view a := by
  simp only [view, bump]
  by_cases haddr : a / c.blocksize * c.blocksize = addr
  · rw [haddr, update_self]
    cases hb : c.blocks addr with
    | none => rfl
    | some b =>
      cases hd : b.dirty with
      | true => simp [hd]
      | false =>
        have hclean := h.clean addr b hb hd (a % c.blocksize) (Nat.mod_lt a h.pos)
        rw [← haddr, Nat.mul_comm, Nat.div_add_mod] at hclean
        simp [hd, hclean]
  · rw [update_of_ne haddr]

theorem coherent_bump (h : c.Coherent) (addr : ℕ) : (c.bump addr).Coherent := by
  have key : ∀ addr' b, (c.bump addr).blocks addr' = some b → c.blocks addr' = some b := by
    intro addr' b hb
    simp only [bump] at hb
    by_cases heq : addr' = addr
    · subst heq
      rw [update_self] at hb
      cases hb' : c.blocks addr' with
      | none => simp [hb'] at hb
      | some b' =>
        rw [hb', Option.bind_some] at hb
        split at hb
        · exact hb
        · exact absurd hb (by simp)
    · rwa [update_of_ne heq] at hb
  exact ⟨h.pos, fun addr' b hb => h.aligned addr' b (key addr' b hb),
    fun addr' b hb => h.clean addr' b (key addr' b hb)⟩

variable {mode : IOMode} {readOk : ℕ → Bool}

/-- A block can be fetched unless it has to be read and cannot. -/
theorem getDBlock_isSome (h : mode = .owrite ∨ readOk addr = true) :
    (c.getDBlock addr mode readOk).isSome := by
  rw [getDBlock]
  split
  · rfl
  · split
    · rfl
    · next hmode => rw [h.resolve_left hmode]; rfl

/-- A block that was not fetched to be written as a whole holds what was there. -/
theorem getDBlock_eq_view (h : c.Coherent) (haddr : c.blocksize ∣ addr)
    (hb : c.getDBlock addr mode readOk = some b) (hmode : mode ≠ .owrite) :
    ∀ i < c.blocksize, b.data i = c.view (addr + i) := by
  intro i hi
  rw [getDBlock] at hb
  split at hb
  · next b' hb' =>
    cases hb
    rw [view_of_block h.pos haddr hb' (by omega) (by omega), Nat.add_sub_cancel_left]
  · next hnone =>
    rw [if_neg hmode] at hb
    split at hb
    · cases hb
      rw [view_of_none h.pos haddr hnone (by omega) (by omega)]
    · exact absurd hb (by simp)

/-- What a write to a block does to the view: the bytes are there, nothing outside the
block has changed, and nothing else inside it unless it was fetched without reading. -/
structure WriteSpec (c c' : Dcache) (addr : ℕ) (mode : IOMode) (off : ℕ) (bytes : List UInt8) :
    Prop where
  coherent : c'.Coherent
  blocksize_eq : c'.blocksize = c.blocksize
  written : ∀ j < bytes.length, c'.view (addr + off + j) = bytes.getD j 0
  outside : ∀ a, a < addr ∨ addr + c.blocksize ≤ a → c'.view a = c.view a
  kept : mode ≠ .owrite → ∀ a, a < addr + off ∨ addr + off + bytes.length ≤ a →
    c'.view a = c.view a

/-- **Writes go to their place** in the view. -/
theorem writeDBlock_spec (h : c.Coherent) (addr off : ℕ) (mode : IOMode) (readOk : ℕ → Bool)
    (bytes : List UInt8) (haddr : c.blocksize ∣ addr) (hoff : off + bytes.length ≤ c.blocksize)
    (hok : (c.getDBlock addr mode readOk).isSome) :
    ∃ c', c.writeDBlock addr mode readOk off bytes = some c' ∧
      WriteSpec c c' addr mode off bytes := by
  obtain ⟨b, hb⟩ := Option.isSome_iff_exists.1 hok
  let data i := if off ≤ i ∧ i < off + bytes.length then bytes.getD (i - off) 0 else b.data i
  let c' : Dcache := { c with blocks := update c.blocks addr (some ⟨data, true⟩) }
  have hblock : c'.blocks addr = some ⟨data, true⟩ := update_self ..
  have hother : ∀ addr' ≠ addr, c'.blocks addr' = c.blocks addr' := fun _ hne => update_of_ne hne ..
  have hview : ∀ a, addr ≤ a → a < addr + c.blocksize → c'.view a = data (a - addr) :=
    fun a h1 h2 => view_of_block (c := c') h.pos haddr hblock h1 h2
  have houtside : ∀ a, a < addr ∨ addr + c.blocksize ≤ a → c'.view a = c.view a := by
    intro a ha
    simp only [view, c', update_of_ne (block_ne h.pos ha)]
  refine ⟨c', by rw [writeDBlock, hb]; rfl, ⟨?_, rfl, ?_, houtside, ?_⟩⟩
  · refine ⟨h.pos, fun addr' b' hb' => ?_, fun addr' b' hb' hd => ?_⟩
    · rcases eq_or_ne addr' addr with rfl | hne
      · exact haddr
      · exact h.aligned addr' b' (by rwa [hother addr' hne] at hb')
    · rcases eq_or_ne addr' addr with rfl | hne
      · obtain rfl := Option.some.inj (hblock.symm.trans hb')
        exact absurd hd (by simp)
      · exact h.clean addr' b' (by rwa [hother addr' hne] at hb') hd
  · intro j hj
    rw [hview _ (by omega) (by omega)]
    have hin : off ≤ addr + off + j - addr ∧ addr + off + j - addr < off + bytes.length := by
      omega
    simp only [data, if_pos hin]
    congr 1
    omega
  · intro hmode a ha
    by_cases hin : a < addr ∨ addr + c.blocksize ≤ a
    · exact houtside a hin
    · rw [hview a (by omega) (by omega)]
      have hnot : ¬(off ≤ a - addr ∧ a - addr < off + bytes.length) := by omega
      simp only [data, if_neg hnot]
      rw [getDBlock_eq_view h haddr hb hmode _ (by omega)]
      congr 1
      omega

end Dcache

end Venti

end Plan9
