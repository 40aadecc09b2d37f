import Plan9.Libc.PoolBlocks

/-!
# Places in a pool

What holds of a pool between operations, and of a pool in which one block has been taken out of its
place.

* `Plan9.Libc.Pool.Inv` – the arenas are tiled by their blocks, and the tree holds the free ones;
* `Plan9.Libc.Flux` – the same, up to one block that is neither free nor handed out;
* `Plan9.Libc.Flux.free`, `Plan9.Libc.Flux.trim` – the two ways back;
* `Plan9.Libc.Flux.mergeLeft`, `Plan9.Libc.Flux.mergeRight` – merging with a neighbour.
-/

namespace Plan9

namespace Libc

open Lib List

variable {p : Params} {e : Env} {E : Prop} {t : FreeTree} {a b x : Block} {bs bs' : List Block}
  {s z n dsize addr : ℕ} {A : Arena} {As : List Arena} {f : Focus}

/-! ### Tilings -/

/-- Blocks that follow one another from `s` to `z`, with their sizes in their tails. -/
def Tiles : ℕ → List Block → ℕ → Prop
  | s, [], z => s = z
  | s, b :: bs, z => b.addr = s ∧ 64 ≤ b.size ∧ b.tail = b.size ∧ Tiles (s + b.size) bs z

theorem tiles_append : Tiles s (bs ++ bs') z ↔ ∃ m, Tiles s bs m ∧ Tiles m bs' z := by
  induction bs generalizing s with
  | nil =>
    constructor
    · intro h
      exact ⟨s, rfl, h⟩
    · rintro ⟨m, rfl, h⟩
      exact h
  | cons b bs ih =>
    rw [cons_append, Tiles, ih]
    constructor
    · rintro ⟨h, hge, htail, m, hm, hm'⟩
      exact ⟨m, ⟨h, hge, htail, hm⟩, hm'⟩
    · rintro ⟨m, ⟨h, hge, htail, hm⟩, hm'⟩
      exact ⟨h, hge, htail, m, hm, hm'⟩

theorem Tiles.le (h : Tiles s bs z) : s ≤ z := by
  induction bs generalizing s with
  | nil => exact h.le
  | cons b bs ih =>
    have := ih h.2.2.2
    omega

theorem Tiles.of_mem (h : Tiles s bs z) (hb : b ∈ bs) :
    s ≤ b.addr ∧ b.addr + b.size ≤ z ∧ 64 ≤ b.size ∧ b.tail = b.size := by
  induction bs generalizing s with
  | nil => exact absurd hb not_mem_nil
  | cons c bs ih =>
    obtain ⟨hc, hge, htail, hbs⟩ := h
    rcases mem_cons.1 hb with rfl | hb
    · have := hbs.le
      refine ⟨hc.ge, by omega, hge, htail⟩
    · have := ih hbs hb
      omega

theorem tiles_around : Tiles s (bs.reverse ++ b :: bs') z ↔
    Tiles s bs.reverse b.addr ∧ 64 ≤ b.size ∧ b.tail = b.size ∧ Tiles (b.addr + b.size) bs' z := by
  rw [tiles_append]
  constructor
  · rintro ⟨m, hm, rfl, h⟩
    exact ⟨hm, h⟩
  · rintro ⟨hm, h⟩
    exact ⟨b.addr, hm, rfl, h⟩

theorem tiles_reverse_cons : Tiles s (b :: bs).reverse z ↔
    Tiles s bs.reverse b.addr ∧ 64 ≤ b.size ∧ b.tail = b.size ∧ b.addr + b.size = z := by
  rw [reverse_cons, ← reverse_reverse bs, reverse_reverse, tiles_around]
  rfl

/-! ### Free neighbours -/

/-- No two adjacent blocks are free. -/
def Spaced (bs : List Block) : Prop :=
  bs.IsChain fun a b => ¬(a.magic = .free ∧ b.magic = .free)

instance (bs : List Block) : Decidable (Spaced bs) := by unfold Spaced; infer_instance

theorem isFree_eq_false_iff {o : Option Block} : isFree o = false ↔ ∀ b ∈ o, b.magic ≠ .free := by
  cases o <;> simp [isFree]

@[simp]
theorem isFree_some : isFree (some b) = true ↔ b.magic = .free := by simp [isFree]

theorem spaced_cons : Spaced (b :: bs) ↔ (b.magic = .free → isFree bs.head? = false) ∧
    Spaced bs := by
  rw [Spaced, isChain_cons, isFree_eq_false_iff]
  refine and_congr_left fun _ => ?_
  constructor
  · intro h hb c hc hfree
    exact h c hc ⟨hb, hfree⟩
  · rintro h c hc ⟨hb, hfree⟩
    exact h hb c hc hfree

theorem spaced_cons_of_ne (hb : b.magic ≠ .free) : Spaced (b :: bs) ↔ Spaced bs := by
  rw [spaced_cons]
  exact and_iff_right fun h => absurd h hb

theorem spaced_reverse : Spaced bs.reverse ↔ Spaced bs := by
  rw [Spaced, isChain_reverse, Spaced]
  simp only [and_comm]

theorem spaced_around : Spaced (bs.reverse ++ b :: bs') ↔ Spaced (b :: bs) ∧ Spaced (b :: bs') := by
  rw [Spaced, isChain_split, ← reverse_cons]
  exact and_congr_left fun _ => spaced_reverse

/-! ### Pools -/

/-- The blocks of some arenas. -/
def blocksOf (As : List Arena) : List Block := As.flatMap (·.blocks)

@[simp]
theorem blocksOf_cons : blocksOf (A :: As) = A.blocks ++ blocksOf As := rfl

@[simp]
theorem blocksOf_append {As' : List Arena} : blocksOf (As ++ As') = blocksOf As ++ blocksOf As' :=
  flatMap_append

theorem mem_blocksOf : b ∈ blocksOf As ↔ ∃ A ∈ As, b ∈ A.blocks := mem_flatMap

/-- An arena that is tiled by its blocks. -/
structure Arena.Tiled (E : Prop) (A : Arena) : Prop where
  pos : 0 < A.base
  le : A.base + A.asize ≤ 2 ^ 64
  large : 120 ≤ A.asize
  tiles : Tiles (A.base + 40) A.blocks (A.base + A.asize - 16)
  small : ¬E → A.asize < 2 ^ 46 ∧ 4 ∣ A.base ∧ 4 ∣ A.asize

/-- Arenas in descending order, each tiled by its blocks. -/
structure Layout (E : Prop) (As : List Arena) : Prop where
  sorted : As.Pairwise fun A B => B.base + B.asize ≤ A.base
  tiled : ∀ A ∈ As, A.Tiled E

/-- What is needed of a block so that nothing goes wrong with it. -/
structure Block.Strict (p : Params) (b : Block) : Prop where
  addr : 4 ∣ b.addr
  size : 4 ∣ b.size
  fits : b.magic = .alloc → p.Fits b.getdsize
  phase : b.magic = .alloc → b.phase = (b.addr + 16 + b.getdsize) % 4
  skip : b.magic = .alloc → b.skip ≤ b.getdsize

/-- A block between operations. -/
structure Block.Settled (p : Params) (E : Prop) (b : Block) : Prop where
  magic : b.magic ≠ .unalloc
  room : b.magic = .alloc → p.dsize2bsize b.getdsize ≤ b.size ∧ b.getdsize + 32 ≤ b.size
  strict : ¬E → b.Strict p

/-- **The invariant** of the arenas and the tree. -/
structure Held (p : Params) (E : Prop) (t : FreeTree) (As : List Arena) : Prop where
  layout : Layout E As
  sync : t.Sync (weigh Block.elem (blocksOf As))
  settled : ∀ b ∈ blocksOf As, b.Settled p E

/-- Arenas without two adjacent free blocks. -/
def Coalesced (As : List Arena) : Prop := ∀ A ∈ As, Spaced A.blocks

instance (As : List Arena) : Decidable (Coalesced As) := by unfold Coalesced; infer_instance

/-- The sum of the sizes of the allocated blocks. -/
def allocated (As : List Arena) : ℤ := weigh Block.allocsize (blocksOf As)

/-! ### Places -/

variable {N : Type*}

namespace Focus

/-- All blocks but the one in question. -/
def others (f : Focus) : List Block :=
  blocksOf f.above.reverse ++ (f.before.reverse ++ f.after) ++ blocksOf f.below

theorem blocksOf_arenas (f : Focus) : blocksOf f.arenas =
    blocksOf f.above.reverse ++ (f.before.reverse ++ f.cur :: f.after) ++ blocksOf f.below := by
  rw [arenas, blocksOf_append, blocksOf_cons, append_assoc, append_assoc, append_assoc]

theorem mem_blocksOf_arenas : b ∈ blocksOf f.arenas ↔ b = f.cur ∨ b ∈ f.others := by
  rw [blocksOf_arenas, others]
  simp only [mem_append, mem_cons]
  grind

theorem weigh_arenas [AddCommMonoid N] (w : Block → N) (f : Focus) :
    weigh w (blocksOf f.arenas) = w f.cur + weigh w f.others := by
  rw [blocksOf_arenas, others]
  simp only [weigh_append, weigh_cons]
  abel

/-- No two adjacent blocks are free, apart from the one in question. -/
structure Spaced (f : Focus) : Prop where
  above : Coalesced f.above
  below : Coalesced f.below
  before : Libc.Spaced f.before
  after : Libc.Spaced f.after

theorem coalesced_arenas : Coalesced f.arenas ↔ f.Spaced ∧
    (f.cur.magic = .free → isFree f.before.head? = false ∧ isFree f.after.head? = false) := by
  have h : Coalesced f.arenas ↔ Coalesced f.above ∧
      Libc.Spaced (f.before.reverse ++ f.cur :: f.after) ∧ Coalesced f.below := by
    simp only [Coalesced, arenas, mem_append, mem_reverse, mem_cons, or_imp, forall_and, forall_eq]
  rw [h, spaced_around, spaced_cons, spaced_cons]
  constructor
  · rintro ⟨h1, ⟨⟨h2, h3⟩, h4, h5⟩, h6⟩
    exact ⟨⟨h1, h6, h3, h5⟩, fun hc => ⟨h2 hc, h4 hc⟩⟩
  · rintro ⟨⟨h1, h6, h3, h5⟩, h⟩
    exact ⟨h1, ⟨⟨fun hc => (h hc).1, h3⟩, fun hc => (h hc).2, h5⟩, h6⟩

/-- The tiling of the arena around a place. -/
theorem tiled (h : Layout E f.arenas) :
    Tiles (f.base + 40) f.before.reverse f.cur.addr ∧ 64 ≤ f.cur.size ∧ f.cur.tail = f.cur.size ∧
      Tiles (f.cur.addr + f.cur.size) f.after (f.base + f.asize - 16) := by
  have hA : (⟨f.base, f.asize, f.before.reverse ++ f.cur :: f.after⟩ : Arena).Tiled E :=
    h.tiled _ (by simp [arenas])
  exact tiles_around.1 hA.tiles

theorem arena_tiled (h : Layout E f.arenas) :
    (⟨f.base, f.asize, f.before.reverse ++ f.cur :: f.after⟩ : Arena).Tiled E :=
  h.tiled _ (by simp [arenas])

end Focus

variable {above : List Arena}

/-- **A tiling can be replaced** by another one of the same arena. -/
theorem Layout.replace {below : List Arena} {base asize : ℕ}
    (h : Layout E (above ++ ⟨base, asize, bs⟩ :: below))
    (hbs : Tiles (base + 40) bs' (base + asize - 16)) :
    Layout E (above ++ ⟨base, asize, bs'⟩ :: below) := by
  constructor
  · have := h.sorted
    rw [pairwise_append, pairwise_cons] at this ⊢
    obtain ⟨ha, ⟨hb, hc⟩, hd⟩ := this
    refine ⟨ha, ⟨hb, hc⟩, fun A hA B hB => ?_⟩
    rcases mem_cons.1 hB with rfl | hB
    · exact hd A hA ⟨base, asize, bs⟩ (mem_cons_self ..)
    · exact hd A hA B (mem_cons_of_mem _ hB)
  · intro A hA
    rcases mem_append.1 hA with hA | hA
    · exact h.tiled A (mem_append_left _ hA)
    rcases mem_cons.1 hA with rfl | hA
    · have := h.tiled ⟨base, asize, bs⟩ (by simp)
      exact ⟨this.pos, this.le, this.large, hbs, this.small⟩
    · exact h.tiled A (mem_append_right _ (mem_cons_of_mem _ hA))

variable {before : List Block} {c : Block}

/-- A place after something has happened there: other blocks in the same part of the arena. -/
theorem Focus.layout_replace (h : Layout E f.arenas) {after : List Block}
    (hc : Tiles (f.base + 40) before.reverse c.addr ∧ 64 ≤ c.size ∧ c.tail = c.size ∧
      Tiles (c.addr + c.size) after (f.base + f.asize - 16)) :
    Layout E { f with before := before, cur := c, after := after }.arenas :=
  Layout.replace h (tiles_around.2 hc)

/-- **The invariant while a block is out of its place.** -/
structure Flux (p : Params) (E : Prop) (t : FreeTree) (f : Focus) : Prop where
  layout : Layout E f.arenas
  sync : t.Sync (weigh Block.elem f.others)
  settled : ∀ b ∈ f.others, b.Settled p E
  word : ¬E → 4 ∣ f.cur.addr ∧ 4 ∣ f.cur.size

/-- An allocated block can be taken out. -/
theorem Held.flux (h : Held p E t f.arenas) (hc : f.cur.magic = .alloc) : Flux p E t f where
  layout := h.layout
  sync := by
    have := h.sync
    rwa [Focus.weigh_arenas, Block.elem_of_ne (by rw [hc]; exact nofun), zero_add] at this
  settled b hb := h.settled b (Focus.mem_blocksOf_arenas.2 (.inr hb))
  word hE := by
    have := (h.settled f.cur (Focus.mem_blocksOf_arenas.2 (.inl rfl))).strict hE
    exact ⟨this.addr, this.size⟩

/-- The block in question is in the arena, which is not too large. -/
theorem Flux.size_lt (h : Flux p E t f) : f.cur.size < 2 ^ 64 ∧ (¬E → f.cur.size < 2 ^ 46) := by
  have hA := Focus.arena_tiled h.layout
  have hcur := hA.tiles.of_mem (b := f.cur) (by simp)
  have hle := hA.le
  have hsmall := hA.small
  simp only at hcur hle hsmall
  refine ⟨by omega, fun hE => ?_⟩
  have := (hsmall hE).1
  omega

theorem settled_freeblock (h : ¬E → 4 ∣ addr ∧ 4 ∣ n) (hb : b.addr = addr) (hn : b.size = n)
    (hm : b.magic = .free) : b.Settled p E where
  magic := by rw [hm]; exact nofun
  room hc := absurd (hm.symm.trans hc) nofun
  strict hE := by
    subst hb hn
    exact ⟨(h hE).1, (h hE).2, fun hc => absurd (hm.symm.trans hc) nofun,
      fun hc => absurd (hm.symm.trans hc) nofun, fun hc => absurd (hm.symm.trans hc) nofun⟩

/-- **A block is put back as a free one.** -/
theorem Flux.free (h : Flux p E t f) :
    Held p E (pooladd t f.cur).1 { f with cur := (pooladd t f.cur).2 }.arenas := by
  obtain ⟨hb, hge, htail, ha⟩ := Focus.tiled h.layout
  constructor
  · exact Focus.layout_replace h.layout ⟨hb, hge, htail, ha⟩
  · rw [Focus.weigh_arenas, Block.elem_of_free rfl, Multiset.singleton_add]
    exact pooladd_sync h.sync _
  · intro b hb
    rcases Focus.mem_blocksOf_arenas.1 hb with rfl | hb
    · exact settled_freeblock h.word rfl rfl rfl
    · exact h.settled b hb

theorem Block.sized_ne_free (b : Block) (n : ℕ) : (b.sized n).magic ≠ .free :=
  (nofun : Magic.alloc ≠ .free)

@[simp]
theorem Block.getdsize_sized (h : dsize ≤ b.size) : (b.sized dsize).getdsize = dsize :=
  Nat.sub_sub_self h

/-- **A block is put back as an allocated one**, and a free one if something is left. -/
theorem Flux.trim (h : Flux p E t f) (hm : f.cur.magic ≠ .free)
    (hfits : ¬E → p.Fits dsize ∧ p.dsize2bsize dsize ≤ f.cur.size ∧ f.cur.skip ≤ dsize) :
    Outcome E (trim p t f.cur dsize) fun r =>
      (∃ n, Trimmed p t (weigh Block.elem f.others) f.cur dsize r n) ∧
        Held p E r.1 { f with cur := r.2.1, after := r.2.2 ++ f.after }.arenas := by
  obtain ⟨hb, hge, htail, ha⟩ := Focus.tiled h.layout
  refine (outcome_trim h.sync hm hge htail h.size_lt.1 fun hE => ?_).mono ?_
  · have := h.size_lt.2 hE
    exact ⟨(hfits hE).1, (hfits hE).2.1, by omega⟩
  rintro ⟨t', c, frag⟩ ⟨n, hr⟩
  refine ⟨⟨n, hr⟩, ?_⟩
  obtain ⟨rfl, hfit, hdata, h64, hle, hsync, hwhole, hcut⟩ := hr
  have hfrag : Tiles (f.cur.addr + n) frag (f.cur.addr + f.cur.size) ∧
      ∀ b ∈ frag, b.magic = .free ∧ b.addr = f.cur.addr + n ∧ b.size = f.cur.size - n ∧
        n = p.dsize2bsize dsize := by
    by_cases hcuts : p.Cuts f.cur.size dsize
    · obtain ⟨hn, hroom, rfl⟩ := hcut hcuts
      constructor
      · refine ⟨rfl, ?_, rfl, ?_⟩
        · simp only [freeblock]
          omega
        · simp only [freeblock, Tiles]
          omega
      · intro b hb
        rw [mem_singleton] at hb
        subst hb
        exact ⟨rfl, rfl, rfl, hn⟩
    · obtain ⟨rfl, rfl⟩ := hwhole hcuts
      exact ⟨rfl, fun b hb => absurd hb not_mem_nil⟩
  have hword : ¬E → 4 ∣ n := by
    intro hE
    by_cases hcuts : p.Cuts f.cur.size dsize
    · rw [(hcut hcuts).1]
      exact (hfits hE).1.word
    · rw [(hwhole hcuts).1]
      exact (h.word hE).2
  have hd : ((f.cur.resized n).sized dsize).getdsize = dsize :=
    Block.getdsize_sized (by rw [Block.resized_size]; omega)
  constructor
  · refine Focus.layout_replace h.layout ⟨hb, h64, rfl, ?_⟩
    exact tiles_append.2 ⟨_, hfrag.1, ha⟩
  · rw [Focus.weigh_arenas, Block.elem_of_ne (Block.sized_ne_free _ _), zero_add]
    have : weigh Block.elem { f with
        cur := (f.cur.resized n).sized dsize, after := frag ++ f.after }.others =
        weigh Block.elem frag + weigh Block.elem f.others := by
      simp only [Focus.others, weigh_append]
      abel
    rw [this]
    exact hsync
  · intro b hb
    rcases Focus.mem_blocksOf_arenas.1 hb with rfl | hb
    · refine ⟨(nofun : Magic.alloc ≠ .unalloc), fun _ => ?_,
        fun hE => ⟨(h.word hE).1, hword hE, fun _ => ?_, fun _ => ?_,
        fun _ => ?_⟩⟩
      · rw [hd]
        exact ⟨hfit, hdata⟩
      · rw [hd]
        exact (hfits hE).1
      · rw [hd]
        rfl
      · rw [hd]
        exact (hfits hE).2.2
    · have hb : b ∈ frag ∨ b ∈ f.others := by
        simp only [Focus.others, mem_append] at hb ⊢
        grind
      rcases hb with hb | hb
      · obtain ⟨hm, haddr, hsize, -⟩ := hfrag.2 b hb
        refine settled_freeblock (fun hE => ?_) haddr hsize hm
        have h1 := h.word hE
        have h2 := hword hE
        omega
      · exact h.settled b hb

theorem Focus.others_append {frag : List Block} (N : Type*) [AddCommMonoid N] (w : Block → N) :
    weigh w { f with cur := c, after := frag ++ f.after }.others =
      weigh w frag + weigh w f.others := by
  simp only [Focus.others, weigh_append]
  abel

theorem Focus.mem_others_append {frag : List Block} {y : Block} :
    y ∈ { f with cur := c, after := frag ++ f.after }.others ↔ y ∈ frag ∨ y ∈ f.others := by
  simp only [Focus.others, mem_append]
  grind

/-! ### What becomes of the free neighbours and of the allocated blocks -/

theorem Flux.allocated_free (hm : b.magic = .free) :
    allocated { f with cur := b }.arenas = weigh Block.allocsize f.others := by
  rw [allocated, Focus.weigh_arenas, Block.allocsize_of_ne (by rw [hm]; exact nofun), zero_add]
  rfl

theorem Focus.Spaced.free (h : f.Spaced) (hb : isFree f.before.head? = false)
    (ha : isFree f.after.head? = false) : Coalesced { f with cur := b }.arenas :=
  Focus.coalesced_arenas.2 ⟨⟨h.above, h.below, h.before, h.after⟩, fun _ => ⟨hb, ha⟩⟩

namespace Trimmed

variable {M : Multiset (ℕ × ℕ)} {r : FreeTree × Block × List Block}

theorem frag_free (h : Trimmed p t M b dsize r n) : ∀ c ∈ r.2.2, c.magic = .free := by
  intro c hc
  by_cases hcuts : p.Cuts b.size dsize
  · rw [(h.cut hcuts).2.2, mem_singleton] at hc
    rw [hc]
    rfl
  · rw [(h.whole hcuts).2] at hc
    exact absurd hc not_mem_nil

theorem allocated (h : Trimmed p t M b dsize r n) :
    allocated { f with cur := r.2.1, after := r.2.2 ++ f.after }.arenas =
      n + weigh Block.allocsize f.others := by
  have hfrag : weigh Block.allocsize r.2.2 = 0 := by
    refine sum_eq_zero fun c hc => ?_
    obtain ⟨d, hd, rfl⟩ := mem_map.1 hc
    exact Block.allocsize_of_ne (by rw [h.frag_free d hd]; exact nofun)
  rw [Libc.allocated, Focus.weigh_arenas, Focus.others_append, hfrag, zero_add, h.block,
    Block.allocsize_of_alloc rfl, Block.sized_size, Block.resized_size]

/-- A fragment is kept apart from the free block behind it only if there is none. -/
theorem coalesced (h : Trimmed p t M f.cur dsize r n) (hs : f.Spaced)
    (ha : p.Cuts f.cur.size dsize → isFree f.after.head? = false) :
    Coalesced { f with cur := r.2.1, after := r.2.2 ++ f.after }.arenas := by
  rw [Focus.coalesced_arenas]
  refine ⟨⟨hs.above, hs.below, hs.before, ?_⟩, fun hc => ?_⟩
  · by_cases hcuts : p.Cuts f.cur.size dsize
    · rw [(h.cut hcuts).2.2]
      exact spaced_cons.2 ⟨fun _ => ha hcuts, hs.after⟩
    · rw [(h.whole hcuts).2]
      exact hs.after
  · simp only [h.block] at hc
    exact absurd hc (Block.sized_ne_free _ _)

end Trimmed

/-! ### Neighbours -/

namespace Focus

variable {before after : List Block}

/-- The tail in front of a block that is not the first one is that of the block on the left. -/
theorem left_eq (h : Layout E f.arenas) (hb : f.before = x :: before) : f.left = some x := by
  have hx := (tiled h).1
  rw [hb, tiles_reverse_cons] at hx
  rw [left, hb]
  exact if_pos (by omega)

/-- The header in front of a block that is first in its arena, and is none, is not taken for a free
block, and reading it does no harm. -/
def LeftFits (e : Env) (f : Focus) : Prop :=
  f.before = [] → isFree f.left = false ∧ f.strays e = false

/-- In front of a block that is not the first one there is a header to read. -/
theorem strays_eq_false (h : Layout E f.arenas) (hf : f.LeftFits e) : f.strays e = false := by
  rcases hb : f.before with - | ⟨x, before⟩
  · exact (hf hb).2
  · rw [strays, left_eq h hb]
    rfl

theorem outcome_readleft (h : Layout E f.arenas) (hf : ¬E → f.LeftFits e) :
    Outcome E (f.readleft e) fun _ => True := by
  rw [readleft]
  refine Outcome.ite (fun hs => Outcome.error_of fun hE => ?_) fun _ => trivial
  rw [strays_eq_false h (hf hE)] at hs
  exact absurd hs nofun

theorem weigh_others_left [AddCommMonoid N] (w : Block → N) (hb : f.before = x :: before)
    (c : Block) :
    weigh w f.others = w x + weigh w { f with before := before, cur := c }.others := by
  simp only [others, hb, reverse_cons, weigh_append, weigh_cons, weigh_nil, add_zero]
  abel

theorem weigh_others_right [AddCommMonoid N] (w : Block → N) (ha : f.after = x :: after)
    (c : Block) :
    weigh w f.others = w x + weigh w { f with cur := c, after := after }.others := by
  simp only [others, ha, weigh_append, weigh_cons]
  abel

theorem mem_others_left (hb : f.before = x :: before) (c y : Block) :
    y ∈ f.others ↔ y = x ∨ y ∈ { f with before := before, cur := c }.others := by
  simp only [others, hb, mem_append, mem_reverse, mem_cons]
  grind

theorem mem_others_right (ha : f.after = x :: after) (c y : Block) :
    y ∈ f.others ↔ y = x ∨ y ∈ { f with cur := c, after := after }.others := by
  simp only [others, ha, mem_append, mem_cons]
  grind

end Focus

/-- **Merging with the block on the left.** -/
theorem Flux.mergeLeft (h : Flux p E t f) (hm : f.cur.magic ≠ .free)
    (hne : ¬E → f.before ≠ []) :
    Outcome E (f.mergeLeft t) fun r => Flux p E r.1 r.2 ∧ ∃ x before, f.before = x :: before ∧
      r.2 = { f with before := before, cur := x.merged f.cur } := by
  rw [Focus.mergeLeft]
  rcases hb : f.before with - | ⟨x, before⟩
  · exact Outcome.error_of fun hE => hne hE hb
  have htiled := Focus.tiled h.layout
  rw [hb, tiles_reverse_cons] at htiled
  obtain ⟨⟨hbefore, hge, htail, hadj⟩, hge', htail', hafter⟩ := htiled
  have hsync : t.Sync (x.elem + f.cur.elem +
      weigh Block.elem { f with before := before, cur := x.merged f.cur }.others) := by
    rw [Block.elem_of_ne hm, add_zero, ← Focus.weigh_others_left _ hb]
    exact h.sync
  refine (outcome_blockmerge hsync hadj).bind ?_
  rintro ⟨t', a⟩ ⟨hsync', rfl⟩
  refine ⟨⟨?_, hsync', ?_, fun hE => ?_⟩, x, before, rfl, rfl⟩
  · refine Focus.layout_replace h.layout ⟨hbefore, ?_, rfl, ?_⟩
    · rw [Block.merged_size]
      omega
    · rw [Block.merged_addr, Block.merged_size, ← add_assoc, hadj]
      exact hafter
  · intro b hb'
    exact h.settled b ((Focus.mem_others_left hb _ b).2 (.inr hb'))
  · have hx := (h.settled x ((Focus.mem_others_left hb x x).2 (.inl rfl))).strict hE
    have hsize := hx.size
    have hcur := (h.word hE).2
    refine ⟨hx.addr, ?_⟩
    rw [Block.merged_size]
    exact Nat.dvd_add hsize hcur

/-- **Merging with the block on the right.** -/
theorem Flux.blockmerge {after : List Block} (h : Flux p E t f) (hm : f.cur.magic ≠ .free)
    (ha : f.after = x :: after) :
    Outcome E (blockmerge t f.cur x) fun r =>
      Flux p E r.1 { f with cur := r.2, after := after } ∧ r.2 = f.cur.merged x := by
  have htiled := Focus.tiled h.layout
  rw [ha] at htiled
  obtain ⟨hbefore, hge, htail, hadj, hge', htail', hafter⟩ := htiled
  have hsync : t.Sync (f.cur.elem + x.elem +
      weigh Block.elem { f with cur := f.cur.merged x, after := after }.others) := by
    rw [Block.elem_of_ne hm, zero_add, ← Focus.weigh_others_right _ ha]
    exact h.sync
  refine (outcome_blockmerge hsync hadj.symm).mono ?_
  rintro ⟨t', a⟩ ⟨hsync', rfl⟩
  refine ⟨⟨?_, hsync', ?_, fun hE => ?_⟩, rfl⟩
  · refine Focus.layout_replace h.layout ⟨hbefore, ?_, rfl, ?_⟩
    · rw [Block.merged_size]
      omega
    · rw [Block.merged_addr, Block.merged_size, ← add_assoc]
      exact hafter
  · intro b hb'
    exact h.settled b ((Focus.mem_others_right ha _ b).2 (.inr hb'))
  · have hx := (h.settled x ((Focus.mem_others_right ha x x).2 (.inl rfl))).strict hE
    have hsize := hx.size
    refine ⟨(h.word hE).1, ?_⟩
    rw [Block.merged_size]
    exact Nat.dvd_add (h.word hE).2 hsize

theorem Flux.mergeRight (h : Flux p E t f) (hm : f.cur.magic ≠ .free)
    (hne : ¬E → f.after ≠ []) :
    Outcome E (f.mergeRight t) fun r => Flux p E r.1 r.2 ∧ ∃ x after, f.after = x :: after ∧
      r.2 = { f with cur := f.cur.merged x, after := after } := by
  rw [Focus.mergeRight]
  rcases ha : f.after with - | ⟨x, after⟩
  · exact Outcome.error_of fun hE => hne hE ha
  refine (h.blockmerge hm ha).bind ?_
  rintro ⟨t', a⟩ ⟨hflux, rfl⟩
  exact ⟨hflux, x, after, rfl, rfl⟩

/-! ### Looking for blocks -/

theorem Tiles.apart (h : Tiles s bs z) (ha : a ∈ bs) (hb : b ∈ bs) :
    a = b ∨ a.addr + a.size ≤ b.addr ∨ b.addr + b.size ≤ a.addr := by
  induction bs generalizing s with
  | nil => exact absurd ha not_mem_nil
  | cons c bs ih =>
    obtain ⟨rfl, -, -, hbs⟩ := h
    rcases mem_cons.1 ha with rfl | ha' <;> rcases mem_cons.1 hb with rfl | hb'
    · exact .inl rfl
    · exact .inr (.inl (hbs.of_mem hb').1)
    · exact .inr (.inr (hbs.of_mem ha').1)
    · exact ih hbs ha' hb'

/-- **Two blocks** of a pool are the same or apart. -/
theorem Layout.apart (h : Layout E As) (ha : a ∈ blocksOf As) (hb : b ∈ blocksOf As) :
    a = b ∨ a.addr + a.size ≤ b.addr ∨ b.addr + b.size ≤ a.addr := by
  induction As with
  | nil => exact absurd ha not_mem_nil
  | cons A As ih =>
    have hAs : Layout E As :=
      ⟨(pairwise_cons.1 h.sorted).2, fun B hB => h.tiled B (mem_cons_of_mem _ hB)⟩
    have hA := (h.tiled A (mem_cons_self ..)).tiles
    have hbelow : ∀ c ∈ blocksOf As, c.addr + c.size ≤ A.base := by
      intro c hc
      obtain ⟨B, hB, hc⟩ := mem_blocksOf.1 hc
      have h1 := (pairwise_cons.1 h.sorted).1 B hB
      have h2 := (h.tiled B (mem_cons_of_mem _ hB)).tiles.of_mem hc
      omega
    rw [blocksOf_cons, mem_append] at ha hb
    rcases ha with ha | ha <;> rcases hb with hb | hb
    · exact hA.apart ha hb
    · have h1 := hA.of_mem ha
      have h2 := hbelow b hb
      exact .inr (.inr (by omega))
    · have h1 := hA.of_mem hb
      have h2 := hbelow a ha
      exact .inr (.inl (by omega))
    · exact ih hAs ha hb

theorem Layout.block (h : Layout E As) (hb : b ∈ blocksOf As) :
    40 < b.addr ∧ 64 ≤ b.size ∧ b.tail = b.size ∧ b.addr + b.size ≤ 2 ^ 64 ∧
      (¬E → b.size < 2 ^ 46) := by
  obtain ⟨A, hA, hb⟩ := mem_blocksOf.1 hb
  obtain ⟨hpos, hle, hlarge, htiles, hsmall⟩ := h.tiled A hA
  have := htiles.of_mem hb
  refine ⟨by omega, by omega, by omega, by omega, fun hE => ?_⟩
  have := (hsmall hE).1
  omega

theorem Layout.eq_of_addr (h : Layout E As) (ha : a ∈ blocksOf As) (hb : b ∈ blocksOf As)
    (hab : a.addr = b.addr) : a = b := by
  have h1 := h.block ha
  have h2 := h.block hb
  refine (h.apart ha hb).resolve_right ?_
  omega

theorem findBlock_spec {l r : List Block} (h : findBlock addr before bs = some (l, b, r)) :
    l.reverse ++ b :: r = before.reverse ++ bs ∧ b.addr = addr := by
  induction bs generalizing before with
  | nil => exact absurd h nofun
  | cons c bs ih =>
    rw [findBlock] at h
    split_ifs at h with hc
    · obtain ⟨rfl, rfl, rfl⟩ : before = l ∧ c = b ∧ bs = r := by simpa using h
      exact ⟨rfl, hc⟩
    · obtain ⟨heq, haddr⟩ := ih h
      rw [heq]
      exact ⟨by simp, haddr⟩

theorem findBlock_isSome (hb : b ∈ bs) : (findBlock b.addr before bs).isSome := by
  induction bs generalizing before with
  | nil => exact absurd hb not_mem_nil
  | cons c bs ih =>
    rw [findBlock]
    split_ifs with hc
    · rfl
    · rcases mem_cons.1 hb with rfl | hb
      · exact absurd rfl hc
      · exact ih hb

theorem findArena_spec (h : findArena addr above As = some f) :
    f.arenas = above.reverse ++ As ∧ f.cur.addr = addr := by
  induction As generalizing above with
  | nil => exact absurd h nofun
  | cons A As ih =>
    rw [findArena] at h
    rcases hA : findBlock addr [] A.blocks with - | ⟨l, b, r⟩
    · rw [hA] at h
      obtain ⟨heq, haddr⟩ := ih h
      exact ⟨by simp [heq], haddr⟩
    · rw [hA] at h
      cases h
      obtain ⟨heq, haddr⟩ := findBlock_spec hA
      refine ⟨?_, haddr⟩
      simp only [Focus.arenas, heq, reverse_nil, nil_append]

theorem findArena_isSome (hb : b ∈ blocksOf As) : (findArena b.addr above As).isSome := by
  induction As generalizing above with
  | nil => exact absurd hb not_mem_nil
  | cons A As ih =>
    rw [findArena]
    rcases hA : findBlock b.addr [] A.blocks with - | ⟨l, c, r⟩
    · rw [blocksOf_cons, mem_append] at hb
      rcases hb with hb | hb
      · have : (findBlock b.addr [] A.blocks).isSome := findBlock_isSome hb
        rw [hA] at this
        exact absurd this nofun
      · exact ih hb
    · rfl

namespace Pool

variable {P : Pool} {v : ℕ}

/-- Between operations. -/
def Inv (p : Params) (E : Prop) (P : Pool) : Prop := Held p E P.tree P.arenalist

/-- What is added to `curalloc` and not to the allocated blocks. -/
def drift (P : Pool) : ℤ := P.curalloc - allocated P.arenalist

theorem at?_arenas (h : P.at? addr = some f) : f.arenas = P.arenalist ∧ f.cur.addr = addr := by
  have := findArena_spec h
  rwa [reverse_nil, nil_append] at this

/-- A block is found at its address. -/
theorem at?_addr (h : Layout E P.arenalist) (hb : b ∈ blocksOf P.arenalist) :
    ∃ f, P.at? b.addr = some f ∧ f.arenas = P.arenalist ∧ f.cur = b := by
  obtain ⟨f, hf⟩ := Option.isSome_iff_exists.1
    (findArena_isSome hb : (findArena b.addr [] P.arenalist).isSome)
  obtain ⟨harenas, haddr⟩ := at?_arenas hf
  refine ⟨f, hf, harenas, h.eq_of_addr ?_ hb haddr⟩
  rw [← harenas]
  exact Focus.mem_blocksOf_arenas.2 (.inl rfl)

/-- A pointer that a caller has. -/
def Live (P : Pool) (b : Block) (v : ℕ) : Prop :=
  b ∈ P.blocks ∧ b.magic = .alloc ∧ b.addr + 16 + b.skip = v

theorem aligned_iff {w : ℕ} : P.aligned w = true ↔ ∃ b ∈ P.blocks, b.magic = .alloc ∧
    b.addr + 16 ≤ w ∧ (w - (b.addr + 16)) % 4 = 0 ∧ (w - (b.addr + 16)) / 4 < b.skip / 4 := by
  rw [aligned, any_eq_true]
  simp only [decide_eq_true_eq]

theorem unalign_add {u : ℕ} (h : ∀ i < n, P.aligned (4 * (u + i)) = true) :
    P.unalign (u + n) = P.unalign u := by
  induction n with
  | zero => rfl
  | succ n ih =>
    rw [← Nat.add_assoc, unalign, if_pos (h n (Nat.lt_succ_self n))]
    exact ih fun i hi => h i (by omega)

theorem unalign_of_not {u : ℕ} (h : P.aligned (4 * u) = false) : P.unalign (u + 1) = u + 1 := by
  rw [unalign, if_neg (by rw [h]; exact nofun)]

/-- **The block of a pointer** is found. -/
theorem Inv.outcome_d2b (h : P.Inv p E) (hv : ¬E → ∃ b, P.Live b v) : Outcome E (P.d2b v) fun f =>
      f.arenas = P.arenalist ∧ f.cur.magic = .alloc ∧ (¬E → P.Live f.cur v) := by
  by_cases hE : E
  · rw [d2b]
    rcases hat : P.at? (4 * P.unalign (v / 4) - 16) with - | f
    · exact hE
    · refine Outcome.ite (fun hm => ?_) fun _ => hE
      exact ⟨(at?_arenas hat).1, hm, fun hE' => absurd hE hE'⟩
  obtain ⟨b, hb, hm, rfl⟩ := hv hE
  have hstrict := (h.settled b hb).strict hE
  obtain ⟨k, hk⟩ := hstrict.addr
  have hblock := h.layout.block hb
  have hskip := hstrict.skip hm
  have hroom := (h.settled b hb).room hm
  -- the words between the header and the pointer are marked, and the last one of the header is not
  have hmarks : ∀ i < b.skip / 4, P.aligned (4 * (k + 4 + i)) = true := by
    intro i hi
    refine aligned_iff.2 ⟨b, hb, hm, by omega, by omega, by omega⟩
  have hhead : P.aligned (4 * (k + 3)) = false := by
    rw [Bool.eq_false_iff]
    intro hc
    obtain ⟨c, hc, hcm, hle, -, hlt⟩ := aligned_iff.1 hc
    have hcskip := ((h.settled c hc).strict hE).skip hcm
    have hcroom := (h.settled c hc).room hcm
    rcases h.layout.apart hb hc with rfl | hapart
    · omega
    · omega
  have hunalign : P.unalign ((b.addr + 16 + b.skip) / 4) = k + 4 := by
    rw [show (b.addr + 16 + b.skip) / 4 = k + 4 + b.skip / 4 by omega, unalign_add hmarks,
      unalign_of_not hhead]
  obtain ⟨f, hf, harenas, rfl⟩ := at?_addr h.layout hb
  rw [d2b, hunalign, show 4 * (k + 4) - 16 = f.cur.addr by omega, hf]
  exact Outcome.ite (fun _ => ⟨harenas, hm, fun _ => ⟨hb, hm, rfl⟩⟩) fun hne => absurd hm hne

end Pool

theorem outcome_blockcheck (h : b.Settled p E) (htail : b.tail = b.size) :
    Outcome E (blockcheck p b) fun _ => True := by
  rw [blockcheck]
  refine (outcome_assertion fun _ => htail).bind fun _ _ => ?_
  cases hm : b.magic with
  | free => trivial
  | unalloc => trivial
  | alloc =>
    refine (outcome_assertion fun _ => (h.room hm).1).bind fun _ _ => ?_
    exact (outcome_assertion fun hE _ => (h.strict hE).phase hm).mono fun _ _ => trivial

end Libc

end Plan9
