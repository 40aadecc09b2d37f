import Plan9.Libc.PoolPlaces
import Mathlib.Data.List.TakeWhile

/-!
# What the allocator does to arenas

Compaction, and new arenas that are merged with those around them.

* `Plan9.Libc.Pool.Inv.poolcompactl` – a compaction keeps the invariant, and afterwards an arena has
  at most one free block, its last;
* `Plan9.Libc.Pool.Inv.poolnewarena` – a new arena keeps the invariant. It can grow the last block
  of the arena below, and if that is an allocated one the block can be cut again.
-/

namespace Plan9

namespace Libc

open Lib List

variable {p : Params} {e : Env} {E : Prop} {t : FreeTree} {M : Multiset (ℕ × ℕ)} {a b : Block}
  {bs : List Block} {s z wb n : ℕ} {A : Arena} {As : List Arena} {f : Focus}

/-! ### Compaction -/

/-- A block without a free one in front of it. -/
def Unmoved (b : Block) (bs : List Block) : Prop :=
  ∃ l r, bs = l ++ b :: r ∧ ∀ c ∈ l, c.magic ≠ .free

variable {c : Block}

theorem unmoved_cons :
    Unmoved c (b :: bs) ↔ c = b ∨ b.magic ≠ .free ∧ Unmoved c bs := by
  constructor
  · rintro ⟨l, r, hl, hfree⟩
    cases l with
    | nil => exact .inl (cons.inj hl).1.symm
    | cons d l =>
      obtain ⟨rfl, rfl⟩ := cons.inj hl
      obtain ⟨hd, hfree⟩ := forall_mem_cons.1 hfree
      exact .inr ⟨hd, l, r, rfl, hfree⟩
  · rintro (rfl | ⟨hb, l, r, rfl, hfree⟩)
    · exact ⟨[], bs, rfl, fun _ h => absurd h not_mem_nil⟩
    · exact ⟨b :: l, r, rfl, forall_mem_cons.2 ⟨hb, hfree⟩⟩

theorem not_unmoved_nil : ¬Unmoved b [] := by
  rintro ⟨l, r, h, -⟩
  cases l <;> exact absurd h nofun

/-- What the loop of `arenacompact` makes of blocks from `s` to `z`, when it writes to `wb`. -/
structure Compacted (p : Params) (E : Prop) (M : Multiset (ℕ × ℕ)) (wb : ℕ) (bs : List Block)
    (z : ℕ) (r : FreeTree × List Block × ℕ × Bool) : Prop where
  sync : r.1.Sync M
  tiles : Tiles wb r.2.1 r.2.2.1
  room : r.2.2.1 = z ∨ r.2.2.1 + 64 ≤ z
  alloc : ∀ b ∈ r.2.1, b.magic = .alloc
  settled : ∀ b ∈ r.2.1, b.Settled p E
  word : ¬E → 4 ∣ r.2.2.1
  allocated : weigh Block.allocsize r.2.1 = weigh Block.allocsize bs
  kept : ∀ s, wb = s → Tiles s bs z → ∀ b, Unmoved b bs → b.magic = .alloc → b ∈ r.2.1

theorem Block.Settled.move (h : b.Settled p E) (hw : ¬E → 4 ∣ wb) :
    ({ b with addr := wb } : Block).Settled p E where
  magic := h.magic
  room := h.room
  strict hE := by
    have hs := h.strict hE
    refine ⟨hw hE, hs.size, hs.fits, fun hm => ?_, hs.skip⟩
    -- the addresses before and after differ by a multiple of 4
    have h1 := hs.phase hm
    have h2 := hs.addr
    have h3 := hw hE
    simp only [Block.getdsize] at h1 ⊢
    omega

theorem outcome_compactBlocks (hbs : Tiles s bs z) (hwb : wb = s ∨ wb + 64 ≤ s)
    (hword : ¬E → 4 ∣ wb) (hsync : t.Sync (weigh Block.elem bs + M))
    (hs : ∀ b ∈ bs, b.Settled p E) :
    Outcome E (Pool.compactBlocks t wb bs) (Compacted p E M wb bs z) := by
  induction bs generalizing s t wb with
  | nil =>
    obtain rfl : s = z := hbs
    rw [weigh_nil, zero_add] at hsync
    exact ⟨hsync, rfl, hwb, fun _ h => absurd h not_mem_nil,
      fun _ h => absurd h not_mem_nil, hword, rfl,
      fun _ _ _ _ h => absurd h not_unmoved_nil⟩
  | cons b bs ih =>
    obtain ⟨rfl, hge, htail, hbs⟩ := hbs
    have hb := hs b (mem_cons_self ..)
    have hs := fun c hc => hs c (mem_cons_of_mem b hc)
    rw [Pool.compactBlocks]
    rw [weigh_cons] at hsync
    cases hm : b.magic with
    | free =>
      rw [Block.elem_of_free hm, add_assoc, Multiset.singleton_add] at hsync
      refine (outcome_pooldel hsync).bind ?_
      rintro ⟨t', b'⟩ ⟨hsync', -⟩
      refine (ih hbs (by omega) hword hsync' hs).mono ?_
      rintro r hr
      refine ⟨hr.sync, hr.tiles, hr.room, hr.alloc, hr.settled, hr.word, ?_, ?_⟩
      · rw [hr.allocated, weigh_cons, Block.allocsize_of_ne (by rw [hm]; exact nofun), zero_add]
      · rintro _ _ _ c hc halloc
        rcases unmoved_cons.1 hc with rfl | ⟨hne, -⟩
        · exact absurd (hm.symm.trans halloc) nofun
        · exact absurd hm hne
    | unalloc => exact absurd hm hb.magic
    | alloc =>
      rw [Block.elem_of_ne (by rw [hm]; exact nofun), zero_add] at hsync
      have hword' : ¬E → 4 ∣ wb + b.size := fun hE =>
        Nat.dvd_add (hword hE) (hb.strict hE).size
      have hmove : (⟨wb, .alloc, b.size, b.tail, b.short, b.skip, b.phase⟩ : Block) =
          { b with addr := wb } := by rw [← hm]
      refine (ih hbs (by omega) hword' hsync hs).bind ?_
      rintro ⟨t', bs', wb', compacted⟩ hr
      simp only [hmove]
      refine ⟨hr.sync, ⟨rfl, hge, htail, hr.tiles⟩, hr.room, ?_, ?_, hr.word, ?_, ?_⟩
      · exact forall_mem_cons.2 ⟨hm, hr.alloc⟩
      · exact forall_mem_cons.2 ⟨hb.move hword, hr.settled⟩
      · simp only [weigh_cons]
        rw [hr.allocated]
        rfl
      · rintro _ rfl ⟨hwb, -, -, -⟩ c hc halloc
        rcases unmoved_cons.1 hc with rfl | ⟨-, hc⟩
        · rw [← hwb]
          exact mem_cons_self ..
        · exact mem_cons_of_mem _ (hr.kept _ (by rw [hwb]) hbs c hc halloc)

theorem outcome_poolcheckarena (hA : A.Tiled E) (hs : ∀ b ∈ A.blocks, b.Settled p E) :
    Outcome E (Pool.poolcheckarena p A) fun _ => True := by
  have h : ∀ b ∈ A.blocks, b.tail = b.size := fun b hb => (hA.tiles.of_mem hb).2.2.2
  rw [Pool.poolcheckarena]
  generalize A.blocks = bs at h hs
  induction bs with
  | nil => trivial
  | cons b bs ih =>
    obtain ⟨hb, hs⟩ := forall_mem_cons.1 hs
    obtain ⟨htail, h⟩ := forall_mem_cons.1 h
    exact (outcome_blockcheck hb htail).bind fun _ _ => ih h hs

/-- Allocated blocks, and behind them at most one free one, have no adjacent free ones. -/
theorem spaced_of_alloc (h : ∀ b ∈ bs, b.magic = .alloc) :
    Spaced bs ∧ Spaced (bs ++ [c]) := by
  induction bs with
  | nil => exact ⟨.nil, .singleton _⟩
  | cons b bs ih =>
    obtain ⟨hb, h⟩ := forall_mem_cons.1 h
    have hne : b.magic ≠ .free := by
      rw [hb]
      exact nofun
    rw [cons_append, spaced_cons_of_ne hne, spaced_cons_of_ne hne]
    exact ih h

/-- What a compaction makes of an arena. -/
structure CompactedArena (p : Params) (E : Prop) (A A' : Arena) : Prop where
  base : A'.base = A.base
  asize : A'.asize = A.asize
  tiled : A'.Tiled E
  settled : ∀ b ∈ A'.blocks, b.Settled p E
  spaced : Spaced A'.blocks
  allocated : weigh Block.allocsize A'.blocks = weigh Block.allocsize A.blocks
  kept : ∀ b, Unmoved b A.blocks → b.magic = .alloc → b ∈ A'.blocks

theorem outcome_arenacompact (hA : A.Tiled E) (hs : ∀ b ∈ A.blocks, b.Settled p E)
    (hsync : t.Sync (weigh Block.elem A.blocks + M)) :
    Outcome E (Pool.arenacompact p t A) fun r =>
      r.1.Sync (weigh Block.elem r.2.1.blocks + M) ∧ CompactedArena p E A r.2.1 := by
  rw [Pool.arenacompact]
  refine (outcome_poolcheckarena hA hs).bind fun _ _ => ?_
  have hword : ¬E → 4 ∣ A.base + 40 := by
    intro hE
    have := (hA.small hE).2.1
    omega
  refine (outcome_compactBlocks hA.tiles (.inl rfl) hword hsync hs).bind ?_
  rintro ⟨t', bs, wb, compacted⟩ ⟨hsync', htiles, hroom, halloc, hsettled, hword', hallocated,
    hkept⟩
  have hkept := hkept _ rfl hA.tiles
  have hlarge := hA.large
  have hle := hA.le
  simp only at hsync' htiles hroom halloc hsettled hword' hallocated hkept ⊢
  have hwb := htiles.le
  have helem : weigh Block.elem bs = 0 := by
    refine sum_eq_zero fun x hx => ?_
    obtain ⟨b, hb, rfl⟩ := mem_map.1 hx
    exact Block.elem_of_ne (by rw [halloc b hb]; decide)
  refine Outcome.ite ?_ ?_
  · intro hlt
    refine (outcome_blocksetsize (fun _ => (by decide : Magic.unalloc ≠ .free)) fun hE =>
      ?_).bind ?_
    · have := (hA.small hE).1
      omega
    rintro b ⟨rfl, -, -⟩
    constructor
    · simp only [weigh_append, helem, zero_add, weigh_cons, weigh_nil, add_zero]
      rw [Block.elem_of_free rfl, Multiset.singleton_add]
      exact pooladd_sync hsync' _
    · refine ⟨rfl, rfl, ⟨hA.pos, hA.le, hA.large, ?_, hA.small⟩, ?_, (spaced_of_alloc halloc).2, ?_,
        fun b hb hm => mem_append_left _ (hkept b hb hm)⟩
      · refine tiles_append.2 ⟨wb, htiles, rfl, ?_, rfl, ?_⟩
        · simp only [pooladd, Block.resized_size]
          omega
        · simp only [pooladd, Block.resized_size, Tiles]
          omega
      · intro b hb
        rcases mem_append.1 hb with hb | hb
        · exact hsettled b hb
        · rw [mem_singleton] at hb
          subst hb
          refine settled_freeblock (fun hE => ⟨hword' hE, ?_⟩) rfl rfl rfl
          have h1 := hword' hE
          have h2 := (hA.small hE).2
          simp only [pooladd, Block.resized_size]
          omega
      · rw [weigh_append, hallocated, weigh_cons, weigh_nil, add_zero,
          Block.allocsize_of_ne (show Magic.free ≠ .alloc by decide), add_zero]
  · intro hge
    constructor
    · rw [helem, zero_add]
      exact hsync'
    · refine ⟨rfl, rfl, ⟨hA.pos, hA.le, hA.large, ?_, hA.small⟩, hsettled,
        (spaced_of_alloc halloc (c := freeblock 0 0)).1, hallocated,
        hkept⟩
      obtain rfl : wb = A.base + A.asize - 16 := by omega
      exact htiles

/-- What a compaction makes of some arenas. -/
structure CompactedArenas (p : Params) (E : Prop) (As As' : List Arena) : Prop where
  bounds : ∀ A' ∈ As', ∃ A ∈ As, A'.base = A.base ∧ A'.asize = A.asize
  layout : Layout E As'
  settled : ∀ b ∈ blocksOf As', b.Settled p E
  coalesced : Coalesced As'
  allocated : allocated As' = allocated As
  kept : ∀ A ∈ As, ∀ b, Unmoved b A.blocks → b.magic = .alloc → b ∈ blocksOf As'

theorem outcome_compactArenas (hAs : Layout E As) (hs : ∀ b ∈ blocksOf As, b.Settled p E)
    (hsync : t.Sync (weigh Block.elem (blocksOf As) + M)) :
    Outcome E (Pool.compactArenas p t As) fun r =>
      r.1.Sync (weigh Block.elem (blocksOf r.2.1) + M) ∧ CompactedArenas p E As r.2.1 := by
  induction As generalizing t M with
  | nil =>
    exact ⟨hsync, ⟨fun _ h => absurd h not_mem_nil, hAs, hs,
      fun _ h => absurd h not_mem_nil, rfl, fun _ h => absurd h not_mem_nil⟩⟩
  | cons A As ih =>
    obtain ⟨hsorted, hsorted'⟩ := pairwise_cons.1 hAs.sorted
    obtain ⟨hA, htiled⟩ := forall_mem_cons.1 hAs.tiled
    rw [blocksOf_cons] at hs hsync
    rw [forall_mem_append] at hs
    rw [weigh_append, add_assoc] at hsync
    rw [Pool.compactArenas]
    refine (outcome_arenacompact hA hs.1 hsync).bind ?_
    rintro ⟨t', A', _⟩ ⟨hsync', hA'⟩
    rw [add_left_comm] at hsync'
    refine (ih ⟨hsorted', htiled⟩ hs.2 hsync').bind ?_
    rintro ⟨t'', As', _⟩ ⟨hsync'', hAs'⟩
    constructor
    · rw [add_left_comm] at hsync''
      simp only [blocksOf_cons, weigh_append, add_assoc]
      exact hsync''
    · refine ⟨?_, ⟨pairwise_cons.2 ⟨?_, hAs'.layout.sorted⟩, ?_⟩, ?_, ?_, ?_, ?_⟩
      · refine forall_mem_cons.2 ⟨⟨A, mem_cons_self .., hA'.base, hA'.asize⟩, ?_⟩
        intro B hB
        obtain ⟨C, hC, h⟩ := hAs'.bounds B hB
        exact ⟨C, mem_cons_of_mem _ hC, h⟩
      · intro B hB
        obtain ⟨C, hC, hbase, hasize⟩ := hAs'.bounds B hB
        rw [hbase, hasize, hA'.base]
        exact hsorted C hC
      · exact forall_mem_cons.2 ⟨hA'.tiled, hAs'.layout.tiled⟩
      · exact forall_mem_append.2 ⟨hA'.settled, hAs'.settled⟩
      · exact forall_mem_cons.2 ⟨hA'.spaced, hAs'.coalesced⟩
      · have := hAs'.allocated
        rw [allocated, allocated] at this ⊢
        simp only [blocksOf_cons, weigh_append]
        rw [this, hA'.allocated]
      · intro B hB b hb hm
        rw [blocksOf_cons, mem_append]
        rcases mem_cons.1 hB with rfl | hB
        · exact .inl (hA'.kept b hb hm)
        · exact .inr (hAs'.kept B hB b hb hm)

namespace Pool

variable {P : Pool}

/-- The compaction is due. -/
def Compacts (p : Params) (P : Pool) : Prop := p.move = true ∧ P.lastcompact ≠ P.nfree

/-- What `poolcompactl` makes of a pool. -/
structure CompactedPool (p : Params) (E : Prop) (P P' : Pool) : Prop where
  inv : P'.Inv p E
  coalesced : Coalesced P.arenalist → Coalesced P'.arenalist
  drift : P'.drift = P.drift
  lastcompact : P'.lastcompact = P.lastcompact ↔ ¬P.Compacts p
  kept : ∀ f : Focus, f.arenas = P.arenalist → f.cur.magic = .alloc →
    (P.Compacts p → ∀ b ∈ f.before, b.magic ≠ .free) → f.cur ∈ P'.blocks

/-- **A compaction.** -/
theorem Inv.poolcompactl (h : P.Inv p E) :
    Outcome E (P.poolcompactl p) fun r => CompactedPool p E P r.1 := by
  rw [Pool.poolcompactl]
  refine Outcome.ite ?_ ?_
  · intro hc
    refine ⟨h, fun h => h, rfl, iff_of_true rfl ?_, fun f hf _ _ => ?_⟩
    · rintro ⟨hmove, hne⟩
      rcases hc with hc | hc
      · exact absurd (hc.symm.trans hmove) nofun
      · exact hne hc
    rw [blocks, ← hf]
    exact Focus.mem_blocksOf_arenas.2 (.inl rfl)
  · intro hc
    rw [not_or, Bool.not_eq_false] at hc
    have hsync := h.sync
    rw [← add_zero (weigh _ _)] at hsync
    refine (outcome_compactArenas h.layout h.settled hsync).bind ?_
    rintro ⟨t, As, _⟩ ⟨hsync', hAs⟩
    rw [add_zero] at hsync'
    refine ⟨⟨hAs.layout, hsync', hAs.settled⟩, fun _ => hAs.coalesced, ?_,
      iff_of_false (Ne.symm hc.2) fun hn => hn hc,
      fun f hf hm hfirst => ?_⟩
    · simp only [drift]
      rw [hAs.allocated]
    · refine hAs.kept ⟨f.base, f.asize, f.before.reverse ++ f.cur :: f.after⟩ ?_ _ ?_ hm
      · rw [← hf, Focus.arenas]
        exact mem_append_right _ (mem_cons_self ..)
      · exact ⟨_, _, rfl, fun b hb => hfirst hc b (mem_reverse.1 hb)⟩

end Pool

/-! ### Merging arenas -/

/-- Two allocated blocks with the same pointer and the same data. -/
def Block.Same (b b' : Block) : Prop :=
  b'.magic = .alloc ∧ b'.addr = b.addr ∧ b'.skip = b.skip ∧ b'.getdsize = b.getdsize

/-- What becomes of the arenas: under the first condition no two free blocks come to be adjacent,
and under the second one the allocated blocks keep the sum of their sizes. -/
structure Rearranged (p : Params) (E : Prop) (As : List Arena) (t : FreeTree) (As' : List Arena)
    (apart even : Prop) : Prop where
  held : Held p E t As'
  coalesced : apart → Coalesced As → Coalesced As'
  allocated : even → allocated As' = allocated As
  kept : ∀ c ∈ blocksOf As, c.magic = .alloc → ∃ c' ∈ blocksOf As', c.Same c'

/-- If the block is allocated, it is not cut again when it has grown to a size. The fragment would
come to lie in front of a free block. -/
def GrowsApart (p : Params) (b : Block) (nsize : ℕ) : Prop :=
  b.magic = .alloc → ¬p.Cuts nsize b.getdsize

/-- If the block is allocated, it is cut again to the size that it had. -/
def GrowsEven (p : Params) (b : Block) (nsize : ℕ) : Prop :=
  b.magic = .alloc → p.Cuts nsize b.getdsize ∧ p.dsize2bsize b.getdsize = b.size

/-- The place of the last block of an arena in the arena that comes of a merge. -/
def joint (above : List Arena) (top bot : Arena) (l : List Block) (c : Block)
    (below : List Arena) : Focus :=
  ⟨above.reverse, bot.base, top.asize + (top.base - bot.base), l.reverse, c, top.blocks, below⟩

section Joint

variable {above below : List Arena} {top bot : Arena} {l : List Block} {c : Block}

theorem joint_arenas : (joint above top bot l c below).arenas = above ++
    ⟨bot.base, top.asize + (top.base - bot.base), l ++ c :: top.blocks⟩ :: below := by
  simp [joint, Focus.arenas]

theorem weigh_joint {N : Type*} [AddCommMonoid N] (w : Block → N) (hl : bot.blocks = l ++ [b]) :
    weigh w (blocksOf (above ++ top :: bot :: below)) =
      w b + weigh w (joint above top bot l c below).others := by
  simp only [joint, Focus.others, blocksOf_append, blocksOf_cons, weigh_append, hl, weigh_cons,
    weigh_nil, reverse_reverse]
  abel

theorem mem_joint (hl : bot.blocks = l ++ [b]) (x : Block) :
    x ∈ blocksOf (above ++ top :: bot :: below) ↔
      x = b ∨ x ∈ (joint above top bot l c below).others := by
  simp only [joint, Focus.others, blocksOf_append, blocksOf_cons, hl, mem_append,
    mem_singleton, reverse_reverse]
  grind

theorem spaced_joint (hl : bot.blocks = l ++ [b])
    (h : Coalesced (above ++ top :: bot :: below)) :
    (joint above top bot l c below).Spaced ∧
      (b.magic = .free → isFree l.reverse.head? = false) := by
  have hmem : ∀ A ∈ above ++ top :: bot :: below, Spaced A.blocks := h
  rw [forall_mem_append, forall_mem_cons, forall_mem_cons] at hmem
  obtain ⟨habove, htop, hbot, hbelow⟩ := hmem
  rw [hl, ← reverse_reverse l, spaced_around, spaced_cons] at hbot
  refine ⟨⟨?_, hbelow, hbot.1.2, htop⟩, hbot.1.1⟩
  intro A hA
  exact habove A (mem_reverse.1 hA)

/-- The arena that comes of a merge is tiled, with the grown block instead of the last one. -/
theorem layout_joint (hl : bot.blocks = l ++ [b]) (h : Layout E (above ++ top :: bot :: below))
    (hsmall : ¬E → top.asize + (top.base - bot.base) < 2 ^ 46) (hc : c.addr = b.addr)
    (hsize : c.size = top.base + 40 - b.addr) (htail : c.tail = c.size) :
    Layout E (joint above top bot l c below).arenas ∧ b.size ≤ c.size := by
  obtain ⟨hsorted, htiled⟩ := h
  rw [pairwise_append, pairwise_cons, pairwise_cons] at hsorted
  rw [forall_mem_append, forall_mem_cons, forall_mem_cons] at htiled
  obtain ⟨habove, ⟨htop, hbot, hbelow⟩, hab⟩ := hsorted
  obtain ⟨habove', htop', hbot', hbelow'⟩ := htiled
  have hle := htop bot (mem_cons_self ..)
  have htiles := hbot'.tiles
  rw [hl, ← reverse_reverse l, tiles_around] at htiles
  obtain ⟨hbefore, hge, hbtail, hend⟩ := htiles
  have hend : b.addr + b.size = bot.base + bot.asize - 16 := hend
  have hlarge := hbot'.large
  have hlarge' := htop'.large
  have hle' := htop'.le
  refine ⟨?_, by omega⟩
  rw [joint_arenas]
  constructor
  · rw [pairwise_append, pairwise_cons]
    refine ⟨habove, ⟨fun B hB => ?_, hbelow⟩, fun A hA B hB => ?_⟩
    · exact hbot B hB
    · rcases mem_cons.1 hB with rfl | hB
      · have := hab A hA top (mem_cons_self ..)
        simp only
        omega
      · exact hab A hA B (mem_cons_of_mem _ (mem_cons_of_mem _ hB))
  · rw [forall_mem_append, forall_mem_cons]
    refine ⟨habove', ⟨hbot'.pos, ?_, ?_, ?_, fun hE => ⟨hsmall hE, (hbot'.small hE).2.1, ?_⟩⟩,
      hbelow'⟩
    · simp only
      omega
    · simp only
      omega
    · rw [← reverse_reverse l]
      refine tiles_around.2 ⟨hc ▸ hbefore, by omega, htail, ?_⟩
      have := htop'.tiles
      rw [show c.addr + c.size = top.base + 40 by omega]
      rw [show bot.base + (top.asize + (top.base - bot.base)) - 16 = top.base + top.asize - 16 by
        omega]
      exact this
    · have h1 := (htop'.small hE).2
      have h2 := (hbot'.small hE).2
      simp only
      omega

end Joint

theorem Block.Same.refl (h : b.magic = .alloc) : b.Same b := ⟨h, rfl, rfl, rfl⟩

theorem Block.Same.trans {d : Block} (h : b.Same c) (h' : c.Same d) : b.Same d :=
  ⟨h'.1, h'.2.1.trans h.2.1, h'.2.2.1.trans h.2.2.1, h'.2.2.2.trans h.2.2.2⟩

section Joint

variable {above below : List Arena} {top bot : Arena} {l : List Block} {c : Block}

/-- The grown block is out of its place. -/
theorem Held.joint (h : Held p E t (above ++ top :: bot :: below)) (hl : bot.blocks = l ++ [b])
    (hsmall : ¬E → top.asize + (top.base - bot.base) < 2 ^ 46) (hc : c.addr = b.addr)
    (hsize : c.size = top.base + 40 - b.addr) (htail : c.tail = c.size)
    {t' : FreeTree} (hsync : t'.Sync (weigh Block.elem (joint above top bot l c below).others)) :
    Flux p E t' (joint above top bot l c below) where
  layout := (layout_joint hl h.layout hsmall hc hsize htail).1
  sync := hsync
  settled x hx := h.settled x ((mem_joint hl x).2 (.inr hx))
  word hE := by
    have hb := (h.settled b ((mem_joint (c := c) hl b).2 (.inl rfl))).strict hE
    have h1 := hb.addr
    have h2 := ((h.layout.tiled top (by simp)).small hE).2.1
    change 4 ∣ c.addr ∧ 4 ∣ c.size
    rw [hc, hsize]
    omega

/-- A free block has grown and is free again. -/
theorem Rearranged.of_free {f : Focus} (hheld : Held p E t { f with cur := c }.arenas)
    (hc : c.magic = .free)
    (hmem : ∀ y ∈ blocksOf As, y.magic = .alloc → y ∈ f.others)
    (hweigh : Libc.allocated As = weigh Block.allocsize f.others)
    (hspaced : Coalesced As →
      f.Spaced ∧ isFree f.before.head? = false ∧ isFree f.after.head? = false) :
    Rearranged p E As t { f with cur := c }.arenas (GrowsApart p b n) (GrowsEven p b n) where
  held := hheld
  coalesced _ h := by
    obtain ⟨hs, hb, ha⟩ := hspaced h
    exact hs.free hb ha
  allocated _ := by rw [Flux.allocated_free hc, hweigh]
  kept y hy hm := ⟨y, Focus.mem_blocksOf_arenas.2 (.inr (hmem y hy hm)), .refl hm⟩

/-- A grown block that is free. -/
theorem Held.outcome_growFree (h : Held p E t (above ++ top :: bot :: below))
    (hl : bot.blocks = l ++ [b]) (hsmall : ¬E → top.asize + (top.base - bot.base) < 2 ^ 46)
    (hnsize : ¬E → top.base + 40 - b.addr < 2 ^ 46) (hfree : b.magic = .free) :
    Outcome E (Pool.blockgrow p t b (top.base + 40 - b.addr) top.blocks) fun r =>
      Rearranged p E (above ++ top :: bot :: below) r.1
        (above ++ ⟨bot.base, top.asize + (top.base - bot.base), l ++ r.2⟩ :: below)
        (GrowsApart p b (top.base + 40 - b.addr)) (GrowsEven p b (top.base + 40 - b.addr)) := by
  have hsync := h.sync
  rw [weigh_joint (c := b) Block.elem hl, Block.elem_of_free hfree, Multiset.singleton_add]
    at hsync
  rw [Pool.blockgrow, if_pos hfree]
  refine (outcome_pooldel hsync).bind ?_
  rintro ⟨t', a⟩ ⟨hsync', rfl⟩
  refine (outcome_blocksetsize (fun _ => (by decide : Magic.unalloc ≠ .free)) fun hE =>
    ?_).bind ?_
  · have := hnsize hE
    omega
  rintro a ⟨rfl, -, -⟩
  generalize hn : top.base + 40 - b.addr = n at hnsize ⊢
  have hflux : Flux p E t' (Libc.joint above top bot l
      (({ b with magic := .unalloc } : Block).resized n) below) :=
    h.joint (c := ({ b with magic := .unalloc } : Block).resized n) hl hsmall rfl hn.symm rfl
      hsync'
  generalize hf : Libc.joint above top bot l
    (({ b with magic := .unalloc } : Block).resized n) below = f at hflux
  have harenas : ∀ (c : Block) (rest : List Block), { f with cur := c, after := rest }.arenas =
      above ++ ⟨bot.base, top.asize + (top.base - bot.base), l ++ c :: rest⟩ :: below := by
    intro c rest
    rw [← hf]
    simp [Libc.joint, Focus.arenas]
  have hafter : f.after = top.blocks := by rw [← hf]; rfl
  have hbefore : f.before = l.reverse := by rw [← hf]; rfl
  have hcur : f.cur = ({ b with magic := .unalloc } : Block).resized n := by rw [← hf]; rfl
  have hmem : ∀ y ∈ blocksOf (above ++ top :: bot :: below), y.magic = .alloc → y ∈ f.others := by
    intro y hy hm
    rcases (mem_joint hl y).1 hy with rfl | hy
    · exact absurd (hfree.symm.trans hm) (by decide)
    · rw [← hf]
      exact hy
  have hweigh : allocated (above ++ top :: bot :: below) = weigh Block.allocsize f.others := by
    rw [allocated, weigh_joint Block.allocsize hl,
      Block.allocsize_of_ne (by rw [hfree]; decide), zero_add, hf]
  have hspaced : Coalesced (above ++ top :: bot :: below) →
      f.Spaced ∧ isFree f.before.head? = false := by
    intro hcoal
    obtain ⟨h1, h2⟩ := spaced_joint (c := f.cur) hl hcoal
    rw [hcur, hf] at h1
    exact ⟨h1, hbefore ▸ h2 hfree⟩
  refine Outcome.ite ?_ ?_
  · intro hright
    rw [← hafter] at hright ⊢
    rcases hx : f.after with - | ⟨x, rest⟩
    · rw [hx] at hright
      exact absurd hright Bool.false_ne_true
    rw [hx, List.head?_cons, isFree_some] at hright
    rw [← hcur]
    refine (hflux.blockmerge (by rw [hcur]; exact (by decide : Magic.unalloc ≠ .free)) hx).bind ?_
    rintro ⟨t'', a⟩ ⟨hflux', rfl⟩
    change Rearranged p E _ (pooladd t'' (f.cur.merged x)).1 (above ++
      ⟨bot.base, _, l ++ (pooladd t'' (f.cur.merged x)).2 :: rest⟩ :: below) _ _
    rw [← harenas]
    refine Rearranged.of_free hflux'.free rfl ?_ ?_ ?_
    · intro y hy hm
      rcases (Focus.mem_others_right hx (f.cur.merged x) y).1 (hmem y hy hm) with rfl | hy
      · exact absurd (hright.symm.trans hm) (by decide)
      · exact hy
    · rw [hweigh, Focus.weigh_others_right _ hx (f.cur.merged x),
        Block.allocsize_of_ne (by rw [hright]; decide), zero_add]
    · intro hcoal
      obtain ⟨hs, hb⟩ := hspaced hcoal
      have hsx := hs.after
      rw [hx, spaced_cons] at hsx
      exact ⟨⟨hs.above, hs.below, hs.before, hsx.2⟩, hb, hsx.1 hright⟩
  · intro hright
    rw [← hafter, Bool.not_eq_true] at hright
    rw [← hcur]
    change Rearranged p E _ (pooladd t' f.cur).1 (above ++
      ⟨bot.base, _, l ++ (pooladd t' f.cur).2 :: top.blocks⟩ :: below) _ _
    rw [← hafter, ← harenas]
    refine Rearranged.of_free hflux.free rfl hmem hweigh ?_
    intro hcoal
    obtain ⟨hs, hb⟩ := hspaced hcoal
    exact ⟨hs, hb, hright⟩

/-- **A grown block.** -/
theorem Held.outcome_blockgrow (h : Held p E t (above ++ top :: bot :: below))
    (hl : bot.blocks = l ++ [b]) (hsmall : ¬E → top.asize + (top.base - bot.base) < 2 ^ 46) :
    Outcome E (Pool.blockgrow p t b (top.base + 40 - b.addr) top.blocks) fun r =>
      Rearranged p E (above ++ top :: bot :: below) r.1
        (above ++ ⟨bot.base, top.asize + (top.base - bot.base), l ++ r.2⟩ :: below)
        (GrowsApart p b (top.base + 40 - b.addr)) (GrowsEven p b (top.base + 40 - b.addr)) := by
  have hb := h.settled b ((mem_joint (c := b) hl b).2 (.inl rfl))
  have hbot := (h.layout.tiled bot (by simp)).tiles.of_mem (b := b) (by rw [hl]; simp)
  have htail := hbot.2.2.2
  have hnsize : ¬E → top.base + 40 - b.addr < 2 ^ 46 := by
    intro hE
    have := hsmall hE
    omega
  by_cases hfree : b.magic = .free
  · exact h.outcome_growFree hl hsmall hnsize hfree
  have hsync := h.sync
  rw [weigh_joint (c := b) Block.elem hl, Block.elem_of_ne hfree, zero_add] at hsync
  rw [Pool.blockgrow, if_neg hfree]
  have halloc : b.magic = .alloc := by
    cases hm : b.magic with
    | free => exact absurd hm hfree
    | unalloc => exact absurd hm hb.magic
    | alloc => rfl
  refine (outcome_blocksetsize (fun _ => hfree) fun hE => ?_).bind ?_
  · have := hnsize hE
    omega
  rintro a ⟨rfl, -, -⟩
  have hge := (layout_joint (c := b.resized (top.base + 40 - b.addr)) hl h.layout hsmall rfl rfl
    rfl).2
  rw [Block.resized_size] at hge
  generalize hn : top.base + 40 - b.addr = n at hnsize hge ⊢
  have hflux : Flux p E t (Libc.joint above top bot l (b.resized n) below) :=
    h.joint (c := b.resized n) hl hsmall rfl hn.symm rfl hsync
  generalize hf : Libc.joint above top bot l (b.resized n) below = f at hflux
  have hcur : f.cur = b.resized n := by rw [← hf]; rfl
  have hafter : f.after = top.blocks := by rw [← hf]; rfl
  rw [← hcur]
  refine (hflux.trim (by rw [hcur]; exact hfree) fun hE => ?_).bind ?_
  · have hs := hb.strict hE
    rw [hcur, Block.resized_size]
    exact ⟨hs.fits halloc, (hb.room halloc).1.trans hge, hs.skip halloc⟩
  rintro ⟨t', c, frag⟩ ⟨⟨m, hr⟩, hheld⟩
  have harenas : { f with cur := c, after := frag ++ f.after }.arenas = above ++
      ⟨bot.base, top.asize + (top.base - bot.base), l ++ (c :: frag ++ top.blocks)⟩ :: below := by
    rw [← hf]
    simp [Libc.joint, Focus.arenas]
  simp only at hheld ⊢
  rw [harenas] at hheld
  refine ⟨hheld, ?_, ?_, ?_⟩
  · intro hcuts hcoal
    have hs := (spaced_joint (c := b.resized n) hl hcoal).1
    rw [hf] at hs
    have := hr.coalesced hs fun hc => ?_
    · simp only at this
      rwa [harenas] at this
    · rw [hcur, Block.resized_size] at hc
      exact absurd hc (hcuts halloc)
  · intro heven
    obtain ⟨hcuts, hsize⟩ := heven halloc
    have hn' := hr.cut (by rw [hcur, Block.resized_size]; exact hcuts)
    have := hr.allocated (f := f)
    simp only at this
    rw [← harenas, this, allocated, weigh_joint Block.allocsize hl, hf,
      Block.allocsize_of_alloc halloc, hn'.1, hsize]
  · intro y hy hm
    rw [← harenas]
    rcases (mem_joint (c := b.resized n) hl y).1 hy with rfl | hy
    · refine ⟨c, Focus.mem_blocksOf_arenas.2 (.inl rfl), ?_⟩
      have hc := hr.block
      simp only at hc
      rw [hc, hcur]
      refine ⟨rfl, rfl, rfl, Block.getdsize_sized ?_⟩
      rw [Block.resized_size]
      exact (Nat.le_add_right _ _).trans hr.data
    · refine ⟨y, Focus.mem_blocksOf_arenas.2 (.inr ?_), .refl hm⟩
      rw [hf] at hy
      simp only [Focus.others, mem_append] at hy ⊢
      grind

/-- **Two arenas are merged**, or left as they are. -/
theorem Held.outcome_arenamerge (h : Held p E t (above ++ top :: bot :: below))
    (hsmall : ¬E → e.merge bot.base top.base = true → top.asize + (top.base - bot.base) < 2 ^ 46) :
    Outcome E (Pool.arenamerge p e t bot top) fun r =>
      (r = (t, none) ∧ e.merge bot.base top.base = false) ∨
      (e.merge bot.base top.base = true ∧ ∃ b ∈ bot.blocks.getLast?, ∃ A, r.2 = some A ∧
        A.base = bot.base ∧ A.asize = top.asize + (top.base - bot.base) ∧
        Rearranged p E (above ++ top :: bot :: below) r.1 (above ++ A :: below)
          (GrowsApart p b (top.base + 40 - b.addr)) (GrowsEven p b (top.base + 40 - b.addr))) := by
  have hbot := h.layout.tiled bot (by simp)
  have htop := h.layout.tiled top (by simp)
  rw [Pool.arenamerge]
  refine Outcome.ite ?_ ?_
  · intro hmerge
    have hlarge := hbot.large
    have hlarge' := htop.large
    rcases hb : bot.blocks.reverse with - | ⟨b, before⟩
    · have htiles := hbot.tiles
      rw [reverse_eq_nil_iff.1 hb, Tiles] at htiles
      omega
    rcases hc : top.blocks with - | ⟨c, rest⟩
    · have htiles := htop.tiles
      rw [hc, Tiles] at htiles
      omega
    have hl : bot.blocks = before.reverse ++ [b] := by
      rw [← reverse_cons, ← hb, reverse_reverse]
    have hbmem : b ∈ bot.blocks := by simp [hl]
    have hcmem : c ∈ top.blocks := by simp [hc]
    have hsettled : ∀ A ∈ above ++ top :: bot :: below, ∀ b ∈ A.blocks, b.Settled p E :=
      fun A hA b hb => h.settled b (mem_blocksOf.2 ⟨A, hA, hb⟩)
    refine (outcome_blockcheck (hsettled bot (by simp) b hbmem)
      (hbot.tiles.of_mem hbmem).2.2.2).bind fun _ _ => ?_
    refine (outcome_blockcheck (hsettled top (by simp) c hcmem)
      (htop.tiles.of_mem hcmem).2.2.2).bind fun _ _ => ?_
    have hcaddr : c.addr = top.base + 40 := by
      have htiles := htop.tiles
      rw [hc] at htiles
      exact htiles.1
    rw [← hc, hcaddr]
    refine (h.outcome_blockgrow hl fun hE => hsmall hE hmerge).bind ?_
    rintro ⟨t', bs⟩ hr
    refine .inr ⟨hmerge, b, by simp [hl], _, rfl, rfl, rfl, hr⟩
  · intro hmerge
    exact .inl ⟨rfl, Bool.not_eq_true _ ▸ hmerge⟩

end Joint

namespace Rearranged

variable {As' As'' : List Arena} {t' : FreeTree} {apart even apart' even' : Prop}

theorem refl (h : Held p E t As) : Rearranged p E As t As apart even :=
  ⟨h, fun _ h => h, fun _ => rfl, fun c hc hm => ⟨c, hc, .refl hm⟩⟩

theorem mono (h : Rearranged p E As t As' apart even) (ha : apart' → apart) (he : even' → even) :
    Rearranged p E As t As' apart' even' :=
  ⟨h.held, fun hc => h.coalesced (ha hc), fun hc => h.allocated (he hc), h.kept⟩

theorem trans (h : Rearranged p E As t As' apart even)
    (h' : Rearranged p E As' t' As'' apart even) : Rearranged p E As t' As'' apart even where
  held := h'.held
  coalesced hc hs := h'.coalesced hc (h.coalesced hc hs)
  allocated hc := (h'.allocated hc).trans (h.allocated hc)
  kept c hc hm := by
    obtain ⟨d, hd, hsame⟩ := h.kept c hc hm
    obtain ⟨d', hd', hsame'⟩ := h'.kept d hd hsame.1
    exact ⟨d', hd', hsame.trans hsame'⟩

end Rearranged

/-! ### New arenas -/

namespace Pool

variable {P : Pool} {asize : ℕ}

section Merge

variable {above below : List Arena}

/-- The first merge, of an arena whose only block is free. -/
theorem outcome_mergeUp (h : Held p E t (above ++ A :: below)) (hA : A.blocks = [b])
    (hb : b.magic = .free)
    (hsmall : ¬E → ∀ B ∈ above.getLast?, e.merge A.base B.base = true →
      B.asize + (B.base - A.base) < 2 ^ 46) :
    Outcome E (mergeUp p e t A above) fun r =>
      Rearranged p E (above ++ A :: below) r.1 (r.2.1 ++ r.2.2 :: below) True True ∧
        r.2.2.base = A.base ∧
        (r.2.2.asize = A.asize ∧ (∀ B ∈ above.getLast?, e.merge A.base B.base = false) ∨
          ∃ B ∈ above.getLast?, e.merge A.base B.base = true ∧
            r.2.2.asize = B.asize + (B.base - A.base)) := by
  rw [mergeUp]
  rcases hr : above.reverse with - | ⟨B, above'⟩
  · obtain rfl := reverse_eq_nil_iff.1 hr
    exact ⟨.refl h, rfl, .inl ⟨rfl, nofun⟩⟩
  have habove : above = above'.reverse ++ [B] := by
    rw [← reverse_cons, ← hr, reverse_reverse]
  have hlast : above.getLast? = some B := by simp [habove]
  rw [hlast] at hsmall
  have h' : Held p E t (above'.reverse ++ B :: A :: below) := by
    rw [habove] at h
    simpa using h
  refine (h'.outcome_arenamerge fun hE hm => hsmall hE B rfl hm).bind ?_
  rintro ⟨t', m⟩ (⟨hm, hmerge⟩ | ⟨hmerge, c, hc, A', hm, hbase, hasize, hr'⟩)
  · obtain ⟨rfl, rfl⟩ := Prod.mk.inj hm
    refine ⟨.refl h, rfl, .inl ⟨rfl, fun C hC => ?_⟩⟩
    rw [hlast] at hC
    cases hC
    exact hmerge
  · obtain rfl : m = some A' := hm
    obtain rfl : b = c := by
      rw [hA] at hc
      exact Option.some.inj hc
    refine ⟨?_, hbase, .inr ⟨B, hlast, hmerge, hasize⟩⟩
    have : Rearranged p E _ _ _ True True := hr'.mono (fun _ hc => absurd (hb.symm.trans hc) nofun)
        fun _ hc => absurd (hb.symm.trans hc) nofun
    rw [habove]
    simpa using this

/-- The second merge. -/
theorem outcome_mergeDown (h : Held p E t (above ++ A :: below))
    (hsmall : ¬E → ∀ D ∈ below.head?, e.merge D.base A.base = true →
      A.asize + (A.base - D.base) < 2 ^ 46) :
    Outcome E (mergeDown p e t A below) fun r =>
      Rearranged p E (above ++ A :: below) r.1 (above ++ r.2)
        (∀ D ∈ below.head?, e.merge D.base A.base = true → ∀ b ∈ D.blocks.getLast?,
          GrowsApart p b (A.base + 40 - b.addr))
        (∀ D ∈ below.head?, e.merge D.base A.base = true → ∀ b ∈ D.blocks.getLast?,
          GrowsEven p b (A.base + 40 - b.addr)) := by
  rcases below with - | ⟨D, below'⟩
  · rw [mergeDown]
    exact .refl h
  rw [mergeDown]
  refine (h.outcome_arenamerge fun hE hm => hsmall hE D rfl hm).bind ?_
  rintro ⟨t', m⟩ (⟨hm, hmerge⟩ | ⟨hmerge, c, hc, A', hm, hbase, hasize, hr⟩)
  · obtain ⟨rfl, rfl⟩ := Prod.mk.inj hm
    exact .refl h
  · obtain rfl : m = some A' := hm
    exact hr.mono (fun hd => hd D rfl hmerge c hc) fun hd => hd D rfl hmerge c hc

end Merge

/-- The arenas above an address, and those that are not. -/
def higher (P : Pool) (a : ℕ) : List Arena := P.arenalist.takeWhile fun A => a < A.base

@[inherit_doc higher]
def lower (P : Pool) (a : ℕ) : List Arena := P.arenalist.dropWhile fun A => a < A.base

theorem higher_append_lower (P : Pool) (a : ℕ) : P.higher a ++ P.lower a = P.arenalist :=
  takeWhile_append_dropWhile

variable {a : ℕ}

/-- A region that is apart from the arenas comes between those above and those below it. -/
theorem sorted_region (h : Layout E P.arenalist) (ha : Apart P a asize) (hpos : 0 < asize) :
    (∀ A ∈ P.higher a, a + asize ≤ A.base) ∧ ∀ B ∈ P.lower a, B.base + B.asize ≤ a := by
  obtain ⟨-, -, hapart⟩ := ha
  constructor
  · intro A hA
    have hlt : a < A.base := by simpa using mem_takeWhile_imp hA
    have := hapart A (takeWhile_subset _ hA)
    omega
  · intro B hB
    have hmem := dropWhile_subset _ hB
    have hsorted := h.sorted.sublist (dropWhile_sublist fun A => decide (a < A.base))
    have hnot := List.head?_dropWhile_not (fun A : Arena => decide (a < A.base)) P.arenalist
    change B ∈ P.arenalist.dropWhile _ at hB
    rcases hu : P.arenalist.dropWhile (fun A => decide (a < A.base)) with - | ⟨D, below⟩
    · rw [hu] at hB
      exact absurd hB not_mem_nil
    rw [hu] at hB hsorted hnot
    have hD : ¬a < D.base := by simpa using hnot
    have hDle : D.base + D.asize ≤ a := by
      have h1 := hapart D (dropWhile_subset _ (hu ▸ mem_cons_self ..))
      omega
    rcases mem_cons.1 hB with rfl | hB
    · exact hDle
    · have := (pairwise_cons.1 hsorted).1 B hB
      omega

/-- **A new arena with one free block.** -/
theorem held_insert {above below : List Arena} (h : Held p E t (above ++ below))
    (habove : ∀ A ∈ above, a + asize ≤ A.base) (hbelow : ∀ B ∈ below, B.base + B.asize ≤ a)
    (hpos : 0 < a) (hle : a + asize ≤ 2 ^ 64) (hlarge : 120 ≤ asize)
    (hsmall : ¬E → asize < 2 ^ 46 ∧ 4 ∣ a ∧ 4 ∣ asize) (hb : b.addr = a + 40)
    (hsize : b.size = asize - 56) (htail : b.tail = b.size) :
    Rearranged p E (above ++ below) (pooladd t b).1
      (above ++ ⟨a, asize, [(pooladd t b).2]⟩ :: below) True True := by
  have hblock : blocksOf (above ++ ⟨a, asize, [(pooladd t b).2]⟩ :: below) =
      blocksOf above ++ (pooladd t b).2 :: blocksOf below := by simp
  have hmem : ∀ c ∈ blocksOf (above ++ below), c ∈ blocksOf above ++ (pooladd t b).2 ::
      blocksOf below := by
    intro c hc
    rw [blocksOf_append, mem_append] at hc
    rw [mem_append, mem_cons]
    tauto
  refine ⟨⟨⟨?_, ?_⟩, ?_, ?_⟩, fun _ hs => ?_, fun _ => ?_, fun c hc hm => ?_⟩
  · have hsorted := h.layout.sorted
    rw [pairwise_append] at hsorted ⊢
    obtain ⟨h1, h2, h3⟩ := hsorted
    refine ⟨h1, pairwise_cons.2 ⟨hbelow, h2⟩, fun A hA B hB => ?_⟩
    rcases mem_cons.1 hB with rfl | hB
    · exact habove A hA
    · exact h3 A hA B hB
  · have htiled := h.layout.tiled
    rw [forall_mem_append] at htiled ⊢
    refine ⟨htiled.1, forall_mem_cons.2 ⟨⟨hpos, hle, hlarge, ?_, hsmall⟩, htiled.2⟩⟩
    refine ⟨hb, ?_, htail, ?_⟩
    · simp only [pooladd, hsize]
      omega
    · simp only [pooladd, hsize, Tiles]
      omega
  · have hsync := pooladd_sync h.sync b
    rw [← Multiset.singleton_add] at hsync
    rw [hblock]
    simp only [blocksOf_append, weigh_append, weigh_cons] at hsync ⊢
    rw [Block.elem_of_free rfl, add_left_comm]
    exact hsync
  · intro c hc
    rw [hblock, mem_append, mem_cons] at hc
    have hold := h.settled
    rw [blocksOf_append, forall_mem_append] at hold
    rcases hc with hc | rfl | hc
    · exact hold.1 c hc
    · refine settled_freeblock (fun hE => ?_) hb hsize rfl
      have := hsmall hE
      omega
    · exact hold.2 c hc
  · have hs' : ∀ A ∈ above ++ below, Spaced A.blocks := hs
    rw [forall_mem_append] at hs'
    exact forall_mem_append.2 ⟨hs'.1, forall_mem_cons.2 ⟨.singleton _, hs'.2⟩⟩
  · rw [allocated, allocated, hblock]
    simp only [blocksOf_append, weigh_append, weigh_cons]
    rw [Block.allocsize_of_ne (show Magic.free ≠ .alloc by decide), zero_add]
  · rw [hblock]
    exact ⟨c, hmem c hc, .refl hm⟩

/-- Where a new arena of a size would be, if there is to be one. -/
def region (p : Params) (e : Env) (P : Pool) (asize : ℕ) : Option ℕ :=
  if p.maxsize < (P.cursize + asize) % 2 ^ 64 then none else e.alloc P asize

/-- The end of what a new arena would be after it has been merged with the one above. -/
def highest (e : Env) (P : Pool) (asize a : ℕ) : ℕ :=
  match (P.higher a).getLast? with
  | none => a + asize
  | some B => if e.merge a B.base then B.base + B.asize else a + asize

/-- The last block of the arena below a new one, if the two are to be merged. -/
def lastBelow (e : Env) (P : Pool) (a : ℕ) : Option Block :=
  match (P.lower a).head? with
  | none => none
  | some D => if e.merge D.base a then D.blocks.getLast? else none

/-- What a new region must be like. -/
structure RegionFits (p : Params) (e : Env) (P : Pool) (asize a : ℕ) : Prop where
  word : 4 ∣ a
  small : P.highest e asize a - a < 2 ^ 46
  below : ∀ D ∈ (P.lower a).head?, e.merge D.base a = true →
    P.highest e asize a - D.base < 2 ^ 46

/-- Whether there would be a compaction instead of a new arena. -/
def Overflows (p : Params) (P : Pool) (asize : ℕ) : Prop :=
  p.maxsize < (P.cursize + asize) % 2 ^ 64 ∧ P.Compacts p

/-- What `poolnewarena` makes of a pool. -/
structure NewArena (p : Params) (E : Prop) (e : Env) (P : Pool) (asize : ℕ) (P' : Pool) :
    Prop where
  inv : P'.Inv p E
  coalesced : (∀ a ∈ P.region p e asize, ∀ b ∈ P.lastBelow e a, GrowsApart p b (a + 40 - b.addr)) →
    Coalesced P.arenalist → Coalesced P'.arenalist
  drift : (∀ a ∈ P.region p e asize, ∀ b ∈ P.lastBelow e a, GrowsEven p b (a + 40 - b.addr)) →
    P'.drift = P.drift
  lastcompact : P'.lastcompact = P.lastcompact ↔ ¬P.Overflows p asize
  kept : ∀ f : Focus, f.arenas = P.arenalist → f.cur.magic = .alloc →
    (P.Overflows p asize → ∀ b ∈ f.before, b.magic ≠ .free) → ∃ c ∈ P'.blocks, f.cur.Same c

theorem outcome_arenainit (h : ¬E → 120 ≤ asize ∧ asize < 2 ^ 46) :
    Outcome E (arenainit a asize) fun b =>
      120 ≤ asize ∧ b = ⟨a + 40, .unalloc, asize - 56, asize - 56, 0, 0, 0⟩ := by
  rw [arenainit]
  refine Outcome.ite ?_ ?_
  · intro hlt
    refine Outcome.error_of fun hE => ?_
    have := (h hE).1
    omega
  · intro hge
    refine (outcome_blocksetsize (fun _ => (nofun : Magic.unalloc ≠ .free)) fun hE => ?_).mono ?_
    · have := (h hE).2
      omega
    · rintro b ⟨rfl, -, -⟩
      exact ⟨not_lt.1 hge, rfl⟩

theorem le_highest (h : ∀ A ∈ P.higher a, a + asize ≤ A.base) :
    a + asize ≤ P.highest e asize a := by
  rw [highest]
  rcases hB : (P.higher a).getLast? with - | B
  · exact le_rfl
  · have := h B (List.mem_of_getLast? hB)
    simp only
    split_ifs <;> omega

/-- **A new arena.** -/
theorem Inv.poolnewarena (h : P.Inv p E) (hasize : ¬E → 120 ≤ asize ∧ 4 ∣ asize)
    (hregion : ¬E → ∀ a ∈ P.region p e asize, RegionFits p e P asize a) :
    Outcome E (P.poolnewarena p e asize) (NewArena p E e P asize) := by
  rw [Pool.poolnewarena]
  refine Outcome.ite ?_ ?_
  · intro hover
    refine h.poolcompactl.bind ?_
    rintro ⟨P', _⟩ hP'
    refine ⟨hP'.inv, fun _ => hP'.coalesced, fun _ => hP'.drift, ?_, fun f hf hm hfirst => ?_⟩
    · rw [hP'.lastcompact, Overflows, and_iff_right hover]
    · exact ⟨f.cur, hP'.kept f hf hm fun hc => hfirst ⟨hover, hc⟩, .refl hm⟩
  · intro hover
    have hreg : P.region p e asize = e.alloc P asize := if_neg hover
    rcases ha : e.alloc P asize with - | a
    · refine ⟨h, fun _ h => h, fun _ => rfl, iff_of_true rfl fun ho => hover ho.1,
        fun f hf hm _ => ⟨f.cur, ?_, .refl hm⟩⟩
      rw [blocks, ← hf]
      exact Focus.mem_blocksOf_arenas.2 (.inl rfl)
    rw [ha] at hreg
    have hapart := e.alloc_apart ha
    have hfits : ¬E → RegionFits p e P asize a := fun hE => hregion hE a (by rw [hreg]; rfl)
    have hsorted : 0 < asize → _ := sorted_region h.layout hapart
    refine (outcome_arenainit fun hE => ⟨(hasize hE).1, ?_⟩).bind ?_
    · have h1 := le_highest (e := e) (hsorted (by have := (hasize hE).1; omega)).1
      have h2 := (hfits hE).small
      omega
    rintro b ⟨hlarge, rfl⟩
    obtain ⟨habove, hbelow⟩ := hsorted (by omega)
    have hhigh := le_highest (e := e) habove
    have hheld : Held p E P.tree (P.higher a ++ P.lower a) := by
      rw [higher_append_lower]
      exact h
    have hins := held_insert (b := ⟨a + 40, .unalloc, asize - 56, asize - 56, 0, 0, 0⟩) hheld habove
      hbelow hapart.1 hapart.2.1 hlarge (fun hE => ⟨?_, (hfits hE).word, (hasize hE).2⟩) rfl rfl rfl
    · refine (outcome_mergeUp hins.held rfl rfl fun hE B hB hm => ?_).bind ?_
      · have h1 := (hfits hE).small
        have h2 := habove B (List.mem_of_getLast? hB)
        rw [highest, Option.mem_def.1 hB] at h1
        simp only [if_pos hm] at h1
        simp only
        omega
      rintro ⟨t', above', A'⟩ ⟨hup, hbase, hA'⟩
      -- the new arena ends where it should
      have hend : A'.asize + a = P.highest e asize a := by
        rw [highest]
        rcases hA' with ⟨hA', hno⟩ | ⟨B, hB, hm, hA'⟩
        · simp only at hA'
          rcases hB : (P.higher a).getLast? with - | B
          · simp only
            omega
          · have hno := hno B hB
            simp only at hno
            simp only [hno, Bool.false_eq_true, if_false]
            omega
        · have h2 := habove B (List.mem_of_getLast? hB)
          simp only at hm hA'
          rw [Option.mem_def.1 hB]
          simp only [hm, if_true]
          omega
      simp only at hbase
      refine (outcome_mergeDown hup.held fun hE D hD hm => ?_).bind ?_
      · have h1 := (hfits hE).below D hD (hbase ▸ hm)
        have h2 := hbelow D (List.mem_of_head? hD)
        change A'.asize + (A'.base - D.base) < 2 ^ 46
        omega
      rintro ⟨t'', below'⟩ hdown
      have hcond : ∀ {C : Block → ℕ → Prop},
          (∀ a ∈ P.region p e asize, ∀ b ∈ P.lastBelow e a, C b (a + 40 - b.addr)) →
          ∀ D ∈ (P.lower a).head?, e.merge D.base A'.base = true → ∀ b ∈ D.blocks.getLast?,
            C b (A'.base + 40 - b.addr) := by
        intro C hC D hD hm b hb
        rw [hbase] at hm ⊢
        refine hC a (by rw [hreg]; rfl) b ?_
        rw [lastBelow, Option.mem_def.1 hD]
        simp only [hm, if_true]
        exact hb
      refine ⟨hdown.held, fun hc hs => ?_, fun hc => ?_, iff_of_true rfl fun ho => hover ho.1,
        fun f hf hm _ => ?_⟩
      · refine hdown.coalesced (hcond hc) (hup.coalesced trivial (hins.coalesced trivial ?_))
        rwa [higher_append_lower]
      · simp only [drift]
        rw [hdown.allocated (hcond hc), hup.allocated trivial, hins.allocated trivial,
          higher_append_lower]
      · have htrans : Rearranged p E P.arenalist t'' (above' ++ below')
            (∀ D ∈ (P.lower a).head?, e.merge D.base A'.base = true → ∀ b ∈ D.blocks.getLast?,
              GrowsApart p b (A'.base + 40 - b.addr))
            (∀ D ∈ (P.lower a).head?, e.merge D.base A'.base = true → ∀ b ∈ D.blocks.getLast?,
              GrowsEven p b (A'.base + 40 - b.addr)) := by
          rw [← higher_append_lower P a]
          exact ((hins.trans hup).mono (fun _ => trivial) fun _ => trivial).trans hdown
        refine htrans.kept f.cur ?_ hm
        rw [← hf]
        exact Focus.mem_blocksOf_arenas.2 (.inl rfl)
    · have := (hfits hE).small
      omega

end Pool

end Libc

end Plan9
