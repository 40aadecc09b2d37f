import Plan9.Libc.PoolArenas

/-!
# What the allocators do

The functions of `pool.c` that callers see, and what they leave behind.

* `Plan9.Libc.Pool.Inv.poolallocl`, `Plan9.Libc.Pool.Inv.poolfreel`,
  `Plan9.Libc.Pool.Inv.poolreallocl`, `Plan9.Libc.Pool.Inv.poolallocalignl` – each keeps the
  invariant, and what it needs for that, for keeping free blocks apart and for keeping `curalloc`
  exact is stated before it.
-/

namespace Plan9

namespace Libc

open Lib List Option

variable {p : Params} {e : Env} {E : Prop} {t : FreeTree} {b x : Block} {bs : List Block}
  {n dsize addr : ℕ} {As : List Arena} {f g : Focus}

theorem mem_weigh_elem {y : ℕ × ℕ} :
    y ∈ weigh Block.elem bs ↔ ∃ b ∈ bs, b.magic = .free ∧ y = (b.size, b.addr) := by
  induction bs with
  | nil => simp
  | cons b bs ih =>
    rw [weigh_cons, Multiset.mem_add, ih]
    have hb : y ∈ b.elem ↔ b.magic = .free ∧ y = (b.size, b.addr) := by
      by_cases hb : b.magic = .free
      · rw [Block.elem_of_free hb, Multiset.mem_singleton]
        exact (and_iff_right hb).symm
      · rw [Block.elem_of_ne hb]
        exact ⟨fun h => absurd h (Multiset.notMem_zero _), fun h => absurd h.1 hb⟩
    rw [hb]
    simp only [mem_cons, or_and_right, exists_or, exists_eq_left]

/-! ### Places are unique -/

variable {b : Block}

theorem Layout.arena_eq {A B : Arena} {a : Block} (h : Layout E As) (hA : A ∈ As) (hB : B ∈ As)
    (ha : a ∈ A.blocks) (hb : b ∈ B.blocks) (hab : a.addr = b.addr) : A = B := by
  by_contra hne
  have h1 := (h.tiled A hA).tiles.of_mem ha
  have h2 := (h.tiled B hB).tiles.of_mem hb
  have hpw : As.Pairwise fun A B => B.base + B.asize ≤ A.base ∨ A.base + A.asize ≤ B.base :=
    h.sorted.imp .inl
  have : Std.Symm fun A B : Arena =>
      B.base + B.asize ≤ A.base ∨ A.base + A.asize ≤ B.base := ⟨fun _ _ => Or.symm⟩
  have := hpw.forall hA hB hne
  omega

/-- **A place is determined by its address.** -/
theorem Layout.focus_eq (h : Layout E f.arenas) (harenas : g.arenas = f.arenas)
    (haddr : g.cur.addr = f.cur.addr) : g = f := by
  obtain ⟨above, base, asize, before, cur, after, below⟩ := f
  obtain ⟨above', base', asize', before', cur', after', below'⟩ := g
  simp only at haddr
  have hA : (⟨base, asize, before.reverse ++ cur :: after⟩ : Arena) =
      ⟨base', asize', before'.reverse ++ cur' :: after'⟩ := by
    refine h.arena_eq (a := cur) (b := cur') (by simp [Focus.arenas]) ?_ (by simp) (by simp)
      haddr.symm
    rw [← harenas]
    simp [Focus.arenas]
  obtain ⟨rfl, rfl, hblocks⟩ := Arena.mk.inj hA
  have hnot : ∀ A ∈ above.reverse ++ below,
      A ≠ ⟨base, asize, before.reverse ++ cur :: after⟩ := by
    rintro A hA rfl
    have hlarge := (h.tiled ⟨base, asize, before.reverse ++ cur :: after⟩
      (by simp [Focus.arenas])).large
    have hsorted := h.sorted
    rw [Focus.arenas, pairwise_append, pairwise_cons] at hsorted
    rcases mem_append.1 hA with hA | hA
    · have := hsorted.2.2 _ hA _ (mem_cons_self ..)
      simp only at this hlarge
      omega
    · have := hsorted.2.1.1 _ hA
      simp only at this hlarge
      omega
  have hinj : above.reverse = above'.reverse ∧
      (⟨base, asize, before.reverse ++ cur :: after⟩ : Arena) =
        ⟨base, asize, before.reverse ++ cur :: after⟩ ∧ below = below' := by
    rw [Focus.arenas, Focus.arenas, ← hblocks] at harenas
    exact (append_cons_inj_of_notMem (fun hm => hnot _ (mem_append_left _ hm) rfl)
      fun hm => hnot _ (mem_append_right _ hm) rfl).1 harenas.symm
  obtain ⟨hbefore, hge, -, hafter⟩ := Focus.tiled h
  simp only at hbefore hge hafter
  have hnotb : cur' ∉ before.reverse := by
    intro hm
    have := hbefore.of_mem hm
    omega
  have hnota : cur' ∉ after := by
    intro hm
    have := hafter.of_mem hm
    omega
  obtain ⟨hb, rfl, rfl⟩ := (append_cons_inj_of_notMem hnotb hnota).1 hblocks
  rw [reverse_inj.1 hb, reverse_inj.1 hinj.1, hinj.2.2]

/-! ### Free neighbours -/

/-- What a block leaves behind that has been merged with free neighbours. -/
structure Absorbed (p : Params) (E : Prop) (f : Focus) (r : FreeTree × Focus) : Prop where
  flux : Flux p E r.1 r.2
  ne : r.2.cur.magic ≠ .free
  spaced : f.Spaced → r.2.Spaced
  allocated : weigh Block.allocsize r.2.others = weigh Block.allocsize f.others
  others : ∀ c ∈ f.others, c.magic = .alloc → c ∈ r.2.others

namespace Absorbed

variable {r r' : FreeTree × Focus}

theorem refl (h : Flux p E t f) (hm : f.cur.magic ≠ .free) : Absorbed p E f (t, f) :=
  ⟨h, hm, fun h => h, rfl, fun _ h _ => h⟩

theorem trans (h : Absorbed p E f r) (h' : Absorbed p E r.2 r') : Absorbed p E f r' where
  flux := h'.flux
  ne := h'.ne
  spaced hs := h'.spaced (h.spaced hs)
  allocated := h'.allocated.trans h.allocated
  others c hc hm := h'.others c (h.others c hc hm) hm

end Absorbed

theorem Flux.absorbLeft (h : Flux p E t f) (hm : f.cur.magic ≠ .free) (hfree : isFree f.left = true)
    (hne : ¬E → f.before ≠ []) :
    Outcome E (f.mergeLeft t) fun r => Absorbed p E f r ∧ r.2.after = f.after ∧
      (f.Spaced → isFree r.2.before.head? = false) ∧
      ∃ x ∈ f.left, r.2.cur.size = x.size + f.cur.size := by
  refine (h.mergeLeft hm hne).mono ?_
  rintro ⟨t', g⟩ ⟨hflux, x, before, hb, rfl⟩
  have hleft := Focus.left_eq h.layout hb
  rw [hleft, isFree_some] at hfree
  have hs : f.Spaced → _ := fun hs : f.Spaced => spaced_cons.1 (hb ▸ hs.before)
  refine ⟨⟨hflux, (nofun : Magic.unalloc ≠ .free), fun hs' => ?_, ?_, fun c hc hcm => ?_⟩, rfl,
    fun hs' => (hs hs').1 hfree, x, hleft, rfl⟩
  · exact ⟨hs'.above, hs'.below, (hs hs').2, hs'.after⟩
  · rw [Focus.weigh_others_left _ hb (x.merged f.cur),
      Block.allocsize_of_ne (by rw [hfree]; exact nofun), zero_add]
  · rcases (Focus.mem_others_left hb (x.merged f.cur) c).1 hc with rfl | hc
    · exact absurd (hfree.symm.trans hcm) nofun
    · exact hc

theorem Flux.absorbRight (h : Flux p E t f) (hm : f.cur.magic ≠ .free)
    (hfree : isFree f.right = true) :
    Outcome E (f.mergeRight t) fun r => Absorbed p E f r ∧ r.2.before = f.before ∧
      (f.Spaced → isFree r.2.right = false) ∧
      ∃ x ∈ f.right, r.2.cur.size = f.cur.size + x.size := by
  have hne : f.after ≠ [] := by
    intro h
    rw [Focus.right, h] at hfree
    exact absurd hfree nofun
  refine (h.mergeRight hm fun _ => hne).mono ?_
  rintro ⟨t', g⟩ ⟨hflux, x, after, ha, rfl⟩
  have hright : f.right = some x := by rw [Focus.right, ha]; rfl
  rw [hright, isFree_some] at hfree
  have hs : f.Spaced → _ := fun hs : f.Spaced => spaced_cons.1 (ha ▸ hs.after)
  refine ⟨⟨hflux, (nofun : Magic.unalloc ≠ .free), fun hs' => ?_, ?_, fun c hc hcm => ?_⟩, rfl,
    fun hs' => (hs hs').1 hfree, x, hright, rfl⟩
  · exact ⟨hs'.above, hs'.below, hs'.before, (hs hs').2⟩
  · rw [Focus.weigh_others_right _ ha (f.cur.merged x),
      Block.allocsize_of_ne (by rw [hfree]; exact nofun), zero_add]
  · rcases (Focus.mem_others_right ha (f.cur.merged x) c).1 hc with rfl | hc
    · exact absurd (hfree.symm.trans hcm) nofun
    · exact hc

variable {c : ℕ} {r : FreeTree × List Block × Block}

/-- The rest of a block whose front has been freed is out of its place. -/
theorem Flux.front (h : Flux p E t f) (hm : f.cur.magic ≠ .free)
    (hr : Fronted p t (weigh Block.elem f.others) f.cur n r) (hge : 64 ≤ r.2.2.size)
    (hword : ¬E → p.FreesFront f.cur.size n → 4 ∣ p.mask n) :
    Flux p E r.1 { f with before := r.2.1 ++ f.before, cur := { r.2.2 with skip := c } } ∧
      r.2.2.magic ≠ .free := by
  by_cases hfront : p.FreesFront f.cur.size n
  · obtain ⟨h64, hle, hfr, m, hmne, hb⟩ := hr.cut hfront
    have hsync := hr.sync
    rw [hfr] at hsync ⊢
    rw [hb] at hge ⊢
    obtain ⟨hbefore, -, htail, hafter⟩ := Focus.tiled h.layout
    simp only at hge
    refine ⟨⟨?_, ?_, ?_, fun hE => ?_⟩, hmne⟩
    · refine Focus.layout_replace h.layout ⟨?_, hge, rfl, ?_⟩
      · exact tiles_reverse_cons.2 ⟨hbefore, h64, rfl, rfl⟩
      · simp only
        rw [show f.cur.addr + p.mask n + (f.cur.size - p.mask n) = f.cur.addr + f.cur.size by omega]
        exact hafter
    · have hothers : ∀ (x b : Block), weigh Block.elem
          { f with before := [x] ++ f.before, cur := b }.others =
            weigh Block.elem [x] + weigh Block.elem f.others := by
        intro x b
        simp only [Focus.others, singleton_append, reverse_cons, weigh_append, weigh_cons,
          weigh_nil]
        abel
      rw [hothers]
      exact hsync
    · intro b hb
      simp only [Focus.others, singleton_append, reverse_cons, mem_append, mem_singleton] at hb
      by_cases hbf : b = { f.cur.resized (p.mask n) with magic := .free }
      · refine settled_freeblock (fun hE => ⟨(h.word hE).1, hword hE hfront⟩) ?_ ?_ ?_ <;>
          rw [hbf] <;> rfl
      · refine h.settled b ?_
        simp only [Focus.others, mem_append]
        tauto
    · have h1 := h.word hE
      have h2 := hword hE hfront
      simp only
      omega
  · obtain ⟨hfr, hb⟩ := hr.whole hfront
    have hsync := hr.sync
    rw [hfr, weigh_nil, zero_add] at hsync
    rw [hfr, hb]
    exact ⟨⟨Focus.layout_replace h.layout (Focus.tiled h.layout), hsync, h.settled, h.word⟩, hm⟩

namespace Pool

variable {P : Pool} {v : ℕ}

/-! ### `poolfreel` -/

/-- Where the size of the arena is read for a tail, it does not lead to a free block, or to what
cannot be read or looks like one. -/
def FreeFits (e : Env) (P : Pool) (v : ℕ) : Prop := ∀ f, P.d2b v = .ok f → f.LeftFits e

/-- The pointers that callers have, apart from one, stay theirs, with their data. -/
def Keeps (P P' : Pool) (v : ℕ) : Prop :=
  ∀ c w, P.Live c w → w ≠ v → ∃ c', P'.Live c' w ∧ c.Same c'

theorem Live.same {P' : Pool} {c c' : Block} {w : ℕ} (h : P.Live c w) (hc : c' ∈ P'.blocks)
    (hsame : c.Same c') : P'.Live c' w := by
  obtain ⟨-, -, hw⟩ := h
  obtain ⟨hm, haddr, hskip, -⟩ := hsame
  exact ⟨hc, hm, by rw [haddr, hskip]; exact hw⟩

/-- What `poolfreel` makes of a pool. -/
structure Freed (p : Params) (E : Prop) (P : Pool) (v : ℕ) (P' : Pool) : Prop where
  inv : P'.Inv p E
  coalesced : Coalesced P.arenalist → Coalesced P'.arenalist
  drift : P'.drift = P.drift
  kept : ¬E → ∀ c w, P.Live c w → w ≠ v → P'.Live c w

/-- **`poolfreel`** -/
theorem Inv.poolfreel (h : P.Inv p E)
    (hv : ¬E → v = 0 ∨ (∃ b, P.Live b v) ∧ FreeFits e P v) :
    Outcome E (P.poolfreel p e v) (Freed p E P v) := by
  rw [Pool.poolfreel]
  refine Outcome.ite ?_ ?_
  · intro _
    exact ⟨h, fun h => h, rfl, fun _ _ _ h _ => h⟩
  · intro hv0
    have hlive := fun hE => (hv hE).resolve_left hv0
    refine (h.outcome_d2b fun hE => (hlive hE).1).bind_eq ?_
    rintro f hf ⟨harenas, hm, hfv⟩
    have hne : f.cur.magic ≠ .free := by
      rw [hm]
      exact nofun
    have hheld : Held p E P.tree f.arenas := by
      rw [harenas]
      exact h
    have hflux := hheld.flux hm
    have hcur : f.cur ∈ blocksOf f.arenas := Focus.mem_blocksOf_arenas.2 (.inl rfl)
    refine (outcome_blockcheck (hheld.settled f.cur hcur)
      (hheld.layout.block hcur).2.2.1).bind fun _ _ => ?_
    refine (Focus.outcome_readleft hflux.layout fun hE => (hlive hE).2 f hf).bind fun _ _ => ?_
    -- with the block on the left, if it is free
    have hleft : Outcome E (f.mergeLeftIf (isFree f.left) P.tree) fun r =>
        Absorbed p E f r ∧ (f.Spaced → isFree r.2.before.head? = false) := by
      refine Outcome.ite (fun hfree => ?_) fun hfree => ?_
      · refine (hflux.absorbLeft hne hfree fun hE hb => ?_).mono fun r hr => ⟨hr.1, hr.2.2.1⟩
        exact absurd hfree (by rw [((hlive hE).2 f hf hb).1]; exact nofun)
      · refine ⟨.refl hflux hne, fun _ => ?_⟩
        rcases hb : f.before with - | ⟨x, before⟩
        · rfl
        · rw [Focus.left_eq hflux.layout hb] at hfree
          exact Bool.not_eq_true _ ▸ hfree
    refine hleft.bind ?_
    rintro ⟨t₁, f₁⟩ ⟨hf₁, hbefore⟩
    -- with the block on the right, if it is free
    have hright : Outcome E (f₁.mergeRightIf (isFree f₁.right) t₁) fun r =>
        Absorbed p E f₁ r ∧ r.2.before = f₁.before ∧ (f₁.Spaced → isFree r.2.right = false) := by
      refine Outcome.ite (fun hfree => ?_) fun hfree => ?_
      · exact (hf₁.flux.absorbRight hf₁.ne hfree).mono fun r hr => ⟨hr.1, hr.2.1, hr.2.2.1⟩
      · exact ⟨.refl hf₁.flux hf₁.ne, rfl, fun _ => Bool.not_eq_true _ ▸ hfree⟩
    refine hright.bind ?_
    rintro ⟨t₂, f₂⟩ ⟨hf₂, hbefore₂, hafter⟩
    have habs := hf₁.trans hf₂
    simp only at hbefore hbefore₂ hafter
    refine ⟨habs.flux.free, fun hs => ?_, ?_, fun hE c w hc hw => ?_⟩
    · have hs₀ : f.Spaced := (Focus.coalesced_arenas.1 (harenas ▸ hs)).1
      have hs₁ := hf₁.spaced hs₀
      refine (habs.spaced hs₀).free ?_ (hafter hs₁)
      rw [hbefore₂]
      exact hbefore hs₀
    · simp only [drift]
      rw [Flux.allocated_free rfl, habs.allocated, ← harenas, allocated, Focus.weigh_arenas,
        Block.allocsize_of_alloc hm]
      ring
    · obtain ⟨hcmem, hcm, rfl⟩ := hc
      refine ⟨?_, hcm, rfl⟩
      change c ∈ blocksOf _
      refine Focus.mem_blocksOf_arenas.2 (.inr (habs.others c ?_ hcm))
      change c ∈ blocksOf P.arenalist at hcmem
      rw [← harenas, Focus.mem_blocksOf_arenas] at hcmem
      refine hcmem.resolve_left ?_
      rintro rfl
      exact hw (hfv hE).2.2

/-! ### `poolallocl` -/

/-- What has been handed out: the block that holds `n` bytes from `v` on. -/
def Given (p : Params) (P : Pool) (n v : ℕ) (c : Block) : Prop :=
  P.Live c v ∧ c.skip = 0 ∧ c.getdsize = n ∧ p.dsize2bsize n ≤ c.size

/-- What an allocation makes of a pool. The conditions under which it keeps free blocks apart and
`curalloc` exact are parameters. -/
structure Allocated (p : Params) (E : Prop) (P : Pool) (n : ℕ) (apart even overflow : Prop)
    (r : Pool × Option ℕ) : Prop where
  inv : r.1.Inv p E
  coalesced : apart → Coalesced P.arenalist → Coalesced r.1.arenalist
  drift : even → r.1.drift = P.drift
  lastcompact : r.1.lastcompact = P.lastcompact ↔ ¬overflow
  kept : ∀ f : Focus, f.arenas = P.arenalist → f.cur.magic = .alloc →
    (overflow → ∀ b ∈ f.before, b.magic ≠ .free) →
    ∃ c ∈ r.1.blocks, f.cur.Same c ∧ ∀ v ∈ r.2, v ≠ c.addr + 16
  given : ∀ v ∈ r.2, ∃ c, Given p r.1 n v c
  left : apart → Coalesced P.arenalist → ∀ v ∈ r.2, ∀ f, r.1.at? (v - 16) = some f →
    isFree f.before.head? = false

/-- **A free block** that is large enough is taken. -/
theorem Inv.take (h : P.Inv p E) {k fb : ℕ} (hfb : (k, fb) ∈ P.tree.freeroot.elems)
    (hk : p.dsize2bsize n ≤ k) (hfits : ¬E → p.Fits n) :
    Outcome E (P.take p fb n) (Allocated p E P n True True False) := by
  rw [h.sync.elems, mem_weigh_elem] at hfb
  obtain ⟨b, hb, hfree, heq⟩ := hfb
  obtain ⟨rfl, rfl⟩ := Prod.mk.inj heq
  obtain ⟨f, hf, harenas, rfl⟩ := at?_addr h.layout hb
  have hheld : Held p E P.tree f.arenas := by
    rw [harenas]
    exact h
  have hsync := hheld.sync
  rw [Focus.weigh_arenas, Block.elem_of_free hfree, Multiset.singleton_add] at hsync
  rw [Pool.take, hf]
  refine (outcome_pooldel hsync).bind ?_
  rintro ⟨t, c⟩ ⟨hsync', rfl⟩
  dsimp only
  generalize hc : ({ f.cur with magic := .unalloc, skip := 0 } : Block) = c
  have hcsize : c.size = f.cur.size := by rw [← hc]
  have hcm : c.magic ≠ .free := by rw [← hc]; exact Magic.noConfusion
  have hflux : Flux p E t { f with cur := c } := by
    obtain ⟨h1, h2, h3, h4⟩ := Focus.tiled hheld.layout
    have hs := (hheld.settled f.cur (Focus.mem_blocksOf_arenas.2 (.inl rfl))).strict
    rw [← hc]
    exact ⟨Focus.layout_replace hheld.layout ⟨h1, h2, h3, h4⟩, hsync',
      fun b hb => hheld.settled b (Focus.mem_blocksOf_arenas.2 (.inr hb)),
      fun hE => ⟨(hs hE).addr, (hs hE).size⟩⟩
  refine (hflux.trim hcm fun hE => ?_).bind ?_
  · refine ⟨hfits hE, by rw [hcsize]; exact hk, ?_⟩
    rw [← hc]
    exact Nat.zero_le _
  rintro ⟨t', a, frag⟩ ⟨⟨m, hr⟩, hheld'⟩
  have hallocated := hr.allocated (f := { f with cur := c })
  have hold : allocated P.arenalist = weigh Block.allocsize f.others := by
    rw [← harenas, allocated, Focus.weigh_arenas,
      Block.allocsize_of_ne (by rw [hfree]; decide), zero_add]
  have hspaced : Coalesced P.arenalist → f.Spaced ∧
      isFree f.before.head? = false ∧ isFree f.after.head? = false := by
    intro hs
    rw [← harenas, Focus.coalesced_arenas] at hs
    exact ⟨hs.1, hs.2 hfree⟩
  have ha := hr.block
  simp only at hheld' hallocated ha ⊢
  refine ⟨hheld', fun _ hs => ?_, fun _ => ?_, iff_of_true rfl id, fun g hg hgm _ => ?_, ?_, ?_⟩
  · obtain ⟨hs, hbefore, hafter⟩ := hspaced hs
    exact hr.coalesced (f := { f with cur := c }) ⟨hs.above, hs.below, hs.before, hs.after⟩
      fun _ => hafter
  · simp only [drift]
    rw [hallocated, hold, ha, Block.sized_size, Block.resized_size]
    simp only [Focus.others]
    ring
  · have hgmem : g.cur ∈ blocksOf f.arenas := by
      rw [harenas, ← hg]
      exact Focus.mem_blocksOf_arenas.2 (.inl rfl)
    have hne : g.cur ≠ f.cur := by
      intro heq
      rw [heq] at hgm
      exact absurd (hfree.symm.trans hgm) (by decide)
    refine ⟨g.cur, ?_, .refl hgm, fun v hv heq => hne ?_⟩
    · have hgmem := (Focus.mem_blocksOf_arenas.1 hgmem).resolve_left hne
      refine Focus.mem_blocksOf_arenas.2 (.inr ?_)
      simp only [Focus.others, mem_append] at hgmem ⊢
      grind
    · cases hv
      refine hheld.layout.eq_of_addr hgmem (Focus.mem_blocksOf_arenas.2 (.inl rfl)) ?_
      rw [ha, Block.sized_addr, Block.resized_addr, ← hc] at heq
      exact (Nat.add_right_cancel heq).symm
  · rintro v hv
    cases hv
    refine ⟨a, ⟨Focus.mem_blocksOf_arenas.2 (.inl rfl), ?_, ?_⟩, ?_, ?_, ?_⟩
    · rw [ha]
      rfl
    · rw [ha, ← hc]
      rfl
    · rw [ha, ← hc]
      rfl
    · have hdata := hr.data
      rw [ha]
      exact Block.getdsize_sized (by rw [Block.resized_size]; omega)
    · rw [ha]
      exact hr.fits
  · intro _ hs v hv g hg
    cases hv
    obtain ⟨hgarenas, hgaddr⟩ := at?_arenas hg
    rw [hheld'.layout.focus_eq hgarenas (by rw [hgaddr]; exact Nat.add_sub_cancel _ _)]
    exact (hspaced hs).2.1

/-- There is no free block that is large enough. -/
def Missing (p : Params) (P : Pool) (n : ℕ) : Prop :=
  n < 2 ^ 63 ∧ P.tree.freeroot.lookupGe (p.dsize2bsize n) none = none

/-- The size of the arena that is then asked for. -/
def newsize (p : Params) (n : ℕ) : ℕ := p.bsize2asize (p.dsize2bsize n)

/-- What an allocation needs so that nothing goes wrong: sizes that do not overflow, and a region
that is aligned and does not become part of too large an arena. -/
def AllocFits (p : Params) (e : Env) (P : Pool) (n : ℕ) : Prop :=
  n < 2 ^ 63 → p.Fits n ∧ (P.Missing p n → p.FitsArena (p.dsize2bsize n) ∧
    ∀ a ∈ P.region p e (newsize p n), RegionFits p e P (newsize p n) a)

/-- A block that grows in the course of an allocation is not cut again. -/
def AllocApart (p : Params) (e : Env) (P : Pool) (n : ℕ) : Prop :=
  P.Missing p n → ∀ a ∈ P.region p e (newsize p n), ∀ b ∈ P.lastBelow e a,
    GrowsApart p b (a + 40 - b.addr)

/-- A block that grows in the course of an allocation gets its size back. -/
def AllocEven (p : Params) (e : Env) (P : Pool) (n : ℕ) : Prop :=
  P.Missing p n → ∀ a ∈ P.region p e (newsize p n), ∀ b ∈ P.lastBelow e a,
    GrowsEven p b (a + 40 - b.addr)

/-- An allocation runs into a compaction. -/
def AllocCompacts (p : Params) (P : Pool) (n : ℕ) : Prop :=
  P.Missing p n ∧ P.Overflows p (newsize p n)

/-- **`poolallocl`** -/
theorem Inv.poolallocl (h : P.Inv p E) (hfits : ¬E → AllocFits p e P n) :
    Outcome E (P.poolallocl p e n) (Allocated p E P n (AllocApart p e P n) (AllocEven p e P n)
      (P.AllocCompacts p n)) := by
  have hnone : ∀ {C : ℕ → Prop}, ∀ v ∈ (none : Option ℕ), C v := fun _ hv =>
    absurd hv (not_mem_none _)
  have hkept : ∀ f : Focus, f.arenas = P.arenalist → f.cur.magic = .alloc →
      ∃ c ∈ P.blocks, f.cur.Same c ∧ ∀ v ∈ (none : Option ℕ), v ≠ c.addr + 16 := by
    intro f hf hm
    refine ⟨f.cur, ?_, .refl hm, hnone⟩
    rw [blocks, ← hf]
    exact Focus.mem_blocksOf_arenas.2 (.inl rfl)
  rw [Pool.poolallocl]
  refine Outcome.ite ?_ ?_
  · intro hn
    exact ⟨h, fun _ h => h, fun _ => rfl, iff_of_true rfl fun hc => absurd hc.1.1 hn.not_gt,
      fun f hf hm _ => hkept f hf hm, hnone, fun _ _ => hnone⟩
  intro hn
  rw [not_le] at hn
  dsimp only
  rcases hlook : P.tree.freeroot.lookupGe (p.dsize2bsize n) none with - | fb
  · have hmiss : P.Missing p n := ⟨hn, hlook⟩
    have harena : ¬E → 120 ≤ newsize p n ∧ 4 ∣ newsize p n := by
      intro hE
      obtain ⟨hf, harena⟩ := hfits hE hn
      have h1 := (harena hmiss).1.room
      have h2 := hf.ge
      exact ⟨by rw [newsize]; omega, (harena hmiss).1.word⟩
    refine (h.poolnewarena (e := e) harena fun hE => ((hfits hE hn).2 hmiss).2).bind ?_
    rintro P' hP'
    have hlast : P'.lastcompact = P.lastcompact ↔ ¬P.AllocCompacts p n := by
      rw [hP'.lastcompact, AllocCompacts, and_iff_right hmiss]
    rcases hlook' : P'.tree.freeroot.lookupGe (p.dsize2bsize n) none with - | fb
    · refine ⟨hP'.inv, fun hc => hP'.coalesced (hc hmiss), fun hc => hP'.drift (hc hmiss), hlast,
        fun f hf hm hc => ?_, hnone, fun _ _ => hnone⟩
      obtain ⟨c, hc, hsame⟩ := hP'.kept f hf hm fun ho => hc ⟨hmiss, ho⟩
      exact ⟨c, hc, hsame, hnone⟩
    obtain ⟨k, hk, hmem⟩ := RingTree.lookupGe_spec hlook'
    refine (hP'.inv.take hmem hk fun hE => (hfits hE hn).1).mono ?_
    intro r hr
    refine ⟨hr.inv, fun hc hs => hr.coalesced trivial (hP'.coalesced (hc hmiss) hs), fun hc => ?_,
      ?_, fun f hf hm hc => ?_, hr.given,
      fun hc hs => hr.left trivial (hP'.coalesced (hc hmiss) hs)⟩
    · exact (hr.drift trivial).trans (hP'.drift (hc hmiss))
    · rw [hr.lastcompact.2 id, hlast]
    · obtain ⟨c, hc, hsame⟩ := hP'.kept f hf hm fun ho => hc ⟨hmiss, ho⟩
      obtain ⟨g, -, hg, rfl⟩ := at?_addr hP'.inv.layout hc
      obtain ⟨d, hd, hsame', hne⟩ := hr.kept g hg hsame.1 False.elim
      exact ⟨d, hd, hsame.trans hsame', hne⟩
  · obtain ⟨k, hk, hmem⟩ := RingTree.lookupGe_spec hlook
    refine (h.take hmem hk fun hE => (hfits hE hn).1).mono ?_
    intro r hr
    refine ⟨hr.inv, fun _ => hr.coalesced trivial, fun _ => hr.drift trivial,
      iff_of_true (hr.lastcompact.2 id) ?_, fun f hf hm _ => hr.kept f hf hm False.elim, hr.given,
      fun _ => hr.left trivial⟩
    rintro ⟨⟨-, hmiss⟩, -⟩
    exact absurd (hlook.symm.trans hmiss) (some_ne_none _)

/-! ### `poolreallocl` -/

/-- A block in front of a free one is not cut. -/
def TrimApart (p : Params) (f : Focus) (n : ℕ) : Prop :=
  isFree f.right = true → ¬p.Cuts f.cur.size n

/-- A block is too small, also with the one on its right, so that what is in front of it is read. -/
def ReadsLeft (f : Focus) (nbsize : ℕ) : Prop :=
  f.cur.size < nbsize ∧
    ¬(isFree f.right = true ∧ nbsize ≤ f.cur.size + f.right.elim 0 (·.size))

/-- **The block itself, with its free neighbours.** -/
theorem outcome_reuse (h : Flux p E t f) (hm : f.cur.magic ≠ .free) {nbsize : ℕ}
    (hfits : ¬E → ReadsLeft f nbsize → f.LeftFits e) :
    Outcome E (reuse e t f nbsize) fun o =>
      ∀ r ∈ o, Absorbed p E f r ∧ nbsize ≤ r.2.cur.size := by
  have hne : ReadsLeft f nbsize → isFree f.left = true → ¬E → f.before ≠ [] := by
    intro hreads hfree hE hb
    rw [(hfits hE hreads hb).1] at hfree
    exact absurd hfree nofun
  rw [reuse]
  refine Outcome.ite ?_ fun h1 => Outcome.ite ?_ fun h2 => ?_
  · intro hle r hr
    cases hr
    exact ⟨.refl h hm, hle⟩
  · rintro ⟨hfree, hle⟩
    refine (h.absorbRight hm hfree).bind ?_
    rintro r ⟨hr, -, -, x, hx, hsize⟩ r' hr'
    cases hr'
    rw [mem_def.1 hx] at hle
    exact ⟨hr, hle.trans hsize.ge⟩
  have hreads : ReadsLeft f nbsize := ⟨not_le.1 h1, h2⟩
  refine (Focus.outcome_readleft h.layout fun hE => hfits hE hreads).bind fun _ _ => ?_
  refine Outcome.ite ?_ fun h3 => Outcome.ite ?_ fun _ => nofun
  · rintro ⟨hfree, hle⟩
    refine (h.absorbLeft hm hfree (hne hreads hfree)).bind ?_
    rintro r ⟨hr, -, -, x, hx, hsize⟩ r' hr'
    cases hr'
    rw [mem_def.1 hx] at hle
    exact ⟨hr, hle.trans hsize.ge⟩
  · rintro ⟨hleft, hright, hle⟩
    refine (h.absorbLeft hm hleft (hne hreads hleft)).bind ?_
    rintro ⟨t₁, f₁⟩ ⟨hr, hafter, -, x, hx, hsize⟩
    have hright₁ : f₁.right = f.right := by
      rw [Focus.right, Focus.right]
      simp only at hafter
      rw [hafter]
    refine (hr.flux.absorbRight hr.ne (by rw [hright₁]; exact hright)).bind ?_
    rintro r ⟨hr', -, -, y, hy, hsize'⟩ r' hr''
    cases hr''
    rw [hright₁] at hy
    rw [mem_def.1 hx, mem_def.1 hy] at hle
    refine ⟨hr.trans hr', ?_⟩
    simp only [elim_some] at hle hsize hsize'
    omega

/-- **`Returnblock`** -/
theorem outcome_returnblock (h : Flux p E t g) (hm : g.cur.magic ≠ .free) (obsize : ℕ)
    (hfits : ¬E → p.Fits n ∧ p.dsize2bsize n ≤ g.cur.size) :
    Outcome E (P.returnblock p t g obsize n) fun r => r.1.Inv p E ∧
      (g.Spaced → TrimApart p g n → Coalesced r.1.arenalist) ∧
      r.1.drift = P.curalloc - obsize - weigh Block.allocsize g.others ∧
      (∀ v ∈ r.2, ∃ c, Given p r.1 n v c) ∧ ∀ c ∈ g.others, c ∈ r.1.blocks := by
  have hflux : Flux p E t { g with cur := { g.cur with skip := 0 } } :=
    ⟨Focus.layout_replace h.layout (Focus.tiled h.layout), h.sync, h.settled, h.word⟩
  rw [returnblock]
  refine (hflux.trim hm fun hE => ⟨(hfits hE).1, (hfits hE).2, Nat.zero_le _⟩).bind ?_
  rintro ⟨t', a, frag⟩ ⟨⟨m, hr⟩, hheld⟩
  have hallocated := hr.allocated (f := { g with cur := { g.cur with skip := 0 } })
  have ha := hr.block
  simp only at hheld hallocated ha ⊢
  refine ⟨hheld, fun hs htrim => ?_, ?_, ?_, fun c hc => ?_⟩
  · refine hr.coalesced (f := { g with cur := { g.cur with skip := 0 } })
      ⟨hs.above, hs.below, hs.before, hs.after⟩ fun hcuts => ?_
    by_contra hfree
    exact htrim (Bool.not_eq_false _ ▸ hfree) hcuts
  · simp only [drift]
    rw [hallocated, ha, Block.sized_size, Block.resized_size]
    simp only [Focus.others]
    ring
  · rintro v hv
    cases hv
    refine ⟨a, ⟨Focus.mem_blocksOf_arenas.2 (.inl rfl), ?_, ?_⟩, ?_, ?_, ?_⟩
    · rw [ha]
      rfl
    · rw [ha]
      rfl
    · rw [ha]
      rfl
    · have hdata := hr.data
      rw [ha]
      exact Block.getdsize_sized (by rw [Block.resized_size]; omega)
    · rw [ha]
      exact hr.fits
  · exact Focus.mem_blocksOf_arenas.2 (.inr (Focus.mem_others_append.2 (.inr hc)))

/-- What becomes of a block that may be merged with its neighbours, whatever they are. -/
structure Widened (p : Params) (E : Prop) (f : Focus) (r : FreeTree × Focus) : Prop where
  flux : Flux p E r.1 r.2
  ne : r.2.cur.magic ≠ .free
  spaced : f.Spaced → r.2.Spaced
  size : f.cur.size ≤ r.2.cur.size

theorem outcome_mergeLeftIf (h : Flux p E t f) (hm : f.cur.magic ≠ .free) {c : Bool}
    (hne : ¬E → c = true → f.before ≠ []) :
    Outcome E (f.mergeLeftIf c t) fun r => Widened p E f r ∧ r.2.after = f.after ∧
      (c = true → ∀ x ∈ f.left, x ∈ f.others ∧ x.size ≤ r.2.cur.size) ∧
      ∀ y ∈ f.others, y ∈ r.2.others ∨ c = true ∧ y ∈ f.left := by
  rw [Focus.mergeLeftIf]
  refine Outcome.ite (fun hc => ?_) fun hc =>
    ⟨⟨h, hm, id, le_rfl⟩, rfl, fun hc' => absurd hc' hc, fun y hy => .inl hy⟩
  refine (h.mergeLeft hm fun hE => hne hE hc).mono ?_
  rintro ⟨t', g⟩ ⟨hflux, x, before, hb, rfl⟩
  have hleft := Focus.left_eq h.layout hb
  refine ⟨⟨hflux, (nofun : Magic.unalloc ≠ .free), fun hs => ?_, ?_⟩, rfl, fun _ y hy => ?_,
    fun y hy => ?_⟩
  · have hs' := hs.before
    rw [hb, spaced_cons] at hs'
    exact ⟨hs.above, hs.below, hs'.2, hs.after⟩
  · exact Nat.le_add_left _ _
  · rw [hleft] at hy
    cases hy
    exact ⟨(Focus.mem_others_left hb (x.merged f.cur) x).2 (.inl rfl), Nat.le_add_right _ _⟩
  · rcases (Focus.mem_others_left hb (x.merged f.cur) y).1 hy with rfl | hy
    · exact .inr ⟨hc, hleft⟩
    · exact .inl hy

theorem outcome_mergeRightIf (h : Flux p E t f) (hm : f.cur.magic ≠ .free) {c : Bool}
    (hne : ¬E → c = true → f.right.isSome) :
    Outcome E (f.mergeRightIf c t) fun r => Widened p E f r ∧
      (c = true → ∀ x ∈ f.right, x ∈ f.others ∧ x.size ≤ r.2.cur.size) ∧
      ∀ y ∈ f.others, y ∈ r.2.others ∨ c = true ∧ y ∈ f.right := by
  rw [Focus.mergeRightIf]
  refine Outcome.ite (fun hc => ?_) fun hc =>
    ⟨⟨h, hm, id, le_rfl⟩, fun hc' => absurd hc' hc, fun y hy => .inl hy⟩
  refine (h.mergeRight hm fun hE ha => ?_).mono ?_
  · have := hne hE hc
    rw [Focus.right, ha] at this
    exact absurd this nofun
  rintro ⟨t', g⟩ ⟨hflux, x, after, ha, rfl⟩
  have hright : f.right = some x := by rw [Focus.right, ha, List.head?_cons]
  refine ⟨⟨hflux, (nofun : Magic.unalloc ≠ .free), fun hs => ?_, ?_⟩, fun _ y hy => ?_,
    fun y hy => ?_⟩
  · have hs' := hs.after
    rw [ha, spaced_cons] at hs'
    exact ⟨hs.above, hs.below, hs.before, hs'.2⟩
  · exact Nat.le_add_right _ _
  · rw [hright] at hy
    cases hy
    exact ⟨(Focus.mem_others_right ha (f.cur.merged x) x).2 (.inl rfl), Nat.le_add_left _ _⟩
  · rcases (Focus.mem_others_right ha (f.cur.merged x) y).1 hy with rfl | hy
    · exact .inr ⟨hc, hright⟩
    · exact .inl hy

variable {newb : ℕ} {o : Option Block}

theorem isNew_iff : isNew newb o = true ↔ ∃ x ∈ o, x.addr = newb := by
  cases o <;> simp [isNew]

theorem isSome_of_isNew (h : (isNew newb o || isFree o) = true) : o.isSome := by
  cases o with
  | none => exact absurd h nofun
  | some x => rfl

/-- What is merged is the new block or a free one. -/
theorem not_free_of_other {y : Block} (hc : (isNew newb o || isFree o) = true) (hy : y ∈ o)
    (hm : y.magic = .alloc) :
    ¬y.addr ≠ newb := by
  rcases Bool.or_eq_true_iff.1 hc with hc | hc
  · obtain ⟨x, hx, haddr⟩ := isNew_iff.1 hc
    rw [mem_unique hy hx]
    exact not_not.2 haddr
  · rw [mem_def.1 hy, isFree_some, hm] at hc
    exact absurd hc nofun

/-- **The new block may be next to the old one.** -/
theorem outcome_mergeNew (h : Flux p E t f) (hm : f.cur.magic ≠ .free)
    (hfits : ¬E → f.LeftFits e) (hfar : ¬E → f.before = [] → isNew newb f.left = false) :
    Outcome E (mergeNew e t f newb) fun o =>
      (o = none → ¬(isNew newb f.left = true ∨ isNew newb f.right = true)) ∧
      ∀ r ∈ o, Widened p E f r ∧ (isNew newb f.left = true ∨ isNew newb f.right = true) ∧
        (∃ x ∈ f.others, x.addr = newb ∧ x.size ≤ r.2.cur.size) ∧
        ∀ y ∈ f.others, y.magic = .alloc → y.addr ≠ newb → y ∈ r.2.others := by
  rw [mergeNew]
  refine Outcome.ite (fun hnew => ?_) fun hnew => ⟨fun _ => hnew, nofun⟩
  refine (Focus.outcome_readleft h.layout hfits).bind fun _ _ => ?_
  refine (outcome_mergeLeftIf h hm fun hE hc hb => ?_).bind ?_
  · rw [hfar hE hb, (hfits hE hb).1] at hc
    exact absurd hc nofun
  rintro ⟨t₁, f₁⟩ ⟨hf₁, hafter, hleft, hothers₁⟩
  have hright₁ : f₁.right = f.right := by
    rw [Focus.right, Focus.right]
    simp only at hafter
    rw [hafter]
  refine (outcome_mergeRightIf hf₁.flux hf₁.ne fun _ hc => isSome_of_isNew hc).bind ?_
  rintro ⟨t₂, f₂⟩ ⟨hf₂, hright, hothers₂⟩
  refine ⟨nofun, fun r hr => ?_⟩
  cases hr
  refine ⟨⟨hf₂.flux, hf₂.ne, fun hs => hf₂.spaced (hf₁.spaced hs), hf₁.size.trans hf₂.size⟩,
    hnew, ?_, fun y hy hym hyaddr => ?_⟩
  swap
  · refine (hothers₂ y ((hothers₁ y hy).resolve_right ?_)).resolve_right ?_
    · rintro ⟨hc, hy⟩
      exact not_free_of_other hc hy hym hyaddr
    · rintro ⟨hc, hy⟩
      exact not_free_of_other hc hy hym hyaddr
  rcases hnew with hnew | hnew
  · obtain ⟨x, hx, haddr⟩ := isNew_iff.1 hnew
    obtain ⟨hmem, hsize⟩ := hleft (by rw [hnew, Bool.true_or]) x hx
    exact ⟨x, hmem, haddr, hsize.trans hf₂.size⟩
  · obtain ⟨x, hx, haddr⟩ := isNew_iff.1 hnew
    have hx₁ : x ∈ f₁.right := by rwa [hright₁]
    obtain ⟨-, hsize⟩ := hright (by rw [hright₁, hnew, Bool.true_or]) x hx₁
    refine ⟨x, ?_, haddr, hsize⟩
    rw [Focus.right, mem_def] at hx
    have := List.mem_of_head? hx
    simp only [Focus.others, mem_append]
    tauto

/-- The block of a pointer is too small, also with its free neighbours. -/
def TooSmall (p : Params) (e : Env) (P : Pool) (v n : ℕ) (f : Focus) : Prop :=
  P.d2b v = .ok f ∧ reuse e P.tree f (p.dsize2bsize n) = .ok none

/-- What a block needs that is too small: that there can be a new one, that no compaction moves the
old one, and that what is read in front of the first block of an arena is no free block and not the
new one. -/
structure GrowFits (p : Params) (e : Env) (P : Pool) (v n : ℕ) (f : Focus) : Prop where
  alloc : AllocFits p e P n
  unmoved : P.AllocCompacts p n → ∀ b ∈ f.before, b.magic ≠ .free
  stray : ∀ P' nv g, P.poolallocl p e n = .ok (P', some nv) → P'.d2b v = .ok g →
    g.LeftFits e ∧ (g.before = [] → ∀ x ∈ g.left, x.addr + 16 ≠ nv)

/-- What `poolreallocl` needs so that nothing goes wrong. -/
def ReallocFits (p : Params) (e : Env) (P : Pool) (v n : ℕ) : Prop :=
  if v = 0 then AllocFits p e P n
  else (∃ b, P.Live b v) ∧ (n = 0 → FreeFits e P v) ∧
    (n ≠ 0 → p.Fits n ∧ ∀ f, (P.d2b v = .ok f → ReadsLeft f (p.dsize2bsize n) → f.LeftFits e) ∧
      (TooSmall p e P v n f → GrowFits p e P v n f))

/-- No block in front of a free one is cut in the course of `poolreallocl`. -/
structure GrowApart (p : Params) (e : Env) (P : Pool) (v n : ℕ) : Prop where
  reuse : ∀ f r, P.d2b v = .ok f → reuse e P.tree f (p.dsize2bsize n) = .ok (some r) →
    TrimApart p r.2 n
  alloc : ∀ f, TooSmall p e P v n f → AllocApart p e P n
  new : ∀ f P' nv g newb r, TooSmall p e P v n f → P.poolallocl p e n = .ok (P', some nv) →
    P'.at? f.cur.addr = some g → P'.d2b nv = .ok newb →
    mergeNew e P'.tree g newb.cur.addr = .ok (some r) → TrimApart p r.2 n

@[inherit_doc GrowApart]
def ReallocApart (p : Params) (e : Env) (P : Pool) (v n : ℕ) : Prop :=
  if v = 0 then AllocApart p e P n else n ≠ 0 → GrowApart p e P v n

/-- In the course of `poolreallocl` a new block is not next to the old one. -/
structure GrowEven (p : Params) (e : Env) (P : Pool) (v n : ℕ) : Prop where
  alloc : ∀ f, TooSmall p e P v n f → AllocEven p e P n
  new : ∀ f P' nv g newb, TooSmall p e P v n f → P.poolallocl p e n = .ok (P', some nv) →
    P'.at? f.cur.addr = some g → P'.d2b nv = .ok newb →
    ¬(isNew newb.cur.addr g.left = true ∨ isNew newb.cur.addr g.right = true)

@[inherit_doc GrowEven]
def ReallocEven (p : Params) (e : Env) (P : Pool) (v n : ℕ) : Prop :=
  if v = 0 then AllocEven p e P n else n ≠ 0 → GrowEven p e P v n

/-- What `poolreallocl` makes of a pool. -/
structure Reallocated (p : Params) (E : Prop) (e : Env) (P : Pool) (v n : ℕ)
    (r : Pool × Option ℕ) : Prop where
  inv : r.1.Inv p E
  coalesced : ReallocApart p e P v n → Coalesced P.arenalist → Coalesced r.1.arenalist
  drift : ReallocEven p e P v n → r.1.drift = P.drift
  given : ¬E → ∀ w ∈ r.2, ∃ c, Given p r.1 n w c
  kept : ¬E → p.move = false → P.Keeps r.1 v

/-- Without a `p->move` nothing moves, and a new pointer is not one of the old ones. -/
theorem Allocated.keeps {apart even : Prop} {r : Pool × Option ℕ}
    (hr : Allocated p E P n apart even (P.AllocCompacts p n) r) (h : P.Inv p E)
    (hmove : p.move = false) {c : Block} {w : ℕ} (hc : P.Live c w) :
    ∃ c', r.1.Live c' w ∧ c.Same c' ∧ ∀ v ∈ r.2, v ≠ c'.addr + 16 := by
  obtain ⟨f, -, hf, rfl⟩ := at?_addr h.layout hc.1
  obtain ⟨c', hc', hsame, hfresh⟩ := hr.kept f hf hc.2.1 fun ho => by
    have := ho.2.2.1
    rw [hmove] at this
    exact absurd this nofun
  exact ⟨c', hc.same hc' hsame, hsame, hfresh⟩

theorem Live.unique {c : Block} (h : P.Inv p False) (hb : P.Live b v) (hc : P.Live c v) :
    b = c := by
  obtain ⟨hbmem, hbm, rfl⟩ := hb
  obtain ⟨hcmem, hcm, hcv⟩ := hc
  have h1 := ((h.settled b hbmem).strict id).skip hbm
  have h2 := ((h.settled c hcmem).strict id).skip hcm
  have h3 := (h.settled b hbmem).room hbm
  have h4 := (h.settled c hcmem).room hcm
  refine (h.layout.apart hbmem hcmem).resolve_right ?_
  omega

/-- The second half of `poolreallocl`: there is a new block. -/
theorem outcome_reallocNew {P' : Pool} {nv : ℕ} (h : P.Inv p E) (hn : n ≠ 0) (hv : v ≠ 0)
    (hfits : ¬E → ReallocFits p e P v n) (hsmall : TooSmall p e P v n f)
    (harenas : f.arenas = P.arenalist) (hm : f.cur.magic = .alloc) (hlive : ¬E → P.Live f.cur v)
    (hP' : P.poolallocl p e n = .ok (P', some nv))
    (ha : Allocated p E P n (AllocApart p e P n) (AllocEven p e P n) (P.AllocCompacts p n)
      (P', some nv)) :
    Outcome E
      (if P.moved P' f then .error .wild
        else
          match P'.at? f.cur.addr with
          | none => .error .wild
          | some f' => do
            let newb ← P'.d2b nv
            match ← mergeNew e P'.tree f' newb.cur.addr with
            | some (t, f') => do
              assertion (p.dsize2bsize n ≤ f'.cur.size)
              P'.returnblock p t f' f.cur.size n
            | none => do
              let P' ← P'.poolfreel p e v
              return (P', some nv))
      (Reallocated p E e P v n) := by
  have hgrow : ¬E → p.Fits n ∧ GrowFits p e P v n f := by
    intro hE
    have := hfits hE
    rw [ReallocFits, if_neg hv] at this
    exact ⟨(this.2.2 hn).1, ((this.2.2 hn).2 f).2 hsmall⟩
  have hapart : ReallocApart p e P v n → GrowApart p e P v n := by
    intro hc
    rw [ReallocApart, if_neg hv] at hc
    exact hc hn
  have heven : ReallocEven p e P v n → GrowEven p e P v n := by
    intro hc
    rw [ReallocEven, if_neg hv] at hc
    exact hc hn
  have hunmoved : ¬P.moved P' f → P.AllocCompacts p n → ∀ b ∈ f.before, b.magic ≠ .free := by
    intro hmoved hc b hb hfree
    refine hmoved ⟨fun heq => ha.lastcompact.1 heq hc, any_eq_true.2 ⟨b, hb, ?_⟩⟩
    rw [hfree]
    rfl
  refine Outcome.ite (fun hmoved => ?_) fun hmoved => ?_
  · refine Outcome.error_of fun hE => ?_
    obtain ⟨hlast, hany⟩ := hmoved
    obtain ⟨b, hb, hfree⟩ := any_eq_true.1 hany
    have hc : P.AllocCompacts p n := by
      by_contra hc
      exact hlast (ha.lastcompact.2 hc)
    exact (hgrow hE).2.unmoved hc b hb (of_decide_eq_true hfree)
  obtain ⟨c, hc, ⟨hcm, hcaddr, hcskip, -⟩, hfresh⟩ := ha.kept f harenas hm (hunmoved hmoved)
  obtain ⟨g, hg, hgarenas, rfl⟩ := at?_addr ha.inv.layout hc
  rw [← hcaddr, hg]
  have hheld : Held p E P'.tree g.arenas := by
    rw [hgarenas]
    exact ha.inv
  have hne : g.cur.magic ≠ .free := by
    rw [hcm]
    exact nofun
  have hflux := hheld.flux hcm
  have hglive : ¬E → P'.Live g.cur v := by
    intro hE
    obtain ⟨-, -, hvaddr⟩ := hlive hE
    exact ⟨hc, hcm, by rw [hcaddr, hcskip]; exact hvaddr⟩
  have hstrict : ¬E → P'.Inv p False := by
    intro hE
    have := ha.inv
    rwa [eq_false hE] at this
  obtain ⟨d, hd⟩ := ha.given nv rfl
  -- the block of the old pointer is where it was
  have hd2b : ¬E → P'.d2b v = .ok g := by
    intro hE
    obtain ⟨g', hg', harenas', -, hlive'⟩ :=
      outcome_false.1 ((hstrict hE).outcome_d2b fun _ => ⟨g.cur, hglive hE⟩)
    rw [hg', hheld.layout.focus_eq (harenas'.trans hgarenas.symm)]
    rw [(Live.unique (hstrict hE) (hlive' id) (hglive hE))]
  have hstray : ¬E → g.LeftFits e ∧ (g.before = [] → ∀ x ∈ g.left, x.addr + 16 ≠ nv) :=
    fun hE => (hgrow hE).2.stray P' nv g hP' (hd2b hE)
  refine (ha.inv.outcome_d2b (v := nv) fun _ => ⟨d, hd.1⟩).bind_eq ?_
  rintro newb hnewb ⟨hnarenas, hnm, hnlive⟩
  have hnewd : ¬E → newb.cur = d := fun hE => Live.unique (hstrict hE) (hnlive hE) hd.1
  refine (outcome_mergeNew hflux hne (fun hE => (hstray hE).1) fun hE hb => ?_).bind_eq ?_
  · rw [← Bool.not_eq_true, isNew_iff]
    rintro ⟨x, hx, haddr⟩
    have h1 := (hstray hE).2 hb x hx
    have h2 := hd.1.2.2
    have h3 := hd.2.1
    rw [← hnewd hE] at h2 h3
    omega
  rintro o ho ⟨hnone, hsome⟩
  have hg' : P'.at? f.cur.addr = some g := by rw [← hcaddr]; exact hg
  rcases o with - | ⟨t, g'⟩
  · refine (ha.inv.poolfreel fun hE => .inr ⟨⟨g.cur, hglive hE⟩, fun g' hg' => ?_⟩).bind ?_
    · rw [hd2b hE] at hg'
      obtain rfl := Except.ok.inj hg'
      exact (hstray hE).1
    rintro P'' hP''
    refine ⟨hP''.inv, fun hc hs => hP''.coalesced (ha.coalesced ((hapart hc).alloc f hsmall) hs),
      fun hc => hP''.drift.trans (ha.drift ((heven hc).alloc f hsmall)), fun hE w hw => ?_,
      fun hE hmove b w hb hw => ?_⟩
    swap
    · obtain ⟨b', hb', hsame, -⟩ := ha.keeps h hmove hb
      exact ⟨b', hP''.kept hE b' w hb' hw, hsame⟩
    cases hw
    refine ⟨d, hP''.kept hE d nv hd.1 ?_, hd.2⟩
    rintro rfl
    have hdg := Live.unique (hstrict hE) hd.1 (hglive hE)
    have h2 := hd.1.2.2
    have h3 := hd.2.1
    have h4 := hfresh nv rfl
    rw [hdg] at h2 h3
    omega
  · obtain ⟨hwide, hnext, ⟨x, hx, hxaddr, hxsize⟩, hkept⟩ := hsome _ rfl
    refine (outcome_assertion fun hE => ?_).bind fun _ hsize => ?_
    · have hxd : x = d := by
        rw [← hnewd hE]
        refine ha.inv.layout.eq_of_addr ?_ ?_ hxaddr
        · rw [← hgarenas]
          exact Focus.mem_blocksOf_arenas.2 (.inr hx)
        · rw [← hnarenas]
          exact Focus.mem_blocksOf_arenas.2 (.inl rfl)
      exact (hxd ▸ hd.2.2.2).trans hxsize
    refine (outcome_returnblock hwide.flux hwide.ne _ fun hE => ⟨(hgrow hE).1, hsize⟩).mono ?_
    rintro r ⟨hinv, hcoal, hdrift, hgiven, hothers⟩
    refine ⟨hinv, fun hc hs => ?_, fun hc => ?_, fun _ => hgiven, fun hE hmove b w hb hw => ?_⟩
    · have hs' := ha.coalesced ((hapart hc).alloc f hsmall) hs
      simp only at hs'
      rw [← hgarenas, Focus.coalesced_arenas] at hs'
      exact hcoal (hwide.spaced hs'.1)
        ((hapart hc).new f P' nv g newb _ hsmall hP' hg' hnewb ho)
    · exact absurd hnext ((heven hc).new f P' nv g newb hsmall hP' hg' hnewb)
    · obtain ⟨b', hb', hsame, hne'⟩ := ha.keeps h hmove hb
      refine ⟨b', hb'.same (hothers b' (hkept b' ?_ hb'.2.1 fun haddr => ?_))
        (.refl hb'.2.1), hsame⟩
      · have hmem := hb'.1
        rw [blocks, ← hgarenas, ← blocksOf, Focus.mem_blocksOf_arenas] at hmem
        refine hmem.resolve_left ?_
        rintro rfl
        exact hw (hb'.2.2.symm.trans (hglive hE).2.2)
      · have hbd : b' = d := by
          refine ha.inv.layout.eq_of_addr hb'.1 hd.1.1 ?_
          rw [haddr, hnewd hE]
        have h2 := hd.1.2.2
        have h3 := hd.2.1
        have h4 := hne' nv rfl
        rw [hbd] at h4
        omega

/-- **`poolreallocl`** -/
theorem Inv.poolreallocl (h : P.Inv p E) (hfits : ¬E → ReallocFits p e P v n) :
    Outcome E (P.poolreallocl p e v n) (Reallocated p E e P v n) := by
  rw [Pool.poolreallocl]
  refine Outcome.ite (fun hv => ?_) fun hv => Outcome.ite (fun hn => ?_) fun hn => ?_
  · subst hv
    refine (h.poolallocl (e := e) fun hE => ?_).mono fun r hr => ?_
    · have := hfits hE
      rwa [ReallocFits, if_pos rfl] at this
    · refine ⟨hr.inv, fun hc => hr.coalesced ?_, fun hc => hr.drift ?_, fun _ => hr.given,
        fun _ hmove c w hc _ => ?_⟩
      · rwa [ReallocApart, if_pos rfl] at hc
      · rwa [ReallocEven, if_pos rfl] at hc
      · obtain ⟨c', hc', hsame, -⟩ := hr.keeps h hmove hc
        exact ⟨c', hc', hsame⟩
  · refine (h.poolfreel (v := v) fun hE => ?_).bind fun P' hP' => ?_
    · have := hfits hE
      rw [ReallocFits, if_neg hv] at this
      exact .inr ⟨this.1, this.2.1 hn⟩
    · exact ⟨hP'.inv, fun _ => hP'.coalesced, fun _ => hP'.drift, fun _ => nofun,
        fun hE _ c w hc hw => ⟨c, hP'.kept hE c w hc hw, .refl hc.2.1⟩⟩
  have hfits' : ¬E → _ ∧ _ := fun hE => by
    have := hfits hE
    rwa [ReallocFits, if_neg hv] at this
  refine (h.outcome_d2b fun hE => (hfits' hE).1).bind_eq ?_
  rintro f hf ⟨harenas, hm, hlive⟩
  have hne : f.cur.magic ≠ .free := by
    rw [hm]
    exact nofun
  have hheld : Held p E P.tree f.arenas := by
    rw [harenas]
    exact h
  have hcur : f.cur ∈ blocksOf f.arenas := Focus.mem_blocksOf_arenas.2 (.inl rfl)
  refine (outcome_blockcheck (hheld.settled f.cur hcur)
    (hheld.layout.block hcur).2.2.1).bind fun _ _ => ?_
  refine (outcome_reuse (hheld.flux hm) hne fun hE =>
    (((hfits' hE).2.2 hn).2 f).1 hf).bind_eq ?_
  rintro o ho hsome
  rcases o with - | ⟨t, g⟩
  · refine (h.poolallocl (e := e) fun hE =>
      ((((hfits' hE).2.2 hn).2 f).2 ⟨hf, ho⟩).alloc).bind_eq ?_
    rintro ⟨P', nv⟩ hP' ha
    have hapart : ReallocApart p e P v n → AllocApart p e P n := by
      intro hc
      rw [ReallocApart, if_neg hv] at hc
      exact (hc hn).alloc f ⟨hf, ho⟩
    have heven : ReallocEven p e P v n → AllocEven p e P n := by
      intro hc
      rw [ReallocEven, if_neg hv] at hc
      exact (hc hn).alloc f ⟨hf, ho⟩
    rcases nv with - | nv
    · refine ⟨ha.inv, fun hc => ha.coalesced (hapart hc), fun hc => ha.drift (heven hc),
        fun _ => nofun, fun _ hmove c w hc _ => ?_⟩
      obtain ⟨c', hc', hsame, -⟩ := ha.keeps h hmove hc
      exact ⟨c', hc', hsame⟩
    · exact outcome_reallocNew h hn hv hfits ⟨hf, ho⟩ harenas hm hlive hP' ha
  · obtain ⟨habs, hsize⟩ := hsome _ rfl
    refine (outcome_returnblock habs.flux habs.ne _ fun hE =>
      ⟨((hfits' hE).2.2 hn).1, hsize⟩).mono ?_
    rintro r ⟨hinv, hcoal, hdrift, hgiven, hothers⟩
    refine ⟨hinv, fun hc hs => ?_, fun _ => ?_, fun _ => hgiven, fun hE _ c w hc hw => ?_⟩
    · rw [ReallocApart, if_neg hv] at hc
      rw [← harenas, Focus.coalesced_arenas] at hs
      exact hcoal (habs.spaced hs.1) ((hc hn).reuse f _ hf ho)
    · rw [hdrift, habs.allocated, drift, ← harenas, allocated, Focus.weigh_arenas,
        Block.allocsize_of_alloc hm]
      ring
    · have hcmem := hc.1
      rw [blocks, ← harenas, ← blocksOf, Focus.mem_blocksOf_arenas] at hcmem
      refine ⟨c, hc.same (hothers c (habs.others c (hcmem.resolve_left ?_) hc.2.1)) (.refl hc.2.1),
        .refl hc.2.1⟩
      rintro rfl
      exact hw (hc.2.2.symm.trans (hlive hE).2.2)

/-! ### `poolallocalignl` -/

/-- What is freed in front of the pointer. -/
def frontsize (p : Params) (f : Focus) (v c : ℕ) : ℕ :=
  if p.FreesFront f.cur.size (intskip c v) then p.mask (intskip c v) else 0

/-- The size of the data behind that: the bytes that are skipped, and those asked for. -/
def cutsize (p : Params) (f : Focus) (v c dsize : ℕ) : ℕ :=
  (intskip c (v + frontsize p f v c) + dsize) % 2 ^ 64

/-- What the end of `poolallocalignl` needs so that nothing goes wrong: a distance that is an `int`,
sizes that do not overflow, a rest that is large enough for a block, and data that do not look like
a free block where the rest begins. -/
structure CutFits (p : Params) (e : Env) (f : Focus) (v c dsize : ℕ) : Prop where
  le : v ≤ c
  int : c - v < 2 ^ 31
  sum : c - v + dsize < 2 ^ 64
  word : 4 ∣ frontsize p f v c
  junk : p.FreesFront f.cur.size (intskip c v) → e.junk (f.cur.addr + p.mask (intskip c v)) = false
  fits : p.Fits (cutsize p f v c dsize)
  room : p.dsize2bsize (cutsize p f v c dsize) ≤ f.cur.size - frontsize p f v c

theorem intskip_eq {v : ℕ} (hle : v ≤ c) (hint : c - v < 2 ^ 31) : intskip c v = c - v := by
  have h : (c + 2 ^ 64 - v) % 2 ^ 32 = c - v := by omega
  rw [intskip, h]
  exact if_pos hint

theorem frontsize_le (hle : v ≤ c) (hint : c - v < 2 ^ 31) : frontsize p f v c ≤ c - v := by
  rw [frontsize, intskip_eq hle hint]
  split_ifs
  · exact p.mask_le _
  · exact Nat.zero_le _

theorem cutsize_eq (hle : v ≤ c) (hint : c - v < 2 ^ 31) (hsum : c - v + dsize < 2 ^ 64) :
    cutsize p f v c dsize = c - (v + frontsize p f v c) + dsize := by
  have hfront := frontsize_le (p := p) (f := f) hle hint
  have hskip : intskip c (v + frontsize p f v c) = c - (v + frontsize p f v c) :=
    intskip_eq (by omega) (by omega)
  rw [cutsize, hskip]
  exact Nat.mod_eq_of_lt (by omega)

/-- Where the rest begins whose front has been freed, and its size. -/
theorem fronted_rest {M : Multiset (ℕ × ℕ)} (hr : Fronted p t M f.cur (intskip c v) r) :
    r.2.2.addr = f.cur.addr + frontsize p f v c ∧ r.2.2.size = f.cur.size - frontsize p f v c := by
  rw [frontsize]
  split_ifs with hfront
  · obtain ⟨-, -, -, m, -, hb⟩ := hr.cut hfront
    rw [hb]
    exact ⟨rfl, rfl⟩
  · rw [(hr.whole hfront).2]
    exact ⟨rfl, rfl⟩

/-- What has been freed in front has no free neighbour. -/
theorem fronted_spaced {M : Multiset (ℕ × ℕ)} (hr : Fronted p t M f.cur n r) (hs : Spaced f.before)
    (hbefore : isFree f.before.head? = false) :
    Spaced (r.2.1 ++ f.before) := by
  by_cases hfront : p.FreesFront f.cur.size n
  · rw [(hr.cut hfront).2.2.1]
    exact spaced_cons.2 ⟨fun _ => hbefore, hs⟩
  · rw [(hr.whole hfront).1]
    exact hs

/-- The check at the end of `poolallocalignl`. -/
theorem Inv.outcome_recheck (h : P.Inv p E) (hlive : ¬E → P.Live b c) : Outcome E (do
      let f ← P.d2b c
      assertion (f.cur.addr = b.addr)
      return P) (· = P) := by
  refine (h.outcome_d2b (v := c) fun hE => ⟨b, hlive hE⟩).bind ?_
  rintro g ⟨-, -, hg⟩
  refine (outcome_assertion fun hE => ?_).bind fun _ _ => rfl
  have hstrict : P.Inv p False := by
    rwa [eq_false hE] at h
  rw [Live.unique hstrict (hg hE) (hlive hE)]

/-- What the end of `poolallocalignl` makes of a pool. -/
structure AlignCut (p : Params) (E : Prop) (P : Pool) (f : Focus) (v c dsize : ℕ) (P' : Pool) :
    Prop where
  inv : P'.Inv p E
  coalesced : (isFree f.right = true →
      ¬p.Cuts (f.cur.size - frontsize p f v c) (cutsize p f v c dsize)) →
    Coalesced P.arenalist → isFree f.before.head? = false → Coalesced P'.arenalist
  drift : frontsize p f v c = 0 → ¬p.Cuts f.cur.size (cutsize p f v c dsize) → P'.drift = P.drift
  live : ¬E → ∃ b, P'.Live b c ∧ c + dsize ≤ b.addr + 16 + b.getdsize
  others : ∀ b ∈ f.others, b ∈ P'.blocks

/-- The trim at the end of `poolallocalignl`, and the check behind it. -/
theorem outcome_cut {g : Focus} {k : ℕ} (h : Flux p E t { g with cur := { b with skip := k } })
    (hm : b.magic ≠ .free) {d : ℕ}
    (hfits : ¬E → p.Fits d ∧ p.dsize2bsize d ≤ b.size ∧ k ≤ d ∧ b.addr + 16 + k = c) :
    Outcome E (do
      let (t, b, frag) ← Libc.trim p t { b with skip := k } d
      let f := { g with cur := b, after := frag ++ g.after }
      let P := { P with tree := t, arenalist := f.arenas }
      let f ← P.d2b c
      assertion (f.cur.addr = b.addr)
      return P) fun P' => P'.Inv p E ∧
        ((isFree g.right = true → ¬p.Cuts b.size d) → g.Spaced → Coalesced P'.arenalist) ∧
        (¬p.Cuts b.size d → P'.drift = P.curalloc - (b.size + weigh Block.allocsize g.others)) ∧
        (¬E → ∃ a, P'.Live a c ∧ a.addr = b.addr ∧ a.getdsize = d) ∧
        ∀ a ∈ g.others, a ∈ P'.blocks := by
  refine (h.trim hm fun hE => ⟨(hfits hE).1, (hfits hE).2.1, (hfits hE).2.2.1⟩).bind ?_
  rintro ⟨t', a, frag⟩ ⟨⟨m, htr⟩, hheld⟩
  have ha := htr.block
  have hdata := htr.data
  simp only at hheld ha ⊢
  generalize hP' : ({ P with tree := t', arenalist := { g with
    cur := a, after := frag ++ g.after }.arenas } : Pool) = P'
  have hinv : P'.Inv p E := by
    rw [← hP']
    exact hheld
  have harenas : P'.arenalist = { g with cur := a, after := frag ++ g.after }.arenas := by
    rw [← hP']
  have hlive : ¬E → P'.Live a c := by
    intro hE
    refine ⟨?_, ?_, ?_⟩
    · rw [blocks, harenas]
      exact Focus.mem_blocksOf_arenas.2 (.inl rfl)
    · rw [ha]
      rfl
    · rw [ha]
      exact (hfits hE).2.2.2
  refine (hinv.outcome_recheck hlive).mono ?_
  rintro Q rfl
  refine ⟨hinv, fun hcuts hs => ?_, fun hcuts => ?_, fun hE => ⟨a, hlive hE, ?_, ?_⟩,
    fun b' hb' => ?_⟩
  · rw [harenas]
    refine htr.coalesced (f := { g with cur := { b with skip := k } })
      ⟨hs.above, hs.below, hs.before, hs.after⟩ fun hc => ?_
    by_contra hfree
    exact hcuts (Bool.not_eq_false _ ▸ hfree) hc
  · have hn := (htr.whole hcuts).1
    rw [drift, harenas, htr.allocated (f := { g with cur := { b with skip := k } }), hn, ← hP']
    rfl
  · rw [ha]
    rfl
  · rw [ha]
    exact Block.getdsize_sized (by rw [Block.resized_size]; omega)
  · rw [blocks, harenas]
    exact Focus.mem_blocksOf_arenas.2 (.inr (Focus.mem_others_append.2 (.inr hb')))

/-- **The end of `poolallocalignl`** -/
theorem Inv.aligncut (h : P.Inv p E) (harenas : f.arenas = P.arenalist) (hm : f.cur.magic = .alloc)
    (hv : v = f.cur.addr + 16) (hfits : ¬E → CutFits p e f v c dsize) :
    Outcome E (P.aligncut p e f v c dsize) (AlignCut p E P f v c dsize) := by
  have hne : f.cur.magic ≠ .free := by
    rw [hm]
    exact nofun
  have hheld : Held p E P.tree f.arenas := by
    rw [harenas]
    exact h
  have hflux := hheld.flux hm
  have hpos : ∀ {n}, p.FreesFront f.cur.size n → 0 < p.mask n := by
    rintro n (hn | hn)
    · omega
    · exact lt_of_lt_of_le (by norm_num) hn.2.1
  rw [Pool.aligncut]
  refine (outcome_freefromfront (e := e) hflux.sync hne hflux.size_lt.1 (fun hE => ?_)
    fun hE hfront => ?_).bind ?_
  · have := hflux.size_lt.2 hE
    omega
  · obtain ⟨-, -, -, -, hjunk, hcfits, hroom⟩ := hfits hE
    rw [frontsize, if_pos hfront] at hroom
    have := hcfits.ge
    exact ⟨by omega, hjunk hfront⟩
  rintro ⟨t, front, b⟩ hr
  obtain ⟨hbaddr', hbsize⟩ := fronted_rest hr
  simp only at hbaddr' hbsize
  have hbaddr : b.addr + 16 = v + frontsize p f v c := by omega
  dsimp only
  rw [hbaddr]
  by_cases hsmall : b.size < 64
  · by_cases hE : E
    · exact (outcome_trim_small (Q := fun _ => False)
        (b := { b with skip := c - (v + frontsize p f v c) }) hsmall hE).bind fun _ h => h.elim
    · have h1 := (hfits hE).room
      have h2 := (hfits hE).fits.ge
      omega
  obtain ⟨hflux', hbne⟩ := hflux.front hne (c := c - (v + frontsize p f v c)) hr
    (not_lt.1 hsmall) fun hE hfront => by
      have := (hfits hE).word
      rwa [frontsize, if_pos hfront] at this
  refine (outcome_cut (P := P) (g := { f with before := front ++ f.before }) hflux' hbne (c := c)
    (d := cutsize p f v c dsize) fun hE => ?_).mono ?_
  · obtain ⟨hle, hint, hsum, -, -, hcfits, hroom⟩ := hfits hE
    have hfront := frontsize_le (p := p) (f := f) hle hint
    have hcut := cutsize_eq (p := p) (f := f) hle hint hsum
    refine ⟨hcfits, ?_, ?_, ?_⟩
    · rw [hbsize]
      exact hroom
    · rw [hcut]
      exact Nat.le_add_right _ _
    · rw [hbaddr]
      omega
  rintro P' ⟨hinv, hcoalesced, hdrift, hlive, hothers⟩
  rw [hbsize] at hcoalesced hdrift
  refine ⟨hinv, fun hcuts hs hbefore => ?_, fun hfront hcuts => ?_, fun hE => ?_, fun b' hb' => ?_⟩
  · rw [← harenas, Focus.coalesced_arenas] at hs
    exact hcoalesced hcuts
      ⟨hs.1.above, hs.1.below, fronted_spaced hr hs.1.before hbefore, hs.1.after⟩
  · have hnfront : ¬p.FreesFront f.cur.size (intskip c v) := by
      intro hc
      rw [frontsize, if_pos hc] at hfront
      exact (hpos hc).ne' hfront
    have hfr := (hr.whole hnfront).1
    simp only at hfr
    rw [hfront, Nat.sub_zero] at hdrift
    rw [hdrift hcuts, drift, ← harenas, allocated, Focus.weigh_arenas, Block.allocsize_of_alloc hm,
      hfr]
    rfl
  · obtain ⟨b', hb', haddr, hd⟩ := hlive hE
    obtain ⟨hle, hint, hsum, -, -, -, -⟩ := hfits hE
    have hfront := frontsize_le (p := p) (f := f) hle hint
    have hcut := cutsize_eq (p := p) (f := f) hle hint hsum
    have haddr' : b'.addr + 16 = v + frontsize p f v c := by rw [haddr, hbaddr]
    exact ⟨b', hb', by omega⟩
  · refine hothers b' ?_
    simp only [Focus.others, reverse_append, mem_append] at hb' ⊢
    grind

end Pool

end Libc

end Plan9
