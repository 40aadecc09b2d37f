import Plan9.Venti.BlockCache

/-!
# Who owns a block

The invariant of the disk cache, for every order of its steps, and what it says about
single blocks. While a step is inside `dcache.lock`, one block may be in hand: it is
neither on the free list nor in a chain, or not yet referenced.

* `Plan9.Venti.BlockCache.Inv.step` – a step keeps the invariant;
* `Plan9.Venti.BlockCache.dcache_sound` – what that says about runs;
* `Plan9.Venti.BlockCache.free_block_in_heap` – a run that breaks it.
-/

namespace Plan9

namespace Venti

open Lib List Function Option

namespace BlockCache

/-! ### The invariant -/

/-- The blocks of a round that are still dirty. -/
def Flush.left : Flush → List ℕ
  | waiting => []
  | scanning _ write => write
  | writing _ left => left

/-- What a round of `flushproc` knows about its blocks. -/
structure Flushing (s : DCache) : Prop where
  writer : ∀ p b, s.writer p = some b → (s.blocks b).part = some p ∧ b ∈ s.flush.left
  dirty : ∀ b ∈ s.flush.left, (s.blocks b).dirty ≠ 0
  sub : ∀ b ∈ s.flush.left, b ∈ s.flush.batch
  nodup : s.flush.left.Nodup
  scan : ∀ i write, s.flush = .scanning i write → ∀ b ∈ write, b < i
  lt : ∀ b ∈ s.flush.batch, b < s.nblocks

/-- **The invariant**: the free list is `F`, the chains are `L`, and `out` is in hand. -/
structure Inv (s : DCache) (F : List ℕ) (L : ℕ → List ℕ) (out : Option ℕ) : Prop where
  table : ChainTable s.next s.prev s.free s.heads F L
  hash : ∀ h, ∀ b ∈ L h, pbhash (s.blocks b).addr = h
  lt : ∀ b, (b ∈ F ∨ ∃ h, b ∈ L h) → b < s.nblocks
  cover : ∀ b < s.nblocks, out ≠ some b → b ∈ F ∨ ∃ h, b ∈ L h
  /-- No two blocks in chains have one address. -/
  addr : ∀ h, ∀ b ∈ L h, ∀ b' ∈ L h, (s.blocks b).part = (s.blocks b').part →
    (s.blocks b).addr = (s.blocks b').addr → b = b'
  valid : s.heap.Valid
  heap_chained : ∀ b, s.heap.pos b ≠ none → ∃ h, b ∈ L h
  idle : ∀ b ∈ F, (s.blocks b).ref = 0 ∧ (s.blocks b).dirty = 0
  /-- A chained block that nobody uses is in the heap, or will be when the round is over. -/
  resting : ∀ h, ∀ b ∈ L h, out ≠ some b → (s.blocks b).ref = 0 → (s.blocks b).dirty = 0 →
    s.heap.pos b ≠ none ∨ b ∈ s.flush.batch
  /-- The references are those of the processes. -/
  refs : Counted (fun c => (s.client c).block) fun b => (s.blocks b).ref
  flushing : Flushing s
  sound : s.fatal = false
  used_lt : ∀ b, (s.blocks b).ref ≠ 0 → b < s.nblocks

variable {s t : DCache} {F : List ℕ} {L : ℕ → List ℕ} {out : Option ℕ} {b h : ℕ}

/-- A block may be taken to be in hand. -/
theorem Inv.weaken (hi : Inv s F L none) (out : Option ℕ) : Inv s F L out := { hi with
    cover := fun b hb _ => hi.cover b hb (by simp)
    resting := fun h b hb _ => hi.resting h b hb (by simp) }

/-- The round of `flushproc` goes on as before. -/
theorem Flushing.congr (hf : Flushing s) (hwriter : t.writer = s.writer)
    (hflush : t.flush = s.flush) (hn : t.nblocks = s.nblocks)
    (hpart : ∀ b ∈ s.flush.left, (t.blocks b).part = (s.blocks b).part)
    (hdirty : ∀ b, (t.blocks b).dirty = (s.blocks b).dirty) : Flushing t := by
  constructor
  · intro p b hb
    rw [hwriter] at hb
    obtain ⟨hp, hleft⟩ := hf.writer p b hb
    rw [hpart b hleft, hflush]
    exact ⟨hp, hleft⟩
  · intro b hb
    rw [hflush] at hb
    rw [hdirty]
    exact hf.dirty b hb
  · rw [hflush]
    exact hf.sub
  · rw [hflush]
    exact hf.nodup
  · rw [hflush]
    exact hf.scan
  · rw [hflush, hn]
    exact hf.lt

/-- What a step leaves alone that does not touch the lists, the heap or the references. -/
structure Agree (s t : DCache) : Prop where
  nblocks_eq : t.nblocks = s.nblocks
  free_eq : t.free = s.free
  heads_eq : t.heads = s.heads
  heap_eq : t.heap = s.heap
  fatal_eq : t.fatal = s.fatal
  next_eq : ∀ b, (t.blocks b).next = (s.blocks b).next
  prev_eq : ∀ b, (t.blocks b).prev = (s.blocks b).prev
  part_eq : ∀ b, (t.blocks b).part = (s.blocks b).part
  addr_eq : ∀ b, (t.blocks b).addr = (s.blocks b).addr
  ref_eq : ∀ b, (t.blocks b).ref = (s.blocks b).ref
  block_eq : ∀ c, (t.client c).block = (s.client c).block

/-- The invariant is about no more than that, the dirty flags, and the round of `flushproc`. -/
theorem Inv.of_agree (hi : Inv s F L out) (ha : Agree s t)
    (hset : ∀ b, (t.blocks b).dirty ≠ (s.blocks b).dirty → (t.blocks b).dirty ≠ 0 →
      (s.blocks b).ref ≠ 0)
    (hclean : ∀ b, (t.blocks b).dirty ≠ (s.blocks b).dirty → (t.blocks b).dirty = 0 →
      b ∈ t.flush.batch)
    (hbatch : ∀ b ∈ s.flush.batch, b ∈ t.flush.batch) (hf : Flushing t) : Inv t F L out := by
  have hnext : t.next = s.next := funext ha.next_eq
  have hprev : t.prev = s.prev := funext ha.prev_eq
  constructor
  · rw [hnext, hprev, ha.free_eq, ha.heads_eq]
    exact hi.table
  · simp only [ha.addr_eq]
    exact hi.hash
  · rw [ha.nblocks_eq]
    exact hi.lt
  · rw [ha.nblocks_eq]
    exact hi.cover
  · simp only [ha.part_eq, ha.addr_eq]
    exact hi.addr
  · rw [ha.heap_eq]
    exact hi.valid
  · rw [ha.heap_eq]
    exact hi.heap_chained
  · intro b hb
    obtain ⟨href, hdirty⟩ := hi.idle b hb
    refine ⟨(ha.ref_eq b).trans href, ?_⟩
    by_contra hne
    exact hset b (by rwa [hdirty]) hne href
  · intro h b hb hout href hdirty
    rw [ha.heap_eq]
    by_cases hsame : (t.blocks b).dirty = (s.blocks b).dirty
    · exact (hi.resting h b hb hout (by rw [← ha.ref_eq, href]) (by rw [← hsame, hdirty])).imp_right
        (hbatch b)
    · exact .inr (hclean b hsame hdirty)
  · exact hi.refs.congr ha.block_eq ha.ref_eq
  · exact hf
  · rw [ha.fatal_eq, hi.sound]
  · intro b hb
    rw [ha.ref_eq] at hb
    rw [ha.nblocks_eq]
    exact hi.used_lt b hb

/-! ### The lists -/

/-- Lists of blocks have no more elements than there are blocks. -/
theorem length_le_nblocks {l : List ℕ} {n : ℕ} (hnd : l.Nodup) (hlt : ∀ b ∈ l, b < n) :
    l.length ≤ n := by
  have hsub : l ⊆ List.range n := fun b hb => mem_range.2 (hlt b hb)
  simpa using (subperm_of_subset hnd hsub).length_le

section

variable (hi : Inv s F L out)

include hi

theorem Inv.freeList_eq : s.freeList = F :=
  walk_eq hi.table.free_linked (length_le_nblocks hi.table.free_nodup fun b hb => hi.lt b (.inl hb))

theorem Inv.chain_eq (h : ℕ) : s.chain h = L h := walk_eq (hi.table.chain h).linked
    (length_le_nblocks (hi.table.chain_nodup h) fun b hb => hi.lt b (.inr ⟨h, hb⟩))

/-! ### The heap -/

/-- The top of the heap is taken out of it, if it is used or in hand. The order of the heap does
not matter for that. -/
theorem Inv.delheap (htop : s.heap.pos b = some 0)
    (hb : out ≠ some b → (s.blocks b).ref ≠ 0 ∨ (s.blocks b).dirty ≠ 0) :
    Inv (s.delheap b) F L out ∧ (s.delheap b).heap.pos b = none := by
  have he := IndexedHeap.erase_root s.key hi.valid htop
  refine ⟨{ hi with
    valid := he.valid
    heap_chained := fun z hz => hi.heap_chained z (he.mem hz)
    resting := fun h z hz hout href hdirty => ?_
    flushing := hi.flushing.congr rfl rfl rfl (fun _ _ => rfl) fun _ => rfl }, he.pos_eq⟩
  refine (hi.resting h z hz hout href hdirty).imp_left fun hin => ?_
  by_cases hzb : z = b
  · rw [hzb] at hout href hdirty
    rcases hb hout with hne | hne
    · exact absurd href hne
    · exact absurd hdirty hne
  · exact mt (he.others z hzb).1 hin

/-- A chained block is put into the heap. -/
theorem Inv.addheap (hb : b ∈ L h) (hpos : s.heap.pos b = none) :
    Inv (s.addheap b) F L out ∧ (s.addheap b).heap.pos b ≠ none := by
  obtain ⟨hvalid, -, hmem, hothers⟩ := IndexedHeap.insert_sifted s.key hi.valid hpos
  refine ⟨{ hi with
    valid := hvalid
    heap_chained := fun z hz => ?_
    resting := fun h z hz hout href hdirty => ?_
    flushing := hi.flushing.congr rfl rfl rfl (fun _ _ => rfl) fun _ => rfl }, hmem⟩
  · by_cases hzb : z = b
    · exact ⟨h, hzb ▸ hb⟩
    · exact hi.heap_chained z (mt (hothers z hzb).2 hz)
  · refine (hi.resting h z hz hout href hdirty).imp_left fun hin => ?_
    by_cases hzb : z = b
    · rw [hzb]
      exact hmem
    · exact mt (hothers z hzb).1 hin

/-! ### Taking a block out of its chain -/

theorem Inv.heads_eq (hb : b ∈ L h) (hprev : s.prev b = none) :
    s.heads (pbhash (s.blocks b).addr) = some b := by
  rw [hi.hash h b hb]
  exact ((hi.table.chain h).eq_some_iff hb).1 hprev

/-- What `unchain` does: the chain is in order, so it does not fail. -/
theorem Inv.unchain_eq (hb : b ∈ L h) : s.unchain b = { s with
      heads := if s.prev b = none then update s.heads h (s.next b) else s.heads
      blocks := fun y => {
        s.blocks y with
        next := if s.prev b = some y then s.next b else s.next y
        prev := if s.next b = some y then s.prev b else s.prev y } } := by
  have hnot : ¬((s.blocks b).prev = none ∧ s.heads (pbhash (s.blocks b).addr) ≠ some b) :=
    fun hf => hf.2 (hi.heads_eq hb hf.1)
  rw [hi.hash h b hb] at hnot
  rw [DCache.unchain]
  simp only [hi.hash h b hb]
  rw [if_neg hnot]
  rfl

end

/-- **A block in hand leaves its chain.** -/
theorem Inv.unchain (hi : Inv s F L (some b)) (hb : b ∈ L h) (hpos : s.heap.pos b = none) :
    Inv (s.unchain b) F (update L h ((L h).erase b)) (some b) ∧
      ∀ h', b ∉ update L h ((L h).erase b) h' := by
  have hmem : ∀ {h' z}, z ∈ update L h ((L h).erase b) h' ↔ z ∈ L h' ∧ z ≠ b :=
    hi.table.mem_update_erase hb
  have hkept : ∀ z ≠ b, (∃ h', z ∈ L h') → ∃ h', z ∈ update L h ((L h).erase b) h' :=
    fun z hne ⟨h', hz⟩ => ⟨h', hmem.2 ⟨hz, hne⟩⟩
  rw [hi.unchain_eq hb]
  refine ⟨{ hi with
    table := hi.table.unlink hb (fun _ => rfl) (fun _ => rfl) rfl
    hash := fun h' z hz => hi.hash h' z (hmem.1 hz).1
    lt := fun z hz => hi.lt z (hz.imp_right fun ⟨h', hz⟩ => ⟨h', (hmem.1 hz).1⟩)
    cover := fun z hz hne => (hi.cover z hz hne).imp_right (hkept z ?_)
    addr := fun h' z hz z' hz' => hi.addr h' z (hmem.1 hz).1 z' (hmem.1 hz').1
    heap_chained := fun z hz => hkept z ?_ (hi.heap_chained z hz)
    resting := fun h' z hz => hi.resting h' z (hmem.1 hz).1
    flushing := hi.flushing.congr rfl rfl rfl (fun _ _ => rfl) fun _ => rfl },
    fun h' hz => (hmem.1 hz).2 rfl⟩
  · rintro rfl
    exact hne rfl
  · rintro rfl
    exact hz hpos

/-- A block in hand, in no list, clean and without references. -/
structure InHand (s : DCache) (F : List ℕ) (L : ℕ → List ℕ) (b : ℕ) : Prop where
  lt : b < s.nblocks
  not_free : b ∉ F
  not_chained : ∀ h, b ∉ L h
  ref_eq : (s.blocks b).ref = 0
  dirty_eq : (s.blocks b).dirty = 0

/-- The fields that taking blocks out of the lists and the heap leaves alone. -/
structure SameBlocks (s t : DCache) : Prop where
  client_eq : t.client = s.client
  flush_eq : t.flush = s.flush
  writer_eq : t.writer = s.writer
  part_eq : ∀ b, (t.blocks b).part = (s.blocks b).part
  addr_eq : ∀ b, (t.blocks b).addr = (s.blocks b).addr
  ref_eq : ∀ b, (t.blocks b).ref = (s.blocks b).ref
  dirty_eq : ∀ b, (t.blocks b).dirty = (s.blocks b).dirty

theorem SameBlocks.refl (s : DCache) : SameBlocks s s :=
  ⟨rfl, rfl, rfl, fun _ => rfl, fun _ => rfl, fun _ => rfl, fun _ => rfl⟩

variable {u : DCache}

theorem SameBlocks.trans (h₁ : SameBlocks s t) (h₂ : SameBlocks t u) :
    SameBlocks s u :=
  ⟨h₂.client_eq.trans h₁.client_eq, h₂.flush_eq.trans h₁.flush_eq,
    h₂.writer_eq.trans h₁.writer_eq, fun b => (h₂.part_eq b).trans (h₁.part_eq b),
    fun b => (h₂.addr_eq b).trans (h₁.addr_eq b), fun b => (h₂.ref_eq b).trans (h₁.ref_eq b),
    fun b => (h₂.dirty_eq b).trans (h₁.dirty_eq b)⟩

theorem sameBlocks_delheap (s : DCache) (b : ℕ) : SameBlocks s (s.delheap b) :=
  ⟨rfl, rfl, rfl, fun _ => rfl, fun _ => rfl, fun _ => rfl, fun _ => rfl⟩

theorem sameBlocks_unchain (s : DCache) (b : ℕ) : SameBlocks s (s.unchain b) := by
  rw [DCache.unchain]
  simp only
  split
  all_goals
    exact ⟨rfl, rfl, rfl, fun _ => rfl, fun _ => rfl, fun _ => rfl, fun _ => rfl⟩

variable {f : Block → Block}

/-- What a change to a block leaves alone is as it was in all blocks. -/
theorem field_set {α : Type*} (g : Block → α) {x : Block} (ht : t.blocks = update s.blocks b x)
    (hg : g x = g (s.blocks b)) (z : ℕ) : g (t.blocks z) = g (s.blocks z) := by
  rw [ht, update_apply]
  split
  · rename_i hz
    rw [hz, hg]
  · rfl

theorem sameBlocks_putFree (s : DCache) (b : ℕ) : SameBlocks s
    { s.set b fun x => { x with next := s.free } with free := some b } :=
  ⟨rfl, rfl, rfl, field_set Block.part rfl rfl, field_set Block.addr rfl rfl,
    field_set Block.ref rfl rfl, field_set Block.dirty rfl rfl⟩

/-- **The top of the heap**: it is unused and leaves its chain, or only leaves the heap. -/
theorem Inv.pop (hi : Inv s F L none) (hsize : s.heap.size ≠ 0) :
    (((s.delheap (s.heap.arr 0)).blocks (s.heap.arr 0)).ref = 0 ∧
        ((s.delheap (s.heap.arr 0)).blocks (s.heap.arr 0)).dirty = 0 →
      ∃ L', Inv ((s.delheap (s.heap.arr 0)).unchain (s.heap.arr 0)) F L' (some (s.heap.arr 0)) ∧
        InHand ((s.delheap (s.heap.arr 0)).unchain (s.heap.arr 0)) F L' (s.heap.arr 0) ∧
        ∀ h, ∀ z ∈ L' h, z ∈ L h) ∧
    (¬(((s.delheap (s.heap.arr 0)).blocks (s.heap.arr 0)).ref = 0 ∧
        ((s.delheap (s.heap.arr 0)).blocks (s.heap.arr 0)).dirty = 0) →
      Inv (s.delheap (s.heap.arr 0)) F L none) := by
  have htop := hi.valid.pos_arr 0 (Nat.pos_of_ne_zero hsize)
  generalize s.heap.arr 0 = b at htop
  obtain ⟨h, hb⟩ := hi.heap_chained b (by rw [htop]; simp)
  constructor
  · rintro ⟨href, hdirty⟩
    obtain ⟨hdel, hpos⟩ := (hi.weaken (some b)).delheap htop fun hne => absurd rfl hne
    obtain ⟨hun, hnot⟩ := hdel.unchain hb hpos
    have hsame := sameBlocks_unchain (s.delheap b) b
    refine ⟨_, hun, ⟨?_, fun hf => hi.table.apart b hf h hb, hnot, ?_, ?_⟩,
      fun h' z hz => ((hdel.table.mem_update_erase hb).1 hz).1⟩
    · have hn : ((s.delheap b).unchain b).nblocks = s.nblocks := by
        rw [hdel.unchain_eq hb]
        rfl
      rw [hn]
      exact hi.lt b (.inr ⟨h, hb⟩)
    · rw [hsame.ref_eq, href]
    · rw [hsame.dirty_eq, hdirty]
  · intro hused
    refine (hi.delheap htop fun _ => ?_).1
    by_contra hnot
    exact hused ⟨not_not.1 fun h => hnot (.inl h), not_not.1 fun h => hnot (.inr h)⟩

/-! ### `bumpdblock` and `emptydcache` -/

/-- What is in hand behind `bumpdblock`: a block of the free list, or of the heap. -/
structure Bumped (s t : DCache) (L : ℕ → List ℕ) (b : ℕ) (F' : List ℕ) (L' : ℕ → List ℕ) :
    Prop where
  inv : Inv t F' L' (some b)
  inHand : InHand t F' L' b
  sub : ∀ h, ∀ z ∈ L' h, z ∈ L h
  same : SameBlocks s t

/-- The loop of `bumpdblock`. -/
theorem Inv.bumpLoop (hi : Inv s F L none) (k : ℕ) :
    (∀ t, DCache.bumpLoop k s = (none, t) → Inv t F L none ∧ SameBlocks s t) ∧
      ∀ b t, DCache.bumpLoop k s = (some b, t) → ∃ L', Bumped s t L b F L' := by
  induction k generalizing s with
  | zero =>
    refine ⟨fun t ht => ?_, fun b t ht => by cases ht⟩
    obtain rfl : s = t := (Prod.mk.inj ht).2
    exact ⟨hi, .refl s⟩
  | succ k ih =>
    rw [DCache.bumpLoop]
    by_cases hsize : s.heap.size = 0
    · rw [if_pos hsize]
      refine ⟨fun t ht => ?_, fun b t ht => by cases ht⟩
      obtain rfl : s = t := (Prod.mk.inj ht).2
      exact ⟨hi, .refl s⟩
    · rw [if_neg hsize]
      obtain ⟨hfree, hused⟩ := hi.pop hsize
      have hdel := sameBlocks_delheap s (s.heap.arr 0)
      simp only
      by_cases hidle : ((s.delheap (s.heap.arr 0)).blocks (s.heap.arr 0)).ref = 0 ∧
          ((s.delheap (s.heap.arr 0)).blocks (s.heap.arr 0)).dirty = 0
      · rw [if_pos hidle]
        refine ⟨fun t ht => (by cases ht), fun b t ht => ?_⟩
        obtain ⟨hb, rfl⟩ := Prod.mk.inj ht
        cases hb
        obtain ⟨L', hinv, hhand, hsub⟩ := hfree hidle
        exact ⟨L', hinv, hhand, hsub, hdel.trans (sameBlocks_unchain _ _)⟩
      · rw [if_neg hidle]
        obtain ⟨hnone, hsome⟩ := ih (hused hidle)
        refine ⟨fun t ht => ?_, fun b t ht => ?_⟩
        · obtain ⟨hinv, hsame⟩ := hnone t ht
          exact ⟨hinv, hdel.trans hsame⟩
        · obtain ⟨L', hb⟩ := hsome b t ht
          exact ⟨L', hb.inv, hb.inHand, hb.sub, hdel.trans hb.same⟩

/-- **`bumpdblock`** finds nothing, or takes a block that is clean and has no references. -/
theorem Inv.bumpdblock (hi : Inv s F L none) :
    (∀ t, s.bumpdblock = (none, t) → Inv t F L none ∧ SameBlocks s t) ∧
      ∀ b t, s.bumpdblock = (some b, t) → ∃ F' L', Bumped s t L b F' L' := by
  rw [DCache.bumpdblock]
  cases hfree : s.free with
  | none =>
    obtain ⟨hnone, hsome⟩ := hi.bumpLoop s.heap.size
    exact ⟨hnone, fun b t ht => ⟨F, hsome b t ht⟩⟩
  | some b =>
    refine ⟨fun t ht => (by cases ht), fun b' t ht => ?_⟩
    obtain ⟨hb, rfl⟩ := Prod.mk.inj ht
    cases hb
    obtain ⟨F', rfl⟩ : ∃ F', F = b :: F' := by
      have hlist := hi.table.free_linked
      rw [hfree] at hlist
      cases F with
      | nil => cases hlist
      | cons z F' =>
        cases hlist.1
        exact ⟨F', rfl⟩
    obtain ⟨href, hdirty⟩ := hi.idle b mem_cons_self
    refine ⟨F', L, ?_, ⟨hi.lt b (.inl mem_cons_self), (nodup_cons.1 hi.table.free_nodup).1,
      hi.table.apart b mem_cons_self, href, hdirty⟩, fun _ _ hz => hz,
      ⟨rfl, rfl, rfl, fun _ => rfl, fun _ => rfl, fun _ => rfl, fun _ => rfl⟩⟩
    exact { hi.weaken (some b) with
      table := hi.table.take
      lt := fun z hz => hi.lt z (hz.imp_left (mem_cons_of_mem b))
      cover := fun z hz hne => (hi.cover z hz (by simp)).imp_left fun hmem =>
        (mem_cons.1 hmem).resolve_left fun heq => hne (congrArg some heq.symm)
      idle := fun z hz => hi.idle z (mem_cons_of_mem b hz)
      flushing := hi.flushing.congr rfl rfl rfl (fun _ _ => rfl) fun _ => rfl }

/-- A block in hand goes to the free list. -/
theorem Inv.putFree (hi : Inv s F L (some b)) (hb : InHand s F L b) :
    Inv { s.set b fun x => { x with next := s.free } with free := some b } (b :: F) L none := by
  have hs := sameBlocks_putFree s b
  have hnb : ∀ {z}, z ≠ b → (some b : Option ℕ) ≠ some z := fun hz heq => hz (some.inj heq).symm
  constructor
  · refine hi.table.put hb.not_free hb.not_chained (fun z => ?_) fun z _ => ?_
    · simp only [DCache.next, DCache.set, update_apply]
      split <;> rfl
    · have hprev : ∀ z, ((s.set b fun x => { x with next := s.free }).blocks z).prev =
          (s.blocks z).prev := field_set Block.prev rfl rfl
      exact hprev z
  · intro h z hz
    rw [hs.addr_eq]
    exact hi.hash h z hz
  · rintro z (hz | hz)
    · rcases mem_cons.1 hz with rfl | hz
      · exact hb.lt
      · exact hi.lt z (.inl hz)
    · exact hi.lt z (.inr hz)
  · intro z hz _
    by_cases hzb : z = b
    · exact .inl (hzb ▸ mem_cons_self)
    · exact (hi.cover z hz (hnb hzb)).imp_left (mem_cons_of_mem b)
  · intro h z hz z' hz'
    rw [hs.part_eq, hs.part_eq, hs.addr_eq, hs.addr_eq]
    exact hi.addr h z hz z' hz'
  · exact hi.valid
  · exact hi.heap_chained
  · intro z hz
    rw [hs.dirty_eq, hs.ref_eq]
    rcases mem_cons.1 hz with rfl | hz
    · exact ⟨hb.ref_eq, hb.dirty_eq⟩
    · exact hi.idle z hz
  · intro h z hz _
    rw [hs.dirty_eq, hs.ref_eq]
    exact hi.resting h z hz (hnb fun heq => hb.not_chained h (heq ▸ hz))
  · exact hi.refs.congr (fun _ => rfl) hs.ref_eq
  · exact hi.flushing.congr rfl rfl rfl (fun z _ => hs.part_eq z) hs.dirty_eq
  · exact hi.sound
  · intro z hz
    rw [hs.ref_eq] at hz
    exact hi.used_lt z hz

/-- **`emptydcache`** moves blocks from the heap to the free list. -/
theorem Inv.emptyLoop (hi : Inv s F L none) (k : ℕ) :
    ∃ F' L', Inv (DCache.emptyLoop k s) F' L' none ∧ SameBlocks s (DCache.emptyLoop k s) := by
  induction k generalizing s F L with
  | zero => exact ⟨F, L, hi, .refl s⟩
  | succ k ih =>
    rw [DCache.emptyLoop]
    by_cases hstop : s.heap.size = 0 ∨ s.fatal = true
    · rw [if_pos hstop]
      exact ⟨F, L, hi, .refl s⟩
    · rw [if_neg hstop]
      obtain ⟨hfree, hused⟩ := hi.pop fun hsize => hstop (.inl hsize)
      have hdel := sameBlocks_delheap s (s.heap.arr 0)
      simp only
      split
      · rename_i hidle
        obtain ⟨L', hinv, hhand, -⟩ := hfree hidle
        obtain ⟨F'', L'', hrest, hsame⟩ := ih (hinv.putFree hhand)
        have hput := sameBlocks_putFree ((s.delheap (s.heap.arr 0)).unchain (s.heap.arr 0))
          (s.heap.arr 0)
        exact ⟨F'', L'', hrest, (hdel.trans (sameBlocks_unchain _ _)).trans (hput.trans hsame)⟩
      · rename_i hidle
        obtain ⟨F', L', hrest, hsame⟩ := ih (hused hidle)
        exact ⟨F', L', hrest, hdel.trans hsame⟩

/-! ### `_getdblock` -/

variable {part : ℕ} {addr : UInt64}

/-- **A block in hand gets a new address**, if no block in a chain has it. -/
theorem Inv.rechain (hi : Inv s F L (some b)) (hb : InHand s F L b)
    (hnew : ∀ z ∈ L (pbhash addr), ¬((s.blocks z).part = some part ∧ (s.blocks z).addr = addr)) :
    Inv (s.rechain b part addr) F (update L (pbhash addr) (b :: L (pbhash addr)))
      (some b) := by
  generalize hh : pbhash addr = h at hnew
  generalize ht : s.rechain b part addr = t
  have hblock : ∀ z, t.blocks z = if z = b then
      { s.blocks b with
        used := ((s.blocks b).used2 + s.now) / 2, next := s.heads h, prev := none, addr := addr
        part := some part, filled := false }
      else if s.heads h = some z then { s.blocks z with prev := some b } else s.blocks z := by
    intro z
    rw [← ht, DCache.rechain]
    simp only [hh]
  have hself : (t.blocks b).part = some part ∧ (t.blocks b).addr = addr := by
    rw [hblock, if_pos rfl]
    exact ⟨rfl, rfl⟩
  have hother : ∀ z ≠ b, (t.blocks z).part = (s.blocks z).part ∧
      (t.blocks z).addr = (s.blocks z).addr := by
    intro z hz
    rw [hblock, if_neg hz]
    split <;> exact ⟨rfl, rfl⟩
  have hfields : ∀ z, (t.blocks z).dirty = (s.blocks z).dirty ∧
      (t.blocks z).ref = (s.blocks z).ref := by
    intro z
    rw [hblock]
    split
    · rename_i hz
      rw [hz]
      exact ⟨rfl, rfl⟩
    · split <;> exact ⟨rfl, rfl⟩
  have hne : ∀ h', ∀ z ∈ L h', z ≠ b := fun h' z hz heq => hb.not_chained h' (heq ▸ hz)
  have hmem : ∀ h' z, z ∈ update L h (b :: L h) h' ↔ (z = b ∧ h' = h) ∨ z ∈ L h' :=
    fun _ _ => ChainTable.mem_update_cons
  have hheap : t.heap = s.heap := by rw [← ht]; rfl
  have hflush : t.flush = s.flush := by rw [← ht]; rfl
  have hwriter : t.writer = s.writer := by rw [← ht]; rfl
  have hn : t.nblocks = s.nblocks := by rw [← ht]; rfl
  constructor
  · have hheads : t.heads = update s.heads h (some b) := by
      rw [← ht, ← hh]
      rfl
    have hfree : t.free = s.free := by rw [← ht]; rfl
    rw [hheads, hfree]
    refine hi.table.link hb.not_free hb.not_chained h (fun z => ?_) fun z => ?_
    · rw [DCache.next, hblock]
      split
      · rfl
      · split <;> rfl
    · rw [DCache.prev, hblock]
      split
      · rfl
      · split <;> rfl
  · intro h' z hz
    rcases (hmem h' z).1 hz with ⟨rfl, rfl⟩ | hz
    · rw [hself.2, hh]
    · rw [(hother z (hne h' z hz)).2]
      exact hi.hash h' z hz
  · intro z hz
    rw [hn]
    rcases hz with hz | ⟨h', hz⟩
    · exact hi.lt z (.inl hz)
    · rcases (hmem h' z).1 hz with ⟨rfl, -⟩ | hz
      · exact hb.lt
      · exact hi.lt z (.inr ⟨h', hz⟩)
  · intro z hz hout
    rw [hn] at hz
    exact (hi.cover z hz hout).imp_right fun ⟨h', hz'⟩ => ⟨h', (hmem h' z).2 (.inr hz')⟩
  · intro h' z hz z' hz' hpart haddr
    rcases (hmem h' z).1 hz with ⟨rfl, rfl⟩ | hzL
    · rcases (hmem h' z').1 hz' with ⟨rfl, -⟩ | hzL'
      · rfl
      · obtain ⟨hp, ha⟩ := hother z' (hne h' z' hzL')
        rw [hself.1, hp] at hpart
        rw [hself.2, ha] at haddr
        exact absurd ⟨hpart.symm, haddr.symm⟩ (hnew z' hzL')
    · obtain ⟨hp, ha⟩ := hother z (hne h' z hzL)
      rw [hp] at hpart
      rw [ha] at haddr
      rcases (hmem h' z').1 hz' with ⟨rfl, rfl⟩ | hzL'
      · rw [hself.1] at hpart
        rw [hself.2] at haddr
        exact absurd ⟨hpart, haddr⟩ (hnew z hzL)
      · obtain ⟨hp', ha'⟩ := hother z' (hne h' z' hzL')
        rw [hp'] at hpart
        rw [ha'] at haddr
        exact hi.addr h' z hzL z' hzL' hpart haddr
  · rw [hheap]
    exact hi.valid
  · intro z hz
    rw [hheap] at hz
    obtain ⟨h', hz'⟩ := hi.heap_chained z hz
    exact ⟨h', (hmem h' z).2 (.inr hz')⟩
  · intro z hz
    rw [(hfields z).1, (hfields z).2]
    exact hi.idle z hz
  · intro h' z hz hout href hdirty
    rw [(hfields z).2] at href
    rw [(hfields z).1] at hdirty
    rw [hheap, hflush]
    rcases (hmem h' z).1 hz with ⟨rfl, -⟩ | hz
    · exact absurd rfl hout
    · exact hi.resting h' z hz hout href hdirty
  · have hclient : t.client = s.client := by rw [← ht]; rfl
    exact hi.refs.congr (fun c => by rw [hclient]) fun z => (hfields z).2
  · refine hi.flushing.congr hwriter hflush hn (fun z hz => ?_) fun z => (hfields z).1
    have hzb : z ≠ b := fun heq => hi.flushing.dirty z hz (heq ▸ hb.dirty_eq)
    exact (hother z hzb).1
  · rw [← ht]
    exact hi.sound
  · intro z hz
    rw [(hfields z).2] at hz
    rw [hn]
    exact hi.used_lt z hz

variable {client : ℕ → Client} {c : ℕ} {x : Client}

/-- What changes when the references of one block do: it may also get a new place in the heap. -/
structure Recounted (s t : DCache) (b ref : ℕ) (used used2 : UInt32) : Prop where
  blocks_eq : ∀ z, t.blocks z =
    if z = b then { s.blocks b with ref := ref, used := used, used2 := used2 } else s.blocks z
  valid : t.heap.Valid
  pos_iff : ∀ z, t.heap.pos z = none ↔ s.heap.pos z = none
  nblocks_eq : t.nblocks = s.nblocks
  free_eq : t.free = s.free
  heads_eq : t.heads = s.heads
  flush_eq : t.flush = s.flush
  writer_eq : t.writer = s.writer
  fatal_eq : t.fatal = s.fatal

variable {out' : Option ℕ} {ref : ℕ} {used used2 : UInt32}

/-- **The references of a chained block change.** It is in hand before and behind that, or it is
not; in hand, it may be one that nobody uses. -/
theorem Inv.recount (hi : Inv s F L out) (ht : Recounted s t b ref used used2) (hb : b ∈ L h)
    (hout : ∀ z ≠ b, out ≠ some z) (hout' : out' ≠ some b → ref ≠ 0)
    (hrefs : Counted (fun c => (t.client c).block) fun z => (t.blocks z).ref) :
    Inv t F L out' := by
  have hfields : ∀ z, (t.blocks z).part = (s.blocks z).part ∧
      (t.blocks z).addr = (s.blocks z).addr ∧ (t.blocks z).next = (s.blocks z).next ∧
      (t.blocks z).prev = (s.blocks z).prev ∧ (t.blocks z).dirty = (s.blocks z).dirty := by
    intro z
    rw [ht.blocks_eq]
    split
    · rename_i hz
      rw [hz]
      exact ⟨rfl, rfl, rfl, rfl, rfl⟩
    · exact ⟨rfl, rfl, rfl, rfl, rfl⟩
  have hnf : ∀ z ∈ F, z ≠ b := fun z hz heq => hi.table.apart z hz h (heq ▸ hb)
  constructor
  · have hnext : t.next = s.next := funext fun z => (hfields z).2.2.1
    have hprev : t.prev = s.prev := funext fun z => (hfields z).2.2.2.1
    rw [hnext, hprev, ht.free_eq, ht.heads_eq]
    exact hi.table
  · intro h' z hz
    rw [(hfields z).2.1]
    exact hi.hash h' z hz
  · rw [ht.nblocks_eq]
    exact hi.lt
  · intro z hz _
    rw [ht.nblocks_eq] at hz
    by_cases hzb : z = b
    · exact .inr ⟨h, hzb ▸ hb⟩
    · exact hi.cover z hz (hout z hzb)
  · intro h' z hz z' hz'
    rw [(hfields z).1, (hfields z').1, (hfields z).2.1, (hfields z').2.1]
    exact hi.addr h' z hz z' hz'
  · exact ht.valid
  · exact fun z hz => hi.heap_chained z (mt (ht.pos_iff z).2 hz)
  · intro z hz
    rw [(hfields z).2.2.2.2, ht.blocks_eq, if_neg (hnf z hz)]
    exact hi.idle z hz
  · intro h' z hz hne href hdirty
    rw [(hfields z).2.2.2.2] at hdirty
    rw [ht.blocks_eq] at href
    rw [ht.flush_eq]
    by_cases hzb : z = b
    · subst hzb
      rw [if_pos rfl] at href
      exact absurd href (hout' hne)
    · rw [if_neg hzb] at href
      exact (hi.resting h' z hz (hout z hzb) href hdirty).imp_left (mt (ht.pos_iff z).1)
  · exact hrefs
  · exact hi.flushing.congr ht.writer_eq ht.flush_eq ht.nblocks_eq (fun z _ => (hfields z).1)
      fun z => (hfields z).2.2.2.2
  · rw [ht.fatal_eq, hi.sound]
  · intro z hz
    rw [ht.nblocks_eq]
    by_cases hzb : z = b
    · exact hi.lt z (.inr ⟨h, hzb ▸ hb⟩)
    · rw [ht.blocks_eq, if_neg hzb] at hz
      exact hi.used_lt z hz

/-- The block goes to its new place in the heap. Whether the keys of the others are in order, now
that the clock has ticked, does not matter. -/
theorem Inv.found_spec (hi : Inv s F L out) (c : ℕ) (mode : IOMode) :
    Recounted s (s.found c b mode) b ((s.blocks b).ref + 1) s.now (s.blocks b).used ∧
      (s.found c b mode).client = update s.client c (.locking b mode) := by
  have hblocks : ∀ z, (s.refer c b mode).blocks z = if z = b then
      { s.blocks b with ref := (s.blocks b).ref + 1, used := s.now, used2 := (s.blocks b).used }
      else s.blocks z := by
    intro z
    simp only [DCache.refer, DCache.set, update_apply]
  have hheap : (s.refer c b mode).heap = s.heap := rfl
  rw [DCache.found, DCache.refix, hheap]
  cases hpos : s.heap.pos b with
  | none => exact ⟨⟨hblocks, hi.valid, fun _ => .rfl, rfl, rfl, rfl, rfl, rfl, rfl⟩, rfl⟩
  | some i =>
    have hfix : IndexedHeap.Sifted s.heap (s.heap.fix (s.refer c b mode).key b i) b :=
      IndexedHeap.fix_sifted (hi.valid.hole hpos)
    have hin : ∀ z, (s.heap.fix (s.refer c b mode).key b i).pos z = none ↔
        s.heap.pos z = none := by
      intro z
      by_cases hz : z = b
      · rw [hz, hpos]
        exact iff_of_false hfix.mem (by simp)
      · exact hfix.others z hz
    exact ⟨⟨hblocks, hfix.valid, hin, rfl, rfl, rfl, rfl, rfl, rfl⟩, rfl⟩

/-- **A chained block is referenced.** -/
theorem Inv.found (hi : Inv s F L (some b)) (hb : b ∈ L h) {c : ℕ}
    (hc : (s.client c).block = none) (mode : IOMode) : Inv (s.found c b mode) F L none := by
  obtain ⟨hf, hclient⟩ := hi.found_spec (b := b) c mode
  refine hi.recount hf hb (fun z hz heq => hz (some.inj heq).symm) (fun _ => Nat.succ_ne_zero _)
    (hi.refs.insert (b := b) hc ?_ (fun c' hc' => ?_) ?_ fun z hz => ?_)
  · rw [hclient, update_self]
    rfl
  · rw [hclient, update_of_ne hc']
  · rw [hf.blocks_eq, if_pos rfl]
  · rw [hf.blocks_eq, if_neg hz]

/-- A client that refers to what it referred to before. -/
theorem block_update (hx : x.block = (client c).block) (c' : ℕ) :
    (update client c x c').block = (client c').block := by
  by_cases hc : c' = c
  · rw [hc, update_self, hx]
  · rw [update_of_ne hc]

/-- The invariant, where only clients have changed. -/
theorem Inv.of_client (hi : Inv s F L out) (hblock : ∀ c, (client c).block = (s.client c).block) :
    Inv { s with client := client } F L out :=
  hi.of_agree ⟨rfl, rfl, rfl, rfl, rfl, fun _ => rfl, fun _ => rfl, fun _ => rfl, fun _ => rfl,
    fun _ => rfl, hblock⟩ (fun _ hne _ => absurd rfl hne)
    (fun _ hne _ => absurd rfl hne) (fun _ hb => hb)
    (hi.flushing.congr rfl rfl rfl (fun _ _ => rfl) fun _ => rfl)

theorem Inv.update_client (hi : Inv s F L out) {c : ℕ} {x : Client}
    (hx : x.block = (s.client c).block) :
    Inv { s with client := update s.client c x } F L out :=
  hi.of_client (block_update hx)

theorem Inv.wakeAll (hi : Inv s F L out) : Inv s.wakeAll F L out := by
  refine hi.of_client fun c => ?_
  cases s.client c <;> rfl

/-- What the search of `_getdblock` finds. -/
theorem Inv.lookup_some (hi : Inv s F L out) (hb : s.lookup part addr = some b) :
    b ∈ L (pbhash addr) := by
  rw [DCache.lookup, hi.chain_eq] at hb
  exact List.mem_of_find?_eq_some hb

theorem Inv.lookup_none (hi : Inv s F L out) (hb : s.lookup part addr = none) :
    ∀ z ∈ L (pbhash addr), ¬((s.blocks z).part = some part ∧ (s.blocks z).addr = addr) := by
  rw [DCache.lookup, hi.chain_eq, List.find?_eq_none] at hb
  intro z hz
  simpa using hb z hz

/-- **The section of `_getdblock`.** -/
theorem Inv.getSection (hi : Inv s F L none) (hc : (s.client c).block = none)
    (part : ℕ) (addr : UInt64) (mode : IOMode) (load : Bool) :
    ∃ F' L', Inv (s.getSection c part addr mode load) F' L' none := by
  rw [DCache.getSection]
  cases hlook : s.lookup part addr with
  | some b => exact ⟨F, L, (hi.weaken (some b)).found (hi.lookup_some hlook) hc mode⟩
  | none =>
    simp only
    split
    · exact ⟨F, L, hi.update_client hc.symm⟩
    · obtain ⟨hnone, hsome⟩ := hi.bumpdblock
      cases hbump : s.bumpdblock with
      | mk r t =>
        cases r with
        | none =>
          obtain ⟨hinv, hsame⟩ := hnone t hbump
          refine ⟨F, L, hinv.update_client ?_⟩
          rw [hsame.client_eq, hc]
          rfl
        | some b =>
          obtain ⟨F', L', hb⟩ := hsome b t hbump
          have hgo : ¬(t.fatal = true ∨ (t.blocks b).dirty ≠ 0) := by
            rintro (hf | hd)
            · rw [hb.inv.sound] at hf
              cases hf
            · exact hd hb.inHand.dirty_eq
          simp only [if_neg hgo]
          have hnew : ∀ z ∈ L' (pbhash addr),
              ¬((t.blocks z).part = some part ∧ (t.blocks z).addr = addr) := by
            intro z hz
            rw [hb.same.part_eq, hb.same.addr_eq]
            exact hi.lookup_none hlook z (hb.sub _ z hz)
          refine ⟨F', _, (hb.inv.rechain hb.inHand hnew).found (h := pbhash addr) ?_ ?_ mode⟩
          · rw [update_self]
            exact mem_cons_self
          · have hclient : (t.rechain b part addr).client = t.client := rfl
            rw [hclient, hb.same.client_eq, hc]

/-! ### `putdblock` -/

/-- A block in hand is put down, if it is in the heap should nobody use it. -/
theorem Inv.settle (hi : Inv s F L (some b)) (hb : b ∈ L h)
    (hrest : (s.blocks b).ref = 0 → (s.blocks b).dirty = 0 → s.heap.pos b ≠ none) :
    Inv s F L none :=
  { hi with
    cover := fun z hz _ => by
      by_cases hzb : z = b
      · exact .inr ⟨h, hzb ▸ hb⟩
      · exact hi.cover z hz fun heq => hzb (some.inj heq).symm
    resting := fun h' z hz _ href hdirty => by
      by_cases hzb : z = b
      · rw [hzb] at href hdirty ⊢
        exact .inl (hrest href hdirty)
      · exact hi.resting h' z hz (fun heq => hzb (some.inj heq).symm) href hdirty }

/-- A block that a process refers to is in a chain. -/
theorem Inv.chained_of_block (hi : Inv s F L none) (hc : (s.client c).block = some b) :
    (s.blocks b).ref ≠ 0 ∧ ∃ h, b ∈ L h := by
  have href : (s.blocks b).ref ≠ 0 := (hi.refs.pos hc).ne'
  refine ⟨href, (hi.cover b (hi.used_lt b href) (by simp)).resolve_left fun hf => ?_⟩
  exact href (hi.idle b hf).1

/-- A process refers to a block no more. -/
theorem Inv.unrefer (hi : Inv s F L none) (hc : (s.client c).block = some b) :
    Inv { s.set b fun x => { x with ref := x.ref - 1 } with
      client := update s.client c .idle } F L (some b) := by
  obtain ⟨-, h, hb⟩ := hi.chained_of_block hc
  have hblocks : ∀ z, (s.set b fun x => { x with ref := x.ref - 1 }).blocks z =
      if z = b then { s.blocks b with ref := (s.blocks b).ref - 1 } else s.blocks z := by
    intro z
    simp only [DCache.set, update_apply]
  refine hi.recount ⟨hblocks, hi.valid, fun _ => .rfl, rfl, rfl, rfl, rfl, rfl, rfl⟩ hb
    (fun z _ => by simp) (absurd rfl) (hi.refs.erase hc ?_ (fun c' hc' => ?_) ?_
      fun z hz => ?_)
  · exact congrArg Client.block (update_self (f := s.client) c .idle)
  · exact congrArg Client.block (update_of_ne hc' ..)
  · rw [hblocks, if_pos rfl]
  · rw [hblocks, if_neg hz]

/-- **The section of `putdblock`.** -/
theorem Inv.putSection (hi : Inv s F L none) (hc : (s.client c).block = some b) :
    Inv (s.putSection c b) F L none := by
  obtain ⟨-, h, hb⟩ := hi.chained_of_block hc
  have hun := hi.unrefer hc
  rw [DCache.putSection]
  generalize ({ s.set b fun x => { x with ref := x.ref - 1 } with
    client := update s.client c .idle } : DCache) = t at hun
  split
  · refine Inv.wakeAll ?_
    split
    · rename_i hpos
      obtain ⟨hadd, hmem⟩ := hun.addheap hb hpos
      exact hadd.settle hb fun _ _ => hmem
    · rename_i hpos
      exact hun.settle hb fun _ _ => hpos
  · rename_i hused
    exact hun.settle hb fun href hdirty => absurd ⟨href, hdirty⟩ hused

/-! ### Locks and dirty flags -/

/-- Only the lock and the data of a block change. -/
theorem Inv.set_block (hi : Inv s F L out)
    (hf : ∀ x : Block, (f x).part = x.part ∧ (f x).addr = x.addr ∧ (f x).next = x.next ∧
      (f x).prev = x.prev ∧ (f x).ref = x.ref ∧ (f x).dirty = x.dirty) :
    Inv (s.set b f) F L out := by
  obtain ⟨hpart, haddr, hnext, hprev, href, hdirty⟩ := hf (s.blocks b)
  refine hi.of_agree ⟨rfl, rfl, rfl, rfl, rfl, field_set Block.next rfl hnext,
    field_set Block.prev rfl hprev, field_set Block.part rfl hpart, field_set Block.addr rfl haddr,
    field_set Block.ref rfl href, fun _ => rfl⟩
    (fun z hne _ => absurd (field_set Block.dirty rfl hdirty z) hne)
    (fun z hne _ => absurd (field_set Block.dirty rfl hdirty z) hne)
    (fun _ hz => hz) ⟨fun p z hz => ?_, fun z hz => ?_, hi.flushing.sub, hi.flushing.nodup,
      hi.flushing.scan, hi.flushing.lt⟩
  · rw [field_set Block.part rfl hpart]
    exact hi.flushing.writer p z hz
  · rw [field_set Block.dirty rfl hdirty]
    exact hi.flushing.dirty z hz

theorem Inv.relocked (hi : Inv s F L out) (lock : RWLock) (hx : x.block = (s.client c).block) :
    Inv (s.relocked c x b lock) F L out := by
  have hset : Inv (s.set b fun y => { y with lock := lock }) F L out :=
    hi.set_block fun _ => ⟨rfl, rfl, rfl, rfl, rfl, rfl⟩
  exact hset.update_client hx

variable {mode : IOMode}

theorem Inv.lockBlock (hi : Inv s F L out) (hc : (s.client c).block = some b)
    (h : s.lockBlock c b mode = some t) : Inv t F L out := by
  rw [DCache.lockBlock] at h
  simp only at h
  split at h
  · split at h
    · cases h
    · split at h
      · cases h
        exact hi.relocked _ hc.symm
      · cases h
        exact hi.relocked _ hc.symm
  · split at h
    · cases h
      refine hi.relocked _ (hc ▸ ?_)
      split <;> rfl
    · cases h

theorem Inv.fillBlock (hi : Inv s F L out) (mode : IOMode) (ok : Bool)
    (hc : (s.client c).block = some b) : Inv (s.fillBlock c b mode ok) F L out := by
  have hset : Inv (s.set b fun y => { y with filled := true }) F L out :=
    hi.set_block fun _ => ⟨rfl, rfl, rfl, rfl, rfl, rfl⟩
  rw [DCache.fillBlock]
  split
  · exact hi.relocked _ hc.symm
  · simp only
    split
    · exact hset.relocked _ hc.symm
    · exact hset.relocked _ hc.symm

/-- The fields that `dirtydblock`, and a `writeproc` that is done, leave alone. -/
theorem agree_dirty (tag : ℕ) (lock : Block → RWLock) (writer : ℕ → Option ℕ) (flush : Flush) :
    Agree s { s.set b fun y => { y with dirty := tag, lock := lock y } with
      writer := writer, flush := flush } :=
  ⟨rfl, rfl, rfl, rfl, rfl, field_set Block.next rfl rfl, field_set Block.prev rfl rfl,
    field_set Block.part rfl rfl, field_set Block.addr rfl rfl, field_set Block.ref rfl rfl,
    fun _ => rfl⟩

/-- **`dirtydblock`**: the block is referenced. -/
theorem Inv.dirtyBlock (hi : Inv s F L none) {tag : ℕ} (hc : (s.client c).block = some b)
    (h : s.dirtyBlock b mode tag = some t) :
    Inv t F L none := by
  rw [DCache.dirtyBlock] at h
  split at h
  · rename_i hok
    cases h
    obtain ⟨-, htag, -⟩ := hok
    have hdirty : ∀ z, ((s.set b fun y => { y with dirty := tag }).blocks z).dirty =
        if z = b then tag else (s.blocks z).dirty := by
      intro z
      simp only [DCache.set, update_apply]
      split <;> rfl
    refine hi.of_agree (agree_dirty tag Block.lock s.writer s.flush) (fun z hne _ => ?_)
      (fun z hne hz => ?_) (fun _ hz => hz) ⟨fun p z hz => ?_, fun z hz => ?_, hi.flushing.sub,
        hi.flushing.nodup, hi.flushing.scan, hi.flushing.lt⟩
    · have hzb : z = b := by
        by_contra hzb
        rw [hdirty, if_neg hzb] at hne
        exact hne rfl
      rw [hzb]
      exact (hi.chained_of_block hc).1
    · rw [hdirty] at hne hz
      split at hz
      · exact absurd hz htag
      · rename_i hzb
        rw [if_neg hzb] at hne
        exact absurd rfl hne
    · rw [(agree_dirty tag Block.lock s.writer s.flush).part_eq]
      exact hi.flushing.writer p z hz
    · rw [hdirty]
      split
      · exact htag
      · exact hi.flushing.dirty z hz
  · cases h

/-! ### `flushproc` and `writeproc` -/

/-- Only the round of `flushproc` changes, and its batch grows. -/
theorem Inv.of_flush (hi : Inv s F L out) {flush : Flush}
    (hbatch : ∀ b ∈ s.flush.batch, b ∈ flush.batch) (hf : Flushing { s with flush := flush }) :
    Inv { s with flush := flush } F L out :=
  hi.of_agree ⟨rfl, rfl, rfl, rfl, rfl, fun _ => rfl, fun _ => rfl, fun _ => rfl, fun _ => rfl,
    fun _ => rfl, fun _ => rfl⟩ (fun _ hne _ => absurd rfl hne)
    (fun _ hne _ => absurd rfl hne) hbatch hf

/-- No block is being written outside a round. -/
theorem Inv.writer_none (hi : Inv s F L out) (hleft : s.flush.left = []) (p : ℕ) :
    s.writer p = none := by
  cases hw : s.writer p with
  | none => rfl
  | some b =>
    have hmem := (hi.flushing.writer p b hw).2
    rw [hleft] at hmem
    cases hmem

theorem Inv.kick (hi : Inv s F L out) (hflush : s.flush = .waiting) :
    Inv { s with flush := .scanning 0 [] } F L out := by
  have hnone := hi.writer_none (by rw [hflush]; rfl)
  refine hi.of_flush (by rw [hflush]; exact fun _ hb => hb) ⟨fun p b hw => ?_, ?_, ?_, ?_, ?_, ?_⟩
  · rw [hnone p] at hw
    cases hw
  · exact fun _ hb => absurd hb (by simp [Flush.left])
  · exact fun _ hb => absurd hb (by simp [Flush.left])
  · exact nodup_nil
  · rintro i write h b hb
    obtain ⟨-, rfl⟩ := Flush.scanning.inj h
    cases hb
  · exact fun _ hb => absurd hb (by simp [Flush.batch])

variable {write : List ℕ}

variable {i : ℕ}

/-- A block that is dirty joins the batch. -/
theorem Inv.scanBlock (hi : Inv s F L out) (hflush : s.flush = .scanning i write)
    (h : s.scanBlock i write = some t) : Inv t F L out := by
  have hf := hi.flushing
  have hleft : s.flush.left = write := by rw [hflush]; rfl
  have hbatch : s.flush.batch = write := by rw [hflush]; rfl
  rw [DCache.scanBlock] at h
  split at h
  · rename_i hlt
    cases h
    have hsmall := hf.scan i write hflush
    split
    · rename_i hdirty
      have hmem : ∀ b, b ∈ write ++ [i] ↔ b ∈ write ∨ b = i := by simp
      refine hi.of_flush (fun b hb => ?_) ⟨fun p b hw => ?_, fun b hb => ?_, fun _ hb => hb, ?_,
        ?_, fun b hb => ?_⟩
      · rw [hbatch] at hb
        exact (hmem b).2 (.inl hb)
      · obtain ⟨hp, hb⟩ := hf.writer p b hw
        rw [hleft] at hb
        exact ⟨hp, (hmem b).2 (.inl hb)⟩
      · rcases (hmem b).1 hb with hb | rfl
        · exact hf.dirty b (hleft ▸ hb)
        · exact hdirty
      · have hnd : write.Nodup := hleft ▸ hf.nodup
        refine nodup_append.2 ⟨hnd, nodup_singleton i, fun b hb b' hb' => ?_⟩
        rw [mem_singleton.1 hb']
        exact (hsmall b hb).ne
      · intro j w hjw b hb
        obtain ⟨rfl, rfl⟩ := Flush.scanning.inj hjw
        rcases (hmem b).1 hb with hb | rfl
        · exact (hsmall b hb).trans (Nat.lt_succ_self i)
        · exact Nat.lt_succ_self b
      · rcases (hmem b).1 hb with hb | rfl
        · exact hf.lt b (hbatch ▸ hb)
        · exact hlt
    · refine hi.of_flush (fun b hb => hbatch ▸ hb) ⟨fun p b hw => ?_, fun b hb => ?_,
        fun _ hb => hb, hleft ▸ hf.nodup, ?_, fun b hb => hf.lt b (hbatch ▸ hb)⟩
      · rw [← hleft]
        exact hf.writer p b hw
      · exact hf.dirty b (hleft ▸ hb)
      · intro j w hjw b hb
        obtain ⟨rfl, rfl⟩ := Flush.scanning.inj hjw
        exact (hsmall b hb).trans (Nat.lt_succ_self i)
  · cases h

theorem Inv.scanned (hi : Inv s F L out) (hflush : s.flush = .scanning i write) :
    Inv { s with flush := .writing write write } F L out := by
  have hf := hi.flushing
  have hleft : s.flush.left = write := by rw [hflush]; rfl
  have hbatch : s.flush.batch = write := by rw [hflush]; rfl
  refine hi.of_flush (fun b hb => hbatch ▸ hb) ⟨fun p b hw => ?_, fun b hb => ?_, fun _ hb => hb,
    hleft ▸ hf.nodup, fun _ _ h => (by cases h), fun b hb => hf.lt b (hbatch ▸ hb)⟩
  · rw [← hleft]
    exact hf.writer p b hw
  · exact hf.dirty b (hleft ▸ hb)

variable {left : List ℕ}

theorem Inv.writeBlock (hi : Inv s F L out) (hflush : s.flush = .writing write left)
    (h : s.writeBlock part b left = some t) :
    Inv t F L out := by
  have hleft : s.flush.left = left := by rw [hflush]; rfl
  rw [DCache.writeBlock] at h
  split at h
  · rename_i hok
    cases h
    obtain ⟨hb, hpart, -⟩ := hok
    have hset : Inv (s.set b fun y => { y with lock := ⟨0, true⟩ }) F L out :=
      hi.set_block fun _ => ⟨rfl, rfl, rfl, rfl, rfl, rfl⟩
    have hsame : ∀ z, ((s.set b fun y => { y with lock := ⟨0, true⟩ }).blocks z).part =
        (s.blocks z).part := field_set Block.part rfl rfl
    refine hset.of_agree ⟨rfl, rfl, rfl, rfl, rfl, fun _ => rfl, fun _ => rfl, fun _ => rfl,
      fun _ => rfl, fun _ => rfl, fun _ => rfl⟩ (fun _ hne _ => absurd rfl hne)
      (fun _ hne _ => absurd rfl hne) (fun _ hz => hz) ⟨fun p z hw => ?_, hset.flushing.dirty,
        hset.flushing.sub, hset.flushing.nodup, hset.flushing.scan, hset.flushing.lt⟩
    by_cases hp : p = part
    · subst hp
      have hup : update s.writer p (some b) p = some z := hw
      rw [update_self] at hup
      cases hup
      exact ⟨(hsame b).trans hpart, hleft.symm ▸ hb⟩
    · have hup : update s.writer part (some b) p = some z := hw
      rw [update_of_ne hp] at hup
      exact hset.flushing.writer p z hup
  · cases h

/-- **A block that was written** is clean, and part of the batch. -/
theorem Inv.writtenBlock (hi : Inv s F L out) (hflush : s.flush = .writing write left)
    (hw : s.writer part = some b) :
    Inv (s.writtenBlock part b write left) F L out := by
  have hf := hi.flushing
  have hleft : s.flush.left = left := by rw [hflush]; rfl
  have hbatch : s.flush.batch = write := by rw [hflush]; rfl
  obtain ⟨hpart, hb⟩ := hf.writer part b hw
  have hdirty : ∀ z, ((s.writtenBlock part b write left).blocks z).dirty =
      if z = b then 0 else (s.blocks z).dirty := by
    intro z
    simp only [DCache.writtenBlock, DCache.set, update_apply]
    split <;> rfl
  have hagree : Agree s (s.writtenBlock part b write left) :=
    agree_dirty 0 (fun _ => ⟨0, false⟩) _ _
  have hnd : left.Nodup := hleft ▸ hf.nodup
  have hmem : ∀ z, z ∈ left.erase b ↔ z ≠ b ∧ z ∈ left := fun z => hnd.mem_erase_iff
  refine hi.of_agree hagree (fun z hne hz => ?_) (fun z hne _ => ?_) (fun z hz => hbatch ▸ hz)
    ⟨fun p z hz => ?_, fun z hz => ?_, fun z hz => ?_, ?_, fun _ _ h => (by cases h),
      fun z hz => ?_⟩
  · rw [hdirty] at hne hz
    split at hz
    · exact absurd rfl hz
    · rename_i hzb
      rw [if_neg hzb] at hne
      exact absurd rfl hne
  · have hzb : z = b := by
      by_contra hzb
      rw [hdirty, if_neg hzb] at hne
      exact hne rfl
    have := hf.sub b hb
    rw [hbatch] at this
    exact hzb ▸ this
  · have hp : p ≠ part := by
      rintro rfl
      have hnone : (s.writtenBlock p b write left).writer p = none := update_self ..
      rw [hnone] at hz
      cases hz
    obtain ⟨hpz, hzleft⟩ := hf.writer p z ((update_of_ne hp ..).symm.trans hz)
    rw [hagree.part_eq]
    refine ⟨hpz, (hmem z).2 ⟨fun heq => hp ?_, hleft ▸ hzleft⟩⟩
    rw [heq, hpart] at hpz
    exact (some.inj hpz).symm
  · obtain ⟨hzb, hzleft⟩ := (hmem z).1 hz
    rw [hdirty, if_neg hzb]
    exact hf.dirty z (hleft ▸ hzleft)
  · have := hf.sub z (hleft ▸ ((hmem z).1 hz).2)
    rwa [hbatch] at this
  · exact hnd.erase b
  · exact hf.lt z (hbatch ▸ hz)

/-- What the last section of `flushproc` does to the blocks before it looks at `write`. -/
structure Undirtied (s t : DCache) (write : List ℕ) : Prop where
  blocks_eq : t.blocks = s.blocks
  flush_eq : t.flush = s.flush
  writer_eq : t.writer = s.writer
  nblocks_eq : t.nblocks = s.nblocks
  heap_sup : ∀ b, s.heap.pos b ≠ none → t.heap.pos b ≠ none
  done : ∀ b ∈ write, (s.blocks b).ref = 0 → t.heap.pos b ≠ none

/-- One block of the batch: it is in a chain, so it may be in the heap. -/
theorem Inv.undirty (hi : Inv s F L none) (hb : b ∈ L h) :
    Inv (s.undirty b) F L none ∧ Undirtied s (s.undirty b) [b] := by
  rw [DCache.undirty]
  by_cases hout : (s.blocks b).ref = 0 ∧ s.heap.pos b = none
  · rw [if_pos hout]
    obtain ⟨hadd, hmem⟩ := hi.addheap hb hout.2
    have hothers := (IndexedHeap.insert_sifted s.key hi.valid hout.2).others
    refine ⟨hadd.wakeAll, rfl, rfl, rfl, rfl, fun z hz => ?_, fun z hz _ => ?_⟩
    · have hzb : z ≠ b := by
        rintro rfl
        exact hz hout.2
      exact mt (hothers z hzb).1 hz
    · rw [mem_singleton.1 hz]
      exact hmem
  · rw [if_neg hout]
    refine ⟨hi, rfl, rfl, rfl, rfl, fun _ hz => hz, fun z hz href hpos => ?_⟩
    rw [mem_singleton.1 hz] at href hpos
    exact hout ⟨href, hpos⟩

/-- All blocks of the batch. -/
theorem Inv.undirtyAll (hi : Inv s F L none) (hchained : ∀ b ∈ write, ∃ h, b ∈ L h) :
    Inv (write.foldl DCache.undirty s) F L none ∧
      Undirtied s (write.foldl DCache.undirty s) write := by
  induction write generalizing s with
  | nil => exact ⟨hi, rfl, rfl, rfl, rfl, fun _ hz => hz, fun _ hz => by cases hz⟩
  | cons b write ih =>
    obtain ⟨h, hb⟩ := hchained b mem_cons_self
    obtain ⟨hinv, hone⟩ := hi.undirty hb
    obtain ⟨hrest, hall⟩ := ih hinv fun z hz => hchained z (mem_cons_of_mem b hz)
    refine ⟨hrest, hall.blocks_eq.trans hone.blocks_eq, hall.flush_eq.trans hone.flush_eq,
      hall.writer_eq.trans hone.writer_eq, hall.nblocks_eq.trans hone.nblocks_eq,
      fun z hz => hall.heap_sup z (hone.heap_sup z hz), fun z hz href => ?_⟩
    rcases mem_cons.1 hz with rfl | hz
    · exact hall.heap_sup z (hone.done z (mem_singleton_self z) href)
    · exact hall.done z hz (by rw [hone.blocks_eq, href])

/-- **The last section of `flushproc`**, if no block of its batch is free. -/
theorem Inv.finishFlush (hi : Inv s F L none) (hflush : s.flush = .writing write [])
    (hfree : ∀ b ∈ write, b ∉ F) :
    Inv (s.finishFlush write) F L none := by
  have hbatch : s.flush.batch = write := by rw [hflush]; rfl
  have hchained : ∀ b ∈ write, ∃ h, b ∈ L h := fun b hb =>
    (hi.cover b (hi.flushing.lt b (hbatch ▸ hb)) (by simp)).resolve_left (hfree b hb)
  obtain ⟨hall, hdone⟩ := hi.undirtyAll hchained
  have hnone := hall.writer_none (by rw [hdone.flush_eq, hflush]; rfl)
  rw [DCache.finishFlush]
  generalize write.foldl DCache.undirty s = t at hall hdone hnone
  exact { hall with
    resting := fun h b hb hout href hdirty => by
      refine (hall.resting h b hb hout href hdirty).elim .inl fun hmem => .inl ?_
      rw [hdone.flush_eq, hbatch] at hmem
      exact hdone.done b hmem (by rw [← hdone.blocks_eq, href])
    flushing := ⟨fun p b hw => absurd ((hnone p).symm.trans hw) (by simp),
      fun _ hb => absurd hb (by simp [Flush.left]), fun _ hb => absurd hb (by simp [Flush.left]),
      nodup_nil, fun _ _ heq => (by cases heq),
      fun _ hb => absurd hb (by simp [Flush.batch])⟩ }

/-! ### Runs -/

/-- What the steps of a run are to meet: when a round of `flushproc` ends, no block of its batch is
on the free list. Every other step is free. -/
def StepOk (s : DCache) : Act → Prop
  | .finish => ∀ b ∈ s.flush.batch, b ∉ s.freeList
  | _ => True

variable {a : Act}

/-- **One step keeps the invariant.** -/
theorem Inv.step (hi : Inv s F L none) (hok : StepOk s a) (h : s.act a = some t) :
    ∃ F' L', Inv t F' L' none := by
  cases a with rw [DCache.act] at h
  | get c part addr mode load =>
    split at h
    · rename_i hc
      cases h
      exact ⟨F, L, hi.update_client (by rw [hc]; rfl)⟩
    · cases h
  | enter c =>
    split at h
    · rename_i hc
      cases h
      exact hi.getSection (by rw [hc]; rfl) ..
    · cases h
  | lock c =>
    split at h
    · rename_i hc
      exact ⟨F, L, hi.lockBlock (by rw [hc]; rfl) h⟩
    · cases h
  | upgrade c =>
    split at h
    · rename_i hc
      rw [DCache.upgradeBlock] at h
      split at h
      · cases h
        exact ⟨F, L, hi.relocked _ (by rw [hc]; rfl)⟩
      · cases h
    · cases h
  | fill c ok =>
    split at h
    · rename_i hc
      cases h
      exact ⟨F, L, hi.fillBlock _ _ (by rw [hc]; rfl)⟩
    · cases h
  | relock c =>
    split at h
    · rename_i hc
      rw [DCache.relockBlock] at h
      split at h
      · cases h
      · cases h
        exact ⟨F, L, hi.relocked _ (by rw [hc]; rfl)⟩
    · cases h
  | dirty c tag =>
    split at h
    · rename_i hc
      exact ⟨F, L, hi.dirtyBlock (by rw [hc]; rfl) h⟩
    · cases h
  | unlock c =>
    split at h
    · rename_i hc
      cases h
      exact ⟨F, L, hi.relocked _ (by rw [hc]; rfl)⟩
    · cases h
  | put c =>
    split at h
    · rename_i hc
      cases h
      exact ⟨F, L, hi.putSection (by rw [hc]; rfl)⟩
    · cases h
  | empty =>
    cases h
    obtain ⟨F', L', hinv, -⟩ := hi.emptyLoop s.heap.size
    exact ⟨F', L', hinv⟩
  | kick =>
    split at h
    · rename_i hflush
      cases h
      exact ⟨F, L, hi.kick hflush⟩
    · cases h
  | scan =>
    split at h
    · rename_i hflush
      exact ⟨F, L, hi.scanBlock hflush h⟩
    · cases h
  | scanned =>
    split at h
    · rename_i hflush
      split at h
      · cases h
        exact ⟨F, L, hi.scanned hflush⟩
      · cases h
    · cases h
  | write part b =>
    split at h
    · rename_i hflush
      exact ⟨F, L, hi.writeBlock hflush h⟩
    · cases h
  | written part =>
    split at h
    · rename_i hflush hw
      cases h
      exact ⟨F, L, hi.writtenBlock hflush hw⟩
    · cases h
  | finish =>
    split at h
    · rename_i write hflush
      cases h
      refine ⟨F, L, hi.finishFlush hflush fun b hb => ?_⟩
      rw [← hi.freeList_eq]
      exact hok b (by rw [hflush]; exact hb)
    · cases h

/-- The free list that `initdcache` makes. -/
theorem linked_start (n k : ℕ) : Linked (start n).next (if k = 0 then none else some (k - 1))
    (List.range k).reverse none := by
  induction k with
  | zero => rfl
  | succ k ih =>
    rw [range_succ, reverse_append, reverse_singleton, singleton_append,
      if_neg (Nat.succ_ne_zero k)]
    exact ⟨rfl, ih⟩

/-- The invariant holds behind `initdcache`. -/
theorem inv_start (n : ℕ) : Inv (start n) (List.range n).reverse (fun _ => []) none where
  table := ⟨linked_start n n, fun _ => rfl, nodup_reverse.2 nodup_range, fun _ => nodup_nil,
    fun _ _ _ hb => (by cases hb), fun _ _ _ hb => by cases hb⟩
  hash _ _ hb := by cases hb
  lt b hb := by
    rcases hb with hb | ⟨_, hb⟩
    · exact mem_range.1 (mem_reverse.1 hb)
    · cases hb
  cover b hb _ := .inl (mem_reverse.2 (mem_range.2 hb))
  addr _ _ hb := by cases hb
  valid := ⟨fun _ hlt => absurd hlt (Nat.not_lt_zero _), fun _ _ hpos => by cases hpos⟩
  heap_chained _ hpos := absurd rfl hpos
  idle _ _ := ⟨rfl, rfl⟩
  resting _ _ hb := by cases hb
  refs _ := ⟨∅, fun _ => by simp [start, Client.block], rfl⟩
  flushing := ⟨fun _ _ hw => (by cases hw), fun _ hb => (by cases hb), fun _ hb => (by cases hb),
    nodup_nil, fun _ _ heq => (by cases heq), fun _ hb => (by cases hb)⟩
  sound := rfl
  used_lt _ href := absurd rfl href

/-- **Every block has one owner**, the lists are in order, and the heap knows its blocks. -/
structure Sound (s : DCache) : Prop where
  free : Linked s.next s.free s.freeList none ∧ s.freeList.Nodup
  chains : ∀ h, DLinked s.next s.prev none (s.heads h) (s.chain h)
  /-- A block is on the free list, or once in the chain of its address, and in no other list. -/
  owned : ∀ b < s.nblocks,
    (b ∈ s.freeList ∧ ∀ h, b ∉ s.chain h) ∨
      (b ∉ s.freeList ∧ (s.chain (pbhash (s.blocks b).addr)).count b = 1 ∧
        ∀ h ≠ pbhash (s.blocks b).addr, b ∉ s.chain h)
  free_not_heap : ∀ b ∈ s.freeList, s.heap.pos b = none ∧ ∀ i < s.heap.size, s.heap.arr i ≠ b
  heap_index : ∀ i < s.heap.size, s.heap.pos (s.heap.arr i) = some i
  /-- A chained block that is clean and not used is in the heap once, or will be. -/
  resting : ∀ h, ∀ b ∈ s.chain h, (s.blocks b).ref = 0 → (s.blocks b).dirty = 0 →
    (∃! i, i < s.heap.size ∧ s.heap.arr i = b) ∨ b ∈ s.flush.batch
  fatal : s.fatal = false

/-- The invariant says so. -/
theorem Inv.toSound (hi : Inv s F L none) : Sound s := by
  have hF := hi.freeList_eq
  have hL := hi.chain_eq
  constructor
  · rw [hF]
    exact ⟨hi.table.free_linked, hi.table.free_nodup⟩
  · intro h
    rw [hL]
    exact hi.table.chain h
  · intro b hb
    rw [hF]
    simp only [hL]
    rcases hi.cover b hb (by simp) with hf | ⟨h, hmem⟩
    · exact .inl ⟨hf, hi.table.apart b hf⟩
    · refine .inr ⟨fun hf => hi.table.apart b hf h hmem, ?_, fun h' hne hmem' => ?_⟩
      · rw [hi.hash h b hmem]
        exact count_eq_one_of_mem (hi.table.chain_nodup h) hmem
      · exact hne (hi.hash h' b hmem').symm
  · intro b hb
    rw [hF] at hb
    have hpos : s.heap.pos b = none := by
      by_contra hpos
      obtain ⟨h, hmem⟩ := hi.heap_chained b hpos
      exact hi.table.apart b hb h hmem
    refine ⟨hpos, fun i hlt heq => ?_⟩
    rw [← heq, hi.valid.pos_arr i hlt] at hpos
    cases hpos
  · exact hi.valid.pos_arr
  · intro h b hb href hdirty
    rw [hL] at hb
    refine (hi.resting h b hb (by simp) href hdirty).imp_left fun hpos => ?_
    obtain ⟨i, hpos⟩ := ne_none_iff_exists'.1 hpos
    refine ⟨i, hi.valid.arr_pos b i hpos, ?_⟩
    rintro j ⟨hlt, rfl⟩
    rw [hi.valid.pos_arr j hlt] at hpos
    exact some.inj hpos
  · exact hi.sound

/-! ### Reuse -/

/-- No block changes its address. -/
structure Kept (s t : DCache) : Prop where
  part_eq : ∀ b, (t.blocks b).part = (s.blocks b).part
  addr_eq : ∀ b, (t.blocks b).addr = (s.blocks b).addr

theorem Kept.trans (h₁ : Kept s t) (h₂ : Kept t u) : Kept s u :=
  ⟨fun b => (h₂.part_eq b).trans (h₁.part_eq b), fun b => (h₂.addr_eq b).trans (h₁.addr_eq b)⟩

theorem kept_of_blocks (h : t.blocks = s.blocks) : Kept s t := by
  constructor
  all_goals
    intro b
    rw [h]

theorem kept_update {x : Block} (h : t.blocks = update s.blocks b x)
    (hpart : x.part = (s.blocks b).part) (haddr : x.addr = (s.blocks b).addr) : Kept s t :=
  ⟨field_set Block.part h hpart, field_set Block.addr h haddr⟩

theorem kept_relocked (c : ℕ) (x : Client) (lock : RWLock) : Kept s (s.relocked c x b lock) :=
  kept_update rfl rfl rfl

theorem kept_writeBlock (h : s.writeBlock part b left = some t) : Kept s t := by
  rw [DCache.writeBlock] at h
  split at h
  · cases h
    exact kept_update rfl rfl rfl
  · cases h

theorem kept_lockBlock (h : s.lockBlock c b mode = some t) : Kept s t := by
  rw [DCache.lockBlock] at h
  simp only at h
  split at h
  · split at h
    · cases h
    · split at h
      all_goals
        cases h
        exact kept_relocked ..
  · split at h
    · cases h
      exact kept_relocked ..
    · cases h

theorem kept_fillBlock (c : ℕ) (mode : IOMode) (ok : Bool) : Kept s (s.fillBlock c b mode ok) := by
  have hset : Kept s (s.set b fun y => { y with filled := true }) := kept_update rfl rfl rfl
  rw [DCache.fillBlock]
  split
  · exact kept_relocked ..
  · simp only
    split
    · exact hset.trans (kept_relocked ..)
    · exact hset.trans (kept_relocked ..)

theorem kept_found (c : ℕ) (mode : IOMode) : Kept s (s.found c b mode) := by
  rw [DCache.found, DCache.refix]
  split
  · exact kept_update rfl rfl rfl
  · exact kept_update rfl rfl rfl

theorem kept_putSection (c : ℕ) : Kept s (s.putSection c b) := by
  rw [DCache.putSection]
  simp only
  split
  · split
    · exact kept_update rfl rfl rfl
    · exact kept_update rfl rfl rfl
  · exact kept_update rfl rfl rfl

theorem kept_undirtyAll (write : List ℕ) : Kept s (write.foldl DCache.undirty s) := by
  induction write generalizing s with
  | nil => exact kept_of_blocks rfl
  | cons b write ih =>
    have hone : Kept s (s.undirty b) := by
      rw [DCache.undirty]
      split
      · exact kept_of_blocks rfl
      · exact kept_of_blocks rfl
    exact hone.trans ih

/-- **The section of `_getdblock` reuses only blocks that are clean and not used.** -/
theorem Inv.reuse_getSection (hi : Inv s F L none) (c part : ℕ) (addr : UInt64) (mode : IOMode)
    (load : Bool) (z : ℕ) (href : (s.blocks z).ref ≠ 0 ∨ (s.blocks z).dirty ≠ 0) :
    ((s.getSection c part addr mode load).blocks z).part = (s.blocks z).part ∧
      ((s.getSection c part addr mode load).blocks z).addr = (s.blocks z).addr := by
  rw [DCache.getSection]
  cases s.lookup part addr with
  | some b => exact ⟨(kept_found c mode).part_eq z, (kept_found c mode).addr_eq z⟩
  | none =>
    simp only
    split
    · exact ⟨rfl, rfl⟩
    · obtain ⟨hnone, hsome⟩ := hi.bumpdblock
      cases hbump : s.bumpdblock with
      | mk r t =>
        cases r with
        | none =>
          obtain ⟨-, hsame⟩ := hnone t hbump
          exact ⟨hsame.part_eq z, hsame.addr_eq z⟩
        | some b =>
          obtain ⟨F', L', hb⟩ := hsome b t hbump
          have hzb : z ≠ b := by
            rintro rfl
            rw [← hb.same.ref_eq, ← hb.same.dirty_eq] at href
            exact href.elim (fun hne => hne hb.inHand.ref_eq) fun hne => hne hb.inHand.dirty_eq
          have hother : ((t.rechain b part addr).blocks z).part = (t.blocks z).part ∧
              ((t.rechain b part addr).blocks z).addr = (t.blocks z).addr := by
            simp only [DCache.rechain, if_neg hzb]
            split <;> exact ⟨rfl, rfl⟩
          have hkept : Kept (t.rechain b part addr) ((t.rechain b part addr).found c b mode) :=
            kept_found ..
          simp only
          split
          · exact ⟨hb.same.part_eq z, hb.same.addr_eq z⟩
          · exact ⟨(hkept.part_eq z).trans (hother.1.trans (hb.same.part_eq z)),
              (hkept.addr_eq z).trans (hother.2.trans (hb.same.addr_eq z))⟩

/-- Only `_getdblock` gives a block a new address. -/
theorem kept_act (ha : ∀ c, a ≠ .enter c) (hempty : a ≠ .empty) (h : s.act a = some t) :
    Kept s t := by
  cases a with rw [DCache.act] at h
  | enter c => exact absurd rfl (ha c)
  | empty => exact absurd rfl hempty
  | lock c =>
    split at h
    · exact kept_lockBlock h
    · cases h
  | upgrade c =>
    split at h
    · rw [DCache.upgradeBlock] at h
      split at h
      · cases h
        exact kept_relocked ..
      · cases h
    · cases h
  | relock c =>
    split at h
    · rw [DCache.relockBlock] at h
      split at h
      · cases h
      · cases h
        exact kept_relocked ..
    · cases h
  | fill c ok =>
    split at h
    · cases h
      exact kept_fillBlock ..
    · cases h
  | dirty c tag =>
    split at h
    · rw [DCache.dirtyBlock] at h
      split at h
      · cases h
        exact kept_update rfl rfl rfl
      · cases h
    · cases h
  | unlock c =>
    split at h
    · cases h
      exact kept_relocked ..
    · cases h
  | put c =>
    split at h
    · cases h
      exact kept_putSection ..
    · cases h
  | written part =>
    split at h
    · cases h
      exact kept_update rfl rfl rfl
    · cases h
  | finish =>
    split at h
    · cases h
      exact (kept_undirtyAll _).trans (kept_of_blocks rfl)
    · cases h
  | write part b =>
    split at h
    · exact kept_writeBlock h
    · cases h
  | scan =>
    split at h
    · rw [DCache.scanBlock] at h
      split at h
      · cases h
        exact kept_of_blocks rfl
      · cases h
    · cases h
  | scanned =>
    split at h
    · split at h
      · cases h
        exact kept_of_blocks rfl
      · cases h
    · cases h
  | get c part addr mode load =>
    split at h
    · cases h
      exact kept_of_blocks rfl
    · cases h
  | kick =>
    split at h
    · cases h
      exact kept_of_blocks rfl
    · cases h

/-- **A block is reused only when it is clean and not used.** -/
theorem Inv.reuse (hi : Inv s F L none) (h : s.act a = some t) (z : ℕ)
    (hchange : (t.blocks z).part ≠ (s.blocks z).part ∨ (t.blocks z).addr ≠ (s.blocks z).addr) :
    (s.blocks z).ref = 0 ∧ (s.blocks z).dirty = 0 := by
  have hkept : ¬((t.blocks z).part = (s.blocks z).part ∧ (t.blocks z).addr = (s.blocks z).addr) :=
    fun hk => hchange.elim (fun hne => hne hk.1) fun hne => hne hk.2
  by_contra hused
  rw [Classical.not_and_iff_not_or_not] at hused
  refine hkept ?_
  by_cases hempty : a = .empty
  · subst hempty
    cases h
    obtain ⟨-, -, -, hsame⟩ := hi.emptyLoop s.heap.size
    exact ⟨hsame.part_eq z, hsame.addr_eq z⟩
  · by_cases henter : ∃ c, a = .enter c
    · obtain ⟨c, rfl⟩ := henter
      rw [DCache.act] at h
      split at h
      · cases h
        exact hi.reuse_getSection c _ _ _ _ z hused
      · cases h
    · have hkept := kept_act (fun c hc => henter ⟨c, hc⟩) hempty h
      exact ⟨hkept.part_eq z, hkept.addr_eq z⟩

/-! ### The cache -/

/-- **The disk cache**: in a run in which no block of a batch is free when its round ends, every
block has one owner, and a block that gets a new address is clean and not used. Nothing is
assumed of the clock, which may go round: the heap may then be out of order, but only its top is
ever taken out. -/
theorem dcache_sound (n : ℕ) {acts : List Act} {s : DCache}
    (h : Run (Guarded StepOk DCache.Step) (start n) acts s) :
    Sound s ∧ ∀ a t, DCache.Step s a t → ∀ b,
      ((t.blocks b).part ≠ (s.blocks b).part ∨ (t.blocks b).addr ≠ (s.blocks b).addr) →
        (s.blocks b).ref = 0 ∧ (s.blocks b).dirty = 0 := by
  obtain ⟨F, L, hi⟩ : ∃ F L, Inv s F L none := by
    refine h.guarded_inv (I := fun s => ∃ F L, Inv s F L none) ?_ ⟨_, _, inv_start n⟩
    rintro s a t ⟨F, L, hi⟩ hok ⟨-, hstep⟩
    exact hi.step hok hstep
  exact ⟨hi.toSound, fun a t hstep b hchange => hi.reuse hstep.2 b hchange⟩

/-- The steps of a run, one after the other. -/
def runAll (s : DCache) (acts : List Act) : Option DCache :=
  acts.foldlM (fun s a => if s.fatal = false then s.act a else none) s

variable {acts : List Act}

theorem guarded_of_runAll {ok : DCache → Act → Prop} (hok : ∀ a ∈ acts, ∀ s, ok s a)
    (h : runAll s acts = some t) :
    Run (Guarded ok DCache.Step) s acts t := by
  refine .of_foldlM (fun s a ha t hstep => ⟨hok a ha s, ?_⟩) h
  split at hstep
  · rename_i hfatal
    exact ⟨hfatal, hstep⟩
  · cases hstep

theorem run_of_runAll (h : runAll s acts = some t) :
    Run DCache.Step s acts t := by
  have hguarded : Run (Guarded (fun _ _ => True) DCache.Step) s acts t :=
    guarded_of_runAll (fun _ _ _ => trivial) h
  exact hguarded.of_guarded

/-- A block is found, filled, made dirty and put back; `flushproc` finds it, and it is written. -/
def writtenInFlush : List Act :=
  [.get 0 0 0 .owrite true, .enter 0, .lock 0, .fill 0 true, .dirty 0 1, .unlock 0, .put 0, .kick,
    .scan, .scanned, .write 0 0, .written 0]

/-- A round of `flushproc`, from the first use of a block on. -/
theorem dcache_sound_round : ∃ s acts, Run (Guarded StepOk DCache.Step) (start 1) acts s ∧
    s.heap.pos 0 = some 0 ∧ Sound s := by
  have hrun : (runAll (start 1) writtenInFlush).map
      (fun s => (s.freeList, s.fatal, (s.act .finish).map fun t => t.heap.pos 0)) =
        some ([], false, some (some 0)) := rfl
  obtain ⟨s, hs, hends⟩ := Option.map_eq_some_iff.1 hrun
  obtain ⟨hfree, hrest⟩ := Prod.mk.inj hends
  obtain ⟨hfatal, hlast⟩ := Prod.mk.inj hrest
  obtain ⟨t, ht, hpos⟩ := Option.map_eq_some_iff.1 hlast
  have hround : Run (Guarded StepOk DCache.Step) (start 1) writtenInFlush s := by
    refine guarded_of_runAll (fun a ha s => ?_) hs
    have hne : a ≠ .finish := by
      rintro rfl
      simp [writtenInFlush] at ha
    cases a with
    | finish => exact absurd rfl hne
    | _ => exact trivial
  have hfinish : Run (Guarded StepOk DCache.Step) s [.finish] t := by
    refine .single ⟨fun b _ => ?_, hfatal, ht⟩
    rw [hfree]
    exact List.not_mem_nil
  have hall := hround.append hfinish
  exact ⟨_, _, hall, hpos, (dcache_sound 1 hall).1⟩

/-- A block is written; before the round is over it is read again, and the cache emptied. -/
def freedInFlush : List Act :=
  [.get 0 0 0 .owrite true, .enter 0, .lock 0, .fill 0 true, .dirty 0 1, .unlock 0, .put 0,
    .kick, .scan, .scanned, .write 0 0, .written 0,
    .get 0 0 0 .oread true, .enter 0, .lock 0, .unlock 0, .put 0, .empty, .finish]

/-- **A free block in the heap**: behind this run the block has two owners, and the next
`emptydcache` fails. -/
theorem free_block_in_heap : ∃ s, Run DCache.Step (start 1) freedInFlush s ∧ ¬Sound s ∧
    ∃ t, DCache.Step s .empty t ∧ t.fatal = true := by
  have hrun : (runAll (start 1) freedInFlush).map (fun s => (s.freeList, s.heap.pos 0, s.fatal,
      (DCache.emptyLoop s.heap.size s).fatal)) = some ([0], some 0, false, true) := by
    decide +kernel
  obtain ⟨s, hs, hends⟩ := Option.map_eq_some_iff.1 hrun
  obtain ⟨hfree, hrest⟩ := Prod.mk.inj hends
  obtain ⟨hpos, hrest⟩ := Prod.mk.inj hrest
  obtain ⟨hfatal, hempty⟩ := Prod.mk.inj hrest
  refine ⟨s, run_of_runAll hs, fun hsound => ?_, _, ⟨hfatal, rfl⟩, hempty⟩
  have hnone := (hsound.free_not_heap 0 (by rw [hfree]; exact List.mem_singleton_self 0)).1
  rw [hpos] at hnone
  cases hnone

end BlockCache

end Venti

end Plan9
