import Mathlib.Algebra.BigOperators.Group.Finset.Basic
import Mathlib.Algebra.Order.BigOperators.Group.Finset
import Plan9.Venti.LumpCache

/-!
# The check of the cache of lumps

The invariant of the cache, for every order of its steps, and that `checklumpcache` finds nothing
wrong where it holds. While a step is inside `lumpcache.lock`, one lump may be in hand: nobody
refers to it, and it is not in the heap.

The invariant needs that no packet is stored in a lump whose type is that of an unused one: the
check would not count it.

* `Plan9.Venti.Lumps.Inv.check` – the invariant is enough for the check;
* `Plan9.Venti.Lumps.Inv.step` – a step keeps the invariant;
* `Plan9.Venti.Lumps.lumpcache_sound` – **the check never fails** in a run without such a packet;
* `Plan9.Venti.Lumps.corrupt_lump_counted` – a run with one.
-/

namespace Plan9

namespace Venti

open Lib List Function

namespace Lumps

/-! ### The invariant -/

/-- **The invariant**: the free list is `F`, the chains are `L`, and `out` is in hand. -/
structure Inv (s : LumpCache) (F : List ℕ) (L : ℕ → List ℕ) (out : Option ℕ) : Prop where
  table : ChainTable s.next s.prev s.free s.heads F L
  hash : ∀ h, ∀ b ∈ L h, lumpHash (s.score b) = h
  lt : ∀ b, (b ∈ F ∨ ∃ h, b ∈ L h) → b < s.nblocks
  cover : ∀ b < s.nblocks, b ∈ F ∨ ∃ h, b ∈ L h
  valid : s.heap.Valid
  ordered : IndexedHeap.Ordered s.key s.heap
  heap_chained : ∀ b, s.heap.pos b ≠ none → ∃ h, b ∈ L h
  unused : ∀ b ∈ F, s.type b = twid8
  ref_chained : ∀ b, s.ref b ≠ 0 → ∃ h, b ∈ L h
  /-- A lump that nobody refers to is in the heap. -/
  resting : ∀ h, ∀ b ∈ L h, out ≠ some b → s.ref b = 0 → s.heap.pos b ≠ none
  /-- The references are those of the processes. -/
  refs : Counted (fun c => (s.client c).block) s.ref
  locks : ∀ c b, (s.client c).holds = some b → s.lock b = some c
  inserting : ∀ c b, (s.client c).inserts = some b → s.data b = none
  empty : ∀ b, s.data b = none → s.size b = 0
  corrupt : ∀ b, s.type b = twid8 → s.size b = 0
  avail : s.avail.toNat + ∑ b ∈ Finset.range s.nblocks, (s.size b).toNat = s.allowed.toNat
  clock : ∀ b, s.used b ≤ s.now ∧ s.used2 b ≤ s.now
  /-- The lumps that were looked up, were so before. -/
  past : ∀ h, ∀ b ∈ L h, out ≠ some b → s.used b < s.now ∧ s.used2 b < s.now
  sound : s.fatal = false

variable {s t : LumpCache} {F : List ℕ} {L : ℕ → List ℕ} {out : Option ℕ} {b c h k : ℕ}

/-- A lump may be taken to be in hand. -/
theorem Inv.weaken (hi : Inv s F L none) (out : Option ℕ) : Inv s F L out := { hi with
    resting := fun h b hb _ => hi.resting h b hb (by simp)
    past := fun h b hb _ => hi.past h b hb (by simp) }

variable {l : List ℕ} {n : ℕ}

theorem length_le_nblocks (hnd : l.Nodup) (hlt : ∀ b ∈ l, b < n) : l.length ≤ n := by
  have hsub : l ⊆ List.range n := fun b hb => mem_range.2 (hlt b hb)
  simpa using (subperm_of_subset hnd hsub).length_le

theorem Inv.chain_eq (hi : Inv s F L out) (h : ℕ) : s.chain h = L h :=
  walk_eq (hi.table.chain h).linked
    (length_le_nblocks (hi.table.chain_nodup h) fun b hb => hi.lt b (.inr ⟨h, hb⟩))

/-- A lump that a process refers to is in a chain. -/
theorem Inv.chained_of_block (hi : Inv s F L out) (hc : (s.client c).block = some b) :
    ∃ h, b ∈ L h :=
  hi.ref_chained b (hi.refs.pos hc).ne'

theorem Inv.pos_of_free (hi : Inv s F L out) (hb : b ∈ F) : s.heap.pos b = none := by
  by_contra hpos
  obtain ⟨h, hL⟩ := hi.heap_chained b hpos
  exact hi.table.apart b hb h hL

theorem Inv.ref_of_free (hi : Inv s F L out) (hb : b ∈ F) : s.ref b = 0 := by
  by_contra href
  obtain ⟨h, hL⟩ := hi.ref_chained b href
  exact hi.table.apart b hb h hL

/-! ### What the check finds -/

/-- The lumps of a chain are found from where they are. -/
theorem findLoop_spec {last a : Option ℕ} (hl : DLinked s.next s.prev last a l) (hb : b ∈ l)
    (hk : l.length ≤ k) : s.findLoop b k a last = true := by
  induction l generalizing last a k with
  | nil => cases hb
  | cons x l ih =>
    obtain ⟨rfl, hprev, hl⟩ := hl
    obtain ⟨k, rfl⟩ := Nat.exists_eq_succ_of_ne_zero (Nat.ne_of_gt (Nat.lt_of_lt_of_le
      (Nat.succ_pos _) hk))
    rw [LumpCache.findLoop, if_neg (not_not.2 hprev.symm)]
    split
    next => rfl
    next hne =>
      exact ih hl ((mem_cons.1 hb).resolve_left (Ne.symm hne)) (Nat.le_of_succ_le_succ hk)

theorem Inv.findblock (hi : Inv s F L out) (hb : b ∈ L h) : s.findblock b = true := by
  rw [LumpCache.findblock, hi.hash h b hb]
  exact findLoop_spec (hi.table.chain h) hb
    (length_le_nblocks (hi.table.chain_nodup h) fun b hb => hi.lt b (.inr ⟨h, hb⟩))

/-- The free list is counted. -/
theorem freeLoop_spec {a : Option ℕ} (hl : Linked s.next a l none)
    (hfree : ∀ b ∈ l, s.type b = twid8 ∧ s.heap.pos b = none) (hk : l.length ≤ k) :
    s.freeLoop k a = some l.length := by
  induction l generalizing a k with
  | nil =>
    obtain rfl : a = none := hl
    cases k <;> rfl
  | cons x l ih =>
    obtain ⟨rfl, hl⟩ := hl
    obtain ⟨k, rfl⟩ := Nat.exists_eq_succ_of_ne_zero (Nat.ne_of_gt (Nat.lt_of_lt_of_le
      (Nat.succ_pos _) hk))
    obtain ⟨htype, hpos⟩ := hfree x mem_cons_self
    rw [LumpCache.freeLoop, if_neg (by rw [htype, hpos]; simp),
      ih hl (fun b hb => hfree b (mem_cons_of_mem x hb)) (Nat.le_of_succ_le_succ hk)]
    rfl

theorem Inv.checkHeap (hi : Inv s F L out) {i : ℕ} (hlt : i < s.heap.size) :
    s.checkHeap i = true := by
  have hup : ∀ j, 0 < j → j < s.heap.size →
      s.key (s.heap.arr ((j - 1) / 2)) ≤ s.key (s.heap.arr j) := hi.ordered
  have hleft := hup (2 * i + 1) (by omega)
  have hright := hup (2 * i + 2) (by omega)
  rw [show (2 * i + 1 - 1) / 2 = i by omega] at hleft
  rw [show (2 * i + 2 - 1) / 2 = i by omega] at hright
  have habove := hup i
  simp only [LumpCache.checkHeap, hi.valid.pos_arr i hlt, decide_true, Bool.true_and,
    Bool.and_eq_true, Bool.not_eq_true', Bool.and_eq_false_iff, decide_eq_false_iff_not, not_lt]
  refine ⟨⟨?_, ?_⟩, ?_⟩
  · rcases Nat.eq_zero_or_pos i with h0 | h0
    · exact .inl (Nat.le_of_eq h0)
    · exact .inr (habove h0 hlt)
  · rcases Nat.lt_or_ge (2 * i + 1) s.heap.size with hlt' | hge
    · exact .inr (hleft hlt')
    · exact .inl hge
  · rcases Nat.lt_or_ge (2 * i + 2) s.heap.size with hlt' | hge
    · exact .inr (hright hlt')
    · exact .inl hge

theorem Inv.checkBlock (hi : Inv s F L out) (hb : b < s.nblocks) : s.checkBlock b = true := by
  simp only [LumpCache.checkBlock, Bool.and_eq_true, Bool.not_eq_true', Bool.and_eq_false_iff,
    decide_eq_false_iff_not, decide_eq_true_eq, not_not, Bool.or_eq_true, Option.all_eq_true]
  refine ⟨⟨?_, ?_⟩, fun i hpos => (hi.valid.arr_pos b i hpos).2⟩
  · by_cases hdata : s.data b = none
    · exact .inr (hi.empty b hdata)
    · exact .inl hdata
  · rcases hi.cover b hb with hF | ⟨h, hL⟩
    · exact .inl (hi.unused b hF)
    · exact .inr (hi.findblock hL)

/-- What `checklumpcache` adds up is what is used. -/
theorem Inv.sizeSum (hi : Inv s F L out) :
    s.sizeSum.toNat = ∑ b ∈ Finset.range s.nblocks, (s.size b).toNat := by
  have hall := hi.avail
  have hlt := s.allowed.toNat_lt
  have hrun : ∀ n ≤ s.nblocks, ((List.range n).foldl
      (fun size b => if s.type b ≠ twid8 then size + s.size b else size) 0).toNat =
      ∑ b ∈ Finset.range n, (s.size b).toNat := by
    intro n hn
    induction n with
    | zero => rfl
    | succ n ih =>
      have hle : ∑ b ∈ Finset.range (n + 1), (s.size b).toNat ≤
          ∑ b ∈ Finset.range s.nblocks, (s.size b).toNat :=
        Finset.sum_le_sum_of_subset (Finset.range_subset_range.2 hn)
      rw [range_succ, foldl_append, foldl_cons, foldl_nil, Finset.sum_range_succ]
      rw [Finset.sum_range_succ] at hle
      split
      next =>
        rw [UInt32.toNat_add, ih (by omega), Nat.mod_eq_of_lt (by omega)]
      next htype =>
        rw [ih (by omega), hi.corrupt n (not_not.1 htype)]
        rfl
  exact hrun s.nblocks le_rfl

/-- A lump is in the heap, or free, or somebody refers to it. -/
theorem Inv.count (hi : Inv s F L none) : s.heap.size + F.length + s.refed = s.nblocks := by
  have hheap : ((Finset.range s.heap.size).image s.heap.arr).card = s.heap.size := by
    rw [Finset.card_image_of_injOn, Finset.card_range]
    intro i hi' j hj heq
    have hpos := hi.valid.pos_arr i (Finset.mem_range.1 hi')
    rw [heq, hi.valid.pos_arr j (Finset.mem_range.1 hj)] at hpos
    exact (Option.some.inj hpos).symm
  have hmem : ∀ b, b ∈ (Finset.range s.heap.size).image s.heap.arr ↔ s.heap.pos b ≠ none := by
    intro b
    rw [Finset.mem_image]
    constructor
    · rintro ⟨i, hlt, rfl⟩
      rw [hi.valid.pos_arr i (Finset.mem_range.1 hlt)]
      simp
    · intro hpos
      obtain ⟨i, hpos⟩ := Option.ne_none_iff_exists'.1 hpos
      obtain ⟨hlt, harr⟩ := hi.valid.arr_pos b i hpos
      exact ⟨i, Finset.mem_range.2 hlt, harr⟩
  have hfree : F.toFinset.card = F.length := toFinset_card_of_nodup hi.table.free_nodup
  have hrefed : ((Finset.range s.nblocks).filter
      fun b => s.ref b ≠ 0 ∧ s.heap.pos b = none).card = s.refed := rfl
  have hdisj : Disjoint ((Finset.range s.heap.size).image s.heap.arr) F.toFinset := by
    refine Finset.disjoint_left.2 fun b hb hF => ?_
    exact (hmem b).1 hb (hi.pos_of_free (mem_toFinset.1 hF))
  have hdisj' : Disjoint ((Finset.range s.heap.size).image s.heap.arr ∪ F.toFinset)
      ((Finset.range s.nblocks).filter fun b => s.ref b ≠ 0 ∧ s.heap.pos b = none) := by
    refine Finset.disjoint_left.2 fun b hb hR => ?_
    obtain ⟨href, hpos⟩ := (Finset.mem_filter.1 hR).2
    rcases Finset.mem_union.1 hb with hb | hb
    · exact (hmem b).1 hb hpos
    · exact href (hi.ref_of_free (mem_toFinset.1 hb))
  rw [← hrefed, ← hfree]
  nth_rewrite 1 [← hheap]
  rw [← Finset.card_union_of_disjoint hdisj, ← Finset.card_union_of_disjoint hdisj']
  refine (congrArg Finset.card ?_).trans (Finset.card_range s.nblocks)
  ext b
  rw [Finset.mem_union, Finset.mem_union, hmem, mem_toFinset, Finset.mem_filter, Finset.mem_range]
  constructor
  · rintro ((hpos | hF) | hR)
    · exact hi.lt b (.inr (hi.heap_chained b hpos))
    · exact hi.lt b (.inl hF)
    · exact hR.1
  · intro hb
    by_cases hpos : s.heap.pos b = none
    · rcases hi.cover b hb with hF | ⟨h, hL⟩
      · exact .inl (.inr hF)
      · exact .inr ⟨hb, fun href => hi.resting h b hL (by simp) href hpos, hpos⟩
    · exact .inl (.inl hpos)

/-- **The check finds nothing wrong.** -/
theorem Inv.check (hi : Inv s F L none) : s.checklumpcache = true := by
  have hfree : s.freeLoop s.nblocks s.free = some F.length :=
    freeLoop_spec hi.table.free_linked (fun b hb => ⟨hi.unused b hb, hi.pos_of_free hb⟩)
      (length_le_nblocks hi.table.free_nodup fun b hb => hi.lt b (.inl hb))
  have havail : s.avail = s.allowed - s.sizeSum := by
    have hsum := hi.avail
    rw [← hi.sizeSum] at hsum
    refine UInt32.toNat.inj ?_
    have hle : s.sizeSum ≤ s.allowed := UInt32.le_iff_toNat_le.2 (by omega)
    rw [UInt32.toNat_sub_of_le _ _ hle]
    omega
  simp only [LumpCache.checklumpcache, hfree, Option.any_some, hi.count, decide_true, havail,
    Bool.and_true, Bool.and_eq_true, all_eq_true, mem_range]
  exact ⟨fun i hlt => hi.checkHeap hlt, fun b hb => hi.checkBlock hb⟩

/-! ### The heap -/

/-- A lump that somebody refers to, or that is in hand, is taken out of the heap. -/
theorem Inv.delheap (hi : Inv s F L out) (hb : out ≠ some b → s.ref b ≠ 0) :
    Inv (s.delheap b) F L out ∧ (s.delheap b).heap.pos b = none := by
  obtain ⟨he, hordered⟩ :=
    @IndexedHeap.erase_spec _ _ _ _ s.key b s.heap hi.valid hi.ordered
  refine ⟨{ hi with
    valid := he.valid
    ordered := hordered
    heap_chained := fun z hz => hi.heap_chained z (he.mem hz)
    resting := fun h z hz hout href => ?_ }, he.pos_eq⟩
  have hin := hi.resting h z hz hout href
  by_cases hzb : z = b
  · rw [hzb] at hout href
    exact absurd href (hb hout)
  · exact mt (he.others z hzb).1 hin

/-- A chained lump is put into the heap. -/
theorem Inv.addheap (hi : Inv s F L out) (hb : b ∈ L h) (hpos : s.heap.pos b = none) :
    Inv (s.addheap b) F L out ∧ (s.addheap b).heap.pos b ≠ none := by
  obtain ⟨hvalid, hordered, -, hmem, hothers⟩ :=
    @IndexedHeap.insert_spec _ _ _ _ s.key b s.heap hi.valid hi.ordered hpos
  refine ⟨{ hi with
    valid := hvalid
    ordered := hordered
    heap_chained := fun z hz => ?_
    resting := fun h z hz hout href => ?_ }, hmem⟩
  · by_cases hzb : z = b
    · exact ⟨h, hzb ▸ hb⟩
    · exact hi.heap_chained z (mt (hothers z hzb).2 hz)
  · have hin := hi.resting h z hz hout href
    by_cases hzb : z = b
    · rw [hzb]
      exact hmem
    · exact mt (hothers z hzb).1 hin

/-! ### Processes -/

/-- The invariant, where the processes refer to the same lumps as before. -/
theorem Inv.of_client (hi : Inv s F L out) {client : ℕ → Client}
    (hblock : ∀ c, (client c).block = (s.client c).block)
    (hholds : ∀ c, (client c).holds = (s.client c).holds)
    (hinserts : ∀ c, (client c).inserts = (s.client c).inserts) :
    Inv { s with client := client } F L out :=
  { hi with
    refs := hi.refs.congr hblock fun _ => rfl
    locks := fun c b hb => hi.locks c b ((hholds c).symm.trans hb)
    inserting := fun c b hb => hi.inserting c b ((hinserts c).symm.trans hb) }

@[simp] theorem Client.block_wake (x : Client) : x.wake.block = x.block := by cases x <;> rfl

@[simp] theorem Client.holds_wake (x : Client) : x.wake.holds = x.holds := by cases x <;> rfl

@[simp] theorem Client.inserts_wake (x : Client) : x.wake.inserts = x.inserts := by cases x <;> rfl

@[simp] theorem Client.looking_wake (x : Client) : x.wake.looking = x.looking := by cases x <;> rfl

theorem Inv.wakeAll (hi : Inv s F L out) : Inv s.wakeAll F L out :=
  hi.of_client (fun _ => Client.block_wake _) (fun _ => Client.holds_wake _)
    fun _ => Client.inserts_wake _

/-! ### Bumping a lump -/

/-- One term of a sum becomes zero. -/
theorem sum_update_zero {f : ℕ → UInt32} {n : ℕ} (hb : b < n) :
    ∑ x ∈ Finset.range n, (update f b 0 x).toNat + (f b).toNat =
      ∑ x ∈ Finset.range n, (f x).toNat := by
  rw [← Finset.sum_erase_add _ _ (Finset.mem_range.2 hb),
    ← Finset.sum_erase_add (Finset.range n) (fun x => (f x).toNat) (Finset.mem_range.2 hb),
    update_self, UInt32.toNat_zero, Nat.add_zero]
  refine congrArg (· + (f b).toNat) (Finset.sum_congr rfl fun x hx => ?_)
  rw [update_of_ne (Finset.ne_of_mem_erase hx)]

/-- **A lump in hand** goes back to the free list, with its space. -/
theorem Inv.release (hi : Inv s F L (some b)) (hb : b ∈ L h) (hpos : s.heap.pos b = none)
    (href : s.ref b = 0) :
    Inv (s.release b) (b :: F) (update L h ((L h).erase b)) none := by
  have hmem : ∀ {h' z}, z ∈ update L h ((L h).erase b) h' ↔ z ∈ L h' ∧ z ≠ b :=
    hi.table.mem_update_erase hb
  have hhead := (hi.table.chain h).eq_some_iff hb
  have hlt := hi.lt b (.inr ⟨h, hb⟩)
  have hsum := @sum_update_zero b s.size s.nblocks hlt
  have hall := hi.avail
  have hbound := s.allowed.toNat_lt
  rw [LumpCache.release]
  simp only [hi.hash h b hb]
  rw [if_neg fun hf => hf.2 (hhead.1 hf.1)]
  refine { hi with
    table := hi.table.toFree hb (fun _ => rfl) (fun _ => rfl) rfl
    hash := fun h' z hz => hi.hash h' z (hmem.1 hz).1
    lt := ?_
    cover := fun z hz => ?_
    heap_chained := fun z hz => ?_
    unused := fun z hz => ?_
    ref_chained := fun z hz => ?_
    resting := fun h' z hz _ hz0 => ?_
    inserting := fun c z hz => ?_
    empty := fun z hz => ?_
    corrupt := fun z hz => ?_
    avail := ?_
    past := fun h' z hz _ => ?_ }
  · rintro z (hz | ⟨h', hz⟩)
    · rcases mem_cons.1 hz with rfl | hz
      · exact hlt
      · exact hi.lt z (.inl hz)
    · exact hi.lt z (.inr ⟨h', (hmem.1 hz).1⟩)
  · by_cases hzb : z = b
    · exact .inl (mem_cons.2 (.inl hzb))
    · exact (hi.cover z hz).imp (mem_cons_of_mem b) fun hL =>
        hL.imp fun h' hz' => hmem.2 ⟨hz', hzb⟩
  · have hzb : z ≠ b := by
      rintro rfl
      exact hz hpos
    exact (hi.heap_chained z hz).imp fun h' hz' => hmem.2 ⟨hz', hzb⟩
  · by_cases hzb : z = b
    · simp only [hzb, update_self]
    · simp only [update_of_ne hzb]
      exact hi.unused z ((mem_cons.1 hz).resolve_left hzb)
  · have hzb : z ≠ b := by
      rintro rfl
      exact hz href
    exact (hi.ref_chained z hz).imp fun h' hz' => hmem.2 ⟨hz', hzb⟩
  · exact hi.resting h' z (hmem.1 hz).1 (fun heq => (hmem.1 hz).2 (Option.some.inj heq).symm) hz0
  · have hold := hi.inserting c z hz
    simp only
    split
    · by_cases hzb : z = b
      · rw [hzb, update_self]
      · rw [update_of_ne hzb, hold]
    · exact hold
  · simp only at hz ⊢
    by_cases hzb : z = b
    · subst hzb
      split
      · rw [update_self]
      next hd => exact hi.empty z (not_not.1 hd)
    · split at hz
      next hd =>
        rw [update_of_ne hzb] at hz
        rw [if_pos hd, update_of_ne hzb]
        exact hi.empty z hz
      next hd =>
        rw [if_neg hd]
        exact hi.empty z hz
  · simp only at hz ⊢
    by_cases hzb : z = b
    · subst hzb
      split
      · rw [update_self]
      next hd => exact hi.empty z (not_not.1 hd)
    · rw [update_of_ne hzb] at hz
      split
      · rw [update_of_ne hzb]
        exact hi.corrupt z hz
      · exact hi.corrupt z hz
  · simp only
    split
    · rw [UInt32.toNat_add, Nat.mod_eq_of_lt (by omega)]
      omega
    · exact hall
  · exact hi.past h' z (hmem.1 hz).1 fun heq => (hmem.1 hz).2 (Option.some.inj heq).symm

/-- What bumping lumps leaves alone. -/
structure Kept (s t : LumpCache) : Prop where
  nblocks_eq : t.nblocks = s.nblocks
  ref_eq : t.ref = s.ref
  now_eq : t.now = s.now
  type_eq : ∀ z, s.ref z ≠ 0 → t.type z = s.type z
  client_eq : ∀ c, t.client c = s.client c ∨ t.client c = (s.client c).wake

theorem Kept.refl (s : LumpCache) : Kept s s := ⟨rfl, rfl, rfl, fun _ _ => rfl, fun _ => .inl rfl⟩

theorem Client.wake_wake (x : Client) : x.wake.wake = x.wake := by cases x <;> rfl

theorem Kept.trans {u : LumpCache} (h₁ : Kept s t) (h₂ : Kept t u) : Kept s u := by
  refine ⟨h₂.nblocks_eq.trans h₁.nblocks_eq, h₂.ref_eq.trans h₁.ref_eq,
    h₂.now_eq.trans h₁.now_eq, fun z hz => ?_, fun c => ?_⟩
  · rw [h₂.type_eq z (by rwa [h₁.ref_eq]), h₁.type_eq z hz]
  · rcases h₁.client_eq c with hc | hc <;> rcases h₂.client_eq c with hc' | hc' <;> rw [hc', hc]
    · exact .inl rfl
    · exact .inr rfl
    · exact .inr rfl
    · exact .inr (Client.wake_wake _)

theorem kept_release (href : s.ref b = 0) : Kept s (s.release b) := by
  rw [LumpCache.release]
  split
  · exact ⟨rfl, rfl, rfl, fun _ _ => rfl, fun _ => .inl rfl⟩
  · refine ⟨rfl, rfl, rfl, fun z hz => update_of_ne ?_ _ _, fun _ => .inl rfl⟩
    rintro rfl
    exact hz href

/-- The loop of `bumplump`. -/
theorem Inv.bumpLoop (hi : Inv s F L none) (k : ℕ) : Kept s (LumpCache.bumpLoop k s).2 ∧
      ((LumpCache.bumpLoop k s).1 = none → Inv (LumpCache.bumpLoop k s).2 F L none) ∧
      ∀ b, (LumpCache.bumpLoop k s).1 = some b → Inv (LumpCache.bumpLoop k s).2 F L (some b) ∧
        (∃ h, b ∈ L h) ∧ (LumpCache.bumpLoop k s).2.heap.pos b = none ∧ s.ref b = 0 := by
  induction k generalizing s with
  | zero => exact ⟨Kept.refl s, fun _ => hi, fun b hb => by cases hb⟩
  | succ k ih =>
    rw [LumpCache.bumpLoop]
    by_cases hsize : s.heap.size = 0
    · rw [if_pos hsize]
      exact ⟨Kept.refl s, fun _ => hi, fun b hb => by cases hb⟩
    rw [if_neg hsize]
    have hpos := hi.valid.pos_arr 0 (Nat.pos_of_ne_zero hsize)
    generalize s.heap.arr 0 = b at hpos
    have hchain : ∃ h, b ∈ L h := hi.heap_chained b (by rw [hpos]; simp)
    have hkept : Kept s (s.delheap b) := ⟨rfl, rfl, rfl, fun _ _ => rfl, fun _ => .inl rfl⟩
    by_cases href : s.ref b = 0
    · have href' : (s.delheap b).ref b = 0 := href
      simp only [if_pos href']
      obtain ⟨hi', hpos'⟩ := @Inv.delheap s F L (some b) b (hi.weaken (some b)) (fun hne =>
        absurd rfl hne)
      refine ⟨hkept.trans ⟨rfl, rfl, rfl, fun _ _ => rfl, fun _ => .inr rfl⟩,
        (fun hb => by cases hb), fun z hz => ?_⟩
      cases hz
      exact ⟨hi'.wakeAll, hchain, hpos', href⟩
    · have href' : ¬(s.delheap b).ref b = 0 := href
      simp only [if_neg href']
      obtain ⟨hkept', hnone, hsome⟩ := ih (hi.delheap fun _ => href).1
      exact ⟨hkept.trans hkept', hnone, hsome⟩

/-- **Bumping a lump.** -/
theorem Inv.bumplump (hi : Inv s F L none) :
    Kept s s.bumplump.2 ∧ (s.bumplump.1 = none → Inv s.bumplump.2 F L none) ∧
      ∀ b, s.bumplump.1 = some b → ∃ L', Inv s.bumplump.2 (b :: F) L' none := by
  obtain ⟨hkept, hnone, hsome⟩ := hi.bumpLoop s.heap.size
  rw [LumpCache.bumplump]
  generalize LumpCache.bumpLoop s.heap.size s = r at *
  obtain ⟨_ | b, t⟩ := r
  · exact ⟨hkept, hnone, fun b hb => by cases hb⟩
  · obtain ⟨hi', ⟨h, hb⟩, hpos, href⟩ := hsome b rfl
    have href' : t.ref b = 0 := by rw [hkept.ref_eq, href]
    refine ⟨hkept.trans (kept_release href'), (fun hb => by cases hb), fun z hz => ?_⟩
    cases hz
    exact ⟨_, hi'.release hb hpos href'⟩

theorem Inv.of_bumplump (hi : Inv s F L none) : ∃ F' L', Inv s.bumplump.2 F' L' none := by
  obtain ⟨-, hnone, hsome⟩ := hi.bumplump
  cases hb : s.bumplump.1 with
  | none => exact ⟨F, L, hnone hb⟩
  | some b =>
    obtain ⟨L', hi'⟩ := hsome b hb
    exact ⟨b :: F, L', hi'⟩

/-- **Room is made.** -/
theorem Inv.roomLoop (hi : Inv s F L none) (k : ℕ) (size : UInt32) :
    Kept s (LumpCache.roomLoop k s size).2 ∧
      (∃ F' L', Inv (LumpCache.roomLoop k s size).2 F' L' none) ∧
      ((LumpCache.roomLoop k s size).1 = true → size ≤ (LumpCache.roomLoop k s size).2.avail) := by
  induction k generalizing s F L with
  | zero => exact ⟨Kept.refl s, ⟨F, L, hi⟩, fun h => by cases h⟩
  | succ k ih =>
    rw [LumpCache.roomLoop]
    by_cases hroom : s.avail < size
    · rw [if_pos hroom]
      obtain ⟨hkept, -, -⟩ := hi.bumplump
      obtain ⟨F', L', hi'⟩ := hi.of_bumplump
      generalize s.bumplump = r at *
      obtain ⟨_ | b, t⟩ := r
      · exact ⟨hkept, ⟨F', L', hi'⟩, fun h => by cases h⟩
      · obtain ⟨hkept', hinv, havail⟩ := ih hi'
        exact ⟨hkept.trans hkept', hinv, havail⟩
    · rw [if_neg hroom]
      exact ⟨Kept.refl s, ⟨F, L, hi⟩, fun _ => UInt32.not_lt.1 hroom⟩

/-- **The cache is emptied.** -/
theorem Inv.emptyLoop (hi : Inv s F L none) (k : ℕ) :
    Kept s (LumpCache.emptyLoop k s) ∧ ∃ F' L', Inv (LumpCache.emptyLoop k s) F' L' none := by
  induction k generalizing s F L with
  | zero => exact ⟨Kept.refl s, F, L, hi⟩
  | succ k ih =>
    rw [LumpCache.emptyLoop]
    obtain ⟨hkept, -, -⟩ := hi.bumplump
    obtain ⟨F', L', hi'⟩ := hi.of_bumplump
    generalize s.bumplump = r at *
    obtain ⟨_ | b, t⟩ := r
    · exact ⟨hkept, F', L', hi'⟩
    · obtain ⟨hkept', hinv⟩ := ih hi'
      exact ⟨hkept.trans hkept', hinv⟩

/-! ### One process goes on -/

section

variable {x : Client}

/-- It refers to the same lump as before. -/
theorem block_update (hblock : x.block = (s.client c).block) (c' : ℕ) :
    (update s.client c x c').block = (s.client c').block :=
  (forall_update_iff s.client fun c' x => x.block = (s.client c').block).2
    ⟨hblock, fun _ _ => rfl⟩ c'

/-- The locks that it has are its own. -/
theorem Inv.locks_update (hi : Inv s F L out) (hholds : ∀ z, x.holds = some z → s.lock z = some c) :
    ∀ c' z, (update s.client c x c').holds = some z → s.lock z = some c' :=
  (forall_update_iff s.client fun c' x => ∀ z, x.holds = some z → s.lock z = some c').2
    ⟨hholds, fun c' _ => hi.locks c'⟩

/-- The lump that it stores has no data. -/
theorem Inv.inserts_update (hi : Inv s F L out)
    (hinserts : ∀ z, x.inserts = some z → s.data z = none) :
    ∀ c' z, (update s.client c x c').inserts = some z → s.data z = none :=
  (forall_update_iff s.client fun _ x => ∀ z, x.inserts = some z → s.data z = none).2
    ⟨hinserts, fun c' _ => hi.inserting c'⟩

/-- Only the process changes. -/
theorem Inv.update_client (hi : Inv s F L out) (hblock : x.block = (s.client c).block)
    (hholds : x.holds = (s.client c).holds ∨ x.holds = none)
    (hinserts : ∀ b, x.inserts = some b → s.data b = none) :
    Inv { s with client := update s.client c x } F L out :=
  { hi with
    refs := hi.refs.congr (block_update hblock) fun _ => rfl
    locks := hi.locks_update fun z hz => by
      rcases hholds with hsame | hnone
      · exact hi.locks c z (hsame.symm.trans hz)
      · rw [hnone] at hz
        cases hz
    inserting := hi.inserts_update hinserts }

/-- The lock of a lump goes to the process, or back from it. -/
theorem Inv.relock (hi : Inv s F L out) {lock : Option ℕ} (hblock : x.block = (s.client c).block)
    (hholds : ∀ z, x.holds = some z → z = b ∧ lock = some c) (hinserts : x.inserts = none)
    (hfree : ∀ c' ≠ c, (s.client c').holds ≠ some b) :
    Inv { s with lock := update s.lock b lock, client := update s.client c x } F L out :=
  { hi with
    refs := hi.refs.congr (block_update hblock) fun _ => rfl
    locks := by
      refine (forall_update_iff s.client fun c' x =>
        ∀ z, x.holds = some z → update s.lock b lock z = some c').2
          ⟨fun z hz => ?_, fun c' hc' z hz => ?_⟩
      · obtain ⟨rfl, rfl⟩ := hholds z hz
        exact update_self ..
      · have hzb : z ≠ b := fun heq => hfree c' hc' (heq ▸ hz)
        rw [update_of_ne hzb]
        exact hi.locks c' z hz
    inserting := hi.inserts_update fun z hz => by
      rw [hinserts] at hz
      cases hz }

end

/-! ### Looking up a lump -/

/-- **A free lump** is in its chain, and in hand. -/
theorem Inv.alloc (hi : Inv s (b :: F) L none) (hnow : s.now.toNat < 2 ^ 31) (score : Score)
    (type : UInt8) :
    Inv (s.alloc b score type) F
      (update L (lumpHash score) (b :: L (lumpHash score))) (some b) := by
  have hbF : b ∉ F := (nodup_cons.1 hi.table.free_nodup).1
  have hbL : ∀ h, b ∉ L h := hi.table.apart b mem_cons_self
  have hne : ∀ h, ∀ z ∈ L h, z ≠ b := fun h z hz heq => hbL h (heq ▸ hz)
  have hmem : ∀ {h z}, z ∈ update L (lumpHash score) (b :: L (lumpHash score)) h ↔
      (z = b ∧ h = lumpHash score) ∨ z ∈ L h := ChainTable.mem_update_cons
  have hsize : s.size b = 0 := hi.corrupt b (hi.unused b mem_cons_self)
  have hsame : update s.size b 0 = s.size := by
    rw [← hsize]
    exact update_eq_self b s.size
  rw [LumpCache.alloc]
  simp only [hsame]
  refine { hi with
    table := hi.table.toChain (lumpHash score) (fun _ => rfl) fun _ => rfl
    hash := fun h z hz => ?_
    lt := ?_
    cover := fun z hz => ?_
    heap_chained := fun z hz => (hi.heap_chained z hz).imp fun h hz' => hmem.2 (.inr hz')
    unused := fun z hz => ?_
    ref_chained := fun z hz => (hi.ref_chained z hz).imp fun h hz' => hmem.2 (.inr hz')
    resting := fun h z hz hout href => ?_
    inserting := fun c z hz => ?_
    empty := fun z hz => ?_
    corrupt := fun z hz => ?_
    clock := fun z => ?_
    past := fun h z hz hout => ?_ }
  · rcases hmem.1 hz with ⟨rfl, rfl⟩ | hz
    · simp only [update_self]
    · simp only [update_of_ne (hne h z hz)]
      exact hi.hash h z hz
  · rintro z (hz | ⟨h, hz⟩)
    · exact hi.lt z (.inl (mem_cons_of_mem b hz))
    · rcases hmem.1 hz with ⟨rfl, -⟩ | hz
      · exact hi.lt z (.inl mem_cons_self)
      · exact hi.lt z (.inr ⟨h, hz⟩)
  · rcases hi.cover z hz with hF | ⟨h, hL⟩
    · rcases mem_cons.1 hF with rfl | hF
      · exact .inr ⟨_, hmem.2 (.inl ⟨rfl, rfl⟩)⟩
      · exact .inl hF
    · exact .inr ⟨h, hmem.2 (.inr hL)⟩
  · simp only [update_of_ne (ne_of_mem_of_not_mem hz hbF)]
    exact hi.unused z (mem_cons_of_mem b hz)
  · refine hi.resting h z ((hmem.1 hz).resolve_left fun heq => hout ?_) (by simp) href
    rw [heq.1]
  · by_cases hzb : z = b
    · simp only [hzb, update_self]
    · simp only [update_of_ne hzb]
      exact hi.inserting c z hz
  · by_cases hzb : z = b
    · rw [hzb, hsize]
    · simp only [update_of_ne hzb] at hz
      exact hi.empty z hz
  · by_cases hzb : z = b
    · rw [hzb, hsize]
    · simp only [update_of_ne hzb] at hz
      exact hi.corrupt z hz
  · obtain ⟨hused, hused2⟩ := hi.clock z
    refine ⟨?_, hused2⟩
    by_cases hzb : z = b
    · rw [hzb, UInt32.le_iff_toNat_le] at hused2
      simp only [hzb, update_self]
      rw [UInt32.le_iff_toNat_le, UInt32.toNat_div, UInt32.toNat_add, Nat.mod_eq_of_lt (by omega)]
      have htwo : (2 : UInt32).toNat = 2 := rfl
      rw [htwo]
      omega
    · simp only [update_of_ne hzb]
      exact hused
  · have hz' := (hmem.1 hz).resolve_left fun heq => hout (by rw [heq.1])
    simp only [update_of_ne (hne h z hz')]
    exact hi.past h z hz' (by simp)

/-- The heap is put in order again, when the clock has ticked. -/
theorem Inv.refix (hi : Inv s F L (some b)) (c : ℕ) :
    ∃ heap : IndexedHeap ℕ, s.found c b = { s.refer c b with heap := heap } ∧ heap.Valid ∧
      IndexedHeap.Ordered (s.refer c b).key heap ∧
      ∀ z, heap.pos z = none ↔ s.heap.pos z = none := by
  generalize hs' : s.refer c b = s'
  have hheap : s'.heap = s.heap := by rw [← hs']; rfl
  have hkey : ∀ z, z ≠ b → s.heap.pos z ≠ none → s.key z = s'.key z + 1 := by
    intro z hz hpos
    obtain ⟨h, hL⟩ := hi.heap_chained z hpos
    have hyoung : s.used2 z ≠ s.now :=
      UInt32.ne_of_lt (hi.past h z hL fun heq => hz (Option.some.inj heq).symm).2
    have hused : s'.used2 z = s.used2 z := by
      rw [← hs']
      exact update_of_ne hz _ _
    have hnow : s'.now = s.now + 1 := by rw [← hs']; rfl
    rw [LumpCache.key, LumpCache.key, hused, hnow]
    exact IndexedHeap.key_tick hyoung
  have hspec := IndexedHeap.refix_spec hi.valid hi.ordered hkey
  rw [LumpCache.found, hs', LumpCache.refix, hheap]
  cases hpos : s.heap.pos b with rw [hpos] at hspec
  | none => exact ⟨s.heap, by rw [← hheap], hspec _ rfl⟩
  | some i => exact ⟨_, rfl, hspec _ rfl⟩

/-- **A lump in hand is referenced.** -/
theorem Inv.found (hi : Inv s F L (some b)) (hb : b ∈ L h) (hnow : s.now.toNat < 2 ^ 31)
    (hblock : (s.client c).block = none) : Inv (s.found c b) F L none := by
  obtain ⟨heap, hfound, hvalid, hordered, hpos⟩ := hi.refix c
  have htick : s.now.toNat + 1 = (s.now + 1).toNat := by
    rw [UInt32.toNat_add, Nat.mod_eq_of_lt (show s.now.toNat + (1 : UInt32).toNat < 2 ^ 32 by
      have hone : (1 : UInt32).toNat = 1 := rfl
      omega)]
    rfl
  have hlt : ∀ x : UInt32, x ≤ s.now → x < s.now + 1 := fun x hx => by
    rw [UInt32.le_iff_toNat_le] at hx
    rw [UInt32.lt_iff_toNat_lt]
    omega
  have hself : (s.refer c b).client c = .locking b := update_self _ _ _
  have htimes : ∀ z, ((s.refer c b).used z < s.now + 1) ∧ (s.refer c b).used2 z < s.now + 1 := by
    intro z
    obtain ⟨hused, hused2⟩ := hi.clock z
    by_cases hzb : z = b
    · subst hzb
      simp only [LumpCache.refer, update_self]
      exact ⟨hlt _ UInt32.le_rfl, hlt _ hused⟩
    · simp only [LumpCache.refer, update_of_ne hzb]
      exact ⟨hlt _ hused, hlt _ hused2⟩
  rw [hfound]
  refine { hi with
    valid := hvalid
    ordered := hordered
    heap_chained := fun z hz => hi.heap_chained z (mt (hpos z).2 hz)
    ref_chained := fun z hz => ?_
    resting := fun h' z hz _ href => ?_
    refs := hi.refs.insert hblock (congrArg Client.block hself)
      (fun c' hc' => congrArg Client.block (update_of_ne hc' ..)) (update_self _ _ _)
      fun z hz => update_of_ne hz _ _
    locks := hi.locks_update nofun
    inserting := hi.inserts_update nofun
    clock := fun z => ⟨UInt32.le_of_lt (htimes z).1, UInt32.le_of_lt (htimes z).2⟩
    past := fun _ z _ _ => htimes z }
  · by_cases hzb : z = b
    · exact ⟨h, hzb ▸ hb⟩
    · simp only [LumpCache.refer, update_of_ne hzb] at hz
      exact hi.ref_chained z hz
  · by_cases hzb : z = b
    · simp only [LumpCache.refer, hzb, update_self] at href
      exact absurd href (Nat.succ_ne_zero _)
    · simp only [LumpCache.refer, update_of_ne hzb] at href
      exact mt (hpos z).1 (hi.resting h' z hz (fun heq => hzb (Option.some.inj heq).symm) href)

theorem Inv.lookup_some (hi : Inv s F L out) {score : Score} {type : UInt8}
    (h : s.lookup score type = some b) : ∃ h, b ∈ L h := by
  rw [LumpCache.lookup, hi.chain_eq] at h
  exact ⟨_, List.mem_of_find?_eq_some h⟩

/-- The clock and the processes that look for a lump, after so many calls. -/
def Pending (s : LumpCache) (n : ℕ) : Prop :=
  ∃ k, Counted (fun c => (s.client c).looking) (fun _ => k) ∧ s.now.toNat + k ≤ n

theorem Pending.of_kept (hp : Pending s n) (hk : Kept s t) : Pending t n := by
  obtain ⟨k, hcount, hle⟩ := hp
  refine ⟨k, hcount.congr (fun c => ?_) fun _ => rfl, by rwa [hk.now_eq]⟩
  rcases hk.client_eq c with hc | hc
  · rw [hc]
  · rw [hc, Client.looking_wake]

/-- A process does something else, and looks for a lump no more and no less than before. -/
theorem Pending.of_update (hp : Pending s n) {x : Client} (hnow : t.now = s.now)
    (hclient : t.client = update s.client c x) (hx : x.looking = (s.client c).looking) :
    Pending t n := by
  obtain ⟨k, hcount, hle⟩ := hp
  refine ⟨k, hcount.congr (fun c' => ?_) fun _ => rfl, by rwa [hnow]⟩
  rw [hclient]
  by_cases hc : c' = c
  · rw [hc, update_self, hx]
  · rw [update_of_ne hc]

/-- A process that looks for a lump has it. -/
theorem Pending.found {n : ℕ} (hp : Pending s n) (hn : n < 2 ^ 31)
    (hlook : (s.client c).looking = some ()) :
    s.now.toNat < 2 ^ 31 ∧ ∀ t : LumpCache, t.now = s.now + 1 →
      t.client = update s.client c (.locking b) → Pending t n := by
  obtain ⟨k, hcount, hle⟩ := hp
  have hk : 0 < k := hcount.pos hlook
  refine ⟨by omega, fun t hnow hclient => ⟨k - 1, ?_, ?_⟩⟩
  · refine hcount.erase hlook (c := c) ?_ (fun c' hc' => ?_) rfl fun z hz => absurd rfl hz
    · simp only [hclient, update_self]
      rfl
    · simp only [hclient, update_of_ne hc']
  · have hone : (1 : UInt32).toNat = 1 := rfl
    rw [hnow, UInt32.toNat_add, Nat.mod_eq_of_lt (by omega)]
    omega

theorem found_now (s : LumpCache) (c b : ℕ) : (s.found c b).now = s.now + 1 := by
  rw [LumpCache.found, LumpCache.refix]
  split <;> rfl

theorem found_client (s : LumpCache) (c b : ℕ) :
    (s.found c b).client = update s.client c (.locking b) := by
  rw [LumpCache.found, LumpCache.refix]
  split <;> rfl

/-- **The section of `lookuplump`.** -/
theorem Inv.getSection (hi : Inv s F L none) (hp : Pending s n) (hn : n < 2 ^ 31) {score : Score}
    {type : UInt8} (hc : s.client c = .entering score type) :
    (∃ F' L', Inv (s.getSection c score type) F' L' none) ∧
      Pending (s.getSection c score type) n := by
  have hlook : (s.client c).looking = some () := by rw [hc]; rfl
  have hblock : (s.client c).block = none := by rw [hc]; rfl
  obtain ⟨hnow, -⟩ := @Pending.found s 0 c n hp hn hlook
  rw [LumpCache.getSection]
  cases hlookup : s.lookup score type with
  | some z =>
    obtain ⟨h, hz⟩ := hi.lookup_some hlookup
    obtain ⟨-, hfound⟩ := @Pending.found s z c n hp hn hlook
    exact ⟨⟨F, L, (hi.weaken (some z)).found hz hnow hblock⟩,
      hfound _ (found_now s c z) (found_client s c z)⟩
  | none =>
    simp only
    -- the first free lump is taken, there or behind `bumplump`
    have htake : ∀ {t : LumpCache} {z F' L'}, Inv t (z :: F') L' none → Kept s t →
        (∃ F' L', Inv ((t.alloc z score type).found c z) F' L' none) ∧
          Pending ((t.alloc z score type).found c z) n := by
      intro t z F' L' ht hk
      have hct : t.client c = .entering score type := by
        rcases hk.client_eq c with heq | heq
        · rw [heq, hc]
        · rw [heq, hc]
          rfl
      have hnow' : t.now.toNat < 2 ^ 31 := by rwa [hk.now_eq]
      obtain ⟨-, hfound⟩ := @Pending.found t z c n (hp.of_kept hk) hn (by rw [hct]; rfl)
      refine ⟨⟨_, _, (ht.alloc hnow' score type).found
        (ChainTable.mem_update_cons.2 (.inl ⟨rfl, rfl⟩)) hnow' (by
          have hsame : (t.alloc z score type).client = t.client := rfl
          rw [hsame, hct]
          rfl)⟩, ?_⟩
      exact hfound _ (found_now _ c z) (found_client _ c z)
    cases hfree : s.free with
    | some z =>
      simp only
      obtain ⟨F', rfl⟩ : ∃ F', F = z :: F' := by
        have hhead := hi.table.free_linked.head_eq
        rw [hfree] at hhead
        exact ⟨_, List.eq_cons_of_mem_head? hhead.symm⟩
      exact htake hi (Kept.refl s)
    | none =>
      simp only
      obtain ⟨hkept, hnone, hsome⟩ := hi.bumplump
      generalize s.bumplump = r at *
      obtain ⟨_ | z, t⟩ := r
      · have hct : t.client c = .entering score type := by
          rcases hkept.client_eq c with heq | heq
          · rw [heq, hc]
          · rw [heq, hc]
            rfl
        refine ⟨⟨F, L, (hnone rfl).update_client ?_ (.inr rfl) fun b hb => by cases hb⟩,
          (hp.of_kept hkept).of_update rfl rfl ?_⟩
        · rw [hct]
          rfl
        · rw [hct]
          rfl
      · obtain ⟨L', hi'⟩ := hsome z rfl
        exact htake hi' hkept

/-! ### Storing a packet, and letting a lump go -/

/-- One term of a sum that was zero. -/
theorem sum_update_of_zero {f : ℕ → UInt32} (hb : b < n) (hzero : f b = 0) (v : UInt32) :
    ∑ x ∈ Finset.range n, (update f b v x).toNat = ∑ x ∈ Finset.range n, (f x).toNat + v.toNat := by
  have hold := @sum_update_zero b (update f b v) n hb
  have hsame : update (update f b v) b 0 = f := by
    rw [update_idem, ← hzero, update_eq_self]
  rw [hsame, update_self] at hold
  exact hold.symm

/-- **The section of `insertlump`.** -/
theorem Inv.insertSection (hi : Inv s F L none) (hp : Pending s n) {size : UInt32}
    (hc : s.client c = .inserting b size)
    (hok : (LumpCache.roomLoop (s.heap.size + 1) s size).1 = true → s.type b ≠ twid8 ∨ size = 0) :
    (∃ F' L', Inv (s.insertSection c b size) F' L' none) ∧
      Pending (s.insertSection c b size) n := by
  have hblock : (s.client c).block = some b := by rw [hc]; rfl
  have href : s.ref b ≠ 0 := (hi.refs.pos hblock).ne'
  obtain ⟨hkept, ⟨F', L', hi'⟩, hroom⟩ := hi.roomLoop (s.heap.size + 1) size
  rw [LumpCache.insertSection]
  generalize LumpCache.roomLoop (s.heap.size + 1) s size = r at *
  obtain ⟨ok, t⟩ := r
  have hct : t.client c = .inserting b size := by
    rcases hkept.client_eq c with heq | heq
    · rw [heq, hc]
    · rw [heq, hc]
      rfl
  cases ok with
  | false =>
    refine ⟨⟨F', L', hi'.update_client ?_ (.inl ?_) fun z hz => ?_⟩,
      (hp.of_kept hkept).of_update rfl rfl ?_⟩
    · rw [hct]
      rfl
    · rw [hct]
      rfl
    · exact hi'.inserting c z (by rw [hct]; exact hz)
    · rw [hct]
      rfl
  | true =>
    replace hi' : Inv t F' L' none := hi'
    have hdata : t.data b = none := hi'.inserting c b (by rw [hct]; rfl)
    have hzero : t.size b = 0 := hi'.empty b hdata
    have hlock : t.lock b = some c := hi'.locks c b (by rw [hct]; rfl)
    have htype : t.type b ≠ twid8 ∨ size = 0 := by
      rw [show t.type b = s.type b from hkept.type_eq b href]
      exact hok rfl
    obtain ⟨h, hb⟩ := hi'.chained_of_block (c := c) (show (t.client c).block = some b by
      rw [hct]; rfl)
    have hsum := sum_update_of_zero (hi'.lt b (.inr ⟨h, hb⟩)) hzero size
    have hall : t.avail.toNat + ∑ x ∈ Finset.range t.nblocks, (t.size x).toNat =
      t.allowed.toNat := hi'.avail
    have hle : size ≤ t.avail := hroom rfl
    have hclient := hi'.update_client (x := .holding b) (c := c) (by rw [hct]; rfl)
      (.inl (by rw [hct]; rfl)) nofun
    refine ⟨⟨F', L', { hclient with
      inserting := fun c' z hz => ?_
      empty := fun z hz => ?_
      corrupt := fun z hz => ?_
      avail := ?_ }⟩, (hp.of_kept hkept).of_update rfl rfl (by rw [hct]; rfl)⟩
    · -- the lock keeps others out
      have hold := hclient.inserting c' z hz
      by_cases hzb : z = b
      · subst hzb
        by_cases hc' : c' = c
        · simp only [hc', update_self] at hz
          cases hz
        · simp only [update_of_ne hc'] at hz
          have hholds : (t.client c').holds = some z := by
            cases hx : t.client c' <;> rw [hx] at hz <;> first | exact hz | cases hz
          have hlock' := hi'.locks c' z hholds
          rw [hlock] at hlock'
          exact absurd (Option.some.inj hlock').symm hc'
      · simp only [update_of_ne hzb]
        exact hold
    · by_cases hzb : z = b
      · simp only [hzb, update_self] at hz
        cases hz
      · simp only [update_of_ne hzb] at hz ⊢
        exact hi'.empty z hz
    · by_cases hzb : z = b
      · subst hzb
        simp only [update_self]
        exact htype.resolve_left (not_not.2 hz)
      · simp only [update_of_ne hzb]
        exact hi'.corrupt z hz
    · simp only
      rw [hsum, UInt32.toNat_sub_of_le _ _ hle]
      rw [UInt32.le_iff_toNat_le] at hle
      omega

/-- A lump that was in hand may be left. -/
theorem Inv.settle (hi : Inv s F L (some b)) (hrest : s.ref b = 0 → s.heap.pos b ≠ none)
    (hpast : s.used b < s.now ∧ s.used2 b < s.now) : Inv s F L none := by
  refine { hi with
    resting := fun h z hz _ href => ?_
    past := fun h z hz _ => ?_ }
  all_goals by_cases hzb : z = b
  · rw [hzb] at href ⊢
    exact hrest href
  · exact hi.resting h z hz (fun heq => hzb (Option.some.inj heq).symm) href
  · rw [hzb]
    exact hpast
  · exact hi.past h z hz fun heq => hzb (Option.some.inj heq).symm

/-- **The section of `putlump`.** -/
theorem Inv.putSection (hi : Inv s F L none) (hp : Pending s n) (hc : s.client c = .putting b) :
    Inv (s.putSection c b) F L none ∧ Pending (s.putSection c b) n := by
  have hblock : (s.client c).block = some b := by rw [hc]; rfl
  obtain ⟨h, hb⟩ := hi.chained_of_block hblock
  rw [LumpCache.putSection]
  generalize ht : ({ s with
    ref := update s.ref b (s.ref b - 1)
    client := update s.client c .idle } : LumpCache) = t
  have hi' : Inv t F L (some b) := by
    rw [← ht]
    refine { hi.weaken (some b) with
      ref_chained := fun z hz => ?_
      resting := fun h' z hz hout href => ?_
      refs := hi.refs.erase hblock (congrArg Client.block (update_self c .idle s.client))
        (fun c' hc' => congrArg Client.block (update_of_ne hc' ..)) (update_self _ _ _)
        fun z hz => update_of_ne hz _ _
      locks := hi.locks_update nofun
      inserting := hi.inserts_update nofun }
    · by_cases hzb : z = b
      · exact ⟨h, hzb ▸ hb⟩
      · simp only [update_of_ne hzb] at hz
        exact hi.ref_chained z hz
    · have hzb : z ≠ b := fun heq => hout (by rw [heq])
      simp only [update_of_ne hzb] at href
      exact hi.resting h' z hz (by simp) href
  have hp' : Pending t n := by
    refine hp.of_update (by rw [← ht]) (by rw [← ht]) ?_
    rw [hc]
    rfl
  have hpast : t.used b < t.now ∧ t.used2 b < t.now := by
    rw [← ht]
    exact hi.past h b hb (by simp)
  by_cases href : t.ref b = 0
  · have hwake : ∀ u : LumpCache, Inv u F L none → Kept t u →
        Inv u.wakeAll F L none ∧ Pending u.wakeAll n := fun u hu hk =>
      ⟨hu.wakeAll, hp'.of_kept (hk.trans ⟨rfl, rfl, rfl, fun _ _ => rfl, fun _ => .inr rfl⟩)⟩
    simp only [if_pos href]
    by_cases hpos : t.heap.pos b = none
    · obtain ⟨hadd, hin⟩ := hi'.addheap hb hpos
      rw [if_pos hpos]
      exact hwake _ (hadd.settle (fun _ => hin) hpast)
        ⟨rfl, rfl, rfl, fun _ _ => rfl, fun _ => .inl rfl⟩
    · rw [if_neg hpos]
      exact hwake t (hi'.settle (fun _ => hpos) hpast) (Kept.refl t)
  · simp only [if_neg href]
    exact ⟨hi'.settle (fun h0 => absurd h0 href) hpast, hp'⟩

/-! ### Runs -/

/-- No packet is stored in a lump that has the type of an unused one, unless it is empty. -/
def StepOk (s : LumpCache) (a : Act) : Prop :=
  ∀ c b size, a = .store c → s.client c = .inserting b size →
    (LumpCache.roomLoop (s.heap.size + 1) s size).1 = true → s.type b ≠ twid8 ∨ size = 0

/-- A call of `lookuplump`. -/
def Act.isLookup : Act → Bool
  | .lookup .. => true
  | _ => false

/-- The number of calls of `lookuplump`. -/
def lookups (acts : List Act) : ℕ := acts.countP Act.isLookup

/-- **A step keeps the invariant.** -/
theorem Inv.step (hi : Inv s F L none) {a : Act} (hp : Pending s n)
    (hn : n + (if a.isLookup then 1 else 0) < 2 ^ 31) (hok : StepOk s a) (h : s.act a = some t) :
    (∃ F' L', Inv t F' L' none) ∧ Pending t (n + if a.isLookup then 1 else 0) := by
  cases a with rw [LumpCache.act] at h
  | lookup c score type =>
    split at h
    next hc =>
      cases h
      refine ⟨⟨F, L, hi.update_client (by rw [hc]; rfl) (.inr rfl) fun z hz => by cases hz⟩, ?_⟩
      obtain ⟨k, hcount, hle⟩ := hp
      refine ⟨k + 1, hcount.insert (c := c) (b := ()) (by rw [hc]; rfl) ?_ (fun c' hc' => ?_) rfl
        fun z hz => absurd rfl hz, ?_⟩
      · simp only [update_self]
        rfl
      · simp only [update_of_ne hc']
      · exact Nat.add_le_add_right hle 1
    next => cases h
  | enter c =>
    split at h
    next hc =>
      cases h
      exact hi.getSection hp hn hc
    next => cases h
  | lock c =>
    split at h
    next b hc =>
      split at h
      next hlock =>
        cases h
        refine ⟨⟨F, L, hi.relock (by rw [hc]; rfl) (fun z hz => ?_) rfl fun c' _ hold => ?_⟩,
          hp.of_update rfl rfl (by rw [hc]; rfl)⟩
        · cases hz
          exact ⟨rfl, rfl⟩
        · rw [hi.locks c' b hold] at hlock
          cases hlock
      next => cases h
    next => cases h
  | insert c size =>
    split at h
    next b hc =>
      split at h
      next hdata =>
        cases h
        refine ⟨⟨F, L, hi.update_client (by rw [hc]; rfl) (.inl (by rw [hc]; rfl)) fun z hz => ?_⟩,
          hp.of_update rfl rfl (by rw [hc]; rfl)⟩
        cases hz
        exact hdata
      next => cases h
    next => cases h
  | store c =>
    split at h
    next b size hc =>
      cases h
      exact hi.insertSection hp hc (hok c b size rfl hc)
    next => cases h
  | unlock c =>
    split at h
    next b hc =>
      cases h
      have hlock := hi.locks c b (by rw [hc]; rfl)
      refine ⟨⟨F, L, hi.relock (by rw [hc]; rfl) nofun rfl fun c' hc' hold => hc' ?_⟩,
        hp.of_update rfl rfl (by rw [hc]; rfl)⟩
      rw [hi.locks c' b hold] at hlock
      exact Option.some.inj hlock
    next => cases h
  | put c =>
    split at h
    next b hc =>
      cases h
      obtain ⟨hi', hp'⟩ := hi.putSection hp hc
      exact ⟨⟨F, L, hi'⟩, hp'⟩
    next => cases h
  | bump =>
    cases h
    exact ⟨hi.of_bumplump, hp.of_kept hi.bumplump.1⟩
  | empty =>
    cases h
    obtain ⟨hkept, hinv⟩ := hi.emptyLoop s.heap.size
    exact ⟨hinv, hp.of_kept hkept⟩

theorem linked_start (size n k : ℕ) :
    Linked (start size n).next (if k = 0 then none else some (k - 1)) (List.range k).reverse
      none := by
  induction k with
  | zero => rfl
  | succ k ih =>
    rw [range_succ, reverse_append, if_neg (Nat.succ_ne_zero k)]
    exact ⟨rfl, ih⟩

/-- The cache as `initlumpcache` makes it. -/
theorem inv_start (size n : ℕ) : Inv (start size n) (List.range n).reverse (fun _ => []) none where
  table := ⟨linked_start size n n, fun _ => rfl, nodup_reverse.2 nodup_range,
    fun _ => nodup_nil, fun _ _ _ => not_mem_nil, fun _ _ _ h => by cases h⟩
  hash _ _ hb := by cases hb
  lt b hb := by
    rcases hb with hb | ⟨_, hb⟩
    · rw [mem_reverse, mem_range] at hb
      exact hb
    · cases hb
  cover b hb := .inl (mem_reverse.2 (mem_range.2 hb))
  valid := ⟨fun i hi => absurd hi (Nat.not_lt_zero i), fun _ _ h => by cases h⟩
  ordered i _ hi := absurd hi (Nat.not_lt_zero i)
  heap_chained b hb := absurd rfl hb
  unused _ _ := rfl
  ref_chained b hb := absurd rfl hb
  resting _ _ hb := by cases hb
  refs _ := ⟨∅, fun c => by simp [start, Client.block], rfl⟩
  locks _ _ hc := by cases hc
  inserting _ _ hc := by cases hc
  empty _ _ := rfl
  corrupt _ _ := rfl
  avail := by simp [start]
  clock _ := ⟨UInt32.le_rfl, UInt32.le_rfl⟩
  past _ _ hb := by cases hb
  sound := rfl

/-- **The check of the cache never fails** in a run of fewer than 2³¹ lookups in which no packet is
stored in a lump of the type `TWID8`. -/
theorem lumpcache_sound (size n : ℕ) {acts : List Act} {s : LumpCache}
    (h : Run (Guarded StepOk LumpCache.Step) (start size n) acts s)
    (hlookups : lookups acts < 2 ^ 31) : s.checklumpcache = true ∧ s.fatal = false := by
  have hrun : ∀ {s acts t}, Run (Guarded StepOk LumpCache.Step) s acts t → ∀ {m},
      (∃ F L, Inv s F L none) → Pending s m → m + lookups acts < 2 ^ 31 →
      ∃ F L, Inv t F L none := by
    intro s acts t hst
    induction hst with
    | nil => exact fun hi _ _ => hi
    | @cons s t u a l hstep _ ih =>
      intro m ⟨F, L, hi⟩ hp hm
      rw [lookups, List.countP_cons, Nat.add_comm (List.countP _ _), ← Nat.add_assoc] at hm
      obtain ⟨hinv, hp'⟩ := hi.step hp (by omega) hstep.1 hstep.2.2
      exact ih hinv hp' hm
  obtain ⟨F, L, hi⟩ := hrun h ⟨_, _, inv_start size n⟩ (m := 0)
    ⟨0, fun _ => ⟨∅, fun c => by simp [start, Client.looking], rfl⟩, le_rfl⟩ (by omega)
  exact ⟨hi.check, hi.sound⟩

/-- The steps of a run, one after the other. -/
def runAll (s : LumpCache) (acts : List Act) : Option LumpCache :=
  acts.foldlM (fun s a => if s.fatal = false then s.act a else none) s

theorem run_of_runAll {acts : List Act} (h : runAll s acts = some t) :
    Run LumpCache.Step s acts t := by
  refine .of_foldlM (fun s a _ t hstep => ?_) h
  split at hstep
  · rename_i hfatal
    exact ⟨hfatal, hstep⟩
  · cases hstep

/-- A client stores a packet of eight bytes under a type. -/
def storeOne (type : UInt8) : List Act :=
  [.lookup 0 (Vector.replicate 20 0) type, .enter 0, .lock 0, .insert 0 8, .store 0]

/-- A packet of an ordinary type is stored. -/
theorem lumpcache_sound_one : lookups (storeOne 13) < 2 ^ 31 ∧
    ∃ s, Run (Guarded StepOk LumpCache.Step) (start 100 2) (storeOne 13) s ∧
      s.checklumpcache = true ∧ s.fatal = false := by
  have hrun : (runAll (start 100 2) ((storeOne 13).take 4)).map
      (fun s => (s.type 1, (s.client 0).inserts, s.fatal, (s.act (.store 0)).isSome)) =
        some (13, some 1, false, true) := by decide
  obtain ⟨s, hs, hends⟩ := Option.map_eq_some_iff.1 hrun
  obtain ⟨htype, hrest⟩ := Prod.mk.inj hends
  obtain ⟨hinserts, hrest⟩ := Prod.mk.inj hrest
  obtain ⟨hfatal, hsome⟩ := Prod.mk.inj hrest
  obtain ⟨t, ht⟩ := Option.isSome_iff_exists.1 hsome
  have hfront : Run (Guarded StepOk LumpCache.Step) (start 100 2) ((storeOne 13).take 4) s := by
    refine .of_foldlM (fun s a ha t hstep => ?_) hs
    split at hstep
    next hf =>
      refine ⟨fun c b size heq _ _ => ?_, hf, hstep⟩
      rw [heq] at ha
      simp [storeOne] at ha
    next => cases hstep
  have hlast : Run (Guarded StepOk LumpCache.Step) s [.store 0] t := by
    refine .single ⟨fun c b size heq hc _ => .inl ?_, hfatal, ht⟩
    obtain rfl : 0 = c := Act.store.inj heq
    rw [hc] at hinserts
    obtain rfl : b = 1 := Option.some.inj hinserts
    rw [htype]
    decide
  have hall := hfront.append hlast
  have hlookups : lookups (storeOne 13) < 2 ^ 31 := by decide
  exact ⟨hlookups, t, hall, lumpcache_sound 100 2 hall hlookups⟩

/-- **A packet of the type `TWID8`**, as a client may send it, is not counted. -/
theorem corrupt_lump_counted : ∃ s, Run LumpCache.Step (start 100 2) (storeOne twid8) s ∧
    lookups (storeOne twid8) < 2 ^ 31 ∧ s.checklumpcache = false := by
  have hrun : (runAll (start 100 2) (storeOne twid8)).map
      (fun s => s.checklumpcache) = some false := by decide
  obtain ⟨s, hs, hcheck⟩ := Option.map_eq_some_iff.1 hrun
  exact ⟨s, run_of_runAll hs, by decide, hcheck⟩

end Lumps

end Venti

end Plan9
