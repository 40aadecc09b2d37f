import Plan9.Fossil.Cache
import Plan9.Lib.ChainTable

/-!
# Who owns a block of the fossil cache

The invariant of the block cache, for every order of its steps. A step works on one block
for one process, which has the lock of the block or takes it; what it may do to the rest
of the cache is small. So there is one rule for all steps,
`Plan9.Fossil.BlockState.Inv.rework`: if the block and the process fit together
afterwards, and the chains, the heap and the disk queue are right for that block, then the
invariant holds again.

* `Plan9.Fossil.BlockState.Inv.act` – a step keeps the invariant;
* `Plan9.Fossil.BlockState.cache_sound` – what that says about runs;
* `Plan9.Fossil.BlockState.write_error_lost` – a run that breaks it.
-/

namespace Plan9

namespace Fossil

open Lib List Function Option
open Venti (Score)

namespace BlockState

/-! ### What goes together -/

/-- Two blocks that the search of a chain cannot tell apart. -/
def Same (x y : Block) : Prop :=
  x.part = y.part ∧
    if x.part = .venti then x.score = y.score ∧ x.l.type = y.l.type else x.addr = y.addr

/-- The chain a block belongs into. -/
def Cache.hashOf (s : Cache) (blk : Block) : ℕ :=
  if blk.part = .venti then s.hash (.cacheGlobal blk.score blk.l.type)
  else s.hash (.cacheLocal blk.part blk.addr .readOnly 0)

/-- What a process that has found a block was looking for. -/
def Frame.wants : Frame → Option (ℕ × Query)
  | .locking b q | .checking b q | .looking b q | .queueing b (some (.look q))
  | .sleeping b (.look q) => some (b, q)
  | _ => none

/-- The process has a reference to the block. -/
def Frame.own (x : Frame) (b : ℕ) : ℕ := if x.block = some b then 1 else 0

/-- What a sleeping process will go on with makes sense. -/
def Await.Ok : Await → Prop
  | .look q => q.ok = true
  | .clean nlock => 1 ≤ nlock
  | .settled => True

/-- A process may be there. -/
def Frame.Ok : Proc → Frame → Prop
  | _, .idle => True
  | .client _, .entering q => q.ok = true
  | .client _, .stalled q => q.ok = true ∧ ∀ part addr vers w, q ≠ .localLookup part addr vers w
  | .client _, .checking _ q => ∃ part addr mode epoch, q = .cacheLocal part addr mode epoch
  | .client _, .queueing _ (some k) => k.Ok
  | .client _, .sleeping _ k => k.Ok
  | .client _, .locking .. | .client _, .looking .. | .client _, .queueing _ none
  | .client _, .holding .. | .client _, .pruning .. | .client _, .wrote _
  | .client _, .putting _ => True
  | .client _, .popped _ | .client _, .serving _ | .client _, .finishing
  | .client _, .labelPutting _ => False
  | .disk, .popped _ | .disk, .serving _ | .disk, .putting _ | .disk, .finishing => True
  | .disk, _ => False

/-- What a process knows about the block whose lock it has. -/
def Frame.Fits : Frame → Block → Prop
  | .checking .., blk | .looking .., blk => blk.nlock = 1
  | .queueing _ none, blk => blk.nlock = 1 ∧ blk.iostate = .writing
  | .queueing _ (some _), blk => blk.nlock = 1 ∧ blk.iostate.busy = true
  | .holding _ flush, blk =>
    1 ≤ blk.nlock ∧ blk.iostate.busy = false ∧ blk.iostate ≠ .readError ∧
      blk.iostate ≠ .ventiError ∧ (flush = false → blk.iostate ≠ .empty)
  | .pruning .., blk => blk.nlock = 1 ∧ blk.iostate = .dirty
  | .wrote _, blk => blk.nlock = 1 ∧ blk.iostate = .writing
  | .serving _, blk => blk.nlock = 1 ∧ blk.iostate.busy = true
  | _, _ => True

/-- What is true of every block. -/
structure BlockOk (blk : Block) : Prop where
  venti : blk.part = .venti →
    blk.iostate = .empty ∨ blk.iostate = .clean ∨ blk.iostate = .ventiError
  disk : blk.part ≠ .venti → blk.iostate ≠ .ventiError
  uhead : blk.uhead ≠ [] → blk.iostate.unwritten = true
  unlocked : blk.lk = none → blk.nlock ≤ 1
  busy : blk.iostate.busy = true → blk.nlock = 1

/-- The blocks on the disk queue, and the one that `diskThread` has. -/
def pending (cur next : List ℕ) (x : Frame) : List ℕ := cur ++ next ++ x.request.toList

/-- `diskThread` counts in `disk->nqueue`. -/
def Frame.active : Frame → ℕ
  | .idle => 0
  | _ => 1

/-- **The invariant.** -/
structure Inv (s : Cache) : Prop where
  sound : s.fatal = false
  valid : s.heap.Valid
  ordered : IndexedHeap.Ordered s.key s.heap
  heap_iff : ∀ b, s.heap.pos b ≠ none ↔
    b < s.nblocks ∧ (s.blocks b).ref = 0 ∧ (s.blocks b).iostate ≠ .dirty
  /-- A block that is in no chain was never used. -/
  fresh : ∀ b, (s.blocks b).chain = none → (s.blocks b).ref = 0 ∧ (s.blocks b).iostate = .empty
  lt : ∀ b, (s.blocks b).chain ≠ none → b < s.nblocks
  part : ∀ b, (s.blocks b).chain ≠ none → (s.blocks b).part ≠ .error
  chained : ∀ b h, b ∈ s.heads h ↔ (s.blocks b).chain = some h
  nodup : ∀ h, (s.heads h).Nodup
  hash : ∀ b h, (s.blocks b).chain = some h → s.hashOf (s.blocks b) = h
  unique : ∀ b b', (s.blocks b).chain ≠ none → (s.blocks b').chain ≠ none →
    Same (s.blocks b) (s.blocks b') → b = b'
  ndirty_eq : s.ndirty = (List.range s.nblocks).countP fun b => (s.blocks b).iostate.unwritten
  /-- The references are those of the processes and of the disk queue. -/
  refs : ∀ b, ∃ S : Finset Proc, (∀ p, p ∈ S ↔ (s.proc p).block = some b) ∧
    S.card + (s.blocks b).iostate.busy.toNat = (s.blocks b).ref
  owner : ∀ p b, (s.proc p).locks = some b ↔ (s.blocks b).lk = some p
  fits : ∀ p b, (s.proc p).locks = some b → (s.proc p).Fits (s.blocks b)
  placed : ∀ p, (s.proc p).Ok p
  wants : ∀ p b q, (s.proc p).wants = some (b, q) →
    q.ok = true ∧ q.finds (s.blocks b) = true
  slept : ∀ p b k, s.proc p = .sleeping b k → (s.blocks b).nlock ≠ 0
  block : ∀ b, BlockOk (s.blocks b)
  /-- A block with dependencies will be written, or a process is about to make it dirty. -/
  prior : ∀ b, (s.blocks b).prior ≠ [] →
    (s.blocks b).iostate.unwritten = true ∨ ∃ p, s.proc p = .holding b false
  queue_nodup : (pending s.cur s.next (s.proc .disk)).Nodup
  /-- A block that is busy is on the disk queue, or its process waits for room there. -/
  queue : ∀ b, (s.blocks b).iostate.busy = true ↔
    b ∈ pending s.cur s.next (s.proc .disk) ∨ ∃ p k, s.proc p = .queueing b k
  waiting : ∀ p b k, s.proc p = .queueing b k → b ∉ pending s.cur s.next (s.proc .disk)
  nqueue_eq : s.nqueue = s.cur.length + s.next.length + (s.proc .disk).active

variable {s : Cache} {b : ℕ} {p : Proc}

@[simp]
theorem Cache.set_blocks (blk : Block) : (s.set b blk).blocks b = blk := update_self ..

@[simp]
theorem Cache.set_set (x y : Block) : (s.set b x).set b y = s.set b y := by
  simp [Cache.set]

@[simp]
theorem Cache.set_self : s.set b (s.blocks b) = s := by
  rw [Cache.set, update_eq_self]

/-! ### Searches -/

variable {q : Query} {y : Block}

/-- What a search finds is told apart by the search alone. -/
theorem finds_iff_same {x : Block} (hq : q.ok = true) (hx : q.finds x = true) :
    q.finds y = true ↔ Same x y := by
  cases q with
  | localLookup part addr vers w =>
    simp only [Query.ok, Query.finds, Bool.and_eq_true, decide_eq_true_eq] at hq hx ⊢
    obtain ⟨rfl, rfl⟩ := hx
    rw [Same, if_neg hq.2]
    exact and_congr eq_comm eq_comm
  | cacheLocal part addr mode epoch =>
    simp only [Query.ok, Query.finds, Bool.and_eq_true, decide_eq_true_eq] at hq hx ⊢
    obtain ⟨rfl, rfl⟩ := hx
    rw [Same, if_neg hq.2]
    exact and_congr eq_comm eq_comm
  | cacheGlobal score type =>
    simp only [Query.finds, Bool.and_eq_true, decide_eq_true_eq] at hx ⊢
    obtain ⟨⟨hpart, rfl⟩, rfl⟩ := hx
    rw [Same, if_pos hpart, hpart, and_assoc]
    exact and_congr eq_comm (and_congr eq_comm eq_comm)

/-- A block that a search finds is in the chain that is searched. -/
theorem hashOf_of_finds {x : Block} (hq : q.ok = true) (hx : q.finds x = true) :
    s.hashOf x = s.hash q := by
  cases q with
  | localLookup part addr vers w =>
    simp only [Query.ok, Query.finds, Bool.and_eq_true, decide_eq_true_eq] at hq hx
    obtain ⟨rfl, rfl⟩ := hx
    rw [Cache.hashOf, if_neg hq.2]
    rfl
  | cacheLocal part addr mode epoch =>
    simp only [Query.ok, Query.finds, Bool.and_eq_true, decide_eq_true_eq] at hq hx
    obtain ⟨rfl, rfl⟩ := hx
    rw [Cache.hashOf, if_neg hq.2]
    rfl
  | cacheGlobal score type =>
    simp only [Query.finds, Bool.and_eq_true, decide_eq_true_eq] at hx
    obtain ⟨⟨hpart, rfl⟩, rfl⟩ := hx
    rw [Cache.hashOf, if_pos hpart]

/-- What a search finds is in a chain. -/
theorem Inv.find_spec (hi : Inv s) (hb : s.find q = some b) :
    q.finds (s.blocks b) = true ∧ (s.blocks b).chain ≠ none := by
  have hfinds := List.find?_some hb
  have hmem := (hi.chained b _).1 (List.mem_of_find?_eq_some hb)
  exact ⟨hfinds, by rw [hmem]; simp⟩

/-- A search that finds nothing says that no block in any chain is the one. -/
theorem Inv.find_none (hi : Inv s) (hq : q.ok = true) (hb : s.find q = none)
    (hc : (s.blocks b).chain ≠ none) : q.finds (s.blocks b) = false := by
  by_contra hf
  rw [Bool.not_eq_false] at hf
  obtain ⟨h, hh⟩ := ne_none_iff_exists'.1 hc
  have hhash := (hi.hash b h hh).symm.trans (hashOf_of_finds hq hf)
  rw [hhash] at hh
  exact List.find?_eq_none.1 hb b ((hi.chained b _).2 hh) hf

/-- Neither reference nor lock belongs to a block that nobody uses. -/
theorem Inv.unused (hi : Inv s) (href : (s.blocks b).ref = 0) :
    (∀ p, (s.proc p).block ≠ some b) ∧ (s.blocks b).iostate.busy = false := by
  obtain ⟨S, hS, hcard⟩ := hi.refs b
  rw [href] at hcard
  obtain ⟨hzero, hbusy⟩ := Nat.add_eq_zero_iff.1 hcard
  refine ⟨fun p hp => ?_, ?_⟩
  · rw [Finset.card_eq_zero.1 hzero] at hS
    exact absurd ((hS p).2 hp) (Finset.notMem_empty p)
  · cases hb : (s.blocks b).iostate.busy with
    | false => rfl
    | true => rw [hb] at hbusy; cases hbusy

variable {x : Frame}

/-- A process that has a lock has a reference, or is `diskThread`. -/
theorem block_of_locks (h : x.locks = some b) : x.block = some b ∨ x = .serving b := by
  cases x
  case serving => exact .inr (by rw [some.inj h])
  all_goals first | exact .inl h | cases h

/-- The lock of a block that nobody uses is free. -/
theorem Inv.unused_lk (hi : Inv s) (href : (s.blocks b).ref = 0) : (s.blocks b).lk = none := by
  obtain ⟨hblock, hbusy⟩ := hi.unused href
  by_contra hlk
  obtain ⟨p, hp⟩ := ne_none_iff_exists'.1 hlk
  have hlocks := (hi.owner p b).2 hp
  rcases block_of_locks hlocks with hown | hserve
  · exact hblock p hown
  · have hfits := hi.fits p b hlocks
    rw [hserve] at hfits
    rw [hfits.2] at hbusy
    cases hbusy

/-- A process that refers to a block counts. -/
theorem Inv.ref_pos (hi : Inv s) (hp : (s.proc p).block = some b) : (s.blocks b).ref ≠ 0 :=
  fun href => (hi.unused href).1 p hp

/-- A busy block is referred to. -/
theorem Inv.ref_pos_of_busy (hi : Inv s) (hb : (s.blocks b).iostate.busy = true) :
    (s.blocks b).ref ≠ 0 := by
  intro href
  rw [(hi.unused href).2] at hb
  cases hb

theorem Inv.chain_of_ref (hi : Inv s) (href : (s.blocks b).ref ≠ 0) :
    (s.blocks b).chain ≠ none := fun hc => href (hi.fresh b hc).1

/-- The processes that refer to a block, when one process goes on. -/
theorem holders_update {f : Proc → Frame} {S : Finset Proc}
    (hS : ∀ q, q ∈ S ↔ (f q).block = some b) (p : Proc) (x : Frame) :
    ∃ S' : Finset Proc, (∀ q, q ∈ S' ↔ (update f p x q).block = some b) ∧
      S'.card + (f p).own b = S.card + x.own b := by
  have hcard := Lib.card_update (g := fun q => (update f p x q).block) (c := p) hS fun q hq => by
    rw [update_of_ne hq]
  rwa [update_self] at hcard

/-- A process at a block that `p` neither leaves nor comes to is where it was. -/
theorem at_block_iff {f : Proc → Frame} {p q : Proc} {x y : Frame} {z : ℕ}
    (hp : (f p).block ≠ some z) (hx : x.block ≠ some z) (hy : y.block = some z) :
    update f p x q = y ↔ f q = y := by
  by_cases hqp : q = p
  · subst hqp
    rw [update_self]
    exact iff_of_false (fun h => hx (h ▸ hy)) fun h => hp (h ▸ hy)
  · rw [update_of_ne hqp]

/-! ### The rule for all steps -/

/-- The block `b` becomes `blk` and the process `p`, which works on it, goes on to `x`. -/
structure Works (s : Cache) (p : Proc) (x : Frame) (b : ℕ) (blk : Block) : Prop where
  lk_self : blk.lk = some p ↔ x.locks = some b
  lk_other : ∀ q ≠ p, blk.lk = some q ↔ (s.blocks b).lk = some q
  fits_other : ∀ q ≠ p, (s.blocks b).lk = some q →
    ∀ y : Frame, y.Fits (s.blocks b) → y.Fits blk
  block_before : ∀ z, (s.proc p).block = some z → z = b
  locks_before : ∀ z, (s.proc p).locks = some z → z = b
  block_after : ∀ z, x.block = some z → z = b
  locks_after : ∀ z, x.locks = some z → z = b
  placed : x.Ok p
  wants : ∀ z q, x.wants = some (z, q) → z = b ∧ q.ok = true ∧ q.finds blk = true
  fits : x.locks = some b → x.Fits blk
  slept : ∀ z k, x = .sleeping z k → z = b ∧ blk.nlock ≠ 0
  block : BlockOk blk
  prior : blk.prior ≠ [] →
    blk.iostate.unwritten = true ∨ ∃ q, Function.update s.proc p x q = .holding b false
  refs : blk.ref + (s.proc p).own b + (s.blocks b).iostate.busy.toNat =
    (s.blocks b).ref + x.own b + blk.iostate.busy.toNat
  /-- What the other processes know of the block stays. -/
  others : ∀ q ≠ p, (s.proc q).block = some b →
    (s.blocks b).nlock ≠ 0 → blk.nlock ≠ 0
  others_want : ∀ q ≠ p, ∀ k, (s.proc q).wants = some (b, k) → k.finds blk = true

/-- The chains are right for the new block. -/
structure Chains (s : Cache) (b : ℕ) (blk : Block) (heads : ℕ → List ℕ) : Prop where
  chain : blk.chain ≠ none
  lt : b < s.nblocks
  part : blk.part ≠ .error
  self : ∀ h, b ∈ heads h ↔ blk.chain = some h
  other : ∀ z ≠ b, ∀ h, z ∈ heads h ↔ z ∈ s.heads h
  nodup : ∀ h, (heads h).Nodup
  hash : ∀ h, blk.chain = some h → s.hashOf blk = h
  apart : ∀ z ≠ b, (s.blocks z).chain ≠ none → ¬Same blk (s.blocks z)

/-- The heap is right for the new block. -/
structure Heaped (s : Cache) (b : ℕ) (blk : Block) (heap : IndexedHeap ℕ) (now : UInt32) :
    Prop where
  valid : heap.Valid
  ordered : IndexedHeap.Ordered
    (fun z => ((Function.update s.blocks b blk z).used - now).toNat) heap
  self : heap.pos b ≠ none ↔ blk.ref = 0 ∧ blk.iostate ≠ .dirty
  other : ∀ z ≠ b, heap.pos z = none ↔ s.heap.pos z = none

/-- The disk queue is right for the new block, when the processes are at `f`. -/
structure Queued (s : Cache) (f : Proc → Frame) (b : ℕ) (blk : Block) (cur next : List ℕ)
    (nqueue : ℕ) : Prop where
  nodup : (pending cur next (f .disk)).Nodup
  other : ∀ z ≠ b, z ∈ pending cur next (f .disk) ↔ z ∈ pending s.cur s.next (s.proc .disk)
  self : blk.iostate.busy = true ↔
    b ∈ pending cur next (f .disk) ∨ ∃ q k, f q = .queueing b k
  waiting : ∀ q k, f q = .queueing b k → b ∉ pending cur next (f .disk)
  nqueue_eq : nqueue = cur.length + next.length + (f .disk).active

theorem Same.symm {x : Block} (h : Same x y) : Same y x := by
  obtain ⟨hpart, hrest⟩ := h
  refine ⟨hpart.symm, ?_⟩
  rw [hpart] at hrest
  split at hrest
  · rename_i hv
    rw [if_pos hv]
    exact ⟨hrest.1.symm, hrest.2.symm⟩
  · rename_i hv
    rw [if_neg hv]
    exact hrest.symm

variable {blk : Block} {vers : UInt32} {ndirty : ℕ} {uhead : List BList} {cur next : List ℕ}

section Works

variable {q : Proc} {z : ℕ}

theorem Works.elsewhere (hw : Works s p x b blk) (hz : z ≠ b) {y : Frame} (hy : y.block = some z) :
    update s.proc p x q = y ↔ s.proc q = y :=
  at_block_iff (mt (hw.block_before z) hz) (mt (hw.block_after z) hz) hy

theorem Works.owner (hw : Works s p x b blk) (hi : Inv s) :
    (update s.proc p x q).locks = some z ↔ (update s.blocks b blk z).lk = some q := by
  by_cases hz : z = b
  · subst hz
    rw [update_self]
    by_cases hqp : q = p
    · rw [hqp, update_self]
      exact hw.lk_self.symm
    · rw [update_of_ne hqp]
      exact (hi.owner q z).trans (hw.lk_other q hqp).symm
  · rw [update_of_ne hz]
    by_cases hqp : q = p
    · rw [hqp, update_self]
      refine iff_of_false (fun h => hz (hw.locks_after z h)) fun h => ?_
      exact hz (hw.locks_before z ((hi.owner p z).2 h))
    · rw [update_of_ne hqp]
      exact hi.owner q z

theorem Works.frame_fits (hw : Works s p x b blk) (hi : Inv s)
    (hlocks : (update s.proc p x q).locks = some z) :
    (update s.proc p x q).Fits (update s.blocks b blk z) := by
  by_cases hqp : q = p
  · rw [hqp, update_self] at hlocks ⊢
    obtain rfl := hw.locks_after z hlocks
    rw [update_self]
    exact hw.fits hlocks
  · rw [update_of_ne hqp] at hlocks ⊢
    exact update_cases z
      (fun hz => by
        subst hz
        exact hw.fits_other q hqp ((hi.owner q z).1 hlocks) _ (hi.fits q z hlocks))
      fun _ => hi.fits q z hlocks

theorem Works.frame_wants (hw : Works s p x b blk) (hi : Inv s) {k : Query}
    (hwant : (update s.proc p x q).wants = some (z, k)) :
    k.ok = true ∧ k.finds (update s.blocks b blk z) = true := by
  by_cases hqp : q = p
  · rw [hqp, update_self] at hwant
    obtain ⟨rfl, hok, hfinds⟩ := hw.wants z k hwant
    rw [update_self]
    exact ⟨hok, hfinds⟩
  · rw [update_of_ne hqp] at hwant
    refine ⟨(hi.wants q z k hwant).1, update_cases z (fun hz => ?_) fun _ => ?_⟩
    · subst hz
      exact hw.others_want q hqp k hwant
    · exact (hi.wants q z k hwant).2

theorem Chains.eq_of_same {heads : ℕ → List ℕ} (hc : Chains s b blk heads) (hi : Inv s) {z' : ℕ}
    (h : (update s.blocks b blk z).chain ≠ none) (h' : (update s.blocks b blk z').chain ≠ none)
    (hsame : Same (update s.blocks b blk z) (update s.blocks b blk z')) : z = z' := by
  by_cases hz : z = b
  · by_cases hz' : z' = b
    · exact hz.trans hz'.symm
    · subst hz
      rw [update_self, update_of_ne hz'] at hsame
      rw [update_of_ne hz'] at h'
      exact absurd hsame (hc.apart z' hz' h')
  · rw [update_of_ne hz] at h hsame
    by_cases hz' : z' = b
    · subst hz'
      rw [update_self] at hsame
      exact absurd hsame.symm (hc.apart z hz h)
    · rw [update_of_ne hz'] at h' hsame
      exact hi.unique z z' h h' hsame

end Works

/-- **The rule for all steps.** -/
theorem Inv.rework (hi : Inv s) {heads : ℕ → List ℕ} {heap : IndexedHeap ℕ} {now : UInt32}
    {nqueue : ℕ} (hw : Works s p x b blk) (hc : Chains s b blk heads) (hh : Heaped s b blk heap now)
    (hq : Queued s (update s.proc p x) b blk cur next nqueue)
    (hn : ndirty + (s.blocks b).iostate.unwritten.toNat = s.ndirty + blk.iostate.unwritten.toNat) :
    Inv { s with
      blocks := update s.blocks b blk
      proc := update s.proc p x
      heads := heads, heap := heap, now := now, vers := vers, ndirty := ndirty
      nqueue := nqueue, uhead := uhead, cur := cur, next := next } := by
  have hself : update s.blocks b blk b = blk := update_self ..
  have hother : ∀ z ≠ b, update s.blocks b blk z = s.blocks z := fun z hz => update_of_ne hz ..
  have hp : update s.proc p x p = x := update_self ..
  have hq' : ∀ q ≠ p, update s.proc p x q = s.proc q := fun q hqp => update_of_ne hqp ..
  constructor
  case sound => exact hi.sound
  case valid => exact hh.valid
  case ordered => exact hh.ordered
  case heap_iff =>
    intro z
    dsimp only
    refine update_cases z (fun hz => ?_) fun hz =>
      (not_congr (hh.other z hz)).trans (hi.heap_iff z)
    exact hz ▸ hh.self.trans ⟨fun h => ⟨hc.lt, h⟩, fun h => h.2⟩
  case fresh =>
    intro z
    dsimp only
    exact update_cases z (fun _ h => absurd h hc.chain) fun _ => hi.fresh z
  case lt =>
    intro z
    dsimp only
    exact update_cases z (fun hz _ => hz ▸ hc.lt) fun _ => hi.lt z
  case part =>
    intro z
    dsimp only
    exact update_cases z (fun _ _ => hc.part) fun _ => hi.part z
  case chained =>
    intro z h
    dsimp only
    exact update_cases z (fun hz => hz ▸ hc.self h) fun hz =>
      (hc.other z hz h).trans (hi.chained z h)
  case nodup => exact hc.nodup
  case hash =>
    intro z h
    dsimp only
    exact update_cases z (fun _ => hc.hash h) fun _ => hi.hash z h
  case unique => exact fun z z' => hc.eq_of_same hi
  case ndirty_eq =>
    have hcount := countP_update hc.lt s.blocks blk fun y => y.iostate.unwritten
    have hold := hi.ndirty_eq
    change ndirty = (List.range s.nblocks).countP
      fun z => (update s.blocks b blk z).iostate.unwritten
    omega
  case refs =>
    intro z
    obtain ⟨S, hS, hcard⟩ := hi.refs z
    obtain ⟨S', hS', hcard'⟩ := holders_update hS p x
    refine ⟨S', hS', ?_⟩
    by_cases hz : z = b
    · subst hz
      simp only [hself]
      have := hw.refs
      omega
    · simp only [hother z hz]
      have hbefore : (s.proc p).own z = 0 := if_neg fun h => hz (hw.block_before z h)
      have hafter : x.own z = 0 := if_neg fun h => hz (hw.block_after z h)
      omega
  case owner => exact fun q z => hw.owner hi
  case fits => exact fun q z => hw.frame_fits hi
  case placed =>
    intro q
    dsimp only
    exact update_cases q (fun hqp => hqp ▸ hw.placed) fun _ => hi.placed q
  case wants => exact fun q z k => hw.frame_wants hi
  case slept =>
    intro q z k hsleep
    dsimp only at hsleep ⊢
    by_cases hqp : q = p
    · rw [hqp, hp] at hsleep
      obtain ⟨rfl, hne⟩ := hw.slept z k hsleep
      simp only [hself]
      exact hne
    · rw [hq' q hqp] at hsleep
      have hne := hi.slept q z k hsleep
      exact update_cases z (fun hz => by
        subst hz
        exact hw.others q hqp (by rw [hsleep]; rfl) hne) fun _ => hne
  case block =>
    intro z
    dsimp only
    exact update_cases z (fun _ => hw.block) fun _ => hi.block z
  case prior =>
    intro z
    by_cases hz : z = b
    · subst hz
      simp only [hself]
      exact hw.prior
    · simp only [hother z hz]
      exact fun hprior => (hi.prior z hprior).imp_right
        fun ⟨q, hat⟩ => ⟨q, (hw.elsewhere hz rfl).2 hat⟩
  case queue_nodup => exact hq.nodup
  case queue =>
    intro z
    by_cases hz : z = b
    · subst hz
      simp only [hself]
      exact hq.self
    · simp only [hother z hz]
      rw [hi.queue z, hq.other z hz]
      exact or_congr_right (exists_congr fun q => exists_congr fun k =>
        (hw.elsewhere hz rfl).symm)
  case waiting =>
    intro q z k hk
    dsimp only at hk ⊢
    by_cases hz : z = b
    · subst hz
      exact hq.waiting q k hk
    · exact mt (hq.other z hz).1 (hi.waiting q z k ((hw.elsewhere hz rfl).1 hk))
  case nqueue_eq => exact hq.nqueue_eq

/-! ### Steps that leave the chains, the heap and the queue alone -/

/-- What most steps keep of a block. -/
structure Kept (x y : Block) : Prop where
  part : y.part = x.part
  addr : y.addr = x.addr
  score : y.score = x.score
  chain : y.chain = x.chain
  used : y.used = x.used
  type : x.part = .venti → y.l.type = x.l.type

/-- The rest of a block: its lock, who uses it, its state, and the order of writes. -/
theorem Kept.rest {x : Block} {lk : Option Proc} {nlock ref : ℕ} {iostate : IoState}
    {prior : List Prior} {uhead : List BList} {vers : UInt32} :
    Kept x { x with
      lk := lk, nlock := nlock, ref := ref, iostate := iostate, prior := prior, uhead := uhead
      vers := vers } :=
  ⟨rfl, rfl, rfl, rfl, rfl, fun _ => rfl⟩

/-- What a search finds does not change with the rest of a block. -/
theorem Kept.finds {x : Block} (hk : Kept x y) (q : Query) : q.finds y = q.finds x := by
  cases q with
  | localLookup part addr vers w => rw [Query.finds, Query.finds, hk.part, hk.addr]
  | cacheLocal part addr mode epoch => rw [Query.finds, Query.finds, hk.part, hk.addr]
  | cacheGlobal score type =>
    rw [Query.finds, Query.finds, hk.part, hk.score]
    by_cases hv : x.part = .venti
    · rw [hk.type hv]
    · simp [hv]

theorem Kept.same {x z : Block} (hk : Kept x y) (h : Same y z) : Same x z := by
  obtain ⟨hpart, hrest⟩ := h
  rw [hk.part] at hpart hrest
  refine ⟨hpart, ?_⟩
  split
  · rename_i hv
    rw [if_pos hv, hk.score, hk.type hv] at hrest
    exact hrest
  · rename_i hv
    rw [if_neg hv, hk.addr] at hrest
    exact hrest

theorem Kept.hashOf {x : Block} (hk : Kept x y) : s.hashOf y = s.hashOf x := by
  rw [Cache.hashOf, Cache.hashOf, hk.part]
  split
  · rename_i hv
    rw [hk.score, hk.type hv]
  · rw [hk.addr]

/-- The chains stay. -/
theorem Inv.chains (hi : Inv s) (hk : Kept (s.blocks b) blk) (hc : (s.blocks b).chain ≠ none) :
    Chains s b blk s.heads where
  chain := by rwa [hk.chain]
  lt := hi.lt b hc
  part := by
    rw [hk.part]
    exact hi.part b hc
  self h := by
    rw [hk.chain]
    exact hi.chained b h
  other _ _ _ := Iff.rfl
  nodup := hi.nodup
  hash h hh := by
    rw [hk.hashOf]
    rw [hk.chain] at hh
    exact hi.hash b h hh
  apart z hz hcz hsame := hz (hi.unique b z hc hcz (hk.same hsame)).symm

/-- The keys stay. -/
theorem key_update (hused : blk.used = (s.blocks b).used) (z : ℕ) :
    ((update s.blocks b blk z).used - s.now).toNat = s.key z := by
  by_cases hz : z = b
  · rw [hz, update_self, hused]
    rfl
  · rw [update_of_ne hz]
    rfl

/-- The heap stays. -/
theorem Inv.heaped (hi : Inv s) (hk : Kept (s.blocks b) blk) (href : (s.blocks b).ref ≠ 0)
    (href' : blk.ref ≠ 0) : Heaped s b blk s.heap s.now where
  valid := hi.valid
  ordered := hi.ordered.congr (key_update hk.used)
  self := by
    rw [hi.heap_iff]
    exact iff_of_false (fun h => href h.2.1) fun h => href' h.1
  other _ _ := Iff.rfl

/-- The disk queue stays. -/
theorem Inv.queued (hi : Inv s) {f : Proc → Frame}
    (hbusy : blk.iostate.busy = (s.blocks b).iostate.busy)
    (hf : ∀ q k, f q = .queueing b k ↔ s.proc q = .queueing b k)
    (hd : (f .disk).request = (s.proc .disk).request)
    (ha : (f .disk).active = (s.proc .disk).active) :
    Queued s f b blk s.cur s.next s.nqueue where
  nodup := by
    rw [pending, hd]
    exact hi.queue_nodup
  other _ _ := by rw [pending, hd, pending]
  self := by
    rw [hbusy, hi.queue b, pending, pending, hd]
    exact or_congr_right (exists_congr fun q => exists_congr fun k => (hf q k).symm)
  waiting q k hk := by
    rw [pending, hd]
    exact hi.waiting q b k ((hf q k).1 hk)
  nqueue_eq := by
    rw [ha]
    exact hi.nqueue_eq

variable {k : Option Await}

/-- Nobody else waits with the block for room on the queue. -/
theorem not_queueing_update (hpq : ∀ k, s.proc p ≠ .queueing b k) (hxq : ∀ k, x ≠ .queueing b k)
    (q : Proc) :
    update s.proc p x q = .queueing b k ↔ s.proc q = .queueing b k := by
  by_cases hqp : q = p
  · rw [hqp, update_self]
    exact iff_of_false (hxq k) (hpq k)
  · rw [update_of_ne hqp]

variable {z : ℕ}

/-- A process has the lock of one block, and refers to that one. -/
theorem locks_eq (hx : x.block = some b) (hz : x.locks = some z) : z = b := by
  rcases block_of_locks hz with hown | hserve
  · rw [hx] at hown
    exact (some.inj hown).symm
  · rw [hserve] at hx
    cases hx

theorem block_of_wants (h : x.wants = some (z, q)) : x.block = some z := by
  cases x
  case locking | checking | looking =>
    obtain ⟨rfl, -⟩ := Prod.mk.inj (some.inj h)
    rfl
  case queueing b k =>
    rcases k with _ | ⟨q'⟩ | ⟨n⟩ | _
    case some.look =>
      obtain ⟨rfl, -⟩ := Prod.mk.inj (some.inj h)
      rfl
    all_goals cases h
  case sleeping b k =>
    cases k with
    | look q' =>
      obtain ⟨rfl, -⟩ := Prod.mk.inj (some.inj h)
      rfl
    | _ => cases h
  all_goals cases h

/-- A process goes on with the block that it refers to. -/
theorem Inv.works (hi : Inv s) (hp : (s.proc p).block = some b) (hx : x.block = some b)
    (hk : Kept (s.blocks b) blk) (hlk : (s.blocks b).lk = none ∨ (s.blocks b).lk = some p)
    (hlk' : blk.lk = if x.locks = some b then some p else none) (hplaced : x.Ok p)
    (hwants : ∀ q, x.wants = some (b, q) → q.ok = true ∧ q.finds (s.blocks b) = true)
    (hfits : x.locks = some b → x.Fits blk) (hslept : ∀ k, x = .sleeping b k → blk.nlock ≠ 0)
    (hblock : BlockOk blk)
    (hprior : blk.prior ≠ [] → blk.iostate.unwritten = true ∨ x = .holding b false)
    (href : blk.ref + (s.blocks b).iostate.busy.toNat =
      (s.blocks b).ref + blk.iostate.busy.toNat) (hnlock : (s.blocks b).nlock ≠ 0 → blk.nlock ≠ 0) :
    Works s p x b blk where
  lk_self := by
    rw [hlk']
    split <;> simp_all
  lk_other q hqp := by
    rw [hlk']
    refine iff_of_false (fun h => ?_) fun h => ?_
    · obtain ⟨-, h⟩ := ite_none_right_eq_some.1 h
      exact hqp (some.inj h).symm
    · rcases hlk with hnone | hsome
      · rw [hnone] at h
        cases h
      · rw [hsome] at h
        exact hqp (some.inj h).symm
  fits_other q hqp hown := by
    rcases hlk with hnone | hsome
    · rw [hnone] at hown
      cases hown
    · rw [hsome] at hown
      exact absurd (some.inj hown).symm hqp
  block_before z hz := by
    rw [hp] at hz
    exact (some.inj hz).symm
  locks_before z hz := locks_eq hp hz
  block_after z hz := by
    rw [hx] at hz
    exact (some.inj hz).symm
  locks_after z hz := locks_eq hx hz
  placed := hplaced
  wants z q hz := by
    have hown := block_of_wants hz
    rw [hx] at hown
    cases hown
    rw [hk.finds]
    exact ⟨rfl, hwants q hz⟩
  fits := hfits
  slept z k hz := by
    have hown : x.block = some z := by rw [hz]; rfl
    rw [hx] at hown
    cases hown
    exact ⟨rfl, hslept k hz⟩
  block := hblock
  prior h := (hprior h).imp_right fun hat => ⟨p, (update_self ..).trans hat⟩
  refs := by
    rw [Frame.own, Frame.own, if_pos hp, if_pos hx]
    omega
  others _ _ _ h := hnlock h
  others_want q _ k hwant := by
    rw [hk.finds]
    exact (hi.wants q b k hwant).2

variable {c : ℕ}

theorem disk_update : update s.proc (.client c) x .disk = s.proc .disk := update_of_ne (by simp) ..

/-- **A step of a process on its block**, that leaves the queue alone. -/
theorem Inv.work (hi : Inv s) (hp : (s.proc (.client c)).block = some b) (hx : x.block = some b)
    (hpq : ∀ k, s.proc (.client c) ≠ .queueing b k) (hxq : ∀ k, x ≠ .queueing b k)
    (hk : Kept (s.blocks b) blk) (hw : Works s (.client c) x b blk)
    (hbusy : blk.iostate.busy = (s.blocks b).iostate.busy)
    (hn : ndirty + (s.blocks b).iostate.unwritten.toNat = s.ndirty + blk.iostate.unwritten.toNat) :
    Inv { s with
      blocks := update s.blocks b blk
      proc := update s.proc (.client c) x
      vers := vers, ndirty := ndirty, uhead := uhead } := by
  have href := hi.ref_pos hp
  have href' : blk.ref ≠ 0 := by
    have hsum := hw.refs
    rw [Frame.own, Frame.own, if_pos hp, if_pos hx, hbusy] at hsum
    omega
  exact hi.rework hw (hi.chains hk (hi.chain_of_ref href)) (hi.heaped hk href href')
    (hi.queued hbusy (fun q _ => not_queueing_update hpq hxq q) (by rw [disk_update])
      (by rw [disk_update])) hn

/-- The dependencies of a block that no process is about to make dirty. -/
theorem Inv.prior_unwritten (hi : Inv s)
    (hlk : (s.blocks b).lk = none ∨ ∃ p, (s.blocks b).lk = some p ∧ s.proc p ≠ .holding b false)
    (hprior : (s.blocks b).prior ≠ []) : (s.blocks b).iostate.unwritten = true := by
  rcases hi.prior b hprior with hun | ⟨q, hq⟩
  · exact hun
  · have hown := (hi.owner q b).1 (by rw [hq]; rfl)
    rcases hlk with hnone | ⟨p, hsome, hne⟩
    · rw [hnone] at hown
      cases hown
    · rw [hsome] at hown
      cases hown
      exact absurd hq hne

/-- The lock of a block is taken. -/
theorem Inv.lockBlock (hi : Inv s) (hp : s.proc (.client c) = .locking b q)
    (hlk : (s.blocks b).lk = none) :
    Inv (s.lockBlock (.client c) b q) := by
  have hwant := hi.wants (.client c) b q (by rw [hp]; rfl)
  have hown : (s.proc (.client c)).block = some b := by rw [hp]; rfl
  have hold := hi.block b
  have hpq : ∀ k, s.proc (.client c) ≠ .queueing b k := by rw [hp]; simp
  have hkept : Kept (s.blocks b) { s.blocks b with lk := some (.client c), nlock := 1 } := .rest
  have hblock : BlockOk { s.blocks b with lk := some (.client c), nlock := 1 } :=
    ⟨hold.venti, hold.disk, hold.uhead, fun h => (by cases h), fun _ => rfl⟩
  have hlocked : ∀ x : Frame, x.block = some b → x.locks = some b → (∀ k, x ≠ .queueing b k) →
      x.Ok (.client c) → (∀ k, x.wants = some (b, k) → k = q) →
      x.Fits { s.blocks b with lk := some (.client c), nlock := 1 } → (∀ k, x ≠ .sleeping b k) →
      Inv ((s.set b { s.blocks b with lk := some (.client c), nlock := 1 }).go (.client c) x) := by
    intro x hx hlocks hxq hok hq hfits hslept
    exact hi.work hown hx hpq hxq hkept
      (hi.works hown hx hkept (.inl hlk) (by rw [if_pos hlocks]) hok
        (fun k hk => hq k hk ▸ hwant) (fun _ => hfits) (fun k hk => absurd hk (hslept k)) hblock
        (fun h => .inl (hi.prior_unwritten (.inl hlk) h)) rfl (by simp)) rfl rfl
  cases q with
  | cacheLocal part addr mode epoch =>
    exact hlocked (.checking b _) rfl rfl (by simp) ⟨part, addr, mode, epoch, rfl⟩
      (fun k hk => by cases hk; rfl) rfl (by simp)
  | localLookup | cacheGlobal =>
    exact hlocked (.looking b _) rfl rfl (by simp) trivial (fun k hk => by cases hk; rfl) rfl
      (by simp)

/-- A client that has a lock has a reference. -/
theorem client_block (hok : x.Ok (.client c)) (hx : x.locks = some b) : x.block = some b := by
  rcases block_of_locks hx with hown | rfl
  · exact hown
  · exact hok.elim

theorem not_sleeping {k : Await} (hx : x.locks = some b) : x ≠ .sleeping b k := by
  rintro rfl
  cases hx

/-- **A process works on its block and keeps the lock.** -/
theorem Inv.hold (hi : Inv s) (hp : (s.proc (.client c)).locks = some b) (hx : x.locks = some b)
    (hpq : ∀ k, s.proc (.client c) ≠ .queueing b k) (hxq : ∀ k, x ≠ .queueing b k)
    (hok : x.Ok (.client c))
    (hwants : ∀ k, x.wants = some (b, k) → (s.proc (.client c)).wants = some (b, k))
    (hk : Kept (s.blocks b) blk) (hlk : blk.lk = (s.blocks b).lk) (hfits : x.Fits blk)
    (hblock : BlockOk blk)
    (hprior : blk.prior ≠ [] → blk.iostate.unwritten = true ∨ x = .holding b false)
    (href : blk.ref = (s.blocks b).ref) (hbusy : blk.iostate.busy = (s.blocks b).iostate.busy)
    (hnlock : (s.blocks b).nlock ≠ 0 → blk.nlock ≠ 0)
    (hn : ndirty + (s.blocks b).iostate.unwritten.toNat = s.ndirty + blk.iostate.unwritten.toNat) :
    Inv { s with
      blocks := update s.blocks b blk
      proc := update s.proc (.client c) x
      vers := vers, ndirty := ndirty, uhead := uhead } := by
  have hown := client_block (hi.placed (.client c)) hp
  have hxb := client_block hok hx
  have hlkp := (hi.owner (.client c) b).1 hp
  refine hi.work hown hxb hpq hxq hk ?_ hbusy hn
  exact hi.works hown hxb hk (.inr hlkp) (by rw [hlk, hlkp, if_pos hx]) hok
    (fun k hk => hi.wants _ b k (hwants k hk)) (fun _ => hfits)
    (fun k hk => absurd hk (not_sleeping hx)) hblock hprior (by rw [href, hbusy]) hnlock

/-- A process keeps the lock of its block, and leaves the block alone. -/
theorem Inv.goHold (hi : Inv s) (hp : (s.proc (.client c)).locks = some b) (hx : x.locks = some b)
    (hpq : ∀ k, s.proc (.client c) ≠ .queueing b k) (hxq : ∀ k, x ≠ .queueing b k)
    (hok : x.Ok (.client c))
    (hwants : ∀ k, x.wants = some (b, k) → (s.proc (.client c)).wants = some (b, k))
    (hfits : x.Fits (s.blocks b)) (hprior : (s.blocks b).prior ≠ [] →
      (s.blocks b).iostate.unwritten = true ∨ x = .holding b false) :
    Inv (s.go (.client c) x) := by
  have h : Inv ((s.set b (s.blocks b)).go (.client c) x) :=
    hi.hold hp hx hpq hxq hok hwants .rest rfl hfits
      (hi.block b) hprior rfl rfl id rfl
  rwa [Cache.set_self] at h

variable {nlock : ℕ}

/-- A process gives up the lock of its block. -/
theorem Inv.unlock (hi : Inv s) (hp : (s.proc (.client c)).locks = some b) (hxb : x.block = some b)
    (hx : x.locks = none) (hpq : ∀ k, s.proc (.client c) ≠ .queueing b k) (hok : x.Ok (.client c))
    (hwants : ∀ k, x.wants = some (b, k) → (s.proc (.client c)).wants = some (b, k))
    (hprior : (s.blocks b).prior ≠ [] → (s.blocks b).iostate.unwritten = true)
    (hnlock : nlock = 1) :
    Inv ((s.set b { s.blocks b with nlock := nlock, lk := none }).go (.client c) x) := by
  subst hnlock
  have hown := client_block (hi.placed (.client c)) hp
  have hlkp := (hi.owner (.client c) b).1 hp
  have hold := hi.block b
  have hkept : Kept (s.blocks b) { s.blocks b with nlock := 1, lk := none } := .rest
  have hxq : ∀ k, x ≠ .queueing b k := by
    rintro k rfl
    cases hx
  refine hi.work hown hxb hpq hxq hkept ?_ rfl rfl
  exact hi.works hown hxb hkept (.inr hlkp) (by rw [hx]; rfl) hok
    (fun k hk => hi.wants _ b k (hwants k hk)) (fun h => by rw [hx] at h; cases h)
    (fun _ _ => Nat.one_ne_zero)
    ⟨hold.venti, hold.disk, hold.uhead, fun _ => le_rfl, fun _ => rfl⟩
    (fun h => .inl (hprior h)) rfl fun _ => Nat.one_ne_zero

/-! ### The disk queue -/

theorem no_wants (hx : x.block = none) : x.wants ≠ some (z, q) := by
  intro h
  rw [block_of_wants h] at hx
  cases hx

/-- **A process without a block goes on**, and `diskThread` may change the queue. -/
theorem Inv.move (hi : Inv s) {nqueue : ℕ} (hp : (s.proc p).block = none)
    (hpl : (s.proc p).locks = none) (hx : x.block = none) (hxl : x.locks = none) (hok : x.Ok p)
    (hpend : ∀ z, z ∈ pending cur next (update s.proc p x .disk) ↔
      z ∈ pending s.cur s.next (s.proc .disk))
    (hnodup : (pending cur next (update s.proc p x .disk)).Nodup) (hnqueue : nqueue =
      cur.length + next.length + (update s.proc p x .disk).active) :
    Inv { s with
      proc := update s.proc p x, cur := cur, next := next, nqueue := nqueue } := by
  have hat : ∀ {q : Proc} {y : Frame} {z : ℕ}, y.block = some z →
      (update s.proc p x q = y ↔ s.proc q = y) :=
    at_block_iff (by rw [hp]; simp) (by rw [hx]; simp)
  exact { hi with
    refs := by
      intro z
      obtain ⟨S, hS, hcard⟩ := hi.refs z
      obtain ⟨S', hS', hcard'⟩ := holders_update hS p x
      have hbefore : (s.proc p).own z = 0 := if_neg (by rw [hp]; simp)
      have hafter : x.own z = 0 := if_neg (by rw [hx]; simp)
      refine ⟨S', hS', ?_⟩
      change S'.card + (s.blocks z).iostate.busy.toNat = (s.blocks z).ref
      omega
    owner := by
      intro q z
      dsimp only
      refine update_cases q (fun hqp => ?_) fun _ => hi.owner q z
      rw [hxl, ← hpl, hqp]
      exact hi.owner p z
    fits := by
      intro q z
      dsimp only
      refine update_cases q (fun _ hlocks => ?_) fun _ => hi.fits q z
      rw [hxl] at hlocks
      cases hlocks
    placed := by
      intro q
      dsimp only
      exact update_cases q (fun hqp => hqp ▸ hok) fun _ => hi.placed q
    wants := by
      intro q z k
      dsimp only
      exact update_cases q (fun _ hwant => absurd hwant (no_wants hx)) fun _ => hi.wants q z k
    slept := fun q z k hsleep => hi.slept q z k ((hat rfl).1 hsleep)
    prior := fun z hprior => (hi.prior z hprior).imp_right fun ⟨q, hq⟩ => ⟨q, (hat rfl).2 hq⟩
    queue_nodup := hnodup
    queue := fun z => (hi.queue z).trans (or_congr (hpend z).symm
      (exists_congr fun q => exists_congr fun k => (hat rfl).symm))
    waiting := fun q z k hq => mt (hpend z).1 (hi.waiting q z k ((hat rfl).1 hq))
    nqueue_eq := hnqueue }

/-- A client without a block goes on. -/
theorem Inv.goFree (hi : Inv s) (hp : (s.proc (.client c)).block = none)
    (hpl : (s.proc (.client c)).locks = none) (hx : x.block = none) (hxl : x.locks = none)
    (hok : x.Ok (.client c)) : Inv (s.go (.client c) x) := by
  exact hi.move hp hpl hx hxl hok (fun z => by rw [disk_update])
    (by rw [disk_update]; exact hi.queue_nodup) (by rw [disk_update]; exact hi.nqueue_eq)

/-- `diskQueue` puts the block on one of the lists. -/
theorem enqueue_eq (s : Cache) (p : Proc) (b : ℕ) (k : Option Await) : ∃ cur next,
    s.enqueue p b k = { s with cur := cur, next := next, nqueue := s.nqueue + 1 }.queued p b k ∧
        (cur ++ next).Perm (b :: (s.cur ++ s.next)) := by
  have hperm : ∀ l, (s.ioInsert b l).Perm (b :: l) := fun l => perm_orderedInsert _ b l
  rw [Cache.enqueue]
  split
  · exact ⟨s.ioInsert b s.cur, s.next, rfl, (hperm s.cur).append_right s.next⟩
  · exact ⟨s.cur, s.ioInsert b s.next, rfl, ((hperm s.next).append_left s.cur).trans perm_middle⟩

/-- What a process that puts a block on the queue goes on with. -/
structure Queueing (s : Cache) (c b : ℕ) (k : Option Await) (blk : Block) : Prop where
  locks : (s.proc (.client c)).locks = some b
  kept : Kept (s.blocks b) blk
  lk : blk.lk = (s.blocks b).lk
  nlock : blk.nlock = 1
  busy : blk.iostate.busy = true
  writing : k = none → blk.iostate = .writing
  ok : ∀ k', k = some k' → k'.Ok
  wants : ∀ q, k = some (.look q) → (s.proc (.client c)).wants = some (b, q)
  prior : blk.prior ≠ [] → blk.iostate.unwritten = true
  block : BlockOk blk
  ref : blk.ref + (s.blocks b).iostate.busy.toNat = (s.blocks b).ref + 1
  unwritten : blk.iostate.unwritten = (s.blocks b).iostate.unwritten
  fresh : b ∉ pending s.cur s.next (s.proc .disk)

theorem Queueing.block_eq (hi : Inv s) (hq : Queueing s c b k blk) :
    (s.proc (.client c)).block = some b :=
  client_block (hi.placed _) hq.locks

/-- The process waits for room on the queue. -/
theorem Inv.waitRoom (hi : Inv s) (hq : Queueing s c b k blk) :
    Inv ((s.set b blk).go (.client c) (.queueing b k)) := by
  have hown := hq.block_eq hi
  have hlkp := (hi.owner (.client c) b).1 hq.locks
  have href := hi.ref_pos hown
  have href' : blk.ref ≠ 0 := by
    have hsum := hq.ref
    have hle := Bool.toNat_le (s.blocks b).iostate.busy
    omega
  have hworks : Works s (.client c) (.queueing b k) b blk := by
    refine hi.works hown rfl hq.kept (.inr hlkp)
      (by rw [hq.lk, hlkp]; exact (if_pos rfl).symm) ?_ ?_ ?_
      (fun k' hk => by cases hk)
      hq.block (fun h => .inl (hq.prior h)) (by rw [hq.busy]; exact hq.ref)
      (fun _ => by rw [hq.nlock]; exact Nat.one_ne_zero)
    · cases k with
      | none => trivial
      | some k => exact hq.ok k rfl
    · intro q hwant
      cases k with
      | none => cases hwant
      | some k =>
        cases k with
        | look q' =>
          obtain rfl : q' = q := (Prod.mk.inj (some.inj hwant)).2
          exact hi.wants _ b q' (hq.wants q' rfl)
        | _ => cases hwant
    · intro _
      cases k with
      | none => exact ⟨hq.nlock, hq.writing rfl⟩
      | some k => exact ⟨hq.nlock, hq.busy⟩
  refine hi.rework hworks (hi.chains hq.kept (hi.chain_of_ref href))
    (hi.heaped hq.kept href href') ?_ (by rw [hq.unwritten]; rfl)
  refine ⟨?_, fun _ _ => by rw [disk_update]; rfl,
    iff_of_true hq.busy (.inr ⟨.client c, k, update_self ..⟩), fun _ _ _ => ?_, ?_⟩
  all_goals rw [disk_update]
  · exact hi.queue_nodup
  · exact hq.fresh
  · exact hi.nqueue_eq

/-- The block is on the queue, and the process sleeps or returns. -/
theorem Inv.enqueue (hi : Inv s) (hq : Queueing s c b k blk) :
    Inv ((s.set b blk).enqueue (.client c) b k) := by
  have hown := hq.block_eq hi
  have hlkp := (hi.owner (.client c) b).1 hq.locks
  have href := hi.ref_pos hown
  have href' : blk.ref ≠ 0 := by
    have hsum := hq.ref
    have hle := Bool.toNat_le (s.blocks b).iostate.busy
    omega
  obtain ⟨cur, next, heq, hperm⟩ := enqueue_eq (s.set b blk) (.client c) b k
  have hpend : (pending cur next (s.proc .disk)).Perm
      (b :: pending s.cur s.next (s.proc .disk)) := hperm.append_right _
  have hgo : ∀ (x : Frame) (lk : Option Proc), x.block = some b →
      lk = (if x.locks = some b then some (.client c) else none) → (∀ k, x ≠ .queueing b k) →
      x.Ok (.client c) →
      (∀ q, x.wants = some (b, q) → (s.proc (.client c)).wants = some (b, q)) →
      (x.locks = some b → x.Fits { blk with lk := lk }) →
      Inv { s with
        blocks := update s.blocks b { blk with lk := lk }
        proc := update s.proc (.client c) x
        cur := cur, next := next, nqueue := s.nqueue + 1 } := by
    intro x lk hx hlk hxq hok hwants hfits
    have hkept : Kept (s.blocks b) { blk with lk := lk } :=
      ⟨hq.kept.part, hq.kept.addr, hq.kept.score, hq.kept.chain, hq.kept.used, hq.kept.type⟩
    have hworks : Works s (.client c) x b { blk with lk := lk } := by
      refine hi.works hown hx hkept (.inr hlkp) hlk hok
        (fun q hwant => hi.wants _ b q (hwants q hwant)) hfits
        (fun _ _ => by rw [hq.nlock]; exact Nat.one_ne_zero)
        ⟨hq.block.venti, hq.block.disk, hq.block.uhead, fun _ => hq.nlock.le, fun _ => hq.nlock⟩
        (fun h => .inl (hq.prior h)) ?_ (fun _ => by rw [hq.nlock]; exact Nat.one_ne_zero)
      rw [hq.busy]
      exact hq.ref
    refine hi.rework hworks (hi.chains hkept (hi.chain_of_ref href))
      (hi.heaped hkept href href') ?_ (by rw [hq.unwritten])
    have hnot : ∀ q k, update s.proc (.client c) x q ≠ .queueing b k := by
      intro q k hk
      by_cases hqp : q = .client c
      · rw [hqp, update_self] at hk
        exact hxq k hk
      · rw [update_of_ne hqp] at hk
        have hown' := (hi.owner q b).1 (by rw [hk]; rfl)
        rw [hlkp] at hown'
        exact hqp (some.inj hown').symm
    refine ⟨?_, fun z hz => ?_, ?_, fun q k hk => absurd hk (hnot q k), ?_⟩
    all_goals rw [disk_update]
    · exact hpend.nodup_iff.2 (nodup_cons.2 ⟨hq.fresh, hi.queue_nodup⟩)
    · rw [hpend.mem_iff, mem_cons]
      exact or_iff_right hz
    · exact iff_of_true hq.busy (.inl (hpend.mem_iff.2 mem_cons_self))
    · have hlen : cur.length + next.length = s.cur.length + s.next.length + 1 := by
        have := hperm.length_eq
        rw [length_cons, length_append, length_append] at this
        exact this
      rw [hlen, hi.nqueue_eq]
      omega
  rw [heq]
  cases k with
  | none =>
    have hsame : { blk with lk := some (.client c) } = blk := by rw [← hlkp, ← hq.lk]
    have h := hgo (.wrote b) (some (.client c)) rfl (if_pos rfl).symm (by simp) trivial
      (fun q h => by cases h)
      fun _ => ⟨hq.nlock, hq.writing rfl⟩
    rw [hsame] at h
    exact h
  | some k =>
    have h := hgo (.sleeping b k) none rfl rfl (by simp) (hq.ok k rfl) (fun q hwant => ?_)
      (fun h => by cases h)
    · simpa [Cache.queued, Cache.set, Cache.go] using h
    · cases k with
      | look q' =>
        obtain rfl : q' = q := (Prod.mk.inj (some.inj hwant)).2
        exact hq.wants q' rfl
      | _ => cases hwant

/-- `diskQueue` keeps the invariant. -/
theorem Inv.diskQueue (hi : Inv s) (hq : Queueing s c b k blk) :
    Inv ((s.set b blk).diskQueue (.client c) b k) := by
  rw [Cache.diskQueue]
  split
  · exact hi.waitRoom hq
  · exact hi.enqueue hq

/-! ### Looking at a block -/

/-- A process works on its block and stays where it is. -/
theorem Inv.keep (hi : Inv s) (hp : (s.proc (.client c)).locks = some b)
    (hpq : ∀ k, s.proc (.client c) ≠ .queueing b k) (hk : Kept (s.blocks b) blk)
    (hlk : blk.lk = (s.blocks b).lk) (hfits : (s.proc (.client c)).Fits blk) (hblock : BlockOk blk)
    (hprior : blk.prior ≠ [] → blk.iostate.unwritten = true ∨ s.proc (.client c) = .holding b false)
    (href : blk.ref = (s.blocks b).ref) (hbusy : blk.iostate.busy = (s.blocks b).iostate.busy)
    (hnlock : (s.blocks b).nlock ≠ 0 → blk.nlock ≠ 0)
    (hn : ndirty + (s.blocks b).iostate.unwritten.toNat = s.ndirty + blk.iostate.unwritten.toNat) :
    Inv { s with
      blocks := update s.blocks b blk, vers := vers, ndirty := ndirty, uhead := uhead } := by
  have h : Inv { s with
      blocks := update s.blocks b blk
      proc := update s.proc (.client c) (s.proc (.client c))
      vers := vers, ndirty := ndirty, uhead := uhead } :=
    hi.hold hp hp hpq hpq (hi.placed _) (fun _ h => h) hk hlk hfits hblock hprior href hbusy hnlock
      hn
  rwa [update_eq_self] at h

/-- A block that is not to be written has nothing to unlink. -/
theorem BlockOk.uhead_nil (h : BlockOk blk) (hun : blk.iostate.unwritten = false) :
    blk.uhead = [] := by
  by_contra hne
  rw [h.uhead hne] at hun
  cases hun

variable {st : IoState}

theorem nil_of_unwritten {α : Type} {l : List α} (h : l ≠ [] → st.unwritten = true)
    (hun : st.unwritten = false) : l = [] := by
  by_contra hne
  rw [h hne] at hun
  cases hun

/-- `blockPut` unlocks a block that is locked once. -/
theorem blockPut_one {p p' : Proc} (h : (s.blocks b).nlock = 1) (hlk : (s.blocks b).lk = some p') :
    s.blockPut p b x = (s.set b { s.blocks b with nlock := 1, lk := none }).go p (.putting b) := by
  rw [Cache.blockPut, if_neg (by omega), if_neg (by rw [hlk]; simp [h])]

/-- A process that looks at a block, or checks its label, with what it knows. -/
structure Looks (s : Cache) (c b : ℕ) (q : Query) : Prop where
  locks : (s.proc (.client c)).locks = some b
  wants : (s.proc (.client c)).wants = some (b, q)
  not_queueing : ∀ k, s.proc (.client c) ≠ .queueing b k
  not_holding : s.proc (.client c) ≠ .holding b false
  fits : ∀ blk : Block, blk.nlock = 1 → (s.proc (.client c)).Fits blk
  nlock : (s.blocks b).nlock = 1

theorem Inv.looks (hi : Inv s)
    (hp : s.proc (.client c) = .looking b q ∨ s.proc (.client c) = .checking b q) :
    Looks s c b q := by
  have hfits := hi.fits (.client c) b
  rcases hp with hp | hp
  all_goals
    rw [hp] at hfits
    refine ⟨by rw [hp]; rfl, by rw [hp]; rfl, by rw [hp]; simp, by rw [hp]; simp, ?_, hfits rfl⟩
    rw [hp]
    exact fun _ h => h

variable {c : ℕ} {q : Query}

theorem Looks.prior (hl : Looks s c b q) (hi : Inv s) (hprior : (s.blocks b).prior ≠ []) :
    (s.blocks b).iostate.unwritten = true :=
  hi.prior_unwritten (.inr ⟨_, (hi.owner _ b).1 hl.locks, hl.not_holding⟩) hprior

theorem Looks.drop (hl : Looks s c b q) (hi : Inv s) : Inv (s.drop (.client c) b) := by
  rw [Cache.drop, blockPut_one hl.nlock ((hi.owner _ b).1 hl.locks)]
  exact hi.unlock hl.locks rfl rfl hl.not_queueing trivial (fun k h => by cases h) (hl.prior hi) rfl

theorem Looks.sleep (hl : Looks s c b q) (hi : Inv s) : Inv (s.sleep (.client c) b q) := by
  have hok := (hi.wants _ b q hl.wants).1
  have h : Inv ((s.set b { s.blocks b with nlock := (s.blocks b).nlock, lk := none }).go
      (.client c) (.sleeping b (.look q))) := by
    refine hi.unlock hl.locks rfl rfl hl.not_queueing hok (fun k hk => ?_) (hl.prior hi) hl.nlock
    obtain rfl : q = k := (Prod.mk.inj (some.inj hk)).2
    exact hl.wants
  exact h

variable {flush : Bool}

/-- The block is given to the process. -/
theorem Looks.hold (hl : Looks s c b q) (hi : Inv s) (hbusy : (s.blocks b).iostate.busy = false)
    (hread : (s.blocks b).iostate ≠ .readError) (hventi : (s.blocks b).iostate ≠ .ventiError)
    (hempty : flush = false → (s.blocks b).iostate ≠ .empty) :
    Inv (s.go (.client c) (.holding b flush)) :=
  hi.goHold hl.locks rfl hl.not_queueing (by simp) trivial (fun k h => by cases h)
    ⟨hl.nlock.ge, hbusy, hread, hventi, hempty⟩ fun h => .inl (hl.prior hi h)

/-- Another state of a block that is neither busy nor to be written. -/
theorem Looks.setIo (hl : Looks s c b q) (hi : Inv s) {l : Label} {prior : List Prior}
    (hbusy : (s.blocks b).iostate.busy = false) (hun : (s.blocks b).iostate.unwritten = false)
    (hbusy' : st.busy = false) (hun' : st.unwritten = false)
    (hl' : (s.blocks b).part = .venti → l = (s.blocks b).l) (hprior : prior = [])
    (hventi : (s.blocks b).part = .venti → st = .empty ∨ st = .clean ∨ st = .ventiError)
    (hdisk : (s.blocks b).part ≠ .venti → st ≠ .ventiError) :
    Inv (s.set b { s.blocks b with l := l, prior := prior, iostate := st }) := by
  have hold := hi.block b
  have hu := hold.uhead_nil hun
  subst hprior
  refine hi.keep hl.locks hl.not_queueing
    ⟨rfl, rfl, rfl, rfl, rfl, fun hv => by rw [hl' hv]⟩ rfl (hl.fits _ hl.nlock) ?_
    (fun h => absurd rfl h) rfl (by rw [hbusy, hbusy']) id (by rw [hun, hun'])
  exact ⟨hventi, hdisk, fun h => absurd hu h, hold.unlocked, fun h => by rw [hbusy'] at h; cases h⟩

/-- The state alone. -/
theorem Looks.looks_set (hl : Looks s c b q) (hn : blk.nlock = 1) : Looks (s.set b blk) c b q :=
  ⟨hl.locks, hl.wants, hl.not_queueing, hl.not_holding, hl.fits, by rw [Cache.set_blocks, hn]⟩

/-- `diskRead` for a block on the disk. -/
theorem Looks.diskRead (hl : Looks s c b q) (hi : Inv s) (hpart : (s.blocks b).part ≠ .venti)
    (hio : (s.blocks b).iostate = .empty ∨ (s.blocks b).iostate = .label) :
    Inv (s.diskRead (.client c) b q) := by
  have hold := hi.block b
  have hun : (s.blocks b).iostate.unwritten = false := by
    rcases hio with h | h <;> rw [h] <;> rfl
  have hbusy : (s.blocks b).iostate.busy = false := by
    rcases hio with h | h <;> rw [h] <;> rfl
  rw [Cache.diskRead, if_pos hio]
  refine hi.diskQueue (k := some (.look q)) ⟨hl.locks, .rest, rfl,
    hl.nlock, rfl, (fun h => by cases h), ?_, ?_, ?_, ?_, ?_, ?_, ?_⟩
  · intro k hk
    cases hk
    exact (hi.wants _ b q hl.wants).1
  · intro k hk
    obtain rfl : q = k := Await.look.inj (some.inj hk)
    exact hl.wants
  · exact fun h => absurd (nil_of_unwritten (hl.prior hi) hun) h
  · exact ⟨fun h => absurd h hpart, fun _ => by simp, fun h => absurd (hold.uhead_nil hun) h,
      hold.unlocked, fun _ => hl.nlock⟩
  · rw [hbusy]
    rfl
  · rw [hun]
    rfl
  · intro hmem
    have := (hi.queue b).2 (.inl hmem)
    rw [hbusy] at this
    cases this

/-- What was looked for on the disk is there. -/
theorem Looks.part_local (hl : Looks s c b q) (hi : Inv s)
    (hq : ∀ score type, q ≠ .cacheGlobal score type) : (s.blocks b).part ≠ .venti := by
  obtain ⟨hok, hfinds⟩ := hi.wants _ b q hl.wants
  cases q with
  | cacheGlobal score type => exact absurd rfl (hq score type)
  | _ =>
    simp only [Query.ok, Query.finds, Bool.and_eq_true, decide_eq_true_eq] at hok hfinds
    rw [hfinds.1]
    exact hok.2

/-- **The `switch` of the lookups** keeps the invariant. -/
theorem Inv.look (hi : Inv s) (hp : s.proc (.client c) = .looking b q) (ok : Bool) :
    Inv (s.look (.client c) b q ok) := by
  have hl := hi.looks (.inl hp)
  have hold := hi.block b
  cases q with
  | localLookup part addr vers w =>
    have hhold : (s.blocks b).iostate.busy = false → (s.blocks b).iostate ≠ .readError →
        (s.blocks b).iostate ≠ .ventiError →
        Inv (if (s.blocks b).vers ≠ vers then s.drop (.client c) b
          else s.go (.client c) (.holding b true)) := by
      intro hbusy hread hventi
      split
      · exact hl.drop hi
      · exact hl.hold hi hbusy hread hventi fun h => by cases h
    cases hio : (s.blocks b).iostate
    all_goals
      rw [hio] at hhold
      simp only [Cache.look, hio]
    case reading | writing => exact hl.sleep hi
    case readError | ventiError => exact hl.drop hi
    all_goals exact hhold rfl (by simp) (by simp)
  | cacheLocal part addr mode epoch =>
    have hpart := hl.part_local hi (by simp)
    have hhold : (s.blocks b).iostate.busy = false → (s.blocks b).iostate ≠ .readError →
        (s.blocks b).iostate ≠ .ventiError → (s.blocks b).iostate ≠ .empty →
        Inv (s.go (.client c) (.holding b false)) :=
      fun hbusy hread hventi hempty => hl.hold hi hbusy hread hventi fun _ => hempty
    cases hio : (s.blocks b).iostate
    all_goals
      rw [hio] at hhold
      simp only [Cache.look, hio]
    case empty => exact hl.diskRead hi hpart (.inl hio)
    case label =>
      split
      · exact hhold rfl (by simp) (by simp) (by simp)
      · exact hl.diskRead hi hpart (.inr hio)
    case clean | dirty => exact hhold rfl (by simp) (by simp) (by simp)
    case reading | writing => exact hl.sleep hi
    case readError =>
      have hun : (s.blocks b).iostate.unwritten = false := by rw [hio]; rfl
      have hset : s.blockSetIOState b .empty = s.set b { s.blocks b with iostate := .empty } := by
        simp [Cache.blockSetIOState, hold.uhead_nil hun]
      rw [hset]
      have hkeep : Inv (s.set b { s.blocks b with iostate := .empty }) :=
        hl.setIo hi (by rw [hio]; rfl) hun rfl rfl (fun _ => rfl)
          (nil_of_unwritten (hl.prior hi) hun) (fun h => absurd h hpart) fun _ => by simp
      exact (hl.looks_set (by exact hl.nlock)).drop hkeep
    case ventiError => exact absurd hio (hold.disk hpart)
  | cacheGlobal score type =>
    have hpart : (s.blocks b).part = .venti := by
      have hfinds := (hi.wants _ b _ hl.wants).2
      simp only [Query.finds, Bool.and_eq_true, decide_eq_true_eq] at hfinds
      exact hfinds.1.1
    have hhold : (s.blocks b).iostate = .clean → Inv (s.go (.client c) (.holding b false)) :=
      fun hio => hl.hold hi (by rw [hio]; rfl) (by rw [hio]; simp) (by rw [hio]; simp)
        fun _ => by rw [hio]; simp
    rcases hold.venti hpart with hio | hio | hio
    all_goals simp only [Cache.look, hio]
    · have hun : (s.blocks b).iostate.unwritten = false := by rw [hio]; rfl
      have hbusy : (s.blocks b).iostate.busy = false := by rw [hio]; rfl
      split
      · have hset : s.blockSetIOState b .clean =
            s.set b { s.blocks b with prior := [], iostate := .clean } := by
          simp [Cache.blockSetIOState, hun, hold.uhead_nil hun]
        rw [hset]
        have hkeep : Inv (s.set b { s.blocks b with prior := [], iostate := .clean }) :=
          hl.setIo hi hbusy hun rfl rfl (fun _ => rfl) rfl (fun _ => .inr (.inl rfl))
            fun _ => by simp
        refine (hl.looks_set (by exact hl.nlock)).hold hkeep ?_ ?_ ?_ ?_
        all_goals simp [IoState.busy]
      · have hkeep : Inv (s.set b { s.blocks b with iostate := .ventiError }) :=
          hl.setIo hi hbusy hun rfl rfl (fun _ => rfl) (nil_of_unwritten (hl.prior hi) hun)
            (fun _ => .inr (.inr rfl)) fun h => absurd hpart h
        exact (hl.looks_set (by exact hl.nlock)).drop hkeep
    · exact hhold hio
    · exact hl.drop hi

/-- **The label check of `_cacheLocal`** keeps the invariant. -/
theorem Inv.check (hi : Inv s) (hp : s.proc (.client c) = .checking b q) (l : Option Label) :
    Inv (s.check (.client c) b q l) := by
  have hl := hi.looks (.inr hp)
  have hold := hi.block b
  obtain ⟨part, addr, mode, epoch, rfl⟩ : ∃ part addr mode epoch,
      q = .cacheLocal part addr mode epoch := by
    have hok := hi.placed (.client c)
    rw [hp] at hok
    exact hok
  have hpart := hl.part_local hi (by simp)
  have hgo : ∀ {t : Cache}, Inv t → Looks t c b (.cacheLocal part addr mode epoch) →
      Inv (t.checkEpoch (.client c) b (.cacheLocal part addr mode epoch)) := by
    intro t ht hlt
    rw [Cache.checkEpoch]
    split
    · exact hlt.drop ht
    · refine ht.goHold hlt.locks rfl hlt.not_queueing (by simp) trivial (fun k hk => ?_) hlt.nlock
        fun h => .inl (hlt.prior ht h)
      obtain rfl := (Prod.mk.inj (some.inj hk)).2
      exact hlt.wants
  unfold Cache.check
  split
  · rename_i hempty
    have hun : (s.blocks b).iostate.unwritten = false := by rw [hempty.2]; rfl
    cases l with
    | none => exact hl.drop hi
    | some l =>
      have hset : (s.set b { s.blocks b with l := l }).blockSetIOState b .label =
          s.set b { s.blocks b with l := l, iostate := .label } := by
        simp [Cache.blockSetIOState, hold.uhead_nil hun]
      have hkeep : Inv (s.set b { s.blocks b with l := l, iostate := .label }) :=
        hl.setIo hi (by rw [hempty.2]; rfl) hun rfl rfl (fun h => absurd h hpart)
          (nil_of_unwritten (hl.prior hi) hun) (fun h => absurd h hpart) fun _ => by simp
      simp only
      rw [hset]
      exact hgo hkeep (hl.looks_set (by exact hl.nlock))
  · exact hgo hi hl

/-! ### Changing a block -/

/-- What a process knows of the block it has. -/
theorem Inv.holding (hi : Inv s) (hp : s.proc (.client c) = .holding b flush) :
    1 ≤ (s.blocks b).nlock ∧ (s.blocks b).iostate.busy = false ∧
      (s.blocks b).iostate ≠ .readError ∧ (s.blocks b).iostate ≠ .ventiError ∧
      (flush = false → (s.blocks b).iostate ≠ .empty) := by
  have hfits := hi.fits (.client c) b (by rw [hp]; rfl)
  rw [hp] at hfits
  exact hfits

/-- **A process changes its block** and keeps it. -/
theorem Inv.change (hi : Inv s) (hp : s.proc (.client c) = .holding b false)
    (hk : Kept (s.blocks b) blk) (hlk : blk.lk = (s.blocks b).lk)
    (href : blk.ref = (s.blocks b).ref) (hnlock : 1 ≤ blk.nlock)
    (hio : blk.iostate = (s.blocks b).iostate ∨ blk.iostate = .dirty ∧ (s.blocks b).part ≠ .venti ∧
        (s.blocks b).iostate.unwritten = false)
    (huhead : blk.uhead = (s.blocks b).uhead ∨ blk.iostate.unwritten = true)
    (hn : ndirty + (s.blocks b).iostate.unwritten.toNat = s.ndirty + blk.iostate.unwritten.toNat) :
    Inv { s with blocks := update s.blocks b blk, ndirty := ndirty } := by
  obtain ⟨-, hbusy, hread, hventi, hempty⟩ := hi.holding hp
  have hold := hi.block b
  have hlocks : (s.proc (.client c)).locks = some b := by rw [hp]; rfl
  have hlkp := (hi.owner _ b).1 hlocks
  have hbusy' : blk.iostate.busy = false := by
    rcases hio with h | h
    · rw [h, hbusy]
    · rw [h.1]
      rfl
  refine hi.keep hlocks (by rw [hp]; simp) hk hlk ?_ ⟨?_, ?_, ?_, ?_, ?_⟩ (fun _ => .inr hp) href
    (by rw [hbusy, hbusy']) (fun _ => by omega) hn
  · rw [hp]
    rcases hio with h | h
    · exact ⟨hnlock, hbusy', by rwa [h], by rwa [h], fun _ => by rw [h]; exact hempty rfl⟩
    · exact ⟨hnlock, hbusy', by rw [h.1]; simp, by rw [h.1]; simp, fun _ => by rw [h.1]; simp⟩
  · intro hv
    rw [hk.part] at hv
    rcases hio with h | h
    · rw [h]
      exact hold.venti hv
    · exact absurd hv h.2.1
  · intro hv
    rw [hk.part] at hv
    rcases hio with h | h
    · rw [h]
      exact hold.disk hv
    · rw [h.1]
      simp
  · intro hne
    rcases huhead with h | h
    · rw [h] at hne
      rcases hio with hsame | hdirty
      · rw [hsame]
        exact hold.uhead hne
      · rw [hdirty.1]
        rfl
    · exact h
  · intro hnone
    rw [hlk, hlkp] at hnone
    cases hnone
  · intro h
    rw [hbusy'] at h
    cases h

variable {t : Cache}

section

variable (hi : Inv s)

include hi

/-- **`blockDirty`** never fails. -/
theorem Inv.blockDirty (hp : s.proc (.client c) = .holding b false)
    (ht : s.blockDirty b = some t) : Inv t := by
  obtain ⟨hn, hbusy, hread, hventi, hempty⟩ := hi.holding hp
  rw [Cache.blockDirty] at ht
  simp only at ht
  split at ht
  · cases ht
  · rename_i hpart
    split at ht
    · cases ht
      exact hi
    · rename_i hdirty
      have hstate : (s.blocks b).iostate = .clean ∨ (s.blocks b).iostate = .label := by
        cases hio : (s.blocks b).iostate
        case clean => exact .inl rfl
        case label => exact .inr rfl
        all_goals simp_all [IoState.busy]
      have hun : (s.blocks b).iostate.unwritten = false := by
        rcases hstate with h | h <;> rw [h] <;> rfl
      rw [if_pos hstate] at ht
      cases ht
      exact hi.change hp .rest rfl rfl hn
        (.inr ⟨rfl, hpart, hun⟩) (.inl rfl) (by rw [hun]; rfl)

theorem Inv.dup (hp : s.proc (.client c) = .holding b flush) :
    Inv (s.set b { s.blocks b with nlock := (s.blocks b).nlock + 1 }) := by
  have hold := hi.block b
  have hlocks : (s.proc (.client c)).locks = some b := by rw [hp]; rfl
  have hlkp := (hi.owner _ b).1 hlocks
  obtain ⟨-, hbusy, hread, hventi, hempty⟩ := hi.holding hp
  refine hi.keep hlocks (by rw [hp]; simp) .rest rfl ?_
    ⟨hold.venti, hold.disk, hold.uhead, ?_, ?_⟩ ?_ rfl rfl (fun _ => Nat.succ_ne_zero _) rfl
  · rw [hp]
    exact ⟨Nat.le_add_left 1 _, hbusy, hread, hventi, hempty⟩
  · intro h
    rw [hlkp] at h
    cases h
  · intro h
    rw [hbusy] at h
    cases h
  · intro h
    refine (hi.prior b h).imp_right fun ⟨p, hat⟩ => ?_
    have hown := (hi.owner p b).1 (by rw [hat]; rfl)
    rw [hlkp] at hown
    rwa [some.inj hown]

/-- `_blockSetLabel` changes the label of a block in `PartData`. -/
theorem Inv.setLabel (hp : s.proc (.client c) = .holding b false)
    (hpart : (s.blocks b).part = .data) (l : Label) :
    Inv (s.set b { s.blocks b with l := l }) :=
  hi.change hp ⟨rfl, rfl, rfl, rfl, rfl, fun h => by rw [hpart] at h; cases h⟩ rfl rfl
    (hi.holding hp).1 (.inl rfl) (.inl rfl) rfl

theorem Inv.blockDependency (hp : s.proc (.client c) = .holding b false) {bb : ℕ}
    {index : Option ℕ} (ht : s.blockDependency b bb index = some t) : Inv t := by
  rw [Cache.blockDependency] at ht
  split at ht
  · cases ht
    exact hi
  · obtain ⟨-, ⟨⟩⟩ := ite_none_right_eq_some.1 ht
    exact hi.change hp .rest rfl rfl (hi.holding hp).1
      (.inl rfl)
      (.inl rfl) rfl

theorem Inv.blockRemoveLink (hp : s.proc (.client c) = .holding b false) {p : BList}
    (ht : s.blockRemoveLink b p = some t) : Inv t := by
  rw [Cache.blockRemoveLink] at ht
  split at ht
  · rename_i hdirty
    cases ht
    exact hi.change hp .rest rfl rfl (hi.holding hp).1 (.inl rfl)
      (.inr (by rw [hdirty]; rfl)) rfl
  · obtain ⟨-, ⟨⟩⟩ := ite_none_right_eq_some.1 ht
    exact hi.change hp .rest rfl rfl (hi.holding hp).1
      (.inl rfl)
      (.inl rfl) rfl

/-! ### Writing a block -/

/-- **A dirty block goes to the disk.** -/
theorem Inv.diskWrite (hlocks : (s.proc (.client c)).locks = some b)
    (hdirty : (s.blocks b).iostate = .dirty) (hn : nlock = 1) (hok : ∀ k', k = some k' → k'.Ok)
    (hk : ∀ q, k ≠ some (.look q)) :
    Inv ((s.set b { s.blocks b with nlock := nlock }).diskWrite (.client c) b k) := by
  have hold := hi.block b
  have hlkp := (hi.owner _ b).1 hlocks
  have hset : (s.set b { s.blocks b with nlock := nlock }).blockSetIOState b .writing =
      s.set b { s.blocks b with
        nlock := nlock, ref := (s.blocks b).ref + 1, iostate := .writing } := by
    simp [Cache.blockSetIOState]
  rw [Cache.diskWrite, if_pos (by simp [hn, hdirty]), hset]
  refine hi.diskQueue ⟨hlocks, .rest, rfl, hn, rfl, fun _ => rfl,
    hok, fun q h => absurd h (hk q), fun _ => rfl,
      ⟨?_, fun _ => by simp, fun _ => rfl, ?_, fun _ => hn⟩,
    ?_, ?_, ?_⟩
  · intro hv
    have := hold.venti hv
    rw [hdirty] at this
    simp at this
  · exact fun _ => hn.le
  · rw [hdirty]
    rfl
  · rw [hdirty]
    rfl
  · intro hmem
    have := (hi.queue b).2 (.inl hmem)
    rw [hdirty] at this
    cases this

/-- **`diskWriteAndWait`** keeps the invariant. -/
theorem Inv.writeAndWait (hp : s.proc (.client c) = .holding b false)
    (hdirty : (s.blocks b).iostate = .dirty) :
    Inv ((s.set b { s.blocks b with nlock := 1 }).diskWrite (.client c) b
      (some (.clean (s.blocks b).nlock))) := by
  refine hi.diskWrite (by rw [hp]; rfl) hdirty rfl (fun k hk => ?_) (by simp)
  cases hk
  exact (hi.holding hp).1

/-- What a process knows in `blockWrite`. -/
theorem Inv.pruning {n : ℕ} {dmap : List ℕ}
    (hp : s.proc (.client c) = .pruning b n dmap flush) :
    (s.blocks b).nlock = 1 ∧ (s.blocks b).iostate = .dirty := by
  have hfits := hi.fits (.client c) b (by rw [hp]; rfl)
  rw [hp] at hfits
  exact hfits

/-- `blockWrite` of a block that is dirty, and locked once, begins its loop. -/
theorem Inv.startWrite (hp : s.proc (.client c) = .holding b flush) (hn : (s.blocks b).nlock = 1)
    (hdirty : (s.blocks b).iostate = .dirty) : Inv (s.go (.client c) (.pruning b 0 [] flush)) :=
  hi.goHold (by rw [hp]; rfl) rfl (by rw [hp]; simp) (by simp) trivial (fun k h => by cases h)
    ⟨hn, hdirty⟩ fun _ => .inl (by rw [hdirty]; rfl)

/-- **The loop of `blockWrite`** keeps the invariant. -/
theorem Inv.prune {n : ℕ} {dmap : List ℕ} {ans : Answer}
    (hp : s.proc (.client c) = .pruning b n dmap flush)
    (ht : s.prune (.client c) b n dmap flush ans = some t) : Inv t := by
  obtain ⟨hn, hdirty⟩ := hi.pruning hp
  have hold := hi.block b
  have hlocks : (s.proc (.client c)).locks = some b := by rw [hp]; rfl
  have hpq : ∀ k, s.proc (.client c) ≠ .queueing b k := by rw [hp]; simp
  have hun : (s.blocks b).iostate.unwritten = true := by rw [hdirty]; rfl
  -- the loop goes on, or `blockWrite` gives up
  have hnext : ∀ n' dmap', Inv (s.go (.client c) (.pruning b n' dmap' flush)) := fun n' dmap' =>
    hi.goHold hlocks rfl hpq (by simp) trivial (fun k h => by cases h) ⟨hn, hdirty⟩
      fun _ => .inl hun
  have hback : Inv (s.go (.client c) (.holding b flush)) := by
    refine hi.goHold hlocks rfl hpq (by simp) trivial (fun k h => by cases h) ?_ fun _ => .inl hun
    rw [Frame.Fits, hdirty]
    exact ⟨hn.ge, rfl, by simp, by simp, fun _ => by simp⟩
  have hwithout : ∀ dmap' prior, Inv ((s.set b { s.blocks b with prior := prior }).go (.client c)
      (.pruning b n dmap' flush)) := fun dmap' prior =>
    hi.hold hlocks rfl hpq (by simp) trivial (fun k h => by cases h)
      .rest rfl ⟨hn, hdirty⟩
      ⟨hold.venti, hold.disk, hold.uhead, hold.unlocked, hold.busy⟩
        (fun _ => .inl hun) rfl rfl id rfl
  rw [Cache.prune] at ht
  cases he : (s.blocks b).prior[n]? with
  | none =>
    rw [he] at ht
    cases ht
    have h := hi.diskWrite (k := none) hlocks hdirty hn (fun k h => by cases h) (by simp)
    rwa [Cache.set_self] at h
  | some e =>
    rw [he] at ht
    simp only at ht
    split at ht
    · cases ht
      exact hwithout _ _
    · split at ht
      · cases ht
        exact hwithout _ _
      · obtain ⟨-, ⟨⟩⟩ := ite_none_right_eq_some.1 ht
        exact hback
      · split at ht
        · cases ht
          exact hwithout _ _
        · split at ht
          · cases ht
            exact hback
          · cases ht
            exact hnext _ _

/-- `superWrite` sleeps. -/
theorem Inv.settle (hp : s.proc (.client c) = .wrote b) :
    Inv ((s.set b { s.blocks b with lk := none }).go (.client c) (.sleeping b .settled)) := by
  have hlocks : (s.proc (.client c)).locks = some b := by rw [hp]; rfl
  have hfits := hi.fits (.client c) b hlocks
  rw [hp] at hfits
  have h : Inv ((s.set b { s.blocks b with nlock := (s.blocks b).nlock, lk := none }).go
      (.client c) (.sleeping b .settled)) :=
    hi.unlock hlocks rfl rfl (by rw [hp]; simp) trivial (fun k h => by cases h)
      (fun _ => by rw [hfits.2]; rfl) hfits.1
  exact h

/-- A process puts a block on the queue, where there is room now. -/
theorem Inv.enqueueWaiting (hp : s.proc (.client c) = .queueing b k) :
    Inv (s.enqueue (.client c) b k) := by
  have hlocks : (s.proc (.client c)).locks = some b := by rw [hp]; rfl
  have hfits := hi.fits (.client c) b hlocks
  have hok := hi.placed (.client c)
  rw [hp] at hfits hok
  have hbusy : (s.blocks b).iostate.busy = true := by
    cases k with
    | none => rw [hfits.2]; rfl
    | some k => exact hfits.2
  have hq : Queueing s c b k (s.blocks b) := by
    refine ⟨hlocks, .rest, rfl, (hi.block b).busy hbusy, hbusy,
      ?_, ?_, ?_, ?_, hi.block b, by rw [hbusy]; rfl, rfl, hi.waiting _ b k hp⟩
    · rintro rfl
      exact hfits.2
    · rintro k' rfl
      exact hok
    · rintro q rfl
      rw [hp]
      rfl
    · refine hi.prior_unwritten (.inr ⟨_, (hi.owner _ b).1 hlocks, ?_⟩)
      rw [hp]
      simp
  have h := hi.enqueue hq
  rwa [Cache.set_self] at h

/-- A process has the lock of its block again. -/
theorem Inv.relock {k : Await} (hp : s.proc (.client c) = .sleeping b k)
    (hlk : (s.blocks b).lk = none) (hx : x.locks = some b) (hxq : ∀ k, x ≠ .queueing b k)
    (hok : x.Ok (.client c)) (hwants : ∀ q, x.wants = some (b, q) → k = .look q)
    (hfits : x.Fits { s.blocks b with lk := some (.client c), nlock := nlock })
    (hbusy : (s.blocks b).iostate.busy = true → nlock = 1) (hn : nlock ≠ 0) :
    Inv ((s.set b { s.blocks b with lk := some (.client c), nlock := nlock }).go
      (.client c) x) := by
  have hold := hi.block b
  have hown : (s.proc (.client c)).block = some b := by rw [hp]; rfl
  have hxb := client_block hok hx
  have hkept : Kept (s.blocks b) { s.blocks b with lk := some (.client c), nlock := nlock } := .rest
  refine hi.work hown hxb (by rw [hp]; simp) hxq hkept ?_ rfl rfl
  refine hi.works hown hxb hkept (.inl hlk) (by rw [if_pos hx]) hok (fun q hq => ?_)
    (fun _ => hfits) (fun k hk => absurd hk (not_sleeping hx))
    ⟨hold.venti, hold.disk, hold.uhead, fun h => (by cases h), hbusy⟩
    (fun h => .inl (hi.prior_unwritten (.inl hlk) h)) rfl fun _ => hn
  obtain rfl := hwants q hq
  exact hi.wants _ b q (by rw [hp]; rfl)

theorem Inv.wakeUp {k : Await} (hp : s.proc (.client c) = .sleeping b k)
    (hlk : (s.blocks b).lk = none) (ht : s.wakeUp (.client c) b k = some t) :
    Inv t := by
  have hn : (s.blocks b).nlock = 1 := by
    have hle := (hi.block b).unlocked hlk
    have hne := hi.slept _ b k hp
    omega
  cases k with
  | look q =>
    cases ht
    exact hi.relock (x := .looking b q) hp hlk rfl (by simp) trivial
      (fun q' h => by cases h; rfl) hn (fun _ => hn) (by omega)
  | clean nlock =>
    have hok := hi.placed (.client c)
    rw [hp] at hok
    rw [Cache.wakeUp] at ht
    obtain ⟨hio, ⟨⟩⟩ := ite_none_right_eq_some.1 ht
    refine hi.relock (x := .holding b false) hp hlk rfl (by simp) trivial (fun q' h => by cases h)
      ?_ (fun h => by rw [hio] at h; cases h) (Nat.pos_iff_ne_zero.1 hok)
    rw [Frame.Fits, hio]
    exact ⟨hok, rfl, by simp, by simp, fun _ => by simp⟩
  | settled =>
    rw [Cache.wakeUp] at ht
    obtain ⟨hio, ⟨⟩⟩ := ite_none_right_eq_some.1 ht
    refine hi.relock (x := .holding b false) hp hlk rfl (by simp) trivial (fun q' h => by cases h)
      ?_ (fun _ => hn) (by omega)
    refine ⟨hn.ge, ?_⟩
    rcases hio with h | h
    all_goals
      simp only [h]
      exact ⟨rfl, by simp, by simp, fun _ => by simp⟩

/-- **`blockPut` up to its section** keeps the invariant: the block has no dependencies, or is to
be written. -/
theorem Inv.blockPut (hp : s.proc (.client c) = x)
    (hx : (∃ flush, x = .holding b flush) ∨ x = .wrote b)
    (hprior : x = .holding b false → (s.blocks b).nlock = 1 → (s.blocks b).prior ≠ [] →
      (s.blocks b).iostate.unwritten = true) : Inv (s.blockPut (.client c) b x) := by
  have hold := hi.block b
  have hlocks : (s.proc (.client c)).locks = some b := by
    rw [hp]
    rcases hx with ⟨flush, rfl⟩ | rfl <;> rfl
  have hpq : ∀ k, s.proc (.client c) ≠ .queueing b k := by
    rw [hp]
    rcases hx with ⟨flush, rfl⟩ | rfl <;> simp
  have hlkp := (hi.owner _ b).1 hlocks
  have hfits := hi.fits (.client c) b hlocks
  rw [hp] at hfits
  by_cases hn : (s.blocks b).nlock = 1
  · rw [blockPut_one hn hlkp]
    refine hi.unlock hlocks rfl rfl hpq trivial (fun k h => by cases h) (fun hne => ?_) rfl
    by_cases hxb : x = .holding b false
    · exact hprior hxb hn hne
    · exact hi.prior_unwritten (.inr ⟨_, hlkp, by rwa [hp]⟩) hne
  · have hgt : 1 < (s.blocks b).nlock := by
      rcases hx with ⟨flush, rfl⟩ | rfl
      · have := hfits.1
        omega
      · exact absurd hfits.1 hn
    have hbusy : (s.blocks b).iostate.busy = false := by
      by_contra hb
      rw [Bool.not_eq_false] at hb
      exact hn (hold.busy hb)
    rw [Cache.blockPut, if_pos hgt]
    refine hi.hold hlocks (by rw [← hp, hlocks]) hpq (by rw [← hp]; exact hpq)
      (by rw [← hp]; exact hi.placed _) (fun k h => by rw [← hp] at h; exact h)
      .rest rfl ?_
      ⟨hold.venti, hold.disk, hold.uhead, ?_, ?_⟩ ?_ rfl rfl (fun _ => ?_) rfl
    · rcases hx with ⟨flush, rfl⟩ | rfl
      · exact ⟨by have := hfits.1; show 1 ≤ (s.blocks b).nlock - 1; omega, hfits.2⟩
      · exact absurd hfits.1 hn
    · exact fun h => absurd (hlkp.symm.trans h) (by simp)
    · intro h
      rw [hbusy] at h
      cases h
    · intro h
      refine (hi.prior b h).imp_right fun ⟨p, hat⟩ => ?_
      have hown := (hi.owner p b).1 (by rw [hat]; rfl)
      rw [hlkp] at hown
      rw [← hp, some.inj hown, hat]
    · show (s.blocks b).nlock - 1 ≠ 0
      omega

end

/-! ### Finding a block -/

/-- What a process knows of a block does not depend on the references. -/
theorem Frame.Fits.congr {y : Frame} {x blk : Block} (h : y.Fits x) (hn : blk.nlock = x.nlock)
    (hio : blk.iostate = x.iostate) : y.Fits blk := by
  cases y with
  | queueing b k =>
    cases k
    all_goals
      simp only [Frame.Fits, hn, hio] at h ⊢
      exact h
  | _ =>
    simp only [Frame.Fits, hn, hio] at h ⊢
    try exact h

/-- `heapDel` takes the block out of the heap. -/
theorem heapDel_eq (s : Cache) (b : ℕ) :
    s.heapDel b = { s with heap := s.heap.remove s.key b } := by
  rw [Cache.heapDel, IndexedHeap.remove]
  cases s.heap.pos b with
  | none => rfl
  | some si =>
    simp only
    split <;> rfl

/-- Taking a block out of the heap. -/
theorem Inv.heapDel (hi : Inv s) (hused : blk.used = (s.blocks b).used) (href : blk.ref ≠ 0) :
    Heaped s b blk (s.heap.remove s.key b) s.now := by
  obtain ⟨he, hordered⟩ := IndexedHeap.remove_spec (x := b) hi.valid hi.ordered
  exact ⟨he.valid, hordered.congr (key_update hused),
    iff_of_false (fun h => h he.pos_eq) fun h => href h.1, he.others⟩

/-- **A process refers to a block** that is in a chain. -/
theorem Inv.take (hi : Inv s) (hp : s.proc (.client c) = .entering q)
    (hfinds : q.finds (s.blocks b) = true) (hc : (s.blocks b).chain ≠ none)
    (hx : x = .locking b q ∧ blk = { s.blocks b with ref := (s.blocks b).ref + 1 } ∨
      (s.blocks b).lk = none ∧ x = .looking b q ∧ blk = { s.blocks b with
        ref := (s.blocks b).ref + 1, lk := some (.client c), nlock := 1 }) :
    Inv { s with
      heap := s.heap.remove s.key b
      blocks := update s.blocks b blk
      proc := update s.proc (.client c) x } := by
  have hold := hi.block b
  have hok : q.ok = true := by
    have h := hi.placed (.client c)
    rwa [hp] at h
  have hnot : (s.blocks b).lk ≠ some (.client c) := by
    intro h
    have := (hi.owner _ b).2 h
    rw [hp] at this
    cases this
  have hkept : Kept (s.blocks b) blk := by
    rcases hx with ⟨-, rfl⟩ | ⟨-, -, rfl⟩ <;> exact .rest
  have href : blk.ref = (s.blocks b).ref + 1 := by
    rcases hx with ⟨-, rfl⟩ | ⟨-, -, rfl⟩ <;> rfl
  have hio : blk.iostate = (s.blocks b).iostate := by
    rcases hx with ⟨-, rfl⟩ | ⟨-, -, rfl⟩ <;> rfl
  have hxb : x.block = some b := by
    rcases hx with ⟨rfl, -⟩ | ⟨-, rfl, -⟩ <;> rfl
  have hpq : ∀ k, s.proc (.client c) ≠ .queueing b k := by rw [hp]; simp
  have hxq : ∀ k, x ≠ .queueing b k := by
    rcases hx with ⟨rfl, -⟩ | ⟨-, rfl, -⟩ <;> simp
  have hworks : Works s (.client c) x b blk := by
    constructor
    case lk_self =>
      rcases hx with ⟨rfl, rfl⟩ | ⟨-, rfl, rfl⟩
      · exact iff_of_false hnot (by simp [Frame.locks])
      · exact iff_of_true rfl rfl
    case lk_other =>
      intro q' hq'
      rcases hx with ⟨-, rfl⟩ | ⟨hlk, -, rfl⟩
      · rfl
      · rw [hlk]
        exact iff_of_false (fun h => hq' (some.inj h).symm) (by simp)
    case fits_other =>
      intro q' _ hlk' y hy
      rcases hx with ⟨-, rfl⟩ | ⟨hlk, -, -⟩
      · exact hy.congr rfl rfl
      · rw [hlk] at hlk'
        cases hlk'
    case block_before => exact fun z hz => by rw [hp] at hz; cases hz
    case locks_before => exact fun z hz => by rw [hp] at hz; cases hz
    case block_after => exact fun z hz => (some.inj (hxb.symm.trans hz)).symm
    case locks_after => exact fun z hz => locks_eq hxb hz
    case placed => rcases hx with ⟨rfl, -⟩ | ⟨-, rfl, -⟩ <;> trivial
    case wants =>
      intro z q' hz
      rw [hkept.finds]
      rcases hx with ⟨rfl, -⟩ | ⟨-, rfl, -⟩
      all_goals
        obtain ⟨rfl, rfl⟩ := Prod.mk.inj (some.inj hz)
        exact ⟨rfl, hok, hfinds⟩
    case fits =>
      intro hlocks
      rcases hx with ⟨rfl, -⟩ | ⟨-, rfl, rfl⟩
      · cases hlocks
      · rfl
    case slept =>
      rintro z k rfl
      rcases hx with ⟨h, -⟩ | ⟨-, h, -⟩ <;> cases h
    case block =>
      rcases hx with ⟨-, rfl⟩ | ⟨-, -, rfl⟩
      · exact ⟨hold.venti, hold.disk, hold.uhead, hold.unlocked, hold.busy⟩
      · exact ⟨hold.venti, hold.disk, hold.uhead, fun h => (by cases h), fun _ => rfl⟩
    case prior =>
      intro hprior
      rcases hx with ⟨-, rfl⟩ | ⟨hlk, -, rfl⟩
      · rcases hi.prior b hprior with h | ⟨p, hat⟩
        · exact .inl h
        · have hpc : p ≠ .client c := by
            rintro rfl
            rw [hp] at hat
            cases hat
          exact .inr ⟨p, (update_of_ne hpc ..).trans hat⟩
      · exact .inl (hi.prior_unwritten (.inl hlk) hprior)
    case refs =>
      have hbefore : (s.proc (.client c)).own b = 0 := by rw [hp]; rfl
      have hafter : x.own b = 1 := if_pos hxb
      rw [hbefore, hafter, href, hio]
    case others =>
      intro q' _ _ hn
      rcases hx with ⟨-, rfl⟩ | ⟨-, -, rfl⟩
      · exact hn
      · exact Nat.one_ne_zero
    case others_want =>
      intro q' _ k hwant
      rw [hkept.finds]
      exact (hi.wants _ b k hwant).2
  exact hi.rework hworks (hi.chains hkept hc) (hi.heapDel hkept.used (by omega))
    (hi.queued (by rw [hio]) (fun q' _ => not_queueing_update hpq hxq q') (by rw [disk_update])
      (by rw [disk_update])) (by rw [hio])

/-- The block that a search fills in is one that it finds. -/
theorem finds_fill {x : Block} (hq : q.ok = true) (h : Option ℕ) :
    q.finds { Query.fill q x with chain := h } = true := by
  cases q <;> simp [Query.finds, Query.fill]

theorem part_fill {x : Block} (hq : q.ok = true) : (Query.fill q x).part ≠ .error := by
  cases q with
  | cacheGlobal score type => simp [Query.fill]
  | _ =>
    simp only [Query.ok, Bool.and_eq_true, decide_eq_true_eq] at hq
    exact hq.1

theorem fill_fields (x : Block) : (Query.fill q x).iostate = x.iostate ∧
    (Query.fill q x).ref = x.ref ∧ (Query.fill q x).nlock = x.nlock ∧
    (Query.fill q x).lk = x.lk ∧ (Query.fill q x).used = x.used ∧
    (Query.fill q x).uhead = x.uhead ∧ (Query.fill q x).prior = x.prior := by
  cases q <;> exact ⟨rfl, rfl, rfl, rfl, rfl, rfl, rfl⟩

/-- The block that `cacheBumpBlock` takes. -/
theorem Inv.idle (hi : Inv s) (hsize : s.heap.size ≠ 0) :
    s.heap.arr 0 < s.nblocks ∧ (s.blocks (s.heap.arr 0)).ref = 0 ∧
      (s.blocks (s.heap.arr 0)).iostate.unwritten = false ∧
      (s.heapDel (s.heap.arr 0)).idleBlock (s.heap.arr 0) = true := by
  have htop := hi.valid.pos_arr 0 (Nat.pos_of_ne_zero hsize)
  generalize s.heap.arr 0 = b at htop
  obtain ⟨hlt, href, hdirty⟩ := (hi.heap_iff b).1 (by rw [htop]; simp)
  obtain ⟨hblock, hbusy⟩ := hi.unused href
  have hun : (s.blocks b).iostate.unwritten = false := by
    cases hio : (s.blocks b).iostate
    case dirty => exact absurd hio hdirty
    case writing =>
      rw [hio] at hbusy
      cases hbusy
    all_goals rfl
  have hprior : (s.blocks b).prior = [] := by
    by_contra hne
    rcases hi.prior b hne with h | ⟨p, hat⟩
    · rw [hun] at h
      cases h
    · exact hblock p (by rw [hat]; rfl)
  have hpos : (s.heap.remove s.key b).pos b = none :=
    (IndexedHeap.remove_erased s.key b hi.valid).pos_eq
  refine ⟨hlt, href, hun, ?_⟩
  simp [Cache.idleBlock, heapDel_eq, hpos, href, hbusy, hdirty, hprior,
    (hi.block b).uhead_nil hun]

/-- The block that a search is given, when it leaves the heap. -/
def bumped (s : Cache) (q : Query) (b : ℕ) : Block :=
  { Query.fill q
      { s.blocks b with
        chain := none, ref := 1, part := .error, l := zeroLabel, iostate := .empty } with
    chain := some (s.hash q) }

/-- The chains without a block. -/
def without (s : Cache) (b : ℕ) : ℕ → List ℕ :=
  match (s.blocks b).chain with
  | none => s.heads
  | some h => Function.update s.heads h ((s.heads h).erase b)

theorem unchain_eq (s : Cache) (b : ℕ) : s.unchain b = { s with
    heads := without s b
    blocks := update s.blocks b { s.blocks b with chain := none } } := by
  rw [Cache.unchain, without]
  cases h : (s.blocks b).chain with
  | none =>
    have hsame : { s.blocks b with chain := none } = s.blocks b := by rw [← h]
    simp only [hsame, update_eq_self]
  | some h' => rfl

theorem hash_congr (h : t.hashSize = s.hashSize) (q : Query) : t.hash q = s.hash q := by
  cases q <;> simp only [Cache.hash, h]

/-- `cacheBumpBlock` finds a block that it may take. -/
theorem load_eq (hs : s.fatal = false)
    (hb : (s.heapDel (s.heap.arr 0)).idleBlock (s.heap.arr 0) = true) :
    s.load p q = { s with
      heap := s.heap.remove s.key (s.heap.arr 0)
      heads := update (without s (s.heap.arr 0)) (s.hash q)
        (s.heap.arr 0 :: without s (s.heap.arr 0) (s.hash q))
      blocks := update s.blocks (s.heap.arr 0) (bumped s q (s.heap.arr 0))
      proc := update s.proc p (.locking (s.heap.arr 0) q) } := by
  have hhash : ∀ t : Cache, t.hashSize = s.hashSize → t.hash q = s.hash q :=
    fun t ht => hash_congr ht q
  rw [Cache.load, Cache.cacheBumpBlock]
  simp only [heapDel_eq] at hb ⊢
  simp only [hb, if_true, unchain_eq, Cache.set, update_self, update_idem]
  rw [if_neg (by simp [hs])]
  simp only [Cache.chain, Cache.go, update_self, update_idem]
  rw [hhash _ rfl]
  rfl

/-- The chains without a block, as sets. -/
theorem Inv.mem_without (hi : Inv s) {h : ℕ} : z ∈ without s b h ↔ z ∈ s.heads h ∧ z ≠ b := by
  rw [without]
  cases hch : (s.blocks b).chain with
  | none =>
    refine ⟨fun hz => ⟨hz, ?_⟩, fun hz => hz.1⟩
    rintro rfl
    have := (hi.chained z h).1 hz
    rw [hch] at this
    cases this
  | some h' =>
    simp only
    by_cases hh : h = h'
    · subst hh
      rw [update_self, (hi.nodup h).mem_erase_iff, and_comm]
    · rw [update_of_ne hh]
      refine ⟨fun hz => ⟨hz, ?_⟩, fun hz => hz.1⟩
      rintro rfl
      have := (hi.chained z h).1 hz
      rw [hch] at this
      exact hh (some.inj this).symm

theorem Inv.nodup_without (hi : Inv s) (b h : ℕ) : (without s b h).Nodup := by
  rw [without]
  cases (s.blocks b).chain with
  | none => exact hi.nodup h
  | some h' =>
    simp only
    by_cases hh : h = h'
    · subst hh
      rw [update_self]
      exact (hi.nodup h).erase b
    · rw [update_of_ne hh]
      exact hi.nodup h

/-- **A block that nobody uses is given to a search**, if no block in a chain is the one. -/
theorem Inv.load (hi : Inv s) (hsize : s.heap.size ≠ 0) (hq : q.ok = true)
    (hp : s.proc (.client c) = .entering q ∨ s.proc (.client c) = .stalled q)
    (hnew : ∀ z, (s.blocks z).chain ≠ none → q.finds (s.blocks z) = false) :
    Inv (s.load (.client c) q) := by
  obtain ⟨hlt, href, hun, hidle⟩ := hi.idle hsize
  rw [load_eq hi.sound hidle]
  generalize s.heap.arr 0 = b at hlt href hun
  obtain ⟨hblock, hbusy⟩ := hi.unused href
  have hlk := hi.unused_lk href
  obtain ⟨hio', href', hnlock', hlk', hused', huhead', hprior'⟩ := fill_fields (q := q)
    { s.blocks b with chain := none, ref := 1, part := .error, l := zeroLabel, iostate := .empty }
  have hfinds : q.finds (bumped s q b) = true := finds_fill hq _
  have hpriors : (s.blocks b).prior = [] := by
    by_contra hne
    rcases hi.prior b hne with h | ⟨p, hat⟩
    · rw [hun] at h
      cases h
    · exact hblock p (by rw [hat]; rfl)
  have hio : (bumped s q b).iostate = .empty := hio'
  have hown : (s.proc (.client c)).block = none := by
    rcases hp with hp | hp <;> rw [hp] <;> rfl
  have hlocks : (s.proc (.client c)).locks = none := by
    rcases hp with hp | hp <;> rw [hp] <;> rfl
  have hpq : ∀ k, s.proc (.client c) ≠ .queueing b k := by
    rcases hp with hp | hp <;> rw [hp] <;> simp
  have hworks : Works s (.client c) (.locking b q) b (bumped s q b) := by
    constructor
    case lk_self =>
      refine iff_of_false (fun h => ?_) (by simp [Frame.locks])
      rw [show (bumped s q b).lk = none from hlk'.trans hlk] at h
      cases h
    case lk_other =>
      intro q' _
      rw [show (bumped s q b).lk = none from hlk'.trans hlk, hlk]
    case fits_other =>
      intro q' _ h
      rw [hlk] at h
      cases h
    case block_before => exact fun z hz => by rw [hown] at hz; cases hz
    case locks_before => exact fun z hz => by rw [hlocks] at hz; cases hz
    case block_after => exact fun z hz => (some.inj hz).symm
    case locks_after => exact fun z hz => by cases hz
    case placed => trivial
    case wants =>
      intro z q' hz
      obtain ⟨rfl, rfl⟩ := Prod.mk.inj (some.inj hz)
      exact ⟨rfl, hq, hfinds⟩
    case fits => exact fun h => by cases h
    case slept => exact fun z k h => by cases h
    case block =>
      refine ⟨fun _ => .inl hio, fun _ => by rw [hio]; simp, fun h => ?_, fun _ => ?_, fun h => ?_⟩
      · exact absurd (huhead'.trans ((hi.block b).uhead_nil hun)) h
      · exact hnlock'.le.trans ((hi.block b).unlocked hlk)
      · rw [hio] at h
        cases h
    case prior => exact fun h => absurd (hprior'.trans hpriors) h
    case refs =>
      have hbefore : (s.proc (.client c)).own b = 0 := if_neg (by rw [hown]; simp)
      have hafter : (Frame.locking b q).own b = 1 := if_pos rfl
      rw [hbefore, hafter, hio, hbusy, href, show (bumped s q b).ref = 1 from href']
      rfl
    case others => exact fun q' _ hat => absurd hat (hblock q')
    case others_want => exact fun q' _ k hwant => absurd (block_of_wants hwant) (hblock q')
  have hchains : Chains s b (bumped s q b)
      (update (without s b) (s.hash q) (b :: without s b (s.hash q))) := by
    have hmem : ∀ z h, z ∈ update (without s b) (s.hash q)
        (b :: without s b (s.hash q)) h ↔ (z = b ∧ h = s.hash q) ∨ z ∈ without s b h := by
      intro z h
      by_cases hh : h = s.hash q
      · rw [hh, update_self, mem_cons]
        simp
      · rw [update_of_ne hh]
        simp [hh]
    refine ⟨by simp [bumped], hlt, part_fill hq, fun h => ?_, fun z hz h => ?_, fun h => ?_,
      fun h hh => ?_, fun z hz hch hsame => ?_⟩
    · rw [hmem, hi.mem_without]
      simp [bumped, eq_comm]
    · rw [hmem, hi.mem_without]
      simp [hz]
    · by_cases hh : h = s.hash q
      · rw [hh, update_self]
        refine nodup_cons.2 ⟨fun h => (hi.mem_without.1 h).2 rfl, hi.nodup_without b _⟩
      · rw [update_of_ne hh]
        exact hi.nodup_without b h
    · rw [hashOf_of_finds hq hfinds]
      exact some.inj hh
    · have := (finds_iff_same hq hfinds).2 hsame
      rw [hnew z hch] at this
      cases this
  refine hi.rework hworks hchains (hi.heapDel hused' ?_)
    (hi.queued ?_ (fun q' _ => not_queueing_update hpq (by simp) q') (by rw [disk_update])
      (by rw [disk_update])) ?_
  · rw [show (bumped s q b).ref = 1 from href']
    exact Nat.one_ne_zero
  · rw [hio, hbusy]
    rfl
  · rw [hio, hun]
    rfl

/-- **The section of a search** keeps the invariant. -/
theorem Inv.enterSection (hi : Inv s) (hp : s.proc (.client c) = .entering q) :
    Inv (s.enterSection (.client c) q) := by
  have hok : q.ok = true := by
    have h := hi.placed (.client c)
    rwa [hp] at h
  have hidle : Inv (s.go (.client c) .idle) :=
    hi.goFree (by rw [hp]; rfl) (by rw [hp]; rfl) rfl rfl trivial
  unfold Cache.enterSection
  cases hfind : s.find q with
  | some b =>
    obtain ⟨hfinds, hc⟩ := hi.find_spec hfind
    have htake : Inv (s.refer (.client c) b q) := by
      simp only [Cache.refer, heapDel_eq]
      exact hi.take hp hfinds hc (.inl ⟨rfl, rfl⟩)
    cases q with
    | localLookup part addr vers w =>
      simp only [Cache.found]
      split
      · exact hidle
      · split
        · exact htake
        · split
          · exact hidle
          · rename_i hlk
            simp only [Cache.referLocked, heapDel_eq]
            exact hi.take hp hfinds hc (.inr ⟨not_not.1 hlk, rfl, rfl⟩)
    | cacheLocal part addr mode epoch =>
      simp only [Cache.found]
      split
      · exact hidle
      · exact htake
    | cacheGlobal score type => exact htake
  | none =>
    have hload : (∀ part addr vers w, q ≠ .localLookup part addr vers w) →
        Inv (if s.heap.size = 0 then s.go (.client c) (.stalled q) else s.load (.client c) q) := by
      intro hq
      split
      · exact hi.goFree (by rw [hp]; rfl) (by rw [hp]; rfl) rfl rfl ⟨hok, hq⟩
      · rename_i hsize
        exact hi.load hsize hok (.inl hp) fun z hz => hi.find_none hok hfind hz
    cases q with
    | localLookup part addr vers w => exact hidle
    | cacheLocal part addr mode epoch => exact hload (by simp)
    | cacheGlobal score type => exact hload (by simp)

/-! ### Putting a block back -/

/-- No block of the heap is as old as the clock goes round, or all of them are. -/
def TickOk (s : Cache) : Prop :=
  (∀ z, s.heap.pos z ≠ none → (s.blocks z).used ≠ s.now) ∨
    ∀ z, s.heap.pos z ≠ none → (s.blocks z).used = s.now

/-- `blockPut` lets the clock tick. -/
def Cache.ticks (s : Cache) (b : ℕ) : Prop :=
  (s.blocks b).ref = 1 ∧ (s.blocks b).iostate ≠ .dirty ∧
    ((s.blocks b).iostate = .empty ∨ (s.blocks b).iostate = .label → s.heap.size = 0)

/-- The order of the heap does not see a tick. -/
theorem Inv.ordered_tick (hi : Inv s) (hb : s.heap.pos b = none) (hok : TickOk s) (blk : Block) :
    IndexedHeap.Ordered
      (fun z => ((update s.blocks b blk z).used - (s.now + 1)).toNat) s.heap := by
  refine hi.ordered.mono fun j hj j' hj' hle => ?_
  have hin : ∀ i < s.heap.size, s.heap.pos (s.heap.arr i) ≠ none ∧ s.heap.arr i ≠ b := by
    intro i hlt
    have hpos := hi.valid.pos_arr i hlt
    refine ⟨by rw [hpos]; simp, fun heq => ?_⟩
    rw [heq, hb] at hpos
    cases hpos
  obtain ⟨hpos, hne⟩ := hin j hj
  obtain ⟨hpos', hne'⟩ := hin j' hj'
  simp only [update_of_ne hne, update_of_ne hne']
  rcases hok with hyoung | hall
  · have h₁ := IndexedHeap.key_tick (hyoung _ hpos)
    have h₂ := IndexedHeap.key_tick (hyoung _ hpos')
    rw [Cache.key, Cache.key] at hle
    omega
  · rw [hall _ hpos, hall _ hpos']

/-- A block comes into the heap. -/
theorem Inv.heapIns (hi : Inv s) (hb : s.heap.pos b = none) {now : UInt32}
    (hord : IndexedHeap.Ordered
      (fun z => ((update s.blocks b blk z).used - now).toNat) s.heap) (href : blk.ref = 0)
    (hio : blk.iostate ≠ .dirty) :
    Heaped s b blk (s.heap.insert
      (fun z => ((update s.blocks b blk z).used - now).toNat) b) now := by
  obtain ⟨hvalid, hordered, -, hmem, hothers⟩ := IndexedHeap.insert_spec hi.valid hord hb
  exact ⟨hvalid, hordered, iff_of_true hmem ⟨href, hio⟩, hothers⟩

/-- What the section of `blockPut` does to its block and its process. -/
theorem Inv.released (hi : Inv s) (hp : s.proc p = .putting b) (hx : x.block = none)
    (hxl : x.locks = none) (hok : x.Ok p) (used : UInt32) :
    Works s p x b { s.blocks b with ref := (s.blocks b).ref - 1, used := used } := by
  have hold := hi.block b
  have href := hi.ref_pos (b := b) (by rw [hp]; rfl)
  have hkept : ∀ k : Query, k.finds { s.blocks b with
      ref := (s.blocks b).ref - 1, used := used } = k.finds (s.blocks b) :=
    fun k => by cases k <;> rfl
  constructor
  case lk_self =>
    refine iff_of_false (fun h => ?_) (by rw [hxl]; simp)
    have := (hi.owner p b).2 h
    rw [hp] at this
    cases this
  case lk_other => exact fun _ _ => Iff.rfl
  case fits_other => exact fun _ _ _ y hy => hy.congr rfl rfl
  case block_before => exact fun z hz => by rw [hp] at hz; exact (some.inj hz).symm
  case locks_before => exact fun z hz => by rw [hp] at hz; cases hz
  case block_after => exact fun z hz => by rw [hx] at hz; cases hz
  case locks_after => exact fun z hz => by rw [hxl] at hz; cases hz
  case placed => exact hok
  case wants => exact fun z q' hz => absurd hz (no_wants hx)
  case fits => exact fun h => by rw [hxl] at h; cases h
  case slept =>
    rintro z k rfl
    cases hx
  case block => exact ⟨hold.venti, hold.disk, hold.uhead, hold.unlocked, hold.busy⟩
  case prior =>
    refine fun h => (hi.prior b h).imp_right fun ⟨q', hat⟩ => ⟨q', ?_⟩
    have hqp : q' ≠ p := by
      rintro rfl
      rw [hp] at hat
      cases hat
    exact (update_of_ne hqp ..).trans hat
  case refs =>
    have hbefore : (s.proc p).own b = 1 := by rw [hp]; exact if_pos rfl
    have hafter : x.own b = 0 := if_neg (by rw [hx]; simp)
    rw [hbefore, hafter]
    show (s.blocks b).ref - 1 + 1 + (s.blocks b).iostate.busy.toNat =
      (s.blocks b).ref + 0 + (s.blocks b).iostate.busy.toNat
    omega
  case others => exact fun _ _ _ h => h
  case others_want =>
    intro q' _ k hwant
    rw [hkept]
    exact (hi.wants q' b k hwant).2

/-- **The section of `blockPut`** keeps the invariant. -/
theorem Inv.putSection (hi : Inv s) (hp : s.proc p = .putting b) (hx : x.block = none)
    (hxl : x.locks = none) (hok : x.Ok p) (htick : s.ticks b → TickOk s)
    (hdisk : p = .disk → x.request = none ∧ x.active = 1) : Inv (s.putSection p b x) := by
  have href := hi.ref_pos (b := b) (by rw [hp]; rfl)
  have hc := hi.chain_of_ref href
  have hpos : s.heap.pos b = none := by
    by_contra hne
    exact href ((hi.heap_iff b).1 hne).2.1
  have hqueued : ∀ used, Queued s (update s.proc p x) b
      { s.blocks b with ref := (s.blocks b).ref - 1, used := used } s.cur s.next s.nqueue := by
    intro used
    refine hi.queued rfl (fun q' _ => not_queueing_update (by rw [hp]; simp) ?_ q') ?_ ?_
    · rintro k rfl
      cases hx
    all_goals
      by_cases hpd : p = .disk
      · subst hpd
        obtain ⟨hreq, hact⟩ := hdisk rfl
        rw [update_self, hp]
        first | exact hreq | exact hact
      · rw [update_of_ne (Ne.symm hpd)]
  have hchains : ∀ used, Chains s b
      { s.blocks b with ref := (s.blocks b).ref - 1, used := used } s.heads := by
    intro used
    have h : Chains s b (s.blocks b) s.heads := hi.chains .rest hc
    exact ⟨h.chain, h.lt, h.part, h.self, h.other, h.nodup, h.hash, h.apart⟩
  have hstay : Heaped s b { s.blocks b with
      ref := (s.blocks b).ref - 1, used := (s.blocks b).used } s.heap s.now →
      Inv ((s.set b { s.blocks b with ref := (s.blocks b).ref - 1 }).go p x) := fun hh =>
    hi.rework (hi.released hp hx hxl hok (s.blocks b).used) (hchains _) hh (hqueued _) rfl
  have hput : ∀ (used now : UInt32), (s.blocks b).ref - 1 = 0 → (s.blocks b).iostate ≠ .dirty →
      IndexedHeap.Ordered (fun z => ((update s.blocks b { s.blocks b with
        ref := (s.blocks b).ref - 1, used := used } z).used - now).toNat) s.heap →
      Inv (({ s.set b { s.blocks b with ref := (s.blocks b).ref - 1, used := used } with
        now := now }.heapIns b).go p x) := by
    intro used now hzero hio hord
    unfold Cache.heapIns
    split
    · rename_i hin
      exact absurd hpos hin
    · exact hi.rework (hi.released hp hx hxl hok used) (hchains _)
        (hi.heapIns hpos hord hzero hio) (hqueued _) rfl
  unfold Cache.putSection
  simp only [if_neg href]
  split
  · rename_i hone
    have hzero : (s.blocks b).ref - 1 = 0 := by omega
    have hused : (s.blocks b).iostate ≠ .dirty → s.ticks b →
        Inv (((s.set b { s.blocks b with ref := (s.blocks b).ref - 1 }).putUsed b).go p x) := by
      intro hio ht
      have h := hput s.now (s.now + 1) hzero hio (hi.ordered_tick hpos (htick ht) _)
      rw [Cache.putUsed, Cache.set_blocks, Cache.set_set]
      exact h
    -- the key of an empty block is that of the root
    have hempty : (s.blocks b).iostate = .empty ∨ (s.blocks b).iostate = .label →
        Inv ((if s.heap.size = 0 then
            (s.set b { s.blocks b with ref := (s.blocks b).ref - 1 }).putUsed b
          else ((s.set b { s.blocks b with ref := (s.blocks b).ref - 1 }).set b
            { (s.set b { s.blocks b with ref := (s.blocks b).ref - 1 }).blocks b with
              used := ((s.set b { s.blocks b with ref := (s.blocks b).ref - 1 }).blocks
                (s.heap.arr 0)).used }).heapIns b).go p x) := by
      intro hio
      have hne : (s.blocks b).iostate ≠ .dirty := by
        rcases hio with h | h <;> rw [h] <;> simp
      split
      · rename_i hsize
        exact hused hne ⟨hone, hne, fun _ => hsize⟩
      · rw [Cache.set_blocks, Cache.set_set]
        refine hput _ s.now hzero hne (hi.ordered.mono fun j hj j' hj' hkey => ?_)
        have hin : ∀ i < s.heap.size, s.heap.arr i ≠ b := by
          intro i hlt heq
          have h := hi.valid.pos_arr i hlt
          rw [heq, hpos] at h
          cases h
        rw [update_of_ne (hin j hj), update_of_ne (hin j' hj')]
        exact hkey
    rw [Cache.putIdle]
    have hsame : ((s.set b { s.blocks b with ref := (s.blocks b).ref - 1 }).blocks b).iostate =
        (s.blocks b).iostate := by rw [Cache.set_blocks]
    split
    case h_1 hio => exact hempty (.inl (hsame.symm.trans hio))
    case h_2 hio => exact hempty (.inr (hsame.symm.trans hio))
    case h_3 hio =>
      exact hstay ⟨hi.valid, hi.ordered.congr (key_update rfl),
        iff_of_false (fun h => h hpos) fun h => h.2 (hsame.symm.trans hio), fun _ _ => Iff.rfl⟩
    case h_4 hne₁ hne₂ hne₃ =>
      rw [hsame] at hne₁ hne₂ hne₃
      exact hused hne₃ ⟨hone, hne₃, fun h => h.elim (fun h => absurd h hne₁) fun h => absurd h hne₂⟩
  · rename_i hne
    exact hstay (hi.heaped .rest href (show (s.blocks b).ref - 1 ≠ 0 by omega))

/-! ### `diskThread` -/

theorem mem_pending : z ∈ pending cur next x ↔ z ∈ cur ++ next ∨ x.request = some z := by
  rw [pending, mem_append, mem_toList]

/-- **`diskThread` takes a block off the queue.** -/
theorem Inv.pop (hi : Inv s) (hp : s.proc .disk = .idle) (hn : s.nqueue ≠ 0) : Inv s.pop := by
  have hpop : ∀ b cur next, (b :: (cur ++ next)).Perm (s.cur ++ s.next) →
      Inv ({ s with cur := cur, next := next }.go .disk (.popped b)) := by
    intro b cur next hperm
    have hdisk : update s.proc .disk (.popped b) .disk = .popped b := update_self ..
    have hpend : (pending cur next (.popped b)).Perm (pending s.cur s.next (s.proc .disk)) := by
      rw [hp]
      exact (perm_append_singleton b (cur ++ next)).trans
        (hperm.trans (.of_eq (append_nil (s.cur ++ s.next)).symm))
    have hlen := hperm.length_eq
    rw [length_cons, length_append, length_append] at hlen
    have hnq := hi.nqueue_eq
    rw [hp] at hnq
    refine hi.move (by rw [hp]; rfl) (by rw [hp]; rfl) rfl rfl trivial (fun z => ?_) ?_ ?_
    all_goals rw [hdisk]
    · exact hpend.mem_iff
    · exact hpend.nodup_iff.2 hi.queue_nodup
    · show s.nqueue = cur.length + next.length + 1
      change s.nqueue = s.cur.length + s.next.length + 0 at hnq
      omega
  rw [Cache.pop]
  cases hcur : s.cur with
  | cons b cur =>
    simp only [hcur, isEmpty_cons, Bool.false_eq_true, if_false]
    exact hpop b cur s.next (by rw [hcur, cons_append])
  | nil =>
    cases hnext : s.next with
    | cons b next =>
      simp only [isEmpty_nil, if_true]
      exact hpop b next [] (by rw [hcur, hnext]; simp)
    | nil =>
      have hnq := hi.nqueue_eq
      rw [hp, hcur, hnext] at hnq
      exact absurd hnq hn

/-- `diskThread` takes the lock. -/
theorem Inv.diskLock (hi : Inv s) (hp : s.proc .disk = .popped b)
    (hlk : (s.blocks b).lk = none) :
    Inv ((s.set b { s.blocks b with lk := some .disk }).go .disk (.serving b)) := by
  have hold := hi.block b
  have hbusy : (s.blocks b).iostate.busy = true :=
    (hi.queue b).2 (.inl (mem_pending.2 (.inr (by rw [hp]; rfl))))
  have href := hi.ref_pos_of_busy hbusy
  have hkept : Kept (s.blocks b) { s.blocks b with lk := some .disk } := .rest
  have hworks : Works s .disk (.serving b) b { s.blocks b with lk := some .disk } := by
    constructor
    case lk_self => exact iff_of_true rfl rfl
    case lk_other =>
      intro q' hq'
      rw [hlk]
      exact iff_of_false (fun h => hq' (some.inj h).symm) (by simp)
    case fits_other =>
      intro q' _ h
      rw [hlk] at h
      cases h
    case block_before => exact fun z hz => by rw [hp] at hz; cases hz
    case locks_before => exact fun z hz => by rw [hp] at hz; cases hz
    case block_after => exact fun z hz => by cases hz
    case locks_after => exact fun z hz => (some.inj hz).symm
    case placed => trivial
    case wants => exact fun z k hz => by cases hz
    case fits => exact fun _ => ⟨hold.busy hbusy, hbusy⟩
    case slept => exact fun z k hz => by cases hz
    case block => exact ⟨hold.venti, hold.disk, hold.uhead, fun h => (by cases h), hold.busy⟩
    case prior => exact fun h => .inl (hi.prior_unwritten (.inl hlk) h)
    case refs =>
      rw [hp]
      rfl
    case others => exact fun _ _ _ h => h
    case others_want =>
      intro q' _ k hwant
      rw [hkept.finds]
      exact (hi.wants q' b k hwant).2
  refine hi.rework hworks (hi.chains hkept (hi.chain_of_ref href)) (hi.heaped hkept href href)
    (hi.queued rfl (fun q' _ => not_queueing_update (by rw [hp]; simp) (by simp) q') ?_ ?_) rfl
  all_goals
    rw [update_self, hp]
    rfl

/-- **A block comes back from the disk.** -/
theorem Inv.served (hi : Inv s) (hp : s.proc .disk = .serving b) {vers' : UInt32}
    {prior : List Prior} {uhead' : List BList} (hbusy' : st.busy = false)
    (hventi : (s.blocks b).part = .venti → st = .empty ∨ st = .clean ∨ st = .ventiError)
    (hdisk : (s.blocks b).part ≠ .venti → st ≠ .ventiError)
    (huhead : uhead ≠ [] → st.unwritten = true) (hprior : prior ≠ [] → st.unwritten = true)
    (hn : ndirty + (s.blocks b).iostate.unwritten.toNat = s.ndirty + st.unwritten.toNat) :
    Inv { s with
      blocks := update s.blocks b { s.blocks b with
        prior := prior, uhead := uhead, vers := vers, iostate := st, nlock := 1, lk := none }
      proc := update s.proc .disk (.putting b)
      ndirty := ndirty, vers := vers', uhead := uhead' } := by
  have hlocks : (s.proc .disk).locks = some b := by rw [hp]; rfl
  have hlk := (hi.owner .disk b).1 hlocks
  have hfits := hi.fits .disk b hlocks
  rw [hp] at hfits
  obtain ⟨hnlock, hbusy⟩ := hfits
  have href := hi.ref_pos_of_busy hbusy
  have hkept : Kept (s.blocks b) { s.blocks b with
      prior := prior, uhead := uhead, vers := vers, iostate := st, nlock := 1, lk := none } := .rest
  have hgone : ∀ z, z ∈ pending s.cur s.next (.putting b) ↔ z ∈ s.cur ++ s.next := by
    intro z
    rw [mem_pending]
    exact or_iff_left (by simp [Frame.request])
  have hself : update s.proc .disk (.putting b) .disk = .putting b := update_self ..
  have hnodup := hi.queue_nodup
  rw [hp] at hnodup
  have hnot : b ∉ s.cur ++ s.next := by
    intro hmem
    exact (nodup_append.1 hnodup).2.2 b hmem b (by simp [Frame.request]) rfl
  have hworks : Works s .disk (.putting b) b { s.blocks b with
      prior := prior, uhead := uhead, vers := vers, iostate := st, nlock := 1, lk := none } := by
    constructor
    case lk_self => exact iff_of_false (by simp) (by simp [Frame.locks])
    case lk_other =>
      intro q' hq'
      rw [hlk]
      exact iff_of_false (by simp) fun h => hq' (some.inj h).symm
    case fits_other =>
      intro q' hq' h
      rw [hlk] at h
      exact absurd (some.inj h).symm hq'
    case block_before => exact fun z hz => by rw [hp] at hz; cases hz
    case locks_before => exact fun z hz => by rw [hp] at hz; exact (some.inj hz).symm
    case block_after => exact fun z hz => (some.inj hz).symm
    case locks_after => exact fun z hz => by cases hz
    case placed => trivial
    case wants => exact fun z k hz => by cases hz
    case fits => exact fun h => by cases h
    case slept => exact fun z k hz => by cases hz
    case block =>
      refine ⟨hventi, hdisk, huhead, fun _ => le_rfl, fun h => ?_⟩
      exact absurd (hbusy'.symm.trans h) (by simp)
    case prior => exact fun h => .inl (hprior h)
    case refs =>
      rw [hp, hbusy, hbusy']
      show (s.blocks b).ref + 0 + 1 = (s.blocks b).ref + Frame.own (.putting b) b + 0
      rw [show (Frame.putting b).own b = 1 from if_pos rfl]
    case others => exact fun _ _ _ _ => Nat.one_ne_zero
    case others_want =>
      intro q' _ k hwant
      rw [hkept.finds]
      exact (hi.wants q' b k hwant).2
  refine hi.rework hworks (hi.chains hkept (hi.chain_of_ref href)) (hi.heaped hkept href href)
    ⟨?_, fun z hz => ?_, ?_, fun q' k hk => ?_, ?_⟩ hn
  · rw [hself]
    simpa [pending, Frame.request] using (nodup_append.1 hnodup).1
  · rw [hself, hgone, mem_pending, hp]
    exact (or_iff_left fun h => hz (some.inj h).symm).symm
  · rw [hself, hgone]
    refine iff_of_false (by simp [hbusy']) ?_
    rintro (hmem | ⟨q', k, hk⟩)
    · exact hnot hmem
    · have hold := (not_queueing_update (p := .disk) (x := .putting b) (by rw [hp]; simp) (by simp)
        q').1 hk
      have hown := (hi.owner q' b).1 (by rw [hold]; rfl)
      rw [hlk] at hown
      cases hown
      rw [hp] at hold
      cases hold
  · rw [hself, hgone]
    exact hnot
  · rw [hself]
    have hnq := hi.nqueue_eq
    rwa [hp] at hnq

/-- **`diskThread` serves a request**, if no write fails. -/
theorem Inv.serve (hi : Inv s) (hp : s.proc .disk = .serving b) {ok : Bool}
    (hok : (s.blocks b).iostate = .writing → ok = true) : Inv (s.serve b ok) := by
  have hold := hi.block b
  have hlocks : (s.proc .disk).locks = some b := by rw [hp]; rfl
  have hlk := (hi.owner .disk b).1 hlocks
  have hfits := hi.fits .disk b hlocks
  rw [hp] at hfits
  obtain ⟨hnlock, hbusy⟩ := hfits
  have hprior : (s.blocks b).prior ≠ [] → (s.blocks b).iostate.unwritten = true :=
    hi.prior_unwritten (.inr ⟨_, hlk, by rw [hp]; simp⟩)
  have hpart : (s.blocks b).part ≠ .venti := by
    intro hv
    rcases hold.venti hv with h | h | h
    all_goals
      rw [h] at hbusy
      cases hbusy
  rw [Cache.serve]
  cases hio : (s.blocks b).iostate
  case reading =>
    have hun : (s.blocks b).iostate.unwritten = false := by rw [hio]; rfl
    have hu := hold.uhead_nil hun
    cases ok with
    | true =>
      have hset : s.blockSetIOState b .clean =
          s.set b { s.blocks b with prior := [], iostate := .clean } := by
        simp [Cache.blockSetIOState, hun, hu]
      simp only [if_true]
      rw [hset, blockPut_one (by rw [Cache.set_blocks]; exact hnlock)
        (by rw [Cache.set_blocks]; exact hlk), Cache.set_blocks,
        Cache.set_set]
      exact hi.served hp rfl (fun h => absurd h hpart) (fun _ => by simp) (fun h => absurd hu h)
        (fun h => absurd rfl h) (by rw [hun]; rfl)
    | false =>
      have hset : s.blockSetIOState b .readError =
          s.set b { s.blocks b with iostate := .readError } := rfl
      simp only [Bool.false_eq_true, if_false]
      rw [hset, blockPut_one (by rw [Cache.set_blocks]; exact hnlock)
        (by rw [Cache.set_blocks]; exact hlk), Cache.set_blocks,
        Cache.set_set]
      exact hi.served hp rfl (fun h => absurd h hpart) (fun _ => by simp) (fun h => absurd hu h)
        (fun h => absurd (nil_of_unwritten hprior hun) h) (by rw [hun]; rfl)
  case writing =>
    obtain rfl := hok hio
    have hun : (s.blocks b).iostate.unwritten = true := by rw [hio]; rfl
    simp only [if_true]
    by_cases hnil : (s.blocks b).prior = []
    · have hset : s.blockSetIOState b .clean =
          { s.set b { s.blocks b with
              prior := [], uhead := [], vers := s.vers, iostate := .clean } with
            ndirty := s.ndirty - 1
            vers := s.vers + 1
            uhead := s.uhead ++ (s.blocks b).uhead } := by
        simp [Cache.blockSetIOState, hun]
      have hpos : 0 < s.ndirty := by
        rw [hi.ndirty_eq, countP_pos_iff]
        exact ⟨b, mem_range.2 (hi.lt b (hi.chain_of_ref (hi.ref_pos_of_busy hbusy))), hun⟩
      rw [if_pos (by rw [hnil]; rfl), hset, blockPut_one (by simp [Cache.set, hnlock])
        (by simpa [Cache.set] using hlk)]
      have h : Inv { s with
          blocks := update s.blocks b { s.blocks b with
            prior := [], uhead := [], vers := s.vers, iostate := .clean, nlock := 1, lk := none }
          proc := update s.proc .disk (.putting b)
          ndirty := s.ndirty - 1, vers := s.vers + 1, uhead := s.uhead ++ (s.blocks b).uhead } := by
        refine hi.served hp rfl (fun h => absurd h hpart) (fun _ => by simp)
          (fun h => absurd rfl h) (fun h => absurd rfl h) ?_
        rw [hun]
        show s.ndirty - 1 + 1 = s.ndirty + 0
        omega
      simpa [Cache.set, Cache.go] using h
    · have hset : s.blockSetIOState b .dirty =
          { s.set b { s.blocks b with vers := s.vers, iostate := .dirty } with
            vers := s.vers + 1 } := by
        simp [Cache.blockSetIOState, hio]
      rw [if_neg (by simpa using hnil), hset, blockPut_one (by simp [Cache.set, hnlock])
        (by simpa [Cache.set] using hlk)]
      have h : Inv { s with
          blocks := update s.blocks b { s.blocks b with
            prior := (s.blocks b).prior, uhead := (s.blocks b).uhead, vers := s.vers
            iostate := .dirty, nlock := 1, lk := none }
          proc := update s.proc .disk (.putting b)
          ndirty := s.ndirty, vers := s.vers + 1, uhead := s.uhead } :=
        hi.served hp rfl (fun h => absurd h hpart) (fun _ => by simp) (fun _ => rfl) (fun _ => rfl)
          (by rw [hun]; rfl)
      simpa [Cache.set, Cache.go] using h
  all_goals
    rw [hio] at hbusy
    cases hbusy

/-- `diskThread` has finished. -/
theorem Inv.finish (hi : Inv s) (hp : s.proc .disk = .finishing) :
    Inv ({ s with nqueue := s.nqueue - 1 }.go .disk .idle) := by
  have hdisk : update s.proc .disk .idle .disk = .idle := update_self ..
  have hnq := hi.nqueue_eq
  have hnd := hi.queue_nodup
  rw [hp] at hnq hnd
  refine hi.move (by rw [hp]; rfl) (by rw [hp]; rfl) rfl rfl trivial (fun z => ?_) ?_ ?_
  all_goals rw [hdisk]
  · rw [hp]
    rfl
  · exact hnd
  · change s.nqueue = s.cur.length + s.next.length + 1 at hnq
    show s.nqueue - 1 = s.cur.length + s.next.length + 0
    omega

/-- `flushFill` finds `c->ndirty` right. -/
theorem Inv.flushFill_eq (hi : Inv s) : s.flushFill = s := by
  have hcount : ((List.range s.nblocks).countP fun b =>
      (s.blocks b).part ≠ .error && (s.blocks b).iostate.unwritten) = s.ndirty := by
    rw [hi.ndirty_eq]
    refine countP_congr fun b _ => ?_
    simp only [Bool.and_eq_true, decide_eq_true_eq, and_iff_right_iff_imp]
    intro hun
    refine hi.part b fun hc => ?_
    rw [(hi.fresh b hc).2] at hun
    cases hun
  rw [Cache.flushFill]
  split
  · rfl
  · rw [hcount]

/-! ### Steps -/

/-- What the steps of a run are to meet: no write fails; a search that waited for the heap finds
no block of its own now; a block that was not made dirty has no dependencies when it is put; and
the clock does not pass a block of the heap. `_blockSetLabel` must not fail, as it then puts a
block that its caller puts again. -/
def StepOk (s : Cache) : Act → Prop
  | .serve ok => ∀ b, s.proc .disk = .serving b → (s.blocks b).iostate = .writing → ok = true
  | .resume c => ∀ q, s.proc (.client c) = .stalled q →
      ∀ b, (s.blocks b).chain ≠ none → q.finds (s.blocks b) = false
  | .put c => ∀ b, s.proc (.client c) = .holding b false → (s.blocks b).nlock = 1 →
      (s.blocks b).prior ≠ [] → (s.blocks b).iostate.unwritten = true
  | .putSection c => ∀ b, s.proc (.client c) = .putting b → s.ticks b → TickOk s
  | .diskPut => ∀ b, s.proc .disk = .putting b → s.ticks b → TickOk s
  | .labelFails _ => False
  | _ => True

/-- **A step keeps the invariant.** -/
theorem Inv.act (hi : Inv s) {a : Act} (hok : StepOk s a) (h : s.act a = some t) : Inv t := by
  cases a with rw [Cache.act] at h
  | call c q =>
    split at h
    · rename_i hp
      obtain ⟨hq, ⟨⟩⟩ := ite_none_right_eq_some.1 h
      exact hi.goFree (by rw [hp]; rfl) (by rw [hp]; rfl) rfl rfl hq
    · cases h
  | enter c =>
    split at h
    · rename_i q hp
      cases h
      exact hi.enterSection hp
    · cases h
  | resume c =>
    split at h
    · rename_i q hp
      obtain ⟨hsize, ⟨⟩⟩ := ite_none_left_eq_some.1 h
      have hplaced := hi.placed (.client c)
      rw [hp] at hplaced
      exact hi.load hsize hplaced.1 (.inr hp) (hok q hp)
    · cases h
  | lock c =>
    split at h
    · rename_i b q hp
      obtain ⟨hlk, ⟨⟩⟩ := ite_none_right_eq_some.1 h
      exact hi.lockBlock hp hlk
    · cases h
  | check c l =>
    split at h
    · rename_i b q hp
      cases h
      exact hi.check hp l
    · cases h
  | look c ok =>
    split at h
    · rename_i b q hp
      cases h
      exact hi.look hp ok
    · cases h
  | enqueue c =>
    split at h
    · rename_i b k hp
      obtain ⟨-, ⟨⟩⟩ := ite_none_right_eq_some.1 h
      exact hi.enqueueWaiting hp
    · cases h
  | wake c =>
    split at h
    · rename_i b k hp
      obtain ⟨hlk, h⟩ := ite_none_right_eq_some.1 h
      exact hi.wakeUp hp hlk h
    · cases h
  | dup c =>
    split at h
    · rename_i b flush hp
      cases h
      exact hi.dup hp
    · cases h
  | label c l =>
    split at h
    · rename_i b hp
      obtain ⟨hpart, ⟨⟩⟩ := ite_none_right_eq_some.1 h
      exact hi.setLabel hp hpart l
    · cases h
  | labelFails c => exact hok.elim
  | dirty c =>
    split at h
    · rename_i b hp
      exact hi.blockDirty hp h
    · cases h
  | depend c c' index =>
    split at h
    · rename_i b bb hp _
      exact hi.blockDependency hp h
    · cases h
  | unlink c p =>
    split at h
    · rename_i b hp
      exact hi.blockRemoveLink hp h
    · cases h
  | writeAndWait c =>
    split at h
    · rename_i b hp
      obtain ⟨hdirty, ⟨⟩⟩ := ite_none_right_eq_some.1 h
      exact hi.writeAndWait hp hdirty.1
    · cases h
  | write c =>
    split at h
    · rename_i b flush hp
      obtain ⟨hn, h⟩ := ite_none_left_eq_some.1 h
      split at h
      · cases h
        exact hi
      · rename_i hdirty
        cases h
        exact hi.startWrite hp (not_not.1 hn) (not_not.1 hdirty)
    · cases h
  | prune c ans =>
    split at h
    · rename_i b n dmap flush hp
      exact hi.prune hp h
    · cases h
  | settle c =>
    split at h
    · rename_i b hp
      cases h
      exact hi.settle hp
    · cases h
  | put c =>
    split at h
    · rename_i b flush hp
      cases h
      exact hi.blockPut hp (.inl ⟨flush, rfl⟩) fun hx => hok b (hp.trans hx)
    · rename_i b hp
      cases h
      exact hi.blockPut hp (.inr rfl) fun hx => by cases hx
    · cases h
  | putSection c =>
    split at h
    · rename_i b hp
      cases h
      exact hi.putSection hp rfl rfl trivial (hok b hp) (by simp)
    · rename_i b hp
      have hplaced := hi.placed (.client c)
      rw [hp] at hplaced
      exact hplaced.elim
    · cases h
  | pop =>
    split at h
    · rename_i hp
      obtain ⟨hn, ⟨⟩⟩ := ite_none_left_eq_some.1 h
      exact hi.pop hp hn
    · cases h
  | diskLock =>
    split at h
    · rename_i b hp
      have hbusy : (s.blocks b).iostate.busy = true :=
        (hi.queue b).2 (.inl (mem_pending.2 (.inr (by rw [hp]; rfl))))
      obtain ⟨hlk, h⟩ := ite_none_left_eq_some.1 h
      rw [if_pos ((hi.block b).busy hbusy)] at h
      cases h
      exact hi.diskLock hp (not_not.1 hlk)
    · cases h
  | serve ok =>
    split at h
    · rename_i b hp
      cases h
      exact hi.serve hp (hok b hp)
    · cases h
  | diskPut =>
    split at h
    · rename_i b hp
      cases h
      exact hi.putSection hp rfl rfl trivial (hok b hp) fun _ => ⟨rfl, rfl⟩
    · cases h
  | finish =>
    split at h
    · rename_i hp
      cases h
      exact hi.finish hp
    · cases h
  | flushFill =>
    cases h
    rw [hi.flushFill_eq]
    exact hi
  | unlinkBody =>
    cases h
    exact { hi with }

/-- The invariant holds at the beginning. -/
theorem inv_start (n : ℕ) : Inv (start n) where
  sound := rfl
  valid := by
    refine ⟨fun i hi => if_pos hi, fun b i hb => ?_⟩
    change (if b < n then some b else none) = some i at hb
    obtain ⟨hlt, ⟨⟩⟩ := ite_none_right_eq_some.1 hb
    exact ⟨hlt, rfl⟩
  ordered _ _ _ := le_rfl
  heap_iff b := by
    change (if b < n then some b else none) ≠ none ↔ b < n ∧ 0 = 0 ∧ IoState.empty ≠ .dirty
    split <;> simp_all
  fresh _ _ := ⟨rfl, rfl⟩
  lt _ h := absurd rfl h
  part _ h := absurd rfl h
  chained b h := iff_of_false not_mem_nil (by simp [start])
  nodup _ := nodup_nil
  hash _ _ h := by cases h
  unique _ _ h := absurd rfl h
  ndirty_eq := by
    refine (countP_eq_zero.2 fun b _ => ?_).symm
    simp [start, IoState.unwritten]
  refs _ := ⟨∅, fun p => iff_of_false (Finset.notMem_empty p) (by simp [start, Frame.block]), rfl⟩
  owner _ _ := iff_of_false (by simp [start, Frame.locks]) (by simp [start])
  fits _ _ h := by cases h
  placed p := by cases p <;> trivial
  wants _ _ _ h := by cases h
  slept _ _ _ h := by cases h
  block _ := ⟨fun _ => .inl rfl, fun _ => by simp [start], fun h => absurd rfl h,
    fun _ => Nat.zero_le 1, fun h => by cases h⟩
  prior _ h := absurd rfl h
  queue_nodup := nodup_nil
  queue b := by
    refine iff_of_false (by simp [start, IoState.busy]) ?_
    rintro (h | ⟨p, k, h⟩)
    · exact absurd h not_mem_nil
    · cases h
  waiting _ _ _ h := by cases h
  nqueue_eq := rfl

/-! ### Runs -/

/-- **What the cache promises.** -/
structure Right (s : Cache) : Prop where
  place : ∀ i < s.heap.size, s.heap.pos (s.heap.arr i) = some i
  order : IndexedHeap.Ordered s.key s.heap
  /-- A block is in the heap exactly when it is unreferenced and not dirty. -/
  idle : ∀ b < s.nblocks, s.heap.pos b ≠ none ↔
    (s.blocks b).ref = 0 ∧ (s.blocks b).iostate ≠ .dirty
  ndirty_eq : s.ndirty = (List.range s.nblocks).countP fun b =>
    (s.blocks b).iostate = .dirty ∨ (s.blocks b).iostate = .writing
  /-- A block that is read or written is on the disk queue or in the hands of `diskThread`; or the
  process that has its lock is inside `diskQueue`, and waits for room. -/
  queued : ∀ b, (s.blocks b).iostate = .reading ∨ (s.blocks b).iostate = .writing →
    b ∈ pending s.cur s.next (s.proc .disk) ∨
      ∃ p k, (s.blocks b).lk = some p ∧ s.proc p = .queueing b k
  unique_local : ∀ h, ∀ b ∈ s.heads h, ∀ h', ∀ b' ∈ s.heads h', (s.blocks b).part ≠ .venti →
    (s.blocks b).part = (s.blocks b').part → (s.blocks b).addr = (s.blocks b').addr → b = b'
  unique_venti : ∀ h, ∀ b ∈ s.heads h, ∀ h', ∀ b' ∈ s.heads h', (s.blocks b).part = .venti →
    (s.blocks b').part = .venti → (s.blocks b).score = (s.blocks b').score →
    (s.blocks b).l.type = (s.blocks b').l.type → b = b'
  /-- No assertion has failed. -/
  sound : s.fatal = false

theorem unwritten_iff (st : IoState) :
    st.unwritten = true ↔ st = .dirty ∨ st = .writing := by cases st <;> simp [IoState.unwritten]

theorem busy_iff (st : IoState) : st.busy = true ↔ st = .reading ∨ st = .writing := by
  cases st <;> simp [IoState.busy]

theorem Inv.right (hi : Inv s) : Right s where
  place := hi.valid.pos_arr
  order := hi.ordered
  idle b hb := (hi.heap_iff b).trans (and_iff_right hb)
  ndirty_eq := by
    rw [hi.ndirty_eq]
    refine countP_congr fun b _ => ?_
    rw [unwritten_iff, decide_eq_true_eq]
  queued b hb := ((hi.queue b).1 ((busy_iff _).2 hb)).imp_right fun ⟨p, k, hp⟩ =>
    ⟨p, k, (hi.owner p b).1 (by rw [hp]; rfl), hp⟩
  unique_local h b hb h' b' hb' hv hpart haddr := by
    refine hi.unique b b' ?_ ?_ ⟨hpart, ?_⟩
    · rw [(hi.chained b h).1 hb]
      simp
    · rw [(hi.chained b' h').1 hb']
      simp
    · rw [if_neg hv]
      exact haddr
  unique_venti h b hb h' b' hb' hv hv' hscore htype := by
    refine hi.unique b b' ?_ ?_ ⟨hv.trans hv'.symm, ?_⟩
    · rw [(hi.chained b h).1 hb]
      simp
    · rw [(hi.chained b' h').1 hb']
      simp
    · rw [if_pos hv]
      exact ⟨hscore, htype⟩
  sound := hi.sound

/-- **The block cache**: in a run in which no write fails, no search that waited for the heap finds
that another one was faster, no clean block is put with dependencies, every label can be set, and
the clock passes no block of the heap, all is as it should be; and every block that is read or
written is with `diskThread` exactly when no process waits for room on the disk queue. -/
theorem cache_sound (n : ℕ) {acts : List Act} {t : Cache}
    (h : Run (Guarded StepOk Cache.Step) (start n) acts t) :
    Right t ∧ ((∀ b, (t.blocks b).iostate = .reading ∨ (t.blocks b).iostate = .writing →
      b ∈ pending t.cur t.next (t.proc .disk)) ↔ ∀ p b k, t.proc p ≠ .queueing b k) := by
  have hi : Inv t := h.guarded_inv (fun s a t hi hok hstep => hi.act hok hstep.2) (inv_start n)
  refine ⟨hi.right, fun hall p b k hp => ?_, fun hnone b hb => ?_⟩
  · exact hi.waiting p b k hp (hall b ((busy_iff _).1 ((hi.queue b).2 (.inr ⟨p, k, hp⟩))))
  · exact (hi.right.queued b hb).resolve_right fun ⟨p, k, _, hp⟩ => hnone p b k hp

/-- The steps of a run, one after the other. -/
def runAll (s : Cache) (acts : List Act) : Option Cache :=
  acts.foldlM (fun s a => if s.fatal = false then s.act a else none) s

theorem guarded_of_runAll {ok : Cache → Act → Prop} {acts : List Act}
    (hok : ∀ a ∈ acts, ∀ s, ok s a) (h : runAll s acts = some t) :
    Run (Guarded ok Cache.Step) s acts t := by
  refine .of_foldlM (fun s a ha t hstep => ⟨hok a ha s, ?_⟩) h
  split at hstep
  · rename_i hfatal
    exact ⟨hfatal, hstep⟩
  · cases hstep

theorem run_of_runAll {acts : List Act} (h : runAll s acts = some t) : Run Cache.Step s acts t := by
  have hguarded : Run (Guarded (fun _ _ => True) Cache.Step) s acts t :=
    guarded_of_runAll (fun _ _ _ => trivial) h
  exact hguarded.of_guarded

/-- No condition is on these steps. -/
def Act.free : Act → Bool
  | .serve ok => ok
  | .resume _ | .put _ | .putSection _ | .diskPut | .labelFails _ => false
  | _ => true

theorem stepOk_of_free {a : Act} (ha : a.free = true) (s : Cache) : StepOk s a := by
  cases a with
  | serve ok => exact fun _ _ _ => ha
  | resume | put | putSection | diskPut | labelFails => cases ha
  | _ => exact trivial

/-- A block is read, made dirty, and given to the disk. -/
def readAndWrite : List Act :=
  [.call 0 (.cacheLocal .label 0 .readWrite 0), .enter 0, .lock 0, .check 0 none, .look 0 true,
    .pop, .diskLock, .serve true, .wake 0, .look 0 true, .dirty 0, .write 0, .prune 0 .missing]

/-- A block on its way to the disk, from the first use on. -/
theorem cache_sound_writing : ∃ s, Run (Guarded StepOk Cache.Step) (start 1) readAndWrite s ∧
    (s.blocks 0).iostate = .writing ∧ s.ndirty = 1 ∧ Right s ∧
      0 ∈ pending s.cur s.next (s.proc .disk) := by
  have hrun : (runAll (start 1) readAndWrite).map (fun s =>
      ((s.blocks 0).iostate, s.ndirty, s.cur)) = some (.writing, 1, [0]) := by decide +kernel
  obtain ⟨s, hs, hends⟩ := Option.map_eq_some_iff.1 hrun
  obtain ⟨hio, hrest⟩ := Prod.mk.inj hends
  obtain ⟨hdirty, hcur⟩ := Prod.mk.inj hrest
  have hfree : ∀ a ∈ readAndWrite, a.free = true := by decide
  have hguarded := guarded_of_runAll (fun a ha => stepOk_of_free (hfree a ha)) hs
  refine ⟨s, hguarded, hio, hdirty, (cache_sound 1 hguarded).1, mem_pending.2 (.inl ?_)⟩
  rw [hcur]
  exact List.mem_append_left _ (List.mem_singleton_self 0)

/-- A block is read, made dirty and put back; it is flushed, and the disk does not write it. -/
def writeFails : List Act :=
  [.call 0 (.cacheLocal .label 0 .readWrite 0), .enter 0, .lock 0, .check 0 none, .look 0 true,
    .pop, .diskLock, .serve true, .diskPut, .finish, .wake 0, .look 0 true, .dirty 0, .put 0,
    .putSection 0, .call 1 (.localLookup .label 0 0 false), .enter 1, .look 1 true, .write 1,
    .prune 1 .missing, .put 1, .putSection 1, .pop, .diskLock, .serve false, .diskPut, .finish]

/-- **A write that fails**: the block stays in `BioWriting`, in the heap and not on the queue, and
the next search fails an assertion. -/
theorem write_error_lost : ∃ s, Run Cache.Step (start 1) writeFails s ∧ ¬Right s ∧
    ∃ t, Run Cache.Step s [.call 0 (.cacheLocal .label 1 .readOnly 0), .enter 0] t ∧
      t.fatal = true := by
  have hrun : (runAll (start 1) writeFails).map (fun s => ((s.blocks 0).iostate,
      pending s.cur s.next (s.proc .disk), (s.blocks 0).lk,
      (runAll s [.call 0 (.cacheLocal .label 1 .readOnly 0), .enter 0]).map Cache.fatal)) =
        some (.writing, [], none, some true) := by decide +kernel
  obtain ⟨s, hs, hends⟩ := Option.map_eq_some_iff.1 hrun
  obtain ⟨hio, hrest⟩ := Prod.mk.inj hends
  obtain ⟨hpend, hrest⟩ := Prod.mk.inj hrest
  obtain ⟨hlk, hnext⟩ := Prod.mk.inj hrest
  obtain ⟨t, ht, hfatal⟩ := Option.map_eq_some_iff.1 hnext
  refine ⟨s, run_of_runAll hs, fun hright => ?_, t, run_of_runAll ht, hfatal⟩
  rcases hright.queued 0 (.inr hio) with hmem | ⟨p, k, hp, -⟩
  · rw [hpend] at hmem
    cases hmem
  · rw [hlk] at hp
    cases hp

/-- Two processes wait for the heap with the same address. -/
def waitTwice : List Act :=
  [.call 0 (.cacheLocal .label 0 .readWrite 0), .enter 0, .lock 0, .check 0 none, .look 0 true,
    .pop, .diskLock, .serve true, .diskPut, .finish, .wake 0, .look 0 true,
    .call 1 (.cacheLocal .label 1 .readWrite 0), .enter 1, .lock 1, .check 1 none, .look 1 true,
    .pop, .diskLock, .serve true, .diskPut, .finish, .wake 1, .look 1 true,
    .call 2 (.cacheLocal .label 2 .readWrite 0), .enter 2,
    .call 3 (.cacheLocal .label 2 .readWrite 0), .enter 3,
    .put 0, .putSection 0, .put 1, .putSection 1, .resume 2, .resume 3]

/-- **A search that waited for the heap** does not look again: both get a block for the address. -/
theorem duplicate_after_wait : ∃ s, Run Cache.Step (start 2) waitTwice s ∧ ¬Right s := by
  have hrun : (runAll (start 2) waitTwice).map (fun s => (s.heads 0,
      (s.blocks 0).part, (s.blocks 1).part, (s.blocks 0).addr, (s.blocks 1).addr)) =
        some ([1, 0], .label, .label, 2, 2) := by decide +kernel
  obtain ⟨s, hs, hends⟩ := map_eq_some_iff.1 hrun
  obtain ⟨hheads, hrest⟩ := Prod.mk.inj hends
  obtain ⟨hpart, hrest⟩ := Prod.mk.inj hrest
  obtain ⟨hpart', hrest⟩ := Prod.mk.inj hrest
  obtain ⟨haddr, haddr'⟩ := Prod.mk.inj hrest
  refine ⟨s, run_of_runAll hs, fun hright => ?_⟩
  have hsame := hright.unique_local 0 0 (by rw [hheads]; simp) 0 1 (by rw [hheads]; simp)
    (by rw [hpart]; simp) (hpart.trans hpart'.symm) (haddr.trans haddr'.symm)
  cases hsame

/-- **A label that cannot be set**: `_blockSetLabel` puts the data block, and its caller does it
again, without the lock. -/
theorem put_after_label_fails : ∃ s, Run Cache.Step (start 1)
    [.call 0 (.cacheLocal .data 0 .overWrite 0), .enter 0, .lock 0, .check 0 (some zeroLabel),
      .look 0 true, .labelFails 0, .putSection 0, .put 0] s ∧ s.fatal = true := by
  have hrun : (runAll (start 1) [.call 0 (.cacheLocal .data 0 .overWrite 0), .enter 0, .lock 0,
      .check 0 (some zeroLabel), .look 0 true, .labelFails 0, .putSection 0, .put 0]).map
        Cache.fatal = some true := by decide +kernel
  obtain ⟨s, hs, hfatal⟩ := map_eq_some_iff.1 hrun
  exact ⟨s, run_of_runAll hs, hfatal⟩

end BlockState

end Fossil

end Plan9
