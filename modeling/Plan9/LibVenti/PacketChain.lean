import Plan9.LibVenti.PacketHeap

/-!
# Packets as chains of fragments

A packet that is not free owns a chain of fragments: its `first` and the links lead
through them, its `last` is the last of them and its size the sum of theirs
(`Plan9.LibVenti.IsChain`, `Plan9.LibVenti.PacketsOk`; `Plan9.LibVenti.IsPacket` says as
much of a single packet, which may have foreign fragments). No fragment is in two chains;
memory may be. What a packet means, its bytes, is read off the heap by walking the
chain (`Plan9.LibVenti.Heap.abs`).

`Plan9.LibVenti.PacketsOk.change` is how the operations are put together: it suffices
to look at the packets that an operation changes, when the fragments of the others keep
their ranges and bytes.
-/

namespace Plan9

namespace LibVenti

open Lib List Function

/-- The bytes of a chain. -/
def Heap.bytesOf (s : Heap) (l : List FragId) : List UInt8 := l.flatMap s.fragBytes

/-- The size of a chain. -/
def Heap.sizeOf (s : Heap) (l : List FragId) : ℕ := (l.map s.fragSize).sum

/-- The fragments one meets from the first one of a packet. -/
def Heap.frags (s : Heap) (p : ℕ) : List FragId := walk s.next s.count (s.packet p).first

/-- **What the packets mean**: the bytes of those that are not free. -/
def Heap.abs (s : Heap) (p : ℕ) : Option ByteString :=
  if 0 ≤ (s.packet p).size then some (s.bytesOf (s.frags p)) else none

/-- The fragments of `l` are those of the packet, in order. -/
structure IsChain (s : Heap) (p : ℕ) (l : List FragId) : Prop where
  linked : Linked s.next (s.packet p).first l none
  last : (s.packet p).last = l.getLast?
  nodup : l.Nodup

/-- **The packet is the chain `l`** of fragments in use, foreign ones or others, and has the
size of the chain. -/
structure IsPacket (s : Heap) (p : ℕ) (l : List FragId) : Prop where
  frags : FragsOk s l.toFinset
  nodup : l.Nodup
  linked : Linked s.next (s.packet p).first l none
  range : ∀ f ∈ l, (s.frag f).rp ≤ (s.frag f).wp
  size : (s.packet p).size = s.sizeOf l
  alloc : p < s.npacket
  freePacket : ∀ q ∈ s.freePacket, (s.packet q).size = -1 ∧ q < s.npacket

theorem IsPacket.length_lt {s : Heap} {p : ℕ} {l : List FragId} (h : IsPacket s p l) :
    l.length < s.count :=
  length_lt_count h.nodup fun f hf => h.frags.taken f (mem_toFinset.2 hf)

/-- The packets own the fragments in use. -/
structure PacketsOk (s : Heap) (own : ℕ → List FragId) (held : Finset FragId) : Prop where
  ok : HeapOk s held
  mem_held : ∀ f, f ∈ held ↔ ∃ p, f ∈ own p
  disjoint : ∀ p q f, f ∈ own p → f ∈ own q → p = q
  chain : ∀ p, 0 ≤ (s.packet p).size → IsChain s p (own p)
  size : ∀ p, 0 ≤ (s.packet p).size → (s.packet p).size = s.sizeOf (own p)
  dead : ∀ p, (s.packet p).size < 0 → own p = []
  alloc : ∀ p, 0 ≤ (s.packet p).size → p < s.npacket
  freePacket_nodup : s.freePacket.Nodup
  freePacket : ∀ p ∈ s.freePacket, (s.packet p).size = -1 ∧ p < s.npacket

/-- A heap in order. -/
def Heap.Ok (s : Heap) : Prop := ∃ own held, PacketsOk s own held

/-! ### Bytes and sizes -/

variable {held : Finset FragId}

section Chains

variable {s t : Heap} {l l' : List FragId} {f : FragId}

@[simp]
theorem bytesOf_nil (s : Heap) : s.bytesOf [] = [] := rfl

@[simp]
theorem bytesOf_cons : s.bytesOf (f :: l) = s.fragBytes f ++ s.bytesOf l := flatMap_cons

@[simp]
theorem bytesOf_append : s.bytesOf (l ++ l') = s.bytesOf l ++ s.bytesOf l' := flatMap_append

@[simp]
theorem sizeOf_nil (s : Heap) : s.sizeOf [] = 0 := rfl

@[simp]
theorem sizeOf_cons : s.sizeOf (f :: l) = s.fragSize f + s.sizeOf l := by simp [Heap.sizeOf]

@[simp]
theorem sizeOf_append : s.sizeOf (l ++ l') = s.sizeOf l + s.sizeOf l' := by
  simp [Heap.sizeOf]

theorem bytesOf_congr (h : ∀ f ∈ l, t.fragBytes f = s.fragBytes f) : t.bytesOf l = s.bytesOf l := by
  induction l with
  | nil => rfl
  | cons f l ih =>
    rw [bytesOf_cons, bytesOf_cons, h f mem_cons_self, ih fun g hg => h g (mem_cons_of_mem f hg)]

theorem sizeOf_congr (h : ∀ f ∈ l, t.frag f = s.frag f) : t.sizeOf l = s.sizeOf l := by
  rw [Heap.sizeOf, Heap.sizeOf]
  congr 1
  refine map_congr_left fun f hf => ?_
  rw [Heap.fragSize, Heap.fragSize, h f hf]

theorem IsChain.congr {p : ℕ} (h : IsChain s p l) (hfirst : (t.packet p).first = (s.packet p).first)
    (hlast : (t.packet p).last = (s.packet p).last) (hnext : ∀ f ∈ l, t.next f = s.next f) :
    IsChain t p l where
  linked := by
    rw [hfirst]
    exact h.linked.congr hnext
  last := by rw [hlast, h.last]
  nodup := h.nodup

theorem HeapOk.length_bytesOf (h : HeapOk s held) (hl : ∀ f ∈ l, f ∈ held) :
    (s.bytesOf l).length = s.sizeOf l := by
  induction l with
  | nil => rfl
  | cons f l ih =>
    rw [bytesOf_cons, length_append, sizeOf_cons, h.length_fragBytes (hl f mem_cons_self),
      ih fun g hg => hl g (mem_cons_of_mem f hg)]

end Chains

variable {p : ℕ} {t : Heap}

variable {b : ByteString} {held' : Finset FragId}

namespace PacketsOk

variable {s : Heap} {own : ℕ → List FragId} {held : Finset FragId}

variable (h : PacketsOk s own held)

include h

theorem mem : ∀ f ∈ own p, f ∈ held :=
  fun f hf => (h.mem_held f).2 ⟨p, hf⟩

theorem length_lt (hp : 0 ≤ (s.packet p).size) :
    (own p).length < s.count :=
  length_lt_count (h.chain p hp).nodup fun f hf => h.ok.taken f (h.mem f hf)

/-- Walking finds the fragments. -/
theorem frags_eq (hp : 0 ≤ (s.packet p).size) :
    s.frags p = own p := walk_eq (h.chain p hp).linked (h.length_lt hp).le

theorem isPacket (hp : 0 ≤ (s.packet p).size) : IsPacket s p (own p) where
  frags := ⟨fun f hf => h.ok.taken f (h.mem f (mem_toFinset.1 hf)), h.ok.freeFrag_nodup,
    h.ok.freeFrag⟩
  nodup := (h.chain p hp).nodup
  linked := (h.chain p hp).linked
  range f hf := by
    obtain ⟨m, -, -, hlt, -⟩ := h.ok.inMem f (h.mem f hf)
    exact hlt.le
  size := h.size p hp
  alloc := h.alloc p hp
  freePacket := h.freePacket

theorem abs_eq (p : ℕ) :
    s.abs p = if 0 ≤ (s.packet p).size then some (s.bytesOf (own p)) else none := by
  rw [Heap.abs]
  split
  next hp => rw [h.frags_eq hp]
  next => rfl

/-- A packet that has a meaning. -/
theorem of_abs (hp : s.abs p = some b) :
    0 ≤ (s.packet p).size ∧ s.bytesOf (own p) = b ∧ ((s.packet p).size : ℤ) = b.length := by
  rw [h.abs_eq p] at hp
  split at hp
  next hsize =>
    cases hp
    refine ⟨hsize, rfl, ?_⟩
    rw [h.ok.length_bytesOf h.mem]
    exact h.size p hsize
  next => exact absurd hp (by simp)

/-- **Putting an operation together**: `S` are the packets it changes, and each fragment that one of
them has afterwards was with one of them or is new. -/
theorem change (own' : ℕ → List FragId) (S : Set ℕ) (hok : HeapOk t held')
    (hheld : ∀ f, f ∈ held' ↔ (∃ q ∈ S, f ∈ own' q) ∨ f ∈ held ∧ ∀ q ∈ S, f ∉ own q)
    (hnew : ∀ q ∈ S, ∀ f ∈ own' q, (∃ r ∈ S, f ∈ own r) ∨ f ∉ held)
    (hapart : ∀ q ∈ S, ∀ r ∈ S, ∀ f, f ∈ own' q → f ∈ own' r → q = r)
    (hown : ∀ q ∉ S, own' q = own q) (hpacket : ∀ q ∉ S, t.packet q = s.packet q)
    (hframe : ∀ f ∈ held, (∀ q ∈ S, f ∉ own q) →
      t.frag f = s.frag f ∧ t.fragBytes f = s.fragBytes f)
    (hchain : ∀ q ∈ S, 0 ≤ (t.packet q).size → IsChain t q (own' q))
    (hsize : ∀ q ∈ S, 0 ≤ (t.packet q).size → (t.packet q).size = t.sizeOf (own' q))
    (hdead : ∀ q ∈ S, (t.packet q).size < 0 → own' q = []) (hnpacket : s.npacket ≤ t.npacket)
    (halloc : ∀ q ∈ S, 0 ≤ (t.packet q).size → q < t.npacket) (hnodup : t.freePacket.Nodup)
    (hfree : ∀ q ∈ t.freePacket, (t.packet q).size = -1 ∧ q < t.npacket) :
    PacketsOk t own' held' ∧ ∀ q ∉ S, t.abs q = s.abs q := by
  have hout : ∀ q ∉ S, ∀ f ∈ own q, ∀ r ∈ S, f ∉ own r :=
    fun q hq f hf r hr hfr => hq (h.disjoint r q f hfr hf ▸ hr)
  have hcross : ∀ q ∉ S, ∀ r ∈ S, ∀ f ∈ own q, f ∉ own' r := by
    intro q hq r hr f hf hfr
    rcases hnew r hr f hfr with ⟨r', hr', hf'⟩ | hfh
    · exact hout q hq f hf r' hr' hf'
    · exact hfh (h.mem f hf)
  have hfrag : ∀ q ∉ S, ∀ f ∈ own q, t.frag f = s.frag f ∧ t.fragBytes f = s.fragBytes f :=
    fun q hq f hf => hframe f (h.mem f hf) (hout q hq f hf)
  have hmem : ∀ f, f ∈ held' ↔ ∃ p, f ∈ own' p := by
    intro f
    rw [hheld f]
    constructor
    · rintro (⟨q, -, hf⟩ | ⟨hf, hfS⟩)
      · exact ⟨q, hf⟩
      · obtain ⟨q, hq⟩ := (h.mem_held f).1 hf
        exact ⟨q, by rw [hown q fun hS => hfS q hS hq]; exact hq⟩
    · rintro ⟨q, hq⟩
      by_cases hS : q ∈ S
      · exact .inl ⟨q, hS, hq⟩
      · rw [hown q hS] at hq
        exact .inr ⟨h.mem f hq, hout q hS f hq⟩
  have hdisj : ∀ p q f, f ∈ own' p → f ∈ own' q → p = q := by
    intro p q f hp hq
    by_cases hpS : p ∈ S
    · by_cases hqS : q ∈ S
      · exact hapart p hpS q hqS f hp hq
      · rw [hown q hqS] at hq
        exact absurd hp (hcross q hqS p hpS f hq)
    · rw [hown p hpS] at hp
      by_cases hqS : q ∈ S
      · exact absurd hq (hcross p hpS q hqS f hp)
      · rw [hown q hqS] at hq
        exact h.disjoint p q f hp hq
  have hok' : PacketsOk t own' held' := by
    refine ⟨hok, hmem, hdisj, fun p hp => ?_, fun p hp => ?_, fun p hp => ?_, fun p hp => ?_,
      hnodup, hfree⟩
    · by_cases hS : p ∈ S
      · exact hchain p hS hp
      · rw [hpacket p hS] at hp
        rw [hown p hS]
        exact (h.chain p hp).congr (by rw [hpacket p hS]) (by rw [hpacket p hS])
          fun f hf => by rw [Heap.next, Heap.next, (hfrag p hS f hf).1]
    · by_cases hS : p ∈ S
      · exact hsize p hS hp
      · rw [hpacket p hS] at hp ⊢
        rw [hown p hS, sizeOf_congr fun f hf => (hfrag p hS f hf).1]
        exact h.size p hp
    · by_cases hS : p ∈ S
      · exact hdead p hS hp
      · rw [hpacket p hS] at hp
        rw [hown p hS]
        exact h.dead p hp
    · by_cases hS : p ∈ S
      · exact halloc p hS hp
      · rw [hpacket p hS] at hp
        exact lt_of_lt_of_le (h.alloc p hp) hnpacket
  refine ⟨hok', fun q hq => ?_⟩
  rw [hok'.abs_eq, h.abs_eq, hpacket q hq, hown q hq, bytesOf_congr fun f hf => (hfrag q hq f hf).2]

end PacketsOk

/-- What is the same in two heaps but for one packet and its fragments. -/
structure FrameBut (s t : Heap) (p : ℕ) (keep : Finset FragId) : Prop where
  packet : ∀ q ≠ p, t.packet q = s.packet q
  size : (t.packet p).size = (s.packet p).size
  npacket : t.npacket = s.npacket
  freePacket : t.freePacket = s.freePacket
  frag : ∀ f ∈ keep, t.frag f = s.frag f
  bytes : ∀ f ∈ keep, t.fragBytes f = s.fragBytes f

variable {s : Heap} {keep : Finset FragId}

theorem Frame.but (h : Frame s t keep) (p : ℕ) : FrameBut s t p keep :=
  ⟨fun q _ => by rw [h.packet], by rw [h.packet], h.npacket, h.freePacket, h.frag, h.bytes⟩

variable {keep' : Finset FragId}

theorem FrameBut.trans {u : Heap} (h : FrameBut s t p keep) (h' : FrameBut t u p keep')
    (hsub : keep' ⊆ keep) :
    FrameBut s u p keep' where
  packet q hq := (h'.packet q hq).trans (h.packet q hq)
  size := h'.size.trans h.size
  npacket := h'.npacket.trans h.npacket
  freePacket := h'.freePacket.trans h.freePacket
  frag f hf := (h'.frag f hf).trans (h.frag f (hsub hf))
  bytes f hf := (h'.bytes f hf).trans (h.bytes f (hsub hf))

theorem FrameBut.mono (h : FrameBut s t p keep) (hsub : keep' ⊆ keep) : FrameBut s t p keep' :=
  ⟨h.packet, h.size, h.npacket, h.freePacket, fun f hf => h.frag f (hsub hf),
    fun f hf => h.bytes f (hsub hf)⟩

/-- Changes to the ends of a packet. -/
theorem FrameBut.setPacket {x : Packet} (hsize : x.size = (s.packet p).size) (keep : Finset FragId)
    : FrameBut s (s.setPacket p x) p keep where
  packet q hq := by rw [Heap.setPacket_packet, update_of_ne hq]
  size := by rw [Heap.setPacket_packet, update_self, hsize]
  npacket := rfl
  freePacket := rfl
  frag _ _ := rfl
  bytes _ _ := rfl

/-- Work on the chain of one packet: `l` are its fragments before and `l'` afterwards, each
of them an earlier one or new, and those that are not in `l'` any more are free. -/
structure Reworked (s t : Heap) (p : ℕ) (held : Finset FragId) (l : List FragId)
    (held' : Finset FragId) (l' : List FragId) : Prop where
  ok : HeapOk t held'
  held_iff : ∀ f, f ∈ held' ↔ f ∈ l' ∨ f ∈ held ∧ f ∉ l
  new : ∀ f ∈ l', f ∈ l ∨ f ∉ held
  chain : IsChain t p l'
  frame : FrameBut s t p (held \ l.toFinset)

namespace Reworked

variable {s t u : Heap} {p : ℕ} {held held' held'' : Finset FragId} {l l' l'' : List FragId}

theorem refl (h : HeapOk s held) (hchain : IsChain s p l) (hl : ∀ f ∈ l, f ∈ held) :
    Reworked s s p held l held l where
  ok := h
  held_iff f := ⟨fun hf => or_iff_not_imp_left.2 fun hfl => ⟨hf, hfl⟩,
    fun hf => hf.elim (hl f) And.left⟩
  new _ hf := .inl hf
  chain := hchain
  frame := (Frame.refl s _).but p

theorem mem (h : Reworked s t p held l held' l') : ∀ f ∈ l', f ∈ held' :=
  fun f hf => (h.held_iff f).2 (.inl hf)

theorem lt (h : Reworked s t p held l held' l') (hp : p < s.npacket) : p < t.npacket := by
  rw [h.frame.npacket]
  exact hp

/-- The other fragments in use are still in use, and not in the chain. -/
theorem keep_subset (h : Reworked s t p held l held' l') :
    held \ l.toFinset ⊆ held' \ l'.toFinset := by
  intro f hf
  rw [Finset.mem_sdiff, mem_toFinset] at hf ⊢
  refine ⟨(h.held_iff f).2 (.inr hf), fun hfl => ?_⟩
  rcases h.new f hfl with hin | hout
  · exact hf.2 hin
  · exact hout hf.1

theorem trans (h : Reworked s t p held l held' l') (h' : Reworked t u p held' l' held'' l'') :
    Reworked s u p held l held'' l'' where
  ok := h'.ok
  held_iff f := by
    rw [h'.held_iff f]
    constructor
    · rintro (hf | ⟨hf, hfl⟩)
      · exact .inl hf
      · exact ((h.held_iff f).1 hf).elim (fun hin => absurd hin hfl) .inr
    · rintro (hf | hf)
      · exact .inl hf
      · have hin := h.keep_subset (Finset.mem_sdiff.2 ⟨hf.1, by rw [mem_toFinset]; exact hf.2⟩)
        rw [Finset.mem_sdiff, mem_toFinset] at hin
        exact .inr hin
  new f hf := by
    rcases h'.new f hf with hin | hout
    · exact h.new f hin
    · by_contra hnot
      rw [not_or, not_not] at hnot
      exact hout ((h.held_iff f).2 (.inr ⟨hnot.2, hnot.1⟩))
  chain := h'.chain
  frame := h.frame.trans (h'.frame.mono h.keep_subset) subset_rfl

end Reworked

/-- **An operation on one packet** that has rewritten its size and reworked its chain. -/
theorem PacketsOk.replace {own : ℕ → List FragId} {l' : List FragId} {n : ℤ}
    (h : PacketsOk s own held) (hp : 0 ≤ (s.packet p).size)
    (hwork : Reworked (s.setPacket p { s.packet p with size := n }) t p held (own p) held' l')
    (hbytes : t.bytesOf l' = b) (hb : n = b.length) :
    t.Ok ∧ t.abs = update s.abs p (some b) ∧ t.frags p = l' := by
  obtain ⟨hok, hheld, hnew, hchain, hframe⟩ := hwork
  have hpacket : ∀ q ≠ p, t.packet q = s.packet q := by
    intro q hq
    rw [hframe.packet q hq, Heap.setPacket_packet, update_of_ne hq]
  have hsize : (t.packet p).size = b.length := by
    rw [hframe.size, Heap.setPacket_packet, update_self, hb]
  have hlive : 0 ≤ (t.packet p).size := by
    rw [hsize]
    exact Int.natCast_nonneg _
  have hl' : ∀ f ∈ l', f ∈ held' := fun f hf => (hheld f).2 (.inl hf)
  have hchanged := h.change (t := t) (update own p l') {p} hok ?_ ?_ ?_
    (fun q hq => update_of_ne hq ..) hpacket ?_ ?_ ?_ ?_ hframe.npacket.ge ?_ ?_ ?_
  · obtain ⟨hok', habs⟩ := hchanged
    refine ⟨⟨_, _, hok'⟩, funext fun q => ?_, ?_⟩
    · by_cases hq : q = p
      · subst hq
        rw [update_self, hok'.abs_eq, if_pos hlive, update_self, hbytes]
      · rw [update_of_ne hq, habs q hq]
    · rw [hok'.frags_eq hlive, update_self]
  · simpa only [Set.mem_singleton_iff, exists_eq_left, forall_eq, update_self] using hheld
  · simpa only [Set.mem_singleton_iff, exists_eq_left, forall_eq, update_self] using hnew
  · rintro q rfl r rfl f - -
    rfl
  · intro f hf hfp
    have hin : f ∈ held \ (own p).toFinset :=
      Finset.mem_sdiff.2 ⟨hf, fun hin => hfp p rfl (mem_toFinset.1 hin)⟩
    exact ⟨hframe.frag f hin, hframe.bytes f hin⟩
  · rintro q rfl _
    rw [update_self]
    exact hchain
  · rintro q rfl _
    rw [update_self, hsize, ← hbytes, hok.length_bytesOf hl']
  · rintro q rfl hneg
    omega
  · rintro q rfl _
    rw [hframe.npacket]
    exact h.alloc q hp
  · rw [hframe.freePacket]
    exact h.freePacket_nodup
  · intro q hq
    rw [hframe.freePacket] at hq
    obtain ⟨hdead, hlt⟩ := h.freePacket q hq
    rw [hframe.npacket]
    have hqp : q ≠ p := by
      rintro rfl
      omega
    rw [hpacket q hqp]
    exact ⟨hdead, hlt⟩

end LibVenti

end Plan9
