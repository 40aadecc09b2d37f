import Plan9.LibVenti.PacketChain

/-!
# Packets grow and come and go

`packetalloc`, `packetfree`, and the four operations that add bytes at an end of a
packet. These first try to widen the fragment there: only in memory that no other
fragment refers to, since `memhead` and `memtail` abort. What does not fit goes to new
fragments.
-/

namespace Plan9

namespace LibVenti

open Lib List Function

/-- The memory of a fragment has one reference. -/
def Sole (s : Heap) (f : FragId) : Prop := ∀ m, (s.frag f).mem = some m → (s.mem m).ref = 1

/-! ### `packetalloc` and `packetfree` -/

/-- What `packetalloc` finds: a packet that is free, or a new one. -/
structure PacketNew (s t : Heap) (own : ℕ → List FragId) (held : Finset FragId) (p : ℕ) :
    Prop where
  ok : PacketsOk t own held
  own_nil : own p = []
  abs_none : s.abs p = none
  abs_eq : t.abs = Function.update s.abs p (some [])
  packet_self : t.packet p = ⟨0, none, none⟩
  packet : ∀ q ≠ p, t.packet q = s.packet q
  frag : t.frag = s.frag
  mem : t.mem = s.mem

variable {s : Heap} {own : ℕ → List FragId} {held : Finset FragId} {p : ℕ}

/-- The packets of a heap do not matter for its fragments and their memory. -/
theorem HeapOk.withPackets (h : HeapOk s held) (packet : ℕ → Packet) (free : List ℕ) :
    HeapOk { s with packet := packet, freePacket := free } held :=
  ⟨h.taken, h.plain, h.inMem, h.ref, h.size, h.freeFrag_nodup, h.freeFrag, h.freeSmall_nodup,
    h.freeSmall, h.freeBig_nodup, h.freeBig⟩

theorem HeapOk.setPacket (h : HeapOk s held) (p : ℕ) (x : Packet) : HeapOk (s.setPacket p x) held :=
  h.withPackets _ _

theorem packetNew_of {t : Heap} (h : PacketsOk s own held)
    (hdead : (s.packet p).size < 0 ∨ s.npacket ≤ p) (hok : HeapOk t held)
    (hself : t.packet p = ⟨0, none, none⟩) (hother : ∀ q ≠ p, t.packet q = s.packet q)
    (hfrag : t.frag = s.frag) (hmem : t.mem = s.mem) (hnpacket : s.npacket ≤ t.npacket)
    (hp : p < t.npacket) (hnodup : t.freePacket.Nodup)
    (hfree : ∀ q ∈ t.freePacket, q ∈ s.freePacket ∧ q ≠ p) : PacketNew s t own held p := by
  have hneg : (s.packet p).size < 0 := by
    rcases hdead with hneg | hge
    · exact hneg
    · by_contra hnn
      have := h.alloc p (not_lt.1 hnn)
      omega
  have hnil : own p = [] := h.dead p hneg
  have hbytes : ∀ f, t.fragBytes f = s.fragBytes f := by
    intro f
    simp only [Heap.fragBytes, Heap.fragSize, hfrag, hmem]
  have hchanged := h.change (t := t) own {p} hok (by simp [hnil]) (by simp [hnil])
    (by rintro q rfl r rfl f - -; rfl) (fun _ _ => rfl) (fun q hq => hother q hq)
    (fun f _ _ => ⟨by rw [hfrag], hbytes f⟩)
    (by
      rintro q rfl _
      rw [hnil]
      exact ⟨by rw [hself]; rfl, by rw [hself]; rfl, nodup_nil⟩)
    (by
      rintro q rfl _
      rw [hself, hnil]
      rfl)
    (fun q hq hlt => by
      obtain rfl := hq
      exact hnil)
    hnpacket (fun q hq _ => by obtain rfl := hq; exact hp) hnodup
    (fun q hq => by
      obtain ⟨hin, hne⟩ := hfree q hq
      obtain ⟨hsize, hlt⟩ := h.freePacket q hin
      rw [hother q hne]
      exact ⟨hsize, lt_of_lt_of_le hlt hnpacket⟩)
  obtain ⟨hok', habs⟩ := hchanged
  refine ⟨hok', hnil, ?_, funext fun q => ?_, hself, hother, hfrag, hmem⟩
  · rw [h.abs_eq, if_neg (not_le.2 hneg)]
  · by_cases hq : q = p
    · subst hq
      rw [hok'.abs_eq, hself, update_self, hnil]
      rfl
    · rw [update_of_ne hq, habs q hq]

theorem packetalloc_new (h : PacketsOk s own held) :
    Returns packetalloc s fun p t => PacketNew s t own held p := by
  rw [packetalloc, returns_get_bind]
  cases hlist : s.freePacket with
  | cons p rest =>
    obtain ⟨hsize, hlt⟩ := h.freePacket p (by rw [hlist]; exact mem_cons_self)
    have hnodup := h.freePacket_nodup
    rw [hlist, nodup_cons] at hnodup
    simp only
    rw [returns_set_bind]
    refine returns_assert_bind (decide_eq_true hsize) ?_
    rw [returns_modifyPacket_bind, returns_pure]
    refine packetNew_of h (.inl (by omega)) (h.ok.withPackets _ _)
      (by simp) (fun q hq => by simp [update_of_ne hq]) rfl rfl le_rfl hlt hnodup.2
      fun q hq => ⟨?_, ?_⟩
    · rw [hlist]
      exact mem_cons_of_mem p hq
    · rintro rfl
      exact hnodup.1 hq
  | nil =>
    simp only
    rw [returns_set_bind, returns_modifyPacket_bind, returns_pure]
    refine packetNew_of h (.inr le_rfl)
      ⟨fun f hf => ⟨(h.ok.taken f hf).1, ?_⟩, h.ok.plain, h.ok.inMem, h.ok.ref, h.ok.size,
        h.ok.freeFrag_nodup, h.ok.freeFrag, h.ok.freeSmall_nodup, h.ok.freeSmall,
        h.ok.freeBig_nodup, h.ok.freeBig⟩
      (by simp) (fun q hq => by simp [update_of_ne hq]) rfl rfl (Nat.le_succ _)
      (Nat.lt_succ_self _) nodup_nil fun q hq => absurd hq not_mem_nil
    have htaken := (h.ok.taken f hf).2
    cases f with
    | loc q i => exact ⟨Nat.lt_succ_of_lt htaken.1, htaken.2⟩
    | glob k => exact htaken

/-- **`packetalloc`** makes an empty packet. -/
theorem packetalloc_spec (h : s.Ok) : Returns packetalloc s fun p t =>
    t.Ok ∧ s.abs p = none ∧ t.abs = update s.abs p (some []) := by
  obtain ⟨own, held, h⟩ := h
  exact (packetalloc_new h).mono fun p t hnew => ⟨⟨_, _, hnew.ok⟩, hnew.abs_none, hnew.abs_eq⟩

variable {b : ByteString}

/-- **`packetfree`** ends a packet, and no other one. -/
theorem packetfree_spec (h : s.Ok) (hp : s.abs p = some b) :
    Returns (packetfree p) s fun _ t => t.Ok ∧ t.abs = update s.abs p none := by
  obtain ⟨own, held, h⟩ := h
  obtain ⟨hsize, -⟩ := h.of_abs hp
  have hchain := h.chain p hsize
  rw [packetfree]
  refine returns_notFree_bind hsize ?_
  rw [returns_get_bind]
  refine (freeChain_spec h.ok hchain.linked hchain.nodup h.mem (h.length_lt hsize).le).bind ?_
  rintro ⟨⟩ u ⟨hok, hframe⟩
  rw [returns_modifyPacket_bind, returns_modify]
  generalize ht : ({ u.setPacket p ⟨-1, none, none⟩ with
    freePacket := p :: (u.setPacket p ⟨-1, none, none⟩).freePacket } : Heap) = t
  have htself : t.packet p = ⟨-1, none, none⟩ := by rw [← ht]; simp
  have htother : ∀ q ≠ p, t.packet q = s.packet q := by
    intro q hq
    rw [← ht, ← hframe.packet]
    simp [update_of_ne hq]
  have htfrag : t.frag = u.frag := by rw [← ht]; rfl
  have htbytes : ∀ f, t.fragBytes f = u.fragBytes f := by rw [← ht]; exact fun _ => rfl
  have htnpacket : t.npacket = s.npacket := by rw [← ht]; exact hframe.npacket
  have htfree : t.freePacket = p :: s.freePacket := by rw [← ht, ← hframe.freePacket]; rfl
  have htok : HeapOk t (held \ (own p).toFinset) := by
    rw [← ht]
    exact hok.withPackets _ _
  have hnotfree : ∀ q ∈ s.freePacket, q ≠ p := by
    rintro q hq rfl
    have := (h.freePacket q hq).1
    omega
  have hchanged := h.change (t := t) (update own p []) {p} htok ?_ ?_ ?_
    (fun q hq => update_of_ne hq ..) htother ?_ ?_ ?_ ?_ htnpacket.ge ?_ ?_ ?_
  · obtain ⟨hok', habs⟩ := hchanged
    refine ⟨⟨_, _, hok'⟩, funext fun q => ?_⟩
    by_cases hq : q = p
    · subst hq
      rw [hok'.abs_eq, htself, if_neg (by decide), update_self]
    · rw [update_of_ne hq, habs q hq]
  · simp
  · simp
  · rintro q rfl r rfl f - -
    rfl
  · intro f hf hfp
    have hin : f ∈ held \ (own p).toFinset :=
      Finset.mem_sdiff.2 ⟨hf, fun hin => hfp p rfl (mem_toFinset.1 hin)⟩
    exact ⟨by rw [htfrag, hframe.frag f hin], by rw [htbytes, hframe.bytes f hin]⟩
  · rintro q rfl hq
    rw [htself] at hq
    exact absurd hq (by decide)
  · rintro q rfl hq
    rw [htself] at hq
    exact absurd hq (by decide)
  · rintro q rfl _
    exact update_self ..
  · rintro q rfl hq
    rw [htself] at hq
    exact absurd hq (by decide)
  · rw [htfree]
    exact nodup_cons.2 ⟨fun hin => hnotfree p hin rfl, h.freePacket_nodup⟩
  · rw [htfree, htnpacket]
    refine forall_mem_cons.2 ⟨⟨by rw [htself], h.alloc p hsize⟩, fun q hq => ?_⟩
    rw [htother q (hnotfree q hq)]
    exact h.freePacket q hq

/-! ### New fragments -/

/-- A chain with one more fragment, `l` before and `l'` afterwards. -/
structure Linked₁ (s t : Heap) (held : Finset FragId) (p : ℕ) (l l' : List FragId) (f : FragId) :
    Prop where
  ok : HeapOk t held
  chain : IsChain t p l'
  mem_iff : ∀ g, g ∈ l' ↔ g = f ∨ g ∈ l
  frame : FrameBut s t p (held \ l.toFinset)
  bytes : ∀ g ∈ held, t.fragBytes g = s.fragBytes g
  self : t.frag f = s.frag f
  mem : t.mem = s.mem
  nmem : t.nmem = s.nmem

variable {l : List FragId} {f : FragId}

theorem linkLast_spec (h : HeapOk s held) (hchain : IsChain s p l) (hl : ∀ g ∈ l, g ∈ held)
    (hfl : f ∉ l) (hnext : s.next f = none) :
    Returns (linkLast p f) s fun _ t => Linked₁ s t held p l (l ++ [f]) f := by
  have hiff : ∀ g, g ∈ l ++ [f] ↔ g = f ∨ g ∈ l := fun g => by
    rw [mem_append, mem_singleton, or_comm]
  rw [linkLast, returns_get_bind]
  have hfirst := hchain.linked.head_eq
  rcases eq_nil_or_concat l with rfl | ⟨l₀, x, hlx⟩
  · rw [List.head?_nil] at hfirst
    rw [if_pos hfirst, returns_modifyPacket_bind, modifyPacket, returns_modify]
    refine ⟨(h.setPacket p _).setPacket p _, ⟨?_, ?_, nodup_singleton f⟩, hiff,
      (FrameBut.setPacket (by rfl) _).trans (FrameBut.setPacket (by rfl) _) subset_rfl,
      fun _ _ => rfl, rfl, rfl, rfl⟩
    · simp only [nil_append, linked_cons, linked_nil, Heap.setPacket_packet, update_self, true_and]
      exact hnext
    · simp
  · rw [concat_eq_append] at hlx
    subst hlx
    have hx : x ∈ held := hl x (by simp)
    have hne : ¬(s.packet p).first = none := by
      rw [hfirst]
      simp
    have hlast : (s.packet p).last = some x := by
      rw [hchain.last]
      simp
    have hxl : x ∉ l₀ := by
      have hnodup := hchain.nodup
      rw [nodup_append] at hnodup
      exact fun hin => hnodup.2.2 x hin x mem_cons_self rfl
    have hxf : f ≠ x := fun heq => hfl (by rw [heq]; simp)
    rw [if_neg hne, hlast]
    simp only [returns_deref_bind, returns_modifyFrag_bind]
    rw [modifyPacket, returns_modify]
    obtain ⟨hlinked, hxnext⟩ := linked_concat.1 hchain.linked
    have hnexts : ∀ g ≠ x, (s.setFrag x { s.frag x with next := some f }).next g = s.next g := by
      intro g hg
      simp only [Heap.next, Heap.setFrag_frag, update_of_ne hg]
    refine ⟨(h.setNext (some f) hx).setPacket p _, ⟨?_, ?_, ?_⟩, hiff, ?_, ?_, ?_, rfl, rfl⟩
    · rw [linked_concat]
      constructor
      · rw [linked_concat, Heap.setPacket_packet, update_self]
        refine ⟨hlinked.congr fun g hg => hnexts g (ne_of_mem_of_not_mem hg hxl), ?_⟩
        simp [Heap.next]
      · exact (hnexts f hxf).trans hnext
    · simp
    · rw [nodup_append]
      refine ⟨hchain.nodup, nodup_singleton f, ?_⟩
      rintro g hg _ hf rfl
      rw [mem_singleton.1 hf] at hg
      exact hfl hg
    · refine FrameBut.trans ((@Frame.setFrag _ (held \ (l₀ ++ [x]).toFinset) _ _ ?_).but p)
        (FrameBut.setPacket (by rfl) _) subset_rfl
      simp
    · intro g hg
      change (s.setFrag x { s.frag x with next := some f }).fragBytes g = s.fragBytes g
      rcases eq_or_ne g x with rfl | hgx
      · simp [Heap.fragBytes, Heap.fragSize]
      · exact fragBytes_setFrag_of_ne hgx
    · rw [Heap.setPacket_frag, Heap.setFrag_frag, update_of_ne hxf]

theorem linkFirst_spec (h : HeapOk s held) (hchain : IsChain s p l) (hfl : f ∉ l)
    (hnext : s.next f = (s.packet p).first) :
    Returns (linkFirst p f) s fun _ t => Linked₁ s t held p l (f :: l) f := by
  have hlinked : Linked s.next (some f) (f :: l) none := by
    refine ⟨rfl, ?_⟩
    rw [hnext]
    exact hchain.linked
  have hnodup := nodup_cons.2 ⟨hfl, hchain.nodup⟩
  have hfirst := hchain.linked.head_eq
  rw [linkFirst, returns_get_bind]
  cases l with
  | nil =>
    rw [List.head?_nil] at hfirst
    rw [if_pos hfirst, returns_modifyPacket_bind, modifyPacket, returns_modify]
    refine ⟨(h.setPacket p _).setPacket p _, ⟨?_, ?_, hnodup⟩, fun g => mem_cons,
      (FrameBut.setPacket (by rfl) _).trans (FrameBut.setPacket (by rfl) _) subset_rfl,
      fun _ _ => rfl, rfl, rfl, rfl⟩
    · simp only [Heap.setPacket_packet, update_self]
      exact hlinked
    · simp
  | cons g l =>
    have hne : ¬(s.packet p).first = none := by
      rw [hfirst]
      simp
    rw [if_neg hne]
    change Returns (modifyPacket p _) s _
    rw [modifyPacket, returns_modify]
    refine ⟨h.setPacket p _, ⟨?_, ?_, hnodup⟩, fun g => mem_cons, FrameBut.setPacket (by rfl) _,
      fun _ _ => rfl, rfl, rfl, rfl⟩
    · rw [Heap.setPacket_packet, update_self]
      exact hlinked
    · rw [Heap.setPacket_packet, update_self]
      simp only
      rw [hchain.last]
      simp

variable {n m : ℕ} {l' : List FragId}

/-- A new fragment with room for `n` bytes in a memory of its own has been linked to the others. -/
structure NewFrag (s t : Heap) (held : Finset FragId) (p n : ℕ) (l l' : List FragId) (f : FragId)
    (m : ℕ) : Prop where
  work : Reworked s t p held l (insert f held) l'
  new : f ∉ held
  bytes : t.bytesOf l = s.bytesOf l
  size : t.fragSize f = n
  lt : m < t.nmem
  mem : (t.frag f).mem = some m
  ref : (t.mem m).ref = 1

theorem NewFrag.sole (h : NewFrag s t held p n l l' f m) : ∀ g ∈ l', g ∈ l ∨ Sole t g := by
  intro g hg
  refine (h.work.new g hg).imp_right fun hout m' hm' => ?_
  obtain rfl := (Finset.mem_insert.1 (h.work.mem g hg)).resolve_right hout
  obtain rfl := Option.some.inj (h.mem.symm.trans hm')
  exact h.ref

theorem NewFrag.length_fragBytes (h : NewFrag s t held p n l l' f m) :
    (t.fragBytes f).length = n := by
  rw [h.work.ok.length_fragBytes (Finset.mem_insert_self f held), h.size]

/-- **A new fragment** is made and linked. -/
theorem returns_newFrag {pos : Pos} {next : Option FragId} {α : Type}
    {link : FragId → PacketM Unit} {k : FragId → PacketM α} {Q : α → Heap → Prop}
    (l' : FragId → List FragId) (h : HeapOk s held) (hp : p < s.npacket) (hchain : IsChain s p l)
    (hl : ∀ g ∈ l, g ∈ held) (hn : 0 < n) (hmax : n ≤ maxFragSize)
    (hlink : ∀ f u, HeapOk u (insert f held) → IsChain u p l → f ∉ l → u.next f = next →
      u.packet = s.packet → Returns (link f) u fun _ t => Linked₁ u t (insert f held) p l (l' f) f)
    (hk : ∀ f t m, NewFrag s t held p n l (l' f) f m → Returns (k f) t Q) :
    Returns (fragalloc p n pos next >>= fun f => link f >>= fun _ => k f) s Q := by
  refine (fragalloc_spec h hp hn hmax pos next).bind ?_
  rintro f u ⟨⟨hok, hnew, hframe⟩, hnext, hsize, m, hm, hfm, href⟩
  have hfl : f ∉ l := fun hin => hnew (hl f hin)
  have hchain' : IsChain u p l := hchain.congr (by rw [hframe.packet]) (by rw [hframe.packet])
    fun g hg => by rw [Heap.next, Heap.next, hframe.frag g (hl g hg)]
  refine (hlink f u hok hchain' hfl hnext hframe.packet).bind ?_
  rintro ⟨⟩ t ht
  refine hk f t m ⟨⟨ht.ok, fun g => ?_, fun g hg => ?_, ht.chain, ?_⟩, hnew, ?_, ?_, ?_, ?_, ?_⟩
  · rw [Finset.mem_insert, ht.mem_iff]
    constructor
    · rintro (rfl | hg)
      · exact .inl (.inl rfl)
      · by_cases hgl : g ∈ l
        · exact .inl (.inr hgl)
        · exact .inr ⟨hg, hgl⟩
    · rintro ((rfl | hg) | hg)
      · exact .inl rfl
      · exact .inr (hl g hg)
      · exact .inr hg.1
  · rcases (ht.mem_iff g).1 hg with rfl | hg
    · exact .inr hnew
    · exact .inl hg
  · refine ((hframe.but p).mono Finset.sdiff_subset).trans (ht.frame.mono ?_) subset_rfl
    exact Finset.sdiff_subset_sdiff (Finset.subset_insert f held) subset_rfl
  · exact bytesOf_congr fun g hg => (ht.bytes g (Finset.mem_insert_of_mem (hl g hg))).trans
      (hframe.bytes g (hl g hg))
  · rw [Heap.fragSize, ht.self]
    exact hsize
  · rw [ht.nmem]
    exact hm
  · rw [ht.self]
    exact hfm
  · rw [ht.mem]
    exact href

/-- A new fragment behind the others. -/
theorem returns_newLast {pos : Pos} {α : Type} {k : FragId → PacketM α} {Q : α → Heap → Prop}
    (h : HeapOk s held) (hp : p < s.npacket) (hchain : IsChain s p l) (hl : ∀ g ∈ l, g ∈ held)
    (hn : 0 < n) (hmax : n ≤ maxFragSize)
    (hk : ∀ f t m, NewFrag s t held p n l (l ++ [f]) f m → Returns (k f) t Q) :
    Returns (fragalloc p n pos none >>= fun f => linkLast p f >>= fun _ => k f) s Q :=
  returns_newFrag (fun f => l ++ [f]) h hp hchain hl hn hmax
    (fun _ _ hok hchain' hfl hnext _ =>
      linkLast_spec hok hchain' (fun g hg => Finset.mem_insert_of_mem (hl g hg)) hfl hnext) hk

/-- A new fragment in front of the others. -/
theorem returns_newFirst {pos : Pos} {α : Type} {k : FragId → PacketM α} {Q : α → Heap → Prop}
    (h : HeapOk s held) (hp : p < s.npacket) (hchain : IsChain s p l) (hl : ∀ g ∈ l, g ∈ held)
    (hn : 0 < n) (hmax : n ≤ maxFragSize)
    (hk : ∀ f t m, NewFrag s t held p n l (f :: l) f m → Returns (k f) t Q) :
    Returns (fragalloc p n pos (s.packet p).first >>= fun f => linkFirst p f >>= fun _ => k f) s
      Q :=
  returns_newFrag (fun f => f :: l) h hp hchain hl hn hmax
    (fun _ _ hok hchain' hfl hnext hpacket =>
      linkFirst_spec hok hchain' hfl (by rw [hnext, hpacket])) hk

theorem fragBytes_eq (hfm : (s.frag f).mem = some m) :
    s.fragBytes f = (s.mem m).read (s.frag f).rp ((s.frag f).wp - (s.frag f).rp) := by
  rw [Heap.fragBytes, hfm]
  rfl

theorem fragBytes_setMem_self {M : Mem} (hfm : (s.frag f).mem = some m) :
    (s.setMem m M).fragBytes f = M.read (s.frag f).rp ((s.frag f).wp - (s.frag f).rp) := by
  have hfm' : ((s.setMem m M).frag f).mem = some m := hfm
  rw [fragBytes_eq hfm', Heap.setMem_mem, update_self, Heap.setMem_frag]

/-- Writing all bytes of a fragment. -/
theorem fragBytes_store {bytes : List UInt8} (hfm : (s.frag f).mem = some m)
    (hlen : bytes.length = s.fragSize f) :
    (s.setMem m ((s.mem m).store (s.frag f).rp bytes)).fragBytes f = bytes := by
  rw [Heap.fragSize] at hlen
  rw [fragBytes_setMem_self hfm, ← hlen, Mem.read_store_self]

/-- A write to the memory of one fragment of a chain. -/
theorem Reworked.store (off : ℕ) (bytes : List UInt8) (h : HeapOk s held) (hchain : IsChain s p l)
    (hl : ∀ g ∈ l, g ∈ held) (hf : f ∈ l) (hm : m < s.nmem) (hfm : (s.frag f).mem = some m)
    (href : (s.mem m).ref = 1) :
    Reworked s (s.setMem m ((s.mem m).store off bytes)) p held l held l ∧ ∀ g ∈ held, g ≠ f →
        (s.setMem m ((s.mem m).store off bytes)).fragBytes g = s.fragBytes g := by
  obtain ⟨hok, hframe⟩ := h.frame_store off bytes (hl f hf) hm hfm href
  refine ⟨⟨hok, (Reworked.refl h hchain hl).held_iff, fun g hg => .inl hg,
    hchain.congr rfl rfl fun _ _ => rfl, (hframe.but p).mono ?_⟩,
    fun g hg hgf => hframe.bytes g (Finset.mem_erase.2 ⟨hgf, hg⟩)⟩
  intro g hg
  rw [Finset.mem_sdiff, mem_toFinset] at hg
  exact Finset.mem_erase.2 ⟨fun heq => hg.2 (heq ▸ hf), hg.1⟩

variable {buf : List UInt8}

/-- **A new fragment is filled.** -/
theorem NewFrag.fill (h : NewFrag s t held p buf.length l l' f m) (hl : ∀ g ∈ l, g ∈ held) :
    Reworked s (t.setMem m ((t.mem m).store (t.frag f).rp buf)) p held l (insert f held) l' ∧
      (t.setMem m ((t.mem m).store (t.frag f).rp buf)).bytesOf l = s.bytesOf l ∧
      (t.setMem m ((t.mem m).store (t.frag f).rp buf)).fragBytes f = buf := by
  have hin : f ∈ l' := ((h.work.held_iff f).1 (Finset.mem_insert_self f held)).resolve_right
    fun hf => h.new hf.1
  obtain ⟨hstore, hothers⟩ := Reworked.store (t.frag f).rp buf h.work.ok h.work.chain h.work.mem hin
    h.lt h.mem h.ref
  refine ⟨h.work.trans hstore, ?_, fragBytes_store h.mem h.size.symm⟩
  rw [← h.bytes]
  exact bytesOf_congr fun g hg => hothers g (Finset.mem_insert_of_mem (hl g hg))
    fun heq => h.new (heq ▸ hl g hg)

/-- **The loop of `packetappend`** puts the bytes behind the chain. -/
theorem appendFrags_spec {k : ℕ} (h : HeapOk s held) (hp : p < s.npacket) (hchain : IsChain s p l)
    (hl : ∀ g ∈ l, g ∈ held) (hk : buf.length ≤ k) :
    Returns (appendFrags p k buf) s fun _ t => ∃ held' l', Reworked s t p held l held' l' ∧
      t.bytesOf l' = s.bytesOf l ++ buf := by
  induction k generalizing s held l buf with
  | zero =>
    obtain rfl : buf = [] := eq_nil_of_length_eq_zero (by omega)
    rw [appendFrags, returns_pure, append_nil]
    exact ⟨held, l, Reworked.refl h hchain hl, rfl⟩
  | succ k ih =>
    rw [appendFrags]
    by_cases hbuf : buf = []
    · rw [if_pos hbuf, returns_pure, hbuf, append_nil]
      exact ⟨held, l, Reworked.refl h hchain hl, rfl⟩
    · have hpos := length_pos_of_ne_nil hbuf
      have hmaxpos : 0 < maxFragSize := by decide
      rw [if_neg hbuf]
      simp only
      rw [returns_get_bind]
      have hlen : (buf.take (min buf.length maxFragSize)).length = min buf.length maxFragSize := by
        rw [length_take]
        omega
      refine returns_newLast h hp hchain hl (by omega) (Nat.min_le_right _ _) fun f t m hnew => ?_
      rw [returns_get_bind, hnew.mem, returns_deref_bind, returns_memmove_bind]
      rw [← hlen] at hnew
      obtain ⟨hwork, hbytes, hself⟩ := hnew.fill hl
      refine (ih hwork.ok (hwork.lt hp) hwork.chain hwork.mem ?_).mono ?_
      · rw [length_drop]
        omega
      · rintro ⟨⟩ v ⟨held', l', hwork', hbytes'⟩
        refine ⟨held', l', hwork.trans hwork', ?_⟩
        rw [hbytes', bytesOf_append, bytesOf_cons, bytesOf_nil, append_nil, hself, hbytes,
          append_assoc, take_append_drop]

/-! ### Wider fragments -/

/-- A fragment of a chain gets another range. -/
theorem Reworked.setRange {x : Frag} (h : HeapOk s held) (hchain : IsChain s p l)
    (hl : ∀ g ∈ l, g ∈ held) (hf : f ∈ l) (horigin : x.origin = (s.frag f).origin)
    (hmem : x.mem = (s.frag f).mem) (hnext : x.next = (s.frag f).next) (hlt : x.rp < x.wp)
    (hle : ∀ m, (s.frag f).mem = some m → x.wp ≤ (s.mem m).size) :
    Reworked s (s.setFrag f x) p held l held l := by
  refine ⟨h.setRange (hl f hf) horigin hmem hlt hle, (Reworked.refl h hchain hl).held_iff,
    fun g hg => .inl hg, hchain.congr rfl rfl fun g _ => ?_, (Frame.setFrag ?_).but p⟩
  · rcases eq_or_ne g f with rfl | hgf
    · rw [Heap.next, Heap.setFrag_frag, update_self, hnext, Heap.next]
    · rw [Heap.next, Heap.setFrag_frag, update_of_ne hgf, Heap.next]
  · rw [Finset.mem_sdiff, mem_toFinset]
    exact fun hin => hin.2 hf

/-- The last fragment gets `n` bytes more. -/
theorem Reworked.widenLast (h : HeapOk s held) (hchain : IsChain s p (l ++ [f]))
    (hl : ∀ g ∈ l ++ [f], g ∈ held) (hfm : (s.frag f).mem = some m)
    (hle : (s.frag f).wp + n ≤ (s.mem m).size) :
    Reworked s (s.setFrag f { s.frag f with wp := (s.frag f).wp + n }) p held (l ++ [f]) held
        (l ++ [f]) ∧
      (s.setFrag f { s.frag f with wp := (s.frag f).wp + n }).bytesOf (l ++ [f]) =
        s.bytesOf (l ++ [f]) ++ (s.mem m).read (s.frag f).wp n := by
  have hin : f ∈ l ++ [f] := by simp
  obtain ⟨m', -, hfm', hlt, -⟩ := h.inMem f (hl f hin)
  have hfl : ∀ g ∈ l, g ≠ f := by
    have hnodup := hchain.nodup
    rw [nodup_append] at hnodup
    exact fun g hg => hnodup.2.2 g hg f mem_cons_self
  refine ⟨Reworked.setRange h hchain hl hin rfl rfl rfl (Nat.lt_add_right n hlt)
    fun m₁ hm₁ => ?_, ?_⟩
  · obtain rfl : m = m₁ := Option.some.inj (hfm.symm.trans hm₁)
    exact hle
  · have hwide : (s.setFrag f { s.frag f with wp := (s.frag f).wp + n }).fragBytes f =
        s.fragBytes f ++ (s.mem m).read (s.frag f).wp n := by
      have hsplit : (s.frag f).wp + n - (s.frag f).rp = (s.frag f).wp - (s.frag f).rp + n := by
        omega
      have hstart : (s.frag f).rp + ((s.frag f).wp - (s.frag f).rp) = (s.frag f).wp := by omega
      rw [fragBytes_eq (m := m) (by simp [hfm]), fragBytes_eq hfm]
      simp only [Heap.setFrag_frag, update_self, Heap.setFrag_mem]
      rw [hsplit, Mem.read_add, hstart]
    rw [bytesOf_append, bytesOf_append, bytesOf_cons, bytesOf_nil, bytesOf_cons, bytesOf_nil,
      bytesOf_congr fun g hg => fragBytes_setFrag_of_ne (hfl g hg), hwide]
    simp only [append_nil, append_assoc]

/-- The first fragment gets `n` bytes more. -/
theorem Reworked.widenFirst (h : HeapOk s held) (hchain : IsChain s p (f :: l))
    (hl : ∀ g ∈ f :: l, g ∈ held) (hfm : (s.frag f).mem = some m) (hle : n ≤ (s.frag f).rp) :
    Reworked s (s.setFrag f { s.frag f with rp := (s.frag f).rp - n }) p held (f :: l) held
        (f :: l) ∧
      (s.setFrag f { s.frag f with rp := (s.frag f).rp - n }).bytesOf (f :: l) =
        (s.mem m).read ((s.frag f).rp - n) n ++ s.bytesOf (f :: l) := by
  obtain ⟨m', -, hfm', hlt, hwp⟩ := h.inMem f (hl f mem_cons_self)
  have hfl : ∀ g ∈ l, g ≠ f := by
    have hnodup := hchain.nodup
    rw [nodup_cons] at hnodup
    exact fun g hg heq => hnodup.1 (heq ▸ hg)
  refine ⟨Reworked.setRange h hchain hl mem_cons_self rfl rfl rfl
    (lt_of_le_of_lt (Nat.sub_le _ _) hlt) fun m₁ hm₁ => ?_, ?_⟩
  · obtain rfl : m' = m₁ := Option.some.inj (hfm'.symm.trans hm₁)
    exact hwp
  · have hwide : (s.setFrag f { s.frag f with rp := (s.frag f).rp - n }).fragBytes f =
        (s.mem m).read ((s.frag f).rp - n) n ++ s.fragBytes f := by
      have hsplit : (s.frag f).wp - ((s.frag f).rp - n) =
          n + ((s.frag f).wp - (s.frag f).rp) := by omega
      have hstart : (s.frag f).rp - n + n = (s.frag f).rp := by omega
      rw [fragBytes_eq (m := m) (by simp [hfm]), fragBytes_eq hfm]
      simp only [Heap.setFrag_frag, update_self, Heap.setFrag_mem]
      rw [hsplit, Mem.read_add, hstart]
    rw [bytesOf_cons, bytesOf_cons, bytesOf_congr fun g hg => fragBytes_setFrag_of_ne (hfl g hg),
      hwide, append_assoc]

/-- Bytes in front of or behind the range of a fragment may be written. -/
theorem fragBytes_store_of_disjoint {off : ℕ} {bytes : List UInt8} (hfm : (s.frag f).mem = some m)
    (h : (s.frag f).wp ≤ off ∨ off + bytes.length ≤ (s.frag f).rp) :
    (s.setMem m ((s.mem m).store off bytes)).fragBytes f = s.fragBytes f := by
  rw [fragBytes_setMem_self hfm, fragBytes_eq hfm]
  rcases Nat.le_total (s.frag f).rp (s.frag f).wp with hle | hge
  · exact Mem.read_store_of_disjoint _ (by omega)
  · rw [Nat.sub_eq_zero_of_le hge]
    rfl

/-- The last fragment gets `bytes` more. -/
theorem Reworked.appendLast (bytes : List UInt8) (h : HeapOk s held)
    (hchain : IsChain s p (l ++ [f])) (hl : ∀ g ∈ l ++ [f], g ∈ held) (hm : m < s.nmem)
    (hfm : (s.frag f).mem = some m) (href : (s.mem m).ref = 1)
    (hle : (s.frag f).wp + bytes.length ≤ (s.mem m).size) :
    Reworked s ((s.setMem m ((s.mem m).store (s.frag f).wp bytes)).setFrag f
        { s.frag f with wp := (s.frag f).wp + bytes.length }) p held (l ++ [f]) held (l ++ [f]) ∧
      ((s.setMem m ((s.mem m).store (s.frag f).wp bytes)).setFrag f
        { s.frag f with wp := (s.frag f).wp + bytes.length }).bytesOf (l ++ [f]) =
          s.bytesOf (l ++ [f]) ++ bytes := by
  obtain ⟨hstore, hothers⟩ := Reworked.store (s.frag f).wp bytes h hchain hl
    (by simp) hm hfm href
  have hMm : (s.setMem m ((s.mem m).store (s.frag f).wp bytes)).mem m =
      (s.mem m).store (s.frag f).wp bytes := by rw [Heap.setMem_mem, update_self]
  obtain ⟨hwiden, hwide⟩ := Reworked.widenLast (n := bytes.length) (m := m) hstore.ok hstore.chain
    hl hfm (by rw [hMm]; exact hle)
  refine ⟨hstore.trans hwiden, hwide.trans ?_⟩
  rw [hMm, Heap.setMem_frag, Mem.read_store_self]
  congr 1
  refine bytesOf_congr fun g hg => ?_
  rcases eq_or_ne g f with rfl | hgf
  · exact fragBytes_store_of_disjoint hfm (.inl le_rfl)
  · exact hothers g (hl g hg) hgf

/-- The first fragment gets `bytes` more. -/
theorem Reworked.prependFirst (bytes : List UInt8) (h : HeapOk s held)
    (hchain : IsChain s p (f :: l)) (hl : ∀ g ∈ f :: l, g ∈ held) (hm : m < s.nmem)
    (hfm : (s.frag f).mem = some m) (href : (s.mem m).ref = 1)
    (hle : bytes.length ≤ (s.frag f).rp) :
    Reworked s ((s.setFrag f { s.frag f with rp := (s.frag f).rp - bytes.length }).setMem m
        ((s.mem m).store ((s.frag f).rp - bytes.length) bytes)) p held (f :: l) held (f :: l) ∧
      ((s.setFrag f { s.frag f with rp := (s.frag f).rp - bytes.length }).setMem m
        ((s.mem m).store ((s.frag f).rp - bytes.length) bytes)).bytesOf (f :: l) =
          bytes ++ s.bytesOf (f :: l) := by
  obtain ⟨hstore, hothers⟩ := Reworked.store ((s.frag f).rp - bytes.length) bytes
    h hchain hl mem_cons_self hm hfm href
  have hMm : (s.setMem m ((s.mem m).store ((s.frag f).rp - bytes.length) bytes)).mem m =
      (s.mem m).store ((s.frag f).rp - bytes.length) bytes := by
    rw [Heap.setMem_mem, update_self]
  obtain ⟨hwiden, hwide⟩ := Reworked.widenFirst (n := bytes.length) (m := m) hstore.ok
    hstore.chain hl hfm hle
  refine ⟨hstore.trans hwiden, hwide.trans ?_⟩
  rw [hMm, Heap.setMem_frag, Mem.read_store_self]
  congr 1
  refine bytesOf_congr fun g hg => ?_
  rcases eq_or_ne g f with rfl | hgf
  · exact fragBytes_store_of_disjoint hfm (.inr (by omega))
  · exact hothers g (hl g hg) hgf

/-! ### `packetappend` and `packettrailer` -/

/-- The packet whose size alone was rewritten. -/
theorem IsChain.setSize (h : IsChain s p l) (n : ℤ) :
    IsChain (s.setPacket p { s.packet p with size := n }) p l :=
  h.congr (by simp) (by simp) fun _ _ => rfl

theorem wrapInt_of_lt {x : ℤ} (h : 0 ≤ x) (h' : x < 2 ^ 31) : wrapInt x = x :=
  Int.bmod_eq_of_le_mul_two (by omega) (by omega)

theorem returns_notFree {Q : Unit → Heap → Prop} (hp : 0 ≤ (s.packet p).size) (h : Q () s) :
    Returns (notFree p) s Q := by
  have hdone : Returns (notFree p >>= fun u => pure u) s Q :=
    returns_notFree_bind hp (returns_pure.2 h)
  rwa [bind_pure] at hdone

/-- A packet whose size says that `n` bytes are added, before they are. -/
structure Growing (s s₁ : Heap) (own : ℕ → List FragId) (held : Finset FragId) (p : ℕ)
    (b : ByteString) (n : ℕ) : Prop where
  ok : HeapOk s₁ held
  chain : IsChain s₁ p (own p)
  lt : p < s₁.npacket
  bytes : s₁.bytesOf (own p) = b
  first : (s₁.packet p).first = (s.packet p).first
  last : (s₁.packet p).last = (s.packet p).last
  frag : s₁.frag = s.frag
  mem : s₁.mem = s.mem
  /-- When the chain has the bytes, the operation is complete. -/
  finish : ∀ {t : Heap} {held' : Finset FragId} {l' : List FragId} {b' : ByteString},
    Reworked s₁ t p held (own p) held' l' → t.bytesOf l' = b' → b'.length = b.length + n →
      0 ≤ (t.packet p).size ∧ t.Ok ∧ t.abs = Function.update s.abs p (some b') ∧
        t.frags p = l'

theorem PacketsOk.growing (h : PacketsOk s own held) (hp : s.abs p = some b)
    (hlen : b.length + n < 2 ^ 31) :
    Growing s (s.setPacket p { s.packet p with size := wrapInt ((s.packet p).size + n) }) own held
      p b n := by
  obtain ⟨hsize, hbytes, hb⟩ := h.of_abs hp
  have hn : wrapInt ((s.packet p).size + n) = (b.length + n : ℕ) := by
    rw [wrapInt_of_lt (by omega) (by omega), hb]
    push_cast
    rfl
  refine ⟨h.ok.setPacket p _, (h.chain p hsize).setSize _, h.alloc p hsize,
    hbytes, by simp, by simp,
    rfl, rfl, ?_⟩
  intro t held' l' b' hwork hbytes' hlen'
  refine ⟨?_, h.replace hsize hwork hbytes' (by rw [hn, hlen'])⟩
  rw [hwork.frame.size, Heap.setPacket_packet, update_self]
  simp only [hn]
  exact Int.natCast_nonneg _

/-- **The rest of the bytes** goes to new fragments. -/
theorem Growing.returns_frags {s₁ s₂ : Heap} {held₂ : Finset FragId} {l₂ : List FragId}
    {b' : ByteString} {frags : PacketM Unit} (h : Growing s s₁ own held p b n)
    (hwork : Reworked s₁ s₂ p held (own p) held₂ l₂) (hlen : b'.length = b.length + n)
    (hfrags : Returns frags s₂ fun _ t => ∃ held' l', Reworked s₂ t p held₂ l₂ held' l' ∧
      t.bytesOf l' = b') :
    Returns (frags >>= fun _ => notFree p) s₂ fun _ t =>
      t.Ok ∧ t.abs = update s.abs p (some b') := by
  refine hfrags.bind ?_
  rintro ⟨⟩ t ⟨held', l', hwork', hbytes'⟩
  obtain ⟨hlive, hok, habs, -⟩ := h.finish (hwork.trans hwork') hbytes' hlen
  exact returns_notFree hlive ⟨hok, habs⟩

/-- The chain of a packet is empty, or has a last fragment in memory. -/
theorem Growing.cases_last {s₁ : Heap} (h : Growing s s₁ own held p b n)
    (hown : PacketsOk s own held) :
    ((s₁.packet p).first = none ∧ own p = []) ∨
      ∃ l f m, own p = l ++ [f] ∧ (s₁.packet p).first ≠ none ∧ (s₁.packet p).last = some f ∧
        (∀ g ∈ l ++ [f], g ∈ held) ∧ m < s₁.nmem ∧ (s₁.frag f).mem = some m ∧
        (s₁.frag f).rp < (s₁.frag f).wp ∧ (s₁.frag f).wp ≤ (s₁.mem m).size := by
  have hfirst := h.chain.linked.head_eq
  have hlast := h.chain.last
  have hmem := hown.mem (p := p)
  rcases eq_nil_or_concat (own p) with hnil | ⟨l, f, hlf⟩
  · rw [hnil, List.head?_nil] at hfirst
    exact .inl ⟨hfirst, hnil⟩
  · rw [concat_eq_append] at hlf
    rw [hlf] at hfirst hlast hmem
    obtain ⟨m, hm, hfm, hlt, hle⟩ := h.ok.inMem f (hmem f (by simp))
    refine .inr ⟨l, f, m, hlf, ?_, ?_, hmem, hm, hfm, hlt, hle⟩
    · rw [hfirst]
      simp
    · rw [hlast]
      simp

/-- **`packetappend`** puts bytes behind a packet, when the memory of its last fragment is
not shared. -/
theorem packetappend_spec (h : s.Ok) (hp : s.abs p = some b) (hlen : b.length + buf.length < 2 ^ 31)
    (hsole : buf ≠ [] → ∀ f, (s.packet p).last = some f → Sole s f) :
    Returns (packetappend p buf) s fun _ t =>
      t.Ok ∧ t.abs = update s.abs p (some (b ++ buf)) := by
  obtain ⟨own, held, h⟩ := h
  have hsize := (h.of_abs hp).1
  rw [packetappend]
  refine returns_notFree_bind hsize ?_
  by_cases hbuf : buf = []
  · rw [if_pos hbuf, returns_pure, hbuf, append_nil, ← hp, update_eq_self]
    exact ⟨⟨own, held, h⟩, rfl⟩
  rw [if_neg hbuf, returns_modifyPacket_bind, returns_get_bind]
  have hgrow := h.growing hp hlen
  generalize s.setPacket p { s.packet p with
    size := wrapInt ((s.packet p).size + buf.length) } = s₁ at hgrow ⊢
  have hloop : ∀ (s₂ : Heap) (held₂ : Finset FragId) (l₂ : List FragId) (rest : List UInt8),
      Reworked s₁ s₂ p held (own p) held₂ l₂ → s₂.bytesOf l₂ ++ rest = b ++ buf →
      Returns (appendFrags p rest.length rest >>= fun _ => notFree p) s₂ fun _ t =>
        t.Ok ∧ t.abs = update s.abs p (some (b ++ buf)) := by
    intro s₂ held₂ l₂ rest hwork hrest
    rw [← hrest]
    exact hgrow.returns_frags hwork (by rw [hrest, length_append])
      (appendFrags_spec hwork.ok (hwork.lt hgrow.lt) hwork.chain hwork.mem le_rfl)
  rcases hgrow.cases_last h with
    ⟨hfirst, -⟩ | ⟨l, f, m, hown, hfirst, hlast, hmem, hm, hfm, hlt, hle⟩
  · rw [if_pos hfirst]
    exact hloop s₁ held (own p) buf (Reworked.refl hgrow.ok hgrow.chain h.mem)
      (by rw [hgrow.bytes])
  · have href : (s₁.mem m).ref = 1 := by
      rw [hgrow.mem]
      exact hsole hbuf f (by rw [← hgrow.last, hlast]) m (by rw [← hgrow.frag, hfm])
    rw [if_neg hfirst, hlast]
    simp only [returns_deref_bind, hfm, href, if_true, returns_pure_bind, returns_memmove_bind,
      returns_modifyFrag_bind]
    generalize hnn : min ((s₁.mem m).size - (s₁.frag f).wp) buf.length = nn
    have htake : (buf.take nn).length = nn := by
      rw [length_take]
      omega
    have hchain := hgrow.chain
    have hbytes := hgrow.bytes
    rw [hown] at hchain hloop hbytes
    obtain ⟨hwork, hwide⟩ := Reworked.appendLast (buf.take nn) hgrow.ok hchain hmem hm hfm
      href (by omega)
    rw [htake] at hwork hwide
    refine hloop _ held _ (buf.drop nn) hwork ((congrArg (· ++ buf.drop nn) hwide).trans ?_)
    rw [hbytes, append_assoc, take_append_drop]

/-- The address of `n` bytes of a packet, which are from its position `k` on: they lie in
one fragment. -/
def Located (s : Heap) (p k n : ℕ) (a : ℕ × ℕ) : Prop :=
  ∃ l f l', s.frags p = l ++ f :: l' ∧ (s.frag f).mem = some a.1 ∧ (s.frag f).rp ≤ a.2 ∧
    a.2 + n ≤ (s.frag f).wp ∧ k = s.sizeOf l + (a.2 - (s.frag f).rp)

/-- What comes of a call that adds `n` bytes at the position `k` of a packet and tells where they
are: a fragment that the packet did not have has memory of its own. -/
def Extended (s t : Heap) (p k n : ℕ) (join : List UInt8 → ByteString)
    (r : Except String (ℕ × ℕ)) : Prop :=
  t.Ok ∧ ∃ a x, r = .ok a ∧ x.length = n ∧ Located t p k n a ∧
    t.abs = update s.abs p (some (join x)) ∧ ∀ f ∈ t.frags p, f ∈ s.frags p ∨ Sole t f

variable {k : ℕ} {join : List UInt8 → ByteString}

/-- How `packetheader` and `packettrailer` begin. -/
theorem PacketsOk.returns_extend {n : ℤ} {rest : PacketM (Except String (ℕ × ℕ))}
    (h : PacketsOk s own held) (hp : s.abs p = some b)
    (hlen : 0 < n → n ≤ maxFragSize → b.length + n < 2 ^ 31)
    (hrest : ∀ n' : ℕ, n = n' → 0 < n' → n' ≤ maxFragSize → ∀ s₁, Growing s s₁ own held p b n' →
      Returns rest s₁ fun r t => Extended s t p k n' join r) :
    Returns (do
        notFree p
        if n ≤ 0 ∨ n > maxFragSize then pure (.error ePacketSize)
        else
          modifyPacket p fun q => { q with size := wrapInt (q.size + n) }
          rest) s fun r t =>
      if n ≤ 0 ∨ n > maxFragSize then t.Ok ∧ r = .error ePacketSize ∧ t.abs = s.abs
      else Extended s t p k n.toNat join r := by
  refine returns_notFree_bind (h.of_abs hp).1 ?_
  by_cases hrange : n ≤ 0 ∨ n > maxFragSize
  · rw [if_pos hrange, returns_pure, if_pos hrange]
    exact ⟨⟨own, held, h⟩, rfl, rfl⟩
  simp only [if_neg hrange]
  obtain ⟨n, rfl⟩ := Int.eq_ofNat_of_zero_le (show 0 ≤ n by omega)
  rw [not_or, not_le, not_lt] at hrange
  rw [returns_modifyPacket_bind]
  exact hrest n rfl (by omega) (by omega) _ (h.growing hp (by omega))

/-- How they end. -/
theorem Growing.extended {s₁ t : Heap} {held' : Finset FragId} {x : List UInt8}
    (hgrow : Growing s s₁ own held p b n) (h : PacketsOk s own held) (hp : s.abs p = some b)
    (l₁ l₂ : List FragId) (hwork : Reworked s₁ t p held (own p) held' (l₁ ++ f :: l₂))
    (hfm : (t.frag f).mem = some m) (hle : n ≤ t.fragSize f) (hk : t.sizeOf l₁ = k)
    (hjoin : t.bytesOf (l₁ ++ f :: l₂) = join x) (hx : x.length = n)
    (hlen : (join x).length = b.length + n)
    (hsole : ∀ g ∈ l₁ ++ f :: l₂, g ∈ own p ∨ Sole t g) :
    Returns (do
        notFree p
        let s ← get
        let m ← deref (s.frag f).mem
        pure (.ok (m, (s.frag f).rp) : Except String (ℕ × ℕ))) t
      fun r u => Extended s u p k n join r := by
  obtain ⟨hlive, hok, habs, hfrags⟩ := hgrow.finish hwork hjoin hlen
  refine returns_notFree_bind hlive ?_
  rw [returns_get_bind, hfm, returns_deref_bind, returns_pure]
  refine ⟨hok, _, x, rfl, hx, ⟨l₁, f, l₂, hfrags, hfm, le_rfl, ?_, ?_⟩, habs, fun g hg => ?_⟩
  · obtain ⟨-, -, -, hlt, -⟩ := hwork.ok.inMem f (hwork.mem f (by simp))
    rw [Heap.fragSize] at hle
    change (t.frag f).rp + n ≤ (t.frag f).wp
    omega
  · rw [hk]
    simp
  · rw [hfrags] at hg
    rw [h.frags_eq (h.of_abs hp).1]
    exact hsole g hg

/-- **`packettrailer`** puts `n` bytes behind a packet and tells where they are, when the
memory of its last fragment is not shared or has no room. -/
theorem packettrailer_spec {n : ℤ} (h : s.Ok) (hp : s.abs p = some b)
    (hlen : 0 < n → n ≤ maxFragSize → b.length + n < 2 ^ 31)
    (hsole : 0 < n → n ≤ maxFragSize → ∀ f m, (s.packet p).last = some f →
      (s.frag f).mem = some m → n ≤ (s.mem m).size - (s.frag f).wp → (s.mem m).ref = 1) :
    Returns (packettrailer p n) s fun r t =>
      if n ≤ 0 ∨ n > maxFragSize then t.Ok ∧ r = .error ePacketSize ∧ t.abs = s.abs
      else Extended s t p b.length n.toNat (b ++ ·) r := by
  obtain ⟨own, held, h⟩ := h
  rw [packettrailer]
  refine h.returns_extend hp hlen ?_
  rintro n rfl hpos hmax s₁ hgrow
  rw [returns_get_bind]
  -- the bytes are behind the others in a new fragment
  have hnew : ∀ pos, Returns (do
        let f ← fragalloc p n pos none
        linkLast p f
        notFree p
        let s ← get
        let m ← deref (s.frag f).mem
        pure (.ok (m, (s.frag f).rp) : Except String (ℕ × ℕ))) s₁
      fun r t => Extended s t p b.length n (b ++ ·) r := by
    intro pos
    refine returns_newLast hgrow.ok hgrow.lt hgrow.chain h.mem (by omega) (by omega)
      fun f t m hnew => ?_
    refine hgrow.extended h hp (own p) [] hnew.work hnew.mem hnew.size.ge ?_ ?_ ?_ ?_ hnew.sole
      (x := t.fragBytes f)
    · rw [← hnew.work.ok.length_bytesOf fun g hg => hnew.work.mem g (mem_append_left _ hg),
        hnew.bytes, hgrow.bytes]
    · rw [bytesOf_append, hnew.bytes, hgrow.bytes, bytesOf_cons, bytesOf_nil, append_nil]
    · rw [hnew.length_fragBytes]
    · rw [length_append, hnew.length_fragBytes]
  rcases hgrow.cases_last h with
    ⟨hfirst, -⟩ | ⟨l, f, m, hown, hfirst, hlast, hmem, hm, hfm, hlt, hle⟩
  · rw [if_pos hfirst]
    exact hnew _
  · rw [if_neg hfirst, hlast]
    simp only [returns_deref_bind, hfm]
    by_cases hfits : (n : ℤ) ≤ (s₁.mem m).size - (s₁.frag f).wp
    · have href : (s₁.mem m).ref = 1 := by
        rw [hgrow.mem, hgrow.frag] at hfits
        rw [hgrow.mem]
        exact hsole (by omega) (by omega) f m (by rw [← hgrow.last, hlast])
          (by rw [← hgrow.frag, hfm]) hfits
      have hcast : ((s₁.frag f).wp + (n : ℤ)).toNat = (s₁.frag f).wp + n := by omega
      simp only [if_pos hfits, href, if_true, returns_pure_bind, hfm, returns_deref_bind]
      rw [returns_modifyFrag_bind, hcast]
      have hchain := hgrow.chain
      have hbytes := hgrow.bytes
      have hfinish := @hgrow.finish
      rw [hown] at hchain hbytes hfinish
      obtain ⟨hwork, hwide⟩ := Reworked.widenLast (n := n) hgrow.ok hchain hmem hfm (by omega)
      rw [hbytes] at hwide
      have hx : ((s₁.mem m).read (s₁.frag f).wp n).length = n := by simp [Mem.read]
      obtain ⟨hlive, hok, habs, hfrags⟩ := hfinish hwork hwide (by rw [length_append, hx])
      refine returns_notFree_bind hlive ?_
      rw [returns_pure]
      refine ⟨hok, _, _, rfl, hx, ⟨l, f, [], hfrags, ?_, ?_, ?_, ?_⟩, habs, fun g hg => ?_⟩
      · simp [hfm]
      · simp only [Heap.setFrag_frag, update_self]
        exact hlt.le
      · simp
      · rw [← hbytes, hgrow.ok.length_bytesOf hmem, sizeOf_append, sizeOf_cons, sizeOf_nil,
          Heap.setFrag_frag, update_self]
        congr 1
        refine (sizeOf_congr fun g hg => ?_).symm
        have hgf : g ≠ f := by
          have hnodup := hchain.nodup
          rw [nodup_append] at hnodup
          exact hnodup.2.2 g hg f mem_cons_self
        rw [Heap.setFrag_frag, update_of_ne hgf]
      · rw [h.frags_eq (h.of_abs hp).1, hown]
        exact Or.inl (hfrags ▸ hg)
    · simp only [if_neg hfits, returns_pure_bind]
      exact hnew _

/-! ### `packetprefix` and `packetheader` -/

/-- **The loop of `packetprefix`** puts the bytes in front of the chain. -/
theorem prefixFrags_spec {k : ℕ} (h : HeapOk s held) (hp : p < s.npacket) (hchain : IsChain s p l)
    (hl : ∀ g ∈ l, g ∈ held) (hk : buf.length ≤ k) :
    Returns (prefixFrags p k buf) s fun _ t => ∃ held' l', Reworked s t p held l held' l' ∧
      t.bytesOf l' = buf ++ s.bytesOf l := by
  induction k generalizing s held l buf with
  | zero =>
    obtain rfl : buf = [] := eq_nil_of_length_eq_zero (by omega)
    rw [prefixFrags, returns_pure, nil_append]
    exact ⟨held, l, Reworked.refl h hchain hl, rfl⟩
  | succ k ih =>
    rw [prefixFrags]
    by_cases hbuf : buf = []
    · rw [if_pos hbuf, returns_pure, hbuf, nil_append]
      exact ⟨held, l, Reworked.refl h hchain hl, rfl⟩
    · have hpos := length_pos_of_ne_nil hbuf
      have hmaxpos : 0 < maxFragSize := by decide
      rw [if_neg hbuf]
      simp only
      rw [returns_get_bind]
      have hlen : (buf.drop (buf.length - min buf.length maxFragSize)).length =
          min buf.length maxFragSize := by
        rw [length_drop]
        omega
      refine returns_newFirst h hp hchain hl (by omega) (Nat.min_le_right _ _) fun f t m hnew => ?_
      rw [returns_get_bind, hnew.mem, returns_deref_bind, returns_memmove_bind]
      rw [← hlen] at hnew
      obtain ⟨hwork, hbytes, hself⟩ := hnew.fill hl
      refine (ih hwork.ok (hwork.lt hp) hwork.chain hwork.mem ?_).mono ?_
      · rw [length_take]
        omega
      · rintro ⟨⟩ v ⟨held', l', hwork', hbytes'⟩
        refine ⟨held', l', hwork.trans hwork', ?_⟩
        rw [hbytes', bytesOf_cons, hself, hbytes, ← append_assoc, take_append_drop]

/-- The chain of a packet is empty, or has a first fragment in memory. -/
theorem Growing.cases_first {s₁ : Heap} (h : Growing s s₁ own held p b n)
    (hown : PacketsOk s own held) :
    ((s₁.packet p).first = none ∧ own p = []) ∨
      ∃ l f m, own p = f :: l ∧ (s₁.packet p).first = some f ∧
        (∀ g ∈ f :: l, g ∈ held) ∧ m < s₁.nmem ∧ (s₁.frag f).mem = some m ∧
        (s₁.frag f).rp < (s₁.frag f).wp := by
  have hfirst := h.chain.linked.head_eq
  have hmem := hown.mem (p := p)
  cases hfl : own p with
  | nil =>
    rw [hfl, List.head?_nil] at hfirst
    exact .inl ⟨hfirst, rfl⟩
  | cons f l =>
    rw [hfl] at hfirst hmem
    obtain ⟨m, hm, hfm, hlt, -⟩ := h.ok.inMem f (hmem f mem_cons_self)
    exact .inr ⟨l, f, m, rfl, hfirst, hmem, hm, hfm, hlt⟩

/-- **`packetprefix`** puts bytes in front of a packet, when the memory of its first
fragment is not shared. -/
theorem packetprefix_spec (h : s.Ok) (hp : s.abs p = some b) (hlen : b.length + buf.length < 2 ^ 31)
    (hsole : buf ≠ [] → ∀ f, (s.packet p).first = some f → Sole s f) :
    Returns ( packetprefix p buf) s fun _ t =>
      t.Ok ∧ t.abs = update s.abs p (some (buf ++ b)) := by
  obtain ⟨own, held, h⟩ := h
  have hsize := (h.of_abs hp).1
  unfold packetprefix
  refine returns_notFree_bind hsize ?_
  by_cases hbuf : buf = []
  · rw [if_pos hbuf, returns_pure, hbuf, nil_append, ← hp, update_eq_self]
    exact ⟨⟨own, held, h⟩, rfl⟩
  rw [if_neg hbuf, returns_modifyPacket_bind, returns_get_bind]
  have hgrow := h.growing hp hlen
  generalize s.setPacket p { s.packet p with
    size := wrapInt ((s.packet p).size + buf.length) } = s₁ at hgrow ⊢
  have hloop : ∀ (s₂ : Heap) (held₂ : Finset FragId) (l₂ : List FragId) (rest : List UInt8),
      Reworked s₁ s₂ p held (own p) held₂ l₂ → rest ++ s₂.bytesOf l₂ = buf ++ b →
      Returns (prefixFrags p rest.length rest >>= fun _ => notFree p) s₂ fun _ t =>
        t.Ok ∧ t.abs = update s.abs p (some (buf ++ b)) := by
    intro s₂ held₂ l₂ rest hwork hrest
    rw [← hrest]
    exact hgrow.returns_frags hwork (by rw [hrest, length_append, Nat.add_comm])
      (prefixFrags_spec hwork.ok (hwork.lt hgrow.lt) hwork.chain hwork.mem le_rfl)
  rcases hgrow.cases_first h with
    ⟨hfirst, -⟩ | ⟨l, f, m, hown, hfirst, hmem, hm, hfm, hlt⟩
  · rw [hfirst]
    exact hloop s₁ held (own p) buf (Reworked.refl hgrow.ok hgrow.chain h.mem)
      (by rw [hgrow.bytes])
  · have href : (s₁.mem m).ref = 1 := by
      rw [hgrow.mem]
      exact hsole hbuf f (by rw [← hgrow.first, hfirst]) m (by rw [← hgrow.frag, hfm])
    rw [hfirst]
    simp only [returns_deref_bind, hfm, href, if_true, returns_pure_bind]
    rw [returns_modifyFrag_bind, returns_memmove_bind, returns_pure_bind]
    generalize hnn : min (s₁.frag f).rp buf.length = nn
    have hdrop : (buf.drop (buf.length - nn)).length = nn := by
      rw [length_drop]
      omega
    have hchain := hgrow.chain
    have hbytes := hgrow.bytes
    rw [hown] at hchain hloop hbytes
    obtain ⟨hwork, hwide⟩ := Reworked.prependFirst (buf.drop (buf.length - nn)) hgrow.ok
      hchain hmem hm hfm href (by omega)
    rw [hdrop] at hwork hwide
    refine hloop _ held _ (buf.take (buf.length - nn)) hwork
      ((congrArg (buf.take (buf.length - nn) ++ ·) hwide).trans ?_)
    rw [hbytes, ← append_assoc, take_append_drop]

/-- **`packetheader`** puts `n` bytes in front of a packet and tells where they are, when the
memory of its first fragment is not shared or has no room. -/
theorem packetheader_spec {n : ℤ} (h : s.Ok) (hp : s.abs p = some b)
    (hlen : 0 < n → n ≤ maxFragSize → b.length + n < 2 ^ 31)
    (hsole : 0 < n → n ≤ maxFragSize → ∀ f m, (s.packet p).first = some f →
      (s.frag f).mem = some m → n ≤ (s.frag f).rp → (s.mem m).ref = 1) :
    Returns (packetheader p n) s fun r t =>
      if n ≤ 0 ∨ n > maxFragSize then t.Ok ∧ r = .error ePacketSize ∧ t.abs = s.abs
      else Extended s t p 0 n.toNat (· ++ b) r := by
  obtain ⟨own, held, h⟩ := h
  rw [packetheader]
  refine h.returns_extend hp hlen ?_
  rintro n rfl hpos hmax s₁ hgrow
  rw [returns_get_bind]
  -- the bytes are in front of the others in a new fragment
  have hnew : Returns (do
        let f ← fragalloc p n .pEnd (s₁.packet p).first
        linkFirst p f
        notFree p
        let s ← get
        let m ← deref (s.frag f).mem
        pure (.ok (m, (s.frag f).rp) : Except String (ℕ × ℕ))) s₁
      fun r t => Extended s t p 0 n (· ++ b) r := by
    refine returns_newFirst hgrow.ok hgrow.lt hgrow.chain h.mem (by omega) (by omega)
      fun f t m hnew => ?_
    refine hgrow.extended h hp [] (own p) hnew.work hnew.mem hnew.size.ge rfl ?_ ?_ ?_ hnew.sole
      (x := t.fragBytes f)
    · rw [nil_append, bytesOf_cons, hnew.bytes, hgrow.bytes]
    · rw [hnew.length_fragBytes]
    · rw [length_append, hnew.length_fragBytes, Nat.add_comm]
  rcases hgrow.cases_first h with
    ⟨hfirst, -⟩ | ⟨l, f, m, hown, hfirst, hmem, hm, hfm, hlt⟩
  · rw [hfirst] at hnew ⊢
    exact hnew
  · rw [hfirst] at hnew ⊢
    simp only [returns_deref_bind, hfm]
    by_cases hfits : (n : ℤ) ≤ (s₁.frag f).rp
    · have href : (s₁.mem m).ref = 1 := by
        rw [hgrow.frag] at hfits
        rw [hgrow.mem]
        exact hsole (by omega) (by omega) f m (by rw [← hgrow.first, hfirst])
          (by rw [← hgrow.frag, hfm]) hfits
      have hcast : ((s₁.frag f).rp - (n : ℤ)).toNat = (s₁.frag f).rp - n := by omega
      simp only [if_pos hfits, href, if_true, returns_pure_bind]
      rw [returns_modifyFrag_bind, hcast]
      have hchain := hgrow.chain
      have hbytes := hgrow.bytes
      rw [hown] at hchain hbytes
      obtain ⟨hwork, hwide⟩ := Reworked.widenFirst (n := n) hgrow.ok hchain hmem hfm (by omega)
      rw [hbytes] at hwide
      rw [← hown] at hwork
      have hx : ((s₁.mem m).read ((s₁.frag f).rp - n) n).length = n := by simp [Mem.read]
      refine hgrow.extended h hp [] l (by rw [nil_append, ← hown]; exact hwork) (m := m)
        (by simp [hfm]) ?_
        rfl hwide hx (by rw [length_append, hx, Nat.add_comm]) fun g hg => .inl (hown ▸ hg)
      simp only [Heap.fragSize, Heap.setFrag_frag, update_self]
      omega
    · simp only [if_neg hfits, returns_pure_bind]
      exact hnew

end LibVenti

end Plan9
