import Mathlib.Data.Finset.Card
import Mathlib.Data.List.GetD
import Mathlib.Data.List.Perm.Subperm
import Plan9.LibVenti.Packet

/-!
# The heap of packets

Which fragments are in use is not written down in the heap; here it is a set, `held`.
`Plan9.LibVenti.HeapOk` says how the heap and that set belong together when nobody calls
`packetforeign`: fragments in use have bytes in a piece of memory, **a piece of memory
counts the fragments in use that refer to it**, and the free lists hold neither. The functions
that allocate, duplicate and free fragments change the set by one fragment and leave the
others alone
(`Plan9.LibVenti.fragalloc_spec`, `Plan9.LibVenti.fragdup_spec`,
`Plan9.LibVenti.fragfree_spec`).
-/

namespace Plan9

namespace LibVenti

open Lib List Function

/-- A fragment that was taken and not freed. -/
def Taken (s : Heap) (f : FragId) : Prop :=
  f ∉ s.freeFrag ∧
    match f with
    | .loc p _ => p < s.npacket ∧ (s.frag f).state = .fragLocalAlloc
    | .glob k => k < s.nfrag ∧ (s.frag f).state = .fragGlobal

/-- The bytes of a fragment that is not foreign. -/
def Heap.fragBytes (s : Heap) (f : FragId) : List UInt8 :=
  match (s.frag f).mem with
  | none => []
  | some m => (s.mem m).read (s.frag f).rp (s.fragSize f)

/-- The fragment has bytes, in its memory. -/
def InMem (s : Heap) (f : FragId) : Prop :=
  ∃ m < s.nmem, (s.frag f).mem = some m ∧ (s.frag f).rp < (s.frag f).wp ∧
    (s.frag f).wp ≤ (s.mem m).size

/-- The fragments in use that refer to a piece of memory. -/
def Heap.sharers (s : Heap) (held : Finset FragId) (m : ℕ) : Finset FragId :=
  held.filter fun f => (s.frag f).mem = some m

/-- The heap with the fragments of `held` in use, none of them foreign. -/
structure HeapOk (s : Heap) (held : Finset FragId) : Prop where
  taken : ∀ f ∈ held, Taken s f
  plain : ∀ f, (s.frag f).Plain
  inMem : ∀ f ∈ held, InMem s f
  ref : ∀ m < s.nmem, (s.mem m).ref = (s.sharers held m).card
  size : ∀ m < s.nmem, (s.mem m).size = smallMemSize ∨ (s.mem m).size = maxFragSize
  freeFrag_nodup : s.freeFrag.Nodup
  freeFrag : ∀ f ∈ s.freeFrag, ∃ k < s.nfrag, f = .glob k ∧ (s.frag f).state = .fragGlobal
  freeSmall_nodup : s.freeSmall.Nodup
  freeSmall : ∀ m ∈ s.freeSmall, m < s.nmem ∧ (s.mem m).ref = 0 ∧ (s.mem m).size = smallMemSize
  freeBig_nodup : s.freeBig.Nodup
  freeBig : ∀ m ∈ s.freeBig, m < s.nmem ∧ (s.mem m).ref = 0 ∧ (s.mem m).size = maxFragSize

/-- The fragments of `held` are in use, of whatever kind, and none of the free ones is. -/
structure FragsOk (s : Heap) (held : Finset FragId) : Prop where
  taken : ∀ f ∈ held, Taken s f
  freeFrag_nodup : s.freeFrag.Nodup
  freeFrag : ∀ f ∈ s.freeFrag, ∃ k < s.nfrag, f = .glob k ∧ (s.frag f).state = .fragGlobal

/-- What does not change while a fragment is in use. -/
def Frag.origin (f : Frag) : FragState × Option ℕ × Option ℕ := (f.state, f.free, f.a)

theorem plain_congr {f g : Frag} (h : (f.free, f.a) = (g.free, g.a)) : f.Plain ↔ g.Plain := by
  obtain ⟨hfree, ha⟩ := Prod.mk.inj h
  rw [Frag.Plain, Frag.Plain, hfree, ha]

theorem HeapOk.frags {s : Heap} {held : Finset FragId} (h : HeapOk s held) : FragsOk s held :=
  ⟨h.taken, h.freeFrag_nodup, h.freeFrag⟩

/-- What is the same in two heaps as far as the packets and the fragments of `keep`
go. -/
structure Frame (s t : Heap) (keep : Finset FragId) : Prop where
  packet : t.packet = s.packet
  npacket : t.npacket = s.npacket
  freePacket : t.freePacket = s.freePacket
  frag : ∀ f ∈ keep, t.frag f = s.frag f
  bytes : ∀ f ∈ keep, t.fragBytes f = s.fragBytes f

theorem Frame.refl (s : Heap) (keep : Finset FragId) : Frame s s keep :=
  ⟨rfl, rfl, rfl, fun _ _ => rfl, fun _ _ => rfl⟩

variable {s t : Heap}

variable {u : Heap}

theorem Frame.trans {keep keep' : Finset FragId} (h : Frame s t keep) (h' : Frame t u keep')
    (hsub : keep' ⊆ keep) : Frame s u keep' where
  packet := h'.packet.trans h.packet
  npacket := h'.npacket.trans h.npacket
  freePacket := h'.freePacket.trans h.freePacket
  frag f hf := (h'.frag f hf).trans (h.frag f (hsub hf))
  bytes f hf := (h'.bytes f hf).trans (h.bytes f (hsub hf))

/-! ### Rules for the primitives -/

variable {p m : ℕ} {f : FragId}

variable {off : ℕ} {bytes : List UInt8}

section Rules

variable {α : Type} {s : Heap} {k : Unit → PacketM α} {Q : α → Heap → Prop}

@[simp]
theorem returns_modifyPacket_bind {g : Packet → Packet} :
    Returns (modifyPacket p g >>= k) s Q ↔ Returns (k ()) (s.setPacket p (g (s.packet p))) Q :=
  Iff.rfl

@[simp]
theorem returns_modifyFrag_bind {g : Frag → Frag} :
    Returns (modifyFrag f g >>= k) s Q ↔ Returns (k ()) (s.setFrag f (g (s.frag f))) Q :=
  Iff.rfl

@[simp]
theorem returns_modifyMem_bind {g : Mem → Mem} :
    Returns (modifyMem m g >>= k) s Q ↔ Returns (k ()) (s.setMem m (g (s.mem m))) Q := Iff.rfl

@[simp]
theorem returns_memmove_bind :
    Returns (memmove m off bytes >>= k) s Q ↔
      Returns (k ()) (s.setMem m ((s.mem m).store off bytes)) Q := Iff.rfl

@[simp]
theorem returns_set_bind :
    Returns ((set t : PacketM Unit) >>= k) s Q ↔ Returns (k ()) t Q := Iff.rfl

@[simp]
theorem returns_deref_bind {β : Type} {x : β} {k : β → PacketM α} :
    Returns (deref (some x) >>= k) s Q ↔ Returns (k x) s Q := Iff.rfl

theorem returns_assert_bind {c : Bool} (hc : c = true) (h : Returns (k ()) s Q) :
    Returns (assert c >>= k) s Q := by
  subst hc
  exact h

theorem returns_notFree_bind (hp : 0 ≤ (s.packet p).size) (h : Returns (k ()) s Q) :
    Returns (notFree p >>= k) s Q := by
  have hassert : Returns (assert (decide (0 ≤ (s.packet p).size)) >>= k) s Q :=
    returns_assert_bind (decide_eq_true hp) h
  exact hassert

end Rules

/-! ### Fragments -/

variable {g : FragId}

variable {l : List FragId}

/-- Chains of fragments in use are not longer than the number of fragments. -/
theorem length_lt_count (hnodup : l.Nodup) (hl : ∀ f ∈ l, Taken s f) :
    l.length < s.count := by
  let all : List FragId := (List.range s.npacket).flatMap (fun p => [.loc p 0, .loc p 1]) ++
      (List.range s.nfrag).map .glob
  have hlen : s.count = all.length + 1 := by
    simp [all, Heap.count, Nat.mul_comm]
  rw [hlen, Nat.lt_succ_iff]
  refine (hnodup.subperm fun f hf => ?_).length_le
  obtain ⟨-, htaken⟩ := hl f hf
  cases f with
  | loc p i =>
    refine mem_append_left _ (mem_flatMap.2 ⟨p, mem_range.2 htaken.1, ?_⟩)
    match i with
    | 0 => simp
    | 1 => simp
  | glob k =>
    exact mem_append_right _ (mem_map.2 ⟨k, mem_range.2 htaken.1, rfl⟩)

namespace HeapOk

variable {s : Heap} {held : Finset FragId}

/-- The only fragment of a piece of memory with one reference. -/
theorem eq_of_ref_one (h : HeapOk s held) (hm : m < s.nmem) (href : (s.mem m).ref = 1)
    (hf : f ∈ held) (hfm : (s.frag f).mem = some m) (hg : g ∈ held) (hgm : (s.frag g).mem = some m)
    : f = g := by
  have hcard : (s.sharers held m).card = 1 := by
    have := h.ref m hm
    omega
  obtain ⟨x, hx⟩ := Finset.card_eq_one.1 hcard
  have hfx : f ∈ s.sharers held m := Finset.mem_filter.2 ⟨hf, hfm⟩
  have hgx : g ∈ s.sharers held m := Finset.mem_filter.2 ⟨hg, hgm⟩
  rw [hx, Finset.mem_singleton] at hfx hgx
  rw [hfx, hgx]

/-- Nobody refers to memory without references. -/
theorem mem_ne_of_ref_zero (h : HeapOk s held) (hm : m < s.nmem) (href : (s.mem m).ref = 0)
    (hf : f ∈ held) : (s.frag f).mem ≠ some m := by
  intro hfm
  have hmem : f ∈ s.sharers held m := Finset.mem_filter.2 ⟨hf, hfm⟩
  have hpos := Finset.card_pos.2 ⟨f, hmem⟩
  have := h.ref m hm
  omega

end HeapOk

variable {held : Finset FragId} {x : Frag}

@[simp]
theorem sharers_setFrag (hf : f ∉ held) (m : ℕ) :
    (s.setFrag f x).sharers held m = s.sharers held m := by
  refine Finset.filter_congr fun g hg => ?_
  rw [Heap.setFrag_frag, update_of_ne (ne_of_mem_of_not_mem hg hf)]

theorem fragBytes_setFrag_of_ne (h : g ≠ f) : (s.setFrag f x).fragBytes g = s.fragBytes g := by
  simp [Heap.fragBytes, Heap.fragSize, update_of_ne h]

/-- The fragments are plain with one more that is. -/
theorem plain_setFrag (h : ∀ g, (s.frag g).Plain) (hx : x.Plain) (g : FragId) :
    ((s.setFrag f x).frag g).Plain := by
  rcases eq_or_ne g f with rfl | hgf
  · rw [Heap.setFrag_frag, update_self]
    exact hx
  · rw [Heap.setFrag_frag, update_of_ne hgf]
    exact h g

/-- Fragments that are not in use may change. -/
theorem HeapOk.setFrag {s : Heap} {held : Finset FragId} (h : HeapOk s held) {f : FragId}
    {x : Frag} (hx : x.Plain) (hf : f ∉ held) (hfree : f ∉ s.freeFrag) :
    HeapOk (s.setFrag f x) held := by
  have hne : ∀ g ∈ held, g ≠ f := fun g hg => ne_of_mem_of_not_mem hg hf
  refine ⟨fun g hg => ?_, plain_setFrag h.plain hx, fun g hg => ?_, fun m hm => ?_, h.size,
    h.freeFrag_nodup, fun g hg => ?_, h.freeSmall_nodup, h.freeSmall, h.freeBig_nodup, h.freeBig⟩
  · have htaken := h.taken g hg
    simp only [Taken, Heap.setFrag_frag, update_of_ne (hne g hg)] at htaken ⊢
    exact htaken
  · have hmem := h.inMem g hg
    simp only [InMem, Heap.setFrag_frag, update_of_ne (hne g hg)] at hmem ⊢
    exact hmem
  · rw [sharers_setFrag hf]
    exact h.ref m hm
  · have hgf : g ≠ f := ne_of_mem_of_not_mem hg hfree
    rw [Heap.setFrag_frag, update_of_ne hgf]
    exact h.freeFrag g hg

theorem Frame.setFrag {s : Heap} {held : Finset FragId} {f : FragId} {x : Frag} (hf : f ∉ held) :
    Frame s (s.setFrag f x) held where
  packet := rfl
  npacket := rfl
  freePacket := rfl
  frag g hg := by rw [Heap.setFrag_frag, update_of_ne (ne_of_mem_of_not_mem hg hf)]
  bytes g hg := fragBytes_setFrag_of_ne (ne_of_mem_of_not_mem hg hf)

/-- A fragment was taken: only its state and the list of the free ones have changed. -/
structure FragTaken (s t : Heap) (held : Finset FragId) (f : FragId) : Prop where
  ok : FragsOk t (insert f held)
  not_mem : f ∉ held
  heap : ∃ state free n, t = { s.setFrag f { s.frag f with state := state } with
    freeFrag := free, nfrag := n }

/-- A free fragment of a packet. -/
theorem fragTaken_local {i : Fin 2} (h : FragsOk s held) (hp : p < s.npacket)
    (hfree : (s.frag (.loc p i)).state = .fragLocalFree) :
    FragTaken s (s.setFrag (.loc p i) { s.frag (.loc p i) with state := .fragLocalAlloc }) held
      (.loc p i) := by
  have hmem : FragId.loc p i ∉ held := by
    intro hheld
    have hstate := (h.taken _ hheld).2.2
    rw [hfree] at hstate
    exact absurd hstate (by decide)
  have hlist : FragId.loc p i ∉ s.freeFrag := by
    intro hin
    obtain ⟨k, -, hk, -⟩ := h.freeFrag _ hin
    exact absurd hk (by simp)
  refine ⟨⟨fun g hg => ?_, h.freeFrag_nodup, fun g hg => ?_⟩, hmem, _, s.freeFrag, s.nfrag, rfl⟩
  · rcases Finset.mem_insert.1 hg with rfl | hg
    · exact ⟨hlist, hp, by rw [Heap.setFrag_frag, update_self]⟩
    · have htaken := h.taken g hg
      simp only [Taken, Heap.setFrag_frag, update_of_ne (ne_of_mem_of_not_mem hg hmem)]
        at htaken ⊢
      exact htaken
  · rw [Heap.setFrag_frag, update_of_ne (ne_of_mem_of_not_mem hg hlist)]
    exact h.freeFrag g hg

/-- **`findFrag`** takes a fragment that is not in use. -/
theorem findFrag_taken (h : FragsOk s held) (hp : p < s.npacket) :
    Returns (findFrag p) s fun f t => FragTaken s t held f := by
  rw [findFrag, returns_get_bind]
  split
  next hfree =>
    rw [returns_modifyFrag_bind, returns_pure]
    exact fragTaken_local h hp hfree
  next =>
  split
  next hfree =>
    rw [returns_modifyFrag_bind, returns_pure]
    exact fragTaken_local h hp hfree
  next =>
  split
  next f rest hlist =>
    rw [returns_set_bind, returns_pure]
    obtain ⟨k, hk, rfl, hstate⟩ := h.freeFrag f (by rw [hlist]; exact mem_cons_self)
    have hnodup := h.freeFrag_nodup
    rw [hlist, nodup_cons] at hnodup
    have hmem : FragId.glob k ∉ held := fun hheld =>
      (h.taken _ hheld).1 (by rw [hlist]; exact mem_cons_self)
    refine ⟨⟨fun g hg => ?_, hnodup.2, fun g hg => h.freeFrag g ?_⟩, hmem, (s.frag (.glob k)).state,
      rest, s.nfrag, by rw [Heap.setFrag, update_eq_self]⟩
    · rcases Finset.mem_insert.1 hg with rfl | hg
      · exact ⟨hnodup.1, hk, hstate⟩
      · refine ⟨fun hin => (h.taken g hg).1 ?_, (h.taken g hg).2⟩
        rw [hlist]
        exact mem_cons_of_mem _ hin
    · rw [hlist]
      exact mem_cons_of_mem _ hg
  next hlist =>
    rw [returns_set_bind, returns_modifyFrag_bind, returns_pure]
    have hmem : FragId.glob s.nfrag ∉ held := fun hheld =>
      absurd (h.taken _ hheld).2.1 (lt_irrefl _)
    have hnil : ∀ f, f ∉ s.freeFrag := by
      intro f
      rw [hlist]
      exact not_mem_nil
    refine ⟨⟨fun g hg => ?_, h.freeFrag_nodup, fun g hg => absurd hg (hnil g)⟩, hmem, _, s.freeFrag,
      s.nfrag + 1, rfl⟩
    rcases Finset.mem_insert.1 hg with rfl | hg
    · exact ⟨hnil _, Nat.lt_succ_self _, by rw [Heap.setFrag_frag, update_self]⟩
    · obtain ⟨hnot, htaken⟩ := h.taken g hg
      refine ⟨hnot, ?_⟩
      cases g with
      | loc q i =>
        rw [Heap.setFrag_frag, update_of_ne (by simp)]
        exact htaken
      | glob k =>
        rw [Heap.setFrag_frag, update_of_ne (ne_of_mem_of_not_mem hg hmem)]
        exact ⟨Nat.lt_succ_of_lt htaken.1, htaken.2⟩

/-- The outcome of taking a fragment. -/
structure FragFound (s t : Heap) (held : Finset FragId) (f : FragId) : Prop where
  ok : HeapOk t held
  not_mem : f ∉ held
  taken : Taken t f
  frame : Frame s t held
  mem : t.mem = s.mem
  nmem : t.nmem = s.nmem

theorem findFrag_spec (h : HeapOk s held) (hp : p < s.npacket) :
    Returns (findFrag p) s fun f t => FragFound s t held f := by
  refine (findFrag_taken h.frags hp).mono ?_
  rintro f t ⟨hok, hmem, state, free, n, rfl⟩
  have hne : ∀ g ∈ held, g ≠ f := fun g hg => ne_of_mem_of_not_mem hg hmem
  refine ⟨⟨fun g hg => hok.taken g (Finset.mem_insert_of_mem hg), plain_setFrag h.plain (h.plain f),
    fun g hg => ?_, fun m hm => ?_, h.size, hok.freeFrag_nodup, hok.freeFrag, h.freeSmall_nodup,
    h.freeSmall, h.freeBig_nodup, h.freeBig⟩, hmem, hok.taken f (Finset.mem_insert_self f held),
    Frame.trans (Frame.setFrag hmem) ⟨rfl, rfl, rfl, fun _ _ => rfl, fun _ _ => rfl⟩ subset_rfl,
    rfl, rfl⟩
  · have hin := h.inMem g hg
    simp only [InMem, Heap.setFrag_frag, update_of_ne (hne g hg)] at hin ⊢
    exact hin
  · have hsame : _ = s.sharers held m :=
      sharers_setFrag (x := { s.frag f with state := state }) hmem m
    have href := h.ref m hm
    rw [← hsame] at href
    exact href

/-! ### Memory -/

/-- A piece of memory that nobody refers to was taken from a free list, or is new. -/
structure MemFound (s u : Heap) (held : Finset FragId) (m nn : ℕ) : Prop where
  ok : HeapOk u held
  frame : Frame s u held
  frag : u.frag = s.frag
  freeFrag : u.freeFrag = s.freeFrag
  nfrag : u.nfrag = s.nfrag
  lt : m < u.nmem
  ref : (u.mem m).ref = 0
  size : (u.mem m).size = nn
  not_small : m ∉ u.freeSmall
  not_big : m ∉ u.freeBig

variable {rest : List ℕ}

theorem memFound_small (h : HeapOk s held) (hlist : s.freeSmall = m :: rest) :
    MemFound s { s with freeSmall := rest } held m smallMemSize := by
  have hnodup := h.freeSmall_nodup
  obtain ⟨hlt, href, hsize⟩ := h.freeSmall m (by rw [hlist]; exact mem_cons_self)
  rw [hlist, nodup_cons] at hnodup
  refine ⟨⟨h.taken, h.plain, h.inMem, h.ref, h.size, h.freeFrag_nodup, h.freeFrag, hnodup.2,
    fun m' hm' => h.freeSmall m' ?_, h.freeBig_nodup, h.freeBig⟩,
    ⟨rfl, rfl, rfl, fun _ _ => rfl, fun _ _ => rfl⟩, rfl, rfl, rfl, hlt, href, hsize, hnodup.1,
    fun hbig => ?_⟩
  · rw [hlist]
    exact mem_cons_of_mem _ hm'
  · have hbigsize := (h.freeBig m hbig).2.2
    exact absurd (hsize.symm.trans hbigsize) (by decide)

theorem memFound_big (h : HeapOk s held) (hlist : s.freeBig = m :: rest) :
    MemFound s { s with freeBig := rest } held m maxFragSize := by
  have hnodup := h.freeBig_nodup
  obtain ⟨hlt, href, hsize⟩ := h.freeBig m (by rw [hlist]; exact mem_cons_self)
  rw [hlist, nodup_cons] at hnodup
  refine ⟨⟨h.taken, h.plain, h.inMem, h.ref, h.size, h.freeFrag_nodup, h.freeFrag,
    h.freeSmall_nodup, h.freeSmall, hnodup.2, fun m' hm' => h.freeBig m' ?_⟩,
    ⟨rfl, rfl, rfl, fun _ _ => rfl, fun _ _ => rfl⟩, rfl, rfl, rfl, hlt, href, hsize,
    fun hsmall => ?_, hnodup.1⟩
  · rw [hlist]
    exact mem_cons_of_mem _ hm'
  · have hsmallsize := (h.freeSmall m hsmall).2.2
    exact absurd (hsmallsize.symm.trans hsize) (by decide)

variable {M : Mem}

/-- Memory that no fragment in use refers to may change. -/
theorem fragBytes_setMem (h : (s.frag f).mem ≠ some m) :
    (s.setMem m M).fragBytes f = s.fragBytes f := by
  simp only [Heap.fragBytes, Heap.setMem_frag, Heap.fragSize]
  cases hmem : (s.frag f).mem with
  | none => rfl
  | some m' =>
    have hne : m' ≠ m := fun heq => h (by rw [hmem, heq])
    simp only [Heap.setMem_mem, update_of_ne hne]

variable {nn : ℕ}

theorem memFound_new (h : HeapOk s held) (hnn : nn = smallMemSize ∨ nn = maxFragSize) :
    MemFound s { s.setMem s.nmem ⟨0, nn, fun _ => 0, 0, 0⟩ with nmem := s.nmem + 1 } held s.nmem
      nn := by
  have hold : ∀ m < s.nmem, (s.setMem s.nmem ⟨0, nn, fun _ => 0, 0, 0⟩).mem m = s.mem m :=
    fun m hm => by rw [Heap.setMem_mem, update_of_ne hm.ne]
  have hnew : (s.setMem s.nmem ⟨0, nn, fun _ => 0, 0, 0⟩).mem s.nmem =
      ⟨0, nn, fun _ => 0, 0, 0⟩ := by rw [Heap.setMem_mem, update_self]
  have hne : ∀ f ∈ held, (s.frag f).mem ≠ some s.nmem := by
    intro f hf hmem
    obtain ⟨m, hm, hfm, -⟩ := h.inMem f hf
    rw [hmem, Option.some.injEq] at hfm
    omega
  refine ⟨⟨h.taken, h.plain, fun f hf => ?_, fun m hm => ?_, fun m hm => ?_, h.freeFrag_nodup,
    h.freeFrag, h.freeSmall_nodup, fun m hm => ?_, h.freeBig_nodup, fun m hm => ?_⟩,
    ⟨rfl, rfl, rfl, fun _ _ => rfl, fun f hf => fragBytes_setMem (hne f hf)⟩, rfl, rfl, rfl,
    Nat.lt_succ_self _, ?_, ?_, fun hm => ?_, fun hm => ?_⟩
  · obtain ⟨m, hm, hfm, hlt, hle⟩ := h.inMem f hf
    refine ⟨m, Nat.lt_succ_of_lt hm, hfm, hlt, ?_⟩
    rw [hold m hm]
    exact hle
  · rcases Nat.lt_succ_iff_lt_or_eq.1 hm with hlt | rfl
    · rw [hold m hlt]
      exact h.ref m hlt
    · rw [hnew]
      have hnone : s.sharers held s.nmem = ∅ := Finset.filter_eq_empty_iff.2 fun f hf => hne f hf
      exact congrArg (fun x : Finset FragId => (x.card : ℤ)) hnone.symm
  · rcases Nat.lt_succ_iff_lt_or_eq.1 hm with hlt | rfl
    · rw [hold m hlt]
      exact h.size m hlt
    · rw [hnew]
      exact hnn
  · obtain ⟨hlt, hrest⟩ := h.freeSmall m hm
    rw [hold m hlt]
    exact ⟨Nat.lt_succ_of_lt hlt, hrest⟩
  · obtain ⟨hlt, hrest⟩ := h.freeBig m hm
    rw [hold m hlt]
    exact ⟨Nat.lt_succ_of_lt hlt, hrest⟩
  · rw [hnew]
  · rw [hnew]
  · exact absurd (h.freeSmall _ hm).1 (lt_irrefl _)
  · exact absurd (h.freeBig _ hm).1 (lt_irrefl _)

variable {n : ℕ}

/-- The place of the bytes in a piece of memory that was found. -/
theorem memalloc_place (pos : Pos) (hfound : MemFound s u held m nn) (hle : n ≤ nn) (hn : 0 < n) :
    Returns (do
      let s ← get
      assert ((s.mem m).ref = 0)
      let rp : ℤ := match pos with
        | .pFront => 0
        | .pMiddle => (s.mem m).size - n - 32
        | .pEnd => (s.mem m).size - n
      let rp := if rp < 0 then 0 else rp
      modifyMem m fun mem => { mem with ref := 1, rp := rp.toNat, wp := (rp + n).toNat }
      assert (rp + n ≤ (s.mem m).size)
      pure (some m)) u fun r t =>
      ∃ m nn u M, r = some m ∧ t = u.setMem m M ∧ MemFound s u held m nn ∧ M.ref = 1 ∧
        M.size = (u.mem m).size ∧ M.wp = M.rp + n ∧ M.wp ≤ M.size := by
  have hsize := hfound.size
  rw [returns_get_bind]
  refine returns_assert_bind (decide_eq_true hfound.ref) ?_
  generalize hrp₀ : (match pos with
    | .pFront => (0 : ℤ)
    | .pMiddle => (u.mem m).size - n - 32
    | .pEnd => (u.mem m).size - n) = rp₀
  have hrp₀le : rp₀ ≤ (u.mem m).size - n := by
    rw [← hrp₀]
    cases pos with
    | pFront => simp only; omega
    | pMiddle => simp only; omega
    | pEnd => exact le_rfl
  simp only
  generalize hrp : (if rp₀ < 0 then 0 else rp₀) = rp
  have hrpnn : 0 ≤ rp := by
    rw [← hrp]
    split <;> omega
  have hrple : rp + n ≤ (u.mem m).size := by
    rw [← hrp]
    split <;> omega
  rw [returns_modifyMem_bind]
  refine returns_assert_bind (decide_eq_true hrple) ?_
  rw [returns_pure]
  refine ⟨m, nn, u, _, rfl, rfl, hfound, rfl, rfl, ?_, ?_⟩
  · simp only
    omega
  · simp only
    omega

/-- The outcome of `memalloc`: memory with one reference, whose range has `n` bytes. -/
theorem memalloc_spec (h : HeapOk s held) (hn : 0 < n) (hmax : n ≤ maxFragSize) (pos : Pos) :
    Returns (memalloc n pos) s fun r t =>
      ∃ m nn u M, r = some m ∧ t = u.setMem m M ∧ MemFound s u held m nn ∧ M.ref = 1 ∧
        M.size = (u.mem m).size ∧ M.wp = M.rp + n ∧ M.wp ≤ M.size := by
  have hrange : ¬((n : ℤ) < 0 ∨ (n : ℤ) > maxFragSize) := by omega
  have hsmallmax : smallMemSize ≤ maxFragSize := by decide
  rw [memalloc, if_neg hrange, returns_get_bind]
  by_cases hsmall : (n : ℤ) ≤ smallMemSize
  · have hle : n ≤ smallMemSize := by omega
    simp only [if_pos hsmall]
    cases hlist : s.freeSmall with
    | nil => exact memalloc_place pos (memFound_new h (.inl rfl)) hle hn
    | cons m rest => exact memalloc_place pos (memFound_small h hlist) hle hn
  · simp only [if_neg hsmall]
    cases hlist : s.freeBig with
    | nil => exact memalloc_place pos (memFound_new h (.inr rfl)) hmax hn
    | cons m rest => exact memalloc_place pos (memFound_big h hlist) hmax hn

/-! ### Taking a fragment into use -/

/-- What the new memory has in common with the old one stays. -/
theorem Heap.field_setMem {α : Type} (field : Mem → α) (h : field M = field (s.mem m)) (m' : ℕ) :
    field ((s.setMem m M).mem m') = field (s.mem m') := by
  rw [Heap.setMem_mem, update_apply]
  split
  next heq => rw [heq, h]
  next => rfl

/-- **A fragment and its memory are rewritten**: what else is in use was so before. -/
theorem HeapOk.rewrite {held' : Finset FragId} (h : HeapOk s held)
    (hsub : ∀ g ∈ held', g ≠ f → g ∈ held) (hfree : f ∉ s.freeFrag)
    (hsize : M.size = (s.mem m).size) (hsmall : m ∉ s.freeSmall) (hbig : m ∉ s.freeBig)
    (hx : x.Plain) (htaken : f ∈ held' → Taken (s.setFrag f x) f)
    (hin : f ∈ held' → InMem ((s.setMem m M).setFrag f x) f)
    (href : ∀ m' < s.nmem, ((s.setMem m M).mem m').ref =
      (((s.setMem m M).setFrag f x).sharers held' m').card) :
    HeapOk ((s.setMem m M).setFrag f x) held' := by
  have hsizes := Heap.field_setMem Mem.size hsize
  have hmems : ∀ m' ≠ m, (s.setMem m M).mem m' = s.mem m' :=
    fun m' hmm => by rw [Heap.setMem_mem, update_of_ne hmm]
  refine ⟨fun g hg => ?_, plain_setFrag h.plain hx, fun g hg => ?_, href, fun m' hm' => ?_,
    h.freeFrag_nodup, fun g hg => ?_, h.freeSmall_nodup, fun m' hm' => ?_, h.freeBig_nodup,
    fun m' hm' => ?_⟩
  · rcases eq_or_ne g f with rfl | hgf
    · exact htaken hg
    · have htaken' := h.taken g (hsub g hg hgf)
      simp only [Taken, Heap.setFrag_frag, update_of_ne hgf] at htaken' ⊢
      exact htaken'
  · rcases eq_or_ne g f with rfl | hgf
    · exact hin hg
    · obtain ⟨m', hm', hgm, hlt, hle⟩ := h.inMem g (hsub g hg hgf)
      refine ⟨m', hm', ?_⟩
      simp only [Heap.setFrag_frag, update_of_ne hgf, Heap.setMem_frag]
      refine ⟨hgm, hlt, ?_⟩
      rw [Heap.setFrag_mem, hsizes]
      exact hle
  · rw [Heap.setFrag_mem, hsizes]
    exact h.size m' hm'
  · rw [Heap.setFrag_frag, update_of_ne (ne_of_mem_of_not_mem hg hfree)]
    exact h.freeFrag g hg
  · rw [Heap.setFrag_mem, hmems m' (ne_of_mem_of_not_mem hm' hsmall)]
    exact h.freeSmall m' hm'
  · rw [Heap.setFrag_mem, hmems m' (ne_of_mem_of_not_mem hm' hbig)]
    exact h.freeBig m' hm'

/-- **A fragment comes into use** with memory that has one reference more. -/
theorem HeapOk.insert (h : HeapOk s held) (hf : f ∉ held) (htaken : Taken s f) (hm : m < s.nmem)
    (horigin : x.origin = (s.frag f).origin) (hxm : x.mem = some m) (hrp : x.rp < x.wp)
    (hwp : x.wp ≤ M.size) (href : M.ref = (s.mem m).ref + 1) (hsize : M.size = (s.mem m).size)
    (hsmall : m ∉ s.freeSmall) (hbig : m ∉ s.freeBig) :
    HeapOk ((s.setMem m M).setFrag f x) (Insert.insert f held) := by
  obtain ⟨hstate, hplain⟩ := Prod.mk.inj horigin
  refine h.rewrite (fun g hg hgf => (Finset.mem_insert.1 hg).resolve_left hgf) htaken.1 hsize
    hsmall hbig ((plain_congr hplain).2 (h.plain f)) (fun _ => ⟨htaken.1, ?_⟩)
    (fun _ => ⟨m, hm, ?_⟩) fun m' hm' => ?_
  · have htaken' := htaken.2
    simp only [Heap.setFrag_frag, update_self, hstate]
    exact htaken'
  · simp only [Heap.setFrag_frag, Heap.setFrag_mem, Heap.setMem_mem, update_self]
    exact ⟨hxm, hrp, hwp⟩
  · have hold : ((s.setMem m M).setFrag f x).sharers held m' = s.sharers held m' :=
      sharers_setFrag hf m'
    rw [Heap.sharers, Finset.filter_insert, ← Heap.sharers, hold, Heap.setFrag_frag, update_self,
      hxm, Heap.setMem_mem]
    rcases eq_or_ne m' m with rfl | hmm
    · have hnot : f ∉ s.sharers held m' := fun hg => hf (Finset.mem_filter.1 hg).1
      rw [if_pos rfl, Finset.card_insert_of_notMem hnot, update_self, href, h.ref m' hm']
      push_cast
      rfl
    · rw [if_neg fun heq => hmm (Option.some.inj heq).symm, update_of_ne hmm]
      exact h.ref m' hm'

/-- The outcome of `fragalloc` for `n` bytes, and of `fragdup`. -/
structure FragNew (s t : Heap) (held : Finset FragId) (f : FragId) : Prop where
  ok : HeapOk t (insert f held)
  not_mem : f ∉ held
  frame : Frame s t held

/-- **`fragalloc`** takes a fragment into use, with memory of its own. -/
theorem fragalloc_spec (h : HeapOk s held) (hp : p < s.npacket) (hn : 0 < n)
    (hmax : n ≤ maxFragSize) (pos : Pos) (next : Option FragId) :
    Returns (fragalloc p n pos next) s fun f t =>
      FragNew s t held f ∧ t.next f = next ∧ t.fragSize f = n ∧
        ∃ m < t.nmem, (t.frag f).mem = some m ∧ (t.mem m).ref = 1 := by
  have hn0 : ¬(n : ℤ) = 0 := by omega
  rw [fragalloc]
  refine (findFrag_spec h hp).bind ?_
  intro f s₁ hfound
  simp only [if_neg hn0]
  refine (memalloc_spec hfound.ok hn hmax _).bind ?_
  rintro r t ⟨m, nn, u, M, rfl, rfl, hmem, href, hsize, hwp, hle⟩
  rw [returns_deref_bind, returns_get_bind, returns_modifyFrag_bind, returns_pure]
  have hMm : (u.setMem m M).mem m = M := by rw [Heap.setMem_mem, update_self]
  have htaken : Taken u f := by
    obtain ⟨hnot, htaken⟩ := hfound.taken
    refine ⟨by rw [hmem.freeFrag]; exact hnot, ?_⟩
    cases f with
    | loc q i => rw [hmem.frame.npacket, hmem.frag]; exact htaken
    | glob k => rw [hmem.nfrag, hmem.frag]; exact htaken
  have hnotmem : ∀ g ∈ held, (u.frag g).mem ≠ some m :=
    fun g hg => hmem.ok.mem_ne_of_ref_zero hmem.lt hmem.ref hg
  refine ⟨⟨?_, hfound.not_mem, ?_⟩, ?_, ?_, m, hmem.lt, ?_, ?_⟩
  · refine hmem.ok.insert hfound.not_mem htaken hmem.lt rfl rfl ?_ ?_ ?_ hsize hmem.not_small
      hmem.not_big
    · simp only [hMm]
      omega
    · simp only [hMm]
      exact hle
    · rw [href, hmem.ref]
      rfl
  · refine (hfound.frame.trans hmem.frame subset_rfl).trans ?_ subset_rfl
    refine ⟨rfl, rfl, rfl, fun g hg => ?_, fun g hg => ?_⟩
    · rw [Heap.setFrag_frag, update_of_ne (ne_of_mem_of_not_mem hg hfound.not_mem)]
      rfl
    · rw [fragBytes_setFrag_of_ne (ne_of_mem_of_not_mem hg hfound.not_mem),
        fragBytes_setMem (hnotmem g hg)]
  · simp [Heap.next]
  · simp only [Heap.fragSize, Heap.setFrag_frag, update_self, hMm]
    omega
  · simp
  · rw [Heap.setFrag_mem, hMm]
    exact href

/-- The range that `m->rp` and `m->wp` name does not matter, and neither does anything but
size, references and bytes. -/
theorem HeapOk.setMem (h : HeapOk s held) (href : M.ref = (s.mem m).ref)
    (hsize : M.size = (s.mem m).size) :
    HeapOk (s.setMem m M) held := by
  have hrefs := Heap.field_setMem Mem.ref href
  have hsizes := Heap.field_setMem Mem.size hsize
  refine ⟨h.taken, h.plain, fun f hf => ?_, fun m' hm' => ?_, fun m' hm' => ?_, h.freeFrag_nodup,
    h.freeFrag, h.freeSmall_nodup, fun m' hm' => ?_, h.freeBig_nodup, fun m' hm' => ?_⟩
  · obtain ⟨m', hm', hfm, hlt, hle⟩ := h.inMem f hf
    exact ⟨m', hm', hfm, hlt, by rw [hsizes]; exact hle⟩
  · rw [hrefs]
    exact h.ref m' hm'
  · rw [hsizes]
    exact h.size m' hm'
  · rw [hrefs, hsizes]
    exact h.freeSmall m' hm'
  · rw [hrefs, hsizes]
    exact h.freeBig m' hm'

/-- Memory in use is not in a free list. -/
theorem HeapOk.not_free (h : HeapOk s held) (hf : f ∈ held) (hm : m < s.nmem)
    (hfm : (s.frag f).mem = some m) :
    m ∉ s.freeSmall ∧ m ∉ s.freeBig :=
  ⟨fun hin => h.mem_ne_of_ref_zero hm (h.freeSmall m hin).2.1 hf hfm,
    fun hin => h.mem_ne_of_ref_zero hm (h.freeBig m hin).2.1 hf hfm⟩

/-- `fragalloc` without memory. -/
theorem fragalloc_zero_spec (h : HeapOk s held) (hp : p < s.npacket) (pos : Pos)
    (next : Option FragId) :
    Returns (fragalloc p 0 pos next) s fun f t => FragFound s t held f := by
  rw [fragalloc]
  refine (findFrag_spec h hp).bind ?_
  intro f t hfound
  rw [if_pos rfl, returns_modifyFrag_bind, returns_pure]
  refine ⟨hfound.ok.setFrag (hfound.ok.plain f) hfound.not_mem hfound.taken.1, hfound.not_mem, ?_,
    hfound.frame.trans (Frame.setFrag hfound.not_mem) subset_rfl, hfound.mem, hfound.nmem⟩
  obtain ⟨hnot, htaken⟩ := hfound.taken
  refine ⟨hnot, ?_⟩
  simp only [Heap.setFrag_frag, update_self]
  exact htaken

/-- The bytes of a fragment are determined by its range and the bytes of its memory. -/
theorem fragBytes_congr (hmem : (t.frag f).mem = (s.frag g).mem)
    (hrp : (t.frag f).rp = (s.frag g).rp) (hwp : (t.frag f).wp = (s.frag g).wp)
    (hdata : ∀ m, (s.frag g).mem = some m → (t.mem m).data = (s.mem m).data) :
    t.fragBytes f = s.fragBytes g := by
  simp only [Heap.fragBytes, Heap.fragSize, hmem, hrp, hwp]
  cases hm : (s.frag g).mem with
  | none => rfl
  | some m => simp only [Mem.read, hdata m hm]

/-- The duplicate of a fragment in use, once its memory knows its range. -/
theorem fragdup_take (h : HeapOk s held) (hp : p < s.npacket) (hg : g ∈ held) (hm : m < s.nmem)
    (hgm : (s.frag g).mem = some m) (hlt : (s.frag g).rp < (s.frag g).wp)
    (hle : (s.frag g).wp ≤ (s.mem m).size) (href : M.ref = (s.mem m).ref)
    (hsize : M.size = (s.mem m).size) (hdata : M.data = (s.mem m).data) :
    Returns (do
      let ff ← fragalloc p 0 .pFront none
      let s ← get
      modifyFrag ff fun g' => { g' with
        mem := (s.frag g).mem, rp := (s.frag g).rp, wp := (s.frag g).wp,
        buf := (s.frag g).buf, next := (s.frag g).next }
      assert (s.frag g).Plain
      addRef (s.frag g)
      pure ff) (s.setMem m M) fun f t =>
      FragNew s t held f ∧ (t.frag f).mem = (s.frag g).mem ∧ (t.frag f).rp = (s.frag g).rp ∧
        (t.frag f).wp = (s.frag g).wp ∧ t.next f = s.next g ∧
        t.fragBytes f = s.fragBytes g := by
  refine (fragalloc_zero_spec (h.setMem href hsize) hp .pFront none).bind ?_
  intro f u hfound
  have hgu : u.frag g = s.frag g := hfound.frame.frag g hg
  have humem : u.mem m = M := by
    rw [hfound.mem, Heap.setMem_mem, update_self]
  have hum : m < u.nmem := by
    rw [hfound.nmem]
    exact hm
  have hugm : (u.frag g).mem = some m := by rw [hgu, hgm]
  obtain ⟨hsmall, hbig⟩ := hfound.ok.not_free hg hum hugm
  rw [returns_get_bind, returns_modifyFrag_bind]
  simp only [hgu, addRef, hgm]
  refine returns_assert_bind (decide_eq_true (h.plain g)) ?_
  rw [returns_modifyMem_bind, returns_pure]
  simp only [Heap.setFrag_mem]
  -- a fragment in use keeps its bytes
  let x : Frag := { u.frag f with
    mem := some m, rp := (s.frag g).rp, wp := (s.frag g).wp, buf := (s.frag g).buf,
    next := (s.frag g).next }
  let M' : Mem := { u.mem m with ref := (u.mem m).ref + 1 }
  have hold : ∀ f' ∈ held, ((u.setFrag f x).setMem m M').frag f' = s.frag f' := by
    intro f' hf'
    rw [Heap.setMem_frag, Heap.setFrag_frag, update_of_ne (ne_of_mem_of_not_mem hf' hfound.not_mem)]
    exact hfound.frame.frag f' hf'
  have hdatas : ∀ m', (((u.setFrag f x).setMem m M').mem m').data = (s.mem m').data := by
    intro m'
    refine (Heap.field_setMem Mem.data (M := M') rfl m').trans ?_
    rw [hfound.mem, Heap.field_setMem Mem.data hdata]
  refine ⟨⟨?_, hfound.not_mem, ?_⟩, by simp, by simp, by simp, by simp [Heap.next], ?_⟩
  · refine hfound.ok.insert hfound.not_mem hfound.taken hum rfl rfl hlt ?_ rfl rfl hsmall hbig
    rw [humem]
    exact hle.trans_eq hsize.symm
  · refine ⟨hfound.frame.packet, hfound.frame.npacket, hfound.frame.freePacket, hold,
      fun f' hf' => ?_⟩
    exact fragBytes_congr (by rw [hold f' hf']) (by rw [hold f' hf']) (by rw [hold f' hf'])
      fun m' _ => hdatas m'
  · exact fragBytes_congr (by simp [hgm]) (by simp) (by simp) fun m' _ => hdatas m'

/-- **`fragdup`** takes a second fragment into use for the same bytes. -/
theorem fragdup_spec (h : HeapOk s held) (hp : p < s.npacket) (hg : g ∈ held) :
    Returns (fragdup p g) s fun f t =>
      FragNew s t held f ∧ (t.frag f).mem = (s.frag g).mem ∧ (t.frag f).rp = (s.frag g).rp ∧
        (t.frag f).wp = (s.frag g).wp ∧ t.next f = s.next g ∧
        t.fragBytes f = s.fragBytes g := by
  obtain ⟨m, hm, hgm, hlt, hle⟩ := h.inMem g hg
  have hrange : Returns (noteRange (s.frag g)) s fun _ t => ∃ M, t = s.setMem m M ∧
      M.ref = (s.mem m).ref ∧ M.size = (s.mem m).size ∧ M.data = (s.mem m).data := by
    simp only [noteRange, hgm]
    rw [returns_get_bind]
    split
    · exact returns_modify.2 ⟨_, rfl, rfl, rfl, rfl⟩
    · refine returns_pure.2 ⟨s.mem m, ?_, rfl, rfl, rfl⟩
      rw [Heap.setMem, update_eq_self]
  rw [fragdup, returns_get_bind]
  refine hrange.bind ?_
  rintro - t ⟨M, rfl, href, hsize, hdata⟩
  exact fragdup_take h hp hg hm hgm hlt hle href hsize hdata

/-! ### Freeing a fragment -/

variable {k : ℕ}

namespace HeapOk

variable {s : Heap} {held : Finset FragId}

/-- **A fragment goes out of use**, and its memory loses a reference. -/
theorem erase (h : HeapOk s held) (hf : f ∈ held) (hm : m < s.nmem) (hfm : (s.frag f).mem = some m)
    (href : M.ref = (s.mem m).ref - 1) (hsize : M.size = (s.mem m).size) (hx : x.Plain) :
    HeapOk ((s.setMem m M).setFrag f x) (held.erase f) := by
  obtain ⟨hsmall, hbig⟩ := h.not_free hf hm hfm
  refine h.rewrite (fun g hg _ => Finset.mem_of_mem_erase hg) (h.taken f hf).1 hsize hsmall hbig hx
    (fun hg => absurd hg (Finset.notMem_erase f held))
    (fun hg => absurd hg (Finset.notMem_erase f held)) fun m' hm' => ?_
  have hcount : ((s.setMem m M).setFrag f x).sharers (held.erase f) m' =
      (s.sharers held m').erase f := by
    rw [Heap.sharers, Heap.sharers, ← Finset.filter_erase]
    refine Finset.filter_congr fun g hg => ?_
    rw [Heap.setFrag_frag, update_of_ne (Finset.ne_of_mem_erase hg), Heap.setMem_frag]
  rw [hcount, Heap.setMem_mem]
  rcases eq_or_ne m' m with rfl | hmm
  · have hin : f ∈ s.sharers held m' := Finset.mem_filter.2 ⟨hf, hfm⟩
    have hpos := Finset.card_pos.2 ⟨f, hin⟩
    rw [Finset.card_erase_of_mem hin, update_self, href, h.ref m' hm']
    omega
  · have hnot : f ∉ s.sharers held m' := fun hin =>
      hmm (Option.some.inj (((Finset.mem_filter.1 hin).2).symm.trans hfm))
    rw [Finset.erase_eq_of_notMem hnot, update_of_ne hmm]
    exact h.ref m' hm'

theorem pushSmall (h : HeapOk s held) (hm : m < s.nmem) (href : (s.mem m).ref = 0)
    (hsize : (s.mem m).size = smallMemSize) (hnot : m ∉ s.freeSmall) :
    HeapOk { s with freeSmall := m :: s.freeSmall } held :=
  ⟨h.taken, h.plain, h.inMem, h.ref, h.size, h.freeFrag_nodup, h.freeFrag,
    nodup_cons.2 ⟨hnot, h.freeSmall_nodup⟩,
    forall_mem_cons.2 ⟨⟨hm, href, hsize⟩, h.freeSmall⟩, h.freeBig_nodup, h.freeBig⟩

theorem pushBig (h : HeapOk s held) (hm : m < s.nmem) (href : (s.mem m).ref = 0)
    (hsize : (s.mem m).size = maxFragSize) (hnot : m ∉ s.freeBig) :
    HeapOk { s with freeBig := m :: s.freeBig } held :=
  ⟨h.taken, h.plain, h.inMem, h.ref, h.size, h.freeFrag_nodup, h.freeFrag, h.freeSmall_nodup,
    h.freeSmall, nodup_cons.2 ⟨hnot, h.freeBig_nodup⟩,
    forall_mem_cons.2 ⟨⟨hm, href, hsize⟩, h.freeBig⟩⟩

theorem pushFrag (h : HeapOk s held) (hk : k < s.nfrag)
    (hstate : (s.frag (.glob k)).state = .fragGlobal) (hheld : FragId.glob k ∉ held)
    (hnot : FragId.glob k ∉ s.freeFrag) :
    HeapOk { s with freeFrag := .glob k :: s.freeFrag } held := by
  refine ⟨fun g hg => ⟨fun hin => ?_, (h.taken g hg).2⟩, h.plain, h.inMem, h.ref, h.size,
    nodup_cons.2 ⟨hnot, h.freeFrag_nodup⟩,
    forall_mem_cons.2 ⟨⟨k, hk, rfl, hstate⟩, h.freeFrag⟩, h.freeSmall_nodup, h.freeSmall,
    h.freeBig_nodup, h.freeBig⟩
  rcases mem_cons.1 hin with rfl | hin
  · exact hheld hg
  · exact (h.taken g hg).1 hin

end HeapOk

/-- `memfree` for the memory of a fragment that goes out of use. -/
theorem memfree_spec (h : HeapOk s held) (hf : f ∈ held) (hfm : (s.frag f).mem = some m) :
    Returns (memfree m) s fun _ t =>
      (∀ x : Frag, x.Plain → HeapOk (t.setFrag f x) (held.erase f)) ∧ t.packet = s.packet ∧
        t.npacket = s.npacket ∧ t.freePacket = s.freePacket ∧ t.frag = s.frag ∧
        t.freeFrag = s.freeFrag ∧ t.nfrag = s.nfrag ∧ ∀ m', (t.mem m').data = (s.mem m').data := by
  obtain ⟨m', hm, hfm', -⟩ := h.inMem f hf
  obtain rfl : m = m' := Option.some.inj (hfm.symm.trans hfm')
  obtain ⟨hsmall, hbig⟩ := h.not_free hf hm hfm
  have hin : f ∈ s.sharers held m := Finset.mem_filter.2 ⟨hf, hfm⟩
  have hpos := Finset.card_pos.2 ⟨f, hin⟩
  have href := h.ref m hm
  let M : Mem := { s.mem m with ref := (s.mem m).ref - 1 }
  have herase : ∀ x : Frag, x.Plain → HeapOk ((s.setMem m M).setFrag f x) (held.erase f) :=
    fun x => h.erase hf hm hfm rfl rfl
  have hMm : (s.setMem m M).mem m = M := by rw [Heap.setMem_mem, update_self]
  have hdata : ∀ m', ((s.setMem m M).mem m').data = (s.mem m').data := by
    intro m'
    rcases eq_or_ne m' m with rfl | hmm
    · rw [hMm]
    · rw [Heap.setMem_mem, update_of_ne hmm]
  rw [memfree, returns_modifyMem_bind, returns_get_bind]
  split
  · exact returns_pure.2 ⟨herase, rfl, rfl, rfl, rfl, rfl, rfl, hdata⟩
  next hle =>
    change ¬((s.setMem m M).mem m).ref > 0 at hle
    rw [hMm] at hle
    have hzero : M.ref = 0 := by
      simp only [M] at hle ⊢
      omega
    have hzero' : ((s.setMem m M).mem m).ref = 0 := by rw [hMm, hzero]
    refine returns_assert_bind (decide_eq_true hzero') ?_
    have hsize := h.size m hm
    split
    next hs =>
      refine ⟨(), _, rfl, fun x hx => ?_, rfl, rfl, rfl, rfl, rfl, rfl, hdata⟩
      exact (herase x hx).pushSmall hm hzero' hs hsmall
    next hns =>
      have hb : ((s.setMem m M).mem m).size = maxFragSize := by
        rcases hsize with hs | hb
        · refine absurd ?_ hns
          change ((s.setMem m M).mem m).size = smallMemSize
          rw [hMm]
          exact hs
        · rw [hMm]
          exact hb
      rw [if_pos hb]
      refine ⟨(), _, rfl, fun x hx => ?_, rfl, rfl, rfl, rfl, rfl, rfl, hdata⟩
      exact (herase x hx).pushBig hm hzero' hb hbig

/-- **`fragfree`** puts a fragment out of use. -/
theorem fragfree_spec (h : HeapOk s held) (hf : f ∈ held) : Returns (fragfree f) s fun _ t =>
      HeapOk t (held.erase f) ∧ Frame s t (held.erase f) := by
  obtain ⟨m, hm, hfm, -⟩ := h.inMem f hf
  obtain ⟨hnotfree, htaken⟩ := h.taken f hf
  rw [fragfree, returns_get_bind]
  simp only [hfm]
  refine (memfree_spec h hf hfm).bind ?_
  rintro ⟨⟩ u ⟨hok, hpacket, hnpacket, hfreePacket, hfrag, hfreeFrag, hnfrag, hdata⟩
  rw [returns_modifyFrag_bind]
  have hframe : ∀ x, Frame s (u.setFrag f x) (held.erase f) := by
    intro x
    have hsame : ∀ g ∈ held.erase f, (u.setFrag f x).frag g = s.frag g := by
      intro g hg
      rw [Heap.setFrag_frag, update_of_ne (Finset.mem_erase.1 hg).1, hfrag]
    refine ⟨hpacket, hnpacket, hfreePacket, hsame, fun g hg => ?_⟩
    exact fragBytes_congr (by rw [hsame g hg]) (by rw [hsame g hg]) (by rw [hsame g hg])
      fun m' _ => hdata m'
  have hplain : ∀ g, (u.frag g).Plain := by
    rw [hfrag]
    exact h.plain
  have hidem : ∀ x y, (u.setFrag f x).setFrag f y = u.setFrag f y := by
    intro x y
    simp only [Heap.setFrag, update_idem]
  split
  · rw [modifyFrag, returns_modify, hidem]
    have hcut : Frag.Plain { u.frag f with mem := none } := hplain f
    have hset := plain_setFrag (f := f) hplain hcut f
    exact ⟨hok _ hset, hframe _⟩
  next hstate =>
    rw [returns_modify]
    cases f with
    | loc p i => exact absurd htaken.2 hstate
    | glob k =>
      refine ⟨(hok { u.frag (.glob k) with mem := none } (hplain _)).pushFrag ?_ ?_
        (Finset.notMem_erase _ _) ?_, ?_⟩
      · change k < u.nfrag
        rw [hnfrag]
        exact htaken.1
      · rw [Heap.setFrag_frag, update_self, hfrag]
        exact htaken.2
      · change FragId.glob k ∉ u.freeFrag
        rw [hfreeFrag]
        exact hnotfree
      · exact (hframe _).trans ⟨rfl, rfl, rfl, fun _ _ => rfl, fun _ _ => rfl⟩ subset_rfl

/-- **Freeing a chain** puts its fragments out of use. -/
theorem freeChain_spec {a : Option FragId} (h : HeapOk s held) (hchain : Linked s.next a l none)
    (hnodup : l.Nodup) (hl : ∀ f ∈ l, f ∈ held) (hk : l.length ≤ k) :
    Returns (freeChain k a) s fun _ t =>
      HeapOk t (held \ l.toFinset) ∧ Frame s t (held \ l.toFinset) := by
  induction l generalizing s held a k with
  | nil =>
    obtain rfl : a = none := hchain
    have hnone : freeChain k none = pure () := by cases k <;> rfl
    rw [hnone, returns_pure, toFinset_nil, Finset.sdiff_empty]
    exact ⟨h, Frame.refl s held⟩
  | cons f l ih =>
    obtain ⟨rfl, hchain⟩ := hchain
    rw [nodup_cons] at hnodup
    cases k with
    | zero => exact absurd hk (by simp)
    | succ k =>
      rw [freeChain, returns_get_bind]
      refine (fragfree_spec h (hl f mem_cons_self)).bind ?_
      rintro ⟨⟩ u ⟨hok, hframe⟩
      have hl' : ∀ g ∈ l, g ∈ held.erase f := fun g hg => Finset.mem_erase.2
        ⟨ne_of_mem_of_not_mem hg hnodup.1, hl g (mem_cons_of_mem f hg)⟩
      have hchain' : Linked u.next (s.next f) l none :=
        hchain.congr fun g hg => by rw [Heap.next, hframe.frag g (hl' g hg), Heap.next]
      have hset : held.erase f \ l.toFinset = held \ (f :: l).toFinset := by
        rw [toFinset_cons, Finset.sdiff_insert, Finset.erase_sdiff_comm]
      refine (ih hok hchain' hnodup.2 hl' (Nat.le_of_succ_le_succ hk)).mono ?_
      rintro ⟨⟩ t ⟨hok', hframe'⟩
      rw [hset] at hok' hframe'
      refine ⟨hok', hframe.trans hframe' ?_⟩
      rw [← hset]
      exact Finset.sdiff_subset

/-! ### Changing a fragment in use -/

namespace HeapOk

variable {s : Heap} {held : Finset FragId}

/-- A fragment in use may get another range, within its memory, and another link. -/
theorem setRange (h : HeapOk s held) (hf : f ∈ held) (horigin : x.origin = (s.frag f).origin)
    (hmem : x.mem = (s.frag f).mem) (hlt : x.rp < x.wp)
    (hle : ∀ m, (s.frag f).mem = some m → x.wp ≤ (s.mem m).size) :
    HeapOk (s.setFrag f x) held := by
  obtain ⟨hstate, hplain⟩ := Prod.mk.inj horigin
  obtain ⟨m, hm, hfm, -⟩ := h.inMem f hf
  obtain ⟨hsmall, hbig⟩ := h.not_free hf hm hfm
  have hself : s.setMem m (s.mem m) = s := by rw [Heap.setMem, update_eq_self]
  rw [← hself]
  refine h.rewrite (fun g hg _ => hg) (h.taken f hf).1 rfl hsmall hbig
    ((plain_congr hplain).2 (h.plain f)) (fun _ => ?_) (fun _ => ⟨m, hm, ?_⟩) fun m' hm' => ?_
  · have htaken := h.taken f hf
    simp only [Taken, Heap.setFrag_frag, update_self, hstate] at htaken ⊢
    exact htaken
  · rw [hself, Heap.setFrag_frag, update_self, hmem]
    exact ⟨hfm, hlt, hle m hfm⟩
  · have hsame : (s.setFrag f x).sharers held m' = s.sharers held m' := by
      refine Finset.filter_congr fun g _ => ?_
      rcases eq_or_ne g f with rfl | hgf
      · rw [Heap.setFrag_frag, update_self, hmem]
      · rw [Heap.setFrag_frag, update_of_ne hgf]
    rw [hself, hsame]
    exact h.ref m' hm'

/-- A fragment in use may get another link. -/
theorem setNext (h : HeapOk s held) (next : Option FragId) (hf : f ∈ held) :
    HeapOk (s.setFrag f { s.frag f with next := next }) held := by
  obtain ⟨m, hm, hfm, hlt, hle⟩ := h.inMem f hf
  refine h.setRange hf rfl rfl hlt fun m' hm' => ?_
  obtain rfl : m = m' := Option.some.inj (hfm.symm.trans hm')
  exact hle

theorem length_fragBytes (h : HeapOk s held) (hf : f ∈ held) :
    (s.fragBytes f).length = s.fragSize f := by
  obtain ⟨m, hm, hfm, -⟩ := h.inMem f hf
  simp [Heap.fragBytes, hfm, Mem.read]

/-- Writing to memory with one reference changes the bytes of that fragment only. -/
theorem frame_store (h : HeapOk s held) (off : ℕ) (bytes : List UInt8) (hf : f ∈ held)
    (hm : m < s.nmem) (hfm : (s.frag f).mem = some m) (href : (s.mem m).ref = 1) :
    HeapOk (s.setMem m ((s.mem m).store off bytes)) held ∧
      Frame s (s.setMem m ((s.mem m).store off bytes)) (held.erase f) := by
  refine ⟨h.setMem rfl rfl, rfl, rfl, rfl, fun _ _ => rfl, fun g hg => ?_⟩
  obtain ⟨hgf, hg⟩ := Finset.mem_erase.1 hg
  exact fragBytes_setMem fun hgm => hgf (h.eq_of_ref_one hm href hg hgm hf hfm)

end HeapOk

/-- What is read in memory that was written to. -/
theorem Mem.read_store (M : Mem) (off : ℕ) (bytes : List UInt8) (rp n : ℕ) :
    (M.store off bytes).read rp n = (List.range n).map fun i =>
      if off ≤ rp + i ∧ rp + i < off + bytes.length then bytes.getD (rp + i - off) 0
      else M.data (rp + i) := rfl

/-- Reading what was written. -/
theorem Mem.read_store_self (M : Mem) (off : ℕ) (bytes : List UInt8) :
    (M.store off bytes).read off bytes.length = bytes := by
  rw [Mem.read_store]
  refine ext_getElem (by simp) fun i h₁ h₂ => ?_
  have hcond : off ≤ off + i ∧ off + i < off + bytes.length := by omega
  rw [getElem_map, getElem_range, if_pos hcond, Nat.add_sub_cancel_left, getD_eq_getElem _ _ h₂]

/-- Reading elsewhere. -/
theorem Mem.read_store_of_disjoint (M : Mem) {rp : ℕ} (h : rp + n ≤ off ∨ off + bytes.length ≤ rp) :
    (M.store off bytes).read rp n = M.read rp n := by
  rw [Mem.read_store, Mem.read]
  refine map_congr_left fun i hi => ?_
  have hi' := mem_range.1 hi
  rw [if_neg (by omega)]

theorem Mem.read_add (M : Mem) (rp n n' : ℕ) :
    M.read rp (n + n') = M.read rp n ++ M.read (rp + n) n' := by
  rw [Mem.read, Mem.read, Mem.read, range_add, map_append, map_map]
  congr 1
  refine map_congr_left fun i _ => ?_
  simp only [comp_apply, Nat.add_assoc]

end LibVenti

end Plan9
