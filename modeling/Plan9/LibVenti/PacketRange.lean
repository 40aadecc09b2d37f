import Plan9.LibVenti.PacketRun

/-!
# Readers of a range

`packetpeek`, `packetcopy` and `packetfragments` hand out, or copy, runs of bytes of a
packet, and `packetdup` makes a packet of one. Here they are seen from the memory: where
they read, not what. The packet may have any fragments, of its own memory or foreign ones.

The readers stay inside the fragments of the packet, and the first and the last one succeed
only for a range of the packet, on the arguments that
`Plan9.LibVenti.rangedReaders_iff` names and on no others. The tests miss

* an `offset + n` that leaves the range of an `int`: it passes as a negative number;
* the end of the packet as an offset of `packetfragments`, which skips the last fragment
  too and looks for one behind it;
* any offset, if `packetpeek` is asked for no bytes;
* a fragment in the range of `packetdup` that has a routine which gives it back: there is
  no second one to give back, and `fragdup` asserts that there is no routine.
-/

namespace Plan9

namespace LibVenti

open Lib List

/-! ### Runs inside a chain -/

/-- The run is part of one of the fragments. -/
def Heap.InsideOf (s : Heap) (l : List FragId) (c : IOchunk) : Prop :=
  ∃ f ∈ l, ∃ off, c.addr = some ((s.frag f).base, off) ∧ (s.frag f).rp ≤ off ∧
    off + c.len ≤ (s.frag f).wp

/-- The range is one of a packet of `size` bytes. -/
def InRange (size offset n : ℤ) : Prop := 0 ≤ offset ∧ 0 ≤ n ∧ offset + n ≤ size

variable {s : Heap} {l l₁ l₂ : List FragId} {f : FragId} {offset n : ℤ} {p : ℕ}

theorem Heap.InsideOf.mono {c : IOchunk} (h : s.InsideOf l₁ c) (hsub : l₁ ⊆ l₂) :
    s.InsideOf l₂ c := by
  obtain ⟨f, hf, hc⟩ := h
  exact ⟨f, hsub hf, hc⟩

theorem insideOf_chunk (hl : f ∈ l) (hr : (s.frag f).rp ≤ (s.frag f).wp) (h0 : 0 ≤ offset)
    (hoff : offset ≤ s.fragSize f) (hle : offset + n ≤ s.fragSize f) :
    s.InsideOf l (s.chunk f offset n) := by
  rw [Heap.fragSize] at hoff hle
  refine ⟨f, hl, _, rfl, by omega, ?_⟩
  simp only [Heap.chunk]
  omega

theorem insideOf_runs (hr : ∀ g ∈ l, (s.frag g).rp ≤ (s.frag g).wp) (h0 : 0 ≤ offset)
    (hoff : ∀ f ∈ l.head?, offset ≤ s.fragSize f) : ∀ c ∈ s.runs l offset n, s.InsideOf l c := by
  induction l generalizing offset n with
  | nil => exact fun c hc => absurd hc not_mem_nil
  | cons f l ih =>
    intro c hc
    have hle : offset ≤ s.fragSize f := hoff f rfl
    rw [Heap.runs] at hc
    split at hc
    · rcases mem_cons.1 hc with rfl | hc
      · exact insideOf_chunk mem_cons_self (hr f mem_cons_self) h0 hle (by omega)
      · exact (ih (fun g hg => hr g (mem_cons_of_mem f hg)) le_rfl
          (fun g _ => Int.natCast_nonneg _) c hc).mono (subset_cons_self f l)
    · exact absurd hc not_mem_nil

/-- What `packetpeek` finds is part of the packet. -/
theorem insideOf_peek (h : IsPacket s p l) {io : List IOchunk} (hio : s.peek l offset n = .ok io) :
    (∀ c ∈ io, s.InsideOf l c) ∧ (n ≠ 0 → InRange (s.sizeOf l) offset n) := by
  rw [Heap.peek] at hio
  split_ifs at hio with hn h₁ h₂
  · obtain rfl := Except.ok.inj hio
    exact ⟨fun c hc => absurd hc not_mem_nil, fun hne => absurd hn hne⟩
  · obtain ⟨l₁, f, l₂, rfl, hle, hlt⟩ := exists_split (show 0 ≤ offset by omega)
      (show offset < s.sizeOf l by omega)
    rw [seek_append hle hlt] at hio
    obtain rfl := Except.ok.inj hio
    refine ⟨fun c hc => ?_, fun _ => ⟨by omega, by omega, by omega⟩⟩
    refine (insideOf_runs (fun g hg => h.range g (mem_append_right _ hg)) (by omega) ?_ c hc).mono
      (subset_append_right _ _)
    intro g hg
    obtain rfl : f = g := Option.some.inj hg
    omega

/-! ### `packetfragments` -/

/-- What is left of a fragment behind an offset. -/
def Heap.chunkFrom (s : Heap) (f : FragId) (offset : ℤ) : IOchunk :=
  s.chunk f offset (s.fragSize f - offset)

/-- What is left of a chain behind an offset into its first fragment. -/
def Heap.chunksFrom (s : Heap) : List FragId → ℤ → List IOchunk
  | [], _ => []
  | f :: l, offset => s.chunkFrom f offset :: l.map fun g => s.chunkFrom g 0

/-- The runs of the suffix of a chain that starts at an offset. -/
def Heap.suffix (s : Heap) (l : List FragId) (offset : ℤ) : List IOchunk :=
  s.chunksFrom (s.seek l offset).1 (s.seek l offset).2

theorem suffix_of_ge (hge : s.sizeOf l ≤ offset) : s.suffix l offset = [] := by
  induction l generalizing offset with
  | nil => rfl
  | cons f l ih =>
    rw [sizeOf_cons] at hge
    rw [Heap.suffix, Heap.seek, if_pos (by omega)]
    exact ih (by omega)

theorem insideOf_chunksFrom (hr : ∀ g ∈ l, (s.frag g).rp ≤ (s.frag g).wp) (h0 : 0 ≤ offset)
    (hoff : ∀ f ∈ l.head?, offset ≤ s.fragSize f) :
    ∀ c ∈ s.chunksFrom l offset, s.InsideOf l c := by
  cases l with
  | nil => exact fun c hc => absurd hc not_mem_nil
  | cons f l =>
    intro c hc
    rcases mem_cons.1 hc with rfl | hc
    · exact insideOf_chunk mem_cons_self (hr f mem_cons_self) h0 (hoff f rfl) (by omega)
    · obtain ⟨g, hg, rfl⟩ := mem_map.1 hc
      have hin := mem_cons_of_mem f hg
      exact insideOf_chunk hin (hr g hin) le_rfl (Int.natCast_nonneg _) (by omega)

theorem fillChunks_none (nio : ℕ) (offset : ℤ) :
    fillChunks s nio none offset = replicate nio ⟨none, 0⟩ := by
  induction nio with
  | zero => rfl
  | succ nio ih => rw [fillChunks, ih, replicate_succ]

/-- **What `packetfragments` fills in**: the runs from the offset on as far as there is
room, and `nil` behind them. -/
theorem fillChunks_eq {nio : ℕ} {a : Option FragId} (hchain : Linked s.next a l none) :
    fillChunks s nio a offset =
      (s.chunksFrom l offset).take nio ++ replicate (nio - l.length) ⟨none, 0⟩ := by
  induction nio generalizing a l offset with
  | zero => simp [fillChunks]
  | succ nio ih =>
    cases l with
    | nil =>
      obtain rfl : a = none := hchain
      rw [fillChunks_none]
      rfl
    | cons f l =>
      obtain ⟨rfl, hchain⟩ := hchain
      have hrest : s.chunksFrom l 0 = l.map fun g => s.chunkFrom g 0 := by
        cases l <;> rfl
      rw [fillChunks, ih hchain, hrest, Heap.chunksFrom, take_succ_cons, length_cons,
        Nat.add_sub_add_right, cons_append, Heap.chunkFrom]

section Rules

variable {α β : Type} {s : Heap} {e : PacketFault}

@[simp]
theorem faults_deref_bind {x : β} {k : β → PacketM α} :
    Faults (deref (some x) >>= k) s e ↔ Faults (k x) s e := Iff.rfl

@[simp]
theorem faults_deref_none_bind {k : β → PacketM α} :
    Faults (deref none >>= k) s PacketFault.nil := rfl

@[simp]
theorem faults_modifyPacket_bind {p : ℕ} {g : Packet → Packet} {k : Unit → PacketM α} :
    Faults (modifyPacket p g >>= k) s e ↔ Faults (k ()) (s.setPacket p (g (s.packet p))) e :=
  Iff.rfl

theorem faults_notFree_bind {p : ℕ} {k : Unit → PacketM α} (hp : 0 ≤ (s.packet p).size)
    (h : Faults (k ()) s e) : Faults (notFree p >>= k) s e := by
  have hfree : Returns (notFree p >>= pure) s fun _ t => t = s :=
    returns_notFree_bind hp (returns_pure.2 rfl)
  rw [bind_pure] at hfree
  refine hfree.bind_faults ?_
  rintro ⟨⟩ t rfl
  exact h

end Rules

/-- Skipping more than a chain has leads off its end. -/
theorem skipFrags_faults {k : ℕ} {offset : ℤ} (hchain : Linked s.next a l none)
    (hge : s.sizeOf l ≤ offset) (hk : l.length < k) :
    Faults (skipFrags k a offset) s PacketFault.nil := by
  induction l generalizing a k offset with
  | nil =>
    obtain rfl : a = none := hchain
    cases k with
    | zero => exact absurd hk (by simp)
    | succ k => rfl
  | cons f l ih =>
    obtain ⟨rfl, hchain⟩ := hchain
    rw [sizeOf_cons] at hge
    cases k with
    | zero => exact absurd hk (by simp)
    | succ k =>
      have hrest := @ih (s.next f) k (offset - s.fragSize f) hchain (by omega)
        (Nat.lt_of_succ_lt_succ hk)
      rw [skipFrags, faults_deref_bind, faults_get_bind, if_pos (by omega)]
      exact hrest


theorem IsPacket.notFree (h : IsPacket s p l) : 0 ≤ (s.packet p).size := by
  rw [h.size]
  exact Int.natCast_nonneg _

/-- `packetfragments` fills in the runs behind an offset in front of the end. -/
theorem packetfragments_spec {nio : ℤ} (h : IsPacket s p l)
    (hlast : s.sizeOf l ≠ 0 → 0 < nio → offset ≠ s.sizeOf l) :
    Returns (packetfragments p nio offset) s fun r _ =>
      (∀ io size, r = .ok (io, size) → ∀ c ∈ io, c.addr = none ∨ s.InsideOf l c) ∧
      (0 ≤ offset → offset ≤ s.sizeOf l → 1 ≤ nio → ∃ io, r = .ok (io,
        (((s.suffix l offset).take nio.toNat).map IOchunk.len).sum)) := by
  rw [packetfragments]
  refine returns_notFree_bind h.notFree ?_
  rw [returns_get_bind, h.size]
  by_cases h₀ : (s.sizeOf l : ℤ) = 0 ∨ nio ≤ 0
  · rw [if_pos h₀, returns_pure]
    constructor
    · intro io size hio c hc
      cases hio
      exact absurd hc not_mem_nil
    · intro hoff _ hnio
      refine ⟨[], ?_⟩
      rw [suffix_of_ge (by omega), List.take_nil]
      rfl
  rw [if_neg h₀]
  by_cases h₁ : offset < 0 ∨ offset > s.sizeOf l
  · rw [if_pos h₁, returns_pure]
    constructor
    · intro io size hio
      cases hio
    · intro h0 hle _
      omega
  rw [if_neg h₁]
  have hoff := hlast (by omega) (by omega)
  refine (skipFrags_spec h.linked (by omega) (by omega) h.length_lt.le).bind ?_
  rintro ⟨f, o⟩ t ⟨rfl, l₁, f', l₂, rfl, heq, hle, hlt⟩
  obtain ⟨rfl, rfl⟩ := Prod.mk.inj heq
  simp only [returns_pure, fillChunks_eq (h.linked.suffix rfl)]
  constructor
  · intro io size hio c hc
    cases hio
    rcases mem_append.1 hc with hc | hc
    · refine .inr ((insideOf_chunksFrom (fun g hg => h.range g (mem_append_right _ hg)) ?_ ?_ c
        (mem_of_mem_take hc)).mono (subset_append_right _ _))
      · omega
      · intro g hg
        obtain rfl : f = g := Option.some.inj hg
        omega
    · rw [eq_of_mem_replicate hc]
      exact .inl rfl
  · intro _ _ _
    refine ⟨(t.chunksFrom (f :: l₂) (offset - t.sizeOf l₁)).take nio.toNat ++
      replicate (nio.toNat - (f :: l₂).length) ⟨none, 0⟩, ?_⟩
    rw [Heap.suffix, seek_append hle hlt, map_append, sum_append]
    simp

/-- `packetfragments` at the end of a packet. -/
theorem packetfragments_faults {nio : ℤ} (h : IsPacket s p l) (hne : s.sizeOf l ≠ 0)
    (hnio : 0 < nio) : Faults (packetfragments p nio (s.sizeOf l)) s PacketFault.nil := by
  rw [packetfragments]
  refine faults_notFree_bind h.notFree ?_
  rw [faults_get_bind, h.size, if_neg (by omega), if_neg (by omega)]
  exact (skipFrags_faults h.linked le_rfl h.length_lt).bind

/-! ### `packetdup` -/

/-- The fragments of a chain that hold its first `n` bytes. -/
def Heap.upTo (s : Heap) : List FragId → ℤ → List FragId
  | [], _ => []
  | f :: l, n => if n > 0 then f :: Heap.upTo s l (n - s.fragSize f) else []

/-- The fragments of a chain that hold the `n` bytes from an offset on. -/
def Heap.rangeFrags (s : Heap) (l : List FragId) (offset n : ℤ) : List FragId :=
  s.upTo (s.seek l offset).1 ((s.seek l offset).2 + n)

theorem upTo_of_le (hn : n ≤ 0) : s.upTo l n = [] := by
  cases l with
  | nil => rfl
  | cons f l => rw [Heap.upTo, if_neg (by omega)]

section Dup

variable {t : Heap} {held : Finset FragId} {g : FragId} {pp : ℕ} {α : Type}
  {Q : α → Heap → Prop} {c : Prop}

/-- The fragments of a chain that hold its first bytes, and whether they may be duplicated, do
not depend on others. -/
theorem upTo_plain_congr (h : ∀ f ∈ l, t.frag f = s.frag f) :
    (∀ f ∈ t.upTo l n, (t.frag f).Plain) ↔ ∀ f ∈ s.upTo l n, (s.frag f).Plain := by
  induction l generalizing n with
  | nil => simp [Heap.upTo]
  | cons f l ih =>
    have hf := h f mem_cons_self
    rw [Heap.upTo, Heap.upTo, Heap.fragSize, hf, ← Heap.fragSize]
    split
    · rw [forall_mem_cons, forall_mem_cons, hf, ih fun g hg => h g (mem_cons_of_mem f hg)]
    · simp

/-- A fragment in use may change if its state does not. -/
theorem FragsOk.setFrag {x : Frag} (h : FragsOk s held) (hstate : x.state = (s.frag f).state) :
    FragsOk (s.setFrag f x) held := by
  have hstates : ∀ g, ((s.setFrag f x).frag g).state = (s.frag g).state := by
    intro g
    rcases eq_or_ne g f with rfl | hgf
    · rw [Heap.setFrag_frag, Function.update_self, hstate]
    · rw [Heap.setFrag_frag, Function.update_of_ne hgf]
  refine ⟨fun g hg => ?_, h.freeFrag_nodup, fun g hg => ?_⟩
  · have htaken := h.taken g hg
    simp only [Taken, hstates] at htaken ⊢
    exact htaken
  · rw [hstates]
    exact h.freeFrag g hg

theorem FragsOk.setPacket (h : FragsOk s held) (p : ℕ) (x : Packet) :
    FragsOk (s.setPacket p x) held :=
  ⟨h.taken, h.freeFrag_nodup, h.freeFrag⟩

/-- Nothing but memory has changed. -/
structure SameFrags (s t : Heap) : Prop where
  frag : t.frag = s.frag
  packet : t.packet = s.packet
  npacket : t.npacket = s.npacket
  freeFrag : t.freeFrag = s.freeFrag
  nfrag : t.nfrag = s.nfrag

theorem FragsOk.same (h : FragsOk s held) (hst : SameFrags s t) : FragsOk t held := by
  refine ⟨fun f hf => ?_, by rw [hst.freeFrag]; exact h.freeFrag_nodup, fun f hf => ?_⟩
  · have htaken := h.taken f hf
    simp only [Taken, hst.freeFrag, hst.npacket, hst.nfrag, hst.frag] at htaken ⊢
    exact htaken
  · rw [hst.freeFrag] at hf
    rw [hst.nfrag, hst.frag]
    exact h.freeFrag f hf

theorem SameFrags.refl (s : Heap) : SameFrags s s := ⟨rfl, rfl, rfl, rfl, rfl⟩

theorem noteRange_sameFrags (x : Frag) :
    Returns (noteRange x) s fun _ t => SameFrags s t := by
  rw [noteRange]
  split
  · rw [returns_get_bind]
    split
    · exact returns_modify.2 ⟨rfl, rfl, rfl, rfl, rfl⟩
    · exact returns_pure.2 (.refl s)
  · exact returns_pure.2 (.refl s)

theorem addRef_sameFrags (x : Frag) : Returns (addRef x) s fun _ t => SameFrags s t := by
  rw [addRef]
  split
  · exact returns_modify.2 ⟨rfl, rfl, rfl, rfl, rfl⟩
  · exact returns_pure.2 (.refl s)

/-- The outcome of `fragdup`: one more fragment in use, of the same size. -/
structure Dup (s t : Heap) (held : Finset FragId) (g ff : FragId) : Prop where
  ok : FragsOk t (insert ff held)
  not_mem : ff ∉ held
  frag : ∀ f ∈ held, t.frag f = s.frag f
  size : t.fragSize ff = s.fragSize g
  packet : t.packet = s.packet
  npacket : t.npacket = s.npacket

/-- **`fragdup` returns** for a fragment without a routine that gives it back. -/
theorem fragdup_bind_iff {k : FragId → PacketM α} (h : FragsOk s held) (hpp : pp < s.npacket)
    (hg : g ∈ held) (hk : ∀ ff t, Dup s t held g ff → (Returns (k ff) t Q ↔ c)) :
    Returns (fragdup pp g >>= k) s Q ↔ (s.frag g).Plain ∧ c := by
  rw [fragdup, bind_assoc, returns_get_bind, bind_assoc]
  refine (noteRange_sameFrags _).bind_iff fun _ s₁ hs₁ => ?_
  rw [bind_assoc, fragalloc, bind_assoc]
  refine (findFrag_taken (h.same hs₁) (by rw [hs₁.npacket]; exact hpp)).bind_iff ?_
  rintro ff u ⟨huok, hff, state, free, i, hu⟩
  have hgff : g ≠ ff := fun heq => hff (heq ▸ hg)
  have hug : u.frag g = s.frag g := by
    rw [hu]
    simp [Function.update_of_ne hgff, hs₁.frag]
  rw [if_pos rfl, bind_assoc, returns_modifyFrag_bind, returns_pure_bind, bind_assoc,
    returns_get_bind, bind_assoc, returns_modifyFrag_bind, bind_assoc]
  generalize hv : Heap.setFrag _ ff _ = v
  have hvg : v.frag g = s.frag g := by
    rw [← hv]
    simp [Function.update_of_ne hgff, hug]
  simp only [hvg]
  by_cases hplain : (s.frag g).Plain
  · rw [decide_eq_true hplain, and_iff_right hplain]
    refine Returns.bind_iff (P := fun _ w => w = _) (returns_pure.2 rfl) ?_
    rintro ⟨⟩ _ rfl
    rw [bind_assoc]
    refine (addRef_sameFrags _).bind_iff fun _ t ht => ?_
    refine hk ff t ⟨?_, hff, fun f hf => ?_, ?_, ?_, ?_⟩
    · refine FragsOk.same ?_ ht
      rw [← hv]
      exact FragsOk.setFrag (huok.setFrag (by rfl)) (by rfl)
    · rw [ht.frag, ← hv]
      have hne : f ≠ ff := fun heq => hff (heq ▸ hf)
      simp [Function.update_of_ne hne, hu, hs₁.frag]
    · rw [Heap.fragSize, ht.frag]
      simp [Heap.fragSize]
    · rw [ht.packet, ← hv, hu]
      exact hs₁.packet
    · rw [ht.npacket, ← hv, hu]
      exact hs₁.npacket
  · rw [decide_eq_false hplain]
    have hfault : ∀ w, Faults (LibVenti.assert false) w PacketFault.assertion := fun w => rfl
    exact iff_of_false (hfault _).bind.not_returns fun hboth => hplain hboth.1

/-- **The loop of `packetdup` returns** if the chain is long enough, and the fragments on the
way may be duplicated. -/
theorem dupFrags_bind_iff {K : FragId × ℤ → PacketM α} {k : ℕ} {ff : FragId}
    (h : FragsOk s held) (hpp : pp < s.npacket) (hchain : Linked s.next (s.next f) l none)
    (hl : ∀ g ∈ l, g ∈ held) (hff : ff ∈ held) (hcross : ff ∉ l) (hk : l.length < k)
    (hK : ∀ r t, t.packet = s.packet → Returns (K r) t Q) :
    Returns (dupFrags pp k f ff n >>= K) s Q ↔
      n ≤ s.sizeOf l ∧ ∀ g ∈ s.upTo l n, (s.frag g).Plain := by
  induction l generalizing s held k f ff n with
  | nil =>
    cases k with
    | zero => exact absurd hk (by simp)
    | succ k =>
      rw [dupFrags, sizeOf_nil]
      by_cases hn : n > 0
      · have hfault : Faults (do
            let s ← get
            let f ← deref (s.next f)
            let gg ← fragdup pp f
            modifyFrag ff fun g => { g with next := some gg }
            let s ← get
            dupFrags pp k f gg (n - s.fragSize gg)) s PacketFault.nil := by
          rw [faults_get_bind, show s.next f = none from hchain]
          exact faults_deref_none_bind
        rw [if_pos hn]
        exact iff_of_false hfault.bind.not_returns fun hboth => by omega
      · rw [if_neg hn, returns_pure_bind]
        exact iff_of_true (hK _ s rfl) ⟨by omega, fun g hg => absurd hg not_mem_nil⟩
  | cons f₁ l ih =>
    obtain ⟨hnext, hchain⟩ := hchain
    have hf₁ := hl f₁ mem_cons_self
    cases k with
    | zero => exact absurd hk (by simp)
    | succ k =>
      rw [dupFrags, sizeOf_cons]
      by_cases hn : n > 0
      · rw [if_pos hn, Heap.upTo, if_pos hn, forall_mem_cons, bind_assoc, returns_get_bind,
          bind_assoc, hnext, returns_deref_bind, bind_assoc]
        have hrest := @fragdup_bind_iff s held f₁ pp α Q
          (n - s.fragSize f₁ ≤ s.sizeOf l ∧ ∀ g ∈ s.upTo l (n - s.fragSize f₁), (s.frag g).Plain)
          (fun gg => (do
            modifyFrag ff fun g => { g with next := some gg }
            let s ← get
            dupFrags pp k f₁ gg (n - s.fragSize gg)) >>= K) h hpp hf₁ ?_
        · rw [hrest]
          constructor
          · rintro ⟨hplain, hle, hall⟩
            exact ⟨by push_cast; omega, hplain, hall⟩
          · rintro ⟨hle, hplain, hall⟩
            exact ⟨hplain, by push_cast at hle; omega, hall⟩
        intro gg u hdup
        rw [bind_assoc, returns_modifyFrag_bind, bind_assoc, returns_get_bind]
        have hgff : gg ≠ ff := fun heq => hdup.not_mem (heq ▸ hff)
        -- the fragments that are left are where they were
        have hold : ∀ g ∈ f₁ :: l,
            (u.setFrag ff { u.frag ff with next := some gg }).frag g = s.frag g := by
          intro g hg
          have hne : g ≠ ff := fun heq => hcross (heq ▸ hg)
          rw [Heap.setFrag_frag, Function.update_of_ne hne, hdup.frag g (hl g hg)]
        have hsize : (u.setFrag ff { u.frag ff with next := some gg }).fragSize gg =
            s.fragSize f₁ := by
          rw [← hdup.size, Heap.fragSize, Heap.setFrag_frag, Function.update_of_ne hgff,
            Heap.fragSize]
        have hrec := @ih (u.setFrag ff { u.frag ff with next := some gg }) f₁
          (n - s.fragSize f₁) (insert gg held) k gg (hdup.ok.setFrag rfl)
          (by rw [Heap.setFrag_npacket, hdup.npacket]; exact hpp)
          (by
            rw [Heap.next, hold f₁ mem_cons_self]
            exact hchain.congr fun g hg => by
              rw [Heap.next, hold g (mem_cons_of_mem f₁ hg), Heap.next])
          (fun g hg => Finset.mem_insert_of_mem (hl g (mem_cons_of_mem f₁ hg)))
          (Finset.mem_insert_self gg held)
          (fun hin => hdup.not_mem (hl gg (mem_cons_of_mem f₁ hin))) (Nat.lt_of_succ_lt_succ hk)
          fun r t ht => hK r t (by rw [ht]; exact hdup.packet)
        have hback : ∀ g ∈ l, _ := fun g hg => hold g (mem_cons_of_mem f₁ hg)
        rw [hsize, hrec, sizeOf_congr hback, upTo_plain_congr hback]
      · rw [if_neg hn, returns_pure_bind, upTo_of_le (not_lt.1 hn)]
        exact iff_of_true (hK _ s rfl) ⟨by push_cast; omega, fun g hg => absurd hg not_mem_nil⟩

/-- **`packetalloc`** returns a packet that is not in use, and leaves the fragments alone. -/
theorem packetalloc_any (h : ∀ q ∈ s.freePacket, (s.packet q).size = -1 ∧ q < s.npacket)
    (hok : FragsOk s held) :
    Returns packetalloc s fun pp t => FragsOk t held ∧ t.frag = s.frag ∧ pp < t.npacket ∧
      t.packet = Function.update s.packet pp ⟨0, none, none⟩ ∧ s.count ≤ t.count ∧
      ∀ q < s.npacket, 0 ≤ (s.packet q).size → pp ≠ q := by
  rw [packetalloc, returns_get_bind]
  cases hlist : s.freePacket with
  | cons pp rest =>
    obtain ⟨hsize, hlt⟩ := h pp (by rw [hlist]; exact mem_cons_self)
    simp only
    rw [returns_set_bind]
    refine returns_assert_bind (decide_eq_true hsize) ?_
    rw [returns_modifyPacket_bind, returns_pure]
    refine ⟨⟨hok.taken, hok.freeFrag_nodup, hok.freeFrag⟩, rfl, hlt, rfl, le_rfl, ?_⟩
    rintro q - hq rfl
    omega
  | nil =>
    simp only
    rw [returns_set_bind, returns_modifyPacket_bind, returns_pure]
    refine ⟨⟨fun f hf => ⟨(hok.taken f hf).1, ?_⟩, hok.freeFrag_nodup, hok.freeFrag⟩, rfl,
      Nat.lt_succ_self _, rfl, ?_, fun q hq _ => hq.ne'⟩
    · have htaken := (hok.taken f hf).2
      cases f with
      | loc q i => exact ⟨Nat.lt_succ_of_lt htaken.1, htaken.2⟩
      | glob k => exact htaken
    · simp only [Heap.count, Heap.setPacket_npacket, Heap.setPacket_nfrag]
      omega

theorem packetdup_error (h : IsPacket s p l)
    (hbad : offset < 0 ∨ n < 0 ∨ s.sizeOf l < offset + n)
    (hint : 0 ≤ offset → 0 ≤ n → offset + n < 2 ^ 31) :
    Returns (packetdup p offset n) s fun r _ => r = .error eBadSize := by
  have hbad' : offset < 0 ∨ n < 0 ∨ wrapInt (offset + n) > (s.packet p).size := by
    rw [h.size]
    by_cases h0 : 0 ≤ offset ∧ 0 ≤ n
    · rw [wrapInt_of_lt (by omega) (hint h0.1 h0.2)]
      exact hbad
    · omega
  rw [packetdup]
  refine returns_notFree_bind h.notFree ?_
  rw [returns_get_bind, if_pos hbad', returns_pure]

theorem packetdup_zero (h : IsPacket s p l) (h0 : 0 ≤ offset) (hle : offset ≤ s.sizeOf l)
    (hsize : s.sizeOf l < 2 ^ 31) : Returns (packetdup p offset 0) s fun _ _ => True := by
  rw [packetdup]
  refine returns_notFree_bind h.notFree ?_
  rw [returns_get_bind, if_neg]
  · refine (packetalloc_any h.freePacket h.frags).bind ?_
    rintro pp t ⟨-, -, -, hpacket, -⟩
    rw [if_pos rfl]
    refine returns_notFree_bind ?_ (returns_pure.2 trivial)
    rw [hpacket, Function.update_self]
  · rw [h.size, add_zero, wrapInt_of_lt h0 (by omega)]
    omega

/-- **`packetdup` returns**, once its test has passed, for a range of the packet with fragments
that may be duplicated. -/
theorem packetdup_iff (h : IsPacket s p l) (h0 : 0 ≤ offset) (hn : 0 < n)
    (hpass : wrapInt (offset + n) ≤ s.sizeOf l) :
    Returns (packetdup p offset n) s (fun _ _ => True) ↔
      offset + n ≤ s.sizeOf l ∧ ∀ f ∈ s.rangeFrags l offset n, (s.frag f).Plain := by
  have hfree : Returns (notFree p) s fun _ t => t = s := returns_notFree h.notFree rfl
  rw [packetdup]
  refine hfree.bind_iff ?_
  rintro - s rfl
  rw [returns_get_bind, if_neg (by rw [h.size]; omega)]
  refine (packetalloc_any h.freePacket h.frags).bind_iff ?_
  rintro pp t ⟨hok, hfrag, hpp, hpacket, hcount, hne⟩
  have hppne := hne p h.alloc h.notFree
  rw [if_neg hn.ne', returns_modifyPacket_bind, returns_get_bind]
  generalize hs₁ : t.setPacket pp _ = s₁
  have hok₁ : FragsOk s₁ l.toFinset := by
    rw [← hs₁]
    exact hok.setPacket pp _
  have hfrag₁ : s₁.frag = s.frag := by
    rw [← hs₁]
    exact hfrag
  have hpp₁ : pp < s₁.npacket := by
    rw [← hs₁]
    exact hpp
  have hpack₁ : s₁.packet p = s.packet p ∧ (s₁.packet pp).size = n := by
    rw [← hs₁]
    simp [Function.update_of_ne hppne.symm, hpacket]
  have hlength : l.length < s₁.count := by
    rw [← hs₁]
    exact h.length_lt.trans_le hcount
  have hnext : s₁.next = s.next := by
    funext f
    rw [Heap.next, hfrag₁, Heap.next]
  have hlinked : Linked s₁.next (s₁.packet p).first l none := by
    rw [hpack₁.1, hnext]
    exact h.linked
  have hsizes : ∀ l, s₁.sizeOf l = s.sizeOf l := fun l => sizeOf_congr fun f _ => by rw [hfrag₁]
  rcases lt_or_ge offset (s.sizeOf l) with hlt | hge
  · refine (skipFrags_spec hlinked h0 (by rw [hsizes]; exact hlt) hlength.le).bind_iff ?_
    rintro ⟨f, o⟩ s₁ ⟨rfl, l₁, f', l₂, rfl, heq, hle, hltf⟩
    obtain ⟨rfl, rfl⟩ := Prod.mk.inj heq
    have hsizef : s₁.fragSize f = s.fragSize f := by rw [Heap.fragSize, hfrag₁, Heap.fragSize]
    rw [hsizes] at hle hltf ⊢
    rw [hsizef] at hltf
    rw [Heap.rangeFrags, seek_append hle hltf, Heap.upTo, if_pos (by omega), forall_mem_cons,
      sizeOf_append, sizeOf_cons, ← hfrag₁]
    have hin : ∀ g ∈ f :: l₂, g ∈ (l₁ ++ f :: l₂).toFinset := fun g hg =>
      mem_toFinset.2 (mem_append_right _ hg)
    have hnodup : f ∉ l₂ := (nodup_cons.1 (nodup_append.1 h.nodup).2.1).1
    -- what is left for the loop
    refine Iff.trans (fragdup_bind_iff (c := n - (s.fragSize f - (offset - s.sizeOf l₁)) ≤
      s.sizeOf l₂ ∧ ∀ g ∈ s.upTo l₂ (n - (s.fragSize f - (offset - s.sizeOf l₁))),
        (s₁.frag g).Plain) hok₁ hpp₁ (hin f mem_cons_self) ?_) ?_
    · intro ff u hdup
      rw [returns_modifyFrag_bind, returns_modifyPacket_bind, returns_get_bind]
      generalize hw : Heap.setPacket _ pp _ = w
      have hback : ∀ g ∈ f :: l₂, w.frag g = s.frag g := by
        intro g hg
        have hgff : g ≠ ff := fun heq => hdup.not_mem (heq ▸ hin g hg)
        rw [← hw]
        simp only [Heap.setPacket_frag, Heap.setFrag_frag, Function.update_of_ne hgff]
        rw [hdup.frag g (hin g hg), hfrag₁]
      have hback₂ : ∀ g ∈ l₂, w.frag g = s.frag g := fun g hg => hback g (mem_cons_of_mem f hg)
      have hsizeff : (w.fragSize ff : ℤ) = s.fragSize f - (offset - s.sizeOf l₁) := by
        have hsizeu := hdup.size
        rw [hsizef] at hsizeu
        have hwff : w.fragSize ff = (u.frag ff).wp -
            ((u.frag ff).rp + (offset - (s.sizeOf l₁ : ℤ))).toNat := by
          rw [← hw]
          simp [Heap.fragSize]
        rw [Heap.fragSize] at hsizeu
        omega
      have hwok : FragsOk w (insert ff (l₁ ++ f :: l₂).toFinset) := by
        rw [← hw]
        exact FragsOk.setPacket (hdup.ok.setFrag (by rfl)) pp _
      have hwlinked : Linked w.next (w.next f) l₂ none := by
        rw [Heap.next, hback f mem_cons_self]
        exact (h.linked.suffix rfl).2.congr fun g hg => by
          rw [Heap.next, hback₂ g hg, Heap.next]
      rw [dupFrags_bind_iff hwok ?_ hwlinked
        (fun g hg => Finset.mem_insert_of_mem (hin g (mem_cons_of_mem f hg)))
        (Finset.mem_insert_self ff _)
        (fun hmem => hdup.not_mem (hin ff (mem_cons_of_mem f hmem))) ?_ ?_,
        hsizeff, sizeOf_congr hback₂, upTo_plain_congr hback₂, hfrag₁]
      · rw [← hw]
        change pp < u.npacket
        rw [hdup.npacket]
        exact hpp₁
      · rw [length_append, length_cons] at hlength
        omega
      · rintro ⟨gg, n'⟩ x hx
        simp only
        rw [returns_modifyFrag_bind, returns_modifyPacket_bind]
        have hxp : ∀ q, (w.packet q).size = (s₁.packet q).size := by
          intro q
          rw [← hdup.packet, ← hw, Heap.setPacket_packet]
          rcases eq_or_ne q pp with rfl | hq
          · rw [Function.update_self]
            rfl
          · rw [Function.update_of_ne hq]
            rfl
        refine returns_notFree_bind ?_ (returns_notFree_bind ?_ (returns_pure.2 trivial))
        · rw [Heap.setPacket_packet, Function.update_self]
          simp only [Heap.setFrag_packet]
          rw [hx, hxp, hpack₁.2]
          exact hn.le
        · rw [Heap.setPacket_packet, Function.update_of_ne hppne.symm, Heap.setFrag_packet, hx,
            hxp, hpack₁.1]
          exact h.notFree
    · have hrest : offset - s.sizeOf l₁ + n - s.fragSize f =
          n - (s.fragSize f - (offset - s.sizeOf l₁)) := by omega
      rw [hrest]
      push_cast
      constructor
      · rintro ⟨hplain, hle', hall⟩
        exact ⟨by omega, hplain, hall⟩
      · rintro ⟨hle', hplain, hall⟩
        exact ⟨hplain, by omega, hall⟩
  · exact iff_of_false
      (skipFrags_faults hlinked (by rw [hsizes]; exact hge) hlength).bind.not_returns
      fun hboth => by omega

end Dup

/-! ### The ranges that are read -/

/-- **The readers of a range stay inside the packet** with the chain `l`: none of them faults;
what is read, if no error is reported, are runs of its fragments; `packetpeek` and `packetdup`
succeed only for a range of the packet, and `packetfragments` returns the size of the runs
behind an offset in the packet. -/
structure RangedReaders (s : Heap) (p : ℕ) (l : List FragId) (offset n nio : ℤ) : Prop where
  peek : Returns (packetpeek p offset n) s fun r _ => ∀ io, r = .ok io →
    (∀ c ∈ io, s.InsideOf l c) ∧ InRange (s.sizeOf l) offset n
  copy : Returns (packetcopy p offset n) s fun r _ => ∀ io, r = .ok io →
    ∀ c ∈ io, s.InsideOf l c
  dup : Returns (packetdup p offset n) s fun r _ => ∀ pp, r = .ok pp →
    InRange (s.sizeOf l) offset n
  fragments : Returns (packetfragments p nio offset) s fun r _ => ∀ io size, r = .ok (io, size) →
    ∀ c ∈ io, c.addr = none ∨ s.InsideOf l c
  fragmentsSize : 0 ≤ offset → offset ≤ s.sizeOf l → 1 ≤ nio →
    Returns (packetfragments p nio offset) s fun r _ => ∃ io,
      r = .ok (io, ((((s.suffix l offset).take nio.toNat).map IOchunk.len).sum))

/-- The arguments for which they do: a range whose end is an `int`, an offset in the packet
even if no bytes are read, one before the end for `packetfragments`, and no fragment in the
range that has a routine which gives it back. -/
structure RangeOk (s : Heap) (l : List FragId) (offset n nio : ℤ) : Prop where
  int : 0 ≤ offset → 0 ≤ n → offset + n < 2 ^ 31
  empty : n = 0 → 0 ≤ offset ∧ offset ≤ s.sizeOf l
  last : s.sizeOf l ≠ 0 → 0 < nio → offset ≠ s.sizeOf l
  plain : 0 ≤ offset → 0 < n → offset + n ≤ s.sizeOf l →
    ∀ f ∈ s.rangeFrags l offset n, (s.frag f).Plain

/-- `packetpeek` finds any offset good for no bytes. -/
theorem peek_zero {R : Prop} (h : IsPacket s p l)
    (hpeek : Returns (packetpeek p offset 0) s fun r _ => ∀ io, r = .ok io → R) : R := by
  have hzero : (packetpeek p offset 0).run s = .ok (.ok [], s) := by
    have hfree : Returns (packetpeek p offset 0) s fun r t => r = .ok [] ∧ t = s := by
      rw [packetpeek]
      refine returns_notFree_bind h.notFree ?_
      rw [if_pos rfl, returns_pure]
      exact ⟨rfl, rfl⟩
    obtain ⟨r, t, hrun, rfl, rfl⟩ := hfree
    exact hrun
  obtain ⟨r, t, hrun, hR⟩ := hpeek
  rw [hzero] at hrun
  obtain ⟨rfl, rfl⟩ := Prod.mk.inj (Except.ok.inj hrun)
  exact hR [] rfl

/-- **The readers of a range stay inside the packet** for just these arguments, whatever fragments
the packet has: its own or foreign ones, and empty ones too. -/
theorem rangedReaders_iff {s : Heap} {p : ℕ} {l : List FragId} (h : IsPacket s p l)
    (hsize : s.sizeOf l < 2 ^ 31) (offset n nio : CInt) :
    RangedReaders s p l offset.1 n.1 nio.1 ↔ RangeOk s l offset.1 n.1 nio.1 := by
  obtain ⟨offset, hoffset⟩ := offset
  obtain ⟨n, hn⟩ := n
  obtain ⟨nio, hnio⟩ := nio
  simp only
  constructor
  · intro hr
    have hdup : 0 ≤ offset → 0 < n → wrapInt (offset + n) ≤ s.sizeOf l →
        offset + n ≤ s.sizeOf l ∧ ∀ f ∈ s.rangeFrags l offset n, (s.frag f).Plain :=
      fun h0 hpos hpass => (packetdup_iff h h0 hpos hpass).1 (hr.dup.mono fun _ _ _ => trivial)
    refine ⟨fun h0 hn0 => ?_, fun hzero => ?_, fun hne hpos heq => ?_, fun h0 hpos hle => ?_⟩
    · by_contra hge
      have hwrap : wrapInt (offset + n) < 0 := by
        rw [wrapInt, Int.bmod_def]
        omega
      have hle := (hdup h0 (by omega) (by omega)).1
      omega
    · subst hzero
      obtain ⟨h0, -, hle⟩ := peek_zero h (hr.peek.mono fun r _ hall io hio => (hall io hio).2)
      exact ⟨h0, by omega⟩
    · rw [heq] at hr
      exact (packetfragments_faults h hne hpos).not_returns hr.fragments
    · exact (hdup h0 hpos (by rw [wrapInt_of_lt (by omega) (by omega)]; exact hle)).2
  · intro hr
    have hpeek := packetpeek_run h fun _ h0 _ hn0 => hr.int h0 hn0
    have hfragments := packetfragments_spec h hr.last
    refine ⟨?_, ?_, ?_, ?_, ?_⟩
    · refine hpeek.mono ?_
      rintro r t ⟨-, rfl⟩ io hio
      obtain ⟨hin, hrange⟩ := insideOf_peek h hio
      refine ⟨hin, ?_⟩
      by_cases hzero : n = 0
      · obtain ⟨h0, hle⟩ := hr.empty hzero
        exact ⟨h0, hzero.ge, by omega⟩
      · exact hrange hzero
    · rw [packetcopy]
      refine returns_notFree_bind h.notFree (hpeek.mono ?_)
      rintro r t ⟨-, rfl⟩ io hio
      exact (insideOf_peek h hio).1
    · by_cases hbad : offset < 0 ∨ n < 0 ∨ s.sizeOf l < offset + n
      · refine (packetdup_error h hbad hr.int).mono ?_
        rintro r - rfl pp hpp
        cases hpp
      · have hrange : InRange (s.sizeOf l) offset n := ⟨by omega, by omega, by omega⟩
        by_cases hzero : n = 0
        · subst hzero
          exact (packetdup_zero h (by omega) (by omega) hsize).mono fun _ _ _ _ _ => hrange
        · have hint := hr.int (by omega) (by omega)
          refine ((packetdup_iff h (by omega) (by omega) ?_).2 ⟨by omega,
            hr.plain (by omega) (by omega) (by omega)⟩).mono fun _ _ _ _ _ => hrange
          rw [wrapInt_of_lt (by omega) hint]
          omega
    · exact hfragments.mono fun r t hall => hall.1
    · intro h0 hle hpos
      exact hfragments.mono fun r t hall => hall.2 h0 hle hpos

/-- The packets of runs without `packetforeign` are such packets. -/
theorem Heap.Bounded.isPacket {s : Heap} {p : ℕ} {b : ByteString} (h : s.Bounded)
    (hp : s.abs p = some b) : IsPacket s p (s.frags p) ∧ s.sizeOf (s.frags p) < 2 ^ 31 := by
  obtain ⟨⟨own, held, hok⟩, hbound⟩ := h
  obtain ⟨hsize, hbytes, -⟩ := hok.of_abs hp
  rw [hok.frags_eq hsize, ← hok.ok.length_bytesOf hok.mem, hbytes]
  exact ⟨hok.isPacket hsize, hbound p b hp⟩

/-- A packet with one byte of its own and two in a buffer of the caller. -/
def mixedHeap : Heap :=
  let run : PacketM Unit := do
    let p ← packetalloc
    packetappend p [1]
    let q ← packetforeign 0 2 none none
    packetconcat p q
  match run.run emptyHeap with
  | .ok (_, s) => s
  | .error _ => emptyHeap

theorem mixedHeap_isPacket : IsPacket mixedHeap 0 [.loc 0 0, .loc 1 0] where
  frags := by
    refine ⟨fun f hf => ?_, by decide, fun f hf => ?_⟩
    · rcases mem_pair.1 (mem_toFinset.1 hf) with rfl | rfl
      · exact ⟨by decide, by decide, by decide⟩
      · exact ⟨by decide, by decide, by decide⟩
    · rw [show mixedHeap.freeFrag = [] by decide] at hf
      exact absurd hf not_mem_nil
  nodup := by decide
  linked := by
    rw [linked_cons, linked_cons, linked_nil]
    decide
  range := by decide
  size := by decide
  alloc := by decide
  freePacket := by decide

/-- Reading all three bytes, from the packet's own memory and from the foreign buffer. -/
theorem rangedReaders_mixed : RangedReaders mixedHeap 0 [.loc 0 0, .loc 1 0] 0 3 2 :=
  (rangedReaders_iff mixedHeap_isPacket (by decide) ⟨0, by decide⟩ ⟨3, by decide⟩
    ⟨2, by decide⟩).2 ⟨by decide, by decide, by decide, by decide⟩

theorem onePacket_bounded : onePacket.Bounded :=
  onePacket_run.guarded_inv (fun _ _ _ h hop hstep => bounded_step h hop hstep) emptyHeap_bounded

/-- **`packetfragments` walks off the packet** with one byte, asked for what is behind it. -/
theorem packetfragments_walks_off : ¬∀ (s : Heap) (p : ℕ) (l : List FragId), IsPacket s p l →
    s.sizeOf l < 2 ^ 31 →
    ∀ offset n nio : CInt, RangedReaders s p l offset.1 n.1 nio.1 := by
  intro h
  have hone : onePacket.abs 0 = some [1] := by decide
  obtain ⟨hpacket, hsize⟩ := onePacket_bounded.isPacket hone
  obtain ⟨r, t, hrun, -⟩ := (h onePacket 0 _ hpacket hsize
    ⟨1, by decide⟩ ⟨0, by decide⟩ ⟨1, by decide⟩).fragments
  have hfault : (packetfragments 0 1 1).run onePacket = .error .nil := by
    have hresult : ((packetfragments 0 1 1).run onePacket).map (fun _ => ()) =
        .error .nil := by decide
    cases hr : (packetfragments 0 1 1).run onePacket with
    | error e => simpa [hr, Except.map] using hresult
    | ok r => simp [hr, Except.map] at hresult
  rw [hfault] at hrun
  cases hrun

end LibVenti

end Plan9
