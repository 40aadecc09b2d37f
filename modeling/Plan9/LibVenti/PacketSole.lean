import Plan9.LibVenti.PacketShare

/-!
# A packet with memory of its own

A packet whose memory no other fragment refers to can always be made longer, since `memtail` and
`memhead`, which abort, are not called. Making it longer, trimming it, consuming from it and writing
to it leave it so: they take new memory, which has one reference, and otherwise only give references
back (`Plan9.LibVenti.Tame`).

* `Plan9.LibVenti.Private.packettrailer`, `packettrim`, `packetconsume`, `fill` – what these do to
  such a packet;
* `Plan9.LibVenti.Private.packetsplit` – handing out a packet that is complete, or an empty one.
-/

namespace Plan9

namespace LibVenti

open Lib Function

/-! ### References -/

/-- Memory with one reference keeps at most one, and no fragment comes to refer to other memory. -/
structure Tame (s t : Heap) : Prop where
  ref : ∀ m, (s.mem m).ref ≤ 1 → (t.mem m).ref ≤ 1
  mem : ∀ f m, (t.frag f).mem = some m → (s.frag f).mem = some m ∨ (t.mem m).ref ≤ 1

variable {s t u : Heap} {p m : ℕ} {f : FragId} {α : Type} {Q : α → Heap → Prop}

theorem Tame.refl (s : Heap) : Tame s s := ⟨fun _ h => h, fun _ _ h => Or.inl h⟩

theorem Tame.trans (h : Tame s t) (h' : Tame t u) : Tame s u := by
  refine ⟨fun m hm => h'.ref m (h.ref m hm), fun f m hm => ?_⟩
  rcases h'.mem f m hm with hm | hm
  · exact (h.mem f m hm).imp_right (h'.ref m)
  · exact Or.inr hm

/-- The program is tame, if it returns. -/
def Tames (x : PacketM α) (s : Heap) : Prop := Moves Tame x s fun _ _ => True

theorem Tames.bind {β : Type} {x : PacketM α} {k : α → PacketM β} {Q : β → Heap → Prop}
    (h : Tames x s) (hk : ∀ a t, Moves Tame (k a) t Q) : Moves Tame (x >>= k) s Q :=
  Moves.bind Tame.trans h fun a t _ => hk a t

theorem tames_pure (a : α) (s : Heap) : Tames (pure a) s := moves_pure (Tame.refl s) trivial

/-- The state with the same memory and fragments. -/
theorem tames_set (hfrag : t.frag = s.frag) (hmem : t.mem = s.mem) :
    Tames (set t : PacketM Unit) s := by
  intro a t' hrun
  obtain ⟨-, rfl⟩ := Prod.mk.inj (Except.ok.inj hrun)
  exact ⟨⟨fun m hm => by rwa [hmem], fun f m hm => Or.inl (by rwa [← hfrag])⟩, trivial⟩

theorem moves_deref_bind {β : Type} {a : Option α} {k : α → PacketM β} {Q : β → Heap → Prop}
    (h : ∀ x, a = some x → Moves Tame (k x) s Q) : Moves Tame (deref a >>= k) s Q := by
  cases a with
  | none => exact fun b t hrun => by cases hrun
  | some x => exact h x rfl

theorem moves_assert_bind {c : Bool} {k : Unit → PacketM α} (h : Moves Tame (k ()) s Q) :
    Moves Tame (assert c >>= k) s Q := by
  cases c with
  | false => exact fun b t hrun => by cases hrun
  | true => exact h

theorem moves_notFree_bind {p : ℕ} {k : Unit → PacketM α} (h : Moves Tame (k ()) s Q) :
    Moves Tame (notFree p >>= k) s Q := by
  rw [notFree, bind_assoc]
  exact moves_get_bind (moves_assert_bind h)

theorem tames_modifyPacket (p : ℕ) (g : Packet → Packet) (s : Heap) : Tames (modifyPacket p g) s :=
  moves_modify ⟨fun _ h => h, fun _ _ h => Or.inl h⟩ trivial

theorem tames_modifyFrag {g : Frag → Frag} (s : Heap)
    (hg : ∀ m, (g (s.frag f)).mem = some m → (s.frag f).mem = some m ∨ (s.mem m).ref ≤ 1) :
    Tames (modifyFrag f g) s := by
  refine moves_modify ⟨fun _ h => h, fun f' m hm => ?_⟩ trivial
  rcases eq_or_ne f' f with rfl | hne
  · rw [Heap.setFrag_frag, update_self] at hm
    exact hg m hm
  · rw [Heap.setFrag_frag, update_of_ne hne] at hm
    exact Or.inl hm

/-- A change of a fragment that keeps its memory. -/
theorem tames_modifyRange {g : Frag → Frag} (f : FragId) (s : Heap) (hg : ∀ x, (g x).mem = x.mem) :
    Tames (modifyFrag f g) s :=
  tames_modifyFrag s fun m hm => Or.inl (by rwa [hg] at hm)

theorem tame_setMem {x : Mem} (hx : (s.mem m).ref ≤ 1 → x.ref ≤ 1) : Tame s (s.setMem m x) := by
  refine ⟨fun m' hm' => ?_, fun _ _ h => Or.inl h⟩
  rcases eq_or_ne m' m with rfl | hne
  · rw [Heap.setMem_mem, update_self]
    exact hx hm'
  · rw [Heap.setMem_mem, update_of_ne hne]
    exact hm'

theorem tames_modifyMem {g : Mem → Mem} (m : ℕ) (s : Heap)
    (hg : (s.mem m).ref ≤ 1 → (g (s.mem m)).ref ≤ 1) : Tames (modifyMem m g) s :=
  moves_modify (tame_setMem hg) trivial

theorem tames_memfree (m : ℕ) (s : Heap) : Tames (memfree m) s := by
  refine Tames.bind (tames_modifyMem m s fun h => ?_) fun _ t => moves_get_bind ?_
  · simp only
    omega
  · split
    · exact tames_pure () t
    · refine moves_assert_bind ?_
      split
      · exact tames_set rfl rfl
      · split
        · exact tames_set rfl rfl
        · exact moves_throw

theorem tames_fragfree (f : FragId) (s : Heap) : Tames (fragfree f) s := by
  have hlast : ∀ t, Tames (if (s.frag f).state = .fragLocalAlloc then
      modifyFrag f fun g => { g with state := .fragLocalFree }
      else modify fun s => { s with freeFrag := f :: s.freeFrag }) t := by
    intro t
    split
    · exact tames_modifyRange f t fun _ => by rfl
    · exact moves_modify ⟨fun _ h => h, fun _ _ h => Or.inl h⟩ trivial
  refine moves_get_bind ?_
  dsimp only
  split
  · refine (tames_memfree _ s).bind fun _ t => (tames_modifyFrag t fun m hm => ?_).bind
      fun _ => hlast
    cases hm
  · exact hlast s

theorem tames_freeChain (k : ℕ) (a : Option FragId) (s : Heap) : Tames (freeChain k a) s := by
  induction k generalizing a s with
  | zero =>
    cases a with
    | none => exact tames_pure () s
    | some f => exact moves_throw
  | succ k ih =>
    cases a with
    | none => exact tames_pure () s
    | some f => exact moves_get_bind ((tames_fragfree f s).bind fun _ => ih _)

theorem tames_freeBefore (k : ℕ) (a : Option FragId) (offset : ℤ) (s : Heap) :
    Tames (freeBefore k a offset) s := by
  induction k generalizing a offset s with
  | zero => exact moves_throw
  | succ k ih =>
    refine moves_deref_bind fun f _ => moves_get_bind ?_
    split
    · exact (tames_fragfree f s).bind fun _ => ih _ _
    · exact tames_pure _ s

theorem tames_skipMiddle (k : ℕ) (a : Option FragId) (n : ℤ) (s : Heap) :
    Tames (skipMiddle k a n) s := by
  induction k generalizing a n s with
  | zero => exact moves_throw
  | succ k ih =>
    refine moves_deref_bind fun f _ => moves_get_bind ?_
    split
    · exact ih _ _ s
    · exact tames_pure _ s

theorem tames_packettrim (p : ℕ) (offset n : ℤ) (s : Heap) : Tames (packettrim p offset n) s := by
  refine moves_notFree_bind (moves_get_bind ?_)
  split
  · exact tames_pure _ s
  split
  · exact tames_pure _ s
  refine (tames_modifyPacket p _ s).bind fun _ t => ?_
  split
  · refine (tames_freeChain _ _ t).bind fun _ t => (tames_modifyPacket p _ t).bind fun _ t => ?_
    exact moves_notFree_bind (tames_pure _ t)
  · refine (tames_freeBefore _ _ _ t).bind ?_
    rintro ⟨f, o⟩ t
    dsimp only
    refine (tames_modifyRange _ t fun _ => by rfl).bind fun _ t => (tames_modifyPacket p _ t).bind
      fun _ t => (tames_skipMiddle _ _ _ t).bind ?_
    rintro ⟨g, k⟩ t
    dsimp only
    refine (tames_modifyRange _ t fun _ => by rfl).bind fun _ t => (tames_modifyPacket p _ t).bind
      fun _ t => moves_get_bind ?_
    refine (tames_modifyRange _ t fun _ => by rfl).bind fun _ t => (tames_freeChain _ _ t).bind
      fun _ t => ?_
    exact moves_notFree_bind (tames_pure _ t)

/-! ### New memory -/

theorem moves_memalloc (n : ℤ) (pos : Pos) (s : Heap) :
    Moves Tame (memalloc n pos) s fun a t => ∀ m, a = some m → (t.mem m).ref ≤ 1 := by
  rw [memalloc]
  split
  · exact moves_pure (Tame.refl s) fun m hm => by cases hm
  · have hlast : ∀ m (first : Heap → ℤ) t, Moves Tame (do
        let s ← get
        assert ((s.mem m).ref = 0)
        let rp := if first s < 0 then 0 else first s
        modifyMem m fun mem => { mem with ref := 1, rp := rp.toNat, wp := (rp + n).toNat }
        assert (rp + n ≤ (s.mem m).size)
        pure (some m) : PacketM (Option ℕ)) t
          fun a t => ∀ m, a = some m → (t.mem m).ref ≤ 1 := by
      intro m first t
      refine moves_get_bind (moves_assert_bind ?_)
      refine Moves.bind Tame.trans (P := fun _ u => (u.mem m).ref ≤ 1)
        (moves_modify (tame_setMem fun _ => le_rfl) ?_) fun _ u hu => ?_
      · rw [Heap.setMem_mem, update_self]
      · refine moves_assert_bind (moves_pure (Tame.refl u) fun m' hm' => ?_)
        cases hm'
        exact hu
    refine moves_get_bind ?_
    dsimp only
    split
    next m rest _ =>
      simp only [pure_bind]
      split
      · exact (tames_set (by rfl) (by rfl)).bind fun _ => hlast m _
      · exact (tames_set (by rfl) (by rfl)).bind fun _ => hlast m _
    next =>
      simp only [pure_bind]
      refine Tames.bind (fun a t hrun => ?_) fun _ => hlast s.nmem _
      obtain ⟨-, rfl⟩ := Prod.mk.inj (Except.ok.inj hrun)
      have hzero : Tame s (s.setMem s.nmem
        ⟨0, if n ≤ smallMemSize then smallMemSize else maxFragSize,
          fun _ => 0, 0, 0⟩) := tame_setMem fun _ => Int.zero_le_ofNat 1
      exact ⟨⟨hzero.ref, hzero.mem⟩, trivial⟩

theorem tames_findFrag (p : ℕ) (s : Heap) : Tames (findFrag p) s := by
  refine moves_get_bind ?_
  split
  · exact (tames_modifyRange _ s fun _ => by rfl).bind fun _ => tames_pure _
  split
  · exact (tames_modifyRange _ s fun _ => by rfl).bind fun _ => tames_pure _
  split
  · exact (tames_set (by rfl) (by rfl)).bind fun _ => tames_pure _
  · exact (tames_set (by rfl) (by rfl)).bind fun _ t => (tames_modifyRange _ t fun _ => by rfl).bind
      fun _ => tames_pure _

theorem tames_fragalloc (p : ℕ) (n : ℤ) (pos : Pos) (next : Option FragId) (s : Heap) :
    Tames (fragalloc p n pos next) s := by
  refine (tames_findFrag p s).bind fun f t => ?_
  split
  · refine (tames_modifyFrag t fun m hm => ?_).bind fun _ => tames_pure _
    cases hm
  · refine (moves_memalloc n _ t).bind Tame.trans fun a u hu => ?_
    refine moves_deref_bind fun m hm => moves_get_bind ?_
    refine (tames_modifyFrag u fun m' hm' => ?_).bind fun _ => tames_pure _
    cases hm'
    exact Or.inr (hu _ hm)

theorem tames_linkLast (p : ℕ) (f : FragId) (s : Heap) : Tames (linkLast p f) s := by
  refine moves_get_bind ?_
  dsimp only
  split
  · exact (tames_modifyPacket p _ s).bind fun _ => tames_modifyPacket p _
  · exact moves_deref_bind fun l _ => (tames_modifyRange l s fun _ => by rfl).bind
      fun _ => tames_modifyPacket p _

theorem tames_packettrailer (p : ℕ) (n : ℤ) (s : Heap) : Tames (packettrailer p n) s := by
  refine moves_notFree_bind ?_
  split
  · exact tames_pure _ s
  refine (tames_modifyPacket p _ s).bind fun _ t => moves_get_bind ?_
  have hnew : ∀ pos u, Tames (do
      let f ← fragalloc p n pos none
      linkLast p f
      notFree p
      let s ← get
      let m ← deref (s.frag f).mem
      pure (.ok (m, (s.frag f).rp)) : PacketM (Except String (ℕ × ℕ))) u := fun pos u =>
    (tames_fragalloc p n pos none u).bind fun f u => (tames_linkLast p f u).bind fun _ u =>
      moves_notFree_bind (moves_get_bind (moves_deref_bind fun m _ => tames_pure _ u))
  have hwide : ∀ f u, Tames (do
      let m ← deref (t.frag f).mem
      modifyFrag f fun g => { g with wp := (g.wp + n).toNat }
      notFree p
      pure (.ok (m, (t.frag f).wp)) : PacketM (Except String (ℕ × ℕ))) u := fun f u =>
    moves_deref_bind fun m _ => (tames_modifyRange f u fun _ => by rfl).bind fun _ u =>
      moves_notFree_bind (tames_pure _ u)
  dsimp only
  split
  · exact hnew _ t
  · refine moves_deref_bind fun f _ => moves_deref_bind fun m _ => ?_
    split
    · split
      · exact hwide f t
      · exact fun a u hrun => by cases hrun
    · exact hnew _ t

/-! ### Packets with memory of their own -/

/-- No other fragment refers to the memory of the packet. -/
def Private (s : Heap) (p : ℕ) : Prop := ∀ f ∈ s.frags p, Sole s f

section Private

variable {b : ByteString} {n k : ℕ} {a : ℕ × ℕ}

section

variable (h : Private s p)

include h

/-- **A tame program keeps the memory private**, if the fragments that it adds have memory of their
own. -/
theorem Private.of_tame (htame : Tame s t) (hok : t.Ok) (hp : t.abs p = some b)
    (hfrags : ∀ f ∈ t.frags p, f ∈ s.frags p ∨ Sole t f) : Private t p := by
  intro f hf m hm
  rcases hfrags f hf with hold | hnew
  · have hle : (t.mem m).ref ≤ 1 := by
      rcases htame.mem f m hm with hsm | hle
      · exact htame.ref m (h f hold m hsm).le
      · exact hle
    -- the fragment itself is a reference
    obtain ⟨own, held, hok⟩ := hok
    have hfp : f ∈ own p := by
      rw [← hok.frags_eq (hok.of_abs hp).1]
      exact hf
    obtain ⟨m', hm', hfm, -⟩ := hok.ok.inMem f (hok.mem f hfp)
    obtain rfl := Option.some.inj (hm.symm.trans hfm)
    have hcard : 0 < (t.sharers held m).card :=
      Finset.card_pos.2 ⟨f, Finset.mem_filter.2 ⟨hok.mem f hfp, hm⟩⟩
    have href := hok.ok.ref m hm'
    omega
  · exact hnew m hm

theorem Private.last (hok : s.Ok) (hp : s.abs p = some b)
    (hlast : (s.packet p).last = some f) : Sole s f := by
  obtain ⟨own, held, hok⟩ := hok
  have hlive := (hok.of_abs hp).1
  refine h f ?_
  rw [hok.frags_eq hlive]
  rw [(hok.chain p hlive).last] at hlast
  exact List.mem_of_getLast? hlast

/-- **More bytes** can be had. -/
theorem Private.packettrailer (hok : s.Ok) (hp : s.abs p = some b)
    (hpos : 0 < n) (hmax : n ≤ maxFragSize) (hlen : b.length + n < 2 ^ 31) :
    Returns (packettrailer p n) s fun r t => t.Ok ∧ Private t p ∧ ∃ a x, r = .ok a ∧
      x.length = n ∧ Located t p b.length n a ∧ t.abs = update s.abs p (some (b ++ x)) := by
  have hrange : ¬((n : ℤ) ≤ 0 ∨ (n : ℤ) > maxFragSize) := by omega
  have hspec := packettrailer_spec (n := n) hok hp (fun _ _ => by omega)
    fun _ _ f m hf hm _ => h.last hok hp hf m hm
  refine ((tames_packettrailer p n s).returns hspec).mono ?_
  rintro r t ⟨hr, htame, -⟩
  rw [if_neg hrange] at hr
  obtain ⟨ht, a, x, hret, hx, ha, habs, hfrags⟩ := hr
  have hself : t.abs p = some (b ++ x) := by rw [habs, update_self]
  exact ⟨ht, h.of_tame htame ht hself hfrags, a, x, hret, hx, ha, habs⟩

/-- **Less bytes**: what `packettrim` keeps, or that it reports an error. -/
theorem Private.packettrim {offset n : ℤ} (hok : s.Ok) (hp : s.abs p = some b)
    (hint : 0 ≤ offset → offset ≤ b.length → 0 ≤ n → offset + n < 2 ^ 31) :
    Returns (packettrim p offset n) s fun r t =>
      t.Ok ∧ Private t p ∧ TrimEffect s t p b offset n r := by
  refine ((tames_packettrim p offset n s).returns (packettrim_frags hok hp hint)).mono ?_
  rintro r t ⟨⟨ht, heffect, hfrags⟩, htame, -⟩
  have hlive : ∃ b', t.abs p = some b' := by
    rw [TrimEffect] at heffect
    cases htrim : ByteString.trim b offset n with
    | ok b' =>
      rw [htrim] at heffect
      exact ⟨b', by rw [heffect.2, update_self]⟩
    | error e =>
      rw [htrim] at heffect
      exact ⟨b, by rw [heffect.2, hp]⟩
  obtain ⟨b', hb'⟩ := hlive
  exact ⟨ht, h.of_tame htame ht hb' fun f hf => Or.inl (hfrags f hf), heffect⟩

/-- The first bytes are kept. -/
theorem Private.packettrim_take (hok : s.Ok) (hp : s.abs p = some b)
    (hlen : b.length < 2 ^ 31) (hn : n ≤ b.length) :
    Returns (LibVenti.packettrim p 0 n) s fun _ t => t.Ok ∧ Private t p ∧
      t.abs = update s.abs p (some (b.take n)) := by
  refine (h.packettrim hok hp fun _ _ _ => by omega).mono ?_
  rintro r t ⟨ht, hpriv, heffect⟩
  have htrim : ByteString.trim b 0 n = .ok (b.take n) := by
    have heq := @ByteString.trim_eq_ok b 0 n (by omega)
    simpa [ByteString.slice] using heq
  rw [TrimEffect, htrim] at heffect
  exact ⟨ht, hpriv, heffect.2⟩

/-- **Bytes off the front**, into a buffer. -/
theorem Private.packetconsume (hok : s.Ok) (hp : s.abs p = some b)
    (hlen : b.length < 2 ^ 31) (hn : n ≤ b.length) :
    Returns (packetconsume p true n) s fun r t => t.Ok ∧ Private t p ∧ r = .ok (b.take n) ∧
      t.abs = update s.abs p (some (b.drop n)) := by
  have hsize : 0 ≤ (s.packet p).size ∧ (s.packet p).size = b.length := by
    obtain ⟨own, held, hok⟩ := hok
    exact ⟨(hok.of_abs hp).1, (hok.of_abs hp).2.2⟩
  have hcopy : Returns (bytesIn (packetcopy p 0 n)) s fun r t =>
      t = s ∧ r = .ok (b.take n) := by
    refine (packetcopy_spec hok hp fun _ _ _ _ => by omega).mono ?_
    rintro r t ⟨rfl, rfl⟩
    have hpeek := @ByteString.peek_eq_ok b 0 n (by omega)
    exact ⟨rfl, by simpa [ByteString.slice] using hpeek⟩
  rw [LibVenti.packetconsume]
  refine returns_notFree_bind hsize.1 ?_
  simp only [if_true]
  refine hcopy.bind ?_
  rintro r t ⟨rfl, rfl⟩
  simp only
  rw [returns_get_bind, hsize.2, wrapInt_of_lt (by omega) (by omega)]
  have hrest : (b.length : ℤ) - n = ((b.length - n : ℕ) : ℤ) := by omega
  refine (h.packettrim hok hp fun _ _ _ => by omega).bind ?_
  rintro r u ⟨hu, hpriv, heffect⟩
  have htrim : ByteString.trim b n (b.length - n) = .ok (b.drop n) := by
    have heq := @ByteString.trim_eq_ok b n (b.length - n) (by omega)
    rw [hrest, heq]
    simp [ByteString.slice, List.take_of_length_le]
  rw [TrimEffect, htrim] at heffect
  rw [returns_pure, heffect.1]
  exact ⟨hu, hpriv, rfl, heffect.2⟩

/-- **Writing** to the packet. -/
theorem Private.fill {x : List UInt8} (hok : s.Ok) (hp : s.abs p = some b)
    (ha : Located s p k n a) (hx : x.length ≤ n) :
    Returns (fill a x) s fun _ t => t.Ok ∧ Private t p ∧
      t.abs = update s.abs p (some (b.splice k x)) := by
  obtain ⟨l, f, l', hfrags, hfm, hle, hend, hk⟩ := ha
  have hf : f ∈ s.frags p := by
    rw [hfrags]
    exact List.mem_append_right l List.mem_cons_self
  have hloc : Located s p k x.length a := ⟨l, f, l', hfrags, hfm, hle, by omega, hk⟩
  have htame : Tames (LibVenti.fill a x) s := by
    rw [LibVenti.fill, memmove]
    exact tames_modifyMem a.1 s fun hm => hm
  have hkeep : Returns (LibVenti.fill a x) s fun _ t => t.frags p = s.frags p := by
    rw [LibVenti.fill, memmove, modifyMem, returns_modify]
    rfl
  obtain ⟨r, t, hrun, ⟨ht, habs⟩, htame, -⟩ :=
    htame.returns (fill_spec hok hp hloc (h f hf a.1 hfm))
  obtain ⟨r', t', hrun', hfrags'⟩ := hkeep
  obtain ⟨rfl, rfl⟩ := Prod.mk.inj (Except.ok.inj (hrun.symm.trans hrun'))
  have hself : t.abs p = some (b.splice k x) := by rw [habs, update_self]
  refine ⟨r, t, hrun, ht, h.of_tame htame ht hself fun g hg => ?_, habs⟩
  exact Or.inl (hfrags' ▸ hg)

end

/-- An empty packet has no memory. -/
theorem private_of_nil (hok : s.Ok) (hp : s.abs p = some []) : Private s p := by
  obtain ⟨own, held, hok⟩ := hok
  obtain ⟨hlive, hbytes, -⟩ := hok.of_abs hp
  intro f hf
  rw [hok.frags_eq hlive] at hf
  obtain ⟨l, l', hl⟩ := List.append_of_mem hf
  have hlen := hok.ok.length_fragBytes (hok.mem f hf)
  obtain ⟨m, -, -, hlt, -⟩ := hok.ok.inMem f (hok.mem f hf)
  rw [hl, bytesOf_append, bytesOf_cons, List.append_eq_nil_iff, List.append_eq_nil_iff] at hbytes
  rw [hbytes.2.1, List.length_nil, Heap.fragSize] at hlen
  omega

/-- **A front is handed out**: either the whole packet or nothing. -/
theorem Private.packetsplit (h : Private s p) (hok : s.Ok) (hp : s.abs p = some b)
    (hn : n = b.length ∨ n = 0) :
    Returns (packetsplit p n) s fun r t => t.Ok ∧ Private t p ∧ ∃ pp, r = .ok pp ∧ s.abs pp = none ∧
        t.abs = update (update s.abs p (some (b.drop n))) pp
          (some (b.take n)) := by
  have hsplit : ByteString.split b n = .ok (b.take n, b.drop n) := by
    rw [ByteString.split, if_neg (by omega), Int.toNat_natCast]
  have hspec := packetsplit_spec (n := n) hok hp
  rw [hsplit] at hspec
  by_cases hzero : n = 0
  · -- nothing but a new packet
    subst hzero
    obtain ⟨r, t, hrun, ht, pp, hr, hnone, habs⟩ := hspec
    refine ⟨r, t, hrun, ht, ?_, pp, hr, hnone, habs⟩
    obtain ⟨own, held, hok⟩ := hok
    have hlive := (hok.of_abs hp).1
    have hnew : Returns (LibVenti.packetsplit p 0) s fun _ t => PacketsOk t own held ∧
        t.frag = s.frag ∧ t.mem = s.mem ∧ t.packet p = s.packet p := by
      have hsize : ¬((0 : ℤ) < 0 ∨ 0 > (s.packet p).size) := by omega
      rw [LibVenti.packetsplit]
      refine returns_notFree_bind hlive ?_
      rw [returns_get_bind, if_neg hsize]
      refine (packetalloc_new hok).bind fun q u hq => ?_
      have hqp : p ≠ q := by
        rintro rfl
        rw [hq.abs_none] at hp
        cases hp
      simp only [if_true]
      refine returns_notFree_bind (by rw [hq.packet_self]) ?_
      rw [returns_pure]
      exact ⟨hq.ok, hq.frag, hq.mem, hq.packet p hqp⟩
    obtain ⟨r', t', hrun', hok', hfrag, hmem, hpacket⟩ := hnew
    obtain ⟨rfl, rfl⟩ := Prod.mk.inj (Except.ok.inj (hrun.symm.trans hrun'))
    intro f hf m hm
    rw [hok'.frags_eq (by rw [hpacket]; exact hlive), ← hok.frags_eq hlive] at hf
    rw [hfrag] at hm
    rw [hmem]
    exact h f hf m hm
  · -- all of it
    obtain rfl : n = b.length := hn.resolve_right hzero
    refine hspec.mono ?_
    rintro r t ⟨ht, pp, hr, hnone, habs⟩
    refine ⟨ht, private_of_nil ht ?_, pp, hr, hnone, habs⟩
    have hne : p ≠ pp := by
      rintro rfl
      rw [hnone] at hp
      cases hp
    rw [habs, update_of_ne hne, update_self, List.drop_length]

end Private

end LibVenti

end Plan9
