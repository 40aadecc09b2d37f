import Plan9.LibVenti.PacketTrim

/-!
# Packets share memory

`packetdup` makes fragments for the same memory, `packetsplit` and `packetconcat` hand
fragments from one packet to another. None of them copies a byte, and no packet but
their operands changes (`Plan9.LibVenti.packetdup_spec`,
`Plan9.LibVenti.packetsplit_spec`, `Plan9.LibVenti.packetconcat_spec`). A caller may write
into memory that is not shared (`Plan9.LibVenti.fill_spec`).
-/

namespace Plan9

namespace LibVenti

open Lib List Function

/-! ### Two packets -/

variable {s t : Heap} {own : ℕ → List FragId} {held : Finset FragId} {p q : ℕ} {b : ByteString}

/-- **Putting an operation on two packets together**: `q` has the fragments `l₁` afterwards and `p`
those of `l₂`. -/
theorem PacketsOk.change₂ {held' : Finset FragId} (l₁ l₂ : List FragId) (b₁ b₂ : ByteString)
    (h : PacketsOk s own held) (hqp : q ≠ p) (hp : 0 ≤ (s.packet p).size)
    (hq : 0 ≤ (s.packet q).size) (hok : HeapOk t held')
    (hheld : ∀ f, f ∈ held' ↔ f ∈ l₁ ++ l₂ ∨ f ∈ held ∧ f ∉ own p ∧ f ∉ own q)
    (hnew : ∀ f ∈ l₁ ++ l₂, f ∈ own p ∨ f ∈ own q ∨ f ∉ held) (hnodup : (l₁ ++ l₂).Nodup)
    (hchainq : IsChain t q l₁) (hchainp : IsChain t p l₂) (hsizeq : (t.packet q).size = b₁.length)
    (hsizep : (t.packet p).size = b₂.length)
    (hother : ∀ r, r ≠ p → r ≠ q → t.packet r = s.packet r) (hnpacket : t.npacket = s.npacket)
    (hfree : t.freePacket = s.freePacket) (hframe : ∀ f ∈ held, f ∉ own p → f ∉ own q →
      t.frag f = s.frag f ∧ t.fragBytes f = s.fragBytes f)
    (hbytes₁ : t.bytesOf l₁ = b₁) (hbytes₂ : t.bytesOf l₂ = b₂) :
    t.Ok ∧ t.abs = update (update s.abs p (some b₂)) q (some b₁) := by
  rw [nodup_append] at hnodup
  let own' : ℕ → List FragId := update (update own p l₂) q l₁
  have hown'q : own' q = l₁ := update_self ..
  have hown'p : own' p = l₂ := by
    simp only [own', update_of_ne hqp.symm, update_self]
  have hlen₁ : t.sizeOf l₁ = b₁.length := by
    rw [← hok.length_bytesOf fun f hf => (hheld f).2 (.inl (mem_append_left _ hf)), hbytes₁]
  have hlen₂ : t.sizeOf l₂ = b₂.length := by
    rw [← hok.length_bytesOf fun f hf => (hheld f).2 (.inl (mem_append_right _ hf)), hbytes₂]
  have hnot : ∀ {r}, r ∉ ({p, q} : Set ℕ) → r ≠ p ∧ r ≠ q := by
    intro r hr
    rwa [Set.mem_insert_iff, Set.mem_singleton_iff, not_or] at hr
  have hchanged := h.change (t := t) own' {p, q} hok (fun f => ?_) ?_ ?_
    (fun r hr => by simp only [own', update_of_ne (hnot hr).1, update_of_ne (hnot hr).2])
    (fun r hr => hother r (hnot hr).1 (hnot hr).2)
    (fun f hf hS => hframe f hf (hS p (.inl rfl)) (hS q (.inr rfl)))
    ?_ ?_ ?_ hnpacket.ge ?_ (by rw [hfree]; exact h.freePacket_nodup) ?_
  · obtain ⟨hok', habs⟩ := hchanged
    refine ⟨⟨_, _, hok'⟩, funext fun r => ?_⟩
    by_cases hrq : r = q
    · subst hrq
      rw [update_self, hok'.abs_eq, if_pos (by omega), hown'q, hbytes₁]
    · rw [update_of_ne hrq]
      by_cases hrp : r = p
      · subst hrp
        rw [update_self, hok'.abs_eq, if_pos (by omega), hown'p, hbytes₂]
      · rw [update_of_ne hrp]
        refine habs r ?_
        rw [Set.mem_insert_iff, Set.mem_singleton_iff, not_or]
        exact ⟨hrp, hrq⟩
  · rw [hheld f]
    simp [hown'p, hown'q, or_comm]
  · rintro r (rfl | rfl) f hf
    · rw [hown'p] at hf
      simpa [or_assoc] using hnew f (mem_append_right _ hf)
    · rw [hown'q] at hf
      simpa [or_assoc] using hnew f (mem_append_left _ hf)
  · rintro r (rfl | rfl) r' (rfl | rfl) f hf hf'
    · rfl
    · rw [hown'p] at hf
      rw [hown'q] at hf'
      exact absurd rfl (hnodup.2.2 f hf' f hf)
    · rw [hown'q] at hf
      rw [hown'p] at hf'
      exact absurd rfl (hnodup.2.2 f hf f hf')
    · rfl
  · rintro r (rfl | rfl) hr
    · rw [hown'p]
      exact hchainp
    · rw [hown'q]
      exact hchainq
  · rintro r (rfl | rfl) hr
    · rw [hown'p, hlen₂, hsizep]
    · rw [hown'q, hlen₁, hsizeq]
  · rintro r (rfl | rfl) hr <;> omega
  · rintro r (rfl | rfl) hr
    · rw [hnpacket]
      exact h.alloc r hp
    · rw [hnpacket]
      exact h.alloc r hq
  · intro r hr
    rw [hfree] at hr
    obtain ⟨hneg, hlt⟩ := h.freePacket r hr
    rw [hother r (by rintro rfl; omega) (by rintro rfl; omega), hnpacket]
    exact ⟨hneg, hlt⟩

/-! ### `packetconcat` -/

/-- The heap once the fragments of `q` follow those of `p`. -/
theorem concat_of {c : ByteString} (h : PacketsOk s own held) (hpq : p ≠ q) (hp : s.abs p = some b)
    (hq : s.abs q = some c) (hok : HeapOk t held)
    (htp : t.packet p = ⟨(b.length + c.length : ℕ), (own p ++ own q).head?, (own q).getLast?⟩)
    (htq : t.packet q = ⟨0, none, none⟩) (hother : ∀ r, r ≠ p → r ≠ q → t.packet r = s.packet r)
    (hnpacket : t.npacket = s.npacket) (hfree : t.freePacket = s.freePacket)
    (hlinked : Linked t.next (own p ++ own q).head? (own p ++ own q) none)
    (hlast : (own q).getLast? = (own p ++ own q).getLast?)
    (hfrag : ∀ f ∉ own p, t.frag f = s.frag f) (hbytes : ∀ f, t.fragBytes f = s.fragBytes f) :
    t.Ok ∧ t.abs = update (update s.abs q (some [])) p (some (b ++ c)) := by
  obtain ⟨hsizep, hbp, -⟩ := h.of_abs hp
  obtain ⟨hsizeq, hbq, -⟩ := h.of_abs hq
  have hnodup : (own p ++ own q).Nodup := by
    rw [nodup_append]
    refine ⟨(h.chain p hsizep).nodup, (h.chain q hsizeq).nodup, ?_⟩
    rintro f hfp _ hfq rfl
    exact hpq (h.disjoint p q f hfp hfq)
  refine h.change₂ (own p ++ own q) [] (b ++ c) [] hpq hsizeq hsizep hok (fun f => ?_)
    (fun f hf => ?_)
    (by rwa [append_nil]) ⟨by rw [htp]; exact hlinked, by rw [htp]; exact hlast, hnodup⟩
    ⟨by rw [htq]; rfl, by rw [htq]; rfl, nodup_nil⟩ (by rw [htp, length_append])
    (by rw [htq]; rfl) (fun r hrq hrp => hother r hrp hrq) hnpacket hfree
    (fun f _ _ hfp => ⟨hfrag f hfp, hbytes f⟩) ?_ rfl
  · rw [append_nil, mem_append]
    constructor
    · intro hf
      by_cases hin : f ∈ own p ∨ f ∈ own q
      · exact .inl hin
      · exact .inr ⟨hf, fun hfq => hin (.inr hfq), fun hfp => hin (.inl hfp)⟩
    · rintro ((hf | hf) | hf)
      · exact h.mem f hf
      · exact h.mem f hf
      · exact hf.1
  · rw [append_nil, mem_append] at hf
    exact hf.elim (fun hfp => .inr (.inl hfp)) .inl
  · rw [bytesOf_congr fun f _ => hbytes f, bytesOf_append, hbp, hbq]

/-- **`packetconcat`** puts one packet behind another, and leaves it empty. -/
theorem packetconcat_spec {c : ByteString} (h : s.Ok) (hpq : p ≠ q) (hp : s.abs p = some b)
    (hq : s.abs q = some c) (hlen : b.length + c.length < 2 ^ 31) :
    Returns (packetconcat p q) s fun _ t => t.Ok ∧
      t.abs = update (update s.abs q (some [])) p (some (b ++ c)) := by
  obtain ⟨own, held, h⟩ := h
  obtain ⟨hsizep, hbp, hlenp⟩ := h.of_abs hp
  obtain ⟨hsizeq, hbq, hlenq⟩ := h.of_abs hq
  have hchainp := h.chain p hsizep
  have hchainq := h.chain q hsizeq
  rw [packetconcat]
  refine returns_notFree_bind hsizep (returns_notFree_bind hsizeq ?_)
  rw [returns_get_bind]
  by_cases h0 : (s.packet q).size = 0
  · rw [if_pos h0, returns_pure]
    obtain rfl : c = [] := eq_nil_of_length_eq_zero (by omega)
    refine ⟨⟨own, held, h⟩, ?_⟩
    rw [append_nil, ← hq, update_eq_self, ← hp, update_eq_self]
  rw [if_neg h0, returns_modifyPacket_bind]
  have hwrap : wrapInt ((s.packet p).size + (s.packet q).size) = (b.length + c.length : ℕ) := by
    rw [wrapInt_of_lt (by omega) (by omega), hlenp, hlenq]
    push_cast
    rfl
  rw [hwrap]
  have hfirst := hchainp.linked.head_eq
  have hfirstq := hchainq.linked.head_eq
  -- the end of the call, once the heap is as it should be
  have hend : ∀ t : Heap, t.packet p = ⟨(b.length + c.length : ℕ), (own p ++ own q).head?,
      (own q).getLast?⟩ → t.packet q = ⟨0, none, none⟩ →
      (t.Ok ∧ t.abs = update (update s.abs q (some [])) p (some (b ++ c))) →
      Returns (notFree p >>= fun _ => notFree q) t fun _ t => t.Ok ∧
        t.abs = update (update s.abs q (some [])) p (some (b ++ c)) := by
    intro t htp htq hdone
    refine returns_notFree_bind ?_ (returns_notFree ?_ hdone)
    · rw [htp]
      exact Int.natCast_nonneg _
    · rw [htq]
  have hlastq : own q ≠ [] := by
    intro hnil
    rw [hnil, bytesOf_nil] at hbq
    rw [← hbq] at hlenq
    exact h0 hlenq
  rcases eq_nil_or_concat (own p) with hown | ⟨l, f, hown⟩
  · rw [hown, List.head?_nil] at hfirst
    rw [if_neg (by rw [hfirst]; simp), returns_modifyPacket_bind, returns_modifyPacket_bind,
      returns_modifyPacket_bind]
    generalize ht : Heap.setPacket _ q _ = t
    have htp : t.packet p = ⟨(b.length + c.length : ℕ), (own p ++ own q).head?,
        (own q).getLast?⟩ := by
      rw [← ht, hown, nil_append, ← hfirstq, ← hchainq.last]
      simp [update_of_ne hpq]
    have htq : t.packet q = ⟨0, none, none⟩ := by rw [← ht]; simp
    refine hend t htp htq (concat_of h hpq hp hq ?_ htp htq ?_ ?_ ?_ ?_ ?_ ?_ ?_)
    · rw [← ht]
      exact (((h.ok.setPacket p _).setPacket p _).setPacket p _).setPacket q _
    · intro r hrp hrq
      rw [← ht]
      simp [update_of_ne hrp, update_of_ne hrq]
    · rw [← ht]
      rfl
    · rw [← ht]
      rfl
    · rw [← ht, hown, nil_append, ← hfirstq]
      exact hchainq.linked
    · rw [hown, nil_append]
    · rw [← ht]
      exact fun _ _ => rfl
    · rw [← ht]
      exact fun _ => rfl
  · rw [concat_eq_append] at hown
    have hlast := hchainp.last
    rw [hown] at hfirst hlast
    have hlast' : (s.packet p).last = some f := by rw [hlast]; simp
    rw [if_pos (by rw [hfirst]; simp), hlast', returns_deref_bind, returns_modifyFrag_bind,
      returns_modifyPacket_bind, returns_modifyPacket_bind]
    generalize ht : Heap.setPacket _ q _ = t
    have hf : f ∈ own p := by
      rw [hown]
      simp
    have htp : t.packet p = ⟨(b.length + c.length : ℕ), (own p ++ own q).head?,
        (own q).getLast?⟩ := by
      rw [← ht, List.head?_append_of_ne_nil _ (by rw [hown]; simp), hown, ← hfirst, ← hchainq.last]
      simp [update_of_ne hpq]
    have htq : t.packet q = ⟨0, none, none⟩ := by rw [← ht]; simp
    have htfrag : ∀ g ≠ f, t.frag g = s.frag g := by
      intro g hg
      rw [← ht]
      simp [update_of_ne hg]
    refine hend t htp htq (concat_of h hpq hp hq ?_ htp htq ?_ ?_ ?_ ?_ ?_ ?_ ?_)
    · rw [← ht]
      exact (HeapOk.setPacket (HeapOk.setNext (h.ok.setPacket p _) _ (h.mem f hf))
        p _).setPacket q _
    · intro r hrp hrq
      rw [← ht]
      simp [update_of_ne hrp, update_of_ne hrq]
    · rw [← ht]
      rfl
    · rw [← ht]
      rfl
    · rw [linked_append]
      refine ⟨(own q).head?, ?_, ?_⟩
      · have hlinked := hchainp.linked
        have hnodup := hchainp.nodup
        rw [hown, linked_concat, hfirst] at hlinked
        rw [hown, nodup_append] at hnodup
        rw [hown, List.head?_append_of_ne_nil _ (by simp), linked_concat]
        refine ⟨hlinked.1.congr fun g hg => ?_, ?_⟩
        · rw [Heap.next, Heap.next, htfrag g (hnodup.2.2 g hg f mem_cons_self)]
        · rw [← ht, ← hfirstq]
          simp [Heap.next]
      · rw [← hfirstq]
        refine hchainq.linked.congr fun g hg => ?_
        rw [Heap.next, Heap.next, htfrag g]
        rintro rfl
        exact hpq (h.disjoint p q g hf hg)
    · rw [List.getLast?_append]
      cases hq' : own q with
      | nil => exact absurd hq' hlastq
      | cons g l' => rw [List.getLast?_cons]; rfl
    · intro g hg
      exact htfrag g fun heq => hg (heq ▸ hf)
    · intro g
      rw [← ht]
      rcases eq_or_ne g f with rfl | hgf
      · simp [Heap.fragBytes, Heap.fragSize]
      · exact fragBytes_setFrag_of_ne (s := s.setPacket p _) hgf

/-! ### `packetdup` -/

/-- Where the loop of `packetdup` stops: `new` are the duplicates it made, of the
fragments `l₃`, and `r` names the last duplicate and what it has too many. -/
structure Duplicated (s t : Heap) (held : Finset FragId) (a : Option FragId) (d : List FragId)
    (ff : FragId) (n : ℤ) (l₃ e new : List FragId) (r : FragId × ℤ) : Prop where
  ok : HeapOk t (held ∪ new.toFinset)
  split : e ++ [r.1] = d ++ ff :: new
  linked : Linked t.next a e (some r.1)
  new_not_mem : ∀ g ∈ new, g ∉ held
  nodup : (e ++ [r.1]).Nodup
  rest : r.2 = n - s.sizeOf l₃
  rest_le : r.2 ≤ 0
  rest_gt : 0 < r.2 + t.fragSize r.1
  packet : t.packet = s.packet
  npacket : t.npacket = s.npacket
  freePacket : t.freePacket = s.freePacket
  frag : ∀ g ∈ held, g ∉ d ++ [ff] → t.frag g = s.frag g
  bytes : ∀ g ∈ held, t.fragBytes g = s.fragBytes g
  new_bytes : t.bytesOf new = s.bytesOf l₃

theorem dupFrags_spec {s : Heap} {held : Finset FragId} {pp k : ℕ} {l₂ d : List FragId}
    {f ff : FragId} {n : ℤ} {a : Option FragId} (h : HeapOk s held) (hp : pp < s.npacket)
    (hrest : Linked s.next (s.next f) l₂ none) (hl₂ : ∀ g ∈ l₂, g ∈ held)
    (hd : Linked s.next a d (some ff)) (hdnodup : (d ++ [ff]).Nodup)
    (hdl : ∀ g ∈ d ++ [ff], g ∈ held) (hcross : ∀ g ∈ l₂, g ∉ d ++ [ff])
    (hle : n ≤ s.sizeOf l₂) (hpos : 0 < n + s.fragSize ff) (hk : l₂.length < k) :
    Returns (dupFrags pp k f ff n) s fun r t => ∃ l₃ l₄ e new, l₂ = l₃ ++ l₄ ∧
      Duplicated s t held a d ff n l₃ e new r := by
  induction k generalizing s held l₂ d f ff n with
  | zero => exact absurd hk (Nat.not_lt_zero _)
  | succ k ih =>
    rw [dupFrags]
    by_cases hn : n > 0
    · rw [if_pos hn, returns_get_bind]
      cases l₂ with
      | nil =>
        rw [sizeOf_nil] at hle
        omega
      | cons f₁ l₂ =>
        obtain ⟨hnext, hrest⟩ := hrest
        have hf₁ := hl₂ f₁ mem_cons_self
        have hf₁d := hcross f₁ mem_cons_self
        have hff : ff ∈ held := hdl ff (by simp)
        rw [hnext, returns_deref_bind]
        refine (fragdup_spec h hp hf₁).bind ?_
        rintro gg u ⟨⟨huok, hgg, hframe⟩, humem, hurp, huwp, hunext, hubytes⟩
        rw [returns_modifyFrag_bind, returns_get_bind]
        have hgff : gg ≠ ff := fun heq => hgg (heq ▸ hff)
        let v : Heap := u.setFrag ff { u.frag ff with next := some gg }
        have hvfrag : ∀ g ≠ ff, v.frag g = u.frag g := by
          intro g hg
          simp only [v, Heap.setFrag_frag, update_of_ne hg]
        have hvbytes : ∀ g, v.fragBytes g = u.fragBytes g := by
          intro g
          rcases eq_or_ne g ff with rfl | hg
          · simp [v, Heap.fragBytes, Heap.fragSize]
          · exact fragBytes_setFrag_of_ne hg
        have hvold : ∀ g ∈ held, g ≠ ff → v.frag g = s.frag g := fun g hg hgf =>
          (hvfrag g hgf).trans (hframe.frag g hg)
        have hneld : ∀ g ∈ f₁ :: l₂, g ≠ ff := fun g hg heq =>
          hcross g hg (by rw [heq]; simp)
        have hvsize : v.fragSize gg = s.fragSize f₁ := by
          rw [Heap.fragSize, hvfrag gg hgff, hurp, huwp, Heap.fragSize]
        have hsizes : ∀ l ⊆ f₁ :: l₂, v.sizeOf l = s.sizeOf l := fun l hsub =>
          sizeOf_congr fun g hg => hvold g (hl₂ g (hsub hg)) (hneld g (hsub hg))
        have hsub : l₂ ⊆ f₁ :: l₂ := subset_cons_self f₁ l₂
        rw [sizeOf_cons] at hle
        have hih := @ih v (insert gg held) l₂ (d ++ [ff]) f₁ gg (n - v.fragSize gg)
          (huok.setNext (some gg) (Finset.mem_insert_of_mem hff))
          (by change pp < u.npacket; rw [hframe.npacket]; exact hp)
          (by
            rw [Heap.next, hvold f₁ hf₁ (hneld f₁ mem_cons_self)]
            exact hrest.congr fun g hg => by
              rw [Heap.next, hvold g (hl₂ g (hsub hg)) (hneld g (hsub hg)), Heap.next])
          (fun g hg => Finset.mem_insert_of_mem (hl₂ g (hsub hg)))
          (by
            rw [linked_concat]
            refine ⟨hd.congr fun g hg => ?_, by simp [v, Heap.next]⟩
            rw [nodup_append] at hdnodup
            rw [Heap.next, hvold g (hdl g (mem_append_left _ hg))
              (hdnodup.2.2 g hg ff mem_cons_self), Heap.next])
          (by
            rw [nodup_append]
            refine ⟨hdnodup, nodup_singleton gg, ?_⟩
            rintro g hg _ hg' rfl
            rw [mem_singleton.1 hg'] at hg
            exact hgg (hdl gg hg))
          (by
            intro g hg
            rcases mem_append.1 hg with hg | hg
            · exact Finset.mem_insert_of_mem (hdl g hg)
            · rw [mem_singleton.1 hg]
              exact Finset.mem_insert_self gg held)
          (by
            intro g hg hin
            rcases mem_append.1 hin with hin | hin
            · exact hcross g (hsub hg) hin
            · rw [mem_singleton.1 hin] at hg
              exact hgg (hl₂ gg (hsub hg)))
          (by rw [hsizes l₂ hsub, hvsize]; omega) (by rw [hvsize]; omega)
          (Nat.lt_of_succ_lt_succ hk)
        refine hih.mono ?_
        rintro r t ⟨l₃, l₄, e, new, rfl, hdup⟩
        have hl₃ : l₃ ⊆ f₁ :: (l₃ ++ l₄) := fun g hg =>
          mem_cons_of_mem f₁ (mem_append_left _ hg)
        refine ⟨f₁ :: l₃, l₄, e, gg :: new, rfl, ?_, ?_, hdup.linked, ?_, hdup.nodup, ?_,
          hdup.rest_le, hdup.rest_gt, hdup.packet.trans hframe.packet,
          hdup.npacket.trans hframe.npacket, hdup.freePacket.trans hframe.freePacket, ?_, ?_, ?_⟩
        · rw [toFinset_cons, Finset.union_insert, ← Finset.insert_union]
          exact hdup.ok
        · rw [hdup.split]
          simp
        · intro g hg
          rcases mem_cons.1 hg with rfl | hg
          · exact hgg
          · exact fun hin => hdup.new_not_mem g hg (Finset.mem_insert_of_mem hin)
        · rw [hdup.rest, hvsize, hsizes l₃ hl₃, sizeOf_cons]
          push_cast
          omega
        · intro g hg hgd
          have hgff' : g ≠ ff := fun heq => hgd (by rw [heq]; simp)
          rw [hdup.frag g (Finset.mem_insert_of_mem hg), hvold g hg hgff']
          intro hin
          rcases mem_append.1 hin with hin | hin
          · exact hgd hin
          · rw [mem_singleton.1 hin] at hg
            exact hgg hg
        · intro g hg
          rw [hdup.bytes g (Finset.mem_insert_of_mem hg), hvbytes, hframe.bytes g hg]
        · rw [bytesOf_cons, bytesOf_cons, hdup.new_bytes,
            hdup.bytes gg (Finset.mem_insert_self gg held), hvbytes, hubytes]
          congr 1
          refine bytesOf_congr fun g hg => ?_
          rw [hvbytes, hframe.bytes g (hl₂ g (hl₃ hg))]
    · rw [if_neg hn, returns_pure]
      refine ⟨[], l₂, d, [], rfl, ?_, rfl, hd, fun g hg => absurd hg not_mem_nil, hdnodup,
        by simp, not_lt.1 hn, hpos, rfl, rfl, rfl, fun _ _ _ => rfl, fun _ _ => rfl, rfl⟩
      simpa using h

/-- The first duplicate of `packetdup`, of what stands in `f` behind `o` bytes. -/
structure FirstDup (s v : Heap) (held : Finset FragId) (pp : ℕ) (f ff : FragId) (o : ℕ) :
    Prop where
  ok : HeapOk v (insert ff held)
  not_mem : ff ∉ held
  packet_self : v.packet pp = { s.packet pp with first := some ff }
  packet : ∀ q ≠ pp, v.packet q = s.packet q
  npacket : v.npacket = s.npacket
  freePacket : v.freePacket = s.freePacket
  frag : ∀ g ∈ held, v.frag g = s.frag g
  bytes : ∀ g ∈ held, v.fragBytes g = s.fragBytes g
  size_self : v.fragSize ff = s.fragSize f - o
  bytes_self : v.fragBytes ff = (s.fragBytes f).drop o

theorem returns_firstDup {s : Heap} {held : Finset FragId} {pp o : ℕ} {f : FragId} {α : Type}
    {k : FragId → PacketM α} {Q : α → Heap → Prop} (h : HeapOk s held) (hp : pp < s.npacket)
    (hf : f ∈ held) (ho : o < s.fragSize f)
    (hk : ∀ ff v, FirstDup s v held pp f ff o → Returns (k ff) v Q) :
    Returns (fragdup pp f >>= fun ff =>
      modifyFrag ff (fun g => { g with rp := (g.rp + (o : ℤ)).toNat }) >>= fun _ =>
      modifyPacket pp (fun q => { q with first := some ff }) >>= fun _ => k ff) s Q := by
  refine (fragdup_spec h hp hf).bind ?_
  rintro ff u ⟨⟨huok, hff, hframe⟩, humem, hurp, huwp, hunext, hubytes⟩
  obtain ⟨m, hm, hfm, hrw, hwp⟩ := huok.inMem ff (Finset.mem_insert_self ff held)
  rw [Heap.fragSize, ← hurp, ← huwp] at ho
  have hcast : ((u.frag ff).rp + (o : ℤ)).toNat = (u.frag ff).rp + o := by omega
  rw [returns_modifyFrag_bind, hcast, returns_modifyPacket_bind]
  generalize hv : Heap.setPacket _ pp _ = v
  have hvff : v.frag ff = { u.frag ff with rp := (u.frag ff).rp + o } := by
    rw [← hv]
    simp
  have hne : ∀ g ∈ held, g ≠ ff := fun g hg heq => hff (heq ▸ hg)
  refine hk ff v ⟨?_, hff, ?_, fun q hq => ?_, ?_, ?_, fun g hg => ?_, fun g hg => ?_, ?_, ?_⟩
  · rw [← hv]
    refine (huok.setRange (Finset.mem_insert_self ff held) (by rfl) (by rfl) ?_
      fun m' hm' => ?_).setPacket pp _
    · simp only
      omega
    · obtain rfl : m = m' := Option.some.inj (hfm.symm.trans hm')
      exact hwp
  · rw [← hv]
    simp [hframe.packet]
  · rw [← hv]
    simp [update_of_ne hq, hframe.packet]
  · rw [← hv]
    exact hframe.npacket
  · rw [← hv]
    exact hframe.freePacket
  · rw [← hv]
    simp only [Heap.setPacket_frag, Heap.setFrag_frag, update_of_ne (hne g hg)]
    exact hframe.frag g hg
  · rw [← hv]
    exact (fragBytes_setFrag_of_ne (hne g hg)).trans (hframe.bytes g hg)
  · rw [Heap.fragSize, hvff, Heap.fragSize, ← hurp, ← huwp]
    simp only
    omega
  · have hvmem : v.mem = u.mem := by
      rw [← hv]
      rfl
    rw [← hubytes, fragBytes_eq hfm, Mem.drop_read,
      fragBytes_eq (s := v) (m := m) (by rw [hvff]; exact hfm), hvff, hvmem]
    simp only
    congr 1
    omega

variable {pp : ℕ}

/-- The last duplicate is cut where the slice ends. -/
theorem Duplicated.cut {v w : Heap} {o : ℕ} {f ff gg : FragId} {n n' : ℤ} {l₃ e new : List FragId}
    (hfirst : FirstDup s v held pp f ff o)
    (h : Duplicated v w (insert ff held) (some ff) [] ff n l₃ e new (gg, n'))
    (hl₃ : ∀ g ∈ l₃, g ∈ held) :
    Reworked s ((w.setFrag gg
        { w.frag gg with wp := ((w.frag gg).wp + n').toNat, next := none }).setPacket pp
        { w.packet pp with last := some gg }) pp held []
        (insert ff held ∪ new.toFinset) (e ++ [gg]) ∧
      ((w.setFrag gg
        { w.frag gg with wp := ((w.frag gg).wp + n').toNat, next := none }).setPacket pp
        { w.packet pp with last := some gg }).bytesOf (e ++ [gg]) =
          ((s.fragBytes f).drop o ++ s.bytesOf l₃).take (n + v.fragSize ff).toNat := by
  have hsplit : e ++ [gg] = ff :: new := h.split
  have hle : ∀ g ∈ e ++ [gg], g ∈ insert ff held ∪ new.toFinset := by
    intro g hg
    rw [hsplit] at hg
    rcases mem_cons.1 hg with rfl | hg
    · exact Finset.mem_union_left _ (Finset.mem_insert_self g held)
    · exact Finset.mem_union_right _ (mem_toFinset.2 hg)
  have hggin := hle gg (by simp)
  obtain ⟨M, -, hggm, hgglt, hggle⟩ := h.ok.inMem gg hggin
  have hnot : ∀ g ∈ e ++ [gg], g ∉ held := by
    intro g hg hin
    rw [hsplit] at hg
    rcases mem_cons.1 hg with rfl | hg
    · exact hfirst.not_mem hin
    · exact h.new_not_mem g hg (Finset.mem_insert_of_mem hin)
  have hggne : ∀ g ∈ held, g ≠ gg := fun g hg heq => hnot gg (by simp) (heq ▸ hg)
  have hene : ∀ g ∈ e, g ≠ gg := by
    have hnodup := h.nodup
    rw [nodup_append] at hnodup
    exact fun g hg => hnodup.2.2 g hg gg mem_cons_self
  have hrest_le : n' ≤ 0 := h.rest_le
  have hrest_gt : 0 < n' + w.fragSize gg := h.rest_gt
  have hrest : n' = n - v.sizeOf l₃ := h.rest
  have hsizegg : w.fragSize gg = (w.frag gg).wp - (w.frag gg).rp := rfl
  generalize hx : Heap.setPacket _ pp _ = x
  have hxgg : x.frag gg = { w.frag gg with wp := ((w.frag gg).wp + n').toNat, next := none } := by
    rw [← hx]
    simp
  have hxfrag : ∀ g ≠ gg, x.frag g = w.frag g := by
    intro g hg
    rw [← hx]
    simp [update_of_ne hg]
  have hxbytes : ∀ g ≠ gg, x.fragBytes g = w.fragBytes g := by
    intro g hg
    rw [← hx]
    exact fragBytes_setFrag_of_ne hg
  have hxpp : x.packet pp = ⟨(s.packet pp).size, some ff, some gg⟩ := by
    rw [← hx, Heap.setPacket_packet, update_self, h.packet, hfirst.packet_self]
  refine ⟨⟨?_, fun g => ?_, fun g hg => .inr (hnot g hg), ⟨?_, ?_, h.nodup⟩, ?_, ?_, ?_, ?_,
    ?_, ?_⟩, ?_⟩
  · rw [← hx]
    refine (h.ok.setRange hggin (by rfl) (by rfl) ?_ fun m' hm' => ?_).setPacket pp _
    · simp only
      omega
    · obtain rfl : M = m' := Option.some.inj (hggm.symm.trans hm')
      simp only
      omega
  · rw [hsplit, Finset.mem_union, Finset.mem_insert, mem_toFinset, mem_cons]
    simp only [not_mem_nil, not_false_eq_true, and_true]
    tauto
  · rw [hxpp, linked_concat]
    refine ⟨h.linked.congr fun g hg => ?_, by rw [Heap.next, hxgg]⟩
    rw [Heap.next, Heap.next, hxfrag g (hene g hg)]
  · rw [hxpp]
    simp
  · intro q hq
    rw [← hx, Heap.setPacket_packet, update_of_ne hq, Heap.setFrag_packet, h.packet,
      hfirst.packet q hq]
  · rw [hxpp]
  · rw [← hx]
    exact h.npacket.trans hfirst.npacket
  · rw [← hx]
    exact h.freePacket.trans hfirst.freePacket
  · intro g hg
    rw [toFinset_nil, Finset.sdiff_empty] at hg
    rw [hxfrag g (hggne g hg), h.frag g (Finset.mem_insert_of_mem hg), hfirst.frag g hg]
    rw [nil_append, mem_singleton]
    exact fun heq => hfirst.not_mem (heq ▸ hg)
  · intro g hg
    rw [toFinset_nil, Finset.sdiff_empty] at hg
    rw [hxbytes g (hggne g hg), h.bytes g (Finset.mem_insert_of_mem hg), hfirst.bytes g hg]
  · -- the duplicates have the bytes from the offset on
    have hwbytes : w.bytesOf (e ++ [gg]) = (s.fragBytes f).drop o ++ s.bytesOf l₃ := by
      rw [hsplit, bytesOf_cons, h.bytes ff (Finset.mem_insert_self ff held), hfirst.bytes_self,
        h.new_bytes, bytesOf_congr fun g hg => hfirst.bytes g (hl₃ g hg)]
    have hxmem : x.mem = w.mem := by
      rw [← hx]
      rfl
    have hshort : x.fragBytes gg = (w.fragBytes gg).take (w.fragSize gg + n').toNat := by
      rw [fragBytes_eq hggm, Mem.take_read _ (by omega),
        fragBytes_eq (s := x) (m := M) (by rw [hxgg]; exact hggm), hxgg, hxmem]
      simp only
      congr 1
      omega
    have hlene := h.ok.length_bytesOf fun g hg => hle g (mem_append_left _ hg)
    have hlengg := h.ok.length_fragBytes hggin
    have hlenv := hfirst.ok.length_bytesOf
      fun g hg => Finset.mem_insert_of_mem (hl₃ g hg)
    have hlenff := hfirst.ok.length_fragBytes (Finset.mem_insert_self ff held)
    have htotal := congrArg List.length hwbytes
    rw [bytesOf_append, bytesOf_cons, bytesOf_nil, append_nil, length_append,
      length_append, ← hfirst.bytes_self, hlenff,
      ← bytesOf_congr fun g hg => hfirst.bytes g (hl₃ g hg), hlenv] at htotal
    rw [← hwbytes, bytesOf_append, bytesOf_append, bytesOf_cons, bytesOf_nil, append_nil,
      bytesOf_cons, bytesOf_nil, append_nil, take_append, hlene, hshort,
      take_of_length_le (l := w.bytesOf e) (by omega),
      bytesOf_congr fun g hg => hxbytes g (hene g hg)]
    congr 2
    omega

/-- **`packetdup`** makes a packet of the slice of another one, which stays as it is. -/
theorem packetdup_spec {offset n : ℤ} (h : s.Ok) (hp : s.abs p = some b)
    (hint : 0 ≤ offset → 0 ≤ n → offset + n < 2 ^ 31) :
    Returns (packetdup p offset n) s fun r t => t.Ok ∧ match ByteString.dup b offset n with
      | .ok b' => ∃ pp, r = .ok pp ∧ s.abs pp = none ∧ t.abs = update s.abs pp (some b')
      | .error e => r = .error e ∧ t.abs = s.abs := by
  obtain ⟨own, held, h⟩ := h
  obtain ⟨hsize, hbytes, hb⟩ := h.of_abs hp
  rw [packetdup]
  refine returns_notFree_bind hsize ?_
  rw [returns_get_bind, ByteString.dup]
  have hcond : (offset < 0 ∨ n < 0 ∨ wrapInt (offset + n) > (s.packet p).size) ↔
      (offset < 0 ∨ n < 0 ∨ (b.length : ℤ) < offset + n) := by
    rw [hb]
    by_cases h0 : 0 ≤ offset ∧ 0 ≤ n
    · rw [wrapInt_of_lt (by omega) (hint h0.1 h0.2)]
    · constructor
      · intro _
        omega
      · intro _
        omega
  by_cases hbad : offset < 0 ∨ n < 0 ∨ (b.length : ℤ) < offset + n
  · rw [if_pos (hcond.2 hbad), if_pos hbad, returns_pure]
    exact ⟨⟨own, held, h⟩, rfl, rfl⟩
  rw [if_neg (hcond.not.2 hbad), if_neg hbad]
  refine (packetalloc_new h).bind ?_
  intro pp t hnew
  have hppne : pp ≠ p := by
    rintro rfl
    rw [hnew.abs_none] at hp
    exact absurd hp (by simp)
  have hppsize : 0 ≤ (t.packet pp).size := by rw [hnew.packet_self]
  by_cases hn : n = 0
  · rw [if_pos hn]
    refine returns_notFree_bind hppsize ?_
    rw [returns_pure]
    have hslice : ByteString.slice b offset n = [] := by
      rw [hn]
      simp [ByteString.slice]
    exact ⟨⟨_, _, hnew.ok⟩, pp, rfl, hnew.abs_none, by rw [hslice]; exact hnew.abs_eq⟩
  rw [if_neg hn, returns_modifyPacket_bind, returns_get_bind]
  -- the new packet with its size; the fragments of the old one are where they were
  have hok₁ := hnew.ok.ok.setPacket pp { t.packet pp with size := n }
  have hpt : t.packet p = s.packet p := hnew.packet p hppne.symm
  have hsizet : 0 ≤ (t.packet p).size := by rw [hpt]; exact hsize
  have hlt := hnew.ok.length_lt hsizet
  have hlinked := (hnew.ok.chain p hsizet).linked
  have hbytest : t.bytesOf (own p) = b := by
    rw [← hbytes]
    refine bytesOf_congr fun g _ => ?_
    simp only [Heap.fragBytes, Heap.fragSize, hnew.frag, hnew.mem]
  have hlen := hnew.ok.ok.length_bytesOf (hnew.ok.mem (p := p))
  rw [hbytest] at hlen
  have hpp := hnew.ok.alloc pp hppsize
  have hmem := hnew.ok.mem (p := p)
  have hfirst₁ : ((t.setPacket pp { t.packet pp with size := n }).packet p).first =
      (t.packet p).first := by simp [update_of_ne hppne.symm]
  rw [hfirst₁]
  change Returns (skipFrags t.count _ offset >>= _) _ _
  have hlinked₁ : Linked (t.setPacket pp { t.packet pp with size := n }).next (t.packet p).first
    (own p) none := hlinked
  have hbytes₁ : (t.setPacket pp { t.packet pp with size := n }).bytesOf (own p) = b := hbytest
  have hsizes₁ : ∀ l, (t.setPacket pp { t.packet pp with size := n }).sizeOf l = t.sizeOf l :=
    fun _ => rfl
  have hsize₁ : ((t.setPacket pp { t.packet pp with size := n }).packet pp).size = n := by simp
  have hfinish : ∀ {x : Heap} {held' : Finset FragId} {l' : List FragId},
      Reworked (t.setPacket pp { t.packet pp with size := n }) x pp held (own pp) held' l' →
      x.bytesOf l' = ByteString.slice b offset n →
      0 ≤ (x.packet pp).size ∧ x.Ok ∧
        x.abs = update s.abs pp (some (ByteString.slice b offset n)) := by
    intro x held' l' hwork hbytes'
    have hslice : n = (ByteString.slice b offset n).length := by
      rw [ByteString.slice, length_take, length_drop]
      omega
    obtain ⟨hok, habs, -⟩ := hnew.ok.replace hppsize hwork hbytes' hslice
    refine ⟨?_, hok, ?_⟩
    · rw [hwork.frame.size, hsize₁]
      omega
    · rw [habs, hnew.abs_eq, update_idem]
  have hpsize₁ : ((t.setPacket pp { t.packet pp with size := n }).packet p).size =
      (s.packet p).size := by simp [update_of_ne hppne.symm, hpt]
  have hnpacket₁ : pp < (t.setPacket pp { t.packet pp with size := n }).npacket := hpp
  have hcount₁ : (t.setPacket pp { t.packet pp with size := n }).count = t.count := rfl
  rw [hnew.own_nil] at hfinish
  generalize t.setPacket pp { t.packet pp with size := n } = s₁ at *
  refine (skipFrags_spec hlinked₁ (by omega) (by rw [hsizes₁]; omega) hlt.le).bind ?_
  rintro ⟨f, o⟩ s₁' ⟨rfl, l₁, f', l₂, hsplit, heq, hle, hltf⟩
  obtain ⟨rfl, ho⟩ := Prod.mk.inj heq
  obtain ⟨o', rfl⟩ := Int.eq_ofNat_of_zero_le (show 0 ≤ o by omega)
  rw [hsplit] at hmem hlinked₁ hbytes₁ hlen hlt
  have hf : f ∈ held := hmem f (by simp)
  simp only
  refine returns_firstDup hok₁ hnpacket₁ hf (by omega) ?_
  intro ff v hfd
  rw [returns_get_bind]
  have hl₂ : ∀ g ∈ l₂, g ∈ held := fun g hg => hmem g (by simp [hg])
  have hsize₂ : v.sizeOf l₂ = s₁'.sizeOf l₂ := sizeOf_congr fun g hg => hfd.frag g (hl₂ g hg)
  have hsizeff := hfd.size_self
  have hsum : s₁'.sizeOf l₁ + (s₁'.fragSize f + s₁'.sizeOf l₂) = b.length := by
    rw [← sizeOf_cons, ← sizeOf_append, hsizes₁]
    exact hlen.symm
  have hrest : Linked v.next (v.next f) l₂ none := by
    rw [Heap.next, hfd.frag f hf]
    exact (hlinked₁.suffix rfl).2.congr fun g hg => by rw [Heap.next, hfd.frag g (hl₂ g hg),
      Heap.next]
  have hcount : l₂.length < s₁'.count := by
    rw [length_append, length_cons] at hlt
    omega
  refine (dupFrags_spec (d := []) (a := some ff) hfd.ok (by rw [hfd.npacket]; exact hnpacket₁)
    hrest (fun g hg => Finset.mem_insert_of_mem (hl₂ g hg)) rfl (by simp) (by simp)
    (fun g hg hin => by
      rw [nil_append, mem_singleton] at hin
      exact hfd.not_mem (hin ▸ hl₂ g hg))
    (by rw [hsize₂]; omega) (by omega) hcount).bind ?_
  rintro ⟨gg, n'⟩ w ⟨l₃, l₄, e, new, rfl, hdup⟩
  obtain ⟨hwork, hcut⟩ := hdup.cut hfd fun g hg => hl₂ g (mem_append_left _ hg)
  simp only
  rw [returns_modifyFrag_bind, returns_modifyPacket_bind]
  have hslice : ((s₁'.fragBytes f).drop o' ++ s₁'.bytesOf l₃).take
      (n - v.fragSize ff + v.fragSize ff).toNat = ByteString.slice b offset n := by
    have hoffset : offset.toNat = s₁'.sizeOf l₁ + o' := by omega
    have hrest_le : n' ≤ 0 := hdup.rest_le
    have hrest_eq : n' = n - v.fragSize ff - v.sizeOf l₃ := hdup.rest
    have hsize₃ : v.sizeOf l₃ = s₁'.sizeOf l₃ :=
      sizeOf_congr fun g hg => hfd.frag g (hl₂ g (mem_append_left _ hg))
    have hlenf := hok₁.length_fragBytes hf
    have hlen₃ := hok₁.length_bytesOf fun g hg => hl₂ g (mem_append_left l₄ hg)
    rw [ByteString.slice, ← hbytes₁, drop_bytesOf hok₁ hmem (by omega) (by omega), hoffset,
      Nat.add_sub_cancel_left, bytesOf_append, ← append_assoc, sub_add_cancel]
    refine (take_append_of_le_length ?_).symm
    rw [length_append, length_drop]
    omega
  obtain ⟨hlive, hok, habs⟩ := hfinish hwork (hcut.trans hslice)
  refine returns_notFree_bind hlive (returns_notFree_bind ?_ ?_)
  · rw [Heap.setPacket_packet, update_of_ne hppne.symm, Heap.setFrag_packet, hdup.packet,
      hfd.packet p hppne.symm, hpsize₁]
    exact hsize
  · rw [returns_pure]
    exact ⟨hok, pp, rfl, hnew.abs_none, habs⟩

/-! ### `packetsplit` -/

variable {n k : ℕ}

/-- Where the loop of `packetsplit` stops: behind the fragments of `l₁`, or inside the next
one. -/
theorem splitFrags_spec {l : List FragId} {a ff : Option FragId} {n : ℤ} (h : HeapOk s held)
    (hl : ∀ g ∈ l, g ∈ held) (hchain : Linked s.next a l none) (hn : 0 ≤ n) (hle : n ≤ s.sizeOf l)
    (hk : l.length < k) :
    Returns (splitFrags k ff a n) s fun r t => t = s ∧ ∃ l₁ l₂, l = l₁ ++ l₂ ∧
      r = (l₁.getLast?.or ff, l₂.head?, n - s.sizeOf l₁) ∧ 0 ≤ n - s.sizeOf l₁ ∧
      (0 < n - s.sizeOf l₁ → ∃ g l₃, l₂ = g :: l₃ ∧ n - s.sizeOf l₁ < s.fragSize g) := by
  induction l generalizing a ff n k with
  | nil =>
    rw [sizeOf_nil] at hle
    obtain rfl : n = 0 := by omega
    obtain rfl : a = none := hchain
    cases k with
    | zero => exact absurd hk (Nat.not_lt_zero _)
    | succ k =>
      rw [splitFrags, if_neg (lt_irrefl _), returns_pure]
      exact ⟨rfl, [], [], rfl, rfl, le_rfl, fun hlt => absurd hlt (lt_irrefl _)⟩
  | cons f l ih =>
    obtain ⟨rfl, hchain⟩ := hchain
    cases k with
    | zero => exact absurd hk (Nat.not_lt_zero _)
    | succ k =>
      rw [splitFrags]
      by_cases hpos : n > 0
      · rw [if_pos hpos, returns_deref_bind, returns_get_bind]
        by_cases hge : n ≥ s.fragSize f
        · rw [if_pos hge]
          rw [sizeOf_cons] at hle
          refine (ih (fun g hg => hl g (mem_cons_of_mem f hg)) hchain
            (by omega) (by omega) (Nat.lt_of_succ_lt_succ hk)).mono ?_
          rintro r t ⟨rfl, l₁, l₂, rfl, rfl, hnn, hin⟩
          have hsub : n - (t.fragSize f : ℤ) - t.sizeOf l₁ = n - t.sizeOf (f :: l₁) := by
            rw [sizeOf_cons]
            push_cast
            omega
          rw [hsub] at hnn hin ⊢
          refine ⟨rfl, f :: l₁, l₂, rfl, ?_, hnn, hin⟩
          rw [List.getLast?_cons]
          cases l₁.getLast? <;> rfl
        · rw [if_neg hge, returns_pure]
          refine ⟨rfl, [], f :: l, rfl, by simp, by simpa using hn, fun _ => ⟨f, l, rfl, ?_⟩⟩
          rw [sizeOf_nil]
          omega
      · rw [if_neg hpos, returns_pure]
        obtain rfl : n = 0 := by omega
        exact ⟨rfl, [], f :: l, rfl, by simp, by simp, fun hlt => absurd hlt (by simp)⟩

/-- A chain `l` in two parts: `x` and `g` have its first `n` bytes, and `k` the others. -/
structure Cut (s u : Heap) (held held' : Finset FragId) (p : ℕ) (l x : List FragId) (g : FragId)
    (k : List FragId) (n : ℕ) : Prop where
  ok : HeapOk u held'
  held_iff : ∀ f, f ∈ held' ↔ f ∈ (x ++ [g]) ++ k ∨ f ∈ held ∧ f ∉ l
  new : ∀ f ∈ (x ++ [g]) ++ k, f ∈ l ∨ f ∉ held
  nodup : ((x ++ [g]) ++ k).Nodup
  front : Linked u.next (s.packet p).first x (some g)
  back : Linked u.next k.head? k none
  last : ∀ d k', k = d :: k' → k' ≠ [] → (s.packet p).last = k.getLast?
  frame : Frame s u (held \ l.toFinset)
  bytes_front : u.bytesOf (x ++ [g]) = (s.bytesOf l).take n
  bytes_back : u.bytesOf k = (s.bytesOf l).drop n

variable {g : FragId}

/-- Between two fragments nothing is to do. -/
theorem cut_between {x : List FragId} (h : HeapOk s held) (hchain : IsChain s p ((x ++ [g]) ++ l₂))
    (hl : ∀ f ∈ (x ++ [g]) ++ l₂, f ∈ held) :
    Cut s s held held p ((x ++ [g]) ++ l₂) x g l₂ (s.sizeOf (x ++ [g])) := by
  have hlen := h.length_bytesOf fun f hf => hl f (mem_append_left l₂ hf)
  obtain ⟨c, hfront, hback⟩ := linked_append.1 hchain.linked
  obtain ⟨hfront, -⟩ := linked_concat.1 hfront
  refine ⟨h, (Reworked.refl h hchain hl).held_iff, fun f hf => .inl hf, hchain.nodup, hfront,
    ?_, ?_, Frame.refl s _, ?_, ?_⟩
  · rw [← hback.head_eq]
    exact hback
  · rintro d k' rfl -
    rw [hchain.last, List.getLast?_append, List.getLast?_cons]
    rfl
  · rw [← hlen, bytesOf_append (l := x ++ [g]), take_left]
  · rw [← hlen, bytesOf_append (l := x ++ [g]), drop_left]

/-- Inside a fragment, its duplicate is for the rest. -/
theorem returns_cutInside {l₁ : List FragId} {α : Type} {k : FragId → PacketM α}
    {Q : α → Heap → Prop} (h : HeapOk s held) (hp : p < s.npacket)
    (hchain : IsChain s p (l₁ ++ g :: l₂)) (hl : ∀ f ∈ l₁ ++ g :: l₂, f ∈ held) (hpos : 0 < n)
    (hlt : n < s.fragSize g)
    (hk : ∀ d u held', Cut s u held held' p (l₁ ++ g :: l₂) l₁ g (d :: l₂) (s.sizeOf l₁ + n) →
      Returns (k d) u Q) :
    Returns (fragdup p g >>= fun d =>
      modifyFrag g (fun h => { h with wp := (h.rp + (n : ℤ)).toNat }) >>= fun _ =>
      modifyFrag d (fun h => { h with rp := (h.rp + (n : ℤ)).toNat }) >>= fun _ => k d) s Q := by
  have hg : g ∈ held := hl g (by simp)
  have hnodup := hchain.nodup
  rw [nodup_append, nodup_cons] at hnodup
  obtain ⟨-, ⟨hgl₂, -⟩, hcross⟩ := hnodup
  refine (fragdup_spec h hp hg).bind ?_
  rintro d u ⟨⟨huok, hd, hframe⟩, humem, hurp, huwp, hunext, hubytes⟩
  have hdg : d ≠ g := fun heq => hd (heq ▸ hg)
  have hgin : g ∈ insert d held := Finset.mem_insert_of_mem hg
  obtain ⟨m, hm, hgm, hrw, hwp⟩ := huok.inMem g hgin
  have hdm : (u.frag d).mem = some m := by rw [humem, ← hframe.frag g hg, hgm]
  rw [Heap.fragSize, ← hurp, ← huwp] at hlt
  rw [← hframe.frag g hg] at hurp huwp
  have hcast : ((u.frag g).rp + (n : ℤ)).toNat = (u.frag g).rp + n := by omega
  have hcast' : ((u.frag d).rp + (n : ℤ)).toNat = (u.frag d).rp + n := by omega
  rw [returns_modifyFrag_bind, hcast, returns_modifyFrag_bind, Heap.setFrag_frag,
    update_of_ne hdg, hcast']
  generalize hv : Heap.setFrag _ d _ = v
  have hvd : v.frag d = { u.frag d with rp := (u.frag d).rp + n } := by
    rw [← hv]
    simp
  have hvg : v.frag g = { u.frag g with wp := (u.frag g).rp + n } := by
    rw [← hv]
    simp [update_of_ne hdg.symm]
  have hvfrag : ∀ f, f ≠ g → f ≠ d → v.frag f = u.frag f := by
    intro f hfg hfd
    rw [← hv]
    simp [update_of_ne hfg, update_of_ne hfd]
  have hvbytes : ∀ f, f ≠ g → f ≠ d → v.fragBytes f = u.fragBytes f := by
    intro f hfg hfd
    rw [← hv]
    exact (fragBytes_setFrag_of_ne hfd).trans (fragBytes_setFrag_of_ne hfg)
  have hvmem : v.mem = u.mem := by
    rw [← hv]
    rfl
  have hperm : ((l₁ ++ [g]) ++ d :: l₂).Perm (d :: (l₁ ++ g :: l₂)) := by
    rw [append_cons l₁ g l₂]
    exact perm_middle
  have hdl : ∀ f ∈ l₁ ++ g :: l₂, f ≠ d := fun f hf heq => hd (heq ▸ hl f hf)
  have hgl₁ : ∀ f ∈ l₁, f ≠ g := fun f hf => hcross f hf g mem_cons_self
  have hl₂g : ∀ f ∈ l₂, f ≠ g := fun f hf heq => hgl₂ (heq ▸ hf)
  have hin₁ : ∀ f ∈ l₁, f ∈ l₁ ++ g :: l₂ := fun f hf => mem_append_left _ hf
  have hin₂ : ∀ f ∈ l₂, f ∈ l₁ ++ g :: l₂ := fun f hf =>
    mem_append_right _ (mem_cons_of_mem g hf)
  have hvold : ∀ f ∈ l₁ ++ g :: l₂, f ≠ g → v.next f = s.next f := fun f hf hfg => by
    rw [Heap.next, hvfrag f hfg (hdl f hf), hframe.frag f (hl f hf), Heap.next]
  have hvoldbytes : ∀ f ∈ l₁ ++ g :: l₂, f ≠ g → v.fragBytes f = s.fragBytes f :=
    fun f hf hfg => (hvbytes f hfg (hdl f hf)).trans (hframe.bytes f (hl f hf))
  obtain ⟨c, hfront, rfl, hback⟩ := linked_append.1 hchain.linked
  have hgsize : s.fragSize g = (u.frag g).wp - (u.frag g).rp := by
    rw [Heap.fragSize, ← hframe.frag g hg]
  have hgbytes := h.length_fragBytes hg
  have hlen₁ := h.length_bytesOf fun f hf => hl f (hin₁ f hf)
  refine hk d v (insert d held) ⟨?_, fun f => ?_, fun f hf => ?_, ?_, ?_, ?_, ?_, ?_, ?_, ?_⟩
  · rw [← hv]
    refine HeapOk.setRange (huok.setRange hgin (by rfl) (by rfl) ?_ fun m' hm' => ?_)
      (Finset.mem_insert_self d held) ?_ ?_ ?_ fun m' hm' => ?_
    · simp only
      omega
    · obtain rfl : m = m' := Option.some.inj (hgm.symm.trans hm')
      simp only
      omega
    · simp [update_of_ne hdg, Frag.origin]
    · simp [update_of_ne hdg]
    · simp only
      omega
    · rw [Heap.setFrag_frag, update_of_ne hdg] at hm'
      obtain rfl : m = m' := Option.some.inj (hdm.symm.trans hm')
      simp only
      exact huwp ▸ hwp
  · rw [Finset.mem_insert, hperm.mem_iff, mem_cons, or_assoc]
    exact or_congr_right ⟨fun hf => or_iff_not_imp_left.2 fun hfl => ⟨hf, hfl⟩,
      fun hf => hf.elim (hl f) And.left⟩
  · rcases mem_cons.1 (hperm.mem_iff.1 hf) with rfl | hf
    · exact .inr hd
    · exact .inl hf
  · exact hperm.nodup_iff.2 (nodup_cons.2 ⟨fun hdin => hd (hl d hdin), hchain.nodup⟩)
  · exact hfront.congr fun f hf => hvold f (hin₁ f hf) (hgl₁ f hf)
  · refine ⟨rfl, ?_⟩
    have hvdnext : v.next d = s.next g := by rw [Heap.next, hvd, ← hunext, Heap.next]
    rw [hvdnext]
    exact hback.congr fun f hf => hvold f (hin₂ f hf) (hl₂g f hf)
  · intro d' k' heq hne
    obtain ⟨rfl, rfl⟩ := cons.inj heq
    rw [hchain.last, List.getLast?_append, List.getLast?_cons, List.getLast?_cons]
    cases hk : l₂.getLast? with
    | none => exact absurd (List.getLast?_eq_none_iff.1 hk) hne
    | some y => rfl
  · refine ⟨?_, ?_, ?_, fun f hf => ?_, fun f hf => ?_⟩
    · rw [← hv]
      exact hframe.packet
    · rw [← hv]
      exact hframe.npacket
    · rw [← hv]
      exact hframe.freePacket
    all_goals
      rw [Finset.mem_sdiff, mem_toFinset] at hf
      have hfg : f ≠ g := fun heq => hf.2 (by rw [heq]; simp)
      have hfd : f ≠ d := fun heq => hd (heq ▸ hf.1)
    · rw [hvfrag f hfg hfd, hframe.frag f hf.1]
    · rw [hvbytes f hfg hfd, hframe.bytes f hf.1]
  · have hshort : v.fragBytes g = (s.fragBytes g).take n := by
      rw [← hframe.bytes g hg, fragBytes_eq hgm, Mem.take_read _ (by omega),
        fragBytes_eq (s := v) (m := m) (by rw [hvg]; exact hgm), hvg, hvmem]
      simp only [Nat.add_sub_cancel_left]
    rw [bytesOf_append, bytesOf_cons, bytesOf_nil, append_nil, hshort, bytesOf_append,
      bytesOf_cons, take_append, hlen₁, Nat.add_sub_cancel_left,
      take_of_length_le (l := s.bytesOf l₁) (by omega),
      take_append_of_le_length (by omega),
      bytesOf_congr fun f hf => hvoldbytes f (hin₁ f hf) (hgl₁ f hf)]
  · have hrest : v.fragBytes d = (s.fragBytes g).drop n := by
      rw [← hubytes, fragBytes_eq hdm, Mem.drop_read,
        fragBytes_eq (s := v) (m := m) (by rw [hvd]; exact hdm), hvd, hvmem]
      simp only
      congr 1
      omega
    rw [drop_bytesOf h hl (by omega) (by omega), Nat.add_sub_cancel_left, bytesOf_cons, hrest,
      bytesOf_congr fun f hf => hvoldbytes f (hin₂ f hf) (hl₂g f hf)]

/-- The two packets of `packetsplit` have their sizes, and the chain is still in one. -/
structure SplitSizes (s t : Heap) (p pp n : ℕ) : Prop where
  packet_self : t.packet p = { s.packet p with size := (s.packet p).size - n }
  packet_new : t.packet pp = { s.packet pp with size := n }
  packet : ∀ q, q ≠ p → q ≠ pp → t.packet q = s.packet q
  npacket : t.npacket = s.npacket
  freePacket : t.freePacket = s.freePacket
  frag : t.frag = s.frag
  mem : t.mem = s.mem
  count : t.count = s.count

theorem SplitSizes.fragBytes_eq (h : SplitSizes s t p pp n) : t.fragBytes = s.fragBytes := by
  funext f
  simp only [Heap.fragBytes, Heap.fragSize, h.frag, h.mem]

theorem splitSizes_set (n : ℕ) (h : pp ≠ p) :
    SplitSizes s ((s.setPacket pp { s.packet pp with size := n }).setPacket p
      { (s.setPacket pp { s.packet pp with size := n }).packet p with
        size := ((s.setPacket pp { s.packet pp with size := n }).packet p).size - n }) p pp n := by
  refine ⟨?_, ?_, fun q hqp hqpp => ?_, rfl, rfl, rfl, rfl, rfl⟩
  · rw [Heap.setPacket_packet, update_self, Heap.setPacket_packet, update_of_ne h.symm]
  · rw [Heap.setPacket_packet, update_of_ne h, Heap.setPacket_packet, update_self]
  · rw [Heap.setPacket_packet, update_of_ne hqp, Heap.setPacket_packet, update_of_ne hqpp]

/-- The packets get their ends, once the chain is in two parts. -/
theorem splitEnds_spec {s₀ s₁ u : Heap} {held' : Finset FragId} {x k : List FragId}
    (hnew : PacketNew s₀ t own held pp) (hppne : pp ≠ p) (htabs : t.abs p = some b)
    (hn : n ≤ b.length) (hsz : SplitSizes t s₁ p pp n)
    (hcut : Cut s₁ u held held' p (own p) x g k n) :
    Returns (do
      let s ← get
      modifyPacket pp fun q => { q with first := (s.packet p).first, last := some g }
      let g ← deref (some g)
      modifyFrag g fun h => { h with next := none }
      modifyPacket p fun q => { q with first := k.head? }
      let s ← get
      match k.head? with
      | none => modifyPacket p fun q => { q with last := k.head? }
      | some d =>
        if s.next d = none then modifyPacket p fun q => { q with last := k.head? } else pure ()
      notFree pp
      notFree p
      pure (.ok pp)) u fun (r : Except String ℕ) t => t.Ok ∧ ∃ pp, r = .ok pp ∧
        s₀.abs pp = none ∧ t.abs = update (update s₀.abs p (some (b.drop n))) pp
          (some (b.take n)) := by
  obtain ⟨hsizet, hbytest, hb⟩ := hnew.ok.of_abs htabs
  have hchain := hnew.ok.chain p hsizet
  have hppsize : 0 ≤ (t.packet pp).size := by rw [hnew.packet_self]
  have hs₁sum : s₁.bytesOf (own p) = b := by
    rw [Heap.bytesOf, hsz.fragBytes_eq]
    exact hbytest
  rw [returns_get_bind, returns_modifyPacket_bind, returns_deref_bind, returns_modifyFrag_bind,
    returns_modifyPacket_bind, returns_get_bind]
  have hup : u.packet = s₁.packet := hcut.frame.packet
  have hnodup := hcut.nodup
  rw [nodup_append, nodup_append] at hnodup
  have hgx : ∀ f ∈ x, f ≠ g := fun f hf => hnodup.1.2.2 f hf g mem_cons_self
  have hgk : ∀ f ∈ k, f ≠ g := fun f hf => (hnodup.2.2 g (by simp) f hf).symm
  have hgin : g ∈ held' := (hcut.held_iff g).2 (.inl (by simp))
  have hgout : ∀ f ∈ held, f ∉ own p → f ≠ g := by
    rintro f hf hfp rfl
    rcases hcut.new f (by simp) with hin | hout
    · exact hfp hin
    · exact hout hf
  generalize hw : Heap.setPacket _ p _ = w
  have hwp : w.packet p = ⟨b.length - n, k.head?, (own p).getLast?⟩ := by
    rw [← hw, Heap.setPacket_packet, update_self, Heap.setFrag_packet,
      Heap.setPacket_packet, update_of_ne hppne.symm, hup, hsz.packet_self, ← hchain.last, hb]
  have hwpp : w.packet pp = ⟨n, (s₁.packet p).first, some g⟩ := by
    rw [← hw, Heap.setPacket_packet, update_of_ne hppne, Heap.setFrag_packet,
      Heap.setPacket_packet, update_self, hup, hsz.packet_new]
  have hwother : ∀ q, q ≠ p → q ≠ pp → w.packet q = t.packet q := by
    intro q hqp hqpp
    rw [← hw, Heap.setPacket_packet, update_of_ne hqp, Heap.setFrag_packet,
      Heap.setPacket_packet, update_of_ne hqpp, hup, hsz.packet q hqp hqpp]
  have hwok : HeapOk w held' := by
    rw [← hw]
    exact HeapOk.setPacket (HeapOk.setNext (hcut.ok.setPacket pp _) none hgin) p _
  have hwfrag : ∀ f ≠ g, w.frag f = u.frag f := by
    intro f hf
    rw [← hw]
    simp [update_of_ne hf]
  have hwg : w.next g = none := by
    rw [← hw]
    simp [Heap.next]
  have hwbytes : ∀ f, w.fragBytes f = u.fragBytes f := by
    intro f
    rw [← hw]
    rcases eq_or_ne f g with rfl | hf
    · simp [Heap.fragBytes, Heap.fragSize]
    · exact fragBytes_setFrag_of_ne hf
  have hwnpacket : w.npacket = t.npacket := by
    rw [← hsz.npacket, ← hcut.frame.npacket, ← hw]
    rfl
  have hwfree : w.freePacket = t.freePacket := by
    rw [← hsz.freePacket, ← hcut.frame.freePacket, ← hw]
    rfl
  have hwnext : ∀ f ∈ k, w.next f = u.next f := fun f hf => by
    rw [Heap.next, Heap.next, hwfrag f (hgk f hf)]
  -- whichever way the last fragment of `p` is put right
  have hfinish : ∀ v : Heap, v.packet p = ⟨b.length - n, k.head?, k.getLast?⟩ →
      (∀ q ≠ p, v.packet q = w.packet q) → HeapOk v held' → v.frag = w.frag →
      v.fragBytes = w.fragBytes → v.npacket = w.npacket → v.freePacket = w.freePacket →
      Returns (notFree pp >>= fun _ => notFree p >>= fun _ => pure (.ok pp)) v
        fun (r : Except String ℕ) t => t.Ok ∧ ∃ pp, r = .ok pp ∧ s₀.abs pp = none ∧
          t.abs = update (update s₀.abs p (some (b.drop n))) pp
            (some (b.take n)) := by
    intro v hvp hvother hvok hvfrag hvbytes hvnpacket hvfree
    have hvpp : v.packet pp = ⟨n, (s₁.packet p).first, some g⟩ := by
      rw [hvother pp hppne, hwpp]
    have hvnext : ∀ f, v.next f = w.next f := fun f => by rw [Heap.next, Heap.next, hvfrag]
    refine returns_notFree_bind (by rw [hvpp]; exact Int.natCast_nonneg n)
      (returns_notFree_bind (by rw [hvp]; simp only; omega) ?_)
    rw [returns_pure]
    have hdone := hnew.ok.change₂ (x ++ [g]) k (b.take n) (b.drop n) hppne
      (hnew.ok.of_abs htabs).1 hppsize hvok
      (fun f => by rw [hcut.held_iff, hnew.own_nil]; simp)
      (fun f hf => (hcut.new f hf).imp_right .inr) hcut.nodup ⟨?_, ?_, ?_⟩ ⟨?_, ?_, hnodup.2.1⟩
      (by rw [hvpp, length_take]; simp only; omega)
      (by rw [hvp, length_drop]; simp only; omega)
      (fun r hrp hrpp => (hvother r hrp).trans (hwother r hrp hrpp))
      (hvnpacket.trans hwnpacket) (hvfree.trans hwfree) ?_ ?_ ?_
    · refine ⟨hdone.1, pp, rfl, hnew.abs_none, ?_⟩
      rw [hdone.2, hnew.abs_eq, update_comm hppne, update_idem]
    · rw [hvpp, linked_concat, hvnext, hwg]
      refine ⟨hcut.front.congr fun f hf => ?_, rfl⟩
      rw [hvnext, Heap.next, hwfrag f (hgx f hf), Heap.next]
    · rw [hvpp]
      simp
    · rw [nodup_append]
      exact hnodup.1
    · rw [hvp]
      exact hcut.back.congr fun f hf => by rw [hvnext, hwnext f hf]
    · rw [hvp]
    · intro f hf hfp _
      have hin : f ∈ held \ (own p).toFinset := by
        rw [Finset.mem_sdiff, mem_toFinset]
        exact ⟨hf, hfp⟩
      rw [hvfrag, hvbytes, hwfrag f (hgout f hf hfp), hwbytes, hcut.frame.frag f hin,
        hcut.frame.bytes f hin, hsz.frag, hsz.fragBytes_eq]
      exact ⟨rfl, rfl⟩
    · rw [← hs₁sum, ← hcut.bytes_front]
      exact bytesOf_congr fun f _ => by rw [hvbytes, hwbytes]
    · rw [← hs₁sum, ← hcut.bytes_back]
      exact bytesOf_congr fun f _ => by rw [hvbytes, hwbytes]
  have hset : ∀ last, (w.setPacket p { w.packet p with last := last }).packet p =
      ⟨b.length - n, k.head?, last⟩ := by
    intro last
    rw [Heap.setPacket_packet, update_self, hwp]
  have hkeep : ∀ last, ∀ q ≠ p,
      (w.setPacket p { w.packet p with last := last }).packet q = w.packet q :=
    fun last q hq => by rw [Heap.setPacket_packet, update_of_ne hq]
  have hback := hcut.back
  cases k with
  | nil =>
    simp only [List.head?_nil]
    rw [returns_modifyPacket_bind]
    exact hfinish _ (hset none) (hkeep none) (hwok.setPacket p _) rfl rfl rfl rfl
  | cons d k' =>
    simp only [List.head?_cons]
    have hd : w.next d = k'.head? := by
      rw [hwnext d mem_cons_self]
      exact hback.2.head_eq
    cases k' with
    | nil =>
      rw [List.head?_nil] at hd
      rw [if_pos hd, returns_modifyPacket_bind]
      exact hfinish _ (hset (some d)) (hkeep (some d)) (hwok.setPacket p _) rfl rfl rfl rfl
    | cons d' k'' =>
      rw [if_neg (by rw [hd]; simp)]
      refine hfinish w ?_ (fun _ _ => rfl) hwok rfl rfl rfl rfl
      rw [hwp, ← hcut.last d (d' :: k'') rfl (by simp), hsz.packet_self, hchain.last]

/-- **`packetsplit`** moves the front of a packet to a new one, or reports the error. -/
theorem packetsplit_spec {n : ℤ} (h : s.Ok) (hp : s.abs p = some b) :
    Returns (packetsplit p n) s fun r t => t.Ok ∧ match ByteString.split b n with
      | .ok (front, rest) => ∃ pp, r = .ok pp ∧ s.abs pp = none ∧
          t.abs = update (update s.abs p (some rest)) pp (some front)
      | .error e => r = .error e ∧ t.abs = s.abs := by
  obtain ⟨own, held, h⟩ := h
  obtain ⟨hsize, hbytes, hb⟩ := h.of_abs hp
  rw [packetsplit]
  refine returns_notFree_bind hsize ?_
  rw [returns_get_bind, ByteString.split, hb]
  by_cases hbad : n < 0 ∨ n > b.length
  · rw [if_pos hbad, if_pos hbad, returns_pure]
    exact ⟨⟨own, held, h⟩, rfl, rfl⟩
  rw [if_neg hbad, if_neg hbad]
  obtain ⟨n, rfl⟩ := Int.eq_ofNat_of_zero_le (show 0 ≤ n by omega)
  rw [Int.toNat_natCast]
  refine (packetalloc_new h).bind ?_
  intro pp t hnew
  have hppne : pp ≠ p := by
    rintro rfl
    rw [hnew.abs_none] at hp
    exact absurd hp (by simp)
  have hppsize : 0 ≤ (t.packet pp).size := by rw [hnew.packet_self]
  by_cases hn : (n : ℤ) = 0
  · rw [if_pos hn]
    refine returns_notFree_bind hppsize ?_
    rw [returns_pure]
    obtain rfl : n = 0 := by omega
    refine ⟨⟨_, _, hnew.ok⟩, pp, rfl, hnew.abs_none, ?_⟩
    rw [hnew.abs_eq, take_zero, drop_zero, ← hp, update_eq_self]
  rw [if_neg hn, returns_modifyPacket_bind, returns_modifyPacket_bind, returns_get_bind]
  have hpt : t.packet p = s.packet p := hnew.packet p hppne.symm
  have htabs : t.abs p = some b := by rw [hnew.abs_eq, update_of_ne hppne.symm, hp]
  have hsizet : 0 ≤ (t.packet p).size := by rw [hpt]; exact hsize
  have hchain := hnew.ok.chain p hsizet
  have hbytest : t.bytesOf (own p) = b := (hnew.ok.of_abs htabs).2.1
  have hlen := hnew.ok.ok.length_bytesOf (hnew.ok.mem (p := p))
  rw [hbytest] at hlen
  -- the two packets with their sizes
  have hs₁ok : HeapOk _ held := (hnew.ok.ok.setPacket pp { t.packet pp with size := n }).setPacket p
    { (t.setPacket pp { t.packet pp with size := n }).packet p with
      size := ((t.setPacket pp { t.packet pp with size := n }).packet p).size - n }
  have hsz := splitSizes_set (s := t) n hppne
  generalize Heap.setPacket _ p _ = s₁ at *
  have hs₁size : s₁.sizeOf (own p) = t.sizeOf (own p) := sizeOf_congr fun f _ => by rw [hsz.frag]
  have hs₁count := hsz.count
  have hs₁chain : IsChain s₁ p (own p) := hchain.congr (by rw [hsz.packet_self])
    (by rw [hsz.packet_self]) fun f _ => by rw [Heap.next, Heap.next, hsz.frag]
  have hlt := hnew.ok.length_lt hsizet
  refine (splitFrags_spec hs₁ok hnew.ok.mem hs₁chain.linked (by omega) (by omega)
    (by omega)).bind ?_
  rintro _ s₁' ⟨rfl, l₁, l₂, hsplit, rfl, hnn, hin⟩
  simp only
  by_cases hinside : (n : ℤ) - s₁'.sizeOf l₁ > 0
  · obtain ⟨g, l₃, rfl, hltg⟩ := hin hinside
    rw [if_pos hinside, List.head?_cons, returns_deref_bind]
    rw [hsplit] at hs₁chain
    have hmem := hnew.ok.mem (p := p)
    rw [hsplit] at hmem
    obtain ⟨n', hn'⟩ := Int.eq_ofNat_of_zero_le hnn
    rw [hn'] at hinside hltg ⊢
    have hpalloc : p < s₁'.npacket := by
      rw [hsz.npacket]
      exact hnew.ok.alloc p hsizet
    refine returns_cutInside hs₁ok hpalloc hs₁chain hmem (by omega) (by omega) ?_
    intro d u held' hcut
    have hsum : s₁'.sizeOf l₁ + n' = n := by omega
    rw [← hsplit, hsum] at hcut
    rw [returns_pure_bind]
    have hends := splitEnds_spec hnew hppne htabs (show n ≤ b.length by omega) hsz hcut
    exact hends
  · rw [if_neg hinside, returns_pure_bind]
    rcases eq_nil_or_concat l₁ with rfl | ⟨x, g, rfl⟩
    · rw [sizeOf_nil] at hinside
      omega
    · rw [concat_eq_append] at hsplit hinside hnn ⊢
      have hmem := hnew.ok.mem (p := p)
      rw [hsplit] at hs₁chain hmem
      have hcut := cut_between hs₁ok hs₁chain hmem
      have hsum : s₁'.sizeOf (x ++ [g]) = n := by omega
      rw [← hsplit, hsum] at hcut
      have hlast : (x ++ [g]).getLast?.or none = some g := by simp
      rw [hlast]
      have hends := splitEnds_spec hnew hppne htabs (show n ≤ b.length by omega) hsz hcut
      exact hends

/-! ### Writes of the caller -/

/-- A caller that was told an address writes there. -/
def fill (a : ℕ × ℕ) (x : List UInt8) : PacketM Unit := memmove a.1 a.2 x

/-- Other bytes in the place of some of them. -/
def ByteString.splice (b : ByteString) (k : ℕ) (x : List UInt8) : ByteString :=
  b.take k ++ x ++ b.drop (k + x.length)

variable {x : List UInt8}

theorem length_splice (h : k + x.length ≤ b.length) : (b.splice k x).length = b.length := by
  rw [ByteString.splice, length_append, length_append, length_take, length_drop]
  omega

/-- What can be found lies in the packet. -/
theorem Located.add_le {a : ℕ × ℕ} (h : s.Ok) (hp : s.abs p = some b) (ha : Located s p k n a) :
    k + n ≤ b.length := by
  obtain ⟨own, held, h⟩ := h
  obtain ⟨hsize, hbytes, -⟩ := h.of_abs hp
  obtain ⟨l, f, l', hfrags, hfm, hle, hend, rfl⟩ := ha
  rw [h.frags_eq hsize] at hfrags
  have hlen := h.ok.length_bytesOf (h.mem (p := p))
  rw [hbytes, hfrags, sizeOf_append, sizeOf_cons, Heap.fragSize] at hlen
  omega

/-- The bytes of a fragment after a write into it. -/
theorem fragBytes_store_inside {f : FragId} {m off : ℕ} (hfm : (s.frag f).mem = some m)
    (hle : (s.frag f).rp ≤ off) (hend : off + x.length ≤ (s.frag f).wp) :
    (s.setMem m ((s.mem m).store off x)).fragBytes f =
      ByteString.splice (s.fragBytes f) (off - (s.frag f).rp) x := by
  obtain ⟨i, hi⟩ := Nat.exists_eq_add_of_le hle
  obtain ⟨j, hj⟩ := Nat.exists_eq_add_of_le hend
  have hlen : (s.frag f).wp - (s.frag f).rp = i + (x.length + j) := by omega
  rw [fragBytes_setMem_self hfm, fragBytes_eq hfm, hlen, ByteString.splice, Mem.read_add,
    Mem.read_add, ← hi, Mem.read_store_self, Mem.read_store_of_disjoint _ (.inl hi.ge),
    Mem.read_store_of_disjoint _ (.inr le_rfl), Mem.take_read _ (by omega), Mem.drop_read,
    append_assoc]
  congr 2
  · omega
  · congr 1 <;> omega

/-- **A caller that writes to memory with one reference** changes the packet that the bytes
are of, and no other one. -/
theorem fill_spec {a : ℕ × ℕ} (h : s.Ok) (hp : s.abs p = some b) (ha : Located s p k x.length a)
    (href : (s.mem a.1).ref = 1) :
    Returns (fill a x) s fun _ t =>
      t.Ok ∧ t.abs = update s.abs p (some (b.splice k x)) := by
  have hlt := ha.add_le h hp
  obtain ⟨own, held, h⟩ := h
  obtain ⟨hsize, hbytes, hb⟩ := h.of_abs hp
  obtain ⟨l, f, l', hfrags, hfm, hle, hend, rfl⟩ := ha
  rw [h.frags_eq hsize] at hfrags
  have hf : f ∈ own p := by
    rw [hfrags]
    simp
  obtain ⟨m, hm, hfm', -⟩ := h.ok.inMem f (h.mem f hf)
  obtain rfl : a.1 = m := Option.some.inj (hfm.symm.trans hfm')
  rw [fill, memmove, modifyMem, returns_modify]
  obtain ⟨hwork, hothers⟩ := Reworked.store a.2 x h.ok (h.chain p hsize) h.mem
    hf hm hfm href
  have hnodup := (h.chain p hsize).nodup
  have hmem := h.mem (p := p)
  rw [hfrags] at hnodup hmem
  rw [nodup_append, nodup_cons] at hnodup
  have hlen := h.ok.length_bytesOf fun g hg => hmem g (mem_append_left _ hg)
  have hlenf := h.ok.length_fragBytes (hmem f (by simp))
  rw [Heap.fragSize] at hlenf
  have hsplice : (s.setMem a.1 ((s.mem a.1).store a.2 x)).bytesOf (own p) =
      b.splice (s.sizeOf l + (a.2 - (s.frag f).rp)) x := by
    rw [← hbytes, hfrags, bytesOf_append, bytesOf_cons,
      bytesOf_congr fun g hg => hothers g (hmem g (by simp [hg]))
        (hnodup.2.2 g hg f mem_cons_self),
      bytesOf_congr fun g hg => hothers g (hmem g (by simp [hg]))
        (fun heq => hnodup.2.1.1 (heq ▸ hg)),
      fragBytes_store_inside hfm hle hend, bytesOf_append, bytesOf_cons, ByteString.splice,
      ByteString.splice, ← hlen, Nat.add_assoc, take_length_add_append,
      drop_length_add_append, take_append_of_le_length (by omega),
      drop_append_of_le_length (by omega)]
    simp only [append_assoc]
  have hn : (s.packet p).size = (b.splice (s.sizeOf l + (a.2 - (s.frag f).rp)) x).length := by
    rw [length_splice hlt, hb]
  have hself : s.setPacket p { s.packet p with size := (s.packet p).size } = s := by
    rw [Heap.setPacket, update_eq_self]
  obtain ⟨hok, habs, -⟩ := h.replace hsize (n := (s.packet p).size) (by rw [hself]; exact hwork)
    hsplice hn
  exact ⟨hok, habs⟩

end LibVenti

end Plan9
