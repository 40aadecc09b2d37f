import Mathlib.Data.Finset.Card
import Plan9.Lib.Linked

/-!
# Hash chains with a free list

The nodes of a cache are on a free list or in one of the chains of a hash table; the free list
uses the links forward of the chains. A node is taken from the free list
(`Plan9.Lib.ChainTable.take`) and put back there (`Plan9.Lib.ChainTable.put`); it goes to the front
of a chain (`Plan9.Lib.ChainTable.link`) and leaves it from anywhere
(`Plan9.Lib.ChainTable.unlink`). In between it may be in no list.

A node of a cache counts those who refer to it; `Plan9.Lib.Counted` says that the numbers are
right, whoever comes (`Plan9.Lib.Counted.insert`) and goes (`Plan9.Lib.Counted.erase`).
-/

namespace Plan9

namespace Lib

open Function

section Chains

variable {ι η : Type*} [DecidableEq ι] [DecidableEq η] {next next' prev prev' : ι → Option ι}
  {free : Option ι} {heads heads' : η → Option ι} {F : List ι} {L : η → List ι} {b : ι} {h h' : η}

/-- **The free list is `F` and the chains are `L`**, and no node is in two of them. -/
structure ChainTable (next prev : ι → Option ι) (free : Option ι) (heads : η → Option ι)
    (F : List ι) (L : η → List ι) : Prop where
  free_linked : Linked next free F none
  chain : ∀ h, DLinked next prev none (heads h) (L h)
  free_nodup : F.Nodup
  chain_nodup : ∀ h, (L h).Nodup
  apart : ∀ b ∈ F, ∀ h, b ∉ L h
  unique : ∀ b h h', b ∈ L h → b ∈ L h' → h = h'

namespace ChainTable

omit [DecidableEq ι] in
theorem mem_update_cons {z : ι} : z ∈ update L h (b :: L h) h' ↔ (z = b ∧ h' = h) ∨ z ∈ L h' := by
  by_cases hh : h' = h
  · subst hh
    rw [update_self, List.mem_cons, and_iff_left rfl]
  · rw [update_of_ne hh]
    exact (or_iff_right fun hz => hh hz.2).symm

omit [DecidableEq ι] [DecidableEq η] in
theorem head_mem (hc : ChainTable next prev free heads F L) {z : ι} (hz : heads h = some z) :
    z ∈ L h := by
  have hhead := (hc.chain h).linked.head_eq
  rw [hz] at hhead
  exact List.mem_of_head? hhead.symm

omit [DecidableEq ι] [DecidableEq η] in
/-- **The first free node is taken.** -/
theorem take (hc : ChainTable next prev free heads (b :: F) L) :
    ChainTable next prev (next b) heads F L :=
  { hc with
    free_linked := hc.free_linked.2
    free_nodup := (List.nodup_cons.1 hc.free_nodup).2
    apart := fun z hz => hc.apart z (List.mem_cons_of_mem b hz) }

omit [DecidableEq η] in
/-- **A node that is in no list goes to the front of the free list.** -/
theorem put (hc : ChainTable next prev free heads F L) (hbF : b ∉ F) (hbL : ∀ h, b ∉ L h)
    (hnext : ∀ y, next' y = if y = b then free else next y) (hprev : ∀ y ≠ b, prev' y = prev y) :
    ChainTable next' prev' (some b) heads (b :: F) L := by
  have hne : ∀ h, ∀ y ∈ L h, y ≠ b := fun h y hy heq => hbL h (heq ▸ hy)
  refine { hc with
    free_linked := ⟨rfl, ?_⟩
    chain := fun h => (hc.chain h).congr (fun y hy => ?_) fun y hy => hprev y (hne h y hy)
    free_nodup := List.nodup_cons.2 ⟨hbF, hc.free_nodup⟩
    apart := List.forall_mem_cons.2 ⟨hbL, hc.apart⟩ }
  · rw [hnext, if_pos rfl]
    exact hc.free_linked.congr fun y hy => by rw [hnext, if_neg (ne_of_mem_of_not_mem hy hbF)]
  · rw [hnext, if_neg (hne h y hy)]

/-- **A node that is in no list goes to the front of a chain.** -/
theorem link (hc : ChainTable next prev free heads F L) (hbF : b ∉ F) (hbL : ∀ h, b ∉ L h) (h : η)
    (hnext : ∀ y, next' y = if y = b then heads h else next y)
    (hprev : ∀ y, prev' y = if y = b then none
      else if heads h = some y then some b else prev y) :
    ChainTable next' prev' free (update heads h (some b)) F (update L h (b :: L h)) := by
  have hne : ∀ h', ∀ y ∈ L h', y ≠ b := fun h' y hy heq => hbL h' (heq ▸ hy)
  refine ⟨?_, fun h' => ?_, hc.free_nodup, fun h' => ?_, fun z hz h' hmem => ?_,
    fun z h₁ h₂ h1 h2 => ?_⟩
  · exact hc.free_linked.congr fun z hz => by rw [hnext, if_neg (ne_of_mem_of_not_mem hz hbF)]
  · by_cases hh : h' = h
    · subst hh
      rw [update_self, update_self]
      refine (hc.chain h').push (hc.chain_nodup h') ?_ ?_ (fun y hy => ?_) (fun y hy => ?_)
        fun y hy hfirst => ?_
      · rw [hnext, if_pos rfl]
      · rw [hprev, if_pos rfl]
      · rw [hnext, if_neg (hne h' y hy)]
      · rw [hprev, if_neg (hne h' y (hc.head_mem hy)), if_pos hy]
      · rw [hprev, if_neg (hne h' y hy), if_neg hfirst]
    · rw [update_of_ne hh, update_of_ne hh]
      refine (hc.chain h').congr (fun y hy => ?_) fun y hy => ?_
      · rw [hnext, if_neg (hne h' y hy)]
      · rw [hprev, if_neg (hne h' y hy), if_neg]
        exact fun hfirst => hh (hc.unique y h' h hy (hc.head_mem hfirst))
  · by_cases hh : h' = h
    · subst hh
      rw [update_self]
      exact List.nodup_cons.2 ⟨hbL h', hc.chain_nodup h'⟩
    · rw [update_of_ne hh]
      exact hc.chain_nodup h'
  · rcases mem_update_cons.1 hmem with ⟨rfl, -⟩ | hmem
    · exact hbF hz
    · exact hc.apart z hz h' hmem
  · rcases mem_update_cons.1 h1 with ⟨hzb, hh₁⟩ | h1
    · rcases mem_update_cons.1 h2 with ⟨-, hh₂⟩ | h2
      · rw [hh₁, hh₂]
      · exact absurd hzb (hne h₂ z h2)
    · rcases mem_update_cons.1 h2 with ⟨hzb, -⟩ | h2
      · exact absurd hzb (hne h₁ z h1)
      · exact hc.unique z h₁ h₂ h1 h2

/-- The first free node goes to the front of a chain. -/
theorem toChain (hc : ChainTable next prev free heads (b :: F) L) (h : η)
    (hnext : ∀ y, next' y = if y = b then heads h else next y)
    (hprev : ∀ y, prev' y = if y = b then none
      else if heads h = some y then some b else prev y) :
    ChainTable next' prev' (next b) (update heads h (some b)) F (update L h (b :: L h)) :=
  hc.take.link (List.nodup_cons.1 hc.free_nodup).1 (hc.apart b List.mem_cons_self) h hnext hprev

theorem mem_update_erase (hc : ChainTable next prev free heads F L) (hb : b ∈ L h) {z : ι} :
    z ∈ update L h ((L h).erase b) h' ↔ z ∈ L h' ∧ z ≠ b := by
  by_cases hh : h' = h
  · subst hh
    rw [update_self, (hc.chain_nodup h').mem_erase_iff, and_comm]
  · rw [update_of_ne hh]
    refine (and_iff_left_of_imp fun hz => ?_).symm
    rintro rfl
    exact hh (hc.unique z h' h hz hb)

omit [DecidableEq ι] [DecidableEq η] in
/-- The neighbours of a node are in its chain. -/
theorem neighbours (hc : ChainTable next prev free heads F L) (hb : b ∈ L h) {z : ι}
    (hz : prev b = some z ∨ next b = some z) : z ∈ L h := by
  rcases hz with hz | hz
  · have hne : heads h ≠ some b := fun heq => by
      rw [((hc.chain h).eq_some_iff hb).2 heq] at hz
      cases hz
    obtain ⟨q, hq, hprev⟩ := (hc.chain h).prev_mem hb hne
    rw [hz] at hprev
    rwa [Option.some.inj hprev]
  · exact (hc.chain h).next_mem hb hz

/-- **A node leaves its chain.** -/
theorem unlink (hc : ChainTable next prev free heads F L) (hb : b ∈ L h)
    (hnext : ∀ y, next' y = if prev b = some y then next b else next y)
    (hprev : ∀ y, prev' y = if next b = some y then prev b else prev y)
    (hheads : heads' = if prev b = none then update heads h (next b) else heads) :
    ChainTable next' prev' free heads' F (update L h ((L h).erase b)) := by
  have hfar : ∀ z, z ∉ L h → prev b ≠ some z ∧ next b ≠ some z := fun z hz =>
    ⟨fun hq => hz (hc.neighbours hb (.inl hq)), fun hn => hz (hc.neighbours hb (.inr hn))⟩
  refine ⟨?_, fun h' => ?_, hc.free_nodup, fun h' => ?_,
    fun z hz h' hmem => hc.apart z hz h' ((hc.mem_update_erase hb).1 hmem).1, fun z h₁ h₂ h1 h2 =>
      hc.unique z h₁ h₂ ((hc.mem_update_erase hb).1 h1).1 ((hc.mem_update_erase hb).1 h2).1⟩
  · refine hc.free_linked.congr fun z hz => ?_
    rw [hnext, if_neg (hfar z fun hmem => hc.apart z hz h hmem).1]
  · by_cases hh : h' = h
    · subst hh
      have hhead : heads' h' = if heads h' = some b then next b else heads h' := by
        have hiff := (hc.chain h').eq_some_iff hb
        rw [hheads]
        by_cases hp : prev b = none
        · rw [if_pos hp, if_pos (hiff.1 hp), update_self]
        · rw [if_neg hp, if_neg (mt hiff.2 hp)]
      rw [hhead, update_self]
      exact (hc.chain h').erase (hc.chain_nodup h') hb (by simp) hnext hprev
    · have hhead : heads' h' = heads h' := by
        rw [hheads]
        split
        · exact update_of_ne hh ..
        · rfl
      have hout : ∀ z ∈ L h', z ∉ L h := fun z hz hz' => hh (hc.unique z h' h hz hz')
      rw [hhead, update_of_ne hh]
      refine (hc.chain h').congr (fun z hz => ?_) fun z hz => ?_
      · rw [hnext, if_neg (hfar z (hout z hz)).1]
      · rw [hprev, if_neg (hfar z (hout z hz)).2]
  · by_cases hh : h' = h
    · subst hh
      rw [update_self]
      exact (hc.chain_nodup h').erase b
    · rw [update_of_ne hh]
      exact hc.chain_nodup h'

/-- A node goes from its chain to the front of the free list. -/
theorem toFree (hc : ChainTable next prev free heads F L) (hb : b ∈ L h)
    (hnext : ∀ y, next' y = if y = b then free else if prev b = some y then next b else next y)
    (hprev : ∀ y, prev' y = if next b = some y then prev b else prev y)
    (hheads : heads' = if prev b = none then update heads h (next b) else heads) :
    ChainTable next' prev' (some b) heads' (b :: F) (update L h ((L h).erase b)) :=
  (hc.unlink hb (fun _ => rfl) hprev hheads).put (fun hmem => hc.apart b hmem h hb)
    (fun _ hmem => ((hc.mem_update_erase hb).1 hmem).2 rfl) hnext fun _ _ => rfl

end ChainTable

end Chains

/-! ### References -/

section Counted

variable {ι β : Type*} [DecidableEq ι] {f g : ι → Option β} {n m : β → ℕ} {c : ι} {b : β}

/-- Those who refer to `b`, when one index refers to something else. -/
theorem card_update [DecidableEq β] {S : Finset ι} (hS : ∀ c, c ∈ S ↔ f c = some b)
    (hg : ∀ c' ≠ c, g c' = f c') :
    ∃ S' : Finset ι, (∀ c, c ∈ S' ↔ g c = some b) ∧
      S'.card + (if f c = some b then 1 else 0) = S.card + if g c = some b then 1 else 0 := by
  by_cases hgc : g c = some b
  · refine ⟨Insert.insert c S, fun c' => ?_, ?_⟩
    · by_cases hc' : c' = c
      · simp [hc', hgc]
      · rw [hg c' hc', Finset.mem_insert, hS, or_iff_right hc']
    · rw [if_pos hgc]
      by_cases hc : f c = some b
      · rw [if_pos hc, Finset.insert_eq_of_mem ((hS c).2 hc)]
      · rw [if_neg hc, Finset.card_insert_of_notMem (mt (hS c).1 hc)]
  · refine ⟨S.erase c, fun c' => ?_, ?_⟩
    · by_cases hc' : c' = c
      · simp [hc', hgc]
      · rw [hg c' hc', Finset.mem_erase, hS, and_iff_right hc']
    · rw [if_neg hgc]
      by_cases hc : f c = some b
      · rw [if_pos hc, Finset.card_erase_add_one ((hS c).2 hc), Nat.add_zero]
      · rw [if_neg hc, Finset.erase_eq_of_notMem (mt (hS c).1 hc)]

/-- Each number is that of the indices that refer to it. -/
def Counted (f : ι → Option β) (n : β → ℕ) : Prop :=
  ∀ b, ∃ S : Finset ι, (∀ c, c ∈ S ↔ f c = some b) ∧ S.card = n b

namespace Counted

omit [DecidableEq ι] in
theorem congr (h : Counted f n) (hg : ∀ c, g c = f c) (hm : ∀ b, m b = n b) : Counted g m := by
  obtain rfl : g = f := funext hg
  obtain rfl : m = n := funext hm
  exact h

omit [DecidableEq ι] in
/-- What is referred to has a number. -/
theorem pos (h : Counted f n) (hc : f c = some b) : 0 < n b := by
  obtain ⟨S, hS, hcard⟩ := h b
  rw [← hcard]
  exact Finset.card_pos.2 ⟨c, (hS c).2 hc⟩

/-- **An index begins to refer.** -/
theorem insert [DecidableEq β] (h : Counted f n) (hc : f c = none) (hgc : g c = some b)
    (hg : ∀ c' ≠ c, g c' = f c') (hb : m b = n b + 1) (hm : ∀ z ≠ b, m z = n z) :
    Counted g m := by
  intro z
  obtain ⟨S, hS, hcard⟩ := h z
  obtain ⟨S', hS', hcard'⟩ := card_update hS hg
  rw [hc, hgc, if_neg (Option.some_ne_none z).symm, hcard] at hcard'
  refine ⟨S', hS', hcard'.trans ?_⟩
  rcases eq_or_ne z b with rfl | hz
  · rw [if_pos rfl, hb]
  · rw [if_neg fun heq => hz (Option.some.inj heq).symm, hm z hz, Nat.add_zero]

/-- **An index ends to refer.** -/
theorem erase [DecidableEq β] (h : Counted f n) (hc : f c = some b) (hgc : g c = none)
    (hg : ∀ c' ≠ c, g c' = f c') (hb : m b = n b - 1) (hm : ∀ z ≠ b, m z = n z) :
    Counted g m := by
  intro z
  obtain ⟨S, hS, hcard⟩ := h z
  obtain ⟨S', hS', hcard'⟩ := card_update hS hg
  rw [hc, hgc, if_neg (Option.some_ne_none z).symm, hcard, Nat.add_zero] at hcard'
  refine ⟨S', hS', ?_⟩
  rcases eq_or_ne z b with rfl | hz
  · rw [if_pos rfl] at hcard'
    omega
  · rw [if_neg fun heq => hz (Option.some.inj heq).symm] at hcard'
    rw [hm z hz, ← hcard', Nat.add_zero]

end Counted

end Counted

end Lib

end Plan9
