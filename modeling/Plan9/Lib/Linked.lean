import Mathlib.Data.List.Basic
import Mathlib.Logic.Function.Basic

/-!
# Linked lists

Nodes of a linked list are named by an index type; `next` gives the name in a node's
link, `none` at the end. `Plan9.Lib.Linked` says which nodes are met between two
links. What is known about a list of nodes survives a change to the links of other
nodes (`Plan9.Lib.Linked.congr`), and a list that ends can be walked
(`Plan9.Lib.walk_eq`). In a doubly linked list a node can be put in front
(`Plan9.Lib.DLinked.push`) and taken out (`Plan9.Lib.DLinked.erase`).
-/

namespace Plan9

namespace Lib

open List

variable {ι : Type*} {next next' : ι → Option ι}

/-- **Segments**: from the link `a` one meets the nodes of `l` and arrives at the
link `b`. -/
def Linked (next : ι → Option ι) : Option ι → List ι → Option ι → Prop
  | a, [], b => a = b
  | a, x :: l, b => a = some x ∧ Linked next (next x) l b

@[simp]
theorem linked_nil {a b : Option ι} : Linked next a [] b ↔ a = b := Iff.rfl

@[simp]
theorem linked_cons {a b : Option ι} {x : ι} {l : List ι} :
    Linked next a (x :: l) b ↔ a = some x ∧ Linked next (next x) l b := Iff.rfl

theorem linked_append {a c : Option ι} {l l' : List ι} :
    Linked next a (l ++ l') c ↔ ∃ b, Linked next a l b ∧ Linked next b l' c := by
  induction l generalizing a with
  | nil => simp
  | cons x l ih =>
    rw [cons_append, linked_cons, ih]
    constructor
    · rintro ⟨ha, b, hl, hl'⟩
      exact ⟨b, ⟨ha, hl⟩, hl'⟩
    · rintro ⟨b, ⟨ha, hl⟩, hl'⟩
      exact ⟨ha, b, hl, hl'⟩

/-- The links from a node on. -/
theorem Linked.suffix {a c : Option ι} {x : ι} {l l₁ l₂ : List ι} (h : Linked next a l c)
    (hl : l = l₁ ++ x :: l₂) : Linked next (some x) (x :: l₂) c := by
  rw [hl, linked_append] at h
  obtain ⟨b, -, rfl, hrest⟩ := h
  exact ⟨rfl, hrest⟩

/-- The links of other nodes do not matter. -/
theorem Linked.congr {a b : Option ι} {l : List ι} (h : Linked next a l b)
    (heq : ∀ x ∈ l, next' x = next x) : Linked next' a l b := by
  induction l generalizing a with
  | nil => exact h
  | cons x l ih =>
    refine ⟨h.1, ?_⟩
    rw [heq x mem_cons_self]
    exact ih h.2 fun y hy => heq y (mem_cons_of_mem x hy)

/-- A segment with a last node: up to that node, and its link. -/
theorem linked_concat {a b : Option ι} {l : List ι} {x : ι} :
    Linked next a (l ++ [x]) b ↔ Linked next a l (some x) ∧ next x = b := by
  rw [linked_append]
  constructor
  · rintro ⟨c, hl, rfl, hx⟩
    exact ⟨hl, hx⟩
  · rintro ⟨hl, hx⟩
    exact ⟨some x, hl, rfl, hx⟩

/-- A segment that ends begins with a node, or is empty. -/
theorem Linked.head_eq {a : Option ι} {l : List ι} (h : Linked next a l none) : a = l.head? := by
  cases l with
  | nil => exact h
  | cons x l => exact h.1

/-- The nodes met from a link, at most `k` of them. -/
def walk (next : ι → Option ι) : ℕ → Option ι → List ι
  | 0, _ => []
  | _ + 1, none => []
  | k + 1, some x => x :: walk next k (next x)

/-- **A list that ends can be walked.** -/
theorem walk_eq {k : ℕ} {a : Option ι} {l : List ι} (h : Linked next a l none)
    (hk : l.length ≤ k) : walk next k a = l := by
  induction l generalizing a k with
  | nil =>
    obtain rfl : a = none := h
    cases k <;> rfl
  | cons x l ih =>
    obtain ⟨rfl, hl⟩ := h
    cases k with
    | zero => exact absurd hk (by simp)
    | succ k => rw [walk, ih hl (Nat.le_of_succ_le_succ hk)]

/-! ### Doubly linked lists -/

section Doubly

variable {prev prev' : ι → Option ι} {p a : Option ι} {l : List ι} {x : ι}

/-- **Doubly linked lists**: from the link `a` one meets the nodes of `l`; every one of them links
back to the node before it, the first to `p`. -/
def DLinked (next prev : ι → Option ι) : Option ι → Option ι → List ι → Prop
  | _, a, [] => a = none
  | p, a, x :: l => a = some x ∧ prev x = p ∧ DLinked next prev (some x) (next x) l

section

variable (h : DLinked next prev p a l)

include h

theorem DLinked.linked : Linked next a l none := by
  induction l generalizing p a with
  | nil => exact h
  | cons x l ih => exact ⟨h.1, ih h.2.2⟩

/-- The links of other nodes do not matter. -/
theorem DLinked.congr (hnext : ∀ x ∈ l, next' x = next x)
    (hprev : ∀ x ∈ l, prev' x = prev x) : DLinked next' prev' p a l := by
  induction l generalizing p a with
  | nil => exact h
  | cons x l ih =>
    refine ⟨h.1, (hprev x mem_cons_self).trans h.2.1, ?_⟩
    rw [hnext x mem_cons_self]
    exact ih h.2.2 (fun y hy => hnext y (mem_cons_of_mem x hy))
      fun y hy => hprev y (mem_cons_of_mem x hy)

/-- The first node links back to another one. -/
theorem DLinked.relink (hnd : l.Nodup) {p' : Option ι}
    (hnext : ∀ x ∈ l, next' x = next x) (hfirst : ∀ x, a = some x → prev' x = p')
    (hprev : ∀ x ∈ l, a ≠ some x → prev' x = prev x) : DLinked next' prev' p' a l := by
  cases l with
  | nil => exact h
  | cons x l =>
    obtain ⟨rfl, -, hl⟩ := h
    refine ⟨rfl, hfirst x rfl, ?_⟩
    rw [hnext x mem_cons_self]
    refine hl.congr (fun y hy => hnext y (mem_cons_of_mem x hy)) fun y hy => ?_
    refine hprev y (mem_cons_of_mem x hy) fun heq => ?_
    rw [Option.some.inj heq] at hnd
    exact (nodup_cons.1 hnd).1 hy

/-- A link in the list goes to a node of the list. -/
theorem DLinked.next_mem (hx : x ∈ l) {n : ι}
    (hn : next x = some n) : n ∈ l := by
  induction l generalizing p a with
  | nil => cases hx
  | cons y l ih =>
    obtain ⟨-, -, hl⟩ := h
    rcases mem_cons.1 hx with rfl | hx
    · have hhead := hl.linked.head_eq
      rw [hn] at hhead
      exact mem_cons_of_mem x (List.mem_of_head? hhead.symm)
    · exact mem_cons_of_mem y (ih hl hx)

/-- A node that is not the first links back to a node of the list. -/
theorem DLinked.prev_mem (hx : x ∈ l) (hne : a ≠ some x) :
    ∃ q ∈ l, prev x = some q := by
  induction l generalizing p a with
  | nil => cases hx
  | cons y l ih =>
    obtain ⟨rfl, -, hl⟩ := h
    rcases mem_cons.1 hx with rfl | hx
    · exact absurd rfl hne
    · by_cases hnext : next y = some x
      · refine ⟨y, mem_cons_self, ?_⟩
        cases l with
        | nil => cases hx
        | cons z l =>
          obtain ⟨hz, hprev, -⟩ := hl
          rw [hnext] at hz
          rwa [Option.some.inj hz]
      · obtain ⟨q, hq, hprev⟩ := ih hl hx hnext
        exact ⟨q, mem_cons_of_mem y hq, hprev⟩

end

/-- The first node links back to `p`. -/
theorem DLinked.prev_first (h : DLinked next prev p (some x) l) : prev x = p := by
  cases l with
  | nil => cases h
  | cons y l =>
    obtain ⟨hy, hprev, -⟩ := h
    rwa [Option.some.inj hy]

/-- The node whose link back is `none` is the first. -/
theorem DLinked.eq_some_iff (h : DLinked next prev none a l) (hx : x ∈ l) :
    prev x = none ↔ a = some x := by
  constructor
  · intro hprev
    by_contra hne
    obtain ⟨q, -, hq⟩ := h.prev_mem hx hne
    rw [hprev] at hq
    cases hq
  · rintro rfl
    exact h.prev_first

/-- **A node goes to the front.** -/
theorem DLinked.push (h : DLinked next prev none a l) (hnd : l.Nodup) (hself : next' x = a)
    (hback : prev' x = none) (hnext : ∀ y ∈ l, next' y = next y)
    (hfirst : ∀ y, a = some y → prev' y = some x)
    (hprev : ∀ y ∈ l, a ≠ some y → prev' y = prev y) :
    DLinked next' prev' none (some x) (x :: l) :=
  ⟨rfl, hback, hself ▸ h.relink hnd hnext hfirst hprev⟩

/-- **A node is taken out**: its neighbours are linked to each other. -/
theorem DLinked.erase [DecidableEq ι] (h : DLinked next prev p a l) (hnd : l.Nodup) (hx : x ∈ l)
    (hp : ∀ q ∈ l, p ≠ some q)
    (hnext : ∀ y, next' y = if prev x = some y then next x else next y)
    (hprev : ∀ y, prev' y = if next x = some y then prev x else prev y) :
    DLinked next' prev' p (if a = some x then next x else a) (l.erase x) := by
  induction l generalizing p a with
  | nil => cases hx
  | cons y l ih =>
    obtain ⟨rfl, hy, hl⟩ := h
    obtain ⟨hyl, hnd⟩ := nodup_cons.1 hnd
    by_cases hxy : y = x
    · subst hxy
      rw [erase_cons_head, if_pos rfl]
      refine hl.relink hnd (fun z hz => ?_) (fun z hz => ?_) fun z hz hne => ?_
      · rw [hnext, if_neg]
        rw [hy]
        exact hp z (mem_cons_of_mem y hz)
      · rw [hprev, if_pos hz, hy]
      · rw [hprev, if_neg hne]
    · have hxl : x ∈ l := (mem_cons.1 hx).resolve_left (Ne.symm hxy)
      rw [erase_cons_tail (by simpa using hxy), if_neg (by simpa using hxy)]
      refine ⟨rfl, ?_, ?_⟩
      · rw [hprev, if_neg, hy]
        exact fun hn => hyl (hl.next_mem hxl hn)
      · have hlink : next' y = if next y = some x then next x else next y := by
          rw [hnext]
          by_cases hfirst : next y = some x
          · rw [hfirst] at hl
            rw [if_pos hl.prev_first, if_pos hfirst]
          · obtain ⟨q, hq, hprevx⟩ := hl.prev_mem hxl hfirst
            rw [if_neg hfirst, if_neg]
            rw [hprevx]
            rintro heq
            exact hyl (Option.some.inj heq ▸ hq)
        rw [hlink]
        refine ih hl hnd hxl fun q hq heq => ?_
        exact hyl (Option.some.inj heq ▸ hq)

end Doubly

end Lib

end Plan9
