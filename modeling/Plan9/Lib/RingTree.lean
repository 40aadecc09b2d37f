import Mathlib.Data.Multiset.Basic
import Mathlib.Algebra.Order.Group.Multiset
import Mathlib.Order.Lattice
import Mathlib.Tactic.Abel

/-!
# Trees of rings

A binary search tree each of whose nodes has a key and a ring of values with that key. The first
value of a ring is the one that has been there longest.

* `Plan9.Lib.RingTree.elems_add`, `Plan9.Lib.RingTree.remove_spec` – adding and removing are what
  they are on the multiset of the elements, and keep the order;
* `Plan9.Lib.RingTree.lookupGe_spec` – the look-up finds a key that is large enough.
-/

namespace Plan9

namespace Lib

open List

/-- A search tree whose nodes are rings, with the first value at the head. -/
inductive RingTree (κ α : Type*)
  | nil
  | node (k : κ) (ring : List α) (left right : RingTree κ α)
  deriving DecidableEq, Repr

namespace RingTree

variable {κ α : Type*} {t l r : RingTree κ α} {k k' : κ} {a : α} {ring : List α}

/-- The elements, each with its key. -/
def elems : RingTree κ α → Multiset (κ × α)
  | nil => 0
  | node k ring l r => l.elems + ((ring.map fun a => (k, a) : List (κ × α)) :
    Multiset (κ × α)) + r.elems

@[simp]
theorem elems_nil : (nil : RingTree κ α).elems = 0 := rfl

@[simp]
theorem mem_elems_node {e : κ × α} : e ∈ (node k ring l r).elems ↔
    e ∈ l.elems ∨ e.1 = k ∧ e.2 ∈ ring ∨ e ∈ r.elems := by
  rw [elems, Multiset.mem_add, Multiset.mem_add, Multiset.mem_coe, mem_map, or_assoc]
  refine or_congr_right (or_congr_left ⟨?_, ?_⟩)
  · rintro ⟨a, ha, rfl⟩
    exact ⟨rfl, ha⟩
  · rintro ⟨h, ha⟩
    exact ⟨e.2, ha, Prod.ext h.symm rfl⟩

section Ordered

variable [LinearOrder κ]

/-- A search tree without empty rings. -/
def Ordered : RingTree κ α → Prop
  | nil => True
  | node k ring l r =>
    (∀ e ∈ l.elems, e.1 < k) ∧ (∀ e ∈ r.elems, k < e.1) ∧ ring ≠ [] ∧ l.Ordered ∧ r.Ordered

/-! ### Adding -/

/-- A value goes to the end of the ring with its key, or to a new ring. -/
def add (k : κ) (a : α) : RingTree κ α → RingTree κ α
  | nil => node k [a] nil nil
  | node k' ring l r =>
    if k = k' then node k' (ring ++ [a]) l r
    else if k < k' then node k' ring (l.add k a) r
    else node k' ring l (r.add k a)

theorem elems_add (k : κ) (a : α) (t : RingTree κ α) : (t.add k a).elems = (k, a) ::ₘ t.elems := by
  induction t with
  | nil => rfl
  | node k' ring l r ihl ihr =>
    rw [add]
    split_ifs with h h'
    · subst h
      rw [elems, elems, map_append, ← Multiset.coe_add]
      simp only [map_cons, map_nil, Multiset.coe_singleton, ← Multiset.singleton_add]
      abel
    · rw [elems, elems, ihl]
      simp only [← Multiset.singleton_add]
      abel
    · rw [elems, elems, ihr]
      simp only [← Multiset.singleton_add]
      abel

theorem Ordered.add (h : t.Ordered) (k : κ) (a : α) : (t.add k a).Ordered := by
  induction t with
  | nil => exact ⟨nofun, nofun, cons_ne_nil a [], trivial, trivial⟩
  | node k' ring l r ihl ihr =>
    obtain ⟨hl, hr, hne, hol, hor⟩ := h
    rw [RingTree.add]
    split_ifs with heq hlt
    · exact ⟨hl, hr, by simp, hol, hor⟩
    · refine ⟨?_, hr, hne, ihl hol, hor⟩
      rw [elems_add]
      exact Multiset.forall_mem_cons.2 ⟨hlt, hl⟩
    · refine ⟨hl, ?_, hne, hol, ihr hor⟩
      rw [elems_add]
      exact Multiset.forall_mem_cons.2 ⟨lt_of_le_of_ne (le_of_not_gt hlt) (Ne.symm heq), hr⟩

/-! ### Removing -/

/-- The node with the least key, and the rest. -/
def splitMin : RingTree κ α → Option ((κ × List α) × RingTree κ α)
  | nil => none
  | node k ring l r =>
    match l.splitMin with
    | none => some ((k, ring), r)
    | some (m, l') => some (m, node k ring l' r)

/-- A tree without its root: with two children the successor takes its place. -/
def join (l r : RingTree κ α) : RingTree κ α :=
  match l, r with
  | nil, r => r
  | l, nil => l
  | l, r =>
    match r.splitMin with
    | none => l
    | some (m, r') => node m.1 m.2 l r'

theorem splitMin_spec {m : κ × List α} {t' : RingTree κ α} (h : t.Ordered)
    (hm : t.splitMin = some (m, t')) :
    t'.Ordered ∧ m.2 ≠ [] ∧ (∀ e ∈ t'.elems, m.1 < e.1) ∧
      t.elems = ((m.2.map fun a => (m.1, a) : List (κ × α)) : Multiset (κ × α)) + t'.elems := by
  induction t generalizing t' with
  | nil => exact absurd hm nofun
  | node k ring l r ihl _ =>
    obtain ⟨hl, hr, hne, hol, hor⟩ := h
    rw [splitMin] at hm
    rcases hs : l.splitMin with - | ⟨m', l'⟩
    · rw [hs] at hm
      obtain ⟨rfl, rfl⟩ := Prod.mk.inj (Option.some.inj hm)
      have hnil : l = nil := by
        cases l with
        | nil => rfl
        | node k ring l r =>
          rw [splitMin] at hs
          split at hs <;> exact absurd hs nofun
      subst hnil
      refine ⟨hor, hne, hr, ?_⟩
      rw [elems, elems_nil, zero_add]
    · rw [hs] at hm
      obtain ⟨rfl, rfl⟩ := Prod.mk.inj (Option.some.inj hm)
      obtain ⟨ho, hne', hlt, helems⟩ := ihl hol hs
      have hmem : ∀ e ∈ l'.elems, e ∈ l.elems := by
        intro e he
        rw [helems]
        exact Multiset.mem_add.2 (.inr he)
      have hmk : m'.1 < k := by
        obtain ⟨a, ha⟩ := exists_mem_of_ne_nil _ hne'
        refine hl (m'.1, a) ?_
        rw [helems]
        exact Multiset.mem_add.2 (.inl (Multiset.mem_coe.2 (mem_map_of_mem ha)))
      refine ⟨⟨fun e he => hl e (hmem e he), hr, hne, ho, hor⟩, hne', ?_, ?_⟩
      · intro e he
        rcases mem_elems_node.1 he with he | ⟨he, -⟩ | he
        · exact hlt e he
        · exact he ▸ hmk
        · exact hmk.trans (hr e he)
      · rw [elems, elems, helems]
        abel

omit [LinearOrder κ] in
theorem splitMin_ne_none (h : t ≠ nil) : t.splitMin ≠ none := by
  cases t with
  | nil => exact absurd rfl h
  | node k ring l r =>
    rw [splitMin]
    split <;> exact Option.some_ne_none _

theorem join_spec (hl : l.Ordered) (hr : r.Ordered)
    (hlr : ∀ e ∈ l.elems, ∀ e' ∈ r.elems, e.1 < e'.1) :
    (join l r).Ordered ∧ (join l r).elems = l.elems + r.elems := by
  cases l with
  | nil => exact ⟨hr, (zero_add _).symm⟩
  | node k ring ll lr =>
    cases r with
    | nil => exact ⟨hl, (add_zero _).symm⟩
    | node k' ring' rl rr =>
      obtain ⟨⟨m, r'⟩, hs⟩ := Option.ne_none_iff_exists'.1
        (splitMin_ne_none (show node k' ring' rl rr ≠ nil from nofun))
      obtain ⟨ho, hne, hlt, helems⟩ := splitMin_spec hr hs
      simp only [join, hs]
      refine ⟨⟨?_, hlt, hne, hl, ho⟩, ?_⟩
      · intro e he
        obtain ⟨a, ha⟩ := exists_mem_of_ne_nil _ hne
        refine hlr e he (m.1, a) ?_
        rw [helems]
        exact Multiset.mem_add.2 (.inl (Multiset.mem_coe.2 (mem_map_of_mem ha)))
      · rw [elems, helems]
        abel

variable [DecidableEq α]

/-- A value is taken out of the ring with its key; the last of a ring takes the node with it. There
is no result if there is no such ring. -/
def remove (k : κ) (a : α) : RingTree κ α → Option (RingTree κ α)
  | nil => none
  | node k' ring l r =>
    if k = k' then
      if ring.erase a = [] then some (join l r) else some (node k' (ring.erase a) l r)
    else if k < k' then (l.remove k a).map fun l => node k' ring l r
    else (r.remove k a).map fun r => node k' ring l r

/-- **An element** can be removed. -/
theorem remove_spec (h : t.Ordered) (ha : (k, a) ∈ t.elems) :
    ∃ t', t.remove k a = some t' ∧ t'.Ordered ∧ t.elems = (k, a) ::ₘ t'.elems := by
  induction t with
  | nil => exact absurd ha (Multiset.notMem_zero _)
  | node k' ring l r ihl ihr =>
    obtain ⟨hl, hr, hne, hol, hor⟩ := h
    rw [remove]
    rcases lt_trichotomy k k' with hlt | rfl | hgt
    · have hal : (k, a) ∈ l.elems := by
        rcases mem_elems_node.1 ha with he | ⟨he, -⟩ | he
        · exact he
        · exact absurd he hlt.ne
        · exact absurd (hr _ he) hlt.not_gt
      obtain ⟨l', hl', hol', helems⟩ := ihl hol hal
      rw [if_neg hlt.ne, if_pos hlt, hl']
      refine ⟨_, rfl, ⟨fun e he => hl e ?_, hr, hne, hol', hor⟩, ?_⟩
      · rw [helems]
        exact Multiset.mem_cons_of_mem he
      · rw [elems, elems, helems]
        simp only [← Multiset.singleton_add]
        abel
    · have haring : a ∈ ring := by
        rcases mem_elems_node.1 ha with he | ⟨-, he⟩ | he
        · exact absurd (hl _ he) (lt_irrefl k)
        · exact he
        · exact absurd (hr _ he) (lt_irrefl k)
      have hring : ((ring.map fun a => (k, a) : List (κ × α)) : Multiset (κ × α)) =
          (k, a) ::ₘ (((ring.erase a).map fun a => (k, a) : List (κ × α)) : Multiset (κ × α)) := by
        rw [Multiset.cons_coe, ← map_cons (f := fun a => (k, a))]
        exact Multiset.coe_eq_coe.2 ((perm_cons_erase haring).map _)
      rw [if_pos rfl]
      split_ifs with hnil
      · obtain ⟨ho, helems⟩ := join_spec hol hor fun e he e' he' => (hl e he).trans (hr e' he')
        refine ⟨_, rfl, ho, ?_⟩
        rw [elems, hring, hnil, helems]
        simp only [map_nil, Multiset.coe_nil, ← Multiset.singleton_add]
        abel
      · refine ⟨_, rfl, ⟨hl, hr, hnil, hol, hor⟩, ?_⟩
        rw [elems, elems, hring]
        simp only [← Multiset.singleton_add]
        abel
    · have har : (k, a) ∈ r.elems := by
        rcases mem_elems_node.1 ha with he | ⟨he, -⟩ | he
        · exact absurd (hl _ he) hgt.not_gt
        · exact absurd he hgt.ne'
        · exact he
      obtain ⟨r', hr', hor', helems⟩ := ihr hor har
      rw [if_neg hgt.ne', if_neg hgt.not_gt, hr']
      refine ⟨_, rfl, ⟨hl, fun e he => hr e ?_, hne, hol, hor'⟩, ?_⟩
      · rw [helems]
        exact Multiset.mem_cons_of_mem he
      · rw [elems, elems, helems]
        simp only [← Multiset.singleton_add]
        abel

end Ordered

/-! ### Looking up -/

section LookUp

variable [LinearOrder κ]

/-- The head of the ring with the least key that is not less than `k`; `lastgood` is the one found
on the way. -/
def lookupGe (k : κ) : RingTree κ α → Option α → Option α
  | nil, lastgood => lastgood
  | node k' ring l r, lastgood =>
    if k = k' then ring.head?
    else if k < k' then l.lookupGe k ring.head?
    else r.lookupGe k lastgood

theorem lookupGe_or {lg : Option α} (h : t.lookupGe k lg = some a) :
    lg = some a ∨ ∃ k', k ≤ k' ∧ (k', a) ∈ t.elems := by
  induction t generalizing lg with
  | nil => exact .inl h
  | node k' ring l r ihl ihr =>
    rw [lookupGe] at h
    split_ifs at h with heq hlt
    · exact .inr ⟨k', heq.le, mem_elems_node.2 (.inr (.inl ⟨rfl, List.mem_of_mem_head? h⟩))⟩
    · rcases ihl h with h | ⟨j, hj, hmem⟩
      · exact .inr ⟨k', hlt.le, mem_elems_node.2 (.inr (.inl ⟨rfl, List.mem_of_mem_head? h⟩))⟩
      · exact .inr ⟨j, hj, mem_elems_node.2 (.inl hmem)⟩
    · rcases ihr h with h | ⟨j, hj, hmem⟩
      · exact .inl h
      · exact .inr ⟨j, hj, mem_elems_node.2 (.inr (.inr hmem))⟩

/-- **What is found** has a key that is large enough. -/
theorem lookupGe_spec (h : t.lookupGe k none = some a) : ∃ k', k ≤ k' ∧ (k', a) ∈ t.elems :=
  (lookupGe_or h).resolve_left nofun

end LookUp

end RingTree

end Lib

end Plan9
