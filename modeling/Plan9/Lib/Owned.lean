import Mathlib.Data.Finset.Basic
import Mathlib.Data.List.Perm.Basic

/-!
# What a program owns

A program that allocates and frees owns some of the objects that are live; the others, its
**frame**, are none of its business. `Plan9.Lib.Owned` lists what is owned, each object once, so
that a program that ends with `Plan9.Lib.Owned` has freed nothing twice, leaked nothing and touched
nothing of the frame.

* `Plan9.Lib.Owned.alloc` and `Plan9.Lib.Owned.free` – the two operations;
* `Plan9.Lib.Owned.perm` – the order does not matter;
* `Plan9.Lib.Owned.split` and `Plan9.Lib.Owned.join` – a part of what is owned becomes the frame of
  a function that works on the other part, and is taken back.
-/

namespace Plan9

namespace Lib

open List

variable {α : Type} {live frame : Finset α} {l l' : List α} {a b : α}

/-- **The live objects** are those of `l`, each listed once, and the frame. -/
structure Owned (live : Finset α) (l : List α) (frame : Finset α) : Prop where
  nodup : l.Nodup
  mem_live : ∀ a, a ∈ live ↔ a ∈ l ∨ a ∈ frame
  apart : ∀ a ∈ l, a ∉ frame

namespace Owned

theorem perm (h : Owned live l frame) (hl : l.Perm l') : Owned live l' frame where
  nodup := hl.nodup_iff.1 h.nodup
  mem_live a := by rw [h.mem_live, hl.mem_iff]
  apart a ha := h.apart a (hl.mem_iff.2 ha)

/-- What is owned is live. -/
theorem mem (h : Owned live (a :: l) frame) : a ∈ live := (h.mem_live a).2 (.inl mem_cons_self)

/-- Nothing is owned any more. -/
theorem live_eq (h : Owned live [] frame) : live = frame := by
  ext a
  rw [h.mem_live]
  exact or_iff_right not_mem_nil

variable [DecidableEq α]

/-- A part of what is owned is put aside. -/
theorem split (h : Owned live (l ++ l') frame) : Owned live l (l'.toFinset ∪ frame) where
  nodup := h.nodup.of_append_left
  mem_live a := by
    rw [h.mem_live, mem_append, Finset.mem_union, mem_toFinset, or_assoc]
  apart a ha := by
    rw [Finset.mem_union, mem_toFinset, not_or]
    exact ⟨fun hmem => (nodup_append.1 h.nodup).2.2 a ha a hmem rfl,
      h.apart a (mem_append_left _ ha)⟩

/-- **What was put aside** is owned again. -/
theorem join {before after : Finset α} {k : List α} (h : Owned before (l ++ l') frame)
    (h' : Owned after k (l'.toFinset ∪ frame)) : Owned after (k ++ l') frame where
  nodup := by
    refine nodup_append.2 ⟨h'.nodup, h.nodup.of_append_right, fun a ha b hb hab => ?_⟩
    subst hab
    exact h'.apart a ha (Finset.mem_union_left _ (mem_toFinset.2 hb))
  mem_live a := by
    rw [h'.mem_live, mem_append, Finset.mem_union, mem_toFinset, or_assoc]
  apart a ha := by
    rcases mem_append.1 ha with ha | ha
    · exact fun hframe => h'.apart a ha (Finset.mem_union_right _ hframe)
    · exact h.apart a (mem_append_right _ ha)

/-- **An object is allocated.** -/
theorem alloc (h : Owned live l frame) (ha : a ∉ live) : Owned (insert a live) (a :: l) frame := by
  rw [h.mem_live, not_or] at ha
  refine ⟨nodup_cons.2 ⟨ha.1, h.nodup⟩, fun b => ?_, fun b hb => ?_⟩
  · rw [Finset.mem_insert, h.mem_live, mem_cons, or_assoc]
  · rcases mem_cons.1 hb with rfl | hb
    · exact ha.2
    · exact h.apart b hb

/-- **An object is freed.** -/
theorem free (h : Owned live (a :: l) frame) : Owned (live.erase a) l frame := by
  obtain ⟨ha, hnd⟩ := nodup_cons.1 h.nodup
  refine ⟨hnd, fun b => ?_, fun b hb => h.apart b (mem_cons_of_mem a hb)⟩
  rw [Finset.mem_erase, h.mem_live, mem_cons]
  constructor
  · rintro ⟨hne, (rfl | hb) | hb⟩
    · exact absurd rfl hne
    · exact .inl hb
    · exact .inr hb
  · rintro (hb | hb)
    · exact ⟨fun heq => ha (heq ▸ hb), .inl (.inr hb)⟩
    · exact ⟨fun heq => h.apart a mem_cons_self (heq ▸ hb), .inr hb⟩

end Owned

end Lib

end Plan9
