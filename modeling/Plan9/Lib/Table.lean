import Mathlib.Data.List.Pairwise
import Mathlib.Data.List.Nodup
import Mathlib.Order.Lattice

/-!
# Tables with keys

A table is a list of keys, each with what it leads to, and `Plan9.Lib.select` is what a key leads
to, or a default. A table whose keys increase can be searched by halves:
`Plan9.Lib.select_below`, `Plan9.Lib.select_at`, `Plan9.Lib.select_above`.
-/

namespace Plan9

namespace Lib

open List

variable {κ β γ : Type*} {l l₁ l₂ : List (κ × β)} {e : κ × β} {d : β} {x : κ}

section Select

variable [DecidableEq κ]

/-- What the key `x` leads to, or the default. -/
def select (l : List (κ × β)) (d : β) (x : κ) : β :=
  ((l.find? fun e => e.1 = x).map Prod.snd).getD d

theorem select_cons (e : κ × β) (l : List (κ × β)) (d : β) (x : κ) :
    select (e :: l) d x = if e.1 = x then e.2 else select l d x := by
  rw [select, List.find?_cons]
  by_cases h : e.1 = x
  · simp [h]
  · simp [h, select]

/-- A key that is not there. -/
theorem select_of_ne (h : ∀ e ∈ l, e.1 ≠ x) : select l d x = d := by
  induction l with
  | nil => rfl
  | cons e l ih =>
    rw [select_cons, if_neg (h e mem_cons_self), ih fun e' he' => h e' (mem_cons_of_mem e he')]

/-- What holds of the default and of all entries holds of what is found. -/
theorem select_ind {P : β → Prop} (hd : P d) (h : ∀ e ∈ l, P e.2) : P (select l d x) := by
  induction l with
  | nil => exact hd
  | cons e l ih =>
    rw [select_cons]
    split
    · exact h e mem_cons_self
    · exact ih fun e' he' => h e' (mem_cons_of_mem e he')

/-- The part of a table before one without the key. -/
theorem select_append_left (h : ∀ e ∈ l₂, e.1 ≠ x) : select (l₁ ++ l₂) d x = select l₁ d x := by
  induction l₁ with
  | nil => exact select_of_ne h
  | cons e l₁ ih => rw [cons_append, select_cons, select_cons, ih]

/-- The part of a table behind one without the key. -/
theorem select_append_right (h : ∀ e ∈ l₁, e.1 ≠ x) : select (l₁ ++ l₂) d x = select l₂ d x := by
  induction l₁ with
  | nil => rfl
  | cons e l₁ ih =>
    rw [cons_append, select_cons, if_neg (h e mem_cons_self),
      ih fun e' he' => h e' (mem_cons_of_mem e he')]

/-- The first entry with the key decides. -/
theorem select_of_mem (hn : (l.map Prod.fst).Nodup) (he : e ∈ l) (hx : e.1 = x) :
    select l d x = e.2 := by
  induction l with
  | nil => exact absurd he not_mem_nil
  | cons e' l ih =>
    rw [map_cons, nodup_cons] at hn
    rw [select_cons]
    rcases mem_cons.1 he with rfl | hl
    · rw [if_pos hx]
    · have hne : e'.1 ≠ x := fun h => hn.1 (by
        rw [h, ← hx]
        exact mem_map_of_mem hl)
      rw [if_neg hne]
      exact ih hn.2 hl

/-- The order of a table without equal keys does not matter. -/
theorem select_perm (h : l₁.Perm l₂) (hn : (l₁.map Prod.fst).Nodup) :
    select l₁ d x = select l₂ d x := by
  have hn' : (l₂.map Prod.fst).Nodup := (h.map Prod.fst).nodup_iff.1 hn
  by_cases hx : ∃ e ∈ l₁, e.1 = x
  · obtain ⟨e, he, hex⟩ := hx
    rw [select_of_mem hn he hex, select_of_mem hn' (h.mem_iff.1 he) hex]
  · rw [select_of_ne fun e he hex => hx ⟨e, he, hex⟩,
      select_of_ne fun e he hex => hx ⟨e, h.mem_iff.2 he, hex⟩]

end Select

/-! ### Sorted tables -/

section Sorted

variable [LinearOrder κ]

/-- The keys increase. -/
def Ascends (l : List (κ × β)) : Prop := l.Pairwise fun a b => a.1 < b.1

theorem Ascends.nodup (h : Ascends l) : (l.map Prod.fst).Nodup :=
  pairwise_map.2 (h.imp fun hab => hab.ne)

theorem Ascends.left (h : Ascends (l₁ ++ l₂)) : Ascends l₁ := (pairwise_append.1 h).1

section

variable (h : Ascends (l₁ ++ e :: l₂))

include h

theorem Ascends.right : Ascends l₂ :=
  (pairwise_cons.1 (pairwise_append.1 h).2.1).2

/-- **Below the key of an entry,** only what is before it matters. -/
theorem select_below (hx : x < e.1) :
    select (l₁ ++ e :: l₂) d x = select l₁ d x := by
  have h2 := (pairwise_append.1 h).2.1
  refine select_append_left fun e' he' hex => ?_
  rcases mem_cons.1 he' with rfl | hl
  · exact hx.ne' hex
  · exact (hx.trans ((pairwise_cons.1 h2).1 e' hl)).ne' hex

/-- **At the key of an entry.** -/
theorem select_at (hx : x = e.1) : select (l₁ ++ e :: l₂) d x = e.2 :=
  select_of_mem h.nodup (mem_append_right l₁ mem_cons_self) hx.symm

/-- **Above the key of an entry,** only what is behind it matters. -/
theorem select_above (hx : e.1 < x) :
    select (l₁ ++ e :: l₂) d x = select l₂ d x := by
  have h1 : ∀ e' ∈ l₁, e'.1 ≠ x := fun e' he' hex =>
    ((pairwise_append.1 h).2.2 e' he' e mem_cons_self).not_ge (hex ▸ hx.le)
  rw [select_append_right h1, select_cons, if_neg hx.ne]

end

end Sorted

end Lib

end Plan9
