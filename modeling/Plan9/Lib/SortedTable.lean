import Mathlib.Data.List.Nodup
import Mathlib.Order.Basic
import Mathlib.Data.Nat.Basic
import Mathlib.Algebra.Order.Group.Nat
import Mathlib.Logic.Function.Basic

/-!
# Tables sorted by a key

A list of entries that is strictly sorted by a key is a finite map. To **put** an entry into it
replaces the entry of the same key, or inserts the new one where it belongs
(`Plan9.Lib.putSorted`); a table of bounded size takes an entry of a new key only while it
has room (`Plan9.Lib.tryPut`). A hash table has such a table in every bucket, and some buckets
may be closed; `Plan9.Lib.fill` puts entries into it one after the other, and says which ones
it took.

* `Plan9.Lib.mem_putSorted` – what the table holds then;
* `Plan9.Lib.putSorted_of_split` and `Plan9.Lib.putSorted_of_hit` – how an array does it;
* `Plan9.Lib.fill_ordered` – the buckets stay sorted and bounded;
* `Plan9.Lib.mem_fill_iff` – the entries of a key are those taken last, or what was there;
* `Plan9.Lib.fill_taken_iff` – an entry was taken if and only if its key is there at the end.
-/

namespace Plan9

namespace Lib

open List Function

section Put

variable {α κ : Type*} [LinearOrder κ] {key : α → κ} {e x y : α} {l l₁ l₂ : List α} {cap : ℕ}

/-- Strictly sorted by the key. -/
def KeySorted (key : α → κ) (l : List α) : Prop := l.Pairwise fun x y => key x < key y

/-- Put an entry into a sorted table. -/
def putSorted (key : α → κ) (e : α) (l : List α) : List α :=
  l.filter (fun x => key x < key e) ++ e :: l.filter (fun x => key e < key x)

/-- Put an entry into a table that has room for `cap` entries. -/
def tryPut (key : α → κ) (cap : ℕ) (e : α) (l : List α) : Option (List α) :=
  if (∃ x ∈ l, key x = key e) ∨ l.length < cap then some (putSorted key e l) else none

theorem putSorted_eq (key : α → κ) (e : α) (l : List α) : putSorted key e l =
    l.filter (fun x => key x < key e) ++ e :: l.filter (fun x => key e < key x) := rfl

theorem tryPut_eq (key : α → κ) (cap : ℕ) (e : α) (l : List α) : tryPut key cap e l =
    if (∃ x ∈ l, key x = key e) ∨ l.length < cap then some (putSorted key e l) else none := rfl

theorem KeySorted.inj (h : KeySorted key l) (hx : x ∈ l) (hy : y ∈ l) (hxy : key x = key y) :
    x = y := by
  induction l with
  | nil => cases hx
  | cons z l ih =>
    obtain ⟨hz, hl⟩ := pairwise_cons.1 h
    rcases mem_cons.1 hx with rfl | hx' <;> rcases mem_cons.1 hy with rfl | hy'
    · rfl
    · exact absurd hxy (hz y hy').ne
    · exact absurd hxy (hz x hx').ne'
    · exact ih hl hx' hy'

theorem keySorted_putSorted (h : KeySorted key l) (e : α) : KeySorted key (putSorted key e l) := by
  refine pairwise_append.2 ⟨h.filter _, pairwise_cons.2 ⟨fun y hy => ?_, h.filter _⟩, ?_⟩
  · exact of_decide_eq_true (mem_filter.1 hy).2
  · intro x hx y hy
    have hxe : key x < key e := of_decide_eq_true (mem_filter.1 hx).2
    rcases mem_cons.1 hy with rfl | hy
    · exact hxe
    · exact hxe.trans (of_decide_eq_true (mem_filter.1 hy).2)

/-- **What the table holds** after an entry was put into it: that entry, and those of other
keys. -/
theorem mem_putSorted : y ∈ putSorted key e l ↔ y = e ∨ y ∈ l ∧ key y ≠ key e := by
  rw [putSorted_eq, mem_append, mem_cons, mem_filter, mem_filter]
  constructor
  · rintro (⟨hy, hlt⟩ | rfl | ⟨hy, hlt⟩)
    · exact Or.inr ⟨hy, (of_decide_eq_true hlt).ne⟩
    · exact Or.inl rfl
    · exact Or.inr ⟨hy, (of_decide_eq_true hlt).ne'⟩
  · rintro (rfl | ⟨hy, hne⟩)
    · exact Or.inr (Or.inl rfl)
    · rcases hne.lt_or_gt with hlt | hlt
      · exact Or.inl ⟨hy, decide_eq_true hlt⟩
      · exact Or.inr (Or.inr ⟨hy, decide_eq_true hlt⟩)

theorem filter_lt_of_split (h₁ : ∀ x ∈ l₁, key x < key e) (h₂ : ∀ x ∈ l₂, ¬key x < key e) :
    (l₁ ++ l₂).filter (fun x => key x < key e) = l₁ := by
  rw [filter_append, filter_eq_self.2 fun x hx => decide_eq_true (h₁ x hx),
    filter_eq_nil_iff.2 fun x hx => by simpa using h₂ x hx, append_nil]

theorem filter_gt_of_split (h₁ : ∀ x ∈ l₁, ¬key e < key x) (h₂ : ∀ x ∈ l₂, key e < key x) :
    (l₁ ++ l₂).filter (fun x => key e < key x) = l₂ := by
  rw [filter_append, filter_eq_nil_iff.2 fun x hx => by simpa using h₁ x hx,
    filter_eq_self.2 fun x hx => decide_eq_true (h₂ x hx), nil_append]

/-- **An entry of a new key** goes between the smaller ones and the greater ones. -/
theorem putSorted_of_split (h₁ : ∀ x ∈ l₁, key x < key e) (h₂ : ∀ x ∈ l₂, key e < key x) :
    putSorted key e (l₁ ++ l₂) = l₁ ++ e :: l₂ := by
  rw [putSorted_eq, filter_lt_of_split h₁ fun x hx => (h₂ x hx).le.not_gt,
    filter_gt_of_split (fun x hx => (h₁ x hx).le.not_gt) h₂]

/-- **An entry of a key that is there** takes the place of the old one. -/
theorem putSorted_of_hit (h : KeySorted key (l₁ ++ x :: l₂)) (hx : key x = key e) :
    putSorted key e (l₁ ++ x :: l₂) = l₁ ++ e :: l₂ := by
  obtain ⟨-, hcons, hcross⟩ := pairwise_append.1 h
  have h₁ : ∀ y ∈ l₁, key y < key e := fun y hy => hx ▸ hcross y hy x mem_cons_self
  have h₂ : ∀ y ∈ l₂, key e < key y := fun y hy => hx ▸ (pairwise_cons.1 hcons).1 y hy
  have hgt : (l₁ ++ x :: l₂).filter (fun y => key e < key y) = l₂ := by
    have hsplit : l₁ ++ x :: l₂ = (l₁ ++ [x]) ++ l₂ := by rw [append_assoc, singleton_append]
    rw [hsplit]
    refine filter_gt_of_split (fun y hy => ?_) h₂
    rcases mem_append.1 hy with hy | hy
    · exact (h₁ y hy).le.not_gt
    · rw [mem_singleton.1 hy, hx]
      exact lt_irrefl _
  rw [putSorted_eq, hgt, filter_lt_of_split h₁]
  intro y hy
  rcases mem_cons.1 hy with rfl | hy
  · rw [hx]
    exact lt_irrefl _
  · exact (h₂ y hy).le.not_gt

theorem length_putSorted_le (key : α → κ) (e : α) (l : List α) :
    (putSorted key e l).length ≤ l.length + 1 := by
  induction l with
  | nil => exact le_rfl
  | cons x l ih =>
    rw [putSorted_eq, length_append, length_cons] at ih ⊢
    rw [filter_cons, filter_cons, length_cons]
    rcases lt_trichotomy (key x) (key e) with h | h | h
    · rw [if_pos (decide_eq_true h), if_neg (by simpa using h.le), length_cons]
      omega
    · rw [if_neg (by simp [h]), if_neg (by simp [h])]
      omega
    · rw [if_neg (by simpa using h.le), if_pos (decide_eq_true h), length_cons]
      omega

/-- A key that was there leaves the table as long as it was. -/
theorem length_putSorted_of_mem (hx : x ∈ l) (hkey : key x = key e) :
    (putSorted key e l).length ≤ l.length := by
  obtain ⟨l₁, l₂, rfl⟩ := append_of_mem hx
  have h := length_putSorted_le key e (l₁ ++ l₂)
  rw [length_append] at h
  have heq : putSorted key e (l₁ ++ x :: l₂) = putSorted key e (l₁ ++ l₂) := by
    simp only [putSorted, filter_append, filter_cons, hkey, lt_self_iff_false,
      decide_false, Bool.false_eq_true, if_false]
  rw [heq, length_append, length_cons]
  omega

theorem tryPut_eq_some (h : tryPut key cap e l = some l₁) : l₁ = putSorted key e l := by
  rw [tryPut_eq] at h
  split at h
  next => exact (Option.some.inj h).symm
  next => cases h

theorem length_tryPut_le (h : tryPut key cap e l = some l₁) (hl : l.length ≤ cap) :
    l₁.length ≤ cap := by
  obtain rfl := tryPut_eq_some h
  rw [tryPut_eq] at h
  split at h
  next hroom =>
    rcases hroom with ⟨x, hx, hkey⟩ | hlt
    · exact (length_putSorted_of_mem hx hkey).trans hl
    · exact (length_putSorted_le key e l).trans hlt
  next => cases h

end Put

/-! ### Many buckets -/

section Fill

variable {α κ ε β : Type*} [LinearOrder κ] [DecidableEq β] {key : α → κ} {cap : ℕ}
  {closed : β → Prop} [DecidablePred closed] {val : ε → α} {home : ε → β}

/-- Put one entry into its bucket, unless that is closed or full. -/
def putAt (key : α → κ) (cap : ℕ) (closed : β → Prop) [DecidablePred closed] (t : β → List α)
    (b : β) (x : α) : Option (β → List α) :=
  if closed b then none else (tryPut key cap x (t b)).map fun l => Function.update t b l

/-- **Fill a table**: put entries into their buckets in the order of a list. The second
component is the list of those that were taken. -/
def fill (key : α → κ) (cap : ℕ) (closed : β → Prop) [DecidablePred closed] (val : ε → α)
    (home : ε → β) : List ε → (β → List α) → (β → List α) × List ε
  | [], t => (t, [])
  | e :: es, t =>
    match putAt key cap closed t (home e) (val e) with
    | none => fill key cap closed val home es t
    | some t' => ((fill key cap closed val home es t').1,
        e :: (fill key cap closed val home es t').2)

variable {t t' : β → List α} {b : β} {x y : α} {e : ε}

theorem putAt_eq (key : α → κ) (cap : ℕ) (closed : β → Prop) [DecidablePred closed]
    (t : β → List α) (b : β) (x : α) : putAt key cap closed t b x =
      if closed b then none else (tryPut key cap x (t b)).map fun l => update t b l :=
  rfl

theorem fill_cons (key : α → κ) (cap : ℕ) (closed : β → Prop) [DecidablePred closed] (val : ε → α)
    (home : ε → β) (e : ε) (es : List ε) (t : β → List α) :
    fill key cap closed val home (e :: es) t = match putAt key cap closed t (home e) (val e) with
      | none => fill key cap closed val home es t
      | some t' => ((fill key cap closed val home es t').1,
          e :: (fill key cap closed val home es t').2) := rfl

theorem putAt_eq_some (h : putAt key cap closed t b x = some t') : ¬closed b ∧
    t' = update t b (putSorted key x (t b)) ∧
    tryPut key cap x (t b) = some (putSorted key x (t b)) := by
  rw [putAt_eq] at h
  split at h
  next => cases h
  next hopen =>
    obtain ⟨l, hl, rfl⟩ := Option.map_eq_some_iff.1 h
    obtain rfl := tryPut_eq_some hl
    exact ⟨hopen, rfl, hl⟩

theorem putAt_eq_none (h : putAt key cap closed t b x = none) (hopen : ¬closed b) :
    (∀ y ∈ t b, key y ≠ key x) ∧ cap ≤ (t b).length := by
  rw [putAt_eq, if_neg hopen, Option.map_eq_none_iff, tryPut_eq] at h
  split at h
  next => cases h
  next hfull =>
    obtain ⟨hkey, hcap⟩ := not_or.1 hfull
    exact ⟨fun y hy heq => hkey ⟨y, hy, heq⟩, not_lt.1 hcap⟩

/-- What is in the buckets after one entry was taken. -/
theorem mem_putAt (h : putAt key cap closed t b x = some t') (c : β) :
    y ∈ t' c ↔ c = b ∧ y = x ∨ y ∈ t c ∧ (c = b → key y ≠ key x) := by
  obtain ⟨-, rfl, -⟩ := putAt_eq_some h
  by_cases hc : c = b
  · subst hc
    rw [update_self, mem_putSorted]
    constructor
    · rintro (rfl | ⟨hy, hne⟩)
      · exact Or.inl ⟨rfl, rfl⟩
      · exact Or.inr ⟨hy, fun _ => hne⟩
    · rintro (⟨-, rfl⟩ | ⟨hy, hne⟩)
      · exact Or.inl rfl
      · exact Or.inr ⟨hy, hne rfl⟩
  · rw [update_of_ne hc]
    constructor
    · exact fun hy => Or.inr ⟨hy, fun heq => absurd heq hc⟩
    · rintro (⟨heq, -⟩ | ⟨hy, -⟩)
      · exact absurd heq hc
      · exact hy

/-- The entries that are taken come in the order of the list. -/
theorem fill_taken_sublist (key : α → κ) (cap : ℕ) (closed : β → Prop) [DecidablePred closed]
    (val : ε → α) (home : ε → β) (es : List ε) (t : β → List α) :
    ((fill key cap closed val home es t).2).Sublist es := by
  induction es generalizing t with
  | nil => exact Sublist.refl _
  | cons e es ih =>
    rw [fill_cons]
    split
    next => exact (ih t).cons e
    next t' _ => exact (ih t').cons_cons e

/-- Two lists, one after the other. -/
theorem fill_append (key : α → κ) (cap : ℕ) (closed : β → Prop) [DecidablePred closed]
    (val : ε → α) (home : ε → β) (es es' : List ε) (t : β → List α) :
    fill key cap closed val home (es ++ es') t =
      ((fill key cap closed val home es' (fill key cap closed val home es t).1).1,
        (fill key cap closed val home es t).2 ++
          (fill key cap closed val home es' (fill key cap closed val home es t).1).2) := by
  induction es generalizing t with
  | nil => rfl
  | cons e es ih =>
    rw [cons_append, fill_cons, fill_cons]
    split
    next => exact ih t
    next t' _ =>
      rw [ih t']
      rfl

/-- Buckets that get nothing are left alone. -/
theorem fill_other {es : List ε} (hb : ∀ e ∈ es, home e ≠ b) (t : β → List α) :
    (fill key cap closed val home es t).1 b = t b := by
  induction es generalizing t with
  | nil => rfl
  | cons e es ih =>
    have hb' : ∀ f ∈ es, home f ≠ b := fun f hf => hb f (mem_cons_of_mem e hf)
    rw [fill_cons]
    split
    next => exact ih hb' t
    next t' ht' =>
      obtain ⟨-, rfl, -⟩ := putAt_eq_some ht'
      rw [ih hb', update_of_ne (hb e mem_cons_self).symm]

theorem putAt_ordered {c : β} (h : putAt key cap closed t b x = some t')
    (hc : KeySorted key (t c) ∧ (t c).length ≤ cap) :
    KeySorted key (t' c) ∧ (t' c).length ≤ cap := by
  obtain ⟨-, rfl, hput⟩ := putAt_eq_some h
  by_cases hcb : c = b
  · subst hcb
    rw [update_self]
    exact ⟨keySorted_putSorted hc.1 _, length_tryPut_le hput hc.2⟩
  · rwa [update_of_ne hcb]

/-- **The other buckets stay sorted**, and within their bounds. -/
theorem fill_ordered (hb : KeySorted key (t b) ∧ (t b).length ≤ cap) (es : List ε) :
    KeySorted key ((fill key cap closed val home es t).1 b) ∧
      ((fill key cap closed val home es t).1 b).length ≤ cap := by
  induction es generalizing t with
  | nil => exact hb
  | cons e es ih =>
    rw [fill_cons]
    split
    next => exact ih hb
    next t' ht' =>
      exact ih (putAt_ordered ht' hb)

/-- **What is in the buckets at the end**: the entries that were taken, unless one of the same
key was taken later, and of the other keys what was there. -/
theorem mem_fill_iff (es : List ε) (t : β → List α) (b : β) (y : α) :
    y ∈ (fill key cap closed val home es t).1 b ↔
      (∃ l₁ e l₂, (fill key cap closed val home es t).2 = l₁ ++ e :: l₂ ∧ home e = b ∧
        val e = y ∧ ∀ f ∈ l₂, home f = b → key (val f) ≠ key y) ∨
      y ∈ t b ∧ ∀ e ∈ (fill key cap closed val home es t).2, home e = b → key (val e) ≠ key y := by
  induction es generalizing t with
  | nil =>
    constructor
    · exact fun hy => Or.inr ⟨hy, fun e he => by cases he⟩
    · rintro (⟨l₁, e, l₂, heq, -⟩ | ⟨hy, -⟩)
      · exact absurd heq (by simp [fill])
      · exact hy
  | cons e es ih =>
    rw [fill_cons]
    split
    next => exact ih t
    next t' ht' =>
      rw [ih t', mem_putAt ht']
      constructor
      · rintro (⟨l₁, f, l₂, heq, hrest⟩ | ⟨⟨hb, rfl⟩ | ⟨hy, hne⟩, hlater⟩)
        · exact Or.inl ⟨e :: l₁, f, l₂, congrArg (List.cons e) heq, hrest⟩
        · exact Or.inl ⟨[], e, _, rfl, hb.symm, rfl, hlater⟩
        · refine Or.inr ⟨hy, fun f hf hfb => ?_⟩
          rcases mem_cons.1 hf with rfl | hf
          · exact (hne hfb.symm).symm
          · exact hlater f hf hfb
      · rintro (⟨l₁, f, l₂, heq, hfb, hval, hlater⟩ | ⟨hy, hlater⟩)
        · cases l₁ with
          | nil =>
            obtain ⟨rfl, rfl⟩ := cons.inj heq
            exact Or.inr ⟨Or.inl ⟨hfb.symm, hval.symm⟩, hlater⟩
          | cons g l₁ =>
            exact Or.inl ⟨l₁, f, l₂, (cons.inj heq).2, hfb, hval, hlater⟩
        · refine Or.inr ⟨Or.inr ⟨hy, fun hb => ?_⟩, fun f hf =>
            hlater f (mem_cons_of_mem e hf)⟩
          exact (hlater e mem_cons_self hb.symm).symm

/-- A key that is in a bucket stays there. -/
theorem fill_key_of_key (es : List ε) (h : ∃ y ∈ t b, key y = key x) :
    ∃ y ∈ (fill key cap closed val home es t).1 b, key y = key x := by
  induction es generalizing t with
  | nil => exact h
  | cons e es ih =>
    rw [fill_cons]
    split
    next => exact ih h
    next t' ht' =>
      refine ih ?_
      obtain ⟨y, hy, hkey⟩ := h
      by_cases heq : b = home e ∧ key y = key (val e)
      · exact ⟨val e, (mem_putAt ht' b).2 (Or.inl ⟨heq.1, rfl⟩), heq.2.symm.trans hkey⟩
      · exact ⟨y, (mem_putAt ht' b).2 (Or.inr ⟨hy, fun hb hk => heq ⟨hb, hk⟩⟩), hkey⟩

/-- A full bucket takes no new key. -/
theorem fill_full_of_full (es : List ε) (hfull : cap ≤ (t b).length)
    (hord : KeySorted key (t b) ∧ (t b).length ≤ cap) (hkey : ∀ y ∈ t b, key y ≠ key x) :
    cap ≤ ((fill key cap closed val home es t).1 b).length ∧
      ∀ y ∈ (fill key cap closed val home es t).1 b, key y ≠ key x := by
  induction es generalizing t with
  | nil => exact ⟨hfull, hkey⟩
  | cons e es ih =>
    rw [fill_cons]
    split
    next => exact ih hfull hord hkey
    next t' ht' =>
      obtain ⟨-, rfl, hput⟩ := putAt_eq_some ht'
      by_cases hbe : b = home e
      · subst hbe
        have hroom : ∃ z ∈ t (home e), key z = key (val e) := by
          by_contra hno
          rw [tryPut_eq, if_neg (not_or.2 ⟨hno, not_lt.2 hfull⟩)] at hput
          cases hput
        obtain ⟨z, hz, hzkey⟩ := hroom
        refine ih ?_ ?_ ?_
        · -- the entry takes the place of the old one
          obtain ⟨l₁, l₂, heq⟩ := append_of_mem hz
          rw [update_self]
          rw [heq] at hord hfull ⊢
          rw [putSorted_of_hit hord.1 hzkey]
          rw [length_append, length_cons] at hfull ⊢
          exact hfull
        · rw [update_self]
          exact ⟨keySorted_putSorted hord.1 _, length_tryPut_le hput hord.2⟩
        · intro y hy
          rw [update_self, mem_putSorted] at hy
          rcases hy with rfl | ⟨hy, -⟩
          · exact hzkey ▸ hkey z hz
          · exact hkey y hy
      · refine ih ?_ ?_ ?_
        · rwa [update_of_ne hbe]
        · rwa [update_of_ne hbe]
        · rwa [update_of_ne hbe]

/-- **Which entries were taken**: those whose key is in their bucket at the end. -/
theorem fill_taken_iff {es : List ε} (hnodup : es.Nodup)
    (hord : ∀ e ∈ es, ¬closed (home e) → KeySorted key (t (home e)) ∧ (t (home e)).length ≤ cap)
    (he : e ∈ es) : e ∈ (fill key cap closed val home es t).2 ↔ ¬closed (home e) ∧
      ∃ y ∈ (fill key cap closed val home es t).1 (home e), key y = key (val e) := by
  induction es generalizing t with
  | nil => cases he
  | cons f es ih =>
    obtain ⟨hf, hnodup'⟩ := nodup_cons.1 hnodup
    have hsub := fun s => (fill_taken_sublist key cap closed val home es s).subset
    rw [fill_cons]
    split
    next hnone =>
      rcases mem_cons.1 he with rfl | he'
      · refine iff_of_false (fun hmem => hf (hsub t hmem)) ?_
        rintro ⟨hopen, y, hy, hkey⟩
        obtain ⟨hno, hfull⟩ := putAt_eq_none hnone hopen
        exact (fill_full_of_full es hfull (hord e mem_cons_self hopen) hno).2 y hy hkey
      · exact ih hnodup' (fun g hg => hord g (mem_cons_of_mem f hg)) he'
    next t' ht' =>
      rcases mem_cons.1 he with rfl | he'
      · refine iff_of_true mem_cons_self ⟨(putAt_eq_some ht').1, fill_key_of_key es ?_⟩
        exact ⟨val e, (mem_putAt ht' _).2 (Or.inl ⟨rfl, rfl⟩), rfl⟩
      · have hne : e ≠ f := fun heq => hf (heq ▸ he')
        rw [← ih hnodup' (fun g hg hg' => putAt_ordered ht'
          (hord g (mem_cons_of_mem f hg) hg')) he', mem_cons]
        exact ⟨fun h => h.resolve_left hne, Or.inr⟩

/-- **Why an entry was not taken**: its bucket is closed or full. -/
theorem fill_full_of_not_taken {es : List ε} (hnodup : es.Nodup)
    (hord : ∀ e ∈ es, ¬closed (home e) → KeySorted key (t (home e)) ∧ (t (home e)).length ≤ cap)
    (he : e ∈ es) (hnot : e ∉ (fill key cap closed val home es t).2) (hopen : ¬closed (home e)) :
    ((fill key cap closed val home es t).1 (home e)).length = cap := by
  induction es generalizing t with
  | nil => cases he
  | cons f es ih =>
    obtain ⟨hf, hnodup'⟩ := nodup_cons.1 hnodup
    have hcap : ((fill key cap closed val home (f :: es) t).1 (home e)).length ≤ cap :=
      (fill_ordered (hord e he hopen) (f :: es)).2
    rw [fill_cons] at hnot hcap ⊢
    split at hnot
    next hnone =>
      rw [hnone] at hcap
      rcases mem_cons.1 he with rfl | he'
      · obtain ⟨hno, hfull⟩ := putAt_eq_none hnone hopen
        exact le_antisymm hcap
          (fill_full_of_full es hfull (hord e mem_cons_self hopen) hno).1
      · exact ih hnodup' (fun g hg => hord g (mem_cons_of_mem f hg)) he' hnot
    next t' ht' =>
      rw [ht'] at hcap
      rcases mem_cons.1 he with rfl | he'
      · exact absurd mem_cons_self hnot
      · exact ih hnodup' (fun g hg hg' => putAt_ordered ht'
          (hord g (mem_cons_of_mem f hg) hg')) he' fun hmem => hnot (mem_cons_of_mem f hmem)

end Fill

end Lib

end Plan9
