import Mathlib.Data.List.Basic

/-!
# Normal forms of paths

A path is a list of elements, two of which are special: `cur` names the place where one is, and `up`
goes back over the element before it. A path is processed from the left: what is left of it so far
is a stack (`Plan9.Lib.PathNorm.push`). Going up from the start stays there in a rooted path, and is
kept in others.

* `Plan9.Lib.PathNorm.IsNormal` – the normal forms: some elements `up`, unless the path is rooted,
  and then no special ones;
* `Plan9.Lib.PathNorm.isNormal_norm` and `Plan9.Lib.PathNorm.norm_eq_self` – a processed path is
  normal, and is not changed any more.
-/

namespace Plan9

namespace Lib

namespace PathNorm

open List

variable {α : Type*} [DecidableEq α] (cur up : α) (rooted : Bool)

/-- One more element. -/
def push (st : List α) (e : α) : List α :=
  if e = cur then st
  else if e = up then
    if st = [] ∨ st.getLast? = some up then if rooted then st else st ++ [up]
    else st.dropLast
  else st ++ [e]

/-- **The normal form** of a path. -/
def norm (es : List α) : List α := es.foldl (push cur up rooted) []

/-- The paths in normal form. -/
def IsNormal (st : List α) : Prop :=
  ∃ k ns, st = List.replicate k up ++ ns ∧ (rooted = true → k = 0) ∧ ∀ e ∈ ns, e ≠ cur ∧ e ≠ up

variable {cur up rooted} {st es ns : List α} {e : α} {k : ℕ}

theorem push_cur : push cur up rooted st cur = st := if_pos rfl

theorem push_of_ne (hcur : e ≠ cur) (hup : e ≠ up) : push cur up rooted st e = st ++ [e] := by
  rw [push, if_neg hcur, if_neg hup]

section

variable (hne : up ≠ cur)

include hne

/-- Going up from the start. -/
theorem push_up_replicate (hk : rooted = true → k = 0) :
    push cur up rooted (replicate k up) up = replicate (if rooted then 0 else k + 1) up := by
  have hlast : replicate k up = [] ∨ (replicate k up).getLast? = some up := by
    cases k with
    | zero => exact .inl rfl
    | succ k =>
      rw [replicate_succ', List.getLast?_concat]
      exact .inr rfl
  rw [push, if_neg hne, if_pos rfl, if_pos hlast]
  cases rooted with
  | true =>
    rw [if_pos rfl, if_pos rfl, hk rfl]
  | false =>
    rw [if_neg Bool.false_ne_true, if_neg Bool.false_ne_true, replicate_succ']

/-- Going back over an element. -/
theorem push_up_concat (he : e ≠ up) : push cur up rooted (st ++ [e]) up = st := by
  have hlast : ¬(st ++ [e] = [] ∨ (st ++ [e]).getLast? = some up) := by
    rw [List.getLast?_concat]
    rintro (h | h)
    · exact append_ne_nil_of_right_ne_nil st (cons_ne_nil e []) h
    · exact he (Option.some.inj h)
  rw [push, if_neg hne, if_pos rfl, if_neg hlast, dropLast_concat]

/-- **An element more keeps the form normal.** -/
theorem IsNormal.push (h : IsNormal cur up rooted st) (e : α) :
    IsNormal cur up rooted (push cur up rooted st e) := by
  obtain ⟨k, ns, rfl, hk, hns⟩ := h
  by_cases hcur : e = cur
  · rw [hcur, push_cur]
    exact ⟨k, ns, rfl, hk, hns⟩
  by_cases hup : e = up
  · subst hup
    rcases ns.eq_nil_or_concat' with rfl | ⟨ns, f, rfl⟩
    · rw [append_nil, push_up_replicate hne hk]
      refine ⟨_, [], (append_nil _).symm, fun hr => if_pos hr, hns⟩
    · rw [← append_assoc, push_up_concat hne (hns f (by simp)).2]
      exact ⟨k, ns, rfl, hk, fun x hx => hns x (mem_append_left _ hx)⟩
  · rw [push_of_ne hcur hup, append_assoc]
    refine ⟨k, ns ++ [e], rfl, hk, fun x hx => ?_⟩
    rcases mem_append.1 hx with hx | hx
    · exact hns x hx
    · rw [mem_singleton.1 hx]
      exact ⟨hcur, hup⟩

theorem IsNormal.foldl (h : IsNormal cur up rooted st) (es : List α) :
    IsNormal cur up rooted (es.foldl (PathNorm.push cur up rooted) st) := by
  induction es generalizing st with
  | nil => exact h
  | cons e es ih => exact ih (h.push hne e)

/-- **A processed path is in normal form.** -/
theorem isNormal_norm (es : List α) :
    IsNormal cur up rooted (norm cur up rooted es) :=
  IsNormal.foldl hne ⟨0, [], rfl, fun _ => rfl, fun _ h => absurd h not_mem_nil⟩ es

/-- **A normal form is not changed.** -/
theorem norm_eq_self (h : IsNormal cur up rooted es) :
    norm cur up rooted es = es := by
  have hplain : ∀ (st : List α) (ns : List α), (∀ e ∈ ns, e ≠ cur ∧ e ≠ up) →
      ns.foldl (push cur up rooted) st = st ++ ns := by
    intro st ns hns
    induction ns generalizing st with
    | nil => exact (append_nil st).symm
    | cons e ns ih =>
      obtain ⟨hcur, hup⟩ := hns e mem_cons_self
      rw [foldl_cons, push_of_ne hcur hup, ih _ fun x hx => hns x (mem_cons_of_mem _ hx),
        append_assoc, singleton_append]
  obtain ⟨k, ns, rfl, hk, hns⟩ := h
  have hups : (replicate k up).foldl (push cur up rooted) [] = replicate k up := by
    induction k with
    | zero => rfl
    | succ k ih =>
      have hroot : rooted = false := by
        cases rooted with
        | true => exact absurd (hk rfl) (Nat.succ_ne_zero k)
        | false => rfl
      subst hroot
      have hfalse : ∀ n : ℕ, false = true → n = 0 := fun _ h => absurd h Bool.false_ne_true
      rw [replicate_succ', foldl_concat, ih (hfalse k), push_up_replicate hne (hfalse k),
        if_neg Bool.false_ne_true, replicate_succ']
  rw [norm, foldl_append, hups, hplain _ _ hns]

end

theorem mem_of_mem_push {x : α} (h : x ∈ push cur up rooted st e) : x ∈ st ∨ x = e := by
  rw [push] at h
  split_ifs at h with hcur hup
  · exact .inl h
  · exact .inl h
  · rw [hup]
    exact (mem_append.1 h).imp_right mem_singleton.1
  · exact .inl (dropLast_subset st h)
  · exact (mem_append.1 h).imp_right mem_singleton.1

/-- Nothing new comes in. -/
theorem mem_of_mem_norm {x : α} (h : x ∈ norm cur up rooted es) : x ∈ es := by
  have hfold : ∀ (es st : List α), x ∈ es.foldl (push cur up rooted) st → x ∈ st ∨ x ∈ es := by
    intro es
    induction es with
    | nil => exact fun st hx => .inl hx
    | cons e es ih =>
      intro st hx
      rcases ih _ hx with hx | hx
      · rcases mem_of_mem_push hx with hx | rfl
        · exact .inl hx
        · exact .inr mem_cons_self
      · exact .inr (mem_cons_of_mem _ hx)
  exact (hfold es [] h).resolve_left not_mem_nil

end PathNorm

end Lib

end Plan9
