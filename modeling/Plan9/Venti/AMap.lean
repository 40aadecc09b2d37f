import Plan9.Lib.BinarySearch
import Plan9.Venti.Index

/-!
# The arena map

The arenas of an index share one range of 64-bit addresses: `ix->amap` says which addresses
belong to which arena, and `okamap` checks that its ranges follow one another. `amapitoa` finds
the arena of an address by a binary search over the starts, and gives the address within the
arena.

The search starts at the second range, so that an address before the first one comes out in the
first one; and the test behind it lets the limit of a range pass as an address of the range. For
all other addresses `amapitoa` is right (`Plan9.Venti.amapItoA_decodes_iff`).
-/

namespace Plan9

namespace Venti

open Lib

/-- `AMap`, with the arena that `maparenas` has found for it. -/
structure ArenaRange (A : Type*) where
  start : UInt64
  stop : UInt64
  arena : Option A
deriving DecidableEq

variable {A : Type*} {amap : List (ArenaRange A)} {m : ArenaRange A} {a start stop last : UInt64}
  {what : String} {i j : ℕ}

namespace ArenaRange

/-- The range holds an address. -/
def Holds (m : ArenaRange A) (a : UInt64) : Prop := m.start ≤ a ∧ a < m.stop

instance (m : ArenaRange A) (a : UInt64) : Decidable (m.Holds a) :=
  inferInstanceAs (Decidable (_ ∧ _))

end ArenaRange

/-! ### The check -/

/-- The loop of `okamap` from range `i` on; it gives back where the last range ends. -/
def okAMapFrom (what : String) : ℕ → UInt64 → List (ArenaRange A) → Except String UInt64
  | _, last, [] => .ok last
  | i, last, m :: ms =>
    if m.start < last then
      .error (if i = 0 then "invalid start address in " ++ what
        else "overlapping ranges in " ++ what)
    else if m.stop < m.start then .error ("invalid range in " ++ what)
    else okAMapFrom what (i + 1) m.stop ms

/-- `okamap`. -/
def okAMap (am : List (ArenaRange A)) (start stop : UInt64) (what : String) : Except String Unit :=
  match okAMapFrom what 0 start am with
  | .error e => .error e
  | .ok last =>
    if last > stop then .error (s!"bad ending address {last} beyond {stop} in " ++ what)
    else .ok ()

/-- Ranges that follow one another, the first from an address on. -/
def Following : UInt64 → List (ArenaRange A) → Prop
  | _, [] => True
  | last, m :: ms => last ≤ m.start ∧ m.start ≤ m.stop ∧ Following m.stop ms

theorem following_of_okAMapFrom (h : okAMapFrom what i start amap = .ok last) :
    Following start amap := by
  induction amap generalizing i start with
  | nil => trivial
  | cons m ms ih =>
    rw [okAMapFrom] at h
    split at h
    next => cases h
    next hstart =>
      split at h
      next => cases h
      next hstop => exact ⟨UInt64.not_lt.1 hstart, UInt64.not_lt.1 hstop, ih h⟩

/-- **What `okamap` accepts** are ranges that follow one another. -/
theorem following_of_okAMap (h : okAMap amap start stop what = .ok ()) : Following start amap := by
  rw [okAMap] at h
  split at h
  next => cases h
  next hlast => exact following_of_okAMapFrom hlast

theorem Following.start_le (h : Following start amap) (hm : m ∈ amap) :
    start ≤ m.start ∧ m.start ≤ m.stop := by
  induction amap generalizing start with
  | nil => cases hm
  | cons n ms ih =>
    obtain ⟨hstart, hstop, hrest⟩ := h
    rcases List.mem_cons.1 hm with rfl | hm
    · exact ⟨hstart, hstop⟩
    · obtain ⟨hle, hle'⟩ := ih hrest hm
      exact ⟨UInt64.le_trans (UInt64.le_trans hstart hstop) hle, hle'⟩

/-- Of two ranges the first one ends before the second one starts. -/
theorem Following.stop_le_start (h : Following start amap) {n : ArenaRange A} (hij : i < j)
    (hi : amap[i]? = some m) (hj : amap[j]? = some n) : m.stop ≤ n.start := by
  induction amap generalizing start i j with
  | nil => cases hi
  | cons k ms ih =>
    obtain ⟨j, rfl⟩ := Nat.exists_eq_add_one_of_ne_zero (Nat.ne_zero_of_lt hij)
    rw [List.getElem?_cons_succ] at hj
    cases i with
    | zero =>
      cases hi
      exact (h.2.2.start_le (List.mem_of_getElem? hj)).1
    | succ i =>
      rw [List.getElem?_cons_succ] at hi
      exact ih h.2.2 (Nat.lt_of_succ_lt_succ hij) hi hj

/-! ### The search -/

/-- `amapitoa`: the arena of an address, and the address within the arena. -/
def amapItoA (amap : List (ArenaRange A)) (a : UInt64) : Option (A × UInt64) :=
  match amap[searchLast (fun m => amap[m]?.any fun m => decide (m.start ≤ a)) amap.length]? with
  | none => none
  | some m =>
    -- "unmapped address passed to amapitoa"
    if a > m.stop then none
    else
      match m.arena with
      -- "unmapped arena selected in amapitoa"
      | none => none
      | some arena => some (arena, a - m.start)

/-- **Where the search ends**: at the last range that starts at the address or before it, or at
the first range. -/
theorem amapItoA_search (h : Following start amap) (hne : amap ≠ []) (a : UInt64) :
    ∃ l m, amap[l]? = some m ∧ (l = 0 ∨ m.start ≤ a) ∧
      (∀ j n, l < j → amap[j]? = some n → a < n.start) ∧
      amapItoA amap a = if a > m.stop then none else
        m.arena.map fun arena => (arena, a - m.start) := by
  have hget : ∀ j < amap.length, ∃ n, amap[j]? = some n :=
    fun j hj => ⟨_, List.getElem?_eq_getElem hj⟩
  obtain ⟨hlt, hpass, hlast⟩ := searchLast_spec
    (p := fun m => amap[m]?.any fun m => decide (m.start ≤ a)) (List.length_pos_iff.2 hne)
    fun i j hij hj hp => by
      obtain ⟨n, hn⟩ := hget j hj
      obtain ⟨k, hk⟩ := hget i (hij.trans_lt hj)
      rw [hn, Option.any_some, decide_eq_true_eq] at hp
      rw [hk, Option.any_some, decide_eq_true_eq]
      rcases hij.lt_or_eq with hlt | rfl
      · have hstop := (h.start_le (List.mem_of_getElem? hk)).2
        exact UInt64.le_trans (UInt64.le_trans hstop (h.stop_le_start hlt hk hn)) hp
      · obtain rfl := Option.some.inj (hn.symm.trans hk)
        exact hp
  obtain ⟨m, hm⟩ := hget _ hlt
  refine ⟨_, m, hm, hpass.imp_right fun hp => ?_, fun j n hj hn => ?_, ?_⟩
  · rw [hm, Option.any_some, decide_eq_true_eq] at hp
    exact hp
  · have hfail := hlast j hj (List.getElem?_eq_some_iff.1 hn).1
    rw [hn, Option.any_some, decide_eq_false_iff_not] at hfail
    exact UInt64.not_le.1 hfail
  · rw [amapItoA, hm]
    cases harena : m.arena with
    | none =>
      simp only [harena]
      rfl
    | some arena =>
      simp only [harena]
      rfl

/-- **What the caller of `amapitoa` may expect**: the arena whose range holds the address, and the
place in it; nothing, if no range does. -/
def Decodes (amap : List (ArenaRange A)) (a : UInt64) : Prop :=
  (∀ m ∈ amap, m.Holds a → ∃ arena, m.arena = some arena ∧
    amapItoA amap a = some (arena, a - m.start)) ∧
  ((∀ m ∈ amap, ¬m.Holds a) → amapItoA amap a = none)

/-- **Which addresses are decoded**: all but those that no range holds and that are before the
first range, or the limit of a range. -/
theorem amapItoA_decodes_iff (hok : okAMap amap start stop what = .ok ())
    (hmapped : ∀ m ∈ amap, m.arena.isSome = true) (hne : amap ≠ []) (a : UInt64) :
    Decodes amap a ↔ (∃ m ∈ amap, m.Holds a) ∨
      (∀ m, amap.head? = some m → m.start ≤ a) ∧ ∀ m ∈ amap, a ≠ m.stop := by
  have h := following_of_okAMap hok
  obtain ⟨l, m, hl, hle, hafter, heq⟩ := amapItoA_search h hne a
  have hm := List.mem_of_getElem? hl
  obtain ⟨arena, harena⟩ := Option.isSome_iff_exists.1 (hmapped m hm)
  rw [harena] at heq
  -- a range that holds the address is the one that was found
  have hfound : ∀ n ∈ amap, n.Holds a → n = m := by
    rintro n hn ⟨hstart, hstop⟩
    obtain ⟨j, hj⟩ := List.getElem?_of_mem hn
    rcases lt_trichotomy j l with hjl | rfl | hlj
    · have hstart' : m.start ≤ a := hle.resolve_left (Nat.ne_zero_of_lt hjl)
      have := h.stop_le_start hjl hj hl
      exact absurd (UInt64.le_trans this hstart') (UInt64.not_le.2 hstop)
    · exact Option.some.inj (hj.symm.trans hl)
    · exact absurd hstart (UInt64.not_le.2 (hafter j n hlj hj))
  have hholds : ∀ n ∈ amap, n.Holds a → ∃ arena, n.arena = some arena ∧
      amapItoA amap a = some (arena, a - n.start) := by
    intro n hn hna
    obtain rfl := hfound n hn hna
    refine ⟨arena, harena, ?_⟩
    rw [heq, if_neg (UInt64.not_lt.2 (UInt64.le_of_lt hna.2))]
    rfl
  constructor
  · rintro ⟨-, hnone⟩
    by_cases hany : ∃ n ∈ amap, n.Holds a
    · exact Or.inl hany
    · have hno : ∀ n ∈ amap, ¬n.Holds a := fun n hn hna => hany ⟨n, hn, hna⟩
      have hbeyond : m.stop < a := by
        by_contra hstop
        have := hnone hno
        rw [heq, if_neg hstop] at this
        cases this
      have hstart : m.start ≤ a :=
        UInt64.le_trans (h.start_le hm).2 (UInt64.le_of_lt hbeyond)
      refine Or.inr ⟨fun n hn => ?_, fun n hn => ?_⟩
      · have hn0 : amap[0]? = some n := by rw [← List.head?_eq_getElem?, hn]
        rcases Nat.eq_zero_or_pos l with rfl | hpos
        · obtain rfl := Option.some.inj (hl.symm.trans hn0)
          exact hstart
        · have hstop := (h.start_le (List.mem_of_getElem? hn0)).2
          exact UInt64.le_trans (UInt64.le_trans hstop (h.stop_le_start hpos hn0 hl)) hstart
      · rintro rfl
        -- the ranges up to the one found end at its limit or before
        obtain ⟨j, hj⟩ := List.getElem?_of_mem hn
        rcases lt_trichotomy j l with hjl | rfl | hlj
        · have hle' := h.stop_le_start hjl hj hl
          exact absurd (UInt64.le_trans hle' (h.start_le hm).2) (UInt64.not_le.2 hbeyond)
        · obtain rfl := Option.some.inj (hj.symm.trans hl)
          exact absurd hbeyond (UInt64.lt_irrefl _)
        · have hlt := hafter j n hlj hj
          exact absurd (h.start_le hn).2 (UInt64.not_le.2 hlt)
  · rintro (⟨n, hn, hna⟩ | ⟨hfirst, hstops⟩)
    · exact ⟨hholds, fun hno => absurd hna (hno n hn)⟩
    · refine ⟨hholds, fun hno => ?_⟩
      have hstart : m.start ≤ a := by
        rcases hle with rfl | hle
        · exact hfirst m (by rw [List.head?_eq_getElem?, hl])
        · exact hle
      have hge : m.stop ≤ a := UInt64.not_lt.1 fun hlt => hno m hm ⟨hstart, hlt⟩
      have hne' := hstops m hm
      rw [heq, if_pos (UInt64.lt_of_le_of_ne hge hne'.symm)]

/-- An arena map of one arena. -/
def oneArena : List (ArenaRange ℕ) := [⟨10, 20, some 0⟩]

/-- **The limit of a range is decoded**, and so is an address before the first range. -/
theorem oneArena_not_decodes : okAMap oneArena 10 30 "index" = .ok () ∧
    ¬Decodes oneArena 20 ∧ ¬Decodes oneArena 5 := by
  refine ⟨by decide, fun h => ?_, fun h => ?_⟩
  · exact absurd (h.2 (by decide)) (by decide)
  · exact absurd (h.2 (by decide)) (by decide)

/-- An address in the range. -/
theorem oneArena_decodes : okAMap oneArena 10 30 "index" = .ok () ∧ Decodes oneArena 15 := by
  have hok : okAMap oneArena 10 30 "index" = .ok () := by decide
  refine ⟨hok, (amapItoA_decodes_iff hok (by decide) (by decide) 15).2 (Or.inl ?_)⟩
  exact ⟨_, List.mem_singleton.2 rfl, by decide⟩

end Venti

end Plan9
