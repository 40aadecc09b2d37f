import Plan9.Libc.CleanName

/-!
# What `cleanname` does

Each loop of `cleanname` is followed over the memory, and the whole of it is compared with the name
that is wanted.

* `Plan9.Libc.CleanName.dedup_spec`, `Plan9.Libc.CleanName.pass_spec` and
  `Plan9.Libc.CleanName.finish_spec` – the two passes and the end;
* `Plan9.Libc.CleanName.cleanname_spec` and `Plan9.Libc.CleanName.cleanname_none` – names that stay
  in memory, and those of devices without a slash, which do not;
* `Plan9.Libc.CleanName.cleanname_iff` – for which names the code finds what is wanted, and finds it
  again when it is called once more.
-/

namespace Plan9

namespace Libc

namespace CleanName

open Lib List Option

/-! ### Memory -/

section Memory

variable {m m' : Buffer} {l e : List UInt8} {c : UInt8} {n s d d0 i k : ℕ}

theorem at_nil (m : Buffer) (i : ℕ) : At m i [] := rfl

theorem at_append {l' : List UInt8} : At m i (l ++ l') ↔ At m i l ∧ At m (i + l.length) l' := by
  rw [At, length_append, Buffer.load_add]
  constructor
  · intro h
    exact append_inj h (Buffer.length_load m i l.length)
  · rintro ⟨hl, hl'⟩
    rw [At] at hl hl'
    rw [hl, hl']

theorem at_cons : At m i (c :: l) ↔ m i = c ∧ At m (i + 1) l := by
  rw [← singleton_append, at_append]
  refine and_congr_left fun _ => ?_
  change [m i] = [c] ↔ m i = c
  exact singleton_inj

theorem At.congr (h : At m i l) (hm : ∀ j, i ≤ j → j < i + l.length → m' j = m j) : At m' i l := by
  rw [At, ← Buffer.load_congr fun k hk => (hm (i + k) (Nat.le_add_right i k) (by omega)).symm]
  exact h

theorem At.getElem (h : At m i l) (hk : k < l.length) : m (i + k) = l[k] := by
  have hlen : k < (m.load i l.length).length := by rwa [Buffer.length_load]
  rw [← Buffer.getElem_load hlen]
  exact getElem_of_eq h hlen

theorem rd_of_lt (h : i < n) : rd n m i = some (m i) := if_pos h

theorem wr_of_lt (h : i < n) : wr n m i c = some (m.store i [c]) := if_pos h

theorem store_self (m : Buffer) (i : ℕ) (c : UInt8) : m.store i [c] i = c :=
  Buffer.store_add (k := 0) (l := [c]) (i := i) Nat.one_pos

theorem store_of_ne {j : ℕ} (h : j ≠ i) : m.store i [c] j = m j := by
  rcases Nat.lt_or_gt_of_ne h with h | h
  · exact Buffer.store_of_lt h
  · exact Buffer.store_of_ge h

/-! ### The loops -/

/-- The slashes are counted. -/
theorem slashes_eq (hk : ∀ j < k, m (s + j) = slash) (hend : m (s + k) ≠ slash)
    (hn : s + k < n) : slashes n m s = some k := by
  induction k generalizing s with
  | zero =>
    rw [Nat.add_zero] at hend
    rw [slashes, if_pos (by omega), if_neg hend]
  | succ k ih =>
    have hstep : slashes n m (s + 1) = some k := by
      refine ih (fun j hj => ?_) ?_ (by omega)
      · have := hk (j + 1) (by omega)
        rwa [← Nat.add_assoc, Nat.add_right_comm] at this
      · rwa [← Nat.add_assoc, Nat.add_right_comm] at hend
    have hfirst : m s = slash := hk 0 (Nat.succ_pos k)
    rw [slashes, if_pos (by omega), if_pos hfirst, hstep]
    rfl

/-- An element is copied down. -/
theorem copyElem_spec (he : ∀ b ∈ e, ¬SEP b) (hat : At m s e) (hend : SEP (m (s + e.length)))
    (hn : s + e.length < n) (hle : d ≤ s) : ∃ m', copyElem n m s d = some (m', e.length) ∧
      At m' d e ∧ ∀ j, j < d ∨ d + e.length ≤ j → m' j = m j := by
  induction e generalizing m s d with
  | nil =>
    rw [length_nil, Nat.add_zero] at hend hn
    rw [copyElem, if_pos hn, if_pos hend]
    exact ⟨m, rfl, rfl, fun _ _ => rfl⟩
  | cons c e ih =>
    obtain ⟨rfl, hrest⟩ := at_cons.1 hat
    rw [length_cons] at hend hn ⊢
    have hkeep : ∀ j, s + 1 ≤ j → m.store d [m s] j = m j := fun j hj => store_of_ne (by omega)
    obtain ⟨m', hcopy, hat', hother⟩ := ih (m := m.store d [m s]) (s := s + 1) (d := d + 1)
      (fun b hb => he b (mem_cons_of_mem _ hb)) (hrest.congr fun j hj _ => hkeep j hj)
      (by rw [hkeep _ (by omega), Nat.add_assoc, Nat.add_comm 1]; exact hend) (by omega) (by omega)
    refine ⟨m', ?_, at_cons.2 ⟨?_, hat'⟩, fun j hj => ?_⟩
    · rw [copyElem, if_pos (by omega), if_neg (he (m s) mem_cons_self), wr_of_lt (by omega),
        bind_eq_bind, bind_some, hcopy]
      rfl
    · rw [hother d (by omega), store_self]
    · rw [hother j (by omega), store_of_ne (by omega)]

/-- Slashes at the beginning. -/
theorem exists_slashes (l : List UInt8) : ∃ k t, l = replicate k slash ++ t ∧
    t.head? ≠ some slash ∧ squeeze true l = squeeze false t := by
  induction l with
  | nil => exact ⟨0, [], rfl, (some_ne_none _).symm, rfl⟩
  | cons c l ih =>
    by_cases hc : c = slash
    · obtain ⟨k, t, rfl, hhead, hsq⟩ := ih
      rw [hc]
      exact ⟨k + 1, t, rfl, hhead, hsq⟩
    · refine ⟨0, c :: l, rfl, fun h => hc (some.inj h), ?_⟩
      rw [squeeze, squeeze, if_neg hc, if_neg hc]

/-- The slashes at the beginning are counted, in front of something else. -/
theorem slashes_spec {t : List UInt8} (hat : At m s (replicate k slash ++ t))
    (hend : m (s + (replicate k slash ++ t).length) = 0)
    (hn : s + (replicate k slash ++ t).length < n) (hhead : t.head? ≠ some slash) :
    slashes n m s = some k := by
  rw [length_append, length_replicate] at hend hn
  obtain ⟨hrep, ht⟩ := at_append.1 hat
  rw [length_replicate] at ht
  refine slashes_eq (fun j hj => ?_) ?_ (by omega)
  · have hget := congrArg (fun l => l[j]?) hrep
    simp only [length_replicate] at hget
    rw [List.getElem?_eq_getElem (by simpa using hj), Buffer.getElem_load,
      List.getElem?_eq_getElem (by simpa using hj), getElem_replicate] at hget
    exact some.inj hget
  · cases t with
    | nil =>
      rw [length_nil, Nat.add_zero] at hend
      rw [hend]
      decide
    | cons c t =>
      rw [(at_cons.1 ht).1]
      exact fun h => hhead (congrArg some h)

/-- **The first pass** takes repeated slashes out. -/
theorem dedup_spec (h0 : 0 ∉ l) (hat : At m s l) (hend : m (s + l.length) = 0)
    (hn : s + l.length < n) (hle : d ≤ s) : ∃ m',
      dedup n m s d = some (m', d + (squeeze false l).length) ∧ At m' d (squeeze false l) ∧
      (squeeze false l).length ≤ l.length ∧ ∀ j < d, m' j = m j := by
  induction hlen : l.length using Nat.strong_induction_on generalizing l m s d with
  | _ k ih =>
    subst hlen
    cases l with
    | nil =>
      rw [length_nil, Nat.add_zero] at hend hn
      rw [dedup, if_pos hn, if_pos hend]
      exact ⟨m, rfl, rfl, le_rfl, fun _ _ => rfl⟩
    | cons c l =>
      obtain ⟨rfl, hrest⟩ := at_cons.1 hat
      obtain ⟨hc0, hl0⟩ := not_or.1 (mem_cons.not.1 h0)
      rw [length_cons] at hend hn
      have hkeep : ∀ j, s + 1 ≤ j → m.store d [m s] j = m j := fun j hj => store_of_ne (by omega)
      have hself : m.store d [m s] s = m s := by
        rcases eq_or_ne s d with rfl | hne
        · exact store_self m s (m s)
        · exact store_of_ne hne
      have hat' : At (m.store d [m s]) (s + 1) l := hrest.congr fun j hj _ => hkeep j hj
      have hend' : m.store d [m s] (s + 1 + l.length) = 0 := by
        rw [hkeep _ (by omega), Nat.add_assoc, Nat.add_comm 1]
        exact hend
      rw [dedup, if_pos (by omega), if_neg (Ne.symm hc0), wr_of_lt (by omega),
        bind_eq_bind, bind_some, hself]
      by_cases hc : m s = slash
      · -- the slashes behind are skipped
        obtain ⟨k, t, rfl, hhead, hsq⟩ := exists_slashes l
        have hk : slashes n (m.store d [m s]) (s + 1) = some k :=
          slashes_spec hat' hend' (by omega) hhead
        rw [length_append, length_replicate] at hend' hn
        obtain ⟨-, ht⟩ := at_append.1 hat'
        rw [length_replicate] at ht
        obtain ⟨m', hded, hat'', hlen, hother⟩ := ih t.length
          (by rw [length_cons, length_append]; omega) (fun h => hl0 (mem_append_right _ h))
          (s := s + k + 1) (d := d + 1)
          (by rwa [Nat.add_right_comm s k 1])
          (by rwa [Nat.add_right_comm s k 1, Nat.add_assoc (s + 1)]) (by omega) (by omega) rfl
        rw [if_pos hc, hk, bind_eq_bind, bind_some, hded, hc, squeeze_false_slash, hsq]
        refine ⟨m', ?_, at_cons.2 ⟨?_, hat''⟩, ?_, fun j hj => ?_⟩
        · rw [length_cons, Nat.add_assoc, Nat.add_comm 1]
        · rw [hother d (by omega), store_self, hc]
        · simp
          omega
        · rw [hother j (by omega), store_of_ne (by omega)]
      · obtain ⟨m', hded, hat'', hlen, hother⟩ := ih l.length (Nat.lt_succ_self _) hl0
          (s := s + 0 + 1) (d := d + 1) hat' hend' (by omega) (by omega) rfl
        rw [if_neg hc, bind_eq_bind, bind_some, hded, squeeze, if_neg hc]
        refine ⟨m', ?_, at_cons.2 ⟨?_, hat''⟩, ?_, fun j hj => ?_⟩
        · rw [length_cons, Nat.add_assoc, Nat.add_comm 1]
        · rw [hother d (by omega), store_self]
        · simpa using hlen
        · rw [hother j (by omega), store_of_ne (by omega)]

/-! ### The second pass, element by element -/

theorem isDot_eq (he : ∀ b ∈ e, ¬SEP b) (hne : e ≠ []) (hat : At m s e)
    (hend : SEP (m (s + e.length))) (hn : s + e.length < n) :
    isDot n m s = some (decide (e = [dot])) := by
  obtain _ | ⟨c, e⟩ := e
  · exact absurd rfl hne
  obtain ⟨rfl, hrest⟩ := at_cons.1 hat
  rw [length_cons] at hend hn
  rw [isDot]
  by_cases hc : m s = dot
  · rw [if_pos hc, rd_of_lt (by omega), map_some, hc]
    cases e with
    | nil => exact congrArg some (decide_eq_decide.2 (iff_of_true hend rfl))
    | cons c' e =>
      have hc' := he c' (by simp)
      rw [(at_cons.1 hrest).1]
      exact congrArg some (decide_eq_decide.2 (iff_of_false hc' (by simp)))
  · rw [if_neg hc]
    exact congrArg some (decide_eq_false fun h => hc (cons.inj h).1).symm

theorem isDotDot_eq (he : ∀ b ∈ e, ¬SEP b) (hne : e ≠ []) (hat : At m s e)
    (hend : SEP (m (s + e.length))) (hn : s + e.length < n) :
    isDotDot n m s = some (decide (e = [dot, dot])) := by
  obtain _ | ⟨c, e⟩ := e
  · exact absurd rfl hne
  obtain ⟨rfl, hrest⟩ := at_cons.1 hat
  rw [length_cons] at hend hn
  have hsep : ¬SEP dot := by decide
  rw [isDotDot]
  by_cases hc : m s = dot
  · rw [if_pos hc, rd_of_lt (by omega), bind_some, hc]
    cases e with
    | nil =>
      rw [length_nil, Nat.zero_add] at hend
      rw [if_neg (fun h : m (s + 1) = dot => hsep (h ▸ hend))]
      exact congrArg some (decide_eq_false (by simp)).symm
    | cons c' e =>
      obtain ⟨rfl, hrest'⟩ := at_cons.1 hrest
      rw [length_cons] at hend hn
      by_cases hc' : m (s + 1) = dot
      · rw [if_pos hc', rd_of_lt (by omega), map_some, hc']
        cases e with
        | nil => exact congrArg some (decide_eq_decide.2 (iff_of_true hend rfl))
        | cons c'' e =>
          have hc'' := he c'' (by simp)
          have hget : m (s + 2) = c'' := (at_cons.1 hrest').1
          rw [hget]
          exact congrArg some (decide_eq_decide.2 (iff_of_false hc'' (by simp)))
      · rw [if_neg hc']
        refine congrArg some (decide_eq_false fun h => hc' ?_).symm
        exact (cons.inj (cons.inj h).2).1
  · rw [if_neg hc]
    exact congrArg some (decide_eq_false fun h => hc (cons.inj h).1).symm

/-- The walk back over an element stops behind the slash in front of it. -/
theorem back_eq {D j : ℕ} (hj : ∀ i < j, m (D + i) ≠ slash)
    (hstop : D = d0 ∨ d0 < D ∧ m (D - 1) = slash) (hn : D + j ≤ n) :
    back n m d0 (D + j) = some D := by
  induction j with
  | zero =>
    rw [Nat.add_zero] at hn ⊢
    cases D with
    | zero => rfl
    | succ D =>
      rw [back]
      rcases hstop with rfl | ⟨hlt, hsl⟩
      · rw [if_neg (by omega)]
      · have hsl' : m D = slash := hsl
        rw [if_pos hlt, rd_of_lt (by omega), bind_some, if_neg (not_not.2 hsl')]
  | succ j ih =>
    have hgt : D + j + 1 > d0 := by omega
    rw [← Nat.add_assoc, back, if_pos hgt, rd_of_lt (by omega), bind_some,
      if_pos (hj j (Nat.lt_succ_self j))]
    exact ih (fun i hi => hj i (by omega)) (by omega)

variable {base : List UInt8}

section Pass

variable {rooted : Bool}

theorem pass_end (hs : s < n) (h0 : m s = 0) : pass n rooted m s d d0 = some (m, d) := by
  rw [pass, if_pos hs, if_pos h0]

theorem pass_dot (hs : s < n) (h0 : m s ≠ 0) (hdot : isDot n m s = some true) :
    pass n rooted m s d d0 =
      if m (s + 1) = 0 then some (m, d) else pass n rooted m (s + 2) d d0 := by
  rw [pass, if_pos hs, if_neg h0, hdot]
  simp only [bind_eq_bind, bind_some, if_true]
  rfl

theorem pass_root (hs : s < n) (h0 : m s ≠ 0) (hdot : isDot n m s = some false)
    (hup : isDotDot n m s = some true) (hd : d = d0) (hr : rooted = true) :
    pass n rooted m s d d0 =
      if m (s + 2) = 0 then some (m, d) else pass n rooted m (s + 3) d d0 := by
  rw [pass, if_pos hs, if_neg h0, hdot, hup]
  simp only [bind_eq_bind, bind_some, Bool.false_eq_true, if_false, true_and]
  rw [if_pos ⟨hd, hr⟩]
  rfl

theorem pass_pop {D : ℕ} (hs : s < n) (h0 : m s ≠ 0) (hdot : isDot n m s = some false)
    (hup : isDotDot n m s = some true) (hd : d0 + 2 ≤ d) (hn : d - 1 < n) (hsl : m (d - 1) = slash)
    (hback : back n m d0 (d - 2) = some D) :
    pass n rooted m s d d0 =
      if m (s + 2) = 0 then some (m, D) else pass n rooted m (s + 3) D d0 := by
  have hne : ¬(d = d0) := by omega
  rw [pass, if_pos hs, if_neg h0, hdot, hup]
  simp only [bind_eq_bind, bind_some, Bool.false_eq_true, if_false, true_and, hne, false_and]
  rw [if_pos (by omega), rd_of_lt hn, bind_some, if_pos ⟨hd, hsl⟩, hback, bind_some]
  rfl

theorem pass_copy {b : Bool} {d0' : ℕ} {k : ℕ} (hs : s < n) (h0 : m s ≠ 0)
    (hdot : isDot n m s = some false) (hup : isDotDot n m s = some b)
    (hr : ¬(b = true ∧ d = d0 ∧ rooted = true))
    (hd0 : (if b = true ∧ d = d0 then d0 + 3 else d0) = d0') (hpop : ¬(b = true ∧ d > d0'))
    (hcopy : copyElem n m s d = some (m', k)) :
    pass n rooted m s d d0 = if m' (s + k) = 0 then some (m', d + k)
      else (wr n m' (d + k) (m' (s + k))).bind fun m =>
        pass n rooted m (s + k + 1) (d + k + 1) d0' := by
  rw [pass, if_pos hs, if_neg h0, hdot, hup]
  simp only [bind_eq_bind, bind_some, Bool.false_eq_true, if_false]
  rw [if_neg hr, hd0, if_neg hpop, hcopy, bind_some]
  rfl

/-- The elements with a slash behind each. -/
def flat (st : List (List UInt8)) : List UInt8 := (st.map (· ++ [slash])).flatten

theorem flat_append (st st' : List (List UInt8)) : flat (st ++ st') = flat st ++ flat st' := by
  rw [flat, map_append, flatten_append, flat, flat]

theorem flat_singleton (e : List UInt8) : flat [e] = e ++ [slash] := by
  rw [flat, map_cons, map_nil, flatten_singleton]

/-- What the second pass writes behind `base` when these elements are left: with a slash behind
each, or behind all but the last. -/
def Done (base : List UInt8) (st : List (List UInt8)) (out : List UInt8) : Prop :=
  out = base ++ flat st ∨ ∃ st' e, st = st' ++ [e] ∧ out = base ++ flat st' ++ e

/-- The stack so far: `k` elements `..`, which are kept, and the others. -/
def stack (k : ℕ) (ns : List (List UInt8)) : List (List UInt8) :=
  List.replicate k [dot, dot] ++ ns

theorem stack_nil (k : ℕ) : stack k [] = replicate k [dot, dot] := append_nil _

theorem stack_concat (k : ℕ) (ns : List (List UInt8)) (e : List UInt8) :
    stack k (ns ++ [e]) = stack k ns ++ [e] := (append_assoc _ _ _).symm

theorem stack_succ (k : ℕ) : stack (k + 1) [] = stack k [] ++ [[dot, dot]] := by
  rw [stack_nil, stack_nil, replicate_succ']

/-- One more element in the memory. -/
theorem flat_concat (base : List UInt8) (st : List (List UInt8)) (e : List UInt8) :
    base ++ flat (st ++ [e]) = base ++ flat st ++ e ++ [slash] := by
  rw [flat_append, flat_singleton]
  simp only [append_assoc]

theorem up_ne_cur : ([dot, dot] : List UInt8) ≠ [dot] := by decide

/-- **The second pass** at `s`, where `src` is still to come: `stack k ns` is left so far. -/
structure Passing (n : ℕ) (rooted : Bool) (base : List UInt8) (m : Buffer) (s d d0 : ℕ)
    (src : List UInt8) (k : ℕ) (ns : List (List UInt8)) : Prop where
  nonzero : 0 ∉ src
  at_src : At m s src
  src_end : m (s + src.length) = 0
  lt : s + src.length < n
  le : d ≤ s
  at_out : At m 0 (base ++ flat (stack k ns))
  d_eq : d = (base ++ flat (stack k ns)).length
  d0_eq : d0 = (base ++ flat (stack k [])).length
  root : rooted = true → k = 0
  names : ∀ e ∈ ns, e ≠ [] ∧ slash ∉ e ∧ e ≠ [dot, dot]

/-- The pass ends in front of `last`, and the elements `st` are left. -/
def Passed (base : List UInt8) (last : ℕ) (st : List (List UInt8)) (r : Option (Buffer × ℕ)) :
    Prop :=
  ∃ m out, r = some (m, out.length) ∧ out.length ≤ last ∧ At m 0 out ∧ Done base st out

/-- What is still to come is passed right. -/
def Passes (n : ℕ) (rooted : Bool) (base src : List UInt8) : Prop :=
  ∀ {m s d d0 k ns}, Passing n rooted base m s d d0 src k ns →
    Passed base (s + src.length)
      ((elements src).foldl (PathNorm.push [dot] [dot, dot] rooted) (stack k ns))
      (pass n rooted m s d d0)

variable {ns ns' : List (List UInt8)} {t : List UInt8} {k' d' : ℕ}

/-- An element in the memory, and the byte behind it. -/
theorem Passing.element (h : Passing n rooted base m s d d0 (e ++ t) k ns) (he : slash ∉ e)
    (ht : t = [] ∨ ∃ r, t = slash :: r ∧ Passes n rooted base r) :
    (∀ b ∈ e, ¬SEP b) ∧ At m s e ∧ SEP (m (s + e.length)) := by
  obtain ⟨hate, hatt⟩ := at_append.1 h.at_src
  refine ⟨?_, hate, ?_⟩
  · rintro b hb (rfl | rfl)
    · exact he hb
    · exact h.nonzero (mem_append_left _ hb)
  · rcases ht with rfl | ⟨r, rfl, -⟩
    · have hend := h.src_end
      rw [append_nil] at hend
      exact .inr hend
    · exact .inl (at_cons.1 hatt).1

/-- **An element that is not kept** has only changed the stack. -/
theorem Passing.skip (h : Passing n rooted base m s d d0 (e ++ t) k ns)
    (ht : t = [] ∨ ∃ r, t = slash :: r ∧ Passes n rooted base r)
    (hpush : PathNorm.push [dot] [dot, dot] rooted (stack k ns) e = stack k ns')
    (hle : d' ≤ s + e.length) (hout : At m 0 (base ++ flat (stack k ns')))
    (hd : d' = (base ++ flat (stack k ns')).length)
    (hns : ∀ e ∈ ns', e ≠ [] ∧ slash ∉ e ∧ e ≠ [dot, dot]) :
    Passed base (s + (e ++ t).length)
      ((e :: elements t).foldl (PathNorm.push [dot] [dot, dot] rooted) (stack k ns))
      (if m (s + e.length) = 0 then some (m, d')
        else pass n rooted m (s + e.length + 1) d' d0) := by
  have hend := h.src_end
  have hn := h.lt
  rw [length_append] at hend hn ⊢
  rw [foldl_cons, hpush]
  rcases ht with rfl | ⟨r, rfl, hr⟩
  · rw [if_pos (show m (s + e.length) = 0 from hend), hd]
    exact ⟨m, _, rfl, by omega, hout, .inl rfl⟩
  · obtain ⟨hsl, hatr⟩ := at_cons.1 (at_append.1 h.at_src).2
    rw [length_cons] at hend hn ⊢
    rw [if_neg (by rw [hsl]; decide), elements_slash_cons]
    obtain ⟨m', out, heq, hlen, hres⟩ := hr
      ⟨fun h0 => h.nonzero (mem_append_right _ (mem_cons_of_mem _ h0)), hatr,
        by rw [← hend]; congr 1; omega, by omega, by omega, hout, hd, h.d0_eq, h.root, hns⟩
    exact ⟨m', out, heq, by omega, hres⟩

/-- **An element that is kept** is copied down. -/
theorem Passing.copy {r : Option (Buffer × ℕ)} {i : ℕ}
    (h : Passing n rooted base m s d d0 (e ++ t) k ns) (he : slash ∉ e)
    (ht : t = [] ∨ ∃ r, t = slash :: r ∧ Passes n rooted base r)
    (hpush : PathNorm.push [dot] [dot, dot] rooted (stack k ns) e = stack k' ns')
    (hst : stack k' ns' = stack k ns ++ [e]) (hi : i = (base ++ flat (stack k' [])).length)
    (hk : rooted = true → k' = 0) (hns : ∀ e ∈ ns', e ≠ [] ∧ slash ∉ e ∧ e ≠ [dot, dot])
    (hpass : ∀ m', copyElem n m s d = some (m', e.length) → r =
      if m' (s + e.length) = 0 then some (m', d + e.length)
      else (wr n m' (d + e.length) (m' (s + e.length))).bind fun m =>
        pass n rooted m (s + e.length + 1) (d + e.length + 1) i) :
    Passed base (s + (e ++ t).length)
      ((e :: elements t).foldl (PathNorm.push [dot] [dot, dot] rooted) (stack k ns)) r := by
  obtain ⟨he0, hate, hSEP⟩ := h.element he ht
  have hend := h.src_end
  have hn := h.lt
  have hle := h.le
  rw [length_append] at hend hn ⊢
  obtain ⟨m', hcopy, hat', hother⟩ := copyElem_spec (n := n) he0 hate hSEP (by omega) hle
  have hout' : At m' 0 (base ++ flat (stack k ns) ++ e) := by
    rw [at_append, Nat.zero_add, ← h.d_eq]
    exact ⟨h.at_out.congr fun j _ hj => hother j (by have := h.d_eq; omega), hat'⟩
  have hlen' : (base ++ flat (stack k ns) ++ e).length = d + e.length := by
    rw [length_append, ← h.d_eq]
  have hsame : m' (s + e.length) = m (s + e.length) := hother (s + e.length) (.inr (by omega))
  rw [hpass m' hcopy, foldl_cons, hpush, hsame]
  rcases ht with rfl | ⟨r, rfl, hr⟩
  · rw [if_pos (show m (s + e.length) = 0 from hend)]
    refine ⟨m', base ++ flat (stack k ns) ++ e, ?_, ?_, hout', .inr ⟨stack k ns, e, hst, rfl⟩⟩
    · rw [hlen']
    · rw [hlen', length_nil]
      omega
  · obtain ⟨hsl, hatr⟩ := at_cons.1 (at_append.1 h.at_src).2
    rw [length_cons] at hend hn ⊢
    rw [if_neg (by rw [hsl]; decide), elements_slash_cons, hsl, wr_of_lt (by omega), bind_some]
    have hkeep : ∀ j, s + e.length + 1 ≤ j → m'.store (d + e.length) [slash] j = m j := by
      intro j hj
      rw [store_of_ne (by omega), hother j (by omega)]
    have hflat : base ++ flat (stack k' ns') = base ++ flat (stack k ns) ++ e ++ [slash] := by
      rw [hst, flat_concat]
    have hend' : m'.store (d + e.length) [slash] (s + e.length + 1 + r.length) = 0 := by
      rw [hkeep _ (by omega), ← hend]
      congr 1
      omega
    have hout'' : At (m'.store (d + e.length) [slash]) 0 (base ++ flat (stack k' ns')) := by
      rw [hflat, at_append, Nat.zero_add, hlen']
      exact ⟨hout'.congr fun j _ hj => store_of_ne (by omega), at_cons.2
        ⟨store_self _ _ _, at_nil _ _⟩⟩
    obtain ⟨m'', out, heq, hlen, hres⟩ := hr (d := d + e.length + 1)
      ⟨fun h0 => h.nonzero (mem_append_right _ (mem_cons_of_mem _ h0)),
        hatr.congr fun j hj _ => hkeep j hj, hend', by omega, by omega, hout'',
        by rw [hflat, length_append, hlen', length_singleton], hi, hk, hns⟩
    exact ⟨m'', out, heq, by omega, hres⟩

/-- **The element in front of `..`** begins where `back` ends. -/
theorem Passing.back {src f : List UInt8}
    (h : Passing n rooted base m s d d0 src k (ns ++ [f])) :
    d0 + 2 ≤ d ∧ m (d - 1) = slash ∧ At m 0 (base ++ flat (stack k ns)) ∧
      (base ++ flat (stack k ns)).length ≤ s ∧
      back n m d0 (d - 2) = some (base ++ flat (stack k ns)).length := by
  obtain ⟨hfne, hfsl, -⟩ := h.names f (by simp)
  have hfpos : 0 < f.length := length_pos_iff.2 hfne
  have hout := h.at_out
  have hd := h.d_eq
  have hn := h.lt
  have hle := h.le
  rw [stack_concat, flat_concat] at hout hd
  rw [length_append, length_append, length_singleton] at hd
  obtain ⟨hpre, hsl⟩ := at_append.1 hout
  obtain ⟨hpre, hf⟩ := at_append.1 hpre
  rw [Nat.zero_add] at hf hsl
  rw [length_append] at hsl
  have hge : ∀ ns, d0 ≤ (base ++ flat (stack k ns)).length := by
    intro ns
    have hst : stack k ns = stack k [] ++ ns := by rw [stack_nil, stack]
    rw [hst, flat_append, ← append_assoc, length_append, ← h.d0_eq]
    omega
  have hged := hge ns
  have hstop : (base ++ flat (stack k ns)).length = d0 ∨
      d0 < (base ++ flat (stack k ns)).length ∧
        m ((base ++ flat (stack k ns)).length - 1) = slash := by
    rcases ns.eq_nil_or_concat' with rfl | ⟨ns, g, rfl⟩
    · exact .inl h.d0_eq.symm
    · have hged' := hge ns
      rw [stack_concat, flat_concat] at hpre ⊢
      obtain ⟨-, hg⟩ := at_append.1 hpre
      rw [Nat.zero_add] at hg
      rw [length_append, length_singleton, Nat.add_sub_cancel]
      refine .inr ⟨?_, (at_cons.1 hg).1⟩
      rw [length_append]
      omega
  refine ⟨by omega, ?_, hpre, by omega, ?_⟩
  · rw [hd]
    exact (at_cons.1 hsl).1
  · have hback := back_eq (n := n) (j := f.length - 1) (fun i hi => ?_) hstop (by omega)
    · rw [← hback, hd]
      congr 1
      omega
    · rw [hf.getElem (by omega)]
      exact fun h => hfsl (h ▸ getElem_mem _)

/-- **One element** of the name, and what is behind it. -/
theorem passes_element (hne : e ≠ []) (he : slash ∉ e)
    (ht : t = [] ∨ ∃ r, t = slash :: r ∧ Passes n rooted base r) :
    Passes n rooted base (e ++ t) := by
  intro m s d d0 k ns h
  obtain ⟨he0, hate, hSEP⟩ := h.element he ht
  have hels : elements (e ++ t) = e :: elements t := by
    rcases ht with rfl | ⟨r, rfl, -⟩
    · rw [append_nil, elements_of_not_mem hne he, elements_nil]
    · rw [elements_append_slash, elements_of_not_mem hne he, elements_slash_cons]
      rfl
  rw [hels]
  have hn := h.lt
  rw [length_append] at hn
  have hm0 : m s ≠ 0 := by
    obtain _ | ⟨c, e⟩ := e
    · exact absurd rfl hne
    · rw [(at_cons.1 hate).1]
      exact fun h => he0 c mem_cons_self (.inr h)
  have hdot := isDot_eq (n := n) he0 hne hate hSEP (by omega)
  have hup := isDotDot_eq (n := n) he0 hne hate hSEP (by omega)
  have hle := h.le
  by_cases hcur : e = [dot]
  · subst hcur
    rw [pass_dot (by omega) hm0 hdot]
    exact h.skip ht PathNorm.push_cur (by omega) h.at_out h.d_eq h.names
  rw [decide_eq_false hcur] at hdot
  by_cases hdd : e = [dot, dot]
  · subst hdd
    rcases ns.eq_nil_or_concat' with rfl | ⟨ns, f, rfl⟩
    · have hdd0 : d = d0 := h.d_eq.trans h.d0_eq.symm
      have hpush := PathNorm.push_up_replicate up_ne_cur h.root
      rw [← stack_nil] at hpush
      by_cases hr : rooted = true
      · -- nothing is above the root
        obtain rfl := h.root hr
        rw [if_pos hr] at hpush
        rw [pass_root (by omega) hm0 hdot hup hdd0 hr]
        exact h.skip ht (hpush.trans (stack_nil 0).symm) (by omega) h.at_out h.d_eq h.names
      · -- it is kept, and never collected
        rw [if_neg hr, ← stack_nil] at hpush
        refine h.copy he ht hpush (stack_succ k) (i := d0 + 3) ?_ (fun h => absurd h hr) h.names ?_
        · rw [stack_succ, flat_concat, length_append, length_append, ← h.d0_eq]
          rfl
        · intro m' hc
          refine pass_copy (by omega) hm0 hdot hup (fun h => hr h.2.2) ?_ (fun h => ?_) hc
          · rw [if_pos ⟨rfl, hdd0⟩]
          · have := h.2
            omega
    · -- it takes the element `f` away
      obtain ⟨hd, hsl, hout, hD, hback⟩ := h.back
      rw [pass_pop (by omega) hm0 hdot hup hd (by omega) hsl hback]
      refine h.skip ht ?_ (by omega) hout rfl fun x hx => h.names x (mem_append_left _ hx)
      rw [stack_concat]
      exact PathNorm.push_up_concat up_ne_cur (h.names f (by simp)).2.2
  · rw [decide_eq_false hdd] at hup
    have hpush : PathNorm.push [dot] [dot, dot] rooted (stack k ns) e = stack k (ns ++ [e]) := by
      rw [PathNorm.push_of_ne hcur hdd, stack_concat]
    refine h.copy he ht hpush (stack_concat k ns e) h.d0_eq h.root (fun x hx => ?_) fun m' hc => ?_
    · rcases mem_append.1 hx with hx | hx
      · exact h.names x hx
      · rw [mem_singleton.1 hx]
        exact ⟨hne, he, hdd⟩
    · refine pass_copy (by omega) hm0 hdot hup (fun h => Bool.false_ne_true h.1) ?_
        (fun h => Bool.false_ne_true h.1) hc
      exact if_neg fun h => Bool.false_ne_true h.1

/-- **The second pass** leaves what the elements that are still to come make of the stack. -/
theorem pass_spec {src : List UInt8} (htight : Tight src) : Passes n rooted base src := by
  induction htight with
  | nil =>
    intro m s d d0 k ns h
    have hn : s < n := h.lt
    rw [pass_end hn h.src_end, h.d_eq]
    exact ⟨m, _, rfl, h.d_eq ▸ h.le, h.at_out, .inl rfl⟩
  | @last e hne he => exact append_nil e ▸ passes_element hne he (.inl rfl)
  | cons hne he hr ih => exact passes_element hne he (.inr ⟨_, rfl, ih⟩)

end Pass

/-! ### The end -/

/-- What is left of the bytes that the second pass has written. -/
def ended (out : List UInt8) : List UInt8 :=
  if out = [] then [dot]
  else if 1 < out.length ∧ out.getLast? = some slash then out.dropLast
  else out

theorem strcpyDot_spec (h2 : 2 ≤ n) : ∃ m', strcpyDot n m = some m' ∧ Holds m' [dot] := by
  rw [strcpyDot, wr_of_lt (by omega), bind_eq_bind, bind_some, wr_of_lt (by omega)]
  refine ⟨_, rfl, at_cons.2 ⟨?_, at_cons.2 ⟨store_self _ _ _, at_nil _ _⟩⟩⟩
  rw [store_of_ne (by omega), store_self]

/-- A name that is not empty is returned as it is. -/
theorem holds_of_ne_nil {w : List UInt8} (hne : w ≠ []) (h0 : 0 ∉ w) (hat : Holds m w)
    (hn : 0 < n) : ((rd n m 0).bind fun b => if b = 0 then strcpyDot n m else some m) = some m := by
  rw [rd_of_lt hn, bind_some, if_neg]
  obtain _ | ⟨c, w⟩ := w
  · exact absurd rfl hne
  · rw [(at_cons.1 (show At m 0 (c :: (w ++ [0])) from hat)).1]
    exact fun h => h0 (h ▸ mem_cons_self)

variable {out : List UInt8}

theorem finish_spec (hat : At m 0 out) (h0 : 0 ∉ out) (hn : out.length < n) (h2 : 2 ≤ n) :
    ∃ m', finish n m out.length = some m' ∧ Holds m' (ended out) := by
  have hholds : Holds (m.store out.length [0]) out := by
    refine at_append.2 ⟨hat.congr fun j _ hj => store_of_ne (by omega), ?_⟩
    rw [Nat.zero_add]
    exact at_cons.2 ⟨store_self _ _ _, at_nil _ _⟩
  rw [finish, wr_of_lt hn]
  simp only [bind_eq_bind, bind_some]
  rcases out.eq_nil_or_concat' with rfl | ⟨w, c, rfl⟩
  · rw [ended, if_pos rfl, if_neg (by simp), bind_some, rd_of_lt (by omega), bind_some]
    simp only [length_nil, store_self, if_true]
    exact strcpyDot_spec h2
  · have hne : w ++ [c] ≠ [] := append_ne_nil_of_right_ne_nil w (cons_ne_nil c [])
    rw [ended, if_neg hne, List.getLast?_concat, dropLast_concat]
    rw [length_append, length_singleton] at hn hholds ⊢
    have hc : m.store (w.length + 1) [0] w.length = c := by
      obtain ⟨hwc, -⟩ := at_append.1 hholds
      obtain ⟨-, hc⟩ := at_append.1 hwc
      rw [Nat.zero_add] at hc
      exact (at_cons.1 hc).1
    by_cases htrim : 1 < w.length + 1 ∧ c = slash
    · -- the slash at the end goes
      obtain ⟨hlt, rfl⟩ := htrim
      rw [if_pos hlt, Nat.add_sub_cancel, rd_of_lt (by omega), bind_some, hc, if_pos rfl,
        wr_of_lt (by omega), bind_some, if_pos ⟨hlt, rfl⟩]
      have hw : Holds ((m.store (w.length + 1) [0]).store w.length [0]) w := by
        refine at_append.2 ⟨?_, ?_⟩
        · refine (at_append.1 (at_append.1 hholds).1).1.congr fun j _ hj => store_of_ne (by omega)
        · rw [Nat.zero_add]
          exact at_cons.2 ⟨store_self _ _ _, at_nil _ _⟩
      refine ⟨_, holds_of_ne_nil ?_ (fun h => h0 (mem_append_left _ h)) hw (by omega), hw⟩
      rintro rfl
      exact absurd hlt (lt_irrefl _)
    · have hsame : (if 1 < w.length + 1 then
            (rd n (m.store (w.length + 1) [0]) (w.length + 1 - 1)).bind fun b =>
              if b = slash then wr n (m.store (w.length + 1) [0]) (w.length + 1 - 1) 0
              else some (m.store (w.length + 1) [0])
          else some (m.store (w.length + 1) [0])) = some (m.store (w.length + 1) [0]) := by
        by_cases hlt : 1 < w.length + 1
        · rw [if_pos hlt, Nat.add_sub_cancel, rd_of_lt (by omega), bind_some, hc,
            if_neg fun h => htrim ⟨hlt, h⟩]
        · rw [if_neg hlt]
      rw [hsame, bind_some, if_neg fun h => htrim ⟨h.1, some.inj h.2⟩]
      exact ⟨_, holds_of_ne_nil hne h0 hholds (by omega), hholds⟩

theorem join_concat (st : List (List UInt8)) (e : List UInt8) :
    join (st ++ [e]) = flat st ++ e := by
  induction st with
  | nil => exact append_nil e
  | cons a st ih =>
    have hne : st ++ [e] ≠ [] := append_ne_nil_of_right_ne_nil st (cons_ne_nil e [])
    obtain ⟨b, st', hst⟩ := exists_cons_of_ne_nil hne
    rw [hst] at ih
    have hcons : join (a :: b :: st') = a ++ slash :: join (b :: st') := rfl
    have hflat : flat (a :: st) = a ++ [slash] ++ flat st := rfl
    rw [cons_append, hst, hcons, ih, hflat]
    simp only [append_assoc, nil_append, cons_append]

/-- The name with these elements behind `base`. -/
def named (base : List UInt8) (st : List (List UInt8)) : List UInt8 :=
  if st = [] then ended base else base ++ join st

variable {st : List (List UInt8)}

theorem ended_of_done (h : Done base st out) (hst : ∀ e ∈ st, e ≠ [] ∧ slash ∉ e) :
    ended out = named base st := by
  rcases h with rfl | ⟨st, e, rfl, rfl⟩
  · rcases st.eq_nil_or_concat' with rfl | ⟨st, e, rfl⟩
    · rw [named, if_pos rfl, flat, map_nil, flatten_nil, append_nil]
    · obtain ⟨hne, -⟩ := hst e (by simp)
      have hpos : 0 < e.length := length_pos_iff.2 hne
      rw [named, if_neg (by simp), flat_concat, ended, if_neg (by simp), List.getLast?_concat,
        dropLast_concat, if_pos, join_concat, append_assoc]
      refine ⟨?_, rfl⟩
      rw [length_append, length_append, length_singleton]
      omega
  · obtain ⟨hne, hsl⟩ := hst e (by simp)
    rw [named, if_neg (by simp), ended, if_neg (by simp [hne]), if_neg, join_concat, append_assoc]
    rintro ⟨-, hlast⟩
    rw [List.getLast?_append_of_ne_nil _ hne] at hlast
    exact hsl (List.mem_of_getLast? hlast)

/-- The elements that are left, and their bytes, are those of the name. -/
theorem of_mem_norm {rooted : Bool} {l e : List UInt8} (h : e ∈ norm rooted l) :
    e ≠ [] ∧ slash ∉ e ∧ ∀ b ∈ e, b ∈ l :=
  of_mem_elements (PathNorm.mem_of_mem_norm h)

theorem zero_not_mem_flat (h : ∀ e ∈ st, 0 ∉ e) : 0 ∉ flat st := by
  intro hin
  obtain ⟨l, hl, h0⟩ := mem_flatten.1 hin
  obtain ⟨e, he, rfl⟩ := mem_map.1 hl
  rcases mem_append.1 h0 with h0 | h0
  · exact h e he h0
  · exact absurd (mem_singleton.1 h0) (by decide)

theorem Done.zero_not_mem (h : Done base st out) (hb : 0 ∉ base) (hst : ∀ e ∈ st, 0 ∉ e) :
    0 ∉ out := by
  rcases h with rfl | ⟨st, e, rfl, rfl⟩
  · exact fun h => (mem_append.1 h).elim hb (zero_not_mem_flat hst)
  · intro h
    rcases mem_append.1 h with h | h
    · refine (mem_append.1 h).elim hb (zero_not_mem_flat fun x hx => hst x ?_)
      exact mem_append_left _ hx
    · exact hst e (by simp) h

/-- **Behind the root name.** -/
theorem cleanrest_spec (rooted : Bool) {rest : List UInt8} (hb : 0 ∉ base) (h0 : 0 ∉ rest)
    (hbase : At m 0 base) (hat : At m base.length rest) (hend : m (base.length + rest.length) = 0)
    (hn : base.length + rest.length < n) (h2 : 2 ≤ n)
    (hroot : rooted = false → rest.head? ≠ some slash) :
    ∃ m', cleanrest n rooted m base.length = some m' ∧
      Holds m' (named base (norm rooted rest)) := by
  obtain ⟨k, t, rfl, hhead, hsq⟩ := exists_slashes rest
  -- the slashes at the beginning
  have hk : (if rooted then slashes n m base.length else some 0) = some k := by
    cases rooted with
    | true => exact slashes_spec hat hend hn hhead
    | false =>
      cases k with
      | zero => rfl
      | succ k => exact absurd rfl (hroot rfl)
  obtain ⟨htight, hels⟩ := squeeze_spec (replicate k slash ++ t)
  rw [hsq] at htight hels
  have h0t : 0 ∉ t := fun h => h0 (mem_append_right _ h)
  have hatt := (at_append.1 hat).2
  rw [length_append, length_replicate] at hend hn
  rw [length_replicate] at hatt
  obtain ⟨m₁, hded, hat₁, hlen₁, hother₁⟩ := dedup_spec (n := n) (d := base.length) h0t hatt
    (by rwa [Nat.add_assoc]) (by omega) (by omega)
  set src := squeeze false t with hsrc
  have h0src : 0 ∉ src := fun h => h0t (mem_of_mem_squeeze h)
  have hkeep : ∀ j, j < base.length + src.length →
      m₁.store (base.length + src.length) [0] j = m₁ j := fun j hj => store_of_ne (by omega)
  have hbase₂ : At (m₁.store (base.length + src.length) [0]) 0 (base ++ flat (stack 0 [])) := by
    have hflat : base ++ flat (stack 0 []) = base := append_nil base
    rw [hflat]
    refine hbase.congr fun j _ hj => ?_
    rw [hkeep j (by omega), hother₁ j (by omega)]
  have hzero : base.length = (base ++ flat (stack 0 [])).length := by
    rw [show base ++ flat (stack 0 []) = base from append_nil base]
  obtain ⟨m₃, out, hpass, hlen₃, hat₃, hdone⟩ := pass_spec (n := n) htight
    ⟨h0src, hat₁.congr fun j _ hj => hkeep j (by omega), store_self _ _ _, by omega, le_rfl, hbase₂,
      hzero, hzero, show rooted = true → 0 = 0 from fun _ => rfl, fun e he => absurd he not_mem_nil⟩
  rw [hels] at hdone
  have hnorm : (elements (replicate k slash ++ t)).foldl
      (PathNorm.push [dot] [dot, dot] rooted) (stack 0 []) =
        norm rooted (replicate k slash ++ t) := rfl
  rw [hnorm] at hdone
  have hst : ∀ e ∈ norm rooted (replicate k slash ++ t), e ≠ [] ∧ slash ∉ e :=
    fun e he => ⟨(of_mem_norm he).1, (of_mem_norm he).2.1⟩
  have h0out : 0 ∉ out := hdone.zero_not_mem hb fun e he hz => h0 ((of_mem_norm he).2.2 0 hz)
  obtain ⟨m₄, hfin, hholds⟩ := finish_spec hat₃ h0out (show out.length < n by omega) h2
  rw [ended_of_done hdone hst] at hholds
  refine ⟨m₄, ?_, hholds⟩
  rw [cleanrest, hk]
  simp only [bind_eq_bind, bind_some]
  rw [hded, bind_some, wr_of_lt (by omega), bind_some, hpass, bind_some]
  exact hfin

end Memory

/-! ### The name of a device -/

variable {c : UInt8}

section Device

variable {m : Buffer} {l s e t : List UInt8} {i : ℕ}

/-- What `chartorune` can read of a name. -/
theorem str_eq (hl : Holds m l) (hi : i ≤ l.length) :
    (fun j => rd (l.length + 1) m (i + j)) = cstr (l.drop i) := by
  funext j
  have hdrop : l.drop i ++ [0] = (l ++ [0]).drop i := by
    rw [drop_append_of_le_length hi]
  rw [cstr, hdrop, List.getElem?_drop]
  by_cases hlt : i + j < l.length + 1
  · have hlt' : i + j < (l ++ [0]).length := by
      rw [length_append, length_singleton]
      exact hlt
    have hget := At.getElem hl hlt'
    rw [Nat.zero_add] at hget
    rw [rd_of_lt hlt, hget, List.getElem?_eq_getElem hlt']
  · rw [rd, if_neg hlt, List.getElem?_eq_none]
    rw [length_append, length_singleton]
    omega

/-- A character stays in the name, and no byte of it but the first is a slash. -/
theorem exists_chartorune (hne : s ≠ []) : ∃ r k, chartorune (cstr s) = some (r, k) ∧ 0 < k ∧
    k ≤ s.length ∧ ∀ j, 0 < j → j < k → s[j]? ≠ some slash := by
  have hpos : 0 < s.length := length_pos_iff.2 hne
  obtain ⟨r, bs, hwf, hbegins, hrune⟩ | hbad := chartorune_cases s
  · have hk := chartorune_pos hrune
    -- the bytes behind the first are 128 or above
    have htail : ∀ j b, 0 < j → bs[j]? = some b → 0x80 ≤ b.toNat := by
      intro j b hj hb
      obtain ⟨-, hform⟩ := wellFormed_iff.1 hwf
      have hget := congrArg (fun l => l[j]?) hform
      simp only [List.getElem?_map, hb, map_some] at hget
      obtain ⟨j, rfl⟩ := Nat.exists_eq_succ_of_ne_zero (Nat.ne_of_gt hj)
      rw [form, List.getElem?_cons_succ] at hget
      have hmem : b.toNat ∈ tails (follow r) r := List.mem_of_getElem? hget.symm
      have htails : ∀ k, ∀ x ∈ tails k r, 0x80 ≤ x := by
        intro k
        induction k with
        | zero => exact fun x hx => absurd hx not_mem_nil
        | succ k ih =>
          intro x hx
          rcases mem_cons.1 hx with rfl | hx
          · omega
          · exact ih x hx
      exact htails _ _ hmem
    have hin : ∀ j, 0 < j → j < bs.length → ∃ b, s[j]? = some b ∧ 0x80 ≤ b.toNat := by
      intro j hj hlt
      have hb : bs[j]? = some bs[j] := List.getElem?_eq_getElem hlt
      have hge := htail j _ hj hb
      have hs := hbegins j _ hb
      refine ⟨bs[j], ?_, hge⟩
      rw [cstr, List.getElem?_append] at hs
      split_ifs at hs with hjs
      · exact hs
      · have hz := mem_singleton.1 (List.mem_of_getElem? hs)
        rw [hz] at hge
        exact absurd hge (by decide)
    refine ⟨r, bs.length, hrune, hk, ?_, fun j hj hlt hsl => ?_⟩
    · rcases Nat.lt_or_ge 1 bs.length with h1 | h1
      · obtain ⟨b, hb, -⟩ := hin (bs.length - 1) (by omega) (by omega)
        have := (List.getElem?_eq_some_iff.1 hb).1
        omega
      · omega
    · obtain ⟨b, hb, hge⟩ := hin j hj hlt
      rw [hb] at hsl
      rw [some.inj hsl] at hge
      exact absurd hge (by decide)
  · exact ⟨Runeerror, 1, hbad, Nat.one_pos, hpos, fun j hj hlt => absurd hj (by omega)⟩

/-- A character of a name lies in front of the next slash. -/
theorem exists_chartorune_of_split (c : UInt8) (ht : t = [] ∨ ∃ r, t = slash :: r) :
    ∃ r k, chartorune (cstr (c :: (e ++ t))) = some (r, k + 1) ∧ k ≤ e.length := by
  obtain ⟨r, k, hrune, hpos, hle, hsl⟩ := exists_chartorune (cons_ne_nil c (e ++ t))
  obtain ⟨k, rfl⟩ := Nat.exists_eq_succ_of_ne_zero (Nat.ne_of_gt hpos)
  refine ⟨r, k, hrune, ?_⟩
  by_contra hgt
  rcases ht with rfl | ⟨r, rfl⟩
  · rw [append_nil, length_cons] at hle
    omega
  · refine hsl (e.length + 1) (Nat.succ_pos _) (by omega) ?_
    rw [List.getElem?_cons_succ, List.getElem?_append_right le_rfl, Nat.sub_self,
      List.getElem?_cons_zero]

/-- The walk to the next slash, or to the end. -/
theorem skipElem_spec (hl : Holds m l) (hi : i ≤ l.length) (hdrop : l.drop i = e ++ t)
    (h0 : 0 ∉ e) (he : slash ∉ e) (ht : t = [] ∨ ∃ r, t = slash :: r) :
    skipElem (l.length + 1) m i = some (i + e.length) := by
  induction hlen : e.length using Nat.strong_induction_on generalizing i e with
  | _ len ih =>
    subst hlen
    have hat : At m i (e ++ t ++ [0]) := by
      have happ := at_append.1 (show At m 0 (l.take i ++ (e ++ t ++ [0])) by
        rw [← hdrop, ← append_assoc, take_append_drop]
        exact hl)
      rw [length_take, Nat.min_eq_left hi, Nat.zero_add] at happ
      exact happ.2
    have hlt : i < l.length + 1 := by omega
    obtain _ | ⟨c, e⟩ := e
    · have hsep : SEP (m i) := by
        rcases ht with rfl | ⟨r, rfl⟩
        · exact .inr (at_cons.1 hat).1
        · exact .inl (at_cons.1 hat).1
      rw [skipElem, if_pos hlt, if_pos hsep]
      rfl
    · have hc : m i = c := (at_cons.1 hat).1
      obtain ⟨hc0, h0⟩ := not_or.1 (mem_cons.not.1 h0)
      obtain ⟨hcs, hes⟩ := not_or.1 (mem_cons.not.1 he)
      have hsep : ¬SEP (m i) := by
        rw [hc]
        exact fun h => h.elim (fun h => hcs h.symm) fun h => hc0 h.symm
      obtain ⟨r, k, hrune, hk⟩ := exists_chartorune_of_split (e := e) c ht
      have hstr : chartorune (fun j => rd (l.length + 1) m (i + j)) = some (r, k + 1) := by
        rw [str_eq hl hi, hdrop]
        exact hrune
      have hdrop' : l.drop (i + (k + 1)) = e.drop k ++ t := by
        rw [← drop_drop, hdrop, cons_append, drop_succ_cons, drop_append_of_le_length hk]
      have hlen : i + (e.length + t.length + 1) = l.length := by
        have := congrArg List.length hdrop
        simp at this
        omega
      have hrec := ih (e.drop k).length (by rw [length_drop, length_cons]; omega) (by omega) hdrop'
        (fun h => h0 (mem_of_mem_drop h)) (fun h => hes (mem_of_mem_drop h)) rfl
      rw [skipElem, if_pos hlt, if_neg hsep]
      split
      · rename_i hnone
        rw [hstr] at hnone
        cases hnone
      · rename_i r' k' hsome
        rw [hstr] at hsome
        obtain ⟨-, rfl⟩ := Prod.mk.inj (some.inj hsome)
        rw [hrec, length_drop, length_cons]
        congr 1
        omega

/-- A device, taken apart. -/
theorem device_eq (c : UInt8) (he : slash ∉ e) (ht : t = [] ∨ ∃ r, t = slash :: r) :
    device (hash :: c :: (e ++ t)) = hash :: c :: e ∧ behind (hash :: c :: (e ++ t)) = t := by
  have hpos : ∀ b ∈ e, decide (b ≠ slash) = true := by
    intro b hb
    refine decide_eq_true fun h => he ?_
    rw [← h]
    exact hb
  have hstop : t.takeWhile (· ≠ slash) = [] ∧ t.dropWhile (· ≠ slash) = t := by
    rcases ht with rfl | ⟨r, rfl⟩
    · exact ⟨rfl, rfl⟩
    · exact ⟨rfl, rfl⟩
  have hdrop : (hash :: c :: (e ++ t)).drop 2 = e ++ t := rfl
  have htake : (hash :: c :: (e ++ t)).take 2 = [hash, c] := rfl
  rw [device, behind, hdrop, htake, takeWhile_append_of_pos hpos,
    dropWhile_append_of_pos hpos, hstop.1, hstop.2, append_nil]
  exact ⟨rfl, rfl⟩

/-- **A device**: `cleanname` goes on one byte behind the name of the device. -/
theorem cleanname_device (hl : Holds m (hash :: c :: (e ++ t))) (hc : c ≠ 0) (h0 : 0 ∉ e)
    (he : slash ∉ e) (ht : t = [] ∨ ∃ r, t = slash :: r) :
    cleanname (room (hash :: c :: (e ++ t))) m =
      cleanrest (room (hash :: c :: (e ++ t))) true m (e.length + 3) := by
  set l := hash :: c :: (e ++ t) with hldef
  have hlen : l.length = e.length + t.length + 2 := by
    rw [hldef, length_cons, length_cons, length_append]
  have hroom : room l = l.length + 1 := by
    rw [room, hlen]
    omega
  have hm0 : m 0 = hash := (at_cons.1 (show At m 0 (hash :: (c :: (e ++ t) ++ [0])) from hl)).1
  have hm1 : m 1 = c := (at_cons.1 (at_cons.1
    (show At m 0 (hash :: c :: (e ++ t ++ [0])) from hl)).2).1
  obtain ⟨r, k, hrune, hk⟩ := exists_chartorune_of_split (e := e) c ht
  have hstr : chartorune (fun j => rd (l.length + 1) m (1 + j)) = some (r, k + 1) := by
    rw [str_eq hl (by omega)]
    exact hrune
  have hdrop : l.drop (1 + (k + 1)) = e.drop k ++ t := by
    rw [← drop_drop]
    change (c :: (e ++ t)).drop (k + 1) = e.drop k ++ t
    rw [drop_succ_cons, drop_append_of_le_length hk]
  have hskip := skipElem_spec hl (by omega) hdrop (fun h => h0 (mem_of_mem_drop h))
    (fun h => he (mem_of_mem_drop h)) ht
  rw [length_drop] at hskip
  have hend : 1 + (k + 1) + (e.length - k) + 1 = e.length + 3 := by omega
  rw [hroom, cleanname, rd_of_lt (by omega), bind_eq_bind, bind_some, hm0,
    if_neg (by decide), if_pos rfl, rd_of_lt (by omega), bind_some, hm1, if_neg hc, hstr]
  simp only [bind_eq_bind, bind_some]
  rw [hskip, bind_some, hend]

end Device

/-! ### All names -/

/-- The name of a device has a slash behind it, or is `#`. -/
def Ends (l : List UInt8) : Prop := l.head? = some hash → l = [hash] ∨ slash ∈ l.drop 2

instance (l : List UInt8) : Decidable (Ends l) :=
  inferInstanceAs (Decidable (l.head? = some hash → l = [hash] ∨ slash ∈ l.drop 2))

section All

variable {m : Buffer} {l : List UInt8}

theorem head_eq (hl : Holds m (c :: l)) : m 0 = c :=
  (at_cons.1 (show At m 0 (c :: (l ++ [0])) from hl)).1

theorem named_nil (st : List (List UInt8)) : named [] st = if st = [] then [dot] else join st := by
  rw [named, ended, if_pos rfl, nil_append]

/-- **The name is cleaned** if it stays in memory. -/
theorem cleanname_spec (h0 : 0 ∉ l) (hl : Holds m l) (hends : Ends l) :
    ∃ m', cleanname (room l) m = some m' ∧ Holds m' (clean l) := by
  have h2 : 2 ≤ room l := le_max_right _ _
  have hroom : l.length < room l := lt_of_lt_of_le (Nat.lt_succ_self _) (le_max_left _ _)
  have hend : m l.length = 0 := by
    have := (at_append.1 hl).2
    rw [Nat.zero_add] at this
    exact (at_cons.1 this).1
  obtain _ | ⟨c, l⟩ := l
  · have hm0 : m 0 = 0 := hend
    rw [cleanname, rd_of_lt (by omega), bind_eq_bind, bind_some, if_pos hm0]
    exact strcpyDot_spec h2
  have hc0 : c ≠ 0 := fun h => h0 (h ▸ mem_cons_self)
  have hl0 : 0 ∉ l := fun h => h0 (mem_cons_of_mem _ h)
  have hat : At m 0 (c :: l) := (at_append.1 hl).1
  by_cases hhash : c = hash
  · subst hhash
    obtain _ | ⟨c, l⟩ := l
    · -- `#` alone
      have hm1 : m 1 = 0 := hend
      refine ⟨m, ?_, hl⟩
      rw [cleanname, rd_of_lt (by omega), bind_eq_bind, bind_some, head_eq hl,
        if_neg (by decide), if_pos rfl, rd_of_lt (by omega), bind_some, hm1, if_pos rfl]
      rfl
    obtain ⟨e, t, rfl, he, ht⟩ := exists_split l
    obtain ⟨hdev, hbeh⟩ := device_eq c he ht
    have hslash : slash ∈ e ++ t := by
      rcases hends rfl with h | h
      · cases h
      · exact h
    obtain ⟨r, rfl⟩ : ∃ r, t = slash :: r := by
      rcases ht with rfl | ht
      · rw [append_nil] at hslash
        exact absurd hslash he
      · exact ht
    have hcz : c ≠ 0 := fun h => hl0 (h ▸ mem_cons_self)
    have h0et : 0 ∉ e ++ slash :: r := fun h => hl0 (mem_cons_of_mem _ h)
    have h0e : 0 ∉ e := fun h => h0et (mem_append_left _ h)
    have h0r : 0 ∉ r := fun h => h0et (mem_append_right _ (mem_cons_of_mem _ h))
    set base := hash :: c :: e ++ [slash] with hbase
    have hname : hash :: c :: (e ++ slash :: r) = base ++ r := by
      simp [hbase]
    have hblen : base.length = e.length + 3 := by simp [hbase]
    rw [cleanname_device hl hcz h0e he (.inr ⟨r, rfl⟩), ← hblen]
    rw [hname] at hat hend hroom
    rw [length_append] at hend hroom
    obtain ⟨hb, hr⟩ := at_append.1 hat
    rw [Nat.zero_add] at hr
    have h0b : 0 ∉ base := by
      rw [hbase]
      intro h
      rcases mem_append.1 h with h | h
      · rcases mem_cons.1 h with h | h
        · exact absurd h (by decide)
        · rcases mem_cons.1 h with h | h
          · exact hcz h.symm
          · exact h0e h
      · exact absurd (mem_singleton.1 h) (by decide)
    obtain ⟨m', hrest, hholds⟩ := cleanrest_spec true h0b h0r hb hr hend
      (by rwa [hname]) h2 (fun h => absurd h (by decide))
    refine ⟨m', hrest, ?_⟩
    have hnorm : norm true (slash :: r) = norm true r := by
      rw [norm, elements_slash_cons, norm]
    have hended : ended base = hash :: c :: e := by
      rw [ended, if_neg (by simp [hbase]), hbase, List.getLast?_concat, dropLast_concat, if_pos]
      exact ⟨by simp, rfl⟩
    rw [clean, if_pos (show (hash :: c :: (e ++ slash :: r)).head? = some hash from rfl), hdev,
      hbeh, hnorm]
    rw [named, hended, hbase] at hholds
    split_ifs at hholds ⊢ with hst
    · exact hholds
    · rw [append_assoc] at hholds
      exact hholds
  have hne : ¬(c :: l).head? = some hash := fun h => hhash (some.inj h)
  by_cases hslash : c = slash
  · subst hslash
    obtain ⟨hb, hr⟩ := at_append.1 (show At m 0 ([slash] ++ l) from hat)
    rw [Nat.zero_add] at hr
    obtain ⟨m', hrest, hholds⟩ := cleanrest_spec true (by decide) hl0 hb hr
      (by rw [← hend]; congr 1; simp; omega) (by simp at hroom ⊢; omega) h2
      (fun h => absurd h (by decide))
    refine ⟨m', ?_, ?_⟩
    · rw [cleanname, rd_of_lt (by omega), bind_eq_bind, bind_some, head_eq hl,
        if_neg (by decide), if_neg (by decide), if_pos rfl]
      exact hrest
    · have hnorm : norm true (slash :: l) = norm true l := by
        rw [norm, elements_slash_cons, norm]
      rw [clean, if_neg hne, if_pos (show (slash :: l).head? = some slash from rfl), hnorm]
      rw [named] at hholds
      split_ifs at hholds with hst
      · rw [hst]
        exact hholds
      · exact hholds
  · obtain ⟨m', hrest, hholds⟩ := cleanrest_spec false not_mem_nil h0
      (at_nil m 0) hat (by rw [← hend]; congr 1; simp) (by simp at hroom ⊢; omega) h2
      (fun _ h => hslash (some.inj h))
    refine ⟨m', ?_, ?_⟩
    · rw [cleanname, rd_of_lt (by omega), bind_eq_bind, bind_some, head_eq hl,
        if_neg hc0, if_neg hhash, if_neg hslash]
      exact hrest
    · rw [named_nil] at hholds
      rw [clean, if_neg hne,
        if_neg (show ¬(c :: l).head? = some slash from fun h => hslash (some.inj h))]
      exact hholds

/-- **Without a slash behind the device** it does not. -/
theorem cleanname_none (h0 : 0 ∉ l) (hl : Holds m l) (hends : ¬Ends l) :
    cleanname (room l) m = none := by
  rw [Ends, Classical.not_imp, not_or] at hends
  obtain ⟨hhead, hne, hno⟩ := hends
  obtain _ | ⟨c', l⟩ := l
  · cases hhead
  cases hhead
  obtain _ | ⟨c, e⟩ := l
  · exact absurd rfl hne
  have hcz : c ≠ 0 := fun h => h0 (h ▸ mem_cons_of_mem _ mem_cons_self)
  have h0e : 0 ∉ e := fun h => h0 (mem_cons_of_mem _ (mem_cons_of_mem _ h))
  have hdev := cleanname_device (t := []) (by rwa [append_nil]) hcz h0e hno (.inl rfl)
  rw [append_nil] at hdev
  have hroom : room (hash :: c :: e) = e.length + 3 := by
    rw [room, length_cons, length_cons]
    omega
  rw [hdev, hroom, cleanrest, slashes, if_neg (lt_irrefl _)]
  rfl

end All

/-! ### Once more -/

section Again

variable {l e : List UInt8} {st : List (List UInt8)} {rooted : Bool}

theorem join_cons (e : List UInt8) (hst : st ≠ []) : join (e :: st) = e ++ slash :: join st := by
  obtain ⟨b, st, rfl⟩ := exists_cons_of_ne_nil hst
  rfl

theorem join_singleton (e : List UInt8) : join [e] = e := append_nil e

/-- The elements of a name are found in it again. -/
theorem elements_join (hst : ∀ e ∈ st, e ≠ [] ∧ slash ∉ e) : elements (join st) = st := by
  induction st with
  | nil => rfl
  | cons e st ih =>
    obtain ⟨hne, hsl⟩ := hst e mem_cons_self
    rcases eq_or_ne st [] with rfl | hst'
    · rw [join_singleton, elements_of_not_mem hne hsl]
    · rw [join_cons e hst', elements_append_slash, elements_of_not_mem hne hsl,
        ih fun x hx => hst x (mem_cons_of_mem _ hx)]
      rfl

/-- What is left of a name. -/
structure Left (rooted : Bool) (st : List (List UInt8)) : Prop where
  elem : ∀ e ∈ st, e ≠ [] ∧ slash ∉ e
  normal : PathNorm.IsNormal [dot] [dot, dot] rooted st

theorem left_norm (rooted : Bool) (l : List UInt8) : Left rooted (norm rooted l) where
  elem _ he := ⟨(of_mem_norm he).1, (of_mem_norm he).2.1⟩
  normal := PathNorm.isNormal_norm up_ne_cur _

theorem Left.norm_join (h : Left rooted st) : norm rooted (join st) = st := by
  rw [norm, elements_join h.elem, PathNorm.norm_eq_self up_ne_cur h.normal]

/-- Behind an element that is not `..` none is left. -/
theorem Left.tail (h : Left rooted (e :: st)) (he : e ≠ [dot, dot]) : Left true st where
  elem x hx := h.elem x (mem_cons_of_mem _ hx)
  normal := by
    obtain ⟨k, ns, hst, -, hns⟩ := h.normal
    cases k with
    | zero =>
      rw [replicate_zero, nil_append] at hst
      refine ⟨0, st, rfl, fun _ => rfl, fun x hx => hns x ?_⟩
      rw [← hst]
      exact mem_cons_of_mem _ hx
    | succ k => exact absurd (cons.inj hst).1 he

/-- A device with something behind it. -/
theorem clean_device (he : slash ∉ e) (h : Left true st) (hne : st ≠ []) :
    clean (hash :: c :: (e ++ slash :: join st)) = hash :: c :: (e ++ slash :: join st) := by
  obtain ⟨hdev, hbeh⟩ := device_eq c he (.inr ⟨join st, rfl⟩)
  have hnorm : norm true (slash :: join st) = st := by
    have := h.norm_join
    rw [norm] at this ⊢
    rwa [elements_slash_cons]
  rw [clean, if_pos (show (hash :: c :: (e ++ slash :: join st)).head? = some hash from rfl), hdev,
    hbeh, hnorm, if_neg hne]
  rfl

/-- A name in front of a slash, with a device in front of it that ends before. -/
theorem ends_device {t : List UInt8} (he : slash ∉ e) (ht : t = [] ∨ ∃ r, t = slash :: r) :
    Ends (hash :: c :: (e ++ t)) ↔ t ≠ [] := by
  constructor
  · rintro h rfl
    rcases h rfl with h | h
    · cases h
    · rw [append_nil] at h
      exact he h
  · intro hne _
    obtain ⟨r, rfl⟩ := ht.resolve_left hne
    exact .inr (mem_append_right _ mem_cons_self)

theorem ends_of_head_ne (h : l.head? ≠ some hash) : Ends l := fun hh => absurd hh h

/-- **The names for which all goes well.** A device has something left behind it. What is left of
another name that is not rooted is not one element that reads as a device, nor is it `#` and one
more element. -/
def Sound (l : List UInt8) : Prop :=
  if l.head? = some hash then l = [hash] ∨ norm true (behind l) ≠ []
  else if l.head? = some slash then True
  else (∀ e, norm false l = [e] → e.head? = some hash → e = [hash]) ∧
    ∀ e, norm false l ≠ [[hash], e]

/-- What is left of a relative name that begins with `#`. -/
theorem Left.join_cases (h : Left false (e :: st)) (he : e.head? = some hash) :
    (Ends (join (e :: st)) → clean (join (e :: st)) = join (e :: st)) ∧
      (Ends (join (e :: st)) ↔ (st = [] → e = [hash]) ∧ ∀ f, e :: st ≠ [[hash], f]) := by
  obtain ⟨hne, hsl⟩ := h.elem e mem_cons_self
  obtain _ | ⟨c₀, e⟩ := e
  · exact absurd rfl hne
  cases he
  have htail := h.tail (e := hash :: e) (by simp [hash, dot])
  obtain _ | ⟨c, e⟩ := e
  · -- the element is `#`
    rcases st with _ | ⟨f, _ | ⟨g, st⟩⟩
    · rw [join_singleton]
      refine ⟨fun _ => rfl, iff_of_true (fun _ => .inl rfl) ⟨fun _ => rfl, fun f hf => ?_⟩⟩
      cases (cons.inj hf).2
    · -- and one more follows
      obtain ⟨-, hfsl⟩ := htail.elem f mem_cons_self
      have hend := ends_device (c := slash) (t := []) hfsl (.inl rfl)
      rw [append_nil] at hend
      have hjoin : join [[hash], f] = hash :: slash :: f := by
        rw [join_cons _ (cons_ne_nil f []), join_singleton]
        rfl
      rw [hjoin, hend]
      exact ⟨fun hno => absurd rfl hno, iff_of_false (fun hno => hno rfl) fun hno => hno.2 f rfl⟩
    · obtain ⟨hfne, hfsl⟩ := htail.elem f mem_cons_self
      have hjoin : join ([hash] :: f :: g :: st) =
          hash :: slash :: (f ++ slash :: join (g :: st)) := by
        rw [join_cons _ (cons_ne_nil f _), join_cons _ (cons_ne_nil g st)]
        rfl
      have hfup : f ≠ [dot, dot] := by
        rintro rfl
        obtain ⟨k, ns, hst, hk, hns⟩ := htail.normal
        rw [hk rfl, replicate_zero, nil_append] at hst
        exact (hns [dot, dot] (by rw [← hst]; exact mem_cons_self)).2 rfl
      rw [hjoin, ends_device hfsl (.inr ⟨_, rfl⟩)]
      refine ⟨fun _ => clean_device hfsl (htail.tail hfup) (cons_ne_nil g st),
        iff_of_true (cons_ne_nil _ _) ⟨fun hst => absurd hst (cons_ne_nil f _), ?_⟩⟩
      intro x hx
      cases (cons.inj (cons.inj hx).2).2
  · have hesl : slash ∉ e := fun hin => hsl (mem_cons_of_mem _ (mem_cons_of_mem _ hin))
    rcases eq_or_ne st [] with rfl | hst
    · have hend := ends_device (c := c) (t := []) hesl (.inl rfl)
      rw [append_nil] at hend
      rw [join_singleton, hend]
      refine ⟨fun hno => absurd rfl hno, iff_of_false (fun hno => hno rfl) fun hno => ?_⟩
      cases (cons.inj (hno.1 rfl)).2
    · have hjoin : join ((hash :: c :: e) :: st) = hash :: c :: (e ++ slash :: join st) :=
        join_cons _ hst
      rw [hjoin, ends_device hesl (.inr ⟨_, rfl⟩)]
      refine ⟨fun _ => clean_device hesl htail hst,
        iff_of_true (cons_ne_nil _ _) ⟨fun hno => absurd hno hst, fun f hf => ?_⟩⟩
      cases (cons.inj (cons.inj hf).1).2

/-- The first element of what is left has the first byte of the name. -/
theorem Left.head_join (h : Left rooted (e :: st)) : (join (e :: st)).head? = e.head? := by
  obtain ⟨hne, -⟩ := h.elem e mem_cons_self
  rcases eq_or_ne st [] with rfl | hst
  · rw [join_singleton]
  · rw [join_cons e hst, List.head?_append_of_ne_nil e hne]

/-- **For which names `cleanname` stays in memory twice**, and that the second time changes
nothing. -/
theorem sound_spec (l : List UInt8) : (Sound l ↔ Ends l ∧ Ends (clean l)) ∧
    (Ends (clean l) → clean (clean l) = clean l) := by
  by_cases hhash : l.head? = some hash
  · obtain _ | ⟨c₀, l⟩ := l
    · cases hhash
    obtain rfl := some.inj hhash
    obtain _ | ⟨c, l⟩ := l
    · exact ⟨iff_of_true (.inl rfl) ⟨fun _ => .inl rfl, fun _ => .inl rfl⟩, fun _ => rfl⟩
    obtain ⟨e, t, rfl, he, ht⟩ := exists_split l
    obtain ⟨hdev, hbeh⟩ := device_eq c he ht
    have hleft := left_norm true t
    have hclean : clean (hash :: c :: (e ++ t)) = if norm true t = [] then hash :: c :: e
        else hash :: c :: (e ++ slash :: join (norm true t)) := by
      rw [clean, if_pos hhash, hdev, hbeh]
      rfl
    have hsound : Sound (hash :: c :: (e ++ t)) ↔ norm true t ≠ [] := by
      rw [Sound, if_pos hhash, hbeh]
      exact or_iff_right fun h => by cases (cons.inj h).2
    rw [hsound, hclean, ends_device he ht]
    by_cases hst : norm true t = []
    · have hend := ends_device (c := c) (t := []) he (.inl rfl)
      rw [append_nil] at hend
      rw [if_pos hst, hend]
      exact ⟨iff_of_false (fun h => h hst) fun h => h.2 rfl, fun h => absurd rfl h⟩
    · rw [if_neg hst, ends_device he (.inr ⟨_, rfl⟩)]
      refine ⟨iff_of_true hst ⟨?_, cons_ne_nil _ _⟩, fun _ => clean_device he hleft hst⟩
      rintro rfl
      exact hst rfl
  by_cases hslash : l.head? = some slash
  · have hleft := left_norm true l
    have hclean : clean l = slash :: join (norm true l) := by
      rw [clean, if_neg hhash, if_pos hslash]
    have hnorm : norm true (slash :: join (norm true l)) = norm true l := by
      have := hleft.norm_join
      rw [norm] at this ⊢
      rwa [elements_slash_cons]
    have hhead : (slash :: join (norm true l)).head? ≠ some hash := fun h => by cases h
    rw [Sound, if_neg hhash, if_pos hslash, hclean]
    refine ⟨iff_of_true trivial ⟨ends_of_head_ne hhash, ends_of_head_ne hhead⟩, fun _ => ?_⟩
    rw [clean, if_neg hhead,
      if_pos (show (slash :: join (norm true l)).head? = some slash from rfl), hnorm]
  have hleft := left_norm false l
  have hclean : clean l = if norm false l = [] then [dot] else join (norm false l) := by
    rw [clean, if_neg hhash, if_neg hslash]
  rw [Sound, if_neg hhash, if_neg hslash, hclean]
  cases hst : norm false l with
  | nil =>
    rw [if_pos rfl]
    refine ⟨iff_of_true ⟨fun e he => ?_, fun e he => ?_⟩
      ⟨ends_of_head_ne hhash, fun h => by cases h⟩, fun _ => rfl⟩
    · cases he
    · cases he
  | cons e st =>
    rw [if_neg (cons_ne_nil e st)]
    rw [hst] at hleft
    have hhead := hleft.head_join
    by_cases he : e.head? = some hash
    · obtain ⟨hagain, hends⟩ := hleft.join_cases he
      refine ⟨?_, hagain⟩
      rw [hends, and_iff_right (ends_of_head_ne hhash)]
      refine and_congr_left fun _ => ⟨fun h hnil => ?_, fun h f hf hfh => ?_⟩
      · rw [hnil] at h
        exact h e rfl he
      · obtain ⟨rfl, rfl⟩ := cons.inj hf
        exact h rfl
    · have hends : Ends (join (e :: st)) := ends_of_head_ne (by rwa [hhead])
      refine ⟨iff_of_true ⟨fun f hf hfh => ?_, fun f hf => ?_⟩ ⟨ends_of_head_ne hhash, hends⟩,
        fun _ => ?_⟩
      · obtain ⟨rfl, -⟩ := cons.inj hf
        exact absurd hfh he
      · obtain ⟨rfl, -⟩ := cons.inj hf
        exact he rfl
      · -- no element begins with a slash
        have hnot : (join (e :: st)).head? ≠ some slash := by
          rw [hhead]
          exact fun h => (hleft.elem e mem_cons_self).2 (List.mem_of_mem_head? h)
        rw [clean, if_neg (by rwa [hhead]), if_neg hnot, hleft.norm_join, if_neg (cons_ne_nil e st)]

theorem zero_not_mem_clean (h0 : 0 ∉ l) : 0 ∉ clean l := by
  have hjoin : ∀ rooted l, 0 ∉ l → 0 ∉ join (norm rooted l) := by
    intro rooted l h0
    rcases (norm rooted l).eq_nil_or_concat' with hst | ⟨st, e, hst⟩
    · rw [hst]
      exact not_mem_nil
    · have hbytes : ∀ x ∈ st ++ [e], 0 ∉ x := by
        intro x hx hz
        rw [← hst] at hx
        exact h0 ((of_mem_norm hx).2.2 0 hz)
      rw [hst, join_concat]
      intro h
      rcases mem_append.1 h with h | h
      · exact zero_not_mem_flat (fun x hx => hbytes x (mem_append_left _ hx)) h
      · exact hbytes e (by simp) h
  have hdev : 0 ∉ device l := by
    intro h
    rcases mem_append.1 h with h | h
    · exact h0 (mem_of_mem_take h)
    · exact h0 (mem_of_mem_drop ((takeWhile_sublist _).subset h))
  have hbeh : 0 ∉ behind l := fun h =>
    h0 (mem_of_mem_drop ((dropWhile_sublist _).subset h))
  have hsl : (0 : UInt8) ≠ slash := by decide
  rw [clean]
  split_ifs
  · exact hdev
  · intro h
    rcases mem_append.1 h with h | h
    · exact hdev h
    · exact (mem_cons.1 h).elim hsl (hjoin true _ hbeh)
  · exact fun h => (mem_cons.1 h).elim hsl (hjoin true _ h0)
  · decide
  · exact hjoin false _ h0

end Again

/-- **`cleanname` finds the name that is wanted**, in place and without touching other memory, and
when it is called once more the name stays as it is, if and only if the name is sound. -/
theorem cleanname_iff (l : List UInt8) (h0 : 0 ∉ l) :
    (∀ m, Holds m l → ∃ m', cleanname (room l) m = some m' ∧ Holds m' (clean l) ∧
      ∃ m'', cleanname (room (clean l)) m' = some m'' ∧ Holds m'' (clean l)) ↔ Sound l := by
  obtain ⟨hsound, hagain⟩ := sound_spec l
  have h0' := zero_not_mem_clean h0
  rw [hsound]
  constructor
  · intro h
    have hl : Holds (fun i => (l ++ [0]).getD i 0) l := by
      refine List.ext_getElem (Buffer.length_load _ _ _) fun k hk hk' => ?_
      rw [Buffer.getElem_load, Nat.zero_add, List.getD_eq_getElem _ _ hk']
    obtain ⟨m', hrun, hl', m'', hrun', -⟩ := h _ hl
    constructor
    · by_contra hno
      rw [cleanname_none h0 hl hno] at hrun
      cases hrun
    · by_contra hno
      rw [cleanname_none h0' hl' hno] at hrun'
      cases hrun'
  · rintro ⟨hends, hends'⟩ m hl
    obtain ⟨m', hrun, hl'⟩ := cleanname_spec h0 hl hends
    obtain ⟨m'', hrun', hl''⟩ := cleanname_spec h0' hl' hends'
    rw [hagain hends'] at hl''
    exact ⟨m', hrun, hl', m'', hrun', hl''⟩

/-- The name `a/../b/.`. -/
theorem cleanname_iff_relative :
    ∃ m', cleanname 9 (fun i => [0x61, 0x2f, 0x2e, 0x2e, 0x2f, 0x62, 0x2f, 0x2e, 0].getD i 0) =
      some m' ∧ Holds m' [0x62] ∧ ∃ m'', cleanname 2 m' = some m'' ∧ Holds m'' [0x62] := by
  refine (cleanname_iff [0x61, 0x2f, 0x2e, 0x2e, 0x2f, 0x62, 0x2f, 0x2e] (by decide)).2 ?_ _ rfl
  have hnorm : norm false [0x61, 0x2f, 0x2e, 0x2e, 0x2f, 0x62, 0x2f, 0x2e] = [[0x62]] := rfl
  rw [Sound, if_neg (by decide), if_neg (by decide), hnorm]
  refine ⟨fun e he hh => ?_, fun e he => ?_⟩
  · obtain ⟨rfl, -⟩ := List.cons.inj he
    cases hh
  · cases (List.cons.inj he).2

/-- **The device name `#s`** is read beyond its end. -/
theorem cleanname_overrun : ¬∀ l : List UInt8, 0 ∉ l → ∀ m, Holds m l → ∃ m',
    cleanname (room l) m = some m' ∧ Holds m' (clean l) ∧
      ∃ m'', cleanname (room (clean l)) m' = some m'' ∧ Holds m'' (clean l) := by
  intro h
  have hl : Holds (fun i => [0x23, 0x73, 0].getD i 0) [0x23, 0x73] := rfl
  obtain ⟨m', hrun, -⟩ := h [0x23, 0x73] (by decide) _ hl
  rw [cleanname_none (by decide) hl (by decide)] at hrun
  cases hrun

end CleanName

end Libc

end Plan9
