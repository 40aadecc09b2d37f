import Mathlib.Algebra.Order.Field.Basic
import Mathlib.Algebra.Order.Field.Rat
import Mathlib.Data.BitVec
import Mathlib.Data.Rat.Cast.Order
import Mathlib.Tactic.Linarith
import Mathlib.Tactic.NormNum
import Mathlib.Tactic.Ring

/-!
# The time of day

`tod.c` and `mul64fract.c`: the time in nanoseconds is computed from the ticks of the fast clock
with a fixed-point multiplier, from a base that is moved from time to time.

* `Plan9.Kernel.mul64fract_eq` – the middle of a 128-bit product, from 32-bit parts;
* `Plan9.Kernel.mk64fract_represents` – the fractions;
* `Plan9.Kernel.tod_exact` – the time that is read never decreases, and moving the base changes it
  by one unit at most.
-/

namespace Plan9

namespace Kernel

/-! ### Fixed-point numbers -/

/-- The middle 64 bits of a product. -/
def mul64fract (a b : BitVec 64) : BitVec 64 :=
  let bl := b.setWidth 32
  let bh := (b >>> 32).setWidth 32
  let al := a.setWidth 32
  let ah := (a >>> 32).setWidth 32
  ((al.setWidth 64 * bl.setWidth 64) >>> 32) + al.setWidth 64 * bh.setWidth 64 +
    ah.setWidth 64 * bl.setWidth 64 + ((ah.setWidth 64 * bh.setWidth 64) <<< 32)

/-- `multiplier = (to<<32)/from` -/
def mk64fract (to_ from_ : BitVec 64) : BitVec 64 := (to_ <<< 32) / from_

/-- A 31.32 fixed-point number is a quotient rounded down. -/
structure Represents (x : BitVec 64) (q : ℚ) : Prop where
  small : x.toNat < 2 ^ 63
  le : (x.toNat : ℚ) / 2 ^ 32 ≤ q
  lt : q < (x.toNat : ℚ) / 2 ^ 32 + 1 / 2 ^ 32

theorem middle_eq (ah al bh bl : ℕ) : (2 ^ 32 * ah + al) * (2 ^ 32 * bh + bl) / 2 ^ 32 =
      al * bl / 2 ^ 32 + al * bh + ah * bl + ah * bh * 2 ^ 32 := by
  have h : (2 ^ 32 * ah + al) * (2 ^ 32 * bh + bl) =
      al * bl + 2 ^ 32 * (al * bh + ah * bl + ah * bh * 2 ^ 32) := by ring
  rw [h, Nat.add_mul_div_left _ _ (Nat.two_pow_pos 32)]
  ring

/-- **The middle of a product.** -/
theorem mul64fract_eq (a b : BitVec 64) :
    (mul64fract a b).toNat = a.toNat * b.toNat / 2 ^ 32 % 2 ^ 64 := by
  have ha := Nat.div_add_mod a.toNat (2 ^ 32)
  have hb := Nat.div_add_mod b.toNat (2 ^ 32)
  have hal := Nat.mod_lt a.toNat (Nat.two_pow_pos 32)
  have hbl := Nat.mod_lt b.toNat (Nat.two_pow_pos 32)
  have hah : a.toNat / 2 ^ 32 < 2 ^ 32 := Nat.div_lt_of_lt_mul a.isLt
  have hbh : b.toNat / 2 ^ 32 < 2 ^ 32 := Nat.div_lt_of_lt_mul b.isLt
  simp only [mul64fract, BitVec.toNat_add, BitVec.toNat_mul, BitVec.toNat_ushiftRight,
    BitVec.toNat_shiftLeft, BitVec.toNat_setWidth, Nat.shiftRight_eq_div_pow, Nat.shiftLeft_eq]
  rw [← ha, ← hb, middle_eq, ha, hb]
  generalize a.toNat / 2 ^ 32 = ah at hah ⊢
  generalize a.toNat % 2 ^ 32 = al at hal ⊢
  generalize b.toNat / 2 ^ 32 = bh at hbh ⊢
  generalize b.toNat % 2 ^ 32 = bl at hbl ⊢
  have hlow : al * bl < 2 ^ 64 := lt_of_lt_of_le (Nat.mul_lt_mul'' hal hbl) (by norm_num)
  have hword : ∀ {x : ℕ}, x < 2 ^ 32 → x % 2 ^ 32 % 2 ^ 64 = x ∧ x % 2 ^ 64 = x := by
    intro x hx
    omega
  simp only [hword hal, hword hah, hword hbl, hword hbh, Nat.mod_eq_of_lt hlow,
    Nat.add_mod_mod, Nat.mod_add_mod, Nat.mod_mul_mod]

theorem toNat_mk64fract {num : BitVec 64} (den : BitVec 64) (hnum : num.toNat < 2 ^ 32) :
    (mk64fract num den).toNat = num.toNat * 2 ^ 32 / den.toNat := by
  rw [mk64fract, BitVec.toNat_udiv, BitVec.toNat_shiftLeft, Nat.shiftLeft_eq,
    Nat.mod_eq_of_lt (by omega)]

/-- **The fractions**, if the shift does not overflow. -/
theorem mk64fract_represents (num den : BitVec 64) (hnum : num.toNat < 2 ^ 32)
    (hsmall : num.toNat < 2 ^ 31 * den.toNat) :
    Represents (mk64fract num den) (num.toNat / den.toNat) := by
  have hden : 0 < den.toNat := by
    rcases Nat.eq_zero_or_pos den.toNat with h | h
    · rw [h] at hsmall
      exact absurd hsmall (Nat.not_lt_zero _)
    · exact h
  have hx := toNat_mk64fract den hnum
  generalize hfract : mk64fract num den = fract at hx ⊢
  generalize hx' : fract.toNat = x at hx
  have hle : x * den.toNat ≤ num.toNat * 2 ^ 32 := by
    rw [hx]
    exact Nat.div_mul_le_self _ _
  have hlt : num.toNat * 2 ^ 32 < (x + 1) * den.toNat := by
    rw [hx, Nat.add_mul, Nat.one_mul]
    exact Nat.lt_div_mul_add hden
  have hden' : (0 : ℚ) < den.toNat := Nat.cast_pos.2 hden
  refine ⟨?_, ?_, ?_⟩ <;> rw [hx']
  · have h : x * den.toNat < 2 ^ 63 * den.toNat := by omega
    exact lt_of_mul_lt_mul_right h (Nat.zero_le _)
  · rw [div_le_div_iff₀ (by norm_num) hden']
    exact_mod_cast hle
  · rw [← add_div, div_lt_div_iff₀ hden' (by norm_num)]
    exact_mod_cast hlt

/-! ### The clock -/

/-- frequency of the tod clock -/
def TODFREQ : BitVec 64 := 1000000000

@[inherit_doc TODFREQ]
def MicroFREQ : BitVec 64 := 1000000

/-- The state of the clock. -/
structure Tod where
  multiplier : BitVec 64
  divider : BitVec 64
  umultiplier : BitVec 64
  udivider : BitVec 64
  /-- frequency of fast clock -/
  hz : BitVec 64
  /-- last reading of fast clock -/
  last : BitVec 64
  /-- offset from epoch to last -/
  off : BitVec 64
  /-- last return value from todget -/
  lasttime : BitVec 64
  /-- add `delta` each slow clock tick from `sstart` to `send` -/
  delta : BitVec 64
  sstart : BitVec 32
  send : BitVec 32
  deriving DecidableEq, Repr

/-- Calculate the multipliers. -/
def todsetfreq (f : BitVec 64) (tod : Tod) : Tod := { tod with
  hz := f
  multiplier := mk64fract TODFREQ f
  divider := mk64fract f TODFREQ + 1
  umultiplier := mk64fract MicroFREQ f
  udivider := mk64fract f MicroFREQ + 1 }

/-- Add in the correction, `t` being `sys->ticks`. -/
def correct (t : BitVec 32) (tod : Tod) : Tod :=
  if tod.sstart ≠ tod.send then
    let t := if tod.send ≤ t then tod.send else t
    { tod with off := tod.off + tod.delta * (t - tod.sstart).setWidth 64, sstart := t }
  else tod

/-- The time at a reading of the fast clock. -/
def epoch (ticks : BitVec 64) (tod : Tod) : BitVec 64 :=
  let diff := ticks - tod.last
  let diff := if diff.toInt < 0 then 0 else diff
  mul64fract diff tod.multiplier + tod.off

/-- Get the time of day in nanoseconds. The comparison is one of unsigned numbers. -/
def todget (ticks : BitVec 64) (t : BitVec 32) (tod : Tod) : Tod × BitVec 64 :=
  let tod := correct t tod
  let x := epoch ticks tod
  if x < tod.lasttime then (tod, tod.lasttime) else ({ tod with lasttime := x }, x)

/-- The first half of `todfix`, before the lock: the fast clock is read. -/
def todfixDiff (ticks : BitVec 64) (tod : Tod) : Option (BitVec 64) :=
  let diff := ticks - tod.last
  if tod.hz.toInt < diff.toInt then some diff else none

/-- The second half of `todfix`: the base is moved. -/
def todfixMove (ticks diff : BitVec 64) (tod : Tod) : Tod :=
  { tod with last := ticks, off := mul64fract diff tod.multiplier + tod.off }

/-! ### Runs -/

/-- The clock, and the reading and the difference with which `todfix` waits for the lock. It runs on
one processor. -/
structure TodState where
  tod : Tod
  fix : Option (BitVec 64 × BitVec 64)

/-- What happens. -/
inductive TodEvent
  | todget (ticks : BitVec 64) (t : BitVec 32)
  | todfixRead (ticks : BitVec 64)
  | todfixLocked
  deriving DecidableEq

/-- One event, and what it returns. -/
def todStep (s : TodState) : TodEvent → TodState × Option (BitVec 64)
  | .todget ticks t => ({ s with tod := (todget ticks t s.tod).1 }, some (todget ticks t s.tod).2)
  | .todfixRead ticks =>
    match s.fix with
    | some _ => (s, none)
    | none => ({ s with fix := (todfixDiff ticks s.tod).map fun diff => (ticks, diff) }, none)
  | .todfixLocked =>
    match s.fix with
    | some (ticks, diff) => (⟨todfixMove ticks diff s.tod, none⟩, none)
    | none => (s, none)

/-- A run, and what the calls of `todget` in it have returned. -/
def todRun (s : TodState) : List TodEvent → TodState × List (BitVec 64)
  | [] => (s, [])
  | ev :: evs =>
    let r := todStep s ev
    let r' := todRun r.1 evs
    (r'.1, r.2.toList ++ r'.2)

variable {s : TodState} {tod : Tod} {ticks : BitVec 64} {t : BitVec 32}

@[simp]
theorem correct_lasttime : (correct t tod).lasttime = tod.lasttime := by
  rw [correct]
  split_ifs <;> rfl

/-- What is returned is kept as the last time, which does not decrease. -/
theorem todget_lasttime (ticks : BitVec 64) (t : BitVec 32) (tod : Tod) :
    (todget ticks t tod).1.lasttime = (todget ticks t tod).2 ∧
    tod.lasttime ≤ (todget ticks t tod).2 := by
  rw [todget]
  split_ifs with h
  · rw [correct_lasttime] at h ⊢
    exact ⟨rfl, BitVec.le_refl _⟩
  · rw [correct_lasttime] at h
    exact ⟨rfl, BitVec.not_lt.1 h⟩

/-- A step does not decrease the last time, and returns it if anything. -/
theorem todStep_lasttime (ev : TodEvent) : s.tod.lasttime ≤ (todStep s ev).1.tod.lasttime ∧
    ∀ x ∈ (todStep s ev).2, x = (todStep s ev).1.tod.lasttime := by
  cases ev with
  | todget ticks t =>
    obtain ⟨heq, hle⟩ := todget_lasttime ticks t s.tod
    refine ⟨heq ▸ hle, ?_⟩
    rintro x hx
    exact (Option.some.inj hx).symm.trans heq.symm
  | todfixRead ticks =>
    rw [todStep]
    cases s.fix <;> exact ⟨BitVec.le_refl _, nofun⟩
  | todfixLocked =>
    rw [todStep]
    rcases s.fix with - | ⟨ticks, diff⟩ <;> exact ⟨BitVec.le_refl _, nofun⟩

/-- **Time does not go backwards.** -/
theorem todRun_sorted (evs : List TodEvent) :
    (∀ x ∈ (todRun s evs).2, s.tod.lasttime ≤ x) ∧ (todRun s evs).2.Pairwise (· ≤ ·) := by
  induction evs generalizing s with
  | nil => exact ⟨nofun, .nil⟩
  | cons ev evs ih =>
    obtain ⟨hle, hret⟩ := todStep_lasttime (s := s) ev
    obtain ⟨hlow, hsorted⟩ := ih (s := (todStep s ev).1)
    rw [todRun]
    refine ⟨fun x hx => ?_, ?_⟩
    · rcases List.mem_append.1 hx with hx | hx
      · rw [hret x (Option.mem_toList.1 hx)]
        exact hle
      · exact BitVec.le_trans hle (hlow x hx)
    · refine List.pairwise_append.2 ⟨?_, hsorted, fun x hx y hy => ?_⟩
      · cases (todStep s ev).2 with
        | none => exact .nil
        | some x => exact List.pairwise_singleton _ _
      · rw [hret x (Option.mem_toList.1 hx)]
        exact hlow y hy

/-! ### Moving the base -/

/-- A sum is scaled to the sum of what its parts are scaled to, or to one more. -/
theorem scale_add (x y m : ℕ) : (x + y) * m / 2 ^ 32 = x * m / 2 ^ 32 + y * m / 2 ^ 32 ∨
      (x + y) * m / 2 ^ 32 = x * m / 2 ^ 32 + y * m / 2 ^ 32 + 1 := by
  rw [Nat.add_mul, Nat.add_div (Nat.two_pow_pos 32)]
  split_ifs
  · exact .inr rfl
  · exact .inl rfl

/-- `todfix` waits for the lock with the difference between its reading and the base. -/
def Waiting (s : TodState) : Prop :=
  ∀ r ∈ s.fix, r.2 = r.1 - s.tod.last

theorem correct_last : (correct t tod).last = tod.last := by
  rw [correct]
  split_ifs <;> rfl

theorem todget_last : (todget ticks t tod).1.last = tod.last := by
  rw [todget]
  split_ifs <;> exact correct_last

theorem Waiting.step (h : Waiting s) (ev : TodEvent) : Waiting (todStep s ev).1 := by
  cases ev with
  | todget ticks t =>
    intro r hr
    rw [h r hr]
    exact congrArg _ todget_last.symm
  | todfixRead ticks =>
    rw [todStep]
    cases hfix : s.fix with
    | some r => exact h
    | none =>
      rintro r hr
      obtain ⟨diff, hdiff, rfl⟩ := Option.map_eq_some_iff.1 hr
      rw [todfixDiff] at hdiff
      split_ifs at hdiff
      exact (Option.some.inj hdiff).symm
  | todfixLocked =>
    rw [todStep]
    rcases hfix : s.fix with - | ⟨ticks, diff⟩
    · exact h
    · exact nofun

theorem Waiting.run (h : Waiting s) (evs : List TodEvent) : Waiting (todRun s evs).1 := by
  induction evs generalizing s with
  | nil => exact h
  | cons ev evs ih => exact ih (h.step ev)

theorem mul64fract_ofNat (a b : BitVec 64) :
    mul64fract a b = BitVec.ofNat 64 (a.toNat * b.toNat / 2 ^ 32) := by
  apply BitVec.eq_of_toNat_eq
  rw [mul64fract_eq, BitVec.toNat_ofNat]

/-- The time, when the fast clock has not gone back behind the base. -/
theorem epoch_eq (tod : Tod) (h : (ticks - tod.last).toNat < 2 ^ 63) : epoch ticks tod =
      BitVec.ofNat 64 ((ticks - tod.last).toNat * tod.multiplier.toNat / 2 ^ 32) + tod.off := by
  have hpos : ¬(ticks - tod.last).toInt < 0 := by
    rw [BitVec.toInt_eq_toNat_of_lt (by omega)]
    omega
  rw [epoch]
  simp only [if_neg hpos, mul64fract_ofNat]

variable {base diff : BitVec 64}

theorem correct_todfixMove :
    correct t (todfixMove base diff tod) = todfixMove base diff (correct t tod) := by
  by_cases h : tod.sstart ≠ tod.send
  · have h' : (todfixMove base diff tod).sstart ≠ (todfixMove base diff tod).send := h
    rw [correct, correct, if_pos h, if_pos h']
    simp only [todfixMove, BitVec.add_assoc]
    rfl
  · have h' : ¬(todfixMove base diff tod).sstart ≠ (todfixMove base diff tod).send := h
    rw [correct, correct, if_neg h, if_neg h']

theorem correct_multiplier : (correct t tod).multiplier = tod.multiplier := by
  rw [correct]
  split_ifs <;> rfl

/-- What is returned is the larger one of the time and the last one. -/
theorem toNat_todget : (todget ticks t tod).2.toNat =
    max tod.lasttime.toNat (epoch ticks (correct t tod)).toNat := by
  rw [todget]
  simp only [correct_lasttime]
  split_ifs with h
  · exact (max_eq_left (BitVec.lt_def.1 h).le).symm
  · exact (max_eq_right (BitVec.le_def.1 (BitVec.not_lt.1 h))).symm

/-- **Moving the base** makes the time one unit less at most, as long as it fits. -/
theorem epoch_todfixMove (tod : Tod) (hdiff : diff = base - tod.last)
    (h : diff.toNat + (ticks - base).toNat < 2 ^ 63) (hfits : tod.off.toNat +
      (diff.toNat + (ticks - base).toNat) * tod.multiplier.toNat / 2 ^ 32 < 2 ^ 64) :
    (epoch ticks (todfixMove base diff tod)).toNat ≤ (epoch ticks tod).toNat ∧
      (epoch ticks tod).toNat ≤ (epoch ticks (todfixMove base diff tod)).toNat + 1 := by
  have hsum : (ticks - tod.last).toNat = diff.toNat + (ticks - base).toNat := by
    have hadd : ticks - tod.last = diff + (ticks - base) := by
      rw [hdiff]
      bv_omega
    rw [hadd, BitVec.toNat_add]
    exact Nat.mod_eq_of_lt (by omega)
  have hbefore : (epoch ticks tod).toNat = tod.off.toNat +
      (diff.toNat + (ticks - base).toNat) * tod.multiplier.toNat / 2 ^ 32 := by
    rw [epoch_eq tod (by omega), BitVec.toNat_add, BitVec.toNat_ofNat, hsum, Nat.mod_add_mod,
      Nat.add_comm]
    exact Nat.mod_eq_of_lt hfits
  have hscale := scale_add diff.toNat (ticks - base).toNat tod.multiplier.toNat
  have hafter : (epoch ticks (todfixMove base diff tod)).toNat = tod.off.toNat +
      (diff.toNat * tod.multiplier.toNat / 2 ^ 32 +
        (ticks - base).toNat * tod.multiplier.toNat / 2 ^ 32) := by
    have hmoved : epoch ticks (todfixMove base diff tod) =
        BitVec.ofNat 64 ((ticks - base).toNat * tod.multiplier.toNat / 2 ^ 32) +
          (mul64fract diff tod.multiplier + tod.off) :=
      epoch_eq (todfixMove base diff tod) (by simp only [todfixMove]; omega)
    rw [hmoved, mul64fract_ofNat, BitVec.toNat_add, BitVec.toNat_add, BitVec.toNat_ofNat,
      BitVec.toNat_ofNat, Nat.mod_add_mod, Nat.mod_add_mod, Nat.add_mod_mod,
      Nat.mod_eq_of_lt (by omega)]
    omega
  rw [hbefore, hafter]
  omega

/-- **Moving the base** makes what is returned one unit less at most, as long as the time fits. -/
theorem todget_todfixMove (hdiff : diff = base - tod.last)
    (h : diff.toNat + (ticks - base).toNat < 2 ^ 63) (hfits : (correct t tod).off.toNat +
      (diff.toNat + (ticks - base).toNat) * tod.multiplier.toNat / 2 ^ 32 < 2 ^ 64) :
    (todget ticks t (todfixMove base diff tod)).2.toNat ≤ (todget ticks t tod).2.toNat ∧
      (todget ticks t tod).2.toNat ≤ (todget ticks t (todfixMove base diff tod)).2.toNat + 1 := by
  have hlasttime : (todfixMove base diff tod).lasttime = tod.lasttime := rfl
  have hmove := epoch_todfixMove (correct t tod) (hdiff.trans (by rw [correct_last])) h
    (by rwa [correct_multiplier])
  rw [toNat_todget, toNat_todget, correct_todfixMove, hlasttime]
  omega

/-! ### Main result -/

/-- **The clock.** Products and fractions are exact, up to the rounding of a 31.32 number; whatever
the readings of the fast clock, the times that are returned do not decrease, as unsigned numbers
and thus as signed ones below 2^63; and moving the base at any point of a run changes what would be
returned by one unit at most, as long as the time fits. -/
theorem tod_exact (f : BitVec 64) (hf : 1 ≤ f.toNat ∧ f.toNat ≤ 2 ^ 34) (tod : Tod)
    (evs : List TodEvent) :
    (∀ a b, (mul64fract a b).toNat = a.toNat * b.toNat / 2 ^ 32 % 2 ^ 64) ∧
      Represents (todsetfreq f tod).multiplier (10 ^ 9 / f.toNat) ∧
      (f.toNat < 2 ^ 32 → Represents ((todsetfreq f tod).divider - 1) (f.toNat / 10 ^ 9)) ∧
      (todRun ⟨todsetfreq f tod, none⟩ evs).2.Pairwise (fun x y => x.toNat ≤ y.toNat) ∧
      ((∀ x ∈ (todRun ⟨todsetfreq f tod, none⟩ evs).2, x.toNat < 2 ^ 63) →
        (todRun ⟨todsetfreq f tod, none⟩ evs).2.Pairwise fun x y => x.toInt ≤ y.toInt) ∧
      ∀ s base diff, (todRun ⟨todsetfreq f tod, none⟩ evs).1 = ⟨s, some (base, diff)⟩ →
        ∀ ticks t, diff.toNat + (ticks - base).toNat < 2 ^ 63 →
          (correct t s).off.toNat +
            (diff.toNat + (ticks - base).toNat) * s.multiplier.toNat / 2 ^ 32 < 2 ^ 64 →
          (todget ticks t (todfixMove base diff s)).2.toNat ≤ (todget ticks t s).2.toNat ∧
            (todget ticks t s).2.toNat ≤ (todget ticks t (todfixMove base diff s)).2.toNat + 1 := by
  have hfreq : TODFREQ.toNat = 10 ^ 9 := by decide
  have hsorted := (todRun_sorted (s := ⟨todsetfreq f tod, none⟩) evs).2
  refine ⟨mul64fract_eq, ?_, fun hsmall => ?_, hsorted.imp BitVec.le_def.1, fun hfits => ?_,
    fun s base diff hs ticks t => ?_⟩
  · have h := mk64fract_represents TODFREQ f (by rw [hfreq]; norm_num)
      (by rw [hfreq]; omega)
    rw [hfreq] at h
    exact_mod_cast h
  · have h := mk64fract_represents f TODFREQ hsmall (by rw [hfreq]; omega)
    rw [hfreq] at h
    have hdiv : (todsetfreq f tod).divider - 1 = mk64fract f TODFREQ :=
      BitVec.add_sub_cancel _ _
    rw [hdiv]
    exact_mod_cast h
  · refine hsorted.imp_of_mem fun {x y} hx hy hle => ?_
    rw [BitVec.toInt_eq_toNat_of_lt (by have := hfits x hx; omega),
      BitVec.toInt_eq_toNat_of_lt (by have := hfits y hy; omega)]
    exact Int.ofNat_le.2 (BitVec.le_def.1 hle)
  · have hwait : Waiting (todRun ⟨todsetfreq f tod, none⟩ evs).1 :=
      Waiting.run (fun _ hr => absurd hr (Option.not_mem_none _)) evs
    rw [hs] at hwait
    exact todget_todfixMove (hwait _ rfl)

/-- A run at 3 GHz. -/
theorem tod_exact_run : (todRun ⟨todsetfreq 3000000000 ⟨0, 0, 0, 0, 0, 0, 0, 0, 0, 0, 0⟩, none⟩
    [.todget 5 0, .todfixRead 9000000000, .todfixLocked, .todget 9000000001 0]).2.Pairwise
      (fun x y => x.toNat ≤ y.toNat) :=
  (tod_exact 3000000000 (by decide) _ _).2.2.2.1

/-- A small frequency is not within 2^-32 of its size, a large one overflows, from 2^63 on times
are negative numbers, and a base that is moved shows where the readings are 2^63 ticks apart, and
where the time does not fit. -/
theorem tod_inexact :
    ¬|((mk64fract 1 TODFREQ).toNat : ℚ) / 2 ^ 32 - 1 / 10 ^ 9| ≤ 1 / 2 ^ 32 * (1 / 10 ^ 9) ∧
      mk64fract 0x100000000 TODFREQ = 0 ∧
      (todRun ⟨todsetfreq 1 ⟨0, 0, 0, 0, 0, 0, 0, 0, 0, 0, 0⟩, none⟩
        [.todget 9000000000 0, .todget 9300000000 0]).2.map BitVec.toInt =
          [9000000000000000000, -9146744073709551616] ∧
      (∀ evs ∈ [[], [TodEvent.todfixLocked]],
        (todRun ⟨todsetfreq TODFREQ ⟨0, 0, 0, 0, 0, 0, 0, 0, 0, 0, 0⟩, none⟩
          (.todfixRead 0x4000000000000000 :: evs ++ [.todget 0x8000000000000000 0])).2 =
            if evs = [] then [0] else [0x8000000000000000]) ∧
      ∀ evs ∈ [[], [TodEvent.todfixLocked]],
        (todRun ⟨todsetfreq 3 ⟨0, 0, 0, 0, 0, 0, -2333333333, 0, 0, 0, 0⟩, none⟩
          (.todfixRead 5 :: evs ++ [.todget 7 0])).2 =
            if evs = [] then [0] else [0xffffffffffffffff] := by
  have hfract : (mk64fract 1 TODFREQ).toNat = 4 := by decide
  refine ⟨?_, by decide, by decide, by decide, by decide⟩
  rw [hfract]
  norm_num [abs_le]

end Kernel

end Plan9
