import Mathlib.Algebra.Group.Int.Defs
import Mathlib.Data.Fintype.Defs
import Mathlib.Data.Fintype.Sets
import Mathlib.Data.List.Nodup
import Mathlib.Tactic.Ring
import Plan9.Lib.Run
import Plan9.Lib.Serial

/-!
# Alarms

`alarm.c`: the processes that are to get a note at a certain tick stand in a list, in the order of
these ticks. `procalarm` puts its caller there; the alarm process goes along the list in rounds.
The tick counter has 32 bits, and an alarm of `0` is none. A process that gives its alarm up stays
in the list.

* `Plan9.Kernel.Alarms.Step` – time passes, calls of `procalarm`, rounds;
* `Plan9.Kernel.Alarms.expiry` – the tick that an alarm stands for, without wrap;
* `Plan9.Kernel.Alarms.sorted_procalarm_iff` – when a call keeps the list in order;
* `Plan9.Kernel.Alarms.posts_iff` – when a round posts every alarm that is due;
* `Plan9.Kernel.alarms_kept` – both, and no process is lost, through the runs all of whose steps are
  such.
-/

namespace Plan9

namespace Kernel

open Lib List Function

/-- `HZ`, clock frequency. -/
def HZ : UInt32 := 100

/-- `MS2HZ`, millisec per clock tick. -/
def MS2HZ : UInt32 := 1000 / HZ

def tk2ms (ticks : UInt32) : UInt32 := ticks * MS2HZ

def ms2tk (ms : UInt32) : UInt32 := (ms + MS2HZ / 2) / MS2HZ

/-- The alarm of each process, the list of processes, and the ticks since the start. -/
structure Alarms (P : Type) where
  ticks : ℕ
  alarm : P → UInt32
  list : List P

namespace Alarms

variable {P : Type}

/-- No alarm yet. -/
def init (P : Type) : Alarms P := ⟨0, fun _ => 0, []⟩

variable (s : Alarms P)

/-- `sys->ticks`. -/
def now : UInt32 := .ofNat s.ticks

variable [DecidableEq P]

/-- The call with `time` would set this alarm. -/
def when (time : UInt32) : UInt32 :=
  let when := ms2tk time + s.now
  -- ticks have wrapped to 0? distinguish a wrapped alarm from no alarm
  if when = 0 then 1 else when

/-- The place of a process in the list: in front of the first one whose alarm is not earlier. -/
def link (up : P) (when : UInt32) : List P → List P
  | [] => [up]
  | f :: l => if Serial.signed (s.alarm f - when) ≥ 0 then up :: f :: l else f :: link up when l

/-- `procalarm`: what it returns, and what it leaves. -/
def procalarm (up : P) (time : UInt32) : UInt32 × Alarms P :=
  let old := if s.alarm up ≠ 0 ∧ s.alarm up > s.now then tk2ms (s.alarm up - s.now) else 0
  if time = 0 then (old, { s with alarm := Function.update s.alarm up 0 })
  else
    (old, { s with
      list := s.link up (s.when time) (s.list.erase up)
      alarm := Function.update s.alarm up (s.when time) })

/-- The loop of a round of `alarmkproc`: the list, the alarms and the processes to whom a note was
posted. `held` says whose `debug` lock is held by others. -/
def loop (now : UInt32) (held : P → Bool) : List P → (P → UInt32) → List P × (P → UInt32) × List P
  | [], alarm => ([], alarm, [])
  | rp :: l, alarm =>
    -- the odd test of now vs. rp->alarm is to cope with now wrapping around
    if Serial.signed (now - alarm rp) ≥ 0 then
      if alarm rp ≠ 0 then
        if held rp then (rp :: l, alarm, [])
        else
          let (l, alarm, posted) := loop now held l (Function.update alarm rp 0)
          (l, alarm, rp :: posted)
      else loop now held l alarm
    else (rp :: l, alarm, [])

/-- A round of `alarmkproc`. -/
def alarmkproc (held : P → Bool) : Alarms P :=
  let (list, alarm, _) := loop s.now held s.list s.alarm
  { s with list := list, alarm := alarm }

/-- The processes to whom it posts the note. -/
def posted (held : P → Bool) : List P := (loop s.now held s.list s.alarm).2.2

end Alarms

/-- What happens. -/
inductive AlarmEvent (P : Type)
  /-- time passes -/
  | time (ticks : ℕ)
  | procalarm (up : P) (time : UInt32)
  | alarmkproc (held : P → Bool)

namespace Alarms

variable {P : Type} [DecidableEq P] (s : Alarms P)

/-- What an event leaves. -/
def next : AlarmEvent P → Alarms P
  | .time c => { s with ticks := c }
  | .procalarm up time => (s.procalarm up time).2
  | .alarmkproc held => s.alarmkproc held

omit [DecidableEq P] in
/-- The events can come in any order, but time does not go back. -/
def May : AlarmEvent P → Prop
  | .time c => s.ticks ≤ c
  | _ => True

def Step (a : AlarmEvent P) (t : Alarms P) : Prop := s.May a ∧ t = s.next a

/-! ### What is wanted -/

/-- The tick that an alarm stands for: the one with these low bits that is next to the present. -/
def expiry (alarm : UInt32) : ℤ := s.ticks + Serial.signed (alarm - s.now)

omit [DecidableEq P] in
/-- The processes with an alarm stand in the list in the order in which these expire. -/
def Sorted : Prop :=
  (s.list.filter fun p => s.alarm p ≠ 0).Pairwise fun p q =>
    s.expiry (s.alarm p) ≤ s.expiry (s.alarm q)

/-- A process with an alarm is in the list exactly once. -/
def Once : Prop := ∀ p, s.alarm p ≠ 0 → s.list.count p = 1

/-- A process has an alarm, and its time has passed. -/
def Due (p : P) : Prop := s.alarm p ≠ 0 ∧ s.expiry (s.alarm p) ≤ s.ticks

instance (p : P) : Decidable (s.Due p) :=
  inferInstanceAs (Decidable (s.alarm p ≠ 0 ∧ s.expiry (s.alarm p) ≤ s.ticks))

/-- A round posts the alarm of every process whose time has passed. -/
def Posts (held : P → Bool) : Prop := ∀ p, s.Due p → p ∈ s.posted held

/-- The list from the first process on that has no alarm any more. -/
def stale (l : List P) : List P := l.dropWhile fun p => s.alarm p ≠ 0

/-- When an event does what is wanted:

* time passes, and no alarm is left alone for 2^31 ticks;
* no alarm has expired 2^31 ticks before the new one, and if the word of this is above 2^31, none
  behind a process without an alarm expires before it;
* nobody holds the lock of a process whose alarm is due, and if the word of the present is 2^31 or
  above, such a process is not behind one without an alarm. -/
def Fits : AlarmEvent P → Prop
  | .time c => ∀ p, s.alarm p ≠ 0 → (c : ℤ) < s.expiry (s.alarm p) + 2 ^ 31
  | .procalarm up time => time ≠ 0 →
    (∀ p ∈ s.list, p ≠ up → s.alarm p ≠ 0 →
      s.expiry (s.when time) ≤ s.expiry (s.alarm p) + 2 ^ 31) ∧
    ((s.when time).toNat > 2 ^ 31 → ∀ p ∈ s.stale (s.list.erase up), s.alarm p ≠ 0 →
      s.expiry (s.when time) ≤ s.expiry (s.alarm p))
  | .alarmkproc held => ∀ p, s.Due p →
    held p = false ∧ (s.now.toNat ≥ 2 ^ 31 → p ∉ s.stale s.list)

instance [Fintype P] (a : AlarmEvent P) : Decidable (s.Fits a) :=
  match a with
  | .time c =>
    inferInstanceAs (Decidable (∀ p, s.alarm p ≠ 0 → (c : ℤ) < s.expiry (s.alarm p) + 2 ^ 31))
  | .procalarm up time =>
    inferInstanceAs (Decidable (time ≠ 0 →
      (∀ p ∈ s.list, p ≠ up → s.alarm p ≠ 0 →
        s.expiry (s.when time) ≤ s.expiry (s.alarm p) + 2 ^ 31) ∧
      ((s.when time).toNat > 2 ^ 31 → ∀ p ∈ s.stale (s.list.erase up), s.alarm p ≠ 0 →
        s.expiry (s.when time) ≤ s.expiry (s.alarm p))))
  | .alarmkproc held =>
    inferInstanceAs (Decidable (∀ p, s.Due p →
      held p = false ∧ (s.now.toNat ≥ 2 ^ 31 → p ∉ s.stale s.list)))

/-! ### Ticks -/

section Ticks

variable {s : Alarms P} {t : Alarms P} {a w : UInt32}

omit [DecidableEq P] in
/-- The alarm is the low bits of the tick that it stands for, and this is within 2^31 ticks. -/
theorem expiry_spec (s : Alarms P) (a : UInt32) : (∃ k : ℤ, s.expiry a = a.toNat + 2 ^ 32 * k) ∧
      s.ticks - 2 ^ 31 ≤ s.expiry a ∧ s.expiry a < s.ticks + 2 ^ 31 := by
  have hsub := Serial.toNat_sub a s.now
  have hnow : (s.now.toNat : ℤ) = s.ticks % 4294967296 := by
    rw [now, UInt32.toNat_ofNat']
    omega
  have hlt := Serial.toNat_lt (a - s.now)
  rw [expiry, Serial.signed]
  split_ifs
  · exact ⟨⟨(s.ticks - a.toNat + (a - s.now).toNat) / 4294967296, by omega⟩, by omega, by omega⟩
  · exact ⟨⟨(s.ticks - a.toNat + (a - s.now).toNat) / 4294967296 - 1, by omega⟩, by omega, by omega⟩

omit [DecidableEq P] in
/-- **An alarm keeps its tick** until 2^31 ticks after it. -/
theorem expiry_eq (hle : s.ticks ≤ t.ticks) (hlt : (t.ticks : ℤ) < s.expiry a + 2 ^ 31) :
    t.expiry a = s.expiry a := by
  obtain ⟨⟨k, hk⟩, hge, hlt'⟩ := s.expiry_spec a
  obtain ⟨⟨k', hk'⟩, hge', hlt''⟩ := t.expiry_spec a
  omega

omit [DecidableEq P] in
/-- The test of a round, for an alarm whose tick is not 2^31 ticks ago. -/
theorem signed_now_iff (hlive : (s.ticks : ℤ) < s.expiry a + 2 ^ 31) :
    Serial.signed (s.now - a) ≥ 0 ↔ s.expiry a ≤ s.ticks := by
  obtain ⟨⟨k, hk⟩, hge, hlt⟩ := s.expiry_spec a
  have hsub := Serial.toNat_sub s.now a
  have hnow : (s.now.toNat : ℤ) = s.ticks % 4294967296 := by
    rw [now, UInt32.toNat_ofNat']
    omega
  rw [Serial.signed]
  split_ifs <;> omega

omit [DecidableEq P] in
/-- The test of an insertion. It is the wrong way round for an alarm that has expired more than
2^31 ticks before the new one. -/
theorem signed_sub_iff (hw : (s.ticks : ℤ) ≤ s.expiry w) (hw' : s.expiry w < s.ticks + 2 ^ 30) :
    Serial.signed (a - w) ≥ 0 ↔ s.expiry w ≤ s.expiry a ∨ s.expiry a + 2 ^ 31 < s.expiry w := by
  obtain ⟨⟨k, hk⟩, hge, hlt⟩ := s.expiry_spec a
  obtain ⟨⟨k', hk'⟩, -, -⟩ := s.expiry_spec w
  have hsub := Serial.toNat_sub a w
  rw [Serial.signed]
  split_ifs <;> omega

/-- The tests for a process that has no alarm any more. -/
theorem signed_zero_sub_iff (hw : w ≠ 0) : Serial.signed (0 - w) ≥ 0 ↔ w.toNat > 2 ^ 31 := by
  have hsub := Serial.toNat_sub 0 w
  have hlt := Serial.toNat_lt w
  have hne : w.toNat ≠ 0 := fun h => hw (UInt32.toNat_inj.1 h)
  have hzero : (0 : UInt32).toNat = 0 := rfl
  rw [Serial.signed]
  split_ifs <;> omega

theorem signed_sub_zero_iff (x : UInt32) : Serial.signed (x - 0) ≥ 0 ↔ ¬x.toNat ≥ 2 ^ 31 := by
  have hsub := Serial.toNat_sub x 0
  have hlt := Serial.toNat_lt x
  have hzero : (0 : UInt32).toNat = 0 := rfl
  rw [Serial.signed]
  split_ifs <;> omega

omit [DecidableEq P] in
theorem when_ne_zero (s : Alarms P) (time : UInt32) : s.when time ≠ 0 := by
  rw [when]
  split_ifs with h
  · decide
  · exact h

theorem ms2tk_lt (ms : UInt32) : (ms2tk ms).toNat < 429496730 := by
  have hlt := Serial.toNat_lt (ms + MS2HZ / 2)
  rw [ms2tk, UInt32.toNat_div]
  have h10 : MS2HZ.toNat = 10 := rfl
  rw [h10]
  omega

omit [DecidableEq P] in
/-- A new alarm expires in less than 2^30 ticks. -/
theorem expiry_when (s : Alarms P) (time : UInt32) :
    s.ticks ≤ s.expiry (s.when time) ∧ s.expiry (s.when time) < s.ticks + 2 ^ 30 := by
  obtain ⟨⟨k, hk⟩, hge, hlt⟩ := s.expiry_spec (s.when time)
  have hms := ms2tk_lt time
  have hnow : (s.now.toNat : ℤ) = s.ticks % 4294967296 := by
    rw [now, UInt32.toNat_ofNat']
    omega
  have hadd := Serial.toNat_add (ms2tk time) s.now
  have hwhen : ((s.when time).toNat : ℤ) = (ms2tk time + s.now).toNat ∨
      (ms2tk time + s.now).toNat = 0 ∧ (s.when time).toNat = 1 := by
    rw [when]
    split_ifs with h
    · exact .inr ⟨by rw [h]; rfl, rfl⟩
    · exact .inl rfl
  omega

end Ticks

/-! ### The list -/

section List

variable {s t : Alarms P} {l : List P} {p q up : P} {w : UInt32} {held : P → Bool}

omit [DecidableEq P] in
/-- Where `link` puts a process. -/
theorem link_spec (s : Alarms P) (up : P) (w : UInt32) (l : List P) : ∃ l₁ l₂, l = l₁ ++ l₂ ∧
    s.link up w l = l₁ ++ up :: l₂ ∧ (∀ y ∈ l₁, ¬Serial.signed (s.alarm y - w) ≥ 0) ∧
      ∀ y ∈ l₂.head?, Serial.signed (s.alarm y - w) ≥ 0 := by
  induction l with
  | nil => exact ⟨[], [], rfl, rfl, fun y hy => absurd hy not_mem_nil, by simp⟩
  | cons f l ih =>
    by_cases hstop : Serial.signed (s.alarm f - w) ≥ 0
    · refine ⟨[], f :: l, rfl, ?_, fun y hy => absurd hy not_mem_nil, fun y hy => ?_⟩
      · rw [link, if_pos hstop]
        rfl
      · cases hy
        exact hstop
    · obtain ⟨l₁, l₂, rfl, heq, hpass, hhit⟩ := ih
      refine ⟨f :: l₁, l₂, rfl, ?_, fun y hy => ?_, hhit⟩
      · rw [link, if_neg hstop, heq]
        rfl
      · rcases mem_cons.1 hy with rfl | hy
        · exact hstop
        · exact hpass y hy

/-- **What a round does**: it takes the processes of a part `l₁` off the front of the list and posts
the alarms that they have. It stops in front of one that is not due, or whose lock is held. -/
theorem loop_spec (now : UInt32) (held : P → Bool) (hnd : l.Nodup) (alarm : P → UInt32) :
    ∃ l₁ l₂, l = l₁ ++ l₂ ∧ loop now held l alarm =
        (l₂, fun p => if p ∈ l₁ then 0 else alarm p, l₁.filter fun p => alarm p ≠ 0) ∧
      (∀ y ∈ l₁, Serial.signed (now - alarm y) ≥ 0 ∧ (alarm y ≠ 0 → held y = false)) ∧
      ∀ y ∈ l₂.head?, ¬Serial.signed (now - alarm y) ≥ 0 ∨ alarm y ≠ 0 ∧ held y = true := by
  induction l generalizing alarm with
  | nil => exact ⟨[], [], rfl, by simp [loop], fun y hy => absurd hy not_mem_nil, by simp⟩
  | cons rp l ih =>
    obtain ⟨hrp, hnd⟩ := nodup_cons.1 hnd
    rw [loop]
    -- a round that stops here
    have hstop : ¬Serial.signed (now - alarm rp) ≥ 0 ∨ alarm rp ≠ 0 ∧ held rp = true →
        ∃ l₁ l₂, rp :: l = l₁ ++ l₂ ∧ (rp :: l, alarm, ([] : List P)) =
            (l₂, fun p => if p ∈ l₁ then 0 else alarm p, l₁.filter fun p => alarm p ≠ 0) ∧
          (∀ y ∈ l₁, Serial.signed (now - alarm y) ≥ 0 ∧ (alarm y ≠ 0 → held y = false)) ∧
          ∀ y ∈ l₂.head?, ¬Serial.signed (now - alarm y) ≥ 0 ∨ alarm y ≠ 0 ∧ held y = true := by
      intro h
      refine ⟨[], rp :: l, rfl, by simp, fun y hy => absurd hy not_mem_nil, fun y hy => ?_⟩
      cases hy
      exact h
    by_cases hdue : Serial.signed (now - alarm rp) ≥ 0
    · rw [if_pos hdue]
      by_cases hne : alarm rp ≠ 0
      · rw [if_pos hne]
        by_cases hheld : held rp = true
        · rw [if_pos hheld]
          exact hstop (.inr ⟨hne, hheld⟩)
        · rw [if_neg hheld]
          obtain ⟨l₁, l₂, rfl, heq, hpass, hhit⟩ := ih hnd (update alarm rp 0)
          have hother : ∀ y ∈ l₁ ++ l₂, update alarm rp 0 y = alarm y := by
            intro y hy
            refine update_of_ne ?_ ..
            rintro rfl
            exact hrp hy
          refine ⟨rp :: l₁, l₂, rfl, ?_, fun y hy => ?_, fun y hy => ?_⟩
          · rw [heq]
            refine Prod.ext rfl (Prod.ext ?_ ?_)
            · funext p
              by_cases hp : p = rp
              · rw [hp]
                simp
              · simp [hp]
            · rw [filter_cons_of_pos (by simpa using hne)]
              refine congrArg (rp :: ·) (filter_congr fun y hy => ?_)
              rw [hother y (mem_append_left _ hy)]
          · rcases mem_cons.1 hy with rfl | hy
            · exact ⟨hdue, fun _ => Bool.not_eq_true _ ▸ hheld⟩
            · rw [← hother y (mem_append_left _ hy)]
              exact hpass y hy
          · rw [← hother y (mem_append_right _ (List.mem_of_mem_head? hy))]
            exact hhit y hy
      · rw [if_neg hne]
        obtain ⟨l₁, l₂, rfl, heq, hpass, hhit⟩ := ih hnd alarm
        rw [not_not] at hne
        refine ⟨rp :: l₁, l₂, rfl, ?_, fun y hy => ?_, hhit⟩
        · rw [heq]
          refine Prod.ext rfl (Prod.ext ?_ ?_)
          · funext p
            by_cases hp : p = rp
            · rw [hp]
              simp [hne]
            · simp [hp]
          · rw [filter_cons_of_neg (by simpa using hne)]
        · rcases mem_cons.1 hy with rfl | hy
          · exact ⟨hdue, fun h => absurd hne h⟩
          · exact hpass y hy
    · rw [if_neg hdue]
      exact hstop (.inl hdue)

omit [DecidableEq P] in
theorem sorted_iff : s.Sorted ↔ s.list.Pairwise fun p q => s.alarm p ≠ 0 → s.alarm q ≠ 0 →
    s.expiry (s.alarm p) ≤ s.expiry (s.alarm q) := by
  rw [Sorted, pairwise_filter]
  simp only [decide_eq_true_eq]

/-- What holds of the list between two events. -/
structure Kept (s : Alarms P) : Prop where
  nodup : s.list.Nodup
  mem : ∀ p, s.alarm p ≠ 0 → p ∈ s.list
  sorted : s.Sorted
  live : ∀ p, s.alarm p ≠ 0 → (s.ticks : ℤ) < s.expiry (s.alarm p) + 2 ^ 31

omit [DecidableEq P] in
theorem kept_init : Kept (init P) where
  nodup := nodup_nil
  mem _ hp := absurd rfl hp
  sorted := List.Pairwise.nil
  live _ hp := absurd rfl hp

theorem Kept.once (h : Kept s) : s.Once := fun p hp => count_eq_one_of_mem h.nodup (h.mem p hp)

omit [DecidableEq P] in
/-- From the first process without an alarm on, all stand behind it. -/
theorem mem_stale_of_head {y : P} {l₁ l₂ : List P} (hy : y ∈ l₂)
    (hhead : ∀ h ∈ l₂.head?, s.alarm h = 0) : y ∈ s.stale (l₁ ++ l₂) := by
  rw [stale, dropWhile_append]
  split_ifs
  · cases l₂ with
    | nil => exact hy
    | cons h l₂ =>
      rw [dropWhile_cons_of_neg (by simpa using hhead h rfl)]
      exact hy
  · exact mem_append_right _ hy

omit [DecidableEq P] in
/-- Behind processes with an alarm stands what is not one of them. -/
theorem mem_of_mem_stale {y : P} {l₁ l₂ : List P} (hl₁ : ∀ x ∈ l₁, s.alarm x ≠ 0)
    (hy : y ∈ s.stale (l₁ ++ l₂)) : y ∈ l₂ := by
  rw [stale, dropWhile_append_of_pos fun x hx => decide_eq_true (hl₁ x hx)] at hy
  exact (dropWhile_sublist _).subset hy

/-- **Time passes**, and no alarm is left alone. -/
theorem Kept.time {c : ℕ} (h : Kept s) (hle : s.ticks ≤ c) (hfits : s.Fits (.time c)) :
    Kept (s.next (.time c)) := by
  have hexp : ∀ p, s.alarm p ≠ 0 → (s.next (.time c)).expiry (s.alarm p) = s.expiry (s.alarm p) :=
    fun p hp => expiry_eq hle (hfits p hp)
  refine ⟨h.nodup, h.mem, ?_, fun p hp => ?_⟩
  · rw [sorted_iff]
    refine (sorted_iff.1 h.sorted).imp fun hpq hp hq => ?_
    have := hpq hp hq
    rw [← hexp _ hp, ← hexp _ hq] at this
    exact this
  · have := hfits p hp
    rw [← hexp p hp] at this
    exact this

/-- A process gives its alarm up. -/
theorem Kept.cancel (h : Kept s) : Kept (s.next (.procalarm up 0)) := by
  have hnext : s.next (.procalarm up 0) = { s with alarm := update s.alarm up 0 } := by
    rw [next, procalarm, if_pos rfl]
  rw [hnext]
  have hne : ∀ p, update s.alarm up 0 p ≠ 0 →
      s.alarm p ≠ 0 ∧ update s.alarm up 0 p = s.alarm p := by
    intro p hp
    by_cases hup : p = up
    · rw [hup, update_self] at hp
      exact absurd rfl hp
    · rw [update_of_ne hup] at hp ⊢
      exact ⟨hp, rfl⟩
  refine ⟨h.nodup, fun p hp => h.mem p (hne p hp).1, ?_, fun p hp => ?_⟩
  · rw [sorted_iff]
    refine (sorted_iff.1 h.sorted).imp fun hpq hp hq => ?_
    dsimp only at hp hq ⊢
    rw [(hne _ hp).2, (hne _ hq).2]
    exact hpq (hne _ hp).1 (hne _ hq).1
  · dsimp only at hp ⊢
    rw [(hne p hp).2]
    exact h.live p (hne p hp).1

/-- **A round** keeps the list in order, and no process is lost. -/
theorem Kept.alarmkproc (h : Kept s) (held : P → Bool) : Kept (s.next (.alarmkproc held)) := by
  obtain ⟨l₁, l₂, hl, heq, -, -⟩ := loop_spec s.now held h.nodup s.alarm
  have hnext : s.next (.alarmkproc held) =
      { s with list := l₂, alarm := fun p => if p ∈ l₁ then 0 else s.alarm p } := by
    rw [next, Alarms.alarmkproc, heq]
  have hnd := h.nodup
  have hsorted := sorted_iff.1 h.sorted
  rw [hl] at hnd hsorted
  rw [hnext]
  have hne : ∀ p, (if p ∈ l₁ then 0 else s.alarm p) ≠ 0 → p ∉ l₁ ∧ s.alarm p ≠ 0 := by
    intro p hp
    by_cases hin : p ∈ l₁
    · rw [if_pos hin] at hp
      exact absurd rfl hp
    · rw [if_neg hin] at hp
      exact ⟨hin, hp⟩
  refine ⟨(nodup_append.1 hnd).2.1, fun p hp => ?_, ?_, fun p hp => ?_⟩
  · obtain ⟨hin, hp⟩ := hne p hp
    have hmem := h.mem p hp
    rw [hl] at hmem
    exact (mem_append.1 hmem).resolve_left hin
  · rw [sorted_iff]
    refine (pairwise_append.1 hsorted).2.1.imp fun hpq hp hq => ?_
    dsimp only at hp hq ⊢
    rw [if_neg (hne _ hp).1, if_neg (hne _ hq).1]
    exact hpq (hne _ hp).2 (hne _ hq).2
  · obtain ⟨hin, hp'⟩ := hne p hp
    dsimp only
    rw [if_neg hin]
    exact h.live p hp'

/-- **When a call keeps the list in order.** The process goes in front of the first one whose alarm
is not earlier; one without an alarm counts as such if the word of the new alarm is above 2^31. -/
theorem sorted_procalarm_iff (h : Kept s) (up : P) (time : UInt32) :
    (s.next (.procalarm up time)).Sorted ↔ s.Fits (.procalarm up time) := by
  by_cases htime : time = 0
  · subst htime
    exact iff_of_true h.cancel.sorted fun hne => absurd rfl hne
  set w := s.when time with hw
  have hwne : w ≠ 0 := s.when_ne_zero time
  obtain ⟨hwle, hwlt⟩ := s.expiry_when time
  rw [← hw] at hwle hwlt
  obtain ⟨l₁, l₂, herase, hlink, hpass, hhit⟩ := s.link_spec up w (s.list.erase up)
  have hnext : s.next (.procalarm up time) =
      { s with list := l₁ ++ up :: l₂, alarm := update s.alarm up w } := by
    rw [next, procalarm, if_neg htime, ← hw, hlink]
  have hup : ∀ y ∈ l₁ ++ l₂, y ≠ up := by
    rintro y hy rfl
    rw [← herase] at hy
    exact h.nodup.not_mem_erase hy
  have hsame : ∀ y ∈ l₁ ++ l₂, update s.alarm up w y = s.alarm y :=
    fun y hy => update_of_ne (hup y hy) ..
  have hmem : ∀ y ∈ s.list, y ≠ up → y ∈ l₁ ++ l₂ := by
    intro y hy hne
    rw [← herase]
    exact (mem_erase_of_ne hne).2 hy
  have hold : (l₁ ++ l₂).Pairwise fun p q => s.alarm p ≠ 0 → s.alarm q ≠ 0 →
      s.expiry (s.alarm p) ≤ s.expiry (s.alarm q) := by
    rw [← herase]
    exact (sorted_iff.1 h.sorted).sublist erase_sublist
  -- the new list is in order when the new alarm is where it should be
  have hiff : (s.next (.procalarm up time)).Sorted ↔
      (∀ y ∈ l₁, s.alarm y ≠ 0 → s.expiry (s.alarm y) ≤ s.expiry w) ∧
        ∀ y ∈ l₂, s.alarm y ≠ 0 → s.expiry w ≤ s.expiry (s.alarm y) := by
    rw [sorted_iff, hnext]
    dsimp only
    rw [pairwise_append, pairwise_cons]
    obtain ⟨hold₁, hold₂, hcross⟩ := pairwise_append.1 hold
    constructor
    · rintro ⟨-, ⟨hafter, -⟩, hbefore⟩
      refine ⟨fun y hy hne => ?_, fun y hy hne => ?_⟩
      · have := hbefore y hy up mem_cons_self
        rw [hsame y (mem_append_left _ hy), update_self] at this
        exact this hne hwne
      · have := hafter y hy
        rw [hsame y (mem_append_right _ hy), update_self] at this
        exact this hwne hne
    · rintro ⟨hbefore, hafter⟩
      refine ⟨hold₁.imp_of_mem fun hx hy hle => ?_, ⟨fun y hy => ?_,
        hold₂.imp_of_mem fun hx hy hle => ?_⟩, fun x hx y hy => ?_⟩
      · rw [hsame _ (mem_append_left _ hx), hsame _ (mem_append_left _ hy)]
        exact hle
      · rw [hsame y (mem_append_right _ hy), update_self]
        exact fun _ => hafter y hy
      · rw [hsame _ (mem_append_right _ hx), hsame _ (mem_append_right _ hy)]
        exact hle
      · rw [hsame x (mem_append_left _ hx)]
        rcases mem_cons.1 hy with rfl | hy
        · rw [update_self]
          exact fun hne _ => hbefore x hx hne
        · rw [hsame y (mem_append_right _ hy)]
          exact hcross x hx y hy
  rw [hiff, Fits, herase, ← hw]
  constructor
  · rintro ⟨hbefore, hafter⟩ -
    refine ⟨fun y hy hne hy0 => ?_, fun hbig y hy hy0 => ?_⟩
    · rcases mem_append.1 (hmem y hy hne) with hin | hin
      · -- the test would have stopped at an alarm so long ago
        have hno := hpass y hin
        rw [signed_sub_iff hwle hwlt] at hno
        omega
      · have := hafter y hin hy0
        omega
    · refine hafter y (mem_of_mem_stale (fun x hx hx0 => hpass x hx ?_) hy) hy0
      rw [hx0]
      exact (signed_zero_sub_iff hwne).2 hbig
  · intro hfits
    obtain ⟨hnear, hstale⟩ := hfits htime
    have hnear' : ∀ y ∈ l₁ ++ l₂, s.alarm y ≠ 0 → s.expiry w ≤ s.expiry (s.alarm y) + 2 ^ 31 := by
      intro y hy hy0
      refine hnear y ?_ (hup y hy) hy0
      rw [← herase] at hy
      exact mem_of_mem_erase hy
    refine ⟨fun y hy hy0 => ?_, fun y hy hy0 => ?_⟩
    · have hno := hpass y hy
      rw [signed_sub_iff hwle hwlt] at hno
      omega
    · obtain _ | ⟨f, l₂⟩ := l₂
      · cases hy
      have hstop : Serial.signed (s.alarm f - w) ≥ 0 := hhit f rfl
      by_cases hf : s.alarm f = 0
      · -- stopped by a process without an alarm
        rw [hf, signed_zero_sub_iff hwne] at hstop
        refine hstale hstop y (mem_stale_of_head hy fun x hx => ?_) hy0
        cases hx
        exact hf
      · have hle : s.expiry w ≤ s.expiry (s.alarm f) := by
          have := hnear' f (mem_append_right _ mem_cons_self) hf
          rw [signed_sub_iff hwle hwlt] at hstop
          omega
        rcases mem_cons.1 hy with rfl | hin
        · exact hle
        · exact Int.le_trans hle
            ((pairwise_cons.1 (pairwise_append.1 hold).2.1).1 y hin hf hy0)

/-- **A call** that fits. -/
theorem Kept.procalarm {time : UInt32} (h : Kept s) (hfits : s.Fits (.procalarm up time)) :
    Kept (s.next (.procalarm up time)) := by
  have hsorted := (sorted_procalarm_iff h up time).2 hfits
  by_cases htime : time = 0
  · subst htime
    exact h.cancel
  obtain ⟨l₁, l₂, herase, hlink, -, -⟩ := s.link_spec up (s.when time) (s.list.erase up)
  have hnext : s.next (.procalarm up time) = { s with
      list := l₁ ++ up :: l₂
      alarm := update s.alarm up (s.when time) } := by
    rw [next, Alarms.procalarm, if_neg htime, hlink]
  rw [hnext] at hsorted ⊢
  have hexp : ∀ a, expiry { s with
      list := l₁ ++ up :: l₂
      alarm := update s.alarm up (s.when time) } a = s.expiry a := fun a => rfl
  refine ⟨?_, fun p hp => ?_, hsorted, fun p hp => ?_⟩
  · rw [nodup_middle, nodup_cons, ← herase]
    exact ⟨h.nodup.not_mem_erase, h.nodup.erase up⟩
  · by_cases hup : p = up
    · rw [hup]
      exact mem_append_right _ mem_cons_self
    · dsimp only at hp ⊢
      rw [update_of_ne hup] at hp
      have hmem := (mem_erase_of_ne hup).2 (h.mem p hp)
      rw [herase] at hmem
      rcases mem_append.1 hmem with hin | hin
      · exact mem_append_left _ hin
      · exact mem_append_right _ (mem_cons_of_mem _ hin)
  · by_cases hup : p = up
    · have hle := (s.expiry_when time).1
      rw [hexp, hup]
      dsimp only
      rw [update_self]
      omega
    · dsimp only at hp ⊢
      rw [hexp]
      rw [update_of_ne hup] at hp ⊢
      exact h.live p hp

/-- **When a round posts every alarm that is due.** It stops at a process without an alarm if the
word of the present is 2^31 or above. -/
theorem posts_iff (h : Kept s) (held : P → Bool) : s.Posts held ↔ s.Fits (.alarmkproc held) := by
  obtain ⟨l₁, l₂, hl, heq, hpass, hhit⟩ := loop_spec s.now held h.nodup s.alarm
  have hposted : ∀ p, p ∈ s.posted held ↔ p ∈ l₁ ∧ s.alarm p ≠ 0 := by
    intro p
    rw [posted, heq, mem_filter, decide_eq_true_eq]
  have hnd := h.nodup
  have hsorted := sorted_iff.1 h.sorted
  rw [hl] at hnd hsorted
  constructor
  · intro hposts p hdue
    obtain ⟨hin, hp⟩ := (hposted p).1 (hposts p hdue)
    refine ⟨(hpass p hin).2 hp, fun hbig hst => ?_⟩
    -- no process without an alarm is passed
    rw [hl] at hst
    refine (nodup_append.1 hnd).2.2 p hin p (mem_of_mem_stale (fun x hx hx0 => ?_) hst) rfl
    have hx := (hpass x hx).1
    rw [hx0, signed_sub_zero_iff] at hx
    exact hx hbig
  · intro hfits p hdue
    refine (hposted p).2 ⟨?_, hdue.1⟩
    have hmem := h.mem p hdue.1
    rw [hl] at hmem
    refine (mem_append.1 hmem).resolve_right fun hin => ?_
    obtain _ | ⟨f, l₂⟩ := l₂
    · cases hin
    by_cases hf : s.alarm f = 0
    · rcases hhit f rfl with hstop | ⟨hne, -⟩
      · rw [hf, signed_sub_zero_iff, not_not] at hstop
        refine (hfits p hdue).2 hstop ?_
        rw [hl]
        refine mem_stale_of_head hin fun x hx => ?_
        cases hx
        exact hf
      · exact hne hf
    · -- an alarm in front of one that is due is due
      have hle : s.expiry (s.alarm f) ≤ s.ticks := by
        rcases mem_cons.1 hin with rfl | hin
        · exact hdue.2
        · have := (pairwise_cons.1 (pairwise_append.1 hsorted).2.1).1 p hin hf hdue.1
          exact Int.le_trans this hdue.2
      rcases hhit f rfl with hstop | ⟨-, hheld⟩
      · exact hstop ((signed_now_iff (h.live f hf)).2 hle)
      · rw [(hfits f ⟨hf, hle⟩).1] at hheld
        cases hheld

/-- **The steps** that fit. -/
theorem Kept.step {a : AlarmEvent P} (h : Kept s) (hfits : s.Fits a) (hstep : s.Step a t) :
    Kept t := by
  obtain ⟨hmay, rfl⟩ := hstep
  cases a with
  | time c => exact h.time hmay hfits
  | procalarm up time => exact h.procalarm hfits
  | alarmkproc held => exact h.alarmkproc held

end List

end Alarms

/-- **Alarms are in order, and none is lost or left behind**, in every state of a run whose steps
all fit: the list is in the order of expiry, and each process with an alarm is in it once. The next
call keeps the order, and the next round posts every alarm that is due, exactly when they fit. -/
theorem alarms_kept {P : Type} [DecidableEq P] {l : List (AlarmEvent P)} {s : Alarms P}
    (h : Run (Guarded Alarms.Fits Alarms.Step) (Alarms.init P) l s) :
    s.Sorted ∧ s.Once ∧
      (∀ up time, (s.next (.procalarm up time)).Sorted ↔ s.Fits (.procalarm up time)) ∧
      ∀ held, s.Posts held ↔ s.Fits (.alarmkproc held) := by
  have hkept : s.Kept :=
    h.guarded_inv (fun _ _ _ hs hfits hstep => hs.step hfits hstep) Alarms.kept_init
  exact ⟨hkept.sorted, hkept.once, Alarms.sorted_procalarm_iff hkept, Alarms.posts_iff hkept⟩

/-- Two alarms in the order of expiry, of which a round posts the first. -/
theorem alarms_kept_two : ∃ s : Alarms Bool, s.list = [true] ∧ s.Sorted ∧ s.Once := by
  have hrun : Run (Guarded Alarms.Fits Alarms.Step) (Alarms.init Bool)
      [.procalarm true 2000, .procalarm false 1000, .time 150, .alarmkproc fun _ => false] _ :=
    .cons ⟨by with_unfolding_all decide, trivial, rfl⟩ <|
      .cons ⟨by with_unfolding_all decide, trivial, rfl⟩ <|
      .cons ⟨by with_unfolding_all decide, Nat.zero_le 150, rfl⟩ <|
      .cons ⟨by with_unfolding_all decide, trivial, rfl⟩ <| .nil _
  obtain ⟨hsorted, honce, -, -⟩ := alarms_kept hrun
  exact ⟨_, by with_unfolding_all decide, hsorted, honce⟩

/-- **An alarm is stuck**: the word of the present is above 2^31, and a process that has given its
alarm up is in front of one whose time has passed. -/
theorem alarms_stuck : ¬∀ (l : List (AlarmEvent Bool)) (s : Alarms Bool),
    Run Alarms.Step (Alarms.init Bool) l s →
      s.Sorted ∧ s.Once ∧ s.Posts fun _ => false := by
  intro h
  have hrun : Run Alarms.Step (Alarms.init Bool) [.time 0x80000000, .procalarm false 1000,
      .procalarm true 2000, .procalarm false 0, .time 0x80000200] _ :=
    .cons ⟨Nat.zero_le _, rfl⟩ <| .cons ⟨trivial, rfl⟩ <| .cons ⟨trivial, rfl⟩ <|
      .cons ⟨trivial, rfl⟩ <|
      .cons ⟨(by decide : (0x80000000 : ℕ) ≤ 0x80000200), rfl⟩ <| .nil _
  have hin := (h _ _ hrun).2.2 true (by with_unfolding_all decide)
  exact absurd hin (by with_unfolding_all decide)

end Kernel

end Plan9
