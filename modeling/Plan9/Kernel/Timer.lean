import Plan9.Kernel.Tod
import Plan9.Lib.Agenda

/-!
# Timers

`portclock.c`: each processor has a list of timers in the order of the times at which they are due.
An interrupt takes those that are due off the list and calls their functions, without the lock, and
puts the periodic ones back.

What the processors do is taken apart where locks are released: a step of one of them can come
between any two steps of another.

* `Plan9.Kernel.TimerState.step` – the steps;
* `Plan9.Kernel.Timetable.Step` – what the lists are for: timers are armed for a time, and in an
  interrupt the earliest one is called as long as it is due;
* `Plan9.Kernel.timers_fire` – the lists are in order, and what happens is what the timetable says.
-/

namespace Plan9

namespace Kernel

open Lib List Function

/-! ### Timers -/

inductive Tmode
  /-- timer programmed in ns from now -/
  | Trelative
  /-- periodic timer, period in ns -/
  | Tperiodic
  deriving DecidableEq, Repr

structure Timer where
  tmode : Tmode
  tns : BitVec 64
  /-- the processor whose list the timer is on -/
  tt : Option ℕ
  /-- ns represented in fastticks -/
  twhen : BitVec 64
  deriving DecidableEq, Repr

/-- What is read of the clock. -/
structure FastClock where
  fastticks : BitVec 64
  /-- `tod.divider` -/
  divider : BitVec 64
  deriving DecidableEq, Repr

/-- Convert ns to fast ticks. -/
def FastClock.ns2fastticks (c : FastClock) (ns : BitVec 64) : BitVec 64 := mul64fract ns c.divider

/-- The timers, the lists and what the processors are doing. -/
structure TimerState where
  timer : ℕ → Timer
  /-- the list of each processor -/
  timers : ℕ → List ℕ
  /-- the interrupt that a processor is in: the time read at its start, and the timer whose function
  is running -/
  intr : ℕ → Option (BitVec 64 × Option ℕ)
  /-- the processor in `timeradd` that holds the lock of a timer -/
  adding : ℕ → Option ℕ

namespace TimerState

variable (s : TimerState)

/-- When a timer is due that is added. The period of a periodic one is at least 100µs. -/
def due (c : FastClock) (m : ℕ) (nt : Timer) : Option Timer :=
  match nt.tmode with
  | .Trelative =>
    let tns := if nt.tns.toInt ≤ 0 then 1 else nt.tns
    some { nt with tns := tns, twhen := c.fastticks + c.ns2fastticks tns }
  | .Tperiodic =>
    if nt.tns.toInt < 100000 then none
    else
      let twhen :=
        if nt.twhen = 0 then
          -- another timer at the same frequency for combining
          match ((s.timers m).map s.timer).find? fun t => t.tmode = .Tperiodic ∧ t.tns = nt.tns with
          | some t => t.twhen
          | none => c.fastticks
        else nt.twhen
      let when := c.ns2fastticks nt.tns
      let when := if when = 0 then 1 else when
      some { nt with twhen := twhen + when }

/-- The place of a new timer: in front of the first one that is due later. -/
def link (nt : ℕ) (twhen : BitVec 64) : List ℕ → List ℕ
  | [] => [nt]
  | t :: ts => if twhen.toInt < (s.timer t).twhen.toInt then nt :: t :: ts
    else t :: link nt twhen ts

/-- What is noted of what happens to the timers. -/
inductive Entry
  | armed (m t : ℕ) (twhen : ℤ)
  | disarmed (m t : ℕ)
  | started (m : ℕ) (now : ℤ)
  | called (m t : ℕ) (twhen : ℤ)
  | finished (m : ℕ)
  deriving DecidableEq, Repr

/-- Add a timer to the list of a processor. -/
def tadd (c : FastClock) (m nt : ℕ) : Option (TimerState × List Entry) :=
  if (s.timer nt).tt ≠ none then none
  else
    match s.due c m (s.timer nt) with
    | none => none
    | some t =>
      some ({ s with
        timer := Function.update s.timer nt { t with tt := some m }
        timers := Function.update s.timers m (s.link nt t.twhen (s.timers m)) },
        [.armed m nt t.twhen.toInt])

/-- Take a timer off its list. -/
def tdel (dt : ℕ) : TimerState × List Entry :=
  match (s.timer dt).tt with
  | none => (s, [])
  | some m =>
    if dt ∈ s.timers m then
      ({ s with
        timer := Function.update s.timer dt { s.timer dt with tt := none }
        timers := Function.update s.timers m ((s.timers m).filter (· ≠ dt)) },
        [.disarmed m dt])
    else (s, [])

end TimerState

/-! ### Steps -/

/-- What a processor does next. -/
inductive TimerEvent
  /-- the owner of a timer sets its mode and its time -/
  | set (t : ℕ) (tmode : Tmode) (tns : BitVec 64)
  /-- `timeradd`: the timer is locked, and taken off the list that it is on -/
  | timeradd (m t : ℕ)
  /-- `timeradd`: the timer comes on the list of the processor -/
  | timeraddLocked (m t : ℕ) (c : FastClock)
  | timerdel (t : ℕ)
  /-- `timerintr` begins -/
  | timerintr (m : ℕ) (now : BitVec 64)
  /-- `timerintr`: the first timer is called if it is due -/
  | timerintrNext (m : ℕ)
  /-- `timerintr`: the function returns -/
  | timerintrDone (m : ℕ) (c : FastClock)
  deriving DecidableEq

namespace TimerState

/-- A step. Where a lock is not free, or the processor is somewhere else, nothing happens; there is
no state after a failed assertion. -/
def step (s : TimerState) : TimerEvent → Option (TimerState × List Entry)
  | .set t tmode tns =>
    some ({ s with
      timer := Function.update s.timer t { s.timer t with tmode := tmode, tns := tns } }, [])
  | .timeradd m t =>
    if s.adding t ≠ none then some (s, [])
    else
      let r := s.tdel t
      some ({ r.1 with adding := Function.update s.adding t (some m) }, r.2)
  | .timeraddLocked m t c =>
    if s.adding t ≠ some m then some (s, [])
    else
      (s.tadd c m t).map fun r =>
        ({ r.1 with adding := Function.update s.adding t none }, r.2)
  | .timerdel t => if s.adding t ≠ none then some (s, []) else some (s.tdel t)
  | .timerintr m now =>
    if s.intr m ≠ none then some (s, [])
    else some ({ s with intr := Function.update s.intr m (some (now, none)) },
      [.started m now.toInt])
  | .timerintrNext m =>
    match s.intr m with
    | some (now, none) =>
      match s.timers m with
      | [] => some ({ s with intr := Function.update s.intr m none }, [.finished m])
      | t :: ts =>
        if now.toInt < (s.timer t).twhen.toInt then
          some ({ s with intr := Function.update s.intr m none }, [.finished m])
        else if (s.timer t).tt ≠ some m then none
        else
          some ({ s with
            timer := Function.update s.timer t { s.timer t with tt := none }
            timers := Function.update s.timers m ts
            intr := Function.update s.intr m (some (now, some t)) },
            [.called m t (s.timer t).twhen.toInt])
    | _ => some (s, [])
  | .timerintrDone m c =>
    match s.intr m with
    | some (now, some t) =>
      let s := { s with intr := Function.update s.intr m (some (now, none)) }
      if (s.timer t).tmode = .Tperiodic then s.tadd c m t else some (s, [])
    | _ => some (s, [])

/-- A run, with what is noted. -/
def run (s : TimerState) : List TimerEvent → Option (TimerState × List Entry)
  | [] => some (s, [])
  | ev :: evs =>
    match s.step ev with
    | none => none
    | some (s', log) => (run s' evs).map fun r => (r.1, log ++ r.2)

/-- No timer is on a list. -/
def start (timer : ℕ → Timer) : TimerState where
  timer t := { timer t with tt := none }
  timers _ := []
  intr _ := none
  adding _ := none

end TimerState

/-! ### The timetable -/

/-- The timers that are armed on each processor, with their times, in the order in which they have
been armed, and the starts of the interrupts. -/
structure Timetable where
  pending : ℕ → List (ℕ × ℤ)
  now : ℕ → Option ℤ

namespace Timetable

/-- Nothing is armed. -/
def empty : Timetable := ⟨fun _ => [], fun _ => none⟩

/-- What can happen: a timer is armed that is not, an armed one is disarmed, and in an interrupt the
earliest of those armed for the least time is called, if that is due; otherwise none is, and the
interrupt is over. -/
def Step (a : Timetable) (a' : Timetable) : TimerState.Entry → Prop
  | .armed m t w => (∀ m', ∀ x ∈ a.pending m', x.1 ≠ t) ∧
    a' = { a with pending := Function.update a.pending m (a.pending m ++ [(t, w)]) }
  | .disarmed m t => (∃ w, (t, w) ∈ a.pending m) ∧
    a' = { a with pending := Function.update a.pending m ((a.pending m).filter (·.1 ≠ t)) }
  | .started m now => a.now m = none ∧ a' = { a with now := Function.update a.now m (some now) }
  | .called m t w => ∃ now l r, a.now m = some now ∧ w ≤ now ∧ a.pending m = l ++ (t, w) :: r ∧
    (∀ y ∈ l, w < y.2) ∧ (∀ y ∈ r, w ≤ y.2) ∧
    a' = { a with pending := Function.update a.pending m (l ++ r) }
  | .finished m => ∃ now, a.now m = some now ∧ (∀ y ∈ a.pending m, now < y.2) ∧
    a' = { a with now := Function.update a.now m none }

/-- What can happen one after the other. -/
def Steps (a a' : Timetable) : List TimerState.Entry → Prop
  | [] => a' = a
  | e :: es => ∃ b, a.Step b e ∧ b.Steps a' es

theorem Steps.append {a b c : Timetable} {es es' : List TimerState.Entry} (h : a.Steps b es)
    (h' : b.Steps c es') : a.Steps c (es ++ es') := by
  induction es generalizing a with
  | nil => exact h ▸ h'
  | cons e es ih =>
    obtain ⟨d, hd, hes⟩ := h
    exact ⟨d, hd, ih hes⟩

theorem Steps.single {a b : Timetable} {e : TimerState.Entry} (h : a.Step b e) : a.Steps b [e] :=
  ⟨b, h, rfl⟩

end Timetable

/-! ### The lists follow the timetable -/

namespace TimerState

variable {s s' : TimerState} {a : Timetable} {m t : ℕ} {c : FastClock} {w : BitVec 64} {ts : List ℕ}

/-- The timers of a list, with their times. -/
def agenda (s : TimerState) (m : ℕ) : List (ℕ × ℤ) :=
  (s.timers m).map fun t => (t, (s.timer t).twhen.toInt)

/-- The lists are the timetable in order, and timers know the lists that they are on. -/
structure Follows (s : TimerState) (a : Timetable) : Prop where
  sorts : ∀ m, Sorts (s.agenda m) (a.pending m)
  nodup : ∀ m, (s.timers m).Nodup
  tt : ∀ t m, (s.timer t).tt = some m ↔ t ∈ s.timers m
  now : ∀ m, a.now m = (s.intr m).map fun r => r.1.toInt

/-- A timer that is locked for `timeradd` is on no list. -/
def Locked (s : TimerState) : Prop := ∀ t, s.adding t ≠ none → (s.timer t).tt = none

theorem link_perm : (s.link t w ts).Perm (t :: ts) := by
  induction ts with
  | nil => rfl
  | cons u ts ih =>
    rw [link]
    split_ifs
    · rfl
    · exact (ih.cons u).trans (Perm.swap t u ts)

/-- A timer is put where its entry in the agenda comes. -/
theorem map_link {f : ℕ → ℤ} (hf : f t = w.toInt) (h : ∀ u ∈ ts, f u = (s.timer u).twhen.toInt) :
    (s.link t w ts).map (fun u => (u, f u)) =
      insertAfter (t, w.toInt) (ts.map fun u => (u, (s.timer u).twhen.toInt)) := by
  induction ts with
  | nil => rw [link, map_singleton, hf]; rfl
  | cons u ts ih =>
    obtain ⟨hu, hts⟩ := forall_mem_cons.1 h
    rw [link, map_cons, insertAfter]
    split_ifs
    · rw [map_cons, map_cons, hf, hu, map_congr_left fun u hu => by rw [hts u hu]]
    · rw [map_cons, ih hts, hu]

section

variable (h : Follows s a)

include h

/-- What is pending is what is on the list. -/
theorem Follows.mem_pending {x : ℕ × ℤ} :
    x ∈ a.pending m ↔ x.1 ∈ s.timers m ∧ x.2 = (s.timer x.1).twhen.toInt := by
  rw [← (h.sorts m).perm.mem_iff, agenda, mem_map]
  constructor
  · rintro ⟨t, ht, rfl⟩
    exact ⟨ht, rfl⟩
  · rintro ⟨ht, hx⟩
    exact ⟨x.1, ht, Prod.ext rfl hx.symm⟩

theorem Follows.eq_of_mem {m' : ℕ} (ht : t ∈ s.timers m) (ht' : t ∈ s.timers m') :
    m = m' :=
  Option.some.inj (((h.tt t m).2 ht).symm.trans ((h.tt t m').2 ht'))

/-- **Arming.** -/
theorem Follows.tadd (htt : (s.timer t).tt = none) {nt : Timer}
    (hdue : s.due c m (s.timer t) = some nt) :
    ∃ s' a', s.tadd c m t = some (s', [.armed m t nt.twhen.toInt]) ∧
      a.Step a' (.armed m t nt.twhen.toInt) ∧ Follows s' a' ∧
      s'.timer = update s.timer t { nt with tt := some m } ∧ s'.adding = s.adding ∧
      s'.intr = s.intr := by
  have hnot : ∀ m', t ∉ s.timers m' := by
    intro m' hm'
    rw [(h.tt t m').2 hm'] at htt
    exact absurd htt (Option.some_ne_none m')
  have hne : ∀ m', ∀ u ∈ s.timers m', u ≠ t := by
    rintro m' u hu rfl
    exact hnot m' hu
  rw [TimerState.tadd, if_neg (not_not.2 htt), hdue]
  refine ⟨_, _, rfl, ⟨fun m' x hx hxt => ?_, rfl⟩,
    ⟨fun m' => ?_, fun m' => ?_, fun u m' => ?_, h.now⟩,
    rfl, rfl, rfl⟩
  · exact hnot m' (hxt ▸ (h.mem_pending.1 hx).1)
  · by_cases hm : m' = m
    · subst hm
      simp only [agenda, update_self]
      rw [map_link (by rw [update_self])]
      · exact (h.sorts m').insertAfter _
      · intro u hu
        rw [update_of_ne (hne m' u hu)]
    · simp only [agenda, update_of_ne hm]
      have hsame : (s.timers m').map (fun u => (u, ((update s.timer t
          { nt with tt := some m }) u).twhen.toInt)) = s.agenda m' :=
        map_congr_left fun u hu => by rw [update_of_ne (hne m' u hu)]
      exact hsame ▸ h.sorts m'
  · by_cases hm : m' = m
    · subst hm
      simp only [update_self]
      exact link_perm.nodup_iff.2 (nodup_cons.2 ⟨hnot m', h.nodup m'⟩)
    · simp only [update_of_ne hm]
      exact h.nodup m'
  · have hlink : u ∈ update s.timers m (s.link t nt.twhen (s.timers m)) m' ↔
        (u = t ∧ m' = m) ∨ u ∈ s.timers m' := by
      by_cases hm : m' = m
      · subst hm
        rw [update_self, link_perm.mem_iff, mem_cons, and_iff_left rfl]
      · rw [update_of_ne hm, or_iff_right fun hu => hm hu.2]
    rw [hlink]
    by_cases hu : u = t
    · subst hu
      simp only [update_self, true_and, or_iff_left (hnot m'), Option.some.injEq]
      exact eq_comm
    · simp only [update_of_ne hu]
      rw [h.tt, or_iff_right fun hu' => hu hu'.1]

/-- **Disarming.** -/
theorem Follows.remove (ht : t ∈ s.timers m) : Follows { s with
        timer := update s.timer t { s.timer t with tt := none }
        timers := update s.timers m ((s.timers m).filter (· ≠ t)) }
      { a with pending := update a.pending m ((a.pending m).filter (·.1 ≠ t)) } := by
  have hwhen : ∀ u, (update s.timer t { s.timer t with tt := none } u).twhen =
      (s.timer u).twhen := by
    intro u
    by_cases hu : u = t
    · rw [hu, update_self]
    · rw [update_of_ne hu]
  refine ⟨fun m' => ?_, fun m' => ?_, fun u m' => ?_, h.now⟩
  · simp only [agenda, hwhen]
    by_cases hm : m' = m
    · subst hm
      rw [update_self, update_self]
      have hfilter : ((s.timers m').filter (· ≠ t)).map (fun u => (u, (s.timer u).twhen.toInt)) =
          (s.agenda m').filter (·.1 ≠ t) := by
        rw [agenda, filter_map]
        rfl
      exact hfilter ▸ (h.sorts m').filter _
    · rw [update_of_ne hm, update_of_ne hm]
      exact h.sorts m'
  · by_cases hm : m' = m
    · subst hm
      simp only [update_self]
      exact (h.nodup m').filter _
    · simp only [update_of_ne hm]
      exact h.nodup m'
  · have hmem : u ∈ update s.timers m ((s.timers m).filter (· ≠ t)) m' ↔
        u ∈ s.timers m' ∧ u ≠ t := by
      by_cases hm : m' = m
      · subst hm
        rw [update_self, mem_filter, decide_eq_true_iff]
      · rw [update_of_ne hm]
        refine (and_iff_left_of_imp ?_).symm
        rintro hu rfl
        exact hm (h.eq_of_mem hu ht)
    rw [hmem]
    by_cases hu : u = t
    · subst hu
      simp
    · simp only [update_of_ne hu, ne_eq, hu, not_false_eq_true, and_true]
      exact h.tt u m'

theorem Follows.tdel : ∃ a', a.Steps a' (s.tdel t).2 ∧ Follows (s.tdel t).1 a' ∧
    ((s.tdel t).1.timer t).tt = none ∧ (s.tdel t).1.adding = s.adding ∧
    ∀ u ≠ t, (s.tdel t).1.timer u = s.timer u := by
  rw [TimerState.tdel]
  cases htt : (s.timer t).tt with
  | none => exact ⟨a, rfl, h, htt, rfl, fun _ _ => rfl⟩
  | some m =>
    have ht := (h.tt t m).1 htt
    simp only [if_pos ht]
    refine ⟨_, .single ⟨⟨(s.timer t).twhen.toInt, h.mem_pending.2 ⟨ht, rfl⟩⟩, rfl⟩, h.remove ht,
      ?_, trivial,
      fun u hu => ?_⟩
    · rw [update_self]
    · rw [update_of_ne hu]

/-- **Calling.** The first timer of a list is the one that is to be called. -/
theorem Follows.call (hts : s.timers m = t :: ts) :
    ∃ l r, a.pending m = l ++ (t, (s.timer t).twhen.toInt) :: r ∧
      (∀ y ∈ l, (s.timer t).twhen.toInt < y.2) ∧ (∀ y ∈ r, (s.timer t).twhen.toInt ≤ y.2) ∧
      Follows { s with
          timer := update s.timer t { s.timer t with tt := none }
          timers := update s.timers m ts }
        { a with pending := update a.pending m (l ++ r) } := by
  have hnodup := h.nodup m
  have hids : ((a.pending m).map (·.1)).Nodup := by
    rw [((h.sorts m).perm.map _).symm.nodup_iff, agenda, map_map]
    exact (map_id (s.timers m)).symm ▸ hnodup
  have hhead := h.sorts m
  rw [agenda, hts, map_cons] at hhead
  obtain ⟨l, r, hp, hl, hr⟩ := hhead.head (.of_map _ hids)
  refine ⟨l, r, hp, hl, hr, ?_⟩
  have hts' : (s.timers m).filter (· ≠ t) = ts := by
    rw [hts] at hnodup ⊢
    rw [filter_cons_of_neg (by simp)]
    refine filter_eq_self.2 fun u hu => decide_eq_true ?_
    rintro rfl
    exact (nodup_cons.1 hnodup).1 hu
  have hp' : (a.pending m).filter (fun x => x.1 ≠ t) = l ++ r := by
    rw [hp, map_append, map_cons] at hids
    have hnot : t ∉ l.map (·.1) ++ r.map (·.1) := by
      have := (nodup_middle.1 hids)
      exact (nodup_cons.1 this).1
    rw [hp, filter_append, filter_cons_of_neg (by simp)]
    rw [← map_append] at hnot
    rw [← filter_append]
    refine filter_eq_self.2 fun x hx => decide_eq_true ?_
    rintro rfl
    exact hnot (mem_map_of_mem hx)
  have := h.remove (t := t) (m := m) (by rw [hts]; exact mem_cons_self ..)
  rwa [hts', hp'] at this

end

/-! ### Steps and runs -/

/-- What a step needs so that no assertion fails: a period that is long enough, and that nobody has
armed a periodic timer, or is arming it, while its function was running. -/
def StepFits (s : TimerState) : TimerEvent → Prop
  | .timeraddLocked m t _ => s.adding t = some m → (s.timer t).tmode = .Tperiodic →
    100000 ≤ (s.timer t).tns.toInt
  | .timerintrDone m _ => ∀ now t, s.intr m = some (now, some t) →
    (s.timer t).tmode = .Tperiodic →
    100000 ≤ (s.timer t).tns.toInt ∧ (s.timer t).tt = none ∧ s.adding t = none
  | _ => True

theorem exists_due {nt : Timer} (h : nt.tmode = .Tperiodic → 100000 ≤ nt.tns.toInt) :
    ∃ t, s.due c m nt = some t := by
  rw [due]
  cases hmode : nt.tmode with
  | Trelative => exact ⟨_, rfl⟩
  | Tperiodic => exact ⟨_, if_neg (not_lt.2 (h hmode))⟩

/-- An interrupt is over when nothing is due. -/
theorem Follows.finish (h : Follows s a) (hlock : Locked s) {now : BitVec 64} {r : Option ℕ}
    (hintr : s.intr m = some (now, r)) (hdue : ∀ y ∈ a.pending m, now.toInt < y.2) :
    ∃ s' es a', some ({ s with intr := update s.intr m none }, [Entry.finished m]) =
      some (s', es) ∧ a.Steps a' es ∧ Follows s' a' ∧ Locked s' := by
  refine ⟨_, _, { a with now := update a.now m none }, rfl,
    .single ⟨now.toInt, ?_, hdue, rfl⟩, ⟨h.sorts, h.nodup, h.tt, fun m' => ?_⟩, hlock⟩
  · rw [h.now, hintr]
    rfl
  · by_cases hm : m' = m
    · subst hm
      simp only [update_self, Option.map_none]
    · simp only [update_of_ne hm]
      exact h.now m'

/-- A function returns. -/
theorem Follows.back (h : Follows s a) {now : BitVec 64} {r : Option ℕ}
    (hintr : s.intr m = some (now, r)) :
    Follows { s with intr := update s.intr m (some (now, none)) } a := by
  refine ⟨h.sorts, h.nodup, h.tt, fun m' => ?_⟩
  by_cases hm : m' = m
  · subst hm
    simp only [update_self, h.now, hintr, Option.map_some]
  · simp only [update_of_ne hm]
    exact h.now m'

/-- **A step** is what the timetable says. -/
theorem Follows.step (h : Follows s a) (hlock : Locked s) {ev : TimerEvent}
    (hfits : StepFits s ev) : ∃ s' es a', s.step ev = some (s', es) ∧ a.Steps a' es ∧
      Follows s' a' ∧ Locked s' := by
  cases ev with rw [TimerState.step]
  | set t tmode tns =>
    have htimer : ∀ u, (update s.timer t { s.timer t with tmode := tmode, tns := tns }
        u).twhen = (s.timer u).twhen ∧ (update s.timer t { s.timer t with
          tmode := tmode, tns := tns } u).tt = (s.timer u).tt := by
      intro u
      by_cases hu : u = t
      · rw [hu, update_self]
        exact ⟨rfl, rfl⟩
      · rw [update_of_ne hu]
        exact ⟨rfl, rfl⟩
    refine ⟨_, _, a, rfl, rfl, ⟨fun m => ?_, h.nodup, fun u m => ?_, h.now⟩, fun u hu => ?_⟩
    · simp only [agenda, htimer]
      exact h.sorts m
    · simp only [htimer]
      exact h.tt u m
    · simp only [htimer]
      exact hlock u hu
  | timeradd m t =>
    split_ifs with hadd
    · exact ⟨s, [], a, rfl, rfl, h, hlock⟩
    obtain ⟨a', hsteps, hfollows, htt, hadding, hother⟩ := h.tdel (t := t)
    refine ⟨_, _, a', rfl, hsteps, ⟨hfollows.sorts, hfollows.nodup, hfollows.tt, hfollows.now⟩, ?_⟩
    intro u hu
    by_cases hut : u = t
    · rw [hut]
      exact htt
    · dsimp only at hu ⊢
      rw [update_of_ne hut] at hu
      rw [hother u hut]
      exact hlock u hu
  | timeraddLocked m t c =>
    split_ifs with hadd
    · exact ⟨s, [], a, rfl, rfl, h, hlock⟩
    rw [not_not] at hadd
    have htt := hlock t (by rw [hadd]; exact Option.some_ne_none m)
    obtain ⟨nt, hdue⟩ := exists_due (s := s) (c := c) (m := m) (hfits hadd)
    obtain ⟨s', a', htadd, hstep, hfollows, htimer, hadding, hintr⟩ := h.tadd htt hdue
    rw [htadd]
    refine ⟨_, _, a', rfl, .single hstep,
      ⟨hfollows.sorts, hfollows.nodup, hfollows.tt, hfollows.now⟩, fun u hu => ?_⟩
    by_cases hut : u = t
    · dsimp only at hu
      rw [hut, update_self] at hu
      exact absurd rfl hu
    · dsimp only at hu ⊢
      rw [update_of_ne hut] at hu
      rw [htimer, update_of_ne hut]
      exact hlock u hu
  | timerdel t =>
    split_ifs with hadd
    · exact ⟨s, [], a, rfl, rfl, h, hlock⟩
    obtain ⟨a', hsteps, hfollows, htt, hadding, hother⟩ := h.tdel (t := t)
    refine ⟨(s.tdel t).1, (s.tdel t).2, a', rfl, hsteps, hfollows, fun u hu => ?_⟩
    by_cases hut : u = t
    · rw [hut]
      exact htt
    · rw [hother u hut]
      exact hlock u (hadding ▸ hu)
  | timerintr m now =>
    split_ifs with hintr
    · exact ⟨s, [], a, rfl, rfl, h, hlock⟩
    rw [not_not] at hintr
    refine ⟨_, _, { a with now := update a.now m (some now.toInt) }, rfl,
      .single ⟨?_, rfl⟩, ⟨h.sorts, h.nodup, h.tt, fun m' => ?_⟩, hlock⟩
    · rw [h.now, hintr]
      rfl
    · by_cases hm : m' = m
      · subst hm
        simp only [update_self, Option.map_some]
      · simp only [update_of_ne hm]
        exact h.now m'
  | timerintrNext m =>
    rcases hintr : s.intr m with - | ⟨now, - | u⟩
    · exact ⟨s, [], a, rfl, rfl, h, hlock⟩
    · rcases hts : s.timers m with - | ⟨t, ts⟩
      · refine h.finish hlock hintr fun y hy => ?_
        have hmem := (h.mem_pending.1 hy).1
        rw [hts] at hmem
        exact absurd hmem not_mem_nil
      simp only
      split_ifs with hdue htt
      · refine h.finish hlock hintr fun y hy => hdue.trans_le ?_
        have hsorts := h.sorts m
        rw [agenda, hts, map_cons] at hsorts
        rcases mem_cons.1 (hsorts.perm.mem_iff.2 hy) with rfl | hy
        · exact le_rfl
        · exact (pairwise_cons.1 hsorts.sorted).1 y hy
      · exact absurd ((h.tt t m).2 (by rw [hts]; exact mem_cons_self ..)) htt
      obtain ⟨l, r, hp, hl, hr, hcall⟩ := h.call hts
      refine ⟨_, _, _, rfl, .single ⟨now.toInt, l, r, ?_, not_lt.1 hdue, hp, hl, hr, rfl⟩,
        ⟨hcall.sorts, hcall.nodup, hcall.tt, fun m' => ?_⟩, fun u hu => ?_⟩
      · rw [h.now, hintr]
        rfl
      · by_cases hm : m' = m
        · subst hm
          simp only [update_self, h.now, hintr, Option.map_some]
        · simp only [update_of_ne hm]
          exact h.now m'
      · by_cases hut : u = t
        · simp only [hut, update_self]
        · simp only [update_of_ne hut]
          exact hlock u hu
    · exact ⟨s, [], a, rfl, rfl, h, hlock⟩
  | timerintrDone m c =>
    rcases hintr : s.intr m with - | ⟨now, - | t⟩
    · exact ⟨s, [], a, rfl, rfl, h, hlock⟩
    · exact ⟨s, [], a, rfl, rfl, h, hlock⟩
    have hback := h.back hintr
    simp only
    split_ifs with hmode
    · obtain ⟨htns, htt, hadd⟩ := hfits now t hintr hmode
      obtain ⟨nt, hdue⟩ := exists_due (s := { s with
        intr := update s.intr m (some (now, none)) }) (c := c) (m := m) fun _ => htns
      obtain ⟨s', a', htadd, hstep, hfollows, htimer, hadding, -⟩ := hback.tadd htt hdue
      refine ⟨s', _, a', htadd, .single hstep, hfollows, fun u hu => ?_⟩
      rw [hadding] at hu
      have hut : u ≠ t := by
        rintro rfl
        exact hu hadd
      rw [htimer, update_of_ne hut]
      exact hlock u hu
    · exact ⟨_, [], a, rfl, rfl, hback, hlock⟩

/-- A condition on all steps of a run. -/
def Along (C : TimerState → TimerEvent → Prop) : TimerState → List TimerEvent → Prop
  | _, [] => True
  | s, ev :: evs => C s ev ∧ ∀ r, s.step ev = some r → Along C r.1 evs

/-- **A run** is what the timetable says. -/
theorem Follows.run (h : Follows s a) (hlock : Locked s) {evs : List TimerEvent}
    (hfits : Along StepFits s evs) : ∃ s' es a', s.run evs = some (s', es) ∧ a.Steps a' es ∧
      Follows s' a' ∧ Locked s' := by
  induction evs generalizing s a with
  | nil => exact ⟨s, [], a, rfl, rfl, h, hlock⟩
  | cons ev evs ih =>
    obtain ⟨s₁, es, a₁, hstep, hsteps, h₁, hlock₁⟩ := h.step hlock hfits.1
    obtain ⟨s₂, es', a₂, hrun, hsteps', h₂, hlock₂⟩ := ih h₁ hlock₁ (hfits.2 _ hstep)
    refine ⟨s₂, es ++ es', a₂, ?_, hsteps.append hsteps', h₂, hlock₂⟩
    rw [TimerState.run, hstep]
    simp only [hrun, Option.map_some]

end TimerState

end Kernel

end Plan9
