import Plan9.Kernel.RunQueueRuns

/-!
# Earliest deadline first

The queue of active real time processes, from `edf.c`. `edfready` puts a process into it, before
the first one with a later deadline. Times are the low 32 bits of the µs that have passed, read as
`long`: everywhere else two of them are compared by the sign of their difference, here as they
stand.

* `Plan9.Kernel.EdfState.Step` – time passes, processes are put into the queue and taken out;
* `Plan9.Kernel.EdfState.deadline` – the time that a deadline stands for, in µs without wrap;
* `Plan9.Kernel.EdfState.HasQueue.sorted_edfready_iff` – when the queue stays in order;
* `Plan9.Kernel.edf_sorted_iff` – the runs through which it does.
-/

namespace Plan9

namespace Kernel

open Lib RunQueue List

/-! ### The parameters of a process -/

/-- `Admitted`, and the other bits of `Edf.flags`. -/
def Admitted : UInt16 := 0x01
def Sporadic : UInt16 := 0x02
def Yieldonblock : UInt16 := 0x04
def Yield : UInt16 := 0x20
def Extratime : UInt16 := 0x40

/-- All times in µs; of those behind `S` only the low bits. -/
structure Edf where
  /-- Deadline -/
  D : Int32
  /-- period -/
  T : Int32
  /-- Cost -/
  C : Int32
  /-- Slice: time remaining in this period -/
  S : Int32
  /-- (this) release time -/
  r : Int32
  /-- (this) deadline -/
  d : Int32
  /-- Start of next period -/
  t : Int32
  flags : UInt16
  periods : UInt32
deriving DecidableEq

namespace Edf

variable (e : Edf) (now : Int32)

/-- Non sporadic processes stay true to their period; calculate next release time. -/
def nextrelease : Edf :=
  let n := now - e.t
  if 0 < n then
    if n < e.T then { e with t := e.t + e.T }
    else { e with t := now + e.T - n % e.T }
  else e

def release : Edf :=
  let e := { e with flags := e.flags &&& ~~~Yield }
  if e.d - now < 0 then
    let e := { e with periods := e.periods + 1, r := now }
    -- sporadic processes may not be released earlier than one period after this release
    let e := if e.flags &&& Sporadic = 0 then e.nextrelease now else { e with t := e.r + e.T }
    { e with d := e.r + e.D, S := e.C }
  else e

/-- `edfready`, up to the section in which it holds the lock of the queues: which way it goes, and
the parameters then. -/
def edfready (state : ProcState) : Edfready × Edf :=
  if e.flags &&& Admitted = 0 then (.no, e)
  else if e.d - now ≤ 0 then
    -- past deadline, arrange for next release
    let e := if e.flags &&& Sporadic = 0 then e.nextrelease now else e
    if now - e.t < 0 then
      if state = .running ∧ e.flags &&& (Yield ||| Yieldonblock) = 0 ∧
        e.flags &&& Extratime ≠ 0 then
        (.extra, e)
      else (.wait, e)
    else (.active, e.release now)
  else (.active, e)

end Edf

/-! ### The queue -/

/-- The run queues, the parameters of the real time processes, and the µs since the start. -/
structure EdfState (P M : Type) where
  runq : State P M
  edf : P → Option Edf
  clock : ℕ

namespace EdfState

variable {P M : Type}

/-- No process yet. -/
def init (P M : Type) : EdfState P M := ⟨State.init P M, fun _ => none, 0⟩

variable (s : EdfState P M)

/-- `µs`, as a `long`. -/
def now : Int32 := .ofNat s.clock

/-- `p->edf->d`. -/
def d (p : P) : Int32 := (s.edf p).elim 0 Edf.d

/-- The run queues, with what they see of the parameters. -/
def sched : State P M :=
  { s.runq with edf := fun p => (s.edf p).isSome, d := fun p => (s.d p).toInt }

/-- The queue of active real time processes. -/
def queue [DecidableEq P] [Fintype P] : List P := s.runq.queue priEdf

/-- The time that a deadline stands for: the one with these low bits that is next to the
present. -/
def time (d : Int32) : ℤ := s.clock + (d - s.now).toInt

/-- The time that the deadline of a process stands for. -/
def deadline (p : P) : ℤ := s.time (s.d p)

variable [DecidableEq P] [Fintype P]

/-- The queue is in the order of the deadlines. -/
def Sorted : Prop := s.queue.Pairwise fun p q => s.deadline p ≤ s.deadline q

instance : Decidable s.Sorted :=
  inferInstanceAs (Decidable (s.queue.Pairwise fun p q => s.deadline p ≤ s.deadline q))

/-- `edfready`. -/
def edfready (p : P) : EdfState P M :=
  match s.edf p with
  | none => s
  | some e =>
    let (way, e) := e.edfready s.now (s.runq.state p)
    let s := { s with edf := Function.update s.edf p (some e) }
    match way with
    | .no => s
    | .extra =>
      { s with runq := { s.runq with basepri := Function.update s.runq.basepri p priExtra } }
    | .wait => { s with
      runq := { s.runq with state := Function.update s.runq.state p .waitrelease } }
    | .active => { s with runq := s.sched.edfqueue p }

end EdfState

/-- What happens. -/
inductive EdfEvent (P M : Type)
  /-- time passes -/
  | time (clock : ℕ)
  /-- the rest of the kernel changes the parameters and the state of a process that is not in the
  queue -/
  | edf (p : P) (e : Option Edf) (state : ProcState)
  /-- a process is, or is no longer, on a processor -/
  | mach (p : P) (m : Option M)
  | edfready (p : P)
  | dequeueproc (p : P) (can : Bool)

/-- `edfready` goes on to the queue: the process is admitted, and its deadline is to come or its
next release is not. -/
def Edf.Active (e : Edf) (now : Int32) : Prop :=
  e.flags &&& Admitted ≠ 0 ∧
    (e.d - now ≤ 0 →
      0 ≤ now - (if e.flags &&& Sporadic = 0 then e.nextrelease now else e).t)

/-- The deadline with which it goes there. -/
def Edf.due (e : Edf) (now : Int32) : Int32 := if e.d - now < 0 then now + e.D else e.d

namespace EdfState

variable {P M : Type} [DecidableEq P] [Fintype P] (s : EdfState P M)

/-- What an event leaves. -/
def next : EdfEvent P M → EdfState P M
  | .time c => { s with clock := c }
  | .edf p e state =>
    { s with
      edf := Function.update s.edf p e
      runq := { s.runq with state := Function.update s.runq.state p state } }
  | .mach p m => { s with runq := { s.runq with mach := Function.update s.runq.mach p m } }
  | .edfready p => s.edfready p
  | .dequeueproc p can => { s with runq := (s.sched.dequeueproc priEdf p can).1 }

/-- When it can happen. A process that is in the queue is not made ready and keeps its deadline,
and its deadline lies within 2^31 µs of the present as long as it is there. -/
def May : EdfEvent P M → Prop
  | .time c => s.clock ≤ c ∧ ∀ p ∈ s.queue, (c : ℤ) ≤ s.deadline p + 2 ^ 31
  | .edf p _ _ => p ∉ s.queue
  | .mach _ _ => True
  | .edfready p => p ∉ s.queue
  | .dequeueproc _ _ => True

instance (a : EdfEvent P M) : Decidable (s.May a) :=
  match a with
  | .time c =>
    inferInstanceAs (Decidable (s.clock ≤ c ∧ ∀ p ∈ s.queue, (c : ℤ) ≤ s.deadline p + 2 ^ 31))
  | .edf p _ _ => inferInstanceAs (Decidable (p ∉ s.queue))
  | .mach _ _ => inferInstanceAs (Decidable True)
  | .edfready p => inferInstanceAs (Decidable (p ∉ s.queue))
  | .dequeueproc _ _ => inferInstanceAs (Decidable True)

def Step (a : EdfEvent P M) (t : EdfState P M) : Prop := s.May a ∧ t = s.next a

/-- The deadline `d` compares with that of `q` as the times do. It does not if the word runs from
`2^31 - 1` over to `-2^31` between them. -/
def Agrees (d : Int32) (q : P) : Prop := d < s.d q ↔ s.time d < s.deadline q

/-- The deadline with which a process goes to the queue compares with those there as the times do,
or those with which it does not are later, and stand behind a later one with which it does. -/
def Fits : EdfEvent P M → Prop
  | .edfready p => ∀ e, s.edf p = some e → e.Active s.now →
    ∀ q ∈ s.queue, ¬s.Agrees (e.due s.now) q →
      s.time (e.due s.now) < s.deadline q ∧
        ∃ y ∈ s.queue, s.Agrees (e.due s.now) y ∧ s.time (e.due s.now) < s.deadline y
  | _ => True

/-! ### Words and times -/

section Words

variable {ι : Type} {word time : ι → ℤ} {w : ℤ} {p q y : ι} {l l' : List ι}

/-- The words are the low bits of the times, which lie within one turn from `w` on. -/
structure Words (w : ℤ) (word time : ι → ℤ) : Prop where
  lap : ∀ x, ∃ k : ℤ, time x = word x + 2 ^ 32 * k
  window : ∀ x, w ≤ time x ∧ time x < w + 2 ^ 32
  range : ∀ x, -2 ^ 31 ≤ word x ∧ word x < 2 ^ 31

/-- The words of two elements compare as the times do. They do not if the words run from `2^31 - 1`
over to `-2^31` between the two times. -/
def Agree (word time : ι → ℤ) (q p : ι) : Prop := word p < word q ↔ time p < time q

/-- The elements after `p` whose words compare with that of `p` as the times do come before those
whose words do not. -/
theorem Words.lt_of_not_agree (hw : Words w word time) (hq : ¬Agree word time q p)
    (hpq : time p < time q) (hy : Agree word time y p) (hpy : time p < time y) :
    time y < time q := by
  obtain ⟨kp, hp⟩ := hw.lap p
  obtain ⟨kq, hlq⟩ := hw.lap q
  obtain ⟨ky, hly⟩ := hw.lap y
  have hwp := hw.window p
  have hwq := hw.window q
  have hwy := hw.window y
  have hrp := hw.range p
  have hrq := hw.range q
  have hry := hw.range y
  have hwordq : word q ≤ word p := not_lt.1 fun hlt => hq ⟨fun _ => hpq, fun _ => hlt⟩
  have hwordy : word p < word y := hy.2 hpy
  omega

/-- Elements of one time have one word. -/
theorem Words.word_eq (hw : Words w word time) (h : time q = time p) : word q = word p := by
  obtain ⟨kp, hp⟩ := hw.lap p
  obtain ⟨kq, hq⟩ := hw.lap q
  have hrp := hw.range p
  have hrq := hw.range q
  omega

/-- **An element is put into a list in the order of the times, before the first element with a
greater word**: the list stays in order if and only if the words compare with that of the new
element as the times do, apart from later elements that have one of these before them. -/
theorem Words.pairwise_insert_iff (hw : Words w word time)
    (hs : (l ++ l').Pairwise fun x y => time x ≤ time y) (hpass : ∀ y ∈ l, ¬word y > word p)
    (hhit : ∀ y ∈ l'.head?, word y > word p) :
    ((l ++ p :: l').Pairwise fun x y => time x ≤ time y) ↔ ∀ q ∈ l ++ l', ¬Agree word time q p →
        time p < time q ∧ ∃ y ∈ l ++ l', Agree word time y p ∧ time p < time y := by
  rw [pairwise_append] at hs
  obtain ⟨hl, hl', hcross⟩ := hs
  constructor
  · intro hsort q hq hno
    rw [pairwise_append, pairwise_cons] at hsort
    obtain ⟨-, ⟨hafter, -⟩, hbefore⟩ := hsort
    have hle : ∀ x ∈ l, time x ≤ time p := fun x hx => hbefore x hx p mem_cons_self
    -- an element that compares the wrong way is none of those passed, and so there is one that
    -- stopped the walk
    have hnot : q ∉ l := by
      intro hin
      refine hno ⟨fun hlt => absurd hlt (hpass q hin), fun hlt => ?_⟩
      exact absurd hlt (not_lt.2 (hle q hin))
    have hin : q ∈ l' := (mem_append.1 hq).resolve_left hnot
    have hlt : time p < time q := by
      refine lt_of_le_of_ne (hafter q hin) fun heq => hno ?_
      have hword := hw.word_eq heq
      exact ⟨fun h => absurd h (by omega), fun h => absurd h (by omega)⟩
    obtain _ | ⟨y, l'⟩ := l'
    · cases hin
    · have hword : word p < word y := hhit y rfl
      have hley : time p ≤ time y := hafter y mem_cons_self
      have hlty : time p < time y := by
        refine lt_of_le_of_ne hley fun heq => ?_
        have := hw.word_eq heq
        omega
      exact ⟨hlt, y, mem_append_right _ mem_cons_self, ⟨fun _ => hlty, fun _ => hword⟩, hlty⟩
  · intro hfits
    have hle : ∀ x ∈ l, time x ≤ time p := by
      intro x hx
      by_contra hlt
      rw [not_le] at hlt
      -- it was passed, hence compares the wrong way, and one that does not stands before it
      have hno : ¬Agree word time x p := fun ha => hpass x hx (ha.2 hlt)
      obtain ⟨-, y, hy, hay, hpy⟩ := hfits x (mem_append_left _ hx) hno
      have hlty := hw.lt_of_not_agree hno hlt hay hpy
      rcases mem_append.1 hy with hy | hy
      · exact hpass y hy (hay.2 hpy)
      · exact absurd (hcross x hx y hy) (not_le.2 hlty)
    have hge : ∀ x ∈ l', time p ≤ time x := by
      obtain _ | ⟨y, l'⟩ := l'
      · intro x hx
        cases hx
      · have hword : word p < word y := hhit y rfl
        have hpy : time p < time y := by
          by_contra hno
          have hna : ¬Agree word time y p := fun ha => hno (ha.1 hword)
          exact hno (hfits y (mem_append_right _ mem_cons_self) hna).1
        intro x hx
        rcases mem_cons.1 hx with rfl | hx
        · exact hpy.le
        · exact hpy.le.trans ((pairwise_cons.1 hl').1 x hx)
    rw [pairwise_append, pairwise_cons]
    refine ⟨hl, ⟨hge, hl'⟩, fun x hx y hy => ?_⟩
    rcases mem_cons.1 hy with rfl | hy
    · exact hle x hx
    · exact hcross x hx y hy

end Words

/-! ### One call -/

end EdfState

namespace Edf

variable {e : Edf} {now : Int32}

/-- Only the next release changes. -/
theorem exists_nextrelease (e : Edf) (now : Int32) :
    ∃ t, e.nextrelease now = { e with t := t } := by
  rw [nextrelease]
  split_ifs
  · exact ⟨_, rfl⟩
  · exact ⟨_, rfl⟩
  · exact ⟨e.t, rfl⟩

theorem due_nextrelease : (e.nextrelease now).due now = e.due now := by
  obtain ⟨t, ht⟩ := e.exists_nextrelease now
  rw [ht, due, due]

theorem release_d : (e.release now).d = e.due now := by
  rw [release, due]
  dsimp only
  by_cases hlt : e.d - now < 0
  · rw [if_pos hlt, if_pos hlt]
    dsimp only
    split_ifs with hs
    · obtain ⟨t, ht⟩ := exists_nextrelease { e with
        periods := e.periods + 1, r := now, flags := e.flags &&& ~~~Yield } now
      rw [ht]
    · rfl
  · rw [if_neg hlt, if_neg hlt]

/-- **Which way `edfready` goes**, and the deadline of a process that goes to the queue. -/
theorem edfready_cases (e : Edf) (now : Int32) (state : ProcState) :
    e.Active now ∧ (∃ e', e.edfready now state = (.active, e') ∧ e'.d = e.due now) ∨
      ¬e.Active now ∧ ∃ e' way, e.edfready now state = (way, e') ∧ way ≠ .active := by
  rw [edfready, Active]
  by_cases hadm : e.flags &&& Admitted = 0
  · rw [if_pos hadm]
    exact .inr ⟨fun h => h.1 hadm, e, .no, rfl, Edfready.noConfusion⟩
  rw [if_neg hadm]
  by_cases hpast : e.d - now ≤ 0
  · rw [if_pos hpast]
    dsimp only
    -- the deadline is not changed by the choice of the next release
    have hdue : (if e.flags &&& Sporadic = 0 then e.nextrelease now else e).due now =
      e.due now := by
      split_ifs
      · exact due_nextrelease
      · rfl
    revert hdue
    generalize (if e.flags &&& Sporadic = 0 then e.nextrelease now else e) = e₁
    intro hdue
    by_cases hnext : now - e₁.t < 0
    · rw [if_pos hnext]
      refine .inr ⟨fun h => absurd (h.2 hpast) (Int32.not_le.2 hnext), ?_⟩
      split_ifs
      · exact ⟨e₁, .extra, rfl, Edfready.noConfusion⟩
      · exact ⟨e₁, .wait, rfl, Edfready.noConfusion⟩
    · rw [if_neg hnext]
      exact .inl ⟨⟨hadm, fun _ => Int32.not_lt.1 hnext⟩, _, rfl, release_d.trans hdue⟩
  · rw [if_neg hpast]
    refine .inl ⟨⟨hadm, fun h => absurd h hpast⟩, e, rfl, ?_⟩
    rw [due, if_neg fun hlt => hpast (Int32.le_of_lt hlt)]

end Edf

namespace EdfState

variable {P M : Type} {s t : EdfState P M} {p q : P}

/-! ### Times -/

/-- The deadline is the low bits of its time, and this is within 2^31 µs. -/
theorem time_spec (s : EdfState P M) (d : Int32) : (∃ k : ℤ, s.time d = d.toInt + 2 ^ 32 * k) ∧
    s.clock - 2 ^ 31 ≤ s.time d ∧ s.time d < s.clock + 2 ^ 31 := by
  have hsub := Int32.toInt_sub d s.now
  have hnow : s.now.toInt = (s.clock : ℤ).bmod (2 ^ 32) := Int32.toInt_ofNat'
  rw [hnow, Int.sub_bmod_bmod] at hsub
  rw [time, hsub, Int.bmod_def]
  split_ifs
  · refine ⟨⟨-((d.toInt - s.clock) / 2 ^ 32), ?_⟩, ?_, ?_⟩ <;> omega
  · refine ⟨⟨-((d.toInt - s.clock) / 2 ^ 32) - 1, ?_⟩, ?_, ?_⟩ <;> omega

/-- **A deadline keeps its time** as long as this is within 2^31 µs. -/
theorem time_eq (hclock : s.clock ≤ t.clock) {d : Int32}
    (hlive : (t.clock : ℤ) ≤ s.time d + 2 ^ 31) : t.time d = s.time d := by
  obtain ⟨⟨k, hk⟩, hle, hlt⟩ := s.time_spec d
  obtain ⟨⟨k', hk'⟩, hle', hlt'⟩ := t.time_spec d
  omega

theorem time_congr (hclock : t.clock = s.clock) (d : Int32) : t.time d = s.time d := by
  rw [time, time, now, now, hclock]

/-- The words of the deadlines of all processes, and their times. -/
theorem words (s : EdfState P M) :
    Words (s.clock - 2 ^ 31) (fun p => (s.d p).toInt) s.deadline where
  lap p := (s.time_spec (s.d p)).1
  window p := by
    obtain ⟨-, hle, hlt⟩ := s.time_spec (s.d p)
    rw [deadline]
    omega
  range p := ⟨(s.d p).le_toInt, (s.d p).toInt_lt⟩

/-! ### The queue -/

section Queue

variable [DecidableEq P] [Fintype P] {l l' : List P}

/-- The queues of the processes are well formed, and only that of real time processes is in use. -/
def HasQueue (s : EdfState P M) (l : List P) : Prop :=
  Queues s.runq fun i => if i = priEdf then l else []

theorem HasQueue.queue_eq (h : HasQueue s l) : s.queue = l := (Queues.queue_eq h priEdf).trans
  (if_pos rfl)

omit [DecidableEq P] [Fintype P] in
theorem HasQueue.of_update {rq : State P M}
    (hrq : Queues rq (Function.update (fun i => if i = priEdf then l else []) priEdf l'))
    (ht : t.runq = rq) : HasQueue t l' := by
  have hfun : Function.update (fun i => if i = priEdf then l else []) priEdf l' =
      fun i => if i = priEdf then l' else [] := by
    funext i
    by_cases hi : i = priEdf
    · rw [hi, Function.update_self, if_pos rfl]
    · rw [Function.update_of_ne hi, if_neg hi, if_neg hi]
  rw [HasQueue, ht, ← hfun]
  exact hrq

omit [DecidableEq P] [Fintype P] in
theorem hasQueue_init : HasQueue (init P M) [] := by
  have hfun : (fun i => if i = priEdf then [] else []) = fun _ : ℕ => ([] : List P) := by
    funext i
    rw [ite_self]
  rw [HasQueue, hfun]
  exact inv_init.queues

/-- The queue stays in order while its processes keep their places and their times. -/
theorem Sorted.congr (hq : t.queue = s.queue) (hd : ∀ q ∈ s.queue, t.deadline q = s.deadline q) :
    t.Sorted ↔ s.Sorted := by
  rw [Sorted, Sorted, hq]
  exact List.Pairwise.iff_of_mem fun hx hy => by rw [hd _ hx, hd _ hy]

omit [Fintype P] in
theorem d_of_edf_ne (hne : q ≠ p) {e : Option Edf} (he : t.edf = Function.update s.edf p e) :
    t.d q = s.d q := by
  rw [d, d, he, Function.update_of_ne hne]

/-- **A process goes to the queue**: it comes before the first one with a deadline that is later as
a word. -/
theorem HasQueue.edfready_active (h : HasQueue s l) (hp : p ∉ l) {e : Edf} (he : s.edf p = some e)
    (hact : e.Active s.now) : ∃ l₁ l₂ e', l = l₁ ++ l₂ ∧ e'.d = e.due s.now ∧
      (∀ y ∈ l₁, ¬(s.d y).toInt > (e.due s.now).toInt) ∧
      (∀ y ∈ l₂.head?, (s.d y).toInt > (e.due s.now).toInt) ∧
      HasQueue (s.edfready p) (l₁ ++ p :: l₂) ∧
      (s.edfready p).edf = Function.update s.edf p (some e') ∧
      (s.edfready p).clock = s.clock := by
  obtain ⟨-, e', hway, hdue⟩ | ⟨hno, -⟩ := e.edfready_cases s.now (s.runq.state p)
  · have hs : s.edfready p =
      ⟨sched ⟨s.runq, Function.update s.edf p (some e'), s.clock⟩ |>.edfqueue p,
        Function.update s.edf p (some e'), s.clock⟩ := by
      rw [edfready, he]
      dsimp only
      rw [hway]
    set u : EdfState P M := ⟨s.runq, Function.update s.edf p (some e'), s.clock⟩ with hu
    have hqueues : Queues u.sched fun i => if i = priEdf then l else [] :=
      Queues.congr h rfl rfl rfl rfl rfl
    have hout : ∀ i, p ∉ if i = priEdf then l else [] := by
      intro i
      split_ifs
      · exact hp
      · exact not_mem_nil
    obtain ⟨l₁, l₂, hl, hpass, hhit, hnew⟩ := hqueues.edfqueue hout
    rw [if_pos rfl] at hl
    subst hl
    have hself : u.d p = e.due s.now := by
      rw [d, hu]
      simp only [Function.update_self]
      exact hdue
    have hother : ∀ y ∈ l₁ ++ l₂, u.d y = s.d y := by
      intro y hy
      refine d_of_edf_ne (p := p) ?_ rfl
      rintro rfl
      exact hp hy
    refine ⟨l₁, l₂, e', rfl, hdue, fun y hy => ?_, fun y hy => ?_, ?_, ?_, ?_⟩
    · rw [← hother y (mem_append_left _ hy), ← hself]
      exact hpass y hy
    · rw [← hother y (mem_append_right _ (List.mem_of_mem_head? hy)), ← hself]
      exact hhit y hy
    · exact HasQueue.of_update hnew (by rw [hs])
    · rw [hs]
    · rw [hs]
  · exact absurd hact hno

theorem edfready_none (he : s.edf p = none) : s.edfready p = s := by
  rw [edfready, he]

/-- Otherwise the queue stays as it is. -/
theorem HasQueue.edfready_other (h : HasQueue s l)
    (hno : ∀ e, s.edf p = some e → ¬e.Active s.now) : ∃ e', HasQueue (s.edfready p) l ∧
      (s.edfready p).edf = Function.update s.edf p e' ∧ (s.edfready p).clock = s.clock := by
  cases he : s.edf p with
  | none =>
    rw [edfready_none he]
    exact ⟨none, h, by rw [← he, Function.update_eq_self], rfl⟩
  | some e =>
    obtain ⟨hact, -⟩ | ⟨-, e', way, hway, hne⟩ := e.edfready_cases s.now (s.runq.state p)
    · exact absurd hact (hno e he)
    · rw [edfready, he]
      dsimp only
      rw [hway]
      refine ⟨some e', ?_⟩
      cases way with
      | no => exact ⟨h, rfl, rfl⟩
      | extra => exact ⟨Queues.congr h rfl rfl rfl rfl rfl, rfl, rfl⟩
      | wait => exact ⟨Queues.congr h rfl rfl rfl rfl rfl, rfl, rfl⟩
      | active => exact absurd rfl hne

/-- The queue stays as it is, and only the parameters of a process that is not there change. -/
theorem HasQueue.sorted_congr (h : HasQueue s l) (ht : HasQueue t l) (hp : p ∉ l) {e : Option Edf}
    (he : t.edf = Function.update s.edf p e) (hclock : t.clock = s.clock) :
    t.Sorted ↔ s.Sorted := by
  refine Sorted.congr (ht.queue_eq.trans h.queue_eq.symm) fun q hq => ?_
  rw [h.queue_eq] at hq
  rw [deadline, deadline, time_congr hclock, d_of_edf_ne _ he]
  rintro rfl
  exact hp hq

/-- **The queue stays in order** when a process goes there, if and only if its deadline fits. -/
theorem HasQueue.sorted_edfready_iff (h : HasQueue s l) (hs : s.Sorted) (hp : p ∉ l) {e : Edf}
    (he : s.edf p = some e) (hact : e.Active s.now) :
    (s.edfready p).Sorted ↔ s.Fits (.edfready p : EdfEvent P M) := by
  obtain ⟨l₁, l₂, e', rfl, hdue, hpass, hhit, hq, hedf, hclock⟩ := h.edfready_active hp he hact
  set t := s.edfready p with ht
  have hself : t.d p = e.due s.now := by
    rw [d, hedf, Function.update_self]
    exact hdue
  have hother : ∀ y ∈ l₁ ++ l₂, t.d y = s.d y := by
    intro y hy
    refine d_of_edf_ne ?_ hedf
    rintro rfl
    exact hp hy
  have hdead : ∀ y ∈ l₁ ++ l₂, t.deadline y = s.deadline y := by
    intro y hy
    rw [deadline, deadline, time_congr hclock, hother y hy]
  have hnew : t.deadline p = s.time (e.due s.now) := by
    rw [deadline, time_congr hclock, hself]
  have hagree : ∀ y ∈ l₁ ++ l₂, Agree (fun p => (t.d p).toInt) t.deadline y p ↔
      s.Agrees (e.due s.now) y := by
    intro y hy
    rw [Agree, Agrees, hdead y hy, hnew, hself, hother y hy, Int32.lt_iff_toInt_lt]
  have hsort : (l₁ ++ l₂).Pairwise fun x y => t.deadline x ≤ t.deadline y := by
    rw [Sorted, h.queue_eq] at hs
    refine hs.imp_of_mem fun hx hy hle => ?_
    rw [hdead _ hx, hdead _ hy]
    exact hle
  have hiff := t.words.pairwise_insert_iff hsort (p := p)
    (fun y hy => by rw [hself, hother y (mem_append_left _ hy)]; exact hpass y hy)
    (fun y hy => by
      rw [hself, hother y (mem_append_right _ (List.mem_of_mem_head? hy))]
      exact hhit y hy)
  rw [Sorted, hq.queue_eq, hiff, Fits, h.queue_eq]
  constructor
  · intro hall e₁ he₁ _ q hin hno
    obtain rfl : e = e₁ := Option.some.inj (he.symm.trans he₁)
    obtain ⟨hlt, y, hy, hay, hlty⟩ := hall q hin fun ha => hno ((hagree q hin).1 ha)
    rw [hnew, hdead q hin] at hlt
    rw [hnew, hdead y hy] at hlty
    exact ⟨hlt, y, hy, (hagree y hy).1 hay, hlty⟩
  · intro hfits q hin hno
    obtain ⟨hlt, y, hy, hay, hlty⟩ := hfits e he hact q hin fun ha => hno ((hagree q hin).2 ha)
    rw [hnew, hdead q hin]
    refine ⟨hlt, y, hy, (hagree y hy).2 hay, ?_⟩
    rw [hdead y hy]
    exact hlty

/-- **The steps**: a queue in order stays so if and only if what happens fits. -/
theorem HasQueue.step {a : EdfEvent P M} (h : HasQueue s l) (hs : s.Sorted) (hstep : s.Step a t) :
    (∃ l', HasQueue t l') ∧ (t.Sorted ↔ s.Fits a) := by
  obtain ⟨hmay, rfl⟩ := hstep
  cases a with
  | time c =>
    obtain ⟨hle, hlive⟩ := hmay
    have ht : HasQueue (s.next (.time c)) l := h
    refine ⟨⟨l, ht⟩, ?_⟩
    rw [Sorted.congr (ht.queue_eq.trans h.queue_eq.symm) fun q hq => ?_]
    · exact iff_of_true hs trivial
    · exact time_eq hle (hlive q hq)
  | edf p e state =>
    rw [May, h.queue_eq] at hmay
    have ht : HasQueue (s.next (.edf p e state)) l := Queues.congr h rfl rfl rfl rfl rfl
    refine ⟨⟨l, ht⟩, ?_⟩
    rw [h.sorted_congr ht hmay rfl rfl]
    exact iff_of_true hs trivial
  | mach p m =>
    have ht : HasQueue (s.next (.mach p m)) l := Queues.congr h rfl rfl rfl rfl rfl
    refine ⟨⟨l, ht⟩, ?_⟩
    rw [Sorted.congr (ht.queue_eq.trans h.queue_eq.symm) fun q hq => rfl]
    exact iff_of_true hs trivial
  | edfready p =>
    rw [May, h.queue_eq] at hmay
    rw [next]
    by_cases hact : ∃ e, s.edf p = some e ∧ e.Active s.now
    · obtain ⟨e, he, hact⟩ := hact
      obtain ⟨l₁, l₂, e', -, -, -, -, hq, -⟩ := h.edfready_active hmay he hact
      exact ⟨⟨_, hq⟩, h.sorted_edfready_iff hs hmay he hact⟩
    · obtain ⟨e', hq, hedf, hclock⟩ := h.edfready_other (p := p)
        fun e he hact' => hact ⟨e, he, hact'⟩
      refine ⟨⟨_, hq⟩, ?_⟩
      rw [h.sorted_congr hq hmay hedf hclock]
      exact iff_of_true hs fun e he hact' => absurd ⟨e, he, hact'⟩ hact
  | dequeueproc p can =>
    have hsched : Queues s.sched fun i => if i = priEdf then l else [] :=
      Queues.congr h rfl rfl rfl rfl rfl
    rw [next]
    obtain ⟨-, hno⟩ | ⟨-, rq, l₁, l₂, heq, hl, -, hnew⟩ :=
      hsched.dequeueproc (by decide : priEdf < nrq) p can
    · rw [hno]
      refine ⟨⟨l, hsched⟩, iff_of_true ?_ trivial⟩
      exact hs
    · rw [heq]
      rw [if_pos rfl] at hl
      subst hl
      have ht : HasQueue { s with runq := rq } (l₁ ++ l₂) := HasQueue.of_update hnew rfl
      refine ⟨⟨_, ht⟩, iff_of_true ?_ trivial⟩
      rw [Sorted, h.queue_eq] at hs
      rw [Sorted, ht.queue_eq]
      exact hs.sublist ((sublist_cons_self p l₂).append_left l₁)

end Queue

/-! ### Runs -/

theorem sorted_init [DecidableEq P] [Fintype P] : (init P M).Sorted := by
  rw [Sorted, hasQueue_init.queue_eq]
  exact .nil

end EdfState

/-- **Through which runs the queue is in the order of the deadlines**: through those in which every
process that goes to the queue has a deadline whose word compares with those of the processes there
as the times do, unless these are later and have a later one before them with which it does. -/
theorem edf_sorted_iff {P M : Type} [DecidableEq P] [Fintype P] (l : List (EdfEvent P M))
    (t : EdfState P M) :
    Run (Guarded EdfState.Fits EdfState.Step) (EdfState.init P M) l t ↔
      Run EdfState.Step (EdfState.init P M) l t ∧
        ∀ l₁ u, l₁ <+: l → Run EdfState.Step (EdfState.init P M) l₁ u → u.Sorted := by
  refine Run.guarded_iff (I := fun s => ∃ que, s.HasQueue que) ?_ ?_ ⟨[], EdfState.hasQueue_init⟩
    EdfState.sorted_init
  · rintro s a u ⟨que, hque⟩ hs hstep
    exact hque.step hs hstep
  · rintro s a u u' ⟨-, hu⟩ ⟨-, hu'⟩
    exact hu.trans hu'.symm

/-- **The order is lost at the wrap**: a process whose deadline comes 16 µs before another one,
which has wrapped, is put behind it. -/
theorem edf_unsorted : ¬∀ (l : List (EdfEvent Bool Unit)) (t : EdfState Bool Unit),
    Run EdfState.Step (EdfState.init Bool Unit) l t → t.Sorted := by
  intro h
  let late : Edf := ⟨100, 100, 10, 10, 0x7ffffff0, -0x7ffffff8, 0x7ffffff0, Admitted, 0⟩
  let soon : Edf := ⟨100, 100, 10, 10, 0x7ffffff0, 0x7ffffff8, 0x7ffffff0, Admitted, 0⟩
  have hrun : Run EdfState.Step (EdfState.init Bool Unit)
      [.time 0x7ffffff0, .edf true (some late) .scheding, .edf false (some soon) .scheding,
        .edfready true, .edfready false] _ :=
    .cons ⟨by decide, rfl⟩ <| .cons ⟨by decide, rfl⟩ <| .cons ⟨by decide, rfl⟩ <|
      .cons ⟨by decide, rfl⟩ <| .cons ⟨by decide, rfl⟩ <| .nil _
  exact absurd (h _ _ hrun) (by decide)

end Kernel

end Plan9
