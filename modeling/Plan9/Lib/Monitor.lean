import Mathlib.Data.List.Basic
import Mathlib.Logic.Function.Basic

/-!
# Monitors

A lock with a queue, and rendezvous points at which the process that has the lock may sleep. The
lock is handed over: whoever gives it back, or goes to sleep, passes it to the head of the queue.
A wakeup takes the first sleeper of a rendezvous point and puts it at the *front* of the queue, so
that it is the next one to have the lock.

Every process is in at most one place (`Plan9.Lib.Monitor.Distinct`), and which processes there are
in the monitor changes only by entering and leaving it.

* `Plan9.Lib.Monitor.Distinct.enter`, `leave`, `wait` and `signal` – the operations keep that.
-/

namespace Plan9

namespace Lib

open List Function

/-- A lock, its queue, and who sleeps where. -/
structure Monitor (P C : Type) where
  holder : Option P
  queue : List P
  waiting : C → List P

namespace Monitor

variable {P C : Type} (m : Monitor P C) (p : P) (c : C)

/-- Nobody is there. -/
def empty : Monitor P C := ⟨none, [], fun _ => []⟩

/-- `qlock`: take the lock, or queue for it. -/
def enter : Monitor P C :=
  match m.holder with
  | none => { m with holder := some p }
  | some _ => { m with queue := m.queue ++ [p] }

/-- `qunlock`: pass the lock. -/
def leave : Monitor P C := { m with holder := m.queue.head?, queue := m.queue.tail }

/-- `rsleep`: sleep at a rendezvous point, and pass the lock. -/
def wait [DecidableEq C] : Monitor P C :=
  { m with waiting := Function.update m.waiting c (m.waiting c ++ [p]) }.leave

/-- `rwakeup`: the first sleeper goes to the front of the queue. -/
def signal [DecidableEq C] : Monitor P C :=
  match m.waiting c with
  | [] => m
  | q :: qs => { m with queue := q :: m.queue, waiting := Function.update m.waiting c qs }

/-- The process has the lock, waits for it, or sleeps. -/
def Has : Prop := m.holder = some p ∨ p ∈ m.queue ∨ ∃ c, p ∈ m.waiting c

/-- Every process is in one place. -/
structure Distinct : Prop where
  queue : m.queue.Nodup
  waiting : ∀ c, (m.waiting c).Nodup
  holder_queue : ∀ p, m.holder = some p → p ∉ m.queue
  holder_waiting : ∀ p c, m.holder = some p → p ∉ m.waiting c
  queue_waiting : ∀ p c, p ∈ m.queue → p ∉ m.waiting c
  waiting_waiting : ∀ p c c', p ∈ m.waiting c → p ∈ m.waiting c' → c = c'
  /-- Nobody queues for a lock that nobody has. -/
  free : m.holder = none → m.queue = []

variable {m p c}

theorem distinct_empty : (empty : Monitor P C).Distinct :=
  ⟨nodup_nil, fun _ => nodup_nil, fun _ h => (by cases h), fun _ _ h => (by cases h),
    fun _ _ h => (by cases h), fun _ _ _ h => (by cases h), fun _ => rfl⟩

theorem not_has_empty (p : P) : ¬(empty : Monitor P C).Has p := by
  rintro (h | h | ⟨c, h⟩) <;> cases h

/-! ### Entering and leaving -/

theorem nodup_concat {l : List P} (h : l.Nodup) (hp : p ∉ l) : (l ++ [p]).Nodup := by
  refine nodup_append.2 ⟨h, nodup_cons.2 ⟨not_mem_nil, nodup_nil⟩, ?_⟩
  rintro a ha b hb rfl
  exact hp (mem_singleton.1 hb ▸ ha)

theorem enter_of_holder {q : P} (h : m.holder = some q) :
    m.enter p = { m with queue := m.queue ++ [p] } := by
  rw [enter, h]

theorem waiting_enter (m : Monitor P C) (p : P) : (m.enter p).waiting = m.waiting := by
  rw [enter]
  split <;> rfl

theorem has_enter {q : P} : (m.enter p).Has q ↔ q = p ∨ m.Has q := by
  rw [enter, Has, Has]
  split
  next h =>
    simp only [h, Option.some.injEq, reduceCtorEq, false_or]
    rw [eq_comm]
  next r h =>
    simp only [mem_append, mem_singleton]
    tauto

theorem Distinct.enter (h : m.Distinct) (hp : ¬m.Has p) : (m.enter p).Distinct := by
  have hq : p ∉ m.queue := fun hq => hp (Or.inr (Or.inl hq))
  have hw : ∀ c, p ∉ m.waiting c := fun c hw => hp (Or.inr (Or.inr ⟨c, hw⟩))
  rw [Monitor.enter]
  split
  next hfree =>
    refine ⟨h.queue, h.waiting, fun q hq' => ?_, fun q c hq' => ?_, h.queue_waiting,
      h.waiting_waiting, fun hno => by cases hno⟩
    · cases hq'
      exact hq
    · cases hq'
      exact hw c
  next r hr =>
    refine ⟨?_, h.waiting, fun q hq' => ?_, h.holder_waiting, fun q c hq' => ?_,
      h.waiting_waiting, fun hno => ?_⟩
    · exact nodup_concat h.queue hq
    · rw [mem_append, mem_singleton]
      rintro (hmem | rfl)
      · exact h.holder_queue q hq' hmem
      · exact hp (Or.inl hq')
    · rcases mem_append.1 hq' with hmem | hmem
      · exact h.queue_waiting q c hmem
      · rw [mem_singleton.1 hmem]
        exact hw c
    · rw [hr] at hno
      cases hno

theorem Distinct.leave (h : m.Distinct) : m.leave.Distinct := by
  rw [Monitor.leave]
  cases hqueue : m.queue with
  | nil =>
    exact ⟨nodup_nil, h.waiting, fun q hq => (by cases hq), fun q c hq => (by cases hq),
      fun q c hq => (by cases hq), h.waiting_waiting, fun _ => rfl⟩
  | cons q qs =>
    have hnodup := h.queue
    rw [hqueue, nodup_cons] at hnodup
    have hmem : ∀ r, r ∈ q :: qs → r ∈ m.queue := fun r hr => by rwa [hqueue]
    refine ⟨hnodup.2, h.waiting, fun r hr => ?_, fun r c hr => ?_, fun r c hr => ?_,
      h.waiting_waiting, fun hno => by cases hno⟩
    · cases hr
      exact hnodup.1
    · cases hr
      exact h.queue_waiting _ c (hmem _ mem_cons_self)
    · exact h.queue_waiting r c (hmem r (mem_cons_of_mem q hr))

/-- Who is still there when `p` has left. -/
theorem has_leave (h : m.Distinct) (hp : m.holder = some p) {q : P} :
    m.leave.Has q ↔ m.Has q ∧ q ≠ p := by
  have hqueue : (m.queue.head? = some q ∨ q ∈ m.queue.tail) ↔ q ∈ m.queue := by
    cases m.queue with
    | nil => simp
    | cons r rs => simp [eq_comm]
  rw [Has, Has, Monitor.leave, ← or_assoc, hqueue, hp, Option.some.injEq]
  constructor
  · rintro (hmem | ⟨c, hmem⟩)
    · refine ⟨Or.inr (Or.inl hmem), ?_⟩
      rintro rfl
      exact h.holder_queue q hp hmem
    · refine ⟨Or.inr (Or.inr ⟨c, hmem⟩), ?_⟩
      rintro rfl
      exact h.holder_waiting q c hp hmem
  · rintro ⟨rfl | hmem | hmem, hne⟩
    · exact absurd rfl hne
    · exact Or.inl hmem
    · exact Or.inr hmem

/-! ### Sleeping and waking up -/

variable [DecidableEq C]

theorem mem_waiting_wait {c' : C} {q : P} :
    q ∈ (m.wait p c).waiting c' ↔ q ∈ m.waiting c' ∨ c' = c ∧ q = p := by
  rw [wait, leave]
  rcases eq_or_ne c' c with rfl | hne
  · simp
  · simp [hne]

/-- Where `p` is while it sleeps, before the lock is passed. -/
theorem Distinct.wait (h : m.Distinct) (hp : m.holder = some p) : (m.wait p c).Distinct := by
  have hleave := h.leave
  have hpq : p ∉ m.queue := h.holder_queue p hp
  have hhead : m.leave.holder ≠ some p := fun hno => by
    have := (has_leave h hp (q := p)).1 (Or.inl hno)
    exact this.2 rfl
  have htail : p ∉ m.leave.queue := fun hno =>
    ((has_leave h hp (q := p)).1 (Or.inr (Or.inl hno))).2 rfl
  refine ⟨hleave.queue, fun c' => ?_, hleave.holder_queue, fun q c' hq => ?_, fun q c' hq => ?_,
    fun q c' c'' h1 h2 => ?_, hleave.free⟩
  · rw [Monitor.wait, Monitor.leave]
    rcases eq_or_ne c' c with rfl | hne
    · simp only [update_self]
      exact nodup_concat (h.waiting c') (h.holder_waiting p c' hp)
    · simp only [update_of_ne hne]
      exact h.waiting c'
  · rw [mem_waiting_wait]
    rintro (hmem | ⟨-, rfl⟩)
    · exact hleave.holder_waiting q c' hq hmem
    · exact hhead hq
  · rw [mem_waiting_wait]
    rintro (hmem | ⟨-, rfl⟩)
    · exact hleave.queue_waiting q c' hq hmem
    · exact htail hq
  · rw [mem_waiting_wait] at h1 h2
    rcases h1 with h1 | ⟨h1, hq1⟩ <;> rcases h2 with h2 | ⟨h2, hq2⟩
    · exact h.waiting_waiting q c' c'' h1 h2
    · exact absurd (hq2 ▸ h1) (h.holder_waiting p c' hp)
    · exact absurd (hq1 ▸ h2) (h.holder_waiting p c'' hp)
    · exact h1.trans h2.symm

theorem has_wait (h : m.Distinct) (hp : m.holder = some p) {q : P} :
    (m.wait p c).Has q ↔ m.Has q := by
  have hplace : (m.wait p c).Has q ↔ m.leave.Has q ∨ q = p := by
    simp only [Has, mem_waiting_wait]
    constructor
    · rintro (hmem | hmem | ⟨c', hmem | ⟨-, rfl⟩⟩)
      · exact Or.inl (Or.inl hmem)
      · exact Or.inl (Or.inr (Or.inl hmem))
      · exact Or.inl (Or.inr (Or.inr ⟨c', hmem⟩))
      · exact Or.inr rfl
    · rintro ((hmem | hmem | ⟨c', hmem⟩) | rfl)
      · exact Or.inl hmem
      · exact Or.inr (Or.inl hmem)
      · exact Or.inr (Or.inr ⟨c', Or.inl hmem⟩)
      · exact Or.inr (Or.inr ⟨c, Or.inr ⟨rfl, rfl⟩⟩)
  rw [hplace, has_leave h hp]
  constructor
  · rintro (⟨hq, -⟩ | rfl)
    · exact hq
    · exact Or.inl hp
  · intro hq
    rcases eq_or_ne q p with rfl | hne
    · exact Or.inr rfl
    · exact Or.inl ⟨hq, hne⟩

theorem holder_signal : (m.signal c).holder = m.holder := by
  rw [signal]
  split <;> rfl

theorem mem_waiting_of_signal {c' : C} {q : P} (h : q ∈ (m.signal c).waiting c') :
    q ∈ m.waiting c' := by
  rw [signal] at h
  split at h
  next => exact h
  next r rs hr =>
    rcases eq_or_ne c' c with rfl | hne
    · simp only [update_self] at h
      rw [hr]
      exact mem_cons_of_mem r h
    · simpa only [update_of_ne hne] using h

theorem has_signal {q : P} : (m.signal c).Has q ↔ m.Has q := by
  rw [signal]
  split
  next => rfl
  next r rs hr =>
    simp only [Has, mem_cons]
    constructor
    · rintro (h | (rfl | h) | ⟨c', h⟩)
      · exact Or.inl h
      · exact Or.inr (Or.inr ⟨c, by rw [hr]; exact mem_cons_self⟩)
      · exact Or.inr (Or.inl h)
      · refine Or.inr (Or.inr ⟨c', ?_⟩)
        rcases eq_or_ne c' c with rfl | hne
        · rw [update_self] at h
          rw [hr]
          exact mem_cons_of_mem r h
        · rwa [update_of_ne hne] at h
    · rintro (h | h | ⟨c', h⟩)
      · exact Or.inl h
      · exact Or.inr (Or.inl (Or.inr h))
      · rcases eq_or_ne c' c with rfl | hne
        · rw [hr] at h
          rcases mem_cons.1 h with rfl | h
          · exact Or.inr (Or.inl (Or.inl rfl))
          · exact Or.inr (Or.inr ⟨c', by rwa [update_self]⟩)
        · exact Or.inr (Or.inr ⟨c', by rwa [update_of_ne hne]⟩)

theorem Distinct.signal (h : m.Distinct) {q : P} (hheld : m.holder = some q) :
    (m.signal c).Distinct := by
  have hold : ∀ r c', r ∈ (m.signal c).waiting c' → r ∈ m.waiting c' :=
    fun r c' => mem_waiting_of_signal
  rw [Monitor.signal] at hold ⊢
  split at hold
  next => exact h
  next r rs hr =>
    have hrw : r ∈ m.waiting c := by
      rw [hr]
      exact mem_cons_self
    have hnodup := h.waiting c
    rw [hr, nodup_cons] at hnodup
    have hgone : ∀ c', r ∉ update m.waiting c rs c' := by
      intro c'
      rcases eq_or_ne c' c with rfl | hne
      · rw [update_self]
        exact hnodup.1
      · rw [update_of_ne hne]
        exact fun hmem => hne (h.waiting_waiting r c' c hmem hrw)
    refine ⟨nodup_cons.2 ⟨fun hmem => h.queue_waiting r c hmem hrw, h.queue⟩, fun c' => ?_,
      fun s hs => ?_, fun s c' hs hmem => ?_, fun s c' hs => ?_, fun s c' c'' h1 h2 => ?_,
      fun hno => ?_⟩
    · rcases eq_or_ne c' c with rfl | hne
      · simp only [update_self]
        exact hnodup.2
      · simp only [update_of_ne hne]
        exact h.waiting c'
    · rw [mem_cons]
      rintro (rfl | hmem)
      · exact h.holder_waiting s c hs hrw
      · exact h.holder_queue s hs hmem
    · exact h.holder_waiting s c' hs (hold s c' hmem)
    · rcases mem_cons.1 hs with rfl | hs
      · exact hgone c'
      · exact fun hmem => h.queue_waiting s c' hs (hold s c' hmem)
    · exact h.waiting_waiting s c' c'' (hold s c' h1) (hold s c'' h2)
    · simp only [hheld] at hno
      cases hno

/-- A wakeup leaves nobody asleep where only one can be. -/
theorem Distinct.waiting_signal (h : m.Distinct) {q : P} (hone : ∀ r ∈ m.waiting c, r = q) :
    (m.signal c).waiting c = [] := by
  rw [Monitor.signal]
  split
  next hnil => exact hnil
  next r rs hr =>
    have hnodup := h.waiting c
    rw [hr, nodup_cons] at hnodup
    have hr' : r = q := hone r (hr ▸ mem_cons_self)
    refine (update_self ..).trans (eq_nil_iff_forall_not_mem.2 fun s hs => hnodup.1 ?_)
    have hs' : s = q := hone s (hr ▸ mem_cons_of_mem r hs)
    rwa [hs', ← hr'] at hs

end Monitor

end Lib

end Plan9
