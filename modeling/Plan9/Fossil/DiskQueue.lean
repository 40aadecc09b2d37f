import Mathlib.Data.List.Perm.Basic
import Mathlib.Data.List.Sort
import Plan9.Lib.Monitor
import Plan9.Lib.Run

/-!
# The disk queue of fossil

Processes put blocks on the queue of the disk, and `diskThread` takes them off in the order of
their addresses: `disk->cur` has the blocks in front of the head of the disk, `disk->next` those
behind it. What is done with `disk->lk` held, up to giving it back or to going to sleep, is one step
here; the lock is a monitor (`Plan9.Lib.Monitor`), with the rendezvous points `flow`, `starve` and
`flush`.

* `Plan9.Fossil.DiskQueue.inv_step` – what every step keeps;
* `Plan9.Fossil.DiskQueue.run_sound` – in every run no block is lost or taken twice, `diskThread`
  takes one whenever it finds one, the lists are sorted, and a process that sleeps because the queue
  was full sleeps on only while it is full, or until another process has filled it up again.
-/

namespace Plan9

namespace Fossil

namespace DiskQueue

open Lib List Option

/-! ### The disk -/

/-- `QueueSize`. -/
def queueSize : ℕ := 100

/-- The processes that use the disk, and `diskThread`. -/
inductive Proc (P : Type)
  | client (p : P)
  | disk
deriving DecidableEq

/-- Where one can sleep. -/
inductive Rendez
  | flow
  | starve
  | flush
deriving DecidableEq

/-- What a process is doing: `diskQueue` or `diskFlush`. -/
inductive Task (B : Type)
  | queue (b : B)
  | flush
deriving DecidableEq

/-- Where `diskThread` is. -/
inductive DiskPc (B : Type)
  /-- It has not taken the lock yet. -/
  | starting
  /-- It is at the top of its loop, or wants the lock for that. -/
  | looping
  /-- It works on a block, without the lock. -/
  | working (b : B)
  /-- It wants the lock to count the block as done. -/
  | finishing (b : B)
deriving DecidableEq

variable {P B : Type}

/-- It waits for the lock, has it, or sleeps. -/
def DiskPc.inside : DiskPc B → Prop
  | starting | working _ => False
  | looping | finishing _ => True

/-- The number of blocks that it is working on. -/
def DiskPc.busy : DiskPc B → ℕ
  | starting | looping => 0
  | working _ | finishing _ => 1

/-- `struct Disk`, the processes, and the blocks that have been queued and taken so far. -/
structure Disk (P B : Type) where
  lk : Monitor (Proc P) Rendez
  nqueue : ℕ
  cur : List B
  next : List B
  task : P → Option (Task B)
  pc : DiskPc B
  queued : List B
  taken : List B

/-- `diskAlloc`. -/
def start : Disk P B where
  lk := Monitor.empty
  nqueue := 0
  cur := []
  next := []
  task _ := none
  pc := .starting
  queued := []
  taken := []

namespace Disk

variable (addr : B → UInt32) (s : Disk P B)

/-- The loop of `diskQueue` over a list. -/
def insert (b : B) (l : List B) : List B := l.orderedInsert (fun b bb => addr b < addr bb) b

/-- The block goes on the current scan. -/
def onCur (b : B) : Bool :=
  match s.cur with
  | [] => true
  | c :: _ => addr c < addr b

/-- `diskQueue`, behind its loop. -/
def enqueue (b : B) : Disk P B :=
  { s with
    cur := if s.onCur addr b then insert addr b s.cur else s.cur
    next := if s.onCur addr b then s.next else insert addr b s.next
    lk := if s.nqueue = 0 then s.lk.signal .starve else s.lk
    nqueue := s.nqueue + 1
    queued := b :: s.queued }

/-- The process sleeps. -/
def sleep (q : Proc P) (r : Rendez) : Disk P B := { s with lk := s.lk.wait q r }

/-- The process gives back the lock and returns. -/
def finish [DecidableEq P] (p : P) : Disk P B :=
  { s with lk := s.lk.leave, task := Function.update s.task p none }

/-- A process that has the lock goes on with `diskQueue`, or with `diskFlush`. -/
def runClient [DecidableEq P] (p : P) : Option (Disk P B) :=
  (s.task p).map fun
    | .queue b =>
      if queueSize ≤ s.nqueue then s.sleep (.client p) .flow else (s.enqueue addr b).finish p
    | .flush => if 0 < s.nqueue then s.sleep (.client p) .flush else s.finish p

/-- `diskThread` takes a block; it asserts that there is one. -/
def take : Option (Disk P B) :=
  match if s.cur.isEmpty then (s.next, []) else (s.cur, s.next) with
  | ([], _) => none
  | (b :: cur, next) =>
    some { s with
      lk := s.lk.leave, cur := cur, next := next, pc := .working b, taken := b :: s.taken }

/-- The top of the loop of `diskThread`. -/
def loop : Option (Disk P B) :=
  if s.nqueue = 0 then some { s.sleep .disk .starve with pc := .looping } else s.take

/-- The end of its loop. -/
def complete : Disk P B :=
  let lk := if s.nqueue - 1 = queueSize - 1 then s.lk.signal .flow else s.lk
  { s with
    nqueue := s.nqueue - 1
    lk := if s.nqueue - 1 = 0 then lk.signal .flush else lk }

end Disk

/-- The steps. -/
inductive Action (P B : Type)
  /-- A process calls `diskQueue` or `diskFlush`. -/
  | call (p : P) (t : Task B)
  /-- Who has the lock goes on, up to where it gives it back. -/
  | run
  /-- `diskThread` wants the lock, at its beginning or with a block that is done. -/
  | lock

/-- One step. -/
def step [DecidableEq P] (addr : B → UInt32) (s : Disk P B) : Action P B → Option (Disk P B)
  | .call p t =>
    if s.task p = none then
      some { s with task := Function.update s.task p (some t), lk := s.lk.enter (.client p) }
    else none
  | .run =>
    match s.lk.holder with
    | none => none
    | some (.client p) => s.runClient addr p
    | some .disk =>
      match s.pc with
      | .looping => s.loop
      | .finishing _ => s.complete.loop
      | _ => none
  | .lock =>
    match s.pc with
    | .starting => some { s with pc := .looping, lk := s.lk.enter .disk }
    | .working b => some { s with pc := .finishing b, lk := s.lk.enter .disk }
    | _ => none

/-! ### Sorted lists -/

section Sorted

variable {addr : B → UInt32} {b : B} {l : List B}

/-- The list is sorted by address. -/
def Sorted (addr : B → UInt32) (l : List B) : Prop := l.Pairwise fun a b => addr a ≤ addr b

theorem insert_perm (b : B) (l : List B) : (Disk.insert addr b l).Perm (b :: l) :=
  perm_orderedInsert _ b l

theorem Sorted.insert (h : Sorted addr l) (b : B) : Sorted addr (Disk.insert addr b l) := by
  induction l with
  | nil => exact pairwise_singleton _ b
  | cons c l ih =>
    obtain ⟨hc, hl⟩ := pairwise_cons.1 h
    rw [Disk.insert, orderedInsert]
    split
    next hlt =>
      refine pairwise_cons.2 ⟨fun d hd => ?_, h⟩
      rcases mem_cons.1 hd with rfl | hd
      · exact UInt32.le_of_lt hlt
      · exact UInt32.le_trans (UInt32.le_of_lt hlt) (hc d hd)
    next hge =>
      refine pairwise_cons.2 ⟨fun d hd => ?_, ih hl⟩
      rcases mem_cons.1 ((insert_perm b l).mem_iff.1 hd) with rfl | hd
      · exact UInt32.not_lt.1 hge
      · exact hc d hd

end Sorted

/-! ### What every step keeps -/

/-- The parts of the invariant that do not depend on where `diskThread` is. -/
structure Base (addr : B → UInt32) (s : Disk P B) : Prop where
  distinct : s.lk.Distinct
  client : ∀ p, s.lk.Has (.client p) ↔ s.task p ≠ none
  flow : ∀ q ∈ s.lk.waiting .flow, ∃ p b, q = .client p ∧ s.task p = some (.queue b)
  /-- Only `diskThread` sleeps at `starve`, while there is nothing to do. -/
  starve : ∀ q ∈ s.lk.waiting .starve, q = .disk ∧ s.nqueue = 0
  bound : s.nqueue ≤ queueSize
  cur : Sorted addr s.cur
  next : Sorted addr s.next
  perm : s.queued.Perm (s.taken ++ (s.cur ++ s.next))

/-- **The invariant.** Who sleeps because the queue is full sleeps while it is, or a process that
has been woken has the lock and is about to fill it. -/
structure Inv (addr : B → UInt32) (s : Disk P B) : Prop extends Base addr s where
  disk : s.lk.Has .disk ↔ s.pc.inside
  count : s.nqueue = s.cur.length + s.next.length + s.pc.busy
  wake : s.lk.waiting .flow ≠ [] → s.nqueue = queueSize ∨
    s.nqueue + 1 = queueSize ∧ ∃ p b, s.lk.holder = some (.client p) ∧ s.task p = some (.queue b)

/-- The same at the top of the loop of `diskThread`, where the process that has been woken is the
first one to have the lock. -/
structure Top (addr : B → UInt32) (s : Disk P B) : Prop extends Base addr s where
  holder : s.lk.holder = some .disk
  count : s.nqueue = s.cur.length + s.next.length
  wake : s.lk.waiting .flow ≠ [] → s.nqueue = queueSize ∨
    s.nqueue + 1 = queueSize ∧
      ∃ p b, s.lk.queue.head? = some (.client p) ∧ s.task p = some (.queue b)

variable {addr : B → UInt32} {s t : Disk P B} {p : P} {b : B} {r : Rendez}

theorem inv_start : Inv addr (start : Disk P B) where
  distinct := Monitor.distinct_empty
  client p := ⟨fun h => absurd h (Monitor.not_has_empty _), fun h => absurd rfl h⟩
  flow q h := by cases h
  starve q h := by cases h
  bound := Nat.zero_le _
  cur := List.Pairwise.nil
  next := List.Pairwise.nil
  perm := List.Perm.refl _
  disk := ⟨fun h => absurd h (Monitor.not_has_empty _), False.elim⟩
  count := rfl
  wake h := absurd rfl h

/-- Who has the lock has a task. -/
theorem Base.task_of_holder (h : Base addr s) (hp : s.lk.holder = some (.client p)) :
    s.task p ≠ none := (h.client p).1 (Or.inl hp)

/-- **Going to sleep**, with the queue full or elsewhere than at `flow`. -/
theorem inv_sleep (h : Inv addr s) (hp : s.lk.holder = some (.client p)) (hstarve : r ≠ .starve)
    (hr : r = .flow → s.nqueue = queueSize ∧ ∃ b, s.task p = some (.queue b))
    (hflush : r ≠ .flow → s.task p = some .flush) :
    Inv addr (s.sleep (.client p) r) := by
  have hflow : ∀ q, q ∈ (s.lk.wait (.client p) r).waiting .flow →
      q ∈ s.lk.waiting .flow ∨ r = .flow ∧ q = .client p := by
    intro q hq
    rcases Monitor.mem_waiting_wait.1 hq with hq | ⟨hr, hq⟩
    · exact Or.inl hq
    · exact Or.inr ⟨hr.symm, hq⟩
  refine { h with
    distinct := h.distinct.wait hp
    client := fun q => ?_
    flow := fun q hq => ?_
    starve := fun q hq => ?_
    disk := ?_
    wake := fun hne => ?_ }
  · rw [Disk.sleep, Monitor.has_wait h.distinct hp]
    exact h.client q
  · rcases hflow q hq with hq | ⟨hr', rfl⟩
    · exact h.flow q hq
    · obtain ⟨b, hb⟩ := (hr hr').2
      exact ⟨p, b, rfl, hb⟩
  · rcases Monitor.mem_waiting_wait.1 hq with hq | ⟨heq, -⟩
    · exact h.starve q hq
    · exact absurd heq.symm hstarve
  · rw [Disk.sleep, Monitor.has_wait h.distinct hp]
    exact h.disk
  · obtain ⟨q, hq⟩ := exists_mem_of_ne_nil _ hne
    rcases hflow q hq with hq | ⟨hr', -⟩
    · rcases h.wake (ne_nil_of_mem hq) with hfull | ⟨hlast, c, b', hc, htask⟩
      · exact Or.inl hfull
      · -- the process that is to fill the queue would be this one
        rw [hp] at hc
        obtain rfl := Proc.client.inj (some.inj hc)
        by_cases hr' : r = .flow
        · exact Or.inl (hr hr').1
        · rw [hflush hr'] at htask
          cases htask
    · exact Or.inl (hr hr').1

/-- One of the two lists gets the block. -/
theorem lists_enqueue (addr : B → UInt32) (s : Disk P B) (b : B) :
    (s.enqueue addr b).cur = Disk.insert addr b s.cur ∧ (s.enqueue addr b).next = s.next ∨
      (s.enqueue addr b).cur = s.cur ∧ (s.enqueue addr b).next = Disk.insert addr b s.next := by
  by_cases hon : s.onCur addr b
  · exact Or.inl ⟨if_pos hon, if_pos hon⟩
  · exact Or.inr ⟨if_neg hon, if_neg hon⟩

/-- What the wakeup in `diskQueue` does with the lock. -/
theorem lk_enqueue (h : Inv addr s) (hp : s.lk.holder = some (.client p)) (b : B) :
    (s.enqueue addr b).lk.holder = some (.client p) ∧ (s.enqueue addr b).lk.Distinct ∧
      (∀ q, (s.enqueue addr b).lk.Has q ↔ s.lk.Has q) ∧
      (∀ q, q ∈ (s.enqueue addr b).lk.waiting .flow → q ∈ s.lk.waiting .flow) ∧
      (s.enqueue addr b).lk.waiting .starve = [] := by
  by_cases hzero : s.nqueue = 0
  · rw [show (s.enqueue addr b).lk = s.lk.signal .starve from if_pos hzero]
    exact ⟨Monitor.holder_signal.trans hp, h.distinct.signal hp, fun q => Monitor.has_signal,
      fun q => Monitor.mem_waiting_of_signal,
      h.distinct.waiting_signal fun q hq => (h.starve q hq).1⟩
  · rw [show (s.enqueue addr b).lk = s.lk from if_neg hzero]
    exact ⟨hp, h.distinct, fun q => Iff.rfl, fun q hq => hq,
      eq_nil_iff_forall_not_mem.2 fun q hq => hzero (h.starve q hq).2⟩

/-- Who still sleeps at `flow` after that, sleeps because the queue is full. -/
theorem full_enqueue (h : Inv addr s) (hp : s.lk.holder = some (.client p))
    (hlt : s.nqueue < queueSize) (b : B) (hne : (s.enqueue addr b).lk.waiting .flow ≠ []) :
    (s.enqueue addr b).nqueue = queueSize := by
  obtain ⟨q, hq⟩ := exists_mem_of_ne_nil _ hne
  rcases h.wake (ne_nil_of_mem ((lk_enqueue h hp b).2.2.2.1 q hq)) with hfull | ⟨hlast, -⟩
  · omega
  · exact hlast

/-- **A block is put on the queue** that is not full. -/
theorem inv_enqueue (h : Inv addr s) (hp : s.lk.holder = some (.client p))
    (hlt : s.nqueue < queueSize) : Inv addr (s.enqueue addr b) := by
  obtain ⟨-, hdistinct, hhas, hflow, hstarve⟩ := lk_enqueue h hp b
  refine {
    distinct := hdistinct
    client := fun q => (hhas _).trans (h.client q)
    flow := fun q hq => h.flow q (hflow q hq)
    starve := fun q hq => absurd hq (hstarve ▸ not_mem_nil)
    bound := hlt
    cur := ?_
    next := ?_
    perm := ?_
    disk := (hhas _).trans h.disk
    count := ?_
    wake := fun hne => Or.inl (full_enqueue h hp hlt b hne) }
  · rcases lists_enqueue addr s b with ⟨hcur, -⟩ | ⟨hcur, -⟩
    · rw [hcur]
      exact h.cur.insert b
    · rw [hcur]
      exact h.cur
  · rcases lists_enqueue addr s b with ⟨-, hnext⟩ | ⟨-, hnext⟩
    · rw [hnext]
      exact h.next
    · rw [hnext]
      exact h.next.insert b
  · have hput : ((s.enqueue addr b).cur ++ (s.enqueue addr b).next).Perm
        (b :: (s.cur ++ s.next)) := by
      rcases lists_enqueue addr s b with ⟨hcur, hnext⟩ | ⟨hcur, hnext⟩
      · rw [hcur, hnext]
        exact (insert_perm b s.cur).append_right s.next
      · rw [hcur, hnext]
        exact ((insert_perm b s.next).append_left s.cur).trans perm_middle
    refine (h.perm.cons b).trans (Perm.trans ?_ (hput.symm.append_left s.taken))
    exact perm_middle.symm
  · have hlen : (s.enqueue addr b).cur.length + (s.enqueue addr b).next.length =
        s.cur.length + s.next.length + 1 := by
      rcases lists_enqueue addr s b with ⟨hcur, hnext⟩ | ⟨hcur, hnext⟩
      · rw [hcur, hnext, (insert_perm b s.cur).length_eq, length_cons]
        omega
      · rw [hcur, hnext, (insert_perm b s.next).length_eq, length_cons]
        omega
    have hcount := h.count
    have hpc : (s.enqueue addr b).pc = s.pc := rfl
    have hn : (s.enqueue addr b).nqueue = s.nqueue + 1 := rfl
    rw [hpc, hn, hlen]
    omega

/-- With the lock at `diskThread`, nobody sleeps at `flow` unless the queue is full. -/
theorem Inv.full_of_disk (h : Inv addr s) (hd : s.lk.holder = some .disk)
    (hne : s.lk.waiting .flow ≠ []) : s.nqueue = queueSize := by
  rcases h.wake hne with hfull | ⟨-, p, b, hp, -⟩
  · exact hfull
  · rw [hd] at hp
    cases hp

/-- `diskThread` at the top of its loop. -/
theorem Inv.top (h : Inv addr s) (hd : s.lk.holder = some .disk) (hpc : s.pc = .looping) :
    Top addr s where
  toBase := h.toBase
  holder := hd
  count := by
    have hcount := h.count
    rw [hpc] at hcount
    exact hcount
  wake hne := Or.inl (h.full_of_disk hd hne)

/-- `diskThread` counts a block as done. Who is woken is the first in the queue of the lock. -/
theorem Inv.complete (h : Inv addr s) (hd : s.lk.holder = some .disk) (hpc : s.pc = .finishing b) :
    Top addr s.complete := by
  have hcount : s.nqueue = s.cur.length + s.next.length + 1 := by
    have hcount := h.count
    rw [hpc] at hcount
    exact hcount
  have hbound := h.bound
  -- the two wakeups, one after the other
  let lk := if s.nqueue - 1 = queueSize - 1 then s.lk.signal .flow else s.lk
  have hlk : lk.holder = some .disk ∧ lk.Distinct ∧ (∀ q, lk.Has q ↔ s.lk.Has q) ∧
      (∀ r q, q ∈ lk.waiting r → q ∈ s.lk.waiting r) := by
    by_cases hlast : s.nqueue - 1 = queueSize - 1
    · rw [show lk = s.lk.signal .flow from if_pos hlast]
      exact ⟨Monitor.holder_signal.trans hd, h.distinct.signal hd, fun q => Monitor.has_signal,
        fun r q => Monitor.mem_waiting_of_signal⟩
    · rw [show lk = s.lk from if_neg hlast]
      exact ⟨hd, h.distinct, fun q => Iff.rfl, fun r q hq => hq⟩
  obtain ⟨hholder, hdistinct, hhas, hflow⟩ := hlk
  have hlk' : s.complete.lk.holder = some .disk ∧ s.complete.lk.Distinct ∧
      (∀ q, s.complete.lk.Has q ↔ s.lk.Has q) ∧
      (∀ r q, q ∈ s.complete.lk.waiting r → q ∈ s.lk.waiting r) := by
    by_cases hzero : s.nqueue - 1 = 0
    · rw [show s.complete.lk = lk.signal .flush from if_pos hzero]
      exact ⟨Monitor.holder_signal.trans hholder, hdistinct.signal hholder,
        fun q => Monitor.has_signal.trans (hhas q),
        fun r q hq => hflow r q (Monitor.mem_waiting_of_signal hq)⟩
    · rw [show s.complete.lk = lk from if_neg hzero]
      exact ⟨hholder, hdistinct, hhas, hflow⟩
  obtain ⟨hholder', hdistinct', hhas', hflow'⟩ := hlk'
  refine { h with
    distinct := hdistinct'
    client := fun q => (hhas' _).trans (h.client q)
    flow := fun q hq => h.flow q (hflow' .flow q hq)
    starve := fun q hq => ?_
    bound := (Nat.sub_le _ _).trans h.bound
    holder := hholder'
    count := ?_
    wake := fun hne => ?_ }
  · have hq' := hflow' .starve q hq
    rw [(h.starve q hq').1] at hq'
    exact absurd hq' (h.distinct.holder_waiting _ _ hd)
  · have hn : s.complete.nqueue = s.nqueue - 1 := rfl
    have hcur : s.complete.cur = s.cur := rfl
    have hnext : s.complete.next = s.next := rfl
    rw [hn, hcur, hnext]
    omega
  · obtain ⟨q, hq⟩ := exists_mem_of_ne_nil _ hne
    have hfull := h.full_of_disk hd (ne_nil_of_mem (hflow' .flow q hq))
    have hlast : s.nqueue - 1 = queueSize - 1 := by rw [hfull]
    have hzero : s.nqueue - 1 ≠ 0 := by
      rw [hfull]
      decide
    have hnow : s.complete.lk = s.lk.signal .flow := (if_neg hzero).trans (if_pos hlast)
    refine Or.inr ⟨?_, ?_⟩
    · have hn : s.complete.nqueue = s.nqueue - 1 := rfl
      omega
    · obtain ⟨c, cs, hc⟩ := exists_cons_of_ne_nil (ne_nil_of_mem (hflow' .flow q hq))
      obtain ⟨p, b, rfl, htask⟩ := h.flow c (hc ▸ mem_cons_self)
      refine ⟨p, b, ?_, htask⟩
      rw [hnow, Monitor.signal, hc]
      rfl

/-- **The disk goes to sleep**: the queue is empty. -/
theorem Top.sleep (h : Top addr s) (hzero : s.nqueue = 0) :
    Inv addr { s.sleep .disk .starve with pc := .looping } := by
  have hflow : ∀ q, q ∈ (s.lk.wait .disk .starve).waiting .flow → q ∈ s.lk.waiting .flow := by
    intro q hq
    rcases Monitor.mem_waiting_wait.1 hq with hq | ⟨hr, -⟩
    · exact hq
    · cases hr
  exact { h with
    distinct := h.distinct.wait h.holder
    client := fun q => (Monitor.has_wait h.distinct h.holder).trans (h.client q)
    flow := fun q hq => h.flow q (hflow q hq)
    starve := fun q hq => by
      rcases Monitor.mem_waiting_wait.1 hq with hq | ⟨-, hq⟩
      · exact h.starve q hq
      · exact ⟨hq, hzero⟩
    disk := ⟨fun _ => trivial, fun _ => (Monitor.has_wait h.distinct h.holder).2 (Or.inl h.holder)⟩
    wake := fun hne => by
      obtain ⟨q, hq⟩ := exists_mem_of_ne_nil _ hne
      rcases h.wake (ne_nil_of_mem (hflow q hq)) with hfull | ⟨hlast, -⟩
      · rw [hzero] at hfull
        cases hfull
      · rw [hzero] at hlast
        cases hlast }

/-- What `take` does: its assertion does not fail, and the block is one of the queue. -/
theorem Top.exists_take (h : Top addr s) (hpos : s.nqueue ≠ 0) :
    ∃ b cur next, s.take = some { s with
        lk := s.lk.leave, cur := cur, next := next, pc := .working b, taken := b :: s.taken } ∧
      (s.cur = b :: cur ∧ s.next = next ∨ s.cur = [] ∧ s.next = b :: cur ∧ next = []) := by
  have hcount := h.count
  cases hcur : s.cur with
  | cons b cur =>
    refine ⟨b, cur, s.next, ?_, Or.inl ⟨rfl, rfl⟩⟩
    simp only [Disk.take, hcur, isEmpty_cons, Bool.false_eq_true, if_false]
  | nil =>
    cases hnext : s.next with
    | cons b cur =>
      refine ⟨b, cur, [], ?_, Or.inr ⟨rfl, rfl, rfl⟩⟩
      simp only [Disk.take, hcur, hnext, isEmpty_nil, if_true]
    | nil =>
      rw [hcur, hnext] at hcount
      exact absurd hcount hpos

/-- **The disk takes a block.** -/
theorem Top.take (h : Top addr s) (hpos : s.nqueue ≠ 0) :
    ∃ b t, s.take = some t ∧ Inv addr t ∧ t.taken = b :: s.taken := by
  obtain ⟨b, cur, next, htake, hlists⟩ := h.exists_take hpos
  refine ⟨b, _, htake, ?_, rfl⟩
  have hsorted : Sorted addr cur ∧ Sorted addr next := by
    have hc := h.cur
    have hn := h.next
    rcases hlists with ⟨hcur, hnext⟩ | ⟨hcur, hnext, rfl⟩
    · rw [hcur] at hc
      rw [hnext] at hn
      exact ⟨(pairwise_cons.1 hc).2, hn⟩
    · rw [hnext] at hn
      exact ⟨(pairwise_cons.1 hn).2, List.Pairwise.nil⟩
  have hall : s.cur ++ s.next = b :: (cur ++ next) := by
    rcases hlists with ⟨hcur, hnext⟩ | ⟨hcur, hnext, rfl⟩
    · rw [hcur, hnext, cons_append]
    · rw [hcur, hnext, nil_append, append_nil]
  exact { h with
    distinct := h.distinct.leave
    client := fun q => by
      rw [Monitor.has_leave h.distinct h.holder, h.client q]
      exact ⟨fun hq => hq.1, fun hq => ⟨hq, fun heq => by cases heq⟩⟩
    cur := hsorted.1
    next := hsorted.2
    perm := by
      have hperm := h.perm
      rw [hall] at hperm
      exact hperm.trans perm_middle
    disk := ⟨fun hd => ((Monitor.has_leave h.distinct h.holder).1 hd).2 rfl, False.elim⟩
    count := by
      have hcount := h.count
      have hlen := congrArg List.length hall
      rw [length_append, length_cons, length_append] at hlen
      have hbusy : (DiskPc.working b).busy = 1 := rfl
      simp only [hbusy]
      omega
    wake := h.wake }

/-- **The top of the loop of `diskThread`.** -/
theorem Top.loop (h : Top addr s) : ∃ t, s.loop = some t ∧ Inv addr t ∧
    (t.nqueue = 0 ∨ ∃ b, t.taken = b :: s.taken) := by
  rw [Disk.loop]
  by_cases hzero : s.nqueue = 0
  · rw [if_pos hzero]
    exact ⟨_, rfl, h.sleep hzero, Or.inl hzero⟩
  · rw [if_neg hzero]
    obtain ⟨b, t, ht, hinv, htaken⟩ := h.take hzero
    exact ⟨t, ht, hinv, Or.inr ⟨b, htaken⟩⟩

/-- **`diskThread` wants the lock.** -/
theorem inv_lock {pc : DiskPc B} (h : Inv addr s) (hout : ¬s.pc.inside) (hin : pc.inside)
    (hbusy : pc.busy = s.pc.busy) :
    Inv addr { s with pc := pc, lk := s.lk.enter .disk } where
  distinct := h.distinct.enter fun hd => hout (h.disk.1 hd)
  client q := by
    rw [← h.client q]
    refine Monitor.has_enter.trans ⟨?_, Or.inr⟩
    rintro (heq | hq)
    · cases heq
    · exact hq
  flow q hq := by
    rw [Monitor.waiting_enter] at hq
    exact h.flow q hq
  starve q hq := by
    rw [Monitor.waiting_enter] at hq
    exact h.starve q hq
  bound := h.bound
  cur := h.cur
  next := h.next
  perm := h.perm
  disk := ⟨fun _ => hin, fun _ => Monitor.has_enter.2 (Or.inl rfl)⟩
  count := by
    have hcount := h.count
    rw [← hbusy] at hcount
    exact hcount
  wake hne := by
    rw [Monitor.waiting_enter] at hne
    rcases h.wake hne with hfull | ⟨hlast, c, b, hc, htask⟩
    · exact Or.inl hfull
    · refine Or.inr ⟨hlast, c, b, ?_, htask⟩
      rw [Monitor.enter_of_holder hc, hc]

variable [DecidableEq P]

/-- **A call.** -/
theorem inv_call {u : Task B} (h : Inv addr s) (hnone : s.task p = none) : Inv addr { s with
      task := Function.update s.task p (some u), lk := s.lk.enter (.client p) } := by
  have hout : ¬s.lk.Has (.client p) := fun hin => (h.client p).1 hin hnone
  have hkeep : ∀ {q u'}, s.task q = some u' → Function.update s.task p (some u) q = some u' := by
    intro q u' hq
    rw [Function.update_of_ne, hq]
    rintro rfl
    rw [hnone] at hq
    cases hq
  refine { h with
    distinct := h.distinct.enter hout
    client := fun q => ?_
    flow := fun q hq => ?_
    starve := fun q hq => ?_
    disk := ?_
    wake := fun hne => ?_ }
  · rw [Monitor.has_enter]
    rcases eq_or_ne q p with rfl | hne
    · simp only [Function.update_self]
      exact ⟨fun _ => (by simp), fun _ => Or.inl trivial⟩
    · have hold : Function.update s.task p (some u) q = s.task q := Function.update_of_ne hne _ _
      simp only [hold, ← h.client q]
      constructor
      · rintro (heq | hq)
        · exact absurd (Proc.client.inj heq) hne
        · exact hq
      · exact Or.inr
  · rw [Monitor.waiting_enter] at hq
    obtain ⟨c, b, rfl, hc⟩ := h.flow q hq
    exact ⟨c, b, rfl, hkeep hc⟩
  · rw [Monitor.waiting_enter] at hq
    exact h.starve q hq
  · rw [Monitor.has_enter, h.disk]
    constructor
    · rintro (heq | hd)
      · cases heq
      · exact hd
    · exact Or.inr
  · rw [Monitor.waiting_enter] at hne
    rcases h.wake hne with hfull | ⟨hlast, c, b, hc, htask⟩
    · exact Or.inl hfull
    · refine Or.inr ⟨hlast, c, b, ?_, hkeep htask⟩
      rw [Monitor.enter_of_holder hc, hc]

/-- **Returning.** -/
theorem inv_finish (h : Inv addr s) (hp : s.lk.holder = some (.client p))
    (hwake : s.lk.waiting .flow ≠ [] → s.nqueue = queueSize) : Inv addr (s.finish p) := by
  have hflow : ∀ q, q ∈ s.lk.waiting .flow → q ≠ .client p := by
    rintro q hq rfl
    exact h.distinct.holder_waiting _ _ hp hq
  refine { h with
    distinct := h.distinct.leave
    client := fun q => ?_
    flow := fun q hq => ?_
    disk := ?_
    wake := fun hne => Or.inl (hwake hne) }
  · rw [Disk.finish, Monitor.has_leave h.distinct hp, h.client q]
    rcases eq_or_ne q p with rfl | hne
    · simp
    · have hold : Function.update s.task p none q = s.task q := Function.update_of_ne hne _ _
      simp only [hold]
      exact ⟨fun hq => hq.1, fun hq => ⟨hq, fun heq => hne (Proc.client.inj heq)⟩⟩
  · obtain ⟨c, b, rfl, hc⟩ := h.flow q hq
    refine ⟨c, b, rfl, ?_⟩
    have hne : c ≠ p := by
      rintro rfl
      exact hflow _ hq rfl
    simp only [Disk.finish, Function.update_of_ne hne]
    exact hc
  · rw [Disk.finish, Monitor.has_leave h.distinct hp, h.disk]
    exact ⟨fun hd => hd.1, fun hd => ⟨hd, fun heq => by cases heq⟩⟩

/-- **A process has the lock**, and goes on. -/
theorem inv_runClient (h : Inv addr s) (hp : s.lk.holder = some (.client p)) :
    ∃ t, s.runClient addr p = some t ∧ Inv addr t := by
  obtain ⟨u, hu⟩ := ne_none_iff_exists'.1 (h.task_of_holder hp)
  rw [Disk.runClient, hu, map_some]
  refine ⟨_, rfl, ?_⟩
  cases u with
  | queue b =>
    by_cases hfull : queueSize ≤ s.nqueue
    · simp only [if_pos hfull]
      exact inv_sleep h hp (by simp) (fun _ => ⟨Nat.le_antisymm h.bound hfull, b, hu⟩)
        (fun hno => absurd rfl hno)
    · simp only [if_neg hfull]
      have hlt := Nat.not_le.1 hfull
      exact inv_finish (inv_enqueue h hp hlt) (lk_enqueue h hp b).1 (full_enqueue h hp hlt b)
  | flush =>
    by_cases hpos : 0 < s.nqueue
    · simp only [if_pos hpos]
      exact inv_sleep h hp (by simp) (fun hno => by cases hno) (fun _ => hu)
    · simp only [if_neg hpos]
      refine inv_finish h hp fun hne => ?_
      rcases h.wake hne with hfull | ⟨hlast, -⟩
      · exact hfull
      · rw [queueSize] at hlast
        omega

/-- **`diskThread` has the lock**, and goes on. -/
theorem inv_runDisk (h : Inv addr s) (hd : s.lk.holder = some .disk) :
    ∃ t, step addr s .run = some t ∧ Inv addr t ∧
      (t.nqueue = 0 ∨ ∃ b, t.taken = b :: s.taken) := by
  have hin : s.pc.inside := h.disk.1 (Or.inl hd)
  cases hpc : s.pc with
  | looping =>
    simp only [step, hd, hpc]
    exact (h.top hd hpc).loop
  | finishing b =>
    simp only [step, hd, hpc]
    exact (h.complete hd hpc).loop
  | starting =>
    rw [hpc] at hin
    exact hin.elim
  | working b =>
    rw [hpc] at hin
    exact hin.elim

/-- **Every step keeps the invariant.** -/
theorem inv_step {a : Action P B} (h : Inv addr s) (hstep : step addr s a = some t) :
    Inv addr t := by
  cases a with
  | call p u =>
    rw [step] at hstep
    split at hstep
    next hnone =>
      cases hstep
      exact inv_call h hnone
    next => cases hstep
  | run =>
    cases hholder : s.lk.holder with
    | none =>
      rw [step, hholder] at hstep
      cases hstep
    | some q =>
      cases q with
      | client p =>
        obtain ⟨t', ht', hinv⟩ := inv_runClient h hholder
        rw [step, hholder] at hstep
        obtain rfl := some.inj (hstep.symm.trans ht')
        exact hinv
      | disk =>
        obtain ⟨t', ht', hinv, -⟩ := inv_runDisk h hholder
        obtain rfl := some.inj (hstep.symm.trans ht')
        exact hinv
  | lock =>
    rw [step] at hstep
    split at hstep
    next hpc =>
      cases hstep
      exact inv_lock h (by rw [hpc]; exact id) trivial (by rw [hpc]; rfl)
    next b hpc =>
      cases hstep
      exact inv_lock h (by rw [hpc]; exact id) trivial (by rw [hpc]; rfl)
    next => cases hstep

/-- The runs. -/
def Reaches (addr : B → UInt32) (l : List (Action P B)) (s : Disk P B) : Prop :=
  Run (fun s a t => step addr s a = some t) start l s

/-- **In every run.** -/
theorem Reaches.inv {l : List (Action P B)} (h : Reaches addr l s) : Inv addr s :=
  Run.inv (fun _ _ _ hs hst => inv_step hs hst) h inv_start

/-- The step of the process that is to fill the queue. -/
theorem full_of_run (hp : s.lk.holder = some (.client p))
    (hb : s.task p = some (.queue b)) (hlast : s.nqueue + 1 = queueSize)
    (hstep : step addr s .run = some t) : t.nqueue = queueSize := by
  have hnot : ¬queueSize ≤ s.nqueue := by omega
  simp only [step, hp, Disk.runClient, hb, map_some, if_neg hnot] at hstep
  cases hstep
  exact hlast

/-- **The disk queue loses no block, and only one wakeup at a time is under way.** In every run
`nqueue` counts the blocks of the two lists and the one that is worked on, the lists are sorted, and
the blocks that were queued are those taken and those on the lists. When `diskThread` has the lock
its assertion holds, and it takes one block unless none is left; it does not sleep while there are
blocks. Who sleeps at `flow` while the queue is not full waits for another process: that has the
lock, there is room for its block alone, and its step fills the queue. -/
theorem run_sound {l : List (Action P B)} (h : Reaches addr l s) :
    s.nqueue = s.cur.length + s.next.length + s.pc.busy ∧
      Sorted addr s.cur ∧ Sorted addr s.next ∧
      s.queued.Perm (s.taken ++ (s.cur ++ s.next)) ∧
      (s.lk.holder = some .disk →
        ∃ t, step addr s .run = some t ∧ (t.nqueue = 0 ∨ ∃ b, t.taken = b :: s.taken)) ∧
      (.disk ∈ s.lk.waiting .starve → s.nqueue = 0) ∧
      ∀ q ∈ s.lk.waiting .flow, s.nqueue < queueSize →
        s.nqueue + 1 = queueSize ∧ ∃ p b, s.lk.holder = some (.client p) ∧ .client p ≠ q ∧
          s.task p = some (.queue b) ∧ ∀ t, step addr s .run = some t → t.nqueue = queueSize := by
  have hinv := h.inv
  refine ⟨hinv.count, hinv.cur, hinv.next, hinv.perm, fun hd => ?_,
    fun hd => (hinv.starve _ hd).2, fun q hq hlt => ?_⟩
  · obtain ⟨t, ht, -, htaken⟩ := inv_runDisk hinv hd
    exact ⟨t, ht, htaken⟩
  · rcases hinv.wake (List.ne_nil_of_mem hq) with hfull | ⟨hlast, p, b, hp, hb⟩
    · exact absurd hfull hlt.ne
    · refine ⟨hlast, p, b, hp, ?_, hb, fun t => full_of_run hp hb hlast⟩
      rintro rfl
      exact hinv.distinct.holder_waiting _ _ hp hq

/-- `diskThread` works on a block, the queue is full, and two more processes go to sleep; then the
block is done. -/
def twoSleepers : List (Action ℕ UInt32) :=
  [.lock, .run, .call 0 (.queue 0), .run, .run] ++
    (List.range 99).flatMap (fun i => [.call 0 (.queue (.ofNat (i + 1))), .run]) ++
    [.call 1 (.queue 100), .run, .call 2 (.queue 101), .run, .lock, .run]

set_option maxRecDepth 10000 in
theorem exists_twoSleepers : ∃ s, Reaches id twoSleepers s ∧ s.nqueue = 99 ∧
    s.lk.waiting .flow = [.client 2] := by
  have heval : (twoSleepers.foldlM (step id) start).map
      (fun s => (s.nqueue, s.lk.waiting .flow)) = some (99, [.client 2]) := by decide
  obtain ⟨s, hs, heq⟩ := map_eq_some_iff.1 heval
  obtain ⟨hn, hw⟩ := Prod.mk.inj heq
  exact ⟨s, Run.of_foldlM (fun _ _ _ _ ht => ht) hs, hn, hw⟩

/-- The second one sleeps on, although there is room on the queue. -/
theorem asleep_with_room : ∃ s, Reaches id twoSleepers s ∧
    s.nqueue < queueSize ∧ .client 2 ∈ s.lk.waiting .flow := by
  obtain ⟨s, hrun, hn, hw⟩ := exists_twoSleepers
  refine ⟨s, hrun, ?_, ?_⟩
  · rw [hn]
    decide
  · rw [hw]
    exact List.mem_singleton.2 rfl

/-- It waits for the first one, which has the lock. -/
theorem run_sound_twoSleepers : ∃ s, Reaches id twoSleepers s ∧ s.nqueue + 1 = queueSize ∧
    ∃ p b, s.lk.holder = some (.client p) ∧ s.task p = some (.queue b) := by
  obtain ⟨s, hrun, hn, hw⟩ := exists_twoSleepers
  obtain ⟨hlast, p, b, hp, -, hb, -⟩ := (run_sound hrun).2.2.2.2.2.2 (.client 2)
    (hw ▸ List.mem_singleton.2 rfl) (hn ▸ by decide)
  exact ⟨s, hrun, hlast, p, b, hp, hb⟩

end DiskQueue

end Fossil

end Plan9
