import Mathlib.Algebra.BigOperators.Group.Finset.Basic
import Mathlib.Data.Fintype.BigOperators
import Plan9.Lib.Fifo
import Plan9.Lib.Run

/-!
# Queueing locks

The locks of `qlock.c` on which a process sleeps: `QLock`, held by one process, and
`RWlock`, held by one writer or by any number of readers. A process that has to wait links
itself to the queue of the lock and calls `sched`; who gives the lock back hands it to the
first process of the queue, or to the readers in front of the first writer.

The steps below are the sections under `q->use`, and what stands between them: the call
of `sched`, which may be late, and the call of `ready` for the process that was handed the
lock. Any process can be switched off and on in between.

`sched` returns at once when the process holds spin locks. The functions do not look:
a process that was to wait then goes on as if it had the lock. When every process that
waits is switched off, the locks exclude (`Plan9.Kernel.Qlock.qlock_excludes`, in
`Plan9.Kernel.QlockRuns`).
-/

namespace Plan9

namespace Kernel

namespace Qlock

open Lib

/-- The states of a process that matter here. -/
inductive ProcState
  | ready
  | running
  | queueing
  | queueingR
  | queueingW
deriving DecidableEq

/-- What a process holds, or waits for: a `QLock`, or an `RWlock` as a reader or as the
writer. -/
inductive Hold (Q W : Type)
  | q (l : Q)
  | r (l : W)
  | w (l : W)
deriving DecidableEq

/-- The queue in which one waits. -/
def Hold.lock {Q W : Type} : Hold Q W → Q ⊕ W
  | .q l => .inl l
  | .r l => .inr l
  | .w l => .inr l

/-- The state of a process that waits. -/
def Hold.state {Q W : Type} : Hold Q W → ProcState
  | .q _ => .queueing
  | .r _ => .queueingR
  | .w _ => .queueingW

/-- Where a process is: outside of these functions; behind the section in which it was
put into the queue, before it calls `sched`; in `sched`, from which it returns when it runs
again; before the call of `ready` for a process it handed its lock to. -/
inductive Pc (P Q W : Type)
  | run
  | sched (h : Hold Q W)
  | ret (h : Hold Q W)
  | ready (p : P)
deriving DecidableEq

/-- What a process waits for. -/
def Pc.waits {P Q W : Type} : Pc P Q W → Option (Hold Q W)
  | .run => none
  | .sched h => some h
  | .ret h => some h
  | .ready _ => none

/-- The locks, each field as a function of the lock, and the processes, the same. `mach` says
that a process is on a processor, `runq` that it is in a run queue, `vital` that it holds
`palloc` or `procalloc`. `holds` is what a process has got and not given back; `asked` and
`served` are those put into a queue, and those taken out, in order. -/
structure State (P Q W : Type) where
  ends : Q ⊕ W → Ends P
  locked : Q → Bool
  readers : W → ℤ
  writer : W → Bool
  qnext : P → Option P
  state : P → ProcState
  nlocks : P → ℕ
  delaysched : P → ℕ
  vital : P → Bool
  mach : P → Bool
  runq : P → Bool
  pc : P → Pc P Q W
  holds : P → List (Hold Q W)
  asked : Q ⊕ W → List P
  served : Q ⊕ W → List P
  panicked : Bool

/-- Nobody has or wants a lock, and every process runs. -/
def State.init (P Q W : Type) : State P Q W where
  ends _ := ⟨none, none⟩
  locked _ := false
  readers _ := 0
  writer _ := false
  qnext _ := none
  state _ := .running
  nlocks _ := 0
  delaysched _ := 0
  vital _ := false
  mach _ := true
  runq _ := false
  pc _ := .run
  holds _ := []
  asked _ := []
  served _ := []
  panicked := false

section Functions

variable {P Q W : Type} [DecidableEq P] [DecidableEq Q] [DecidableEq W]

namespace State

variable (s : State P Q W)

/-- A function returns to a caller that has the lock now. -/
def take (p : P) (h : Hold Q W) : State P Q W :=
  { s with holds := Function.update s.holds p (h :: s.holds p) }

/-- A caller gives its lock back. -/
def drop (p : P) (h : Hold Q W) : State P Q W :=
  { s with holds := Function.update s.holds p ((s.holds p).erase h) }

/-- The number of readers changes. -/
def count (l : W) (n : ℤ) : State P Q W :=
  { s with readers := Function.update s.readers l (s.readers l + n) }

/-- A process goes on elsewhere. -/
def goto (p : P) (c : Pc P Q W) : State P Q W := { s with pc := Function.update s.pc p c }

/-- The caller is put behind the last process of the queue. -/
def enqueue (p : P) (h : Hold Q W) : State P Q W :=
  let q := s.ends h.lock
  let qnext := q.tail.elim s.qnext fun t => Function.update s.qnext t (some p)
  { s with
    ends := Function.update s.ends h.lock ⟨q.tail.elim (some p) fun _ => q.head, some p⟩
    qnext := Function.update qnext p none
    state := Function.update s.state p h.state
    pc := Function.update s.pc p (.sched h)
    asked := Function.update s.asked h.lock (s.asked h.lock ++ [p]) }

/-- `q->head = p->qnext` -/
def unlink (k : Q ⊕ W) (p : P) : State P Q W :=
  { s with
    ends := Function.update s.ends k { s.ends k with head := s.qnext p }
    served := Function.update s.served k (s.served k ++ [p]) }

/-- `if(q->head == 0) q->tail = 0` -/
def trim (k : Q ⊕ W) : State P Q W :=
  if (s.ends k).head = none then { s with ends := Function.update s.ends k ⟨none, none⟩ } else s

/-- `ready`. -/
def ready (p : P) : State P Q W :=
  { s with state := Function.update s.state p .ready, runq := Function.update s.runq p true }

/-- The lock goes to the first process of its queue, for which the caller is to call
`ready`. -/
def handOver (k : Q ⊕ W) (p p' : P) : State P Q W :=
  ((s.unlink k p').trim k).goto p (.ready p')

/-- `qlock`. -/
def qlock (p : P) (l : Q) : State P Q W :=
  if s.locked l = false then
    { s with locked := Function.update s.locked l true }.take p (.q l)
  else s.enqueue p (.q l)

/-- `canqlock`; `can` says whether `canlock` gets the spin lock. -/
def canqlock (p : P) (l : Q) (can : Bool) : State P Q W :=
  if can = false then s
  else if s.locked l then s
  else { s with locked := Function.update s.locked l true }.take p (.q l)

/-- `qunlock`. -/
def qunlock (p : P) (l : Q) : State P Q W :=
  let s := s.drop p (.q l)
  match (s.ends (.inl l)).head with
  | some p' => s.handOver (.inl l) p p'
  | none => { s with locked := Function.update s.locked l false }

/-- `rlock`. -/
def rlock (p : P) (l : W) : State P Q W :=
  if s.writer l = false ∧ (s.ends (.inr l)).head = none then
    (s.count l 1).take p (.r l)
  else s.enqueue p (.r l)

/-- `canrlock`. -/
def canrlock (p : P) (l : W) : State P Q W :=
  if s.writer l = false ∧ (s.ends (.inr l)).head = none then
    (s.count l 1).take p (.r l)
  else s

/-- `runlock`. -/
def runlock (p : P) (l : W) : State P Q W :=
  let s := (s.drop p (.r l)).count l (-1)
  match (s.ends (.inr l)).head with
  | none => s
  | some p' =>
    if s.readers l > 0 then s
    else if s.state p' ≠ .queueingW then { s with panicked := true }
    else { s with writer := Function.update s.writer l true }.handOver (.inr l) p p'

/-- `wlock`. -/
def wlock (p : P) (l : W) : State P Q W :=
  if s.readers l = 0 ∧ s.writer l = false then
    { s with writer := Function.update s.writer l true }.take p (.w l)
  else s.enqueue p (.w l)

/-- One round of the loop of `wunlock`, for the reader in front. -/
def wakeReader (l : W) (p : P) : State P Q W := ((s.unlink (.inr l) p).count l 1).ready p

/-- The loop of `wunlock` that wakes the readers in front of the queue. -/
def wakeReaders (s : State P Q W) (l : W) : ℕ → State P Q W
  | 0 => s
  | n + 1 =>
    match (s.ends (.inr l)).head with
    | some p => if s.state p = .queueingR then wakeReaders (s.wakeReader l p) l n else s
    | none => s

/-- `wunlock`. The loop ends before it has gone round once for each of the `n` processes
there are. -/
def wunlock (n : ℕ) (p : P) (l : W) : State P Q W :=
  let s := s.drop p (.w l)
  match (s.ends (.inr l)).head with
  | none => { s with writer := Function.update s.writer l false }
  | some p' =>
    if s.state p' = .queueingW then s.handOver (.inr l) p p'
    else if s.state p' ≠ .queueingR then { s with panicked := true }
    else
      let s := (s.wakeReaders l n).trim (.inr l)
      { s with writer := Function.update s.writer l false }

/-- The test of `sched`: does it switch? -/
def Switches (p : P) : Prop :=
  s.nlocks p = 0 ∨ 20 ≤ s.delaysched p ∧ s.vital p = false

instance (p : P) : Decidable (s.Switches p) := by
  unfold Switches
  infer_instance

/-- What `sched` does to a process that it switches off: one that is `Running` can run again
at once. -/
def switchOff (p : P) : State P Q W :=
  let s := { s with
    delaysched := Function.update s.delaysched p 0
    mach := Function.update s.mach p false }
  if s.state p = .running then s.ready p else s

/-- A processor takes a process from a run queue. -/
def resume (p : P) : State P Q W :=
  { s with
    runq := Function.update s.runq p false
    state := Function.update s.state p .running
    mach := Function.update s.mach p true }

end State

/-! ### Steps -/

/-- The steps. `canqlock` may find the spin lock taken; `spin` takes or releases spin locks,
and other processes' business with the time slice. -/
inductive Act (P Q W : Type)
  | qlock (p : P) (l : Q)
  | canqlock (p : P) (l : Q) (can : Bool)
  | qunlock (p : P) (l : Q)
  | rlock (p : P) (l : W)
  | canrlock (p : P) (l : W)
  | runlock (p : P) (l : W)
  | wlock (p : P) (l : W)
  | wunlock (p : P) (l : W)
  | sched (p : P)
  | ret (p : P)
  | ready (p : P)
  | switch (p : P)
  | resume (p : P)
  | spin (p : P) (nlocks delaysched : ℕ) (vital : Bool)

namespace State

variable (s : State P Q W)

/-- The process runs, outside of these functions. -/
def Calls (p : P) : Prop := s.mach p = true ∧ s.pc p = .run

instance (p : P) : Decidable (s.Calls p) := by
  unfold Calls
  infer_instance

/-- The call of `sched` by a process that was put into a queue. -/
def sched (p : P) (h : Hold Q W) : State P Q W :=
  if s.Switches p then (s.switchOff p).goto p (.ret h)
  else ({ s with delaysched := Function.update s.delaysched p (s.delaysched p + 1) }.take p h).goto
    p .run

/-- One step. A caller gives back only what it has. -/
def step [Fintype P] (s : State P Q W) : Act P Q W → Option (State P Q W)
  | .qlock p l => if s.Calls p then some (s.qlock p l) else none
  | .canqlock p l can => if s.Calls p then some (s.canqlock p l can) else none
  | .qunlock p l => if s.Calls p ∧ .q l ∈ s.holds p then some (s.qunlock p l) else none
  | .rlock p l => if s.Calls p then some (s.rlock p l) else none
  | .canrlock p l => if s.Calls p then some (s.canrlock p l) else none
  | .runlock p l => if s.Calls p ∧ .r l ∈ s.holds p then some (s.runlock p l) else none
  | .wlock p l => if s.Calls p then some (s.wlock p l) else none
  | .wunlock p l =>
    if s.Calls p ∧ .w l ∈ s.holds p then some (s.wunlock (Fintype.card P) p l) else none
  | .sched p =>
    match s.pc p with
    | .sched h => if s.mach p then some (s.sched p h) else none
    | _ => none
  | .ret p =>
    match s.pc p with
    | .ret h => if s.mach p then some ((s.take p h).goto p .run) else none
    | _ => none
  | .ready p =>
    match s.pc p with
    | .ready p' => if s.mach p then some ((s.ready p').goto p .run) else none
    | _ => none
  | .switch p => if s.mach p ∧ s.Switches p then some (s.switchOff p) else none
  | .resume p => if s.runq p ∧ s.mach p = false then some (s.resume p) else none
  | .spin p nlocks delaysched vital => some { s with
      nlocks := Function.update s.nlocks p nlocks
      delaysched := Function.update s.delaysched p delaysched
      vital := Function.update s.vital p vital }

/-- A step that can be taken, and where it leads. -/
def Step [Fintype P] (s : State P Q W) (a : Act P Q W) (t : State P Q W) : Prop :=
  s.step a = some t

/-! ### What the locks promise -/

/-- The processes in a queue, from the first one on. -/
def queue [Fintype P] (k : Q ⊕ W) : List P :=
  walk s.qnext (Fintype.card P) (s.ends k).head

/-- What a process waits for. -/
def waits (p : P) : Option (Hold Q W) := (s.pc p).waits

/-- How often a process is inside: it has got the lock, or was handed it and has not returned
to its caller yet. -/
def inside [Fintype P] (p : P) (h : Hold Q W) : ℕ :=
  (s.holds p).count h + if s.waits p = some h ∧ p ∉ s.queue h.lock then 1 else 0

/-- How many are inside. -/
def total [Fintype P] (h : Hold Q W) : ℕ := ∑ p, s.inside p h

/-- **The locks exclude and hand over correctly.** -/
structure Excludes [Fintype P] : Prop where
  /-- at most one process has a `QLock` -/
  qlock : ∀ l, s.total (.q l) ≤ 1
  /-- at most one process is a writer, and then there are no readers -/
  writer : ∀ l, s.total (.w l) ≤ 1 ∧ (s.total (.w l) = 1 → s.total (.r l) = 0)
  /-- the readers are counted -/
  readers : ∀ l, s.readers l = s.total (.r l)
  /-- those who wait are served in the order in which they came -/
  fifo : ∀ k, s.asked k = s.served k ++ s.queue k
  /-- no process is in the queue of a lock that is free -/
  qfree : ∀ l, s.total (.q l) = 0 → (s.ends (.inl l)).head = none
  rwfree : ∀ l, s.total (.r l) = 0 → s.total (.w l) = 0 → (s.ends (.inr l)).head = none
  /-- no panic -/
  panicked : s.panicked = false

/-- A process that was put into a queue, and has not run again since, is switched off when it
calls `sched`: it holds no spin locks, or `sched` does not wait for it any longer. -/
def Sleeps : Act P Q W → Prop
  | .sched p => s.state p ≠ .running → s.Switches p
  | _ => True

end State

end Functions

end Qlock

end Kernel

end Plan9
