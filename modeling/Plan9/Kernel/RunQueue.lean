import Mathlib.Algebra.BigOperators.Group.Finset.Basic
import Mathlib.Data.Fintype.Card
import Plan9.Lib.Fifo
import Plan9.Lib.Run

/-!
# Run queues

The queues of processes that are ready to run, from `proc.c`: `queueproc` puts a process
into one, `dequeueproc` takes it out again, and `ready`, `runproc`, `rebalance` and
`releaseintr` call these. One lock guards all queues; what is done under it is one step
below. The scan of `runproc` and the choice of a priority happen outside of it, and any
processor can go on between two of its steps.

`dequeueproc` does not wait for the lock, and may find that the process has gone
(`Plan9.Kernel.RunQueue.State.dequeueproc`). What holds between any two steps is
`Plan9.Kernel.RunQueue.State.Kept`, which `Plan9.Kernel.RunQueueRuns` proves.
-/

namespace Plan9

namespace Kernel

namespace RunQueue

open Lib

/-- `Npriq`, priority levels. -/
def npriq : ℕ := 20

/-- `Nrq`, priority levels including real time. -/
def nrq : ℕ := npriq + 2

/-- `PriEdf`, active real time processes. -/
def priEdf : ℕ := npriq + 1

/-- `PriExtra`, real time processes that go on without a claim to it. -/
def priExtra : ℕ := npriq - 1

def hz : ℤ := 100
def scaling : ℤ := 2
def schedgain : ℤ := 30

/-- The states of a process. -/
inductive ProcState
  | dead
  | moribund
  | ready
  | scheding
  | running
  | queueing
  | queueingR
  | queueingW
  | wakeme
  | broken
  | stopped
  | rendezvous
  | waitrelease
deriving DecidableEq

/-- An `int`. -/
def int32 (x : ℤ) : ℤ := x.bmod (2 ^ 32)

/-- A `uint` or an `ulong`. -/
def uint32 (x : ℤ) : ℕ := (x % 2 ^ 32).toNat

/-- Who calls `dequeueproc`. `rebalance` is to put the process into queue `npri`. -/
inductive Caller
  | runproc
  | rebalance (npri : ℕ)
  | releaseintr

/-- Where a processor is: outside of these functions; before the locked section of `edfready`
or of `queueproc`; in the scan of `runproc`, for the time `i`, at the process `p` of a queue;
before `dequeueproc`; behind it, in `runproc` and in `releaseintr`. -/
inductive Pc (P : Type)
  | run
  | edfready (p : P)
  | queueproc (pri : ℕ) (p : P)
  | scan (i pri : ℕ) (p : Option P)
  | dequeueproc (c : Caller) (pri : ℕ) (p : P)
  | found (p : P)
  | released (p : P)

/-- The process that a processor has in hand, to put it into a queue or because it took it out
of one. -/
def Pc.holds {P : Type} : Pc P → Option P
  | .edfready p => some p
  | .queueproc _ p => some p
  | .found p => some p
  | .released p => some p
  | _ => none

/-- The queues, the processes and the processors, each field as a function. `d` is the deadline
of a real time process, `edf` says that it is one. -/
structure State (P M : Type) where
  ends : ℕ → Ends P
  n : ℕ → ℤ
  nrdy : ℤ
  runvec : BitVec 32
  rnext : P → Option P
  state : P → ProcState
  mach : P → Option M
  mp : P → Option M
  wired : P → Option M
  priority : P → ℕ
  basepri : P → ℕ
  cpu : P → ℕ
  lastupdate : P → ℕ
  edf : P → Bool
  d : P → ℤ
  readied : M → Option P
  up : M → Option P
  ticks : ℕ
  nonline : ℤ
  load : ℤ
  pc : M → Pc P
  panicked : Bool

/-- No process yet. -/
def State.init (P M : Type) : State P M where
  ends _ := ⟨none, none⟩
  n _ := 0
  nrdy := 0
  runvec := 0
  rnext _ := none
  state _ := .dead
  mach _ := none
  mp _ := none
  wired _ := none
  priority _ := 0
  basepri _ := 0
  cpu _ := 0
  lastupdate _ := 0
  edf _ := false
  d _ := 0
  readied _ := none
  up _ := none
  ticks := 0
  nonline := 1
  load := 0
  pc _ := .run
  panicked := false

section Functions

variable {P M : Type} [DecidableEq P] [DecidableEq M]

namespace State

variable (s : State P M)

/-- A processor goes on elsewhere. -/
def goto (m : M) (c : Pc P) : State P M := { s with pc := Function.update s.pc m c }

/-! ### Priorities -/

/-- `updatecpu`. -/
def updatecpu (m : M) (p : P) : State P M :=
  if s.edf p then s
  else
    let t := int32 (s.ticks * scaling + scaling / 2)
    let n := int32 (t - s.lastupdate p)
    let s := { s with lastupdate := Function.update s.lastupdate p (uint32 t) }
    if n = 0 then s
    else
      let D := schedgain * hz * scaling
      let n := if n > D then D else n
      let ocpu := int32 (s.cpu p)
      let cpu := if s.up m ≠ some p then (int32 (ocpu * (D - n))).tdiv D
        else
          let t := int32 (1000 - ocpu)
          int32 (1000 - (int32 (t * (D - n))).tdiv D)
      { s with cpu := Function.update s.cpu p (uint32 cpu) }

/-- `reprioritize`, or nothing if it panics. -/
def reprioritize (p : P) : Option ℕ :=
  if s.load = 0 then some (s.basepri p)
  else
    let fairshare := int32 ((int32 (s.nonline * 1000 * 1000)).tdiv s.load)
    let n := if s.cpu p = 0 then 1 else s.cpu p
    let ratio := uint32 (fairshare + n / 2) / n
    -- `p->basepri` is unsigned, and so is the comparison
    let ratio := if ratio > s.basepri p then s.basepri p else ratio
    if int32 ratio < 0 then none else some ratio

/-- `procpriority`. -/
def procpriority (p : P) (pri : ℤ) : State P M :=
  let pri := if pri ≥ npriq then npriq - 1 else pri.toNat
  { s with
    basepri := Function.update s.basepri p pri
    priority := Function.update s.priority p pri }

/-! ### Under the lock -/

/-- `queueproc`. -/
def queueproc (rq : ℕ) (p : P) : State P M :=
  let q := s.ends rq
  let rnext := Function.update s.rnext p none
  { s with
    priority := Function.update s.priority p rq
    rnext := q.tail.elim rnext fun t => Function.update rnext t (some p)
    ends := Function.update s.ends rq ⟨q.tail.elim (some p) fun _ => q.head, some p⟩
    n := Function.update s.n rq (s.n rq + 1)
    nrdy := s.nrdy + 1
    runvec := s.runvec ||| 1#32 <<< rq }

/-- The section of `edfready` in which a process is put into its queue, before the first one
with a later deadline. -/
def edfqueue [Fintype P] (p : P) : State P M :=
  let q := s.ends priEdf
  let (l, pp) := seek s.rnext (fun pp => decide (s.d pp > s.d p)) none (Fintype.card P) q.head
  let rnext := Function.update s.rnext p pp
  { s with
    rnext := l.elim rnext fun l => Function.update rnext l (some p)
    ends := Function.update s.ends priEdf
      ⟨l.elim (some p) fun _ => q.head, if pp = none then some p else q.tail⟩
    n := Function.update s.n priEdf (s.n priEdf + 1)
    nrdy := s.nrdy + 1
    runvec := s.runvec ||| 1#32 <<< priEdf
    priority := Function.update s.priority p priEdf
    state := Function.update s.state p .ready }

/-- `dequeueproc`; `can` says whether `canlock` gets the lock. -/
def dequeueproc [Fintype P] (rq : ℕ) (tp : P) (can : Bool) : State P M × Option P :=
  if can = false then (s, none)
  else
    let q := s.ends rq
    -- the queue may have changed before we locked `runq`
    match seek s.rnext (fun p => decide (p = tp)) none (Fintype.card P) q.head with
    | (_, none) => (s, none)
    | (l, some p) =>
      -- `p->mach == 0` only when process state is saved
      if (s.mach p).isSome then (s, none)
      else
        let head := l.elim (s.rnext p) fun _ => q.head
        ({ s with
            rnext := l.elim s.rnext fun l => Function.update s.rnext l (s.rnext p)
            ends := Function.update s.ends rq ⟨head, if s.rnext p = none then l else q.tail⟩
            runvec := if head = none then s.runvec &&& ~~~(1#32 <<< rq) else s.runvec
            n := Function.update s.n rq (s.n rq - 1)
            nrdy := s.nrdy - 1 }, some p)

/-! ### Around it -/

/-- `ready`, behind `edfready`, up to the call of `queueproc`. -/
def enter (m : M) (p : P) : State P M :=
  let s :=
    if s.up m ≠ some p ∧ (s.wired p = none ∨ s.wired p = some m) then
      { s with readied := Function.update s.readied m (some p) }
    else s
  let s := s.updatecpu m p
  match s.reprioritize p with
  | none => { s with panicked := true }
  | some pri =>
    { s with
      priority := Function.update s.priority p pri
      state := Function.update s.state p .ready }.goto m (.queueproc pri p)

/-- The beginning of the scan of `runproc`. -/
def loop (m : M) : State P M := s.goto m (.scan 0 (nrq - 1) (s.ends (nrq - 1)).head)

/-- `runproc`, up to its scan. -/
def runproc (m : M) : State P M :=
  match s.readied m with
  | some p =>
    if s.mach p = none ∧ s.state p = .ready ∧ (s.wired p = none ∨ s.wired p = some m) ∧
        (s.ends (nrq - 1)).head = none ∧ (s.ends (nrq - 2)).head = none then
      s.goto m (.dequeueproc .runproc (s.priority p) p)
    else s.loop m
  | none => s.loop m

/-- One round of the innermost loop of the scan. The queues are read while others change
them. -/
def scan (m : M) (i pri : ℕ) : Option P → State P M
  | some p =>
    if s.mp p = none ∨ s.mp p = some m ∨ s.wired p = none ∧ i > 0 then
      s.goto m (.dequeueproc .runproc pri p)
    else s.goto m (.scan i pri (s.rnext p))
  | none =>
    match pri with
    | pri + 1 => s.goto m (.scan i pri (s.ends pri).head)
    | 0 => s.goto m (.scan (i + 1) (nrq - 1) (s.ends (nrq - 1)).head)

/-- The call of `dequeueproc`, and what its callers do next. -/
def call [Fintype P] (m : M) (c : Caller) (rq : ℕ) (p : P) (can : Bool) : State P M :=
  match c, s.dequeueproc rq p can with
  | .runproc, (t, some p) => t.goto m (.found p)
  | .runproc, (t, none) => t.loop m
  | .rebalance npri, (t, some p) => t.goto m (.queueproc npri p)
  | .rebalance _, (t, none) => t.goto m .run
  | .releaseintr, (t, some p) => t.goto m (.released p)
  | .releaseintr, (t, none) => t.goto m .run

/-- `runproc` returns. -/
def found (m : M) (p : P) : State P M :=
  { s with
    state := Function.update s.state p .scheding
    mp := Function.update s.mp p (some m) }.goto m .run

/-- What `sched` does next: the process runs. -/
def running (m : M) (p : P) : State P M :=
  let r := if s.edf p then some s
    else
      let s := s.updatecpu m p
      (s.reprioritize p).map fun pri => { s with priority := Function.update s.priority p pri }
  match r with
  | none => { s with panicked := true }
  | some s =>
    { s with
      readied := Function.update s.readied m none
      up := Function.update s.up m (some p)
      state := Function.update s.state p .running
      mach := Function.update s.mach p (some m) }

/-- One round of the loop of `rebalance`. -/
def rebalance (m : M) (pri : ℕ) : State P M :=
  match (s.ends pri).head with
  | none => s
  | some p =>
    if pri = s.basepri p then s
    else
      let s := s.updatecpu m p
      match s.reprioritize p with
      | none => { s with panicked := true }
      | some npri => if npri ≠ pri then s.goto m (.dequeueproc (.rebalance npri) pri p) else s

end State

/-! ### Steps -/

/-- The ways in which `edfready` goes: the process is no real time process, or has used its time
and goes on without; it has to wait; it is to be put into the queue of active ones. -/
inductive Edfready
  | no
  | extra
  | wait
  | active

/-- `ready`, up to the section of `edfready` or the call of `queueproc`. -/
def State.ready (s : State P M) (m : M) (p : P) : Edfready → State P M
  | .no => s.enter m p
  | .extra => { s with basepri := Function.update s.basepri p priExtra }.enter m p
  | .wait => { s with state := Function.update s.state p .waitrelease }
  | .active => s.goto m (.edfready p)

/-- What else happens: the queues stay, no process becomes ready, and none that is ready ceases to
be. -/
structure Others (s t : State P M) : Prop where
  ends : t.ends = s.ends
  n : t.n = s.n
  nrdy : t.nrdy = s.nrdy
  runvec : t.runvec = s.runvec
  rnext : t.rnext = s.rnext
  priority : t.priority = s.priority
  basepri : t.basepri = s.basepri
  pc : t.pc = s.pc
  panicked : t.panicked = s.panicked
  state : ∀ p, t.state p = s.state p ∨ s.state p ≠ .ready ∧ t.state p ≠ .ready

/-- The steps; `m` is the processor that takes it. -/
inductive Act (P M : Type)
  | ready (m : M) (p : P) (e : Edfready)
  | edfready (m : M) (p : P)
  | queueproc (m : M) (pri : ℕ) (p : P)
  | runproc (m : M)
  | scan (m : M) (i pri : ℕ) (p : Option P)
  | dequeueproc (m : M) (c : Caller) (pri : ℕ) (p : P) (can : Bool)
  | found (m : M) (p : P)
  | running (m : M) (p : P)
  | rebalance (m : M) (pri : ℕ)
  | releaseintr (m : M) (p : P)
  | released (m : M) (p : P)
  | procpriority (p : P) (pri : ℤ)
  | other

namespace State

/-- A processor has the process in hand. -/
def Held (s : State P M) (p : P) : Prop := ∃ m, (s.pc m).holds = some p

/-- One step. Who calls `ready` is the only one to do so, for a process that is not ready. -/
def Step [Fintype P] (s : State P M) (a : Act P M) (t : State P M) : Prop :=
  match a with
  | .ready m p e => s.pc m = .run ∧ s.state p ≠ .ready ∧ ¬s.Held p ∧ t = s.ready m p e
  | .edfready m p => s.pc m = .edfready p ∧ t = (s.edfqueue p).goto m .run
  | .queueproc m pri p => s.pc m = .queueproc pri p ∧ t = (s.queueproc pri p).goto m .run
  | .runproc m => s.pc m = .run ∧ t = s.runproc m
  | .scan m i pri p => s.pc m = .scan i pri p ∧ t = s.scan m i pri p
  | .dequeueproc m c pri p can => s.pc m = .dequeueproc c pri p ∧ t = s.call m c pri p can
  | .found m p => s.pc m = .found p ∧ t = s.found m p
  | .running m p => s.pc m = .run ∧ s.state p = .scheding ∧ t = s.running m p
  | .rebalance m pri => s.pc m = .run ∧ pri < npriq ∧ t = s.rebalance m pri
  | .releaseintr m p => s.pc m = .run ∧ s.state p = .ready ∧
      t = s.goto m (.dequeueproc .releaseintr (s.priority p) p)
  | .released m p => s.pc m = .released p ∧
      t = { s with state := Function.update s.state p .waitrelease }.goto m .run
  | .procpriority p pri => t = s.procpriority p pri
  | .other => Others s t

/-! ### What holds between two steps -/

/-- The processes in a queue, from the first one on. -/
def queue [Fintype P] (s : State P M) (rq : ℕ) : List P :=
  walk s.rnext (Fintype.card P) (s.ends rq).head

/-- **The books of the run queues are kept.** -/
structure Kept [Fintype P] (s : State P M) : Prop where
  /-- bit `i` of `runvec` says whether queue `i` has a process -/
  bit : ∀ i < nrq, s.runvec.getLsbD i = true ↔ s.queue i ≠ []
  /-- `n` is the length of the queue -/
  n : ∀ i < nrq, s.n i = (s.queue i).length
  /-- `tail` is its last process -/
  tail : ∀ i < nrq, (s.ends i).tail = (s.queue i).getLast?
  /-- `nrdy` is the sum -/
  nrdy : s.nrdy = ∑ i ∈ Finset.range nrq, s.n i
  /-- a process that is ready is on exactly one queue, once, unless a processor has it in hand -/
  ready : ∀ p, s.state p = .ready → ¬s.Held p → ∃! i, i < nrq ∧ p ∈ s.queue i
  once : ∀ i < nrq, (s.queue i).Nodup
  /-- and then it is on none -/
  held : ∀ p, s.Held p → ∀ i < nrq, p ∉ s.queue i
  /-- a process on a queue is ready -/
  queued : ∀ i < nrq, ∀ p ∈ s.queue i, s.state p = .ready
  /-- no panic -/
  panicked : s.panicked = false

end State

end Functions

end RunQueue

end Kernel

end Plan9
