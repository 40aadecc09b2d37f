import Mathlib.Algebra.BigOperators.Ring.Finset
import Mathlib.Data.Nat.Bitwise
import Plan9.Kernel.RunQueue

/-!
# The books of the run queues are kept

`Plan9.Kernel.RunQueue.Queues` says what is in the queues, and that their fields agree with
it; putting a process into one (`Plan9.Kernel.RunQueue.Queues.insert`) and taking one out
(`Plan9.Kernel.RunQueue.Queues.erase`) keep it. `Plan9.Kernel.RunQueue.Placed` says where the
processes are that are ready: on a queue, or in the hand of one processor. Every step keeps
both, whichever processors take them (`Plan9.Kernel.RunQueue.runq_kept`).

A process that `dequeueproc` took out is ready, and on no queue
(`Plan9.Kernel.RunQueue.runq_in_hand`).
-/

namespace Plan9

namespace Kernel

namespace RunQueue

open Lib List Function

/-! ### Bits and sums -/

variable {i : ℕ}

theorem getLsbD_mark (v : BitVec 32) (rq : ℕ) (hi : i < nrq) :
    (v ||| 1#32 <<< rq).getLsbD i = true ↔ v.getLsbD i = true ∨ i = rq := by
  have hi' : i < 32 := lt_trans hi (by decide)
  rw [BitVec.getLsbD_or, Bool.or_eq_true, BitVec.getLsbD_shiftLeft]
  refine or_congr_right ?_
  constructor
  · intro h
    simp only [BitVec.getLsbD_one, Bool.and_eq_true, Bool.not_eq_true', decide_eq_true_eq,
      decide_eq_false_iff_not] at h
    omega
  · rintro rfl
    simp [hi']

variable {rq : ℕ}

theorem getLsbD_unmark {v : BitVec 32} (hi : i < nrq) :
    (v &&& ~~~(1#32 <<< rq)).getLsbD i = true ↔ v.getLsbD i = true ∧ i ≠ rq := by
  have hi' : i < 32 := lt_trans hi (by decide)
  have hmark := getLsbD_mark 0#32 rq hi
  rw [BitVec.zero_or, BitVec.getLsbD_zero] at hmark
  have hbit : (1#32 <<< rq).getLsbD i = true ↔ i = rq :=
    hmark.trans ⟨fun h => h.resolve_left Bool.false_ne_true, .inr⟩
  rw [BitVec.getLsbD_and, Bool.and_eq_true, BitVec.getLsbD_not, Bool.and_eq_true,
    Bool.not_eq_true', ← Bool.not_eq_true, hbit]
  simp [hi']

theorem sum_update {n : ℕ → ℤ} (hrq : rq < nrq) (v : ℤ) :
    ∑ i ∈ Finset.range nrq, update n rq v i + n rq = ∑ i ∈ Finset.range nrq, n i + v := by
  have hmem := Finset.mem_range.2 hrq
  have hrest : ∑ i ∈ (Finset.range nrq).erase rq, update n rq v i =
      ∑ i ∈ (Finset.range nrq).erase rq, n i :=
    Finset.sum_congr rfl fun i hi => update_of_ne (Finset.ne_of_mem_erase hi) v n
  rw [← Finset.add_sum_erase _ _ hmem, ← Finset.add_sum_erase _ n hmem, update_self, hrest]
  omega

variable {P M : Type} {s t : State P M} {que que' : ℕ → List P} {p q : P} {m m' : M}

/-! ### What is in the queues -/

/-- **The queues**: `que i` are the processes of queue `i`. -/
structure Queues (s : State P M) (que : ℕ → List P) : Prop where
  fifo : ∀ i, Fifo s.rnext (s.ends i) (que i)
  range : ∀ i, nrq ≤ i → que i = []
  one : ∀ p i j, p ∈ que i → p ∈ que j → i = j
  bit : ∀ i < nrq, s.runvec.getLsbD i = true ↔ que i ≠ []
  n : ∀ i < nrq, s.n i = (que i).length
  nrdy : s.nrdy = ∑ i ∈ Finset.range nrq, s.n i

/-- Only the queues matter. -/
theorem Queues.congr (hq : Queues s que) (hends : t.ends = s.ends) (hrnext : t.rnext = s.rnext)
    (hrunvec : t.runvec = s.runvec) (hn : t.n = s.n) (hnrdy : t.nrdy = s.nrdy) : Queues t que := by
  refine ⟨fun i => ?_, hq.range, hq.one, fun i hi => ?_, fun i hi => ?_, ?_⟩
  · rw [hends, hrnext]
    exact hq.fifo i
  · rw [hrunvec]
    exact hq.bit i hi
  · rw [hn]
    exact hq.n i hi
  · rw [hn, hnrdy]
    exact hq.nrdy

/-- **One queue changes**: it gets `d` processes more, and none that another one has. -/
theorem Queues.change {l : List P} {d : ℤ} (hq : Queues s que) (hrq : rq < nrq)
    (hfifo : Fifo t.rnext (t.ends rq) l) (hends : ∀ i ≠ rq, t.ends i = s.ends i)
    (hnext : ∀ i ≠ rq, ∀ y ∈ que i, t.rnext y = s.rnext y) (hone : ∀ y ∈ l, ∀ i ≠ rq, y ∉ que i)
    (hbit : ∀ i < nrq, t.runvec.getLsbD i = true ↔
      if i = rq then l ≠ [] else s.runvec.getLsbD i = true)
    (hlen : (l.length : ℤ) = (que rq).length + d) (hn : t.n = update s.n rq (s.n rq + d))
    (hnrdy : t.nrdy = s.nrdy + d) : Queues t (update que rq l) := by
  refine ⟨fun i => ?_, fun i hi => ?_, fun y i j hi hj => ?_, fun i hi => ?_, fun i hi => ?_, ?_⟩
  · by_cases hirq : i = rq
    · rw [hirq, update_self]
      exact hfifo
    · rw [update_of_ne hirq, hends i hirq]
      exact (hq.fifo i).congr (hnext i hirq)
  · rw [update_of_ne (by omega)]
    exact hq.range i hi
  · by_cases hirq : i = rq
    · by_cases hjrq : j = rq
      · rw [hirq, hjrq]
      · rw [hirq, update_self] at hi
        rw [update_of_ne hjrq] at hj
        exact absurd hj (hone y hi j hjrq)
    · rw [update_of_ne hirq] at hi
      by_cases hjrq : j = rq
      · rw [hjrq, update_self] at hj
        exact absurd hi (hone y hj i hirq)
      · rw [update_of_ne hjrq] at hj
        exact hq.one y i j hi hj
  · rw [hbit i hi]
    by_cases hirq : i = rq
    · rw [if_pos hirq, hirq, update_self]
    · rw [if_neg hirq, update_of_ne hirq]
      exact hq.bit i hi
  · rw [hn]
    by_cases hirq : i = rq
    · rw [hirq, update_self, update_self, hq.n rq hrq, hlen]
    · rw [update_of_ne hirq, update_of_ne hirq]
      exact hq.n i hi
  · have hsum := sum_update (n := s.n) hrq (s.n rq + d)
    rw [hnrdy, hn, hq.nrdy]
    omega

/-- The last process of some of a queue is on no other one. -/
theorem Queues.not_last {l r : List P} (hq : Queues s que) (hl : que rq = l ++ r) (hi : i ≠ rq)
    (hp : p ∈ que i) : p ∉ l.getLast? := by
  intro hin
  refine hi (hq.one p i rq hp ?_)
  rw [hl]
  exact mem_append_left _ (List.mem_of_getLast? hin)

/-- **A process is put into a queue**, behind those of `l`. -/
theorem Queues.insert {l r : List P} (hq : Queues s que) (hrq : rq < nrq) (hl : que rq = l ++ r)
    (hp : ∀ i, p ∉ que i) (hself : t.rnext p = r.head?)
    (hlast : ∀ x ∈ l.getLast?, t.rnext x = some p)
    (hnext : ∀ y, y ≠ p → y ∉ l.getLast? → t.rnext y = s.rnext y)
    (hends : t.ends = update s.ends rq ⟨if l = [] then some p else (s.ends rq).head,
      if r = [] then some p else (s.ends rq).tail⟩) (hn : t.n = update s.n rq (s.n rq + 1))
    (hnrdy : t.nrdy = s.nrdy + 1) (hrunvec : t.runvec = s.runvec ||| 1#32 <<< rq) :
    Queues t (update que rq (l ++ p :: r)) := by
  have hfifo := hq.fifo rq
  rw [hl] at hfifo
  refine hq.change hrq ?_ (fun i hi => ?_) (fun i hi y hy => hnext y ?_ (hq.not_last hl hi hy))
    (fun y hy i hi hin => ?_) (fun i hi => ?_) ?_ hn hnrdy
  · rw [hends, update_self]
    refine hfifo.insert ?_ hself hlast (fun y hy => hnext y ?_) rfl rfl
    · rw [← hl]
      exact hp rq
    · rintro rfl
      rw [← hl] at hy
      exact hp rq hy
  · rw [hends, update_of_ne hi]
  · rintro rfl
    exact hp i hy
  · rcases mem_cons.1 (perm_middle.mem_iff.1 hy) with rfl | hy
    · exact hp i hin
    · exact hi (hq.one y i rq hin (hl ▸ hy))
  · rw [hrunvec, getLsbD_mark _ _ hi]
    split
    next heq =>
      exact iff_of_true (.inr heq) (append_ne_nil_of_right_ne_nil l (cons_ne_nil p r))
    next hne => exact or_iff_left hne
  · rw [hl]
    simp only [length_append, length_cons]
    omega

/-- **A process is taken out of a queue.** -/
theorem Queues.erase {l l' : List P} (hq : Queues s que) (hrq : rq < nrq)
    (hl : que rq = l ++ p :: l') (hlast : ∀ x ∈ l.getLast?, t.rnext x = s.rnext p)
    (hnext : ∀ y, y ∉ l.getLast? → t.rnext y = s.rnext y) (hends : t.ends = update s.ends rq
      ⟨if l = [] then s.rnext p else (s.ends rq).head,
        if s.rnext p = none then l.getLast? else (s.ends rq).tail⟩)
    (hn : t.n = update s.n rq (s.n rq - 1)) (hnrdy : t.nrdy = s.nrdy - 1)
    (hrunvec : t.runvec = if (t.ends rq).head = none then s.runvec &&& ~~~(1#32 <<< rq)
      else s.runvec) :
    Queues t (update que rq (l ++ l')) := by
  have hfifo := hq.fifo rq
  rw [hl] at hfifo
  have hmem : ∀ y ∈ l ++ l', y ∈ que rq := by
    intro y hy
    rw [hl]
    exact perm_middle.mem_iff.2 (mem_cons_of_mem p hy)
  have hrest : Fifo t.rnext (t.ends rq) (l ++ l') := by
    rw [hends, update_self]
    exact hfifo.erase hlast (fun y _ => hnext y) rfl rfl
  refine hq.change hrq hrest (fun i hi => ?_) (fun i hi y hy => hnext y (hq.not_last hl hi hy))
    (fun y hy i hi hin => hi (hq.one y i rq hin (hmem y hy))) (fun i hi => ?_) ?_ hn hnrdy
  · rw [hends, update_of_ne hi]
  · have hhead : (t.ends rq).head = none ↔ l ++ l' = [] := by
      rw [hrest.head_eq, List.head?_eq_none_iff]
    rw [hrunvec]
    by_cases hnone : (t.ends rq).head = none
    · rw [if_pos hnone, getLsbD_unmark hi]
      split
      next heq => exact iff_of_false (fun h => h.2 heq) fun h => h (hhead.1 hnone)
      next hne => exact and_iff_left hne
    · rw [if_neg hnone]
      split
      next heq =>
        refine iff_of_true ?_ fun hnil => hnone (hhead.2 hnil)
        rw [heq, hq.bit rq hrq, hl]
        exact append_ne_nil_of_right_ne_nil l (cons_ne_nil p l')
      next => rfl
  · rw [hl]
    simp only [length_append, length_cons]
    omega

/-! ### Where the processes are -/

/-- What a processor knows when it is there. -/
def Caller.Fits : Caller → Prop
  | .rebalance npri => npri < nrq
  | _ => True

/-- The same, for the place. -/
def Pc.Fits (state : P → ProcState) : Pc P → Prop
  | .queueproc pri p => pri < nrq ∧ state p = .ready
  | .scan _ pri _ => pri < nrq
  | .dequeueproc c pri _ => c.Fits ∧ pri < nrq
  | _ => True

/-- Only the process in hand matters. -/
theorem Pc.Fits.congr {state state' : P → ProcState} {c : Pc P} (h : c.Fits state)
    (hstate : ∀ q, c.holds = some q → (state' q = .ready ↔ state q = .ready)) : c.Fits state' := by
  cases c with
  | queueproc pri q => exact ⟨h.1, (hstate q rfl).2 h.2⟩
  | scan i pri q => exact h
  | dequeueproc c pri q => exact h
  | run => exact trivial
  | edfready q => exact trivial
  | found q => exact trivial
  | released q => exact trivial

/-- **Where the processes are**: one that is ready is on a queue, or one processor has it in
hand. -/
structure Placed (s : State P M) (que : ℕ → List P) : Prop where
  queued : ∀ p i, p ∈ que i → s.state p = .ready
  held : ∀ m p, (s.pc m).holds = some p → ∀ i, p ∉ que i
  alone : ∀ m m' p, (s.pc m).holds = some p → (s.pc m').holds = some p → m = m'
  ready : ∀ p, s.state p = .ready → (∃ i, p ∈ que i) ∨ s.Held p
  fits : ∀ m, (s.pc m).Fits s.state

/-- A processor that has nothing in hand goes on without anything. -/
theorem Placed.idle (hp : Placed s que) (hpc : ∀ m', m' ≠ m → t.pc m' = s.pc m')
    (hstate : ∀ q, t.state q = .ready ↔ s.state q = .ready) (hs : (s.pc m).holds = none)
    (ht : (t.pc m).holds = none) (hfits : (t.pc m).Fits t.state) : Placed t que := by
  have hholds : ∀ m', (t.pc m').holds = (s.pc m').holds := by
    intro m'
    by_cases hm : m' = m
    · rw [hm, hs, ht]
    · rw [hpc m' hm]
  refine ⟨fun q i hq => (hstate q).2 (hp.queued q i hq), fun m' q hq => ?_,
    fun m' m'' q hq hq' => ?_, fun q hq => ?_, fun m' => ?_⟩
  · rw [hholds] at hq
    exact hp.held m' q hq
  · rw [hholds] at hq hq'
    exact hp.alone m' m'' q hq hq'
  · refine (hp.ready q ((hstate q).1 hq)).imp_right ?_
    rintro ⟨m', hm'⟩
    exact ⟨m', (hholds m').trans hm'⟩
  · by_cases hm : m' = m
    · rw [hm]
      exact hfits
    · rw [hpc m' hm]
      exact (hp.fits m').congr fun q _ => hstate q

/-- **A processor takes a process in hand, or lets it go**, and nothing else moves. -/
theorem Placed.move (hp : Placed s que) (hpc : ∀ m', m' ≠ m → t.pc m' = s.pc m')
    (hstate : ∀ q, q ≠ p → (t.state q = .ready ↔ s.state q = .ready))
    (hque : ∀ q, q ≠ p → ∀ i, q ∈ que' i ↔ q ∈ que i)
    (hothers : ∀ m', m' ≠ m → (s.pc m').holds ≠ some p)
    (hs : ∀ q, (s.pc m).holds = some q → q = p) (ht : ∀ q, (t.pc m).holds = some q → q = p)
    (hqueued : ∀ i, p ∈ que' i → t.state p = .ready ∧ (t.pc m).holds ≠ some p)
    (hready : t.state p = .ready → (∃ i, p ∈ que' i) ∨ (t.pc m).holds = some p)
    (hfits : (t.pc m).Fits t.state) : Placed t que' := by
  have hmine : ∀ m', (t.pc m').holds = some p → m' = m := by
    intro m' hm'
    by_contra hne
    rw [hpc m' hne] at hm'
    exact hothers m' hne hm'
  have hother : ∀ m' q, q ≠ p → ((t.pc m').holds = some q ↔ (s.pc m').holds = some q) := by
    intro m' q hq
    by_cases hm : m' = m
    · rw [hm]
      exact ⟨fun h => absurd (ht q h) hq, fun h => absurd (hs q h) hq⟩
    · rw [hpc m' hm]
  refine ⟨fun q i hq => ?_, fun m' q hq i hi => ?_, fun m' m'' q hq hq' => ?_, fun q hq => ?_,
    fun m' => ?_⟩
  · by_cases hqp : q = p
    · subst hqp
      exact (hqueued i hq).1
    · exact (hstate q hqp).2 (hp.queued q i ((hque q hqp i).1 hq))
  · by_cases hqp : q = p
    · subst hqp
      rw [hmine m' hq] at hq
      exact (hqueued i hi).2 hq
    · exact hp.held m' q ((hother m' q hqp).1 hq) i ((hque q hqp i).1 hi)
  · by_cases hqp : q = p
    · subst hqp
      rw [hmine m' hq, hmine m'' hq']
    · exact hp.alone m' m'' q ((hother m' q hqp).1 hq) ((hother m'' q hqp).1 hq')
  · by_cases hqp : q = p
    · subst hqp
      exact (hready hq).imp_right fun h => ⟨m, h⟩
    · refine (hp.ready q ((hstate q hqp).1 hq)).imp ?_ ?_
      · rintro ⟨i, hi⟩
        exact ⟨i, (hque q hqp i).2 hi⟩
      · rintro ⟨m', hm'⟩
        exact ⟨m', (hother m' q hqp).2 hm'⟩
  · by_cases hm : m' = m
    · rw [hm]
      exact hfits
    · rw [hpc m' hm]
      refine (hp.fits m').congr fun q hq => hstate q ?_
      rintro rfl
      exact hothers m' hm hq

/-- Nothing moves. -/
theorem Placed.congr (hp : Placed s que) (hpc : t.pc = s.pc)
    (hstate : ∀ q, t.state q = .ready ↔ s.state q = .ready) : Placed t que := by
  refine ⟨fun q i hq => (hstate q).2 (hp.queued q i hq), ?_, ?_, fun q hq => ?_, fun m => ?_⟩
  · rw [hpc]
    exact hp.held
  · rw [hpc]
    exact hp.alone
  · rw [State.Held, hpc]
    exact hp.ready q ((hstate q).1 hq)
  · rw [hpc]
    exact (hp.fits m).congr fun q _ => hstate q

/-- **The invariant.** -/
structure Inv (s : State P M) (que : ℕ → List P) : Prop where
  queues : Queues s que
  placed : Placed s que
  priority : ∀ p, s.priority p < nrq
  basepri : ∀ p, s.basepri p < npriq
  panicked : s.panicked = false

/-- A step that leaves the queues alone. -/
theorem Inv.congr (hi : Inv s que) (hends : t.ends = s.ends) (hrnext : t.rnext = s.rnext)
    (hrunvec : t.runvec = s.runvec) (hn : t.n = s.n) (hnrdy : t.nrdy = s.nrdy)
    (hplaced : Placed t que) (hpriority : ∀ p, t.priority p < nrq)
    (hbasepri : ∀ p, t.basepri p < npriq) (hpanicked : t.panicked = s.panicked) : Inv t que :=
  ⟨hi.queues.congr hends hrnext hrunvec hn hnrdy, hplaced, hpriority, hbasepri,
    hpanicked.trans hi.panicked⟩

theorem Placed.not_mem (hp : Placed s que) (hstate : s.state p ≠ .ready) (i : ℕ) : p ∉ que i :=
  fun hin => hstate (hp.queued p i hin)

/-! ### Priorities -/

theorem lt_nrq {pri : ℕ} (h : pri < npriq) : pri < nrq := lt_trans h (by decide)

theorem int32_of_lt {n : ℕ} (hn : n < npriq) : int32 n = n := by
  have hn' : n < 20 := hn
  rw [int32, Int.bmod_eq_of_le (by omega) (by omega)]

/-- **`reprioritize` does not panic**, and does not go above the base priority. -/
theorem reprioritize_lt (hb : s.basepri p < npriq) :
    ∃ pri < npriq, s.reprioritize p = some pri := by
  rw [State.reprioritize]
  split
  next => exact ⟨s.basepri p, hb, rfl⟩
  next =>
    simp only
    generalize uint32 _ / _ = ratio
    have hle : (if ratio > s.basepri p then s.basepri p else ratio) < npriq := by
      split <;> omega
    generalize (if ratio > s.basepri p then s.basepri p else ratio) = pri at *
    rw [if_neg (by rw [int32_of_lt hle]; omega)]
    exact ⟨pri, hle, rfl⟩

theorem Queues.length_le [Fintype P] (hq : Queues s que) (i : ℕ) :
    (que i).length ≤ Fintype.card P :=
  (hq.fifo i).nodup.length_le_card

/-- The pointer to the last process says whether there is one. -/
theorem elim_getLast {l : List P} {a b : Option P} :
    (l.getLast?.elim a fun _ => b) = if l = [] then a else b := by
  rcases l.eq_nil_or_concat' with rfl | ⟨l, x, rfl⟩
  · rfl
  · rw [List.getLast?_concat, if_neg (append_ne_nil_of_right_ne_nil l (cons_ne_nil x []))]
    rfl

variable [DecidableEq P]

/-- `updatecpu` only keeps accounts. -/
theorem updatecpu_eq (s : State P M) (m : M) (p : P) : ∃ lastupdate cpu,
    s.updatecpu m p = { s with lastupdate := lastupdate, cpu := cpu } := by
  rw [State.updatecpu]
  split
  next => exact ⟨s.lastupdate, s.cpu, rfl⟩
  next =>
    simp only
    split
    next => exact ⟨_, s.cpu, rfl⟩
    next => exact ⟨_, _, rfl⟩

/-- What `ready` does up to the call of `queueproc`. -/
theorem enter_eq [DecidableEq M] (hb : s.basepri p < npriq) :
    ∃ readied lastupdate cpu, ∃ pri < npriq, s.enter m p = { s with
      readied := readied
      lastupdate := lastupdate
      cpu := cpu
      priority := update s.priority p pri
      state := update s.state p .ready
      pc := update s.pc m (.queueproc pri p) } := by
  rw [State.enter]
  obtain ⟨readied, hreadied⟩ : ∃ readied,
      (if s.up m ≠ some p ∧ (s.wired p = none ∨ s.wired p = some m) then
        { s with readied := update s.readied m (some p) }
      else s) = { s with readied := readied } := by
    split
    next => exact ⟨_, rfl⟩
    next => exact ⟨s.readied, rfl⟩
  rw [hreadied]
  obtain ⟨lastupdate, cpu, heq⟩ := updatecpu_eq { s with readied := readied } m p
  rw [heq]
  obtain ⟨pri, hpri, hre⟩ := reprioritize_lt (s := { s with
    readied := readied, lastupdate := lastupdate, cpu := cpu }) (p := p) hb
  rw [hre]
  exact ⟨readied, lastupdate, cpu, pri, hpri, rfl⟩

/-! ### Under the lock -/

/-- `queueproc` puts the process behind the last one. -/
theorem Queues.queueproc (hq : Queues s que) (hrq : rq < nrq) (hp : ∀ i, p ∉ que i) :
    Queues (s.queueproc rq p) (update que rq (que rq ++ [p])) := by
  have htail := (hq.fifo rq).tail
  have hrnext : (s.queueproc rq p).rnext = (que rq).getLast?.elim (update s.rnext p none)
      fun t => update (update s.rnext p none) t (some p) := by
    rw [← htail]
    rfl
  refine hq.insert (r := []) hrq (append_nil _).symm hp ?_ (fun x hx => ?_)
    (fun y hy hnot => ?_) ?_ rfl rfl rfl
  · rw [hrnext]
    cases hlast : (que rq).getLast? with
    | none => exact update_self ..
    | some x =>
      have hne : p ≠ x := fun heq => hp rq (heq ▸ List.mem_of_getLast? hlast)
      exact (update_of_ne hne ..).trans (update_self ..)
  · rw [hrnext, hx]
    exact update_self ..
  · rw [hrnext]
    cases hlast : (que rq).getLast? with
    | none => exact update_of_ne hy ..
    | some x =>
      have hne : y ≠ x := fun heq => hnot (heq ▸ hlast)
      exact (update_of_ne hne ..).trans (update_of_ne hy ..)
  · rw [if_pos rfl, ← elim_getLast, ← htail]
    rfl

/-- `edfready` puts the process before the first one with a later deadline. -/
theorem Queues.edfqueue [Fintype P] (hq : Queues s que) (hp : ∀ i, p ∉ que i) :
    ∃ l l', que priEdf = l ++ l' ∧ (∀ y ∈ l, ¬s.d y > s.d p) ∧ (∀ y ∈ l'.head?, s.d y > s.d p) ∧
      Queues (s.edfqueue p) (update que priEdf (l ++ p :: l')) := by
  obtain ⟨l, l', hl, hpass, hhit, hseek⟩ := (hq.fifo priEdf).seek_eq
    (fun pp => decide (s.d pp > s.d p)) (hq.length_le priEdf)
  refine ⟨l, l', hl, fun y hy => of_decide_eq_false (hpass y hy),
    fun y hy => of_decide_eq_true (hhit y hy), ?_⟩
  have hpl : ∀ x ∈ l.getLast?, p ≠ x := by
    rintro x hx rfl
    refine hp priEdf ?_
    rw [hl]
    exact mem_append_left _ (List.mem_of_getLast? hx)
  rw [State.edfqueue, hseek]
  have hrnext : ∀ y, y ∉ l.getLast? → (l.getLast?.elim (update s.rnext p l'.head?)
      fun l => update (update s.rnext p l'.head?) l (some p)) y = update s.rnext p l'.head? y := by
    intro y hnot
    cases hlast : l.getLast? with
    | none => rfl
    | some x =>
      have hne : y ≠ x := fun heq => hnot (heq ▸ hlast)
      exact update_of_ne hne ..
  refine hq.insert (by decide) hl hp ?_ (fun x hx => ?_) (fun y hy hnot => ?_) ?_ rfl rfl rfl
  · exact (hrnext p fun hin => hpl p hin rfl).trans (update_self ..)
  · simp only
    rw [hx]
    exact update_self ..
  · exact (hrnext y hnot).trans (update_of_ne hy ..)
  · simp only [elim_getLast, List.head?_eq_none_iff]

/-- The queues apart, nothing changes. -/
structure Frame (s t : State P M) : Prop where
  state : t.state = s.state
  pc : t.pc = s.pc
  priority : t.priority = s.priority
  basepri : t.basepri = s.basepri
  panicked : t.panicked = s.panicked

/-- **`dequeueproc`** takes the process out of the queue, or changes nothing: when it does not get
the lock, the process has gone, or is still on a processor. -/
theorem Queues.dequeueproc [Fintype P] (hq : Queues s que) (hrq : rq < nrq) (p : P)
    (can : Bool) :
    (can = false ∨ p ∉ que rq ∨ s.mach p ≠ none) ∧ s.dequeueproc rq p can = (s, none) ∨
    (can = true ∧ p ∈ que rq ∧ s.mach p = none) ∧
      ∃ t l l', s.dequeueproc rq p can = (t, some p) ∧ que rq = l ++ p :: l' ∧ Frame s t ∧
        Queues t (update que rq (l ++ l')) := by
  rw [State.dequeueproc]
  by_cases hcan : can = false
  · rw [if_pos hcan]
    exact .inl ⟨.inl hcan, rfl⟩
  · rw [if_neg hcan]
    rw [Bool.not_eq_false] at hcan
    obtain ⟨l, l', hl, hpass, hhit, hseek⟩ := (hq.fifo rq).seek_eq
      (fun q => decide (q = p)) (hq.length_le rq)
    simp only [hseek]
    have hout : p ∉ l := by
      intro hin
      exact of_decide_eq_false (hpass p hin) rfl
    cases l' with
    | nil =>
      rw [append_nil] at hl
      rw [← hl] at hout
      exact .inl ⟨.inr (.inl hout), rfl⟩
    | cons q l' =>
      obtain rfl : q = p := of_decide_eq_true (hhit q rfl)
      have hin : q ∈ que rq := by
        rw [hl]
        exact mem_append_right _ mem_cons_self
      simp only [List.head?_cons]
      by_cases hmach : (s.mach q).isSome = true
      · rw [if_pos hmach]
        exact .inl ⟨.inr (.inr (Option.isSome_iff_ne_none.1 hmach)), rfl⟩
      · rw [if_neg hmach]
        rw [Option.not_isSome_iff_eq_none] at hmach
        refine .inr ⟨⟨hcan, hin, hmach⟩, _, l, l', rfl, hl, ⟨rfl, rfl, rfl, rfl, rfl⟩, ?_⟩
        refine hq.erase hrq hl (fun x hx => ?_) (fun y hnot => ?_) ?_ rfl rfl ?_
        · simp only
          rw [hx]
          exact update_self ..
        · cases hlast : l.getLast? with
          | none => rfl
          | some x =>
            have hne : y ≠ x := fun heq => hnot (heq ▸ hlast)
            exact update_of_ne hne ..
        · simp only [elim_getLast]
        · simp only [update_self]

/-! ### Steps -/

/-- `updatecpu` keeps the invariant, and where the processors are. -/
theorem Inv.updatecpu (hi : Inv s que) (m : M) (p : P) : Inv (s.updatecpu m p) que ∧
    (s.updatecpu m p).pc = s.pc ∧ (s.updatecpu m p).state = s.state ∧
    (s.updatecpu m p).edf = s.edf := by
  obtain ⟨lastupdate, cpu, heq⟩ := updatecpu_eq s m p
  rw [heq]
  exact ⟨hi.congr rfl rfl rfl rfl rfl (hi.placed.congr rfl fun _ => Iff.rfl) hi.priority hi.basepri
    rfl, rfl, rfl, rfl⟩

/-- `procpriority` keeps priorities in their range. -/
theorem Inv.procpriority {pri : ℤ} (hi : Inv s que) : Inv (s.procpriority p pri) que := by
  have hlt : (if pri ≥ (npriq : ℤ) then npriq - 1 else pri.toNat) < npriq := by
    have hpos : 0 < npriq := by decide
    split <;> omega
  refine hi.congr rfl rfl rfl rfl rfl (hi.placed.congr rfl fun _ => Iff.rfl) (fun q => ?_)
    (fun q => ?_) rfl
  · rw [State.procpriority]
    simp only
    by_cases hq : q = p
    · rw [hq, update_self]
      exact lt_nrq hlt
    · rw [update_of_ne hq]
      exact hi.priority q
  · rw [State.procpriority]
    simp only
    by_cases hq : q = p
    · rw [hq, update_self]
      exact hlt
    · rw [update_of_ne hq]
      exact hi.basepri q

variable [DecidableEq M]

omit [DecidableEq P] in
/-- A processor that has nothing in hand goes on elsewhere, without anything. -/
theorem Inv.goto {c : Pc P} (hi : Inv s que) (hs : (s.pc m).holds = none) (hc : c.holds = none)
    (hfits : c.Fits s.state) : Inv (s.goto m c) que := by
  have hpc : (s.goto m c).pc m = c := update_self ..
  refine hi.congr rfl rfl rfl rfl rfl (hi.placed.idle (m := m)
    (fun m' hm => update_of_ne hm ..) (fun _ => Iff.rfl) hs ?_ ?_) hi.priority hi.basepri rfl
  · rw [hpc, hc]
  · rw [hpc]
    exact hfits

variable {pri : ℕ}

/-- `ready` is called for a process that nobody has in hand. -/
theorem Inv.enter (hi : Inv s que) (hpc : s.pc m = .run) (hstate : s.state p ≠ .ready)
    (hheld : ¬s.Held p) : Inv (s.enter m p) que := by
  obtain ⟨readied, lastupdate, cpu, pri, hpri, heq⟩ := enter_eq (m := m) (hi.basepri p)
  rw [heq]
  have hnone : (s.pc m).holds = none := by
    rw [hpc]
    rfl
  have hself : update s.pc m (.queueproc pri p) m = .queueproc pri p := update_self ..
  refine hi.congr rfl rfl rfl rfl rfl (hi.placed.move (m := m) (p := p)
    (fun m' hm => update_of_ne hm ..) (fun q hq => ?_) (fun _ _ _ => Iff.rfl)
    (fun m' _ hm' => hheld ⟨m', hm'⟩) (fun q hq => ?_) (fun q hq => ?_)
    (fun i hin => absurd hin (hi.placed.not_mem hstate i)) (fun _ => .inr ?_) ?_) (fun q => ?_)
    hi.basepri rfl
  · change update s.state p .ready q = .ready ↔ _
    rw [update_of_ne hq]
  · rw [hnone] at hq
    cases hq
  · change (update s.pc m (.queueproc pri p) m).holds = some q at hq
    rw [hself] at hq
    exact (Option.some.inj hq).symm
  · change (update s.pc m (.queueproc pri p) m).holds = some p
    rw [hself]
    rfl
  · change (update s.pc m (.queueproc pri p) m).Fits (update s.state p .ready)
    rw [hself]
    exact ⟨lt_nrq hpri, update_self ..⟩
  · change update s.priority p pri q < nrq
    by_cases hq : q = p
    · rw [hq, update_self]
      exact lt_nrq hpri
    · rw [update_of_ne hq]
      exact hi.priority q

/-- A processor lets a process go that it has in hand: it is not ready any more. -/
theorem Inv.drop (hi : Inv s que) (st : ProcState) (hpc : (s.pc m).holds = some p)
    (hst : st ≠ .ready) :
    Inv ({ s with state := update s.state p st }.goto m .run) que := by
  have hself : ({ s with state := update s.state p st }.goto m .run).pc m = .run := update_self ..
  refine hi.congr rfl rfl rfl rfl rfl (hi.placed.move (m := m) (p := p)
    (fun m' hm => update_of_ne hm ..) (fun q hq => ?_) (fun _ _ _ => Iff.rfl)
    (fun m' hm hm' => hm (hi.placed.alone m' m p hm' hpc)) (fun q hq => ?_) (fun q hq => ?_)
    (fun i hin => absurd hin (hi.placed.held m p hpc i)) (fun hready => ?_) ?_) hi.priority
    hi.basepri rfl
  · change update s.state p st q = .ready ↔ _
    rw [update_of_ne hq]
  · rw [hpc] at hq
    exact (Option.some.inj hq).symm
  · rw [hself] at hq
    cases hq
  · change update s.state p st p = .ready at hready
    rw [update_self] at hready
    exact absurd hready hst
  · rw [hself]
    exact trivial

/-- **A process in hand is put into a queue.** -/
theorem Inv.put {rq : ℕ} {l l' : List P} (hi : Inv s que) (hpc : (s.pc m).holds = some p)
    (hrq : rq < nrq) (hl : que rq = l ++ l')
    (hqueues : Queues t (update que rq (l ++ p :: l')))
    (htpc : t.pc = update s.pc m .run)
    (hstate : t.state = update s.state p .ready)
    (hpriority : t.priority = update s.priority p rq) (hbasepri : t.basepri = s.basepri)
    (hpanicked : t.panicked = s.panicked) : Inv t (update que rq (l ++ p :: l')) := by
  have hself : t.pc m = .run := by rw [htpc, update_self]
  refine ⟨hqueues, hi.placed.move (m := m) (p := p) (fun m' hm => ?_) (fun q hq => ?_)
    (fun q hq i => ?_) (fun m' hm hm' => hm (hi.placed.alone m' m p hm' hpc)) (fun q hq => ?_)
    (fun q hq => ?_) (fun i _ => ⟨?_, ?_⟩) (fun _ => .inl ⟨rq, ?_⟩) ?_, fun q => ?_, ?_, ?_⟩
  · rw [htpc, update_of_ne hm]
  · rw [hstate, update_of_ne hq]
  · by_cases hirq : i = rq
    · subst hirq
      rw [update_self, hl, mem_append, mem_cons, mem_append]
      tauto
    · rw [update_of_ne hirq]
  · rw [hpc] at hq
    exact (Option.some.inj hq).symm
  · rw [hself] at hq
    cases hq
  · rw [hstate, update_self]
  · rw [hself]
    exact fun heq => by cases heq
  · rw [update_self]
    exact mem_append_right _ mem_cons_self
  · rw [hself]
    exact trivial
  · rw [hpriority]
    by_cases hq : q = p
    · rw [hq, update_self]
      exact hrq
    · rw [update_of_ne hq]
      exact hi.priority q
  · rw [hbasepri]
    exact hi.basepri
  · rw [hpanicked]
    exact hi.panicked

omit [DecidableEq P] in
/-- **A process is taken out of a queue**, and in hand then. -/
theorem Inv.get {l l' : List P} {c : Pc P} (hi : Inv s que) (hpc : (s.pc m).holds = none)
    (hl : que rq = l ++ p :: l') (hqueues : Queues t (update que rq (l ++ l'))) (hframe : Frame s t)
    (hc : c.holds = some p) (hfits : c.Fits s.state) :
    Inv (t.goto m c) (update que rq (l ++ l')) := by
  have hself : (t.goto m c).pc m = c := update_self ..
  have hin : p ∈ que rq := by
    rw [hl]
    exact mem_append_right _ mem_cons_self
  have hnodup := (hi.queues.fifo rq).nodup
  rw [hl, nodup_middle, nodup_cons] at hnodup
  refine ⟨hqueues.congr rfl rfl rfl rfl rfl, hi.placed.move (m := m) (p := p) (fun m' hm => ?_)
    (fun q hq => ?_) (fun q hq i => ?_) (fun m' _ hm' => hi.placed.held m' p hm' rq hin)
    (fun q hq => ?_) (fun q hq => ?_) (fun i hi' => ?_) (fun _ => .inr ?_) ?_, ?_, ?_, ?_⟩
  · exact (update_of_ne hm ..).trans (congrFun hframe.pc m')
  · change t.state q = .ready ↔ _
    rw [hframe.state]
  · by_cases hirq : i = rq
    · subst hirq
      rw [update_self, hl, mem_append, mem_append, mem_cons]
      tauto
    · rw [update_of_ne hirq]
  · rw [hpc] at hq
    cases hq
  · rw [hself, hc] at hq
    exact (Option.some.inj hq).symm
  · exfalso
    by_cases hirq : i = rq
    · subst hirq
      rw [update_self] at hi'
      exact hnodup.1 hi'
    · rw [update_of_ne hirq] at hi'
      exact hirq (hi.queues.one p i rq hi' hin)
  · rw [hself, hc]
  · rw [hself]
    change c.Fits t.state
    rw [hframe.state]
    exact hfits
  · exact fun q => (congrFun hframe.priority q).trans_lt (hi.priority q)
  · exact fun q => (congrFun hframe.basepri q).trans_lt (hi.basepri q)
  · exact hframe.panicked.trans hi.panicked

/-- The call of `dequeueproc`, by any of its callers. -/
theorem Inv.call [Fintype P] {c : Caller} {can : Bool} (hi : Inv s que)
    (hpc : s.pc m = .dequeueproc c rq p) : ∃ que', Inv (s.call m c rq p can) que' := by
  obtain ⟨hc, hrq⟩ : c.Fits ∧ rq < nrq := by
    have hfits := hi.placed.fits m
    rw [hpc] at hfits
    exact hfits
  have hnone : (s.pc m).holds = none := by
    rw [hpc]
    rfl
  have hready : ∀ i, p ∈ que i → s.state p = .ready := hi.placed.queued p
  unfold State.call
  rcases hi.queues.dequeueproc hrq p can with
    ⟨-, heq⟩ | ⟨⟨-, hin, -⟩, t, l, l', heq, hl, hframe, hqueues⟩
  · rw [heq]
    cases c with
    | runproc => exact ⟨que, hi.goto hnone rfl (by decide : nrq - 1 < nrq)⟩
    | rebalance npri => exact ⟨que, hi.goto hnone rfl trivial⟩
    | releaseintr => exact ⟨que, hi.goto hnone rfl trivial⟩
  · rw [heq]
    cases c with
    | runproc => exact ⟨_, hi.get hnone hl hqueues hframe rfl trivial⟩
    | rebalance npri => exact ⟨_, hi.get hnone hl hqueues hframe rfl ⟨hc, hready rq hin⟩⟩
    | releaseintr => exact ⟨_, hi.get hnone hl hqueues hframe rfl trivial⟩

omit [DecidableEq P] in
/-- One round of the scan. -/
theorem Inv.scan {o : Option P} (hi : Inv s que) (hpc : s.pc m = .scan i pri o) :
    Inv (s.scan m i pri o) que := by
  have hpri : pri < nrq := by
    have hfits := hi.placed.fits m
    rw [hpc] at hfits
    exact hfits
  have hnone : (s.pc m).holds = none := by
    rw [hpc]
    rfl
  cases o with
  | some p =>
    rw [State.scan]
    split
    next => exact hi.goto hnone rfl ⟨trivial, hpri⟩
    next => exact hi.goto hnone rfl hpri
  | none =>
    cases pri with
    | succ pri => exact hi.goto hnone rfl (Nat.lt_of_succ_lt hpri)
    | zero => exact hi.goto hnone rfl (by decide : nrq - 1 < nrq)

/-- One round of `rebalance`. -/
theorem Inv.rebalance (hi : Inv s que) (hpc : s.pc m = .run) (hpri : pri < npriq) :
    Inv (s.rebalance m pri) que := by
  rw [State.rebalance]
  split
  next => exact hi
  next p _ =>
    split
    next => exact hi
    next =>
      obtain ⟨hi', hpc', -, -⟩ := hi.updatecpu m p
      obtain ⟨npri, hnpri, heq⟩ := reprioritize_lt (hi'.basepri p)
      have hnone : ((s.updatecpu m p).pc m).holds = none := by
        rw [hpc', hpc]
        rfl
      simp only [heq]
      split
      next => exact hi'.goto hnone rfl ⟨lt_nrq hnpri, lt_nrq hpri⟩
      next => exact hi'

/-- A process that `runproc` found begins to run. -/
theorem Inv.running (hi : Inv s que) (hstate : s.state p = .scheding) :
    Inv (s.running m p) que := by
  have hrun : ∀ t : State P M, Inv t que → t.state = s.state → Inv { t with
        readied := update t.readied m none
        up := update t.up m (some p)
        state := update t.state p .running
        mach := update t.mach p (some m) } que := by
    intro t ht htstate
    refine ht.congr rfl rfl rfl rfl rfl (ht.placed.congr rfl fun q => ?_) ht.priority ht.basepri rfl
    change update t.state p .running q = .ready ↔ _
    by_cases hq : q = p
    · rw [hq, update_self, htstate, hstate]
      exact iff_of_false nofun nofun
    · rw [update_of_ne hq]
  rw [State.running]
  by_cases hedf : s.edf p = true
  · rw [if_pos hedf]
    exact hrun s hi rfl
  · rw [if_neg hedf]
    obtain ⟨hi', -, hstate', -⟩ := hi.updatecpu m p
    obtain ⟨pri, hpri, heq⟩ := reprioritize_lt (hi'.basepri p)
    simp only [heq, Option.map_some]
    have hpriority : ∀ q, update (s.updatecpu m p).priority p pri q < nrq := by
      intro q
      by_cases hq : q = p
      · rw [hq, update_self]
        exact lt_nrq hpri
      · rw [update_of_ne hq]
        exact hi'.priority q
    exact hrun { s.updatecpu m p with
      priority := update (s.updatecpu m p).priority p pri } (hi'.congr rfl rfl rfl rfl rfl
        (hi'.placed.congr rfl fun _ => Iff.rfl) hpriority hi'.basepri rfl) hstate'

/-- `ready`, whichever way `edfready` goes. -/
theorem Inv.ready {e : Edfready} (hi : Inv s que) (hpc : s.pc m = .run)
    (hstate : s.state p ≠ .ready) (hheld : ¬s.Held p) : Inv (s.ready m p e) que := by
  have hnone : (s.pc m).holds = none := by
    rw [hpc]
    rfl
  cases e with
  | no => exact hi.enter hpc hstate hheld
  | extra =>
    have hi' : Inv { s with basepri := update s.basepri p priExtra } que := by
      refine hi.congr rfl rfl rfl rfl rfl (hi.placed.congr rfl fun _ => Iff.rfl) hi.priority
        (fun q => ?_) rfl
      simp only
      by_cases hq : q = p
      · rw [hq, update_self]
        decide
      · rw [update_of_ne hq]
        exact hi.basepri q
    exact hi'.enter hpc hstate hheld
  | wait =>
    refine hi.congr rfl rfl rfl rfl rfl (hi.placed.congr rfl fun q => ?_) hi.priority hi.basepri rfl
    change update s.state p .waitrelease q = .ready ↔ _
    by_cases hq : q = p
    · rw [hq, update_self]
      exact ⟨fun heq => ProcState.noConfusion heq, fun heq => absurd heq hstate⟩
    · rw [update_of_ne hq]
  | active =>
    have hself : (s.goto m (.edfready p)).pc m = .edfready p := update_self ..
    refine hi.congr rfl rfl rfl rfl rfl (hi.placed.move (m := m) (p := p)
      (fun m' hm => update_of_ne hm ..) (fun _ _ => Iff.rfl) (fun _ _ _ => Iff.rfl)
      (fun m' _ hm' => hheld ⟨m', hm'⟩) (fun q hq => ?_) (fun q hq => ?_)
      (fun i hin => absurd hin (hi.placed.not_mem hstate i))
        (fun hready => absurd hready hstate) ?_)
      hi.priority hi.basepri rfl
    · rw [hnone] at hq
      cases hq
    · change (update s.pc m (.edfready p) m).holds = some q at hq
      rw [update_self] at hq
      exact (Option.some.inj hq).symm
    · change (update s.pc m (.edfready p) m).Fits s.state
      rw [update_self]
      exact trivial

variable [Fintype P]

/-- **Every step keeps the invariant.** -/
theorem Inv.step {a : Act P M} (hi : Inv s que) (hstep : s.Step a t) : ∃ que', Inv t que' := by
  cases a with
  | ready m p e =>
    obtain ⟨hpc, hstate, hheld, rfl⟩ := hstep
    exact ⟨que, hi.ready hpc hstate hheld⟩
  | edfready m p =>
    obtain ⟨hpc, rfl⟩ := hstep
    have hholds : (s.pc m).holds = some p := by
      rw [hpc]
      rfl
    obtain ⟨l, l', hl, -, -, hqueues⟩ := hi.queues.edfqueue (hi.placed.held m p hholds)
    refine ⟨_, hi.put hholds (by decide) hl (hqueues.congr rfl rfl rfl rfl rfl) rfl rfl rfl rfl rfl⟩
  | queueproc m pri p =>
    obtain ⟨hpc, rfl⟩ := hstep
    have hholds : (s.pc m).holds = some p := by
      rw [hpc]
      rfl
    obtain ⟨hpri, hready⟩ : pri < nrq ∧ s.state p = .ready := by
      have hfits := hi.placed.fits m
      rw [hpc] at hfits
      exact hfits
    have hqueues := hi.queues.queueproc hpri (hi.placed.held m p hholds)
    refine ⟨_, hi.put hholds hpri (append_nil _).symm (hqueues.congr rfl rfl rfl rfl rfl) rfl ?_
      rfl rfl rfl⟩
    rw [← hready, update_eq_self]
    rfl
  | runproc m =>
    obtain ⟨hpc, rfl⟩ := hstep
    have hnone : (s.pc m).holds = none := by
      rw [hpc]
      rfl
    have hloop : Inv (s.loop m) que := hi.goto hnone rfl (by decide : nrq - 1 < nrq)
    refine ⟨que, ?_⟩
    rw [State.runproc]
    split
    next p _ =>
      split
      next => exact hi.goto hnone rfl ⟨trivial, hi.priority p⟩
      next => exact hloop
    next => exact hloop
  | scan m i pri p =>
    obtain ⟨hpc, rfl⟩ := hstep
    exact ⟨que, hi.scan hpc⟩
  | dequeueproc m c pri p can =>
    obtain ⟨hpc, rfl⟩ := hstep
    exact hi.call hpc
  | found m p =>
    obtain ⟨hpc, rfl⟩ := hstep
    have hholds : (s.pc m).holds = some p := by
      rw [hpc]
      rfl
    have hi' := hi.drop .scheding hholds fun heq => ProcState.noConfusion heq
    exact ⟨que, hi'.congr rfl rfl rfl rfl rfl (hi'.placed.congr rfl fun _ => Iff.rfl) hi'.priority
      hi'.basepri rfl⟩
  | running m p =>
    obtain ⟨-, hstate, rfl⟩ := hstep
    exact ⟨que, hi.running hstate⟩
  | rebalance m pri =>
    obtain ⟨hpc, hpri, rfl⟩ := hstep
    exact ⟨que, hi.rebalance hpc hpri⟩
  | releaseintr m p =>
    obtain ⟨hpc, -, rfl⟩ := hstep
    have hnone : (s.pc m).holds = none := by
      rw [hpc]
      rfl
    exact ⟨que, hi.goto hnone rfl ⟨trivial, hi.priority p⟩⟩
  | released m p =>
    obtain ⟨hpc, rfl⟩ := hstep
    have hholds : (s.pc m).holds = some p := by
      rw [hpc]
      rfl
    exact ⟨que, hi.drop .waitrelease hholds fun heq => ProcState.noConfusion heq⟩
  | procpriority p pri =>
    obtain rfl := hstep
    exact ⟨que, hi.procpriority⟩
  | other =>
    obtain ⟨hends, hn, hnrdy, hrunvec, hrnext, hpriority, hbasepri, hpc, hpanicked, hstate⟩ := hstep
    have hready : ∀ p, t.state p = .ready ↔ s.state p = .ready := by
      intro p
      rcases hstate p with heq | ⟨hs, ht⟩
      · rw [heq]
      · exact ⟨fun h => absurd h ht, fun h => absurd h hs⟩
    refine ⟨que, hi.congr hends hrnext hrunvec hn hnrdy (hi.placed.congr hpc hready) ?_ ?_
      hpanicked⟩
    · rw [hpriority]
      exact hi.priority
    · rw [hbasepri]
      exact hi.basepri

/-! ### Runs -/

omit [DecidableEq P] [DecidableEq M] [Fintype P] in
/-- There is no process in the beginning. -/
theorem inv_init : Inv (State.init P M) fun _ => [] := by
  refine ⟨⟨fun _ => Fifo.nil, fun _ _ => rfl, fun p i j hp => ?_, fun i _ => ?_,
    fun _ _ => rfl, rfl⟩,
    ⟨fun p i hp => ?_, fun m p hp => ?_, fun m m' p hp => ?_, fun p hp => ?_, fun _ => trivial⟩,
    fun p => ?_, fun p => ?_, rfl⟩
  · cases hp
  · have hzero : (State.init P M).runvec.getLsbD i = false := BitVec.getLsbD_zero
    rw [hzero]
    simp
  · cases hp
  · cases hp
  · cases hp
  · cases hp
  · change 0 < nrq
    decide
  · change 0 < npriq
    decide

theorem inv_run {l : List (Act P M)} (hrun : Run State.Step (State.init P M) l s) :
    ∃ que, Inv s que := by
  refine hrun.inv (I := fun s => ∃ que, Inv s que) ?_ ⟨_, inv_init⟩
  rintro u a v ⟨que, hi⟩ hstep
  exact hi.step hstep

omit [DecidableEq P] [DecidableEq M] in
theorem Queues.queue_eq (hq : Queues s que) (i : ℕ) : s.queue i = que i :=
  walk_eq (hq.fifo i).linked (hq.length_le i)

omit [DecidableEq P] [DecidableEq M] in
/-- The invariant says that the books are kept. -/
theorem Inv.kept (hi : Inv s que) : s.Kept := by
  have hqueue := hi.queues.queue_eq
  refine ⟨fun i hin => ?_, fun i hin => ?_, fun i _ => ?_, hi.queues.nrdy, fun p hp hheld => ?_,
    fun i _ => ?_, fun p hheld i _ => ?_, fun i _ p hp => ?_, hi.panicked⟩
  · rw [hqueue]
    exact hi.queues.bit i hin
  · rw [hqueue]
    exact hi.queues.n i hin
  · rw [hqueue]
    exact (hi.queues.fifo i).tail
  · obtain ⟨i, hin⟩ := (hi.placed.ready p hp).resolve_right hheld
    refine ⟨i, ⟨?_, ?_⟩, fun j hj => ?_⟩
    · by_contra hge
      rw [hi.queues.range i (not_lt.1 hge)] at hin
      cases hin
    · rw [hqueue]
      exact hin
    · have hjn := hj.2
      rw [hqueue] at hjn
      exact hi.queues.one p j i hjn hin
  · rw [hqueue]
    exact (hi.queues.fifo i).nodup
  · obtain ⟨m, hm⟩ := hheld
    rw [hqueue]
    exact hi.placed.held m p hm i
  · rw [hqueue] at hp
    exact hi.placed.queued p i hp

/-- **The books of the run queues are kept**, between any two steps of any processors. And
`dequeueproc` returns nil, changing nothing, exactly when it does not get the lock, the process
is not on that queue, or it is still on a processor; otherwise it returns the process. -/
theorem runq_kept {l : List (Act P M)} (hrun : Run State.Step (State.init P M) l s) :
    s.Kept ∧ ∀ rq < nrq, ∀ p can,
      ((s.dequeueproc rq p can).2 = none ↔ can = false ∨ p ∉ s.queue rq ∨ s.mach p ≠ none) ∧
      ((s.dequeueproc rq p can).2 = none → (s.dequeueproc rq p can).1 = s) ∧
      ∀ q, (s.dequeueproc rq p can).2 = some q → q = p := by
  obtain ⟨que, hi⟩ := inv_run hrun
  refine ⟨hi.kept, fun rq hrq p can => ?_⟩
  rw [hi.queues.queue_eq]
  rcases hi.queues.dequeueproc hrq p can with
    ⟨hor, heq⟩ | ⟨⟨hcan, hin, hmach⟩, t, l, l', heq, -, -, -⟩
  · rw [heq]
    refine ⟨⟨fun _ => hor, fun _ => rfl⟩, fun _ => rfl, fun q hq => ?_⟩
    cases hq
  · rw [heq]
    refine ⟨⟨fun hnone => ?_, ?_⟩, fun hnone => ?_, fun q hq => (Option.some.inj hq).symm⟩
    · cases hnone
    · rintro (hoff | hout | hon)
      · rw [hcan] at hoff
        cases hoff
      · exact absurd hin hout
      · exact absurd hmach hon
    · cases hnone

/-- Two processes are made ready by two processors, and the second is taken out of the queue. -/
theorem runq_kept_two : ∃ s : State Bool Bool, Run State.Step (State.init Bool Bool)
    [.ready false false .no, .queueproc false 0 false, .ready true true .no, .queueproc true 0 true,
      .runproc true, .dequeueproc true .runproc 0 true true] s ∧ s.queue 0 = [false] ∧ s.Kept := by
  obtain ⟨s, hrun, hqueue⟩ : ∃ s : State Bool Bool, Run State.Step (State.init Bool Bool)
      [.ready false false .no, .queueproc false 0 false, .ready true true .no,
        .queueproc true 0 true, .runproc true, .dequeueproc true .runproc 0 true true] s ∧
      s.queue 0 = [false] := by
    refine ⟨_, .cons ⟨rfl, ?_, ?_, rfl⟩ (.cons ⟨rfl, rfl⟩ (.cons ⟨rfl, ?_, ?_, rfl⟩
      (.cons ⟨rfl, rfl⟩ (.cons ⟨rfl, rfl⟩ (.cons ⟨rfl, rfl⟩ (.nil _)))))), rfl⟩
    · exact fun heq => ProcState.noConfusion heq
    · rintro ⟨m, hm⟩
      cases m <;> cases hm
    · exact fun heq => ProcState.noConfusion heq
    · rintro ⟨m, hm⟩
      cases m <;> cases hm
  exact ⟨s, hrun, hqueue, (runq_kept hrun).1⟩

/-- **A process that was taken out is ready, and on no queue**, until `runproc` goes on. And before
that, a `dequeueproc` that did not get the lock had returned nil for it, on its queue and off the
processors as it was. -/
theorem runq_in_hand : ∃ s t : State Unit Unit, Run State.Step (State.init Unit Unit)
    [.ready () () .no, .queueproc () 0 (), .runproc ()] s ∧
    (() ∈ s.queue 0 ∧ s.mach () = none ∧ (s.dequeueproc 0 () false).2 = none) ∧
    s.Step (.dequeueproc () .runproc 0 () true) t ∧
    t.state () = .ready ∧ ∀ i < nrq, () ∉ t.queue i := by
  obtain ⟨s, t, hrun, hs, hstep, hready, hheld⟩ : ∃ s t : State Unit Unit,
      Run State.Step (State.init Unit Unit)
        [.ready () () .no, .queueproc () 0 (), .runproc ()] s ∧
      (() ∈ s.queue 0 ∧ s.mach () = none ∧ (s.dequeueproc 0 () false).2 = none) ∧
      s.Step (.dequeueproc () .runproc 0 () true) t ∧ t.state () = .ready ∧ t.Held () := by
    refine ⟨_, _, .cons ⟨rfl, ?_, ?_, rfl⟩ (.cons ⟨rfl, rfl⟩ (.cons ⟨rfl, rfl⟩ (.nil _))),
      ⟨List.mem_cons_self, rfl, rfl⟩, ⟨rfl, rfl⟩, rfl, ⟨(), rfl⟩⟩
    · exact fun heq => ProcState.noConfusion heq
    · rintro ⟨m, hm⟩
      cases hm
  obtain ⟨que, hi⟩ := inv_run (hrun.snoc hstep)
  exact ⟨s, t, hrun, hs, hstep, hready, hi.kept.held () hheld⟩

end RunQueue

end Kernel

end Plan9
