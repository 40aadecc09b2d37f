import Mathlib.Algebra.BigOperators.Ring.Finset
import Plan9.Kernel.Qlock

/-!
# Who waits for a queueing lock

The processes of a queue wait for its lock and are switched off, or are about to be; who
was taken out of the queue has the lock, even before `ready` is called for it
(`Plan9.Kernel.Qlock.Sound`). What is done to one process keeps this, and so does putting a
process into a queue (`Plan9.Kernel.Qlock.Sound.enqueue`), handing the lock to the first one
(`Plan9.Kernel.Qlock.Sound.handOver`) and waking a reader
(`Plan9.Kernel.Qlock.Sound.wakeReader`). The last section counts who is inside.
-/

namespace Plan9

namespace Kernel

namespace Qlock

open Lib List Function Option

variable {P Q W : Type}

/-! ### Processes and queues -/

section Processes

variable (s : State P Q W)

/-- A process that waits and cannot run. -/
structure Parked (p : P) (h : Hold Q W) : Prop where
  state : s.state p = h.state
  runq : s.runq p = false
  mach : s.pc p = .ret h → s.mach p = false

/-- A process that has what it waited for, and can run or does. -/
def Woken (p : P) (h : Hold Q W) : Prop :=
  s.state p = .ready ∧ s.runq p = true ∧ (s.pc p = .ret h → s.mach p = false) ∨
    s.state p = .running ∧ s.runq p = false ∧ s.mach p = true

/-- A process that waits for nothing. -/
def Active (p : P) : Prop :=
  s.state p = .ready ∧ s.runq p = true ∧ s.mach p = false ∨
    s.state p = .running ∧ s.runq p = false ∧ s.mach p = true

/-- Somebody is about to call `ready` for the process. -/
def Pending (p : P) : Prop := ∃ r, s.pc r = .ready p

/-- **The processes and the queues**: `que` are those in the queues. -/
structure Sound (que : Q ⊕ W → List P) : Prop where
  threaded : ∀ k, Threaded s.qnext (s.ends k) (que k)
  mem : ∀ k, ∀ p ∈ que k, ∃ h, s.waits p = some h ∧ h.lock = k
  pending : ∀ r p, s.pc r = .ready p → ∃ h, s.waits p = some h ∧ p ∉ que h.lock
  one : ∀ r r' p, s.pc r = .ready p → s.pc r' = .ready p → r = r'
  parked : ∀ p h, s.waits p = some h → p ∈ que h.lock ∨ Pending s p → Parked s p h
  woken : ∀ p h, s.waits p = some h → p ∉ que h.lock → ¬Pending s p → Woken s p h
  active : ∀ p, s.waits p = none → Active s p

/-- The pointers to the last processes are none where there are no processes. -/
def Trimmed : Prop := ∀ k, (s.ends k).head = none → (s.ends k).tail = none

end Processes

variable {s t : State P Q W} {que : Q ⊕ W → List P} {p p' : P} {h : Hold Q W}

theorem waits_goto_self [DecidableEq P] (c : Pc P Q W) : (s.goto p c).waits p = c.waits :=
  congrArg Pc.waits (update_self ..)

theorem waits_goto_of_ne [DecidableEq P] {c : Pc P Q W} (hp : p' ≠ p) :
    (s.goto p c).waits p' = s.waits p' :=
  congrArg Pc.waits (update_of_ne hp ..)

theorem Hold.state_ne_running (h : Hold Q W) : h.state ≠ .running := by
  cases h <;> exact fun heq => ProcState.noConfusion heq

/-- What a process has for itself is the same. -/
structure Same (s t : State P Q W) (p : P) : Prop where
  pc : t.pc p = s.pc p
  state : t.state p = s.state p
  mach : t.mach p = s.mach p
  runq : t.runq p = s.runq p

theorem Same.parked (h' : Same s t p) (hp : Parked s p h) : Parked t p h :=
  ⟨h'.state.trans hp.state, h'.runq.trans hp.runq, fun hpc => h'.mach.trans (hp.mach (h'.pc ▸ hpc))⟩

theorem Same.woken (h' : Same s t p) (hp : Woken s p h) : Woken t p h := by
  rw [Woken, h'.state, h'.runq, h'.mach, h'.pc]
  exact hp

theorem Same.active (h' : Same s t p) (hp : Active s p) : Active t p := by
  rw [Active, h'.state, h'.runq, h'.mach]
  exact hp

theorem Same.waits (h' : Same s t p) : t.waits p = s.waits p := by
  rw [State.waits, h'.pc, State.waits]

namespace Sound

section

variable (hs : Sound s que)

include hs

/-- No process is in two queues. -/
theorem lock_eq {k : Q ⊕ W} (hp : p ∈ que k) (hw : s.waits p = some h) :
    h.lock = k := by
  obtain ⟨h', hw', rfl⟩ := hs.mem k p hp
  rw [hw] at hw'
  rw [some.inj hw']

theorem not_mem (hp : s.waits p = none) (k : Q ⊕ W) : p ∉ que k := by
  intro hin
  obtain ⟨h, hw, -⟩ := hs.mem k p hin
  rw [hp] at hw
  cases hw

theorem not_pending (hp : s.waits p = none) : ¬Pending s p := by
  rintro ⟨r, hr⟩
  obtain ⟨h, hw, -⟩ := hs.pending r p hr
  rw [hp] at hw
  cases hw

/-- A process that is in no hurry: it waits, but it runs. -/
theorem of_running (hw : s.waits p = some h) (hrun : s.state p = .running) :
    p ∉ que h.lock ∧ ¬Pending s p := by
  rw [← not_or]
  intro hpark
  have hstate := (hs.parked p h hw hpark).state
  rw [hrun] at hstate
  exact h.state_ne_running hstate.symm

/-- Only the processes and the queues matter. -/
theorem congr (hends : t.ends = s.ends) (hqnext : t.qnext = s.qnext)
    (hpc : t.pc = s.pc) (hstate : t.state = s.state) (hmach : t.mach = s.mach)
    (hrunq : t.runq = s.runq) : Sound t que := by
  cases s
  cases t
  subst hends hqnext hpc hstate hmach hrunq
  exact ⟨hs.threaded, hs.mem, hs.pending, hs.one,
    fun p h hw hin => ⟨(hs.parked p h hw hin).1, (hs.parked p h hw hin).2,
      (hs.parked p h hw hin).3⟩, hs.woken, hs.active⟩

/-- **A step of one process that changes no queue and wakes nobody.** -/
theorem alone (hends : t.ends = s.ends) (hqnext : t.qnext = s.qnext)
    (hsame : ∀ q, q ≠ p → Same s t q) (hready : ∀ q, t.pc p = .ready q ↔ s.pc p = .ready q)
    (hwaits : t.waits p = s.waits p) (hparked : ∀ h, s.waits p = some h → Parked s p h →
      Parked t p h)
    (hwoken : ∀ h, s.waits p = some h → Woken s p h → Woken t p h)
    (hactive : Active s p → Active t p) : Sound t que := by
  have hw : ∀ q, t.waits q = s.waits q := by
    intro q
    by_cases hq : q = p
    · rw [hq, hwaits]
    · exact (hsame q hq).waits
  have hr : ∀ r q, t.pc r = .ready q ↔ s.pc r = .ready q := by
    intro r q
    by_cases hq : r = p
    · rw [hq, hready]
    · rw [(hsame r hq).pc]
  have hpend : ∀ q, Pending t q ↔ Pending s q := fun q => exists_congr fun r => hr r q
  refine ⟨fun k => ?_, fun k q hq => ?_, fun r q hrq => ?_, fun r r' q hrq hrq' => ?_,
    fun q h' hq hin => ?_, fun q h' hq hin hnot => ?_, fun q hq => ?_⟩
  · rw [hends, hqnext]
    exact hs.threaded k
  · rw [hw]
    exact hs.mem k q hq
  · rw [hw]
    exact hs.pending r q ((hr r q).1 hrq)
  · exact hs.one r r' q ((hr r q).1 hrq) ((hr r' q).1 hrq')
  · rw [hw] at hq
    rw [hpend] at hin
    have hold := hs.parked q h' hq hin
    by_cases hqp : q = p
    · subst hqp
      exact hparked h' hq hold
    · exact (hsame q hqp).parked hold
  · rw [hw] at hq
    rw [hpend] at hnot
    have hold := hs.woken q h' hq hin hnot
    by_cases hqp : q = p
    · subst hqp
      exact hwoken h' hq hold
    · exact (hsame q hqp).woken hold
  · rw [hw] at hq
    have hold := hs.active q hq
    by_cases hqp : q = p
    · subst hqp
      exact hactive hold
    · exact (hsame q hqp).active hold

/-- A process returns to its caller with the lock. -/
theorem leave [DecidableEq P] (hends : t.ends = s.ends)
    (hqnext : t.qnext = s.qnext) (hpc : t.pc = update s.pc p .run)
    (hstate : t.state = s.state) (hmach : t.mach = s.mach) (hrunq : t.runq = s.runq)
    (hw : s.waits p = some h) (hrun : s.state p = .running) : Sound t que := by
  obtain ⟨hnot, hidle⟩ := hs.of_running hw hrun
  have hsame : ∀ q, q ≠ p → Same s t q := fun q hq =>
    ⟨by rw [hpc, update_of_ne hq], by rw [hstate], by rw [hmach], by rw [hrunq]⟩
  have hready : ∀ r q, t.pc r = .ready q → s.pc r = .ready q := by
    intro r q hr
    by_cases hrp : r = p
    · rw [hpc, hrp, update_self] at hr
      cases hr
    · rwa [(hsame r hrp).pc] at hr
  have hready' : ∀ r q, s.pc r = .ready q → t.pc r = .ready q := by
    intro r q hr
    by_cases hrp : r = p
    · rw [State.waits, ← hrp, hr] at hw
      cases hw
    · rwa [(hsame r hrp).pc]
  have hpend : ∀ q, Pending t q ↔ Pending s q := fun q =>
    exists_congr fun r => ⟨hready r q, hready' r q⟩
  have hnone : t.waits p = none := by
    rw [State.waits, hpc, update_self]
    rfl
  have hne : ∀ {q h'}, t.waits q = some h' → q ≠ p := by
    rintro q h' hq rfl
    rw [hnone] at hq
    cases hq
  refine ⟨fun k => ?_, fun k q hq => ?_, fun r q hr => ?_, fun r r' q hr hr' =>
    hs.one r r' q (hready r q hr) (hready r' q hr'), fun q h' hq hin => ?_,
    fun q h' hq hin hidle' => ?_, fun q hq => ?_⟩
  · rw [hends, hqnext]
    exact hs.threaded k
  · have hqp : q ≠ p := by
      rintro rfl
      rw [hs.lock_eq hq hw] at hnot
      exact hnot hq
    rw [(hsame q hqp).waits]
    exact hs.mem k q hq
  · obtain ⟨h', hq, hin⟩ := hs.pending r q (hready r q hr)
    have hqp : q ≠ p := by
      rintro rfl
      exact hidle ⟨r, hready r q hr⟩
    exact ⟨h', (hsame q hqp).waits.trans hq, hin⟩
  · have hqp := hne hq
    rw [(hsame q hqp).waits] at hq
    rw [hpend] at hin
    exact (hsame q hqp).parked (hs.parked q h' hq hin)
  · have hqp := hne hq
    rw [(hsame q hqp).waits] at hq
    rw [hpend] at hidle'
    exact (hsame q hqp).woken (hs.woken q h' hq hin hidle')
  · by_cases hqp : q = p
    · subst hqp
      rcases hs.woken q h hw hnot hidle with ⟨hrdy, -⟩ | ⟨-, hoff, hon⟩
      · rw [hrun] at hrdy
        cases hrdy
      · exact .inr ⟨by rw [hstate, hrun], by rw [hrunq, hoff], by rw [hmach, hon]⟩
    · rw [(hsame q hqp).waits] at hq
      exact (hsame q hqp).active (hs.active q hq)

/-- `ready` is called for a process that was handed a lock. -/
theorem wake [DecidableEq P] (hends : t.ends = s.ends)
    (hqnext : t.qnext = s.qnext) (hpc : t.pc = update s.pc p .run)
    (hstate : t.state = update s.state p' .ready) (hmach : t.mach = s.mach)
    (hrunq : t.runq = update s.runq p' true) (hp : s.pc p = .ready p') :
    Sound t que := by
  obtain ⟨h, hw, hnot⟩ := hs.pending p p' hp
  have hwp : s.waits p = none := by
    rw [State.waits, hp]
    rfl
  have hne : p' ≠ p := by
    rintro rfl
    rw [hwp] at hw
    cases hw
  have hwaits : ∀ q, t.waits q = s.waits q := by
    intro q
    by_cases hqp : q = p
    · rw [State.waits, hpc, hqp, update_self, hwp]
      rfl
    · rw [State.waits, hpc, update_of_ne hqp, State.waits]
  have hready : ∀ r q, t.pc r = .ready q → s.pc r = .ready q ∧ r ≠ p := by
    intro r q hr
    by_cases hrp : r = p
    · rw [hpc, hrp, update_self] at hr
      cases hr
    · rw [hpc, update_of_ne hrp] at hr
      exact ⟨hr, hrp⟩
  have hpend : ∀ q, q ≠ p' → (Pending t q ↔ Pending s q) := by
    intro q hq
    refine exists_congr fun r => ⟨fun hr => (hready r q hr).1, fun hr => ?_⟩
    have hrp : r ≠ p := by
      rintro rfl
      rw [hp] at hr
      cases hr
      exact hq rfl
    rw [hpc, update_of_ne hrp, hr]
  have hidle : ¬Pending t p' := by
    rintro ⟨r, hr⟩
    obtain ⟨hr, hrp⟩ := hready r p' hr
    exact hrp (hs.one r p p' hr hp)
  have hsame : ∀ q, q ≠ p → q ≠ p' → Same s t q := fun q hqp hqp' =>
    ⟨by rw [hpc, update_of_ne hqp], by rw [hstate, update_of_ne hqp'],
      by rw [hmach], by rw [hrunq, update_of_ne hqp']⟩
  have hwaiting : ∀ {q h'}, s.waits q = some h' → q ≠ p := by
    rintro q h' hq rfl
    rw [hwp] at hq
    cases hq
  refine ⟨fun k => ?_, fun k q hq => ?_, fun r q hr => ?_, fun r r' q hr hr' =>
    hs.one r r' q (hready r q hr).1 (hready r' q hr').1, fun q h' hq hin => ?_,
    fun q h' hq hin hidle' => ?_, fun q hq => ?_⟩
  · rw [hends, hqnext]
    exact hs.threaded k
  · rw [hwaits]
    exact hs.mem k q hq
  · rw [hwaits]
    exact hs.pending r q (hready r q hr).1
  · rw [hwaits] at hq
    have hqp' : q ≠ p' := by
      rintro rfl
      rw [hw] at hq
      cases hq
      exact hin.elim hnot hidle
    rw [hpend q hqp'] at hin
    exact (hsame q (hwaiting hq) hqp').parked (hs.parked q h' hq hin)
  · rw [hwaits] at hq
    by_cases hqp' : q = p'
    · subst hqp'
      have hpark := hs.parked q h' hq (.inr ⟨p, hp⟩)
      refine .inl ⟨by rw [hstate, update_self], by rw [hrunq, update_self], fun hret => ?_⟩
      rw [hpc, update_of_ne hne] at hret
      rw [hmach]
      exact hpark.mach hret
    · rw [hpend q hqp'] at hidle'
      exact (hsame q (hwaiting hq) hqp').woken (hs.woken q h' hq hin hidle')
  · rw [hwaits] at hq
    have hqp' : q ≠ p' := by
      rintro rfl
      rw [hw] at hq
      cases hq
    have hold := hs.active q hq
    rw [Active, hstate, hrunq, hmach, update_of_ne hqp', update_of_ne hqp']
    exact hold

end

end Sound

/-! ### Putting into a queue and taking out -/

section Queues

variable [DecidableEq P] [DecidableEq Q] [DecidableEq W] {k : Q ⊕ W} {l : List P}

/-- **A process is put into a queue.** -/
theorem Sound.enqueue (hs : Sound s que) (htrim : Trimmed s) (hp : s.pc p = .run)
    (hmach : s.mach p = true) :
    Sound (s.enqueue p h) (update que h.lock (que h.lock ++ [p])) ∧ Trimmed (s.enqueue p h) := by
  have hwp : s.waits p = none := by
    rw [State.waits, hp]
    rfl
  have hidle := hs.not_pending hwp
  have hrunq : s.runq p = false := by
    rcases hs.active p hwp with ⟨-, -, hoff⟩ | ⟨-, hoff, -⟩
    · rw [hmach] at hoff
      cases hoff
    · exact hoff
  have hsame : ∀ q, q ≠ p → Same s (s.enqueue p h) q := fun q hq =>
    ⟨update_of_ne hq .., update_of_ne hq .., rfl, rfl⟩
  have hpc : (s.enqueue p h).pc p = .sched h := update_self ..
  have hwaits : (s.enqueue p h).waits p = some h := by
    rw [State.waits, hpc]
    rfl
  have hready : ∀ r q, (s.enqueue p h).pc r = .ready q ↔ s.pc r = .ready q := by
    intro r q
    by_cases hrp : r = p
    · rw [hrp, hpc, hp]
      exact iff_of_false nofun nofun
    · rw [(hsame r hrp).pc]
  have hpend : ∀ q, Pending (s.enqueue p h) q ↔ Pending s q := fun q =>
    exists_congr fun r => hready r q
  have hmem : ∀ {q k}, q ≠ p → (q ∈ update que h.lock (que h.lock ++ [p]) k ↔ q ∈ que k) := by
    intro q k hq
    by_cases hk : k = h.lock
    · rw [hk, update_self, mem_append, mem_singleton]
      exact ⟨fun hin => hin.resolve_right hq, .inl⟩
    · rw [update_of_ne hk]
  have hqnext : ∀ q, q ≠ p → (s.ends h.lock).tail ≠ some q →
      (s.enqueue p h).qnext q = s.qnext q := by
    intro q hq htail
    rw [State.enqueue]
    simp only
    rw [update_of_ne hq]
    cases ht : (s.ends h.lock).tail with
    | none => rfl
    | some t =>
      rw [ht] at htail
      have hne : q ≠ t := fun heq => htail (congrArg some heq.symm)
      exact update_of_ne hne ..
  have hends : ∀ k, k ≠ h.lock → (s.enqueue p h).ends k = s.ends k := fun k hk =>
    update_of_ne hk ..
  have hself : (s.enqueue p h).ends h.lock =
      ⟨(s.ends h.lock).tail.elim (some p) fun _ => (s.ends h.lock).head, some p⟩ :=
    update_self ..
  have hfifo := (hs.threaded h.lock).fifo (htrim h.lock)
  refine ⟨⟨fun k => ?_, fun k q hq => ?_, fun r q hr => ?_, fun r r' q hr hr' =>
    hs.one r r' q ((hready r q).1 hr) ((hready r' q).1 hr'), fun q h' hq hin => ?_,
    fun q h' hq hin hnot => ?_, fun q hq => ?_⟩, fun k hk => ?_⟩
  · by_cases hk : k = h.lock
    · rw [hk, update_self]
      refine (hfifo.push (hs.not_mem hwp h.lock) ?_ (fun t ht => ?_) (fun q hq hne =>
        hqnext q (fun heq => hs.not_mem hwp h.lock (heq ▸ hq)) hne) ?_ ?_).threaded
      · exact update_self ..
      · have hin : t ∈ que h.lock := by
          rw [hfifo.tail] at ht
          exact List.mem_of_getLast? ht
        have htp : t ≠ p := fun heq => hs.not_mem hwp h.lock (heq ▸ hin)
        rw [State.enqueue]
        simp only
        rw [update_of_ne htp, ht]
        exact update_self ..
      · rw [hself]
        cases (s.ends h.lock).tail with
        | none => rfl
        | some t => exact (if_neg (some_ne_none t)).symm
      · rw [hself]
    · rw [update_of_ne hk, hends k hk]
      refine (hs.threaded k).congr fun q hq => hqnext q ?_ fun htail => ?_
      · rintro rfl
        exact hs.not_mem hwp k hq
      · rw [hfifo.tail] at htail
        obtain ⟨h', hw', rfl⟩ := hs.mem k q hq
        exact hk (hs.lock_eq (List.mem_of_getLast? htail) hw')
  · by_cases hqp : q = p
    · subst hqp
      refine ⟨h, hwaits, ?_⟩
      by_contra hne
      rw [update_of_ne (Ne.symm hne)] at hq
      exact hs.not_mem hwp k hq
    · rw [(hsame q hqp).waits]
      exact hs.mem k q ((hmem hqp).1 hq)
  · have hold := (hready r q).1 hr
    obtain ⟨h', hw', hnot⟩ := hs.pending r q hold
    have hqp : q ≠ p := fun heq => hidle ⟨r, heq ▸ hold⟩
    exact ⟨h', (hsame q hqp).waits.trans hw', fun hin => hnot ((hmem hqp).1 hin)⟩
  · by_cases hqp : q = p
    · subst hqp
      rw [hwaits] at hq
      cases hq
      refine ⟨update_self .., hrunq, fun hret => ?_⟩
      rw [hpc] at hret
      cases hret
    · rw [(hsame q hqp).waits] at hq
      rw [hpend, hmem hqp] at hin
      exact (hsame q hqp).parked (hs.parked q h' hq hin)
  · by_cases hqp : q = p
    · subst hqp
      rw [hwaits] at hq
      cases hq
      rw [update_self] at hin
      exact absurd (mem_append_right _ (mem_singleton_self q)) hin
    · rw [(hsame q hqp).waits] at hq
      rw [hpend] at hnot
      rw [hmem hqp] at hin
      exact (hsame q hqp).woken (hs.woken q h' hq hin hnot)
  · have hqp : q ≠ p := by
      rintro rfl
      rw [hwaits] at hq
      cases hq
    rw [(hsame q hqp).waits] at hq
    exact (hsame q hqp).active (hs.active q hq)
  · by_cases hkl : k = h.lock
    · rw [hkl, hself] at hk
      simp only at hk
      cases ht : (s.ends h.lock).tail with
      | none =>
        rw [ht] at hk
        cases hk
      | some t =>
        rw [ht] at hk
        have hnone := htrim h.lock hk
        rw [ht] at hnone
        cases hnone
    · rw [hends k hkl] at hk ⊢
      exact htrim k hk

omit [DecidableEq P] [DecidableEq Q] [DecidableEq W] in
/-- Nobody is to call `ready` for a process that is in a queue. -/
theorem Sound.idle (hs : Sound s que) (hin : p ∈ que k) : ¬Pending s p := by
  rintro ⟨r, hr⟩
  obtain ⟨h, hw, hlock⟩ := hs.mem k p hin
  obtain ⟨h', hw', hnot⟩ := hs.pending r p hr
  rw [hw] at hw'
  cases hw'
  rw [hlock] at hnot
  exact hnot hin

omit [DecidableEq P] in
/-- Who else is in the queues when the first one of a queue has left. -/
theorem mem_popped {k' : Q ⊕ W} {q : P} (hque : que k = p :: l) (hq : q ≠ p) :
    q ∈ update que k l k' ↔ q ∈ que k' := by
  by_cases hk : k' = k
  · rw [hk, update_self, hque, mem_cons]
    exact ⟨.inr, fun hin => hin.resolve_left hq⟩
  · rw [update_of_ne hk]

omit [DecidableEq P] in
/-- Everyone left in the queues waits for the lock of his queue. -/
theorem Sound.mem_pop {k' : Q ⊕ W} {q : P} (hs : Sound s que) (hque : que k = p :: l)
    (hq : q ∈ update que k l k') : ∃ h, s.waits q = some h ∧ h.lock = k' := by
  by_cases hk : k' = k
  · rw [hk, update_self] at hq
    rw [hk]
    exact hs.mem k q (by rw [hque]; exact mem_cons_of_mem p hq)
  · rw [update_of_ne hk] at hq
    exact hs.mem k' q hq

/-- **The first process of a queue is handed the lock**, and waits for a call of `ready`. -/
theorem Sound.handOver (hs : Sound s que) (htrim : Trimmed s) (hp : s.pc p = .run)
    (hque : que k = p' :: l) : Sound (s.handOver k p p') (update que k l) ∧
      Trimmed (s.handOver k p p') := by
  have hwp : s.waits p = none := by
    rw [State.waits, hp]
    rfl
  have hp' : p' ∈ que k := by
    rw [hque]
    exact mem_cons_self
  obtain ⟨h, hw, hlock⟩ := hs.mem k p' hp'
  have hnodup := (hs.threaded k).nodup
  rw [hque, nodup_cons] at hnodup
  have hidle := hs.idle hp'
  have hends : (s.handOver k p p').ends = update s.ends k
      ⟨s.qnext p', if s.qnext p' = none then none else (s.ends k).tail⟩ := by
    rw [State.handOver, State.goto, State.trim, State.unlink]
    simp only [update_self]
    split
    next hnil => simp [hnil]
    next => rfl
  have hqnext : (s.handOver k p p').qnext = s.qnext := by
    rw [State.handOver, State.goto, State.trim]
    split <;> rfl
  have hpc : (s.handOver k p p').pc = update s.pc p (.ready p') := by
    rw [State.handOver, State.goto, State.trim]
    split <;> rfl
  have hrest : (s.handOver k p p').state = s.state ∧ (s.handOver k p p').mach = s.mach ∧
      (s.handOver k p p').runq = s.runq := by
    rw [State.handOver, State.goto, State.trim]
    split <;> exact ⟨rfl, rfl, rfl⟩
  generalize s.handOver k p p' = t at *
  have hsame : ∀ q, q ≠ p → Same s t q := fun q hq =>
    ⟨by rw [hpc, update_of_ne hq], by rw [hrest.1], by rw [hrest.2.1], by rw [hrest.2.2]⟩
  have hwaits : ∀ q, t.waits q = s.waits q := by
    intro q
    by_cases hqp : q = p
    · rw [State.waits, hpc, hqp, update_self, hwp]
      rfl
    · exact (hsame q hqp).waits
  have hready : ∀ r q, t.pc r = .ready q ↔ r = p ∧ q = p' ∨ s.pc r = .ready q := by
    intro r q
    by_cases hrp : r = p
    · rw [hrp, hpc, update_self, hp]
      constructor
      · intro heq
        cases heq
        exact .inl ⟨rfl, rfl⟩
      · rintro (⟨-, rfl⟩ | heq)
        · rfl
        · cases heq
    · rw [(hsame r hrp).pc]
      exact ⟨.inr, fun hor => hor.resolve_left fun heq => hrp heq.1⟩
  have hpend : ∀ q, q ≠ p' → (Pending t q ↔ Pending s q) := fun q hq =>
    exists_congr fun r => (hready r q).trans
      ⟨fun hor => hor.resolve_left fun heq => hq heq.2, .inr⟩
  have hmem : ∀ {q k'}, q ≠ p' → (q ∈ update que k l k' ↔ q ∈ que k') := mem_popped hque
  have hout : p' ∉ update que k l h.lock := by
    rw [hlock, update_self]
    exact hnodup.1
  refine ⟨⟨fun k' => ?_, fun k' q hq => ?_, fun r q hr => ?_, fun r r' q hr hr' => ?_,
    fun q h' hq hin => ?_, fun q h' hq hin hnot => ?_, fun q hq => ?_⟩, fun k' hk' => ?_⟩
  · rw [hqnext, hends]
    by_cases hk : k' = k
    · rw [hk, update_self, update_self]
      have hold := (hs.threaded k).fifo (htrim k)
      rw [hque] at hold
      exact (hold.pop rfl rfl).threaded
    · rw [update_of_ne hk, update_of_ne hk]
      exact hs.threaded k'
  · rw [hwaits]
    exact hs.mem_pop hque hq
  · rw [hwaits]
    rcases (hready r q).1 hr with ⟨-, rfl⟩ | hr
    · exact ⟨h, hw, hout⟩
    · obtain ⟨h', hw', hnot⟩ := hs.pending r q hr
      have hqp : q ≠ p' := fun heq => hidle ⟨r, heq ▸ hr⟩
      exact ⟨h', hw', fun hin => hnot ((hmem hqp).1 hin)⟩
  · rcases (hready r q).1 hr with ⟨rfl, rfl⟩ | hr
    · rcases (hready r' q).1 hr' with ⟨rfl, -⟩ | hr'
      · rfl
      · exact absurd ⟨r', hr'⟩ hidle
    · rcases (hready r' q).1 hr' with ⟨rfl, rfl⟩ | hr'
      · exact absurd ⟨r, hr⟩ hidle
      · exact hs.one r r' q hr hr'
  · rw [hwaits] at hq
    have hqp : q ≠ p := by
      rintro rfl
      rw [hwp] at hq
      cases hq
    refine (hsame q hqp).parked (hs.parked q h' hq ?_)
    by_cases hqp' : q = p'
    · subst hqp'
      rw [hw] at hq
      cases hq
      rw [hlock]
      exact .inl hp'
    · rwa [hpend q hqp', hmem hqp'] at hin
  · rw [hwaits] at hq
    have hqp : q ≠ p := by
      rintro rfl
      rw [hwp] at hq
      cases hq
    have hqp' : q ≠ p' := by
      rintro rfl
      exact hnot ⟨p, (hready p q).2 (.inl ⟨rfl, rfl⟩)⟩
    rw [hpend q hqp'] at hnot
    rw [hmem hqp'] at hin
    exact (hsame q hqp).woken (hs.woken q h' hq hin hnot)
  · rw [hwaits] at hq
    have hold := hs.active q hq
    rw [Active, hrest.1, hrest.2.1, hrest.2.2]
    exact hold
  · rw [hends] at hk' ⊢
    by_cases hk : k' = k
    · rw [hk, update_self] at hk' ⊢
      exact if_pos hk'
    · rw [update_of_ne hk] at hk' ⊢
      exact htrim k' hk'

/-- **A reader in front is woken**, in the section of `wunlock`. -/
theorem Sound.wakeReader {w : W} (hs : Sound s que) (hque : que (.inr w) = p :: l) :
    Sound (s.wakeReader w p) (update que (.inr w) l) := by
  have hp : p ∈ que (.inr w) := by
    rw [hque]
    exact mem_cons_self
  obtain ⟨h, hw, hlock⟩ := hs.mem _ p hp
  have hold := hs.threaded (.inr w)
  rw [hque] at hold
  have hnodup := nodup_cons.1 hold.nodup
  have hidle := hs.idle hp
  have hends : (s.wakeReader w p).ends = update s.ends (.inr w)
      ⟨s.qnext p, (s.ends (.inr w)).tail⟩ := rfl
  have hqnext : (s.wakeReader w p).qnext = s.qnext := rfl
  have hpc : (s.wakeReader w p).pc = s.pc := rfl
  have hmach : (s.wakeReader w p).mach = s.mach := rfl
  have hstate : (s.wakeReader w p).state = update s.state p .ready := rfl
  have hrunq : (s.wakeReader w p).runq = update s.runq p true := rfl
  generalize s.wakeReader w p = t at *
  have hsame : ∀ q, q ≠ p → Same s t q := fun q hq =>
    ⟨by rw [hpc], by rw [hstate, update_of_ne hq], by rw [hmach], by rw [hrunq, update_of_ne hq]⟩
  have hwaits : ∀ q, t.waits q = s.waits q := fun q => by rw [State.waits, hpc, State.waits]
  have hpend : ∀ q, Pending t q ↔ Pending s q := fun q => by rw [Pending, hpc, Pending]
  have hmem : ∀ {q k'}, q ≠ p → (q ∈ update que (.inr w) l k' ↔ q ∈ que k') :=
    mem_popped hque
  have hout : p ∉ update que (.inr w) l h.lock := by
    rw [hlock, update_self]
    exact hnodup.1
  refine ⟨fun k' => ?_, fun k' q hq => ?_, fun r q hr => ?_, fun r r' q hr hr' => ?_,
    fun q h' hq hin => ?_, fun q h' hq hin hnot => ?_, fun q hq => ?_⟩
  · rw [hqnext, hends]
    by_cases hk : k' = .inr w
    · rw [hk, update_self, update_self]
      exact hold.pop rfl rfl
    · rw [update_of_ne hk, update_of_ne hk]
      exact hs.threaded k'
  · rw [hwaits]
    exact hs.mem_pop hque hq
  · rw [hwaits]
    rw [hpc] at hr
    obtain ⟨h', hw', hnot⟩ := hs.pending r q hr
    have hqp : q ≠ p := fun heq => hidle ⟨r, heq ▸ hr⟩
    exact ⟨h', hw', fun hin => hnot ((hmem hqp).1 hin)⟩
  · rw [hpc] at hr hr'
    exact hs.one r r' q hr hr'
  · rw [hwaits] at hq
    rw [hpend] at hin
    have hqp : q ≠ p := by
      rintro rfl
      rw [hw] at hq
      cases hq
      exact hin.elim hout hidle
    rw [hmem hqp] at hin
    exact (hsame q hqp).parked (hs.parked q h' hq hin)
  · rw [hwaits] at hq
    rw [hpend] at hnot
    by_cases hqp : q = p
    · subst hqp
      have hpark := hs.parked q h' hq (.inl (by rw [hs.lock_eq hp hq]; exact hp))
      refine .inl ⟨by rw [hstate, update_self], by rw [hrunq, update_self], ?_⟩
      rw [hpc, hmach]
      exact hpark.mach
    · rw [hmem hqp] at hin
      exact (hsame q hqp).woken (hs.woken q h' hq hin hnot)
  · rw [hwaits] at hq
    have hqp : q ≠ p := by
      rintro rfl
      rw [hw] at hq
      cases hq
    exact (hsame q hqp).active (hs.active q hq)

end Queues

/-! ### Counting -/

section Counts

/-- How often a process is inside. -/
def ins [DecidableEq P] [DecidableEq Q] [DecidableEq W] (s : State P Q W) (que : Q ⊕ W → List P)
    (p : P) (h : Hold Q W) : ℕ :=
  (s.holds p).count h + if s.waits p = some h ∧ p ∉ que h.lock then 1 else 0

variable [DecidableEq P] [DecidableEq Q] [DecidableEq W] [Fintype P]

/-- How many are inside. -/
def tot (s : State P Q W) (que : Q ⊕ W → List P) (h : Hold Q W) : ℕ := ∑ p, ins s que p h

variable {que' : Q ⊕ W → List P} {h₀ : Hold Q W}

/-- One process enters or leaves, at most. -/
theorem tot_add {n m : ℕ} (hsame : ∀ q, q ≠ p → ins t que' q h = ins s que q h)
    (hp : ins t que' p h + n = ins s que p h + m) : tot t que' h + n = tot s que h + m := by
  rw [tot, tot, ← Finset.add_sum_erase _ _ (Finset.mem_univ p),
    ← Finset.add_sum_erase _ _ (Finset.mem_univ p),
    Finset.sum_congr rfl fun q hq => hsame q (Finset.ne_of_mem_erase hq)]
  omega

theorem tot_congr (hholds : t.holds = s.holds) (hwaits : ∀ q, t.waits q = s.waits q) :
    tot t que h = tot s que h := by
  refine Finset.sum_congr rfl fun q _ => ?_
  rw [ins, ins, hholds, hwaits]

/-- One process more is inside `h₀`. -/
def Enters (s t : State P Q W) (que que' : Q ⊕ W → List P) (h₀ : Hold Q W) : Prop :=
  ∀ h, tot t que' h = tot s que h + if h = h₀ then 1 else 0

theorem Enters.other (he : Enters s t que que' h₀) (hne : h ≠ h₀) :
    tot t que' h = tot s que h := by
  rw [he, if_neg hne, Nat.add_zero]

theorem Enters.self (he : Enters s t que que' h) : tot t que' h = tot s que h + 1 := by
  rw [he, if_pos rfl]

theorem tot_take : Enters s (s.take p h₀) que que h₀ := by
  intro h
  refine tot_add (p := p) (n := 0) (fun q hq => ?_) ?_
  · rw [ins, ins, State.take]
    simp only
    rw [update_of_ne hq]
    rfl
  · have hholds : (s.take p h₀).holds p = h₀ :: s.holds p := update_self ..
    have hwaits : (s.take p h₀).waits p = s.waits p := rfl
    rw [ins, ins, hholds, hwaits, count_cons]
    by_cases hh : h = h₀
    · subst hh
      simp
      omega
    · simp [hh, Ne.symm hh]

theorem tot_drop (hin : h₀ ∈ s.holds p) :
    tot (s.drop p h₀) que h + (if h = h₀ then 1 else 0) = tot s que h := by
  refine tot_add (p := p) (m := 0) (fun q hq => ?_) ?_
  · rw [ins, ins, State.drop]
    simp only
    rw [update_of_ne hq]
    rfl
  · have hholds : (s.drop p h₀).holds p = (s.holds p).erase h₀ := update_self ..
    have hwaits : (s.drop p h₀).waits p = s.waits p := rfl
    rw [ins, ins, hholds, hwaits]
    by_cases hh : h = h₀
    · subst hh
      have hpos : 0 < (s.holds p).count h := count_pos_iff.2 hin
      rw [count_erase_self, if_pos rfl]
      omega
    · rw [count_erase_of_ne hh, if_neg hh]

/-- Elsewhere nothing changes when a lock is given back. -/
theorem tot_drop_other (hin : h₀ ∈ s.holds p) (hne : h ≠ h₀) :
    tot (s.drop p h₀) que h = tot s que h := by
  rw [← tot_drop hin, if_neg hne, Nat.add_zero]

/-- Who is taken out of a queue is inside. -/
theorem tot_pop {k : Q ⊕ W} {l : List P} (hholds : t.holds = s.holds)
    (hwaits : ∀ q, t.waits q = s.waits q) (hque : que k = p :: l) (hnodup : p ∉ l)
    (hw : s.waits p = some h₀) (hlock : h₀.lock = k) :
    Enters s t que (update que k l) h₀ := by
  intro h
  refine tot_add (p := p) (n := 0) (fun q hq => ?_) ?_
  · have hmem : q ∈ update que k l h.lock ↔ q ∈ que h.lock := mem_popped hque hq
    simp only [ins, hholds, hwaits, hmem]
  · rw [ins, ins, hholds, hwaits, hw]
    by_cases hh : h = h₀
    · subst hh
      simp [hlock, hque, hnodup]
    · have hne : ¬some h₀ = some h := fun heq => hh (some.inj heq).symm
      simp [hne, hh]

/-- Who is put into a queue is not inside. -/
theorem tot_push {k : Q ⊕ W} {l : List P} (hholds : t.holds = s.holds)
    (hsame : ∀ q, q ≠ p → t.waits q = s.waits q) (hmem : ∀ q, q ≠ p → (q ∈ l ↔ q ∈ que k))
    (hwp : s.waits p = none) (hw : t.waits p = some h₀) (hlock : h₀.lock = k) (hin : p ∈ l) :
    tot t (update que k l) h = tot s que h := by
  refine tot_add (p := p) (n := 0) (m := 0) (fun q hq => ?_) ?_
  · have hmem' : q ∈ update que k l h.lock ↔ q ∈ que h.lock := by
      by_cases hk : h.lock = k
      · rw [hk, update_self]
        exact hmem q hq
      · rw [update_of_ne hk]
    simp only [ins, hholds, hsame q hq, hmem']
  · rw [ins, ins, hholds, hwp, hw]
    by_cases hh : h = h₀
    · subst hh
      simp [hlock, hin]
    · have hne : ¬some h₀ = some h := fun heq => hh (some.inj heq).symm
      simp [hne]

/-- Who returns to its caller was inside. -/
theorem tot_return (hholds : t.holds = update s.holds p (h₀ :: s.holds p))
    (hsame : ∀ q, q ≠ p → t.waits q = s.waits q) (hw : s.waits p = some h₀)
    (hwp : t.waits p = none) (hout : p ∉ que h₀.lock) : tot t que h = tot s que h := by
  refine tot_add (p := p) (n := 0) (m := 0) (fun q hq => ?_) ?_
  · rw [ins, ins, hholds, hsame q hq, update_of_ne hq]
  · rw [ins, ins, hholds, hwp, hw, update_self, count_cons]
    by_cases hh : h = h₀
    · subst hh
      simp [hout]
    · have hne : ¬some h₀ = some h := fun heq => hh (some.inj heq).symm
      simp [hne, Ne.symm hh]

end Counts

end Qlock

end Kernel

end Plan9
