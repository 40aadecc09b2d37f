import Plan9.Kernel.QlockQueues

/-!
# Queueing locks exclude

The fields of a lock count those inside (`Plan9.Kernel.Qlock.QOk`, `Plan9.Kernel.Qlock.WOk`),
and somebody in front of a queue waits for somebody inside. Every step keeps this
(`Plan9.Kernel.Qlock.Inv.step`), if every process that waits is switched off, and so the locks
exclude (`Plan9.Kernel.Qlock.qlock_excludes`). A process that is not switched off goes on
without the lock (`Plan9.Kernel.Qlock.qlock_overtaken`).
-/

namespace Plan9

namespace Kernel

namespace Qlock

open Lib List Function Option

variable {P Q W : Type} {s t : State P Q W} {que : Q ⊕ W → List P} {p p' : P} {h : Hold Q W}

/-! ### The fields of the locks -/

section Fields

variable [DecidableEq P] [DecidableEq Q] [DecidableEq W] [Fintype P]

/-- A `QLock`: its field says whether somebody is inside, and who waits waits for somebody. -/
structure QOk (s : State P Q W) (que : Q ⊕ W → List P) (l : Q) : Prop where
  locked : tot s que (.q l) = if s.locked l then 1 else 0
  free : s.locked l = false → que (.inl l) = []

/-- An `RWlock`: its fields count who is inside, there are no readers with the writer, and who
waits in front waits for somebody. -/
structure WOk (s : State P Q W) (que : Q ⊕ W → List P) (l : W) : Prop where
  readers : s.readers l = tot s que (.r l)
  writer : tot s que (.w l) = if s.writer l then 1 else 0
  excl : s.writer l = true → s.readers l = 0
  free : s.readers l = 0 → s.writer l = false → que (.inr l) = []
  front : s.writer l = false → ∀ p ∈ (que (.inr l)).head?, s.waits p = some (.w l)

/-- **The invariant.** -/
structure Inv (s : State P Q W) (que : Q ⊕ W → List P) : Prop where
  sound : Sound s que
  trimmed : Trimmed s
  q : ∀ l, QOk s que l
  w : ∀ l, WOk s que l
  logs : ∀ k, s.asked k = s.served k ++ que k
  panicked : s.panicked = false

variable {que' : Q ⊕ W → List P}

theorem QOk.congr {l : Q} (hq : QOk s que l) (htot : tot t que' (.q l) = tot s que (.q l))
    (hlocked : t.locked l = s.locked l) (hque : que' (.inl l) = que (.inl l)) : QOk t que' l := by
  refine ⟨?_, ?_⟩
  · rw [htot, hlocked, hq.locked]
  · rw [hlocked, hque]
    exact hq.free

theorem WOk.congr {l : W} (hw : WOk s que l) (hr : tot t que' (.r l) = tot s que (.r l))
    (hwr : tot t que' (.w l) = tot s que (.w l)) (hreaders : t.readers l = s.readers l)
    (hwriter : t.writer l = s.writer l) (hque : que' (.inr l) = que (.inr l))
    (hwaits : ∀ p ∈ que (.inr l), t.waits p = s.waits p) : WOk t que' l := by
  refine ⟨?_, ?_, ?_, ?_, ?_⟩
  · rw [hreaders, hr, hw.readers]
  · rw [hwr, hwriter, hw.writer]
  · rw [hwriter, hreaders]
    exact hw.excl
  · rw [hwriter, hreaders, hque]
    exact hw.free
  · rw [hwriter, hque]
    intro hoff p hp
    rw [hwaits p (List.mem_of_mem_head? hp)]
    exact hw.front hoff p hp

/-- A step that changes no lock. -/
theorem Inv.congr (hi : Inv s que) (hsound : Sound t que) (hends : t.ends = s.ends)
    (htot : ∀ h, tot t que h = tot s que h) (hlocked : t.locked = s.locked)
    (hreaders : t.readers = s.readers) (hwriter : t.writer = s.writer)
    (hwaits : ∀ k, ∀ p ∈ que k, t.waits p = s.waits p) (hasked : t.asked = s.asked)
    (hserved : t.served = s.served) (hpanicked : t.panicked = s.panicked) : Inv t que := by
  refine ⟨hsound, fun k => ?_, fun l => ?_, fun l => ?_, fun k => ?_, ?_⟩
  · rw [hends]
    exact hi.trimmed k
  · exact (hi.q l).congr (htot _) (by rw [hlocked]) rfl
  · exact (hi.w l).congr (htot _) (htot _) (by rw [hreaders]) (by rw [hwriter]) rfl (hwaits _)
  · rw [hasked, hserved]
    exact hi.logs k
  · rw [hpanicked]
    exact hi.panicked

/-- The lock cannot be got at once. -/
def Busy (s : State P Q W) (que : Q ⊕ W → List P) : Hold Q W → Prop
  | .q l => s.locked l = true
  | .r l => s.writer l = true ∨ que (.inr l) ≠ []
  | .w l => s.writer l = true ∨ s.readers l ≠ 0

omit [DecidableEq P] [DecidableEq Q] [DecidableEq W] [Fintype P] in
/-- Without a writer and a queue, only a writer has to wait. -/
theorem Busy.writer {l : W} (hbusy : Busy s que h) (hl : h.lock = .inr l)
    (hw : s.writer l = false) (hnil : que (.inr l) = []) : h = .w l ∧ s.readers l ≠ 0 := by
  cases h with
  | q l' => cases hl
  | r l' =>
    obtain rfl := Sum.inr.inj hl
    exact (hbusy.elim (hw ▸ Bool.false_ne_true) (absurd hnil)).elim
  | w l' =>
    obtain rfl := Sum.inr.inj hl
    exact ⟨rfl, hbusy.resolve_left (hw ▸ Bool.false_ne_true)⟩

/-- **Somebody is put into the queue of a lock that is not free** for it. -/
theorem Inv.enqueue (hi : Inv s que) (hp : s.Calls p) (hbusy : Busy s que h) :
    Inv (s.enqueue p h) (update que h.lock (que h.lock ++ [p])) := by
  have hwp : s.waits p = none := by
    rw [State.waits, hp.2]
    rfl
  obtain ⟨hsound, htrim⟩ := hi.sound.enqueue (h := h) hi.trimmed hp.2 hp.1
  have hsame : ∀ q, q ≠ p → (s.enqueue p h).waits q = s.waits q := fun q hq => by
    rw [State.waits, State.enqueue]
    simp only
    rw [update_of_ne hq, State.waits]
  have hwaits : (s.enqueue p h).waits p = some h := by
    rw [State.waits, State.enqueue]
    simp only
    rw [update_self]
    rfl
  have hmem : ∀ q, q ≠ p → (q ∈ que h.lock ++ [p] ↔ q ∈ que h.lock) := fun q hq => by
    rw [mem_append, mem_singleton]
    exact ⟨fun hin => hin.resolve_right hq, .inl⟩
  have htot : ∀ h', tot (s.enqueue p h) (update que h.lock (que h.lock ++ [p])) h' =
      tot s que h' := fun h' =>
    tot_push rfl hsame hmem hwp hwaits rfl (mem_append_right _ (mem_singleton_self p))
  have hold : ∀ k, ∀ q ∈ que k, (s.enqueue p h).waits q = s.waits q := by
    intro k q hq
    refine hsame q ?_
    rintro rfl
    exact hi.sound.not_mem hwp k hq
  refine ⟨hsound, htrim, fun l => ?_, fun l => ?_, fun k => ?_, hi.panicked⟩
  · by_cases hl : h = .q l
    · subst hl
      refine ⟨(htot _).trans (hi.q l).locked, fun hoff => ?_⟩
      change s.locked l = false at hoff
      change s.locked l = true at hbusy
      rw [hbusy] at hoff
      cases hoff
    · refine (hi.q l).congr (htot _) rfl (update_of_ne ?_ ..)
      cases h with
      | q l' => exact fun heq => hl (congrArg Hold.q (Sum.inl.inj heq).symm)
      | r l' => exact fun heq => by cases heq
      | w l' => exact fun heq => by cases heq
  · by_cases hl : h.lock = .inr l
    · have hwl := hi.w l
      have hque : update que h.lock (que h.lock ++ [p]) (.inr l) = que (.inr l) ++ [p] := by
        rw [hl, update_self]
      refine ⟨?_, ?_, hwl.excl, ?_, ?_⟩
      · rw [htot]
        exact hwl.readers
      · rw [htot]
        exact hwl.writer
      · intro hr hw
        change s.readers l = 0 at hr
        change s.writer l = false at hw
        exact absurd hr (hbusy.writer hl hw (hwl.free hr hw)).2
      · intro hw q hq
        change s.writer l = false at hw
        rw [hque] at hq
        cases hnil : que (.inr l) with
        | cons q' rest =>
          rw [hnil] at hq
          obtain rfl : q' = q := some.inj hq
          have hin : q' ∈ que (.inr l) := by
            rw [hnil]
            exact mem_cons_self
          rw [hold _ q' hin]
          exact hwl.front hw q' (by rw [hnil]; rfl)
        | nil =>
          rw [hnil] at hq
          obtain rfl : p = q := some.inj hq
          obtain ⟨rfl, -⟩ := hbusy.writer hl hw hnil
          exact hwaits
    · exact (hi.w l).congr (htot _) (htot _) rfl rfl (update_of_ne (Ne.symm hl) ..)
        (hold _)
  · by_cases hk : k = h.lock
    · subst hk
      rw [State.enqueue]
      simp only
      rw [update_self, update_self, hi.logs, append_assoc]
    · rw [State.enqueue]
      simp only
      rw [update_of_ne hk, update_of_ne hk]
      exact hi.logs k

/-! ### The functions -/

/-- A `QLock` that is free is taken. -/
theorem Inv.takeQ {l : Q} (hi : Inv s que) (hfree : s.locked l = false) :
    Inv ({ s with locked := update s.locked l true }.take p (.q l)) que := by
  have htot : Enters s ({ s with locked := update s.locked l true }.take p (.q l)) que que
      (.q l) := tot_take
  refine ⟨hi.sound.congr rfl rfl rfl rfl rfl rfl, hi.trimmed, fun l' => ?_, fun l' => ?_, hi.logs,
    hi.panicked⟩
  · by_cases hl : l' = l
    · subst hl
      have hlocked : ({ s with locked := update s.locked l' true }.take p (.q l')).locked l' =
          true := update_self ..
      refine ⟨?_, fun hoff => ?_⟩
      · rw [htot.self, hlocked, (hi.q l').locked, hfree]
        simp
      · rw [hlocked] at hoff
        cases hoff
    · exact (hi.q l').congr (htot.other fun heq => hl (Hold.q.inj heq)) (update_of_ne hl ..) rfl
  · exact (hi.w l').congr (htot.other nofun) (htot.other nofun) rfl rfl rfl fun _ _ => rfl

theorem Inv.qlock {l : Q} (hi : Inv s que) (hp : s.Calls p) : ∃ que', Inv (s.qlock p l) que' := by
  rw [State.qlock]
  split
  next hfree => exact ⟨que, hi.takeQ hfree⟩
  next hbusy =>
    rw [Bool.not_eq_false] at hbusy
    exact ⟨_, hi.enqueue hp hbusy⟩

theorem Inv.canqlock {l : Q} {can : Bool} (hi : Inv s que) : Inv (s.canqlock p l can) que := by
  rw [State.canqlock]
  split
  next => exact hi
  next =>
    split
    next => exact hi
    next hfree => exact hi.takeQ (Bool.not_eq_true _ ▸ hfree)

omit [Fintype P] in
/-- `handOver` changes the queue and where the caller is, and nothing else. -/
theorem handOver_eq (s : State P Q W) (k : Q ⊕ W) (p p' : P) :
    (s.handOver k p p').locked = s.locked ∧
    (s.handOver k p p').readers = s.readers ∧ (s.handOver k p p').writer = s.writer ∧
    (s.handOver k p p').holds = s.holds ∧ (s.handOver k p p').asked = s.asked ∧
    (s.handOver k p p').served = update s.served k (s.served k ++ [p']) ∧
    (s.handOver k p p').panicked = s.panicked ∧
    (s.handOver k p p').pc = update s.pc p (.ready p') := by
  rw [State.handOver, State.goto, State.trim]
  split <;> exact ⟨rfl, rfl, rfl, rfl, rfl, rfl, rfl, rfl⟩

/-- **A lock nobody is inside any more goes to the first of its queue.** `h₀` is what that one
waits for; what the fields of the lock say is to be checked for it. -/
theorem inv_handOver {k : Q ⊕ W} {l : List P} {h₀ : Hold Q W} (hs : Sound s que)
    (htrim : Trimmed s) (hp : s.pc p = .run) (hque : que k = p' :: l)
    (hw : s.waits p' = some h₀) (hlogs : ∀ k, s.asked k = s.served k ++ que k)
    (hpanicked : s.panicked = false)
    (hq : ∀ t, Enters s t que (update que k l) h₀ → t.locked = s.locked →
      ∀ l', QOk t (update que k l) l')
    (hwok : ∀ t, Enters s t que (update que k l) h₀ → t.readers = s.readers →
      t.writer = s.writer → (∀ q, t.waits q = s.waits q) → ∀ l', WOk t (update que k l) l') :
    Inv (s.handOver k p p') (update que k l) := by
  obtain ⟨hlocked, hreaders, hwriter, hholds, hasked, hserved, hpan, hpc⟩ := handOver_eq s k p p'
  obtain ⟨hsound, htrim'⟩ := hs.handOver htrim hp hque
  have hmem : p' ∈ que k := by
    rw [hque]
    exact mem_cons_self
  have hwaits : ∀ q, (s.handOver k p p').waits q = s.waits q := by
    intro q
    by_cases hqp : q = p
    · rw [State.waits, hpc, hqp, update_self, State.waits, hp]
      rfl
    · rw [State.waits, hpc, update_of_ne hqp, State.waits]
  have hnodup := (hs.threaded k).nodup
  rw [hque, nodup_cons] at hnodup
  have htot : Enters s (s.handOver k p p') que (update que k l) h₀ :=
    tot_pop hholds hwaits hque hnodup.1 hw (hs.lock_eq hmem hw)
  refine ⟨hsound, htrim', hq _ htot hlocked, hwok _ htot hreaders hwriter hwaits, fun k' => ?_,
    hpan.trans hpanicked⟩
  rw [hasked, hserved]
  by_cases hk : k' = k
  · rw [hk, update_self, update_self, append_assoc, hlogs k, hque]
    rfl
  · rw [update_of_ne hk, update_of_ne hk]
    exact hlogs k'

/-- What `qunlock` leaves after it has given the lock back. -/
theorem Inv.qunlock {l : Q} (hi : Inv s que) (hp : s.Calls p) (hin : .q l ∈ s.holds p) :
    ∃ que', Inv (s.qunlock p l) que' := by
  have hdrop : ∀ h, tot (s.drop p (.q l)) que h + (if h = .q l then 1 else 0) = tot s que h :=
    fun h => tot_drop hin
  have hlocked : s.locked l = true := by
    by_contra hoff
    have hq := hdrop (.q l)
    rw [(hi.q l).locked, if_neg hoff, if_pos rfl] at hq
    omega
  have hzero : tot (s.drop p (.q l)) que (.q l) = 0 := by
    have hq := hdrop (.q l)
    rw [(hi.q l).locked, if_pos hlocked, if_pos rfl] at hq
    omega
  have hother : ∀ h, h ≠ .q l → tot (s.drop p (.q l)) que h = tot s que h :=
    fun h => tot_drop_other hin
  have hsound : Sound (s.drop p (.q l)) que := hi.sound.congr rfl rfl rfl rfl rfl rfl
  have htrim : Trimmed (s.drop p (.q l)) := hi.trimmed
  have hpc : (s.drop p (.q l)).pc p = .run := hp.2
  have hw : ∀ l', WOk (s.drop p (.q l)) que l' := fun l' =>
    (hi.w l').congr (hother _ nofun) (hother _ nofun) rfl rfl rfl fun _ _ => rfl
  have hq : ∀ l', l' ≠ l → QOk (s.drop p (.q l)) que l' := fun l' hl =>
    (hi.q l').congr (hother _ fun heq => hl (Hold.q.inj heq)) rfl rfl
  have hlogs := hi.logs
  have hpanicked := hi.panicked
  rw [State.qunlock]
  have hlocked' : (s.drop p (.q l)).locked l = true := hlocked
  have hlogs' : ∀ k, (s.drop p (.q l)).asked k = (s.drop p (.q l)).served k ++ que k := hlogs
  have hpanicked' : (s.drop p (.q l)).panicked = false := hpanicked
  generalize s.drop p (.q l) = u at *
  split
  next p' hhead =>
    have hlist := (hsound.threaded (.inl l)).head_eq
    rw [hhead] at hlist
    obtain ⟨rest, hque⟩ := List.head?_eq_some_iff.1 hlist.symm
    have hmem : p' ∈ que (.inl l) := by
      rw [hque]
      exact mem_cons_self
    obtain ⟨h₀, hwp', hlock⟩ := hsound.mem _ p' hmem
    obtain rfl : h₀ = .q l := by
      cases h₀ with
      | q l' => rw [Sum.inl.inj hlock]
      | r l' => cases hlock
      | w l' => cases hlock
    refine ⟨_, inv_handOver hsound htrim hpc hque hwp' hlogs' hpanicked' (fun t htot hl l' => ?_)
      fun t htot hr hwr hwt l' => ?_⟩
    · by_cases hll : l' = l
      · subst hll
        refine ⟨?_, fun hoff => ?_⟩
        · rw [htot.self, hzero, hl, hlocked', if_pos rfl]
        · rw [hl, hlocked'] at hoff
          cases hoff
      · exact (hq l' hll).congr (htot.other fun heq => hll (Hold.q.inj heq)) (by rw [hl])
          (update_of_ne (fun heq => hll (Sum.inl.inj heq)) ..)
    · exact (hw l').congr (htot.other nofun) (htot.other nofun) (by rw [hr]) (by rw [hwr])
        (update_of_ne Sum.inr_ne_inl ..) fun q _ => hwt q
  next hhead =>
    have hlist := (hsound.threaded (.inl l)).head_eq
    rw [hhead] at hlist
    have hnil : que (.inl l) = [] := List.head?_eq_none_iff.1 hlist.symm
    refine ⟨que, hsound.congr rfl rfl rfl rfl rfl rfl, htrim, fun l' => ?_,
      fun l' => (hw l').congr rfl rfl rfl rfl rfl fun _ _ => rfl, hlogs', hpanicked'⟩
    by_cases hll : l' = l
    · subst hll
      refine ⟨?_, fun _ => hnil⟩
      change tot u que (.q l') = _
      rw [hzero]
      simp
    · exact (hq l' hll).congr rfl (update_of_ne hll ..) rfl

/-- One more reader. -/
theorem Inv.takeR {l : W} (hi : Inv s que) (hw : s.writer l = false)
    (hhead : (s.ends (.inr l)).head = none) :
    Inv ((s.count l 1).take p (.r l)) que := by
  have htot : Enters s ((s.count l 1).take p (.r l)) que que (.r l) := tot_take
  have hlist := (hi.sound.threaded (.inr l)).head_eq
  rw [hhead] at hlist
  have hnil : que (.inr l) = [] := List.head?_eq_none_iff.1 hlist.symm
  refine ⟨hi.sound.congr rfl rfl rfl rfl rfl rfl, hi.trimmed, fun l' => ?_, fun l' => ?_, hi.logs,
    hi.panicked⟩
  · exact (hi.q l').congr (htot.other nofun) rfl rfl
  · by_cases hl : l' = l
    · subst hl
      have hwl := hi.w l'
      refine ⟨?_, (htot.other (h := .w l') nofun).trans hwl.writer, fun hon => ?_, fun _ _ => hnil,
        fun _ q hq => ?_⟩
      · rw [htot.self, Nat.cast_succ, ← hwl.readers]
        exact update_self ..
      · change s.writer l' = true at hon
        rw [hw] at hon
        cases hon
      · rw [hnil] at hq
        cases hq
    · exact (hi.w l').congr (htot.other fun heq => hl (Hold.r.inj heq)) (htot.other nofun)
        (update_of_ne hl ..) rfl rfl fun _ _ => rfl

theorem Inv.rlock {l : W} (hi : Inv s que) (hp : s.Calls p) : ∃ que', Inv (s.rlock p l) que' := by
  rw [State.rlock]
  split
  next hfree => exact ⟨que, hi.takeR hfree.1 hfree.2⟩
  next hbusy =>
    refine ⟨_, hi.enqueue hp (h := .r l) ?_⟩
    by_cases hw : s.writer l = false
    · refine .inr fun hnil => hbusy ⟨hw, ?_⟩
      rw [(hi.sound.threaded (.inr l)).head_eq, hnil]
      rfl
    · exact .inl (Bool.not_eq_false _ ▸ hw)

theorem Inv.canrlock {l : W} (hi : Inv s que) : Inv (s.canrlock p l) que := by
  rw [State.canrlock]
  split
  next hfree => exact hi.takeR hfree.1 hfree.2
  next => exact hi

/-- The writer. -/
theorem Inv.takeW {l : W} (hi : Inv s que) (hr : s.readers l = 0) (hw : s.writer l = false) :
    Inv ({ s with writer := update s.writer l true }.take p (.w l)) que := by
  have htot : Enters s ({ s with writer := update s.writer l true }.take p (.w l)) que que
      (.w l) := tot_take
  refine ⟨hi.sound.congr rfl rfl rfl rfl rfl rfl, hi.trimmed, fun l' => ?_, fun l' => ?_, hi.logs,
    hi.panicked⟩
  · exact (hi.q l').congr (htot.other nofun) rfl rfl
  · by_cases hl : l' = l
    · subst hl
      have hwl := hi.w l'
      have hon : ({ s with writer := update s.writer l' true }.take p (.w l')).writer l' =
          true := update_self ..
      refine ⟨?_, ?_, fun _ => hr, fun _ hoff => ?_, fun hoff => ?_⟩
      · rw [htot.other (h := .r l') nofun]
        exact hwl.readers
      · rw [htot.self, hon, hwl.writer, hw]
        simp
      · rw [hon] at hoff
        cases hoff
      · rw [hon] at hoff
        cases hoff
    · exact (hi.w l').congr (htot.other nofun) (htot.other fun heq => hl (Hold.w.inj heq)) rfl
        (update_of_ne hl ..) rfl fun _ _ => rfl

theorem Inv.wlock {l : W} (hi : Inv s que) (hp : s.Calls p) : ∃ que', Inv (s.wlock p l) que' := by
  rw [State.wlock]
  split
  next hfree => exact ⟨que, hi.takeW hfree.1 hfree.2⟩
  next hbusy =>
    refine ⟨_, hi.enqueue hp (h := .w l) ?_⟩
    by_cases hw : s.writer l = false
    · exact .inr fun hr => hbusy ⟨hr, hw⟩
    · exact .inl (Bool.not_eq_false _ ▸ hw)

/-- **The writer gets a lock without readers**, from the queue. -/
theorem inv_handOver_writer {l : W} {rest : List P} (hi : ∀ l', l' ≠ l → WOk s que l')
    (hs : Sound s que) (htrim : Trimmed s) (hq : ∀ l', QOk s que l') (hp : s.pc p = .run)
    (hque : que (.inr l) = p' :: rest) (hw : s.waits p' = some (.w l))
    (hlogs : ∀ k, s.asked k = s.served k ++ que k) (hpanicked : s.panicked = false)
    (hwriter : s.writer l = true) (hreaders : s.readers l = 0) (hr : tot s que (.r l) = 0)
    (hzero : tot s que (.w l) = 0) :
    Inv (s.handOver (.inr l) p p') (update que (.inr l) rest) := by
  refine inv_handOver hs htrim hp hque hw hlogs hpanicked (fun t htot hl l' => ?_)
    fun t htot hrd hwr hwt l' => ?_
  · exact (hq l').congr (htot.other nofun) (by rw [hl]) (update_of_ne Sum.inl_ne_inr ..)
  · by_cases hll : l' = l
    · subst hll
      refine ⟨?_, ?_, fun _ => ?_, fun _ hoff => ?_, fun hoff => ?_⟩
      · rw [htot.other (h := .r l') nofun, hr, hrd, hreaders, Nat.cast_zero]
      · rw [htot.self, hzero, hwr, hwriter, if_pos rfl]
      · rw [hrd, hreaders]
      · rw [hwr, hwriter] at hoff
        cases hoff
      · rw [hwr, hwriter] at hoff
        cases hoff
    · exact (hi l' hll).congr (htot.other nofun) (htot.other fun heq => hll (Hold.w.inj heq))
        (by rw [hrd]) (by rw [hwr]) (update_of_ne (fun heq => hll (Sum.inr.inj heq)) ..)
        fun q _ => hwt q

/-- What `runlock` leaves after it has given the lock back. -/
theorem Inv.runlock {l : W} (hi : Inv s que) (hp : s.Calls p) (hin : .r l ∈ s.holds p) :
    ∃ que', Inv (s.runlock p l) que' := by
  have hdrop : ∀ h, tot (s.drop p (.r l)) que h + (if h = .r l then 1 else 0) = tot s que h :=
    fun h => tot_drop hin
  have hwl := hi.w l
  have hmine := hdrop (.r l)
  rw [if_pos rfl] at hmine
  have hpos : s.readers l ≠ 0 := by
    rw [hwl.readers, ← hmine]
    omega
  have hoff : s.writer l = false := by
    by_contra hon
    exact hpos (hwl.excl (Bool.not_eq_false _ ▸ hon))
  have hother : ∀ h, h ≠ .r l → tot (s.drop p (.r l)) que h = tot s que h :=
    fun h => tot_drop_other hin
  -- the reader is gone, and counted out
  have htot : ∀ h, tot ((s.drop p (.r l)).count l (-1)) que h = tot (s.drop p (.r l)) que h :=
    fun h => tot_congr rfl fun _ => rfl
  have hsound : Sound ((s.drop p (.r l)).count l (-1)) que := hi.sound.congr rfl rfl rfl rfl rfl rfl
  have htrim : Trimmed ((s.drop p (.r l)).count l (-1)) := hi.trimmed
  have hpc : ((s.drop p (.r l)).count l (-1)).pc p = .run := hp.2
  have hlogs : ∀ k, ((s.drop p (.r l)).count l (-1)).asked k =
      ((s.drop p (.r l)).count l (-1)).served k ++ que k := hi.logs
  have hpanicked : ((s.drop p (.r l)).count l (-1)).panicked = false := hi.panicked
  have hreaders : ((s.drop p (.r l)).count l (-1)).readers l = s.readers l - 1 := update_self ..
  have hreaders' : ∀ l', l' ≠ l → ((s.drop p (.r l)).count l (-1)).readers l' = s.readers l' :=
    fun l' hl => update_of_ne hl ..
  have hlocked : ((s.drop p (.r l)).count l (-1)).locked = s.locked := rfl
  have hwriter : ((s.drop p (.r l)).count l (-1)).writer = s.writer := rfl
  have hwaits : ∀ q, ((s.drop p (.r l)).count l (-1)).waits q = s.waits q := fun q => rfl
  rw [State.runlock]
  generalize (s.drop p (.r l)).count l (-1) = u at *
  have hq : ∀ l', QOk u que l' := fun l' => (hi.q l').congr
    ((htot _).trans (hother _ nofun)) (by rw [hlocked]) rfl
  have hw : ∀ l', l' ≠ l → WOk u que l' := fun l' hl => (hi.w l').congr
    ((htot _).trans (hother _ fun heq => hl (Hold.r.inj heq)))
    ((htot _).trans (hother _ nofun)) (hreaders' l' hl) (by rw [hwriter]) rfl fun q _ => hwaits q
  have hcount : u.readers l = tot u que (.r l) := by
    rw [hreaders, htot, hwl.readers, ← hmine]
    push_cast
    omega
  have hnone : tot u que (.w l) = 0 := by
    rw [htot, hother (.w l) nofun, hwl.writer, hoff]
    rfl
  have hstay : (u.readers l = 0 → que (.inr l) = []) → Inv u que := by
    intro hfree
    refine ⟨hsound, htrim, hq, fun l' => ?_, hlogs, hpanicked⟩
    by_cases hl : l' = l
    · subst hl
      refine ⟨hcount, ?_, fun hon => ?_, fun hr _ => hfree hr, fun _ q hq' => ?_⟩
      · rw [hnone, hwriter, hoff]
        rfl
      · rw [hwriter, hoff] at hon
        cases hon
      · rw [hwaits]
        exact hwl.front hoff q hq'
    · exact hw l' hl
  have hlist := (hsound.threaded (.inr l)).head_eq
  split
  next hhead =>
    rw [hhead] at hlist
    exact ⟨que, hstay fun _ => List.head?_eq_none_iff.1 hlist.symm⟩
  next p' hhead =>
    split
    next hgt => exact ⟨que, hstay fun hr => absurd hr (by omega)⟩
    next hle =>
      rw [hhead] at hlist
      obtain ⟨rest, hque⟩ := List.head?_eq_some_iff.1 hlist.symm
      have hmem : p' ∈ que (.inr l) := by
        rw [hque]
        exact mem_cons_self
      have hwp' : u.waits p' = some (.w l) := by
        rw [hwaits]
        exact hwl.front hoff p' (by rw [← hlist]; rfl)
      have hstate : u.state p' = .queueingW := (hsound.parked p' (.w l) hwp' (.inl hmem)).state
      have hzero : u.readers l = 0 := by omega
      rw [if_neg (by rw [hstate]; exact fun hne => hne rfl)]
      refine ⟨_, inv_handOver_writer (fun l' hl => ?_) (hsound.congr rfl rfl rfl rfl rfl rfl) htrim
        (fun l' => (hq l').congr (tot_congr rfl fun _ => rfl) rfl rfl) hpc hque hwp' hlogs hpanicked
        (update_self ..) hzero ?_ ?_⟩
      · exact (hw l' hl).congr (tot_congr rfl fun _ => rfl) (tot_congr rfl fun _ => rfl) rfl
          (update_of_ne hl ..) rfl fun _ _ => rfl
      · have htot' : tot u que (.r l) = 0 := by
          rw [hzero] at hcount
          omega
        exact (tot_congr rfl fun _ => rfl).trans htot'
      · exact (tot_congr rfl fun _ => rfl).trans hnone

/-- In the section of `wunlock`: the writer has gone, and readers are being woken. The pointer to
the last process of the queue may be out of date. -/
structure Batch (s : State P Q W) (que : Q ⊕ W → List P) (l : W) : Prop where
  sound : Sound s que
  trimmed : ∀ k, k ≠ .inr l → (s.ends k).head = none → (s.ends k).tail = none
  q : ∀ l', QOk s que l'
  w : ∀ l', l' ≠ l → WOk s que l'
  readers : s.readers l = tot s que (.r l)
  zero : tot s que (.w l) = 0
  logs : ∀ k, s.asked k = s.served k ++ que k
  panicked : s.panicked = false

/-- One round of the loop. -/
theorem Batch.wakeReader {l : W} {rest : List P} (hb : Batch s que l)
    (hque : que (.inr l) = p :: rest) (hstate : s.state p = .queueingR) :
    Batch (s.wakeReader l p) (update que (.inr l) rest) l := by
  have hmem : p ∈ que (.inr l) := by
    rw [hque]
    exact mem_cons_self
  obtain ⟨h, hw, hlock⟩ := hb.sound.mem _ p hmem
  have hpark := (hb.sound.parked p h hw (.inl (by rw [hlock]; exact hmem))).state
  obtain rfl : h = .r l := by
    cases h with
    | q l' => cases hlock
    | r l' => rw [Sum.inr.inj hlock]
    | w l' =>
      rw [hstate] at hpark
      cases hpark
  have hnodup := (hb.sound.threaded (.inr l)).nodup
  rw [hque, nodup_cons] at hnodup
  have htot : Enters s (s.wakeReader l p) que (update que (.inr l) rest) (.r l) :=
    tot_pop rfl (fun _ => rfl) hque hnodup.1 hw rfl
  have hends : ∀ k, k ≠ .inr l → (s.wakeReader l p).ends k = s.ends k := fun k hk =>
    update_of_ne hk ..
  refine ⟨hb.sound.wakeReader hque, fun k hk => ?_, fun l' => ?_, fun l' hl => ?_, ?_, ?_,
    fun k => ?_, hb.panicked⟩
  · rw [hends k hk]
    exact hb.trimmed k hk
  · exact (hb.q l').congr (htot.other nofun) rfl (update_of_ne Sum.inl_ne_inr ..)
  · exact (hb.w l' hl).congr (htot.other fun heq => hl (Hold.r.inj heq)) (htot.other nofun)
      (update_of_ne hl ..) rfl (update_of_ne (fun heq => hl (Sum.inr.inj heq)) ..) fun _ _ => rfl
  · rw [htot.self, Nat.cast_succ, ← hb.readers]
    exact update_self ..
  · exact (htot.other (h := .w l) nofun).trans hb.zero
  · have hserved : (s.wakeReader l p).served =
        update s.served (.inr l) (s.served (.inr l) ++ [p]) := rfl
    change s.asked k = (s.wakeReader l p).served k ++ _
    rw [hserved]
    by_cases hk : k = .inr l
    · rw [hk, update_self, update_self, hb.logs, hque, append_assoc]
      rfl
    · rw [update_of_ne hk, update_of_ne hk]
      exact hb.logs k

/-- **The loop of `wunlock`** wakes the readers in front of the first writer. -/
theorem Batch.wakeReaders {l : W} {n : ℕ} (hb : Batch s que l)
    (hn : (que (.inr l)).length ≤ n) : ∃ que', Batch (s.wakeReaders l n) que' l ∧
      s.readers l ≤ (s.wakeReaders l n).readers l ∧
      ∀ p ∈ (que' (.inr l)).head?, (s.wakeReaders l n).waits p = some (.w l) := by
  induction n generalizing s que with
  | zero =>
    refine ⟨que, hb, le_rfl, fun p hp => ?_⟩
    rw [length_eq_zero_iff.1 (Nat.le_zero.1 hn)] at hp
    cases hp
  | succ n ih =>
    have hlist := (hb.sound.threaded (.inr l)).head_eq
    rw [State.wakeReaders]
    split
    next p hhead =>
      rw [hhead] at hlist
      obtain ⟨rest, hque⟩ := List.head?_eq_some_iff.1 hlist.symm
      split
      next hstate =>
        have hlen : (update que (.inr l) rest (.inr l)).length ≤ n := by
          rw [hque, length_cons] at hn
          rw [update_self]
          exact Nat.le_of_succ_le_succ hn
        obtain ⟨que', hb', hle, hfront⟩ := ih (hb.wakeReader hque hstate) hlen
        have hcount : (s.wakeReader l p).readers l = s.readers l + 1 := update_self ..
        exact ⟨que', hb', by omega, hfront⟩
      next hstate =>
        refine ⟨que, hb, le_rfl, fun p' hp' => ?_⟩
        have hmem := List.mem_of_mem_head? hp'
        rw [← hlist] at hp'
        obtain rfl : p = p' := some.inj hp'
        obtain ⟨h, hw, hlock⟩ := hb.sound.mem _ p hmem
        have hpark := (hb.sound.parked p h hw (.inl (by rw [hlock]; exact hmem))).state
        cases h with
        | q l' => cases hlock
        | r l' => exact absurd hpark hstate
        | w l' => rw [hw, Sum.inr.inj hlock]
    next hhead =>
      rw [hhead] at hlist
      refine ⟨que, hb, le_rfl, fun p hp => ?_⟩
      rw [← hlist] at hp
      cases hp

omit [DecidableEq P] [Fintype P] in
theorem ends_trim (k k' : Q ⊕ W) : (s.trim k).ends k' =
    if k' = k ∧ (s.ends k).head = none then ⟨none, none⟩ else s.ends k' := by
  rw [State.trim]
  by_cases hhead : (s.ends k).head = none
  · rw [if_pos hhead]
    by_cases hk : k' = k
    · rw [if_pos ⟨hk, hhead⟩, hk]
      exact update_self ..
    · rw [if_neg fun hboth => hk hboth.1]
      exact update_of_ne hk ..
  · rw [if_neg hhead, if_neg fun hboth => hhead hboth.2]

omit [DecidableEq P] [Fintype P] in
/-- `trim` changes the pointers, and nothing else. -/
theorem trim_eq (k : Q ⊕ W) : s.trim k = { s with ends := (s.trim k).ends } := by
  rw [State.trim]
  split <;> rfl

/-- **The section of `wunlock` ends** with readers inside and a writer in front. -/
theorem Batch.finish {l : W} (hb : Batch s que l) (hpos : 0 < s.readers l)
    (hfront : ∀ p ∈ (que (.inr l)).head?, s.waits p = some (.w l)) :
    Inv { s.trim (.inr l) with writer := update (s.trim (.inr l)).writer l false } que := by
  rw [trim_eq]
  have hends := ends_trim (s := s) (.inr l)
  generalize (s.trim (.inr l)).ends = ends at *
  have hlist := (hb.sound.threaded (.inr l)).head_eq
  refine ⟨⟨fun k => ?_, hb.sound.mem, hb.sound.pending, hb.sound.one, fun p h hw hin => ?_,
    hb.sound.woken, hb.sound.active⟩, fun k hk => ?_, fun l' => ?_, fun l' => ?_, hb.logs,
    hb.panicked⟩
  · change Threaded s.qnext (ends k) (que k)
    rw [hends]
    split
    next hboth =>
      rw [hboth.2] at hlist
      rw [hboth.1, List.head?_eq_none_iff.1 hlist.symm]
      exact Fifo.nil.threaded
    next => exact hb.sound.threaded k
  · obtain ⟨hstate, hrunq, hmach⟩ := hb.sound.parked p h hw hin
    exact ⟨hstate, hrunq, hmach⟩
  · change (ends k).head = none at hk
    change (ends k).tail = none
    rw [hends] at hk ⊢
    split
    next => rfl
    next hboth =>
      rw [if_neg hboth] at hk
      refine hb.trimmed k (fun heq => hboth ⟨heq, ?_⟩) hk
      rwa [heq] at hk
  · exact (hb.q l').congr (tot_congr rfl fun _ => rfl) rfl rfl
  · by_cases hl : l' = l
    · subst hl
      have hoff : ({ s with ends := ends, writer := update s.writer l' false } :
          State P Q W).writer l' = false := update_self ..
      refine ⟨?_, ?_, fun hon => ?_, fun hr _ => ?_, fun _ => hfront⟩
      · exact hb.readers.trans (congrArg Nat.cast (tot_congr rfl fun _ => rfl).symm)
      · rw [hoff]
        exact (tot_congr rfl fun _ => rfl).trans hb.zero
      · rw [hoff] at hon
        cases hon
      · change s.readers l' = 0 at hr
        omega
    · exact (hb.w l' hl).congr (tot_congr rfl fun _ => rfl) (tot_congr rfl fun _ => rfl) rfl
        (update_of_ne hl ..) rfl fun _ _ => rfl

/-- What `wunlock` leaves after it has given the lock back. -/
theorem Inv.wunlock {l : W} (hi : Inv s que) (hp : s.Calls p) (hin : .w l ∈ s.holds p) :
    ∃ que', Inv (s.wunlock (Fintype.card P) p l) que' := by
  have hdrop : ∀ h, tot (s.drop p (.w l)) que h + (if h = .w l then 1 else 0) = tot s que h :=
    fun h => tot_drop hin
  have hwl := hi.w l
  have hmine := hdrop (.w l)
  rw [if_pos rfl, hwl.writer] at hmine
  have hon : s.writer l = true := by
    by_contra hoff
    rw [if_neg hoff] at hmine
    omega
  rw [hon, if_pos rfl] at hmine
  have hother : ∀ h, h ≠ .w l → tot (s.drop p (.w l)) que h = tot s que h :=
    fun h => tot_drop_other hin
  have hreaders : s.readers l = 0 := hwl.excl hon
  have hb : Batch (s.drop p (.w l)) que l := by
    refine ⟨hi.sound.congr rfl rfl rfl rfl rfl rfl, fun k _ => hi.trimmed k, fun l' => ?_,
      fun l' hl => ?_, ?_, by omega, hi.logs, hi.panicked⟩
    · exact (hi.q l').congr (hother _ nofun) rfl rfl
    · exact (hi.w l').congr (hother _ nofun) (hother _ fun heq => hl (Hold.w.inj heq)) rfl rfl rfl
        fun _ _ => rfl
    · rw [hother (.r l) nofun]
      exact hwl.readers
  have htrim : Trimmed (s.drop p (.w l)) := hi.trimmed
  have hpc : (s.drop p (.w l)).pc p = .run := hp.2
  have hon' : (s.drop p (.w l)).writer l = true := hon
  have hreaders' : (s.drop p (.w l)).readers l = 0 := hreaders
  rw [State.wunlock]
  generalize s.drop p (.w l) = u at *
  have hlist := (hb.sound.threaded (.inr l)).head_eq
  split
  next hhead =>
    rw [hhead] at hlist
    have hnil : que (.inr l) = [] := List.head?_eq_none_iff.1 hlist.symm
    refine ⟨que, hb.sound.congr rfl rfl rfl rfl rfl rfl, htrim,
      fun l' => (hb.q l').congr (tot_congr rfl fun _ => rfl) rfl rfl, fun l' => ?_, hb.logs,
      hb.panicked⟩
    by_cases hl : l' = l
    · subst hl
      refine ⟨?_, ?_, fun _ => hreaders', fun _ _ => hnil, fun _ q hq => ?_⟩
      · exact hb.readers.trans (congrArg Nat.cast (tot_congr rfl fun _ => rfl).symm)
      · have hoff : ({ u with writer := update u.writer l' false } : State P Q W).writer l' =
            false := update_self ..
        rw [hoff]
        exact (tot_congr rfl fun _ => rfl).trans hb.zero
      · rw [hnil] at hq
        cases hq
    · exact (hb.w l' hl).congr (tot_congr rfl fun _ => rfl) (tot_congr rfl fun _ => rfl) rfl
        (update_of_ne hl ..) rfl fun _ _ => rfl
  next p' hhead =>
    rw [hhead] at hlist
    obtain ⟨rest, hque⟩ := List.head?_eq_some_iff.1 hlist.symm
    have hmem : p' ∈ que (.inr l) := by
      rw [hque]
      exact mem_cons_self
    obtain ⟨h, hw, hlock⟩ := hb.sound.mem _ p' hmem
    have hpark := (hb.sound.parked p' h hw (.inl (by rw [hlock]; exact hmem))).state
    have hrzero : tot u que (.r l) = 0 := by
      have hr := hb.readers
      rw [hreaders'] at hr
      omega
    split
    next hstate =>
      have hh : h = .w l := by
        rw [hstate] at hpark
        cases h with
        | q l' => cases hpark
        | r l' => cases hpark
        | w l' => rw [Sum.inr.inj hlock]
      rw [hh] at hw
      exact ⟨_, inv_handOver_writer hb.w hb.sound htrim hb.q hpc hque hw hb.logs hb.panicked hon'
        hreaders' hrzero hb.zero⟩
    next hnotw =>
      have hstate : u.state p' = .queueingR := by
        cases h with
        | q l' => cases hlock
        | r l' => exact hpark
        | w l' => exact absurd hpark hnotw
      rw [if_neg (by rw [hstate]; exact fun hne => hne rfl)]
      -- the loop goes round at least once
      have hlen : (que (.inr l)).length ≤ Fintype.card P :=
        (hb.sound.threaded (.inr l)).nodup.length_le_card
      rw [hque, length_cons] at hlen
      obtain ⟨n, hn⟩ : ∃ n, Fintype.card P = n + 1 := Nat.exists_eq_succ_of_ne_zero (by omega)
      rw [hn, State.wakeReaders, hhead]
      simp only
      rw [if_pos hstate]
      have hlen' : (update que (.inr l) rest (.inr l)).length ≤ n := by
        rw [update_self]
        omega
      obtain ⟨que', hb', hle, hfront⟩ := (hb.wakeReader hque hstate).wakeReaders hlen'
      have hone : (u.wakeReader l p').readers l = u.readers l + 1 := update_self ..
      exact ⟨que', hb'.finish (by omega) hfront⟩

/-! ### What a process does by itself -/

omit [DecidableEq Q] [DecidableEq W] [Fintype P] in
/-- `sched` switches a process off: it is off the processor, and in a run queue if it could go
on. Nothing else of it changes that matters here. -/
theorem switchOff_eq (c : Pc P Q W) : ∃ state runq, (s.switchOff p).goto p c = { s with
      delaysched := update s.delaysched p 0
      mach := update s.mach p false
      state := update s.state p state
      runq := update s.runq p runq
      pc := update s.pc p c } ∧
    (s.state p = .running ∧ state = .ready ∧ runq = true ∨
      s.state p ≠ .running ∧ state = s.state p ∧ runq = s.runq p) := by
  rw [State.switchOff]
  simp only
  by_cases hrun : s.state p = .running
  · rw [if_pos hrun]
    exact ⟨.ready, true, rfl, .inl ⟨hrun, rfl, rfl⟩⟩
  · rw [if_neg hrun]
    refine ⟨s.state p, s.runq p, ?_, .inr ⟨hrun, rfl, rfl⟩⟩
    rw [State.goto, update_eq_self, update_eq_self]

omit [DecidableEq Q] [DecidableEq W] [Fintype P] in
/-- **A process is switched off.** Where it is when it runs again is `c`: that it waits, and for
what, stays. -/
theorem Sound.switchOff {c : Pc P Q W} (hs : Sound s que) (hwaits : c.waits = s.waits p)
    (hready : ∀ q, c = .ready q ↔ s.pc p = .ready q) :
    Sound ((s.switchOff p).goto p c) que := by
  obtain ⟨state, runq, heq, hcases⟩ := switchOff_eq (s := s) (p := p) c
  rw [heq]
  have hoff : update s.mach p false p = false := update_self ..
  refine hs.alone (p := p) rfl rfl (fun q hq => ⟨update_of_ne hq ..,
    update_of_ne hq .., update_of_ne hq .., update_of_ne hq ..⟩)
    (fun q => ?_) ?_ (fun h _ hpark => ?_) (fun h _ hwoken => ?_) fun hactive => ?_
  · change update s.pc p c p = .ready q ↔ _
    rw [update_self, hready]
  · change (update s.pc p c p).waits = _
    rw [update_self, hwaits]
  · rcases hcases with ⟨hrun, -⟩ | ⟨-, rfl, rfl⟩
    · rw [hpark.state] at hrun
      exact absurd hrun h.state_ne_running
    · exact ⟨(update_self ..).trans hpark.state, (update_self ..).trans hpark.runq, fun _ => hoff⟩
  · rcases hcases with ⟨-, rfl, rfl⟩ | ⟨hnot, rfl, rfl⟩
    · exact .inl ⟨update_self .., update_self .., fun _ => hoff⟩
    · rcases hwoken with ⟨hstate, hrunq, -⟩ | ⟨hrun, -, -⟩
      · exact .inl ⟨(update_self ..).trans hstate, (update_self ..).trans hrunq, fun _ => hoff⟩
      · exact absurd hrun hnot
  · rcases hcases with ⟨-, rfl, rfl⟩ | ⟨hnot, rfl, rfl⟩
    · exact .inl ⟨update_self .., update_self .., hoff⟩
    · rcases hactive with ⟨hstate, hrunq, -⟩ | ⟨hrun, -, -⟩
      · exact .inl ⟨(update_self ..).trans hstate, (update_self ..).trans hrunq, hoff⟩
      · exact absurd hrun hnot

omit [DecidableEq Q] [DecidableEq W] [Fintype P] in
/-- A processor takes up a process. -/
theorem Sound.resume (hs : Sound s que) (hrunq : s.runq p = true) : Sound (s.resume p) que := by
  refine hs.alone (p := p) rfl rfl (fun q hq => ⟨rfl, update_of_ne hq ..,
    update_of_ne hq .., update_of_ne hq ..⟩) (fun q => Iff.rfl) rfl
    (fun h _ hpark => ?_) (fun h _ _ => ?_) fun _ => ?_
  · have hoff := hpark.runq
    rw [hrunq] at hoff
    cases hoff
  · exact .inr ⟨update_self .., update_self .., update_self ..⟩
  · exact .inr ⟨update_self .., update_self .., update_self ..⟩

/-- **A process that waits and runs returns with the lock.** -/
theorem Inv.leave (hi : Inv s que) (hw : s.waits p = some h) (hrun : s.state p = .running)
    {n : P → ℕ} : Inv (({ s with delaysched := n }.take p h).goto p .run) que := by
  have hout := (hi.sound.of_running hw hrun).1
  have hsame : ∀ q, q ≠ p → (({ s with delaysched := n }.take p h).goto p .run).waits q =
      s.waits q := fun q hq => waits_goto_of_ne hq
  have hnone : (({ s with delaysched := n }.take p h).goto p .run).waits p = none :=
    waits_goto_self _
  refine hi.congr (hi.sound.leave rfl rfl rfl rfl rfl rfl hw hrun) rfl
    (fun h' => tot_return rfl hsame hw hnone hout) rfl rfl rfl (fun k q hq => hsame q ?_) rfl rfl
    rfl
  rintro rfl
  rw [hi.sound.lock_eq hq hw] at hout
  exact hout hq

/-- A step of one process that changes nothing of what it has or waits for. -/
theorem Inv.alone (hi : Inv s que) (hsound : Sound t que) (hends : t.ends = s.ends)
    (hholds : t.holds = s.holds) (hlocked : t.locked = s.locked)
    (hreaders : t.readers = s.readers) (hwriter : t.writer = s.writer)
    (hwaits : ∀ q, t.waits q = s.waits q) (hasked : t.asked = s.asked)
    (hserved : t.served = s.served) (hpanicked : t.panicked = s.panicked) : Inv t que :=
  hi.congr hsound hends (fun _ => tot_congr hholds hwaits) hlocked hreaders hwriter
    (fun _ q _ => hwaits q) hasked hserved hpanicked

/-- A process that `sched` switches off. -/
theorem Inv.switchOff {c : Pc P Q W} (hi : Inv s que) (hwaits : c.waits = s.waits p)
    (hready : ∀ q, c = .ready q ↔ s.pc p = .ready q) :
    Inv ((s.switchOff p).goto p c) que := by
  have hsound := hi.sound.switchOff hwaits hready
  obtain ⟨state, runq, heq, -⟩ := switchOff_eq (s := s) (p := p) c
  rw [heq] at hsound ⊢
  refine hi.alone hsound rfl rfl rfl rfl rfl (fun q => ?_) rfl rfl rfl
  change (update s.pc p c q).waits = _
  by_cases hq : q = p
  · rw [hq, update_self, hwaits]
  · rw [update_of_ne hq]
    rfl

/-- The call of `ready` for a process that was handed a lock. -/
theorem Inv.ready (hi : Inv s que) (hp : s.pc p = .ready p') :
    Inv ((s.ready p').goto p .run) que := by
  refine hi.alone (hi.sound.wake rfl rfl rfl rfl rfl rfl hp) rfl rfl rfl rfl rfl (fun q => ?_) rfl
    rfl rfl
  by_cases hq : q = p
  · rw [hq, waits_goto_self, State.waits, hp]
    rfl
  · rw [waits_goto_of_ne hq]
    rfl

/-- **Every step keeps the invariant**, if a process that waits is switched off. -/
theorem Inv.step {a : Act P Q W} (hi : Inv s que) (hsleeps : s.Sleeps a) (hstep : s.Step a t) :
    ∃ que', Inv t que' := by
  unfold State.Step at hstep
  cases a with
  | qlock p l =>
    obtain ⟨hp, ⟨⟩⟩ := ite_none_right_eq_some.1 hstep
    exact hi.qlock hp
  | canqlock p l can =>
    obtain ⟨-, ⟨⟩⟩ := ite_none_right_eq_some.1 hstep
    exact ⟨que, hi.canqlock⟩
  | qunlock p l =>
    obtain ⟨⟨hp, hin⟩, ⟨⟩⟩ := ite_none_right_eq_some.1 hstep
    exact hi.qunlock hp hin
  | rlock p l =>
    obtain ⟨hp, ⟨⟩⟩ := ite_none_right_eq_some.1 hstep
    exact hi.rlock hp
  | canrlock p l =>
    obtain ⟨-, ⟨⟩⟩ := ite_none_right_eq_some.1 hstep
    exact ⟨que, hi.canrlock⟩
  | runlock p l =>
    obtain ⟨⟨hp, hin⟩, ⟨⟩⟩ := ite_none_right_eq_some.1 hstep
    exact hi.runlock hp hin
  | wlock p l =>
    obtain ⟨hp, ⟨⟩⟩ := ite_none_right_eq_some.1 hstep
    exact hi.wlock hp
  | wunlock p l =>
    obtain ⟨⟨hp, hin⟩, ⟨⟩⟩ := ite_none_right_eq_some.1 hstep
    exact hi.wunlock hp hin
  | sched p =>
    rw [State.step] at hstep
    split at hstep
    next h hpc =>
      obtain ⟨-, ⟨⟩⟩ := ite_none_right_eq_some.1 hstep
      have hw : s.waits p = some h := by
        rw [State.waits, hpc]
        rfl
      rw [State.sched]
      split
      next =>
        refine ⟨que, hi.switchOff hw.symm fun q => ?_⟩
        rw [hpc]
        exact iff_of_false (fun heq => by cases heq) fun heq => by cases heq
      next hlate =>
        have hrun : s.state p = .running := by
          by_contra hnot
          exact hlate (hsleeps hnot)
        exact ⟨que, hi.leave hw hrun⟩
    next => cases hstep
  | ret p =>
    rw [State.step] at hstep
    split at hstep
    next h hpc =>
      obtain ⟨hmach, ⟨⟩⟩ := ite_none_right_eq_some.1 hstep
      have hw : s.waits p = some h := by
        rw [State.waits, hpc]
        rfl
      refine ⟨que, hi.leave hw ?_⟩
      -- it is on a processor: nobody else can have it
      by_cases hin : p ∈ que h.lock ∨ Pending s p
      · have hoff := (hi.sound.parked p h hw hin).mach hpc
        rw [hmach] at hoff
        cases hoff
      · obtain ⟨hout, hidle⟩ := not_or.1 hin
        rcases hi.sound.woken p h hw hout hidle with ⟨-, -, hoff⟩ | ⟨hrun, -, -⟩
        · rw [hoff hpc] at hmach
          cases hmach
        · exact hrun
    next => cases hstep
  | ready p =>
    rw [State.step] at hstep
    split at hstep
    next p' hpc =>
      obtain ⟨-, ⟨⟩⟩ := ite_none_right_eq_some.1 hstep
      exact ⟨que, hi.ready hpc⟩
    next => cases hstep
  | switch p =>
    obtain ⟨-, ⟨⟩⟩ := ite_none_right_eq_some.1 hstep
    have hstay : (s.switchOff p).goto p (s.pc p) = s.switchOff p := by
      have hpc : (s.switchOff p).pc = s.pc := by
        rw [State.switchOff]
        split <;> rfl
      rw [State.goto, ← hpc, update_eq_self]
    exact ⟨que, hstay ▸ hi.switchOff rfl fun _ => Iff.rfl⟩
  | resume p =>
    obtain ⟨⟨hrunq, -⟩, ⟨⟩⟩ := ite_none_right_eq_some.1 hstep
    exact ⟨que, hi.alone (hi.sound.resume hrunq) rfl rfl rfl rfl rfl (fun _ => rfl) rfl rfl rfl⟩
  | spin p nlocks delaysched vital =>
    cases hstep
    exact ⟨que, hi.alone (hi.sound.congr rfl rfl rfl rfl rfl rfl) rfl rfl rfl rfl rfl
      (fun _ => rfl) rfl rfl rfl⟩

/-! ### Runs -/

/-- Nobody has a lock in the beginning. -/
theorem inv_init : Inv (State.init P Q W) fun _ => [] := by
  have htot : ∀ h, tot (State.init P Q W) (fun _ => []) h = 0 := fun h =>
    Finset.sum_eq_zero fun p _ => rfl
  refine ⟨⟨fun k => Fifo.nil.threaded, fun k p hp => ?_, fun r p hr => ?_, fun r r' p hr => ?_,
    fun p h hw => ?_, fun p h hw => ?_, fun p _ => .inr ⟨rfl, rfl, rfl⟩⟩, fun _ _ => rfl,
    fun l => ⟨htot _, fun _ => rfl⟩, fun l => ⟨?_, htot _, fun hon => ?_, fun _ _ => rfl,
      fun _ p hp => ?_⟩, fun _ => rfl, rfl⟩
  · cases hp
  · cases hr
  · cases hr
  · cases hw
  · cases hw
  · rw [htot]
    rfl
  · cases hon
  · cases hp

omit [DecidableEq P] [DecidableEq Q] [DecidableEq W] in
theorem Sound.queue_eq (hs : Sound s que) (k : Q ⊕ W) : s.queue k = que k :=
  walk_eq (hs.threaded k).linked (hs.threaded k).nodup.length_le_card

/-- **The invariant says that the locks exclude.** -/
theorem Inv.excludes (hi : Inv s que) : s.Excludes := by
  have htot : ∀ h, s.total h = tot s que h := by
    intro h
    refine Finset.sum_congr rfl fun p _ => ?_
    rw [State.inside, ins, hi.sound.queue_eq]
  refine ⟨fun l => ?_, fun l => ⟨?_, fun hone => ?_⟩, fun l => ?_, fun k => ?_, fun l hzero => ?_,
    fun l hr hw => ?_, hi.panicked⟩
  · rw [htot, (hi.q l).locked]
    split <;> omega
  · rw [htot, (hi.w l).writer]
    split <;> omega
  · rw [htot, (hi.w l).writer] at hone
    have hon : s.writer l = true := by
      by_contra hoff
      rw [if_neg hoff] at hone
      omega
    have hreaders := (hi.w l).readers
    rw [(hi.w l).excl hon] at hreaders
    rw [htot]
    omega
  · rw [htot]
    exact (hi.w l).readers
  · rw [hi.sound.queue_eq]
    exact hi.logs k
  · rw [htot, (hi.q l).locked] at hzero
    have hoff : s.locked l = false := by
      by_contra hon
      rw [if_pos (Bool.not_eq_false _ ▸ hon)] at hzero
      omega
    rw [(hi.sound.threaded _).head_eq, (hi.q l).free hoff]
    rfl
  · rw [htot] at hr hw
    rw [(hi.w l).writer] at hw
    have hoff : s.writer l = false := by
      by_contra hon
      rw [if_pos (Bool.not_eq_false _ ▸ hon)] at hw
      omega
    have hreaders : s.readers l = 0 := by
      rw [(hi.w l).readers, hr]
      rfl
    rw [(hi.sound.threaded _).head_eq, (hi.w l).free hreaders hoff]
    rfl

/-- **Queueing locks exclude and hand over correctly**, over every run in which a process that
was put into a queue, and has not run again since, is switched off when it calls `sched`. -/
theorem qlock_excludes {l : List (Act P Q W)}
    (hrun : Run (Guarded State.Sleeps State.Step) (State.init P Q W) l s) : s.Excludes := by
  obtain ⟨que, hi⟩ : ∃ que, Inv s que := by
    refine hrun.guarded_inv (I := fun s => ∃ que, Inv s que) ?_ ⟨_, inv_init⟩
    rintro u a v ⟨que, hi⟩ hsleeps hstep
    exact hi.step hsleeps hstep
  exact hi.excludes

end Fields

/-- A `QLock` that goes from one process to another: the second one is switched off, and gets the
lock when the first one gives it back. -/
theorem qlock_excludes_handOver : ∃ s, Run State.Step (State.init Bool Unit Unit)
    [.qlock false (), .qlock true (), .sched true, .qunlock false (), .ready false, .resume true,
      .ret true] s ∧ s.holds true = [.q ()] ∧ s.Excludes := by
  obtain ⟨s, hrun, hholds⟩ : ∃ s, Run (Guarded State.Sleeps State.Step)
      (State.init Bool Unit Unit) [.qlock false (), .qlock true (), .sched true,
        .qunlock false (), .ready false, .resume true, .ret true] s ∧
      s.holds true = [.q ()] :=
    ⟨_, .cons ⟨trivial, rfl⟩ (.cons ⟨trivial, rfl⟩ (.cons ⟨fun _ => .inl rfl, by
      unfold State.Step; rfl⟩ (.cons ⟨trivial, by unfold State.Step; rfl⟩ (.cons ⟨trivial, by
      unfold State.Step; rfl⟩ (.cons ⟨trivial, by unfold State.Step; rfl⟩ (.cons ⟨trivial, by
      unfold State.Step; rfl⟩ (.nil _))))))), rfl⟩
  exact ⟨s, hrun.of_guarded, hholds, qlock_excludes hrun⟩

/-- **A process that holds a spin lock overtakes the one that has the lock**: it is put into the
queue, `sched` returns at once, and `qlock` returns. -/
theorem qlock_overtaken : ∃ s, Run State.Step (State.init Bool Unit Unit)
    [.qlock false (), .spin true 1 0 false, .qlock true (), .sched true] s ∧
    s.total (.q ()) = 2 ∧ ¬s.Excludes := by
  refine ⟨_, .cons rfl (.cons rfl (.cons rfl (.cons rfl (.nil _)))), ?_⟩
  have htotal : ∀ s : State Bool Unit Unit, s.total (.q ()) = 2 → s.total (.q ()) = 2 ∧
    ¬s.Excludes :=
    fun s hs => ⟨hs, fun he => by
      have hle := he.qlock ()
      omega⟩
  refine htotal _ ?_
  rfl

end Qlock

end Kernel

end Plan9
