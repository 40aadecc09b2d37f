import Mathlib.Data.List.Basic
import Mathlib.Data.Nat.Find
import Mathlib.Logic.Function.Basic

/-!
# Undo logs with targets

A table of slots is updated, and each update has a target that has to be somewhere safe before the
update may be. The log has what every slot had before its update, the newest record first. Before
the table is saved the log is pruned: records of updates whose target is safe go, and with them all
older records of the same slot. The records that are left are undone in the order of the log, so
that of several records of one slot the oldest has the last word.

Histories are lists of updates, the newest first, like the log.

* `Plan9.Lib.UndoLog.rollback_of_exposed` – a slot with a pending update behind its last safe one
  gets the value from before the oldest such update;
* `Plan9.Lib.UndoLog.rollback_of_not_exposed` – every other slot keeps its value;
* `Plan9.Lib.UndoLog.rollback_origin` – no value comes from a pending update.
-/

namespace Plan9

namespace Lib

namespace UndoLog

open List

variable {ι τ V : Type} [DecidableEq ι]

/-- What is known of a target. -/
inductive Fate
  | written
  | pending
  /-- Neither; records of such updates are dropped. -/
  | dropped
deriving DecidableEq

/-- An update of a slot. -/
structure Update (ι τ V : Type) where
  slot : ι
  target : τ
  new : V

/-- A record of the log. -/
structure Undo (ι τ V : Type) where
  slot : ι
  target : τ
  old : V

/-- The table after a history that begins with the table `d`. -/
def contents (d : ι → V) : List (Update ι τ V) → ι → V
  | [] => d
  | u :: us => Function.update (contents d us) u.slot u.new

/-- The record of an update; `save` is what can be saved of the old value. -/
def record (save : V → V) (d : ι → V) (u : Update ι τ V) : Undo ι τ V :=
  ⟨u.slot, u.target, save (d u.slot)⟩

/-- The log of a history. -/
def undoLog (save : V → V) (d : ι → V) : List (Update ι τ V) → List (Undo ι τ V)
  | [] => []
  | u :: us => record save (contents d us) u :: undoLog save d us

/-- Prune a log: the slots of `done` have a newer update whose target is written. -/
def prune (fate : τ → Fate) : (ι → Bool) → List (Undo ι τ V) → List (Undo ι τ V)
  | _, [] => []
  | done, p :: ps =>
    if done p.slot then prune fate done ps
    else
      match fate p.target with
      | .written => prune fate (Function.update done p.slot true) ps
      | .pending => p :: prune fate done ps
      | .dropped => prune fate done ps

/-- Undo the records of a log, from its head on. -/
def rollback (d : ι → V) : List (Undo ι τ V) → ι → V
  | [] => d
  | p :: ps => rollback (Function.update d p.slot p.old) ps

/-- A pending update that has no written one behind it, in its slot. -/
def Exposed (fate : τ → Fate) (u : Update ι τ V) (newer : List (Update ι τ V)) : Prop :=
  fate u.target = .pending ∧ ∀ v ∈ newer, v.slot = u.slot → fate v.target ≠ .written

variable {fate : τ → Fate} {save : V → V} {done : ι → Bool} {d e : ι → V} {i : ι}
  {us xs ys : List (Update ι τ V)} {u : Update ι τ V} {p : Undo ι τ V} {ps qs : List (Undo ι τ V)}

/-! ### The parts of a log -/

theorem contents_append : contents d (ys ++ xs) = contents (contents d xs) ys := by
  induction ys with
  | nil => rfl
  | cons u ys ih => rw [cons_append, contents, ih, contents]

theorem undoLog_append :
    undoLog save d (ys ++ xs) = undoLog save (contents d xs) ys ++ undoLog save d xs := by
  induction ys with
  | nil => rfl
  | cons u ys ih => rw [cons_append, undoLog, ih, contents_append, undoLog, cons_append]

/-- Where a record of the log comes from. -/
theorem exists_of_mem_undoLog (h : undoLog save d us = ps ++ p :: qs) :
    ∃ ys u xs, us = ys ++ u :: xs ∧ ps = undoLog save (contents d (u :: xs)) ys ∧
      p = record save (contents d xs) u ∧ qs = undoLog save d xs := by
  induction us generalizing ps with
  | nil => exact absurd h.symm (append_ne_nil_of_right_ne_nil ps (cons_ne_nil p qs))
  | cons u us ih =>
    cases ps with
    | nil =>
      obtain ⟨rfl, rfl⟩ := cons.inj h
      exact ⟨[], u, us, rfl, rfl, rfl, rfl⟩
    | cons q ps =>
      obtain ⟨rfl, htail⟩ := cons.inj h
      obtain ⟨ys, v, xs, rfl, rfl, rfl, rfl⟩ := ih htail
      refine ⟨u :: ys, v, xs, rfl, ?_, rfl, rfl⟩
      rw [undoLog, ← contents_append]

/-! ### Pruning -/

/-- The slots of which newer updates are done, behind some records. -/
def marks (fate : τ → Fate) (done : ι → Bool) (ps : List (Undo ι τ V)) (i : ι) : Bool :=
  done i || ps.any fun p => p.slot = i ∧ fate p.target = .written

theorem marks_cons (fate : τ → Fate) (done : ι → Bool) (p : Undo ι τ V)
    (ps : List (Undo ι τ V)) :
    marks fate done (p :: ps) = marks fate
      (if fate p.target = .written then Function.update done p.slot true else done) ps := by
  funext i
  rw [marks, marks, any_cons, ← Bool.or_assoc]
  congr 1
  split
  next h =>
    rcases eq_or_ne i p.slot with rfl | hne
    · simp [h]
    · simp [hne, hne.symm]
  next h => simp [h]

theorem marks_undoLog (h : ∀ u ∈ us, u.slot = i → fate u.target ≠ .written) :
    marks fate done (undoLog save d us) i = done i := by
  induction us with
  | nil => rw [undoLog, marks, any_nil, Bool.or_false]
  | cons u us ih =>
    have htail := ih fun v hv => h v (mem_cons_of_mem u hv)
    rw [undoLog, marks_cons, marks]
    rw [marks] at htail
    split
    next hw =>
      have hne : i ≠ u.slot := fun heq => h u mem_cons_self heq.symm hw
      have hslot : (record save (contents d us) u).slot = u.slot := rfl
      rw [hslot, Function.update_of_ne hne, htail]
    next => exact htail

/-- **Pruning goes on** with the slots that are done by then. -/
theorem prune_append :
    prune fate done (ps ++ qs) = prune fate done ps ++ prune fate (marks fate done ps) qs := by
  induction ps generalizing done with
  | nil =>
    have hnone : marks fate done ([] : List (Undo ι τ V)) = done := by
      funext i
      rw [marks, any_nil, Bool.or_false]
    rw [hnone]
    rfl
  | cons p ps ih =>
    rw [cons_append, prune, prune, marks_cons]
    split
    next hdone =>
      rw [ih]
      congr 2
      split
      next => rw [← hdone, Function.update_eq_self]
      next => rfl
    next =>
      cases h : fate p.target with
      | written => simp only [ih, if_true]
      | pending => simp only [ih, cons_append, reduceCtorEq, if_false]
      | dropped => simp only [ih, reduceCtorEq, if_false]

/-- A record that is kept. -/
theorem prune_cons_of_pending (hdone : done p.slot = false) (h : fate p.target = .pending) :
    prune fate done (p :: ps) = p :: prune fate done ps := by
  rw [prune, if_neg (by rw [hdone]; exact Bool.false_ne_true), h]

/-- Which records are kept. -/
theorem exists_of_mem_prune (h : p ∈ prune fate done ps) :
    ∃ as bs, ps = as ++ p :: bs ∧ fate p.target = .pending ∧ marks fate done as p.slot = false := by
  induction ps generalizing done with
  | nil => cases h
  | cons q ps ih =>
    have hmore : ∀ {done'}, p ∈ prune fate done' ps → marks fate done [q] = done' →
        ∃ as bs, q :: ps = as ++ p :: bs ∧ fate p.target = .pending ∧
          marks fate done as p.slot = false := by
      rintro done' hp rfl
      obtain ⟨as, bs, rfl, hpend, hmark⟩ := ih hp
      refine ⟨q :: as, bs, rfl, hpend, ?_⟩
      rw [← hmark]
      simp [marks, Bool.or_assoc]
    have hsame : fate q.target ≠ .written → marks fate done [q] = done := fun hne => by
      funext i
      simp [marks, hne]
    rw [prune] at h
    split at h
    next hdone =>
      refine hmore h ?_
      funext i
      rcases eq_or_ne i q.slot with rfl | hne
      · simp [marks, hdone]
      · simp [marks, hne.symm]
    next hdone =>
      cases hfate : fate q.target with
      | written =>
        simp only [hfate] at h
        refine hmore h ?_
        funext i
        rcases eq_or_ne i q.slot with rfl | hne
        · simp [marks, hfate]
        · simp [marks, hne, hne.symm]
      | pending =>
        simp only [hfate] at h
        rcases mem_cons.1 h with rfl | h
        · refine ⟨[], ps, rfl, hfate, ?_⟩
          rw [marks, any_nil, Bool.or_false]
          exact (Bool.not_eq_true _).mp hdone
        · exact hmore h (hsame (by rw [hfate]; exact Fate.noConfusion))
      | dropped =>
        simp only [hfate] at h
        exact hmore h (hsame (by rw [hfate]; exact Fate.noConfusion))

/-! ### Undoing -/

theorem rollback_append : rollback e (ps ++ qs) = rollback (rollback e ps) qs := by
  induction ps generalizing e with
  | nil => rfl
  | cons p ps ih => rw [cons_append, rollback, ih, rollback]

theorem rollback_of_forall_ne (h : ∀ p ∈ ps, p.slot ≠ i) : rollback e ps i = e i := by
  induction ps generalizing e with
  | nil => rfl
  | cons p ps ih =>
    rw [rollback, ih fun q hq => h q (mem_cons_of_mem p hq),
      Function.update_of_ne (h p mem_cons_self).symm]

/-! ### The image -/

/-- What is kept of the log are the exposed updates. -/
theorem exposed_of_mem_prune (h : p ∈ prune fate done (undoLog save d us)) :
    ∃ ys u xs, us = ys ++ u :: xs ∧ p = record save (contents d xs) u ∧
      fate u.target = .pending ∧ done u.slot = false ∧
      ∀ v ∈ ys, v.slot = u.slot → fate v.target ≠ .written := by
  obtain ⟨as, bs, hlog, hpend, hmark⟩ := exists_of_mem_prune h
  obtain ⟨ys, u, xs, rfl, rfl, rfl, rfl⟩ := exists_of_mem_undoLog hlog
  rw [marks, Bool.or_eq_false_iff] at hmark
  refine ⟨ys, u, xs, rfl, rfl, hpend, hmark.1, fun v hv hslot hw => ?_⟩
  obtain ⟨zs, ws, rfl⟩ := append_of_mem hv
  have hany := hmark.2
  rw [undoLog_append, undoLog, any_append, any_cons, Bool.or_eq_false_iff,
    Bool.or_eq_false_iff] at hany
  exact absurd (And.intro hslot hw) (of_decide_eq_false hany.2.1)

/-- **Slots without exposed updates** are left alone. -/
theorem rollback_of_not_exposed
    (h : ∀ ys u xs, us = ys ++ u :: xs → u.slot = i → ¬Exposed fate u ys) :
    rollback e (prune fate (fun _ => false) (undoLog save d us)) i = e i := by
  refine rollback_of_forall_ne fun p hp hslot => ?_
  obtain ⟨ys, u, xs, hus, rfl, hpend, -, hnew⟩ := exposed_of_mem_prune hp
  exact h ys u xs hus hslot ⟨hpend, hnew⟩

/-- **Slots with exposed updates** get back what they had before the oldest one. -/
theorem rollback_of_exposed (hu : Exposed fate u ys)
    (hold : ∀ zs v ws, xs = zs ++ v :: ws → v.slot = u.slot → ¬Exposed fate v (ys ++ u :: zs)) :
    rollback e (prune fate (fun _ => false) (undoLog save d (ys ++ u :: xs))) u.slot =
      save (contents d xs u.slot) := by
  obtain ⟨hpend, hnew⟩ := hu
  have hmark : marks fate (fun _ => false) (undoLog save (contents d (u :: xs)) ys) u.slot =
      false := marks_undoLog hnew
  rw [undoLog_append, undoLog, prune_append, prune_cons_of_pending hmark hpend, rollback_append,
    rollback, rollback_of_forall_ne]
  · exact Function.update_self _ _ _
  · intro p hp hslot
    obtain ⟨zs, v, ws, rfl, rfl, hvpend, -, hvnew⟩ := exposed_of_mem_prune hp
    refine hold zs v ws rfl hslot ⟨hvpend, fun w hw hwslot => ?_⟩
    have hvu : v.slot = u.slot := hslot
    rcases mem_append.1 hw with hw | hw
    · exact hnew w hw (hwslot.trans hvu)
    · rcases mem_cons.1 hw with rfl | hw
      · rw [hpend]
        exact Fate.noConfusion
      · exact hvnew w hw hwslot

omit [DecidableEq ι] in
/-- Of the exposed updates of a slot one is the oldest. -/
theorem exists_oldest (h : ∃ ys u xs, us = ys ++ u :: xs ∧ u.slot = i ∧ Exposed fate u ys) :
    ∃ ys u xs, us = ys ++ u :: xs ∧ u.slot = i ∧ Exposed fate u ys ∧
      ∀ zs v ws, xs = zs ++ v :: ws → v.slot = i → ¬Exposed fate v (ys ++ u :: zs) := by
  classical
  have hlen : ∃ n, ∃ ys u xs, us = ys ++ u :: xs ∧ u.slot = i ∧ Exposed fate u ys ∧
      xs.length = n := by
    obtain ⟨ys, u, xs, hus, hslot, hu⟩ := h
    exact ⟨_, ys, u, xs, hus, hslot, hu, rfl⟩
  obtain ⟨ys, u, xs, hus, hslot, hu, hn⟩ := Nat.find_spec hlen
  refine ⟨ys, u, xs, hus, hslot, hu, fun zs v ws hxs hv hex => ?_⟩
  refine Nat.find_min hlen (m := ws.length) ?_ ⟨ys ++ u :: zs, v, ws, ?_, hv, hex, rfl⟩
  · rw [← hn, hxs, length_append, length_cons]
    omega
  · rw [hus, hxs, append_assoc, cons_append]

/-- Where the value of a slot comes from. -/
theorem contents_origin (d : ι → V) (us : List (Update ι τ V)) (i : ι) :
    (∀ u ∈ us, u.slot ≠ i) ∧ contents d us i = d i ∨
      ∃ ys u xs, us = ys ++ u :: xs ∧ u.slot = i ∧ (∀ v ∈ ys, v.slot ≠ i) ∧
        contents d us i = u.new := by
  induction us with
  | nil => exact Or.inl ⟨fun u hu => absurd hu not_mem_nil, rfl⟩
  | cons u us ih =>
    rcases eq_or_ne u.slot i with hslot | hne
    · refine Or.inr ⟨[], u, us, rfl, hslot, fun v hv => absurd hv not_mem_nil, ?_⟩
      rw [contents, hslot, Function.update_self]
    · have hsame : contents d (u :: us) i = contents d us i := by
        rw [contents, Function.update_of_ne hne.symm]
      rw [hsame]
      rcases ih with ⟨hall, h⟩ | ⟨ys, v, xs, rfl, hslot, hys, h⟩
      · refine Or.inl ⟨fun v hv => ?_, h⟩
        rcases mem_cons.1 hv with rfl | hv
        · exact hne
        · exact hall v hv
      · refine Or.inr ⟨u :: ys, v, xs, rfl, hslot, fun w hw => ?_, h⟩
        rcases mem_cons.1 hw with rfl | hw
        · exact hne
        · exact hys w hw

/-- **Where the value of a slot of the image comes from**: from the beginning, or from an update
whose target is not pending. -/
theorem rollback_origin (fate : τ → Fate) (save : V → V) (d : ι → V) (us : List (Update ι τ V))
    (i : ι) : ∃ v, (v = d i ∨ ∃ u ∈ us, u.slot = i ∧ fate u.target ≠ .pending ∧ v = u.new) ∧
      (rollback (contents d us) (prune fate (fun _ => false) (undoLog save d us)) i = v ∨
        rollback (contents d us) (prune fate (fun _ => false) (undoLog save d us)) i = save v) := by
  by_cases h : ∃ ys u xs, us = ys ++ u :: xs ∧ u.slot = i ∧ Exposed fate u ys
  · obtain ⟨ys, u, xs, rfl, rfl, hu, hold⟩ := exists_oldest h
    refine ⟨contents d xs u.slot, ?_, Or.inr (rollback_of_exposed hu hold)⟩
    rcases contents_origin d xs u.slot with ⟨-, hd⟩ | ⟨zs, v, ws, rfl, hslot, hzs, hv⟩
    · exact Or.inl hd
    · refine Or.inr ⟨v, by simp, hslot, fun hpend => ?_, hv⟩
      refine hold zs v ws rfl hslot ⟨hpend, fun w hw hwslot => ?_⟩
      rcases mem_append.1 hw with hw | hw
      · exact hu.2 w hw (hwslot.trans hslot)
      · rcases mem_cons.1 hw with rfl | hw
        · rw [hu.1]
          exact Fate.noConfusion
        · exact absurd (hwslot.trans hslot) (hzs w hw)
  · have hnone : ∀ ys u xs, us = ys ++ u :: xs → u.slot = i → ¬Exposed fate u ys :=
      fun ys u xs hus hslot hu => h ⟨ys, u, xs, hus, hslot, hu⟩
    refine ⟨contents d us i, ?_, Or.inl (rollback_of_not_exposed hnone)⟩
    rcases contents_origin d us i with ⟨-, hd⟩ | ⟨ys, u, xs, hus, hslot, hys, hu⟩
    · exact Or.inl hd
    · refine Or.inr ⟨u, by simp [hus], hslot, fun hpend => ?_, hu⟩
      exact hnone ys u xs hus hslot ⟨hpend, fun v hv hv' => absurd (hv'.trans hslot) (hys v hv)⟩

/-- Without pending updates nothing is kept. -/
theorem prune_eq_nil (h : ∀ u ∈ us, fate u.target ≠ .pending) :
    prune fate done (undoLog save d us) = [] := by
  refine eq_nil_iff_forall_not_mem.2 fun p hp => ?_
  obtain ⟨ys, u, xs, rfl, -, hpend, -⟩ := exposed_of_mem_prune hp
  exact h u (by simp) hpend

end UndoLog

end Lib

end Plan9
