import Mathlib.Algebra.BigOperators.Fin
import Mathlib.Data.List.Nodup
import Mathlib.Data.List.TakeWhile
import Mathlib.Tactic.Ring
import Plan9.Ip.Tcp
import Plan9.Lib.Linked

/-!
# Calls in limbo

A SYN gets no conversation but a place in a hash table, the limbo, from which it is taken by the
acknowledgement of our SYN (`Plan9.Ip.Limbo.Table.tcpincoming`), by a reset
(`Plan9.Ip.Limbo.Table.limborst`), or when it has been answered in vain for long enough
(`Plan9.Ip.Limbo.Table.limborexmit`). When there are too many calls a new one takes the entry of
the first one in its chain (`Plan9.Ip.Limbo.Table.limbo`).

A chain is a list, and a pointer to a link is a place in it. This is so as long as no link is
written through that is not in a chain any more, which happens once: an entry that is alone in its
chain is first taken out and then put behind itself, so that nothing leads to it
(`Plan9.Ip.Limbo.linked_recycle`). What is allocated but not in a chain is kept in `lost`.
-/

namespace Plan9

namespace Ip

namespace Limbo

open Function

/-! ### Entries -/

/-- An address, of `IPaddrlen` bytes. -/
abbrev Addr := Vector UInt8 16

/-- A segment with its ports. -/
structure Seg extends Tcp where
  source : UInt16
  dest : UInt16

/-- `struct Limbo`. -/
structure Call extends Conv.Limbo where
  laddr : Addr
  raddr : Addr
  lport : UInt16
  rport : UInt16
  sndscale : UInt16
  lastsend : UInt32
  version : UInt8
  rexmits : UInt8

/-- What tells calls apart. -/
structure Key where
  version : UInt8
  laddr : Addr
  lport : UInt16
  raddr : Addr
  rport : UInt16
  deriving DecidableEq

def Call.key (lp : Call) : Key := ⟨lp.version, lp.laddr, lp.lport, lp.raddr, lp.rport⟩

/-- The key of a segment that arrives. -/
def Seg.key (seg : Seg) (src dst : Addr) (version : UInt8) : Key :=
  ⟨version, dst, seg.dest, src, seg.source⟩

def hashipa (a : Addr) (p : UInt16) : Fin 256 :=
  Fin.ofNat 256 (a[14].toNat + a[15].toNat + p.toNat)

/-- The chain of a call. -/
def Key.hash (k : Key) : Fin 256 := hashipa k.raddr k.rport

/-- `Maxlimbo`. -/
def maxlimbo : ℤ := 1000

/-- `SYNACK_RXTIMER`. -/
def synackRxtimer : UInt32 := 250

/-- `sndsynack`, when there is memory for the answer; the scale is `Defadvscale`. -/
def Call.sndsynack (lp : Call) (now : UInt32) : Call :=
  { lp with sndscale := if lp.rcvscale ≠ 0 then 4 else 0, lastsend := now }

/-- The fields that a new call sets. -/
def Call.fill (lp : Call) (seg : Seg) (src dst : Addr) (version : UInt8) (iss : UInt32) : Call :=
  { lp with
    version, laddr := dst, raddr := src, lport := seg.dest, rport := seg.source
    mss := seg.mss, rcvscale := seg.ws, irs := seg.seq, iss }

/-- What `malloc` returns. -/
def Call.zero : Call where
  irs := 0
  iss := 0
  mss := 0
  rcvscale := 0
  laddr := Vector.replicate 16 0
  raddr := Vector.replicate 16 0
  lport := 0
  rport := 0
  sndscale := 0
  lastsend := 0
  version := 0
  rexmits := 0

/-! ### The table -/

/-- The table; the entries in `lost` are allocated, and no chain leads to them. -/
structure Table where
  lht : Fin 256 → List Call
  nlimbo : ℤ
  lost : List Call

namespace Table

variable (t : Table)

def put (h : Fin 256) (es : List Call) : Table := { t with lht := Function.update t.lht h es }

/-- The search: what is before the link where it ends, and what that link leads to. -/
def search (k : Key) : List Call × List Call :=
  (t.lht k.hash).span fun lp => !decide (lp.key = k)

/-- The call behind the link is answered; without memory for that it is thrown out. -/
def answer (h : Fin 256) (pre : List Call) (lp : Call) (post : List Call) (now : UInt32)
    (sent : Bool) : Table :=
  if sent then t.put h (pre ++ lp.sndsynack now :: post)
  else { t.put h (pre ++ post) with nlimbo := t.nlimbo - 1 }

/-- A new call in an entry of its own, if there is memory for one. -/
def enter (h : Fin 256) (lp : Call) (now : UInt32) (mem sent : Bool) : Table :=
  if mem then { t with nlimbo := t.nlimbo + 1 }.answer h (t.lht h) lp [] now sent else t

/-- A new call in the first entry of its chain. -/
def recycle (h : Fin 256) (lp : Call) (es : List Call) (now : UInt32) (sent : Bool) : Table :=
  match es with
  | [] =>
    -- `l` is the link of the entry itself: out of the chain, it is linked behind itself
    if sent then { t.put h [] with lost := lp.sndsynack now :: t.lost }
    else { t.put h [] with nlimbo := t.nlimbo - 1 }
  | es => t.answer h es lp [] now sent

/-- A SYN; `mem` and `sent` say whether there is memory for an entry and for the answer. -/
def limbo (src dst : Addr) (seg : Seg) (version : UInt8) (now iss : UInt32) (mem sent : Bool) :
    Table :=
  let k := seg.key src dst version
  match t.search k with
  -- each new SYN restarts the retransmits
  | (pre, lp :: post) => t.answer k.hash pre { lp with irs := seg.seq } post now sent
  | (_, []) =>
    match t.lht k.hash with
    | lp :: es =>
      if maxlimbo ≤ t.nlimbo then t.recycle k.hash (lp.fill seg src dst version iss) es now sent
      else t.enter k.hash (Call.zero.fill seg src dst version iss) now mem sent
    | [] => t.enter k.hash (Call.zero.fill seg src dst version iss) now mem sent

/-- A reset throws a call out, if it follows the SYN. -/
def limborst (seg : Seg) (src dst : Addr) (version : UInt8) : Table :=
  let k := seg.key src dst version
  match t.search k with
  | (pre, lp :: post) =>
    if seg.seq = lp.irs + 1 then { t.put k.hash (pre ++ post) with nlimbo := t.nlimbo - 1 } else t
  | (_, []) => t

/-- The acknowledgement of our SYN takes a call out, as `tcpincoming` does before it builds the
conversation; `new` says whether `Fsnewcall` finds one. -/
def tcpincoming (seg : Seg) (src dst : Addr) (version : UInt8) (new : Bool) : Table :=
  if seg.flags.syn ∨ seg.flags.ack = false then t
  else
    let k := seg.key src dst version
    match t.search k with
    | (pre, lp :: post) =>
      if seg.seq ≠ lp.irs + 1 ∨ seg.ack ≠ lp.iss + 1 then t
      else
        let t' := { t.put k.hash (pre ++ post) with nlimbo := t.nlimbo - 1 }
        -- the entry is freed with the new conversation only
        if new then t' else { t' with lost := lp :: t.lost }
    | (_, []) => t

end Table

/-! ### Answering again -/

/-- What comes of a call that the timer looks at. -/
inductive Service
  | early
  | expired
  | quiet
  | resent
  | failed
  deriving DecidableEq

/-- The answer is due again. -/
def Due (now : UInt32) (lp : Call) : Prop :=
  ¬now - lp.lastsend < (lp.rexmits.toUInt32 + 1) * synackRxtimer

instance (now : UInt32) (lp : Call) : Decidable (Due now lp) := inferInstanceAs (Decidable (¬_))

/-- The call has been answered once more. -/
def Call.again (lp : Call) : Call := { lp with rexmits := lp.rexmits + 1 }

/-- Where `limborexmit` stands: a chain or the table, its counters, and the calls that it has
looked at with what came of them. -/
structure Pass (α : Type) where
  left : α
  seen : ℕ
  nlimbo : ℤ
  log : List (Call × Service)

/-- One more look. -/
def Pass.look {α : Type} (e : Call × Service) (r : Pass α) : Pass α := { r with log := e :: r.log }

section Rexmit

variable (now : UInt32) (sent : ℕ → Bool)

/-- The inner loop of `limborexmit`; `l` is the link between `pre` and `post`. -/
def scan (pre post : List Call) (seen : ℕ) (nlimbo : ℤ) : Pass (List Call) :=
  match post with
  | [] => ⟨pre, seen, nlimbo, []⟩
  | lp :: es =>
    if (seen : ℤ) < nlimbo then
      if ¬Due now lp then (scan pre (lp :: es) (seen + 1) nlimbo).look (lp, .early)
      -- time it out
      else if 5 < lp.again.rexmits then (scan pre es (seen + 1) (nlimbo - 1)).look (lp, .expired)
      -- we are being attacked
      else if 100 < nlimbo then (scan pre (lp.again :: es) (seen + 1) nlimbo).look (lp, .quiet)
      else if sent (seen + 1) then
        (scan (pre ++ [lp.again.sndsynack now]) es (seen + 1) nlimbo).look (lp, .resent)
      else (scan pre es (seen + 1) (nlimbo - 1)).look (lp, .failed)
    else ⟨pre ++ lp :: es, seen, nlimbo, []⟩
termination_by (nlimbo - seen).toNat
decreasing_by all_goals omega

/-- The outer loop of `limborexmit`, over the chains `hs`. -/
def scanAll : List (Fin 256) → (Fin 256 → List Call) → ℕ → ℤ → Pass (Fin 256 → List Call)
  | [], lht, seen, nlimbo => ⟨lht, seen, nlimbo, []⟩
  | h :: hs, lht, seen, nlimbo =>
    if (seen : ℤ) < nlimbo then
      let r := scan now sent [] (lht h) seen nlimbo
      let r' := scanAll hs (Function.update lht h r.left) r.seen r.nlimbo
      { r' with log := r.log ++ r'.log }
    else ⟨lht, seen, nlimbo, []⟩

/-- `limborexmit`, when the lock is free; `sent k` says whether there is memory for the answer to
the call that is the `k`-th to be looked at. -/
def Table.rexmit (t : Table) : Pass (Fin 256 → List Call) :=
  scanAll now sent (List.finRange 256) t.lht 0 t.nlimbo

def Table.limborexmit (t : Table) : Table :=
  { t with lht := (t.rexmit now sent).left, nlimbo := (t.rexmit now sent).nlimbo }

end Rexmit

/-! ### Steps -/

/-- What can happen to the table. -/
inductive Act
  | limbo (src dst : Addr) (seg : Seg) (version : UInt8) (now iss : UInt32) (mem sent : Bool)
  | limborst (seg : Seg) (src dst : Addr) (version : UInt8)
  | tcpincoming (seg : Seg) (src dst : Addr) (version : UInt8) (new : Bool)
  | limborexmit (now : UInt32) (sent : ℕ → Bool)

def Table.act (t : Table) : Act → Table
  | .limbo src dst seg version now iss mem sent => t.limbo src dst seg version now iss mem sent
  | .limborst seg src dst version => t.limborst seg src dst version
  | .tcpincoming seg src dst version new => t.tcpincoming seg src dst version new
  | .limborexmit now sent => t.limborexmit now sent

def Step (t : Table) (a : Act) (t' : Table) : Prop := t' = t.act a

/-- No calls. -/
def Table.empty : Table := ⟨fun _ => [], 0, []⟩

/-! ### The link that is written last -/

section Links

open Lib

variable {ι : Type*} [DecidableEq ι] {next : ι → Option ι} {a : ι} {es : List ι}

/-- **Recycling the first entry of a chain**: `lp = lht[h]; lht[h] = lp->next; lp->next = nil;
*l = lp`, with `l` the link of the last entry. Other entries are left with `lp` behind them; an
entry that was alone is left behind itself, and the chain is empty. -/
theorem linked_recycle (h : Linked next (some a) (a :: es) none) (hnd : (a :: es).Nodup)
    {last : ι} (hlast : (a :: es).getLast? = some last) :
    let next' := update (update next a none) last (some a)
    (es ≠ [] → Linked next' (next a) (es ++ [a]) none) ∧
      (es = [] → next a = none ∧ next' a = some a) := by
  intro next'
  obtain ⟨-, hes⟩ := h
  obtain ⟨hout, hnd'⟩ := List.nodup_cons.1 hnd
  constructor
  · intro hne
    obtain ⟨es', x, rfl⟩ := List.eq_nil_or_concat es |>.resolve_left hne
    rw [List.concat_eq_append] at hes hout hnd' hlast
    rw [List.concat_eq_append]
    rw [← List.cons_append, List.getLast?_concat, Option.some.injEq] at hlast
    subst hlast
    have hxa : x ≠ a := by
      rintro rfl
      exact hout (List.mem_append_right _ (List.mem_singleton.2 rfl))
    have hx : x ∉ es' := fun hx => (List.nodup_append.1 hnd').2.2 x hx x
      (List.mem_singleton.2 rfl) rfl
    rw [linked_concat] at hes
    refine linked_concat.2 ⟨linked_concat.2 ⟨hes.1.congr fun y hy => ?_, ?_⟩, ?_⟩
    · have hya : y ≠ a := fun heq => hout (heq ▸ List.mem_append_left _ hy)
      have hyx : y ≠ x := ne_of_mem_of_not_mem hy hx
      show update (update next a none) x (some a) y = next y
      rw [update_of_ne hyx, update_of_ne hya]
    · exact update_self ..
    · show update (update next a none) x (some a) a = none
      rw [update_of_ne hxa.symm, update_self]
  · rintro rfl
    obtain rfl : a = last := Option.some.inj hlast
    exact ⟨hes, update_self ..⟩

end Links

/-! ### The invariant -/

/-- **The table is consistent.** -/
structure Inv (t : Table) : Prop where
  placed : ∀ h, ∀ lp ∈ t.lht h, lp.key.hash = h
  nodup : ∀ h, ((t.lht h).map Call.key).Nodup
  count : t.nlimbo = ∑ h, ((t.lht h).length : ℤ)
  lost : t.lost = []

/-- All the calls in the chains. -/
def Table.all (t : Table) : List Call := (List.finRange 256).flatMap t.lht

section Invariant

variable {t : Table} {h : Fin 256} {k : Key} {es : List Call} {n : ℤ}

theorem inv_empty : Inv Table.empty where
  placed _ lp hlp := absurd hlp List.not_mem_nil
  nodup _ := List.nodup_nil
  count := by simp [Table.empty]
  lost := rfl

/-- **A chain is replaced**: what is in it belongs there, and the count goes with its length. -/
theorem Inv.put (hi : Inv t) (hplaced : ∀ lp ∈ es, lp.key.hash = h)
    (hnodup : (es.map Call.key).Nodup) (hn : n = t.nlimbo + es.length - (t.lht h).length) :
    Inv { t.put h es with nlimbo := n } where
  placed h' lp hlp := by
    by_cases hh : h' = h
    · subst hh
      simp only [Table.put, update_self] at hlp
      exact hplaced lp hlp
    · simp only [Table.put, update_of_ne hh] at hlp
      exact hi.placed h' lp hlp
  nodup h' := by
    by_cases hh : h' = h
    · subst hh
      simp only [Table.put, update_self]
      exact hnodup
    · simp only [Table.put, update_of_ne hh]
      exact hi.nodup h'
  count := by
    have hsum : ∑ h', ((update t.lht h es h').length : ℤ) =
        ∑ h', ((t.lht h').length : ℤ) + (es.length - (t.lht h).length) := by
      have hupd : (fun h' => ((update t.lht h es h').length : ℤ)) =
          update (fun h' => ((t.lht h').length : ℤ)) h es.length := by
        funext h'
        by_cases hh : h' = h
        · subst hh
          rw [update_self, update_self]
        · rw [update_of_ne hh, update_of_ne hh]
      rw [hupd, Finset.sum_update_of_mem (Finset.mem_univ h), ← Finset.sum_sdiff
        (Finset.subset_univ {h}) (f := fun h' => ((t.lht h').length : ℤ)), Finset.sum_singleton]
      ring
    show n = ∑ h', ((update t.lht h es h').length : ℤ)
    rw [hsum, ← hi.count, hn]
    ring
  lost := hi.lost

variable {pre post : List Call}

/-- What the search finds. -/
theorem search_eq (hs : t.search k = (pre, post)) :
    t.lht k.hash = pre ++ post ∧ (∀ lp ∈ pre, lp.key ≠ k) ∧ ∀ lp ∈ post.head?, lp.key = k := by
  rw [Table.search, List.span_eq_takeWhile_dropWhile, Prod.mk.injEq] at hs
  obtain ⟨rfl, rfl⟩ := hs
  refine ⟨List.takeWhile_append_dropWhile.symm, fun lp hlp => ?_, fun lp hlp => ?_⟩
  · simpa using List.mem_takeWhile_imp hlp
  · have hhead := List.head?_dropWhile_not (fun lp : Call => !decide (lp.key = k)) (t.lht k.hash)
    rw [hlp] at hhead
    simpa using hhead

variable {lp : Call}

/-- **An answer** keeps the table consistent, when the chain is with the call what it should be. -/
theorem Inv.answer (hi : Inv t) (hplaced : ∀ x ∈ pre ++ lp :: post, x.key.hash = h)
    (hnodup : ((pre ++ lp :: post).map Call.key).Nodup)
    (hn : n = t.nlimbo + (pre ++ lp :: post).length - (t.lht h).length) (now : UInt32) (sent : Bool)
    : Inv ({ t with nlimbo := n }.answer h pre lp post now sent) := by
  have hlen : ((pre ++ lp :: post).length : ℤ) = (pre ++ post).length + 1 := by
    rw [List.length_append, List.length_cons, List.length_append]
    push_cast
    ring
  rw [Table.answer]
  split
  · refine hi.put ?_ ?_ ?_
    · simp only [List.forall_mem_append, List.forall_mem_cons] at hplaced ⊢
      exact hplaced
    · rw [List.map_append, List.map_cons] at hnodup ⊢
      exact hnodup
    · rw [hn, hlen, List.length_append, List.length_append, List.length_cons]
      push_cast
      ring
  · have hsub : (pre ++ post).Sublist (pre ++ lp :: post) :=
      (List.sublist_cons_self lp post).append_left pre
    refine hi.put (fun x hx => hplaced x (hsub.subset hx))
      (hnodup.sublist (hsub.map _)) ?_
    show n - 1 = _
    rw [hn, hlen]
    ring

/-- A call that is not in the chain goes to its end. -/
theorem chain_concat (hplaced : ∀ x ∈ es, x.key.hash = h) (hnodup : (es.map Call.key).Nodup)
    (hlp : lp.key.hash = h) (hnew : ∀ x ∈ es, x.key ≠ lp.key) :
    (∀ x ∈ es ++ [lp], x.key.hash = h) ∧ ((es ++ [lp]).map Call.key).Nodup := by
  constructor
  · intro x hx
    rcases List.mem_append.1 hx with hx | hx
    · exact hplaced x hx
    · rw [List.mem_singleton.1 hx]
      exact hlp
  · rw [List.map_append, List.map_cons, List.map_nil, List.nodup_append]
    refine ⟨hnodup, List.nodup_singleton _, ?_⟩
    rintro a ha b hb rfl
    obtain ⟨x, hx, rfl⟩ := List.mem_map.1 ha
    exact hnew x hx (List.mem_singleton.1 hb)

theorem Inv.enter (hi : Inv t) (hlp : lp.key.hash = h) (hnew : ∀ x ∈ t.lht h, x.key ≠ lp.key)
    (now : UInt32) (mem sent : Bool) :
    Inv (t.enter h lp now mem sent) := by
  rw [Table.enter]
  split
  · obtain ⟨hplaced, hnodup⟩ := chain_concat (hi.placed h) (hi.nodup h) hlp hnew
    refine hi.answer hplaced hnodup ?_ now sent
    rw [List.length_append, List.length_singleton]
    push_cast
    ring
  · exact hi

theorem Inv.recycle (hi : Inv t) {lp' : Call} (hlp : lp'.key.hash = h) (hes : t.lht h = lp :: es)
    (hnew : ∀ x ∈ t.lht h, x.key ≠ lp'.key) (now : UInt32) {sent : Bool}
    (hok : es = [] → sent = false) : Inv (t.recycle h lp' es now sent) := by
  have hplaced := hi.placed h
  have hnodup := hi.nodup h
  rw [hes] at hplaced hnodup hnew
  cases es with
  | nil =>
    rw [hok rfl, Table.recycle, if_neg Bool.false_ne_true]
    refine hi.put (fun x hx => absurd hx List.not_mem_nil) List.nodup_nil ?_
    rw [hes, List.length_nil, List.length_singleton]
    push_cast
    ring
  | cons x es =>
    obtain ⟨hplaced', hnodup'⟩ := chain_concat
      (fun y hy => hplaced y (List.mem_cons_of_mem lp hy)) (List.nodup_cons.1 hnodup).2 hlp
      fun y hy => hnew y (List.mem_cons_of_mem lp hy)
    refine hi.answer (n := t.nlimbo) hplaced' hnodup' ?_ now sent
    simp only [hes, List.length_append, List.length_cons, List.length_nil]
    push_cast
    ring

/-- A call is thrown out. -/
theorem Inv.remove (hi : Inv t) (hes : t.lht h = pre ++ lp :: post) :
    Inv { t.put h (pre ++ post) with nlimbo := t.nlimbo - 1 } := by
  have hsub : (pre ++ post).Sublist (t.lht h) := by
    rw [hes]
    exact (List.sublist_cons_self lp post).append_left pre
  refine hi.put (fun x hx => hi.placed h x (hsub.subset hx))
    ((hi.nodup h).sublist (hsub.map _)) ?_
  rw [hes, List.length_append, List.length_append, List.length_cons]
  push_cast
  ring

/-! ### The steps keep it, or lose an entry -/

/-- **When a step is safe**: a SYN of a new call does not find the table full and one entry in its
chain, or is not answered; and a call whose acknowledgement arrives finds a conversation. -/
def Ok (t : Table) : Act → Prop
  | .limbo src dst seg version _ _ _ sent =>
    maxlimbo ≤ t.nlimbo → (∃ lp, t.lht (seg.key src dst version).hash = [lp] ∧
      lp.key ≠ seg.key src dst version) → sent = false
  | .tcpincoming seg src dst version new =>
    seg.flags.syn = false → seg.flags.ack = true →
      (∃ lp ∈ t.lht (seg.key src dst version).hash, lp.key = seg.key src dst version ∧
        seg.seq = lp.irs + 1 ∧ seg.ack = lp.iss + 1) → new = true
  | .limborst .. | .limborexmit .. => True

theorem lost_answer (pre post : List Call) (lp : Call) (now : UInt32) (sent : Bool) :
    (t.answer h pre lp post now sent).lost = t.lost := by
  rw [Table.answer]
  split <;> rfl

theorem key_fill (lp : Call) (seg : Seg) (src dst : Addr) (version : UInt8) (iss : UInt32) :
    (lp.fill seg src dst version iss).key = seg.key src dst version := rfl

/-- **A SYN.** -/
theorem limbo_spec (hi : Inv t) (src dst : Addr) (seg : Seg) (version : UInt8) (now iss : UInt32)
    (mem sent : Bool) :
    (Ok t (.limbo src dst seg version now iss mem sent) →
        Inv (t.limbo src dst seg version now iss mem sent)) ∧
      (¬Ok t (.limbo src dst seg version now iss mem sent) →
        (t.limbo src dst seg version now iss mem sent).lost ≠ []) := by
  obtain ⟨k, hk⟩ : ∃ k, seg.key src dst version = k := ⟨_, rfl⟩
  obtain ⟨pre, post, hs⟩ : ∃ pre post, t.search k = (pre, post) := ⟨_, _, rfl⟩
  obtain ⟨hes, hpre, hpost⟩ := search_eq hs
  rw [Ok, Table.limbo, hk]
  simp only [hs]
  rcases post with _ | ⟨lp, post⟩
  · -- a new call
    rw [List.append_nil] at hes
    have hnew : ∀ x ∈ t.lht k.hash, x.key ≠ k := by rwa [hes]
    have hfill (lp : Call) : (lp.fill seg src dst version iss).key = k := by
      rw [key_fill, hk]
    have henter : Inv (t.enter k.hash (Call.zero.fill seg src dst version iss) now mem sent) :=
      hi.enter (by rw [hfill]) (by rwa [hfill]) now mem sent
    dsimp only
    cases hchain : t.lht k.hash with
    | nil =>
      refine ⟨fun _ => henter, fun hno => absurd ?_ hno⟩
      rintro - ⟨lp, hlp, -⟩
      cases hlp
    | cons lp es =>
      dsimp only
      split
      · rename_i hfull
        constructor
        · intro hok
          refine hi.recycle (by rw [hfill]) hchain (by rwa [hfill]) now fun hnil => ?_
          subst hnil
          exact hok hfull ⟨lp, rfl, hnew lp (by rw [hchain]; exact List.mem_cons_self)⟩
        · intro hno
          push Not at hno
          obtain ⟨-, ⟨lp', hlp', -⟩, hsent⟩ := hno
          rw [List.cons.injEq] at hlp'
          rw [hlp'.2, Table.recycle, if_pos (by simpa using hsent)]
          exact List.cons_ne_nil _ _
      · rename_i hroom
        exact ⟨fun _ => henter, fun hno => absurd (fun hfull => absurd hfull hroom) hno⟩
  · have hkey : lp.key = k := hpost lp rfl
    have hplaced := hi.placed k.hash
    have hnodup := hi.nodup k.hash
    rw [hes] at hplaced hnodup
    constructor
    · intro _
      refine hi.answer ?_ ?_ ?_ now sent
      · simp only [List.forall_mem_append, List.forall_mem_cons] at hplaced ⊢
        exact hplaced
      · rw [List.map_append, List.map_cons] at hnodup ⊢
        exact hnodup
      · rw [hes, List.length_append, List.length_append, List.length_cons, List.length_cons]
        ring
    · intro hno
      push Not at hno
      obtain ⟨-, ⟨lp', hlp', hne⟩, -⟩ := hno
      have hmem : lp ∈ [lp'] := by
        rw [← hlp', hes]
        exact List.mem_append_right _ List.mem_cons_self
      rw [← List.mem_singleton.1 hmem] at hne
      exact absurd hkey hne

/-- **A reset.** -/
theorem Inv.limborst (hi : Inv t) (seg : Seg) (src dst : Addr) (version : UInt8) :
    Inv (t.limborst seg src dst version) := by
  obtain ⟨pre, post, hs⟩ : ∃ pre post, t.search (seg.key src dst version) = (pre, post) :=
    ⟨_, _, rfl⟩
  obtain ⟨hes, -, -⟩ := search_eq hs
  rw [Table.limborst]
  simp only [hs]
  rcases post with _ | ⟨lp, post⟩
  · exact hi
  · dsimp only
    split
    · exact hi.remove hes
    · exact hi

/-- **An acknowledgement.** -/
theorem tcpincoming_spec (hi : Inv t) (seg : Seg) (src dst : Addr) (version : UInt8) (new : Bool) :
    (Ok t (.tcpincoming seg src dst version new) → Inv (t.tcpincoming seg src dst version new)) ∧
      (¬Ok t (.tcpincoming seg src dst version new) →
        (t.tcpincoming seg src dst version new).lost ≠ []) := by
  obtain ⟨k, hk⟩ : ∃ k, seg.key src dst version = k := ⟨_, rfl⟩
  obtain ⟨pre, post, hs⟩ : ∃ pre post, t.search k = (pre, post) := ⟨_, _, rfl⟩
  obtain ⟨hes, hpre, hpost⟩ := search_eq hs
  rw [Ok, Table.tcpincoming, hk]
  simp only [hs]
  by_cases hflags : seg.flags.syn ∨ seg.flags.ack = false
  · rw [if_pos hflags]
    refine ⟨fun _ => hi, fun hno => absurd ?_ hno⟩
    intro hsyn hack
    rcases hflags with hflags | hflags
    · rw [hsyn] at hflags
      cases hflags
    · rw [hack] at hflags
      cases hflags
  rw [if_neg hflags]
  rcases post with _ | ⟨lp, post⟩
  · refine ⟨fun _ => hi, fun hno => absurd ?_ hno⟩
    rintro - - ⟨x, hx, hkey, -⟩
    rw [hes, List.append_nil] at hx
    exact absurd hkey (hpre x hx)
  · have hkey : lp.key = k := hpost lp rfl
    dsimp only
    by_cases hseq : seg.seq ≠ lp.irs + 1 ∨ seg.ack ≠ lp.iss + 1
    · rw [if_pos hseq]
      refine ⟨fun _ => hi, fun hno => absurd ?_ hno⟩
      rintro - - ⟨x, hx, hx', h1, h2⟩
      -- the keys in a chain are different, so this is the call that was found
      have hnodup := hi.nodup k.hash
      have hmem : lp ∈ t.lht k.hash := by
        rw [hes]
        exact List.mem_append_right _ List.mem_cons_self
      have heq : x = lp := List.inj_on_of_nodup_map hnodup hx hmem (hx'.trans hkey.symm)
      subst heq
      rcases hseq with hne | hne
      · exact absurd h1 hne
      · exact absurd h2 hne
    · rw [if_neg hseq]
      push Not at hseq hflags
      have hmem : lp ∈ t.lht k.hash := by
        rw [hes]
        exact List.mem_append_right _ List.mem_cons_self
      cases new with
      | true =>
        rw [if_pos rfl]
        exact ⟨fun _ => hi.remove hes, fun hno => absurd (fun _ _ _ => rfl) hno⟩
      | false =>
        rw [if_neg Bool.false_ne_true]
        refine ⟨fun hok => ?_, fun _ => List.cons_ne_nil _ _⟩
        exact absurd (hok (by simpa using hflags.1) (by simpa using hflags.2)
          ⟨lp, hmem, hkey, hseq.1, hseq.2⟩) Bool.false_ne_true

end Invariant

end Limbo

end Ip

end Plan9
