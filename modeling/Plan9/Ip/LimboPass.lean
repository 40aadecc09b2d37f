import Plan9.Ip.Limbo
import Plan9.Lib.Run

/-!
# Answering calls in limbo again

`limborexmit` goes through the chains with a pointer to a link and with two counters: how many
calls it has looked at, and how many there are. A call that is not due yet, and one that is when
there are more than a hundred, leaves the pointer where it is, and the next look is at the same
call again; a call that is thrown out makes the second counter smaller while the first one goes on,
and the pass ends one call too early. So each call is looked at once, and answered if it is due,
only if all but the last of the calls are due and are answered
(`Plan9.Ip.Limbo.exact_iff_smooth`). The table stays consistent (`Plan9.Ip.Limbo.Inv.limborexmit`).
-/

namespace Plan9

namespace Ip

namespace Limbo

open Lib (Run Guarded)
open List

variable {now : UInt32} {sent : ℕ → Bool} {t : Table} {es pre post : List Call} {lp : Call}
  {seen : ℕ} {nlimbo : ℤ} {hs : List (Fin 256)} {lht : Fin 256 → List Call}

/-! ### The table -/

/-- **One chain**: no call is new, and the count goes with the length. -/
theorem scan_spec (now : UInt32) (sent : ℕ → Bool) (pre post : List Call) (seen : ℕ) (nlimbo : ℤ) :
    ((scan now sent pre post seen nlimbo).left.map Call.key).Sublist
        ((pre ++ post).map Call.key) ∧
      (scan now sent pre post seen nlimbo).nlimbo =
        nlimbo + (scan now sent pre post seen nlimbo).left.length - (pre ++ post).length := by
  have hdrop (pre : List Call) (lp : Call) (es : List Call) :
      ((pre ++ es).map Call.key).Sublist ((pre ++ lp :: es).map Call.key) :=
    ((sublist_cons_self lp es).append_left pre).map _
  induction pre, post, seen, nlimbo using scan.induct now sent with
  | case1 pre seen nlimbo =>
    rw [scan, append_nil]
    exact ⟨Sublist.refl _, by simp⟩
  | case2 pre seen nlimbo lp es hlt hearly ih =>
    rw [scan, if_pos hlt, if_pos hearly]
    exact ih
  | case3 pre seen nlimbo lp es hlt hdue hold ih =>
    rw [scan, if_pos hlt, if_neg hdue, if_pos hold]
    refine ⟨ih.1.trans (hdrop pre lp es), ?_⟩
    show (scan now sent pre es (seen + 1) (nlimbo - 1)).nlimbo = _
    rw [ih.2, length_append, length_append, length_cons]
    push_cast
    simp only [Pass.look]
    ring
  | case4 pre seen nlimbo lp es hlt hdue hold hmany ih =>
    rw [scan, if_pos hlt, if_neg hdue, if_neg hold, if_pos hmany]
    rw [map_append, map_cons] at ih ⊢
    rw [length_append, length_cons] at ih ⊢
    exact ih
  | case5 pre seen nlimbo lp es hlt hdue hold hfew hsent ih =>
    rw [scan, if_pos hlt, if_neg hdue, if_neg hold, if_neg hfew, if_pos hsent]
    rw [append_assoc, singleton_append, map_append, map_cons, length_append, length_cons] at ih
    rw [map_append, map_cons, length_append, length_cons]
    exact ih
  | case6 pre seen nlimbo lp es hlt hdue hold hfew hsent ih =>
    rw [scan, if_pos hlt, if_neg hdue, if_neg hold, if_neg hfew, if_neg hsent]
    refine ⟨ih.1.trans (hdrop pre lp es), ?_⟩
    show (scan now sent pre es (seen + 1) (nlimbo - 1)).nlimbo = _
    rw [ih.2, length_append, length_append, length_cons]
    push_cast
    simp only [Pass.look]
    ring
  | case7 pre seen nlimbo lp es hge =>
    rw [scan, if_neg hge]
    exact ⟨Sublist.refl _, by simp⟩

theorem Inv.scanAll (hi : Inv t) (now : UInt32) (sent : ℕ → Bool) (hs : List (Fin 256)) (seen : ℕ) :
    Inv { t with
      lht := (scanAll now sent hs t.lht seen t.nlimbo).left
      nlimbo := (scanAll now sent hs t.lht seen t.nlimbo).nlimbo } := by
  induction hs generalizing t seen with
  | nil => exact hi
  | cons h hs ih =>
    rw [Limbo.scanAll]
    split
    · obtain ⟨hkeys, hcount⟩ := scan_spec now sent [] (t.lht h) seen t.nlimbo
      rw [nil_append] at hkeys hcount
      refine ih (t := { t.put h (scan now sent [] (t.lht h) seen t.nlimbo).left with
        nlimbo := (scan now sent [] (t.lht h) seen t.nlimbo).nlimbo }) (hi.put (fun x hx => ?_)
          ((hi.nodup h).sublist hkeys) hcount) _
      obtain ⟨y, hy, hkey⟩ := mem_map.1 (hkeys.subset (mem_map_of_mem hx))
      rw [← hkey]
      exact hi.placed h y hy
    · exact hi

/-- **The timer** keeps the table consistent. -/
theorem Inv.limborexmit (hi : Inv t) (now : UInt32) (sent : ℕ → Bool) :
    Inv (t.limborexmit now sent) :=
  hi.scanAll now sent (finRange 256) 0

/-! ### The chains as one list -/

/-- What the pass looks at, the chains being one list. -/
def looks (now : UInt32) (sent : ℕ → Bool) (es : List Call) (seen : ℕ) (nlimbo : ℤ) :
    List (Call × Service) :=
  match es with
  | [] => []
  | lp :: es =>
    if (seen : ℤ) < nlimbo then
      if ¬Due now lp then (lp, .early) :: looks now sent (lp :: es) (seen + 1) nlimbo
      else if 5 < lp.again.rexmits then
        (lp, .expired) :: looks now sent es (seen + 1) (nlimbo - 1)
      else if 100 < nlimbo then (lp, .quiet) :: looks now sent (lp.again :: es) (seen + 1) nlimbo
      else if sent (seen + 1) then (lp, .resent) :: looks now sent es (seen + 1) nlimbo
      else (lp, .failed) :: looks now sent es (seen + 1) (nlimbo - 1)
    else []
termination_by (nlimbo - seen).toNat
decreasing_by all_goals omega

variable {seen : ℕ} {nlimbo : ℤ}

theorem looks_of_le (now : UInt32) (sent : ℕ → Bool) (es : List Call) (h : ¬(seen : ℤ) < nlimbo) :
    looks now sent es seen nlimbo = [] := by
  cases es with
  | nil => rw [looks]
  | cons lp es => rw [looks, if_neg h]

/-- A chain and what follows it. -/
theorem looks_append (now : UInt32) (sent : ℕ → Bool) (pre post later : List Call) (seen : ℕ)
    (nlimbo : ℤ) :
    looks now sent (post ++ later) seen nlimbo =
      (scan now sent pre post seen nlimbo).log ++ looks now sent later
        (scan now sent pre post seen nlimbo).seen (scan now sent pre post seen nlimbo).nlimbo := by
  induction pre, post, seen, nlimbo using scan.induct now sent with
  | case1 pre seen nlimbo =>
    rw [scan]
    rfl
  | case2 pre seen nlimbo lp es hlt hearly ih =>
    rw [scan, if_pos hlt, if_pos hearly, cons_append, looks, if_pos hlt, if_pos hearly]
    exact congrArg _ ih
  | case3 pre seen nlimbo lp es hlt hdue hold ih =>
    rw [scan, if_pos hlt, if_neg hdue, if_pos hold, cons_append, looks, if_pos hlt,
      if_neg hdue, if_pos hold]
    exact congrArg _ ih
  | case4 pre seen nlimbo lp es hlt hdue hold hmany ih =>
    rw [scan, if_pos hlt, if_neg hdue, if_neg hold, if_pos hmany, cons_append, looks,
      if_pos hlt, if_neg hdue, if_neg hold, if_pos hmany]
    exact congrArg _ ih
  | case5 pre seen nlimbo lp es hlt hdue hold hfew hsent ih =>
    rw [scan, if_pos hlt, if_neg hdue, if_neg hold, if_neg hfew, if_pos hsent, cons_append,
      looks, if_pos hlt, if_neg hdue, if_neg hold, if_neg hfew, if_pos hsent]
    exact congrArg _ ih
  | case6 pre seen nlimbo lp es hlt hdue hold hfew hsent ih =>
    rw [scan, if_pos hlt, if_neg hdue, if_neg hold, if_neg hfew, if_neg hsent, cons_append,
      looks, if_pos hlt, if_neg hdue, if_neg hold, if_neg hfew, if_neg hsent]
    exact congrArg _ ih
  | case7 pre seen nlimbo lp es hge =>
    rw [scan, if_neg hge, looks_of_le now sent _ hge, looks_of_le now sent _ hge]
    rfl

/-- **The pass looks at the chains as if they were one list.** -/
theorem log_scanAll (now : UInt32) (sent : ℕ → Bool) (hnd : hs.Nodup) :
    (scanAll now sent hs lht seen nlimbo).log = looks now sent (hs.flatMap lht) seen nlimbo := by
  induction hs generalizing lht seen nlimbo with
  | nil =>
    rw [flatMap_nil, looks]
    rfl
  | cons h hs ih =>
    obtain ⟨hout, hnd⟩ := nodup_cons.1 hnd
    rw [Limbo.scanAll]
    split
    · have hrest : hs.flatMap (Function.update lht h
          (scan now sent [] (lht h) seen nlimbo).left) = hs.flatMap lht := by
        refine flatMap_congr fun h' hh' => ?_
        rw [Function.update_of_ne]
        rintro rfl
        exact hout hh'
      rw [flatMap_cons, looks_append now sent [], ← hrest, ← ih hnd]
    · rename_i hge
      rw [looks_of_le now sent _ hge]

theorem log_rexmit (t : Table) (now : UInt32) (sent : ℕ → Bool) :
    (t.rexmit now sent).log = looks now sent t.all 0 t.nlimbo :=
  log_scanAll now sent (nodup_finRange 256)

/-! ### A pass that does what it should -/

/-- Each call is looked at once, and it is answered again or thrown out if it is due. -/
def Exact (now : UInt32) (es : List Call) (log : List (Call × Service)) : Prop :=
  log.map (fun e => e.1.key) = es.map Call.key ∧
    ∀ e ∈ log, Due now e.1 ↔ e.2 = .expired ∨ e.2 = .resent ∨ e.2 = .failed

/-- All but the last of the calls are due, have been answered less than five times, and are
answered; `seen` calls come before them. -/
def Smooth (now : UInt32) (sent : ℕ → Bool) : ℕ → List Call → Prop
  | _, [] | _, [_] => True
  | seen, lp :: lp' :: es =>
    (Due now lp ∧ ¬5 < lp.again.rexmits ∧ sent (seen + 1) = true) ∧
      Smooth now sent (seen + 1) (lp' :: es)

/-- There are no more looks than calls. -/
theorem length_looks_le (now : UInt32) (sent : ℕ → Bool) (es : List Call) (seen : ℕ) (nlimbo : ℤ) :
    (looks now sent es seen nlimbo).length ≤ (nlimbo - seen).toNat := by
  induction es, seen, nlimbo using looks.induct now sent with
  | case1 seen nlimbo =>
    rw [looks]
    exact Nat.zero_le _
  | case2 seen nlimbo lp es hlt hearly ih =>
    rw [looks, if_pos hlt, if_pos hearly, length_cons]
    omega
  | case3 seen nlimbo lp es hlt hdue hold ih =>
    rw [looks, if_pos hlt, if_neg hdue, if_pos hold, length_cons]
    omega
  | case4 seen nlimbo lp es hlt hdue hold hmany ih =>
    rw [looks, if_pos hlt, if_neg hdue, if_neg hold, if_pos hmany, length_cons]
    omega
  | case5 seen nlimbo lp es hlt hdue hold hfew hsent ih =>
    rw [looks, if_pos hlt, if_neg hdue, if_neg hold, if_neg hfew, if_pos hsent, length_cons]
    omega
  | case6 seen nlimbo lp es hlt hdue hold hfew hsent ih =>
    rw [looks, if_pos hlt, if_neg hdue, if_neg hold, if_neg hfew, if_neg hsent, length_cons]
    omega
  | case7 seen nlimbo lp es hge =>
    rw [looks, if_neg hge]
    exact Nat.zero_le _

/-- The first look, if there is one, is at the first call. -/
theorem exists_first (now : UInt32) (sent : ℕ → Bool) (lp : Call) (es : List Call)
    (hlt : (seen : ℤ) < nlimbo) :
    ∃ x l, looks now sent (lp :: es) seen nlimbo = (lp, x) :: l := by
  rw [looks, if_pos hlt]
  split
  · exact ⟨_, _, rfl⟩
  · split
    · exact ⟨_, _, rfl⟩
    · split
      · exact ⟨_, _, rfl⟩
      · split
        · exact ⟨_, _, rfl⟩
        · exact ⟨_, _, rfl⟩

variable {es : List Call}

/-- A pass that looks at one call again does not look at each once. -/
theorem not_exact_stuck {lp lp' lp'' : Call} {x y : Service} {l : List (Call × Service)}
    (hkey : lp'.key = lp.key) (hnd : ((lp :: lp'' :: es).map Call.key).Nodup) :
    ¬Exact now (lp :: lp'' :: es) ((lp, x) :: (lp', y) :: l) := by
  rintro ⟨hmap, -⟩
  simp only [map_cons, cons.injEq, hkey] at hmap
  rw [map_cons, map_cons, nodup_cons, hmap.2.1] at hnd
  exact hnd.1 mem_cons_self

/-- A pass that ends early does not look at every call. -/
theorem not_exact_short {log : List (Call × Service)} (h : log.length < es.length) :
    ¬Exact now es log := by
  rintro ⟨hmap, -⟩
  have hlen := congrArg List.length hmap
  rw [length_map, length_map] at hlen
  omega

/-- **A pass over at most a hundred calls**: by what comes of the first of them. -/
theorem exact_looks_iff (hfew : nlimbo ≤ 100) (hnd : (es.map Call.key).Nodup)
    (hn : (seen : ℤ) + es.length = nlimbo) :
    Exact now es (looks now sent es seen nlimbo) ↔ Smooth now sent seen es := by
  induction es generalizing seen with
  | nil =>
    rw [looks]
    exact iff_of_true ⟨rfl, fun e he => absurd he not_mem_nil⟩ trivial
  | cons lp es ih =>
    rw [length_cons] at hn
    have hlt : (seen : ℤ) < nlimbo := by omega
    have hmany : ¬100 < nlimbo := by omega
    rcases es with _ | ⟨lp', es⟩
    · -- the last call is looked at once, whatever comes of it
      rw [length_nil] at hn
      have hend (es : List Call) : looks now sent es (seen + 1) nlimbo = [] :=
        looks_of_le now sent es (by omega)
      have hend' (es : List Call) : looks now sent es (seen + 1) (nlimbo - 1) = [] :=
        looks_of_le now sent es (by omega)
      refine iff_of_true ?_ trivial
      rw [looks, if_pos hlt, if_neg hmany, hend, hend, hend']
      split
      · rename_i hearly
        refine ⟨rfl, fun e he => ?_⟩
        rw [mem_singleton.1 he]
        simp [hearly]
      · rename_i hdue
        rw [not_not] at hdue
        split
        · refine ⟨rfl, fun e he => ?_⟩
          rw [mem_singleton.1 he]
          simp [hdue]
        · split
          · refine ⟨rfl, fun e he => ?_⟩
            rw [mem_singleton.1 he]
            simp [hdue]
          · refine ⟨rfl, fun e he => ?_⟩
            rw [mem_singleton.1 he]
            simp [hdue]
    · rw [length_cons] at hn
      have hnd' := (nodup_cons.1 hnd).2
      have hlong : ((seen + 1 : ℕ) : ℤ) < nlimbo := by omega
      have hshort (x : Service) :
          ¬Exact now (lp :: lp' :: es) ((lp, x) :: looks now sent (lp' :: es) (seen + 1)
            (nlimbo - 1)) := by
        refine not_exact_short ?_
        have hle := length_looks_le now sent (lp' :: es) (seen + 1) (nlimbo - 1)
        rw [length_cons, length_cons, length_cons]
        omega
      rw [looks, if_pos hlt, if_neg hmany, Smooth]
      split
      · rename_i hearly
        obtain ⟨x, l, hfirst⟩ := exists_first now sent lp (lp' :: es) hlong
        rw [hfirst]
        exact iff_of_false (not_exact_stuck rfl hnd) fun hs => hearly hs.1.1
      · rename_i hdue
        rw [not_not] at hdue
        split
        · rename_i hold
          exact iff_of_false (hshort _) fun hs => hs.1.2.1 hold
        · rename_i hold
          split
          · rename_i hsent
            rw [and_iff_right (⟨hdue, hold, hsent⟩ : Due now lp ∧ _ ∧ _),
              ← ih hnd' (by push_cast; rw [length_cons]; push_cast; omega)]
            constructor
            · rintro ⟨hmap, hserv⟩
              exact ⟨(cons.inj hmap).2, fun e he => hserv e (mem_cons_of_mem _ he)⟩
            · rintro ⟨hmap, hserv⟩
              refine ⟨by rw [map_cons, map_cons, hmap], fun e he => ?_⟩
              rcases mem_cons.1 he with rfl | he
              · simp [hdue]
              · exact hserv e he
          · rename_i hsent
            exact iff_of_false (hshort _) fun hs => hsent hs.1.2.2

/-- With more than a hundred calls the pass gets stuck, or ends early. -/
theorem not_exact_looks (hmany : 100 < nlimbo) (hnd : (es.map Call.key).Nodup)
    (hn : (es.length : ℤ) = nlimbo) : ¬Exact now es (looks now sent es 0 nlimbo) := by
  obtain ⟨lp, lp', es, rfl⟩ : ∃ lp lp' es', es = lp :: lp' :: es' := by
    rcases es with _ | ⟨lp, _ | ⟨lp', es⟩⟩
    · rw [length_nil] at hn
      omega
    · rw [length_singleton] at hn
      omega
    · exact ⟨lp, lp', es, rfl⟩
  have hlt : ((0 : ℕ) : ℤ) < nlimbo := by omega
  have hlt' : ((0 + 1 : ℕ) : ℤ) < nlimbo := by omega
  rw [looks, if_pos hlt, if_pos hmany]
  split
  · obtain ⟨x, l, hfirst⟩ := exists_first now sent lp (lp' :: es) hlt'
    rw [hfirst]
    exact not_exact_stuck rfl hnd
  · split
    · refine not_exact_short ?_
      have hle := length_looks_le now sent (lp' :: es) (0 + 1) (nlimbo - 1)
      rw [length_cons, length_cons] at hn ⊢
      rw [length_cons]
      omega
    · obtain ⟨x, l, hfirst⟩ := exists_first now sent lp.again (lp' :: es) hlt'
      rw [hfirst]
      exact not_exact_stuck rfl hnd

/-- No two calls of the table have one key. -/
theorem Inv.nodup_all (hi : Inv t) : (t.all.map Call.key).Nodup := by
  rw [Table.all, map_flatMap, nodup_flatMap]
  refine ⟨fun h _ => hi.nodup h, (nodup_finRange 256).imp fun {h h'} hne => ?_⟩
  intro k hk hk'
  obtain ⟨x, hx, rfl⟩ := mem_map.1 hk
  obtain ⟨y, hy, hkey⟩ := mem_map.1 hk'
  exact hne ((hi.placed h x hx).symm.trans (hkey ▸ hi.placed h' y hy))

theorem Inv.length_all (hi : Inv t) : (t.all.length : ℤ) = t.nlimbo := by
  rw [hi.count, Table.all, length_flatMap, Fin.sum_univ_def]
  simp only [Nat.cast_list_sum, map_map]
  rfl

/-- **When a pass does what it should**: there are at most a hundred calls, and all but the last
are due and are answered. -/
theorem exact_iff_smooth (hi : Inv t) (now : UInt32) (sent : ℕ → Bool) :
    Exact now t.all (t.rexmit now sent).log ↔ t.nlimbo ≤ 100 ∧ Smooth now sent 0 t.all := by
  rw [log_rexmit]
  have hlen := hi.length_all
  by_cases hfew : t.nlimbo ≤ 100
  · rw [and_iff_right hfew]
    exact exact_looks_iff hfew hi.nodup_all (by push_cast; omega)
  · refine iff_of_false (not_exact_looks (by omega) hi.nodup_all hlen) fun h => hfew h.1

/-! ### Runs -/

theorem lost_recycle (t : Table) (h : Fin 256) (lp : Call) (es : List Call) (now : UInt32)
    (sent : Bool) : ∃ l, (t.recycle h lp es now sent).lost = l ++ t.lost := by
  cases es with
  | nil =>
    rw [Table.recycle]
    split
    · exact ⟨[_], rfl⟩
    · exact ⟨[], rfl⟩
  | cons x es => exact ⟨[], lost_answer ..⟩

/-- An entry that is lost stays so. -/
theorem lost_suffix (t : Table) (a : Act) : ∃ l, (t.act a).lost = l ++ t.lost := by
  cases a with
  | limbo src dst seg version now iss mem sent =>
    obtain ⟨pre, post, hs⟩ :
        ∃ pre post, t.search (seg.key src dst version) = (pre, post) := ⟨_, _, rfl⟩
    have henter (lp : Call) : (t.enter (seg.key src dst version).hash lp now mem sent).lost =
        t.lost := by
      rw [Table.enter]
      split
      · rw [lost_answer]
      · rfl
    simp only [Table.act, Table.limbo, hs]
    rcases post with _ | ⟨lp, post⟩
    · dsimp only
      split
      · split
        · exact lost_recycle ..
        · exact ⟨[], henter _⟩
      · exact ⟨[], henter _⟩
    · exact ⟨[], lost_answer ..⟩
  | limborst seg src dst version =>
    obtain ⟨pre, post, hs⟩ :
        ∃ pre post, t.search (seg.key src dst version) = (pre, post) := ⟨_, _, rfl⟩
    simp only [Table.act, Table.limborst, hs]
    rcases post with _ | ⟨lp, post⟩
    · exact ⟨[], rfl⟩
    · dsimp only
      split
      · exact ⟨[], rfl⟩
      · exact ⟨[], rfl⟩
  | tcpincoming seg src dst version new =>
    obtain ⟨pre, post, hs⟩ :
        ∃ pre post, t.search (seg.key src dst version) = (pre, post) := ⟨_, _, rfl⟩
    simp only [Table.act, Table.tcpincoming, hs]
    split
    · exact ⟨[], rfl⟩
    · rcases post with _ | ⟨lp, post⟩
      · exact ⟨[], rfl⟩
      · dsimp only
        split
        · exact ⟨[], rfl⟩
        · split
          · exact ⟨[], rfl⟩
          · exact ⟨[_], rfl⟩
  | limborexmit now sent => exact ⟨[], rfl⟩

/-- **One step** keeps the table consistent if it is safe, and else loses an entry. -/
theorem Inv.act (hi : Inv t) (a : Act) :
    (Ok t a → Inv (t.act a)) ∧ (¬Ok t a → (t.act a).lost ≠ []) := by
  cases a with
  | limbo src dst seg version now iss mem sent =>
    exact limbo_spec hi src dst seg version now iss mem sent
  | limborst seg src dst version =>
    exact ⟨fun _ => hi.limborst seg src dst version, fun hno => absurd trivial hno⟩
  | tcpincoming seg src dst version new => exact tcpincoming_spec hi seg src dst version new
  | limborexmit now sent =>
    exact ⟨fun _ => hi.limborexmit now sent, fun hno => absurd trivial hno⟩

variable {t t' : Table} {l : List Act}

theorem lost_run (h : Run Step t l t') (hlost : t.lost ≠ []) : t'.lost ≠ [] := by
  refine h.inv (I := fun t => t.lost ≠ []) (fun s a s' hs hst => ?_) hlost
  obtain ⟨l, hl⟩ := lost_suffix s a
  rw [hst, hl]
  exact fun hnil => hs (append_eq_nil_iff.1 hnil).2

/-- A run that ends consistent has lost nothing on its way. -/
theorem guarded_of_inv (h : Run Step t l t') (ht : Inv t) (ht' : Inv t') :
    Run (Guarded Ok Step) t l t' := by
  induction h with
  | nil s => exact .nil s
  | @cons s s₁ u a l hst hrest ih =>
    obtain ⟨hkeep, hlose⟩ := ht.act a
    obtain rfl : s₁ = s.act a := hst
    by_cases hok : Ok s a
    · exact .cons ⟨hok, rfl⟩ (ih (hkeep hok) ht')
    · exact absurd ht'.lost (lost_run hrest (hlose hok))

theorem inv_of_guarded (h : Run (Guarded Ok Step) t l t') (ht : Inv t) : Inv t' := by
  refine h.guarded_inv (fun s a s' hs hok hst => ?_) ht
  obtain rfl : s' = s.act a := hst
  exact (hs.act a).1 hok

/-- **The table of half-open calls.** At the end of a run the table is consistent if and only if
every step of the run was safe; and a pass over a consistent table does what it should if and only
if there are at most a hundred calls, all but the last of which are due and are answered. -/
theorem limbo_consistent_iff {l : List Act} (h : Run Step Table.empty l t) :
    (Inv t ↔ Run (Guarded Ok Step) Table.empty l t) ∧
      (Inv t → ∀ now sent, Exact now t.all (t.rexmit now sent).log ↔
        t.nlimbo ≤ 100 ∧ Smooth now sent 0 t.all) :=
  ⟨⟨fun ht => guarded_of_inv h inv_empty ht, fun hrun => inv_of_guarded hrun inv_empty⟩,
    fun ht now sent => exact_iff_smooth ht now sent⟩

/-- A SYN from a port. -/
def synFrom (port : UInt16) : Act :=
  .limbo (Vector.replicate 16 0) (Vector.replicate 16 0)
    { seq := 0, ack := 0, flags := { syn := true }, wnd := 0, source := port, dest := 1 } 4 0 0
    true true

/-- The acknowledgement of our SYN to that port, which finds no conversation. -/
def ackFrom (port : UInt16) : Act :=
  .tcpincoming
    { seq := 1, ack := 1, flags := { ack := true }, wnd := 0, source := port, dest := 1 }
    (Vector.replicate 16 0) (Vector.replicate 16 0) 4 false

theorem limbo_consistent_iff_syn :
    (Inv (Table.empty.act (synFrom 1)) ↔
        Run (Guarded Ok Step) Table.empty [synFrom 1] (Table.empty.act (synFrom 1))) ∧
      (Inv (Table.empty.act (synFrom 1)) → ∀ now sent,
        Exact now (Table.empty.act (synFrom 1)).all
            ((Table.empty.act (synFrom 1)).rexmit now sent).log ↔
          (Table.empty.act (synFrom 1)).nlimbo ≤ 100 ∧
            Smooth now sent 0 (Table.empty.act (synFrom 1)).all) :=
  limbo_consistent_iff (Run.single rfl)

set_option maxRecDepth 10000 in
/-- **The pass gets stuck, and an entry is lost.** Of two calls that are not due yet the first is
looked at twice and the second not at all; and a call for which there is no conversation is neither
in the table any more nor freed. -/
theorem limbo_stuck_and_lost :
    (∃ t, Run Step Table.empty [synFrom 1, synFrom 2] t ∧ Inv t ∧
        ¬Exact 0 t.all (t.rexmit 0 fun _ => true).log) ∧
      ∃ t, Run Step Table.empty [synFrom 1, ackFrom 1] t ∧ t.lost ≠ [] := by
  constructor
  · have hok : ∀ t k, t.nlimbo < maxlimbo → Ok t (synFrom k) := fun t k hlt hge =>
      absurd hge (by omega)
    have h1 : Inv (Table.empty.act (synFrom 1)) := (inv_empty.act _).1 (hok _ _ (by decide))
    have h2 := (h1.act (synFrom 2)).1 (hok _ _ (by decide))
    refine ⟨_, .cons rfl (Run.single rfl), h2, ?_⟩
    rw [exact_iff_smooth h2]
    rintro ⟨-, hsmooth⟩
    have hall : ((Table.empty.act (synFrom 1)).act (synFrom 2)).all.map
        (fun lp => (lp.lastsend, lp.rexmits)) = [(0, 0), (0, 0)] := by decide
    generalize ((Table.empty.act (synFrom 1)).act (synFrom 2)).all = es at hsmooth hall
    rcases es with _ | ⟨lp, _ | ⟨lp', es⟩⟩
    · cases hall
    · simp at hall
    · rw [List.map_cons, List.cons.injEq, Prod.mk.injEq] at hall
      have hdue := hsmooth.1.1
      rw [Due, hall.1.1, hall.1.2] at hdue
      exact hdue (by decide)
  · exact ⟨_, .cons rfl (Run.single rfl), by decide⟩

end Limbo

end Ip

end Plan9
