import Plan9.Cc.Branch
import Mathlib.Data.List.Sort
import Mathlib.Data.List.TakeWhile

/-!
# Switches

`doswit` in `pswt.c` and the part of `gen` that leads to it: the cases of a `switch` are put into a
table, the table is sorted, duplicates are reported, and the search is emitted – in two levels when
the value takes a pair of registers.

* `Plan9.Cc.doswit_reports`, `Plan9.Cc.doswit_goes` – `doswit` does what a switch over all entries
  of its table does;
* `Plan9.Cc.selects_iff` – when those entries are the cases that count.

A 64-bit constant in a 32-bit switch is left out of the table, but it has been counted: the table
then ends with entries that were never filled in.
-/

namespace Plan9

namespace Cc

open Lib List

/-! ### Cases -/

/-- A case, or the default. -/
structure Case where
  val : BitVec 64
  label : ℕ
  isDef : Bool
  isv : Bool
  deriving DecidableEq, Repr

/-- What the compiler says about a switch. -/
inductive Diag
  /-- more than one default in switch -/
  | moreDefaults
  /-- 32-bit switch expression with 64-bit case constant -/
  | wideConstant
  /-- duplicate cases in switch -/
  | duplicateCases (val : BitVec 64)
  deriving DecidableEq, Repr

/-- What the first loop of `doswit` computes. -/
structure Count where
  dflt : ℕ
  nc : ℕ
  isv : Bool
  diags : List Diag
  deriving DecidableEq, Repr

/-- A turn of the first loop. -/
def countCase (k : Count) (c : Case) : Count :=
  if c.isDef then
    { k with
      dflt := c.label
      diags := if k.dflt ≠ 0 then k.diags ++ [.moreDefaults] else k.diags }
  else { k with isv := k.isv || c.isv, nc := k.nc + 1 }

/-- The first loop of `doswit`. -/
def count (cases : List Case) : Count := cases.foldl countCase ⟨0, 0, false, []⟩

/-- A turn of the second loop: the entry of a case in the table. -/
def entry (isv : Bool) (c : Case) : Option C1 :=
  if c.isDef then none
  -- can never match
  else if c.isv && !isv then none
  else some ⟨if isv then c.val else long c.val, c.label⟩

/-- The table after the second loop. It has room for `nc` entries, and those that are not filled in
are zero. -/
def table (isv : Bool) (nc : ℕ) (cases : List Case) : List C1 :=
  let q := cases.filterMap (entry isv)
  q ++ List.replicate (nc - q.length) ⟨0, 0⟩

/-- The order of the table. -/
def swcmp (p1 p2 : C1) : ℤ :=
  if p1.val.toInt < p2.val.toInt then -1 else if p2.val.toInt < p1.val.toInt then 1 else 0

def qsort (q : List C1) : List C1 := q.mergeSort fun p1 p2 => swcmp p1 p2 ≤ 0

/-- The values that an entry has in common with the next one. -/
def duplicates : List C1 → List (BitVec 64)
  | c :: c' :: q =>
    if c.val = c'.val then c.val :: duplicates (c' :: q) else duplicates (c' :: q)
  | _ => []

/-- The high word. -/
def high (x : BitVec 64) : BitVec 64 := x.sshiftRight 32

/-- The low words of the entries, for entries whose high words are equal. -/
def lows (q : List C1) : List C1 := q.map fun c => ⟨long c.val, c.label⟩

/-- The high words of a sorted table, each with its low words. -/
def groups : List C1 → List (BitVec 64 × List C1)
  | [] => []
  | c :: q =>
    (high c.val, lows (c :: q.takeWhile fun c' => high c'.val = high c.val)) ::
      groups (q.dropWhile fun c' => high c'.val = high c.val)
  termination_by q => q.length
  decreasing_by
    rw [List.length_cons]
    have := (List.dropWhile_sublist (fun c' : C1 => decide (high c'.val = high c.val))
      (l := q)).length_le
    omega

/-- The searches of the low words, one behind the other from `pc`, and the table that leads to
them. -/
def lowSearches (m : Machine) (dflt : ℕ) : ℕ → List (BitVec 64 × List C1) → List C1 × List Instr
  | _, [] => ([], [])
  | pc, (h, iql) :: gs =>
    let code := swit1 m .low dflt pc (qsort iql)
    let rest := lowSearches m dflt (pc + code.length) gs
    (⟨h, pc⟩ :: rest.1, code ++ rest.2)

/-- The search of a value in a pair of registers. -/
def pairSearch (m : Machine) (dflt pc : ℕ) (iq : List C1) : List Instr :=
  let r := lowSearches m dflt (pc + 1) (groups iq)
  let hsb := pc + 1 + r.2.length
  .jmp hsb :: (r.2 ++ swit1 m .high dflt hsb r.1)

/-- `doswit`, for a switch on a `vlong` or on a `long`. The code stands at `pc`. -/
def doswit (m : Machine) (typev : Bool) (breakpc pc : ℕ) (cases : List Case) :
    List Diag × List Instr :=
  let k := count cases
  let diags := if !typev && k.isv then k.diags ++ [.wideConstant] else k.diags
  let iq := qsort (table typev k.nc cases)
  let diags := diags ++ (duplicates iq).map .duplicateCases
  if duplicates iq ≠ [] then (diags, [])
  else
    let dflt := if k.dflt = 0 then breakpc else k.dflt
    let code :=
      if !typev then swit1 m .long dflt pc iq
      else
        match m with
        | .amd64 => swit1 m .vlong dflt pc iq
        | .i386 => pairSearch m dflt pc iq
    (diags, code)

/-! ### The statement -/

/-- What the body of a switch consists of: labels, and statements with some code. A statement says
whether its end can be reached. -/
inductive Item
  | case (val : BitVec 64) (isv : Bool)
  | dflt
  | code (n : ℕ) (canreach : Bool)
  deriving DecidableEq, Repr

/-- A `switch`: whether its expression is a `vlong`, its body, whether the statement can be reached,
and how many instructions the expression takes. -/
structure Switch where
  typev : Bool
  body : List Item
  canreach : Bool
  expr : ℕ
  deriving DecidableEq, Repr

/-- The state of `gen`. The cases of the current switch are those seen last first. -/
structure Gen where
  pc : ℕ
  cases : List Case
  canreach : Bool
  deriving DecidableEq, Repr

/-- `gen` in the body of a switch. -/
def genItem (g : Gen) : Item → Gen
  | .case val isv => { g with cases := ⟨val, g.pc, false, isv⟩ :: g.cases, canreach := true }
  | .dflt => { g with cases := ⟨0, g.pc, true, false⟩ :: g.cases, canreach := true }
  | .code n canreach => { g with pc := g.pc + n + 1, canreach := canreach }

/-- The body of the switch that begins at `pc`; two branches stand before it, the second one where
`break` goes. -/
def genBody (pc : ℕ) (s : Switch) : Gen := s.body.foldl genItem ⟨pc + 2, [], s.canreach⟩

/-- Where the search begins: behind the body, the branch that leaves it, and the expression. -/
def Switch.start (s : Switch) (pc : ℕ) : ℕ :=
  let g := genBody pc s
  g.pc + (if g.canreach then 1 else 0) + s.expr

/-- `gen` for a switch: what is said, and the search. -/
def genSwitch (m : Machine) (pc : ℕ) (s : Switch) : List Diag × List Instr :=
  doswit m s.typev (pc + 1) (s.start pc) (genBody pc s).cases

/-! ### The table -/

section Table

variable {m : Machine} {typev isv : Bool} {fetch : ℕ → Option Instr} {v x : BitVec 64} {s : St}
  {q : List C1} {c c' : C1} {pc breakpc dflt : ℕ} {cases : List Case} {k : Count}

/-- The order that `qsort` sorts by. -/
theorem swcmp_le : swcmp c c' ≤ 0 ↔ c.val.toInt ≤ c'.val.toInt := by
  unfold swcmp
  split_ifs <;> omega

theorem qsort_perm (q : List C1) : (qsort q).Perm q := mergeSort_perm q _

theorem qsort_sorted (q : List C1) : (qsort q).Pairwise fun c c' => c.val.toInt ≤ c'.val.toInt := by
  refine (pairwise_mergeSort (fun a b c hab hbc => ?_) (fun a b => ?_) q).imp fun h => ?_
  · simp only [decide_eq_true_eq, swcmp_le] at hab hbc ⊢
    omega
  · simp only [Bool.or_eq_true, decide_eq_true_eq, swcmp_le]
    omega
  · exact swcmp_le.1 (of_decide_eq_true h)

/-- The keys of a table are its values. -/
theorem keys_fst (q : List C1) : (keys q).map Prod.fst = (q.map C1.val).map BitVec.toInt := by
  rw [keys, map_map, map_map]
  rfl

theorem keys_nodup : ((keys q).map Prod.fst).Nodup ↔ (q.map C1.val).Nodup := by
  rw [keys_fst]
  exact nodup_map_iff fun x y h => BitVec.eq_of_toInt_eq h

/-- **A sorted table** has no duplicates next to each other when it has none at all. -/
theorem duplicates_eq_nil (h : q.Pairwise fun c c' => c.val.toInt ≤ c'.val.toInt) :
    duplicates q = [] ↔ Ascends (keys q) := by
  rw [Ascends, keys, pairwise_map]
  fun_induction duplicates q with
  | case1 c c' q heq _ =>
    refine iff_of_false (cons_ne_nil _ _) fun ha => ?_
    have := rel_of_pairwise_cons ha mem_cons_self
    rw [C1.key, C1.key, heq] at this
    exact lt_irrefl _ this
  | case2 c c' q hne ih =>
    rw [ih h.of_cons, pairwise_cons (a := c)]
    refine ⟨fun ha => ⟨fun d hd => ?_, ha⟩, fun ha => ha.2⟩
    have hlt : c.val.toInt < c'.val.toInt := lt_of_le_of_ne (rel_of_pairwise_cons h mem_cons_self)
        fun h => hne (BitVec.eq_of_toInt_eq h)
    rcases mem_cons.1 hd with rfl | hd
    · exact hlt
    · exact hlt.trans (rel_of_pairwise_cons ha hd)
  | case3 q hq =>
    refine iff_of_true rfl ?_
    rcases q with - | ⟨c, - | ⟨c', q⟩⟩
    · exact .nil
    · exact pairwise_singleton _ _
    · exact absurd rfl (hq c c' q)

/-- **Duplicates are found** when there are any. -/
theorem duplicates_qsort : duplicates (qsort q) = [] ↔ (q.map C1.val).Nodup := by
  rw [duplicates_eq_nil (qsort_sorted q), ← ((qsort_perm q).map C1.val).nodup_iff, ← keys_nodup]
  refine ⟨Ascends.nodup, fun h => ?_⟩
  have hs : ((keys (qsort q)).map Prod.fst).Pairwise (· ≤ ·) := by
    rw [keys, map_map, pairwise_map]
    exact qsort_sorted q
  exact pairwise_map.1 ((hs.and h).imp fun h => lt_of_le_of_ne h.1 h.2)

theorem qsort_ascends (h : (q.map C1.val).Nodup) : Ascends (keys (qsort q)) :=
  (duplicates_eq_nil (qsort_sorted q)).1 (duplicates_qsort.2 h)

/-- Sorting does not change what is found. -/
theorem select_qsort (h : (q.map C1.val).Nodup) {i : ℤ} :
    select (keys (qsort q)) dflt i = select (keys q) dflt i :=
  (select_perm ((qsort_perm q).map C1.key).symm (keys_nodup.2 h)).symm

/-! ### Two levels -/

section Words

variable {x y : BitVec 64}

theorem toInt_high (x : BitVec 64) : (high x).toInt = x.toInt / 2 ^ 32 := by
  rw [high, BitVec.toInt_sshiftRight, Int.shiftRight_eq_div_pow]
  rfl

theorem toInt_long_bmod (x : BitVec 64) : (long x).toInt = x.toInt.bmod (2 ^ 32) := by
  rw [toInt_long, BitVec.toInt_setWidth, BitVec.toInt_eq_toNat_bmod, Int.bmod_bmod_of_dvd]
  exact ⟨2 ^ 32, by norm_num⟩

/-- The high words are in the order of the values. -/
theorem high_le (h : x.toInt ≤ y.toInt) : (high x).toInt ≤ (high y).toInt := by
  rw [toInt_high, toInt_high]
  exact Int.ediv_le_ediv (by omega) h

/-- **The two words** determine the value. -/
theorem eq_of_words (hh : high x = high y) (hl : long x = long y) : x = y := by
  have h1 : x.toInt / 2 ^ 32 = y.toInt / 2 ^ 32 := by rw [← toInt_high, ← toInt_high, hh]
  have h2 : x.toInt.bmod (2 ^ 32) = y.toInt.bmod (2 ^ 32) := by
    rw [← toInt_long_bmod, ← toInt_long_bmod, hl]
  apply BitVec.eq_of_toInt_eq
  rw [Int.bmod_def, Int.bmod_def] at h2
  split_ifs at h2 <;> omega

theorem long_high (x : BitVec 64) : long (high x) = high x := by
  apply BitVec.eq_of_toInt_eq
  have h1 := x.toInt_lt
  have h2 := x.le_toInt
  rw [toInt_long_bmod, toInt_high]
  apply Int.bmod_eq_of_le <;> omega

theorem read_low (v : BitVec 64) : Opnd.low.read v = (long v).toInt := (toInt_long v).symm

theorem read_high (v : BitVec 64) : Opnd.high.read v = (high v).toInt := by
  rw [← long_high, toInt_long]
  rfl
section Pair

variable {m : Machine} {fetch : ℕ → Option Instr} {v : BitVec 64} {s : St} {q : List C1} {c : C1}
  {pc dflt : ℕ} {g : BitVec 64 × List C1} {gs : List (BitVec 64 × List C1)}

theorem high_of_mem_takeWhile {d : C1}
    (h : d ∈ q.takeWhile fun c' => high c'.val = high c.val) : high d.val = high c.val := by
  have := mem_takeWhile_imp h
  exact of_decide_eq_true this

/-- Where the entries of a group come from. -/
theorem of_mem_groups (hg : g ∈ groups q) : (∃ c ∈ q, high c.val = g.1) ∧
      ∃ r, r.Sublist q ∧ g.2 = lows r ∧ ∀ c ∈ r, high c.val = g.1 := by
  fun_induction groups q with
  | case1 => exact absurd hg not_mem_nil
  | case2 c q ih =>
    rcases mem_cons.1 hg with rfl | hg
    · refine ⟨⟨c, mem_cons_self, rfl⟩, _, (takeWhile_sublist _).cons_cons c, rfl, ?_⟩
      intro c' hc'
      rcases mem_cons.1 hc' with rfl | hc'
      · rfl
      · exact high_of_mem_takeWhile hc'
    · have hsub := (dropWhile_sublist (fun c' : C1 => decide (high c'.val = high c.val))
        (l := q)).cons c
      obtain ⟨⟨d, hd, hdg⟩, r, hr, hrest⟩ := ih hg
      exact ⟨⟨d, hsub.subset hd, hdg⟩, r, hr.trans hsub, hrest⟩

/-- Every entry is in a group. -/
theorem mem_groups (hc : c ∈ q) :
    ∃ g ∈ groups q, g.1 = high c.val ∧ ⟨long c.val, c.label⟩ ∈ g.2 := by
  fun_induction groups q with
  | case1 => exact absurd hc not_mem_nil
  | case2 d q ih =>
    rw [← takeWhile_append_dropWhile (p := fun c' : C1 => decide (high c'.val = high d.val))
      (l := q), ← cons_append, mem_append] at hc
    rcases hc with hc | hc
    · refine ⟨_, mem_cons_self, ?_, mem_map_of_mem hc⟩
      rcases mem_cons.1 hc with rfl | hc
      · rfl
      · exact (high_of_mem_takeWhile hc).symm
    · obtain ⟨g, hg, hrest⟩ := ih hc
      exact ⟨g, mem_cons_of_mem _ hg, hrest⟩

/-- Behind the entries of a group the high words are greater. -/
theorem high_lt_of_mem_dropWhile (hs : (c :: q).Pairwise fun c c' => c.val.toInt ≤ c'.val.toInt)
    {d : C1} (hd : d ∈ q.dropWhile fun c' => high c'.val = high c.val) :
    (high c.val).toInt < (high d.val).toInt := by
  rcases hq : q.dropWhile (fun c' => high c'.val = high c.val) with - | ⟨b, q'⟩
  · rw [hq] at hd
    exact absurd hd not_mem_nil
  · have hb : ¬high b.val = high c.val := by
      have := List.head?_dropWhile_not (fun c' : C1 => decide (high c'.val = high c.val)) q
      rw [hq] at this
      simpa using this
    have hsub : (b :: q').Sublist q := hq ▸ dropWhile_sublist _
    have hlt : (high c.val).toInt < (high b.val).toInt :=
      lt_of_le_of_ne (high_le (rel_of_pairwise_cons hs (hsub.subset mem_cons_self)))
        fun h => hb (BitVec.eq_of_toInt_eq h).symm
    rw [hq] at hd
    rcases mem_cons.1 hd with rfl | hd
    · exact hlt
    · exact hlt.trans_le (high_le (rel_of_pairwise_cons (hs.of_cons.sublist hsub) hd))

/-- **The high words of the groups increase.** -/
theorem groups_ascend (hs : q.Pairwise fun c c' => c.val.toInt ≤ c'.val.toInt) :
    (groups q).Pairwise fun g g' => g.1.toInt < g'.1.toInt := by
  fun_induction groups q with
  | case1 => exact .nil
  | case2 c q ih =>
    refine pairwise_cons.2 ⟨fun g hg => ?_, ih (hs.of_cons.sublist (dropWhile_sublist _))⟩
    obtain ⟨⟨d, hd, hdg⟩, -⟩ := of_mem_groups hg
    rw [← hdg]
    exact high_lt_of_mem_dropWhile hs hd

theorem groups_unique (hs : q.Pairwise fun c c' => c.val.toInt ≤ c'.val.toInt)
    {g' : BitVec 64 × List C1} (hg : g ∈ groups q) (hg' : g' ∈ groups q) (h : g.1 = g'.1) :
    g = g' := by
  have hn : ((groups q).map Prod.fst).Nodup := by
    refine pairwise_map.2 ((groups_ascend hs).imp fun hlt heq => ?_)
    exact lt_irrefl _ (heq ▸ hlt)
  exact inj_on_of_nodup_map hn hg hg' h

/-- The values of a group are different. -/
theorem groups_nodup (hn : (q.map C1.val).Nodup) (hg : g ∈ groups q) : (g.2.map C1.val).Nodup := by
  obtain ⟨-, r, hr, hlows, hhigh⟩ := of_mem_groups hg
  have hr' : (r.map C1.val).Nodup := hn.sublist (hr.map _)
  rw [hlows, lows, map_map]
  rw [Nodup, pairwise_map] at hr' ⊢
  refine hr'.imp_of_mem fun hc hd hne hl => hne ?_
  exact eq_of_words ((hhigh _ hc).trans (hhigh _ hd).symm) hl

/-- **What is found in the group** of the high word is what is found in the table. -/
theorem select_group (hs : q.Pairwise fun c c' => c.val.toInt ≤ c'.val.toInt)
    (hn : (q.map C1.val).Nodup) (hg : g ∈ groups q) (hv : g.1 = high v) :
    select (keys g.2) dflt (long v).toInt = select (keys q) dflt v.toInt := by
  by_cases hc : ∃ c ∈ q, c.val = v
  · obtain ⟨c, hc, rfl⟩ := hc
    obtain ⟨g', hg', hkey, hlow⟩ := mem_groups hc
    obtain rfl := groups_unique hs hg hg' (hv.trans hkey.symm)
    exact (select_of_mem (keys_nodup.2 (groups_nodup hn hg)) (mem_map_of_mem hlow) rfl).trans
      (select_of_mem (keys_nodup.2 hn) (mem_map_of_mem hc) rfl).symm
  · obtain ⟨-, r, hr, hlows, hhigh⟩ := of_mem_groups hg
    rw [select_of_ne, select_of_ne]
    · intro e he hev
      obtain ⟨c, hcq, rfl⟩ := mem_map.1 he
      exact hc ⟨c, hcq, BitVec.eq_of_toInt_eq hev⟩
    · intro e he hev
      obtain ⟨d, hd, rfl⟩ := mem_map.1 he
      rw [hlows] at hd
      obtain ⟨c, hcr, rfl⟩ := mem_map.1 hd
      exact hc ⟨c, hr.subset hcr, eq_of_words ((hhigh c hcr).trans hv) (BitVec.eq_of_toInt_eq hev)⟩

/-- The table of the high words. -/
theorem lowSearches_vals (m : Machine) (dflt : ℕ) (gs : List (BitVec 64 × List C1)) (pc : ℕ) :
    (lowSearches m dflt pc gs).1.map C1.val = gs.map Prod.fst := by
  induction gs generalizing pc with
  | nil => rfl
  | cons g gs ih => exact congrArg (g.1 :: ·) (ih _)

/-- **The label of a high word** is where its low words are searched. -/
theorem lowSearches_placed (hp : Placed fetch pc (lowSearches m dflt pc gs).2) {e : C1}
    (he : e ∈ (lowSearches m dflt pc gs).1) :
    ∃ g ∈ gs, g.1 = e.val ∧ Placed fetch e.label (swit1 m .low dflt e.label (qsort g.2)) := by
  induction gs generalizing pc with
  | nil => exact absurd he not_mem_nil
  | cons g gs ih =>
    rcases mem_cons.1 he with rfl | he
    · exact ⟨g, mem_cons_self, rfl, hp.left⟩
    · obtain ⟨g', hg', hrest⟩ := ih hp.right he
      exact ⟨g', mem_cons_of_mem g hg', hrest⟩

/-- **The search of a pair** finds what is in the table. -/
theorem pairSearch_goes (hs : s.pc = pc) (hp : Placed fetch pc (pairSearch m dflt pc q))
    (hq : q.Pairwise fun c c' => c.val.toInt ≤ c'.val.toInt) (hn : (q.map C1.val).Nodup) :
    ∃ t, Goes (step fetch v) s t ∧ t.pc = select (keys q) dflt v.toInt := by
  subst hs
  have hlow := hp.tail.left
  have hhigh := hp.tail.right
  have hvals := lowSearches_vals m dflt (groups q) (s.pc + 1)
  set iqh := (lowSearches m dflt (s.pc + 1) (groups q)).1
  set hsb := s.pc + 1 + (lowSearches m dflt (s.pc + 1) (groups q)).2.length
  have ha : Ascends (keys iqh) := by
    have h : ((groups q).map Prod.fst).Pairwise fun a b => a.toInt < b.toInt :=
      pairwise_map.2 (groups_ascend hq)
    rw [← hvals, pairwise_map] at h
    exact pairwise_map.2 h
  have hf : ∀ e ∈ iqh, Fits m .high e.val := by
    intro e he
    have hmem : e.val ∈ (groups q).map Prod.fst := hvals ▸ mem_map_of_mem he
    obtain ⟨g, hg, hge⟩ := mem_map.1 hmem
    obtain ⟨⟨c, -, hc⟩, -⟩ := of_mem_groups hg
    rw [← hge, ← hc]
    exact long_high c.val
  -- the branch over the low words, and the search of the high word
  obtain ⟨t, ht, htpc⟩ := swit1_goes (v := v) (s := Instr.exec v s (.jmp hsb)) rfl hhigh hf ha
  have ht' : Goes (step fetch v) s t := goes_step hp.head ht
  rw [read_high] at htpc
  by_cases hv : ∃ e ∈ iqh, e.val = high v
  · -- then that of the low word
    obtain ⟨e, he, hev⟩ := hv
    obtain ⟨g, hg, hge, hcode⟩ := lowSearches_placed hlow he
    have hte : t.pc = e.label := htpc.trans
      (select_of_mem ha.nodup (mem_map_of_mem he) (congrArg BitVec.toInt hev))
    have hgn := groups_nodup hn hg
    have hfits : ∀ c ∈ qsort g.2, Fits m .low c.val := by
      intro c hc
      obtain ⟨-, r, -, hlows, -⟩ := of_mem_groups hg
      rw [(qsort_perm g.2).mem_iff, hlows] at hc
      obtain ⟨d, -, rfl⟩ := mem_map.1 hc
      exact long_long d.val
    obtain ⟨t', hgoes, htpc'⟩ := swit1_goes (v := v) hte hcode hfits (qsort_ascends hgn)
    refine ⟨t', ht'.trans hgoes, ?_⟩
    rw [htpc', read_low, select_qsort hgn, select_group hq hn hg (hge.trans hev)]
  · -- no entry has the high word
    refine ⟨t, ht', ?_⟩
    rw [htpc, select_of_ne, select_of_ne]
    · intro e he hev
      obtain ⟨c, hc, rfl⟩ := mem_map.1 he
      obtain ⟨g, hg, hge, -⟩ := mem_groups hc
      have hmem : g.1 ∈ iqh.map C1.val := hvals ▸ mem_map_of_mem hg
      obtain ⟨e, he, heg⟩ := mem_map.1 hmem
      exact hv ⟨e, he, heg.trans (hge.trans (congrArg high (BitVec.eq_of_toInt_eq hev)))⟩
    · intro e he hev
      obtain ⟨c, hc, rfl⟩ := mem_map.1 he
      exact hv ⟨c, hc, BitVec.eq_of_toInt_eq hev⟩

/-! ### The two loops over the cases -/

section Count

variable {typev : Bool} {cases : List Case} {k : Count} {c : Case} {x : BitVec 64}

/-- The cases that are counted. -/
theorem count_nc (k : Count) (cases : List Case) :
    (cases.foldl countCase k).nc = k.nc + cases.countP fun c => !c.isDef := by
  induction cases generalizing k with
  | nil => rfl
  | cons c cases ih =>
    rw [foldl_cons, ih, countCase]
    rcases hc : c.isDef with - | -
    · simp [hc, Nat.add_assoc, Nat.add_comm 1]
    · simp [hc]

/-- Nothing is said about duplicates. -/
theorem count_diags (h : Diag.duplicateCases x ∉ k.diags) :
    Diag.duplicateCases x ∉ (cases.foldl countCase k).diags := by
  induction cases generalizing k with
  | nil => exact h
  | cons c cases ih =>
    refine ih ?_
    rw [countCase]
    split_ifs with hc hd
    · simpa using h
    · exact h
    · exact h

/-- **The default** is what it was before, or where the one default is. -/
theorem count_dflt (hone : cases.countP Case.isDef ≤ 1) :
    (cases.foldl countCase k).dflt = (cases.find? Case.isDef).elim k.dflt Case.label := by
  induction cases generalizing k with
  | nil => rfl
  | cons c cases ih =>
    rcases hc : c.isDef with - | -
    · rw [countP_cons_of_neg (by simp [hc])] at hone
      rw [foldl_cons, ih hone, List.find?_cons_of_neg (by simp [hc]), countCase]
      simp [hc]
    · rw [countP_cons_of_pos hc] at hone
      have hnone : cases.find? Case.isDef = none := by
        rw [List.find?_eq_none]
        exact countP_eq_zero.1 (by omega)
      rw [foldl_cons, ih (by omega), hnone, List.find?_cons_of_pos hc, countCase]
      simp [hc]

/-! ### What a switch means -/

section Meaning

variable {m : Machine} {typev : Bool} {fetch : ℕ → Option Instr} {v : BitVec 64} {s : St}
  {pc breakpc : ℕ} {cases : List Case} {c : Case}

/-- The conversion to the type of the switch. -/
def conv (typev : Bool) (x : BitVec 64) : BitVec 64 := if typev then x else long x

/-- The cases that count: a 64-bit constant never matches a 32-bit value. -/
def counts (typev : Bool) (c : Case) : Bool := !c.isDef && (typev || !c.isv)

/-- The cases that count, with their constants converted. -/
def counted (typev : Bool) (cases : List Case) : List C1 :=
  (cases.filter (counts typev)).map fun c => ⟨conv typev c.val, c.label⟩

/-- The label of the default, or the break label. -/
def defaultLabel (breakpc : ℕ) (cases : List Case) : ℕ :=
  (cases.find? Case.isDef).elim breakpc Case.label

/-- **Where a switch goes** when the value of its expression is `v`. -/
def target (typev : Bool) (breakpc : ℕ) (cases : List Case) (v : BitVec 64) : ℕ :=
  select (keys (counted typev cases)) (defaultLabel breakpc cases) (conv typev v).toInt

/-- The cases that do not count. -/
def dropped (typev : Bool) (cases : List Case) : ℕ :=
  cases.countP fun c => !c.isDef && !counts typev c

theorem filterMap_entry (typev : Bool) (cases : List Case) :
    cases.filterMap (entry typev) = counted typev cases := by
  induction cases with
  | nil => rfl
  | cons c cases ih =>
    rw [counted] at ih ⊢
    rcases hd : c.isDef with - | - <;> rcases hi : c.isv with - | - <;> cases typev <;>
      simp [entry, counts, conv, hd, hi, ih]

/-- **The table** has the cases that count, and an empty entry for each that does not. -/
theorem table_count (typev : Bool) (cases : List Case) : table typev (count cases).nc cases =
      counted typev cases ++ replicate (dropped typev cases) ⟨0, 0⟩ := by
  have hlen : (counted typev cases).length + dropped typev cases = (count cases).nc := by
    rw [count, count_nc, counted, length_map, ← countP_eq_length_filter, dropped]
    induction cases with
    | nil => rfl
    | cons c cases ih =>
      simp only [countP_cons] at ih ⊢
      rcases hd : c.isDef with - | - <;> rcases hc : counts typev c with - | -
      · simp
        omega
      · simp
        omega
      · simp
        omega
      · simp [counts, hd] at hc
  simp only [table, filterMap_entry]
  rw [← hlen, Nat.add_sub_cancel_left]

/-- **What is reported**: that two entries of the table have the same value. -/
theorem doswit_reports (m : Machine) (typev : Bool) (breakpc pc : ℕ) (cases : List Case) :
    (∃ x, .duplicateCases x ∈ (doswit m typev breakpc pc cases).1) ↔
      ¬((table typev (count cases).nc cases).map C1.val).Nodup := by
  rw [← duplicates_qsort]
  have hdiags : (doswit m typev breakpc pc cases).1 =
      (if !typev && (count cases).isv then (count cases).diags ++ [.wideConstant]
        else (count cases).diags) ++
        (duplicates (qsort (table typev (count cases).nc cases))).map .duplicateCases := by
    simp only [doswit]
    split <;> rfl
  have hcount (x : BitVec 64) : Diag.duplicateCases x ∉ (count cases).diags :=
    count_diags not_mem_nil
  rw [hdiags]
  constructor
  · rintro ⟨x, hx⟩ hnil
    rw [hnil, map_nil, append_nil] at hx
    split_ifs at hx
    · simp [hcount x] at hx
    · exact hcount x hx
  · intro hne
    obtain ⟨x, hx⟩ := exists_mem_of_ne_nil _ hne
    exact ⟨x, mem_append_right _ (mem_map_of_mem hx)⟩

/-- Every constant in the table of a 32-bit switch is a `long`. -/
theorem long_of_mem_table {e : C1} (he : e ∈ table false (count cases).nc cases) :
    long e.val = e.val := by
  rw [table_count, mem_append] at he
  rcases he with he | he
  · obtain ⟨c, -, rfl⟩ := mem_map.1 he
    exact long_long c.val
  · obtain ⟨-, rfl⟩ := mem_replicate.1 he
    rfl

/-- **The emitted code** goes where the table says. -/
theorem doswit_goes (hs : s.pc = pc) (hp : Placed fetch pc (doswit m typev breakpc pc cases).2)
    (hone : cases.countP Case.isDef ≤ 1) (hlabel : ∀ c ∈ cases, c.label ≠ 0)
    (hn : ((table typev (count cases).nc cases).map C1.val).Nodup) :
    ∃ t, Goes (step fetch v) s t ∧ t.pc = select (keys (table typev (count cases).nc cases))
      (defaultLabel breakpc cases) (conv typev v).toInt := by
  have hdflt : (if (count cases).dflt = 0 then breakpc else (count cases).dflt) =
      defaultLabel breakpc cases := by
    rw [count, count_dflt hone, defaultLabel]
    rcases hf : cases.find? Case.isDef with - | c
    · rfl
    · exact if_neg (hlabel c (List.mem_of_find?_eq_some hf))
  have hiq := qsort_ascends hn
  rw [← select_qsort hn]
  simp only [doswit, hdflt, duplicates_qsort.2 hn, ne_eq, not_true_eq_false, if_false] at hp
  cases typev with
  | false =>
    rw [conv, if_neg Bool.false_ne_true, toInt_long]
    refine swit1_goes hs hp (fun c hc => ?_) hiq
    exact long_of_mem_table ((qsort_perm _).mem_iff.1 hc)
  | true =>
    rw [conv, if_pos rfl]
    cases m with
    | amd64 => exact swit1_goes hs hp (fun c _ => rfl) hiq
    | i386 =>
      have hn' := ((qsort_perm (table true (count cases).nc cases)).map C1.val).nodup_iff.2 hn
      exact pairSearch_goes hs hp (qsort_sorted _) hn'

/-! ### Every switch -/

section Selects

variable {m : Machine} {pc : ℕ} {s : Switch} {g : Gen} {body : List Item} {v : BitVec 64}

/-- What `gen` keeps while it is in the body of the switch at `pc`: the labels are in the body. -/
structure Gen.Inside (pc : ℕ) (g : Gen) : Prop where
  pc_le : pc + 2 ≤ g.pc
  le_label : ∀ c ∈ g.cases, pc + 2 ≤ c.label
  label_lt : ∀ c ∈ g.cases, c.label < g.pc + if g.canreach then 1 else 0

theorem genItem_inside (h : g.Inside pc) (i : Item) : (genItem g i).Inside pc := by
  have hlt : ∀ c ∈ g.cases, c.label < g.pc + 1 := by
    intro c hc
    have := h.label_lt c hc
    split_ifs at this <;> omega
  have hpc := h.pc_le
  -- a label stands where the code has got to, and makes its statement reachable
  have hnew (c : Case) (hc : c.label = g.pc) :
      Gen.Inside pc { g with cases := c :: g.cases, canreach := true } :=
    ⟨hpc, forall_mem_cons.2 ⟨by omega, h.le_label⟩, forall_mem_cons.2 ⟨by simp [hc], hlt⟩⟩
  cases i with
  | case val isv => exact hnew _ rfl
  | dflt => exact hnew _ rfl
  | code n canreach =>
    refine ⟨?_, h.le_label, fun c hc => ?_⟩
    · simp only [genItem]
      omega
    · have := hlt c hc
      simp only [genItem]
      omega

theorem genBody_inside (pc : ℕ) (s : Switch) : (genBody pc s).Inside pc := by
  have hfold (body : List Item) (g : Gen) (h : g.Inside pc) : (body.foldl genItem g).Inside pc := by
    induction body generalizing g with
    | nil => exact h
    | cons i body ih => exact ih (genItem g i) (genItem_inside h i)
  exact hfold s.body _ ⟨le_rfl, nofun, nofun⟩

/-- The labels, and the break label, are before the search. -/
theorem label_lt_start {c : Case} (hc : c ∈ (genBody pc s).cases) : c.label < s.start pc := by
  have := (genBody_inside pc s).label_lt c hc
  rw [Switch.start]
  omega

theorem lt_start (pc : ℕ) (s : Switch) : pc + 1 < s.start pc := by
  have := (genBody_inside pc s).pc_le
  rw [Switch.start]
  omega

/-- The defaults of the body are the defaults among the cases. -/
theorem genBody_defaults (pc : ℕ) (s : Switch) :
    (genBody pc s).cases.countP Case.isDef = s.body.count .dflt := by
  have hfold (body : List Item) (g : Gen) : (body.foldl genItem g).cases.countP Case.isDef =
      g.cases.countP Case.isDef + body.count .dflt := by
    induction body generalizing g with
    | nil => rfl
    | cons i body ih =>
      rw [foldl_cons, ih]
      cases i with
      | case val isv => simp [genItem]
      | dflt =>
        simp only [genItem, countP_cons, count_cons, if_true, beq_self_eq_true]
        omega
      | code n canreach => simp [genItem]
  rw [genBody, hfold, countP_nil, Nat.zero_add]

/-- Only 64-bit constants in a 32-bit switch are dropped. -/
theorem genBody_dropped (pc : ℕ) (s : Switch) : dropped s.typev (genBody pc s).cases = 0 ↔
      s.typev = true ∨ ∀ x, Item.case x true ∉ s.body := by
  have hfold (body : List Item) (g : Gen) : dropped s.typev (body.foldl genItem g).cases = 0 ↔
      dropped s.typev g.cases = 0 ∧ (s.typev = true ∨ ∀ x, Item.case x true ∉ body) := by
    induction body generalizing g with
    | nil => simp
    | cons i body ih =>
      rw [foldl_cons, ih]
      rcases s.typev with - | -
      · rcases i with ⟨x, - | -⟩ | - | -
        · simp [genItem, dropped, counts]
        · -- the constant is dropped, and it is in the body
          refine iff_of_false (fun h => ?_) fun h => ?_
          · simp [genItem, dropped, counts] at h
          · exact h.2.elim Bool.noConfusion fun h => h x mem_cons_self
        · simp [genItem, dropped, counts]
        · simp [genItem, dropped, counts]
      · cases i <;> simp [genItem, dropped, counts]
  rw [genBody, hfold]
  exact and_iff_right rfl

/-- The constants that count are different when they are converted. -/
def Distinct (pc : ℕ) (s : Switch) : Prop :=
  ((counted s.typev (genBody pc s).cases).map C1.val).Nodup

/-- **The switch at `pc` selects the right case**: duplicates are reported when there are some among
the cases that count, and if there are none the search is left where it should be, whatever the
value is and whatever the other register and the flags hold. -/
def Selects (m : Machine) (pc : ℕ) (s : Switch) : Prop :=
  ((∃ x, .duplicateCases x ∈ (genSwitch m pc s).1) ↔ ¬Distinct pc s) ∧
    (Distinct pc s → ∀ (v : BitVec 64) (s₀ : St), s₀.pc = s.start pc →
      ∃ t, Halts (step (memory (s.start pc) (genSwitch m pc s).2) v) s₀ t ∧
        t.pc = target s.typev (pc + 1) (genBody pc s).cases v)

/-- The table of the switch. -/
def Switch.table (s : Switch) (pc : ℕ) : List C1 :=
  Cc.table s.typev (count (genBody pc s).cases).nc (genBody pc s).cases

/-- The search goes where the table says, and ends when that is outside. -/
theorem genSwitch_halts (hone : s.body.count .dflt ≤ 1)
    (hn : ((s.table pc).map C1.val).Nodup) {s₀ : St} (hs : s₀.pc = s.start pc) {l : ℕ}
    (hl : select (keys (s.table pc)) (defaultLabel (pc + 1) (genBody pc s).cases)
      (conv s.typev v).toInt = l) (hlt : l < s.start pc) :
    ∃ t, Halts (step (memory (s.start pc) (genSwitch m pc s).2) v) s₀ t ∧ t.pc = l := by
  have hlabel : ∀ c ∈ (genBody pc s).cases, c.label ≠ 0 := by
    intro c hc
    have := (genBody_inside pc s).le_label c hc
    omega
  obtain ⟨t, ht, htpc⟩ := doswit_goes (m := m) (v := v) hs (memory_placed _ _)
    ((genBody_defaults pc s).trans_le hone) hlabel hn
  have htl : t.pc = l := htpc.trans hl
  refine ⟨t, ⟨ht, ?_⟩, htl⟩
  rw [step, htl, memory_below hlt, Option.map_none]

/-- Where a switch goes is not in the search, and it is not at the start of the program. -/
theorem target_bounds (pc : ℕ) (s : Switch) (v : BitVec 64) :
    0 < target s.typev (pc + 1) (genBody pc s).cases v ∧
      target s.typev (pc + 1) (genBody pc s).cases v < s.start pc := by
  have hlabel (c : Case) (hc : c ∈ (genBody pc s).cases) : 0 < c.label ∧ c.label < s.start pc :=
    ⟨by have := (genBody_inside pc s).le_label c hc; omega, label_lt_start hc⟩
  refine select_ind (P := fun l => 0 < l ∧ l < s.start pc) ?_ ?_
  · rw [defaultLabel]
    rcases hf : (genBody pc s).cases.find? Case.isDef with - | c
    · exact ⟨Nat.succ_pos pc, lt_start pc s⟩
    · exact hlabel c (List.mem_of_find?_eq_some hf)
  · intro e he
    obtain ⟨d, hd, rfl⟩ := mem_map.1 he
    obtain ⟨c, hc, rfl⟩ := mem_map.1 hd
    exact hlabel c (mem_of_mem_filter hc)

/-- When nothing is dropped, the table has the cases that count. -/
theorem selects_of_dropped (hone : s.body.count .dflt ≤ 1)
    (hd : dropped s.typev (genBody pc s).cases = 0) : Selects m pc s := by
  have htable : s.table pc = counted s.typev (genBody pc s).cases := by
    rw [Switch.table, table_count, hd, replicate_zero, append_nil]
  have hreport := doswit_reports m s.typev (pc + 1) (s.start pc) (genBody pc s).cases
  refine ⟨hreport.trans (not_congr (by rw [Distinct, ← htable]; rfl)), fun hn v s₀ hs => ?_⟩
  refine genSwitch_halts hone (by rwa [htable]) hs ?_ (target_bounds pc s v).2
  rw [htable]
  rfl

/-- When something is dropped, the empty entry of the table is found or is reported. -/
theorem not_selects_of_dropped (hone : s.body.count .dflt ≤ 1)
    (hd : dropped s.typev (genBody pc s).cases ≠ 0) (hdist : Distinct pc s) : ¬Selects m pc s := by
  rintro ⟨hreport, hgoes⟩
  have htable : s.table pc = counted s.typev (genBody pc s).cases ++
      replicate (dropped s.typev (genBody pc s).cases) ⟨0, 0⟩ := table_count _ _
  have hzero : (⟨0, 0⟩ : C1) ∈ s.table pc := by
    rw [htable]
    exact mem_append_right _ (mem_replicate.2 ⟨hd, rfl⟩)
  have hn : ((s.table pc).map C1.val).Nodup := by
    by_contra hn
    exact hreport.1 ((doswit_reports _ _ _ _ _).2 hn) hdist
  have hconv : (conv s.typev 0).toInt = 0 := by
    cases s.typev <;> rfl
  have hsel : select (keys (s.table pc)) (defaultLabel (pc + 1) (genBody pc s).cases)
      (conv s.typev 0).toInt = 0 :=
    select_of_mem (keys_nodup.2 hn) (mem_map_of_mem hzero) hconv.symm
  -- both ends of the run for the value zero
  have hs : (⟨s.start pc, 0, .eq⟩ : St).pc = s.start pc := rfl
  obtain ⟨t, ht, htpc⟩ := genSwitch_halts (m := m) hone hn hs hsel
    (Nat.zero_lt_of_lt (lt_start pc s))
  obtain ⟨t', ht', htpc'⟩ := hgoes hdist 0 _ hs
  have hpos := (target_bounds pc s 0).1
  rw [← htpc', ← ht.unique ht', htpc] at hpos
  exact lt_irrefl 0 hpos

/-- **Compiled switches select the right case** when the switch is 64 bits wide or has no 64-bit
constant, and otherwise only where duplicates are reported anyway. -/
theorem selects_iff (m : Machine) (pc : ℕ) (s : Switch) (hone : s.body.count .dflt ≤ 1) :
    Selects m pc s ↔ s.typev = true ∨ (∀ x, Item.case x true ∉ s.body) ∨ ¬Distinct pc s := by
  rw [← or_assoc, ← genBody_dropped pc s]
  constructor
  · intro h
    by_contra hno
    rw [not_or, not_not] at hno
    exact not_selects_of_dropped hone hno.1 hno.2 h
  · rintro (hd | hdist)
    · exact selects_of_dropped hone hd
    · have hn : ¬((s.table pc).map C1.val).Nodup := fun hn => hdist (by
        rw [Switch.table, table_count, List.map_append] at hn
        exact (List.nodup_append.1 hn).1)
      exact ⟨iff_of_true ((doswit_reports _ _ _ _ _).2 hn) hdist, fun h => absurd h hdist⟩

/-- A switch on a `vlong` with two cases that differ in the high word only, and a default. -/
theorem selects_iff_words :
    [Item.case 5 true, .code 0 false, .case 0x100000005 true, .code 0 false, .dflt,
        .code 0 false].count .dflt ≤ 1 ∧
      Selects .i386 7 ⟨true, [.case 5 true, .code 0 false, .case 0x100000005 true, .code 0 false,
        .dflt, .code 0 false], true, 1⟩ :=
  ⟨by decide, (selects_iff .i386 7 _ (by decide)).2 (.inl rfl)⟩

/-- `switch(x){ case 5LL: … }` for a `long`. -/
theorem not_selects_wide :
    ¬Selects .amd64 7 ⟨false, [.case 5 true, .code 0 false], true, 1⟩ :=
  not_selects_of_dropped (by decide) (by decide) List.nodup_nil

end Selects

end Meaning

end Count

end Pair

end Words

end Table

end Cc

end Plan9
