import Plan9.Lib.Code
import Plan9.Lib.Table
import Mathlib.Data.BitVec
import Mathlib.Order.Compare
import Mathlib.Tactic.Ring

/-!
# Compare and branch

The instructions that a compiled `switch` consists of, on the two machines whose `swt.c` is
modelled, and the binary search that `swit1` emits.

* `Plan9.Cc.gcmp_goes` – what a comparison followed by a branch does;
* `Plan9.Cc.swit1_goes` – the emitted search goes to the label of the value, or to the default.

Labels of branches that the compiler patches later are written down at once here.
-/

namespace Plan9

namespace Cc

open Lib List

/-! ### The machines -/

/-- The machine that is compiled for: `6c` or `8c`. -/
inductive Machine
  | amd64
  | i386
  deriving DecidableEq, Repr

/-- The register that is compared: one with a `long` or a `vlong`, or one of a register pair. -/
inductive Opnd
  | long
  | vlong
  | low
  | high
  deriving DecidableEq, Repr

/-- The cast to `long`, whose value is then a `vlong` again. -/
def long (x : BitVec 64) : BitVec 64 := (x.setWidth 32).signExtend 64

/-- What is in the register when the value of the expression is `v`. -/
def Opnd.read (v : BitVec 64) : Opnd → ℤ
  | .long | .low => (v.setWidth 32).toInt
  | .vlong => v.toInt
  | .high => ((v.sshiftRight 32).setWidth 32).toInt

/-- The instructions. `CMP` has an immediate operand of 32 bits, or a register that `MOVQ` has
loaded. -/
inductive Instr
  | load (c : BitVec 64)
  | cmp (n : Opnd) (c : BitVec 64)
  | cmpLoaded (n : Opnd)
  | jmp (lbl : ℕ)
  | jcc (cond : Ordering) (lbl : ℕ)
  deriving DecidableEq, Repr

/-- The state of the machine: the program counter, the register that constants are loaded to, and
how the last comparison came out. -/
structure St where
  pc : ℕ
  loaded : BitVec 64
  flags : Ordering
  deriving DecidableEq, Repr

/-- What an instruction does when the value of the expression is `v`. -/
def Instr.exec (v : BitVec 64) (s : St) : Instr → St
  | .load c => { s with pc := s.pc + 1, loaded := c }
  | .cmp n c => { s with pc := s.pc + 1, flags := compare (n.read v) (c.setWidth 32).toInt }
  | .cmpLoaded n => { s with pc := s.pc + 1, flags := compare (n.read v) s.loaded.toInt }
  | .jmp lbl => { s with pc := lbl }
  | .jcc cond lbl => { s with pc := if s.flags = cond then lbl else s.pc + 1 }

/-- The machine stops where there is no instruction. -/
def step (fetch : ℕ → Option Instr) (v : BitVec 64) (s : St) : Option St :=
  (fetch s.pc).map (Instr.exec v s)

/-! ### The code of a comparison -/

/-- `nodgconst` in `6c`. -/
def nodgconst (v : BitVec 64) (n : Opnd) : BitVec 64 := if n = .vlong then v else long v

/-- `immconst` in `6c`: the constant fits in an instruction. -/
def immconst (c : BitVec 64) (n : Opnd) : Bool := n ≠ .vlong || c = long c

/-- `gopcode` for a comparison with a constant, and the branch. -/
def gopcode (op : Ordering) (n : Opnd) (c : BitVec 64) (lbl : ℕ) : List Instr :=
  [.cmp n c, .jcc op lbl]

/-- The comparison of the register with `val`: `gcmp` in `6c`, in `8c` a call of `gopcode`. -/
def gcmp (m : Machine) (op : Ordering) (n : Opnd) (val : BitVec 64) (lbl : ℕ) : List Instr :=
  match m with
  | .i386 => gopcode op n val lbl
  | .amd64 =>
    let cn := nodgconst val n
    if immconst cn n then gopcode op n cn lbl else [.load cn, .cmpLoaded n, .jcc op lbl]

/-- An entry of the table that is searched. -/
structure C1 where
  val : BitVec 64
  label : ℕ
  deriving DecidableEq, Repr

/-- The comparisons of less than five entries. -/
def linear (m : Machine) (n : Opnd) (dflt : ℕ) (q : List C1) : List Instr :=
  (q.flatMap fun c => gcmp m .eq n c.val c.label) ++ [.jmp dflt]

/-- `swit1`, whose code stands at `pc`. -/
def swit1 (m : Machine) (n : Opnd) (dflt pc : ℕ) (q : List C1) : List Instr :=
  if h : q.length < 5 then linear m n dflt q
  else
    let i := q.length / 2
    let r := q[i]
    -- the branch above the pivot is patched once the lower half is there
    let pc' := pc + (gcmp m .gt n r.val 0).length + 1
    let below := swit1 m n dflt pc' (q.take i)
    let sp := pc' + below.length
    gcmp m .gt n r.val sp ++ .jcc .eq r.label :: (below ++ swit1 m n dflt sp (q.drop (i + 1)))
  termination_by q.length
  decreasing_by
    · rw [List.length_take]
      omega
    · rw [List.length_drop]
      omega

variable {m : Machine} {n : Opnd} {op : Ordering} {fetch : ℕ → Option Instr} {v c : BitVec 64}
  {s : St} {q : List C1} {pc lbl dflt : ℕ}

theorem toInt_long (x : BitVec 64) : (long x).toInt = (x.setWidth 32).toInt := by
  rw [long, BitVec.toInt_signExtend_of_le (by omega)]

theorem setWidth_long (x : BitVec 64) : (long x).setWidth 32 = x.setWidth 32 := by
  ext i hi
  rw [BitVec.getElem_setWidth, long, BitVec.getLsbD_signExtend, if_pos hi]
  simp [hi, show i < 64 by omega]

/-- Casting twice. -/
@[simp]
theorem long_long (x : BitVec 64) : long (long x) = long x := by
  rw [long, setWidth_long, long]

/-- The comparison with the constant is exact. -/
def Fits (m : Machine) (n : Opnd) (c : BitVec 64) : Prop :=
  if n = .vlong then m = .amd64 else long c = c

theorem Fits.long_eq (h : Fits m n c) (hn : n ≠ .vlong) : long c = c := by
  rwa [Fits, if_neg hn] at h

theorem toInt_of_long_eq (h : long c = c) : (c.setWidth 32).toInt = c.toInt := by
  rw [← toInt_long, h]

theorem gcmp_length (lbl : ℕ) : (gcmp m op n c lbl).length = (gcmp m op n c 0).length := by
  cases m with
  | i386 => rfl
  | amd64 =>
    simp only [gcmp]
    split <;> rfl

/-! ### Runs -/

/-- One instruction of the machine. -/
theorem goes_step {i : Instr} {t : St} (hi : fetch s.pc = some i)
    (h : Goes (step fetch v) (i.exec v s) t) : Goes (step fetch v) s t :=
  Goes.step (by rw [step, hi, Option.map_some]) h

/-- A comparison with an immediate operand. -/
theorem gopcode_goes (hp : Placed fetch s.pc (gopcode op n c lbl))
    (hc : (c.setWidth 32).toInt = c.toInt) :
    ∃ t, Goes (step fetch v) s t ∧ t.flags = compare (n.read v) c.toInt ∧
      t.pc = if compare (n.read v) c.toInt = op then lbl
        else s.pc + (gopcode op n c lbl).length := by
  rw [← hc]
  exact ⟨_, goes_step hp.head (goes_step hp.tail.head (Goes.refl _)), rfl, rfl⟩

/-- **A comparison and its branch.** -/
theorem gcmp_goes (hp : Placed fetch s.pc (gcmp m op n c lbl)) (hf : Fits m n c) :
    ∃ t, Goes (step fetch v) s t ∧ t.flags = compare (n.read v) c.toInt ∧
      t.pc = if compare (n.read v) c.toInt = op then lbl
        else s.pc + (gcmp m op n c lbl).length := by
  by_cases hn : n = .vlong
  · rw [Fits, if_pos hn] at hf
    subst hf hn
    by_cases hc : c = long c
    · -- the constant is an immediate operand
      have hg : gcmp .amd64 op .vlong c lbl = gopcode op .vlong c lbl := by
        simp [gcmp, immconst, nodgconst, ← hc]
      rw [hg] at hp ⊢
      exact gopcode_goes hp (toInt_of_long_eq hc.symm)
    · -- it is loaded into a register first
      have hg : gcmp .amd64 op .vlong c lbl = [.load c, .cmpLoaded .vlong, .jcc op lbl] := by
        simp [gcmp, immconst, nodgconst, hc]
      rw [hg] at hp ⊢
      exact ⟨_, goes_step hp.head (goes_step hp.tail.head (goes_step hp.tail.tail.head
        (Goes.refl _))), rfl, rfl⟩
  · have hc := hf.long_eq hn
    have hg : gcmp m op n c lbl = gopcode op n c lbl := by
      cases m with
      | i386 => rfl
      | amd64 => simp [gcmp, immconst, nodgconst, hn, hc]
    rw [hg] at hp ⊢
    exact gopcode_goes hp (toInt_of_long_eq hc)

/-! ### The search -/

/-- What is looked up in the table. -/
def C1.key (c : C1) : ℤ × ℕ := (c.val.toInt, c.label)

/-- The table as keys with labels. -/
def keys (q : List C1) : List (ℤ × ℕ) := q.map C1.key

/-- **A short table** is tried entry by entry. -/
theorem linear_goes (hs : s.pc = pc) (hp : Placed fetch pc (linear m n dflt q))
    (hf : ∀ c ∈ q, Fits m n c.val) :
    ∃ t, Goes (step fetch v) s t ∧ t.pc = select (keys q) dflt (n.read v) := by
  subst hs
  induction q generalizing s with
  | nil => exact ⟨_, goes_step hp.head (Goes.refl _), rfl⟩
  | cons c q ih =>
    have hcode : linear m n dflt (c :: q) = gcmp m .eq n c.val c.label ++ linear m n dflt q := by
      simp [linear]
    rw [hcode] at hp
    obtain ⟨t, ht, -, htpc⟩ := gcmp_goes (v := v) hp.left (hf c mem_cons_self)
    rw [keys, map_cons, select_cons]
    by_cases hc : c.key.1 = n.read v
    · rw [if_pos hc]
      rw [if_pos (compare_eq_iff_eq.2 (show n.read v = c.val.toInt from hc.symm))] at htpc
      exact ⟨t, ht, htpc⟩
    · rw [if_neg hc]
      rw [if_neg fun h => hc
        (show c.val.toInt = n.read v from (compare_eq_iff_eq.1 h).symm)] at htpc
      obtain ⟨t', ht', htpc'⟩ := ih (fun c' hc' => hf c' (mem_cons_of_mem c hc'))
        (htpc ▸ hp.right)
      exact ⟨t', ht.trans ht', htpc'⟩

/-- The table around its pivot. -/
theorem keys_pivot {i : ℕ} (hi : i < q.length) :
    keys q = keys (q.take i) ++ q[i].key :: keys (q.drop (i + 1)) := by
  rw [keys, keys, keys, ← map_cons, ← map_append, ← drop_eq_getElem_cons hi, take_append_drop]

/-- **The emitted search** goes to the label of the value, and to the default if there is none. -/
theorem swit1_goes (hs : s.pc = pc) (hp : Placed fetch pc (swit1 m n dflt pc q))
    (hf : ∀ c ∈ q, Fits m n c.val) (ha : Ascends (keys q)) :
    ∃ t, Goes (step fetch v) s t ∧ t.pc = select (keys q) dflt (n.read v) := by
  -- the halves are shorter than the table
  induction hk : q.length using Nat.strong_induction_on generalizing q pc s with
  | _ k ih =>
  rw [swit1] at hp
  subst hs hk
  by_cases h : q.length < 5
  · rw [dif_pos h] at hp
    exact linear_goes rfl hp hf
  · rw [dif_neg h] at hp
    extract_lets i r pc' below sp at hp
    have hi : i < q.length := by
      have : i = q.length / 2 := rfl
      omega
    have hpivot : keys q = keys (q.take i) ++ r.key :: keys (q.drop (i + 1)) := keys_pivot hi
    rw [hpivot] at ha ⊢
    -- the comparison with the pivot and the branch for what is above it
    obtain ⟨t, ht, hflags, htpc⟩ := gcmp_goes (v := v) hp.left (hf r (getElem_mem hi))
    have hlen : (gcmp m .gt n r.val sp).length = (gcmp m .gt n r.val 0).length := gcmp_length sp
    have hcode := hp.right
    rw [hlen] at hcode htpc
    have hbelow : Placed fetch pc' below := hcode.tail.left
    have habove : Placed fetch sp (swit1 m n dflt sp (q.drop (i + 1))) := hcode.tail.right
    have hbranch : t.pc = s.pc + (gcmp m .gt n r.val 0).length →
        fetch t.pc = some (.jcc .eq r.label) := fun h => h ▸ hcode.head
    rcases lt_trichotomy (n.read v) r.val.toInt with hlt | heq | hgt
    · -- below the pivot: both branches are passed
      rw [select_below ha hlt]
      rw [compare_lt_iff_lt.2 hlt] at hflags htpc
      have hnext : (Instr.exec v t (.jcc .eq r.label)).pc = pc' := by
        rw [Instr.exec, hflags, htpc]
        rfl
      obtain ⟨t', ht', htpc'⟩ := ih (q.take i).length (by rw [length_take]; omega) hnext hbelow
        (fun c hc => hf c (mem_of_mem_take hc)) ha.left rfl
      exact ⟨t', ht.trans (goes_step (hbranch htpc) ht'), htpc'⟩
    · -- at the pivot: the second branch is taken
      rw [select_at ha heq]
      rw [compare_eq_iff_eq.2 heq] at hflags htpc
      refine ⟨_, ht.trans (goes_step (hbranch htpc) (Goes.refl _)), ?_⟩
      rw [Instr.exec, hflags]
      rfl
    · -- above the pivot: the first branch is taken
      rw [select_above ha hgt]
      rw [compare_gt_iff_gt.2 hgt] at htpc
      obtain ⟨t', ht', htpc'⟩ := ih (q.drop (i + 1)).length
        (by rw [length_drop]; omega) htpc habove
        (fun c hc => hf c (mem_of_mem_drop hc)) ha.right rfl
      exact ⟨t', ht.trans ht', htpc'⟩

end Cc

end Plan9
