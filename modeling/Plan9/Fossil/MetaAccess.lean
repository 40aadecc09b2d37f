import Mathlib.Data.List.TakeWhile
import Plan9.Fossil.MetaBlock
import Plan9.Lib.Access

/-!
# Metadata blocks from outside

The functions on metadata blocks as programs that leave a trace of the bytes they touch, run on
arbitrary memory: the buffer is its first `n` bytes.

* `Plan9.Fossil.Vac.Traced.unpackBlock_result`, `mbSearch_spec` and `mbDelete_spec` – the programs
  compute what the functions of `Plan9.Fossil.MetaBlock` compute;
* `Plan9.Fossil.Vac.validated_iff` – what `mbUnpack` accepts is safe to use unless the table, whose
  length is compared with nothing, is longer than the buffer.
-/

namespace Plan9

namespace Fossil

namespace Vac

open Lib Lib.Access

/-- How the functions end early: with `EBadMeta`, or with a failed assertion. -/
inductive Fault
  | badMeta
  | assertion
deriving DecidableEq

/-- `struct MetaBlock` without the buffer. -/
structure Header where
  maxsize : ℕ
  size : ℕ
  free : ℤ
  maxindex : ℕ
  nindex : ℕ
  botch : Bool

/-- The block in a buffer. -/
def Header.block (h : Header) (d : Buffer) : MetaBlock :=
  ⟨h.maxsize, h.size, h.free, h.maxindex, h.nindex, h.botch, d⟩

/-- `DePlan9`. -/
def dePlan9 : ℕ := 1

/-- `VtScoreSize`. -/
def vtScoreSize : ℕ := 20

theorem zero_notMem_takeWhile (l : List UInt8) : 0 ∉ l.takeWhile (· ≠ 0) := fun h => by
  simpa using List.mem_takeWhile_imp h

/-- A string in a buffer, up to its first zero. -/
def cut (l : List UInt8) : Str := ⟨l.takeWhile (· ≠ 0), zero_notMem_takeWhile l⟩

/-- The fields that the optional sections set. -/
structure Options where
  mcount : ℕ
  plan9 : Option (ℕ × ℕ)
  qidSpace : Option (ℕ × ℕ)

/-- `struct DirEntry` with the fields that are not packed any more. -/
structure OldEntry extends DirEntry where
  plan9 : Option (ℕ × ℕ)

namespace Traced

/-! ### The functions -/

/-- The loop of `mbUnpack`: `k` entries are left, from `p` on. -/
def checkTable (omin size : ℕ) : ℕ → ℕ → Access Fault Unit
  | 0, _ => pure ()
  | k + 1, p => do
    let eo ← num p 2
    let en ← num (p + 2) 2
    require .badMeta (¬(eo < omin ∨ size < eo + en ∨ en < 8))
    let magic ← num eo 4
    require .badMeta (magic = dirMagic)
    checkTable omin size k (p + metaIndexSize)

/-- `mbUnpack`, behind the test for an empty block. -/
def unpackBlock (n : ℕ) : Access Fault Header := do
  let magic ← num 0 4
  require .badMeta (magic = metaMagic ∨ magic = metaMagic - 1)
  let size ← num 4 2
  let free ← num 6 2
  let maxindex ← num 8 2
  let nindex ← num 10 2
  require .badMeta (size ≤ n)
  let omin := metaHeaderSize + maxindex * metaIndexSize
  require .badMeta (omin ≤ n)
  checkTable omin size nindex metaHeaderSize
  return ⟨n, size, free, maxindex, nindex, magic ≠ metaMagic⟩

/-- `mbUnpack`. -/
def mbUnpack (n : ℕ) : Access Fault Header :=
  if n = 0 then return ⟨0, 0, 0, 0, 0, false⟩ else unpackBlock n

/-- `meUnpack`. -/
def meUnpack (mb : Header) (i : ℕ) : Access Fault MetaEntry := do
  require .assertion (i < mb.nindex)
  let eo ← num (slot i) 2
  let en ← num (slot i + 2) 2
  require .assertion (8 ≤ en)
  return ⟨eo, en⟩

/-- The loops of `meCmp` and of `meCmpOld`: `n` bytes are left, from `p` on. -/
def cmpLoop (botch : Bool) : ℕ → ℕ → List UInt8 → Access Fault ℤ
  | _, 0, [] => return 0
  | _, 0, _ :: _ => return if botch then 1 else -1
  | _, _ + 1, [] => return if botch then -1 else 1
  | p, n + 1, s :: ss => do
    let c ← num p 1
    if c < s.toNat then return -1
    else if s.toNat < c then return 1
    else cmpLoop botch (p + 1) n ss

/-- `meCmp`, or `meCmpOld` for a block in the old order. -/
def meCmp (mb : Header) (me : MetaEntry) (s : Str) : Access Fault ℤ := do
  let n ← num (me.p + 6) 2
  cmpLoop mb.botch (me.p + 8) (min n (me.size - 8)) s.1

/-- The loop of `mbSearch`. -/
def searchLoop (mb : Header) (elem : Str) (b t : ℕ) : Access Fault Search :=
  if b < t then do
    let me ← meUnpack mb ((b + t) / 2)
    let x ← meCmp mb me elem
    if x = 0 then return .found ((b + t) / 2) me
    else if x < 0 then searchLoop mb elem ((b + t) / 2 + 1) t
    else searchLoop mb elem b ((b + t) / 2)
  else do
    require .assertion (b = t)
    return .absent b
termination_by t - b

/-- `mbSearch`. -/
def mbSearch (mb : Header) (elem : Str) : Access Fault Search := searchLoop mb elem 0 mb.nindex

/-- `mbDelete`. -/
def mbDelete (mb : Header) (i : ℕ) : Access Fault Header := do
  require .assertion (i < mb.nindex)
  let me ← meUnpack mb i
  clear me.p me.size
  let n := (mb.nindex - i - 1) * metaIndexSize
  move (slot i) (slot i + metaIndexSize) n
  clear (slot i + n) metaIndexSize
  return { mb with
    size := if me.p + me.size = mb.size then mb.size - me.size else mb.size
    free := if me.p + me.size = mb.size then mb.free else mb.free + me.size
    nindex := mb.nindex - 1 }

/-! ### Taking an entry apart -/

/-- `stringUnpack`. -/
def stringUnpack : Taker Fault Str := do
  let nn ← Taker.number .badMeta 2
  let s ← Taker.bytes .badMeta nn
  return cut s

/-- One optional section of `deUnpack`: its type is `t`, and it has `nn` bytes from `p` on. -/
def option (version t nn p : ℕ) (o : Options) : Access Fault Options :=
  if t = dePlan9 then
    if 9 ≤ version then return o
    else do
      require .badMeta (o.plan9 = none ∧ nn = 12)
      let p9path ← num p 8
      let p9version ← num (p + 8) 4
      return { o with
        plan9 := some (p9path, p9version)
        mcount := if o.mcount = 0 then p9version else o.mcount }
  else if t = deQidSpace then do
    require .badMeta (o.qidSpace = none ∧ nn = 16)
    let qidOffset ← num p 8
    let qidMax ← num (p + 8) 8
    return { o with qidSpace := some (qidOffset, qidMax) }
  else return o

/-- The loop of `deUnpack`. -/
def options (version : ℕ) (o : Options) (s : Slice) : Access Fault (Options × Slice) :=
  if 0 < s.n then do
    require .badMeta (3 ≤ s.n)
    let t ← num s.p 1
    let nn ← num (s.p + 1) 2
    require .badMeta (nn ≤ s.n - 3)
    let o ← option version t nn (s.p + 3) o
    options version o ((s.drop 3).drop nn)
  else return (o, s)
termination_by s.n
decreasing_by
  simp only [Slice.drop]
  omega

/-- The generations, which an old entry does not have. -/
def generations (version entry : ℕ) : Taker Fault (ℕ × ℕ × ℕ) :=
  if version < 9 then return (0, (entry + 1) % 2 ^ 32, 0)
  else do
    let b ← Taker.bytes .badMeta (3 * 4)
    return (beVal (b.take 4), beVal ((b.drop 4).take 4), beVal (b.drop 8))

/-- The score of a replacement, which is passed over. -/
def replacement (version : ℕ) : Taker Fault Unit :=
  if version = 7 then Taker.skip .badMeta vtScoreSize else return ()

/-- `deUnpack`, before it looks at what is left. -/
def fields : Taker Fault OldEntry := do
  let magic ← Taker.number .badMeta 4
  Taker.demand .badMeta (magic = dirMagic)
  let version ← Taker.number .badMeta 2
  Taker.demand .badMeta (7 ≤ version ∧ version ≤ 9)
  let elem ← stringUnpack
  let entry ← Taker.number .badMeta 4
  let gens ← generations version entry
  let qid ← Taker.number .badMeta 8
  replacement version
  let uid ← stringUnpack
  let gid ← stringUnpack
  let mid ← stringUnpack
  let b ← Taker.bytes .badMeta (5 * 4)
  let o ← options version ⟨beVal ((b.drop 4).take 4), none, none⟩
  return {
    elem := elem, entry := entry, gen := gens.1, mentry := gens.2.1, mgen := gens.2.2, qid := qid
    uid := uid, gid := gid, mid := mid
    mtime := beVal (b.take 4), mcount := o.mcount, ctime := beVal ((b.drop 8).take 4)
    atime := beVal ((b.drop 12).take 4), mode := beVal (b.drop 16)
    qidSpace := o.qidSpace, plan9 := o.plan9 }

/-- `deUnpack`. -/
def deUnpack (me : MetaEntry) : Access Fault OldEntry := do
  let (dir, s) ← fields ⟨me.p, me.size⟩
  require .badMeta (s.p = me.p + me.size)
  return dir

/-! ### They compute what they should -/

variable {S : Set ℕ} {d : Buffer} {n i k p omin size : ℕ} {mb : Header} {elem : Str}

/-- The entries of the table from `p` on. -/
def entryFrom (d : Buffer) (p : ℕ) : MetaEntry := ⟨d.get16 p, d.get16 (p + 2)⟩

theorem entryOk_iff {me : MetaEntry} : entryOk d omin size me = true ↔
    ¬(me.p < omin ∨ size < me.p + me.size ∨ me.size < 8) ∧ beVal (d.load me.p 4) = dirMagic := by
  simp [entryOk, and_assoc]

/-- The entries of a table, one after the other. -/
theorem forall_entryFrom {P : MetaEntry → Prop} :
    (∀ i < k + 1, P (entryFrom d (p + i * metaIndexSize))) ↔
      P (entryFrom d p) ∧ ∀ i < k, P (entryFrom d (p + metaIndexSize + i * metaIndexSize)) := by
  have hnext : ∀ i, p + (i + 1) * metaIndexSize = p + metaIndexSize + i * metaIndexSize :=
    fun i => by rw [Nat.succ_mul, Nat.add_comm (i * _), Nat.add_assoc]
  constructor
  · intro h
    refine ⟨?_, fun i hi => ?_⟩
    · have := h 0 (Nat.succ_pos k)
      rwa [Nat.zero_mul, Nat.add_zero] at this
    · rw [← hnext]
      exact h (i + 1) (Nat.succ_lt_succ hi)
  · rintro ⟨h0, h⟩ i hi
    rcases i with _ | i
    · rwa [Nat.zero_mul, Nat.add_zero]
    · rw [hnext]
      exact h i (Nat.lt_of_succ_lt_succ hi)

/-- **The loop of `mbUnpack`**, where the entries of the table are good. -/
theorem stays_checkTable {Q : Except Fault Unit → Buffer → Prop}
    (hin : ∀ j, omin ≤ j → j < size → j ∈ S)
    (hok : ∀ i < k, entryOk d omin size (entryFrom d (p + i * metaIndexSize)) = true) :
    Stays S (checkTable omin size k p) d Q ↔
      (∀ j, p ≤ j → j < p + k * metaIndexSize → j ∈ S) ∧ Q (.ok ()) d := by
  induction k generalizing p with
  | zero =>
    rw [Nat.zero_mul, Nat.add_zero, checkTable, stays_pure]
    exact ⟨fun h => ⟨fun j h1 h2 => absurd h2 (Nat.not_lt.2 h1), h⟩, fun h => h.2⟩
  | succ k ih =>
    rw [forall_entryFrom (P := fun me => entryOk d omin size me = true), entryOk_iff] at hok
    obtain ⟨⟨hplace, hmagic⟩, hok⟩ := hok
    simp only [entryFrom, Buffer.get16] at hplace hmagic
    simp only [checkTable, stays_bind, stays_num]
    rw [stays_require_of hplace]
    simp only
    rw [stays_require_of hmagic, ih hok]
    have hsize : k.succ * metaIndexSize = 4 + k * metaIndexSize := by
      rw [Nat.succ_mul, Nat.add_comm]
      rfl
    have h4 : metaIndexSize = 4 := rfl
    rw [hsize, h4]
    constructor
    · rintro ⟨h1, h2, -, h3, hQ⟩
      refine ⟨fun j hj hj' => ?_, hQ⟩
      rcases Nat.lt_or_ge j (p + 2) with h | h
      · exact h1 j hj h
      · rcases Nat.lt_or_ge j (p + 4) with h' | h'
        · exact h2 j h h'
        · exact h3 j h' (by omega)
    · rintro ⟨h, hQ⟩
      refine ⟨fun j h1 h2 => h j h1 (by omega), fun j h1 h2 => h j (by omega) (by omega),
        fun j h1 h2 => hin j ?_ ?_, fun j h1 h2 => h j (by omega) (by omega), hQ⟩
      · exact le_trans (Nat.not_lt.1 fun h => hplace (Or.inl h)) h1
      · omega

/-- It refuses all other tables. -/
theorem checkTable_of_not
    (h : ¬∀ i < k, entryOk d omin size (entryFrom d (p + i * metaIndexSize)) = true) :
    (checkTable omin size k p d).result = .error .badMeta := by
  induction k generalizing p with
  | zero => exact absurd (fun i hi => absurd hi (Nat.not_lt_zero i)) h
  | succ k ih =>
    rw [forall_entryFrom (P := fun me => entryOk d omin size me = true), entryOk_iff] at h
    simp only [entryFrom, Buffer.get16] at h
    refine (stays_univ (Q := fun r _ => r = _)).1 ?_
    simp only [checkTable, stays_bind, stays_num, Set.mem_univ, implies_true, true_and]
    by_cases hplace : beVal (d.load p 2) < omin ∨
        size < beVal (d.load p 2) + beVal (d.load (p + 2) 2) ∨ beVal (d.load (p + 2) 2) < 8
    · rw [stays_require_of_not (not_not.2 hplace)]
    · rw [stays_require_of hplace]
      simp only
      by_cases hmagic : beVal (d.load (beVal (d.load p 2)) 4) = dirMagic
      · rw [stays_require_of hmagic, stays_univ]
        exact ih fun hok => h ⟨⟨hplace, hmagic⟩, hok⟩
      · rw [stays_require_of_not hmagic]

/-- **The buffers that `mbUnpack` accepts**, by the fields of the header and of the table. -/
structure Accepts (d : Buffer) (n : ℕ) : Prop where
  magic : beVal (d.load 0 4) = metaMagic ∨ beVal (d.load 0 4) = metaMagic - 1
  size : d.get16 4 ≤ n
  omin : metaHeaderSize + d.get16 8 * metaIndexSize ≤ n
  entries : ∀ i < d.get16 10, entryOk d (metaHeaderSize + d.get16 8 * metaIndexSize) (d.get16 4)
    (entryAt d i) = true

/-- What it takes out of the header. -/
def header (d : Buffer) (n : ℕ) : Header :=
  ⟨n, d.get16 4, d.get16 6, d.get16 8, d.get16 10, beVal (d.load 0 4) ≠ metaMagic⟩

/-- **`mbUnpack` on a buffer that it accepts.** -/
theorem stays_unpackBlock {Q : Except Fault Header → Buffer → Prop} (h : Accepts d n)
    (hin : ∀ j < n, metaHeaderSize ≤ j → j ∈ S) :
    Stays S (unpackBlock n) d Q ↔ (∀ j < slot (d.get16 10), j ∈ S) ∧ Q (.ok (header d n)) d := by
  have h12 : metaHeaderSize = 12 := rfl
  have h4 : metaIndexSize = 4 := rfl
  have hsize := h.size
  have homin := h.omin
  have htable := h.entries
  simp only [Buffer.get16, entryAt, slot] at hsize homin htable
  simp only [unpackBlock, stays_bind, stays_num]
  rw [stays_require_of h.magic]
  simp only
  rw [stays_require_of hsize]
  simp only
  rw [stays_require_of homin]
  simp only
  rw [stays_checkTable (fun j h1 h2 => hin j (by omega) (by omega)) htable, stays_pure]
  simp only [slot, Buffer.get16]
  constructor
  · rintro ⟨h1, h2, h3, h5, h6, htab, hQ⟩
    refine ⟨fun j hj => ?_, hQ⟩
    rcases Nat.lt_or_ge j 12 with hlt | hge
    · have hparts : j < 4 ∨ 4 ≤ j ∧ j < 6 ∨ 6 ≤ j ∧ j < 8 ∨ 8 ≤ j ∧ j < 10 ∨ 10 ≤ j := by omega
      rcases hparts with h | h | h | h | h
      · exact h1 j (Nat.zero_le j) (by omega)
      · exact h2 j h.1 (by omega)
      · exact h3 j h.1 (by omega)
      · exact h5 j h.1 (by omega)
      · exact h6 j h (by omega)
    · exact htab j hge hj
  · rintro ⟨hS, hQ⟩
    refine ⟨fun j _ h => hS j ?_, fun j _ h => hS j ?_, fun j _ h => hS j ?_,
      fun j _ h => hS j ?_, fun j _ h => hS j ?_, fun j _ h => hS j h, hQ⟩ <;> omega

/-- It refuses all other buffers. -/
theorem unpackBlock_of_not (h : ¬Accepts d n) : (unpackBlock n d).result = .error .badMeta := by
  refine (stays_univ (Q := fun r _ => r = _)).1 ?_
  simp only [unpackBlock, stays_bind, stays_num, Set.mem_univ, implies_true, true_and]
  by_cases hmagic : beVal (d.load 0 4) = metaMagic ∨ beVal (d.load 0 4) = metaMagic - 1
  · rw [stays_require_of hmagic]
    simp only
    by_cases hsize : beVal (d.load 4 2) ≤ n
    · rw [stays_require_of hsize]
      simp only
      by_cases homin : metaHeaderSize + beVal (d.load 8 2) * metaIndexSize ≤ n
      · have htable := checkTable_of_not fun htable => h ⟨hmagic, hsize, homin, htable⟩
        simp only [Buffer.get16] at htable
        rw [stays_require_of homin]
        simp only
        rw [stays_univ, htable]
      · rw [stays_require_of_not homin]
    · rw [stays_require_of_not hsize]
  · rw [stays_require_of_not hmagic]

/-- What it ends with. -/
theorem unpackBlock_ok (h : Accepts d n) : (unpackBlock n d).result = .ok (header d n) :=
  (stays_univ (Q := fun r _ => r = .ok (header d n))).1
    ((stays_unpackBlock h fun j _ _ => Set.mem_univ j).2 ⟨fun j _ => Set.mem_univ j, rfl⟩)

/-- **The program is `mbUnpack`** on blocks that are not empty. -/
theorem unpackBlock_result (d : Buffer) (n : ℕ) :
    (unpackBlock n d).result.toOption.map (fun mb => mb.block d) = Vac.unpackBlock d n := by
  by_cases h : Accepts d n
  · have hmagic : ¬(beVal (d.load 0 4) ≠ metaMagic ∧ beVal (d.load 0 4) ≠ metaMagic - 1) :=
      fun hno => h.magic.elim hno.1 hno.2
    rw [unpackBlock_ok h, Vac.unpackBlock]
    simp only
    rw [if_neg hmagic, if_neg (Nat.not_lt.2 h.size), MetaBlock.omin,
      if_neg (Nat.not_lt.2 h.omin), if_pos]
    · rfl
    · exact List.all_eq_true.2 fun i hi => h.entries i (List.mem_range.1 hi)
  · rw [unpackBlock_of_not h, Vac.unpackBlock]
    simp only
    split
    next => rfl
    next hmagic =>
      split
      next => rfl
      next hsize =>
        split
        next => rfl
        next homin =>
          split
          next htable =>
            refine absurd ⟨?_, Nat.not_lt.1 hsize, Nat.not_lt.1 homin, fun i hi => ?_⟩ h
            · by_contra hno
              exact hmagic (not_or.1 hno)
            · exact List.all_eq_true.1 htable i (List.mem_range.2 hi)
          next => rfl

/-! ### Using a block -/

/-- The table and the entries lie in the first `n` bytes. -/
structure Fits (mb : Header) (d : Buffer) (n : ℕ) : Prop where
  table : mb.nindex ≠ 0 → slot mb.nindex ≤ n
  entry : ∀ i < mb.nindex, 8 ≤ (entryAt d i).size ∧ (entryAt d i).p + (entryAt d i).size ≤ n

variable {me : MetaEntry}

theorem Fits.slot_le (h : Fits mb d n) (hi : i < mb.nindex) : slot i + 4 ≤ n := by
  refine le_trans ?_ (h.table (Nat.ne_zero_of_lt hi))
  rw [slot, slot, Nat.add_assoc]
  refine Nat.add_le_add_left ?_ _
  have := Nat.mul_le_mul_right metaIndexSize (Nat.succ_le_of_lt hi)
  rwa [Nat.succ_mul] at this

theorem stays_meUnpack {Q : Except Fault MetaEntry → Buffer → Prop} (hi : i < mb.nindex)
    (h8 : 8 ≤ (entryAt d i).size) (hin : ∀ j, slot i ≤ j → j < slot i + 4 → j ∈ S) :
    Stays S (meUnpack mb i) d Q ↔ Q (.ok (entryAt d i)) d := by
  simp only [entryAt, Buffer.get16] at h8
  simp only [meUnpack, stays_bind, stays_num]
  rw [stays_require_of hi]
  simp only
  rw [stays_require_of h8, stays_pure]
  refine ⟨fun h => h.2.2, fun h => ⟨fun j h1 h2 => hin j h1 ?_, fun j h1 h2 => hin j ?_ h2, h⟩⟩
  · omega
  · omega

/-- **The comparison** reads the name of the entry, as far as it has to. -/
theorem cmpLoop_spec (botch : Bool) (d : Buffer) (p n : ℕ) (l : List UInt8) :
    Stays {j | p ≤ j ∧ j < p + n} (cmpLoop botch p n l) d fun r m =>
      m = d ∧ r = .ok (if botch then cmpOld (d.load p n) l else cmpNew (d.load p n) l) := by
  induction n generalizing p l with
  | zero =>
    cases l with
    | nil => cases botch <;> exact stays_pure.2 ⟨rfl, rfl⟩
    | cons c cs => cases botch <;> exact stays_pure.2 ⟨rfl, rfl⟩
  | succ n ih =>
    have hload : d.load p (n + 1) = d p :: d.load (p + 1) n := by
      rw [Nat.add_comm n 1, Buffer.load_add]
      rfl
    have hval : beVal (d.load p 1) = (d p).toNat := by
      simp [Buffer.load, beVal]
    cases l with
    | nil =>
      rw [hload]
      cases botch <;> exact stays_pure.2 ⟨rfl, rfl⟩
    | cons c cs =>
      simp only [cmpLoop, stays_bind, stays_num, hval, hload, cmpOld, cmpNew]
      refine ⟨fun j h1 h2 => ⟨h1, by omega⟩, ?_⟩
      by_cases hlt : d p < c
      · rw [if_pos (UInt8.lt_iff_toNat_lt.1 hlt)]
        simp only [if_pos hlt, ite_self]
        exact stays_pure.2 ⟨rfl, rfl⟩
      · rw [if_neg (fun h => hlt (UInt8.lt_iff_toNat_lt.2 h))]
        by_cases hgt : c < d p
        · rw [if_pos (UInt8.lt_iff_toNat_lt.1 hgt)]
          simp only [if_neg hlt, if_pos hgt, ite_self]
          exact stays_pure.2 ⟨rfl, rfl⟩
        · rw [if_neg (fun h => hgt (UInt8.lt_iff_toNat_lt.2 h))]
          simp only [if_neg hlt, if_neg hgt]
          refine (ih (p + 1) cs).mono (fun j hj => ⟨?_, ?_⟩) fun r m h => h
          · exact le_trans (Nat.le_succ p) hj.1
          · have := hj.2
            omega

theorem meCmp_spec (h8 : 8 ≤ me.size) (elem : Str) :
    Stays {j | me.p ≤ j ∧ j < me.p + me.size} (meCmp mb me elem) d fun r m =>
      m = d ∧ r = .ok (Vac.meCmp (mb.block d) me elem) := by
  simp only [meCmp, stays_bind, stays_num]
  refine ⟨fun j h1 h2 => ⟨by omega, by omega⟩, ?_⟩
  refine (cmpLoop_spec mb.botch d (me.p + 8) _ elem.1).mono (fun j hj => ?_) fun r m h => h
  obtain ⟨h1, h2⟩ := hj
  exact ⟨by omega, by omega⟩

/-- **The search** stays in the buffer, fails no assertion, and is that of a block. -/
theorem searchLoop_spec (h : Fits mb d n) (elem : Str) (b t : ℕ) (hbt : b ≤ t)
    (ht : t ≤ mb.nindex) : ∀ fuel, t - b < fuel →
      Stays {j | j < n} (searchLoop mb elem b t) d fun r m => m = d ∧ ∃ x, r = .ok x ∧
        (searchBy (fun i => (Vac.meUnpack (mb.block d) i).map fun me =>
          Vac.meCmp (mb.block d) me elem) fuel b t).bind (searched (mb.block d)) = some x := by
  fun_induction searchLoop mb elem b t with
  | case1 b t hlt ih1 ih2 =>
    rintro (_ | fuel) hfuel
    · exact absurd hfuel (Nat.not_lt_zero _)
    have hmid : (b + t) / 2 < mb.nindex := by omega
    obtain ⟨h8, hend⟩ := h.entry _ hmid
    have hslot := h.slot_le hmid
    have hunpack : Vac.meUnpack (mb.block d) ((b + t) / 2) = some (entryAt d ((b + t) / 2)) :=
      if_pos ⟨hmid, h8⟩
    have hin : ∀ j, slot ((b + t) / 2) ≤ j → j < slot ((b + t) / 2) + 4 → j ∈ {j | j < n} :=
      fun j _ hj => lt_of_lt_of_le hj hslot
    rw [stays_bind, stays_meUnpack hmid h8 hin]
    simp only
    rw [stays_bind]
    refine ((meCmp_spec h8 elem).mono (fun j hj => lt_of_lt_of_le hj.2 hend) ?_)
    rintro r m ⟨rfl, rfl⟩
    simp only
    rw [searchBy, if_pos hlt, hunpack, Option.map_some, Option.bind_some]
    generalize Vac.meCmp (mb.block m) (entryAt m ((b + t) / 2)) elem = x
    by_cases hx : x = 0
    · rw [if_pos hx, if_pos hx]
      refine stays_pure.2 ⟨rfl, _, rfl, ?_⟩
      rw [Option.bind_some, searched, hunpack, Option.map_some]
    · rw [if_neg hx, if_neg hx]
      by_cases hneg : x < 0
      · rw [if_pos hneg, if_pos hneg]
        exact ih1 (by omega) ht fuel (by omega)
      · rw [if_neg hneg, if_neg hneg]
        exact ih2 (by omega) (by omega) fuel (by omega)
  | case2 b t hge =>
    rintro (_ | fuel) hfuel
    · exact absurd hfuel (Nat.not_lt_zero _)
    rw [stays_bind, stays_require_of (le_antisymm hbt (Nat.not_lt.1 hge)), searchBy, if_neg hge]
    exact stays_pure.2 ⟨rfl, _, rfl, rfl⟩

theorem mbSearch_spec (h : Fits mb d n) (elem : Str) :
    Stays {j | j < n} (mbSearch mb elem) d fun r m =>
      m = d ∧ ∃ x, r = .ok x ∧ Vac.mbSearch (mb.block d) elem = some x :=
  searchLoop_spec h elem 0 mb.nindex (Nat.zero_le _) le_rfl (mb.nindex + 1) (Nat.lt_succ_self _)

/-- **The deletion** stays in the buffer, fails no assertion, and is that of a block. -/
theorem mbDelete_spec (h : Fits mb d n) (hi : i < mb.nindex) :
    Stays {j | j < n} (mbDelete mb i) d fun r m =>
      ∃ mb', r = .ok mb' ∧ Vac.mbDelete (mb.block d) i = some (mb'.block m) := by
  obtain ⟨h8, hend⟩ := h.entry i hi
  have hslot := h.slot_le hi
  have htable := h.table (Nat.ne_zero_of_lt hi)
  have h4 : metaIndexSize = 4 := rfl
  have hn : slot i + 4 + (mb.nindex - i - 1) * metaIndexSize = slot mb.nindex := by
    have hsplit : mb.nindex = i + 1 + (mb.nindex - i - 1) := by omega
    conv_rhs => rw [hsplit, slot, Nat.add_mul, Nat.succ_mul]
    rw [slot, h4]
    omega
  rw [mbDelete, stays_bind, stays_require_of hi]
  simp only
  have hin : ∀ j, slot i ≤ j → j < slot i + 4 → j ∈ {j | j < n} :=
    fun j _ hj => lt_of_lt_of_le hj hslot
  rw [stays_bind, stays_meUnpack hi h8 hin]
  simp only [stays_bind, stays_clear, stays_move, stays_pure]
  refine ⟨fun j _ hj => lt_of_lt_of_le hj hend, fun j _ hj => ?_, fun j _ hj => ?_,
    fun j _ hj => ?_, _, rfl, ?_⟩
  · rw [Set.mem_ofPred_eq]
    omega
  · rw [Set.mem_ofPred_eq]
    omega
  · rw [Set.mem_ofPred_eq]
    omega
  · rw [Vac.mbDelete, Vac.meUnpack, if_pos ⟨hi, h8⟩]
    rfl

/-! ### Taking an entry apart -/

theorem careful_stringUnpack : Careful Fault.badMeta stringUnpack :=
  (Careful.number _ 2).bind fun nn => (Careful.bytes _ nn).bind fun s => Careful.give _ (cut s)

theorem careful_generations (version entry : ℕ) :
    Careful Fault.badMeta (generations version entry) :=
  Careful.ite (Careful.give _ _) ((Careful.bytes _ _).bind fun _ => Careful.give _ _)

/-- One optional section reads its own bytes only. -/
theorem option_spec (version t nn p : ℕ) (o : Options) (d : Buffer) :
    Stays {j | p ≤ j ∧ j < p + nn} (option version t nn p o) d fun r m =>
      m = d ∧ ∀ e, r = .error e → e = .badMeta := by
  have hpure : ∀ o : Options, Stays {j | p ≤ j ∧ j < p + nn} (pure o) d
      fun (r : Except Fault Options) m => m = d ∧ ∀ e, r = .error e → e = .badMeta :=
    fun o => stays_pure.2 ⟨rfl, fun e he => by cases he⟩
  rw [option]
  split <;> split
  any_goals exact hpure o
  all_goals
    simp only [stays_bind, stays_require, stays_num]
    refine ⟨fun hnn => ⟨fun j h1 h2 => ⟨h1, ?_⟩, fun j h1 h2 => ⟨?_, ?_⟩, hpure _⟩,
      fun _ => ⟨trivial, fun e he => (Except.error.inj he).symm⟩⟩
    · have := hnn.2
      omega
    · omega
    · have := hnn.2
      omega

/-- **The optional sections** are taken off the record one by one. -/
theorem careful_options (version : ℕ) (o : Options) :
    Careful Fault.badMeta (options version o) := by
  intro s d
  fun_induction options version o s with
  | case1 o s hpos ih =>
    simp only [stays_bind, stays_require, stays_num]
    refine ⟨fun h3 => ⟨fun j h1 h2 => ⟨h1, by omega⟩, fun j h1 h2 => ⟨by omega, by omega⟩,
      fun hnn => ?_, fun _ => ⟨trivial, trivial⟩⟩, fun _ => ⟨trivial, trivial⟩⟩
    have hsuffix : ((s.drop 3).drop (beVal (d.load (s.p + 1) 2))).Suffix s :=
      (Slice.suffix_drop hnn).trans (Slice.suffix_drop h3)
    refine (option_spec _ _ _ _ _ _).mono (fun j hj => ?_) ?_
    · obtain ⟨h1, h2⟩ := hj
      exact ⟨by omega, by omega⟩
    · rintro (e | o') m ⟨rfl, he⟩
      · exact ⟨rfl, he e rfl⟩
      · refine (ih _ o').mono (fun j hj => hsuffix.mem hj) ?_
        rintro (e | ⟨x, s'⟩) m' ⟨rfl, hr⟩
        · exact ⟨rfl, hr⟩
        · exact ⟨rfl, hr.trans hsuffix⟩
  | case2 o s hpos => exact stays_pure.2 ⟨rfl, Slice.Suffix.refl s⟩

theorem careful_replacement (version : ℕ) : Careful Fault.badMeta (replacement version) :=
  Careful.ite (Careful.skip _ _) (Careful.give _ _)

theorem careful_fields : Careful Fault.badMeta fields := by
  refine (Careful.number _ 4).bind fun magic => (Careful.demand _ (magic = dirMagic)).bind ?_
  refine fun _ => (Careful.number _ 2).bind fun version => ?_
  refine (Careful.demand _ (7 ≤ version ∧ version ≤ 9)).bind fun _ => ?_
  refine careful_stringUnpack.bind fun elem => (Careful.number _ 4).bind fun entry => ?_
  refine (careful_generations version entry).bind fun gens => ?_
  refine (Careful.number _ 8).bind fun qid => (careful_replacement version).bind fun _ => ?_
  refine careful_stringUnpack.bind fun uid => careful_stringUnpack.bind fun gid => ?_
  refine careful_stringUnpack.bind fun mid => (Careful.bytes _ _).bind fun b => ?_
  exact (careful_options version _).bind fun o => Careful.give _ _

/-- **Taking an entry apart** stays in the entry and fails no assertion. -/
theorem deUnpack_spec (me : MetaEntry) (d : Buffer) :
    Stays {j | me.p ≤ j ∧ j < me.p + me.size} (deUnpack me) d fun r m =>
      m = d ∧ ∀ e, r = .error e → e = .badMeta := by
  rw [deUnpack, stays_bind]
  refine (careful_fields ⟨me.p, me.size⟩ d).mono (fun j hj => hj) ?_
  rintro (e | ⟨dir, s⟩) m ⟨rfl, hr⟩
  · exact ⟨rfl, fun e' he => (Except.error.inj he).symm.trans hr⟩
  · simp only [stays_bind, stays_require]
    refine ⟨fun _ => stays_pure.2 ⟨rfl, fun e he => by cases he⟩, fun _ => ⟨trivial, ?_⟩⟩
    exact fun e he => (Except.error.inj he).symm

end Traced

/-! ### The promise of the check -/

variable {d : Buffer} {n : ℕ} {α : Type}

/-- Only bytes of the buffer are touched, and no assertion fails. -/
def Fine (n : ℕ) (x : Access Fault α) (d : Buffer) : Prop :=
  Stays {j | j < n} x d fun r _ => r ≠ .error .assertion

/-- **What the check promises**: if `mbUnpack` accepts the buffer then it has itself read only bytes
of the buffer, and so do all the functions on the block. -/
structure Validated (d : Buffer) (n : ℕ) : Prop where
  check : ∀ mb, (Traced.mbUnpack n d).result = .ok mb → Fine n (Traced.mbUnpack n) d
  search : ∀ mb, (Traced.mbUnpack n d).result = .ok mb → ∀ elem, Fine n (Traced.mbSearch mb elem) d
  entry : ∀ mb, (Traced.mbUnpack n d).result = .ok mb → ∀ i < mb.nindex,
    Fine n (Traced.meUnpack mb i) d
  fields : ∀ mb, (Traced.mbUnpack n d).result = .ok mb → ∀ i < mb.nindex,
    Fine n (Traced.meUnpack mb i >>= Traced.deUnpack) d
  delete : ∀ mb, (Traced.mbUnpack n d).result = .ok mb → ∀ i < mb.nindex,
    Fine n (Traced.mbDelete mb i) d

/-- **The table is longer than the buffer**, and everything that is checked is as it should be. -/
structure Overrun (d : Buffer) (n : ℕ) : Prop where
  accepts : Traced.Accepts d n
  long : n < slot (d.get16 10)

theorem Traced.Accepts.pos (h : Traced.Accepts d n) : n ≠ 0 := by
  have h12 : metaHeaderSize = 12 := rfl
  have := h.omin
  omega

/-- The numbers of a block that is accepted. -/
theorem Traced.fits (mb : Header) (h : (Traced.mbUnpack n d).result = .ok mb) (hno : ¬Overrun d n) :
    Traced.Fits mb d n ∧ (n ≠ 0 → Traced.Accepts d n ∧ mb = Traced.header d n) := by
  rw [Traced.mbUnpack] at h
  split at h
  next h0 =>
    obtain rfl := (Except.ok.inj h).symm
    subst h0
    exact ⟨⟨absurd rfl, fun i hi => absurd hi (Nat.not_lt_zero i)⟩, fun h => absurd rfl h⟩
  next h0 =>
    by_cases hacc : Traced.Accepts d n
    · rw [Traced.unpackBlock_ok hacc] at h
      obtain rfl := (Except.ok.inj h).symm
      refine ⟨⟨fun _ => Nat.not_lt.1 fun hlong => hno ⟨hacc, hlong⟩, fun i hi => ?_⟩,
        fun _ => ⟨hacc, rfl⟩⟩
      have hok := (Traced.entryOk_iff.1 (hacc.entries i hi)).1
      have hsize := hacc.size
      exact ⟨by omega, by omega⟩
    · rw [Traced.unpackBlock_of_not hacc] at h
      cases h

/-- A check that reads in the buffer only has not accepted a table that is longer. -/
theorem Validated.not_overrun (h : Validated d n) : ¬Overrun d n := by
  rintro ⟨hacc, hlong⟩
  have hrun : Traced.mbUnpack n = Traced.unpackBlock n := if_neg hacc.pos
  have hcheck := h.check (Traced.header d n) (by rw [hrun, Traced.unpackBlock_ok hacc])
  rw [hrun] at hcheck
  have hfar := ((Traced.stays_unpackBlock hacc fun j hj _ => hj).1 hcheck).1 n hlong
  exact absurd hfar (Nat.lt_irrefl n)

/-- **What the check is worth**: it keeps its promise unless the table is longer than the buffer,
because the number of entries is compared with nothing. -/
theorem validated_iff (d : Buffer) (n : ℕ) : Validated d n ↔ ¬Overrun d n := by
  constructor
  · exact Validated.not_overrun
  · intro hno
    have hfits := fun mb h => Traced.fits (d := d) (n := n) mb h hno
    refine ⟨fun mb h => ?_, fun mb h elem => ?_, fun mb h i hi => ?_, fun mb h i hi => ?_,
      fun mb h i hi => ?_⟩
    · rw [Traced.mbUnpack]
      split
      next => exact stays_pure.2 fun he => by cases he
      next h0 =>
        obtain ⟨hacc, -⟩ := (hfits mb h).2 h0
        refine (Traced.stays_unpackBlock hacc fun j hj _ => hj).2 ⟨fun j hj => ?_, ?_⟩
        · exact lt_of_lt_of_le hj (Nat.not_lt.1 fun hlong => hno ⟨hacc, hlong⟩)
        · exact fun he => by cases he
    · refine (Traced.mbSearch_spec (hfits mb h).1 elem).imp ?_
      rintro r m ⟨-, x, rfl, -⟩ he
      cases he
    · have hfit := (hfits mb h).1
      refine (Traced.stays_meUnpack hi (hfit.entry i hi).1 fun j _ hj => ?_).2 fun he => by cases he
      exact lt_of_lt_of_le hj (hfit.slot_le hi)
    · have hfit := (hfits mb h).1
      obtain ⟨h8, hend⟩ := hfit.entry i hi
      refine stays_bind.2 ((Traced.stays_meUnpack hi h8 fun j _ hj => ?_).2 ?_)
      · exact lt_of_lt_of_le hj (hfit.slot_le hi)
      · refine (Traced.deUnpack_spec (entryAt d i) d).mono (fun j hj => ?_) ?_
        · exact lt_of_lt_of_le hj.2 hend
        · rintro r m ⟨-, hr⟩ rfl
          cases hr _ rfl
    · refine (Traced.mbDelete_spec (hfits mb h).1 hi).imp ?_
      rintro r m ⟨mb', rfl, -⟩ he
      cases he

/-! ### Which buffers have a table that is too long -/

theorem get16_eq (d : Buffer) (p : ℕ) : d.get16 p = 256 * (d p).toNat + (d (p + 1)).toNat := by
  simp [Buffer.get16, Buffer.load, List.range_succ, beVal, Nat.mul_comm]

/-- A table that reads `DirMagic`, twice. -/
def longTable : Buffer :=
  ((Buffer.store (fun j => if j % 4 = 1 then 14 else if j % 4 = 3 then 8 else 0) 0
    [0x56, 0x56, 0xfc, 0x7a, 0x90, 0x7a, 0, 0, 0, 0, 0x24, 0x1c]).store 14
    [0x1c, 0x4d, 0x90, 0x72]).store 36978 [0x1c, 0x4d, 0x90, 0x72]

/-- Beside `DirMagic` it has one entry, again and again. -/
theorem longTable_apply {j : ℕ} (h12 : 12 ≤ j) (hlo : j < 14 ∨ 18 ≤ j)
    (hhi : j < 36978 ∨ 36982 ≤ j) :
    longTable j = if j % 4 = 1 then 14 else if j % 4 = 3 then 8 else 0 := by
  have hcut : ∀ {i : ℕ} {l : List UInt8} {d : Buffer}, l.length = 4 → j < i ∨ i + 4 ≤ j →
      d.store i l j = d j := fun {i l d} hl h => by
    rcases h with h | h
    · exact Buffer.store_of_lt h
    · exact Buffer.store_of_ge (by rwa [hl])
  rw [longTable, hcut rfl hhi, hcut rfl hlo]
  exact Buffer.store_of_ge h12

/-- The entries of its table. -/
theorem longTable_entry {i : ℕ} (hi : i < 9244) :
    entryAt longTable i = ⟨14, 8⟩ ∨ entryAt longTable i = ⟨14, 7245⟩ ∨
      entryAt longTable i = ⟨36978, 8⟩ := by
  have hslot : slot i = 12 + i * 4 := rfl
  by_cases hmagic : i = 0 ∨ i = 1 ∨ i = 9241 ∨ i = 9242
  · rcases hmagic with rfl | rfl | rfl | rfl
    · exact Or.inr (Or.inl rfl)
    · exact Or.inr (Or.inr rfl)
    · exact Or.inr (Or.inl rfl)
    · exact Or.inr (Or.inr rfl)
  · refine Or.inl ?_
    have hbyte : ∀ k < 4,
        longTable (slot i + k) = if k = 1 then 14 else if k = 3 then 8 else 0 := by
      intro k hk
      rw [longTable_apply (by omega) (by omega) (by omega)]
      have hmod : (slot i + k) % 4 = k := by omega
      rw [hmod]
    rw [entryAt, get16_eq, get16_eq, Nat.add_assoc, hbyte 2 (by decide), hbyte 3 (by decide),
      hbyte 1 (by decide)]
    have h0 := hbyte 0 (by decide)
    rw [Nat.add_zero] at h0
    rw [h0]
    rfl

/-- A buffer behind whose end `mbUnpack` reads. -/
theorem longTable_not_validated : ¬Validated longTable 36986 := by
  refine fun h => h.not_overrun ⟨⟨Or.inl rfl, ?_, ?_, ?_⟩, ?_⟩
  · decide
  · decide
  · intro i hi
    have hsize : longTable.get16 4 = 36986 := rfl
    have homin : metaHeaderSize + longTable.get16 8 * metaIndexSize = 12 := rfl
    rw [hsize, homin]
    rcases longTable_entry hi with h | h | h <;> rw [h] <;>
      exact Traced.entryOk_iff.2 ⟨by simp only; omega, rfl⟩
  · decide

end Vac

end Fossil

end Plan9
