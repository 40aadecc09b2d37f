import Mathlib.Algebra.BigOperators.Group.Finset.Basic
import Mathlib.Algebra.Order.BigOperators.Group.Finset
import Plan9.Lib.Linked
import Plan9.Libc.Qsort
import Plan9.Venti.IndexBucket
import Plan9.Venti.Placement

/-!
# Sorting the index entries

`sortientry.c` sorts more entries than memory holds. Each one goes, by the leading bits of its
score, into one of a number of buckets; a bucket is a chunk in memory and a chain of chunks on the
partition, each of which has the number of the one before it behind its entries. Then one bucket
after the other is read back, sorted in memory, and written out behind the chunks.

* `Plan9.Venti.SortEntry.spray_spec` – what the chains hold when the entries have been sprayed;
* `Plan9.Venti.SortEntry.sortBuckets_spec` – the buckets are read, sorted and written one after the
  other, as long as no chain is overwritten before it is read;
* `Plan9.Venti.SortEntry.sortIEBucks_spec` – **the result is the entries, in order**;
* `Plan9.Venti.SortEntry.chunk_numbers_end` – with as many chunks as there are numbers for them, it
  is not.
-/

namespace Plan9

namespace Venti

open Lib LibVenti List Function

namespace SortEntry

open Icache

/-! ### Buckets -/

/-- `TWID32`. -/
def twid32 : UInt32 := 0xffffffff

/-- `struct IEBuck`. -/
structure IEBuck where
  /-- The last chunk of the chain. -/
  head : UInt32
  used : ℕ
  total : ℕ
  buf : Buffer

/-- `struct IEBucks`. -/
structure IEBucks where
  part : Buffer
  off : ℕ
  chunks : UInt32
  max : ℕ
  bits : ℕ
  size : ℕ
  usable : ℕ
  bucks : ℕ → IEBuck

/-- `initiebucks`. -/
def initIEBucks (part : Buffer) (bits size : ℕ) : IEBucks where
  part := part
  off := 0
  chunks := 0
  max := 0
  bits := bits
  size := size
  usable := (size - 4) / iEntrySize * iEntrySize
  bucks _ := ⟨twid32, 0, 0, fun _ => 0⟩

variable (ib : IEBucks)

/-- `nbucks`. -/
def IEBucks.nbucks : ℕ := 2 ^ ib.bits

/-- `flushiebuck`: the chunk in memory, with the number of the one before it, goes to the
partition. -/
def flushIEBuck (b : ℕ) (reset : Bool) : IEBucks :=
  let bk := ib.bucks b
  if bk.used = 0 then ib
  else
    let buf := bk.buf.store bk.used (put32 bk.head)
    { ib with
      part := ib.part.store (ib.chunks.toNat * ib.size) (buf.load 0 ib.size)
      chunks := ib.chunks + 1
      bucks := Function.update ib.bucks b
        ⟨ib.chunks, if reset then 0 else bk.used, bk.total + bk.used, buf⟩ }

/-- `sprayientry`, and whether it succeeds. -/
def sprayIEntry (ie : IEntry) : IEBucks × Bool :=
  let b := (hashBits ie.score ib.bits).toNat
  let bk := ib.bucks b
  let n := bk.used
  if (n + iEntrySize) % 2 ^ 32 > ib.usable then (ib, false)
  else
    let n' := (n + iEntrySize) % 2 ^ 32
    let ib' := { ib with
      bucks := Function.update ib.bucks b
        { bk with buf := bk.buf.store n (packIEntry ie), used := n' } }
    if (n' + iEntrySize) % 2 ^ 32 ≤ ib.usable then (ib', true) else (flushIEBuck ib' b true, true)

/-- The entries are sprayed one after the other. -/
def spray (es : List IEntry) : IEBucks := es.foldl (fun ib ie => (sprayIEntry ib ie).1) ib

/-- The loop of `flushiebucks`. -/
def flushLoop (ib : IEBucks) (i : ℕ) : IEBucks :=
  let ib := flushIEBuck ib i false
  { ib with max := Max.max ib.max (ib.bucks i).total }

/-- `flushiebucks`. -/
def flushIEBucks : IEBucks := (List.range ib.nbucks).foldl flushLoop ib

/-! ### Reading and sorting a bucket -/

/-- The loop of `readiebuck`, if it takes no more than so many rounds: the bytes it has read, and
how many. -/
def readLoop (part : Buffer) (size usable : ℕ) : ℕ → UInt32 → ℕ → ℕ → Buffer → Option (Buffer × ℕ)
  | k, head, m, n, buf =>
    if head = twid32 then some (buf, n)
    else
      match k with
      | 0 => none
      | k + 1 =>
        let buf := buf.store n (part.load (head.toNat * size) (m + 4))
        let n := (n + m) % 2 ^ 32
        readLoop part size usable k (UInt32.ofNat (beVal (buf.load n 4))) usable n buf

/-- `readiebuck`: the bytes, and the number of entries. There are not as many chunks as rounds. -/
def readIEBuck (b : ℕ) : Option (Buffer × ℕ) :=
  let bk := ib.bucks b
  let m := if bk.used = 0 then ib.usable else bk.used
  (readLoop ib.part ib.size ib.usable (2 ^ 32) bk.head m 0 fun _ => 0).map fun r =>
    (r.1, r.2 / iEntrySize)

/-- `qsort` of the first `n` entries of a buffer. -/
def sortEntries (buf : Buffer) (n : ℕ) : Buffer :=
  buf.store 0 ((List.range n).flatMap
    (Libc.qsort ientryCmp (fun i => buf.load (i * iEntrySize) iEntrySize) n))

/-- `sortiebuck`, and the number of entries. -/
def sortIEBuck (b : ℕ) : Option (IEBucks × ℕ) :=
  (readIEBuck ib b).map fun r =>
    let buf := sortEntries r.1 r.2
    let bytes := r.2 * iEntrySize % 2 ^ 32
    ({ ib with part := ib.part.store ib.off (buf.load 0 bytes), off := ib.off + bytes }, r.2)

/-- The loop of `sortiebucks`, from the bucket `i` on. -/
def sortBuckets : ℕ → ℕ → IEBucks → ℕ → Option (IEBucks × ℕ)
  | 0, _, ib, tot => some (ib, tot)
  | k + 1, i, ib, tot =>
    (sortIEBuck ib i).bind fun r => sortBuckets k (i + 1) r.1 (tot + r.2)

/-- `sortiebucks`, and the number of entries. -/
def sortIEBucks : Option (IEBucks × ℕ) :=
  let ib := flushIEBucks ib
  sortBuckets ib.nbucks 0 { ib with off := ib.chunks.toNat * ib.size } 0

/-! ### Entries as bytes -/

variable {ib ib' : IEBucks} {part part' : Buffer} {bits size usable b i k m n hi hi' : ℕ}
  {es rest c : List IEntry} {cs : List (List IEntry)} {e : IEntry} {head : UInt32} {buf : Buffer}

/-- Packed entries, one behind the other. -/
def packed (es : List IEntry) : List UInt8 := es.flatMap packIEntry

theorem length_packed (es : List IEntry) : (packed es).length = es.length * iEntrySize := by
  rw [packed, length_flatMap, map_congr_left fun e _ => length_packIEntry e,
    map_const', sum_replicate, smul_eq_mul]

@[simp] theorem packed_nil : packed [] = [] := rfl

theorem packed_append (es es' : List IEntry) : packed (es ++ es') = packed es ++ packed es' :=
  flatMap_append

/-- The entry at a place of packed entries. -/
theorem load_packed (h : buf.load 0 (es.length * iEntrySize) = packed es) (hi : i < es.length) :
    buf.load (i * iEntrySize) iEntrySize = packIEntry es[i] := by
  have hsplit : es = es.take i ++ es[i] :: es.drop (i + 1) := by simp
  have hlen : es.length * iEntrySize = i * iEntrySize +
      (iEntrySize + (es.length - (i + 1)) * iEntrySize) := by
    rw [← Nat.add_assoc, ← Nat.succ_mul, ← Nat.add_mul]
    congr 1
    omega
  have htake : (packed (es.take i)).length = i * iEntrySize := by
    rw [length_packed, length_take, Nat.min_eq_left hi.le]
  have hpacked : packed es =
      packed (es.take i) ++ (packIEntry es[i] ++ packed (es.drop (i + 1))) := by
    conv_lhs => rw [hsplit]
    rw [packed_append]
    rfl
  rw [hlen, Buffer.load_add, Buffer.load_add, Nat.zero_add, hpacked] at h
  have hfront := append_inj h (by rw [Buffer.length_load, htake])
  exact (append_inj hfront.2 (by rw [Buffer.length_load, length_packIEntry])).1

/-! ### Chains -/

/-- **The chain** of a bucket: its chunks from the last one on, whose numbers are below a bound. A
chunk has its entries and behind them the number of the one before it. -/
def Chain (part : Buffer) (size hi : ℕ) : UInt32 → List (List IEntry) → Prop
  | head, [] => head = twid32
  | head, c :: cs =>
    head ≠ twid32 ∧ head.toNat < hi ∧ c.length * iEntrySize + 4 ≤ size ∧
      part.load (head.toNat * size) (c.length * iEntrySize) = packed c ∧
      ∃ prev, part.load (head.toNat * size + c.length * iEntrySize) 4 = put32 prev ∧
        Chain part size hi prev cs

/-- What is written behind the chunks does not matter. -/
theorem Chain.congr (h : Chain part size hi head cs) (hhi : hi ≤ hi')
    (heq : ∀ j < hi * size, part' j = part j) : Chain part' size hi' head cs := by
  induction cs generalizing head with
  | nil => exact h
  | cons c cs ih =>
    obtain ⟨hne, hlt, hfit, hdata, prev, hprev, htail⟩ := h
    have hend : head.toNat * size + size ≤ hi * size := by
      rw [← Nat.succ_mul]
      exact Nat.mul_le_mul_right size hlt
    refine ⟨hne, hlt.trans_le hhi, hfit, ?_, prev, ?_, ih htail⟩
    · rw [← hdata]
      exact Buffer.load_congr fun k hk => heq _ (by omega)
    · rw [← hprev]
      exact Buffer.load_congr fun k hk => heq _ (by omega)

/-- `U32GET` of `U32PUT`. -/
theorem get_put32 (v : UInt32) : UInt32.ofNat (beVal (put32 v)) = v := by
  rw [put32, beVal_beBytes (by exact v.toNat_lt), UInt32.ofNat_toNat]

theorem readLoop_end (k m n : ℕ) (buf : Buffer) :
    readLoop part size usable k twid32 m n buf = some (buf, n) := by
  cases k <;> simp [readLoop]

/-- **Reading a chain**: the chunks come one behind the other. -/
theorem readLoop_spec (hchain : Chain part size hi head cs)
    (hlast : ∀ c ∈ cs.head?, c.length * iEntrySize = m)
    (hfull : ∀ c ∈ cs.tail, c.length * iEntrySize = usable)
    (hk : cs.length ≤ k) (hbuf : buf.load 0 (es.length * iEntrySize) = packed es)
    (hlt : (es ++ cs.flatten).length * iEntrySize < 2 ^ 32) :
    ∃ buf', readLoop part size usable k head m (es.length * iEntrySize) buf =
        some (buf', (es ++ cs.flatten).length * iEntrySize) ∧
      buf'.load 0 ((es ++ cs.flatten).length * iEntrySize) = packed (es ++ cs.flatten) := by
  induction cs generalizing k head m buf es with
  | nil =>
    obtain rfl : head = twid32 := hchain
    refine ⟨buf, ?_, ?_⟩
    · rw [readLoop_end, flatten_nil, append_nil]
    · rw [flatten_nil, append_nil]
      exact hbuf
  | cons c cs ih =>
    obtain ⟨hne, -, -, hdata, prev, hprev, htail⟩ := hchain
    obtain ⟨k, rfl⟩ : ∃ j, k = j + 1 := Nat.exists_eq_add_of_lt (Nat.lt_of_lt_of_le
      (Nat.succ_pos _) hk) |>.imp fun j hj => by omega
    obtain rfl : c.length * iEntrySize = m := hlast c rfl
    have hchunk : part.load (head.toNat * size) (c.length * iEntrySize + 4) =
        packed c ++ put32 prev := by rw [Buffer.load_add, hdata, hprev]
    have hnext : es.length * iEntrySize + c.length * iEntrySize =
        (es ++ c).length * iEntrySize := by rw [length_append, Nat.add_mul]
    have hassoc : es ++ (c :: cs).flatten = (es ++ c) ++ cs.flatten := by
      rw [flatten_cons, append_assoc]
    rw [hassoc] at hlt ⊢
    have hsmall : (es ++ c).length * iEntrySize < 2 ^ 32 := by
      refine lt_of_le_of_lt (Nat.mul_le_mul_right _ ?_) hlt
      exact (sublist_append_left (es ++ c) cs.flatten).length_le
    rw [readLoop, if_neg hne]
    simp only [hchunk, hnext, Nat.mod_eq_of_lt hsmall]
    generalize hb : buf.store (es.length * iEntrySize) (packed c ++ put32 prev) = buf₁
    have hstored : buf₁.load (es.length * iEntrySize) (c.length * iEntrySize + 4) =
        packed c ++ put32 prev := by
      have hlen : (packed c ++ put32 prev).length = c.length * iEntrySize + 4 := by
        rw [length_append, length_packed, put32, length_beBytes]
      rw [← hb, ← hlen, Buffer.load_store]
    rw [Buffer.load_add, hnext] at hstored
    obtain ⟨hc, hput⟩ := append_inj hstored (by rw [Buffer.length_load, length_packed])
    rw [hput, get_put32]
    refine ih htail (fun c hc => hfull c (List.mem_of_mem_head? hc))
      (fun c hc => hfull c (mem_of_mem_tail hc)) (by simpa using hk) ?_ hlt
    rw [← hnext, Buffer.load_add, Nat.zero_add, hc, packed_append, ← hbuf, ← hb,
      Buffer.load_store_of_disjoint (Or.inl (by omega))]

/-! ### Sorting a bucket -/

/-- A rearrangement of packed entries packs the entries in another order. -/
theorem exists_of_perm_map {l : List (List UInt8)} (h : l.Perm (es.map packIEntry)) :
    ∃ es' : List IEntry, es'.Perm es ∧ l = es'.map packIEntry := by
  have hpack : Forall₂ (fun l e => l = packIEntry e) (es.map packIEntry) es := by
    rw [forall₂_map_left_iff]
    exact forall₂_same.2 fun _ _ => rfl
  obtain ⟨es', hes', hperm⟩ := perm_comp_forall₂ h hpack
  refine ⟨es', hperm, ?_⟩
  clear h hpack hperm
  induction hes' with
  | nil => rfl
  | cons heq _ ih => rw [map_cons, heq, ih]

/-- Entries in order. -/
def InOrder (es : List IEntry) : Prop := es.Pairwise fun e e' => e.key ≤ e'.key

/-- **The entries in memory** are sorted. -/
theorem sortEntries_spec (hbuf : buf.load 0 (es.length * iEntrySize) = packed es) :
    ∃ es' : List IEntry, es'.Perm es ∧ InOrder es' ∧
      (sortEntries buf es.length).load 0 (es.length * iEntrySize) = packed es' := by
  have hcmp : Libc.Compares ientryCmp entryKey
      (fun i => buf.load (i * iEntrySize) iEntrySize) := fun i j =>
    ientryCmp_eq (Buffer.length_load _ _ _) (Buffer.length_load _ _ _)
  have hmap : (List.range es.length).map (fun i => buf.load (i * iEntrySize) iEntrySize) =
      es.map packIEntry := by
    refine ext_getElem (by simp) fun i hi hi' => ?_
    rw [length_map] at hi'
    simp only [getElem_map, getElem_range]
    exact load_packed hbuf hi'
  obtain ⟨hperm, hsorted⟩ := Libc.qsort_spec hcmp es.length
  rw [hmap] at hperm
  obtain ⟨es', hes', hout⟩ := exists_of_perm_map hperm
  rw [hout, pairwise_map] at hsorted
  have hbytes : (List.range es.length).flatMap (Libc.qsort ientryCmp
      (fun i => buf.load (i * iEntrySize) iEntrySize) es.length) = packed es' := by
    rw [flatMap, hout, packed, flatMap]
  refine ⟨es', hes', hsorted.imp fun h => ?_, ?_⟩
  · rwa [entryKey_packIEntry, entryKey_packIEntry] at h
  · rw [sortEntries, hbytes, ← hes'.length_eq, ← length_packed, Buffer.load_store]

/-- What the chain of a bucket has when all is flushed: all chunks but the last are full, and the
last one has as many bytes as are left in memory. -/
structure Flushed (ib : IEBucks) (hi b : ℕ) (cs : List (List IEntry)) : Prop where
  chain : Chain ib.part ib.size hi (ib.bucks b).head cs
  last : ∀ c ∈ cs.head?,
    c.length * iEntrySize = if (ib.bucks b).used = 0 then ib.usable else (ib.bucks b).used
  full : ∀ c ∈ cs.tail, c.length * iEntrySize = ib.usable
  small : cs.flatten.length * iEntrySize < 2 ^ 32
  chunks : cs.length ≤ 2 ^ 32

/-- **A bucket** is read. -/
theorem Flushed.readIEBuck (h : Flushed ib hi b cs) :
    ∃ buf, SortEntry.readIEBuck ib b = some (buf, cs.flatten.length) ∧
      buf.load 0 (cs.flatten.length * iEntrySize) = packed cs.flatten := by
  have hnone : Buffer.load (fun _ => 0) 0 (([] : List IEntry).length * iEntrySize) = packed [] := by
    rw [length_nil, Nat.zero_mul]
    rfl
  obtain ⟨buf, hread, hbuf⟩ := readLoop_spec h.chain h.last h.full h.chunks hnone
    (by rw [nil_append]; exact h.small)
  rw [nil_append] at hread hbuf
  rw [length_nil, Nat.zero_mul] at hread
  refine ⟨buf, ?_, hbuf⟩
  rw [SortEntry.readIEBuck]
  simp only [hread, Option.map_some]
  rw [Nat.mul_div_cancel _ (by decide)]

/-- Entries are written where the last ones end. -/
def IEBucks.write (ib : IEBucks) (out : List IEntry) : IEBucks :=
  { ib with part := ib.part.store ib.off (packed out), off := ib.off + out.length * iEntrySize }

theorem IEBucks.write_nil (ib : IEBucks) : ib.write [] = ib := by
  have hpart : ib.part.store ib.off [] = ib.part := Buffer.store_load ib.part ib.off 0
  rw [IEBucks.write, packed_nil, hpart, length_nil, Nat.zero_mul, Nat.add_zero]

/-- **A bucket** is sorted and written. -/
theorem Flushed.sortIEBuck (h : Flushed ib hi b cs) : ∃ out, out.Perm cs.flatten ∧ InOrder out ∧
      SortEntry.sortIEBuck ib b = some (ib.write out, out.length) := by
  obtain ⟨buf, hread, hbuf⟩ := h.readIEBuck
  obtain ⟨out, hperm, hsorted, hout⟩ := sortEntries_spec hbuf
  refine ⟨out, hperm, hsorted, ?_⟩
  rw [SortEntry.sortIEBuck, hread]
  simp only [Option.map_some, Nat.mod_eq_of_lt h.small, hout, IEBucks.write, hperm.length_eq]

/-- A bucket whose chunks lie below the place of the write is as it was. -/
theorem Flushed.write (h : Flushed ib hi b cs) (hoff : hi * ib.size ≤ ib.off) (out : List IEntry) :
    Flushed (ib.write out) hi b cs :=
  ⟨h.chain.congr le_rfl fun _ hj => Buffer.store_of_lt (hj.trans_le hoff), h.last, h.full, h.small,
    h.chunks⟩

/-- The entries of some buckets. -/
def entriesFrom (cs : ℕ → List (List IEntry)) : ℕ → ℕ → List IEntry
  | 0, _ => []
  | k + 1, i => (cs i).flatten ++ entriesFrom cs k (i + 1)

theorem mem_entriesFrom {cs : ℕ → List (List IEntry)} :
    e ∈ entriesFrom cs k i ↔ ∃ b, i ≤ b ∧ b < i + k ∧ e ∈ (cs b).flatten := by
  induction k generalizing i with
  | zero =>
    constructor
    · exact fun h => absurd h not_mem_nil
    · rintro ⟨b, hb, hb', -⟩
      omega
  | succ k ih =>
    rw [entriesFrom, mem_append, ih]
    constructor
    · rintro (h | ⟨b, hb, hb', h⟩)
      · exact ⟨i, le_rfl, by omega, h⟩
      · exact ⟨b, by omega, by omega, h⟩
    · rintro ⟨b, hb, hb', h⟩
      rcases hb.eq_or_lt with rfl | hlt
      · exact Or.inl h
      · exact Or.inr ⟨b, hlt, by omega, h⟩

/-- **One bucket after the other** is read, sorted and written, and what is written is in order if
the buckets are. -/
theorem sortBuckets_spec {cs : ℕ → List (List IEntry)} {tot : ℕ}
    (h : ∀ b, i ≤ b → b < i + k → Flushed ib hi b (cs b)) (hoff : hi * ib.size ≤ ib.off)
    (horder : ∀ b b', i ≤ b → b < b' → b' < i + k → ∀ e ∈ (cs b).flatten, ∀ e' ∈ (cs b').flatten,
      e.key ≤ e'.key) :
    ∃ ib' out, out.Perm (entriesFrom cs k i) ∧ InOrder out ∧
      sortBuckets k i ib tot = some (ib', tot + out.length) ∧ ib'.chunks = ib.chunks ∧
      ib'.size = ib.size ∧ (∀ j < ib.off, ib'.part j = ib.part j) ∧
      ib'.part.load ib.off (out.length * iEntrySize) = packed out := by
  induction k generalizing i ib tot with
  | zero =>
    refine ⟨ib, [], .nil, List.Pairwise.nil, rfl, rfl, rfl, fun _ _ => rfl, ?_⟩
    rw [length_nil, Nat.zero_mul]
    rfl
  | succ k ih =>
    obtain ⟨out, hperm, hsorted, hrun⟩ := (h i le_rfl (by omega)).sortIEBuck
    obtain ⟨ib', out', hperm', hsorted', hrun', hchunks, hsize, hbelow, hdata⟩ :=
      @ih (ib.write out) (i + 1) (tot + out.length)
        (fun b hb hb' => (h b (by omega) (by omega)).write hoff out)
        (hoff.trans (Nat.le_add_right _ _))
        fun b b' hb hbb' hb' => horder b b' (by omega) hbb' (by omega)
    have hmem : ∀ e ∈ out', ∃ b, i < b ∧ b < i + (k + 1) ∧ e ∈ (cs b).flatten := by
      intro e he
      obtain ⟨b, hb, hb', heb⟩ := mem_entriesFrom.1 (hperm'.mem_iff.1 he)
      exact ⟨b, by omega, by omega, heb⟩
    refine ⟨ib', out ++ out', hperm.append hperm', pairwise_append.2 ⟨hsorted, hsorted',
      fun e he e' he' => ?_⟩, ?_, hchunks, hsize, fun j hj => ?_, ?_⟩
    · obtain ⟨b, hb, hb', heb⟩ := hmem e' he'
      exact horder i b le_rfl hb hb' e (hperm.mem_iff.1 he) e' heb
    · rw [sortBuckets, hrun, Option.bind_some, hrun', length_append, Nat.add_assoc]
    · rw [hbelow j (hj.trans_le (Nat.le_add_right _ _))]
      exact Buffer.store_of_lt hj
    · have hout : ib'.part.load ib.off (out.length * iEntrySize) = packed out := by
        rw [← length_packed, ← Buffer.load_store ib.part ib.off (packed out), Buffer.length_load]
        refine Buffer.load_congr fun j hj => hbelow _ ?_
        rw [length_packed] at hj
        exact Nat.add_lt_add_left hj _
      rw [length_append, Nat.add_mul, Buffer.load_add, packed_append, hout]
      exact congrArg _ hdata

/-! ### Flushing a chunk -/

/-- A part of what was copied from one buffer to another. -/
theorem load_copy (h : k + m ≤ n) :
    (part.store i (buf.load 0 n)).load (i + k) m = buf.load k m := by
  refine ext_getElem (by simp) fun j hj hj' => ?_
  rw [Buffer.length_load] at hj
  have hlt : k + j < (buf.load 0 n).length := by
    rw [Buffer.length_load]
    omega
  rw [Buffer.getElem_load, Buffer.getElem_load, Nat.add_assoc, Buffer.store_add hlt,
    Buffer.getElem_load, Nat.zero_add]

/-- What the chain and the memory of a bucket hold: full chunks, and the rest. -/
structure Holding (ib : IEBucks) (b : ℕ) (cs : List (List IEntry)) (rest : List IEntry) : Prop where
  chain : Chain ib.part ib.size ib.chunks.toNat (ib.bucks b).head cs
  full : ∀ c ∈ cs, c.length * iEntrySize = ib.usable
  used : (ib.bucks b).used = rest.length * iEntrySize
  data : (ib.bucks b).buf.load 0 (rest.length * iEntrySize) = packed rest

theorem flushIEBuck_of_nil (h : Holding ib b cs []) (reset : Bool) :
    flushIEBuck ib b reset = ib := by
  have hused : (ib.bucks b).used = 0 := by rw [h.used, length_nil, Nat.zero_mul]
  simp only [flushIEBuck, if_pos hused]

theorem flushIEBuck_const (ib : IEBucks) (b : ℕ) (reset : Bool) :
    (flushIEBuck ib b reset).size = ib.size ∧ (flushIEBuck ib b reset).usable = ib.usable ∧
      (flushIEBuck ib b reset).bits = ib.bits ∧ (flushIEBuck ib b reset).off = ib.off := by
  rw [flushIEBuck]
  split
  · exact ⟨rfl, rfl, rfl, rfl⟩
  · exact ⟨rfl, rfl, rfl, rfl⟩

theorem flushIEBuck_of_ne (h : Holding ib b cs rest) (hrest : rest ≠ []) (reset : Bool) :
    flushIEBuck ib b reset = { ib with
        part := ib.part.store (ib.chunks.toNat * ib.size)
          (((ib.bucks b).buf.store (ib.bucks b).used (put32 (ib.bucks b).head)).load 0 ib.size)
        chunks := ib.chunks + 1
        bucks := update ib.bucks b
          ⟨ib.chunks, if reset then 0 else (ib.bucks b).used,
            (ib.bucks b).total + (ib.bucks b).used,
            (ib.bucks b).buf.store (ib.bucks b).used (put32 (ib.bucks b).head)⟩ } := by
  have hused : (ib.bucks b).used ≠ 0 := by
    rw [h.used]
    exact (Nat.mul_pos (length_pos_iff.2 hrest) (by decide)).ne'
  simp only [flushIEBuck, if_neg hused]

theorem toNat_succ {c : UInt32} (h : c.toNat + 1 < 2 ^ 32) : (c + 1).toNat = c.toNat + 1 := by
  rw [UInt32.toNat_add]
  exact Nat.mod_eq_of_lt h

/-- **The chunk in memory** becomes the last one of the chain. -/
theorem Holding.flush (h : Holding ib b cs rest) (hrest : rest ≠ [])
    (hfit : rest.length * iEntrySize + 4 ≤ ib.size) (hk : ib.chunks.toNat + 1 < 2 ^ 32)
    (reset : Bool) :
    (flushIEBuck ib b reset).chunks.toNat = ib.chunks.toNat + 1 ∧
      Chain (flushIEBuck ib b reset).part ib.size (ib.chunks.toNat + 1)
        ((flushIEBuck ib b reset).bucks b).head (rest :: cs) ∧
      ((flushIEBuck ib b reset).bucks b).used = if reset then 0 else rest.length * iEntrySize := by
  rw [flushIEBuck_of_ne h hrest]
  simp only [update_self, h.used]
  refine ⟨toNat_succ hk, ⟨?_, Nat.lt_succ_self _, hfit, ?_, (ib.bucks b).head, ?_, ?_⟩, trivial⟩
  · intro hcon
    rw [hcon] at hk
    exact absurd hk (by decide)
  · have hcopy := @load_copy ib.part (ib.chunks.toNat * ib.size) 0 (rest.length * iEntrySize)
      ib.size ((ib.bucks b).buf.store (rest.length * iEntrySize) (put32 (ib.bucks b).head))
      (by omega)
    rw [Nat.add_zero] at hcopy
    rw [hcopy, Buffer.load_store_of_disjoint (Or.inl (by omega)), h.data]
  · have hlen : (put32 (ib.bucks b).head).length = 4 := length_beBytes 4 _
    rw [load_copy hfit, ← hlen, Buffer.load_store]
  · exact h.chain.congr (Nat.le_succ _) fun j hj => Buffer.store_of_lt hj

theorem flushIEBuck_part (h : Holding ib b cs rest) (reset : Bool) {j : ℕ}
    (hj : j < ib.chunks.toNat * ib.size) : (flushIEBuck ib b reset).part j = ib.part j := by
  rcases eq_or_ne rest [] with rfl | hrest
  · rw [flushIEBuck_of_nil h]
  · rw [flushIEBuck_of_ne h hrest]
    exact Buffer.store_of_lt hj

theorem flushIEBuck_other (ib : IEBucks) {b b' : ℕ} (hb : b' ≠ b) (reset : Bool) :
    (flushIEBuck ib b reset).bucks b' = ib.bucks b' := by
  rw [flushIEBuck]
  split
  · rfl
  · exact update_of_ne hb _ _

/-! ### Spraying -/

/-- The bucket of an entry. -/
def bucketOf (bits : ℕ) (e : IEntry) : ℕ := (hashBits e.score bits).toNat

/-- The entries that belong into a bucket. -/
def inBucket (bits b : ℕ) (es : List IEntry) : List IEntry :=
  es.filter fun e => bucketOf bits e = b

/-- The buckets and the chains after some entries, with what each of them has. -/
structure Sprayed (ib : IEBucks) (es : List IEntry) (cs : ℕ → List (List IEntry))
    (rest : ℕ → List IEntry) : Prop where
  holds : ∀ b, Holding ib b (cs b) (rest b)
  room : ∀ b, (rest b).length * iEntrySize + iEntrySize ≤ ib.usable
  perm : ∀ b, (rest b ++ (cs b).flatten).Perm (inBucket ib.bits b es)
  chunks : ib.chunks.toNat = ∑ b ∈ Finset.range ib.nbucks, (cs b).length

/-- The sizes of an `IEBucks` fit. -/
structure Sizes (ib : IEBucks) : Prop where
  dvd : iEntrySize ∣ ib.usable
  pos : 0 < ib.usable
  fit : ib.usable + 4 ≤ ib.size
  small : ib.size + iEntrySize ≤ 2 ^ 32

/-- One term of a sum is one more. -/
theorem sum_succ {f g : ℕ → ℕ} {s : Finset ℕ} (hi : i ∈ s) (heq : g i = f i + 1)
    (hne : ∀ j ≠ i, g j = f j) : ∑ j ∈ s, g j = ∑ j ∈ s, f j + 1 := by
  rw [← Finset.add_sum_erase s g hi, ← Finset.add_sum_erase s f hi, heq,
    Finset.sum_congr rfl fun j hj => hne j (Finset.ne_of_mem_erase hj)]
  exact Nat.add_right_comm _ _ _

/-- **How many chunks** are full. -/
theorem length_chunks {l : List IEntry} (hdvd : iEntrySize ∣ usable)
    (hfull : ∀ c ∈ cs, c.length * iEntrySize = usable)
    (hroom : rest.length * iEntrySize + iEntrySize ≤ usable)
    (hperm : (rest ++ cs.flatten).Perm l) :
    l.length = rest.length + cs.length * (usable / iEntrySize) ∧
      rest.length < usable / iEntrySize := by
  obtain ⟨per, rfl⟩ := hdvd
  have hsize : 0 < iEntrySize := by decide
  have hper : iEntrySize * per / iEntrySize = per := Nat.mul_div_cancel_left _ hsize
  have hlen : ∀ c ∈ cs, c.length = per := fun c hc =>
    Nat.eq_of_mul_eq_mul_right hsize ((hfull c hc).trans (Nat.mul_comm _ _))
  have hflat : cs.flatten.length = cs.length * per := by
    rw [length_flatten, map_congr_left hlen, map_const', sum_replicate, smul_eq_mul]
  rw [hper]
  refine ⟨by rw [← hperm.length_eq, length_append, hflat], ?_⟩
  rw [← Nat.succ_mul, Nat.mul_comm iEntrySize] at hroom
  exact Nat.le_of_mul_le_mul_right hroom hsize

theorem div_eq_length {l : List IEntry} (hdvd : iEntrySize ∣ usable)
    (hfull : ∀ c ∈ cs, c.length * iEntrySize = usable)
    (hroom : rest.length * iEntrySize + iEntrySize ≤ usable)
    (hperm : (rest ++ cs.flatten).Perm l) : l.length / (usable / iEntrySize) = cs.length := by
  obtain ⟨hlen, hlt⟩ := length_chunks hdvd hfull hroom hperm
  rw [hlen, Nat.add_mul_div_right _ _ (Nat.zero_lt_of_lt hlt), Nat.div_eq_of_lt hlt, Nat.zero_add]

/-- An entry is in the memory of its bucket. -/
def IEBucks.put (ib : IEBucks) (e : IEntry) : IEBucks :=
  { ib with
    bucks := Function.update ib.bucks (bucketOf ib.bits e)
      { ib.bucks (bucketOf ib.bits e) with
        buf := (ib.bucks (bucketOf ib.bits e)).buf.store (ib.bucks (bucketOf ib.bits e)).used
          (packIEntry e)
        used := (ib.bucks (bucketOf ib.bits e)).used + iEntrySize } }

theorem Holding.put (h : Holding ib (bucketOf ib.bits e) cs rest) :
    Holding (ib.put e) (bucketOf ib.bits e) cs (rest ++ [e]) := by
  have hlen : (rest ++ [e]).length * iEntrySize = rest.length * iEntrySize + iEntrySize := by
    rw [length_append, length_singleton, Nat.succ_mul]
  refine ⟨?_, h.full, ?_, ?_⟩
  · simp only [IEBucks.put, update_self]
    exact h.chain
  · simp only [IEBucks.put, update_self, h.used, hlen]
  · simp only [IEBucks.put, update_self, h.used]
    rw [hlen, Buffer.load_add, Buffer.load_store_of_disjoint (Or.inl (by omega)), h.data,
      packed_append, Nat.zero_add, ← length_packIEntry e, Buffer.load_store]
    simp [packed]

theorem Holding.put_of_ne (h : Holding ib b cs rest) (hb : b ≠ bucketOf ib.bits e) :
    Holding (ib.put e) b cs rest := by
  have hsame : (ib.put e).bucks b = ib.bucks b := update_of_ne hb _ _
  exact ⟨by rw [hsame]; exact h.chain, h.full, by rw [hsame]; exact h.used,
    by rw [hsame]; exact h.data⟩

/-- `sprayientry` finds room. -/
theorem sprayIEntry_eq {cs : ℕ → List (List IEntry)} {rest : ℕ → List IEntry}
    (h : Sprayed ib es cs rest) (hs : Sizes ib) (e : IEntry) :
    sprayIEntry ib e = (if (rest (bucketOf ib.bits e)).length * iEntrySize + iEntrySize + iEntrySize
      ≤ ib.usable then ib.put e else flushIEBuck (ib.put e) (bucketOf ib.bits e) true, true) := by
  have hroom := h.room (bucketOf ib.bits e)
  have hused := (h.holds (bucketOf ib.bits e)).used
  have hfit := hs.fit
  have hsmall := hs.small
  have hmod : ∀ n ≤ ib.usable, (n + iEntrySize) % 2 ^ 32 = n + iEntrySize := fun n hn =>
    Nat.mod_eq_of_lt (by omega)
  rw [← hused] at hroom ⊢
  rw [sprayIEntry]
  simp only
  rw [← bucketOf, hmod _ (Nat.le_of_add_right_le hroom), if_neg (Nat.not_lt.2 hroom), hmod _ hroom]
  split
  · rfl
  · rfl

theorem inBucket_append (bits b : ℕ) (es : List IEntry) (e : IEntry) : inBucket bits b (es ++ [e]) =
      if b = bucketOf bits e then inBucket bits b es ++ [e] else inBucket bits b es := by
  rw [inBucket, filter_append, filter_singleton]
  split
  next h => rw [h, decide_eq_true rfl]; rfl
  next h => rw [decide_eq_false fun hcon => h hcon.symm]; exact append_nil _

theorem Sizes.of_eq (h : Sizes ib) (hsize : ib'.size = ib.size) (husable : ib'.usable = ib.usable) :
    Sizes ib' :=
  ⟨husable ▸ h.dvd, husable ▸ h.pos, by rw [hsize, husable]; exact h.fit, hsize ▸ h.small⟩

/-- The number of full chunks. -/
def fullChunks (bits per : ℕ) (es : List IEntry) : ℕ :=
  ∑ b ∈ Finset.range (2 ^ bits), (inBucket bits b es).length / per

/-- **Spraying an entry.** -/
theorem Sprayed.spray {cs : ℕ → List (List IEntry)} {rest : ℕ → List IEntry}
    (h : Sprayed ib es cs rest) (hs : Sizes ib) (hb : bucketOf ib.bits e < ib.nbucks)
    (hk : fullChunks ib.bits (ib.usable / iEntrySize) (es ++ [e]) < 2 ^ 32) :
    ∃ ib' cs' rest', sprayIEntry ib e = (ib', true) ∧ Sprayed ib' (es ++ [e]) cs' rest' ∧
      ib'.size = ib.size ∧ ib'.usable = ib.usable ∧ ib'.bits = ib.bits ∧ ib'.off = ib.off := by
  rw [sprayIEntry_eq h hs]
  generalize hbe : bucketOf ib.bits e = b₀ at *
  have hput : Holding (ib.put e) b₀ (cs b₀) (rest b₀ ++ [e]) := by
    subst hbe
    exact (h.holds _).put
  have hother : ∀ b ≠ b₀, Holding (ib.put e) b (cs b) (rest b) := fun b hne =>
    (h.holds b).put_of_ne (by rwa [hbe])
  have hlen : (rest b₀ ++ [e]).length * iEntrySize =
      (rest b₀).length * iEntrySize + iEntrySize := by
    rw [length_append, length_singleton, Nat.succ_mul]
  have hperm : ((rest b₀ ++ [e]) ++ (cs b₀).flatten).Perm (inBucket ib.bits b₀ (es ++ [e])) := by
    rw [inBucket_append, if_pos hbe.symm, append_assoc]
    refine (Perm.append_left _ perm_append_comm).trans ?_
    rw [← append_assoc]
    exact (h.perm b₀).append_right _
  have hperm' : ∀ b ≠ b₀, (rest b ++ (cs b).flatten).Perm (inBucket ib.bits b (es ++ [e])) := by
    intro b hne
    rw [inBucket_append, if_neg (by rwa [hbe])]
    exact h.perm b
  split
  next hroom =>
    refine ⟨ib.put e, cs, update rest b₀ (rest b₀ ++ [e]), rfl,
      ⟨fun b => ?_, fun b => ?_, fun b => ?_, h.chunks⟩, rfl, rfl, rfl, rfl⟩
    all_goals rcases eq_or_ne b b₀ with rfl | hne
    · rw [update_self]
      exact hput
    · rw [update_of_ne hne]
      exact hother b hne
    · rw [update_self, hlen]
      exact hroom
    · rw [update_of_ne hne]
      exact h.room b
    · rw [update_self]
      exact hperm
    · rw [update_of_ne hne]
      exact hperm' b hne
  next hroom =>
    -- the chunk is full
    have hfull : (rest b₀ ++ [e]).length * iEntrySize = ib.usable := by
      obtain ⟨per, hper⟩ := hs.dvd
      have hle := h.room b₀
      rw [hper, Nat.mul_comm iEntrySize per, ← Nat.succ_mul] at hroom hle
      rw [← Nat.succ_mul] at hroom
      have hsize : 0 < iEntrySize := by decide
      have hlo := Nat.le_of_mul_le_mul_right hle hsize
      have hhi := Nat.lt_of_mul_lt_mul_right (Nat.not_le.1 hroom)
      rw [hlen, ← Nat.succ_mul, hper, Nat.mul_comm iEntrySize per]
      congr 1
      omega
    have hcs : ∀ c ∈ (rest b₀ ++ [e]) :: cs b₀, c.length * iEntrySize = ib.usable := by
      intro c hc
      rcases mem_cons.1 hc with rfl | hc
      · exact hfull
      · exact (h.holds b₀).full c hc
    have hempty : ([] : List IEntry).length * iEntrySize + iEntrySize ≤ ib.usable := by
      rw [length_nil, Nat.zero_mul]
      exact (Nat.add_le_add_right (Nat.zero_le _) _).trans (h.room b₀)
    have hk' : ib.chunks.toNat + 1 < 2 ^ 32 := by
      refine lt_of_eq_of_lt ?_ hk
      rw [h.chunks, fullChunks]
      refine (sum_succ (Finset.mem_range.2 hb) ?_ fun b hne => ?_).symm
      · exact @div_eq_length ib.usable [] _ _ hs.dvd hcs hempty hperm
      · exact div_eq_length hs.dvd (h.holds b).full (h.room b) (hperm' b hne)
    have hne₀ : rest b₀ ++ [e] ≠ [] := append_ne_nil_of_right_ne_nil _ (cons_ne_nil e [])
    have hfit : (rest b₀ ++ [e]).length * iEntrySize + 4 ≤ (ib.put e).size := by
      rw [hfull]
      exact hs.fit
    obtain ⟨hchunks, hchain, hused⟩ := hput.flush hne₀ hfit hk' true
    obtain ⟨hsize, husable, hbits, hoff⟩ := flushIEBuck_const (ib.put e) b₀ true
    refine ⟨_, update cs b₀ ((rest b₀ ++ [e]) :: cs b₀), update rest b₀ [], rfl,
      ⟨fun b => ?_, fun b => ?_, fun b => ?_, ?_⟩, hsize, husable, hbits, hoff⟩
    · rcases eq_or_ne b b₀ with rfl | hne
      · rw [update_self, update_self]
        refine ⟨by rw [hchunks, hsize]; exact hchain, by rw [husable]; exact hcs, ?_, ?_⟩
        · rw [hused, if_pos rfl, length_nil, Nat.zero_mul]
        · rw [length_nil, Nat.zero_mul]
          rfl
      · rw [update_of_ne hne, update_of_ne hne]
        have hold := hother b hne
        refine ⟨?_, by rw [husable]; exact hold.full, ?_, ?_⟩
        · rw [hchunks, hsize, flushIEBuck_other _ hne]
          exact hold.chain.congr (Nat.le_succ _) fun j hj => flushIEBuck_part hput true hj
        · rw [flushIEBuck_other _ hne]
          exact hold.used
        · rw [flushIEBuck_other _ hne]
          exact hold.data
    · rw [husable]
      rcases eq_or_ne b b₀ with rfl | hne
      · rw [update_self]
        exact hempty
      · rw [update_of_ne hne]
        exact h.room b
    · rw [hbits]
      rcases eq_or_ne b b₀ with rfl | hne
      · rw [update_self, update_self, nil_append, flatten_cons]
        exact hperm
      · rw [update_of_ne hne, update_of_ne hne]
        exact hperm' b hne
    · rw [hchunks, IEBucks.nbucks, hbits]
      refine (congrArg (· + 1) h.chunks).trans
        (sum_succ (Finset.mem_range.2 hb) ?_ fun b hne => ?_).symm
      · rw [update_self, length_cons]
      · rw [update_of_ne hne]

theorem fullChunks_le_append (bits per : ℕ) (es : List IEntry) (e : IEntry) :
    fullChunks bits per es ≤ fullChunks bits per (es ++ [e]) := by
  refine Finset.sum_le_sum fun b _ => Nat.div_le_div_right ?_
  rw [inBucket_append]
  split
  · rw [length_append]
    exact Nat.le_add_right _ _
  · exact le_rfl

theorem sizes_initIEBucks (part : Buffer) (hbits : 1 ≤ bits) (hsize : 4 + iEntrySize < size)
    (hbuf : size * (2 ^ bits + 1) < 2 ^ 32) : Sizes (initIEBucks part bits size) := by
  have hent : iEntrySize = 38 := rfl
  have htwo : 2 ^ 1 ≤ 2 ^ bits := Nat.pow_le_pow_right (by decide) hbits
  have hmul : size * 3 ≤ size * (2 ^ bits + 1) := Nat.mul_le_mul_left _ (by omega)
  have hle : (size - 4) / iEntrySize * iEntrySize ≤ size - 4 := Nat.div_mul_le_self _ _
  have hpos : 0 < (size - 4) / iEntrySize := Nat.div_pos (by omega) (by decide)
  refine ⟨Dvd.intro_left _ rfl, Nat.mul_pos hpos (by decide), ?_, ?_⟩
  · simp only [initIEBucks]
    omega
  · simp only [initIEBucks]
    omega

theorem spray_concat (ib : IEBucks) (es : List IEntry) (e : IEntry) :
    spray ib (es ++ [e]) = (sprayIEntry (spray ib es) e).1 := by
  rw [spray, foldl_append, foldl_cons, foldl_nil, ← spray]

/-- **What the chains and the memory hold** when the entries have been sprayed: each bucket has
those that belong there. -/
theorem spray_spec (part : Buffer) (hbits : 1 ≤ bits) (hbits' : bits ≤ 32)
    (hs : Sizes (initIEBucks part bits size))
    (hk : fullChunks bits ((initIEBucks part bits size).usable / iEntrySize) es < 2 ^ 32) :
    ∃ cs rest, Sprayed (spray (initIEBucks part bits size) es) es cs rest ∧
      (spray (initIEBucks part bits size) es).size = size ∧
      (spray (initIEBucks part bits size) es).usable = (initIEBucks part bits size).usable ∧
      (spray (initIEBucks part bits size) es).bits = bits := by
  induction es using reverseRecOn with
  | nil =>
    refine ⟨fun _ => [], fun _ => [],
      ⟨fun b => ⟨rfl, ?_, rfl, rfl⟩, fun b => ?_, fun b => .nil, ?_⟩, rfl, rfl, rfl⟩
    · exact fun c hc => absurd hc not_mem_nil
    · rw [length_nil, Nat.zero_mul, Nat.zero_add]
      exact Nat.le_of_dvd hs.pos hs.dvd
    · exact (Finset.sum_const_zero).symm
  | append_singleton es e ih =>
    obtain ⟨cs, rest, h, hsize, husable, hbits₁⟩ := ih ((fullChunks_le_append _ _ _ _).trans_lt hk)
    have hb : bucketOf (spray (initIEBucks part bits size) es).bits e <
        (spray (initIEBucks part bits size) es).nbucks := by
      rw [IEBucks.nbucks, hbits₁]
      exact hashBits_lt _ hbits hbits'
    obtain ⟨ib', cs', rest', hrun, h', hsize', husable', hbits'', -⟩ :=
      h.spray (hs.of_eq hsize husable) hb (by rwa [hbits₁, husable])
    rw [spray_concat, hrun]
    exact ⟨cs', rest', h', hsize'.trans hsize, husable'.trans husable, hbits''.trans hbits₁⟩

/-! ### Flushing the buckets -/

/-- The chunks of a bucket after it is flushed. -/
def allChunks (cs : List (List IEntry)) (rest : List IEntry) : List (List IEntry) :=
  if rest = [] then cs else rest :: cs

theorem flatten_allChunks (cs : List (List IEntry)) (rest : List IEntry) :
    (allChunks cs rest).flatten = rest ++ cs.flatten := by
  rw [allChunks]
  split
  next h => rw [h, nil_append]
  next => rw [flatten_cons]

theorem length_le_allChunks (cs : List (List IEntry)) (rest : List IEntry) :
    cs.length ≤ (allChunks cs rest).length := by
  rw [allChunks]
  split
  · exact le_rfl
  · exact Nat.le_succ _

/-- The buckets when the first few of them are flushed. -/
structure Flushing (ib : IEBucks) (i : ℕ) (cs : ℕ → List (List IEntry)) (rest : ℕ → List IEntry) :
    Prop where
  held : ∀ b, i ≤ b → Holding ib b (cs b) (rest b)
  flushed : ∀ b < i,
    Chain ib.part ib.size ib.chunks.toNat (ib.bucks b).head (allChunks (cs b) (rest b)) ∧
      (ib.bucks b).used = (rest b).length * iEntrySize
  chunks : ib.chunks.toNat = ∑ b ∈ Finset.range ib.nbucks,
    (if b < i then allChunks (cs b) (rest b) else cs b).length

section Flushing

variable {cs : ℕ → List (List IEntry)} {rest : ℕ → List IEntry}

/-- A flushed bucket, or one about to be. -/
theorem Flushing.step (h : Flushing ib i cs rest) (hi : i < ib.nbucks)
    (hfit : ∀ b, (rest b).length * iEntrySize + 4 ≤ ib.size)
    (hk : ∑ b ∈ Finset.range ib.nbucks, (allChunks (cs b) (rest b)).length < 2 ^ 32) :
    Flushing (flushLoop ib i) (i + 1) cs rest := by
  have hheld := h.held i le_rfl
  have hcount : ∀ b ≠ i, (if b < i + 1 then allChunks (cs b) (rest b) else cs b).length =
      (if b < i then allChunks (cs b) (rest b) else cs b).length := by
    intro b hne
    have hiff : b < i + 1 ↔ b < i := by omega
    simp only [hiff]
  rcases eq_or_ne (rest i) [] with hrest | hrest
  · have hall : allChunks (cs i) (rest i) = cs i := if_pos hrest
    have hflush : flushIEBuck ib i false = ib := flushIEBuck_of_nil (hrest ▸ hheld) false
    have hloop : flushLoop ib i = { ib with max := Max.max ib.max (ib.bucks i).total } := by
      rw [flushLoop, hflush]
    rw [hloop]
    refine ⟨fun b hb => ?_, fun b hb => ?_, ?_⟩
    · have hold := h.held b (by omega)
      exact ⟨hold.chain, hold.full, hold.used, hold.data⟩
    · rcases Nat.lt_succ_iff_lt_or_eq.1 hb with hlt | rfl
      · exact h.flushed b hlt
      · rw [hall]
        exact ⟨hheld.chain, hheld.used⟩
    · refine h.chunks.trans (Finset.sum_congr rfl fun b _ => ?_)
      rcases eq_or_ne b i with rfl | hne
      · rw [if_neg (lt_irrefl _), if_pos (Nat.lt_succ_self _), hall]
      · exact (hcount b hne).symm
  · have hall : allChunks (cs i) (rest i) = rest i :: cs i := if_neg hrest
    have hsum : ∑ b ∈ Finset.range ib.nbucks,
        (if b < i + 1 then allChunks (cs b) (rest b) else cs b).length = ib.chunks.toNat + 1 := by
      rw [h.chunks]
      refine sum_succ (Finset.mem_range.2 hi) ?_ hcount
      rw [if_pos (Nat.lt_succ_self _), if_neg (lt_irrefl _), hall, length_cons]
    have hk' : ib.chunks.toNat + 1 < 2 ^ 32 := by
      rw [← hsum]
      refine (Finset.sum_le_sum fun b _ => ?_).trans_lt hk
      split
      · exact le_rfl
      · exact length_le_allChunks _ _
    obtain ⟨hchunks, hchain, hused⟩ := hheld.flush hrest (hfit i) hk' false
    obtain ⟨hsize, husable, hbits, -⟩ := flushIEBuck_const ib i false
    have hpart : ∀ j < ib.chunks.toNat * ib.size, (flushIEBuck ib i false).part j = ib.part j :=
      fun j hj => flushIEBuck_part hheld false hj
    have hother : ∀ b ≠ i, (flushIEBuck ib i false).bucks b = ib.bucks b := fun b hne =>
      flushIEBuck_other ib hne false
    rw [flushLoop]
    generalize flushIEBuck ib i false = ib₁ at *
    refine ⟨fun b hb => ?_, fun b hb => ?_, ?_⟩
    · have hold := h.held b (by omega)
      have hsame := hother b (by omega)
      refine ⟨?_, ?_, ?_, ?_⟩
      · simp only [hchunks, hsize, hsame]
        exact hold.chain.congr (Nat.le_succ _) hpart
      · simp only [husable]
        exact hold.full
      · simp only [hsame]
        exact hold.used
      · simp only [hsame]
        exact hold.data
    · simp only [hchunks, hsize]
      rcases Nat.lt_succ_iff_lt_or_eq.1 hb with hlt | rfl
      · obtain ⟨hold, hused'⟩ := h.flushed b hlt
        rw [hother b hlt.ne]
        exact ⟨hold.congr (Nat.le_succ _) hpart, hused'⟩
      · rw [hall]
        exact ⟨hchain, hused⟩
    · simp only [hchunks, IEBucks.nbucks, hbits]
      exact hsum.symm

theorem flushLoop_const (ib : IEBucks) (i : ℕ) :
    (flushLoop ib i).size = ib.size ∧ (flushLoop ib i).usable = ib.usable ∧
      (flushLoop ib i).bits = ib.bits := by
  obtain ⟨hsize, husable, hbits, -⟩ := flushIEBuck_const ib i false
  exact ⟨hsize, husable, hbits⟩

/-- **All buckets** are flushed. -/
theorem Sprayed.flush (h : Sprayed ib es cs rest) (hs : Sizes ib)
    (hk : ∑ b ∈ Finset.range ib.nbucks, (allChunks (cs b) (rest b)).length < 2 ^ 32) :
    Flushing (flushIEBucks ib) ib.nbucks cs rest ∧ (flushIEBucks ib).size = ib.size ∧
      (flushIEBucks ib).usable = ib.usable ∧ (flushIEBucks ib).bits = ib.bits := by
  have hfit : ∀ b, (rest b).length * iEntrySize + 4 ≤ ib.size := fun b => by
    have hroom := h.room b
    have hle := hs.fit
    omega
  have hrun : ∀ i ≤ ib.nbucks, Flushing ((List.range i).foldl flushLoop ib) i cs rest ∧
      ((List.range i).foldl flushLoop ib).size = ib.size ∧
      ((List.range i).foldl flushLoop ib).usable = ib.usable ∧
      ((List.range i).foldl flushLoop ib).bits = ib.bits := by
    intro i hi
    induction i with
    | zero =>
      refine ⟨⟨fun b _ => h.holds b, fun b hb => absurd hb (Nat.not_lt_zero b), ?_⟩, rfl, rfl, rfl⟩
      exact h.chunks.trans (Finset.sum_congr rfl fun b _ => by rw [if_neg (Nat.not_lt_zero b)])
    | succ i ih =>
      obtain ⟨hfl, hsize, husable, hbits⟩ := ih (by omega)
      rw [range_succ, foldl_append, foldl_cons, foldl_nil]
      have hnb : ((List.range i).foldl flushLoop ib).nbucks = ib.nbucks := by
        rw [IEBucks.nbucks, hbits, IEBucks.nbucks]
      obtain ⟨hsize', husable', hbits'⟩ := flushLoop_const ((List.range i).foldl flushLoop ib) i
      exact ⟨hfl.step (by omega) (by rwa [hsize]) (by rwa [hnb]), hsize'.trans hsize,
        husable'.trans husable, hbits'.trans hbits⟩
  exact hrun _ le_rfl

end Flushing

/-! ### The sort -/

/-- Entries in a bucket before that of another one come before it. -/
theorem key_le_of_bucketOf_lt {e' : IEntry} (hbits : 1 ≤ bits) (hbits' : bits ≤ 32)
    (h : bucketOf bits e < bucketOf bits e') : e.key ≤ e'.key := by
  have hlt : beVal e.score.toList < beVal e'.score.toList := by
    by_contra hcon
    exact absurd (hashBits_mono hbits hbits' (Nat.not_lt.1 hcon)) (Nat.not_le.2 h)
  have htype := vtToDiskType_lt e.ia.type.toNat
  rw [IEntry.key, IEntry.key, scoreKey, scoreKey]
  omega

/-- The entries of all buckets are those of the buckets' numbers. -/
theorem entriesFrom_perm {cs : ℕ → List (List IEntry)}
    (h : ∀ b, (cs b).flatten.Perm (inBucket bits b es)) (k i : ℕ) :
    (entriesFrom cs k i).Perm
      (es.filter fun e => i ≤ bucketOf bits e ∧ bucketOf bits e < i + k) := by
  induction k generalizing i with
  | zero =>
    rw [filter_eq_nil_iff.2 fun e _ => by simp only [decide_eq_true_eq]; omega]
    exact .nil
  | succ k ih =>
    refine ((h i).append (ih (i + 1))).trans ?_
    refine Perm.trans (Perm.of_eq ?_) (filter_append_perm
      (fun e => bucketOf bits e = i) _)
    rw [filter_filter, filter_filter, inBucket]
    congr 1
    · refine filter_congr fun e _ => ?_
      rw [← Bool.decide_and, decide_eq_decide]
      omega
    · refine filter_congr fun e _ => ?_
      rw [← decide_not, ← Bool.decide_and, decide_eq_decide]
      omega

/-- The number of chunks. -/
def chunkCount (bits per : ℕ) (es : List IEntry) : ℕ :=
  ∑ b ∈ Finset.range (2 ^ bits), ((inBucket bits b es).length + (per - 1)) / per

theorem fullChunks_le (bits per : ℕ) (es : List IEntry) :
    fullChunks bits per es ≤ chunkCount bits per es :=
  Finset.sum_le_sum fun _ _ => Nat.div_le_div_right (Nat.le_add_right _ _)

section Flushing

variable {cs : ℕ → List (List IEntry)} {rest : ℕ → List IEntry}

/-- The chunks of a bucket, the last one counted too. -/
theorem Sprayed.length_allChunks (h : Sprayed ib es cs rest) (hs : Sizes ib) (b : ℕ) :
    (allChunks (cs b) (rest b)).length =
      ((inBucket ib.bits b es).length + (ib.usable / iEntrySize - 1)) /
        (ib.usable / iEntrySize) := by
  obtain ⟨hlen, hlt⟩ := length_chunks hs.dvd (h.holds b).full (h.room b) (h.perm b)
  have hper : 0 < ib.usable / iEntrySize := Nat.zero_lt_of_lt hlt
  rw [hlen, Nat.add_right_comm, Nat.add_mul_div_right _ _ hper, allChunks]
  split
  next hrest =>
    rw [hrest, length_nil, Nat.zero_add, Nat.div_eq_of_lt (by omega), Nat.zero_add]
  next hrest =>
    have hpos := length_pos_iff.2 hrest
    have hone : ((rest b).length + (ib.usable / iEntrySize - 1)) / (ib.usable / iEntrySize) = 1 :=
      Nat.div_eq_of_lt_le (by omega) (by omega)
    rw [hone, length_cons, Nat.add_comm]

/-- What a bucket has for the sort. -/
theorem Flushing.flushed_bucket {ib₀ : IEBucks} (h : Sprayed ib₀ es cs rest)
    (hfl : Flushing ib ib.nbucks cs rest) (husable : ib.usable = ib₀.usable)
    (hb : b < ib.nbucks) (hsmall : (inBucket ib₀.bits b es).length * iEntrySize < 2 ^ 32)
    (off : ℕ) :
    Flushed { ib with off := off } ib.chunks.toNat b (allChunks (cs b) (rest b)) := by
  obtain ⟨hchain, hused⟩ := hfl.flushed b hb
  have hfull : ∀ c ∈ cs b, c.length * iEntrySize = ib.usable := husable ▸ (h.holds b).full
  refine ⟨hchain, ?_, ?_, ?_, ?_⟩
  · rw [allChunks]
    split
    next hrest =>
      rw [hrest, length_nil, Nat.zero_mul] at hused
      intro c hc
      rw [if_pos hused]
      exact hfull c (List.mem_of_mem_head? hc)
    next hrest =>
      have hpos : (rest b).length * iEntrySize ≠ 0 :=
        (Nat.mul_pos (length_pos_iff.2 hrest) (by decide)).ne'
      intro c hc
      obtain rfl : rest b = c := Option.some.inj hc
      simp only [hused, if_neg hpos]
  · rw [allChunks]
    split
    next => exact fun c hc => hfull c (mem_of_mem_tail hc)
    next => exact fun c hc => hfull c hc
  · rwa [flatten_allChunks, (h.perm b).length_eq]
  · refine le_trans ?_ ib.chunks.toNat_lt.le
    rw [hfl.chunks]
    refine le_trans (le_of_eq ?_) (Finset.single_le_sum (fun _ _ => Nat.zero_le _)
      (Finset.mem_range.2 hb))
    rw [if_pos hb]

end Flushing

/-- **The external sort sorts**: what is written behind the chunks is the entries, in order, and
their number comes back. -/
def Sorts (part : Buffer) (bits size : ℕ) (es : List IEntry) : Prop :=
  ∃ (ib : IEBucks) (out : List IEntry),
    sortIEBucks (spray (initIEBucks part bits size) es) = some (ib, es.length) ∧ out.Perm es ∧
      (out.Pairwise fun e e' => ientryCmp (packIEntry e) (packIEntry e') ≠ .gt) ∧
      ib.part.load (ib.chunks.toNat * ib.size) (es.length * iEntrySize) = packed out

theorem InOrder.pairwise_cmp (h : InOrder es) :
    es.Pairwise fun e e' => ientryCmp (packIEntry e) (packIEntry e') ≠ .gt := by
  refine h.imp fun hle => ?_
  rw [ientryCmp_eq (length_packIEntry _) (length_packIEntry _), entryKey_packIEntry,
    entryKey_packIEntry]
  exact compare_le_iff_le.2 hle

/-- **The external sort is a sort** as long as there are fewer chunks than numbers for them, and
each bucket is less than four gigabytes. -/
theorem sortIEBucks_spec (part : Buffer) (es : List IEntry) (hbits : 1 ≤ bits)
    (hsize : 4 + iEntrySize < size) (hbuf : size * (2 ^ bits + 1) < 2 ^ 32)
    (hbucket : ∀ b, (inBucket bits b es).length * iEntrySize < 2 ^ 32)
    (hchunks : chunkCount bits ((size - 4) / iEntrySize) es < 2 ^ 32) :
    Sorts part bits size es := by
  have hs := sizes_initIEBucks part hbits hsize hbuf
  have hbits' : bits ≤ 32 := by
    by_contra hcon
    have hpow : 2 ^ 32 ≤ 2 ^ bits := Nat.pow_le_pow_right (by decide) (by omega)
    have hmul : 1 * (2 ^ bits + 1) ≤ size * (2 ^ bits + 1) := Nat.mul_le_mul_right _ (by omega)
    omega
  have hper : (initIEBucks part bits size).usable / iEntrySize = (size - 4) / iEntrySize :=
    Nat.mul_div_cancel _ (by decide)
  obtain ⟨cs, rest, h, hsz, husable, hbt⟩ := @spray_spec bits size es part hbits hbits' hs
    ((fullChunks_le _ _ _).trans_lt (by rwa [hper]))
  generalize hib : spray (initIEBucks part bits size) es = ib at *
  have hs' := hs.of_eq hsz husable
  have hnb : ib.nbucks = 2 ^ bits := by rw [IEBucks.nbucks, hbt]
  obtain ⟨hfl, hsz', husable', hbt'⟩ := h.flush hs' (by
    refine lt_of_eq_of_lt ?_ hchunks
    rw [hnb, chunkCount]
    refine Finset.sum_congr rfl fun b _ => ?_
    rw [h.length_allChunks hs', husable, hper, hbt])
  generalize hfib : flushIEBucks ib = fib at *
  have hnb' : fib.nbucks = ib.nbucks := by rw [IEBucks.nbucks, hbt', IEBucks.nbucks]
  have hperm : ∀ b, (allChunks (cs b) (rest b)).flatten.Perm (inBucket bits b es) := by
    intro b
    rw [flatten_allChunks, ← hbt]
    exact h.perm b
  have hmem : ∀ b, ∀ e ∈ (allChunks (cs b) (rest b)).flatten, bucketOf bits e = b := by
    intro b e he
    have hin := (hperm b).mem_iff.1 he
    rw [inBucket, List.mem_filter, decide_eq_true_eq] at hin
    exact hin.2
  obtain ⟨ib', out, hout, hsorted, hrun, hch, hsz'', -, hdata⟩ := @sortBuckets_spec
    { fib with off := fib.chunks.toNat * fib.size } 0 fib.nbucks fib.chunks.toNat
    (fun b => allChunks (cs b) (rest b)) 0
    (fun b _ hb => (hnb' ▸ hfl).flushed_bucket h husable' (by omega)
      (by rw [hbt]; exact hbucket b) _)
    le_rfl
    (fun b b' _ hbb' _ e he e' he' =>
      key_le_of_bucketOf_lt hbits hbits' (by rwa [hmem b e he, hmem b' e' he']))
  have hall : (entriesFrom (fun b => allChunks (cs b) (rest b)) fib.nbucks 0).Perm es := by
    refine (entriesFrom_perm hperm _ 0).trans
      (List.Perm.of_eq (List.filter_eq_self.2 fun e _ => ?_))
    rw [decide_eq_true_eq, hnb', hnb, Nat.zero_add]
    exact ⟨Nat.zero_le _, hashBits_lt _ hbits hbits'⟩
  have hlen : out.length = es.length := (hout.trans hall).length_eq
  refine ⟨ib', out, ?_, hout.trans hall, hsorted.pairwise_cmp, ?_⟩
  · rw [hib, sortIEBucks]
    simp only [hfib]
    rw [← hlen, ← Nat.zero_add out.length]
    exact hrun
  · rw [hch, hsz'', ← hlen]
    exact hdata

/-- An entry for one of 64 buckets. -/
def bucketEntry (b : ℕ) : IEntry :=
  ⟨(Vector.replicate 20 0).set 0 (UInt8.ofNat (4 * b)) (Nat.succ_pos 19), ⟨0, 0, 0, 0⟩, .clean⟩

/-- Three entries, two of them in one bucket. -/
theorem sortIEBucks_spec_three :
    Sorts (fun _ => 0) 1 64 [bucketEntry 40, bucketEntry 3, bucketEntry 35] := by
  refine sortIEBucks_spec _ _ (by decide) (by decide) (by decide) (fun b => ?_) (by decide)
  have hle : (inBucket 1 b [bucketEntry 40, bucketEntry 3, bucketEntry 35]).length ≤ 3 :=
    List.length_filter_le _ _
  have hent : iEntrySize = 38 := rfl
  rw [hent]
  omega

/-! ### As many chunks as numbers -/

/-- So many entries for each bucket, the ones for the first bucket behind the others, and one of
them left out. -/
def allButOne (n : ℕ) : List IEntry :=
  (List.range 63).flatMap (fun i => List.replicate n (bucketEntry (i + 1))) ++
    List.replicate (n - 1) (bucketEntry 0)

theorem bucketOf_bucketEntry : ∀ b < 64, bucketOf 6 (bucketEntry b) = b := by decide

theorem inBucket_replicate (hi : i < 64) (b n : ℕ) : inBucket 6 b (replicate n (bucketEntry i)) =
      if i = b then replicate n (bucketEntry i) else [] := by
  rw [inBucket, filter_replicate, bucketOf_bucketEntry i hi]
  simp only [decide_eq_true_eq]

theorem inBucket_flatMap (b n : ℕ) (hk : k ≤ 63) :
    inBucket 6 b ((List.range k).flatMap fun i => replicate n (bucketEntry (i + 1))) =
      if 1 ≤ b ∧ b ≤ k then replicate n (bucketEntry b) else [] := by
  induction k with
  | zero => rw [if_neg (by omega)]; rfl
  | succ k ih =>
    have happ : ∀ l l', inBucket 6 b (l ++ l') = inBucket 6 b l ++ inBucket 6 b l' := fun l l' =>
      filter_append _ _
    rw [range_succ, flatMap_append, happ, ih (by omega), flatMap_singleton,
      inBucket_replicate (by omega)]
    rcases eq_or_ne (k + 1) b with rfl | hne
    · rw [if_neg (by omega), if_pos rfl, if_pos (by omega), nil_append]
    · have hiff : (1 ≤ b ∧ b ≤ k + 1) ↔ (1 ≤ b ∧ b ≤ k) := by omega
      rw [if_neg hne, append_nil]
      simp only [hiff]

theorem inBucket_allButOne (b n : ℕ) :
    inBucket 6 b (allButOne n) = if b = 0 then replicate (n - 1) (bucketEntry 0)
      else if b ≤ 63 then replicate n (bucketEntry b) else [] := by
  have happ : ∀ l l', inBucket 6 b (l ++ l') = inBucket 6 b l ++ inBucket 6 b l' := fun l l' =>
    filter_append _ _
  rw [allButOne, happ, inBucket_flatMap b n le_rfl, inBucket_replicate (by decide)]
  rcases eq_or_ne b 0 with rfl | hne
  · rw [if_neg (by omega), if_pos rfl, if_pos rfl, nil_append]
  · have hiff : (1 ≤ b ∧ b ≤ 63) ↔ b ≤ 63 := by omega
    rw [if_neg hne.symm, if_neg hne, append_nil]
    simp only [hiff]

theorem fullChunks_allButOne {n : ℕ} (hn : 0 < n) : fullChunks 6 1 (allButOne n) = 64 * n - 1 := by
  have hterm : ∀ b ∈ Finset.range 63, (inBucket 6 (b + 1) (allButOne n)).length / 1 = n := by
    intro b hb
    rw [Finset.mem_range] at hb
    rw [inBucket_allButOne, if_neg (Nat.succ_ne_zero b), if_pos (by omega), length_replicate,
      Nat.div_one]
  rw [fullChunks, show 2 ^ 6 = 63 + 1 from rfl, Finset.sum_range_succ', Finset.sum_congr rfl hterm,
    inBucket_allButOne, if_pos rfl, length_replicate, Finset.sum_const, Finset.card_range,
    smul_eq_mul, Nat.div_one]
  omega

/-- The buckets with nothing in memory are not flushed again. -/
theorem flushIEBucks_of_used (ib : IEBucks) (h : ∀ b, (ib.bucks b).used = 0) :
    ∃ m, flushIEBucks ib = { ib with max := m } := by
  rw [flushIEBucks]
  generalize ib.nbucks = k
  induction k with
  | zero => exact ⟨ib.max, rfl⟩
  | succ k ih =>
    obtain ⟨m, hm⟩ := ih
    rw [range_succ, foldl_append, hm]
    refine ⟨Max.max m (ib.bucks k).total, ?_⟩
    simp only [foldl_cons, foldl_nil, flushLoop, flushIEBuck, h k, if_pos]

/-- What is written stays. -/
theorem sortBuckets_keeps {tot tot' : ℕ} (h : sortBuckets k i ib tot = some (ib', tot')) :
    ib'.chunks = ib.chunks ∧ ib'.size = ib.size ∧ ∀ j < ib.off, ib'.part j = ib.part j := by
  induction k generalizing i ib tot with
  | zero =>
    obtain ⟨rfl, rfl⟩ := Prod.mk.inj (Option.some.inj h)
    exact ⟨rfl, rfl, fun _ _ => rfl⟩
  | succ k ih =>
    obtain ⟨r, hr, hrun⟩ := Option.bind_eq_some_iff.1 h
    obtain ⟨x, -, rfl⟩ := Option.map_eq_some_iff.1 hr
    obtain ⟨hchunks, hsize, hpart⟩ := ih hrun
    refine ⟨hchunks, hsize, fun j hj => ?_⟩
    rw [hpart j (hj.trans_le (Nat.le_add_right _ _))]
    exact Buffer.store_of_lt hj

theorem length_inBucket_le {n : ℕ} (hn : 0 < n) (b : ℕ) :
    (inBucket 6 b (allButOne n ++ [bucketEntry 0])).length ≤ n := by
  rw [inBucket_append, bucketOf_bucketEntry 0 (by decide), inBucket_allButOne]
  split_ifs with h
  · rw [length_append, length_replicate, length_singleton]
    omega
  · rw [length_replicate]
  · exact Nat.zero_le _

/-- With a chunk for each of all the numbers, the last one is the mark of an empty chain. -/
theorem spray_allButOne (part : Buffer) {n : ℕ} (hn : 64 * n = 2 ^ 32) :
    ∃ ib, spray (initIEBucks part 6 43) (allButOne n ++ [bucketEntry 0]) = ib ∧
      ib.chunks = 0 ∧ ib.size = 43 ∧ ib.bits = 6 ∧ (ib.bucks 0).head = twid32 ∧
      (∀ b, (ib.bucks b).used = 0) ∧
      ∃ cs hi, Flushed ib hi 1 cs ∧ cs.flatten = replicate n (bucketEntry 1) := by
  have hs : Sizes (initIEBucks part 6 43) :=
    sizes_initIEBucks part (by decide) (by decide) (by decide)
  have hper : (initIEBucks part 6 43).usable = iEntrySize := rfl
  have hfull := fullChunks_allButOne (show 0 < n by omega)
  obtain ⟨cs, rest, h, hsize, husable, hbits⟩ := @spray_spec 6 43 (allButOne n) part (by decide)
    (by decide) hs (by rw [hper, Nat.div_self (by decide), hfull]; omega)
  rw [spray_concat]
  generalize spray (initIEBucks part 6 43) (allButOne n) = ib at *
  rw [hper] at husable
  have hrest : ∀ b, rest b = [] := by
    intro b
    have hroom := h.room b
    rw [husable] at hroom
    have hzero : (rest b).length * iEntrySize = 0 := by omega
    exact length_eq_zero_iff.1 ((Nat.mul_eq_zero.1 hzero).resolve_right (by decide))
  have hchunks : ib.chunks.toNat = 2 ^ 32 - 1 := by
    rw [h.chunks, IEBucks.nbucks, hbits, ← hn, ← hfull, fullChunks]
    refine Finset.sum_congr rfl fun b _ => ?_
    have hdiv := div_eq_length (dvd_of_eq husable.symm) (h.holds b).full (h.room b) (h.perm b)
    rw [husable, Nat.div_self (by decide), hbits] at hdiv
    exact hdiv.symm
  have htwid : ib.chunks = twid32 := UInt32.toNat.inj hchunks
  have hbk : bucketOf ib.bits (bucketEntry 0) = 0 := by
    rw [hbits]
    decide
  have hput : Holding (ib.put (bucketEntry 0)) 0 (cs 0) [bucketEntry 0] := by
    have hput := @Holding.put ib (rest 0) (cs 0) (bucketEntry 0) (by rw [hbk]; exact h.holds 0)
    rwa [hbk, hrest] at hput
  have hstep : (sprayIEntry ib (bucketEntry 0)).1 =
      flushIEBuck (ib.put (bucketEntry 0)) 0 true := by
    rw [sprayIEntry_eq h (hs.of_eq hsize husable), hbk, hrest, husable]
    rfl
  refine ⟨_, hstep, ?_⟩
  have hpart : ∀ j < (2 ^ 32 - 1) * ib.size,
      (flushIEBuck (ib.put (bucketEntry 0)) 0 true).part j = ib.part j := fun j hj =>
    flushIEBuck_part hput true (by rw [← hchunks] at hj; exact hj)
  have hother : ∀ b ≠ 0, (flushIEBuck (ib.put (bucketEntry 0)) 0 true).bucks b = ib.bucks b := by
    intro b hne
    rw [flushIEBuck_other _ hne]
    exact update_of_ne (by rwa [hbk]) _ _
  obtain ⟨hsize', husable', hbits', -⟩ := flushIEBuck_const (ib.put (bucketEntry 0)) 0 true
  have hflush := flushIEBuck_of_ne hput (cons_ne_nil _ _) true
  have hcs : (cs 1).flatten = replicate n (bucketEntry 1) := by
    have hperm := h.perm 1
    rw [hrest, nil_append, hbits, inBucket_allButOne, if_neg (by decide),
      if_pos (by decide)] at hperm
    exact perm_replicate.1 hperm
  have hlen : (cs 1).flatten.length = n := by rw [hcs, length_replicate]
  have hused : ∀ b, ((flushIEBuck (ib.put (bucketEntry 0)) 0 true).bucks b).used = 0 := by
    intro b
    rcases eq_or_ne b 0 with rfl | hne
    · rw [hflush]
      simp only [update_self, if_pos]
    · rw [hother b hne, (h.holds b).used, hrest, length_nil, Nat.zero_mul]
  refine ⟨?_, hsize'.trans hsize, hbits'.trans hbits, ?_, hused, cs 1, 2 ^ 32 - 1,
    ⟨?_, fun c hc => ?_, fun c hc => ?_, ?_, ?_⟩, hcs⟩
  · rw [hflush]
    simp only [IEBucks.put, htwid]
    rfl
  · rw [hflush]
    simp only [update_self]
    exact htwid
  · rw [hother 1 (by decide), hsize']
    have hchain := (h.holds 1).chain
    rw [hchunks] at hchain
    exact hchain.congr le_rfl hpart
  · rw [hused, if_pos rfl, husable']
    exact (h.holds 1).full c (List.mem_of_mem_head? hc)
  · rw [husable']
    exact (h.holds 1).full c (mem_of_mem_tail hc)
  · have hent : iEntrySize = 38 := rfl
    rw [hlen, hent]
    omega
  · have hdiv := div_eq_length (dvd_of_eq husable.symm) (h.holds 1).full (h.room 1) (h.perm 1)
    rw [husable, Nat.div_self (by decide), Nat.div_one, hbits, inBucket_allButOne,
      if_neg (by decide), if_pos (by decide), length_replicate] at hdiv
    omega

/-- A bucket with an empty chain adds nothing. -/
theorem sortIEBuck_of_empty (h : (ib.bucks b).head = twid32) : sortIEBuck ib b = some (ib, 0) := by
  have hfl : Flushed ib 0 b [] := by
    refine ⟨h, fun c hc => ?_, fun c hc => absurd hc not_mem_nil, by decide, Nat.zero_le _⟩
    cases hc
  obtain ⟨out, hperm, -, hrun⟩ := hfl.sortIEBuck
  obtain rfl : out = [] := perm_nil.1 hperm
  rw [hrun, IEBucks.write_nil]
  rfl

/-- **With a chunk for each of all the numbers** the entries of a bucket are lost. -/
theorem not_sorts_allButOne (part : Buffer) {n : ℕ} (hn : 64 * n = 2 ^ 32) :
    ¬Sorts part 6 43 (allButOne n ++ [bucketEntry 0]) := by
  rintro ⟨ib', out, hrun, hperm, hsorted, hdata⟩
  obtain ⟨ib, hspray, hchunks, hsize, hbits, hhead, hused, cs, hi, hfl, hcs⟩ :=
    spray_allButOne part hn
  obtain ⟨m, hm⟩ := flushIEBucks_of_used ib hused
  have hrun' : sortBuckets (62 + 1 + 1) 0 { ib with max := m, off := 0 } 0 =
      some (ib', (allButOne n ++ [bucketEntry 0]).length) := by
    rw [← hrun, hspray, sortIEBucks, hm]
    simp only [IEBucks.nbucks, hbits, hchunks, UInt32.toNat_zero, Nat.zero_mul]
    rfl
  have hempty : sortIEBuck { ib with max := m, off := 0 } 0 =
      some ({ ib with max := m, off := 0 }, 0) := sortIEBuck_of_empty hhead
  have hfl' : Flushed { ib with max := m, off := 0 } hi 1 cs :=
    ⟨hfl.chain, hfl.last, hfl.full, hfl.small, hfl.chunks⟩
  obtain ⟨out₁, hperm₁, -, hbuck⟩ := hfl'.sortIEBuck
  rw [hcs] at hperm₁
  obtain rfl : out₁ = replicate n (bucketEntry 1) := perm_replicate.1 hperm₁
  rw [sortBuckets, hempty, Option.bind_some, sortBuckets, hbuck, Option.bind_some] at hrun'
  obtain ⟨hch, hsz, hkeep⟩ := sortBuckets_keeps hrun'
  have hent : iEntrySize = 38 := rfl
  -- what is in front is an entry of the second bucket
  have hfront : ib'.part.load 0 iEntrySize = packIEntry (bucketEntry 1) := by
    have hload := Buffer.load_store ib.part 0 (packed (replicate n (bucketEntry 1)))
    rw [length_packed] at hload
    have hfirst := load_packed hload (show 0 < (replicate n (bucketEntry 1)).length by
      rw [length_replicate]; omega)
    rw [Nat.zero_mul, getElem_replicate] at hfirst
    rw [← hfirst]
    refine Buffer.load_congr fun j hj => hkeep _ ?_
    simp only [IEBucks.write, length_replicate, hent] at hj ⊢
    omega
  have hzero : ib'.chunks = 0 := hch.trans hchunks
  have hmem : bucketEntry 0 ∈ out := hperm.mem_iff.2 (mem_append_right _ (mem_singleton_self _))
  cases out with
  | nil => exact absurd hmem not_mem_nil
  | cons x out =>
    rw [hzero, UInt32.toNat_zero, Nat.zero_mul, ← hperm.length_eq] at hdata
    have hx := load_packed hdata (Nat.succ_pos _)
    rw [Nat.zero_mul, hfront, getElem_cons_zero] at hx
    rcases mem_cons.1 hmem with heq | htail
    · rw [← heq] at hx
      exact absurd hx (by decide)
    · have hle := rel_of_pairwise_cons hsorted htail
      rw [← hx] at hle
      exact absurd hle (by decide)

/-- With 2²⁶ entries in each of 64 buckets, and one in each chunk, a bucket is less than four
gigabytes, and yet the result is not the entries in order. -/
theorem chunk_numbers_end :
    (∀ b, (inBucket 6 b (allButOne (2 ^ 26) ++ [bucketEntry 0])).length * iEntrySize < 2 ^ 32) ∧
      4 + iEntrySize < 43 ∧
      ¬Sorts (fun _ => 0) 6 43 (allButOne (2 ^ 26) ++ [bucketEntry 0]) := by
  refine ⟨fun b => ?_, by decide, not_sorts_allButOne _ (by decide)⟩
  have hle := length_inBucket_le (show 0 < 2 ^ 26 by decide) b
  have hent : iEntrySize = 38 := rfl
  rw [hent]
  omega

end SortEntry

end Venti

end Plan9
