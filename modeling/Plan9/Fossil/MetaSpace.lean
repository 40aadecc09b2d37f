import Mathlib.Algebra.BigOperators.Group.List.Basic
import Mathlib.Data.List.Lex
import Plan9.Fossil.MetaBlock

/-!
# The space of a metadata block

A block is well formed (`Plan9.Fossil.Vac.MetaBlock.WF`) when its entries lie apart between
the table and `size`, `free` is what they leave of that, every entry begins with the magic
number of a directory entry, and the table is sorted by the names.

An operation is described by what it makes of the list of entries of the table and of the
bytes of each of them, its *records*:

* `Plan9.Fossil.Vac.WF.search` – a search splits the entries at the name;
* `Plan9.Fossil.Vac.WF.delete` and `Plan9.Fossil.Vac.WF.insert` – an entry is taken out, or
  put in at the place that a search gave;
* `Plan9.Fossil.Vac.WF.alloc` – the space that is found lies apart from every entry; where
  the entries were moved for it, their records are as before;
* `Plan9.Fossil.Vac.WF.resize` – so does the space that an entry is given, from every other
  entry: where an entry grows into zero bytes, none of them is the first byte of another
  entry.
-/

namespace Plan9

namespace Fossil

namespace Vac

open Lib List

/-! ### The order of the names -/

/-- A name as a list of numbers whose lexicographic order is the order of the block: the end
of the name is below every byte, in the old order above. -/
def key (botch : Bool) (name : List UInt8) : List ℕ :=
  name.map (fun c => c.toNat + 1) ++ [if botch then 257 else 0]

/-- The comparison of a block in the new or in the old order. -/
def cmpName (botch : Bool) (a b : List UInt8) : ℤ := if botch then cmpOld a b else cmpNew a b

theorem key_nil (botch : Bool) : key botch [] = [if botch then 257 else 0] := rfl

theorem key_cons (botch : Bool) (c : UInt8) (l : List UInt8) :
    key botch (c :: l) = (c.toNat + 1) :: key botch l := rfl

theorem cmpNew_spec : ∀ a b : List UInt8,
    cmpNew a b < 0 ∧ key false a < key false b ∨ cmpNew a b = 0 ∧ a = b ∨
      0 < cmpNew a b ∧ key false b < key false a
  | [], [] => by simp [cmpNew]
  | [], _ :: _ => by simp [cmpNew, key_nil, key_cons, cons_lt_cons_iff]
  | _ :: _, [] => by simp [cmpNew, key_nil, key_cons, cons_lt_cons_iff]
  | p :: ps, s :: ss => by
    have ih := cmpNew_spec ps ss
    simp only [cmpNew, key_cons, cons_lt_cons_iff, UInt8.lt_iff_toNat_lt]
    rcases Nat.lt_trichotomy p.toNat s.toNat with h | h | h
    · simp [h]
    · obtain rfl := UInt8.toNat_inj.1 h
      simpa using ih
    · simp [h, Nat.lt_asymm h]

theorem cmpOld_spec : ∀ a b : List UInt8,
    cmpOld a b < 0 ∧ key true a < key true b ∨ cmpOld a b = 0 ∧ a = b ∨
      0 < cmpOld a b ∧ key true b < key true a
  | [], [] => by simp [cmpOld]
  | [], s :: _ => by
    have h : s.toNat + 1 < 257 := Nat.succ_lt_succ s.toNat_lt
    simp [cmpOld, key_nil, key_cons, cons_lt_cons_iff, h]
  | p :: _, [] => by
    have h : p.toNat + 1 < 257 := Nat.succ_lt_succ p.toNat_lt
    simp [cmpOld, key_nil, key_cons, cons_lt_cons_iff, h]
  | p :: ps, s :: ss => by
    have ih := cmpOld_spec ps ss
    simp only [cmpOld, key_cons, cons_lt_cons_iff, UInt8.lt_iff_toNat_lt]
    rcases Nat.lt_trichotomy p.toNat s.toNat with h | h | h
    · simp [h]
    · obtain rfl := UInt8.toNat_inj.1 h
      simpa using ih
    · simp [h, Nat.lt_asymm h]

theorem cmpName_spec (botch : Bool) (a b : List UInt8) :
    cmpName botch a b < 0 ∧ key botch a < key botch b ∨ cmpName botch a b = 0 ∧ a = b ∨
      0 < cmpName botch a b ∧ key botch b < key botch a := by
  rcases botch with _ | _
  · exact cmpNew_spec a b
  · exact cmpOld_spec a b

variable {botch : Bool} {a b : List UInt8}

theorem cmpName_lt_zero : cmpName botch a b < 0 ↔ key botch a < key botch b := by
  rcases cmpName_spec botch a b with ⟨h, h'⟩ | ⟨h, rfl⟩ | ⟨h, h'⟩
  · exact iff_of_true h h'
  · exact iff_of_false (by omega) (lt_irrefl _)
  · exact iff_of_false (by omega) (lt_asymm h')

theorem zero_lt_cmpName : 0 < cmpName botch a b ↔ key botch b < key botch a := by
  rcases cmpName_spec botch a b with ⟨h, h'⟩ | ⟨h, rfl⟩ | ⟨h, h'⟩
  · exact iff_of_false (by omega) (lt_asymm h')
  · exact iff_of_false (by omega) (lt_irrefl _)
  · exact iff_of_true h h'

theorem cmpName_eq_zero : cmpName botch a b = 0 ↔ a = b := by
  rcases cmpName_spec botch a b with ⟨h, h'⟩ | ⟨h, h'⟩ | ⟨h, h'⟩
  · exact iff_of_false (by omega) fun hab => lt_irrefl _ (hab ▸ h')
  · exact iff_of_true h h'
  · exact iff_of_false (by omega) fun hab => lt_irrefl _ (hab ▸ h')

/-! ### Records -/

/-- The bytes of an entry. -/
def record (d : Buffer) (me : MetaEntry) : List UInt8 := d.load me.p me.size

/-- The name in the bytes of an entry. -/
def nameOf (r : List UInt8) : List UInt8 := (r.drop 8).take (beVal ((r.drop 6).take 2))

/-- What `mbUnpack` asks of the bytes of an entry. -/
def IsRecord (r : List UInt8) : Prop := 8 ≤ r.length ∧ beVal (r.take 4) = dirMagic

variable {d d' : Buffer} {me : MetaEntry} {r : List UInt8}

@[simp]
theorem length_record (d : Buffer) (me : MetaEntry) : (record d me).length = me.size :=
  Buffer.length_load _ _ _

theorem record_congr (h : ∀ k < me.size, d' (me.p + k) = d (me.p + k)) :
    record d' me = record d me :=
  Buffer.load_congr h

theorem nameBytes_eq (h : 8 ≤ me.size) : nameBytes d me = nameOf (record d me) := by
  rw [nameOf, record, Buffer.drop_load d me.p h, Buffer.drop_load d me.p (by omega : 6 ≤ me.size),
    Buffer.take_load d (me.p + 6) (by omega : 2 ≤ me.size - 6), nameBytes, Buffer.get16]
  rcases Nat.le_total (beVal (d.load (me.p + 6) 2)) (me.size - 8) with hm | hm
  · rw [Nat.min_eq_left hm, Buffer.take_load _ _ hm]
  · rw [Nat.min_eq_right hm, take_of_length_le (by simpa using hm)]

/-- **An entry does not begin with a zero byte.** -/
theorem IsRecord.first (h : IsRecord (record d me)) : d me.p ≠ 0 := by
  intro h0
  have hsize : 8 ≤ me.size := by simpa using h.1
  have hm := h.2
  rw [record, Buffer.take_load d me.p (by omega : 4 ≤ me.size)] at hm
  have h4 : d.load me.p 4 = 0 :: d.load (me.p + 1) 3 := by
    rw [Buffer.load_add d me.p 1 3, ← h0]
    rfl
  have hlt := beVal_lt (d.load (me.p + 1) 3)
  rw [h4, beVal, Buffer.length_load, UInt8.toNat_zero, Nat.zero_mul, Nat.zero_add] at hm
  rw [hm, Buffer.length_load] at hlt
  exact absurd hlt (by decide)

@[simp]
theorem length_stringPack (s : Str) : (stringPack s).length = 2 + s.1.length := by
  simp [stringPack]

/-- **The size that is asked for is the size that is packed.** -/
theorem length_bytes (dir : DirEntry) : dir.bytes.length = deSize dir := by
  rcases hq : dir.qidSpace with _ | ⟨o, m⟩
  all_goals
    simp only [DirEntry.bytes, DirEntry.options, deSize, hq, length_append, length_beBytes,
      length_stringPack, length_nil, if_true, reduceCtorEq, if_false]
    omega

theorem isRecord_bytes (dir : DirEntry) : IsRecord dir.bytes := by
  constructor
  · rw [length_bytes, deSize]
    omega
  · rw [DirEntry.bytes, take_left' (length_beBytes 4 dirMagic)]
    exact beVal_beBytes (by decide)

theorem nameOf_bytes (dir : DirEntry) (h : deSize dir < 65536) : nameOf dir.bytes = dir.elem.1 := by
  have hlen : dir.elem.1.length < 65536 := by
    rw [deSize] at h
    omega
  obtain ⟨t, ht⟩ : ∃ t, dir.bytes = beBytes 4 dirMagic ++ (beBytes 2 9 ++
      (beBytes 2 dir.elem.1.length ++ (dir.elem.1 ++ t))) := by
    simp only [DirEntry.bytes, stringPack, append_assoc]
    exact ⟨_, rfl⟩
  have h6 : dir.bytes.drop 6 = beBytes 2 dir.elem.1.length ++ (dir.elem.1 ++ t) := by
    rw [ht, ← append_assoc, drop_left' (by simp)]
  have h8 : dir.bytes.drop 8 = dir.elem.1 ++ t := by
    rw [show 8 = 6 + 2 from rfl, ← drop_drop, h6, drop_left' (by simp)]
  have h2 : beVal ((dir.bytes.drop 6).take 2) = dir.elem.1.length := by
    rw [h6, take_left' (length_beBytes 2 _)]
    exact beVal_beBytes hlen
  rw [nameOf, h8, h2]
  exact take_left' rfl

/-! ### The table -/

/-- The first `n` entries of the table. -/
def entriesOf (d : Buffer) (n : ℕ) : List MetaEntry := (List.range n).map (entryAt d)

variable {i j n : ℕ}

theorem slot_add (i k : ℕ) : slot (i + k) = slot i + k * metaIndexSize := by
  rw [slot, slot, Nat.add_mul, Nat.add_assoc]

theorem slot_succ (i : ℕ) : slot (i + 1) = slot i + 4 := slot_add i 1

theorem slot_mono (h : i ≤ j) : slot i ≤ slot j := Nat.add_le_add_left (Nat.mul_le_mul_right _ h) _

theorem entryAt_congr (h : ∀ k < 4, d' (slot j + k) = d (slot i + k)) :
    entryAt d' j = entryAt d i := by
  have h1 : d'.get16 (slot j) = d.get16 (slot i) := Buffer.get16_congr fun k hk => h k (by omega)
  have h2 : d'.get16 (slot j + 2) = d.get16 (slot i + 2) := Buffer.get16_congr fun k hk => by
      rw [Nat.add_assoc, Nat.add_assoc]
      exact h (2 + k) (by omega)
  rw [entryAt, entryAt, h1, h2]

@[simp]
theorem length_entriesOf (d : Buffer) (n : ℕ) : (entriesOf d n).length = n := by
  simp [entriesOf]

theorem entriesOf_congr (h : ∀ j < slot n, d' j = d j) : entriesOf d' n = entriesOf d n := by
  refine map_congr_left fun i hi => entryAt_congr fun k hk => h _ ?_
  have h1 := slot_mono (mem_range.1 hi : i + 1 ≤ n)
  rw [slot_succ] at h1
  omega

theorem entriesOf_add (d : Buffer) (i k : ℕ) :
    entriesOf d (i + k) = entriesOf d i ++ (List.range k).map fun j => entryAt d (i + j) := by
  rw [entriesOf, range_add, map_append, map_map]
  rfl

variable {k : ℕ}

/-- A stretch of the table, moved as a whole. -/
theorem entries_move (h : ∀ l < k * metaIndexSize, d' (slot j + l) = d (slot i + l)) :
    ((List.range k).map fun l => entryAt d' (j + l)) =
      (List.range k).map fun l => entryAt d (i + l) := by
  refine map_congr_left fun l hl => entryAt_congr fun m hm => ?_
  have hl' : l < k := mem_range.1 hl
  rw [slot_add, slot_add, Nat.add_assoc, Nat.add_assoc]
  refine h _ ?_
  have h1 : (l + 1) * metaIndexSize ≤ k * metaIndexSize := Nat.mul_le_mul_right _ hl'
  rw [Nat.succ_mul] at h1
  exact Nat.lt_of_lt_of_le (Nat.add_lt_add_left hm _) h1

variable {l₁ l₂ : List MetaEntry}

/-- A split of the entries, as one of the table. -/
theorem entriesOf_eq_append (h : entriesOf d n = l₁ ++ l₂) :
    n = l₁.length + l₂.length ∧ l₁ = entriesOf d l₁.length ∧
      l₂ = (List.range l₂.length).map fun j => entryAt d (l₁.length + j) := by
  have hn : n = l₁.length + l₂.length := by
    rw [← length_entriesOf d n, h, length_append]
  rw [hn, entriesOf_add] at h
  obtain ⟨h1, h2⟩ := append_inj h (length_entriesOf _ _)
  exact ⟨hn, h1.symm, h2.symm⟩

variable {me : MetaEntry} {p : ℕ}

/-- **An entry is taken out of the table**: those behind it move down. -/
theorem entriesOf_delete {m : ℕ} (h : entriesOf d n = l₁ ++ me :: l₂) (hp : slot n ≤ p) :
    entriesOf ((((d.clear p m).move (slot l₁.length) (slot l₁.length + metaIndexSize)
      ((n - l₁.length - 1) * metaIndexSize)).clear
        (slot l₁.length + (n - l₁.length - 1) * metaIndexSize) metaIndexSize)) (n - 1) =
      l₁ ++ l₂ := by
  rw [append_cons] at h
  obtain ⟨hn, h1, h2⟩ := entriesOf_eq_append h
  rw [length_append, length_singleton] at hn h2
  obtain ⟨-, h3, -⟩ := entriesOf_eq_append h1.symm
  have hk : n - l₁.length - 1 = l₂.length := by omega
  have hslot : slot l₁.length + l₂.length * metaIndexSize + metaIndexSize = slot n := by
    rw [← slot_add, hn, Nat.add_right_comm, slot_succ]
    rfl
  rw [hk, show n - 1 = l₁.length + l₂.length by omega, entriesOf_add]
  refine congrArg₂ (· ++ ·) ?_ ?_
  · refine Eq.trans (entriesOf_congr fun j hj => ?_) h3.symm
    rw [Buffer.clear_apply_of_ne _ (Or.inl (by omega)), Buffer.move_apply_of_ne _ (Or.inl hj),
      Buffer.clear_apply_of_ne _ (Or.inl (by omega))]
  · refine Eq.trans (entries_move fun l hl => ?_) h2.symm
    rw [Buffer.clear_apply_of_ne _ (Or.inl (by omega)), Buffer.move_add _ _ _ hl, slot_succ,
      Buffer.clear_apply_of_ne _ (Or.inl (by
        have h4 : metaIndexSize = 4 := rfl
        omega))]
    rfl

/-- **An entry is put into the table**: those behind it move up. -/
theorem entriesOf_insert (h : entriesOf d n = l₁ ++ l₂) (hp : me.p < 65536)
    (hs : me.size < 65536) :
    entriesOf (((d.move (slot l₁.length + metaIndexSize) (slot l₁.length)
      ((n - l₁.length) * metaIndexSize)).put16 (slot l₁.length) me.p).put16
        (slot l₁.length + 2) me.size) (n + 1) = l₁ ++ me :: l₂ := by
  obtain ⟨hn, h1, h2⟩ := entriesOf_eq_append h
  have h4 : metaIndexSize = 4 := rfl
  rw [show n - l₁.length = l₂.length by omega,
    show n + 1 = l₁.length + 1 + l₂.length by omega, entriesOf_add, entriesOf_add,
    append_cons l₁]
  refine congrArg₂ (· ++ ·) (congrArg₂ (· ++ ·) ?_ ?_) ?_
  · refine Eq.trans (entriesOf_congr fun j hj => ?_) h1.symm
    rw [Buffer.put16_apply_of_ne _ (Or.inl (by omega)), Buffer.put16_apply_of_ne _ (Or.inl hj),
      Buffer.move_apply_of_ne _ (Or.inl (by omega))]
  · have hsz : ∀ d : Buffer, ((d.put16 (slot l₁.length) me.p).put16 (slot l₁.length + 2)
        me.size).get16 (slot l₁.length) = me.p := by
      intro d
      rw [Buffer.put16, Buffer.get16_store_of_disjoint (Or.inl le_rfl), Buffer.get16_put16 _ _ hp]
    rw [range_one, map_singleton, entryAt, Nat.add_zero l₁.length, hsz, Buffer.get16_put16 _ _ hs]
  · refine Eq.trans (entries_move fun l hl => ?_) h2.symm
    rw [slot_succ, Buffer.put16_apply_of_ne _ (Or.inr (by omega)),
      Buffer.put16_apply_of_ne _ (Or.inr (by omega)), ← h4, Buffer.move_add _ _ _ hl]

/-! ### Well-formed blocks -/

/-- Two entries do not overlap. -/
def Apart (a b : MetaEntry) : Prop := a.p + a.size ≤ b.p ∨ b.p + b.size ≤ a.p

theorem Apart.symm {a b : MetaEntry} (h : Apart a b) : Apart b a := Or.symm h

namespace MetaBlock

/-- The entries of the table. -/
def entries (mb : MetaBlock) : List MetaEntry := entriesOf mb.buf mb.nindex

/-- Their bytes. -/
def records (mb : MetaBlock) : List (List UInt8) := mb.entries.map (record mb.buf)

/-- The names in the order of the table. -/
def names (mb : MetaBlock) : List (List UInt8) := mb.records.map nameOf

/-- The order of two entries of a block, by their names. -/
def Before (mb : MetaBlock) (r r' : List UInt8) : Prop :=
  key mb.botch (nameOf r) < key mb.botch (nameOf r')

end MetaBlock

/-- **A well-formed block.** -/
structure WF (mb : MetaBlock) : Prop where
  /-- Offsets fit into the table. -/
  small : mb.maxsize < 65536
  omin_le : mb.omin ≤ mb.size
  size_le : mb.size ≤ mb.maxsize
  nindex_le : mb.nindex ≤ mb.maxindex
  /-- The entries lie between the table and the end. -/
  inside : ∀ e ∈ mb.entries, mb.omin ≤ e.p ∧ e.p + e.size ≤ mb.size
  /-- They are directory entries. -/
  isRecord : ∀ e ∈ mb.entries, IsRecord (record mb.buf e)
  /-- They do not overlap. -/
  apart : mb.entries.Pairwise Apart
  /-- The free space is what they leave. -/
  free_eq : mb.free = mb.size - mb.omin - ((mb.entries.map MetaEntry.size).sum : ℕ)
  /-- The table is sorted. -/
  sorted : mb.records.Pairwise mb.Before

open MetaBlock

variable {mb mb' : MetaBlock}

theorem entries_congr (hn : mb'.nindex = mb.nindex)
    (h : ∀ j < slot mb.nindex, mb'.buf j = mb.buf j) :
    mb'.entries = mb.entries := by
  rw [entries, entries, hn]
  exact entriesOf_congr h

theorem slot_le_omin (h : n ≤ mb.maxindex) : slot n ≤ mb.omin :=
  Nat.add_le_add_left (Nat.mul_le_mul_right _ h) _

variable {e : MetaEntry}

theorem WF.size_le_entry (h : WF mb) (he : e ∈ mb.entries) : 8 ≤ e.size := by
  simpa using (h.isRecord e he).1

/-- **A fresh block is well formed.** -/
theorem wf_mbInit (p : Buffer) {n ne : ℕ} (hne : metaHeaderSize + ne * metaIndexSize ≤ n)
    (hn : n < 65536) : WF (mbInit p n ne) where
  small := hn
  omin_le := le_rfl
  size_le := hne
  nindex_le := Nat.zero_le _
  inside := fun e he => absurd he not_mem_nil
  isRecord := fun e he => absurd he not_mem_nil
  apart := List.Pairwise.nil
  free_eq := by
    show (0 : ℤ) = ((metaHeaderSize + ne * metaIndexSize : ℕ) : ℤ) -
      ((metaHeaderSize + ne * metaIndexSize : ℕ) : ℤ) - ((0 : ℕ) : ℤ)
    omega
  sorted := List.Pairwise.nil

/-! ### The search -/

theorem meUnpack_eq (h : WF mb) (hi : i < mb.nindex) : meUnpack mb i = some (entryAt mb.buf i) := by
  have he : entryAt mb.buf i ∈ mb.entries := mem_map_of_mem (mem_range.2 hi)
  rw [meUnpack, if_pos ⟨hi, h.size_le_entry he⟩]

theorem meCmp_eq (hme : 8 ≤ me.size) (elem : Str) :
    meCmp mb me elem = cmpName mb.botch (nameOf (record mb.buf me)) elem.1 := by
  rw [meCmp, nameBytes_eq hme, cmpName]

/-- Two entries of the table in the order of their indices. -/
theorem WF.before (h : WF mb) (hij : i < j) (hj : j < mb.nindex) :
    mb.Before (record mb.buf (entryAt mb.buf i)) (record mb.buf (entryAt mb.buf j)) := by
  have hp := pairwise_iff_getElem.1 h.sorted i j (by simp [records, entries]; omega)
    (by simp [records, entries]; omega) hij
  simpa [records, entries, entriesOf] using hp

/-- **The search splits the entries at the name.** -/
theorem WF.search (h : WF mb) (elem : Str) :
    (∃ l₁ me l₂, mb.entries = l₁ ++ me :: l₂ ∧ nameOf (record mb.buf me) = elem.1 ∧
      mbSearch mb elem = some (.found l₁.length me)) ∨
    ∃ l₁ l₂, mb.entries = l₁ ++ l₂ ∧
      (∀ e ∈ l₁, key mb.botch (nameOf (record mb.buf e)) < key mb.botch elem.1) ∧
      (∀ e ∈ l₂, key mb.botch elem.1 < key mb.botch (nameOf (record mb.buf e))) ∧
      mbSearch mb elem = some (.absent l₁.length) := by
  have hmem : ∀ i < mb.nindex, entryAt mb.buf i ∈ mb.entries := fun i hi =>
    mem_map_of_mem (mem_range.2 hi)
  have hcmp : ∀ i < mb.nindex, ((meUnpack mb i).map fun me => meCmp mb me elem) =
      some (cmpName mb.botch (nameOf (record mb.buf (entryAt mb.buf i))) elem.1) := fun i hi => by
    rw [meUnpack_eq h hi, Option.map_some, meCmp_eq (h.size_le_entry (hmem i hi))]
  have hspec := searchBy_spec hcmp
    (fun i j hij hj hle => by
      have hb := h.before hij hj
      rw [cmpName_lt_zero]
      exact lt_of_lt_of_le hb (not_lt.1 fun hlt => absurd (zero_lt_cmpName.2 hlt) (not_lt.2 hle)))
    (fun i j hij hj hle => by
      have hb := h.before hij hj
      rw [zero_lt_cmpName]
      exact lt_of_le_of_lt (not_lt.1 fun hlt => absurd (cmpName_lt_zero.2 hlt) (not_lt.2 hle)) hb)
  rcases hspec with ⟨i, hi, h0, hs⟩ | ⟨i, hi, hlo, hhi, hs⟩
  · refine Or.inl ⟨entriesOf mb.buf i, entryAt mb.buf i,
      (List.range (mb.nindex - (i + 1))).map fun j => entryAt mb.buf (i + 1 + j), ?_,
      cmpName_eq_zero.1 h0, ?_⟩
    · rw [entries, show mb.nindex = i + 1 + (mb.nindex - (i + 1)) by omega, entriesOf_add,
        entriesOf_add, append_assoc, Nat.add_sub_cancel_left]
      rfl
    · rw [mbSearch, hs, Option.bind_some, searched, meUnpack_eq h hi, length_entriesOf]
      rfl
  · refine Or.inr ⟨entriesOf mb.buf i,
      (List.range (mb.nindex - i)).map fun j => entryAt mb.buf (i + j), ?_, ?_, ?_, ?_⟩
    · rw [entries, ← entriesOf_add, Nat.add_sub_cancel' hi]
    · intro e he
      obtain ⟨j, hj, rfl⟩ := mem_map.1 he
      exact cmpName_lt_zero.1 (hlo j (mem_range.1 hj))
    · intro e he
      obtain ⟨j, hj, rfl⟩ := mem_map.1 he
      have hj' := mem_range.1 hj
      exact zero_lt_cmpName.1 (hhi _ (Nat.le_add_right i j) (by omega))
    · rw [mbSearch, hs, length_entriesOf]
      rfl

/-! ### Deletion and insertion -/

/-- The records of some entries, in a buffer that agrees on their bytes. -/
theorem map_record_congr {l : List MetaEntry}
    (h : ∀ e ∈ l, ∀ k < e.size, d' (e.p + k) = d (e.p + k)) :
    l.map (record d') = l.map (record d) :=
  map_congr_left fun e he => record_congr (h e he)

/-- An entry apart from a range is not changed by a store into it. -/
theorem Apart.store_apply {l : List UInt8} (h : Apart e me) (hl : l.length = me.size)
    (hk : k < e.size) : d.store me.p l (e.p + k) = d (e.p + k) := by
  rcases h with h | h
  · exact Buffer.store_of_lt (Nat.lt_of_lt_of_le (Nat.add_lt_add_left hk _) h)
  · exact Buffer.store_of_ge (by omega)

/-- What a deletion leaves. -/
structure Deleted (mb mb' : MetaBlock) (l₁ l₂ : List MetaEntry) : Prop where
  wf : WF mb'
  maxsize_eq : mb'.maxsize = mb.maxsize
  maxindex_eq : mb'.maxindex = mb.maxindex
  botch_eq : mb'.botch = mb.botch
  nindex_lt : mb'.nindex < mb.nindex
  entries_eq : mb'.entries = l₁ ++ l₂
  records_eq : mb'.records = (l₁ ++ l₂).map (record mb.buf)

/-- **An entry is taken out.** -/
theorem WF.delete (h : WF mb) (hs : mb.entries = l₁ ++ me :: l₂) :
    ∃ mb', mbDelete mb l₁.length = some mb' ∧ Deleted mb mb' l₁ l₂ := by
  obtain ⟨hn, -, -⟩ := entriesOf_eq_append hs
  rw [length_cons] at hn
  have hme : entryAt mb.buf l₁.length = me := by
    have h1 := congrArg (fun l => l[l₁.length]?) hs
    simp [entries, entriesOf, hn] at h1
    exact h1
  have hmem : me ∈ mb.entries := by simp [hs]
  obtain ⟨hlo, hhi⟩ := h.inside me hmem
  have hsub : (l₁ ++ l₂).Sublist mb.entries := by
    rw [hs]
    exact (Sublist.refl l₁).append (sublist_cons_self me l₂)
  have hap : ∀ e ∈ l₁ ++ l₂, Apart e me := by
    have h1 := h.apart
    rw [hs, pairwise_append, pairwise_cons] at h1
    intro e he
    rcases mem_append.1 he with he | he
    · exact h1.2.2 e he me mem_cons_self
    · exact (h1.2.1.1 e he).symm
  have hslot : slot mb.nindex ≤ mb.omin := slot_le_omin h.nindex_le
  have hentries : (deleteAt mb l₁.length me).entries = l₁ ++ l₂ :=
    entriesOf_delete hs (Nat.le_trans hslot hlo)
  -- above the table only the bytes of the entry change
  have hbuf : ∀ e ∈ l₁ ++ l₂, ∀ k < e.size,
      (deleteAt mb l₁.length me).buf (e.p + k) = mb.buf (e.p + k) := by
    intro e he k hk
    have h1 := (h.inside e (hsub.subset he)).1
    have h2 : slot l₁.length + (mb.nindex - l₁.length - 1) * metaIndexSize + metaIndexSize =
        slot mb.nindex := by
      rw [← slot_add, show l₁.length + (mb.nindex - l₁.length - 1) = mb.nindex - 1 by omega]
      have h3 := slot_succ (mb.nindex - 1)
      rw [Nat.sub_add_cancel (by omega)] at h3
      exact h3.symm
    have h4 : metaIndexSize = 4 := rfl
    show ((((mb.buf.clear me.p me.size).move _ _ _).clear _ _ : Buffer)) _ = _
    rw [Buffer.clear_apply_of_ne _ (Or.inr (by omega)),
      Buffer.move_apply_of_ne _ (Or.inr (by omega))]
    exact (hap e he).store_apply length_replicate hk
  have hrecords : (deleteAt mb l₁.length me).records = (l₁ ++ l₂).map (record mb.buf) := by
    rw [records, hentries]
    exact map_record_congr hbuf
  have hsum : (mb.entries.map MetaEntry.size).sum =
      ((l₁ ++ l₂).map MetaEntry.size).sum + me.size := by
    simp [hs]
    omega
  refine ⟨deleteAt mb l₁.length me, ?_, ?_, rfl, rfl, rfl, ?_, hentries, hrecords⟩
  · rw [mbDelete, meUnpack_eq h (by omega), hme]
    rfl
  · have hsize : (deleteAt mb l₁.length me).size =
        if me.p + me.size = mb.size then mb.size - me.size else mb.size := rfl
    have hfree : (deleteAt mb l₁.length me).free =
        if me.p + me.size = mb.size then mb.free else mb.free + me.size := rfl
    have hle : (deleteAt mb l₁.length me).size ≤ mb.size := by
      rw [hsize]
      split
      · exact Nat.sub_le _ _
      · exact le_rfl
    have ho : (deleteAt mb l₁.length me).omin = mb.omin := rfl
    exact
      { small := h.small
        omin_le := by
          rw [ho, hsize]
          split
          · omega
          · exact h.omin_le
        size_le := Nat.le_trans hle h.size_le
        nindex_le := Nat.le_trans (Nat.sub_le _ _) h.nindex_le
        inside := fun e he => by
          rw [hentries] at he
          have h1 := h.inside e (hsub.subset he)
          refine ⟨h1.1, ?_⟩
          rw [hsize]
          split
          · -- the entry was the last one, so the others end before it
            have h8 := h.size_le_entry (hsub.subset he)
            rcases hap e he with h2 | h2
            · omega
            · omega
          · exact h1.2
        isRecord := fun e he => by
          rw [hentries] at he
          rw [record_congr (hbuf e he)]
          exact h.isRecord e (hsub.subset he)
        apart := by
          rw [hentries]
          exact h.apart.sublist hsub
        free_eq := by
          have h1 := h.free_eq
          rw [hsum] at h1
          rw [hentries, hfree, hsize, ho]
          split
          · omega
          · omega
        sorted := by
          rw [hrecords]
          exact h.sorted.sublist (hsub.map _) }
  · show mb.nindex - 1 < mb.nindex
    omega

/-- What an insertion leaves. -/
structure Inserted (mb mb' : MetaBlock) (l₁ l₂ : List MetaEntry) (me : MetaEntry)
    (dir : DirEntry) : Prop where
  wf : WF mb'
  maxsize_eq : mb'.maxsize = mb.maxsize
  maxindex_eq : mb'.maxindex = mb.maxindex
  botch_eq : mb'.botch = mb.botch
  entries_eq : mb'.entries = l₁ ++ me :: l₂
  records_eq : mb'.records = l₁.map (record mb.buf) ++ dir.bytes :: l₂.map (record mb.buf)

variable {dir : DirEntry}

theorem wf_insertAt {d : Buffer} (h : WF mb) (hs : mb.entries = l₁ ++ l₂)
    (hlt : mb.nindex < mb.maxindex) (hlo : mb.omin ≤ me.p) (hhi : me.p + me.size ≤ mb.maxsize)
    (hap : ∀ e ∈ mb.entries, Apart e me)
    (he : (insertAt { mb with buf := d } l₁.length me).entries = l₁ ++ me :: l₂)
    (hr : ∀ e ∈ mb.entries,
      record (insertAt { mb with buf := d } l₁.length me).buf e = record mb.buf e)
    (hrme : record (insertAt { mb with buf := d } l₁.length me).buf me = dir.bytes)
    (hbefore : ∀ e ∈ l₁, mb.Before (record mb.buf e) dir.bytes)
    (hafter : ∀ e ∈ l₂, mb.Before dir.bytes (record mb.buf e)) :
    WF (insertAt { mb with buf := d } l₁.length me) := by
  have hsize : (insertAt { mb with buf := d } l₁.length me).size =
      if mb.size < me.p + me.size then me.p + me.size else mb.size := rfl
  have hfree : (insertAt { mb with buf := d } l₁.length me).free =
      if mb.size < me.p + me.size then mb.free - (mb.size - me.p) else mb.free - me.size := rfl
  have ho : (insertAt { mb with buf := d } l₁.length me).omin = mb.omin := rfl
  have hle : mb.size ≤ (insertAt { mb with buf := d } l₁.length me).size := by
    rw [hsize]
    split <;> omega
  have hmem : ∀ e ∈ l₁ ++ me :: l₂, e = me ∨ e ∈ mb.entries := by
    intro e he'
    rw [hs]
    rcases mem_append.1 he' with h1 | h1
    · exact Or.inr (mem_append_left _ h1)
    · rcases mem_cons.1 h1 with h1 | h1
      · exact Or.inl h1
      · exact Or.inr (mem_append_right _ h1)
  refine
    { small := h.small
      omin_le := Nat.le_trans h.omin_le hle
      size_le := ?_
      nindex_le := hlt
      inside := fun e he' => ?_
      isRecord := fun e he' => ?_
      apart := ?_
      free_eq := ?_
      sorted := ?_ }
  · rw [hsize]
    split
    · exact hhi
    · exact h.size_le
  · rw [he] at he'
    rcases hmem e he' with rfl | h1
    · rw [hsize]
      exact ⟨hlo, by split <;> omega⟩
    · exact ⟨(h.inside e h1).1, Nat.le_trans (h.inside e h1).2 hle⟩
  · rw [he] at he'
    rcases hmem e he' with rfl | h1
    · rw [hrme]
      exact isRecord_bytes dir
    · rw [hr e h1]
      exact h.isRecord e h1
  · rw [he]
    have h1 := h.apart
    rw [hs] at h1 hap
    rw [pairwise_append] at h1 ⊢
    refine ⟨h1.1, pairwise_cons.2 ⟨fun e he' => ?_, h1.2.1⟩, fun e he' e' he'' => ?_⟩
    · exact (hap e (mem_append_right _ he')).symm
    · rcases mem_cons.1 he'' with rfl | he''
      · exact hap e (mem_append_left _ he')
      · exact h1.2.2 e he' e' he''
  · have h1 := h.free_eq
    have hsum : ((l₁ ++ me :: l₂).map MetaEntry.size).sum =
        (mb.entries.map MetaEntry.size).sum + me.size := by
      rw [hs]
      simp
      omega
    rw [he, hfree, hsize, ho, hsum]
    split
    · omega
    · omega
  · have h1 := h.sorted
    rw [records, hs, map_append, pairwise_append] at h1
    have hmap : ∀ l : List MetaEntry, (∀ e ∈ l, e ∈ mb.entries) →
        l.map (record (insertAt { mb with buf := d } l₁.length me).buf) = l.map (record mb.buf) :=
      fun l hl => map_congr_left fun e he' => hr e (hl e he')
    rw [records, he, map_append, map_cons, hrme, hmap l₁ fun e he' => hs ▸ mem_append_left _ he',
      hmap l₂ fun e he' => hs ▸ mem_append_right _ he', pairwise_append]
    refine ⟨h1.1, pairwise_cons.2 ⟨fun r hr' => ?_, h1.2.1⟩, fun r hr' r' hr'' => ?_⟩
    · obtain ⟨e, he', rfl⟩ := mem_map.1 hr'
      exact hafter e he'
    · rcases mem_cons.1 hr'' with rfl | hr''
      · obtain ⟨e, he', rfl⟩ := mem_map.1 hr'
        exact hbefore e he'
      · exact h1.2.2 r hr' r' hr''

/-- **An entry is put in**, into space that is apart from every other entry. -/
theorem WF.insert (h : WF mb) (hs : mb.entries = l₁ ++ l₂) (hlt : mb.nindex < mb.maxindex)
    (hsize : deSize dir = me.size) (hlo : mb.omin ≤ me.p) (hhi : me.p + me.size ≤ mb.maxsize)
    (hap : ∀ e ∈ mb.entries, Apart e me)
    (hbefore : ∀ e ∈ l₁, key mb.botch (nameOf (record mb.buf e)) < key mb.botch dir.elem.1)
    (hafter : ∀ e ∈ l₂, key mb.botch dir.elem.1 < key mb.botch (nameOf (record mb.buf e))) :
    ∃ mb', packInsert mb l₁.length me dir = some mb' ∧ Inserted mb mb' l₁ l₂ me dir := by
  have hsmall := h.small
  have hlen : dir.bytes.length = me.size := by rw [length_bytes, hsize]
  have hname : nameOf dir.bytes = dir.elem.1 := nameOf_bytes dir (by omega)
  have hslot : slot (mb.nindex + 1) ≤ mb.omin := slot_le_omin hlt
  have hl₁ : l₁.length ≤ mb.nindex := by
    obtain ⟨hn, -, -⟩ := entriesOf_eq_append hs
    omega
  have hmb : ({ mb with buf := mb.buf.store me.p dir.bytes } : MetaBlock).entries = l₁ ++ l₂ := by
    rw [← hs]
    refine entries_congr rfl fun j hj => Buffer.store_of_lt ?_
    rw [slot_succ] at hslot
    omega
  have he : (insertAt { mb with buf := mb.buf.store me.p dir.bytes } l₁.length me).entries =
      l₁ ++ me :: l₂ := entriesOf_insert hmb (by omega) (by omega)
  -- above the table, only the bytes of the entry differ
  have hbuf : ∀ j, mb.omin ≤ j →
      (insertAt { mb with buf := mb.buf.store me.p dir.bytes } l₁.length me).buf j =
        mb.buf.store me.p dir.bytes j := by
    intro j hj
    have h2 : slot l₁.length + metaIndexSize + (mb.nindex - l₁.length) * metaIndexSize =
        slot (mb.nindex + 1) := by
      rw [slot_succ, Nat.add_right_comm, ← slot_add, Nat.add_sub_cancel' hl₁]
      rfl
    have h3 : metaIndexSize = 4 := rfl
    show (((Buffer.move (mb.buf.store me.p dir.bytes) (slot l₁.length + metaIndexSize)
      (slot l₁.length) ((mb.nindex - l₁.length) * metaIndexSize)).put16 _ _).put16 _ _) j = _
    rw [Buffer.put16_apply_of_ne _ (Or.inr (by omega)),
      Buffer.put16_apply_of_ne _ (Or.inr (by omega)), Buffer.move_apply_of_ne _ (Or.inr (by omega))]
  have hr : ∀ e ∈ mb.entries, record
      (insertAt { mb with buf := mb.buf.store me.p dir.bytes } l₁.length me).buf e =
        record mb.buf e := by
    refine fun e he' => record_congr fun k hk => ?_
    have h1 := (h.inside e he').1
    rw [hbuf _ (by omega), (hap e he').store_apply hlen hk]
  have hrme : record
      (insertAt { mb with buf := mb.buf.store me.p dir.bytes } l₁.length me).buf me =
        dir.bytes := by
    have h1 : record (insertAt { mb with buf := mb.buf.store me.p dir.bytes } l₁.length me).buf me =
        record (mb.buf.store me.p dir.bytes) me := record_congr fun k hk => hbuf _ (by omega)
    rw [h1, record, ← hlen, Buffer.load_store]
  refine ⟨insertAt { mb with buf := mb.buf.store me.p dir.bytes } l₁.length me, ?_, ?_, rfl, rfl,
    rfl, he, ?_⟩
  · rw [packInsert, dePack, hlen, if_pos rfl, Option.bind_some, mbInsert, if_pos hlt]
  · refine wf_insertAt h hs hlt hlo hhi hap he hr hrme (fun e he' => ?_) fun e he' => ?_
    · rw [Before, hname]
      exact hbefore e he'
    · rw [Before, hname]
      exact hafter e he'
  · rw [records, he, map_append, map_cons, hrme]
    refine congrArg₂ (· ++ ·) (map_congr_left fun e he' => hr e ?_)
      (congrArg _ (map_congr_left fun e he' => hr e ?_))
    · exact hs ▸ mem_append_left _ he'
    · exact hs ▸ mem_append_right _ he'

/-! ### The chunks in the order of their offsets -/

variable {mc : List MetaChunk} {c : MetaChunk} {o oo : ℕ}

/-- The entry of a chunk. -/
def MetaChunk.entry (c : MetaChunk) : MetaEntry := ⟨c.offset, c.size⟩

/-- The sizes of some chunks. -/
def total (mc : List MetaChunk) : ℕ := (mc.map MetaChunk.size).sum

theorem total_cons (c : MetaChunk) (mc : List MetaChunk) : total (c :: mc) = c.size + total mc := by
  simp [total]

theorem map_entry_chunks (mb : MetaBlock) : mb.chunks.map MetaChunk.entry = mb.entries := by
  rw [chunks, map_map]
  rfl

/-- One behind the other, from `oo` on and below `hi`. -/
structure InOrder (oo hi : ℕ) (mc : List MetaChunk) : Prop where
  ge : ∀ c ∈ mc, oo ≤ c.offset
  le : ∀ c ∈ mc, c.offset + c.size ≤ hi
  next : mc.Pairwise fun c c' => c.offset + c.size ≤ c'.offset

variable {hi : ℕ}

theorem InOrder.tail (h : InOrder oo hi (c :: mc)) : InOrder (c.offset + c.size) hi mc where
  ge := (pairwise_cons.1 h.next).1
  le := fun c' hc => h.le c' (mem_cons_of_mem c hc)
  next := (pairwise_cons.1 h.next).2

theorem InOrder.mono {oo' : ℕ} (h : InOrder oo hi mc) (ho : oo' ≤ oo) : InOrder oo' hi mc where
  ge := fun c hc => Nat.le_trans ho (h.ge c hc)
  le := h.le
  next := h.next

/-- There is room for all of them. -/
theorem InOrder.total_le (h : InOrder oo hi mc) (ho : oo ≤ hi) : oo + total mc ≤ hi := by
  induction mc generalizing oo with
  | nil => exact ho
  | cons c mc ih =>
    have h1 := h.ge c mem_cons_self
    have h2 := ih h.tail (h.le c mem_cons_self)
    rw [total_cons]
    omega

instance : Std.Total offsetLe := ⟨fun a b => Nat.le_total a.offset b.offset⟩

instance : IsTrans MetaChunk offsetLe := ⟨fun _ _ _ h h' => Nat.le_trans h h'⟩

/-- **The chunks of a well-formed block**, sorted, lie one behind the other. -/
theorem WF.inOrder (h : WF mb) : InOrder mb.omin mb.size (mb.chunks.insertionSort offsetLe) := by
  have hperm := perm_insertionSort offsetLe mb.chunks
  have hmem : ∀ c ∈ mb.chunks.insertionSort offsetLe, c.entry ∈ mb.entries := fun c hc => by
    rw [← map_entry_chunks]
    exact mem_map_of_mem (hperm.mem_iff.1 hc)
  refine ⟨fun c hc => (h.inside _ (hmem c hc)).1, fun c hc => (h.inside _ (hmem c hc)).2, ?_⟩
  have hle : (mb.chunks.insertionSort offsetLe).Pairwise offsetLe := pairwise_insertionSort _ _
  have hapart : (mb.chunks.insertionSort offsetLe).Pairwise fun c c' => Apart c.entry c'.entry := by
    refine (hperm.pairwise_iff fun h => Apart.symm h).2 ?_
    have h1 := h.apart
    rwa [← map_entry_chunks, pairwise_map] at h1
  refine (hle.and hapart).imp_of_mem fun {c c'} _ hc' hcc => ?_
  -- otherwise the later one would end before the earlier one begins
  have h8 := h.size_le_entry (hmem c' hc')
  rcases hcc.2 with h1 | h1
  · exact h1
  · have h2 : c.offset ≤ c'.offset := hcc.1
    have h3 : c'.offset + c'.size ≤ c.offset := h1
    have h4 : 8 ≤ c'.size := h8
    omega

theorem total_perm {mc' : List MetaChunk} (h : mc.Perm mc') : total mc = total mc' :=
  (h.map MetaChunk.size).sum_eq

theorem total_chunks (mb : MetaBlock) : total mb.chunks = (mb.entries.map MetaEntry.size).sum := by
  rw [← map_entry_chunks, map_map]
  rfl

theorem checkChunks_eq (h : InOrder oo hi mc) (n : ℕ) (hon : o + n ≤ hi) :
    ∃ o' n', checkChunks oo o n mc = some (oo + total mc, o', n') ∧ o' + n' ≤ hi := by
  induction mc generalizing oo o n with
  | nil => exact ⟨o, n, rfl, hon⟩
  | cons c mc ih =>
    have hge := h.ge c mem_cons_self
    obtain ⟨o', n', h1, h2⟩ := ih (h.tail.mono (Nat.add_le_add_right hge _)) c.size
      (h.le c mem_cons_self)
    refine ⟨o', n', ?_, h2⟩
    rw [checkChunks, if_neg (Nat.not_lt.2 hge), h1, total_cons, Nat.add_assoc]

/-- **`metaChunks` does not fail.** -/
theorem WF.metaChunks (h : WF mb) : metaChunks mb = some (mb.chunks.insertionSort offsetLe) := by
  obtain ⟨o', n', h1, h2⟩ := checkChunks_eq h.inOrder (o := mb.omin) 0 h.omin_le
  have hf := h.free_eq
  rw [total_perm (perm_insertionSort offsetLe _), total_chunks] at h1
  rw [Vac.metaChunks, h1, Option.bind_some, if_neg (Nat.not_lt.2 h2)]
  refine if_neg (not_not.2 ?_)
  show (mb.size : ℤ) - ((mb.omin + _ : ℕ) : ℤ) = mb.free
  omega

/-- **A hole lies apart from every chunk.** -/
theorem findHole_spec (h : InOrder o hi mc) (hp : findHole n j o mc = some p) (hj : hi ≤ j) :
    o ≤ p ∧ p + n ≤ j ∧ ∀ c ∈ mc, Apart c.entry ⟨p, n⟩ := by
  induction mc generalizing o with
  | nil =>
    rw [findHole] at hp
    obtain ⟨h1, h2⟩ := Option.ite_none_right_eq_some.1 hp
    cases h2
    exact ⟨le_rfl, h1, fun c hc => absurd hc not_mem_nil⟩
  | cons c mc ih =>
    have hge := h.ge c mem_cons_self
    have hle := h.le c mem_cons_self
    rw [findHole] at hp
    split at hp
    next h1 =>
      obtain rfl := Option.some.inj hp
      refine ⟨le_rfl, by omega, fun c' hc => Or.inr ?_⟩
      rcases mem_cons.1 hc with rfl | hc
      · exact h1
      · have h2 := h.tail.ge c' hc
        show o + n ≤ c'.offset
        omega
    next h1 =>
      obtain ⟨h2, h3, h4⟩ := ih h.tail hp
      refine ⟨by omega, h3, fun c' hc => ?_⟩
      rcases mem_cons.1 hc with rfl | hc
      · exact Or.inl h2
      · exact h4 c' hc

/-! ### Compaction -/

/-- The chunks one right behind the other, from `oo` on. -/
def relocate (oo : ℕ) : List MetaChunk → List MetaChunk
  | [] => []
  | c :: cs => { c with offset := oo } :: relocate (oo + c.size) cs

theorem inOrder_relocate (oo : ℕ) (mc : List MetaChunk) :
    InOrder oo (oo + total mc) (relocate oo mc) := by
  induction mc generalizing oo with
  | nil =>
    exact ⟨fun c hc => absurd hc not_mem_nil, fun c hc => absurd hc not_mem_nil, List.Pairwise.nil⟩
  | cons c mc ih =>
    have h1 := ih (oo + c.size)
    rw [Nat.add_assoc, ← total_cons] at h1
    refine ⟨fun c' hc => ?_, fun c' hc => ?_, pairwise_cons.2 ⟨h1.ge, h1.next⟩⟩
    · rcases mem_cons.1 hc with rfl | hc
      · exact le_rfl
      · exact Nat.le_trans (Nat.le_add_right _ _) (h1.ge c' hc)
    · rcases mem_cons.1 hc with rfl | hc
      · rw [total_cons]
        exact Nat.add_le_add_left (Nat.le_add_right _ _) _
      · exact h1.le c' hc

/-- What the loop of `mbCompact` makes of a buffer. -/
structure Compacted (d d' : Buffer) (oo : ℕ) (mc : List MetaChunk) : Prop where
  /-- The table has the new offsets. -/
  offset : relocate oo mc = mc.map fun c => { c with offset := d'.get16 (slot c.index) }
  /-- The bytes have moved with them. -/
  bytes : ∀ c ∈ mc, d'.load (d'.get16 (slot c.index)) c.size = d.load c.offset c.size
  /-- Before the first chunk nothing else changes. -/
  rest : ∀ j < oo, (∀ c ∈ mc, j < slot c.index ∨ slot c.index + 2 ≤ j) → d' j = d j

theorem slot_apart {i : ℕ} (h : i ≠ k) : slot i + 4 ≤ slot k ∨ slot k + 4 ≤ slot i := by
  rcases Nat.lt_or_ge i k with h1 | h1
  · exact Or.inl (slot_succ i ▸ slot_mono h1)
  · exact Or.inr (slot_succ k ▸ slot_mono (by omega))

variable {base : ℕ}

/-- One chunk moved down to `oo`. -/
theorem compact_step (hb : slot c.index + 4 ≤ base) (hoo : base ≤ oo)
    (hd : d.get16 (slot c.index) = c.offset) (hsmall : oo < 65536)
    (hd' : d' = if c.offset = oo then d
      else (d.move oo c.offset c.size).put16 (slot c.index) oo) :
    d'.get16 (slot c.index) = oo ∧ d'.load oo c.size = d.load c.offset c.size ∧
      ∀ j, j < oo ∨ oo + c.size ≤ j → j < slot c.index ∨ slot c.index + 2 ≤ j → d' j = d j := by
  by_cases h : c.offset = oo
  · rw [if_pos h] at hd'
    subst hd'
    exact ⟨hd.trans h, by rw [h], fun j _ _ => rfl⟩
  · rw [if_neg h] at hd'
    subst hd'
    refine ⟨Buffer.get16_put16 _ _ hsmall, ?_, fun j h1 h2 => ?_⟩
    · rw [Buffer.put16, Buffer.load_store_of_disjoint (Or.inr (by rw [length_beBytes]; omega)),
        Buffer.move]
      have h1 := Buffer.load_store d oo (d.load c.offset c.size)
      rwa [Buffer.length_load] at h1
    · rw [Buffer.put16_apply_of_ne _ h2, Buffer.move_apply_of_ne _ h1]

/-- **The loop of `mbCompact`** loses nothing: a chunk never moves up, so that what it is moved
over has been moved before. -/
theorem compactFrom_spec (h : InOrder oo hi mc) (hi : hi < 65536)
    (hbase : ∀ c ∈ mc, slot c.index + 4 ≤ base) (hoo : base ≤ oo)
    (hd : ∀ c ∈ mc, d.get16 (slot c.index) = c.offset)
    (hnodup : mc.Pairwise fun c c' => c.index ≠ c'.index) :
    (compactFrom d oo mc).2 = oo + total mc ∧ Compacted d (compactFrom d oo mc).1 oo mc := by
  induction mc generalizing d oo with
  | nil =>
    exact ⟨rfl, rfl, fun c hc => absurd hc not_mem_nil, fun j _ _ => rfl⟩
  | cons c mc ih =>
    have hge := h.ge c mem_cons_self
    have hle := h.le c mem_cons_self
    have hb := hbase c mem_cons_self
    have hne := (pairwise_cons.1 hnodup).1
    have hnext := (pairwise_cons.1 h.next).1
    rw [compactFrom]
    generalize hd1 : (if c.offset = oo then d
      else (d.move oo c.offset c.size).put16 (slot c.index) oo) = d1
    obtain ⟨h1, h2, h3⟩ := compact_step hb hoo (hd c mem_cons_self) (by omega) hd1.symm
    -- the chunks behind this one are still where they were
    have hd1' : ∀ c' ∈ mc, d1.get16 (slot c'.index) = c'.offset := fun c' hc => by
      have h4 := hbase c' (mem_cons_of_mem c hc)
      rw [← hd c' (mem_cons_of_mem c hc)]
      refine Buffer.get16_congr fun k hk => h3 _ (by omega) ?_
      rcases slot_apart (hne c' hc) with h5 | h5 <;> omega
    have hload : ∀ c' ∈ mc, d1.load c'.offset c'.size = d.load c'.offset c'.size := fun c' hc =>
      Buffer.load_congr fun k _ => h3 _ (by have := hnext c' hc; omega) (by
        have := hnext c' hc
        omega)
    obtain ⟨ih1, ih2⟩ := ih (d := d1) (h.tail.mono (Nat.add_le_add_right hge _))
      (fun c' hc => hbase c' (mem_cons_of_mem c hc)) (by omega) hd1'
      (pairwise_cons.1 hnodup).2
    have hslot : (compactFrom d1 (oo + c.size) mc).1.get16 (slot c.index) = oo := by
      refine Eq.trans (Buffer.get16_congr fun k hk => ih2.rest _ (by omega) fun c' hc => ?_) h1
      rcases slot_apart (hne c' hc) with h5 | h5 <;> omega
    refine ⟨by rw [ih1, total_cons, Nat.add_assoc], ?_, fun c' hc => ?_, fun j hj hj' => ?_⟩
    · rw [relocate, map_cons, hslot, ih2.offset]
    · rcases mem_cons.1 hc with rfl | hc
      · rw [hslot, ← h2]
        refine Buffer.load_congr fun k hk => ih2.rest _ (by omega) fun c'' hc' => ?_
        have h4 := hbase c'' (mem_cons_of_mem c' hc')
        omega
      · rw [ih2.bytes c' hc, hload c' hc]
    · rw [ih2.rest j (by omega) fun c' hc => hj' c' (mem_cons_of_mem c hc)]
      exact h3 j (Or.inl hj) (hj' c mem_cons_self)

theorem mem_chunks : c ∈ mb.chunks ↔ c.index < mb.nindex ∧ c.entry = entryAt mb.buf c.index := by
  rw [chunks, mem_map]
  constructor
  · rintro ⟨i, hi, rfl⟩
    exact ⟨mem_range.1 hi, rfl⟩
  · rintro ⟨hi, he⟩
    refine ⟨c.index, mem_range.2 hi, ?_⟩
    rw [← he]
    rfl

/-- What the moves of entries within a block leave. -/
structure Moved (mb mb' : MetaBlock) : Prop where
  wf : WF mb'
  maxsize_eq : mb'.maxsize = mb.maxsize
  maxindex_eq : mb'.maxindex = mb.maxindex
  nindex_eq : mb'.nindex = mb.nindex
  botch_eq : mb'.botch = mb.botch
  records_eq : mb'.records = mb.records

theorem Moved.refl (h : WF mb) : Moved mb mb := ⟨h, rfl, rfl, rfl, rfl, rfl⟩

theorem map_record_chunks (mb : MetaBlock) (d : Buffer) :
    (mb.chunks.map fun c => record d c.entry) = mb.entries.map (record d) := by
  rw [← map_entry_chunks, map_map]
  rfl

theorem chunks_nodup (mb : MetaBlock) : mb.chunks.Pairwise fun c c' => c.index ≠ c'.index := by
  have h : (mb.chunks.map MetaChunk.index).Nodup := by
    have h1 : mb.chunks.map MetaChunk.index = List.range mb.nindex := by
      rw [chunks, map_map]
      exact map_id _
    rw [h1]
    exact nodup_range
  exact pairwise_map.1 h

/-- The table behind the compaction of the sorted chunks. -/
theorem WF.chunks_compact (h : WF mb)
    (hc : Compacted mb.buf (mbCompact mb mc).buf mb.omin mc) :
    (mbCompact mb mc).chunks =
      mb.chunks.map fun c => { c with offset := (mbCompact mb mc).buf.get16 (slot c.index) } := by
  rw [chunks, chunks, map_map]
  refine map_congr_left fun i hi => ?_
  have hi' : i < mb.nindex := mem_range.1 hi
  have hsize : (entryAt (mbCompact mb mc).buf i).size = (entryAt mb.buf i).size := by
    refine Buffer.get16_congr fun k hk => hc.rest _ ?_ fun c _ => ?_
    · have h1 := slot_le_omin (Nat.le_trans hi' h.nindex_le : i + 1 ≤ mb.maxindex)
      rw [slot_succ] at h1
      omega
    · by_cases hci : i = c.index
      · rw [← hci]
        omega
      · rcases slot_apart hci with h1 | h1 <;> omega
  show (⟨_, (entryAt (mbCompact mb mc).buf i).size, i⟩ : MetaChunk) =
    ⟨_, (entryAt mb.buf i).size, i⟩
  rw [hsize]
  rfl

/-- **Compaction** keeps every record and leaves no hole. -/
theorem WF.compact (h : WF mb) : Moved mb (mbCompact mb (mb.chunks.insertionSort offsetLe)) ∧
      (mbCompact mb (mb.chunks.insertionSort offsetLe)).size = mb.omin + total mb.chunks := by
  have hperm := perm_insertionSort offsetLe mb.chunks
  have hio := h.inOrder
  have hsz := h.size_le
  have hsmall := h.small
  generalize mb.chunks.insertionSort offsetLe = mc at hperm hio ⊢
  have hmem : ∀ c ∈ mc, c.index < mb.nindex ∧ c.entry = entryAt mb.buf c.index := fun c hc =>
    mem_chunks.1 (hperm.mem_iff.1 hc)
  obtain ⟨hsize, hcomp⟩ := compactFrom_spec (d := mb.buf) hio (by omega)
    (fun c hc => by
      have h1 := slot_le_omin (Nat.le_trans (hmem c hc).1 h.nindex_le : c.index + 1 ≤ mb.maxindex)
      rwa [slot_succ] at h1)
    le_rfl (fun c hc => (congrArg MetaEntry.p (hmem c hc).2).symm)
    ((hperm.pairwise_iff Ne.symm).2 (chunks_nodup mb))
  have hsize' : (mbCompact mb mc).size = mb.omin + total mb.chunks := by
    rw [← total_perm hperm]
    exact hsize
  have hchunks := h.chunks_compact hcomp
  have hrel : (mbCompact mb mc).chunks.Perm (relocate mb.omin mc) := by
    rw [hchunks, hcomp.offset]
    exact (hperm.map _).symm
  have hin := inOrder_relocate mb.omin mc
  have hrecords : (mbCompact mb mc).records = mb.records := by
    rw [records, records, ← map_record_chunks, ← map_record_chunks, hchunks, map_map]
    exact map_congr_left fun c hc => hcomp.bytes c (hperm.mem_iff.2 hc)
  have htotal : total (mbCompact mb mc).chunks = total mb.chunks := by
    rw [hchunks, total, total, map_map]
    rfl
  have hle : mb.omin + total mb.chunks ≤ mb.size := by
    rw [← total_perm hperm]
    exact hio.total_le h.omin_le
  have hmem' : ∀ e ∈ (mbCompact mb mc).entries, ∃ c ∈ relocate mb.omin mc, c.entry = e := by
    intro e he
    rw [← map_entry_chunks] at he
    obtain ⟨c, hc, rfl⟩ := mem_map.1 he
    exact ⟨c, hrel.mem_iff.1 hc, rfl⟩
  have ho : (mbCompact mb mc).omin = mb.omin := rfl
  refine ⟨⟨?_, rfl, rfl, rfl, rfl, hrecords⟩, hsize'⟩
  exact
    { small := h.small
      omin_le := by
        rw [hsize', ho]
        exact Nat.le_add_right _ _
      size_le := by
        rw [hsize']
        exact Nat.le_trans hle h.size_le
      nindex_le := h.nindex_le
      inside := fun e he => by
        obtain ⟨c, hc, rfl⟩ := hmem' e he
        rw [hsize', ← total_perm hperm]
        exact ⟨hin.ge c hc, hin.le c hc⟩
      isRecord := fun e he => by
        have h1 : record (mbCompact mb mc).buf e ∈ mb.records := by
          rw [← hrecords]
          exact mem_map_of_mem he
        obtain ⟨e', he', h2⟩ := mem_map.1 h1
        rw [← h2]
        exact h.isRecord e' he'
      apart := by
        rw [← map_entry_chunks, pairwise_map]
        refine (hrel.pairwise_iff fun h => Apart.symm h).2 (hin.next.imp fun h => Or.inl h)
      free_eq := by
        rw [hsize', ← total_chunks, htotal, ho]
        show (0 : ℤ) = _
        omega
      sorted := by
        rw [hrecords]
        exact h.sorted }

/-! ### Allocation -/

/-- What the search for space leaves. -/
structure Space (mb mb' : MetaBlock) (p n : ℕ) : Prop where
  moved : Moved mb mb'
  ge : mb'.omin ≤ p
  le : p + n ≤ mb'.maxsize
  apart : ∀ e ∈ mb'.entries, Apart e ⟨p, n⟩

/-- Space behind the last used byte. -/
theorem Moved.space (h : Moved mb mb') (hn : mb'.size + n ≤ mb'.maxsize) :
    Space mb mb' mb'.size n where
  moved := h
  ge := h.wf.omin_le
  le := hn
  apart := fun e he => Or.inl (h.wf.inside e he).2

/-- **Space is found** where there is enough of it, and nowhere else. -/
theorem WF.alloc (h : WF mb) (n : ℕ) : (∃ mb' p, mbAlloc mb n = (mb', some p) ∧ Space mb mb' p n ∧
      (n : ℤ) ≤ mb.maxsize - mb.size + mb.free) ∨
    mbAlloc mb n = (mb, none) ∧ (mb.maxsize - mb.size + mb.free : ℤ) < n := by
  have hfree := h.free_eq
  have hle : mb.omin + total mb.chunks ≤ mb.size := by
    rw [← total_perm (perm_insertionSort offsetLe mb.chunks)]
    exact h.inOrder.total_le h.omin_le
  rw [← total_chunks] at hfree
  rw [mbAlloc]
  by_cases h1 : mb.size + n ≤ mb.maxsize
  · rw [if_pos h1]
    exact Or.inl ⟨mb, mb.size, rfl, (Moved.refl h).space h1, by omega⟩
  by_cases h2 : (mb.maxsize - mb.size + mb.free : ℤ) < n
  · rw [if_neg h1, if_pos h2]
    exact Or.inr ⟨rfl, h2⟩
  rw [if_neg h1, if_neg h2, h.metaChunks, allocChunks]
  refine Or.inl ?_
  rcases hp : findHole n mb.maxsize mb.omin (mb.chunks.insertionSort offsetLe) with _ | p
  · -- no hole is big enough, all of them together are
    obtain ⟨hmoved, hsize⟩ := h.compact
    have hroom : (mbCompact mb (mb.chunks.insertionSort offsetLe)).size + n ≤
        (mbCompact mb (mb.chunks.insertionSort offsetLe)).maxsize := by
      rw [hsize, hmoved.maxsize_eq]
      omega
    refine ⟨_, _, ?_, hmoved.space hroom, by omega⟩
    rw [allocHole, allocCompact]
    exact if_pos hroom
  · obtain ⟨h3, h4, h5⟩ := findHole_spec h.inOrder hp h.size_le
    refine ⟨mb, p, rfl, ⟨Moved.refl h, h3, h4, fun e he => ?_⟩, by omega⟩
    rw [← map_entry_chunks] at he
    obtain ⟨c, hc, rfl⟩ := mem_map.1 he
    exact h5 c ((perm_insertionSort offsetLe mb.chunks).mem_iff.2 hc)

theorem zeroEnd_spec (d : Buffer) (fuel p : ℕ) :
    p ≤ zeroEnd d fuel p ∧ zeroEnd d fuel p ≤ p + fuel ∧
      ∀ j, p ≤ j → j < zeroEnd d fuel p → d j = 0 := by
  induction fuel generalizing p with
  | zero => exact ⟨le_rfl, le_rfl, fun j h1 h2 => absurd h2 (Nat.not_lt.2 h1)⟩
  | succ fuel ih =>
    rw [zeroEnd]
    by_cases h : d p = 0
    · obtain ⟨h1, h2, h3⟩ := ih (p + 1)
      rw [if_pos h]
      refine ⟨by omega, by omega, fun j hj hj' => ?_⟩
      rcases Nat.eq_or_lt_of_le hj with rfl | hj
      · exact h
      · exact h3 j hj hj'
    · rw [if_neg h]
      exact ⟨le_rfl, Nat.le_add_right _ _, fun j h1 h2 => absurd h2 (Nat.not_lt.2 h1)⟩

/-- The entries of a split, apart from the one at the place of the split. -/
theorem WF.apart_split (h : WF mb) (hs : mb.entries = l₁ ++ me :: l₂) :
    ∀ e ∈ l₁ ++ l₂, e ∈ mb.entries ∧ Apart e me := by
  have h1 := h.apart
  rw [hs, pairwise_append, pairwise_cons] at h1
  rw [hs]
  intro e he
  rcases mem_append.1 he with he | he
  · exact ⟨mem_append_left _ he, h1.2.2 e he me mem_cons_self⟩
  · exact ⟨mem_append_right _ (mem_cons_of_mem _ he), (h1.2.1.1 e he).symm⟩

/-- The entries behind a move, split where they were before. -/
theorem Moved.split (h : Moved mb mb') (hs : mb.entries = l₁ ++ me :: l₂) :
    ∃ l₁' me' l₂', mb'.entries = l₁' ++ me' :: l₂' ∧ l₁'.length = l₁.length ∧
      l₁'.map (record mb'.buf) = l₁.map (record mb.buf) ∧
      l₂'.map (record mb'.buf) = l₂.map (record mb.buf) := by
  have hr := h.records_eq
  rw [records, records, hs, map_append, map_cons] at hr
  obtain ⟨l₁', t, h1, h2, h3⟩ := map_eq_append_iff.1 hr
  obtain ⟨me', l₂', rfl, -, h4⟩ := map_eq_cons_iff.1 h3
  exact ⟨l₁', me', l₂', h1, by simpa using congrArg List.length h2, h2, h4⟩

/-- What a change of the size of an entry leaves: space for it that is apart from the other
entries. -/
structure Resized (mb mb' : MetaBlock) (l₁ l₂ : List MetaEntry) (p n : ℕ) : Prop where
  moved : Moved mb mb'
  split : ∃ l₁' me' l₂', mb'.entries = l₁' ++ me' :: l₂' ∧ l₁'.length = l₁.length ∧
    l₁'.map (record mb'.buf) = l₁.map (record mb.buf) ∧
    l₂'.map (record mb'.buf) = l₂.map (record mb.buf) ∧ ∀ e ∈ l₁' ++ l₂', Apart e ⟨p, n⟩
  ge : mb'.omin ≤ p
  le : p + n ≤ mb'.maxsize

/-- **The space that an entry is given** is apart from every other entry. -/
theorem WF.resize (h : WF mb) (hs : mb.entries = l₁ ++ me :: l₂) (n : ℕ) :
    (∃ mb' p, mbResize mb me n = (mb', some ⟨p, n⟩) ∧ Resized mb mb' l₁ l₂ p n) ∨
    mbResize mb me n = (mb, none) := by
  have hsmall := h.small
  have hmem : me ∈ mb.entries := by simp [hs]
  obtain ⟨hlo, hhi⟩ := h.inside me hmem
  have hsz := h.size_le
  rw [mbResize]
  by_cases h1 : n ≤ me.size
  · rw [if_pos h1]
    refine Or.inl ⟨mb, me.p, rfl, Moved.refl h, ⟨l₁, me, l₂, hs, rfl, rfl, rfl, ?_⟩, hlo, by omega⟩
    intro e he
    rcases (h.apart_split hs e he).2 with h2 | h2
    · exact Or.inl h2
    · exact Or.inr (by show me.p + n ≤ e.p; omega)
  rw [if_neg h1]
  obtain ⟨h2, h3, h4⟩ := zeroEnd_spec mb.buf (mb.maxsize - (me.p + me.size)) (me.p + me.size)
  generalize zeroEnd mb.buf (mb.maxsize - (me.p + me.size)) (me.p + me.size) = q at h2 h3 h4 ⊢
  by_cases h5 : n ≤ q - me.p
  · have hu : ushort n = n := Nat.mod_eq_of_lt (by omega)
    rw [if_pos h5, hu]
    refine Or.inl ⟨mb, me.p, rfl, Moved.refl h, ⟨l₁, me, l₂, hs, rfl, rfl, rfl, ?_⟩, hlo, by omega⟩
    intro e he
    obtain ⟨he', h6⟩ := h.apart_split hs e he
    rcases h6 with h6 | h6
    · exact Or.inl h6
    · -- the first byte of an entry is not zero, so the entry begins behind the zero bytes
      refine Or.inr (Nat.le_of_not_lt fun h7 => ?_)
      have h8 : e.p < me.p + n := h7
      exact (h.isRecord e he').first (h4 e.p h6 (by omega))
  · rw [if_neg h5]
    rcases h.alloc n with ⟨mb', p, h6, h7, -⟩ | ⟨h6, -⟩
    · have h8 := h7.le
      rw [h7.moved.maxsize_eq] at h8
      have hu : ushort n = n := Nat.mod_eq_of_lt (by omega)
      obtain ⟨l₁', me', l₂', h9, h10, h11, h12⟩ := h7.moved.split hs
      refine Or.inl ⟨mb', p, by rw [h6, Option.map_some, hu], h7.moved,
        ⟨l₁', me', l₂', h9, h10, h11, h12, fun e he => h7.apart e ?_⟩, h7.ge, h7.le⟩
      rw [h9]
      rcases mem_append.1 he with he | he
      · exact mem_append_left _ he
      · exact mem_append_right _ (mem_cons_of_mem _ he)
    · exact Or.inr (by rw [h6, Option.map_none])

end Vac

end Fossil

end Plan9
