import Plan9.Fossil.MetaAccess
import Plan9.Fossil.MetaSpace

/-!
# Directory entries there and back

`dePack` writes a directory entry and `deUnpack` takes it apart again. What comes back is the
entry without what is not written: the size and the three `plan9` fields of older versions are
zero, the flag of the qid space is 1, and an entry without the flag has no qid space
(`Plan9.Fossil.Vac.FullEntry.kept`). This is so whenever the size of the packed entry fits in the
16 bits that a table of entries has for it (`Plan9.Fossil.Vac.deUnpack_dePack`).
-/

namespace Plan9

namespace Fossil

namespace Vac

open Lib Lib.Access List

/-! ### Every field -/

/-- `struct DirEntry`, every field. -/
structure FullEntry where
  elem : Str
  entry : UInt32
  gen : UInt32
  mentry : UInt32
  mgen : UInt32
  size : UInt64
  qid : UInt64
  uid : Str
  gid : Str
  mid : Str
  mtime : UInt32
  mcount : UInt32
  ctime : UInt32
  atime : UInt32
  mode : UInt32
  plan9 : Int32
  p9path : UInt64
  p9version : UInt32
  qidSpace : Int32
  qidOffset : UInt64
  qidMax : UInt64
deriving DecidableEq

namespace FullEntry

/-- What `deSize` and `dePack` look at. -/
def packed (dir : FullEntry) : DirEntry where
  elem := dir.elem
  entry := dir.entry.toNat
  gen := dir.gen.toNat
  mentry := dir.mentry.toNat
  mgen := dir.mgen.toNat
  qid := dir.qid.toNat
  uid := dir.uid
  gid := dir.gid
  mid := dir.mid
  mtime := dir.mtime.toNat
  mcount := dir.mcount.toNat
  ctime := dir.ctime.toNat
  atime := dir.atime.toNat
  mode := dir.mode.toNat
  qidSpace := if dir.qidSpace = 0 then none else some (dir.qidOffset.toNat, dir.qidMax.toNat)

/-- The entry as far as it is stored. -/
def kept (dir : FullEntry) : FullEntry :=
  { dir with
    size := 0, plan9 := 0, p9path := 0, p9version := 0
    qidSpace := if dir.qidSpace = 0 then 0 else 1
    qidOffset := if dir.qidSpace = 0 then 0 else dir.qidOffset
    qidMax := if dir.qidSpace = 0 then 0 else dir.qidMax }

/-- **All but the size is stored** of an entry with none of the old fields, whose flag is a
truth value and is set if there is a qid space. -/
theorem kept_eq_iff (dir : FullEntry) : dir.kept = { dir with size := 0 } ↔
    (dir.plan9 = 0 ∧ dir.p9path = 0 ∧ dir.p9version = 0) ∧
      (dir.qidSpace = 0 ∧ dir.qidOffset = 0 ∧ dir.qidMax = 0 ∨ dir.qidSpace = 1) := by
  have h01 : (0 : Int32) ≠ 1 := by decide
  rw [kept, FullEntry.mk.injEq]
  by_cases h : dir.qidSpace = 0
  · simp only [h, if_true, true_and, h01, or_false, and_assoc, eq_comm (a := (0 : Int32)),
      eq_comm (a := (0 : UInt32)), eq_comm (a := (0 : UInt64))]
  · simp only [h, if_false, true_and, and_true, false_and, false_or, and_assoc,
      eq_comm (a := (0 : Int32)), eq_comm (a := (0 : UInt32)), eq_comm (a := (0 : UInt64)),
      eq_comm (a := (1 : Int32))]

end FullEntry

/-- The fields as `deUnpack` sets them; the others it has cleared. -/
def OldEntry.full (dir : OldEntry) : FullEntry where
  elem := dir.elem
  entry := UInt32.ofNat dir.entry
  gen := UInt32.ofNat dir.gen
  mentry := UInt32.ofNat dir.mentry
  mgen := UInt32.ofNat dir.mgen
  size := 0
  qid := UInt64.ofNat dir.qid
  uid := dir.uid
  gid := dir.gid
  mid := dir.mid
  mtime := UInt32.ofNat dir.mtime
  mcount := UInt32.ofNat dir.mcount
  ctime := UInt32.ofNat dir.ctime
  atime := UInt32.ofNat dir.atime
  mode := UInt32.ofNat dir.mode
  plan9 := if dir.plan9 = none then 0 else 1
  p9path := UInt64.ofNat (dir.plan9.getD (0, 0)).1
  p9version := UInt32.ofNat (dir.plan9.getD (0, 0)).2
  qidSpace := if dir.qidSpace = none then 0 else 1
  qidOffset := UInt64.ofNat (dir.qidSpace.getD (0, 0)).1
  qidMax := UInt64.ofNat (dir.qidSpace.getD (0, 0)).2

namespace FullEntry

/-- What comes back of a packed entry is what is stored of it. -/
theorem full_packed (dir : FullEntry) : OldEntry.full ⟨dir.packed, none⟩ = dir.kept := by
  rw [OldEntry.full, kept, packed]
  by_cases h : dir.qidSpace = 0
  · simp [h]
  · simp [h]

end FullEntry

/-! ### Reading what was written -/

namespace Traced

variable {k : ℕ} {dir : DirEntry}

theorem cut_eq (s : Str) : cut s.1 = s := by
  refine Subtype.ext (takeWhile_eq_self_iff.2 fun b hb => ?_)
  simp only [decide_eq_true_eq]
  exact fun h0 => s.2 (h0 ▸ hb)

/-- **A string is read back.** -/
theorem reads_stringUnpack (s : Str) (h : s.1.length < 65536) :
    Reads k stringUnpack (stringPack s) s := by
  have hcut : Reads k (pure (cut s.1) : Taker Fault Str) [] s := by
    rw [cut_eq]
    exact Reads.give k s
  have hs : Reads k (do let b ← Taker.bytes Fault.badMeta s.1.length; return cut b) s.1 s := by
    have hbind := Reads.bind (f := fun b => pure (cut b)) (Reads.bytes Fault.badMeta rfl) hcut
    rwa [append_nil] at hbind
  exact Reads.bind (Reads.number_beBytes Fault.badMeta _ 2 h) hs

/-- The generations of an entry of version 9. -/
theorem reads_generations (entry : ℕ) {gen mentry mgen : ℕ} (h1 : gen < 256 ^ 4)
    (h2 : mentry < 256 ^ 4) (h3 : mgen < 256 ^ 4) :
    Reads k (generations 9 entry) (beBytes 4 gen ++ (beBytes 4 mentry ++ beBytes 4 mgen))
      (gen, mentry, mgen) := by
  have hlen (v : ℕ) : (beBytes 4 v).length = 4 := length_beBytes 4 v
  have hgive : Reads k (pure (gen, mentry, mgen) : Taker Fault _) [] (gen, mentry, mgen) :=
    Reads.give k _
  have hbytes := Reads.bytes (k := ([] : List UInt8).length + k) Fault.badMeta
    (l := beBytes 4 gen ++ (beBytes 4 mentry ++ beBytes 4 mgen)) (n := 3 * 4) (by simp)
  have hbind := hbytes.bind (f := fun b =>
    pure (beVal (b.take 4), beVal ((b.drop 4).take 4), beVal (b.drop 8))) (b := (gen, mentry, mgen))
    (by
      rw [take_left' (hlen gen), drop_left' (hlen gen), take_left' (hlen mentry),
        show 8 = 4 + 4 from rfl, ← drop_drop, drop_left' (hlen gen),
        drop_left' (hlen mentry), beVal_beBytes h1, beVal_beBytes h2, beVal_beBytes h3]
      exact hgive)
  rw [append_nil] at hbind
  exact hbind

theorem options_end (version p : ℕ) (o : Options) :
    options version o ⟨p, 0⟩ = pure (o, ⟨p, 0⟩) := by
  rw [options]
  exact if_neg (Nat.lt_irrefl 0)

/-- **The optional section is read back.** -/
theorem reads_options (mcount : ℕ) (h : ∀ s ∈ dir.qidSpace, s.1 < 256 ^ 8 ∧ s.2 < 256 ^ 8) :
    Reads 0 (options 9 ⟨mcount, none, none⟩) dir.options ⟨mcount, none, dir.qidSpace⟩ := by
  intro p d hd
  rcases hq : dir.qidSpace with _ | ⟨qidOffset, qidMax⟩
  · have hnil : dir.options = [] := by rw [DirEntry.options, hq]
    rw [hnil]
    show Stays Set.univ (options 9 _ ⟨p, 0⟩) d _
    rw [options_end]
    exact stays_pure.2 ⟨rfl, rfl⟩
  · obtain ⟨h1, h2⟩ := h _ hq
    have hopt : dir.options = beBytes 1 deQidSpace ++ (beBytes 2 (2 * 8) ++
        (beBytes 8 qidOffset ++ beBytes 8 qidMax)) := by
      rw [DirEntry.options, hq]
      simp only [append_assoc]
    have hlen : dir.options.length = 1 + (2 + (8 + 8)) := by simp [hopt]
    rw [hlen, hopt, Buffer.load_add, Buffer.load_add, Buffer.load_add] at hd
    obtain ⟨ht, hd⟩ := append_inj hd (by simp)
    obtain ⟨hnn, hd⟩ := append_inj hd (by simp)
    obtain ⟨ho, hm⟩ := append_inj hd (by simp)
    have ht' : beVal (d.load p 1) = deQidSpace := by
      rw [ht]
      exact beVal_beBytes (by decide)
    have hnn' : beVal (d.load (p + 1) 2) = 16 := by
      rw [hnn]
      exact beVal_beBytes (by decide)
    have ho' : beVal (d.load (p + 3) 8) = qidOffset := by
      rw [show p + 3 = p + 1 + 2 from rfl, ho, beVal_beBytes h1]
    have hm' : beVal (d.load (p + 3 + 8) 8) = qidMax := by
      rw [show p + 3 + 8 = p + 1 + 2 + 8 from rfl, hm, beVal_beBytes h2]
    have hne : deQidSpace ≠ dePlan9 := by decide
    have hend : ((⟨p, 1 + (2 + (8 + 8)) + 0⟩ : Slice).drop 3).drop 16 = ⟨p + 19, 0⟩ := rfl
    have hpos : 0 < 1 + (2 + (8 + 8)) + 0 := by omega
    rw [hlen, options]
    simp only [if_pos hpos, stays_bind, stays_require, stays_num, ht', hnn', option, if_neg hne,
      if_true, ho', hm', stays_pure, hend, options_end]
    -- every place will do, and no condition fails
    have hall : ∀ i n j, i ≤ j → j < i + n → j ∈ (Set.univ : Set ℕ) :=
      fun _ _ j _ _ => Set.mem_univ j
    refine ⟨fun _ => ⟨hall p 1, hall (p + 1) 2, fun _ => ⟨fun _ => ?_, fun hno => ?_⟩,
      fun hno => ?_⟩, fun hno => ?_⟩
    · exact ⟨hall (p + 3) 8, hall (p + 3 + 8) 8, trivial, trivial⟩
    · exact absurd ⟨trivial, trivial⟩ hno
    · exact absurd (by omega) hno
    · exact absurd (by omega) hno

/-- The numbers of an entry fit in their fields, and so do the lengths of its strings. -/
structure InRange (dir : DirEntry) : Prop where
  entry : dir.entry < 256 ^ 4
  gen : dir.gen < 256 ^ 4
  mentry : dir.mentry < 256 ^ 4
  mgen : dir.mgen < 256 ^ 4
  qid : dir.qid < 256 ^ 8
  mtime : dir.mtime < 256 ^ 4
  mcount : dir.mcount < 256 ^ 4
  ctime : dir.ctime < 256 ^ 4
  atime : dir.atime < 256 ^ 4
  mode : dir.mode < 256 ^ 4
  qidSpace : ∀ s ∈ dir.qidSpace, s.1 < 256 ^ 8 ∧ s.2 < 256 ^ 8
  size : deSize dir < 65536

/-- The five numbers behind the strings. -/
def times (dir : DirEntry) : List UInt8 :=
  beBytes 4 dir.mtime ++ (beBytes 4 dir.mcount ++ (beBytes 4 dir.ctime ++
    (beBytes 4 dir.atime ++ beBytes 4 dir.mode)))

theorem bytes_eq (dir : DirEntry) :
    dir.bytes = beBytes 4 dirMagic ++ ([] ++ (beBytes 2 9 ++ ([] ++ (stringPack dir.elem ++
      (beBytes 4 dir.entry ++ ((beBytes 4 dir.gen ++ (beBytes 4 dir.mentry ++
        beBytes 4 dir.mgen)) ++ (beBytes 8 dir.qid ++ ([] ++ (stringPack dir.uid ++
          (stringPack dir.gid ++ (stringPack dir.mid ++ (times dir ++
            (dir.options ++ []))))))))))))) := by
  simp only [DirEntry.bytes, times, append_assoc, nil_append, append_nil]

theorem times_spec (h : InRange dir) :
    beVal ((times dir).take 4) = dir.mtime ∧ beVal (((times dir).drop 4).take 4) = dir.mcount ∧
      beVal (((times dir).drop 8).take 4) = dir.ctime ∧
      beVal (((times dir).drop 12).take 4) = dir.atime ∧
      beVal ((times dir).drop 16) = dir.mode := by
  have hlen (v : ℕ) : (beBytes 4 v).length = 4 := length_beBytes 4 v
  have h8 : (times dir).drop 8 = ((times dir).drop 4).drop 4 := by rw [drop_drop]
  have h12 : (times dir).drop 12 = ((times dir).drop 8).drop 4 := by rw [drop_drop]
  have h16 : (times dir).drop 16 = ((times dir).drop 12).drop 4 := by rw [drop_drop]
  rw [h16, h12, h8, times, drop_left' (hlen _), drop_left' (hlen _),
    drop_left' (hlen _), drop_left' (hlen _), take_left' (hlen _),
    take_left' (hlen _), take_left' (hlen _), take_left' (hlen _)]
  exact ⟨beVal_beBytes h.mtime, beVal_beBytes h.mcount, beVal_beBytes h.ctime,
    beVal_beBytes h.atime, beVal_beBytes h.mode⟩

/-- **A packed entry is read back**, field by field. -/
theorem reads_fields (h : InRange dir) : Reads 0 fields dir.bytes ⟨dir, none⟩ := by
  have hsize := h.size
  rw [deSize] at hsize
  obtain ⟨hmtime, hmcount, hctime, hatime, hmode⟩ := times_spec h
  have hlast : Reads 0 (do
      let o ← options 9 ⟨beVal (((times dir).drop 4).take 4), none, none⟩
      return { dir with
        mtime := beVal ((times dir).take 4), mcount := o.mcount
        ctime := beVal (((times dir).drop 8).take 4)
        atime := beVal (((times dir).drop 12).take 4), mode := beVal ((times dir).drop 16)
        qidSpace := o.qidSpace, plan9 := o.plan9 : OldEntry }) (dir.options ++ []) ⟨dir, none⟩ := by
    rw [hmtime, hmcount, hctime, hatime, hmode]
    exact (reads_options dir.mcount h.qidSpace).bind (Reads.give 0 _)
  rw [bytes_eq]
  refine (Reads.number_beBytes _ _ 4 (by decide)).bind ((Reads.demand _ _ rfl).bind ?_)
  refine (Reads.number_beBytes _ _ 2 (by decide)).bind ((Reads.demand _ _ (by decide)).bind ?_)
  refine (reads_stringUnpack dir.elem (by omega)).bind ?_
  refine (Reads.number_beBytes _ _ 4 h.entry).bind ?_
  refine (reads_generations dir.entry h.gen h.mentry h.mgen).bind ?_
  refine (Reads.number_beBytes _ _ 8 h.qid).bind ((Reads.give _ ()).bind ?_)
  refine (reads_stringUnpack dir.uid (by omega)).bind ?_
  refine (reads_stringUnpack dir.gid (by omega)).bind ?_
  refine (reads_stringUnpack dir.mid (by omega)).bind ?_
  exact (Reads.bytes _ (by simp [times])).bind hlast

end Traced

theorem FullEntry.inRange (dir : FullEntry) (h : deSize dir.packed < 65536) :
    Traced.InRange dir.packed where
  entry := dir.entry.toNat_lt
  gen := dir.gen.toNat_lt
  mentry := dir.mentry.toNat_lt
  mgen := dir.mgen.toNat_lt
  qid := dir.qid.toNat_lt
  mtime := dir.mtime.toNat_lt
  mcount := dir.mcount.toNat_lt
  ctime := dir.ctime.toNat_lt
  atime := dir.atime.toNat_lt
  mode := dir.mode.toNat_lt
  qidSpace := by
    intro s hs
    by_cases h0 : dir.qidSpace = 0
    · simp [packed, h0] at hs
    · simp only [packed, if_neg h0, Option.mem_def, Option.some.injEq] at hs
      subst hs
      exact ⟨dir.qidOffset.toNat_lt, dir.qidMax.toNat_lt⟩
  size := h

/-- A stored entry is taken apart. -/
theorem deUnpack_stored (dir : FullEntry) (p : ℕ) (d : Buffer) (h : deSize dir.packed < 65536) :
    (Traced.deUnpack ⟨p, deSize dir.packed⟩ (d.store p dir.packed.bytes)).result =
      .ok ⟨dir.packed, none⟩ := by
  have hread := Traced.reads_fields (dir.inRange h) p (d.store p dir.packed.bytes)
    (Buffer.load_store d p _)
  rw [Nat.add_zero, length_bytes] at hread
  have hun : Stays Set.univ (Traced.deUnpack ⟨p, deSize dir.packed⟩)
      (d.store p dir.packed.bytes) fun r _ => r = .ok ⟨dir.packed, none⟩ := by
    rw [Traced.deUnpack, stays_bind]
    refine hread.imp ?_
    rintro r m ⟨rfl, rfl⟩
    exact stays_bind.2 ((stays_require_of rfl).2 (stays_pure.2 rfl))
  exact hun.2

/-- **Directory entries there and back.** An entry whose size fits in 16 bits is packed into
exactly that many bytes, and taken apart it is the entry as far as it is stored. -/
theorem deUnpack_dePack (dir : FullEntry) (me : MetaEntry) (d : Buffer)
    (hsize : deSize dir.packed < 65536) (hme : me.size = ushort (deSize dir.packed)) :
    ∃ d' e, dePack dir.packed me d = some d' ∧ d' = d.store me.p dir.packed.bytes ∧
      dir.packed.bytes.length = deSize dir.packed ∧
      (Traced.deUnpack me d').result = .ok e ∧ e.full = dir.kept := by
  have hlen := length_bytes dir.packed
  have hme' : me.size = deSize dir.packed := hme.trans (Nat.mod_eq_of_lt hsize)
  refine ⟨d.store me.p dir.packed.bytes, ⟨dir.packed, none⟩, ?_, rfl, hlen, ?_,
    dir.full_packed⟩
  · rw [dePack, hlen, hme', if_pos rfl]
  · have hstored := deUnpack_stored dir me.p d hsize
    rw [← hme'] at hstored
    exact hstored

/-- An entry with nothing in it. -/
def FullEntry.blank : FullEntry where
  elem := ⟨[], List.not_mem_nil⟩
  entry := 0
  gen := 0
  mentry := 0
  mgen := 0
  size := 0
  qid := 0
  uid := ⟨[], List.not_mem_nil⟩
  gid := ⟨[], List.not_mem_nil⟩
  mid := ⟨[], List.not_mem_nil⟩
  mtime := 0
  mcount := 0
  ctime := 0
  atime := 0
  mode := 0
  plan9 := 0
  p9path := 0
  p9version := 0
  qidSpace := 0
  qidOffset := 0
  qidMax := 0

/-- A file with an owner, in a part of the tree that has its own space of qids. -/
def FullEntry.owned : FullEntry := { FullEntry.blank with
  elem := letters 7, entry := 2, gen := 5, mentry := 3, mgen := 5, size := 8192
  qid := 0x1234567890, uid := letters 6, gid := letters 3, mid := letters 6
  mtime := 1300000000, mcount := 1, ctime := 1200000000, atime := 0xFFFFFFFF, mode := 0o644
  qidSpace := 1, qidOffset := 0x100000000, qidMax := 0x200000000 }

theorem deUnpack_dePack_owned : ∃ d' e, dePack FullEntry.owned.packed ⟨40, 99⟩ (fun _ => 0) =
      some d' ∧ d' = Buffer.store (fun _ => 0) 40 FullEntry.owned.packed.bytes ∧
      FullEntry.owned.packed.bytes.length = deSize FullEntry.owned.packed ∧
      (Traced.deUnpack ⟨40, 99⟩ d').result = .ok e ∧ e.full = FullEntry.owned.kept :=
  deUnpack_dePack FullEntry.owned ⟨40, 99⟩ (fun _ => 0) (by decide) rfl

theorem lost (dir : FullEntry) (hsize : deSize dir.packed = 58)
    (hkept : dir.kept ≠ { dir with size := 0 }) :
    ∃ e, (Traced.deUnpack ⟨0, 58⟩ (Buffer.store (fun _ => 0) 0 dir.packed.bytes)).result = .ok e ∧
      e.full ≠ { dir with size := 0 } := by
  have hstored := deUnpack_stored dir 0 (fun _ => 0) (by omega)
  rw [hsize] at hstored
  exact ⟨_, hstored, by rwa [dir.full_packed]⟩

/-- **Not every entry comes back.** The strings may be too long together, the old fields are not
written, and neither is a qid space without its flag. -/
theorem deUnpack_dePack_losses :
    (∃ dir : FullEntry, dir = { FullEntry.blank with
        elem := letters 20000, uid := letters 20000, gid := letters 20000, mid := letters 20000 } ∧
      ∀ me d, me.size = ushort (deSize dir.packed) → dePack dir.packed me d = none) ∧
    (∃ dir : FullEntry, dir = { FullEntry.blank with plan9 := 1 } ∧
      ∃ e, (Traced.deUnpack ⟨0, 58⟩ (Buffer.store (fun _ => 0) 0 dir.packed.bytes)).result = .ok e ∧
        e.full ≠ { dir with size := 0 }) ∧
    ∃ dir : FullEntry, dir = { FullEntry.blank with qidOffset := 1 } ∧
      ∃ e, (Traced.deUnpack ⟨0, 58⟩ (Buffer.store (fun _ => 0) 0 dir.packed.bytes)).result = .ok e ∧
        e.full ≠ { dir with size := 0 } := by
  refine ⟨⟨_, rfl, ?_⟩, ⟨_, rfl, lost _ rfl (by decide)⟩, ⟨_, rfl, lost _ rfl (by decide)⟩⟩
  intro me d hme
  have hlen : (letters 20000).1.length = 20000 := List.length_replicate
  have hsize : deSize (FullEntry.packed { FullEntry.blank with
      elem := letters 20000, uid := letters 20000, gid := letters 20000,
      mid := letters 20000 }) = 80058 := by
    rw [deSize]
    simp only [FullEntry.packed, hlen]
    rfl
  rw [dePack, length_bytes, hme, hsize]
  exact if_neg (by rw [ushort]; omega)

end Vac

end Fossil

end Plan9
