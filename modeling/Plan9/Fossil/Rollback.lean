import Plan9.Fossil.Cache
import Plan9.Lib.Bitmap
import Plan9.Lib.Buffer
import Plan9.Lib.UndoLog

/-!
# Writing an older version of a block

A block of pointers or of entries may point at blocks that are not on the disk yet. Every update of
such a block records the block that has to be written first, together with what the slot had
before. When the block is written the records are pruned, and what is left is undone in a copy of
the block, which is written in its place.

The data of a block is a buffer and the set of slots that are done is the bitmap `dmap`; a history
is a list of updates, the newest first.

* `Plan9.Fossil.entryUnpack_bytes` – what is saved of an entry is the entry;
* `Plan9.Fossil.Dirty.run_spec` – the records of a history are its undo log;
* `Plan9.Fossil.pruneLoop_eq` – `blockWrite` prunes the log;
* `Plan9.Fossil.Dirty.newest_of_blockWrite` – the image is the newest version of the block that is
  safe to write.
-/

namespace Plan9

namespace Fossil

open Lib Lib.UndoLog List Option
open BlockState (Part IoState Prior)

/-! ### Entries -/

/-- `struct Entry`. -/
structure Entry where
  gen : ℕ
  psize : ℕ
  dsize : ℕ
  depth : UInt8
  flags : UInt8
  size : ℕ
  score : List UInt8
  tag : ℕ
  snap : ℕ
  archive : UInt8
deriving DecidableEq

/-- `VtEntryLocal`. -/
def vtEntryLocal : UInt8 := 0x20

/-- `_VtEntryDepthMask`. -/
def vtEntryDepthMask : UInt8 := 0x1c

/-- `_VtEntryDepthShift`. -/
def vtEntryDepthShift : UInt8 := 2

/-- `NilBlock`. -/
def nilBlock : ℕ := 2 ^ 32 - 1

/-- `globalToLocal`. -/
def globalToLocal (score : List UInt8) : ℕ :=
  if score.take 16 = List.replicate 16 0 then beVal (score.drop 16) else nilBlock

/-- `localToGlobal`. -/
def localToGlobal (addr : ℕ) : List UInt8 := List.replicate 16 0 ++ beBytes 4 addr

/-- `entryUnpack`, of the bytes of the entry. -/
def entryUnpack (p : List UInt8) : Entry :=
  let b := p.getD 8 0
  let isLocal := (b &&& ~~~vtEntryDepthMask) &&& vtEntryLocal ≠ 0
  { gen := beVal (p.take 4)
    psize := beVal ((p.drop 4).take 2)
    dsize := beVal ((p.drop 6).take 2)
    flags := b &&& ~~~vtEntryDepthMask
    depth := (b &&& vtEntryDepthMask) >>> vtEntryDepthShift
    size := beVal ((p.drop 14).take 6)
    archive := if isLocal then p.getD 27 0 else 0
    snap := if isLocal then beVal ((p.drop 28).take 4) else 0
    tag := if isLocal then beVal ((p.drop 32).take 4) else 0
    score := if isLocal then List.replicate 16 0 ++ (p.drop 36).take 4 else (p.drop 20).take 20 }

/-- The byte that `entryPack` writes for the flags. -/
def Entry.flagByte (e : Entry) : UInt8 :=
  e.flags ||| ((e.depth <<< vtEntryDepthShift) &&& vtEntryDepthMask)

/-- The bytes that `entryPack` writes. -/
def Entry.bytes (e : Entry) : List UInt8 :=
  beBytes 4 e.gen ++ (beBytes 2 e.psize ++ (beBytes 2 e.dsize ++ (e.flagByte ::
    (List.replicate 5 0 ++ (beBytes 6 e.size ++
      if e.flagByte &&& vtEntryLocal ≠ 0 then
        List.replicate 7 0 ++ (e.archive :: (beBytes 4 e.snap ++ (beBytes 4 e.tag ++
          (e.score.drop 16).take 4)))
      else e.score.take 20)))))

/-- `entryPack`, which aborts where a local entry has a score that is not local. -/
def entryPack (e : Entry) : Option (List UInt8) :=
  if e.flagByte &&& vtEntryLocal ≠ 0 ∧ globalToLocal e.score = nilBlock then none else some e.bytes

set_option maxRecDepth 4096 in
/-- The flags and the depth make up the byte, and the depth is beside the flag `VtEntryLocal`. -/
theorem flags_split (b : UInt8) : (b &&& ~~~vtEntryDepthMask) |||
      ((((b &&& vtEntryDepthMask) >>> vtEntryDepthShift) <<< vtEntryDepthShift) &&&
        vtEntryDepthMask) = b ∧
    (b &&& ~~~vtEntryDepthMask) &&& vtEntryLocal = b &&& vtEntryLocal := by
  have h : ∀ n : Fin 256, (UInt8.ofFin n &&& ~~~vtEntryDepthMask) |||
        ((((UInt8.ofFin n &&& vtEntryDepthMask) >>> vtEntryDepthShift) <<< vtEntryDepthShift) &&&
          vtEntryDepthMask) = UInt8.ofFin n ∧
      (UInt8.ofFin n &&& ~~~vtEntryDepthMask) &&& vtEntryLocal =
        UInt8.ofFin n &&& vtEntryLocal := by decide
  exact h b.toFin

theorem flagByte_entryUnpack (p : List UInt8) : (entryUnpack p).flagByte = p.getD 8 0 :=
  (flags_split _).1

/-- An entry that is written in parts. -/
theorem entryUnpack_append {g p d s t : List UInt8} (f : UInt8) (hg : g.length = 4)
    (hp : p.length = 2) (hd : d.length = 2) (hs : s.length = 6) :
    entryUnpack (g ++ (p ++ (d ++ (f :: (replicate 5 0 ++ (s ++ t)))))) =
      let isLocal := (f &&& ~~~vtEntryDepthMask) &&& vtEntryLocal ≠ 0
      { gen := beVal g
        psize := beVal p
        dsize := beVal d
        flags := f &&& ~~~vtEntryDepthMask
        depth := (f &&& vtEntryDepthMask) >>> vtEntryDepthShift
        size := beVal s
        archive := if isLocal then t.getD 7 0 else 0
        snap := if isLocal then beVal ((t.drop 8).take 4) else 0
        tag := if isLocal then beVal ((t.drop 12).take 4) else 0
        score := if isLocal then replicate 16 0 ++ (t.drop 16).take 4 else t.take 20 } := by
  rcases g with _ | ⟨g0, _ | ⟨g1, _ | ⟨g2, _ | ⟨g3, _ | ⟨g4, g⟩⟩⟩⟩⟩ <;> try cases hg
  rcases p with _ | ⟨p0, _ | ⟨p1, _ | ⟨p2, p⟩⟩⟩ <;> try cases hp
  rcases d with _ | ⟨d0, _ | ⟨d1, _ | ⟨d2, d⟩⟩⟩ <;> try cases hd
  rcases s with _ | ⟨s0, _ | ⟨s1, _ | ⟨s2, _ | ⟨s3, _ | ⟨s4, _ | ⟨s5, _ | ⟨s6, s⟩⟩⟩⟩⟩⟩⟩ <;>
    try cases hs
  rfl

/-- **What is saved of an entry** is the entry. -/
theorem entryUnpack_bytes {p : List UInt8} (h : p.length = 40) :
    entryUnpack (entryUnpack p).bytes = entryUnpack p := by
  have hlen : ∀ i n, i + n ≤ 40 → ((p.drop i).take n).length = n := by
    intro i n hin
    rw [length_take, length_drop]
    omega
  have hbytes : ∀ i n, i + n ≤ 40 → beVal (beBytes n (beVal ((p.drop i).take n))) =
      beVal ((p.drop i).take n) := by
    intro i n hin
    refine beVal_beBytes ?_
    conv_rhs => rw [← hlen i n hin]
    exact beVal_lt _
  have hlocal := (flags_split (p.getD 8 0)).2
  have h4 := hbytes 0 4 (by decide)
  rw [drop_zero] at h4
  rw [Entry.bytes, flagByte_entryUnpack, entryUnpack_append _ (length_beBytes 4 _)
    (length_beBytes 2 _) (length_beBytes 2 _) (length_beBytes 6 _)]
  simp only [hlocal]
  have htail : ∀ (a : UInt8) (n t : List UInt8) (l : List UInt8), n.length = 4 → t.length = 4 →
      (replicate 7 0 ++ (a :: (n ++ (t ++ l)))).getD 7 0 = a ∧
      ((replicate 7 0 ++ (a :: (n ++ (t ++ l)))).drop 8).take 4 = n ∧
      ((replicate 7 0 ++ (a :: (n ++ (t ++ l)))).drop 12).take 4 = t ∧
      (replicate 7 0 ++ (a :: (n ++ (t ++ l)))).drop 16 = l := by
    intro a n t l hn ht
    have h8 : (replicate 7 0 ++ (a :: (n ++ (t ++ l)))).drop 8 = n ++ (t ++ l) := rfl
    have h12 : (replicate 7 0 ++ (a :: (n ++ (t ++ l)))).drop 12 = t ++ l := by
      rw [show 12 = 8 + 4 from rfl, ← drop_drop, h8, drop_left' hn]
    have h16 : (replicate 7 0 ++ (a :: (n ++ (t ++ l)))).drop 16 = l := by
      rw [show 16 = 12 + 4 from rfl, ← drop_drop, h12, drop_left' ht]
    refine ⟨rfl, ?_, ?_, h16⟩
    · rw [h8, take_left' hn]
    · rw [h12, take_left' ht]
  by_cases hl : p.getD 8 0 &&& vtEntryLocal ≠ 0
  · obtain ⟨ha, hn, ht, hs⟩ := htail (entryUnpack p).archive (beBytes 4 (entryUnpack p).snap)
      (beBytes 4 (entryUnpack p).tag) (((entryUnpack p).score.drop 16).take 4)
      (length_beBytes 4 _) (length_beBytes 4 _)
    simp only [if_pos hl, ha, hn, ht, hs]
    simp only [entryUnpack, hlocal, if_pos hl, h4, hbytes 4 2 (by decide), hbytes 6 2 (by decide),
      hbytes 14 6 (by decide), hbytes 28 4 (by decide), hbytes 32 4 (by decide)]
    have hscore : (((replicate 16 0 ++ (p.drop 36).take 4).drop 16).take 4).take 4 =
        (p.drop 36).take 4 := by
      rw [drop_left' (length_replicate ..), take_take, take_take]
      rfl
    rw [hscore]
  · simp only [if_neg hl, entryUnpack, hlocal, h4, hbytes 4 2 (by decide),
      hbytes 6 2 (by decide), hbytes 14 6 (by decide), take_take, Nat.min_self]

/-! ### Blocks with slots -/

/-- A block holds pointers, or entries. -/
inductive Kind
  | pointers
  | entries
deriving DecidableEq

/-- The size of a slot: `VtScoreSize` or `VtEntrySize`. -/
def Kind.width : Kind → ℕ
  | pointers => 20
  | entries => 40

/-- What a slot holds. -/
inductive Content
  | score (l : List UInt8)
  | entry (e : Entry)
deriving DecidableEq

/-- What the bytes of a slot mean. -/
def Kind.read : Kind → List UInt8 → Content
  | pointers, l => .score l
  | entries, l => .entry (entryUnpack l)

/-- The bytes that `blockDependency` saves. -/
def Content.pack : Content → Option (List UInt8)
  | .score l => some l
  | .entry e => entryPack e

/-- A version of a block that has to be written first. -/
structure Target where
  part : Part
  addr : UInt32
  vers : UInt32
deriving DecidableEq

/-- `struct BList` with what is needed for the roll back. -/
structure Dep where
  target : Target
  index : Option ℕ
  old : List UInt8

/-- A block of the cache, its data, and the list `b->prior`. -/
structure Dirty where
  kind : Kind
  data : Buffer
  prior : List Dep

/-- `blockDependency` for a block of pointers or of entries; `old` is what the caller has read
from the slot. `none` is an assertion or an abort. -/
def Dirty.blockDependency (b : Dirty) (bb : Target) (iostate : IoState) (index : Option ℕ)
    (old : Content) : Option Dirty :=
  if iostate = .clean then some b
  else if index = none ∧ bb.part = .data then none
  else if iostate ≠ .dirty then none
  else
    match index with
    | none => some { b with prior := ⟨bb, none, []⟩ :: b.prior }
    | some i => old.pack.map fun l => { b with prior := ⟨bb, some i, l⟩ :: b.prior }

/-- The bytes of a slot. -/
def Dirty.slot (b : Dirty) (i : ℕ) : List UInt8 := b.data.load (i * b.kind.width) b.kind.width

/-- What a process does to the block, with another block that is dirty. -/
inductive Event
  /-- It overwrites a slot, which may not be written before the other block. -/
  | write (index : ℕ) (bb : Target) (new : List UInt8)
  /-- Nothing of the block may be written before the other block. -/
  | order (bb : Target)

/-- A block none of whose slots has been updated. -/
def Dirty.fresh (k : Kind) (d : Buffer) : Dirty := ⟨k, d, []⟩

/-- One event. What is written to a slot has the size of a slot. -/
def Dirty.apply (b : Dirty) : Event → Option Dirty
  | .write i bb new =>
    if new.length = b.kind.width then
      ({ b with data := b.data.store (i * b.kind.width) new }).blockDependency bb .dirty (some i)
        (b.kind.read (b.slot i))
    else none
  | .order bb => b.blockDependency bb .dirty none (b.kind.read (b.slot 0))

/-- A history, the newest event first. -/
def Dirty.run (b : Dirty) : List Event → Option Dirty
  | [] => some b
  | e :: es => (b.run es).bind fun b => b.apply e

/-! ### `blockWrite` and `blockRollback` -/

/-- A block in the cache when no disk request for it is under way. -/
structure Cached where
  vers : UInt32
  iostate : IoState
  locked : Bool

/-- What `_cacheLocalLookup` returns. -/
inductive Lookup
  | gone
  | lockfail
  | found (iostate : IoState)
deriving DecidableEq

/-- `_cacheLocalLookup`. -/
def cacheLocalLookup (c : Part → UInt32 → Option Cached) (waitlock : Bool) (t : Target) : Lookup :=
  match c t.part t.addr with
  | none => .gone
  | some bb =>
    if bb.vers ≠ t.vers then .gone
    else if waitlock = false ∧ bb.locked = true then .lockfail
    else if bb.iostate = .readError ∨ bb.iostate = .ventiError then .gone
    else .found bb.iostate

/-- The slot is in `dmap`. -/
def inMap (dmap : Bitmap 8) : Option ℕ → Bool
  | none => false
  | some i => dmap.get i

/-- Put a slot into `dmap`: for the index -1 the bit is shifted out of the byte. -/
def setMap (dmap : Bitmap 8) : Option ℕ → Bitmap 8
  | none => dmap
  | some i => dmap.setBit (i / 8) (i % 8)

/-- The loop of `blockWrite`: what it makes of the list, and whether it goes on to `diskWrite`. -/
def pruneLoop (look : Target → Lookup) : Bitmap 8 → List Dep → List Dep × Bool
  | _, [] => ([], true)
  | dmap, p :: ps =>
    if inMap dmap p.index then pruneLoop look dmap ps
    else
      match look p.target with
      | .lockfail => (p :: ps, false)
      | .gone => pruneLoop look (setMap dmap p.index) ps
      | .found io =>
        if io = .clean then pruneLoop look dmap ps
        else if p.index = none then (p :: ps, false)
        else (p :: (pruneLoop look dmap ps).1, (pruneLoop look dmap ps).2)

/-- `blockWrite` for a dirty block. -/
def Dirty.blockWrite (b : Dirty) (c : Part → UInt32 → Option Cached) (waitlock : Bool) :
    Dirty × Bool :=
  ({ b with prior := (pruneLoop (cacheLocalLookup c waitlock) (fun _ => 0#8) b.prior).1 },
    (pruneLoop (cacheLocalLookup c waitlock) (fun _ => 0#8) b.prior).2)

/-- The loop of `blockRollback`, which asserts that every record has an index. -/
def rollbackLoop (width : ℕ) (buf : Buffer) : List Dep → Option Buffer
  | [] => some buf
  | p :: ps =>
    match p.index with
    | none => none
    | some i => rollbackLoop width (buf.store (i * width) p.old) ps

/-- What `blockRollback` returns: `b->data`, or a copy. -/
inductive Image
  | data
  | copy (buf : Buffer)

/-- `blockRollback`. -/
def Dirty.blockRollback (b : Dirty) : Option Image :=
  if b.prior.isEmpty then some .data
  else (rollbackLoop b.kind.width b.data b.prior).map Image.copy

/-- The bytes of an image of a block with these data. -/
def Image.bytes (data : Buffer) : Image → Buffer
  | .data => data
  | .copy buf => buf

/-! ### Histories and logs -/

/-- The updates of a history. -/
def updates : List Event → List (Update ℕ Target (List UInt8))
  | [] => []
  | .write i bb new :: es => ⟨i, bb, new⟩ :: updates es
  | .order _ :: es => updates es

/-- The record of an update. -/
def Dep.undo (p : Dep) : Option (Undo ℕ Target (List UInt8)) :=
  p.index.map fun i => ⟨i, p.target, p.old⟩

/-- What is saved of a slot. -/
def Kind.save (k : Kind) (l : List UInt8) : List UInt8 := (k.read l).pack.getD l

/-- The slots of a buffer. -/
def slots (k : Kind) (d : Buffer) (i : ℕ) : List UInt8 := d.load (i * k.width) k.width

variable {k : Kind} {d : Buffer} {i j : ℕ} {l : List UInt8} {b b' : Dirty} {es : List Event}

/-- **Writing a slot.** -/
theorem slots_store (hl : l.length = k.width) :
    slots k (d.store (i * k.width) l) = Function.update (slots k d) i l := by
  funext j
  rcases eq_or_ne j i with rfl | hne
  · rw [Function.update_self, slots, ← hl, Buffer.load_store]
  · rw [Function.update_of_ne hne, slots, slots, Buffer.load_store_of_disjoint]
    rw [hl]
    rcases Nat.lt_or_gt_of_ne hne with hlt | hgt
    · left
      have := Nat.mul_le_mul_right k.width (Nat.succ_le_of_lt hlt)
      rwa [Nat.succ_mul] at this
    · right
      have := Nat.mul_le_mul_right k.width (Nat.succ_le_of_lt hgt)
      rwa [Nat.succ_mul] at this

theorem length_slots (k : Kind) (d : Buffer) (i : ℕ) : (slots k d i).length = k.width :=
  Buffer.length_load _ _ _

/-- What is saved, where nothing aborts. -/
theorem Kind.save_eq_or (k : Kind) (l : List UInt8) :
    k.save l = l ∨ k = .entries ∧ k.save l = (entryUnpack l).bytes := by
  cases k with
  | pointers => exact Or.inl rfl
  | entries =>
    simp only [save, read, Content.pack, entryPack]
    split
    next => exact Or.inl rfl
    next => exact Or.inr ⟨trivial, rfl⟩

/-- **What is saved of a slot** means the same. -/
theorem Kind.read_save (k : Kind) (hl : l.length = k.width) : k.read (k.save l) = k.read l := by
  rcases k.save_eq_or l with h | ⟨rfl, h⟩
  · rw [h]
  · rw [h, read, read, entryUnpack_bytes hl]

theorem length_bytes_entryUnpack {p : List UInt8} (h : p.length = 40) :
    (entryUnpack p).bytes.length = 40 := by
  have hlocal := (flags_split (p.getD 8 0)).2
  rw [Entry.bytes, flagByte_entryUnpack]
  simp only [length_append, length_beBytes, length_cons, length_replicate]
  split
  next hl =>
    simp only [entryUnpack, hlocal, if_pos hl, length_append, length_replicate,
      length_cons, length_beBytes, length_take, length_drop, h]
    rfl
  next hl =>
    simp only [entryUnpack, hlocal, if_neg hl, length_take, length_drop, h]
    rfl

theorem Kind.length_save (k : Kind) (hl : l.length = k.width) : (k.save l).length = k.width := by
  rcases k.save_eq_or l with h | ⟨rfl, h⟩
  · rw [h, hl]
  · rw [h, length_bytes_entryUnpack hl]
    rfl

/-- **The records of a history** are its undo log. -/
theorem Dirty.run_spec (h : (fresh k d).run es = some b) : b.kind = k ∧
    slots k b.data = contents (slots k d) (updates es) ∧
    b.prior.filterMap Dep.undo = undoLog k.save (slots k d) (updates es) ∧
    (∀ u ∈ updates es, u.new.length = k.width) ∧
    ∀ p ∈ b.prior, p.index ≠ none → p.old.length = k.width := by
  induction es generalizing b with
  | nil =>
    cases h
    exact ⟨rfl, rfl, rfl, fun u hu => absurd hu not_mem_nil, fun p hp => absurd hp not_mem_nil⟩
  | cons e es ih =>
    rw [run, bind_eq_some_iff] at h
    obtain ⟨b₁, hrun, happly⟩ := h
    obtain ⟨hkind, hslots, hlog, hnew, hold⟩ := ih hrun
    cases e with
    | write i bb new =>
      rw [apply] at happly
      split at happly
      next hlen =>
        rw [blockDependency, if_neg (by decide), if_neg (fun h => by cases h.1),
          if_neg (fun h => h rfl), map_eq_some_iff] at happly
        obtain ⟨l, hpack, rfl⟩ := happly
        have hslot : b₁.slot i = contents (slots k d) (updates es) i := by
          rw [← hslots, ← hkind]
          rfl
        have hsave : l = k.save (contents (slots k d) (updates es) i) := by
          rw [← hslot, ← hkind, Kind.save, hpack, getD_some]
        refine ⟨hkind, ?_, ?_, ?_, ?_⟩
        · rw [hkind] at hlen ⊢
          simp only [updates, contents, ← hslots]
          exact slots_store hlen
        · have hundo : (Dep.mk bb (some i) l).undo = some (record k.save
              (contents (slots k d) (updates es)) ⟨i, bb, new⟩) := by
            rw [hsave]
            rfl
          rw [filterMap_cons_some hundo, hlog]
          rfl
        · intro u hu
          rcases mem_cons.1 hu with rfl | hu
          · rw [← hkind]
            exact hlen
          · exact hnew u hu
        · intro p hp hindex
          rcases mem_cons.1 hp with rfl | hp
          · rw [hsave, ← hslots, ← hkind]
            exact Kind.length_save _ (length_slots _ _ _)
          · exact hold p hp hindex
      next => cases happly
    | order bb =>
      rw [apply, blockDependency, if_neg (by decide)] at happly
      split at happly
      next => cases happly
      next =>
        rw [if_neg (fun h => h rfl)] at happly
        cases happly
        refine ⟨hkind, hslots, hlog, hnew, fun p hp hindex => ?_⟩
        rcases mem_cons.1 hp with rfl | hp
        · exact absurd rfl hindex
        · exact hold p hp hindex

/-! ### The image -/

/-- What `blockWrite` learns of a target. -/
def Lookup.fate : Lookup → Fate
  | .gone => .written
  | .lockfail => .dropped
  | .found io => if io = .clean then .dropped else .pending

variable {look : Target → Lookup} {dmap : Bitmap 8} {ps ks : List Dep}

theorem get_setMap (dmap : Bitmap 8) (i : ℕ) :
    (setMap dmap (some i)).get = Function.update dmap.get i true := by
  funext t
  rw [setMap, Bitmap.get_setBit (Nat.mod_lt i (by decide)), Nat.div_add_mod']
  rcases eq_or_ne t i with rfl | hne
  · rw [Function.update_self, decide_eq_true rfl, Bool.true_or]
  · rw [Function.update_of_ne hne, decide_eq_false hne, Bool.false_or]

/-- **`blockWrite` prunes the log**, and goes on if only updates are left. -/
theorem pruneLoop_eq (h : pruneLoop look dmap ps = (ks, true)) : ks.filterMap Dep.undo =
      prune (fun t => (look t).fate) dmap.get (ps.filterMap Dep.undo) ∧
    (∀ p ∈ ks, p.index ≠ none) ∧ ∀ p ∈ ks, p ∈ ps := by
  induction ps generalizing dmap ks with
  | nil =>
    obtain ⟨rfl, -⟩ := Prod.mk.inj h
    exact ⟨rfl, fun p hp => absurd hp not_mem_nil, fun p hp => hp⟩
  | cons p ps ih =>
    have hmore : ∀ {m}, pruneLoop look m ps = (ks, true) → ∀ {done},
        prune (fun t => (look t).fate) done ((p :: ps).filterMap Dep.undo) =
          prune (fun t => (look t).fate) m.get (ps.filterMap Dep.undo) →
        ks.filterMap Dep.undo = prune (fun t => (look t).fate) done ((p :: ps).filterMap Dep.undo) ∧
          (∀ q ∈ ks, q.index ≠ none) ∧ ∀ q ∈ ks, q ∈ p :: ps := by
      intro m hm done hsame
      obtain ⟨heq, hindex, hmem⟩ := ih hm
      exact ⟨heq.trans hsame.symm, hindex, fun q hq => mem_cons_of_mem p (hmem q hq)⟩
    rw [pruneLoop] at h
    cases hi : p.index with
    | none =>
      have hundo : p.undo = none := by rw [Dep.undo, hi, map_none]
      simp only [hi, inMap, setMap, Bool.false_eq_true, if_false] at h
      refine hmore (m := dmap) ?_ (by rw [filterMap_cons_none hundo])
      cases hlook : look p.target with
      | gone => simpa only [hlook] using h
      | lockfail => simp [hlook] at h
      | found io =>
        simp only [hlook] at h
        by_cases hio : io = .clean
        · rwa [if_pos hio] at h
        · rw [if_neg hio] at h
          simp at h
    | some i =>
      have hundo : p.undo = some ⟨i, p.target, p.old⟩ := by rw [Dep.undo, hi, map_some]
      have hcons := filterMap_cons_some (l := ps) hundo
      by_cases hdone : dmap.get i = true
      · -- the slot is done
        rw [if_pos (by rw [hi]; exact hdone)] at h
        exact hmore h (by rw [hcons, prune, if_pos hdone])
      · rw [if_neg (by rw [hi]; exact hdone)] at h
        cases hlook : look p.target with
        | gone =>
          -- its target is written
          simp only [hlook] at h
          refine hmore h ?_
          rw [hcons, prune, if_neg hdone, hi, get_setMap]
          simp only [hlook, Lookup.fate]
        | lockfail => simp [hlook] at h
        | found io =>
          simp only [hlook] at h
          by_cases hio : io = .clean
          · rw [if_pos hio] at h
            refine hmore h ?_
            rw [hcons, prune, if_neg hdone]
            simp only [hlook, Lookup.fate, if_pos hio]
          · -- its target is not, and the record is kept
            rw [if_neg hio, if_neg (by rw [hi]; exact some_ne_none i)] at h
            obtain ⟨rfl, hok⟩ := Prod.mk.inj h
            obtain ⟨heq, hindex, hmem⟩ := ih (Prod.ext rfl hok)
            refine ⟨?_, fun q hq => ?_, fun q hq => ?_⟩
            · rw [filterMap_cons_some hundo, heq, hcons, prune, if_neg hdone]
              simp only [hlook, Lookup.fate, if_neg hio]
            · rcases mem_cons.1 hq with rfl | hq
              · rw [hi]
                exact some_ne_none i
              · exact hindex q hq
            · rcases mem_cons.1 hq with rfl | hq
              · exact mem_cons_self
              · exact mem_cons_of_mem p (hmem q hq)

/-- **`blockRollback` undoes the log.** -/
theorem rollbackLoop_eq {buf : Buffer} (hindex : ∀ p ∈ ks, p.index ≠ none)
    (hold : ∀ p ∈ ks, p.old.length = k.width) :
    ∃ buf', rollbackLoop k.width buf ks = some buf' ∧
      slots k buf' = rollback (slots k buf) (ks.filterMap Dep.undo) := by
  induction ks generalizing buf with
  | nil => exact ⟨buf, rfl, rfl⟩
  | cons p ks ih =>
    obtain ⟨i, hi⟩ := ne_none_iff_exists'.1 (hindex p mem_cons_self)
    have hundo : p.undo = some ⟨i, p.target, p.old⟩ := by rw [Dep.undo, hi, map_some]
    obtain ⟨buf', hrun, hslots⟩ := @ih (buf.store (i * k.width) p.old)
      (fun q hq => hindex q (mem_cons_of_mem p hq))
      fun q hq => hold q (mem_cons_of_mem p hq)
    refine ⟨buf', ?_, ?_⟩
    · rw [rollbackLoop, hi]
      exact hrun
    · rw [hslots, slots_store (hold p mem_cons_self), filterMap_cons_some hundo, rollback]

/-- **The newest version that is safe to write**: a slot is as it is now unless one of its updates
has a target that is not written and none behind it has one that is; then the slot has what it had
before the oldest such update. No slot has what an update whose target is not written has put
there. -/
structure Newest (k : Kind) (fate : Target → Fate) (d : Buffer)
    (us : List (Update ℕ Target (List UInt8))) (data image : Buffer) : Prop where
  current : ∀ i, (∀ ys u xs, us = ys ++ u :: xs → u.slot = i → ¬Exposed fate u ys) →
    ∀ j, i * k.width ≤ j → j < i * k.width + k.width → image j = data j
  older : ∀ ys u xs, us = ys ++ u :: xs → Exposed fate u ys →
    (∀ zs v ws, xs = zs ++ v :: ws → v.slot = u.slot → ¬Exposed fate v (ys ++ u :: zs)) →
    k.read (slots k image u.slot) = k.read (contents (slots k d) xs u.slot)
  origin : ∀ i, k.read (slots k image i) = k.read (slots k d i) ∨
    ∃ u ∈ us, u.slot = i ∧ fate u.target ≠ .pending ∧
      k.read (slots k image i) = k.read u.new

theorem length_contents {us : List (Update ℕ Target (List UInt8))}
    (h : ∀ u ∈ us, u.new.length = k.width) (i : ℕ) :
    (contents (slots k d) us i).length = k.width := by
  rcases contents_origin (slots k d) us i with ⟨-, hd⟩ | ⟨ys, u, xs, rfl, -, -, hu⟩
  · rw [hd, length_slots]
  · rw [hu]
    exact h u (by simp)

/-- The two ways to look at an image. -/
theorem Dirty.blockRollback_eq (hindex : ∀ p ∈ b.prior, p.index ≠ none)
    (hold : ∀ p ∈ b.prior, p.old.length = b.kind.width) :
    ∃ image, b.blockRollback = some image ∧ slots b.kind (image.bytes b.data) =
        rollback (slots b.kind b.data) (b.prior.filterMap Dep.undo) ∧
      (b.prior = [] → image = .data) := by
  rw [blockRollback]
  cases hp : b.prior with
  | nil => exact ⟨.data, rfl, rfl, fun _ => rfl⟩
  | cons p ps =>
    rw [hp] at hindex hold
    obtain ⟨buf, hbuf, hslots⟩ := @rollbackLoop_eq b.kind (p :: ps) b.data hindex hold
    refine ⟨.copy buf, ?_, hslots, fun h => by cases h⟩
    rw [hbuf]
    rfl

/-- **Rolling back writes the newest safe version**, for every history, if `blockWrite` goes on to
write the block; and without targets that are not written this is the block itself. -/
theorem Dirty.newest_of_blockWrite {c : Part → UInt32 → Option Cached} {waitlock : Bool}
    (hrun : (fresh k d).run es = some b) (hwrite : b.blockWrite c waitlock = (b', true)) :
    ∃ image, b'.blockRollback = some image ∧
      Newest k (fun t => (cacheLocalLookup c waitlock t).fate) d (updates es) b.data
        (image.bytes b.data) ∧
      ((∀ u ∈ updates es, (cacheLocalLookup c waitlock u.target).fate ≠ .pending) →
        image = .data) := by
  obtain ⟨hkind, hslots, hlog, hnew, hold⟩ := run_spec hrun
  obtain ⟨rfl, hok⟩ := Prod.mk.inj hwrite
  obtain ⟨hprune, hindex, hmem⟩ := pruneLoop_eq (Prod.ext rfl hok)
  have hget : Bitmap.get (fun _ => 0#8) = fun _ => false := by
    funext t
    exact BitVec.getLsbD_zero
  rw [hlog, hget] at hprune
  obtain ⟨image, himage, hbytes, hnil⟩ := blockRollback_eq
    (b := { b with prior := (pruneLoop (cacheLocalLookup c waitlock) (fun _ => 0#8) b.prior).1 })
    hindex fun p hp => (hold p (hmem p hp) (hindex p hp)).trans (by rw [hkind])
  simp only [hprune, hkind, hslots] at hbytes
  refine ⟨image, himage, ⟨?_, ?_, ?_⟩, fun hnone => hnil ?_⟩
  · intro i hi j h1 h2
    have hsame := congrFun hbytes i
    rw [rollback_of_not_exposed hi, ← hslots, slots, slots] at hsame
    have hj : j - i * k.width < k.width := by omega
    have hbyte := congrArg (fun l : List UInt8 => l[j - i * k.width]?) hsame
    rw [List.getElem?_eq_getElem (by rw [Buffer.length_load]; exact hj),
      List.getElem?_eq_getElem (by rw [Buffer.length_load]; exact hj), Buffer.getElem_load,
      Buffer.getElem_load, Option.some.injEq, Nat.add_sub_cancel' h1] at hbyte
    exact hbyte
  · intro ys u xs hus hu hxs
    have hslot := congrFun hbytes u.slot
    rw [hus, rollback_of_exposed hu hxs] at hslot
    rw [hslot, Kind.read_save]
    refine length_contents (fun v hv => hnew v ?_) u.slot
    rw [hus]
    exact List.mem_append_right ys (List.mem_cons_of_mem u hv)
  · intro i
    obtain ⟨v, hv, hval⟩ := rollback_origin
      (fun t => (cacheLocalLookup c waitlock t).fate) k.save (slots k d)
      (updates es) i
    have hlen : v.length = k.width := by
      rcases hv with rfl | ⟨u, hu, -, -, rfl⟩
      · exact length_slots _ _ _
      · exact hnew u hu
    have hread : k.read (slots k (image.bytes b.data) i) = k.read v := by
      rw [hbytes]
      rcases hval with h | h
      · rw [h]
      · rw [h, Kind.read_save _ hlen]
    rw [hread]
    rcases hv with rfl | ⟨u, hu, hslot, hfate, rfl⟩
    · exact Or.inl rfl
    · exact Or.inr ⟨u, hu, hslot, hfate, rfl⟩
  · -- nothing is left of the log
    rw [prune_eq_nil hnone] at hprune
    refine List.eq_nil_iff_forall_not_mem.2 fun p hp => ?_
    obtain ⟨i, hi⟩ := Option.ne_none_iff_exists'.1 (hindex p hp)
    have hundo : p.undo = some ⟨i, p.target, p.old⟩ := by rw [Dep.undo, hi, Option.map_some]
    have hin := List.mem_filterMap.2 ⟨p, hp, hundo⟩
    rw [hprune] at hin
    cases hin

/-! ### A pointer that comes back -/

/-- The slot points at block 7, then at block 9, and then at block 7 again, which has been changed
in the meantime. -/
def around : List Event :=
  [.write 0 ⟨.data, 7, 2⟩ (localToGlobal 7), .write 0 ⟨.data, 9, 1⟩ (localToGlobal 9)]

/-- The block before that. -/
def pointsAt7 : Buffer := Buffer.store (fun _ => 0) 0 (localToGlobal 7)

/-- Neither block is written. -/
def bothDirty : Part → UInt32 → Option Cached := fun part addr =>
  if part = .data ∧ addr = 7 then some ⟨2, .dirty, false⟩
  else if part = .data ∧ addr = 9 then some ⟨1, .dirty, false⟩
  else none

/-- The version that is written points at block 7. -/
theorem around_newest : ∃ b b' image,
    (Dirty.fresh .pointers pointsAt7).run around = some b ∧
    b.blockWrite bothDirty true = (b', true) ∧ b'.blockRollback = some image ∧
    Newest .pointers (fun t => (cacheLocalLookup bothDirty true t).fate) pointsAt7
      (updates around) b.data (image.bytes b.data) := by
  have hrun : (Dirty.fresh .pointers pointsAt7).run around = some _ := rfl
  obtain ⟨image, himage, h, -⟩ :=
    @Dirty.newest_of_blockWrite .pointers pointsAt7 _ _ around bothDirty true hrun rfl
  exact ⟨_, _, image, hrun, rfl, himage, h⟩

/-- A slot of the image can hold a pointer to a block that is recorded and not written. -/
theorem around_pending : ∃ b b' image,
    (Dirty.fresh .pointers pointsAt7).run around = some b ∧
    b.blockWrite bothDirty true = (b', true) ∧ b'.blockRollback = some image ∧
    ∃ u ∈ updates around, (cacheLocalLookup bothDirty true u.target).fate = .pending ∧
      slots .pointers (image.bytes b.data) u.slot = localToGlobal u.target.addr.toNat := by
  refine ⟨_, _, _, rfl, rfl, rfl, ⟨0, ⟨.data, 7, 2⟩, localToGlobal 7⟩, ?_, rfl, rfl⟩
  exact List.mem_cons_self

end Fossil

end Plan9
