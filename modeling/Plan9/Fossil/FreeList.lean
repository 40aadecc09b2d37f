import Mathlib.Data.List.Basic
import Mathlib.Logic.Function.Basic
import Plan9.Lib.Run

/-!
# The free list of fossil

`cacheAllocBlock`, `cacheCountUsed`, `blockCopy` and `doRemoveLink` of `cache.c`, for the
labels of the blocks and the number of blocks in use that is kept beside them. Any number
of processes may be inside `doRemoveLink`, which gives up its locks before it goes down.

A block that is closed in the epoch it was made in can be used again at once, and a full
count leaves it out in every epoch; but `doRemoveLink` takes it off the number only if that
epoch is the one the number was counted for.

* `Plan9.Fossil.cacheCountUsed_right` – in every run without that, and without the other
  ways to lose a block, the number is what a full count gives;
* `Plan9.Fossil.closed_at_once_counted` – a run that ends with a wrong number.
-/

namespace Plan9

namespace Fossil

open Lib Option

/-! ### Labels -/

/-- `struct Label`. -/
structure Label where
  type : UInt8
  state : UInt8
  tag : UInt32
  epoch : UInt32
  epochClose : UInt32
deriving DecidableEq

/-- `BsFree`. -/
def bsFree : UInt8 := 0

/-- `BsBad`. -/
def bsBad : UInt8 := 0xFF

/-- `BsAlloc`. -/
def bsAlloc : UInt8 := (1 : UInt8) <<< 0

/-- `BsCopied`. -/
def bsCopied : UInt8 := (1 : UInt8) <<< 1

/-- `BsVenti`. -/
def bsVenti : UInt8 := (1 : UInt8) <<< 2

/-- `BsClosed`. -/
def bsClosed : UInt8 := (1 : UInt8) <<< 3

/-- `BsMask`. -/
def bsMask : UInt8 := bsAlloc ||| bsCopied ||| bsVenti ||| bsClosed

/-- `BtData`. -/
def btData : UInt8 := 0

/-- `BtDir`. -/
def btDir : UInt8 := (1 : UInt8) <<< 3

/-- `BtMax`. -/
def btMax : UInt8 := (1 : UInt8) <<< 4

/-- `~(u32int)0`, the closing epoch of a block that is not closed. -/
def notClosed : UInt32 := ~~~0

/-- The states that `labelUnpack` takes, with their closing epochs. -/
def stateOk (state : UInt8) (epochClose : UInt32) : Bool :=
  state = bsBad || state = bsFree ||
    (state &&& bsAlloc ≠ 0 && state &&& ~~~bsMask = 0 &&
      (if state &&& bsClosed ≠ 0 then epochClose ≠ notClosed else epochClose = notClosed))

namespace Label

variable (l : Label)

/-- `labelUnpack` takes the label. -/
def ok : Bool := l.type ≤ btMax && stateOk l.state l.epochClose

/-- The test of `cacheAllocBlock`, and of `cacheCountUsed`. -/
def usable (epochLow : UInt32) : Bool :=
  l.state = bsFree ||
    (l.state &&& bsClosed ≠ 0 && (l.epochClose ≤ epochLow || l.epoch = l.epochClose))

/-- A full count counts the block. -/
def counted (epochLow : UInt32) : Bool := l.ok && !l.usable epochLow

/-- The label of a block that is closed. -/
def close (epoch : UInt32) : Label :=
  { l with state := l.state ||| bsClosed, epochClose := epoch }

end Label

/-! ### The file system -/

/-- What `doRemoveLink` is told about a block: `struct BList`, as far as it uses it. -/
structure BList where
  addr : ℕ
  type : UInt8
  tag : UInt32
  epoch : UInt32
  recurse : Bool

/-- The children are unlinked too. -/
def BList.deep (p : BList) : Bool := p.recurse && p.type ≠ btData && p.type ≠ btDir

/-- Where a call of `doRemoveLink` is. -/
inductive Frame
  | entering (p : BList)
  /-- In front of slot `i` of the block. -/
  | walking (p : BList) (i : ℕ)
  /-- Waiting for `fl->lk`, to close the block in its own epoch; `l` is the label it had. -/
  | waiting (p : BList) (l : Label)

/-- The labels, the pointers and `struct FreeList`. -/
structure Fs where
  /-- `fl->end`. -/
  size : ℕ
  label : ℕ → Label
  /-- The addresses of the local blocks that the slots of a block point at. -/
  data : ℕ → ℕ → Option ℕ
  /-- `c->size / VtScoreSize`. -/
  slots : ℕ
  /-- `c->size / LabelSize`. -/
  lpb : ℕ
  last : ℕ
  nused : UInt32
  /-- `fl->epochLow`. -/
  epochLow : UInt32
  /-- `fs->elo`. -/
  elo : UInt32
  /-- `fs->ehi`. -/
  ehi : UInt32
  /-- `cacheAllocBlock` has returned without giving back `fl->lk`. -/
  stuck : Bool
  /-- The calls of `doRemoveLink` that each process is in. -/
  unlinking : ℕ → List Frame

/-- What the disk and the cache answer to one call of `cacheAllocBlock`. -/
structure AllocIo where
  /-- The first block of labels is loaded. -/
  start : Bool
  /-- The block of labels that begins with this address is loaded. -/
  page : ℕ → Bool
  /-- The block itself is loaded. -/
  part : ℕ → Bool
  /-- The block is not dirty in the cache. -/
  idle : ℕ → Bool
  /-- The block of labels is loaded again. -/
  again : ℕ → Bool
  /-- The label is set. -/
  set : Bool

/-- How the search for a block ends. -/
inductive Search
  | found (addr : ℕ)
  | full
  /-- The labels at `addr` cannot be loaded. -/
  | failed (addr : ℕ)
  /-- Loading the labels again fails. -/
  | failedAgain
  /-- The block cannot be loaded. -/
  | lost

namespace Fs

variable (s : Fs)

/-- The count of `cacheCountUsed`. -/
def recount (epochLow : UInt32) : ℕ :=
  (List.range s.size).countP fun a => (s.label a).counted epochLow

/-- `cacheCountUsed`: the number it returns. `ok` says that all labels can be loaded. -/
def cacheCountUsed (epochLow : UInt32) (ok : Bool) : UInt32 × Fs :=
  if s.epochLow = epochLow then (s.nused, s)
  else
    let nused := UInt32.ofNat (s.recount epochLow)
    (nused, if ok then { s with nused := nused, epochLow := epochLow } else s)

/-- The addresses in the order of the search. -/
def candidates : List ℕ :=
  List.range' (s.last + 1) (s.size - (s.last + 1)) ++ List.range s.size

/-- The loop of `cacheAllocBlock`. -/
def search (io : AllocIo) (epochLow : UInt32) : List ℕ → Search
  | [] => .full
  | a :: as =>
    if a % s.lpb = 0 ∧ io.page a = false then .failed a
    else if (s.label a).ok && (s.label a).usable epochLow then
      if io.part a = false then .lost
      else if io.idle a = false then
        if io.again a = false then .failedAgain else search io epochLow as
      else .found a
    else search io epochLow as

/-- Set the label of a block. -/
def setLabel (a : ℕ) (l : Label) : Fs := { s with label := Function.update s.label a l }

/-- `cacheAllocBlock`. -/
def cacheAllocBlock (io : AllocIo) (type : UInt8) (tag epoch epochLow : UInt32) : Option ℕ × Fs :=
  if io.start = false then (none, s)
  else
    match s.search io epochLow s.candidates with
    | .full => (none, { s with last := 0 })
    | .failed a => (none, { s with last := a })
    | .failedAgain => (none, s)
    | .lost => (none, { s with stuck := true })
    | .found a =>
      if io.set = false then (none, { s with last := a, stuck := true })
      else
        (some a, {
          s.setLabel a ⟨type, bsAlloc, tag, epoch, notClosed⟩ with
          last := a
          nused := s.nused + 1 })

/-- `blockCopy` behind the allocation of `bb`. `mark` says that the label of the old block can be
set, `undo` that the one of the new block can. -/
def finishCopy (b : Option ℕ) (bb : ℕ) (mark undo : Bool) : Fs :=
  match b with
  | none => s
  | some a =>
    if (s.label a).state &&& bsCopied ≠ 0 then s
    else if mark = true then
      s.setLabel a { s.label a with state := (s.label a).state ||| bsCopied }
    else if undo = true then s.setLabel bb ⟨btMax, bsFree, 0, 0, 0⟩
    else s

/-- The type of a block that is local, or has this type and is on Venti. -/
def blockType (b : Option ℕ) (type : UInt8) : UInt8 := b.elim type fun a => (s.label a).type

/-- `blockCopy`. -/
def blockCopy (b : Option ℕ) (type : UInt8) (io : AllocIo) (mark undo : Bool)
    (tag ehi elo : UInt32) : Fs :=
  match s.cacheAllocBlock io (s.blockType b type) tag ehi elo with
  | (none, s) => s
  | (some bb, s) => s.finishCopy b bb mark undo

/-- `fsEpochLow`. -/
def fsEpochLow (low : UInt32) (ok : Bool) : Fs :=
  if s.ehi < low ∨ ok = false then s else { s with elo := low }

/-! ### `doRemoveLink` -/

/-- The frames of a process. -/
def setFrames (c : ℕ) (frames : List Frame) : Fs :=
  { s with unlinking := Function.update s.unlinking c frames }

/-- `cacheLocalData` returns the block. -/
def loads (p : BList) (ok : Bool) : Bool :=
  ok && p.addr < s.size && (s.label p.addr).ok && (s.label p.addr).type = p.type &&
    (s.label p.addr).tag = p.tag

/-- The section of `doRemoveLink` that has `fl->lk`: `l` is written. -/
def closeLocked (c : ℕ) (p : BList) (l : Label) (set : Bool) (rest : List Frame) : Fs :=
  let s := if l.epoch = s.epochLow then { s with nused := s.nused - 1 } else s
  (if set then s.setLabel p.addr l else s).setFrames c rest

/-- The end of `doRemoveLink`. `can` is the result of `canqlock`. -/
def closeBlock (c : ℕ) (p : BList) (can set : Bool) (rest : List Frame) : Fs :=
  let l := (s.label p.addr).close p.epoch
  if l.epochClose = l.epoch then
    if can then s.closeLocked c p l set rest
    else s.setFrames c (.waiting p (s.label p.addr) :: rest)
  else (if set then s.setLabel p.addr l else s).setFrames c rest

/-- A block that is unlinked from the super block is closed with the next epoch. -/
def closing (p : BList) : BList :=
  if p.epoch = 0 then { p with epoch := (s.label p.addr).epoch + 1 } else p

/-- The beginning of `doRemoveLink`. -/
def enter (c : ℕ) (p : BList) (ok can set : Bool) (rest : List Frame) : Fs :=
  if s.loads p ok = false then s.setFrames c rest
  else if (s.closing p).epoch < (s.label p.addr).epoch then s.setFrames c rest
  else if (s.closing p).deep then s.setFrames c (.walking (s.closing p) 0 :: rest)
  else s.closeBlock c (s.closing p) can set rest

/-- One slot of the block. -/
def visit (c : ℕ) (p : BList) (i : ℕ) (rest : List Frame) : Fs :=
  match s.data p.addr i with
  | none => s.setFrames c (.walking p (i + 1) :: rest)
  | some a =>
    if s.size ≤ a ∨ (s.label a).ok = false ∨ (s.label a).state &&& bsClosed ≠ 0 then
      s.setFrames c (.walking p (i + 1) :: rest)
    else
      s.setFrames c (.entering
        { addr := a, type := (s.label a).type, tag := (s.label a).tag, epoch := p.epoch
          recurse := true } :: .walking p (i + 1) :: rest)

/-- A process goes on in `doRemoveLink`. -/
def removeLink (c : ℕ) (ok can set : Bool) : Option Fs :=
  match s.unlinking c with
  | [] => none
  | .entering p :: rest => some (s.enter c p ok can set rest)
  | .walking p i :: rest =>
    some (if s.loads p ok = false then s.setFrames c rest
      else if i < s.slots then s.visit c p i rest
      else s.closeBlock c p can set rest)
  | .waiting p l :: rest =>
    if s.stuck then none
    else
      some (if s.loads p ok = false then s.setFrames c rest
        else s.closeLocked c p (l.close l.epoch) set rest)

end Fs

/-! ### Steps -/

/-- What happens to the blocks. -/
inductive Act
  /-- `cacheCountUsed`. -/
  | count (epochLow : UInt32) (ok : Bool)
  /-- `cacheAllocBlock`, with `fs->elo`. -/
  | alloc (io : AllocIo) (type : UInt8) (tag epoch : UInt32)
  /-- `blockCopy`, with `fs->elo`. -/
  | copy (b : Option ℕ) (type : UInt8) (io : AllocIo) (mark undo : Bool) (tag epoch : UInt32)
  /-- `fsEpochLow`. -/
  | lower (low : UInt32) (ok : Bool)
  /-- The epoch of the active file system goes up. -/
  | bump
  /-- The pointers of a block change. -/
  | store (a : ℕ) (slots : ℕ → Option ℕ)
  /-- A process calls `doRemoveLink`. -/
  | unlink (c : ℕ) (p : BList)
  /-- It goes on. -/
  | go (c : ℕ) (ok can set : Bool)

namespace Fs

variable (s : Fs)

/-- One step. Whoever wants `fl->lk` when it is not given back waits forever. -/
def act : Act → Option Fs
  | .count epochLow ok =>
    if s.stuck then none else some (s.cacheCountUsed epochLow ok).2
  | .alloc io type tag epoch =>
    if s.stuck ∨ btMax < type then none else some (s.cacheAllocBlock io type tag epoch s.elo).2
  | .copy none type io mark undo tag epoch =>
    if s.stuck ∨ btMax < type then none
    else some (s.blockCopy none type io mark undo tag epoch s.elo)
  | .copy (some a) type io mark undo tag epoch =>
    -- the caller has the block, with its label, and has locked it
    if s.stuck ∨ s.size ≤ a ∨ (s.label a).ok = false then none
    else
      match s.search io s.elo s.candidates with
      | .found bb =>
        if bb = a then none else some (s.blockCopy (some a) type io mark undo tag epoch s.elo)
      | _ => some (s.blockCopy (some a) type io mark undo tag epoch s.elo)
  | .lower low ok => some (s.fsEpochLow low ok)
  | .bump => some { s with ehi := s.ehi + 1 }
  | .store a slots => some { s with data := Function.update s.data a slots }
  | .unlink c p =>
    match s.unlinking c with
    | [] => some (s.setFrames c [.entering p])
    | _ => none
  | .go c ok can set => s.removeLink c ok (can && !s.stuck) set

/-- The steps. -/
def Step (s : Fs) (a : Act) (t : Fs) : Prop := s.act a = some t

end Fs

/-! ### When the number stays right -/

/-- The number is what a full count gives. -/
def Right (s : Fs) : Prop := s.nused = UInt32.ofNat (s.recount s.epochLow)

/-- No block that counts may be handed out. -/
def Fresh (s : Fs) : Prop :=
  ∀ a < s.size, (s.label a).usable s.elo = true → (s.label a).counted s.epochLow = false

/-- A block is closed in its own epoch: this is the counted one, or the block does not count. -/
def LockedOk (s : Fs) (a : ℕ) (l : Label) (set : Bool) : Prop :=
  if l.epoch = s.epochLow then (s.label a).counted s.epochLow = true ∧ set = true
  else set = true → (s.label a).counted s.epochLow = false

/-- A block is closed in another epoch: it is above the counted one, or the block does not
count. -/
def OpenOk (s : Fs) (a : ℕ) (epoch : UInt32) (set : Bool) : Prop :=
  set = true →
    ((s.label a).counted s.epochLow = true ∧ s.epochLow < epoch ∧ epoch ≠ notClosed) ∨
      ((s.label a).counted s.epochLow = false ∧ epoch ≤ s.epochLow)

/-- The end of `doRemoveLink`. -/
def CloseOk (s : Fs) (p : BList) (can set : Bool) : Prop :=
  if p.epoch = (s.label p.addr).epoch then
    can = true → LockedOk s p.addr ((s.label p.addr).close p.epoch) set
  else OpenOk s p.addr p.epoch set

/-- What the steps of a run are to meet. -/
def StepOk (s : Fs) : Act → Prop
  | .alloc .. => Fresh s
  | .copy b _ _ mark _ _ _ => Fresh s ∧ ∀ a ∈ b, (s.label a).state &&& bsCopied ≠ 0 ∨ mark = true
  | .go c ok can set =>
    match s.unlinking c with
    | .entering p :: _ =>
      s.loads p ok = true → (s.closing p).deep = false → CloseOk s (s.closing p) can set
    | .walking p i :: _ => s.loads p ok = true → s.slots ≤ i → CloseOk s p can set
    | .waiting p l :: _ => s.loads p ok = true → LockedOk s p.addr (l.close l.epoch) set
    | [] => True
  | _ => True

/-! ### Counting -/

variable {a : ℕ}

/-- Changing one value changes the count by what it counts. -/
theorem countP_update {α : Type} {n : ℕ} (ha : a < n) (f : ℕ → α) (x : α) (q : α → Bool) :
    (List.range n).countP (fun i => q (Function.update f a x i)) + (q (f a)).toNat =
      (List.range n).countP (fun i => q (f i)) + (q x).toNat := by
  induction n with
  | zero => exact absurd ha (Nat.not_lt_zero a)
  | succ n ih =>
    rw [List.range_succ, List.countP_append, List.countP_append, List.countP_singleton,
      List.countP_singleton]
    by_cases hn : n = a
    · subst hn
      have hsame : (List.range n).countP (fun i => q (Function.update f n x i)) =
          (List.range n).countP fun i => q (f i) := by
        refine List.countP_congr fun i hi => ?_
        rw [Function.update_of_ne (Nat.ne_of_lt (List.mem_range.1 hi))]
      rw [hsame, Function.update_self]
      cases q x <;> cases q (f n) <;> simp
    · have hlt : a < n := Nat.lt_of_le_of_ne (Nat.le_of_lt_succ ha) (Ne.symm hn)
      have h := ih hlt
      rw [Function.update_of_ne hn]
      omega

variable {s t : Fs}

/-- Setting the label of a block. -/
theorem recount_setLabel (ha : a < s.size) (l : Label) (E : UInt32) :
    (s.setLabel a l).recount E + ((s.label a).counted E).toNat =
      s.recount E + (l.counted E).toNat :=
  countP_update ha s.label l fun l => l.counted E

variable {l : Label} {E : UInt32}

/-- A block that counts as before. -/
theorem recount_same (ha : a < s.size) (h : l.counted E = (s.label a).counted E) :
    (s.setLabel a l).recount E = s.recount E := by
  have hset := recount_setLabel ha l E
  rw [h] at hset
  exact Nat.add_right_cancel hset

/-- A block that counts no more. -/
theorem recount_drop (ha : a < s.size) (hold : (s.label a).counted E = true)
    (hnew : l.counted E = false) :
    (s.setLabel a l).recount E + 1 = s.recount E := by
  have hset := recount_setLabel ha l E
  rwa [hold, hnew] at hset

/-- A block that begins to count. -/
theorem recount_gain (ha : a < s.size) (hold : (s.label a).counted E = false)
    (hnew : l.counted E = true) :
    (s.setLabel a l).recount E = s.recount E + 1 := by
  have hset := recount_setLabel ha l E
  rwa [hold, hnew] at hset

/-- The number depends on the labels alone. -/
theorem Right.congr (hs : Right s) (hnused : t.nused = s.nused) (hlow : t.epochLow = s.epochLow)
    (hcount : t.recount s.epochLow = s.recount s.epochLow) : Right t := by
  rw [Right, hnused, hlow, hcount]
  exact hs

theorem ofNat_succ (n : ℕ) : UInt32.ofNat (n + 1) = UInt32.ofNat n + 1 := UInt32.ofNat_add n 1

/-! ### Labels that count -/

/-- What is true of all states is checked on each. -/
theorem state_forall {P : UInt8 → Prop} (h : ∀ n : Fin 256, P (UInt8.ofNat n)) (x : UInt8) :
    P x := by
  have hx := h ⟨x.toNat, x.toNat_lt⟩
  rwa [UInt8.ofNat_toNat] at hx

set_option maxRecDepth 10000 in
theorem state_closed (x : UInt8) : x ||| bsClosed ≠ bsFree ∧ (x ||| bsClosed) &&& bsClosed ≠ 0 := by
  revert x
  refine state_forall ?_
  decide

set_option maxRecDepth 10000 in
/-- Closing keeps what `labelUnpack` asks of the state besides. -/
theorem state_close_ok (x : UInt8) (hfree : x ≠ bsFree)
    (h : x = bsBad ∨ x &&& bsAlloc ≠ 0 ∧ x &&& ~~~bsMask = 0) :
    x ||| bsClosed = bsBad ∨
      (x ||| bsClosed) &&& bsAlloc ≠ 0 ∧ (x ||| bsClosed) &&& ~~~bsMask = 0 := by
  revert x
  refine state_forall ?_
  decide

set_option maxRecDepth 10000 in
theorem state_copied (x : UInt8) (hfree : x ≠ bsFree)
    (h : x = bsBad ∨ x &&& bsAlloc ≠ 0 ∧ x &&& ~~~bsMask = 0) :
    x ||| bsCopied ≠ bsFree ∧ (x ||| bsCopied) &&& bsClosed = x &&& bsClosed ∧
      (x ||| bsCopied = bsBad ↔ x = bsBad) ∧
      ((x ||| bsCopied) &&& bsAlloc ≠ 0 ∧ (x ||| bsCopied) &&& ~~~bsMask = 0 ↔
        x &&& bsAlloc ≠ 0 ∧ x &&& ~~~bsMask = 0) := by
  revert x
  refine state_forall ?_
  decide

/-- The states that `labelUnpack` takes. -/
theorem stateOk_iff {x : UInt8} {e : UInt32} : stateOk x e = true ↔
    x = bsFree ∨ x = bsBad ∨ (x &&& bsAlloc ≠ 0 ∧ x &&& ~~~bsMask = 0) ∧
      (if x &&& bsClosed ≠ 0 then e ≠ notClosed else e = notClosed) := by
  unfold stateOk
  split <;> simp <;> tauto

theorem counted_iff : l.counted E = true ↔ l.ok = true ∧ l.usable E = false := by
  simp [Label.counted]

theorem usable_iff : l.usable E = true ↔
    l.state = bsFree ∨ l.state &&& bsClosed ≠ 0 ∧ (l.epochClose ≤ E ∨ l.epoch = l.epochClose) := by
  simp [Label.usable]

variable {epoch : UInt32}

/-- A block that counts, closed in an epoch above the counted one, counts still. -/
theorem Label.counted_close (h : l.counted E = true) (hlow : E < epoch) (hlast : epoch ≠ notClosed)
    (hother : epoch ≠ l.epoch) :
    (l.close epoch).counted E = true := by
  obtain ⟨hok, huse⟩ := counted_iff.1 h
  rw [Label.ok, Bool.and_eq_true] at hok
  have hfree : l.state ≠ bsFree := fun hf => by
    rw [usable_iff.2 (.inl hf)] at huse
    cases huse
  have hstate : l.state = bsBad ∨ l.state &&& bsAlloc ≠ 0 ∧ l.state &&& ~~~bsMask = 0 :=
    ((stateOk_iff.1 hok.2).resolve_left hfree).imp_right And.left
  obtain ⟨hne, hclosed⟩ := state_closed l.state
  refine counted_iff.2 ⟨?_, ?_⟩
  · rw [Label.ok, Bool.and_eq_true]
    refine ⟨hok.1, stateOk_iff.2 (.inr ((state_close_ok l.state hfree hstate).imp_right ?_))⟩
    intro hmask
    exact ⟨hmask, (if_pos hclosed).mpr hlast⟩
  · rw [Bool.eq_false_iff]
    intro huse'
    rcases usable_iff.1 huse' with hf | ⟨-, hle | heq⟩
    · exact hne hf
    · exact absurd hle (UInt32.not_le.2 hlow)
    · exact hother heq.symm

/-- A block that is closed in its own epoch, or at or below the counted one, does not count. -/
theorem Label.not_counted_close (h : epoch ≤ E ∨ l.epoch = epoch) :
    (l.close epoch).counted E = false := by
  have huse : (l.close epoch).usable E = true := usable_iff.2 (.inr ⟨(state_closed l.state).2, h⟩)
  rw [Label.counted, huse, Bool.not_true, Bool.and_false]

variable {type : UInt8}

/-- A new block counts. -/
theorem counted_new (htype : type ≤ btMax) (tag epoch E : UInt32) :
    (⟨type, bsAlloc, tag, epoch, notClosed⟩ : Label).counted E = true := by
  refine counted_iff.2 ⟨?_, ?_⟩
  · rw [Label.ok, Bool.and_eq_true]
    have hstate : stateOk bsAlloc notClosed = true := by decide
    exact ⟨decide_eq_true htype, hstate⟩
  · have hstate : bsAlloc ≠ bsFree ∧ ¬bsAlloc &&& bsClosed ≠ 0 := by decide
    rw [Bool.eq_false_iff]
    exact fun huse => (usable_iff.1 huse).elim hstate.1 fun hclosed => hstate.2 hclosed.1

/-- Marking a block as copied changes nothing. -/
theorem Label.counted_copied (hok : l.ok = true) :
    ({ l with state := l.state ||| bsCopied } : Label).counted E = l.counted E := by
  rw [Label.ok, Bool.and_eq_true] at hok
  by_cases hfree : l.state = bsFree
  · -- a free block does not count, and its new state is bad
    have hold : l.counted E = false := by
      rw [Label.counted, usable_iff.2 (.inl hfree), Bool.not_true, Bool.and_false]
    have hbad : stateOk (l.state ||| bsCopied) l.epochClose = false := by
      rw [hfree]
      rfl
    rw [hold, Label.counted, Label.ok, hbad, Bool.and_false, Bool.false_and]
  · have hstate : l.state = bsBad ∨ l.state &&& bsAlloc ≠ 0 ∧ l.state &&& ~~~bsMask = 0 :=
      ((stateOk_iff.1 hok.2).resolve_left hfree).imp_right And.left
    obtain ⟨hne, hclosed, hbad, hmask⟩ := state_copied l.state hfree hstate
    have hstate' : stateOk (l.state ||| bsCopied) l.epochClose = stateOk l.state l.epochClose := by
      rw [Bool.eq_iff_iff, stateOk_iff, stateOk_iff, hclosed, hbad, hmask]
      exact or_congr_left (iff_of_false hne hfree)
    have huse : ({ l with state := l.state ||| bsCopied } : Label).usable E = l.usable E := by
      rw [Bool.eq_iff_iff, usable_iff, usable_iff]
      simp only [hclosed]
      exact or_congr_left (iff_of_false hne hfree)
    rw [Label.counted, Label.counted, huse, Label.ok, Label.ok, hstate']

/-! ### Steps -/

variable {io : AllocIo}

variable {elo : UInt32}

/-- What the search finds. -/
theorem search_found {as : List ℕ} (h : s.search io elo as = .found a) :
    a ∈ as ∧ (s.label a).ok = true ∧ (s.label a).usable elo = true := by
  induction as with
  | nil => cases h
  | cons b as ih =>
    rw [Fs.search] at h
    split at h
    · cases h
    · split at h
      · rename_i hfound
        split at h
        · cases h
        · split at h
          · split at h
            · cases h
            · obtain ⟨hmem, hrest⟩ := ih h
              exact ⟨List.mem_cons_of_mem b hmem, hrest⟩
          · obtain rfl := Search.found.inj h
            rw [Bool.and_eq_true] at hfound
            exact ⟨List.mem_cons_self, hfound⟩
      · obtain ⟨hmem, hrest⟩ := ih h
        exact ⟨List.mem_cons_of_mem b hmem, hrest⟩

theorem candidates_lt (h : a ∈ s.candidates) : a < s.size := by
  rcases List.mem_append.1 h with h | h
  · obtain ⟨hle, hlt⟩ := List.mem_range'_1.1 h
    omega
  · exact List.mem_range.1 h

variable {tag : UInt32}

variable {r : Option ℕ}

/-- What `cacheAllocBlock` does: nothing to the labels and the number, or one block is new. -/
theorem cacheAllocBlock_cases (h : s.cacheAllocBlock io type tag epoch elo = (r, t)) :
    (r = none ∧ t.label = s.label ∧ t.size = s.size ∧ t.nused = s.nused ∧ t.epochLow = s.epochLow) ∨
      ∃ a, r = some a ∧ s.search io elo s.candidates = .found a ∧
        t = { s.setLabel a ⟨type, bsAlloc, tag, epoch, notClosed⟩ with
          last := a
          nused := s.nused + 1 } := by
  rw [Fs.cacheAllocBlock] at h
  split at h
  · obtain ⟨rfl, rfl⟩ := Prod.mk.inj h
    exact .inl ⟨rfl, rfl, rfl, rfl, rfl⟩
  · split at h
    case h_5 a hfound =>
      split at h
      · obtain ⟨rfl, rfl⟩ := Prod.mk.inj h
        exact .inl ⟨rfl, rfl, rfl, rfl, rfl⟩
      · obtain ⟨rfl, rfl⟩ := Prod.mk.inj h
        exact .inr ⟨a, rfl, hfound, rfl⟩
    all_goals
      obtain ⟨rfl, rfl⟩ := Prod.mk.inj h
      exact .inl ⟨rfl, rfl, rfl, rfl, rfl⟩

/-- **`cacheAllocBlock`** counts the block that it hands out. -/
theorem Right.alloc (hs : Right s) (hfresh : Fresh s) (htype : type ≤ btMax)
    (h : s.cacheAllocBlock io type tag epoch s.elo = (r, t)) : Right t := by
  rcases cacheAllocBlock_cases h with ⟨-, hlabel, hsize, hnused, hlow⟩ | ⟨a, -, hfound, rfl⟩
  · refine hs.congr hnused hlow ?_
    rw [Fs.recount, Fs.recount, hlabel, hsize]
  · obtain ⟨hmem, -, huse⟩ := search_found hfound
    have ha := candidates_lt hmem
    have hgain : (s.setLabel a ⟨type, bsAlloc, tag, epoch, notClosed⟩).recount s.epochLow =
        s.recount s.epochLow + 1 :=
      recount_gain ha (hfresh a ha huse) (counted_new htype tag epoch s.epochLow)
    have hcount : UInt32.ofNat ((s.setLabel a ⟨type, bsAlloc, tag, epoch, notClosed⟩).recount
        s.epochLow) = s.nused + 1 := by
      rw [hgain, ofNat_succ, hs]
    exact hcount.symm

variable {c : ℕ} {p : BList} {set : Bool}

variable {rest : List Frame}

/-- A block is closed with `fl->lk`. -/
theorem Right.closeLocked (hs : Right s) (hp : p.addr < s.size) (hl : l.counted s.epochLow = false)
    (hok : LockedOk s p.addr l set) : Right (s.closeLocked c p l set rest) := by
  rw [LockedOk] at hok
  rw [Fs.closeLocked]
  by_cases hlow : l.epoch = s.epochLow
  · rw [if_pos hlow] at hok ⊢
    obtain ⟨hcounted, rfl⟩ := hok
    have hdrop := recount_drop hp hcounted hl
    have hcount : UInt32.ofNat ((s.setLabel p.addr l).recount s.epochLow) = s.nused - 1 := by
      rw [hs, ← hdrop, ofNat_succ, UInt32.add_sub_cancel]
    exact hcount.symm
  · rw [if_neg hlow] at hok ⊢
    cases set with
    | false => exact hs
    | true =>
      refine hs.congr rfl rfl ?_
      exact recount_same hp (hl.trans (hok rfl).symm)

variable {can can' : Bool}

/-- **The end of `doRemoveLink`.** -/
theorem Right.closeBlock (hs : Right s) (hp : p.addr < s.size) (hcan : can' = true → can = true)
    (hok : CloseOk s p can set) : Right (s.closeBlock c p can' set rest) := by
  rw [CloseOk] at hok
  rw [Fs.closeBlock]
  have hclose : ((s.label p.addr).close p.epoch).epochClose = p.epoch := rfl
  have hepoch : ((s.label p.addr).close p.epoch).epoch = (s.label p.addr).epoch := rfl
  simp only [hclose, hepoch]
  by_cases hown : p.epoch = (s.label p.addr).epoch
  · rw [if_pos hown] at hok ⊢
    cases can' with
    | false => exact hs
    | true =>
      exact hs.closeLocked hp (Label.not_counted_close (.inr hown.symm)) (hok (hcan rfl))
  · rw [if_neg hown] at hok ⊢
    cases set with
    | false => exact hs
    | true =>
      refine hs.congr rfl rfl ?_
      rcases hok rfl with ⟨hcounted, hlow, hlast⟩ | ⟨hcounted, hle⟩
      · exact recount_same hp ((Label.counted_close hcounted hlow hlast hown).trans hcounted.symm)
      · exact recount_same hp ((Label.not_counted_close (.inl hle)).trans hcounted.symm)

/-- **`blockCopy`**, unless it takes its failure exit. -/
theorem Right.blockCopy (hs : Right s) (hfresh : Fresh s) {b : Option ℕ} {mark undo : Bool}
    (hb : ∀ a ∈ b, a < s.size ∧ (s.label a).ok = true ∧ s.search io s.elo s.candidates ≠ .found a ∧
      ((s.label a).state &&& bsCopied ≠ 0 ∨ mark = true)) (htype : b = none → type ≤ btMax) :
    Right (s.blockCopy b type io mark undo tag epoch s.elo) := by
  have hle : s.blockType b type ≤ btMax := by
    cases b with
    | none => exact htype rfl
    | some a =>
      have hok := (hb a rfl).2.1
      rw [Label.ok, Bool.and_eq_true] at hok
      exact of_decide_eq_true hok.1
  rw [Fs.blockCopy]
  cases halloc : s.cacheAllocBlock io (s.blockType b type) tag epoch s.elo with
  | mk r t =>
    have ht := hs.alloc hfresh hle halloc
    cases r with
    | none => exact ht
    | some bb =>
      rcases cacheAllocBlock_cases halloc with ⟨hr, -⟩ | ⟨a', hr, hfound, htlabel⟩
      · cases hr
      · cases hr
        cases b with
        | none => exact ht
        | some a =>
          obtain ⟨ha, hok, hne, hcopied⟩ := hb a rfl
          have hother : t.label a = s.label a := by
            rw [htlabel]
            refine Function.update_of_ne ?_ ..
            rintro rfl
            exact hne hfound
          have hsize : t.size = s.size := by
            rw [htlabel]
            rfl
          simp only
          rw [Fs.finishCopy, hother]
          by_cases hmarked : (s.label a).state &&& bsCopied ≠ 0
          · rwa [if_pos hmarked]
          · rw [if_neg hmarked, if_pos (hcopied.resolve_left hmarked)]
            refine ht.congr rfl rfl (recount_same (by rwa [hsize]) ?_)
            rw [hother]
            exact Label.counted_copied hok

/-- **`cacheCountUsed`.** -/
theorem Right.count (hs : Right s) (E : UInt32) (ok : Bool) : Right (s.cacheCountUsed E ok).2 := by
  rw [Fs.cacheCountUsed]
  split
  · exact hs
  · cases ok with
    | false => exact hs
    | true => rfl

variable {ok : Bool}

theorem loads_lt (h : s.loads p ok = true) : p.addr < s.size := by
  simp only [Fs.loads, Bool.and_eq_true, decide_eq_true_eq] at h
  exact h.1.1.1.2

/-- **`doRemoveLink`**, one step of it. -/
theorem Right.removeLink (hs : Right s) (hcan : can' = true → can = true)
    (hok : StepOk s (.go c ok can set)) (h : s.removeLink c ok can' set = some t) : Right t := by
  rw [Fs.removeLink] at h
  rw [StepOk] at hok
  cases hframes : s.unlinking c with
  | nil =>
    rw [hframes] at h
    cases h
  | cons frame rest =>
    rw [hframes] at h hok
    cases frame with
    | entering p =>
      cases h
      rw [Fs.enter]
      cases hload : s.loads p ok with
      | false => exact hs
      | true =>
        have hp := loads_lt hload
        have haddr : (s.closing p).addr = p.addr := by
          rw [Fs.closing]
          split <;> rfl
        rw [if_neg (by simp)]
        split
        · exact hs
        · split
          · exact hs
          · rename_i hdeep
            exact hs.closeBlock (by rwa [haddr]) hcan (hok hload (Bool.eq_false_iff.2 hdeep))
    | walking p i =>
      cases h
      cases hload : s.loads p ok with
      | false => exact hs
      | true =>
        have hp := loads_lt hload
        rw [if_neg (by simp)]
        split
        · rw [Fs.visit]
          split
          · exact hs
          · split
            · exact hs
            · exact hs
        · rename_i hi
          exact hs.closeBlock hp hcan (hok hload (Nat.not_lt.1 hi))
    | waiting p l =>
      simp only at h
      split at h
      · cases h
      · cases h
        cases hload : s.loads p ok with
        | false => exact hs
        | true =>
          rw [if_neg (by simp)]
          exact hs.closeLocked (loads_lt hload) (Label.not_counted_close (.inr rfl)) (hok hload)

/-- **One step keeps the number right.** -/
theorem Right.step (hs : Right s) {a : Act} (hok : StepOk s a) (h : s.act a = some t) :
    Right t := by
  cases a with
  | count E ok =>
    rw [Fs.act] at h
    split at h
    · cases h
    · cases h
      exact hs.count E ok
  | alloc io type tag epoch =>
    rw [Fs.act] at h
    split at h
    · cases h
    · rename_i hgo
      cases h
      have htype : type ≤ btMax := UInt8.not_lt.1 fun hlt => hgo (.inr hlt)
      exact hs.alloc hok htype rfl
  | copy b type io mark undo tag epoch =>
    obtain ⟨hfresh, hmark⟩ := hok
    cases b with
    | none =>
      rw [Fs.act] at h
      split at h
      · cases h
      · rename_i hgo
        cases h
        exact hs.blockCopy hfresh (fun a ha => by cases ha) fun _ =>
          UInt8.not_lt.1 fun hlt => hgo (.inr hlt)
    | some a =>
      rw [Fs.act] at h
      split at h
      · cases h
      · rename_i hgo
        have hb : s.search io s.elo s.candidates ≠ .found a →
            Right (s.blockCopy (some a) type io mark undo tag epoch s.elo) := by
          intro hne
          refine hs.blockCopy hfresh ?_ fun hnone => by cases hnone
          intro a' ha'
          cases ha'
          exact ⟨Nat.not_le.1 fun hle => hgo (.inr (.inl hle)),
            Bool.not_eq_false _ ▸ fun hf => hgo (.inr (.inr hf)), hne, hmark a rfl⟩
        split at h
        · rename_i bb hfound
          split at h
          · cases h
          · rename_i hne
            cases h
            refine hb ?_
            rw [hfound]
            exact fun heq => hne (Search.found.inj heq)
        · rename_i hnot
          cases h
          exact hb (hnot a)
  | lower low ok =>
    cases h
    rw [Fs.fsEpochLow]
    split
    · exact hs
    · exact hs
  | bump =>
    cases h
    exact hs
  | store a slots =>
    cases h
    exact hs
  | unlink c p =>
    rw [Fs.act] at h
    split at h
    · cases h
      exact hs
    · cases h
  | go c ok can set =>
    have hcan : (can && !s.stuck) = true → can = true := by
      intro hboth
      rw [Bool.and_eq_true] at hboth
      exact hboth.1
    exact hs.removeLink hcan hok h

/-- **The number of used blocks**: once it has been counted, in every run whose steps meet their
conditions, what `cacheCountUsed` returns without counting is what a full count gives. -/
theorem cacheCountUsed_right (s₀ : Fs) (E : UInt32) (hfirst : s₀.epochLow ≠ E) {acts : List Act}
    {t : Fs} (h : Run (Guarded StepOk Fs.Step) (s₀.cacheCountUsed E true).2 acts t) :
    ∀ ok, (t.cacheCountUsed t.epochLow ok).1 = UInt32.ofNat (t.recount t.epochLow) := by
  have hstart : Right (s₀.cacheCountUsed E true).2 := by
    rw [Fs.cacheCountUsed, if_neg hfirst]
    rfl
  have hright : Right t := h.guarded_inv (fun s a t hs hok hstep => hs.step hok hstep) hstart
  intro ok
  rw [Fs.cacheCountUsed, if_pos rfl]
  exact hright

/-- A file system behind its first snapshot: the root, the old root, and a free block. -/
def snapped : Fs where
  size := 3
  label a :=
    if a = 0 then ⟨btDir, bsAlloc, 1, 2, notClosed⟩
    else if a = 1 then ⟨btDir, bsAlloc ||| bsCopied ||| bsClosed, 1, 1, 2⟩
    else ⟨0, bsFree, 0, 0, 0⟩
  data _ _ := none
  slots := 409
  lpb := 585
  last := 0
  nused := 0
  epochLow := 0
  elo := 1
  ehi := 2
  stuck := false
  unlinking _ := []

/-- Nothing fails. -/
def allOk : AllocIo := ⟨true, fun _ => true, fun _ => true, fun _ => true, fun _ => true, true⟩

/-- A block is made, and unlinked in the next epoch. -/
def closedLater : List Act :=
  [.alloc allOk btData 7 2, .bump, .unlink 0 ⟨2, btData, 7, 3, false⟩, .go 0 true true true]

/-- A block is made, and unlinked in the same epoch. -/
def closedAtOnce : List Act :=
  [.alloc allOk btData 7 2, .unlink 0 ⟨2, btData, 7, 2, false⟩, .go 0 true true true]

/-- The steps of a run, one after the other. -/
def Fs.actAll (s : Fs) (acts : List Act) : Option Fs := acts.foldlM Fs.act s

theorem run_of_actAll {acts : List Act} (h : s.actAll acts = some t) : Run Fs.Step s acts t :=
  .of_foldlM (fun _ _ _ _ h => h) h

theorem unlinking_cacheAllocBlock (io : AllocIo) (type : UInt8) (tag epoch elo : UInt32) :
    (s.cacheAllocBlock io type tag epoch elo).2.unlinking = s.unlinking := by
  rw [Fs.cacheAllocBlock]
  split
  · rfl
  · split
    case h_5 =>
      split
      · rfl
      · rfl
    all_goals rfl

/-- A block that is unlinked in the next epoch counts still. -/
theorem cacheCountUsed_right_later : ∃ t,
    Run (Guarded StepOk Fs.Step) (snapped.cacheCountUsed 1 true).2 closedLater t ∧
      t.nused = 3 ∧ (t.cacheCountUsed t.epochLow true).1 = UInt32.ofNat (t.recount t.epochLow) := by
  let p : BList := ⟨2, btData, 7, 3, false⟩
  let s₁ := (snapped.cacheCountUsed 1 true).2
  let s₂ := (s₁.cacheAllocBlock allOk btData 7 2 s₁.elo).2
  let s₃ : Fs := { s₂ with ehi := s₂.ehi + 1 }
  let s₄ := s₃.setFrames 0 [.entering p]
  have hfresh : Fresh s₁ := by
    intro a ha
    revert a
    decide
  have hclose : CloseOk s₄ p true true := by
    have hother : ¬(3 : UInt32) = (s₄.label 2).epoch := by decide
    have hcounted : (s₄.label 2).counted s₄.epochLow = true := by decide
    have hlow : s₄.epochLow < 3 := by decide
    rw [CloseOk, if_neg hother]
    exact fun _ => .inl ⟨hcounted, hlow, by decide⟩
  have halloc : Fs.Step s₁ (.alloc allOk btData 7 2) s₂ := rfl
  have hbump : Fs.Step s₂ .bump s₃ := rfl
  have hunlink : Fs.Step s₃ (.unlink 0 p) s₄ := by
    have hframes : s₃.unlinking 0 = [] := by
      have hsame : s₃.unlinking = s₁.unlinking := unlinking_cacheAllocBlock ..
      rw [hsame]
      rfl
    rw [Fs.Step, Fs.act, hframes]
  have hgo : Fs.Step s₄ (.go 0 true true true) (s₄.enter 0 p true (true && !s₄.stuck) true []) :=
    rfl
  have hrun : Run (Guarded StepOk Fs.Step) s₁ closedLater
      (s₄.enter 0 p true (true && !s₄.stuck) true []) :=
    .cons ⟨hfresh, halloc⟩ <| .cons ⟨trivial, hbump⟩ <| .cons ⟨trivial, hunlink⟩ <|
      .cons ⟨fun _ _ => hclose, hgo⟩ <| .nil _
  exact ⟨_, hrun, by decide, cacheCountUsed_right snapped 1 (by decide) hrun true⟩

/-- **A block that is unlinked in its own epoch** is not taken off the number. -/
theorem closed_at_once_counted : ¬∀ (s₀ : Fs) (E : UInt32), s₀.epochLow ≠ E →
    ∀ acts t, Run Fs.Step (s₀.cacheCountUsed E true).2 acts t →
      ∀ ok, (t.cacheCountUsed t.epochLow ok).1 = UInt32.ofNat (t.recount t.epochLow) := by
  intro h
  have hrun : ((snapped.cacheCountUsed 1 true).2.actAll closedAtOnce).map
      (fun t => ((t.cacheCountUsed t.epochLow true).1, t.recount t.epochLow)) = some (3, 2) := by
    decide
  obtain ⟨t, ht, hends⟩ := Option.map_eq_some_iff.1 hrun
  obtain ⟨hused, hcount⟩ := Prod.mk.inj hends
  have hsame := h snapped 1 (by decide) closedAtOnce t (run_of_actAll ht) true
  rw [hused, hcount] at hsame
  exact absurd hsame (by decide)

end Fossil

end Plan9
