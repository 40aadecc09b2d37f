import Mathlib.Data.Finset.Card
import Plan9.Lib.Bitmap
import Plan9.Lib.Linked
import Plan9.Lib.Run

/-!
# Requests of the mount driver, and their tags

`devmnt.c` keeps the structures of its requests: a new one gets a tag, which stays with it
while the structure lies in the list of free ones, and returns it when the structure is
given back to `malloc`. The set of tags in use is a bitmap.

After every run of `mntralloc`, `mntfree`, `alloctag` and `freetag` the bitmap has the tags
of the structures that exist, and the counters are right
(`Plan9.Kernel.Mnt.mntrpc_exact`) – as long as a structure of the list gets a larger buffer
when it needs one. Where it does not, `mntralloc` gives the structure back without its tag,
and takes it off the count of those in use, to which it did not belong yet.
-/

namespace Plan9

namespace Kernel

namespace Mnt

open Lib List

/-- `TAGSHIFT`. -/
def tagshift : ℕ := 5

/-- `TAGMASK`. -/
def tagmaskBits : ℕ := (1 <<< tagshift) - 1

/-- `NMASK`. -/
def nmask : ℕ := (64 * 1024) >>> tagshift

/-- `NOTAG`. -/
def notag : ℕ := 0xFFFF

/-- `struct Mntrpc`: the link, the tag of the request, the length of the buffer, and what
`mntralloc` clears for its caller. -/
structure Mntrpc where
  c : Option ℕ
  list : Option ℕ
  tag : ℕ
  rpclen : ℕ
  b : Option ℕ
  done : Bool
  flushed : Option ℕ

/-- `struct Mntalloc` as far as requests go, and the structures that exist. -/
structure Mntalloc where
  rpcfree : Option ℕ
  nrpcfree : ℤ
  nrpcused : ℤ
  tagmask : Bitmap 32
  rpc : ℕ → Option Mntrpc

/-- How a call can end the kernel. -/
inductive MntFault
  /-- `panic("devmnt: no friggin tags left")` -/
  | tags
  /-- a pointer to a structure that does not exist -/
  | dangling
deriving DecidableEq

/-- `mntreset`: neither 0 nor `NOTAG` is a tag. -/
def mntreset : Mntalloc where
  rpcfree := none
  nrpcfree := 0
  nrpcused := 0
  tagmask := fun i => if i = 0 then 1#32 else if i = nmask - 1 then 0x80000000#32 else 0#32
  rpc _ := none

/-- Replace a structure. -/
def Mntalloc.setRpc (m : Mntalloc) (r : ℕ) (x : Option Mntrpc) : Mntalloc :=
  { m with rpc := Function.update m.rpc r x }

/-- `alloctag`. -/
def alloctag (m : Mntalloc) : Except MntFault (ℕ × Mntalloc) :=
  match m.tagmask.find nmask with
  | some (i, j) => .ok ((i <<< tagshift) + j, { m with tagmask := m.tagmask.setBit i j })
  | none => .error .tags

/-- `freetag`. -/
def freetag (m : Mntalloc) (t : ℕ) : Mntalloc :=
  { m with tagmask := m.tagmask.clearBit (t >>> tagshift) (t &&& tagmaskBits) }

/-- `mntralloc`. What `malloc` does is given: `header` is the address it returns for a
header, `buffer` says whether it returns a buffer. `exhausted` names what is missing. -/
def mntralloc (m : Mntalloc) (header : Option ℕ) (buffer : Bool) (c : Option ℕ) (msize : ℕ) :
    Except MntFault (Except String ℕ × Mntalloc) :=
  match m.rpcfree with
  | none =>
    match header with
    | none => .ok (.error "mount rpc header", m)
    | some new =>
      if buffer then do
        let (tag, m) ← alloctag m
        let x : Mntrpc := ⟨c, none, tag, msize, none, false, none⟩
        return (.ok new, { m.setRpc new (some x) with nrpcused := m.nrpcused + 1 })
      else .ok (.error "mount rpc buffer", m)
  | some new =>
    match m.rpc new with
    | none => .error .dangling
    | some x =>
      let m := { m with rpcfree := x.list, nrpcfree := m.nrpcfree - 1 }
      if x.rpclen < msize ∧ buffer = false then
        .ok (.error "mount rpc buffer", { m.setRpc new none with nrpcused := m.nrpcused - 1 })
      else
        let rpclen := if x.rpclen < msize then msize else x.rpclen
        let x : Mntrpc := ⟨c, x.list, x.tag, rpclen, none, false, none⟩
        .ok (.ok new, { m.setRpc new (some x) with nrpcused := m.nrpcused + 1 })

/-- `mntfree`. -/
def mntfree (m : Mntalloc) (r : ℕ) : Except MntFault Mntalloc :=
  match m.rpc r with
  | none => .error .dangling
  | some x =>
    if m.nrpcfree ≥ 10 then
      let m := (freetag m x.tag).setRpc r none
      .ok { m with nrpcused := m.nrpcused - 1 }
    else
      let m := m.setRpc r (some { x with list := m.rpcfree })
      .ok { m with rpcfree := some r, nrpcfree := m.nrpcfree + 1, nrpcused := m.nrpcused - 1 }

/-! ### Runs -/

/-- The calls. With `use` the caller of `mntralloc` changes its structure: it links it to a
queue, or swaps its buffer, but the tag is not its own. -/
inductive Act
  | mntralloc (header : Option ℕ) (buffer : Bool) (c : Option ℕ) (msize : ℕ)
  | mntfree (r : ℕ)
  | alloctag
  | freetag (t : ℕ)
  | use (r : ℕ) (x : Mntrpc)

/-- The requests, with the structures that are handed out and the tags that `alloctag` gave
to others than `mntralloc`. -/
structure State where
  m : Mntalloc
  held : Finset ℕ
  tags : Finset ℕ

/-- After `mntreset`. -/
def State.init : State := ⟨mntreset, ∅, ∅⟩

/-- One call. `malloc` returns addresses that are not in use; what is given back was
handed out. -/
def State.step (s : State) : Act → Option State
  | .mntralloc header buffer c msize =>
    if ∃ r ∈ header, (s.m.rpc r).isSome then none
    else match Mnt.mntralloc s.m header buffer c msize with
      | .ok (.ok r, m) => some { s with m := m, held := insert r s.held }
      | .ok (.error _, m) => some { s with m := m }
      | .error _ => none
  | .mntfree r =>
    if r ∈ s.held then
      match Mnt.mntfree s.m r with
      | .ok m => some { s with m := m, held := s.held.erase r }
      | .error _ => none
    else none
  | .alloctag =>
    match Mnt.alloctag s.m with
    | .ok (t, m) => some { s with m := m, tags := insert t s.tags }
    | .error _ => none
  | .freetag t =>
    if t ∈ s.tags then some { s with m := Mnt.freetag s.m t, tags := s.tags.erase t } else none
  | .use r x =>
    match s.m.rpc r with
    | some y =>
      if r ∈ s.held ∧ x.tag = y.tag then some { s with m := s.m.setRpc r (some x) } else none
    | none => none

/-- A call that goes on. -/
def Step (s : State) (a : Act) (t : State) : Prop := s.step a = some t

/-- The link of a structure. -/
def Mntalloc.next (m : Mntalloc) (r : ℕ) : Option ℕ := (m.rpc r).bind Mntrpc.list

/-- The tag of a structure that exists. -/
def Mntalloc.HasTag (m : Mntalloc) (r t : ℕ) : Prop := ∃ x, m.rpc r = some x ∧ x.tag = t

/-- **The tags are those of the structures that exist**, with `NOTAG`, 0 and what `alloctag`
gave to others; no two structures have the same one. The counters count the structures
handed out, and those in the list of free ones. -/
structure State.Exact (s : State) : Prop where
  bits : ∀ t < 2 ^ 16, s.m.tagmask.get t = true ↔
    t = notag ∨ t = 0 ∨ t ∈ s.tags ∨ ∃ r, s.m.HasTag r t
  distinct : ∀ r r' t, s.m.HasTag r t → s.m.HasTag r' t → r = r'
  nrpcused : s.m.nrpcused = s.held.card
  nrpcfree : ∃ l, Linked s.m.next s.m.rpcfree l none ∧ s.m.nrpcfree = l.length

/-- A structure of the list that needs a larger buffer gets one. -/
def Grows (s : State) : Act → Prop
  | .mntralloc _ buffer _ msize => ∀ r ∈ s.m.rpcfree, ∀ x ∈ s.m.rpc r, x.rpclen < msize →
    buffer = true
  | _ => True

/-! ### The invariant -/

/-- A tag that is in use without a structure. -/
def Reserved (tags : Finset ℕ) (t : ℕ) : Prop := t = notag ∨ t = 0 ∨ t ∈ tags

/-- The bitmap has the tags of the structures, and `tags`. -/
structure Tagged (m : Mntalloc) (tags : Finset ℕ) : Prop where
  bits : ∀ t < 2 ^ 16, m.tagmask.get t = true ↔ Reserved tags t ∨ ∃ r, m.HasTag r t
  distinct : ∀ r r' t, m.HasTag r t → m.HasTag r' t → r = r'
  unreserved : ∀ r t, m.HasTag r t → ¬Reserved tags t
  lt : ∀ r t, m.HasTag r t → t < 2 ^ 16
  tags_lt : ∀ t ∈ tags, t < 2 ^ 16 ∧ t ≠ notag ∧ t ≠ 0

/-- The list of free structures is `l`; the others that exist are handed out. -/
structure Listed (m : Mntalloc) (held : Finset ℕ) (l : List ℕ) : Prop where
  linked : Linked m.next m.rpcfree l none
  nodup : l.Nodup
  exists_iff : ∀ r, (m.rpc r).isSome ↔ r ∈ held ∨ r ∈ l
  apart : ∀ r ∈ l, r ∉ held
  nrpcfree : m.nrpcfree = l.length
  nrpcused : m.nrpcused = held.card

/-- **The invariant.** -/
def State.Sound (s : State) : Prop := Tagged s.m s.tags ∧ ∃ l, Listed s.m s.held l

variable {s : State}

theorem State.Sound.exact (h : s.Sound) : s.Exact := by
  obtain ⟨htags, l, hlist⟩ := h
  refine ⟨fun t ht => ?_, htags.distinct, hlist.nrpcused, l, hlist.linked, hlist.nrpcfree⟩
  rw [htags.bits t ht, Reserved, or_assoc, or_assoc]

/-! ### The bitmap -/

section Bits

variable {m m' : Mntalloc} {t u : ℕ}

theorem nmask_eq : nmask = 2048 := by decide

/-- `alloctag` takes a tag that is not in use. -/
theorem alloctag_spec (h : alloctag m = .ok (t, m')) : t < 2 ^ 16 ∧ m.tagmask.get t = false ∧
    ∃ mask : Bitmap 32, m' = { m with tagmask := mask } ∧
      ∀ u, mask.get u = (decide (u = t) || m.tagmask.get u) := by
  unfold alloctag at h
  split at h
  next i j hf =>
    obtain ⟨rfl, rfl⟩ := Prod.mk.inj (Except.ok.inj h)
    obtain ⟨hi, hj, hoff⟩ := Bitmap.find_spec hf
    have htag : (i <<< tagshift) + j = i * 32 + j := by rw [Nat.shiftLeft_eq, tagshift]
    rw [nmask_eq] at hi
    rw [htag]
    exact ⟨by omega, hoff, _, rfl, fun u => Bitmap.get_setBit hj u⟩
  next => cases h

/-- `freetag` gives a tag back. -/
theorem get_freetag (m : Mntalloc) (t u : ℕ) :
    (freetag m t).tagmask.get u = (!decide (u = t) && m.tagmask.get u) := by
  have hbits : t &&& tagmaskBits = t % 32 := Nat.and_two_pow_sub_one_eq_mod t 5
  have hword : t >>> tagshift = t / 32 := Nat.shiftRight_eq_div_pow t 5
  have hlt : t % 32 < 32 := Nat.mod_lt t (by decide)
  rw [freetag, hbits, hword, Bitmap.get_clearBit hlt, Nat.div_add_mod']

/-- Only `NOTAG` and 0 are reserved at the start. -/
theorem get_mntreset (ht : t < 2 ^ 16) : mntreset.tagmask.get t = true ↔ t = notag ∨ t = 0 := by
  have hlt : t % 32 < 32 := Nat.mod_lt t (by decide)
  have hword : t / 32 < 2048 := Nat.div_lt_of_lt_mul ht
  have htop : 0x80000000#32 = 1#32 <<< 31 := rfl
  rw [Bitmap.get, mntreset, nmask_eq, notag]
  simp only
  split
  · rw [BitVec.getLsbD_one]
    simp only [decide_eq_true_iff, Bool.and_eq_true]
    omega
  · split
    · rw [htop, Bitmap.getLsbD_one_shiftLeft hlt, decide_eq_true_iff]
      omega
    · simp only [BitVec.getLsbD_zero, Bool.false_eq_true, false_iff]
      omega

end Bits

theorem State.sound_init : State.init.Sound := by
  have hnone : ∀ r t, ¬mntreset.HasTag r t := by
    rintro r t ⟨x, hx, -⟩
    cases hx
  refine ⟨⟨fun t ht => ?_, fun r r' t h => absurd h (hnone r t), fun r t h => absurd h (hnone r t),
    fun r t h => absurd h (hnone r t), fun t ht => absurd ht (Finset.notMem_empty t)⟩,
    [], rfl, nodup_nil, fun r => ?_, fun r hr => absurd hr not_mem_nil, rfl, rfl⟩
  · rw [State.init, get_mntreset ht]
    simp [Reserved, hnone]
  · simp [State.init, mntreset]

/-! ### What the calls preserve -/

variable {tags : Finset ℕ} {t u : ℕ}

theorem reserved_insert :
    Reserved (insert t tags) u ↔ u = t ∨ Reserved tags u := by
  rw [Reserved, Finset.mem_insert]
  constructor
  · rintro (h | h | h | h)
    · exact .inr (.inl h)
    · exact .inr (.inr (.inl h))
    · exact .inl h
    · exact .inr (.inr (.inr h))
  · rintro (h | h | h | h)
    · exact .inr (.inr (.inl h))
    · exact .inl h
    · exact .inr (.inl h)
    · exact .inr (.inr (.inr h))

theorem reserved_erase (hnotag : t ≠ notag) (hzero : t ≠ 0) :
    Reserved (tags.erase t) u ↔ u ≠ t ∧ Reserved tags u := by
  rw [Reserved, Finset.mem_erase]
  constructor
  · rintro (rfl | rfl | ⟨hne, h⟩)
    · exact ⟨hnotag.symm, .inl rfl⟩
    · exact ⟨hzero.symm, .inr (.inl rfl)⟩
    · exact ⟨hne, .inr (.inr h)⟩
  · rintro ⟨hne, h | h | h⟩
    · exact .inl h
    · exact .inr (.inl h)
    · exact .inr (.inr ⟨hne, h⟩)

section Steps

variable {m m' : Mntalloc} {tags held : Finset ℕ} {l : List ℕ} {t r : ℕ}

/-- `alloctag` makes a tag one of `tags`. -/
theorem Tagged.alloctag (h : Tagged m tags) (hm : Mnt.alloctag m = .ok (t, m')) :
    Tagged m' (insert t tags) ∧ ¬Reserved tags t := by
  obtain ⟨ht, hoff, mask, rfl, hmask⟩ := alloctag_spec hm
  have hnot : ¬(Reserved tags t ∨ ∃ r, m.HasTag r t) := by
    rw [← h.bits t ht, hoff]
    exact Bool.false_ne_true
  refine ⟨⟨fun u hu => ?_, h.distinct, fun r u hr => ?_, h.lt, fun u hu => ?_⟩,
    fun hres => hnot (.inl hres)⟩
  · rw [hmask, Bool.or_eq_true, decide_eq_true_iff, h.bits u hu, reserved_insert, or_assoc]
    rfl
  · rw [reserved_insert]
    rintro (rfl | hres)
    · exact hnot (.inr ⟨r, hr⟩)
    · exact h.unreserved r u hr hres
  · rcases Finset.mem_insert.1 hu with rfl | hu
    · exact ⟨ht, fun heq => hnot (.inl (.inl heq)), fun heq => hnot (.inl (.inr (.inl heq)))⟩
    · exact h.tags_lt u hu

/-- `freetag` takes a tag out of `tags`. -/
theorem Tagged.freetag (h : Tagged m tags) (ht : t ∈ tags) :
    Tagged (Mnt.freetag m t) (tags.erase t) := by
  obtain ⟨-, hnotag, hzero⟩ := h.tags_lt t ht
  refine ⟨fun u hu => ?_, h.distinct, fun r u hr => ?_, h.lt,
    fun u hu => h.tags_lt u (Finset.mem_of_mem_erase hu)⟩
  · have hnone : ∀ r, ¬m.HasTag r t := fun r hr => h.unreserved r t hr (.inr (.inr ht))
    rw [get_freetag, Bool.and_eq_true, h.bits u hu, Bool.not_eq_true', decide_eq_false_iff_not,
      reserved_erase hnotag hzero]
    constructor
    · rintro ⟨hne, hres | hr⟩
      · exact .inl ⟨hne, hres⟩
      · exact .inr hr
    · rintro (⟨hne, hres⟩ | ⟨r, hr⟩)
      · exact ⟨hne, .inl hres⟩
      · exact ⟨fun heq => hnone r (heq ▸ hr), .inr ⟨r, hr⟩⟩
  · rw [reserved_erase hnotag hzero]
    exact fun hres => h.unreserved r u hr hres.2

variable {x : Mntrpc} {r' : ℕ}

theorem hasTag_setRpc_some : (m.setRpc r (some x)).HasTag r' u ↔
    r' = r ∧ x.tag = u ∨ r' ≠ r ∧ m.HasTag r' u := by
  rw [Mntalloc.HasTag, Mntalloc.setRpc]
  rcases eq_or_ne r' r with rfl | hne
  · simp [Function.update_self]
  · simp [hne, Mntalloc.HasTag]

theorem hasTag_setRpc_none : (m.setRpc r none).HasTag r' u ↔ r' ≠ r ∧ m.HasTag r' u := by
  rw [Mntalloc.HasTag, Mntalloc.setRpc]
  rcases eq_or_ne r' r with rfl | hne
  · simp [Function.update_self]
  · simp [hne, Mntalloc.HasTag]

/-- A structure takes a tag over from `tags`. -/
theorem Tagged.takeOver (h : Tagged m (insert x.tag tags)) (ht : ¬Reserved tags x.tag)
    (hr : m.rpc r = none) :
    Tagged (m.setRpc r (some x)) tags := by
  have hlt : x.tag < 2 ^ 16 := (h.tags_lt x.tag (Finset.mem_insert_self ..)).1
  have hfresh : ∀ r' u, m.HasTag r' u → u ≠ x.tag ∧ ¬Reserved tags u := by
    intro r' u hu
    have hnot := h.unreserved r' u hu
    rw [reserved_insert, not_or] at hnot
    exact hnot
  have hnone : ∀ u, ¬m.HasTag r u := by
    rintro u ⟨y, hy, -⟩
    rw [hr] at hy
    cases hy
  have htag : ∀ r' u, (m.setRpc r (some x)).HasTag r' u ↔ r' = r ∧ u = x.tag ∨ m.HasTag r' u := by
    intro r' u
    rw [hasTag_setRpc_some]
    constructor
    · rintro (⟨rfl, rfl⟩ | ⟨-, hu⟩)
      · exact .inl ⟨rfl, rfl⟩
      · exact .inr hu
    · rintro (⟨rfl, rfl⟩ | hu)
      · exact .inl ⟨rfl, rfl⟩
      · exact .inr ⟨fun heq => hnone u (heq ▸ hu), hu⟩
  refine ⟨fun u hu => ?_, fun r₁ r₂ u h₁ h₂ => ?_, fun r' u hr' => ?_, fun r' u hr' => ?_,
    fun u hu => h.tags_lt u (Finset.mem_insert_of_mem hu)⟩
  · change m.tagmask.get u = true ↔ _
    simp only [h.bits u hu, reserved_insert, htag]
    constructor
    · rintro ((rfl | hres) | ⟨r', hr'⟩)
      · exact .inr ⟨r, .inl ⟨rfl, rfl⟩⟩
      · exact .inl hres
      · exact .inr ⟨r', .inr hr'⟩
    · rintro (hres | ⟨r', ⟨-, rfl⟩ | hr'⟩)
      · exact .inl (.inr hres)
      · exact .inl (.inl rfl)
      · exact .inr ⟨r', hr'⟩
  · rcases (htag r₁ u).1 h₁ with ⟨hr₁, hu⟩ | hold₁
    · rcases (htag r₂ u).1 h₂ with ⟨hr₂, -⟩ | hold₂
      · rw [hr₁, hr₂]
      · exact absurd hu (hfresh r₂ u hold₂).1
    · rcases (htag r₂ u).1 h₂ with ⟨-, hu⟩ | hold₂
      · exact absurd hu (hfresh r₁ u hold₁).1
      · exact h.distinct r₁ r₂ u hold₁ hold₂
  · rcases (htag r' u).1 hr' with ⟨-, rfl⟩ | hr'
    · exact ht
    · exact (hfresh r' u hr').2
  · rcases (htag r' u).1 hr' with ⟨-, rfl⟩ | hr'
    · exact hlt
    · exact h.lt r' u hr'

/-- A structure leaves its tag to `tags`. -/
theorem Tagged.leave (h : Tagged m tags) (hr : m.rpc r = some x) :
    Tagged (m.setRpc r none) (insert x.tag tags) ∧ x.tag ∉ tags := by
  have hx : m.HasTag r x.tag := ⟨x, hr, rfl⟩
  have hnot := h.unreserved r x.tag hx
  refine ⟨⟨fun u hu => ?_, fun r₁ r₂ u h₁ h₂ => ?_, fun r' u hr' => ?_, fun r' u hr' => ?_,
    fun u hu => ?_⟩, fun hin => hnot (.inr (.inr hin))⟩
  · change m.tagmask.get u = true ↔ _
    simp only [h.bits u hu, reserved_insert, hasTag_setRpc_none]
    constructor
    · rintro (hres | ⟨r', hr'⟩)
      · exact .inl (.inr hres)
      · rcases eq_or_ne r' r with rfl | hne
        · obtain ⟨y, hy, rfl⟩ := hr'
          rw [hr] at hy
          cases hy
          exact .inl (.inl rfl)
        · exact .inr ⟨r', hne, hr'⟩
    · rintro ((rfl | hres) | ⟨r', -, hr'⟩)
      · exact .inr ⟨r, hx⟩
      · exact .inl hres
      · exact .inr ⟨r', hr'⟩
  · exact h.distinct r₁ r₂ u (hasTag_setRpc_none.1 h₁).2 (hasTag_setRpc_none.1 h₂).2
  · obtain ⟨hne, hr'⟩ := hasTag_setRpc_none.1 hr'
    rw [reserved_insert]
    rintro (rfl | hres)
    · exact hne (h.distinct r' r x.tag hr' hx)
    · exact h.unreserved r' u hr' hres
  · exact h.lt r' u (hasTag_setRpc_none.1 hr').2
  · rcases Finset.mem_insert.1 hu with rfl | hu
    · exact ⟨h.lt r x.tag hx, fun heq => hnot (.inl heq), fun heq => hnot (.inr (.inl heq))⟩
    · exact h.tags_lt u hu

/-- Only the tags of structures matter. -/
theorem Tagged.congr (h : Tagged m tags) (hmask : m'.tagmask = m.tagmask)
    (htag : ∀ r t, m'.HasTag r t ↔ m.HasTag r t) : Tagged m' tags where
  bits u hu := by
    rw [hmask, h.bits u hu]
    exact or_congr_right (exists_congr fun r => (htag r u).symm)
  distinct r r' u hr hr' := h.distinct r r' u ((htag r u).1 hr) ((htag r' u).1 hr')
  unreserved r u hr := h.unreserved r u ((htag r u).1 hr)
  lt r u hr := h.lt r u ((htag r u).1 hr)
  tags_lt := h.tags_lt

/-- A structure keeps its tag. -/
theorem Tagged.setRpc {y : Mntrpc} (h : Tagged m tags) (hr : m.rpc r = some x) (hy : y.tag = x.tag)
    : Tagged (m.setRpc r (some y)) tags := by
  refine h.congr rfl fun r' u => ?_
  rw [hasTag_setRpc_some]
  rcases eq_or_ne r' r with rfl | hne
  · simp [Mntalloc.HasTag, hr, hy]
  · simp [hne]

/-- Links of structures that are not in the list do not matter. -/
theorem Linked.setRpc {a : Option ℕ} {x : Option Mntrpc} (h : Linked m.next a l none)
    (hr : r ∉ l) : Linked (m.setRpc r x).next a l none := by
  refine h.congr fun r' hr' => ?_
  have hne : r' ≠ r := fun heq => hr (heq ▸ hr')
  simp only [Mntalloc.next, Mntalloc.setRpc, Function.update_of_ne hne]

theorem isSome_setRpc {x : Option Mntrpc} :
    ((m.setRpc r x).rpc r').isSome ↔ r' = r ∧ x.isSome ∨ r' ≠ r ∧ (m.rpc r').isSome := by
  rcases eq_or_ne r' r with rfl | hne
  · simp [Mntalloc.setRpc]
  · simp [Mntalloc.setRpc, hne]

/-- **`mntralloc`** hands out one more structure, or changes nothing. -/
theorem mntralloc_spec {header c : Option ℕ} {buffer : Bool} {msize : ℕ} {res : Except String ℕ}
    (htags : Tagged m tags) (hlist : Listed m held l) (hheader : ∀ r ∈ header, m.rpc r = none)
    (hgrow : ∀ r ∈ m.rpcfree, ∀ x ∈ m.rpc r, x.rpclen < msize → buffer = true)
    (h : Mnt.mntralloc m header buffer c msize = .ok (res, m')) :
    (∃ e, res = .error e ∧ m' = m) ∨
      ∃ r l', res = .ok r ∧ Tagged m' tags ∧ Listed m' (insert r held) l' := by
  unfold Mnt.mntralloc at h
  split at h
  next hfree =>
    have hnil : l = [] := by
      have hhead := hlist.linked.head_eq
      rw [hfree] at hhead
      exact List.head?_eq_none_iff.1 hhead.symm
    subst hnil
    split at h
    next =>
      cases h
      exact .inl ⟨_, rfl, rfl⟩
    next new =>
      have hnew := hheader new rfl
      have hnotheld : new ∉ held := by
        intro hin
        have hsome := (hlist.exists_iff new).2 (.inl hin)
        rw [hnew] at hsome
        exact Bool.false_ne_true hsome
      split at h
      next =>
        cases hm : Mnt.alloctag m with
        | error e =>
          rw [hm] at h
          cases h
        | ok p =>
          obtain ⟨t, m₁⟩ := p
          rw [hm] at h
          cases h
          obtain ⟨htags₁, ht⟩ := htags.alloctag hm
          obtain ⟨-, -, mask, rfl, -⟩ := alloctag_spec hm
          refine .inr ⟨new, [], rfl, ?_, ?_⟩
          · exact (htags₁.takeOver (x := ⟨c, none, t, msize, none, false, none⟩) ht hnew).congr rfl
              fun _ _ => Iff.rfl
          · refine ⟨hfree, nodup_nil, fun r => ?_, fun r hr => absurd hr not_mem_nil,
              hlist.nrpcfree, ?_⟩
            · rw [Finset.mem_insert, or_assoc, ← hlist.exists_iff]
              refine isSome_setRpc.trans ?_
              rcases eq_or_ne r new with rfl | hne
              · simp
              · simp [hne]
            · rw [Finset.card_insert_of_notMem hnotheld, Nat.cast_succ, ← hlist.nrpcused]
      next =>
        cases h
        exact .inl ⟨_, rfl, rfl⟩
  next new hfree =>
    split at h
    next => cases h
    next x hx =>
      have hlarge : ¬(x.rpclen < msize ∧ buffer = false) := by
        rintro ⟨hlt, hbuf⟩
        have htrue := hgrow new hfree x hx hlt
        rw [hbuf] at htrue
        exact Bool.false_ne_true htrue
      simp only [if_neg hlarge] at h
      cases h
      have hhead := hlist.linked.head_eq
      rw [hfree] at hhead
      cases l with
      | nil => cases hhead
      | cons r l =>
        obtain rfl : new = r := Option.some.inj hhead
        have hnodup := nodup_cons.1 hlist.nodup
        have hnotheld := hlist.apart new mem_cons_self
        refine .inr ⟨new, l, rfl, ?_, ?_⟩
        · exact (htags.setRpc (y := ⟨c, x.list, x.tag, if x.rpclen < msize then msize else x.rpclen,
            none, false, none⟩) hx rfl).congr rfl fun _ _ => Iff.rfl
        · refine ⟨?_, hnodup.2, fun r => ?_, fun r hr => ?_, ?_, ?_⟩
          · have hrest := hlist.linked.2
            rw [Mntalloc.next, hx] at hrest
            exact Linked.setRpc (m := m) hrest hnodup.1
          · rw [Finset.mem_insert, or_assoc]
            refine isSome_setRpc.trans ?_
            have hold := hlist.exists_iff r
            rw [mem_cons] at hold
            rcases eq_or_ne r new with rfl | hne
            · simp
            · simpa [hne] using hold
          · rw [Finset.mem_insert]
            rintro (rfl | hin)
            · exact hnodup.1 hr
            · exact hlist.apart r (mem_cons_of_mem new hr) hin
          · have hold := hlist.nrpcfree
            rw [length_cons, Nat.cast_succ] at hold
            exact sub_eq_of_eq_add hold
          · rw [Finset.card_insert_of_notMem hnotheld, Nat.cast_succ, ← hlist.nrpcused]

/-- **`mntfree`** takes a structure back. -/
theorem mntfree_spec (htags : Tagged m tags) (hlist : Listed m held l) (hr : r ∈ held)
    (h : Mnt.mntfree m r = .ok m') : Tagged m' tags ∧ ∃ l', Listed m' (held.erase r) l' := by
  have hnotl : r ∉ l := fun hin => hlist.apart r hin hr
  have hused : m.nrpcused - 1 = ((held.erase r).card : ℤ) := by
    rw [Finset.card_erase_of_mem hr, hlist.nrpcused, Nat.cast_pred (Finset.card_pos.2 ⟨r, hr⟩)]
  unfold Mnt.mntfree at h
  split at h
  next => cases h
  next x hx =>
    split at h
    next =>
      cases h
      obtain ⟨hleft, hnot⟩ := htags.leave hx
      have hfreed := hleft.freetag (Finset.mem_insert_self x.tag tags)
      rw [Finset.erase_insert hnot] at hfreed
      refine ⟨hfreed.congr rfl fun _ _ => Iff.rfl, l, ?_, hlist.nodup, fun r' => ?_,
        fun r' hr' hin => hlist.apart r' hr' (Finset.mem_of_mem_erase hin), hlist.nrpcfree, hused⟩
      · exact Linked.setRpc hlist.linked hnotl
      · refine isSome_setRpc.trans ?_
        have hold : ((Mnt.freetag m x.tag).rpc r').isSome ↔ r' ∈ held ∨ r' ∈ l :=
          hlist.exists_iff r'
        rw [Finset.mem_erase]
        rcases eq_or_ne r' r with rfl | hne
        · simp [hnotl]
        · simpa [hne] using hold
    next =>
      cases h
      refine ⟨(htags.setRpc (y := { x with list := m.rpcfree }) hx rfl).congr rfl
        fun _ _ => Iff.rfl, r :: l, ?_, nodup_cons.2 ⟨hnotl, hlist.nodup⟩, fun r' => ?_,
        fun r' hr' => ?_, ?_, hused⟩
      · refine ⟨rfl, ?_⟩
        have hnext : (m.setRpc r (some { x with list := m.rpcfree })).next r = m.rpcfree := by
          simp [Mntalloc.next, Mntalloc.setRpc]
        change Linked (m.setRpc r (some { x with list := m.rpcfree })).next
          ((m.setRpc r (some { x with list := m.rpcfree })).next r) l none
        rw [hnext]
        exact Linked.setRpc hlist.linked hnotl
      · refine isSome_setRpc.trans ?_
        have hold := hlist.exists_iff r'
        rw [Finset.mem_erase, mem_cons]
        rcases eq_or_ne r' r with rfl | hne
        · simp
        · simpa [hne] using hold
      · rcases mem_cons.1 hr' with rfl | hr'
        · exact Finset.notMem_erase r' held
        · exact fun hin => hlist.apart r' hr' (Finset.mem_of_mem_erase hin)
      · rw [length_cons, Nat.cast_succ, ← hlist.nrpcfree]
        rfl

end Steps

/-- One call. -/
theorem State.Sound.step {t : State} {a : Act} (h : s.Sound) (ha : Grows s a) (hstep : Step s a t) :
    t.Sound := by
  obtain ⟨htags, l, hlist⟩ := h
  cases a with unfold Step State.step at hstep
  | mntralloc header buffer c msize =>
    dsimp only at hstep
    split at hstep
    next => cases hstep
    next hheader =>
      have hnone : ∀ r ∈ header, s.m.rpc r = none := by
        intro r hr
        by_contra hne
        exact hheader ⟨r, hr, Option.isSome_iff_ne_none.2 hne⟩
      split at hstep
      next r m hm =>
        cases hstep
        rcases mntralloc_spec htags hlist hnone ha hm with ⟨e, he, -⟩ | ⟨r', l', hr',
          htags', hlist'⟩
        · cases he
        · obtain rfl : r = r' := Except.ok.inj hr'
          exact ⟨htags', l', hlist'⟩
      next e m hm =>
        cases hstep
        rcases mntralloc_spec htags hlist hnone ha hm with ⟨e', -, rfl⟩ | ⟨r', l', hr', -⟩
        · exact ⟨htags, l, hlist⟩
        · cases hr'
      next => cases hstep
  | mntfree r =>
    dsimp only at hstep
    split at hstep
    next hr =>
      split at hstep
      next m hm =>
        cases hstep
        exact mntfree_spec htags hlist hr hm
      next => cases hstep
    next => cases hstep
  | alloctag =>
    dsimp only at hstep
    split at hstep
    next t m hm =>
      cases hstep
      obtain ⟨-, -, mask, rfl, -⟩ := alloctag_spec hm
      exact ⟨(htags.alloctag hm).1, l, hlist.linked, hlist.nodup, hlist.exists_iff, hlist.apart,
        hlist.nrpcfree, hlist.nrpcused⟩
    next => cases hstep
  | freetag t =>
    dsimp only at hstep
    split at hstep
    next ht =>
      cases hstep
      exact ⟨htags.freetag ht, l, hlist.linked, hlist.nodup, hlist.exists_iff, hlist.apart,
        hlist.nrpcfree, hlist.nrpcused⟩
    next => cases hstep
  | use r x =>
    dsimp only at hstep
    split at hstep
    next y hy =>
      split at hstep
      next hr =>
        cases hstep
        refine ⟨htags.setRpc hy hr.2, l, ?_, hlist.nodup, fun r' => ?_, hlist.apart,
          hlist.nrpcfree, hlist.nrpcused⟩
        · exact Linked.setRpc hlist.linked fun hin => hlist.apart r hin hr.1
        · refine isSome_setRpc.trans ?_
          have hold := hlist.exists_iff r'
          rcases eq_or_ne r' r with rfl | hne
          · simp [hr.1]
          · simpa [hne] using hold
      next => cases hstep
    next => cases hstep

/-- **Tags are exactly those of existing requests**, after every run in which a structure of
the list gets a larger buffer when it needs one. -/
theorem mntrpc_exact {s : State} {l : List Act}
    (h : Run (Guarded Grows Step) State.init l s) : s.Exact :=
  (h.guarded_inv (fun _ _ _ hs ha hstep => hs.step ha hstep) State.sound_init).exact

set_option maxRecDepth 10000 in
/-- A request, and another one with its structure and a larger buffer. -/
theorem mntrpc_exact_larger : ∃ s, Run (Guarded Grows Step) State.init
    [.mntralloc (some 0) true none 1, .mntfree 0, .mntralloc none true none 2] s ∧ s.Exact := by
  have hsome : ([.mntralloc (some 0) true none 1, .mntfree 0, .mntralloc none true none 2].foldlM
      State.step State.init).isSome = true := by decide
  obtain ⟨s, hs⟩ := Option.isSome_iff_exists.1 hsome
  have hrun : Run (Guarded Grows Step) State.init
      [.mntralloc (some 0) true none 1, .mntfree 0, .mntralloc none true none 2] s := by
    refine Run.of_foldlM (fun s a ha t ht => ⟨?_, ht⟩) hs
    simp only [List.mem_cons, List.not_mem_nil, or_false] at ha
    rcases ha with rfl | rfl | rfl
    · exact fun _ _ _ _ _ => rfl
    · trivial
    · exact fun _ _ _ _ _ => rfl
  exact ⟨s, hrun, mntrpc_exact hrun⟩

set_option maxRecDepth 10000 in
/-- **A count of requests in use below 0**: the structure of an earlier request needs a larger
buffer, and there is none. -/
theorem mntralloc_miscounts : ¬∀ (l : List Act) (s : State), Run Step State.init l s →
    s.Exact := by
  intro h
  have hsome : ([.mntralloc (some 0) true none 1, .mntfree 0,
      .mntralloc none false none 2].foldlM State.step State.init).map
        (fun s => (s.m.nrpcused, s.held.card)) = some (-1, 0) := by decide
  obtain ⟨s, hs, hcount⟩ := Option.map_eq_some_iff.1 hsome
  obtain ⟨hused, hheld⟩ := Prod.mk.inj hcount
  have hexact := (h _ s (Run.of_foldlM (fun _ _ _ _ ht => ht) hs)).nrpcused
  rw [hused, hheld] at hexact
  exact absurd hexact (by decide)

end Mnt

end Kernel

end Plan9
