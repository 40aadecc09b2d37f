import Plan9.Fossil.FreeList
import Plan9.Lib.Buffer

/-!
# Allocating a block of fossil

`cacheAllocBlock` scans the labels of all blocks for one that can be used again. The labels are
records of fourteen bytes in the blocks of the label partition; the scan begins behind the block
that was allocated last, goes round once, and takes up again where it was when the block it has
found is still dirty in the cache.

* `Plan9.Fossil.Labels.get_set` – `labelPack` changes the label of one block;
* `Plan9.Fossil.scan_eq_search` – the scan is the search of `Plan9.Fossil.FreeList` through the
  addresses in their order;
* `Plan9.Fossil.Allocator.cacheAllocBlock_exact_iff` – when the function keeps what it promises:
  it may return a block whose label is bad, and there are two exits that do not give back
  `fl->lk`.
-/

namespace Plan9

namespace Fossil

open Lib List

/-! ### Labels on disk -/

/-- `LabelSize`. -/
def labelSize : ℕ := 14

/-- The bytes of a label. -/
def Label.bytes (l : Label) : List UInt8 :=
  [l.state, l.type] ++ (beBytes 4 l.epoch.toNat ++
    (beBytes 4 l.epochClose.toNat ++ beBytes 4 l.tag.toNat))

/-- `labelPack`. -/
def labelPack (l : Label) (p : Buffer) (i : ℕ) : Buffer := p.store (i * labelSize) l.bytes

/-- The fields that `labelUnpack` reads. -/
def labelGet (p : Buffer) (i : ℕ) : Label where
  state := p (i * labelSize)
  type := p (i * labelSize + 1)
  epoch := UInt32.ofNat (beVal (p.load (i * labelSize + 2) 4))
  epochClose := UInt32.ofNat (beVal (p.load (i * labelSize + 6) 4))
  tag := UInt32.ofNat (beVal (p.load (i * labelSize + 10) 4))

/-- `labelUnpack`. -/
def labelUnpack (p : Buffer) (i : ℕ) : Option Label :=
  if (labelGet p i).ok then some (labelGet p i) else none

/-- The label partition, in blocks of `c->size` bytes. -/
structure Labels where
  bytes : Buffer
  size : ℕ
  room : labelSize ≤ size

namespace Labels

variable (L : Labels)

/-- `c->size / LabelSize`. -/
def lpb : ℕ := L.size / labelSize

/-- The data of a block of labels. -/
def page (i : ℕ) : Buffer := fun j => L.bytes (i * L.size + j)

/-- The label of a block. -/
def get (a : ℕ) : Label := labelGet (L.page (a / L.lpb)) (a % L.lpb)

/-- The label of a block, if it is not a bad label. -/
def unpack (a : ℕ) : Option Label := labelUnpack (L.page (a / L.lpb)) (a % L.lpb)

/-- Set the label of a block. -/
def set (a : ℕ) (l : Label) : Labels where
  bytes := L.bytes.store (a / L.lpb * L.size + a % L.lpb * labelSize) l.bytes
  size := L.size
  room := L.room

variable {L}

theorem length_bytes (l : Label) : l.bytes.length = labelSize := by
  simp [Label.bytes, labelSize]

theorem lpb_pos (L : Labels) : 0 < L.lpb := Nat.div_pos L.room (by decide)

theorem unpack_eq (L : Labels) (a : ℕ) :
    L.unpack a = if (L.get a).ok then some (L.get a) else none := rfl

/-- The label at a place that has its bytes. -/
theorem labelGet_eq {p : Buffer} {i : ℕ} {l : Label}
    (h : p.load (i * labelSize) labelSize = l.bytes) : labelGet p i = l := by
  have hbyte : ∀ k (hk : k < l.bytes.length), p (i * labelSize + k) = l.bytes[k] := by
    intro k hk
    have hk' : k < (p.load (i * labelSize) labelSize).length := by rwa [h]
    rw [← Buffer.getElem_load hk']
    simp only [h]
  have hpart : ∀ k n, k + n ≤ labelSize →
      p.load (i * labelSize + k) n = (l.bytes.drop k).take n := by
    intro k n hkn
    rw [← h, Buffer.drop_load _ _ (by omega), Buffer.take_load _ _ (by omega)]
  have hlen := length_bytes l
  have h14 : labelSize = 14 := rfl
  have hstate := hbyte 0 (by omega)
  have htype := hbyte 1 (by omega)
  rw [Nat.add_zero] at hstate
  rw [labelGet, hstate, htype, hpart 2 4 (by omega), hpart 6 4 (by omega), hpart 10 4 (by omega)]
  have h2 : (l.bytes.drop 2).take 4 = beBytes 4 l.epoch.toNat := rfl
  have h6 : (l.bytes.drop 6).take 4 = beBytes 4 l.epochClose.toNat := rfl
  have h10 : (l.bytes.drop 10).take 4 = beBytes 4 l.tag.toNat := rfl
  have hval : ∀ x : UInt32, UInt32.ofNat (beVal (beBytes 4 x.toNat)) = x := fun x => by
    rw [beVal_beBytes x.toNat_lt, UInt32.ofNat_toNat]
  rw [h2, h6, h10, hval, hval, hval]
  rfl

/-- The block of labels that is written has been packed by `labelPack`. -/
theorem page_set (L : Labels) (a : ℕ) (l : Label) :
    (L.set a l).page (a / L.lpb) = labelPack l (L.page (a / L.lpb)) (a % L.lpb) := by
  ext j
  simp only [page, set, labelPack, Buffer.store, Nat.add_assoc, Nat.add_le_add_iff_left,
    Nat.add_lt_add_iff_left, Nat.add_sub_add_left]

/-- Two labels do not meet. -/
theorem place_disjoint (L : Labels) {a b : ℕ} (h : a < b) :
    a / L.lpb * L.size + a % L.lpb * labelSize + labelSize ≤
      b / L.lpb * L.size + b % L.lpb * labelSize := by
  have hpos := L.lpb_pos
  have hfit : L.lpb * labelSize ≤ L.size := Nat.div_mul_le_self _ _
  have ha := Nat.mod_lt a hpos
  have hmul := Nat.mul_le_mul_right labelSize (Nat.succ_le_of_lt ha)
  rw [Nat.succ_mul] at hmul
  rcases (Nat.div_le_div_right (c := L.lpb) h.le).lt_or_eq with hlt | heq
  · have hsize := Nat.mul_le_mul_right L.size (Nat.succ_le_of_lt hlt)
    rw [Nat.succ_mul] at hsize
    omega
  · have hda := Nat.div_add_mod a L.lpb
    have hdb := Nat.div_add_mod b L.lpb
    rw [heq] at hda
    have hmod : a % L.lpb + 1 ≤ b % L.lpb := by omega
    have hsucc := Nat.mul_le_mul_right labelSize hmod
    rw [Nat.succ_mul] at hsucc
    rw [heq]
    omega

/-- **Setting a label** sets the label of one block. -/
theorem get_set (L : Labels) (a b : ℕ) (l : Label) :
    (L.set a l).get b = if b = a then l else L.get b := by
  split
  next h =>
    subst h
    refine labelGet_eq ?_
    have hload := Buffer.load_store L.bytes (b / L.lpb * L.size + b % L.lpb * labelSize) l.bytes
    rw [length_bytes] at hload
    rw [← hload]
    simp only [Buffer.load, page, set, Nat.add_assoc]
    rfl
  next h =>
    have hsame : ∀ k < labelSize,
        (L.set a l).bytes (b / L.lpb * L.size + b % L.lpb * labelSize + k) =
          L.bytes (b / L.lpb * L.size + b % L.lpb * labelSize + k) := by
      intro k hk
      rcases Nat.lt_or_gt_of_ne h with hlt | hgt
      · have := L.place_disjoint hlt
        exact Buffer.store_of_lt (by omega)
      · have := L.place_disjoint hgt
        exact Buffer.store_of_ge (by rw [length_bytes]; omega)
    have h14 : labelSize = 14 := rfl
    have hbyte : ∀ k < labelSize,
        (L.set a l).page (b / L.lpb) (b % L.lpb * labelSize + k) =
          L.page (b / L.lpb) (b % L.lpb * labelSize + k) := by
      intro k hk
      have := hsame k hk
      rw [Nat.add_assoc] at this
      exact this
    have hload : ∀ k n, k + n ≤ labelSize →
        ((L.set a l).page (b / L.lpb)).load (b % L.lpb * labelSize + k) n =
          (L.page (b / L.lpb)).load (b % L.lpb * labelSize + k) n := by
      intro k n hkn
      refine Buffer.load_congr fun j hj => ?_
      have := hbyte (k + j) (by omega)
      rwa [← Nat.add_assoc] at this
    have h0 := hbyte 0 (by omega)
    rw [Nat.add_zero] at h0
    simp only [get, labelGet]
    have hlpb : (L.set a l).lpb = L.lpb := rfl
    rw [hlpb, h0, hbyte 1 (by omega), hload 2 4 (by omega), hload 6 4 (by omega),
      hload 10 4 (by omega)]

end Labels

/-! ### The scan -/

/-- The step to the next address: `++addr`, and round to the first one once. -/
def advance (fin addr : UInt32) (nwrap : ℕ) : Option (UInt32 × ℕ) :=
  if addr + 1 ≥ fin then if nwrap + 1 ≥ 2 then none else some (0, nwrap + 1)
  else some (addr + 1, nwrap)

theorem advance_decreases {fin addr a : UInt32} {nwrap w : ℕ}
    (h : advance fin addr nwrap = some (a, w)) :
    Prod.Lex (· < ·) (· < ·) (2 - w, fin.toNat - (a + 1).toNat)
      (2 - nwrap, fin.toNat - (addr + 1).toNat) := by
  rw [advance] at h
  split at h
  next =>
    split at h
    next => cases h
    next hwrap =>
      obtain ⟨rfl, rfl⟩ := Prod.mk.inj (Option.some.inj h)
      exact Prod.Lex.left _ _ (by omega)
  next hlt =>
    obtain ⟨rfl, rfl⟩ := Prod.mk.inj (Option.some.inj h)
    have hlt' := UInt32.lt_iff_toNat_lt.1 (UInt32.not_le.1 hlt)
    have hfin := fin.toNat_lt
    refine Prod.Lex.right _ ?_
    rw [UInt32.toNat_add (addr + 1) 1, UInt32.toNat_one, Nat.mod_eq_of_lt (by omega)]
    omega

/-- The loop of `cacheAllocBlock`, with the jump back to `NotFound`. -/
def scan (L : Labels) (io : AllocIo) (epochLow fin : UInt32) (addr : UInt32) (nwrap : ℕ) :
    Search :=
  match _h : advance fin addr nwrap with
  | none => .full
  | some (a, w) =>
    if a.toNat % L.lpb = 0 ∧ io.page a.toNat = false then .failed a.toNat
    else
      match L.unpack a.toNat with
      | none => scan L io epochLow fin a w
      | some lab =>
        if lab.usable epochLow then
          if io.part a.toNat = false then .lost
          else if io.idle a.toNat = false then
            if io.again a.toNat = false then .failedAgain else scan L io epochLow fin a w
          else .found a.toNat
        else scan L io epochLow fin a w
termination_by (2 - nwrap, fin.toNat - (addr + 1).toNat)
decreasing_by all_goals exact advance_decreases _h

/-- The addresses in the order of the scan. -/
def visits (fin addr : UInt32) (nwrap : ℕ) : List ℕ :=
  List.range' (addr + 1).toNat (fin.toNat - (addr + 1).toNat) ++
    if nwrap = 0 then List.range (max fin.toNat 1) else []

theorem visits_eq (fin addr : UInt32) (nwrap : ℕ) : visits fin addr nwrap =
    match advance fin addr nwrap with
    | none => []
    | some (a, w) => a.toNat :: visits fin a w := by
  have hfin := fin.toNat_lt
  rw [visits, advance]
  by_cases hge : addr + 1 ≥ fin
  · have hle := UInt32.le_iff_toNat_le.1 hge
    have hnone : range' (addr + 1).toNat (fin.toNat - (addr + 1).toNat) = [] := by
      rw [Nat.sub_eq_zero_of_le hle]
      rfl
    rw [hnone, nil_append, if_pos hge]
    by_cases hwrap : nwrap + 1 ≥ 2
    · rw [if_pos hwrap, if_neg (by omega)]
    · have hone : ((0 : UInt32) + 1).toNat = 1 := rfl
      have hmax : max fin.toNat 1 = fin.toNat - 1 + 1 := by omega
      rw [if_neg hwrap, if_pos (by omega)]
      simp only
      rw [visits, if_neg (by omega), append_nil, hone, hmax, range_eq_range', range'_succ]
      rfl
  · have hlt' := UInt32.lt_iff_toNat_lt.1 (UInt32.not_le.1 hge)
    have hnext : (addr + 1 + 1).toNat = (addr + 1).toNat + 1 := by
      rw [UInt32.toNat_add (addr + 1) 1, UInt32.toNat_one, Nat.mod_eq_of_lt (by omega)]
    obtain ⟨k, hk⟩ := Nat.exists_eq_add_of_lt hlt'
    rw [if_neg hge]
    simp only
    rw [visits, hnext, hk, Nat.add_assoc, Nat.add_sub_cancel_left, range'_succ,
      ← Nat.add_assoc, Nat.add_right_comm, Nat.add_sub_cancel_left, cons_append]

variable {s : Fs} {L : Labels} {io : AllocIo} {epochLow fin addr : UInt32} {nwrap a : ℕ}

/-- **The scan is the search** through the addresses in their order. -/
theorem scan_eq_search (hlabel : s.label = L.get) (hlpb : s.lpb = L.lpb) :
    scan L io epochLow fin addr nwrap = s.search io epochLow (visits fin addr nwrap) := by
  have hunpack : ∀ {a lab}, L.unpack a = some lab → (L.get a).ok = true ∧ lab = L.get a := by
    intro a lab hlab
    rw [Labels.unpack_eq] at hlab
    split at hlab
    next hok => exact ⟨hok, (Option.some.inj hlab).symm⟩
    next => cases hlab
  fun_induction scan L io epochLow fin addr nwrap with
  | case1 addr nwrap h =>
    rw [visits_eq, h]
    rfl
  | case2 addr nwrap a w h hpage =>
    rw [visits_eq, h]
    simp only [Fs.search, hlpb]
    rw [if_pos hpage]
  | case3 addr nwrap a w h hpage hbad ih =>
    have hok : (L.get a.toNat).ok = false := by
      by_contra hok
      rw [Labels.unpack_eq, if_pos ((Bool.not_eq_false _).mp hok)] at hbad
      cases hbad
    rw [visits_eq, h]
    simp only [Fs.search, hlpb, hlabel]
    rw [if_neg hpage, hok, Bool.false_and, if_neg Bool.false_ne_true, ih]
  | case4 addr nwrap a w h hpage lab hlab huse hpart =>
    obtain ⟨hok, rfl⟩ := hunpack hlab
    rw [visits_eq, h]
    simp only [Fs.search, hlpb, hlabel]
    rw [if_neg hpage, hok, huse, Bool.and_self, if_pos rfl, if_pos hpart]
  | case5 addr nwrap a w h hpage lab hlab huse hpart hidle hagain =>
    obtain ⟨hok, rfl⟩ := hunpack hlab
    rw [visits_eq, h]
    simp only [Fs.search, hlpb, hlabel]
    rw [if_neg hpage, hok, huse, Bool.and_self, if_pos rfl, if_neg hpart, if_pos hidle,
      if_pos hagain]
  | case6 addr nwrap a w h hpage lab hlab huse hpart hidle hagain ih =>
    obtain ⟨hok, rfl⟩ := hunpack hlab
    rw [visits_eq, h]
    simp only [Fs.search, hlpb, hlabel]
    rw [if_neg hpage, hok, huse, Bool.and_self, if_pos rfl, if_neg hpart, if_pos hidle,
      if_neg hagain, ih]
  | case7 addr nwrap a w h hpage lab hlab huse hpart hidle =>
    obtain ⟨hok, rfl⟩ := hunpack hlab
    rw [visits_eq, h]
    simp only [Fs.search, hlpb, hlabel]
    rw [if_neg hpage, hok, huse, Bool.and_self, if_pos rfl, if_neg hpart, if_neg hidle]
  | case8 addr nwrap a w h hpage lab hlab huse ih =>
    obtain ⟨hok, rfl⟩ := hunpack hlab
    rw [visits_eq, h]
    simp only [Fs.search, hlpb, hlabel]
    rw [if_neg hpage, hok, Bool.true_and, if_neg huse, ih]

/-! ### Where the search stops -/

namespace Fs

/-- The block can be used again, by its label. -/
def Usable (s : Fs) (epochLow : UInt32) (a : ℕ) : Prop :=
  ((s.label a).ok && (s.label a).usable epochLow) = true

/-- The search goes on behind an address. -/
structure Passes (s : Fs) (io : AllocIo) (epochLow : UInt32) (a : ℕ) : Prop where
  page : a % s.lpb = 0 → io.page a = true
  busy : s.Usable epochLow a → io.part a = true ∧ io.idle a = false ∧ io.again a = true

/-- The search comes to an address whose block can be used again. -/
structure Reaches (s : Fs) (io : AllocIo) (epochLow : UInt32) (as : List ℕ) (a : ℕ) : Prop where
  usable : s.Usable epochLow a
  page : a % s.lpb = 0 → io.page a = true
  split : ∃ xs ys, as = xs ++ a :: ys ∧ ∀ x ∈ xs, s.Passes io epochLow x

variable {as : List ℕ}

theorem Passes.search_cons (h : s.Passes io epochLow a) (as : List ℕ) :
    s.search io epochLow (a :: as) = s.search io epochLow as := by
  rw [search, if_neg fun hpage => by
    rw [h.page hpage.1] at hpage
    cases hpage.2]
  by_cases huse : s.Usable epochLow a
  · obtain ⟨hpart, hidle, hagain⟩ := h.busy huse
    rw [Usable] at huse
    rw [if_pos huse, hpart, hidle, hagain, if_neg (fun h => by cases h), if_pos rfl,
      if_neg (fun h => by cases h)]
  · rw [Usable] at huse
    rw [if_neg huse]

theorem search_append {xs : List ℕ} (h : ∀ x ∈ xs, s.Passes io epochLow x) (as : List ℕ) :
    s.search io epochLow (xs ++ as) = s.search io epochLow as := by
  induction xs with
  | nil => rfl
  | cons x xs ih =>
    rw [cons_append, (h x mem_cons_self).search_cons, ih fun y hy => h y (mem_cons_of_mem x hy)]

/-- **What the search does at an address it reaches.** -/
theorem Reaches.search_eq (h : s.Reaches io epochLow as a) :
    (io.part a = false → s.search io epochLow as = .lost) ∧
    (io.part a = true → io.idle a = true → s.search io epochLow as = .found a) := by
  obtain ⟨xs, ys, rfl, hxs⟩ := h.split
  have hpage : ¬(a % s.lpb = 0 ∧ io.page a = false) := fun hno => by
    rw [h.page hno.1] at hno
    cases hno.2
  have huse := h.usable
  rw [Usable] at huse
  rw [search_append hxs, search, if_neg hpage, if_pos huse]
  refine ⟨fun hpart => by rw [if_pos hpart], fun hpart hidle => ?_⟩
  rw [hpart, hidle, if_neg (fun h => by cases h), if_neg (fun h => by cases h)]

/-- The search stops at one of the addresses. -/
theorem mem_of_search (h : s.search io epochLow as = .found a ∨
    s.search io epochLow as = .failed a) : a ∈ as := by
  induction as with
  | nil => rcases h with h | h <;> cases h
  | cons b as ih =>
    rw [search] at h
    split at h
    next =>
      rcases h with h | h
      · cases h
      · exact mem_cons.2 (Or.inl (Search.failed.inj h).symm)
    next =>
      split at h
      next =>
        split at h
        next => rcases h with h | h <;> cases h
        next =>
          split at h
          next =>
            split at h
            next => rcases h with h | h <;> cases h
            next => exact mem_cons_of_mem b (ih h)
          next =>
            rcases h with h | h
            · exact mem_cons.2 (Or.inl (Search.found.inj h).symm)
            · cases h
      next => exact mem_cons_of_mem b (ih h)

/-- **Where the search has stopped.** -/
theorem exists_reaches (as : List ℕ) :
    (s.search io epochLow as = .full → ∀ a ∈ as, s.Passes io epochLow a) ∧
    (s.search io epochLow as = .lost → ∃ a, s.Reaches io epochLow as a ∧ io.part a = false) ∧
    (∀ a, s.search io epochLow as = .found a →
      s.Reaches io epochLow as a ∧ io.part a = true ∧ io.idle a = true) := by
  induction as with
  | nil =>
    refine ⟨fun _ a ha => ?_, fun h => ?_, fun a h => ?_⟩
    · cases ha
    · cases h
    · cases h
  | cons b as ih =>
    by_cases hpass : s.Passes io epochLow b
    · -- it goes on
      obtain ⟨hfull, hlost, hfound⟩ := ih
      have hmore : ∀ {a}, s.Reaches io epochLow as a → s.Reaches io epochLow (b :: as) a := by
        rintro a ⟨huse, hpage, xs, ys, rfl, hxs⟩
        refine ⟨huse, hpage, b :: xs, ys, rfl, fun x hx => ?_⟩
        rcases mem_cons.1 hx with rfl | hx
        · exact hpass
        · exact hxs x hx
      rw [hpass.search_cons]
      refine ⟨fun h a ha => ?_, fun h => ?_, fun a h => ?_⟩
      · rcases mem_cons.1 ha with rfl | ha
        · exact hpass
        · exact hfull h a ha
      · obtain ⟨a, ha, hpart⟩ := hlost h
        exact ⟨a, hmore ha, hpart⟩
      · obtain ⟨ha, hpart, hidle⟩ := hfound a h
        exact ⟨hmore ha, hpart, hidle⟩
    · -- it stops here
      have hreach : ∀ huse : s.Usable epochLow b, (b % s.lpb = 0 → io.page b = true) →
          s.Reaches io epochLow (b :: as) b :=
        fun huse hpage => ⟨huse, hpage, [], as, rfl, fun x hx => by cases hx⟩
      rw [search]
      split
      next =>
        refine ⟨fun h => ?_, fun h => ?_, fun a h => ?_⟩ <;> cases h
      next hpage =>
        have hpage' : b % s.lpb = 0 → io.page b = true := fun h0 => by
          by_contra hno
          exact hpage ⟨h0, (Bool.not_eq_true _).mp hno⟩
        split
        next huse =>
          split
          next hpart =>
            refine ⟨fun h => ?_, fun _ => ⟨b, hreach huse hpage', hpart⟩, fun a h => ?_⟩ <;>
              cases h
          next hpart =>
            have hpart' := (Bool.not_eq_false _).mp hpart
            split
            next hidle =>
              split
              next =>
                refine ⟨fun h => ?_, fun h => ?_, fun a h => ?_⟩ <;> cases h
              next hagain =>
                have hagain' := (Bool.not_eq_false _).mp hagain
                exact absurd ⟨hpage', fun _ => ⟨hpart', hidle, hagain'⟩⟩ hpass
            next hidle =>
              refine ⟨fun h => ?_, fun h => ?_, fun a h => ?_⟩
              · cases h
              · cases h
              · obtain rfl := Search.found.inj h
                exact ⟨hreach huse hpage', hpart', (Bool.not_eq_false _).mp hidle⟩
        next huse => exact absurd ⟨hpage', fun h => absurd h huse⟩ hpass

end Fs

/-! ### The function -/

/-- What `cacheAllocBlock` works on: the labels, `struct FreeList`, and whether `fl->lk` is held. -/
structure Allocator where
  labels : Labels
  last : UInt32
  fin : UInt32
  nused : UInt32
  held : Bool

/-- How it ends: with a block, with the error that the disk is full, or with another error. -/
inductive AllocReturn
  | block (a : ℕ)
  | diskFull
  | failed
deriving DecidableEq

namespace Allocator

variable (A : Allocator)

/-- `cacheAllocBlock`, which takes `fl->lk` at its beginning. -/
def cacheAllocBlock (io : AllocIo) (type : UInt8) (tag epoch epochLow : UInt32) :
    AllocReturn × Allocator :=
  let A := { A with held := true }
  if io.start = false then (.failed, { A with held := false })
  else
    match scan A.labels io epochLow A.fin A.last 0 with
    | .full => (.diskFull, { A with last := 0, held := false })
    | .failed a => (.failed, { A with last := UInt32.ofNat a, held := false })
    | .failedAgain => (.failed, { A with held := false })
    -- two exits without qunlock
    | .lost => (.failed, A)
    | .found a =>
      if io.set = false then (.failed, { A with last := UInt32.ofNat a })
      else
        (.block a, {
          A with
          labels := A.labels.set a ⟨type, bsAlloc, tag, epoch, notClosed⟩
          last := UInt32.ofNat a
          nused := A.nused + 1
          held := false })

/-- The labels and the free list as a file system. -/
def fs : Fs where
  size := A.fin.toNat
  label := A.labels.get
  data _ _ := none
  slots := 0
  lpb := A.labels.lpb
  last := A.last.toNat
  nused := A.nused
  epochLow := 0
  elo := 0
  ehi := 0
  stuck := A.held
  unlinking _ := []

theorem scan_eq (io : AllocIo) (epochLow : UInt32) : scan A.labels io epochLow A.fin A.last 0 =
      A.fs.search io epochLow (visits A.fin A.last 0) := scan_eq_search rfl rfl

/-- The scan visits every block. -/
theorem mem_visits (ha : a < A.fin.toNat) : a ∈ visits A.fin A.last 0 := by
  rw [visits, if_pos rfl]
  exact mem_append_right _ (mem_range.2 (by omega))

/-- The addresses are those of the search for a file system. -/
theorem visits_eq_candidates (hlast : A.last.toNat + 1 < 2 ^ 32) (hfin : 0 < A.fin.toNat) :
    visits A.fin A.last 0 = A.fs.candidates := by
  have hnext : (A.last + 1).toNat = A.last.toNat + 1 := by
    rw [UInt32.toNat_add, UInt32.toNat_one, Nat.mod_eq_of_lt hlast]
  rw [visits, if_pos rfl, hnext, Nat.max_eq_left hfin]
  rfl

/-- **The labels on disk refine the labels of the file system**: the function does to them what
`Plan9.Fossil.Fs.cacheAllocBlock` does to a file system, and leaves the lock behind when that is
stuck. -/
theorem fs_cacheAllocBlock (io : AllocIo) (type : UInt8) (tag epoch epochLow : UInt32)
    (hlast : A.last.toNat + 1 < 2 ^ 32) (hfin : 0 < A.fin.toNat) (hheld : A.held = false) :
    (A.cacheAllocBlock io type tag epoch epochLow).2.fs =
      (A.fs.cacheAllocBlock io type tag epoch epochLow).2 := by
  have hvisits := A.visits_eq_candidates hlast hfin
  have hbound : ∀ a, A.fs.search io epochLow A.fs.candidates = .found a ∨
      A.fs.search io epochLow A.fs.candidates = .failed a → a < 2 ^ 32 := by
    intro a ha
    have hmem := Fs.mem_of_search ha
    rw [Fs.candidates, mem_append, mem_range'_1, mem_range] at hmem
    have hsize : A.fs.size < 2 ^ 32 := A.fin.toNat_lt
    omega
  have hstuck : A.fs.stuck = false := hheld
  rw [cacheAllocBlock, Fs.cacheAllocBlock]
  by_cases hstart : io.start = false
  · rw [if_pos hstart, if_pos hstart, ← hheld]
  · rw [if_neg hstart, if_neg hstart]
    simp only [scan_eq, hvisits]
    cases hr : A.fs.search io epochLow A.fs.candidates with
    | full =>
      simp only [← hstuck]
      rfl
    | failed a =>
      simp only [fs, UInt32.toNat_ofNat_of_lt' (hbound a (Or.inr hr)), hheld]
    | failedAgain =>
      simp only [← hstuck]
      rfl
    | lost => rfl
    | found a =>
      have ha := UInt32.toNat_ofNat_of_lt' (hbound a (Or.inl hr))
      have hlabel : (A.labels.set a ⟨type, bsAlloc, tag, epoch, notClosed⟩).get =
          Function.update A.labels.get a ⟨type, bsAlloc, tag, epoch, notClosed⟩ := by
        funext b
        rw [Labels.get_set, Function.update_apply]
      by_cases hset : io.set = false
      · simp only [if_pos hset, fs, ha]
      · simp only [if_neg hset, fs, ha, hlabel, hheld]
        rfl

/-- A label of a block that may be allocated: free, or closed early enough, and not bad. -/
def Allocatable (l : Label) (epochLow : UInt32) : Prop :=
  l.ok = true ∧ l.state ≠ bsBad ∧ (l.state = bsFree ∨
    l.state &&& bsClosed ≠ 0 ∧ (l.epochClose ≤ epochLow ∨ l.epoch = l.epochClose))

theorem allocatable_iff (A : Allocator) (epochLow : UInt32) (a : ℕ) :
    Allocatable (A.labels.get a) epochLow ↔
      A.fs.Usable epochLow a ∧ (A.labels.get a).state ≠ bsBad := by
  have hlabel : A.fs.label a = A.labels.get a := rfl
  rw [Allocatable, Fs.Usable, hlabel, Label.usable, Bool.and_eq_true, Bool.or_eq_true,
    Bool.and_eq_true, Bool.or_eq_true, decide_eq_true_eq, decide_eq_true_eq, decide_eq_true_eq,
    decide_eq_true_eq]
  tauto

/-- **What `cacheAllocBlock` promises**: only blocks that may be allocated are, it says that the
disk is full only if no block that is not dirty may be, and `fl->lk` is given back. -/
structure Exact (io : AllocIo) (epochLow : UInt32) (r : AllocReturn × Allocator) : Prop where
  block : ∀ a, r.1 = .block a → Allocatable (A.labels.get a) epochLow
  diskFull : r.1 = .diskFull → ∀ a < A.fin.toNat,
    Allocatable (A.labels.get a) epochLow → io.idle a = false
  released : r.2.held = false

/-- **When the promise is kept**: if the blocks that can be used again, by their labels, and to
which the scan comes can be loaded, and the first of them that is not dirty is not bad and gets
its label. -/
theorem cacheAllocBlock_exact_iff (io : AllocIo) (type : UInt8) (tag epoch epochLow : UInt32) :
    A.Exact io epochLow (A.cacheAllocBlock io type tag epoch epochLow) ↔
      (io.start = true → ∀ a, A.fs.Reaches io epochLow (visits A.fin A.last 0) a →
        io.part a = true ∧
          (io.idle a = true → io.set = true ∧ (A.labels.get a).state ≠ bsBad)) := by
  obtain ⟨hfull, hlost, hfound⟩ :=
    @Fs.exists_reaches A.fs io epochLow (visits A.fin A.last 0)
  rw [← A.scan_eq] at hfull hlost hfound
  rw [cacheAllocBlock]
  constructor
  · intro h hstart a ha
    rw [if_neg (by rw [hstart]; exact Bool.noConfusion)] at h
    obtain ⟨hlostEq, hfoundEq⟩ := ha.search_eq
    rw [← A.scan_eq] at hlostEq hfoundEq
    have hpart : io.part a = true := by
      by_contra hpart
      simp only [hlostEq ((Bool.not_eq_true _).mp hpart)] at h
      exact absurd h.released Bool.noConfusion
    refine ⟨hpart, fun hidle => ?_⟩
    simp only [hfoundEq hpart hidle] at h
    have hset : io.set = true := by
      by_contra hset
      rw [if_pos ((Bool.not_eq_true _).mp hset)] at h
      exact absurd h.released Bool.noConfusion
    rw [if_neg (by rw [hset]; exact Bool.noConfusion)] at h
    exact ⟨hset, (h.block a rfl).2.1⟩
  · intro hgood
    split
    next => exact ⟨fun a h => (by cases h), fun h => (by cases h), rfl⟩
    next hstart =>
      have hgood' := hgood ((Bool.not_eq_false _).mp hstart)
      simp only
      split
      next h =>
        refine ⟨fun a h => (by cases h), fun _ a ha hal => ?_, rfl⟩
        exact ((hfull h a (A.mem_visits ha)).busy ((A.allocatable_iff epochLow a).1 hal).1).2.1
      next => exact ⟨fun a h => (by cases h), fun h => (by cases h), rfl⟩
      next => exact ⟨fun a h => (by cases h), fun h => (by cases h), rfl⟩
      next h =>
        obtain ⟨a, ha, hpart⟩ := hlost h
        rw [(hgood' a ha).1] at hpart
        cases hpart
      next a h =>
        obtain ⟨ha, hpart, hidle⟩ := hfound a h
        obtain ⟨hset, hbad⟩ := (hgood' a ha).2 hidle
        rw [if_neg (by rw [hset]; exact Bool.noConfusion)]
        refine ⟨fun b hb => ?_, fun h => (by cases h), rfl⟩
        obtain rfl := AllocReturn.block.inj hb
        exact (A.allocatable_iff epochLow a).2 ⟨ha.usable, hbad⟩

/-- One block, whose label is bad but has no epochs. -/
def oneBad : Allocator where
  labels := ⟨fun j => if j = 0 then bsBad else 0, labelSize, Nat.le_refl _⟩
  last := 0
  fin := 1
  nused := 0
  held := false

/-- The disk does what it is asked to do. -/
def willing : AllocIo := ⟨true, fun _ => true, fun _ => true, fun _ => true, fun _ => true, true⟩

/-- Three blocks, of which the second and the third are in use. -/
def threeLabels : Allocator where
  labels := ⟨fun j => if j < 14 then 0 else if j % 14 = 0 then 1 else
    if 6 ≤ j % 14 ∧ j % 14 < 10 then 255 else 0, 3 * labelSize, Nat.le_of_ble_eq_true rfl⟩
  last := 1
  fin := 3
  nused := 2
  held := false

/-- The first block is found behind the others, on disk and in the file system. -/
theorem fs_cacheAllocBlock_threeLabels : (threeLabels.cacheAllocBlock willing 0 0 1 0).2.fs =
    (threeLabels.fs.cacheAllocBlock willing 0 0 1 0).2 :=
  threeLabels.fs_cacheAllocBlock willing 0 0 1 0 (by decide) (by decide) rfl

/-- A block whose label is bad is allocated. -/
theorem oneBad_not_exact : ¬oneBad.Exact willing 0 (oneBad.cacheAllocBlock willing 0 0 1 0) := by
  intro h
  have hfound : (oneBad.cacheAllocBlock willing 0 0 1 0).1 = .block 0 := by
    rw [cacheAllocBlock, if_neg (by decide)]
    simp only [oneBad.scan_eq]
    rfl
  exact (h.block 0 hfound).2.1 rfl

end Allocator

end Fossil

end Plan9
