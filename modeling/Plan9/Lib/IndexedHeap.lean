import Mathlib.Logic.Function.Basic
import Mathlib.Order.Lattice
import Mathlib.Data.Nat.Basic

/-!
# Heaps whose elements know their place

A binary heap in an array, with the place of every element kept beside the array, so that
an element can be moved or taken out wherever it is. The keys are a function of the
elements: they may all change at once, as long as the order stays.

Taking out the last element moves it up and down at a place that is not part of the heap
any more. This is harmless only because the heap is ordered: otherwise the element comes
back into the heap, and its parent is lost. The top is the exception, as there is nothing
above it; whoever takes out only that can do without the order.

* `Plan9.Lib.IndexedHeap.Valid` – every element is where its place says;
* `Plan9.Lib.IndexedHeap.fix_spec`, `Plan9.Lib.IndexedHeap.insert_spec`,
  `Plan9.Lib.IndexedHeap.remove_spec`, `Plan9.Lib.IndexedHeap.erase_spec` – the operations
  keep that, and the order;
* `Plan9.Lib.IndexedHeap.fix_sifted`, `Plan9.Lib.IndexedHeap.insert_sifted`,
  `Plan9.Lib.IndexedHeap.erase_root` – what they keep in a heap that is not ordered.
-/

namespace Plan9

namespace Lib

open Function

/-- What holds of the new value, and of all others, holds of a function that has one new value. -/
@[elab_as_elim]
theorem update_cases {α β : Type*} [DecidableEq α] {f : α → β} {a : α} {v : β} {motive : β → Prop}
    (z : α) (h_self : z = a → motive v) (h_other : z ≠ a → motive (f z)) :
    motive (update f a v z) := by
  by_cases hz : z = a
  · rw [hz, update_self]
    exact h_self hz
  · rw [update_of_ne hz]
    exact h_other hz

/-- A heap of `size` elements in the array `arr`, and the places of the elements. -/
structure IndexedHeap (ι : Type*) where
  arr : ℕ → ι
  pos : ι → Option ℕ
  size : ℕ

namespace IndexedHeap

variable {ι κ : Type*} [DecidableEq ι] [LinearOrder κ] (key : ι → κ) (x : ι)

/-- The place above a place. -/
def parent (i : ℕ) : ℕ := (i - 1) / 2

/-- Put an element at a place. -/
def place (h : IndexedHeap ι) (i : ℕ) (y : ι) : IndexedHeap ι where
  arr := Function.update h.arr i y
  pos := Function.update h.pos y (some i)
  size := h.size

/-- Move the free place `i` up, and put `x` there. The result has the place. The first argument
bounds the rounds. -/
def siftUp : ℕ → IndexedHeap ι → ℕ → ℕ × IndexedHeap ι
  | 0, h, i => (i, h.place i x)
  | k + 1, h, i =>
    if i = 0 ∨ key (h.arr (parent i)) ≤ key x then (i, h.place i x)
    else siftUp k (h.place i (h.arr (parent i))) (parent i)

/-- The place below `i` with the smaller key. -/
def child (h : IndexedHeap ι) (i : ℕ) : ℕ :=
  if 2 * i + 2 < h.size ∧ key (h.arr (2 * i + 2)) < key (h.arr (2 * i + 1)) then 2 * i + 2
  else 2 * i + 1

/-- Move the free place `i` down, and put `x` there. -/
def siftDown : ℕ → IndexedHeap ι → ℕ → IndexedHeap ι
  | 0, h, i => h.place i x
  | k + 1, h, i =>
    if h.size ≤ 2 * i + 1 ∨ key x ≤ key (h.arr (child key h i)) then h.place i x
    else siftDown k (h.place i (h.arr (child key h i))) (child key h i)

/-- Put `x` where it belongs, from the free place `i`. -/
def fix (h : IndexedHeap ι) (i : ℕ) : IndexedHeap ι :=
  let r := siftUp key x i h i
  if r.1 = i then siftDown key x h.size r.2 i else r.2

/-- Add an element. -/
def insert (h : IndexedHeap ι) : IndexedHeap ι :=
  (siftUp key x h.size { h with size := h.size + 1 } h.size).2

/-- The heap without the place of `o`. -/
def forget (h : IndexedHeap ι) (o : ι) : IndexedHeap ι :=
  { h with pos := Function.update h.pos o none }

/-- Take an element out: the last one goes to its place, even if it is the one. -/
def erase (h : IndexedHeap ι) : IndexedHeap ι :=
  match h.pos x with
  | none => h
  | some i =>
    let h := { h with size := h.size - 1 }
    (fix key (h.arr h.size) h i).forget x

/-- Take an element out, and stop if it was the last one. -/
def remove (h : IndexedHeap ι) : IndexedHeap ι :=
  match h.pos x with
  | none => h
  | some i =>
    let h := { h.forget x with size := h.size - 1 }
    if i = h.size then h else fix key (h.arr h.size) h i

/-- Every element is where its place says. -/
structure Valid (h : IndexedHeap ι) : Prop where
  pos_arr : ∀ i < h.size, h.pos (h.arr i) = some i
  arr_pos : ∀ y i, h.pos y = some i → i < h.size ∧ h.arr i = y

/-- The order of the heap. -/
def Ordered (h : IndexedHeap ι) : Prop :=
  ∀ i, 0 < i → i < h.size → key (h.arr (parent i)) ≤ key (h.arr i)

/-- The place `i` is free for `x`, and all other elements are where their places say. -/
structure Hole (h : IndexedHeap ι) (i : ℕ) (x : ι) : Prop where
  lt : i < h.size
  pos_arr : ∀ j < h.size, j ≠ i → h.pos (h.arr j) = some j ∧ h.arr j ≠ x
  arr_pos : ∀ y j, y ≠ x → h.pos y = some j → j < h.size ∧ j ≠ i ∧ h.arr j = y

variable {key x} {h h' : IndexedHeap ι} {i j : ℕ} {y : ι}

theorem parent_lt (hi : i ≠ 0) : parent i < i := by
  unfold parent
  omega

theorem le_of_parent_eq (hj : 0 < j) (h : parent j = i) : j = 2 * i + 1 ∨ j = 2 * i + 2 := by
  unfold parent at h
  omega

@[simp]
theorem place_arr_self : (h.place i y).arr i = y := update_self ..

theorem place_arr_of_ne (hj : j ≠ i) : (h.place i y).arr j = h.arr j := update_of_ne hj ..

@[simp]
theorem place_pos_self : (h.place i y).pos y = some i := update_self ..

theorem place_pos_of_ne {z : ι} (hz : z ≠ y) : (h.place i y).pos z = h.pos z := update_of_ne hz ..

@[simp]
theorem place_size : (h.place i y).size = h.size := rfl

/-- Placing twice at one place. -/
theorem place_place : (h.place i x).place i x = h.place i x := by
  simp [place]

omit [DecidableEq ι] in
/-- The order depends on the keys alone. -/
theorem Ordered.congr {key' : ι → κ} (ho : Ordered key h) (hkey : ∀ z, key' z = key z) :
    Ordered key' h := by
  intro i hi hlt
  rw [hkey, hkey]
  exact ho i hi hlt

/-! ### Places -/

/-- The free place is filled. -/
theorem Hole.place (hh : Hole h i x) : Valid (h.place i x) where
  pos_arr j hj := by
    by_cases hji : j = i
    · rw [hji, place_arr_self, place_pos_self]
    · obtain ⟨hpos, hne⟩ := hh.pos_arr j hj hji
      rw [place_arr_of_ne hji, place_pos_of_ne hne, hpos]
  arr_pos y j hy := by
    by_cases hyx : y = x
    · rw [hyx, place_pos_self] at hy
      cases hy
      exact ⟨hh.lt, by rw [place_arr_self, hyx]⟩
    · rw [place_pos_of_ne hyx] at hy
      obtain ⟨hj, hji, harr⟩ := hh.arr_pos y j hyx hy
      exact ⟨hj, by rw [place_arr_of_ne hji, harr]⟩

/-- Another element goes to the free place, and its own becomes free. -/
theorem Hole.move (hh : Hole h i x) (hj : j < h.size) (hji : j ≠ i) :
    Hole (h.place i (h.arr j)) j x := by
  obtain ⟨hposj, hnej⟩ := hh.pos_arr j hj hji
  refine ⟨hj, fun m hm hmj => ?_, fun z m hzx hz => ?_⟩
  · by_cases hmi : m = i
    · rw [hmi, place_arr_self, place_pos_self]
      exact ⟨rfl, hnej⟩
    · obtain ⟨hposm, hnem⟩ := hh.pos_arr m hm hmi
      have hne : h.arr m ≠ h.arr j := by
        intro heq
        rw [heq, hposj] at hposm
        exact hmj (Option.some.inj hposm).symm
      rw [place_arr_of_ne hmi, place_pos_of_ne hne]
      exact ⟨hposm, hnem⟩
  · by_cases hzj : z = h.arr j
    · rw [hzj, place_pos_self] at hz
      cases hz
      exact ⟨hh.lt, Ne.symm hji, by rw [place_arr_self, hzj]⟩
    · rw [place_pos_of_ne hzj] at hz
      obtain ⟨hm, hmi, harr⟩ := hh.arr_pos z m hzx hz
      refine ⟨hm, fun hmj => hzj (by rw [← harr, hmj]), ?_⟩
      rw [place_arr_of_ne hmi, harr]

/-- `x` is put back at the free place. -/
theorem Hole.put (hh : Hole h i x) : Hole (h.place i x) i x := by
  refine ⟨hh.lt, fun m hm hmi => ?_, fun z m hzx hz => ?_⟩
  · obtain ⟨hposm, hnem⟩ := hh.pos_arr m hm hmi
    rw [place_arr_of_ne hmi, place_pos_of_ne hnem]
    exact ⟨hposm, hnem⟩
  · rw [place_pos_of_ne hzx] at hz
    obtain ⟨hm, hmi, harr⟩ := hh.arr_pos z m hzx hz
    exact ⟨hm, hmi, by rw [place_arr_of_ne hmi, harr]⟩

omit [DecidableEq ι] in
/-- The place of an element is free for it. -/
theorem Valid.hole (hv : Valid h) (hx : h.pos x = some i) : Hole h i x := by
  obtain ⟨hi, harr⟩ := hv.arr_pos x i hx
  refine ⟨hi, fun m hm hmi => ⟨hv.pos_arr m hm, fun heq => ?_⟩, fun z m hzx hz => ?_⟩
  · have hpos := hv.pos_arr m hm
    rw [heq, hx] at hpos
    exact hmi (Option.some.inj hpos).symm
  · obtain ⟨hm, harrm⟩ := hv.arr_pos z m hz
    refine ⟨hm, fun hmi => hzx ?_, harrm⟩
    rw [← harrm, hmi, harr]

/-- The elements that are not in the heap, after one was placed. -/
theorem place_pos_eq_none {z : ι} (hy : h.pos y ≠ none) :
    (h.place i y).pos z = none ↔ h.pos z = none := by
  by_cases hz : z = y
  · rw [hz, place_pos_self]
    exact iff_of_false (by simp) hy
  · rw [place_pos_of_ne hz]

/-- What sifting `x` keeps: the places, the size, and what is in the heap besides `x`. -/
structure Sifted (h h' : IndexedHeap ι) (x : ι) : Prop where
  valid : Valid h'
  size_eq : h'.size = h.size
  mem : h'.pos x ≠ none
  others : ∀ z ≠ x, h'.pos z = none ↔ h.pos z = none

theorem Hole.sifted (hh : Hole h i x) : Sifted h (h.place i x) x :=
  ⟨hh.place, rfl, by simp, fun _ hz => by rw [place_pos_of_ne hz]⟩

theorem Sifted.of_place (hpos : h.pos y ≠ none) (hs : Sifted (h.place i y) h' x) : Sifted h h' x :=
  ⟨hs.valid, hs.size_eq, hs.mem, fun z hz => (hs.others z hz).trans (place_pos_eq_none hpos)⟩

variable {k : ℕ}

/-- Moving up keeps the places. -/
theorem siftUp_sifted (hh : Hole h i x) : Sifted h (siftUp key x k h i).2 x := by
  induction k generalizing h i with
  | zero => exact hh.sifted
  | succ k ih =>
    rw [siftUp]
    split
    · exact hh.sifted
    · rename_i hgo
      have hlt := parent_lt fun hi => hgo (.inl hi)
      have hsize := hh.lt
      obtain ⟨hpos, -⟩ := hh.pos_arr (parent i) (by omega) (by omega)
      exact .of_place (by rw [hpos]; simp) (ih (hh.move (by omega) (by omega)))

/-- The element stays at its place, or goes up. -/
theorem siftUp_fst (key : ι → κ) (x : ι) (k : ℕ) (h : IndexedHeap ι) (i : ℕ) :
    (siftUp key x k h i).1 < i ∨ siftUp key x k h i = (i, h.place i x) := by
  induction k generalizing h i with
  | zero => exact .inr rfl
  | succ k ih =>
    rw [siftUp]
    split
    · exact .inr rfl
    · rename_i hgo
      have hlt := parent_lt fun hi => hgo (.inl hi)
      rcases ih (h.place i (h.arr (parent i))) (parent i) with hup | heq
      · exact .inl (hup.trans hlt)
      · rw [heq]
        exact .inl hlt

omit [DecidableEq ι] in
theorem child_eq (key : ι → κ) (h : IndexedHeap ι) (i : ℕ) :
    child key h i = 2 * i + 1 ∨ child key h i = 2 * i + 2 := by
  rw [child]
  split
  · exact .inr rfl
  · exact .inl rfl

omit [DecidableEq ι] in
theorem child_lt (hi : 2 * i + 1 < h.size) : child key h i < h.size := by
  rw [child]
  split
  · rename_i hc
    exact hc.1
  · exact hi

/-- Moving down keeps the places. -/
theorem siftDown_sifted (hh : Hole h i x) : Sifted h (siftDown key x k h i) x := by
  induction k generalizing h i with
  | zero => exact hh.sifted
  | succ k ih =>
    rw [siftDown]
    split
    · exact hh.sifted
    · rename_i hgo
      have hlt : child key h i < h.size := child_lt (not_le.1 fun hle => hgo (.inl hle))
      have hne : child key h i ≠ i := by
        have := child_eq key h i
        omega
      obtain ⟨hpos, -⟩ := hh.pos_arr _ hlt hne
      exact .of_place (by rw [hpos]; simp) (ih (hh.move hlt hne))

/-- The element `o` is not in the array, but maybe at the place `i`. -/
def Absent (h : IndexedHeap ι) (i : ℕ) (o : ι) : Prop := ∀ j < h.size, j ≠ i → h.arr j ≠ o

theorem place_forget {o : ι} (hy : y ≠ o) : (h.forget o).place i y = (h.place i y).forget o := by
  simp only [place, forget, update_comm hy]

theorem Absent.place {o : ι} (ha : Absent h i o) (hj : j < h.size) (hji : j ≠ i) :
    Absent (h.place i (h.arr j)) j o := by
  intro m hm hmj
  by_cases hmi : m = i
  · rw [hmi, place_arr_self]
    exact ha j hj hji
  · rw [place_arr_of_ne hmi]
    exact ha m hm hmi

/-- Moving up does not look at places. -/
theorem siftUp_forget {o : ι} (hx : x ≠ o) (hi : i < h.size) (ha : Absent h i o) :
    siftUp key x k (h.forget o) i = ((siftUp key x k h i).1, (siftUp key x k h i).2.forget o) := by
  induction k generalizing h i with
  | zero => rw [siftUp, siftUp, place_forget hx]
  | succ k ih =>
    have harr : (h.forget o).arr = h.arr := rfl
    rw [siftUp, siftUp, harr]
    split
    · rw [place_forget hx]
    · rename_i hgo
      have hlt := parent_lt fun h0 => hgo (.inl h0)
      have hplt : parent i < h.size := by omega
      rw [place_forget (ha _ hplt hlt.ne)]
      exact ih hplt (ha.place hplt hlt.ne)

/-- Moving down does not look at places. -/
theorem siftDown_forget {o : ι} (hx : x ≠ o) (ha : Absent h i o) :
    siftDown key x k (h.forget o) i = (siftDown key x k h i).forget o := by
  induction k generalizing h i with
  | zero => rw [siftDown, siftDown, place_forget hx]
  | succ k ih =>
    have harr : (h.forget o).arr = h.arr := rfl
    have hsize : (h.forget o).size = h.size := rfl
    have hchild : child key (h.forget o) i = child key h i := rfl
    rw [siftDown, siftDown, harr, hsize, hchild]
    split
    · rw [place_forget hx]
    · rename_i hgo
      have hlt : child key h i < h.size := child_lt (not_le.1 fun hle => hgo (.inl hle))
      have hne : child key h i ≠ i := by
        have := child_eq key h i
        omega
      rw [place_forget (ha _ hlt hne)]
      exact ih (ha.place hlt hne)

theorem fix_forget {o : ι} (hx : x ≠ o) (hi : i < h.size) (ha : Absent h i o) :
    fix key x (h.forget o) i = (fix key x h i).forget o := by
  have hsize : (h.forget o).size = h.size := rfl
  simp only [fix, siftUp_forget hx hi ha, hsize]
  split
  · rename_i hstay
    rcases siftUp_fst key x i h i with hup | heq
    · omega
    · rw [heq]
      refine siftDown_forget hx fun m hm hmi => ?_
      rw [place_arr_of_ne hmi]
      exact ha m hm hmi
  · rfl

/-! ### Order -/

/-- The pairs that do not touch the free place are in order, and so are those across it. -/
structure Gap (key : ι → κ) (h : IndexedHeap ι) (i : ℕ) : Prop where
  apart : ∀ j, 0 < j → j < h.size → j ≠ i → parent j ≠ i →
    key (h.arr (parent j)) ≤ key (h.arr j)
  across : i ≠ 0 → ∀ j, 0 < j → j < h.size → parent j = i →
    key (h.arr (parent i)) ≤ key (h.arr j)

omit [DecidableEq ι] in
/-- All keys change, but not their order. -/
theorem Ordered.mono {key' : ι → κ} (ho : Ordered key h)
    (hmono : ∀ j < h.size, ∀ j' < h.size, key (h.arr j) ≤ key (h.arr j') →
      key' (h.arr j) ≤ key' (h.arr j')) : Ordered key' h := by
  intro j hj hlt
  have := parent_lt (show j ≠ 0 by omega)
  exact hmono _ (by omega) j hlt (ho j hj hlt)

omit [DecidableEq ι] in
/-- All keys change, but not the order of those besides one. -/
theorem Ordered.gap {key' : ι → κ} (ho : Ordered key h) (hi : i < h.size)
    (hmono : ∀ j < h.size, ∀ j' < h.size, j ≠ i → j' ≠ i → key (h.arr j) ≤ key (h.arr j') →
      key' (h.arr j) ≤ key' (h.arr j')) : Gap key' h i := by
  refine ⟨fun j hj hlt hji hpi => ?_, fun h0 j hj hlt hp => ?_⟩
  · have := parent_lt (show j ≠ 0 by omega)
    exact hmono _ (by omega) j hlt hpi hji (ho j hj hlt)
  · have := parent_lt h0
    have := parent_lt (show j ≠ 0 by omega)
    have hdown := ho j hj hlt
    rw [hp] at hdown
    exact hmono _ (by omega) j hlt (by omega) (by omega) ((ho i (by omega) hi).trans hdown)

/-- `x` fits at the free place. -/
theorem Gap.place (hg : Gap key h i) (habove : i ≠ 0 → key (h.arr (parent i)) ≤ key x)
    (hbelow : ∀ j, 0 < j → j < h.size → parent j = i → key x ≤ key (h.arr j)) :
    Ordered key (h.place i x) := by
  intro j hj hlt
  by_cases hji : j = i
  · rw [hji, place_arr_self, place_arr_of_ne (parent_lt (by omega)).ne]
    exact habove (by omega)
  · rw [place_arr_of_ne hji]
    by_cases hpi : parent j = i
    · rw [hpi, place_arr_self]
      exact hbelow j hj hlt hpi
    · rw [place_arr_of_ne hpi]
      exact hg.apart j hj hlt hji hpi

/-- The parent of the free place comes down to it. -/
theorem Gap.up (hg : Gap key h i) (hi : i ≠ 0) (hlt : i < h.size) :
    Gap key (h.place i (h.arr (parent i))) (parent i) := by
  have hp := parent_lt hi
  have hup : parent i ≠ 0 → key (h.arr (parent (parent i))) ≤ key (h.arr (parent i)) := by
    intro h0
    have := parent_lt h0
    exact hg.apart (parent i) (by omega) (by omega) (by omega) (by omega)
  refine ⟨fun j hj hjlt hjp hpj => ?_, fun h0 j hj hjlt hpj => ?_⟩
  · have hji : j ≠ i := fun heq => hpj (congrArg parent heq)
    rw [place_arr_of_ne hji]
    by_cases hpi : parent j = i
    · rw [hpi, place_arr_self]
      exact hg.across hi j hj hjlt hpi
    · rw [place_arr_of_ne hpi]
      exact hg.apart j hj hjlt hji hpi
  · have := parent_lt h0
    rw [place_arr_of_ne (show parent (parent i) ≠ i by omega)]
    by_cases hji : j = i
    · rw [hji, place_arr_self]
      exact hup h0
    · rw [place_arr_of_ne hji]
      refine (hup h0).trans ?_
      rw [← hpj]
      exact hg.apart j hj hjlt hji (by omega)

/-- What is below the free place stays below what goes up. -/
theorem Gap.up_below (hg : Gap key h i) (hi : i ≠ 0) (hx : key x ≤ key (h.arr (parent i))) :
    ∀ j, 0 < j → j < h.size → parent j = parent i →
      key x ≤ key ((h.place i (h.arr (parent i))).arr j) := by
  have hp := parent_lt hi
  intro j hj hjlt hpj
  by_cases hji : j = i
  · rw [hji, place_arr_self]
    exact hx
  · rw [place_arr_of_ne hji]
    refine hx.trans ?_
    rw [← hpj]
    exact hg.apart j hj hjlt hji (by omega)

/-- Moving up keeps the order, if `x` fits above what is below. -/
theorem siftUp_ordered (hg : Gap key h i) (hlt : i < h.size) (hk : i ≤ k)
    (hbelow : ∀ j, 0 < j → j < h.size → parent j = i → key x ≤ key (h.arr j)) :
    Ordered key (siftUp key x k h i).2 := by
  induction k generalizing h i with
  | zero => exact hg.place (fun h0 => absurd (Nat.le_zero.1 hk) h0) hbelow
  | succ k ih =>
    rw [siftUp]
    split
    · rename_i hstop
      exact hg.place (fun h0 => hstop.resolve_left h0) hbelow
    · rename_i hgo
      have hi : i ≠ 0 := fun h0 => hgo (.inl h0)
      have hx : key x ≤ key (h.arr (parent i)) := le_of_not_ge fun hle => hgo (.inr hle)
      have hp := parent_lt hi
      exact ih (hg.up hi hlt) (show parent i < h.size by omega) (by omega) (hg.up_below hi hx)

omit [DecidableEq ι] in
/-- The child with the smaller key. -/
theorem child_le (hj : 0 < j) (hlt : j < h.size) (hp : parent j = i) :
    key (h.arr (child key h i)) ≤ key (h.arr j) := by
  rw [child]
  rcases le_of_parent_eq hj hp with rfl | rfl
  · split
    · rename_i hc
      exact hc.2.le
    · exact le_rfl
  · split
    · exact le_rfl
    · rename_i hc
      exact not_lt.1 fun hlt' => hc ⟨hlt, hlt'⟩

/-- The smaller child of the free place comes up to it. -/
theorem Gap.down (hg : Gap key h i) (hi : 2 * i + 1 < h.size) :
    Gap key (h.place i (h.arr (child key h i))) (child key h i) := by
  have hc := child_eq key h i
  have hclt : child key h i < h.size := child_lt hi
  have hpc : parent (child key h i) = i := by
    unfold parent
    omega
  generalize hchild : child key h i = c at hc hclt hpc
  have hmin : ∀ j, 0 < j → j < h.size → parent j = i → key (h.arr c) ≤ key (h.arr j) := by
    intro j hj hlt hp
    rw [← hchild]
    exact child_le hj hlt hp
  refine ⟨fun j hj hjlt hjc hpj => ?_, fun h0 j hj hjlt hpj => ?_⟩
  · by_cases hji : j = i
    · have := parent_lt (show j ≠ 0 by omega)
      rw [place_arr_of_ne (show parent j ≠ i by omega), hji, place_arr_self]
      exact hg.across (by omega) c (by omega) hclt hpc
    · rw [place_arr_of_ne hji]
      by_cases hpi : parent j = i
      · rw [hpi, place_arr_self]
        exact hmin j hj hjlt hpi
      · rw [place_arr_of_ne hpi]
        exact hg.apart j hj hjlt hji hpi
  · have := parent_lt (show j ≠ 0 by omega)
    rw [hpc, place_arr_self, place_arr_of_ne (show j ≠ i by omega), ← hpj]
    exact hg.apart j hj hjlt (by omega) (by omega)

/-- Moving down keeps the order, if `x` fits below what is above. -/
theorem siftDown_ordered (hg : Gap key h i) (hk : h.size ≤ i + k)
    (habove : i ≠ 0 → key (h.arr (parent i)) ≤ key x) : Ordered key (siftDown key x k h i) := by
  induction k generalizing h i with
  | zero =>
    refine hg.place habove fun j hj hlt hp => ?_
    have := le_of_parent_eq hj hp
    omega
  | succ k ih =>
    rw [siftDown]
    split
    · rename_i hstop
      refine hg.place habove fun j hj hlt hp => ?_
      have hj' := le_of_parent_eq hj hp
      exact (hstop.resolve_left (by omega)).trans (child_le hj hlt hp)
    · rename_i hgo
      have hi : 2 * i + 1 < h.size := not_le.1 fun hle => hgo (.inl hle)
      have hc := child_eq key h i
      have hpc : parent (child key h i) = i := by
        unfold parent
        omega
      refine ih (hg.down hi) (show h.size ≤ _ by omega) fun _ => ?_
      rw [hpc, place_arr_self]
      exact le_of_not_ge fun hle => hgo (.inr hle)

/-! ### The operations -/

/-- An element is put where it belongs: no place is lost, be the heap in order or not. -/
theorem fix_sifted (hh : Hole h i x) : Sifted h (fix key x h i) x := by
  simp only [fix]
  split
  · rename_i hstay
    -- it did not go up, so it stands at the free place
    have heq := (siftUp_fst key x i h i).resolve_left (by omega)
    have hs : Sifted (h.place i x) (siftDown key x h.size (h.place i x) i) x :=
      siftDown_sifted hh.put
    rw [heq]
    refine ⟨hs.valid, hs.size_eq, hs.mem, fun z hz => ?_⟩
    rw [hs.others z hz, place_pos_of_ne hz]
  · exact siftUp_sifted hh

/-- The order is that of the heap again. -/
theorem fix_ordered (hi : i < h.size) (hg : Gap key h i) : Ordered key (fix key x h i) := by
  simp only [fix]
  by_cases hstay : i = 0 ∨ key (h.arr (parent i)) ≤ key x
  · -- it does not go up, so it fits below what is above
    have hup : siftUp key x i h i = (i, h.place i x) := by
      cases i with
      | zero => rfl
      | succ i => rw [siftUp, if_pos hstay]
    rw [hup, if_pos rfl]
    have hg' : Gap key (h.place i x) i := by
      refine ⟨fun j hj hlt hji hpi => ?_, fun h0 j hj hlt hpi => ?_⟩
      · rw [place_arr_of_ne hji, place_arr_of_ne hpi]
        exact hg.apart j hj hlt hji hpi
      · have := parent_lt h0
        have := parent_lt (show j ≠ 0 by omega)
        rw [place_arr_of_ne (show parent i ≠ i by omega), place_arr_of_ne (show j ≠ i by omega)]
        exact hg.across h0 j hj hlt hpi
    refine siftDown_ordered hg' (show h.size ≤ _ by omega) fun h0 => ?_
    rw [place_arr_of_ne (parent_lt h0).ne]
    exact hstay.resolve_left h0
  · -- it goes up, past an element that is above what is below
    have h0 : i ≠ 0 := fun h0 => hstay (.inl h0)
    have hx : key x ≤ key (h.arr (parent i)) := le_of_not_ge fun hle => hstay (.inr hle)
    have hne : (siftUp key x i h i).1 ≠ i := by
      obtain ⟨k, rfl⟩ := Nat.exists_eq_succ_of_ne_zero h0
      have hp := parent_lt h0
      rw [siftUp, if_neg hstay]
      rcases siftUp_fst key x k (h.place (k + 1) (h.arr (parent (k + 1)))) (parent (k + 1)) with
        hup | heq
      · exact (hup.trans hp).ne
      · rw [heq]
        exact hp.ne
    rw [if_neg hne]
    exact siftUp_ordered hg hi le_rfl fun j hj hlt hp => hx.trans (hg.across h0 j hj hlt hp)

/-- **An element whose key has changed** is put where it belongs. -/
theorem fix_spec (hh : Hole h i x) (hg : Gap key h i) :
    Sifted h (fix key x h i) x ∧ Ordered key (fix key x h i) :=
  ⟨fix_sifted hh, fix_ordered hh.lt hg⟩

/-- An element is added, and no place is lost. -/
theorem insert_sifted (key : ι → κ) (hv : Valid h) (hx : h.pos x = none) :
    Sifted { h with size := h.size + 1 } (insert key x h) x := by
  refine siftUp_sifted ⟨Nat.lt_succ_self _, fun j hj hne => ?_, fun z j hzx hz => ?_⟩
  · have hlt : j < h.size := Nat.lt_of_le_of_ne (Nat.le_of_lt_succ hj) hne
    have hpos := hv.pos_arr j hlt
    refine ⟨hpos, fun heq => ?_⟩
    rw [← heq, hpos] at hx
    cases hx
  · obtain ⟨hj, harr⟩ := hv.arr_pos z j hz
    exact ⟨Nat.lt_succ_of_lt hj, hj.ne, harr⟩

/-- **An element is added.** -/
theorem insert_spec (hv : Valid h) (ho : Ordered key h) (hx : h.pos x = none) :
    Valid (insert key x h) ∧ Ordered key (insert key x h) ∧ (insert key x h).size = h.size + 1 ∧
      (insert key x h).pos x ≠ none ∧
      ∀ z ≠ x, (insert key x h).pos z = none ↔ h.pos z = none := by
  have hgap : Gap key { h with size := h.size + 1 } h.size := by
    refine ⟨fun j hj hlt hne _ => ho j hj ?_, fun _ j hj hlt hp => ?_⟩
    · exact Nat.lt_of_le_of_ne (Nat.le_of_lt_succ hlt) hne
    · have hlt' : j < h.size + 1 := hlt
      have := le_of_parent_eq hj hp
      omega
  have hs := insert_sifted key hv hx
  refine ⟨hs.valid, siftUp_ordered hgap (Nat.lt_succ_self _) le_rfl ?_, hs.size_eq, hs.mem,
    hs.others⟩
  intro j hj hlt hp
  have hlt' : j < h.size + 1 := hlt
  have := le_of_parent_eq hj hp
  omega

/-- The last element is taken out: it is moved at a place behind the heap, where it stays. -/
theorem fix_last (ho : Ordered key h) {g : IndexedHeap ι} (hsize : h.size = g.size + 1)
    (harr : g.arr = h.arr) :
    fix key (h.arr g.size) g g.size = g.place g.size (h.arr g.size) := by
  generalize hn : g.size = n at hsize
  have hup : siftUp key (h.arr n) n g n = (n, g.place n (h.arr n)) := by
    cases n with
    | zero => rfl
    | succ k =>
      have hle := ho (k + 1) (Nat.succ_pos k) (by omega)
      rw [siftUp, harr, if_pos (.inr hle)]
  rw [fix, hup]
  simp only [if_true, hn]
  cases n with
  | zero => rw [siftDown, place_place]
  | succ k => rw [siftDown, place_size, hn, if_pos (.inl (by omega)), place_place]

/-- What taking `x` out keeps: the places, and what is in the heap besides `x`. -/
structure Erased (h h' : IndexedHeap ι) (x : ι) : Prop where
  valid : Valid h'
  pos_eq : h'.pos x = none
  others : ∀ z ≠ x, h'.pos z = none ↔ h.pos z = none

/-- Nothing has been put in. -/
theorem Erased.mem {h' : IndexedHeap ι} {z : ι} (he : Erased h h' x) (hz : h'.pos z ≠ none) :
    h.pos z ≠ none := by
  by_cases hzx : z = x
  · rw [hzx] at hz
    exact absurd he.pos_eq hz
  · exact mt (he.others z hzx).2 hz

/-- An element is taken out, be the heap in order or not. -/
theorem remove_erased (key : ι → κ) (x : ι) (hv : Valid h) : Erased h (remove key x h) x := by
  rw [remove]
  cases hx : h.pos x with
  | none => exact ⟨hv, hx, fun _ _ => Iff.rfl⟩
  | some i =>
    obtain ⟨hi, harr⟩ := hv.arr_pos x i hx
    simp only
    generalize hg : ({ h.forget x with size := h.size - 1 } : IndexedHeap ι) = g
    have hgarr : g.arr = h.arr := by rw [← hg]; rfl
    have hsize : h.size = g.size + 1 := by
      rw [← hg]
      exact (Nat.sub_add_cancel (by omega)).symm
    have hforget : (h.forget x).arr = h.arr := rfl
    rw [hforget, show h.size - 1 = g.size by omega]
    have hpos : ∀ z ≠ x, g.pos z = h.pos z := by
      intro z hz
      rw [← hg]
      exact update_of_ne hz ..
    have hnone : g.pos x = none := by
      rw [← hg]
      exact update_self ..
    have hone : ∀ j < h.size, j ≠ i → h.arr j ≠ x := by
      intro j hj hji heq
      have hposj := hv.pos_arr j hj
      rw [heq, hx] at hposj
      exact hji (Option.some.inj hposj).symm
    have hback : ∀ z j, g.pos z = some j → j < h.size ∧ j ≠ i ∧ h.arr j = z := by
      intro z j hz
      have hzx : z ≠ x := by
        rintro rfl
        rw [hnone] at hz
        cases hz
      rw [hpos z hzx] at hz
      obtain ⟨hj, harrj⟩ := hv.arr_pos z j hz
      exact ⟨hj, fun heq => hzx (by rw [← harrj, heq, harr]), harrj⟩
    by_cases hin : i = g.size
    · rw [if_pos hin]
      refine ⟨⟨fun j hj => ?_, fun z j hz => ?_⟩, hnone, fun z hz => by rw [hpos z hz]⟩
      · rw [hgarr, hpos _ (hone j (by omega) (by omega))]
        exact hv.pos_arr j (by omega)
      · obtain ⟨hj, hji, harrj⟩ := hback z j hz
        exact ⟨by omega, by rw [hgarr, harrj]⟩
    · -- the last element goes to the place of `x`
      rw [if_neg hin]
      have hend := hv.pos_arr g.size (by omega)
      have hne : h.arr g.size ≠ x := hone _ (by omega) (Ne.symm hin)
      have hhole : Hole g i (h.arr g.size) := by
        refine ⟨by omega, fun j hj hji => ?_, fun z j hzn hz => ?_⟩
        · have hposj := hv.pos_arr j (by omega)
          rw [hgarr, hpos _ (hone j (by omega) hji)]
          refine ⟨hposj, fun heq => ?_⟩
          rw [heq, hend] at hposj
          have := Option.some.inj hposj
          omega
        · obtain ⟨hj, hji, harrj⟩ := hback z j hz
          have hjn : j ≠ g.size := fun heq => hzn (by rw [← harrj, heq])
          exact ⟨by omega, hji, by rw [hgarr, harrj]⟩
      have hs : Sifted g (fix key (h.arr g.size) g i) (h.arr g.size) := fix_sifted hhole
      refine ⟨hs.valid, ?_, fun z hz => ?_⟩
      · rw [hs.others x (Ne.symm hne), hnone]
      · by_cases hzn : z = h.arr g.size
        · rw [hzn, hend]
          exact iff_of_false hs.mem (by simp)
        · rw [hs.others z hzn, hpos z hz]

/-- The rest stays in order. -/
theorem remove_ordered (hv : Valid h) (ho : Ordered key h) : Ordered key (remove key x h) := by
  rw [remove]
  cases hx : h.pos x with
  | none => exact ho
  | some i =>
    obtain ⟨hi, -⟩ := hv.arr_pos x i hx
    simp only
    split
    · exact fun j hj hlt => ho j hj (lt_of_lt_of_le hlt (Nat.sub_le ..))
    · rename_i hin
      refine fix_ordered (show i < h.size - 1 by omega) ⟨fun j hj hlt _ _ => ?_,
        fun h0 j hj hlt hp => ?_⟩
      · exact ho j hj (lt_of_lt_of_le hlt (Nat.sub_le ..))
      · have hdown := ho j hj (lt_of_lt_of_le hlt (Nat.sub_le ..))
        rw [hp] at hdown
        exact (ho i (by omega) hi).trans hdown

/-- **An element is taken out** of a heap in order. -/
theorem remove_spec (hv : Valid h) (ho : Ordered key h) :
    Erased h (remove key x h) x ∧ Ordered key (remove key x h) :=
  ⟨remove_erased key x hv, remove_ordered hv ho⟩

/-- Going on with the last element changes nothing, if it stays behind the heap. -/
theorem erase_eq_remove (hv : Valid h)
    (hlast : ∀ i, h.pos x = some i → h.size = i + 1 →
      fix key x { h with size := i } i = IndexedHeap.place { h with size := i } i x) :
    erase key x h = remove key x h := by
  rw [erase, remove]
  cases hx : h.pos x with
  | none => rfl
  | some i =>
    obtain ⟨hi, harr⟩ := hv.arr_pos x i hx
    have hsize : (h.forget x).arr = h.arr := rfl
    simp only [hsize]
    by_cases hin : i = h.size - 1
    · rw [if_pos hin, ← hin, harr, hlast i hx (by omega)]
      simp only [place, forget, update_idem, ← harr, update_eq_self]
    · have hone : ∀ j < h.size - 1, j ≠ i → h.arr j ≠ x := by
        intro j hj hji heq
        have hpos := hv.pos_arr j (by omega)
        rw [heq, hx] at hpos
        exact hji (Option.some.inj hpos).symm
      have hne : h.arr (h.size - 1) ≠ x := by
        intro heq
        have hpos := hv.pos_arr (h.size - 1) (by omega)
        rw [heq, hx] at hpos
        exact hin (Option.some.inj hpos)
      rw [if_neg hin]
      exact (fix_forget (h := { h with size := h.size - 1 }) hne (show i < h.size - 1 by omega)
        hone).symm

/-- The top is taken out: it cannot move up, so this needs no order. -/
theorem erase_root (key : ι → κ) (hv : Valid h) (hx : h.pos x = some 0) :
    Erased h (erase key x h) x := by
  rw [erase_eq_remove hv]
  · exact remove_erased key x hv
  · intro i hi _
    obtain rfl := Option.some.inj (hx.symm.trans hi)
    rw [fix, siftUp, if_pos rfl, siftDown, place_place]

/-- **An element is taken out** of a heap in order, as if the last one were not special. -/
theorem erase_spec (hv : Valid h) (ho : Ordered key h) :
    Erased h (erase key x h) x ∧ Ordered key (erase key x h) := by
  rw [erase_eq_remove hv]
  · exact remove_spec hv ho
  · intro i hi hsize
    have hfix := fix_last ho (g := { h with size := i }) hsize rfl
    rwa [(hv.arr_pos x i hi).2] at hfix

/-! ### Keys that a clock gives -/

/-- The time of the last use, as seen from a clock of 32 bits: a tick later it is one less, unless
it was zero. -/
theorem key_tick {x now : UInt32} (hne : x ≠ now) :
    (x - now).toNat = (x - (now + 1)).toNat + 1 := by
  have h1 : x.toNat ≠ now.toNat := fun h => hne (UInt32.toNat_inj.1 h)
  have h2 := x.toNat_lt
  have h3 := now.toNat_lt
  simp only [UInt32.toNat_sub, UInt32.toNat_add]
  have h4 : (1 : UInt32).toNat = 1 := rfl
  rw [h4]
  omega

/-- **One element is used at a tick of the clock**, and all other keys are one less. -/
theorem refix_spec {key key' : ι → ℕ} (hv : Valid h) (ho : Ordered key h)
    (hkey : ∀ z, z ≠ x → h.pos z ≠ none → key z = key' z + 1) (heap : IndexedHeap ι)
    (hheap : heap = (h.pos x).elim h (fix key' x h)) :
    Valid heap ∧ Ordered key' heap ∧ ∀ z, heap.pos z = none ↔ h.pos z = none := by
  have hin : ∀ j < h.size, h.pos (h.arr j) ≠ none := by
    intro j hj
    rw [hv.pos_arr j hj]
    simp
  subst hheap
  cases hpos : h.pos x with
  | none =>
    have hne : ∀ j < h.size, h.arr j ≠ x := fun j hj heq => hin j hj (heq ▸ hpos)
    refine ⟨hv, ho.mono fun j hj j' hj' hle => ?_, fun _ => Iff.rfl⟩
    have h1 := hkey _ (hne j hj) (hin j hj)
    have h2 := hkey _ (hne j' hj') (hin j' hj')
    omega
  | some i =>
    have hhole := hv.hole hpos
    have hne : ∀ j < h.size, j ≠ i → h.arr j ≠ x := fun j hj hji => (hhole.pos_arr j hj hji).2
    have hgap : Gap key' h i := by
      refine ho.gap hhole.lt fun j hj j' hj' hji hji' hle => ?_
      have h1 := hkey _ (hne j hj hji) (hin j hj)
      have h2 := hkey _ (hne j' hj' hji') (hin j' hj')
      omega
    obtain ⟨hs, hord⟩ := fix_spec hhole hgap
    refine ⟨hs.valid, hord, fun z => ?_⟩
    by_cases hz : z = x
    · rw [hz, hpos]
      exact iff_of_false hs.mem (by simp)
    · exact hs.others z hz

end IndexedHeap

end Lib

end Plan9
