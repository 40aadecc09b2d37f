import Mathlib.Data.List.TakeWhile
import Mathlib.Tactic.SplitIfs
import Plan9.Lib.Bytes

/-!
# Messages of numbers and counted strings

A message is a list of numbers of fixed width, the low byte first, and of strings behind a two-byte
length. A decoder that wants its strings terminated moves each of them down by one byte, over the
high byte of its length, and writes a zero behind it; what it then returns are the places of the
strings.

* `Plan9.Lib.leVal_leBytes`, `Plan9.Lib.leBytes_leVal` – little-endian numbers;
* `Plan9.Lib.Val.wire`, `Plan9.Lib.Val.cooked` – a message before and after its strings are moved;
* `Plan9.Lib.Val.places` – where the strings are;
* `Plan9.Lib.Val.map_read_places` – the strings are found at these places.
-/

namespace Plan9

namespace Lib

open List

/-! ### Little-endian numbers -/

/-- The `n` low bytes of `v`, the least significant first. -/
def leBytes (n v : ℕ) : List UInt8 := (beBytes n v).reverse

/-- The number a byte string spells, its first byte the least significant. -/
def leVal (bs : List UInt8) : ℕ := beVal bs.reverse

@[simp]
theorem length_leBytes (n v : ℕ) : (leBytes n v).length = n := by
  simp [leBytes]

theorem leVal_lt (bs : List UInt8) : leVal bs < 256 ^ bs.length := by
  have h := beVal_lt bs.reverse
  rwa [length_reverse] at h

theorem leVal_leBytes_mod (n v : ℕ) : leVal (leBytes n v) = v % 256 ^ n := by
  rw [leVal, leBytes, reverse_reverse, beVal_beBytes_mod]

theorem leVal_leBytes {n v : ℕ} (h : v < 256 ^ n) : leVal (leBytes n v) = v := by
  rw [leVal_leBytes_mod, Nat.mod_eq_of_lt h]

theorem leBytes_leVal (bs : List UInt8) : leBytes bs.length (leVal bs) = bs := by
  have h := beBytes_beVal bs.reverse
  rw [length_reverse] at h
  rw [leBytes, leVal, h, reverse_reverse]

theorem leBytes_leVal_of_length {bs : List UInt8} {n : ℕ} (h : bs.length = n) :
    leBytes n (leVal bs) = bs := by
  subst h
  exact leBytes_leVal bs

/-! ### Values -/

/-- A number on `k` bytes, or a string. -/
inductive Val (σ : Type) where
  | num (k v : ℕ)
  | str (s : σ)
deriving DecidableEq

namespace Val

variable {σ τ : Type} {v w : Val (List UInt8)} {vs ws : List (Val (List UInt8))} {a addr : ℕ}

/-- Values with other strings. -/
def map (f : σ → τ) : Val σ → Val τ
  | num k v => num k v
  | str s => str (f s)

@[simp]
theorem map_num (f : σ → τ) (k v : ℕ) : (num k v).map f = num k v := rfl

@[simp]
theorem map_str (f : σ → τ) (s : σ) : (str s).map f = str (f s) := rfl

/-- The value fits its field. -/
def Fits : Val (List UInt8) → Prop
  | num k v => v < 256 ^ k
  | str s => s.length < 65536

/-- The bytes of a value. -/
def bytes : Val (List UInt8) → List UInt8
  | num k v => leBytes k v
  | str s => leBytes 2 s.length ++ s

/-- The bytes of a value whose string has been moved: of the length the low byte is left. -/
def cook : Val (List UInt8) → List UInt8
  | num k v => leBytes k v
  | str s => (leBytes 2 s.length).take 1 ++ s ++ [0]

@[simp]
theorem length_cook (v : Val (List UInt8)) : v.cook.length = v.bytes.length := by
  cases v with
  | num k v => rfl
  | str s =>
    simp [cook, bytes]
    omega

/-- A message. -/
def wire (vs : List (Val (List UInt8))) : List UInt8 := vs.flatMap bytes

/-- A message whose strings have been moved. -/
def cooked (vs : List (Val (List UInt8))) : List UInt8 := vs.flatMap cook

@[simp]
theorem wire_nil : wire [] = [] := rfl

@[simp]
theorem wire_cons (v : Val (List UInt8)) (vs : List (Val (List UInt8))) :
    wire (v :: vs) = v.bytes ++ wire vs := rfl

@[simp]
theorem wire_append (vs ws : List (Val (List UInt8))) : wire (vs ++ ws) = wire vs ++ wire ws :=
  flatMap_append

@[simp]
theorem cooked_nil : cooked [] = [] := rfl

@[simp]
theorem cooked_cons (v : Val (List UInt8)) (vs : List (Val (List UInt8))) :
    cooked (v :: vs) = v.cook ++ cooked vs := rfl

@[simp]
theorem length_cooked (vs : List (Val (List UInt8))) : (cooked vs).length = (wire vs).length := by
  induction vs with
  | nil => rfl
  | cons v vs ih => rw [cooked_cons, wire_cons, length_append, length_append, ih, length_cook]

/-- A value at address `a`: of a string the place where it is after the move. -/
def place (a : ℕ) : Val (List UInt8) → Val ℕ
  | num k v => num k v
  | str _ => str (a + 1)

/-- **Where the strings are** in a message at address `a`. -/
def places (a : ℕ) : List (Val (List UInt8)) → List (Val ℕ)
  | [] => []
  | v :: vs => v.place a :: places (a + v.bytes.length) vs

@[simp]
theorem places_nil (a : ℕ) : places a [] = [] := rfl

@[simp]
theorem places_cons (a : ℕ) (v : Val (List UInt8)) (vs : List (Val (List UInt8))) :
    places a (v :: vs) = v.place a :: places (a + v.bytes.length) vs := rfl

/-- The string in memory that begins at `addr`. -/
def read (addr : ℕ) (mem : List UInt8) (p : ℕ) : List UInt8 :=
  (mem.drop (p - addr)).takeWhile (· ≠ 0)

/-- A string with a zero behind it. -/
theorem takeWhile_append_zero {s rest : List UInt8} (h : 0 ∉ s) :
    (s ++ 0 :: rest).takeWhile (· ≠ 0) = s := by
  have hs : s.takeWhile (· ≠ 0) = s :=
    takeWhile_eq_self_iff.2 fun x hx => decide_eq_true (ne_of_mem_of_not_mem hx h)
  rw [takeWhile_append, hs, if_pos rfl, takeWhile_cons_of_neg (by simp), append_nil]

theorem map_read_place (pre post : List UInt8) (ha : a = addr + pre.length)
    (hzero : ∀ s, v = str s → 0 ∉ s) :
    (v.place a).map (read addr (pre ++ (v.cook ++ post))) = v := by
  cases v with
  | num k v => rfl
  | str s =>
    have hmem : pre ++ ((str s).cook ++ post) =
        (pre ++ (leBytes 2 s.length).take 1) ++ (s ++ 0 :: post) := by
      simp [cook]
    have hlen : (pre ++ (leBytes 2 s.length).take 1).length = a + 1 - addr := by
      rw [length_append, length_take, length_leBytes]
      omega
    rw [place, map_str, read, hmem, drop_left' hlen, takeWhile_append_zero (hzero s rfl)]

/-- **The strings are found** at their places, if they contain no zero. -/
theorem map_read_places (pre post : List UInt8) (ha : a = addr + pre.length)
    (hzero : ∀ s, str s ∈ vs → 0 ∉ s) :
    (places a vs).map (map (read addr (pre ++ (cooked vs ++ post)))) = vs := by
  induction vs generalizing a pre with
  | nil => rfl
  | cons v vs ih =>
    have hhead := map_read_place pre (cooked vs ++ post) ha
      fun s hs => hzero s (hs ▸ mem_cons_self)
    have htail := ih (a := a + v.bytes.length) (pre ++ v.cook)
      (by rw [length_append, length_cook, ha, Nat.add_assoc])
      fun s hs => hzero s (mem_cons_of_mem _ hs)
    rw [append_assoc] at htail
    rw [places_cons, map_cons, cooked_cons, append_assoc, hhead, htail]

theorem terminated_place {pre post s : List UInt8} (ha : a = addr + pre.length) :
    (pre ++ ((str s).cook ++ post))[a + 1 + s.length - addr]? = some 0 := by
  have hmem : pre ++ ((str s).cook ++ post) =
      (pre ++ ((leBytes 2 s.length).take 1 ++ s)) ++ 0 :: post := by
    simp [cook]
  have hlen : (pre ++ ((leBytes 2 s.length).take 1 ++ s)).length = a + 1 + s.length - addr := by
    simp
    omega
  rw [hmem, ← hlen, List.getElem?_append_right le_rfl, Nat.sub_self]
  rfl

/-- **Every string is terminated** inside the message. -/
theorem terminated_places (pre post : List UInt8) (ha : a = addr + pre.length) {p : ℕ}
    (hp : str p ∈ places a vs) :
    ∃ s, str s ∈ vs ∧ addr ≤ p ∧ p + s.length < a + (wire vs).length ∧
      (pre ++ (cooked vs ++ post))[p + s.length - addr]? = some 0 := by
  induction vs generalizing a pre with
  | nil => exact absurd hp not_mem_nil
  | cons v vs ih =>
    rw [wire_cons, length_append, cooked_cons, append_assoc]
    rw [places_cons, mem_cons] at hp
    rcases hp with hp | hp
    · cases v with
      | num k v => cases hp
      | str s =>
        obtain rfl : p = a + 1 := by
          injection hp
        refine ⟨s, mem_cons_self, by omega, ?_, terminated_place ha⟩
        simp [bytes]
        omega
    · obtain ⟨s, hs, hle, hlt, h⟩ := ih (pre ++ v.cook)
        (by rw [length_append, length_cook, ha, Nat.add_assoc]) hp
      rw [append_assoc] at h
      exact ⟨s, mem_cons_of_mem _ hs, hle, by omega, h⟩

/-- The string in a message that has not been moved, by the place it will be moved to. -/
def counted (addr : ℕ) (mem : List UInt8) (p : ℕ) : List UInt8 :=
  (mem.drop (p + 1 - addr)).take (leVal ((mem.drop (p - 1 - addr)).take 2))

theorem counted_place {pre post s : List UInt8} (ha : a = addr + pre.length)
    (hs : s.length < 65536) : counted addr (pre ++ ((str s).bytes ++ post)) (a + 1) = s := by
  have hpre : pre.length = a + 1 - 1 - addr := by omega
  have hlen : (pre ++ leBytes 2 s.length).length = a + 1 + 1 - addr := by
    rw [length_append, length_leBytes]
    omega
  have hcount : ((pre ++ ((str s).bytes ++ post)).drop (a + 1 - 1 - addr)).take 2 =
      leBytes 2 s.length := by
    rw [← hpre, drop_left, bytes, append_assoc, take_left' (length_leBytes 2 _)]
  rw [counted, hcount, leVal_leBytes hs, bytes, append_assoc, ← append_assoc,
    drop_left' hlen, take_left]

/-- **Every string has a place.** -/
theorem exists_place (pre post : List UInt8) (ha : a = addr + pre.length)
    (hfits : ∀ v ∈ vs, v.Fits) {s : List UInt8} (hs : str s ∈ vs) :
    ∃ p, str p ∈ places a vs ∧ counted addr (pre ++ (wire vs ++ post)) p = s := by
  induction vs generalizing a pre with
  | nil => exact absurd hs not_mem_nil
  | cons v vs ih =>
    rw [wire_cons, append_assoc]
    rcases mem_cons.1 hs with hs | hs
    · subst hs
      exact ⟨a + 1, mem_cons_self, counted_place ha (hfits _ mem_cons_self)⟩
    · obtain ⟨p, hp, h⟩ := ih (pre ++ v.bytes) (a := a + v.bytes.length)
        (by rw [length_append, ha, Nat.add_assoc])
        (fun w hw => hfits w (mem_cons_of_mem _ hw)) hs
      rw [append_assoc] at h
      exact ⟨p, mem_cons_of_mem _ hp, h⟩

theorem length_takeWhile_le {l : List UInt8} {i : ℕ} (h : l[i]? = some 0) :
    (l.takeWhile (· ≠ 0)).length ≤ i := by
  induction l generalizing i with
  | nil => exact absurd h (by simp)
  | cons x l ih =>
    cases i with
    | zero =>
      obtain rfl : x = 0 := Option.some.inj h
      simp
    | succ i =>
      rw [takeWhile_cons]
      split_ifs
      · exact Nat.succ_le_succ (ih h)
      · exact Nat.zero_le _

/-- What is found at the place of a string is no longer than the string. -/
theorem length_read_le (pre post : List UInt8) (ha : a = addr + pre.length) {p : ℕ}
    (hp : str p ∈ places a vs) :
    ∃ s, str s ∈ vs ∧ (read addr (pre ++ (cooked vs ++ post)) p).length ≤ s.length := by
  obtain ⟨s, hs, hle, -, h⟩ := terminated_places pre post ha hp
  refine ⟨s, hs, length_takeWhile_le ?_⟩
  rwa [List.getElem?_drop, ← Nat.sub_add_comm hle]

end Val

end Lib

end Plan9
