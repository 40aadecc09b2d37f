import Plan9.Libc.U64

/-!
# Base 32

`u32.c`. Unlike those of `u64.c`, these functions compare the size of the buffer with a formula
before they write anything, and the formula is computed in `int`.

* `Plan9.Libc.enc32_good_iff` – when the encoder returns the encoded length and stays in the
  buffer;
* `Plan9.Libc.dec32_enc32_iff` – when the decoder takes back what the encoder made;
* `Plan9.Libc.dec32_within_iff` – when the decoder stays in the buffer;
* `Plan9.Libc.coding_iff` – both bases.
-/

namespace Plan9

namespace Libc

open List

/-! ### The code -/

/-- The value of an expression of type `int`. -/
def int (x : ℤ) : ℤ := x.bmod (2 ^ 32)

/-- The 32 digits. -/
def tab : List Char :=
  ['2', '3', '4', '5', '6', '7', '8', '9', 'a', 'b', 'c', 'd', 'e', 'f', 'g', 'h',
    'i', 'j', 'k', 'm', 'n', 'p', 'q', 'r', 's', 't', 'u', 'v', 'w', 'x', 'y', 'z']

/-- A digit, as it is written. -/
def digit32 (j : ℕ) : UInt8 := UInt8.ofNat (tab.getD j '2').toNat

/-- `strchr(tab, b)`, which finds the terminating NUL as well. -/
def strchrTab (b : UInt8) : Option ℕ :=
  if b = 0 then some tab.length else tab.findIdx? fun c => UInt8.ofNat c.toNat = b

/-- What a byte of the input stands for. -/
def undigit32 (b : UInt8) : ℕ := (strchrTab b).getD 0

def byte0 (u0 u1 : ℕ) : UInt8 := UInt8.ofNat (u0 <<< 3 ||| (0x7 &&& u1 >>> 2))

def byte1 (u1 u2 u3 : ℕ) : UInt8 :=
  UInt8.ofNat ((0x3 &&& u1) <<< 6 ||| u2 <<< 1 ||| (0x1 &&& u3 >>> 4))

def byte2 (u3 u4 : ℕ) : UInt8 := UInt8.ofNat ((0xf &&& u3) <<< 4 ||| (0xf &&& u4 >>> 1))

def byte3 (u4 u5 u6 : ℕ) : UInt8 :=
  UInt8.ofNat ((0x1 &&& u4) <<< 7 ||| u5 <<< 2 ||| (0x3 &&& u6 >>> 3))

def byte4 (u6 u7 : ℕ) : UInt8 := UInt8.ofNat ((0x7 &&& u6) <<< 5 ||| u7)

/-- `dec32` from some byte of the input on: what has been written, and what is returned. -/
def dec32Loop : List UInt8 → List UInt8 → List UInt8 × ℤ
  | [], dest => (dest, int dest.length)
  | [_], dest => (dest, -1)
  | [s0, s1], dest =>
    let dest := dest ++ [byte0 (undigit32 s0) (undigit32 s1)]
    (dest, int dest.length)
  | [_, _, _], dest => (dest, -1)
  | [s0, s1, s2, s3], dest =>
    let dest := dest ++ [byte0 (undigit32 s0) (undigit32 s1),
      byte1 (undigit32 s1) (undigit32 s2) (undigit32 s3)]
    (dest, int dest.length)
  | [s0, s1, s2, s3, s4], dest =>
    let dest := dest ++ [byte0 (undigit32 s0) (undigit32 s1),
      byte1 (undigit32 s1) (undigit32 s2) (undigit32 s3), byte2 (undigit32 s3) (undigit32 s4)]
    (dest, int dest.length)
  | [_, _, _, _, _, _], dest => (dest, -1)
  | [s0, s1, s2, s3, s4, s5, s6], dest =>
    let dest := dest ++ [byte0 (undigit32 s0) (undigit32 s1),
      byte1 (undigit32 s1) (undigit32 s2) (undigit32 s3), byte2 (undigit32 s3) (undigit32 s4),
      byte3 (undigit32 s4) (undigit32 s5) (undigit32 s6)]
    (dest, int dest.length)
  | s0 :: s1 :: s2 :: s3 :: s4 :: s5 :: s6 :: s7 :: src, dest =>
    dec32Loop src (dest ++ [byte0 (undigit32 s0) (undigit32 s1),
      byte1 (undigit32 s1) (undigit32 s2) (undigit32 s3), byte2 (undigit32 s3) (undigit32 s4),
      byte3 (undigit32 s4) (undigit32 s5) (undigit32 s6), byte4 (undigit32 s6) (undigit32 s7)])

/-- The bytes that `dec32` writes, and what it returns. -/
def dec32 (ndest : ℤ) (src : List UInt8) : List UInt8 × ℤ :=
  if int (ndest + 1) < (int (5 * src.length + 7)).tdiv 8 then ([], -1) else dec32Loop src []

/-- `enc32` from some byte of the input on, before the terminating NUL. -/
def enc32Loop : List UInt8 → List UInt8 → List UInt8
  | a :: b :: c :: d :: e :: src, dest =>
    enc32Loop src (dest ++ [
      digit32 (0x1f &&& a.toNat >>> 3),
      digit32 ((0x1c &&& a.toNat <<< 2) ||| (0x03 &&& b.toNat >>> 6)),
      digit32 (0x1f &&& b.toNat >>> 1),
      digit32 ((0x10 &&& b.toNat <<< 4) ||| (0x0f &&& c.toNat >>> 4)),
      digit32 ((0x1e &&& c.toNat <<< 1) ||| (0x01 &&& d.toNat >>> 7)),
      digit32 (0x1f &&& d.toNat >>> 2),
      digit32 ((0x18 &&& d.toNat <<< 3) ||| (0x07 &&& e.toNat >>> 5)),
      digit32 (0x1f &&& e.toNat)])
  | [], dest => dest
  | [a], dest => dest ++ [digit32 (0x1f &&& a.toNat >>> 3), digit32 (0x1c &&& a.toNat <<< 2)]
  -- the digit at `out:` is one too early for two bytes and more
  | [a, b], dest =>
    dest ++ [
      digit32 (0x1f &&& a.toNat >>> 3),
      digit32 ((0x1c &&& a.toNat <<< 2) ||| (0x03 &&& b.toNat >>> 6)),
      digit32 (0x1f &&& b.toNat >>> 1)]
  | [a, b, _], dest =>
    dest ++ [
      digit32 (0x1f &&& a.toNat >>> 3),
      digit32 ((0x1c &&& a.toNat <<< 2) ||| (0x03 &&& b.toNat >>> 6)),
      digit32 (0x1f &&& b.toNat >>> 1),
      digit32 (0x10 &&& b.toNat <<< 4)]
  | [a, b, c, _], dest =>
    dest ++ [
      digit32 (0x1f &&& a.toNat >>> 3),
      digit32 ((0x1c &&& a.toNat <<< 2) ||| (0x03 &&& b.toNat >>> 6)),
      digit32 (0x1f &&& b.toNat >>> 1),
      digit32 ((0x10 &&& b.toNat <<< 4) ||| (0x0f &&& c.toNat >>> 4)),
      digit32 (0x1e &&& c.toNat <<< 1)]

/-- The bytes that `enc32` writes, and what it returns. -/
def enc32 (ndest : ℤ) (src : List UInt8) : List UInt8 × ℤ :=
  if ndest ≤ (int (8 * src.length + 4)).tdiv 5 then ([], -1)
  else
    let dest := enc32Loop src []
    (dest ++ [0], int dest.length)

/-! ### Digits -/

theorem undigit32_digit32 {j : ℕ} (hj : j < 32) : undigit32 (digit32 j) = j := by
  have h : ∀ j : Fin 32, undigit32 (digit32 j) = j := by decide
  exact h ⟨j, hj⟩

section Bits

variable {x y z k : ℕ} (a b : UInt8)

theorem or_eq (x : ℕ) (hy : y < 2 ^ k) : x <<< k ||| y = x * 2 ^ k + y := by
  rw [← Nat.shiftLeft_add_eq_or_of_lt hy, Nat.shiftLeft_eq]

theorem and_eq_mod (k x : ℕ) : (2 ^ k - 1) &&& x = x % 2 ^ k := by
  rw [Nat.and_comm, Nat.and_two_pow_sub_one_eq_mod]

/-- Digits 0, 2, 5 and 7. -/
theorem and_shiftRight (x k : ℕ) : 0x1f &&& x >>> k = x / 2 ^ k % 32 := by
  rw [Nat.shiftRight_eq_div_pow]
  exact and_eq_mod 5 _

set_option maxRecDepth 10000 in
theorem and_1c : 0x1c &&& a.toNat <<< 2 = (a.toNat % 8) <<< 2 := by
  have h : ∀ a : Fin 256, 0x1c &&& a.val <<< 2 = (a.val % 8) <<< 2 := by decide
  exact h ⟨a.toNat, a.toNat_lt⟩

set_option maxRecDepth 10000 in
theorem and_10 : 0x10 &&& a.toNat <<< 4 = (a.toNat % 2) <<< 4 := by
  have h : ∀ a : Fin 256, 0x10 &&& a.val <<< 4 = (a.val % 2) <<< 4 := by decide
  exact h ⟨a.toNat, a.toNat_lt⟩

set_option maxRecDepth 10000 in
theorem and_1e : 0x1e &&& a.toNat <<< 1 = (a.toNat % 16) <<< 1 := by
  have h : ∀ a : Fin 256, 0x1e &&& a.val <<< 1 = (a.val % 16) <<< 1 := by decide
  exact h ⟨a.toNat, a.toNat_lt⟩

set_option maxRecDepth 10000 in
theorem and_18 : 0x18 &&& a.toNat <<< 3 = (a.toNat % 4) <<< 3 := by
  have h : ∀ a : Fin 256, 0x18 &&& a.val <<< 3 = (a.val % 4) <<< 3 := by decide
  exact h ⟨a.toNat, a.toNat_lt⟩

variable (c d e : UInt8)

theorem digit_one : (0x1c &&& a.toNat <<< 2) ||| (0x03 &&& b.toNat >>> 6) =
    a.toNat % 8 * 4 + b.toNat / 64 := by
  have hb := b.toNat_lt
  have hlow : 0x03 &&& b.toNat >>> 6 = b.toNat / 64 := by
    rw [Nat.shiftRight_eq_div_pow]
    exact (and_eq_mod 2 _).trans (Nat.mod_eq_of_lt (by omega))
  rw [and_1c, hlow]
  exact or_eq _ (by omega)

theorem digit_three : (0x10 &&& b.toNat <<< 4) ||| (0x0f &&& c.toNat >>> 4) =
    b.toNat % 2 * 16 + c.toNat / 16 := by
  have hc := c.toNat_lt
  have hlow : 0x0f &&& c.toNat >>> 4 = c.toNat / 16 := by
    rw [Nat.shiftRight_eq_div_pow]
    exact (and_eq_mod 4 _).trans (Nat.mod_eq_of_lt (by omega))
  rw [and_10, hlow]
  exact or_eq _ (by omega)

theorem digit_four : (0x1e &&& c.toNat <<< 1) ||| (0x01 &&& d.toNat >>> 7) =
    c.toNat % 16 * 2 + d.toNat / 128 := by
  have hd := d.toNat_lt
  have hlow : 0x01 &&& d.toNat >>> 7 = d.toNat / 128 := by
    rw [Nat.shiftRight_eq_div_pow]
    exact (and_eq_mod 1 _).trans (Nat.mod_eq_of_lt (by omega))
  rw [and_1e, hlow]
  exact or_eq _ (by omega)

theorem digit_six : (0x18 &&& d.toNat <<< 3) ||| (0x07 &&& e.toNat >>> 5) =
    d.toNat % 4 * 8 + e.toNat / 32 := by
  have he := e.toNat_lt
  have hlow : 0x07 &&& e.toNat >>> 5 = e.toNat / 32 := by
    rw [Nat.shiftRight_eq_div_pow]
    exact (and_eq_mod 3 _).trans (Nat.mod_eq_of_lt (by omega))
  rw [and_18, hlow]
  exact or_eq _ (by omega)

variable {u0 u1 u2 u3 u4 u5 u6 u7 : ℕ}

theorem byte0_eq (h : u0 * 8 + u1 / 4 % 8 = a.toNat) : byte0 u0 u1 = a := by
  have hlow : 0x7 &&& u1 >>> 2 = u1 / 4 % 8 := by
    rw [Nat.shiftRight_eq_div_pow]
    exact and_eq_mod 3 _
  have hor : u0 <<< 3 ||| u1 / 4 % 8 = u0 * 8 + u1 / 4 % 8 := or_eq _ (by omega)
  rw [byte0, hlow, hor, h, UInt8.ofNat_toNat]

theorem byte1_eq (h2 : u2 < 32) (h : u1 % 4 * 64 + u2 * 2 + u3 / 16 % 2 = b.toNat) :
    byte1 u1 u2 u3 = b := by
  have hlow : 0x1 &&& u3 >>> 4 = u3 / 16 % 2 := by
    rw [Nat.shiftRight_eq_div_pow]
    exact and_eq_mod 1 _
  have hhigh : 0x3 &&& u1 = u1 % 4 := and_eq_mod 2 _
  have hmid : u2 <<< 1 ||| u3 / 16 % 2 = u2 * 2 + u3 / 16 % 2 := or_eq _ (by omega)
  have hor : (u1 % 4) <<< 6 ||| (u2 * 2 + u3 / 16 % 2) = u1 % 4 * 64 + (u2 * 2 + u3 / 16 % 2) :=
    or_eq _ (by omega)
  rw [byte1, hlow, hhigh, Nat.or_assoc, hmid, hor, ← Nat.add_assoc, h, UInt8.ofNat_toNat]

theorem byte2_eq (h : u3 % 16 * 16 + u4 / 2 % 16 = c.toNat) : byte2 u3 u4 = c := by
  have hlow : 0xf &&& u4 >>> 1 = u4 / 2 % 16 := by
    rw [Nat.shiftRight_eq_div_pow]
    exact and_eq_mod 4 _
  have hhigh : 0xf &&& u3 = u3 % 16 := and_eq_mod 4 _
  have hor : (u3 % 16) <<< 4 ||| u4 / 2 % 16 = u3 % 16 * 16 + u4 / 2 % 16 := or_eq _ (by omega)
  rw [byte2, hlow, hhigh, hor, h, UInt8.ofNat_toNat]

theorem byte3_eq (h5 : u5 < 32) (h : u4 % 2 * 128 + u5 * 4 + u6 / 8 % 4 = d.toNat) :
    byte3 u4 u5 u6 = d := by
  have hlow : 0x3 &&& u6 >>> 3 = u6 / 8 % 4 := by
    rw [Nat.shiftRight_eq_div_pow]
    exact and_eq_mod 2 _
  have hhigh : 0x1 &&& u4 = u4 % 2 := and_eq_mod 1 _
  have hmid : u5 <<< 2 ||| u6 / 8 % 4 = u5 * 4 + u6 / 8 % 4 := or_eq _ (by omega)
  have hor : (u4 % 2) <<< 7 ||| (u5 * 4 + u6 / 8 % 4) = u4 % 2 * 128 + (u5 * 4 + u6 / 8 % 4) :=
    or_eq _ (by omega)
  rw [byte3, hlow, hhigh, Nat.or_assoc, hmid, hor, ← Nat.add_assoc, h, UInt8.ofNat_toNat]

theorem byte4_eq (h7 : u7 < 32) (h : u6 % 8 * 32 + u7 = e.toNat) : byte4 u6 u7 = e := by
  have hhigh : 0x7 &&& u6 = u6 % 8 := and_eq_mod 3 _
  have hor : (u6 % 8) <<< 5 ||| u7 = u6 % 8 * 32 + u7 := or_eq _ h7
  rw [byte4, hhigh, hor, h, UInt8.ofNat_toNat]

/-- The eight digits of five bytes. -/
def group32 (a b c d e : UInt8) : List UInt8 :=
  [digit32 (a.toNat / 8), digit32 (a.toNat % 8 * 4 + b.toNat / 64), digit32 (b.toNat / 2 % 32),
    digit32 (b.toNat % 2 * 16 + c.toNat / 16), digit32 (c.toNat % 16 * 2 + d.toNat / 128),
    digit32 (d.toNat / 4 % 32), digit32 (d.toNat % 4 * 8 + e.toNat / 32), digit32 (e.toNat % 32)]

variable {src dest : List UInt8}

theorem enc32Loop_five : enc32Loop (a :: b :: c :: d :: e :: src) dest =
    enc32Loop src (dest ++ group32 a b c d e) := by
  have ha := a.toNat_lt
  have h0 : 0x1f &&& a.toNat >>> 3 = a.toNat / 8 :=
    (and_shiftRight _ _).trans (Nat.mod_eq_of_lt (by omega))
  have h7 : 0x1f &&& e.toNat = e.toNat % 32 := and_eq_mod 5 _
  rw [enc32Loop, digit_one, digit_three, digit_four, digit_six, h0, h7, and_shiftRight,
    and_shiftRight]
  rfl

theorem enc32Loop_one : enc32Loop [a] dest =
    dest ++ [digit32 (a.toNat / 8), digit32 (a.toNat % 8 * 4)] := by
  have ha := a.toNat_lt
  have h0 : 0x1f &&& a.toNat >>> 3 = a.toNat / 8 :=
    (and_shiftRight _ _).trans (Nat.mod_eq_of_lt (by omega))
  rw [enc32Loop, h0, and_1c, Nat.shiftLeft_eq]

theorem dec32Loop_group : dec32Loop (group32 a b c d e ++ src) dest =
    dec32Loop src (dest ++ [a, b, c, d, e]) := by
  have ha := a.toNat_lt
  have hb := b.toNat_lt
  have hc := c.toNat_lt
  have hd := d.toNat_lt
  have he := e.toNat_lt
  rw [group32]
  simp only [cons_append, nil_append]
  rw [dec32Loop, undigit32_digit32 (by omega), undigit32_digit32 (by omega),
    undigit32_digit32 (by omega), undigit32_digit32 (by omega), undigit32_digit32 (by omega),
    undigit32_digit32 (by omega), undigit32_digit32 (by omega), undigit32_digit32 (by omega),
    byte0_eq a (by omega), byte1_eq b (by omega) (by omega), byte2_eq c (by omega),
    byte3_eq d (by omega) (by omega), byte4_eq e (by omega) (by omega)]

theorem dec32Loop_one : dec32Loop [digit32 (a.toNat / 8), digit32 (a.toNat % 8 * 4)] dest =
    (dest ++ [a], int (dest ++ [a]).length) := by
  have ha := a.toNat_lt
  rw [dec32Loop, undigit32_digit32 (by omega), undigit32_digit32 (by omega), byte0_eq a (by omega)]

end Bits

/-! ### Encoding -/

/-- How many digits the encoding of `n` bytes has. -/
def length32 (n : ℕ) : ℕ := (8 * n + 4) / 5

/-- How many digits `enc32` writes for `n` bytes. -/
def written32 (n : ℕ) : ℕ := 8 * (n / 5) + if n % 5 = 0 then 0 else n % 5 + 1

theorem length_enc32Loop (src dest : List UInt8) :
    (enc32Loop src dest).length = dest.length + written32 src.length := by
  induction src, dest using enc32Loop.induct with
  | case1 a b c d e src dest ih =>
    rw [enc32Loop, ih, length_append, written32, written32]
    simp only [length_cons, length_nil]
    have hdiv : (src.length + 1 + 1 + 1 + 1 + 1) / 5 = src.length / 5 + 1 := by omega
    have hmod : (src.length + 1 + 1 + 1 + 1 + 1) % 5 = src.length % 5 := by omega
    rw [hdiv, hmod]
    omega
  | case2 => rfl
  | case3 a dest =>
    have hlen : [a].length = 1 := rfl
    rw [enc32Loop, length_append, hlen]
    rfl
  | case4 a b dest =>
    have hlen : [a, b].length = 2 := rfl
    rw [enc32Loop, length_append, hlen]
    rfl
  | case5 a b c dest =>
    have hlen : [a, b, c].length = 3 := rfl
    rw [enc32Loop, length_append, hlen]
    rfl
  | case6 a b c d dest =>
    have hlen : [a, b, c, d].length = 4 := rfl
    rw [enc32Loop, length_append, hlen]
    rfl

/-- They are all of them when the last group has at most one byte. -/
theorem written32_eq_iff (n : ℕ) : written32 n = length32 n ↔ n % 5 ≤ 1 := by
  rw [written32, length32]
  split <;> omega

theorem int_eq {x : ℤ} (hlo : -2147483648 ≤ x) (hhi : x < 2147483648) : int x = x := by
  rw [int, Int.bmod_def]
  split <;> omega

/-- **The encoder returns the encoded length, and stays in the buffer,** if and only if it gives
up, or there is room and at most one byte in the last group. -/
theorem enc32_good_iff {ndest : ℤ} (hhi : ndest < 2147483648) (src : List UInt8) :
    (((enc32 ndest src).2 = -1 ∨ (enc32 ndest src).2 = length32 src.length) ∧
        Within ndest (enc32 ndest src).1) ↔
      ndest ≤ (int (8 * src.length + 4)).tdiv 5 ∨
        src.length % 5 ≤ 1 ∧ length32 src.length < ndest := by
  rw [enc32]
  split
  · rename_i hsmall
    refine iff_of_true ⟨.inl rfl, fun k hk => ?_⟩ (.inl hsmall)
    exact absurd hk (Nat.not_lt_zero k)
  · rename_i hlarge
    rw [or_iff_right hlarge]
    dsimp only
    rw [Within, length_append, length_enc32Loop, length_nil, Nat.zero_add,
      length_singleton, ← written32_eq_iff]
    constructor
    · rintro ⟨hret, hin⟩
      have hlt := hin (written32 src.length) (Nat.lt_succ_self _)
      rw [int_eq (by omega) (by omega)] at hret
      rcases hret with hret | hret
      · omega
      · have heq : written32 src.length = length32 src.length := by omega
        exact ⟨heq, heq ▸ hlt⟩
    · rintro ⟨heq, hlt⟩
      rw [heq, int_eq (by omega) (by omega)]
      exact ⟨.inr rfl, fun k hk => by omega⟩

/-! ### Decoding -/

/-- The digits of bytes with at most one in the last group, and what they are decoded to. -/
theorem exists_text32 (src : List UInt8) (hmod : src.length % 5 ≤ 1) :
    ∃ text, (∀ dest, enc32Loop src dest = dest ++ text) ∧
      ∀ dest, dec32Loop text dest = (dest ++ src, int (dest ++ src).length) := by
  -- the groups are those of the recursion of `enc32Loop`, whatever has been written before
  obtain ⟨before, -⟩ : ∃ before : List UInt8, before = [] := ⟨[], rfl⟩
  induction src, before using enc32Loop.induct with
  | case1 a b c d e src before ih =>
    have hmod' : src.length % 5 ≤ 1 := by
      simp only [length_cons] at hmod
      omega
    obtain ⟨text, henc, hdec⟩ := ih hmod'
    refine ⟨group32 a b c d e ++ text, fun dest => ?_, fun dest => ?_⟩
    · rw [enc32Loop_five, henc, append_assoc]
    · rw [dec32Loop_group, hdec, append_assoc]
      rfl
  | case2 =>
    refine ⟨[], fun dest => (append_nil dest).symm, fun dest => ?_⟩
    rw [append_nil]
    rfl
  | case3 a => exact ⟨_, fun dest => enc32Loop_one a, fun dest => dec32Loop_one a⟩
  | case4 a b => exact absurd hmod (by simp)
  | case5 a b c => exact absurd hmod (by simp)
  | case6 a b c d => exact absurd hmod (by simp)

theorem tdiv_of_neg {y : ℤ} (hy : y < 0) : y.tdiv 8 = -(-y / 8) := by
  rw [← Int.tdiv_eq_ediv_of_nonneg (by omega), Int.neg_tdiv, Int.neg_neg]

/-- An `int` is no larger than the number it was computed from, and so are quotients. -/
theorem int_tdiv_le {x : ℤ} (hx : 0 ≤ x) : (int x).tdiv 8 ≤ x / 8 := by
  have hle : int x ≤ x := by
    rw [int, Int.bmod_def]
    split <;> omega
  rcases Int.lt_or_le (int x) 0 with hneg | hpos
  · rw [tdiv_of_neg hneg]
    omega
  · rw [Int.tdiv_eq_ediv_of_nonneg hpos]
    omega

theorem neg_le_int_tdiv (x : ℤ) : -268435456 ≤ (int x).tdiv 8 := by
  have hint : -2147483648 ≤ int x := by
    rw [int, Int.bmod_def]
    split <;> omega
  rcases Int.lt_or_le (int x) 0 with hneg | hpos
  · rw [tdiv_of_neg hneg]
    generalize int x = y at hint hneg
    omega
  · rw [Int.tdiv_eq_ediv_of_nonneg hpos]
    generalize int x = y at hint hpos
    omega

/-- `dec32` takes back what `enc32` made of bytes with at most one in the last group, unless the
limit is the largest `int`, to which 1 is added. -/
theorem dec32_enc32_iff {ndest ndest' : ℤ} (hhi : ndest < 2147483648) {src : List UInt8}
    (hlarge : ¬ndest ≤ (int (8 * src.length + 4)).tdiv 5) (hmod : src.length % 5 ≤ 1)
    (hlt : length32 src.length < ndest) (hle : src.length ≤ ndest') (hhi' : ndest' < 2147483648) :
    dec32 ndest' ((enc32 ndest src).1.take (enc32 ndest src).2.toNat) =
      (src, (src.length : ℤ)) ↔ ndest' < 2147483647 := by
  obtain ⟨text, henc, hdec⟩ := exists_text32 src hmod
  have htext : text.length = length32 src.length := by
    have hlen := length_enc32Loop src []
    rw [henc, nil_append, length_nil, Nat.zero_add, (written32_eq_iff _).2 hmod] at hlen
    exact hlen
  have hout : (enc32 ndest src).1.take (enc32 ndest src).2.toNat = text := by
    rw [enc32, if_neg hlarge]
    dsimp only
    rw [henc, nil_append, int_eq (by omega) (by omega), Int.toNat_natCast, take_left]
  have hdecode : dec32Loop text [] = (src, (src.length : ℤ)) := by
    rw [hdec, nil_append, int_eq (by omega) (by omega)]
  have hneed := int_tdiv_le (x := 5 * text.length + 7) (by omega)
  rw [hout]
  unfold dec32
  by_cases hmax : ndest' < 2147483647
  · refine iff_of_true ?_ hmax
    rw [int_eq (by omega) (by omega), if_neg, hdecode]
    rw [htext, length32] at hneed ⊢
    omega
  · -- the sum is the smallest `int`
    refine iff_of_false ?_ hmax
    have hsum : int (ndest' + 1) = -2147483648 := by
      rw [int, Int.bmod_def]
      split <;> omega
    have hlow := neg_le_int_tdiv (5 * text.length + 7)
    rw [hsum, if_pos (by omega)]
    intro heq
    have hret := congrArg Prod.snd heq
    dsimp only at hret
    omega

/-! ### Any input -/

/-- How many bytes `dec32` writes for an input of `n` bytes. -/
def decoded32 (n : ℕ) : ℕ :=
  5 * (n / 8) + if n % 8 = 2 then 1 else if n % 8 = 4 then 2 else if n % 8 = 5 then 3
    else if n % 8 = 7 then 4 else 0

theorem length_dec32Loop (src dest : List UInt8) :
    (dec32Loop src dest).1.length = dest.length + decoded32 src.length := by
  induction src, dest using dec32Loop.induct with
  | case9 s0 s1 s2 s3 s4 s5 s6 s7 src dest ih =>
    rw [dec32Loop, ih, length_append, decoded32, decoded32]
    have hlen : (s0 :: s1 :: s2 :: s3 :: s4 :: s5 :: s6 :: s7 :: src).length = src.length + 8 := rfl
    have hfive (b0 b1 b2 b3 b4 : UInt8) : [b0, b1, b2, b3, b4].length = 5 := rfl
    rw [hlen, hfive]
    split_ifs <;> omega
  | case1 => rfl
  | case2 s0 dest =>
    have hlen : [s0].length = 1 := rfl
    rw [hlen]
    rfl
  | case3 s0 s1 dest =>
    have hlen : [s0, s1].length = 2 := rfl
    rw [dec32Loop, length_append, hlen]
    rfl
  | case4 s0 s1 s2 dest =>
    have hlen : [s0, s1, s2].length = 3 := rfl
    rw [hlen]
    rfl
  | case5 s0 s1 s2 s3 dest =>
    have hlen : [s0, s1, s2, s3].length = 4 := rfl
    rw [dec32Loop, length_append, hlen]
    rfl
  | case6 s0 s1 s2 s3 s4 dest =>
    have hlen : [s0, s1, s2, s3, s4].length = 5 := rfl
    rw [dec32Loop, length_append, hlen]
    rfl
  | case7 s0 s1 s2 s3 s4 s5 dest =>
    have hlen : [s0, s1, s2, s3, s4, s5].length = 6 := rfl
    rw [hlen]
    rfl
  | case8 s0 s1 s2 s3 s4 s5 s6 dest =>
    have hlen : [s0, s1, s2, s3, s4, s5, s6].length = 7 := rfl
    rw [dec32Loop, length_append, hlen]
    rfl

/-- **The decoder stays in the buffer** if and only if it gives up, or what it writes fits. -/
theorem dec32_within_iff (ndest : ℤ) (src : List UInt8) : Within ndest (dec32 ndest src).1 ↔
      int (ndest + 1) < (int (5 * src.length + 7)).tdiv 8 ∨ decoded32 src.length = 0 ∨
        decoded32 src.length ≤ ndest := by
  rw [dec32]
  split
  · rename_i hsmall
    exact iff_of_true (fun k hk => absurd hk (Nat.not_lt_zero k)) (.inl hsmall)
  · rename_i hlarge
    rw [or_iff_right hlarge, Within, length_dec32Loop, length_nil, Nat.zero_add]
    generalize decoded32 src.length = n
    constructor
    · intro hin
      rcases Nat.eq_zero_or_pos n with hzero | hpos
      · exact .inl hzero
      · have hlast := hin (n - 1) (by omega)
        right
        omega
    · rintro (hzero | hle) k hk <;> omega

/-! ### Both bases -/

/-- What is asked of `enc64` with the limit `lim`, and of `dec64` with the limit `lim'`. -/
def Codes64 (src : List UInt8) (lim lim' : ℤ) : Prop :=
  ((enc64 lim src).2 = -1 ∨ (enc64 lim src).2 = length64 src.length) ∧
    Within lim (enc64 lim src).1 ∧
    ((enc64 lim src).2 ≠ -1 →
      dec64 lim' ((enc64 lim src).1.take (enc64 lim src).2.toNat) = src)

/-- What is asked of `enc32` with the limit `lim`, and of `dec32` with the limit `lim'`. -/
def Codes32 (src : List UInt8) (lim lim' : ℤ) : Prop :=
  ((enc32 lim src).2 = -1 ∨ (enc32 lim src).2 = length32 src.length) ∧
    Within lim (enc32 lim src).1 ∧
    ((enc32 lim src).2 ≠ -1 →
      dec32 lim' ((enc32 lim src).1.take (enc32 lim src).2.toNat) = (src, (src.length : ℤ)))

theorem codes32_iff {src : List UInt8} {lim lim' : ℤ} (hlim : lim < 2147483648)
    (hle : src.length ≤ lim') (hlim' : lim' < 2147483648) : Codes32 src lim lim' ↔
      lim ≤ (int (8 * src.length + 4)).tdiv 5 ∨
        src.length % 5 ≤ 1 ∧ length32 src.length < lim ∧ lim' < 2147483647 := by
  have hgood := enc32_good_iff hlim src
  by_cases hsmall : lim ≤ (int (8 * src.length + 4)).tdiv 5
  · refine iff_of_true ?_ (.inl hsmall)
    obtain ⟨hret, hin⟩ := hgood.2 (.inl hsmall)
    refine ⟨hret, hin, fun hno => absurd ?_ hno⟩
    rw [enc32, if_pos hsmall]
  · rw [or_iff_right hsmall] at hgood ⊢
    constructor
    · rintro ⟨hret, hin, hback⟩
      obtain ⟨hmod, hlt⟩ := hgood.1 ⟨hret, hin⟩
      have hne : (enc32 lim src).2 ≠ -1 := by
        rw [enc32, if_neg hsmall]
        dsimp only
        rw [length_enc32Loop, length_nil, Nat.zero_add, (written32_eq_iff _).2 hmod,
          int_eq (by omega) (by omega)]
        omega
      exact ⟨hmod, hlt, (dec32_enc32_iff hlim hsmall hmod hlt hle hlim').1 (hback hne)⟩
    · rintro ⟨hmod, hlt, hmax⟩
      obtain ⟨hret, hin⟩ := hgood.2 ⟨hmod, hlt⟩
      exact ⟨hret, hin, fun _ => (dec32_enc32_iff hlim hsmall hmod hlt hle hlim').2 hmax⟩

/-- **Base 64 and base 32**, for every source, every input and every limit: what the encoders and
the decoders do in their buffers, and when the source comes back. -/
theorem coding_iff {src inp : List UInt8} {lim lim' : ℤ} (hlim : lim < 2147483648)
    (hle : src.length ≤ lim') (hlim' : lim' < 2147483648) :
    (Codes64 src lim lim' ↔ length64 src.length < lim) ∧
      (Codes32 src lim lim' ↔
        lim ≤ (int (8 * src.length + 4)).tdiv 5 ∨
          src.length % 5 ≤ 1 ∧ length32 src.length < lim ∧ lim' < 2147483647) ∧
      Within lim (dec64 lim inp) ∧
      (Within lim (dec32 lim inp).1 ↔
        int (lim + 1) < (int (5 * inp.length + 7)).tdiv 8 ∨ decoded32 inp.length = 0 ∨
          decoded32 inp.length ≤ lim) := by
  refine ⟨?_, codes32_iff hlim hle hlim', dec64_within lim inp, dec32_within_iff lim inp⟩
  constructor
  · rintro ⟨hret, hin, -⟩
    exact (enc64_good_iff lim src).1 ⟨hret, hin⟩
  · intro hlt
    obtain ⟨hret, hin⟩ := (enc64_good_iff lim src).2 hlt
    exact ⟨hret, hin, fun _ => dec64_enc64 hlt hle⟩

/-- Six bytes of each kind: of the source, of base 64 and of base 32. -/
theorem coding_iff_six :
    (Codes64 [0, 255, 1, 254, 2, 253] 12 6 ↔ length64 6 < (12 : ℤ)) ∧
      (Codes32 [0, 255, 1, 254, 2, 253] 12 6 ↔ (12 : ℤ) ≤ (int (8 * (6 : ℕ) + 4)).tdiv 5 ∨
        6 % 5 ≤ 1 ∧ length32 6 < (12 : ℤ) ∧ (6 : ℤ) < 2147483647) ∧
      Within 12 (dec64 12 [65, 66, 10, 67, 43, 61]) ∧
      (Within 12 (dec32 12 [65, 66, 10, 67, 43, 61]).1 ↔
        int (12 + 1) < (int (5 * (6 : ℕ) + 7)).tdiv 8 ∨
          decoded32 6 = 0 ∨ decoded32 6 ≤ (12 : ℤ)) :=
  coding_iff (by decide) (by decide) (by decide)

/-- **Lost and overrun**: `enc64` without room for a group returns 0; `enc32` makes three digits of
two bytes; and `dec32` writes five bytes into a buffer of four. -/
theorem coding_overrun : ¬Codes64 [0] 4 1 ∧ ¬Codes32 [0, 1] 100 2 ∧
    ¬Within 4 (dec32 4 (List.replicate 8 0x32)).1 := by
  refine ⟨?_, ?_, ?_⟩
  · rintro ⟨hret, -, -⟩
    revert hret
    decide
  · rintro ⟨hret, -, -⟩
    revert hret
    decide
  · intro hin
    have hlast := hin 4 (by decide)
    revert hlast
    decide

end Libc

end Plan9
