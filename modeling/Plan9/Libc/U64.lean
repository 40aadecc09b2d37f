import Mathlib.Data.Nat.Bitwise
import Mathlib.Data.List.Basic

/-!
# Base 64

`u64.c`. Both functions write one byte after the other, so that what they write is a list, and its
length says how far they got in the buffer.

* `Plan9.Libc.enc64_good_iff` – when the encoder returns the encoded length and stays in the
  buffer;
* `Plan9.Libc.dec64_enc64` – the decoder takes back what the encoder made;
* `Plan9.Libc.dec64_within` – the decoder stays in the buffer, whatever the input.
-/

namespace Plan9

namespace Libc

open List

/-! ### The code -/

def INVAL : ℕ := 255

/-- What each byte stands for. -/
def t64d : List ℕ :=
  List.replicate 43 INVAL ++ [62] ++ List.replicate 3 INVAL ++ [63] ++ List.range' 52 10 ++
    List.replicate 7 INVAL ++ List.range' 0 26 ++ List.replicate 6 INVAL ++ List.range' 26 26 ++
    List.replicate 133 INVAL

/-- The 64 digits. -/
def t64e : List Char :=
  ['A', 'B', 'C', 'D', 'E', 'F', 'G', 'H', 'I', 'J', 'K', 'L', 'M', 'N', 'O', 'P',
    'Q', 'R', 'S', 'T', 'U', 'V', 'W', 'X', 'Y', 'Z', 'a', 'b', 'c', 'd', 'e', 'f',
    'g', 'h', 'i', 'j', 'k', 'l', 'm', 'n', 'o', 'p', 'q', 'r', 's', 't', 'u', 'v',
    'w', 'x', 'y', 'z', '0', '1', '2', '3', '4', '5', '6', '7', '8', '9', '+', '/']

/-- A digit, as it is written. -/
def digit64 (j : ℕ) : UInt8 := UInt8.ofNat (t64e.getD j 'A').toNat

/-- The byte that is written in place of a digit. -/
def pad64 : UInt8 := UInt8.ofNat '='.toNat

/-- `dec64` from some byte of the input on: `i` digits are in `b24`, and `out` has been written. -/
def dec64Loop (lim : ℤ) : List UInt8 → ℕ → ℕ → List UInt8 → List UInt8
  | [], b24, i, out =>
    match i with
    | 2 => if out.length + 1 > lim then out else out ++ [UInt8.ofNat (b24 >>> 16)]
    | 3 =>
      if out.length + 2 > lim then out
      else out ++ [UInt8.ofNat (b24 >>> 16), UInt8.ofNat (b24 >>> 8)]
    | _ => out
  | b :: inp, b24, i, out =>
    let c := t64d.getD b.toNat INVAL
    if c = INVAL then dec64Loop lim inp b24 i out
    else
      match i with
      | 0 => dec64Loop lim inp (c <<< 18) 1 out
      | 1 => dec64Loop lim inp (b24 ||| c <<< 12) 2 out
      | 2 => dec64Loop lim inp (b24 ||| c <<< 6) 3 out
      | _ =>
        if out.length + 3 > lim then out
        else
          let b24 := b24 ||| c
          dec64Loop lim inp b24 0
            (out ++ [UInt8.ofNat (b24 >>> 16), UInt8.ofNat (b24 >>> 8), UInt8.ofNat b24])

/-- The bytes that `dec64` writes; it returns how many. -/
def dec64 (lim : ℤ) (inp : List UInt8) : List UInt8 := dec64Loop lim inp 0 0 []

/-- `enc64` from some byte of the input on, before the terminating NUL. -/
def enc64Loop (lim : ℤ) : List UInt8 → List UInt8 → List UInt8
  | a :: b :: c :: inp, out =>
    let b24 := a.toNat <<< 16 ||| b.toNat <<< 8 ||| c.toNat
    if out.length + 4 ≥ lim then out
    else
      enc64Loop lim inp (out ++ [digit64 (b24 >>> 18), digit64 (b24 >>> 12 &&& 0x3f),
        digit64 (b24 >>> 6 &&& 0x3f), digit64 (b24 &&& 0x3f)])
  | [a, b], out =>
    let b24 := a.toNat <<< 16 ||| b.toNat <<< 8
    if out.length + 4 ≥ lim then out
    else
      out ++ [digit64 (b24 >>> 18), digit64 (b24 >>> 12 &&& 0x3f), digit64 (b24 >>> 6 &&& 0x3f),
        pad64]
  | [a], out =>
    let b24 := a.toNat <<< 16
    if out.length + 4 ≥ lim then out
    else out ++ [digit64 (b24 >>> 18), digit64 (b24 >>> 12 &&& 0x3f), pad64, pad64]
  | [], out => out

/-- The bytes that `enc64` writes, and what it returns. -/
def enc64 (lim : ℤ) (inp : List UInt8) : List UInt8 × ℤ :=
  let out := enc64Loop lim inp []
  (out ++ [0], out.length)

/-- Nothing is written at the limit or beyond it. -/
def Within (lim : ℤ) (written : List UInt8) : Prop := ∀ k < written.length, (k : ℤ) < lim

/-! ### Digits -/

variable {j : ℕ}

theorem t64d_digit64 (hj : j < 64) : t64d.getD (digit64 j).toNat INVAL = j := by
  have h : ∀ j : Fin 64, t64d.getD (digit64 j).toNat INVAL = j := by decide
  exact h ⟨j, hj⟩

theorem t64d_pad64 : t64d.getD pad64.toNat INVAL = INVAL := rfl

/-- The four digits of a group. -/
def group64 (b24 : ℕ) : List UInt8 :=
  [digit64 (b24 / 262144), digit64 (b24 / 4096 % 64), digit64 (b24 / 64 % 64), digit64 (b24 % 64)]

theorem and_3f (x : ℕ) : x &&& 0x3f = x % 64 := Nat.and_two_pow_sub_one_eq_mod x 6

/-- The bytes of a group as one number. -/
theorem or_bytes (a b c : UInt8) : a.toNat <<< 16 ||| b.toNat <<< 8 ||| c.toNat =
    a.toNat * 65536 + b.toNat * 256 + c.toNat := by
  have hb := b.toNat_lt
  have hc := c.toNat_lt
  have hbc : b.toNat <<< 8 ||| c.toNat = b.toNat * 256 + c.toNat := by
    rw [← Nat.shiftLeft_add_eq_or_of_lt hc, Nat.shiftLeft_eq]
  rw [Nat.or_assoc, hbc, ← Nat.shiftLeft_add_eq_or_of_lt (by omega), Nat.shiftLeft_eq,
    Nat.add_assoc]

variable {x : ℕ}

theorem or_digits {w y z : ℕ} (hx : x < 64) (hy : y < 64) (hz : z < 64) :
    w <<< 18 ||| x <<< 12 ||| y <<< 6 ||| z = w * 262144 + x * 4096 + y * 64 + z := by
  have hyz : y <<< 6 ||| z = y * 64 + z := by
    rw [← Nat.shiftLeft_add_eq_or_of_lt hz, Nat.shiftLeft_eq]
  have hxyz : x <<< 12 ||| (y * 64 + z) = x * 4096 + (y * 64 + z) := by
    rw [← Nat.shiftLeft_add_eq_or_of_lt (by omega), Nat.shiftLeft_eq]
  rw [Nat.or_assoc, Nat.or_assoc, hyz, hxyz, ← Nat.shiftLeft_add_eq_or_of_lt (by omega),
    Nat.shiftLeft_eq]
  omega

theorem digits_eq (b24 : ℕ) : [digit64 (b24 >>> 18), digit64 (b24 >>> 12 &&& 0x3f),
    digit64 (b24 >>> 6 &&& 0x3f), digit64 (b24 &&& 0x3f)] = group64 b24 := by
  rw [and_3f, and_3f, and_3f, Nat.shiftRight_eq_div_pow, Nat.shiftRight_eq_div_pow,
    Nat.shiftRight_eq_div_pow]
  rfl

/-! ### Encoding -/

/-- How many digits and pads the encoding of `n` bytes has. -/
def length64 (n : ℕ) : ℕ := 4 * ((n + 2) / 3)

theorem length64_add_three (n : ℕ) : length64 (n + 3) = length64 n + 4 := by
  rw [length64, length64]
  omega

theorem length64_one : length64 1 = 4 := rfl

theorem length64_two : length64 2 = 4 := rfl

/-- The encoding. -/
def text64 : List UInt8 → List UInt8
  | a :: b :: c :: inp => group64 (a.toNat * 65536 + b.toNat * 256 + c.toNat) ++ text64 inp
  | [a, b] => (group64 (a.toNat * 65536 + b.toNat * 256)).set 3 pad64
  | [a] => ((group64 (a.toNat * 65536)).set 2 pad64).set 3 pad64
  | [] => []

theorem length_text64 (inp : List UInt8) : (text64 inp).length = length64 inp.length := by
  fun_induction text64 inp with
  | case1 a b c inp ih =>
    rw [length_append, ih, length_cons, length_cons, length_cons, length64_add_three, Nat.add_comm]
    rfl
  | case2 a b =>
    have htwo : [a, b].length = 2 := rfl
    rw [length_set, htwo, length64_two]
    rfl
  | case3 a =>
    have hone : [a].length = 1 := rfl
    rw [length_set, length_set, hone, length64_one]
    rfl
  | case4 => rfl

section Encode

variable {lim : ℤ} {a b c : UInt8} {inp out : List UInt8}

theorem enc64Loop_three : enc64Loop lim (a :: b :: c :: inp) out = if out.length + 4 ≥ lim then out
    else enc64Loop lim inp (out ++ group64 (a.toNat * 65536 + b.toNat * 256 + c.toNat)) := by
  rw [enc64Loop, or_bytes, digits_eq]

theorem enc64Loop_two : enc64Loop lim [a, b] out =
    if out.length + 4 ≥ lim then out else out ++ text64 [a, b] := by
  have hor : a.toNat <<< 16 ||| b.toNat <<< 8 = a.toNat * 65536 + b.toNat * 256 := by
    have hb := b.toNat_lt
    have hlt : b.toNat <<< 8 < 2 ^ 16 := by
      rw [Nat.shiftLeft_eq]
      omega
    rw [← Nat.shiftLeft_add_eq_or_of_lt hlt, Nat.shiftLeft_eq, Nat.shiftLeft_eq]
  rw [enc64Loop, hor]
  exact congrArg (fun l : List UInt8 => if out.length + 4 ≥ lim then out else out ++ l.set 3 pad64)
    (digits_eq _)

theorem enc64Loop_one : enc64Loop lim [a] out =
    if out.length + 4 ≥ lim then out else out ++ text64 [a] := by
  rw [enc64Loop, Nat.shiftLeft_eq]
  exact congrArg (fun l : List UInt8 =>
    if out.length + 4 ≥ lim then out else out ++ (l.set 2 pad64).set 3 pad64) (digits_eq _)

/-- With room for the encoding and the NUL, the encoding is appended. -/
theorem enc64Loop_of_lt (h : out.length + length64 inp.length < lim) :
    enc64Loop lim inp out = out ++ text64 inp := by
  induction inp using text64.induct generalizing out with
  | case1 a b c inp ih =>
    rw [length_cons, length_cons, length_cons, length64_add_three] at h
    push_cast at h
    rw [enc64Loop_three, if_neg (by omega), ih, text64, append_assoc]
    rw [length_append, group64, length_cons, length_cons, length_cons, length_singleton]
    push_cast
    omega
  | case2 a b =>
    have htwo : length64 [a, b].length = 4 := length64_two
    rw [htwo] at h
    rw [enc64Loop_two, if_neg (by omega)]
  | case3 a =>
    have hone : length64 [a].length = 4 := length64_one
    rw [hone] at h
    rw [enc64Loop_one, if_neg (by omega)]
  | case4 => rw [enc64Loop, text64, append_nil]

/-- Without it, the end is missing. -/
theorem length_enc64Loop_lt (hne : inp ≠ []) (h : lim ≤ out.length + length64 inp.length) :
    (enc64Loop lim inp out).length < out.length + length64 inp.length := by
  induction inp using text64.induct generalizing out with
  | case1 a b c inp ih =>
    rw [length_cons, length_cons, length_cons, length64_add_three] at h ⊢
    push_cast at h
    rw [enc64Loop_three]
    split
    · omega
    · rename_i hroom
      have hlen : (out ++ group64 (a.toNat * 65536 + b.toNat * 256 + c.toNat)).length =
          out.length + 4 := length_append
      have hinp : inp ≠ [] := by
        rintro rfl
        rw [length_nil, length64] at h
        push_cast at h
        omega
      have hlt : (enc64Loop lim inp
          (out ++ group64 (a.toNat * 65536 + b.toNat * 256 + c.toNat))).length <
          (out ++ group64 (a.toNat * 65536 + b.toNat * 256 + c.toNat)).length +
            length64 inp.length := by
        refine ih hinp ?_
        rw [hlen]
        push_cast
        omega
      rw [hlen] at hlt
      omega
  | case2 a b =>
    have htwo : length64 [a, b].length = 4 := length64_two
    rw [htwo] at h ⊢
    rw [enc64Loop_two, if_pos (by omega)]
    omega
  | case3 a =>
    have hone : length64 [a].length = 4 := length64_one
    rw [hone] at h ⊢
    rw [enc64Loop_one, if_pos (by omega)]
    omega
  | case4 => exact absurd rfl hne

end Encode

/-- **The encoder returns the encoded length, and stays in the buffer,** if and only if there is
room for the encoding and the NUL. -/
theorem enc64_good_iff (lim : ℤ) (inp : List UInt8) :
    (((enc64 lim inp).2 = -1 ∨ (enc64 lim inp).2 = length64 inp.length) ∧
        Within lim (enc64 lim inp).1) ↔ length64 inp.length < lim := by
  rw [enc64]
  dsimp only
  constructor
  · rintro ⟨hret, hin⟩
    by_contra hno
    rcases eq_nil_or_concat' inp with rfl | ⟨l, x, rfl⟩
    · exact hno (hin 0 (by simp))
    · have hlt : (enc64Loop lim (l ++ [x]) []).length <
          ([] : List UInt8).length + length64 (l ++ [x]).length :=
        length_enc64Loop_lt (by simp) (by simpa using hno)
      rw [length_nil, Nat.zero_add] at hlt
      omega
  · intro hlt
    have henc : enc64Loop lim inp [] = [] ++ text64 inp := enc64Loop_of_lt (by simpa using hlt)
    rw [henc, nil_append, length_text64]
    refine ⟨.inr rfl, fun k hk => ?_⟩
    rw [length_append, length_text64, length_singleton] at hk
    omega

/-! ### Decoding -/

section Decode

variable {lim : ℤ} {inp out : List UInt8} {b24 : ℕ}

/-- The bytes of a group. -/
def bytes64 (b24 : ℕ) : List UInt8 :=
  [UInt8.ofNat (b24 >>> 16), UInt8.ofNat (b24 >>> 8), UInt8.ofNat b24]

theorem bytes64_eq (a b c : UInt8) :
    bytes64 (a.toNat * 65536 + b.toNat * 256 + c.toNat) = [a, b, c] := by
  have hb := b.toNat_lt
  have hc := c.toNat_lt
  have h16 : (a.toNat * 65536 + b.toNat * 256 + c.toNat) >>> 16 = a.toNat := by
    rw [Nat.shiftRight_eq_div_pow]
    omega
  have h8 : UInt8.ofNat ((a.toNat * 65536 + b.toNat * 256 + c.toNat) >>> 8) = b := by
    rw [Nat.shiftRight_eq_div_pow, ← UInt8.toNat_inj, UInt8.toNat_ofNat']
    omega
  have h0 : UInt8.ofNat (a.toNat * 65536 + b.toNat * 256 + c.toNat) = c := by
    rw [← UInt8.toNat_inj, UInt8.toNat_ofNat']
    omega
  rw [bytes64, h16, h8, h0, UInt8.ofNat_toNat]

theorem dec64Loop_cons (b : UInt8) (i : ℕ) : dec64Loop lim (b :: inp) b24 i out =
    if t64d.getD b.toNat INVAL = INVAL then dec64Loop lim inp b24 i out
    else
      match i with
      | 0 => dec64Loop lim inp (t64d.getD b.toNat INVAL <<< 18) 1 out
      | 1 => dec64Loop lim inp (b24 ||| t64d.getD b.toNat INVAL <<< 12) 2 out
      | 2 => dec64Loop lim inp (b24 ||| t64d.getD b.toNat INVAL <<< 6) 3 out
      | _ =>
        if out.length + 3 > lim then out
        else
          dec64Loop lim inp (b24 ||| t64d.getD b.toNat INVAL) 0
            (out ++ bytes64 (b24 ||| t64d.getD b.toNat INVAL)) := rfl

/-- One digit more. -/
theorem dec64Loop_digit (hj : j < 64) (i : ℕ) : dec64Loop lim (digit64 j :: inp) b24 i out =
    match i with
    | 0 => dec64Loop lim inp (j <<< 18) 1 out
    | 1 => dec64Loop lim inp (b24 ||| j <<< 12) 2 out
    | 2 => dec64Loop lim inp (b24 ||| j <<< 6) 3 out
    | _ =>
      if out.length + 3 > lim then out
      else dec64Loop lim inp (b24 ||| j) 0 (out ++ bytes64 (b24 ||| j)) := by
  have hne : j ≠ INVAL := by
    rw [INVAL]
    omega
  rw [dec64Loop_cons, t64d_digit64 hj, if_neg hne]

theorem dec64Loop_first (hj : j < 64) : dec64Loop lim (digit64 j :: inp) b24 0 out =
    dec64Loop lim inp (j <<< 18) 1 out := dec64Loop_digit hj 0

theorem dec64Loop_second (hj : j < 64) : dec64Loop lim (digit64 j :: inp) b24 1 out =
    dec64Loop lim inp (b24 ||| j <<< 12) 2 out := dec64Loop_digit hj 1

theorem dec64Loop_third (hj : j < 64) : dec64Loop lim (digit64 j :: inp) b24 2 out =
    dec64Loop lim inp (b24 ||| j <<< 6) 3 out := dec64Loop_digit hj 2

theorem dec64Loop_fourth (hj : j < 64) : dec64Loop lim (digit64 j :: inp) b24 3 out =
    if out.length + 3 > lim then out
    else dec64Loop lim inp (b24 ||| j) 0 (out ++ bytes64 (b24 ||| j)) := dec64Loop_digit hj 3

theorem dec64Loop_pad (i : ℕ) : dec64Loop lim (pad64 :: inp) b24 i out =
    dec64Loop lim inp b24 i out := by
  rw [dec64Loop_cons, t64d_pad64]
  exact if_pos rfl

/-- The digits of a group are put together again. -/
theorem dec64Loop_group (hx : x < 16777216) : dec64Loop lim (group64 x ++ inp) b24 0 out =
      if out.length + 3 > lim then out else dec64Loop lim inp x 0 (out ++ bytes64 x) := by
  have hor := or_digits (w := x / 262144) (Nat.mod_lt (x / 4096) (by decide : 0 < 64))
    (Nat.mod_lt (x / 64) (by decide : 0 < 64)) (Nat.mod_lt x (by decide : 0 < 64))
  have hsum : x / 262144 * 262144 + x / 4096 % 64 * 4096 + x / 64 % 64 * 64 + x % 64 = x := by omega
  rw [group64, cons_append, cons_append, cons_append, cons_append,
    nil_append, dec64Loop_first (by omega), dec64Loop_second (by omega),
    dec64Loop_third (by omega), dec64Loop_fourth (by omega), hor, hsum]

/-- What is written at the end of the input. -/
theorem dec64Loop_nil (i : ℕ) : dec64Loop lim [] b24 i out = match i with
    | 2 => if out.length + 1 > lim then out else out ++ (bytes64 b24).take 1
    | 3 => if out.length + 2 > lim then out else out ++ (bytes64 b24).take 2
    | _ => out := rfl

theorem dec64Loop_two (a b : UInt8) (h : out.length + 2 ≤ lim) :
    dec64Loop lim (text64 [a, b]) b24 0 out = out ++ [a, b] := by
  have ha := a.toNat_lt
  have hb := b.toNat_lt
  obtain ⟨x, hx⟩ : ∃ x, x = a.toNat * 65536 + b.toNat * 256 := ⟨_, rfl⟩
  have hbytes := bytes64_eq a b 0
  have hzero : (0 : UInt8).toNat = 0 := rfl
  rw [hzero, Nat.add_zero, ← hx] at hbytes
  have hor := or_digits (w := x / 262144) (z := 0) (Nat.mod_lt (x / 4096) (by decide : 0 < 64))
    (Nat.mod_lt (x / 64) (by decide : 0 < 64)) (by decide)
  have hsum : x / 262144 * 262144 + x / 4096 % 64 * 4096 + x / 64 % 64 * 64 + 0 = x := by omega
  rw [Nat.or_zero, hsum] at hor
  have htext : text64 [a, b] =
      [digit64 (x / 262144), digit64 (x / 4096 % 64), digit64 (x / 64 % 64), pad64] := by
    rw [hx]
    rfl
  have hroom : ¬(out.length : ℤ) + 2 > lim := by omega
  rw [htext, dec64Loop_first (by omega), dec64Loop_second (by omega), dec64Loop_third (by omega),
    dec64Loop_pad, hor]
  refine (dec64Loop_nil 3).trans ?_
  rw [hbytes]
  exact if_neg hroom

theorem dec64Loop_one (a : UInt8) (h : out.length + 1 ≤ lim) :
    dec64Loop lim (text64 [a]) b24 0 out = out ++ [a] := by
  have ha := a.toNat_lt
  have hbytes := bytes64_eq a 0 0
  have hzero : (0 : UInt8).toNat = 0 := rfl
  obtain ⟨x, hx⟩ : ∃ x, x = a.toNat * 65536 := ⟨_, rfl⟩
  rw [hzero, Nat.zero_mul, Nat.add_zero, ← hx] at hbytes
  have hor := or_digits (w := x / 262144) (y := 0) (z := 0)
    (Nat.mod_lt (x / 4096) (by decide : 0 < 64)) (by decide) (by decide)
  have hsum : x / 262144 * 262144 + x / 4096 % 64 * 4096 + 0 * 64 + 0 = x := by omega
  rw [Nat.or_zero, Nat.zero_shiftLeft, Nat.or_zero, hsum] at hor
  have htext : text64 [a] = [digit64 (x / 262144), digit64 (x / 4096 % 64), pad64, pad64] := by
    rw [hx]
    rfl
  have hroom : ¬(out.length : ℤ) + 1 > lim := by omega
  rw [htext, dec64Loop_first (by omega), dec64Loop_second (by omega), dec64Loop_pad, dec64Loop_pad,
    hor]
  refine (dec64Loop_nil 2).trans ?_
  rw [hbytes]
  exact if_neg hroom

/-- **The encoding is decoded** if there is room for the bytes. -/
theorem dec64Loop_text64 (h : out.length + inp.length ≤ lim) :
    dec64Loop lim (text64 inp) b24 0 out = out ++ inp := by
  induction inp using text64.induct generalizing out b24 with
  | case1 a b c inp ih =>
    have ha := a.toNat_lt
    have hb := b.toNat_lt
    have hc := c.toNat_lt
    rw [length_cons, length_cons, length_cons] at h
    push_cast at h
    rw [text64, dec64Loop_group (by omega), if_neg (by omega), bytes64_eq, ih, append_assoc]
    · rfl
    · rw [length_append, length_cons, length_cons, length_singleton]
      push_cast
      omega
  | case2 a b => exact dec64Loop_two a b h
  | case3 a => exact dec64Loop_one a h
  | case4 => exact (append_nil out).symm

/-- **The decoder does not write past the limit.** -/
theorem length_dec64Loop (lim : ℤ) (inp : List UInt8) (b24 i : ℕ) (out : List UInt8) :
    (dec64Loop lim inp b24 i out).length = out.length ∨
      ((dec64Loop lim inp b24 i out).length : ℤ) ≤ lim := by
  induction inp generalizing b24 i out with
  | nil =>
    rw [dec64Loop_nil]
    split
    · split
      · exact .inl rfl
      · rename_i hroom
        right
        have hlen : (out ++ (bytes64 b24).take 1).length = out.length + 1 := length_append
        rw [hlen]
        push_cast
        omega
    · split
      · exact .inl rfl
      · rename_i hroom
        right
        have hlen : (out ++ (bytes64 b24).take 2).length = out.length + 2 := length_append
        rw [hlen]
        push_cast
        omega
    · exact .inl rfl
  | cons b inp ih =>
    rw [dec64Loop_cons]
    split
    · exact ih b24 i out
    split
    · exact ih _ _ out
    · exact ih _ _ out
    · exact ih _ _ out
    split
    · exact .inl rfl
    · rename_i hroom
      have hlen (x : ℕ) : (out ++ bytes64 x).length = out.length + 3 := length_append
      right
      rcases ih (b24 ||| t64d.getD b.toNat INVAL) 0
        (out ++ bytes64 (b24 ||| t64d.getD b.toNat INVAL))
        with h | h
      · rw [h, hlen]
        push_cast
        omega
      · exact h

end Decode

/-- `dec64` with room for the bytes takes back what `enc64` made, if that had room. -/
theorem dec64_enc64 {lim lim' : ℤ} {inp : List UInt8} (h : length64 inp.length < lim)
    (h' : inp.length ≤ lim') :
    dec64 lim' ((enc64 lim inp).1.take (enc64 lim inp).2.toNat) = inp := by
  have henc : enc64Loop lim inp [] = text64 inp := enc64Loop_of_lt (by simpa using h)
  rw [enc64]
  dsimp only
  rw [henc, Int.toNat_natCast, take_left, dec64, dec64Loop_text64 (by simpa using h')]
  rfl

/-- `dec64` writes nothing at the limit or beyond it, whatever the input. -/
theorem dec64_within (lim : ℤ) (inp : List UInt8) : Within lim (dec64 lim inp) := by
  intro k hk
  rcases length_dec64Loop lim inp 0 0 [] with h | h
  · rw [dec64, h] at hk
    exact absurd hk (Nat.not_lt_zero k)
  · rw [dec64] at hk
    omega

end Libc

end Plan9
