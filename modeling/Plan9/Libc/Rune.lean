import Plan9.Lib.Utf8
import Mathlib.Data.Nat.Bitwise
import Mathlib.Tactic.IntervalCases

/-!
# Runes

`rune.c`: the conversions between UTF-8 strings and runes. A string is what can be read of the
memory from its first byte on, so a function that reads too far has no result.

* `Plan9.Libc.chartorune_of_wellFormed`, `Plan9.Libc.chartorune_cases` – what `chartorune` does
  with bytes that are well formed, and with all others;
* `Plan9.Libc.runetochar_eq` – `runetochar` writes the well-formed bytes;
* `Plan9.Libc.utf8` – decoder, encoder and `fullrune` agree.
-/

namespace Plan9

namespace Libc

open Lib Option

/-! ### The code -/

def UTFmax : ℕ := 4

def Runeerror : ℕ := 0xFFFD

def Runemax : ℕ := 0x10FFFF

def Bit (i : ℕ) : ℕ := 7 - i

def Bitx : ℕ := Bit 1

/-- N 0's preceded by i 1's. -/
def T (i : ℕ) : ℕ := (1 <<< (Bit i + 1) - 1) ^^^ 0xFF

def RuneX (i : ℕ) : ℕ := 1 <<< (Bit i + (i - 1) * Bitx) - 1

def Tx : ℕ := T 1

def Rune1 : ℕ := 1 <<< (Bit 0 + 0 * Bitx) - 1

def Maskx : ℕ := 1 <<< Bitx - 1

def Testx : ℕ := Maskx ^^^ 0xFF

def SurrogateMin : ℕ := 0xD800

def SurrogateMax : ℕ := 0xDFFF

/-- What can be read of a string. -/
abbrev Str := ℕ → Option UInt8

/-- The rune, and how many bytes it took. -/
def bad : Option (ℕ × ℕ) := some (Runeerror, 1)

/-- The loop of `chartorune` from `i` on; `l` has the bits so far. A `Rune` has 32 bits, which the
four bytes do not exceed. -/
def chartoruneLoop (str : Str) (c0 l i : ℕ) : Option (ℕ × ℕ) :=
  if i < UTFmax then
    (str i).bind fun b =>
      let ch := b.toNat ^^^ Tx
      if ch &&& Testx ≠ 0 then bad
      else
        let l := l <<< Bitx ||| ch
        -- end of UTF-8 sequence?
        if c0 < T (i + 2) then
          let l := l &&& RuneX (i + 1)
          if if i = 1 then c0 < T 2 ∨ l ≤ Rune1 else l ≤ RuneX i ∨ l > Runemax then bad
          else if i = 2 ∧ SurrogateMin ≤ l ∧ l ≤ SurrogateMax then bad
          else some (l, i + 1)
        else chartoruneLoop str c0 l (i + 1)
  else bad
  termination_by UTFmax - i

def chartorune (str : Str) : Option (ℕ × ℕ) :=
  (str 0).bind fun b =>
    let l := b.toNat
    if l < Tx then some (l, 1) else chartoruneLoop str l l 1

/-- The bytes that `runetochar` writes when it takes `i` of them. -/
def runebytes (c i : ℕ) : List UInt8 :=
  UInt8.ofNat (T i ||| c >>> ((i - 1) * Bitx)) ::
    (List.range' 1 (i - 1)).map fun j =>
      UInt8.ofNat (Tx ||| (c >>> ((i - j - 1) * Bitx) &&& Maskx))

/-- The loop of `runetochar` from `i` on: what is written, and what is returned. -/
def runetocharLoop (c i : ℕ) : List UInt8 × ℕ :=
  if i < UTFmax + 1 then
    let c :=
      if i = 3 ∧ (c > Runemax ∨ SurrogateMin ≤ c ∧ c ≤ SurrogateMax) then Runeerror else c
    if c ≤ RuneX i ∨ i = UTFmax then (runebytes c i, i) else runetocharLoop c (i + 1)
  else ([], UTFmax)
  termination_by UTFmax + 1 - i

def runetochar (c : ℕ) : List UInt8 × ℕ :=
  if c ≤ Rune1 then ([UInt8.ofNat c], 1) else runetocharLoop c 2

/-- The loop of `fullrune` from `i` on. -/
def fullruneLoop (c i : ℕ) (n : ℤ) : Bool :=
  if i < UTFmax + 1 then
    if c < T i then n ≥ i - 1 else fullruneLoop c (i + 1) n
  else n ≥ UTFmax
  termination_by UTFmax + 1 - i

def fullrune (str : Str) (n : ℤ) : Option Bool :=
  if n ≤ 0 then some false
  else
    (str 0).map fun b =>
      let c := b.toNat
      if c < Tx then true else fullruneLoop c 3 n

/-! ### The constants -/

theorem T_two : T 2 = 0xC0 := rfl

theorem T_three : T 3 = 0xE0 := rfl

theorem T_four : T 4 = 0xF0 := rfl

theorem T_five : T 5 = 0xF8 := rfl

theorem runeX_two : RuneX 2 = 0x7FF := rfl

theorem runeX_three : RuneX 3 = 0xFFFF := rfl

theorem rune1 : Rune1 = 0x7F := rfl

/-! ### Bytes that follow -/

variable {str : Str} {b : UInt8} {c0 l i r n k : ℕ} {bs s : List UInt8}

/-- A byte that follows another. -/
def Cont (b : ℕ) : Prop := 0x80 ≤ b ∧ b < 0xC0

set_option maxRecDepth 10000 in
theorem testx_ne_zero (b : UInt8) : (b.toNat ^^^ Tx) &&& Testx ≠ 0 ↔ ¬Cont b.toNat := by
  have h : ∀ b : Fin 256, (b.val ^^^ Tx) &&& Testx ≠ 0 ↔ ¬(0x80 ≤ b.val ∧ b.val < 0xC0) := by
    decide
  exact h ⟨b.toNat, b.toNat_lt⟩

set_option maxRecDepth 10000 in
theorem xor_tx (h : Cont b.toNat) : b.toNat ^^^ Tx = b.toNat - 0x80 := by
  have h' : ∀ b : Fin 256, 0x80 ≤ b.val ∧ b.val < 0xC0 → b.val ^^^ Tx = b.val - 0x80 := by
    decide
  exact h' ⟨b.toNat, b.toNat_lt⟩ h

/-- Six more bits. -/
theorem shift_or {x : ℕ} (hx : x < 64) : l <<< Bitx ||| x = l * 64 + x := by
  rw [Nat.shiftLeft_eq, show (2 : ℕ) ^ Bitx = 64 from rfl, Nat.mul_comm l]
  exact (Nat.two_pow_add_eq_or_of_lt (i := 6) hx l).symm

theorem chartoruneLoop_none (hi : i < 4) (hb : str i = some b) (hc : ¬Cont b.toNat) :
    chartoruneLoop str c0 l i = bad := by
  rw [chartoruneLoop, if_pos (show i < UTFmax from hi), hb, bind_some]
  exact if_pos ((testx_ne_zero b).2 hc)

/-- A byte that follows: the sequence ends there, or the next one is read. -/
theorem chartoruneLoop_cont (hi : i < 4) (hb : str i = some b) (hc : Cont b.toNat) :
    chartoruneLoop str c0 l i = if c0 < T (i + 2) then
        let l := (l * 64 + (b.toNat - 0x80)) &&& RuneX (i + 1)
        if if i = 1 then c0 < T 2 ∨ l ≤ Rune1 else l ≤ RuneX i ∨ l > Runemax then bad
        else if i = 2 ∧ SurrogateMin ≤ l ∧ l ≤ SurrogateMax then bad
        else some (l, i + 1)
      else chartoruneLoop str c0 (l * 64 + (b.toNat - 0x80)) (i + 1) := by
  rw [chartoruneLoop, if_pos (show i < UTFmax from hi), hb, bind_some]
  have hx : b.toNat - 0x80 < 64 := by
    have := hc.2
    omega
  simp only [xor_tx hc, shift_or hx]
  rw [← xor_tx hc]
  exact if_neg fun h => (testx_ne_zero b).1 h hc

theorem and_runeX_two (l : ℕ) : l &&& RuneX 2 = l % 0x800 := Nat.and_two_pow_sub_one_eq_mod l 11

theorem and_runeX_three (l : ℕ) : l &&& RuneX 3 = l % 0x10000 := Nat.and_two_pow_sub_one_eq_mod l 16

theorem and_runeX_four (l : ℕ) : l &&& RuneX 4 = l % 0x200000 := Nat.and_two_pow_sub_one_eq_mod l 21

/-- The second byte. -/
theorem chartoruneLoop_one (hb : str 1 = some b) (hc : Cont b.toNat) : chartoruneLoop str c0 l 1 =
      if c0 < 0xE0 then
        if c0 < 0xC0 ∨ (l * 64 + (b.toNat - 0x80)) % 0x800 ≤ 0x7F then bad
        else some ((l * 64 + (b.toNat - 0x80)) % 0x800, 2)
      else chartoruneLoop str c0 (l * 64 + (b.toNat - 0x80)) 2 := by
  rw [chartoruneLoop_cont (by omega) hb hc]
  simp only [Nat.reduceAdd, and_runeX_two, T_two, T_three, rune1, if_true, Nat.reduceEqDiff,
    false_and, if_false]

/-- The third byte. -/
theorem chartoruneLoop_two (hb : str 2 = some b) (hc : Cont b.toNat) : chartoruneLoop str c0 l 2 =
      if c0 < 0xF0 then
        if (l * 64 + (b.toNat - 0x80)) % 0x10000 ≤ 0x7FF ∨
            Runemax < (l * 64 + (b.toNat - 0x80)) % 0x10000 then bad
        else if SurrogateMin ≤ (l * 64 + (b.toNat - 0x80)) % 0x10000 ∧
            (l * 64 + (b.toNat - 0x80)) % 0x10000 ≤ SurrogateMax then bad
        else some ((l * 64 + (b.toNat - 0x80)) % 0x10000, 3)
      else chartoruneLoop str c0 (l * 64 + (b.toNat - 0x80)) 3 := by
  rw [chartoruneLoop_cont (by omega) hb hc]
  simp only [Nat.reduceAdd, and_runeX_three, T_four, runeX_two, Nat.reduceEqDiff, if_false,
    true_and, gt_iff_lt]

/-- The fourth byte. -/
theorem chartoruneLoop_three (hb : str 3 = some b) (hc : Cont b.toNat) : chartoruneLoop str c0 l 3 =
      if c0 < 0xF8 then
        if (l * 64 + (b.toNat - 0x80)) % 0x200000 ≤ 0xFFFF ∨
            Runemax < (l * 64 + (b.toNat - 0x80)) % 0x200000 then bad
        else some ((l * 64 + (b.toNat - 0x80)) % 0x200000, 4)
      else bad := by
  have hend : chartoruneLoop str c0 (l * 64 + (b.toNat - 0x80)) 4 = bad := by
    rw [chartoruneLoop]
    exact if_neg (by decide)
  rw [chartoruneLoop_cont (by omega) hb hc, hend]
  simp only [Nat.reduceAdd, and_runeX_four, T_five, runeX_three, Nat.reduceEqDiff, if_false,
    false_and, gt_iff_lt]

/-! ### Decoding -/

/-- The string begins with the bytes. -/
def Begins (str : Str) (bs : List UInt8) : Prop := ∀ i b, bs[i]? = some b → str i = some b

theorem chartorune_eq (hb : str 0 = some b) : chartorune str =
    if b.toNat < 0x80 then some (b.toNat, 1) else chartoruneLoop str b.toNat b.toNat 1 := by
  rw [chartorune, hb, bind_some]
  rfl

/-- **Well-formed bytes** are decoded, whatever stands behind them. -/
theorem chartorune_of_wellFormed (h : WellFormed r bs) (hs : Begins str bs) :
    chartorune str = some (r, bs.length) := by
  obtain ⟨⟨hmax, hsur⟩, hbs⟩ := wellFormed_iff.1 h
  have hcases : follow r = 0 ∧ r < 0x80 ∨ follow r = 1 ∧ 0x80 ≤ r ∧ r < 0x800 ∨
      follow r = 2 ∧ 0x800 ≤ r ∧ r < 0x10000 ∨ follow r = 3 ∧ 0x10000 ≤ r := by
    unfold follow
    split_ifs <;> omega
  rcases hcases with ⟨hf, hr⟩ | ⟨hf, hlo, hr⟩ | ⟨hf, hlo, hr⟩ | ⟨hf, hlo⟩
  · rw [hf] at hbs
    obtain ⟨b0, _, rfl, h0, hnil⟩ := List.map_eq_cons_iff.1 hbs
    obtain rfl := List.map_eq_nil_iff.1 hnil
    simp only [lead] at h0
    rw [chartorune_eq (hs 0 b0 rfl), if_pos (by omega), h0]
    simp
  · rw [hf] at hbs
    obtain ⟨b0, _, rfl, h0, hrest⟩ := List.map_eq_cons_iff.1 hbs
    obtain ⟨b1, _, rfl, h1, hnil⟩ := List.map_eq_cons_iff.1 hrest
    obtain rfl := List.map_eq_nil_iff.1 hnil
    simp only [lead, Nat.pow_zero, Nat.pow_one, Nat.div_one] at h0 h1
    have hc1 : Cont b1.toNat := by
      constructor <;> omega
    rw [chartorune_eq (hs 0 b0 rfl), if_neg (by omega), chartoruneLoop_one (hs 1 b1 rfl) hc1,
      if_pos (by omega), if_neg (by omega)]
    refine congrArg some (Prod.ext ?_ rfl)
    change (b0.toNat * 64 + (b1.toNat - 0x80)) % 0x800 = r
    omega
  · rw [hf] at hbs
    obtain ⟨b0, _, rfl, h0, hrest⟩ := List.map_eq_cons_iff.1 hbs
    obtain ⟨b1, _, rfl, h1, hrest'⟩ := List.map_eq_cons_iff.1 hrest
    obtain ⟨b2, _, rfl, h2, hnil⟩ := List.map_eq_cons_iff.1 hrest'
    obtain rfl := List.map_eq_nil_iff.1 hnil
    simp only [lead, Nat.pow_zero, Nat.pow_one, Nat.div_one, Nat.reducePow] at h0 h1 h2
    have hc1 : Cont b1.toNat := by
      constructor <;> omega
    have hc2 : Cont b2.toNat := by
      constructor <;> omega
    have hl : ((b0.toNat * 64 + (b1.toNat - 0x80)) * 64 + (b2.toNat - 0x80)) % 0x10000 = r := by
      omega
    rw [chartorune_eq (hs 0 b0 rfl), if_neg (by omega), chartoruneLoop_one (hs 1 b1 rfl) hc1,
      if_neg (by omega), chartoruneLoop_two (hs 2 b2 rfl) hc2, if_pos (by omega), hl,
      if_neg (by simp only [Runemax]; omega),
      if_neg (show ¬(SurrogateMin ≤ r ∧ r ≤ SurrogateMax) from hsur)]
    rfl
  · rw [hf] at hbs
    obtain ⟨b0, _, rfl, h0, hrest⟩ := List.map_eq_cons_iff.1 hbs
    obtain ⟨b1, _, rfl, h1, hrest'⟩ := List.map_eq_cons_iff.1 hrest
    obtain ⟨b2, _, rfl, h2, hrest''⟩ := List.map_eq_cons_iff.1 hrest'
    obtain ⟨b3, _, rfl, h3, hnil⟩ := List.map_eq_cons_iff.1 hrest''
    obtain rfl := List.map_eq_nil_iff.1 hnil
    simp only [lead, Nat.pow_zero, Nat.pow_one, Nat.div_one, Nat.reducePow] at h0 h1 h2 h3
    have hc1 : Cont b1.toNat := by
      constructor <;> omega
    have hc2 : Cont b2.toNat := by
      constructor <;> omega
    have hc3 : Cont b3.toNat := by
      constructor <;> omega
    have hl : (((b0.toNat * 64 + (b1.toNat - 0x80)) * 64 + (b2.toNat - 0x80)) * 64 +
        (b3.toNat - 0x80)) % 0x200000 = r := by
      omega
    rw [chartorune_eq (hs 0 b0 rfl), if_neg (by omega), chartoruneLoop_one (hs 1 b1 rfl) hc1,
      if_neg (by omega), chartoruneLoop_two (hs 2 b2 rfl) hc2, if_neg (by omega),
      chartoruneLoop_three (hs 3 b3 rfl) hc3, if_pos (by omega), hl,
      if_neg (by simp only [Runemax]; omega)]
    rfl

/-- The strings that end with a byte zero: no byte behind it can be read. -/
def cstr (s : List UInt8) : Str := fun i => (s ++ [0])[i]?

/-- Behind a byte that is not zero there is a byte to read. -/
theorem cstr_next (hi : cstr s i = some b) (hb : b ≠ 0) : ∃ b', cstr s (i + 1) = some b' := by
  have hlt : i < s.length + 1 := by
    have := (List.getElem?_eq_some_iff.1 hi).1
    rwa [List.length_append] at this
  have hne : i ≠ s.length := by
    rintro rfl
    rw [cstr, List.getElem?_append_right le_rfl, Nat.sub_self] at hi
    exact hb (some.inj hi).symm
  have hlt : i + 1 < (s ++ [0]).length := by
    rw [List.length_append, List.length_singleton]
    omega
  exact ⟨(s ++ [0])[i + 1], List.getElem?_eq_getElem hlt⟩

theorem Cont.ne_zero (h : Cont b.toNat) : b ≠ 0 := by
  rintro rfl
  exact absurd h.1 (by decide)

theorem follow_one (h1 : 0x80 ≤ r) (h2 : r < 0x800) : follow r = 1 := by
  rw [follow, if_neg (by omega), if_pos h2]

theorem follow_two (h1 : 0x800 ≤ r) (h2 : r < 0x10000) : follow r = 2 := by
  rw [follow, if_neg (by omega), if_neg (by omega), if_pos h2]

theorem follow_three (h : 0x10000 ≤ r) : follow r = 3 := by
  rw [follow, if_neg (by omega), if_neg (by omega), if_neg (by omega)]

/-- **Whatever the string is**: it begins with well-formed bytes, which are decoded, or it does not
decode. -/
theorem chartorune_cases (s : List UInt8) :
    (∃ r bs, WellFormed r bs ∧ Begins (cstr s) bs ∧ chartorune (cstr s) = some (r, bs.length)) ∨
      chartorune (cstr s) = bad := by
  obtain ⟨b0, hb0⟩ : ∃ b, cstr s 0 = some b := by
    cases s with
    | nil => exact ⟨0, rfl⟩
    | cons b s => exact ⟨b, rfl⟩
  rw [chartorune_eq hb0]
  by_cases hascii : b0.toNat < 0x80
  · rw [if_pos hascii]
    refine .inl ⟨b0.toNat, [b0], wellFormed_iff.2 ⟨⟨by omega, by omega⟩, ?_⟩, ?_, rfl⟩
    · rw [follow, if_pos hascii]
      simp [form, tails, lead]
    · rintro (- | i) b hb
      · exact hb0.trans hb
      · exact absurd hb (some_ne_none b).symm
  rw [if_neg hascii]
  -- the second byte
  obtain ⟨b1, hb1⟩ := cstr_next hb0 fun h => hascii (by rw [h]; decide)
  by_cases hc1 : Cont b1.toNat
  case neg => exact .inr (chartoruneLoop_none (by omega) hb1 hc1)
  have hx1 := hc1.1
  have hy1 := hc1.2
  rw [chartoruneLoop_one hb1 hc1]
  by_cases h1 : b0.toNat < 0xE0
  · rw [if_pos h1]
    by_cases hbad : b0.toNat < 0xC0 ∨ (b0.toNat * 64 + (b1.toNat - 0x80)) % 0x800 ≤ 0x7F
    · exact .inr (if_pos hbad)
    rw [if_neg hbad]
    set r := (b0.toNat * 64 + (b1.toNat - 0x80)) % 0x800 with hr
    refine .inl ⟨r, [b0, b1], wellFormed_iff.2 ⟨⟨by omega, by omega⟩, ?_⟩, ?_, rfl⟩
    · rw [follow_one (by omega) (by omega)]
      simp only [form, tails, lead, List.map_cons, List.map_nil, Nat.pow_zero, Nat.pow_one,
        Nat.div_one, List.cons.injEq, and_true]
      omega
    · rintro (- | - | i) b hb
      · exact hb0.trans hb
      · exact hb1.trans hb
      · exact absurd hb (some_ne_none b).symm
  rw [if_neg h1]
  -- the third byte
  obtain ⟨b2, hb2⟩ := cstr_next hb1 hc1.ne_zero
  by_cases hc2 : Cont b2.toNat
  case neg => exact .inr (chartoruneLoop_none (by omega) hb2 hc2)
  have hx2 := hc2.1
  have hy2 := hc2.2
  rw [chartoruneLoop_two hb2 hc2]
  by_cases h2 : b0.toNat < 0xF0
  · rw [if_pos h2]
    set r := ((b0.toNat * 64 + (b1.toNat - 0x80)) * 64 + (b2.toNat - 0x80)) % 0x10000 with hr
    by_cases hbad : r ≤ 0x7FF ∨ Runemax < r
    · exact .inr (if_pos hbad)
    rw [if_neg hbad]
    by_cases hsur : SurrogateMin ≤ r ∧ r ≤ SurrogateMax
    · exact .inr (if_pos hsur)
    rw [if_neg hsur]
    refine .inl ⟨r, [b0, b1, b2], wellFormed_iff.2 ⟨⟨by omega, hsur⟩, ?_⟩, ?_, rfl⟩
    · rw [follow_two (by omega) (by omega)]
      simp only [form, tails, lead, List.map_cons, List.map_nil, Nat.pow_zero, Nat.pow_one,
        Nat.div_one, Nat.reducePow, List.cons.injEq, and_true]
      omega
    · rintro (- | - | - | i) b hb
      · exact hb0.trans hb
      · exact hb1.trans hb
      · exact hb2.trans hb
      · exact absurd hb (some_ne_none b).symm
  rw [if_neg h2]
  -- the fourth byte
  obtain ⟨b3, hb3⟩ := cstr_next hb2 hc2.ne_zero
  by_cases hc3 : Cont b3.toNat
  case neg => exact .inr (chartoruneLoop_none (by omega) hb3 hc3)
  have hx3 := hc3.1
  have hy3 := hc3.2
  rw [chartoruneLoop_three hb3 hc3]
  by_cases h3 : b0.toNat < 0xF8
  · rw [if_pos h3]
    set r := (((b0.toNat * 64 + (b1.toNat - 0x80)) * 64 + (b2.toNat - 0x80)) * 64 +
      (b3.toNat - 0x80)) % 0x200000 with hr
    by_cases hbad : r ≤ 0xFFFF ∨ Runemax < r
    · exact .inr (if_pos hbad)
    rw [if_neg hbad]
    simp only [Runemax] at hbad
    refine .inl ⟨r, [b0, b1, b2, b3], wellFormed_iff.2 ⟨⟨by omega, by omega⟩, ?_⟩, ?_, rfl⟩
    · rw [follow_three (by omega)]
      simp only [form, tails, lead, List.map_cons, List.map_nil, Nat.pow_zero, Nat.pow_one,
        Nat.div_one, Nat.reducePow, List.cons.injEq, and_true]
      omega
    · rintro (- | - | - | - | i) b hb
      · exact hb0.trans hb
      · exact hb1.trans hb
      · exact hb2.trans hb
      · exact hb3.trans hb
      · exact absurd hb (some_ne_none b).symm
  · exact .inr (if_neg h3)

/-! ### Encoding -/

theorem shiftRight_bitx (c i : ℕ) : c >>> (i * Bitx) = c / 64 ^ i := by
  rw [Nat.shiftRight_eq_div_pow, show Bitx = 6 from rfl, Nat.mul_comm, Nat.pow_mul]

theorem tx_or (c : ℕ) : Tx ||| (c &&& Maskx) = 0x80 + c % 64 := by
  rw [show c &&& Maskx = c % 64 from Nat.and_two_pow_sub_one_eq_mod c 6]
  exact (Nat.two_pow_add_eq_or_of_lt (i := 6) (Nat.mod_lt c (by decide)) 2).symm

/-- The bytes that are written are a form of the rune. -/
theorem runebytes_eq (hk : k = 1 ∨ k = 2 ∨ k = 3) (h : r < capacity k) :
    runebytes r (k + 1) = (form k r).map UInt8.ofNat := by
  have hlead : T (k + 1) ||| r >>> (k * Bitx) = lead k + r / 64 ^ k := by
    rw [shiftRight_bitx]
    rcases hk with rfl | rfl | rfl <;> simp only [capacity] at h
    · exact (Nat.two_pow_add_eq_or_of_lt (i := 5) (by omega) 6).symm
    · exact (Nat.two_pow_add_eq_or_of_lt (i := 4) (by omega) 14).symm
    · exact (Nat.two_pow_add_eq_or_of_lt (i := 3) (by omega) 30).symm
  rw [runebytes, Nat.add_sub_cancel, hlead, form, List.map_cons]
  congr 1
  simp only [tx_or, shiftRight_bitx]
  rcases hk with rfl | rfl | rfl
  · rfl
  · rfl
  · rfl

theorem runetocharLoop_two (c : ℕ) :
    runetocharLoop c 2 = if c ≤ 0x7FF then (runebytes c 2, 2) else runetocharLoop c 3 := by
  rw [runetocharLoop, if_pos (by decide)]
  simp [runeX_two, UTFmax]

/-- What is no code point becomes the error rune. -/
theorem runetocharLoop_three (c : ℕ) : runetocharLoop c 3 =
    if (if Scalar c then c else Runeerror) ≤ 0xFFFF then
      (runebytes (if Scalar c then c else Runeerror) 3, 3)
    else runetocharLoop (if Scalar c then c else Runeerror) 4 := by
  have hc : (if 3 = 3 ∧ (c > Runemax ∨ SurrogateMin ≤ c ∧ c ≤ SurrogateMax) then Runeerror
      else c) = if Scalar c then c else Runeerror := by
    by_cases hs : Scalar c
    · rw [if_pos hs, if_neg]
      rintro ⟨-, h | h⟩
      · exact absurd hs.1 (Nat.not_le.2 h)
      · exact hs.2 h
    · rw [if_neg hs, if_pos]
      refine ⟨rfl, ?_⟩
      by_contra hno
      rw [not_or] at hno
      exact hs ⟨Nat.le_of_not_lt hno.1, hno.2⟩
  rw [runetocharLoop, if_pos (by decide), hc]
  simp [runeX_three, UTFmax]

theorem runetocharLoop_four (c : ℕ) : runetocharLoop c 4 = (runebytes c 4, 4) := by
  rw [runetocharLoop, if_pos (by decide)]
  simp [UTFmax]

/-- **What is written**: the well-formed bytes, or those of the error rune if there are none. -/
theorem runetochar_eq (c : ℕ) : runetochar c =
    (encode (if Scalar c then c else Runeerror),
      follow (if Scalar c then c else Runeerror) + 1) := by
  by_cases h1 : c < 0x80
  · have hc : Scalar c := ⟨by omega, by omega⟩
    have hf : follow c = 0 := if_pos h1
    rw [runetochar, if_pos (by rw [rune1]; omega), if_pos hc, encode, hf]
    simp [form, tails, lead]
  rw [runetochar, if_neg (by rw [rune1]; omega), runetocharLoop_two]
  by_cases h2 : c < 0x800
  · have hc : Scalar c := ⟨by omega, by omega⟩
    rw [if_pos (by omega), if_pos hc, encode, follow_one (by omega) h2,
      ← runebytes_eq (.inl rfl) h2]
  rw [if_neg (by omega), runetocharLoop_three]
  have hle : (if Scalar c then c else Runeerror) < 0x200000 ∧
      0x800 ≤ if Scalar c then c else Runeerror := by
    split_ifs with hs
    · have := hs.1
      omega
    · decide
  generalize (if Scalar c then c else Runeerror) = r at hle ⊢
  by_cases h3 : r < 0x10000
  · rw [if_pos (by omega), encode, follow_two hle.2 h3, ← runebytes_eq (.inr (.inl rfl)) h3]
  · rw [if_neg (by omega), runetocharLoop_four, encode, follow_three (by omega),
      ← runebytes_eq (.inr (.inr rfl)) hle.1]

/-- Of a code point, they are its well-formed bytes. -/
theorem runetochar_wellFormed (h : WellFormed r bs) : runetochar r = (bs, bs.length) := by
  rw [runetochar_eq, if_pos h.1, ← h.eq_encode, length_of_map_eq (wellFormed_iff.1 h).2]

/-! ### All together -/

/-- The memory that holds `m`. -/
def whole (m : ℕ → UInt8) : Str := fun i => some (m i)

/-- The first `n` bytes of it. -/
def firstBytes (m : ℕ → UInt8) (n : ℤ) : Str := fun i => if (i : ℤ) < n then some (m i) else none

theorem begins_cstr (h : bs <+: s ++ [0]) : Begins (cstr s) bs := by
  intro i b hb
  obtain ⟨t, ht⟩ := h
  rw [cstr, ← ht, List.getElem?_append_left (List.getElem?_eq_some_iff.1 hb).1]
  exact hb

theorem prefix_of_begins (h : Begins (cstr s) bs) : bs <+: s ++ [0] :=
  List.prefix_iff_getElem?.2 fun i hi => h i _ (List.getElem?_eq_getElem hi)

/-- More memory does not change what is decoded. -/
theorem chartoruneLoop_mono {str' : Str} (hsub : ∀ i b, str i = some b → str' i = some b)
    {x : ℕ × ℕ} (h : chartoruneLoop str c0 l i = some x) : chartoruneLoop str' c0 l i = some x := by
  induction hk : 4 - i generalizing l i with
  | zero =>
    have hi : ¬i < UTFmax := by
      rw [UTFmax]
      omega
    rw [chartoruneLoop, if_neg hi] at h ⊢
    exact h
  | succ k ih =>
    have hi : i < 4 := by omega
    rcases hb : str i with - | b
    · rw [chartoruneLoop, if_pos (show i < UTFmax from hi), hb] at h
      exact absurd h nofun
    by_cases hc : Cont b.toNat
    · rw [chartoruneLoop_cont hi hb hc] at h
      rw [chartoruneLoop_cont hi (hsub i b hb) hc]
      by_cases hend : c0 < T (i + 2)
      · rw [if_pos hend] at h ⊢
        exact h
      · rw [if_neg hend] at h ⊢
        exact ih h (by omega)
    · rw [chartoruneLoop_none hi hb hc] at h
      rw [chartoruneLoop_none hi (hsub i b hb) hc]
      exact h

theorem chartorune_mono {str' : Str} (hsub : ∀ i b, str i = some b → str' i = some b)
    {x : ℕ × ℕ} (h : chartorune str = some x) : chartorune str' = some x := by
  rcases hb : str 0 with - | b
  · rw [chartorune, hb] at h
    exact absurd h nofun
  rw [chartorune_eq hb] at h
  rw [chartorune_eq (hsub 0 b hb)]
  by_cases hascii : b.toNat < 0x80
  · rw [if_pos hascii] at h ⊢
    exact h
  · rw [if_neg hascii] at h ⊢
    exact chartoruneLoop_mono hsub h

/-- The first byte says that the sequence ends here. -/
theorem chartoruneLoop_end (hi : i < 4) (hb : str i = some b) (hend : c0 < T (i + 2)) :
    ∃ x, chartoruneLoop str c0 l i = some x := by
  by_cases hc : Cont b.toNat
  · rw [chartoruneLoop_cont hi hb hc, if_pos hend]
    dsimp only
    split_ifs <;> exact ⟨_, rfl⟩
  · exact ⟨_, chartoruneLoop_none hi hb hc⟩

/-- No byte behind the one where the first byte ends the sequence is read. -/
theorem chartoruneLoop_some {e : ℕ} (hie : i ≤ e) (he : e ≤ 3)
    (hstr : ∀ j ≤ e, ∃ b, str j = some b) (hend : c0 < T (e + 2) ∨ e = 3) :
    ∃ x, chartoruneLoop str c0 l i = some x := by
  induction hk : e - i generalizing l i with
  | zero =>
    obtain rfl : i = e := by omega
    obtain ⟨b, hb⟩ := hstr i le_rfl
    rcases hend with hend | rfl
    · exact chartoruneLoop_end (by omega) hb hend
    by_cases hc : Cont b.toNat
    · rw [chartoruneLoop_three hb hc]
      split_ifs <;> exact ⟨_, rfl⟩
    · exact ⟨_, chartoruneLoop_none (by omega) hb hc⟩
  | succ k ih =>
    obtain ⟨b, hb⟩ := hstr i hie
    by_cases hend' : c0 < T (i + 2)
    · exact chartoruneLoop_end (by omega) hb hend'
    by_cases hc : Cont b.toNat
    · rw [chartoruneLoop_cont (by omega) hb hc, if_neg hend']
      exact ih (by omega) (by omega)
    · exact ⟨_, chartoruneLoop_none (by omega) hb hc⟩

theorem fullruneLoop_three (c : ℕ) (n : ℤ) : fullruneLoop c 3 n =
    if c < 0xE0 then decide (n ≥ 2) else if c < 0xF0 then decide (n ≥ 3) else decide (n ≥ 4) := by
  have hstep (i : ℕ) (hi : i < 5) : fullruneLoop c i n =
      if c < T i then decide (n ≥ i - 1) else fullruneLoop c (i + 1) n := by
    rw [fullruneLoop]
    exact if_pos hi
  have hend : fullruneLoop c 5 n = decide (n ≥ 4) := by
    rw [fullruneLoop]
    rfl
  rw [hstep 3 (by omega), hstep 4 (by omega), hend]
  rfl

/-- **A full rune** is decoded from the bytes that `fullrune` has been told of. -/
theorem chartorune_of_fullrune (m : ℕ → UInt8) (n : ℤ) (h : fullrune (whole m) n = some true) :
    chartorune (firstBytes m n) = chartorune (whole m) := by
  have hfirst (j : ℕ) (hj : (j : ℤ) < n) : firstBytes m n j = some (m j) := if_pos hj
  have hsub (j : ℕ) (b : UInt8) (hb : firstBytes m n j = some b) : whole m j = some b := by
    rw [firstBytes] at hb
    split_ifs at hb
    exact hb
  obtain ⟨x, hx⟩ : ∃ x, chartorune (firstBytes m n) = some x := by
    rw [fullrune] at h
    by_cases hn : n ≤ 0
    · rw [if_pos hn] at h
      exact absurd h (by decide)
    rw [if_neg hn] at h
    rw [chartorune_eq (hfirst 0 (by omega))]
    by_cases hascii : (m 0).toNat < 0x80
    · exact ⟨_, if_pos hascii⟩
    rw [if_neg hascii]
    have hloop : fullruneLoop (m 0).toNat 3 n = true := by
      have h' : (if (m 0).toNat < Tx then true else fullruneLoop (m 0).toNat 3 n) = true :=
        some.inj h
      rwa [if_neg (show ¬(m 0).toNat < Tx from hascii)] at h'
    rw [fullruneLoop_three] at hloop
    split_ifs at hloop with h1 h2
    · exact chartoruneLoop_some (e := 1) le_rfl (by omega)
        (fun j hj => ⟨_, hfirst j (by have := of_decide_eq_true hloop; omega)⟩) (.inl h1)
    · exact chartoruneLoop_some (e := 2) (by omega) (by omega)
        (fun j hj => ⟨_, hfirst j (by have := of_decide_eq_true hloop; omega)⟩) (.inl h2)
    · exact chartoruneLoop_some (e := 3) (by omega) le_rfl
        (fun j hj => ⟨_, hfirst j (by have := of_decide_eq_true hloop; omega)⟩) (.inr rfl)
  rw [hx, chartorune_mono hsub hx]

/-- **UTF-8**: a string of bytes with a zero behind it is decoded as its well-formed bytes say, and
as one wrong byte if it does not begin with any; what is encoded is decoded, and what is decoded is
encoded again; and where `fullrune` says so, the first `n` bytes are all that is read. -/
theorem utf8 :
    (∀ s : List UInt8,
      (∀ r bs, WellFormed r bs → bs <+: s ++ [0] → chartorune (cstr s) = some (r, bs.length)) ∧
        ((∀ r bs, WellFormed r bs → ¬bs <+: s ++ [0]) →
          chartorune (cstr s) = some (Runeerror, 1))) ∧
    (∀ r t, Scalar r → chartorune (cstr ((runetochar r).1 ++ t)) = some (r, (runetochar r).2)) ∧
    (∀ s r n, chartorune (cstr s) = some (r, n) → (r, n) ≠ (Runeerror, 1) →
      runetochar r = ((s ++ [0]).take n, n)) ∧
    ∀ m n, fullrune (whole m) n = some true →
      chartorune (firstBytes m n) = chartorune (whole m) := by
  refine ⟨fun s => ⟨fun r bs h hs => chartorune_of_wellFormed h (begins_cstr hs), ?_⟩, ?_, ?_,
    chartorune_of_fullrune⟩
  · intro hno
    rcases chartorune_cases s with ⟨r, bs, h, hs, -⟩ | h
    · exact absurd (prefix_of_begins hs) (hno r bs h)
    · exact h
  · intro r t hr
    have h := exists_wellFormed hr
    rw [runetochar_wellFormed h]
    refine chartorune_of_wellFormed h (begins_cstr ?_)
    rw [List.append_assoc]
    exact List.prefix_append _ _
  · intro s r n h hne
    rcases chartorune_cases s with ⟨r', bs, hw, hs, h'⟩ | h'
    · obtain ⟨rfl, rfl⟩ := Prod.mk.inj (Option.some.inj (h.symm.trans h'))
      rw [runetochar_wellFormed hw, ← List.prefix_iff_eq_take.1 (prefix_of_begins hs)]
    · exact absurd (Option.some.inj (h.symm.trans h')) hne

end Libc

end Plan9
