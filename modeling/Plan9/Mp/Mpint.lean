import Plan9.Mp.Mul
import Plan9.Mp.Shift

/-!
# Numbers of any size

`struct mpint` and the functions of `mpaux.c`, `mpcmp.c`, `mpadd.c`, `mpsub.c`, `mpmul.c`,
`mpleft.c` and `mpright.c`. A number is an object: a sign, `top` digits of which the last one
is not zero, and space for `size` digits. An operation is given objects, and its result may be
one of its operands.

Memory is given out in order and never given back for another use; `realloc` always moves.
Counts of bits and shifts are `int`s, and so is `Dbits`, as the compilers for 32 bits have it:
`DIGITS` of a count that is too large is negative, so that no space is given out, and the program
is lost when it writes behind the space.
-/

namespace Plan9

namespace Mp

open Lib

/-! ### Objects -/

/-- `struct mpint`; `p` is the address of the lowest digit. -/
structure Mpint where
  sign : ℤ
  size : ℕ
  top : ℕ
  p : ℕ
deriving DecidableEq, Repr

/-- An object that is not in use. -/
def Mpint.none : Mpint := ⟨1, 0, 0, 0⟩

/-- A pointer to an object. -/
abbrev Ref := ℕ

/-- All of memory: the digits, where free memory begins, the objects, the next new one, and
`mpmindigits`. -/
structure Heap where
  mem : Digits
  brk : ℕ
  obj : Ref → Mpint
  next : Ref
  mindigits : ℕ
  /-- The program has used a digit outside the space of a number, has been ended by `sysfatal`, or
  does not end. -/
  lost : Bool

namespace Heap

/-- Write an object. -/
def setObj (s : Heap) (r : Ref) (x : Mpint) : Heap := { s with obj := Function.update s.obj r x }

/-- Write the sign of a number. -/
def setSign (s : Heap) (r : Ref) (sign : ℤ) : Heap := s.setObj r { s.obj r with sign := sign }

/-- Write the number of significant digits. -/
def setTop (s : Heap) (r : Ref) (top : ℕ) : Heap := s.setObj r { s.obj r with top := top }

/-- Write digits. -/
def setMem (s : Heap) (m : Digits) : Heap := { s with mem := m }

/-- The lowest `n` digits of a number are used. -/
def need (s : Heap) (r : Ref) (n : ℕ) : Heap :=
  { s with lost := s.lost || decide ((s.obj r).size < n) }

/-- The absolute value of a number. -/
def mag (s : Heap) (r : Ref) : ℕ := s.mem.val (s.obj r).p (s.obj r).top

/-- The value of a number. -/
def int (s : Heap) (r : Ref) : ℤ := (s.obj r).sign * s.mag r

end Heap

/-! ### `mpaux.c` -/

/-- The `int` that is left of a number. -/
def int32 (x : ℤ) : ℤ := (Int32.ofInt x).toInt

/-- `DIGITS`, whose sum is an `int`; C rounds to zero. -/
def digits (x : ℤ) : ℤ := (int32 (31 + x)).tdiv 32

/-- `mpbits`, where the space is enough. -/
def mpbitsHere (s : Heap) (b : Ref) (n : ℕ) : Heap :=
  if n ≤ (s.obj b).top then s
  else
    (s.setMem (s.mem.zero ((s.obj b).p + (s.obj b).top) (n - (s.obj b).top))).setTop b n

/-- `mpbits`, where `realloc` is called. -/
def mpbitsMove (s : Heap) (b : Ref) (n : ℕ) : Heap :=
  let m := s.mem.copy s.brk (s.obj b).p (s.obj b).size
  { s with
    mem := m.zero (s.brk + (s.obj b).top) (n - (s.obj b).top)
    brk := s.brk + n
    obj := Function.update s.obj b { s.obj b with size := n, top := n, p := s.brk } }

/-- `mpbits`. -/
def mpbits (s : Heap) (b : Ref) (m : ℤ) : Heap :=
  if digits m ≤ (s.obj b).size then mpbitsHere s b (digits m).toNat
  else mpbitsMove s b (digits m).toNat

/-- `mpnew`. A negative number of bits is a fatal error. -/
def mpnew (s : Heap) (n : ℤ) : Heap :=
  let lost := s.lost || decide (int32 n < 0)
  let n := max (digits n).toNat s.mindigits
  { s with
    mem := s.mem.zero s.brk n
    brk := s.brk + n
    obj := Function.update s.obj s.next ⟨1, n, 0, s.brk⟩
    next := s.next + 1
    lost := lost }

/-- `mpfree`. -/
def mpfree (s : Heap) (b : Ref) : Heap :=
  (s.setMem (s.mem.zero (s.obj b).p (s.obj b).size)).setObj b Mpint.none

/-- The loop of `mpnorm`: how many of `n` digits are left without the leading zeros. -/
def significant (m : Digits) (p : ℕ) : ℕ → ℕ
  | 0 => 0
  | n + 1 => if m (p + n) = 0 then significant m p n else n + 1

/-- `mpnorm`. -/
def mpnorm (s : Heap) (b : Ref) : Heap :=
  let s := s.setTop b (significant s.mem (s.obj b).p (s.obj b).top)
  if (s.obj b).top = 0 then s.setSign b 1 else s

/-- `mpassign`. -/
def mpassign (s : Heap) (old new : Ref) : Heap :=
  let s := mpbits s new ((s.obj old).top * 32)
  let s := s.need new (s.obj old).top
  let s := s.setObj new { s.obj new with sign := (s.obj old).sign, top := (s.obj old).top }
  s.setMem (s.mem.copy (s.obj new).p (s.obj old).p (s.obj old).top)

/-- `mpassign` of `mpzero`, which has no digits. -/
def mpassignZero (s : Heap) (new : Ref) : Heap :=
  let s := mpbits s new 0
  s.setObj new { s.obj new with sign := 1, top := 0 }

/-! ### `mpcmp.c` -/

/-- `mpmagcmp`. -/
def mpmagcmp (s : Heap) (b1 b2 : Ref) : ℤ :=
  if ((s.obj b1).top : ℤ) - (s.obj b2).top ≠ 0 then ((s.obj b1).top : ℤ) - (s.obj b2).top
  else mpveccmp s.mem (s.obj b1).p (s.obj b1).top (s.obj b2).p (s.obj b2).top

/-- `mpcmp`. -/
def mpcmp (s : Heap) (b1 b2 : Ref) : ℤ :=
  if (s.obj b1).sign ≠ (s.obj b2).sign then (s.obj b1).sign - (s.obj b2).sign
  else if (s.obj b1).sign < 0 then mpmagcmp s b2 b1
  else mpmagcmp s b1 b2

/-! ### `mpadd.c` and `mpsub.c` -/

/-- `mpmagadd`, with the longer number first. -/
def magaddLong (s : Heap) (b1 b2 sum : Ref) : Heap :=
  let n := (s.obj b1).top
  let m := (s.obj b2).top
  if n = 0 then mpassignZero s sum
  else if m = 0 then mpassign s b1 sum
  else
    let s := ((mpbits s sum (((n + 1 : ℕ) : ℤ) * 32)).need sum (n + 1)).setTop sum (n + 1)
    let s := s.setMem (mpvecadd s.mem (s.obj b1).p n (s.obj b2).p m (s.obj sum).p)
    mpnorm (s.setSign sum 1) sum

/-- `mpmagadd`. -/
def mpmagadd (s : Heap) (b1 b2 sum : Ref) : Heap :=
  if (s.obj b1).top < (s.obj b2).top then magaddLong s b2 b1 sum else magaddLong s b1 b2 sum

/-- `mpmagsub`, with the greater number first. -/
def magsubGreat (s : Heap) (b1 b2 diff : Ref) (sign : ℤ) : Heap :=
  let n := (s.obj b1).top
  let m := (s.obj b2).top
  if m = 0 then (mpassign s b1 diff).setSign diff sign
  else
    let s := (mpbits s diff ((n : ℤ) * 32)).need diff n
    let s := s.setMem (mpvecsub s.mem (s.obj b1).p n (s.obj b2).p m (s.obj diff).p)
    mpnorm (s.setObj diff { s.obj diff with sign := sign, top := n }) diff

/-- `mpmagsub`. -/
def mpmagsub (s : Heap) (b1 b2 diff : Ref) : Heap :=
  if mpmagcmp s b1 b2 < 0 then magsubGreat s b2 b1 diff (-1) else magsubGreat s b1 b2 diff 1

/-- `mpadd`. -/
def mpadd (s : Heap) (b1 b2 sum : Ref) : Heap :=
  if (s.obj b1).sign ≠ (s.obj b2).sign then
    if (s.obj b1).sign < 0 then mpmagsub s b2 b1 sum else mpmagsub s b1 b2 sum
  else
    let sign := (s.obj b1).sign
    let s := mpmagadd s b1 b2 sum
    if (s.obj sum).top ≠ 0 then s.setSign sum sign else s

/-- `mpsub`. -/
def mpsub (s : Heap) (b1 b2 diff : Ref) : Heap :=
  let sign := (s.obj b1).sign
  if (s.obj b1).sign ≠ (s.obj b2).sign then (mpmagadd s b1 b2 diff).setSign diff sign
  else
    let s := mpmagsub s b1 b2 diff
    if (s.obj diff).top ≠ 0 then s.setSign diff ((s.obj diff).sign * sign) else s

/-! ### `mpmul.c` -/

/-- `mpmul` into an object that is no operand. -/
def mulApart (s : Heap) (b1 b2 prod : Ref) : Heap :=
  let n := (s.obj b1).top + (s.obj b2).top + 1
  let s := (mpbits (s.setTop prod 0) prod ((n : ℤ) * 32)).need prod n
  let s := s.setMem (mpvecmul s.mem s.brk (s.obj b1).p (s.obj b1).top (s.obj b2).p (s.obj b2).top
    (s.obj prod).p)
  mpnorm (s.setObj prod { s.obj prod with
    sign := (s.obj b1).sign * (s.obj b2).sign, top := n }) prod

/-- `mpmul`. -/
def mpmul (s : Heap) (b1 b2 prod : Ref) : Heap :=
  if prod = b1 ∨ prod = b2 then
    let t := s.next
    mpfree (mpassign (mulApart (mpnew s 0) b1 b2 t) t prod) t
  else mulApart s b1 b2 prod

/-! ### `mpleft.c` and `mpright.c` -/

/-- `mpright`, the shift of a number that has digits, by less than all of them. -/
def downDigits (s : Heap) (b res : Ref) (d r : ℕ) : Digits :=
  if r = 0 then digitsDown s.mem ((s.obj b).p + d) (s.obj res).p ((s.obj b).top - d)
  else bitsDown s.mem ((s.obj b).p + d + 1) (s.obj res).p r (s.mem ((s.obj b).p + d))
    ((s.obj b).top - d - 1)

/-- `mpright`, the end. -/
def downEnd (s : Heap) (res : Ref) (i : ℕ) : Heap :=
  let s := s.setTop res (significant s.mem (s.obj res).p i)
  if (s.obj res).top = 0 then s.setSign res 1 else s

/-- `mpright`, for a shift that is not negative and a number that is not zero. -/
def rightBody (s : Heap) (b : Ref) (shift : ℕ) (res : Ref) : Heap :=
  let s := if res ≠ b then mpbits s res ((s.obj b).top * 32 - shift) else s
  let d := shift / 32
  let r := shift - d * 32
  if (s.obj b).top ≤ d then s.setTop res 0
  else
    let n := (s.obj b).top - d
    let s := s.need res n
    downEnd (s.setMem (downDigits s b res d r)) res n

/-- `mpleft`, the shift of the digits. -/
def upDigits (s : Heap) (b res : Ref) (otop d l : ℕ) : Digits :=
  if l = 0 then digitsUp s.mem (s.obj b).p ((s.obj res).p + d) otop
  else bitsUp s.mem (s.obj b).p ((s.obj res).p + d) l 0 otop

/-- `mpleft`, for a shift that is not negative and a number that is not zero. -/
def leftBody (s : Heap) (b : Ref) (shift : ℕ) (res : Ref) : Heap :=
  let otop := (s.obj b).top
  let d := shift / 32
  let l := shift - d * 32
  -- a `top` that is negative in the source has no space for the digits
  let top := (digits ((otop * 32 + shift : ℕ) : ℤ)).toNat
  let s := mpbits s res ((otop * 32 + shift : ℕ) : ℤ)
  let s := (s.need res (otop + d + if l = 0 then 0 else 1)).setTop res top
  let s := s.setMem ((upDigits s b res otop d l).zero (s.obj res).p d)
  s.setTop res (significant s.mem (s.obj res).p (s.obj res).top)

/-- `mpright` of a shift that is not negative. -/
def rightNonneg (s : Heap) (b : Ref) (shift : ℕ) (res : Ref) : Heap :=
  let s := s.setSign res (s.obj b).sign
  if (s.obj b).top = 0 then s.setTop res 0 else rightBody s b shift res

/-- `mpleft` of a shift that is not negative. -/
def leftNonneg (s : Heap) (b : Ref) (shift : ℕ) (res : Ref) : Heap :=
  let s := s.setSign res (s.obj b).sign
  if (s.obj b).top = 0 then s.setTop res 0 else leftBody s b shift res

/-- The smallest `int`, whose negation is itself. -/
def intMin : ℤ := -2 ^ 31

/-- `mpleft` and `mpright` of `intMin`, which call each other for ever. -/
def shiftLost (s : Heap) : Heap := { s with lost := true }

/-- `mpright`; the shift is an `int`. -/
def mpright (s : Heap) (b : Ref) (shift : ℤ) (res : Ref) : Heap :=
  let s := s.setSign res (s.obj b).sign
  if (s.obj b).top = 0 then s.setTop res 0
  else if shift = intMin then shiftLost s
  else if shift < 0 then leftNonneg s b (-shift).toNat res
  else rightBody s b shift.toNat res

/-- `mpleft`; the shift is an `int`. -/
def mpleft (s : Heap) (b : Ref) (shift : ℤ) (res : Ref) : Heap :=
  let s := s.setSign res (s.obj b).sign
  if (s.obj b).top = 0 then s.setTop res 0
  else if shift = intMin then shiftLost s
  else if shift < 0 then rightNonneg s b (-shift).toNat res
  else leftBody s b shift.toNat res

end Mp

end Plan9
