import Mathlib.Data.List.TakeDrop

/-!
# Streams of literals and copies

What an LZ77 compressor writes, whatever its codes: **tokens** that either append
one element or repeat a stretch of what has been written, which may overlap the
copy. An expansion that repeats only what the compressor has compared is the
compressor's input (`Plan9.Lib.copyBack_eq_take`).
-/

namespace Plan9

namespace Lib

variable {α : Type}

/-- A literal element, or `len` elements from `off` places back. -/
inductive Token (α : Type)
  | lit (a : α)
  | copy (len off : ℕ)

/-- Append `len` elements, each of them the one `off` places back. -/
def copyBack (off : ℕ) : ℕ → List α → List α
  | 0, out => out
  | len + 1, out => copyBack off len (out ++ out[out.length - off]?.toList)

/-- What a token appends. -/
def Token.apply (out : List α) : Token α → List α
  | lit a => out ++ [a]
  | copy len off => copyBack off len out

/-- The expansion of a stream of tokens. -/
def expand (ts : List (Token α)) : List α := ts.foldl Token.apply []

@[simp]
theorem expand_concat (ts : List (Token α)) (t : Token α) :
    expand (ts ++ [t]) = t.apply (expand ts) := by
  simp [expand]

/-- A copy reaches back at least one place and not over the front. -/
def Token.Fits (out : List α) : Token α → Prop
  | lit _ => True
  | copy _ off => 1 ≤ off ∧ off ≤ out.length

/-- Every token of a stream reaches back into what stands before it. -/
def FitsFrom : List α → List (Token α) → Prop
  | _, [] => True
  | out, t :: ts => t.Fits out ∧ FitsFrom (t.apply out) ts

theorem fitsFrom_concat {out : List α} {ts : List (Token α)} {t : Token α} :
    FitsFrom out (ts ++ [t]) ↔ FitsFrom out ts ∧ t.Fits (ts.foldl Token.apply out) := by
  induction ts generalizing out with
  | nil => simp [FitsFrom]
  | cons u ts ih => rw [List.cons_append, FitsFrom, ih, FitsFrom, List.foldl_cons, and_assoc]

theorem length_copyBack {off : ℕ} (len : ℕ) {out : List α} (h1 : 1 ≤ off)
    (h2 : off ≤ out.length) : (copyBack off len out).length = out.length + len := by
  induction len generalizing out with
  | zero => rfl
  | succ len ih =>
    have hget : out.length - off < out.length := by omega
    rw [copyBack, List.getElem?_eq_getElem hget, ih (by simp; omega)]
    simp
    omega

/-- Streams only grow. -/
theorem length_le_foldl_apply {out : List α} {ts : List (Token α)} (h : FitsFrom out ts) :
    out.length ≤ (ts.foldl Token.apply out).length := by
  induction ts generalizing out with
  | nil => exact Nat.le_refl _
  | cons t ts ih =>
    refine Nat.le_trans ?_ (ih h.2)
    cases t with
    | lit a => simp [Token.apply]
    | copy len off =>
      rw [Token.apply, length_copyBack len h.1.1 h.1.2]
      omega

/-- **A copy of what was compared**: if the elements behind `i` are those `off` places
back, copying them continues the source. -/
theorem copyBack_eq_take {src : List α} {off i : ℕ} (len : ℕ) (h1 : 1 ≤ off) (h2 : off ≤ i)
    (hlen : i + len ≤ src.length)
    (heq : ∀ j < len, src[i + j]? = src[i + j - off]?) :
    copyBack off len (src.take i) = src.take (i + len) := by
  induction len generalizing i with
  | zero => rfl
  | succ len ih =>
    have hi : i < src.length := by omega
    have htake : (src.take i).length = i := by
      rw [List.length_take]
      omega
    have hback : (src.take i)[(src.take i).length - off]? = some src[i] := by
      rw [htake, List.getElem?_take_of_lt (by omega), ← List.getElem?_eq_getElem hi]
      exact (heq 0 (by omega)).symm
    rw [copyBack, hback, Option.toList_some, List.take_append_getElem hi,
      ih (by omega) (by omega) fun j hj => ?_]
    · congr 1
      omega
    · have hj' := heq (j + 1) (by omega)
      rw [show i + 1 + j = i + (j + 1) by omega]
      exact hj'

end Lib

end Plan9
