import Plan9.Lib.Buffer
import Plan9.Lib.PathNorm
import Plan9.Libc.Rune

/-!
# Clean names

`cleanname.c` rewrites a name in place: it takes out repeated and trailing slashes, and the elements
`.` and `..`. The memory may be touched from the name on as far as the byte zero at its end, and two
bytes at least (`Plan9.Libc.CleanName.room`); a function that goes further has no result.

* `Plan9.Libc.CleanName.cleanname` – the code;
* `Plan9.Libc.CleanName.clean` – the name that is wanted, by `Plan9.Lib.PathNorm.norm`;
* `Plan9.Libc.CleanName.squeeze_spec` – repeated slashes do not matter.

What the code does with a name is in `Plan9.Libc.CleanNameRuns`.
-/

namespace Plan9

namespace Libc

namespace CleanName

open Lib List

/-! ### The code -/

/-- `'/'`, `'.'` and `'#'`. -/
def slash : UInt8 := 0x2f
def dot : UInt8 := 0x2e
def hash : UInt8 := 0x23

def SEP (x : UInt8) : Prop := x = slash ∨ x = 0

instance (x : UInt8) : Decidable (SEP x) := inferInstanceAs (Decidable (x = slash ∨ x = 0))

theorem bad_pos {r k : ℕ} (h : bad = some (r, k)) : 0 < k := by
  obtain ⟨-, rfl⟩ := Prod.mk.inj (Option.some.inj h)
  exact Nat.one_pos

theorem chartoruneLoop_pos {str : Str} {c0 l i r k : ℕ}
    (h : chartoruneLoop str c0 l i = some (r, k)) : 0 < k := by
  induction l, i using chartoruneLoop.induct c0 with
  | case1 l i hi ih =>
    rw [chartoruneLoop, if_pos hi] at h
    obtain ⟨b, -, h⟩ := Option.bind_eq_some_iff.1 h
    dsimp only at h
    -- a bad sequence, one that is to go on, or the end of one
    split_ifs at h <;> first
      | exact bad_pos h
      | exact ih b h
      | exact (Prod.mk.inj (Option.some.inj h)).2 ▸ Nat.succ_pos i
  | case2 l i hi =>
    rw [chartoruneLoop, if_neg hi] at h
    exact bad_pos h

/-- What `chartorune` returns is not zero. -/
theorem chartorune_pos {str : Str} {r k : ℕ} (h : chartorune str = some (r, k)) : 0 < k := by
  rw [chartorune] at h
  obtain ⟨b, -, h⟩ := Option.bind_eq_some_iff.1 h
  dsimp only at h
  split_ifs at h
  · obtain ⟨-, rfl⟩ := Prod.mk.inj (Option.some.inj h)
    exact Nat.one_pos
  · exact chartoruneLoop_pos h

section Code

variable (n : ℕ)

/-- Read a byte of the first `n`. -/
def rd (m : Buffer) (i : ℕ) : Option UInt8 := if i < n then some (m i) else none

/-- Write one. -/
def wr (m : Buffer) (i : ℕ) (b : UInt8) : Option Buffer :=
  if i < n then some (m.store i [b]) else none

/-- `for(; *s == '/'; s++)`: the number of slashes. -/
def slashes (m : Buffer) (s : ℕ) : Option ℕ :=
  if s < n then if m s = slash then (slashes m (s + 1)).map (· + 1) else some 0
  else none
  termination_by n - s

/-- `while(!SEP(*d0)) d0 += chartorune(&r, d0)`. -/
def skipElem (m : Buffer) (d0 : ℕ) : Option ℕ :=
  if d0 < n then
    if SEP (m d0) then some d0
    else
      match h : chartorune fun j => rd n m (d0 + j) with
      | none => none
      | some (_, k) =>
        have := chartorune_pos h
        skipElem m (d0 + k)
  else none
  termination_by n - d0

/-- Remove dup slashes, from `s` on: the memory, and where `d` ends. -/
def dedup (m : Buffer) (s d : ℕ) : Option (Buffer × ℕ) :=
  if s < n then
    if m s = 0 then some (m, d)
    else do
      let m ← wr n m d (m s)
      -- `while(s[1] == '/') s++`
      let k ← (if m s = slash then slashes n m (s + 1) else some 0)
      dedup m (s + k + 1) (d + 1)
  else none
  termination_by n - s

/-- `while(!SEP(*s)) *d++ = *s++`: the memory, and how many bytes were copied. -/
def copyElem (m : Buffer) (s d : ℕ) : Option (Buffer × ℕ) :=
  if s < n then
    if SEP (m s) then some (m, 0)
    else do
      let m ← wr n m d (m s)
      let (m, k) ← copyElem m (s + 1) (d + 1)
      return (m, k + 1)
  else none
  termination_by n - s

/-- `for(; d > d0 && d[-1] != '/'; d--)`. -/
def back (m : Buffer) (d0 : ℕ) : ℕ → Option ℕ
  | 0 => some 0
  | d + 1 =>
    if d + 1 > d0 then
      (rd n m d).bind fun b => if b ≠ slash then back m d0 d else some (d + 1)
    else some (d + 1)

/-- `s[0] == '.' && SEP(s[1])`. -/
def isDot (m : Buffer) (s : ℕ) : Option Bool :=
  if m s = dot then (rd n m (s + 1)).map fun b => decide (SEP b) else some false

/-- `s[0] == '.' && s[1] == '.' && SEP(s[2])`. -/
def isDotDot (m : Buffer) (s : ℕ) : Option Bool :=
  if m s = dot then
    (rd n m (s + 1)).bind fun b =>
      if b = dot then (rd n m (s + 2)).map fun b => decide (SEP b) else some false
  else some false

/-- The second pass, over `.` and `..`: the memory, and where `d` ends. -/
def pass (rooted : Bool) (m : Buffer) (s d d0 : ℕ) : Option (Buffer × ℕ) :=
  if s < n then
    if m s = 0 then some (m, d)
    else do
      if (← isDot n m s) = true then
        if m (s + 1) = 0 then return (m, d)
        else pass rooted m (s + 2) d d0
      else
        let up ← isDotDot n m s
        if up = true ∧ d = d0 ∧ rooted = true then
          -- /../x -> /x
          if m (s + 2) = 0 then return (m, d)
          else pass rooted m (s + 3) d d0
        else
          -- ../x -> ../x; and never collect ../
          let d0 := if up = true ∧ d = d0 then d0 + 3 else d0
          if up = true ∧ d > d0 then
            -- a/../x -> x
            let b ← rd n m (d - 1)
            if d0 + 2 ≤ d ∧ b = slash then
              let d ← back n m d0 (d - 2)
              if m (s + 2) = 0 then return (m, d)
              else pass rooted m (s + 3) d d0
            else
              -- the assertion
              none
          else
            let (m, k) ← copyElem n m s d
            if m (s + k) = 0 then return (m, d + k)
            else
              let m ← wr n m (d + k) (m (s + k))
              pass rooted m (s + k + 1) (d + k + 1) d0
  else none
  termination_by n - s

/-- `strcpy(name, ".")`. -/
def strcpyDot (m : Buffer) : Option Buffer := do
  let m ← wr n m 0 dot
  wr n m 1 0

/-- The end of `cleanname`. -/
def finish (m : Buffer) (d : ℕ) : Option Buffer := do
  let m ← wr n m d 0
  -- thanks to #/
  let m ← (if 1 < d then
      (rd n m (d - 1)).bind fun b => if b = slash then wr n m (d - 1) 0 else some m
    else some m)
  let b ← rd n m 0
  if b = 0 then strcpyDot n m else return m

/-- `cleanname`, behind the root name, which ends at `d0`. -/
def cleanrest (rooted : Bool) (m : Buffer) (d0 : ℕ) : Option Buffer := do
  -- skip extra '/' at root name
  let k ← (if rooted then slashes n m d0 else some 0)
  let (m, d) ← dedup n m (d0 + k) d0
  let m ← wr n m d 0
  let (m, d) ← pass n rooted m d0 d0 d0
  finish n m d

/-- `cleanname`. The test `d0 == 0` is one of the pointer, and never true. -/
def cleanname (m : Buffer) : Option Buffer := do
  let b ← rd n m 0
  if b = 0 then strcpyDot n m
  else if b = hash then
    let c ← rd n m 1
    if c = 0 then return m
    else
      -- ignore slash: #/
      let (_, k) ← chartorune fun j => rd n m (1 + j)
      let d0 ← skipElem n m (1 + k)
      -- keep / after #<name>
      cleanrest n true m (d0 + 1)
  else if b = slash then cleanrest n true m 1
  else cleanrest n false m 0

end Code

/-! ### What is wanted -/

/-- The elements of a name: what stands between the slashes. -/
def elements (l : List UInt8) : List (List UInt8) := (l.splitOn slash).filter (· ≠ [])

/-- The name with these elements. -/
def join (st : List (List UInt8)) : List UInt8 := [slash].intercalate st

/-- The elements that are left. -/
def norm (rooted : Bool) (l : List UInt8) : List (List UInt8) :=
  PathNorm.norm [dot] [dot, dot] rooted (elements l)

/-- The name of a device: `#`, a character, and what follows up to a slash; and what is behind. -/
def device (l : List UInt8) : List UInt8 := l.take 2 ++ (l.drop 2).takeWhile (· ≠ slash)
def behind (l : List UInt8) : List UInt8 := (l.drop 2).dropWhile (· ≠ slash)

/-- **The name that is wanted.** -/
def clean (l : List UInt8) : List UInt8 :=
  if l.head? = some hash then
    if norm true (behind l) = [] then device l else device l ++ slash :: join (norm true (behind l))
  else if l.head? = some slash then slash :: join (norm true l)
  else if norm false l = [] then [dot]
  else join (norm false l)

/-- The bytes that may be touched for a name. -/
def room (l : List UInt8) : ℕ := max (l.length + 1) 2

/-- The bytes stand from `i` on. -/
def At (m : Buffer) (i : ℕ) (l : List UInt8) : Prop := m.load i l.length = l

/-- The name stands in memory. -/
def Holds (m : Buffer) (l : List UInt8) : Prop := At m 0 (l ++ [0])

/-! ### Names -/

section Names

variable {l e t r : List UInt8} {st : List (List UInt8)} {b : Bool}

@[simp]
theorem elements_nil : elements [] = [] := rfl

theorem elements_append_slash (l r : List UInt8) :
    elements (l ++ slash :: r) = elements l ++ elements r := by
  rw [elements, splitOn_append_cons_self, filter_append, elements, elements]

theorem elements_slash_cons (r : List UInt8) : elements (slash :: r) = elements r :=
  elements_append_slash [] r

theorem elements_of_not_mem (hne : e ≠ []) (he : slash ∉ e) : elements e = [e] := by
  rw [elements, splitOn_eq_singleton he, filter_cons_of_pos (by simpa using hne), filter_nil]

/-- **Names from the left**: a name without a slash, or one in front of a slash. -/
theorem split_induction {P : List UInt8 → Prop} (hlast : ∀ e, slash ∉ e → P e)
    (hcons : ∀ e r, slash ∉ e → P r → P (e ++ slash :: r)) (l : List UInt8) : P l := by
  have hgo : ∀ l e : List UInt8, slash ∉ e → P l ∧ P (e ++ l) := by
    intro l
    induction l with
    | nil =>
      intro e he
      rw [append_nil]
      exact ⟨hlast [] not_mem_nil, hlast e he⟩
    | cons c l ih =>
      have hcl : ∀ e, slash ∉ e → P (e ++ c :: l) := by
        intro e he
        by_cases hc : c = slash
        · rw [hc]
          exact hcons e l he (ih [] not_mem_nil).1
        · have happ : e ++ c :: l = (e ++ [c]) ++ l := by simp
          rw [happ]
          refine (ih (e ++ [c]) ?_).2
          rw [mem_append, mem_singleton]
          exact not_or.2 ⟨he, fun h => hc h.symm⟩
      exact fun e he => ⟨hcl [] not_mem_nil, hcl e he⟩
  exact (hgo l [] not_mem_nil).1

/-- The elements are not empty and have no slash, and their bytes are those of the name. -/
theorem of_mem_elements (h : e ∈ elements l) : e ≠ [] ∧ slash ∉ e ∧ ∀ b ∈ e, b ∈ l := by
  induction l using split_induction with
  | hlast l hl =>
    rcases eq_or_ne l [] with rfl | hne
    · exact absurd h not_mem_nil
    · rw [elements_of_not_mem hne hl] at h
      obtain rfl := mem_singleton.1 h
      exact ⟨hne, hl, fun b hb => hb⟩
  | hcons l r hl ih =>
    rw [elements_append_slash] at h
    rcases mem_append.1 h with h | h
    · rcases eq_or_ne l [] with rfl | hne
      · exact absurd h not_mem_nil
      · rw [elements_of_not_mem hne hl] at h
        obtain rfl := mem_singleton.1 h
        exact ⟨hne, hl, fun b hb => mem_append_left _ hb⟩
    · obtain ⟨hne, hsl, hb⟩ := ih h
      exact ⟨hne, hsl, fun b hb' => mem_append_right _ (mem_cons_of_mem _ (hb b hb'))⟩

/-- Up to the first slash, and from there on. -/
theorem exists_split (l : List UInt8) : ∃ e t, l = e ++ t ∧ slash ∉ e ∧
    (t = [] ∨ ∃ r, t = slash :: r) := by
  induction l using split_induction with
  | hlast e he => exact ⟨e, [], (append_nil e).symm, he, .inl rfl⟩
  | hcons e r he _ => exact ⟨e, slash :: r, rfl, he, .inr ⟨r, rfl⟩⟩

/-- A name without slashes at its beginning, and without repeated ones. -/
inductive Tight : List UInt8 → Prop
  | nil : Tight []
  | last {e : List UInt8} (hne : e ≠ []) (he : slash ∉ e) : Tight e
  | cons {e r : List UInt8} (hne : e ≠ []) (he : slash ∉ e) (hr : Tight r) : Tight (e ++ slash :: r)

/-- Repeated slashes are taken out; `b` says whether one stands before. -/
def squeeze : Bool → List UInt8 → List UInt8
  | _, [] => []
  | b, c :: l => if c = slash then if b then squeeze true l else c :: squeeze true l
    else c :: squeeze false l

theorem squeeze_true_slash (r : List UInt8) : squeeze true (slash :: r) = squeeze true r := rfl

theorem squeeze_false_slash (r : List UInt8) :
    squeeze false (slash :: r) = slash :: squeeze true r := rfl

theorem squeeze_append (he : slash ∉ e) (hne : e ≠ []) :
    squeeze b (e ++ t) = e ++ squeeze false t := by
  induction e generalizing b with
  | nil => exact absurd rfl hne
  | cons c e ih =>
    obtain ⟨hc, he⟩ := not_or.1 (mem_cons.not.1 he)
    rw [cons_append, squeeze, if_neg (Ne.symm hc)]
    cases e with
    | nil => rfl
    | cons c' e =>
      rw [ih he (cons_ne_nil c' e)]
      rfl

/-- **Taking repeated slashes out** keeps the elements. -/
theorem squeeze_spec (l : List UInt8) : Tight (squeeze true l) ∧
    elements (squeeze true l) = elements l := by
  induction l using split_induction with
  | hlast e he =>
    rcases eq_or_ne e [] with rfl | hne
    · exact ⟨.nil, rfl⟩
    · have happ := squeeze_append (b := true) (t := []) he hne
      rw [append_nil, squeeze, append_nil] at happ
      rw [happ]
      exact ⟨.last hne he, rfl⟩
  | hcons e r he ih =>
    obtain ⟨htight, hels⟩ := ih
    rcases eq_or_ne e [] with rfl | hne
    · rw [nil_append, squeeze_true_slash, elements_slash_cons]
      exact ⟨htight, hels⟩
    · rw [squeeze_append he hne, squeeze_false_slash, elements_append_slash, elements_append_slash,
        hels]
      exact ⟨.cons hne he htight, rfl⟩

theorem mem_of_mem_squeeze {c : UInt8} (h : c ∈ squeeze b l) : c ∈ l := by
  induction l generalizing b with
  | nil => exact h
  | cons a l ih =>
    rw [squeeze] at h
    split_ifs at h
    · exact mem_cons_of_mem a (ih h)
    · rcases mem_cons.1 h with rfl | h
      · exact mem_cons_self
      · exact mem_cons_of_mem a (ih h)
    · rcases mem_cons.1 h with rfl | h
      · exact mem_cons_self
      · exact mem_cons_of_mem a (ih h)

end Names

end CleanName

end Libc

end Plan9
