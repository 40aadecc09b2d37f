import Mathlib.Algebra.Order.BigOperators.Group.List
import Plan9.Lib.Reader
import Plan9.Libc.FcallWire
import Plan9.Libc.U32

/-!
# Directory entries

`9sys/convM2D.c` and `9sys/convD2M.c`: a `Dir` is turned into the bytes of a directory entry and
back. An entry begins with the count of the bytes that follow, on two bytes, and ends with four
strings, each behind its length on two bytes. The lengths and their sum are kept in an `int`; an
address has 64 bits, and no pointer into a buffer wraps.

* `Plan9.Libc.Stat.statcheck`, `Plan9.Libc.Stat.convM2D`, `Plan9.Libc.Stat.sizeD2M`,
  `Plan9.Libc.Stat.convD2M` – the functions;
* `Plan9.Libc.Stat.statcheck_eq_zero_iff` – what `statcheck` accepts is the entry of a `Dir`;
* `Plan9.Libc.Stat.convM2D_entry` – what is read from an entry;
* `Plan9.Libc.Stat.convD2M_eq_ok_iff` – what is written;
* `Plan9.Libc.Stat.dir_roundtrip_iff` – a `Dir` comes back exactly if its entry is not written, or
  its count can be.
-/

namespace Plan9

namespace Libc

namespace Stat

open Lib List

open LibVenti (CString)

/-! ### The functions -/

/-- `STATFIXLEN`: all of an entry but the bytes of its strings. -/
abbrev statfixlen : ℕ := 2 + qidsz + 5 * 2 + 4 * 4 + 8

/-- `struct Dir`, with `σ` for `char*`. -/
structure Dir (σ : Type) where
  type : UInt16
  dev : UInt32
  qid : Qid
  mode : UInt32
  atime : UInt32
  mtime : UInt32
  length : UInt64
  name : σ
  uid : σ
  gid : σ
  muid : σ
deriving DecidableEq

/-- The array `sv` of `sizeD2M` and `convD2M`. -/
def Dir.sv {σ : Type} (d : Dir σ) : List σ := [d.name, d.uid, d.gid, d.muid]

/-- The walk of `statcheck` over `n` strings, from offset `p` on. -/
def statwalk (buf : List UInt8) : ℕ → ℕ → Option ℕ
  | 0, p => some p
  | n + 1, p =>
    if p + 2 > buf.length then none
    else statwalk buf n (p + 2 + leVal ((buf.drop p).take 2))

/-- `statcheck`. -/
def statcheck (buf : List UInt8) : ℤ :=
  if buf.length < statfixlen ∨ buf.length ≠ 2 + leVal (buf.take 2) then -1
  else if statwalk buf 4 (statfixlen - 4 * 2) = some buf.length then 0 else -1

/-- The next `k` bytes, and the move of `p`. -/
def ahead (k : ℕ) : Reader Stop (List UInt8) := fun p =>
  if k ≤ p.length then .ok (p.take k, p.drop k) else .error .wild

/-- The tests against `ebuf`: `refused` stands for `return 0`. -/
def room (k : ℕ) : Reader Stop Unit := fun p =>
  if p.length < k then .error .refused else .ok ((), p)

/-- `GBIT8`. -/
def gbit8 : Reader Stop UInt8 := do return UInt8.ofNat (leVal (← ahead 1))

/-- `GBIT16`. -/
def gbit16 : Reader Stop UInt16 := do return UInt16.ofNat (leVal (← ahead 2))

/-- `GBIT32`. -/
def gbit32 : Reader Stop UInt32 := do return UInt32.ofNat (leVal (← ahead 4))

/-- `GBIT64`. -/
def gbit64 : Reader Stop UInt64 := do return UInt64.ofNat (leVal (← ahead 8))

/-- The loop of `convM2D`: `n` strings are moved to `strs`, unless that is `nil`. The addresses in
`sv` count from there. -/
def getstrs : ℕ → List ℕ → Option (List UInt8) →
    Reader Stop (List ℕ × Option (List UInt8))
  | 0, sv, strs => return (sv, strs)
  | n + 1, sv, strs => do
    room 2
    let ns ← gbit16
    room ns.toNat
    let s ← ahead ns.toNat
    match strs with
    | none => getstrs n sv none
    | some mem => getstrs n (sv ++ [mem.length]) (some (mem ++ (s ++ [0])))

/-- The body of `convM2D`. A string is `none` if it is `nullstring`. -/
def getdir (strs : Option (List UInt8)) : Reader Stop (Dir (Option ℕ) × Option (List UInt8)) := do
  let _ ← ahead 2
  let type ← gbit16
  let dev ← gbit32
  let qtype ← gbit8
  let vers ← gbit32
  let path ← gbit64
  let mode ← gbit32
  let atime ← gbit32
  let mtime ← gbit32
  let length ← gbit64
  let s ← getstrs 4 [] strs
  return ({
    type, dev, qid := ⟨qtype, vers, path⟩, mode, atime, mtime, length
    name := s.1[0]?, uid := s.1[1]?, gid := s.1[2]?, muid := s.1[3]? }, s.2)

/-- `convM2D`: the result, the structure and what has been written at `strs`. -/
def convM2D (buf : List UInt8) (strs : Option (List UInt8)) :
    Except Stop (ℕ × Dir (Option ℕ) × Option (List UInt8)) :=
  if buf.length < statfixlen then .error .refused
  else do
    let r ← (getdir strs).run buf
    return (buf.length - r.2.length, r.1)

/-- `strlen`, in an `int`; 0 for a null pointer. -/
def nsv (s : Option CString) : ℤ := int (cbytes s).length

/-- The loop that adds up the lengths. -/
def sumlen (sv : List (Option CString)) : ℤ := sv.foldl (fun ns s => int (ns + nsv s)) 0

/-- `sizeD2M`. -/
def sizeD2M (d : Dir (Option CString)) : ℕ := (int (statfixlen + sumlen d.sv) % 2 ^ 32).toNat

/-- One round of the loop of `convD2M`. `memmove` faults if it is given a negative count. -/
def putstr (nbuf : ℕ) (s : Option CString) : Encoder Unit := do
  let ns := nsv s
  let p := (← get).length
  if p + ns + 2 > nbuf then throw .refused
  else do
    put nbuf (leBytes 2 (ns % 2 ^ 16).toNat)
    if ns = 0 then pure ()
    else if ns < 0 then throw .wild
    else put nbuf ((cbytes s).take ns.toNat)

/-- What `convD2M` writes behind the count, but for the strings. -/
def putnums {σ : Type} (nbuf : ℕ) (d : Dir σ) : Encoder Unit := do
  pbit16 nbuf d.type
  pbit32 nbuf d.dev
  pbit8 nbuf d.qid.type
  pbit32 nbuf d.qid.vers
  pbit64 nbuf d.qid.path
  pbit32 nbuf d.mode
  pbit32 nbuf d.atime
  pbit32 nbuf d.mtime
  pbit64 nbuf d.length

/-- The loop of `convD2M`. -/
def putstrs (nbuf : ℕ) : List (Option CString) → Encoder Unit
  | [] => pure ()
  | s :: sv => do
    putstr nbuf s
    putstrs nbuf sv

/-- `convD2M`: the result, and what has been written. -/
def convD2M (d : Dir (Option CString)) (nbuf : UInt32) : Except Stop (ℕ × List UInt8) :=
  if nbuf.toNat < 2 then throw .refused
  else do
    let ss := int (statfixlen + sumlen d.sv)
    let ((), out) ← (put nbuf.toNat (leBytes 2 ((ss - 2) % 2 ^ 16).toNat)).run []
    if (ss % 2 ^ 32).toNat > nbuf.toNat then return (2, out)
    else do
      let ((), out) ← (putnums nbuf.toNat d >>= fun _ => putstrs nbuf.toNat d.sv).run out
      if ss ≠ out.length then throw .refused else return (out.length, out)

/-! ### Entries -/

variable {d : Dir (List UInt8)} {s : List UInt8}

section Entries

variable {σ τ : Type}

/-- Other strings. -/
def Dir.map (f : σ → τ) (d : Dir σ) : Dir τ :=
  { d with name := f d.name, uid := f d.uid, gid := f d.gid, muid := f d.muid }

/-- The numbers of a `Dir`, as they stand in an entry. -/
def Dir.nums (d : Dir σ) : List (Val τ) :=
  [.num 2 d.type.toNat, .num 4 d.dev.toNat, .num 1 d.qid.type.toNat, .num 4 d.qid.vers.toNat,
    .num 8 d.qid.path.toNat, .num 4 d.mode.toNat, .num 4 d.atime.toNat, .num 4 d.mtime.toNat,
    .num 8 d.length.toNat]

/-- A `Dir` with given strings. -/
theorem Dir.exists_sv (d : Dir σ) {ss : List τ} (h : ss.length = 4) :
    ∃ e : Dir τ, e.sv = ss ∧ ∀ ρ, (e.nums : List (Val ρ)) = d.nums := by
  obtain ⟨name, ss, rfl⟩ := exists_of_length_succ ss h
  obtain ⟨uid, ss, rfl⟩ := exists_of_length_succ ss (Nat.succ.inj h)
  obtain ⟨gid, muid, rfl⟩ := length_eq_two.1 (Nat.succ.inj (Nat.succ.inj h))
  exact ⟨{ d with name, uid, gid, muid }, rfl, fun _ => rfl⟩

/-- The size of an entry. -/
def Dir.size (d : Dir (List UInt8)) : ℕ := statfixlen + (d.sv.map List.length).sum

/-- **An entry**: the count, the numbers and the strings. -/
def Dir.entry (d : Dir (List UInt8)) : List UInt8 :=
  leBytes 2 (d.size - 2) ++ (Val.wire d.nums ++ Val.wire (d.sv.map .str))

@[simp]
theorem length_nums (d : Dir σ) : (Val.wire (d.nums : List (Val (List UInt8)))).length = 39 := rfl

theorem length_wire_str (ss : List (List UInt8)) :
    (Val.wire (ss.map .str)).length = 2 * ss.length + (ss.map List.length).sum := by
  induction ss with
  | nil => rfl
  | cons s ss ih =>
    rw [map_cons, Val.wire_cons, length_append, ih, Val.bytes, length_append,
      length_leBytes, length_cons, map_cons, sum_cons]
    omega

theorem Dir.length_entry (d : Dir (List UInt8)) : d.entry.length = d.size := by
  rw [Dir.entry, length_append, length_append, length_leBytes, length_nums,
    length_wire_str, Dir.size, Dir.sv, length_cons]
  change 2 + (39 + (2 * 4 + _)) = 49 + _
  omega

/-- The strings of an entry that is not too large are not too long. -/
theorem Dir.length_lt (h : d.size ≤ 65537) (hs : s ∈ d.sv) : s.length < 65536 := by
  have hle : s.length ≤ (d.sv.map List.length).sum := le_sum_of_mem (mem_map_of_mem hs)
  rw [Dir.size, statfixlen, qidsz] at h
  omega

end Entries

/-! ### Checking -/

variable {ss : List (List UInt8)} {k : ℕ}

variable {σ : Type}

section Check

variable {buf : List UInt8} {n p q : ℕ}

theorem statwalk_le (h : statwalk buf n p = some q) : p ≤ q := by
  induction n generalizing p with
  | zero => exact (Option.some.inj h).le
  | succ n ih =>
    rw [statwalk] at h
    split_ifs at h
    have hle := ih h
    omega

/-- The strings of an entry: `n` of them, from offset `p` on. -/
def statstrings (buf : List UInt8) : ℕ → ℕ → List (List UInt8)
  | 0, _ => []
  | n + 1, p =>
    let ns := leVal ((buf.drop p).take 2)
    (buf.drop (p + 2)).take ns :: statstrings buf n (p + 2 + ns)

/-- **A walk that ends at the end** has walked over strings. -/
theorem drop_of_statwalk (h : statwalk buf n p = some buf.length) :
    (statstrings buf n p).length = n ∧ buf.drop p = Val.wire ((statstrings buf n p).map .str) := by
  induction n generalizing p with
  | zero =>
    obtain rfl : p = buf.length := Option.some.inj h
    exact ⟨rfl, drop_length⟩
  | succ n ih =>
    rw [statwalk] at h
    split_ifs at h with hroom
    have hle := statwalk_le h
    obtain ⟨hlen, hdrop⟩ := ih h
    rw [statstrings]
    refine ⟨congrArg (· + 1) hlen, ?_⟩
    have htwo : ((buf.drop p).take 2).length = 2 := by
      rw [length_take, length_drop]
      omega
    have hns : ((buf.drop (p + 2)).take (leVal ((buf.drop p).take 2))).length =
        leVal ((buf.drop p).take 2) := by
      rw [length_take, length_drop]
      omega
    have hstr := take_append_drop (leVal ((buf.drop p).take 2)) (buf.drop (p + 2))
    have hcount := take_append_drop 2 (buf.drop p)
    rw [drop_drop] at hstr hcount
    rw [map_cons, Val.wire_cons, ← hdrop, Val.bytes, hns, leBytes_leVal_of_length htwo,
      append_assoc, hstr, hcount]

/-- **The walk over strings** ends behind them. -/
theorem statwalk_strings (pre : List UInt8) (hs : ∀ s ∈ ss, s.length < 65536)
    (hbuf : buf = pre ++ Val.wire (ss.map .str)) :
    statwalk buf ss.length pre.length = some buf.length ∧
      statstrings buf ss.length pre.length = ss := by
  induction ss generalizing pre with
  | nil =>
    rw [hbuf, map_nil, Val.wire_nil, append_nil]
    exact ⟨rfl, rfl⟩
  | cons s ss ih =>
    have hlen : s.length < 65536 := hs s mem_cons_self
    have hbuf' : buf = (pre ++ (Val.str s).bytes) ++ Val.wire (ss.map .str) := by
      rw [hbuf, map_cons, Val.wire_cons, append_assoc]
    have hstr : (pre ++ (Val.str s).bytes).length = pre.length + 2 + s.length := by
      simp [Val.bytes]
      omega
    obtain ⟨hwalk, hstrs⟩ := ih _ (fun s hs' => hs s (mem_cons_of_mem _ hs')) hbuf'
    have hdrop : buf.drop pre.length = leBytes 2 s.length ++ (s ++ Val.wire (ss.map .str)) := by
      rw [hbuf, drop_left, map_cons, Val.wire_cons, Val.bytes, append_assoc]
    have hcount : leVal ((buf.drop pre.length).take 2) = s.length := by
      rw [hdrop, take_left' (length_leBytes 2 _), leVal_leBytes hlen]
    have hroom : pre.length + 2 ≤ buf.length := by
      rw [hbuf', length_append, hstr]
      omega
    rw [hstr] at hwalk hstrs
    constructor
    · rw [length_cons, statwalk, if_neg (by omega), hcount]
      exact hwalk
    · rw [length_cons, statstrings, hcount, hstrs, ← drop_drop, hdrop,
        drop_left' (length_leBytes 2 _), take_left]

/-- A number on the next bytes. -/
theorem exists_num (buf : List UInt8) (k : ℕ) (h : k ≤ buf.length) :
    ∃ v < 256 ^ k, buf = (Val.num k v).bytes ++ buf.drop k := by
  have hlen : (buf.take k).length = k := by
    rw [length_take]
    omega
  refine ⟨leVal (buf.take k), (leVal_lt _).trans_eq (by rw [hlen]), ?_⟩
  rw [Val.bytes, leBytes_leVal_of_length hlen, take_append_drop]

/-- **Any bytes** are the numbers of some `Dir`. -/
theorem exists_nums (buf : List UInt8) (sv : σ) (h : 39 ≤ buf.length) :
    ∃ d : Dir σ, d.map (fun _ => sv) = d ∧ buf = Val.wire d.nums ++ buf.drop 39 := by
  obtain ⟨v0, h0, e0⟩ := exists_num buf 2 (by omega)
  obtain ⟨v1, h1, e1⟩ := exists_num (buf.drop 2) 4 (by rw [length_drop]; omega)
  obtain ⟨v2, h2, e2⟩ := exists_num (buf.drop 6) 1 (by rw [length_drop]; omega)
  obtain ⟨v3, h3, e3⟩ := exists_num (buf.drop 7) 4 (by rw [length_drop]; omega)
  obtain ⟨v4, h4, e4⟩ := exists_num (buf.drop 11) 8 (by rw [length_drop]; omega)
  obtain ⟨v5, h5, e5⟩ := exists_num (buf.drop 19) 4 (by rw [length_drop]; omega)
  obtain ⟨v6, h6, e6⟩ := exists_num (buf.drop 23) 4 (by rw [length_drop]; omega)
  obtain ⟨v7, h7, e7⟩ := exists_num (buf.drop 27) 4 (by rw [length_drop]; omega)
  obtain ⟨v8, h8, e8⟩ := exists_num (buf.drop 31) 8 (by rw [length_drop]; omega)
  rw [drop_drop] at e1 e2 e3 e4 e5 e6 e7 e8
  refine ⟨⟨.ofNat v0, .ofNat v1, ⟨.ofNat v2, .ofNat v3, .ofNat v4⟩, .ofNat v5, .ofNat v6,
    .ofNat v7, .ofNat v8, sv, sv, sv, sv⟩, rfl, ?_⟩
  simp only [Dir.nums, Val.wire_cons, Val.wire_nil, append_nil, append_assoc,
    UInt16.toNat_ofNat_of_lt' h0, UInt32.toNat_ofNat_of_lt' h1, UInt8.toNat_ofNat_of_lt' h2,
    UInt32.toNat_ofNat_of_lt' h3, UInt64.toNat_ofNat_of_lt' h4, UInt32.toNat_ofNat_of_lt' h5,
    UInt32.toNat_ofNat_of_lt' h6, UInt32.toNat_ofNat_of_lt' h7, UInt64.toNat_ofNat_of_lt' h8]
  rw [← e8, ← e7, ← e6, ← e5, ← e4, ← e3, ← e2, ← e1, ← e0]

theorem exists_of_statcheck (h : statcheck buf = 0) :
    ∃ d : Dir (List UInt8), d.size ≤ 65537 ∧ buf = d.entry ∧ statstrings buf 4 41 = d.sv := by
  have hpass : 49 ≤ buf.length ∧ buf.length = 2 + leVal (buf.take 2) ∧
      statwalk buf 4 41 = some buf.length := by
    rw [statcheck] at h
    split_ifs at h with hbad hwalk
    rw [not_or, Nat.not_lt, not_not] at hbad
    exact ⟨hbad.1, hbad.2, hwalk⟩
  obtain ⟨hfix, hcount, hwalk⟩ := hpass
  obtain ⟨hlen, hstrs⟩ := drop_of_statwalk hwalk
  obtain ⟨d, -, hnums⟩ := exists_nums (buf.drop 2) ([] : List UInt8)
    (by rw [length_drop]; omega)
  obtain ⟨e, hsv, hnums'⟩ := d.exists_sv hlen
  have htwo : (buf.take 2).length = 2 := by
    rw [length_take]
    omega
  have hlt := leVal_lt (buf.take 2)
  rw [htwo] at hlt
  rw [drop_drop, ← hnums'] at hnums
  rw [← hsv] at hstrs
  have hbuf : buf = buf.take 2 ++ (Val.wire e.nums ++ Val.wire (e.sv.map .str)) := by
    rw [← hstrs, ← hnums, take_append_drop]
  have hsize : e.size = buf.length := by
    have h := congrArg List.length hbuf
    rw [length_append, length_append, htwo, length_nums, length_wire_str, hsv, hlen, ← hsv] at h
    rw [h, Dir.size]
    change 49 + _ = 2 + (39 + (2 * 4 + _))
    omega
  refine ⟨e, by omega, ?_, hsv.symm⟩
  rw [Dir.entry, hsize, hcount, Nat.add_sub_cancel_left, leBytes_leVal_of_length htwo]
  exact hbuf

theorem statcheck_entry (hsize : d.size ≤ 65537) :
    statcheck d.entry = 0 := by
  have hlen := d.length_entry
  have hfix : 49 ≤ d.size := Nat.le_add_right 49 _
  have hcount : leVal (d.entry.take 2) = d.size - 2 := by
    rw [Dir.entry, take_left' (length_leBytes 2 _), leVal_leBytes (by omega)]
  have hpre : (leBytes 2 (d.size - 2) ++ Val.wire d.nums).length = 41 := by
    rw [length_append, length_leBytes, length_nums]
  obtain ⟨hwalk, -⟩ := statwalk_strings (leBytes 2 (d.size - 2) ++ Val.wire d.nums)
    (fun _ => Dir.length_lt hsize) (by rw [append_assoc, ← Dir.entry])
  rw [hpre] at hwalk
  rw [statcheck, hlen, hcount, if_neg (by change ¬(d.size < 49 ∨ _); omega), if_pos (hlen ▸ hwalk)]

/-- **What `statcheck` accepts** is the entry of a `Dir`, with a count that has not been cut off. -/
theorem statcheck_eq_zero_iff :
    statcheck buf = 0 ↔ ∃ d : Dir (List UInt8), d.size ≤ 65537 ∧ buf = d.entry := by
  constructor
  · intro h
    obtain ⟨d, hsize, hbuf, -⟩ := exists_of_statcheck h
    exact ⟨d, hsize, hbuf⟩
  · rintro ⟨d, hsize, rfl⟩
    exact statcheck_entry hsize

end Check

/-! ### Reading -/

variable {n : ℕ}

section Read

variable {α : Type} {post : List UInt8}

theorem ahead_append {bs : List UInt8} (h : bs.length = k) :
    (ahead k).run (bs ++ post) = .ok (bs, post) := by
  refine (if_pos (by rw [length_append]; omega)).trans ?_
  rw [take_left' h, drop_left' h]

theorem ahead_num {m : ℕ} : (ahead k).run ((Val.num k m).bytes ++ post) = .ok (leBytes k m, post) :=
  ahead_append (length_leBytes k m)

theorem room_of_le {p : List UInt8} (h : k ≤ p.length) : (room k).run p = .ok ((), p) :=
  if_neg (Nat.not_lt.2 h)

theorem gbit8_num (v : UInt8) : gbit8.run ((Val.num 1 v.toNat).bytes ++ post) = .ok (v, post) := by
  rw [gbit8, run_bind_of_ok ahead_num, leVal_leBytes v.toNat_lt, UInt8.ofNat_toNat]
  rfl

theorem gbit16_num (v : UInt16) :
    gbit16.run ((Val.num 2 v.toNat).bytes ++ post) = .ok (v, post) := by
  rw [gbit16, run_bind_of_ok ahead_num, leVal_leBytes v.toNat_lt, UInt16.ofNat_toNat]
  rfl

theorem gbit32_num (v : UInt32) :
    gbit32.run ((Val.num 4 v.toNat).bytes ++ post) = .ok (v, post) := by
  rw [gbit32, run_bind_of_ok ahead_num, leVal_leBytes v.toNat_lt, UInt32.ofNat_toNat]
  rfl

theorem gbit64_num (v : UInt64) :
    gbit64.run ((Val.num 8 v.toNat).bytes ++ post) = .ok (v, post) := by
  rw [gbit64, run_bind_of_ok ahead_num, leVal_leBytes v.toNat_lt, UInt64.ofNat_toNat]
  rfl

/-- The places of strings that are laid one behind the other, from `a` on. -/
def offsets : ℕ → List (List UInt8) → List ℕ
  | _, [] => []
  | a, s :: ss => a :: offsets (a + s.length + 1) ss

/-- The strings, one behind the other. -/
def laid (ss : List (List UInt8)) : List UInt8 := ss.flatMap (· ++ [0])

/-- A string is read, and moved to `strs`. -/
theorem getstrs_str {sv : List ℕ} {strs : Option (List UInt8)} (hs : s.length < 65536) :
    (getstrs (n + 1) sv strs).run ((Val.str s).bytes ++ post) = (match strs with
        | none => getstrs n sv none
        | some mem => getstrs n (sv ++ [mem.length]) (some (mem ++ (s ++ [0])))).run post := by
  have hns : (UInt16.ofNat s.length).toNat = s.length := UInt16.toNat_ofNat_of_lt' hs
  have hcount := @gbit16_num (s ++ post) (UInt16.ofNat s.length)
  rw [hns, Val.bytes] at hcount
  rw [getstrs, run_bind_of_ok (room_of_le (by simp [Val.bytes])), Val.bytes,
    append_assoc, run_bind_of_ok hcount, hns,
    run_bind_of_ok (room_of_le (by rw [length_append]; omega)),
    run_bind_of_ok (ahead_append rfl)]

/-- **The strings of an entry** are laid one behind the other. -/
theorem getstrs_some (hs : ∀ s ∈ ss, s.length < 65536) (sv : List ℕ) (mem : List UInt8) :
    (getstrs ss.length sv (some mem)).run (Val.wire (ss.map .str) ++ post) =
      .ok ((sv ++ offsets mem.length ss, some (mem ++ laid ss)), post) := by
  induction ss generalizing sv mem with
  | nil =>
    rw [offsets, append_nil, laid, flatMap_nil, append_nil]
    rfl
  | cons s ss ih =>
    have hmem : (mem ++ (s ++ [0])).length = mem.length + s.length + 1 := by
      simp
      omega
    rw [length_cons, map_cons, Val.wire_cons, append_assoc, getstrs_str (hs s mem_cons_self)]
    refine (ih (fun s hs' => hs s (mem_cons_of_mem _ hs')) _ _).trans ?_
    rw [hmem, offsets, laid, laid, flatMap_cons, append_assoc, append_assoc, singleton_append]

theorem getstrs_none (hs : ∀ s ∈ ss, s.length < 65536) (sv : List ℕ) :
    (getstrs ss.length sv none).run (Val.wire (ss.map .str) ++ post) = .ok ((sv, none), post) := by
  induction ss generalizing sv with
  | nil => rfl
  | cons s ss ih =>
    rw [length_cons, map_cons, Val.wire_cons, append_assoc, getstrs_str (hs s mem_cons_self)]
    exact ih (fun s hs' => hs s (mem_cons_of_mem _ hs')) _

theorem zero_notMem_nil : 0 ∉ ([] : List UInt8) := List.not_mem_nil

/-- The string behind a pointer of `convM2D`: `nullstring`, or what begins at a place in `strs`. -/
def pointed (mem : Option (List UInt8)) : Option ℕ → CString
  | none => ⟨[], zero_notMem_nil⟩
  | some q => .read ((mem.getD []).drop q)

theorem read_append_zero (s : CString) (rest : List UInt8) :
    CString.read (s.bytes ++ 0 :: rest) = s := by
  obtain ⟨bytes, h⟩ := s
  rw [CString.read, CString.mk.injEq]
  exact Val.takeWhile_append_zero h

/-- **The strings are found** at their places. -/
theorem pointed_offsets (ss : List CString) (mem post : List UInt8) :
    (offsets mem.length (ss.map CString.bytes)).map
      (fun q => pointed (some (mem ++ (laid (ss.map CString.bytes) ++ post))) (some q)) = ss := by
  induction ss generalizing mem with
  | nil => rfl
  | cons s ss ih =>
    have hmem : (mem ++ (s.bytes ++ [0])).length = mem.length + s.bytes.length + 1 := by
      simp
      omega
    have hall : mem ++ (laid ((s :: ss).map CString.bytes) ++ post) =
        (mem ++ (s.bytes ++ [0])) ++ (laid (ss.map CString.bytes) ++ post) := by
      simp [laid]
    have htail := ih (mem ++ (s.bytes ++ [0]))
    rw [hmem] at htail
    rw [map_cons, offsets, map_cons, ← map_cons, hall, htail]
    congr 1
    rw [pointed, Option.getD_some, append_assoc, drop_left, append_assoc]
    exact read_append_zero s _

/-- A `Dir` with the strings behind its pointers. -/
def Dir.resolve (mem : Option (List UInt8)) (d : Dir (Option ℕ)) : Dir CString :=
  d.map (pointed mem)

/-- The structure that `convM2D` fills in once it has read the strings. -/
def Dir.pointing {σ : Type} (d : Dir σ) (sv : List ℕ) : Dir (Option ℕ) :=
  { d with name := sv[0]?, uid := sv[1]?, gid := sv[2]?, muid := sv[3]? }

theorem getdir_entry (d : Dir (List UInt8)) (strs : Option (List UInt8)) :
    (getdir strs).run d.entry = (getstrs 4 [] strs >>= fun s => pure (d.pointing s.1, s.2)).run
        (Val.wire (d.sv.map .str)) := by
  rw [getdir, Dir.entry, run_bind_of_ok (ahead_append (length_leBytes 2 _)), Dir.nums]
  simp only [Val.wire_cons, Val.wire_nil, append_nil, append_assoc]
  rw [run_bind_of_ok (gbit16_num _), run_bind_of_ok (gbit32_num _), run_bind_of_ok (gbit8_num _),
    run_bind_of_ok (gbit32_num _), run_bind_of_ok (gbit64_num _), run_bind_of_ok (gbit32_num _),
    run_bind_of_ok (gbit32_num _), run_bind_of_ok (gbit32_num _), run_bind_of_ok (gbit64_num _)]
  rfl

theorem resolve_pointing (d : Dir CString) :
    (d.pointing (offsets 0 (d.sv.map CString.bytes))).resolve
      (some (laid (d.sv.map CString.bytes))) = d := by
  have hread := pointed_offsets d.sv [] []
  rw [append_nil, nil_append, length_nil] at hread
  obtain ⟨type, dev, qid, mode, atime, mtime, length, name, uid, gid, muid⟩ := d
  simp only [Dir.sv, map_cons, map_nil, offsets, cons.injEq, and_true] at hread
  obtain ⟨hname, huid, hgid, hmuid⟩ := hread
  rw [Dir.resolve, Dir.map, Dir.mk.injEq]
  exact ⟨rfl, rfl, rfl, rfl, rfl, rfl, rfl, hname, huid, hgid, hmuid⟩

/-- **What is read from an entry** is the `Dir`. -/
theorem convM2D_entry {d : Dir CString} (h : (d.map CString.bytes).size ≤ 65537) :
    (∃ g mem, convM2D (d.map CString.bytes).entry (some []) =
        .ok ((d.map CString.bytes).size, g, mem) ∧ g.resolve mem = d) ∧
      ∃ g, convM2D (d.map CString.bytes).entry none =
        .ok ((d.map CString.bytes).size, g, none) := by
  have hfix : ¬(d.map CString.bytes).entry.length < statfixlen := by
    rw [Dir.length_entry]
    exact Nat.not_lt.2 (Nat.le_add_right _ _)
  have hlen := (d.map CString.bytes).length_entry
  have hs := fun s => Dir.length_lt (s := s) h
  have hsome := @getstrs_some _ [] hs [] []
  have hnone := @getstrs_none _ [] hs []
  have hfour : (d.map CString.bytes).sv.length = 4 := rfl
  rw [append_nil, hfour] at hsome hnone
  constructor
  · refine ⟨_, _, ?_, resolve_pointing d⟩
    rw [convM2D, if_neg hfix, getdir_entry, run_bind_of_ok hsome, hlen]
    rfl
  · refine ⟨(d.map CString.bytes).pointing [], ?_⟩
    rw [convM2D, if_neg hfix, getdir_entry, run_bind_of_ok hnone, hlen]
    rfl

end Read

/-! ### Writing -/

section Write

variable {s : Option CString} {sv : List (Option CString)} {out out' : List UInt8} {nbuf : ℕ}

/-- The bytes of a string that are written: its length is cut to 32 bits. -/
def counted (s : Option CString) : CString where
  bytes := (cbytes s).take ((cbytes s).length % 2 ^ 32)
  noZero h := by
    cases s with
    | none => exact List.not_mem_nil (List.mem_of_mem_take h)
    | some c => exact c.noZero (List.mem_of_mem_take h)

theorem length_counted (s : Option CString) :
    (counted s).bytes.length = (cbytes s).length % 2 ^ 32 := by
  rw [counted, length_take]
  exact Nat.min_eq_left (Nat.mod_le _ _)

theorem nsv_eq_of_nonneg (h : 0 ≤ nsv s) :
    nsv s = (counted s).bytes.length ∧ (counted s).bytes.length < 2 ^ 31 := by
  rw [length_counted]
  rw [nsv, int, Int.bmod_def] at h ⊢
  split_ifs at h ⊢ <;> omega

theorem nsv_eq_of_lt (h : (counted s).bytes.length < 2 ^ 31) :
    nsv s = (counted s).bytes.length := by
  rw [length_counted] at h ⊢
  rw [nsv, int, Int.bmod_def]
  split_ifs <;> omega

theorem int_emod (x : ℤ) : int x % 2 ^ 32 = x % 2 ^ 32 := by
  rw [int, Int.bmod_def]
  split_ifs <;> omega

theorem int_congr {x y : ℤ} (h : x % 2 ^ 32 = y % 2 ^ 32) : int x = int y := by
  rw [int, int, Int.bmod_def, Int.bmod_def]
  change (if x % 2 ^ 32 < _ then x % 2 ^ 32 else x % 2 ^ 32 - _) = _
  rw [h]
  rfl

/-- The bytes of some strings that are written. -/
def countedSum (sv : List (Option CString)) : ℕ := (sv.map fun s => (counted s).bytes.length).sum

/-- The sum is kept in 32 bits. -/
theorem sumlen_emod (sv : List (Option CString)) : sumlen sv % 2 ^ 32 = countedSum sv % 2 ^ 32 := by
  have hfold : ∀ (m : ℤ) (sv : List (Option CString)),
      sv.foldl (fun ns s => int (ns + nsv s)) m % 2 ^ 32 = (m + countedSum sv) % 2 ^ 32 := by
    intro m sv
    induction sv generalizing m with
    | nil => rw [foldl_nil, countedSum, map_nil, sum_nil, Nat.cast_zero, add_zero]
    | cons s sv ih =>
      have hadd := int_emod (m + nsv s)
      have hlen : nsv s % 2 ^ 32 = ((cbytes s).length : ℤ) % 2 ^ 32 := int_emod _
      have hs := length_counted s
      have hsum : countedSum (s :: sv) = (counted s).bytes.length + countedSum sv := rfl
      rw [foldl_cons, ih, hsum]
      omega
  have h := hfold 0 sv
  rwa [zero_add] at h

theorem int_add_sumlen (n : ℤ) (sv : List (Option CString)) :
    int (n + sumlen sv) = int (n + countedSum sv) := by
  have h := sumlen_emod sv
  exact int_congr (by omega)

theorem int_emod_of_lt (h : n < 2 ^ 31) : int n = n := by
  rw [int, Int.bmod_def]
  split_ifs <;> omega

theorem int_lt (x : ℤ) : int x < 2 ^ 31 := Int.bmod_lt (by norm_num)

theorem putstr_run : (putstr nbuf s).run out = if out.length + nsv s + 2 > nbuf then .error .refused
    else (put nbuf (leBytes 2 (nsv s % 2 ^ 16).toNat) >>= fun _ =>
      if nsv s = 0 then pure ()
      else if nsv s < 0 then throw .wild
      else put nbuf ((cbytes s).take (nsv s).toNat) : Encoder Unit).run out := by
  have hget : (get : Encoder (List UInt8)).run out = .ok (out, out) := rfl
  rw [putstr, run_bind_of_ok hget]
  dsimp only
  by_cases hroom : out.length + nsv s + 2 > nbuf
  · rw [if_pos hroom, if_pos hroom]
    rfl
  · rw [if_neg hroom, if_neg hroom]

/-- **A string** is written if there is room for it. -/
theorem putstr_run_of_lt (h : (counted s).bytes.length < 2 ^ 31) : (putstr nbuf s).run out =
      if out.length + (counted s).bytes.length + 2 ≤ nbuf then
        .ok ((), out ++ (Val.str (counted s).bytes).bytes)
      else .error .refused := by
  have hns := nsv_eq_of_lt h
  have hcount : leBytes 2 (nsv s % 2 ^ 16).toNat = leBytes 2 (counted s).bytes.length := by
    have hmod : (nsv s % 2 ^ 16).toNat = (counted s).bytes.length % 256 ^ 2 := by
      rw [hns]
      omega
    rw [hmod, leBytes, leBytes, beBytes_mod 2 _ 2 le_rfl]
  rw [putstr_run, hcount]
  by_cases hroom : out.length + (counted s).bytes.length + 2 ≤ nbuf
  · rw [if_neg (by omega), if_pos hroom, StateT.run_bind]
    have hput : (put nbuf (leBytes 2 (counted s).bytes.length)).run out =
        .ok ((), out ++ leBytes 2 (counted s).bytes.length) :=
      if_pos (by rw [length_leBytes]; omega)
    rw [hput, Val.bytes, ← append_assoc]
    by_cases hzero : nsv s = 0
    · have hnil : (counted s).bytes = [] := length_eq_zero_iff.1 (by omega)
      rw [if_pos hzero, hnil, append_nil]
      rfl
    · have htake : (cbytes s).take (nsv s).toNat = (counted s).bytes := by
        rw [hns, Int.toNat_natCast, length_counted, counted]
      rw [if_neg hzero, if_neg (by omega), htake]
      exact if_pos (by rw [length_append, length_leBytes]; omega)
  · rw [if_pos (by omega), if_neg hroom]

/-- A length that is negative as an `int` stops the program, unless `convD2M` stops before. -/
theorem putstr_run_of_ge (h : 2 ^ 31 ≤ (counted s).bytes.length) :
    (putstr nbuf s).run out ≠ .ok ((), out') := by
  have hneg : nsv s < 0 := by
    by_contra hns
    have := (nsv_eq_of_nonneg (Int.not_lt.1 hns)).2
    omega
  intro hrun
  rw [putstr_run, if_neg hneg.ne, if_pos hneg] at hrun
  split_ifs at hrun
  rw [StateT.run_bind] at hrun
  cases hput : (put nbuf (leBytes 2 (nsv s % 2 ^ 16).toNat)).run out with
  | error e =>
    rw [hput] at hrun
    cases hrun
  | ok r =>
    rw [hput] at hrun
    cases hrun

/-- **The strings** are written one behind the other, if there is room for them. -/
theorem putstrs_run (h : ∀ s ∈ sv, (counted s).bytes.length < 2 ^ 31) (hout : out.length ≤ nbuf) :
    (putstrs nbuf sv).run out = if out.length + countedSum sv + 2 * sv.length ≤ nbuf then
        .ok ((), out ++ Val.wire (sv.map fun s => .str (counted s).bytes))
      else .error .refused := by
  induction sv generalizing out with
  | nil =>
    rw [countedSum, map_nil, sum_nil, length_nil, if_pos (by omega), map_nil,
      Val.wire_nil, append_nil]
    rfl
  | cons s sv ih =>
    have hsum : countedSum (s :: sv) = (counted s).bytes.length + countedSum sv := rfl
    have hlen : (Val.str (counted s).bytes).bytes.length = (counted s).bytes.length + 2 := by
      simp [Val.bytes]
      omega
    rw [putstrs, StateT.run_bind, putstr_run_of_lt (h s mem_cons_self), hsum, length_cons]
    by_cases hroom : out.length + (counted s).bytes.length + 2 ≤ nbuf
    · rw [if_pos hroom]
      refine (ih (fun s hs => h s (mem_cons_of_mem _ hs)) ?_).trans ?_
      · rw [length_append, hlen]
        omega
      · rw [length_append, hlen, append_assoc, map_cons, Val.wire_cons]
        refine if_congr (by omega) rfl rfl
    · rw [if_neg hroom, if_neg (by omega)]
      rfl

theorem putstrs_run_of_ge (h : ∃ s ∈ sv, 2 ^ 31 ≤ (counted s).bytes.length) :
    (putstrs nbuf sv).run out ≠ .ok ((), out') := by
  induction sv generalizing out with
  | nil => simp at h
  | cons s sv ih =>
    intro hrun
    rw [putstrs, StateT.run_bind] at hrun
    cases hput : (putstr nbuf s).run out with
    | error e =>
      rw [hput] at hrun
      cases hrun
    | ok r =>
      rw [hput] at hrun
      obtain ⟨t, ht, hlarge⟩ := h
      rcases mem_cons.1 ht with rfl | ht
      · exact putstr_run_of_ge hlarge hput
      · exact ih ⟨t, ht, hlarge⟩ hrun

theorem writes_putnums (d : Dir σ) : Writes nbuf (putnums nbuf d) (Val.wire d.nums) := by
  have hvals : (d.nums : List (Val (Option CString))).flatMap sent =
      Val.wire (d.nums : List (Val (List UInt8))) := rfl
  have h : Writes nbuf (putnums nbuf d)
      ((d.nums : List (Val (Option CString))).flatMap sent ++ []) :=
    (writes_pbit16 d.type).cons <| (writes_pbit32 d.dev).cons <| (writes_pbit8 d.qid.type).cons <|
      (writes_pbit32 d.qid.vers).cons <| (writes_pbit64 d.qid.path).cons <|
      (writes_pbit32 d.mode).cons <| (writes_pbit32 d.atime).cons <|
      (writes_pbit32 d.mtime).cons (writes_pbit64 d.length).last
  rwa [append_nil, hvals] at h

variable {d : Dir (Option CString)}

/-- A `Dir` as far as it is written. -/
def Dir.counted (d : Dir (Option CString)) : Dir CString := d.map Stat.counted

/-- The size of the entry that is written. -/
def Dir.count (d : Dir (Option CString)) : ℕ := (d.counted.map CString.bytes).size

theorem Dir.count_eq (d : Dir (Option CString)) : d.count = 49 + countedSum d.sv := rfl

/-- **Behind the count** the numbers and the strings are written. -/
theorem putdir_eq_ok_iff (out' : List UInt8) (hout : out.length = 2) (hnbuf : 2 ≤ nbuf) :
    (putnums nbuf d >>= fun _ => putstrs nbuf d.sv).run out = .ok ((), out') ↔
      (∀ s ∈ d.sv, (counted s).bytes.length < 2 ^ 31) ∧ d.count ≤ nbuf ∧
        out' = out ++ (Val.wire d.nums ++ Val.wire (d.sv.map fun s => .str (counted s).bytes)) := by
  have hcount := d.count_eq
  have hsv : d.sv.length = 4 := rfl
  have hrun := writes_putnums d out (hout.trans_le hnbuf)
  rw [length_nums] at hrun
  rw [← append_assoc]
  by_cases hnums : out.length + 39 ≤ nbuf
  · have hlen : (out ++ Val.wire d.nums).length = 41 := by
      rw [length_append, length_nums, hout]
    rw [if_pos hnums] at hrun
    rw [run_bind_of_ok hrun]
    by_cases hall : ∀ s ∈ d.sv, (counted s).bytes.length < 2 ^ 31
    · rw [putstrs_run hall (by omega), hlen, hsv]
      by_cases hroom : d.count ≤ nbuf
      · rw [if_pos (by omega), Except.ok.injEq, Prod.mk.injEq]
        exact ⟨fun h => ⟨hall, hroom, h.2.symm⟩, fun h => ⟨rfl, h.2.2.symm⟩⟩
      · rw [if_neg (by omega)]
        exact ⟨fun h => (by cases h), fun h => absurd h.2.1 hroom⟩
    · refine ⟨fun h => ?_, fun h => absurd h.1 hall⟩
      push Not at hall
      exact absurd h (putstrs_run_of_ge hall)
  · rw [if_neg hnums] at hrun
    refine ⟨fun h => ?_, fun h => absurd h.2.1 (by omega)⟩
    obtain ⟨_, _, hput, -⟩ := run_bind_eq_ok.1 h
    rw [hrun] at hput
    cases hput

theorem ok_bind {α β : Type} (a : α) (f : α → Except Stop β) : (Except.ok a >>= f) = f a := rfl

variable {nbuf : UInt32}

/-- **What is written** by `convD2M` if the buffer is large enough. -/
theorem convD2M_eq_ok_iff (hn : 2 < n) :
    convD2M d nbuf = .ok (n, out) ↔ d.count < 2 ^ 31 ∧ d.count ≤ nbuf.toNat ∧ n = d.count ∧
      out = (d.counted.map CString.bytes).entry := by
  have hcount := d.count_eq
  have hentry : ∀ ss : ℤ, ss = d.count → (d.counted.map CString.bytes).entry =
      leBytes 2 ((ss - 2) % 2 ^ 16).toNat ++
        (Val.wire d.nums ++ Val.wire (d.sv.map fun s => .str (counted s).bytes)) := by
    rintro _ rfl
    have hmod : (((d.count : ℤ) - 2) % 2 ^ 16).toNat = (d.count - 2) % 256 ^ 2 := by omega
    rw [hmod, leBytes, beBytes_mod 2 _ 2 le_rfl]
    rfl
  have hint : int (statfixlen + sumlen d.sv) = int d.count := by
    rw [int_add_sumlen, hcount, Nat.cast_add]
    rfl
  rw [convD2M, hint]
  by_cases hnbuf : nbuf.toNat < 2
  · rw [if_pos hnbuf]
    exact ⟨fun h => (by cases h), fun h => absurd h.2.1 (by omega)⟩
  rw [if_neg hnbuf]
  have hput : (put nbuf.toNat (leBytes 2 ((int d.count - 2) % 2 ^ 16).toNat)).run [] =
      .ok ((), leBytes 2 ((int d.count - 2) % 2 ^ 16).toNat) :=
    if_pos (by rw [length_leBytes, length_nil]; omega)
  dsimp only
  rw [hput, ok_bind]
  by_cases hsmall : (int d.count % 2 ^ 32).toNat > nbuf.toNat
  · rw [if_pos hsmall]
    refine ⟨fun h => ?_, fun h => ?_⟩
    · obtain ⟨rfl, -⟩ := Prod.mk.inj (Except.ok.inj h)
      exact absurd hn (lt_irrefl 2)
    · rw [int_emod_of_lt h.1] at hsmall
      omega
  rw [if_neg hsmall]
  have hdir := fun out' => putdir_eq_ok_iff (d := d) out'
    (length_leBytes 2 ((int d.count - 2) % 2 ^ 16).toNat) (Nat.not_lt.1 hnbuf)
  cases hrun : (putnums nbuf.toNat d >>= fun _ => putstrs nbuf.toNat d.sv).run
      (leBytes 2 ((int d.count - 2) % 2 ^ 16).toNat) with
  | error e =>
    refine ⟨fun h => (by cases h), fun h => ?_⟩
    have hall : ∀ s ∈ d.sv, (counted s).bytes.length < 2 ^ 31 := by
      intro s hs
      have hle : (counted s).bytes.length ≤ countedSum d.sv := le_sum_of_mem (mem_map_of_mem hs)
      omega
    rw [(hdir _).2 ⟨hall, h.2.1, rfl⟩] at hrun
    cases hrun
  | ok r =>
    obtain ⟨hall, hroom, hout⟩ := (hdir r.2).1 hrun
    have hstrs : (Val.wire (d.sv.map fun s => .str (counted s).bytes)).length =
        2 * 4 + countedSum d.sv := length_wire_str (d.counted.map CString.bytes).sv
    have hlen : r.2.length = d.count := by
      rw [hout, length_append, length_append, length_leBytes, length_nums, hstrs]
      omega
    rw [ok_bind]
    by_cases hss : int d.count = r.2.length
    · have hint : int d.count = d.count := by rw [hss, hlen]
      have hlt : d.count < 2 ^ 31 := by
        have := int_lt d.count
        omega
      rw [if_neg (not_not.2 hss), hlen, hout, ← hentry _ hint]
      refine ⟨fun h => ?_, ?_⟩
      · obtain ⟨rfl, rfl⟩ := Prod.mk.inj (Except.ok.inj h)
        exact ⟨hlt, hroom, rfl, rfl⟩
      · rintro ⟨-, -, rfl, rfl⟩
        rfl
    · rw [if_pos hss]
      refine ⟨fun h => (by cases h), fun h => ?_⟩
      exact absurd ((int_emod_of_lt h.1).trans (congrArg Nat.cast hlen.symm)) hss

/-- **The result** of `convD2M` is what `sizeD2M` has counted. -/
theorem sizeD2M_of_convD2M (hn : 2 < n) (h : convD2M d nbuf = .ok (n, out)) : sizeD2M d = n := by
  obtain ⟨hlt, -, rfl, -⟩ := (convD2M_eq_ok_iff hn).1 h
  have hint : int (statfixlen + sumlen d.sv) = d.count := by
    rw [← int_emod_of_lt hlt, int_add_sumlen, d.count_eq, Nat.cast_add]
    rfl
  rw [sizeD2M, hint]
  omega

end Write

/-! ### Round trips -/

section RoundTrip

variable {d : Dir (Option CString)} {nbuf : UInt32} {buf : List UInt8}

/-- A string, empty for a null pointer. -/
def named : Option CString → CString
  | none => ⟨[], zero_notMem_nil⟩
  | some s => s

theorem bytes_named (s : Option CString) : (named s).bytes = cbytes s := by
  cases s <;> rfl

theorem bytes_inj {s t : CString} (h : s.bytes = t.bytes) : s = t := by
  cases s
  cases t
  simpa only [CString.mk.injEq] using h

/-- The size of the whole entry. -/
def Dir.total (d : Dir (Option CString)) : ℕ := (d.map cbytes).size

/-- **What comes back** from `convD2M` passes `statcheck` and is turned into the same structure. -/
def RoundTrips (d : Dir (Option CString)) (nbuf : UInt32) : Prop :=
  ∀ n out, convD2M d nbuf = .ok (n, out) → 2 < n →
    n ≤ nbuf.toNat ∧ out.length = n ∧ statcheck out = 0 ∧
      (∃ g mem, convM2D out (some []) = .ok (n, g, mem) ∧ g.resolve mem = d.map named) ∧
      ∃ g, convM2D out none = .ok (n, g, none)

/-- **What `statcheck` accepts** is reproduced, in any buffer that is large enough. -/
def Reproduces (buf : List UInt8) : Prop :=
  statcheck buf = 0 → (∀ s ∈ statstrings buf 4 41, 0 ∉ s) →
    ∃ n g mem, convM2D buf (some []) = .ok (n, g, mem) ∧
      ∀ nbuf : UInt32, buf.length ≤ nbuf.toNat →
        convD2M ((g.resolve mem).map some) nbuf = .ok (buf.length, buf)

/-- **The condition**: the count can say how long the entry is; or the buffer is too small for the
entry, or the length of the entry is no `int`. -/
def Dir.Codable (d : Dir (Option CString)) (nbuf : UInt32) : Prop :=
  d.total ≤ 65537 ∨ nbuf.toNat < d.count ∨ 2 ^ 31 ≤ d.count

theorem counted_of_lt {s : Option CString} (h : (cbytes s).length < 2 ^ 32) :
    counted s = named s := by
  refine bytes_inj ?_
  have htake : (counted s).bytes = (cbytes s).take ((cbytes s).length % 2 ^ 32) := rfl
  rw [htake, bytes_named, Nat.mod_eq_of_lt h, take_length]

theorem Dir.counted_of_total (h : d.total ≤ 65537) : d.counted = d.map named := by
  have hs : ∀ s ∈ d.sv, Stat.counted s = named s := fun s hs =>
    counted_of_lt ((Dir.length_lt h (mem_map_of_mem hs)).trans (by norm_num))
  rw [Dir.counted, Dir.map, Dir.map, hs d.name (by simp [Dir.sv]), hs d.uid (by simp [Dir.sv]),
    hs d.gid (by simp [Dir.sv]), hs d.muid (by simp [Dir.sv])]

theorem Dir.size_named (d : Dir (Option CString)) :
    ((d.map named).map CString.bytes).size = d.total := by
  rw [Dir.total]
  congr 1
  rw [Dir.map, Dir.map, Dir.map, bytes_named, bytes_named, bytes_named, bytes_named]

theorem roundTrips_of_total (h : d.total ≤ 65537) : RoundTrips d nbuf := by
  intro n out hconv hn
  obtain ⟨-, hroom, rfl, rfl⟩ := (convD2M_eq_ok_iff hn).1 hconv
  have hcount : d.count = d.total := by rw [Dir.count, Dir.counted_of_total h, Dir.size_named]
  have hsize : (d.counted.map CString.bytes).size ≤ 65537 := hcount.trans_le h
  have hread := convM2D_entry hsize
  rw [Dir.counted_of_total h] at hread
  obtain ⟨hsome, hnone⟩ := hread
  rw [Dir.count, Dir.counted_of_total h] at hroom ⊢
  exact ⟨hroom, Dir.length_entry _, statcheck_entry (by rwa [Dir.size_named]), hsome, hnone⟩

theorem not_roundTrips (htotal : 65537 < d.total) (hroom : d.count ≤ nbuf.toNat)
    (hint : d.count < 2 ^ 31) : ¬RoundTrips d nbuf := by
  have hn : 2 < d.count := by
    rw [d.count_eq]
    omega
  intro h
  obtain ⟨-, -, hcheck, ⟨g, mem, hread, hsame⟩, -⟩ :=
    h _ _ ((convD2M_eq_ok_iff hn).2 ⟨hint, hroom, rfl, rfl⟩) hn
  obtain ⟨e, he, hentry, -⟩ := exists_of_statcheck hcheck
  have hsize : (d.counted.map CString.bytes).size ≤ 65537 := by
    rw [← Dir.length_entry, hentry, Dir.length_entry]
    exact he
  obtain ⟨⟨g', mem', hread', hsame'⟩, -⟩ := convM2D_entry hsize
  rw [hread'] at hread
  obtain ⟨-, rfl, rfl⟩ : _ ∧ g' = g ∧ mem' = mem := by
    simpa only [Except.ok.injEq, Prod.mk.injEq] using hread
  rw [← d.size_named, ← hsame, hsame'] at htotal
  exact absurd hsize (Nat.not_le.2 htotal)

theorem reproduces (buf : List UInt8) : Reproduces buf := by
  intro hcheck hzero
  obtain ⟨e, he, rfl, hstrs⟩ := exists_of_statcheck hcheck
  rw [hstrs] at hzero
  obtain ⟨d, rfl⟩ : ∃ d : Dir CString, d.map CString.bytes = e := ⟨{ e with
      name := ⟨e.name, hzero _ (by simp [Dir.sv])⟩, uid := ⟨e.uid, hzero _ (by simp [Dir.sv])⟩
      gid := ⟨e.gid, hzero _ (by simp [Dir.sv])⟩, muid := ⟨e.muid, hzero _ (by simp [Dir.sv])⟩ },
      rfl⟩
  obtain ⟨⟨g, mem, hread, hsame⟩, -⟩ := convM2D_entry he
  refine ⟨_, g, mem, hread, fun nbuf hnbuf => ?_⟩
  rw [Dir.length_entry] at hnbuf ⊢
  have htotal : (d.map some).total ≤ 65537 := he
  have hcounted : (d.map some).counted = d := Dir.counted_of_total htotal
  have hcount : (d.map some).count = (d.map CString.bytes).size := by rw [Dir.count, hcounted]
  have hn : 2 < (d.map CString.bytes).size := by
    rw [← hcount, Dir.count_eq]
    omega
  rw [hsame]
  refine (convD2M_eq_ok_iff hn).2 ⟨?_, ?_, hcount.symm, by rw [hcounted]⟩
  · rw [hcount]
    omega
  · rwa [hcount]

/-- **Directory entries round-trip** exactly if the count says how long they are, or nothing is
written. -/
theorem dir_roundtrip_iff (d : Dir (Option CString)) (nbuf : UInt32) (buf : List UInt8) :
    RoundTrips d nbuf ∧ Reproduces buf ↔ d.Codable nbuf := by
  rw [and_iff_left (reproduces buf)]
  constructor
  · intro h
    by_contra hnot
    rw [Dir.Codable, not_or, not_or, Nat.not_le, Nat.not_lt, Nat.not_le] at hnot
    exact not_roundTrips hnot.1 hnot.2.1 hnot.2.2 h
  · rintro (h | h | h)
    · exact roundTrips_of_total h
    all_goals
      intro n out hconv hn
      obtain ⟨hlt, hroom, -, -⟩ := (convD2M_eq_ok_iff hn).1 hconv
      omega

theorem zero_notMem_replicate (n : ℕ) : 0 ∉ List.replicate n (97 : UInt8) :=
  fun h => absurd (List.eq_of_mem_replicate h) (by decide)

/-- A `Dir` whose name has `n` bytes. -/
def longDir (n : ℕ) : Dir (Option CString) :=
  { type := 0, dev := 0, qid := ⟨0, 0, 0⟩, mode := 0, atime := 0, mtime := 0, length := 0
    name := some ⟨List.replicate n 97, zero_notMem_replicate n⟩
    uid := none, gid := none, muid := none }

theorem length_longDir (n : ℕ) : (cbytes (longDir n).name).length = n := length_replicate

/-- The entry is one byte longer than its count can say. -/
theorem longDir_lost : ¬RoundTrips (longDir 65489) 65538 := by
  have htotal : ∀ n, (longDir n).total = 49 + n := by
    intro n
    have h : (longDir n).total = 49 + ((cbytes (longDir n).name).length + 0) := rfl
    rw [h, length_longDir, add_zero]
  have hcount : ∀ n, (longDir n).count = 49 + n % 2 ^ 32 := by
    intro n
    have h : countedSum (longDir n).sv = (counted (longDir n).name).bytes.length + 0 := rfl
    rw [Dir.count_eq, h, length_counted, length_longDir, add_zero]
  refine not_roundTrips ?_ ?_ ?_
  · rw [htotal]
    norm_num
  · rw [hcount]
    decide
  · rw [hcount]
    norm_num

end RoundTrip

end Stat

end Libc

end Plan9
