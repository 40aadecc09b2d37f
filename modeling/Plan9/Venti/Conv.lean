import Plan9.Lib.Reader
import Plan9.LibVenti.Fcall

/-!
# Arena trailers on disk

The last block of an arena is its **trailer**: a magic number, a version, the
name, and the counters of the log. There are two sets of counters: `diskstats`
says what the index has, `memstats` what the arena has. `_packarena` writes the
first set always and the second one – the *extension*, behind a byte `1` – only
if it differs from the first or if it is told to; otherwise it clears the place
of the extension, since whatever was there before would be read back.

* `Plan9.Venti.unpackArena_packArena` – what `unpackarena` makes of the bytes of
  `_packarena`, over any previous contents of the block, and how many bytes each
  of the two accounts for;
* `Plan9.Venti.unpackArena_ne_sysfatal` – the size check at the end of
  `unpackarena` never fails, on any block.
-/

namespace Plan9

namespace Venti

open Lib LibVenti List

/-! ### The trailer -/

/-- `ArenaMagic`. -/
def arenaMagic : UInt32 := 0xf2a14ead

/-- `_ClumpMagic`, the magic number of the clumps of a version 4 arena. -/
def oldClumpMagic : UInt32 := 0xd15cb10c

/-- `ArenaSize4`. -/
def arenaSize4 : ℕ := 2 * 8 + 6 * 4 + aNameSize + 1

/-- `ArenaSize5`. -/
def arenaSize5 : ℕ := arenaSize4 + 4

/-- `ArenaSize5a`. -/
def arenaSize5a : ℕ := arenaSize5 + 2 * 1 + 2 * 4 + 2 * 8

/-- The string in an array of `TailNameSize` characters. -/
@[ext]
structure TailName where
  str : CString
  short : str.bytes.length < aNameSize
deriving DecidableEq

/-- The array of a name: its string, and zeros to the end. -/
def TailName.array (n : TailName) : List UInt8 :=
  n.str.bytes ++ List.replicate (aNameSize - n.str.bytes.length) 0

/-- `namecp(dst, src)`: the string in `dst` is that of `src`, cut after
`TailNameSize - 1` characters. -/
def namecp (src : List UInt8) : TailName where
  str := .read (src.take (aNameSize - 1))
  short := by
    have h := (List.takeWhile_sublist (· ≠ 0) (l := src.take (aNameSize - 1))).length_le
    rw [List.length_take] at h
    simp only [CString.read, aNameSize] at h ⊢
    omega

/-- `struct ATailStats`, with the widths of the disk format. -/
@[ext]
structure TailStats where
  clumps : UInt32
  cclumps : UInt32
  used : UInt64
  uncsize : UInt64
  sealed : UInt8
deriving DecidableEq

/-- `struct Arena`, as far as its trailer has it. -/
@[ext]
structure ArenaTail where
  version : UInt32
  name : TailName
  ctime : UInt32
  wtime : UInt32
  clumpmagic : UInt32
  diskstats : TailStats
  memstats : TailStats
deriving DecidableEq

/-- What `unpackarena` finds wrong with a block. -/
inductive TailError
  /-- "arena has wrong magic number" -/
  | wrongMagic (m : UInt32)
  /-- "arena has bad version number" -/
  | badVersion (v : UInt32)
  /-- A read past the end of the block. -/
  | pastEnd
deriving DecidableEq

/-- How packing or unpacking a trailer ends without a result. -/
inductive TailStop
  /-- `-1`, with the error reported. -/
  | error (e : TailError)
  /-- The process ends. -/
  | sysfatal (msg : String)
deriving DecidableEq

/-! ### Packing -/

/-- `U32PUT`. -/
def put32 (v : UInt32) : List UInt8 := beBytes 4 v.toNat

/-- `U64PUT`. -/
def put64 (v : UInt64) : List UInt8 := beBytes 8 v.toNat

namespace ArenaTail

variable (a : ArenaTail)

/-- The fields every trailer has. -/
def packFields : List UInt8 :=
  put32 arenaMagic ++ (put32 a.version ++ (a.name.array ++ (put32 a.diskstats.clumps ++
    (put32 a.diskstats.cclumps ++ (put32 a.ctime ++ (put32 a.wtime ++
    ((if a.version = 5 then put32 a.clumpmagic else []) ++ (put64 a.diskstats.used ++
    (put64 a.diskstats.uncsize ++ [a.diskstats.sealed])))))))))

/-- The extension. -/
def packExtension : List UInt8 :=
  [1] ++ (put32 a.memstats.clumps ++ (put32 a.memstats.cclumps ++ (put64 a.memstats.used ++
    (put64 a.memstats.uncsize ++ [a.memstats.sealed]))))

/-- The condition under which `_packarena` writes the extension. -/
def Extended (forceext : Bool) : Prop :=
  forceext ∨ a.memstats.clumps ≠ a.diskstats.clumps ∨ a.memstats.cclumps ≠ a.diskstats.cclumps ∨
    a.memstats.used ≠ a.diskstats.used ∨ a.memstats.uncsize ≠ a.diskstats.uncsize ∨
    a.memstats.sealed ≠ a.diskstats.sealed

instance (forceext : Bool) : Decidable (a.Extended forceext) := by
  unfold Extended
  infer_instance

/-- `sz` after the first `switch` of `_packarena` and of `unpackarena`. -/
def sizeOfVersion (v : UInt32) : Option ℕ :=
  if v = 4 then some arenaSize4 else if v = 5 then some arenaSize5 else none

end ArenaTail

/-- `_packarena`: the block after the call, and the number of bytes by which `p`
has moved over it. -/
def packArenaExt (a : ArenaTail) (buf : List UInt8) (forceext : Bool) :
    Except TailStop (List UInt8 × ℕ) :=
  match ArenaTail.sizeOfVersion a.version with
  | none => .error (.sysfatal "packarena unknown version")
  | some sz =>
    let ext :=
      if a.Extended forceext then a.packExtension
      -- `memset`: clear any extension fields already on disk
      else List.replicate (arenaSize5a - arenaSize5) 0
    let out := a.packFields ++ ext
    if out.length ≠ sz + (arenaSize5a - arenaSize5) then
      .error (.sysfatal "packarena packed wrong amount")
    else .ok (out ++ buf.drop out.length, out.length)

/-- `packarena`. -/
def packArena (a : ArenaTail) (buf : List UInt8) : Except TailStop (List UInt8 × ℕ) :=
  packArenaExt a buf false

/-! ### Unpacking -/

/-- The next `n` bytes. -/
def fetch (n : ℕ) : Reader TailError (List UInt8) := fun p =>
  if p.length < n then .error .pastEnd else .ok (p.take n, p.drop n)

/-- `U32GET` and the step over it. -/
def get32 : Reader TailError UInt32 := do
  let b ← fetch 4
  return UInt32.ofNat (beVal b)

/-- `U64GET` and the step over it. -/
def get64 : Reader TailError UInt64 := do
  let b ← fetch 8
  return UInt64.ofNat (beVal b)

/-- `U8GET` and the step over it. -/
def get8 : Reader TailError UInt8 := do
  let b ← fetch 1
  return b.getD 0 0

/-- `U8GET` without a step. -/
def peek8 : Reader TailError UInt8 := fun p =>
  if p.length < 1 then .error .pastEnd else .ok (p.getD 0 0, p)

/-- `clumpmagic` of `unpackarena`: only version 5 has it in the trailer. -/
def getClumpMagic (version : UInt32) : Reader TailError UInt32 :=
  if version = 5 then get32 else pure oldClumpMagic

/-- `memstats` of `unpackarena`, and what it adds to `sz`. -/
def readMemstats (diskstats : TailStats) : Reader TailError (TailStats × ℕ) := do
  let flag ← peek8
  if flag = 1 then do
    let _ ← get8
    let clumps ← get32
    let cclumps ← get32
    let used ← get64
    let uncsize ← get64
    let sealed ← get8
    -- a trailer of the old writer may have the arena sealed on disk only
    let sealed := if diskstats.sealed ≠ 0 then 1 else sealed
    return (⟨clumps, cclumps, used, uncsize, sealed⟩, arenaSize5a - arenaSize5)
  else return (diskstats, 0)

/-- `unpackarena` up to its last test: the trailer, and `sz`. -/
def readArena : Reader TailError (ArenaTail × ℕ) := do
  let m ← get32
  if m ≠ arenaMagic then throw (.wrongMagic m)
  else do
    let version ← get32
    let name ← fetch aNameSize
    let clumps ← get32
    let cclumps ← get32
    let ctime ← get32
    let wtime ← get32
    let magic ← getClumpMagic version
    let used ← get64
    let uncsize ← get64
    let sealed ← get8
    match ArenaTail.sizeOfVersion version with
    | none => throw (.badVersion version)
    | some sz => do
      let diskstats := ⟨clumps, cclumps, used, uncsize, sealed⟩
      let mem ← readMemstats diskstats
      return (⟨version, namecp name, ctime, wtime, magic, diskstats, mem.1⟩, sz + mem.2)

/-- `unpackarena`: the trailer in a block, and the number of bytes by which `p`
has moved over it. -/
def unpackArena (buf : List UInt8) : Except TailStop (ArenaTail × ℕ) :=
  match readArena.run buf with
  | .error e => .error (.error e)
  | .ok ((a, sz), rest) =>
    if buf.length - rest.length ≠ sz then .error (.sysfatal "unpackarena unpacked wrong amount")
    else .ok (a, buf.length - rest.length)

/-! ### What the readers read -/

variable {n : ℕ}

theorem fetch_append {b rest : List UInt8} (hb : b.length = n) :
    (fetch n).run (b ++ rest) = .ok (b, rest) := by
  have hlen : ¬(b ++ rest).length < n := by
    rw [length_append]
    omega
  have hrun : (fetch n).run (b ++ rest) = fetch n (b ++ rest) := rfl
  rw [hrun, fetch, if_neg hlen, ← hb, take_left, drop_left]

theorem get32_put32 (v : UInt32) (rest : List UInt8) :
    get32.run (put32 v ++ rest) = .ok (v, rest) := by
  have hv : beVal (beBytes 4 v.toNat) = v.toNat := beVal_beBytes v.toNat_lt
  rw [get32, put32, run_bind_of_ok (fetch_append (length_beBytes 4 v.toNat)), run_pure_eq_ok, hv]
  exact ⟨UInt32.ofNat_toNat, rfl⟩

theorem get64_put64 (v : UInt64) (rest : List UInt8) :
    get64.run (put64 v ++ rest) = .ok (v, rest) := by
  have hv : beVal (beBytes 8 v.toNat) = v.toNat := beVal_beBytes v.toNat_lt
  rw [get64, put64, run_bind_of_ok (fetch_append (length_beBytes 8 v.toNat)), run_pure_eq_ok, hv]
  exact ⟨UInt64.ofNat_toNat, rfl⟩

theorem get8_cons (v : UInt8) (rest : List UInt8) : get8.run (v :: rest) = .ok (v, rest) := by
  have h : (fetch 1).run (v :: rest) = .ok ([v], rest) := fetch_append (b := [v]) rfl
  rw [get8, run_bind_of_ok h, run_pure_eq_ok]
  exact ⟨rfl, rfl⟩

theorem peek8_cons (v : UInt8) (rest : List UInt8) :
    peek8.run (v :: rest) = .ok (v, v :: rest) := rfl

namespace TailName

@[simp]
theorem length_array (n : TailName) : n.array.length = aNameSize := by
  have h := n.short
  simp only [array, length_append, length_replicate]
  omega

/-- **A name is read back from its array.** -/
theorem namecp_array (n : TailName) : namecp n.array = n := by
  have hshort := n.short
  have hpos : ∃ k, aNameSize - 1 - n.str.bytes.length = k ∧
      aNameSize - n.str.bytes.length = k + 1 := ⟨_, rfl, by omega⟩
  obtain ⟨k, hk, hk'⟩ := hpos
  ext1
  ext1
  have hne : ∀ b ∈ n.str.bytes, decide (b ≠ 0) = true := by
    intro b hb
    have : b ≠ 0 := fun hc => n.str.noZero (hc ▸ hb)
    simpa using this
  -- the array is cut one byte before its end, so that one zero less stands behind the string
  have htake : n.array.take (aNameSize - 1) = n.str.bytes ++ replicate k 0 := by
    rw [array, take_append, hk, hk', take_of_length_le (by omega), take_replicate,
      Nat.min_eq_left (Nat.le_succ k)]
  change (n.array.take (aNameSize - 1)).takeWhile (· ≠ 0) = n.str.bytes
  rw [htake, takeWhile_append_of_pos hne]
  cases k with
  | zero => simp
  | succ k => simp [replicate_succ]

end TailName

/-! ### The round trip -/

namespace ArenaTail

variable {a : ArenaTail} {sz : ℕ} {forceext : Bool} {rest : List UInt8}

/-- The trailers the disk can hold: version 4 with the clump magic number that
belongs to it, or version 5; flags that are flags. -/
structure Storable (a : ArenaTail) : Prop where
  version : a.version = 4 ∧ a.clumpmagic = oldClumpMagic ∨ a.version = 5
  disk : a.diskstats.sealed = 0 ∨ a.diskstats.sealed = 1
  mem : a.memstats.sealed = 0 ∨ a.memstats.sealed = 1

/-- What is read back: an arena sealed on disk is sealed. -/
def reread (a : ArenaTail) : ArenaTail :=
  { a with memstats :=
      { a.memstats with
        sealed := if a.diskstats.sealed = 1 then 1 else a.memstats.sealed } }

/-- The bytes of a trailer without its extension. -/
def baseSize (a : ArenaTail) : ℕ := if a.version = 4 then arenaSize4 else arenaSize5

theorem Storable.sizeOfVersion_eq (h : a.Storable) : sizeOfVersion a.version = some a.baseSize := by
  rcases h.version with ⟨hv, _⟩ | hv
  · simp [sizeOfVersion, baseSize, hv]
  · simp [sizeOfVersion, baseSize, hv]

theorem Storable.length_packFields (h : a.Storable) : a.packFields.length = a.baseSize := by
  rcases h.version with ⟨hv, _⟩ | hv
  · simp [packFields, baseSize, hv, put32, put64, arenaSize4, aNameSize]
  · simp [packFields, baseSize, hv, put32, put64, arenaSize4, arenaSize5, aNameSize]

theorem length_packExtension : a.packExtension.length = arenaSize5a - arenaSize5 := by
  simp only [packExtension, put32, put64, length_append, length_beBytes, length_cons,
    length_nil, arenaSize5a]
  omega

/-- The extension is read in full, if it is there. -/
theorem readMemstats_packExtension (rest : List UInt8)
    (hdisk : a.diskstats.sealed = 0 ∨ a.diskstats.sealed = 1) :
    (readMemstats a.diskstats).run (a.packExtension ++ rest) =
      .ok ((a.reread.memstats, arenaSize5a - arenaSize5), rest) := by
  have hseal : (if a.diskstats.sealed ≠ 0 then 1 else a.memstats.sealed) =
      a.reread.memstats.sealed := by
    rcases hdisk with hd | hd
    · simp [reread, hd]
    · simp [reread, hd]
  simp only [readMemstats, packExtension, append_assoc, cons_append, nil_append]
  rw [run_bind_of_ok (peek8_cons _ _), if_pos rfl, run_bind_of_ok (get8_cons _ _),
    run_bind_of_ok (get32_put32 _ _), run_bind_of_ok (get32_put32 _ _),
    run_bind_of_ok (get64_put64 _ _), run_bind_of_ok (get64_put64 _ _),
    run_bind_of_ok (get8_cons _ _), hseal]
  rfl

/-- Cleared bytes are no extension, and none of them is consumed. -/
theorem readMemstats_cleared (rest : List UInt8) {d : TailStats} (hrest : rest.head? = some 0) :
    (readMemstats d).run rest = .ok ((d, 0), rest) := by
  obtain ⟨p, rfl⟩ : ∃ p, rest = 0 :: p := by
    cases rest with
    | nil => simp at hrest
    | cons b p => exact ⟨p, by simpa using hrest⟩
  rw [readMemstats, run_bind_of_ok (peek8_cons _ _), if_neg (by decide)]
  rfl

/-- The magic number of the clumps is read back, from the trailer or from nowhere. -/
theorem Storable.getClumpMagic_run (h : a.Storable) (q : List UInt8) :
    (getClumpMagic a.version).run ((if a.version = 5 then put32 a.clumpmagic else []) ++ q) =
      .ok (a.clumpmagic, q) := by
  rcases h.version with ⟨hv, hm⟩ | hv
  · have hne : a.version ≠ 5 := by
      rw [hv]
      decide
    rw [getClumpMagic, if_neg hne, if_neg hne, hm]
    rfl
  · rw [getClumpMagic, if_pos hv, if_pos hv, get32_put32]

/-- The fields every trailer has are read back; the rest is `readMemstats`. -/
theorem readArena_packFields (h : a.Storable) {mem : TailStats} {rest' : List UInt8}
    (hmem : (readMemstats a.diskstats).run rest = .ok ((mem, n), rest')) :
    readArena.run (a.packFields ++ rest) =
      .ok (({ a with memstats := mem }, a.baseSize + n), rest') := by
  have hsize := h.sizeOfVersion_eq
  simp only [readArena, packFields, append_assoc]
  rw [run_bind_of_ok (get32_put32 _ _), if_neg (not_not_intro rfl),
    run_bind_of_ok (get32_put32 _ _), run_bind_of_ok (fetch_append a.name.length_array),
    run_bind_of_ok (get32_put32 _ _), run_bind_of_ok (get32_put32 _ _),
    run_bind_of_ok (get32_put32 _ _), run_bind_of_ok (get32_put32 _ _)]
  rw [run_bind_of_ok (h.getClumpMagic_run _), run_bind_of_ok (get64_put64 _ _),
    run_bind_of_ok (get64_put64 _ _)]
  simp only [cons_append, nil_append]
  rw [run_bind_of_ok (get8_cons _ _)]
  simp only [hsize]
  rw [run_bind_of_ok hmem, TailName.namecp_array]
  rfl

/-- The bytes `_packarena` puts in front of what it leaves alone. -/
def packed (a : ArenaTail) (forceext : Bool) : List UInt8 :=
  a.packFields ++
    if a.Extended forceext then a.packExtension
    else List.replicate (arenaSize5a - arenaSize5) 0

theorem Storable.length_packed (h : a.Storable) (forceext : Bool) :
    (a.packed forceext).length = a.baseSize + (arenaSize5a - arenaSize5) := by
  rw [packed, length_append, h.length_packFields]
  split
  · rw [length_packExtension]
  · rw [length_replicate]

/-- `_packarena` passes its own size check. -/
theorem Storable.packArenaExt_eq (h : a.Storable) (buf : List UInt8) (forceext : Bool) :
    packArenaExt a buf forceext = .ok (a.packed forceext ++ buf.drop (a.packed forceext).length,
        (a.packed forceext).length) := by
  have hlen := h.length_packed forceext
  simp only [packArenaExt, h.sizeOfVersion_eq]
  exact if_neg (not_not_intro hlen)

/-- Without the extension the two sets of counters are one. -/
theorem memstats_eq_of_not_extended (h : ¬a.Extended forceext) : a.memstats = a.diskstats := by
  simp only [Extended, not_or, ne_eq, not_not] at h
  obtain ⟨-, h₁, h₂, h₃, h₄, h₅⟩ := h
  ext1 <;> assumption

theorem reread_of_not_extended (h : ¬a.Extended forceext) :
    a.reread = { a with memstats := a.diskstats } := by
  have hmem := memstats_eq_of_not_extended h
  rw [reread, hmem]
  split
  · rename_i hd
    rw [← hd]
  · rfl

/-- What `unpackarena` makes of the extended form. -/
theorem Storable.unpackArena_extended (h : a.Storable) (hext : a.Extended forceext) :
    unpackArena (a.packed forceext ++ rest) = .ok (a.reread, (a.packed forceext).length) := by
  have hlen := h.length_packed forceext
  have hread := readArena_packFields h (readMemstats_packExtension rest h.disk)
  have hpacked : a.packed forceext ++ rest = a.packFields ++ (a.packExtension ++ rest) := by
    rw [packed, if_pos hext, append_assoc]
  have hcount : (a.packed forceext ++ rest).length - rest.length = (a.packed forceext).length := by
    rw [length_append]
    omega
  rw [← hpacked] at hread
  simp only [unpackArena, hread]
  rw [hcount, hlen, if_neg (not_not_intro rfl)]
  rfl

/-- What `unpackarena` makes of the short form. -/
theorem Storable.unpackArena_short (h : a.Storable) (hext : ¬a.Extended forceext) :
    unpackArena (a.packed forceext ++ rest) = .ok (a.reread, a.baseSize) := by
  have hread := readArena_packFields h
    (readMemstats_cleared (replicate (arenaSize5a - arenaSize5) 0 ++ rest)
      (d := a.diskstats) rfl)
  have hpacked : a.packed forceext ++ rest =
      a.packFields ++ (replicate (arenaSize5a - arenaSize5) 0 ++ rest) := by
    rw [packed, if_neg hext, append_assoc]
  have hcount : (a.packed forceext ++ rest).length -
      (replicate (arenaSize5a - arenaSize5) (0 : UInt8) ++ rest).length = a.baseSize := by
    rw [hpacked, length_append, h.length_packFields]
    omega
  rw [← hpacked] at hread
  simp only [unpackArena, hread]
  rw [hcount, Nat.add_zero, if_neg (not_not_intro rfl), reread_of_not_extended hext]

end ArenaTail

/-- **Arena trailers round-trip**: over any previous contents of the block, what
`_packarena` writes is read back field by field, with an arena that is sealed on
disk sealed in memory too, and neither size check fails. In the extended form –
`forceext` included – both sides account for the same number of bytes. In the
short form the writer also accounts for the `arenaSize5a - arenaSize5` bytes of
the extension, which it clears, and the reader stops in front of them. -/
theorem unpackArena_packArena (a : ArenaTail) (h : a.Storable) (buf : List UInt8)
    (forceext : Bool) :
    ∃ disk n, packArenaExt a buf forceext = .ok (disk, n) ∧ disk.drop n = buf.drop n ∧
      ∃ c, unpackArena disk = .ok (a.reread, c) ∧
        (a.Extended forceext → c = n) ∧
        (¬a.Extended forceext → n = c + (arenaSize5a - arenaSize5) ∧
          (disk.drop c).take (arenaSize5a - arenaSize5) =
            List.replicate (arenaSize5a - arenaSize5) 0) := by
  refine ⟨_, _, h.packArenaExt_eq buf forceext, List.drop_left, ?_⟩
  by_cases hext : a.Extended forceext
  · exact ⟨_, h.unpackArena_extended hext, fun _ => rfl, fun hc => absurd hext hc⟩
  · refine ⟨_, h.unpackArena_short hext, fun hc => absurd hc hext, fun _ => ⟨?_, ?_⟩⟩
    · exact h.length_packed forceext
    · -- the cleared bytes stand right behind the fields
      rw [ArenaTail.packed, if_neg hext, List.append_assoc,
        List.drop_left' h.length_packFields, List.take_left' (List.length_replicate ..)]

/-- The trailer of a new arena, all counters zero. -/
def newTail : ArenaTail where
  version := 5
  name := ⟨⟨[97, 114, 101, 110, 97, 115, 48], by decide⟩, by decide⟩
  ctime := 0
  wtime := 0
  clumpmagic := 0x2a5c1e07
  diskstats := ⟨0, 0, 0, 0, 0⟩
  memstats := ⟨0, 0, 0, 0, 0⟩

theorem newTail_storable : newTail.Storable where
  version := .inr rfl
  disk := .inl rfl
  mem := .inl rfl

/-- The round trip of the trailer of a new arena over a block of zeros. -/
theorem newTail_roundtrip :
    ∃ disk n, packArenaExt newTail (List.replicate 512 0) false = .ok (disk, n) ∧
      disk.drop n = (List.replicate 512 0).drop n ∧
      ∃ c, unpackArena disk = .ok (newTail.reread, c) ∧
        (newTail.Extended false → c = n) ∧
        (¬newTail.Extended false → n = c + (arenaSize5a - arenaSize5) ∧
          (disk.drop c).take (arenaSize5a - arenaSize5) =
            List.replicate (arenaSize5a - arenaSize5) 0) :=
  unpackArena_packArena newTail newTail_storable (List.replicate 512 0) false

/-- In the short form the reader consumes fewer bytes than the writer produces:
the trailer of a new arena takes 135 bytes and is read from 109 of them. -/
theorem newTail_counts_differ :
    ¬∀ a : ArenaTail, a.Storable → ∀ (buf : List UInt8) (forceext : Bool),
      ∃ disk n, packArenaExt a buf forceext = .ok (disk, n) ∧
        unpackArena disk = .ok (a.reread, n) := by
  intro h
  obtain ⟨disk, n, hpack, hunpack⟩ := h newTail newTail_storable [] false
  have hext : ¬newTail.Extended false := by decide
  rw [newTail_storable.packArenaExt_eq, Except.ok.injEq, Prod.mk.injEq] at hpack
  obtain ⟨rfl, rfl⟩ := hpack
  rw [newTail_storable.unpackArena_short hext, Except.ok.injEq, Prod.mk.injEq,
    newTail_storable.length_packed false] at hunpack
  exact absurd hunpack.2 (by decide)

/-! ### The size check of the reader -/

variable {p q : List UInt8}

theorem length_of_fetch {b : List UInt8} (h : (fetch n).run p = .ok (b, q)) :
    p.length = q.length + n := by
  have hrun : (fetch n).run p = fetch n p := rfl
  rw [hrun, fetch] at h
  split at h
  · cases h
  · simp only [Except.ok.injEq, Prod.mk.injEq] at h
    rw [← h.2, length_drop]
    omega

/-- A reader that always moves over `n` bytes. -/
def Moves {α : Type} (r : Reader TailError α) (n : ℕ) : Prop :=
  ∀ p v q, r.run p = .ok (v, q) → p.length = q.length + n

theorem moves_fetch {α : Type} (n : ℕ) (f : List UInt8 → α) :
    Moves (do let b ← fetch n; return f b) n := by
  intro p v q h
  rw [run_bind_eq_ok] at h
  obtain ⟨b, p', hb, hv⟩ := h
  rw [run_pure_eq_ok] at hv
  rw [length_of_fetch hb, hv.2]

theorem moves_get32 : Moves get32 4 := moves_fetch 4 _

theorem moves_get64 : Moves get64 8 := moves_fetch 8 _

theorem moves_get8 : Moves get8 1 := moves_fetch 1 _

theorem length_of_peek8 {v : UInt8} (h : peek8.run p = .ok (v, q)) : q = p := by
  have hrun : peek8.run p = peek8 p := rfl
  rw [hrun, peek8] at h
  split at h
  · cases h
  · simp only [Except.ok.injEq, Prod.mk.injEq] at h
    exact h.2.symm

theorem length_of_readMemstats {d mem : TailStats} (h : (readMemstats d).run p = .ok ((mem, n), q))
    : p.length = q.length + n := by
  rw [readMemstats, run_bind_eq_ok] at h
  obtain ⟨flag, p', hpeek, h⟩ := h
  obtain rfl := length_of_peek8 hpeek
  split at h
  · simp only [run_bind_eq_ok, run_pure_eq_ok, Prod.mk.injEq] at h
    obtain ⟨_, q₁, h₁, _, q₂, h₂, _, q₃, h₃, _, q₄, h₄, _, q₅, h₅, _, q₆, h₆, ⟨-, rfl⟩, rfl⟩ := h
    have e₁ := moves_get8 _ _ _ h₁
    have e₂ := moves_get32 _ _ _ h₂
    have e₃ := moves_get32 _ _ _ h₃
    have e₄ := moves_get64 _ _ _ h₄
    have e₅ := moves_get64 _ _ _ h₅
    have e₆ := moves_get8 _ _ _ h₆
    rw [arenaSize5a]
    omega
  · simp only [run_pure_eq_ok, Prod.mk.injEq] at h
    obtain ⟨⟨-, rfl⟩, rfl⟩ := h
    rfl

theorem length_of_getClumpMagic {v m : UInt32} (h : (getClumpMagic v).run p = .ok (m, q)) :
    p.length = q.length + if v = 5 then 4 else 0 := by
  rw [getClumpMagic] at h
  split at h
  · rename_i hv
    rw [moves_get32 _ _ _ h, if_pos hv]
  · rename_i hv
    rw [run_pure_eq_ok] at h
    rw [h.2, if_neg hv, Nat.add_zero]

/-- `sz` is the number of bytes by which the reader has moved. -/
theorem length_of_readArena {a : ArenaTail} {sz : ℕ} (h : readArena.run p = .ok ((a, sz), q)) :
    p.length = q.length + sz := by
  rw [readArena, run_bind_eq_ok] at h
  obtain ⟨m, q₀, h₀, h⟩ := h
  have e₀ := moves_get32 _ _ _ h₀
  split at h
  · exact absurd h run_throw_ne_ok
  · simp only [run_bind_eq_ok] at h
    obtain ⟨v, q₁, h₁, name, q₂, h₂, cl, q₃, h₃, cc, q₄, h₄, ct, q₅, h₅, wt, q₆, h₆, mg, q₇, h₇,
      us, q₈, h₈, un, q₉, h₉, se, q₁₀, h₁₀, h⟩ := h
    have e₁ := moves_get32 _ _ _ h₁
    have e₂ := length_of_fetch h₂
    have e₃ := moves_get32 _ _ _ h₃
    have e₄ := moves_get32 _ _ _ h₄
    have e₅ := moves_get32 _ _ _ h₅
    have e₆ := moves_get32 _ _ _ h₆
    have e₇ := length_of_getClumpMagic h₇
    have e₈ := moves_get64 _ _ _ h₈
    have e₉ := moves_get64 _ _ _ h₉
    have e₁₀ := moves_get8 _ _ _ h₁₀
    have hfields : p.length = q₁₀.length + (arenaSize4 + if v = 5 then 4 else 0) := by
      simp only [arenaSize4, aNameSize] at e₂ ⊢
      omega
    split at h
    · exact absurd h run_throw_ne_ok
    · rename_i sz₀ hsz
      rw [run_bind_eq_ok] at h
      obtain ⟨mem, q₁₁, hmem, h⟩ := h
      have e₁₁ := length_of_readMemstats hmem
      simp only [run_pure_eq_ok, Prod.mk.injEq] at h
      obtain ⟨⟨-, rfl⟩, rfl⟩ := h
      -- the size of the version counts the magic number of version 5
      have hbase : sz₀ = arenaSize4 + if v = 5 then 4 else 0 := by
        rw [ArenaTail.sizeOfVersion] at hsz
        split at hsz
        · rename_i h4
          rw [← Option.some.inj hsz, h4, if_neg (by decide), Nat.add_zero]
        · split at hsz
          · rename_i h5
            rw [← Option.some.inj hsz, if_pos h5, arenaSize5]
          · cases hsz
      omega

/-- **The size check of `unpackarena` never fails**, whatever is in the block: there is an arena or
an error, and `sysfatal` is not called. -/
theorem unpackArena_ne_sysfatal (buf : List UInt8) (msg : String) :
    unpackArena buf ≠ .error (.sysfatal msg) := by
  rw [unpackArena]
  cases hread : readArena.run buf with
  | error e => simp
  | ok r =>
    obtain ⟨⟨a, sz⟩, rest⟩ := r
    have hlen := length_of_readArena hread
    intro h
    simp only at h
    rw [if_neg (by omega)] at h
    cases h

end Venti

end Plan9
