import Plan9.Lib.Run
import Plan9.Venti.Clump
import Plan9.Venti.Dcache

/-!
# The arena: an append-only log

An arena is a stretch of a partition. Clumps are appended from its front; its
directory, one `ClumpInfo` for each clump, grows towards them from its end, in blocks
of `clumpMax` entries. `writeaclump` seals the arena when the next clump and the
directory with one more entry would not fit.

The sizes of the directory are computed in 32 bits (`arenadirsize`, `getcib`), so the
log is only kept as long as they fit. Up to there the clumps, their entries and the
trailer lie in different blocks, which is what `dirtydblock` asserts with the kind of a
dirty block; beyond, an entry may go to the block of the trailer, and the program stops.
Whether an entry could be written is not looked at either:

* `Plan9.Venti.LogHolds` – what an arena promises about the clumps it took;
* `Plan9.Venti.logHolds_append` – a write keeps the promise, if the directory is
  smaller than `2 ^ 32` bytes and the disk can be read;
* `Plan9.Venti.arena_log` – so does every run of such writes, with blocks flushed and
  bumped in between;
* `Plan9.Venti.directory_unread` – a clump is taken though the block of its entry cannot
  be read, and the entry is missing.
-/

namespace Plan9

namespace Venti

open Lib List Option

/-- `struct ATailStats`. -/
structure ATailStats where
  clumps : ℕ
  cclumps : ℕ
  used : ℕ
  uncsize : ℕ
  sealed : Bool
deriving DecidableEq

/-- `struct Arena`: where the arena lies, and the state of its log in memory. The block
size is a power of two that holds directory entries, and the arena consists of whole
blocks. -/
structure Arena where
  blocksize : ℕ
  base : ℕ
  size : ℕ
  clumpmagic : UInt32
  memstats : ATailStats
  pow_two : ∃ k, blocksize = 2 ^ k
  holds_info : clumpInfoSize ≤ blocksize
  base_dvd : blocksize ∣ base
  size_dvd : blocksize ∣ size

namespace Arena

variable (ar : Arena)

/-- `clumpmax`: directory entries in a block. -/
def clumpMax : ℕ := ar.blocksize / clumpInfoSize

/-- `arenadirsize`, in 32 bits. -/
def arenaDirSize (clumps : ℕ) : ℕ := (clumps / ar.clumpMax + 1) * ar.blocksize % 2 ^ 32

/-- The block of the directory that `getcib` fetches for a clump: an address computed
with a product in 32 bits. -/
def cibBlock (clump : ℕ) : ℕ :=
  ar.base + ar.size - (clump / ar.clumpMax + 1) * ar.blocksize % 2 ^ 32

/-- The offset of a clump's entry in its directory block. -/
def cibOffset (clump : ℕ) : ℕ := (clump - clump / ar.clumpMax * ar.clumpMax) * clumpInfoSize

/-- The loop of `writeaclump` that writes `bytes` to the offset `off` of the block at `a`
and to the blocks behind it. The first argument bounds the rounds. The result says
whether all blocks could be fetched. -/
def writeBlocks (readOk : ℕ → Bool) : ℕ → Dcache → ℕ → ℕ → List UInt8 → Bool × Dcache
  | 0, dc, _, _, _ => (true, dc)
  | k + 1, dc, a, off, bytes =>
    let m := min (ar.blocksize - off) bytes.length
    match dc.writeDBlock a (if off ≠ 0 then .ordwr else .owrite) readOk off (bytes.take m) with
    | none => (false, dc)
    | some dc =>
      if m = bytes.length then (true, dc)
      else writeBlocks readOk k dc (a + ar.blocksize) 0 (bytes.drop m)

/-- `writeclumpinfo`. -/
def writeClumpInfo (readOk : ℕ → Bool) (dc : Dcache) (clump : ℕ) (ci : ClumpInfo) :
    Option Dcache :=
  if clump ≥ ar.memstats.clumps then none
  else
    let mode : IOMode :=
      if ar.cibOffset clump = 0 ∧ clump = ar.memstats.clumps - 1 then .owrite else .ordwr
    dc.writeDBlock (ar.cibBlock clump) mode readOk (ar.cibOffset clump) (packClumpInfo ci)

/-- `wbarena`: write the trailer block. What is in it is a parameter. -/
def wbArena (dc : Dcache) (trailer : List UInt8) : Option Dcache :=
  dc.writeDBlock (ar.base + ar.size) .owrite (fun _ => true) 0 trailer

/-- The statistics behind a clump that was written. -/
def addClump (cl : Clump) : Arena :=
  { ar with
    memstats := {
      clumps := ar.memstats.clumps + 1
      cclumps :=
        if cl.info.size < cl.info.uncsize then ar.memstats.cclumps + 1 else ar.memstats.cclumps
      used := ar.memstats.used + cl.info.size.toNat + clumpSize
      uncsize := ar.memstats.uncsize + cl.info.uncsize.toNat
      sealed := ar.memstats.sealed } }

/-- `writeaclump`, for a clump with its data: the address in the arena, or `none` for
`TWID64`. Behind the data stand the four zeros `storeclump` put there. The outer
`none` is the exit of the program when the number of clumps wraps. The clump groups and
the times of the arena are left out. -/
def writeAClump (dc : Dcache) (cl : Clump) (data : List UInt8) (readOk : ℕ → Bool)
    (trailer : List UInt8) : Option (Option ℕ × Arena × Dcache) :=
  let n := cl.info.size.toNat + clumpSize + u32Size
  let aa := ar.memstats.used
  if ar.memstats.sealed ∨
      aa + n + u32Size + ar.arenaDirSize (ar.memstats.clumps + 1) > ar.size then
    if !ar.memstats.sealed then
      some (none, { ar with memstats := { ar.memstats with sealed := true } },
        (ar.wbArena dc trailer).getD dc)
    else some (none, ar, dc)
  else
    match packClump cl ar.clumpmagic with
    | .error _ => some (none, ar, dc)
    | .ok header =>
      let clbuf := header ++ data ++ [0, 0, 0, 0]
      let a := ar.base + aa
      let off := a &&& (ar.blocksize - 1)
      match ar.writeBlocks readOk n dc (a - off) off clbuf with
      | (false, dc) => some (none, ar, dc)
      | (true, dc) =>
        let clump := ar.memstats.clumps
        if (clump + 1) % 2 ^ 32 = 0 then none
        else
          let ar' := ar.addClump cl
          -- that the entry could not be written is not noticed
          let dc := (ar'.writeClumpInfo readOk dc clump cl.info).getD dc
          some (some aa, ar', (ar'.wbArena dc trailer).getD dc)

end Arena

/-! ### The log -/

/-- A clump the arena took: the address returned for it, the clump and its data. -/
structure LogEntry where
  addr : ℕ
  clump : Clump
  data : List UInt8

/-- Bytes of an entry in the arena. -/
def LogEntry.size (e : LogEntry) : ℕ := clumpSize + e.clump.info.size.toNat

/-- Where the entry `i` of a log starts: behind all earlier ones. -/
def startOf (log : List LogEntry) (i : ℕ) : ℕ := ((log.take i).map LogEntry.size).sum

/-- An arena, the cache of its partition, and the clumps it took so far. -/
structure ArenaState where
  arena : Arena
  dcache : Dcache
  log : List LogEntry

/-- What happens to an arena. -/
inductive ArenaOp
  /-- `writeaclump`. The disk can be read where `readOk` says so; `trailer` is what
  `wbarena` packs. -/
  | write (cl : Clump) (data : List UInt8) (readOk : ℕ → Bool) (trailer : List UInt8)
  /-- Some dirty blocks are flushed. -/
  | flush (sel : ℕ → Bool)
  /-- A clean block leaves the cache. -/
  | bump (addr : ℕ)

/-- The steps of an arena. A clump is written with as many bytes as it says. -/
inductive ArenaStep : ArenaState → ArenaOp → ArenaState → Prop
  | write {s : ArenaState} {cl : Clump} {data : List UInt8} {readOk : ℕ → Bool}
      {trailer : List UInt8} {r : Option ℕ} {ar : Arena} {dc : Dcache}
      (hdata : data.length = cl.info.size.toNat)
      (htrailer : trailer.length ≤ s.arena.blocksize)
      (h : s.arena.writeAClump s.dcache cl data readOk trailer = some (r, ar, dc)) :
      ArenaStep s (.write cl data readOk trailer)
        ⟨ar, dc, s.log ++ (r.map fun aa => ⟨aa, cl, data⟩).toList⟩
  | flush {s : ArenaState} (sel : ℕ → Bool) :
      ArenaStep s (.flush sel) { s with dcache := s.dcache.flush sel }
  | bump {s : ArenaState} (addr : ℕ) :
      ArenaStep s (.bump addr) { s with dcache := s.dcache.bump addr }

/-- The promise of an arena. -/
structure LogHolds (s : ArenaState) : Prop where
  coherent : s.dcache.Coherent
  blocksize_eq : s.dcache.blocksize = s.arena.blocksize
  /-- Every clump is counted, and has used its size. -/
  clumps_eq : s.arena.memstats.clumps = s.log.length
  used_eq : s.arena.memstats.used = startOf s.log s.log.length
  /-- The log and the free word behind it end in front of the directory. -/
  room : s.log ≠ [] → s.arena.memstats.used + u32Size +
    s.arena.arenaDirSize s.arena.memstats.clumps ≤ s.arena.size
  /-- Every clump starts behind the earlier ones, and its bytes are there. -/
  addr_eq : ∀ (i : ℕ) (e : LogEntry), s.log[i]? = some e → e.addr = startOf s.log i
  bytes_eq : ∀ e ∈ s.log, ∀ j < e.size, s.dcache.view (s.arena.base + e.addr + j) =
    (clumpHeader e.clump s.arena.clumpmagic ++ e.data).getD j 0
  /-- The word behind the log is `ClumpFreeMagic`. -/
  free : s.arena.size ≠ 0 → ∀ j < u32Size,
    s.dcache.view (s.arena.base + s.arena.memstats.used + j) = 0
  /-- The directory holds the entry of every clump. -/
  dir_eq : ∀ (i : ℕ) (e : LogEntry), s.log[i]? = some e → ∀ j < clumpInfoSize,
    s.dcache.view (s.arena.cibBlock i + s.arena.cibOffset i + j) =
      (packClumpInfo e.clump.info).getD j 0

/-- The calls that keep the promise: the block of the directory can be read, and the
directory stays below `2 ^ 32` bytes. -/
def WriteOk (s : ArenaState) : ArenaOp → Prop
  | .write _ _ readOk _ => readOk (s.arena.cibBlock s.arena.memstats.clumps) = true ∧
      ((s.arena.memstats.clumps + 1) / s.arena.clumpMax + 1) * s.arena.blocksize < 2 ^ 32
  | .flush _ => True
  | .bump _ => True

variable {i j k : ℕ} {dc : Dcache} {cl : Clump} {data trailer : List UInt8}

namespace Arena

variable {ar : Arena}

theorem blocksize_pos (ar : Arena) : 0 < ar.blocksize := lt_of_lt_of_le (by decide) ar.holds_info

theorem and_blocksize (ar : Arena) (a : ℕ) : a &&& (ar.blocksize - 1) = a % ar.blocksize := by
  obtain ⟨k, hk⟩ := ar.pow_two
  rw [hk, Nat.and_two_pow_sub_one_eq_mod]

/-! ### The directory -/

theorem clumpMax_pos (ar : Arena) : 0 < ar.clumpMax := Nat.div_pos ar.holds_info (by decide)

/-- Bytes of the directory for a number of clumps, computed without overflow. -/
def dirBytes (ar : Arena) (clumps : ℕ) : ℕ := (clumps / ar.clumpMax + 1) * ar.blocksize

theorem dirBytes_mono (h : i ≤ j) : ar.dirBytes i ≤ ar.dirBytes j :=
  Nat.mul_le_mul_right _ (Nat.succ_le_succ (Nat.div_le_div_right h))

theorem arenaDirSize_eq {clumps : ℕ} (h : ar.dirBytes clumps < 2 ^ 32) :
    ar.arenaDirSize clumps = ar.dirBytes clumps := Nat.mod_eq_of_lt h

theorem cibOffset_eq (ar : Arena) (i : ℕ) : ar.cibOffset i = i % ar.clumpMax * clumpInfoSize := by
  rw [cibOffset, Nat.mul_comm (i / ar.clumpMax)]
  congr 1
  have := Nat.div_add_mod i ar.clumpMax
  omega

/-- Entries lie within their block. -/
theorem cibOffset_add_le (ar : Arena) (i : ℕ) : ar.cibOffset i + clumpInfoSize ≤ ar.blocksize := by
  have hlt := Nat.mod_lt i ar.clumpMax_pos
  calc ar.cibOffset i + clumpInfoSize = (i % ar.clumpMax + 1) * clumpInfoSize := by
        rw [cibOffset_eq, Nat.succ_mul]
    _ ≤ ar.clumpMax * clumpInfoSize := Nat.mul_le_mul_right _ hlt
    _ ≤ ar.blocksize := Nat.div_mul_le_self _ _

/-- While the directory is below `2 ^ 32` bytes and fits the arena, the blocks of its
entries are blocks of the arena, counted from the end. -/
theorem cibBlock_spec (ar : Arena) {c : ℕ} (hi : i ≤ c) (h32 : ar.dirBytes c < 2 ^ 32)
    (hfit : ar.dirBytes c ≤ ar.size) :
    ar.blocksize ∣ ar.cibBlock i ∧ ar.base + ar.size = ar.cibBlock i + ar.dirBytes i ∧
      ar.base + ar.size ≤ ar.cibBlock i + ar.dirBytes c ∧
      ar.cibBlock i + ar.blocksize ≤ ar.base + ar.size := by
  have hmono := ar.dirBytes_mono hi
  have heq : ar.cibBlock i = ar.base + ar.size - ar.dirBytes i := by
    rw [cibBlock, Nat.mod_eq_of_lt]
    · rfl
    · exact lt_of_le_of_lt hmono h32
  have hblock : ar.blocksize ≤ ar.dirBytes i := Nat.le_mul_of_pos_left _ (Nat.succ_pos _)
  refine ⟨?_, by omega, by omega, by omega⟩
  rw [heq]
  exact Nat.dvd_sub (Nat.dvd_add ar.base_dvd ar.size_dvd) (Nat.dvd_mul_left _ _)

/-- A later entry lies in an earlier block, or behind in the same one. -/
theorem cib_lt (hij : i < j) (h32 : ar.dirBytes j < 2 ^ 32) (hfit : ar.dirBytes j ≤ ar.size) :
    (ar.cibOffset j ≠ 0 ∧ ar.cibBlock i = ar.cibBlock j ∧
        ar.cibOffset i + clumpInfoSize ≤ ar.cibOffset j) ∨
      ar.cibBlock j + ar.blocksize ≤ ar.cibBlock i := by
  obtain ⟨-, hi, -⟩ := ar.cibBlock_spec hij.le h32 hfit
  obtain ⟨-, hj, -⟩ := ar.cibBlock_spec le_rfl h32 hfit
  rcases Nat.lt_or_ge (i / ar.clumpMax) (j / ar.clumpMax) with hlt | hge
  · right
    have : ar.dirBytes i + ar.blocksize ≤ ar.dirBytes j := by
      rw [dirBytes, dirBytes, ← Nat.succ_mul]
      exact Nat.mul_le_mul_right _ (Nat.succ_le_succ hlt)
    omega
  · left
    have hdiv : i / ar.clumpMax = j / ar.clumpMax := le_antisymm (Nat.div_le_div_right hij.le) hge
    have hmod : i % ar.clumpMax + 1 ≤ j % ar.clumpMax := by
      have h1 := Nat.div_add_mod i ar.clumpMax
      have h2 := Nat.div_add_mod j ar.clumpMax
      rw [hdiv] at h1
      omega
    have hoff : ar.cibOffset i + clumpInfoSize ≤ ar.cibOffset j := by
      rw [cibOffset_eq, cibOffset_eq, ← Nat.succ_mul]
      exact Nat.mul_le_mul_right _ hmod
    have hpos : 0 < clumpInfoSize := by decide
    refine ⟨by omega, ?_, hoff⟩
    rw [cibBlock, cibBlock, hdiv]

/-! ### Writing blocks -/

theorem sub_mod_eq (a b : ℕ) : a - a % b = a / b * b := by
  have := Nat.div_add_mod a b
  rw [Nat.mul_comm] at this
  omega

/-- What the loop over the blocks does to the view: the bytes are there, and nothing has
changed in front of them, or from the next block boundary on. -/
structure BlocksSpec (ar : Arena) (dc dc' : Dcache) (at' : ℕ) (bytes : List UInt8) : Prop where
  coherent : dc'.Coherent
  blocksize_eq : dc'.blocksize = dc.blocksize
  written : ∀ j < bytes.length, dc'.view (at' + j) = bytes.getD j 0
  before : ∀ x < at', dc'.view x = dc.view x
  behind : ∀ b x, ar.blocksize ∣ b → at' + bytes.length ≤ b → b ≤ x → dc'.view x = dc.view x

variable {readOk : ℕ → Bool}

/-- **The loop of `writeaclump`** writes all bytes once it has the first block: it does
not read the others. -/
theorem writeBlocks_spec (ar : Arena) (hc : dc.Coherent) (hbs : dc.blocksize = ar.blocksize)
    (k a off : ℕ) (bytes : List UInt8) (ha : ar.blocksize ∣ a) (hoff : off < ar.blocksize)
    (hne : bytes ≠ []) (hk : bytes.length ≤ k)
    (hok : (dc.getDBlock a (if off ≠ 0 then .ordwr else .owrite) readOk).isSome) :
    ∃ dc', ar.writeBlocks readOk k dc a off bytes = (true, dc') ∧
      BlocksSpec ar dc dc' (a + off) bytes := by
  have hpos : 0 < bytes.length := length_pos_of_ne_nil hne
  induction k generalizing dc a off bytes with
  | zero => omega
  | succ k ih =>
    generalize hm : min (ar.blocksize - off) bytes.length = m
    have hlen : (bytes.take m).length = m := by
      rw [length_take]
      omega
    obtain ⟨dc₁, hwrite, hspec⟩ := Dcache.writeDBlock_spec hc a off
      (if off ≠ 0 then .ordwr else .owrite) readOk (bytes.take m)
      (by rw [hbs]; exact ha) (by rw [hlen, hbs]; omega) hok
    have hbs₁ : dc₁.blocksize = ar.blocksize := hspec.blocksize_eq.trans hbs
    have hfirst : ∀ j < m, dc₁.view (a + off + j) = bytes.getD j 0 := by
      intro j hj
      rw [hspec.written j (by omega), List.getD_eq_getElem?_getD, List.getD_eq_getElem?_getD,
        List.getElem?_take_of_lt hj]
    have hbefore : ∀ x < a + off, dc₁.view x = dc.view x := by
      intro x hx
      by_cases h0 : off = 0
      · exact hspec.outside x (.inl (by omega))
      · exact hspec.kept (by rw [if_pos h0]; decide) x (.inl hx)
    rw [writeBlocks]
    simp only [hm, hwrite]
    by_cases hlast : m = bytes.length
    · rw [if_pos hlast]
      refine ⟨dc₁, rfl, hspec.coherent, hspec.blocksize_eq, ?_, hbefore, ?_⟩
      · rw [← hlast]
        exact hfirst
      · intro b x hb hle hx
        refine hspec.outside x (.inr ?_)
        -- the next boundary behind the bytes is the end of the block
        rw [hbs]
        have : a + ar.blocksize ≤ b := by
          by_contra hlt
          obtain ⟨q, rfl⟩ := ha
          obtain ⟨r, rfl⟩ := hb
          have h1 : ar.blocksize * q < ar.blocksize * r := by omega
          have h2 := Nat.lt_of_mul_lt_mul_left h1
          have h3 : ar.blocksize * (q + 1) ≤ ar.blocksize * r := Nat.mul_le_mul_left _ h2
          rw [Nat.mul_succ] at h3
          omega
        omega
    · rw [if_neg hlast]
      have hblock : m = ar.blocksize - off := by omega
      have hrest : (bytes.drop m).length = bytes.length - m := length_drop
      obtain ⟨dc', hloop, hspec'⟩ := ih hspec.coherent hbs₁ (a + ar.blocksize) 0
        (bytes.drop m) (Nat.dvd_add ha (Nat.dvd_refl _))
        ar.blocksize_pos (fun h => by rw [h, length_nil] at hrest; omega) (by omega)
        (Dcache.getDBlock_isSome (.inl rfl)) (by omega)
      have hstart : a + ar.blocksize + 0 = a + off + m := by omega
      rw [hstart] at hspec'
      refine ⟨dc', hloop, hspec'.coherent, hspec'.blocksize_eq.trans hspec.blocksize_eq, ?_, ?_, ?_⟩
      · intro j hj
        rcases Nat.lt_or_ge j m with hlt | hge
        · rw [hspec'.before _ (by omega), hfirst j hlt]
        · have := hspec'.written (j - m) (by omega)
          rw [show a + off + m + (j - m) = a + off + j by omega] at this
          rw [this, List.getD_eq_getElem?_getD, List.getD_eq_getElem?_getD, List.getElem?_drop,
            show m + (j - m) = j by omega]
      · intro x hx
        rw [hspec'.before x (by omega), hbefore x hx]
      · intro b x hb hle hx
        rw [hspec'.behind b x hb (by omega) hx]
        exact hspec.outside x (.inr (by rw [hbs]; omega))

/-- The first block of the next clump cannot be read. -/
theorem writeBlocks_fail (ar : Arena) {a off : ℕ} (bytes : List UInt8) (hk : 0 < k)
    (h : dc.getDBlock a (if off ≠ 0 then .ordwr else .owrite) readOk = none) :
    ar.writeBlocks readOk k dc a off bytes = (false, dc) := by
  cases k with
  | zero => omega
  | succ k => rw [writeBlocks, Dcache.writeDBlock, h]; rfl

/-- **A call that takes the clump**: the clump goes behind the log, its entry to the
directory and the statistics to the trailer. -/
theorem writeAClump_take (ar : Arena) (cl : Clump) (data trailer : List UInt8) (readOk : ℕ → Bool)
    (hc : dc.Coherent) (hbs : dc.blocksize = ar.blocksize)
    (htrailer : trailer.length ≤ ar.blocksize) (hsealed : ar.memstats.sealed = false)
    (hroom : ar.memstats.used + (cl.info.size.toNat + clumpSize + u32Size) + u32Size +
      ar.arenaDirSize (ar.memstats.clumps + 1) ≤ ar.size) (hcheck : checkClump cl = .ok ())
    (hwrap : (ar.memstats.clumps + 1) % 2 ^ 32 ≠ 0) (hdata : data.length = cl.info.size.toNat)
    (hdvd : ar.blocksize ∣ ar.cibBlock ar.memstats.clumps)
    (hfirst : (dc.getDBlock ((ar.base + ar.memstats.used) / ar.blocksize * ar.blocksize)
      (if (ar.base + ar.memstats.used) % ar.blocksize ≠ 0 then .ordwr else .owrite)
      readOk).isSome) (hentry : readOk (ar.cibBlock ar.memstats.clumps) = true) :
    ∃ dc₁ dc₂ dc₃,
      ar.writeAClump dc cl data readOk trailer = some (some ar.memstats.used, ar.addClump cl, dc₃) ∧
      BlocksSpec ar dc dc₁ (ar.base + ar.memstats.used)
        (clumpHeader cl ar.clumpmagic ++ data ++ [0, 0, 0, 0]) ∧
      Dcache.WriteSpec dc₁ dc₂ (ar.cibBlock ar.memstats.clumps)
        (if ar.cibOffset ar.memstats.clumps = 0 then .owrite else .ordwr)
        (ar.cibOffset ar.memstats.clumps) (packClumpInfo cl.info) ∧
      Dcache.WriteSpec dc₂ dc₃ (ar.base + ar.size) .owrite 0 trailer := by
  have hpack : packClump cl ar.clumpmagic = .ok (clumpHeader cl ar.clumpmagic) :=
    packClump_eq_ok.2 ⟨hcheck, rfl⟩
  have hlen : (clumpHeader cl ar.clumpmagic ++ data ++ [0, 0, 0, 0]).length =
      cl.info.size.toNat + clumpSize + u32Size := by
    simp only [length_append, length_clumpHeader, hdata, length_cons, length_nil, u32Size]
    omega
  generalize hclbuf : clumpHeader cl ar.clumpmagic ++ data ++ [0, 0, 0, 0] = clbuf at hlen
  have hpos := ar.blocksize_pos
  have hmod : (ar.base + ar.memstats.used) &&& (ar.blocksize - 1) =
      (ar.base + ar.memstats.used) % ar.blocksize := ar.and_blocksize _
  have hmodle := Nat.mod_le (ar.base + ar.memstats.used) ar.blocksize
  have hstart := sub_mod_eq (ar.base + ar.memstats.used) ar.blocksize
  obtain ⟨dc₁, hblocks, hspec₁⟩ :=
    ar.writeBlocks_spec hc hbs (cl.info.size.toNat + clumpSize + u32Size)
    _ _ clbuf (Nat.dvd_sub_mod (n := ar.blocksize) (ar.base + ar.memstats.used))
    (Nat.mod_lt _ hpos) (fun h => by rw [h, length_nil, u32Size] at hlen; omega) hlen.le
    (by rw [hstart]; exact hfirst)
  rw [Nat.sub_add_cancel hmodle] at hspec₁
  have hbs₁ : dc₁.blocksize = ar.blocksize := hspec₁.blocksize_eq.trans hbs
  obtain ⟨dc₂, hinfo, hspec₂⟩ := Dcache.writeDBlock_spec hspec₁.coherent
    (ar.cibBlock ar.memstats.clumps) (ar.cibOffset ar.memstats.clumps)
    (if ar.cibOffset ar.memstats.clumps = 0 then .owrite else .ordwr) readOk
    (packClumpInfo cl.info) (by rw [hbs₁]; exact hdvd)
    (by rw [length_packClumpInfo, hbs₁]; exact ar.cibOffset_add_le _)
    (Dcache.getDBlock_isSome (.inr hentry))
  obtain ⟨dc₃, hwb, hspec₃⟩ := Dcache.writeDBlock_spec hspec₂.coherent (ar.base + ar.size) 0
    .owrite (fun _ => true) trailer
    (by rw [hspec₂.blocksize_eq, hbs₁]; exact Nat.dvd_add ar.base_dvd ar.size_dvd)
    (by rw [hspec₂.blocksize_eq, hbs₁, Nat.zero_add]; exact htrailer)
    (Dcache.getDBlock_isSome (.inl rfl))
  refine ⟨dc₁, dc₂, dc₃, ?_, hspec₁, hspec₂, hspec₃⟩
  have hgo : ¬(ar.memstats.sealed = true ∨
      ar.memstats.used + (cl.info.size.toNat + clumpSize + u32Size) + u32Size +
        ar.arenaDirSize (ar.memstats.clumps + 1) > ar.size) := by
    rw [hsealed]
    simp only [Bool.false_eq_true, false_or]
    omega
  have hdir : (ar.addClump cl).writeClumpInfo readOk dc₁ ar.memstats.clumps cl.info = some dc₂ := by
    have hnot : ¬ar.memstats.clumps ≥ (ar.addClump cl).memstats.clumps :=
      Nat.not_le.2 (Nat.lt_succ_self _)
    rw [writeClumpInfo, if_neg hnot, ← hinfo]
    have hlast : (ar.addClump cl).cibOffset ar.memstats.clumps = 0 ∧
        ar.memstats.clumps = (ar.addClump cl).memstats.clumps - 1 ↔
          ar.cibOffset ar.memstats.clumps = 0 := ⟨fun h => h.1, fun h => ⟨h, rfl⟩⟩
    simp only [hlast]
    rfl
  have htail : (ar.addClump cl).wbArena dc₂ trailer = some dc₃ := hwb
  simp only [writeAClump, if_neg hgo, hpack, hmod, hclbuf, hblocks, if_neg hwrap, hdir,
    getD_some, htail]

/-- The arena with another `sealed`. -/
def withSealed (ar : Arena) (b : Bool) : Arena :=
  { ar with memstats := { ar.memstats with sealed := b } }

/-- What a call takes for granted about its clump and the directory. -/
structure Call (ar : Arena) (dc : Dcache) (cl : Clump) (data : List UInt8)
    (readOk : ℕ → Bool) (trailer : List UInt8) : Prop where
  coherent : dc.Coherent
  blocksize_eq : dc.blocksize = ar.blocksize
  data_eq : data.length = cl.info.size.toNat
  trailer_le : trailer.length ≤ ar.blocksize
  readOk : readOk (ar.cibBlock ar.memstats.clumps) = true
  dir_lt : ar.dirBytes (ar.memstats.clumps + 1) < 2 ^ 32

theorem Call.wrap (h : Call ar dc cl data readOk trailer) :
    (ar.memstats.clumps + 1) % 2 ^ 32 ≠ 0 := by
  have hlt : ar.memstats.clumps + 1 < ar.dirBytes (ar.memstats.clumps + 1) := by
    calc ar.memstats.clumps + 1
        < ((ar.memstats.clumps + 1) / ar.clumpMax + 1) * ar.clumpMax := by
          rw [Nat.succ_mul]
          exact Nat.lt_div_mul_add ar.clumpMax_pos
      _ ≤ ar.dirBytes (ar.memstats.clumps + 1) := Nat.mul_le_mul_left _ (Nat.div_le_self _ _)
  rw [Nat.mod_eq_of_lt (hlt.trans h.dir_lt)]
  exact Nat.succ_ne_zero _

/-- **What `writeaclump` does**: nothing, seal the arena, or take the clump. -/
theorem writeAClump_cases {dc' : Dcache} {r : Option ℕ} {ar' : Arena}
    (hcall : Call ar dc cl data readOk trailer)
    (h : ar.writeAClump dc cl data readOk trailer = some (r, ar', dc')) :
    (r = none ∧ ar' = ar ∧ dc' = dc) ∨
    (r = none ∧ ar.memstats.sealed = false ∧ ar' = ar.withSealed true ∧
      Dcache.WriteSpec dc dc' (ar.base + ar.size) .owrite 0 trailer) ∨
    (r = some ar.memstats.used ∧ ar.memstats.sealed = false ∧ ar' = ar.addClump cl ∧
      ar.memstats.used + (cl.info.size.toNat + clumpSize + u32Size) + u32Size +
        ar.dirBytes (ar.memstats.clumps + 1) ≤ ar.size ∧
      ∃ dc₁ dc₂, BlocksSpec ar dc dc₁ (ar.base + ar.memstats.used)
          (clumpHeader cl ar.clumpmagic ++ data ++ [0, 0, 0, 0]) ∧
        Dcache.WriteSpec dc₁ dc₂ (ar.cibBlock ar.memstats.clumps)
          (if ar.cibOffset ar.memstats.clumps = 0 then .owrite else .ordwr)
          (ar.cibOffset ar.memstats.clumps) (packClumpInfo cl.info) ∧
        Dcache.WriteSpec dc₂ dc' (ar.base + ar.size) .owrite 0 trailer) := by
  cases hsealed : ar.memstats.sealed with
  | true =>
    left
    simp only [writeAClump, hsealed, true_or, if_true, Bool.not_true, Bool.false_eq_true,
      if_false, some.injEq, Prod.mk.injEq] at h
    exact ⟨h.1.symm, h.2.1.symm, h.2.2.symm⟩
  | false =>
    by_cases hroom : ar.memstats.used + (cl.info.size.toNat + clumpSize + u32Size) + u32Size +
        ar.arenaDirSize (ar.memstats.clumps + 1) > ar.size
    · right; left
      obtain ⟨dc₁, hwb, hspec⟩ := Dcache.writeDBlock_spec hcall.coherent (ar.base + ar.size) 0
        .owrite (fun _ => true) trailer
        (by rw [hcall.blocksize_eq]; exact Nat.dvd_add ar.base_dvd ar.size_dvd)
        (by rw [hcall.blocksize_eq, Nat.zero_add]; exact hcall.trailer_le)
        (Dcache.getDBlock_isSome (.inl rfl))
      have hwb' : ar.wbArena dc trailer = some dc₁ := hwb
      simp only [writeAClump, hsealed, hroom, or_true, if_true, Bool.not_false, hwb',
        getD_some, some.injEq, Prod.mk.injEq] at h
      obtain ⟨hr, har, hdc⟩ := h
      exact ⟨hr.symm, rfl, har.symm, hdc ▸ hspec⟩
    · have hgo : ¬(ar.memstats.sealed = true ∨
          ar.memstats.used + (cl.info.size.toNat + clumpSize + u32Size) + u32Size +
            ar.arenaDirSize (ar.memstats.clumps + 1) > ar.size) := by
        rintro (hs | hs)
        · rw [hsealed] at hs
          exact absurd hs (by decide)
        · exact hroom hs
      rcases hcheck : checkClump cl with e | ⟨⟨⟩⟩
      · left
        have hpack : packClump cl ar.clumpmagic = .error e := by rw [packClump, hcheck]; rfl
        simp only [writeAClump, if_neg hgo, hpack, some.injEq, Prod.mk.injEq] at h
        exact ⟨h.1.symm, h.2.1.symm, h.2.2.symm⟩
      · have hpack : packClump cl ar.clumpmagic = .ok (clumpHeader cl ar.clumpmagic) :=
          packClump_eq_ok.2 ⟨hcheck, rfl⟩
        rcases hfirst : dc.getDBlock
            ((ar.base + ar.memstats.used) / ar.blocksize * ar.blocksize)
            (if (ar.base + ar.memstats.used) % ar.blocksize ≠ 0 then .ordwr else .owrite)
            readOk with _ | b
        · left
          rw [← sub_mod_eq] at hfirst
          have hfail := ar.writeBlocks_fail (k := cl.info.size.toNat + clumpSize + u32Size)
            (clumpHeader cl ar.clumpmagic ++ data ++ [0, 0, 0, 0])
            (Nat.succ_pos _) hfirst
          simp only [writeAClump, if_neg hgo, hpack, and_blocksize, hfail,
            some.injEq, Prod.mk.injEq] at h
          exact ⟨h.1.symm, h.2.1.symm, h.2.2.symm⟩
        · right; right
          have hdir := arenaDirSize_eq hcall.dir_lt
          rw [hdir] at hroom
          have hfit : ar.dirBytes (ar.memstats.clumps + 1) ≤ ar.size := by omega
          have hdvd := (ar.cibBlock_spec (Nat.le_succ ar.memstats.clumps) hcall.dir_lt hfit).1
          obtain ⟨dc₁, dc₂, dc₃, htake, hspec₁, hspec₂, hspec₃⟩ := ar.writeAClump_take cl data
            trailer readOk hcall.coherent hcall.blocksize_eq hcall.trailer_le hsealed
            (by rw [hdir]; omega) hcheck hcall.wrap hcall.data_eq hdvd (by rw [hfirst]; rfl)
            hcall.readOk
          rw [htake] at h
          simp only [some.injEq, Prod.mk.injEq] at h
          obtain ⟨hr, har, hdc⟩ := h
          exact ⟨hr.symm, rfl, har.symm, by omega, dc₁, dc₂, hspec₁, hspec₂, hdc ▸ hspec₃⟩

end Arena

/-! ### The promise is kept -/

theorem startOf_concat {log : List LogEntry} (e : LogEntry) (h : i ≤ log.length) :
    startOf (log ++ [e]) i = startOf log i := by
  rw [startOf, startOf, take_append_of_le_length h]

theorem startOf_succ {log : List LogEntry} {e : LogEntry} (h : log[i]? = some e) :
    startOf log (i + 1) = startOf log i + e.size := by
  have htake : log.take (i + 1) = log.take i ++ [e] := by
    rw [take_add_one, h]
    rfl
  rw [startOf, htake, map_append, sum_append]
  simp [startOf]

theorem startOf_mono (log : List LogEntry) (h : i ≤ j) : startOf log i ≤ startOf log j := by
  have hprefix : log.take i <+: log.take j := take_prefix_take_left h
  obtain ⟨rest, hrest⟩ := hprefix
  rw [startOf, startOf, ← hrest, map_append, sum_append]
  omega

variable {s : ArenaState}

/-- Every entry lies below the end of the log. -/
theorem LogHolds.end_le (h : LogHolds s) {e : LogEntry} (he : s.log[i]? = some e) :
    e.addr + e.size ≤ s.arena.memstats.used := by
  have hlt : i < s.log.length := (List.getElem?_eq_some_iff.1 he).1
  rw [h.addr_eq i e he, h.used_eq, ← startOf_succ he]
  exact startOf_mono s.log hlt

/-- The log ends within the arena. -/
theorem LogHolds.used_le (h : LogHolds s) : s.arena.memstats.used ≤ s.arena.size := by
  by_cases hlog : s.log = []
  · rw [h.used_eq, hlog]
    exact Nat.zero_le _
  · have := h.room hlog
    omega

/-- The free word is within the arena. -/
theorem LogHolds.free_le (h : LogHolds s) (hsize : s.arena.size ≠ 0) :
    s.arena.memstats.used + u32Size ≤ s.arena.size := by
  by_cases hlog : s.log = []
  · rw [h.used_eq, hlog]
    calc 0 + u32Size ≤ clumpInfoSize := by decide
      _ ≤ s.arena.blocksize := s.arena.holds_info
      _ ≤ s.arena.size := Nat.le_of_dvd (Nat.pos_of_ne_zero hsize) s.arena.size_dvd
  · have := h.room hlog
    omega

/-- The directory slots of an arena, while it is below `2 ^ 32` bytes, are in the arena. -/
theorem LogHolds.slot_bounds (h : LogHolds s)
    (h32 : s.arena.dirBytes s.arena.memstats.clumps < 2 ^ 32) (hi : i < s.log.length) :
    s.arena.base ≤ s.arena.cibBlock i + s.arena.cibOffset i ∧
      s.arena.cibBlock i + s.arena.cibOffset i + clumpInfoSize ≤ s.arena.base + s.arena.size := by
  have hne : s.log ≠ [] := ne_nil_of_length_pos (by omega)
  have hroom := h.room hne
  rw [Arena.arenaDirSize_eq h32] at hroom
  obtain ⟨-, -, hle, hend⟩ := s.arena.cibBlock_spec
    (show i ≤ s.arena.memstats.clumps by rw [h.clumps_eq]; exact hi.le) h32 (by omega)
  have hoff := s.arena.cibOffset_add_le i
  omega

variable {t : ArenaState}

/-- The promise depends on the bytes of the arena and the directory alone, and not on
whether the arena is sealed. -/
theorem LogHolds.of_view (h : LogHolds s) (b : Bool) (harena : t.arena = s.arena.withSealed b)
    (hlog : t.log = s.log) (hc : t.dcache.Coherent) (hbs : t.dcache.blocksize = s.dcache.blocksize)
    (hview : ∀ x, s.arena.base ≤ x → x < s.arena.base + s.arena.size →
      t.dcache.view x = s.dcache.view x) (hdir : ∀ i < s.log.length, ∀ j < clumpInfoSize,
      t.dcache.view (s.arena.cibBlock i + s.arena.cibOffset i + j) =
        s.dcache.view (s.arena.cibBlock i + s.arena.cibOffset i + j)) : LogHolds t := by
  obtain ⟨ar, dc, log⟩ := t
  obtain rfl : ar = s.arena.withSealed b := harena
  obtain rfl : log = s.log := hlog
  refine ⟨hc, hbs.trans h.blocksize_eq, h.clumps_eq, h.used_eq, h.room, h.addr_eq, ?_, ?_, ?_⟩
  · intro e he j hj
    obtain ⟨i, hi⟩ := List.getElem?_of_mem he
    have hend := h.end_le hi
    have hused := h.used_le
    exact (hview (s.arena.base + e.addr + j) (by omega) (by omega)).trans (h.bytes_eq e he j hj)
  · intro hsize j hj
    have hfree := h.free_le hsize
    exact (hview (s.arena.base + s.arena.memstats.used + j) (by omega) (by omega)).trans
      (h.free hsize j hj)
  · intro i e he j hj
    exact (hdir i (List.getElem?_eq_some_iff.1 he).1 j hj).trans (h.dir_eq i e he j hj)

/-- Flushing and bumping blocks, and writing behind the arena, keep the promise. -/
theorem LogHolds.of_view_eq (h : LogHolds s) (hc : dc.Coherent)
    (hbs : dc.blocksize = s.dcache.blocksize) (hview : ∀ x, dc.view x = s.dcache.view x) :
    LogHolds { s with dcache := dc } :=
  h.of_view s.arena.memstats.sealed rfl rfl hc hbs (fun x _ _ => hview x)
    fun _ _ _ _ => hview _

/-- **A clump that was taken** keeps the promise of the arena, and the bytes of the log
before it. -/
theorem logHolds_append {dc₁ dc₂ dc₃ : Dcache} (h : LogHolds s)
    (hdata : data.length = cl.info.size.toNat)
    (h32 : s.arena.dirBytes (s.arena.memstats.clumps + 1) < 2 ^ 32)
    (hroom : s.arena.memstats.used + (cl.info.size.toNat + clumpSize + u32Size) + u32Size +
      s.arena.dirBytes (s.arena.memstats.clumps + 1) ≤ s.arena.size)
    (h₁ : Arena.BlocksSpec s.arena s.dcache dc₁ (s.arena.base + s.arena.memstats.used)
      (clumpHeader cl s.arena.clumpmagic ++ data ++ [0, 0, 0, 0]))
    (h₂ : Dcache.WriteSpec dc₁ dc₂ (s.arena.cibBlock s.arena.memstats.clumps)
      (if s.arena.cibOffset s.arena.memstats.clumps = 0 then .owrite else .ordwr)
      (s.arena.cibOffset s.arena.memstats.clumps) (packClumpInfo cl.info))
    (h₃ : Dcache.WriteSpec dc₂ dc₃ (s.arena.base + s.arena.size) .owrite 0 trailer) :
    LogHolds ⟨s.arena.addClump cl, dc₃, s.log ++ [⟨s.arena.memstats.used, cl, data⟩]⟩ ∧
      ∀ x < s.arena.memstats.used,
        dc₃.view (s.arena.base + x) = s.dcache.view (s.arena.base + x) := by
  generalize hc : s.arena.memstats.clumps = c at h32 hroom h₂
  generalize hu : s.arena.memstats.used = u at hroom h₁
  have hclumps : c = s.log.length := hc.symm.trans h.clumps_eq
  have hbs₁ : dc₁.blocksize = s.arena.blocksize := h₁.blocksize_eq.trans h.blocksize_eq
  have hlen : (clumpHeader cl s.arena.clumpmagic ++ data).length =
      clumpSize + cl.info.size.toNat := by
    rw [length_append, length_clumpHeader, hdata]
  have hbuf : (clumpHeader cl s.arena.clumpmagic ++ data ++ [0, 0, 0, 0]).length =
      clumpSize + cl.info.size.toNat + u32Size := by
    rw [length_append, hlen]
    rfl
  have hfit : s.arena.dirBytes (c + 1) ≤ s.arena.size := by omega
  have hcc : c ≤ c + 1 := Nat.le_succ c
  obtain ⟨hdvd, -, hlow, hhigh⟩ := s.arena.cibBlock_spec hcc h32 hfit
  have hsucc := s.arena.dirBytes_mono hcc
  -- the log with its free word ends in front of the directory
  have hgap : s.arena.base + u + (clumpSize + cl.info.size.toNat + u32Size) ≤
      s.arena.cibBlock c := by omega
  -- the trailer is behind the arena, the directory block behind the log
  have hlog : ∀ x < s.arena.base + u + (clumpSize + cl.info.size.toNat + u32Size),
      dc₃.view x = dc₁.view x := by
    intro x hx
    rw [h₃.outside x (.inl (by omega)), h₂.outside x (.inl (by omega))]
  have hold : ∀ x < u, dc₃.view (s.arena.base + x) = s.dcache.view (s.arena.base + x) := by
    intro x hx
    rw [hlog _ (by omega), h₁.before _ (by omega)]
  have hused : (s.arena.addClump cl).memstats.used = u + (clumpSize + cl.info.size.toNat) := by
    rw [← hu]
    simp only [Arena.addClump]
    omega
  refine ⟨⟨h₃.coherent, ?_, ?_, ?_, ?_, ?_, ?_, ?_, ?_⟩, hold⟩
  · exact h₃.blocksize_eq.trans (h₂.blocksize_eq.trans hbs₁)
  · rw [length_append, ← hclumps, ← hc]
    rfl
  · rw [hused, length_append, length_singleton,
      startOf_succ (e := ⟨u, cl, data⟩) (by simp), startOf_concat _ le_rfl, ← hu, h.used_eq]
    rfl
  · intro _
    change (s.arena.addClump cl).memstats.used + u32Size +
      s.arena.arenaDirSize (s.arena.memstats.clumps + 1) ≤ s.arena.size
    rw [hused, hc, Arena.arenaDirSize_eq h32]
    omega
  · intro i e he
    rcases Nat.lt_or_ge i s.log.length with hlt | hge
    · rw [List.getElem?_append_left hlt] at he
      rw [h.addr_eq i e he, startOf_concat _ hlt.le]
    · rw [List.getElem?_append_right hge] at he
      obtain ⟨hi, rfl⟩ := List.getElem?_eq_some_iff.1 he
      have hi0 : i = s.log.length := by
        rw [length_singleton] at hi
        omega
      subst hi0
      simp only [getElem_singleton]
      rw [startOf_concat _ le_rfl, ← hu, h.used_eq]
  · intro e he j hj
    rcases mem_append.1 he with he | he
    · obtain ⟨i, hi⟩ := List.getElem?_of_mem he
      have hend := h.end_le hi
      have heq := hold (e.addr + j) (by omega)
      rw [← Nat.add_assoc] at heq
      exact heq.trans (h.bytes_eq e he j hj)
    · obtain rfl := mem_singleton.1 he
      have hj' : j < clumpSize + cl.info.size.toNat := hj
      change dc₃.view (s.arena.base + u + j) = _
      rw [hlog _ (by omega), h₁.written j (by omega), List.getD_eq_getElem?_getD,
        List.getElem?_append_left (by omega), ← List.getD_eq_getElem?_getD]
      rfl
  · intro _ j hj
    change dc₃.view (s.arena.base + (s.arena.addClump cl).memstats.used + j) = 0
    have hw := h₁.written (clumpSize + cl.info.size.toNat + j) (by omega)
    rw [hused, show s.arena.base + (u + (clumpSize + cl.info.size.toNat)) + j =
      s.arena.base + u + (clumpSize + cl.info.size.toNat + j) by omega, hlog _ (by omega), hw,
      getD_append_right _ _ _ _ (by omega), hlen]
    have hj4 : j < 4 := hj
    interval_cases j <;> simp
  · intro i e he j hj
    change dc₃.view (s.arena.cibBlock i + s.arena.cibOffset i + j) = _
    have hoff := s.arena.cibOffset_add_le i
    rcases Nat.lt_or_ge i s.log.length with hlt | hge
    · rw [List.getElem?_append_left hlt] at he
      obtain ⟨-, -, -, hend⟩ := s.arena.cibBlock_spec
        (show i ≤ c + 1 by omega) h32 hfit
      have hic : i < c := by omega
      have hbefore := Arena.cib_lt hic (lt_of_le_of_lt hsucc h32) (hsucc.trans hfit)
      -- the slot was not touched by any of the three writes
      have hslot₂ : dc₂.view (s.arena.cibBlock i + s.arena.cibOffset i + j) =
          dc₁.view (s.arena.cibBlock i + s.arena.cibOffset i + j) := by
        rcases hbefore with ⟨hne, hblock, hle⟩ | hge
        · exact h₂.kept (by rw [if_neg hne]; decide) _ (.inl (by omega))
        · exact h₂.outside _ (.inr (by omega))
      have hslot₁ : s.arena.cibBlock c ≤ s.arena.cibBlock i + s.arena.cibOffset i + j := by
        omega
      rw [h₃.outside _ (.inl (by omega)), hslot₂, h₁.behind _ _ hdvd (by omega) hslot₁]
      exact h.dir_eq i e he j hj
    · rw [List.getElem?_append_right hge] at he
      obtain ⟨hi, rfl⟩ := List.getElem?_eq_some_iff.1 he
      have hi0 : i = c := by
        rw [length_singleton] at hi
        omega
      subst hi0
      simp only [getElem_singleton]
      rw [h₃.outside _ (.inl (by omega)), h₂.written j (by rwa [length_packClumpInfo])]

/-- What a later state keeps of an earlier one: the log grows at its end and its bytes
stay; once sealed, nothing changes. -/
structure Extends (s t : ArenaState) : Prop where
  base_eq : t.arena.base = s.arena.base
  used_le : s.arena.memstats.used ≤ t.arena.memstats.used
  log_prefix : s.log <+: t.log
  kept : ∀ x < s.arena.memstats.used,
    t.dcache.view (s.arena.base + x) = s.dcache.view (s.arena.base + x)
  sealed : s.arena.memstats.sealed = true →
    t.arena = s.arena ∧ t.log = s.log ∧ ∀ x, t.dcache.view x = s.dcache.view x

theorem Extends.refl (s : ArenaState) : Extends s s :=
  ⟨rfl, le_rfl, prefix_refl _, fun _ _ => rfl, fun _ => ⟨rfl, rfl, fun _ => rfl⟩⟩

theorem Extends.trans {u : ArenaState} (h₁ : Extends s t) (h₂ : Extends t u) : Extends s u where
  base_eq := h₂.base_eq.trans h₁.base_eq
  used_le := h₁.used_le.trans h₂.used_le
  log_prefix := h₁.log_prefix.trans h₂.log_prefix
  kept x hx := by
    have h := h₂.kept x (lt_of_lt_of_le hx h₁.used_le)
    rw [h₁.base_eq] at h
    exact h.trans (h₁.kept x hx)
  sealed hs := by
    obtain ⟨har, hlog, hview⟩ := h₁.sealed hs
    obtain ⟨har', hlog', hview'⟩ := h₂.sealed (by rw [har]; exact hs)
    exact ⟨har'.trans har, hlog'.trans hlog, fun x => (hview' x).trans (hview x)⟩

theorem Extends.of_view_eq (hview : ∀ x, dc.view x = s.dcache.view x) :
    Extends s { s with dcache := dc } :=
  ⟨rfl, le_rfl, prefix_refl _, fun _ _ => hview _, fun _ => ⟨rfl, rfl, hview⟩⟩

/-- **One step** keeps the promise and extends the log. -/
theorem logHolds_step {op : ArenaOp} (h : LogHolds s) (hok : WriteOk s op)
    (hstep : ArenaStep s op t) : LogHolds t ∧ Extends s t := by
  cases hstep with
  | flush sel =>
    have hview := Dcache.view_flush (c := s.dcache) sel
    exact ⟨h.of_view_eq (Dcache.coherent_flush h.coherent sel) rfl hview, Extends.of_view_eq hview⟩
  | bump addr =>
    have hview := Dcache.view_bump h.coherent addr
    exact ⟨h.of_view_eq (Dcache.coherent_bump h.coherent addr) rfl hview, Extends.of_view_eq hview⟩
  | @write cl data readOk trailer r ar dc hdata htrailer hcall =>
    obtain ⟨hread, h32⟩ := hok
    rcases Arena.writeAClump_cases
        ⟨h.coherent, h.blocksize_eq, hdata, htrailer, hread, h32⟩ hcall with
      ⟨rfl, rfl, rfl⟩ | ⟨rfl, hsealed, rfl, hspec⟩ |
      ⟨rfl, hsealed, rfl, hroom, dc₁, dc₂, h₁, h₂, h₃⟩
    · rw [map_none, toList_none, append_nil]
      exact ⟨h, Extends.refl s⟩
    · have hlt : s.arena.dirBytes s.arena.memstats.clumps < 2 ^ 32 :=
        lt_of_le_of_lt (s.arena.dirBytes_mono (Nat.le_succ _)) h32
      have hin : ∀ x < s.arena.base + s.arena.size, dc.view x = s.dcache.view x :=
        fun x hx => hspec.outside x (.inl hx)
      rw [map_none, toList_none, append_nil]
      refine ⟨h.of_view true rfl rfl hspec.coherent hspec.blocksize_eq (fun x _ => hin x) ?_,
        rfl, le_rfl, prefix_refl _, ?_, ?_⟩
      · intro i hi j hj
        have hslot := h.slot_bounds hlt hi
        exact hin _ (by omega)
      · intro x hx
        have hused := h.used_le
        exact hin _ (by omega)
      · intro hs
        rw [hsealed] at hs
        exact absurd hs (by decide)
    · obtain ⟨hlog, hold⟩ := logHolds_append h hdata h32 hroom h₁ h₂ h₃
      refine ⟨hlog, rfl, ?_, prefix_append _ _, hold, ?_⟩
      · change s.arena.memstats.used ≤ s.arena.memstats.used + cl.info.size.toNat + clumpSize
        omega
      · intro hs
        rw [hsealed] at hs
        exact absurd hs (by decide)

/-- One more step of a run that has begun in `s`. -/
theorem logHolds_since (s u : ArenaState) (op : ArenaOp) (v : ArenaState)
    (hu : LogHolds u ∧ Extends s u) (hok : WriteOk u op) (hstep : ArenaStep u op v) :
    LogHolds v ∧ Extends s v := by
  obtain ⟨hv, hext⟩ := logHolds_step hu.1 hok hstep
  exact ⟨hv, hu.2.trans hext⟩

/-- **The arena is a log**: in every run whose writes find the directory below `2 ^ 32`
bytes and can read its block, the promise of the arena is kept, the log grows at its end
without changing its bytes, and a sealed arena stays as it is. -/
theorem arena_log {s t : ArenaState} {ops : List ArenaOp} (h : LogHolds s)
    (hrun : Run (Guarded WriteOk ArenaStep) s ops t) : LogHolds t ∧ Extends s t :=
  hrun.guarded_inv (I := fun u => LogHolds u ∧ Extends s u) (logHolds_since s)
    ⟨h, Extends.refl s⟩

/-! ### Fresh arenas -/

/-- An arena without clumps on a disk of zeros. -/
def freshState (ar : Arena) : ArenaState where
  arena := { ar with memstats := ⟨0, 0, 0, 0, false⟩ }
  dcache := ⟨ar.blocksize, fun _ => 0, fun _ => none⟩
  log := []

theorem logHolds_fresh (ar : Arena) : LogHolds (freshState ar) where
  coherent := ⟨ar.blocksize_pos, fun _ _ hb => absurd hb (by simp [freshState]),
    fun _ _ hb => absurd hb (by simp [freshState])⟩
  blocksize_eq := rfl
  clumps_eq := rfl
  used_eq := rfl
  room h := absurd rfl h
  addr_eq i e he := absurd he (by simp [freshState])
  bytes_eq e he := absurd he (by simp [freshState])
  free _ j _ := rfl
  dir_eq i e he := absurd he (by simp [freshState])

/-- The arena of the runs below: a directory block holds 327 entries. -/
def wideArena : Arena where
  blocksize := 8192
  base := 8192
  size := 2 ^ 34
  clumpmagic := 0xd15cb10c
  memstats := ⟨0, 0, 0, 0, false⟩
  pow_two := ⟨13, rfl⟩
  holds_info := by decide
  base_dvd := ⟨1, rfl⟩
  size_dvd := ⟨2 ^ 21, rfl⟩

/-- A clump of four zeros, with its score. -/
def wordClump : Clump where
  info := ⟨13, 4, 4, ⟨#[0x90, 0x69, 0xca, 0x78, 0xe7, 0x45, 0x0a, 0x28, 0x51, 0x73, 0x43, 0x1b,
    0x3e, 0x52, 0xc5, 0xc2, 0x52, 0x99, 0xe4, 0x73], rfl⟩⟩
  encoding := clumpENone
  creator := 0
  time := 0

/-- Write the four zeros, and a trailer that begins with the magic number of arenas. -/
def writeWord (readOk : ℕ → Bool) : ArenaOp :=
  .write wordClump [0, 0, 0, 0] readOk [0xf2, 0xa1, 0x4e, 0xad]

/-- A clump is written, everything goes to disk, the block of the directory leaves the cache, and
another clump is written while the blocks can be read that `readOk` says. -/
def writeTwice (readOk : ℕ → Bool) : List ArenaOp :=
  [writeWord fun _ => true, .flush fun _ => true, .bump (wideArena.cibBlock 0), writeWord readOk]

theorem arena_log_word : ∃ t, Run (Guarded WriteOk ArenaStep) (freshState wideArena)
    (writeTwice fun _ => true) t ∧ t.log.length = 2 ∧ LogHolds t ∧
      Extends (freshState wideArena) t := by
  have hrun : ∃ t, Run (Guarded WriteOk ArenaStep) (freshState wideArena)
      (writeTwice fun _ => true) t ∧ t.log.length = 2 :=
    ⟨_, .cons ⟨⟨rfl, by decide⟩, .write rfl (by decide) rfl⟩ (.cons ⟨trivial, .flush _⟩
      (.cons ⟨trivial, .bump _⟩ (.cons ⟨⟨rfl, by decide⟩, .write rfl (by decide) rfl⟩
        (.nil _)))), rfl⟩
  obtain ⟨t, hrun, hlen⟩ := hrun
  exact ⟨t, hrun, hlen, arena_log (logHolds_fresh wideArena) hrun⟩

/-- **An entry that is not written**: the block of the directory has left the cache and cannot be
read again, but the second clump is taken. -/
theorem directory_unread : ∃ t, Run ArenaStep (freshState wideArena) (writeTwice fun _ => false) t ∧
    t.log.length = 2 ∧ ¬LogHolds t := by
  refine ⟨_, .cons (.write rfl (by decide) rfl) (.cons (.flush _) (.cons (.bump _)
    (.cons (.write rfl (by decide) rfl) (.nil _)))), rfl, fun h => ?_⟩
  -- the first byte of the entry is the type of the clump, but the disk holds zeros
  have hentry := h.dir_eq 1 _ rfl 0 (by decide)
  exact absurd hentry (by decide)

end Venti

end Plan9
