import Mathlib.Data.Finset.Insert
import Plan9.Venti.ReadArena

/-!
# Recovering the log of an arena

After a crash the trailer of an arena may be older than its log, and entries of the
directory may not have been written. `syncarena` goes through the clumps behind those
the trailer counts – each is recognized by its magic number, and loaded, since its
length is in its header – and writes the entries that are missing.

It stops for good at a clump whose type is read back as that of a corrupt clump, since
`loadclump` does not load it; and of its three corrective writes the one that ends the
log with a free word has a result of its own, which the caller takes for success.

* `Plan9.Venti.Synced.step` – one round deals with one clump and its entry, and
  `Plan9.Venti.Synced.loop` – the rounds go on up to a clump that is not loaded or not seen;
* `Plan9.Venti.syncArena_iff` – the log is recovered, and every corrective write that
  fails is reported, exactly if the clumps behind the trailer can be loaded, the entries
  of the others are there, and no correction of a magic number is the only one to fail.
-/

namespace Plan9

namespace Venti

open Lib LibVenti List Option

/-! ### `syncarena` -/

/-- The bits of the result. -/
inductive SyncFlag
  /-- `SyncDataErr`: problem reading the clump data. -/
  | dataErr
  /-- `SyncCIErr`: found erroneous clump directory entries. -/
  | ciErr
  /-- `SyncCIZero`: found unwritten clump directory entries. -/
  | ciZero
  /-- `SyncFixErr`: error writing fixed data. -/
  | fixErr
  /-- `SyncHeader`: altered header fields. -/
  | header
deriving DecidableEq

/-- The calls that go through the disk cache. -/
inductive SyncCall
  | magic
  | load
  | info
  | fixMagic
  | fixHead
  | fixInfo
deriving DecidableEq

/-- What the calls for a clump find: the blocks in the cache, the blocks that can be read, and
the memory of the buffer of `clumpmagic`. -/
structure SyncEnv where
  present : ℕ → SyncCall → ℕ → Bool
  readOk : ℕ → SyncCall → ℕ → Bool
  stack : ℕ → List UInt8

/-- The variables of `syncarena`. The list has, for each corrective write so far, whether it
was written. -/
structure SyncState where
  arena : Arena
  dcache : Dcache
  err : Finset SyncFlag
  flush : Bool
  fixes : List Bool

/-- `vttypevalid`. -/
def vtTypeValid (type : ℕ) : ℤ := if type < vtMaxType then 1 else 0

/-- `zci`: the entry that unpacking zeros gives. -/
def zeroInfo : ClumpInfo := ⟨UInt8.ofNat vtCorruptType, 0, 0, Vector.replicate 20 0⟩

namespace Arena

variable (ar : Arena)

/-- `writeclumphead`. -/
def writeClumpHead (readOk : ℕ → Bool) (dc : Dcache) (aa : ℕ) (cl : Clump) : ℤ × Dcache :=
  match packClump cl ar.clumpmagic with
  | .error _ => (-1, dc)
  | .ok zb =>
    let r := ar.writeArena readOk dc aa zb
    (if r.1 then 0 else -1, r.2)

/-- `writeclumpmagic`. -/
def writeClumpMagic (readOk : ℕ → Bool) (dc : Dcache) (aa magic : ℕ) : ℤ × Dcache :=
  let r := ar.writeArena readOk dc aa (beBytes u32Size magic)
  (if r.1 then 1 else 0, r.2)

/-- `used` and `clumps` behind a clump. -/
def stepUsed (cl : Clump) : Arena :=
  { ar with
    memstats := {
      ar.memstats with
      used := ar.memstats.used + (clumpSize + cl.info.size.toNat)
      clumps := ar.memstats.clumps + 1 } }

/-- `uncsize` and `cclumps` behind a clump. -/
def stepSizes (cl : Clump) : Arena :=
  { ar with
    memstats := {
      ar.memstats with
      uncsize := ar.memstats.uncsize + cl.info.uncsize.toNat
      cclumps :=
        if cl.info.size < cl.info.uncsize then ar.memstats.cclumps + 1
        else ar.memstats.cclumps } }

end Arena

namespace SyncState

variable (st : SyncState)

/-- A corrective write returned `r`; the caller tests it against zero. -/
def fixed (r : ℤ × Dcache) (ok : Bool) : SyncState :=
  { st with
    dcache := r.2
    err := if r.1 < 0 then insert .fixErr st.err else st.err
    fixes := st.fixes ++ [ok] }

end SyncState

section Sync

variable (scoreMem : List UInt8 → Score) (env : SyncEnv) (fix : Bool)

/-- The cache as a call for the clump `j` finds it. -/
def SyncEnv.cache (dc : Dcache) (j : ℕ) (call : SyncCall) : Dcache := dc.settle (env.present j call)

/-- The data of a clump that was loaded, against its score and type: the clump, `broken` and the
state, or `none` where the loop is left. -/
def syncData (j aa : ℕ) (st : SyncState) (cl : Clump) (lump : List UInt8) :
    Option (Clump × Bool × SyncState) :=
  let score := scoreMem (lump.take cl.info.uncsize.toNat)
  -- ignore partially written block
  if cl.info.score ≠ score ∧ cl.encoding = clumpENone then none
  else if cl.info.score ≠ score ∨ vtTypeValid cl.info.type.toNat < 0 then
    let st := { st with err := insert .dataErr st.err }
    if fix then
      let cl := { cl with info := { cl.info with type := UInt8.ofNat vtCorruptType } }
      let r := st.arena.writeClumpHead (env.readOk j .fixHead)
        (env.cache st.dcache j .fixHead) aa cl
      some (cl, true, st.fixed r (r.1 = 0))
    else some (cl, true, st)
  else some (cl, false, st)

/-- The directory entry of a clump against the clump: `broken`, and the state. -/
def syncEntry (j : ℕ) (broken : Bool) (st : SyncState) (cl : Clump) : Bool × SyncState :=
  if broken then (true, st)
  else
    match st.arena.readClumpInfo (env.readOk j .info) (env.cache st.dcache j .info) j with
    | none => (true, st)
    | some ci =>
      if ci ≠ cl.info then
        (true, { st with err := insert (if ci = zeroInfo then .ciZero else .ciErr) st.err })
      else (false, st)

/-- The entry is corrected. -/
def syncFix (j : ℕ) (broken : Bool) (st : SyncState) (cl : Clump) : SyncState :=
  if broken && fix then
    let dc := env.cache st.dcache j .fixInfo
    match st.arena.writeClumpInfo (env.readOk j .fixInfo) dc j cl.info with
    | none => { st with flush := true }.fixed (-1, dc) false
    | some dc => { st with flush := true }.fixed (0, dc) true
  else st

/-- A clump that was loaded is counted, and its entry corrected. -/
def syncCount (j : ℕ) (broken : Bool) (st : SyncState) (cl : Clump) : SyncState :=
  let (broken, st) := syncEntry env j broken { st with arena := st.arena.stepUsed cl } cl
  let st := syncFix env fix j broken st cl
  { st with arena := st.arena.stepSizes cl }

/-- One round of the loop: whether it goes on, and the state. There is no result if memory that
nothing was written to was unpacked. -/
def syncClump (st : SyncState) : Option (Bool × SyncState) :=
  let aa := st.arena.memstats.used
  let clump := st.arena.memstats.clumps
  let magic := st.arena.clumpMagic (env.readOk clump .magic) (env.cache st.dcache clump .magic)
    (env.stack clump) aa
  if magic = clumpFreeMagic then some (false, st)
  else if magic ≠ st.arena.clumpmagic.toNat then
    if fix then
      let r := st.arena.writeClumpMagic (env.readOk clump .fixMagic)
        (env.cache st.dcache clump .fixMagic) aa clumpFreeMagic
      some (false, st.fixed r (r.1 = 1))
    else some (false, st)
  else
    match st.arena.loadClump (env.readOk clump .load) (env.cache st.dcache clump .load) aa with
    | .unread => none
    | .failed => some (false, st)
    | .lump cl lump =>
      match syncData scoreMem env fix clump aa st cl lump with
      | none => some (false, st)
      | some (cl, broken, st) => some (true, syncCount env fix clump broken st cl)

/-- The loop, for at most `n` clumps. -/
def syncLoop : ℕ → SyncState → Option SyncState
  | 0, st => some st
  | n + 1, st =>
    match syncClump scoreMem env fix st with
    | none => none
    | some (false, st) => some st
    | some (true, st) => syncLoop n st

/-- `syncarena`. The argument `zok` only silences a message; the times of the arena are left
out. -/
def syncArena (ar : Arena) (dc : Dcache) (n : ℕ) : Option SyncState :=
  (syncLoop scoreMem env fix n ⟨ar, dc, ∅, false, []⟩).map fun st =>
    let st := if st.flush then { st with dcache := st.dcache.flush fun _ => true } else st
    if { st.arena.memstats with sealed := false } ≠ { ar.memstats with sealed := false } then
      { st with err := insert .header st.err }
    else st

end Sync

/-! ### The books of an arena -/

/-- An entry that was compressed. -/
def LogEntry.compressed (e : LogEntry) : Bool := e.clump.info.size < e.clump.info.uncsize

/-- The statistics behind the first `j` clumps of a log. -/
def statsAt (log : List LogEntry) (j : ℕ) (b : Bool) : ATailStats where
  clumps := j
  cclumps := (log.take j).countP LogEntry.compressed
  used := startOf log j
  uncsize := ((log.take j).map fun e => e.clump.info.uncsize.toNat).sum
  sealed := b

/-- The arena whose statistics are those behind the first `j` clumps. -/
def arenaAt (s : ArenaState) (j : ℕ) (b : Bool) : Arena :=
  { s.arena with memstats := statsAt s.log j b }

/-- What the statistics of an arena say of its log, besides what the log promises. -/
structure Booked (ar : Arena) (s : ArenaState) : Prop where
  log : LogHolds s
  arena_eq : s.arena = { ar with memstats := statsAt s.log s.log.length s.arena.memstats.sealed }
  dir_lt : s.log ≠ [] → s.arena.dirBytes s.arena.memstats.clumps < 2 ^ 32
  entries : ∀ e ∈ s.log, checkClump e.clump = .ok () ∧ e.data.length = e.clump.info.size.toNat

variable {log : List LogEntry}

theorem statsAt_initial {l : List LogEntry} (h : l <+: log) (b : Bool) :
    statsAt l l.length b = statsAt log l.length b := by
  obtain ⟨r, rfl⟩ := h
  simp [statsAt, startOf]

variable {e : LogEntry}

theorem statsAt_succ {j : ℕ} (he : log[j]? = some e) (b : Bool) : statsAt log (j + 1) b =
      { clumps := j + 1
        cclumps := if e.clump.info.size < e.clump.info.uncsize then
          (statsAt log j b).cclumps + 1 else (statsAt log j b).cclumps
        used := (statsAt log j b).used + (clumpSize + e.clump.info.size.toNat)
        uncsize := (statsAt log j b).uncsize + e.clump.info.uncsize.toNat
        sealed := b } := by
  have htake : log.take (j + 1) = log.take j ++ [e] := by
    rw [take_add_one, he]
    rfl
  have hused : startOf log (j + 1) = startOf log j + e.size := startOf_succ he
  simp only [statsAt, hused, htake, countP_append, map_append, sum_append,
    LogEntry.size]
  by_cases hc : e.clump.info.size < e.clump.info.uncsize
  · simp [LogEntry.compressed, hc]
  · simp [LogEntry.compressed, hc]

variable {dc dc' : Dcache} {aa : ℕ}

variable {ar : Arena} {cl : Clump} {data : List UInt8}

/-- A clump that was taken has passed `checkclump`. -/
theorem checkClump_of_take {ar' : Arena} {trailer : List UInt8} {readOk : ℕ → Bool}
    (h : ar.writeAClump dc cl data readOk trailer = some (some aa, ar', dc')) :
    checkClump cl = .ok () := by
  rw [Arena.writeAClump] at h
  simp only at h
  split at h
  · split at h <;> simp at h
  · split at h
    · simp at h
    · rename_i header hpack
      exact (packClump_eq_ok.1 hpack).1

theorem booked_fresh (ar : Arena) : Booked ar (freshState ar) where
  log := logHolds_fresh ar
  arena_eq := rfl
  dir_lt h := absurd rfl h
  entries e he := absurd he (by simp [freshState])

/-- Every step keeps the books. -/
theorem booked_step {s t : ArenaState} {op : ArenaOp} (h : Booked ar s) (hok : WriteOk s op)
    (hstep : ArenaStep s op t) : Booked ar t := by
  have hlog := (logHolds_step h.log hok hstep).1
  cases hstep with
  | flush sel => exact ⟨hlog, h.arena_eq, h.dir_lt, h.entries⟩
  | bump addr => exact ⟨hlog, h.arena_eq, h.dir_lt, h.entries⟩
  | @write cl data readOk trailer r ar' dc hdata htrailer hcall =>
    obtain ⟨hread, h32⟩ := hok
    have hcases := Arena.writeAClump_cases
      ⟨h.log.coherent, h.log.blocksize_eq, hdata, htrailer, hread, h32⟩ hcall
    rcases hcases with ⟨rfl, rfl, rfl⟩ | ⟨rfl, -, rfl, -⟩ | ⟨rfl, -, rfl, -⟩
    · rw [map_none, toList_none, append_nil] at hlog ⊢
      exact ⟨hlog, h.arena_eq, h.dir_lt, h.entries⟩
    · rw [map_none, toList_none, append_nil] at hlog ⊢
      refine ⟨hlog, ?_, h.dir_lt, h.entries⟩
      change s.arena.withSealed true = { ar with memstats := statsAt s.log s.log.length true }
      rw [h.arena_eq]
      rfl
    · have hcheck := checkClump_of_take hcall
      rw [map_some, toList_some] at hlog ⊢
      generalize hentry : (⟨s.arena.memstats.used, cl, data⟩ : LogEntry) = e at hlog ⊢
      have hcl : e.clump = cl := by rw [← hentry]
      have hda : e.data = data := by rw [← hentry]
      refine ⟨hlog, ?_, fun _ => h32, ?_⟩
      · have hstats := statsAt_succ (List.getElem?_concat_length (l := s.log) (a := e))
          s.arena.memstats.sealed
        have hold := statsAt_initial (prefix_append s.log [e]) s.arena.memstats.sealed
        change s.arena.addClump cl = { ar with
          memstats := statsAt (s.log ++ [e]) (s.log ++ [e]).length s.arena.memstats.sealed }
        rw [length_append, length_singleton, hstats, ← hold, hcl]
        have hmem : s.arena.memstats = statsAt s.log s.log.length s.arena.memstats.sealed :=
          congrArg Arena.memstats h.arena_eq
        rw [← hmem]
        have hsum : s.arena.memstats.used + cl.info.size.toNat + clumpSize =
            s.arena.memstats.used + (clumpSize + cl.info.size.toNat) := by omega
        have hclumps : s.arena.memstats.clumps = s.log.length := h.log.clumps_eq
        have hcongr := congrArg (fun a : Arena => ({ a with
          memstats := (s.arena.addClump cl).memstats } : Arena)) h.arena_eq
        calc s.arena.addClump cl = { ar with memstats := (s.arena.addClump cl).memstats } := hcongr
          _ = _ := by rw [Arena.addClump, hsum, hclumps]
      · intro e' he'
        rcases mem_append.1 he' with he' | he'
        · exact h.entries e' he'
        · obtain rfl := mem_singleton.1 he'
          rw [hcl, hda]
          exact ⟨hcheck, hdata⟩

/-! ### After a crash -/

/-- What `fmtarenas` and `newarena` make sure of: blocks of at most `MaxDiskBlock` bytes, room
for a block of the directory and a word, and a magic number that is not `ClumpFreeMagic`. -/
structure Formatted (ar : Arena) : Prop where
  small : ar.blocksize ≤ 2 ^ 16
  room : ar.blocksize + u32Size ≤ ar.size
  magic : ar.clumpmagic ≠ 0

/-- The bytes of an entry of the directory. -/
def slotBytes (ar : Arena) (dc : Dcache) (i : ℕ) : List UInt8 :=
  Arena.viewBytes dc (ar.cibBlock i + ar.cibOffset i) clumpInfoSize

/-- An entry of the directory that was not written. -/
def unwritten : List UInt8 := List.replicate clumpInfoSize 0

/-- **A crash**: `s` is the arena behind its last write, and `dc` the disk that is found, through
the cache. The data of the clumps is there, with the free word behind them; of the directory
any entries may be unwritten. -/
structure Crash (scoreMem : List UInt8 → Score) (s : ArenaState) (dc : Dcache) : Prop where
  blocksize_eq : dc.blocksize = s.arena.blocksize
  data : ∀ x < s.arena.memstats.used + u32Size,
    dc.view (s.arena.base + x) = s.dcache.view (s.arena.base + x)
  slots : ∀ (i : ℕ) (e : LogEntry), s.log[i]? = some e →
    slotBytes s.arena dc i = packClumpInfo e.clump.info ∨ slotBytes s.arena dc i = unwritten
  /-- The clumps are what `storeclump` makes: their score is that of their data. -/
  honest : ∀ e ∈ s.log, ∃ lump, decode e.clump e.data = some lump ∧
    scoreMem lump = e.clump.info.score

section Crash

variable (env : SyncEnv) (s : ArenaState) (dc : Dcache) (k : ℕ)

/-- A block can be had in a call for the clump `j`. -/
def SyncEnv.Gets (j : ℕ) (call : SyncCall) (b : ℕ) : Prop :=
  env.present j call b = true ∨ env.readOk j call b = true

/-- The blocks of `n` bytes at the start of the clump `j` can be had. -/
def SyncEnv.GetsBytes (j : ℕ) (call : SyncCall) (n : ℕ) : Prop :=
  ∀ b, s.arena.blocksize ∣ b →
    (s.arena.base + startOf s.log j) / s.arena.blocksize * s.arena.blocksize ≤ b →
    b < s.arena.base + startOf s.log j + n → env.Gets j call b

/-- The magic number of the clump `j` is read, or what is taken for it if it is not read is the
magic number of the arena. -/
def MagicSeen (j : ℕ) : Prop :=
  env.GetsBytes s j .magic u32Size ∨ s.arena.clumpmagic.toNat = twid32

/-- All that `loadclump` reads of the clump `j` can be had: a block of at most 512 bytes, and the
clump. -/
def Reads (j : ℕ) : Prop :=
  env.GetsBytes s j .load
    (max (min (1 <<< aBlockLog) (s.arena.size - s.arena.dirBytes j - startOf s.log j))
      (startOf s.log (j + 1) - startOf s.log j))

/-- The clump `i` is not read back as a corrupt one. -/
def Loadable (i : ℕ) : Prop := ∀ e, s.log[i]? = some e → ¬isCorrupt (Arena.rereadClump e.clump)

/-- The entry of the clump `i` is in the directory. -/
def Written (i : ℕ) : Prop :=
  ∀ e, s.log[i]? = some e → slotBytes s.arena dc i = packClumpInfo e.clump.info

/-- The entry of the clump `i` is read and right. -/
def EntryRight (i : ℕ) : Prop := env.Gets i .info (s.arena.cibBlock i) ∧ Written s dc i

/-- The first entry of the block of the entry `i`. -/
def blockStart (i : ℕ) : ℕ := i / s.arena.clumpMax * s.arena.clumpMax

/-- Before the clump `j` the block of the entry `i` has been fetched for writing as a whole, to
correct its first entry, and was not in the cache: its other entries are gone. -/
def Cleared (j i : ℕ) : Prop :=
  k ≤ blockStart s i ∧ blockStart s i < j ∧ ¬EntryRight env s dc (blockStart s i) ∧
    ¬env.present (blockStart s i) .fixInfo (s.arena.cibBlock i) = true

/-- The entry of the clump `i` is corrected. -/
def Needs (i : ℕ) : Prop := ¬EntryRight env s dc i ∨ Cleared env s dc k i i

/-- The correction of the entry of the clump `i` can be written. -/
def Fixable (i : ℕ) : Prop :=
  s.arena.cibOffset i = 0 ∨ env.Gets i .fixInfo (s.arena.cibBlock i)

/-- A correction of an entry before that of the clump `j` fails. -/
def FixFails (j : ℕ) : Prop := ∃ i, k ≤ i ∧ i < j ∧ Needs env s dc k i ∧ ¬Fixable env s i

/-- **Where `syncarena` is** when it has dealt with the clumps before `j`. -/
structure Synced (b : Bool) (j : ℕ) (st : SyncState) : Prop where
  arena_eq : st.arena = arenaAt s j b
  blocksize_eq : st.dcache.blocksize = s.arena.blocksize
  data : ∀ x < s.arena.memstats.used + u32Size,
    st.dcache.view (s.arena.base + x) = s.dcache.view (s.arena.base + x)
  early : ∀ i < k, i < s.log.length → slotBytes s.arena st.dcache i = slotBytes s.arena dc i
  behind : ∀ i e, k ≤ i → i < j → s.log[i]? = some e →
    (Needs env s dc k i → Fixable env s i) →
    slotBytes s.arena st.dcache i = packClumpInfo e.clump.info
  ahead : ∀ i e, j ≤ i → s.log[i]? = some e →
    (Written s dc i ∧ ¬Cleared env s dc k j i →
      slotBytes s.arena st.dcache i = packClumpInfo e.clump.info) ∧
    (¬(Written s dc i ∧ ¬Cleared env s dc k j i) → slotBytes s.arena st.dcache i = unwritten)
  err : .fixErr ∈ st.err ↔ FixFails env s dc k j
  fixes : false ∈ st.fixes ↔ FixFails env s dc k j

variable {env s dc k} {ar : Arena} {scoreMem : List UInt8 → Score} {b : Bool} {j : ℕ}
  {st : SyncState}

/-- The log, a word and the directory fit the arena, and the directory is below `2 ^ 32`
bytes. -/
theorem Booked.room (h : Booked ar s) (hf : Formatted s.arena) :
    s.arena.dirBytes s.log.length < 2 ^ 32 ∧
      startOf s.log s.log.length + u32Size + s.arena.dirBytes s.log.length ≤ s.arena.size := by
  by_cases hlog : s.log = []
  · have hsmall := hf.small
    have hroom := hf.room
    have hdir : s.arena.dirBytes 0 = s.arena.blocksize := by simp [Arena.dirBytes]
    rw [hlog, length_nil, hdir]
    simp only [startOf, List.take_nil, map_nil, sum_nil]
    omega
  · have hlt := h.dir_lt hlog
    have hroom := h.log.room hlog
    rw [Arena.arenaDirSize_eq hlt] at hroom
    rw [h.log.clumps_eq] at hlt hroom
    rw [h.log.used_eq] at hroom
    exact ⟨hlt, hroom⟩

/-- The space for clumps as `syncarena` sees it at the clump `j`. -/
theorem clumpEnd_arenaAt (h : Booked ar s) (hf : Formatted s.arena) (hj : j ≤ s.log.length) :
    (arenaAt s j b).clumpEnd = s.arena.size - s.arena.dirBytes j := by
  obtain ⟨hlt, hroom⟩ := h.room hf
  have hmono := s.arena.dirBytes_mono hj
  have hdir : s.arena.arenaDirSize j = s.arena.dirBytes j :=
    Arena.arenaDirSize_eq (lt_of_le_of_lt hmono hlt)
  have hend : (arenaAt s j b).clumpEnd =
      if s.arena.arenaDirSize j ≤ s.arena.size then s.arena.size - s.arena.arenaDirSize j
      else s.arena.size + 2 ^ 64 - s.arena.arenaDirSize j := rfl
  rw [hend, hdir, if_pos (by omega)]

/-- The clumps, and a word behind each, end in front of the directory. -/
theorem Booked.start_le (h : Booked ar s) (hf : Formatted s.arena) (hj : j ≤ s.log.length) :
    startOf s.log s.log.length + u32Size ≤ (arenaAt s j b).clumpEnd := by
  obtain ⟨-, hroom⟩ := h.room hf
  have hmono := s.arena.dirBytes_mono hj
  rw [clumpEnd_arenaAt h hf hj]
  omega

/-! ### What is found in the log -/

/-- The bytes of a clump. -/
theorem LogHolds.viewBytes_entry (h : LogHolds s) (he : s.log[j]? = some e)
    (hdata : e.data.length = e.clump.info.size.toNat) :
    Arena.viewBytes s.dcache (s.arena.base + startOf s.log j)
      (clumpSize + e.clump.info.size.toNat) =
      clumpHeader e.clump s.arena.clumpmagic ++ e.data := by
  have hlen : (clumpHeader e.clump s.arena.clumpmagic ++ e.data).length =
      clumpSize + e.clump.info.size.toNat := by
    rw [length_append, length_clumpHeader, hdata]
  refine ext_getElem (by rw [Arena.length_viewBytes, hlen]) fun i h1 h2 => ?_
  have hbyte := h.bytes_eq e (List.mem_of_getElem? he) i (by rwa [hlen] at h2)
  rw [h.addr_eq j e he, getD_eq_getElem _ _ h2] at hbyte
  simpa [Arena.viewBytes] using hbyte

/-- The word behind the log. -/
theorem LogHolds.viewBytes_free (h : LogHolds s) (hf : Formatted s.arena) :
    Arena.viewBytes s.dcache (s.arena.base + startOf s.log s.log.length) u32Size =
      [0, 0, 0, 0] := by
  have hroom := hf.room
  have hpos := s.arena.blocksize_pos
  have hfree := h.free (by omega)
  rw [h.used_eq] at hfree
  have hzero : ∀ i ∈ List.range u32Size,
      s.dcache.view (s.arena.base + startOf s.log s.log.length + i) = 0 :=
    fun i hi => hfree i (mem_range.1 hi)
  rw [Arena.viewBytes, map_congr_left hzero]
  rfl

variable {n : ℕ}

section

variable (h : Synced env s dc k b j st)

include h

/-- How far it has come. -/
theorem Synced.counts : st.arena.memstats.used = startOf s.log j ∧
    st.arena.memstats.clumps = j ∧ st.arena.clumpmagic = s.arena.clumpmagic := by
  rw [h.arena_eq]
  exact ⟨rfl, rfl, rfl⟩

/-- A call for the clump `j` finds the bytes of the log. -/
theorem Synced.viewBytes_eq (call : SyncCall)
    (hle : aa + n ≤ s.arena.memstats.used + u32Size) :
    Arena.viewBytes (env.cache st.dcache j call) (s.arena.base + aa) n =
      Arena.viewBytes s.dcache (s.arena.base + aa) n := by
  rw [SyncEnv.cache, Arena.viewBytes_settle]
  refine map_congr_left fun i hi => ?_
  rw [mem_range] at hi
  rw [Nat.add_assoc]
  exact h.data _ (by omega)

/-- A call for the clump `j` gets the blocks that can be had. -/
theorem Synced.fetched_iff {call : SyncCall} :
    (arenaAt s j b).Fetched (env.readOk j call) (env.cache st.dcache j call)
      (s.arena.base + startOf s.log j) n ↔ env.GetsBytes s j call n := by
  have hbs : st.dcache.blocksize = (arenaAt s j b).blocksize := h.blocksize_eq
  exact Arena.fetched_settle hbs

/-- The caches of the calls are in order. -/
theorem Synced.coherent (call : SyncCall) :
    (env.cache st.dcache j call).Coherent :=
  Dcache.coherent_settle (h.blocksize_eq ▸ s.arena.blocksize_pos)

theorem Synced.cache_blocksize (call : SyncCall) :
    (env.cache st.dcache j call).blocksize = (arenaAt s j b).blocksize := h.blocksize_eq

/-- The word at the start of the clump `j`. -/
theorem Synced.word_eq (hb : Booked ar s) (hf : Formatted s.arena)
    (hj : j ≤ s.log.length) (call : SyncCall) :
    Arena.viewBytes (env.cache st.dcache j call) (s.arena.base + startOf s.log j) u32Size =
      if j < s.log.length then beBytes u32Size s.arena.clumpmagic.toNat else [0, 0, 0, 0] := by
  have hmono := startOf_mono s.log hj
  have hused := hb.log.used_eq
  rw [h.viewBytes_eq call (by omega)]
  by_cases hlt : j < s.log.length
  · have he := List.getElem?_eq_getElem hlt
    have hentry := hb.log.viewBytes_entry he (hb.entries _ (getElem_mem hlt)).2
    have hsplit : clumpSize + s.log[j].clump.info.size.toNat =
        u32Size + (34 + s.log[j].clump.info.size.toNat) := by
      have hsize : clumpSize = u32Size + 34 := rfl
      omega
    rw [hsplit, Arena.viewBytes_append, clumpHeader] at hentry
    simp only [append_assoc] at hentry
    rw [if_pos hlt]
    exact (append_inj hentry (by simp [u32Size])).1
  · obtain rfl : j = s.log.length := by omega
    rw [if_neg hlt]
    exact hb.log.viewBytes_free hf

/-- The magic number that `clumpmagic` finds. -/
theorem Synced.clumpMagic_eq (hb : Booked ar s)
    (hf : Formatted s.arena) (hj : j ≤ s.log.length) (stack : List UInt8)
    (hgets : env.GetsBytes s j .magic u32Size) :
    (arenaAt s j b).clumpMagic (env.readOk j .magic) (env.cache st.dcache j .magic) stack
      (startOf s.log j) = if j < s.log.length then s.arena.clumpmagic.toNat else 0 := by
  have hend := hb.start_le (b := b) hf hj
  have hmono := startOf_mono s.log hj
  have hword : u32Size = 4 := rfl
  have hmin : min u32Size ((arenaAt s j b).clumpEnd - startOf s.log j) = u32Size := by omega
  have hread : (arenaAt s j b).readArena (env.readOk j .magic) (env.cache st.dcache j .magic)
      (startOf s.log j) u32Size = some (Arena.viewBytes (env.cache st.dcache j .magic)
        (s.arena.base + startOf s.log j) u32Size) := by
    have hlt : startOf s.log j < (arenaAt s j b).clumpEnd := by omega
    have hfetch := h.fetched_iff.2 hgets
    rw [← hmin] at hfetch
    have hbytes := Arena.readArena_eq (h.coherent .magic) (h.cache_blocksize .magic)
      (show 0 < u32Size by decide) hlt hfetch
    rw [hbytes, hmin]
    rfl
  rw [Arena.clumpMagic, hread]
  simp only
  rw [Arena.length_viewBytes, take_left' (Arena.length_viewBytes ..), h.word_eq hb hf hj]
  by_cases hlt : j < s.log.length
  · rw [if_pos hlt, if_pos hlt]
    exact beVal_beBytes s.arena.clumpmagic.toNat_lt
  · rw [if_neg hlt, if_neg hlt]
    rfl

/-- A magic number that cannot be read. -/
theorem Synced.clumpMagic_fail (hb : Booked ar s)
    (hf : Formatted s.arena) (hj : j ≤ s.log.length) (stack : List UInt8)
    (hgets : ¬env.GetsBytes s j .magic u32Size) :
    (arenaAt s j b).clumpMagic (env.readOk j .magic) (env.cache st.dcache j .magic) stack
      (startOf s.log j) = twid32 := by
  have hend := hb.start_le (b := b) hf hj
  have hmono := startOf_mono s.log hj
  have hword : u32Size = 4 := rfl
  have hmin : min u32Size ((arenaAt s j b).clumpEnd - startOf s.log j) = u32Size := by omega
  have hread : (arenaAt s j b).readArena (env.readOk j .magic) (env.cache st.dcache j .magic)
      (startOf s.log j) u32Size = none := by
    have hlt : startOf s.log j < (arenaAt s j b).clumpEnd := by omega
    refine Arena.readArena_fail hlt fun hfetch => hgets ?_
    rw [hmin] at hfetch
    exact h.fetched_iff.1 hfetch
  rw [Arena.clumpMagic, hread]

/-- What `loadclump` reads of the clump `j`. -/
theorem Synced.reads_iff (hb : Booked ar s) (hf : Formatted s.arena)
    (he : s.log[j]? = some e) :
    (arenaAt s j b).Fetched (env.readOk j .load) (env.cache st.dcache j .load)
      (s.arena.base + startOf s.log j) ((arenaAt s j b).loadSize (startOf s.log j) e.clump) ↔
      Reads env s j := by
  have hlt : j < s.log.length := (List.getElem?_eq_some_iff.1 he).1
  have hsize : startOf s.log (j + 1) - startOf s.log j =
      clumpSize + e.clump.info.size.toNat := by
    rw [startOf_succ he, Nat.add_sub_cancel_left]
    rfl
  rw [Reads, hsize, h.fetched_iff, Arena.loadSize, clumpEnd_arenaAt hb hf hlt.le]

/-! ### Where the loop ends -/

/-- The magic number of the clump `j` is that of the arena or, behind the log, free. -/
theorem Synced.magic_of_seen (hb : Booked ar s)
    (hf : Formatted s.arena) (hj : j ≤ s.log.length) (hseen : MagicSeen env s j) :
    (arenaAt s j b).clumpMagic (env.readOk j .magic) (env.cache st.dcache j .magic) (env.stack j)
        (startOf s.log j) = s.arena.clumpmagic.toNat ∨
      (j = s.log.length ∧ (arenaAt s j b).clumpMagic (env.readOk j .magic)
        (env.cache st.dcache j .magic) (env.stack j) (startOf s.log j) = clumpFreeMagic) := by
  by_cases hgets : env.GetsBytes s j .magic u32Size
  · rw [h.clumpMagic_eq hb hf hj _ hgets]
    by_cases hlt : j < s.log.length
    · exact .inl (if_pos hlt)
    · exact .inr ⟨by omega, if_neg hlt⟩
  · rw [h.clumpMagic_fail hb hf hj _ hgets]
    exact .inl (hseen.resolve_left hgets).symm

end

theorem Formatted.magic_ne (hf : Formatted s.arena) :
    s.arena.clumpmagic.toNat ≠ clumpFreeMagic :=
  fun h => hf.magic (UInt32.toNat_inj.1 h)

variable {fix : Bool}

/-- A round that finds the magic number of the arena. -/
theorem syncClump_magic (hused : st.arena.memstats.used = aa)
    (hclumps : st.arena.memstats.clumps = j)
    (hmagic : st.arena.clumpMagic (env.readOk j .magic) (env.cache st.dcache j .magic)
      (env.stack j) aa = st.arena.clumpmagic.toNat)
    (hne : st.arena.clumpMagic (env.readOk j .magic) (env.cache st.dcache j .magic)
      (env.stack j) aa ≠ clumpFreeMagic) :
    syncClump scoreMem env fix st =
      match st.arena.loadClump (env.readOk j .load) (env.cache st.dcache j .load) aa with
      | .unread => none
      | .failed => some (false, st)
      | .lump cl lump =>
        match syncData scoreMem env fix j aa st cl lump with
        | none => some (false, st)
        | some (cl, broken, st) => some (true, syncCount env fix j broken st cl) := by
  subst hused hclumps
  rw [syncClump]
  simp only [if_neg hne, if_neg (not_not_intro hmagic)]

variable {r : ℤ × Dcache}

/-- A round that finds another magic number. -/
theorem syncClump_other (hused : st.arena.memstats.used = aa)
    (hclumps : st.arena.memstats.clumps = j)
    (hmagic : st.arena.clumpMagic (env.readOk j .magic) (env.cache st.dcache j .magic)
      (env.stack j) aa ≠ st.arena.clumpmagic.toNat)
    (hne : st.arena.clumpMagic (env.readOk j .magic) (env.cache st.dcache j .magic)
      (env.stack j) aa ≠ clumpFreeMagic)
    (hr : st.arena.writeClumpMagic (env.readOk j .fixMagic) (env.cache st.dcache j .fixMagic) aa
      clumpFreeMagic = r) :
    syncClump scoreMem env true st = some (false, st.fixed r (r.1 = 1)) := by
  subst hused hclumps hr
  rw [syncClump]
  simp only [if_neg hne, if_pos hmagic, if_true]

/-- The loop stops behind the log, and at a clump that is not loaded. -/
theorem Synced.stop (scoreMem : List UInt8 → Score) (h : Synced env s dc k b j st)
    (hb : Booked ar s) (hf : Formatted s.arena) (hj : j ≤ s.log.length) (hseen : MagicSeen env s j)
    (hstop : j = s.log.length ∨ ¬Reads env s j ∨ ¬Loadable s j) :
    syncClump scoreMem env true st = some (false, st) ∨
      (syncClump scoreMem env true st = none ∧
        ¬(env.GetsBytes s j .magic u32Size ∧ Reads env s j)) := by
  have hend := hb.start_le (b := b) hf hj
  have hmono := startOf_mono s.log hj
  obtain ⟨hused, hclumps, hcm⟩ := h.counts
  have hmagic := h.magic_of_seen hb hf hj hseen
  rw [← h.arena_eq] at hmagic
  -- whatever the magic number is, no clump is loaded
  have hload : (∀ cl lump, st.arena.loadClump (env.readOk j .load) (env.cache st.dcache j .load)
      (startOf s.log j) ≠ .lump cl lump) ∧ (j < s.log.length → Reads env s j →
        st.arena.loadClump (env.readOk j .load) (env.cache st.dcache j .load)
          (startOf s.log j) = .failed) := by
    rw [h.arena_eq]
    by_cases hlt : j < s.log.length
    · have he := List.getElem?_eq_getElem hlt
      obtain ⟨hcheck, hdata⟩ := hb.entries _ (getElem_mem hlt)
      have hview := hb.log.viewBytes_entry he hdata
      have hnext := startOf_mono s.log (show j + 1 ≤ s.log.length from hlt)
      rw [startOf_succ he, LogEntry.size] at hnext
      rw [← h.viewBytes_eq .load (by rw [hb.log.used_eq]; omega)] at hview
      by_cases hreads : Reads env s j
      · have hnot := (hstop.resolve_left (by omega)).resolve_left (not_not_intro hreads)
        have hcorrupt : isCorrupt (Arena.rereadClump s.log[j].clump) := by
          by_contra hc
          exact hnot fun e' he' => some.inj (he.symm.trans he') ▸ hc
        rw [Arena.loadClump_eq (h.coherent .load) (h.cache_blocksize .load) hcheck hdata hview
          (by omega) ((h.reads_iff hb hf he).2 hreads), if_pos hcorrupt]
        simp
      · exact ⟨Arena.loadClump_ne_lump (h.coherent .load) (h.cache_blocksize .load) hcheck hview
          (by omega) fun hfetch => hreads ((h.reads_iff hb hf he).1 hfetch),
          fun _ hr => absurd hr hreads⟩
    · have hword := h.word_eq hb hf hj .load
      rw [if_neg hlt] at hword
      exact ⟨Arena.loadClump_free (h.coherent .load) (h.cache_blocksize .load) hf.magic hword
        (by omega), fun h' => absurd h' hlt⟩
  rcases hmagic with hmagic | ⟨-, hmagic⟩
  · rw [syncClump_magic hused hclumps (hmagic.trans (congrArg UInt32.toNat hcm.symm))
      (by rw [hmagic]; exact hf.magic_ne)]
    cases hcall : st.arena.loadClump (env.readOk j .load) (env.cache st.dcache j .load)
      (startOf s.log j) with
    | unread =>
      refine .inr ⟨rfl, ?_⟩
      rintro ⟨hgets, hreads⟩
      by_cases hlt : j < s.log.length
      · rw [hload.2 hlt hreads] at hcall
        cases hcall
      · have hfree := h.clumpMagic_eq hb hf hj (env.stack j) hgets
        rw [if_neg hlt, ← h.arena_eq, hmagic] at hfree
        exact hf.magic_ne hfree
    | failed => exact .inl rfl
    | lump cl lump => exact absurd hcall (hload.1 cl lump)
  · simp only [syncClump, hused, hclumps, hmagic, if_true]
    exact .inl trivial

/-- What writing over a magic number returns: `1` or `0`. -/
theorem Synced.writeClumpMagic_eq (h : Synced env s dc k b j st) (hb : Booked ar s)
    (hf : Formatted s.arena) (hj : j ≤ s.log.length) (magic : ℕ)
    (hr : st.arena.writeClumpMagic (env.readOk j .fixMagic) (env.cache st.dcache j .fixMagic)
      (startOf s.log j) magic = r) :
    0 ≤ r.1 ∧ (r.1 = 1 ↔ env.GetsBytes s j .fixMagic u32Size) := by
  have hend := hb.start_le (b := b) hf hj
  have hmono := startOf_mono s.log hj
  have hword : u32Size = 4 := rfl
  have hlen : (beBytes u32Size magic).length = 4 := length_beBytes ..
  have hpos : 4 < (arenaAt s j b).blocksize :=
    lt_of_lt_of_le (by decide) (arenaAt s j b).holds_info
  have hfit : startOf s.log j + 4 ≤ (arenaAt s j b).clumpEnd := by omega
  have hget : ∀ a, s.arena.blocksize ∣ a →
      (((env.cache st.dcache j .fixMagic).getDBlock a .ordwr (env.readOk j .fixMagic)).isSome ↔
        env.Gets j .fixMagic a) := by
    intro a ha
    rw [SyncEnv.cache, Dcache.getDBlock_settle (h.blocksize_eq ▸ ha)]
    simp [SyncEnv.Gets]
  have hdone : ((arenaAt s j b).writeArena (env.readOk j .fixMagic)
      (env.cache st.dcache j .fixMagic) (startOf s.log j) (beBytes u32Size magic)).1 = true ↔
        env.GetsBytes s j .fixMagic u32Size := by
    rw [Arena.writeArena_word hpos hlen hfit]
    constructor
    · intro hall a ha h1 h2
      exact (hget a ha).1 (hall a ha h1 h2)
    · intro hall a ha h1 h2
      exact (hget a ha).2 (hall a ha h1 h2)
  rw [Arena.writeClumpMagic, h.arena_eq] at hr
  rw [← hr, ← hdone]
  simp only
  split
  · rename_i hok
    exact ⟨by decide, iff_of_true rfl hok⟩
  · rename_i hok
    exact ⟨le_rfl, iff_of_false (by decide) hok⟩

/-- A magic number that is not seen is written over; that this fails is not noticed. -/
theorem Synced.unseen (scoreMem : List UInt8 → Score) (h : Synced env s dc k b j st)
    (hb : Booked ar s) (hf : Formatted s.arena) (hj : j ≤ s.log.length)
      (hseen : ¬MagicSeen env s j) :
    ∃ r : ℤ × Dcache, syncClump scoreMem env true st = some (false, st.fixed r (r.1 = 1)) ∧
      0 ≤ r.1 ∧ (r.1 = 1 ↔ env.GetsBytes s j .fixMagic u32Size) := by
  obtain ⟨hused, hclumps, hcm⟩ := h.counts
  have hmagic := h.clumpMagic_fail hb hf hj (env.stack j) fun hgets => hseen (.inl hgets)
  rw [← h.arena_eq] at hmagic
  refine ⟨_, syncClump_other hused hclumps ?_ ?_ rfl, h.writeClumpMagic_eq hb hf hj _ rfl⟩
  · rw [hmagic, hcm]
    exact fun heq => hseen (.inr heq.symm)
  · rw [hmagic]
    decide

/-! ### The directory -/

variable {i : ℕ}

/-- The block of an entry: aligned, in front of the trailer, behind the log. -/
theorem Booked.cibBlock_spec (h : Booked ar s) (hf : Formatted s.arena) (hi : i < s.log.length) :
    s.arena.blocksize ∣ s.arena.cibBlock i ∧
      s.arena.base + s.arena.size = s.arena.cibBlock i + s.arena.dirBytes i ∧
      s.arena.base + s.arena.memstats.used + u32Size ≤ s.arena.cibBlock i := by
  obtain ⟨hlt, hroom⟩ := h.room hf
  obtain ⟨hdvd, heq, hle, -⟩ := s.arena.cibBlock_spec hi.le hlt (by omega)
  refine ⟨hdvd, heq, ?_⟩
  rw [h.log.used_eq]
  omega

variable {i' : ℕ}

/-- Entries are in one block if they have the same number of blocks in front of them. -/
theorem Booked.cibBlock_eq_iff (h : Booked ar s) (hf : Formatted s.arena) (hi : i < s.log.length)
    (hi' : i' < s.log.length) :
    s.arena.cibBlock i = s.arena.cibBlock i' ↔ i / s.arena.clumpMax = i' / s.arena.clumpMax := by
  obtain ⟨-, heq, -⟩ := h.cibBlock_spec hf hi
  obtain ⟨-, heq', -⟩ := h.cibBlock_spec hf hi'
  constructor
  · intro hblock
    have hdir : s.arena.dirBytes i = s.arena.dirBytes i' := by omega
    exact Nat.succ.inj (Nat.eq_of_mul_eq_mul_right s.arena.blocksize_pos hdir)
  · intro hdiv
    rw [Arena.cibBlock, Arena.cibBlock, hdiv]

/-- Blocks of entries are equal or disjoint. -/
theorem Booked.cibBlock_disjoint (h : Booked ar s) (hf : Formatted s.arena) (hi : i < s.log.length)
    (hi' : i' < s.log.length) (hne : s.arena.cibBlock i ≠ s.arena.cibBlock i') :
    s.arena.cibBlock i + s.arena.blocksize ≤ s.arena.cibBlock i' ∨
      s.arena.cibBlock i' + s.arena.blocksize ≤ s.arena.cibBlock i := by
  obtain ⟨hlt, hroom⟩ := h.room hf
  rcases Nat.lt_trichotomy i i' with hii | rfl | hii
  · have hmono := s.arena.dirBytes_mono hi'.le
    rcases Arena.cib_lt hii (lt_of_le_of_lt hmono hlt) (by omega) with ⟨-, heq, -⟩ | hle
    · exact absurd heq hne
    · exact .inr hle
  · exact absurd rfl hne
  · have hmono := s.arena.dirBytes_mono hi.le
    rcases Arena.cib_lt hii (lt_of_le_of_lt hmono hlt) (by omega) with ⟨-, heq, -⟩ | hle
    · exact absurd heq.symm hne
    · exact .inl hle

/-- Entries of one block are disjoint. -/
theorem Booked.cibOffset_disjoint (h : Booked ar s) (hf : Formatted s.arena) (hi : i < s.log.length)
    (hi' : i' < s.log.length) (hne : i ≠ i') (hblock : s.arena.cibBlock i = s.arena.cibBlock i') :
    s.arena.cibOffset i + clumpInfoSize ≤ s.arena.cibOffset i' ∨
      s.arena.cibOffset i' + clumpInfoSize ≤ s.arena.cibOffset i := by
  have hdiv := (h.cibBlock_eq_iff hf hi hi').1 hblock
  have h1 := Nat.div_add_mod i s.arena.clumpMax
  have h2 := Nat.div_add_mod i' s.arena.clumpMax
  rw [hdiv] at h1
  simp only [Arena.cibOffset_eq, ← Nat.succ_mul]
  rcases Nat.lt_or_gt_of_ne hne with hii | hii
  · exact .inl (Nat.mul_le_mul_right _ (by omega))
  · exact .inr (Nat.mul_le_mul_right _ (by omega))

/-- The entry `j` is the first of the block of the entry `i`. -/
theorem Booked.blockStart_eq_iff (h : Booked ar s) (hf : Formatted s.arena) (hi : i < s.log.length)
    (hj : j < s.log.length) :
    blockStart s i = j ↔
      s.arena.cibBlock i = s.arena.cibBlock j ∧ s.arena.cibOffset j = 0 := by
  have hoff : s.arena.cibOffset j = 0 ↔ j % s.arena.clumpMax = 0 := by
    rw [Arena.cibOffset_eq, Nat.mul_eq_zero]
    exact or_iff_left (by decide)
  have hpos := s.arena.clumpMax_pos
  rw [h.cibBlock_eq_iff hf hi hj, hoff, blockStart]
  have hmod := Nat.div_add_mod j s.arena.clumpMax
  constructor
  · rintro rfl
    exact ⟨(Nat.mul_div_cancel _ hpos).symm, Nat.mul_mod_left _ _⟩
  · rintro ⟨hdiv, hzero⟩
    rw [hdiv, Nat.mul_comm]
    omega

/-- What a round does to the directory: the entry `j` is written if it is `broken`, and with a
block that was not in the cache the entries behind it are lost. -/
structure EntrySpec (env : SyncEnv) (s : ArenaState) (j : ℕ) (ci : ClumpInfo) (broken : Prop)
    (dc dc' : Dcache) : Prop where
  blocksize_eq : dc'.blocksize = dc.blocksize
  data : ∀ x < s.arena.memstats.used + u32Size,
    dc'.view (s.arena.base + x) = dc.view (s.arena.base + x)
  own : broken → Fixable env s j → slotBytes s.arena dc' j = packClumpInfo ci
  same : ¬broken → slotBytes s.arena dc' j = slotBytes s.arena dc j
  kept : ∀ i < s.log.length, i ≠ j →
    ¬(broken ∧ blockStart s i = j ∧ ¬env.present j .fixInfo (s.arena.cibBlock i) = true) →
    slotBytes s.arena dc' i = slotBytes s.arena dc i
  cleared : ∀ i < s.log.length, i ≠ j →
    broken ∧ blockStart s i = j ∧ ¬env.present j .fixInfo (s.arena.cibBlock i) = true →
    slotBytes s.arena dc' i = unwritten

variable {broken : Prop}

variable {ci : ClumpInfo}

/-- Nothing is written if the views are the same and no entry is lost. -/
theorem EntrySpec.of_view_eq (hbs : dc'.blocksize = dc.blocksize)
    (hview : ∀ a, dc'.view a = dc.view a) (hnot : broken → ¬Fixable env s j) (hb : Booked ar s)
    (hf : Formatted s.arena) (hj : j < s.log.length) : EntrySpec env s j ci broken dc dc' := by
  have hslot : ∀ i, slotBytes s.arena dc' i = slotBytes s.arena dc i :=
    fun i => map_congr_left fun _ _ => hview _
  refine ⟨hbs, fun _ _ => hview _, fun hbr hfix => absurd hfix (hnot hbr), fun _ => hslot j,
    fun i _ _ _ => hslot i, ?_⟩
  rintro i hi - ⟨hbr, hstart, -⟩
  exact absurd (.inl ((hb.blockStart_eq_iff hf hi hj).1 hstart).2) (hnot hbr)

/-- The entry is written. -/
theorem EntrySpec.of_write {mode : IOMode} (hb : Booked ar s) (hf : Formatted s.arena)
    (hj : j < s.log.length) (hbr : broken) (hbs : dc.blocksize = s.arena.blocksize)
    (hw : (env.cache dc j .fixInfo).WriteSpec dc' (s.arena.cibBlock j) mode
      (s.arena.cibOffset j) (packClumpInfo ci))
    (hrest : ∀ a, s.arena.cibBlock j ≤ a → a < s.arena.cibBlock j + s.arena.blocksize →
      (a < s.arena.cibBlock j + s.arena.cibOffset j ∨
        s.arena.cibBlock j + s.arena.cibOffset j + clumpInfoSize ≤ a) →
      dc'.view a = if s.arena.cibOffset j = 0 ∧
        ¬env.present j .fixInfo (s.arena.cibBlock j) = true then 0 else dc.view a) :
    EntrySpec env s j ci broken dc dc' := by
  have hbs' : (env.cache dc j .fixInfo).blocksize = s.arena.blocksize := hbs
  have hview : ∀ a, (env.cache dc j .fixInfo).view a = dc.view a := fun a => Dcache.view_settle a
  obtain ⟨-, -, hlog⟩ := hb.cibBlock_spec hf hj
  -- another entry is outside the block, or beside the entry `j` in it
  have hother : ∀ i < s.log.length, i ≠ j → ∀ m < clumpInfoSize,
      dc'.view (s.arena.cibBlock i + s.arena.cibOffset i + m) =
        if blockStart s i = j ∧ ¬env.present j .fixInfo (s.arena.cibBlock i) = true then 0
        else dc.view (s.arena.cibBlock i + s.arena.cibOffset i + m) := by
    intro i hi hne m hm
    have hoffi := s.arena.cibOffset_add_le i
    simp only [hb.blockStart_eq_iff hf hi hj]
    by_cases hblock : s.arena.cibBlock i = s.arena.cibBlock j
    · have hdisj := hb.cibOffset_disjoint hf hi hj hne hblock
      rw [hblock, hrest _ (by omega) (by omega) (by omega)]
      simp only [true_and]
    · have hdisj := hb.cibBlock_disjoint hf hi hj hblock
      rw [if_neg fun h => hblock h.1.1, hw.outside _ (by omega), hview]
  refine ⟨hw.blocksize_eq, ?_, ?_, fun h => absurd hbr h, ?_, ?_⟩
  · intro x hx
    rw [hw.outside _ (.inl (by omega)), hview]
  · intro _ _
    refine ext_getElem (by simp [slotBytes]) fun m h1 h2 => ?_
    have hbyte := hw.written m h2
    rw [getD_eq_getElem _ _ h2] at hbyte
    simpa [slotBytes, Arena.viewBytes] using hbyte
  · intro i hi hne hnot
    simp only [slotBytes, Arena.viewBytes]
    refine map_congr_left fun m hm => ?_
    rw [hother i hi hne m (mem_range.1 hm), if_neg fun h => hnot ⟨hbr, h⟩]
  · rintro i hi hne ⟨-, hlost⟩
    have hzero : ∀ m ∈ List.range clumpInfoSize,
        dc'.view (s.arena.cibBlock i + s.arena.cibOffset i + m) = 0 := by
      intro m hm
      rw [hother i hi hne m (mem_range.1 hm), if_pos hlost]
    rw [slotBytes, Arena.viewBytes, map_congr_left hzero]
    rfl

/-! ### One round -/

variable {lump : List UInt8}

/-- What is decoded has the length the clump says. -/
theorem length_decode (hdata : data.length = cl.info.size.toNat) (h : decode cl data = some lump) :
    lump.length = cl.info.uncsize.toNat := by
  rw [decode] at h
  split at h
  · split at h
    · cases h
    · split at h
      · cases h
      · rename_i hlen
        cases h
        exact not_not.1 hlen
  · split at h
    · split at h
      · cases h
      · rename_i hsize
        cases h
        rw [length_take, hdata, not_not.1 hsize, Nat.min_self]
    · cases h

/-- The data of an honest clump is right. -/
theorem syncData_honest (hdata : e.data.length = e.clump.info.size.toNat)
    (hdecode : decode e.clump e.data = some lump) (hscore : scoreMem lump = e.clump.info.score) :
    syncData scoreMem env fix j aa st (Arena.rereadClump e.clump) lump =
      some (Arena.rereadClump e.clump, false, st) := by
  have hlen : lump.take (Arena.rereadClump e.clump).info.uncsize.toNat = lump :=
    take_of_length_le (length_decode hdata hdecode).le
  have heq : (Arena.rereadClump e.clump).info.score = scoreMem lump := hscore.symm
  have hvalid : ¬vtTypeValid (Arena.rereadClump e.clump).info.type.toNat < 0 := by
    rw [vtTypeValid]
    split <;> decide
  simp only [syncData, hlen]
  rw [if_neg fun h => h.1 heq, if_neg]
  rintro (h | h)
  · exact h heq
  · exact hvalid h

/-- The entry of a clump is compared with the clump. -/
theorem Synced.entry (h : Synced env s dc k b j st) (hb : Booked ar s) (hf : Formatted s.arena)
    (he : s.log[j]? = some e) (hload : ¬isCorrupt (Arena.rereadClump e.clump)) :
    ∃ broken err, syncEntry env j false
        { st with arena := st.arena.stepUsed (Arena.rereadClump e.clump) }
        (Arena.rereadClump e.clump) =
          (broken, { st with arena := st.arena.stepUsed (Arena.rereadClump e.clump), err := err }) ∧
      (broken = true ↔ Needs env s dc k j) ∧ (.fixErr ∈ err ↔ .fixErr ∈ st.err) := by
  have hlt : j < s.log.length := (List.getElem?_eq_some_iff.1 he).1
  obtain ⟨hdvd, -⟩ := hb.cibBlock_spec hf hlt
  obtain ⟨hright, hwrong⟩ := h.ahead j e le_rfl he
  generalize har : st.arena.stepUsed (Arena.rereadClump e.clump) = ar₁
  have hblock : ar₁.cibBlock j = s.arena.cibBlock j := by rw [← har, h.arena_eq]; rfl
  have hoffset : ar₁.cibOffset j = s.arena.cibOffset j := by rw [← har, h.arena_eq]; rfl
  have hbs : st.dcache.blocksize = ar₁.blocksize := by rw [h.blocksize_eq, ← har, h.arena_eq]; rfl
  have hclumps : j < ar₁.memstats.clumps := by
    rw [← har, h.arena_eq]
    exact Nat.lt_succ_self j
  have hdvd₁ : ar₁.blocksize ∣ ar₁.cibBlock j := by rwa [hblock, ← hbs, h.blocksize_eq]
  by_cases hgets : env.Gets j .info (s.arena.cibBlock j)
  · have hread : ar₁.readClumpInfo (env.readOk j .info) (env.cache st.dcache j .info) j =
        some (unpackClumpInfo (Arena.viewBytes st.dcache
          (s.arena.cibBlock j + s.arena.cibOffset j) clumpInfoSize)) := by
      rw [← hblock, ← hoffset]
      exact Arena.readClumpInfo_settle hbs hclumps hdvd₁ (by rw [hblock]; exact hgets)
    by_cases hthere : Written s dc j ∧ ¬Cleared env s dc k j j
    · have hslot : Arena.viewBytes st.dcache (s.arena.cibBlock j + s.arena.cibOffset j)
          clumpInfoSize = packClumpInfo e.clump.info ++ [] := by
        rw [append_nil]
        exact hright hthere
      rw [hslot, unpackClumpInfo_pack] at hread
      refine ⟨false, st.err, ?_, ?_, Iff.rfl⟩
      · simp only [syncEntry, hread]
        rw [if_neg (by decide)]
        exact if_neg (not_not_intro rfl)
      · refine iff_of_false (by decide) ?_
        rintro (hn | hn)
        · exact hn ⟨hgets, hthere.1⟩
        · exact hthere.2 hn
    · have hslot : Arena.viewBytes st.dcache (s.arena.cibBlock j + s.arena.cibOffset j)
          clumpInfoSize = unwritten := hwrong hthere
      have hne : unpackClumpInfo unwritten ≠ (Arena.rereadClump e.clump).info := by
        intro heq
        refine hload ?_
        rw [isCorrupt, ← heq]
        decide
      rw [hslot] at hread
      refine ⟨true, insert (if unpackClumpInfo unwritten = zeroInfo then .ciZero else
        .ciErr) st.err,
        ?_, ?_, ?_⟩
      · simp only [syncEntry, hread, Bool.false_eq_true, if_false]
        rw [if_pos hne]
      · refine iff_of_true rfl ?_
        by_cases hwritten : Written s dc j
        · exact .inr (not_not.1 fun hn => hthere ⟨hwritten, hn⟩)
        · exact .inl fun hr => hwritten hr.2
      · rw [Finset.mem_insert]
        refine or_iff_right ?_
        split <;> decide
  · have hread : ar₁.readClumpInfo (env.readOk j .info) (env.cache st.dcache j .info) j = none :=
      Arena.readClumpInfo_fail hbs hdvd₁ (by rw [hblock]; exact hgets)
    refine ⟨true, st.err, ?_, iff_of_true rfl (.inl fun hr => hgets hr.1), Iff.rfl⟩
    simp only [syncEntry, hread]
    rfl

/-- The entry of a clump is corrected. -/
theorem Synced.correct (h : Synced env s dc k b j st) (hb : Booked ar s) (hf : Formatted s.arena)
    (he : s.log[j]? = some e) (hload : ¬isCorrupt (Arena.rereadClump e.clump)) (broken : Bool)
    {st₁ : SyncState} (harena : st₁.arena = st.arena.stepUsed (Arena.rereadClump e.clump))
    (hdc : st₁.dcache = st.dcache) :
    (syncFix env true j broken st₁ (Arena.rereadClump e.clump)).arena = st₁.arena ∧
      EntrySpec env s j e.clump.info (broken = true) st.dcache
        (syncFix env true j broken st₁ (Arena.rereadClump e.clump)).dcache ∧
      (.fixErr ∈ (syncFix env true j broken st₁ (Arena.rereadClump e.clump)).err ↔
        .fixErr ∈ st₁.err ∨ (broken = true ∧ ¬Fixable env s j)) ∧
      (false ∈ (syncFix env true j broken st₁ (Arena.rereadClump e.clump)).fixes ↔
        false ∈ st₁.fixes ∨ (broken = true ∧ ¬Fixable env s j)) := by
  have hlt : j < s.log.length := (List.getElem?_eq_some_iff.1 he).1
  obtain ⟨hdvd, -⟩ := hb.cibBlock_spec hf hlt
  cases broken with
  | false =>
    refine ⟨rfl, ?_, by simp [syncFix], by simp [syncFix]⟩
    change EntrySpec env s j e.clump.info _ st.dcache st₁.dcache
    rw [hdc]
    exact .of_view_eq rfl (fun _ => rfl) (by simp) hb hf hlt
  | true =>
    have hblock : st₁.arena.cibBlock j = s.arena.cibBlock j := by rw [harena, h.arena_eq]; rfl
    have hoffset : st₁.arena.cibOffset j = s.arena.cibOffset j := by rw [harena, h.arena_eq]; rfl
    have hbs : st.dcache.blocksize = st₁.arena.blocksize := by
      rw [h.blocksize_eq, harena, h.arena_eq]
      rfl
    have hclumps : j + 1 = st₁.arena.memstats.clumps := by rw [harena, h.arena_eq]; rfl
    have hdvd₁ : st₁.arena.blocksize ∣ st₁.arena.cibBlock j := by
      rwa [hblock, ← hbs, h.blocksize_eq]
    have hiff : Fixable env s j ↔ st₁.arena.cibOffset j = 0 ∨
        env.present j .fixInfo (st₁.arena.cibBlock j) = true ∨
          env.readOk j .fixInfo (st₁.arena.cibBlock j) = true := by
      rw [hblock, hoffset]
      exact Iff.rfl
    by_cases hfix : Fixable env s j
    · obtain ⟨mode, dc', hwrite, hspec, hrest⟩ := Arena.writeClumpInfo_settle hbs
        (Arena.rereadClump e.clump).info hclumps hdvd₁ (hiff.1 hfix)
      rw [Arena.packClumpInfo_rereadClump hload, hblock, hoffset] at hspec
      rw [hblock, hoffset, ← hbs, h.blocksize_eq] at hrest
      have heq : syncFix env true j true st₁ (Arena.rereadClump e.clump) =
          { st₁ with flush := true }.fixed (0, dc') true := by
        simp only [syncFix, hdc, SyncEnv.cache, hwrite]
        rfl
      rw [heq]
      refine ⟨rfl, .of_write hb hf hlt rfl h.blocksize_eq hspec hrest, ?_, ?_⟩
      · simp [SyncState.fixed, hfix]
      · simp [SyncState.fixed, hfix]
    · have hwrite := Arena.writeClumpInfo_fail hbs (Arena.rereadClump e.clump).info hdvd₁
        (mt hiff.2 hfix)
      have heq : syncFix env true j true st₁ (Arena.rereadClump e.clump) =
          { st₁ with flush := true }.fixed (-1, env.cache st.dcache j .fixInfo) false := by
        simp only [syncFix, hdc, SyncEnv.cache, hwrite]
        rfl
      rw [heq]
      refine ⟨rfl, .of_view_eq rfl (fun _ => Dcache.view_settle _) (fun _ => hfix) hb hf hlt,
        ?_, ?_⟩
      · simp [SyncState.fixed, hfix]
      · simp [SyncState.fixed, hfix]

theorem arenaAt_succ (he : s.log[j]? = some e) :
    ((arenaAt s j b).stepUsed (Arena.rereadClump e.clump)).stepSizes
      (Arena.rereadClump e.clump) = arenaAt s (j + 1) b := by
  rw [arenaAt, arenaAt, statsAt_succ he]
  rfl

theorem blockStart_le (i : ℕ) : blockStart s i ≤ i := Nat.div_mul_le_self i s.arena.clumpMax

/-- The entries that are lost when the clump `j` has been dealt with. -/
theorem cleared_succ (hkj : k ≤ j) :
    Cleared env s dc k (j + 1) i ↔ Cleared env s dc k j i ∨
      (Needs env s dc k j ∧ blockStart s i = j ∧
        ¬env.present j .fixInfo (s.arena.cibBlock i) = true) := by
  constructor
  · rintro ⟨h1, h2, h3, h4⟩
    rcases Nat.lt_succ_iff_lt_or_eq.1 h2 with hlt | heq
    · exact .inl ⟨h1, hlt, h3, h4⟩
    · rw [heq] at h3 h4
      exact .inr ⟨.inl h3, heq, h4⟩
  · rintro (⟨h1, h2, h3, h4⟩ | ⟨hneeds, heq, h4⟩)
    · exact ⟨h1, h2.trans (Nat.lt_succ_self j), h3, h4⟩
    · -- the first entry of a block is not lost with it
      have hfirst : blockStart s j = j := by
        rw [← heq, blockStart, blockStart, Nat.mul_div_cancel _ s.arena.clumpMax_pos]
      have hwrong : ¬EntryRight env s dc j := by
        refine hneeds.resolve_right fun hc => ?_
        have := hc.2.1
        omega
      rw [Cleared, heq]
      exact ⟨hkj, Nat.lt_succ_self j, hwrong, h4⟩

theorem fixFails_succ (hkj : k ≤ j) : FixFails env s dc k (j + 1) ↔
    FixFails env s dc k j ∨ (Needs env s dc k j ∧ ¬Fixable env s j) := by
  constructor
  · rintro ⟨i, h1, h2, h3⟩
    rcases Nat.lt_succ_iff_lt_or_eq.1 h2 with hlt | rfl
    · exact .inl ⟨i, h1, hlt, h3⟩
    · exact .inr h3
  · rintro (⟨i, h1, h2, h3⟩ | h3)
    · exact ⟨i, h1, h2.trans (Nat.lt_succ_self j), h3⟩
    · exact ⟨j, hkj, Nat.lt_succ_self j, h3⟩

/-- The entries behind the clump `j` and before it, when its own has been corrected. -/
theorem Synced.of_entrySpec (h : Synced env s dc k b j st) (he : s.log[j]? = some e) (hkj : k ≤ j)
    (hbroken : broken ↔ Needs env s dc k j) {st' : SyncState}
    (harena : st'.arena = arenaAt s (j + 1) b)
    (hspec : EntrySpec env s j e.clump.info broken st.dcache st'.dcache)
    (herr : .fixErr ∈ st'.err ↔ .fixErr ∈ st.err ∨ (broken ∧ ¬Fixable env s j))
    (hfixes : false ∈ st'.fixes ↔ false ∈ st.fixes ∨ (broken ∧ ¬Fixable env s j)) :
    Synced env s dc k b (j + 1) st' := by
  have hlt : j < s.log.length := (List.getElem?_eq_some_iff.1 he).1
  have hbefore : ∀ i < j, slotBytes s.arena st'.dcache i = slotBytes s.arena st.dcache i := by
    intro i hi
    refine hspec.kept i (by omega) (by omega) fun hn => ?_
    have := blockStart_le (s := s) i
    omega
  refine ⟨harena, hspec.blocksize_eq.trans h.blocksize_eq, ?_, ?_, ?_, ?_, ?_, ?_⟩
  · intro x hx
    rw [hspec.data x hx, h.data x hx]
  · intro i hik hilen
    rw [hbefore i (by omega), h.early i hik hilen]
  · intro i e' hki hij he' hfix
    rcases Nat.lt_succ_iff_lt_or_eq.1 hij with hlt' | rfl
    · rw [hbefore i hlt', h.behind i e' hki hlt' he' hfix]
    · obtain rfl := some.inj (he.symm.trans he')
      by_cases hneeds : Needs env s dc k i
      · exact hspec.own (hbroken.2 hneeds) (hfix hneeds)
      · have hright : EntryRight env s dc i := not_not.1 fun hn => hneeds (.inl hn)
        rw [hspec.same fun hbr => hneeds (hbroken.1 hbr)]
        exact (h.ahead i e le_rfl he).1 ⟨hright.2, fun hc => hneeds (.inr hc)⟩
  · intro i e' hji he'
    have hilen : i < s.log.length := (List.getElem?_eq_some_iff.1 he').1
    obtain ⟨hthere, hgone⟩ := h.ahead i e' (by omega) he'
    by_cases hlost : broken ∧ blockStart s i = j ∧
        ¬env.present j .fixInfo (s.arena.cibBlock i) = true
    · have hcleared : Cleared env s dc k (j + 1) i :=
        (cleared_succ hkj).2 (.inr ⟨hbroken.1 hlost.1, hlost.2⟩)
      exact ⟨fun hn => absurd hcleared hn.2,
        fun _ => hspec.cleared i hilen (by omega) hlost⟩
    · have hiff : Cleared env s dc k (j + 1) i ↔ Cleared env s dc k j i := by
        rw [cleared_succ hkj]
        exact or_iff_left fun hn => hlost ⟨hbroken.2 hn.1, hn.2⟩
      rw [hiff, hspec.kept i hilen (by omega) hlost]
      exact ⟨hthere, hgone⟩
  · rw [herr, h.err, hbroken, fixFails_succ hkj]
  · rw [hfixes, h.fixes, hbroken, fixFails_succ hkj]

/-- **One round** deals with one clump. -/
theorem Synced.step (h : Synced env s dc k b j st) (hb : Booked ar s) (hf : Formatted s.arena)
    (hc : Crash scoreMem s dc) (hkj : k ≤ j) (hj : j < s.log.length)
    (hseen : MagicSeen env s j) (hreads : Reads env s j) (hload : Loadable s j) :
    ∃ st', syncClump scoreMem env true st = some (true, st') ∧
      Synced env s dc k b (j + 1) st' := by
  have hend := hb.start_le (b := b) hf hj.le
  have he := List.getElem?_eq_getElem hj
  generalize s.log[j] = e at he
  have hmem : e ∈ s.log := List.mem_of_getElem? he
  obtain ⟨hcheck, hdata⟩ := hb.entries e hmem
  obtain ⟨lump, hdecode, hscore⟩ := hc.honest e hmem
  have hnot := hload e he
  obtain ⟨hused, hclumps, hcm⟩ := h.counts
  have hmagic := (h.magic_of_seen hb hf hj.le hseen).resolve_right (by omega)
  have hview := hb.log.viewBytes_entry he hdata
  have hnext := startOf_mono s.log (show j + 1 ≤ s.log.length from hj)
  rw [startOf_succ he, LogEntry.size] at hnext
  rw [← h.viewBytes_eq .load (by rw [hb.log.used_eq]; omega)] at hview
  have hlump := Arena.loadClump_eq (h.coherent .load) (h.cache_blocksize .load) hcheck hdata hview
    (by omega) ((h.reads_iff hb hf he).2 hreads)
  rw [if_neg hnot, hdecode] at hlump
  rw [← h.arena_eq] at hmagic hlump
  obtain ⟨broken, err, hentry, hbroken, herr⟩ := h.entry hb hf he hnot
  generalize hst₁ : ({ st with arena := st.arena.stepUsed (Arena.rereadClump e.clump), err := err }
    : SyncState) = st₁ at hentry
  have harena₁ : st₁.arena = st.arena.stepUsed (Arena.rereadClump e.clump) := by rw [← hst₁]
  have hdc₁ : st₁.dcache = st.dcache := by rw [← hst₁]
  have herr₁ : st₁.err = err := by rw [← hst₁]
  have hfixes₁ : st₁.fixes = st.fixes := by rw [← hst₁]
  obtain ⟨harena, hspec, herr', hfixes'⟩ := h.correct hb hf he hnot broken harena₁ hdc₁
  rw [herr₁, herr] at herr'
  rw [hfixes₁] at hfixes'
  refine ⟨syncCount env true j false st (Arena.rereadClump e.clump), ?_, ?_⟩
  · rw [syncClump_magic hused hclumps (hmagic.trans (congrArg UInt32.toNat hcm.symm))
      (by rw [hmagic]; exact hf.magic_ne), hlump]
    simp only [syncData_honest hdata hdecode hscore]
  · simp only [syncCount, hentry]
    refine h.of_entrySpec he hkj hbroken ?_ hspec herr' hfixes'
    simp only [harena, harena₁, h.arena_eq]
    exact arenaAt_succ he

/-! ### The whole loop -/

/-- The clumps from `j` up to `j'` are loaded. -/
def Passes (env : SyncEnv) (s : ArenaState) (j j' : ℕ) : Prop :=
  ∀ i, j ≤ i → i < j' → MagicSeen env s i ∧ Reads env s i ∧ Loadable s i

/-- Where the loop ends, and with what. -/
structure Ended (scoreMem : List UInt8 → Score) (env : SyncEnv) (s : ArenaState) (dc : Dcache)
    (k : ℕ) (b : Bool) (j n : ℕ) (st : SyncState) (j' : ℕ) : Prop where
  start_le : j ≤ j'
  le_length : j' ≤ s.log.length
  le_count : j' ≤ j + n
  passes : Passes env s j j'
  result :
    -- the count is used up, or no clump is loaded
    (∃ st', syncLoop scoreMem env true n st = some st' ∧ Synced env s dc k b j' st' ∧
      (j' = j + n ∨ MagicSeen env s j' ∧
        (j' = s.log.length ∨ ¬Reads env s j' ∨ ¬Loadable s j'))) ∨
    -- memory that was not read is unpacked
    (syncLoop scoreMem env true n st = none ∧
      ¬(env.GetsBytes s j' .magic u32Size ∧ Reads env s j') ∧ MagicSeen env s j' ∧
        (j' = s.log.length ∨ ¬Reads env s j' ∨ ¬Loadable s j')) ∨
    -- the magic number is not seen
    (j' < j + n ∧ ¬MagicSeen env s j' ∧ ∃ (st₀ : SyncState) (r : ℤ × Dcache),
      Synced env s dc k b j' st₀ ∧
      syncLoop scoreMem env true n st = some (st₀.fixed r (r.1 = 1)) ∧ 0 ≤ r.1 ∧
      (r.1 = 1 ↔ env.GetsBytes s j' .fixMagic u32Size))

/-- **The loop** deals with the clumps up to one that is not loaded, or that is not seen. -/
theorem Synced.loop (h : Synced env s dc k b j st) (hb : Booked ar s) (hf : Formatted s.arena)
    (hc : Crash scoreMem s dc) (hkj : k ≤ j) (hj : j ≤ s.log.length) (n : ℕ) :
    ∃ j', Ended scoreMem env s dc k b j n st j' := by
  induction n generalizing j st with
  | zero =>
    refine ⟨j, le_rfl, hj, le_rfl, fun i h1 h2 => absurd h1 (by omega), ?_⟩
    exact .inl ⟨st, rfl, h, .inl rfl⟩
  | succ n ih =>
    by_cases hseen : MagicSeen env s j
    · by_cases hstop : j = s.log.length ∨ ¬Reads env s j ∨ ¬Loadable s j
      · refine ⟨j, le_rfl, hj, by omega, fun i h1 h2 => absurd h1 (by omega), ?_⟩
        rcases h.stop scoreMem hb hf hj hseen hstop with hround | ⟨hround, hnot⟩
        · exact .inl ⟨st, by rw [syncLoop, hround], h, .inr ⟨hseen, hstop⟩⟩
        · exact .inr (.inl ⟨by rw [syncLoop, hround], hnot, hseen, hstop⟩)
      · simp only [not_or, not_not] at hstop
        obtain ⟨hne, hreads, hload⟩ := hstop
        obtain ⟨st', hround, h'⟩ := h.step hb hf hc hkj (by omega) hseen hreads hload
        obtain ⟨j', hend⟩ := ih h' (by omega) (by omega)
        have hloop : syncLoop scoreMem env true (n + 1) st = syncLoop scoreMem env true n st' := by
          rw [syncLoop, hround]
        have hcount : j + 1 + n = j + (n + 1) := by omega
        have hresult := hend.result
        rw [← hloop, hcount] at hresult
        have hstart := hend.start_le
        have hle := hend.le_count
        refine ⟨j', by omega, hend.le_length, by omega, fun i h1 h2 => ?_, hresult⟩
        rcases Nat.lt_or_eq_of_le h1 with hlt | rfl
        · exact hend.passes i hlt h2
        · exact ⟨hseen, hreads, hload⟩
    · obtain ⟨r, hround, hr⟩ := h.unseen scoreMem hb hf hj hseen
      refine ⟨j, le_rfl, hj, by omega, fun i h1 h2 => absurd h1 (by omega), .inr (.inr ?_)⟩
      exact ⟨by omega, hseen, st, r, h, by rw [syncLoop, hround], hr⟩

/-! ### Recovery -/

/-- The start of `syncarena`. -/
theorem Synced.start (hc : Crash scoreMem s dc) (har : st.arena = arenaAt s k b)
    (hdc : st.dcache = dc) (herr : st.err = ∅) (hfixes : st.fixes = []) :
    Synced env s dc k b k st := by
  have hfails : ¬FixFails env s dc k k := by
    rintro ⟨i, h1, h2, -⟩
    omega
  refine ⟨har, by rw [hdc, hc.blocksize_eq], by rw [hdc]; exact hc.data, by rw [hdc]; simp,
    fun i e h1 h2 => absurd h1 (by omega), ?_, ?_, ?_⟩
  · intro i e _ he
    have hcleared : ¬Cleared env s dc k k i := by
      rintro ⟨h1, h2, -⟩
      omega
    rw [hdc]
    refine ⟨fun h => h.1 e he, fun h => ?_⟩
    refine (hc.slots i e he).resolve_left fun hslot => h ⟨fun e' he' => ?_, hcleared⟩
    rwa [← some.inj (he.symm.trans he')]
  · rw [herr]
    exact iff_of_false (by simp) hfails
  · rw [hfixes]
    exact iff_of_false (by simp) hfails

/-- The books are kept in every run. -/
theorem booked_run {ops : List ArenaOp}
    (hrun : Run (Guarded WriteOk ArenaStep) (freshState ar) ops s) : Booked ar s :=
  hrun.guarded_inv (I := Booked ar) (fun _ _ _ h hok hstep => booked_step h hok hstep)
    (booked_fresh ar)

/-- Every block can be read. -/
def SyncEnv.AllOk (env : SyncEnv) : Prop := ∀ j call b, env.readOk j call b = true

theorem SyncEnv.AllOk.gets (h : env.AllOk) (call : SyncCall) (n : ℕ) :
    env.GetsBytes s j call n := fun _ _ _ _ => .inr (h _ _ _)

/-- What `syncarena` is for: the statistics are those behind the last write, and the directory has
the entry of every clump. -/
def Recovered (s : ArenaState) (r : SyncState) : Prop :=
  { r.arena.memstats with sealed := s.arena.memstats.sealed } = s.arena.memstats ∧
    ∀ i e, s.log[i]? = some e → slotBytes s.arena r.dcache i = packClumpInfo e.clump.info

/-- **The failure nobody notices**: the loop comes to a magic number that it does not see and
cannot write over, and no correction before failed. -/
def Unnoticed (env : SyncEnv) (s : ArenaState) (dc : Dcache) (k n : ℕ) : Prop :=
  ∃ j, k ≤ j ∧ j ≤ s.log.length ∧ j < k + n ∧ Passes env s k j ∧ ¬FixFails env s dc k j ∧
    ¬MagicSeen env s j ∧ ¬env.GetsBytes s j .fixMagic u32Size

/-- The arena at an earlier trailer. -/
theorem arenaAt_initial {s₁ : ArenaState} (h₁ : Booked ar s₁) (hpre : s₁.log <+: s.log) :
    ({ s.arena with memstats := s₁.arena.memstats } : Arena) =
      arenaAt s s₁.log.length s₁.arena.memstats.sealed := by
  have hstats : s₁.arena.memstats = statsAt s₁.log s₁.log.length s₁.arena.memstats.sealed :=
    congrArg Arena.memstats h₁.arena_eq
  rw [arenaAt, ← statsAt_initial hpre, ← hstats]

variable {ar₀ : Arena}

/-- What is found behind the loop. -/
theorem syncArena_eq {r : SyncState} (h : syncArena scoreMem env true ar₀ dc n = some r) :
    ∃ st, syncLoop scoreMem env true n ⟨ar₀, dc, ∅, false, []⟩ = some st ∧
      r.arena = st.arena ∧ (∀ a, r.dcache.view a = st.dcache.view a) ∧
      (.fixErr ∈ r.err ↔ .fixErr ∈ st.err) ∧ r.fixes = st.fixes := by
  rw [syncArena, map_eq_some_iff] at h
  obtain ⟨st, hloop, rfl⟩ := h
  refine ⟨st, hloop, ?_⟩
  simp only
  split <;> split <;> simp [Dcache.view_flush]

theorem syncArena_isSome {st : SyncState}
    (h : syncLoop scoreMem env true n ⟨ar₀, dc, ∅, false, []⟩ = some st) :
    ∃ r, syncArena scoreMem env true ar₀ dc n = some r := by
  rw [syncArena, h]
  exact ⟨_, rfl⟩

/-- With a disk that can be read, the log is recovered exactly if the loop reaches its end and
the entries before the trailer are there. -/
theorem Ended.recovered_iff
    (h : Ended scoreMem env s dc k b k n ⟨arenaAt s k b, dc, ∅, false, []⟩ j) (hb : Booked ar s)
    (hn : s.log.length ≤ k + n) (hok : env.AllOk) :
    (∃ r, syncArena scoreMem env true (arenaAt s k b) dc n = some r ∧ Recovered s r) ↔
      (∀ i, k ≤ i → Loadable s i) ∧ ∀ i < k, Written s dc i := by
  have hseen : MagicSeen env s j := .inl (hok.gets _ _)
  have hreads : Reads env s j := hok.gets _ _
  obtain ⟨st, hloop, hst, hstop⟩ : ∃ st, syncLoop scoreMem env true n
      ⟨arenaAt s k b, dc, ∅, false, []⟩ = some st ∧ Synced env s dc k b j st ∧
        (j = k + n ∨ j = s.log.length ∨ ¬Loadable s j) := by
    rcases h.result with ⟨st, hloop, hst, hstop⟩ | ⟨-, hnot, -⟩ | ⟨-, hnot, -⟩
    · refine ⟨st, hloop, hst, hstop.imp_right fun hs => hs.2.imp_right fun hr => ?_⟩
      exact hr.resolve_left (not_not_intro hreads)
    · exact absurd ⟨hok.gets _ _, hreads⟩ hnot
    · exact absurd hseen hnot
  have hlength := h.le_length
  have hstats : s.arena.memstats = statsAt s.log s.log.length s.arena.memstats.sealed :=
    congrArg Arena.memstats hb.arena_eq
  constructor
  · rintro ⟨r, hr, hrec, hslots⟩
    obtain ⟨st', hloop', harena, hview, -⟩ := syncArena_eq hr
    obtain rfl : st = st' := some.inj (hloop.symm.trans hloop')
    have hj : j = s.log.length := by
      have hclumps := congrArg ATailStats.clumps hrec
      rw [harena, hst.arena_eq, hstats] at hclumps
      exact hclumps
    refine ⟨fun i hki => ?_, fun i hik e he => ?_⟩
    · by_cases hij : i < j
      · exact (h.passes i hki hij).2.2
      · intro e he
        have hi := (List.getElem?_eq_some_iff.1 he).1
        omega
    · have hi := (List.getElem?_eq_some_iff.1 he).1
      rw [← hst.early i hik hi, ← hslots i e he]
      exact (map_congr_left fun _ _ => hview _).symm
  · rintro ⟨hload, hwritten⟩
    obtain ⟨r, hr⟩ := syncArena_isSome hloop
    obtain ⟨st', hloop', harena, hview, -⟩ := syncArena_eq hr
    obtain rfl : st = st' := some.inj (hloop.symm.trans hloop')
    have hj : j = s.log.length := by
      have hstart := h.start_le
      rcases hstop with hj | hj | hj
      · omega
      · exact hj
      · exact absurd (hload j hstart) hj
    refine ⟨r, hr, ?_, fun i e he => ?_⟩
    · rw [harena, hst.arena_eq, hj, arenaAt, hstats]
      rfl
    · have hi := (List.getElem?_eq_some_iff.1 he).1
      have hslot : slotBytes s.arena r.dcache i = slotBytes s.arena st.dcache i :=
        map_congr_left fun _ _ => hview _
      rw [hslot]
      by_cases hik : i < k
      · rw [hst.early i hik hi]
        exact hwritten i hik e he
      · exact hst.behind i e (by omega) (by omega) he fun _ => .inr (.inr (hok _ _ _))

/-- A corrective write that fails is reported unless it is that of a magic number alone. -/
theorem Ended.reported_iff
    (h : Ended scoreMem env s dc k b k n ⟨arenaAt s k b, dc, ∅, false, []⟩ j) :
    (∀ r, syncArena scoreMem env true (arenaAt s k b) dc n = some r → false ∈ r.fixes →
      .fixErr ∈ r.err) ↔ ¬Unnoticed env s dc k n := by
  constructor
  · rintro hreported ⟨j₀, hk, hj₀, hcount, hpass, hfails, hseen, hgets⟩
    have hstopped : ¬(MagicSeen env s j ∧ j < j₀ ∧
        (j = s.log.length ∨ ¬Reads env s j ∨ ¬Loadable s j)) := by
      rintro ⟨-, hlt, hstop⟩
      obtain ⟨-, hreads, hload⟩ := hpass j h.start_le hlt
      rcases hstop with hj | hr | hl
      · omega
      · exact hr hreads
      · exact hl hload
    -- the loop ends at this magic number
    have hle : j ≤ j₀ := by
      by_contra hgt
      exact hseen (h.passes j₀ hk (by omega)).1
    rcases h.result with ⟨st, -, -, hstop⟩ | ⟨-, -, hs, hstop⟩ | ⟨-, hs, st₀, r₀, hst,
      hloop, h0, h1⟩
    · rcases hstop with hj | ⟨hs, hstop⟩
      · omega
      · have hne : j ≠ j₀ := fun heq => hseen (heq ▸ hs)
        exact hstopped ⟨hs, by omega, hstop⟩
    · have hne : j ≠ j₀ := fun heq => hseen (heq ▸ hs)
      exact hstopped ⟨hs, by omega, hstop⟩
    · have heq : j = j₀ := by
        by_contra hne
        exact hs (hpass j h.start_le (by omega)).1
      subst heq
      have hfail : ¬r₀.1 = 1 := mt h1.1 hgets
      obtain ⟨r, hr⟩ := syncArena_isSome hloop
      obtain ⟨st', hloop', -, -, herr, hfixes⟩ := syncArena_eq hr
      obtain rfl := some.inj (hloop.symm.trans hloop')
      have hin : false ∈ r.fixes := by
        rw [hfixes]
        simp [SyncState.fixed, hfail]
      have herr' := herr.1 (hreported r hr hin)
      rw [SyncState.fixed, if_neg (by omega)] at herr'
      exact hfails (hst.err.1 herr')
  · intro hnot r hr hin
    obtain ⟨st', hloop', -, -, herr, hfixes⟩ := syncArena_eq hr
    rw [hfixes] at hin
    rw [herr]
    rcases h.result with ⟨st, hloop, hst, -⟩ | ⟨hloop, -⟩ | ⟨hlt, hs, st₀, r₀, hst, hloop, h0, h1⟩
    · obtain rfl := some.inj (hloop.symm.trans hloop')
      exact hst.err.2 (hst.fixes.1 hin)
    · rw [hloop] at hloop'
      cases hloop'
    · obtain rfl := some.inj (hloop.symm.trans hloop')
      rw [SyncState.fixed, if_neg (by omega)]
      by_cases hfails : FixFails env s dc k j
      · exact hst.err.2 hfails
      · by_cases hgets : env.GetsBytes s j .fixMagic u32Size
        · have hdone : r₀.1 = 1 := h1.2 hgets
          simp only [SyncState.fixed, hdone, decide_true, mem_append, mem_singleton,
            Bool.false_eq_true, or_false] at hin
          exact absurd (hst.fixes.1 hin) hfails
        · exact absurd ⟨j, h.start_le, h.le_length, hlt, h.passes, hfails, hs, hgets⟩ hnot

/-- **Recovery**: the log is recovered, and every corrective write that fails is reported, exactly
if the clumps behind the trailer are not read back as corrupt ones, the entries before it are
there, and no correction of a magic number is the only one to fail. -/
theorem syncArena_iff {s₁ : ArenaState} {ops₁ ops : List ArenaOp} {n : ℕ}
    (h₁ : Run (Guarded WriteOk ArenaStep) (freshState ar) ops₁ s₁)
    (hrun : Run (Guarded WriteOk ArenaStep) s₁ ops s) (hf : Formatted s.arena)
    (hc : Crash scoreMem s dc) (hn : s.log.length ≤ s₁.log.length + n) :
    ((env.AllOk → ∃ r, syncArena scoreMem env true
          { s.arena with memstats := s₁.arena.memstats } dc n = some r ∧ Recovered s r) ∧
      ∀ r, syncArena scoreMem env true { s.arena with memstats := s₁.arena.memstats } dc n =
        some r → false ∈ r.fixes → .fixErr ∈ r.err) ↔
    (env.AllOk → (∀ i, s₁.log.length ≤ i → Loadable s i) ∧
      ∀ i < s₁.log.length, Written s dc i) ∧ ¬Unnoticed env s dc s₁.log.length n := by
  have hb₁ := booked_run h₁
  have hb := booked_run (h₁.append hrun)
  have hext := hrun.guarded_inv (I := fun u => LogHolds u ∧ Extends s₁ u) (logHolds_since s₁)
    ⟨hb₁.log, Extends.refl s₁⟩
  have hpre := Extends.log_prefix hext.2
  have hle := hpre.length_le
  rw [arenaAt_initial hb₁ hpre]
  generalize s₁.log.length = k at hle hn
  generalize s₁.arena.memstats.sealed = b
  have hstart : Synced env s dc k b k ⟨arenaAt s k b, dc, ∅, false, []⟩ :=
    .start hc rfl rfl rfl rfl
  obtain ⟨j, hend⟩ := hstart.loop hb hf hc le_rfl hle n
  exact and_congr (forall_congr' fun hok => hend.recovered_iff hb hn hok) hend.reported_iff

end Crash

/-- Every block can be read, and none is in the cache. -/
def goodDisk : SyncEnv := ⟨fun _ _ _ => false, fun _ _ _ => true, fun _ => []⟩

/-- No block can be read. -/
def badDisk : SyncEnv := ⟨fun _ _ _ => false, fun _ _ _ => false, fun _ => []⟩

theorem formatted_wideArena : Formatted wideArena where
  small := by decide
  room := by decide
  magic := by decide

theorem syncArena_iff_zeros : ∃ s, ArenaStep (freshState wideArena) (writeWord fun _ => true) s ∧
    s.log.length = 1 ∧
    (((goodDisk.AllOk → ∃ r, syncArena (fun _ => wordClump.info.score) goodDisk true
          { s.arena with memstats := wideArena.memstats } s.dcache 1 = some r ∧ Recovered s r) ∧
      ∀ r, syncArena (fun _ => wordClump.info.score) goodDisk true
        { s.arena with memstats := wideArena.memstats } s.dcache 1 = some r →
        false ∈ r.fixes → .fixErr ∈ r.err) ↔
    (goodDisk.AllOk → (∀ i, 0 ≤ i → Loadable s i) ∧ ∀ i < 0, Written s s.dcache i) ∧
      ¬Unnoticed goodDisk s s.dcache 0 1) := by
  have hcall : ∃ s, ArenaStep (freshState wideArena) (writeWord fun _ => true) s ∧
      s.log = [⟨0, wordClump, [0, 0, 0, 0]⟩] ∧
      s.arena = { wideArena with memstats := s.arena.memstats } :=
    ⟨_, .write rfl (by decide) rfl, rfl, rfl⟩
  obtain ⟨s, hstep, hlog, harena⟩ := hcall
  have hok : WriteOk (freshState wideArena) (writeWord fun _ => true) := ⟨rfl, by decide⟩
  have hlen : s.log.length = 1 := by rw [hlog]; rfl
  have hholds := (logHolds_step (logHolds_fresh wideArena) hok hstep).1
  have hc : Crash (fun _ => wordClump.info.score) s s.dcache := by
    refine ⟨hholds.blocksize_eq, fun _ _ => rfl, fun i e he => .inl ?_, ?_⟩
    · refine List.ext_getElem (by simp [slotBytes]) fun m h1 h2 => ?_
      have hbyte := hholds.dir_eq i e he m (by rwa [length_packClumpInfo] at h2)
      rw [List.getD_eq_getElem _ _ h2] at hbyte
      simpa [slotBytes, Arena.viewBytes] using hbyte
    · intro e he
      rw [hlog] at he
      obtain rfl := List.mem_singleton.1 he
      exact ⟨[0, 0, 0, 0], rfl, rfl⟩
  have hf : Formatted s.arena := by
    rw [harena]
    exact ⟨formatted_wideArena.small, formatted_wideArena.room, formatted_wideArena.magic⟩
  exact ⟨s, hstep, hlen, syncArena_iff (.nil _) (.single ⟨hok, hstep⟩) hf hc (by rw [hlen]; rfl)⟩

/-- **A failure that is not reported**: the first block of an arena without clumps can be neither
read nor written. -/
theorem syncArena_unreported : ∃ r, syncArena (fun _ => wordClump.info.score) badDisk true
    wideArena (freshState wideArena).dcache 1 = some r ∧ false ∈ r.fixes ∧
      SyncFlag.fixErr ∉ r.err := by
  refine ⟨_, rfl, ?_, ?_⟩
  · decide
  · decide

end Venti

end Plan9
