import Plan9.Lib.BinarySearch
import Plan9.Venti.ReadArena

/-!
# Clump groups

The index reads ahead in groups of `ArenaCIGSize` clumps, and an arena keeps the address of
the first clump of each group in memory, in `arena->cig`. `loadcig` makes this table from the
directory, the first time it is needed; from then on `writeaclump` adds to it, with its
counters half updated. `arenatog` looks an address up, and `asumload` reads the entries of a
group, which `scacheload` then moves to the addresses of the index.

That the table agrees with the clumps, whichever way it came about, is in
`Plan9.Venti.CigRuns`.
-/

namespace Plan9

namespace Venti

open Lib LibVenti

/-- `ArenaCIGSize`. -/
def arenaCIGSize : ℕ := 10 * 1024

/-- The groups of an arena: the offsets in `arena->cig`, unless that is nil, and
`arena->ncig`. -/
structure Cigs where
  cig : Option (List ℕ)
  ncig : ℤ
deriving DecidableEq

/-- Nothing is loaded yet. -/
def Cigs.unloaded : Cigs := ⟨none, 0⟩

/-- `struct IEntry`, as far as `asumload` fills it in. -/
structure IEntry where
  score : Score
  type : UInt8
  size : UInt16
  blocks : ℕ
  addr : ℕ
deriving DecidableEq

/-- Bytes of a clump in the arena, from its entry. -/
def ClumpInfo.bytes (ci : ClumpInfo) : ℕ := clumpSize + ci.size.toNat

/-- What `asumload` makes of the entry of the clump at `addr`. -/
def ClumpInfo.entry (ci : ClumpInfo) (addr : ℕ) : IEntry where
  score := ci.score
  type := ci.type
  size := ci.uncsize
  blocks := (ci.size.toNat + clumpSize + 2 ^ aBlockLog - 1) / 2 ^ aBlockLog
  addr := addr

namespace Arena

variable (ar : Arena) (readOk : ℕ → Bool) (dc : Dcache)

/-- `readclumpinfos`: the loop goes backwards, and an entry that cannot be read cuts off those
behind it. -/
def readClumpInfos (clump n : ℕ) : List ClumpInfo :=
  (List.range n).foldr (fun i cis =>
    match ar.readClumpInfo readOk dc (clump + i) with
    | none => []
    | some ci => ci :: cis) []

/-- The loop of `loadcig`, for `k` more groups from group `i` on. -/
def loadGroups (ncig : ℕ) : ℕ → ℕ → ℕ → Option (List ℕ)
  | 0, _, _ => some []
  | k + 1, i, offset =>
    let ci := ar.readClumpInfos readOk dc (i * arenaCIGSize) arenaCIGSize
    if ci.length < arenaCIGSize ∧ i ≠ ncig - 1 then none
    else (loadGroups ncig k (i + 1) (offset + (ci.map ClumpInfo.bytes).sum)).map (offset :: ·)

/-- `loadcig`. -/
def loadCig (c : Cigs) : Cigs :=
  if c.cig.isSome ∨ c.ncig < 0 then c
  else
    let ncig := (ar.memstats.clumps + arenaCIGSize - 1) % 2 ^ 32 / arenaCIGSize
    if ncig = 0 then ⟨some [], 0⟩
    else
      match ar.loadGroups readOk dc ncig ncig 0 0 with
      | none => ⟨none, -1⟩
      | some cig => ⟨some cig, ncig⟩

/-- The table is loaded if it is not there. -/
def needCig (c : Cigs) : Cigs := if c.cig = none then ar.loadCig readOk dc c else c

/-- What `writeaclump` does to the groups, for a clump at `aa`. -/
def addCig (c : Cigs) (aa : ℕ) : Cigs :=
  let clump := ar.memstats.clumps
  if clump % arenaCIGSize = 0 then
    let c := ar.needCig readOk dc c
    match c.cig with
    | none => c
    | some cig =>
      if (clump / arenaCIGSize : ℕ) ≠ c.ncig then ⟨none, -1⟩
      else ⟨some (cig ++ [aa]), c.ncig + 1⟩
  else c

/-- The counters of bytes behind a clump that was written; it is not counted yet. -/
def countBytes (cl : Clump) : Arena :=
  { ar with
    memstats := { (ar.addClump cl).memstats with clumps := ar.memstats.clumps } }

/-- `writeaclump`, with the groups. -/
def writeAClumpCig (dc : Dcache) (cl : Clump) (data : List UInt8) (readOk : ℕ → Bool)
    (trailer : List UInt8) (c : Cigs) : Option (Option ℕ × Arena × Dcache × Cigs) :=
  let n := cl.info.size.toNat + clumpSize + u32Size
  let aa := ar.memstats.used
  if ar.memstats.sealed ∨
      aa + n + u32Size + ar.arenaDirSize (ar.memstats.clumps + 1) > ar.size then
    if !ar.memstats.sealed then
      some (none, { ar with memstats := { ar.memstats with sealed := true } },
        (ar.wbArena dc trailer).getD dc, c)
    else some (none, ar, dc, c)
  else
    match packClump cl ar.clumpmagic with
    | .error _ => some (none, ar, dc, c)
    | .ok header =>
      let clbuf := header ++ data ++ [0, 0, 0, 0]
      let a := ar.base + aa
      let off := a &&& (ar.blocksize - 1)
      match ar.writeBlocks readOk n dc (a - off) off clbuf with
      | (false, dc) => some (none, ar, dc, c)
      | (true, dc) =>
        let c := (ar.countBytes cl).addCig readOk dc c aa
        let clump := ar.memstats.clumps
        if (clump + 1) % 2 ^ 32 = 0 then none
        else
          let ar' := ar.addClump cl
          -- that the entry could not be written is not noticed
          let dc := (ar'.writeClumpInfo readOk dc clump cl.info).getD dc
          some (some aa, ar', (ar'.wbArena dc trailer).getD dc, c)

/-- `arenatog`: the start and the limit of the group, and its number. -/
def arenaToG (c : Cigs) (addr : ℕ) : Cigs × Option (ℕ × ℕ × ℕ) :=
  let c := ar.needCig readOk dc c
  match c.cig with
  | none => (c, none)
  | some cig =>
    if c.ncig = 0 then (c, none)
    else
      let l := searchLast (fun m => decide (cig.getD m 0 ≤ addr)) c.ncig.toNat
      let glimit := if (l + 1 : ℕ) < c.ncig then cig.getD (l + 1) 0 else ar.memstats.used
      (c, some (cig.getD l 0, glimit, l))

/-- The loop of `asumload`, for `k` more clumps from clump `i` on. -/
def sumEntries : ℕ → ℕ → ℕ → List IEntry
  | 0, _, _ => []
  | k + 1, i, addr =>
    match ar.readClumpInfo readOk dc i with
    | none => []
    | some ci =>
      let rest := sumEntries k (i + 1) (addr + ci.bytes)
      if ci.type.toNat ≠ vtCorruptType then ci.entry addr :: rest else rest

/-- `asumload`. -/
def asumLoad (c : Cigs) (g nentries : ℕ) : Cigs × Option (List IEntry) :=
  if nentries < arenaCIGSize then (c, none)
  else
    let c := ar.needCig readOk dc c
    if c.cig = none ∨ c.ncig = 0 ∨ (g : ℤ) ≥ c.ncig then (c, none)
    else
      let base := g * arenaCIGSize
      let limit := base + arenaCIGSize
      let base := if base > ar.memstats.clumps then ar.memstats.clumps else base
      (c, some (ar.sumEntries readOk dc (limit - base) base 0))

end Arena

/-! ### The cache of the index -/

/-- `struct ISum`, the summary of a group: its first and last address in the index, and its
number in the arena. -/
structure ISum where
  addr : ℕ
  limit : ℕ
  g : ℕ
deriving DecidableEq

/-- `scachesetup`, for an address of an arena that starts at `start` in the index. -/
def scacheSetup (ar : Arena) (readOk : ℕ → Bool) (dc : Dcache) (c : Cigs) (start addr : ℕ) :
    Cigs × Option ISum :=
  let aa := addr - start
  let (c, r) := ar.arenaToG readOk dc c aa
  (c, r.map fun (gstart, glimit, g) => ⟨gstart + (addr - aa), glimit + (addr - aa), g⟩)

/-- `scacheload`: the entries that are put into the hash table. -/
def scacheLoad (ar : Arena) (readOk : ℕ → Bool) (dc : Dcache) (c : Cigs) (s : ISum) :
    Cigs × List IEntry :=
  let (c, r) := ar.asumLoad readOk dc c s.g arenaCIGSize
  (c, (r.getD []).map fun ie => { ie with addr := ie.addr + s.addr })

/-! ### Runs -/

/-- An arena with its log, and the groups. -/
structure CigState extends ArenaState where
  cigs : Cigs

/-- What happens: calls of `writeaclump` and the doings of the cache; look-ups; loads. -/
inductive CigOp
  | arena (op : ArenaOp)
  | arenaToG (readOk : ℕ → Bool) (addr : ℕ)
  | asumLoad (readOk : ℕ → Bool) (g nentries : ℕ)

/-- The steps. -/
inductive CigStep : CigState → CigOp → CigState → Prop
  | write {s : CigState} {cl : Clump} {data : List UInt8} {readOk : ℕ → Bool}
      {trailer : List UInt8} {r : Option ℕ} {ar : Arena} {dc : Dcache} {c : Cigs}
      (hdata : data.length = cl.info.size.toNat)
      (htrailer : trailer.length ≤ s.arena.blocksize)
      (h : s.arena.writeAClumpCig s.dcache cl data readOk trailer s.cigs = some (r, ar, dc, c)) :
      CigStep s (.arena (.write cl data readOk trailer))
        ⟨⟨ar, dc, s.log ++ (r.map fun aa => ⟨aa, cl, data⟩).toList⟩, c⟩
  | flush {s : CigState} (sel : ℕ → Bool) :
      CigStep s (.arena (.flush sel)) { s with dcache := s.dcache.flush sel }
  | bump {s : CigState} (addr : ℕ) :
      CigStep s (.arena (.bump addr)) { s with dcache := s.dcache.bump addr }
  | arenaToG {s : CigState} (readOk : ℕ → Bool) (addr : ℕ) :
      CigStep s (.arenaToG readOk addr)
        { s with cigs := (s.arena.arenaToG readOk s.dcache s.cigs addr).1 }
  | asumLoad {s : CigState} (readOk : ℕ → Bool) (g nentries : ℕ) :
      CigStep s (.asumLoad readOk g nentries)
        { s with cigs := (s.arena.asumLoad readOk s.dcache s.cigs g nentries).1 }

/-- The side condition of `arena_log`: the block of the directory can be read when a clump is
written, and the directory stays below `2 ^ 32` bytes. -/
def CigOk (s : CigState) : CigOp → Prop
  | .arena op => WriteOk s.toArenaState op
  | _ => True

/-! ### What the groups promise -/

/-- Where group `g` starts: behind the first `g * ArenaCIGSize` clumps. -/
def groupStart (log : List LogEntry) (g : ℕ) : ℕ := startOf log (g * arenaCIGSize)

/-- How many groups there are. -/
def groups (log : List LogEntry) : ℕ := (log.length + arenaCIGSize - 1) / arenaCIGSize

/-- The clumps of a group. -/
def groupOf (log : List LogEntry) (g : ℕ) : List LogEntry :=
  (log.drop (g * arenaCIGSize)).take arenaCIGSize

/-- Where group `g` ends: where the next one starts, or the log ends. -/
def groupLimit (log : List LogEntry) (g : ℕ) : ℕ :=
  if g + 1 < groups log then groupStart log (g + 1) else startOf log log.length

/-- The table is that of the clumps in the log. -/
def Tabled (log : List LogEntry) (c : Cigs) : Prop :=
  ∀ cig, c.cig = some cig → c.ncig = groups log ∧ cig =
    (List.range (groups log)).map (groupStart log)

/-- Every entry of the directory can be read. -/
def DirReadable (ar : Arena) (readOk : ℕ → Bool) (dc : Dcache) : Prop :=
  ∀ i < ar.memstats.clumps, (dc.getDBlock (ar.cibBlock i) .oread readOk).isSome = true

/-- Where the clump of an entry lies, and its score. -/
def LogEntry.place (e : LogEntry) : Score × ℕ := (e.clump.info.score, e.addr)

/-- The clumps whose block type is not read back as corrupt. -/
def LogEntry.sound (e : LogEntry) : Bool :=
  decide ((reread e.clump.info.type).toNat ≠ vtCorruptType)

end Venti

end Plan9
