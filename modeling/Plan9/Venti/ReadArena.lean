import Plan9.Venti.Arena
import Plan9.Venti.Unwhack

/-!
# Reading an arena

The other half of `arena.c`: bytes of the log are read, or written over where a repair
needs it, through the disk cache and within the space in front of the directory; and
`loadclump` of `clump.c`, which reads a clump whose length it does not know and unpacks
its data.

Between two calls the other processes of the server flush, read and evict blocks. What
a call then finds in the cache is up to them, but it is what the view of the cache has
(`Plan9.Venti.Dcache.settle`).

* `Plan9.Venti.Arena.readBlocks_eq`, `Plan9.Venti.Arena.readBlocks_fail` – what is read,
  and when nothing is;
* `Plan9.Venti.Arena.loadClump_eq` – a clump of the log is loaded with its data;
* `Plan9.Venti.decode_makeClump` – what `storeclump` makes of a block is decoded.
-/

namespace Plan9

namespace Venti

open Lib LibVenti List

/-! ### The cache between two calls -/

variable {off : ℕ}

variable {bytes : List UInt8}

namespace Dcache

variable (c : Dcache)

/-- What the other processes may have made of the cache: nothing is dirty, and the blocks in
it are those of `present`. -/
def settle (present : ℕ → Bool) : Dcache where
  blocksize := c.blocksize
  disk := c.view
  blocks addr :=
    if present addr ∧ c.blocksize ∣ addr then some ⟨fun i => c.view (addr + i), false⟩ else none

variable {c} {present : ℕ → Bool}

theorem view_settle (a : ℕ) : (c.settle present).view a = c.view a := by
  simp only [view, settle]
  split
  · rename_i b hb
    split at hb
    · cases hb
      have hsum : a / c.blocksize * c.blocksize + a % c.blocksize = a := by
        rw [Nat.mul_comm]
        exact Nat.div_add_mod a c.blocksize
      simp only [hsum]
    · cases hb
  · rfl

theorem coherent_settle (hpos : 0 < c.blocksize) : (c.settle present).Coherent where
  pos := hpos
  aligned addr b hb := by
    simp only [settle] at hb
    split at hb
    · rename_i h
      exact h.2
    · cases hb
  clean addr b hb _ i _ := by
    simp only [settle] at hb
    split at hb
    · cases hb
      rfl
    · cases hb

variable {addr : ℕ} {mode : IOMode} {readOk : ℕ → Bool}

/-- A block is fetched from the settled cache if it is there, or need not be read, or can be. -/
theorem getDBlock_settle (haddr : c.blocksize ∣ addr) :
    ((c.settle present).getDBlock addr mode readOk).isSome ↔
      present addr = true ∨ mode = .owrite ∨ readOk addr = true := by
  rw [getDBlock]
  by_cases hp : present addr = true
  · have hb : (c.settle present).blocks addr = some ⟨fun i => c.view (addr + i), false⟩ :=
      if_pos ⟨hp, haddr⟩
    rw [hb]
    exact iff_of_true rfl (.inl hp)
  · have hb : (c.settle present).blocks addr = none := if_neg fun h => hp h.1
    rw [hb]
    by_cases hmode : mode = .owrite
    · simp [hmode]
    · by_cases hread : readOk addr = true
      · simp [hmode, hread]
      · simp [hmode, hread, hp]

/-- A write to a settled cache: inside its block the rest is kept, or cleared if the block was
neither there nor read. -/
theorem writeDBlock_settle (hpos : 0 < c.blocksize) (haddr : c.blocksize ∣ addr)
    (hoff : off + bytes.length ≤ c.blocksize)
    (hok : present addr = true ∨ mode = .owrite ∨ readOk addr = true) :
    ∃ c', (c.settle present).writeDBlock addr mode readOk off bytes = some c' ∧
      WriteSpec (c.settle present) c' addr mode off bytes ∧
      ∀ a, addr ≤ a → a < addr + c.blocksize → (a < addr + off ∨ addr + off + bytes.length ≤ a) →
        c'.view a = if mode = .owrite ∧ ¬present addr = true then 0 else c.view a := by
  have hcoh : (c.settle present).Coherent := coherent_settle hpos
  obtain ⟨c', hwrite, hspec⟩ := writeDBlock_spec hcoh addr off mode readOk bytes haddr hoff
    ((getDBlock_settle haddr).mpr hok)
  refine ⟨c', hwrite, hspec, ?_⟩
  intro a h1 h2 hout
  by_cases hmode : mode = .owrite
  · subst hmode
    have hsome : ((c.settle present).getDBlock addr .owrite readOk).isSome :=
      (getDBlock_settle haddr).mpr hok
    obtain ⟨b, hb⟩ := Option.isSome_iff_exists.1 hsome
    rw [writeDBlock, hb, Option.map_some, Option.some.injEq] at hwrite
    have hblock' : c'.blocks addr = some ⟨fun i => if off ≤ i ∧ i < off + bytes.length then
        bytes.getD (i - off) 0 else b.data i, true⟩ := by
      rw [← hwrite]
      exact Function.update_self ..
    have hbs : c'.blocksize = c.blocksize := hspec.blocksize_eq
    rw [view_of_block (hbs ▸ hpos) (hbs ▸ haddr) hblock' h1 (hbs ▸ h2)]
    simp only
    rw [if_neg (by omega)]
    by_cases hp : present addr = true
    · have hblock : (c.settle present).blocks addr = some ⟨fun i => c.view (addr + i), false⟩ :=
        if_pos ⟨hp, haddr⟩
      rw [getDBlock, hblock, Option.some.injEq] at hb
      rw [← hb, if_neg (fun h => h.2 hp)]
      exact congrArg c.view (Nat.add_sub_cancel' h1)
    · have hblock : (c.settle present).blocks addr = none := if_neg fun h => hp h.1
      rw [getDBlock, hblock] at hb
      simp only [if_true, Option.some.injEq] at hb
      rw [← hb, if_pos ⟨trivial, hp⟩]
  · rw [hspec.kept hmode a hout, view_settle, if_neg fun h => hmode h.1]

end Dcache

/-! ### Reading and writing over -/

/-- `ClumpFreeMagic`: what stands behind the log. -/
def clumpFreeMagic : ℕ := 0

/-- `TWID32`. -/
def twid32 : ℕ := 2 ^ 32 - 1

namespace Arena

variable (ar : Arena)

/-- Where the space for clumps ends, in 64 bits. -/
def clumpEnd : ℕ :=
  if ar.arenaDirSize ar.memstats.clumps ≤ ar.size then
    ar.size - ar.arenaDirSize ar.memstats.clumps
  else ar.size + 2 ^ 64 - ar.arenaDirSize ar.memstats.clumps

/-- The loop of `readarena`: `n` bytes from the offset `off` of the block at `a` on. The first
argument bounds the rounds. -/
def readBlocks (readOk : ℕ → Bool) (dc : Dcache) : ℕ → ℕ → ℕ → ℕ → Option (List UInt8)
  | 0, _, _, _ => some []
  | k + 1, a, off, n =>
    match dc.getDBlock a .oread readOk with
    | none => none
    | some b =>
      let m := min (ar.blocksize - off) n
      let bytes := (List.range m).map fun i => b.data (off + i)
      if m = n then some bytes
      else (readBlocks readOk dc k (a + ar.blocksize) 0 (n - m)).map (bytes ++ ·)

/-- `readarena`: fewer bytes are read if the space for clumps ends; `none` is `-1`. -/
def readArena (readOk : ℕ → Bool) (dc : Dcache) (aa n : ℕ) : Option (List UInt8) :=
  if n = 0 then none
  else if aa ≥ ar.clumpEnd then none
  else
    let n := if aa + n > ar.clumpEnd then ar.clumpEnd - aa else n
    let a := ar.base + aa
    let off := a &&& (ar.blocksize - 1)
    ar.readBlocks readOk dc n (a - off) off n

/-- The loop of `writearena`, for `n` bytes in all. -/
def fixBlocks (readOk : ℕ → Bool) (n : ℕ) : ℕ → Dcache → ℕ → ℕ → List UInt8 → Bool × Dcache
  | 0, dc, _, _, _ => (true, dc)
  | k + 1, dc, a, off, bytes =>
    let m := min (ar.blocksize - off) bytes.length
    match dc.writeDBlock a (if off ≠ 0 ∨ off + n < ar.blocksize then .ordwr else .owrite) readOk
        off (bytes.take m) with
    | none => (false, dc)
    | some dc =>
      if m = bytes.length then (true, dc)
      else fixBlocks readOk n k dc (a + ar.blocksize) 0 (bytes.drop m)

/-- `writearena`: whether all bytes were written. -/
def writeArena (readOk : ℕ → Bool) (dc : Dcache) (aa : ℕ) (clbuf : List UInt8) : Bool × Dcache :=
  let n := clbuf.length
  if n = 0 then (false, dc)
  else if aa ≥ ar.clumpEnd ∨ aa + n > ar.clumpEnd then (false, dc)
  else
    let a := ar.base + aa
    let off := a &&& (ar.blocksize - 1)
    ar.fixBlocks readOk n n dc (a - off) off clbuf

/-- `readclumpinfo`. -/
def readClumpInfo (readOk : ℕ → Bool) (dc : Dcache) (clump : ℕ) : Option ClumpInfo :=
  if clump ≥ ar.memstats.clumps then none
  else (dc.getDBlock (ar.cibBlock clump) .oread readOk).map fun b =>
    unpackClumpInfo ((List.range clumpInfoSize).map fun i => b.data (ar.cibOffset clump + i))

/-- `clumpmagic`. Of the four bytes of its buffer those that are not read are what the stack
held. -/
def clumpMagic (readOk : ℕ → Bool) (dc : Dcache) (stack : List UInt8) (aa : ℕ) : ℕ :=
  match ar.readArena readOk dc aa u32Size with
  | none => twid32
  | some buf => beVal ((buf ++ stack.drop buf.length).take u32Size)

end Arena

/-- `ABlockLog`. -/
def aBlockLog : ℕ := 9

/-- The `switch` of `loadclump`: the data of a clump. -/
def decode (cl : Clump) (buf : List UInt8) : Option (List UInt8) :=
  if cl.encoding = clumpECompress then
    match unwhack cl.info.uncsize.toNat (buf.take cl.info.size.toNat) with
    | .error _ => none
    | .ok zb => if zb.length ≠ cl.info.uncsize.toNat then none else some zb
  else if cl.encoding = clumpENone then
    if cl.info.size ≠ cl.info.uncsize then none else some (buf.take cl.info.uncsize.toNat)
  else none

/-- How `loadclump` ends. -/
inductive Loaded
  /-- The first read failed. That is not noticed – `n < ClumpSize` does not hold of `TWID32` –
  and memory that nothing was written to is unpacked. -/
  | unread
  /-- `nil` -/
  | failed
  | lump (cl : Clump) (data : List UInt8)

/-- The block type that `loadclump` does not load. -/
def isCorrupt (cl : Clump) : Prop := cl.info.type.toNat = vtCorruptType

instance (cl : Clump) : Decidable (isCorrupt cl) := inferInstanceAs (Decidable (_ = _))

/-- The data of a clump in `loadclump`: what `cb` has of it, or a second read. -/
def Arena.clumpData (ar : Arena) (readOk : ℕ → Bool) (dc : Dcache) (aa size : ℕ)
    (cb : List UInt8) : Option (List UInt8) :=
  if cb.length - clumpSize < size then
    match ar.readArena readOk dc (aa + clumpSize) size with
    | none => none
    | some buf => if buf.length ≠ size then none else some buf
  else some (cb.drop clumpSize)

/-- `loadclump`, for a clump of unknown length and without verification. -/
def Arena.loadClump (ar : Arena) (readOk : ℕ → Bool) (dc : Dcache) (aa : ℕ) : Loaded :=
  match ar.readArena readOk dc aa (1 <<< aBlockLog) with
  | none => .unread
  | some cb =>
    if cb.length < clumpSize then .failed
    else match unpackClump cb ar.clumpmagic with
      | .error _ => .failed
      | .ok cl =>
        if isCorrupt cl then .failed
        else match (ar.clumpData readOk dc aa cl.info.size.toNat cb).bind (decode cl) with
          | none => .failed
          | some data => .lump cl data

/-! ### What is read -/

namespace Arena

variable {ar : Arena} {readOk : ℕ → Bool} {dc : Dcache}

/-- The blocks that hold `n` bytes from `x` on can be fetched. -/
def Fetched (ar : Arena) (readOk : ℕ → Bool) (dc : Dcache) (x n : ℕ) : Prop :=
  ∀ b, ar.blocksize ∣ b → x / ar.blocksize * ar.blocksize ≤ b → b < x + n →
    (dc.getDBlock b .oread readOk).isSome

/-- The bytes that the view of the cache has from `x` on. -/
def viewBytes (dc : Dcache) (x n : ℕ) : List UInt8 := (List.range n).map fun i => dc.view (x + i)

@[simp]
theorem length_viewBytes (x n : ℕ) : (viewBytes dc x n).length = n := by
  simp [viewBytes]

theorem viewBytes_append (x m n : ℕ) :
    viewBytes dc x (m + n) = viewBytes dc x m ++ viewBytes dc (x + m) n := by
  rw [viewBytes, range_add, map_append, map_map, viewBytes, viewBytes]
  congr 1
  refine map_congr_left fun i _ => ?_
  rw [Function.comp_apply, Nat.add_assoc]

/-- A settled cache has the same bytes. -/
theorem viewBytes_settle (present : ℕ → Bool) (x n : ℕ) :
    viewBytes (dc.settle present) x n = viewBytes dc x n :=
  map_congr_left fun _ _ => Dcache.view_settle _

variable {present : ℕ → Bool} {x n : ℕ}

/-- What can be fetched from a settled cache. -/
theorem fetched_settle (hbs : dc.blocksize = ar.blocksize) :
    ar.Fetched readOk (dc.settle present) x n ↔
      ∀ b, ar.blocksize ∣ b → x / ar.blocksize * ar.blocksize ≤ b → b < x + n →
        present b = true ∨ readOk b = true := by
  have hget : ∀ b, ar.blocksize ∣ b → (((dc.settle present).getDBlock b .oread readOk).isSome ↔
      present b = true ∨ readOk b = true) := by
    intro b hb
    rw [Dcache.getDBlock_settle (hbs ▸ hb)]
    simp
  constructor
  · intro h b hb h1 h2
    exact (hget b hb).1 (h b hb h1 h2)
  · intro h b hb h1 h2
    exact (hget b hb).2 (h b hb h1 h2)

variable {k a : ℕ}

/-- The loop of `readarena` reads what the view has. -/
theorem readBlocks_eq (hc : dc.Coherent) (hbs : dc.blocksize = ar.blocksize) (ha : ar.blocksize ∣ a)
    (hoff : off < ar.blocksize) (hk : n ≤ k) (hn : 0 < n)
    (hok : ∀ b, ar.blocksize ∣ b → a ≤ b → b < a + off + n →
      (dc.getDBlock b .oread readOk).isSome) :
    ar.readBlocks readOk dc k a off n = some (viewBytes dc (a + off) n) := by
  induction k generalizing a off n with
  | zero => omega
  | succ k ih =>
    obtain ⟨b, hb⟩ := Option.isSome_iff_exists.1 (hok a ha le_rfl (by omega))
    have hdata := Dcache.getDBlock_eq_view hc (hbs ▸ ha) hb (by decide)
    generalize hm : min (ar.blocksize - off) n = m
    have hbytes : (List.range m).map (fun i => b.data (off + i)) = viewBytes dc (a + off) m := by
      refine map_congr_left fun i hi => ?_
      rw [mem_range] at hi
      rw [hdata (off + i) (by omega), Nat.add_assoc]
    rw [readBlocks, hb]
    simp only [hm, hbytes]
    by_cases hlast : m = n
    · rw [if_pos hlast, hlast]
    · have hnext : a + off + m = a + ar.blocksize := by omega
      rw [if_neg hlast, ih (Nat.dvd_add ha (Nat.dvd_refl _)) ar.blocksize_pos (by omega) (by omega)
        fun b hb h1 h2 => hok b hb (by omega) (by omega), Option.map_some, Nat.add_zero, ← hnext,
        ← viewBytes_append, Nat.add_sub_cancel' (by omega)]

/-- The loop of `readarena` fails at a block that cannot be fetched. -/
theorem readBlocks_fail {b : ℕ} (ha : ar.blocksize ∣ a) (hk : n ≤ k) (hn : 0 < n)
    (hoff : off < ar.blocksize) (hb : ar.blocksize ∣ b) (h1 : a ≤ b) (h2 : b < a + off + n)
    (hfail : ¬(dc.getDBlock b .oread readOk).isSome) :
    ar.readBlocks readOk dc k a off n = none := by
  induction k generalizing a off n with
  | zero => omega
  | succ k ih =>
    rw [readBlocks]
    cases hget : dc.getDBlock a .oread readOk with
    | none => rfl
    | some b₀ =>
      have hne : a ≠ b := by
        rintro rfl
        rw [hget] at hfail
        exact hfail rfl
      -- the block that fails is a later one
      have hge : a + ar.blocksize ≤ b := by
        obtain ⟨q, rfl⟩ := ha
        obtain ⟨r, rfl⟩ := hb
        have hlt : q < r := Nat.lt_of_mul_lt_mul_left (lt_of_le_of_ne h1 hne)
        calc ar.blocksize * q + ar.blocksize = ar.blocksize * (q + 1) := by rw [Nat.mul_succ]
          _ ≤ ar.blocksize * r := Nat.mul_le_mul_left _ hlt
      generalize hm : min (ar.blocksize - off) n = m
      have hlast : m ≠ n := by omega
      simp only
      rw [if_neg hlast, ih (Nat.dvd_add ha (Nat.dvd_refl _)) (by omega) (by omega) ar.blocksize_pos
        hge (by omega), Option.map_none]

variable {aa : ℕ}

/-- Bytes in front of the directory are read if their blocks can be fetched. -/
theorem readArena_eq (hc : dc.Coherent) (hbs : dc.blocksize = ar.blocksize) (hn : 0 < n)
    (hend : aa < ar.clumpEnd)
    (hok : ar.Fetched readOk dc (ar.base + aa) (min n (ar.clumpEnd - aa))) :
    ar.readArena readOk dc aa n =
      some (viewBytes dc (ar.base + aa) (min n (ar.clumpEnd - aa))) := by
  have hcut : (if aa + n > ar.clumpEnd then ar.clumpEnd - aa else n) =
      min n (ar.clumpEnd - aa) := by
    split <;> omega
  have hmod := Nat.mod_le (ar.base + aa) ar.blocksize
  simp only [readArena]
  rw [if_neg (by omega), if_neg (by omega), hcut, ar.and_blocksize,
    readBlocks_eq hc hbs (Nat.dvd_sub_mod _) (Nat.mod_lt _ ar.blocksize_pos) le_rfl (by omega),
    Nat.sub_add_cancel hmod]
  intro b hb h1 h2
  rw [sub_mod_eq] at h1
  exact hok b hb h1 (by omega)

/-- Nothing is read if a block cannot be fetched. -/
theorem readArena_fail (hend : aa < ar.clumpEnd)
    (hok : ¬ar.Fetched readOk dc (ar.base + aa) (min n (ar.clumpEnd - aa))) :
    ar.readArena readOk dc aa n = none := by
  have hcut : (if aa + n > ar.clumpEnd then ar.clumpEnd - aa else n) =
      min n (ar.clumpEnd - aa) := by
    split <;> omega
  have hmod := Nat.mod_le (ar.base + aa) ar.blocksize
  have hlt := Nat.mod_lt (ar.base + aa) ar.blocksize_pos
  simp only [Fetched, not_forall] at hok
  obtain ⟨b, hb, h1, h2, hfail⟩ := hok
  simp only [readArena]
  by_cases hn : n = 0
  · rw [if_pos hn]
  · rw [if_neg hn, if_neg (by omega), hcut, ar.and_blocksize]
    refine readBlocks_fail (Nat.dvd_sub_mod _) le_rfl (by omega) hlt hb ?_ (by omega) hfail
    rwa [sub_mod_eq]

/-- The blocks of a part can be fetched. -/
theorem Fetched.mono {x' n' : ℕ} (h : ar.Fetched readOk dc x n) (hx : x ≤ x') (hn : x' + n' ≤ x + n)
    : ar.Fetched readOk dc x' n' := by
  intro b hb h1 h2
  refine h b hb ?_ (by omega)
  exact (Nat.mul_le_mul_right _ (Nat.div_le_div_right hx)).trans h1

/-- The blocks of two parts that touch. -/
theorem Fetched.union {m d : ℕ} (h : ar.Fetched readOk dc x m) (h' : ar.Fetched readOk dc (x + d) n)
    (hd : d ≤ m) : ar.Fetched readOk dc x (d + n) := by
  intro b hb h1 h2
  by_cases hm : b < x + m
  · exact h b hb h1 hm
  · have hle := Nat.div_mul_le_self (x + d) ar.blocksize
    exact h' b hb (by omega) (by omega)

/-- The loop of `writearena` over a word: it succeeds exactly if all blocks can be fetched. -/
theorem fixBlocks_word (hpos : 4 < ar.blocksize) (ha : ar.blocksize ∣ a) (hoff : off < ar.blocksize)
    (hlen : bytes.length ≤ 4) (hne : 0 < bytes.length) (hk : bytes.length ≤ k) :
    (ar.fixBlocks readOk 4 k dc a off bytes).1 = true ↔
      ∀ b, ar.blocksize ∣ b → a ≤ b → b < a + off + bytes.length →
        (dc.getDBlock b .ordwr readOk).isSome := by
  induction k generalizing a off bytes dc with
  | zero => omega
  | succ k ih =>
    have hmode : (if off ≠ 0 ∨ off + 4 < ar.blocksize then IOMode.ordwr else .owrite) = .ordwr :=
      if_pos (by omega)
    rw [fixBlocks, hmode]
    generalize hm : min (ar.blocksize - off) bytes.length = m
    cases hget : dc.getDBlock a .ordwr readOk with
    | none =>
      have hwrite : dc.writeDBlock a .ordwr readOk off (bytes.take m) = none := by
        rw [Dcache.writeDBlock, hget, Option.map_none]
      rw [hwrite]
      simp only [Bool.false_eq_true, false_iff, not_forall]
      exact ⟨a, ha, le_rfl, by omega, by rw [hget]; simp⟩
    | some b₀ =>
      obtain ⟨dc₁, hwrite, hsame⟩ : ∃ dc₁,
          dc.writeDBlock a .ordwr readOk off (bytes.take m) = some dc₁ ∧
          ∀ b ≠ a, dc₁.getDBlock b .ordwr readOk = dc.getDBlock b .ordwr readOk := by
        refine ⟨_, by rw [Dcache.writeDBlock, hget, Option.map_some], fun b hb => ?_⟩
        simp only [Dcache.getDBlock, Function.update_of_ne hb]
      rw [hwrite]
      simp only
      -- behind the first block stand the blocks of the rest
      have hsplit : ∀ b, ar.blocksize ∣ b → a ≤ b → b ≠ a → a + ar.blocksize ≤ b := by
        rintro b ⟨r, rfl⟩ h1 hb
        obtain ⟨q, rfl⟩ := ha
        have hlt : q < r := Nat.lt_of_mul_lt_mul_left (lt_of_le_of_ne h1 (Ne.symm hb))
        calc ar.blocksize * q + ar.blocksize = ar.blocksize * (q + 1) := by rw [Nat.mul_succ]
          _ ≤ ar.blocksize * r := Nat.mul_le_mul_left _ hlt
      by_cases hlast : m = bytes.length
      · rw [if_pos hlast]
        refine iff_of_true rfl fun b hb h1 h2 => ?_
        have hba : b = a := by
          by_contra hne'
          have := hsplit b hb h1 hne'
          omega
        rw [hba, hget]
        rfl
      · have hdrop : (bytes.drop m).length = bytes.length - m := length_drop
        rw [if_neg hlast, ih (Nat.dvd_add ha (Nat.dvd_refl _)) ar.blocksize_pos (by omega)
          (by omega) (by omega)]
        constructor
        · intro h b hb h1 h2
          by_cases hba : b = a
          · rw [hba, hget]
            rfl
          · rw [← hsame b hba]
            exact h b hb (hsplit b hb h1 hba) (by omega)
        · intro h b hb h1 h2
          have hba : b ≠ a := by omega
          rw [hsame b hba]
          exact h b hb (by omega) (by omega)

/-- A word is written over exactly if its blocks can be fetched. -/
theorem writeArena_word (hpos : 4 < ar.blocksize) {w : List UInt8} (hw : w.length = 4)
    (hend : aa + 4 ≤ ar.clumpEnd) :
    (ar.writeArena readOk dc aa w).1 = true ↔
      ∀ b, ar.blocksize ∣ b → (ar.base + aa) / ar.blocksize * ar.blocksize ≤ b →
        b < ar.base + aa + 4 → (dc.getDBlock b .ordwr readOk).isSome := by
  have hmod := Nat.mod_le (ar.base + aa) ar.blocksize
  simp only [writeArena, hw]
  rw [if_neg (by omega), if_neg (by omega), ar.and_blocksize,
    fixBlocks_word hpos (Nat.dvd_sub_mod _) (Nat.mod_lt _ ar.blocksize_pos) hw.le (by omega)
      hw.le, hw, Nat.sub_add_cancel hmod, sub_mod_eq]

/-! ### Entries of the directory -/

variable {i : ℕ}

section

variable (hbs : dc.blocksize = ar.blocksize)

include hbs

/-- An entry is read if its block can be had. -/
theorem readClumpInfo_settle (hi : i < ar.memstats.clumps)
    (hdvd : ar.blocksize ∣ ar.cibBlock i)
    (hget : present (ar.cibBlock i) = true ∨ readOk (ar.cibBlock i) = true) :
    ar.readClumpInfo readOk (dc.settle present) i =
      some (unpackClumpInfo (viewBytes dc (ar.cibBlock i + ar.cibOffset i) clumpInfoSize)) := by
  have hpos : 0 < dc.blocksize := hbs ▸ ar.blocksize_pos
  have hsome : ((dc.settle present).getDBlock (ar.cibBlock i) .oread readOk).isSome :=
    (Dcache.getDBlock_settle (hbs ▸ hdvd)).mpr (hget.imp_right .inr)
  obtain ⟨blk, hblk⟩ := Option.isSome_iff_exists.1 hsome
  have hdata := Dcache.getDBlock_eq_view (Dcache.coherent_settle hpos) (hbs ▸ hdvd) hblk (by decide)
  have hoff := ar.cibOffset_add_le i
  have hbytes : (List.range clumpInfoSize).map (fun m => blk.data (ar.cibOffset i + m)) =
      viewBytes dc (ar.cibBlock i + ar.cibOffset i) clumpInfoSize := by
    refine map_congr_left fun m hm => ?_
    rw [mem_range] at hm
    have hlt : ar.cibOffset i + m < (dc.settle present).blocksize := by
      change _ < dc.blocksize
      omega
    rw [hdata _ hlt, Dcache.view_settle, Nat.add_assoc]
  rw [readClumpInfo, if_neg (not_le.2 hi), hblk, Option.map_some, hbytes]

theorem readClumpInfo_fail (hdvd : ar.blocksize ∣ ar.cibBlock i)
    (hget : ¬(present (ar.cibBlock i) = true ∨ readOk (ar.cibBlock i) = true)) :
    ar.readClumpInfo readOk (dc.settle present) i = none := by
  have hnone : (dc.settle present).getDBlock (ar.cibBlock i) .oread readOk = none := by
    rw [← Option.not_isSome_iff_eq_none, Dcache.getDBlock_settle (hbs ▸ hdvd)]
    simpa using hget
  rw [readClumpInfo, hnone, Option.map_none]
  split <;> rfl

/-- The last entry is written if it is the first of its block or the block can be had. In the
former case the rest of the block is lost if it was not in the cache. -/
theorem writeClumpInfo_settle (ci : ClumpInfo)
    (hi : i + 1 = ar.memstats.clumps) (hdvd : ar.blocksize ∣ ar.cibBlock i)
    (hget : ar.cibOffset i = 0 ∨ present (ar.cibBlock i) = true ∨ readOk (ar.cibBlock i) = true) :
    ∃ mode dc', ar.writeClumpInfo readOk (dc.settle present) i ci = some dc' ∧
      (dc.settle present).WriteSpec dc' (ar.cibBlock i) mode (ar.cibOffset i)
        (packClumpInfo ci) ∧
      ∀ a, ar.cibBlock i ≤ a → a < ar.cibBlock i + ar.blocksize →
        (a < ar.cibBlock i + ar.cibOffset i ∨ ar.cibBlock i + ar.cibOffset i + clumpInfoSize ≤ a) →
        dc'.view a = if ar.cibOffset i = 0 ∧ ¬present (ar.cibBlock i) = true then 0
          else dc.view a := by
  have hpos : 0 < dc.blocksize := hbs ▸ ar.blocksize_pos
  have hlen := length_packClumpInfo ci
  have hmode : (if ar.cibOffset i = 0 ∧ i = ar.memstats.clumps - 1 then IOMode.owrite else .ordwr)
      = .owrite ↔ ar.cibOffset i = 0 := by
    by_cases h0 : ar.cibOffset i = 0
    · rw [if_pos ⟨h0, by omega⟩]
      exact iff_of_true rfl h0
    · rw [if_neg fun h => h0 h.1]
      exact iff_of_false (by decide) h0
  generalize hm : (if ar.cibOffset i = 0 ∧ i = ar.memstats.clumps - 1 then IOMode.owrite
    else .ordwr) = mode at hmode
  have hok : present (ar.cibBlock i) = true ∨ mode = .owrite ∨ readOk (ar.cibBlock i) = true := by
    rw [hmode]
    exact or_left_comm.1 hget
  have hfit : ar.cibOffset i + (packClumpInfo ci).length ≤ dc.blocksize := by
    rw [hlen, hbs]
    exact ar.cibOffset_add_le i
  obtain ⟨dc', hwrite, hspec, hrest⟩ := Dcache.writeDBlock_settle hpos (hbs ▸ hdvd) hfit hok
  refine ⟨mode, dc', ?_, hspec, fun a h1 h2 hout => ?_⟩
  · rw [writeClumpInfo, if_neg (by omega)]
    simp only [hm]
    exact hwrite
  · rw [hrest a h1 (hbs ▸ h2) (hlen.symm ▸ hout)]
    simp only [hmode]

theorem writeClumpInfo_fail (ci : ClumpInfo)
    (hdvd : ar.blocksize ∣ ar.cibBlock i)
    (hget : ¬(ar.cibOffset i = 0 ∨ present (ar.cibBlock i) = true ∨
      readOk (ar.cibBlock i) = true)) :
    ar.writeClumpInfo readOk (dc.settle present) i ci = none := by
  have hne : ¬ar.cibOffset i = 0 := fun h => hget (.inl h)
  have hnone : (dc.settle present).getDBlock (ar.cibBlock i) .ordwr readOk = none := by
    rw [← Option.not_isSome_iff_eq_none, Dcache.getDBlock_settle (hbs ▸ hdvd)]
    simpa using fun h => hget (.inr h)
  rw [writeClumpInfo]
  split
  · rfl
  · simp only [if_neg fun h => hne (And.left h)]
    rw [Dcache.writeDBlock, hnone, Option.map_none]

end

/-! ### Loading clumps -/

variable {cl : Clump}

/-- `decode` looks at as many bytes as the clump says. -/
theorem decode_congr {b b' : List UInt8}
    (h : b.take cl.info.size.toNat = b'.take cl.info.size.toNat) : decode cl b = decode cl b' := by
  by_cases hsize : cl.info.size = cl.info.uncsize
  · simp only [decode, h, ← hsize]
  · simp only [decode, h, if_pos (show cl.info.size ≠ cl.info.uncsize from hsize)]

/-- The clump that is read back. -/
def rereadClump (cl : Clump) : Clump :=
  { cl with info := { cl.info with type := reread cl.info.type } }

/-- A clump that is not read back as a corrupt one has the entry it had. -/
theorem packClumpInfo_rereadClump (h : ¬isCorrupt (rereadClump cl)) :
    packClumpInfo (rereadClump cl).info = packClumpInfo cl.info := by
  generalize hn : (UInt8.ofNat (vtToDiskType cl.info.type.toNat)).toNat = n
  have hreread : (reread cl.info.type).toNat = vtFromDiskType n := by
    rw [reread, hn]
    exact UInt8.toNat_ofNat_of_lt (vtFromDiskType_lt n)
  have htyped : DiskTyped n := by
    by_contra hnot
    exact h (hreread.trans ((vtFromDiskType_eq_corrupt_iff n).2 hnot))
  have htype : UInt8.ofNat (vtToDiskType (reread cl.info.type).toNat) =
      UInt8.ofNat (vtToDiskType cl.info.type.toNat) := by
    rw [hreread, vtToDiskType_fromDisk htyped, ← hn, UInt8.ofNat_toNat]
  simp only [packClumpInfo, rereadClump, htype]

theorem decode_rereadClump (cl : Clump) (b : List UInt8) :
    decode (rereadClump cl) b = decode cl b :=
  rfl

/-- What `loadclump` reads of a clump: a block of at most 512 bytes, and all of the clump. -/
def loadSize (ar : Arena) (aa : ℕ) (cl : Clump) : ℕ :=
  max (min (1 <<< aBlockLog) (ar.clumpEnd - aa)) (clumpSize + cl.info.size.toNat)

variable {data : List UInt8}

/-- The first read has the header of the clump. -/
theorem viewBytes_first (hview : viewBytes dc (ar.base + aa) (clumpSize + cl.info.size.toNat) =
      clumpHeader cl ar.clumpmagic ++ data)
    (hend : aa + (clumpSize + cl.info.size.toNat) ≤ ar.clumpEnd) :
    ∃ r, clumpSize + r = min (1 <<< aBlockLog) (ar.clumpEnd - aa) ∧
      viewBytes dc (ar.base + aa) (clumpSize + r) =
        clumpHeader cl ar.clumpmagic ++ viewBytes dc (ar.base + aa + clumpSize) r := by
  have hsize : clumpSize = 38 := rfl
  have hblock : (1 : ℕ) <<< aBlockLog = 512 := rfl
  have hheader : viewBytes dc (ar.base + aa) clumpSize = clumpHeader cl ar.clumpmagic := by
    rw [viewBytes_append] at hview
    exact (append_inj hview (by simp)).1
  refine ⟨_, Nat.add_sub_of_le (by omega), ?_⟩
  rw [viewBytes_append, hheader]

/-- `loadclump` behind its first read. -/
theorem loadClump_first (hc : dc.Coherent) (hbs : dc.blocksize = ar.blocksize) {r : ℕ}
    (hcheck : checkClump cl = .ok ())
    (hview : viewBytes dc (ar.base + aa) (clumpSize + cl.info.size.toNat) =
      clumpHeader cl ar.clumpmagic ++ data)
    (hend : aa + (clumpSize + cl.info.size.toNat) ≤ ar.clumpEnd)
    (hr : clumpSize + r = min (1 <<< aBlockLog) (ar.clumpEnd - aa))
    (hread : ar.Fetched readOk dc (ar.base + aa) (clumpSize + r)) :
    ar.loadClump readOk dc aa = if isCorrupt (rereadClump cl) then .failed
      else match (ar.clumpData readOk dc aa cl.info.size.toNat
          (viewBytes dc (ar.base + aa) (clumpSize + r))).bind (decode (rereadClump cl)) with
        | none => .failed
        | some lump => .lump (rereadClump cl) lump := by
  have hsize : clumpSize = 38 := rfl
  have hblock : (1 : ℕ) <<< aBlockLog = 512 := rfl
  obtain ⟨r', hr', hsplit⟩ := viewBytes_first hview hend
  obtain rfl : r = r' := by omega
  have hunpack : unpackClump (viewBytes dc (ar.base + aa) (clumpSize + r)) ar.clumpmagic =
      .ok (rereadClump cl) := by
    rw [hsplit]
    exact unpackClump_pack hcheck _
  have hinfo : (rereadClump cl).info.size = cl.info.size := rfl
  rw [loadClump, readArena_eq hc hbs (by omega) (by omega) (by rwa [← hr]), ← hr]
  simp only [length_viewBytes]
  rw [if_neg (by omega), hunpack]
  simp only [hinfo]

/-- **A clump of the log is loaded** with its data, if it can be read and decoded and its type
is not read back as that of a corrupt clump. -/
theorem loadClump_eq (hc : dc.Coherent) (hbs : dc.blocksize = ar.blocksize)
    (hcheck : checkClump cl = .ok ()) (hdata : data.length = cl.info.size.toNat)
    (hview : viewBytes dc (ar.base + aa) (clumpSize + cl.info.size.toNat) =
      clumpHeader cl ar.clumpmagic ++ data)
    (hend : aa + (clumpSize + cl.info.size.toNat) ≤ ar.clumpEnd)
    (hread : ar.Fetched readOk dc (ar.base + aa) (ar.loadSize aa cl)) :
    ar.loadClump readOk dc aa = if isCorrupt (rereadClump cl) then .failed
      else match decode cl data with
        | none => .failed
        | some lump => .lump (rereadClump cl) lump := by
  have hsize : clumpSize = 38 := rfl
  have hblock : (1 : ℕ) <<< aBlockLog = 512 := rfl
  obtain ⟨r, hr, hsplit⟩ := viewBytes_first hview hend
  have hbody : viewBytes dc (ar.base + aa + clumpSize) cl.info.size.toNat = data := by
    rw [viewBytes_append] at hview
    exact (append_inj hview (by simp)).2
  have hbuf : ∃ buf, ar.clumpData readOk dc aa cl.info.size.toNat
      (viewBytes dc (ar.base + aa) (clumpSize + r)) = some buf ∧
        buf.take cl.info.size.toNat = data := by
    rw [clumpData, length_viewBytes, Nat.add_sub_cancel_left]
    by_cases hshort : r < cl.info.size.toNat
    · refine ⟨data, ?_, take_of_length_le hdata.le⟩
      have hpart : ar.Fetched readOk dc (ar.base + (aa + clumpSize)) cl.info.size.toNat :=
        hread.mono (by omega) (by simp only [loadSize]; omega)
      have hmin : min cl.info.size.toNat (ar.clumpEnd - (aa + clumpSize)) =
          cl.info.size.toNat := by omega
      rw [if_pos hshort, readArena_eq hc hbs (by omega) (by omega) (by rwa [hmin]), hmin,
        ← Nat.add_assoc, hbody]
      exact if_neg (not_not_intro hdata)
    · refine ⟨viewBytes dc (ar.base + aa + clumpSize) r, ?_, ?_⟩
      · rw [if_neg hshort, hsplit, drop_left' (by simp)]
      · obtain ⟨q, rfl⟩ := Nat.exists_eq_add_of_le (not_lt.mp hshort)
        rw [viewBytes_append, hbody, take_left' hdata]
  obtain ⟨buf, hbuf, htake⟩ := hbuf
  have hdec : decode (rereadClump cl) buf = decode cl data := by
    rw [decode_rereadClump]
    exact decode_congr (by rw [htake, take_of_length_le hdata.le])
  rw [loadClump_first hc hbs hcheck hview hend hr
    (hread.mono le_rfl (by simp only [loadSize]; omega)),
    hbuf, Option.bind_some, hdec]

/-- A clump that cannot be read as a whole is not loaded. -/
theorem loadClump_ne_lump (hc : dc.Coherent) (hbs : dc.blocksize = ar.blocksize)
    (hcheck : checkClump cl = .ok ())
    (hview : viewBytes dc (ar.base + aa) (clumpSize + cl.info.size.toNat) =
      clumpHeader cl ar.clumpmagic ++ data)
    (hend : aa + (clumpSize + cl.info.size.toNat) ≤ ar.clumpEnd)
    (hread : ¬ar.Fetched readOk dc (ar.base + aa) (ar.loadSize aa cl)) (cl' : Clump)
    (lump : List UInt8) : ar.loadClump readOk dc aa ≠ .lump cl' lump := by
  have hsize : clumpSize = 38 := rfl
  obtain ⟨r, hr, -⟩ := viewBytes_first hview hend
  by_cases hfirst : ar.Fetched readOk dc (ar.base + aa) (clumpSize + r)
  · rw [loadClump_first hc hbs hcheck hview hend hr hfirst]
    have hnone : ar.clumpData readOk dc aa cl.info.size.toNat
        (viewBytes dc (ar.base + aa) (clumpSize + r)) = none := by
      have hshort : r < cl.info.size.toNat := by
        by_contra hge
        exact hread (hfirst.mono le_rfl (by simp only [loadSize]; omega))
      have hmin : min cl.info.size.toNat (ar.clumpEnd - (aa + clumpSize)) =
          cl.info.size.toNat := by omega
      have hsecond : ar.readArena readOk dc (aa + clumpSize) cl.info.size.toNat = none := by
        refine readArena_fail (by omega) fun h => hread ?_
        rw [hmin, ← Nat.add_assoc] at h
        exact (hfirst.union h (by omega)).mono le_rfl (by simp only [loadSize]; omega)
      rw [clumpData, length_viewBytes, Nat.add_sub_cancel_left, if_pos hshort, hsecond]
    rw [hnone, Option.bind_none]
    split <;> simp
  · have hnone : ar.readArena readOk dc aa (1 <<< aBlockLog) = none :=
      readArena_fail (by omega) (by rwa [← hr])
    rw [loadClump, hnone]
    simp

/-- Nothing is loaded behind the log. -/
theorem loadClump_free (hc : dc.Coherent) (hbs : dc.blocksize = ar.blocksize)
    (hmagic : ar.clumpmagic ≠ 0) (hview : viewBytes dc (ar.base + aa) u32Size = [0, 0, 0, 0])
    (hend : aa + u32Size ≤ ar.clumpEnd) (cl' : Clump) (lump : List UInt8) :
    ar.loadClump readOk dc aa ≠ .lump cl' lump := by
  have hword : u32Size = 4 := rfl
  have hblock : (1 : ℕ) <<< aBlockLog = 512 := rfl
  by_cases hfirst : ar.Fetched readOk dc (ar.base + aa) (min (1 <<< aBlockLog) (ar.clumpEnd - aa))
  · rw [loadClump, readArena_eq hc hbs (by omega) (by omega) hfirst]
    obtain ⟨r, hr⟩ : ∃ r, min (1 <<< aBlockLog) (ar.clumpEnd - aa) = u32Size + r :=
      ⟨_, (Nat.add_sub_of_le (by omega)).symm⟩
    have hne : ¬beVal [0, 0, 0, 0] = ar.clumpmagic.toNat := by
      intro h
      exact hmagic (UInt32.toNat_inj.1 h.symm)
    have hunpack : unpackClump (viewBytes dc (ar.base + aa) (u32Size + r)) ar.clumpmagic =
        .error (.badMagic (beVal [0, 0, 0, 0]) ar.clumpmagic.toNat) := by
      have htake : (viewBytes dc (ar.base + aa) (u32Size + r)).take 4 = [0, 0, 0, 0] := by
        rw [viewBytes_append, hview]
        exact take_left' rfl
      simp only [unpackClump, htake]
      rw [if_pos hne]
    rw [hr]
    simp only [hunpack]
    split <;> simp
  · rw [loadClump, readArena_fail (by omega) hfirst]
    simp

end Arena

/-! ### What `storeclump` makes -/

/-- The clump of `storeclump` and its data, compressed if that makes them shorter. -/
def makeClump (compressBlocks : Bool) (sc : Score) (type : UInt8) (creator time : UInt32)
    (zb : List UInt8) : Clump × List UInt8 :=
  let plain := (⟨⟨type, UInt16.ofNat zb.length, UInt16.ofNat zb.length, sc⟩, clumpENone, creator,
    time⟩, zb)
  match whackBlock compressBlocks zb with
  | none => plain
  | some data =>
    if 0 < data.length ∧ data.length < zb.length then
      (⟨⟨type, UInt16.ofNat data.length, UInt16.ofNat zb.length, sc⟩, clumpECompress, creator,
        time⟩, data)
    else plain

/-- **A stored clump is decoded**, passes `checkclump` and has as many bytes as it says. -/
theorem decode_makeClump {compressBlocks : Bool} (sc : Score) (type : UInt8)
    (creator time : UInt32) {zb : List UInt8} (hmax : zb.length ≤ vtMaxLumpSize) :
    ∃ cl data, makeClump compressBlocks sc type creator time zb = (cl, data) ∧
      decode cl data = some zb ∧ checkClump cl = .ok () ∧ data.length = cl.info.size.toNat ∧
      cl.info.score = sc := by
  have hlump : vtMaxLumpSize = 57344 := rfl
  have hsize : (UInt16.ofNat zb.length).toNat = zb.length :=
    UInt16.toNat_ofNat_of_lt' (show zb.length < 2 ^ 16 by omega)
  have hplain : decode ⟨⟨type, UInt16.ofNat zb.length, UInt16.ofNat zb.length, sc⟩, clumpENone,
      creator, time⟩ zb = some zb := by
    have hne : clumpENone ≠ clumpECompress := by decide
    simp only [decode, if_neg hne, if_true, ne_eq, not_true_eq_false, if_false, hsize, take_length]
  have hcheck : checkClump ⟨⟨type, UInt16.ofNat zb.length, UInt16.ofNat zb.length, sc⟩, clumpENone,
      creator, time⟩ = .ok () := by
    rw [checkClump, if_pos rfl, if_neg (not_not_intro rfl)]
  rw [makeClump]
  cases hwhack : whackBlock compressBlocks zb with
  | none => exact ⟨_, _, rfl, hplain, hcheck, hsize.symm, rfl⟩
  | some data =>
    simp only
    by_cases hshort : 0 < data.length ∧ data.length < zb.length
    · obtain ⟨-, ts, pad, hexpand, hfits, hc, hbits, hpad⟩ :=
        whack_eq_some (hmax.trans_lt (by decide)) hwhack
      have hback := unwhack_of_encode hc hfits le_rfl hbits hpad
      rw [hexpand] at hback
      have hdsize : (UInt16.ofNat data.length).toNat = data.length :=
        UInt16.toNat_ofNat_of_lt' (show data.length < 2 ^ 16 by omega)
      rw [if_pos hshort]
      refine ⟨_, _, rfl, ?_, ?_, hdsize.symm, rfl⟩
      · simp only [decode, if_true, hsize, hdsize, take_length, hback, ne_eq,
          not_true_eq_false, if_false]
      · have hne : clumpECompress ≠ clumpENone := by decide
        have hlt : ¬UInt16.ofNat data.length ≥ UInt16.ofNat zb.length := by
          rw [ge_iff_le, UInt16.le_iff_toNat_le, hsize, hdsize]
          omega
        rw [checkClump, if_neg hne, if_pos rfl, if_neg hlt]
    · rw [if_neg hshort]
      exact ⟨_, _, rfl, hplain, hcheck, hsize.symm, rfl⟩

/-- Eight zeros, which are compressed. -/
theorem decode_makeClump_zeros :
    (makeClump true (Vector.replicate 20 0) 13 0 0 (replicate 8 0)).2 = [0, 120, 0] ∧ ∃ cl data,
      makeClump true (Vector.replicate 20 0) 13 0 0 (replicate 8 0) = (cl, data) ∧
        decode cl data = some (replicate 8 0) ∧ checkClump cl = .ok () ∧
        data.length = cl.info.size.toNat ∧ cl.info.score = Vector.replicate 20 0 :=
  ⟨by decide, decode_makeClump _ _ _ _ (by decide)⟩

end Venti

end Plan9
