import Plan9.Venti.Cig

/-!
# Clump groups agree with the clumps

What is read from the directory are the entries of the clumps in the log
(`Plan9.Venti.DirHolds`), also while `writeaclump` is half done. So the table that `loadcig`
makes is that of the log (`Plan9.Venti.tabled_loadCig`), and `writeaclump` adds the right
offset to it (`Plan9.Venti.tabled_addCig`). The look-ups of `arenatog` and the addresses of
`asumload` follow from the table (`Plan9.Venti.cig_tabled`).

When the block of the directory cannot be read, the entry of a clump is lost, and `asumload` does
not yield that clump (`Plan9.Venti.cig_entry_lost`).
-/

namespace Plan9

namespace Venti

open Lib LibVenti List

/-! ### Lengths and starts -/

variable {log : List LogEntry}

/-- The starts of `n` clumps further on. -/
theorem startOf_add (log : List LogEntry) (i n : ℕ) :
    startOf log (i + n) = startOf log i + (((log.drop i).take n).map LogEntry.size).sum := by
  rw [startOf, startOf, take_add, map_append, sum_append]

variable {log' : List LogEntry} {i : ℕ}

theorem startOf_prefix (h : log <+: log') (hi : i ≤ log.length) :
    startOf log' i = startOf log i := by
  obtain ⟨rest, rfl⟩ := h
  rw [startOf, startOf, take_append_of_le_length hi]

variable {g : ℕ}

theorem groupStart_mono (log : List LogEntry) {g' : ℕ} (h : g ≤ g') :
    groupStart log g ≤ groupStart log g' :=
  startOf_mono log (Nat.mul_le_mul_right _ h)

/-- A group has started before the log ends. -/
theorem group_lt (h : g < groups log) : g * arenaCIGSize < log.length := by
  rw [groups, arenaCIGSize] at h
  rw [arenaCIGSize]
  omega

theorem groupStart_prefix (h : log <+: log') (hg : g < groups log) :
    groupStart log' g = groupStart log g :=
  startOf_prefix h (group_lt hg).le

/-! ### Reading the directory -/

variable {k : ℕ} {cl : Clump} {data : List UInt8}

variable {dc' : Dcache} {trailer : List UInt8} {r : Option ℕ} {ar' : Arena} {c' : Cigs}

section Directory

variable {ar : Arena} {readOk : ℕ → Bool} {dc : Dcache} {i n : ℕ}

/-- What the directory says about the clump of an entry. -/
def LogEntry.info (e : LogEntry) : ClumpInfo :=
  { e.clump.info with type := reread e.clump.info.type }

/-- The directory holds the entries of the clumps that are counted. -/
structure DirHolds (ar : Arena) (dc : Dcache) (log : List LogEntry) : Prop where
  coherent : dc.Coherent
  blocksize_eq : dc.blocksize = ar.blocksize
  clumps_eq : ar.memstats.clumps = log.length
  dir_eq : ∀ (i : ℕ) (e : LogEntry), log[i]? = some e → ∀ j < clumpInfoSize,
    dc.view (ar.cibBlock i + ar.cibOffset i + j) = (packClumpInfo e.clump.info).getD j 0

variable {s : ArenaState}

theorem LogHolds.dir (h : LogHolds s) : DirHolds s.arena s.dcache s.log :=
  ⟨h.coherent, h.blocksize_eq, h.clumps_eq, h.dir_eq⟩

/-- A block of the directory starts at a block boundary, wherever it is. -/
theorem blocksize_dvd_cibBlock (ar : Arena) (i : ℕ) : ar.blocksize ∣ ar.cibBlock i := by
  rw [Arena.cibBlock]
  refine Nat.dvd_sub (Nat.dvd_add ar.base_dvd ar.size_dvd) ?_
  obtain ⟨k, hk⟩ := ar.pow_two
  rw [hk]
  rcases le_total k 32 with hle | hle
  · exact (Nat.dvd_mod_iff (pow_dvd_pow 2 hle)).2 (Nat.dvd_mul_left _ _)
  · have hdvd : 2 ^ 32 ∣ (i / ar.clumpMax + 1) * 2 ^ k :=
      (pow_dvd_pow 2 hle).trans (Nat.dvd_mul_left _ _)
    rw [Nat.mod_eq_zero_of_dvd hdvd]
    exact Nat.dvd_zero _

/-- **An entry that can be read** is what the view holds. -/
theorem readClumpInfo_view (hc : dc.Coherent) (hbs : dc.blocksize = ar.blocksize)
    (hi : i < ar.memstats.clumps) :
    ar.readClumpInfo readOk dc i = if (dc.getDBlock (ar.cibBlock i) .oread readOk).isSome then
        some (unpackClumpInfo (Arena.viewBytes dc (ar.cibBlock i + ar.cibOffset i) clumpInfoSize))
      else none := by
  rw [Arena.readClumpInfo, if_neg (not_le.2 hi)]
  cases hb : dc.getDBlock (ar.cibBlock i) .oread readOk with
  | none => rfl
  | some b =>
    have hdata := Dcache.getDBlock_eq_view hc (hbs ▸ blocksize_dvd_cibBlock ar i) hb (by decide)
    have hoff := ar.cibOffset_add_le i
    have hbytes : (List.range clumpInfoSize).map (fun m => b.data (ar.cibOffset i + m)) =
        Arena.viewBytes dc (ar.cibBlock i + ar.cibOffset i) clumpInfoSize := by
      refine map_congr_left fun m hm => ?_
      rw [mem_range] at hm
      rw [hdata _ (by omega), Nat.add_assoc]
    rw [Option.map_some, hbytes]
    rfl

variable {e : LogEntry}

/-- **The directory is read as the log says.** -/
theorem DirHolds.readClumpInfo (h : DirHolds ar dc log) (he : log[i]? = some e) :
    ar.readClumpInfo readOk dc i =
      if (dc.getDBlock (ar.cibBlock i) .oread readOk).isSome then some e.info else none := by
  have hi : i < ar.memstats.clumps := by
    rw [h.clumps_eq]
    exact (List.getElem?_eq_some_iff.1 he).1
  have hview : Arena.viewBytes dc (ar.cibBlock i + ar.cibOffset i) clumpInfoSize =
      packClumpInfo e.clump.info := by
    refine ext_getElem ?_ fun j hj hj' => ?_
    · rw [Arena.length_viewBytes, length_packClumpInfo]
    · rw [length_packClumpInfo] at hj'
      have hdir := h.dir_eq i e he j hj'
      rw [getD_eq_getElem _ _ (by rwa [length_packClumpInfo])] at hdir
      rw [← hdir]
      simp [Arena.viewBytes]
  have hpack := unpackClumpInfo_pack e.clump.info []
  rw [append_nil] at hpack
  rw [readClumpInfo_view h.coherent h.blocksize_eq hi, hview, hpack]
  rfl

theorem readClumpInfo_none (hi : ar.memstats.clumps ≤ i) : ar.readClumpInfo readOk dc i = none := by
  rw [Arena.readClumpInfo, if_pos hi]

theorem readClumpInfos_succ (ar : Arena) (readOk : ℕ → Bool) (dc : Dcache) (clump n : ℕ) :
    ar.readClumpInfos readOk dc clump (n + 1) = match ar.readClumpInfo readOk dc clump with
      | none => []
      | some ci => ci :: ar.readClumpInfos readOk dc (clump + 1) n := by
  have hshift (i : ℕ) : clump + i.succ = clump + 1 + i := by omega
  rw [Arena.readClumpInfos, range_succ_eq_map, foldr_cons, foldr_map,
    Arena.readClumpInfos, Nat.add_zero]
  cases ar.readClumpInfo readOk dc clump with
  | none => rfl
  | some ci =>
    refine congrArg (ci :: ·) (foldr_ext _ _ _ fun i _ cis => ?_)
    rw [hshift]

/-- **`readclumpinfos`** returns the entries of some clumps on, of all of them if they can be
read. -/
theorem DirHolds.readClumpInfos (h : DirHolds ar dc log) (readOk : ℕ → Bool) (clump n : ℕ) :
    ∃ m ≤ n, ar.readClumpInfos readOk dc clump n = ((log.drop clump).take m).map LogEntry.info ∧
      (DirReadable ar readOk dc → m = n) := by
  induction n generalizing clump with
  | zero => exact ⟨0, le_rfl, rfl, fun _ => rfl⟩
  | succ n ih =>
    rw [readClumpInfos_succ]
    cases he : log[clump]? with
    | none =>
      have hlen := List.getElem?_eq_none_iff.1 he
      rw [readClumpInfo_none (by rw [h.clumps_eq]; exact hlen)]
      refine ⟨n + 1, le_rfl, ?_, fun _ => rfl⟩
      rw [drop_eq_nil_of_le hlen]
      rfl
    | some e =>
      rw [h.readClumpInfo he]
      obtain ⟨hlt, hget⟩ := List.getElem?_eq_some_iff.1 he
      by_cases hread : (dc.getDBlock (ar.cibBlock clump) .oread readOk).isSome = true
      · obtain ⟨m, hm, heq, hall⟩ := ih (clump + 1)
        refine ⟨m + 1, Nat.succ_le_succ hm, ?_, fun hr => congrArg Nat.succ (hall hr)⟩
        rw [if_pos hread, drop_eq_getElem_cons hlt, take_succ_cons, map_cons, hget]
        simp only [heq]
      · refine ⟨0, Nat.zero_le _, ?_,
          fun hr => absurd (hr clump (by rw [h.clumps_eq]; exact hlt)) hread⟩
        rw [if_neg hread]
        rfl

/-- As many entries are read as there are, if all can be read. -/
theorem length_readClumpInfos (hr : DirReadable ar readOk dc) (clump n : ℕ) :
    (ar.readClumpInfos readOk dc clump n).length = min n (ar.memstats.clumps - clump) := by
  induction n generalizing clump with
  | zero => rw [Nat.zero_min]; rfl
  | succ n ih =>
    rw [readClumpInfos_succ, Arena.readClumpInfo]
    by_cases hi : clump ≥ ar.memstats.clumps
    · rw [if_pos hi]
      simp only [length_nil]
      omega
    · obtain ⟨b, hb⟩ := Option.isSome_iff_exists.1 (hr clump (not_le.1 hi))
      rw [if_neg hi, hb]
      simp only [Option.map_some, length_cons, ih]
      omega

/-! ### The table -/

/-- The offset behind a group whose entries were all read. -/
theorem groupStart_succ {m : ℕ} (hm : m ≤ arenaCIGSize)
    (hlen : arenaCIGSize ≤ ((log.drop (g * arenaCIGSize)).take m).length) :
    groupStart log g +
      ((((log.drop (g * arenaCIGSize)).take m).map LogEntry.info).map ClumpInfo.bytes).sum =
        groupStart log (g + 1) := by
  have hfull : m = arenaCIGSize := by
    have hle := length_take_le m (log.drop (g * arenaCIGSize))
    omega
  rw [groupStart, groupStart, Nat.succ_mul, startOf_add, hfull, map_map]
  rfl

variable {ncig : ℕ}

/-- **The loop of `loadcig`** makes the table of the groups from group `i` on, or gives up. -/
theorem DirHolds.loadGroups (h : DirHolds ar dc log) (readOk : ℕ → Bool) (hk : i + k = ncig) :
    ∀ cig, ar.loadGroups readOk dc ncig k i (groupStart log i) = some cig →
      cig = (range' i k).map (groupStart log) := by
  induction k generalizing i with
  | zero =>
    intro cig hcig
    exact (Option.some.inj hcig).symm
  | succ k ih =>
    intro cig hcig
    obtain ⟨m, hm, heq, -⟩ := h.readClumpInfos readOk (i * arenaCIGSize) arenaCIGSize
    rw [Arena.loadGroups] at hcig
    simp only [heq] at hcig
    split at hcig
    next => cases hcig
    next hgo =>
      obtain ⟨rest, hrest, rfl⟩ := Option.map_eq_some_iff.1 hcig
      rw [range'_succ, map_cons]
      refine congrArg _ ?_
      rcases Nat.eq_zero_or_pos k with rfl | hpos
      · cases hrest
        rfl
      · have hfull : arenaCIGSize ≤ ((log.drop (i * arenaCIGSize)).take m).length := by
          by_contra hlt
          refine hgo ⟨?_, by omega⟩
          rw [length_map]
          exact not_le.1 hlt
        rw [groupStart_succ hm hfull] at hrest
        exact ih (by omega) rest hrest

/-- It does not give up if all entries can be read. -/
theorem loadGroups_isSome (hr : DirReadable ar readOk dc) (offset : ℕ) (hk : i + k = ncig)
    (hncig : (ncig - 1) * arenaCIGSize ≤ ar.memstats.clumps) :
    ∃ cig, ar.loadGroups readOk dc ncig k i offset = some cig := by
  induction k generalizing i offset with
  | zero => exact ⟨[], rfl⟩
  | succ k ih =>
    rw [Arena.loadGroups, if_neg]
    · obtain ⟨cig, hcig⟩ := ih (i := i + 1) (offset + ((ar.readClumpInfos readOk dc
        (i * arenaCIGSize) arenaCIGSize).map ClumpInfo.bytes).sum) (by omega)
      exact ⟨offset :: cig, by rw [hcig]; rfl⟩
    · rintro ⟨hshort, hne⟩
      rw [length_readClumpInfos hr] at hshort
      have hle : (i + 1) * arenaCIGSize ≤ (ncig - 1) * arenaCIGSize :=
        Nat.mul_le_mul_right _ (by omega)
      rw [Nat.succ_mul] at hle
      omega

/-- There are fewer clumps than numbers, with a group to spare. -/
def Countable (ar : Arena) : Prop := ar.memstats.clumps + arenaCIGSize ≤ 2 ^ 32

theorem countable_of_dirBytes (h : ar.dirBytes ar.memstats.clumps < 2 ^ 32) : Countable ar := by
  have hentry : clumpInfoSize * ar.clumpMax ≤ ar.blocksize := Nat.mul_div_le _ _
  have hlt : ar.memstats.clumps < (ar.memstats.clumps / ar.clumpMax + 1) * ar.clumpMax := by
    rw [Nat.succ_mul]
    exact Nat.lt_div_mul_add ar.clumpMax_pos
  have hle : clumpInfoSize * ar.memstats.clumps ≤ ar.dirBytes ar.memstats.clumps := by
    calc clumpInfoSize * ar.memstats.clumps
        ≤ clumpInfoSize * ((ar.memstats.clumps / ar.clumpMax + 1) * ar.clumpMax) :=
          Nat.mul_le_mul_left _ hlt.le
      _ = (ar.memstats.clumps / ar.clumpMax + 1) * (clumpInfoSize * ar.clumpMax) := by
          rw [Nat.mul_left_comm]
      _ ≤ ar.dirBytes ar.memstats.clumps := Nat.mul_le_mul_left _ hentry
  have h25 : clumpInfoSize = 25 := rfl
  have hcig : arenaCIGSize = 10240 := rfl
  rw [h25] at hle
  rw [Countable, hcig]
  omega

variable {c : Cigs} {aa : ℕ}

/-- How many groups `loadcig` counts. -/
theorem ncig_eq (hcount : Countable ar) (hclumps : ar.memstats.clumps = log.length) :
    (ar.memstats.clumps + arenaCIGSize - 1) % 2 ^ 32 / arenaCIGSize = groups log := by
  have hcig : arenaCIGSize = 10240 := rfl
  rw [Countable] at hcount
  rw [Nat.mod_eq_of_lt (by omega), hclumps, groups]

/-- **`loadcig` makes the table of the log**, or none. -/
theorem tabled_loadCig (h : DirHolds ar dc log) (hcount : Countable ar) (ht : Tabled log c)
    (readOk : ℕ → Bool) : Tabled log (ar.loadCig readOk dc c) := by
  rw [Arena.loadCig]
  split
  next => exact ht
  next =>
    simp only [ncig_eq hcount h.clumps_eq]
    split
    next hzero =>
      rintro cig hcig
      cases hcig
      rw [hzero]
      exact ⟨rfl, rfl⟩
    next =>
      split
      next =>
        intro cig hcig
        cases hcig
      next cig' hcig' =>
        rintro cig hcig
        cases hcig
        have hzero : groupStart log 0 = 0 := by
          rw [groupStart, Nat.zero_mul]
          rfl
        refine ⟨rfl, ?_⟩
        rw [range_eq_range']
        refine h.loadGroups readOk (Nat.zero_add _) cig' ?_
        rw [hzero]
        exact hcig'

theorem tabled_needCig (h : DirHolds ar dc log) (hcount : Countable ar) (ht : Tabled log c)
    (readOk : ℕ → Bool) : Tabled log (ar.needCig readOk dc c) := by
  rw [Arena.needCig]
  split
  next => exact tabled_loadCig h hcount ht readOk
  next => exact ht

/-- There is a table after `loadcig`, if the directory can be read and was before. -/
theorem needCig_isSome (hcount : Countable ar) (hr : DirReadable ar readOk dc) (hc : 0 ≤ c.ncig) :
    ∃ cig, (ar.needCig readOk dc c).cig = some cig := by
  rw [Arena.needCig]
  split
  next hnil =>
    have hgo : ¬(c.cig.isSome = true ∨ c.ncig < 0) := by
      rw [hnil]
      rintro (hsome | hneg)
      · cases hsome
      · omega
    rw [Arena.loadCig, if_neg hgo]
    simp only
    split
    next => exact ⟨[], rfl⟩
    next =>
      have hcig : arenaCIGSize = 10240 := rfl
      rw [Countable] at hcount
      rw [Nat.mod_eq_of_lt (by omega)]
      obtain ⟨cig, heq⟩ := loadGroups_isSome hr 0 (Nat.zero_add
        ((ar.memstats.clumps + arenaCIGSize - 1) / arenaCIGSize)) (by rw [hcig]; omega)
      rw [heq]
      exact ⟨cig, rfl⟩
  next hsome => exact Option.ne_none_iff_exists'.1 hsome

theorem groups_concat (log : List LogEntry) (e : LogEntry) : groups (log ++ [e]) =
    if log.length % arenaCIGSize = 0 then groups log + 1 else groups log := by
  rw [groups, groups, length_append, length_singleton, arenaCIGSize]
  split <;> omega

/-- **`writeaclump` adds the right offset**: that of the clump it takes, if a group begins. -/
theorem tabled_addCig (h : DirHolds ar dc log) (hcount : Countable ar) (ht : Tabled log c)
    (haa : aa = startOf log log.length) (readOk : ℕ → Bool) :
    Tabled (log ++ [e]) (ar.addCig readOk dc c aa) := by
  have hstart : ∀ g < groups log, groupStart (log ++ [e]) g = groupStart log g := fun g hg =>
    groupStart_prefix (prefix_append _ _) hg
  have hold : (List.range (groups log)).map (groupStart (log ++ [e])) =
      (List.range (groups log)).map (groupStart log) :=
    map_congr_left fun g hg => hstart g (mem_range.1 hg)
  rw [Arena.addCig]
  simp only
  by_cases hfirst : ar.memstats.clumps % arenaCIGSize = 0
  · rw [if_pos hfirst]
    have ht' := tabled_needCig h hcount ht readOk
    split
    next hnil =>
      intro cig hcig
      rw [hnil] at hcig
      cases hcig
    next cig hsome =>
      obtain ⟨hncig, hcig⟩ := ht' cig hsome
      split
      next =>
        intro cig' hcig'
        cases hcig'
      next =>
        rintro cig' hcig'
        cases hcig'
        rw [h.clumps_eq] at hfirst
        rw [groups_concat, if_pos hfirst, hncig]
        refine ⟨rfl, ?_⟩
        have hlen : groups log * arenaCIGSize = log.length := by
          rw [groups, arenaCIGSize]
          rw [arenaCIGSize] at hfirst
          omega
        rw [range_succ, map_append, hold, hcig, map_singleton, groupStart, hlen,
          startOf_concat _ le_rfl, haa]
  · rw [if_neg hfirst]
    rw [h.clumps_eq] at hfirst
    intro cig hcig
    obtain ⟨hncig, hcig'⟩ := ht cig hcig
    rw [groups_concat, if_neg hfirst, hold]
    exact ⟨hncig, hcig'⟩

/-! ### Writing a clump -/

/-- **`writeaclump` with the groups** does to the arena what it does without, and to the groups
something only when it takes the clump. -/
theorem writeAClumpCig_cases
    (h : ar.writeAClumpCig dc cl data readOk trailer c = some (r, ar', dc', c')) :
    ar.writeAClump dc cl data readOk trailer = some (r, ar', dc') ∧
      (r = none ∧ c' = c ∨ r = some ar.memstats.used ∧ ∃ header dc₁,
        packClump cl ar.clumpmagic = .ok header ∧
        ar.writeBlocks readOk (cl.info.size.toNat + clumpSize + u32Size) dc
          (ar.base + ar.memstats.used - ((ar.base + ar.memstats.used) &&& (ar.blocksize - 1)))
          ((ar.base + ar.memstats.used) &&& (ar.blocksize - 1)) (header ++ data ++ [0, 0, 0, 0]) =
            (true, dc₁) ∧
        c' = (ar.countBytes cl).addCig readOk dc₁ c ar.memstats.used) := by
  rw [Arena.writeAClumpCig] at h
  rw [Arena.writeAClump]
  simp only at h ⊢
  split at h
  next hfull =>
    rw [if_pos hfull]
    split at h
    next hopen =>
      rw [if_pos hopen]
      cases h
      exact ⟨rfl, .inl ⟨rfl, rfl⟩⟩
    next hsealed =>
      rw [if_neg hsealed]
      cases h
      exact ⟨rfl, .inl ⟨rfl, rfl⟩⟩
  next hroom =>
    rw [if_neg hroom]
    cases hpack : packClump cl ar.clumpmagic with
    | error e =>
      rw [hpack] at h
      cases h
      exact ⟨rfl, .inl ⟨rfl, rfl⟩⟩
    | ok header =>
      rw [hpack] at h
      simp only at h ⊢
      rcases hblocks : ar.writeBlocks readOk (cl.info.size.toNat + clumpSize + u32Size) dc
          (ar.base + ar.memstats.used - ((ar.base + ar.memstats.used) &&& (ar.blocksize - 1)))
          ((ar.base + ar.memstats.used) &&& (ar.blocksize - 1)) (header ++ data ++ [0, 0, 0, 0])
        with ⟨_ | _, dc₁⟩
      · rw [hblocks] at h
        cases h
        exact ⟨rfl, .inl ⟨rfl, rfl⟩⟩
      · rw [hblocks] at h
        simp only at h ⊢
        split at h
        next => cases h
        next hwrap =>
          rw [if_neg hwrap]
          cases h
          exact ⟨rfl, .inr ⟨rfl, header, dc₁, rfl, hblocks, rfl⟩⟩

variable {dc₁ : Dcache}

/-- The loop over the blocks that does not fail. -/
theorem blocksSpec_of_true {a off : ℕ} {bytes : List UInt8} (hc : dc.Coherent)
    (hbs : dc.blocksize = ar.blocksize) (ha : ar.blocksize ∣ a) (hoff : off < ar.blocksize)
    (hne : bytes ≠ []) (hk : bytes.length ≤ k)
    (h : ar.writeBlocks readOk k dc a off bytes = (true, dc₁)) :
    Arena.BlocksSpec ar dc dc₁ (a + off) bytes := by
  cases hfirst : dc.getDBlock a (if off ≠ 0 then .ordwr else .owrite) readOk with
  | none =>
    have hpos : 0 < k := lt_of_lt_of_le (length_pos_of_ne_nil hne) hk
    rw [ar.writeBlocks_fail bytes hpos hfirst] at h
    cases h
  | some b =>
    obtain ⟨dc', heq, hspec⟩ := ar.writeBlocks_spec hc hbs k a off bytes ha hoff hne hk
      (by rw [hfirst]; rfl)
    rw [h] at heq
    cases heq
    exact hspec

/-- **The directory while a clump is being written**: its bytes are there, its entry is not. -/
theorem dirHolds_between {header : List UInt8} (h : LogHolds s)
    (hdata : data.length = cl.info.size.toNat)
    (h32 : s.arena.dirBytes (s.arena.memstats.clumps + 1) < 2 ^ 32)
    (hroom : s.arena.memstats.used + (cl.info.size.toNat + clumpSize + u32Size) + u32Size +
      s.arena.dirBytes (s.arena.memstats.clumps + 1) ≤ s.arena.size)
    (hpack : packClump cl s.arena.clumpmagic = .ok header)
    (hblocks : s.arena.writeBlocks readOk (cl.info.size.toNat + clumpSize + u32Size) s.dcache
      (s.arena.base + s.arena.memstats.used -
        ((s.arena.base + s.arena.memstats.used) &&& (s.arena.blocksize - 1)))
      ((s.arena.base + s.arena.memstats.used) &&& (s.arena.blocksize - 1))
      (header ++ data ++ [0, 0, 0, 0]) = (true, dc₁)) :
    DirHolds (s.arena.countBytes cl) dc₁ s.log := by
  obtain ⟨-, rfl⟩ := packClump_eq_ok.1 hpack
  have hlen : (clumpHeader cl s.arena.clumpmagic ++ data ++ [0, 0, 0, 0]).length =
      cl.info.size.toNat + clumpSize + u32Size := by
    simp only [length_append, length_clumpHeader, hdata, length_cons, length_nil, u32Size]
    omega
  have hpos := s.arena.blocksize_pos
  rw [Arena.and_blocksize] at hblocks
  have hspec := blocksSpec_of_true h.coherent h.blocksize_eq
    (Nat.dvd_sub_mod (n := s.arena.blocksize) _) (Nat.mod_lt _ hpos)
    (fun hnil => by rw [hnil, length_nil, u32Size] at hlen; omega) hlen.le hblocks
  rw [Nat.sub_add_cancel (Nat.mod_le _ _)] at hspec
  refine ⟨hspec.coherent, hspec.blocksize_eq.trans h.blocksize_eq, h.clumps_eq,
    fun i e he j hj => ?_⟩
  have hlt := (List.getElem?_eq_some_iff.1 he).1
  rw [← h.clumps_eq] at hlt
  have hfit : s.arena.dirBytes (s.arena.memstats.clumps + 1) ≤ s.arena.size := by omega
  have hcc : s.arena.memstats.clumps ≤ s.arena.memstats.clumps + 1 := Nat.le_succ _
  have hsucc := s.arena.dirBytes_mono hcc
  obtain ⟨hdvd, -, hlow, -⟩ := s.arena.cibBlock_spec hcc h32 hfit
  have hbefore := Arena.cib_lt hlt (lt_of_le_of_lt hsucc h32) (hsucc.trans hfit)
  have hoff := s.arena.cibOffset_add_le i
  -- the bytes of the clump end in front of the block of the directory that is next
  have hgap : s.arena.base + s.arena.memstats.used +
      (clumpHeader cl s.arena.clumpmagic ++ data ++ [0, 0, 0, 0]).length ≤
        s.arena.cibBlock s.arena.memstats.clumps := by
    rw [hlen]
    omega
  have hslot : s.arena.cibBlock s.arena.memstats.clumps ≤
      s.arena.cibBlock i + s.arena.cibOffset i + j := by
    omega
  exact (hspec.behind _ _ hdvd hgap hslot).trans (h.dir_eq i e he j hj)

end Directory

/-! ### Runs -/

/-- **The invariant**: the arena keeps its promise, its directory has not wrapped, and the table
is that of the log. -/
structure CigInv (s : CigState) : Prop where
  log : LogHolds s.toArenaState
  dir : s.arena.dirBytes s.arena.memstats.clumps < 2 ^ 32
  tabled : Tabled s.log s.cigs

variable {s : CigState}

theorem CigInv.countable (h : CigInv s) : Countable s.arena := countable_of_dirBytes h.dir

/-- Look-ups and loads only make the table. -/
theorem CigInv.needCig (h : CigInv s) (readOk : ℕ → Bool) :
    CigInv { s with cigs := s.arena.needCig readOk s.dcache s.cigs } :=
  ⟨h.log, h.dir, tabled_needCig h.log.dir h.countable h.tabled readOk⟩

theorem arenaToG_fst (ar : Arena) (readOk : ℕ → Bool) (dc : Dcache) (c : Cigs) (addr : ℕ) :
    (ar.arenaToG readOk dc c addr).1 = ar.needCig readOk dc c := by
  rw [Arena.arenaToG]
  simp only
  split
  next => rfl
  next => split <;> rfl

theorem asumLoad_fst (ar : Arena) (readOk : ℕ → Bool) (dc : Dcache) (c : Cigs) (g n : ℕ) :
    (ar.asumLoad readOk dc c g n).1 = c ∨
      (ar.asumLoad readOk dc c g n).1 = ar.needCig readOk dc c := by
  rw [Arena.asumLoad]
  split
  next => exact .inl rfl
  next =>
    simp only
    split
    next => exact .inr rfl
    next => exact .inr rfl

/-- **Every step keeps the invariant**, and the log grows at its end. -/
theorem CigInv.step {t : CigState} {op : CigOp} (h : CigInv s) (hok : CigOk s op)
    (hstep : CigStep s op t) : CigInv t ∧ s.log <+: t.log := by
  cases hstep with
  | flush sel =>
    have hok' : WriteOk s.toArenaState (.flush sel) := trivial
    obtain ⟨hlog, hext⟩ := logHolds_step h.log hok' (.flush sel)
    exact ⟨⟨hlog, h.dir, h.tabled⟩, hext.log_prefix⟩
  | bump addr =>
    have hok' : WriteOk s.toArenaState (.bump addr) := trivial
    obtain ⟨hlog, hext⟩ := logHolds_step h.log hok' (.bump addr)
    exact ⟨⟨hlog, h.dir, h.tabled⟩, hext.log_prefix⟩
  | arenaToG readOk addr =>
    rw [arenaToG_fst]
    exact ⟨h.needCig readOk, prefix_refl _⟩
  | asumLoad readOk g n =>
    rcases asumLoad_fst s.arena readOk s.dcache s.cigs g n with heq | heq
    · rw [heq]
      exact ⟨h, prefix_refl _⟩
    · rw [heq]
      exact ⟨h.needCig readOk, prefix_refl _⟩
  | @write cl data readOk trailer r ar dc c hdata htrailer hcall =>
    obtain ⟨hwrite, hcigs⟩ := writeAClumpCig_cases hcall
    have hok' : WriteOk s.toArenaState (.write cl data readOk trailer) := hok
    obtain ⟨hlog, hext⟩ := logHolds_step h.log hok' (.write hdata htrailer hwrite)
    refine ⟨?_, hext.log_prefix⟩
    obtain ⟨hread, h32⟩ := hok'
    have hcases := Arena.writeAClump_cases
      ⟨h.log.coherent, h.log.blocksize_eq, hdata, htrailer, hread, h32⟩ hwrite
    rcases hcigs with ⟨rfl, rfl⟩ | ⟨rfl, header, dc₁, hpack, hblocks, rfl⟩
    · have htabled : Tabled (s.log ++ []) s.cigs := by
        rw [append_nil]
        exact h.tabled
      rcases hcases with ⟨-, rfl, -⟩ | ⟨-, -, rfl, -⟩ | ⟨hr, -⟩
      · exact ⟨hlog, h.dir, htabled⟩
      · exact ⟨hlog, h.dir, htabled⟩
      · cases hr
    · rcases hcases with ⟨hr, -⟩ | ⟨hr, -⟩ | ⟨-, -, rfl, hroom, -⟩
      · cases hr
      · cases hr
      · exact ⟨hlog, h32, tabled_addCig
          (dirHolds_between h.log hdata h32 hroom hpack hblocks) h.countable h.tabled h.log.used_eq
          readOk⟩

theorem CigInv.run {s t : CigState} {ops : List CigOp} (h : CigInv s)
    (hrun : Run (Guarded CigOk CigStep) s ops t) : CigInv t ∧ s.log <+: t.log := by
  refine hrun.guarded_inv (I := fun u => CigInv u ∧ s.log <+: u.log) ?_ ⟨h, prefix_refl _⟩
  intro u op v hu hok hstep
  obtain ⟨hv, hpre⟩ := hu.1.step hok hstep
  exact ⟨hv, hu.2.trans hpre⟩

/-! ### Looking up and loading -/

/-- The group of an address, with its bounds. -/
structure InGroup (log : List LogEntry) (addr gstart glimit g : ℕ) : Prop where
  lt : g < groups log
  start_eq : gstart = groupStart log g
  limit_eq : glimit = groupLimit log g
  start_le : gstart ≤ addr
  lt_limit : addr < glimit
  unique : ∀ g' < groups log, groupStart log g' ≤ addr → addr < groupLimit log g' → g' = g

variable {ar : Arena} {readOk : ℕ → Bool} {dc : Dcache} {addr : ℕ}

variable {c : Cigs} {gstart : ℕ}

/-- **`arenatog` finds the group of an address** of the log. -/
theorem inGroup_arenaToG {glimit : ℕ} (hused : ar.memstats.used = startOf log log.length)
    (ht : Tabled log (ar.needCig readOk dc c)) (haddr : addr < ar.memstats.used)
    (h : ar.arenaToG readOk dc c addr = (c', some (gstart, glimit, g))) :
    InGroup log addr gstart glimit g := by
  rw [Arena.arenaToG] at h
  simp only at h
  split at h
  next => cases h
  next cig hsome =>
    obtain ⟨hncig, hcig⟩ := ht cig hsome
    split at h
    next => cases h
    next hzero =>
      rw [hncig] at h hzero
      have hpos : 0 < groups log := by omega
      have hget : ∀ m < groups log, cig.getD m 0 = groupStart log m := by
        intro m hm
        rw [hcig, getD_eq_getElem _ _ (by rwa [length_map, length_range]),
          getElem_map, getElem_range]
      rw [Int.toNat_natCast] at h
      have hmono : ∀ i j, i ≤ j → j < groups log → decide (cig.getD j 0 ≤ addr) = true →
          decide (cig.getD i 0 ≤ addr) = true := by
        intro i j hij hj hle
        rw [decide_eq_true_eq, hget j hj] at hle
        rw [decide_eq_true_eq, hget i (by omega)]
        exact (groupStart_mono log hij).trans hle
      obtain ⟨hlt, hpass, hbeyond⟩ := searchLast_spec hpos hmono
      generalize searchLast (fun m => decide (cig.getD m 0 ≤ addr)) (groups log) = l at *
      have hstart : groupStart log l ≤ addr := by
        rcases hpass with rfl | hle
        · rw [groupStart, Nat.zero_mul]
          exact Nat.zero_le _
        · rwa [decide_eq_true_eq, hget l hlt] at hle
      have hlimit : addr < groupLimit log l := by
        rw [groupLimit]
        split
        next hnext =>
          have hfail := hbeyond (l + 1) (Nat.lt_succ_self l) hnext
          rw [decide_eq_false_iff_not, hget _ hnext] at hfail
          exact not_le.1 hfail
        next => rwa [hused] at haddr
      simp only [Prod.mk.injEq, Option.some.injEq] at h
      obtain ⟨-, rfl, rfl, rfl⟩ := h
      refine ⟨hlt, hget l hlt, ?_, (hget l hlt).trans_le hstart, ?_, fun g' hg' hle hlt' => ?_⟩
      · rw [groupLimit]
        by_cases hnext : l + 1 < groups log
        · rw [if_pos hnext, if_pos (by omega), hget _ hnext]
        · rw [if_neg hnext, if_neg (by omega), hused]
      · by_cases hnext : l + 1 < groups log
        · rw [groupLimit, if_pos hnext] at hlimit
          rw [if_pos (by omega), hget _ hnext]
          exact hlimit
        · rw [if_neg (by omega)]
          exact haddr
      · rcases lt_trichotomy g' l with hlow | rfl | hhigh
        · rw [groupLimit, if_pos (by omega)] at hlt'
          have hle' := groupStart_mono log (Nat.succ_le_of_lt hlow)
          rw [Nat.succ_eq_add_one] at hle'
          omega
        · rfl
        · rw [groupLimit, if_pos (by omega)] at hlimit
          have hle' := groupStart_mono log (Nat.succ_le_of_lt hhigh)
          rw [Nat.succ_eq_add_one] at hle'
          omega

/-- It finds one if there is a table to look in. -/
theorem arenaToG_isSome {cig : List ℕ} (ht : Tabled log (ar.needCig readOk dc c)) (hlog : log ≠ [])
    (hsome : (ar.needCig readOk dc c).cig = some cig) :
    (ar.arenaToG readOk dc c addr).2.isSome = true := by
  have hncig := (ht cig hsome).1
  have hpos : 0 < groups log := by
    have hlen := length_pos_of_ne_nil hlog
    rw [groups, arenaCIGSize]
    omega
  rw [Arena.arenaToG]
  simp only [hsome]
  rw [if_neg (by rw [hncig]; omega)]
  rfl

variable {start : ℕ}

/-- **The loop of `asumload`** finds the clumps where they are: `start` is where its count of
bytes is 0. -/
theorem DirHolds.sumEntries (h : DirHolds ar dc log)
    (haddr : ∀ (i : ℕ) (e : LogEntry), log[i]? = some e → e.addr = startOf log i)
    (readOk : ℕ → Bool) (k : ℕ) (hi : addr + start = startOf log i) :
    ∃ m ≤ k, (ar.sumEntries readOk dc k i addr).map (fun ie => (ie.score, ie.addr + start)) =
        (((log.drop i).take m).filter LogEntry.sound).map LogEntry.place ∧
      (DirReadable ar readOk dc → m = k) := by
  induction k generalizing i addr with
  | zero => exact ⟨0, le_rfl, rfl, fun _ => rfl⟩
  | succ k ih =>
    rw [Arena.sumEntries]
    cases he : log[i]? with
    | none =>
      have hlen := List.getElem?_eq_none_iff.1 he
      rw [readClumpInfo_none (by rw [h.clumps_eq]; exact hlen)]
      refine ⟨k + 1, le_rfl, ?_, fun _ => rfl⟩
      rw [drop_eq_nil_of_le hlen]
      rfl
    | some e =>
      rw [h.readClumpInfo he]
      obtain ⟨hlt, hget⟩ := List.getElem?_eq_some_iff.1 he
      by_cases hread : (dc.getDBlock (ar.cibBlock i) .oread readOk).isSome = true
      · have hnext : addr + e.info.bytes + start = startOf log (i + 1) := by
          have hsize : e.info.bytes = e.size := rfl
          rw [startOf_succ he, ← hi, hsize]
          omega
        obtain ⟨m, hm, heq, hall⟩ := ih hnext
        refine ⟨m + 1, Nat.succ_le_succ hm, ?_, fun hr => congrArg Nat.succ (hall hr)⟩
        rw [if_pos hread, drop_eq_getElem_cons hlt, take_succ_cons, filter_cons, hget]
        have hplace : (e.info.score, addr + start) = e.place := by
          rw [hi, ← haddr i e he]
          rfl
        by_cases hsound : e.info.type.toNat ≠ vtCorruptType
        · have hsound' : e.sound = true := decide_eq_true hsound
          simp only [if_pos hsound, if_pos hsound', map_cons]
          rw [← hplace, heq]
          rfl
        · have hsound' : ¬e.sound = true := fun hs => hsound (of_decide_eq_true hs)
          simp only [if_neg hsound, if_neg hsound']
          exact heq
      · refine ⟨0, Nat.zero_le _, ?_,
          fun hr => absurd (hr i (by rw [h.clumps_eq]; exact hlt)) hread⟩
        rw [if_neg hread]
        rfl

theorem groups_mono (h : log <+: log') : groups log ≤ groups log' := by
  have hlen := h.length_le
  rw [groups, groups, arenaCIGSize]
  omega

/-- **What `scacheload` puts into the table** of the index for group `g`, which starts at `gstart`
in the arena; `start` is where the arena starts in the index. -/
theorem CigInv.scacheLoad (h : CigInv s) (readOk : ℕ → Bool) {limit : ℕ} (hg : g < groups s.log)
    (hstart : gstart = groupStart s.log g) :
    ∃ n ≤ arenaCIGSize,
      (scacheLoad s.arena readOk s.dcache s.cigs ⟨gstart + start, limit, g⟩).2.map
          (fun ie => (ie.score, ie.addr)) =
        (((groupOf s.log g).take n).filter LogEntry.sound).map
          (fun e => (e.clump.info.score, start + e.addr)) ∧
      (0 ≤ s.cigs.ncig → DirReadable s.arena readOk s.dcache → n = arenaCIGSize) := by
  have ht := (h.needCig readOk).tabled
  have hlt := group_lt hg
  rw [Venti.scacheLoad, Arena.asumLoad, if_neg (lt_irrefl _)]
  simp only
  split
  next hno =>
    refine ⟨0, Nat.zero_le _, rfl, fun hncig hr => ?_⟩
    exfalso
    obtain ⟨cig, hsome⟩ := needCig_isSome h.countable hr hncig
    have hcount := (ht cig hsome).1
    simp only at hcount
    rw [hsome, hcount] at hno
    rcases hno with hno | hno | hno
    · cases hno
    · omega
    · omega
  next =>
    have hbase : ¬g * arenaCIGSize > s.arena.memstats.clumps := by
      rw [h.log.clumps_eq]
      omega
    rw [if_neg hbase, Nat.add_sub_cancel_left]
    have hzero : 0 + gstart = startOf s.log (g * arenaCIGSize) := by
      rw [Nat.zero_add, hstart, groupStart]
    obtain ⟨n, hn, heq, hall⟩ := h.log.dir.sumEntries h.log.addr_eq readOk arenaCIGSize hzero
    refine ⟨n, hn, ?_, fun _ => hall⟩
    rw [groupOf, take_take, Nat.min_eq_left hn]
    have hmove := congrArg (List.map fun x : Score × ℕ => (x.1, start + x.2)) heq
    rw [map_map, map_map] at hmove
    rw [Option.getD_some, map_map]
    refine Eq.trans (map_congr_left fun ie _ => ?_) hmove
    exact Prod.ext rfl (by simp only [Function.comp_apply]; omega)

/-- **Clump groups agree with the clumps**: in every run whose writes meet the side condition, from
an arena whose groups are not loaded yet, the table is that of the log whenever there is one;
`arenatog` finds the one group an address belongs to; and what is loaded for a group, at any time
after it was looked up, are the clumps of the group where `writeaclump` put them. A block that
cannot be read cuts the entries off; before the table is there it may also keep it from being
made, for good. -/
theorem cig_tabled {s t u : CigState} {ops ops' : List CigOp} (h : LogHolds s.toArenaState)
    (hdir : s.arena.dirBytes s.arena.memstats.clumps < 2 ^ 32) (hcigs : s.cigs = .unloaded)
    (hrun : Run (Guarded CigOk CigStep) s ops t) (hrun' : Run (Guarded CigOk CigStep) t ops' u) :
    LogHolds t.toArenaState ∧ Tabled t.log t.cigs ∧
    (∀ readOk addr, addr < t.arena.memstats.used →
      (∀ c gstart glimit g,
        t.arena.arenaToG readOk t.dcache t.cigs addr = (c, some (gstart, glimit, g)) →
          InGroup t.log addr gstart glimit g) ∧
      (0 ≤ t.cigs.ncig → DirReadable t.arena readOk t.dcache →
        (t.arena.arenaToG readOk t.dcache t.cigs addr).2.isSome = true)) ∧
    ∀ readOk readOk' start addr c m, start ≤ addr → addr < start + t.arena.memstats.used →
      scacheSetup t.arena readOk t.dcache t.cigs start addr = (c, some m) →
        ∃ n ≤ arenaCIGSize,
          (scacheLoad u.arena readOk' u.dcache u.cigs m).2.map (fun ie => (ie.score, ie.addr)) =
            (((groupOf u.log m.g).take n).filter LogEntry.sound).map
              (fun e => (e.clump.info.score, start + e.addr)) ∧
          (0 ≤ u.cigs.ncig → DirReadable u.arena readOk' u.dcache → n = arenaCIGSize) := by
  have hs : CigInv s := by
    refine ⟨h, hdir, ?_⟩
    rw [hcigs]
    intro cig hcig
    cases hcig
  obtain ⟨ht, -⟩ := hs.run hrun
  obtain ⟨hu, hpre⟩ := ht.run hrun'
  have hfound : ∀ readOk addr, addr < t.arena.memstats.used → ∀ c gstart glimit g,
      t.arena.arenaToG readOk t.dcache t.cigs addr = (c, some (gstart, glimit, g)) →
        InGroup t.log addr gstart glimit g := fun readOk addr haddr c gstart glimit g hcall =>
    inGroup_arenaToG ht.log.used_eq (ht.needCig readOk).tabled haddr hcall
  refine ⟨ht.log, ht.tabled,
    fun readOk addr haddr => ⟨hfound readOk addr haddr, fun hncig hr => ?_⟩,
    fun readOk readOk' start addr c m hle hlt hsetup => ?_⟩
  · obtain ⟨cig, hsome⟩ := needCig_isSome ht.countable hr hncig
    refine arenaToG_isSome (ht.needCig readOk).tabled ?_ hsome
    intro hnil
    have hused : t.arena.memstats.used = 0 := by
      rw [ht.log.used_eq, hnil]
      rfl
    omega
  · rw [scacheSetup] at hsetup
    obtain ⟨⟨gstart, glimit, g⟩, hr, hm⟩ := Option.map_eq_some_iff.1 (congrArg Prod.snd hsetup)
    have hin := hfound readOk (addr - start) (by omega) _ gstart glimit g (Prod.ext rfl hr)
    have hback : addr - (addr - start) = start := by omega
    rw [hback] at hm
    obtain rfl := hm
    refine hu.scacheLoad readOk' (hin.lt.trans_le (groups_mono hpre)) ?_
    have hgroup := groupStart_prefix hpre hin.lt
    exact hgroup ▸ hin.start_eq

/-! ### Two clumps -/

/-- **A lost entry**: the second entry of group 0 is missing, so that its clump is not yielded. -/
theorem cig_entry_lost : ∃ t, Run CigStep ⟨freshState wideArena, .unloaded⟩
    ((writeTwice fun _ => false).map .arena) t ∧
    (scacheLoad t.arena (fun _ => true) t.dcache t.cigs
        ⟨groupStart t.log 0, groupLimit t.log 0, 0⟩).2.map (fun ie => (ie.score, ie.addr)) ≠
      ((groupOf t.log 0).filter LogEntry.sound).map LogEntry.place := by
  refine ⟨_, .cons (.write rfl (by decide) rfl) (.cons (.flush _) (.cons (.bump _)
    (.cons (.write rfl (by decide) rfl) (.nil _)))), ?_⟩
  decide

/-- Two clumps, in the first group; the block of the directory is read again in between. -/
theorem cig_tabled_word : ∃ t : CigState, Run (Guarded CigOk CigStep)
      ⟨freshState wideArena, .unloaded⟩ ((writeTwice fun _ => true).map .arena) t ∧
    t.log.length = 2 ∧ Tabled t.log t.cigs := by
  have hrun : ∃ t : CigState, Run (Guarded CigOk CigStep) ⟨freshState wideArena, .unloaded⟩
      ((writeTwice fun _ => true).map .arena) t ∧ t.log.length = 2 :=
    ⟨_, .cons ⟨⟨rfl, by decide⟩, .write rfl (by decide) rfl⟩ (.cons ⟨trivial, .flush _⟩
      (.cons ⟨trivial, .bump _⟩ (.cons ⟨⟨rfl, by decide⟩, .write rfl (by decide) rfl⟩
        (.nil _)))), rfl⟩
  obtain ⟨t, hrun, hlen⟩ := hrun
  have hall := cig_tabled (logHolds_fresh wideArena) (by decide) rfl hrun (.nil t)
  exact ⟨t, hrun, hlen, hall.2.1⟩

end Venti

end Plan9
