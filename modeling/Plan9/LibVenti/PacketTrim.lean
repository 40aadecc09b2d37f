import Plan9.LibVenti.PacketGrow

/-!
# Reading and trimming packets

`packetpeek`, `packetcopy`, `packettrim` and `packetconsume` find an offset in a chain by
skipping fragments. What they read or keep is the slice of the byte string
(`Plan9.LibVenti.packetpeek_spec`, `Plan9.LibVenti.packettrim_spec`).
-/

namespace Plan9

namespace LibVenti

open Lib List Function

/-! ### Finding an offset -/

variable {s : Heap} {l : List FragId} {a : Option FragId} {k : ℕ} {offset : ℤ}

/-- The loops that skip fragments stop at the fragment with the offset in it. -/
theorem skipFrags_spec (hchain : Linked s.next a l none) (h0 : 0 ≤ offset)
    (hlt : offset < s.sizeOf l) (hk : l.length ≤ k) :
    Returns (skipFrags k a offset) s fun r t => t = s ∧ ∃ l₁ f l₂, l = l₁ ++ f :: l₂ ∧
      r = (f, offset - s.sizeOf l₁) ∧ s.sizeOf l₁ ≤ offset ∧
        offset < s.sizeOf l₁ + s.fragSize f := by
  induction l generalizing a k offset with
  | nil =>
    rw [sizeOf_nil] at hlt
    omega
  | cons f l ih =>
    obtain ⟨rfl, hchain⟩ := hchain
    rw [sizeOf_cons] at hlt
    cases k with
    | zero => exact absurd hk (by simp)
    | succ k =>
      rw [skipFrags, returns_deref_bind, returns_get_bind]
      by_cases hge : offset ≥ s.fragSize f
      · rw [if_pos hge]
        refine (ih hchain (by omega) (by omega) (Nat.le_of_succ_le_succ hk)).mono ?_
        rintro r t ⟨rfl, l₁, g, l₂, rfl, rfl, hle, hlt'⟩
        refine ⟨rfl, f :: l₁, g, l₂, rfl, ?_, ?_, ?_⟩
        · rw [sizeOf_cons, Prod.mk.injEq]
          exact ⟨rfl, by omega⟩
        · rw [sizeOf_cons]
          omega
        · rw [sizeOf_cons]
          omega
      · rw [if_neg hge, returns_pure]
        exact ⟨rfl, [], f, l, rfl, by simp, by simpa using h0, by simpa using hge⟩

/-- An offset in a chain is in one of its fragments. -/
theorem exists_split (h0 : 0 ≤ offset) (hlt : offset < s.sizeOf l) :
    ∃ l₁ f l₂, l = l₁ ++ f :: l₂ ∧ s.sizeOf l₁ ≤ offset ∧
      offset < s.sizeOf l₁ + s.fragSize f := by
  induction l generalizing offset with
  | nil =>
    rw [sizeOf_nil] at hlt
    omega
  | cons f l ih =>
    rw [sizeOf_cons] at hlt
    by_cases hge : offset ≥ s.fragSize f
    · obtain ⟨l₁, g, l₂, rfl, hle, hlt'⟩ := @ih (offset - s.fragSize f) (by omega) (by omega)
      refine ⟨f :: l₁, g, l₂, rfl, ?_⟩
      rw [sizeOf_cons]
      omega
    · exact ⟨[], f, l, rfl, by simpa using h0, by simpa using hge⟩

variable {n : ℤ}

theorem skipMiddle_spec (hchain : Linked s.next a l none) (h0 : 0 < n) (hle : n ≤ s.sizeOf l)
    (hk : l.length ≤ k) :
    Returns (skipMiddle k a n) s fun r t => t = s ∧ ∃ l₁ f l₂, l = l₁ ++ f :: l₂ ∧
      r = (f, n - s.sizeOf l₁) ∧ s.sizeOf l₁ < n ∧ n ≤ s.sizeOf l₁ + s.fragSize f := by
  induction l generalizing a k n with
  | nil =>
    rw [sizeOf_nil] at hle
    omega
  | cons f l ih =>
    obtain ⟨rfl, hchain⟩ := hchain
    rw [sizeOf_cons] at hle
    cases k with
    | zero => exact absurd hk (by simp)
    | succ k =>
      rw [skipMiddle, returns_deref_bind, returns_get_bind]
      by_cases hgt : n > s.fragSize f
      · rw [if_pos ⟨h0, hgt⟩]
        refine (ih hchain (by omega) (by omega) (Nat.le_of_succ_le_succ hk)).mono ?_
        rintro r t ⟨rfl, l₁, g, l₂, rfl, rfl, hlt', hle'⟩
        refine ⟨rfl, f :: l₁, g, l₂, rfl, ?_, ?_, ?_⟩
        · rw [sizeOf_cons, Prod.mk.injEq]
          exact ⟨rfl, by omega⟩
        · rw [sizeOf_cons]
          omega
        · rw [sizeOf_cons]
          omega
      · rw [if_neg fun hboth => hgt hboth.2, returns_pure]
        exact ⟨rfl, [], f, l, rfl, by simp, by simpa using h0, by simpa using hgt⟩

variable {held : Finset FragId}

theorem freeBefore_spec (h : HeapOk s held) (hchain : Linked s.next a l none) (hnodup : l.Nodup)
    (hl : ∀ g ∈ l, g ∈ held) (h0 : 0 ≤ offset) (hlt : offset < s.sizeOf l) (hk : l.length ≤ k) :
    Returns (freeBefore k a offset) s fun r t => ∃ l₁ f l₂, l = l₁ ++ f :: l₂ ∧
      r = (f, offset - s.sizeOf l₁) ∧ s.sizeOf l₁ ≤ offset ∧
        offset < s.sizeOf l₁ + s.fragSize f ∧ HeapOk t (held \ l₁.toFinset) ∧
        Frame s t (held \ l₁.toFinset) := by
  induction l generalizing s held a k offset with
  | nil =>
    rw [sizeOf_nil] at hlt
    omega
  | cons f l ih =>
    obtain ⟨rfl, hchain⟩ := hchain
    rw [sizeOf_cons] at hlt
    rw [nodup_cons] at hnodup
    cases k with
    | zero => exact absurd hk (by simp)
    | succ k =>
      rw [freeBefore, returns_deref_bind, returns_get_bind]
      by_cases hge : offset ≥ s.fragSize f
      · rw [if_pos hge]
        refine (fragfree_spec h (hl f mem_cons_self)).bind ?_
        rintro ⟨⟩ u ⟨hok, hframe⟩
        have hl' : ∀ g ∈ l, g ∈ held.erase f := fun g hg => Finset.mem_erase.2
          ⟨ne_of_mem_of_not_mem hg hnodup.1, hl g (mem_cons_of_mem f hg)⟩
        have hchain' : Linked u.next (s.next f) l none :=
          hchain.congr fun g hg => by rw [Heap.next, hframe.frag g (hl' g hg), Heap.next]
        have hsizes : ∀ l' ⊆ l, u.sizeOf l' = s.sizeOf l' := fun l' hsub =>
          sizeOf_congr fun g hg => hframe.frag g (hl' g (hsub hg))
        refine (ih hok hchain' hnodup.2 hl' (by omega) (by rw [hsizes l fun _ => id]; omega)
          (Nat.le_of_succ_le_succ hk)).mono ?_
        rintro r t ⟨l₁, g, l₂, rfl, rfl, hle, hlt', hok', hframe'⟩
        have hsize₁ := hsizes l₁ (subset_append_left _ _)
        have hsizeg : u.fragSize g = s.fragSize g := by
          rw [Heap.fragSize, Heap.fragSize, hframe.frag g (hl' g (by simp))]
        have hset : held.erase f \ l₁.toFinset = held \ (f :: l₁).toFinset := by
          rw [toFinset_cons, Finset.sdiff_insert, Finset.erase_sdiff_comm]
        rw [hset] at hok' hframe'
        rw [hsize₁] at hle hlt' ⊢
        rw [hsizeg] at hlt'
        refine ⟨f :: l₁, g, l₂, rfl, ?_, ?_, ?_, hok', hframe.trans hframe' ?_⟩
        · rw [sizeOf_cons, Prod.mk.injEq]
          exact ⟨rfl, by omega⟩
        · rw [sizeOf_cons]
          omega
        · rw [sizeOf_cons]
          omega
        · rw [← hset]
          exact Finset.sdiff_subset
      · rw [if_neg hge, returns_pure]
        refine ⟨[], f, l, rfl, by simp, by simpa using h0, by simpa using hge, ?_, ?_⟩
        · simpa using h
        · exact Frame.refl s _

variable {l₁ l₂ : List FragId} {f : FragId}

/-- The bytes from an offset on begin in the fragment where the offset is. -/
theorem drop_bytesOf {n : ℕ} (h : HeapOk s held) (hl : ∀ g ∈ l₁ ++ f :: l₂, g ∈ held)
    (hle : s.sizeOf l₁ ≤ n) (hlt : n < s.sizeOf l₁ + s.fragSize f) :
    (s.bytesOf (l₁ ++ f :: l₂)).drop n =
      (s.fragBytes f).drop (n - s.sizeOf l₁) ++ s.bytesOf l₂ := by
  have hlen₁ := h.length_bytesOf fun g hg => hl g (mem_append_left _ hg)
  have hlenf := h.length_fragBytes (hl f (by simp))
  rw [bytesOf_append, bytesOf_cons, drop_append, drop_eq_nil_of_le (by omega),
    nil_append, hlen₁, drop_append_of_le_length (by omega)]

/-- Reading from the middle of a piece of memory. -/
theorem Mem.drop_read (M : Mem) (rp n k : ℕ) : (M.read rp n).drop k = M.read (rp + k) (n - k) := by
  rcases Nat.le_total k n with hle | hge
  · rw [← Nat.add_sub_cancel' hle, Mem.read_add, drop_append_of_le_length (by simp [Mem.read]),
      drop_eq_nil_of_le (by simp [Mem.read]), nil_append, Nat.add_sub_cancel_left]
  · rw [drop_eq_nil_of_le (by simpa [Mem.read] using hge), Nat.sub_eq_zero_of_le hge]
    rfl

theorem Mem.take_read (M : Mem) {rp n : ℕ} (h : k ≤ n) : (M.read rp n).take k = M.read rp k := by
  rw [← Nat.add_sub_cancel' h, Mem.read_add, take_append_of_le_length (by simp [Mem.read]),
    take_of_length_le (by simp [Mem.read])]

/-! ### `packetpeek` and `packetcopy` -/

/-- The chain behind an offset: it begins with the fragment that the offset is in, and the
offset becomes one into that fragment. -/
def Heap.seek (s : Heap) : List FragId → ℤ → List FragId × ℤ
  | [], offset => ([], offset)
  | f :: l, offset =>
    if offset ≥ s.fragSize f then Heap.seek s l (offset - s.fragSize f) else (f :: l, offset)

theorem seek_append (hle : s.sizeOf l₁ ≤ offset) (hlt : offset < s.sizeOf l₁ + s.fragSize f) :
    s.seek (l₁ ++ f :: l₂) offset = (f :: l₂, offset - s.sizeOf l₁) := by
  induction l₁ generalizing offset with
  | nil =>
    rw [sizeOf_nil] at hlt ⊢
    rw [nil_append, Heap.seek, if_neg (by omega), Int.natCast_zero, sub_zero]
  | cons g l₁ ih =>
    rw [sizeOf_cons] at hle hlt ⊢
    rw [cons_append, Heap.seek, if_pos (by omega), ih (by omega) (by omega), Prod.mk.injEq]
    exact ⟨rfl, by omega⟩

/-- The runs of a chain that hold `n` bytes behind an offset into its first fragment. -/
def Heap.runs (s : Heap) : List FragId → ℤ → ℤ → List IOchunk
  | [], _, _ => []
  | f :: l, offset, n =>
    if n > 0 then
      s.chunk f offset (min (s.fragSize f - offset) n) ::
        Heap.runs s l 0 (n - min (s.fragSize f - offset) n)
    else []

theorem runs_of_le (hn : n ≤ 0) : s.runs l offset n = [] := by
  cases l with
  | nil => rfl
  | cons f l => rw [Heap.runs, if_neg (by omega)]

/-- What `packetpeek` returns for a packet with the chain `l`. -/
def Heap.peek (s : Heap) (l : List FragId) (offset n : ℤ) : Except String (List IOchunk) :=
  if n = 0 then .ok []
  else if offset < 0 ∨ s.sizeOf l ≤ offset then .error ePacketOffset
  else if n < 0 ∨ s.sizeOf l < offset + n then .error ePacketSize
  else .ok (s.runs (s.seek l offset).1 (s.seek l offset).2 n)

theorem peekFrags_spec (hchain : Linked s.next a l none) (h0 : 0 ≤ offset)
    (hle : offset + n ≤ s.sizeOf l) (hk : l.length < k) :
    Returns (peekFrags k a offset n) s fun io t => t = s ∧ io = s.runs l offset n := by
  induction l generalizing a k offset n with
  | nil =>
    rw [sizeOf_nil] at hle
    cases k with
    | zero => exact absurd hk (by simp)
    | succ k =>
      rw [peekFrags, if_neg (by omega), returns_pure]
      exact ⟨rfl, rfl⟩
  | cons f l ih =>
    obtain ⟨rfl, hchain⟩ := hchain
    rw [sizeOf_cons] at hle
    cases k with
    | zero => exact absurd hk (by simp)
    | succ k =>
      rw [peekFrags]
      by_cases hpos : n > 0
      · rw [if_pos hpos, returns_deref_bind, returns_get_bind]
        refine (ih hchain le_rfl (by omega) (Nat.lt_of_succ_lt_succ hk)).bind ?_
        rintro io t ⟨rfl, rfl⟩
        rw [returns_pure, Heap.runs, if_pos hpos]
        exact ⟨rfl, rfl⟩
      · rw [if_neg hpos, returns_pure, runs_of_le (not_lt.1 hpos)]
        exact ⟨rfl, rfl⟩

variable {p : ℕ} {b : ByteString}

/-- **`packetpeek`** finds the runs with the bytes asked for, or the error, and changes
nothing. -/
theorem packetpeek_run (h : IsPacket s p l)
    (hint : n ≠ 0 → 0 ≤ offset → offset < s.sizeOf l → 0 ≤ n → offset + n < 2 ^ 31) :
    Returns (packetpeek p offset n) s fun r t => t = s ∧ r = s.peek l offset n := by
  have hsize : 0 ≤ (s.packet p).size := by
    rw [h.size]
    exact Int.natCast_nonneg _
  rw [packetpeek]
  refine returns_notFree_bind hsize ?_
  rw [Heap.peek]
  by_cases hn : n = 0
  · rw [if_pos hn, if_pos hn, returns_pure]
    exact ⟨rfl, rfl⟩
  rw [if_neg hn, if_neg hn, returns_get_bind, h.size]
  by_cases h₁ : offset < 0 ∨ s.sizeOf l ≤ offset
  · rw [if_pos h₁, if_pos h₁, returns_pure]
    exact ⟨rfl, rfl⟩
  rw [if_neg h₁, if_neg h₁]
  have hcond : (n < 0 ∨ wrapInt (offset + n) > s.sizeOf l) ↔
      (n < 0 ∨ s.sizeOf l < offset + n) := by
    rcases lt_or_ge n 0 with hneg | hnn
    · exact ⟨fun _ => .inl hneg, fun _ => .inl hneg⟩
    · rw [wrapInt_of_lt (by omega) (hint hn (by omega) (by omega) hnn)]
  by_cases h₂ : n < 0 ∨ s.sizeOf l < offset + n
  · rw [if_pos (hcond.2 h₂), if_pos h₂, returns_pure]
    exact ⟨rfl, rfl⟩
  rw [if_neg (hcond.not.2 h₂), if_neg h₂]
  refine (skipFrags_spec h.linked (by omega) (by omega) h.length_lt.le).bind ?_
  rintro ⟨f, o⟩ t ⟨rfl, l₁, f', l₂, rfl, heq, hle, hlt⟩
  obtain ⟨rfl, rfl⟩ := Prod.mk.inj heq
  have hlength := h.length_lt
  rw [length_append] at hlength
  rw [sizeOf_append, sizeOf_cons] at h₂ h₁ hint
  rw [seek_append hle hlt]
  have hwrap : wrapInt (offset - t.sizeOf l₁ + n) = offset - t.sizeOf l₁ + n :=
    wrapInt_of_lt (by omega) (by have := hint hn (by omega) (by omega) (by omega); omega)
  simp only [hwrap]
  by_cases hone : offset - t.sizeOf l₁ + n ≤ t.fragSize f
  · rw [if_pos hone]
    refine returns_notFree_bind hsize ?_
    have hmin : min (t.fragSize f - (offset - t.sizeOf l₁)) n = n := by omega
    rw [returns_pure, Heap.runs, if_pos (by omega), hmin, runs_of_le (by omega)]
    exact ⟨rfl, rfl⟩
  · rw [if_neg hone]
    refine (peekFrags_spec (h.linked.suffix rfl) (by omega) ?_ (by omega)).bind ?_
    · rw [sizeOf_cons]
      omega
    · rintro io u ⟨rfl, rfl⟩
      refine returns_notFree_bind hsize ?_
      rw [returns_pure]
      exact ⟨rfl, rfl⟩

/-- The bytes of a fragment from an offset on, at most `n` of them. -/
theorem take_drop_fragBytes {m offset n : ℕ} (hfm : (s.frag f).mem = some m)
    (hle : offset + n ≤ s.fragSize f) :
    ((s.fragBytes f).drop offset).take n = (s.mem m).read ((s.frag f).rp + offset) n := by
  rw [Heap.fragSize] at hle
  rw [fragBytes_eq hfm, Mem.drop_read, Mem.take_read _ (by omega)]

/-- **The bytes in the runs** are those from the offset on. -/
theorem readChunks_runs {offset n : ℕ} (h : HeapOk s held) (hl : ∀ g ∈ l, g ∈ held)
    (hoff : ∀ f ∈ l.head?, offset ≤ s.fragSize f) :
    s.readChunks (s.runs l offset n) = ((s.bytesOf l).drop offset).take n := by
  induction l generalizing offset n with
  | nil => simp [Heap.runs, Heap.readChunks]
  | cons f l ih =>
    obtain ⟨m, -, hfm, -⟩ := h.inMem f (hl f mem_cons_self)
    have hle : offset ≤ s.fragSize f := hoff f rfl
    have hlen := h.length_fragBytes (hl f mem_cons_self)
    by_cases hn : n = 0
    · subst hn
      rw [runs_of_le (by omega), take_zero]
      rfl
    · have hmin : min ((s.fragSize f : ℤ) - offset) n =
          ((min (s.fragSize f - offset) n : ℕ) : ℤ) := by omega
      have hrest : (n : ℤ) - ((min (s.fragSize f - offset) n : ℕ) : ℤ) =
          ((n - min (s.fragSize f - offset) n : ℕ) : ℤ) := by omega
      have htail := @ih 0 (n - min (s.fragSize f - offset) n)
        (fun g hg => hl g (mem_cons_of_mem f hg)) fun g _ => Nat.zero_le _
      have hcast : ((s.frag f).rp + (offset : ℤ)).toNat = (s.frag f).rp + offset := by omega
      have hread : s.readChunks (s.chunk f offset (min (s.fragSize f - offset) n : ℕ) ::
          s.runs l (0 : ℕ) (n - min (s.fragSize f - offset) n : ℕ)) =
          ((s.fragBytes f).drop offset).take (min (s.fragSize f - offset) n) ++
            s.readChunks (s.runs l (0 : ℕ) (n - min (s.fragSize f - offset) n : ℕ)) := by
        rw [take_drop_fragBytes hfm (by omega)]
        simp only [Heap.readChunks, flatMap_cons, Heap.chunk, Frag.base, hfm, hcast,
          Int.toNat_natCast]
        rfl
      rw [Heap.runs, if_pos (by omega), hmin, hrest]
      refine hread.trans ?_
      rw [htail, drop_zero, bytesOf_cons, drop_append_of_le_length (by omega), take_append,
        length_drop, hlen]
      congr 1
      · rcases Nat.le_total (s.fragSize f - offset) n with hle' | hge'
        · rw [Nat.min_eq_left hle', take_of_length_le (by rw [length_drop]; omega),
            take_of_length_le (by rw [length_drop]; omega)]
        · rw [Nat.min_eq_right hge']
      · congr 1
        omega

/-- What is read is the slice of the byte string. -/
theorem map_peek (h : HeapOk s held) (hl : ∀ g ∈ l, g ∈ held) :
    (s.peek l offset n).map s.readChunks = ByteString.peek (s.bytesOf l) offset n := by
  rw [Heap.peek, ByteString.peek, h.length_bytesOf hl]
  split_ifs with hn h₁ h₂
  · rfl
  · rfl
  · rfl
  obtain ⟨l₁, f, l₂, rfl, hle, hlt⟩ := exists_split (show 0 ≤ offset by omega)
    (show offset < s.sizeOf l by omega)
  have hlenf := h.length_fragBytes (hl f (by simp))
  obtain ⟨n, rfl⟩ := Int.eq_ofNat_of_zero_le (show 0 ≤ n by omega)
  obtain ⟨o, ho⟩ := Int.eq_ofNat_of_zero_le (show 0 ≤ offset - s.sizeOf l₁ by omega)
  have hruns : s.readChunks (s.runs (f :: l₂) o n) = ((s.bytesOf (f :: l₂)).drop o).take n := by
    refine readChunks_runs h (fun g hg => hl g (mem_append_right l₁ hg)) fun g hg => ?_
    obtain rfl : f = g := Option.some.inj hg
    omega
  have hoffset : offset.toNat - s.sizeOf l₁ = o := by omega
  rw [seek_append hle hlt, ho]
  change Except.ok (s.readChunks (s.runs (f :: l₂) o n)) = _
  rw [hruns, ByteString.slice, drop_bytesOf h hl (by omega) (by omega), hoffset, bytesOf_cons,
    drop_append_of_le_length (by omega), Int.toNat_natCast]

theorem bytesIn_spec {x : PacketM (Except String (List IOchunk))}
    {r : Except String (List IOchunk)} (h : Returns x s fun r' t => t = s ∧ r' = r) :
    Returns (bytesIn x) s fun r' t => t = s ∧ r' = r.map s.readChunks := by
  refine h.bind ?_
  rintro r' t ⟨rfl, rfl⟩
  rw [returns_get_bind, returns_pure]
  exact ⟨rfl, rfl⟩

/-- **`packetpeek`** returns the bytes asked for, or the error, and changes nothing. -/
theorem packetpeek_spec (h : s.Ok) (hp : s.abs p = some b)
    (hint : n ≠ 0 → 0 ≤ offset → offset < b.length → 0 ≤ n → offset + n < 2 ^ 31) :
    Returns (bytesIn (packetpeek p offset n)) s fun r t =>
      t = s ∧ r = ByteString.peek b offset n := by
  obtain ⟨own, held, h⟩ := h
  obtain ⟨hsize, rfl, -⟩ := h.of_abs hp
  have hmem := h.mem (p := p)
  rw [h.ok.length_bytesOf hmem] at hint
  rw [← map_peek h.ok hmem]
  exact bytesIn_spec (packetpeek_run (h.isPacket hsize) hint)

/-- **`packetcopy`** copies the bytes asked for, under the same conditions. -/
theorem packetcopy_spec (h : s.Ok) (hp : s.abs p = some b)
    (hint : n ≠ 0 → 0 ≤ offset → offset < b.length → 0 ≤ n → offset + n < 2 ^ 31) :
    Returns (bytesIn (packetcopy p offset n)) s fun r t =>
      t = s ∧ r = ByteString.peek b offset n := by
  obtain ⟨own, held, h⟩ := h
  obtain ⟨hsize, rfl, -⟩ := h.of_abs hp
  have hmem := h.mem (p := p)
  rw [h.ok.length_bytesOf hmem] at hint
  rw [← map_peek h.ok hmem]
  exact bytesIn_spec (returns_notFree_bind hsize (packetpeek_run (h.isPacket hsize) hint))

/-! ### `packettrim` and `packetconsume` -/

/-- The chain of a packet begins later: the fragments in front are free, and the first one
begins at an offset. -/
theorem Reworked.dropFirst {t : Heap} {o : ℕ} (hchain : IsChain s p (l₁ ++ f :: l₂))
    (hl : ∀ g ∈ l₁ ++ f :: l₂, g ∈ held) (h : HeapOk s held) (hok : HeapOk t (held \ l₁.toFinset))
    (hframe : Frame s t (held \ l₁.toFinset)) (ho : o < s.fragSize f) :
    Reworked s ((t.setFrag f { t.frag f with rp := (t.frag f).rp + o }).setPacket p
        { t.packet p with first := some f }) p held (l₁ ++ f :: l₂) (held \ l₁.toFinset)
        (f :: l₂) ∧
      ((t.setFrag f { t.frag f with rp := (t.frag f).rp + o }).setPacket p
        { t.packet p with first := some f }).bytesOf (f :: l₂) =
          (s.bytesOf (l₁ ++ f :: l₂)).drop (s.sizeOf l₁ + o) := by
  have hnodup := hchain.nodup
  rw [nodup_append] at hnodup
  have hin : ∀ g ∈ f :: l₂, g ∈ held \ l₁.toFinset := by
    intro g hg
    rw [Finset.mem_sdiff, mem_toFinset]
    exact ⟨hl g (mem_append_right _ hg), fun hg₁ => hnodup.2.2 g hg₁ g hg rfl⟩
  have hf := hin f mem_cons_self
  have hfl₂ : ∀ g ∈ l₂, g ≠ f := fun g hg heq =>
    (nodup_cons.1 hnodup.2.1).1 (heq ▸ hg)
  have htf : t.frag f = s.frag f := hframe.frag f hf
  obtain ⟨m, hm, hfm, hlt, hwp⟩ := hok.inMem f hf
  rw [Heap.fragSize, ← htf] at ho
  have hnext : ∀ g ∈ f :: l₂, ((t.setFrag f { t.frag f with
      rp := (t.frag f).rp + o }).setPacket p { t.packet p with first := some f }).next g =
        s.next g := by
    intro g hg
    rcases eq_or_ne g f with rfl | hgf
    · simp [Heap.next, htf]
    · simp only [Heap.next, Heap.setPacket_frag, Heap.setFrag_frag, update_of_ne hgf,
        hframe.frag g (hin g hg)]
  refine ⟨⟨?_, fun g => ?_, fun g hg => .inl (mem_append_right _ hg), ⟨?_, ?_, hnodup.2.1⟩, ?_⟩, ?_⟩
  · refine (hok.setRange hf (by rfl) (by rfl) ?_ fun m' hm' => ?_).setPacket p _
    · simp only
      omega
    · obtain rfl : m = m' := Option.some.inj (hfm.symm.trans hm')
      exact hwp
  · rw [Finset.mem_sdiff, mem_toFinset, mem_append]
    constructor
    · rintro ⟨hg, hg₁⟩
      by_cases hg₂ : g ∈ f :: l₂
      · exact .inl hg₂
      · exact .inr ⟨hg, fun hor => hor.elim hg₁ hg₂⟩
    · rintro (hg | ⟨hg, hnot⟩)
      · have hg' := hin g hg
        rw [Finset.mem_sdiff, mem_toFinset] at hg'
        exact hg'
      · exact ⟨hg, fun hg₁ => hnot (.inl hg₁)⟩
  · rw [Heap.setPacket_packet, update_self]
    exact (hchain.linked.suffix rfl).congr hnext
  · rw [Heap.setPacket_packet, update_self, hframe.packet, hchain.last,
      List.getLast?_append, List.getLast?_cons]
    rfl
  · refine ((hframe.but p).mono ?_).trans (((Frame.setFrag ?_).but p).trans
      (FrameBut.setPacket (by rfl) _) subset_rfl) subset_rfl
    · refine Finset.sdiff_subset_sdiff subset_rfl fun g hg => ?_
      rw [mem_toFinset] at hg ⊢
      exact mem_append_left _ hg
    · rw [Finset.mem_sdiff, mem_toFinset]
      exact fun hboth => hboth.2 (by simp)
  · have hshort : (t.setFrag f { t.frag f with rp := (t.frag f).rp + o }).fragBytes f =
        (s.fragBytes f).drop o := by
      rw [← hframe.bytes f hf, fragBytes_eq (m := m) (by simp [hfm]), fragBytes_eq hfm,
        Mem.drop_read]
      simp only [Heap.setFrag_frag, update_self, Heap.setFrag_mem]
      congr 1
      omega
    change (t.setFrag f { t.frag f with rp := (t.frag f).rp + o }).bytesOf (f :: l₂) = _
    rw [drop_bytesOf h hl (by omega) (by rw [Heap.fragSize, ← htf]; omega), bytesOf_cons, hshort,
      Nat.add_sub_cancel_left]
    congr 1
    refine bytesOf_congr fun g hg => ?_
    rw [fragBytes_setFrag_of_ne (hfl₂ g hg), hframe.bytes g (hin g (mem_cons_of_mem f hg))]

/-- **The chain of a packet ends earlier**: in the fragment `g`, after `n` bytes of it. -/
theorem cutAfter_spec {n : ℕ} {g : FragId} (h : HeapOk s held)
    (hchain : IsChain s p (l₁ ++ g :: l₂)) (hl : ∀ f ∈ l₁ ++ g :: l₂, f ∈ held) (hpos : 0 < n)
    (hle : n ≤ s.fragSize g) (hk : l₂.length ≤ k) :
    Returns (do
      modifyFrag g fun x => { x with wp := (x.rp + (n : ℤ)).toNat }
      modifyPacket p fun q => { q with last := some g }
      let t ← get
      let ff := t.next g
      modifyFrag g fun x => { x with next := none }
      freeChain k ff) s fun _ t =>
        Reworked s t p held (l₁ ++ g :: l₂) (held \ l₂.toFinset) (l₁ ++ [g]) ∧
          t.bytesOf (l₁ ++ [g]) = (s.bytesOf (l₁ ++ g :: l₂)).take (s.sizeOf l₁ + n) := by
  have hnodup := hchain.nodup
  rw [nodup_append, nodup_cons] at hnodup
  obtain ⟨hnodup₁, ⟨hgl₂, hnodup₂⟩, hcross⟩ := hnodup
  have hg : g ∈ held := hl g (by simp)
  have hgl₁ : ∀ f ∈ l₁, f ≠ g := fun f hf => hcross f hf g mem_cons_self
  have hl₂g : ∀ f ∈ l₂, f ≠ g := fun f hf heq => hgl₂ (heq ▸ hf)
  obtain ⟨m, hm, hgm, hlt, hwp⟩ := h.inMem g hg
  rw [Heap.fragSize] at hle
  have hcast : ((s.frag g).rp + (n : ℤ)).toNat = (s.frag g).rp + n := by omega
  obtain ⟨hlinked₁, hrest⟩ : Linked s.next (s.packet p).first l₁ (some g) ∧
      Linked s.next (s.next g) l₂ none := by
    obtain ⟨c, hl₁, rfl, hl₂⟩ := linked_append.1 hchain.linked
    exact ⟨hl₁, hl₂⟩
  rw [returns_modifyFrag_bind, hcast, returns_modifyPacket_bind, returns_get_bind]
  simp only
  rw [returns_modifyFrag_bind]
  -- the heap before the fragments behind `g` are freed
  let x : Frag := { s.frag g with wp := (s.frag g).rp + n, next := none }
  let u : Heap := (s.setFrag g x).setPacket p { s.packet p with last := some g }
  have hu : (((s.setFrag g { s.frag g with wp := (s.frag g).rp + n }).setPacket p
      { s.packet p with last := some g }).setFrag g
        { ((s.setFrag g { s.frag g with wp := (s.frag g).rp + n }).setPacket p
          { s.packet p with last := some g }).frag g with next := none }) = u := by
    simp only [u, x, Heap.setFrag, Heap.setPacket, update_idem, update_self]
  have hnext : ((s.setFrag g { s.frag g with wp := (s.frag g).rp + n }).setPacket p
      { s.packet p with last := some g }).next g = s.next g := by simp [Heap.next]
  change Returns (freeChain k (Heap.next ((s.setFrag g { s.frag g with
    wp := (s.frag g).rp + n }).setPacket p { s.packet p with last := some g }) g))
      (((s.setFrag g { s.frag g with wp := (s.frag g).rp + n }).setPacket p
        { s.packet p with last := some g }).setFrag g
          { ((s.setFrag g { s.frag g with wp := (s.frag g).rp + n }).setPacket p
            { s.packet p with last := some g }).frag g with next := none }) _
  rw [hu, hnext]
  have huok : HeapOk u held := by
    refine HeapOk.setPacket (h.setRange hg (by rfl) (by rfl) ?_ fun m' hm' => ?_) p _
    · simp only [x]
      omega
    · obtain rfl : m = m' := Option.some.inj (hgm.symm.trans hm')
      simp only [x]
      omega
  have hufrag : ∀ f ≠ g, u.frag f = s.frag f := by
    intro f hf
    simp only [u, Heap.setPacket_frag, Heap.setFrag_frag, update_of_ne hf]
  have hubytes : ∀ f ≠ g, u.fragBytes f = s.fragBytes f := fun f hf =>
    fragBytes_setFrag_of_ne (x := x) hf
  have hug : u.frag g = x := by simp [u]
  refine (freeChain_spec huok (hrest.congr fun f hf => ?_) hnodup₂
    (fun f hf => hl f (by simp [hf])) hk).mono ?_
  · rw [Heap.next, Heap.next, hufrag f (hl₂g f hf)]
  rintro ⟨⟩ t ⟨hok, hframe⟩
  have hin : ∀ f ∈ l₁ ++ [g], f ∈ held \ l₂.toFinset := by
    intro f hf
    rw [Finset.mem_sdiff, mem_toFinset]
    rcases mem_append.1 hf with hf | hf
    · exact ⟨hl f (mem_append_left _ hf), fun hf₂ => hcross f hf f (by simp [hf₂]) rfl⟩
    · rw [mem_singleton.1 hf]
      exact ⟨hg, hgl₂⟩
  refine ⟨⟨hok, fun f => ?_, fun f hf => .inl ?_, ⟨?_, ?_, ?_⟩, ?_⟩, ?_⟩
  · have hf := hin f
    rw [Finset.mem_sdiff, mem_toFinset] at hf ⊢
    rw [append_cons l₁ g l₂, mem_append (s := l₁ ++ [g])]
    tauto
  · rw [append_cons l₁ g l₂]
    exact mem_append_left l₂ hf
  · rw [hframe.packet, linked_concat]
    constructor
    · refine @Linked.congr _ s.next _ _ _ _ ?_ fun f hf => ?_
      · simp only [u, Heap.setPacket_packet, update_self]
        exact hlinked₁
      · rw [Heap.next, hframe.frag f (hin f (by simp [hf])), hufrag f (hgl₁ f hf), Heap.next]
    · rw [Heap.next, hframe.frag g (hin g (by simp)), hug]
  · rw [hframe.packet]
    simp [u]
  · rw [nodup_append]
    refine ⟨hnodup₁, nodup_singleton g, fun f hf f' hf' => ?_⟩
    rw [mem_singleton.1 hf']
    exact hgl₁ f hf
  · have hbut : FrameBut s u p (held \ (l₁ ++ g :: l₂).toFinset) := by
      refine ((Frame.setFrag (x := x) ?_).but p).trans (FrameBut.setPacket (by rfl) _) subset_rfl
      rw [Finset.mem_sdiff, mem_toFinset]
      exact fun hboth => hboth.2 (by simp)
    refine hbut.trans ((hframe.but p).mono ?_) subset_rfl
    refine Finset.sdiff_subset_sdiff subset_rfl fun f hf => ?_
    rw [mem_toFinset] at hf ⊢
    simp [hf]
  · have hshort : t.fragBytes g = (s.fragBytes g).take n := by
      rw [hframe.bytes g (hin g (by simp)), fragBytes_eq hgm, Mem.take_read _ (by omega),
        fragBytes_eq (s := u) (m := m) (by rw [hug]; exact hgm), hug]
      simp only [x, Nat.add_sub_cancel_left]
      rfl
    have hlen₁ := h.length_bytesOf fun f hf => hl f (mem_append_left _ hf)
    have hleng := h.length_fragBytes hg
    rw [Heap.fragSize] at hleng
    rw [bytesOf_append, bytesOf_cons, bytesOf_nil, append_nil, hshort, bytesOf_append,
      bytesOf_cons, take_append, hlen₁, Nat.add_sub_cancel_left,
      take_append_of_le_length (show n ≤ (s.fragBytes g).length by omega)]
    congr 1
    rw [take_of_length_le (by omega)]
    refine bytesOf_congr fun f hf => ?_
    rw [hframe.bytes f (hin f (by simp [hf])), hubytes f (hgl₁ f hf)]

/-- What `packettrim` is to do. -/
def TrimEffect (s t : Heap) (p : ℕ) (b : ByteString) (offset n : ℤ) (r : Except String Unit) :
    Prop :=
  match ByteString.trim b offset n with
  | .ok b' => r = .ok () ∧ t.abs = Function.update s.abs p (some b')
  | .error e => r = .error e ∧ t.abs = s.abs

/-- What `packettrim` does, and that it takes no fragment. -/
theorem packettrim_frags (h : s.Ok) (hp : s.abs p = some b)
    (hint : 0 ≤ offset → offset ≤ b.length → 0 ≤ n → offset + n < 2 ^ 31) :
    Returns (packettrim p offset n) s fun r t => t.Ok ∧ TrimEffect s t p b offset n r ∧
      ∀ f ∈ t.frags p, f ∈ s.frags p := by
  obtain ⟨own, held, h⟩ := h
  obtain ⟨hsize, hbytes, hb⟩ := h.of_abs hp
  have hchain := h.chain p hsize
  rw [packettrim]
  refine returns_notFree_bind hsize ?_
  simp only [returns_get_bind, TrimEffect]
  rw [ByteString.trim]
  have hcond₁ : (offset < 0 ∨ offset > (s.packet p).size) ↔
      (offset < 0 ∨ (b.length : ℤ) < offset) := by rw [hb]
  by_cases h₁ : offset < 0 ∨ (b.length : ℤ) < offset
  · rw [if_pos (hcond₁.2 h₁), if_pos h₁, returns_pure]
    exact ⟨⟨own, held, h⟩, ⟨rfl, rfl⟩, fun f hf => hf⟩
  rw [if_neg (hcond₁.not.2 h₁), if_neg h₁]
  have hcond₂ : (n < 0 ∨ wrapInt (offset + n) > (s.packet p).size) ↔
      (n < 0 ∨ (b.length : ℤ) < offset + n) := by
    rw [hb]
    rcases lt_or_ge n 0 with hneg | hnn
    · exact ⟨fun _ => .inl hneg, fun _ => .inl hneg⟩
    · rw [wrapInt_of_lt (by omega) (hint (by omega) (by omega) hnn)]
  by_cases h₂ : n < 0 ∨ (b.length : ℤ) < offset + n
  · rw [if_pos (hcond₂.2 h₂), if_pos h₂, returns_pure]
    exact ⟨⟨own, held, h⟩, ⟨rfl, rfl⟩, fun f hf => hf⟩
  rw [if_neg (hcond₂.not.2 h₂), if_neg h₂, returns_modifyPacket_bind]
  have hlen := h.ok.length_bytesOf (h.mem (p := p))
  rw [hbytes] at hlen
  have hlt := h.length_lt hsize
  have hok₁ := h.ok.setPacket p { s.packet p with size := n }
  have hchain₁ := hchain.setSize n
  have hfinish : ∀ {t : Heap} {held' : Finset FragId} {l' : List FragId},
      Reworked (s.setPacket p { s.packet p with size := n }) t p held (own p) held' l' →
      t.bytesOf l' = ByteString.slice b offset n → (∀ f ∈ l', f ∈ own p) →
      0 ≤ (t.packet p).size ∧ t.Ok ∧ t.abs = update s.abs p (some (ByteString.slice b offset n)) ∧
        ∀ f ∈ t.frags p, f ∈ s.frags p := by
    intro t held' l' hwork hbytes' hsub
    have hn : n = (ByteString.slice b offset n).length := by
      rw [ByteString.slice, length_take, length_drop]
      omega
    obtain ⟨hok, habs, hfrags⟩ := h.replace hsize hwork hbytes' hn
    refine ⟨?_, hok, habs, fun f hf => ?_⟩
    · rw [hwork.frame.size, Heap.setPacket_packet, update_self]
      simp only
      omega
    · rw [h.frags_eq hsize]
      exact hsub f (hfrags ▸ hf)
  have hbytes₁ : (s.setPacket p { s.packet p with size := n }).bytesOf (own p) = b := hbytes
  have hsizes₁ : ∀ l, (s.setPacket p { s.packet p with size := n }).sizeOf l = s.sizeOf l :=
    fun _ => rfl
  have hfirst₁ : ((s.setPacket p { s.packet p with size := n }).packet p).first =
    (s.packet p).first := by simp
  generalize s.setPacket p { s.packet p with size := n } = s₁ at *
  rw [← hfirst₁]
  by_cases hn : n = 0
  · rw [if_pos hn]
    refine (freeChain_spec hok₁ hchain₁.linked hchain₁.nodup h.mem hlt.le).bind ?_
    rintro ⟨⟩ t ⟨hok, hframe⟩
    rw [returns_modifyPacket_bind]
    have hwork : Reworked s₁ (t.setPacket p { t.packet p with first := none, last := none }) p held
        (own p) (held \ (own p).toFinset) [] := by
      refine ⟨hok.setPacket p _, fun f => ?_, fun f hf => absurd hf not_mem_nil,
        ⟨by simp, by simp, nodup_nil⟩,
        (hframe.but p).trans (FrameBut.setPacket (by rfl) _) subset_rfl⟩
      rw [Finset.mem_sdiff, mem_toFinset]
      simp
    obtain ⟨hlive, hok', habs, hfrags⟩ :=
      hfinish hwork (by rw [hn]; simp [ByteString.slice]) (by simp)
    refine returns_notFree_bind hlive ?_
    rw [returns_pure]
    exact ⟨hok', ⟨rfl, habs⟩, hfrags⟩
  · rw [if_neg hn]
    refine (freeBefore_spec hok₁ hchain₁.linked hchain₁.nodup h.mem (by omega)
      (by rw [hsizes₁]; omega) hlt.le).bind ?_
    rintro ⟨f, o⟩ t ⟨l₁, f', l₂, hsplit, heq, hle₁, hlt₁, hok, hframe⟩
    obtain ⟨rfl, ho⟩ := Prod.mk.inj heq
    obtain ⟨o', rfl⟩ := Int.eq_ofNat_of_zero_le (show 0 ≤ o by omega)
    have hmem := h.mem (p := p)
    rw [hsplit] at hchain₁ hmem hfinish hbytes₁ hlen hlt
    obtain ⟨hdrop, hdropped⟩ := Reworked.dropFirst hchain₁ hmem hok₁ hok hframe
      (show o' < s₁.fragSize f by omega)
    have hcast : ((t.frag f).rp + (o' : ℤ)).toNat = (t.frag f).rp + o' := by omega
    simp only
    rw [returns_modifyFrag_bind, hcast, returns_modifyPacket_bind]
    generalize hs₂ : (t.setFrag f { t.frag f with rp := (t.frag f).rp + o' }).setPacket p
      { t.packet p with first := some f } = s₂ at hdrop hdropped
    change Returns _ ((t.setFrag f { t.frag f with rp := (t.frag f).rp + o' }).setPacket p
      { t.packet p with first := some f }) _
    rw [hs₂]
    have hfirst₂ : (s₂.packet p).first = some f := by rw [← hs₂]; simp
    have hoffset : s₁.sizeOf l₁ + o' = offset.toNat := by omega
    rw [hbytes₁, hoffset] at hdropped
    have hlen₂ := hdrop.ok.length_bytesOf hdrop.mem
    rw [hdropped, length_drop] at hlen₂
    have hlinked₂ := hdrop.chain.linked
    rw [hfirst₂] at hlinked₂
    refine (skipMiddle_spec hlinked₂ (by omega) (by omega) ?_).bind ?_
    · rw [length_append] at hlt
      omega
    rintro ⟨g, n'⟩ u ⟨rfl, l₃, g', l₄, hsplit₂, heq₂, hlt₃, hle₃⟩
    obtain ⟨rfl, hn'⟩ := Prod.mk.inj heq₂
    obtain ⟨n'', rfl⟩ := Int.eq_ofNat_of_zero_le (show 0 ≤ n' by omega)
    have hmem₂ := hdrop.mem
    have hlt₂ : l₄.length ≤ s.count := by
      have hlength := congrArg List.length hsplit₂
      rw [length_append] at hlt hlength
      rw [@List.length_cons _ _ l₄] at hlength
      omega
    rw [hsplit₂] at hdrop hdropped hmem₂ hfinish
    have hcut := (cutAfter_spec hdrop.ok hdrop.chain hmem₂ (show 0 < n'' by omega)
      (show n'' ≤ u.fragSize g by omega) hlt₂).bind
        (k := fun _ => notFree p >>= fun _ => (pure (.ok ()) : PacketM (Except String Unit)))
        (Q := fun r t => t.Ok ∧ (r = .ok () ∧
          t.abs = update s.abs p (some (ByteString.slice b offset n))) ∧
            ∀ f ∈ t.frags p, f ∈ s.frags p) ?_
    · simp only [bind_assoc] at hcut
      exact hcut
    · rintro ⟨⟩ v ⟨hwork, hbytes'⟩
      have hslice : v.bytesOf (l₃ ++ [g]) = ByteString.slice b offset n := by
        rw [hbytes', hdropped, ByteString.slice]
        congr 1
        omega
      obtain ⟨hlive, hok', habs, hfrags⟩ := hfinish (hdrop.trans hwork) hslice fun f hf => by
        rw [mem_append, mem_singleton] at hf
        rw [mem_append, mem_append, mem_cons]
        tauto
      refine returns_notFree_bind hlive ?_
      rw [returns_pure]
      exact ⟨hok', ⟨rfl, habs⟩, hfrags⟩

/-- **`packettrim`** keeps the slice of a packet, or reports the error. -/
theorem packettrim_spec (h : s.Ok) (hp : s.abs p = some b)
    (hint : 0 ≤ offset → offset ≤ b.length → 0 ≤ n → offset + n < 2 ^ 31) :
    Returns (packettrim p offset n) s fun r t => t.Ok ∧ TrimEffect s t p b offset n r :=
  (packettrim_frags h hp hint).mono fun _ _ hr => ⟨hr.1, hr.2.1⟩

/-- The length that `packetconsume` keeps is computed in an `int`, which makes no
difference. -/
theorem trim_wrapInt (hb : b.length < 2 ^ 31) :
    ByteString.trim b n (wrapInt (b.length - n)) = ByteString.trim b n (b.length - n) := by
  rw [ByteString.trim, ByteString.trim]
  by_cases h : n < 0 ∨ (b.length : ℤ) < n
  · rw [if_pos h, if_pos h]
  · rw [if_neg h, if_neg h, wrapInt_of_lt (by omega) (by omega)]

/-- What `packetconsume` is to do. -/
def ByteString.consumeInto (b : ByteString) (buf : Bool) (n : ℤ) :
    Except String (ByteString × ByteString) :=
  if buf then consume b n else (trim b n (b.length - n)).map fun rest => ([], rest)

/-- **`packetconsume`** takes bytes off the front, and copies them if there is a buffer. -/
theorem packetconsume_spec {s : Heap} {p : ℕ} {b : ByteString} {buf : Bool} {n : ℤ} (h : s.Ok)
    (hp : s.abs p = some b) (hb : b.length < 2 ^ 31) (hn : n < 2 ^ 31) :
    Returns (packetconsume p buf n) s fun r t => t.Ok ∧ match ByteString.consumeInto b buf n with
      | .ok (x, rest) => r = .ok x ∧ t.abs = update s.abs p (some rest)
      | .error e => r = .error e ∧ t.abs = s.abs := by
  obtain ⟨hsize, -, hlen⟩ : 0 ≤ (s.packet p).size ∧ True ∧ (s.packet p).size = b.length := by
    obtain ⟨own, held, h⟩ := h
    obtain ⟨hsize, -, hlen⟩ := h.of_abs hp
    exact ⟨hsize, trivial, hlen⟩
  -- the part behind the copy
  have htrim : ∀ x : ByteString, Returns (do
      let s ← get
      let r ← packettrim p n (wrapInt ((s.packet p).size - n))
      pure (r.map fun _ => x)) s fun r t => t.Ok ∧ match ByteString.trim b n (b.length - n) with
        | .ok rest => r = .ok x ∧ t.abs = update s.abs p (some rest)
        | .error e => r = .error e ∧ t.abs = s.abs := by
    intro x
    rw [returns_get_bind, hlen]
    refine (packettrim_spec h hp ?_).bind ?_
    · intro h0 hle _
      rw [wrapInt_of_lt (by omega) (by omega)]
      omega
    · rintro r t ⟨hok, heffect⟩
      rw [returns_pure]
      refine ⟨hok, ?_⟩
      simp only [TrimEffect, trim_wrapInt hb] at heffect
      cases htr : ByteString.trim b n (b.length - n) with
      | error e =>
        rw [htr] at heffect
        exact ⟨by rw [heffect.1]; rfl, heffect.2⟩
      | ok rest =>
        rw [htr] at heffect
        exact ⟨by rw [heffect.1]; rfl, heffect.2⟩
  rw [packetconsume]
  refine returns_notFree_bind hsize ?_
  cases buf with
  | false =>
    refine (htrim []).mono ?_
    rintro r t ⟨hok, heffect⟩
    refine ⟨hok, ?_⟩
    simp only [ByteString.consumeInto, Bool.false_eq_true, if_false]
    cases htr : ByteString.trim b n (b.length - n) with
    | error e =>
      rw [htr] at heffect
      exact heffect
    | ok rest =>
      rw [htr] at heffect
      exact heffect
  | true =>
    simp only [if_true]
    refine (packetcopy_spec h hp fun _ _ _ _ => by omega).bind ?_
    rintro r t ⟨rfl, rfl⟩
    simp only [ByteString.consumeInto, if_true, ByteString.consume]
    cases hpk : ByteString.peek b 0 n with
    | error e =>
      simp only
      rw [returns_pure]
      exact ⟨h, rfl, rfl⟩
    | ok x =>
      refine (htrim x).mono ?_
      rintro r u ⟨hok, heffect⟩
      refine ⟨hok, ?_⟩
      cases htr : ByteString.trim b n (b.length - n) with
      | error e =>
        rw [htr] at heffect
        exact heffect
      | ok rest =>
        rw [htr] at heffect
        exact heffect

end LibVenti

end Plan9
