import Plan9.Libc.PoolOps

/-!
# Runs of the pool allocator

What `poolallocalignl` makes of a pool, and what comes of any sequence of operations whose steps
meet a condition on the state before them.

* `Plan9.Libc.Pool.run_represented` – nothing goes wrong, and the pool is well formed;
* `Plan9.Libc.Pool.run_coalesced` – no two adjacent blocks are free;
* `Plan9.Libc.Pool.run_accounted` – `curalloc` is the sum of the sizes of the allocated blocks.
-/

namespace Plan9

namespace Libc

open Lib List

variable {p : Params} {e : Env} {E : Prop} {n dsize align span : ℕ} {offset : ℤ}

namespace Pool

variable {P : Pool} {v : ℕ}

/-! ### `poolallocalignl` -/

/-- A condition on the allocations that `allocspan` makes. -/
structure OnSpan (p : Params) (e : Env) (P : Pool) (asize span : ℕ) (C : Pool → ℕ → Prop) :
    Prop where
  first : C P asize
  second : ∀ P₁ v P₂, P.poolallocl p e asize = .ok (P₁, some v) →
    crosses span v ((v + asize) % 2 ^ 64) → P₁.poolfreel p e v = .ok P₂ → C P₂ (2 * asize % 2 ^ 64)

/-- What `allocspan` needs so that nothing goes wrong. -/
structure SpanFits (p : Params) (e : Env) (P : Pool) (asize span : ℕ) : Prop where
  alloc : OnSpan p e P asize span (AllocFits p e)
  free : ∀ P₁ v, P.poolallocl p e asize = .ok (P₁, some v) →
    crosses span v ((v + asize) % 2 ^ 64) → FreeFits e P₁ v

/-- What `allocspan` makes of a pool. -/
structure Spanned (p : Params) (E : Prop) (e : Env) (P : Pool) (asize span : ℕ)
    (r : Pool × Option ℕ) : Prop where
  inv : r.1.Inv p E
  coalesced : OnSpan p e P asize span (AllocApart p e) → Coalesced P.arenalist →
    Coalesced r.1.arenalist
  drift : OnSpan p e P asize span (AllocEven p e) → r.1.drift = P.drift
  given : ∀ v ∈ r.2, ∃ n c, Given p r.1 n v c
  left : OnSpan p e P asize span (AllocApart p e) → Coalesced P.arenalist → ∀ v ∈ r.2, ∀ f,
    r.1.at? (v - 16) = some f → isFree f.before.head? = false
  kept : ¬E → p.move = false → ∀ c w, P.Live c w → ∃ c', r.1.Live c' w ∧ c.Same c' ∧
    ∀ v ∈ r.2, v ≠ c'.addr + 16

theorem Inv.allocspan (h : P.Inv p E) (hfits : ¬E → SpanFits p e P n span) :
    Outcome E (P.allocspan p e n span) (Spanned p E e P n span) := by
  rw [Pool.allocspan]
  refine (h.poolallocl (e := e) fun hE => (hfits hE).alloc.first).bind_eq ?_
  rintro ⟨P₁, v⟩ hP₁ h₁
  cases v with
  | none =>
    exact ⟨h₁.inv, fun hc => h₁.coalesced hc.first, fun hc => h₁.drift hc.first, nofun, nofun,
      fun _ hmove _ _ => h₁.keeps h hmove⟩
  | some v =>
    obtain ⟨c, hc⟩ := h₁.given v rfl
    refine Outcome.ite (fun hcross => ?_) fun _ => ?_
    · refine (h₁.inv.poolfreel (v := v) fun hE =>
        .inr ⟨⟨c, hc.1⟩, (hfits hE).free P₁ v hP₁ hcross⟩).bind_eq ?_
      rintro P₂ hP₂ h₂
      refine (h₂.inv.poolallocl (e := e) fun hE =>
        (hfits hE).alloc.second P₁ v P₂ hP₁ hcross hP₂).mono fun r hr => ?_
      refine ⟨hr.inv, fun hc hs => ?_, fun hc => ?_, fun w hw => ⟨_, hr.given w hw⟩,
        fun hc hs => ?_, fun hE hmove b w hb => ?_⟩
      · exact hr.coalesced (hc.second P₁ v P₂ hP₁ hcross hP₂)
          (h₂.coalesced (h₁.coalesced hc.first hs))
      · rw [hr.drift (hc.second P₁ v P₂ hP₁ hcross hP₂), h₂.drift, h₁.drift hc.first]
      · exact hr.left (hc.second P₁ v P₂ hP₁ hcross hP₂)
          (h₂.coalesced (h₁.coalesced hc.first hs))
      · obtain ⟨b₁, hb₁, hsame₁, hfresh⟩ := h₁.keeps h hmove hb
        have hstrict : P₁.Inv p False := by
          have := h₁.inv
          rwa [eq_false hE] at this
        have hne : w ≠ v := by
          rintro rfl
          have hbc := Live.unique hstrict hb₁ hc.1
          have h2 := hc.1.2.2
          have h3 := hc.2.1
          have h4 := hfresh w rfl
          rw [hbc] at h4
          omega
        obtain ⟨b₂, hb₂, hsame₂, hfresh₂⟩ := hr.keeps h₂.inv hmove (h₂.kept hE b₁ w hb₁ hne)
        exact ⟨b₂, hb₂, hsame₁.trans hsame₂, hfresh₂⟩
    · exact ⟨h₁.inv, fun hc => h₁.coalesced hc.first, fun hc => h₁.drift hc.first,
        fun w hw => ⟨_, h₁.given w hw⟩, fun hc => h₁.left hc.first,
        fun _ hmove _ _ => h₁.keeps h hmove⟩

/-- The offset that `poolallocalignl` works with. -/
def offsetOf (align : ℕ) (offset : ℤ) : ℕ := if align = 0 then 0 else alignoffset align offset

/-- A condition on the block that `poolallocalignl` cuts, with the pointer it has allocated and the
one it returns. -/
def OnCut (p : Params) (e : Env) (P : Pool) (dsize align : ℕ) (offset : ℤ) (span : ℕ)
    (C : Focus → ℕ → ℕ → Prop) : Prop :=
  ∀ P₁ v c f, P.allocspan p e ((dsize + align) % 2 ^ 64) span = .ok (P₁, some v) →
    alignplace v dsize align (offsetOf align offset) span = some c →
    P₁.at? (v - 16) = some f → C f v c

/-- What `poolallocalignl` needs so that nothing goes wrong. -/
structure AlignFits (p : Params) (e : Env) (P : Pool) (dsize align : ℕ) (offset : ℤ) (span : ℕ) :
    Prop where
  fits : SpanFits p e P ((dsize + align) % 2 ^ 64) span
  free : ∀ P₁ v, P.allocspan p e ((dsize + align) % 2 ^ 64) span = .ok (P₁, some v) →
    alignplace v dsize align (offsetOf align offset) span = none → FreeFits e P₁ v
  cut : OnCut p e P dsize align offset span fun f v c => CutFits p e f v c dsize

/-- No block in front of a free one is cut in the course of `poolallocalignl`. -/
structure AlignApart (p : Params) (e : Env) (P : Pool) (dsize align : ℕ) (offset : ℤ) (span : ℕ) :
    Prop where
  alloc : OnSpan p e P ((dsize + align) % 2 ^ 64) span (AllocApart p e)
  cut : OnCut p e P dsize align offset span fun f v c => isFree f.right = true →
    ¬p.Cuts (f.cur.size - frontsize p f v c) (cutsize p f v c dsize)

/-- Nothing is cut off in the course of `poolallocalignl`. -/
structure AlignEven (p : Params) (e : Env) (P : Pool) (dsize align : ℕ) (offset : ℤ) (span : ℕ) :
    Prop where
  alloc : OnSpan p e P ((dsize + align) % 2 ^ 64) span (AllocEven p e)
  cut : OnCut p e P dsize align offset span fun f v c =>
    frontsize p f v c = 0 ∧ ¬p.Cuts f.cur.size (cutsize p f v c dsize)

/-- What `poolallocalignl` makes of a pool. -/
structure Aligned (p : Params) (E : Prop) (e : Env) (P : Pool) (dsize align : ℕ) (offset : ℤ)
    (span : ℕ) (r : Pool × Option ℕ) : Prop where
  inv : r.1.Inv p E
  coalesced : AlignApart p e P dsize align offset span → Coalesced P.arenalist →
    Coalesced r.1.arenalist
  drift : AlignEven p e P dsize align offset span → r.1.drift = P.drift
  given : ¬E → ∀ c ∈ r.2, ∃ b, r.1.Live b c ∧ c + dsize ≤ b.addr + 16 + b.getdsize
  kept : ¬E → p.move = false → P.Keeps r.1 0

/-- **`poolallocalignl`** -/
theorem Inv.poolallocalignl (h : P.Inv p E)
    (hfits : ¬E → AlignFits p e P dsize align offset span) :
    Outcome E (P.poolallocalignl p e dsize align offset span)
      (Aligned p E e P dsize align offset span) := by
  rw [Pool.poolallocalignl]
  refine (h.allocspan (e := e) fun hE => (hfits hE).fits).bind_eq ?_
  rintro ⟨P₁, v⟩ hP₁ h₁
  cases v with
  | none =>
    refine ⟨h₁.inv, fun hc => h₁.coalesced hc.alloc, fun hc => h₁.drift hc.alloc, fun _ => nofun,
      fun hE hmove c w hc _ => ?_⟩
    obtain ⟨c', hc', hsame, -⟩ := h₁.kept hE hmove c w hc
    exact ⟨c', hc', hsame⟩
  | some v =>
    obtain ⟨n, b, ⟨hb, hm, hbv⟩, hskip, -, -⟩ := h₁.given v rfl
    have hoff : (if align = 0 then 0 else alignoffset align offset) = offsetOf align offset := rfl
    simp only [hoff]
    cases hplace : alignplace v dsize align (offsetOf align offset) span with
    | none =>
      refine (h₁.inv.poolfreel (v := v) fun hE => .inr
        ⟨⟨b, hb, hm, hbv⟩, (hfits hE).free P₁ v hP₁ hplace⟩).bind fun P₂ h₂ => ?_
      refine ⟨h₂.inv, fun hc hs => h₂.coalesced (h₁.coalesced hc.alloc hs), fun hc => ?_,
        fun _ => nofun, fun hE hmove c w hc _ => ?_⟩
      · rw [h₂.drift, h₁.drift hc.alloc]
      · obtain ⟨c', hc', hsame, hfresh⟩ := h₁.kept hE hmove c w hc
        have hstrict : P₁.Inv p False := by
          have := h₁.inv
          rwa [eq_false hE] at this
        refine ⟨c', h₂.kept hE c' w hc' ?_, hsame⟩
        rintro rfl
        have h4 := hfresh w rfl
        rw [Live.unique hstrict hc' ⟨hb, hm, hbv⟩] at h4
        omega
    | some c =>
      obtain ⟨f, hf, harenas, rfl⟩ := at?_addr h₁.inv.layout hb
      have hv : v = f.cur.addr + 16 := by
        rw [← hbv, hskip, add_zero]
      have haddr : v - 16 = f.cur.addr := by omega
      rw [← haddr] at hf
      simp only [hf]
      refine (h₁.inv.aligncut harenas hm hv (c := c) fun hE =>
        (hfits hE).cut P₁ v c f hP₁ hplace hf).bind fun P₂ h₂ => ?_
      refine ⟨h₂.inv, fun hc hs => ?_, fun hc => ?_, fun hE w hw => ?_, fun hE hmove b w hb _ => ?_⟩
      · exact h₂.coalesced (hc.cut P₁ v c f hP₁ hplace hf) (h₁.coalesced hc.alloc hs)
          (h₁.left hc.alloc hs v rfl f hf)
      · obtain ⟨hfront, hcuts⟩ := hc.cut P₁ v c f hP₁ hplace hf
        rw [h₂.drift hfront hcuts, h₁.drift hc.alloc]
      · obtain rfl : c = w := Option.some.inj hw
        exact h₂.live hE
      · obtain ⟨b', hb', hsame, hfresh⟩ := h₁.kept hE hmove b w hb
        have hmem := hb'.1
        rw [blocks, ← harenas, ← blocksOf, Focus.mem_blocksOf_arenas] at hmem
        refine ⟨b', hb'.same (h₂.others b' (hmem.resolve_left ?_)) (.refl hb'.2.1), hsame⟩
        rintro rfl
        exact hfresh v rfl hv

end Pool

/-! ### Steps -/

/-- How much data an operation asks for. -/
def PoolOp.bytes : PoolOp → ℕ
  | .alloc dsize | .allocalign dsize _ _ _ => dsize.toNat
  | .realloc _ ndsize => ndsize.toNat
  | .free _ | .compact => 0

/-- The pointer that an operation takes back. -/
def PoolOp.pointer : PoolOp → ℕ
  | .free v | .realloc v _ => v.toNat
  | .alloc _ | .allocalign .. | .compact => 0

namespace Pool

variable {P : Pool} {v : ℕ}

/-- What an operation needs so that nothing goes wrong. -/
def StepFits (p : Params) (e : Env) (P : Pool) : PoolOp → Prop
  | .alloc dsize => AllocFits p e P dsize.toNat
  | .free v => v.toNat = 0 ∨ (∃ b, P.Live b v.toNat) ∧ FreeFits e P v.toNat
  | .realloc v ndsize => ReallocFits p e P v.toNat ndsize.toNat
  | .allocalign dsize align offset span =>
    AlignFits p e P dsize.toNat align.toNat offset.toInt span.toNat
  | .compact => True

/-- No block in front of a free one is cut in the course of an operation. -/
def StepApart (p : Params) (e : Env) (P : Pool) : PoolOp → Prop
  | .alloc dsize => AllocApart p e P dsize.toNat
  | .realloc v ndsize => ReallocApart p e P v.toNat ndsize.toNat
  | .allocalign dsize align offset span =>
    AlignApart p e P dsize.toNat align.toNat offset.toInt span.toNat
  | .free _ | .compact => True

/-- No block changes its size behind the back of `curalloc` in the course of an operation. -/
def StepEven (p : Params) (e : Env) (P : Pool) : PoolOp → Prop
  | .alloc dsize => AllocEven p e P dsize.toNat
  | .realloc v ndsize => ReallocEven p e P v.toNat ndsize.toNat
  | .allocalign dsize align offset span =>
    AlignEven p e P dsize.toNat align.toNat offset.toInt span.toNat
  | .free _ | .compact => True

/-- What an operation makes of a pool. -/
structure Stepped (p : Params) (E : Prop) (e : Env) (P : Pool) (op : PoolOp) (r : Pool × Option ℕ) :
    Prop where
  inv : r.1.Inv p E
  coalesced : StepApart p e P op → Coalesced P.arenalist → Coalesced r.1.arenalist
  drift : StepEven p e P op → r.1.drift = P.drift
  given : ¬E → ∀ w ∈ r.2, ∃ b, r.1.Live b w ∧ w + op.bytes ≤ b.addr + 16 + b.getdsize
  kept : ¬E → p.move = false → P.Keeps r.1 op.pointer

theorem Given.live {c : Block} (h : Given p P n v c) :
    P.Live c v ∧ v + n ≤ c.addr + 16 + c.getdsize := by
  obtain ⟨⟨hc, hm, hv⟩, hskip, hsize, -⟩ := h
  exact ⟨⟨hc, hm, hv⟩, by omega⟩

/-- **A step of a pool.** -/
theorem Inv.step {op : PoolOp} (h : P.Inv p E) (hfits : ¬E → StepFits p e P op) :
    Outcome E (P.step p e op) (Stepped p E e P op) := by
  cases op with
  | alloc dsize =>
    refine (h.poolallocl (e := e) hfits).mono fun r hr => ?_
    refine ⟨hr.inv, hr.coalesced, hr.drift, fun _ w hw => (hr.given w hw).imp fun _ => Given.live,
      fun _ hmove c w hc _ => ?_⟩
    obtain ⟨c', hc', hsame, -⟩ := hr.keeps h hmove hc
    exact ⟨c', hc', hsame⟩
  | free v =>
    refine (h.poolfreel hfits).bind fun P' hP' => ?_
    exact ⟨hP'.inv, fun _ => hP'.coalesced, fun _ => hP'.drift, fun _ => nofun,
      fun hE _ c w hc hw => ⟨c, hP'.kept hE c w hc hw, .refl hc.2.1⟩⟩
  | realloc v ndsize =>
    refine (h.poolreallocl (e := e) hfits).mono fun r hr => ?_
    exact ⟨hr.inv, hr.coalesced, hr.drift,
      fun hE w hw => (hr.given hE w hw).imp fun _ => Given.live, hr.kept⟩
  | allocalign dsize align offset span =>
    refine (h.poolallocalignl (e := e) hfits).mono fun r hr => ?_
    exact ⟨hr.inv, hr.coalesced, hr.drift, hr.given, hr.kept⟩
  | compact =>
    refine h.poolcompactl.bind fun r hr => ?_
    refine ⟨hr.inv, fun _ => hr.coalesced, fun _ => hr.drift, fun _ => nofun,
      fun _ hmove c w hc _ => ?_⟩
    obtain ⟨f, -, hf, rfl⟩ := at?_addr h.layout hc.1
    refine ⟨f.cur, hc.same (hr.kept f hf hc.2.1 fun hcomp => ?_) (.refl hc.2.1), .refl hc.2.1⟩
    rw [Compacts, hmove] at hcomp
    exact absurd hcomp.1 nofun

/-! ### Runs -/

/-- A condition on all steps of a run. -/
def Along (p : Params) (C : Env → Pool → PoolOp → Prop) : Pool → List (Env × PoolOp) → Prop
  | _, [] => True
  | P, (e, op) :: ops => C e P op ∧ ∀ r, P.step p e op = .ok r → Along p C r.1 ops

/-- **The rule of runs**: what the steps keep that meet a condition holds in the end. -/
theorem outcome_run {C : Env → Pool → PoolOp → Prop} {I : Pool → Prop}
    {steps : List (Env × PoolOp)}
    (hstep : ∀ e P op, I P → C e P op → Outcome E (P.step p e op) fun r => I r.1) (h : I P)
    (hall : Along p C P steps) : Outcome E (P.run p steps) I := by
  induction steps generalizing P with
  | nil => exact h
  | cons s steps ih =>
    obtain ⟨hs, hsteps⟩ := hall
    exact (hstep s.1 P s.2 h hs).bind_eq fun r hr hI => ih hI (hsteps r hr)

theorem inv_empty : empty.Inv p E where
  layout := ⟨.nil, nofun⟩
  sync := ⟨trivial, rfl, rfl⟩
  settled := nofun

/-! ### The representation -/

/-- The free blocks, with their sizes. -/
def freeBlocks (P : Pool) : List (ℕ × ℕ) :=
  (P.blocks.filter fun b => b.magic = .free).map fun b => (b.size, b.addr)

/-- A pool that is well formed: the arenas are tiled by blocks whose tails match their headers, the
tree is a search tree of rings that hold the free blocks, `curfree` is the sum of their sizes, the
data of the allocated blocks are inside these and apart from one another, and no check fails. -/
structure Represented (p : Params) (P : Pool) : Prop where
  tiles : ∀ A ∈ P.arenalist, Tiles (A.base + 40) A.blocks (A.base + A.asize - 16)
  ordered : P.tree.freeroot.Ordered
  free : P.tree.freeroot.elems = (P.freeBlocks : Multiset (ℕ × ℕ))
  curfree : P.tree.curfree = ((P.freeBlocks.map fun x => x.1).sum : ℕ)
  inside : ∀ b v, P.Live b v → b.addr + 16 ≤ v ∧ v ≤ b.addr + 16 + b.getdsize ∧
    b.addr + 16 + b.getdsize ≤ b.addr + b.size - 16
  disjoint : ∀ b c v w, P.Live b v → P.Live c w → v ≠ w →
    b.addr + 16 + b.getdsize ≤ w ∨ c.addr + 16 + c.getdsize ≤ v
  check : P.poolcheckl p = .ok ()

theorem weigh_elem_eq {bs : List Block} : weigh Block.elem bs =
    (((bs.filter fun b => b.magic = .free).map fun b => (b.size, b.addr) : List (ℕ × ℕ)) :
      Multiset (ℕ × ℕ)) := by
  induction bs with
  | nil => rfl
  | cons b bs ih =>
    rw [weigh_cons, ih]
    by_cases hb : b.magic = .free
    · rw [filter_cons_of_pos (by simpa using hb), Block.elem, if_pos hb]
      rfl
    · rw [filter_cons_of_neg (by simpa using hb), Block.elem, if_neg hb, zero_add]

/-- The tree is in order, and its blocks are there. -/
theorem outcome_checktree {t : RingTree ℕ ℕ} (h : t.Ordered) {a b : ℕ}
    (hbounds : ∀ x ∈ t.elems, a < x.1 ∧ x.1 < b)
    (hblocks : ∀ x ∈ t.elems, ∃ c ∈ P.blocks, c.magic = .free ∧ x = (c.size, c.addr)) :
    Outcome E (P.checktree a b t) fun _ => True := by
  induction t generalizing a b with
  | nil => trivial
  | node k ring l r ihl ihr =>
    obtain ⟨hl, hr, hne, hol, hor⟩ := h
    simp only [RingTree.mem_elems_node] at hbounds hblocks
    have hring : ∀ x ∈ ring, ∃ c ∈ P.blocks, c.magic = .free ∧ (k, x) = (c.size, c.addr) :=
      fun x hx => hblocks (k, x) (.inr (.inl ⟨rfl, hx⟩))
    have hk : a < k ∧ k < b := by
      obtain ⟨x, hx⟩ := exists_mem_of_ne_nil ring hne
      exact hbounds (k, x) (.inr (.inl ⟨rfl, hx⟩))
    rw [checktree]
    refine (outcome_assertion fun _ => hk).bind fun _ _ => ?_
    refine Outcome.bind (Q := fun _ => True) ?_ fun _ _ => ?_
    · clear hne
      induction ring with
      | nil => trivial
      | cons x ring ih =>
        obtain ⟨⟨c, hc, hm, hx⟩, hring⟩ := forall_mem_cons.1 hring
        obtain ⟨hsize, haddr⟩ := Prod.mk.inj hx
        refine (outcome_assertion fun _ => ?_).bind fun _ _ => ih ?_ ?_ hring
        · rw [any_eq_true]
          exact ⟨c, hc, by simp [hm, hsize, haddr]⟩
        · rintro y (hy | ⟨hy, hy'⟩ | hy)
          · exact hbounds y (.inl hy)
          · exact hbounds y (.inr (.inl ⟨hy, mem_cons_of_mem _ hy'⟩))
          · exact hbounds y (.inr (.inr hy))
        · rintro y (hy | ⟨hy, hy'⟩ | hy)
          · exact hblocks y (.inl hy)
          · exact hblocks y (.inr (.inl ⟨hy, mem_cons_of_mem _ hy'⟩))
          · exact hblocks y (.inr (.inr hy))
    · refine (ihl hol (fun x hx => ⟨(hbounds x (.inl hx)).1, hl x hx⟩)
        fun x hx => hblocks x (.inl hx)).bind fun _ _ => ?_
      exact ihr hor (fun x hx => ⟨hr x hx, (hbounds x (.inr (.inr hx))).2⟩)
        fun x hx => hblocks x (.inr (.inr hx))

/-- **No check fails.** -/
theorem Inv.poolcheckl (h : P.Inv p False) : P.poolcheckl p = .ok () := by
  have harenas : Outcome False (P.arenalist.forM (poolcheckarena p)) fun _ => True := by
    have hAs : ∀ A ∈ P.arenalist, A.Tiled False ∧ ∀ b ∈ A.blocks, b.Settled p False :=
      fun A hA => ⟨h.layout.tiled A hA, fun b hb => h.settled b (mem_blocksOf.2 ⟨A, hA, hb⟩)⟩
    generalize P.arenalist = As at hAs
    induction As with
    | nil => trivial
    | cons A As ih =>
      obtain ⟨hA, hAs⟩ := forall_mem_cons.1 hAs
      exact (outcome_poolcheckarena hA.1 hA.2).bind fun _ _ => ih hAs
  have htree : ∀ x ∈ P.tree.freeroot.elems, ∃ c ∈ P.blocks, c.magic = .free ∧
      x = (c.size, c.addr) := by
    intro x hx
    rw [h.sync.elems] at hx
    exact mem_weigh_elem.1 hx
  have hcheck : Outcome False (P.poolcheckl p) fun _ => True := by
    refine harenas.bind fun _ _ => outcome_checktree h.sync.ordered (fun x hx => ?_) htree
    obtain ⟨c, hc, -, rfl⟩ := htree x hx
    have hblock := h.layout.block hc
    have := hblock.2.2.2.2 id
    constructor
    · exact lt_of_lt_of_le (by norm_num) hblock.2.1
    · exact this
  obtain ⟨_, hok, -⟩ := outcome_false.1 hcheck
  exact hok

theorem Inv.represented (h : P.Inv p False) : P.Represented p where
  tiles A hA := (h.layout.tiled A hA).tiles
  ordered := h.sync.ordered
  free := by
    rw [h.sync.elems]
    exact weigh_elem_eq
  curfree := by
    rw [h.sync.curfree]
    have helems : weigh Block.elem (blocksOf P.arenalist) = (P.freeBlocks : Multiset (ℕ × ℕ)) :=
      weigh_elem_eq
    rw [helems, Multiset.map_coe, Multiset.sum_coe]
    induction P.freeBlocks with
    | nil => rfl
    | cons x xs ih =>
      rw [map_cons, sum_cons, ih, map_cons, sum_cons, Nat.cast_add]
  inside := by
    rintro b v ⟨hb, hm, rfl⟩
    have hroom := (h.settled b hb).room hm
    have hskip := ((h.settled b hb).strict id).skip hm
    omega
  disjoint := by
    rintro b c v w ⟨hb, hbm, rfl⟩ ⟨hc, hcm, rfl⟩ hne
    have hbroom := (h.settled b hb).room hbm
    have hcroom := (h.settled c hc).room hcm
    rcases h.layout.apart hb hc with rfl | hapart
    · exact absurd rfl hne
    · omega
  check := h.poolcheckl

/-! ### Main results -/

/-- The pool of `malloc`. -/
def sbrkmem : Params where
  maxsize := 128 * 2 ^ 40
  minarena := 4096
  quantum := 64
  minblock := 64
  move := false
  quantum_pow := ⟨6, by omega, rfl⟩
  minblock_lt := by omega
  minarena_lt := by omega

/-- A region at 0x10000. -/
def brk : Env := Env.at [0x10000] true

/-- **Nothing goes wrong** in a run all of whose steps have what they need: no assertion fails, the
pool stays well formed, a pointer that is returned leads to as much data as was asked for, and
callers keep their pointers and data. -/
theorem run_represented (p : Params) (steps : List (Env × PoolOp))
    (hall : Along p (StepFits p) empty steps) :
    ∃ P, empty.run p steps = .ok P ∧ P.Represented p ∧
      ∀ e op r, StepFits p e P op → P.step p e op = .ok r →
        (∀ w ∈ r.2, ∃ b, r.1.Live b w ∧ w + op.bytes ≤ b.addr + 16 + b.getdsize) ∧
        (p.move = false → P.Keeps r.1 op.pointer) := by
  have hrun : Outcome False (empty.run p steps) fun P => P.Inv p False :=
    outcome_run (fun e P op h hfits => (h.step fun _ => hfits).mono fun _ hr => hr.inv)
      inv_empty hall
  obtain ⟨P, hP, h⟩ := outcome_false.1 hrun
  refine ⟨P, hP, h.represented, fun e op r hfits hr => ?_⟩
  have hstep := (h.step fun _ => hfits).of_eq hr
  exact ⟨hstep.given id, hstep.kept id⟩

/-- The first allocation of a program. -/
theorem allocFits_first : AllocFits sbrkmem brk empty 8 := by
  have hregion : region sbrkmem brk empty (newsize sbrkmem 8) = some 0x10000 := by decide
  refine fun _ => ⟨⟨by decide, by decide, by decide⟩, fun _ => ⟨⟨by decide, by decide⟩, ?_⟩⟩
  intro a ha
  obtain rfl := Option.some.inj (hregion.symm.trans ha)
  exact ⟨by decide, by decide, nofun⟩

instance (f : Focus) : Decidable (f.LeftFits e) := by unfold Focus.LeftFits; infer_instance

/-- In front of its block the program has memory, which does not look like a free block. -/
theorem stepFits_free {r : Pool × Option ℕ} (hr : empty.step sbrkmem brk (.alloc 8) = .ok r) :
    StepFits sbrkmem brk r.1 (.free 0x10038) := by
  obtain ⟨r', hr', hfits⟩ := exists_of_any (x := empty.step sbrkmem brk (.alloc 8))
    (Q := fun r => (r.1.d2b 0x10038).toOption.any (fun f => decide (f.LeftFits brk ∧
      f.cur ∈ r.1.blocks ∧ f.cur.magic = .alloc ∧ f.cur.addr + 16 + f.cur.skip = 0x10038)) = true)
    (by decide)
  obtain rfl := Except.ok.inj (hr.symm.trans hr')
  obtain ⟨f, hf, hleft, hlive⟩ := exists_of_any hfits
  refine .inr ⟨⟨f.cur, hlive⟩, fun g hg => ?_⟩
  obtain rfl := Except.ok.inj (hf.symm.trans hg)
  exact hleft

theorem run_represented_first : ∃ P, empty.run sbrkmem
    [(brk, .alloc 8), (brk, .free 0x10038), (brk, .compact)] = .ok P ∧ P.Represented sbrkmem := by
  obtain ⟨P, hP, h, -⟩ := run_represented sbrkmem
    [(brk, .alloc 8), (brk, .free 0x10038), (brk, .compact)]
    ⟨allocFits_first, fun _ hr => ⟨stepFits_free hr, fun _ _ => ⟨trivial, fun _ _ => trivial⟩⟩⟩
  exact ⟨P, hP, h⟩

/-- A size that overflows is taken for a small one. -/
theorem realloc_wild : empty.run sbrkmem
    [(brk, .alloc 8), (brk, .realloc 0x10038 0xFFFFFFFFFFFFFFFF)] = .error .wild := by
  decide

-- In front of the arena of a large first allocation there is nothing to read.
example : empty.run sbrkmem [(brk, .alloc 100000), (brk, .free 0x10038)] = .error .wild := by decide

/-- **Free space is coalesced** in a run in which no block in front of a free one is cut. -/
theorem run_coalesced (p : Params) (steps : List (Env × PoolOp)) (P : Pool)
    (hall : Along p (StepApart p) empty steps) (hrun : empty.run p steps = .ok P) :
    Coalesced P.arenalist := by
  have h : Outcome True (empty.run p steps) fun P => P.Inv p True ∧ Coalesced P.arenalist := by
    refine outcome_run (fun e P op h hapart => ?_) ⟨inv_empty, nofun⟩ hall
    exact (h.1.step (e := e) fun hE => absurd trivial hE).mono fun r hr =>
      ⟨hr.inv, hr.coalesced hapart h.2⟩
  exact (h.of_eq hrun).2

theorem run_coalesced_first :
    ∃ P, empty.run sbrkmem [(brk, .alloc 8), (brk, .free 0x10038)] = .ok P ∧
    Coalesced P.arenalist := by
  obtain ⟨P, hP, -⟩ : ∃ P, empty.run sbrkmem [(brk, .alloc 8), (brk, .free 0x10038)] =
    .ok P ∧ True :=
    exists_of_any (by decide)
  refine ⟨P, hP, run_coalesced sbrkmem [(brk, .alloc 8), (brk, .free 0x10038)] P ⟨?_, ?_⟩ hP⟩
  · rintro - a - b hb
    exact absurd hb nofun
  · exact fun _ _ => ⟨trivial, fun _ _ => trivial⟩

/-- What is cut off a block comes to lie in front of a free one. -/
theorem realloc_uncoalesced : ∃ P, empty.run sbrkmem
    [(brk, .alloc 3000), (brk, .realloc 0x10038 500)] = .ok P ∧ ¬Coalesced P.arenalist :=
  exists_of_any (by decide)

/-- **`curalloc` is exact** in a run in which no block changes its size behind its back: it is the
sum of the sizes of the blocks that are allocated. -/
theorem run_accounted (p : Params) (steps : List (Env × PoolOp)) (P : Pool)
    (hall : Along p (StepEven p) empty steps) (hrun : empty.run p steps = .ok P) :
    P.curalloc = allocated P.arenalist := by
  have h : Outcome True (empty.run p steps) fun P => P.Inv p True ∧ P.drift = 0 := by
    refine outcome_run (fun e P op h heven => ?_) ⟨inv_empty, rfl⟩ hall
    exact (h.1.step (e := e) fun hE => absurd trivial hE).mono fun r hr =>
      ⟨hr.inv, (hr.drift heven).trans h.2⟩
  exact sub_eq_zero.1 (h.of_eq hrun).2

theorem run_accounted_first :
    ∃ P, empty.run sbrkmem [(brk, .alloc 8), (brk, .free 0x10038)] = .ok P ∧
    P.curalloc = allocated P.arenalist := by
  obtain ⟨P, hP, -⟩ : ∃ P, empty.run sbrkmem [(brk, .alloc 8), (brk, .free 0x10038)] =
    .ok P ∧ True :=
    exists_of_any (by decide)
  refine ⟨P, hP, run_accounted sbrkmem [(brk, .alloc 8), (brk, .free 0x10038)] P ⟨?_, ?_⟩ hP⟩
  · rintro - a - b hb
    exact absurd hb nofun
  · exact fun _ _ => ⟨trivial, fun _ _ => trivial⟩

/-- What is cut off an aligned block is not subtracted. -/
theorem allocalign_unaccounted : ∃ P, empty.run sbrkmem
    [(brk, .allocalign 1000 1024 0 0)] = .ok P ∧ P.curalloc ≠ allocated P.arenalist :=
  exists_of_any (by decide)

end Pool

end Libc

end Plan9
