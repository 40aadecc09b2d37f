import Plan9.Fossil.MetaSpace
import Plan9.Lib.Run

/-!
# Metadata blocks are sorted maps

The edits that fossil makes of a metadata block – new entries, changed and renamed entries,
removals, and the block written and read again – in any order, on a block from `mbInit` or on
a well-formed block that `mbUnpack` read.

* `Plan9.Fossil.Vac.WF.edit` – an edit that its callers may make fails no assertion, keeps the
  block well formed, and changes the records as a map from names is changed;
* `Plan9.Fossil.Vac.sorted_map` – so all of this holds in every state of every run.
-/

namespace Plan9

namespace Fossil

namespace Vac

open Lib MetaBlock List

variable {mb mb' : MetaBlock} {me : MetaEntry} {l₁ l₂ : List MetaEntry} {dir : DirEntry}

/-! ### What the callers promise, and what an edit does -/

/-- What the callers make sure of: a table with room for a new entry, and a name that is not
there yet. A block in the old order is not written. -/
def Edit.Ok (mb : MetaBlock) : Edit → Prop
  | .search _ => True
  | .alloc dir => mb.nindex < mb.maxindex ∧ dir.elem.1 ∉ mb.names
  | .resize oelem dir _ => dir.elem = oelem ∨ dir.elem.1 ∉ mb.names
  | .delete _ => True
  | .reread => mb.botch = false

/-- The records of `mb'` are those of `mb`, without those of the name `elem`. -/
def Erased (mb mb' : MetaBlock) (elem : Str) : Prop :=
  ∀ r, r ∈ mb'.records ↔ r ∈ mb.records ∧ nameOf r ≠ elem.1

/-- The records of `mb'` are those of `mb` with the record of `dir` for that of `oelem`. -/
def Replaced (mb mb' : MetaBlock) (oelem : Str) (dir : DirEntry) : Prop :=
  ∀ r, r ∈ mb'.records ↔ r = dir.bytes ∨ r ∈ mb.records ∧ nameOf r ≠ oelem.1

/-- What an edit does to the records. -/
def Edit.Effect (mb mb' : MetaBlock) : Edit → Prop
  | .search _ => mb'.records = mb.records
  | .alloc dir =>
    if (deSize dir : ℤ) ≤ mb.maxsize - mb.size + mb.free then
      ∀ r, r ∈ mb'.records ↔ r = dir.bytes ∨ r ∈ mb.records
    else mb'.records = mb.records
  | .resize oelem dir elsewhere =>
    if oelem.1 ∈ mb.names then
      Replaced mb mb' oelem dir ∨
        if elsewhere then Erased mb mb' oelem else mb'.records = mb.records
    else mb'.records = mb.records
  | .delete elem => Erased mb mb' elem
  | .reread => mb'.records = mb.records

/-- A step of a run. -/
def Edit.Step (mb : MetaBlock) (e : Edit) (mb' : MetaBlock) : Prop := e.apply mb = some mb'

/-! ### Names -/

theorem mem_names {name : List UInt8} :
    name ∈ mb.names ↔ ∃ e ∈ mb.entries, nameOf (record mb.buf e) = name := by
  simp [names, records]

/-- The names of the table are in order, so none is there twice. -/
theorem WF.names_ne (h : WF mb) (hs : mb.entries = l₁ ++ me :: l₂) :
    ∀ e ∈ l₁ ++ l₂, nameOf (record mb.buf e) ≠ nameOf (record mb.buf me) := by
  have h1 := h.sorted
  rw [records, hs, map_append, map_cons, pairwise_append, pairwise_cons] at h1
  intro e he heq
  rcases mem_append.1 he with he | he
  · have h2 : mb.Before _ _ := h1.2.2 _ (mem_map_of_mem he) (record mb.buf me) mem_cons_self
    rw [Before, heq] at h2
    exact lt_irrefl _ h2
  · have h2 : mb.Before _ _ := h1.2.1.1 _ (mem_map_of_mem he)
    rw [Before, heq] at h2
    exact lt_irrefl _ h2

/-- **The search finds exactly the names that are there.** -/
theorem WF.search_iff (h : WF mb) (elem : Str) :
    (∃ i me, mbSearch mb elem = some (.found i me) ∧ mb.entries[i]? = some me ∧
      mb.names[i]? = some elem.1) ∧ elem.1 ∈ mb.names ∨
    (∃ i, mbSearch mb elem = some (.absent i)) ∧ elem.1 ∉ mb.names := by
  rcases h.search elem with ⟨l₁, me, l₂, hs, hn, hr⟩ | ⟨l₁, l₂, hs, h1, h2, hr⟩
  · refine Or.inl ⟨⟨l₁.length, me, hr, by simp [hs], ?_⟩, mem_names.2 ⟨me, by simp [hs], hn⟩⟩
    simp [names, records, hs, hn]
  · refine Or.inr ⟨⟨_, hr⟩, fun hm => ?_⟩
    obtain ⟨e, he, hn⟩ := mem_names.1 hm
    rw [hs] at he
    rcases mem_append.1 he with he | he
    · exact absurd (h1 e he) (by rw [hn]; exact lt_irrefl _)
    · exact absurd (h2 e he) (by rw [hn]; exact lt_irrefl _)

/-- Where a name that is not there belongs. -/
theorem WF.search_absent (h : WF mb) {elem : Str} (he : elem.1 ∉ mb.names) :
    ∃ l₁ l₂, mb.entries = l₁ ++ l₂ ∧
      (∀ e ∈ l₁, key mb.botch (nameOf (record mb.buf e)) < key mb.botch elem.1) ∧
      (∀ e ∈ l₂, key mb.botch elem.1 < key mb.botch (nameOf (record mb.buf e))) ∧
      mbSearch mb elem = some (.absent l₁.length) := by
  rcases h.search elem with ⟨l₁, me, l₂, hs, hn, -⟩ | h1
  · exact absurd (mem_names.2 ⟨me, by simp [hs], hn⟩) he
  · exact h1

theorem names_eq (h : mb'.records = mb.records) : mb'.names = mb.names := by
  rw [names, names, h]

/-! ### The edits -/

/-- What is shown of every edit. -/
structure Done (mb mb' : MetaBlock) (e : Edit) : Prop where
  wf : WF mb'
  maxsize_eq : mb'.maxsize = mb.maxsize
  maxindex_eq : mb'.maxindex = mb.maxindex
  botch_eq : mb'.botch = mb.botch
  effect : e.Effect mb mb'

theorem Inserted.mem_records (h : Inserted mb mb' l₁ l₂ me dir) (r : List UInt8) :
    r ∈ mb'.records ↔ r = dir.bytes ∨ ∃ e ∈ l₁ ++ l₂, record mb.buf e = r := by
  rw [h.records_eq]
  simp only [mem_append, mem_cons, mem_map]
  constructor
  · rintro (⟨e, he, rfl⟩ | rfl | ⟨e, he, rfl⟩)
    · exact Or.inr ⟨e, Or.inl he, rfl⟩
    · exact Or.inl rfl
    · exact Or.inr ⟨e, Or.inr he, rfl⟩
  · rintro (rfl | ⟨e, he | he, rfl⟩)
    · exact Or.inr (Or.inl rfl)
    · exact Or.inl ⟨e, he, rfl⟩
    · exact Or.inr (Or.inr ⟨e, he, rfl⟩)

/-- **A new entry.** -/
theorem WF.allocEntry (h : WF mb) (hlt : mb.nindex < mb.maxindex) (hne : dir.elem.1 ∉ mb.names) :
    ∃ mb', Vac.allocEntry mb dir = some mb' ∧ Done mb mb' (.alloc dir) := by
  rcases h.alloc (deSize dir) with ⟨mb₁, p, ha, hsp, hroom⟩ | ⟨ha, hroom⟩
  · have hmv := hsp.moved
    have hu : ushort (deSize dir) = deSize dir :=
      Nat.mod_eq_of_lt (by have := hsp.le; have := hmv.wf.small; omega)
    obtain ⟨l₁, l₂, hs, h1, h2, hr⟩ :=
      hmv.wf.search_absent (by rwa [names_eq hmv.records_eq] : dir.elem.1 ∉ mb₁.names)
    have hsize : deSize dir = (⟨p, deSize dir⟩ : MetaEntry).size := rfl
    obtain ⟨mb', hmb', hin⟩ := hmv.wf.insert hs
      (by rwa [hmv.nindex_eq, hmv.maxindex_eq]) hsize hsp.ge hsp.le hsp.apart h1 h2
    refine ⟨mb', ?_, hin.wf, hin.maxsize_eq.trans hmv.maxsize_eq,
      hin.maxindex_eq.trans hmv.maxindex_eq, hin.botch_eq.trans hmv.botch_eq, ?_⟩
    · rw [Vac.allocEntry, ha]
      show ((mbSearch mb₁ dir.elem).bind (placeEntry mb₁ dir p)) = _
      rw [hr, Option.bind_some, placeEntry, hu, hmb']
    · rw [Edit.Effect, if_pos hroom, ← hmv.records_eq]
      intro r
      rw [hin.mem_records, records, mem_map, hs]
  · refine ⟨mb, ?_, h, rfl, rfl, rfl, ?_⟩
    · rw [Vac.allocEntry, ha]
      rfl
    · rw [Edit.Effect, if_neg (by omega)]

/-- The records behind the deletion of an entry. -/
theorem Deleted.erased {elem : Str} (h : WF mb) (hs : mb.entries = l₁ ++ me :: l₂)
    (hn : nameOf (record mb.buf me) = elem.1) (hd : Deleted mb mb' l₁ l₂) : Erased mb mb' elem := by
  intro r
  rw [hd.records_eq, mem_map, records, mem_map, hs, ← hn]
  constructor
  · rintro ⟨e, he, rfl⟩
    refine ⟨⟨e, ?_, rfl⟩, h.names_ne hs e he⟩
    rcases mem_append.1 he with he | he
    · exact mem_append_left _ he
    · exact mem_append_right _ (mem_cons_of_mem _ he)
  · rintro ⟨⟨e, he, rfl⟩, hne⟩
    rcases mem_append.1 he with he | he
    · exact ⟨e, mem_append_left _ he, rfl⟩
    · rcases mem_cons.1 he with rfl | he
      · exact absurd rfl hne
      · exact ⟨e, mem_append_right _ he, rfl⟩

theorem erased_of_not_mem {elem : Str} (h : elem.1 ∉ mb.names) : Erased mb mb elem := by
  refine fun r => ⟨fun hr => ⟨hr, fun hn => h ?_⟩, fun hr => hr.1⟩
  rw [names, ← hn]
  exact mem_map_of_mem hr

/-- **A removed entry.** -/
theorem WF.deleteEntry (h : WF mb) (elem : Str) :
    ∃ mb', Vac.deleteEntry mb elem = some mb' ∧ Done mb mb' (.delete elem) := by
  rcases h.search elem with ⟨l₁, me, l₂, hs, hn, hr⟩ | ⟨l₁, l₂, hs, h1, h2, hr⟩
  · obtain ⟨mb', hmb', hd⟩ := h.delete hs
    refine ⟨mb', ?_, hd.wf, hd.maxsize_eq, hd.maxindex_eq, hd.botch_eq, hd.erased h hs hn⟩
    rw [Vac.deleteEntry, hr, Option.bind_some, deleteFound, hmb']
  · refine ⟨mb, ?_, h, rfl, rfl, rfl, erased_of_not_mem fun hm => ?_⟩
    · rw [Vac.deleteEntry, hr]
      rfl
    · rcases h.search_iff elem with ⟨⟨i, me, h3, -⟩, -⟩ | ⟨-, h3⟩
      · rw [hr] at h3
        exact absurd (Option.some.inj h3) (by simp)
      · exact h3 hm

/-- **An entry that fits** is taken out and put back. -/
theorem WF.replaceEntry {p : ℕ} {oelem : Str} (h : WF mb) (hs : mb.entries = l₁ ++ me :: l₂)
    (hn : nameOf (record mb.buf me) = oelem.1) (hok : dir.elem = oelem ∨ dir.elem.1 ∉ mb.names)
    (hlo : mb.omin ≤ p) (hhi : p + deSize dir ≤ mb.maxsize)
    (hap : ∀ e ∈ l₁ ++ l₂, Apart e ⟨p, deSize dir⟩) :
    ∃ mb', Vac.replaceEntry mb l₁.length ⟨p, deSize dir⟩ oelem dir = some mb' ∧ WF mb' ∧
      mb'.maxsize = mb.maxsize ∧ mb'.maxindex = mb.maxindex ∧ mb'.botch = mb.botch ∧
      Replaced mb mb' oelem dir := by
  obtain ⟨mb₁, hmb₁, hd⟩ := h.delete hs
  have her := hd.erased h hs hn
  have hrec : ∀ e ∈ l₁ ++ l₂, record mb₁.buf e = record mb.buf e := by
    have h1 := hd.records_eq
    rw [records, hd.entries_eq] at h1
    exact map_inj_left.1 h1
  -- the place of the name in what is left
  obtain ⟨l₃, l₄, hs', h3, h4, hidx⟩ : ∃ l₃ l₄, mb₁.entries = l₃ ++ l₄ ∧
      (∀ e ∈ l₃, key mb₁.botch (nameOf (record mb₁.buf e)) < key mb₁.botch dir.elem.1) ∧
      (∀ e ∈ l₄, key mb₁.botch dir.elem.1 < key mb₁.botch (nameOf (record mb₁.buf e))) ∧
      (if dir.elem = oelem then some l₁.length
        else (mbSearch mb₁ dir.elem).map Search.index) = some l₃.length := by
    by_cases hd' : dir.elem = oelem
    · have h1 := h.sorted
      rw [records, hs, map_append, map_cons, pairwise_append, pairwise_cons] at h1
      refine ⟨l₁, l₂, hd.entries_eq, fun e he => ?_, fun e he => ?_, if_pos hd'⟩
      · rw [hrec e (mem_append_left _ he), hd', ← hn, hd.botch_eq]
        exact h1.2.2 _ (mem_map_of_mem he) _ mem_cons_self
      · rw [hrec e (mem_append_right _ he), hd', ← hn, hd.botch_eq]
        exact h1.2.1.1 _ (mem_map_of_mem he)
    · have hne : dir.elem.1 ∉ mb₁.names := fun hm => by
        obtain ⟨e, he, hne⟩ := mem_names.1 hm
        have h5 := (her (record mb₁.buf e)).1 (mem_map_of_mem he)
        refine (hok.resolve_left hd') ?_
        rw [names, ← hne]
        exact mem_map_of_mem h5.1
      obtain ⟨l₃, l₄, h5, h6, h7, h8⟩ := hd.wf.search_absent hne
      refine ⟨l₃, l₄, h5, h6, h7, ?_⟩
      rw [if_neg hd', h8]
      rfl
  have hsize : deSize dir = (⟨p, deSize dir⟩ : MetaEntry).size := rfl
  obtain ⟨mb', hmb', hin⟩ := hd.wf.insert hs'
    (by rw [hd.maxindex_eq]; exact Nat.lt_of_lt_of_le hd.nindex_lt h.nindex_le) hsize
    (by rw [omin, hd.maxindex_eq]; exact hlo) (by rw [hd.maxsize_eq]; exact hhi)
    (fun e he => hap e (by rwa [hd.entries_eq] at he)) h3 h4
  refine ⟨mb', ?_, hin.wf, hin.maxsize_eq.trans hd.maxsize_eq,
    hin.maxindex_eq.trans hd.maxindex_eq, hin.botch_eq.trans hd.botch_eq, fun r => ?_⟩
  · rw [Vac.replaceEntry, hmb₁, Option.bind_some, hidx, Option.bind_some, hmb']
  · rw [hin.mem_records, ← her r, records, mem_map, hs']

/-- **A changed entry.** -/
theorem WF.resizeEntry {oelem : Str} (h : WF mb) (hok : dir.elem = oelem ∨ dir.elem.1 ∉ mb.names)
    (elsewhere : Bool) :
    ∃ mb', Vac.resizeEntry mb oelem dir elsewhere = some mb' ∧
      Done mb mb' (.resize oelem dir elsewhere) := by
  rcases h.search oelem with ⟨l₁, me, l₂, hs, hn, hr⟩ | ⟨l₁, l₂, hs, h1, h2, hr⟩
  · have hmem : oelem.1 ∈ mb.names := mem_names.2 ⟨me, by simp [hs], hn⟩
    rw [Vac.resizeEntry, hr, Option.bind_some, resizeFound]
    rcases h.resize hs (deSize dir) with ⟨mb₁, p, hres, hre⟩ | hres
    · rw [hres]
      have hmv := hre.moved
      obtain ⟨l₁', me', l₂', hs', hlen, hr₁, hr₂, hap⟩ := hre.split
      have hn' : nameOf (record mb₁.buf me') = oelem.1 := by
        have h3 := hmv.records_eq
        rw [records, records, hs, hs', map_append, map_append, hr₁, map_cons, map_cons, hr₂] at h3
        rw [(cons.inj (append_cancel_left h3)).1, hn]
      obtain ⟨mb', hmb', hwf, hms, hmi, hb, hrep⟩ := hmv.wf.replaceEntry hs' hn'
        (by rwa [names_eq hmv.records_eq]) hre.ge hre.le hap
      refine ⟨mb', ?_, hwf, hms.trans hmv.maxsize_eq, hmi.trans hmv.maxindex_eq,
        hb.trans hmv.botch_eq, ?_⟩
      · rw [← hlen]
        exact hmb'
      · rw [Edit.Effect, if_pos hmem]
        refine Or.inl fun r => ?_
        rw [hrep r, hmv.records_eq]
    · rw [hres]
      rcases elsewhere with _ | _
      · refine ⟨mb, rfl, h, rfl, rfl, rfl, ?_⟩
        rw [Edit.Effect, if_pos hmem]
        exact Or.inr (by simp)
      · obtain ⟨mb', hmb', hd⟩ := h.delete hs
        refine ⟨mb', hmb', hd.wf, hd.maxsize_eq, hd.maxindex_eq, hd.botch_eq, ?_⟩
        rw [Edit.Effect, if_pos hmem]
        exact Or.inr (by simpa using hd.erased h hs hn)
  · have hmem : oelem.1 ∉ mb.names := by
      rcases h.search_iff oelem with ⟨⟨i, me, h3, -⟩, -⟩ | ⟨-, h3⟩
      · rw [hr] at h3
        exact absurd (Option.some.inj h3) (by simp)
      · exact h3
    refine ⟨mb, ?_, h, rfl, rfl, rfl, ?_⟩
    · rw [Vac.resizeEntry, hr]
      rfl
    · rw [Edit.Effect, if_neg hmem]

/-! ### The block written and read again -/

theorem header_eq (mb : MetaBlock) : mb.header =
    [] ++ (beBytes 4 metaMagic ++ (beBytes 2 mb.size ++ (beBytes 2 (mb.free % 65536).toNat ++
      (beBytes 2 mb.maxindex ++ (beBytes 2 mb.nindex ++ []))))) := by
  simp only [MetaBlock.header, append_assoc, append_nil, nil_append]

/-- **The header is read back.** -/
theorem load_header (mb : MetaBlock) (hsize : mb.size < 65536) (hfree : 0 ≤ mb.free)
    (hfree' : mb.free < 65536) (hmax : mb.maxindex < 65536) (hn : mb.nindex < 65536) :
    beVal ((mb.buf.store 0 mb.header).load 0 4) = metaMagic ∧
      (mb.buf.store 0 mb.header).get16 4 = mb.size ∧
      ((mb.buf.store 0 mb.header).get16 6 : ℤ) = mb.free ∧
      (mb.buf.store 0 mb.header).get16 8 = mb.maxindex ∧
      (mb.buf.store 0 mb.header).get16 10 = mb.nindex := by
  have h := header_eq mb
  have h0 : (mb.buf.store 0 mb.header).load 0 4 = beBytes 4 metaMagic := by
    rw [h]
    exact Buffer.load_store_mid (i := 0) rfl rfl
  have h4 : (mb.buf.store 0 mb.header).load 4 2 = beBytes 2 mb.size := by
    rw [h, nil_append]
    exact Buffer.load_store_mid (p := 0) (length_beBytes 4 _) (length_beBytes 2 _)
  have h6 : (mb.buf.store 0 mb.header).load 6 2 = beBytes 2 (mb.free % 65536).toNat := by
    rw [h, nil_append, ← append_assoc]
    exact Buffer.load_store_mid (p := 0) (i := 6) (by simp) (length_beBytes 2 _)
  have h8 : (mb.buf.store 0 mb.header).load 8 2 = beBytes 2 mb.maxindex := by
    rw [h, nil_append, ← append_assoc, ← append_assoc]
    exact Buffer.load_store_mid (p := 0) (i := 8) (by simp) (length_beBytes 2 _)
  have h10 : (mb.buf.store 0 mb.header).load 10 2 = beBytes 2 mb.nindex := by
    rw [h, nil_append, ← append_assoc, ← append_assoc, ← append_assoc]
    exact Buffer.load_store_mid (p := 0) (i := 10) (by simp) (length_beBytes 2 _)
  have h256 : 256 ^ 2 = 65536 := rfl
  refine ⟨?_, ?_, ?_, ?_, ?_⟩
  · rw [h0]
    exact beVal_beBytes (by decide)
  · rw [Buffer.get16, h4, beVal_beBytes (by omega)]
  · rw [Buffer.get16, h6, beVal_beBytes (by omega)]
    omega
  · rw [Buffer.get16, h8, beVal_beBytes (by omega)]
  · rw [Buffer.get16, h10, beVal_beBytes (by omega)]

theorem WF.free_nonneg (h : WF mb) : 0 ≤ mb.free ∧ mb.free ≤ mb.size := by
  have h1 := h.free_eq
  have h2 := h.inOrder.total_le h.omin_le
  rw [total_perm (perm_insertionSort offsetLe mb.chunks), total_chunks] at h2
  omega

/-- A block whose header was written. -/
theorem WF.store_header (h : WF mb) : WF { mb with buf := mb.buf.store 0 mb.header } ∧
      ({ mb with buf := mb.buf.store 0 mb.header } : MetaBlock).entries = mb.entries ∧
      ({ mb with buf := mb.buf.store 0 mb.header } : MetaBlock).records = mb.records := by
  have hlen : mb.header.length = 12 := by simp [header_eq]
  have hslot : ∀ i, 12 ≤ slot i := fun i => Nat.le_add_right 12 _
  have hbuf : ∀ j, 12 ≤ j → mb.buf.store 0 mb.header j = mb.buf j := fun j hj =>
    Buffer.store_of_ge (by omega)
  have hentries : ({ mb with buf := mb.buf.store 0 mb.header } : MetaBlock).entries =
      mb.entries := by
    refine map_congr_left fun i _ => entryAt_congr fun k _ => hbuf _ ?_
    exact Nat.le_trans (hslot i) (Nat.le_add_right _ _)
  have hrec : ∀ e ∈ mb.entries, record (mb.buf.store 0 mb.header) e = record mb.buf e :=
    fun e he => record_congr fun k _ => hbuf _ (by
      have h1 := (h.inside e he).1
      have h2 : 12 ≤ mb.omin := Nat.le_add_right 12 _
      omega)
  have hrecords : ({ mb with buf := mb.buf.store 0 mb.header } : MetaBlock).records =
      mb.records := by
    rw [records, hentries]
    exact map_congr_left hrec
  refine ⟨⟨h.small, h.omin_le, h.size_le, h.nindex_le, ?_, ?_, ?_, ?_, ?_⟩, hentries, hrecords⟩
  · rw [hentries]
    exact h.inside
  · rw [hentries]
    exact fun e he => by
      show IsRecord (record (mb.buf.store 0 mb.header) e)
      rw [hrec e he]
      exact h.isRecord e he
  · rw [hentries]
    exact h.apart
  · rw [hentries]
    exact h.free_eq
  · rw [hrecords]
    exact h.sorted

/-- **What was written is read again.** -/
theorem WF.reread (h : WF mb) (hb : mb.botch = false) :
    mbPack mb = some { mb with buf := mb.buf.store 0 mb.header } ∧
      mbUnpack (mb.buf.store 0 mb.header) mb.maxsize =
        some { mb with buf := mb.buf.store 0 mb.header } := by
  obtain ⟨hwf, -, -⟩ := h.store_header
  have hsmall := h.small
  have hsz := h.size_le
  have ho := h.omin_le
  have hn := h.nindex_le
  have homin : mb.omin = 12 + mb.maxindex * 4 := rfl
  obtain ⟨hf0, hf1⟩ := h.free_nonneg
  obtain ⟨hm, h4, h6, h8, h10⟩ := load_header mb (by omega) hf0 (by omega) (by omega) (by omega)
  refine ⟨by rw [mbPack, hb]; rfl, ?_⟩
  rw [mbUnpack, if_neg (by omega), unpackBlock]
  simp only [hm, h4, h6, h8, h10, ne_eq, not_true_eq_false, false_and, if_false, decide_false]
  rw [if_neg (Nat.not_lt.2 hsz), if_neg (by
    show ¬mb.maxsize < mb.omin
    omega), if_pos, hb]
  refine all_eq_true.2 fun i hi => ?_
  have hmem : entryAt (mb.buf.store 0 mb.header) i ∈
      ({ mb with buf := mb.buf.store 0 mb.header } : MetaBlock).entries := mem_map_of_mem hi
  obtain ⟨h1, h2⟩ := hwf.inside _ hmem
  have h3 := hwf.size_le_entry hmem
  have hrec := (hwf.isRecord _ hmem).2
  rw [record, Buffer.take_load _ _ (by omega)] at hrec
  have h1' : mb.omin ≤ (entryAt (mb.buf.store 0 mb.header) i).p := h1
  have h2' : (entryAt (mb.buf.store 0 mb.header) i).p +
    (entryAt (mb.buf.store 0 mb.header) i).size ≤ mb.size := h2
  rw [entryOk, Bool.and_eq_true]
  refine ⟨?_, by simpa using hrec⟩
  simp only [Bool.not_eq_true', Bool.or_eq_false_iff, decide_eq_false_iff_not, not_lt]
  exact ⟨⟨h1', h2'⟩, h3⟩

/-! ### Runs -/

/-- **Every edit** that the callers may make. -/
theorem WF.edit (h : WF mb) (e : Edit) (hok : e.Ok mb) :
    ∃ mb', e.apply mb = some mb' ∧ Done mb mb' e := by
  cases e with
  | search elem =>
    refine ⟨mb, ?_, h, rfl, rfl, rfl, rfl⟩
    rcases h.search_iff elem with ⟨⟨i, me, h1, -⟩, -⟩ | ⟨⟨i, h1⟩, -⟩
    · rw [Edit.apply, h1, Option.map_some]
    · rw [Edit.apply, h1, Option.map_some]
  | alloc dir => exact h.allocEntry hok.1 hok.2
  | resize oelem dir elsewhere => exact h.resizeEntry hok elsewhere
  | delete elem => exact h.deleteEntry elem
  | reread =>
    obtain ⟨h1, h2⟩ := h.reread hok
    obtain ⟨hwf, -, hrec⟩ := h.store_header
    refine ⟨_, ?_, hwf, rfl, rfl, rfl, hrec⟩
    rw [Edit.apply, h1]
    exact h2

/-- Where a run begins: a fresh block, or a well-formed one that was read, in the new or in
the old order. -/
inductive Starts : MetaBlock → Prop
  /-- `mbInit`. -/
  | init (p : Buffer) (n ne : ℕ) (hne : metaHeaderSize + ne * metaIndexSize ≤ n)
    (hn : n < 65536) : Starts (mbInit p n ne)
  /-- `mbUnpack`. -/
  | unpack (p : Buffer) (n : ℕ) (mb : MetaBlock) (h : mbUnpack p n = some mb) (hwf : WF mb) :
    Starts mb

/-- What a metadata block is to its callers. -/
structure Sound (mb : MetaBlock) : Prop where
  /-- The names are sorted, without repetition. -/
  sorted : mb.names.Pairwise fun a b => key mb.botch a < key mb.botch b
  /-- The entries do not overlap. -/
  apart : mb.entries.Pairwise fun a b => a.p + a.size ≤ b.p ∨ b.p + b.size ≤ a.p
  /-- They lie behind header and table, and before the end. -/
  inside : ∀ e ∈ mb.entries,
    metaHeaderSize + mb.maxindex * metaIndexSize ≤ e.p ∧ e.p + e.size ≤ mb.size
  /-- The free space is exact. -/
  free_eq : mb.free = mb.size - (metaHeaderSize + mb.maxindex * metaIndexSize : ℕ) -
    ((mb.entries.map MetaEntry.size).sum : ℕ)
  size_le : mb.size ≤ mb.maxsize
  /-- `metaChunks` does not fail. -/
  metaChunks_ne : metaChunks mb ≠ none
  /-- A name that is there is found with its entry, any other name is not found. -/
  search : ∀ elem : Str,
    (∃ i me, mbSearch mb elem = some (.found i me) ∧ mb.entries[i]? = some me ∧
      mb.names[i]? = some elem.1) ∧ elem.1 ∈ mb.names ∨
    (∃ i, mbSearch mb elem = some (.absent i)) ∧ elem.1 ∉ mb.names

theorem WF.sound (h : WF mb) : Sound mb where
  sorted := pairwise_map.2 h.sorted
  apart := h.apart
  inside := h.inside
  free_eq := h.free_eq
  size_le := h.size_le
  metaChunks_ne := by
    rw [h.metaChunks]
    exact Option.some_ne_none _
  search := h.search_iff

theorem Starts.wf (h : Starts mb) : WF mb := by
  cases h with
  | init p n ne hne hn => exact wf_mbInit p hne hn
  | unpack p n mb h hwf => exact hwf

/-- **A metadata block is a sorted map with exact space accounting**: after every run of edits
that its callers may make. The next edit fails no assertion, and changes no record but the one
it is about. -/
theorem sorted_map {mb₀ : MetaBlock} {edits : List Edit} (h₀ : Starts mb₀)
    (hrun : Run (Guarded Edit.Ok Edit.Step) mb₀ edits mb) :
    Sound mb ∧ ∀ e : Edit, e.Ok mb → ∃ mb', e.apply mb = some mb' ∧ e.Effect mb mb' := by
  have hwf : WF mb := hrun.guarded_inv (fun mb e mb' hwf hok hstep => by
    obtain ⟨mb'', h1, h2⟩ := hwf.edit e hok
    obtain rfl := Option.some.inj (h1.symm.trans hstep)
    exact h2.wf) h₀.wf
  refine ⟨hwf.sound, fun e hok => ?_⟩
  obtain ⟨mb', h1, h2⟩ := hwf.edit e hok
  exact ⟨mb', h1, h2.effect⟩

/-- An entry with a name of one letter, and a group of `n`. -/
def ofGroup (n : ℕ) : DirEntry where
  elem := letters 1
  entry := 0
  gen := 0
  mentry := 1
  mgen := 0
  qid := 1
  uid := letters 1
  gid := letters n
  mid := letters 1
  mtime := 0
  mcount := 0
  ctime := 0
  atime := 0
  mode := 0
  qidSpace := none

/-- A run: the entry is put into a fresh block and made longer; the block is written and read
again; and the entry is taken out. -/
theorem sorted_map_ofGroup : ∃ mb,
    Run (Guarded Edit.Ok Edit.Step) (mbInit (fun _ => 0) 512 5)
      [.alloc (ofGroup 1), .resize (letters 1) (ofGroup 9) false, .reread, .delete (letters 1)] mb ∧
      Sound mb ∧ ∀ e : Edit, e.Ok mb → ∃ mb', e.apply mb = some mb' ∧ e.Effect mb mb' := by
  have h₀ : Starts (mbInit (fun _ => 0) 512 5) := .init _ 512 5 (by decide) (by decide)
  have hok₁ : (Edit.alloc (ofGroup 1)).Ok (mbInit (fun _ => 0) 512 5) :=
    ⟨by decide, List.not_mem_nil⟩
  obtain ⟨mb₁, h₁, hd₁⟩ := h₀.wf.edit _ hok₁
  have hok₂ : (Edit.resize (letters 1) (ofGroup 9) false).Ok mb₁ := .inl rfl
  obtain ⟨mb₂, h₂, hd₂⟩ := hd₁.wf.edit _ hok₂
  have hok₃ : Edit.reread.Ok mb₂ := hd₂.botch_eq.trans hd₁.botch_eq
  obtain ⟨mb₃, h₃, hd₃⟩ := hd₂.wf.edit _ hok₃
  have hok₄ : (Edit.delete (letters 1)).Ok mb₃ := trivial
  obtain ⟨mb₄, h₄, -⟩ := hd₃.wf.edit _ hok₄
  have hrun : Run (Guarded Edit.Ok Edit.Step) _ [_, _, _, _] mb₄ :=
    .cons ⟨hok₁, h₁⟩ (.cons ⟨hok₂, h₂⟩ (.cons ⟨hok₃, h₃⟩ (.cons ⟨hok₄, h₄⟩ (.nil _))))
  exact ⟨mb₄, hrun, sorted_map h₀ hrun⟩

end Vac

end Fossil

end Plan9
