import Plan9.Libc.FcallRead

/-!
# What the codec of 9P messages writes and accepts

`convS2M` and `convM2S` as a whole, on buffers in memory.

* `Plan9.Libc.convS2M_eq` – what `convS2M` writes;
* `Plan9.Libc.convM2S_accepted` – what `convM2S` accepts;
* `Plan9.Libc.Accepted.convS2M_resolve` – what has been accepted is written again.
-/

namespace Plan9

namespace Libc

open Lib List

open LibVenti (CString)

/-! ### Memory -/

/-- How wide pointers are. -/
inductive Width where
  | w32
  | w64
deriving DecidableEq

/-- The size of the address space. -/
def Width.space : Width → ℕ
  | w32 => 2 ^ 32
  | w64 => 2 ^ 64

theorem Width.le_space (w : Width) : 2 ^ 32 ≤ w.space := by
  cases w <;> norm_num [Width.space]

/-- A buffer in memory: its length is a `uint`, and the last 64 KB of the address space are not
used. -/
structure Place where
  width : Width
  addr : ℕ
  nap : ℕ
  nap_lt : nap < 2 ^ 32
  addr_lt : addr + nap + 65536 < width.space

/-- The region a buffer is in. -/
def Place.region (b : Place) : Region := ⟨b.width.space, b.addr⟩

/-! ### What is written -/

/-- The message of a structure. -/
def Fcall.msg (f : SFcall) (t : MsgType) : List UInt8 :=
  leBytes 4 (f.size t % 2 ^ 32) ++ (leBytes 1 f.type.toNat ++ (leBytes 2 f.tag.toNat ++ f.body t))

theorem Fcall.length_bulkBytes (f : SFcall) (t : MsgType) :
    ((f.bulkBytes t).getD []).length = ((f.bulk t).map Prod.fst).getD 0 := by
  rw [Fcall.bulkBytes]
  cases f.bulk t with
  | none => rfl
  | some b => exact Buffer.length_load ..

theorem Fcall.length_msg (f : SFcall) (t : MsgType) : (f.msg t).length =
      7 + ((f.fields t).flatMap sent).length + ((f.bulk t).map Prod.fst).getD 0 := by
  rw [Fcall.msg, Fcall.body]
  simp only [length_append, length_leBytes, f.length_bulkBytes t]
  omega

/-- The message has the size that has been computed, but for what is cut off. -/
theorem Fcall.length_msg_mod (f : SFcall) (t : MsgType) :
    (f.msg t).length % 2 ^ 32 = f.size t % 2 ^ 32 := by
  have h := length_flatMap_sent_mod (f.fields t)
  rw [f.length_msg t, Fcall.size]
  omega

variable {f : SFcall} {t : MsgType} {nap : ℕ}

theorem writes_writeMsg (ht : MsgType.ofCode f.type = some t) (hn : f.nelems t ≤ maxwelem) :
    Writes nap (writeMsg nap f (f.size t % 2 ^ 32)) (f.msg t) := by
  refine (writes_put _).bind ((writes_pbit8 _).bind ((writes_pbit16 _).bind ?_))
  rw [ht]
  exact writes_convBody f t hn

/-- **What `convS2M` does** for a structure whose elements fit its arrays. -/
theorem convS2M_eq (ht : MsgType.ofCode f.type = some t) (hn : f.nelems t ≤ maxwelem)
    (hnap : nap < 2 ^ 32) :
    convS2M f nap = if f.size t % 2 ^ 32 = 0 ∨ nap < f.size t % 2 ^ 32 then .error .refused
      else if (f.msg t).length ≤ nap then .ok ((f.msg t).length, f.msg t) else .error .wild := by
  have hrun : (writeMsg nap f (f.size t % 2 ^ 32)).run [] =
      if (f.msg t).length ≤ nap then .ok ((), f.msg t) else .error .wild := by
    refine (writes_writeMsg ht hn [] (Nat.zero_le _)).trans ?_
    rw [length_nil, Nat.zero_add, nil_append]
  rw [convS2M, sizeS2M_eq ht hn]
  change (if f.size t % 2 ^ 32 = 0 then _ else if f.size t % 2 ^ 32 > nap then _ else _) = _
  by_cases hzero : f.size t % 2 ^ 32 = 0
  · rw [if_pos hzero, if_pos (.inl hzero)]
    rfl
  by_cases hlarge : nap < f.size t % 2 ^ 32
  · rw [if_neg hzero, if_pos hlarge, if_pos (.inr hlarge)]
    rfl
  rw [if_neg hzero, if_neg hlarge, if_neg (not_or.2 ⟨hzero, hlarge⟩), hrun]
  split_ifs with hroom
  · have hsize : f.size t % 2 ^ 32 = (f.msg t).length := by
      rw [← f.length_msg_mod t]
      exact Nat.mod_eq_of_lt (hroom.trans_lt hnap)
    rw [hsize]
    exact if_neg (not_not.2 rfl)
  · rfl

/-- The values of a message, with its size, type and tag. -/
def frame (n : ℕ) (type : UInt8) (tag : UInt16) (ws : List (Val (List UInt8))) :
    List (Val (List UInt8)) :=
  .num 4 n :: .num 1 type.toNat :: .num 2 tag.toNat :: ws

theorem length_wire_frame (n : ℕ) (type : UInt8) (tag : UInt16) (ws : List (Val (List UInt8))) :
    (Val.wire (frame n type tag ws)).length = 7 + (Val.wire ws).length := by
  simp [frame, Val.bytes]
  omega

theorem places_frame (a n : ℕ) (type : UInt8) (tag : UInt16) (ws : List (Val (List UInt8))) :
    Val.places a (frame n type tag ws) =
      .num 4 n :: .num 1 type.toNat :: .num 2 tag.toNat :: Val.places (a + 7) ws := by
  simp [frame, Val.bytes, Val.place, Nat.add_assoc]

variable {a : ℕ}

theorem eq_num_of_place {k m : ℕ} {v : Val (List UInt8)} (h : v.place a = .num k m) :
    v = .num k m := by
  cases v with
  | num => exact congrArg id (by injection h with hk hm; rw [hk, hm])
  | str => cases h

/-- Numbers have no places. -/
theorem eq_nums_of_places {ws : List (Val (List UInt8))} {l : List (ℕ × ℕ)}
    (h : Val.places a ws = l.map fun x => .num x.1 x.2) : ws = l.map fun x => .num x.1 x.2 := by
  induction ws generalizing a l with
  | nil =>
    cases l with
    | nil => rfl
    | cons x l => cases h
  | cons w ws ih =>
    cases l with
    | nil => cases h
    | cons x l =>
      obtain ⟨hw, hws⟩ : _ ∧ _ := by
        simpa only [Val.places_cons, map_cons, cons.injEq] using h
      rw [eq_num_of_place hw, ih hws, map_cons]

/-- Values that begin like a message. -/
theorem eq_frame_of_places {n : ℕ} {type : UInt8} {tag : UInt16} {vs : List (Val (List UInt8))}
    {ps : List (Val ℕ)}
    (h : Val.places a vs = .num 4 n :: .num 1 type.toNat :: .num 2 tag.toNat :: ps) :
    ∃ ws, vs = frame n type tag ws ∧ Val.places (a + 7) ws = ps := by
  rcases vs with - | ⟨v, - | ⟨v', - | ⟨v'', ws⟩⟩⟩
  · cases h
  · injection h with _ h
    cases h
  · injection h with _ h
    injection h with _ h
    cases h
  · obtain ⟨h, h', h'', hws⟩ : _ ∧ _ ∧ _ ∧ _ := by
      simpa only [Val.places_cons, cons.injEq] using h
    obtain rfl := eq_num_of_place h
    obtain rfl := eq_num_of_place h'
    obtain rfl := eq_num_of_place h''
    refine ⟨ws, rfl, ?_⟩
    simpa [Val.bytes, Nat.add_assoc] using hws

/-- No string is too long for its length, and no count for the size of the message. -/
def Fcall.Short (f : SFcall) (t : MsgType) : Prop :=
  (∀ s, .str s ∈ f.fields t → (cbytes s).length < 65536) ∧ f.size t < 2 ^ 32

theorem Fcall.size_eq (f : SFcall) (t : MsgType) :
    f.size t = 7 + (Val.wire ((f.fields t).map (Val.map cbytes))).length +
      ((f.bulk t).map Prod.fst).getD 0 := by
  rw [Fcall.size, sum_valsz]

/-- **A message without what is cut off** is made of its values. -/
theorem Fcall.msg_eq (h : f.Short t) :
    f.msg t = Val.wire (frame (f.size t) f.type f.tag ((f.fields t).map (Val.map cbytes))) ++
      (f.bulkBytes t).getD [] := by
  rw [Fcall.msg, Fcall.body, Nat.mod_eq_of_lt h.2, flatMap_sent h.1]
  simp only [frame, Val.wire_cons, Val.bytes, append_assoc]

theorem Fcall.length_msg_of_short (h : f.Short t) : (f.msg t).length = f.size t := by
  rw [f.length_msg t, flatMap_sent h.1, f.size_eq t]

/-! ### What is accepted -/

/-- The structure that a program sees: strings up to their zero, and memory. -/
def resolve (addr : ℕ) (mem : List UInt8) (g : MFcall) : SFcall :=
  g.map (fun p => some (.read (mem.drop (p - addr)))) fun p i => (mem.drop (p - addr)).getD i 0

section Resolve

variable {addr n : ℕ} {g : MFcall} {t : MsgType} {ws : List (Val (List UInt8))} {b : Option ℕ}
  {post : List UInt8}

theorem load_getD {l : List UInt8} {k : ℕ} (h : k ≤ l.length) :
    Buffer.load (fun i => l.getD i 0) 0 k = l.take k := by
  refine ext_getElem ?_ fun i hi hi' => ?_
  · rw [Buffer.length_load, length_take, Nat.min_eq_left h]
  · rw [Buffer.length_load] at hi
    rw [Buffer.getElem_load, Nat.zero_add, getElem_take, getD_eq_getElem]

/-- The memory as the structure sees it: three values, the others, and what is behind them. -/
theorem cooked_frame (type : UInt8) (tag : UInt16) : Val.cooked (frame n type tag ws) ++ post =
      Val.cooked (frame n type tag []) ++ (Val.cooked ws ++ post) := by
  simp [frame]

theorem length_cooked_frame (type : UInt8) (tag : UInt16) :
    (Val.cooked (frame n type tag [])).length = 7 := by
  rw [Val.length_cooked, length_wire_frame]
  rfl

/-- **The values** of the structure, if its strings contain no zero. -/
theorem fields_resolve (n : ℕ) (post : List UInt8) (h : Val.places (addr + 7) ws = g.fields t)
    (hzero : ∀ s, .str s ∈ ws → 0 ∉ s) (type : UInt8) (tag : UInt16) :
    ((resolve addr (Val.cooked (frame n type tag ws) ++ post) g).fields t).map (Val.map cbytes) =
      ws := by
  have hread := Val.map_read_places (a := addr + 7) (Val.cooked (frame n type tag [])) post
    (by rw [length_cooked_frame]) hzero
  rw [← cooked_frame, h] at hread
  rw [resolve, Fcall.fields_map, map_map]
  refine (map_congr_left fun v _ => ?_).trans hread
  cases v <;> rfl

/-- **The bulk data** of the structure. -/
theorem bulkBytes_resolve (n : ℕ)
    (h : g.bulk t = b.map fun k => (k, addr + (7 + (Val.wire ws).length)))
    (hb : ∀ k ∈ b, k ≤ post.length) (type : UInt8) (tag : UInt16) :
    (resolve addr (Val.cooked (frame n type tag ws) ++ post) g).bulkBytes t = b.map post.take := by
  rw [Fcall.bulkBytes, resolve, Fcall.bulk_map, h, Option.map_map, Option.map_map]
  cases b with
  | none => rfl
  | some k =>
    have hlen : (Val.cooked (frame n type tag ws)).length = 7 + (Val.wire ws).length := by
      rw [Val.length_cooked, length_wire_frame]
    have hdrop : (Val.cooked (frame n type tag ws) ++ post).drop
        (addr + (7 + (Val.wire ws).length) - addr) = post := by
      rw [Nat.add_sub_cancel_left, drop_left' hlen]
    refine congrArg some ((load_getD (k := k) ?_).trans ?_)
    · rw [hdrop]
      exact hb k rfl
    · rw [hdrop]

end Resolve

/-- **An accepted message** of type `t`: the structure `g` holds its values, and the places of its
strings and of its `b` bytes of bulk data. -/
structure Accepted (r : Region) (mem : List UInt8) (n : ℕ) (g : MFcall) (t : MsgType)
    (ws : List (Val (List UInt8))) (b : Option ℕ) (post : List UInt8) : Prop where
  type : MsgType.ofCode g.type = some t
  le_size : 7 ≤ n
  nelems : g.nelems t ≤ maxwelem
  split : mem = Val.wire (frame n g.type g.tag ws) ++ post
  fits : ∀ v ∈ frame n g.type g.tag ws, v.Fits
  fields : Val.places (r.addr + 7) ws = g.fields t
  bulk : g.bulk t = b.map fun k => (k, r.addr + (7 + (Val.wire ws).length))
  bounds : ∀ k ∈ b, k ≤ post.length ∨ r.space ≤ r.addr + (7 + (Val.wire ws).length) + k
  ne_zero : (r.addr + (7 + (Val.wire ws).length) + b.getD 0) % r.space ≠ 0
  last : (r.addr + n) % r.space = (r.addr + (7 + (Val.wire ws).length) + b.getD 0) % r.space

theorem convM2S_of_parse {r : Region} {mem : List UInt8} {f g : MFcall} {n : ℕ} {c : Cursor}
    (h : (parse r f).run (.between r [] mem) = .ok ((n, g), c)) :
    convM2S r mem f = if c.p = 0 ∨ c.p > r.addr + mem.length then .error .refused
      else if (r.addr + n) % r.space = c.p then .ok (n, g, c.mem)
      else .error .refused := by
  change (parse r f).run ⟨r.addr, mem⟩ = _ at h
  rw [convM2S, h]
  rfl

/-- **What `convM2S` does**: it refuses, or it has accepted a message and has moved its strings. -/
theorem convM2S_accepted {r : Region} {mem : List UInt8} (hr : r.Holds mem) (f : MFcall) :
    convM2S r mem f = .error .refused ∨ ∃ n g t ws b post,
      Accepted r mem n g t ws b post ∧
        convM2S r mem f = .ok (n, g, Val.cooked (frame n g.type g.tag ws) ++ post) := by
  rcases walks_parse f [] mem hr (Nat.zero_le _) with
    h | ⟨vs, b, post, hmem, hfits, hb, ⟨n, g⟩, hok, t, ht, hsize, hn, hvs, hbulk⟩
  · left
    change (parse r f).run ⟨r.addr, mem⟩ = _ at h
    rw [convM2S, h]
    rfl
  · rw [length_nil, Nat.add_zero] at hvs hbulk hb hok
    obtain ⟨ws, rfl, hws⟩ := eq_frame_of_places hvs
    rw [length_wire_frame] at hbulk hb hok
    rw [← hmem, nil_append] at hok
    rw [convM2S_of_parse hok]
    split_ifs with hend hlast
    · exact .inl rfl
    · exact .inr ⟨n, g, t, ws, b, post, ⟨ht, hsize, hn, hmem, hfits, hws, hbulk.symm, hb,
        (not_or.1 hend).1, hlast⟩, rfl⟩
    · exact .inl rfl

namespace Accepted

variable {r : Region} {mem : List UInt8} {n : ℕ} {g : MFcall} {t : MsgType}
  {ws : List (Val (List UInt8))} {b : Option ℕ} {post : List UInt8}

variable (h : Accepted r mem n g t ws b post)

include h

theorem size_lt : n < 2 ^ 32 :=
  (h.fits _ mem_cons_self : n < 256 ^ 4)

theorem length_mem :
    mem.length = 7 + (Val.wire ws).length + post.length := by
  rw [h.split, length_append, length_wire_frame]

/-- The size is that of the values, if the bulk data lies in the memory. -/
theorem size_eq (hr : r.Holds mem) (hspace : 2 ^ 32 ≤ r.space)
    (hb : ∀ k ∈ b, k ≤ post.length) : n = 7 + (Val.wire ws).length + b.getD 0 := by
  have hn := h.size_lt
  have hlen := h.length_mem
  have hdata : b.getD 0 ≤ post.length := by
    cases b with
    | none => exact Nat.zero_le _
    | some k => exact hb k rfl
  have hlast := h.last
  rw [Region.Holds] at hr
  rw [Nat.mod_eq_of_lt (a := r.addr + (7 + (Val.wire ws).length) + b.getD 0) (by omega)] at hlast
  rcases Nat.lt_or_ge (r.addr + n) r.space with hlt | hge
  · rw [Nat.mod_eq_of_lt hlt] at hlast
    omega
  · rw [Nat.mod_eq_sub_mod hge, Nat.mod_eq_of_lt (by omega)] at hlast
    omega

/-- **What has been accepted is written again**, byte for byte. -/
theorem convS2M_resolve (hr : r.Holds mem)
    (hspace : 2 ^ 32 ≤ r.space) (hb : ∀ k ∈ b, k ≤ post.length) (hzero : ∀ s, .str s ∈ ws → 0 ∉ s)
    (hle : n ≤ nap) (hnap : nap < 2 ^ 32) :
    convS2M (resolve r.addr (Val.cooked (frame n g.type g.tag ws) ++ post) g) nap =
      .ok (n, mem.take n) := by
  have hsize := h.size_eq hr hspace hb
  have hfields := fields_resolve n post h.fields hzero g.type g.tag
  have hbulk := bulkBytes_resolve n h.bulk hb g.type g.tag
  generalize hf : resolve r.addr (Val.cooked (frame n g.type g.tag ws) ++ post) g = f
    at hfields hbulk
  have htype : f.type = g.type := hf ▸ rfl
  have htag : f.tag = g.tag := hf ▸ rfl
  have hn : f.nelems t ≤ maxwelem := by
    have h := h.nelems
    subst hf
    cases t <;> exact h
  have hdata : ((f.bulk t).map Prod.fst).getD 0 = b.getD 0 := by
    rw [← f.length_bulkBytes t, hbulk]
    cases b with
    | none => rfl
    | some k => exact length_take_of_le (hb k rfl)
  have hfsize : f.size t = n := by
    rw [f.size_eq t, hfields, hdata, hsize]
  have hshort : f.Short t := by
    refine ⟨fun s hs => ?_, hfsize.trans_lt h.size_lt⟩
    have hmem : .str (cbytes s) ∈ ws := hfields ▸ mem_map_of_mem hs
    exact h.fits _ (mem_cons_of_mem _ (mem_cons_of_mem _ (mem_cons_of_mem _ hmem)))
  have hmsg : f.msg t = mem.take n := by
    have hlen := length_wire_frame n g.type g.tag ws
    have htake : (b.map post.take).getD [] = post.take (b.getD 0) := by
      cases b <;> rfl
    rw [Fcall.msg_eq hshort, hfsize, hfields, htype, htag, hbulk, h.split, take_append,
      take_of_length_le (by omega), htake]
    congr 2
    omega
  rw [convS2M_eq (htype ▸ h.type) hn hnap, Fcall.length_msg_of_short hshort, hfsize,
    Nat.mod_eq_of_lt h.size_lt, if_neg, if_pos hle, hmsg]
  have := h.le_size
  omega

/-- The strings of the structure are terminated inside the message. -/
theorem terminated {p : ℕ} (hp : .str p ∈ g.fields t) :
    ∃ s, .str s ∈ ws ∧ r.addr ≤ p ∧ p + s.length < r.addr + (7 + (Val.wire ws).length) ∧
      (Val.cooked (frame n g.type g.tag ws) ++ post)[p + s.length - r.addr]? = some 0 := by
  rw [← h.fields] at hp
  rw [cooked_frame]
  obtain ⟨s, hs, hle, hlt, hzero⟩ := Val.terminated_places
    (Val.cooked (frame n g.type g.tag [])) post (by rw [length_cooked_frame]) hp
  exact ⟨s, hs, hle, by omega, hzero⟩

/-- Every string of the message has a place in the structure. -/
theorem exists_place {s : List UInt8} (hs : .str s ∈ ws) :
    ∃ p, .str p ∈ g.fields t ∧ Val.counted r.addr mem p = s := by
  have hsplit : mem = Val.wire (frame n g.type g.tag []) ++ (Val.wire ws ++ post) := by
    rw [h.split]
    simp [frame]
  rw [← h.fields, hsplit]
  exact Val.exists_place _ _ (by rw [length_wire_frame]; rfl) (fun w hw => h.fits w
    (mem_cons_of_mem _ (mem_cons_of_mem _ (mem_cons_of_mem _ hw)))) hs

/-- The strings of the structure fit their lengths. -/
theorem length_read_lt {p : ℕ} (hp : .str p ∈ g.fields t) :
    (Val.read r.addr (Val.cooked (frame n g.type g.tag ws) ++ post) p).length < 65536 := by
  rw [← h.fields] at hp
  rw [cooked_frame]
  obtain ⟨s, hs, hle⟩ := Val.length_read_le (Val.cooked (frame n g.type g.tag [])) post
    (by rw [length_cooked_frame]) hp
  exact hle.trans_lt (h.fits (.str s)
    (mem_cons_of_mem _ (mem_cons_of_mem _ (mem_cons_of_mem _ hs))))

end Accepted

end Libc

end Plan9
