import Mathlib.Data.Nat.ModEq
import Plan9.Libc.FcallCodec

/-!
# 9P messages from outside

`convM2S` on arbitrary bytes: its reads and writes stay inside the message, and what it accepts is
canonical. The one exception is the count of four bytes of `Twrite` and `Rread`, with which the
pointer is moved before it is compared: it may carry the pointer around the address space.

* `Plan9.Libc.Message.safe_iff` – decoding is safe and canonical unless that happens.
-/

namespace Plan9

namespace Libc

open Lib List

open LibVenti (CString)

/-! ### Messages from outside -/

/-- Memory that may hold a message. -/
structure Message where
  place : Place
  bytes : List UInt8
  length_bytes : bytes.length = place.nap

namespace Message

/-- The number on `k` bytes at an offset. -/
def num (m : Message) (i k : ℕ) : ℕ := leVal ((m.bytes.drop i).take k)

/-- The offset of the data in the messages whose data has a count of four bytes. -/
def dataOffset : MsgType → Option ℕ
  | .twrite => some 23
  | .rread => some 11
  | _ => none

/-- The count carries the pointer around the address space, and the size of the message agrees with
that. -/
def Wraps (m : Message) : Prop :=
  ∃ t o, MsgType.ofCode (UInt8.ofNat (m.num 4 1)) = some t ∧ o ∈ dataOffset t ∧ o ≤ m.bytes.length ∧
    7 ≤ m.num 0 4 ∧ m.place.width.space < m.place.addr + (o + m.num (o - 4) 4) ∧
    m.num 0 4 % m.place.width.space = (o + m.num (o - 4) 4) % m.place.width.space

/-- **Decoding is safe and canonical**: no memory but that of the message is touched, strings are
terminated inside the message, and if no string contains a zero the structure is written again to
any buffer that it fits as the same bytes. -/
def Safe (m : Message) : Prop :=
  ∀ f, match convM2S m.place.region m.bytes f with
    | .error .wild => False
    | .error .refused => True
    | .ok (n, g, mem) =>
      n ≤ m.bytes.length ∧ ∃ t, MsgType.ofCode g.type = some t ∧ g.nelems t ≤ maxwelem ∧
        (∀ p, .str p ∈ g.fields t → m.place.addr ≤ p ∧ ∃ j, p ≤ j ∧ j < m.place.addr + n ∧
          mem[j - m.place.addr]? = some 0) ∧
        ((∀ p, .str p ∈ g.fields t → 0 ∉ Val.counted m.place.addr m.bytes p) →
          ∀ nap, n ≤ nap → nap < 2 ^ 32 →
            convS2M (resolve m.place.addr mem g) nap = .ok (n, m.bytes.take n))

theorem holds (m : Message) : m.place.region.Holds m.bytes := by
  have h := m.place.addr_lt
  rwa [← m.length_bytes] at h

/-- A number of a message. -/
theorem num_eq {m : Message} (us : List (Val (List UInt8))) {vs : List (Val (List UInt8))}
    {post : List UInt8} {k v i : ℕ} (h : m.bytes = Val.wire (us ++ .num k v :: vs) ++ post)
    (hv : v < 256 ^ k) (hi : (Val.wire us).length = i) : m.num i k = v := by
  have hlen : (Val.num k v).bytes.length = k := length_leBytes k v
  rw [num, h, Val.wire_append, Val.wire_cons, append_assoc, append_assoc,
    drop_left' hi, take_left' hlen]
  exact leVal_leBytes hv

theorem drop_eq (m : Message) {i k : ℕ} (h : i + k ≤ m.bytes.length) :
    m.bytes.drop i = (Val.num k (m.num i k)).bytes ++ m.bytes.drop (i + k) := by
  have hlen : ((m.bytes.drop i).take k).length = k := by
    rw [length_take, length_drop]
    omega
  rw [Val.bytes, num, leBytes_leVal_of_length hlen, ← drop_drop, take_append_drop]

variable {m : Message} {n : ℕ} {g : MFcall} {t : MsgType} {ws : List (Val (List UInt8))}
  {b : Option ℕ} {post : List UInt8}

/-- If bulk data is missing then its length wraps around. -/
theorem wraps_of_accepted (h : Accepted m.place.region m.bytes n g t ws b post) {k : ℕ}
    (hk : k ∈ b) (hlt : post.length < k) : m.Wraps := by
  obtain rfl : b = some k := hk
  have hlen := h.length_mem
  have hr := m.holds
  have hbound : m.place.width.space ≤ m.place.addr + (7 + (Val.wire ws).length) + k :=
    (h.bounds k rfl).resolve_left (Nat.not_le.2 hlt)
  have hlast : (m.place.addr + n) % m.place.width.space =
      (m.place.addr + (7 + (Val.wire ws).length) + k) % m.place.width.space := h.last
  have hne : m.place.width.space ≠ m.place.addr + (7 + (Val.wire ws).length) + k :=
    fun heq => h.ne_zero (by
      change (m.place.addr + _ + k) % m.place.width.space = 0; rw [← heq, Nat.mod_self])
  have hn : m.num 0 4 = n := num_eq [] h.split h.size_lt rfl
  have htype : MsgType.ofCode (UInt8.ofNat (m.num 4 1)) = some t := by
    rw [num_eq [.num 4 n] h.split g.type.toNat_lt (by simp [Val.bytes]), UInt8.ofNat_toNat, h.type]
  have hwrap : ∀ o, o = 7 + (Val.wire ws).length → o ∈ dataOffset t → m.num (o - 4) 4 = k →
      m.Wraps := by
    rintro o rfl ho hcount
    refine ⟨t, _, htype, ho, by omega, hn ▸ h.le_size, ?_, ?_⟩
    · rw [hcount]
      omega
    · rw [hn, hcount]
      rw [Nat.add_assoc] at hlast
      exact Nat.ModEq.add_left_cancel' _ hlast
  have hshort : ∀ x : UInt16, x.toNat = k → False := by
    rintro x rfl
    have := x.toNat_lt
    rw [Region.Holds] at hr
    change m.place.addr + m.bytes.length + 65536 < m.place.width.space at hr
    omega
  have hbulk := h.bulk
  have hfields := h.fields.symm
  cases t
  case twrite =>
    obtain rfl := eq_nums_of_places (l := [(4, _), (8, _), (4, _)]) hfields.symm
    obtain rfl : g.count.toNat = k := congrArg Prod.fst (Option.some.inj hbulk)
    exact hwrap 23 (by simp [Val.bytes]) rfl (num_eq [.num 4 n, .num 1 g.type.toNat,
      .num 2 g.tag.toNat, .num 4 g.fid.toNat, .num 8 g.offset.toNat] h.split g.count.toNat_lt
      (by simp [Val.bytes]))
  case rread =>
    obtain rfl := eq_nums_of_places (l := [(4, _)]) hfields.symm
    obtain rfl : g.count.toNat = k := congrArg Prod.fst (Option.some.inj hbulk)
    exact hwrap 11 (by simp [Val.bytes]) rfl (num_eq [.num 4 n, .num 1 g.type.toNat,
      .num 2 g.tag.toNat] h.split g.count.toNat_lt (by simp [Val.bytes]))
  case twstat | rstat =>
    exact (hshort g.nstat (congrArg Prod.fst (Option.some.inj hbulk))).elim
  all_goals cases hbulk

theorem safe_of_not_wraps (hm : ¬m.Wraps) : m.Safe := by
  intro f
  rcases convM2S_accepted m.holds f with h | ⟨n, g, t, ws, b, post, h, hconv⟩
  · rw [h]
    trivial
  · have hb : ∀ k ∈ b, k ≤ post.length :=
      fun k hk => Nat.not_lt.1 fun hlt => hm (wraps_of_accepted h hk hlt)
    have hspace := m.place.width.le_space
    have hsize := h.size_eq m.holds hspace hb
    have hlen := h.length_mem
    have hdata : b.getD 0 ≤ post.length := by
      cases b with
      | none => exact Nat.zero_le _
      | some k => exact hb k rfl
    rw [hconv]
    refine ⟨by omega, t, h.type, h.nelems, fun p hp => ?_, fun hzero nap hle hnap => ?_⟩
    · obtain ⟨s, -, hle, hlt, hterm⟩ := h.terminated hp
      refine ⟨hle, p + s.length, Nat.le_add_right _ _, ?_, hterm⟩
      change _ < m.place.addr + (7 + (Val.wire ws).length) at hlt
      omega
    · refine h.convS2M_resolve m.holds hspace hb (fun s hs => ?_) hle hnap
      obtain ⟨p, hp, hcount⟩ := h.exists_place hs
      exact hcount ▸ hzero p hp

theorem length_sent_places {a : ℕ} {e : ℕ → Option CString} (h : ∀ s, .str s ∉ ws) :
    (((Val.places a ws).map (Val.map e)).flatMap sent).length = (Val.wire ws).length := by
  induction ws generalizing a with
  | nil => rfl
  | cons w ws ih =>
    cases w with
    | num k v =>
      rw [Val.places_cons, map_cons, flatMap_cons, length_append,
        ih fun s hs => h s (mem_cons_of_mem _ hs), Val.wire_cons, length_append]
      rfl
    | str s => exact absurd mem_cons_self (h s)

theorem not_str_places {a p : ℕ} (h : ∀ s, .str s ∉ ws) : .str p ∉ Val.places a ws := by
  intro hp
  obtain ⟨s, hs, -⟩ := Val.terminated_places (replicate a 0) []
    (by rw [length_replicate, Nat.zero_add]) hp
  exact h s hs

/-- A message is accepted although its count wraps around, and cannot be written again. -/
theorem not_safe_of_wire {f : SFcall} {k o : ℕ} (ht : MsgType.ofCode f.type = some t)
    (hf : f.nelems t ≤ maxwelem) (hstr : ∀ s, .str s ∉ f.fields t) (hsplit : m.bytes =
      Val.wire (frame n f.type f.tag ((f.fields t).map (Val.map cbytes))) ++ post)
    (hbulk : (f.bulk t).map Prod.fst = some k) (hk : k < 2 ^ 32) (hn : 7 ≤ n) (hn' : n < 2 ^ 32)
    (ho : 7 + (Val.wire ((f.fields t).map (Val.map cbytes))).length = o)
    (hwrap : m.place.width.space < m.place.addr + (o + k))
    (hmod : n % m.place.width.space = (o + k) % m.place.width.space) : ¬m.Safe := by
  intro hsafe
  have hr := m.holds
  have hspace := m.place.width.le_space
  have hlen : o + post.length = m.bytes.length := by
    rw [hsplit, length_append, length_wire_frame, ho]
  have hnap := m.length_bytes
  have hroom : m.place.addr + m.bytes.length + 65536 < m.place.width.space := hr
  have hstr' : ∀ s, .str s ∉ (f.fields t).map (Val.map cbytes) := by
    intro s hs
    obtain ⟨v, hv, hvs⟩ := mem_map.1 hs
    cases v with
    | num => cases hvs
    | str s => exact hstr s hv
  have hwire : (Val.wire
    (frame n f.type f.tag ((f.fields t).map (Val.map cbytes)))).length = o := by
    rw [length_wire_frame, ho]
  obtain ⟨⟨n', g⟩, hok, rfl, -, -, hcode, -, hg, hvs, hb⟩ :=
    takes_parse (r := m.place.region) n (Fcall.zero 0 0) ht hn hn' hf
      (fun s hs => absurd hs (hstr s)) [] post (hsplit ▸ hr) (by
        rw [hbulk]
        intro j hj
        obtain rfl := Option.mem_some_iff.1 hj
        refine .inr ⟨?_, hk.le.trans hspace⟩
        change m.place.width.space ≤ m.place.addr + 0 + (Val.wire (frame ..)).length + k
        rw [hwire]
        omega)
  have hp : (m.place.addr + (o + k)) % m.place.width.space =
      m.place.addr + (o + k) - m.place.width.space := by
    rw [Nat.mod_eq_sub_mod hwrap.le, Nat.mod_eq_of_lt (by omega)]
  change (parse m.place.region (Fcall.zero 0 0)).run (.between m.place.region []
    (Val.wire (frame n' ..) ++ post)) = .ok (_, ⟨(m.place.addr + 0 + (Val.wire (frame ..)).length +
      ((f.bulk t).map Prod.fst).getD 0) % m.place.width.space, _⟩) at hok
  rw [← hsplit, hwire, hbulk, Option.getD_some, Nat.add_zero, Nat.add_assoc, hp] at hok
  have hconv := convM2S_of_parse hok
  have hlast : (m.place.addr + n') % m.place.width.space =
      m.place.addr + (o + k) - m.place.width.space := by
    rw [← hp]
    exact Nat.ModEq.add_left _ hmod
  change _ = if m.place.addr + (o + k) - m.place.width.space = 0 ∨
    m.place.addr + (o + k) - m.place.width.space > m.place.addr + m.bytes.length then _
    else if (m.place.addr + n') % m.place.width.space =
      m.place.addr + (o + k) - m.place.width.space then _ else _ at hconv
  rw [if_neg (by omega), if_pos hlast] at hconv
  have hplaces : Val.places (m.place.addr + 7) ((f.fields t).map (Val.map cbytes)) =
    g.fields t := by
    change Val.places (m.place.addr + 0) (frame n' f.type f.tag _) = _ at hvs
    rw [places_frame] at hvs
    exact (cons.inj (cons.inj (cons.inj hvs).2).2).2
  have hsafe' := hsafe (Fcall.zero 0 0)
  rw [hconv] at hsafe'
  obtain ⟨hle, t', ht', -, -, hagain⟩ := hsafe'
  obtain rfl : t = t' := Option.some.inj (hcode.symm.trans ht')
  have hwrite := hagain (fun p hp => absurd hp (hplaces ▸ not_str_places hstr')) m.place.nap
    (by omega) m.place.nap_lt
  have hmsg : ∀ mem, ((resolve m.place.addr mem g).msg t).length = o + k := by
    intro mem
    have hcount : ((g.bulk t).map fun b => b.1) = some k := by
      rw [← hb, hbulk]
      rfl
    rw [Fcall.length_msg, resolve, Fcall.fields_map, ← hplaces, length_sent_places hstr', ho,
      Fcall.bulk_map, Option.map_map]
    exact congrArg (fun b : Option ℕ => o + b.getD 0) hcount
  rw [convS2M_eq hcode hg m.place.nap_lt] at hwrite
  split_ifs at hwrite with hsize hroom'
  rw [hmsg] at hroom'
  omega

theorem not_safe_of_wraps (h : m.Wraps) : ¬m.Safe := by
  obtain ⟨t, o, ht, ho, hle, hn, hwrap, hmod⟩ := h
  have hlt : ∀ i k, m.num i k < 256 ^ k := by
    intro i k
    refine (leVal_lt _).trans_le (Nat.pow_le_pow_right (by norm_num) ?_)
    rw [length_take]
    exact Nat.min_le_left _ _
  have h8 : ∀ i, (UInt8.ofNat (m.num i 1)).toNat = m.num i 1 :=
    fun i => UInt8.toNat_ofNat_of_lt' (hlt i 1)
  have h16 : ∀ i, (UInt16.ofNat (m.num i 2)).toNat = m.num i 2 :=
    fun i => UInt16.toNat_ofNat_of_lt' (hlt i 2)
  have h32 : ∀ i, (UInt32.ofNat (m.num i 4)).toNat = m.num i 4 :=
    fun i => UInt32.toNat_ofNat_of_lt' (hlt i 4)
  have h64 : ∀ i, (UInt64.ofNat (m.num i 8)).toNat = m.num i 8 :=
    fun i => UInt64.toNat_ofNat_of_lt' (hlt i 8)
  have hhead : 7 ≤ m.bytes.length → m.bytes = (Val.num 4 (m.num 0 4)).bytes ++
      ((Val.num 1 (UInt8.ofNat (m.num 4 1)).toNat).bytes ++
        ((Val.num 2 (UInt16.ofNat (m.num 5 2)).toNat).bytes ++ m.bytes.drop 7)) := by
    intro h
    rw [h8, h16, ← m.drop_eq (by omega), ← m.drop_eq (by omega), ← m.drop_eq (by omega)]
    exact drop_zero.symm
  cases t
  case twrite =>
    obtain rfl : 23 = o := Option.some.inj ho
    let f : SFcall := { Fcall.zero none fun _ => 0 with
      type := UInt8.ofNat (m.num 4 1), tag := UInt16.ofNat (m.num 5 2),
      fid := UInt32.ofNat (m.num 7 4), offset := UInt64.ofNat (m.num 11 8),
      count := UInt32.ofNat (m.num 19 4) }
    have hbody : m.bytes.drop 7 = Val.wire ((f.fields .twrite).map (Val.map cbytes)) ++
        m.bytes.drop 23 := by
      change _ = (Val.num 4 (UInt32.ofNat (m.num 7 4)).toNat).bytes ++
        ((Val.num 8 (UInt64.ofNat (m.num 11 8)).toNat).bytes ++
          ((Val.num 4 (UInt32.ofNat (m.num 19 4)).toNat).bytes ++ [])) ++ _
      rw [h32, h64, h32, append_nil, append_assoc, append_assoc,
        ← m.drop_eq hle, ← m.drop_eq (by omega), ← m.drop_eq (by omega)]
    exact not_safe_of_wire (f := f) ht (Nat.zero_le _) (by simp [Fcall.fields])
      ((hhead (by omega)).trans
        (by rw [hbody]; simp only [frame, Val.wire_cons, append_assoc]; rfl))
      (congrArg some (h32 19)) (hlt _ _) hn (hlt _ _)
      (by simp [Fcall.fields, Val.bytes]) hwrap hmod
  case rread =>
    obtain rfl : 11 = o := Option.some.inj ho
    let f : SFcall := { Fcall.zero none fun _ => 0 with
      type := UInt8.ofNat (m.num 4 1), tag := UInt16.ofNat (m.num 5 2),
      count := UInt32.ofNat (m.num 7 4) }
    have hbody : m.bytes.drop 7 = Val.wire ((f.fields .rread).map (Val.map cbytes)) ++
        m.bytes.drop 11 := by
      change _ = (Val.num 4 (UInt32.ofNat (m.num 7 4)).toNat).bytes ++ [] ++ _
      rw [h32, append_nil, ← m.drop_eq hle]
    exact not_safe_of_wire (f := f) ht (Nat.zero_le _) (by simp [Fcall.fields])
      ((hhead (by omega)).trans
        (by rw [hbody]; simp only [frame, Val.wire_cons, append_assoc]; rfl))
      (congrArg some (h32 7)) (hlt _ _) hn (hlt _ _)
      (by simp [Fcall.fields, Val.bytes]) hwrap hmod
  all_goals cases ho

/-- **What `convM2S` accepts is canonical**, and no memory but that of the message is touched,
unless a count carries the pointer past the end of the address space. -/
theorem safe_iff (m : Message) : m.Safe ↔ ¬m.Wraps :=
  ⟨fun h hm => not_safe_of_wraps hm h, safe_of_not_wraps⟩

/-- A write of almost 4 GB in 23 bytes, on a machine with 32-bit pointers: `convM2S` returns 7. -/
def longWrite : Message where
  place := ⟨.w32, 65536, 23, by norm_num, by norm_num [Width.space]⟩
  bytes := [7, 0, 0, 0, 118, 1, 0, 1, 0, 0, 0, 0, 0, 0, 0, 0, 0, 0, 0, 240, 255, 255, 255]
  length_bytes := rfl

theorem longWrite_unsafe : ¬longWrite.Safe :=
  not_safe_of_wraps ⟨.twrite, 23, by decide, rfl, by decide, by decide, by decide, by decide⟩

end Message

end Libc

end Plan9
