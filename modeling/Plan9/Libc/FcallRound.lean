import Plan9.Libc.FcallCodec

/-!
# Round trips of 9P messages

What `convS2M` writes `convM2S` reads as the same structure, unless it has been cut off: the length
of a string is written on two bytes and the size of a message kept on four, whatever they are, and
`sizeS2M` follows `f->nwname` names before anything compares that with `MAXWELEM`.

* `Plan9.Libc.convM2S_msg` – a message comes back;
* `Plan9.Libc.s2m_m2s_iff` – which structures do.
-/

namespace Plan9

namespace Libc

open Lib List

open LibVenti (CString)

/-! ### Round trips -/

/-- The structures agree in every field that a message of their type carries; a null string is as
good as an empty one. -/
def Fcall.SameMsg (f g : SFcall) : Prop :=
  f.type = g.type ∧ f.tag = g.tag ∧ ∀ t, MsgType.ofCode f.type = some t →
    (f.fields t).map (Val.map cbytes) = (g.fields t).map (Val.map cbytes) ∧
      f.bulkBytes t = g.bulkBytes t

/-- **The round trip**: `convS2M` touches no memory but its own, and if it does not refuse the
structure it has written as many bytes as it returns and as the message begins with, which `convM2S`
reads as the same structure. -/
def RoundTrips (f : SFcall) (p : Place) : Prop :=
  match convS2M f p.nap with
  | .error .wild => False
  | .error .refused => True
  | .ok (n, out) => 0 < n ∧ n ≤ p.nap ∧ out.length = n ∧ leVal (out.take 4) = n ∧
      ∀ f', ∃ g mem, convM2S p.region out f' = .ok (n, g, mem) ∧
        f.SameMsg (resolve p.addr mem g)

/-- A structure that `convS2M` turns into a message or refuses: no more names than the array holds,
and either a size that is refused, or strings and a count that fit. -/
def Fcall.Codable (f : SFcall) (nap : ℕ) : Prop :=
  ∀ t, MsgType.ofCode f.type = some t → (t = .twalk → f.nwname.toNat ≤ maxwelem) ∧
    (f.size t % 2 ^ 32 = 0 ∨ nap < f.size t % 2 ^ 32 ∨ f.Short t)

section RoundTrip

variable {f : SFcall} {p : Place} {t : MsgType}

theorem roundTrips_of_refused (h : convS2M f p.nap = .error .refused) : RoundTrips f p := by
  rw [RoundTrips, h]
  trivial

theorem not_roundTrips_of_wild (h : convS2M f p.nap = .error .wild) : ¬RoundTrips f p := by
  rw [RoundTrips, h]
  exact id

variable {nap : ℕ}

/-- Without a legal type nothing is written. -/
theorem convS2M_of_none (ht : MsgType.ofCode f.type = none) :
    convS2M f nap = .error .refused := by
  rw [convS2M, sizeS2M_of_none ht]
  rfl

/-- Too many names are followed behind the array. -/
theorem convS2M_twalk (ht : MsgType.ofCode f.type = some .twalk) (hn : maxwelem < f.nwname.toNat) :
    convS2M f nap = .error .wild := by
  rw [convS2M, sizeS2M_wild ht hn]
  rfl

theorem Writes.bind_refused {e e' : Encoder Unit} {bs out : List UInt8} (h : Writes nap e bs)
    (hout : out.length + bs.length ≤ nap) (h' : e'.run (out ++ bs) = .error .refused) :
    (e >>= fun _ => e').run out = .error .refused := by
  rw [StateT.run_bind, h out (by omega), if_pos hout]
  exact h'

/-- Too many qids are refused. -/
theorem convS2M_rwalk (ht : MsgType.ofCode f.type = some .rwalk) (hn : maxwelem < f.nwqid.toNat) :
    convS2M f nap = .error .refused := by
  have hlt := f.nwqid.toNat_lt
  have hsize : sizeS2M f = .ok (9 + f.nwqid.toNat * 13) := by
    have h : sizeS2M f = .ok ((7 + (2 + f.nwqid.toNat * 13)) % 2 ^ 32) := by
      rw [sizeS2M, ht]
      rfl
    rw [h, Nat.mod_eq_of_lt (by omega)]
    congr 1
    omega
  rw [convS2M, hsize]
  change (if 9 + f.nwqid.toNat * 13 = 0 then _ else if 9 + f.nwqid.toNat * 13 > nap then
    _ else _) = _
  rw [if_neg (by omega)]
  split_ifs with hnap
  · rfl
  · have hrun : (writeMsg nap f (9 + f.nwqid.toNat * 13)).run [] = .error .refused := by
      rw [writeMsg, ht]
      refine (writes_put _).bind_refused ?_ ((writes_pbit8 _).bind_refused ?_
        ((writes_pbit16 _).bind_refused ?_ ((writes_pbit16 _).bind_refused ?_ ?_)))
      · simp
        omega
      · simp [sent]
        omega
      · simp [sent]
        omega
      · simp [sent]
        omega
      · rw [if_pos hn]
        rfl
    rw [hrun]
    rfl

/-- A C string contains no zero. -/
theorem zero_not_mem {vs : List (Val (Option CString))} {s : List UInt8}
    (h : .str s ∈ vs.map (Val.map cbytes)) : 0 ∉ s := by
  obtain ⟨v, -, hv⟩ := mem_map.1 h
  cases v with
  | num => cases hv
  | str c =>
    obtain rfl : cbytes c = s := by injection hv
    cases c with
    | none => exact not_mem_nil
    | some c => exact c.noZero

/-- **A message comes back** as the structure that it was. -/
theorem convM2S_msg (ht : MsgType.ofCode f.type = some t) (hn : f.nelems t ≤ maxwelem)
    (hs : f.Short t) (hnap : (f.msg t).length ≤ p.nap) (f' : MFcall) :
    ∃ g mem, convM2S p.region (f.msg t) f' = .ok (f.size t, g, mem) ∧
      f.SameMsg (resolve p.addr mem g) := by
  have hspace := p.width.le_space
  have haddr := p.addr_lt
  have hlen := Fcall.length_msg_of_short hs
  have hsize := f.size_eq t
  have hdata := f.length_bulkBytes t
  have hholds : p.region.Holds (f.msg t) := by
    change p.addr + _ + 65536 < p.width.space
    omega
  have hmsg := Fcall.msg_eq hs
  obtain ⟨⟨n, g⟩, hok, rfl, htype, htag, hcode, -, hg, hvs, hb⟩ :=
    takes_parse (r := p.region) (f.size t) f' ht (by omega) hs.2 hn hs.1 []
      ((f.bulkBytes t).getD []) (hmsg ▸ hholds) fun k hk => .inl (by rw [hdata, hk]; exact le_rfl)
  change (parse p.region f').run (.between p.region [] (Val.wire (frame ..) ++ _)) =
    .ok (_, ⟨(p.addr + 0 + (Val.wire (frame ..)).length + _) % p.width.space, _⟩) at hok
  change Val.places (p.addr + 0) (frame ..) = _ at hvs
  have hp : (p.addr + (7 + (Val.wire ((f.fields t).map (Val.map cbytes))).length) +
      ((f.bulk t).map Prod.fst).getD 0) % p.width.space = p.addr + f.size t := by
    rw [Nat.mod_eq_of_lt (by omega)]
    omega
  rw [← hmsg, length_wire_frame, Nat.add_zero, hp, nil_append] at hok
  rw [Nat.add_zero, places_frame] at hvs
  have hfields := (cons.inj (cons.inj (cons.inj hvs).2).2).2
  have hconv := convM2S_of_parse hok
  change _ = if p.addr + f.size t = 0 ∨ p.addr + f.size t > p.addr + (f.msg t).length then _
    else if (p.addr + f.size t) % p.width.space = p.addr + f.size t then _ else _ at hconv
  rw [if_neg (by omega), if_pos (Nat.mod_eq_of_lt (by omega))] at hconv
  refine ⟨g, _, hconv, htype.symm, htag.symm, fun t' ht' => ?_⟩
  obtain rfl : t = t' := Option.some.inj (ht.symm.trans ht')
  refine ⟨(fields_resolve _ _ hfields (fun s hs => zero_not_mem hs) f.type f.tag).symm, ?_⟩
  · have hstart : p.addr + 0 + (Val.wire (frame (f.size t) f.type f.tag
        ((f.fields t).map (Val.map cbytes)))).length =
          p.addr + (7 + (Val.wire ((f.fields t).map (Val.map cbytes))).length) := by
      rw [length_wire_frame, Nat.add_zero]
    have hbulk : g.bulk t = ((f.bulk t).map Prod.fst).map fun k =>
        (k, p.addr + (7 + (Val.wire ((f.fields t).map (Val.map cbytes))).length)) := by
      rw [← hstart]
      exact hb.symm
    refine Eq.trans ?_ (bulkBytes_resolve _ hbulk (fun k hk => ?_) f.type f.tag).symm
    · rw [Fcall.bulkBytes]
      cases f.bulk t with
      | none => rfl
      | some b => exact congrArg some (take_of_length_le (Buffer.length_load ..).le).symm
    · rw [hdata, hk]
      exact le_rfl

theorem roundTrips_of_short (ht : MsgType.ofCode f.type = some t) (hn : f.nelems t ≤ maxwelem)
    (hs : f.Short t) : RoundTrips f p := by
  have hlen := Fcall.length_msg_of_short hs
  have hsize := f.size_eq t
  have hconv := convS2M_eq ht hn p.nap_lt
  rw [Nat.mod_eq_of_lt hs.2] at hconv
  by_cases hrefused : f.size t = 0 ∨ p.nap < f.size t
  · rw [if_pos hrefused] at hconv
    exact roundTrips_of_refused hconv
  · rw [if_neg hrefused, if_pos (by omega)] at hconv
    rw [RoundTrips, hconv, hlen]
    refine ⟨by omega, by omega, hlen, ?_, convM2S_msg ht hn hs (by omega)⟩
    rw [Fcall.msg, take_left' (length_leBytes 4 _), Nat.mod_eq_of_lt hs.2,
      leVal_leBytes (hs.2.trans_eq (by norm_num))]

theorem not_roundTrips_of_long (ht : MsgType.ofCode f.type = some t) (hn : f.nelems t ≤ maxwelem)
    (hzero : f.size t % 2 ^ 32 ≠ 0) (hnap : f.size t % 2 ^ 32 ≤ p.nap) (hs : ¬f.Short t) :
    ¬RoundTrips f p := by
  have hconv := convS2M_eq ht hn p.nap_lt
  have haddr := p.addr_lt
  rw [if_neg (not_or.2 ⟨hzero, Nat.not_lt.2 hnap⟩)] at hconv
  split_ifs at hconv with hroom
  · obtain ⟨s, hmem, hlong⟩ : ∃ s, .str s ∈ f.fields t ∧ 65536 ≤ (cbytes s).length := by
      by_contra hshort
      push Not at hshort
      refine hs ⟨hshort, ?_⟩
      have hlen := f.length_msg t
      rw [flatMap_sent hshort, ← f.size_eq t] at hlen
      have := p.nap_lt
      omega
    rw [RoundTrips, hconv]
    rintro ⟨-, -, -, -, hread⟩
    obtain ⟨g, mem, hdec, htype, -, hsame⟩ := hread (Fcall.zero 0 0)
    have hholds : p.region.Holds (f.msg t) := by
      change p.addr + _ + 65536 < p.width.space
      omega
    rcases convM2S_accepted hholds (Fcall.zero 0 0) with h | ⟨n, g', t', ws, b, post, h, hdec'⟩
    · rw [h] at hdec
      cases hdec
    · rw [hdec'] at hdec
      injection hdec with hdec
      obtain ⟨-, rfl, rfl⟩ : n = _ ∧ g' = g ∧ Val.cooked _ ++ post = mem := by
        simpa only [Prod.mk.injEq] using hdec
      have htype' : f.type = g'.type := htype
      obtain rfl : t = t' := Option.some.inj (ht.symm.trans (htype' ▸ h.type))
      have hmem' := mem_map_of_mem (f := Val.map cbytes) hmem
      rw [(hsame t ht).1, resolve, Fcall.fields_map, map_map] at hmem'
      obtain ⟨v, hv, hvs⟩ := mem_map.1 hmem'
      cases v with
      | num => cases hvs
      | str q =>
        have hq : Val.read p.addr (Val.cooked (frame n g'.type g'.tag ws) ++ post) q =
          cbytes s := by
          injection hvs
        have hlt := h.length_read_lt hv
        change (Val.read p.addr _ q).length < _ at hlt
        rw [hq] at hlt
        omega
  · exact not_roundTrips_of_wild hconv

/-- **The codec returns a structure** exactly if it is codable: it has no more names than the array
holds, and its size is refused, or its strings and its count fit. -/
theorem s2m_m2s_iff (f : SFcall) (p : Place) : RoundTrips f p ↔ f.Codable p.nap := by
  cases ht : MsgType.ofCode f.type with
  | none =>
    refine iff_of_true (roundTrips_of_refused (convS2M_of_none ht)) fun t h => ?_
    rw [ht] at h
    cases h
  | some t =>
    have hcodable : f.Codable p.nap ↔ (t = .twalk → f.nwname.toNat ≤ maxwelem) ∧
        (f.size t % 2 ^ 32 = 0 ∨ p.nap < f.size t % 2 ^ 32 ∨ f.Short t) := by
      refine ⟨fun h => h t ht, fun h t' ht' => ?_⟩
      obtain rfl : t = t' := Option.some.inj (ht.symm.trans ht')
      exact h
    rw [hcodable]
    by_cases hn : f.nelems t ≤ maxwelem
    · have hconv := convS2M_eq ht hn p.nap_lt
      by_cases hzero : f.size t % 2 ^ 32 = 0
      · rw [if_pos (.inl hzero)] at hconv
        exact iff_of_true (roundTrips_of_refused hconv) ⟨fun h => by subst h; exact hn, .inl hzero⟩
      by_cases hnap : p.nap < f.size t % 2 ^ 32
      · rw [if_pos (.inr hnap)] at hconv
        exact iff_of_true (roundTrips_of_refused hconv) ⟨fun h => by subst h; exact hn,
          .inr (.inl hnap)⟩
      by_cases hs : f.Short t
      · exact iff_of_true (roundTrips_of_short ht hn hs) ⟨fun h => by subst h; exact hn,
          .inr (.inr hs)⟩
      · exact iff_of_false (not_roundTrips_of_long ht hn hzero (Nat.not_lt.1 hnap) hs)
          fun h => h.2.elim hzero (Or.elim · hnap hs)
    · cases t
      case twalk =>
        exact iff_of_false (not_roundTrips_of_wild (convS2M_twalk ht (Nat.not_le.1 hn)))
          fun h => hn (h.1 rfl)
      case rwalk =>
        refine iff_of_true (roundTrips_of_refused (convS2M_rwalk ht (Nat.not_le.1 hn)))
          ⟨nofun, .inr (.inr ⟨fun s hs => ?_, ?_⟩)⟩
        · simp [Fcall.fields, Qid.fields] at hs
        · have hsum := sum_valsz_fields valsz (fun _ _ => rfl) (f.wqid.toList.take f.nwqid.toNat)
          have hlen : (f.wqid.toList.take f.nwqid.toNat).length ≤ 16 :=
            (List.length_take_le' _ _).trans_eq (Vector.length_toList)
          have hsize : f.size .rwalk =
              7 + (2 + (f.wqid.toList.take f.nwqid.toNat).length * qidsz) + 0 := by
            rw [← hsum]
            rfl
          rw [hsize, qidsz]
          omega
      all_goals exact absurd (Nat.zero_le _) hn

/-- An error with a text of `n` bytes. -/
def longError (n : ℕ) : SFcall :=
  { Fcall.zero none fun _ => 0 with
    type := MsgType.rerror.code
    ename := some ⟨List.replicate n 97, fun h => absurd (List.eq_of_mem_replicate h) (by decide)⟩ }

theorem length_longError (n : ℕ) : (cbytes (longError n).ename).length = n := length_replicate

/-- A buffer of 100000 bytes. -/
def largePlace : Place := ⟨.w64, 65536, 100000, by norm_num, by norm_num [Width.space]⟩

/-- The text is one byte longer than its length can say. -/
theorem longError_lost : ¬RoundTrips (longError 65536) largePlace := by
  have hsize : ∀ n, (longError n).size .rerror = 7 + (2 + n + 0) + 0 := by
    intro n
    have h : (longError n).size .rerror =
      7 + (2 + (cbytes (longError n).ename).length + 0) + 0 := rfl
    rw [h, length_longError]
  refine not_roundTrips_of_long (t := .rerror) rfl (Nat.zero_le _) ?_ ?_ fun h => ?_
  · rw [hsize]
    norm_num
  · rw [hsize]
    norm_num [largePlace]
  · have hlong := h.1 (longError 65536).ename List.mem_cons_self
    rw [length_longError] at hlong
    exact lt_irrefl _ hlong

end RoundTrip

end Libc

end Plan9
