import Plan9.Kernel.MntRead
import Plan9.Libc.FcallRound

/-!
# Replies from structure to structure

What `convS2M` has written on one side of a channel `mntrpcread` presents on the other, with
`convM2S` for what turns a header into a structure. Of an `Rread` only the header is in the block
that `convM2S` is given, although it is told the length of all of the message: what it would find
behind the block is not looked at, and the data is hung off the structure as blocks.

* `Plan9.Kernel.MntRead.wellFormed_of_written` – a message that `convS2M` has written;
* `Plan9.Kernel.MntRead.mntrpcread_delivers` – the structures come out as they were.
-/

namespace Plan9

open List

namespace Kernel

namespace MntRead

open Lib Libc BlockList

/-- What a structure says: type and tag, the values, and the bulk data unless it comes as blocks. -/
def said (f : SFcall) : UInt8 × UInt16 × Option (List (Val (List UInt8)) × Option (List UInt8)) :=
  (f.type, f.tag, (MsgType.ofCode f.type).map fun t =>
    ((f.fields t).map (Val.map cbytes), if t = .rread then none else f.bulkBytes t))

/-- The data that `mntrpcread` hangs off the structure. -/
def hung (f : SFcall) : List UInt8 :=
  if f.type = Rread then (f.bulkBytes .rread).getD [] else []

/-- `convM2S(nb->rp, len, &r->reply)`, with `beyond` in memory behind the block. -/
def convReply (p : Place) (beyond : Buffer) (f₀ : MFcall) (data : List UInt8) (len : ℕ) :=
  (convM2S p.region ((data ++ beyond.load 0 len).take len) f₀).toOption.map fun r =>
    said (resolve p.addr r.2.2 r.2.1)

/-- A message that `convS2M` has written, and whose strings have not been cut off. -/
structure Written (msize : Int32) (f : SFcall) (msg : List UInt8) : Prop where
  wrote : ∃ nap < 2 ^ 32, convS2M f nap = .ok (msg.length, msg)
  strings : ∀ t, MsgType.ofCode f.type = some t →
    ∀ s, .str s ∈ f.fields t → (cbytes s).length < 65536
  fits : msg.length ≤ msize.toInt

variable {msize : Int32} {f : SFcall} {msg : List UInt8} {p : Place} {beyond : Buffer}
  {f₀ : MFcall} {t : MsgType}

theorem Written.msg_eq (h : Written msize f msg) : ∃ t, MsgType.ofCode f.type = some t ∧
    f.nelems t ≤ maxwelem ∧ f.Short t ∧ msg = f.msg t := by
  obtain ⟨nap, hnap, hw⟩ := h.wrote
  cases ht : MsgType.ofCode f.type with
  | none =>
    rw [convS2M_of_none ht] at hw
    cases hw
  | some t =>
    have hn : f.nelems t ≤ maxwelem := by
      by_contra hn
      cases t
      case twalk =>
        rw [convS2M_twalk ht (Nat.not_le.1 hn)] at hw
        cases hw
      case rwalk =>
        rw [convS2M_rwalk ht (Nat.not_le.1 hn)] at hw
        cases hw
      all_goals exact hn (Nat.zero_le _)
    rw [convS2M_eq ht hn hnap] at hw
    split_ifs at hw
    obtain rfl := (Prod.mk.inj (Except.ok.inj hw)).2
    have hlen := f.length_msg t
    rw [flatMap_sent (h.strings t ht), ← f.size_eq t] at hlen
    exact ⟨t, rfl, hn, ⟨h.strings t ht, by omega⟩, rfl⟩

/-- A structure read back says the same. -/
theorem said_eq {g : SFcall} (h : f.SameMsg g) : said f = said g := by
  obtain ⟨htype, htag, hsame⟩ := h
  rw [said, said, ← htype, htag]
  cases ht : MsgType.ofCode f.type with
  | none => rfl
  | some t =>
    obtain ⟨hfields, hbulk⟩ := hsame t ht
    simp only [Option.map_some, hfields, hbulk]

theorem code_of_ofCode (ht : MsgType.ofCode f.type = some t) : f.type = t.code := by
  have h := List.find?_some ht
  exact (beq_iff_eq.1 h).symm

/-- The fifth byte is the type. -/
theorem hdrlen_msg (ht : MsgType.ofCode f.type = some t) :
    hdrlen (f.msg t) = if t = .rread then 11 else (f.msg t).length := by
  have hget : (f.msg t).getD 4 0 = t.code := by
    have hbyte : leBytes 1 f.type.toNat = [f.type] := by simp [leBytes, beBytes]
    rw [← code_of_ofCode ht, Fcall.msg, hbyte]
    simp
  rw [hdrlen, hget]
  cases t <;> rfl

/-- The header of an `Rread`, and its data. -/
theorem msg_rread (f : SFcall) : ∃ header : List UInt8, header.length = 11 ∧
    ∀ data, Fcall.msg { f with data } .rread = header ++ data.load 0 f.count.toNat := by
  refine ⟨leBytes 4 (f.size .rread % 2 ^ 32) ++ (leBytes 1 f.type.toNat ++
    (leBytes 2 f.tag.toNat ++ leBytes 4 f.count.toNat)), by simp, fun data => ?_⟩
  simp [Fcall.msg, Fcall.body, Fcall.fields, sent]
  rfl

/-- What is in a block with the header, whatever is behind it, is a message that says the same. -/
theorem said_header (ht : MsgType.ofCode f.type = some t) (hs : f.Short t) (post : List UInt8)
    (beyond : Buffer) : ∃ g : SFcall, g.type = f.type ∧ g.nelems t = f.nelems t ∧ g.Short t ∧
      said g = said f ∧ ((f.msg t).take (hdrlen (f.msg t)) ++ post ++
        beyond.load 0 (f.msg t).length).take (f.msg t).length = g.msg t := by
  rw [hdrlen_msg ht]
  split_ifs with hr
  · subst hr
    obtain ⟨header, hheader, hmsg⟩ := msg_rread f
    have hlen : (f.msg .rread).length = 11 + f.count.toNat := Fcall.length_msg_of_short hs
    have htake : (f.msg .rread).take 11 = header := by
      rw [show f.msg .rread = header ++ _ from hmsg f.data, take_left' hheader]
    -- the data that it would find
    let junk := post ++ beyond.load 0 (f.msg .rread).length
    have hjunk : f.count.toNat ≤ junk.length := by
      rw [length_append, Buffer.length_load, hlen]
      omega
    refine ⟨{ f with data := fun i => junk.getD i 0 }, rfl, rfl, hs, ?_, ?_⟩
    · rw [said, said, ht]
      rfl
    · refine Eq.trans ?_ (hmsg _).symm
      rw [load_getD hjunk, htake, append_assoc]
      refine (congrArg (take · _) ?_).trans (take_length_add_append ..)
      rw [hlen, hheader]
  · refine ⟨f, rfl, rfl, hs, rfl, ?_⟩
    rw [take_length, append_assoc, take_left]

theorem drop_hdrlen (ht : MsgType.ofCode f.type = some t) :
    (f.msg t).drop (hdrlen (f.msg t)) = hung f := by
  have htype := code_of_ofCode ht
  rw [hdrlen_msg ht, hung]
  split_ifs with hr hread hread
  · subst hr
    obtain ⟨header, hheader, hmsg⟩ := msg_rread f
    rw [show f.msg .rread = header ++ _ from hmsg f.data, drop_left' hheader]
    rfl
  · exact absurd (htype.trans (congrArg MsgType.code hr)) hread
  · exact absurd (Option.some.inj (ht.symm.trans (congrArg MsgType.ofCode hread))) hr
  · exact drop_length

/-- **What `convS2M` has written** is well formed, and says what the structure said. -/
theorem wellFormed_of_written (h : Written msize f msg) (hp : msize.toInt ≤ p.nap) :
    WellFormed (convReply p beyond f₀) msize msg (said f) ∧ msg.drop (hdrlen msg) = hung f := by
  obtain ⟨t, ht, hn, hs, rfl⟩ := h.msg_eq
  have hlen := Fcall.length_msg_of_short hs
  have hsize := f.size_eq t
  have hfits := h.fits
  refine ⟨⟨?_, by omega, hfits, ?_, fun post => ?_⟩, drop_hdrlen ht⟩
  · rw [hlen, Fcall.msg, take_left' (length_leBytes 4 _), Nat.mod_eq_of_lt hs.2,
      leVal_leBytes (hs.2.trans_eq (by norm_num))]
  · rw [hdrlen_msg ht]
    split_ifs with hr
    · subst hr
      rw [hlen]
      exact Nat.le_add_right 11 _
    · exact le_rfl
  · obtain ⟨g, htype, hnelems, hsg, hsaid, hmem⟩ := said_header ht hs post beyond
    have hle : (g.msg t).length ≤ p.nap := by
      have := length_take_le (f.msg t).length ((f.msg t).take (hdrlen (f.msg t)) ++ post ++
        beyond.load 0 (f.msg t).length)
      rw [hmem] at this
      omega
    obtain ⟨g', mem, hconv, hsame⟩ := convM2S_msg (htype ▸ ht) (hnelems ▸ hn) hsg hle f₀
    rw [convReply, hmem, hconv, ← hsaid, said_eq hsame]
    rfl

/-- **The structures come out as they were** on the other side, whatever lists of blocks the
messages are cut into: successive calls present type, tag and values of one after the other, and
the data as blocks, and what follows the messages is still there. -/
theorem mntrpcread_delivers {m : Mem} {frame : Finset ℕ} {l : List ℕ} {q : Queue}
    {msgs : List (SFcall × List UInt8)} {rest : List UInt8} {incoming : List (List Block)}
    (hmsgs : ∀ x ∈ msgs, Written msize x.1 x.2) (hp : msize.toInt ≤ p.nap) (h : q.Ok)
    (howned : Owned m.live (addrs q.bfirst ++ (blocks incoming ++ l)) frame)
    (hne : ∀ bp ∈ incoming, bytes bp ≠ [])
    (hbytes : bytes q.bfirst ++ coming incoming = (msgs.map Prod.snd).flatten ++ rest) :
    Returns (reads (convReply p beyond f₀) msize msgs.length q incoming) m fun r _ =>
      r.1.map (fun x => (x.1, bytes x.2)) = msgs.map (fun x => (said x.1, hung x.1)) ∧
        bytes r.2.1.bfirst ++ coming r.2.2 = rest := by
  induction msgs generalizing m q incoming l with
  | nil => exact returns_pure.2 ⟨rfl, hbytes⟩
  | cons x msgs ih =>
    rw [map_cons, flatten_cons, append_assoc] at hbytes
    obtain ⟨hx, hhung⟩ := wellFormed_of_written (hmsgs x mem_cons_self) hp
    refine (mntrpcread_spec hx h howned hne hbytes).bind fun r m₁ hr => ?_
    obtain ⟨data, hreply, hdata, hrest, hok, hne', howned'⟩ := hr
    rw [hreply]
    refine (ih (fun y hy => hmsgs y (mem_cons_of_mem _ hy)) hok howned' hne' hrest).bind
      fun rs m₂ hrs => returns_pure.2 ⟨?_, hrs.2⟩
    rw [map_cons, map_cons, hrs.1, hdata, hhung]

/-- An `Rread` with one byte of data. -/
def oneByte : SFcall := { Fcall.zero none fun _ => 5 with type := 117, tag := 1, count := 1 }

theorem mntrpcread_delivers_oneByte :
    Returns (reads (convReply largePlace (fun _ => 7) (Fcall.zero 0 0)) 256 1 ⟨[], 0, 0⟩
      [[⟨1, [], [12, 0, 0, 0, 117, 1, 0, 1], [], false⟩], [⟨2, [], [0, 0, 0, 5, 11], [], false⟩]])
      twoBlocks fun r _ =>
      r.1.map (fun x => (x.1, bytes x.2)) = [(said oneByte, [5])] ∧
        bytes r.2.1.bfirst ++ coming r.2.2 = [11] := by
  have hx : Written 256 oneByte [12, 0, 0, 0, 117, 1, 0, 1, 0, 0, 0, 5] := by
    refine ⟨⟨256, by norm_num, rfl⟩, fun t ht s hs => ?_, by decide⟩
    cases ht
    cases hs with
    | tail _ hs => cases hs
  refine mntrpcread_delivers
    (?_ : ∀ x ∈ [(oneByte, [12, 0, 0, 0, 117, 1, 0, 1, 0, 0, 0, 5])], Written 256 x.1 x.2)
    (by decide) ⟨rfl, fun c hc => absurd hc (Option.not_mem_none c)⟩
    (?_ : Owned twoBlocks.live (_ ++ (_ ++ [])) ∅) ?_ rfl
  · simpa only [forall_mem_singleton] using hx
  · exact ⟨by decide, by simp [twoBlocks, addrs, blocks], by simp⟩
  · simp [bytes]

end MntRead

end Kernel

end Plan9
