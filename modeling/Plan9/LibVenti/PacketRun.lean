import Plan9.Lib.Run
import Plan9.LibVenti.PacketShare

/-!
# Packets refine byte strings

The operations on packets, called in any order on any packets, against what they are to
do to byte strings (`Plan9.LibVenti.PacketOp.Effect`). They do so as long as no operation
adds bytes at an end whose memory is shared – `memhead` and `memtail` abort – no sum
leaves the range of an `int`, and no packet is put behind itself
(`Plan9.LibVenti.packets_refine`). A packet with one byte, a duplicate of it and one more
byte is enough for the abort (`Plan9.LibVenti.append_shared_aborts`).
-/

namespace Plan9

namespace LibVenti

open Lib List

/-- A value of type `int`. -/
abbrev CInt := { n : ℤ // -2 ^ 31 ≤ n ∧ n < 2 ^ 31 }

/-- The calls, with their arguments. A packet is named by its pointer; bytes handed over
are given as a list. With `fill` the caller writes to an address in its packet. -/
inductive PacketOp
  | alloc
  | free (p : ℕ)
  | append (p : ℕ) (buf : List UInt8)
  | prepend (p : ℕ) (buf : List UInt8)
  | header (p : ℕ) (n : CInt)
  | trailer (p : ℕ) (n : CInt)
  | consume (p : ℕ) (buf : Bool) (n : CInt)
  | trim (p : ℕ) (offset n : CInt)
  | split (p : ℕ) (n : CInt)
  | dup (p : ℕ) (offset n : CInt)
  | concat (p pp : ℕ)
  | copy (p : ℕ) (offset n : CInt)
  | peek (p : ℕ) (offset n : CInt)
  | fill (p : ℕ) (a : ℕ × ℕ) (x : List UInt8)

/-- What a call returns. -/
inductive PacketResult
  | void
  | packet (r : Except String ℕ)
  | status (r : Except String Unit)
  | bytes (r : Except String ByteString)
  | address (r : Except String (ℕ × ℕ))

/-- Make a call. -/
def PacketOp.exec : PacketOp → PacketM PacketResult
  | .alloc => do return .packet (.ok (← packetalloc))
  | .free p => do packetfree p; return .void
  | .append p buf => do packetappend p buf; return .void
  | .prepend p buf => do packetprefix p buf; return .void
  | .header p n => do return .address (← packetheader p n)
  | .trailer p n => do return .address (← packettrailer p n)
  | .consume p buf n => do return .bytes (← packetconsume p buf n)
  | .trim p offset n => do return .status (← packettrim p offset n)
  | .split p n => do return .packet (← packetsplit p n)
  | .dup p offset n => do return .packet (← packetdup p offset n)
  | .concat p pp => do packetconcat p pp; return .void
  | .copy p offset n => do return .bytes (← bytesIn (packetcopy p offset n))
  | .peek p offset n => do return .bytes (← bytesIn (packetpeek p offset n))
  | .fill _ a x => do LibVenti.fill a x; return .void

/-- A call that returns. -/
def PacketStep (s : Heap) (op : PacketOp) (t : Heap) : Prop := ∃ r, op.exec.run s = .ok (r, t)

/-- Nothing is allocated. -/
def emptyHeap : Heap where
  packet _ := ⟨-1, none, none⟩
  frag _ := ⟨.fragLocalFree, none, 0, 0, none, 0, none, none⟩
  mem _ := ⟨0, 0, fun _ => 0, 0, 0⟩
  foreign _ _ := 0
  freePacket := []
  npacket := 0
  freeFrag := []
  nfrag := 0
  freeSmall := []
  freeBig := []
  nmem := 0

/-- The packets that the call is given are not free. -/
def PacketOp.Live (s : Heap) : PacketOp → Prop
  | .alloc => True
  | .concat p pp => s.abs p ≠ none ∧ s.abs pp ≠ none
  | .free p | .append p _ | .prepend p _ | .header p _ | .trailer p _ | .consume p _ _
  | .trim p _ _ | .split p _ | .dup p _ _ | .copy p _ _ | .peek p _ _ | .fill p _ _ =>
    s.abs p ≠ none

/-- **What a call is to do**: an operation on the byte strings of its packets, and no change
to any other packet. -/
def PacketOp.Effect (s : Heap) (r : PacketResult) (t : Heap) : PacketOp → Prop
  | .alloc => ∃ p, r = .packet (.ok p) ∧ s.abs p = none ∧
      t.abs = Function.update s.abs p (some [])
  | .free p => r = .void ∧ t.abs = Function.update s.abs p none
  | .append p buf => ∃ b, s.abs p = some b ∧ r = .void ∧
      t.abs = Function.update s.abs p (some (b ++ buf))
  | .prepend p buf => ∃ b, s.abs p = some b ∧ r = .void ∧
      t.abs = Function.update s.abs p (some (buf ++ b))
  | .header p n => ∃ b, s.abs p = some b ∧
      if n.1 ≤ 0 ∨ n.1 > maxFragSize then r = .address (.error ePacketSize) ∧ t.abs = s.abs
      else ∃ a x, r = .address (.ok a) ∧ x.length = n.1.toNat ∧ Located t p 0 n.1.toNat a ∧
        t.abs = Function.update s.abs p (some (x ++ b))
  | .trailer p n => ∃ b, s.abs p = some b ∧
      if n.1 ≤ 0 ∨ n.1 > maxFragSize then r = .address (.error ePacketSize) ∧ t.abs = s.abs
      else ∃ a x, r = .address (.ok a) ∧ x.length = n.1.toNat ∧
        Located t p b.length n.1.toNat a ∧ t.abs = Function.update s.abs p (some (b ++ x))
  | .consume p buf n => ∃ b, s.abs p = some b ∧
      match b.consumeInto buf n with
      | .ok (x, rest) => r = .bytes (.ok x) ∧ t.abs = Function.update s.abs p (some rest)
      | .error e => r = .bytes (.error e) ∧ t.abs = s.abs
  | .trim p offset n => ∃ b, s.abs p = some b ∧
      match b.trim offset n with
      | .ok b' => r = .status (.ok ()) ∧ t.abs = Function.update s.abs p (some b')
      | .error e => r = .status (.error e) ∧ t.abs = s.abs
  | .split p n => ∃ b, s.abs p = some b ∧
      match b.split n with
      | .ok (front, rest) => ∃ pp, r = .packet (.ok pp) ∧ s.abs pp = none ∧
          t.abs = Function.update (Function.update s.abs p (some rest)) pp (some front)
      | .error e => r = .packet (.error e) ∧ t.abs = s.abs
  | .dup p offset n => ∃ b, s.abs p = some b ∧
      match b.dup offset n with
      | .ok b' => ∃ pp, r = .packet (.ok pp) ∧ s.abs pp = none ∧
          t.abs = Function.update s.abs pp (some b')
      | .error e => r = .packet (.error e) ∧ t.abs = s.abs
  | .concat p pp => ∃ b c, s.abs p = some b ∧ s.abs pp = some c ∧ r = .void ∧
      t.abs = Function.update (Function.update s.abs pp (some [])) p (some (b ++ c))
  | .copy p offset n | .peek p offset n => ∃ b, s.abs p = some b ∧
      r = .bytes (b.peek offset n) ∧ t.abs = s.abs
  | .fill p a x => ∃ b k, s.abs p = some b ∧ Located s p k x.length a ∧ r = .void ∧
      t.abs = Function.update s.abs p (some (b.splice k x))

/-- **When a call does so**: its packets are not free; where it adds bytes to the fragment
at an end, the memory there is not shared; its sums are values of an `int`; a packet is put
behind another one; a caller writes to its own bytes, and to memory that is not shared. -/
def PacketOk (s : Heap) : PacketOp → Prop
  | .alloc => True
  | .free p | .consume p _ _ | .split p _ => s.abs p ≠ none
  | .append p buf => ∃ b, s.abs p = some b ∧ b.length + buf.length < 2 ^ 31 ∧
      (buf ≠ [] → ∀ f, (s.packet p).last = some f → Sole s f)
  | .prepend p buf => ∃ b, s.abs p = some b ∧ b.length + buf.length < 2 ^ 31 ∧
      (buf ≠ [] → ∀ f, (s.packet p).first = some f → Sole s f)
  | .header p n => ∃ b, s.abs p = some b ∧
      (0 < n.1 → n.1 ≤ maxFragSize → b.length + n.1 < 2 ^ 31) ∧
      (0 < n.1 → n.1 ≤ maxFragSize → ∀ f m, (s.packet p).first = some f →
        (s.frag f).mem = some m → n.1 ≤ (s.frag f).rp → (s.mem m).ref = 1)
  | .trailer p n => ∃ b, s.abs p = some b ∧
      (0 < n.1 → n.1 ≤ maxFragSize → b.length + n.1 < 2 ^ 31) ∧
      (0 < n.1 → n.1 ≤ maxFragSize → ∀ f m, (s.packet p).last = some f →
        (s.frag f).mem = some m → n.1 ≤ (s.mem m).size - (s.frag f).wp → (s.mem m).ref = 1)
  | .trim p offset n => ∃ b, s.abs p = some b ∧
      (0 ≤ offset.1 → offset.1 ≤ b.length → 0 ≤ n.1 → offset.1 + n.1 < 2 ^ 31)
  | .dup p offset n => s.abs p ≠ none ∧
      (0 ≤ offset.1 → 0 ≤ n.1 → offset.1 + n.1 < 2 ^ 31)
  | .concat p pp => p ≠ pp ∧ ∃ b c, s.abs p = some b ∧ s.abs pp = some c ∧
      b.length + c.length < 2 ^ 31
  | .copy p offset n | .peek p offset n => ∃ b, s.abs p = some b ∧
      (n.1 ≠ 0 → 0 ≤ offset.1 → offset.1 < b.length → 0 ≤ n.1 → offset.1 + n.1 < 2 ^ 31)
  | .fill p a x => ∃ b k, s.abs p = some b ∧ Located s p k x.length a ∧ (s.mem a.1).ref = 1

/-- A heap in order, with packets whose sizes are values of an `int`. -/
def Heap.Bounded (s : Heap) : Prop := s.Ok ∧ ∀ p b, s.abs p = some b → b.length < 2 ^ 31

theorem emptyHeap_bounded : emptyHeap.Bounded := by
  refine ⟨⟨fun _ => [], ∅, ?_⟩, fun p b hp => ?_⟩
  · refine ⟨⟨?_, fun f => ⟨rfl, rfl⟩, ?_, ?_, ?_, nodup_nil, ?_, nodup_nil, ?_, nodup_nil, ?_⟩,
      ?_, ?_, ?_, ?_, ?_, ?_, nodup_nil, ?_⟩ <;> simp [emptyHeap]
  · simp [Heap.abs, emptyHeap] at hp

/-! ### Every call -/

variable {s : Heap}

theorem returns_map {α β : Type} {x : PacketM α} {g : α → β} {P : α → Heap → Prop}
    {Q : β → Heap → Prop} (h : Returns x s P) (hPQ : ∀ a t, P a t → Q (g a) t) :
    Returns (x >>= fun a => pure (g a)) s Q :=
  h.bind fun a t hP => returns_pure.2 (hPQ a t hP)

variable {op : PacketOp}

/-- **One call** has its effect, and leaves the heap in order. -/
theorem exec_spec (h : s.Bounded) (hop : PacketOk s op) :
    Returns op.exec s fun r t => t.Ok ∧ op.Effect s r t := by
  obtain ⟨hok, hbound⟩ := h
  have hlive : ∀ {p}, s.abs p ≠ none → ∃ b, s.abs p = some b := fun hp =>
    Option.ne_none_iff_exists'.1 hp
  cases op with
  | alloc =>
    refine returns_map (packetalloc_spec hok) ?_
    rintro p t ⟨ht, hp, habs⟩
    exact ⟨ht, p, rfl, hp, habs⟩
  | free p =>
    obtain ⟨b, hb⟩ := hlive hop
    refine returns_map (packetfree_spec hok hb) ?_
    rintro - t ⟨ht, habs⟩
    exact ⟨ht, rfl, habs⟩
  | append p buf =>
    obtain ⟨b, hb, hlen, hsole⟩ := hop
    refine returns_map (packetappend_spec hok hb hlen hsole) ?_
    rintro - t ⟨ht, habs⟩
    exact ⟨ht, b, hb, rfl, habs⟩
  | prepend p buf =>
    obtain ⟨b, hb, hlen, hsole⟩ := hop
    refine returns_map (packetprefix_spec hok hb hlen hsole) ?_
    rintro - t ⟨ht, habs⟩
    exact ⟨ht, b, hb, rfl, habs⟩
  | header p n =>
    obtain ⟨b, hb, hlen, hsole⟩ := hop
    refine returns_map (packetheader_spec hok hb hlen hsole) ?_
    intro r t heffect
    split_ifs at heffect with hrange
    · obtain ⟨ht, rfl, habs⟩ := heffect
      exact ⟨ht, b, hb, by rw [if_pos hrange]; exact ⟨rfl, habs⟩⟩
    · obtain ⟨ht, a, x, rfl, hx, hloc, habs, -⟩ := heffect
      exact ⟨ht, b, hb, by rw [if_neg hrange]; exact ⟨a, x, rfl, hx, hloc, habs⟩⟩
  | trailer p n =>
    obtain ⟨b, hb, hlen, hsole⟩ := hop
    refine returns_map (packettrailer_spec hok hb hlen hsole) ?_
    intro r t heffect
    split_ifs at heffect with hrange
    · obtain ⟨ht, rfl, habs⟩ := heffect
      exact ⟨ht, b, hb, by rw [if_pos hrange]; exact ⟨rfl, habs⟩⟩
    · obtain ⟨ht, a, x, rfl, hx, hloc, habs, -⟩ := heffect
      exact ⟨ht, b, hb, by rw [if_neg hrange]; exact ⟨a, x, rfl, hx, hloc, habs⟩⟩
  | consume p buf n =>
    obtain ⟨b, hb⟩ := hlive hop
    refine returns_map (packetconsume_spec hok hb (hbound p b hb) n.2.2) ?_
    rintro r t ⟨ht, heffect⟩
    refine ⟨ht, b, hb, ?_⟩
    cases hc : b.consumeInto buf n with
    | ok y =>
      rw [hc] at heffect
      obtain ⟨rfl, habs⟩ := heffect
      exact ⟨rfl, habs⟩
    | error e =>
      rw [hc] at heffect
      obtain ⟨rfl, habs⟩ := heffect
      exact ⟨rfl, habs⟩
  | trim p offset n =>
    obtain ⟨b, hb, hint⟩ := hop
    refine returns_map (packettrim_spec hok hb hint) ?_
    rintro r t ⟨ht, heffect⟩
    refine ⟨ht, b, hb, ?_⟩
    rw [TrimEffect] at heffect
    cases hc : b.trim offset n with
    | ok y =>
      rw [hc] at heffect
      obtain ⟨rfl, habs⟩ := heffect
      exact ⟨rfl, habs⟩
    | error e =>
      rw [hc] at heffect
      obtain ⟨rfl, habs⟩ := heffect
      exact ⟨rfl, habs⟩
  | split p n =>
    obtain ⟨b, hb⟩ := hlive hop
    refine returns_map (packetsplit_spec hok hb) ?_
    rintro r t ⟨ht, heffect⟩
    refine ⟨ht, b, hb, ?_⟩
    cases hc : b.split n with
    | ok y =>
      rw [hc] at heffect
      obtain ⟨pp, rfl, hnone, habs⟩ := heffect
      exact ⟨pp, rfl, hnone, habs⟩
    | error e =>
      rw [hc] at heffect
      obtain ⟨rfl, habs⟩ := heffect
      exact ⟨rfl, habs⟩
  | dup p offset n =>
    obtain ⟨hp, hint⟩ := hop
    obtain ⟨b, hb⟩ := hlive hp
    refine returns_map (packetdup_spec hok hb hint) ?_
    rintro r t ⟨ht, heffect⟩
    refine ⟨ht, b, hb, ?_⟩
    cases hc : b.dup offset n with
    | ok y =>
      rw [hc] at heffect
      obtain ⟨pp, rfl, hnone, habs⟩ := heffect
      exact ⟨pp, rfl, hnone, habs⟩
    | error e =>
      rw [hc] at heffect
      obtain ⟨rfl, habs⟩ := heffect
      exact ⟨rfl, habs⟩
  | concat p pp =>
    obtain ⟨hne, b, c, hb, hc, hlen⟩ := hop
    refine returns_map (packetconcat_spec hok hne hb hc hlen) ?_
    rintro - t ⟨ht, habs⟩
    exact ⟨ht, b, c, hb, hc, rfl, habs⟩
  | copy p offset n =>
    obtain ⟨b, hb, hint⟩ := hop
    refine returns_map (packetcopy_spec hok hb hint) ?_
    rintro r t ⟨rfl, rfl⟩
    exact ⟨hok, b, hb, rfl, rfl⟩
  | peek p offset n =>
    obtain ⟨b, hb, hint⟩ := hop
    refine returns_map (packetpeek_spec hok hb hint) ?_
    rintro r t ⟨rfl, rfl⟩
    exact ⟨hok, b, hb, rfl, rfl⟩
  | fill p a x =>
    obtain ⟨b, k, hb, hloc, href⟩ := hop
    refine returns_map (fill_spec hok hb hloc href) ?_
    rintro - t ⟨ht, habs⟩
    exact ⟨ht, b, k, hb, hloc, rfl, habs⟩

/-! ### Sizes stay values of an `int` -/

theorem bounded_update {A : ℕ → Option ByteString} {p : ℕ} {x : Option ByteString}
    (hA : ∀ q b, A q = some b → b.length < 2 ^ 31) (hx : ∀ b, x = some b → b.length < 2 ^ 31)
    (q : ℕ) (b : ByteString) (h : Function.update A p x q = some b) : b.length < 2 ^ 31 := by
  rcases eq_or_ne q p with rfl | hq
  · rw [Function.update_self] at h
    exact hx b h
  · rw [Function.update_of_ne hq] at h
    exact hA q b h

theorem length_slice_le (b : ByteString) (offset n : ℤ) : (b.slice offset n).length ≤ b.length := by
  rw [ByteString.slice, length_take, length_drop]
  omega

variable {b : ByteString} {n : ℤ}

theorem length_trim_le {b' : ByteString} {offset : ℤ} (h : b.trim offset n = .ok b') :
    b'.length ≤ b.length := by
  rw [ByteString.trim] at h
  split_ifs at h
  obtain rfl := Except.ok.inj h
  exact length_slice_le b offset n

theorem length_dup_le {b' : ByteString} {offset : ℤ} (h : b.dup offset n = .ok b') :
    b'.length ≤ b.length := by
  rw [ByteString.dup] at h
  split_ifs at h
  obtain rfl := Except.ok.inj h
  exact length_slice_le b offset n

theorem length_split_le {front rest : ByteString} (h : b.split n = .ok (front, rest)) :
    front.length ≤ b.length ∧ rest.length ≤ b.length := by
  rw [ByteString.split] at h
  split_ifs at h
  obtain ⟨rfl, rfl⟩ := Prod.mk.inj (Except.ok.inj h)
  rw [length_take, length_drop]
  omega

theorem length_consumeInto_le {x rest : ByteString} {buf : Bool}
    (h : b.consumeInto buf n = .ok (x, rest)) : rest.length ≤ b.length := by
  rw [ByteString.consumeInto] at h
  split_ifs at h
  · rw [ByteString.consume] at h
    cases hp : b.peek 0 n with
    | error e =>
      rw [hp] at h
      exact absurd h (by simp [bind, Except.bind])
    | ok y =>
      cases ht : b.trim n (b.length - n) with
      | error e =>
        rw [hp, ht] at h
        exact absurd h (by simp [bind, Except.bind])
      | ok z =>
        rw [hp, ht] at h
        obtain ⟨-, rfl⟩ := Prod.mk.inj (Except.ok.inj h)
        exact length_trim_le ht
  · cases ht : b.trim n (b.length - n) with
    | error e =>
      rw [ht] at h
      exact absurd h (by simp [Except.map])
    | ok z =>
      rw [ht] at h
      obtain ⟨-, rfl⟩ := Prod.mk.inj (Except.ok.inj h)
      exact length_trim_le ht

theorem bounded_of_effect {t : Heap} {r : PacketResult} (h : s.Bounded) (hop : PacketOk s op)
    (ht : t.Ok) (heffect : op.Effect s r t) : t.Bounded := by
  have hbound := h.2
  have hsame : ∀ {b b' : ByteString}, b.length ≤ b'.length → b'.length < 2 ^ 31 →
      ∀ c, some b = some c → c.length < 2 ^ 31 := by
    rintro b b' hle hlt c hc
    cases hc
    omega
  refine ⟨ht, ?_⟩
  cases op with
  | alloc =>
    obtain ⟨p, -, -, habs⟩ := heffect
    rw [habs]
    exact bounded_update hbound (hsame le_rfl (by simp))
  | free p =>
    obtain ⟨-, habs⟩ := heffect
    rw [habs]
    exact bounded_update hbound fun b hb => absurd hb (by simp)
  | append p buf =>
    obtain ⟨b, hb, hlen, -⟩ := hop
    obtain ⟨b', hb', -, habs⟩ := heffect
    obtain rfl := Option.some.inj (hb.symm.trans hb')
    rw [habs]
    exact bounded_update hbound (hsame le_rfl (by rw [length_append]; exact hlen))
  | prepend p buf =>
    obtain ⟨b, hb, hlen, -⟩ := hop
    obtain ⟨b', hb', -, habs⟩ := heffect
    obtain rfl := Option.some.inj (hb.symm.trans hb')
    rw [habs]
    exact bounded_update hbound (hsame le_rfl (by rw [length_append]; omega))
  | header p n | trailer p n =>
    obtain ⟨b, hb, hlen, -⟩ := hop
    obtain ⟨b', hb', heffect⟩ := heffect
    obtain rfl := Option.some.inj (hb.symm.trans hb')
    split_ifs at heffect with hrange
    · rw [heffect.2]
      exact hbound
    · obtain ⟨a, x, -, hx, -, habs⟩ := heffect
      rw [habs]
      refine bounded_update hbound (hsame le_rfl ?_)
      have := hlen (by omega) (by omega)
      rw [length_append]
      omega
  | consume p buf n =>
    obtain ⟨b, hb, heffect⟩ := heffect
    cases hc : b.consumeInto buf n with
    | ok y =>
      rw [hc] at heffect
      rw [heffect.2]
      exact bounded_update hbound (hsame (length_consumeInto_le hc) (hbound p b hb))
    | error e =>
      rw [hc] at heffect
      rw [heffect.2]
      exact hbound
  | trim p offset n =>
    obtain ⟨b, hb, heffect⟩ := heffect
    cases hc : b.trim offset n with
    | ok y =>
      rw [hc] at heffect
      rw [heffect.2]
      exact bounded_update hbound (hsame (length_trim_le hc) (hbound p b hb))
    | error e =>
      rw [hc] at heffect
      rw [heffect.2]
      exact hbound
  | split p n =>
    obtain ⟨b, hb, heffect⟩ := heffect
    cases hc : b.split n with
    | ok y =>
      rw [hc] at heffect
      obtain ⟨pp, -, -, habs⟩ := heffect
      obtain ⟨hfront, hrest⟩ := length_split_le hc
      rw [habs]
      exact bounded_update (bounded_update hbound (hsame hrest (hbound p b hb)))
        (hsame hfront (hbound p b hb))
    | error e =>
      rw [hc] at heffect
      rw [heffect.2]
      exact hbound
  | dup p offset n =>
    obtain ⟨b, hb, heffect⟩ := heffect
    cases hc : b.dup offset n with
    | ok y =>
      rw [hc] at heffect
      obtain ⟨pp, -, -, habs⟩ := heffect
      rw [habs]
      exact bounded_update hbound (hsame (length_dup_le hc) (hbound p b hb))
    | error e =>
      rw [hc] at heffect
      rw [heffect.2]
      exact hbound
  | concat p pp =>
    obtain ⟨-, b, c, hb, hc, hlen⟩ := hop
    obtain ⟨b', c', hb', hc', -, habs⟩ := heffect
    obtain rfl := Option.some.inj (hb.symm.trans hb')
    obtain rfl := Option.some.inj (hc.symm.trans hc')
    rw [habs]
    exact bounded_update (bounded_update hbound (hsame le_rfl (by simp)))
      (hsame le_rfl (by rw [length_append]; exact hlen))
  | copy p offset n | peek p offset n =>
    obtain ⟨b, -, -, habs⟩ := heffect
    rw [habs]
    exact hbound
  | fill p a x =>
    obtain ⟨b, k, hb, hloc, -, habs⟩ := heffect
    rw [habs]
    refine bounded_update hbound (hsame (length_splice (hloc.add_le h.1 hb)).le (hbound p b hb))

/-! ### Runs -/

/-- **The fields of every packet are right**: its fragments are linked from `first`, `last`
is the last of them, and `size` is the sum of theirs, the number of bytes of the packet. -/
def Heap.InOrder (s : Heap) : Prop :=
  ∀ p b, s.abs p = some b → IsChain s p (s.frags p) ∧
    (s.packet p).size = s.sizeOf (s.frags p) ∧ (s.packet p).size = b.length

theorem Heap.Ok.inOrder (h : s.Ok) : s.InOrder := by
  obtain ⟨own, held, h⟩ := h
  intro p b hp
  obtain ⟨hsize, -, hlen⟩ := h.of_abs hp
  rw [h.frags_eq hsize]
  exact ⟨h.chain p hsize, h.size p hsize, hlen⟩

theorem bounded_step {t : Heap} (h : s.Bounded) (hop : PacketOk s op) (hstep : PacketStep s op t) :
    t.Bounded := by
  obtain ⟨r, hr⟩ := hstep
  obtain ⟨r', t', hr', ht, heffect⟩ := exec_spec h hop
  obtain ⟨rfl, rfl⟩ := Prod.mk.inj (Except.ok.inj (hr.symm.trans hr'))
  exact bounded_of_effect h hop ht heffect

/-- **Packets refine byte strings.** After every run of calls each of which adds bytes only
to memory that is not shared, the fields of every packet are right, and every call that
goes on so returns and does to the byte strings what it is to do, and nothing else. -/
theorem packets_refine {s : Heap} {ops : List PacketOp}
    (hrun : Run (Guarded PacketOk PacketStep) emptyHeap ops s) :
    s.InOrder ∧ ∀ op, PacketOk s op → Returns op.exec s fun r t => op.Effect s r t := by
  have hs := hrun.guarded_inv (fun _ _ _ h hop hstep => bounded_step h hop hstep)
    emptyHeap_bounded
  exact ⟨hs.1.inOrder, fun op hop => (exec_spec hs hop).mono fun _ _ h => h.2⟩

/-- The heap behind a call that returns. -/
def PacketOp.next (op : PacketOp) (s : Heap) : Heap :=
  match op.exec.run s with
  | .ok (_, t) => t
  | .error _ => s

/-- The fault of a call. -/
def PacketOp.fault (op : PacketOp) (s : Heap) : Option PacketFault :=
  match op.exec.run s with
  | .ok _ => none
  | .error e => some e

theorem packetStep_next (h : op.fault s = none) : PacketStep s op (op.next s) := by
  rw [PacketOp.fault] at h
  rw [PacketStep, PacketOp.next]
  cases hrun : op.exec.run s with
  | ok x => exact ⟨x.1, rfl⟩
  | error e =>
    rw [hrun] at h
    exact absurd h (by simp)

/-- A packet with one byte. -/
def onePacket : Heap := (PacketOp.append 0 [1]).next (PacketOp.alloc.next emptyHeap)

/-- A packet with one byte, and a duplicate of it. -/
def sharedPacket : Heap := (PacketOp.dup 0 ⟨0, by decide⟩ ⟨1, by decide⟩).next onePacket

theorem onePacket_run : Run (Guarded PacketOk PacketStep) emptyHeap [.alloc, .append 0 [1]]
    onePacket := by
  refine .cons ⟨trivial, packetStep_next (by decide)⟩ (.single ⟨⟨[], ?_, by decide, ?_⟩,
    packetStep_next (by decide)⟩)
  · decide
  · intro _ f hf
    have hlast : ((PacketOp.alloc.next emptyHeap).packet 0).last = none := by decide
    rw [hlast] at hf
    exact absurd hf (by simp)

theorem packets_refine_shared : Run (Guarded PacketOk PacketStep) emptyHeap
      [.alloc, .append 0 [1], .dup 0 ⟨0, by decide⟩ ⟨1, by decide⟩] sharedPacket ∧
    sharedPacket.InOrder ∧ ∀ op, PacketOk sharedPacket op →
      Returns op.exec sharedPacket fun r t => op.Effect sharedPacket r t := by
  have hone : onePacket.abs 0 ≠ none := by decide
  have hrun : Run (Guarded PacketOk PacketStep) emptyHeap
      [.alloc, .append 0 [1], .dup 0 ⟨0, by decide⟩ ⟨1, by decide⟩] sharedPacket :=
    onePacket_run.snoc ⟨⟨hone, fun _ _ => by decide⟩, packetStep_next (by decide)⟩
  exact ⟨hrun, packets_refine hrun⟩

/-- **The abort is reached**: a packet with a byte, a duplicate of it, and one more byte for
the packet. -/
theorem append_shared_aborts : ¬∀ (s : Heap) (ops : List PacketOp) (op : PacketOp),
    Run PacketStep emptyHeap ops s → op.Live s → op.fault s ≠ some .abort := by
  intro h
  refine h sharedPacket [.alloc, .append 0 [1], .dup 0 ⟨0, by decide⟩ ⟨1, by decide⟩]
    (.append 0 [2]) ?_ ?_ ?_
  · exact Run.snoc (Run.of_guarded onePacket_run) (packetStep_next (by decide))
  · change sharedPacket.abs 0 ≠ none
    decide
  · decide

end LibVenti

end Plan9
