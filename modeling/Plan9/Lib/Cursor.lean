import Mathlib.Tactic.SplitIfs
import Plan9.Lib.Wire

/-!
# Decoders that walk over memory

A decoder holds a pointer into a piece of memory and may refuse what it finds there. Pointers are
added up as the machine does it, modulo the size of its address space, and a read or a write outside
the memory is an outcome of its own.

Two judgements say what a decoder does, both with a rule for each operation:

* `Plan9.Lib.Walks` – on any memory, the decoder never goes astray, and if it does not refuse it
  has read a message;
* `Plan9.Lib.Takes` – the decoder does not refuse a given message.

What a message ends in may be bulk data, which is skipped: there a length that is not bounded may
carry the pointer around the address space, so the first judgement has two cases.
-/

namespace Plan9

namespace Lib

open List

/-- How a decoder ends early: it refuses, or touches memory that is not its own. -/
inductive Stop where
  | refused
  | wild
deriving DecidableEq

/-- The pointer, and the memory it walks over. -/
structure Cursor where
  p : ℕ
  mem : List UInt8

/-- Where the memory is: its address, and the size of the address space. -/
structure Region where
  space : ℕ
  addr : ℕ

/-- A decoder. -/
abbrev Decoder := StateT Cursor (Except Stop)

/-! ### Operations -/

section Operations

variable (r : Region)

/-- Refuse if `k` bytes from here on end behind the memory. -/
def room (k : ℕ) : Decoder Unit := fun c =>
  if r.addr + c.mem.length < (c.p + k) % r.space then .error .refused else .ok ((), c)

/-- The `k` bytes that begin `i` bytes from here. -/
def load (i k : ℕ) : Decoder (List UInt8) := fun c =>
  if r.addr ≤ c.p ∧ c.p + i + k ≤ r.addr + c.mem.length then
    .ok ((c.mem.drop (c.p + i - r.addr)).take k, c)
  else .error .wild

/-- Write bytes from here on. -/
def store (bs : List UInt8) : Decoder Unit := fun c =>
  if r.addr ≤ c.p ∧ c.p + bs.length ≤ r.addr + c.mem.length then
    .ok ((), { c with
      mem := c.mem.take (c.p - r.addr) ++ (bs ++ c.mem.drop (c.p - r.addr + bs.length)) })
  else .error .wild

/-- Move the pointer. -/
def skip (k : ℕ) : Decoder Unit := fun c => .ok ((), { c with p := (c.p + k) % r.space })

/-- The pointer. -/
def here : Decoder ℕ := fun c => .ok (c.p, c)

/-- The number on the next `k` bytes. -/
def number (k : ℕ) : Decoder ℕ := do
  let b ← load r 0 k
  skip r k
  return leVal b

/-- The place of `n` bytes of bulk data, which are skipped. -/
def bulk (n : ℕ) : Decoder ℕ := do
  room r n
  let p ← here
  skip r n
  return p

end Operations

/-! ### Running them -/

section Run

variable {r : Region} {α β : Type} {pre post : List UInt8} {k i : ℕ}

/-- The pointer stands between two parts of the memory. -/
def Cursor.between (r : Region) (pre post : List UInt8) : Cursor :=
  ⟨r.addr + pre.length, pre ++ post⟩

/-- The memory does not reach the last 64 KB of the address space. -/
def Region.Holds (r : Region) (mem : List UInt8) : Prop := r.addr + mem.length + 65536 < r.space

theorem Region.Holds.of_length {mem mem' : List UInt8} (h : r.Holds mem)
    (hlen : mem'.length = mem.length) : r.Holds mem' := by
  rwa [Region.Holds, hlen]

theorem decoder_bind_of_ok {d : Decoder α} {f : α → Decoder β} {c c' : Cursor} {x : α}
    (h : d.run c = .ok (x, c')) : (d >>= f).run c = (f x).run c' := by
  rw [StateT.run_bind, h]
  rfl

theorem decoder_bind_of_error {d : Decoder α} {f : α → Decoder β} {c : Cursor} {e : Stop}
    (h : d.run c = .error e) : (d >>= f).run c = .error e := by
  rw [StateT.run_bind, h]
  rfl

theorem room_between (h : r.Holds (pre ++ post)) (hk : k ≤ 65536) :
    (room r k).run (.between r pre post) =
      if k ≤ post.length then .ok ((), .between r pre post) else .error .refused := by
  have hlen : (pre ++ post).length = pre.length + post.length := length_append
  have hsmall : r.addr + pre.length + k < r.space := by
    rw [Region.Holds, hlen] at h
    omega
  change (if r.addr + (pre ++ post).length < (r.addr + pre.length + k) % r.space then _ else _) = _
  rw [Nat.mod_eq_of_lt hsmall, hlen]
  split_ifs <;> first | rfl | omega

theorem load_between (h : i + k ≤ post.length) : (load r i k).run (.between r pre post) =
      .ok ((post.drop i).take k, .between r pre post) := by
  have hlen : (pre ++ post).length = pre.length + post.length := length_append
  have hdrop : (pre ++ post).drop (r.addr + pre.length + i - r.addr) = post.drop i := by
    rw [show r.addr + pre.length + i - r.addr = pre.length + i by omega, drop_length_add_append]
  have hin : r.addr + pre.length + i + k ≤ r.addr + (pre ++ post).length := by omega
  exact (if_pos ⟨Nat.le_add_right _ _, hin⟩).trans
    (congrArg (fun b => Except.ok (List.take k b, Cursor.between r pre post)) hdrop)

theorem store_between {bs : List UInt8} (h : bs.length ≤ post.length) :
    (store r bs).run (.between r pre post) =
      .ok ((), .between r pre (bs ++ post.drop bs.length)) := by
  have hlen : (pre ++ post).length = pre.length + post.length := length_append
  have hsub : r.addr + pre.length - r.addr = pre.length := Nat.add_sub_cancel_left ..
  have hmem : (pre ++ post).take (r.addr + pre.length - r.addr) ++
      (bs ++ (pre ++ post).drop (r.addr + pre.length - r.addr + bs.length)) =
        pre ++ (bs ++ post.drop bs.length) := by
    rw [hsub, take_left, drop_length_add_append]
  have hin : r.addr + pre.length + bs.length ≤ r.addr + (pre ++ post).length := by omega
  exact (if_pos ⟨Nat.le_add_right _ _, hin⟩).trans
    (congrArg (fun m => Except.ok ((), Cursor.mk (r.addr + pre.length) m)) hmem)

theorem skip_between (h : r.Holds (pre ++ post)) (hk : k ≤ post.length) :
    (skip r k).run (.between r pre post) =
      .ok ((), .between r (pre ++ post.take k) (post.drop k)) := by
  have hlen : (pre ++ post).length = pre.length + post.length := length_append
  have hmem : pre ++ post.take k ++ post.drop k = pre ++ post := by
    rw [append_assoc, take_append_drop]
  have hp : (r.addr + pre.length + k) % r.space = r.addr + (pre ++ post.take k).length := by
    rw [Region.Holds, hlen] at h
    rw [Nat.mod_eq_of_lt (by omega), length_append, length_take, Nat.min_eq_left hk, Nat.add_assoc]
  change Except.ok ((), Cursor.mk ((r.addr + pre.length + k) % r.space) (pre ++ post)) = _
  rw [hp, Cursor.between, hmem]

theorem here_between : (here).run (.between r pre post) =
    .ok (r.addr + pre.length, .between r pre post) := rfl

theorem number_between (h : r.Holds (pre ++ post)) (hk : k ≤ post.length) :
    (number r k).run (.between r pre post) =
      .ok (leVal (post.take k), .between r (pre ++ post.take k) (post.drop k)) := by
  rw [number, decoder_bind_of_ok (load_between (by omega)), decoder_bind_of_ok (skip_between h hk)]
  rfl

/-- Bulk data is skipped, unless it is refused; what wraps around the address space is not. -/
theorem bulk_between : (bulk r k).run (.between r pre post) = .error .refused ∨
      ((k ≤ post.length ∨ r.space ≤ r.addr + pre.length + k) ∧
        (bulk r k).run (.between r pre post) =
          .ok (r.addr + pre.length, ⟨(r.addr + pre.length + k) % r.space, pre ++ post⟩)) := by
  have hlen : (pre ++ post).length = pre.length + post.length := length_append
  rcases Nat.lt_or_ge (r.addr + (pre ++ post).length) ((r.addr + pre.length + k) % r.space)
    with hroom | hroom
  · exact .inl (decoder_bind_of_error (if_pos hroom))
  · have hrun : (room r k).run (.between r pre post) = .ok ((), .between r pre post) :=
      if_neg (Nat.not_lt.2 hroom)
    refine .inr ⟨?_, ?_⟩
    · by_contra hnot
      rw [Nat.mod_eq_of_lt (by omega)] at hroom
      omega
    · rw [bulk, decoder_bind_of_ok hrun, decoder_bind_of_ok here_between]
      rfl

theorem bulk_between_of (hk : k ≤ post.length ∨ r.space ≤ r.addr + pre.length + k ∧ k ≤ r.space) :
    (bulk r k).run (.between r pre post) =
      .ok (r.addr + pre.length, ⟨(r.addr + pre.length + k) % r.space, pre ++ post⟩) := by
  have hlen : (pre ++ post).length = pre.length + post.length := length_append
  have hroom : (r.addr + pre.length + k) % r.space ≤ r.addr + (pre ++ post).length := by
    rcases hk with hk | ⟨hwrap, hk⟩
    · exact (Nat.mod_le _ _).trans (by omega)
    · rw [Nat.mod_eq_sub_mod hwrap]
      exact (Nat.mod_le _ _).trans (by omega)
  have hrun : (room r k).run (.between r pre post) = .ok ((), .between r pre post) :=
    if_neg (Nat.not_lt.2 hroom)
  rw [bulk, decoder_bind_of_ok hrun, decoder_bind_of_ok here_between]
  rfl

end Run

/-! ### What a decoder reads -/

section Judgements

variable {α β : Type} {r : Region} {d : Decoder α} {f : ℕ → Decoder α} {n k : ℕ} {x : α}
  {V : α → List (Val ℕ) → Option (ℕ × ℕ) → Prop} {vs : List (Val (List UInt8))} {b : Option ℕ}
  {pre post : List UInt8}

/-- The decoder has read values and perhaps, behind them, bulk data of length `b`. -/
def Success (r : Region) (d : Decoder α) (pre : List UInt8) (vs : List (Val (List UInt8)))
    (b : Option ℕ) (post : List UInt8) (V : α → List (Val ℕ) → Option (ℕ × ℕ) → Prop) : Prop :=
  ∃ x, d.run (.between r pre (Val.wire vs ++ post)) =
      .ok (x, ⟨(r.addr + pre.length + (Val.wire vs).length + b.getD 0) % r.space,
        pre ++ (Val.cooked vs ++ post)⟩) ∧
    V x (Val.places (r.addr + pre.length) vs)
      (b.map fun k => (k, r.addr + pre.length + (Val.wire vs).length))

/-- **On any memory** with `n` bytes ahead the decoder stays inside: it has refused, or it has read
values that fit. Bulk data may only be missing if its length wraps around the address space. -/
def Walks (r : Region) (n : ℕ) (d : Decoder α)
    (V : α → List (Val ℕ) → Option (ℕ × ℕ) → Prop) : Prop :=
  ∀ pre rest, r.Holds (pre ++ rest) → n ≤ rest.length →
    d.run (.between r pre rest) = .error .refused ∨
      ∃ vs b post, rest = Val.wire vs ++ post ∧ (∀ v ∈ vs, v.Fits) ∧
        (∀ k ∈ b, k ≤ post.length ∨ r.space ≤ r.addr + pre.length + (Val.wire vs).length + k) ∧
        Success r d pre vs b post V

/-- **The decoder takes** given values, and bulk data of a length that the memory holds or that
wraps around the address space. -/
def Takes (r : Region) (d : Decoder α) (vs : List (Val (List UInt8))) (b : Option ℕ)
    (V : α → List (Val ℕ) → Option (ℕ × ℕ) → Prop) : Prop :=
  ∀ pre post, r.Holds (pre ++ (Val.wire vs ++ post)) →
    (∀ k ∈ b, k ≤ post.length ∨
      r.space ≤ r.addr + pre.length + (Val.wire vs).length + k ∧ k ≤ r.space) →
    Success r d pre vs b post V

theorem Success.pure (h : V x [] none) (hr : r.Holds (pre ++ post)) :
    Success r (pure x) pre [] none post V := by
  have hlen : (pre ++ post).length = pre.length + post.length := length_append
  have hmod : (r.addr + pre.length + (Val.wire []).length + (none : Option ℕ).getD 0) % r.space =
      r.addr + pre.length := by
    rw [Region.Holds, hlen] at hr
    exact Nat.mod_eq_of_lt (by simp only [Val.wire_nil, length_nil, Option.getD_none]; omega)
  exact ⟨x, by rw [hmod]; rfl, h⟩

/-- One value has been read. -/
theorem Success.cons {e : Decoder α} (v : Val (List UInt8))
    (hrun : d.run (.between r pre (v.bytes ++ (Val.wire vs ++ post))) =
      e.run (.between r (pre ++ v.cook) (Val.wire vs ++ post)))
    (h : Success r e (pre ++ v.cook) vs b post
      fun x vs b => V x (v.place (r.addr + pre.length) :: vs) b) :
    Success r d pre (v :: vs) b post V := by
  have hlen : r.addr + (pre ++ v.cook).length = r.addr + pre.length + v.bytes.length := by
    rw [length_append, Val.length_cook, Nat.add_assoc]
  have haddr : r.addr + (pre ++ v.cook).length + (Val.wire vs).length =
      r.addr + pre.length + (Val.wire (v :: vs)).length := by
    rw [hlen, Val.wire_cons, length_append, Nat.add_assoc _ v.bytes.length]
  obtain ⟨x, hok, hV⟩ := h
  rw [haddr] at hok hV
  refine ⟨x, ?_, ?_⟩
  · rw [Val.wire_cons, append_assoc, hrun, hok, Val.cooked_cons, Val.wire_cons]
    simp only [append_assoc]
  · rwa [hlen] at hV

theorem Success.map {e : β → α} {d : Decoder β} {W : β → List (Val ℕ) → Option (ℕ × ℕ) → Prop}
    (h : Success r d pre vs b post W) (hV : ∀ y vs b, W y vs b → V (e y) vs b) :
    Success r (d >>= fun y => Pure.pure (e y)) pre vs b post V := by
  obtain ⟨y, hok, hW⟩ := h
  exact ⟨e y, decoder_bind_of_ok hok, hV _ _ _ hW⟩

theorem Walks.mono {m : ℕ} (h : Walks r n d V) (hnm : n ≤ m) : Walks r m d V :=
  fun pre rest hr hm => h pre rest hr (hnm.trans hm)

theorem Walks.map {e : β → α} {d : Decoder β} {W : β → List (Val ℕ) → Option (ℕ × ℕ) → Prop}
    (h : Walks r n d W) (hV : ∀ y vs b, W y vs b → V (e y) vs b) :
    Walks r n (d >>= fun y => Pure.pure (e y)) V := by
  intro pre rest hr hn
  rcases h pre rest hr hn with h | ⟨vs, b, post, hrest, hfits, hb, h⟩
  · exact .inl (decoder_bind_of_error h)
  · exact .inr ⟨vs, b, post, hrest, hfits, hb, h.map hV⟩

theorem Takes.map {e : β → α} {d : Decoder β} {W : β → List (Val ℕ) → Option (ℕ × ℕ) → Prop}
    (h : Takes r d vs b W) (hV : ∀ y vs b, W y vs b → V (e y) vs b) :
    Takes r (d >>= fun y => Pure.pure (e y)) vs b V :=
  fun pre post hr hb => (h pre post hr hb).map hV

theorem Walks.refuse : Walks r n (throw .refused : Decoder α) V := fun _ _ _ _ => .inl rfl

theorem Walks.pure (h : V x [] none) : Walks r n (Pure.pure x) V :=
  fun _ rest hr _ => .inr ⟨[], none, rest, rfl, forall_mem_nil _, by simp, .pure h hr⟩

theorem Takes.pure (h : V x [] none) : Takes r (Pure.pure x) [] none V := fun _ _ hr _ => .pure h hr

/-- What is ahead of the pointer has been checked. -/
theorem Walks.room (hk : k ≤ 65536) (h : Walks r k d V) :
    Walks r n (Lib.room r k >>= fun _ => d) V := by
  intro pre rest hr _
  have hrun := room_between (k := k) hr hk
  by_cases hrest : k ≤ rest.length
  · rw [if_pos hrest] at hrun
    simp only [Success, decoder_bind_of_ok hrun]
    rcases h pre rest hr hrest with h | ⟨vs, b, post, hpost, hall, hb, hok⟩
    · exact .inl h
    · subst hpost
      exact .inr ⟨vs, b, post, rfl, hall, hb, by rwa [decoder_bind_of_ok hrun]⟩
  · rw [if_neg hrest] at hrun
    exact .inl (decoder_bind_of_error hrun)

theorem Takes.room (hk : k ≤ 65536) (hle : k ≤ (Val.wire vs).length) (h : Takes r d vs b V) :
    Takes r (Lib.room r k >>= fun _ => d) vs b V := by
  intro pre post hr hb
  have hrun := room_between (k := k) hr hk
  rw [if_pos (by rw [length_append]; omega)] at hrun
  obtain ⟨x, hok, hV⟩ := h pre post hr hb
  exact ⟨x, by rwa [decoder_bind_of_ok hrun], hV⟩

/-- One value is walked over. -/
theorem Walks.cons {e : Decoder α} {v : Val (List UInt8)} {rest : List UInt8} (hfits : v.Fits)
    (hr : r.Holds (pre ++ (v.bytes ++ rest)))
    (hrun : d.run (.between r pre (v.bytes ++ rest)) = e.run (.between r (pre ++ v.cook) rest))
    (hn : n ≤ rest.length)
    (h : Walks r n e fun x vs b => V x (v.place (r.addr + pre.length) :: vs) b) :
    d.run (.between r pre (v.bytes ++ rest)) = .error .refused ∨
      ∃ vs b post, v.bytes ++ rest = Val.wire vs ++ post ∧ (∀ v ∈ vs, v.Fits) ∧
        (∀ k ∈ b, k ≤ post.length ∨ r.space ≤ r.addr + pre.length + (Val.wire vs).length + k) ∧
        Success r d pre vs b post V := by
  have hr' : r.Holds ((pre ++ v.cook) ++ rest) := hr.of_length (by
    simp only [length_append, Val.length_cook, Nat.add_assoc])
  rcases h _ _ hr' hn with h | ⟨vs, b, post, hpost, hall, hb, hok⟩
  · exact .inl (hrun.trans h)
  · subst hpost
    refine .inr ⟨v :: vs, b, post, ?_, forall_mem_cons.2 ⟨hfits, hall⟩, fun k hk => ?_,
      .cons v hrun hok⟩
    · rw [Val.wire_cons, append_assoc]
    · refine (hb k hk).imp_right fun h => h.trans_eq ?_
      rw [Val.wire_cons, length_append, length_append, Val.length_cook]
      omega

theorem Takes.cons {e : Decoder α} {v : Val (List UInt8)}
    (hrun : d.run (.between r pre (v.bytes ++ (Val.wire vs ++ post))) =
      e.run (.between r (pre ++ v.cook) (Val.wire vs ++ post)))
    (hr : r.Holds (pre ++ (v.bytes ++ (Val.wire vs ++ post))))
    (hb : ∀ k ∈ b, k ≤ post.length ∨
      r.space ≤ r.addr + pre.length + (Val.wire (v :: vs)).length + k ∧ k ≤ r.space)
    (h : Takes r e vs b fun x vs b => V x (v.place (r.addr + pre.length) :: vs) b) :
    Success r d pre (v :: vs) b post V := by
  refine .cons v hrun (h _ _ (hr.of_length ?_) fun k hk => ?_)
  · simp only [length_append, Val.length_cook, Nat.add_assoc]
  · refine (hb k hk).imp_right fun h => ⟨h.1.trans_eq ?_, h.2⟩
    rw [Val.wire_cons, length_append, length_append, Val.length_cook]
    omega

theorem number_bytes_between {m : ℕ} (hm : m < 256 ^ k)
    (hr : r.Holds (pre ++ ((Val.num k m).bytes ++ post))) :
    (Lib.number r k).run (.between r pre ((Val.num k m).bytes ++ post)) =
      .ok (m, .between r (pre ++ (Val.num k m).cook) post) := by
  have hlen : (Val.num k m).bytes.length = k := length_leBytes k m
  have hval : leVal (Val.num k m).bytes = m := leVal_leBytes hm
  have hrun := number_between (k := k) hr (by rw [length_append]; omega)
  rw [take_left' hlen, drop_left' hlen, hval] at hrun
  exact hrun

theorem Walks.number (hk : k ≤ n)
    (h : ∀ v < 256 ^ k, Walks r (n - k) (f v) fun x vs b => V x (.num k v :: vs) b) :
    Walks r n (Lib.number r k >>= f) V := by
  intro pre rest hr hn
  have hlen : (rest.take k).length = k := by
    rw [length_take]
    omega
  have hlt : leVal (rest.take k) < 256 ^ k := (leVal_lt _).trans_eq (by rw [hlen])
  have hrest : rest = (Val.num k (leVal (rest.take k))).bytes ++ rest.drop k := by
    rw [Val.bytes, leBytes_leVal_of_length hlen, take_append_drop]
  rw [hrest] at hr ⊢
  exact Walks.cons (n := n - k) hlt hr (decoder_bind_of_ok (number_bytes_between hlt hr))
    (by rw [length_drop]; omega) (h _ hlt)

theorem Takes.number {m : ℕ} (hm : m < 256 ^ k)
    (h : Takes r (f m) vs b fun x vs b => V x (.num k m :: vs) b) :
    Takes r (Lib.number r k >>= f) (.num k m :: vs) b V := by
  intro pre post hr hb
  rw [Val.wire_cons, append_assoc] at hr
  exact Takes.cons (decoder_bind_of_ok (number_bytes_between hm hr)) hr hb h

/-- The bulk data comes last. -/
theorem Walks.bulk {g : ℕ → α} (h : ∀ p, V (g p) [] (some (k, p))) :
    Walks r n (Lib.bulk r k >>= fun p => Pure.pure (g p)) V := by
  intro pre rest _ _
  rcases bulk_between with hrun | ⟨hcases, hrun⟩
  · exact .inl (decoder_bind_of_error hrun)
  · refine .inr ⟨[], some k, rest, rfl, forall_mem_nil _, ?_,
      ⟨g (r.addr + pre.length), decoder_bind_of_ok hrun, h _⟩⟩
    intro m hm
    obtain rfl := Option.mem_some_iff.1 hm
    exact hcases

theorem Takes.bulk {g : ℕ → α} (h : ∀ p, V (g p) [] (some (k, p))) :
    Takes r (Lib.bulk r k >>= fun p => Pure.pure (g p)) [] (some k) V :=
  fun pre _ _ hb => ⟨g (r.addr + pre.length),
    decoder_bind_of_ok (bulk_between_of (hb k (Option.mem_some_self k))), h _⟩

end Judgements

end Lib

end Plan9
