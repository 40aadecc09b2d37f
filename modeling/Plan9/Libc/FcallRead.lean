import Mathlib.Data.List.Forall2
import Plan9.Libc.FcallWire

/-!
# Reading 9P messages

The parts of `convM2S.c`, from the numbers to the switch, follow the layout: from any memory they
read values of the layout or refuse, and they take a message.

* `Plan9.Libc.walks_gstring`, `Plan9.Libc.takes_gstring` – strings, which are moved down;
* `Plan9.Libc.walks_parseBody`, `Plan9.Libc.takes_parseBody` – the switch.
-/

namespace Plan9

namespace Libc

open Lib

open List hiding Vector

section Read

variable {α β : Type} {r : Region} {n k : ℕ}
  {V : α → List (Val ℕ) → Option (ℕ × ℕ) → Prop} {vs : List (Val (List UInt8))}
  {b : Option ℕ} {pre post rest : List UInt8}

/-! ### Numbers -/

theorem number_map_bind {g : ℕ → β} {f : β → Decoder α} :
    ((do return g (← number r k)) >>= f) = number r k >>= fun v => f (g v) := by
  simp only [bind_assoc, pure_bind]

theorem walks_number {g : ℕ → β} {t : β → ℕ} {f : β → Decoder α}
    (hg : ∀ v < 256 ^ k, t (g v) = v) (hk : k ≤ n)
    (h : ∀ x, Walks r (n - k) (f x) fun y vs b => V y (.num k (t x) :: vs) b) :
    Walks r n ((do return g (← number r k)) >>= f) V := by
  rw [number_map_bind]
  refine Walks.number hk fun v hv => ?_
  have hx := h (g v)
  rwa [hg v hv] at hx

theorem takes_number {g : ℕ → β} {t : β → ℕ} {f : β → Decoder α} {x : β} (ht : t x < 256 ^ k)
    (hg : g (t x) = x) (h : Takes r (f x) vs b fun y vs b => V y (.num k (t x) :: vs) b) :
    Takes r ((do return g (← number r k)) >>= f) (.num k (t x) :: vs) b V := by
  rw [number_map_bind]
  refine Takes.number ht ?_
  rwa [hg]

theorem walks_gbit8 {f : UInt8 → Decoder α} (hk : 1 ≤ n)
    (h : ∀ x : UInt8, Walks r (n - 1) (f x) fun y vs b => V y (.num 1 x.toNat :: vs) b) :
    Walks r n (gbit8 r >>= f) V :=
  walks_number (fun _ hv => UInt8.toNat_ofNat_of_lt' hv) hk h

theorem walks_gbit16 {f : UInt16 → Decoder α} (hk : 2 ≤ n)
    (h : ∀ x : UInt16, Walks r (n - 2) (f x) fun y vs b => V y (.num 2 x.toNat :: vs) b) :
    Walks r n (gbit16 r >>= f) V :=
  walks_number (fun _ hv => UInt16.toNat_ofNat_of_lt' hv) hk h

theorem walks_gbit32 {f : UInt32 → Decoder α} (hk : 4 ≤ n)
    (h : ∀ x : UInt32, Walks r (n - 4) (f x) fun y vs b => V y (.num 4 x.toNat :: vs) b) :
    Walks r n (gbit32 r >>= f) V :=
  walks_number (fun _ hv => UInt32.toNat_ofNat_of_lt' hv) hk h

theorem walks_gbit64 {f : UInt64 → Decoder α} (hk : 8 ≤ n)
    (h : ∀ x : UInt64, Walks r (n - 8) (f x) fun y vs b => V y (.num 8 x.toNat :: vs) b) :
    Walks r n (gbit64 r >>= f) V :=
  walks_number (fun _ hv => UInt64.toNat_ofNat_of_lt' hv) hk h

theorem takes_gbit8 {f : UInt8 → Decoder α} {x : UInt8}
    (h : Takes r (f x) vs b fun y vs b => V y (.num 1 x.toNat :: vs) b) :
    Takes r (gbit8 r >>= f) (.num 1 x.toNat :: vs) b V :=
  takes_number x.toNat_lt UInt8.ofNat_toNat h

theorem takes_gbit16 {f : UInt16 → Decoder α} {x : UInt16}
    (h : Takes r (f x) vs b fun y vs b => V y (.num 2 x.toNat :: vs) b) :
    Takes r (gbit16 r >>= f) (.num 2 x.toNat :: vs) b V :=
  takes_number x.toNat_lt UInt16.ofNat_toNat h

theorem takes_gbit32 {f : UInt32 → Decoder α} {x : UInt32}
    (h : Takes r (f x) vs b fun y vs b => V y (.num 4 x.toNat :: vs) b) :
    Takes r (gbit32 r >>= f) (.num 4 x.toNat :: vs) b V :=
  takes_number x.toNat_lt UInt32.ofNat_toNat h

theorem takes_gbit64 {f : UInt64 → Decoder α} {x : UInt64}
    (h : Takes r (f x) vs b fun y vs b => V y (.num 8 x.toNat :: vs) b) :
    Takes r (gbit64 r >>= f) (.num 8 x.toNat :: vs) b V :=
  takes_number x.toNat_lt UInt64.ofNat_toNat h

/-! ### Strings -/

/-- The length of a string has been read. -/
theorem gstring_between_cons {lo hi : UInt8} (hr : r.Holds (pre ++ lo :: hi :: rest)) :
    (gstring r).run (.between r pre (lo :: hi :: rest)) = (do
        room r (leVal [lo, hi] + 1)
        let s ← load r 1 (leVal [lo, hi])
        store r (s ++ [0])
        let p ← here
        skip r (leVal [lo, hi] + 1)
        return p).run (.between r (pre ++ [lo]) (hi :: rest)) := by
  have hroom := room_between (k := 2) hr (by norm_num)
  rw [if_pos (by simp)] at hroom
  have hload : (load r 0 2).run (.between r pre (lo :: hi :: rest)) = _ := load_between (by simp)
  have hskip := skip_between (k := 1) hr (by simp)
  rw [gstring, decoder_bind_of_ok hroom, decoder_bind_of_ok hload, decoder_bind_of_ok hskip]
  rfl

variable {s : List UInt8}

/-- **A string is moved** over the high byte of its length. -/
theorem gstring_between (hs : s.length < 65536)
    (hr : r.Holds (pre ++ ((Val.str s).bytes ++ post))) :
    (gstring r).run (.between r pre ((Val.str s).bytes ++ post)) =
      .ok (r.addr + pre.length + 1, .between r (pre ++ (Val.str s).cook) post) := by
  obtain ⟨lo, hi, hlen⟩ := length_eq_two.1 (length_leBytes 2 s.length)
  have hval : leVal [lo, hi] = s.length := hlen ▸ leVal_leBytes hs
  have hbytes : (Val.str s).bytes ++ post = lo :: hi :: (s ++ post) := by
    rw [Val.bytes, hlen]
    rfl
  have hcook : pre ++ (Val.str s).cook = pre ++ [lo] ++ (s ++ [0]) := by
    rw [Val.cook, hlen, append_assoc, append_assoc]
    rfl
  rw [hbytes] at hr ⊢
  have hr' : r.Holds ((pre ++ [lo]) ++ hi :: (s ++ post)) := hr.of_length (by simp)
  have hroom := room_between (k := s.length + 1) hr' (by omega)
  rw [if_pos (by simp)] at hroom
  have hload : (load r 1 s.length).run (.between r (pre ++ [lo]) (hi :: (s ++ post))) = _ :=
    load_between (by rw [length_cons, length_append]; omega)
  rw [drop_one, tail_cons, take_left] at hload
  have hstore : (store r (s ++ [0])).run (.between r (pre ++ [lo]) (hi :: (s ++ post))) = _ :=
    store_between (by simp)
  rw [length_append, length_singleton, drop_succ_cons, drop_left] at hstore
  have hskip : (skip r (s.length + 1)).run (.between r (pre ++ [lo]) ((s ++ [0]) ++ post)) = _ :=
    skip_between (hr'.of_length (by simp only [length_append, length_cons, length_nil]; omega))
      (by simp)
  rw [take_left' (by simp), drop_left' (by simp)] at hskip
  rw [gstring_between_cons hr, hval, decoder_bind_of_ok hroom, decoder_bind_of_ok hload,
    decoder_bind_of_ok hstore, decoder_bind_of_ok here_between, decoder_bind_of_ok hskip, hcook,
    length_append, length_singleton, ← Nat.add_assoc]
  rfl

/-- What is not a string is refused. -/
theorem gstring_refused (hr : r.Holds (pre ++ rest))
    (h : ∀ s post, rest = (Val.str s).bytes ++ post → 65536 ≤ s.length) :
    (gstring r).run (.between r pre rest) = .error .refused := by
  rcases rest with - | ⟨lo, - | ⟨hi, rest⟩⟩
  · exact decoder_bind_of_error ((room_between hr (by norm_num)).trans (if_neg (by simp)))
  · exact decoder_bind_of_error ((room_between hr (by norm_num)).trans (if_neg (by simp)))
  · have hlt : leVal [lo, hi] < 65536 := (leVal_lt [lo, hi]).trans_eq (by norm_num)
    have hshort : rest.length < leVal [lo, hi] := by
      by_contra hle
      have hlen : (rest.take (leVal [lo, hi])).length = leVal [lo, hi] := by
        rw [length_take]
        omega
      have hbytes : leBytes 2 (leVal [lo, hi]) = [lo, hi] := leBytes_leVal [lo, hi]
      have h' := h (rest.take (leVal [lo, hi])) (rest.drop (leVal [lo, hi])) (by
        rw [Val.bytes, hlen, hbytes, append_assoc, take_append_drop]
        rfl)
      omega
    have hr' : r.Holds ((pre ++ [lo]) ++ hi :: rest) := hr.of_length (by simp)
    rw [gstring_between_cons hr]
    exact decoder_bind_of_error ((room_between hr' (by omega)).trans (if_neg (by simp; omega)))

theorem walks_gstring {f : ℕ → Decoder α}
    (h : ∀ p, Walks r 0 (f p) fun y vs b => V y (.str p :: vs) b) :
    Walks r n (gstring r >>= f) V := by
  intro pre rest hr _
  by_cases hs : ∃ s post, rest = (Val.str s).bytes ++ post ∧ s.length < 65536
  · obtain ⟨s, post, hrest, hs⟩ := hs
    subst hrest
    exact Walks.cons hs hr (decoder_bind_of_ok (gstring_between hs hr)) (Nat.zero_le _) (h _)
  · refine .inl (decoder_bind_of_error (gstring_refused hr fun s post hrest => ?_))
    exact Nat.not_lt.1 fun hlt => hs ⟨s, post, hrest, hlt⟩

theorem takes_gstring {f : ℕ → Decoder α} (hs : s.length < 65536)
    (h : ∀ p, Takes r (f p) vs b fun y vs b => V y (.str p :: vs) b) :
    Takes r (gstring r >>= f) (.str s :: vs) b V := by
  intro pre post hr hb
  rw [Val.wire_cons, append_assoc] at hr
  exact Takes.cons (decoder_bind_of_ok (gstring_between hs hr)) hr hb (h _)

/-! ### Elements -/

theorem walks_gqid {f : Qid → Decoder α}
    (h : ∀ q, Walks r 0 (f q) fun y vs b => V y (q.fields ++ vs) b) :
    Walks r n (gqid r >>= f) V := by
  rw [gqid]
  simp only [bind_assoc, pure_bind]
  exact .room (by decide) (walks_gbit8 (by decide) fun _ => walks_gbit32 (by decide) fun _ =>
    walks_gbit64 (by decide) fun _ => (h ⟨_, _, _⟩).mono (Nat.zero_le _))

theorem takes_gqid {f : Qid → Decoder α} {q : Qid}
    (h : Takes r (f q) vs b fun y vs b => V y (q.fields ++ vs) b) :
    Takes r (gqid r >>= f) (q.fields ++ vs) b V := by
  rw [gqid]
  simp only [bind_assoc, pure_bind]
  refine .room (by decide) ?_ (takes_gbit8 (takes_gbit32 (takes_gbit64 h)))
  simp [Qid.fields, Val.bytes, qidsz]
  omega

/-- Elements of an array from place `i` on. -/
def fill {m : ℕ} (elems : Vector β m) (i : ℕ) : List β → Vector β m
  | [] => elems
  | x :: xs => if h : i < m then fill (elems.set i x) (i + 1) xs else elems

variable {m i : ℕ}

theorem take_fill (xs : List β) (elems : Vector β m) (h : i + xs.length ≤ m) :
    (fill elems i xs).toList.take (i + xs.length) = elems.toList.take i ++ xs := by
  induction xs generalizing elems i with
  | nil => rw [fill, length_nil, Nat.add_zero, append_nil]
  | cons x xs ih =>
    rw [length_cons] at h ⊢
    have hi : i < m := by omega
    have htake : (elems.set i x).toList.take (i + 1) = elems.toList.take i ++ [x] := by
      rw [Vector.toList_set, take_add_one, take_set_of_le le_rfl,
        List.getElem?_set_self (by simpa using hi)]
      rfl
    rw [fill, dif_pos hi, show i + (xs.length + 1) = i + 1 + xs.length by omega, ih _ (by omega),
      htake, append_assoc, singleton_append]

theorem take_fill_zero {k : ℕ} {xs : List β} (elems : Vector β m) (hlen : xs.length = k)
    (hk : k ≤ m) : (fill elems 0 xs).toList.take k = xs := by
  have h := take_fill xs elems (i := 0) (by omega)
  rwa [Nat.zero_add, hlen, take_zero, nil_append] at h

theorem walks_gelems {g : Decoder β} (vals : β → List (Val ℕ))
    (hg : ∀ (f : β → Decoder α) (V : α → List (Val ℕ) → Option (ℕ × ℕ) → Prop) (n : ℕ),
      (∀ x, Walks r 0 (f x) fun y vs b => V y (vals x ++ vs) b) → Walks r n (g >>= f) V)
    {f : Vector β maxwelem → Decoder α} (elems : Vector β maxwelem) (him : i + m ≤ maxwelem)
    (h : ∀ xs : List β, xs.length = m →
      Walks r 0 (f (fill elems i xs)) fun y vs b => V y (xs.flatMap vals ++ vs) b) :
    Walks r n (gelems g m i elems >>= f) V := by
  induction m generalizing i elems n V with
  | zero =>
    rw [gelems, pure_bind]
    exact (h [] rfl).mono (Nat.zero_le _)
  | succ m ih =>
    have hi : i < maxwelem := by omega
    rw [gelems, bind_assoc]
    refine hg _ _ _ fun x => ?_
    rw [dif_pos hi]
    refine ih _ (by omega) fun xs hxs => ?_
    have hx := h (x :: xs) (by rw [length_cons, hxs])
    rw [fill, dif_pos hi] at hx
    simpa only [flatMap_cons, append_assoc] using hx

theorem takes_gelems {γ : Type} {g : Decoder β} (vals : β → List (Val ℕ))
    (content : γ → List (Val (List UInt8))) (R : γ → β → Prop) {cs : List γ}
    (hg : ∀ c ∈ cs, ∀ (f : β → Decoder α) vs (V : α → List (Val ℕ) → Option (ℕ × ℕ) → Prop),
      (∀ x, R c x → Takes r (f x) vs b fun y vs b => V y (vals x ++ vs) b) →
        Takes r (g >>= f) (content c ++ vs) b V) {f : Vector β maxwelem → Decoder α}
    (elems : Vector β maxwelem) (hm : cs.length = m) (hi : i + m ≤ maxwelem)
    (h : ∀ xs, Forall₂ R cs xs →
      Takes r (f (fill elems i xs)) vs b fun y vs b => V y (xs.flatMap vals ++ vs) b) :
    Takes r (gelems g m i elems >>= f) (cs.flatMap content ++ vs) b V := by
  induction cs generalizing i m elems V with
  | nil =>
    obtain rfl : m = 0 := hm.symm
    rw [gelems, pure_bind]
    exact h [] .nil
  | cons c cs ih =>
    obtain rfl : m = cs.length + 1 := hm.symm
    have hlt : i < maxwelem := by omega
    rw [gelems, bind_assoc, flatMap_cons, append_assoc]
    refine hg c mem_cons_self _ _ _ fun x hx => ?_
    rw [dif_pos hlt]
    refine ih (fun c hc => hg c (mem_cons_of_mem _ hc)) _ rfl (by omega) fun xs hxs => ?_
    have hx := h (x :: xs) (.cons hx hxs)
    rw [fill, dif_pos hlt] at hx
    simpa only [flatMap_cons, append_assoc] using hx

end Read

/-! ### The switch -/

section Switch

variable {r : Region} {n : ℕ}

/-- The structure holds what has been read, no more elements than it has room for, and the type and
the tag that it held. -/
def Got (f : MFcall) (t : MsgType) (g : MFcall) (vs : List (Val ℕ)) (b : Option (ℕ × ℕ)) : Prop :=
  g.fields t = vs ∧ g.bulk t = b ∧ g.type = f.type ∧ g.tag = f.tag ∧ g.nelems t ≤ maxwelem

/-- A structure without elements. -/
theorem got_of {f g : MFcall} {t : MsgType} {vs : List (Val ℕ)} {b : Option (ℕ × ℕ)}
    (h : (g.fields t, g.bulk t, g.type, g.tag, g.nelems t) = (vs, b, f.type, f.tag, 0)) :
    Got f t g vs b := by
  simp only [Prod.mk.injEq] at h
  obtain ⟨hvs, hb, htype, htag, hn⟩ := h
  exact ⟨hvs, hb, htype, htag, hn ▸ Nat.zero_le _⟩

/-- **What is read** from any memory follows the layout. -/
theorem walks_parseBody (f : MFcall) (t : MsgType) : Walks r 0 (parseBody r f t) (Got f t) := by
  cases t with
  | tversion | rversion =>
    exact .room (by decide) (walks_gbit32 (by decide) fun _ => (walks_gstring fun _ =>
      .pure (got_of rfl)))
  | tflush =>
    exact .room (by decide) (walks_gbit16 (by decide) fun _ => .pure (got_of rfl))
  | tauth =>
    exact .room (by decide) (walks_gbit32 (by decide) fun _ => walks_gstring fun _ =>
      walks_gstring fun _ => .pure (got_of rfl))
  | tattach =>
    exact .room (by decide) (walks_gbit32 (by decide) fun _ => .room (by decide)
      (walks_gbit32 (by decide) fun _ => walks_gstring fun _ => walks_gstring fun _ =>
        .pure (got_of rfl)))
  | twalk =>
    refine .room (by decide) (walks_gbit32 (by decide) fun _ => walks_gbit32 (by decide) fun _ =>
      walks_gbit16 (by decide) fun nwname => ?_)
    split_ifs with hn
    · exact .refuse
    · refine walks_gelems (fun p => [.str p]) (fun _ _ _ h => walks_gstring h) _ (by omega)
        fun xs hxs => .pure ⟨?_, rfl, rfl, rfl, Nat.not_lt.1 hn⟩
      rw [Fcall.fields, take_fill_zero f.wname hxs (Nat.not_lt.1 hn), map_eq_flatMap, append_nil]
  | topen =>
    exact .room (by decide) (walks_gbit32 (by decide) fun _ => walks_gbit8 (by decide) fun _ =>
      .pure (got_of rfl))
  | tcreate =>
    exact .room (by decide) (walks_gbit32 (by decide) fun _ => walks_gstring fun _ =>
      .room (by decide) (walks_gbit32 (by decide) fun _ => walks_gbit8 (by decide) fun _ =>
        .pure (got_of rfl)))
  | tread =>
    exact .room (by decide) (walks_gbit32 (by decide) fun _ => walks_gbit64 (by decide) fun _ =>
      walks_gbit32 (by decide) fun _ => .pure (got_of rfl))
  | twrite =>
    exact .room (by decide) (walks_gbit32 (by decide) fun _ => walks_gbit64 (by decide) fun _ =>
      walks_gbit32 (by decide) fun _ => .bulk fun _ => got_of rfl)
  | tclunk | tremove | tstat =>
    exact .room (by decide) (walks_gbit32 (by decide) fun _ => .pure (got_of rfl))
  | twstat =>
    exact .room (by decide) (walks_gbit32 (by decide) fun _ => walks_gbit16 (by decide) fun _ =>
      .bulk fun _ => got_of rfl)
  | rerror => exact walks_gstring fun _ => .pure (got_of rfl)
  | rflush | rclunk | rremove | rwstat => exact .pure (got_of rfl)
  | rauth | rattach => exact walks_gqid fun _ => .pure (got_of rfl)
  | rwalk =>
    refine .room (by decide) (walks_gbit16 (by decide) fun nwqid => ?_)
    split_ifs with hn
    · exact .refuse
    · refine walks_gelems Qid.fields (fun _ _ _ h => walks_gqid h) _ (by omega)
        fun xs hxs => .pure ⟨?_, rfl, rfl, rfl, Nat.not_lt.1 hn⟩
      rw [Fcall.fields, take_fill_zero f.wqid hxs (Nat.not_lt.1 hn), append_nil]
  | ropen | rcreate =>
    exact walks_gqid fun _ => .room (by decide) (walks_gbit32 (by decide) fun _ =>
      .pure (got_of rfl))
  | rread =>
    exact .room (by decide) (walks_gbit32 (by decide) fun _ => .bulk fun _ => got_of rfl)
  | rwrite =>
    exact .room (by decide) (walks_gbit32 (by decide) fun _ => .pure (got_of rfl))
  | rstat =>
    exact .room (by decide) (walks_gbit16 (by decide) fun _ => .bulk fun _ => got_of rfl)

/-- **A message is read** by the switch. -/
theorem takes_parseBody (f : MFcall) (g : SFcall) (t : MsgType) (hn : g.nelems t ≤ maxwelem)
    (hfits : ∀ s, .str s ∈ g.fields t → (cbytes s).length < 65536) :
    Takes r (parseBody r f t) ((g.fields t).map (Val.map cbytes))
      ((g.bulk t).map Prod.fst) (Got f t) := by
  cases t with
  | tversion | rversion =>
    exact .room (by decide) (by simp [Fcall.fields, Val.bytes])
      (takes_gbit32 (takes_gstring (hfits _ (by simp [Fcall.fields])) fun _ => .pure (got_of rfl)))
  | tflush =>
    exact .room (by decide) (by simp [Fcall.fields, Val.bytes])
      (takes_gbit16 (.pure (got_of rfl)))
  | tauth =>
    exact .room (by decide) (by simp [Fcall.fields, Val.bytes])
      (takes_gbit32 (takes_gstring (hfits _ (by simp [Fcall.fields])) fun _ =>
        takes_gstring (hfits _ (by simp [Fcall.fields])) fun _ => .pure (got_of rfl)))
  | tattach =>
    exact .room (by decide) (by simp [Fcall.fields, Val.bytes])
      (takes_gbit32 (.room (by decide) (by simp [Val.bytes])
        (takes_gbit32 (takes_gstring (hfits _ (by simp [Fcall.fields])) fun _ =>
          takes_gstring (hfits _ (by simp [Fcall.fields])) fun _ => .pure (got_of rfl)))))
  | twalk =>
    have hwalk : g.nwname.toNat ≤ maxwelem := hn
    have hlen : (g.wname.toList.take g.nwname.toNat).length = g.nwname.toNat := by
      rw [length_take, Vector.length_toList]
      exact Nat.min_eq_left hwalk
    have hnames : ((g.wname.toList.take g.nwname.toNat).map Val.str).map (Val.map cbytes) =
        ((g.wname.toList.take g.nwname.toNat).flatMap fun s => [.str (cbytes s)]) ++ [] := by
      rw [map_map, append_nil, map_eq_flatMap]
      rfl
    have hs : ∀ s ∈ g.wname.toList.take g.nwname.toNat, (cbytes s).length < 65536 := fun s hs =>
      hfits s (mem_cons_of_mem _ (mem_cons_of_mem _ (mem_cons_of_mem _
        (mem_map_of_mem hs))))
    rw [Fcall.fields, map_cons, map_cons, map_cons, hnames]
    refine .room (by decide) (by simp [Val.bytes]; omega)
      (takes_gbit32 (takes_gbit32 (takes_gbit16 ?_)))
    rw [if_neg (Nat.not_lt.2 hwalk)]
    refine takes_gelems (fun p => [.str p]) (fun s => [.str (cbytes s)]) (fun _ _ => True)
      (fun s hmem _ _ _ h => takes_gstring (hs s hmem) fun p => h p trivial) f.wname hlen
      ((Nat.zero_add _).trans_le hwalk) fun xs hxs => .pure ⟨?_, rfl, rfl, rfl, hwalk⟩
    rw [Fcall.fields, take_fill_zero f.wname (hxs.length_eq.symm.trans hlen) hwalk,
      map_eq_flatMap, append_nil]
  | topen =>
    exact .room (by decide) (by simp [Fcall.fields, Val.bytes])
      (takes_gbit32 (takes_gbit8 (.pure (got_of rfl))))
  | tcreate =>
    exact .room (by decide) (by simp [Fcall.fields, Val.bytes])
      (takes_gbit32 (takes_gstring (hfits _ (by simp [Fcall.fields])) fun _ =>
        .room (by decide) (by simp [Val.bytes])
          (takes_gbit32 (takes_gbit8 (.pure (got_of rfl))))))
  | tread =>
    exact .room (by decide) (by simp [Fcall.fields, Val.bytes])
      (takes_gbit32 (takes_gbit64 (takes_gbit32 (.pure (got_of rfl)))))
  | twrite =>
    exact .room (by decide) (by simp [Fcall.fields, Val.bytes])
      (takes_gbit32 (takes_gbit64 (takes_gbit32 (.bulk fun _ => got_of rfl))))
  | tclunk | tremove | tstat =>
    exact .room (by decide) (by simp [Fcall.fields, Val.bytes])
      (takes_gbit32 (.pure (got_of rfl)))
  | twstat =>
    exact .room (by decide) (by simp [Fcall.fields, Val.bytes])
      (takes_gbit32 (takes_gbit16 (.bulk fun _ => got_of rfl)))
  | rerror =>
    exact takes_gstring (hfits _ (by simp [Fcall.fields])) fun _ => .pure (got_of rfl)
  | rflush | rclunk | rremove | rwstat => exact .pure (got_of rfl)
  | rauth | rattach => exact takes_gqid (.pure (got_of rfl))
  | rwalk =>
    have hwalk : g.nwqid.toNat ≤ maxwelem := hn
    have hlen : (g.wqid.toList.take g.nwqid.toNat).length = g.nwqid.toNat := by
      rw [length_take, Vector.length_toList]
      exact Nat.min_eq_left hwalk
    have hqids : ((g.wqid.toList.take g.nwqid.toNat).flatMap Qid.fields).map (Val.map cbytes) =
        ((g.wqid.toList.take g.nwqid.toNat).flatMap Qid.fields) ++ [] := by
      rw [map_flatMap, append_nil]
      rfl
    rw [Fcall.fields, map_cons, hqids]
    refine .room (by decide) (by simp [Val.bytes]) (takes_gbit16 ?_)
    rw [if_neg (Nat.not_lt.2 hwalk)]
    refine takes_gelems Qid.fields Qid.fields Eq (fun q _ _ _ _ h => takes_gqid (h q rfl)) f.wqid
      hlen ((Nat.zero_add _).trans_le hwalk) fun xs hxs => .pure ⟨?_, rfl, rfl, rfl, hwalk⟩
    rw [Fcall.fields, take_fill_zero f.wqid (hxs.length_eq.symm.trans hlen) hwalk, append_nil]
  | ropen | rcreate =>
    exact takes_gqid (.room (by decide) (by simp [Val.bytes])
      (takes_gbit32 (.pure (got_of rfl))))
  | rread =>
    exact .room (by decide) (by simp [Fcall.fields, Val.bytes])
      (takes_gbit32 (.bulk fun _ => got_of rfl))
  | rwrite =>
    exact .room (by decide) (by simp [Fcall.fields, Val.bytes])
      (takes_gbit32 (.pure (got_of rfl)))
  | rstat =>
    exact .room (by decide) (by simp [Fcall.fields, Val.bytes])
      (takes_gbit16 (.bulk fun _ => got_of rfl))

/-- A message of type `t` has been read, and its size. -/
def Parsed (t : MsgType) (x : ℕ × MFcall) (vs : List (Val ℕ)) (b : Option (ℕ × ℕ)) : Prop :=
  MsgType.ofCode x.2.type = some t ∧ 7 ≤ x.1 ∧ x.2.nelems t ≤ maxwelem ∧
    vs = .num 4 x.1 :: .num 1 x.2.type.toNat :: .num 2 x.2.tag.toNat :: x.2.fields t ∧
    b = x.2.bulk t

/-- **Any memory** is refused, or a message has been read. -/
theorem walks_parse (f : MFcall) : Walks r 0 (parse r f) fun x vs b => ∃ t, Parsed t x vs b := by
  refine .room (by decide) (walks_gbit32 (by decide) fun size => ?_)
  split_ifs with hsize
  · exact .refuse
  · refine walks_gbit8 (by decide) fun type => walks_gbit16 (by decide) fun tag => ?_
    cases ht : MsgType.ofCode type with
    | none => exact .refuse
    | some t =>
      refine Walks.map (walks_parseBody _ t) ?_
      rintro g vs b ⟨hvs, hb, htype, htag, hn⟩
      exact ⟨t, by rw [htype, ht], Nat.not_lt.1 hsize, hn, by rw [htype, htag, hvs], hb.symm⟩

/-- **A message is read.** -/
theorem takes_parse (size : ℕ) (f : MFcall) {g : SFcall} {t : MsgType}
    (ht : MsgType.ofCode g.type = some t) (hsize : 7 ≤ size) (hlt : size < 2 ^ 32)
    (hn : g.nelems t ≤ maxwelem)
    (hfits : ∀ s, .str s ∈ g.fields t → (cbytes s).length < 65536) :
    Takes r (parse r f) (.num 4 size :: .num 1 g.type.toNat :: .num 2 g.tag.toNat ::
      (g.fields t).map (Val.map cbytes)) ((g.bulk t).map Prod.fst)
      fun x vs b => x.1 = size ∧ x.2.type = g.type ∧ x.2.tag = g.tag ∧ Parsed t x vs b := by
  have hval : (UInt32.ofNat size).toNat = size := UInt32.toNat_ofNat_of_lt' hlt
  have h : Takes r (parse r f) (.num 4 (UInt32.ofNat size).toNat :: .num 1 g.type.toNat ::
      .num 2 g.tag.toNat :: (g.fields t).map (Val.map cbytes)) ((g.bulk t).map Prod.fst)
      fun x vs b => x.1 = size ∧ x.2.type = g.type ∧ x.2.tag = g.tag ∧ Parsed t x vs b := by
    refine .room (by decide) (by simp [Val.bytes]; omega) (takes_gbit32 ?_)
    rw [hval, if_neg (Nat.not_lt.2 hsize)]
    refine takes_gbit8 (takes_gbit16 ?_)
    rw [ht]
    refine Takes.map (takes_parseBody _ g t hn hfits) ?_
    rintro k vs b ⟨hvs, hb, htype, htag, hk⟩
    exact ⟨rfl, htype, htag, htype ▸ ht, hsize, hk, by rw [htype, htag, hvs], hb.symm⟩
  rwa [hval] at h

end Switch

end Libc

end Plan9
