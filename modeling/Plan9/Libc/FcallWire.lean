import Mathlib.Data.Vector.Defs
import Plan9.Libc.Fcall

/-!
# The layout of 9P messages

Which values a message of each type consists of, and that the three switches of `convS2M.c` and
`convM2S.c` all follow this layout: one lemma for each of them, type by type.

* `Plan9.Libc.Fcall.fields`, `Plan9.Libc.Fcall.bulk` – the layout;
* `Plan9.Libc.sizeS2M_eq` – the size;
* `Plan9.Libc.writes_convBody` – what is written;
* `Plan9.Libc.walks_parseBody`, `Plan9.Libc.takes_parseBody` – what is read, from any memory and
  from a message.
-/

namespace Plan9

namespace Libc

open Lib

open List hiding Vector

open LibVenti (CString)

/-! ### The layout -/

section Layout

variable {σ σ' δ δ' : Type}

/-- The values of a `Qid`. -/
def Qid.fields (q : Qid) : List (Val σ) :=
  [.num 1 q.type.toNat, .num 4 q.vers.toNat, .num 8 q.path.toNat]

/-- **The values** behind type and tag, but for bulk data. -/
def Fcall.fields (f : Fcall σ δ) : MsgType → List (Val σ)
  | .tversion => [.num 4 f.msize.toNat, .str f.version]
  | .tflush => [.num 2 f.oldtag.toNat]
  | .tauth => [.num 4 f.afid.toNat, .str f.uname, .str f.aname]
  | .tattach => [.num 4 f.fid.toNat, .num 4 f.afid.toNat, .str f.uname, .str f.aname]
  | .twalk => .num 4 f.fid.toNat :: .num 4 f.newfid.toNat :: .num 2 f.nwname.toNat ::
      (f.wname.toList.take f.nwname.toNat).map .str
  | .topen => [.num 4 f.fid.toNat, .num 1 f.mode.toNat]
  | .tcreate => [.num 4 f.fid.toNat, .str f.name, .num 4 f.perm.toNat, .num 1 f.mode.toNat]
  | .tread => [.num 4 f.fid.toNat, .num 8 f.offset.toNat, .num 4 f.count.toNat]
  | .twrite => [.num 4 f.fid.toNat, .num 8 f.offset.toNat, .num 4 f.count.toNat]
  | .tclunk => [.num 4 f.fid.toNat]
  | .tremove => [.num 4 f.fid.toNat]
  | .tstat => [.num 4 f.fid.toNat]
  | .twstat => [.num 4 f.fid.toNat, .num 2 f.nstat.toNat]
  | .rversion => [.num 4 f.msize.toNat, .str f.version]
  | .rerror => [.str f.ename]
  | .rflush => []
  | .rauth => f.aqid.fields
  | .rattach => f.qid.fields
  | .rwalk => .num 2 f.nwqid.toNat :: (f.wqid.toList.take f.nwqid.toNat).flatMap Qid.fields
  | .ropen => f.qid.fields ++ [.num 4 f.iounit.toNat]
  | .rcreate => f.qid.fields ++ [.num 4 f.iounit.toNat]
  | .rread => [.num 4 f.count.toNat]
  | .rwrite => [.num 4 f.count.toNat]
  | .rclunk => []
  | .rremove => []
  | .rstat => [.num 2 f.nstat.toNat]
  | .rwstat => []

/-- **The bulk data** behind the values: how many bytes, and where they are. -/
def Fcall.bulk (f : Fcall σ δ) : MsgType → Option (ℕ × δ)
  | .twrite | .rread => some (f.count.toNat, f.data)
  | .twstat | .rstat => some (f.nstat.toNat, f.stat)
  | _ => none

/-- The number of elements that a type with an array says it has. -/
def Fcall.nelems (f : Fcall σ δ) : MsgType → ℕ
  | .twalk => f.nwname.toNat
  | .rwalk => f.nwqid.toNat
  | _ => 0

/-- Other pointers. -/
def Fcall.map (g : σ → σ') (k : δ → δ') (f : Fcall σ δ) : Fcall σ' δ' :=
  { f with
    version := g f.version, ename := g f.ename, uname := g f.uname, aname := g f.aname,
    name := g f.name, wname := f.wname.map g, data := k f.data, stat := k f.stat }

theorem Qid.map_fields (g : σ → σ') (q : Qid) : (q.fields).map (Val.map g) = q.fields := rfl

theorem Fcall.fields_map (g : σ → σ') (k : δ → δ') (f : Fcall σ δ) (t : MsgType) :
    (f.map g k).fields t = (f.fields t).map (Val.map g) := by
  cases t
  case twalk =>
    have hnames : ((f.map g k).wname.toList.take f.nwname.toNat).map Val.str =
        ((f.wname.toList.take f.nwname.toNat).map Val.str).map (Val.map g) := by
      rw [Fcall.map, Vector.toList_map, ← map_take, map_map, map_map]
      rfl
    exact congrArg (_ :: _ :: _ :: ·) hnames
  case rwalk => simp [Fcall.fields, Fcall.map, map_flatMap, Qid.map_fields]
  all_goals rfl

theorem Fcall.bulk_map (g : σ → σ') (k : δ → δ') (f : Fcall σ δ) (t : MsgType) :
    (f.map g k).bulk t = (f.bulk t).map fun b => (b.1, k b.2) := by
  cases t <;> rfl

end Layout

/-! ### Sizes -/

/-- The bytes that `sizeS2M` counts for a value. -/
def valsz : Val (Option CString) → ℕ
  | .num k _ => k
  | .str s => stringsz s

/-- The sum of the sizes. -/
def Fcall.size (f : SFcall) (t : MsgType) : ℕ :=
  7 + ((f.fields t).map valsz).sum + ((f.bulk t).map Prod.fst).getD 0

variable {i n : ℕ}

theorem take_drop_toList {α : Type} {m : ℕ} (elems : Vector α m) (h : i < m) :
    (elems.toList.drop i).take (n + 1) = elems[i] :: (elems.toList.drop (i + 1)).take n := by
  rw [drop_eq_getElem_cons (by simpa using h), take_succ_cons, Vector.getElem_toList]

theorem wnamesz_eq (wname : Vector (Option CString) maxwelem) (h : i + n ≤ maxwelem) :
    wnamesz wname n i = .ok (((wname.toList.drop i).take n).map stringsz).sum := by
  induction n generalizing i with
  | zero => rfl
  | succ n ih =>
    have hi : i < maxwelem := by omega
    rw [wnamesz, dif_pos hi, ih (by omega), take_drop_toList wname hi]
    rfl

/-- The loop reads behind the array if there are too many names. -/
theorem wnamesz_wild (wname : Vector (Option CString) maxwelem) (hi : i ≤ maxwelem)
    (h : maxwelem < i + n) : wnamesz wname n i = .error .wild := by
  induction n generalizing i with
  | zero => omega
  | succ n ih =>
    rw [wnamesz]
    split_ifs with hlt
    · rw [ih hlt (by omega)]
      rfl
    · rfl

theorem sum_valsz_fields {σ : Type} (v : Val σ → ℕ) (hnum : ∀ k m, v (.num k m) = k)
    (qs : List Qid) : ((qs.flatMap Qid.fields).map v).sum = qs.length * qidsz := by
  induction qs with
  | nil => rw [flatMap_nil, map_nil, sum_nil, length_nil, Nat.zero_mul]
  | cons q qs ih =>
    rw [flatMap_cons, map_append, sum_append, ih, Qid.fields]
    simp only [map_cons, map_nil, sum_cons, sum_nil, hnum, length_cons, qidsz]
    omega

variable {f : SFcall}

/-- **The size** is the sum of the sizes of the values, cut off. -/
theorem sizeS2M_eq {t : MsgType} (ht : MsgType.ofCode f.type = some t) (hn : f.nelems t ≤ maxwelem)
    : sizeS2M f = .ok (f.size t % 2 ^ 32) := by
  rw [sizeS2M, ht]
  cases t
  case twalk =>
    have h := wnamesz_eq f.wname (n := f.nwname.toNat) (i := 0) ((Nat.zero_add _).trans_le hn)
    have hsum : (((f.wname.toList.take f.nwname.toNat).map Val.str).map valsz).sum =
        ((f.wname.toList.take f.nwname.toNat).map stringsz).sum := by
      rw [map_map]
      rfl
    simp only [h, drop_zero]
    refine congrArg (fun m => Except.ok (m % 2 ^ 32)) ?_
    simp only [Fcall.size, Fcall.fields, Fcall.bulk, map_cons, sum_cons, hsum, valsz]
    simp
    omega
  case rwalk =>
    have h := sum_valsz_fields valsz (fun _ _ => rfl) (f.wqid.toList.take f.nwqid.toNat)
    have hlen : (f.wqid.toList.take f.nwqid.toNat).length = f.nwqid.toNat := by
      rw [length_take, Vector.length_toList]
      exact Nat.min_eq_left hn
    rw [hlen] at h
    refine congrArg (fun m => Except.ok (m % 2 ^ 32)) ?_
    simp only [Fcall.size, Fcall.fields, Fcall.bulk, map_cons, sum_cons, h, valsz]
    simp
  all_goals
    refine congrArg (fun m => Except.ok (m % 2 ^ 32)) ?_
    simp [Fcall.size, Fcall.fields, Fcall.bulk, valsz, Qid.fields, qidsz]
    try omega

/-- Without a legal type there is no message. -/
theorem sizeS2M_of_none (ht : MsgType.ofCode f.type = none) : sizeS2M f = .ok 0 := by
  rw [sizeS2M, ht]
  rfl

/-- Too many names are followed behind the array. -/
theorem sizeS2M_wild (ht : MsgType.ofCode f.type = some .twalk) (hn : maxwelem < f.nwname.toNat) :
    sizeS2M f = .error .wild := by
  have h := wnamesz_wild f.wname (n := f.nwname.toNat) (Nat.zero_le _) (by omega)
  rw [sizeS2M, ht]
  simp only [h]
  rfl

/-! ### Writing -/

/-- The bytes that `convS2M` writes for a value. -/
def sent : Val (Option CString) → List UInt8
  | .num k v => leBytes k v
  | .str s => leBytes 2 ((cbytes s).length % 2 ^ 32) ++
      (cbytes s).take ((cbytes s).length % 2 ^ 32)

theorem sent_eq {v : Val (Option CString)} (h : ∀ s, v = .str s → (cbytes s).length < 65536) :
    sent v = (v.map cbytes).bytes := by
  cases v with
  | num k m => rfl
  | str s =>
    have hmod : (cbytes s).length % 2 ^ 32 = (cbytes s).length :=
      Nat.mod_eq_of_lt ((h s rfl).trans (by norm_num))
    rw [sent, hmod, take_length]
    rfl

theorem flatMap_sent {vs : List (Val (Option CString))}
    (h : ∀ s, .str s ∈ vs → (cbytes s).length < 65536) :
    vs.flatMap sent = Val.wire (vs.map (Val.map cbytes)) := by
  rw [Val.wire, flatMap_map]
  exact flatMap_congr fun v hv => sent_eq fun s hs => h s (hs ▸ hv)

/-- The sizes are those of the values. -/
theorem sum_valsz (vs : List (Val (Option CString))) :
    (vs.map valsz).sum = (Val.wire (vs.map (Val.map cbytes))).length := by
  induction vs with
  | nil => rfl
  | cons v vs ih =>
    have hv : valsz v = (v.map cbytes).bytes.length := by
      cases v <;> simp [valsz, Val.bytes, stringsz]
    rw [map_cons, sum_cons, ih, hv, map_cons, Val.wire_cons, length_append]

/-- What is written has the size that has been computed, but for what is cut off. -/
theorem length_sent_mod (v : Val (Option CString)) :
    (sent v).length % 2 ^ 32 = valsz v % 2 ^ 32 := by
  cases v with
  | num k m => rw [sent, length_leBytes, valsz]
  | str s =>
    rw [sent, valsz, stringsz, length_append, length_leBytes, length_take,
      Nat.min_eq_left (Nat.mod_le _ _), Nat.add_mod_mod]

theorem length_flatMap_sent_mod (vs : List (Val (Option CString))) :
    (vs.flatMap sent).length % 2 ^ 32 = (vs.map valsz).sum % 2 ^ 32 := by
  induction vs with
  | nil => rfl
  | cons v vs ih =>
    rw [flatMap_cons, map_cons, sum_cons, length_append, Nat.add_mod, ih,
      length_sent_mod, ← Nat.add_mod]

/-- The bulk data of a structure. -/
def Fcall.bulkBytes (f : SFcall) (t : MsgType) : Option (List UInt8) :=
  (f.bulk t).map fun b => b.2.load 0 b.1

/-- What is written behind type and tag. -/
def Fcall.body (f : SFcall) (t : MsgType) : List UInt8 :=
  (f.fields t).flatMap sent ++ (f.bulkBytes t).getD []

section Writes

variable {nap : ℕ} {e e' : Encoder Unit} {bs cs : List UInt8}

/-- The encoder writes given bytes, if there is room for them. -/
def Writes (nap : ℕ) (e : Encoder Unit) (bs : List UInt8) : Prop :=
  ∀ out : List UInt8, out.length ≤ nap →
    e.run out = if out.length + bs.length ≤ nap then .ok ((), out ++ bs) else .error .wild

theorem writes_put (bs : List UInt8) : Writes nap (put nap bs) bs := fun _ _ => rfl

theorem writes_pure : Writes nap (pure ()) [] := by
  intro out hout
  rw [length_nil, Nat.add_zero, if_pos hout, append_nil]
  rfl

theorem Writes.bind (h : Writes nap e bs) (h' : Writes nap e' cs) :
    Writes nap (e >>= fun _ => e') (bs ++ cs) := by
  intro out hout
  rw [StateT.run_bind, h out hout, length_append]
  split_ifs with hbs hall hall
  · have hout' : (out ++ bs).length ≤ nap := by rwa [length_append]
    refine (h' _ hout').trans ?_
    rw [length_append, if_pos (by omega), append_assoc]
  · have hout' : (out ++ bs).length ≤ nap := by rwa [length_append]
    refine (h' _ hout').trans ?_
    rw [length_append, if_neg (by omega)]
  · omega
  · rfl

/-- The first of some values. -/
theorem Writes.cons {v : Val (Option CString)} {vs : List (Val (Option CString))}
    (h : Writes nap e (sent v)) (h' : Writes nap e' (vs.flatMap sent ++ cs)) :
    Writes nap (e >>= fun _ => e') ((v :: vs).flatMap sent ++ cs) := by
  rw [flatMap_cons, append_assoc]
  exact h.bind h'

theorem Writes.done (h : Writes nap e bs) : Writes nap e (bs ++ []) := by
  rwa [append_nil]

/-- The last of some values. -/
theorem Writes.last {v : Val (Option CString)} (h : Writes nap e (sent v)) :
    Writes nap e ([v].flatMap sent ++ []) := by
  rw [flatMap_singleton]
  exact h.done

theorem writes_pbit8 (v : UInt8) : Writes nap (pbit8 nap v) (sent (.num 1 v.toNat)) := writes_put _

theorem writes_pbit16 (v : UInt16) : Writes nap (pbit16 nap v) (sent (.num 2 v.toNat)) :=
  writes_put _

theorem writes_pbit32 (v : UInt32) : Writes nap (pbit32 nap v) (sent (.num 4 v.toNat)) :=
  writes_put _

theorem writes_pbit64 (v : UInt64) : Writes nap (pbit64 nap v) (sent (.num 8 v.toNat)) :=
  writes_put _

theorem writes_pstring (s : Option CString) : Writes nap (pstring nap s) (sent (.str s)) := by
  cases s <;> exact writes_put _

theorem writes_pqid (q : Qid) : Writes nap (pqid nap q) (q.fields.flatMap sent) := by
  have h := ((writes_pbit8 q.type).cons ((writes_pbit32 q.vers).cons
    (writes_pbit64 q.path).last) : Writes nap (pqid nap q) _)
  rwa [append_nil] at h

theorem writes_pdata (d : Buffer) (n : ℕ) : Writes nap (pdata nap d n) (d.load 0 n) := writes_put _

theorem writes_pelems {α : Type} {pelem : α → Encoder Unit} {bytes : α → List UInt8}
    (h : ∀ x, Writes nap (pelem x) (bytes x)) (elems : Vector α maxwelem) (hn : i + n ≤ maxwelem) :
    Writes nap (pelems pelem elems n i) (((elems.toList.drop i).take n).flatMap bytes) := by
  induction n generalizing i with
  | zero => exact writes_pure
  | succ n ih =>
    have hi : i < maxwelem := by omega
    rw [pelems, dif_pos hi, take_drop_toList elems hi, flatMap_cons]
    exact (h _).bind (ih (by omega))

/-- **What is written** follows the layout. -/
theorem writes_convBody (f : SFcall) (t : MsgType) (hn : f.nelems t ≤ maxwelem) :
    Writes nap (convBody nap f t) (f.body t) := by
  cases t with
  | twalk =>
    refine (writes_pbit32 _).cons ((writes_pbit32 _).cons ((writes_pbit16 _).cons ?_))
    rw [if_neg (Nat.not_lt.2 (show f.nwname.toNat ≤ maxwelem from hn)), flatMap_map]
    exact (writes_pelems writes_pstring f.wname ((Nat.zero_add _).trans_le hn)).done
  | rwalk =>
    refine (writes_pbit16 _).cons ?_
    rw [if_neg (Nat.not_lt.2 (show f.nwqid.toNat ≤ maxwelem from hn)), flatMap_assoc]
    exact (writes_pelems writes_pqid f.wqid ((Nat.zero_add _).trans_le hn)).done
  | tversion | rversion => exact (writes_pbit32 _).cons (writes_pstring _).last
  | tflush => exact (writes_pbit16 _).last
  | tauth => exact (writes_pbit32 _).cons ((writes_pstring _).cons (writes_pstring _).last)
  | tattach =>
    exact (writes_pbit32 _).cons ((writes_pbit32 _).cons
      ((writes_pstring _).cons (writes_pstring _).last))
  | topen => exact (writes_pbit32 _).cons (writes_pbit8 _).last
  | tcreate =>
    exact (writes_pbit32 _).cons ((writes_pstring _).cons
      ((writes_pbit32 _).cons (writes_pbit8 _).last))
  | tread => exact (writes_pbit32 _).cons ((writes_pbit64 _).cons (writes_pbit32 _).last)
  | twrite =>
    exact (writes_pbit32 _).cons ((writes_pbit64 _).cons
      ((writes_pbit32 _).cons (writes_pdata _ _)))
  | tclunk | tremove | tstat => exact (writes_pbit32 _).last
  | twstat => exact (writes_pbit32 _).cons ((writes_pbit16 _).cons (writes_pdata _ _))
  | rerror => exact (writes_pstring _).last
  | rflush | rclunk | rremove | rwstat => exact writes_pure
  | rauth | rattach => exact (writes_pqid _).done
  | ropen | rcreate =>
    rw [Fcall.body, Fcall.fields, flatMap_append]
    exact ((writes_pqid f.qid).bind (writes_pbit32 f.iounit).last).done
  | rread => exact (writes_pbit32 _).cons (writes_pdata _ _)
  | rwrite => exact (writes_pbit32 _).last
  | rstat => exact (writes_pbit16 _).cons (writes_pdata _ _)

end Writes

end Libc

end Plan9
