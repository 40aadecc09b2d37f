import Mathlib.Data.List.FinRange
import Mathlib.Data.Set.Card
import Mathlib.Data.Fintype.Card
import Plan9.Lib.Run
import Plan9.LibVenti.ByteString

/-!
# The multiplexed client

Any number of processes may be inside `_vtrpc` on one connection. Each call takes a
free tag of `wait[]`, sends its request under that tag, and then waits: the first of
the waiting calls to find no **muxer** becomes it, receives replies and hands each of
them to the call that `wait[]` has for its tag. What runs under `z->lk` is one step
here; sending and receiving are steps of their own, outside the lock.

The calls that get no reply – the request has no two bytes in one fragment, it is not
sent, nothing more is received – leave without `puttag`, so their tag stays in
`wait[]`, and two of the three leave a freed `Rwait` there.

* `Plan9.LibVenti.Rpc.vtrpc_good_iff` – the bookkeeping is right throughout a run
  exactly if no call of it leaves that way;
* `Plan9.LibVenti.Rpc.vtrpc_safe` – in such a run nothing aborts, no freed memory is
  used, and no two calls have one tag.
-/

namespace Plan9

namespace LibVenti

open Lib List Function Option

namespace Rpc

/-! ### Packets -/

/-- A request: the bytes of its fragments. -/
abbrev Request := List ByteString

/-- What `packetpeek(p, buf, 0, 2)` returns. -/
inductive Peek
  /-- `nil` -/
  | none
  /-- `buf`: the two bytes are not in one fragment, and have been copied. -/
  | buf
  /-- A pointer into the packet. -/
  | inPlace
deriving DecidableEq

/-- `packetpeek(p, buf, 0, 2)`. -/
def packetPeek (q : Request) : Peek :=
  if q.flatten.length < 2 then .none
  else match q.dropWhile (·.isEmpty) with
    | [] => .none
    | f :: _ => if 2 ≤ f.length then .inPlace else .buf

/-- `top[1] = tag`, where `top` points into the first fragment that is not empty. -/
def slamTag (tag : Fin 256) : Request → Request
  | [] => []
  | f :: fs => if f.isEmpty then f :: slamTag tag fs else f.set 1 (UInt8.ofNat tag) :: fs

/-- The tag of a packet, if it is not too short to have one. -/
def tagOf (p : ByteString) : Option (Fin 256) := p[1]?.map fun b => ⟨b.toNat, b.toNat_lt⟩

/-! ### Connections -/

/-- `struct Rwait`; `rend` lists the calls asleep on `r`. -/
structure Rwait where
  rend : List ℕ := []
  p : Option ByteString := none
  done : Bool := false
  sleeping : Bool := false
deriving DecidableEq

/-- Where a call that has a tag is. -/
inductive Phase
  /-- In front of `vtsend`. -/
  | sending (q : Request)
  /-- Behind `vtsend`. -/
  | sent
  /-- In `rsleep(&r->r)`. -/
  | asleep
  /-- Taken off `r->r`, but not running yet. -/
  | woken
  /-- In `vtrecv`. -/
  | muxing
  /-- Behind `vtrecv`, with a packet. -/
  | received (p : ByteString)
  /-- With its reply, in front of `puttag`. -/
  | leaving
deriving DecidableEq

/-- A call of `_vtrpc`. -/
inductive Call
  /-- Not made yet. -/
  | idle
  /-- In front of the first `qlock`. -/
  | begun (r : ℕ) (q : Request)
  /-- In `rsleep(&z->tagrend)`. -/
  | tagAsleep (r : ℕ) (q : Request)
  /-- Taken off `z->tagrend`, but not running yet. -/
  | tagWoken (r : ℕ) (q : Request)
  /-- In the loop of `gettag`, without a free tag. -/
  | botch
  /-- With tag `tag` and the `Rwait` at `r`. -/
  | holds (r : ℕ) (tag : Fin 256) (ph : Phase)
  /-- Over: it had `tag` and returned `p`. -/
  | returned (tag : Fin 256) (p : Option ByteString)
deriving DecidableEq

/-- What ends the process, or the validity of this description of it. -/
inductive Stop
  | abort
  | useAfterFree
deriving DecidableEq

/-- `struct VtConn`, as far as `rpc.c` uses it, with the memory of the `Rwait`s, the calls,
and the tags of the requests the server has not answered. -/
structure Conn where
  /-- `z->lk` is held by a call that has returned or spins. -/
  locked : Bool
  wait : Fin 256 → Option ℕ
  ntag : ℕ
  nsleep : ℕ
  muxer : Bool
  tagrend : List ℕ
  mem : ℕ → Option Rwait
  call : ℕ → Call
  outstanding : List (Fin 256)
  stop : Option Stop

/-- A new connection. -/
def Conn.start : Conn where
  locked := false
  wait _ := none
  ntag := 0
  nsleep := 0
  muxer := false
  tagrend := []
  mem _ := none
  call _ := .idle
  outstanding := []
  stop := none

namespace Conn

variable (s : Conn)

/-- The call `c` goes on at `x`. -/
def goto (c : ℕ) (x : Call) : Conn := { s with call := Function.update s.call c x }

/-- Write to an `Rwait`. -/
def put (r : ℕ) (w : Rwait) : Conn := { s with mem := Function.update s.mem r (some w) }

/-- `vtfree`. -/
def free (r : ℕ) : Conn := { s with mem := Function.update s.mem r none }

/-- Read an `Rwait`. -/
def get (r : ℕ) : Except Stop Rwait :=
  match s.mem r with
  | none => .error .useAfterFree
  | some w => .ok w

/-! ### The functions of `rpc.c` -/

/-- The search of `gettag`. -/
def findTag : Option (Fin 256) := (List.finRange 256).find? fun i => (s.wait i).isNone

/-- `rwakeup(&r->r)`. -/
def rwakeup (r : ℕ) : Except Stop Conn := do
  let w ← s.get r
  match w.rend with
  | [] => return s
  | d :: ds =>
    let s := s.put r { w with rend := ds }
    match s.call d with
    | .holds r' tag .asleep => return s.goto d (.holds r' tag .woken)
    | _ => return s

/-- The calls when the first of those asleep in `gettag` has been woken. -/
def wakeHead (tagrend : List ℕ) (call : ℕ → Call) : ℕ → Call :=
  match tagrend with
  | [] => call
  | d :: _ =>
    match call d with
    | .tagAsleep r q => Function.update call d (.tagWoken r q)
    | _ => call

/-- `rwakeup(&z->tagrend)`. -/
def wakeTag : Conn := { s with tagrend := s.tagrend.tail, call := wakeHead s.tagrend s.call }

/-- `puttag`. -/
def putTag (r : ℕ) (tag : Fin 256) : Except Stop Conn :=
  -- `assert(z->wait[tag] == r)`
  if s.wait tag = some r then
    .ok { s with wait := Function.update s.wait tag none, ntag := s.ntag - 1 }.wakeTag
  else .error .abort

/-- `muxrpc`. -/
def muxRpc (p : ByteString) : Except Stop Conn :=
  match tagOf p with
  -- a short packet is dropped
  | none => .ok s
  | some tag =>
    match s.wait tag with
    | none => .error .abort
    | some r => do
      let w ← s.get r
      (s.put r { w with p := some p, done := true }).rwakeup r

/-- Wake the first unfinished sleeper among `tags`. -/
def wakeMuxer : List (Fin 256) → Except Stop Conn
  | [] => .ok s
  | i :: is =>
    match s.wait i with
    | none => wakeMuxer is
    | some rr => do
      let w ← s.get rr
      if w.sleeping && !w.done then s.rwakeup rr else wakeMuxer is

/-- The muxer that leaves wakes another one, if anybody sleeps. -/
def handOver : Except Stop Conn :=
  if s.nsleep ≠ 0 then s.wakeMuxer (List.finRange 256) else .ok s

/-- The end of `_vtrpc`: take the packet, put the tag back, free the `Rwait`. -/
def finish (c r : ℕ) (tag : Fin 256) : Except Stop Conn := do
  let w ← s.get r
  let s ← s.putTag r tag
  return (s.free r).goto c (.returned tag w.p)

/-- The first section under the lock: `gettag`, and the tag goes into the packet. -/
def first (c r : ℕ) (q : Request) : Conn :=
  if s.ntag = 256 then { s with tagrend := s.tagrend ++ [c] }.goto c (.tagAsleep r q)
  else match s.findTag with
    | none => { s with locked := true }.goto c .botch
    | some tag =>
      let s := { s with ntag := s.ntag + 1, wait := Function.update s.wait tag (some r) }
      match packetPeek q with
      -- the two returns behind `packetpeek` keep the lock
      | .none => { s with locked := true }.goto c (.returned tag none)
      | .buf => ({ s with locked := true }.free r).goto c (.returned tag none)
      | .inPlace => s.goto c (.holds r tag (.sending (slamTag tag q)))

/-- The second section from its loop on: sleep while there is a muxer and no reply, else go
on as the muxer or with the reply. -/
def waitTurn (c r : ℕ) (tag : Fin 256) : Except Stop Conn := do
  let w ← s.get r
  if s.muxer && !w.done then
    return (s.put r { w with rend := w.rend ++ [c] }).goto c (.holds r tag .asleep)
  else
    let s := { s with nsleep := s.nsleep - 1 }.put r { w with sleeping := false }
    if w.done then (s.goto c (.holds r tag .leaving)).finish c r tag
    else return { s with muxer := true }.goto c (.holds r tag .muxing)

/-- The second section from its beginning. -/
def second (c r : ℕ) (tag : Fin 256) : Except Stop Conn := do
  let w ← s.get r
  let s := { s with nsleep := s.nsleep + 1 }.put r { w with sleeping := true }
  (s.goto c (.holds r tag .woken)).waitTurn c r tag

/-- The section of the muxer: hand the packet over; with the own reply, hand the role over
and leave. -/
def deliver (c r : ℕ) (tag : Fin 256) (p : ByteString) : Except Stop Conn := do
  let s ← (s.goto c (.holds r tag .muxing)).muxRpc p
  let w ← s.get r
  if w.done then
    let s := { s with muxer := false }.goto c (.holds r tag .leaving)
    let s ← s.handOver
    s.finish c r tag
  else return s

end Conn

/-! ### Steps -/

/-- What happens next. The call `c` is made with request `q`, `vtmallocz` giving `r`; it
runs its first section; its request is sent or not; it runs its second section, or goes on
in it after a sleep; as the muxer it receives a packet or not, and delivers it. -/
inductive Act
  | begin (c : ℕ) (q : Request) (r : ℕ)
  | first (c : ℕ)
  | send (c : ℕ) (ok : Bool)
  | second (c : ℕ)
  | resume (c : ℕ)
  | recv (c : ℕ) (p : Option ByteString)
  | deliver (c : ℕ)
deriving DecidableEq

namespace Conn

variable (s : Conn)

/-- A section under the lock. -/
def underLock (x : Except Stop Conn) : Option Conn :=
  if s.locked then none
  else match x with
    | .error e => some { s with stop := some e }
    | .ok t => some t

/-- `vtmallocz` gives the call memory that is not in use. -/
def nextBegin (c : ℕ) (q : Request) (r : ℕ) : Option Conn :=
  if s.call c = .idle ∧ s.mem r = none then some ((s.put r {}).goto c (.begun r q)) else none

def nextFirst (c : ℕ) : Option Conn :=
  match s.call c with
  | .begun r q => s.underLock (.ok (s.first c r q))
  | .tagWoken r q => s.underLock (.ok (s.first c r q))
  | _ => none

def nextSend (c : ℕ) (ok : Bool) : Option Conn :=
  match s.call c with
  | .holds r tag (.sending q) =>
    if ok then
      some ({ s with outstanding := s.outstanding ++ (tagOf q.flatten).toList }.goto c
        (.holds r tag .sent))
    else some ((s.free r).goto c (.returned tag none))
  | _ => none

def nextSecond (c : ℕ) : Option Conn :=
  match s.call c with
  | .holds r tag .sent => s.underLock (s.second c r tag)
  | _ => none

def nextResume (c : ℕ) : Option Conn :=
  match s.call c with
  | .holds r tag .woken => s.underLock (s.waitTurn c r tag)
  | _ => none

/-- The server answers each request once. -/
def nextRecv (c : ℕ) (p : Option ByteString) : Option Conn :=
  match s.call c with
  | .holds r tag .muxing =>
    match p with
    | some p =>
      if ∀ t ∈ tagOf p, t ∈ s.outstanding then
        some ({ s with outstanding := s.outstanding.filter (tagOf p ≠ some ·) }.goto c
          (.holds r tag (.received p)))
      else none
    -- `z->muxer = 0`, without the lock
    | none => some (({ s with muxer := false }.free r).goto c (.returned tag none))
  | _ => none

def nextDeliver (c : ℕ) : Option Conn :=
  match s.call c with
  | .holds r tag (.received p) => s.underLock (s.deliver c r tag p)
  | _ => none

/-- The state after a step that can be taken. -/
def next : Act → Option Conn
  | .begin c q r => s.nextBegin c q r
  | .first c => s.nextFirst c
  | .send c ok => s.nextSend c ok
  | .second c => s.nextSecond c
  | .resume c => s.nextResume c
  | .recv c p => s.nextRecv c p
  | .deliver c => s.nextDeliver c

end Conn

/-- A step: nothing happens after a stop. -/
def Step (s : Conn) (a : Act) (t : Conn) : Prop := s.stop = none ∧ s.next a = some t

/-! ### What the bookkeeping promises -/

/-- The `Rwait` of a call. -/
def Call.rwait : Call → Option ℕ
  | .begun r _ => some r
  | .tagAsleep r _ => some r
  | .tagWoken r _ => some r
  | .holds r _ _ => some r
  | _ => none

/-- The phases of the muxer. -/
def Phase.muxes : Phase → Bool
  | .muxing => true
  | .received _ => true
  | _ => false

/-- A call that is the muxer. -/
def Call.muxes : Call → Bool
  | .holds _ _ ph => ph.muxes
  | _ => false

namespace Conn

variable (s : Conn)

/-- The call `c` has `tag` and has not returned. -/
def Owns (c : ℕ) (tag : Fin 256) : Prop := ∃ r ph, s.call c = .holds r tag ph

/-- The call `c` is the muxer. -/
def Muxes (c : ℕ) : Prop := (s.call c).muxes = true

/-- **The promise**: `wait[]` has exactly the tags of the calls that have not returned, `ntag`
counts them, a packet returned has the tag of its call, there is one muxer at most, and
nothing in `wait[]` has been freed. -/
structure Good : Prop where
  wait_iff : ∀ tag, s.wait tag ≠ none ↔ ∃ c, s.Owns c tag
  ntag_eq : s.ntag = {tag | ∃ c, s.Owns c tag}.ncard
  reply : ∀ c tag p, s.call c = .returned tag (some p) → tagOf p = some tag
  muxer : ∀ c d, s.Muxes c → s.Muxes d → c = d
  live : ∀ tag r, s.wait tag = some r → s.mem r ≠ none

/-- The exits of `_vtrpc` without `puttag`: behind `packetpeek`, unless the call has to wait
for a tag first; behind `vtsend`; behind `vtrecv`. -/
def ErrorExit : Act → Prop
  | .first c => s.ntag ≠ 256 ∧
      ∃ r q, (s.call c = .begun r q ∨ s.call c = .tagWoken r q) ∧ packetPeek q ≠ .inPlace
  | .send _ ok => ok = false
  | .recv _ p => p = none
  | _ => False

/-! ### The invariant -/

/-- A reply to `tag` is on its way to `wait[tag]`. -/
def Awaited (tag : Fin 256) : Prop :=
  tag ∈ s.outstanding ∨ ∃ c r t p, s.call c = .holds r t (.received p) ∧ tagOf p = some tag

end Conn

/-- What the `Rwait` of a call is like, by the phase of the call. -/
structure PhaseOk (muxer : Bool) (tag : Fin 256) (w : Rwait) (ph : Phase) : Prop where
  stored : w.done = true → ∃ p, w.p = some p ∧ tagOf p = some tag
  muxer : ph.muxes = true → muxer = true
  sending : ∀ q, ph = .sending q → w.done = false ∧ tagOf q.flatten = some tag
  leaving : ph = .leaving → w.done = true

/-- What is true of one call. -/
def CallOk (s : Conn) : Call → Prop
  | .idle => True
  | .begun r _ => s.mem r = some {}
  | .tagAsleep r _ => s.mem r = some {}
  | .tagWoken r _ => s.mem r = some {}
  | .botch => False
  | .holds r tag ph =>
    s.wait tag = some r ∧ ∃ w, s.mem r = some w ∧ PhaseOk s.muxer tag w ph
  | .returned tag p => ∀ p', p = some p' → tagOf p' = some tag

/-- **The invariant** of the runs without an error exit. -/
structure Inv (s : Conn) : Prop where
  running : s.stop = none
  unlocked : s.locked = false
  call : ∀ c, CallOk s (s.call c)
  owner : ∀ tag r, s.wait tag = some r → ∃ c ph, s.call c = .holds r tag ph
  inj : ∀ c d r, (s.call c).rwait = some r → (s.call d).rwait = some r → c = d
  count : s.ntag = (Finset.univ.filter fun tag => (s.wait tag).isSome).card
  oneMuxer : ∀ c d, s.Muxes c → s.Muxes d → c = d
  awaited : ∀ tag, s.Awaited tag → ∃ c r ph w, s.call c = .holds r tag ph ∧ s.mem r = some w ∧
    w.done = false ∧ ∀ q, ph ≠ .sending q
  once : ∀ c r t p tag, s.call c = .holds r t (.received p) → tagOf p = some tag →
    tag ∉ s.outstanding

theorem start_inv : Inv Conn.start where
  running := rfl
  unlocked := rfl
  call _ := trivial
  owner _ _ h := nomatch h
  inj _ _ _ h := nomatch h
  count := by simp [Conn.start]
  oneMuxer _ _ h := nomatch h
  awaited _ h := by
    rcases h with h | ⟨_, _, _, _, h, _⟩
    · simp [Conn.start] at h
    · exact nomatch h
  once _ _ _ _ _ h := nomatch h

variable {s t : Conn} {c d r : ℕ} {tag : Fin 256} {ph ph' : Phase} {w v : Rwait}

variable {x : Call}

/-- What is true of a call stays true if its own part of the state does. -/
theorem CallOk.frame (h : CallOk s x) (hmem : ∀ r, x.rwait = some r → t.mem r = s.mem r)
    (hwait : ∀ r tag ph, x = .holds r tag ph → t.wait tag = s.wait tag)
    (hmux : x.muxes = true → t.muxer = s.muxer) : CallOk t x := by
  cases x with
  | idle => trivial
  | begun r q => exact (hmem r rfl).trans h
  | tagAsleep r q => exact (hmem r rfl).trans h
  | tagWoken r q => exact (hmem r rfl).trans h
  | botch => exact h
  | holds r tag ph =>
    obtain ⟨hw, w, hm, hok⟩ := h
    refine ⟨(hwait r tag ph rfl).trans hw, w, (hmem r rfl).trans hm, hok.stored, ?_, hok.sending,
      hok.leaving⟩
    intro hph
    rw [hmux hph]
    exact hok.muxer hph
  | returned tag p => exact h

variable {q : Request}

/-- The tag put into a packet is the one the server reads there. -/
theorem tagOf_slamTag (tag : Fin 256) (hq : packetPeek q = .inPlace) :
    tagOf (slamTag tag q).flatten = some tag := by
  induction q with
  | nil => cases hq
  | cons f fs ih =>
    rw [slamTag]
    cases f with
    | nil => exact ih hq
    | cons b bs =>
      have hlen : 2 ≤ (b :: bs).length := by
        rw [packetPeek] at hq
        split at hq
        · cases hq
        · simp only [dropWhile_cons, isEmpty_cons, Bool.false_eq_true, if_false] at hq
          split at hq
          · assumption
          · cases hq
      cases bs with
      | nil => simp at hlen
      | cons b' bs =>
        simp only [isEmpty_cons, Bool.false_eq_true, if_false, tagOf]
        simp

theorem ok_bind {α β : Type} (a : α) (f : α → Except Stop β) : (Except.ok a >>= f) = f a := rfl

/-- One more tag is taken. -/
theorem card_update_some {wait : Fin 256 → Option ℕ} (hw : wait tag = none) :
    (Finset.univ.filter fun i => (update wait tag (some r) i).isSome).card =
      (Finset.univ.filter fun i => (wait i).isSome).card + 1 := by
  have hset : (Finset.univ.filter fun i => (update wait tag (some r) i).isSome) =
      insert tag (Finset.univ.filter fun i => (wait i).isSome) := by
    ext i
    by_cases hi : i = tag
    · subst hi
      simp
    · simp [hi]
  rw [hset, Finset.card_insert_of_notMem]
  simp [hw]

/-- Waking the first of those that wait for a tag moves at most that one. -/
theorem wakeHead_cases (tagrend : List ℕ) (call : ℕ → Call) :
    Conn.wakeHead tagrend call = call ∨ ∃ d r q, call d = .tagAsleep r q ∧
      Conn.wakeHead tagrend call = update call d (.tagWoken r q) := by
  cases tagrend with
  | nil => exact .inl rfl
  | cons d ds =>
    rw [Conn.wakeHead]
    split
    · rename_i r q hd
      exact .inr ⟨d, r, q, hd, rfl⟩
    · exact .inl rfl

/-- A call that does not wait for a tag may move on before the next tag is given away. -/
theorem wakeTag_comm {u : Conn} (hc : ∀ r q, u.call c ≠ .tagAsleep r q)
    (hx : ∀ r q, x ≠ .tagAsleep r q) :
    (u.wakeTag.free r).goto c x = ((u.free r).goto c x).wakeTag := by
  have hcall : update (Conn.wakeHead u.tagrend u.call) c x =
      Conn.wakeHead u.tagrend (update u.call c x) := by
    cases u.tagrend with
    | nil => rfl
    | cons d ds =>
      simp only [Conn.wakeHead]
      by_cases hdc : d = c
      · subst hdc
        rw [update_self]
        split
        · rename_i r' q hd
          exact absurd hd (hc r' q)
        · rfl
      · rw [update_of_ne hdc]
        split
        · rw [update_comm hdc]
        · rfl
  simp only [Conn.wakeTag, Conn.goto, Conn.free, hcall]

namespace Inv

/-- The part of the invariant that is about the call `c`. -/
theorem holds_spec (h : Inv s) (hc : s.call c = .holds r tag ph) :
    s.wait tag = some r ∧ ∃ w, s.mem r = some w ∧ PhaseOk s.muxer tag w ph := by
  have hok := h.call c
  rwa [hc] at hok

/-- A tag has one owner. -/
theorem owner_unique (h : Inv s) {r' : ℕ} (hc : s.call c = .holds r tag ph)
    (hd : s.call d = .holds r' tag ph') : c = d := by
  have hr := (h.holds_spec hc).1
  rw [(h.holds_spec hd).1, some.injEq] at hr
  subst hr
  exact h.inj c d r' (by rw [hc]; rfl) (by rw [hd]; rfl)

/-- **The promise holds under the invariant.** -/
theorem good (h : Inv s) : s.Good := by
  have hiff : ∀ tag, (s.wait tag).isSome ↔ ∃ c, s.Owns c tag := by
    intro tag
    constructor
    · intro hw
      obtain ⟨r, hr⟩ := isSome_iff_exists.mp hw
      obtain ⟨c, ph, hc⟩ := h.owner tag r hr
      exact ⟨c, r, ph, hc⟩
    · rintro ⟨c, r, ph, hc⟩
      rw [(h.holds_spec hc).1]
      rfl
  refine ⟨fun tag => ?_, ?_, ?_, h.oneMuxer, ?_⟩
  · rw [← hiff, isSome_iff_ne_none]
  · have hset : {tag | ∃ c, s.Owns c tag} =
        (Finset.univ.filter fun tag => (s.wait tag).isSome : Finset (Fin 256)) := by
      ext tag
      simp [hiff]
    rw [hset, Set.ncard_coe_finset, h.count]
  · intro c tag p hc
    have hok := h.call c
    rw [hc] at hok
    exact hok p rfl
  · intro tag r hr
    obtain ⟨c, ph, hc⟩ := h.owner tag r hr
    obtain ⟨-, w, hm, -⟩ := h.holds_spec hc
    rw [hm]
    simp

/-! ### One call moves on -/

variable {p : ByteString}

section Received

variable {x : Call} (htc : t.call = Function.update s.call c x)
  (hx : ∀ r t' p, x ≠ .holds r t' (.received p))

include htc hx

/-- A call that moves on without a packet makes no new receiver. -/
theorem received_of_move {t' : Fin 256} (hd : t.call d = .holds r t' (.received p)) :
    s.call d = .holds r t' (.received p) := by
  rw [htc] at hd
  by_cases hdc : d = c
  · subst hdc
    rw [update_self] at hd
    exact absurd hd (hx r t' p)
  · rwa [update_of_ne hdc] at hd

theorem awaited_of_move (hto : t.outstanding = s.outstanding) (ha : t.Awaited tag) :
    s.Awaited tag := by
  rcases ha with ho | ⟨d, r, t', p, hd, hp⟩
  · exact .inl (hto ▸ ho)
  · exact .inr ⟨d, r, t', p, received_of_move htc hx hd, hp⟩

theorem once_of_move (h : Inv s) (hto : t.outstanding = s.outstanding) (d r : ℕ) (t' : Fin 256)
    (p : ByteString) (tag : Fin 256) (hd : t.call d = .holds r t' (.received p))
    (hp : tagOf p = some tag) : tag ∉ t.outstanding := by
  rw [hto]
  exact h.once d r t' p tag (received_of_move htc hx hd) hp

end Received

section

variable (h : Inv s)

include h

/-- Two calls have two `Rwait`s. -/
theorem rwait_ne {r' : ℕ} (hcd : d ≠ c) (hc : (s.call c).rwait = some r)
    (hd : (s.call d).rwait = some r') : r' ≠ r := by
  rintro rfl
  exact hcd (h.inj d c r' hd hc)

/-- **One call moves on** to `x`, with what it writes and with what it must leave alone. -/
theorem move (htc : t.call = update s.call c x) (hts : t.stop = none)
    (htl : t.locked = false) (hmem : ∀ d r, d ≠ c → (s.call d).rwait = some r → t.mem r = s.mem r)
    (hfresh : ∀ d r, d ≠ c → (s.call d).rwait = some r → x.rwait ≠ some r)
    (hwait : ∀ d r tag ph, d ≠ c → s.call d = .holds r tag ph → t.wait tag = s.wait tag)
    (howner : ∀ tag r, t.wait tag = some r → (∃ ph, x = .holds r tag ph) ∨
      s.wait tag = some r ∧ ∀ ph, s.call c ≠ .holds r tag ph)
    (hcount : t.ntag = (Finset.univ.filter fun tag => (t.wait tag).isSome).card) (hok : CallOk t x)
    (hmux : t.muxer = s.muxer ∨ ∀ d, d ≠ c → ¬s.Muxes d)
    (hone : x.muxes = true → ∀ d, d ≠ c → ¬s.Muxes d)
    (haw : ∀ tag, t.Awaited tag → (s.Awaited tag ∧ ∀ r ph, s.call c ≠ .holds r tag ph) ∨
      ∃ r ph w, x = .holds r tag ph ∧ t.mem r = some w ∧ w.done = false ∧ ∀ q, ph ≠ .sending q)
    (honce : ∀ c r t' p tag, t.call c = .holds r t' (.received p) → tagOf p = some tag →
      tag ∉ t.outstanding) : Inv t := by
  have hself : t.call c = x := by rw [htc, update_self]
  have hother : ∀ d, d ≠ c → t.call d = s.call d := by
    intro d hd
    rw [htc, update_of_ne hd]
  refine ⟨hts, htl, fun d => ?_, ?_, ?_, hcount, ?_, ?_, honce⟩
  · by_cases hd : d = c
    · rw [hd, hself]
      exact hok
    · rw [hother d hd]
      refine (h.call d).frame (fun r => hmem d r hd) (fun r tag ph => hwait d r tag ph hd)
        fun hm => ?_
      rcases hmux with hmux | hmux
      · exact hmux
      · exact absurd hm (hmux d hd)
  · intro tag r hr
    rcases howner tag r hr with ⟨ph, hx⟩ | ⟨hr, hne⟩
    · exact ⟨c, ph, hself.trans hx⟩
    · obtain ⟨d, ph, hd⟩ := h.owner tag r hr
      have hdc : d ≠ c := by
        rintro rfl
        exact hne ph hd
      exact ⟨d, ph, (hother d hdc).trans hd⟩
  · intro d e r hd he
    by_cases hdc : d = c <;> by_cases hec : e = c
    · rw [hdc, hec]
    · rw [hdc, hself] at hd
      rw [hother e hec] at he
      exact absurd hd (hfresh e r hec he)
    · rw [hec, hself] at he
      rw [hother d hdc] at hd
      exact absurd he (hfresh d r hdc hd)
    · rw [hother d hdc] at hd
      rw [hother e hec] at he
      exact h.inj d e r hd he
  · intro d e hd he
    rw [Conn.Muxes] at hd he
    by_cases hdc : d = c <;> by_cases hec : e = c
    · rw [hdc, hec]
    · rw [hdc, hself] at hd
      rw [hother e hec] at he
      exact absurd he (hone hd e hec)
    · rw [hec, hself] at he
      rw [hother d hdc] at hd
      exact absurd hd (hone he d hdc)
    · rw [hother d hdc] at hd
      rw [hother e hec] at he
      exact h.oneMuxer d e hd he
  · intro tag htag
    rcases haw tag htag with ⟨hs, hne⟩ | ⟨r, ph, w, hx, hm, hdone, hph⟩
    · obtain ⟨d, r, ph, w, hd, hm, hdone, hph⟩ := h.awaited tag hs
      have hdc : d ≠ c := by
        rintro rfl
        exact hne r ph hd
      refine ⟨d, r, ph, w, (hother d hdc).trans hd, ?_, hdone, hph⟩
      rw [hmem d r hdc (by rw [hd]; rfl), hm]
    · exact ⟨c, r, ph, w, hself.trans hx, hm, hdone, hph⟩

/-- A call that has a tag keeps it, with a new `Rwait` and perhaps the muxer's role. -/
theorem rephase (ph' : Phase) (hc : s.call c = .holds r tag ph)
    (htc : t.call = update s.call c (.holds r tag ph'))
    (htm : t.mem = update s.mem r (some v)) (htw : t.wait = s.wait)
    (htn : t.ntag = s.ntag) (hts : t.stop = none) (htl : t.locked = false)
    (hok : PhaseOk t.muxer tag v ph')
    (hmux : t.muxer = s.muxer ∨ ∀ d, d ≠ c → ¬s.Muxes d)
    (hone : ph'.muxes = true → ∀ d, d ≠ c → ¬s.Muxes d)
    (haw : ∀ tag', t.Awaited tag' → tag' ≠ tag ∧ s.Awaited tag' ∨
      tag' = tag ∧ v.done = false ∧ ∀ q, ph' ≠ .sending q)
    (honce : ∀ c r t' p tag, t.call c = .holds r t' (.received p) → tagOf p = some tag →
      tag ∉ t.outstanding) : Inv t := by
  have hrc : (s.call c).rwait = some r := by
    rw [hc]
    rfl
  have hself : t.mem r = some v := by rw [htm, update_self]
  refine h.move htc hts htl ?_ ?_ (fun _ _ _ _ _ _ => by rw [htw]) ?_ (by rw [htn, htw, h.count])
    ⟨?_, v, hself, hok⟩ hmux hone ?_ honce
  · intro d r' hd hr'
    rw [htm, update_of_ne (h.rwait_ne hd hrc hr')]
  · intro d r' hd hr' hx
    exact h.rwait_ne hd hrc hr' (some.inj hx).symm
  · intro tag' r' hr'
    rw [htw] at hr'
    by_cases hex : ∃ ph₁, s.call c = .holds r' tag' ph₁
    · obtain ⟨ph₁, hc'⟩ := hex
      rw [hc] at hc'
      cases hc'
      exact .inl ⟨ph', rfl⟩
    · exact .inr ⟨hr', not_exists.mp hex⟩
  · rw [htw]
    exact (h.holds_spec hc).1
  · intro tag' htag'
    rcases haw tag' htag' with ⟨hne, hs⟩ | ⟨rfl, hdone, hph⟩
    · refine .inl ⟨hs, fun r' ph₁ hc' => ?_⟩
      rw [hc] at hc'
      cases hc'
      exact hne rfl
    · exact .inr ⟨r, ph', v, rfl, hself, hdone, hph⟩

/-- The owner of a tag a reply is on its way to has no reply yet. -/
theorem awaited_owner (hc : s.call c = .holds r tag ph) (hm : s.mem r = some w)
    (ha : s.Awaited tag) : w.done = false ∧ ∀ q, ph ≠ .sending q := by
  obtain ⟨d, r', ph₁, w₁, hd, hm₁, hdone, hph⟩ := h.awaited tag ha
  obtain rfl := h.owner_unique hc hd
  rw [hc] at hd
  cases hd
  rw [hm, some.injEq] at hm₁
  subst hm₁
  exact ⟨hdone, hph⟩

/-- A move that neither sends, receives nor delivers. -/
theorem quiet (hc : s.call c = .holds r tag ph) (hm : s.mem r = some w)
    (htc : t.call = update s.call c (.holds r tag ph'))
    (htm : t.mem = update s.mem r (some v)) (htw : t.wait = s.wait)
    (htn : t.ntag = s.ntag) (hts : t.stop = none) (htl : t.locked = false)
    (hto : t.outstanding = s.outstanding) (hrecv : ∀ p, ph' ≠ .received p)
    (hsend : ∀ q, ph' ≠ .sending q) (hdone : v.done = w.done)
    (hok : PhaseOk t.muxer tag v ph')
    (hmux : t.muxer = s.muxer ∨ ∀ d, d ≠ c → ¬s.Muxes d)
    (hone : ph'.muxes = true → ∀ d, d ≠ c → ¬s.Muxes d) : Inv t := by
  have hx : ∀ r' t' p, Call.holds r tag ph' ≠ .holds r' t' (.received p) := by
    intro r' t' p hx
    cases hx
    exact hrecv p rfl
  refine h.rephase ph' hc htc htm htw htn hts htl hok hmux hone ?_ (once_of_move htc hx h hto)
  intro tag' htag'
  have hs := awaited_of_move htc hx hto htag'
  by_cases hne : tag' = tag
  · subst hne
    exact .inr ⟨rfl, hdone.trans (h.awaited_owner hc hm hs).1, hsend⟩
  · exact .inl ⟨hne, hs⟩

/-- The `Rwait` of a tag in `wait[]` can be read. -/
theorem get_of_wait (hw : s.wait tag = some r) :
    ∃ c ph w, s.call c = .holds r tag ph ∧ s.mem r = some w ∧ s.get r = .ok w ∧
      PhaseOk s.muxer tag w ph := by
  obtain ⟨c, ph, hc⟩ := h.owner tag r hw
  obtain ⟨-, w, hm, hok⟩ := h.holds_spec hc
  refine ⟨c, ph, w, hc, hm, ?_, hok⟩
  rw [Conn.get, hm]

/-- A move of a call that has no tag and does not get one. -/
theorem untagged (hc : ∀ r tag ph, s.call c ≠ .holds r tag ph)
    (hx : ∀ r tag ph, x ≠ .holds r tag ph) (htc : t.call = update s.call c x)
    (hmem : ∀ d r, d ≠ c → (s.call d).rwait = some r → t.mem r = s.mem r) (htw : t.wait = s.wait)
    (htn : t.ntag = s.ntag) (hts : t.stop = none) (htl : t.locked = false)
    (hto : t.outstanding = s.outstanding) (htm : t.muxer = s.muxer) (hok : CallOk t x)
    (hfresh : ∀ d r, d ≠ c → (s.call d).rwait = some r → x.rwait ≠ some r) : Inv t := by
  have hx' : ∀ r t' p, x ≠ .holds r t' (.received p) := fun r t' p => hx r t' _
  refine h.move htc hts htl hmem hfresh (fun _ _ _ _ _ _ => by rw [htw]) ?_
    (by rw [htn, htw, h.count]) hok (.inl htm) ?_ ?_ (once_of_move htc hx' h hto)
  · intro tag r hr
    exact .inr ⟨htw ▸ hr, fun ph => hc r tag ph⟩
  · intro hm
    cases x with
    | holds r tag ph => exact absurd rfl (hx r tag ph)
    | _ => exact nomatch hm
  · intro tag ha
    exact .inl ⟨awaited_of_move htc hx' hto ha, fun r ph => hc r tag ph⟩

/-- A write to an `Rwait` that leaves its reply alone. -/
theorem put (hc : s.call c = .holds r tag ph) (hm : s.mem r = some w)
    (hp : v.p = w.p) (hdone : v.done = w.done) : Inv (s.put r v) := by
  obtain ⟨-, w₁, hm₁, hok⟩ := h.holds_spec hc
  rw [hm, some.injEq] at hm₁
  subst hm₁
  refine h.rephase ph hc (by rw [← hc, update_eq_self]; rfl) rfl rfl rfl
    h.running h.unlocked ⟨?_, hok.muxer, ?_, ?_⟩ (.inl rfl) ?_ ?_ h.once
  · rw [hp, hdone]
    exact hok.stored
  · rw [hdone]
    exact hok.sending
  · rw [hdone]
    exact hok.leaving
  · intro hph d hd hmd
    refine hd (h.oneMuxer d c hmd ?_)
    rw [Conn.Muxes, hc]
    exact hph
  · intro tag' htag'
    by_cases hne : tag' = tag
    · subst hne
      obtain ⟨hd, hs⟩ := h.awaited_owner hc hm htag'
      exact .inr ⟨rfl, hdone.trans hd, hs⟩
    · exact .inl ⟨hne, htag'⟩

/-! ### Waking up -/

/-- A call that is asleep is woken. -/
theorem wake (hc : s.call c = .holds r tag .asleep) :
    Inv (s.goto c (.holds r tag .woken)) := by
  obtain ⟨-, w, hm, hok⟩ := h.holds_spec hc
  refine h.quiet (v := w) hc hm rfl ?_ rfl rfl h.running h.unlocked rfl nofun nofun rfl
    ⟨hok.stored, nofun, nofun, nofun⟩ (.inl rfl) nofun
  rw [← hm, update_eq_self]
  rfl

/-- `rwakeup(&r->r)` on an `Rwait` in `wait[]`: only a call that is asleep is moved. -/
theorem rwakeup_spec (hw : s.wait tag = some r) : ∃ t, s.rwakeup r = .ok t ∧ Inv t ∧
      ∀ c, (∀ r tag, s.call c ≠ .holds r tag .asleep) → t.call c = s.call c := by
  obtain ⟨c, ph, w, hc, hm, hget, hok⟩ := h.get_of_wait hw
  rw [Conn.rwakeup, hget, ok_bind]
  cases hrend : w.rend with
  | nil => exact ⟨s, rfl, h, fun _ _ => rfl⟩
  | cons d ds =>
    have hput : Inv (s.put r { w with rend := ds }) := h.put hc hm rfl rfl
    simp only
    split
    · rename_i r' tag' hd
      refine ⟨_, rfl, hput.wake hd, fun e he => ?_⟩
      have hed : e ≠ d := by
        rintro rfl
        exact he r' tag' hd
      exact update_of_ne hed _ _
    · exact ⟨_, rfl, hput, fun _ _ => rfl⟩

/-- The muxer that leaves wakes at most one call, and that call was asleep. -/
theorem wakeMuxer_spec (tags : List (Fin 256)) : ∃ t, s.wakeMuxer tags = .ok t ∧ Inv t ∧
      ∀ c, (∀ r tag, s.call c ≠ .holds r tag .asleep) → t.call c = s.call c := by
  induction tags with
  | nil => exact ⟨s, rfl, h, fun _ _ => rfl⟩
  | cons i is ih =>
    rw [Conn.wakeMuxer]
    cases hw : s.wait i with
    | none => exact ih
    | some rr =>
      obtain ⟨-, -, w, -, -, hget, -⟩ := h.get_of_wait hw
      simp only [hget]
      rw [ok_bind]
      split
      · exact h.rwakeup_spec hw
      · exact ih

theorem handOver_spec : ∃ t, s.handOver = .ok t ∧ Inv t ∧
      ∀ c, (∀ r tag, s.call c ≠ .holds r tag .asleep) → t.call c = s.call c := by
  rw [Conn.handOver]
  split
  · exact h.wakeMuxer_spec _
  · exact ⟨s, rfl, h, fun _ _ => rfl⟩

/-- `rwakeup(&z->tagrend)` moves at most one call that waits for a tag. -/
theorem wakeTag_inv : Inv s.wakeTag := by
  rcases wakeHead_cases s.tagrend s.call with heq | ⟨d, r, q, hd, heq⟩
  · have htag : s.wakeTag = { s with tagrend := s.tagrend.tail } := by rw [Conn.wakeTag, heq]
    rw [htag]
    exact ⟨h.running, h.unlocked, h.call, h.owner, h.inj, h.count, h.oneMuxer, h.awaited, h.once⟩
  · have hok := h.call d
    rw [hd] at hok
    exact h.untagged (x := .tagWoken r q) (by rw [hd]; nofun) nofun heq (fun _ _ _ _ => rfl)
      rfl rfl h.running h.unlocked rfl rfl hok fun e r' he hr' hx =>
        h.rwait_ne he (by rw [hd]; rfl) hr' (some.inj hx).symm

/-! ### Leaving -/

/-- The end of `_vtrpc`, for a call that has its reply. -/
theorem finish_spec (hc : s.call c = .holds r tag .leaving) :
    ∃ t, s.finish c r tag = .ok t ∧ Inv t := by
  obtain ⟨hw, w, hm, hok⟩ := h.holds_spec hc
  have hget : s.get r = .ok w := by rw [Conn.get, hm]
  have hrc : (s.call c).rwait = some r := by
    rw [hc]
    rfl
  let u : Conn := { s with wait := update s.wait tag none, ntag := s.ntag - 1 }
  let v : Conn := (u.free r).goto c (.returned tag w.p)
  have hfin : s.finish c r tag = .ok v.wakeTag := by
    rw [Conn.finish, hget, ok_bind, Conn.putTag, if_pos hw, ok_bind]
    refine congrArg Except.ok (wakeTag_comm ?_ nofun)
    change ∀ r' q, s.call c ≠ .tagAsleep r' q
    rw [hc]
    nofun
  refine ⟨v.wakeTag, hfin, wakeTag_inv ?_⟩
  have hdone := hok.leaving rfl
  have hnot : ¬s.Awaited tag := by
    intro ha
    have hfalse := (h.awaited_owner hc hm ha).1
    rw [hdone] at hfalse
    cases hfalse
  have hx : ∀ r' t' p, Call.returned tag w.p ≠ .holds r' t' (.received p) := nofun
  refine h.move rfl h.running h.unlocked ?_ nofun ?_ ?_ ?_ ?_ (.inl rfl) nofun ?_
    (once_of_move (s := s) (t := v) rfl hx h rfl)
  · intro d r' hd hr'
    exact update_of_ne (h.rwait_ne hd hrc hr') _ _
  · intro d r' tag' ph hdc hd
    have hne : tag' ≠ tag := by
      rintro rfl
      exact hdc (h.owner_unique hd hc)
    exact update_of_ne hne _ _
  · intro tag' r' hr'
    have hne : tag' ≠ tag := by
      rintro rfl
      change update s.wait tag' none tag' = some r' at hr'
      rw [update_self] at hr'
      cases hr'
    refine .inr ⟨?_, fun ph hc' => ?_⟩
    · change update s.wait tag none tag' = some r' at hr'
      rwa [update_of_ne hne] at hr'
    · rw [hc] at hc'
      cases hc'
      exact hne rfl
  · -- the count goes down by the one tag that is put back
    have hcard := @card_update_some r tag (update s.wait tag none)
      (update_self tag none s.wait)
    rw [update_idem, ← hw, update_eq_self, ← h.count] at hcard
    change s.ntag - 1 = _
    rw [hcard, Nat.add_sub_cancel]
    rfl
  · intro p hp
    obtain ⟨p', hp', htag⟩ := hok.stored hdone
    rw [hp, some.injEq] at hp'
    rwa [hp']
  · intro tag' ha
    have hs := awaited_of_move (s := s) (t := v) rfl hx rfl ha
    refine .inl ⟨hs, fun r' ph hc' => ?_⟩
    rw [hc] at hc'
    cases hc'
    exact hnot hs

/-! ### Delivering -/

/-- `muxrpc`, by a muxer that has put its packet behind it: `s` is the state before. -/
theorem muxRpc_spec (hc : s.call c = .holds r tag (.received p)) :
    ∃ t, (s.goto c (.holds r tag .muxing)).muxRpc p = .ok t ∧ Inv t ∧
      t.call c = .holds r tag .muxing := by
  obtain ⟨hw, w, hm, hok⟩ := h.holds_spec hc
  have hmux : s.Muxes c := by
    rw [Conn.Muxes, hc]
    rfl
  have hone : ∀ d, d ≠ c → ¬s.Muxes d := fun d hd hmd => hd (h.oneMuxer d c hmd hmux)
  let u := s.goto c (.holds r tag .muxing)
  have hself : u.call c = .holds r tag .muxing := update_self _ _ _
  have hu : Inv u := by
    refine h.quiet (v := w) hc hm rfl ?_ rfl rfl h.running h.unlocked rfl nofun nofun rfl
      ⟨hok.stored, fun _ => hok.muxer rfl, nofun, nofun⟩ (.inl rfl) fun _ => hone
    rw [← hm, update_eq_self]
    rfl
  change ∃ t, u.muxRpc p = .ok t ∧ Inv t ∧ t.call c = .holds r tag .muxing
  cases htag : tagOf p with
  | none =>
    refine ⟨u, ?_, hu, hself⟩
    rw [Conn.muxRpc, htag]
  | some tag' =>
    -- the owner of the tag is still there, without a reply
    obtain ⟨d, r', ph, w', hd, hm', hdone, hph⟩ := h.awaited tag' (.inr ⟨c, r, tag, p, hc, htag⟩)
    have hw' : u.wait tag' = some r' := (h.holds_spec hd).1
    obtain ⟨e, ph', w'', he, hm'', hget, hok'⟩ := hu.get_of_wait hw'
    have hww : w' = w'' := some.inj (hm'.symm.trans hm'')
    subst hww
    have hph' : ∀ q, ph' ≠ .sending q := by
      rintro q rfl
      have hde : d = e := h.inj d e r' (by rw [hd]; rfl) ?_
      · subst hde
        by_cases hdc : d = c
        · subst hdc
          rw [hself] at he
          cases he
        · have hsame : u.call d = s.call d := update_of_ne hdc _ _
          rw [hsame, hd] at he
          cases he
          exact hph q rfl
      · by_cases hec : e = c
        · subst hec
          rw [hself] at he
          cases he
        · have hsame : u.call e = s.call e := update_of_ne hec _ _
          rw [← hsame, he]
          rfl
    -- nothing else is on its way to that tag
    have hnot : ¬u.Awaited tag' := by
      rintro (ho | ⟨f, r₁, t₁, p₁, hf, hp₁⟩)
      · exact h.once c r tag p tag' hc htag ho
      · have hfc : f ≠ c := by
          rintro rfl
          rw [hself] at hf
          cases hf
        have hsame : u.call f = s.call f := update_of_ne hfc _ _
        refine hone f hfc ?_
        rw [Conn.Muxes, ← hsame, hf]
        rfl
    have hput : Inv (u.put r' { w' with p := some p, done := true }) := by
      refine hu.rephase ph' he (by rw [← he, update_eq_self]; rfl) rfl rfl rfl
        hu.running hu.unlocked ⟨fun _ => ⟨p, rfl, htag⟩, hok'.muxer, ?_, fun _ => rfl⟩ (.inl rfl)
        ?_ ?_ hu.once
      · intro q hq
        exact absurd hq (hph' q)
      · intro hm₁ f hf hmf
        refine hf (hu.oneMuxer f e hmf ?_)
        rw [Conn.Muxes, he]
        exact hm₁
      · intro tag₁ ha
        refine .inl ⟨?_, ha⟩
        rintro rfl
        exact hnot ha
    obtain ⟨t, ht, hti, hcall⟩ := rwakeup_spec hput hw'
    refine ⟨t, ?_, hti, ?_⟩
    · simp only [Conn.muxRpc, htag, hw']
      rw [hget, ok_bind, ht]
    · rw [hcall c ?_]
      · exact hself
      · intro r₁ t₁ hasleep
        change u.call c = _ at hasleep
        rw [hself] at hasleep
        cases hasleep

/-- The muxer hands a packet over, and leaves if the packet was its own. -/
theorem deliver_spec (hc : s.call c = .holds r tag (.received p)) :
    ∃ t, s.deliver c r tag p = .ok t ∧ Inv t := by
  obtain ⟨t, ht, hti, htc⟩ := h.muxRpc_spec hc
  obtain ⟨-, w, hm, hok⟩ := hti.holds_spec htc
  have hget : t.get r = .ok w := by rw [Conn.get, hm]
  rw [Conn.deliver, ht, ok_bind, hget, ok_bind]
  by_cases hdone : w.done = true
  · rw [if_pos hdone]
    let v := { t with muxer := false }.goto c (.holds r tag .leaving)
    have hmux : t.Muxes c := by
      rw [Conn.Muxes, htc]
      rfl
    have hv : Inv v := by
      refine hti.quiet (v := w) htc hm rfl ?_ rfl rfl hti.running hti.unlocked rfl nofun nofun rfl
        ⟨hok.stored, nofun, nofun, fun _ => hdone⟩ (.inr ?_) nofun
      · rw [← hm, update_eq_self]
        rfl
      · exact fun d hd hmd => hd (hti.oneMuxer d c hmd hmux)
    have hvc : v.call c = .holds r tag .leaving := update_self _ _ _
    obtain ⟨x, hx, hxi, hxc⟩ := hv.handOver_spec
    change ∃ t, (v.handOver >>= fun s => s.finish c r tag) = .ok t ∧ Inv t
    rw [hx, ok_bind]
    refine hxi.finish_spec ?_
    rw [hxc c (by rw [hvc]; nofun), hvc]
  · rw [if_neg hdone]
    exact ⟨t, rfl, hti⟩

/-! ### Waiting -/

/-- The second section from its loop on. -/
theorem waitTurn_spec (hc : s.call c = .holds r tag .woken) :
    ∃ t, s.waitTurn c r tag = .ok t ∧ Inv t := by
  obtain ⟨-, w, hm, hok⟩ := h.holds_spec hc
  have hget : s.get r = .ok w := by rw [Conn.get, hm]
  rw [Conn.waitTurn, hget, ok_bind]
  by_cases hsleep : (s.muxer && !w.done) = true
  · rw [if_pos hsleep]
    exact ⟨_, rfl, h.quiet hc hm rfl rfl rfl rfl h.running h.unlocked rfl nofun nofun rfl
      ⟨hok.stored, nofun, nofun, nofun⟩ (.inl rfl) nofun⟩
  · rw [if_neg hsleep]
    by_cases hdone : w.done = true
    · simp only [hdone, if_true]
      refine finish_spec (h.quiet (w := w) hc hm rfl rfl rfl rfl h.running h.unlocked rfl nofun
        nofun hdone.symm ⟨?_, nofun, nofun, fun _ => rfl⟩ (.inl rfl) nofun)
        (update_self _ _ _)
      exact fun _ => hok.stored hdone
    · -- there is no muxer: this call becomes it
      have hfree : s.muxer = false := by
        simpa [hdone] using hsleep
      have hnone : ∀ d, ¬s.Muxes d := by
        intro d hd
        have hokd := h.call d
        cases hcd : s.call d with
        | holds r' t' ph =>
          rw [hcd] at hokd
          obtain ⟨-, w', -, hok'⟩ := hokd
          rw [Conn.Muxes, hcd] at hd
          have := hok'.muxer hd
          rw [hfree] at this
          cases this
        | _ =>
          rw [Conn.Muxes, hcd] at hd
          cases hd
      refine ⟨_, if_neg hdone, h.quiet (w := w) hc hm rfl rfl rfl rfl h.running h.unlocked rfl
        nofun nofun
        rfl ⟨hok.stored, fun _ => rfl, nofun, nofun⟩ (.inr fun d _ => hnone d)
        fun _ d _ => hnone d⟩

/-- The second section from its beginning. -/
theorem second_spec (hc : s.call c = .holds r tag .sent) :
    ∃ t, s.second c r tag = .ok t ∧ Inv t := by
  obtain ⟨-, w, hm, hok⟩ := h.holds_spec hc
  have hget : s.get r = .ok w := by rw [Conn.get, hm]
  rw [Conn.second, hget, ok_bind]
  exact waitTurn_spec (h.quiet (w := w) hc hm rfl rfl rfl rfl h.running h.unlocked rfl nofun nofun
    rfl ⟨hok.stored, nofun, nofun, nofun⟩ (.inl rfl) nofun) (update_self _ _ _)

/-! ### Taking a tag -/

/-- `gettag` finds a tag, unless all are taken: there is no "ntag botch". -/
theorem findTag_spec (hn : s.ntag ≠ 256) :
    ∃ tag, s.findTag = some tag ∧ s.wait tag = none := by
  cases hf : s.findTag with
  | some tag =>
    have htag := List.find?_some hf
    exact ⟨tag, rfl, by simpa using htag⟩
  | none =>
    rw [Conn.findTag, List.find?_eq_none] at hf
    have huniv : (Finset.univ.filter fun tag => (s.wait tag).isSome) = Finset.univ := by
      ext tag
      have htag := hf tag (mem_finRange tag)
      simpa [isSome_iff_ne_none] using htag
    rw [h.count, huniv, Finset.card_univ, Fintype.card_fin] at hn
    exact absurd rfl hn

/-- A call that waits for a tag has a new `Rwait`. -/
theorem fresh_spec (hc : s.call c = .begun r q ∨ s.call c = .tagWoken r q) :
    s.mem r = some {} ∧ (s.call c).rwait = some r ∧ ∀ r tag ph, s.call c ≠ .holds r tag ph := by
  have hok := h.call c
  rcases hc with hc | hc
  · rw [hc] at hok ⊢
    exact ⟨hok, rfl, nofun⟩
  · rw [hc] at hok ⊢
    exact ⟨hok, rfl, nofun⟩

/-- The first section, unless it ends the call. -/
theorem first_inv (hc : s.call c = .begun r q ∨ s.call c = .tagWoken r q)
    (hq : s.ntag ≠ 256 → packetPeek q = .inPlace) : Inv (s.first c r q) := by
  obtain ⟨hm, hrc, hnot⟩ := h.fresh_spec hc
  have hother : ∀ d r', d ≠ c → (s.call d).rwait = some r' → (some r : Option ℕ) ≠ some r' :=
    fun d r' hd hr' hx => h.rwait_ne hd hrc hr' (some.inj hx).symm
  rw [Conn.first]
  by_cases hn : s.ntag = 256
  · rw [if_pos hn]
    exact h.untagged (x := .tagAsleep r q) hnot nofun rfl (fun _ _ _ _ => rfl) rfl rfl h.running
      h.unlocked rfl rfl hm hother
  · obtain ⟨tag, hfind, hwait⟩ := h.findTag_spec hn
    rw [if_neg hn, hfind]
    simp only [hq hn]
    let t : Conn := { s with ntag := s.ntag + 1, wait := update s.wait tag (some r) }.goto c
        (.holds r tag (.sending (slamTag tag q)))
    change Inv t
    have hx : ∀ r' t' p, Call.holds r tag (.sending (slamTag tag q)) ≠
        .holds r' t' (.received p) := by
      intro r' t' p hx
      cases hx
    refine h.move rfl h.running h.unlocked (fun _ _ _ _ => rfl) hother ?_ ?_ ?_
      ⟨update_self _ _ _, {}, hm, nofun, nofun, ?_, nofun⟩ (.inl rfl) nofun ?_
      (once_of_move (s := s) (t := t) rfl hx h rfl)
    · intro d r' tag' ph hd hd'
      have hne : tag' ≠ tag := by
        rintro rfl
        rw [(h.holds_spec hd').1] at hwait
        cases hwait
      exact update_of_ne hne _ _
    · intro tag' r' hr'
      by_cases hne : tag' = tag
      · subst hne
        change update s.wait tag' (some r) tag' = some r' at hr'
        rw [update_self] at hr'
        rw [← some.inj hr']
        exact .inl ⟨_, rfl⟩
      · exact .inr ⟨(update_of_ne hne _ _).symm.trans hr', fun ph => hnot r' tag' ph⟩
    · change s.ntag + 1 = _
      rw [h.count]
      exact (card_update_some hwait).symm
    · intro q' hq'
      cases hq'
      exact ⟨rfl, tagOf_slamTag tag (hq hn)⟩
    · intro tag' ha
      exact .inl ⟨awaited_of_move (s := s) (t := t) rfl hx rfl ha, fun r' ph => hnot r' tag' ph⟩

/-! ### Sending and receiving -/

/-- A request that is sent is awaited. -/
theorem send_inv (hc : s.call c = .holds r tag (.sending q)) :
    Inv ({ s with outstanding := s.outstanding ++ (tagOf q.flatten).toList }.goto c
      (.holds r tag .sent)) := by
  obtain ⟨-, w, hm, hok⟩ := h.holds_spec hc
  obtain ⟨hdone, htag⟩ := hok.sending q rfl
  have hnot : ¬s.Awaited tag := fun ha => (h.awaited_owner hc hm ha).2 q rfl
  have hx : ∀ r' t' p, Call.holds r tag .sent ≠ .holds r' t' (.received p) := by
    intro r' t' p hx
    cases hx
  rw [htag]
  refine h.rephase _ (v := w) hc rfl ?_ rfl rfl h.running h.unlocked
    ⟨hok.stored, nofun, nofun, nofun⟩ (.inl rfl) nofun ?_ ?_
  · rw [← hm, update_eq_self]
    rfl
  · rintro tag' (ho | ⟨d, r', t', p, hd, hp⟩)
    · rcases mem_append.mp ho with ho | ho
      · by_cases hne : tag' = tag
        · exact .inr ⟨hne, hdone, nofun⟩
        · exact .inl ⟨hne, .inl ho⟩
      · exact .inr ⟨by simpa using ho, hdone, nofun⟩
    · have hs := received_of_move (s := s) rfl hx hd
      refine .inl ⟨?_, .inr ⟨d, r', t', p, hs, hp⟩⟩
      rintro rfl
      exact hnot (.inr ⟨d, r', t', p, hs, hp⟩)
  · intro d r' t' p tag' hd hp ho
    have hs := received_of_move (s := s) rfl hx hd
    rcases mem_append.mp ho with ho | ho
    · exact h.once d r' t' p tag' hs hp ho
    · obtain rfl : tag' = tag := by simpa using ho
      exact hnot (.inr ⟨d, r', t', p, hs, hp⟩)

/-- A reply that is received is no longer outstanding. -/
theorem recv_inv (hc : s.call c = .holds r tag .muxing)
    (hp : ∀ t ∈ tagOf p, t ∈ s.outstanding) :
    Inv ({ s with outstanding := s.outstanding.filter (tagOf p ≠ some ·) }.goto c
      (.holds r tag (.received p))) := by
  obtain ⟨-, w, hm, hok⟩ := h.holds_spec hc
  have hmux : s.Muxes c := by
    rw [Conn.Muxes, hc]
    rfl
  have hone : ∀ d, d ≠ c → ¬s.Muxes d := fun d hd hmd => hd (h.oneMuxer d c hmd hmux)
  -- the only packet received is this one
  have honly : ∀ d r' t' p', update s.call c (.holds r tag (.received p)) d =
      .holds r' t' (.received p') → p' = p := by
    intro d r' t' p' hd
    by_cases hdc : d = c
    · subst hdc
      rw [update_self] at hd
      cases hd
      rfl
    · rw [update_of_ne hdc] at hd
      refine absurd ?_ (hone d hdc)
      rw [Conn.Muxes, hd]
      rfl
  refine h.rephase _ (v := w) hc rfl ?_ rfl rfl h.running h.unlocked
    ⟨hok.stored, fun _ => hok.muxer rfl, nofun, nofun⟩ (.inl rfl) (fun _ => hone) ?_ ?_
  · rw [← hm, update_eq_self]
    rfl
  · intro tag' ha
    have hs : s.Awaited tag' := by
      rcases ha with ho | ⟨d, r', t', p', hd, hp'⟩
      · exact .inl (mem_of_mem_filter ho)
      · rw [honly d r' t' p' hd] at hp'
        exact .inl (hp tag' hp')
    by_cases hne : tag' = tag
    · subst hne
      exact .inr ⟨rfl, (h.awaited_owner hc hm hs).1, nofun⟩
    · exact .inl ⟨hne, hs⟩
  · intro d r' t' p' tag' hd hp' ho
    rw [honly d r' t' p' hd] at hp'
    have hne := (mem_filter.mp ho).2
    simp [hp'] at hne

/-- A call is made. -/
theorem begin_inv (hc : s.call c = .idle) (hm : s.mem r = none) :
    Inv ((s.put r {}).goto c (.begun r q)) := by
  have hne : ∀ d r', d ≠ c → (s.call d).rwait = some r' → r' ≠ r := by
    rintro d r' - hr' rfl
    have hok := h.call d
    cases hd : s.call d with
    | idle | botch | returned => rw [hd] at hr'; cases hr'
    | begun | tagAsleep | tagWoken =>
      rw [hd] at hr' hok
      cases hr'
      rw [CallOk, hm] at hok
      cases hok
    | holds =>
      rw [hd] at hr' hok
      cases hr'
      obtain ⟨-, w, hm', -⟩ := hok
      rw [hm] at hm'
      cases hm'
  refine h.untagged (x := .begun r q) (by rw [hc]; nofun) nofun rfl ?_ rfl rfl h.running
    h.unlocked rfl rfl (update_self _ _ _) ?_
  · intro d r' hd hr'
    exact update_of_ne (hne d r' hd hr') _ _
  · intro d r' hd hr' hx
    exact hne d r' hd hr' (some.inj hx).symm

end

/-! ### One step -/

theorem errorExit_first : s.ErrorExit (.first c) ↔ s.ntag ≠ 256 ∧
    ∃ r q, (s.call c = .begun r q ∨ s.call c = .tagWoken r q) ∧ packetPeek q ≠ .inPlace :=
  Iff.rfl

/-- A section under the lock that keeps the invariant. -/
theorem underLock_inv (h : Inv s) {x : Except Stop Conn} (hx : ∃ u, x = .ok u ∧ Inv u)
    (ht : s.underLock x = some t) : Inv t := by
  obtain ⟨u, rfl, hu⟩ := hx
  rw [Conn.underLock, h.unlocked] at ht
  cases ht
  exact hu

/-- **A step that is no error exit keeps the invariant.** -/
theorem step {a : Act} (h : Inv s) (hst : Step s a t) (ha : ¬s.ErrorExit a) : Inv t := by
  have hnext := hst.2
  cases a with
  | begin c q r =>
    simp only [Conn.next, Conn.nextBegin] at hnext
    split at hnext
    · rename_i hc
      cases hnext
      exact h.begin_inv hc.1 hc.2
    · cases hnext
  | first c =>
    have hfirst : ∀ r q, (s.call c = .begun r q ∨ s.call c = .tagWoken r q) →
        Inv (s.first c r q) := by
      intro r q hc
      refine h.first_inv hc fun hn => ?_
      by_contra hq
      exact ha (errorExit_first.mpr ⟨hn, r, q, hc, hq⟩)
    simp only [Conn.next, Conn.nextFirst] at hnext
    split at hnext
    · rename_i r q hc
      exact h.underLock_inv ⟨_, rfl, hfirst r q (.inl hc)⟩ hnext
    · rename_i r q hc
      exact h.underLock_inv ⟨_, rfl, hfirst r q (.inr hc)⟩ hnext
    · cases hnext
  | send c ok =>
    have hok : ok = true := by
      cases ok with
      | true => rfl
      | false => exact absurd (show s.ErrorExit (.send c false) from rfl) ha
    subst hok
    simp only [Conn.next, Conn.nextSend] at hnext
    split at hnext
    · rename_i r tag q hc
      rw [if_pos trivial] at hnext
      cases hnext
      exact h.send_inv hc
    · cases hnext
  | second c =>
    simp only [Conn.next, Conn.nextSecond] at hnext
    split at hnext
    · rename_i r tag hc
      exact h.underLock_inv (h.second_spec hc) hnext
    · cases hnext
  | resume c =>
    simp only [Conn.next, Conn.nextResume] at hnext
    split at hnext
    · rename_i r tag hc
      exact h.underLock_inv (h.waitTurn_spec hc) hnext
    · cases hnext
  | recv c p =>
    simp only [Conn.next, Conn.nextRecv] at hnext
    split at hnext
    · rename_i r tag hc
      cases p with
      | some p =>
        simp only at hnext
        split at hnext
        · rename_i hp
          cases hnext
          exact h.recv_inv hc hp
        · cases hnext
      | none => exact absurd (show s.ErrorExit (.recv c none) from rfl) ha
    · cases hnext
  | deliver c =>
    simp only [Conn.next, Conn.nextDeliver] at hnext
    split at hnext
    · rename_i r tag p hc
      exact h.underLock_inv (h.deliver_spec hc) hnext
    · cases hnext

/-- A call that returns without `puttag` leaves its tag in `wait[]`, where no call owns it. -/
theorem not_good_of_return (htc : t.call = update s.call c (.returned tag none))
    (hw : t.wait tag = some r) (hown : ∀ d r' ph, d ≠ c → s.call d ≠ .holds r' tag ph) :
      ¬t.Good := by
  intro hg
  obtain ⟨d, r', ph, hd⟩ := (hg.wait_iff tag).mp (by rw [hw]; simp)
  rw [htc] at hd
  by_cases hdc : d = c
  · subst hdc
    rw [update_self] at hd
    cases hd
  · rw [update_of_ne hdc] at hd
    exact hown d r' ph hdc hd

/-- **An error exit breaks the promise.** -/
theorem step_error {a : Act} (h : Inv s) (hst : Step s a t) (ha : s.ErrorExit a) : ¬t.Good := by
  have hnext := hst.2
  cases a with
  | begin => exact ha.elim
  | second => exact ha.elim
  | resume => exact ha.elim
  | deliver => exact ha.elim
  | first c =>
    obtain ⟨hn, r, q, hc, hq⟩ := errorExit_first.mp ha
    obtain ⟨tag, hfind, hwait⟩ := h.findTag_spec hn
    have hown : ∀ d r' ph, d ≠ c → s.call d ≠ .holds r' tag ph := by
      intro d r' ph _ hd
      rw [(h.holds_spec hd).1] at hwait
      cases hwait
    have ht : t = s.first c r q := by
      have hsec : s.next (.first c) = s.underLock (.ok (s.first c r q)) := by
        rcases hc with hc | hc <;> rw [Conn.next, Conn.nextFirst, hc]
      rw [hsec, Conn.underLock, h.unlocked] at hnext
      exact (some.inj hnext).symm
    rw [ht, Conn.first, if_neg hn, hfind]
    have hwait' : update s.wait tag (some r) tag = some r := update_self ..
    cases hp : packetPeek q with
    | inPlace => exact absurd hp hq
    | none => exact not_good_of_return (s := s) rfl hwait' hown
    | buf => exact not_good_of_return (s := s) rfl hwait' hown
  | send c ok =>
    obtain rfl : ok = false := ha
    simp only [Conn.next, Conn.nextSend] at hnext
    split at hnext
    · rename_i r tag q hc
      cases hnext
      exact not_good_of_return rfl (h.holds_spec hc).1 fun d r' ph hd hd' =>
        hd (h.owner_unique hd' hc)
    · cases hnext
  | recv c p =>
    obtain rfl : p = none := ha
    simp only [Conn.next, Conn.nextRecv] at hnext
    split at hnext
    · rename_i r tag hc
      cases hnext
      exact not_good_of_return rfl (h.holds_spec hc).1 fun d r' ph hd hd' =>
        hd (h.owner_unique hd' hc)
    · cases hnext

/-! ### Runs -/

/-- The invariant holds in every state of a run without an error exit. -/
theorem prefix_inv {l l' : List Act} (h : Run (Guarded (fun s a => ¬s.ErrorExit a) Step) s l t)
    (hs : Inv s) {t' : Conn} (hl : l' <+: l) (h' : Run Step s l' t') : Inv t' := by
  induction h generalizing l' with
  | nil s =>
    obtain rfl := prefix_nil.mp hl
    cases h'
    exact hs
  | cons hst _ ih =>
    cases h' with
    | nil => exact hs
    | cons hst' hrun' =>
      obtain ⟨rfl, htail⟩ := cons_prefix_cons.mp hl
      -- a step has one outcome
      have hsame := hst.2.2.symm.trans hst'.2
      rw [some.injEq] at hsame
      subst hsame
      exact ih (hs.step hst.2 hst.1) htail hrun'

/-- A run whose states all keep the promise has no error exit. -/
theorem guarded_of_good {l : List Act} (h : Run Step s l t) (hs : Inv s)
    (hgood : ∀ l' t', l' <+: l → Run Step s l' t' → t'.Good) :
    Run (Guarded (fun s a => ¬s.ErrorExit a) Step) s l t := by
  induction h with
  | nil s => exact .nil s
  | @cons s s₁ t a l hst _ ih =>
    have hne : ¬s.ErrorExit a := by
      intro he
      refine hs.step_error hst he (hgood [a] s₁ ?_ (.single hst))
      exact cons_prefix_cons.mpr ⟨rfl, nil_prefix⟩
    refine .cons ⟨hne, hst⟩ (ih (hs.step hst hne) fun l' t' hl hrun => ?_)
    exact hgood (a :: l') t' (cons_prefix_cons.mpr ⟨rfl, hl⟩) (.cons hst hrun)

end Inv

/-- **The multiplexer keeps its promise exactly in the runs without an error exit**: in each
state of a run `wait[]` has the tags of the calls that have not returned, `ntag` their number,
every packet returned the tag of its call, there is one muxer at most and no freed `Rwait` in
`wait[]`, if and only if no call of the run leaves because its request has no two bytes in
one fragment, is not sent, or nothing is received. -/
theorem vtrpc_good_iff {acts : List Act} {t : Conn} (h : Run Step Conn.start acts t) :
    (∀ acts' t', acts' <+: acts → Run Step Conn.start acts' t' → t'.Good) ↔
      Run (Guarded (fun s a => ¬s.ErrorExit a) Step) Conn.start acts t := by
  constructor
  · exact Inv.guarded_of_good h start_inv
  · intro hg acts' t' hl hrun
    exact (Inv.prefix_inv hg start_inv hl hrun).good

/-- **In a run without an error exit** nothing aborts, no freed memory is used, the lock is
not lost, and no two calls have one tag. -/
theorem vtrpc_safe {acts : List Act} {t : Conn}
    (h : Run (Guarded (fun s a => ¬s.ErrorExit a) Step) Conn.start acts t) :
    t.stop = none ∧ t.locked = false ∧ ∀ c d tag, t.Owns c tag → t.Owns d tag → c = d := by
  have hstep : ∀ s a t, Inv s → ¬s.ErrorExit a → Step s a t → Inv t :=
    fun _ _ _ hs hne hst => hs.step hst hne
  have ht : Inv t := h.guarded_inv hstep start_inv
  refine ⟨ht.running, ht.unlocked, ?_⟩
  rintro c d tag ⟨r, ph, hc⟩ ⟨r', ph', hd⟩
  exact ht.owner_unique hc hd

/-- A ping: two bytes, the second of which is the place of the tag. -/
def ping : Request := [[2, 0]]

set_option maxRecDepth 4000 in
/-- A call that has sent its request. -/
theorem vtrpc_safe_sent : ∃ t,
    Run (Guarded (fun s a => ¬s.ErrorExit a) Step) Conn.start
      [.begin 0 ping 0, .first 0, .send 0 true] t ∧
    t.stop = none ∧ t.locked = false ∧ ∀ c d tag, t.Owns c tag → t.Owns d tag → c = d := by
  obtain ⟨s₁, s₂, s₃, h₁, h₂, h₃, hc⟩ : ∃ s₁ s₂ s₃, Step Conn.start (.begin 0 ping 0) s₁ ∧
      Step s₁ (.first 0) s₂ ∧ Step s₂ (.send 0 true) s₃ ∧ s₁.call 0 = .begun 0 ping :=
    ⟨_, _, _, ⟨rfl, rfl⟩, ⟨rfl, rfl⟩, ⟨rfl, rfl⟩, rfl⟩
  have hfirst : ¬s₁.ErrorExit (.first 0) := by
    rintro ⟨-, r, q, hq | hq, hpeek⟩ <;> rw [hc] at hq <;> cases hq
    exact hpeek rfl
  have hrun : Run (Guarded (fun s a => ¬s.ErrorExit a) Step) Conn.start
      [.begin 0 ping 0, .first 0, .send 0 true] s₃ :=
    .cons ⟨id, h₁⟩ (.cons ⟨hfirst, h₂⟩ (.single ⟨fun h => Bool.noConfusion h, h₃⟩))
  exact ⟨s₃, hrun, vtrpc_safe hrun⟩

/-- One call gets a tag, sends its request and receives the reply. -/
def roundTrip : List Act :=
  [.begin 0 ping 0, .first 0, .send 0 true, .second 0, .recv 0 (some [3, 0]), .deliver 0]

set_option maxRecDepth 4000 in
theorem roundTrip_runs : ∃ t, Run Step Conn.start roundTrip t :=
  ⟨_, .cons ⟨rfl, rfl⟩ (.cons ⟨rfl, rfl⟩ (.cons ⟨rfl, rfl⟩ (.cons ⟨rfl, rfl⟩
    (.cons ⟨rfl, rfl⟩ (.cons ⟨rfl, rfl⟩ (.nil _))))))⟩

/-- The promise along one round trip. -/
theorem roundTrip_good_iff : ∃ t, Run Step Conn.start roundTrip t ∧
    ((∀ acts' t', acts' <+: roundTrip → Run Step Conn.start acts' t' → t'.Good) ↔
      Run (Guarded (fun s a => ¬s.ErrorExit a) Step) Conn.start roundTrip t) := by
  obtain ⟨t, ht⟩ := roundTrip_runs
  exact ⟨t, ht, vtrpc_good_iff ht⟩

/-- A call whose request is not sent frees its `Rwait` and returns, and leaves it in `wait[]`. -/
theorem unsent_not_good : ¬∀ acts t, Run Step Conn.start acts t → t.Good := by
  intro hgood
  obtain ⟨s₁, s₂, s₃, h₁, h₂, h₃, hc⟩ : ∃ s₁ s₂ s₃, Step Conn.start (.begin 0 ping 0) s₁ ∧
      Step s₁ (.first 0) s₂ ∧ Step s₂ (.send 0 false) s₃ ∧ s₁.call 0 = .begun 0 ping :=
    ⟨_, _, _, ⟨rfl, rfl⟩, ⟨rfl, rfl⟩, ⟨rfl, rfl⟩, rfl⟩
  have hfirst : ¬s₁.ErrorExit (.first 0) := by
    intro he
    obtain ⟨-, r, q, hq, hpeek⟩ := Inv.errorExit_first.mp he
    rw [hc] at hq
    rcases hq with hq | hq
    · cases hq
      exact hpeek rfl
    · cases hq
  have hinv : Inv s₂ := (start_inv.step h₁ id).step h₂ hfirst
  exact hinv.step_error h₃ rfl (hgood _ _ (.cons h₁ (.cons h₂ (.single h₃))))

end Rpc

end LibVenti

end Plan9
