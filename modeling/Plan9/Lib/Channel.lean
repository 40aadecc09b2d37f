import Mathlib.Data.List.Basic
import Mathlib.Data.List.Infix

/-!
# Histories of a channel

A channel is written to and read from by several parties. Its history lists what has
happened, the newest event first: a party has called for some data to be written, a piece
has been put into the channel, a piece has been got out of it or thrown away, a write has
returned a number.

Two things can be asked of a history: what has gone through the channel, in which order
(`Plan9.Lib.Channel.accepted`, `Plan9.Lib.Channel.consumed`, and
`Plan9.Lib.Channel.Fifo` for a channel that keeps the order), and what one party has
done since its last call (`Plan9.Lib.Channel.request`, `Plan9.Lib.Channel.written`).
A statement about every event and what had happened before it is a
`Plan9.Lib.Channel.Always`.
-/

namespace Plan9

namespace Lib

namespace Channel

variable {α : Type*}

/-- What happens on a channel. -/
inductive Event (α : Type*)
  /-- Party `p` asks for `data` to be written. -/
  | called (p : ℕ) (data : List α)
  /-- A piece goes into the channel. -/
  | put (p : ℕ) (bs : List α)
  /-- A piece is handed out. -/
  | got (p : ℕ) (bs : List α)
  /-- A piece is thrown away at the channel's end. -/
  | dropped (p : ℕ) (bs : List α)
  /-- The write of `p` returns `n`. -/
  | returned (p n : ℕ)
  deriving DecidableEq

open Event

variable {p p' n : ℕ} {bs data content content' : List α} {h : List (Event α)} {e : Event α}

/-- The pieces that went in, the first one first. -/
def messages : List (Event α) → List (List α)
  | [] => []
  | put _ bs :: h => messages h ++ [bs]
  | _ :: h => messages h

/-- All that went in. -/
def accepted (h : List (Event α)) : List α := (messages h).flatten

/-- All that came out. -/
def consumed : List (Event α) → List α
  | [] => []
  | got _ bs :: h => consumed h ++ bs
  | dropped _ bs :: h => consumed h ++ bs
  | _ :: h => consumed h

/-- What `p` asked for last. -/
def request (p : ℕ) : List (Event α) → List α
  | [] => []
  | called p' data :: h => if p' = p then data else request p h
  | _ :: h => request p h

/-- The pieces that `p` has put in since it asked. -/
def written (p : ℕ) : List (Event α) → List (List α)
  | [] => []
  | called p' _ :: h => if p' = p then [] else written p h
  | put p' bs :: h => if p' = p then written p h ++ [bs] else written p h
  | _ :: h => written p h

section Simp

@[simp] theorem messages_put : messages (put p bs :: h) = messages h ++ [bs] := rfl

@[simp] theorem accepted_got : accepted (got p bs :: h) = accepted h := rfl
@[simp] theorem accepted_dropped : accepted (dropped p bs :: h) = accepted h := rfl

@[simp] theorem accepted_put : accepted (put p bs :: h) = accepted h ++ bs := by
  rw [accepted, messages_put, List.flatten_append, List.flatten_singleton, ← accepted]

@[simp] theorem consumed_put : consumed (put p bs :: h) = consumed h := rfl
@[simp] theorem consumed_got : consumed (got p bs :: h) = consumed h ++ bs := rfl
@[simp] theorem consumed_dropped : consumed (dropped p bs :: h) = consumed h ++ bs := rfl

@[simp] theorem request_called :
    request p (called p' data :: h) = if p' = p then data else request p h := rfl

@[simp] theorem request_put : request p (put p' bs :: h) = request p h := rfl

@[simp] theorem written_called :
    written p (called p' data :: h) = if p' = p then [] else written p h := rfl

@[simp] theorem written_put :
    written p (put p' bs :: h) = if p' = p then written p h ++ [bs] else written p h := rfl

end Simp

/-! ### Order -/

/-- **A reliable channel**: what came out, followed by what is still inside, is what went in. -/
def Fifo (content : List α) (h : List (Event α)) : Prop := consumed h ++ content = accepted h

namespace Fifo

theorem put (H : Fifo content h) : Fifo (content ++ bs) (put p bs :: h) := by
  rw [Fifo, consumed_put, accepted_put, ← List.append_assoc, H]

theorem got (H : Fifo (bs ++ content) h) : Fifo content (got p bs :: h) := by
  rw [Fifo, consumed_got, accepted_got, List.append_assoc, H]

theorem dropped (H : Fifo (bs ++ content) h) : Fifo content (dropped p bs :: h) := by
  rw [Fifo, consumed_dropped, accepted_dropped, List.append_assoc, H]

/-- What came out is the beginning of what went in. -/
theorem isPrefix (H : Fifo content h) : consumed h <+: accepted h := ⟨content, H⟩

end Fifo

/-! ### Events and their past -/

/-- `P` holds of every event and of what had happened before it. -/
def Always (P : Event α → List (Event α) → Prop) : List (Event α) → Prop
  | [] => True
  | e :: h => P e h ∧ Always P h

/-- A write that returns `n` has put in the first `n` of what it was asked for, and no more. -/
def Exact : Event α → List (Event α) → Prop
  | returned p n, h => n ≤ (request p h).length ∧ (written p h).flatten = (request p h).take n
  | _, _ => True

/-- A write that returns that all has been written has put it in as one piece – nothing need be put
in for nothing. -/
def Whole : Event α → List (Event α) → Prop
  | returned p n, h => n = (request p h).length → n ≠ 0 → written p h = [request p h]
  | _, _ => True

/-- What is handed out is from one piece that went in. -/
def FromOne : Event α → List (Event α) → Prop
  | got _ bs, h => ∃ m ∈ messages h, bs <:+: m
  | _, _ => True

end Channel

end Lib

end Plan9
