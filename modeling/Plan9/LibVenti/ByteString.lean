import Plan9.Lib.Bytes

/-!
# What packets are for: byte strings

A packet of `packet.c` is a chain of fragments of shared, reference-counted
memory, but its users mean a byte string. This file says what each operation of
the packet library does to the byte string; the arguments are C integers, and the
functions that can fail name the error they report.

The wire codec is modelled over these operations, and `packet.c` itself is proved
against them.
-/

namespace Plan9

namespace LibVenti

/-- `EPacketSize`. -/
def ePacketSize : String := "bad packet size"

/-- `EPacketOffset`. -/
def ePacketOffset : String := "bad packet offset"

/-- `EBadSize`. -/
def eBadSize : String := "bad size"

/-- The contents of a packet. -/
abbrev ByteString := List UInt8

namespace ByteString

variable (p : ByteString)

/-- The `n` bytes from `offset` on. -/
def slice (offset n : ℤ) : ByteString := (p.drop offset.toNat).take n.toNat

/-- `packetpeek` and `packetcopy`: read `n` bytes at `offset`. Nothing is checked
when no bytes are asked for. -/
def peek (offset n : ℤ) : Except String ByteString :=
  if n = 0 then .ok []
  else if offset < 0 ∨ p.length ≤ offset then .error ePacketOffset
  else if n < 0 ∨ p.length < offset + n then .error ePacketSize
  else .ok (slice p offset n)

/-- `packettrim`: keep the `n` bytes from `offset` on. -/
def trim (offset n : ℤ) : Except String ByteString :=
  if offset < 0 ∨ p.length < offset then .error ePacketOffset
  else if n < 0 ∨ p.length < offset + n then .error ePacketOffset
  else .ok (slice p offset n)

/-- `packetconsume`: read `n` bytes off the front. -/
def consume (n : ℤ) : Except String (ByteString × ByteString) := do
  let b ← peek p 0 n
  let rest ← trim p n (p.length - n)
  return (b, rest)

/-- `packetdup`: a second packet with the `n` bytes from `offset` on. -/
def dup (offset n : ℤ) : Except String ByteString :=
  if offset < 0 ∨ n < 0 ∨ p.length < offset + n then .error eBadSize
  else .ok (slice p offset n)

/-- `packetsplit`: the first `n` bytes become a packet of their own. -/
def split (n : ℤ) : Except String (ByteString × ByteString) :=
  if n < 0 ∨ p.length < n then .error ePacketSize
  else .ok (p.take n.toNat, p.drop n.toNat)

variable {p}

theorem peek_eq_ok {offset n : ℕ} (h : offset + n ≤ p.length) :
    peek p offset n = .ok (slice p offset n) := by
  by_cases hn : n = 0
  · subst hn
    simp [peek, slice]
  · have h0 : ¬((n : ℤ) = 0) := by omega
    have h1 : ¬((offset : ℤ) < 0 ∨ (p.length : ℤ) ≤ offset) := by omega
    have h2 : ¬((n : ℤ) < 0 ∨ (p.length : ℤ) < offset + n) := by omega
    rw [peek, if_neg h0, if_neg h1, if_neg h2]

theorem trim_eq_ok {offset n : ℕ} (h : offset + n ≤ p.length) :
    trim p offset n = .ok (slice p offset n) := by
  have h1 : ¬((offset : ℤ) < 0 ∨ (p.length : ℤ) < offset) := by omega
  have h2 : ¬((n : ℤ) < 0 ∨ (p.length : ℤ) < offset + n) := by omega
  rw [trim, if_neg h1, if_neg h2]

/-- **`packetconsume` splits the front off**, if the packet has as many bytes. -/
theorem consume_eq_ok {n : ℕ} (h : n ≤ p.length) : consume p n = .ok (p.take n, p.drop n) := by
  have hpeek : peek p 0 n = .ok (slice p 0 n) := @peek_eq_ok p 0 n (by omega)
  have hrest : (p.length : ℤ) - n = ((p.length - n : ℕ) : ℤ) := by omega
  have htrim : trim p n (p.length - n) = .ok (slice p n (p.length - n : ℕ)) := by
    rw [hrest]
    exact trim_eq_ok (by omega)
  have hdrop : slice p n (p.length - n : ℕ) = p.drop n := by
    simp [slice, List.take_of_length_le]
  have htake : slice p 0 n = p.take n := by simp [slice]
  simp only [consume, hpeek, htrim, hdrop, htake, bind, Except.bind, pure, Except.pure]

/-- `packetconsume` fails on a packet that is too short, and says whether it was
empty. -/
theorem consume_eq_error {n : ℕ} (h : p.length < n) :
    consume p n = .error (if p = [] then ePacketOffset else ePacketSize) := by
  have h0 : ¬((n : ℤ) = 0) := by omega
  have h2 : (n : ℤ) < 0 ∨ (p.length : ℤ) < 0 + n := by omega
  have hpeek : peek p 0 n = .error (if p = [] then ePacketOffset else ePacketSize) := by
    rw [peek, if_neg h0]
    cases p with
    | nil => rfl
    | cons a p =>
      have h1 : ¬((0 : ℤ) < 0 ∨ ((a :: p).length : ℤ) ≤ 0) := by
        simp only [List.length_cons]
        omega
      rw [if_neg h1, if_pos h2]
      rfl
  simp only [consume, hpeek, bind, Except.bind]

end ByteString

end LibVenti

end Plan9
