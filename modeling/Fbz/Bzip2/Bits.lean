import Fbz.Bytes

/-!
# Bit reader of bzip2

Bits are taken from the high end of each byte. A reader is a byte string and a bit position; the
functions take the position and return the next one.
-/

namespace Fbz.Bzip2

def decodeError (bitOffset : Nat) (source : DecodeError) : Error := .decode bitOffset source

/-- Big-endian value, `from_be_bytes`. -/
def beNat (bytes : List UInt8) : Nat := bytes.foldl (fun value byte => value <<< 8 ||| byte.toNat) 0

namespace Bits

/-- `Bits::at`. -/
def start (data : List UInt8) (bit : Nat) : Result Nat := do
  ensure (bit ≤ data.length * 8) (decodeError bit .truncated)
  return bit

def remaining (data : List UInt8) (bit : Nat) : Nat := data.length * 8 - bit

/-- Eight bytes at once where there are as many. Callers ask for at most 32 bits. -/
def peek (data : List UInt8) (bit count : Nat) : Result Nat := do
  ensure (count ≤ remaining data bit) (decodeError bit .truncated)
  let byte := bit / 8
  let offset := bit % 8
  if byte + 8 ≤ data.length then
    let word := beNat (slice data byte (byte + 8))
    return (word <<< offset % 2 ^ 64) >>> (64 - count) % 2 ^ 32
  else
    let stop := (bit + count + 7) / 8
    let word := beNat (slice data byte stop)
    let available := (stop - byte) * 8
    return word >>> (available - offset - count) % 2 ^ count % 2 ^ 32

def read (data : List UInt8) (bit count : Nat) : Result (Nat × Nat) :=
  if count = 0 then .ok (0, bit)
  else do
    let value ← peek data bit count
    return (value, bit + count)

/-- `Bits::bit`. -/
def readBit (data : List UInt8) (bit : Nat) : Result (Bool × Nat) := do
  let (value, bit) ← read data bit 1
  return (value ≠ 0, bit)

def magic (data : List UInt8) (bit : Nat) : Result (Nat × Nat) := do
  let (high, bit) ← read data bit 24
  let (low, bit) ← read data bit 24
  return (high <<< 24 ||| low, bit)

/-- `(bit + 7) & !7`. -/
def alignByte (bit : Nat) : Nat := (bit + 7) / 8 * 8

variable {data : List UInt8} {bit count : Nat}

private theorem peek_fits {value : Nat} (h : peek data bit count = .ok value) :
    count ≤ data.length * 8 - bit := by
  obtain ⟨_, hfits, -⟩ := result_bind_eq_ok.mp h
  exact ensure_eq_ok.mp hfits

theorem read_next {value next : Nat} (h : read data bit count = .ok (value, next)) :
    next = bit + count ∧ (0 < count → next ≤ data.length * 8) := by
  unfold read at h
  split at h
  · obtain ⟨-, rfl⟩ := Prod.mk.inj (Except.ok.inj h)
    omega
  · obtain ⟨peeked, hpeek, heq⟩ := result_bind_eq_ok.mp h
    obtain ⟨-, rfl⟩ := Prod.mk.inj (Except.ok.inj heq)
    have := peek_fits hpeek
    omega

theorem readBit_next {value : Bool} {next : Nat} (h : readBit data bit = .ok (value, next)) :
    next = bit + 1 ∧ next ≤ data.length * 8 := by
  obtain ⟨⟨value', next'⟩, hread, heq⟩ := result_bind_eq_ok.mp h
  obtain ⟨-, rfl⟩ := Prod.mk.inj (Except.ok.inj heq)
  have := read_next hread
  omega

theorem magic_next {value next : Nat} (h : magic data bit = .ok (value, next)) :
    next = bit + 48 ∧ next ≤ data.length * 8 := by
  obtain ⟨⟨high, bit1⟩, hhigh, h⟩ := result_bind_eq_ok.mp h
  obtain ⟨⟨low, bit2⟩, hlow, heq⟩ := result_bind_eq_ok.mp h
  obtain ⟨-, rfl⟩ := Prod.mk.inj (Except.ok.inj heq)
  have h1 := read_next hhigh
  have h2 := read_next hlow
  omega

end Bits

end Fbz.Bzip2
