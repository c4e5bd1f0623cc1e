import Fbz.Bytes

/-!
# Bit reader of DEFLATE

Bits are taken from the low end of each byte. A reader is a byte string and a bit position; the
functions take the position and return the next one.
-/

namespace Fbz.Deflate

def invalid (message : String) : Error := .invalidGzip message
def invalidAt (byte : Nat) (message : String) : Error := invalid s!"at byte {byte}: {message}"
def invalidBit (bit : Nat) (message : String) : Error := invalid s!"at bit {bit}: {message}"

/-- Up to eight bytes from `byte` on as a little-endian number. -/
def wordAt (data : List UInt8) (byte : Nat) : Nat := leNat (slice data byte (byte + 8))

namespace Bits

/-- `Bits::at`. -/
def start (data : List UInt8) (bit : Nat) : Result Nat := do
  ensure (bit ≤ data.length * 8) (invalidBit bit "unexpected end of DEFLATE data")
  return bit

/-- Callers ask for at most sixteen bits, so one word is enough. -/
def peek (data : List UInt8) (bit count : Nat) : Result Nat := do
  ensure (bit + count ≤ data.length * 8) (invalidBit bit "unexpected end of DEFLATE data")
  return wordAt data (bit / 8) >>> (bit % 8) % 2 ^ count

def read (data : List UInt8) (bit count : Nat) : Result (Nat × Nat) :=
  if count = 0 then .ok (0, bit)
  else do
    let value ← peek data bit count
    return (value, bit + count)

/-- `(bit + 7) & !7`. -/
def alignByte (bit : Nat) : Nat := (bit + 7) / 8 * 8

def readAlignedBytes (data : List UInt8) (bit count : Nat) : Result (List UInt8 × Nat) := do
  ensure (bit % 8 = 0) (invalidBit bit "internal unaligned byte read")
  let bytes ← okOr (invalidBit bit "truncated stored block")
    (range? data (bit / 8) (bit / 8 + count))
  return (bytes, (bit / 8 + count) * 8)

variable {data : List UInt8} {bit count : Nat}

theorem peek_fits {value : Nat} (h : peek data bit count = .ok value) :
    bit + count ≤ data.length * 8 := by
  obtain ⟨_, hfits, -⟩ := result_bind_eq_ok.mp h
  exact ensure_eq_ok.mp hfits

theorem peek_lt {value : Nat} (h : peek data bit count = .ok value) : value < 2 ^ count := by
  obtain ⟨_, -, heq⟩ := result_bind_eq_ok.mp h
  rw [← Except.ok.inj heq]
  exact Nat.mod_lt _ (Nat.two_pow_pos count)

theorem read_lt {value next : Nat} (h : read data bit count = .ok (value, next)) :
    value < 2 ^ count := by
  unfold read at h
  split at h
  · obtain ⟨rfl, -⟩ := Prod.mk.inj (Except.ok.inj h)
    exact Nat.two_pow_pos count
  · obtain ⟨peeked, hpeek, heq⟩ := result_bind_eq_ok.mp h
    obtain ⟨rfl, -⟩ := Prod.mk.inj (Except.ok.inj heq)
    exact peek_lt hpeek

theorem read_next {value next : Nat} (h : read data bit count = .ok (value, next)) :
    next = bit + count ∧ (0 < count → next ≤ data.length * 8) := by
  unfold read at h
  split at h
  · obtain ⟨-, rfl⟩ := Prod.mk.inj (Except.ok.inj h)
    omega
  · obtain ⟨peeked, hpeek, heq⟩ := result_bind_eq_ok.mp h
    obtain ⟨-, rfl⟩ := Prod.mk.inj (Except.ok.inj heq)
    exact ⟨rfl, fun _ => peek_fits hpeek⟩

theorem le_alignByte (bit : Nat) : bit ≤ alignByte bit := by
  unfold alignByte
  omega

theorem alignByte_le (h : bit ≤ data.length * 8) : alignByte bit ≤ data.length * 8 := by
  unfold alignByte
  omega

theorem readAlignedBytes_next {bytes : List UInt8} {next : Nat}
    (h : readAlignedBytes data bit count = .ok (bytes, next)) :
    next = bit + 8 * count ∧ next ≤ data.length * 8 ∧ bytes.length = count := by
  simp only [readAlignedBytes, result_bind_eq_ok, ensure_eq_ok, okOr_eq_ok] at h
  obtain ⟨_, haligned, taken, hrange, heq⟩ := h
  obtain ⟨rfl, rfl⟩ := Prod.mk.inj (Except.ok.inj heq)
  have hlen := range?_length hrange
  obtain ⟨-, hle, -⟩ := range?_eq_some.mp hrange
  omega

end Bits

end Fbz.Deflate
