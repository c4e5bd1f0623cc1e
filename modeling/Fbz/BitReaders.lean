import Fbz.Bzip2.ScanExact
import Fbz.Deflate.HuffmanCodes

/-!
# Bit readers

The three readers with their position. Each returns the bits one by one in the order of its format
and moves behind them, or an error and stays; wherever a word of eight bytes and the tail of the data
could both serve, they serve the same.
-/

namespace Fbz

open BitOrder

namespace Bzip2

/-- `Bits::read`: the result and the position afterwards. -/
def Bits.readMut (data : List UInt8) (bit count : Nat) : Result Nat × Nat :=
  if count = 0 then (.ok 0, bit)
  else
    match peek data bit count with
    | .ok value => (.ok value, bit + count)
    | .error error => (.error error, bit)

/-- `BitReader::read_bits`: the result and the position afterwards. -/
def BitReader.readBitsMut (data : List UInt8) (bit count : Nat) : Result Nat × Nat :=
  match readBits data bit count with
  | .ok (value, next) => (.ok value, next)
  | .error error => (.error error, bit)

section Readers

variable {data : List UInt8} {bit count : Nat}

private theorem Bits.readMut_eq (pos : 1 ≤ count) (few : count ≤ 32) :
    readMut data bit count =
      if bit + count ≤ data.length * 8 then
        (.ok (highFirst (streamBit data) bit count), bit + count)
      else (.error (decodeError bit .truncated), bit) := by
  rw [readMut, if_neg (Nat.ne_of_gt pos), peek_eq pos few, remaining]
  by_cases hfits : bit + count ≤ data.length * 8
  · rw [if_pos (by omega), if_pos hfits]
  · rw [if_neg (by omega), if_neg hfits]

private theorem BitReader.readBitsMut_eq (pos : 1 ≤ count) (few : count ≤ 64) :
    readBitsMut data bit count =
      if bit + count ≤ data.length * 8 then
        (.ok (highFirst (streamBit data) bit count), bit + count)
      else (.error (eof data bit count), bit) := by
  rw [readBitsMut, readBits_eq pos few]
  by_cases hfits : bit + count ≤ data.length * 8
  · rw [if_pos hfits, if_pos hfits]
  · rw [if_neg hfits, if_neg hfits]

end Readers

end Bzip2

namespace Deflate

/-- The tail branch of `peek`: the bytes there are, one above the other. -/
def tailWord (data : List UInt8) (byte : Nat) : Nat :=
  ((data.drop byte).take 8).zipIdx.foldl
    (fun word entry => word ||| entry.1.toNat <<< (entry.2 * 8)) 0

/-- The word `peek` takes its bits from, with its two branches. -/
def peekedWord (data : List UInt8) (byte : Nat) : Nat :=
  if 8 ≤ data.length - byte then leNat (slice data byte (byte + 8)) else tailWord data byte

/-- `Bits::read`: the result and the position afterwards. -/
def Bits.readMut (data : List UInt8) (bit count : Nat) : Result Nat × Nat :=
  if count = 0 then (.ok 0, bit)
  else
    match (do
      ensure (bit + count ≤ data.length * 8) (invalidBit bit "unexpected end of DEFLATE data")
      return peekedWord data (bit / 8) >>> (bit % 8) % 2 ^ count : Result Nat) with
    | .ok value => (.ok value, bit + count)
    | .error error => (.error error, bit)

section Reader

variable {data : List UInt8} {bit count : Nat}

private theorem foldl_above (bytes : List UInt8) {word index : Nat}
    (below : word < 2 ^ (index * 8)) :
    (bytes.zipIdx index).foldl (fun word entry => word ||| entry.1.toNat <<< (entry.2 * 8)) word =
      word + leNat bytes * 2 ^ (index * 8) := by
  induction bytes generalizing word index with
  | nil => simp [leNat]
  | cons byte bytes ih =>
    have hbyte := byte.toNat_lt
    have hword : word ||| byte.toNat <<< (index * 8) = word + byte.toNat * 2 ^ (index * 8) := by
      rw [Nat.lor_comm, ← Nat.shiftLeft_add_eq_or_of_lt below, Nat.shiftLeft_eq, Nat.add_comm]
    have hpow : 2 ^ ((index + 1) * 8) = 2 ^ (index * 8) * 256 := by
      rw [Nat.succ_mul, Nat.pow_add]
    have hbelow : word + byte.toNat * 2 ^ (index * 8) < 2 ^ ((index + 1) * 8) := by
      rw [hpow]
      have := Nat.mul_le_mul_right (2 ^ (index * 8)) (Nat.le_of_lt_succ hbyte)
      omega
    rw [List.zipIdx_cons, List.foldl_cons, hword, ih hbelow, leNat, hpow]
    ring

private theorem tailWord_eq (data : List UInt8) (byte : Nat) :
    tailWord data byte = wordAt data byte := by
  rw [tailWord, foldl_above _ (by decide), wordAt, slice, Nat.add_sub_cancel_left]
  simp

private theorem peekedWord_eq (data : List UInt8) (byte : Nat) :
    peekedWord data byte = wordAt data byte := by
  rw [peekedWord]
  split
  · rfl
  · exact tailWord_eq data byte

private theorem Bits.readMut_eq (pos : 1 ≤ count) (few : count ≤ 16) :
    readMut data bit count =
      if bit + count ≤ data.length * 8 then
        (.ok (lowFirst (streamBit data) bit count), bit + count)
      else (.error (invalidBit bit "unexpected end of DEFLATE data"), bit) := by
  have hpeek := @peek_eq data bit count (by omega)
  rw [peek, ← peekedWord_eq] at hpeek
  rw [readMut, if_neg (Nat.ne_of_gt pos), hpeek]
  by_cases hfits : bit + count ≤ data.length * 8
  · rw [if_pos hfits, if_pos hfits]
  · rw [if_neg hfits, if_neg hfits]

end Reader

end Deflate

/-- Each reader returns the next bits in its order and moves behind them, or fails and stays. The two
ways of fetching them agree. -/
theorem bitReaders_exact (data : List UInt8) (bit count : Nat) (pos : 1 ≤ count) :
    (count ≤ 64 → Bzip2.BitReader.readBitsMut data bit count =
      if bit + count ≤ data.length * 8 then
        (.ok (highFirst (Bzip2.streamBit data) bit count), bit + count)
      else (.error (Bzip2.BitReader.eof data bit count), bit)) ∧
    (count ≤ 32 → Bzip2.Bits.readMut data bit count =
      if bit + count ≤ data.length * 8 then
        (.ok (highFirst (Bzip2.streamBit data) bit count), bit + count)
      else (.error (Bzip2.decodeError bit .truncated), bit)) ∧
    (count ≤ 16 → Deflate.Bits.readMut data bit count =
      if bit + count ≤ data.length * 8 then
        (.ok (lowFirst (Deflate.streamBit data) bit count), bit + count)
      else (.error (Deflate.invalidBit bit "unexpected end of DEFLATE data"), bit)) ∧
    (count ≤ 32 → bit + count ≤ data.length * 8 → bit / 8 + 8 ≤ data.length →
      Bzip2.Bits.peekWord data bit count = Bzip2.Bits.peekTail data bit count) ∧
    (8 ≤ data.length - bit / 8 →
      leNat (slice data (bit / 8) (bit / 8 + 8)) = Deflate.tailWord data (bit / 8)) := by
  refine ⟨Bzip2.BitReader.readBitsMut_eq pos, Bzip2.Bits.readMut_eq pos,
    Deflate.Bits.readMut_eq pos, ?_, fun _ => (Deflate.tailWord_eq data (bit / 8)).symm⟩
  intro few fits word
  rw [Bzip2.Bits.peekWord_eq few word, Bzip2.Bits.peekTail_eq few fits]

theorem bitReaders_exact_five :
    (5 ≤ 64 → Bzip2.BitReader.readBitsMut [0xa5, 0x3c] 6 5 = (.ok 9, 11)) ∧
    (5 ≤ 16 → Deflate.Bits.readMut [0xa5, 0x3c] 6 5 = (.ok 18, 11)) := by
  have h := bitReaders_exact [0xa5, 0x3c] 6 5 (by decide)
  refine ⟨fun _ => (h.1 (by decide)).trans (by decide), fun _ => (h.2.2.1 (by decide)).trans (by decide)⟩

end Fbz
