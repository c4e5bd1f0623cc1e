import Fbz.Bytes

/-!
# Bit writer of bzip2

Bits fill bytes from the high end, the mirror image of the reader.
-/

namespace Fbz.Bzip2

/-- Whole bytes in `out`, the bits of the next one in `acc`. -/
structure BitWriter where
  out : List UInt8 := []
  acc : Nat := 0
  nbits : Nat := 0
  deriving DecidableEq

namespace BitWriter

/-- The loop of `write_bits`: whole bytes leave the accumulator. -/
def spill (out : List UInt8) (acc nbits : Nat) : List UInt8 × Nat :=
  if 8 ≤ nbits then spill (out ++ [UInt8.ofNat (acc >>> (nbits - 8))]) acc (nbits - 8)
  else (out, nbits)
termination_by nbits

/-- The low `n` bits of `val`, for at most 32 bits. -/
def writeBits (w : BitWriter) (n val : Nat) : BitWriter :=
  let acc := w.acc <<< n ||| val % 2 ^ n
  let (out, nbits) := spill w.out acc (w.nbits + n)
  { out, acc := acc % 2 ^ nbits, nbits }

def writeBit (w : BitWriter) (bit : Nat) : BitWriter := w.writeBits 1 bit

def writeMagic (w : BitWriter) (magic : Nat) : BitWriter :=
  (w.writeBits 24 (magic >>> 24)).writeBits 24 (magic % 2 ^ 24)

def writeU8 (w : BitWriter) (byte : UInt8) : BitWriter := w.writeBits 8 byte.toNat

def writeU32 (w : BitWriter) (val : UInt32) : BitWriter := w.writeBits 32 val.toNat

/-- The whole bytes so far, and the writer without them. -/
def drain (w : BitWriter) : List UInt8 × BitWriter := (w.out, { w with out := [] })

/-- The first `bitLen` bits of a buffer. -/
def writeBuffer (w : BitWriter) (bytes : List UInt8) (bitLen : Nat) : BitWriter :=
  let full := bitLen / 8
  let w := (bytes.take full).foldl writeU8 w
  let trailing := bitLen % 8
  if trailing ≠ 0 then w.writeBits trailing ((bytes.getD full 0).toNat >>> (8 - trailing)) else w

/-- All bytes, the last one padded, and the number of bits that count. -/
def finishBits (w : BitWriter) : List UInt8 × Nat :=
  let bitLen := w.out.length * 8 + w.nbits
  if 0 < w.nbits then (w.out ++ [UInt8.ofNat (w.acc <<< (8 - w.nbits))], bitLen)
  else (w.out, bitLen)

def finish (w : BitWriter) : List UInt8 :=
  if 0 < w.nbits then (w.writeBits (8 - w.nbits) 0).out else w.out

end BitWriter

end Fbz.Bzip2
