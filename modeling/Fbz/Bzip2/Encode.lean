import Fbz.Bzip2.Bwt
import Fbz.Bzip2.Coding
import Fbz.Bzip2.Mtf

/-!
# Encoding a bzip2 block

The result is a string of bits, since a block need not end on a byte.
-/

namespace Fbz.Bzip2

structure BlockJob where
  rle : List UInt8
  crc : UInt32
  inputLen : Nat

structure EncodedBlock where
  bytes : List UInt8
  bitLen : Nat
  crc : UInt32
  inputLen : Nat
  deriving DecidableEq

/-- Sixteen flags as a number, the first one highest. -/
def flagBits (flag : Nat → Bool) : Nat :=
  ((List.range 16).map fun i => if flag i then 1 <<< (15 - i) else 0).sum

/-- One word for the groups of sixteen values that occur, and one for each of these groups. -/
def writeSymbolMap (w : BitWriter) (inUse : List UInt8) : BitWriter :=
  let used := fun value => inUse.contains (UInt8.ofNat value)
  let group := fun index => (List.range 16).any fun bit => used (16 * index + bit)
  ((List.range 16).filter group).foldl
    (fun w index => w.writeBits 16 (flagBits fun bit => used (16 * index + bit)))
    (w.writeBits 16 (flagBits group))

def writeSymbol (lengths codes : List Nat) (w : BitWriter) (symbol : Nat) : BitWriter :=
  w.writeBits (lengths.getD symbol 0) (codes.getD symbol 0)

/-- Each group of symbols with the table its selector names. -/
def writeSymbols (w : BitWriter) (coding : Coding) (syms : List Nat) : BitWriter :=
  (coding.selectors.zip (syms.toChunks groupSize)).foldl
    (fun w entry =>
      entry.2.foldl (writeSymbol (coding.lens.getD entry.1 []) (coding.codes.getD entry.1 [])) w)
    w

def encodeBlock (job : BlockJob) : EncodedBlock :=
  -- jobs are not empty, so the transform does not panic
  let (last, origin) := (Bwt.transform job.rle).getD ([], 0)
  let symbols := Mtf.encode last
  let coding := Coding.build symbols.syms symbols.alphaSize
  let w := BitWriter.writeMagic {} blockMagic
  let w := w.writeU32 job.crc
  let w := w.writeBit 0
  let w := w.writeBits 24 origin
  let w := writeSymbolMap w symbols.inUse
  let w := w.writeBits 3 coding.nGroups
  let w := w.writeBits 15 coding.selectors.length
  let w := Coding.writeSelectors w coding.selectors coding.nGroups
  let w := Coding.writeTables w coding.lens
  let (bytes, bitLen) := (writeSymbols w coding symbols.syms).finishBits
  { bytes, bitLen, crc := job.crc, inputLen := job.inputLen }

end Fbz.Bzip2
