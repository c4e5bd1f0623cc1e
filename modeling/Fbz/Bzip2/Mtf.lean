import Fbz.Bzip2.Block

/-!
# Move-to-front and zero runs

The symbols the Huffman coder sees: a run of index zero in digits of two kinds, any other index as
its successor, and an end-of-block symbol.
-/

namespace Fbz.Bzip2.Mtf

def runA : Nat := 0

def runB : Nat := 1

structure Symbols where
  inUse : List UInt8
  syms : List Nat

/-- The byte values of a block in ascending order. -/
def inUse (block : List UInt8) : List UInt8 :=
  ((List.range 256).map UInt8.ofNat).filter (block.contains ·)

/-- `flush_zero_run`: the run in digits one and two, the lowest first. -/
def zeroRun (n : Nat) : List Nat :=
  if n = 0 then []
  else if n % 2 = 1 then runA :: zeroRun ((n - 1) / 2)
  else runB :: zeroRun ((n - 2) / 2)
termination_by n

/-- The loop of `encode`: the bytes still to come, the list and the zeros that are pending. -/
def encodeFrom : List UInt8 → List UInt8 → Nat → List Nat
  | [], _, zeros => zeroRun zeros
  | byte :: rest, mtf, zeros =>
    let index := mtf.idxOf byte
    if index = 0 then encodeFrom rest mtf (zeros + 1)
    else zeroRun zeros ++ (index + 1) :: encodeFrom rest (moveToFront mtf index).2 0

def encode (block : List UInt8) : Symbols :=
  let used := inUse block
  ⟨used, encodeFrom block used 0 ++ [used.length + 1]⟩

def Symbols.alphaSize (symbols : Symbols) : Nat := symbols.inUse.length + 2

end Fbz.Bzip2.Mtf
