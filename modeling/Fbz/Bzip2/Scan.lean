import Fbz.Bzip2.Assemble
import Fbz.Bzip2.StreamBits

/-!
# Scanning for markers

Candidate stream headers at bytes and candidate block and end markers at bits. A window of seven
bytes slides over the input, and a table tells from its first byte at which shifts a marker may
begin. Large inputs are scanned in chunks, as many at once as there are threads.
-/

namespace Fbz.Bzip2

namespace BitReader

/-- `BitReader::at`. -/
def start (data : List UInt8) (bit : Nat) : Result Nat := do
  ensure (bit ≤ data.length * 8) (.invalidBitOffset bit (data.length * 8))
  return bit

def eof (data : List UInt8) (bit requested : Nat) : Error :=
  .unexpectedEof bit requested (data.length * 8 - bit)

def readBit (data : List UInt8) (bit : Nat) : Result (Bool × Nat) := do
  ensure (bit < data.length * 8) (eof data bit 1)
  let byte := data.getD (bit / 8) 0
  return (byte.toNat >>> (7 - bit % 8) % 2 ≠ 0, bit + 1)

def readBits (data : List UInt8) (bit count : Nat) : Result (Nat × Nat) := do
  ensure (count ≤ 64) (.invalidBitCount count)
  ensure (count ≤ data.length * 8 - bit) (eof data bit count)
  if count = 0 then return (0, bit)
  else
    let firstByte := bit / 8
    let skipped := bit % 8
    let byteCount := (skipped + count + 7) / 8
    let word := beNat (slice data firstByte (firstByte + byteCount))
    let trailing := byteCount * 8 - skipped - count
    return (word >>> trailing % 2 ^ count, bit + count)

end BitReader

structure StreamHeaderCandidate where
  byteOffset : Nat
  blockSize100k : Nat
  deriving DecidableEq, Repr

structure ScanResult where
  streams : List StreamHeaderCandidate
  blocks : List BlockCandidate
  streamEnds : List EndCandidate
  deriving DecidableEq, Repr

def ScanResult.append (result chunk : ScanResult) : ScanResult :=
  ⟨result.streams ++ chunk.streams, result.blocks ++ chunk.blocks,
    result.streamEnds ++ chunk.streamEnds⟩

namespace Scan

def scanChunk : Nat := 2 ^ 20

def byteAt (data : List UInt8) (offset : Nat) : UInt8 := data.getD offset 0

/-- `BZh` and a digit. -/
def isStreamHeader (data : List UInt8) (offset : Nat) : Bool :=
  decide (range? data offset (offset + 3) = some [0x42, 0x5a, 0x68]) &&
    (data[offset + 3]?).any fun digit => decide (0x31 ≤ digit ∧ digit ≤ 0x39)

def parseBlock (data : List UInt8) (bitOffset : Nat) : Option BlockCandidate :=
  Except.toOption do
    let bit ← BitReader.start data (bitOffset + 48)
    let (expectedCrc, bit) ← BitReader.readBits data bit 32
    let (randomized, bit) ← BitReader.readBit data bit
    let (origPtr, _) ← BitReader.readBits data bit 24
    return ⟨bitOffset, UInt32.ofNat expectedCrc, randomized, origPtr⟩

def parseEnd (data : List UInt8) (bitOffset : Nat) : Option EndCandidate :=
  Except.toOption do
    let bit ← BitReader.start data (bitOffset + 48)
    let (expectedStreamCrc, _) ← BitReader.readBits data bit 32
    return ⟨bitOffset, UInt32.ofNat expectedStreamCrc⟩

/-- Bit `shift` of an entry is set when the byte ends, behind `shift` bits, as the marker begins. -/
def prefixTable (magic : Nat) : List Nat :=
  (List.range 256).map fun byte =>
    (List.range 8).foldl
      (fun entry shift =>
        let wanted := (magic >>> (40 + shift)) % 2 ^ 8
        let kept := (1 <<< (8 - shift) - 1) % 2 ^ 8
        if byte &&& kept = wanted then entry ||| 1 <<< shift else entry)
      0

def blockPrefix : List Nat := prefixTable blockMagic

def endPrefix : List Nat := prefixTable endMagic

def trailingZeros (byte : Nat) : Nat := ((List.range 8).find? byte.testBit).getD 8

/-- The shifts whose bits are set, the lowest first. -/
def setBits (shifts : Nat) : List Nat :=
  if shifts = 0 then []
  else trailingZeros shifts :: setBits (shifts &&& (shifts - 1))
termination_by shifts
decreasing_by exact Nat.lt_of_le_of_lt Nat.and_le_right (by omega)

/-- Blocks and stream ends so far. -/
abbrev Found := List BlockCandidate × List EndCandidate

def visit (data : List UInt8) (byteOffset window : Nat) (found : Found) (shift : Nat) : Found :=
  let marker := (window >>> (8 - shift)) % 2 ^ 48
  let bitOffset := byteOffset * 8 + shift
  if marker = blockMagic then
    match parseBlock data bitOffset with
    | some block => (found.1 ++ [block], found.2)
    | none => found
  else if marker = endMagic then
    match parseEnd data bitOffset with
    | some stop => (found.1, found.2 ++ [stop])
    | none => found
  else found

def scanByte (data : List UInt8) (state : Nat × Found) (byteOffset : Nat) : Nat × Found :=
  let (window, found) := state
  let shifts := blockPrefix.getD (window >>> 48) 0 ||| endPrefix.getD (window >>> 48) 0
  ((window <<< 8) % 2 ^ 56 ||| (byteAt data (byteOffset + 7)).toNat,
    (setBits shifts).foldl (visit data byteOffset window) found)

def scanRange (data : List UInt8) (start stop : Nat) : ScanResult :=
  let streams := ((List.range' start (stop - start)).filter (isStreamHeader data)).map fun offset =>
    ⟨offset, (byteAt data (offset + 3)).toNat - 0x30⟩
  if data.length < 7 ∨ stop ≤ start then ⟨streams, [], []⟩
  else
    let window := (List.range' start 7).foldl
      (fun word offset => word <<< 8 ||| (byteAt data offset).toNat) 0
    let (_, blocks, streamEnds) :=
      (List.range' start (stop - start)).foldl (scanByte data) (window, [], [])
    ⟨streams, blocks, streamEnds⟩

def scan (data : List UInt8) : Result ScanResult := do
  ensure (isStreamHeader data 0) .invalidStreamHeader
  return scanRange data 0 data.length

def cancellationError : Error := .io ⟨.brokenPipe, "output reader stopped reading"⟩

/-- The waves of chunks from `first` on. `cancelled` is what each call of the closure answers, and
the pool scans the chunks of a wave in any order: each is a function of the data alone. -/
def scanWaves (data : List UInt8) (cancelled : Nat → Bool) (wave chunks first call : Nat)
    (result : ScanResult) : Result ScanResult := do
  ensure (cancelled call = false) cancellationError
  if first < chunks then
    let stop := min (first + max wave 1) chunks
    let partials := (List.range' first (stop - first)).map fun chunk =>
      scanRange data (chunk * scanChunk) (min ((chunk + 1) * scanChunk) data.length)
    scanWaves data cancelled wave chunks (first + max wave 1) (call + 1)
      (partials.foldl ScanResult.append result)
  else return result
termination_by chunks - first

def scanWithPool (data : List UInt8) (threads : Option Nat) (cancelled : Nat → Bool) :
    Result ScanResult := do
  ensure (isStreamHeader data 0) .invalidStreamHeader
  ensure (cancelled 0 = false) cancellationError
  match threads.filter fun _ => decide (scanChunk < data.length) with
  | none =>
    let result := scanRange data 0 data.length
    ensure (cancelled 1 = false) cancellationError
    return result
  | some threads =>
    scanWaves data cancelled threads ((data.length + scanChunk - 1) / scanChunk) 0 1 ⟨[], [], []⟩

end Scan

end Fbz.Bzip2
