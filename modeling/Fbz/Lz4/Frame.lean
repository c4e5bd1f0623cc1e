import Fbz.Lz4.Hash
import Fbz.Options

/-!
# LZ4 frames

Frame headers and block headers, and the errors of malformed ones.
-/

namespace Fbz.Lz4

def frameMagic : Nat := 0x184d2204
def legacyMagic : Nat := 0x184c2102
def skippableMagicStart : Nat := 0x184d2a50
def skippableMagicEnd : Nat := 0x184d2a5f
def windowSize : Nat := 64 * 1024
def minParallelInput : Nat := 1024 * 1024
def autoThreadLimit : Nat := 4
def maxBatchBlocks : Nat := 64

inductive BlockMode
  | independent
  | linked
  deriving DecidableEq, Repr

structure Block where
  frame : Nat
  compressedStart : Nat
  compressedEnd : Nat
  decodedStart : Nat
  decodedLen : Nat
  stored : Bool
  deriving DecidableEq, Repr

structure BlockLayout where
  dataStart : Nat
  dataEnd : Nat
  stored : Bool
  expectedChecksum : Option Nat
  deriving DecidableEq, Repr

structure FrameHeader where
  sourceStart : Nat
  blocksStart : Nat
  maxBlockSize : Nat
  mode : BlockMode
  blockChecksums : Bool
  contentChecksum : Bool
  contentSize : Option Nat
  deriving DecidableEq, Repr

def invalid (message : String) : Error := .invalidLz4 message

def workerThreads (options : DecodeOptions) (parallelism : Nat) : Nat :=
  let requested := options.resolvedThreads parallelism
  if options.threads = 0 then min requested autoThreadLimit else requested

def readU32 (data : List UInt8) (position : Nat) (context : String) : Result Nat := do
  let bytes ← okOr (invalid s!"truncated {context} at byte {position}")
    (range? data position (position + 4))
  return leNat bytes

def maxBlockSizeOf (code : UInt8) : Result Nat :=
  if code = 4 then .ok (64 * 1024)
  else if code = 5 then .ok (256 * 1024)
  else if code = 6 then .ok (1024 * 1024)
  else if code = 7 then .ok (4 * 1024 * 1024)
  else .error (invalid s!"unsupported block maximum-size code {code.toNat}")

/-- The optional content size and the position after it. -/
def readContentSize (data : List UInt8) (position : Nat) (hasContentSize : Bool) :
    Result (Option Nat × Nat) :=
  if hasContentSize then do
    let bytes ← okOr (invalid "truncated frame content size") (range? data position (position + 8))
    return (some (leNat bytes), position + 8)
  else .ok (none, position)

/-- A dictionary ID is read only to refuse the frame. -/
def refuseDictionary (data : List UInt8) (position : Nat) (hasDictionary : Bool) : Result Unit :=
  if hasDictionary then do
    let dictionary ← readU32 data position "dictionary ID"
    .error (invalid s!"external dictionary {hex 8 dictionary} is not supported")
  else .ok ()

def parseFrameHeader (xxh : XxHash32) (data : List UInt8) (start : Nat) : Result FrameHeader := do
  let flg ← okOr (invalid "truncated frame descriptor") data[start + 4]?
  let bd ← okOr (invalid "truncated frame descriptor") data[start + 5]?
  ensure (flg &&& 0xc0 = 0x40)
    (invalid s!"unsupported frame version bits {hex 2 (flg &&& 0xc0).toNat}")
  ensure (flg &&& 0x02 = 0 ∧ bd &&& 0x8f = 0) (invalid "reserved frame descriptor bits are set")
  let mode := if flg &&& 0x20 ≠ 0 then BlockMode.independent else BlockMode.linked
  let blockChecksums := decide (flg &&& 0x10 ≠ 0)
  let hasContentSize := decide (flg &&& 0x08 ≠ 0)
  let contentChecksum := decide (flg &&& 0x04 ≠ 0)
  let hasDictionary := decide (flg &&& 0x01 ≠ 0)
  let maxBlockSize ← maxBlockSizeOf ((bd >>> 4) &&& 0x07)
  let (contentSize, position) ← readContentSize data (start + 6) hasContentSize
  refuseDictionary data position hasDictionary
  let expectedHeaderChecksum ← okOr (invalid "truncated frame header checksum") data[position]?
  let descriptor ← okOr (invalid "invalid frame descriptor range")
    (range? data (start + 4) position)
  let headerChecksum := xxh.xxhash32 descriptor / 2 ^ 8 % 2 ^ 8
  ensure (headerChecksum = expectedHeaderChecksum.toNat)
    (invalid (s!"header checksum mismatch: expected {hex 2 expectedHeaderChecksum.toNat}, " ++
      s!"decoded {hex 2 headerChecksum}"))
  return { sourceStart := start, blocksStart := position + 1, maxBlockSize, mode, blockChecksums,
           contentChecksum, contentSize }

/-- The optional block checksum and the position after it. -/
def readBlockChecksum (data : List UInt8) (position : Nat) (blockChecksums : Bool) :
    Result (Option Nat × Nat) :=
  if blockChecksums then do
    let checksum ← readU32 data position "block checksum"
    return (some checksum, position + 4)
  else .ok (none, position)

/-- The next block of a frame, `none` at the end mark, and the position after it. The top bit of
the size word says that the block is stored. -/
def nextBlock (data : List UInt8) (position : Nat) (frame : FrameHeader) :
    Result (Option BlockLayout × Nat) := do
  let value ← readU32 data position "block header"
  if value = 0 then return (none, position + 4)
  let stored := value.testBit 31
  let size := value % 2 ^ 31
  let dataStart := position + 4
  ensure (size ≠ 0 ∧ size ≤ frame.maxBlockSize)
    (invalid (s!"block at byte {dataStart - 4} has invalid size {size} for " ++
      s!"{frame.maxBlockSize}-byte frames"))
  ensure (dataStart + size ≤ data.length) (invalid "block data exceeds the frame")
  let (expectedChecksum, position) ←
    readBlockChecksum data (dataStart + size) frame.blockChecksums
  return (some { dataStart, dataEnd := dataStart + size, stored, expectedChecksum }, position)

def skipFrame (data : List UInt8) (position : Nat) : Result Nat := do
  let length ← readU32 data (position + 4) "skippable-frame length"
  ensure (position + 8 + length ≤ data.length) (invalid "skippable frame exceeds the input")
  return position + 8 + length

theorem readU32_eq_ok {data : List UInt8} {position value : Nat} {context : String} :
    readU32 data position context = .ok value ↔
      position + 4 ≤ data.length ∧ value = leNat (slice data position (position + 4)) := by
  rw [readU32, result_bind_eq_ok]
  simp only [okOr_eq_ok, range?_eq_some]
  constructor
  · rintro ⟨bytes, ⟨-, hle, rfl⟩, h⟩
    exact ⟨hle, by simpa [pure, Except.pure, eq_comm] using h⟩
  · rintro ⟨hle, rfl⟩
    exact ⟨_, ⟨by omega, hle, rfl⟩, rfl⟩

private theorem readBlockChecksum_eq_ok {data : List UInt8} {position next : Nat} {checksums : Bool}
    {expected : Option Nat} (h : readBlockChecksum data position checksums = .ok (expected, next)) :
    position ≤ next ∧ (position ≤ data.length → next ≤ data.length) := by
  cases checksums with
  | false =>
    obtain ⟨-, rfl⟩ := Prod.mk.inj (Except.ok.inj h)
    exact ⟨Nat.le_refl _, id⟩
  | true =>
    obtain ⟨value, hread, heq⟩ := result_bind_eq_ok.mp h
    obtain ⟨-, rfl⟩ := Prod.mk.inj (Except.ok.inj heq)
    exact ⟨Nat.le_add_right .., fun _ => (readU32_eq_ok.mp hread).1⟩

theorem nextBlock_some {data : List UInt8} {position next : Nat} {frame : FrameHeader}
    {block : BlockLayout} (h : nextBlock data position frame = .ok (some block, next)) :
    block.dataStart = position + 4 ∧ block.dataStart < block.dataEnd ∧ block.dataEnd ≤ next ∧
      next ≤ data.length ∧ block.dataEnd - block.dataStart ≤ frame.maxBlockSize := by
  obtain ⟨value, hread, h⟩ := result_bind_eq_ok.mp h
  split at h
  case isTrue => cases h
  case isFalse hne =>
  simp only [result_bind_eq_ok, ensure_eq_ok] at h
  obtain ⟨-, hsize, -, hfits, ⟨expected, after⟩, hsum, heq⟩ := h
  have hnext := readBlockChecksum_eq_ok hsum
  simp only [pure, Except.pure, Except.ok.injEq, Prod.mk.injEq, Option.some.injEq] at heq
  obtain ⟨rfl, rfl⟩ := heq
  dsimp only
  omega

theorem nextBlock_none {data : List UInt8} {position next : Nat} {frame : FrameHeader}
    (h : nextBlock data position frame = .ok (none, next)) :
    next = position + 4 ∧ next ≤ data.length := by
  obtain ⟨value, hread, h⟩ := result_bind_eq_ok.mp h
  have hle := (readU32_eq_ok.mp hread).1
  split at h
  case isTrue =>
    obtain ⟨-, rfl⟩ := Prod.mk.inj (Except.ok.inj h)
    exact ⟨rfl, hle⟩
  case isFalse =>
    simp only [result_bind_eq_ok, ensure_eq_ok] at h
    obtain ⟨-, -, -, -, after, -, heq⟩ := h
    cases heq

theorem nextBlock_advances {data : List UInt8} {position next : Nat} {frame : FrameHeader}
    {block : BlockLayout} (h : nextBlock data position frame = .ok (some block, next)) :
    data.length - next < data.length - position := by
  have := nextBlock_some h
  omega

end Fbz.Lz4
