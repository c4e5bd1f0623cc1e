import Fbz.EncodeOptions
import Fbz.Lz4.Frame
import Fbz.MatchFinder
import Fbz.Pipeline.Streaming

/-!
# LZ4 encoding

Block compression with both match finders, and the frame encoder over the streaming pipeline. The
writer never fails: `output` is what it has been given.
-/

namespace Fbz.Lz4

open Pipeline

namespace Encode

def windowSize : Nat := 2 ^ 16 - 1
def targetBlockSize : Nat := 4 * 1024 * 1024
def minBlockSize : Nat := 64 * 1024

end Encode

structure EncodeReport where
  inputLen : Nat
  outputLen : Nat
  blocks : Nat
  deriving DecidableEq, Repr

def invalidEncoding (message : String) : Error := .invalidConfiguration message

/-- Levels run from one to nine. -/
def chainDepth (level : Nat) : Nat :=
  if level ≤ 6 then 1 else if level = 7 then 4 else if level = 8 then 16 else 64

/-- The bytes `write_length` pushes. -/
def writeLength (length : Nat) : List UInt8 :=
  if 255 ≤ length then 255 :: writeLength (length - 255) else [UInt8.ofNat length]
termination_by length
decreasing_by omega

def writeSequence (literals : List UInt8) (distance matchLength : Nat) : List UInt8 :=
  let literalNibble := min literals.length 15
  let matchBase := matchLength - 4
  let matchNibble := min matchBase 15
  UInt8.ofNat (literalNibble <<< 4 ||| matchNibble) ::
    (if literals.length ≥ 15 then writeLength (literals.length - 15) else []) ++ literals ++
      toLe 2 distance ++ (if matchBase ≥ 15 then writeLength (matchBase - 15) else [])

def writeLastLiterals (literals : List UInt8) : List UInt8 :=
  UInt8.ofNat (min literals.length 15 <<< 4) ::
    (if literals.length ≥ 15 then writeLength (literals.length - 15) else []) ++ literals

/-- The loop that moves a match back towards the anchor: its start and its length. -/
def extendBackward (input : List UInt8) (anchor position candidate length : Nat) : Nat × Nat :=
  if position > anchor ∧ candidate > 0 ∧ input[position - 1]? = input[candidate - 1]? then
    extendBackward input anchor (position - 1) (candidate - 1) (length + 1)
  else (position, length)

theorem extendBackward_stop (input : List UInt8) (anchor position candidate length : Nat) :
    (extendBackward input anchor position candidate length).1 +
      (extendBackward input anchor position candidate length).2 = position + length := by
  induction position, candidate, length using extendBackward.induct input anchor with
  | case1 position candidate length h ih => rw [extendBackward, if_pos h, ih]; omega
  | case2 position candidate length h => rw [extendBackward, if_neg h]

/-- The loop of `compress_block_fast`. -/
def compressFastFrom (input : List UInt8) (finder : LatestMatch) (anchor position : Nat)
    (output : List UInt8) : List UInt8 :=
  if position + 12 ≤ input.length then
    let maxLength := input.length - position - 5
    match _h : finder.insertAndFind input position with
    | (finder, none) =>
      compressFastFrom input finder anchor (position + 1 + (position - anchor) >>> 6) output
    | (finder, some candidate) =>
      let distance := position - candidate
      let length := matchLength input position candidate maxLength
      let extended := extendBackward input anchor position candidate length
      let stop := extended.1 + extended.2
      compressFastFrom input (if stop ≥ 2 then finder.insert input (stop - 2) else finder) stop stop
        (output ++ writeSequence (slice input anchor extended.1) distance extended.2)
  else output ++ writeLastLiterals (input.drop anchor)
termination_by input.length - position
decreasing_by
  · omega
  · rw [extendBackward_stop]
    have := LatestMatch.four_le_matchLength _h (show 4 ≤ input.length - position - 5 by omega)
    omega

def compressBlockFast (input : List UInt8) : List UInt8 :=
  compressFastFrom input (LatestMatch.new Encode.windowSize) 0 0 []

/-- The loop of `compress_block_high`. -/
def compressHighFrom (input : List UInt8) (maxChain : Nat) (finder : HashChain)
    (anchor position : Nat) (output : List UInt8) : List UInt8 :=
  if position + 12 ≤ input.length then
    let maxLength := input.length - position - 5
    let best := finder.bestMatch input position maxLength 4 maxChain
    if _h : best.1 = 0 then
      compressHighFrom input maxChain (finder.insert input position) anchor (position + 1) output
    else
      let extended := extendBackward input anchor position (position - best.2) best.1
      let stop := extended.1 + extended.2
      compressHighFrom input maxChain
        (if stop ≥ 2 then finder.insert input (stop - 2) else finder) stop stop
        (output ++ writeSequence (slice input anchor extended.1) best.2 extended.2)
  else output ++ writeLastLiterals (input.drop anchor)
termination_by input.length - position
decreasing_by
  · omega
  · rw [extendBackward_stop]
    dsimp only [best, maxLength] at _h
    omega

def compressBlockHigh (input : List UInt8) (level : Nat) : List UInt8 :=
  compressHighFrom input (chainDepth level) (HashChain.new Encode.windowSize (chainDepth level))
    0 0 []

/-- `compress_block` once the finder is there. -/
def compressBlock (input : List UInt8) (level : Nat) : List UInt8 :=
  if level ≤ 6 then compressBlockFast input else compressBlockHigh input level

/-- `compress_block`, with `none` where `HashChain::new` panics. No block of a frame is that long. -/
def compressBlock? (input : List UInt8) (level : Nat) : Option (List UInt8) :=
  if level ≤ 6 ∨ HashChain.Fits input.length then some (compressBlock input level) else none

structure EncodedBlock where
  bytes : List UInt8
  inputLen : Nat
  stored : Bool

def encodeBlock (input : List UInt8) (level : Nat) : EncodedBlock :=
  let encoded := compressBlock input level
  if encoded.length < input.length then ⟨encoded, input.length, false⟩
  else ⟨input, input.length, true⟩

def reservation (blockSize : Nat) : Nat := blockSize * 6 + 2 ^ 16 * 4

/-- The loop of `selected_block_size`. -/
def shrinkBlockSize (memoryLimit size : Nat) : Nat :=
  if size > Encode.minBlockSize ∧ reservation size > memoryLimit then
    shrinkBlockSize memoryLimit (size / 4)
  else size
termination_by size
decreasing_by simp only [Encode.minBlockSize] at *; omega

def selectedBlockSize (memoryLimit : Nat) : Result Nat := do
  let size := shrinkBlockSize memoryLimit Encode.targetBlockSize
  ensure (reservation size ≤ memoryLimit)
    (invalidEncoding s!"compression memory limit must be at least {reservation size} bytes")
  return size

def descriptorCode (blockSize : Nat) : UInt8 :=
  if 64000 ≤ blockSize ∧ blockSize ≤ 65536 then 4
  else if 65537 ≤ blockSize ∧ blockSize ≤ 262144 then 5
  else if 262145 ≤ blockSize ∧ blockSize ≤ 1048576 then 6
  else 7

structure Encoder (xxh : XxHash32) where
  output : List UInt8
  pipeline : StreamingOrdered EncodedBlock
  level : Nat
  buffer : List UInt8
  blockSize : Nat
  reservation : Nat
  contentHash : xxh.Hasher
  inputLen : Nat
  outputLen : Nat
  blocks : Nat

namespace Encoder

variable {xxh : XxHash32}

/-- Magic, descriptor and header checksum. -/
def frameHeader (xxh : XxHash32) (blockSize : Nat) : List UInt8 :=
  let flg : UInt8 := 0x64
  let bd := descriptorCode blockSize <<< 4
  let checksum := UInt8.ofNat (xxh.xxhash32 [flg, bd] / 2 ^ 8)
  toLe 4 frameMagic ++ [flg, bd, checksum]

/-- `arrival` is the order in which the pool finishes its jobs. -/
def new (xxh : XxHash32) (options : EncodeOptions) (parallelism : Nat) (arrival : Nat → Nat) :
    Result (Encoder xxh) := do
  let options ← options.validate
  let level := options.levelOr 1
  let blockSize ← selectedBlockSize options.memoryLimit
  let reservation := Lz4.reservation blockSize
  let workers := min (options.resolvedThreads parallelism) (max (options.memoryLimit / reservation) 1)
  return { output := frameHeader xxh blockSize
           pipeline := .new workers options.memoryLimit arrival
           level, buffer := [], blockSize, reservation
           contentHash := xxh.withSeed
           inputLen := 0, outputLen := 7, blocks := 0 }

/-- Size word and bytes of a block. -/
def blockBytes (block : EncodedBlock) : List UInt8 :=
  let size := block.bytes.length % 2 ^ 32
  toLe 4 (if block.stored then size ||| 1 <<< 31 else size) ++ block.bytes

/-- The writes and counters of `commit_next`. -/
def written (e : Encoder xxh) (block : EncodedBlock) : Encoder xxh :=
  { e with
    output := e.output ++ blockBytes block
    inputLen := e.inputLen + block.inputLen
    outputLen := e.outputLen + (4 + block.bytes.length)
    blocks := e.blocks + 1 }

def commitNext (e : Encoder xxh) : Except Halt (Encoder xxh) := do
  let (block, pipeline) ← e.pipeline.takeNext
  return { e with pipeline }.written block

private theorem commitNext_advances {e f : Encoder xxh} (h : e.commitNext = .ok f) :
    f.pipeline.nextSubmit - f.pipeline.nextTake < e.pipeline.nextSubmit - e.pipeline.nextTake := by
  obtain ⟨⟨block, pipeline⟩, htake, heq⟩ := result_bind_eq_ok.mp h
  obtain rfl := Except.ok.inj heq
  exact StreamingOrdered.takeNext_advances htake

/-- Commit results until another job may be submitted. -/
def makeRoom (e : Encoder xxh) : Except Halt (Encoder xxh) :=
  if e.pipeline.canSubmit e.reservation then .ok e
  else
    match _h : e.commitNext with
    | .error halt => .error halt
    | .ok e => e.makeRoom
termination_by e.pipeline.nextSubmit - e.pipeline.nextTake
decreasing_by exact commitNext_advances _h

def submitBuffer (e : Encoder xxh) : Except Halt (Encoder xxh) := do
  if e.buffer.isEmpty then return e
  let e ← e.makeRoom
  let pipeline ← e.pipeline.submit e.reservation (encodeBlock e.buffer e.level)
  return { e with pipeline, buffer := [] }

/-- Commit every result that is pending. -/
def drain (e : Encoder xxh) : Except Halt (Encoder xxh) :=
  if e.pipeline.hasPending then
    match _h : e.commitNext with
    | .error halt => .error halt
    | .ok e => e.drain
  else .ok e
termination_by e.pipeline.nextSubmit - e.pipeline.nextTake
decreasing_by exact commitNext_advances _h

def flushBlocks (e : Encoder xxh) : Except Halt (Encoder xxh) := do
  let e ← e.submitBuffer
  e.drain

/-- The loop of `write`. A buffer that is full on entry would never take a byte. -/
def writeFrom (e : Encoder xxh) (bytes : List UInt8) : Except Halt (Encoder xxh) :=
  if hb : bytes = [] then .ok e
  else
    let take := min bytes.length (e.blockSize - e.buffer.length)
    if _ht : take = 0 then .error .blocked
    else do
      let e := { e with buffer := e.buffer ++ bytes.take take }
      let e ← if e.buffer.length = e.blockSize then e.submitBuffer else pure e
      e.writeFrom (bytes.drop take)
termination_by bytes.length
decreasing_by
  have := List.length_pos_iff.mpr hb
  simp only [List.length_drop]
  omega

def write (e : Encoder xxh) (bytes : List UInt8) : Except Halt (Nat × Encoder xxh) := do
  let e ← { e with contentHash := xxh.write e.contentHash bytes }.writeFrom bytes
  return (bytes.length, e)

def flush (e : Encoder xxh) : Except Halt (Encoder xxh) := e.flushBlocks

def finish (e : Encoder xxh) : Except Halt (List UInt8 × EncodeReport) := do
  let e ← e.flushBlocks
  return (e.output ++ toLe 4 0 ++ toLe 4 (xxh.finish e.contentHash),
    ⟨e.inputLen, e.outputLen + 8, e.blocks⟩)

end Encoder

end Fbz.Lz4
