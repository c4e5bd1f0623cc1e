import Fbz.Deflate.Output

/-!
# Segments of unknown history

A segment is decoded before the bytes in front of it are known. Unknown bytes stand as markers
above the bytes, one for each place of the window, until the window is known.
-/

namespace Fbz.Deflate

open DeflateOutput

inductive InitialHistory
  | empty
  | unknown
  deriving DecidableEq, Repr

/-- Symbols are `u16`: bytes, and from `windowSize` on the places of the unknown window. -/
structure MarkerOutput where
  marked : List Nat := []
  clean : List UInt8 := []
  cleanStart : Nat := 0
  history : InitialHistory
  limit : Nat
  cleanMode : Bool

namespace MarkerOutput

def new (history : InitialHistory) (limit : Nat) : MarkerOutput :=
  { history, limit, cleanMode := history = .empty }

def len (m : MarkerOutput) : Nat := m.marked.length + (m.clean.length - m.cleanStart)

def ensureCapacity (m : MarkerOutput) (additional : Nat) : Result Unit :=
  ensure (additional ≤ m.limit - m.len)
    (invalid "parallel DEFLATE chunk exceeded its memory budget")

/-- Once the last window holds no marker, go on in bytes. -/
def tryClean (m : MarkerOutput) : MarkerOutput :=
  if m.cleanMode ∨ m.marked.length < windowSize then m
  else
    let suffix := m.marked.drop (m.marked.length - windowSize)
    if suffix.any (· > 255) then m
    else { m with clean := suffix.map UInt8.ofNat, cleanStart := windowSize, cleanMode := true }

def extendBytes (m : MarkerOutput) (bytes : List UInt8) : Result MarkerOutput := do
  m.ensureCapacity bytes.length
  return if m.cleanMode then { m with clean := m.clean ++ bytes }
    else { m with marked := m.marked ++ bytes.map UInt8.toNat }

/-- The part of a copy that lies in the unknown window. -/
def copyWindow (marked : List Nat) (distance length : Nat) : List Nat :=
  let fromWindow := min (distance - marked.length) length
  let first := windowSize + marked.length - distance
  (List.range fromWindow).map fun offset => (windowSize + first + offset) % 2 ^ 16

def copyMarked (marked : List Nat) (distance length : Nat) : List Nat :=
  let copied := if distance > marked.length then min (distance - marked.length) length else 0
  let marked :=
    if distance > marked.length then marked ++ copyWindow marked distance length else marked
  if copied < length then extendMatch marked distance (length - copied) else marked

def copyMatch (m : MarkerOutput) (distance length : Nat) : Result MarkerOutput := do
  m.ensureCapacity length
  if m.cleanMode then
    checkDistance distance (min m.clean.length windowSize)
    return { m with clean := extendMatch m.clean distance length }
  else
    let available := match m.history with
      | .empty => min m.marked.length windowSize
      | .unknown => windowSize
    checkDistance distance available
    return { m with marked := copyMarked m.marked distance length }

instance : DeflateOutput MarkerOutput where
  totalDecoded := len
  emit m byte := m.extendBytes [byte]
  extend := extendBytes
  copy := copyMatch

end MarkerOutput

variable (crc : Crc32)

structure Segment where
  startBit : Nat
  endBit : Nat
  marked : List Nat
  clean : List UInt8
  cleanStart : Nat
  cleanCrc : crc.Hasher
  blocks : List Block
  finalBlock : Bool

variable {crc}

def Segment.cleanOutput (segment : Segment crc) : List UInt8 := segment.clean.drop segment.cleanStart

variable (crc)

def decodeSegment (data : List UInt8) (startBit stopBit : Nat) (history : InitialHistory)
    (outputLimit : Nat) : Result (Segment crc) := do
  let bit ← Bits.start data startBit
  let (emitter, blocks, endBit, finalBlock) ←
    decodeUntil data stopBit MarkerOutput.tryClean bit [] (MarkerOutput.new history outputLimit)
  return { startBit, endBit, marked := emitter.marked, clean := emitter.clean
           cleanStart := emitter.cleanStart
           cleanCrc := crc.update crc.new (emitter.clean.drop emitter.cleanStart), blocks, finalBlock }

variable {crc}

theorem decodeSegment_until {data : List UInt8} {startBit stopBit limit : Nat}
    {history : InitialHistory} {segment : Segment crc}
    (h : decodeSegment crc data startBit stopBit history limit = .ok segment) :
    segment.startBit = startBit ∧ startBit ≤ data.length * 8 ∧ ∃ m, decodeUntil data stopBit MarkerOutput.tryClean startBit []
        (MarkerOutput.new history limit) = .ok (m, segment.blocks, segment.endBit, segment.finalBlock) ∧
      segment.marked = m.marked ∧ segment.clean = m.clean ∧ segment.cleanStart = m.cleanStart ∧
      segment.cleanCrc = crc.update crc.new (m.clean.drop m.cleanStart) := by
  simp only [decodeSegment, result_bind_eq_ok] at h
  obtain ⟨bit, hstart, ⟨m, blocks, endBit, fin⟩, hloop, heq⟩ := h
  obtain rfl := Except.ok.inj heq
  obtain ⟨_, hinside, heq⟩ := result_bind_eq_ok.mp hstart
  obtain rfl := Except.ok.inj heq
  exact ⟨rfl, ensure_eq_ok.mp hinside, m, hloop, rfl, rfl, rfl, rfl⟩

/-- The bytes of a lookup over all symbols, with a whole window. -/
def symbolLookup (predecessor : List UInt8) : List UInt8 :=
  (List.range 256).map UInt8.ofNat ++ List.replicate (windowSize - 256) 0 ++ predecessor

/-- The byte of one symbol when the window is known to be this. -/
def resolveSymbol (predecessor : List UInt8) (symbol : Nat) : Result UInt8 := do
  let missing := windowSize - predecessor.length
  if symbol ≤ 255 then return UInt8.ofNat symbol
  let index := symbol - windowSize
  ensure (missing ≤ index) (invalid "speculative marker references unavailable predecessor history")
  return predecessor.getD (index - missing) 0

def resolveSymbols (symbols : List Nat) (predecessor : List UInt8) : Result (List UInt8) :=
  if predecessor.length = windowSize ∧ symbols.length ≥ 128 * 1024 then
    .ok (symbols.map fun symbol => (symbolLookup predecessor).getD symbol 0)
  else symbols.mapM (resolveSymbol predecessor)

/-- The window behind a segment, given the one before it. -/
def successorWindow (segment : Segment crc) (predecessor : List UInt8) : Result (List UInt8) := do
  let clean := segment.cleanOutput
  if clean.length ≥ windowSize then return clean.drop (clean.length - windowSize)
  let markedCount := min (windowSize - clean.length) segment.marked.length
  let marked ← resolveSymbols (segment.marked.drop (segment.marked.length - markedCount)) predecessor
  let keepPredecessor := min (windowSize - (marked.length + clean.length)) predecessor.length
  return predecessor.drop (predecessor.length - keepPredecessor) ++ marked ++ clean

variable (crc)

structure ResolvedSegment where
  marked : List UInt8
  clean : List UInt8
  cleanStart : Nat
  blocks : List Block
  compressedEndBit : Nat
  crc : crc.Hasher

variable {crc}

def resolveSegment (segment : Segment crc) (predecessor : List UInt8) :
    Result (ResolvedSegment crc) := do
  let marked ← resolveSymbols segment.marked predecessor
  return { marked, clean := segment.clean, cleanStart := segment.cleanStart
           blocks := segment.blocks, compressedEndBit := segment.endBit
           crc := crc.combine (crc.update crc.new marked) segment.cleanCrc }

/-- What committing does to the blocks of a segment, which count from its start. -/
def Block.commit (member offset : Nat) (block : Block) : Block :=
  { block with member, decodedStart := block.decodedStart + offset }

@[simp] theorem Block.commit_finalBlock (member offset : Nat) (block : Block) :
    (block.commit member offset).finalBlock = block.finalBlock := rfl

/-- What a resolved segment puts out. -/
def ResolvedSegment.bytes (resolved : ResolvedSegment crc) : List UInt8 :=
  resolved.marked ++ resolved.clean.drop resolved.cleanStart

end Fbz.Deflate
