import Fbz.Bzip2.Assemble

/-!
# The persistent index

`Index` with its encoding, its decoding and what `validate` checks. BLAKE3 comes from another crate
and is a parameter: a function from bytes to 32 bytes.
-/

namespace Fbz.Bzip2

structure Blake3 where
  hash : List UInt8 → List UInt8
  hash_length : ∀ bytes, (hash bytes).length = 32

structure Index where
  sourceLen : Nat
  sourceHash : List UInt8
  decodedLen : Nat
  streams : List StreamIndex
  blocks : List BlockIndex
  deriving DecidableEq, Repr

namespace Index

variable (blake3 : Blake3)

def invalid (message : String) : Error := .invalidIndex message

/-- `FBZ2IDX` and a zero byte. -/
def magic : List UInt8 := [0x46, 0x42, 0x5a, 0x32, 0x49, 0x44, 0x58, 0]

def version : Nat := 1

def checksumLen : Nat := 32

def new (source : List UInt8) (assembled : Assembled) : Index :=
  ⟨source.length, blake3.hash source, assembled.decodedLen, assembled.streams, assembled.blocks⟩

def putStream (stream : StreamIndex) : List UInt8 :=
  toLe 8 stream.compressedHeaderByte ++ [UInt8.ofNat stream.blockSize100k] ++
  toLe 8 stream.firstBlock ++ toLe 8 stream.blockCount ++ toLe 8 stream.decodedStart ++
  toLe 8 stream.decodedLen ++ toLe 8 stream.eosBit ++ toLe 4 stream.expectedStreamCrc.toNat

def putBlock (block : BlockIndex) : List UInt8 :=
  toLe 8 block.compressedStartBit ++ toLe 8 block.compressedEndBit ++ toLe 8 block.decodedStart ++
  toLe 8 block.decodedLen ++ toLe 4 block.expectedCrc.toNat ++ toLe 8 block.stream

def payload (index : Index) : List UInt8 :=
  magic ++ toLe 4 version ++ toLe 8 index.sourceLen ++ index.sourceHash ++
  toLe 8 index.decodedLen ++ toLe 8 index.streams.length ++ toLe 8 index.blocks.length ++
  index.streams.flatMap putStream ++ index.blocks.flatMap putBlock

def toBytes (index : Index) : List UInt8 := index.payload ++ blake3.hash index.payload

/-- A `u64` addition that must not overflow. -/
def checkedAdd (a b : Nat) (message : String) : Result Nat :=
  if a + b < 2 ^ 64 then .ok (a + b) else .error (invalid message)

/-- The loop over the blocks: the decoded length, behind the block that starts at `previous`. -/
def validateBlocks (sourceBits streamCount : Nat) :
    Option Nat → Nat → List BlockIndex → Result Nat
  | _, decoded, [] => .ok decoded
  | previous, decoded, block :: rest => do
    ensure (block.decodedStart = decoded ∧ block.decodedLen ≠ 0)
      (invalid "block decoded offsets are not contiguous")
    ensure (block.compressedStartBit < block.compressedEndBit ∧
        block.compressedEndBit ≤ sourceBits)
      (invalid "block compressed range is invalid")
    ensure (block.stream < streamCount) (invalid "block stream number is out of range")
    let decoded ← checkedAdd decoded block.decodedLen "decoded offset overflow"
    ensure (∀ start ∈ previous, start < block.compressedStartBit)
      (invalid "block compressed offsets are not increasing")
    validateBlocks sourceBits streamCount (some block.compressedStartBit) decoded rest

/-- The loop over the streams: how many blocks and decoded bytes they hold. -/
def validateStreams (sourceBits : Nat) (blocks : List BlockIndex) :
    Nat → Nat → Nat → List StreamIndex → Result (Nat × Nat)
  | _, firstBlock, decoded, [] => .ok (firstBlock, decoded)
  | number, firstBlock, decoded, stream :: rest => do
    ensure ((1 ≤ stream.blockSize100k ∧ stream.blockSize100k ≤ 9) ∧
        stream.firstBlock = firstBlock ∧ stream.decodedStart = decoded ∧
        stream.eosBit ≤ sourceBits)
      (invalid "stream record is inconsistent")
    let stop ← checkedAdd stream.firstBlock stream.blockCount "stream block count overflow"
    ensure (stop ≤ blocks.length) (invalid "stream block range is out of bounds")
    ensure (∀ block ∈ slice blocks stream.firstBlock stop, block.stream = number)
      (invalid "block belongs to the wrong stream")
    let decoded ← checkedAdd decoded stream.decodedLen "stream size overflow"
    validateStreams sourceBits blocks (number + 1) stop decoded rest

def validate (index : Index) : Result Unit := do
  ensure (index.sourceLen * 8 < 2 ^ 64) (invalid "source length overflow")
  let decoded ← validateBlocks (index.sourceLen * 8) index.streams.length none 0 index.blocks
  ensure (decoded = index.decodedLen) (invalid "decoded size does not match block records")
  let (firstBlock, streamDecoded) ←
    validateStreams (index.sourceLen * 8) index.blocks 0 0 0 index.streams
  ensure (firstBlock = index.blocks.length ∧ streamDecoded = index.decodedLen)
    (invalid "stream records do not cover decoded data")

/-- `IndexReader::take`. A reader is the payload from its position on; positions are too small to
overflow. -/
def take (count : Nat) (rest : List UInt8) : Result (List UInt8 × List UInt8) :=
  if count ≤ rest.length then .ok (rest.take count, rest.drop count)
  else .error (invalid "truncated payload")

/-- `IndexReader::u32` and `IndexReader::u64`. -/
def number (width : Nat) (rest : List UInt8) : Result (Nat × List UInt8) := do
  let (bytes, rest) ← take width rest
  return (leNat bytes, rest)

def takeStream (rest : List UInt8) : Result (StreamIndex × List UInt8) := do
  let (compressedHeaderByte, rest) ← number 8 rest
  let (blockSize100k, rest) ← number 1 rest
  let (firstBlock, rest) ← number 8 rest
  let (blockCount, rest) ← number 8 rest
  let (decodedStart, rest) ← number 8 rest
  let (decodedLen, rest) ← number 8 rest
  let (eosBit, rest) ← number 8 rest
  let (expectedStreamCrc, rest) ← number 4 rest
  return (⟨compressedHeaderByte, blockSize100k, firstBlock, blockCount, decodedStart, decodedLen,
    eosBit, UInt32.ofNat expectedStreamCrc⟩, rest)

def takeBlock (rest : List UInt8) : Result (BlockIndex × List UInt8) := do
  let (compressedStartBit, rest) ← number 8 rest
  let (compressedEndBit, rest) ← number 8 rest
  let (decodedStart, rest) ← number 8 rest
  let (decodedLen, rest) ← number 8 rest
  let (expectedCrc, rest) ← number 4 rest
  let (stream, rest) ← number 8 rest
  return (⟨compressedStartBit, compressedEndBit, decodedStart, decodedLen,
    UInt32.ofNat expectedCrc, stream⟩, rest)

def takeRecords {α : Type} (takeRecord : List UInt8 → Result (α × List UInt8)) :
    Nat → List UInt8 → Result (List α × List UInt8)
  | 0, rest => .ok ([], rest)
  | count + 1, rest => do
    let (record, rest) ← takeRecord rest
    let (records, rest) ← takeRecords takeRecord count rest
    return (record :: records, rest)

def fromBytes (encoded source : List UInt8) : Result Index := do
  ensure (checksumLen ≤ encoded.length) (invalid "truncated header")
  let payload := encoded.take (encoded.length - checksumLen)
  let checksum := encoded.drop (encoded.length - checksumLen)
  ensure (blake3.hash payload = checksum) (invalid "payload checksum mismatch")
  let (found, rest) ← take 8 payload
  ensure (found = magic) (invalid "bad magic")
  let (found, rest) ← number 4 rest
  ensure (found = version) (invalid "unsupported version")
  let (sourceLen, rest) ← number 8 rest
  let (sourceHash, rest) ← take 32 rest
  let (decodedLen, rest) ← number 8 rest
  let (streamCount, rest) ← number 8 rest
  let (blockCount, rest) ← number 8 rest
  ensure (sourceLen = source.length ∧ sourceHash = blake3.hash source)
    (invalid "source identity mismatch")
  ensure (streamCount * 53 + blockCount * 44 < 2 ^ 64) (invalid "record counts overflow")
  ensure (rest.length = streamCount * 53 + blockCount * 44)
    (invalid "record counts do not match payload length")
  let (streams, rest) ← takeRecords takeStream streamCount rest
  let (blocks, _) ← takeRecords takeBlock blockCount rest
  let index : Index := ⟨sourceLen, sourceHash, decodedLen, streams, blocks⟩
  index.validate
  return index

private theorem take_append {count : Nat} {front : List UInt8} (length : front.length = count)
    (rest : List UInt8) : take count (front ++ rest) = .ok (front, rest) := by
  subst length
  rw [take, if_pos (by simp), List.take_left, List.drop_left]

private theorem number_toLe {width n : Nat} (lt : n < 256 ^ width) (rest : List UInt8) :
    number width (toLe width n ++ rest) = .ok (n, rest) := by
  rw [number, take_append (toLe_length width n), result_bind_ok]
  dsimp only
  rw [leNat_toLe_of_lt lt]
  rfl

/-- The numbers of a record fit their fields. -/
structure StreamFits (stream : StreamIndex) : Prop where
  compressedHeaderByte : stream.compressedHeaderByte < 2 ^ 64
  blockSize100k : stream.blockSize100k < 2 ^ 8
  firstBlock : stream.firstBlock < 2 ^ 64
  blockCount : stream.blockCount < 2 ^ 64
  decodedStart : stream.decodedStart < 2 ^ 64
  decodedLen : stream.decodedLen < 2 ^ 64
  eosBit : stream.eosBit < 2 ^ 64

structure BlockFits (block : BlockIndex) : Prop where
  compressedStartBit : block.compressedStartBit < 2 ^ 64
  compressedEndBit : block.compressedEndBit < 2 ^ 64
  decodedStart : block.decodedStart < 2 ^ 64
  decodedLen : block.decodedLen < 2 ^ 64
  stream : block.stream < 2 ^ 64

private theorem takeStream_putStream {stream : StreamIndex} (fits : StreamFits stream)
    (rest : List UInt8) : takeStream (putStream stream ++ rest) = .ok (stream, rest) := by
  have hbyte : [UInt8.ofNat stream.blockSize100k] = toLe 1 stream.blockSize100k := rfl
  have hcrc : stream.expectedStreamCrc.toNat < 256 ^ 4 := stream.expectedStreamCrc.toNat_lt
  simp only [putStream, hbyte, List.append_assoc, takeStream,
    number_toLe (show _ < 256 ^ 8 from fits.compressedHeaderByte),
    number_toLe (show _ < 256 ^ 1 from fits.blockSize100k),
    number_toLe (show _ < 256 ^ 8 from fits.firstBlock),
    number_toLe (show _ < 256 ^ 8 from fits.blockCount),
    number_toLe (show _ < 256 ^ 8 from fits.decodedStart),
    number_toLe (show _ < 256 ^ 8 from fits.decodedLen),
    number_toLe (show _ < 256 ^ 8 from fits.eosBit), number_toLe hcrc, result_bind_ok,
    UInt32.ofNat_toNat]
  rfl

private theorem takeBlock_putBlock {block : BlockIndex} (fits : BlockFits block)
    (rest : List UInt8) : takeBlock (putBlock block ++ rest) = .ok (block, rest) := by
  have hcrc : block.expectedCrc.toNat < 256 ^ 4 := block.expectedCrc.toNat_lt
  simp only [putBlock, List.append_assoc, takeBlock,
    number_toLe (show _ < 256 ^ 8 from fits.compressedStartBit),
    number_toLe (show _ < 256 ^ 8 from fits.compressedEndBit),
    number_toLe (show _ < 256 ^ 8 from fits.decodedStart),
    number_toLe (show _ < 256 ^ 8 from fits.decodedLen),
    number_toLe (show _ < 256 ^ 8 from fits.stream), number_toLe hcrc, result_bind_ok,
    UInt32.ofNat_toNat]
  rfl

private theorem takeRecords_flatMap {α : Type} {put : α → List UInt8}
    {takeRecord : List UInt8 → Result (α × List UInt8)} {records : List α}
    (inverse : ∀ record ∈ records, ∀ rest, takeRecord (put record ++ rest) = .ok (record, rest))
    (rest : List UInt8) :
    takeRecords takeRecord records.length (records.flatMap put ++ rest) = .ok (records, rest) := by
  induction records with
  | nil => rfl
  | cons record records ih =>
    rw [List.flatMap_cons, List.append_assoc, List.length_cons, takeRecords,
      inverse record List.mem_cons_self, result_bind_ok]
    dsimp only
    rw [ih fun other hother => inverse other (List.mem_cons_of_mem _ hother), result_bind_ok]
    rfl

theorem putStream_length (stream : StreamIndex) : (putStream stream).length = 53 := by
  simp only [putStream, List.length_append, toLe_length, List.length_cons, List.length_nil]

theorem putBlock_length (block : BlockIndex) : (putBlock block).length = 44 := by
  simp only [putBlock, List.length_append, toLe_length]

/-- An index that belongs to a source and whose numbers fit their fields. -/
structure Fits (index : Index) (source : List UInt8) : Prop where
  sourceLen : index.sourceLen = source.length
  sourceHash : index.sourceHash = blake3.hash source
  sourceFits : source.length < 2 ^ 64
  decodedLen : index.decodedLen < 2 ^ 64
  streams : ∀ stream ∈ index.streams, StreamFits stream
  blocks : ∀ block ∈ index.blocks, BlockFits block
  records : index.streams.length * 53 + index.blocks.length * 44 < 2 ^ 64

theorem flatMap_length_const {α : Type} {put : α → List UInt8} {records : List α} {size : Nat}
    (length : ∀ record, (put record).length = size) :
    (records.flatMap put).length = records.length * size := by
  induction records with
  | nil => simp
  | cons record rest ih =>
    rw [List.flatMap_cons, List.length_append, length, ih, List.length_cons, Nat.succ_mul]
    omega

/-- What has been encoded is decoded to itself, as long as it is valid. -/
theorem fromBytes_toBytes {index : Index} {source : List UInt8} (fits : index.Fits blake3 source) :
    fromBytes blake3 (index.toBytes blake3) source =
      (do index.validate; return index) := by
  have hlength : (index.toBytes blake3).length - checksumLen = index.payload.length := by
    rw [toBytes, List.length_append, blake3.hash_length]
    rfl
  have hversion : version < 256 ^ 4 := by decide
  have hsource : index.sourceLen < 256 ^ 8 := fits.sourceLen ▸ fits.sourceFits
  have hdecoded : index.decodedLen < 256 ^ 8 := fits.decodedLen
  have hrecords := fits.records
  have hstreams : index.streams.length < 256 ^ 8 := by omega
  have hblocks : index.blocks.length < 256 ^ 8 := by omega
  have hhash : index.sourceHash.length = 32 := fits.sourceHash ▸ blake3.hash_length source
  have hrest : (index.streams.flatMap putStream ++ index.blocks.flatMap putBlock).length =
      index.streams.length * 53 + index.blocks.length * 44 := by
    rw [List.length_append, flatMap_length_const putStream_length,
      flatMap_length_const putBlock_length]
  have hnil : index.blocks.flatMap putBlock = index.blocks.flatMap putBlock ++ [] := by simp
  rw [fromBytes, hlength, toBytes, List.take_left, List.drop_left,
    ensure_of (by rw [List.length_append, blake3.hash_length]; exact Nat.le_add_left ..),
    result_bind_ok]
  dsimp only
  rw [ensure_of rfl, result_bind_ok]
  simp only [payload, List.append_assoc]
  rw [take_append (show magic.length = 8 from rfl), result_bind_ok]
  dsimp only
  rw [ensure_of rfl, result_bind_ok, number_toLe hversion, result_bind_ok]
  dsimp only
  rw [ensure_of rfl, result_bind_ok]
  simp only [number_toLe hsource, take_append hhash, number_toLe hdecoded, number_toLe hstreams,
    number_toLe hblocks, result_bind_ok]
  rw [ensure_of ⟨fits.sourceLen, fits.sourceHash⟩, result_bind_ok, ensure_of fits.records,
    result_bind_ok, ensure_of hrest, result_bind_ok,
    takeRecords_flatMap fun stream hmem => takeStream_putStream (fits.streams stream hmem),
    result_bind_ok]
  dsimp only
  rw [hnil, takeRecords_flatMap fun block hmem => takeBlock_putBlock (fits.blocks block hmem),
    result_bind_ok]

end Index

end Fbz.Bzip2
