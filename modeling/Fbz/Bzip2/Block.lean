import Fbz.Bzip2.Huffman
import Fbz.Crc
import Fbz.Options

/-!
# Decoding a bzip2 block

`Decoder::block` and the functions that decode one block of an input: header, symbols, inverse
Burrows-Wheeler transform and run-length expansion.
-/

namespace Fbz.Bzip2

def blockMagic : Nat := 0x314159265359

def endMagic : Nat := 0x177245385090

def groupSize : Nat := 50

/-- The element at an index of the list, and the list with that element first. -/
def moveToFront {α : Type} [Inhabited α] (list : List α) (index : Nat) : α × List α :=
  let value := list.getD index default
  (value, value :: list.eraseIdx index)

theorem moveToFront_length {α : Type} [Inhabited α] {list : List α} {index : Nat}
    (lt : index < list.length) : (moveToFront list index).2.length = list.length := by
  show (list.eraseIdx index).length + 1 = list.length
  rw [List.length_eraseIdx_of_lt lt]
  omega

/-- The bytes a word of the map of used bytes stands for. -/
def groupValues (values group : Nat) : List UInt8 :=
  (List.range 16).filterMap fun value =>
    if values.testBit (15 - value) then some (UInt8.ofNat (group * 16 + value)) else none

def readAlphabet (data : List UInt8) (groups : Nat) : List Nat → Nat → Result (List UInt8 × Nat)
  | [], bit => .ok ([], bit)
  | group :: rest, bit =>
    if groups.testBit (15 - group) then do
      let (values, bit) ← Bits.read data bit 16
      let (alphabet, bit) ← readAlphabet data groups rest bit
      return (groupValues values group ++ alphabet, bit)
    else readAlphabet data groups rest bit

/-- The ones before the next zero, fewer than there are tables; `left` tables are not passed yet. -/
def readSelectorIndex (data : List UInt8) : Nat → Nat → Nat → Result (Nat × Nat)
  | 0, _, bit => .error (decodeError bit .invalidBlock)
  | left + 1, index, bit => do
    let (more, bit) ← Bits.readBit data bit
    if more then
      if left = 0 then .error (decodeError bit .invalidBlock)
      else readSelectorIndex data left (index + 1) bit
    else return (index, bit)

def readSelectors (data : List UInt8) (tableCount : Nat) :
    Nat → List Nat → Nat → Result (List Nat × Nat)
  | 0, _, bit => .ok ([], bit)
  | count + 1, selectorMtf, bit => do
    let (index, bit) ← readSelectorIndex data tableCount 0 bit
    let (selected, selectorMtf) := moveToFront selectorMtf index
    let (selectors, bit) ← readSelectors data tableCount count selectorMtf bit
    return (selected :: selectors, bit)

/-- A code length, from the one before it by steps up and down. -/
def readLength (data : List UInt8) (current : Int) (bit : Nat) : Result (Int × Nat) :=
  if 1 ≤ current ∧ current ≤ maxCodeLen then
    match _h : Bits.readBit data bit with
    | .error error => .error error
    | .ok (false, next) => .ok (current, next)
    | .ok (true, next) =>
      match _h' : Bits.readBit data next with
      | .error error => .error error
      | .ok (down, next) => readLength data (if down then current - 1 else current + 1) next
  else .error (decodeError bit .invalidHuffman)
termination_by data.length * 8 - bit
decreasing_by
  have h1 := Bits.readBit_next _h
  have h2 := Bits.readBit_next _h'
  omega

def readLengths (data : List UInt8) : Nat → Int → Nat → Result (List Nat × Nat)
  | 0, _, bit => .ok ([], bit)
  | count + 1, current, bit => do
    let (current, bit) ← readLength data current bit
    let (lengths, bit) ← readLengths data count current bit
    return (current.toNat :: lengths, bit)

def readTables (data : List UInt8) (alphaSize : Nat) : Nat → Nat → Result (List Huffman × Nat)
  | 0, bit => .ok ([], bit)
  | count + 1, bit => do
    let (current, bit) ← Bits.read data bit 5
    let (lengths, bit) ← readLengths data alphaSize current bit
    let table ← Huffman.build lengths bit
    let (tables, bit) ← readTables data alphaSize count bit
    return (table :: tables, bit)

/-- What stands before the symbols of a block. -/
structure BlockHeader where
  storedCrc : UInt32
  origin : Nat
  alphabet : List UInt8
  selectors : List Nat
  tables : List Huffman

def readHeader (data : List UInt8) (blockOffset : Nat) (expectedCrc : Option UInt32) (bit : Nat) :
    Result (BlockHeader × Nat) := do
  let (storedCrc, bit) ← Bits.read data bit 32
  let storedCrc := UInt32.ofNat storedCrc
  ensure (expectedCrc = none ∨ expectedCrc = some storedCrc) (decodeError blockOffset .invalidBlock)
  let (randomized, bit) ← Bits.readBit data bit
  ensure (randomized = false) (decodeError blockOffset .randomizedBlock)
  let (origin, bit) ← Bits.read data bit 24
  let (groups, bit) ← Bits.read data bit 16
  let (alphabet, bit) ← readAlphabet data groups (List.range 16) bit
  ensure (alphabet ≠ []) (decodeError blockOffset .invalidBlock)
  let (tableCount, bit) ← Bits.read data bit 3
  ensure (2 ≤ tableCount ∧ tableCount ≤ 6) (decodeError bit .invalidHuffman)
  let (selectorCount, bit) ← Bits.read data bit 15
  ensure (selectorCount ≠ 0) (decodeError bit .invalidBlock)
  let (selectors, bit) ← readSelectors data tableCount selectorCount (List.range tableCount) bit
  let (tables, bit) ← readTables data (alphabet.length + 2) tableCount bit
  return (⟨storedCrc, origin, alphabet, selectors, tables⟩, bit)

/-- The variables of the symbol loop; `tt` holds the bytes so far. -/
structure Symbols where
  mtf : List UInt8
  selector : Nat := 0
  groupLeft : Nat := 0
  table : Nat := 0
  run : Nat := 0
  runBit : Nat := 0
  tt : List UInt8 := []

/-- Every fifty symbols the next selector chooses the table. -/
def selectTable (header : BlockHeader) (s : Symbols) (bit : Nat) : Result Symbols :=
  if s.groupLeft = 0 then
    match header.selectors[s.selector]? with
    | none => .error (decodeError bit .invalidBlock)
    | some table =>
      .ok { s with table, selector := s.selector + 1, groupLeft := groupSize - 1 }
  else .ok { s with groupLeft := s.groupLeft - 1 }

/-- Selectors are below the number of tables, so there is a table. -/
def readSymbol (data : List UInt8) (header : BlockHeader) (s : Symbols) (bit : Nat) :
    Result (Symbols × Nat × Nat) := do
  let s ← selectTable header s bit
  let table ← okOr (decodeError bit .invalidBlock) header.tables[s.table]?
  let (symbol, bit) ← table.decode data bit
  return (s, symbol, bit)

def flushRun (blockSize : Nat) (s : Symbols) (bit : Nat) : Result Symbols :=
  if s.run ≠ 0 then
    if s.tt.length + s.run > blockSize then .error (decodeError bit .blockOverflow)
    else .ok { s with tt := s.tt ++ List.replicate s.run (s.mtf.headD 0), run := 0, runBit := 0 }
  else .ok s

/-- The end of the loop for one symbol, and whether it ends the block. -/
def applySymbol (header : BlockHeader) (blockSize symbol : Nat) (s : Symbols) (bit : Nat) :
    Result (Symbols × Bool) :=
  if symbol ≤ 1 then
    let run := s.run + (symbol + 1) <<< s.runBit
    let runBit := s.runBit + 1
    if runBit ≥ 32 ∨ run > blockSize then .error (decodeError bit .blockOverflow)
    else .ok ({ s with run, runBit }, false)
  else
    match flushRun blockSize s bit with
    | .error error => .error error
    | .ok s =>
      if symbol = header.alphabet.length + 1 then .ok (s, true)
      else if symbol - 1 ≥ s.mtf.length ∨ s.tt.length = blockSize then
        .error (decodeError bit .invalidBlock)
      else
        let (byte, mtf) := moveToFront s.mtf (symbol - 1)
        .ok ({ s with mtf, tt := s.tt ++ [byte] }, false)

theorem readSymbol_next {data : List UInt8} {header : BlockHeader} {s t : Symbols}
    {bit symbol next : Nat} (h : readSymbol data header s bit = .ok (t, symbol, next)) :
    bit < next ∧ next ≤ data.length * 8 := by
  obtain ⟨s', -, h⟩ := result_bind_eq_ok.mp h
  obtain ⟨table, -, h⟩ := result_bind_eq_ok.mp h
  obtain ⟨⟨symbol', next'⟩, hdecode, heq⟩ := result_bind_eq_ok.mp h
  cases heq
  exact Huffman.decode_next hdecode

/-- The symbol loop: the bytes of the block and the position behind the end symbol. -/
def decodeSymbols (data : List UInt8) (header : BlockHeader) (blockSize : Nat) (s : Symbols)
    (bit : Nat) : Result (List UInt8 × Nat) :=
  match _h : readSymbol data header s bit with
  | .error error => .error error
  | .ok (s, symbol, next) =>
    match applySymbol header blockSize symbol s next with
    | .error error => .error error
    | .ok (s, true) => .ok (s.tt, next)
    | .ok (s, false) => decodeSymbols data header blockSize s next
termination_by data.length * 8 - bit
decreasing_by
  have := readSymbol_next _h
  omega

/-- `counts` when it has been added up: how many bytes are smaller. -/
def byteStart (tt : List UInt8) : Nat → Nat
  | 0 => 0
  | byte + 1 => byteStart tt byte + tt.count (UInt8.ofNat byte)

/-- The loop that puts an index above the byte of each entry. -/
def linkEntries : List Nat → (Nat → Nat) → List Nat → List Nat
  | [], _, tt => tt
  | index :: rest, counts, tt =>
    let byte := tt.getD index 0 % 256
    let target := counts byte
    linkEntries rest (fun other => if other = byte then target + 1 else counts other)
      (tt.set target (tt.getD target 0 ||| index <<< 8))

/-- The bytes met along the links. -/
def walk (tt : List Nat) : Nat → Nat → List UInt8
  | 0, _ => []
  | count + 1, position =>
    let entry := tt.getD position 0
    UInt8.ofNat entry :: walk tt count (entry >>> 8)

def inverseTransform (bytes : List UInt8) (origin : Nat) : List UInt8 :=
  let tt := linkEntries (List.range bytes.length) (byteStart bytes) (bytes.map UInt8.toNat)
  walk tt bytes.length (tt.getD origin 0 >>> 8)

/-- The variables of the expansion loop. -/
structure Expansion where
  output : List UInt8 := []
  previous : Option UInt8 := none
  repeated : Nat := 0

/-- Behind four equal bytes stands how many more of them follow. -/
def expandByte (maxOutput blockOffset : Nat) (x : Expansion) (byte : UInt8) : Result Expansion :=
  if x.repeated = 4 then
    if x.output.length + byte.toNat > maxOutput then .error (decodeError blockOffset .blockOverflow)
    else .ok ⟨x.output ++ List.replicate byte.toNat (x.previous.getD 0), none, 0⟩
  else if x.output.length = maxOutput then .error (decodeError blockOffset .blockOverflow)
  else .ok ⟨x.output ++ [byte], some byte, if x.previous = some byte then x.repeated + 1 else 1⟩

def expandBytes (maxOutput blockOffset : Nat) : Expansion → List UInt8 → Result (List UInt8)
  | x, [] => .ok x.output
  | x, byte :: rest => do
    let x ← expandByte maxOutput blockOffset x byte
    expandBytes maxOutput blockOffset x rest

structure DecodedBlock where
  output : List UInt8
  storedCrc : UInt32
  blockLen : Nat
  deriving DecidableEq, Repr

/-- `Decoder::block`, entered behind the magic. -/
def decoderBlock (data : List UInt8) (bit level : Nat) (expectedCrc : Option UInt32) :
    Result (DecodedBlock × Nat) := do
  let blockOffset := bit - 48
  let (header, bit) ← readHeader data blockOffset expectedCrc bit
  let blockSize := level * 100000
  let (bytes, bit) ← decodeSymbols data header blockSize { mtf := header.alphabet } bit
  ensure (bytes.length ≠ 0 ∧ header.origin < bytes.length) (decodeError blockOffset .invalidBlock)
  let maxOutput := blockSize / 5 * 259 + 4
  let output ← expandBytes maxOutput blockOffset {} (inverseTransform bytes header.origin)
  ensure (bz2Crc32 output = header.storedCrc) (decodeError blockOffset .crcMismatch)
  return (⟨output, header.storedCrc, bytes.length⟩, bit)

structure DecodedCandidate where
  output : List UInt8
  decodedLen : Nat
  endBit : Nat
  blockLen : Nat
  deriving DecidableEq, Repr

def decodeCandidate (data : List UInt8) (startBit : Nat) (expectedCrc : UInt32) :
    Result DecodedCandidate := do
  let bit ← Bits.start data startBit
  let (magic, bit) ← Bits.magic data bit
  ensure (magic = blockMagic) (decodeError startBit .invalidMagic)
  let (block, bit) ← decoderBlock data bit 9 (some expectedCrc)
  return ⟨block.output, block.output.length, bit, block.blockLen⟩

def decodeFirstCandidate (data : List UInt8) : Result (UInt32 × DecodedCandidate) := do
  let bit ← Bits.start data 32
  let (magic, bit) ← Bits.magic data bit
  ensure (magic = blockMagic) (decodeError 32 .invalidMagic)
  let (block, bit) ← decoderBlock data bit 9 none
  return (block.storedCrc, ⟨block.output, block.output.length, bit, block.blockLen⟩)

def decodeBlock (data : List UInt8) (startBit endBit level : Nat) (expectedCrc : UInt32) :
    Result (List UInt8) := do
  ensure ((1 ≤ level ∧ level ≤ 9) ∧ startBit < endBit) (decodeError startBit .invalidBlock)
  let bit ← Bits.start data startBit
  let (magic, bit) ← Bits.magic data bit
  ensure (magic = blockMagic) (decodeError startBit .invalidMagic)
  let (block, bit) ← decoderBlock data bit level (some expectedCrc)
  ensure (bit = endBit) (decodeError bit .invalidBlock)
  return block.output

end Fbz.Bzip2
