import Fbz.Crc32
import Fbz.Deflate.CodeLengths
import Fbz.Deflate.Tokens
import Fbz.EncodeOptions

/-!
# DEFLATE encoding

A segment is written with the fixed codes, with codes of its own and stored; the shortest is kept.
Each segment ends on a byte and is not the final block.
-/

namespace Fbz.Deflate

/-- Bits fill bytes from the low end. -/
structure BitWriter where
  bytes : List UInt8 := []
  pending : Nat := 0
  bits : Nat := 0

namespace BitWriter

/-- Whole bytes leave the pending bits. -/
def spill (w : BitWriter) : BitWriter :=
  if w.bits ≥ 8 then
    spill ⟨w.bytes ++ [UInt8.ofNat w.pending], w.pending >>> 8, w.bits - 8⟩
  else w
termination_by w.bits

def writeBits (w : BitWriter) (value count : Nat) : BitWriter :=
  spill { w with pending := w.pending ||| value <<< w.bits, bits := w.bits + count }

def alignZero (w : BitWriter) : BitWriter :=
  if w.bits ≠ 0 then ⟨w.bytes ++ [UInt8.ofNat w.pending], 0, 0⟩ else w

def writeAligned (w : BitWriter) (bytes : List UInt8) : BitWriter :=
  { w with bytes := w.bytes ++ bytes }

def finishAligned (w : BitWriter) : List UInt8 := w.alignZero.bytes

end BitWriter

/-- `code.reverse_bits() >> (16 - bits)`. -/
def reverseCode (code bits : Nat) : Nat := Huffman.reverseLowBits code 16 >>> (16 - bits)

/-- Symbols run to 287. -/
def fixedCode (symbol : Nat) : Nat × Nat :=
  if symbol ≤ 143 then (reverseCode (0x30 + symbol) 8, 8)
  else if symbol ≤ 255 then (reverseCode (0x190 + (symbol - 144)) 9, 9)
  else if symbol ≤ 279 then (reverseCode (symbol - 256) 7, 7)
  else (reverseCode (0xc0 + (symbol - 280)) 8, 8)

def writeFixedSymbol (w : BitWriter) (symbol : Nat) : BitWriter :=
  w.writeBits (fixedCode symbol).1 (fixedCode symbol).2

/-- `write_match`. -/
def writeCopy (w : BitWriter) (length distance : Nat) : BitWriter :=
  let (lengthIndex, lengthExtra, lengthBits) := lengthSymbol length
  let (distanceIndex, distanceExtra, distanceBits) := distanceSymbol distance
  let w := writeFixedSymbol w (257 + lengthIndex)
  let w := w.writeBits lengthExtra lengthBits
  let w := w.writeBits (reverseCode distanceIndex 5) 5
  w.writeBits distanceExtra distanceBits

/-- The codes of the symbols, with the next code of each length. -/
def assignCodes : List Nat → (Nat → Nat) → List Nat
  | [], _ => []
  | length :: rest, next =>
    if length = 0 then 0 :: assignCodes rest next
    else
      reverseCode (next length) length ::
        assignCodes rest fun other => if other = length then next length + 1 else next other

/-- `next` is filled as the table of the decoder fills it. -/
def huffmanCodes (lengths : List Nat) : List Nat :=
  assignCodes lengths (Huffman.firstCode lengths)

structure Coding where
  codes : List Nat
  lengths : List Nat

def Coding.of (lengths : List Nat) : Coding := ⟨huffmanCodes lengths, lengths⟩

def writeCode (w : BitWriter) (symbol : Nat) (coding : Coding) : BitWriter :=
  w.writeBits (coding.codes.getD symbol 0) (coding.lengths.getD symbol 0)

def syncBoundary (w : BitWriter) : BitWriter :=
  (w.writeBits 0 3).alignZero.writeAligned [0, 0, 0xff, 0xff]

def writeFixedToken (w : BitWriter) : Token → BitWriter
  | .literal byte => writeFixedSymbol w byte.toNat
  | .copy length distance => writeCopy w length distance

def encodeFixed (tokens : List Token) : List UInt8 :=
  let w := tokens.foldl writeFixedToken (BitWriter.writeBits {} 0b010 3)
  (syncBoundary (writeFixedSymbol w 256)).finishAligned

def writeToken (literal distance : Coding) (w : BitWriter) : Token → BitWriter
  | .literal byte => writeCode w byte.toNat literal
  | .copy length dist =>
    let (lengthIndex, lengthExtra, lengthBits) := lengthSymbol length
    let (distanceIndex, distanceExtra, distanceBits) := distanceSymbol dist
    let w := writeCode w (257 + lengthIndex) literal
    let w := w.writeBits lengthExtra lengthBits
    let w := writeCode w distanceIndex distance
    w.writeBits distanceExtra distanceBits

/-- `rposition(|&length| length != 0)`. -/
def lastUsed : List Nat → Option Nat
  | [] => none
  | length :: rest =>
    match lastUsed rest with
    | some index => some (index + 1)
    | none => if length ≠ 0 then some 0 else none

/-- The lengths of both codes as they are written in the header. -/
def allLengths (literalLengths distanceLengths : List Nat) (literalCount distanceCount : Nat) :
    List Nat :=
  literalLengths.take literalCount ++ distanceLengths.take distanceCount

def codeLengthFrequencies (lengths : List Nat) : List Nat :=
  ensureTwo (lengths.foldl countSymbol (List.replicate 19 0))

/-- Header, code lengths and tokens. -/
def writeDynamic (tokens : List Token) (literalLengths distanceLengths codeLengthLengths : List Nat)
    (literalCount distanceCount codeLengthCount : Nat) : List UInt8 :=
  let codeLength := Coding.of codeLengthLengths
  let w := BitWriter.writeBits {} 0b100 3
  let w := w.writeBits (literalCount - 257) 5
  let w := w.writeBits (distanceCount - 1) 5
  let w := w.writeBits (codeLengthCount - 4) 4
  let w := (codeLengthOrder.take codeLengthCount).foldl
    (fun w symbol => w.writeBits (codeLengthLengths.getD symbol 0) 3) w
  let w := (allLengths literalLengths distanceLengths literalCount distanceCount).foldl
    (fun w length => writeCode w length codeLength) w
  let w := tokens.foldl (writeToken (.of literalLengths) (.of distanceLengths)) w
  (syncBoundary (writeCode w 256 (.of literalLengths))).finishAligned

/-- `none` where the source panics or goes on for good. -/
def encodeDynamic (tokens : List Token) : Option (List UInt8) := do
  let literalLengths ← huffmanLengths (frequencies tokens).1 15
  let distanceLengths ← huffmanLengths (frequencies tokens).2 15
  let literalLast ← lastUsed literalLengths
  let distanceLast ← lastUsed distanceLengths
  let literalCount := max literalLast 256 + 1
  let distanceCount := distanceLast + 1
  let codeLengthLengths ← huffmanLengths
    (codeLengthFrequencies (allLengths literalLengths distanceLengths literalCount distanceCount)) 7
  let codeLengthLast ← lastUsed (codeLengthOrder.map fun symbol => codeLengthLengths.getD symbol 0)
  return writeDynamic tokens literalLengths distanceLengths codeLengthLengths literalCount
    distanceCount (max codeLengthLast 3 + 1)

/-- `chunks(size)`. -/
def chunks (size : Nat) (bytes : List UInt8) : List (List UInt8) :=
  if _h : bytes = [] ∨ size = 0 then []
  else bytes.take size :: chunks size (bytes.drop size)
termination_by bytes.length
decreasing_by
  have := List.length_pos_iff.mpr (not_or.mp _h).1
  rw [List.length_drop]
  omega

def writeStored (w : BitWriter) (chunk : List UInt8) : BitWriter :=
  let w := (w.writeBits 0 3).alignZero
  let w := w.writeAligned (toLe 2 chunk.length)
  let w := w.writeAligned (toLe 2 (2 ^ 16 - 1 - chunk.length % 2 ^ 16))
  w.writeAligned chunk

def encodeStored (bytes : List UInt8) : List UInt8 :=
  ((chunks (2 ^ 16 - 1) bytes).foldl writeStored {}).finishAligned

structure Encode.Segment (crc : Crc32) where
  encoded : List UInt8
  inputLen : Nat
  crc : crc.Hasher

/-- The first is kept only when it is shorter. -/
def shorter (first second : List UInt8) : List UInt8 :=
  if first.length < second.length then first else second

/-- `encode_segment`, with `none` for what never returns. -/
def encodeSegment? (crc : Crc32) (buffer : List UInt8) (prefixLen level : Nat) :
    Option (Encode.Segment crc) := do
  let plain := buffer.drop prefixLen
  let tokens := tokenize buffer prefixLen level
  let dynamic ← encodeDynamic tokens
  return ⟨shorter (shorter dynamic (encodeFixed tokens)) (encodeStored plain), plain.length,
    crc.update crc.new plain⟩

def finalBlock : List UInt8 :=
  ((BitWriter.writeBits {} 1 3).alignZero.writeAligned [0, 0, 0xff, 0xff]).finishAligned

private theorem lastUsed_isSome {lengths : List Nat} (used : ∃ length ∈ lengths, length ≠ 0) :
    ∃ index, lastUsed lengths = some index := by
  induction lengths with
  | nil =>
    obtain ⟨length, hmem, -⟩ := used
    cases hmem
  | cons head rest ih =>
    obtain ⟨length, hmem, hne⟩ := used
    rw [lastUsed]
    split
    · exact ⟨_, rfl⟩
    · next hnone =>
      rcases List.mem_cons.mp hmem with rfl | hmem
      · exact ⟨0, if_pos hne⟩
      · obtain ⟨index, hindex⟩ := ih ⟨length, hmem, hne⟩
        rw [hindex] at hnone
        cases hnone

private theorem huffmanLengths_ensureTwo {counts : List Nat} {maxBits : Nat} (pos : 1 ≤ maxBits)
    (ne : counts ≠ []) (few : counts.length < Nat.fib (maxBits + 3)) :
    ∃ lengths, huffmanLengths (ensureTwo counts) maxBits = some lengths ∧
      lengths.length = counts.length ∧ ∃ length ∈ lengths, length ≠ 0 := by
  obtain ⟨lengths, hlengths⟩ := Option.isSome_iff_exists.mp
    (huffmanLengths_isSome pos (by rwa [ensureTwo_length]) (ensureTwo_used ne))
  obtain ⟨hlength, hused⟩ := huffmanLengths_used hlengths
  exact ⟨lengths, hlengths, hlength.trans (ensureTwo_length counts), hused⟩

theorem foldl_countSymbol_length (symbols counts : List Nat) :
    (symbols.foldl countSymbol counts).length = counts.length := by
  induction symbols generalizing counts with
  | nil => rfl
  | cons symbol symbols ih => rw [List.foldl_cons, ih, countSymbol_length]

private theorem encodeDynamic_isSome (tokens : List Token) : (encodeDynamic tokens).isSome := by
  obtain ⟨hliterals, hdistances⟩ := frequencies_length tokens
  simp only [frequencies, ensureTwo_length] at hliterals hdistances
  obtain ⟨literalLengths, hliteral, -, hliteralUsed⟩ := @huffmanLengths_ensureTwo _ 15 (by decide)
    (List.ne_nil_of_length_eq_add_one hliterals) (by rw [hliterals]; decide)
  obtain ⟨distanceLengths, hdistance, -, hdistanceUsed⟩ :=
    @huffmanLengths_ensureTwo _ 15 (by decide)
      (List.ne_nil_of_length_eq_add_one hdistances) (by rw [hdistances]; decide)
  obtain ⟨literalLast, hliteralLast⟩ := lastUsed_isSome hliteralUsed
  obtain ⟨distanceLast, hdistanceLast⟩ := lastUsed_isSome hdistanceUsed
  have hcounts : ((allLengths literalLengths distanceLengths (max literalLast 256 + 1)
      (distanceLast + 1)).foldl countSymbol (List.replicate 19 0)).length = 19 := by
    rw [foldl_countSymbol_length, List.length_replicate]
  obtain ⟨codeLengthLengths, hcodeLength, hlength, length, hmem, hne⟩ :=
    @huffmanLengths_ensureTwo _ 7 (by decide) (List.ne_nil_of_length_eq_add_one hcounts)
      (by rw [hcounts]; decide)
  rw [hcounts] at hlength
  obtain ⟨symbol, hlt, rfl⟩ := List.mem_iff_getElem.mp hmem
  have horder : ∀ symbol < 19, symbol ∈ codeLengthOrder := by decide
  obtain ⟨codeLengthLast, hcodeLengthLast⟩ := @lastUsed_isSome
    (codeLengthOrder.map fun symbol => codeLengthLengths.getD symbol 0)
    ⟨_, List.mem_map_of_mem (horder symbol (hlength ▸ hlt)),
      by simpa [List.getElem?_eq_getElem hlt] using hne⟩
  rw [encodeDynamic]
  simp only [frequencies, codeLengthFrequencies, hliteral, hdistance, hliteralLast, hdistanceLast,
    hcodeLength, hcodeLengthLast, Option.bind_eq_bind, Option.bind_some, Option.pure_def,
    Option.isSome_some]

theorem encodeSegment?_isSome (crc : Crc32) (buffer : List UInt8) (prefixLen level : Nat) :
    (encodeSegment? crc buffer prefixLen level).isSome := by
  obtain ⟨dynamic, hdynamic⟩ := Option.isSome_iff_exists.mp
    (encodeDynamic_isSome (tokenize buffer prefixLen level))
  rw [encodeSegment?, hdynamic]
  rfl

def encodeSegment (crc : Crc32) (buffer : List UInt8) (prefixLen level : Nat) :
    Encode.Segment crc :=
  (encodeSegment? crc buffer prefixLen level).get (encodeSegment?_isSome crc buffer prefixLen level)

namespace Encode

def targetSegmentSize : Nat := 1024 * 1024
def minSegmentSize : Nat := 64 * 1024

end Encode

def segmentReservation (segmentSize : Nat) : Nat := (segmentSize + Encode.windowSize) * 6 + 2 ^ 16 * 8

/-- The loop of `segment_size`. -/
def shrinkSegmentSize (memoryLimit size : Nat) : Nat :=
  if size > Encode.minSegmentSize ∧ segmentReservation size > memoryLimit then
    shrinkSegmentSize memoryLimit (size / 2)
  else size
termination_by size
decreasing_by simp only [Encode.minSegmentSize] at *; omega

private theorem shrinkSegmentSize_pos {memoryLimit size : Nat} (pos : 0 < size) :
    0 < shrinkSegmentSize memoryLimit size := by
  induction size using shrinkSegmentSize.induct memoryLimit with
  | case1 size big ih =>
    rw [shrinkSegmentSize, if_pos big]
    have := big.1
    unfold Encode.minSegmentSize at this
    exact ih (by omega)
  | case2 size small => rwa [shrinkSegmentSize, if_neg small]

def segmentSize (memoryLimit : Nat) : Result { size : Nat // 0 < size } := do
  let size := shrinkSegmentSize memoryLimit Encode.targetSegmentSize
  ensure (segmentReservation size ≤ memoryLimit)
    (.invalidConfiguration
      s!"compression memory limit must be at least {segmentReservation size} bytes")
  return ⟨size, shrinkSegmentSize_pos (by decide)⟩

def validateOptions (options : EncodeOptions) : Result EncodeOptions := do
  let options ← options.validate
  let _ ← segmentSize options.memoryLimit
  return options

theorem validateOptions_eq {options checked : EncodeOptions}
    (h : validateOptions options = .ok checked) : checked = options := by
  obtain ⟨options', hoptions, hrest⟩ := result_bind_eq_ok.mp h
  obtain ⟨size, -, heq⟩ := result_bind_eq_ok.mp hrest
  obtain ⟨rfl, -⟩ := EncodeOptions.validate_eq_ok.mp hoptions
  exact (Except.ok.inj heq).symm

theorem segmentSize_eq_ok {memoryLimit : Nat} {size : { size : Nat // 0 < size }}
    (h : segmentSize memoryLimit = .ok size) : segmentReservation size ≤ memoryLimit := by
  obtain ⟨_, hfits, heq⟩ := result_bind_eq_ok.mp h
  obtain rfl := Except.ok.inj heq
  exact ensure_eq_ok.mp hfits

end Fbz.Deflate
