import Fbz.Deflate.Huffman

/-!
# DEFLATE blocks

The block decoder over any output. An output takes bytes and back references, and may refuse them.
-/

namespace Fbz.Deflate

def lengthBase : List Nat :=
  [3, 4, 5, 6, 7, 8, 9, 10, 11, 13, 15, 17, 19, 23, 27, 31, 35, 43, 51, 59, 67, 83, 99, 115, 131,
    163, 195, 227, 258]

def lengthExtra : List Nat :=
  [0, 0, 0, 0, 0, 0, 0, 0, 1, 1, 1, 1, 2, 2, 2, 2, 3, 3, 3, 3, 4, 4, 4, 4, 5, 5, 5, 5, 0]

def distanceBase : List Nat :=
  [1, 2, 3, 4, 5, 7, 9, 13, 17, 25, 33, 49, 65, 97, 129, 193, 257, 385, 513, 769, 1025, 1537, 2049,
    3073, 4097, 6145, 8193, 12289, 16385, 24577]

def distanceExtra : List Nat :=
  [0, 0, 0, 0, 1, 1, 2, 2, 3, 3, 4, 4, 5, 5, 6, 6, 7, 7, 8, 8, 9, 9, 10, 10, 11, 11, 12, 12, 13, 13]

inductive BlockKind
  | stored
  | fixedHuffman
  | dynamicHuffman
  deriving DecidableEq, Repr

structure Block where
  member : Nat
  kind : BlockKind
  finalBlock : Bool
  compressedStartBit : Nat
  compressedEndBit : Nat
  decodedStart : Nat
  decodedLen : Nat
  deriving DecidableEq, Repr

class DeflateOutput (α : Type) where
  totalDecoded : α → Nat
  emit : α → UInt8 → Result α
  extend : α → List UInt8 → Result α
  copy : α → Nat → Nat → Result α

open DeflateOutput

/-- What the decoder asks of an output. -/
inductive Op
  | emit (byte : UInt8)
  | extend (bytes : List UInt8)
  | copy (distance length : Nat)
  deriving DecidableEq, Repr

def Op.run {α : Type} [DeflateOutput α] (out : α) : Op → Result α
  | emit byte => DeflateOutput.emit out byte
  | extend bytes => DeflateOutput.extend out bytes
  | copy distance length => DeflateOutput.copy out distance length

/-- Length and distance of a back reference, behind its length symbol. -/
def readMatch (data : List UInt8) (distance : Huffman) (symbol bit : Nat) :
    Result (Op × Nat) := do
  let lengthIndex := symbol - 257
  let (extra, bit) ← Bits.read data bit (lengthExtra.getD lengthIndex 0)
  let length := lengthBase.getD lengthIndex 0 + extra
  let (distanceSymbol, bit) ← distance.decode data bit
  ensure (distanceSymbol < distanceBase.length)
    (invalidBit bit s!"invalid distance symbol {distanceSymbol}")
  let (extra, bit) ← Bits.read data bit (distanceExtra.getD distanceSymbol 0)
  return (.copy (distanceBase.getD distanceSymbol 0 + extra) length, bit)

/-- What the next literal/length symbol stands for, `none` at the end of the block. -/
def readInstruction (data : List UInt8) (literal distance : Huffman) (bit : Nat) :
    Result (Option Op × Nat) := do
  let (symbol, bit) ← literal.decode data bit
  if symbol ≤ 255 then return (some (.emit (UInt8.ofNat symbol)), bit)
  else if symbol = 256 then return (none, bit)
  else if symbol ≤ 285 then
    let (op, bit) ← readMatch data distance symbol bit
    return (some op, bit)
  else .error (invalidBit bit s!"invalid literal/length symbol {symbol}")

private theorem readMatch_advances {data : List UInt8} {distance : Huffman} {symbol bit next : Nat}
    {op : Op} (h : readMatch data distance symbol bit = .ok (op, next)) :
    bit ≤ next ∧ next ≤ data.length * 8 := by
  simp only [readMatch, result_bind_eq_ok] at h
  obtain ⟨⟨extra, bit1⟩, hextra, ⟨distanceSymbol, bit2⟩, hdistance, _, -, ⟨extra', bit3⟩, hextra',
    heq⟩ := h
  obtain ⟨-, rfl⟩ := Prod.mk.inj (Except.ok.inj heq)
  have h1 := Bits.read_next hextra
  have h2 := Huffman.decode_advances hdistance
  have h3 := Bits.read_next hextra'
  dsimp only at h2 h3 ⊢
  omega

theorem readInstruction_advances {data : List UInt8} {literal distance : Huffman} {bit next : Nat}
    {instruction : Option Op}
    (h : readInstruction data literal distance bit = .ok (instruction, next)) :
    bit < next ∧ next ≤ data.length * 8 := by
  obtain ⟨⟨symbol, after⟩, hsymbol, h⟩ := result_bind_eq_ok.mp h
  have hafter := Huffman.decode_advances hsymbol
  dsimp only at h
  split at h
  · obtain ⟨-, rfl⟩ := Prod.mk.inj (Except.ok.inj h)
    exact hafter
  split at h
  · obtain ⟨-, rfl⟩ := Prod.mk.inj (Except.ok.inj h)
    exact hafter
  split at h
  · obtain ⟨⟨op, after'⟩, hmatch, heq⟩ := result_bind_eq_ok.mp h
    obtain ⟨-, rfl⟩ := Prod.mk.inj (Except.ok.inj heq)
    have := readMatch_advances hmatch
    dsimp only at this ⊢
    omega
  · cases h

/-- Back references reach back at most 32 KiB and are at least three bytes long. -/
def Op.Proper : Op → Prop
  | emit _ => True
  | extend _ => True
  | copy distance length => 0 < distance ∧ distance ≤ 32 * 1024 ∧ 3 ≤ length

private theorem length_least : ∀ i < 29, 3 ≤ lengthBase.getD i 0 := by decide

private theorem distance_range : ∀ i < 30, 0 < distanceBase.getD i 0 ∧
    distanceBase.getD i 0 + 2 ^ distanceExtra.getD i 0 ≤ 32 * 1024 + 1 := by decide

theorem readInstruction_proper {data : List UInt8} {literal distance : Huffman} {bit next : Nat}
    {op : Op} (h : readInstruction data literal distance bit = .ok (some op, next)) : op.Proper := by
  obtain ⟨⟨symbol, after⟩, hsymbol, h⟩ := result_bind_eq_ok.mp h
  dsimp only at h
  split at h
  · obtain ⟨heq, -⟩ := Prod.mk.inj (Except.ok.inj h)
    obtain rfl := Option.some.inj heq
    trivial
  split at h
  · cases h
  split at h
  · obtain ⟨⟨op', after'⟩, hmatch, heq⟩ := result_bind_eq_ok.mp h
    obtain ⟨heq, -⟩ := Prod.mk.inj (Except.ok.inj heq)
    obtain rfl := Option.some.inj heq
    simp only [readMatch, result_bind_eq_ok, ensure_eq_ok] at hmatch
    obtain ⟨⟨extra, bit1⟩, -, ⟨distanceSymbol, bit2⟩, -, _, hlt, ⟨extra', bit3⟩, hextra, heq⟩ := hmatch
    obtain ⟨rfl, -⟩ := Prod.mk.inj (Except.ok.inj heq)
    have hread := Bits.read_lt hextra
    have hlength := length_least (symbol - 257) (by omega)
    have hdistance := distance_range distanceSymbol hlt
    dsimp only [Op.Proper] at hread ⊢
    omega
  · cases h

/-- The order in which the lengths of the code-length code are sent. -/
def codeLengthOrder : List Nat := [16, 17, 18, 0, 8, 7, 9, 6, 10, 5, 11, 4, 12, 3, 13, 2, 14, 1, 15]

def readCodeLengths (data : List UInt8) : List Nat → Nat → List Nat → Result (List Nat × Nat)
  | [], bit, codeLengths => .ok (codeLengths, bit)
  | symbol :: order, bit, codeLengths => do
    let (length, bit) ← Bits.read data bit 3
    readCodeLengths data order bit (codeLengths.set symbol length)

def appendLengths (lengths : List Nat) (total value count bit : Nat) : Result (List Nat) := do
  ensure (lengths.length + count ≤ total) (invalidBit bit "code-length repeat exceeds table")
  return lengths ++ List.replicate count value

/-- One symbol of the code-length code, with the lengths it adds. -/
def readLength (data : List UInt8) (codeTable : Huffman) (total bit : Nat) (lengths : List Nat) :
    Result (List Nat × Nat) := do
  let (symbol, bit) ← codeTable.decode data bit
  if symbol ≤ 15 then return (lengths ++ [symbol], bit)
  else if symbol = 16 then
    let previous ← okOr (invalidBit bit "repeat code 16 has no previous length") lengths.getLast?
    let (extra, bit) ← Bits.read data bit 2
    let lengths ← appendLengths lengths total previous (extra + 3) bit
    return (lengths, bit)
  else if symbol = 17 then
    let (extra, bit) ← Bits.read data bit 3
    let lengths ← appendLengths lengths total 0 (extra + 3) bit
    return (lengths, bit)
  else if symbol = 18 then
    let (extra, bit) ← Bits.read data bit 7
    let lengths ← appendLengths lengths total 0 (extra + 11) bit
    return (lengths, bit)
  else .error (invalidBit bit s!"invalid code-length symbol {symbol}")

theorem readLength_advances {data : List UInt8} {codeTable : Huffman} {total bit next : Nat}
    {lengths lengths' : List Nat}
    (h : readLength data codeTable total bit lengths = .ok (lengths', next)) :
    bit < next ∧ next ≤ data.length * 8 := by
  obtain ⟨⟨symbol, after⟩, hsymbol, h⟩ := result_bind_eq_ok.mp h
  have hafter := Huffman.decode_advances hsymbol
  have hrepeat {count value base : Nat} (hcount : 0 < count)
      (h : (Bits.read data after count >>= fun (extra, bit) => do
        let lengths ← appendLengths lengths total value (extra + base) bit
        return (lengths, bit)) = .ok (lengths', next)) :
      bit < next ∧ next ≤ data.length * 8 := by
    simp only [result_bind_eq_ok] at h
    obtain ⟨⟨extra, bit'⟩, hread, _, -, heq⟩ := h
    obtain ⟨-, rfl⟩ := Prod.mk.inj (Except.ok.inj heq)
    have := Bits.read_next hread
    dsimp only at this ⊢
    omega
  dsimp only at h
  split at h
  · obtain ⟨-, rfl⟩ := Prod.mk.inj (Except.ok.inj h)
    exact hafter
  split at h
  · obtain ⟨previous, -, h⟩ := result_bind_eq_ok.mp h
    exact hrepeat (by decide) h
  split at h
  · exact hrepeat (by decide) h
  split at h
  · exact hrepeat (by decide) h
  · cases h

/-- The loop that fills the code lengths of both alphabets. -/
def readLengths (data : List UInt8) (codeTable : Huffman) (total bit : Nat) (lengths : List Nat) :
    Result (List Nat × Nat) :=
  if lengths.length < total then
    match _h : readLength data codeTable total bit lengths with
    | .error error => .error error
    | .ok (lengths, next) => readLengths data codeTable total next lengths
  else .ok (lengths, bit)
termination_by data.length * 8 - bit
decreasing_by
  have := readLength_advances _h
  omega

def dynamicTables (data : List UInt8) (bit : Nat) : Result ((Huffman × Huffman) × Nat) := do
  let (literals, bit) ← Bits.read data bit 5
  let literalCount := literals + 257
  let (distances, bit) ← Bits.read data bit 5
  let distanceCount := distances + 1
  let (codes, bit) ← Bits.read data bit 4
  let codeCount := codes + 4
  let (codeLengths, bit) ← readCodeLengths data (codeLengthOrder.take codeCount) bit
    (List.replicate 19 0)
  let codeTable ← Huffman.new codeLengths
  let (lengths, bit) ← readLengths data codeTable (literalCount + distanceCount) bit []
  ensure (lengths.getD 256 0 ≠ 0)
    (invalidBit bit "literal/length table has no end-of-block symbol")
  let literal ← Huffman.new (lengths.take literalCount)
  let distance ← Huffman.new (lengths.drop literalCount)
  return ((literal, distance), bit)

def fixedTables : Result (Huffman × Huffman) := do
  let literal ← Huffman.new (List.replicate 144 8 ++ List.replicate 112 9 ++ List.replicate 24 7 ++
    List.replicate 8 8)
  let distance ← Huffman.new (List.replicate 32 5)
  return (literal, distance)

section Decode

variable {α : Type} [DeflateOutput α]

def decodeStored (data : List UInt8) (bit : Nat) (out : α) : Result (α × Nat) := do
  let (length, bit) ← Bits.read data (Bits.alignByte bit) 16
  let (complement, bit) ← Bits.read data bit 16
  ensure (length = 2 ^ 16 - 1 - complement) (invalidBit (bit - 16) "stored-block LEN/NLEN mismatch")
  let (bytes, bit) ← Bits.readAlignedBytes data bit length
  let out ← extend out bytes
  return (out, bit)

def decodeHuffmanBlock (data : List UInt8) (literal distance : Huffman) (bit : Nat) (out : α) :
    Result (α × Nat) :=
  match _h : readInstruction data literal distance bit with
  | .error error => .error error
  | .ok (none, bit) => .ok (out, bit)
  | .ok (some op, bit) =>
    match op.run out with
    | .error error => .error error
    | .ok out => decodeHuffmanBlock data literal distance bit out
termination_by data.length * 8 - bit
decreasing_by
  have := readInstruction_advances _h
  omega

/-- The body of a block of this kind. -/
def decodeBody (data : List UInt8) (kind bit : Nat) (out : α) : Result (α × BlockKind × Nat) :=
  if kind = 0 then do
    let (out, bit) ← decodeStored data bit out
    return (out, .stored, bit)
  else if kind = 1 then do
    let (literal, distance) ← fixedTables
    let (out, bit) ← decodeHuffmanBlock data literal distance bit out
    return (out, .fixedHuffman, bit)
  else if kind = 2 then do
    let ((literal, distance), bit) ← dynamicTables data bit
    let (out, bit) ← decodeHuffmanBlock data literal distance bit out
    return (out, .dynamicHuffman, bit)
  else .error (invalidBit (bit - 2) "reserved DEFLATE block type")

def decodeBlock (data : List UInt8) (member bit : Nat) (out : α) : Result (α × Block × Nat) := do
  let (final, bit') ← Bits.read data bit 1
  let (kind, bit') ← Bits.read data bit' 2
  let (out', kind, bit') ← decodeBody data kind bit' out
  return (out', ⟨member, kind, final ≠ 0, bit, bit', totalDecoded out,
    totalDecoded out' - totalDecoded out⟩, bit')

private theorem decodeStored_advances {data : List UInt8} {bit next : Nat} {out out' : α}
    (h : decodeStored data bit out = .ok (out', next)) : bit ≤ next ∧ next ≤ data.length * 8 := by
  simp only [decodeStored, result_bind_eq_ok] at h
  obtain ⟨⟨length, bit1⟩, hlength, ⟨complement, bit2⟩, hcomplement, _, -, ⟨bytes, bit3⟩, hbytes, _,
    -, heq⟩ := h
  obtain ⟨-, rfl⟩ := Prod.mk.inj (Except.ok.inj heq)
  have h0 := Bits.le_alignByte bit
  have h1 := Bits.read_next hlength
  have h2 := Bits.read_next hcomplement
  have h3 := Bits.readAlignedBytes_next hbytes
  dsimp only at h2 h3 ⊢
  omega

theorem decodeHuffmanBlock_eq (data : List UInt8) (literal distance : Huffman) (bit : Nat)
    (out : α) :
    decodeHuffmanBlock data literal distance bit out =
      match readInstruction data literal distance bit with
      | .error error => .error error
      | .ok (none, bit) => .ok (out, bit)
      | .ok (some op, bit) =>
        match op.run out with
        | .error error => .error error
        | .ok out => decodeHuffmanBlock data literal distance bit out := by
  rw [decodeHuffmanBlock]
  split <;> simp only [*]

private theorem decodeHuffmanBlock_advances {data : List UInt8} {literal distance : Huffman}
    {bit next : Nat} {out out' : α}
    (h : decodeHuffmanBlock data literal distance bit out = .ok (out', next)) :
    bit < next ∧ next ≤ data.length * 8 := by
  induction bit, out using @decodeHuffmanBlock.induct α _ data literal distance with
  | case1 bit out error hread => simp [decodeHuffmanBlock_eq, hread] at h
  | case2 bit out after hread =>
    have := readInstruction_advances hread
    simp only [decodeHuffmanBlock_eq, hread, Except.ok.injEq, Prod.mk.injEq] at h
    omega
  | case3 bit out op after hread error hrun => simp [decodeHuffmanBlock_eq, hread, hrun] at h
  | case4 bit out op after hread out1 hrun ih =>
    have := readInstruction_advances hread
    rw [decodeHuffmanBlock_eq, hread] at h
    simp only [hrun] at h
    have := ih h
    omega

private theorem readCodeLengths_advances {data : List UInt8} {order : List Nat} {bit next : Nat}
    {lengths lengths' : List Nat}
    (h : readCodeLengths data order bit lengths = .ok (lengths', next)) : bit ≤ next := by
  induction order generalizing bit lengths with
  | nil => exact Nat.le_of_eq (Prod.mk.inj (Except.ok.inj h)).2
  | cons symbol order ih =>
    obtain ⟨⟨length, after⟩, hread, h⟩ := result_bind_eq_ok.mp h
    have := Bits.read_next hread
    have := ih h
    omega

theorem readLengths_eq (data : List UInt8) (codeTable : Huffman) (total bit : Nat)
    (lengths : List Nat) :
    readLengths data codeTable total bit lengths =
      if lengths.length < total then
        match readLength data codeTable total bit lengths with
        | .error error => .error error
        | .ok (lengths, next) => readLengths data codeTable total next lengths
      else .ok (lengths, bit) := by
  rw [readLengths]
  split
  · split <;> simp only [*]
  · rfl

private theorem readLengths_advances {data : List UInt8} {codeTable : Huffman}
    {total bit next : Nat} {lengths lengths' : List Nat}
    (h : readLengths data codeTable total bit lengths = .ok (lengths', next)) : bit ≤ next := by
  induction bit, lengths using readLengths.induct data codeTable total with
  | case1 bit lengths more error hread =>
    rw [readLengths_eq, if_pos more, hread] at h
    cases h
  | case2 bit lengths more lengths1 after hread ih =>
    have := readLength_advances hread
    rw [readLengths_eq, if_pos more, hread] at h
    have := ih h
    omega
  | case3 bit lengths done =>
    rw [readLengths_eq, if_neg done] at h
    exact Nat.le_of_eq (Prod.mk.inj (Except.ok.inj h)).2

private theorem dynamicTables_advances {data : List UInt8} {bit next : Nat}
    {tables : Huffman × Huffman}
    (h : dynamicTables data bit = .ok (tables, next)) : bit ≤ next := by
  simp only [dynamicTables, result_bind_eq_ok] at h
  obtain ⟨⟨_, bit1⟩, h1, ⟨_, bit2⟩, h2, ⟨_, bit3⟩, h3, ⟨_, bit4⟩, h4, _, -, ⟨_, bit5⟩, h5, _, -, _,
    -, _, -, heq⟩ := h
  obtain ⟨-, rfl⟩ := Prod.mk.inj (Except.ok.inj heq)
  have h1 := Bits.read_next h1
  have h2 := Bits.read_next h2
  have h3 := Bits.read_next h3
  have h4 := readCodeLengths_advances h4
  have h5 := readLengths_advances h5
  dsimp only at h2 h3 h4 h5 ⊢
  omega

private theorem decodeBody_advances {data : List UInt8} {code bit next : Nat} {out out' : α}
    {kind : BlockKind} (h : decodeBody data code bit out = .ok (out', kind, next)) :
    bit ≤ next ∧ next ≤ data.length * 8 := by
  unfold decodeBody at h
  split at h
  · obtain ⟨⟨_, after⟩, hstored, heq⟩ := result_bind_eq_ok.mp h
    obtain ⟨-, heq⟩ := Prod.mk.inj (Except.ok.inj heq)
    obtain ⟨-, rfl⟩ := Prod.mk.inj heq
    exact decodeStored_advances hstored
  split at h
  · simp only [result_bind_eq_ok] at h
    obtain ⟨_, -, ⟨_, after⟩, hblock, heq⟩ := h
    obtain ⟨-, heq⟩ := Prod.mk.inj (Except.ok.inj heq)
    obtain ⟨-, rfl⟩ := Prod.mk.inj heq
    have := decodeHuffmanBlock_advances hblock
    dsimp only
    omega
  split at h
  · simp only [result_bind_eq_ok] at h
    obtain ⟨⟨_, start⟩, htables, ⟨_, after⟩, hblock, heq⟩ := h
    obtain ⟨-, heq⟩ := Prod.mk.inj (Except.ok.inj heq)
    obtain ⟨-, rfl⟩ := Prod.mk.inj heq
    have := dynamicTables_advances htables
    have := decodeHuffmanBlock_advances hblock
    dsimp only
    omega
  · cases h

theorem decodeBlock_advances {data : List UInt8} {member bit next : Nat} {out out' : α}
    {block : Block} (h : decodeBlock data member bit out = .ok (out', block, next)) :
    bit < next ∧ next ≤ data.length * 8 := by
  simp only [decodeBlock, result_bind_eq_ok] at h
  obtain ⟨⟨_, bit1⟩, h1, ⟨_, bit2⟩, h2, ⟨_, _, bit3⟩, h3, heq⟩ := h
  obtain ⟨-, heq⟩ := Prod.mk.inj (Except.ok.inj heq)
  obtain ⟨-, rfl⟩ := Prod.mk.inj heq
  have h1 := Bits.read_next h1
  have h2 := Bits.read_next h2
  have h3 := decodeBody_advances h3
  dsimp only at h2 h3 ⊢
  omega

/-- `decode_deflate`: blocks up to the final one. -/
def decodeDeflate (data : List UInt8) (member bit : Nat) (blocks : List Block) (out : α) :
    Result (α × List Block × Nat) :=
  match _h : decodeBlock data member bit out with
  | .error error => .error error
  | .ok (out, block, bit) =>
    if block.finalBlock then .ok (out, blocks ++ [block], bit)
    else decodeDeflate data member bit (blocks ++ [block]) out
termination_by data.length * 8 - bit
decreasing_by
  have := decodeBlock_advances _h
  omega

theorem decodeDeflate_eq (data : List UInt8) (member bit : Nat) (blocks : List Block) (out : α) :
    decodeDeflate data member bit blocks out =
      match decodeBlock data member bit out with
      | .error error => .error error
      | .ok (out, block, bit) =>
        if block.finalBlock then .ok (out, blocks ++ [block], bit)
        else decodeDeflate data member bit (blocks ++ [block]) out := by
  rw [decodeDeflate]
  split <;> simp only [*]

theorem decodeDeflate_advances {data : List UInt8} {member bit next : Nat} {blocks blocks' : List Block}
    {out out' : α} (h : decodeDeflate data member bit blocks out = .ok (out', blocks', next)) :
    bit < next ∧ next ≤ data.length * 8 := by
  induction bit, blocks, out using @decodeDeflate.induct α _ data member with
  | case1 bit blocks out error hblock => simp [decodeDeflate_eq, hblock] at h
  | case2 bit blocks out out1 block after hblock hfinal =>
    have := decodeBlock_advances hblock
    rw [decodeDeflate_eq, hblock] at h
    dsimp only at h
    rw [if_pos hfinal] at h
    simp only [Except.ok.injEq, Prod.mk.injEq] at h
    omega
  | case3 bit blocks out out1 block after hblock hmore ih =>
    have := decodeBlock_advances hblock
    rw [decodeDeflate_eq, hblock] at h
    dsimp only at h
    rw [if_neg hmore] at h
    have := ih h
    omega

/-- The loop of `decode_segment`: up to the final block or the first dynamic one that ends at or
behind `stopBit`. The output may change between blocks. -/
def decodeUntil (data : List UInt8) (stopBit : Nat) (afterBlock : α → α) (bit : Nat)
    (blocks : List Block) (out : α) : Result (α × List Block × Nat × Bool) :=
  match _h : decodeBlock data 0 bit out with
  | .error error => .error error
  | .ok (out, block, bit) =>
    if block.finalBlock then .ok (afterBlock out, blocks ++ [block], Bits.alignByte bit, true)
    else if stopBit ≤ bit ∧ block.kind = .dynamicHuffman then
      .ok (afterBlock out, blocks ++ [block], bit, false)
    else decodeUntil data stopBit afterBlock bit (blocks ++ [block]) (afterBlock out)
termination_by data.length * 8 - bit
decreasing_by
  have := decodeBlock_advances _h
  omega

theorem decodeUntil_eq (data : List UInt8) (stopBit : Nat) (afterBlock : α → α) (bit : Nat)
    (blocks : List Block) (out : α) :
    decodeUntil data stopBit afterBlock bit blocks out =
      match decodeBlock data 0 bit out with
      | .error error => .error error
      | .ok (out, block, bit) =>
        if block.finalBlock then .ok (afterBlock out, blocks ++ [block], Bits.alignByte bit, true)
        else if stopBit ≤ bit ∧ block.kind = .dynamicHuffman then
          .ok (afterBlock out, blocks ++ [block], bit, false)
        else decodeUntil data stopBit afterBlock bit (blocks ++ [block]) (afterBlock out) := by
  rw [decodeUntil]
  split <;> simp only [*]

end Decode

end Fbz.Deflate
