import Fbz.Deflate.Block
import Fbz.Deflate.CheckedHuffman

/-!
# DEFLATE blocks, with every index checked

The block decoder over any output that does not panic while it keeps an invariant. A loop has fuel
for the bits there are; running out of it counts as a panic, and it never does.
-/

namespace Fbz.Deflate

open Checked DeflateOutput

def readCodeLengths? (data : List UInt8) : List Nat → Nat → List Nat →
    Program Error (List Nat × Nat)
  | [], bit, codeLengths => return (codeLengths, bit)
  | symbol :: order, bit, codeLengths => do
    let (length, bit) ← Bits.read? data bit 3
    let codeLengths ← store codeLengths symbol length
    readCodeLengths? data order bit codeLengths

/-- `append_lengths` with the bits that say how often. -/
def repeatLength? (data : List UInt8) (lengths : List Nat) (total value base count bit : Nat) :
    Program Error (List Nat × Nat) := do
  let (extra, bit) ← Bits.read? data bit count
  let times ← add 64 extra base
  let lengths ← (liftM (appendLengths lengths total value times bit) : Program Error (List Nat))
  return (lengths, bit)

def readLength? (data : List UInt8) (codeTable : CheckedTable) (total bit : Nat)
    (lengths : List Nat) : Program Error (List Nat × Nat) := do
  let (symbol, bit) ← codeTable.decode? data bit
  if symbol ≤ 15 then return (lengths ++ [symbol], bit)
  else if symbol = 16 then
    let previous ← (liftM (okOr (invalidBit bit "repeat code 16 has no previous length")
      lengths.getLast?) : Program Error Nat)
    repeatLength? data lengths total previous 3 2 bit
  else if symbol = 17 then repeatLength? data lengths total 0 3 3 bit
  else if symbol = 18 then repeatLength? data lengths total 0 11 7 bit
  else throw (invalidBit bit s!"invalid code-length symbol {symbol}")

def readLengths? (data : List UInt8) (codeTable : CheckedTable) (total : Nat) :
    Nat → Nat → List Nat → Program Error (List Nat × Nat)
  | 0, _, _ => liftM (none : Option (List Nat × Nat))
  | fuel + 1, bit, lengths =>
    if lengths.length < total then do
      let (lengths, bit) ← readLength? data codeTable total bit lengths
      readLengths? data codeTable total fuel bit lengths
    else return (lengths, bit)

def dynamicTables? (data : List UInt8) (bit : Nat) :
    Program Error ((CheckedTable × CheckedTable) × Nat) := do
  let (literals, bit) ← Bits.read? data bit 5
  let literalCount ← add 64 literals 257
  let (distances, bit) ← Bits.read? data bit 5
  let distanceCount ← add 64 distances 1
  let (codes, bit) ← Bits.read? data bit 4
  let codeCount ← add 64 codes 4
  let order ← range codeLengthOrder 0 codeCount
  let (codeLengths, bit) ← readCodeLengths? data order bit (List.replicate 19 0)
  let codeTable ← CheckedTable.new? codeLengths
  let total ← add 64 literalCount distanceCount
  let (lengths, bit) ← readLengths? data codeTable total (data.length * 8 + 1) bit []
  let endOfBlock ← (index lengths 256 : Option Nat)
  liftM (ensure (endOfBlock ≠ 0) (invalidBit bit "literal/length table has no end-of-block symbol"))
  let literals ← range lengths 0 literalCount
  let literal ← CheckedTable.new? literals
  let distances ← range lengths literalCount lengths.length
  let distance ← CheckedTable.new? distances
  return ((literal, distance), bit)

/-- The lengths of the fixed literal table, filled range by range. -/
def fixedLengths? : Option (List Nat) := do
  let lengths ← fill (List.replicate 288 0) 0 144 8
  let lengths ← fill lengths 144 256 9
  let lengths ← fill lengths 256 280 7
  fill lengths 280 lengths.length 8

def fixedTables? : Program Error (CheckedTable × CheckedTable) := do
  let lengths ← fixedLengths?
  let literal ← CheckedTable.new? lengths
  let distance ← CheckedTable.new? (List.replicate 32 5)
  return (literal, distance)

section Tables

variable {data : List UInt8} {bit total : Nat} {lengths : List Nat}

private theorem readCodeLengths?_returns {order codeLengths : List Nat}
    (inside : ∀ symbol ∈ order, symbol < codeLengths.length) :
    Returns (fun found other => found = other ∧ found.1.length = codeLengths.length)
      (readCodeLengths? data order bit codeLengths)
      (readCodeLengths data order bit codeLengths) := by
  induction order generalizing bit codeLengths with
  | nil => exact returns_ok ⟨rfl, rfl⟩
  | cons symbol order ih =>
    obtain ⟨hsymbol, horder⟩ := List.forall_mem_cons.mp inside
    apply (Bits.read?_returns (by decide)).bind
    rintro _ ⟨length, next⟩ _ rfl
    apply returns_step (store_of_lt hsymbol _)
    have hrest := @ih next (codeLengths.set symbol length) (by rw [List.length_set]; exact horder)
    rw [List.length_set] at hrest
    exact hrest

private theorem appendLengths_length {value count : Nat} {appended : List Nat}
    (h : appendLengths lengths total value count bit = .ok appended) : appended.length ≤ total := by
  obtain ⟨_, hensure, heq⟩ := result_bind_eq_ok.mp h
  rw [← Except.ok.inj heq, List.length_append, List.length_replicate]
  exact ensure_eq_ok.mp hensure

private theorem repeatLength?_returns {value base count : Nat} (few : count ≤ 7)
    (small : base ≤ 11) : Returns (fun found other => found = other ∧ found.1.length ≤ total)
      (repeatLength? data lengths total value base count bit)
      (Bits.read data bit count >>= fun (extra, bit) => do
        let lengths ← appendLengths lengths total value (extra + base) bit
        return (lengths, bit)) := by
  apply (Bits.read?_returns (by omega)).bind
  rintro _ ⟨extra, next⟩ hread rfl
  have hextra := Bits.read_lt hread
  have hpow : 2 ^ count ≤ 2 ^ 7 := Nat.pow_le_pow_right (by decide) few
  have hadd : extra + base < 2 ^ 64 := by omega
  apply returns_step (add_of_lt hadd)
  apply (returns_check _).bind
  rintro _ appended happended rfl
  exact returns_ok ⟨rfl, appendLengths_length happended⟩

private theorem readLength?_returns {checked : CheckedTable} {codeTable : Huffman}
    (same : checked.Represents codeTable) (more : lengths.length < total) :
    Returns (fun found other => found = other ∧ found.1.length ≤ total)
      (readLength? data checked total bit lengths)
      (readLength data codeTable total bit lengths) := by
  apply same.decode?_returns.bind
  rintro _ ⟨symbol, next⟩ _ rfl
  dsimp only
  split
  case isTrue =>
    apply returns_ok
    refine ⟨rfl, ?_⟩
    rw [List.length_append, List.length_singleton]
    exact more
  case isFalse =>
    split
    case isTrue =>
      apply (returns_check _).bind
      rintro _ previous _ rfl
      exact repeatLength?_returns (by decide) (by decide)
    case isFalse =>
      split
      case isTrue => exact repeatLength?_returns (by decide) (by decide)
      case isFalse =>
        split
        case isTrue => exact repeatLength?_returns (by decide) (by decide)
        case isFalse => exact returns_error _

private theorem readLengths_bind (data : List UInt8) (codeTable : Huffman) (total bit : Nat)
    (lengths : List Nat) :
    readLengths data codeTable total bit lengths =
      if lengths.length < total then
        readLength data codeTable total bit lengths >>= fun (lengths, next) =>
          readLengths data codeTable total next lengths
      else .ok (lengths, bit) := by
  rw [readLengths_eq]
  split
  case isTrue =>
    cases readLength data codeTable total bit lengths with
    | error error => rfl
    | ok found => rfl
  case isFalse => rfl

private theorem readLengths?_returns {checked : CheckedTable} {codeTable : Huffman} {fuel : Nat}
    (same : checked.Represents codeTable) (enough : data.length * 8 - bit < fuel)
    (le : lengths.length ≤ total) :
    Returns (fun found other => found = other ∧ found.1.length = total)
      (readLengths? data checked total fuel bit lengths)
      (readLengths data codeTable total bit lengths) := by
  induction fuel generalizing bit lengths with
  | zero => exact absurd enough (Nat.not_lt_zero _)
  | succ fuel ih =>
    rw [readLengths?, readLengths_bind]
    split
    case isTrue hmore =>
      apply (readLength?_returns same hmore).bind
      rintro ⟨next, bit'⟩ _ hread ⟨rfl, hnext⟩
      have hadvances := readLength_advances hread
      exact ih (by omega) hnext
    case isFalse hdone => exact returns_ok ⟨rfl, by dsimp only; omega⟩

/-- Both tables. -/
def SameTables (checked : CheckedTable × CheckedTable) (tables : Huffman × Huffman) : Prop :=
  checked.1.Represents tables.1 ∧ checked.2.Represents tables.2

theorem dynamicTables?_returns :
    Returns (fun found other => found.2 = other.2 ∧ SameTables found.1 other.1)
      (dynamicTables? data bit) (dynamicTables data bit) := by
  apply (Bits.read?_returns (by decide)).bind
  rintro _ ⟨literals, bit⟩ hliterals rfl
  have hliterals := Bits.read_lt hliterals
  have hliteralCount : literals + 257 < 2 ^ 64 := by omega
  apply returns_step (add_of_lt hliteralCount)
  apply (Bits.read?_returns (by decide)).bind
  rintro _ ⟨distances, bit⟩ hdistances rfl
  have hdistances := Bits.read_lt hdistances
  have hdistanceCount : distances + 1 < 2 ^ 64 := by omega
  apply returns_step (add_of_lt hdistanceCount)
  apply (Bits.read?_returns (by decide)).bind
  rintro _ ⟨codes, bit⟩ hcodes rfl
  have hcodes := Bits.read_lt hcodes
  have hcodeCount : codes + 4 < 2 ^ 64 := by omega
  have hall : codes + 4 ≤ codeLengthOrder.length := by
    show codes + 4 ≤ 19
    omega
  apply returns_step (add_of_lt hcodeCount)
  apply returns_step (range_of_le (Nat.zero_le _) hall)
  rw [List.drop_zero, Nat.sub_zero]
  have hinside : ∀ symbol ∈ codeLengthOrder.take (codes + 4),
      symbol < (List.replicate 19 0).length := by
    intro symbol hmem
    rw [List.length_replicate]
    exact (by decide : ∀ symbol ∈ codeLengthOrder, symbol < 19) symbol (List.mem_of_mem_take hmem)
  apply (readCodeLengths?_returns hinside).bind
  rintro ⟨codeLengths, bit⟩ _ _ ⟨rfl, hsize⟩
  have hsize : codeLengths.length = 19 := hsize
  apply (CheckedTable.new?_returns (by omega)).bind
  intro checked codeTable _ hcodeTable
  have htotal : literals + 257 + (distances + 1) < 2 ^ 64 := by omega
  apply returns_step (add_of_lt htotal)
  apply (readLengths?_returns hcodeTable (by omega) (Nat.zero_le _)).bind
  rintro ⟨lengths, bit⟩ _ _ ⟨rfl, hlengths⟩
  have hlengths : lengths.length = literals + 257 + (distances + 1) := hlengths
  have hend : index lengths 256 = some (lengths.getD 256 0) := by
    have hlt : 256 < lengths.length := by omega
    rw [index, List.getD_eq_getElem _ _ hlt, List.getElem?_eq_getElem hlt]
  apply returns_step hend
  apply (returns_check _).bind
  intro _ _ _ _
  apply returns_step (range_of_le (Nat.zero_le _) (by omega))
  rw [List.drop_zero, Nat.sub_zero]
  apply (CheckedTable.new?_returns (by rw [List.length_take]; omega)).bind
  intro literal literal' _ hliteral
  apply returns_step (range_of_le (by omega) (Nat.le_refl _))
  rw [List.take_of_length_le (Nat.le_of_eq List.length_drop)]
  apply (CheckedTable.new?_returns (by rw [List.length_drop]; omega)).bind
  intro distance distance' _ hdistance
  exact returns_ok ⟨rfl, hliteral, hdistance⟩

private theorem fixedLengths?_eq : fixedLengths? =
    some (List.replicate 144 8 ++ List.replicate 112 9 ++ List.replicate 24 7 ++
      List.replicate 8 8) := by
  have heights : fill (List.replicate 288 0) 0 144 8 =
      some (List.replicate 144 8 ++ List.replicate 144 0) :=
    @fill_tail _ [] 0 144 144 144 0 8 rfl rfl
  have hnines := @fill_tail _ (List.replicate 144 8) 144 256 112 32 0 9
    List.length_replicate rfl
  have hsevens := @fill_tail _ (List.replicate 144 8 ++ List.replicate 112 9) 256 280 24 8 0 7
    (by rw [List.length_append, List.length_replicate, List.length_replicate]) rfl
  have hlast := @fill_tail _ (List.replicate 144 8 ++ List.replicate 112 9 ++ List.replicate 24 7)
    280 288 8 0 0 8 (by
      rw [List.length_append, List.length_append, List.length_replicate, List.length_replicate,
        List.length_replicate]) rfl
  have hlength : (List.replicate 144 8 ++ List.replicate 112 9 ++ List.replicate 24 7 ++
      List.replicate 8 0).length = 288 := by
    rw [List.length_append, List.length_append, List.length_append, List.length_replicate,
      List.length_replicate, List.length_replicate, List.length_replicate]
  rw [fixedLengths?, bind_of_some heights, bind_of_some hnines, bind_of_some hsevens, hlength]
  exact hlast.trans (congrArg some (List.append_nil _))

private theorem fixedTables?_returns : Returns SameTables fixedTables? fixedTables := by
  apply returns_step fixedLengths?_eq
  apply (CheckedTable.new?_returns (by
    rw [List.length_append, List.length_append, List.length_append, List.length_replicate,
      List.length_replicate, List.length_replicate, List.length_replicate]
    decide)).bind
  intro literal literal' _ hliteral
  apply (CheckedTable.new?_returns (by rw [List.length_replicate]; decide)).bind
  intro distance distance' _ hdistance
  exact returns_ok ⟨hliteral, hdistance⟩

end Tables

/-- An output whose steps may panic. -/
class CheckedOutput (α : Type) where
  emit? : α → UInt8 → Program Error α
  extend? : α → List UInt8 → Program Error α
  copy? : α → Nat → Nat → Program Error α

def Op.run? {α : Type} [CheckedOutput α] (out : α) : Op → Program Error α
  | emit byte => CheckedOutput.emit? out byte
  | extend bytes => CheckedOutput.extend? out bytes
  | copy distance length => CheckedOutput.copy? out distance length

/-- In these states an output does not panic; it stays in them and only grows. -/
def Sound {α : Type} [DeflateOutput α] [CheckedOutput α] (Inv : α → Prop) : Prop :=
  ∀ (out : α) (op : Op), Inv out → Returns (fun next other => next = other ∧ Inv next ∧
    totalDecoded out ≤ totalDecoded next) (op.run? out) (op.run out)

def readMatch? (data : List UInt8) (distance : CheckedTable) (symbol bit : Nat) :
    Program Error (Op × Nat) := do
  let lengthIndex ← sub symbol 257
  let least ← (index lengthBase lengthIndex : Option Nat)
  let count ← (index lengthExtra lengthIndex : Option Nat)
  let (extra, bit) ← Bits.read? data bit count
  let length ← add 64 least extra
  let (distanceSymbol, bit) ← distance.decode? data bit
  liftM (ensure (distanceSymbol < distanceBase.length)
    (invalidBit bit s!"invalid distance symbol {distanceSymbol}"))
  let nearest ← (index distanceBase distanceSymbol : Option Nat)
  let count ← (index distanceExtra distanceSymbol : Option Nat)
  let (extra, bit) ← Bits.read? data bit count
  let back ← add 64 nearest extra
  return (.copy back length, bit)

def readInstruction? (data : List UInt8) (literal distance : CheckedTable) (bit : Nat) :
    Program Error (Option Op × Nat) := do
  let (symbol, bit) ← literal.decode? data bit
  if symbol ≤ 255 then return (some (.emit (UInt8.ofNat symbol)), bit)
  else if symbol = 256 then return (none, bit)
  else if symbol ≤ 285 then
    let (op, bit) ← readMatch? data distance symbol bit
    return (some op, bit)
  else throw (invalidBit bit s!"invalid literal/length symbol {symbol}")

section Blocks

variable {α : Type} [DeflateOutput α] [CheckedOutput α]

def decodeStored? (data : List UInt8) (bit : Nat) (out : α) : Program Error (α × Nat) := do
  let (length, bit) ← Bits.read? data (Bits.alignByte bit) 16
  let (complement, bit) ← Bits.read? data bit 16
  liftM (ensure (length = 2 ^ 16 - 1 - complement)
    (invalidBit (bit - 16) "stored-block LEN/NLEN mismatch"))
  let (bytes, bit) ← Bits.readAlignedBytes? data bit length
  let out ← CheckedOutput.extend? out bytes
  return (out, bit)

def decodeHuffmanBlock? (data : List UInt8) (literal distance : CheckedTable) :
    Nat → Nat → α → Program Error (α × Nat)
  | 0, _, _ => liftM (none : Option (α × Nat))
  | fuel + 1, bit, out => do
    let (instruction, bit) ← readInstruction? data literal distance bit
    match instruction with
    | none => return (out, bit)
    | some op =>
      let out ← op.run? out
      decodeHuffmanBlock? data literal distance fuel bit out

def decodeBody? (data : List UInt8) (kind bit : Nat) (out : α) :
    Program Error (α × BlockKind × Nat) :=
  if kind = 0 then do
    let (out, bit) ← decodeStored? data bit out
    return (out, .stored, bit)
  else if kind = 1 then do
    let (literal, distance) ← fixedTables?
    let (out, bit) ← decodeHuffmanBlock? data literal distance (data.length * 8 + 1) bit out
    return (out, .fixedHuffman, bit)
  else if kind = 2 then do
    let ((literal, distance), bit) ← dynamicTables? data bit
    let (out, bit) ← decodeHuffmanBlock? data literal distance (data.length * 8 + 1) bit out
    return (out, .dynamicHuffman, bit)
  else throw (invalidBit (bit - 2) "reserved DEFLATE block type")

def decodeBlock? (data : List UInt8) (member bit : Nat) (out : α) :
    Program Error (α × Block × Nat) := do
  let (final, bit') ← Bits.read? data bit 1
  let (kind, bit') ← Bits.read? data bit' 2
  let (out', kind, bit') ← decodeBody? data kind bit' out
  let decodedLen ← sub (totalDecoded out') (totalDecoded out)
  return (out', ⟨member, kind, final ≠ 0, bit, bit', totalDecoded out, decodedLen⟩, bit')

variable {data : List UInt8} {bit : Nat} {Inv : α → Prop} {out : α}
  {checked : CheckedTable × CheckedTable} {tables : Huffman × Huffman}

private theorem readMatch?_returns {symbol : Nat} (same : SameTables checked tables)
    (lo : 257 ≤ symbol) (hi : symbol ≤ 285) :
    Returns Eq (readMatch? data checked.2 symbol bit) (readMatch data tables.2 symbol bit) := by
  have hlengthBase : ∀ i < 29, index lengthBase i = some (lengthBase.getD i 0) ∧
      lengthBase.getD i 0 ≤ 258 := by decide
  have hlengthExtra : ∀ i < 29, index lengthExtra i = some (lengthExtra.getD i 0) ∧
      lengthExtra.getD i 0 ≤ 5 := by decide
  have hdistanceBase : ∀ i < 30, index distanceBase i = some (distanceBase.getD i 0) ∧
      distanceBase.getD i 0 ≤ 24577 := by decide
  have hdistanceExtra : ∀ i < 30, index distanceExtra i = some (distanceExtra.getD i 0) ∧
      distanceExtra.getD i 0 ≤ 13 := by decide
  obtain ⟨hbase, hleast⟩ := hlengthBase (symbol - 257) (by omega)
  obtain ⟨hextra, hcount⟩ := hlengthExtra (symbol - 257) (by omega)
  apply returns_step (sub_of_le lo)
  apply returns_step hbase
  apply returns_step hextra
  apply (Bits.read?_returns (by omega)).bind
  rintro _ ⟨extra, next⟩ hread rfl
  have hlt := Bits.read_lt hread
  have hpow : 2 ^ lengthExtra.getD (symbol - 257) 0 ≤ 2 ^ 5 :=
    Nat.pow_le_pow_right (by decide) hcount
  have hadd : lengthBase.getD (symbol - 257) 0 + extra < 2 ^ 64 := by omega
  apply returns_step (add_of_lt hadd)
  apply same.2.decode?_returns.bind
  rintro _ ⟨distanceSymbol, next'⟩ _ rfl
  apply (returns_check _).bind
  intro _ _ hensure _
  have hinside : distanceSymbol < 30 := ensure_eq_ok.mp hensure
  obtain ⟨hbase', hnearest⟩ := hdistanceBase distanceSymbol hinside
  obtain ⟨hextra', hcount'⟩ := hdistanceExtra distanceSymbol hinside
  apply returns_step hbase'
  apply returns_step hextra'
  apply (Bits.read?_returns (by omega)).bind
  rintro _ ⟨extra', next''⟩ hread' rfl
  have hlt' := Bits.read_lt hread'
  have hpow' : 2 ^ distanceExtra.getD distanceSymbol 0 ≤ 2 ^ 13 :=
    Nat.pow_le_pow_right (by decide) hcount'
  have hadd' : distanceBase.getD distanceSymbol 0 + extra' < 2 ^ 64 := by omega
  apply returns_step (add_of_lt hadd')
  exact returns_ok rfl

private theorem readInstruction?_returns (same : SameTables checked tables) :
    Returns Eq (readInstruction? data checked.1 checked.2 bit)
      (readInstruction data tables.1 tables.2 bit) := by
  apply same.1.decode?_returns.bind
  rintro _ ⟨symbol, next⟩ _ rfl
  dsimp only
  split
  case isTrue => exact returns_ok rfl
  case isFalse hliteral =>
    split
    case isTrue => exact returns_ok rfl
    case isFalse hend =>
      split
      case isTrue hlength =>
        apply (readMatch?_returns same (by omega) hlength).bind
        rintro _ ⟨op, next'⟩ _ rfl
        exact returns_ok rfl
      case isFalse => exact returns_error _

variable (sound : Sound Inv)

include sound

private theorem decodeStored?_returns (inv : Inv out) :
    Returns (fun found other => found = other ∧ Inv found.1 ∧
        totalDecoded out ≤ totalDecoded found.1)
      (decodeStored? data bit out) (decodeStored data bit out) := by
  apply (Bits.read?_returns (by decide)).bind
  rintro _ ⟨length, next⟩ _ rfl
  apply (Bits.read?_returns (by decide)).bind
  rintro _ ⟨complement, next'⟩ _ rfl
  apply (returns_check _).bind
  intro _ _ _ _
  apply Bits.readAlignedBytes?_returns.bind
  rintro _ ⟨bytes, next''⟩ _ rfl
  apply (sound out (.extend bytes) inv).bind
  rintro after _ _ ⟨rfl, hinv, hgrows⟩
  exact returns_ok ⟨rfl, hinv, hgrows⟩

omit [CheckedOutput α] sound in
private theorem decodeHuffmanBlock_bind (data : List UInt8) (literal distance : Huffman) (bit : Nat)
    (out : α) :
    decodeHuffmanBlock data literal distance bit out =
      readInstruction data literal distance bit >>= fun (instruction, bit) =>
        match instruction with
        | none => .ok (out, bit)
        | some op => op.run out >>= fun out => decodeHuffmanBlock data literal distance bit out := by
  rw [decodeHuffmanBlock_eq]
  cases readInstruction data literal distance bit with
  | error error => rfl
  | ok found =>
    obtain ⟨instruction, next⟩ := found
    cases instruction with
    | none => rfl
    | some op =>
      dsimp only
      rw [result_bind_ok]
      dsimp only
      cases op.run out with
      | error error => rfl
      | ok next => rfl

private theorem decodeHuffmanBlock?_returns {fuel : Nat} (same : SameTables checked tables)
    (enough : data.length * 8 - bit < fuel) (inv : Inv out) :
    Returns (fun found other => found = other ∧ Inv found.1 ∧
        totalDecoded out ≤ totalDecoded found.1)
      (decodeHuffmanBlock? data checked.1 checked.2 fuel bit out)
      (decodeHuffmanBlock data tables.1 tables.2 bit out) := by
  induction fuel generalizing bit out with
  | zero => exact absurd enough (Nat.not_lt_zero _)
  | succ fuel ih =>
    rw [decodeHuffmanBlock?, decodeHuffmanBlock_bind]
    apply (readInstruction?_returns same).bind
    rintro _ ⟨instruction, next⟩ hread rfl
    have hadvances := readInstruction_advances hread
    cases instruction with
    | none => exact returns_ok ⟨rfl, inv, Nat.le_refl _⟩
    | some op =>
      apply (sound out op inv).bind
      rintro after _ _ ⟨rfl, hinv, hgrows⟩
      apply (ih (by omega) hinv).mono
      rintro found other _ ⟨rfl, hlast, hmore⟩
      exact ⟨rfl, hlast, Nat.le_trans hgrows hmore⟩

private theorem decodeBody?_returns {kind : Nat} (inv : Inv out) :
    Returns (fun found other => found = other ∧ Inv found.1 ∧
        totalDecoded out ≤ totalDecoded found.1)
      (decodeBody? data kind bit out) (decodeBody data kind bit out) := by
  rw [decodeBody?, decodeBody]
  split
  case isTrue =>
    apply (decodeStored?_returns sound inv).bind
    rintro ⟨after, next⟩ _ _ ⟨rfl, hinv, hgrows⟩
    exact returns_ok ⟨rfl, hinv, hgrows⟩
  case isFalse =>
    split
    case isTrue =>
      apply fixedTables?_returns.bind
      intro checked tables _ hsame
      apply (decodeHuffmanBlock?_returns sound hsame (by omega) inv).bind
      rintro ⟨after, next⟩ _ _ ⟨rfl, hinv, hgrows⟩
      exact returns_ok ⟨rfl, hinv, hgrows⟩
    case isFalse =>
      split
      case isTrue =>
        apply dynamicTables?_returns.bind
        rintro ⟨checked, next⟩ ⟨tables, _⟩ _ ⟨rfl, hsame⟩
        apply (decodeHuffmanBlock?_returns sound hsame (by omega) inv).bind
        rintro ⟨after, next⟩ _ _ ⟨rfl, hinv, hgrows⟩
        exact returns_ok ⟨rfl, hinv, hgrows⟩
      case isFalse => exact returns_error _

theorem decodeBlock?_returns {member : Nat} (inv : Inv out) :
    Returns (fun found other => found = other ∧ Inv found.1)
      (decodeBlock? data member bit out) (decodeBlock data member bit out) := by
  apply (Bits.read?_returns (by decide)).bind
  rintro _ ⟨final, next⟩ _ rfl
  apply (Bits.read?_returns (by decide)).bind
  rintro _ ⟨kind, next'⟩ _ rfl
  apply (decodeBody?_returns sound inv).bind
  rintro ⟨after, kind', next''⟩ _ _ ⟨rfl, hinv, hgrows⟩
  apply returns_step (sub_of_le hgrows)
  exact returns_ok ⟨rfl, hinv⟩

end Blocks

end Fbz.Deflate
