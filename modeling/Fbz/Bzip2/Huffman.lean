import Fbz.Bzip2.Bits

/-!
# Huffman tables of bzip2

Canonical codes of one to twenty bits. Codes of up to twelve bits are found in a table by the next
twelve bits, the others by comparing with the last code of each length.
-/

namespace Fbz.Bzip2

def maxCodeLen : Nat := 20

def lutBits : Nat := 12

def lutSize : Nat := 2 ^ lutBits

/-- An entry of `lut` packs a length and a symbol; the length is zero where no short code leads. -/
structure Huffman where
  minLen : Nat
  maxLen : Nat
  limit : Nat → Int
  base : Nat → Int
  symbols : List Nat
  lut : List (Nat × Nat)
  minLen_pos : 0 < minLen
  lut_length : ∀ entry ∈ lut, entry.1 ≤ lutBits

namespace Huffman

/-- `counts[length]`. -/
def codeCount (lengths : List Nat) (length : Nat) : Nat := lengths.count length

/-- The first canonical code of each length, as `next_code` begins. -/
def firstCode (lengths : List Nat) : Nat → Nat
  | 0 => 0
  | length + 1 => (firstCode lengths length + codeCount lengths length) <<< 1

/-- The check on every length of the loop that fills `next_code`. -/
def oversubscribed (lengths : List Nat) : Bool :=
  (List.range' 1 maxCodeLen).any fun length =>
    firstCode lengths length + codeCount lengths length > 2 ^ length

/-- `lut[start..start + fill].fill(entry)`. -/
def fillRange (lut : List (Nat × Nat)) (start fill : Nat) (entry : Nat × Nat) :
    List (Nat × Nat) :=
  lut.take start ++ List.replicate fill entry ++ lut.drop (start + fill)

/-- The loop over the symbols, with the next code of each length. -/
def fillLut : List (Nat × Nat) → (Nat → Nat) → List (Nat × Nat) → List (Nat × Nat)
  | [], _, lut => lut
  | (length, symbol) :: rest, nextCode, lut =>
    let canonical := nextCode length
    let nextCode := fun other => if other = length then canonical + 1 else nextCode other
    if length ≤ lutBits then
      let fill := 2 ^ (lutBits - length)
      fillLut rest nextCode (fillRange lut (canonical * fill) fill (length, symbol))
    else fillLut rest nextCode lut

/-- The symbols in the order of their codes. -/
def codeOrder (lengths : List Nat) (minLen maxLen : Nat) : List Nat :=
  (List.range' minLen (maxLen + 1 - minLen)).flatMap fun length =>
    lengths.zipIdx.filterMap fun (value, symbol) => if value = length then some symbol else none

/-- `base` behind the loop that adds it up: how many codes are shorter. -/
def shorterCodes (lengths : List Nat) : Nat → Nat
  | 0 => 0
  | length + 1 => shorterCodes lengths length + codeCount lengths length

/-- `limit` between the lengths there are, one less than the code behind the last one. -/
def codeLimit (lengths : List Nat) (minLen maxLen length : Nat) : Int :=
  if minLen ≤ length ∧ length ≤ maxLen then value lengths minLen (length - minLen) - 1 else 0
where
  /-- `value` when `limit` is set, this many lengths behind the first. -/
  value (lengths : List Nat) (minLen : Nat) : Nat → Int
    | 0 => codeCount lengths minLen
    | count + 1 => 2 * value lengths minLen count + codeCount lengths (minLen + count + 1)

/-- What is taken off a code to find its place in the order. -/
def codeBase (lengths : List Nat) (minLen maxLen length : Nat) : Int :=
  if minLen < length ∧ length ≤ maxLen then
    2 * (codeLimit lengths minLen maxLen (length - 1) + 1) - shorterCodes lengths length
  else shorterCodes lengths length

/-- Lengths of entries keep within the table's bits. -/
private def Short (lut : List (Nat × Nat)) : Prop := ∀ entry ∈ lut, entry.1 ≤ lutBits

private theorem fillRange_short {lut : List (Nat × Nat)} {start fill : Nat} {entry : Nat × Nat}
    (h : Short lut) (short : entry.1 ≤ lutBits) : Short (fillRange lut start fill entry) := by
  intro other hmem
  simp only [fillRange, List.mem_append] at hmem
  rcases hmem with (hmem | hmem) | hmem
  · exact h other (List.mem_of_mem_take hmem)
  · rw [List.eq_of_mem_replicate hmem]
    exact short
  · exact h other (List.mem_of_mem_drop hmem)

private theorem fillLut_short {symbols : List (Nat × Nat)} {nextCode : Nat → Nat}
    {lut : List (Nat × Nat)} (h : Short lut) : Short (fillLut symbols nextCode lut) := by
  induction symbols generalizing nextCode lut with
  | nil => exact h
  | cons entry rest ih =>
    obtain ⟨length, symbol⟩ := entry
    rw [fillLut]
    split
    case isTrue hlength => exact ih (fillRange_short h hlength)
    case isFalse => exact ih h

def build (lengths : List Nat) (bitOffset : Nat) : Result Huffman :=
  match lengths.min?, lengths.max? with
  | some minLen, some maxLen =>
    if _h : minLen = 0 ∨ maxLen > maxCodeLen then
      .error (decodeError bitOffset .invalidHuffman)
    else if oversubscribed lengths then .error (decodeError bitOffset .invalidHuffman)
    else .ok {
      minLen, maxLen
      limit := codeLimit lengths minLen maxLen
      base := codeBase lengths minLen maxLen
      symbols := codeOrder lengths minLen maxLen
      lut := fillLut lengths.zipIdx (firstCode lengths) (List.replicate lutSize (0, 0))
      minLen_pos := by omega
      lut_length := fillLut_short fun entry hmem => by
        rw [List.eq_of_mem_replicate hmem]
        exact Nat.zero_le _ }
  | _, _ => .error (decodeError bitOffset .invalidHuffman)

/-- The symbol at a place of the order. -/
def symbolAt (huffman : Huffman) (index : Int) : Option Nat :=
  if 0 ≤ index then huffman.symbols[index.toNat]? else none

/-- The loop of `decode`, with the lengths still to try behind this one. -/
def search (huffman : Huffman) (data : List UInt8) : Nat → Nat → Int → Nat → Result (Nat × Nat)
  | more, length, code, bit =>
    if code ≤ huffman.limit length then
      match huffman.symbolAt (code - huffman.base length) with
      | some symbol => .ok (symbol, bit)
      | none => .error (decodeError bit .invalidHuffman)
    else
      match more with
      | 0 => .error (decodeError bit .invalidHuffman)
      | more + 1 => do
        let (next, bit) ← Bits.read data bit 1
        search huffman data more (length + 1) (code * 2 + next) bit

/-- The entry for the next twelve bits, if there are as many. -/
def lookup (huffman : Huffman) (data : List UInt8) (bit : Nat) : Result (Nat × Nat) :=
  if lutBits ≤ Bits.remaining data bit then do
    let index ← Bits.peek data bit lutBits
    return huffman.lut.getD index (0, 0)
  else .ok (0, 0)

/-- A symbol and the position behind its code. -/
def decode (huffman : Huffman) (data : List UInt8) (bit : Nat) : Result (Nat × Nat) := do
  let (length, symbol) ← huffman.lookup data bit
  if length ≠ 0 then return (symbol, bit + length)
  let (code, bit) ← Bits.read data bit huffman.minLen
  search huffman data (huffman.maxLen - huffman.minLen) huffman.minLen code bit

private theorem search_next {huffman : Huffman} {data : List UInt8}
    {more length bit symbol next : Nat}
    {code : Int} (h : search huffman data more length code bit = .ok (symbol, next))
    (fits : bit ≤ data.length * 8) : bit ≤ next ∧ next ≤ data.length * 8 := by
  induction more generalizing length code bit with
  | zero =>
    rw [search] at h
    split at h
    · split at h
      · obtain ⟨-, rfl⟩ := Prod.mk.inj (Except.ok.inj h)
        exact ⟨Nat.le_refl _, fits⟩
      · cases h
    · cases h
  | succ more ih =>
    rw [search] at h
    split at h
    · split at h
      · obtain ⟨-, rfl⟩ := Prod.mk.inj (Except.ok.inj h)
        exact ⟨Nat.le_refl _, fits⟩
      · cases h
    · obtain ⟨⟨value, bit'⟩, hread, h⟩ := result_bind_eq_ok.mp h
      have hnext := Bits.read_next hread
      have := ih h (by omega)
      omega

private theorem lookup_fits {huffman : Huffman} {data : List UInt8} {bit length symbol : Nat}
    (h : huffman.lookup data bit = .ok (length, symbol)) (found : length ≠ 0) :
    bit + length ≤ data.length * 8 := by
  unfold lookup Bits.remaining at h
  split at h
  case isTrue hremaining =>
    obtain ⟨index, -, h⟩ := result_bind_eq_ok.mp h
    have hentry := Except.ok.inj h
    rw [List.getD_eq_getElem?_getD] at hentry
    cases hget : huffman.lut[index]? with
    | none =>
      rw [hget] at hentry
      exact absurd (Prod.mk.inj hentry).1.symm found
    | some entry =>
      rw [hget, Option.getD_some] at hentry
      have := huffman.lut_length entry (List.mem_of_getElem? hget)
      rw [hentry] at this
      dsimp only at this
      omega
  case isFalse => exact absurd (Prod.mk.inj (Except.ok.inj h)).1.symm found

theorem decode_next {huffman : Huffman} {data : List UInt8} {bit symbol next : Nat}
    (h : huffman.decode data bit = .ok (symbol, next)) : bit < next ∧ next ≤ data.length * 8 := by
  obtain ⟨⟨length, found⟩, hlookup, h⟩ := result_bind_eq_ok.mp h
  dsimp only at h
  split at h
  case isTrue hlength =>
    obtain ⟨-, rfl⟩ := Prod.mk.inj (Except.ok.inj h)
    have := lookup_fits hlookup hlength
    omega
  case isFalse =>
    obtain ⟨⟨code, bit'⟩, hread, h⟩ := result_bind_eq_ok.mp h
    have hnext := Bits.read_next hread
    have hpos := huffman.minLen_pos
    have := search_next h (by omega)
    omega

end Huffman

end Fbz.Bzip2
