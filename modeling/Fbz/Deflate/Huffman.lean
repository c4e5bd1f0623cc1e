import Fbz.Deflate.Bits

/-!
# Huffman tables

Canonical decoding tables of DEFLATE, indexed by the next bits of the stream.
-/

namespace Fbz.Deflate

def maxCodeBits : Nat := 15

/-- An entry no code leads to, `u16::MAX`. -/
def noCode : Nat := 2 ^ 16 - 1

theorem foldl_max_le {lengths : List Nat} {bound : Nat} (h : ∀ length ∈ lengths, length ≤ bound) :
    lengths.foldl max 0 ≤ bound := by
  have hfold : ∀ (lengths : List Nat) (first : Nat), first ≤ bound →
      (∀ length ∈ lengths, length ≤ bound) → lengths.foldl max first ≤ bound := by
    intro lengths
    induction lengths with
    | nil => exact fun _ hfirst _ => hfirst
    | cons length lengths ih =>
      intro first hfirst hall
      have := hall length List.mem_cons_self
      exact ih _ (by omega) fun other hmem => hall other (List.mem_cons_of_mem _ hmem)
  exact hfold lengths 0 (Nat.zero_le _) h

theorem le_foldl_max {lengths : List Nat} {length : Nat} (first : Nat) (mem : length ∈ lengths) :
    length ≤ lengths.foldl max first := by
  have hgrows : ∀ (lengths : List Nat) (first : Nat), first ≤ lengths.foldl max first := by
    intro lengths
    induction lengths with
    | nil => exact fun _ => Nat.le_refl _
    | cons head lengths ih => exact fun first => Nat.le_trans (Nat.le_max_left _ _) (ih _)
  induction lengths generalizing first with
  | nil => cases mem
  | cons head lengths ih =>
    rcases List.mem_cons.mp mem with rfl | hmem
    · exact Nat.le_trans (Nat.le_max_right _ _) (hgrows lengths _)
    · exact ih _ hmem

/-- A table of `bit length << 9 | symbol`; every code takes at least one bit. -/
structure Huffman where
  table : List Nat
  maxBits : Nat
  takes_bits : ∀ packed ∈ table, packed ≠ noCode → 0 < packed >>> 9

namespace Huffman

/-- How many symbols have codes of this length; the length zero is not counted. -/
def codeCount (lengths : List Nat) (length : Nat) : Nat :=
  if length = 0 then 0 else lengths.count length

/-- The codes left over after each length; negative when there are too many. -/
def checkCounts : List Nat → Int → Bool
  | [], _ => true
  | count :: counts, remaining =>
    if remaining * 2 - count < 0 then false else checkCounts counts (remaining * 2 - count)

/-- The first canonical code of each length. -/
def firstCode (lengths : List Nat) : Nat → Nat
  | 0 => 0
  | length + 1 => (firstCode lengths length + codeCount lengths length) * 2

/-- The low `count` bits in the opposite order. -/
def reverseLowBits (value : Nat) : Nat → Nat
  | 0 => 0
  | count + 1 => value % 2 * 2 ^ count + reverseLowBits (value / 2) count

/-- The entries of one symbol: its code with every suffix. -/
def fillSymbol (table : List Nat) (reversed length suffixBits packed : Nat) : List Nat :=
  (List.range (2 ^ suffixBits)).foldl
    (fun table suffix => table.set (reversed ||| suffix <<< length) packed) table

/-- The loop over the symbols, with the next code of each length. -/
def fillTable (maxBits : Nat) : List (Nat × Nat) → (Nat → Nat) → List Nat → List Nat
  | [], _, table => table
  | (length, symbol) :: rest, nextCode, table =>
    if length = 0 then fillTable maxBits rest nextCode table
    else
      let reversed := reverseLowBits (nextCode length) length
      fillTable maxBits rest
        (fun other => if other = length then nextCode length + 1 else nextCode other)
        (fillSymbol table reversed length (maxBits - length) (length <<< 9 ||| symbol))

private theorem packed_takes_bits {length symbol : Nat} (pos : 0 < length) :
    0 < (length <<< 9 ||| symbol) >>> 9 := by
  have hle : length <<< 9 >>> 9 ≤ (length <<< 9 ||| symbol) >>> 9 := by
    rw [Nat.shiftRight_or_distrib]
    exact Nat.left_le_or
  rw [Nat.shiftLeft_shiftRight] at hle
  omega

/-- Entries take bits when they are codes. -/
private def TakesBits (table : List Nat) : Prop :=
  ∀ packed ∈ table, packed ≠ noCode → 0 < packed >>> 9

private theorem fillSymbol_takesBits {table : List Nat} {reversed length suffixBits packed : Nat}
    (h : TakesBits table) (pos : 0 < packed >>> 9) :
    TakesBits (fillSymbol table reversed length suffixBits packed) := by
  unfold fillSymbol
  generalize List.range (2 ^ suffixBits) = suffixes
  induction suffixes generalizing table with
  | nil => exact h
  | cons suffix suffixes ih =>
    refine ih fun other hmem hne => ?_
    rcases List.mem_or_eq_of_mem_set hmem with hold | rfl
    · exact h other hold hne
    · exact pos

private theorem fillTable_takesBits {maxBits : Nat} {symbols : List (Nat × Nat)}
    {nextCode : Nat → Nat} {table : List Nat} (h : TakesBits table) :
    TakesBits (fillTable maxBits symbols nextCode table) := by
  induction symbols generalizing nextCode table with
  | nil => exact h
  | cons entry rest ih =>
    obtain ⟨length, symbol⟩ := entry
    rw [fillTable]
    split
    · exact ih h
    · exact ih (fillSymbol_takesBits h (packed_takes_bits (by omega)))

def new (lengths : List Nat) : Result Huffman := do
  ensure (∀ length ∈ lengths, length ≤ maxCodeBits)
    (invalid (s!"Huffman code length {(lengths.find? (maxCodeBits < ·)).getD 0} exceeds " ++
      s!"{maxCodeBits}"))
  let maxBits := lengths.foldl max 0
  if maxBits = 0 then return ⟨[], 0, nofun⟩
  ensure (checkCounts ((List.range maxCodeBits).map fun i => codeCount lengths (i + 1)) 1)
    (invalid "oversubscribed Huffman table")
  return ⟨fillTable maxBits lengths.zipIdx (firstCode lengths)
      (List.replicate (2 ^ maxBits) noCode), maxBits,
    fillTable_takesBits fun _ hmem hne => absurd (List.eq_of_mem_replicate hmem) hne⟩

/-- A symbol and the position behind its code. -/
def decode (huffman : Huffman) (data : List UInt8) (bit : Nat) : Result (Nat × Nat) := do
  ensure (huffman.maxBits ≠ 0) (invalidBit bit "attempted to decode an empty Huffman table")
  let remaining := data.length * 8 - bit
  let index ← Bits.peek data bit (min huffman.maxBits remaining)
  let packed := huffman.table.getD index noCode
  ensure (packed ≠ noCode) (invalidBit bit "invalid Huffman code")
  let length := packed >>> 9
  ensure (length ≤ remaining) (invalidBit bit "truncated Huffman code")
  return (packed &&& 0x1ff, bit + length)

theorem decode_advances {huffman : Huffman} {data : List UInt8} {bit symbol next : Nat}
    (h : huffman.decode data bit = .ok (symbol, next)) : bit < next ∧ next ≤ data.length * 8 := by
  simp only [decode, result_bind_eq_ok, ensure_eq_ok] at h
  obtain ⟨_, -, index, hpeek, _, hcode, _, hlength, heq⟩ := h
  obtain ⟨-, rfl⟩ := Prod.mk.inj (Except.ok.inj heq)
  have hfits := Bits.peek_fits hpeek
  rw [List.getD_eq_getElem?_getD] at hcode hlength ⊢
  cases hentry : huffman.table[index]? with
  | none => simp [hentry] at hcode
  | some packed =>
    simp only [hentry, Option.getD_some] at hcode hlength ⊢
    have := huffman.takes_bits packed (List.mem_of_getElem? hentry) hcode
    omega

end Huffman

end Fbz.Deflate
