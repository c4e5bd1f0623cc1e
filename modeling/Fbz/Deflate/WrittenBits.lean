import Fbz.Deflate.CheckedHuffman
import Fbz.Deflate.Encode
import Fbz.Deflate.Locality
import Fbz.Lib.BitStrings

/-!
# Written bits and read bits

What a bit writer has written is a string of bits, and a reader at a position has the rest of such a
string before it. What is written as a number or as a code is read as the same number or symbol.
-/

namespace Fbz.Deflate

open BitOrder CanonicalCode

namespace BitWriter

/-- Everything written so far. -/
def written (w : BitWriter) : List Bool := bitString w.bytes ++ lowBits w.bits w.pending

/-- These bits have been written, and less than a byte of them is pending. -/
structure Wrote (w : BitWriter) (bits : List Bool) : Prop where
  written : w.written = bits
  partial_byte : w.bits < 8
  pending : w.pending < 2 ^ w.bits

variable {w : BitWriter} {bits : List Bool} {value count : Nat}

theorem wrote_empty : Wrote {} [] := ⟨rfl, by decide, by decide⟩

private theorem spill_wrote (pending : w.pending < 2 ^ w.bits) : w.spill.Wrote w.written := by
  induction w using spill.induct with
  | case1 w whole ih =>
    have hless : w.pending >>> 8 < 2 ^ (w.bits - 8) := by
      rw [Nat.shiftRight_eq_div_pow]
      apply Nat.div_lt_of_lt_mul
      rw [← Nat.pow_add, Nat.add_sub_cancel' whole]
      exact pending
    have hsame : written ⟨w.bytes ++ [UInt8.ofNat w.pending], w.pending >>> 8, w.bits - 8⟩ =
        w.written := by
      have hbits := lowBits_add 8 (w.bits - 8) w.pending
      rw [Nat.add_sub_cancel' whole] at hbits
      simp only [written, bitString_append, bitString_cons, bitString_nil, List.append_nil, hbits,
        lowBits_byte, List.append_assoc]
    rw [spill, if_pos whole, ← hsame]
    exact ih hless
  | case2 w done =>
    rw [spill, if_neg done]
    exact ⟨rfl, Nat.not_le.mp done, pending⟩

theorem Wrote.writeBits (h : w.Wrote bits) (lt : value < 2 ^ count) :
    (w.writeBits value count).Wrote (bits ++ lowBits count value) := by
  have hpending : w.pending ||| value <<< w.bits < 2 ^ (w.bits + count) := by
    apply Nat.or_lt_two_pow
    · exact Nat.lt_of_lt_of_le h.pending (Nat.pow_le_pow_right (by decide) (Nat.le_add_right _ _))
    · rw [Nat.shiftLeft_eq, Nat.pow_add, Nat.mul_comm]
      exact Nat.mul_lt_mul_of_pos_left lt (Nat.two_pow_pos _)
  have hspill := @spill_wrote { w with
    pending := w.pending ||| value <<< w.bits, bits := w.bits + count } hpending
  rw [← h.written]
  simpa [BitWriter.writeBits, BitWriter.written, lowBits_append _ _ h.pending] using hspill

/-- The bits up to the end of the byte. -/
def padding (bits : List Bool) : List Bool :=
  List.replicate (Bits.alignByte bits.length - bits.length) false

private theorem Wrote.length_mod (h : w.Wrote bits) : bits.length % 8 = w.bits := by
  have := h.partial_byte
  rw [← h.written, BitWriter.written, List.length_append, bitString_length, lowBits_length]
  omega

theorem Wrote.alignZero (h : w.Wrote bits) :
    w.alignZero.Wrote (bits ++ padding bits) ∧ w.alignZero.bits = 0 := by
  have hmod := h.length_mod
  have hbits := h.partial_byte
  rw [BitWriter.alignZero, padding, Bits.alignByte]
  split
  case isTrue hne =>
    have hpad : (bits.length + 7) / 8 * 8 - bits.length = 8 - w.bits := by omega
    have hzero : w.pending >>> w.bits = 0 := by
      rw [Nat.shiftRight_eq_div_pow, Nat.div_eq_of_lt h.pending]
    have hbyte := lowBits_add w.bits (8 - w.bits) w.pending
    rw [Nat.add_sub_cancel' (Nat.le_of_lt hbits), hzero, lowBits_zeros] at hbyte
    refine ⟨⟨?_, Nat.zero_lt_succ 7, Nat.zero_lt_succ 0⟩, rfl⟩
    rw [hpad, ← h.written]
    simp only [BitWriter.written, bitString_append, bitString_cons, bitString_nil, List.append_nil,
      lowBits_byte, hbyte, lowBits_zero, List.append_assoc]
  case isFalse heq =>
    have hpad : (bits.length + 7) / 8 * 8 - bits.length = 0 := by omega
    rw [hpad, List.replicate_zero, List.append_nil]
    exact ⟨h, not_not.mp heq⟩

theorem Wrote.writeAligned (h : w.Wrote bits) (aligned : w.bits = 0) (bytes : List UInt8) :
    (w.writeAligned bytes).Wrote (bits ++ bitString bytes) ∧ (w.writeAligned bytes).bits = 0 := by
  refine ⟨⟨?_, h.partial_byte, h.pending⟩, aligned⟩
  rw [← h.written]
  simp [BitWriter.written, BitWriter.writeAligned, aligned]

theorem Wrote.finishAligned (h : w.Wrote bits) (aligned : w.bits = 0) :
    bitString w.finishAligned = bits := by
  rw [BitWriter.finishAligned, BitWriter.alignZero, if_neg (not_not.mpr aligned), ← h.written,
    BitWriter.written, aligned]
  simp

end BitWriter

theorem bitString_toLe (width value : Nat) :
    bitString (toLe width value) = lowBits (8 * width) value := by
  induction width generalizing value with
  | zero => rfl
  | succ width ih =>
    rw [toLe, bitString_cons, ih, lowBits_byte, Nat.mul_succ, Nat.add_comm, lowBits_add,
      Nat.shiftRight_eq_div_pow]

theorem reverseCode_eq {code bits : Nat} (le : bits ≤ 16) :
    reverseCode code bits = Huffman.reverseLowBits code bits := by
  have hreverse := CheckedTable.reverseLowBits_div code bits (16 - bits)
  rw [Nat.add_sub_cancel' le] at hreverse
  rw [reverseCode, Nat.shiftRight_eq_div_pow, hreverse]

private theorem lowBits_reverseLowBits (value count : Nat) :
    lowBits count (Huffman.reverseLowBits value count) = bitsOf count value := by
  induction count generalizing value with
  | zero => rfl
  | succ count ih =>
    have hlow := Huffman.reverseLowBits_lt (value / 2) count
    have hvalue : Huffman.reverseLowBits value (count + 1) =
        Huffman.reverseLowBits (value / 2) count ||| (value % 2) <<< count := by
      rw [Huffman.reverseLowBits, Nat.or_comm, ← Nat.shiftLeft_add_eq_or_of_lt hlow,
        Nat.shiftLeft_eq]
    rw [hvalue, lowBits_append _ 1 hlow, ih, bitsOf_add count 1, Nat.shiftRight_one]
    simp [lowBits, bitsOf]

/-- The canonical code of a symbol. -/
def symbolBits (lengths : List Nat) (symbol : Nat) : List Bool :=
  bitsOf (lengths.getD symbol 0) (code lengths symbol)

private theorem assignCodes_getD {front back : List Nat} {next : Nat → Nat} {symbol length : Nat}
    (counts : ∀ length, 0 < length →
      next length = first (front ++ back) length + front.count length)
    (has : HasLength (front ++ back) symbol length) (behind : front.length ≤ symbol) :
    (assignCodes back next).getD (symbol - front.length) 0 =
      reverseCode (code (front ++ back) symbol) length := by
  induction back generalizing front next with
  | nil =>
    have hlt := (List.getElem?_eq_some_iff.mp has.get).1
    rw [List.append_nil] at hlt
    omega
  | cons head back ih =>
    have hassoc : front ++ head :: back = (front ++ [head]) ++ back := by simp
    by_cases heq : symbol = front.length
    · subst heq
      have hget := has.get
      rw [List.getElem?_append_right (Nat.le_refl _), Nat.sub_self, List.getElem?_cons_zero] at hget
      obtain rfl := Option.some.inj hget
      have hpos := has.pos
      rw [Nat.sub_self, assignCodes, if_neg (by omega), List.getD_cons_zero, has.code_eq,
        List.take_left, counts head hpos]
    · obtain ⟨k, hk⟩ := Nat.exists_eq_add_of_lt (Nat.lt_of_le_of_ne behind (Ne.symm heq))
      have hindex : symbol - front.length = symbol - (front ++ [head]).length + 1 := by
        rw [List.length_append, List.length_singleton]
        omega
      have hbehind : (front ++ [head]).length ≤ symbol := by
        rw [List.length_append, List.length_singleton]
        omega
      rw [hindex]
      rw [hassoc] at counts has ⊢
      rw [assignCodes]
      split
      case isTrue hzero =>
        rw [List.getD_cons_succ]
        apply ih _ has hbehind
        intro length hpos
        rw [counts length hpos, List.count_append, List.count_singleton, if_neg]
        · rfl
        · intro hbeq
          have := eq_of_beq hbeq
          omega
      case isFalse hne =>
        rw [List.getD_cons_succ]
        apply ih _ has hbehind
        intro other hpos
        rw [List.count_append, List.count_singleton]
        by_cases hsame : other = head
        · rw [if_pos hsame, hsame, counts head (by omega)]
          simp [Nat.add_assoc]
        · rw [if_neg hsame, counts other hpos, if_neg]
          · rfl
          · intro hbeq
            exact hsame (eq_of_beq hbeq).symm

theorem huffmanCodes_getD {lengths : List Nat} {symbol length : Nat}
    (has : HasLength lengths symbol length) (le : length ≤ 16) :
    (huffmanCodes lengths).getD symbol 0 =
      Huffman.reverseLowBits (code lengths symbol) length := by
  have hcodes := @assignCodes_getD [] lengths (Huffman.firstCode lengths) symbol length
    (fun length _ => Huffman.firstCode_eq lengths length) has (Nat.zero_le _)
  rw [huffmanCodes, ← reverseCode_eq le]
  exact hcodes

theorem BitWriter.Wrote.writeCode {w : BitWriter} {bits : List Bool} {lengths : List Nat}
    {symbol length : Nat} (h : w.Wrote bits) (has : HasLength lengths symbol length)
    (le : length ≤ 16) :
    (writeCode w symbol (.of lengths)).Wrote (bits ++ symbolBits lengths symbol) := by
  have hwrote := h.writeBits (Huffman.reverseLowBits_lt (code lengths symbol) length)
  rw [lowBits_reverseLowBits] at hwrote
  rw [Deflate.writeCode, symbolBits, has.getD]
  show (w.writeBits ((huffmanCodes lengths).getD symbol 0) (lengths.getD symbol 0)).Wrote _
  rw [huffmanCodes_getD has le, has.getD]
  exact hwrote

/-- What a reader at this position still has before it. -/
structure Rests (data : List UInt8) (bit : Nat) (rest : List Bool) : Prop where
  inside : bit ≤ data.length * 8
  drop : (bitString data).drop bit = rest

namespace Rests

variable {data bytes : List UInt8} {bit value count : Nat} {bits rest : List Bool}

theorem start (data : List UInt8) : Rests data 0 (bitString data) := ⟨Nat.zero_le _, rfl⟩

theorem skip (h : Rests data bit (bits ++ rest)) : Rests data (bit + bits.length) rest := by
  have hlength := congrArg List.length h.drop
  rw [List.length_drop, bitString_length, List.length_append] at hlength
  have hinside := h.inside
  refine ⟨by omega, ?_⟩
  rw [← List.drop_drop, h.drop, List.drop_left]

private theorem streamBit (h : Rests data bit (bits ++ rest)) {i : Nat} (lt : i < bits.length) :
    bits[i]? = some (Deflate.streamBit data (bit + i)) := by
  have hinside := h.skip.inside
  have hget : (bitString data)[bit + i]? = bits[i]? := by
    rw [← List.getElem?_drop, h.drop, List.getElem?_append_left lt]
  rw [← hget, bitString_getElem?, if_pos (by omega)]
  rfl

theorem read (h : Rests data bit (lowBits count value ++ rest)) (lt : value < 2 ^ count)
    (few : count ≤ 56) : Bits.read data bit count = .ok (value, bit + count) := by
  have hinside := h.skip.inside
  rw [lowBits_length] at hinside
  have hvalue : lowFirst (Deflate.streamBit data) bit count = value := by
    have hlow := lowFirst_testBit value 0 count
    rw [Nat.shiftRight_zero, Nat.mod_eq_of_lt lt] at hlow
    rw [← hlow]
    apply lowFirst_congr
    intro i hi
    have hbit := h.streamBit (by rwa [lowBits_length])
    rw [lowBits_getElem?, if_pos hi] at hbit
    rw [Nat.zero_add]
    exact (Option.some.inj hbit).symm
  rw [Bits.read]
  split
  case isTrue hzero =>
    subst hzero
    obtain rfl : value = 0 := by simpa using lt
    rfl
  case isFalse =>
    rw [Bits.peek_eq few, if_pos hinside, hvalue]
    rfl

theorem after_read (h : Rests data bit (lowBits count value ++ rest)) :
    Rests data (bit + count) rest := by
  have hskip := h.skip
  rwa [lowBits_length] at hskip

theorem decode {huffman : Huffman} {lengths : List Nat} {symbol length : Nat}
    (h : Rests data bit (symbolBits lengths symbol ++ rest)) (table : huffman.IsTable lengths)
    (few : lengths.length ≤ 320) (has : HasLength lengths symbol length) :
    huffman.decode data bit = .ok (symbol, bit + length) := by
  have hinside := h.skip.inside
  rw [symbolBits, bitsOf_length, has.getD] at hinside
  rw [Huffman.decode_reads few table]
  refine ⟨length, has, rfl, hinside, ?_⟩
  have hle := table.bounded length has.mem
  have hlt := has.code_lt table.fits hle
  have hhigh := highFirst_testBit (code lengths symbol) (Nat.le_refl length)
  rw [Nat.sub_self, Nat.shiftRight_zero, Nat.mod_eq_of_lt hlt] at hhigh
  rw [← hhigh]
  apply highFirst_congr
  intro i hi
  have hbit := h.streamBit (i := i) (by rw [symbolBits, bitsOf_length, has.getD]; exact hi)
  rw [symbolBits, has.getD, ← lowBits_reverse, List.getElem?_reverse (by rwa [lowBits_length]),
    lowBits_length, lowBits_getElem?, if_pos (by omega)] at hbit
  rw [Nat.zero_add]
  exact (Option.some.inj hbit).symm

theorem after_decode {lengths : List Nat} {symbol length : Nat}
    (h : Rests data bit (symbolBits lengths symbol ++ rest)) (has : HasLength lengths symbol length) :
    Rests data (bit + length) rest := by
  have hskip := h.skip
  rwa [symbolBits, bitsOf_length, has.getD] at hskip

theorem drop_bytes (h : Rests data (8 * count) (bitString bytes ++ rest)) :
    data.drop count = bytes ++ data.drop (count + bytes.length) := by
  have hdrop := h.drop
  have hlength := congrArg List.length hdrop
  rw [List.length_drop, bitString_length, List.length_append, bitString_length] at hlength
  rw [bitString_drop, ← List.take_append_drop bytes.length (data.drop count),
    bitString_append] at hdrop
  have hfront := (List.append_inj hdrop (by
    rw [bitString_length, bitString_length, List.length_take, List.length_drop]
    omega)).1
  conv_lhs => rw [← List.take_append_drop bytes.length (data.drop count), bitString_inj hfront,
    List.drop_drop]

theorem unique {other : Nat} (h : Rests data bit rest) (h' : Rests data other rest) :
    bit = other := by
  have hlength := congrArg List.length h.drop
  have hlength' := congrArg List.length h'.drop
  have hinside := h.inside
  have hinside' := h'.inside
  rw [List.length_drop, bitString_length] at hlength hlength'
  omega

end Rests

end Fbz.Deflate
