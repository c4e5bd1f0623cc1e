import Fbz.Bzip2.HuffmanCodes
import Fbz.Bzip2.WrittenBits

/-!
# Reading the bits of the bzip2 writer

A reader at a position has the rest of a string of bits before it. What is written as a number or as
a code is read as the same number or symbol.
-/

namespace Fbz.Bzip2

open BitOrder CanonicalCode

private theorem bitsOf_getElem? (width value i : Nat) : (bitsOf width value)[i]? =
    if i < width then some (value.testBit (width - 1 - i)) else none := by
  induction width generalizing i with
  | zero => rfl
  | succ width ih =>
    cases i with
    | zero => rfl
    | succ i =>
      rw [bitsOf, List.getElem?_cons_succ, ih, show width - 1 - i = width + 1 - 1 - (i + 1) by omega]
      simp

private theorem highFirst_bitsOf {bit : Nat → Bool} {start width value : Nat}
    (lt : value < 2 ^ width)
    (bits : ∀ i < width, (bitsOf width value)[i]? = some (bit (start + i))) :
    highFirst bit start width = value := by
  have hhigh := highFirst_testBit value (Nat.le_refl width)
  rw [Nat.sub_self, Nat.shiftRight_zero, Nat.mod_eq_of_lt lt] at hhigh
  rw [← hhigh]
  apply highFirst_congr
  intro i hi
  have hbit := bits i hi
  rw [bitsOf_getElem?, if_pos hi] at hbit
  rw [Nat.zero_add]
  exact (Option.some.inj hbit).symm

/-- These bits are left from a position on. -/
structure Rests (data : List UInt8) (bit : Nat) (rest : List Bool) : Prop where
  inside : bit ≤ data.length * 8
  drop : (data.flatMap byteBits).drop bit = rest

private theorem flatMap_byteBits_getElem? (data : List UInt8) (bit : Nat) :
    (data.flatMap byteBits)[bit]? =
      if bit < 8 * data.length then some (streamBit data bit) else none := by
  induction data generalizing bit with
  | nil => rfl
  | cons byte data ih =>
    rw [List.flatMap_cons, List.getElem?_append, byteBits_length]
    by_cases hbit : bit < 8
    · rw [if_pos hbit, byteBits_eq, bitsOf_getElem?, if_pos hbit, if_pos (by
        rw [List.length_cons]
        omega), streamBit, Nat.div_eq_of_lt hbit, Nat.mod_eq_of_lt hbit, List.getD_cons_zero]
    · obtain ⟨more, rfl⟩ := Nat.exists_eq_add_of_le (Nat.not_lt.mp hbit)
      rw [if_neg hbit, ih, Nat.add_sub_cancel_left, List.length_cons, streamBit, streamBit,
        show (8 + more) / 8 = more / 8 + 1 by omega, show (8 + more) % 8 = more % 8 by omega,
        List.getD_cons_succ]
      simp only [show 8 + more < 8 * (data.length + 1) ↔ more < 8 * data.length by omega]

namespace Rests

variable {data : List UInt8} {bit value count : Nat} {bits rest : List Bool}

theorem start (data : List UInt8) : Rests data 0 (data.flatMap byteBits) := ⟨Nat.zero_le _, rfl⟩

private theorem skip (h : Rests data bit (bits ++ rest)) : Rests data (bit + bits.length) rest := by
  have hlength := congrArg List.length h.drop
  rw [List.length_drop, flatMap_byteBits_length, List.length_append] at hlength
  have hinside := h.inside
  constructor
  · omega
  · rw [← List.drop_drop, h.drop, List.drop_left]

private theorem streamBit (h : Rests data bit (bits ++ rest)) {i : Nat} (lt : i < bits.length) :
    bits[i]? = some (Bzip2.streamBit data (bit + i)) := by
  have hinside := h.skip.inside
  have hget : (data.flatMap byteBits)[bit + i]? = bits[i]? := by
    rw [← List.getElem?_drop, h.drop, List.getElem?_append_left lt]
  rw [← hget, flatMap_byteBits_getElem?, if_pos (by omega)]

theorem after_read (h : Rests data bit (bitsOf count value ++ rest)) :
    Rests data (bit + count) rest := by
  have hskip := h.skip
  rwa [bitsOf_length] at hskip

theorem read (h : Rests data bit (bitsOf count value ++ rest)) (lt : value < 2 ^ count)
    (few : count ≤ 32) : Bits.read data bit count = .ok (value, bit + count) := by
  have hinside := h.after_read.inside
  rcases Nat.eq_zero_or_pos count with hzero | hpos
  · subst hzero
    obtain rfl : value = 0 := by simpa using lt
    rfl
  · have hvalue : highFirst (Bzip2.streamBit data) bit count = value := by
      apply highFirst_bitsOf lt
      intro i hi
      exact h.streamBit (by rwa [bitsOf_length])
    rw [Bits.read_eq hpos few, if_pos hinside, hvalue]

theorem readBit {flag : Bool} (h : Rests data bit (flag :: rest)) :
    Bits.readBit data bit = .ok (flag, bit + 1) ∧ Rests data (bit + 1) rest := by
  have hbits : flag :: rest = bitsOf 1 flag.toNat ++ rest := by
    cases flag <;> rfl
  rw [hbits] at h
  refine ⟨?_, h.after_read⟩
  have hread := h.read (by cases flag <;> decide) (by decide)
  rw [Bits.readBit, hread]
  cases flag <;> rfl

theorem magic (h : Rests data bit (bitsOf 48 value ++ rest)) (lt : value < 2 ^ 48) :
    Bits.magic data bit = .ok (value, bit + 48) := by
  have hsplit : bitsOf 48 value = bitsOf 24 (value >>> 24) ++ bitsOf 24 (value % 2 ^ 24) := by
    rw [bitsOf_mod]
    exact bitsOf_add 24 24 value
  rw [hsplit, List.append_assoc] at h
  have hhigh := h.read (by rw [Nat.shiftRight_eq_div_pow]; omega) (by decide)
  have hlow := h.after_read.read (Nat.mod_lt _ (Nat.two_pow_pos 24)) (by decide)
  have hvalue : value >>> 24 <<< 24 ||| value % 2 ^ 24 = value := by
    rw [← Nat.shiftLeft_add_eq_or_of_lt (Nat.mod_lt _ (Nat.two_pow_pos 24)), Nat.shiftLeft_eq,
      Nat.shiftRight_eq_div_pow]
    exact Nat.div_add_mod' value (2 ^ 24)
  rw [Bits.magic, hhigh, result_bind_ok]
  dsimp only
  rw [hlow, result_bind_ok]
  dsimp only
  rw [hvalue]
  rfl

end Rests

/-- The canonical code of a symbol. -/
def symbolBits (lengths : List Nat) (symbol : Nat) : List Bool :=
  bitsOf (lengths.getD symbol 0) (code lengths symbol)

theorem Rests.decode {data : List UInt8} {bit symbol : Nat} {rest : List Bool} {lengths : List Nat}
    {huffman : Huffman} (h : Rests data bit (symbolBits lengths symbol ++ rest))
    (built : huffman.IsBuilt lengths) (lt : symbol < lengths.length) :
    huffman.decode data bit = .ok (symbol, bit + lengths.getD symbol 0) := by
  have hlength : HasLength lengths symbol (lengths.getD symbol 0) := by
    apply built.coded.hasLength
    rw [List.getElem?_eq_getElem lt, List.getD_eq_getElem _ _ lt]
  have hinside := h.after_read.inside
  rw [built.decode_eq_searchFrom, built.searchFrom_iff]
  refine ⟨_, hlength, rfl, hinside, ?_⟩
  apply highFirst_bitsOf (hlength.code_lt built.fits (built.coded _ hlength.mem).2)
  intro i hi
  exact Rests.streamBit h (by rwa [symbolBits, bitsOf_length])

end Fbz.Bzip2
