import Fbz.Bzip2.Bits
import Fbz.Lib.BitOrder

/-!
# The bits of a bzip2 stream

What the readers return are ranges of the stream's bits, however they fetch the bytes.
-/

namespace Fbz.Bzip2

open BitOrder

/-- The bits of the stream, each byte from its high end. -/
def streamBit (data : List UInt8) (bit : Nat) : Bool :=
  (data.getD (bit / 8) 0).toNat.testBit (7 - bit % 8)

theorem highFirst_byte (data : List UInt8) (byte : Nat) :
    highFirst (streamBit data) (8 * byte) 8 = (data.getD byte 0).toNat := by
  rw [@highFirst_congr _ _ 8 (fun i => (data.getD byte 0).toNat.testBit (8 - 1 - i)) 0 ?_,
    highFirst_testBit _ (Nat.le_refl 8)]
  · rw [Nat.sub_self, Nat.shiftRight_zero, Nat.mod_eq_of_lt (data.getD byte 0).toNat_lt]
  · intro i hi
    rw [streamBit, show (8 * byte + i) / 8 = byte by omega, show (8 * byte + i) % 8 = i by omega,
      Nat.zero_add]

theorem beNat_append (bytes : List UInt8) (byte : UInt8) :
    beNat (bytes ++ [byte]) = beNat bytes * 2 ^ 8 + byte.toNat := by
  rw [beNat, List.foldl_append, List.foldl_cons, List.foldl_nil,
    ← Nat.shiftLeft_add_eq_or_of_lt byte.toNat_lt, Nat.shiftLeft_eq]
  rfl

theorem beNat_slice (data : List UInt8) (start count : Nat) (fits : start + count ≤ data.length) :
    beNat (slice data start (start + count)) = highFirst (streamBit data) (8 * start) (8 * count) := by
  induction count with
  | zero => simp [slice, beNat]
  | succ count ih =>
    have hslice : slice data start (start + (count + 1)) =
        slice data start (start + count) ++ [data.getD (start + count) 0] := by
      have hlt : start + count < data.length := by omega
      rw [slice, slice, Nat.add_sub_cancel_left, Nat.add_sub_cancel_left, List.take_add_one,
        List.getElem?_drop, List.getD_eq_getElem?_getD, List.getElem?_eq_getElem hlt]
      rfl
    rw [hslice, beNat_append, ih (by omega), show 8 * (count + 1) = 8 * count + 8 by omega,
      highFirst_add, show 8 * start + 8 * count = 8 * (start + count) by omega, highFirst_byte]

namespace Bits

variable {data : List UInt8} {bit count : Nat}

/-- The branch of `peek` that loads eight bytes at once. -/
def peekWord (data : List UInt8) (bit count : Nat) : Nat :=
  (beNat (slice data (bit / 8) (bit / 8 + 8)) <<< (bit % 8) % 2 ^ 64) >>> (64 - count) % 2 ^ 32

/-- The branch of `peek` near the end, with as many bytes as the bits need. -/
def peekTail (data : List UInt8) (bit count : Nat) : Nat :=
  let byte := bit / 8
  let stop := (bit + count + 7) / 8
  beNat (slice data byte stop) >>> ((stop - byte) * 8 - bit % 8 - count) % 2 ^ count % 2 ^ 32

private theorem peek_paths (data : List UInt8) (bit count : Nat) :
    peek data bit count = do
      ensure (count ≤ remaining data bit) (decodeError bit .truncated)
      return if bit / 8 + 8 ≤ data.length then peekWord data bit count
        else peekTail data bit count := by
  rw [peek]
  dsimp only
  split <;> rfl

private theorem highFirst_mod_word (few : count ≤ 32) :
    highFirst (streamBit data) bit count % 2 ^ 32 = highFirst (streamBit data) bit count :=
  Nat.mod_eq_of_lt (Nat.lt_of_lt_of_le (highFirst_lt ..) (Nat.pow_le_pow_right Nat.two_pos few))

theorem peekWord_eq (few : count ≤ 32) (word : bit / 8 + 8 ≤ data.length) :
    peekWord data bit count = highFirst (streamBit data) bit count := by
  obtain ⟨rest, hrest⟩ : ∃ rest, 8 * 8 = bit % 8 + (count + rest) :=
    ⟨64 - bit % 8 - count, by omega⟩
  have hmid := highFirst_mul_mod_div (streamBit data) (8 * (bit / 8)) (bit % 8) count rest
  rw [← hrest, show 8 * (bit / 8) + bit % 8 = bit by omega] at hmid
  rw [peekWord, beNat_slice data (bit / 8) 8 word, Nat.shiftLeft_eq, Nat.shiftRight_eq_div_pow,
    show 64 - count = bit % 8 + rest by omega, show 64 = 8 * 8 from rfl, hmid,
    highFirst_mod_word few]

theorem peekTail_eq (few : count ≤ 32) (fits : bit + count ≤ data.length * 8) :
    peekTail data bit count = highFirst (streamBit data) bit count := by
  obtain ⟨stop, hstop⟩ : ∃ stop, (bit + count + 7) / 8 = bit / 8 + stop :=
    ⟨(bit + count + 7) / 8 - bit / 8, by omega⟩
  obtain ⟨rest, hrest⟩ : ∃ rest, 8 * stop = bit % 8 + count + rest :=
    ⟨8 * stop - bit % 8 - count, by omega⟩
  have hmid := highFirst_div_mod (streamBit data) (8 * (bit / 8)) (bit % 8) count rest
  rw [← hrest, show 8 * (bit / 8) + bit % 8 = bit by omega] at hmid
  rw [peekTail, hstop, beNat_slice data (bit / 8) stop (by omega), Nat.shiftRight_eq_div_pow,
    show (bit / 8 + stop - bit / 8) * 8 - bit % 8 - count = rest by omega, hmid,
    highFirst_mod_word few]

theorem peek_eq (pos : 0 < count) (few : count ≤ 32) :
    peek data bit count =
      if count ≤ remaining data bit then .ok (highFirst (streamBit data) bit count)
      else .error (decodeError bit .truncated) := by
  rw [peek_paths]
  by_cases hfits : count ≤ remaining data bit
  · rw [ensure_of hfits, result_bind_ok, if_pos hfits]
    unfold remaining at hfits
    refine congrArg Except.ok ?_
    split
    · next hword => exact peekWord_eq few hword
    · exact peekTail_eq few (by omega)
  · rw [ensure_of_not hfits, if_neg hfits]
    rfl

theorem read_eq (pos : 0 < count) (few : count ≤ 32) :
    read data bit count =
      if bit + count ≤ data.length * 8 then
        .ok (highFirst (streamBit data) bit count, bit + count)
      else .error (decodeError bit .truncated) := by
  rw [read, if_neg (Nat.ne_of_gt pos), peek_eq pos few, remaining]
  by_cases hfits : bit + count ≤ data.length * 8
  · rw [if_pos (by omega), if_pos hfits]
    rfl
  · rw [if_neg (by omega), if_neg hfits]
    rfl

end Bits

end Fbz.Bzip2
