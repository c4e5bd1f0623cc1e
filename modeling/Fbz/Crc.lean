import Fbz.Lib.ShiftRegister

/-!
# Block checksums of bzip2

CRC-32 with polynomial `0x04c11db7`, most significant bit first.
-/

namespace Fbz

def polynomial : UInt32 := 0x04c11db7

/-- One bit of the table construction. -/
def crcShift (crc : UInt32) : UInt32 :=
  if crc &&& 0x80000000 ≠ 0 then (crc <<< 1) ^^^ polynomial else crc <<< 1

/-- `TABLE`, as a function of its index. -/
def crcTable (byte : UInt8) : UInt32 := Nat.repeat crcShift 8 (byte.toUInt32 <<< 24)

structure Bz2Crc where
  state : UInt32

namespace Bz2Crc

def new : Bz2Crc := ⟨0xffffffff⟩

def step (crc : Bz2Crc) (byte : UInt8) : Bz2Crc :=
  let index := (crc.state >>> 24).toUInt8 ^^^ byte
  ⟨(crc.state <<< 8) ^^^ crcTable index⟩

def pushRepeat (crc : Bz2Crc) (byte : UInt8) (count : Nat) : Bz2Crc :=
  Nat.repeat (·.step byte) count crc

def update (crc : Bz2Crc) (data : List UInt8) : Bz2Crc := data.foldl step crc

def finish (crc : Bz2Crc) : UInt32 := ~~~crc.state

end Bz2Crc

def bz2Crc32 (data : List UInt8) : UInt32 := (Bz2Crc.new.update data).finish

def combineStreamCrc (streamCrc blockCrc : UInt32) : UInt32 :=
  (streamCrc <<< 1 ||| streamCrc >>> 31) ^^^ blockCrc

namespace Bz2Crc

@[simp] theorem update_nil (crc : Bz2Crc) : crc.update [] = crc := rfl

theorem update_append (crc : Bz2Crc) (front back : List UInt8) :
    crc.update (front ++ back) = (crc.update front).update back := List.foldl_append

theorem pushRepeat_eq_update (crc : Bz2Crc) (byte : UInt8) (count : Nat) :
    crc.pushRepeat byte count = crc.update (List.replicate count byte) := by
  induction count with
  | zero => rfl
  | succ count ih =>
    rw [pushRepeat, Nat.repeat] at *
    rw [ih, List.replicate_succ', update_append]
    rfl

end Bz2Crc

/-- The bits of a byte, the most significant one first. -/
def byteBits (byte : UInt8) : List Bool := (List.range 8).map fun i => byte.toNat.testBit (7 - i)

/-- The register behind one bit of the data. -/
def crcBit (register : UInt32) (bit : Bool) : UInt32 :=
  let highest : Bool := register &&& 0x80000000 ≠ 0
  if highest != bit then (register <<< 1) ^^^ polynomial else register <<< 1

/-- The checksum bit by bit: all ones at first, and the complement at the end. -/
def bitwiseCrc32 (data : List UInt8) : UInt32 :=
  ~~~(data.flatMap byteBits).foldl crcBit 0xffffffff

section Bitwise

open ShiftRegister

private theorem highest_iff (register : UInt32) :
    (register &&& 0x80000000 ≠ 0) ↔ register.toBitVec.msb = true := by
  have hbit : (0x80000000 : UInt32).toBitVec = BitVec.twoPow 32 31 := rfl
  have hzero : (0 : UInt32).toBitVec = 0#32 := rfl
  rw [ne_eq, ← UInt32.toBitVec_inj, UInt32.toBitVec_and, hbit, hzero, BitVec.and_twoPow,
    BitVec.msb_eq_getLsbD_last]
  by_cases h : register.toBitVec.getLsbD 31 = true
  · simp only [h, if_true, iff_true]
    decide
  · simp

private theorem crcShift_toBitVec (register : UInt32) :
    (crcShift register).toBitVec = shift polynomial.toBitVec register.toBitVec := by
  rw [crcShift, shift]
  by_cases h : register.toBitVec.msb = true
  · rw [if_pos ((highest_iff register).mpr h), if_pos h]
    rfl
  · rw [if_neg (mt (highest_iff register).mp h), if_neg h]
    rfl

private theorem crcBit_toBitVec (register : UInt32) (bit : Bool) :
    (crcBit register bit).toBitVec = feed polynomial.toBitVec register.toBitVec bit := by
  rw [crcBit, feed]
  have hmsb : decide (register &&& 0x80000000 ≠ 0) = register.toBitVec.msb := by
    rw [Bool.eq_iff_iff, decide_eq_true_iff]
    exact highest_iff register
  rw [hmsb]
  split <;> rfl

private theorem crcTable_toBitVec (byte : UInt8) :
    (crcTable byte).toBitVec =
      (shift polynomial.toBitVec)^[8] (byte.toUInt32 <<< 24).toBitVec := by
  simp only [crcTable, Nat.repeat, crcShift_toBitVec, Function.iterate_succ_apply',
    Function.iterate_zero_apply]

private theorem crcBits_toBitVec (register : UInt32) (bits : List Bool) :
    (bits.foldl crcBit register).toBitVec =
      bits.foldl (feed polynomial.toBitVec) register.toBitVec := by
  induction bits generalizing register with
  | nil => rfl
  | cons bit bits ih => rw [List.foldl_cons, ih, crcBit_toBitVec, List.foldl_cons]

private theorem crcTable_bits (byte : UInt8) : (byteBits byte).foldl crcBit 0 = crcTable byte := by
  have hall : ∀ n < 256,
      (byteBits (UInt8.ofNat n)).foldl crcBit 0 = crcTable (UInt8.ofNat n) := by
    decide +kernel
  have hbyte := hall byte.toNat byte.toNat_lt
  rwa [UInt8.ofNat_toNat] at hbyte

theorem byteBits_length (byte : UInt8) : (byteBits byte).length = 8 := by
  rw [byteBits, List.length_map, List.length_range]

private theorem Bz2Crc.step_eq (crc : Bz2Crc) (byte : UInt8) :
    (crc.step byte).state = (byteBits byte).foldl crcBit crc.state := by
  apply UInt32.toBitVec_inj.mp
  rw [crcBits_toBitVec, foldl_feed, byteBits_length, shifts_split _ (by decide)]
  have htable := crcBits_toBitVec 0 (byteBits byte)
  rw [crcTable_bits] at htable
  have hzero : (0 : UInt32).toBitVec = 0#32 := rfl
  rw [hzero] at htable
  rw [← htable, Bz2Crc.step]
  have hindex : (((crc.state >>> 24).toUInt8 ^^^ byte).toUInt32 <<< 24).toBitVec =
      ((crc.state.toBitVec >>> 24) <<< 24) ^^^ (byte.toUInt32 <<< 24).toBitVec := by
    apply BitVec.eq_of_getLsbD_eq
    intro i hi
    have hhigh : (crc.state >>> 24).toUInt8.toBitVec = (crc.state.toBitVec >>> 24).setWidth 8 := rfl
    have hleft (word : UInt32) : (word <<< 24).toBitVec = word.toBitVec <<< 24 := rfl
    rw [hleft, UInt8.toBitVec_toUInt32, UInt8.toBitVec_xor, hhigh, hleft, UInt8.toBitVec_toUInt32]
    simp only [BitVec.getLsbD_shiftLeft, BitVec.getLsbD_setWidth, BitVec.getLsbD_xor,
      BitVec.getLsbD_ushiftRight]
    rcases Nat.lt_or_ge i 24 with hlt | hge
    · simp [hlt]
    · simp [show i - 24 < 32 by omega, show i - 24 < 8 by omega, show ¬ i < 24 by omega, hi]
  dsimp only
  rw [UInt32.toBitVec_xor, crcTable_toBitVec, hindex, shifts_xor, crcTable_toBitVec,
    BitVec.xor_assoc]
  rfl

private theorem Bz2Crc.update_eq (crc : Bz2Crc) (data : List UInt8) :
    (crc.update data).state = (data.flatMap byteBits).foldl crcBit crc.state := by
  induction data generalizing crc with
  | nil => rfl
  | cons byte data ih =>
    rw [List.flatMap_cons, List.foldl_append, ← Bz2Crc.step_eq, ← ih]
    rfl

theorem bz2Crc32_eq_bitwise (data : List UInt8) : bz2Crc32 data = bitwiseCrc32 data :=
  congrArg (~~~ ·) (Bz2Crc.new.update_eq data)

end Bitwise

example : bz2Crc32 [0x31, 0x32, 0x33, 0x34, 0x35, 0x36, 0x37, 0x38, 0x39] = 0xfc891918 := by
  decide +kernel

end Fbz
