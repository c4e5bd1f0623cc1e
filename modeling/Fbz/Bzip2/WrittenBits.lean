import Fbz.Bzip2.BitWriter
import Fbz.Crc
import Fbz.Lib.BitOrder

/-!
# Bits of the bzip2 writer

Whatever the calls, the bytes that leave the writer are the bits that were written.
-/

namespace Fbz.Bzip2

open BitOrder

theorem byteBits_eq (byte : UInt8) : byteBits byte = bitsOf 8 byte.toNat := rfl

theorem byteBits_ofNat (value : Nat) : byteBits (UInt8.ofNat value) = bitsOf 8 value := by
  rw [byteBits_eq, UInt8.toNat_ofNat', bitsOf_mod]

theorem flatMap_byteBits_length (bytes : List UInt8) :
    (bytes.flatMap byteBits).length = 8 * bytes.length := by
  induction bytes with
  | nil => rfl
  | cons byte bytes ih =>
    rw [List.flatMap_cons, List.length_append, byteBits_length, ih, List.length_cons]
    omega

namespace BitWriter

variable {w : BitWriter}

/-- The bits that are still in the writer. -/
def bits (w : BitWriter) : List Bool := w.out.flatMap byteBits ++ bitsOf w.nbits w.acc

/-- Less than a byte is pending. -/
structure Wf (w : BitWriter) : Prop where
  pending : w.nbits < 8
  masked : w.acc < 2 ^ w.nbits

theorem wf_empty : Wf {} := ⟨by decide, by decide⟩

theorem bits_empty : bits {} = [] := rfl

private theorem spill_pending (out : List UInt8) (acc nbits : Nat) :
    (spill out acc nbits).2 < 8 := by
  induction out, nbits using spill.induct acc with
  | case1 out nbits hfull ih =>
    rw [spill, if_pos hfull]
    exact ih
  | case2 out nbits hfull =>
    rw [spill, if_neg hfull]
    exact Nat.not_le.mp hfull

private theorem spill_bits (out : List UInt8) (acc nbits : Nat) :
    (spill out acc nbits).1.flatMap byteBits ++ bitsOf (spill out acc nbits).2 acc =
      out.flatMap byteBits ++ bitsOf nbits acc := by
  induction out, nbits using spill.induct acc with
  | case1 out nbits hfull ih =>
    have hsplit : bitsOf nbits acc = bitsOf 8 (acc >>> (nbits - 8)) ++ bitsOf (nbits - 8) acc := by
      rw [← bitsOf_add, Nat.add_sub_cancel' hfull]
    rw [spill, if_pos hfull, ih, hsplit, List.flatMap_append, List.flatMap_singleton,
      byteBits_ofNat, List.append_assoc]
  | case2 out nbits hfull => rw [spill, if_neg hfull]

theorem writeBits_wf (w : BitWriter) (n val : Nat) : (w.writeBits n val).Wf :=
  ⟨spill_pending _ _ _, Nat.mod_lt _ (Nat.two_pow_pos _)⟩

theorem writeBits_bits (w : BitWriter) (n val : Nat) :
    (w.writeBits n val).bits = w.bits ++ bitsOf n val := by
  have hspill := spill_bits w.out (w.acc <<< n ||| val % 2 ^ n) (w.nbits + n)
  rw [← bitsOf_mod, bitsOf_append, ← List.append_assoc] at hspill
  exact hspill

theorem Wf.accumulator (wf : w.Wf) {n : Nat} (hn : n ≤ 32) (val : Nat) :
    w.acc <<< n ||| val % 2 ^ n < 2 ^ 39 := by
  have hn' : w.nbits + n ≤ 39 := by have := wf.pending; omega
  have hacc : w.acc <<< n < 2 ^ 39 := by
    calc w.acc <<< n = w.acc * 2 ^ n := Nat.shiftLeft_eq ..
      _ < 2 ^ w.nbits * 2 ^ n := Nat.mul_lt_mul_of_pos_right wf.masked (Nat.two_pow_pos n)
      _ = 2 ^ (w.nbits + n) := (Nat.pow_add ..).symm
      _ ≤ 2 ^ 39 := Nat.pow_le_pow_right (by decide) hn'
  apply Nat.or_lt_two_pow hacc
  exact Nat.lt_of_lt_of_le (Nat.mod_lt _ (Nat.two_pow_pos n))
    (Nat.pow_le_pow_right (by decide) (by omega))

theorem writeMagic_bits (w : BitWriter) (magic : Nat) :
    (w.writeMagic magic).bits = w.bits ++ bitsOf 48 magic := by
  have hsplit : bitsOf 48 magic = bitsOf 24 (magic >>> 24) ++ bitsOf 24 magic := bitsOf_add 24 24 magic
  rw [writeMagic, writeBits_bits, writeBits_bits, bitsOf_mod, hsplit, List.append_assoc]

theorem foldl_writeU8 (bytes : List UInt8) (wf : w.Wf) :
    (bytes.foldl writeU8 w).Wf ∧ (bytes.foldl writeU8 w).bits = w.bits ++ bytes.flatMap byteBits := by
  induction bytes generalizing w with
  | nil => exact ⟨wf, by simp⟩
  | cons byte bytes ih =>
    obtain ⟨hwf, hbits⟩ := ih (writeBits_wf w 8 byte.toNat)
    refine ⟨hwf, ?_⟩
    rw [List.foldl_cons, writeU8, hbits, writeBits_bits, List.flatMap_cons, byteBits_eq,
      List.append_assoc]

theorem writeBuffer_wf (wf : w.Wf) (bytes : List UInt8) (bitLen : Nat) :
    (w.writeBuffer bytes bitLen).Wf := by
  rw [writeBuffer]
  split
  · exact writeBits_wf ..
  · exact (foldl_writeU8 _ wf).1

private theorem bitsOf_take {count : Nat} (h : count ≤ 8) (byte : UInt8) :
    bitsOf count (byte.toNat >>> (8 - count)) = (byteBits byte).take count := by
  have hsplit := bitsOf_add count (8 - count) byte.toNat
  rw [Nat.add_sub_cancel' h] at hsplit
  rw [byteBits_eq, hsplit, List.take_left' (bitsOf_length ..)]

theorem writeBuffer_bits (wf : w.Wf) {bytes : List UInt8} {bitLen : Nat}
    (h : bitLen ≤ 8 * bytes.length) :
    (w.writeBuffer bytes bitLen).bits = w.bits ++ (bytes.flatMap byteBits).take bitLen := by
  have hfull := (foldl_writeU8 (bytes.take (bitLen / 8)) wf).2
  have hcut : bytes.flatMap byteBits = (bytes.take (bitLen / 8)).flatMap byteBits ++
      (bytes.drop (bitLen / 8)).flatMap byteBits := by
    rw [← List.flatMap_append, List.take_append_drop]
  have hlength : ((bytes.take (bitLen / 8)).flatMap byteBits).length = 8 * (bitLen / 8) := by
    rw [flatMap_byteBits_length, List.length_take]
    omega
  have htake : (bytes.flatMap byteBits).take bitLen = (bytes.take (bitLen / 8)).flatMap byteBits ++
      ((bytes.drop (bitLen / 8)).flatMap byteBits).take (bitLen % 8) := by
    rw [hcut, List.take_append, List.take_of_length_le (by omega), hlength]
    congr 2
    omega
  rw [writeBuffer, htake]
  split
  case isTrue hpart =>
    have hin : bitLen / 8 < bytes.length := by omega
    rw [writeBits_bits, hfull, List.append_assoc, bitsOf_take (by omega),
      List.drop_eq_getElem_cons hin, List.flatMap_cons, List.take_append_of_le_length
        (by rw [byteBits_length]; omega), List.getD_eq_getElem _ _ hin]
  case isFalse hpart => rw [hfull, not_not.mp hpart, List.take_zero, List.append_nil]

private theorem padded_byte (wf : w.Wf) :
    byteBits (UInt8.ofNat (w.acc <<< (8 - w.nbits))) =
      bitsOf w.nbits w.acc ++ List.replicate (8 - w.nbits) false := by
  have happend := bitsOf_append w.nbits (8 - w.nbits) w.acc 0
  rw [Nat.add_sub_cancel' (Nat.le_of_lt wf.pending), Nat.zero_mod, Nat.or_zero, bitsOf_zeros]
    at happend
  rw [byteBits_ofNat, happend]

/-- The number of zeros after the last bit. -/
def padding (w : BitWriter) : Nat := (8 - w.nbits) % 8

theorem padding_lt (w : BitWriter) : w.padding < 8 := Nat.mod_lt _ (by decide)

theorem finishBits_bits (wf : w.Wf) :
    w.finishBits.1.flatMap byteBits = w.bits ++ List.replicate w.padding false ∧
      w.finishBits.2 = w.bits.length := by
  have hlength : w.bits.length = w.out.length * 8 + w.nbits := by
    rw [bits, List.length_append, flatMap_byteBits_length, bitsOf_length, Nat.mul_comm]
  have := wf.pending
  rw [finishBits, hlength, padding]
  split
  case isTrue hpart =>
    refine ⟨?_, rfl⟩
    rw [Nat.mod_eq_of_lt (by omega), List.flatMap_append, List.flatMap_singleton,
      padded_byte wf, ← List.append_assoc, bits]
  case isFalse hpart =>
    refine ⟨?_, rfl⟩
    have hnone : w.nbits = 0 := by omega
    rw [bits, hnone]
    simp

theorem finish_eq (wf : w.Wf) : w.finish = w.finishBits.1 := by
  rw [finish, finishBits]
  split
  case isFalse => rfl
  case isTrue hpart =>
    have hwhole : w.nbits + (8 - w.nbits) = 8 := by have := wf.pending; omega
    rw [writeBits, hwhole, spill, if_pos (by decide), spill, if_neg (by decide)]
    simp

end BitWriter

/-- A call on the writer. -/
inductive WriterCall
  | bits (n : Nat) (val : UInt32)
  | magic (value : UInt64)
  | u32 (val : UInt32)
  | buffer (bytes : List UInt8) (bitLen : Nat)
  | drain
  deriving DecidableEq

namespace WriterCall

/-- What the debug assertions of the writer ask for. -/
def Allowed : WriterCall → Prop
  | bits n _ => n ≤ 32
  | buffer bytes bitLen => bitLen ≤ 8 * bytes.length
  | _ => True

instance : DecidablePred Allowed
  | bits n _ => inferInstanceAs (Decidable (n ≤ 32))
  | buffer bytes bitLen => inferInstanceAs (Decidable (bitLen ≤ 8 * bytes.length))
  | magic _ | u32 _ | drain => inferInstanceAs (Decidable True)

/-- The bits that a call writes. -/
def written : WriterCall → List Bool
  | bits n val => bitsOf n val.toNat
  | magic value => bitsOf 48 value.toNat
  | u32 val => bitsOf 32 val.toNat
  | buffer bytes bitLen => (bytes.flatMap byteBits).take bitLen
  | drain => []

/-- The bytes that a call hands off, and the writer after it. -/
def call (w : BitWriter) : WriterCall → List UInt8 × BitWriter
  | bits n val => ([], w.writeBits n val.toNat)
  | magic value => ([], w.writeMagic value.toNat)
  | u32 val => ([], w.writeU32 val)
  | buffer bytes bitLen => ([], w.writeBuffer bytes bitLen)
  | drain => w.drain

/-- All bytes that the calls hand off, and the writer after the last one. -/
def run (w : BitWriter) : List WriterCall → List UInt8 × BitWriter
  | [] => ([], w)
  | c :: calls =>
    let (drained, w) := c.call w
    let (rest, w) := run w calls
    (drained ++ rest, w)

variable {w : BitWriter} {calls : List WriterCall}

private theorem call_wf (wf : w.Wf) (c : WriterCall) : (c.call w).2.Wf := by
  cases c with
  | bits n val => exact BitWriter.writeBits_wf ..
  | magic value => exact BitWriter.writeBits_wf ..
  | u32 val => exact BitWriter.writeBits_wf ..
  | buffer bytes bitLen => exact BitWriter.writeBuffer_wf wf bytes bitLen
  | drain => exact ⟨wf.pending, wf.masked⟩

private theorem call_bits (wf : w.Wf) {c : WriterCall} (allowed : c.Allowed) :
    (c.call w).1.flatMap byteBits ++ (c.call w).2.bits = w.bits ++ c.written := by
  cases c with
  | bits n val => exact BitWriter.writeBits_bits ..
  | magic value => exact BitWriter.writeMagic_bits ..
  | u32 val => exact BitWriter.writeBits_bits ..
  | buffer bytes bitLen => exact BitWriter.writeBuffer_bits wf allowed
  | drain =>
    show w.out.flatMap byteBits ++ ([] ++ bitsOf w.nbits w.acc) = w.bits ++ []
    rw [List.nil_append, List.append_nil, BitWriter.bits]

private theorem run_wf (wf : w.Wf) (calls : List WriterCall) : (run w calls).2.Wf := by
  induction calls generalizing w with
  | nil => exact wf
  | cons c calls ih => exact ih (call_wf wf c)

private theorem run_bits (wf : w.Wf) (allowed : ∀ c ∈ calls, c.Allowed) :
    (run w calls).1.flatMap byteBits ++ (run w calls).2.bits =
      w.bits ++ calls.flatMap written := by
  induction calls generalizing w with
  | nil => simp [run]
  | cons c calls ih =>
    have hcall := call_bits wf (allowed c List.mem_cons_self)
    have hrest := ih (call_wf wf c) fun c' hc' => allowed c' (List.mem_cons_of_mem c hc')
    show ((c.call w).1 ++ (run (c.call w).2 calls).1).flatMap byteBits ++ _ = _
    rw [List.flatMap_append, List.append_assoc]
    show _ ++ (_ ++ (run (c.call w).2 calls).2.bits) = _
    rw [hrest, ← List.append_assoc, hcall, List.append_assoc, List.flatMap_cons]

private theorem run_undrained (calls : List WriterCall) (h : drain ∉ calls) : (run w calls).1 =
    [] := by
  induction calls generalizing w with
  | nil => rfl
  | cons c calls ih =>
    rw [List.mem_cons, not_or] at h
    have hnone : (c.call w).1 = [] := by
      cases c with
      | drain => exact absurd rfl h.1
      | _ => rfl
    show (c.call w).1 ++ (run (c.call w).2 calls).1 = []
    rw [hnone, ih h.2, List.append_nil]

/-- All bytes of a stream: what was handed off, and the rest. -/
def stream (calls : List WriterCall) : List UInt8 :=
  (run {} calls).1 ++ (run {} calls).2.finish

/-- A finished block: its bytes, and the number of bits that count. -/
def block (calls : List WriterCall) : List UInt8 × Nat := (run {} calls).2.finishBits

private theorem stream_bits (allowed : ∀ c ∈ calls, c.Allowed) :
    ∃ pad < 8, (stream calls).flatMap byteBits =
      calls.flatMap written ++ List.replicate pad false := by
  have hwf := run_wf BitWriter.wf_empty calls
  have hrun := run_bits BitWriter.wf_empty allowed
  rw [BitWriter.bits_empty, List.nil_append] at hrun
  refine ⟨_, BitWriter.padding_lt (run {} calls).2, ?_⟩
  rw [stream, List.flatMap_append, BitWriter.finish_eq hwf, (BitWriter.finishBits_bits hwf).1,
    ← List.append_assoc, hrun]

private theorem block_bits (undrained : drain ∉ calls) (allowed : ∀ c ∈ calls, c.Allowed) :
    block calls = (stream calls, (calls.flatMap written).length) := by
  have hwf := run_wf BitWriter.wf_empty calls
  have hrun := run_bits BitWriter.wf_empty allowed
  rw [run_undrained calls undrained, BitWriter.bits_empty] at hrun
  have hstream : stream calls = (block calls).1 := by
    rw [stream, run_undrained calls undrained, List.nil_append, BitWriter.finish_eq hwf, block]
  have hlength : (block calls).2 = (calls.flatMap written).length := by
    rw [block, (BitWriter.finishBits_bits hwf).2]
    exact congrArg List.length hrun
  rw [hstream, ← hlength]

private theorem block_written (undrained : drain ∉ calls) (allowed : ∀ c ∈ calls, c.Allowed) :
    (buffer (block calls).1 (block calls).2).Allowed ∧
      (buffer (block calls).1 (block calls).2).written = calls.flatMap written := by
  obtain ⟨pad, -, hbits⟩ := stream_bits allowed
  rw [block_bits undrained allowed, Allowed, written, hbits, ← flatMap_byteBits_length, hbits]
  exact ⟨by simp, List.take_left⟩

end WriterCall

/-- The bytes of the writer are the bits of its calls, padded to a whole byte, however often it is
drained. A finished block has its exact length, and adds its bits at any place. -/
theorem bitWriter_exact (calls : List WriterCall) (allowed : ∀ c ∈ calls, c.Allowed) :
    (∃ pad < 8, (WriterCall.stream calls).flatMap byteBits =
      calls.flatMap WriterCall.written ++ List.replicate pad false) ∧
    (WriterCall.drain ∉ calls →
      WriterCall.block calls =
        (WriterCall.stream calls, (calls.flatMap WriterCall.written).length) ∧
      ∀ before after, (∀ c ∈ before, c.Allowed) → (∀ c ∈ after, c.Allowed) →
        ∃ pad < 8, (WriterCall.stream (before ++
            .buffer (WriterCall.block calls).1 (WriterCall.block calls).2 :: after)).flatMap
              byteBits =
          before.flatMap WriterCall.written ++ calls.flatMap WriterCall.written ++
            after.flatMap WriterCall.written ++ List.replicate pad false) := by
  refine ⟨WriterCall.stream_bits allowed, fun undrained =>
    ⟨WriterCall.block_bits undrained allowed, ?_⟩⟩
  intro before after hbefore hafter
  obtain ⟨hbuffer, hwritten⟩ := WriterCall.block_written undrained allowed
  have hall : ∀ c ∈ before ++
      .buffer (WriterCall.block calls).1 (WriterCall.block calls).2 :: after, c.Allowed := by
    intro c hc
    rcases List.mem_append.mp hc with hc | hc
    · exact hbefore c hc
    · rcases List.mem_cons.mp hc with rfl | hc
      · exact hbuffer
      · exact hafter c hc
  have hstream := WriterCall.stream_bits hall
  rw [List.flatMap_append, List.flatMap_cons, hwritten] at hstream
  simpa only [List.append_assoc] using hstream

/-- Five bits, a drained word and a block of three bits, and a block without a drain. -/
theorem bitWriter_exact_mixed :
    (∃ pad < 8, (WriterCall.stream [.bits 5 0xff, .u32 0xdeadbeef, .drain,
        .buffer [0xa0] 3]).flatMap byteBits =
      [.bits 5 0xff, .u32 0xdeadbeef, .drain, .buffer [0xa0] 3].flatMap WriterCall.written ++
        List.replicate pad false) ∧
    WriterCall.block [.bits 5 0xff, .buffer [0xa0] 3] =
      (WriterCall.stream [.bits 5 0xff, .buffer [0xa0] 3], 8) :=
  ⟨(bitWriter_exact _ (by decide)).1, ((bitWriter_exact _ (by decide)).2 (by decide)).1⟩

end Fbz.Bzip2
