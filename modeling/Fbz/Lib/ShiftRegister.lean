import Mathlib.Algebra.Order.Ring.Int
import Mathlib.Logic.Function.Iterate

/-!
# Shift registers

Division by a polynomial over two elements, one bit after the other and the most significant one
first. A step is linear, so that bits can be fed several at a time: the register moves on by itself,
and what the bits alone would leave is added.
-/

namespace Fbz.ShiftRegister

variable {w : Nat} (polynomial : BitVec w)

/-- A step with nothing coming in. -/
def shift (register : BitVec w) : BitVec w :=
  if register.msb then (register <<< 1) ^^^ polynomial else register <<< 1

/-- A step: the bit that falls out and the bit that comes in decide together. -/
def feed (register : BitVec w) (bit : Bool) : BitVec w :=
  if register.msb != bit then (register <<< 1) ^^^ polynomial else register <<< 1

theorem shift_xor (a b : BitVec w) :
    shift polynomial (a ^^^ b) = shift polynomial a ^^^ shift polynomial b := by
  have hcancel (x y : BitVec w) : (x ^^^ polynomial) ^^^ (y ^^^ polynomial) = x ^^^ y := by
    rw [BitVec.xor_assoc, BitVec.xor_comm y, ← BitVec.xor_assoc polynomial, BitVec.xor_self,
      BitVec.zero_xor]
  simp only [shift, BitVec.msb_xor, BitVec.shiftLeft_xor_distrib]
  cases a.msb <;> cases b.msb
  · rfl
  · exact BitVec.xor_assoc ..
  · simp only [Bool.bne_false, if_true, Bool.false_eq_true, if_false]
    rw [BitVec.xor_assoc, BitVec.xor_comm (b <<< 1), ← BitVec.xor_assoc]
  · simp only [bne_self_eq_false, Bool.false_eq_true, if_false, if_true]
    exact (hcancel _ _).symm

theorem shifts_xor (count : Nat) (a b : BitVec w) :
    (shift polynomial)^[count] (a ^^^ b) =
      (shift polynomial)^[count] a ^^^ (shift polynomial)^[count] b := by
  induction count generalizing a b with
  | zero => rfl
  | succ count ih => simp only [Function.iterate_succ_apply, shift_xor, ih]

/-- The bit that comes in is one more term. -/
theorem feed_eq (register : BitVec w) (bit : Bool) :
    feed polynomial register bit = shift polynomial register ^^^ feed polynomial (0#w) bit := by
  simp only [feed, shift, BitVec.msb_zero, BitVec.zero_shiftLeft, BitVec.zero_xor]
  cases register.msb <;> cases bit
  · exact (BitVec.xor_zero).symm
  · rfl
  · exact (BitVec.xor_zero).symm
  · simp only [bne_self_eq_false, Bool.false_bne, Bool.false_eq_true, if_false, if_true]
    rw [BitVec.xor_assoc, BitVec.xor_self, BitVec.xor_zero]

/-- Several bits at a time. -/
theorem foldl_feed (register : BitVec w) (bits : List Bool) :
    bits.foldl (feed polynomial) register =
      (shift polynomial)^[bits.length] register ^^^ bits.foldl (feed polynomial) (0#w) := by
  induction bits generalizing register with
  | nil => exact (BitVec.xor_zero).symm
  | cons bit bits ih =>
    rw [List.foldl_cons, ih, feed_eq, shifts_xor, List.foldl_cons, ih (feed polynomial (0#w) bit),
      List.length_cons, Function.iterate_succ_apply, BitVec.xor_assoc]

/-- As long as zeros fall out, the register only moves. -/
theorem shifts_low {count : Nat} {register : BitVec w}
    (low : ∀ i, w ≤ i + count → register.getLsbD i = false) :
    (shift polynomial)^[count] register = register <<< count := by
  induction count with
  | zero => exact (BitVec.shiftLeft_zero ..).symm
  | succ count ih =>
    have hmsb : (register <<< count).msb = false := by
      rw [BitVec.msb_eq_getLsbD_last, BitVec.getLsbD_shiftLeft]
      rcases Nat.lt_or_ge (w - 1) count with hlt | hge
      · simp [hlt]
      · rw [low _ (by omega), Bool.and_false]
    rw [Function.iterate_succ_apply', ih fun i hi => low i (by omega), shift, hmsb,
      BitVec.shiftLeft_add]
    rfl

/-- The bits that fall out leave what they would leave alone. -/
theorem shifts_split {count : Nat} (le : count ≤ w) (register : BitVec w) :
    (shift polynomial)^[count] register = (register <<< count) ^^^
      (shift polynomial)^[count] ((register >>> (w - count)) <<< (w - count)) := by
  have hsplit : register = ((register <<< count) >>> count) ^^^
      ((register >>> (w - count)) <<< (w - count)) := by
    apply BitVec.eq_of_getLsbD_eq
    intro i hi
    simp only [BitVec.getLsbD_xor, BitVec.getLsbD_ushiftRight, BitVec.getLsbD_shiftLeft]
    rcases Nat.lt_or_ge i (w - count) with hlt | hge
    · simp [hlt, show count + i < w by omega]
    · simp [show ¬ i < w - count by omega, show ¬ count + i < w by omega, hi,
        show w - count + (i - (w - count)) = i by omega]
  have hlow : (shift polynomial)^[count] ((register <<< count) >>> count) = register <<< count := by
    rw [shifts_low]
    · apply BitVec.eq_of_getLsbD_eq
      intro i hi
      simp only [BitVec.getLsbD_ushiftRight, BitVec.getLsbD_shiftLeft]
      rcases Nat.lt_or_ge i count with hlt | hge
      · simp [hlt]
      · simp [hi, show ¬ i < count by omega, show count + (i - count) = i by omega]
    · intro i hi
      rw [BitVec.getLsbD_ushiftRight, BitVec.getLsbD_shiftLeft]
      simp [show ¬ count + i < w by omega]
  calc (shift polynomial)^[count] register
      = (shift polynomial)^[count] (((register <<< count) >>> count) ^^^
          ((register >>> (w - count)) <<< (w - count))) := by rw [← hsplit]
    _ = (register <<< count) ^^^
          (shift polynomial)^[count] ((register >>> (w - count)) <<< (w - count)) := by
        rw [shifts_xor, hlow]

end Fbz.ShiftRegister
