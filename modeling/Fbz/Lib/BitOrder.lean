import Mathlib.Data.Nat.Bitwise
import Mathlib.Tactic.Ring

/-!
# Numbers from bits

A range of a bit string as a number, with the first bit highest or lowest.
-/

namespace Fbz.BitOrder

/-- The first bit is the highest. -/
def highFirst (bit : Nat → Bool) (start : Nat) : Nat → Nat
  | 0 => 0
  | count + 1 => 2 * highFirst bit start count + (bit (start + count)).toNat

/-- The first bit is the lowest. -/
def lowFirst (bit : Nat → Bool) (start : Nat) : Nat → Nat
  | 0 => 0
  | count + 1 => (bit start).toNat + 2 * lowFirst bit (start + 1) count

variable {bit : Nat → Bool} {start count value : Nat}

@[simp] theorem highFirst_zero (bit : Nat → Bool) (start : Nat) : highFirst bit start 0 = 0 := rfl

@[simp] theorem lowFirst_zero (bit : Nat → Bool) (start : Nat) : lowFirst bit start 0 = 0 := rfl

theorem highFirst_lt (bit : Nat → Bool) (start count : Nat) :
    highFirst bit start count < 2 ^ count := by
  induction count with
  | zero => exact Nat.one_pos
  | succ count ih =>
    have := Bool.toNat_lt (bit (start + count))
    rw [highFirst, Nat.pow_succ]
    omega

theorem lowFirst_lt (bit : Nat → Bool) (start count : Nat) :
    lowFirst bit start count < 2 ^ count := by
  induction count generalizing start with
  | zero => exact Nat.one_pos
  | succ count ih =>
    have := Bool.toNat_lt (bit start)
    have := ih (start + 1)
    rw [lowFirst, Nat.pow_succ]
    omega

/-- A longer range begins with the shorter one. -/
theorem highFirst_add (bit : Nat → Bool) (start count more : Nat) :
    highFirst bit start (count + more) =
      highFirst bit start count * 2 ^ more + highFirst bit (start + count) more := by
  induction more with
  | zero => simp
  | succ more ih =>
    rw [← Nat.add_assoc, highFirst, ih, highFirst, Nat.add_assoc start, Nat.pow_succ]
    ring

theorem highFirst_div (bit : Nat → Bool) (start count more : Nat) :
    highFirst bit start (count + more) / 2 ^ more = highFirst bit start count := by
  rw [highFirst_add, Nat.add_comm, Nat.add_mul_div_right _ _ (Nat.two_pow_pos more),
    Nat.div_eq_of_lt (highFirst_lt bit _ more), Nat.zero_add]

/-- A range in the middle, cut out by a division and a remainder. -/
theorem highFirst_div_mod (bit : Nat → Bool) (start before count more : Nat) :
    highFirst bit start (before + count + more) / 2 ^ more % 2 ^ count =
      highFirst bit (start + before) count := by
  rw [highFirst_div, highFirst_add, Nat.mul_comm, Nat.mul_add_mod,
    Nat.mod_eq_of_lt (highFirst_lt ..)]

/-- A range in the middle, cut out by a shift that loses the bits before it. -/
theorem highFirst_mul_mod_div (bit : Nat → Bool) (start before count more : Nat) :
    highFirst bit start (before + (count + more)) * 2 ^ before % 2 ^ (before + (count + more)) /
        2 ^ (before + more) = highFirst bit (start + before) count := by
  have hrest := highFirst_lt bit (start + before) (count + more)
  rw [highFirst_add, Nat.add_mul, Nat.mul_assoc, ← Nat.pow_add, Nat.add_comm (count + more) before,
    Nat.mul_comm (highFirst bit start before), Nat.mul_add_mod, Nat.mod_eq_of_lt, Nat.pow_add,
    Nat.mul_comm (highFirst bit (start + before) (count + more)),
    Nat.mul_div_mul_left _ _ (Nat.two_pow_pos before), highFirst_div]
  rw [Nat.pow_add, Nat.mul_comm]
  exact Nat.mul_lt_mul_of_pos_left hrest (Nat.two_pow_pos before)

theorem lowFirst_add (bit : Nat → Bool) (start count more : Nat) :
    lowFirst bit start (count + more) =
      lowFirst bit start count + 2 ^ count * lowFirst bit (start + count) more := by
  induction count generalizing start with
  | zero => simp
  | succ count ih =>
    rw [Nat.add_right_comm, lowFirst, ih, lowFirst, Nat.add_right_comm start 1 count, Nat.pow_succ,
      ← Nat.add_assoc start count 1]
    ring

theorem lowFirst_mod (bit : Nat → Bool) (start count more : Nat) :
    lowFirst bit start (count + more) % 2 ^ count = lowFirst bit start count := by
  rw [lowFirst_add, Nat.add_mul_mod_self_left, Nat.mod_eq_of_lt (lowFirst_lt bit start count)]

theorem toNat_testBit (value i : Nat) : (value.testBit i).toNat = value >>> i % 2 := by
  rw [Nat.testBit, Nat.and_comm, Nat.and_one_is_mod]
  rcases Nat.mod_two_eq_zero_or_one (value >>> i) with h | h <;> simp [h]

/-- The low bits of a number are the range of its bits. -/
theorem lowFirst_testBit (value start count : Nat) :
    lowFirst value.testBit start count = value >>> start % 2 ^ count := by
  induction count generalizing start with
  | zero => simp [Nat.mod_one]
  | succ count ih =>
    rw [lowFirst, ih, toNat_testBit, Nat.shiftRight_succ, Nat.pow_succ', Nat.mod_mul]

/-- The high bits of a number of `width` bits. -/
theorem highFirst_testBit {width : Nat} (value : Nat) (le : count ≤ width) :
    highFirst (fun i => value.testBit (width - 1 - i)) 0 count =
      value >>> (width - count) % 2 ^ count := by
  induction count with
  | zero => simp [Nat.mod_one]
  | succ count ih =>
    have hshift : value >>> (width - count) = value >>> (width - (count + 1)) / 2 := by
      rw [show width - count = width - (count + 1) + 1 by omega, Nat.shiftRight_succ]
    rw [highFirst, ih (by omega), Nat.zero_add, toNat_testBit, hshift, Nat.pow_succ', Nat.mod_mul,
      show width - 1 - count = width - (count + 1) by omega]
    omega

theorem highFirst_congr {other : Nat → Bool} {start' : Nat}
    (h : ∀ i < count, bit (start + i) = other (start' + i)) :
    highFirst bit start count = highFirst other start' count := by
  induction count with
  | zero => rfl
  | succ count ih =>
    rw [highFirst, highFirst, ih fun i hi => h i (by omega), h count (by omega)]

theorem lowFirst_congr {other : Nat → Bool} {start' : Nat}
    (h : ∀ i < count, bit (start + i) = other (start' + i)) :
    lowFirst bit start count = lowFirst other start' count := by
  induction count generalizing start start' with
  | zero => rfl
  | succ count ih =>
    have hfirst := h 0 (by omega)
    rw [Nat.add_zero, Nat.add_zero] at hfirst
    rw [lowFirst, lowFirst, hfirst, @ih (start + 1) (start' + 1) fun i hi => by
      have := h (i + 1) (by omega)
      rwa [← Nat.add_assoc, ← Nat.add_assoc, Nat.add_right_comm start,
        Nat.add_right_comm start'] at this]

/-- The low `width` bits of a number, the highest first. -/
def bitsOf : Nat → Nat → List Bool
  | 0, _ => []
  | width + 1, value => value.testBit width :: bitsOf width value

@[simp] theorem bitsOf_zero (value : Nat) : bitsOf 0 value = [] := rfl

@[simp] theorem bitsOf_length (width value : Nat) : (bitsOf width value).length = width := by
  induction width with
  | zero => rfl
  | succ width ih => rw [bitsOf, List.length_cons, ih]

theorem bitsOf_congr {width other : Nat} (h : ∀ i < width, value.testBit i = other.testBit i) :
    bitsOf width value = bitsOf width other := by
  induction width with
  | zero => rfl
  | succ width ih =>
    rw [bitsOf, bitsOf, h width (Nat.lt_succ_self width),
      ih fun i hi => h i (Nat.lt_succ_of_lt hi)]

theorem bitsOf_mod (width value : Nat) : bitsOf width (value % 2 ^ width) = bitsOf width value := by
  apply bitsOf_congr
  intro i hi
  rw [Nat.testBit_mod_two_pow]
  simp [hi]

/-- The high bits of a number come before its low bits. -/
theorem bitsOf_add (width more value : Nat) :
    bitsOf (width + more) value = bitsOf width (value >>> more) ++ bitsOf more value := by
  induction width with
  | zero => rw [Nat.zero_add, bitsOf_zero, List.nil_append]
  | succ width ih =>
    rw [Nat.add_right_comm, bitsOf, bitsOf, ih, Nat.testBit_shiftRight, Nat.add_comm more width,
      List.cons_append]

/-- A shift makes room for the low bits of another number. -/
theorem bitsOf_append (width more value other : Nat) :
    bitsOf (width + more) (value <<< more ||| other % 2 ^ more) =
      bitsOf width value ++ bitsOf more other := by
  rw [bitsOf_add]
  congr 1
  · apply bitsOf_congr
    intro i _
    have hhigh : (other % 2 ^ more).testBit (more + i) = false := by
      rw [Nat.testBit_mod_two_pow]
      simp
    rw [Nat.testBit_shiftRight, Nat.testBit_or, hhigh, Nat.testBit_shiftLeft]
    simp
  · apply bitsOf_congr
    intro i hi
    rw [Nat.testBit_or, Nat.testBit_shiftLeft, Nat.testBit_mod_two_pow]
    simp [hi, Nat.not_le.mpr hi]

theorem bitsOf_zeros (width : Nat) : bitsOf width 0 = List.replicate width false := by
  induction width with
  | zero => rfl
  | succ width ih => rw [bitsOf, ih, Nat.zero_testBit, List.replicate_succ]

end Fbz.BitOrder
