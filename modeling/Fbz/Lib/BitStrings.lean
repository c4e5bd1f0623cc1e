import Fbz.Lib.BitOrder

/-!
# Bit strings with the lowest bit first

Numbers and bytes as lists of bits. Bytes are read from their low end, so the bits of a byte string
are those of its bytes one after the other.
-/

namespace Fbz.BitOrder

/-- The low `width` bits of a number, the lowest first. -/
def lowBits : Nat → Nat → List Bool
  | 0, _ => []
  | width + 1, value => value.testBit 0 :: lowBits width (value / 2)

variable {width more value other : Nat}

@[simp] theorem lowBits_zero (value : Nat) : lowBits 0 value = [] := rfl

@[simp] theorem lowBits_length (width value : Nat) : (lowBits width value).length = width := by
  induction width generalizing value with
  | zero => rfl
  | succ width ih => rw [lowBits, List.length_cons, ih]

theorem lowBits_getElem? (width value i : Nat) :
    (lowBits width value)[i]? = if i < width then some (value.testBit i) else none := by
  induction width generalizing value i with
  | zero => rfl
  | succ width ih =>
    rw [lowBits]
    cases i with
    | zero => simp
    | succ i => simp [ih, Nat.testBit_succ]

theorem lowBits_congr (h : ∀ i < width, value.testBit i = other.testBit i) :
    lowBits width value = lowBits width other := by
  apply List.ext_getElem?
  intro i
  rw [lowBits_getElem?, lowBits_getElem?]
  split
  case isTrue hi => rw [h i hi]
  case isFalse => rfl

theorem lowBits_mod (width value : Nat) : lowBits width (value % 2 ^ width) = lowBits width value := by
  apply lowBits_congr
  intro i hi
  simp [Nat.testBit_mod_two_pow, hi]

/-- The low bits of a number come before its high bits. -/
theorem lowBits_add (width more value : Nat) :
    lowBits (width + more) value = lowBits width value ++ lowBits more (value >>> width) := by
  apply List.ext_getElem?
  intro i
  rw [List.getElem?_append]
  simp only [lowBits_getElem?, lowBits_length, Nat.testBit_shiftRight]
  by_cases hi : i < width
  · rw [if_pos hi, if_pos hi, if_pos (by omega)]
  · rw [if_neg hi, show width + (i - width) = i by omega]
    simp only [show i < width + more ↔ i - width < more by omega]

/-- Another number is put above the low bits. -/
theorem lowBits_append (width more : Nat) {value : Nat} (lt : value < 2 ^ width) (other : Nat) :
    lowBits (width + more) (value ||| other <<< width) =
      lowBits width value ++ lowBits more other := by
  have hlow : lowBits width (value ||| other <<< width) = lowBits width value := by
    apply lowBits_congr
    intro i hi
    simp [Nat.testBit_or, Nat.testBit_shiftLeft, Nat.not_le.mpr hi]
  have hhigh : (value ||| other <<< width) >>> width = other := by
    rw [Nat.shiftRight_or_distrib, Nat.shiftLeft_shiftRight, Nat.shiftRight_eq_div_pow,
      Nat.div_eq_of_lt lt, Nat.zero_or]
  rw [lowBits_add, hlow, hhigh]

theorem lowBits_zeros (width : Nat) : lowBits width 0 = List.replicate width false := by
  induction width with
  | zero => rfl
  | succ width ih => rw [lowBits, Nat.zero_div, ih, Nat.zero_testBit, List.replicate_succ]

theorem lowBits_inj (hvalue : value < 2 ^ width) (hother : other < 2 ^ width)
    (h : lowBits width value = lowBits width other) : value = other := by
  apply Nat.eq_of_testBit_eq
  intro i
  by_cases hi : i < width
  · have hbit : (lowBits width value)[i]? = (lowBits width other)[i]? := by rw [h]
    rw [lowBits_getElem?, lowBits_getElem?, if_pos hi, if_pos hi] at hbit
    exact Option.some.inj hbit
  · have hpow : 2 ^ width ≤ 2 ^ i := Nat.pow_le_pow_right (by decide) (by omega)
    rw [Nat.testBit_lt_two_pow (by omega), Nat.testBit_lt_two_pow (by omega)]

/-- The same bits, the highest first. -/
theorem lowBits_reverse (width value : Nat) : (lowBits width value).reverse = bitsOf width value := by
  induction width with
  | zero => rfl
  | succ width ih =>
    rw [lowBits_add width 1, List.reverse_append, ih, bitsOf]
    simp [lowBits]

/-- The bits of the bytes, each from its low end. -/
def bitString (bytes : List UInt8) : List Bool := bytes.flatMap fun byte => lowBits 8 byte.toNat

@[simp] theorem bitString_nil : bitString [] = [] := rfl

@[simp] theorem bitString_cons (byte : UInt8) (bytes : List UInt8) :
    bitString (byte :: bytes) = lowBits 8 byte.toNat ++ bitString bytes := rfl

@[simp] theorem bitString_append (front back : List UInt8) :
    bitString (front ++ back) = bitString front ++ bitString back := List.flatMap_append

@[simp] theorem bitString_length (bytes : List UInt8) : (bitString bytes).length = 8 * bytes.length := by
  induction bytes with
  | nil => rfl
  | cons byte bytes ih =>
    rw [bitString_cons, List.length_append, lowBits_length, ih, List.length_cons]
    omega

/-- Eight bits of a number as a byte. -/
theorem lowBits_byte (value : Nat) : lowBits 8 (UInt8.ofNat value).toNat = lowBits 8 value := by
  rw [UInt8.toNat_ofNat']
  exact lowBits_mod 8 value

theorem bitString_drop (bytes : List UInt8) (count : Nat) :
    (bitString bytes).drop (8 * count) = bitString (bytes.drop count) := by
  rcases Nat.le_total count bytes.length with hle | hge
  · have hfront : (bitString (bytes.take count)).length = 8 * count := by
      rw [bitString_length, List.length_take, Nat.min_eq_left hle]
    conv_lhs => rw [← List.take_append_drop count bytes, bitString_append]
    rw [List.drop_left' hfront]
  · rw [List.drop_of_length_le hge, List.drop_of_length_le]
    · rfl
    · rw [bitString_length]
      omega

theorem bitString_inj {bytes others : List UInt8} (h : bitString bytes = bitString others) :
    bytes = others := by
  induction bytes generalizing others with
  | nil =>
    have hlength := congrArg List.length h
    rw [bitString_length, bitString_length, List.length_nil] at hlength
    exact (List.length_eq_zero_iff.mp (by omega)).symm
  | cons byte bytes ih =>
    cases others with
    | nil =>
      have hlength := congrArg List.length h
      rw [bitString_length, bitString_length, List.length_nil, List.length_cons] at hlength
      omega
    | cons other others =>
      rw [bitString_cons, bitString_cons] at h
      obtain ⟨hbyte, hbytes⟩ := List.append_inj h (by rw [lowBits_length, lowBits_length])
      have hbyte : byte = other :=
        UInt8.toNat_inj.mp (lowBits_inj byte.toNat_lt other.toNat_lt hbyte)
      rw [hbyte, ih hbytes]

theorem bitString_getElem? (bytes : List UInt8) (i : Nat) :
    (bitString bytes)[i]? =
      if i < 8 * bytes.length then some ((bytes.getD (i / 8) 0).toNat.testBit (i % 8)) else none := by
  induction bytes generalizing i with
  | nil => rfl
  | cons byte bytes ih =>
    rw [bitString_cons, List.getElem?_append, lowBits_length]
    by_cases hi : i < 8
    · rw [if_pos hi, lowBits_getElem?, if_pos hi, if_pos (by rw [List.length_cons]; omega),
        Nat.div_eq_of_lt hi, Nat.mod_eq_of_lt hi, List.getD_cons_zero]
    · obtain ⟨j, rfl⟩ := Nat.exists_eq_add_of_le (Nat.not_lt.mp hi)
      rw [if_neg hi, ih, Nat.add_sub_cancel_left, List.length_cons,
        show (8 + j) / 8 = j / 8 + 1 by omega, show (8 + j) % 8 = j % 8 by omega,
        List.getD_cons_succ]
      simp only [show 8 + j < 8 * (bytes.length + 1) ↔ j < 8 * bytes.length by omega]

end Fbz.BitOrder
