import Fbz.Error
import Fbz.History

/-!
# Byte strings

Bounded ranges, little-endian numbers and the number formats of the error texts. Lengths and
offsets are natural numbers: a byte string is shorter than an address can count.
-/

namespace Fbz

/-- `data.get(start..stop)`. -/
def range? (data : List UInt8) (start stop : Nat) : Option (List UInt8) :=
  if start ≤ stop ∧ stop ≤ data.length then some (slice data start stop) else none

/-- Little-endian value, `from_le_bytes`. -/
def leNat : List UInt8 → Nat
  | [] => 0
  | b :: bs => b.toNat + 256 * leNat bs

/-- The low `width` bytes, `to_le_bytes`. -/
def toLe : Nat → Nat → List UInt8
  | 0, _ => []
  | width + 1, n => UInt8.ofNat n :: toLe width (n / 256)

/-- Lower-case hexadecimal with at least `width` digits. -/
def hex (width n : Nat) : String :=
  let digits := Nat.toDigits 16 n
  String.ofList (List.replicate (width - digits.length) '0' ++ digits)

@[simp] theorem toLe_length (width n : Nat) : (toLe width n).length = width := by
  induction width generalizing n with
  | zero => rfl
  | succ width ih => rw [toLe, List.length_cons, ih]

theorem leNat_toLe (width n : Nat) : leNat (toLe width n) = n % 256 ^ width := by
  induction width generalizing n with
  | zero => simp [toLe, leNat, Nat.mod_one]
  | succ width ih =>
    have hbyte : (UInt8.ofNat n).toNat = n % 256 := UInt8.toNat_ofNat'
    rw [toLe, leNat, ih, hbyte, Nat.pow_succ', Nat.mod_mul]

theorem leNat_toLe_of_lt {width n : Nat} (lt : n < 256 ^ width) : leNat (toLe width n) = n := by
  rw [leNat_toLe, Nat.mod_eq_of_lt lt]

theorem leNat_lt (bytes : List UInt8) : leNat bytes < 256 ^ bytes.length := by
  induction bytes with
  | nil => simp [leNat]
  | cons byte bytes ih =>
    have := byte.toNat_lt
    rw [leNat, List.length_cons, Nat.pow_succ']
    omega

theorem toLe_leNat (bytes : List UInt8) : toLe bytes.length (leNat bytes) = bytes := by
  induction bytes with
  | nil => rfl
  | cons byte bytes ih =>
    have hlt := byte.toNat_lt
    rw [List.length_cons, leNat, toLe, show (byte.toNat + 256 * leNat bytes) / 256 = leNat bytes by
      omega, ih]
    congr 1
    refine UInt8.toNat_inj.mp (UInt8.toNat_ofNat'.trans ?_)
    omega

theorem range?_eq_some {data bytes : List UInt8} {start stop : Nat} :
    range? data start stop = some bytes ↔
      start ≤ stop ∧ stop ≤ data.length ∧ bytes = slice data start stop := by
  unfold range?
  split
  case isTrue h => simp [h, eq_comm]
  case isFalse h =>
    simp only [reduceCtorEq, false_iff]
    exact fun hall => h ⟨hall.1, hall.2.1⟩

theorem range?_length {data bytes : List UInt8} {start stop : Nat}
    (h : range? data start stop = some bytes) : bytes.length = stop - start := by
  obtain ⟨-, hle, rfl⟩ := range?_eq_some.mp h
  exact slice_length hle

theorem range?_append (front piece back : List UInt8) :
    range? (front ++ piece ++ back) front.length (front.length + piece.length) = some piece := by
  refine range?_eq_some.mpr ⟨by omega, by simp only [List.length_append]; omega, ?_⟩
  rw [slice, List.append_assoc, List.drop_left, Nat.add_sub_cancel_left, List.take_left]

end Fbz
