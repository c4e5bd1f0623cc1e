import Fbz.Bytes
import Fbz.Options

/-!
# A byte string inside a longer one

What is read from a byte string is read from the same place of any string that contains it. What a
decoder reports there moves by what the part before it has counted.
-/

namespace Fbz

/-- What the part of an input before a place has counted; a unit is a member or a frame. -/
structure Shift where
  compressed : Nat
  decoded : Nat
  units : Nat
  blocks : Nat

def Shift.none : Shift := ⟨0, 0, 0, 0⟩

def DecodeProgress.move (shift : Shift) (progress : DecodeProgress) : DecodeProgress :=
  ⟨shift.compressed + progress.compressedBytes, shift.decoded + progress.decodedBytes⟩

@[simp] theorem DecodeProgress.move_none : DecodeProgress.move .none = id :=
  funext fun _ => by simp [DecodeProgress.move, Shift.none]

variable {α : Type} {front data back : List α}

theorem slice_embed {start stop : Nat} (le : stop ≤ data.length) :
    slice (front ++ data ++ back) (front.length + start) (front.length + stop) =
      slice data start stop := by
  rw [slice, slice, List.append_assoc, List.drop_append, List.drop_of_length_le (by omega),
    List.nil_append, Nat.add_sub_cancel_left, Nat.add_sub_add_left]
  rcases Nat.le_total start data.length with hle | hle
  · rw [List.drop_append_of_le_length hle, List.take_append_of_le_length]
    rw [List.length_drop]
    omega
  · rw [show stop - start = 0 by omega, List.take_zero, List.take_zero]

private theorem getElem?_embed {i : Nat} (lt : i < data.length) :
    (front ++ data ++ back)[front.length + i]? = data[i]? := by
  rw [List.append_assoc, List.getElem?_append_right (Nat.le_add_right ..),
    Nat.add_sub_cancel_left, List.getElem?_append_left lt]

theorem getElem?_embed_some {i : Nat} {a : α} (h : data[i]? = some a) :
    (front ++ data ++ back)[front.length + i]? = some a := by
  rw [getElem?_embed (List.getElem?_eq_some_iff.mp h).1, h]

theorem getD_embed {i : Nat} (lt : i < data.length) (fallback : α) :
    (front ++ data ++ back).getD (front.length + i) fallback = data.getD i fallback := by
  rw [List.getD_eq_getElem?_getD, getElem?_embed lt, List.getD_eq_getElem?_getD]

theorem length_embed_le {position : Nat} (le : position ≤ data.length) :
    front.length + position ≤ (front ++ data ++ back).length := by
  rw [List.length_append, List.length_append]
  omega

theorem bits_embed_le {bit : Nat} (le : bit ≤ data.length * 8) :
    8 * front.length + bit ≤ (front ++ data ++ back).length * 8 := by
  rw [List.length_append, List.length_append]
  omega

theorem range?_embed {front data back bytes : List UInt8} {start stop : Nat}
    (h : range? data start stop = some bytes) :
    range? (front ++ data ++ back) (front.length + start) (front.length + stop) = some bytes := by
  obtain ⟨hle, hfits, rfl⟩ := range?_eq_some.mp h
  exact range?_eq_some.mpr ⟨by omega, length_embed_le hfits, (slice_embed hfits).symm⟩

end Fbz
