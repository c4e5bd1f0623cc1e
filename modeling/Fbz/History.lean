import Fbz.Lib.Checked
import Fbz.Lib.Lz

/-!
# Match expansion

`extend_match` with its four ways of copying, and that all of them are the copy one element at a
time. Callers pass a distance of at least one and at most the length of the output. The versions
with a question mark check every index and range, and return nothing where the code panics.
-/

namespace Fbz

open Lz

variable {α : Type}

/-- `&xs[start..stop]`. -/
def slice (xs : List α) (start stop : Nat) : List α := (xs.drop start).take (stop - start)

/-- `resize` to a larger length. -/
def resize (xs : List α) (length : Nat) : Option α → List α
  | some value => xs ++ List.replicate (length - xs.length) value
  | none => xs

/-- `copy_within`: the range is read before anything is overwritten. -/
def copyWithin (xs : List α) (start stop dest : Nat) : List α :=
  xs.take dest ++ slice xs start stop ++ xs.drop (dest + (stop - start))

/-- The loop that doubles the copied part. It is entered with `copied > 0`. -/
def doubleCopied (original length copied : Nat) (output : List α) : List α :=
  if _h : copied < length ∧ 0 < copied then
    let count := min copied (length - copied)
    doubleCopied original length (copied + count)
      (copyWithin output original (original + count) (original + copied))
  else output
termination_by length - copied
decreasing_by omega

def extendMatch (output : List α) (distance length : Nat) : List α :=
  let original := output.length
  if length ≤ distance then
    output ++ slice output (original - distance) (original - distance + length)
  else if distance = 1 then
    resize output (original + length) output[original - 1]?
  else if length ≤ distance * 2 then
    let output := output ++ slice output (original - distance) original
    output ++ slice output original (original + length - distance)
  else
    let output := resize output (original + length) output[original - distance]?
    doubleCopied original length distance
      (copyWithin output (original - distance) original original)

theorem slice_length {xs : List α} {start stop : Nat} (le : stop ≤ xs.length) :
    (slice xs start stop).length = stop - start := by
  simp only [slice, List.length_take, List.length_drop]
  omega

private theorem copyWithin_length {xs : List α} {start stop dest : Nat} (le : stop ≤ xs.length)
    (fits : dest + (stop - start) ≤ xs.length) :
    (copyWithin xs start stop dest).length = xs.length := by
  simp only [copyWithin, List.length_append, slice_length le, List.length_take, List.length_drop]
  omega

private theorem take_copyWithin {xs : List α} {start stop dest : Nat} (le : stop ≤ xs.length)
    (fits : dest + (stop - start) ≤ xs.length) :
    (copyWithin xs start stop dest).take (dest + (stop - start)) =
      xs.take dest ++ slice xs start stop := by
  rw [copyWithin, List.take_left']
  simp only [List.length_append, slice_length le, List.length_take]
  omega

theorem copyBack_short {output : List α} {distance length : Nat} (pos : 0 < distance)
    (le : distance ≤ output.length) (short : length ≤ distance) :
    copyBack distance length output =
      output ++ slice output (output.length - distance) (output.length - distance + length) := by
  have hslice : (slice output (output.length - distance)
      (output.length - distance + length)).length = length := by
    rw [slice_length (by omega)]; omega
  refine (eq_copyBack pos le ?_ (List.prefix_append _ _) fun i h1 h2 => ?_).symm
  · rw [List.length_append, hslice]
  · rw [List.length_append, hslice] at h2
    rw [List.getElem?_append_right h1, List.getElem?_append_left (by omega), slice,
      List.getElem?_take_of_lt (by omega), List.getElem?_drop]
    congr 1
    omega

private theorem copyBack_one {output : List α} {length : Nat} (le : 1 ≤ output.length) :
    copyBack 1 length output =
      resize output (output.length + length) output[output.length - 1]? := by
  have hlt : output.length - 1 < output.length := by omega
  rw [List.getElem?_eq_getElem hlt, resize, Nat.add_sub_cancel_left]
  refine (eq_copyBack (by omega) le (by simp) (List.prefix_append _ _) fun i h1 h2 => ?_).symm
  rw [List.length_append, List.length_replicate] at h2
  rw [List.getElem?_append_right h1, List.getElem?_replicate_of_lt (by omega)]
  rcases Nat.lt_or_eq_of_le h1 with h | rfl
  · rw [List.getElem?_append_right (by omega), List.getElem?_replicate_of_lt (by omega)]
  · rw [List.getElem?_append_left hlt, List.getElem?_eq_getElem hlt]

private theorem doubleCopied_eq {out output : List α} {distance length copied : Nat}
    (pos : 0 < distance)
    (le : distance ≤ out.length) (dvd : distance ∣ copied ∨ length ≤ copied) (some_copied : 0 < copied)
    (copied_le : copied ≤ length) (hlen : output.length = out.length + length)
    (htake : output.take (out.length + copied) = copyBack distance copied out) :
    doubleCopied out.length length copied output = copyBack distance length out := by
  induction copied, output using doubleCopied.induct out.length length with
  | case1 copied output h count ih =>
    rw [doubleCopied, dif_pos h]
    have hcount : count = min copied (length - copied) := rfl
    have hslice : slice output out.length (out.length + count) =
        ((copyBack distance copied out).drop out.length).take count := by
      rw [← htake, slice, List.drop_take, List.take_take]
      congr 1
      omega
    refine ih ?_ (by omega) (by omega) ?_ ?_
    · rcases Nat.lt_or_ge (copied + count) length with hlt | hge
      · have : count = copied := by omega
        rw [this]
        rcases dvd with hd | hd
        · exact .inl (Nat.dvd_add hd hd)
        · omega
      · exact .inr hge
    · rw [copyWithin_length (by omega) (by omega), hlen]
    · have := @take_copyWithin _ output out.length (out.length + count) (out.length + copied)
        (by omega) (by omega)
      rw [Nat.add_sub_cancel_left] at this
      rw [← Nat.add_assoc, this, htake, hslice,
        copyBack_repeat pos le (dvd.resolve_right (by omega)) (by omega)]
  | case2 copied output h =>
    rw [doubleCopied, dif_neg h]
    have : copied = length := by omega
    subst this
    rw [← htake, ← hlen, List.take_length]

/-- Every branch of `extend_match` is the copy one element at a time. -/
theorem extendMatch_eq_copyBack {output : List α} {distance length : Nat} (pos : 0 < distance)
    (le : distance ≤ output.length) :
    extendMatch output distance length = copyBack distance length output := by
  have hlt : output.length - distance < output.length := by omega
  unfold extendMatch
  split
  case isTrue short => exact (copyBack_short pos le short).symm
  case isFalse long =>
  split
  case isTrue one => subst one; exact (copyBack_one le).symm
  case isFalse many =>
  have hperiod := @copyBack_short _ _ _ distance pos le (Nat.le_refl _)
  rw [Nat.sub_add_cancel le] at hperiod
  split
  case isTrue twice =>
    obtain ⟨rest, rfl⟩ := Nat.exists_eq_add_of_le (Nat.le_of_not_le long)
    have hrep := @copyBack_repeat _ _ _ rest _ pos le (Nat.dvd_refl distance) (by omega)
    rw [hrep, hperiod]
    simp only [slice]
    congr 2
    omega
  case isFalse doubling =>
    simp only [List.getElem?_eq_getElem hlt, resize]
    have hlen : (output ++ List.replicate (output.length + length - output.length)
        output[output.length - distance]).length = output.length + length := by
      simp only [List.length_append, List.length_replicate]; omega
    refine doubleCopied_eq pos le (.inl (Nat.dvd_refl _)) pos (by omega) ?_ ?_
    · rw [copyWithin_length (by omega) (by omega), hlen]
    · have := @take_copyWithin _ _ (output.length - distance) output.length output.length
        (by omega) (Nat.le_trans (by omega) (Nat.le_of_eq hlen.symm))
      rw [show output.length - (output.length - distance) = distance by omega] at this
      rw [this, hperiod, List.take_left', slice, List.drop_append_of_le_length (by omega),
        List.take_append_of_le_length (by simp only [List.length_drop]; omega), slice]
      rfl

theorem extendMatch_length {output : List α} {distance length : Nat} (pos : 0 < distance)
    (le : distance ≤ output.length) :
    (extendMatch output distance length).length = output.length + length := by
  rw [extendMatch_eq_copyBack pos le, copyBack_length pos le]

/-- `extend_from_within`. -/
def extendFromWithin? (xs : List α) (start stop : Nat) : Option (List α) := do
  let added ← Checked.range xs start stop
  return xs ++ added

/-- `copy_within`: source and destination lie inside. -/
def copyWithin? (xs : List α) (start stop dest : Nat) : Option (List α) :=
  if start ≤ stop ∧ stop ≤ xs.length ∧ dest + (stop - start) ≤ xs.length then
    some (copyWithin xs start stop dest)
  else none

def doubleCopied? (original length copied : Nat) (output : List α) : Option (List α) :=
  if _h : copied < length ∧ 0 < copied then do
    let count := min copied (length - copied)
    let output ← copyWithin? output original (original + count) (original + copied)
    doubleCopied? original length (copied + count) output
  else some output
termination_by length - copied
decreasing_by omega

def extendMatch? (output : List α) (distance length : Nat) : Option (List α) := do
  let original := output.length
  let start ← Checked.sub original distance
  if length ≤ distance then
    extendFromWithin? output start (start + length)
  else if distance = 1 then
    let value ← output[start]?
    return output ++ List.replicate length value
  else if length ≤ distance * 2 then
    let output ← extendFromWithin? output start original
    let stop ← Checked.sub (original + length) distance
    extendFromWithin? output original stop
  else
    let value ← output[start]?
    let output ← copyWithin? (output ++ List.replicate length value) start original original
    doubleCopied? original length distance output

/-- `for _ in 0..length { output.push(output[output.len() - distance]) }`. -/
def pushMatch? (distance : Nat) : Nat → List α → Option (List α)
  | 0, output => some output
  | length + 1, output => do
    let start ← Checked.sub output.length distance
    let value ← output[start]?
    pushMatch? distance length (output ++ [value])

section Ranges

variable {output : List α} {distance length : Nat}

private theorem pushMatch?_eq (pos : 1 ≤ distance) (le : distance ≤ output.length) :
    pushMatch? distance length output = some (copyBack distance length output) := by
  induction length generalizing output with
  | zero => rfl
  | succ length ih =>
    have hlt : output.length - distance < output.length := by omega
    rw [pushMatch?, Checked.sub_of_le le, copyBack_succ pos le]
    simp only [Option.bind_eq_bind, Option.bind_some, List.getElem?_eq_getElem hlt]
    apply ih
    rw [List.length_append]
    omega

private theorem doubleCopied?_eq {original copied : Nat} (copied_le : copied ≤ length)
    (hlen : output.length = original + length) :
    doubleCopied? original length copied output =
      some (doubleCopied original length copied output) := by
  induction copied, output using doubleCopied.induct original length with
  | case1 copied output h count ih =>
    have hcount : count = min copied (length - copied) := rfl
    have hcopy : copyWithin? output original (original + count) (original + copied) =
        some (copyWithin output original (original + count) (original + copied)) :=
      if_pos ⟨by omega, by omega, by omega⟩
    rw [doubleCopied?, doubleCopied, dif_pos h, dif_pos h]
    simp only [← hcount, hcopy, Option.bind_eq_bind, Option.bind_some]
    apply ih (by omega)
    rw [copyWithin_length (by omega) (by omega), hlen]
  | case2 copied output h => rw [doubleCopied?, doubleCopied, dif_neg h, dif_neg h]

private theorem extendFromWithin?_eq {xs : List α} {start stop : Nat} (ordered : start ≤ stop)
    (inside : stop ≤ xs.length) :
    extendFromWithin? xs start stop = some (xs ++ slice xs start stop) := by
  rw [extendFromWithin?, Checked.range_of_le ordered inside]
  rfl

/-- Every range of `extend_match` lies inside the buffer. -/
theorem extendMatch?_eq (pos : 1 ≤ distance) (le : distance ≤ output.length) :
    extendMatch? output distance length = some (extendMatch output distance length) := by
  have hlt : output.length - distance < output.length := by omega
  rw [extendMatch?, extendMatch, Checked.sub_of_le le]
  simp only [Option.bind_eq_bind, Option.bind_some]
  split
  case isTrue short => exact extendFromWithin?_eq (by omega) (by omega)
  case isFalse long =>
  split
  case isTrue one =>
    subst one
    rw [List.getElem?_eq_getElem hlt, resize, Nat.add_sub_cancel_left]
    rfl
  case isFalse many =>
  split
  case isTrue twice =>
    have hslice : (slice output (output.length - distance) output.length).length = distance := by
      rw [slice_length (Nat.le_refl _)]
      omega
    rw [extendFromWithin?_eq (by omega) (Nat.le_refl _)]
    simp only [Option.bind_some, Checked.sub_of_le (show distance ≤ output.length + length by omega)]
    apply extendFromWithin?_eq (by omega)
    rw [List.length_append, hslice]
    omega
  case isFalse doubling =>
    simp only [List.getElem?_eq_getElem hlt, resize, Nat.add_sub_cancel_left, Option.bind_some]
    have hlen : (output ++ List.replicate length output[output.length - distance]).length =
        output.length + length := by
      rw [List.length_append, List.length_replicate]
    rw [copyWithin?, if_pos ⟨by omega, by omega, by omega⟩, Option.bind_some]
    apply doubleCopied?_eq (by omega)
    rw [copyWithin_length (by omega) (by omega), hlen]

/-- `extend_match` stays inside its buffer and appends what the loop over single elements appends. -/
theorem extendMatch_exact (output : List α) (distance length : Nat) (pos : 1 ≤ distance)
    (le : distance ≤ output.length) :
    ∃ added, added.length = length ∧ pushMatch? distance length output = some (output ++ added) ∧
      extendMatch? output distance length = some (output ++ added) := by
  obtain ⟨added, hadded⟩ := @prefix_copyBack _ _ length _ pos le
  refine ⟨added, ?_, ?_, ?_⟩
  · have hlen := @copyBack_length _ _ length _ pos le
    rw [← hadded, List.length_append] at hlen
    omega
  · rw [pushMatch?_eq pos le, hadded]
  · rw [extendMatch?_eq pos le, extendMatch_eq_copyBack pos le, hadded]

theorem extendMatch_exact_two : ∃ added, added.length = 7 ∧
    pushMatch? 2 7 [1, 2, 3] = some ([1, 2, 3] ++ added) ∧
      extendMatch? [1, 2, 3] 2 7 = some ([1, 2, 3] ++ added) :=
  extendMatch_exact [1, 2, 3] 2 7 (by decide) (by decide)

end Ranges

end Fbz
