import Mathlib.Algebra.Order.Ring.Int
import Mathlib.Data.List.Basic

/-!
# Back references

The copy of Lempel-Ziv formats over an arbitrary alphabet: one element at a time, each taken a
fixed distance behind the end, so that a copy may run on into its own output. A copy is
determined by its length, its start and the period it gives the rest.
-/

namespace Fbz.Lz

variable {α β : Type*}

/-- Append `length` elements, each the one `distance` behind the end. -/
def copyBack (distance : Nat) : Nat → List α → List α
  | 0, out => out
  | length + 1, out => copyBack distance length (out ++ (out[out.length - distance]?).toList)

/-- From `start` on the list repeats what stands `distance` earlier. -/
def Periodic (xs : List α) (start distance : Nat) : Prop :=
  ∀ i, start ≤ i → i < xs.length → xs[i]? = xs[i - distance]?

@[simp] theorem copyBack_zero (distance : Nat) (out : List α) : copyBack distance 0 out = out := rfl

theorem copyBack_succ {distance length : Nat} {out : List α} (pos : 0 < distance)
    (le : distance ≤ out.length) :
    copyBack distance (length + 1) out =
      copyBack distance length (out ++ [out.get ⟨out.length - distance, by omega⟩]) := by
  rw [copyBack, List.getElem?_eq_getElem (by omega), Option.toList_some]
  rfl

theorem copyBack_spec {distance length : Nat} {out : List α} (pos : 0 < distance)
    (le : distance ≤ out.length) :
    (copyBack distance length out).length = out.length + length ∧
      out <+: copyBack distance length out ∧
        Periodic (copyBack distance length out) out.length distance := by
  induction length generalizing out with
  | zero =>
    exact ⟨rfl, List.prefix_refl _, fun i h1 h2 => absurd h2 (by rw [copyBack_zero]; omega)⟩
  | succ length ih =>
    rw [copyBack_succ pos le]
    have hlast : out.length - distance < out.length := by omega
    generalize hx : out.get ⟨out.length - distance, hlast⟩ = x
    have hout : (out ++ [x]).length = out.length + 1 := by simp
    obtain ⟨hlen, hpre, hper⟩ := @ih (out ++ [x]) (by omega)
    refine ⟨by omega, (List.prefix_append _ _).trans hpre, fun i h1 h2 => ?_⟩
    rcases Nat.lt_or_eq_of_le h1 with h | rfl
    · exact hper i (by omega) h2
    · obtain ⟨rest, hrest⟩ := hpre
      rw [← hrest, List.append_assoc, List.getElem?_append_right (Nat.le_refl _),
        List.getElem?_append_left hlast, List.getElem?_eq_getElem hlast, Nat.sub_self, ← hx]
      rfl

theorem copyBack_length {distance length : Nat} {out : List α} (pos : 0 < distance)
    (le : distance ≤ out.length) : (copyBack distance length out).length = out.length + length :=
  (copyBack_spec pos le).1

theorem prefix_copyBack {distance length : Nat} {out : List α} (pos : 0 < distance)
    (le : distance ≤ out.length) : out <+: copyBack distance length out :=
  (copyBack_spec pos le).2.1

theorem periodic_copyBack {distance length : Nat} {out : List α} (pos : 0 < distance)
    (le : distance ≤ out.length) : Periodic (copyBack distance length out) out.length distance :=
  (copyBack_spec pos le).2.2

theorem Periodic.ext {xs ys : List α} {start distance : Nat} (pos : 0 < distance)
    (le : distance ≤ start) (hx : Periodic xs start distance) (hy : Periodic ys start distance)
    (length : xs.length = ys.length) (take : xs.take start = ys.take start) : xs = ys := by
  refine List.ext_getElem? fun i => ?_
  induction i using Nat.strongRecOn with
  | ind i ih =>
    rcases Nat.lt_or_ge i start with hi | hi
    · rw [← List.getElem?_take_of_lt hi, take, List.getElem?_take_of_lt hi]
    · rcases Nat.lt_or_ge i xs.length with hl | hl
      · rw [hx i hi hl, hy i hi (length ▸ hl)]
        exact ih _ (by omega)
      · rw [List.getElem?_eq_none hl, List.getElem?_eq_none (length ▸ hl)]

/-- A list that extends `out` periodically is the copy. -/
theorem eq_copyBack {distance length : Nat} {out xs : List α} (pos : 0 < distance)
    (le : distance ≤ out.length) (hlen : xs.length = out.length + length) (hpre : out <+: xs)
    (hper : Periodic xs out.length distance) : xs = copyBack distance length out := by
  refine hper.ext pos le (periodic_copyBack pos le) (by rw [hlen, copyBack_length pos le]) ?_
  rw [← List.prefix_iff_eq_take.mp hpre,
    ← List.prefix_iff_eq_take.mp (prefix_copyBack pos le)]

/-- A match found in `xs` copies out the next piece of `xs`. -/
theorem copyBack_take {distance length start : Nat} {xs : List α} (pos : 0 < distance)
    (le : distance ≤ start) (fits : start + length ≤ xs.length)
    (hmatch : ∀ i < length, xs[start + i]? = xs[start + i - distance]?) :
    copyBack distance length (xs.take start) = xs.take (start + length) := by
  have hlen : (xs.take start).length = start := by rw [List.length_take]; omega
  refine (eq_copyBack pos (by omega) ?_ ?_ fun i h1 h2 => ?_).symm
  · rw [List.length_take]; omega
  · exact List.take_prefix_take_left (by omega)
  · rw [hlen] at h1
    rw [List.length_take] at h2
    obtain ⟨k, rfl⟩ := Nat.exists_eq_add_of_le h1
    rw [List.getElem?_take_of_lt (by omega), List.getElem?_take_of_lt (by omega)]
    exact hmatch k (by omega)

/-- Only the last `distance` elements matter. -/
theorem copyBack_append {distance length : Nat} {front out : List α} (pos : 0 < distance)
    (le : distance ≤ out.length) :
    copyBack distance length (front ++ out) = front ++ copyBack distance length out := by
  obtain ⟨hlen, ⟨rest, hrest⟩, hper⟩ := @copyBack_spec _ _ length _ pos le
  refine (eq_copyBack pos (by rw [List.length_append]; omega) ?_ ?_ fun i h1 h2 => ?_).symm
  · simp only [List.length_append, hlen]; omega
  · exact ⟨rest, by rw [List.append_assoc, hrest]⟩
  · rw [List.length_append] at h1 h2
    obtain ⟨k, rfl⟩ := Nat.exists_eq_add_of_le (Nat.le_trans (Nat.le_add_right ..) h1)
    rw [List.getElem?_append_right (by omega), List.getElem?_append_right (by omega),
      show front.length + k - front.length = k by omega,
      show front.length + k - distance - front.length = k - distance by omega]
    exact hper k (by omega) (by omega)

/-- The appended elements go round the last `distance` ones. -/
theorem getElem?_copyBack {distance length i : Nat} {out : List α} (pos : 0 < distance)
    (le : distance ≤ out.length) (lt : i < length) :
    (copyBack distance length out)[out.length + i]? =
      out[out.length - distance + i % distance]? := by
  obtain ⟨hlen, ⟨rest, hrest⟩, hper⟩ := @copyBack_spec _ _ length _ pos le
  induction i using Nat.strongRecOn with
  | ind i ih =>
    rw [hper _ (Nat.le_add_right ..) (by omega)]
    rcases Nat.lt_or_ge i distance with hi | hi
    · rw [Nat.mod_eq_of_lt hi, ← hrest, List.getElem?_append_left (by omega)]
      congr 1
      omega
    · rw [show out.length + i - distance = out.length + (i - distance) by omega,
        ih (i - distance) (by omega) (by omega), ← Nat.mod_eq_sub_mod hi]

/-- A whole number of periods can be repeated as a block. -/
theorem copyBack_repeat {distance copied count : Nat} {out : List α} (pos : 0 < distance)
    (le : distance ≤ out.length) (dvd : distance ∣ copied) (fits : count ≤ copied) :
    copyBack distance (copied + count) out = copyBack distance copied out ++
      ((copyBack distance copied out).drop out.length).take count := by
  have hlen := @copyBack_length _ _ copied _ pos le
  refine (eq_copyBack pos le ?_ ?_ fun i h1 h2 => ?_).symm
  · simp only [List.length_append, List.length_take, List.length_drop, hlen]; omega
  · exact (prefix_copyBack pos le).trans (List.prefix_append _ _)
  · simp only [List.length_append, List.length_take, List.length_drop, hlen] at h2
    obtain ⟨k, rfl⟩ := Nat.exists_eq_add_of_le h1
    rcases Nat.lt_or_ge k copied with hk | hk
    · rw [List.getElem?_append_left (by omega), List.getElem?_append_left (by omega)]
      exact periodic_copyBack pos le _ h1 (by omega)
    · obtain ⟨j, rfl⟩ := Nat.exists_eq_add_of_le hk
      rw [List.getElem?_append_right (by omega), List.getElem?_take_of_lt (by omega),
        List.getElem?_drop, show out.length + (out.length + (copied + j) -
          (copyBack distance copied out).length) = out.length + j by omega,
        getElem?_copyBack pos le (by omega)]
      rcases Nat.lt_or_ge j distance with hj | hj
      · have hle := Nat.le_of_dvd (by omega) dvd
        obtain ⟨q, rfl⟩ := dvd
        rw [List.getElem?_append_left (by omega), show out.length + (distance * q + j) - distance =
          out.length + (distance * q + j - distance) by omega, getElem?_copyBack pos le (by omega)]
        congr 2
        obtain ⟨r, rfl⟩ : ∃ r, q = r + 1 := ⟨q - 1, by cases q <;> omega⟩
        rw [Nat.mul_succ, show distance * r + distance + j - distance = j + distance * r by omega,
          Nat.add_mul_mod_self_left]
      · rw [List.getElem?_append_right (by omega), List.getElem?_take_of_lt (by omega),
          List.getElem?_drop, show out.length + (out.length + (copied + j) - distance -
            (copyBack distance copied out).length) = out.length + (j - distance) by omega,
          getElem?_copyBack pos le (by omega), Nat.mod_eq_sub_mod hj]

theorem copyBack_map (f : α → β) (distance length : Nat) (out : List α) :
    (copyBack distance length out).map f = copyBack distance length (out.map f) := by
  induction length generalizing out with
  | zero => rfl
  | succ length ih =>
    rw [copyBack, copyBack, ih, List.map_append, List.length_map, List.getElem?_map]
    cases out[out.length - distance]? <;> rfl

/-- A copy brings in nothing new. -/
theorem mem_copyBack {distance length : Nat} {out : List α} {x : α}
    (h : x ∈ copyBack distance length out) : x ∈ out := by
  induction length generalizing out with
  | zero => exact h
  | succ length ih =>
    rcases List.mem_append.mp (ih h) with hold | hnew
    · exact hold
    · rw [Option.mem_toList] at hnew
      exact List.mem_of_getElem? hnew

theorem copyBack_add (distance m n : Nat) (out : List α) :
    copyBack distance (m + n) out = copyBack distance n (copyBack distance m out) := by
  induction m generalizing out with
  | zero => rw [Nat.zero_add, copyBack_zero]
  | succ m ih => rw [Nat.succ_add, copyBack, copyBack, ih]

end Fbz.Lz
