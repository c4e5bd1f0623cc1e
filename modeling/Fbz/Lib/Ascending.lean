import Mathlib.Order.Basic
import Mathlib.Data.List.Basic

/-!
# Sequences that never go down

A list of values between two bounds, each at least the one before it.
-/

namespace Fbz.Ascending

variable {α : Type*} [Preorder α]

/-- From `start` through the values to `stop` nothing goes down. -/
def Ascends : α → List α → α → Prop
  | start, [], stop => start ≤ stop
  | start, x :: xs, stop => start ≤ x ∧ Ascends x xs stop

section Ascends

variable {start middle stop : α} {xs ys : List α}

theorem Ascends.le (h : Ascends start xs stop) : start ≤ stop := by
  induction xs generalizing start with
  | nil => exact h
  | cons x xs ih => exact h.1.trans (ih h.2)

theorem Ascends.mono_left (h : Ascends middle xs stop) (le : start ≤ middle) :
    Ascends start xs stop := by
  cases xs with
  | nil => exact le.trans h
  | cons x xs => exact ⟨le.trans h.1, h.2⟩

theorem ascends_append :
    Ascends start (xs ++ ys) stop ↔
      ∃ middle, Ascends start xs middle ∧ Ascends middle ys stop := by
  induction xs generalizing start with
  | nil =>
    constructor
    · intro h
      exact ⟨start, le_refl start, h⟩
    · rintro ⟨middle, hle, hys⟩
      exact hys.mono_left hle
  | cons x xs ih => simp only [List.cons_append, Ascends, ih, and_assoc, exists_and_left]

theorem Ascends.append (front : Ascends start xs middle) (back : Ascends middle ys stop) :
    Ascends start (xs ++ ys) stop :=
  ascends_append.mpr ⟨middle, front, back⟩

/-- The bound above may be raised. -/
theorem Ascends.mono (h : Ascends start xs middle) (le : middle ≤ stop) :
    Ascends start xs stop := by
  have hback : Ascends middle [] stop := le
  rw [← List.append_nil xs]
  exact h.append hback

/-- One more value at the end. -/
theorem Ascends.snoc {x : α} (front : Ascends start xs middle) (le : middle ≤ x) :
    Ascends start (xs ++ [x]) x :=
  front.append ⟨le, le_refl x⟩

/-- The beginning of a sequence never goes down either. -/
theorem Ascends.front (h : Ascends start ys stop) (beginning : xs <+: ys) :
    Ascends start xs stop := by
  obtain ⟨rest, rfl⟩ := beginning
  obtain ⟨middle, hfront, hrest⟩ := ascends_append.mp h
  exact hfront.mono hrest.le

theorem Ascends.bounds (h : Ascends start xs stop) {x : α} (mem : x ∈ xs) :
    start ≤ x ∧ x ≤ stop := by
  induction xs generalizing start with
  | nil => cases mem
  | cons y ys ih =>
    obtain ⟨hle, hrest⟩ := h
    rcases List.mem_cons.mp mem with rfl | hmem
    · exact ⟨hle, hrest.le⟩
    · obtain ⟨hfrom, hto⟩ := ih hrest hmem
      exact ⟨hle.trans hfrom, hto⟩

theorem Ascends.pairwise (h : Ascends start xs stop) : xs.Pairwise (· ≤ ·) := by
  induction xs generalizing start with
  | nil => exact .nil
  | cons x xs ih =>
    refine .cons ?_ (ih h.2)
    intro y hy
    exact (h.2.bounds hy).1

end Ascends

end Fbz.Ascending
