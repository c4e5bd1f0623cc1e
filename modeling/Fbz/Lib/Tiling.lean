import Mathlib.Data.List.Basic

/-!
# Pieces that tile a range

Records on a list that each have a beginning and an end. They tile a range when the first one begins
where the range does, every other one where the one before it ends, and the range ends with the last.
-/

namespace Fbz.Tiling

variable {α β : Type*} {first last : α → β}

/-- The pieces tile the range from `start` to `stop`. -/
def Tiled (first last : α → β) : β → List α → β → Prop
  | start, [], stop => start = stop
  | start, x :: xs, stop => first x = start ∧ Tiled first last (last x) xs stop

theorem tiled_append {start stop : β} {xs ys : List α} :
    Tiled first last start (xs ++ ys) stop ↔
      ∃ middle, Tiled first last start xs middle ∧ Tiled first last middle ys stop := by
  induction xs generalizing start with
  | nil => simp [Tiled]
  | cons x xs ih => simp only [List.cons_append, Tiled, ih, and_assoc, exists_and_left]

theorem Tiled.append {start middle stop : β} {xs ys : List α}
    (front : Tiled first last start xs middle) (back : Tiled first last middle ys stop) :
    Tiled first last start (xs ++ ys) stop :=
  tiled_append.mpr ⟨middle, front, back⟩

/-- One more piece at the end. -/
theorem Tiled.snoc {start : β} {xs : List α} {x : α} (front : Tiled first last start xs (first x)) :
    Tiled first last start (xs ++ [x]) (last x) :=
  front.append ⟨rfl, rfl⟩

/-- Pieces that are all moved the same way tile the range that is moved with them. -/
theorem Tiled.map {γ δ : Type*} {first' last' : γ → δ} {start stop : β} {xs : List α}
    (tiled : Tiled first last start xs stop) {f : α → γ} {g : β → δ}
    (hfirst : ∀ x ∈ xs, first' (f x) = g (first x)) (hlast : ∀ x ∈ xs, last' (f x) = g (last x)) :
    Tiled first' last' (g start) (xs.map f) (g stop) := by
  induction xs generalizing start with
  | nil => exact congrArg g tiled
  | cons x xs ih =>
    obtain ⟨rfl, hrest⟩ := tiled
    refine ⟨hfirst x List.mem_cons_self, ?_⟩
    rw [hlast x List.mem_cons_self]
    exact ih hrest (fun y hy => hfirst y (List.mem_cons_of_mem _ hy))
      fun y hy => hlast y (List.mem_cons_of_mem _ hy)

end Fbz.Tiling
