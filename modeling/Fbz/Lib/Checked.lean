import Mathlib.Algebra.Order.Ring.Int
import Mathlib.Data.List.Basic
import Mathlib.Data.List.Range

/-!
# Programs on arrays that check their indexes

A program that may panic has an optional result. Its loops are folds, and a fold returns when every
turn does.
-/

namespace Fbz.Checked

variable {α β σ : Type}

/-- `array[i] = value`. -/
def store (array : List α) (i : Nat) (value : α) : Option (List α) :=
  if i < array.length then some (array.set i value) else none

theorem store_of_lt {array : List α} {i : Nat} (lt : i < array.length) (value : α) :
    store array i value = some (array.set i value) := if_pos lt

/-- `a - b` without a sign. -/
def sub (a b : Nat) : Option Nat := if b ≤ a then some (a - b) else none

theorem sub_of_le {a b : Nat} (le : b ≤ a) : sub a b = some (a - b) := if_pos le

/-- `a + b` in `width` bits. -/
def add (width a b : Nat) : Option Nat := if a + b < 2 ^ width then some (a + b) else none

theorem add_of_lt {width a b : Nat} (lt : a + b < 2 ^ width) : add width a b = some (a + b) :=
  if_pos lt

/-- `&array[start..stop]`. -/
def range (array : List α) (start stop : Nat) : Option (List α) :=
  if start ≤ stop ∧ stop ≤ array.length then some ((array.drop start).take (stop - start)) else none

theorem range_of_le {array : List α} {start stop : Nat} (ordered : start ≤ stop)
    (inside : stop ≤ array.length) :
    range array start stop = some ((array.drop start).take (stop - start)) :=
  if_pos ⟨ordered, inside⟩

/-- The elements that pass a test, which itself may panic. -/
def keep (test : α → Option Bool) : List α → Option (List α)
  | [] => some []
  | x :: xs => do
    let kept ← test x
    let rest ← keep test xs
    some (if kept then x :: rest else rest)

theorem keep_eq_filter {test : α → Option Bool} {p : α → Bool} {xs : List α}
    (h : ∀ x ∈ xs, test x = some (p x)) : keep test xs = some (xs.filter p) := by
  induction xs with
  | nil => rfl
  | cons x xs ih =>
    obtain ⟨hx, hxs⟩ := List.forall_mem_cons.mp h
    rw [keep, hx, ih hxs, List.filter_cons]
    rfl

theorem keep_length_le {test : α → Option Bool} {xs ys : List α} (h : keep test xs = some ys) :
    ys.length ≤ xs.length := by
  induction xs generalizing ys with
  | nil =>
    obtain rfl := Option.some.inj h
    exact Nat.le_refl 0
  | cons x xs ih =>
    obtain ⟨kept, -, h⟩ := Option.bind_eq_some_iff.mp h
    obtain ⟨rest, hrest, h⟩ := Option.bind_eq_some_iff.mp h
    obtain rfl := Option.some.inj h
    have := ih hrest
    cases kept
    · exact Nat.le_succ_of_le this
    · exact Nat.succ_le_succ this

theorem mapM_eq_map {f : α → Option β} {g : α → β} {xs : List α} (h : ∀ x ∈ xs, f x = some (g x)) :
    xs.mapM f = some (xs.map g) := by
  induction xs with
  | nil => rfl
  | cons x xs ih =>
    obtain ⟨hx, hxs⟩ := List.forall_mem_cons.mp h
    rw [List.mapM_cons, hx, ih hxs]
    rfl

theorem mapM_length {f : α → Option β} {xs : List α} {ys : List β} (h : xs.mapM f = some ys) :
    ys.length = xs.length := by
  induction xs generalizing ys with
  | nil =>
    obtain rfl := Option.some.inj h
    rfl
  | cons x xs ih =>
    rw [List.mapM_cons] at h
    obtain ⟨y, -, h⟩ := Option.bind_eq_some_iff.mp h
    obtain ⟨rest, hrest, h⟩ := Option.bind_eq_some_iff.mp h
    obtain rfl := Option.some.inj h
    rw [List.length_cons, List.length_cons, ih hrest]

/-- A loop keeps what each turn keeps of the elements that are done, and returns. -/
theorem foldlM_done {f : σ → α → Option σ} {Inv : List α → σ → Prop} {xs : List α} {start : σ}
    (begins : Inv [] start)
    (turn : ∀ done x rest, xs = done ++ x :: rest → ∀ state, Inv done state →
      ∃ next, f state x = some next ∧ Inv (done ++ [x]) next) :
    ∃ last, xs.foldlM f start = some last ∧ Inv xs last := by
  suffices h : ∀ rest done state, xs = done ++ rest → Inv done state →
      ∃ last, rest.foldlM f state = some last ∧ Inv xs last from h xs [] start rfl begins
  intro rest
  induction rest with
  | nil =>
    intro done state hxs hinv
    rw [List.append_nil] at hxs
    exact ⟨state, rfl, hxs ▸ hinv⟩
  | cons x rest ih =>
    intro done state hxs hinv
    obtain ⟨next, hstep, hnext⟩ := turn done x rest hxs state hinv
    obtain ⟨last, hlast, hdone⟩ := ih (done ++ [x]) next (by rw [hxs, List.append_assoc]; rfl) hnext
    refine ⟨last, ?_, hdone⟩
    rw [List.foldlM_cons, hstep]
    exact hlast

/-- A loop that counts up. -/
theorem foldlM_range {f : σ → Nat → Option σ} {Inv : Nat → σ → Prop} {n : Nat} {start : σ}
    (begins : Inv 0 start)
    (turn : ∀ i < n, ∀ state, Inv i state → ∃ next, f state i = some next ∧ Inv (i + 1) next) :
    ∃ last, (List.range n).foldlM f start = some last ∧ Inv n last := by
  induction n with
  | zero => exact ⟨start, rfl, begins⟩
  | succ n ih =>
    obtain ⟨state, hstate, hinv⟩ := ih fun i hi => turn i (Nat.lt_succ_of_lt hi)
    obtain ⟨last, hlast, hdone⟩ := turn n (Nat.lt_succ_self n) state hinv
    refine ⟨last, ?_, hdone⟩
    rw [List.range_succ, List.foldlM_append, hstate]
    show List.foldlM f state [n] = some last
    rw [List.foldlM_cons, hlast]
    rfl

/-- A loop that counts down. -/
theorem foldlM_range_reverse {f : σ → Nat → Option σ} {Inv : Nat → σ → Prop} {n : Nat} {start : σ}
    (begins : Inv n start)
    (turn : ∀ i < n, ∀ state, Inv (i + 1) state → ∃ next, f state i = some next ∧ Inv i next) :
    ∃ last, (List.range n).reverse.foldlM f start = some last ∧ Inv 0 last := by
  induction n generalizing start with
  | zero => exact ⟨start, rfl, begins⟩
  | succ n ih =>
    obtain ⟨state, hstate, hinv⟩ := turn n (Nat.lt_succ_self n) start begins
    obtain ⟨last, hlast, hdone⟩ := ih hinv fun i hi => turn i (Nat.lt_succ_of_lt hi)
    refine ⟨last, ?_, hdone⟩
    rw [List.range_succ, List.reverse_append, List.reverse_singleton, List.singleton_append,
      List.foldlM_cons, hstate]
    exact hlast

end Fbz.Checked
