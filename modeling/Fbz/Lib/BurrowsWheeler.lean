import Mathlib.Algebra.Order.Ring.Int
import Mathlib.Data.List.Lex
import Mathlib.Data.List.Rotate
import Mathlib.Data.List.Perm.Basic

/-!
# The matrix of sorted rotations

The rotations of a string as rows in lexicographic order. The last column determines the rows: the
rows that begin with a letter are, in their order, those that end with it, rotated. So the row of
each rank among the rows that end with a letter is known among the rows that begin with it.
-/

namespace Fbz.BurrowsWheeler

variable {α : Type} [LinearOrder α]

def rotations (text : List α) : List (List α) := (List.range text.length).map text.rotate

/-- All rotations in order. Equal rotations are equal rows. -/
structure IsMatrix (text : List α) (matrix : List (List α)) : Prop where
  perm : matrix.Perm (rotations text)
  sorted : matrix.Pairwise (· ≤ ·)

/-- The last letter in front. -/
def back (row : List α) : List α := row.rotate (row.length - 1)

/-- In a list sorted by a key, an entry stands behind those of smaller keys and those of its own key
before it. -/
theorem position_eq {β κ : Type} [LinearOrder κ] {key : β → κ} {entries : List β}
    (sorted : entries.Pairwise fun a b => key a ≤ key b) {p : Nat} {entry : β}
    (get : entries[p]? = some entry) :
    p = (entries.countP fun other => decide (key other < key entry)) +
      (entries.take p).countP fun other => decide (key other = key entry) := by
  induction entries generalizing p with
  | nil => simp at get
  | cons first entries ih =>
    obtain ⟨hle, hsorted⟩ := List.pairwise_cons.mp sorted
    cases p with
    | zero =>
      obtain rfl := Option.some.inj get
      rw [List.take_zero, List.countP_nil, Nat.add_zero]
      refine (List.countP_eq_zero.mpr fun other hmem => ?_).symm
      rcases List.mem_cons.mp hmem with rfl | hmem
      · simp
      · simpa using hle other hmem
    | succ p =>
      rw [List.getElem?_cons_succ] at get
      have hp := ih hsorted get
      rw [List.take_succ_cons, List.countP_cons, List.countP_cons]
      rcases lt_or_eq_of_le (hle entry (List.mem_of_getElem? get)) with hlt | heq
      · rw [if_pos (by simpa using hlt), if_neg (by simpa using ne_of_lt hlt)]
        omega
      · rw [if_neg (by simp [heq]), if_pos (by simpa using heq)]
        omega

/-- An entry that is kept stands behind as many others as are kept before it. -/
theorem filter_getElem? {β : Type} {keep : β → Bool} {entries : List β} {i : Nat} {entry : β}
    (get : entries[i]? = some entry) (kept : keep entry = true) :
    (entries.filter keep)[(entries.take i).countP keep]? = some entry := by
  induction entries generalizing i with
  | nil => simp at get
  | cons first entries ih =>
    cases i with
    | zero =>
      obtain rfl := Option.some.inj get
      rw [List.filter_cons, if_pos kept]
      rfl
    | succ i =>
      rw [List.getElem?_cons_succ] at get
      rw [List.take_succ_cons, List.countP_cons, List.filter_cons]
      by_cases hfirst : keep first = true
      · rw [if_pos hfirst, if_pos hfirst, List.getElem?_cons_succ, ih get]
      · rw [if_neg hfirst, if_neg hfirst, Nat.add_zero, ih get]

theorem exists_of_filter_getElem? {β : Type} {keep : β → Bool} {entries : List β} {rank : Nat}
    {entry : β} (get : (entries.filter keep)[rank]? = some entry) :
    ∃ i, entries[i]? = some entry ∧ (entries.take i).countP keep = rank := by
  induction entries generalizing rank with
  | nil => simp at get
  | cons first entries ih =>
    rw [List.filter_cons] at get
    by_cases hfirst : keep first = true
    · rw [if_pos hfirst] at get
      cases rank with
      | zero => exact ⟨0, get, rfl⟩
      | succ rank =>
        rw [List.getElem?_cons_succ] at get
        obtain ⟨i, hi, hrank⟩ := ih get
        exact ⟨i + 1, hi, by rw [List.take_succ_cons, List.countP_cons, if_pos hfirst, hrank]⟩
    · rw [if_neg hfirst] at get
      obtain ⟨i, hi, hrank⟩ := ih get
      exact ⟨i + 1, hi, by rw [List.take_succ_cons, List.countP_cons, if_neg hfirst, hrank, Nat.add_zero]⟩

theorem append_lt_append {u v : List α} (length : u.length = v.length) (lt : u < v)
    (s t : List α) : u ++ s < v ++ t := by
  have h : List.Lex (· < ·) u v := lt
  induction h with
  | nil => simp at length
  | cons _ ih =>
    simp only [List.length_cons, Nat.add_right_cancel_iff] at length
    exact List.Lex.cons (ih length (by assumption))
  | rel h => exact List.Lex.rel h

theorem le_of_append_le {u v : List α} (length : u.length = v.length) {c : α}
    (le : u ++ [c] ≤ v ++ [c]) : u ≤ v := by
  by_contra hlt
  exact absurd le (not_le_of_gt (append_lt_append length.symm (not_le.mp hlt) [c] [c]))

omit [LinearOrder α] in
theorem back_append (front : List α) (c : α) : back (front ++ [c]) = c :: front := by
  rw [back, List.length_append, List.length_singleton, Nat.add_sub_cancel,
    List.rotate_append_length_eq, List.singleton_append]

omit [LinearOrder α] in
theorem back_rotate (row : List α) : (back row).rotate 1 = row := by
  rcases List.eq_nil_or_concat row with rfl | ⟨front, c, rfl⟩
  · rfl
  · rw [List.concat_eq_append, back_append, List.rotate_cons_succ, List.rotate_zero]

variable [Inhabited α] {text : List α} {matrix : List (List α)}

/-- The last letter, which becomes the first. -/
def final (row : List α) : α := row.getLastD default

def initial (row : List α) : α := row.headD default

omit [LinearOrder α] in
theorem final_append (front : List α) (c : α) : final (front ++ [c]) = c := by
  simp [final, List.getLastD_eq_getLast?]

omit [LinearOrder α] in
theorem initial_back {row : List α} (ne : row ≠ []) : initial (back row) = final row := by
  rcases List.eq_nil_or_concat row with rfl | ⟨front, c, rfl⟩
  · exact absurd rfl ne
  · rw [List.concat_eq_append, back_append, final_append]
    rfl

theorem initial_le {u v : List α} (ne : u ≠ []) (ne' : v ≠ []) (le : u ≤ v) :
    initial u ≤ initial v := by
  cases u with
  | nil => exact absurd rfl ne
  | cons a u =>
    cases v with
    | nil => exact absurd rfl ne'
    | cons b v =>
      rcases lt_or_eq_of_le le with hlt | heq
      · exact List.head_le_of_lt hlt
      · exact le_of_eq (List.cons.inj heq).1

/-- Rows that end with the same letter keep their order when it is put in front. -/
theorem back_le {u v : List α} (length : u.length = v.length) (ne : u ≠ [])
    (same : final u = final v) (le : u ≤ v) : back u ≤ back v := by
  rcases List.eq_nil_or_concat u with rfl | ⟨front, c, rfl⟩
  · exact absurd rfl ne
  · rcases List.eq_nil_or_concat v with rfl | ⟨front', c', rfl⟩
    · simp at length
    · simp only [List.concat_eq_append, List.length_append, List.length_singleton,
        Nat.add_right_cancel_iff] at length same le ⊢
      rw [final_append, final_append] at same
      subst same
      rw [back_append, back_append]
      exact List.cons_le_cons c (le_of_append_le length le)

omit [LinearOrder α] [Inhabited α] in
theorem map_back_rotations (text : List α) :
    ((rotations text).map back).Perm (rotations text) := by
  refine (?_ : (rotations text).map back = (rotations text).rotate (text.length - 1)) ▸
    List.rotate_perm ..
  refine List.ext_getElem (by simp) fun i hi _ => ?_
  have hlt : i < text.length := by simpa [rotations] using hi
  rw [List.getElem_rotate]
  simp only [rotations, List.getElem_map, List.getElem_range, List.length_map, List.length_range]
  rw [back, List.length_rotate, List.rotate_rotate, List.rotate_mod]

omit [Inhabited α] in
theorem IsMatrix.length (h : IsMatrix text matrix) : matrix.length = text.length := by
  rw [h.perm.length_eq, rotations, List.length_map, List.length_range]

omit [Inhabited α] in
theorem IsMatrix.row_length (h : IsMatrix text matrix) :
    ∀ row ∈ matrix, row.length = text.length := by
  intro row hmem
  obtain ⟨k, -, rfl⟩ := List.mem_map.mp (h.perm.mem_iff.mp hmem)
  exact List.length_rotate ..

omit [Inhabited α] in
theorem IsMatrix.row_ne_nil (h : IsMatrix text matrix) : ∀ row ∈ matrix, row ≠ [] := by
  intro row hmem hnil
  obtain ⟨k, hk, rfl⟩ := List.mem_map.mp (h.perm.mem_iff.mp hmem)
  have hlength := List.length_rotate text k
  rw [hnil, List.length_nil] at hlength
  rw [List.mem_range] at hk
  omega

omit [Inhabited α] in
theorem IsMatrix.map_back (h : IsMatrix text matrix) : (matrix.map back).Perm matrix :=
  ((h.perm.map back).trans (map_back_rotations text)).trans h.perm.symm

/-- The rows that begin with a letter are those that end with it, each with it in front. -/
theorem IsMatrix.filter_initial (h : IsMatrix text matrix) (c : α) :
    matrix.filter (fun row => decide (initial row = c)) =
      (matrix.filter fun row => decide (final row = c)).map back := by
  refine @List.Perm.eq_of_pairwise _ (· ≤ ·) _ _ (fun a b _ _ => le_antisymm) (h.sorted.filter _) ?_ ?_
  · refine List.pairwise_map.mpr ((h.sorted.filter _).imp_of_mem fun {u v} hu hv hle => ?_)
    rw [List.mem_filter, decide_eq_true_eq] at hu hv
    exact back_le ((h.row_length u hu.1).trans (h.row_length v hv.1).symm) (h.row_ne_nil u hu.1)
      (hu.2.trans hv.2.symm) hle
  · have hcongr : matrix.filter (fun row => decide (final row = c)) =
        matrix.filter ((fun row => decide (initial row = c)) ∘ back) :=
      List.filter_congr fun row hmem => by
        rw [Function.comp_apply, initial_back (h.row_ne_nil row hmem)]
    rw [hcongr, ← List.filter_map]
    exact h.map_back.symm.filter _

theorem IsMatrix.countP_initial (h : IsMatrix text matrix) (p : α → Bool) :
    matrix.countP (fun row => p (initial row)) = matrix.countP fun row => p (final row) := by
  rw [← h.map_back.countP_eq, List.countP_map]
  refine List.countP_congr fun row hmem => ?_
  rw [Function.comp_apply, initial_back (h.row_ne_nil row hmem)]

def lastColumn (matrix : List (List α)) : List α := matrix.map final

/-- Every row is followed by the row that is rotated once more: it ends with the letter that this one
begins with, and as many rows before it do as rows before this one begin with it. -/
theorem IsMatrix.exists_next (h : IsMatrix text matrix) {p : Nat} {row : List α}
    (get : matrix[p]? = some row) :
    ∃ i, matrix[i]? = some (row.rotate 1) ∧ (lastColumn matrix)[i]? = some (initial row) ∧
      p = ((lastColumn matrix).countP fun c => decide (c < initial row)) +
        ((lastColumn matrix).take i).count (initial row) := by
  have hsorted : matrix.Pairwise fun a b => initial a ≤ initial b :=
    h.sorted.imp_of_mem fun {u v} hu hv hle =>
      initial_le (h.row_ne_nil u hu) (h.row_ne_nil v hv) hle
  have hp := position_eq hsorted get
  have hrank := @filter_getElem? _ (fun other => decide (initial other = initial row)) _ _ _ get
    (by simp)
  rw [h.filter_initial, List.getElem?_map, Option.map_eq_some_iff] at hrank
  obtain ⟨next, hnext, hback⟩ := hrank
  obtain ⟨i, hi, hcount⟩ := exists_of_filter_getElem? hnext
  have hrow : next = row.rotate 1 := by rw [← hback, back_rotate]
  have hfinal : final next = initial row := by
    rw [← hback, initial_back (h.row_ne_nil next (List.mem_of_getElem? hi))]
  refine ⟨i, hrow ▸ hi, by rw [lastColumn, List.getElem?_map, hi, Option.map_some, hfinal], ?_⟩
  rw [h.countP_initial fun c => decide (c < initial row), ← hcount] at hp
  rw [lastColumn, ← List.map_take, List.count, List.countP_map, List.countP_map]
  exact hp

end Fbz.BurrowsWheeler
