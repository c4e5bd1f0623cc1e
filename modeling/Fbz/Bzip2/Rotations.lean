import Fbz.Bzip2.InverseTransform
import Fbz.Bzip2.SuffixArray

/-!
# The sorted rotations of a block

The suffixes of the block written twice that begin in its first half begin with the rotations, and
are sorted as these are. Equal rotations are equal rows, in whatever order their suffixes come.
-/

namespace Fbz.Bzip2.Bwt

open BurrowsWheeler Checked SuffixOrder

private theorem ended_append {u : List Nat} (pos : ∀ c ∈ u, 0 < c) : Ended 0 (u ++ [0]) := by
  induction u with
  | nil => exact .last
  | cons a u ih =>
    obtain ⟨ha, hu⟩ := List.forall_mem_cons.mp pos
    exact .cons ha (ih hu)

private theorem map_lt_map {α β : Type} [LinearOrder α] [LinearOrder β] {f : α → β}
    (mono : StrictMono f) {u v : List α} (lt : u < v) : u.map f < v.map f := by
  have hlex : List.Lex (· < ·) u v := lt
  induction hlex with
  | nil => exact List.nil_lt_cons _ _
  | cons _ ih => exact List.cons_lt_cons_iff.mpr (.inr ⟨rfl, ih (by assumption)⟩)
  | rel hlt => exact List.cons_lt_cons_iff.mpr (.inl (mono hlt))

/-- Shifted up by one, so that zero is the sentinel. -/
def shift (byte : UInt8) : Nat := byte.toNat + 1

private theorem shift_strictMono : StrictMono shift := by
  intro a b hlt
  exact Nat.succ_lt_succ (UInt8.lt_iff_toNat_lt.mp hlt)

variable {block : List UInt8} {p q : Nat}

def doubled (block : List UInt8) : List Nat := block.map shift ++ block.map shift ++ [0]

private theorem doubled_length (block : List UInt8) :
    (doubled block).length = 2 * block.length + 1 := by
  rw [doubled, List.length_append, List.length_append, List.length_map, List.length_singleton]
  omega

private theorem doubled_ended (block : List UInt8) : Ended 0 (doubled block) := by
  apply ended_append
  intro c hc
  have hmem : c ∈ block.map shift := (List.mem_append.mp hc).elim id id
  obtain ⟨byte, -, rfl⟩ := List.mem_map.mp hmem
  exact Nat.succ_pos _

private theorem doubled_within (block : List UInt8) : ∀ c ∈ doubled block, c < 257 := by
  intro c hc
  rcases List.mem_append.mp hc with hc | hc
  · have hmem : c ∈ block.map shift := (List.mem_append.mp hc).elim id id
    obtain ⟨byte, -, rfl⟩ := List.mem_map.mp hmem
    exact Nat.succ_lt_succ byte.toNat_lt
  · rw [List.mem_singleton.mp hc]
    decide

private theorem drop_doubled (lt : p < block.length) : (doubled block).drop p =
    (block.rotate p).map shift ++ ((block.map shift).drop p ++ [0]) := by
  have hle : p ≤ (block.map shift).length := by
    rw [List.length_map]
    exact Nat.le_of_lt lt
  rw [List.map_rotate, List.rotate_eq_drop_append_take hle, doubled, List.append_assoc,
    List.drop_append_of_le_length hle, List.append_assoc, ← List.append_assoc (List.take _ _),
    List.take_append_drop]

private theorem rotate_le (hp : p < block.length) (hq : q < block.length)
    (lt : (doubled block).drop p < (doubled block).drop q) : block.rotate p ≤ block.rotate q := by
  by_contra hless
  have hmapped := map_lt_map shift_strictMono (not_le.mp hless)
  rw [drop_doubled hp, drop_doubled hq] at lt
  apply lt_asymm lt
  apply append_lt_append _ hmapped
  rw [List.length_map, List.length_map, List.length_rotate, List.length_rotate]

private theorem final_rotate (lt : p < block.length) :
    block[(p + block.length - 1) % block.length]? = some (final (block.rotate p)) := by
  have hpos : 0 < block.length := Nat.zero_lt_of_lt lt
  have hlast := @List.getElem?_rotate _ block p _ (show block.length - 1 < block.length by omega)
  rw [show block.length - 1 + p = p + block.length - 1 by omega] at hlast
  rw [← hlast, final, List.getLastD_eq_getLast?, List.getLast?_eq_getElem?, List.length_rotate]
  have hin : block.length - 1 < (block.rotate p).length := by
    rw [List.length_rotate]
    omega
  rw [List.getElem?_eq_getElem hin]
  rfl

private theorem addRows_spec (block : List UInt8) (sa : List Nat) :
    ∃ row, sa.foldlM (addRow block) ([], 0) =
        some ((sa.filter fun p => decide (p < block.length)).map fun p => final (block.rotate p), row) ∧
      (0 ∈ sa → 0 < block.length →
        (sa.filter fun p => decide (p < block.length))[row]? = some 0) := by
  obtain ⟨rows, hrows, hcolumn, horigin⟩ := @foldlM_done _ _ (addRow block)
    (fun done rows =>
      rows.1 = (done.filter fun p => decide (p < block.length)).map
        (fun p => final (block.rotate p)) ∧
      (0 ∈ done → 0 < block.length →
        (done.filter fun p => decide (p < block.length))[rows.2]? = some 0))
    sa ([], 0) ⟨rfl, by simp⟩ (by
      intro done p rest _ rows hinv
      obtain ⟨hcolumn, horigin⟩ := hinv
      by_cases hle : block.length ≤ p
      · have hskip : (done ++ [p]).filter (fun p => decide (p < block.length)) =
            done.filter fun p => decide (p < block.length) := by
          simp [List.filter_append, Nat.not_lt_of_le hle]
        refine ⟨rows, by rw [addRow, if_pos hle], by rw [hskip, hcolumn], ?_⟩
        intro hmem hpos
        rw [hskip]
        apply horigin _ hpos
        rcases List.mem_append.mp hmem with hmem | hmem
        · exact hmem
        · rw [← List.mem_singleton.mp hmem] at hle
          omega
      · have hlt : p < block.length := Nat.lt_of_not_le hle
        have hmore : (done ++ [p]).filter (fun p => decide (p < block.length)) =
            done.filter (fun p => decide (p < block.length)) ++ [p] := by
          simp [List.filter_append, hlt]
        have hlength : rows.1.length =
            (done.filter fun p => decide (p < block.length)).length := by
          rw [hcolumn, List.length_map]
        refine ⟨(rows.1 ++ [final (block.rotate p)], if p = 0 then rows.1.length else rows.2),
          ?_, ?_, ?_⟩
        · rw [addRow, if_neg hle]
          show (block[(p + block.length - 1) % block.length]?).bind _ = _
          rw [final_rotate hlt]
          rfl
        · rw [hmore, List.map_append, hcolumn]
          rfl
        · intro hmem hpos
          rw [hmore]
          by_cases hzero : p = 0
          · subst hzero
            rw [if_pos rfl, hlength, List.getElem?_concat_length]
          · rw [if_neg hzero]
            have hold : 0 ∈ done := by
              rcases List.mem_append.mp hmem with hmem | hmem
              · exact hmem
              · exact absurd (List.mem_singleton.mp hmem).symm hzero
            have hget := horigin hold hpos
            rw [List.getElem?_append_left (List.getElem?_eq_some_iff.mp hget).1, hget])
  refine ⟨rows.2, ?_, horigin⟩
  rw [hrows, ← hcolumn]

private theorem isMatrix_of_suffixArray {sa : List Nat}
    (sorted : IsSuffixArray (doubled block) sa) :
    IsMatrix block ((sa.filter fun p => decide (p < block.length)).map block.rotate) := by
  constructor
  · apply List.Perm.map
    apply (List.perm_ext_iff_of_nodup (sorted.nodup.filter _) List.nodup_range).mpr
    intro p
    rw [List.mem_filter, sorted.mem_iff, doubled_length, decide_eq_true_eq, List.mem_range]
    omega
  · apply List.pairwise_map.mpr
    apply (sorted.sorted.filter _).imp_of_mem
    intro p q hp hq hlt
    rw [List.mem_filter, decide_eq_true_eq] at hp hq
    exact rotate_le hp.2 hq.2 hlt

/-- The block is a row of its sorted rotations, and the other result is their last column. -/
theorem transform_matrix (block : List UInt8) (ne : block ≠ [])
    (few : 2 * block.length + 1 ≤ vacant) :
    ∃ matrix row, IsMatrix block matrix ∧ transform block = some (lastColumn matrix, row) ∧
      matrix[row]? = some block := by
  have hpos : 0 < block.length := List.length_pos_iff.mpr ne
  by_cases hone : block.length = 1
  · obtain ⟨byte, rfl⟩ := List.length_eq_one_iff.mp hone
    exact ⟨[[byte]], 0, ⟨List.Perm.refl _, by simp⟩, rfl, rfl⟩
  · obtain ⟨sa, hsa, harray⟩ := sais_spec (doubled_ended block) (doubled_within block)
      (by rwa [doubled_length])
    obtain ⟨row, hrows, horigin⟩ := addRows_spec block sa
    have hmatrix := isMatrix_of_suffixArray harray
    refine ⟨_, row, hmatrix, ?_, ?_⟩
    · have hlength := hmatrix.length
      rw [List.length_map] at hlength
      rw [transform, if_neg (Nat.ne_of_gt hpos), if_neg hone]
      show (sais (doubled block) 257).bind _ = _
      rw [hsa]
      show (sa.foldlM (addRow block) ([], 0)).bind _ = _
      rw [hrows]
      show (if (List.map _ _).length ≠ block.length then none else some _) = _
      rw [List.length_map, hlength, if_neg (fun hne => hne rfl), lastColumn, List.map_map]
      rfl
    · have hzero : 0 ∈ sa := (harray.mem_iff 0).mpr (by rw [doubled_length]; omega)
      rw [List.getElem?_map, horigin hzero hpos, Option.map_some, List.rotate_zero]

theorem inverseTransform_matrix {matrix : List (List UInt8)} {row : Nat}
    (rows : IsMatrix block matrix) (get : matrix[row]? = some block) :
    inverseTransform (lastColumn matrix) row = block := by
  have hlinked := linkEntries_linked (lastColumn matrix)
  have hlength : (lastColumn matrix).length = block.length := by
    rw [lastColumn, List.length_map, rows.length]
  rw [inverseTransform, Nat.shiftRight_eq_div_pow, hlinked.walk_eq rows _ (hlinked.next rows get),
    hlength]
  apply List.ext_getElem
  · simp
  · intro k _ hk
    rw [List.getElem_map, List.getElem_range, List.rotate_rotate, Nat.add_comm 1 k,
      final_rotate_succ hk, List.getD_eq_getElem _ _ hk]

/-- Every block has its rotations sorted: the last column of their matrix and the row of the block
itself, from which the links of the decoder spell the block. -/
theorem transform_sorted (block : List UInt8) (ne : block ≠ [])
    (few : 2 * block.length + 1 ≤ vacant) :
    ∃ matrix row, IsMatrix block matrix ∧ transform block = some (lastColumn matrix, row) ∧
      matrix[row]? = some block ∧ inverseTransform (lastColumn matrix) row = block := by
  obtain ⟨matrix, row, hmatrix, htransform, hrow⟩ := transform_matrix block ne few
  exact ⟨matrix, row, hmatrix, htransform, hrow, inverseTransform_matrix hmatrix hrow⟩

theorem transform_sorted_abab : ∃ matrix row, IsMatrix [0x61, 0x62, 0x61, 0x62] matrix ∧
    transform [0x61, 0x62, 0x61, 0x62] = some (lastColumn matrix, row) ∧
      matrix[row]? = some [0x61, 0x62, 0x61, 0x62] ∧
        inverseTransform (lastColumn matrix) row = [0x61, 0x62, 0x61, 0x62] :=
  transform_sorted [0x61, 0x62, 0x61, 0x62] (by simp) (by simp [vacant])

end Fbz.Bzip2.Bwt
