import Fbz.Bzip2.Block
import Fbz.Lib.BurrowsWheeler

/-!
# The inverse transform follows the rows

Every entry is linked to the row that is rotated once more, so walking the links from the row of the
block spells it. The links do not meet: each entry is the target of one index.
-/

namespace Fbz.Bzip2

open BurrowsWheeler

scoped instance byteOrder : LinearOrder UInt8 where
  le := (· ≤ ·)
  lt := (· < ·)
  le_refl a := UInt8.le_refl a
  le_trans a b c := UInt8.le_trans
  le_antisymm a b := UInt8.le_antisymm
  le_total a b := UInt8.le_total a b
  lt_iff_le_not_ge a b := by
    rw [UInt8.lt_iff_toNat_lt, UInt8.le_iff_toNat_le, UInt8.le_iff_toNat_le]
    omega
  toDecidableLE := inferInstance
  toDecidableEq := inferInstance
  toDecidableLT := inferInstance

/-- How many bytes are smaller than this one, and equal to it before the index. -/
def linkTarget (bytes : List UInt8) (index : Nat) : Nat :=
  let byte := bytes.getD index 0
  bytes.countP (fun other => decide (other < byte)) + (bytes.take index).count byte

variable {bytes : List UInt8}

theorem byteStart_eq (bytes : List UInt8) {byte : Nat} (le : byte ≤ 256) :
    byteStart bytes byte = bytes.countP fun other => decide (other.toNat < byte) := by
  induction byte with
  | zero => simp [byteStart]
  | succ byte ih =>
    have hvalue : (UInt8.ofNat byte).toNat = byte := by
      rw [UInt8.toNat_ofNat']
      omega
    rw [byteStart, ih (by omega)]
    clear ih
    induction bytes with
    | nil => rfl
    | cons first bytes ihb =>
      have hbyte : first = UInt8.ofNat byte ↔ first.toNat = byte := by
        rw [← UInt8.toNat_inj, hvalue]
      simp only [List.countP_cons, List.count_cons, ← ihb, beq_iff_eq, hbyte, decide_eq_true_eq]
      rcases Nat.lt_trichotomy first.toNat byte with hlt | heq | hgt
      · rw [if_pos hlt, if_neg (by omega), if_pos (by omega)]
        omega
      · rw [if_neg (by omega), if_pos heq, if_pos (by omega)]
        omega
      · rw [if_neg (by omega), if_neg (by omega), if_neg (by omega)]
        omega

private theorem countP_lt_add_count_le (bytes : List UInt8) (byte : UInt8) :
    bytes.countP (fun other => decide (other < byte)) + bytes.count byte ≤ bytes.length ∧
      ∀ larger, byte < larger →
        bytes.countP (fun other => decide (other < byte)) + bytes.count byte ≤
          bytes.countP fun other => decide (other < larger) := by
  induction bytes with
  | nil => simp
  | cons first bytes ih =>
    obtain ⟨hlength, hlarger⟩ := ih
    simp only [List.countP_cons, List.count_cons, List.length_cons, beq_iff_eq, decide_eq_true_eq]
    rcases lt_trichotomy first byte with hlt | rfl | hgt
    · rw [if_pos hlt, if_neg (ne_of_lt hlt)]
      refine ⟨by omega, fun larger h => ?_⟩
      rw [if_pos (lt_trans hlt h)]
      have := hlarger larger h
      omega
    · rw [if_neg (lt_irrefl first), if_pos rfl]
      refine ⟨by omega, fun larger h => ?_⟩
      rw [if_pos h]
      have := hlarger larger h
      omega
    · rw [if_neg (not_lt_of_gt hgt), if_neg (ne_of_gt hgt)]
      refine ⟨by omega, fun larger h => ?_⟩
      have := hlarger larger h
      omega

private theorem count_take_lt {index : Nat} (lt : index < bytes.length) :
    (bytes.take index).count (bytes.getD index 0) < bytes.count (bytes.getD index 0) := by
  have hsplit := congrArg (List.count (bytes.getD index 0)) (List.take_append_drop index bytes)
  rw [List.count_append, List.drop_eq_getElem_cons lt, List.count_cons,
    List.getD_eq_getElem?_getD, List.getElem?_eq_getElem lt] at hsplit
  rw [List.getD_eq_getElem?_getD, List.getElem?_eq_getElem lt]
  simp at hsplit ⊢
  omega

theorem linkTarget_lt {index : Nat} (lt : index < bytes.length) :
    linkTarget bytes index < bytes.length := by
  have := (countP_lt_add_count_le bytes (bytes.getD index 0)).1
  have := count_take_lt lt
  rw [linkTarget]
  omega

/-- Each entry is the target of one index. -/
theorem linkTarget_ne {index later : Nat} (lt : index < later) (bound : later < bytes.length) :
    linkTarget bytes index ≠ linkTarget bytes later := by
  have hbound : index < bytes.length := by omega
  have hcount := count_take_lt hbound
  have hcount' := count_take_lt bound
  rw [linkTarget, linkTarget]
  rcases lt_trichotomy (bytes.getD index 0) (bytes.getD later 0) with hlt | heq | hgt
  · have := (countP_lt_add_count_le bytes (bytes.getD index 0)).2 _ hlt
    omega
  · have hmore := @count_take_lt (bytes.take later) index
      (by rw [List.length_take]; omega)
    have hget : (bytes.take later).getD index 0 = bytes.getD index 0 := by
      rw [List.getD_eq_getElem?_getD, List.getElem?_take_of_lt lt, List.getD_eq_getElem?_getD]
    rw [hget, List.take_take, Nat.min_eq_left (by omega)] at hmore
    rw [← heq]
    omega
  · have := (countP_lt_add_count_le bytes (bytes.getD later 0)).2 _ hgt
    omega

/-- The entries when the indexes below `done` are linked. -/
structure Linked (bytes : List UInt8) (done : Nat) (tt : List Nat) : Prop where
  length : tt.length = bytes.length
  byte : ∀ p < bytes.length, tt.getD p 0 % 256 = (bytes.getD p 0).toNat
  link : ∀ index < done, tt.getD (linkTarget bytes index) 0 / 256 = index
  free : ∀ p < bytes.length, (∀ index < done, linkTarget bytes index ≠ p) → tt.getD p 0 / 256 = 0

theorem linked_start (bytes : List UInt8) : Linked bytes 0 (bytes.map UInt8.toNat) := by
  have hget : ∀ p < bytes.length,
      (bytes.map UInt8.toNat).getD p 0 = (bytes.getD p 0).toNat := by
    intro p hp
    rw [List.getD_eq_getElem?_getD, List.getElem?_map, List.getD_eq_getElem?_getD,
      List.getElem?_eq_getElem hp]
    rfl
  refine ⟨List.length_map .., fun p hp => ?_, fun index h => by omega, fun p hp _ => ?_⟩
  · rw [hget p hp]
    exact Nat.mod_eq_of_lt (bytes.getD p 0).toNat_lt
  · rw [hget p hp]
    exact Nat.div_eq_of_lt (bytes.getD p 0).toNat_lt

theorem Linked.step {done : Nat} {tt : List Nat} (h : Linked bytes done tt)
    (lt : done < bytes.length) :
    Linked bytes (done + 1) (tt.set (linkTarget bytes done)
      (tt.getD (linkTarget bytes done) 0 ||| done <<< 8)) := by
  have htarget := linkTarget_lt lt
  have hfree := h.free _ htarget fun index hindex => linkTarget_ne hindex lt
  have hentry : tt.getD (linkTarget bytes done) 0 ||| done <<< 8 =
      done * 256 + tt.getD (linkTarget bytes done) 0 := by
    have hsmall : tt.getD (linkTarget bytes done) 0 < 2 ^ 8 := by omega
    rw [Nat.or_comm, ← Nat.shiftLeft_add_eq_or_of_lt hsmall, Nat.shiftLeft_eq]
  have hself : (tt.set (linkTarget bytes done) (done * 256 + tt.getD (linkTarget bytes done) 0)).getD
      (linkTarget bytes done) 0 = done * 256 + tt.getD (linkTarget bytes done) 0 := by
    rw [List.getD_eq_getElem?_getD, List.getElem?_set_self (by rw [h.length]; exact htarget)]
    rfl
  have hother : ∀ p ≠ linkTarget bytes done,
      (tt.set (linkTarget bytes done) (done * 256 + tt.getD (linkTarget bytes done) 0)).getD p 0 =
        tt.getD p 0 := by
    intro p hne
    rw [List.getD_eq_getElem?_getD, List.getElem?_set_ne hne.symm, List.getD_eq_getElem?_getD]
  rw [hentry]
  refine ⟨by rw [List.length_set, h.length], fun p hp => ?_, fun index hindex => ?_,
    fun p hp hunlinked => ?_⟩
  · by_cases heq : p = linkTarget bytes done
    · rw [heq, hself, ← h.byte _ htarget]
      omega
    · rw [hother p heq, h.byte p hp]
  · rcases Nat.lt_succ_iff_lt_or_eq.mp hindex with hlt | rfl
    · rw [hother _ (linkTarget_ne hlt lt), h.link index hlt]
    · rw [hself]
      omega
  · rw [hother p fun heq => hunlinked done (Nat.lt_succ_self done) heq.symm]
    exact h.free p hp fun index hindex => hunlinked index (by omega)

private theorem Linked.run {done : Nat} {tt : List Nat} {counts : Nat → Nat} (count : Nat)
    (h : Linked bytes done tt) (all : done + count = bytes.length)
    (counters : ∀ byte : UInt8, counts byte.toNat =
      bytes.countP (fun other => decide (other < byte)) + (bytes.take done).count byte) :
    Linked bytes bytes.length (linkEntries (List.range' done count) counts tt) := by
  induction count generalizing done tt counts with
  | zero =>
    rw [Nat.add_zero] at all
    exact all ▸ h
  | succ count ih =>
    have hlt : done < bytes.length := by omega
    have htarget : counts (tt.getD done 0 % 256) = linkTarget bytes done := by
      rw [h.byte done hlt, counters, linkTarget]
    rw [List.range'_succ, linkEntries, htarget]
    refine ih (h.step hlt) (by omega) fun byte => ?_
    have htake : bytes.take (done + 1) = bytes.take done ++ [bytes.getD done 0] := by
      rw [List.take_add_one, List.getElem?_eq_getElem hlt, List.getD_eq_getElem?_getD,
        List.getElem?_eq_getElem hlt]
      rfl
    rw [htake, List.count_append, h.byte done hlt]
    by_cases heq : byte = bytes.getD done 0
    · rw [if_pos (by rw [heq]), heq, linkTarget, List.count_singleton_self]
      omega
    · rw [if_neg fun hvalue => heq (UInt8.toNat_inj.mp hvalue), counters byte,
        List.count_singleton, if_neg (by simpa using Ne.symm heq), Nat.add_zero]

theorem linkEntries_linked (bytes : List UInt8) :
    Linked bytes bytes.length
      (linkEntries (List.range bytes.length) (byteStart bytes) (bytes.map UInt8.toNat)) := by
  rw [List.range_eq_range']
  refine (linked_start bytes).run bytes.length (Nat.zero_add _) fun byte => ?_
  rw [byteStart_eq bytes (Nat.le_of_lt byte.toNat_lt), List.take_zero, List.count_nil, Nat.add_zero]
  exact List.countP_congr fun other _ => by simp [UInt8.lt_iff_toNat_lt]

variable {text : List UInt8} {matrix : List (List UInt8)} {tt : List Nat}

theorem Linked.next (h : Linked (lastColumn matrix) (lastColumn matrix).length tt)
    (rows : IsMatrix text matrix) {p : Nat} {row : List UInt8} (get : matrix[p]? = some row) :
    matrix[tt.getD p 0 / 256]? = some (row.rotate 1) := by
  obtain ⟨i, hi, hlast, hp⟩ := rows.exists_next get
  have hbound := (List.getElem?_eq_some_iff.mp hlast).1
  have htarget : linkTarget (lastColumn matrix) i = p := by
    rw [linkTarget, List.getD_eq_getElem?_getD, hlast, hp]
    rfl
  rw [← htarget, h.link i hbound, hi]

theorem Linked.walk_eq (h : Linked (lastColumn matrix) (lastColumn matrix).length tt)
    (rows : IsMatrix text matrix) (count : Nat) {p : Nat} {row : List UInt8}
    (get : matrix[p]? = some row) :
    walk tt count p = (List.range count).map fun k => final (row.rotate k) := by
  induction count generalizing p row with
  | zero => rfl
  | succ count ih =>
    have hlt := (List.getElem?_eq_some_iff.mp get).1
    have hbyte := h.byte p (by rwa [lastColumn, List.length_map])
    have hlast : (lastColumn matrix).getD p 0 = final row := by
      rw [lastColumn, List.getD_eq_getElem?_getD, List.getElem?_map, get]
      rfl
    rw [hlast] at hbyte
    have hfirst : UInt8.ofNat (tt.getD p 0) = final row := by
      refine UInt8.toNat_inj.mp (UInt8.toNat_ofNat'.trans ?_)
      exact hbyte
    rw [walk, Nat.shiftRight_eq_div_pow, ih (h.next rows get), List.range_succ_eq_map,
      List.map_cons, List.map_map, List.rotate_zero, hfirst]
    congr 1
    refine List.map_congr_left fun k _ => ?_
    rw [Function.comp_apply, List.rotate_rotate, Nat.add_comm 1 k]

theorem final_rotate_succ {k : Nat} (lt : k < text.length) :
    final (text.rotate (k + 1)) = text.getD k 0 := by
  have hne : text.length ≠ 0 := by omega
  rw [final, List.getLastD_eq_getLast?, List.getLast?_eq_getElem?, List.length_rotate,
    List.getElem?_rotate (by omega), show text.length - 1 + (k + 1) = k + text.length by omega,
    Nat.add_mod_right, Nat.mod_eq_of_lt lt, List.getD_eq_getElem?_getD]
  rfl

/-- From the last column of the sorted rotations and the row of the block, the links spell the
block. An entry of the array has room for a byte and an index. -/
theorem inverseTransform_sorted (few : text.length ≤ 900000) (rows : IsMatrix text matrix)
    {origin : Nat} (row : matrix[origin]? = some text) :
    inverseTransform (lastColumn matrix) origin = text ∧
      ∀ entry ∈ linkEntries (List.range (lastColumn matrix).length) (byteStart (lastColumn matrix))
        ((lastColumn matrix).map UInt8.toNat), entry < 2 ^ 32 := by
  have hlinked := linkEntries_linked (lastColumn matrix)
  have hlength : (lastColumn matrix).length = text.length := by
    rw [lastColumn, List.length_map, rows.length]
  constructor
  · rw [inverseTransform]
    rw [Nat.shiftRight_eq_div_pow, hlinked.walk_eq rows _ (hlinked.next rows row), hlength]
    refine List.ext_getElem (by simp) fun k hk hk' => ?_
    rw [List.getElem_map, List.getElem_range, List.rotate_rotate, Nat.add_comm 1 k,
      final_rotate_succ hk', List.getD_eq_getElem?_getD, List.getElem?_eq_getElem hk']
    rfl
  · intro entry hmem
    obtain ⟨p, hp, rfl⟩ := List.mem_iff_getElem.mp hmem
    have hlt := hlinked.length ▸ hp
    have hindex : (linkEntries (List.range (lastColumn matrix).length)
        (byteStart (lastColumn matrix)) ((lastColumn matrix).map UInt8.toNat)).getD p 0 / 256 <
          2 ^ 24 := by
      by_cases hfree : ∀ index < (lastColumn matrix).length, linkTarget (lastColumn matrix) index ≠ p
      · rw [hlinked.free p hlt hfree]
        decide
      · push Not at hfree
        obtain ⟨index, hindex, rfl⟩ := hfree
        rw [hlinked.link index hindex]
        omega
    rw [List.getD_eq_getElem?_getD, List.getElem?_eq_getElem hp, Option.getD_some] at hindex
    omega

/-- Two periods: the links form two cycles, and each is walked twice. -/
theorem inverseTransform_sorted_abab :
    inverseTransform [0x62, 0x62, 0x61, 0x61] 1 = [0x61, 0x62, 0x61, 0x62] ∧
      ∀ entry ∈ linkEntries (List.range 4) (byteStart [0x62, 0x62, 0x61, 0x61])
        [0x62, 0x62, 0x61, 0x61], entry < 2 ^ 32 :=
  @inverseTransform_sorted [0x61, 0x62, 0x61, 0x62]
    [[0x61, 0x62, 0x61, 0x62], [0x61, 0x62, 0x61, 0x62], [0x62, 0x61, 0x62, 0x61],
      [0x62, 0x61, 0x62, 0x61]]
    (by decide) ⟨by decide, by decide⟩ 1 rfl

end Fbz.Bzip2
