import Fbz.Bzip2.HeaderRoundTrip
import Fbz.Bzip2.PackageMerge
import Fbz.Bzip2.SymbolRoundTrip

/-!
# Symbols in groups of fifty

The tables that are built for a block code all of its symbols, each with the table that its group
has chosen. The symbol loop of the decoder reads them back wherever they stand.
-/

namespace Fbz.Bzip2

open BitOrder

section Chunks

variable {α : Type}

private theorem toChunks_go_push (n : Nat) (xs : List α) (open_ : Array α) (done : Array (List α)) :
    List.toChunks.go n xs open_ done = done.toList ++ List.toChunks.go n xs open_ #[] := by
  induction xs generalizing open_ done with
  | nil => simp [List.toChunks.go]
  | cons x xs ih =>
    rw [List.toChunks.go, List.toChunks.go]
    split
    · rw [ih, ih _ (#[].push _)]
      simp
    · exact ih _ _

private theorem toChunks_go_eq {n : Nat} (pos : 0 < n) (xs : List α) (open_ : Array α)
    (le : open_.size ≤ n) : List.toChunks.go n xs open_ #[] =
      (open_.toList ++ xs.take (n - open_.size)) :: (xs.drop (n - open_.size)).toChunks n := by
  induction xs generalizing open_ with
  | nil => simp [List.toChunks.go, List.toChunks]
  | cons x xs ih =>
    obtain ⟨m, rfl⟩ := Nat.exists_eq_add_of_lt pos
    rw [List.toChunks.go]
    by_cases hfull : open_.size = 0 + m + 1
    · rw [if_pos (by simpa using hfull), toChunks_go_push, hfull, Nat.sub_self]
      simp [List.toChunks]
    · have hmore : 0 + m + 1 - open_.size = 0 + m + 1 - (open_.push x).size + 1 := by
        rw [Array.size_push]
        omega
      rw [if_neg (by simpa using hfull), ih _ (by rw [Array.size_push]; omega), hmore]
      simp

private theorem toChunks_eq {n : Nat} (pos : 0 < n) {xs : List α} (ne : xs ≠ []) :
    xs.toChunks n = xs.take n :: (xs.drop n).toChunks n := by
  cases xs with
  | nil => exact absurd rfl ne
  | cons x xs =>
    obtain ⟨m, rfl⟩ := Nat.exists_eq_add_of_lt pos
    have hgo := toChunks_go_eq pos xs #[x] (by simp)
    rw [List.toChunks]
    · simpa using hgo
    · omega

theorem toChunks_length {n : Nat} (pos : 0 < n) (xs : List α) :
    xs.length ≤ (xs.toChunks n).length * n ∧ (xs.toChunks n).length * n < xs.length + n := by
  induction hm : xs.length using Nat.strong_induction_on generalizing xs with
  | _ m ih =>
    by_cases hne : xs = []
    · subst hne
      have hzero : m = 0 := by simpa using hm.symm
      subst hzero
      simpa [List.toChunks] using pos
    · have hlength := List.length_pos_iff.mpr hne
      rw [toChunks_eq pos hne, List.length_cons, Nat.succ_mul]
      have hdrop := ih (xs.drop n).length (by rw [List.length_drop]; omega) (xs.drop n) rfl
      rw [List.length_drop] at hdrop
      rcases Nat.le_total xs.length n with hle | hle
      · have hzero : ((xs.drop n).toChunks n).length = 0 := by
          rw [List.drop_of_length_le hle]
          rfl
        rw [hzero]
        omega
      · omega

end Chunks

/-- The code lengths of the table that codes a symbol, by its position. -/
def lengthsAt (lens : List (List Nat)) (selectors : List Nat) (i : Nat) : List Nat :=
  lens.getD (selectors.getD (i / groupSize) 0) []

/-- The codes of the symbols from a position on. -/
def codedBits (lens : List (List Nat)) (selectors syms : List Nat) (i : Nat) : List Bool :=
  (syms.zipIdx i).flatMap fun entry => symbolBits (lengthsAt lens selectors entry.2) entry.1

/-- Every selector names a table, and the tables have codes of all symbols. -/
structure Coding.Codes (coding : Coding) (syms : List Nat) (alphaSize : Nat) : Prop where
  codes : coding.codes = coding.lens.map Coding.canonicalCodes
  count : coding.lens.length = coding.nGroups
  few : 2 ≤ coding.nGroups ∧ coding.nGroups ≤ 6
  size : ∀ lengths ∈ coding.lens, lengths.length = alphaSize
  within : ∀ lengths ∈ coding.lens, ∀ length ∈ lengths, 1 ≤ length ∧ length ≤ encoderMaxCodeLen
  fits : ∀ lengths ∈ coding.lens, CanonicalCode.kraftSum lengths ≤ 1
  selectors : coding.selectors.length = (syms.toChunks groupSize).length
  known : ∀ selector ∈ coding.selectors, selector < coding.nGroups

section Build

variable {syms : List Nat} {alphaSize : Nat} {lens : List (List Nat)}

private theorem Coding.groupCount_bounds (count : Nat) :
    2 ≤ groupCount count ∧ groupCount count ≤ 6 := by
  unfold groupCount
  split_ifs <;> simp

private theorem Coding.initialFrom_length (freq : List Nat)
    (alphaSize nGroups nPart start remaining : Nat) :
    (initialFrom freq alphaSize nGroups nPart start remaining).length = nPart := by
  induction nPart generalizing start remaining with
  | zero => rfl
  | succ nPart ih => simp [initialFrom, ih]

private theorem Coding.cheapest_lt (ne : lens ≠ []) (group : List Nat) :
    cheapest lens group < lens.length := by
  apply List.foldlRecOn (motive := fun best : Nat × Nat => best.1 < lens.length)
  · exact List.length_pos_iff.mpr ne
  · intro best hbest entry hentry
    dsimp only
    split
    · obtain ⟨-, hlt, -⟩ := List.mem_zipIdx hentry
      simpa using hlt
    · exact hbest

private theorem Coding.tableFrequencies_size (syms : List Nat) (alphaSize : Nat)
    (lens : List (List Nat)) : (tableFrequencies syms alphaSize lens).length = lens.length ∧
      ∀ freq ∈ tableFrequencies syms alphaSize lens, freq.length = alphaSize := by
  have hcount (symbols freq : List Nat) :
      (symbols.foldl (fun freq symbol => freq.modify symbol (· + 1)) freq).length =
        freq.length := by
    apply List.foldlRecOn (motive := fun counted : List Nat => counted.length = freq.length)
    · rfl
    · intro counted hcounted symbol _
      rw [List.length_modify, hcounted]
  apply List.foldlRecOn (motive := fun rfreq : List (List Nat) => rfreq.length = lens.length ∧
    ∀ freq ∈ rfreq, freq.length = alphaSize)
  · simp
  · intro rfreq hrfreq entry _
    obtain ⟨hlength, hsizes⟩ := hrfreq
    constructor
    · rw [List.length_modify, hlength]
    · intro freq hfreq
      obtain ⟨i, hi, rfl⟩ := List.mem_iff_getElem.mp hfreq
      rw [List.length_modify] at hi
      rw [List.getElem_modify]
      split
      · rw [hcount]
        exact hsizes _ (List.getElem_mem hi)
      · exact hsizes _ (List.getElem_mem hi)

private theorem Coding.refine_length (syms : List Nat) (alphaSize : Nat) (lens : List (List Nat)) :
    (refine syms alphaSize lens).length = lens.length := by
  rw [refine, List.length_map, (tableFrequencies_size syms alphaSize lens).1]

private theorem Coding.refine_complete (two : 2 ≤ alphaSize)
    (few : alphaSize ≤ 2 ^ encoderMaxCodeLen)
    {lengths : List Nat} (mem : lengths ∈ refine syms alphaSize lens) :
    lengths.length = alphaSize ∧
      (∀ length ∈ lengths, 1 ≤ length ∧ length ≤ encoderMaxCodeLen) ∧
        CanonicalCode.kraftSum lengths = 1 := by
  obtain ⟨freq, hfreq, rfl⟩ := List.mem_map.mp mem
  have hsize : (freq.map (max · 1)).length = alphaSize := by
    rw [List.length_map, (tableFrequencies_size syms alphaSize lens).2 freq hfreq]
  obtain ⟨hwithin, hkraft⟩ := @packageMerge_complete (freq.map (max · 1)) encoderMaxCodeLen
    (by rwa [hsize]) (by rwa [hsize])
  exact ⟨(packageMerge_length _ _).trans hsize, hwithin, hkraft⟩

theorem Coding.build_codes (syms : List Nat) (two : 2 ≤ alphaSize)
    (few : alphaSize ≤ 2 ^ encoderMaxCodeLen) : (build syms alphaSize).Codes syms alphaSize := by
  have hbounds := groupCount_bounds syms.length
  have hlength : (build syms alphaSize).lens.length = groupCount syms.length := by
    show (Nat.repeat (refine syms alphaSize) 4 _).length = _
    simp only [Nat.repeat, refine_length]
    exact initialFrom_length ..
  have hcomplete (lengths : List Nat) (hmem : lengths ∈ (build syms alphaSize).lens) :=
    refine_complete two few (show lengths ∈ refine syms alphaSize _ from hmem)
  refine ⟨rfl, hlength, hbounds, fun lengths h => (hcomplete lengths h).1,
    fun lengths h => (hcomplete lengths h).2.1, fun lengths h => le_of_eq (hcomplete lengths h).2.2,
    List.length_map _, ?_⟩
  intro selector hselector
  obtain ⟨group, -, rfl⟩ := List.mem_map.mp hselector
  have hlt := cheapest_lt (List.length_pos_iff.mp (by rw [hlength]; omega)) group
  exact Nat.lt_of_lt_of_eq hlt hlength

end Build

section Symbols

variable {coding : Coding} {syms : List Nat} {alphaSize : Nat}

private theorem Coding.Codes.coded (h : coding.Codes syms alphaSize) {lengths : List Nat}
    (mem : lengths ∈ coding.lens) : Huffman.Coded lengths := by
  intro length hlength
  obtain ⟨hlo, hhi⟩ := h.within lengths mem length hlength
  exact ⟨hlo, Nat.le_trans hhi (by decide)⟩

private theorem BitWriter.Wrote.writeSymbol {w : BitWriter} {bits : List Bool} {lengths : List Nat}
    (h : w.Wrote bits) (coded : Huffman.Coded lengths) {symbol : Nat}
    (lt : symbol < lengths.length) :
    (Bzip2.writeSymbol lengths (Coding.canonicalCodes lengths) w symbol).Wrote
      (bits ++ symbolBits lengths symbol) := by
  have hcode : (Coding.canonicalCodes lengths).getD symbol 0 =
      CanonicalCode.code lengths symbol := by
    rw [Huffman.canonicalCodes_eq coded, List.getD_eq_getElem _ _ (by simpa using lt)]
    simp
  have hwrite := h.writeBits (lengths.getD symbol 0) (CanonicalCode.code lengths symbol)
  rw [Bzip2.writeSymbol, hcode]
  exact hwrite

private theorem zipIdx_split (xs : List Nat) (i count : Nat) :
    xs.zipIdx i = (xs.take count).zipIdx i ++ (xs.drop count).zipIdx (i + count) := by
  rcases Nat.le_total count xs.length with hle | hge
  · conv_lhs => rw [← List.take_append_drop count xs, List.zipIdx_append, List.length_take_of_le hle]
  · rw [List.take_of_length_le hge, List.drop_of_length_le hge]
    simp

private theorem codedBits_group {lens : List (List Nat)} {selectors symbols : List Nat}
    {group : Nat}
    (few : symbols.length ≤ groupSize) : codedBits lens selectors symbols (groupSize * group) =
      symbols.flatMap (symbolBits (lens.getD (selectors.getD group 0) [])) := by
  have hsame : codedBits lens selectors symbols (groupSize * group) =
      (symbols.zipIdx (groupSize * group)).flatMap fun entry =>
        symbolBits (lens.getD (selectors.getD group 0) []) entry.1 := by
    apply List.flatMap_congr
    intro entry hentry
    obtain ⟨hlo, hhi, -⟩ := List.mem_zipIdx hentry
    rw [show groupSize = 50 from rfl] at few hlo hhi
    have hindex : entry.2 / 50 = group := by omega
    rw [lengthsAt, show groupSize = 50 from rfl, hindex]
  rw [hsame, ← List.flatMap_map, List.zipIdx_map_fst]

private theorem codedBits_split (lens : List (List Nat)) (selectors syms : List Nat) (group : Nat) :
    codedBits lens selectors syms (groupSize * group) =
      (syms.take groupSize).flatMap (symbolBits (lens.getD (selectors.getD group 0) [])) ++
        codedBits lens selectors (syms.drop groupSize) (groupSize * (group + 1)) := by
  rw [← codedBits_group (List.length_take_le _ _), codedBits, zipIdx_split _ _ groupSize,
    List.flatMap_append]
  rfl

/-- Group by group, each with its selector, is symbol by symbol. -/
theorem BitWriter.Wrote.writeGroups {w : BitWriter} {bits : List Bool}
    (h : w.Wrote bits) (codes : coding.Codes syms alphaSize) {rest : List Nat} {group : Nat}
    (size : (coding.selectors.drop group).length = (rest.toChunks groupSize).length)
    (known : ∀ symbol ∈ rest, symbol < alphaSize) :
    (((coding.selectors.drop group).zip (rest.toChunks groupSize)).foldl
      (fun w entry => entry.2.foldl
        (Bzip2.writeSymbol (coding.lens.getD entry.1 []) (coding.codes.getD entry.1 [])) w) w).Wrote
      (bits ++ codedBits coding.lens coding.selectors rest (groupSize * group)) := by
  induction hm : rest.length using Nat.strong_induction_on generalizing w bits rest group with
  | _ m ih =>
    by_cases hne : rest = []
    · subst hne
      simpa [List.toChunks, codedBits] using h
    · have hlength := List.length_pos_iff.mpr hne
      have hsize : 0 < groupSize := by decide
      rw [toChunks_eq hsize hne] at size ⊢
      have hgroup : group < coding.selectors.length := by
        rw [List.length_drop, List.length_cons] at size
        omega
      have hselector : coding.selectors.getD group 0 = coding.selectors[group] :=
        List.getD_eq_getElem _ _ hgroup
      have hlt : coding.selectors[group] < coding.lens.length := by
        rw [codes.count]
        exact codes.known _ (List.getElem_mem hgroup)
      have hcodes : coding.codes.getD coding.selectors[group] [] =
          Coding.canonicalCodes (coding.lens.getD coding.selectors[group] []) := by
        rw [codes.codes, List.getD_eq_getElem _ _ (by rwa [List.length_map]), List.getElem_map,
          List.getD_eq_getElem _ _ hlt]
      have hmem : coding.lens.getD coding.selectors[group] [] ∈ coding.lens := by
        rw [List.getD_eq_getElem _ _ hlt]
        exact List.getElem_mem hlt
      rw [codedBits_split, hselector, List.drop_eq_getElem_cons hgroup, List.zip_cons_cons,
        List.foldl_cons, hcodes, ← List.append_assoc]
      rw [List.drop_eq_getElem_cons hgroup, List.length_cons, List.length_cons] at size
      apply ih _ _ _ (Nat.succ.inj size) _ rfl
      · rw [List.length_drop]
        omega
      · apply h.foldl
        intro symbol hsymbol w bits hw
        apply hw.writeSymbol (codes.coded hmem)
        rw [codes.size _ hmem]
        exact known symbol (List.mem_of_mem_take hsymbol)
      · intro symbol hsymbol
        exact known symbol (List.mem_of_mem_drop hsymbol)

/-- What the header of the block names. -/
structure Described (header : BlockHeader) (coding : Coding) : Prop where
  selectors : header.selectors = coding.selectors
  tables : Built header.tables coding.lens

/-- The variables of the loop before a symbol, by its position. -/
structure Symbols.At (s : Symbols) (selectors : List Nat) (i : Nat) : Prop where
  selector : s.selector = (i + 49) / groupSize
  groupLeft : s.groupLeft = (groupSize - i % groupSize) % groupSize
  table : i % groupSize ≠ 0 → s.table = selectors.getD (i / groupSize) 0

private theorem selectTable_at_symbol {header : BlockHeader} {s : Symbols} {i : Nat}
    (at_ : s.At header.selectors i) (lt : i / groupSize < header.selectors.length) (bit : Nat) :
    ∃ t, selectTable header s bit = .ok t ∧ t.At header.selectors (i + 1) ∧
      t.table = header.selectors.getD (i / groupSize) 0 := by
  obtain ⟨hselector, hleft, htable⟩ := at_
  rw [show groupSize = 50 from rfl] at *
  by_cases hfirst : i % 50 = 0
  · have hget : header.selectors[s.selector]? = some (header.selectors.getD (i / 50) 0) := by
      rw [hselector, show (i + 49) / 50 = i / 50 by omega, List.getElem?_eq_getElem lt,
        List.getD_eq_getElem _ _ lt]
    have hzero : s.groupLeft = 0 := by omega
    refine ⟨_, by rw [selectTable, if_pos hzero, hget], ⟨?_, ?_, ?_⟩, rfl⟩
    · show s.selector + 1 = (i + 1 + 49) / 50
      omega
    · show 49 = (50 - (i + 1) % 50) % 50
      omega
    · intro _
      show header.selectors.getD (i / 50) 0 = header.selectors.getD ((i + 1) / 50) 0
      rw [show (i + 1) / 50 = i / 50 by omega]
  · have hmore : s.groupLeft ≠ 0 := by omega
    refine ⟨{ s with groupLeft := s.groupLeft - 1 }, by rw [selectTable, if_neg hmore], ⟨?_, ?_, ?_⟩,
      htable hfirst⟩
    · show s.selector = (i + 1 + 49) / 50
      omega
    · show s.groupLeft - 1 = (50 - (i + 1) % 50) % 50
      omega
    · intro hinside
      have hinside : (i + 1) % 50 ≠ 0 := hinside
      show s.table = header.selectors.getD ((i + 1) / 50) 0
      rw [htable hfirst, show (i + 1) / 50 = i / 50 by omega]

theorem readSymbols_written {header : BlockHeader} {s : Symbols} {data : List UInt8} {bit i : Nat}
    {tail : List Bool} {rest : List Nat} (codes : coding.Codes syms alphaSize)
    (described : Described header coding) (at_ : s.At header.selectors i)
    (known : ∀ symbol ∈ rest, symbol < alphaSize)
    (long : ∀ j < i + rest.length, j / groupSize < coding.selectors.length)
    (h : Rests data bit (codedBits coding.lens coding.selectors rest i ++ tail)) :
    ∃ marked next, readSymbols data header rest.length s bit = .ok marked ∧
      marked.map Prod.fst = rest ∧ (marked.getLast?.map Prod.snd).getD bit = next ∧
      Rests data next tail := by
  induction rest generalizing s bit i with
  | nil => exact ⟨[], bit, rfl, rfl, rfl, h⟩
  | cons symbol rest ih =>
    obtain ⟨hsymbol, hknown⟩ := List.forall_mem_cons.mp known
    have hlt : i / groupSize < coding.selectors.length := long i (by rw [List.length_cons]; omega)
    obtain ⟨t, hselect, hat, htable⟩ := selectTable_at_symbol at_ (described.selectors ▸ hlt) bit
    rw [described.selectors] at htable
    have hindex : t.table < coding.lens.length := by
      rw [htable, codes.count, List.getD_eq_getElem _ _ hlt]
      exact codes.known _ (List.getElem_mem hlt)
    have hsize : header.tables.length = coding.lens.length := described.tables.length_eq
    have hbuilt : header.tables[t.table].IsBuilt coding.lens[t.table] :=
      described.tables.get (hsize.symm ▸ hindex) hindex
    have hlengths : lengthsAt coding.lens coding.selectors i = coding.lens[t.table] := by
      rw [lengthsAt, ← htable, List.getD_eq_getElem _ _ hindex]
    rw [codedBits, List.zipIdx_cons, List.flatMap_cons, List.append_assoc, hlengths] at h
    have hdecode := h.decode hbuilt (by
      rw [codes.size _ (List.getElem_mem hindex)]
      exact hsymbol)
    obtain ⟨marked, next, hread, hmarks, hlast, hrest⟩ := ih hat hknown (by
      intro j hj
      apply long
      rw [List.length_cons]
      omega) h.after_read
    refine ⟨(symbol, bit + coding.lens[t.table].getD symbol 0) :: marked, next, ?_,
      by rw [List.map_cons, hmarks], ?_, hrest⟩
    · have hget : header.tables[t.table]? = some header.tables[t.table] :=
        List.getElem?_eq_getElem _
      have hone : readSymbol data header s bit =
          .ok (t, symbol, bit + coding.lens[t.table].getD symbol 0) := by
        rw [readSymbol, hselect, result_bind_ok, hget, okOr_some, result_bind_ok, hdecode]
        rfl
      rw [List.length_cons, readSymbols, hone, result_bind_ok]
      dsimp only
      rw [hread]
      rfl
    · rw [← hlast]
      cases marked with
      | nil => rfl
      | cons first marked => simp [List.getLast?_cons]

end Symbols

end Fbz.Bzip2
