import Fbz.Deflate.Huffman
import Fbz.Lib.BitOrder
import Fbz.Lib.CanonicalCode

/-!
# What the decoding table decodes

The table of a list of code lengths leads from the next bits of the stream to the one symbol whose
canonical code they begin with, also where the data ends before the table's bits do.
-/

namespace Fbz.Deflate

open BitOrder CanonicalCode

/-- The bits of the stream, each byte from its low end. -/
def streamBit (data : List UInt8) (bit : Nat) : Bool :=
  (data.getD (bit / 8) 0).toNat.testBit (bit % 8)

private theorem leNat_testBit (bytes : List UInt8) (i : Nat) :
    (leNat bytes).testBit i = streamBit bytes i := by
  induction bytes generalizing i with
  | nil => simp [leNat, streamBit]
  | cons byte bytes ih =>
    have hbyte := byte.toNat_lt
    have hsum : leNat (byte :: bytes) = 2 ^ 8 * leNat bytes + byte.toNat := by
      rw [leNat]
      omega
    rw [hsum, Nat.testBit_two_pow_mul_add _ (by omega), streamBit]
    split
    · next hlt => rw [Nat.div_eq_of_lt hlt, Nat.mod_eq_of_lt hlt, List.getD_cons_zero]
    · next hge =>
      obtain ⟨j, rfl⟩ : ∃ j, i = j + 8 := ⟨i - 8, by omega⟩
      rw [Nat.add_sub_cancel, ih, Nat.add_div_right _ (by omega), Nat.add_mod_right,
        List.getD_cons_succ, streamBit]

private theorem wordAt_testBit (data : List UInt8) (byte : Nat) {i : Nat} (lt : i < 64) :
    (wordAt data byte).testBit i = streamBit data (byte * 8 + i) := by
  rw [wordAt, leNat_testBit, streamBit, streamBit, slice, Nat.add_sub_cancel_left,
    List.getD_eq_getElem?_getD, List.getD_eq_getElem?_getD, List.getElem?_take_of_lt (by omega),
    List.getElem?_drop, show (byte * 8 + i) / 8 = byte + i / 8 by omega,
    show (byte * 8 + i) % 8 = i % 8 by omega]

theorem Bits.peek_eq {data : List UInt8} {bit count : Nat} (few : count ≤ 56) :
    Bits.peek data bit count =
      if bit + count ≤ data.length * 8 then .ok (lowFirst (streamBit data) bit count)
      else .error (invalidBit bit "unexpected end of DEFLATE data") := by
  unfold Bits.peek ensure
  split
  · rw [result_bind_ok, ← lowFirst_testBit]
    refine congrArg Except.ok (lowFirst_congr fun i hi => ?_)
    rw [wordAt_testBit _ _ (by omega)]
    congr 1
    omega
  · rfl

namespace Huffman

theorem reverseLowBits_lt (value count : Nat) : reverseLowBits value count < 2 ^ count := by
  induction count generalizing value with
  | zero => exact Nat.one_pos
  | succ count ih =>
    have := ih (value / 2)
    rw [reverseLowBits, Nat.pow_succ]
    rcases Nat.mod_two_eq_zero_or_one value with h | h <;> rw [h] <;> omega

private theorem reverseLowBits_lowFirst (bit : Nat → Bool) (start count : Nat) :
    reverseLowBits (lowFirst bit start count) count = highFirst bit start count := by
  induction count generalizing start with
  | zero => rfl
  | succ count ih =>
    have hbit := Bool.toNat_lt (bit start)
    rw [Nat.add_comm count 1, highFirst_add, Nat.add_comm 1 count, reverseLowBits, lowFirst,
      show ((bit start).toNat + 2 * lowFirst bit (start + 1) count) % 2 = (bit start).toNat by omega,
      show ((bit start).toNat + 2 * lowFirst bit (start + 1) count) / 2 =
        lowFirst bit (start + 1) count by omega, ih]
    simp [highFirst]

private theorem reverseLowBits_snoc {value count high : Nat} (lt : value < 2 ^ count)
    (bit : high < 2) : reverseLowBits (high * 2 ^ count + value) (count + 1) =
      2 * reverseLowBits value count + high := by
  induction count generalizing value with
  | zero =>
    obtain rfl : value = 0 := by simpa using lt
    simp only [reverseLowBits]
    omega
  | succ count ih =>
    rw [Nat.pow_succ] at lt
    have hhigh : high * 2 ^ (count + 1) = 2 * (high * 2 ^ count) := by
      rw [Nat.pow_succ]
      ring
    have hmod : (high * 2 ^ (count + 1) + value) % 2 = value % 2 := by omega
    have hdiv : (high * 2 ^ (count + 1) + value) / 2 = high * 2 ^ count + value / 2 := by omega
    rw [reverseLowBits, hmod, hdiv, ih (by omega), reverseLowBits, Nat.pow_succ]
    ring

private theorem reverseLowBits_reverse {value count : Nat} (lt : value < 2 ^ count) :
    reverseLowBits (reverseLowBits value count) count = value := by
  induction count generalizing value with
  | zero =>
    obtain rfl : value = 0 := by simpa using lt
    rfl
  | succ count ih =>
    rw [Nat.pow_succ] at lt
    have hinner : reverseLowBits value (count + 1) =
      value % 2 * 2 ^ count + reverseLowBits (value / 2) count := rfl
    rw [hinner, reverseLowBits_snoc (reverseLowBits_lt _ _) (Nat.mod_lt _ Nat.two_pos),
      ih (by omega)]
    omega

theorem firstCode_eq (lengths : List Nat) (length : Nat) :
    firstCode lengths length = first lengths length := by
  induction length with
  | zero => rfl
  | succ length ih => rw [firstCode, first, ih, codeCount, count]

/-- The entries of a code are those whose low bits are the reversed code. -/
theorem fillSymbol_getD {table : List Nat} {reversed length suffixBits packed index : Nat}
    (size : table.length = 2 ^ (length + suffixBits)) (lt : reversed < 2 ^ length)
    (bound : index < 2 ^ (length + suffixBits)) :
    (fillSymbol table reversed length suffixBits packed).getD index noCode =
      if index % 2 ^ length = reversed then packed else table.getD index noCode := by
  have hfold : ∀ (suffixes table : List Nat), index < table.length →
      (suffixes.foldl (fun table suffix => table.set (reversed ||| suffix <<< length) packed)
        table).getD index noCode =
        if ∃ suffix ∈ suffixes, reversed ||| suffix <<< length = index then packed
        else table.getD index noCode := by
    intro suffixes
    induction suffixes with
    | nil => simp
    | cons suffix suffixes ih =>
      intro table hlt
      rw [List.foldl_cons, ih _ (by rwa [List.length_set])]
      by_cases htail : ∃ suffix ∈ suffixes, reversed ||| suffix <<< length = index
      · have hall : ∃ other ∈ suffix :: suffixes, reversed ||| other <<< length = index := by
          obtain ⟨other, hmem, heq⟩ := htail
          exact ⟨other, List.mem_cons_of_mem _ hmem, heq⟩
        rw [if_pos htail, if_pos hall]
      · rw [if_neg htail, List.getD_eq_getElem?_getD, List.getElem?_set]
        by_cases hhead : reversed ||| suffix <<< length = index
        · have hall : ∃ other ∈ suffix :: suffixes, reversed ||| other <<< length = index :=
            ⟨suffix, List.mem_cons_self, hhead⟩
          rw [if_pos hhead, if_pos hall, if_pos (hhead ▸ hlt), Option.getD_some]
        · have hall : ¬ ∃ other ∈ suffix :: suffixes, reversed ||| other <<< length = index := by
            rintro ⟨other, hmem, heq⟩
            rcases List.mem_cons.mp hmem with rfl | hmem
            · exact hhead heq
            · exact htail ⟨other, hmem, heq⟩
          rw [if_neg hhead, if_neg hall, List.getD_eq_getElem?_getD]
  have hindex : ∀ suffix, reversed ||| suffix <<< length = suffix * 2 ^ length + reversed := by
    intro suffix
    rw [Nat.or_comm, ← Nat.shiftLeft_add_eq_or_of_lt lt, Nat.shiftLeft_eq]
  rw [fillSymbol, hfold _ _ (size ▸ bound)]
  refine if_congr ⟨?_, fun hmod => ?_⟩ rfl rfl
  · rintro ⟨suffix, -, heq⟩
    rw [← heq, hindex, Nat.mul_comm, Nat.mul_add_mod, Nat.mod_eq_of_lt lt]
  · refine ⟨index / 2 ^ length, List.mem_range.mpr ?_, ?_⟩
    · rw [Nat.pow_add] at bound
      exact Nat.div_lt_of_lt_mul bound
    · rw [hindex, ← hmod, Nat.mul_comm, Nat.div_add_mod]

theorem fillSymbol_length (table : List Nat) (reversed length suffixBits packed : Nat) :
    (fillSymbol table reversed length suffixBits packed).length = table.length := by
  rw [fillSymbol]
  generalize List.range (2 ^ suffixBits) = suffixes
  induction suffixes generalizing table with
  | nil => rfl
  | cons suffix suffixes ih => rw [List.foldl_cons, ih, List.length_set]

/-- The index begins with the reversed code of the symbol. -/
def Matches (lengths : List Nat) (index symbol : Nat) : Prop :=
  ∃ length, HasLength lengths symbol length ∧
    index % 2 ^ length = reverseLowBits (code lengths symbol) length

/-- What the table holds for a symbol. -/
def packedOf (lengths : List Nat) (symbol : Nat) : Nat := lengths.getD symbol 0 <<< 9 ||| symbol

/-- The loop over the symbols from `start` on: an entry is that of a symbol it matches, or as it was
when it matches none. -/
theorem fillTable_getD {maxBits index start : Nat} {lengths back table : List Nat}
    {nextCode : Nat → Nat} (bounded : ∀ length ∈ lengths, length ≤ maxBits)
    (rest : lengths.drop start = back)
    (next : ∀ length, 0 < length →
      nextCode length = first lengths length + (lengths.take start).count length)
    (size : table.length = 2 ^ maxBits) (bound : index < 2 ^ maxBits) :
    (∃ symbol, Matches lengths index symbol ∧
        (fillTable maxBits (back.zipIdx start) nextCode table).getD index noCode =
          packedOf lengths symbol) ∨
      (∀ symbol ≥ start, ¬ Matches lengths index symbol) ∧
        (fillTable maxBits (back.zipIdx start) nextCode table).getD index noCode =
          table.getD index noCode := by
  induction back generalizing start nextCode table with
  | nil =>
    refine .inr ⟨fun symbol hge hmatch => ?_, rfl⟩
    obtain ⟨length, hlength, -⟩ := hmatch
    obtain ⟨hlt, -⟩ := List.getElem?_eq_some_iff.mp hlength.get
    have := List.drop_eq_nil_iff.mp rest
    omega
  | cons length back ih =>
    have hget : lengths[start]? = some length := by
      rw [← List.head?_drop, rest, List.head?_cons]
    have hrest : lengths.drop (start + 1) = back := by
      rw [← List.drop_drop, rest, List.drop_one, List.tail_cons]
    have htake : lengths.take (start + 1) = lengths.take start ++ [length] := by
      rw [List.take_add_one, hget]
      rfl
    rw [List.zipIdx_cons, fillTable]
    by_cases hzero : length = 0
    · -- the symbol has no code
      rw [if_pos hzero]
      have hnext : ∀ other, 0 < other →
          nextCode other = first lengths other + (lengths.take (start + 1)).count other := by
        intro other hpos
        rw [next other hpos, htake, List.count_append, List.count_singleton,
          if_neg (by simpa using by omega), Nat.add_zero]
      refine (ih hrest hnext size).imp_right (And.imp_left fun hnone symbol hge => ?_)
      rcases Nat.eq_or_lt_of_le hge with rfl | hlt
      · rintro ⟨other, hother, -⟩
        have := Option.some.inj (hget.symm.trans hother.get)
        have := hother.pos
        omega
      · exact hnone symbol hlt
    · rw [if_neg hzero]
      have hlength : HasLength lengths start length := ⟨hget, Nat.pos_of_ne_zero hzero⟩
      have hmax := bounded length hlength.mem
      have hcode : nextCode length = code lengths start := by
        rw [next length hlength.pos, hlength.code_eq]
      have hsplit : length + (maxBits - length) = maxBits := by omega
      rw [hcode]
      have hnext : ∀ other, 0 < other →
          (if other = length then code lengths start + 1 else nextCode other) =
            first lengths other + (lengths.take (start + 1)).count other := by
        intro other hpos
        rw [htake, List.count_append, List.count_singleton]
        split
        · next heq =>
          rw [heq, hlength.code_eq, if_pos (by simp)]
          rfl
        · next hne =>
          rw [next other hpos, if_neg (by simpa using Ne.symm hne)]
          rfl
      have hpacked : length <<< 9 ||| start = packedOf lengths start := by
        rw [packedOf, hlength.getD]
      rw [hpacked]
      have hset := @fillSymbol_getD table (reverseLowBits (code lengths start) length) length
        (maxBits - length) (packedOf lengths start) index (by rw [hsplit, size])
        (reverseLowBits_lt _ _) (by rwa [hsplit])
      rcases ih hrest hnext ((fillSymbol_length table _ length _ _).trans size) with hfound | ⟨hnone, hsame⟩
      · exact .inl hfound
      · by_cases hmatch : index % 2 ^ length = reverseLowBits (code lengths start) length
        · rw [if_pos hmatch] at hset
          exact .inl ⟨start, ⟨length, hlength, hmatch⟩, hsame.trans hset⟩
        · rw [if_neg hmatch] at hset
          refine .inr ⟨fun symbol hge => ?_, hsame.trans hset⟩
          rcases Nat.eq_or_lt_of_le hge with rfl | hlt
          · rintro ⟨other, hother, heq⟩
            obtain rfl := Option.some.inj (hget.symm.trans hother.get)
            exact hmatch heq
          · exact hnone symbol hlt

private theorem checkCounts_iff (lengths : List Nat) (start count : Nat) :
    checkCounts ((List.range' start count).map fun i => codeCount lengths (i + 1))
        (2 ^ start - filled lengths start) = true ↔
      ∀ length, start < length → length ≤ start + count → filled lengths length ≤ 2 ^ length := by
  induction count generalizing start with
  | zero => exact iff_of_true rfl fun length hlo hhi => absurd hlo (by omega)
  | succ count ih =>
    have hremaining : ((2 : Int) ^ start - filled lengths start) * 2 -
        codeCount lengths (start + 1) = 2 ^ (start + 1) - filled lengths (start + 1) := by
      rw [filled_succ, show codeCount lengths (start + 1) = CanonicalCode.count lengths (start + 1)
        from rfl, pow_succ]
      push_cast
      ring
    have hcast : (2 : Int) ^ (start + 1) - filled lengths (start + 1) < 0 ↔
        ¬ filled lengths (start + 1) ≤ 2 ^ (start + 1) := by
      rw [not_le, ← @Nat.cast_lt Int]
      push_cast
      omega
    rw [List.range'_succ, List.map_cons, checkCounts, hremaining]
    split
    · next hneg =>
      refine iff_of_false (by simp) fun hall => hcast.mp hneg (hall _ (by omega) (by omega))
    · next hnonneg =>
      rw [ih]
      refine ⟨fun hall length hlo hhi => ?_, fun hall length hlo hhi => hall length (by omega) (by omega)⟩
      rcases Nat.eq_or_lt_of_le (show start + 1 ≤ length from hlo) with rfl | hlt
      · exact not_not.mp fun hfull => hnonneg (hcast.mpr hfull)
      · exact hall length hlt (by omega)

theorem checkCounts_filled (lengths : List Nat) :
    checkCounts ((List.range maxCodeBits).map fun i => codeCount lengths (i + 1)) 1 = true ↔
      filled lengths maxCodeBits ≤ 2 ^ maxCodeBits := by
  have hiff := checkCounts_iff lengths 0 maxCodeBits
  rw [← List.range_eq_range', show (2 : Int) ^ 0 - filled lengths 0 = 1 by
    simp [filled, first, CanonicalCode.count]] at hiff
  rw [hiff]
  exact ⟨fun hall => hall _ (by decide) (by omega),
    fun hfits length _ hle => filled_le_of_le (by omega) hfits⟩

/-- The table of lengths that are accepted. -/
structure IsTable (huffman : Huffman) (lengths : List Nat) : Prop where
  maxBits_pos : 0 < huffman.maxBits
  maxBits_le : huffman.maxBits ≤ maxCodeBits
  bounded : ∀ length ∈ lengths, length ≤ huffman.maxBits
  fits : filled lengths huffman.maxBits ≤ 2 ^ huffman.maxBits
  table : huffman.table = fillTable huffman.maxBits lengths.zipIdx (firstCode lengths)
    (List.replicate (2 ^ huffman.maxBits) noCode)

private theorem new_cases (lengths : List Nat) :
    (∃ error, new lengths = .error error) ∧ (∃ length ∈ lengths, maxCodeBits < length) ∨
      (∀ length ∈ lengths, length ≤ maxCodeBits) ∧
        ((∃ huffman, new lengths = .ok huffman) ∧ (∀ length ∈ lengths, length = 0) ∨
          (∃ error, new lengths = .error error) ∧
            ¬ filled lengths maxCodeBits ≤ 2 ^ maxCodeBits ∨
          (∃ huffman, new lengths = .ok huffman ∧ huffman.IsTable lengths) ∧
            filled lengths maxCodeBits ≤ 2 ^ maxCodeBits) := by
  unfold new
  by_cases hbounded : ∀ length ∈ lengths, length ≤ maxCodeBits
  · refine .inr ⟨hbounded, ?_⟩
    rw [ensure_of hbounded, result_bind_ok]
    dsimp only
    by_cases hzero : lengths.foldl max 0 = 0
    · refine .inl ⟨⟨_, by rw [if_pos hzero]; rfl⟩, fun length hmem => ?_⟩
      have := le_foldl_max 0 hmem
      omega
    · rw [if_neg hzero]
      by_cases hfits : filled lengths maxCodeBits ≤ 2 ^ maxCodeBits
      · refine .inr (.inr ⟨?_, hfits⟩)
        rw [ensure_of ((checkCounts_filled lengths).mpr hfits), result_bind_ok]
        have hle : lengths.foldl max 0 ≤ maxCodeBits := foldl_max_le hbounded
        exact ⟨_, rfl, {
          maxBits_pos := Nat.pos_of_ne_zero hzero
          maxBits_le := hle
          bounded := fun length hmem => le_foldl_max 0 hmem
          fits := filled_le_of_le hle hfits
          table := rfl }⟩
      · refine .inr (.inl ⟨?_, hfits⟩)
        rw [ensure_of_not fun h => hfits ((checkCounts_filled lengths).mp h)]
        exact ⟨_, rfl⟩
  · rw [ensure_of_not hbounded]
    push Not at hbounded
    exact .inl ⟨⟨_, rfl⟩, hbounded⟩

/-- Which lengths are accepted. -/
theorem new_accepts_iff (lengths : List Nat) :
    (∃ huffman, new lengths = .ok huffman) ↔
      (∀ length ∈ lengths, length ≤ maxCodeBits) ∧ kraftSum lengths ≤ 1 := by
  rcases new_cases lengths with ⟨⟨error, herror⟩, length, hmem, hlong⟩ | ⟨hbounded, hcases⟩
  · refine iff_of_false (fun ⟨huffman, hok⟩ => ?_) fun hall => ?_
    · rw [herror] at hok
      cases hok
    · exact absurd (hall.1 length hmem) (by omega)
  · rw [kraftSum_le_one_iff hbounded]
    rcases hcases with ⟨hok, hzero⟩ | ⟨⟨error, herror⟩, hfull⟩ | ⟨⟨huffman, hok, -⟩, hfits⟩
    · refine iff_of_true hok ⟨hbounded, ?_⟩
      rw [← kraft_eq_filled hbounded, kraft, List.map_congr_left fun length hmem =>
        if_pos (hzero length hmem)]
      simp
    · refine iff_of_false (fun ⟨huffman, hok⟩ => ?_) fun hall => hfull hall.2
      rw [herror] at hok
      cases hok
    · exact iff_of_true ⟨huffman, hok⟩ ⟨hbounded, hfits⟩

theorem isTable_new {huffman : Huffman} {lengths : List Nat} (h : new lengths = .ok huffman)
    (used : ∃ length ∈ lengths, length ≠ 0) : huffman.IsTable lengths := by
  obtain ⟨length, hmem, hne⟩ := used
  rcases new_cases lengths with
    ⟨⟨error, herror⟩, -⟩ | ⟨-, ⟨-, hzero⟩ | ⟨⟨error, herror⟩, -⟩ | ⟨⟨other, hok, htable⟩, -⟩⟩
  · rw [herror] at h
    cases h
  · exact absurd (hzero length hmem) hne
  · rw [herror] at h
    cases h
  · obtain rfl := Except.ok.inj (hok.symm.trans h)
    exact htable

private theorem IsTable.getD {huffman : Huffman} {lengths : List Nat} (h : huffman.IsTable lengths)
    {index : Nat} (bound : index < 2 ^ huffman.maxBits) :
    (∃ symbol, Matches lengths index symbol ∧
        huffman.table.getD index noCode = packedOf lengths symbol) ∨
      (∀ symbol, ¬ Matches lengths index symbol) ∧ huffman.table.getD index noCode = noCode := by
  rw [h.table]
  have hnext : ∀ length, 0 < length →
      firstCode lengths length = first lengths length + (lengths.take 0).count length := by
    intro length _
    rw [firstCode_eq, List.take_zero, List.count_nil, Nat.add_zero]
  rcases fillTable_getD h.bounded (show lengths.drop 0 = lengths from rfl) hnext
    List.length_replicate bound with hfound | ⟨hnone, hsame⟩
  · exact .inl hfound
  · refine .inr ⟨fun symbol => hnone symbol (Nat.zero_le _), hsame.trans ?_⟩
    rw [List.getD_eq_getElem?_getD, List.getElem?_replicate, if_pos bound, Option.getD_some]

private theorem matches_iff {lengths : List Nat} {bit : Nat → Bool}
    {start peeked width symbol length : Nat}
    (hlength : HasLength lengths symbol length) (fits : filled lengths width ≤ 2 ^ width)
    (le : length ≤ width) (inside : length ≤ peeked) :
    lowFirst bit start peeked % 2 ^ length = reverseLowBits (code lengths symbol) length ↔
      highFirst bit start length = code lengths symbol := by
  obtain ⟨more, rfl⟩ := Nat.exists_eq_add_of_le inside
  rw [lowFirst_mod]
  constructor
  · intro h
    rw [← reverseLowBits_lowFirst, h, reverseLowBits_reverse (hlength.code_lt fits le)]
  · intro h
    rw [← h, ← reverseLowBits_lowFirst, reverseLowBits_reverse (lowFirst_lt ..)]

private theorem Matches.unique {huffman : Huffman} {lengths : List Nat}
    (h : huffman.IsTable lengths) {index symbol other : Nat} (hs : Matches lengths index symbol)
    (ho : Matches lengths index other) : symbol = other := by
  obtain ⟨length, hlength, hmod⟩ := hs
  obtain ⟨long, hlong, hmod'⟩ := ho
  have hle := h.bounded length hlength.mem
  have hle' := h.bounded long hlong.mem
  have hindex : ∀ count, index % 2 ^ count =
      lowFirst index.testBit 0 huffman.maxBits % 2 ^ count ∨ huffman.maxBits < count := by
    intro count
    by_cases hcount : count ≤ huffman.maxBits
    · obtain ⟨more, hmore⟩ := Nat.exists_eq_add_of_le hcount
      rw [hmore, lowFirst_mod, lowFirst_testBit, Nat.shiftRight_zero]
      exact .inl rfl
    · exact .inr (by omega)
  have hword : ∀ {count : Nat}, count ≤ huffman.maxBits →
      highFirst index.testBit 0 huffman.maxBits / 2 ^ (huffman.maxBits - count) =
        highFirst index.testBit 0 count := by
    intro count hcount
    obtain ⟨more, hmore⟩ := Nat.exists_eq_add_of_le hcount
    rw [hmore, Nat.add_sub_cancel_left, highFirst_div]
  refine @hlength.unique _ _ _ _ _ _ (highFirst index.testBit 0 huffman.maxBits) hlong hle hle' ?_ ?_
  · rw [hword hle]
    exact (matches_iff hlength h.fits hle hle).mp (((hindex length).resolve_right (by omega)).symm.trans hmod)
  · rw [hword hle']
    exact (matches_iff hlong h.fits hle' hle').mp (((hindex long).resolve_right (by omega)).symm.trans hmod')

private theorem packedOf_eq {lengths : List Nat} {symbol length : Nat}
    (h : HasLength lengths symbol length) (le : length ≤ maxCodeBits) (lt : symbol < 2 ^ 9) :
    packedOf lengths symbol ≠ noCode ∧ packedOf lengths symbol >>> 9 = length ∧
      packedOf lengths symbol &&& 0x1ff = symbol := by
  have hpacked : packedOf lengths symbol = length * 2 ^ 9 + symbol := by
    rw [packedOf, h.getD, ← Nat.shiftLeft_add_eq_or_of_lt lt, Nat.shiftLeft_eq]
  have hcode : maxCodeBits = 15 := rfl
  rw [hpacked, Nat.shiftRight_eq_div_pow, noCode, show 0x1ff = 2 ^ 9 - 1 from rfl,
    Nat.and_two_pow_sub_one_eq_mod]
  omega

/-- `decode` on a reader that stands at a bit: the result, and where the reader stands then. -/
def decodeReader (huffman : Huffman) (data : List UInt8) (bit : Nat) : Result Nat × Nat :=
  if huffman.maxBits = 0 then
    (.error (invalidBit bit "attempted to decode an empty Huffman table"), bit)
  else
    let remaining := data.length * 8 - bit
    match Bits.peek data bit (min huffman.maxBits remaining) with
    | .error error => (.error error, bit)
    | .ok index =>
      let packed := huffman.table.getD index noCode
      if packed = noCode then (.error (invalidBit bit "invalid Huffman code"), bit)
      else
        let length := packed >>> 9
        if length > remaining then (.error (invalidBit bit "truncated Huffman code"), bit)
        else (.ok (packed &&& 0x1ff), bit + length)

/-- The function of the position is what the reader does. -/
theorem decode_eq_decodeReader (huffman : Huffman) (data : List UInt8) (bit : Nat) :
    huffman.decode data bit =
      match huffman.decodeReader data bit with
      | (.ok symbol, next) => .ok (symbol, next)
      | (.error error, _) => .error error := by
  unfold decode decodeReader
  by_cases hempty : huffman.maxBits = 0
  · rw [if_pos hempty, ensure_of_not (not_not.mpr hempty)]
    rfl
  · rw [if_neg hempty, ensure_of hempty, result_bind_ok]
    dsimp only
    cases Bits.peek data bit (min huffman.maxBits (data.length * 8 - bit)) with
    | error error => rfl
    | ok index =>
      rw [result_bind_ok]
      dsimp only
      by_cases hcode : huffman.table.getD index noCode = noCode
      · rw [if_pos hcode, ensure_of_not (not_not.mpr hcode)]
        rfl
      · rw [if_neg hcode, ensure_of hcode, result_bind_ok]
        by_cases hlong : huffman.table.getD index noCode >>> 9 > data.length * 8 - bit
        · rw [if_pos hlong, ensure_of_not (by omega)]
          rfl
        · rw [if_neg hlong, ensure_of (by omega), result_bind_ok]
          rfl

private theorem decodeReader_error {huffman : Huffman} {data : List UInt8} {bit next : Nat}
    {error : Error} (h : huffman.decodeReader data bit = (.error error, next)) : next = bit := by
  unfold decodeReader at h
  split at h
  · exact (Prod.mk.inj h).2.symm
  · dsimp only at h
    split at h
    · exact (Prod.mk.inj h).2.symm
    · split at h
      · exact (Prod.mk.inj h).2.symm
      · split at h
        · exact (Prod.mk.inj h).2.symm
        · cases (Prod.mk.inj h).1

/-- The next bits begin with the code of the symbol, which lies inside the data. -/
def Reads (lengths : List Nat) (data : List UInt8) (bit symbol next : Nat) : Prop :=
  ∃ length, HasLength lengths symbol length ∧ next = bit + length ∧ next ≤ data.length * 8 ∧
    highFirst (streamBit data) bit length = code lengths symbol

theorem IsTable.decodeReader_iff {huffman : Huffman} {lengths : List Nat}
    (h : huffman.IsTable lengths) (few : lengths.length ≤ 320) {data : List UInt8}
    {bit symbol next : Nat} :
    huffman.decodeReader data bit = (.ok symbol, next) ↔ Reads lengths data bit symbol next := by
  obtain ⟨peeked, hpeeked⟩ : ∃ peeked, peeked = min huffman.maxBits (data.length * 8 - bit) :=
    ⟨_, rfl⟩
  have hmax := h.maxBits_le
  have hfifteen : maxCodeBits = 15 := rfl
  unfold decodeReader
  rw [if_neg (Nat.ne_of_gt h.maxBits_pos)]
  dsimp only
  rw [← hpeeked, Bits.peek_eq (by omega)]
  by_cases hinside : bit + peeked ≤ data.length * 8
  · rw [if_pos hinside]
    dsimp only
    have hindex := lowFirst_lt (streamBit data) bit peeked
    have hbound : lowFirst (streamBit data) bit peeked < 2 ^ huffman.maxBits :=
      Nat.lt_of_lt_of_le hindex (Nat.pow_le_pow_right Nat.two_pos (by omega))
    have hmatches : ∀ {other long : Nat}, HasLength lengths other long →
        bit + long ≤ data.length * 8 → (Matches lengths (lowFirst (streamBit data) bit peeked) other ↔
          highFirst (streamBit data) bit long = code lengths other) := by
      intro other long hlong hfits
      have hle := h.bounded long hlong.mem
      rw [← matches_iff hlong h.fits hle (show long ≤ peeked by omega)]
      refine ⟨fun ⟨length, hlength, heq⟩ => ?_, fun heq => ⟨long, hlong, heq⟩⟩
      obtain rfl := Option.some.inj (hlength.get.symm.trans hlong.get)
      exact heq
    rcases h.getD hbound with ⟨found, hfound, hentry⟩ | ⟨hnone, hentry⟩
    · obtain ⟨length, hlength, -⟩ := id hfound
      obtain ⟨hlt, -⟩ := List.getElem?_eq_some_iff.mp hlength.get
      obtain ⟨hcode, hshift, hand⟩ := packedOf_eq hlength
        (Nat.le_trans (h.bounded length hlength.mem) hmax) (by omega)
      rw [hentry, if_neg hcode, hshift, hand]
      by_cases hlong : length > data.length * 8 - bit
      · rw [if_pos hlong]
        refine iff_of_false (by simp) fun ⟨long, hother, hnext, hfits, heq⟩ => ?_
        subst hnext
        have := hfound.unique h ((hmatches hother hfits).mpr heq)
        subst this
        obtain rfl := Option.some.inj (hlength.get.symm.trans hother.get)
        omega
      · rw [if_neg hlong]
        have hpos := hlength.pos
        constructor
        · intro heq
          obtain ⟨hsymbol, rfl⟩ := Prod.mk.inj heq
          obtain rfl := Except.ok.inj hsymbol
          exact ⟨length, hlength, rfl, by omega, (hmatches hlength (by omega)).mp hfound⟩
        · rintro ⟨long, hother, rfl, hfits, heq⟩
          have := hfound.unique h ((hmatches hother hfits).mpr heq)
          subst this
          obtain rfl := Option.some.inj (hlength.get.symm.trans hother.get)
          rfl
    · rw [hentry, if_pos rfl]
      refine iff_of_false (by simp) fun ⟨long, hother, hnext, hfits, heq⟩ => ?_
      subst hnext
      exact hnone symbol ((hmatches hother hfits).mpr heq)
  · rw [if_neg hinside]
    refine iff_of_false (by simp) fun ⟨long, hother, hnext, hfits, heq⟩ => ?_
    have := hother.pos
    omega

/-- Which lengths are accepted; and what a table of accepted lengths decodes: a symbol exactly when
its canonical code comes next, and otherwise nothing, without moving. -/
theorem decodeReader_canonical (lengths : List Nat) (few : lengths.length ≤ 320) :
    ((∃ huffman, new lengths = .ok huffman) ↔
        (∀ length ∈ lengths, length ≤ maxCodeBits) ∧ kraftSum lengths ≤ 1) ∧
      ∀ huffman, new lengths = .ok huffman → (∃ length ∈ lengths, length ≠ 0) →
        ∀ data bit,
          (∀ symbol next, huffman.decodeReader data bit = (.ok symbol, next) ↔
            Reads lengths data bit symbol next) ∧
          ((∀ symbol next, ¬ Reads lengths data bit symbol next) →
            ∃ error, huffman.decodeReader data bit = (.error error, bit)) := by
  refine ⟨new_accepts_iff lengths, fun huffman h used data bit => ?_⟩
  have hreads := fun symbol next =>
    @IsTable.decodeReader_iff _ _ (isTable_new h used) few data bit symbol next
  refine ⟨hreads, fun hnone => ?_⟩
  rcases hresult : huffman.decodeReader data bit with ⟨error | symbol, next⟩
  · obtain rfl := decodeReader_error hresult
    exact ⟨error, rfl⟩
  · exact absurd ((hreads symbol next).mp hresult) (hnone symbol next)

theorem decodeReader_canonical_two : ((∃ huffman, new [1, 1] = .ok huffman) ↔
    (∀ length ∈ [1, 1], length ≤ maxCodeBits) ∧ kraftSum [1, 1] ≤ 1) :=
  (decodeReader_canonical [1, 1] (by decide)).1

end Huffman

end Fbz.Deflate
