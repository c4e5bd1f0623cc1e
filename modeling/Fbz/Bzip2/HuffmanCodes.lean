import Fbz.Bzip2.Coding
import Fbz.Bzip2.Huffman
import Fbz.Bzip2.StreamBits
import Fbz.Lib.CanonicalCode

/-!
# What the bzip2 tables decode

The table for short codes and the search by lengths decode the same canonical code, which is the one
the encoder writes.
-/

namespace Fbz.Bzip2

open BitOrder CanonicalCode

namespace Huffman

/-- Every length is one of those the tables are for, so no symbol is without a code. -/
def Coded (lengths : List Nat) : Prop := ∀ length ∈ lengths, 1 ≤ length ∧ length ≤ maxCodeLen

variable {lengths : List Nat}

private theorem Coded.codeCount (coded : Coded lengths) (length : Nat) :
    codeCount lengths length = CanonicalCode.count lengths length := by
  rw [Huffman.codeCount, CanonicalCode.count]
  split
  · next hzero =>
    rw [hzero, List.count_eq_zero]
    intro hmem
    have := coded 0 hmem
    omega
  · rfl

private theorem Coded.firstCode (coded : Coded lengths) (length : Nat) :
    firstCode lengths length = first lengths length := by
  induction length with
  | zero => rfl
  | succ length ih =>
    rw [Huffman.firstCode, first, ih, coded.codeCount, Nat.shiftLeft_eq, Nat.pow_one]

theorem Coded.hasLength (coded : Coded lengths) {symbol length : Nat}
    (get : lengths[symbol]? = some length) : HasLength lengths symbol length :=
  ⟨get, (coded length (List.mem_of_getElem? get)).1⟩

theorem Coded.oversubscribed (coded : Coded lengths) :
    oversubscribed lengths = false ↔ filled lengths maxCodeLen ≤ 2 ^ maxCodeLen := by
  rw [Huffman.oversubscribed, List.any_eq_false]
  simp only [coded.firstCode, coded.codeCount, decide_eq_true_eq, not_lt]
  exact ⟨fun hall => hall maxCodeLen (by decide), fun hfits length hmem =>
    filled_le_of_le (by have := List.mem_range'_1.mp hmem; omega) hfits⟩

/-- The tables of a list of lengths. -/
structure IsBuilt (huffman : Huffman) (lengths : List Nat) : Prop where
  coded : Coded lengths
  minLen : lengths.min? = some huffman.minLen
  maxLen : lengths.max? = some huffman.maxLen
  fits : filled lengths maxCodeLen ≤ 2 ^ maxCodeLen
  limit : huffman.limit = codeLimit lengths huffman.minLen huffman.maxLen
  base : huffman.base = codeBase lengths huffman.minLen huffman.maxLen
  symbols : huffman.symbols = codeOrder lengths huffman.minLen huffman.maxLen
  lut : huffman.lut =
    fillLut lengths.zipIdx (Huffman.firstCode lengths) (List.replicate lutSize (0, 0))

theorem min?_pos_iff {minLen : Nat} (h : lengths.min? = some minLen) :
    0 < minLen ↔ ∀ length ∈ lengths, 1 ≤ length := by
  obtain ⟨hmem, hle⟩ := List.min?_eq_some_iff.mp h
  exact ⟨fun hpos length hlength => Nat.le_trans hpos (hle length hlength), fun hall => hall _ hmem⟩

theorem max?_le_iff {maxLen bound : Nat} (h : lengths.max? = some maxLen) :
    maxLen ≤ bound ↔ ∀ length ∈ lengths, length ≤ bound := by
  obtain ⟨hmem, hle⟩ := List.max?_eq_some_iff.mp h
  exact ⟨fun hmax length hlength => Nat.le_trans (hle length hlength) hmax, fun hall => hall _ hmem⟩

theorem build_eq_ok {huffman : Huffman} {bitOffset : Nat}
    (h : build lengths bitOffset = .ok huffman) : huffman.IsBuilt lengths := by
  unfold build at h
  split at h
  · next minLen maxLen hmin hmax =>
    split at h
    · cases h
    · next hrange =>
      have hcoded : Coded lengths := fun length hmem =>
        ⟨(min?_pos_iff hmin).mp (by omega) length hmem,
          (max?_le_iff hmax).mp (by omega) length hmem⟩
      split at h
      · cases h
      · next hover =>
        obtain rfl := Except.ok.inj h
        exact ⟨hcoded, hmin, hmax, hcoded.oversubscribed.mp (by simpa using hover), rfl, rfl, rfl, rfl⟩
  · cases h

/-- Which lengths are accepted. -/
theorem build_accepts_iff (ne : lengths ≠ []) (bitOffset : Nat) :
    (∃ huffman, build lengths bitOffset = .ok huffman) ↔
      (∀ length ∈ lengths, 1 ≤ length ∧ length ≤ maxCodeLen) ∧ kraftSum lengths ≤ 1 := by
  constructor
  · rintro ⟨huffman, h⟩
    have hbuilt := build_eq_ok h
    exact ⟨hbuilt.coded,
      (kraftSum_le_one_iff fun length hmem => (hbuilt.coded length hmem).2).mpr hbuilt.fits⟩
  · rintro ⟨hcoded, hkraft⟩
    have hcoded : Coded lengths := hcoded
    have hfits := (kraftSum_le_one_iff fun length hmem => (hcoded length hmem).2).mp hkraft
    obtain ⟨minLen, hmin⟩ := Option.isSome_iff_exists.mp (List.isSome_min?_of_ne_nil ne)
    obtain ⟨maxLen, hmax⟩ := Option.isSome_iff_exists.mp (List.isSome_max?_of_ne_nil ne)
    have hpos := (min?_pos_iff hmin).mpr fun length hmem => (hcoded length hmem).1
    have hle := (max?_le_iff hmax).mpr fun length hmem => (hcoded length hmem).2
    unfold build
    split
    · next minLen' maxLen' hmin' hmax' =>
      obtain rfl := Option.some.inj (hmin.symm.trans hmin')
      obtain rfl := Option.some.inj (hmax.symm.trans hmax')
      rw [dif_neg (by omega), if_neg (by simp [hcoded.oversubscribed.mpr hfits])]
      exact ⟨_, rfl⟩
    · next hnone => exact absurd hmax (hnone minLen maxLen hmin)

section Search

variable {huffman : Huffman}

namespace IsBuilt

variable (h : huffman.IsBuilt lengths)

include h

private theorem codeCount_below {length : Nat} (lt : length < huffman.minLen) :
    codeCount lengths length = 0 := by
  rw [Huffman.codeCount, List.count_eq_zero]
  intro hmem
  have := (List.min?_eq_some_iff.mp h.minLen).2 length hmem
  omega

private theorem first_minLen : first lengths huffman.minLen = 0 :=
  first_eq_zero (List.min?_eq_some_iff.mp h.minLen).2

theorem value_eq (more : Nat) : codeLimit.value lengths huffman.minLen more =
    filled lengths (huffman.minLen + more) := by
  induction more with
  | zero =>
    rw [codeLimit.value, Nat.add_zero, filled, h.first_minLen, h.coded.codeCount, Nat.zero_add]
  | succ more ih =>
    rw [codeLimit.value, ih, ← Nat.add_assoc, filled_succ, h.coded.codeCount]
    push_cast
    ring

theorem limit_eq {length : Nat} (lo : huffman.minLen ≤ length) (hi : length ≤ huffman.maxLen) :
    huffman.limit length = (filled lengths length : Int) - 1 := by
  rw [h.limit, codeLimit, if_pos ⟨lo, hi⟩, h.value_eq, Nat.add_sub_of_le lo]

private theorem shorterCodes_minLen : shorterCodes lengths huffman.minLen = 0 := by
  have hbelow : ∀ length ≤ huffman.minLen, shorterCodes lengths length = 0 := by
    intro length
    induction length with
    | zero => exact fun _ => rfl
    | succ length ih =>
      intro hlt
      rw [shorterCodes, ih (by omega), h.codeCount_below (by omega)]
  exact hbelow _ (Nat.le_refl _)

theorem base_eq {length : Nat} (lo : huffman.minLen ≤ length) (hi : length ≤ huffman.maxLen) :
    huffman.base length = (first lengths length : Int) - shorterCodes lengths length := by
  rw [h.base, codeBase]
  split
  · next hmiddle =>
    obtain ⟨before, rfl⟩ : ∃ before, length = before + 1 := ⟨length - 1, by omega⟩
    rw [Nat.add_sub_cancel, codeLimit, if_pos (by omega), h.value_eq,
      Nat.add_sub_of_le (by omega), first, filled]
    push_cast
    ring
  · next hfirst =>
    obtain rfl : length = huffman.minLen := by omega
    rw [h.first_minLen, h.shorterCodes_minLen]
    rfl

end IsBuilt

/-- The symbols of one length, counted from `start`. -/
def symbolsFrom (start : Nat) (lengths : List Nat) (length : Nat) : List Nat :=
  (lengths.zipIdx start).filterMap fun (value, symbol) =>
    if value = length then some symbol else none

private theorem codeOrder_eq (lengths : List Nat) (minLen maxLen : Nat) :
    codeOrder lengths minLen maxLen =
      (List.range' minLen (maxLen + 1 - minLen)).flatMap (symbolsFrom 0 lengths) := rfl

private theorem symbolsFrom_cons (start head : Nat) (lengths : List Nat) (length : Nat) :
    symbolsFrom start (head :: lengths) length =
      if head = length then start :: symbolsFrom (start + 1) lengths length
      else symbolsFrom (start + 1) lengths length := by
  rw [symbolsFrom, List.zipIdx_cons, List.filterMap_cons]
  by_cases hhead : head = length
  · simp only [hhead, if_true]
    rfl
  · simp only [hhead, if_false]
    rfl

private theorem symbolsFrom_length (start : Nat) (lengths : List Nat) (length : Nat) :
    (symbolsFrom start lengths length).length = lengths.count length := by
  induction lengths generalizing start with
  | nil => rfl
  | cons head lengths ih =>
    rw [symbolsFrom_cons, List.count_cons]
    by_cases hhead : head = length
    · rw [if_pos hhead, if_pos (by simpa using hhead), List.length_cons, ih]
    · rw [if_neg hhead, if_neg (by simpa using hhead), ih, Nat.add_zero]

private theorem symbolsFrom_getElem? (start : Nat) {lengths : List Nat} {length symbol : Nat}
    (get : lengths[symbol]? = some length) :
    (symbolsFrom start lengths length)[(lengths.take symbol).count length]? =
      some (start + symbol) := by
  induction lengths generalizing start symbol with
  | nil => cases get
  | cons head lengths ih =>
    rw [symbolsFrom_cons]
    cases symbol with
    | zero =>
      obtain rfl := Option.some.inj get
      rw [if_pos rfl]
      rfl
    | succ symbol =>
      have htail := @ih (start + 1) symbol get
      rw [Nat.add_right_comm start 1 symbol] at htail
      rw [List.take_succ_cons, List.count_cons]
      by_cases hhead : head = length
      · rw [if_pos hhead, if_pos (by simpa using hhead), List.getElem?_cons_succ]
        exact htail
      · rw [if_neg hhead, if_neg (by simpa using hhead), Nat.add_zero]
        exact htail

private theorem codeOrder_getElem? {minLen maxLen length symbol : Nat} (lo : minLen ≤ length)
    (hi : length ≤ maxLen) (none_below : shorterCodes lengths minLen = 0)
    (get : lengths[symbol]? = some length) :
    (codeOrder lengths minLen maxLen)[shorterCodes lengths length +
      (lengths.take symbol).count length]? = some symbol := by
  have hfront : ∀ count, ((List.range' minLen count).flatMap (symbolsFrom 0 lengths)).length =
      shorterCodes lengths (minLen + count) := by
    intro count
    induction count with
    | zero => rw [List.range'_zero, List.flatMap_nil, List.length_nil, Nat.add_zero, none_below]
    | succ count ih =>
      rw [List.range'_1_concat, List.flatMap_append, List.length_append, ih, List.flatMap_singleton,
        symbolsFrom_length, ← Nat.add_assoc, shorterCodes]
      rfl
  have hsplit : List.range' minLen (maxLen + 1 - minLen) = List.range' minLen (length - minLen) ++
      (length :: List.range' (length + 1) (maxLen - length)) := by
    rw [← List.range'_succ, show List.range' length (maxLen - length + 1) =
      List.range' (minLen + 1 * (length - minLen)) (maxLen - length + 1) by
        rw [Nat.one_mul, Nat.add_sub_of_le lo], List.range'_append,
      show length - minLen + (maxLen - length + 1) = maxLen + 1 - minLen by omega]
  have hfound := symbolsFrom_getElem? 0 get
  obtain ⟨hrank, -⟩ := List.getElem?_eq_some_iff.mp hfound
  have hlength := hfront (length - minLen)
  rw [Nat.add_sub_of_le lo] at hlength
  rw [codeOrder_eq, hsplit, List.flatMap_append, List.getElem?_append_right (by omega), hlength,
    Nat.add_sub_cancel_left, List.flatMap_cons, List.getElem?_append_left hrank, hfound,
    Nat.zero_add]

/-- The next bits begin with the code of the symbol, which lies inside the data. -/
def Reads (lengths : List Nat) (data : List UInt8) (bit symbol next : Nat) : Prop :=
  ∃ length, HasLength lengths symbol length ∧ next = bit + length ∧ next ≤ data.length * 8 ∧
    highFirst (streamBit data) bit length = code lengths symbol

private theorem Reads.unique (coded : Coded lengths)
    {data : List UInt8} {bit symbol next other next' : Nat}
    (h : Reads lengths data bit symbol next) (h' : Reads lengths data bit other next') :
    symbol = other ∧ next = next' := by
  obtain ⟨length, hlength, rfl, -, hcode⟩ := h
  obtain ⟨long, hlong, rfl, -, hcode'⟩ := h'
  have hle := (coded length hlength.mem).2
  have hle' := (coded long hlong.mem).2
  have hcut : ∀ {count : Nat}, count ≤ maxCodeLen →
      highFirst (streamBit data) bit maxCodeLen / 2 ^ (maxCodeLen - count) =
        highFirst (streamBit data) bit count := by
    intro count hcount
    obtain ⟨more, hmore⟩ := Nat.exists_eq_add_of_le hcount
    rw [hmore, Nat.add_sub_cancel_left, highFirst_div]
  obtain rfl := hlength.unique hlong hle hle' ((hcut hle).trans hcode) ((hcut hle').trans hcode')
  obtain rfl := Option.some.inj (hlength.get.symm.trans hlong.get)
  exact ⟨rfl, rfl⟩

private theorem IsBuilt.symbolAt_eq (h : huffman.IsBuilt lengths) {length value : Nat}
    (lo : huffman.minLen ≤ length) (hi : length ≤ huffman.maxLen)
    (first_le : first lengths length ≤ value) (lt : value < filled lengths length) :
    ∃ symbol, HasLength lengths symbol length ∧ code lengths symbol = value ∧
      huffman.symbolAt (value - huffman.base length) = some symbol := by
  obtain ⟨symbol, hsymbol, hcode⟩ :=
    exists_code (Nat.lt_of_lt_of_le huffman.minLen_pos lo) first_le lt
  refine ⟨symbol, hsymbol, hcode, ?_⟩
  have hindex : (value : Int) - huffman.base length =
      (shorterCodes lengths length + (lengths.take symbol).count length : Nat) := by
    rw [h.base_eq lo hi, ← hcode, hsymbol.code_eq]
    push_cast
    ring
  rw [symbolAt, hindex, if_pos (Int.natCast_nonneg _), Int.toNat_natCast, h.symbols]
  exact codeOrder_getElem? lo hi h.shorterCodes_minLen hsymbol.get

private theorem IsBuilt.not_reads_short (h : huffman.IsBuilt lengths) {data : List UInt8}
    {bit length long symbol : Nat} (hlong : HasLength lengths symbol long) (le : long ≤ length)
    (none : ∀ short, huffman.minLen ≤ short → short ≤ length →
      filled lengths short ≤ highFirst (streamBit data) bit short) :
    highFirst (streamBit data) bit long ≠ code lengths symbol := by
  intro heq
  have hmin := (List.min?_eq_some_iff.mp h.minLen).2 long hlong.mem
  have := none long hmin le
  have := hlong.code_lt_filled
  omega

private theorem IsBuilt.first_le (h : huffman.IsBuilt lengths) {data : List UInt8}
    {bit length : Nat}
    (lo : huffman.minLen ≤ length) (none_shorter : ∀ short, huffman.minLen ≤ short →
      short < length → filled lengths short ≤ highFirst (streamBit data) bit short) :
    first lengths length ≤ highFirst (streamBit data) bit length := by
  rcases Nat.eq_or_lt_of_le lo with heq | hlt
  · rw [← heq, h.first_minLen]
    exact Nat.zero_le _
  · obtain ⟨before, rfl⟩ : ∃ before, length = before + 1 := ⟨length - 1, by omega⟩
    have := none_shorter before (by omega) (by omega)
    rw [first, highFirst, ← filled]
    omega

private theorem IsBuilt.search_found (h : huffman.IsBuilt lengths) {data : List UInt8}
    {bit more length symbol next : Nat} (lo : huffman.minLen ≤ length)
    (hi : length ≤ huffman.maxLen) (inside : bit + length ≤ data.length * 8)
    (first_le : first lengths length ≤ highFirst (streamBit data) bit length)
    (lt : highFirst (streamBit data) bit length < filled lengths length) :
    huffman.search data more length (highFirst (streamBit data) bit length) (bit + length) =
      .ok (symbol, next) ↔ Reads lengths data bit symbol next := by
  obtain ⟨found, hfound, hcode, hat⟩ := h.symbolAt_eq lo hi first_le lt
  have hreads : Reads lengths data bit found (bit + length) :=
    ⟨length, hfound, rfl, inside, hcode.symm⟩
  unfold search
  rw [h.limit_eq lo hi, if_pos (by omega), hat]
  refine ⟨fun heq => ?_, fun hother => ?_⟩
  · obtain ⟨rfl, rfl⟩ := Prod.mk.inj (Except.ok.inj heq)
    exact hreads
  · obtain ⟨rfl, rfl⟩ := hreads.unique h.coded hother
    rfl

/-- The search from a length on, with no code among the shorter ones. -/
theorem IsBuilt.search_iff (h : huffman.IsBuilt lengths) {data : List UInt8} {bit : Nat}
    {more length symbol next : Nat} (lo : huffman.minLen ≤ length)
    (total : length + more = huffman.maxLen) (inside : bit + length ≤ data.length * 8)
    (none_shorter : ∀ short, huffman.minLen ≤ short → short < length →
      filled lengths short ≤ highFirst (streamBit data) bit short) :
    huffman.search data more length (highFirst (streamBit data) bit length) (bit + length) =
      .ok (symbol, next) ↔ Reads lengths data bit symbol next := by
  induction more generalizing length with
  | zero =>
    by_cases hlt : highFirst (streamBit data) bit length < filled lengths length
    · exact h.search_found lo (by omega) inside (h.first_le lo none_shorter) hlt
    · rw [search, h.limit_eq lo (by omega), if_neg (by omega)]
      apply iff_of_false (by simp)
      rintro ⟨long, hlong, -, -, hcode⟩
      have hmax := (List.max?_eq_some_iff.mp h.maxLen).2 long hlong.mem
      refine @IsBuilt.not_reads_short _ _ h _ _ length _ _ hlong (by omega) (fun short hlo hhi => ?_) hcode
      rcases Nat.eq_or_lt_of_le hhi with rfl | hlt
      · omega
      · exact none_shorter short hlo hlt
  | succ more ih =>
    by_cases hlt : highFirst (streamBit data) bit length < filled lengths length
    · exact h.search_found lo (by omega) inside (h.first_le lo none_shorter) hlt
    · have hnone : ∀ short, huffman.minLen ≤ short → short < length + 1 →
          filled lengths short ≤ highFirst (streamBit data) bit short := by
        intro short hlo hhi
        rcases Nat.eq_or_lt_of_le (Nat.le_of_lt_succ hhi) with rfl | hlt
        · omega
        · exact none_shorter short hlo hlt
      rw [search, h.limit_eq lo (by omega), if_neg (by omega),
        Bits.read_eq (by decide) (by decide)]
      by_cases hmore : bit + length + 1 ≤ data.length * 8
      · rw [if_pos hmore, result_bind_ok]
        have hcode : (highFirst (streamBit data) bit length : Int) * 2 +
            (highFirst (streamBit data) (bit + length) 1 : Nat) =
              (highFirst (streamBit data) bit (length + 1) : Nat) := by
          rw [highFirst_add]
          push_cast
          ring
        dsimp only
        rw [hcode]
        exact ih (by omega) (by omega) hmore hnone
      · rw [if_neg hmore]
        apply iff_of_false (by simp)
        rintro ⟨long, hlong, hnext, hfits, hcode⟩
        exact @IsBuilt.not_reads_short _ _ h _ _ length _ _ hlong (by omega)
          (fun short hlo hhi => hnone short hlo (by omega)) hcode

/-- `decode` without the table for short codes. -/
def searchFrom (huffman : Huffman) (data : List UInt8) (bit : Nat) : Result (Nat × Nat) := do
  let (code, bit) ← Bits.read data bit huffman.minLen
  search huffman data (huffman.maxLen - huffman.minLen) huffman.minLen code bit

theorem IsBuilt.minLen_le (h : huffman.IsBuilt lengths) :
    huffman.minLen ≤ huffman.maxLen ∧ huffman.maxLen ≤ maxCodeLen := by
  obtain ⟨hmem, -⟩ := List.min?_eq_some_iff.mp h.minLen
  exact ⟨(List.max?_eq_some_iff.mp h.maxLen).2 _ hmem,
    (max?_le_iff h.maxLen).mpr fun length hlength => (h.coded length hlength).2⟩

theorem IsBuilt.searchFrom_iff (h : huffman.IsBuilt lengths) {data : List UInt8}
    {bit symbol next : Nat} :
    huffman.searchFrom data bit = .ok (symbol, next) ↔ Reads lengths data bit symbol next := by
  obtain ⟨hle, hmax⟩ := h.minLen_le
  have htwenty : maxCodeLen = 20 := rfl
  rw [searchFrom, Bits.read_eq huffman.minLen_pos (by omega)]
  by_cases hfits : bit + huffman.minLen ≤ data.length * 8
  · rw [if_pos hfits, result_bind_ok]
    exact h.search_iff (Nat.le_refl _) (by omega) hfits fun short hlo hlt => by omega
  · rw [if_neg hfits]
    refine iff_of_false (by simp) fun ⟨long, hlong, hnext, hdata, _⟩ => ?_
    have := (List.min?_eq_some_iff.mp h.minLen).2 long hlong.mem
    omega

end Search

private theorem fillRange_getD {lut : List (Nat × Nat)} {start fill index : Nat} {entry : Nat × Nat}
    (fits : start + fill ≤ lut.length) :
    (fillRange lut start fill entry).getD index (0, 0) =
      if start ≤ index ∧ index < start + fill then entry else lut.getD index (0, 0) := by
  have htake : (lut.take start).length = start := List.length_take_of_le (by omega)
  rw [fillRange, List.getD_eq_getElem?_getD, List.append_assoc, List.getElem?_append, htake,
    List.getElem?_append, List.length_replicate, List.getElem?_take, List.getElem?_replicate,
    List.getElem?_drop, List.getD_eq_getElem?_getD]
  by_cases hbefore : index < start
  · rw [if_pos hbefore, if_pos hbefore, if_neg (by omega)]
  · rw [if_neg hbefore]
    by_cases hinside : index < start + fill
    · rw [if_pos (by omega), if_pos (by omega), if_pos (by omega), Option.getD_some]
    · rw [if_neg (by omega), if_neg (by omega), show start + fill + (index - start - fill) = index by
        omega]

theorem fillRange_length {lut : List (Nat × Nat)} {start fill : Nat} {entry : Nat × Nat}
    (fits : start + fill ≤ lut.length) :
    (fillRange lut start fill entry).length = lut.length := by
  simp only [fillRange, List.length_append, List.length_take, List.length_replicate,
    List.length_drop]
  omega

/-- The twelve bits begin with the short code of the symbol. -/
def Matches (lengths : List Nat) (index symbol : Nat) : Prop :=
  ∃ length, HasLength lengths symbol length ∧ length ≤ lutBits ∧
    index / 2 ^ (lutBits - length) = code lengths symbol

/-- The loop over the symbols from `start` on: an entry is that of a symbol it matches, or as it was
when it matches none. -/
theorem fillLut_getD {start index : Nat} {back : List Nat} {nextCode : Nat → Nat}
    {lut : List (Nat × Nat)} (coded : Coded lengths)
    (fits : filled lengths maxCodeLen ≤ 2 ^ maxCodeLen) (rest : lengths.drop start = back)
    (next : ∀ length, nextCode length = first lengths length + (lengths.take start).count length)
    (size : lut.length = lutSize) :
    (∃ symbol, Matches lengths index symbol ∧
        (fillLut (back.zipIdx start) nextCode lut).getD index (0, 0) =
          (lengths.getD symbol 0, symbol)) ∨
      (∀ symbol ≥ start, ¬ Matches lengths index symbol) ∧
        (fillLut (back.zipIdx start) nextCode lut).getD index (0, 0) = lut.getD index (0, 0) := by
  induction back generalizing start nextCode lut with
  | nil =>
    refine .inr ⟨fun symbol hge hmatch => ?_, rfl⟩
    obtain ⟨length, hlength, -⟩ := hmatch
    obtain ⟨hlt, -⟩ := List.getElem?_eq_some_iff.mp hlength.get
    have := List.drop_eq_nil_iff.mp rest
    omega
  | cons length back ih =>
    have hget : lengths[start]? = some length := by
      rw [← List.head?_drop, rest, List.head?_cons]
    have hrest : lengths.drop (start + 1) = back := by
      rw [← List.drop_drop, rest, List.drop_one, List.tail_cons]
    have htake : lengths.take (start + 1) = lengths.take start ++ [length] := by
      rw [List.take_add_one, hget]
      rfl
    have hlength := coded.hasLength hget
    have hcode : nextCode length = code lengths start := by rw [next length, hlength.code_eq]
    have hnext : ∀ other, (if other = length then code lengths start + 1 else nextCode other) =
        first lengths other + (lengths.take (start + 1)).count other := by
      intro other
      rw [htake, List.count_append, List.count_singleton]
      split
      · next heq =>
        rw [heq, hlength.code_eq, if_pos (by simp)]
        rfl
      · next hne =>
        rw [next other, if_neg (by simpa using Ne.symm hne)]
        rfl
    have hlater : ∀ symbol ≥ start, (symbol = start → ¬ Matches lengths index start) →
        (∀ symbol ≥ start + 1, ¬ Matches lengths index symbol) → ¬ Matches lengths index symbol := by
      intro symbol hge hhead htail
      rcases Nat.eq_or_lt_of_le hge with rfl | hlt
      · exact hhead rfl
      · exact htail symbol hlt
    rw [List.zipIdx_cons, fillLut]
    dsimp only
    rw [hcode]
    split
    · next hshort =>
      have hpow : 2 ^ lutBits = 2 ^ length * 2 ^ (lutBits - length) := by
        rw [← Nat.pow_add, Nat.add_sub_of_le hshort]
      have hlt := hlength.code_lt fits (coded length hlength.mem).2
      have hfill : code lengths start * 2 ^ (lutBits - length) + 2 ^ (lutBits - length) ≤
          lut.length := by
        rw [size, lutSize, hpow, ← Nat.succ_mul]
        exact Nat.mul_le_mul_right _ hlt
      have hset := @fillRange_getD _ _ _ index (length, start) hfill
      have hinside : (code lengths start * 2 ^ (lutBits - length) ≤ index ∧
          index < code lengths start * 2 ^ (lutBits - length) + 2 ^ (lutBits - length)) ↔
            index / 2 ^ (lutBits - length) = code lengths start := by
        rw [← Nat.succ_mul, Nat.div_eq_iff (Nat.two_pow_pos _)]
        have hpos := Nat.two_pow_pos (lutBits - length)
        rw [Nat.succ_mul]
        omega
      rcases ih hrest hnext ((fillRange_length hfill).trans size) with hfound | ⟨hnone, hsame⟩
      · exact .inl hfound
      · by_cases hmatch : index / 2 ^ (lutBits - length) = code lengths start
        · rw [if_pos (hinside.mpr hmatch)] at hset
          refine .inl ⟨start, ⟨length, hlength, hshort, hmatch⟩, ?_⟩
          rw [hlength.getD]
          exact hsame.trans hset
        · rw [if_neg fun h => hmatch (hinside.mp h)] at hset
          refine .inr ⟨fun symbol hge => hlater symbol hge (fun _ => ?_) hnone, hsame.trans hset⟩
          rintro ⟨other, hother, -, heq⟩
          obtain rfl := Option.some.inj (hget.symm.trans hother.get)
          exact hmatch heq
    · next hlong =>
      rcases ih hrest hnext size with hfound | ⟨hnone, hsame⟩
      · exact .inl hfound
      · refine .inr ⟨fun symbol hge => hlater symbol hge (fun _ => ?_) hnone, hsame⟩
        rintro ⟨other, hother, hshort, -⟩
        obtain rfl := Option.some.inj (hget.symm.trans hother.get)
        exact hlong hshort

private theorem IsBuilt.lut_getD {huffman : Huffman} (h : huffman.IsBuilt lengths) (index : Nat) :
    (∃ symbol, Matches lengths index symbol ∧
        huffman.lut.getD index (0, 0) = (lengths.getD symbol 0, symbol)) ∨
      huffman.lut.getD index (0, 0) = (0, 0) := by
  have hnext : ∀ length,
      Huffman.firstCode lengths length = first lengths length + (lengths.take 0).count length := by
    intro length
    rw [h.coded.firstCode, List.take_zero, List.count_nil, Nat.add_zero]
  rw [h.lut]
  rcases @fillLut_getD _ _ index _ _ _ h.coded h.fits (show lengths.drop 0 = lengths from rfl)
    hnext List.length_replicate with hfound | ⟨-, hsame⟩
  · exact .inl hfound
  · refine .inr (hsame.trans ?_)
    rw [List.getD_eq_getElem?_getD, List.getElem?_replicate]
    split <;> rfl

/-- The table and the search find the same symbol, so the table makes no difference. -/
theorem IsBuilt.decode_eq_searchFrom {huffman : Huffman} (h : huffman.IsBuilt lengths)
    (data : List UInt8) (bit : Nat) : huffman.decode data bit = huffman.searchFrom data bit := by
  have hmiss : huffman.lookup data bit = .ok (0, 0) →
      huffman.decode data bit = huffman.searchFrom data bit := by
    intro hlookup
    rw [decode, hlookup]
    rfl
  by_cases hremaining : lutBits ≤ Bits.remaining data bit
  · have hpeek := @Bits.peek_eq data bit _ (show 0 < lutBits by decide) (by decide)
    rw [if_pos hremaining] at hpeek
    have hlookup : huffman.lookup data bit =
        .ok (huffman.lut.getD (highFirst (streamBit data) bit lutBits) (0, 0)) := by
      rw [lookup, if_pos hremaining, hpeek]
      rfl
    rcases h.lut_getD (highFirst (streamBit data) bit lutBits) with
      ⟨symbol, ⟨length, hlength, hshort, hcode⟩, hentry⟩ | hentry
    · have hinside : bit + length ≤ data.length * 8 := by
        unfold Bits.remaining at hremaining
        have : lutBits = 12 := rfl
        omega
      have hreads : Reads lengths data bit symbol (bit + length) := by
        obtain ⟨more, hmore⟩ := Nat.exists_eq_add_of_le hshort
        rw [hmore, Nat.add_sub_cancel_left, highFirst_div] at hcode
        exact ⟨length, hlength, rfl, hinside, hcode⟩
      rw [h.searchFrom_iff.mpr hreads, decode, hlookup, hentry, hlength.getD, result_bind_ok]
      dsimp only
      rw [if_pos (Nat.ne_of_gt hlength.pos)]
      rfl
    · exact hmiss (hlookup.trans (congrArg Except.ok hentry))
  · exact hmiss (by rw [lookup, if_neg hremaining])

/-- Codes where they are given out already, and zero elsewhere. -/
def codesWhere (lengths : List Nat) (given : Nat → Bool) : List Nat :=
  (List.range lengths.length).map fun symbol => if given symbol then code lengths symbol else 0

private theorem codesWhere_congr {given given' : Nat → Bool}
    (h : ∀ symbol < lengths.length, given symbol = given' symbol) :
    codesWhere lengths given = codesWhere lengths given' :=
  List.map_congr_left fun symbol hmem => by rw [h symbol (List.mem_range.mp hmem)]

private theorem codesWhere_set {given given' : Nat → Bool} {start : Nat}
    (self : given' start = true) (others : ∀ symbol ≠ start, given' symbol = given symbol) :
    (codesWhere lengths given).set start (code lengths start) = codesWhere lengths given' := by
  refine List.ext_getElem (by simp [codesWhere]) fun symbol _ _ => ?_
  rw [List.getElem_set]
  simp only [codesWhere, List.getElem_map, List.getElem_range]
  split
  · next heq => rw [← heq, self, if_pos rfl]
  · next hne => rw [others symbol (Ne.symm hne)]

/-- The codes of one length, from the symbol `start` on. -/
theorem assignCode_foldl {start length : Nat} {back : List Nat} (pos : 0 < length)
    (rest : lengths.drop start = back) :
    (back.zipIdx start).foldl (Coding.assignCode length)
        (codesWhere lengths fun symbol => decide (lengths.getD symbol 0 < length ∨
            lengths.getD symbol 0 = length ∧ symbol < start),
          first lengths length + (lengths.take start).count length) =
      (codesWhere lengths fun symbol => decide (lengths.getD symbol 0 < length + 1),
        filled lengths length) := by
  induction back generalizing start with
  | nil =>
    have hlength := List.drop_eq_nil_iff.mp rest
    rw [List.zipIdx_nil, List.foldl_nil, List.take_of_length_le hlength, filled, count,
      if_neg (Nat.ne_of_gt pos)]
    congr 1
    refine codesWhere_congr fun symbol hlt => decide_eq_decide.mpr ?_
    omega
  | cons head back ih =>
    have hget : lengths[start]? = some head := by
      rw [← List.head?_drop, rest, List.head?_cons]
    have hrest : lengths.drop (start + 1) = back := by
      rw [← List.drop_drop, rest, List.drop_one, List.tail_cons]
    have hgetD : lengths.getD start 0 = head := by
      rw [List.getD_eq_getElem?_getD, hget, Option.getD_some]
    rw [List.zipIdx_cons, List.foldl_cons, ← ih hrest, Coding.assignCode, List.take_add_one, hget,
      Option.toList_some, List.count_append, List.count_singleton]
    by_cases hhead : head = length
    · subst hhead
      have hlength : HasLength lengths start head := ⟨hget, pos⟩
      dsimp only
      rw [if_pos rfl, if_pos (by simp), ← hlength.code_eq, @codesWhere_set _ _ (fun symbol =>
        decide (lengths.getD symbol 0 < head ∨ lengths.getD symbol 0 = head ∧ symbol < start + 1)) _
        (decide_eq_true (.inr ⟨hgetD, Nat.lt_succ_self _⟩)) fun symbol hne =>
          decide_eq_decide.mpr (by omega), hlength.code_eq]
      rfl
    · dsimp only
      rw [if_neg hhead, if_neg (by simpa using hhead)]
      congr 2
      refine codesWhere_congr fun symbol hlt => decide_eq_decide.mpr ?_
      rcases Nat.lt_trichotomy symbol start with hlt | rfl | hgt
      · omega
      · omega
      · omega

private theorem assignCodes_foldl {least count : Nat} (pos : 0 < least)
    (first_least : first lengths least = 0) (none_below : ∀ length ∈ lengths, least ≤ length) :
    (List.range' least count).foldl
        (fun codes length =>
          let codes := lengths.zipIdx.foldl (Coding.assignCode length) codes
          (codes.1, codes.2 <<< 1))
        (List.replicate lengths.length 0, 0) =
      (codesWhere lengths fun symbol => decide (lengths.getD symbol 0 < least + count),
        first lengths (least + count)) := by
  induction count with
  | zero =>
    rw [List.range'_zero, List.foldl_nil, Nat.add_zero, first_least]
    congr 1
    refine List.ext_getElem (by simp [codesWhere]) fun symbol hlt _ => ?_
    rw [List.length_replicate] at hlt
    have hmem := none_below _ (List.getElem_mem hlt)
    simp only [codesWhere, List.getElem_map, List.getElem_range, List.getElem_replicate]
    rw [if_neg]
    rw [List.getD_eq_getElem?_getD, List.getElem?_eq_getElem hlt, Option.getD_some]
    simpa using hmem
  | succ count ih =>
    have hone := @assignCode_foldl lengths 0 (least + count) lengths (by omega) rfl
    rw [List.take_zero, List.count_nil, Nat.add_zero,
      @codesWhere_congr lengths _ (fun symbol => decide (lengths.getD symbol 0 < least + count))
        fun symbol _ => decide_eq_decide.mpr (by omega)] at hone
    rw [List.range'_1_concat, List.foldl_append, ih, List.foldl_cons, List.foldl_nil]
    dsimp only
    rw [hone, Nat.shiftLeft_eq, Nat.pow_one]
    rfl

/-- The encoder assigns the canonical codes. -/
theorem canonicalCodes_eq (coded : Coded lengths) :
    Coding.canonicalCodes lengths = (List.range lengths.length).map (code lengths) := by
  by_cases hne : lengths = []
  · subst hne
    rfl
  · obtain ⟨least, hleast⟩ := Option.isSome_iff_exists.mp (List.isSome_min?_of_ne_nil hne)
    obtain ⟨most, hmost⟩ := Option.isSome_iff_exists.mp (List.isSome_max?_of_ne_nil hne)
    obtain ⟨hmem, hle⟩ := List.min?_eq_some_iff.mp hleast
    obtain ⟨-, hge⟩ := List.max?_eq_some_iff.mp hmost
    have hmiddle := hge least hmem
    have hfold := @assignCodes_foldl lengths least (most + 1 - least) (coded least hmem).1
      (first_eq_zero hle) hle
    rw [Coding.canonicalCodes, hleast, hmost, Option.getD_some, Option.getD_some, hfold, codesWhere]
    refine List.map_congr_left fun symbol hsymbol => if_pos ?_
    have hlt := List.mem_range.mp hsymbol
    have := hge _ (List.getElem_mem hlt)
    rw [List.getD_eq_getElem?_getD, List.getElem?_eq_getElem hlt, Option.getD_some]
    exact decide_eq_true (by omega)

/-- Which lengths are accepted; and what the tables of accepted lengths decode, with the table for
short codes or without: a symbol exactly when its canonical code comes next, which is the code the
encoder gives it. -/
theorem decode_canonical (lengths : List Nat) (few : 3 ≤ lengths.length ∧ lengths.length ≤ 258)
    (bitOffset : Nat) :
    ((∃ huffman, build lengths bitOffset = .ok huffman) ↔
        (∀ length ∈ lengths, 1 ≤ length ∧ length ≤ maxCodeLen) ∧ kraftSum lengths ≤ 1) ∧
      ∀ huffman, build lengths bitOffset = .ok huffman →
        Coding.canonicalCodes lengths = (List.range lengths.length).map (code lengths) ∧
        ∀ data bit,
          huffman.decode data bit = huffman.searchFrom data bit ∧
          (∀ symbol next, huffman.decode data bit = .ok (symbol, next) ↔
            Reads lengths data bit symbol next) ∧
          ((∀ symbol next, ¬ Reads lengths data bit symbol next) →
            ∃ error, huffman.decode data bit = .error error) := by
  refine ⟨build_accepts_iff (by rintro rfl; simp at few) bitOffset, fun huffman h => ?_⟩
  have hbuilt := build_eq_ok h
  refine ⟨canonicalCodes_eq hbuilt.coded, fun data bit => ?_⟩
  have hsame := hbuilt.decode_eq_searchFrom data bit
  have hreads : ∀ symbol next, huffman.decode data bit = .ok (symbol, next) ↔
      Reads lengths data bit symbol next := by
    intro symbol next
    rw [hsame]
    exact hbuilt.searchFrom_iff
  refine ⟨hsame, hreads, fun hnone => ?_⟩
  cases hresult : huffman.decode data bit with
  | error error => exact ⟨error, rfl⟩
  | ok found => exact absurd ((hreads found.1 found.2).mp hresult) (hnone _ _)

theorem decode_canonical_three : (∃ huffman, build [1, 2, 2] 0 = .ok huffman) ↔
    (∀ length ∈ [1, 2, 2], 1 ≤ length ∧ length ≤ maxCodeLen) ∧ kraftSum [1, 2, 2] ≤ 1 :=
  (decode_canonical [1, 2, 2] (by decide) 0).1

end Huffman

end Fbz.Bzip2
