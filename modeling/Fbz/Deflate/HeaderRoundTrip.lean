import Fbz.Deflate.BlockRoundTrip
import Fbz.Deflate.CompleteCode

/-!
# Written code lengths are read back

The encoder counts every symbol it writes, so each has a code, and it leaves out the lengths behind
the last one in use. What it writes of its three codes is accepted, and the tables that are built
from it decode the same codes.
-/

namespace Fbz.Deflate

open BitOrder CanonicalCode Relation

private theorem huffmanLengths_codes {frequencies lengths : List Nat} {maxBits : Nat}
    (pos : 1 ≤ maxBits)
    (few : frequencies.length ≤ 2 ^ maxBits) (two : 2 ≤ frequencies.countP (· ≠ 0))
    (h : huffmanLengths frequencies maxBits = some lengths) :
    lengths.length = frequencies.length ∧
      (∀ symbol, lengths.getD symbol 0 = 0 ↔ frequencies.getD symbol 0 = 0) ∧
      (∀ length ∈ lengths, length ≤ maxBits) ∧ kraftSum lengths = 1 := by
  have hused : ∃ frequency ∈ frequencies, frequency ≠ 0 := by
    obtain ⟨frequency, hmem, hne⟩ := List.countP_pos_iff.mp (Nat.lt_of_lt_of_le Nat.two_pos two)
    exact ⟨frequency, hmem, of_decide_eq_true hne⟩
  obtain ⟨last, found, hlast, htree, hfound, hle⟩ :=
    @huffmanLengths_round frequencies frequencies maxBits pos hused few .first
  obtain rfl := Option.some.inj (h.symm.trans hfound)
  obtain ⟨hlength, -, hcount, hzero⟩ := hlast.spec
  obtain ⟨hsize, hcoded, hkraft⟩ := treeLengths_complete (hcount ▸ two) htree
  refine ⟨hsize.trans hlength, ?_, ?_, hkraft⟩
  · intro symbol
    exact (hcoded symbol).trans (hzero symbol)
  · intro length hmem
    exact Nat.le_trans (le_foldl_max 0 hmem) hle

private theorem two_le_countP {counts : List Nat} {i j : Nat} (lt : i < j)
    (first : counts.getD i 0 ≠ 0) (second : counts.getD j 0 ≠ 0) : 2 ≤ counts.countP (· ≠ 0) := by
  induction counts generalizing i j with
  | nil => simp at first
  | cons head counts ih =>
    obtain ⟨j, rfl⟩ := Nat.exists_eq_add_one_of_ne_zero (show j ≠ 0 by omega)
    rw [List.getD_cons_succ] at second
    rw [List.countP_cons]
    cases i with
    | zero =>
      rw [List.getD_cons_zero] at first
      have hpos : 0 < counts.countP (· ≠ 0) := by
        apply List.countP_pos_iff.mpr
        rw [List.getD_eq_getElem?_getD] at second
        cases hget : counts[j]? with
        | none => simp [hget] at second
        | some count =>
          rw [hget, Option.getD_some] at second
          exact ⟨count, List.mem_of_getElem? hget, by simpa using second⟩
      rw [if_pos (by simpa using first)]
      omega
    | succ i =>
      rw [List.getD_cons_succ] at first
      have := ih (by omega) first second
      omega

private theorem getD_set (counts : List Nat) (i j value : Nat) : (counts.set i value).getD j 0 =
    if i = j ∧ i < counts.length then value else counts.getD j 0 := by
  rw [List.getD_eq_getElem?_getD, List.getD_eq_getElem?_getD, List.getElem?_set]
  by_cases heq : i = j
  · subst heq
    by_cases hlt : i < counts.length
    · simp [hlt]
    · simp [hlt]
  · simp [heq]

private theorem getD_set_one {counts : List Nat} {j : Nat} (i : Nat) (h : counts.getD j 0 ≠ 0) :
    (counts.set i 1).getD j 0 ≠ 0 := by
  rw [getD_set]
  split
  · decide
  · exact h

private theorem mem_active {counts : List Nat} {symbol : Nat} :
    symbol ∈ (List.range counts.length).filter (fun symbol => counts.getD symbol 0 ≠ 0) ↔
      counts.getD symbol 0 ≠ 0 := by
  rw [List.mem_filter, List.mem_range, decide_eq_true_eq]
  constructor
  · intro h
    exact h.2
  · intro hne
    refine ⟨?_, hne⟩
    by_contra hge
    rw [List.getD_eq_getElem?_getD, List.getElem?_eq_none (Nat.not_lt.mp hge)] at hne
    exact hne rfl

/-- Two symbols are counted, and all that were counted before. -/
theorem ensureTwo_spec {counts : List Nat} (long : 2 ≤ counts.length) :
    2 ≤ (ensureTwo counts).countP (· ≠ 0) ∧
      ∀ symbol, counts.getD symbol 0 ≠ 0 → (ensureTwo counts).getD symbol 0 ≠ 0 := by
  unfold ensureTwo
  cases hactive : (List.range counts.length).filter fun symbol => counts.getD symbol 0 ≠ 0 with
  | nil =>
    dsimp only
    constructor
    · apply @two_le_countP _ 0 1 (by decide)
      · rw [getD_set, if_neg (by omega), getD_set, if_pos ⟨rfl, by omega⟩]
        decide
      · rw [getD_set, if_pos ⟨rfl, by rw [List.length_set]; omega⟩]
        decide
    · intro symbol hne
      have := mem_active.mpr hne
      rw [hactive] at this
      cases this
  | cons first others =>
    have hfirst : counts.getD first 0 ≠ 0 := by
      apply mem_active.mp
      rw [hactive]
      exact List.mem_cons_self
    cases others with
    | nil =>
      dsimp only
      constructor
      · by_cases hzero : first = 0
        · subst hzero
          apply @two_le_countP _ 0 1 (by decide)
          · rw [if_pos rfl, getD_set, if_neg (by omega)]
            exact hfirst
          · rw [if_pos rfl, getD_set, if_pos ⟨rfl, by omega⟩]
            decide
        · apply two_le_countP (Nat.pos_of_ne_zero hzero)
          · rw [if_neg hzero, getD_set, if_pos ⟨rfl, by omega⟩]
            decide
          · rw [if_neg hzero, getD_set, if_neg (by omega)]
            exact hfirst
      · intro symbol hne
        exact getD_set_one _ hne
    | cons second others =>
      dsimp only
      have hascending : (first :: second :: others).Pairwise (· < ·) := by
        rw [← hactive]
        exact List.pairwise_lt_range.filter _
      have hsecond : counts.getD second 0 ≠ 0 := by
        apply mem_active.mp
        rw [hactive]
        exact List.mem_cons_of_mem _ List.mem_cons_self
      constructor
      · exact two_le_countP ((List.pairwise_cons.mp hascending).1 second List.mem_cons_self)
          hfirst hsecond
      · intro symbol hne
        exact hne

private theorem countSymbol_getD (counts : List Nat) (symbol other : Nat) :
    (countSymbol counts symbol).getD other 0 =
      if symbol = other ∧ symbol < counts.length then counts.getD other 0 + 1
      else counts.getD other 0 := by
  rw [countSymbol, List.getD_eq_getElem?_getD, List.getD_eq_getElem?_getD, List.getElem?_modify]
  by_cases heq : symbol = other
  · subst heq
    by_cases hlt : symbol < counts.length
    · simp [hlt]
    · simp [hlt]
  · simp [heq]

private theorem countSymbol_keeps {counts : List Nat} {other : Nat} (symbol : Nat)
    (h : counts.getD other 0 ≠ 0) : (countSymbol counts symbol).getD other 0 ≠ 0 := by
  rw [countSymbol_getD]
  split
  · omega
  · exact h

private theorem countSymbol_counts {counts : List Nat} {symbol : Nat}
    (lt : symbol < counts.length) : (countSymbol counts symbol).getD symbol 0 ≠ 0 := by
  rw [countSymbol_getD, if_pos ⟨rfl, lt⟩]
  exact Nat.succ_ne_zero _

private theorem foldl_countSymbol {symbols counts : List Nat}
    (inside : ∀ symbol ∈ symbols, symbol < counts.length) {symbol : Nat}
    (h : symbol ∈ symbols ∨ counts.getD symbol 0 ≠ 0) :
    (symbols.foldl countSymbol counts).getD symbol 0 ≠ 0 := by
  induction symbols generalizing counts with
  | nil => simpa using h
  | cons head symbols ih =>
    apply ih
    · intro other hmem
      rw [countSymbol_length]
      exact inside other (List.mem_cons_of_mem _ hmem)
    · rcases h with hmem | hcounted
      · rcases List.mem_cons.mp hmem with rfl | hmem
        · exact .inr (countSymbol_counts (inside symbol List.mem_cons_self))
        · exact .inl hmem
      · exact .inr (countSymbol_keeps head hcounted)

/-- All symbols of the token have been counted. -/
def Token.Counted (counts : List Nat × List Nat) : Token → Prop
  | .literal byte => counts.1.getD byte.toNat 0 ≠ 0
  | .copy length dist =>
    counts.1.getD (257 + (lengthSymbol length).1) 0 ≠ 0 ∧
      counts.2.getD (distanceSymbol dist).1 0 ≠ 0

private theorem Token.Counted.mono {counts more : List Nat × List Nat} {token : Token}
    (h : token.Counted counts)
    (literals : ∀ symbol, counts.1.getD symbol 0 ≠ 0 → more.1.getD symbol 0 ≠ 0)
    (distances : ∀ symbol, counts.2.getD symbol 0 ≠ 0 → more.2.getD symbol 0 ≠ 0) :
    token.Counted more := by
  cases token with
  | literal byte => exact literals _ h
  | copy length dist => exact ⟨literals _ h.1, distances _ h.2⟩

private theorem countToken_keeps (counts : List Nat × List Nat) (token : Token) (symbol : Nat) :
    (counts.1.getD symbol 0 ≠ 0 → (countToken counts token).1.getD symbol 0 ≠ 0) ∧
      (counts.2.getD symbol 0 ≠ 0 → (countToken counts token).2.getD symbol 0 ≠ 0) := by
  cases token with
  | literal byte => exact ⟨countSymbol_keeps _, id⟩
  | copy length dist => exact ⟨countSymbol_keeps _, countSymbol_keeps _⟩

private theorem countToken_counts {counts : List Nat × List Nat} {token : Token} {available : Nat}
    (legal : token.Legal available) (literals : counts.1.length = 286)
    (distances : counts.2.length = 30) : token.Counted (countToken counts token) := by
  cases token with
  | literal byte =>
    have hbyte := byte.toNat_lt
    exact countSymbol_counts (by omega)
  | copy length dist =>
    obtain ⟨hleast, hmost, hpos, hnear, -⟩ := legal
    have hlong : (lengthSymbol length).1 < 29 := (lengthSymbol_standsFor hleast hmost).inside
    have hfar : (distanceSymbol dist).1 < 30 := (distanceSymbol_standsFor hpos hnear).inside
    exact ⟨countSymbol_counts (by omega), countSymbol_counts (by omega)⟩

private theorem foldl_countToken {tokens : List Token} {counts : List Nat × List Nat}
    (legal : ∀ token ∈ tokens, ∃ available, token.Legal available)
    (literals : counts.1.length = 286) (distances : counts.2.length = 30) {token : Token}
    (h : token ∈ tokens ∨ token.Counted counts) :
    token.Counted (tokens.foldl countToken counts) := by
  induction tokens generalizing counts with
  | nil => simpa using h
  | cons head tokens ih =>
    obtain ⟨hliterals, hdistances⟩ := countToken_length counts head
    apply ih (fun other hmem => legal other (List.mem_cons_of_mem _ hmem))
      (hliterals.trans literals) (hdistances.trans distances)
    rcases h with hmem | hcounted
    · rcases List.mem_cons.mp hmem with rfl | hmem
      · obtain ⟨available, hlegal⟩ := legal token List.mem_cons_self
        exact .inr (countToken_counts hlegal literals distances)
      · exact .inl hmem
    · right
      apply hcounted.mono
      · intro symbol
        exact (countToken_keeps counts head symbol).1
      · intro symbol
        exact (countToken_keeps counts head symbol).2

private theorem foldl_countToken_length (tokens : List Token) (counts : List Nat × List Nat) :
    (tokens.foldl countToken counts).1.length = counts.1.length ∧
      (tokens.foldl countToken counts).2.length = counts.2.length := by
  induction tokens generalizing counts with
  | nil => exact ⟨rfl, rfl⟩
  | cons token tokens ih =>
    obtain ⟨hliterals, hdistances⟩ := ih (countToken counts token)
    obtain ⟨hliterals', hdistances'⟩ := countToken_length counts token
    exact ⟨hliterals.trans hliterals', hdistances.trans hdistances'⟩

private theorem frequencies_spec {tokens : List Token}
    (legal : ∀ token ∈ tokens, ∃ available, token.Legal available) :
    2 ≤ (frequencies tokens).1.countP (· ≠ 0) ∧ 2 ≤ (frequencies tokens).2.countP (· ≠ 0) ∧
      (frequencies tokens).1.getD 256 0 ≠ 0 ∧
      ∀ token ∈ tokens, token.Counted (frequencies tokens) := by
  obtain ⟨hliterals, hdistances⟩ :=
    foldl_countToken_length tokens (List.replicate 286 0, List.replicate 30 0)
  rw [List.length_replicate] at hliterals hdistances
  have hcounted := fun token (hmem : token ∈ tokens) =>
    @foldl_countToken tokens (List.replicate 286 0, List.replicate 30 0) legal
      List.length_replicate List.length_replicate token (.inl hmem)
  unfold frequencies
  generalize tokens.foldl countToken (List.replicate 286 0, List.replicate 30 0) = counts at *
  dsimp only
  obtain ⟨htwo, hkeeps⟩ := @ensureTwo_spec (countSymbol counts.1 256)
    (by rw [countSymbol_length]; omega)
  obtain ⟨htwo', hkeeps'⟩ := @ensureTwo_spec counts.2 (by omega)
  refine ⟨htwo, htwo', hkeeps 256 (countSymbol_counts (by omega)), ?_⟩
  intro token hmem
  apply (hcounted token hmem).mono
  · intro symbol hne
    exact hkeeps symbol (countSymbol_keeps 256 hne)
  · exact hkeeps'

private theorem lastUsed_spec {lengths : List Nat} {index : Nat}
    (h : lastUsed lengths = some index) :
    index < lengths.length ∧ ∀ other, index < other → lengths.getD other 0 = 0 := by
  induction lengths generalizing index with
  | nil => cases h
  | cons head rest ih =>
    rw [lastUsed] at h
    cases hrest : lastUsed rest with
    | some found =>
      rw [hrest] at h
      obtain rfl := Option.some.inj h
      obtain ⟨hlt, hzero⟩ := ih hrest
      refine ⟨by rw [List.length_cons]; omega, ?_⟩
      intro other hother
      obtain ⟨other, rfl⟩ := Nat.exists_eq_add_one_of_ne_zero (show other ≠ 0 by omega)
      rw [List.getD_cons_succ]
      exact hzero other (by omega)
    | none =>
      rw [hrest] at h
      dsimp only at h
      split at h
      case isTrue hne =>
        obtain rfl := Option.some.inj h
        refine ⟨Nat.zero_lt_succ _, ?_⟩
        intro other hother
        obtain ⟨other, rfl⟩ := Nat.exists_eq_add_one_of_ne_zero (show other ≠ 0 by omega)
        rw [List.getD_cons_succ]
        clear ih
        induction rest generalizing other with
        | nil => rfl
        | cons first rest ih =>
          rw [lastUsed] at hrest
          cases hlast : lastUsed rest with
          | some found =>
            rw [hlast] at hrest
            cases hrest
          | none =>
            rw [hlast] at hrest
            dsimp only at hrest
            split at hrest
            · cases hrest
            · next hfirst =>
              cases other with
              | zero => exact not_not.mp hfirst
              | succ other =>
                rw [List.getD_cons_succ]
                exact ih hlast other (Nat.zero_lt_succ _)
      case isFalse => cases h

private theorem eq_take_append_zeros {lengths : List Nat} {count : Nat}
    (le : count ≤ lengths.length) (zero : ∀ other, count ≤ other → lengths.getD other 0 = 0) :
    lengths = lengths.take count ++ List.replicate (lengths.length - count) 0 := by
  have hdrop : lengths.drop count = List.replicate (lengths.length - count) 0 := by
    apply List.ext_getElem?
    intro i
    rw [List.getElem?_drop, List.getElem?_replicate]
    by_cases hlt : count + i < lengths.length
    · have hzero := zero (count + i) (Nat.le_add_right _ _)
      rw [List.getD_eq_getElem?_getD, List.getElem?_eq_getElem hlt, Option.getD_some] at hzero
      rw [List.getElem?_eq_getElem hlt, hzero, if_pos (by omega)]
    · rw [List.getElem?_eq_none (Nat.not_lt.mp hlt), if_neg (by omega)]
  rw [← hdrop, List.take_append_drop]

private theorem symbolBits_append_zeros {lengths : List Nat} {symbol length : Nat}
    (has : HasLength lengths symbol length) (zeros : Nat) :
    symbolBits (lengths ++ List.replicate zeros 0) symbol = symbolBits lengths symbol := by
  obtain ⟨hget, hcode⟩ := has.code_append_zeros zeros
  rw [symbolBits, symbolBits, hget, hcode, has.getD]

private theorem Token.bits_append_zeros {literal distance : List Nat} {token : Token}
    (coded : token.Coded literal distance) (zeros zeros' : Nat) :
    token.bits (literal ++ List.replicate zeros 0) (distance ++ List.replicate zeros' 0) =
      token.bits literal distance := by
  cases token with
  | literal byte =>
    obtain ⟨length, has⟩ := coded
    exact symbolBits_append_zeros has zeros
  | copy length dist =>
    obtain ⟨⟨longBits, hasLong⟩, ⟨farBits, hasFar⟩⟩ := coded
    rw [Token.bits, Token.bits, symbolBits_append_zeros hasLong, symbolBits_append_zeros hasFar]

private theorem Token.Coded.append_zeros {literal distance : List Nat} {token : Token}
    (coded : token.Coded literal distance) (zeros zeros' : Nat) :
    token.Coded (literal ++ List.replicate zeros 0) (distance ++ List.replicate zeros' 0) := by
  cases token with
  | literal byte =>
    obtain ⟨length, has⟩ := coded
    exact ⟨length, has.append_zeros zeros⟩
  | copy length dist =>
    obtain ⟨⟨longBits, hasLong⟩, ⟨farBits, hasFar⟩⟩ := coded
    exact ⟨⟨longBits, hasLong.append_zeros zeros⟩, ⟨farBits, hasFar.append_zeros zeros'⟩⟩

section Header

variable {data before : List UInt8} {bit : Nat} {rest : List Bool} {lengths : List Nat}

private theorem readCodeLengths_written {order : List Nat} (start : List Nat)
    (small : ∀ symbol ∈ order, lengths.getD symbol 0 < 2 ^ 3)
    (h : Rests data bit (order.flatMap (fun symbol => lowBits 3 (lengths.getD symbol 0)) ++ rest)) :
    ∃ next, readCodeLengths data order bit start =
        .ok (order.foldl (fun found symbol => found.set symbol (lengths.getD symbol 0)) start, next) ∧
      Rests data next rest := by
  induction order generalizing bit start with
  | nil => exact ⟨bit, rfl, h⟩
  | cons symbol order ih =>
    rw [List.flatMap_cons, List.append_assoc] at h
    have hread := h.read (small symbol List.mem_cons_self) (by decide)
    obtain ⟨next, hrest, hnext⟩ := ih (start.set symbol (lengths.getD symbol 0))
      (fun other hmem => small other (List.mem_cons_of_mem _ hmem)) h.after_read
    refine ⟨next, ?_, hnext⟩
    rw [readCodeLengths, hread, result_bind_ok]
    exact hrest

private theorem foldl_set_getD (order start : List Nat) (symbol : Nat) :
    (order.foldl (fun found symbol => found.set symbol (lengths.getD symbol 0)) start).getD symbol 0 =
      if symbol ∈ order ∧ symbol < start.length then lengths.getD symbol 0
      else start.getD symbol 0 := by
  induction order generalizing start with
  | nil => simp
  | cons head order ih =>
    rw [List.foldl_cons, ih, List.length_set, getD_set]
    by_cases hlt : symbol < start.length
    · by_cases hmem : symbol ∈ order
      · simp [hlt, hmem]
      · by_cases heq : head = symbol
        · simp [hlt, hmem, heq]
        · simp [hlt, hmem, heq, Ne.symm heq]
    · by_cases heq : head = symbol
      · simp [hlt, heq]
      · simp [hlt, heq]

private theorem foldl_set_length (order start : List Nat) :
    (order.foldl (fun found symbol => found.set symbol (lengths.getD symbol 0)) start).length =
      start.length := by
  induction order generalizing start with
  | nil => rfl
  | cons head order ih => rw [List.foldl_cons, ih, List.length_set]

private theorem ext_getD {found : List Nat} (size : found.length = lengths.length)
    (same : ∀ symbol < lengths.length, found.getD symbol 0 = lengths.getD symbol 0) :
    found = lengths := by
  apply List.ext_getElem size
  intro symbol hlt hlt'
  have hsame := same symbol hlt'
  rw [List.getD_eq_getElem?_getD, List.getD_eq_getElem?_getD, List.getElem?_eq_getElem hlt,
    List.getElem?_eq_getElem hlt'] at hsame
  exact hsame

private theorem codeLengthOrder_spec :
    ∀ symbol < 19, ∃ i < 19, codeLengthOrder.getD i 0 = symbol := by
  decide

private theorem readCodeLengths_all {count last : Nat} (size : lengths.length = 19)
    (used : lastUsed (codeLengthOrder.map fun symbol => lengths.getD symbol 0) = some last)
    (covers : last < count) :
    (codeLengthOrder.take count).foldl (fun found symbol => found.set symbol (lengths.getD symbol 0))
      (List.replicate 19 0) = lengths := by
  apply ext_getD
  · rw [foldl_set_length, List.length_replicate, size]
  · intro symbol hlt
    rw [size] at hlt
    rw [foldl_set_getD, List.length_replicate]
    by_cases hmem : symbol ∈ codeLengthOrder.take count
    · rw [if_pos ⟨hmem, hlt⟩]
    · obtain ⟨i, hi, hsymbol⟩ := codeLengthOrder_spec symbol hlt
      have hget : codeLengthOrder[i]? = some symbol := by
        rw [List.getD_eq_getElem?_getD, List.getElem?_eq_getElem (show i < codeLengthOrder.length from hi)]
          at hsymbol
        rw [List.getElem?_eq_getElem (show i < codeLengthOrder.length from hi)]
        exact congrArg some hsymbol
      have hbehind : last < i := by
        by_contra hle
        apply hmem
        apply List.mem_of_getElem?
        rw [List.getElem?_take_of_lt (show i < count by omega)]
        exact hget
      have hzero := (lastUsed_spec used).2 i hbehind
      rw [List.getD_eq_getElem?_getD, List.getElem?_map, hget] at hzero
      rw [if_neg (by simp [hmem]), List.getD_eq_getElem?_getD, List.getElem?_replicate, if_pos hlt]
      exact hzero.symm

private theorem readLengths_written {codeTable : Huffman} (table : codeTable.IsTable lengths)
    (few : lengths.length ≤ 320) {values : List Nat} (done : List Nat)
    (coded : ∀ value ∈ values, value ≤ 15 ∧ ∃ length, HasLength lengths value length)
    (h : Rests data bit (values.flatMap (symbolBits lengths) ++ rest)) :
    ∃ next, readLengths data codeTable (done.length + values.length) bit done =
        .ok (done ++ values, next) ∧ Rests data next rest := by
  induction values generalizing bit done with
  | nil =>
    refine ⟨bit, ?_, h⟩
    rw [readLengths_eq, if_neg (by simp), List.append_nil]
  | cons value values ih =>
    rw [List.flatMap_cons, List.append_assoc] at h
    obtain ⟨hsmall, length, has⟩ := coded value List.mem_cons_self
    obtain ⟨next, hrest, hnext⟩ := ih (done ++ [value])
      (fun other hmem => coded other (List.mem_cons_of_mem _ hmem)) (h.after_decode has)
    refine ⟨next, ?_, hnext⟩
    have hread : readLength data codeTable (done.length + (value :: values).length) bit done =
        .ok (done ++ [value], bit + length) := by
      rw [readLength, h.decode table few has, result_bind_ok]
      exact if_pos hsmall
    rw [readLengths_eq, if_pos (by simp), hread]
    simp only [List.length_append, List.length_cons, List.length_nil, List.append_assoc,
      List.cons_append, List.nil_append, Nat.add_assoc, Nat.zero_add] at hrest ⊢
    rw [Nat.add_comm values.length 1]
    exact hrest

end Header

/-- What the header of a block with its own codes says. -/
structure DynamicCodes (literals distances codeLengths : List Nat) (codeLengthCount : Nat)
    (tables : Huffman × Huffman) : Prop where
  codes : CodeTables literals distances tables
  literal : Huffman.new literals = .ok tables.1
  distance : Huffman.new distances = .ok tables.2
  literalCount : 257 ≤ literals.length ∧ literals.length ≤ 286
  distanceCount : 1 ≤ distances.length ∧ distances.length ≤ 30
  ends : ∃ length, HasLength literals 256 length
  count : 4 ≤ codeLengthCount ∧ codeLengthCount ≤ 19
  size : codeLengths.length = 19
  short : ∀ length ∈ codeLengths, length ≤ 7
  sent : (codeLengthOrder.take codeLengthCount).foldl
    (fun found symbol => found.set symbol (codeLengths.getD symbol 0)) (List.replicate 19 0) =
      codeLengths
  table : ∃ codeTable, Huffman.new codeLengths = .ok codeTable ∧ codeTable.IsTable codeLengths
  coded : ∀ value ∈ literals ++ distances,
    value ≤ 15 ∧ ∃ length, HasLength codeLengths value length

def headerBits (literals distances codeLengths : List Nat) (codeLengthCount : Nat) : List Bool :=
  lowBits 5 (literals.length - 257) ++ (lowBits 5 (distances.length - 1) ++
    (lowBits 4 (codeLengthCount - 4) ++
      ((codeLengthOrder.take codeLengthCount).flatMap
        (fun symbol => lowBits 3 (codeLengths.getD symbol 0)) ++
          (literals ++ distances).flatMap (symbolBits codeLengths))))

section Codes

variable {literals distances codeLengths : List Nat} {codeLengthCount : Nat}
  {tables : Huffman × Huffman} {data : List UInt8} {bit : Nat} {bits rest : List Bool}
  {w : BitWriter}

private theorem DynamicCodes.length_lt
    (d : DynamicCodes literals distances codeLengths codeLengthCount
    tables) (symbol : Nat) : codeLengths.getD symbol 0 < 2 ^ 3 := by
  rw [List.getD_eq_getElem?_getD]
  cases hget : codeLengths[symbol]? with
  | none => decide
  | some length => exact Nat.lt_succ_of_le (d.short length (List.mem_of_getElem? hget))

private theorem dynamicTables_written
    (d : DynamicCodes literals distances codeLengths codeLengthCount tables)
    (h : Rests data bit (headerBits literals distances codeLengths codeLengthCount ++ rest)) :
    ∃ next, dynamicTables data bit = .ok (tables, next) ∧ Rests data next rest := by
  have hliterals := d.literalCount
  have hdistances := d.distanceCount
  have hcount := d.count
  obtain ⟨codeTable, hnew, htable⟩ := d.table
  obtain ⟨length, hends⟩ := d.ends
  simp only [headerBits, List.append_assoc] at h
  have h1 := h.read (show literals.length - 257 < 2 ^ 5 by omega) (by decide)
  have h2 := h.after_read.read (show distances.length - 1 < 2 ^ 5 by omega) (by decide)
  have h3 := h.after_read.after_read.read (show codeLengthCount - 4 < 2 ^ 4 by omega) (by decide)
  obtain ⟨bit4, h4, hrest⟩ := readCodeLengths_written (List.replicate 19 0)
    (fun symbol _ => d.length_lt symbol) h.after_read.after_read.after_read
  rw [d.sent] at h4
  obtain ⟨bit5, h5, hnext⟩ :=
    readLengths_written htable (by rw [d.size]; decide) [] d.coded hrest
  rw [List.nil_append, List.length_nil, Nat.zero_add, List.length_append] at h5
  have hend : (literals ++ distances).getD 256 0 ≠ 0 := by
    rw [List.getD_eq_getElem?_getD, List.getElem?_append_left (by omega), hends.get,
      Option.getD_some]
    have := hends.pos
    omega
  refine ⟨bit5, ?_, hnext⟩
  rw [dynamicTables, h1, result_bind_ok]
  dsimp only
  rw [h2, result_bind_ok]
  dsimp only
  rw [h3, result_bind_ok]
  dsimp only
  rw [Nat.sub_add_cancel hliterals.1, Nat.sub_add_cancel hdistances.1,
    Nat.sub_add_cancel hcount.1, h4, result_bind_ok]
  dsimp only
  rw [hnew, result_bind_ok, h5, result_bind_ok]
  dsimp only
  rw [ensure_of hend, result_bind_ok, List.take_left, List.drop_left, d.literal, result_bind_ok,
    d.distance]
  rfl

private theorem BitWriter.Wrote.foldl_lengths (order : List Nat) (h : w.Wrote bits)
    (small : ∀ symbol ∈ order, codeLengths.getD symbol 0 < 2 ^ 3) :
    (order.foldl (fun w symbol => w.writeBits (codeLengths.getD symbol 0) 3) w).Wrote
      (bits ++ order.flatMap fun symbol => lowBits 3 (codeLengths.getD symbol 0)) := by
  induction order generalizing w bits with
  | nil => simpa using h
  | cons symbol order ih =>
    have hrest := ih (h.writeBits (small symbol List.mem_cons_self))
      (fun other hmem => small other (List.mem_cons_of_mem _ hmem))
    rw [List.append_assoc] at hrest
    exact hrest

private theorem BitWriter.Wrote.foldl_codes {lengths : List Nat} (values : List Nat)
    (h : w.Wrote bits) (short : ∀ length ∈ lengths, length ≤ 16)
    (coded : ∀ value ∈ values, ∃ length, HasLength lengths value length) :
    (values.foldl (fun w value => Deflate.writeCode w value (.of lengths)) w).Wrote
      (bits ++ values.flatMap (symbolBits lengths)) := by
  induction values generalizing w bits with
  | nil => simpa using h
  | cons value values ih =>
    obtain ⟨length, has⟩ := coded value List.mem_cons_self
    have hrest := ih (h.writeCode has (short _ has.mem))
      (fun other hmem => coded other (List.mem_cons_of_mem _ hmem))
    rw [List.append_assoc] at hrest
    exact hrest

end Codes

private theorem encodeDynamic_eq_some {tokens : List Token} {bytes : List UInt8} :
    encodeDynamic tokens = some bytes ↔
      ∃ literalLengths distanceLengths literalLast distanceLast codeLengths codeLengthLast,
        huffmanLengths (frequencies tokens).1 15 = some literalLengths ∧
        huffmanLengths (frequencies tokens).2 15 = some distanceLengths ∧
        lastUsed literalLengths = some literalLast ∧ lastUsed distanceLengths = some distanceLast ∧
        huffmanLengths (codeLengthFrequencies (allLengths literalLengths distanceLengths
          (max literalLast 256 + 1) (distanceLast + 1))) 7 = some codeLengths ∧
        lastUsed (codeLengthOrder.map fun symbol => codeLengths.getD symbol 0) =
          some codeLengthLast ∧
        bytes = writeDynamic tokens literalLengths distanceLengths codeLengths
          (max literalLast 256 + 1) (distanceLast + 1) (max codeLengthLast 3 + 1) := by
  simp only [encodeDynamic, Option.bind_eq_bind, Option.bind_eq_some_iff, Option.pure_def,
    Option.some.injEq]
  constructor
  · rintro ⟨l, hl, d, hd, i, hi, j, hj, c, hc, k, hk, rfl⟩
    exact ⟨l, d, i, j, c, k, hl, hd, hi, hj, hc, hk, rfl⟩
  · rintro ⟨l, d, i, j, c, k, hl, hd, hi, hj, hc, hk, rfl⟩
    exact ⟨l, hl, d, hd, i, hi, j, hj, c, hc, k, hk, rfl⟩

/-- A complete code without the zeros at its end. -/
theorem trimmed_codes {frequencies lengths : List Nat} {last count : Nat}
    (few : frequencies.length ≤ 2 ^ 15) (two : 2 ≤ frequencies.countP (· ≠ 0))
    (h : huffmanLengths frequencies 15 = some lengths) (used : lastUsed lengths = some last)
    (covers : last < count) (le : count ≤ frequencies.length) :
    (lengths.take count).length = count ∧
      lengths = lengths.take count ++ List.replicate (lengths.length - count) 0 ∧
      (∃ huffman, Huffman.new (lengths.take count) = .ok huffman ∧
        huffman.IsTable (lengths.take count)) ∧
      (∀ length ∈ lengths, length ≤ 15) ∧
      ∀ symbol, frequencies.getD symbol 0 ≠ 0 →
        ∃ length, HasLength (lengths.take count) symbol length := by
  obtain ⟨hsize, hzero, hbound, hkraft⟩ := huffmanLengths_codes (by decide) few two h
  have htrim := @eq_take_append_zeros lengths count (by omega)
    (fun other hge => (lastUsed_spec used).2 other (by omega))
  have hcoded : ∀ symbol, frequencies.getD symbol 0 ≠ 0 →
      ∃ length, HasLength (lengths.take count) symbol length := by
    intro symbol hne
    have has := hasLength_of_getD (Nat.pos_of_ne_zero (mt (hzero symbol).mp hne))
    refine ⟨lengths.getD symbol 0, ?_⟩
    generalize lengths.getD symbol 0 = length at has
    rw [htrim] at has
    exact has.of_append_zeros
  refine ⟨by rw [List.length_take]; omega, htrim, ?_, hbound, hcoded⟩
  apply Huffman.exists_table
  · intro length hmem
    exact hbound length (List.mem_of_mem_take hmem)
  · rw [htrim, kraftSum_append_zeros] at hkraft
    exact le_of_eq hkraft
  · obtain ⟨frequency, hmem, hne⟩ := List.countP_pos_iff.mp (Nat.lt_of_lt_of_le Nat.two_pos two)
    obtain ⟨symbol, hget⟩ := List.mem_iff_getElem?.mp hmem
    obtain ⟨length, has⟩ := hcoded symbol (by
      rw [List.getD_eq_getElem?_getD, hget, Option.getD_some]
      exact of_decide_eq_true hne)
    exact ⟨length, has.mem, Nat.ne_of_gt has.pos⟩

/-- The code of the code lengths, which themselves have at most four bits. -/
private theorem codeLengths_code {values codeLengths : List Nat}
    (short : ∀ value ∈ values, value ≤ 15)
    (h : huffmanLengths (codeLengthFrequencies values) 7 = some codeLengths) :
    codeLengths.length = 19 ∧ (∀ length ∈ codeLengths, length ≤ 7) ∧ kraftSum codeLengths = 1 ∧
      ∀ value ∈ values, ∃ length, HasLength codeLengths value length := by
  have hinside : ∀ value ∈ values, value < (List.replicate 19 0).length := by
    intro value hmem
    have := short value hmem
    rw [List.length_replicate]
    omega
  have hcounts : (values.foldl countSymbol (List.replicate 19 0)).length = 19 := by
    rw [foldl_countSymbol_length, List.length_replicate]
  obtain ⟨htwo, hkeeps⟩ := @ensureTwo_spec (values.foldl countSymbol (List.replicate 19 0))
    (by rw [hcounts]; decide)
  rw [codeLengthFrequencies] at h
  obtain ⟨hsize, hzero, hbound, hkraft⟩ := huffmanLengths_codes (by decide)
    (by rw [ensureTwo_length, hcounts]; decide) htwo h
  rw [ensureTwo_length, hcounts] at hsize
  refine ⟨hsize, hbound, hkraft, ?_⟩
  intro value hmem
  refine ⟨_, hasLength_of_getD (Nat.pos_of_ne_zero ?_)⟩
  exact mt (hzero value).mp (hkeeps value (foldl_countSymbol hinside (.inl hmem)))

private theorem codeLengths_table {codeLengths : List Nat} {value bits : Nat}
    (short : ∀ length ∈ codeLengths, length ≤ 7) (kraft : kraftSum codeLengths = 1)
    (coded : HasLength codeLengths value bits) :
    ∃ table, Huffman.new codeLengths = .ok table ∧ table.IsTable codeLengths := by
  apply Huffman.exists_table
  · intro length hmem
    exact Nat.le_trans (short length hmem) (by decide)
  · exact le_of_eq kraft
  · exact ⟨bits, coded.mem, Nat.ne_of_gt coded.pos⟩

private theorem encodeDynamic_codes {tokens : List Token} {bytes : List UInt8}
    (legal : ∀ token ∈ tokens, ∃ available, token.Legal available)
    (h : encodeDynamic tokens = some bytes) :
    ∃ literals distances codeLengths count zeros zeros' tables,
      DynamicCodes literals distances codeLengths count tables ∧
      (∀ token ∈ tokens, token.Coded literals distances) ∧
      (∀ length ∈ literals, length ≤ 15) ∧ (∀ length ∈ distances, length ≤ 15) ∧
      bytes = writeDynamic tokens (literals ++ List.replicate zeros 0)
        (distances ++ List.replicate zeros' 0) codeLengths literals.length distances.length count := by
  obtain ⟨literalLengths, distanceLengths, literalLast, distanceLast, codeLengths, codeLengthLast,
    hliteral, hdistance, hliteralLast, hdistanceLast, hcodeLengths, hcodeLengthLast, hbytes⟩ :=
    encodeDynamic_eq_some.mp h
  obtain ⟨hliteralSize, hdistanceSize⟩ := frequencies_length tokens
  obtain ⟨htwo, htwo', hend, hcounted⟩ := frequencies_spec legal
  have hliteralLt := (lastUsed_spec hliteralLast).1
  have hdistanceLt := (lastUsed_spec hdistanceLast).1
  have hliteralLength := (huffmanLengths_codes (by decide) (by rw [hliteralSize]; decide) htwo
    hliteral).1
  have hdistanceLength := (huffmanLengths_codes (by decide) (by rw [hdistanceSize]; decide) htwo'
    hdistance).1
  obtain ⟨hliterals, hliteralTrim, ⟨literal, hliteralNew, hliteralTable⟩, hliteralBound,
    hliteralCoded⟩ := @trimmed_codes _ _ _ (max literalLast 256 + 1)
      (by rw [hliteralSize]; decide) htwo hliteral hliteralLast (by omega) (by omega)
  obtain ⟨hdistances, hdistanceTrim, ⟨distance, hdistanceNew, hdistanceTable⟩, hdistanceBound,
    hdistanceCoded⟩ := @trimmed_codes _ _ _ (distanceLast + 1)
      (by rw [hdistanceSize]; decide) htwo' hdistance hdistanceLast (by omega) (by omega)
  rw [allLengths] at hcodeLengths
  generalize hfirst : literalLengths.take (max literalLast 256 + 1) = literals at *
  generalize hsecond : distanceLengths.take (distanceLast + 1) = distances at *
  have hshort : ∀ length ∈ literals, length ≤ 15 := by
    intro length hmem
    rw [← hfirst] at hmem
    exact hliteralBound length (List.mem_of_mem_take hmem)
  have hshort' : ∀ length ∈ distances, length ≤ 15 := by
    intro length hmem
    rw [← hsecond] at hmem
    exact hdistanceBound length (List.mem_of_mem_take hmem)
  have hvalues : ∀ value ∈ literals ++ distances, value ≤ 15 :=
    List.forall_mem_append.mpr ⟨hshort, hshort'⟩
  obtain ⟨hcodeSize, hcodeBound, hcodeKraft, hcodeHas⟩ := codeLengths_code hvalues hcodeLengths
  have hlast := (lastUsed_spec hcodeLengthLast).1
  obtain ⟨length, has⟩ := hliteralCoded 256 hend
  obtain ⟨bits, hasCode⟩ := hcodeHas length (List.mem_append_left _ has.mem)
  have hdynamic : DynamicCodes literals distances codeLengths (max codeLengthLast 3 + 1)
      (literal, distance) := by
    have horder : codeLengthOrder.length = 19 := rfl
    rw [List.length_map] at hlast
    exact {
      codes := ⟨hliteralTable, hdistanceTable, by omega, by omega⟩
      literal := hliteralNew
      distance := hdistanceNew
      literalCount := by omega
      distanceCount := by omega
      ends := ⟨length, has⟩
      count := by omega
      size := hcodeSize
      short := hcodeBound
      sent := readCodeLengths_all hcodeSize hcodeLengthLast (by omega)
      table := codeLengths_table hcodeBound hcodeKraft hasCode
      coded := fun value hmem => ⟨hvalues value hmem, hcodeHas value hmem⟩ }
  have htokens : ∀ token ∈ tokens, token.Coded literals distances := by
    intro token hmem
    have hcount := hcounted token hmem
    cases token with
    | literal byte => exact hliteralCoded _ hcount
    | copy length dist => exact ⟨hliteralCoded _ hcount.1, hdistanceCoded _ hcount.2⟩
  rw [← hliterals, ← hdistances, hliteralTrim, hdistanceTrim] at hbytes
  exact ⟨literals, distances, codeLengths, _, _, _, _, hdynamic, htokens, hshort, hshort', hbytes⟩

/-- The block with its own codes and the boundary behind it. -/
theorem crosses_encodeDynamic {tokens : List Token} {bytes data before : List UInt8} {bit : Nat}
    {rest : List Bool} (encoded : encodeDynamic tokens = some bytes)
    (legal : LegalFrom before tokens) (aligned : bit % 8 = 0)
    (h : Rests data bit (bitString bytes ++ rest)) :
    ∃ next, ReflTransGen (Crosses data) (bit, ⟨before⟩) (next, ⟨expand before tokens⟩) ∧
      Rests data next rest := by
  obtain ⟨literals, distances, codeLengths, count, zeros, zeros', tables, d, hcoded, hshort, hshort',
    rfl⟩ := encodeDynamic_codes (fun token hmem => legal.legal hmem) encoded
  have hliterals := d.literalCount
  have hdistances := d.distanceCount
  have hcount := d.count
  have hlong : ∀ length ∈ literals ++ List.replicate zeros 0, length ≤ 16 := by
    intro length hmem
    rcases List.mem_append.mp hmem with hmem | hmem
    · exact Nat.le_succ_of_le (hshort length hmem)
    · rw [List.eq_of_mem_replicate hmem]
      exact Nat.zero_le _
  have hfar : ∀ length ∈ distances ++ List.replicate zeros' 0, length ≤ 16 := by
    intro length hmem
    rcases List.mem_append.mp hmem with hmem | hmem
    · exact Nat.le_succ_of_le (hshort' length hmem)
    · rw [List.eq_of_mem_replicate hmem]
      exact Nat.zero_le _
  have hcode : ∀ length ∈ codeLengths, length ≤ 16 := by
    intro length hmem
    exact Nat.le_trans (d.short length hmem) (by decide)
  have hall : allLengths (literals ++ List.replicate zeros 0) (distances ++ List.replicate zeros' 0)
      literals.length distances.length = literals ++ distances := by
    rw [allLengths, List.take_left, List.take_left]
  have hwider : ∀ token ∈ tokens, token.Coded (literals ++ List.replicate zeros 0)
      (distances ++ List.replicate zeros' 0) := by
    intro token hmem
    exact (hcoded token hmem).append_zeros zeros zeros'
  obtain ⟨endBits, hends⟩ := d.ends
  have hwiderEnd := hends.append_zeros zeros
  have hheader := ((((BitWriter.wrote_empty.writeBits (show 0b100 < 2 ^ 3 by decide)).writeBits
    (show literals.length - 257 < 2 ^ 5 by omega)).writeBits
    (show distances.length - 1 < 2 ^ 5 by omega)).writeBits
    (show count - 4 < 2 ^ 4 by omega)).foldl_lengths (codeLengthOrder.take count)
      (fun symbol _ => d.length_lt symbol)
  have hcodes := hheader.foldl_codes (literals ++ distances) hcode
    (fun value hmem => (d.coded value hmem).2)
  have hwrote := (hcodes.writeTokens hlong hfar hwider legal).writeCode hwiderEnd
    (hlong _ hwiderEnd.mem)
  obtain ⟨hsync, hzero⟩ := hwrote.writeStored (show ([] : List UInt8).length < 2 ^ 16 by decide)
  have hbits : tokens.flatMap (Token.bits (literals ++ List.replicate zeros 0)
      (distances ++ List.replicate zeros' 0)) = tokens.flatMap (Token.bits literals distances) := by
    apply List.flatMap_congr
    intro token hmem
    exact Token.bits_append_zeros (hcoded token hmem) zeros zeros'
  rw [writeDynamic, hall, syncBoundary_eq, hsync.finishAligned hzero, hbits,
    symbolBits_append_zeros hends] at h
  have hparts : Rests data bit (lowBits 3 0b100 ++
      (headerBits literals distances codeLengths count ++
        (tokens.flatMap (Token.bits literals distances) ++ (symbolBits literals 256 ++
          (storedBits (lowBits 3 0b100 ++ (headerBits literals distances codeLengths count ++
            (tokens.flatMap (Token.bits literals distances) ++ symbolBits literals 256))) [] ++
              rest))))) := by
    simpa only [headerBits, List.nil_append, List.append_assoc] using h
  obtain ⟨start, hdynamic, hstart⟩ := dynamicTables_written d hparts.after_read
  obtain ⟨next, hblock, hnext⟩ :=
    decodeHuffmanBlock_tokens d.codes hcoded ⟨_, hends⟩ legal hstart
  have hcrosses : Crosses data (bit, ⟨before⟩) (next, ⟨expand before tokens⟩) := by
    apply crosses_of_body (show 2 < 4 by decide) hparts
    rw [decodeBody, if_neg (by decide), if_neg (by decide), if_pos rfl, hdynamic, result_bind_ok]
    dsimp only
    rw [hblock]
    rfl
  have hplace := hparts
  rw [← List.append_assoc, ← List.append_assoc, ← List.append_assoc] at hplace
  have hsame := hplace.skip.unique hnext
  obtain ⟨last, hstored, hlast⟩ := @crosses_stored _ (expand before tokens) _ _ _ _
    (by decide) (by rw [← hsame]; simp; omega) hnext
  rw [List.append_nil] at hstored
  exact ⟨last, .head hcrosses (.single hstored), hlast⟩

end Fbz.Deflate
