import Fbz.Bzip2.Mtf
import Mathlib.Data.List.GetD
import Mathlib.Tactic.Ring

/-!
# Round trip of the symbols of a block

The symbol loop of the decoder undoes move-to-front and the runs. Its list is the one the encoder
has after the same bytes, and a run is summed up digit by digit below the limit of its bits.
-/

namespace Fbz.Bzip2

/-- The symbol loop on symbols that are decoded already, each with the position behind it. There is
no result when they run out. -/
def applySymbols (header : BlockHeader) (blockSize : Nat) :
    List (Nat × Nat) → Symbols → Result (Option (List UInt8 × Nat))
  | [], _ => .ok none
  | (symbol, bit) :: rest, s =>
    match applySymbol header blockSize symbol s bit with
    | .error error => .error error
    | .ok (s, true) => .ok (some (s.tt, bit))
    | .ok (s, false) => applySymbols header blockSize rest s

/-- The next symbols of the data, each with the position behind it. -/
def readSymbols (data : List UInt8) (header : BlockHeader) :
    Nat → Symbols → Nat → Result (List (Nat × Nat))
  | 0, _, _ => .ok []
  | count + 1, s, bit => do
    let (s, symbol, bit) ← readSymbol data header s bit
    let rest ← readSymbols data header count s bit
    return (symbol, bit) :: rest

variable {data : List UInt8} {header : BlockHeader} {blockSize : Nat}

/-- Both states read the next symbol with the same table. -/
structure Symbols.Alike (s t : Symbols) : Prop where
  selector : s.selector = t.selector
  groupLeft : s.groupLeft = t.groupLeft
  table : s.table = t.table

private theorem Symbols.Alike.trans {s t u : Symbols} (h : s.Alike t) (h' : t.Alike u) :
    s.Alike u :=
  ⟨h.selector.trans h'.selector, h.groupLeft.trans h'.groupLeft, h.table.trans h'.table⟩

private theorem readSymbol_alike {s t u : Symbols} {bit symbol next : Nat} (alike : s.Alike t)
    (read : readSymbol data header s bit = .ok (u, symbol, next)) :
    ∃ v, readSymbol data header t bit = .ok (v, symbol, next) ∧ u.Alike v ∧
      v.mtf = t.mtf ∧ v.run = t.run ∧ v.runBit = t.runBit ∧ v.tt = t.tt := by
  obtain ⟨u', hselect, read⟩ := result_bind_eq_ok.mp read
  obtain ⟨table, htable, read⟩ := result_bind_eq_ok.mp read
  obtain ⟨⟨symbol', next'⟩, hdecode, heq⟩ := result_bind_eq_ok.mp read
  cases heq
  have hv : ∃ v, selectTable header t bit = .ok v ∧ u.Alike v ∧
      v.mtf = t.mtf ∧ v.run = t.run ∧ v.runBit = t.runBit ∧ v.tt = t.tt := by
    unfold selectTable at hselect ⊢
    rw [← alike.groupLeft, ← alike.selector]
    split at hselect
    case isTrue first =>
      rw [if_pos first]
      split at hselect
      case h_1 => cases hselect
      case h_2 table _ =>
        cases hselect
        exact ⟨_, rfl, ⟨rfl, rfl, rfl⟩, rfl, rfl, rfl, rfl⟩
    case isFalse later =>
      rw [if_neg later]
      cases hselect
      exact ⟨_, rfl, ⟨rfl, rfl, alike.table⟩, rfl, rfl, rfl, rfl⟩
  obtain ⟨v, hselect', halike, hsame⟩ := hv
  refine ⟨v, ?_, halike, hsame⟩
  rw [readSymbol, hselect']
  rw [halike.table] at htable
  simp only [bind, Except.bind, htable, hdecode, pure, Except.pure]

/-- What a symbol does depends on the variables that reading leaves alone. -/
theorem applySymbol_alike {s t u : Symbols} {bit symbol : Nat} {ended : Bool}
    (same : s.mtf = t.mtf ∧ s.run = t.run ∧ s.runBit = t.runBit ∧ s.tt = t.tt)
    (applied : applySymbol header blockSize symbol s bit = .ok (u, ended)) :
    ∃ v, applySymbol header blockSize symbol t bit = .ok (v, ended) ∧ t.Alike v ∧
      u.mtf = v.mtf ∧ u.run = v.run ∧ u.runBit = v.runBit ∧ u.tt = v.tt := by
  obtain ⟨hmtf, hrun, hbit, htt⟩ := same
  unfold applySymbol at applied ⊢
  split at applied
  case isTrue digit =>
    rw [if_pos digit]
    rw [hrun, hbit] at applied
    dsimp only at applied ⊢
    split at applied
    case isTrue => cases applied
    case isFalse fits =>
      cases applied
      rw [if_neg fits]
      exact ⟨_, rfl, ⟨rfl, rfl, rfl⟩, hmtf, rfl, rfl, htt⟩
  case isFalse other =>
  rw [if_neg other]
  have hflush : (∃ error, flushRun blockSize s bit = .error error) ∨
      ∃ u v, flushRun blockSize s bit = .ok u ∧ flushRun blockSize t bit = .ok v ∧ t.Alike v ∧
        u.mtf = v.mtf ∧ u.run = v.run ∧ u.runBit = v.runBit ∧ u.tt = v.tt := by
    unfold flushRun
    rw [← hrun, ← htt, ← hmtf]
    split
    case isFalse => exact .inr ⟨_, _, rfl, rfl, ⟨rfl, rfl, rfl⟩, hmtf, hrun, hbit, htt⟩
    case isTrue =>
    split
    case isTrue => exact .inl ⟨_, rfl⟩
    case isFalse => exact .inr ⟨_, _, rfl, rfl, ⟨rfl, rfl, rfl⟩, rfl, rfl, rfl, rfl⟩
  rcases hflush with ⟨error, herror⟩ | ⟨u', v', hu, hv, halike, hmtf', hrun', hbit', htt'⟩
  · rw [herror] at applied
    cases applied
  rw [hu] at applied
  rw [hv]
  dsimp only at applied ⊢
  rw [← hmtf', ← htt']
  split at applied
  case isTrue ends =>
    cases applied
    rw [if_pos ends]
    exact ⟨_, rfl, halike, hmtf', hrun', hbit', htt'⟩
  case isFalse more =>
  rw [if_neg more]
  split at applied
  case isTrue => cases applied
  case isFalse fits =>
    cases applied
    rw [if_neg fits]
    exact ⟨_, rfl, ⟨halike.selector, halike.groupLeft, halike.table⟩, rfl, hrun', hbit', rfl⟩

/-- The loop over the data does what the loop over the symbols does. -/
theorem decodeSymbols_eq {marked : List (Nat × Nat)} {s t u : Symbols} {bit : Nat}
    {result : List UInt8 × Nat} (alike : s.Alike t)
    (same : u.mtf = t.mtf ∧ u.run = t.run ∧ u.runBit = t.runBit ∧ u.tt = t.tt)
    (read : readSymbols data header marked.length s bit = .ok marked)
    (applied : applySymbols header blockSize marked u = .ok (some result)) :
    decodeSymbols data header blockSize t bit = .ok result := by
  induction marked generalizing s t u bit with
  | nil => cases applied
  | cons next marked ih =>
    obtain ⟨⟨s', symbol, next'⟩, hread, hrest⟩ := result_bind_eq_ok.mp read
    obtain ⟨rest, hmarked, heq⟩ := result_bind_eq_ok.mp hrest
    cases heq
    obtain ⟨t', hread', halike, hmtf, hrun, hbit, htt⟩ := readSymbol_alike alike hread
    have hsame : u.mtf = t'.mtf ∧ u.run = t'.run ∧ u.runBit = t'.runBit ∧ u.tt = t'.tt :=
      ⟨same.1.trans hmtf.symm, same.2.1.trans hrun.symm, same.2.2.1.trans hbit.symm,
        same.2.2.2.trans htt.symm⟩
    rw [applySymbols] at applied
    rw [decodeSymbols, hread']
    dsimp only
    split at applied
    case h_1 => cases applied
    case h_2 ended happly =>
      obtain ⟨v, hv, -, -, -, -, htt'⟩ := applySymbol_alike hsame happly
      cases applied
      rw [hv, htt']
    case h_3 more happly =>
      obtain ⟨v, hv, halike', hsame'⟩ := applySymbol_alike hsame happly
      rw [hv]
      exact ih (halike.trans halike') hsame' hmarked applied

open Mtf

variable {digits rest : List (Nat × Nat)} {s : Symbols} {zeros : Nat}

private theorem zeroRun_cons {n : Nat} (pos : 0 < n) :
    ∃ digit more, digit ≤ 1 ∧ n = digit + 1 + 2 * more ∧ zeroRun n = digit :: zeroRun more := by
  by_cases hodd : n % 2 = 1
  · refine ⟨runA, (n - 1) / 2, by decide, by rw [runA]; omega, ?_⟩
    rw [zeroRun, if_neg (by omega), if_pos hodd]
  · refine ⟨runB, (n - 2) / 2, by decide, by rw [runB]; omega, ?_⟩
    rw [zeroRun, if_neg (by omega), if_neg hodd]

private theorem applySymbols_digit {digit bit : Nat} (le : digit ≤ 1)
    (fits : s.run + (digit + 1) * 2 ^ s.runBit ≤ blockSize) (room : s.runBit < 31) :
    applySymbols header blockSize ((digit, bit) :: rest) s =
      applySymbols header blockSize rest
        { s with run := s.run + (digit + 1) * 2 ^ s.runBit, runBit := s.runBit + 1 } := by
  rw [applySymbols, applySymbol, if_pos le]
  dsimp only
  rw [Nat.shiftLeft_eq, if_neg (by omega)]

/-- The digits of a run are summed up; neither limit is in the way. -/
theorem applySymbols_zeroRun (digitsOf : digits.map Prod.fst = zeroRun zeros)
    (fits : s.run + zeros * 2 ^ s.runBit ≤ blockSize)
    (small : (zeros + 1) * 2 ^ s.runBit ≤ 2 ^ 31) :
    ∃ runBit, (zeros = 0 → runBit = s.runBit) ∧
      applySymbols header blockSize (digits ++ rest) s =
        applySymbols header blockSize rest
          { s with run := s.run + zeros * 2 ^ s.runBit, runBit } := by
  induction zeros using Nat.strong_induction_on generalizing digits s with
  | h zeros ih =>
    rcases Nat.eq_zero_or_pos zeros with rfl | hpos
    · rw [zeroRun, if_pos rfl, List.map_eq_nil_iff] at digitsOf
      subst digitsOf
      exact ⟨s.runBit, fun _ => rfl, by rw [Nat.zero_mul, Nat.add_zero]; rfl⟩
    obtain ⟨digit, more, hdigit, hzeros, hrun⟩ := zeroRun_cons hpos
    rw [hrun, List.map_eq_cons_iff] at digitsOf
    obtain ⟨⟨symbol, bit⟩, later, rfl, hsymbol, hlater⟩ := digitsOf
    obtain rfl : symbol = digit := hsymbol
    have hsum : zeros * 2 ^ s.runBit =
        (symbol + 1) * 2 ^ s.runBit + more * 2 ^ (s.runBit + 1) := by
      rw [hzeros, Nat.pow_succ]
      ring
    -- a digit is worth more than what its bit takes from the room that is left
    have hroom : (more + 1) * 2 ^ (s.runBit + 1) ≤ (zeros + 1) * 2 ^ s.runBit := by
      calc (more + 1) * 2 ^ (s.runBit + 1) = (2 * more + 2) * 2 ^ s.runBit := by
            rw [Nat.pow_succ]
            ring
        _ ≤ (zeros + 1) * 2 ^ s.runBit := Nat.mul_le_mul_right _ (by omega)
    have hbit : s.runBit + 1 ≤ 31 := by
      rw [← Nat.pow_le_pow_iff_right (show 1 < 2 by decide)]
      calc 2 ^ (s.runBit + 1) ≤ (more + 1) * 2 ^ (s.runBit + 1) :=
            Nat.le_mul_of_pos_left _ (Nat.succ_pos more)
        _ ≤ 2 ^ 31 := Nat.le_trans hroom small
    rw [List.cons_append, applySymbols_digit hdigit (by omega) (by omega)]
    obtain ⟨runBit, -, happly⟩ := @ih more (by omega) later
      { s with run := s.run + (symbol + 1) * 2 ^ s.runBit, runBit := s.runBit + 1 } hlater
      (by dsimp only; omega) (Nat.le_trans hroom small)
    refine ⟨runBit, fun h => absurd h (Nat.pos_iff_ne_zero.mp hpos), ?_⟩
    rw [happly, hsum, ← Nat.add_assoc]

private theorem flushRun_pending {runBit bit : Nat} (none : zeros = 0 → runBit = 0)
    (fits : s.tt.length + zeros ≤ blockSize) :
    flushRun blockSize { s with run := zeros, runBit } bit =
      .ok { s with
        run := 0, runBit := 0, tt := s.tt ++ List.replicate zeros (s.mtf.headD 0) } := by
  rw [flushRun]
  dsimp only
  by_cases hzeros : zeros = 0
  · subst hzeros
    rw [if_neg (by simp), none rfl, List.replicate_zero, List.append_nil]
  · rw [if_pos hzeros, if_neg (by omega)]

private theorem moveToFront_value {mtf : List UInt8} {byte : UInt8} (mem : byte ∈ mtf) :
    (moveToFront mtf (mtf.idxOf byte)).1 = byte := by
  have hlt := List.idxOf_lt_length_iff.mpr mem
  show mtf.getD (mtf.idxOf byte) default = byte
  rw [List.getD_eq_getElem _ _ hlt, List.getElem_idxOf]

private theorem mem_moveToFront {mtf : List UInt8} {byte other : UInt8} (mem : byte ∈ mtf)
    (h : other ∈ mtf) : other ∈ (moveToFront mtf (mtf.idxOf byte)).2 := by
  have hvalue := moveToFront_value mem
  rw [moveToFront] at hvalue ⊢
  dsimp only at hvalue ⊢
  rw [hvalue, List.eraseIdx_idxOf_eq_erase]
  by_cases hsame : other = byte
  · exact hsame ▸ List.mem_cons_self
  · exact List.mem_cons_of_mem _ ((List.mem_erase_of_ne hsame).mpr h)

private theorem applySymbols_pending (idle : s.run = 0 ∧ s.runBit = 0) (fits : zeros ≤ blockSize)
    (small : zeros < 2 ^ 31) (digitsOf : digits.map Prod.fst = zeroRun zeros) :
    ∃ runBit, (zeros = 0 → runBit = 0) ∧ applySymbols header blockSize (digits ++ rest) s =
      applySymbols header blockSize rest { s with run := zeros, runBit } := by
  obtain ⟨hrun, hbit⟩ := idle
  obtain ⟨runBit, hnone, happly⟩ := @applySymbols_zeroRun header blockSize digits rest s zeros
    digitsOf (by rw [hrun, hbit]; omega) (by rw [hbit]; omega)
  rw [hrun, hbit, Nat.pow_zero, Nat.mul_one, Nat.zero_add] at happly
  exact ⟨runBit, fun h => (hnone h).trans hbit, happly⟩

private theorem applySymbol_index {mtf : List UInt8} {byte : UInt8} {runBit bit : Nat}
    (none : zeros = 0 → runBit = 0) (mem : byte ∈ s.mtf) (behind : s.mtf.idxOf byte ≠ 0)
    (size : s.mtf.length = header.alphabet.length)
    (fits : s.tt.length + zeros + 1 ≤ blockSize) (moved : (moveToFront s.mtf (s.mtf.idxOf byte)).2 = mtf) :
    applySymbol header blockSize (s.mtf.idxOf byte + 1) { s with run := zeros, runBit } bit =
      .ok ({ s with
        run := 0, runBit := 0, mtf,
        tt := s.tt ++ List.replicate zeros (s.mtf.headD 0) ++ [byte] }, false) := by
  have hlt := List.idxOf_lt_length_iff.mpr mem
  rw [applySymbol, if_neg (by omega), flushRun_pending none (by omega)]
  dsimp only
  rw [if_neg (by omega), Nat.add_sub_cancel, if_neg ?_]
  · rw [moveToFront_value mem, moved]
  · rw [List.length_append, List.length_replicate]
    omega

/-- The loop appends the bytes that the encoder has read, those of the pending run first. -/
theorem applySymbols_encodeFrom {block mtf : List UInt8} {marked : List (Nat × Nat)} {last : Nat}
    (marks : marked.map Prod.fst = encodeFrom block mtf zeros ++ [header.alphabet.length + 1])
    (ends : marked.getLast?.map Prod.snd = some last)
    (same : s.mtf = mtf) (idle : s.run = 0 ∧ s.runBit = 0) (known : ∀ byte ∈ block, byte ∈ mtf)
    (size : mtf.length = header.alphabet.length) (nonempty : 0 < mtf.length)
    (fits : s.tt.length + zeros + block.length ≤ blockSize)
    (small : zeros + block.length < 2 ^ 31) :
    applySymbols header blockSize marked s =
      .ok (some (s.tt ++ List.replicate zeros (mtf.headD 0) ++ block, last)) := by
  induction block generalizing mtf zeros marked s with
  | nil =>
    rw [encodeFrom] at marks
    obtain ⟨digits, rest, rfl, hdigits, hrest⟩ := List.map_eq_append_iff.mp marks
    obtain ⟨⟨symbol, bit⟩, tail, rfl, hsymbol, htail⟩ := List.map_eq_cons_iff.mp hrest
    obtain rfl : symbol = header.alphabet.length + 1 := hsymbol
    obtain rfl := List.map_eq_nil_iff.mp htail
    obtain rfl : bit = last := by simpa using ends
    rw [List.length_nil] at fits small
    obtain ⟨runBit, hnone, hpending⟩ := @applySymbols_pending header blockSize digits
      [(header.alphabet.length + 1, bit)] s zeros idle (by omega) (by omega) hdigits
    rw [hpending, applySymbols, applySymbol, if_neg (by omega), flushRun_pending hnone (by omega)]
    dsimp only
    rw [if_pos rfl, same, List.append_nil]
  | cons byte block ih =>
    have hbyte := known byte List.mem_cons_self
    rw [List.length_cons] at fits small
    rw [encodeFrom] at marks
    by_cases hindex : mtf.idxOf byte = 0
    case pos =>
      rw [if_pos hindex] at marks
      have hhead : mtf.headD 0 = byte := by
        cases mtf with
        | nil => cases hbyte
        | cons first mtf =>
          by_contra hne
          have hne : first ≠ byte := hne
          rw [List.idxOf_cons_ne _ hne] at hindex
          cases hindex
      rw [ih marks ends same idle (fun b hb => known b (List.mem_cons_of_mem byte hb)) size nonempty
        (by omega) (by omega), List.replicate_succ', hhead]
      simp only [List.append_assoc, List.singleton_append]
    case neg =>
    rw [if_neg hindex, List.append_assoc, List.cons_append] at marks
    obtain ⟨digits, rest, rfl, hdigits, hrest⟩ := List.map_eq_append_iff.mp marks
    obtain ⟨⟨symbol, bit⟩, more, rfl, hsymbol, hmore⟩ := List.map_eq_cons_iff.mp hrest
    obtain rfl : symbol = mtf.idxOf byte + 1 := hsymbol
    have hlt := List.idxOf_lt_length_iff.mpr hbyte
    have hends : more.getLast?.map Prod.snd = some last := by
      have hne : more ≠ [] := by
        rintro rfl
        exact absurd hmore.symm (by simp)
      rw [List.getLast?_append_of_ne_nil _ (List.cons_ne_nil _ _),
        List.getLast?_cons_of_ne_nil hne] at ends
      exact ends
    obtain ⟨runBit, hnone, hpending⟩ := @applySymbols_pending header blockSize digits
      ((mtf.idxOf byte + 1, bit) :: more) s zeros idle (by omega) (by omega) hdigits
    subst same
    rw [hpending, applySymbols, applySymbol_index hnone hbyte hindex size (by omega) rfl]
    dsimp only
    rw [ih hmore hends rfl ⟨rfl, rfl⟩
      (fun b hb => mem_moveToFront hbyte (known b (List.mem_cons_of_mem byte hb)))
      ((moveToFront_length hlt).trans size) ((moveToFront_length hlt).symm ▸ nonempty)
      (by simp only [List.length_append, List.length_replicate, List.length_singleton]; omega)
      (by omega)]
    simp only [List.replicate_zero, List.append_nil, List.append_assoc, List.singleton_append]

private theorem zeroRun_le_one (n : Nat) : ∀ digit ∈ zeroRun n, digit ≤ 1 := by
  induction n using Nat.strong_induction_on with
  | h n ih =>
    rcases Nat.eq_zero_or_pos n with rfl | hpos
    · rw [zeroRun, if_pos rfl]
      exact fun digit hdigit => absurd hdigit List.not_mem_nil
    · obtain ⟨first, more, hfirst, hn, hrun⟩ := zeroRun_cons hpos
      rw [hrun]
      exact List.forall_mem_cons.mpr ⟨hfirst, ih more (by omega)⟩

/-- An index is below the length of the list, so its symbol is below the end of the block. -/
theorem encodeFrom_le {block mtf : List UInt8} (nonempty : 0 < mtf.length)
    (known : ∀ byte ∈ block, byte ∈ mtf) :
    ∀ symbol ∈ encodeFrom block mtf zeros, symbol ≤ mtf.length := by
  have hrun (n symbol : Nat) (h : symbol ∈ zeroRun n) : symbol ≤ mtf.length :=
    Nat.le_trans (zeroRun_le_one n symbol h) nonempty
  induction block generalizing mtf zeros with
  | nil => exact hrun zeros
  | cons byte block ih =>
    intro symbol hsymbol
    have hlt := List.idxOf_lt_length_iff.mpr (known byte List.mem_cons_self)
    rw [encodeFrom] at hsymbol
    split at hsymbol
    case isTrue =>
      exact ih nonempty (fun b hb => known b (List.mem_cons_of_mem byte hb)) hrun symbol hsymbol
    case isFalse =>
      rcases List.mem_append.mp hsymbol with hsymbol | hsymbol
      · exact hrun zeros symbol hsymbol
      rcases List.mem_cons.mp hsymbol with rfl | hsymbol
      · exact hlt
      · have hlength := moveToFront_length hlt
        rw [← hlength]
        refine ih (hlength.symm ▸ nonempty)
          (fun b hb => mem_moveToFront (known byte List.mem_cons_self)
            (known b (List.mem_cons_of_mem byte hb))) ?_ symbol hsymbol
        intro n symbol h
        exact hlength.symm ▸ hrun n symbol h

theorem mem_inUse {block : List UInt8} {byte : UInt8} (mem : byte ∈ block) :
    byte ∈ inUse block := by
  rw [inUse, List.mem_filter]
  refine ⟨List.mem_map.mpr ⟨byte.toNat, ?_, UInt8.ofNat_toNat⟩, List.contains_iff_mem.mpr mem⟩
  exact List.mem_range.mpr byte.toNat_lt

/-- The symbols of a block end with the one end symbol, and the loop of the decoder makes the block
of them, with its limits out of the way. -/
theorem mtf_roundTrip (block : List UInt8) (nonempty : block ≠ [])
    (short : block.length ≤ 900000) :
    (∃ symbols, (encode block).syms = symbols ++ [(encode block).inUse.length + 1] ∧
      (encode block).inUse.length + 1 ∉ symbols) ∧
    (∀ symbol ∈ (encode block).syms, symbol < (encode block).inUse.length + 2) ∧
    ∀ (header : BlockHeader) (blockSize : Nat) (marked : List (Nat × Nat)) (last : Nat),
      header.alphabet = (encode block).inUse → block.length ≤ blockSize →
      marked.map Prod.fst = (encode block).syms → marked.getLast?.map Prod.snd = some last →
      applySymbols header blockSize marked { mtf := header.alphabet } = .ok (some (block, last)) ∧
      ∀ data bit,
        readSymbols data header marked.length { mtf := header.alphabet } bit = .ok marked →
        decodeSymbols data header blockSize { mtf := header.alphabet } bit = .ok (block, last) := by
  have hpos : 0 < (inUse block).length := by
    obtain ⟨byte, hbyte⟩ := List.exists_mem_of_ne_nil block nonempty
    exact List.length_pos_of_mem (mem_inUse hbyte)
  have hle := @encodeFrom_le 0 block (inUse block) hpos fun byte => mem_inUse
  refine ⟨⟨encodeFrom block (inUse block) 0, rfl, fun hmem => ?_⟩, fun symbol hsymbol => ?_, ?_⟩
  · have := hle _ hmem
    exact Nat.not_succ_le_self _ this
  · rcases List.mem_append.mp hsymbol with hsymbol | hsymbol
    · exact Nat.lt_succ_of_le (Nat.le_succ_of_le (hle symbol hsymbol))
    · rw [List.mem_singleton.mp hsymbol]
      exact Nat.lt_succ_self _
  intro header blockSize marked last halphabet hfits hmarked hlast
  have halphabet : header.alphabet = inUse block := halphabet
  have hmarked : marked.map Prod.fst =
      encodeFrom block header.alphabet 0 ++ [header.alphabet.length + 1] := by
    rw [halphabet]
    exact hmarked
  have happly := @applySymbols_encodeFrom header blockSize { mtf := header.alphabet } 0 block
    header.alphabet marked last hmarked hlast rfl ⟨rfl, rfl⟩
    (fun byte hbyte => halphabet ▸ mem_inUse hbyte) rfl (halphabet ▸ hpos)
    (by show 0 + 0 + block.length ≤ blockSize; omega) (by omega)
  refine ⟨happly, fun data bit hread => ?_⟩
  exact decodeSymbols_eq ⟨rfl, rfl, rfl⟩ ⟨rfl, rfl, rfl, rfl⟩ hread happly

/-- A run of two, another byte and the end, in two bits each. -/
theorem mtf_roundTrip_three :
    ∃ table, Huffman.build [2, 2, 2, 2] 0 = .ok table ∧
      decodeSymbols [0x6c, 0, 0] ⟨0, 0, [97, 98], [0], [table]⟩ 900000 { mtf := [97, 98] } 0 =
        .ok ([97, 97, 98], 6) := by
  refine ⟨_, rfl, ?_⟩
  refine ((mtf_roundTrip [97, 97, 98] (by decide) (by decide)).2.2 _ 900000
    [(1, 2), (2, 4), (3, 6)] 6 ?_ (by decide) ?_ rfl).2 [0x6c, 0, 0] 0 ?_
  · decide +kernel
  · decide +kernel
  · decide +kernel

end Fbz.Bzip2
