import Fbz.Bzip2.Block

/-!
# Blocks at another level

A block decoded at one level decodes the same at any level its length fits. Candidates are decoded
at level nine before the level of their stream is known.
-/

namespace Fbz.Bzip2

variable {data : List UInt8} {header : BlockHeader} {s t : Symbols} {bit next blockSize : Nat}

private theorem flushRun_eq_ok (h : flushRun blockSize s bit = .ok t) :
    t.tt.length = s.tt.length + s.run ∧ t.run = 0 := by
  unfold flushRun at h
  split at h
  case isTrue =>
    split at h
    · cases h
    · cases h
      exact ⟨by simp, rfl⟩
  case isFalse hrun =>
    cases h
    omega

private theorem flushRun_level {blockSize' : Nat} (h : flushRun blockSize s bit = .ok t)
    (fits : t.tt.length ≤ blockSize') : flushRun blockSize' s bit = .ok t := by
  have hlength := flushRun_eq_ok h
  unfold flushRun at h ⊢
  split at h
  case isTrue hrun =>
    split at h
    · cases h
    · rw [if_pos hrun, if_neg (by omega)]
      exact h
  case isFalse hrun =>
    rw [if_neg hrun]
    exact h

private theorem applySymbol_grows {symbol : Nat} {stop : Bool}
    (h : applySymbol header blockSize symbol s bit = .ok (t, stop)) :
    s.tt.length + s.run ≤ t.tt.length + t.run ∧ (stop = true → t.run = 0) := by
  unfold applySymbol at h
  split at h
  case isTrue =>
    dsimp only at h
    split at h
    · cases h
    · cases h
      exact ⟨Nat.add_le_add_left (Nat.le_add_right ..) _, nofun⟩
  case isFalse =>
    split at h
    · cases h
    · next s' hflush =>
      have hlength := flushRun_eq_ok hflush
      split at h
      · cases h
        exact ⟨by omega, fun _ => hlength.2⟩
      · split at h
        · cases h
        · cases h
          refine ⟨?_, nofun⟩
          simp only [List.length_append, List.length_singleton]
          omega

private theorem applySymbol_level {symbol blockSize' : Nat} {stop : Bool}
    (h : applySymbol header blockSize symbol s bit = .ok (t, stop))
    (fits : t.tt.length + t.run ≤ blockSize') :
    applySymbol header blockSize' symbol s bit = .ok (t, stop) := by
  unfold applySymbol at h ⊢
  split at h
  case isTrue hsymbol =>
    rw [if_pos hsymbol]
    dsimp only at h ⊢
    split at h
    · cases h
    · next hfits =>
      cases h
      dsimp only at fits
      rw [if_neg (by omega)]
  case isFalse hsymbol =>
    rw [if_neg hsymbol]
    split at h
    · cases h
    · next s' hflush =>
      have hlength := flushRun_eq_ok hflush
      split at h
      · next hend =>
        cases h
        rw [flushRun_level hflush (by omega)]
        exact if_pos hend
      · next hend =>
        split at h
        · cases h
        · next hplace =>
          cases h
          simp only [List.length_append, List.length_singleton] at fits
          rw [flushRun_level hflush (by omega)]
          dsimp only
          rw [if_neg hend, if_neg (by omega)]
          rfl

theorem decodeSymbols_eq_ok {result : List UInt8 × Nat} :
    decodeSymbols data header blockSize s bit = .ok result ↔
      ∃ s' symbol next, readSymbol data header s bit = .ok (s', symbol, next) ∧
        ∃ t stop, applySymbol header blockSize symbol s' next = .ok (t, stop) ∧
          if stop then (t.tt, next) = result
          else decodeSymbols data header blockSize t next = .ok result := by
  rw [decodeSymbols]
  constructor
  · intro h
    split at h
    · cases h
    · next s' symbol next hread =>
      split at h
      · cases h
      · next t happly => exact ⟨s', symbol, next, hread, t, true, happly, by simpa using h⟩
      · next t happly => exact ⟨s', symbol, next, hread, t, false, happly, by simpa using h⟩
  · rintro ⟨s', symbol, next, hread, t, stop, happly, h⟩
    split
    · next error herror => cases herror.symm.trans hread
    · next s'' symbol' next' hread' =>
      cases hread'.symm.trans hread
      cases stop with
      | true => rw [happly]; simpa using h
      | false => rw [happly]; simpa using h

/-- A run of the symbol loop, one symbol at a time from its end. -/
theorem decodeSymbols_induction {bytes : List UInt8} {final : Nat}
    {motive : Symbols → Nat → Prop}
    (last : ∀ s bit s' symbol t, readSymbol data header s bit = .ok (s', symbol, final) →
      applySymbol header blockSize symbol s' final = .ok (t, true) → t.tt = bytes → motive s bit)
    (step : ∀ s bit s' symbol next t, readSymbol data header s bit = .ok (s', symbol, next) →
      applySymbol header blockSize symbol s' next = .ok (t, false) →
      decodeSymbols data header blockSize t next = .ok (bytes, final) → motive t next →
      motive s bit)
    (h : decodeSymbols data header blockSize s bit = .ok (bytes, final)) : motive s bit := by
  generalize hleft : data.length * 8 - bit = left
  induction left using Nat.strongRecOn generalizing s bit with
  | ind left ih =>
    obtain ⟨s', symbol, next, hread, t, stop, happly, hrest⟩ := decodeSymbols_eq_ok.mp h
    have hnext := readSymbol_next hread
    cases stop with
    | true =>
      obtain ⟨htt, rfl⟩ := Prod.mk.inj hrest
      exact last s bit s' symbol t hread happly htt
    | false =>
      exact step s bit s' symbol next t hread happly hrest
        (ih (data.length * 8 - next) (by omega) hrest rfl)

private theorem readSymbol_keeps {symbol : Nat}
    (h : readSymbol data header s bit = .ok (t, symbol, next)) : t.tt = s.tt ∧ t.run = s.run := by
  obtain ⟨s', hselect, h⟩ := result_bind_eq_ok.mp h
  obtain ⟨table, -, h⟩ := result_bind_eq_ok.mp h
  obtain ⟨⟨symbol', next'⟩, -, heq⟩ := result_bind_eq_ok.mp h
  cases heq
  unfold selectTable at hselect
  split at hselect
  · split at hselect
    · cases hselect
    · cases hselect
      exact ⟨rfl, rfl⟩
  · cases hselect
    exact ⟨rfl, rfl⟩

private theorem decodeSymbols_grows {bytes : List UInt8} {final : Nat}
    (h : decodeSymbols data header blockSize s bit = .ok (bytes, final)) :
    s.tt.length + s.run ≤ bytes.length := by
  refine decodeSymbols_induction (motive := fun s _ => s.tt.length + s.run ≤ bytes.length)
    (fun s bit s' symbol t hread happly htt => ?_)
    (fun s bit s' symbol next t hread happly _ ih => ?_) h
  · have hgrows := applySymbol_grows happly
    have hkeeps := readSymbol_keeps hread
    have hrun := hgrows.2 rfl
    rw [← htt, ← hkeeps.1, ← hkeeps.2]
    omega
  · have hgrows := applySymbol_grows happly
    have hkeeps := readSymbol_keeps hread
    rw [← hkeeps.1, ← hkeeps.2]
    omega

private theorem applySymbol_fits {symbol : Nat} {stop : Bool}
    (h : applySymbol header blockSize symbol s bit = .ok (t, stop)) (fits : s.tt.length ≤ blockSize) :
    t.tt.length ≤ blockSize := by
  unfold applySymbol at h
  split at h
  · dsimp only at h
    split at h
    · cases h
    · cases h
      exact fits
  · split at h
    · cases h
    · next u hflush =>
      have hflushed : u.tt.length ≤ blockSize := by
        unfold flushRun at hflush
        split at hflush
        · split at hflush
          · cases hflush
          · cases hflush
            simp only [List.length_append, List.length_replicate]
            omega
        · cases hflush
          exact fits
      split at h
      · cases h
        exact hflushed
      · split at h
        · cases h
        · next hroom =>
          cases h
          simp only [List.length_append, List.length_singleton]
          omega

theorem decodeSymbols_fits {bytes : List UInt8} {final : Nat}
    (h : decodeSymbols data header blockSize s bit = .ok (bytes, final))
    (fits : s.tt.length ≤ blockSize) : bytes.length ≤ blockSize := by
  refine decodeSymbols_induction
    (motive := fun s _ => s.tt.length ≤ blockSize → bytes.length ≤ blockSize)
    (fun s bit s' symbol t hread happly htt fits => ?_)
    (fun s bit s' symbol next t hread happly _ ih fits => ?_) h fits
  · rw [← htt]
    exact applySymbol_fits happly ((readSymbol_keeps hread).1 ▸ fits)
  · exact ih (applySymbol_fits happly ((readSymbol_keeps hread).1 ▸ fits))

private theorem decodeSymbols_level {bytes : List UInt8} {final blockSize' : Nat}
    (h : decodeSymbols data header blockSize s bit = .ok (bytes, final))
    (fits : bytes.length ≤ blockSize') :
    decodeSymbols data header blockSize' s bit = .ok (bytes, final) := by
  refine decodeSymbols_induction
    (motive := fun s bit => decodeSymbols data header blockSize' s bit = .ok (bytes, final))
    (fun s bit s' symbol t hread happly htt => ?_)
    (fun s bit s' symbol next t hread happly hrest ih => ?_) h
  · have hrun := (applySymbol_grows happly).2 rfl
    have hfits : t.tt.length + t.run ≤ blockSize' := by
      rw [htt, hrun, Nat.add_zero]
      exact fits
    have hsame := applySymbol_level happly hfits
    exact decodeSymbols_eq_ok.mpr ⟨s', symbol, final, hread, t, true, hsame, by simp [htt]⟩
  · have hgrows := decodeSymbols_grows hrest
    have hsame := applySymbol_level happly (Nat.le_trans hgrows fits)
    exact decodeSymbols_eq_ok.mpr ⟨s', symbol, next, hread, t, false, hsame, by simpa using ih⟩

private theorem decodeSymbols_next {result : List UInt8 × Nat}
    (h : decodeSymbols data header blockSize s bit = .ok result) :
    bit < result.2 ∧ result.2 ≤ data.length * 8 := by
  obtain ⟨bytes, final⟩ := result
  refine decodeSymbols_induction (motive := fun _ bit => bit < final ∧ final ≤ data.length * 8)
    (fun s bit s' symbol t hread _ _ => readSymbol_next hread)
    (fun s bit s' symbol next t hread _ _ ih => ?_) h
  have := readSymbol_next hread
  omega

section Runs

variable {maxOutput maxOutput' blockOffset : Nat} {x y : Expansion} {byte : UInt8}
  {bytes output : List UInt8}

theorem expandByte_grows (h : expandByte maxOutput blockOffset x byte = .ok y) :
    x.output.length ≤ y.output.length ∧
      5 * y.output.length + 254 * y.repeated ≤ 5 * x.output.length + 254 * x.repeated + 259 := by
  have hbyte := byte.toNat_lt
  unfold expandByte at h
  split at h
  case isTrue hfour =>
    split at h
    · cases h
    · cases h
      simp only [List.length_append, List.length_replicate]
      omega
  case isFalse =>
    split at h
    · cases h
    · cases h
      simp only [List.length_append, List.length_singleton]
      split <;> omega

private theorem expandByte_level (h : expandByte maxOutput blockOffset x byte = .ok y)
    (fits : y.output.length ≤ maxOutput') : expandByte maxOutput' blockOffset x byte = .ok y := by
  unfold expandByte at h ⊢
  split at h
  case isTrue hfour =>
    rw [if_pos hfour]
    split at h
    · cases h
    · cases h
      simp only [List.length_append, List.length_replicate] at fits
      rw [if_neg (by omega)]
  case isFalse hfour =>
    rw [if_neg hfour]
    split at h
    · cases h
    · cases h
      simp only [List.length_append, List.length_singleton] at fits
      rw [if_neg (by omega)]

private theorem expandBytes_grows (h : expandBytes maxOutput blockOffset x bytes = .ok output) :
    x.output.length ≤ output.length := by
  induction bytes generalizing x with
  | nil =>
    cases h
    exact Nat.le_refl _
  | cons byte rest ih =>
    obtain ⟨y, hbyte, h⟩ := result_bind_eq_ok.mp h
    exact Nat.le_trans (expandByte_grows hbyte).1 (ih h)

theorem expandBytes_bound (h : expandBytes maxOutput blockOffset x bytes = .ok output) :
    5 * output.length ≤ 5 * x.output.length + 254 * x.repeated + 259 * bytes.length := by
  induction bytes generalizing x with
  | nil =>
    cases h
    omega
  | cons byte rest ih =>
    obtain ⟨y, hbyte, h⟩ := result_bind_eq_ok.mp h
    have hgrows := (expandByte_grows hbyte).2
    have := ih h
    rw [List.length_cons]
    omega

private theorem expandBytes_level (h : expandBytes maxOutput blockOffset x bytes = .ok output)
    (fits : output.length ≤ maxOutput') :
    expandBytes maxOutput' blockOffset x bytes = .ok output := by
  induction bytes generalizing x with
  | nil => exact h
  | cons byte rest ih =>
    obtain ⟨y, hbyte, h⟩ := result_bind_eq_ok.mp h
    rw [expandBytes, expandByte_level hbyte (Nat.le_trans (expandBytes_grows h) fits)]
    exact ih h

private theorem expandBytes_pos (h : expandBytes maxOutput blockOffset {} bytes = .ok output)
    (ne : bytes ≠ []) : 0 < output.length := by
  cases bytes with
  | nil => exact absurd rfl ne
  | cons byte rest =>
    obtain ⟨y, hbyte, h⟩ := result_bind_eq_ok.mp h
    have hgrows := expandBytes_grows h
    unfold expandByte at hbyte
    rw [if_neg (by decide)] at hbyte
    split at hbyte
    · cases hbyte
    · cases hbyte
      simp only [List.length_append, List.length_singleton] at hgrows
      omega

end Runs

private theorem walk_length (tt : List Nat) (count position : Nat) :
    (walk tt count position).length = count := by
  induction count generalizing position with
  | zero => rfl
  | succ count ih => rw [walk, List.length_cons, ih]

theorem inverseTransform_length (bytes : List UInt8) (origin : Nat) :
    (inverseTransform bytes origin).length = bytes.length := walk_length ..

section Blocks

variable {blockOffset level level' : Nat} {expectedCrc : Option UInt32} {block : DecodedBlock}

private theorem readAlphabet_next {groups : Nat} {words : List Nat} {alphabet : List UInt8}
    (h : readAlphabet data groups words bit = .ok (alphabet, next)) : bit ≤ next := by
  induction words generalizing alphabet bit with
  | nil =>
    cases h
    exact Nat.le_refl _
  | cons word rest ih =>
    rw [readAlphabet] at h
    split at h
    · obtain ⟨⟨values, bit'⟩, hread, h⟩ := result_bind_eq_ok.mp h
      obtain ⟨⟨others, bit''⟩, hrest, heq⟩ := result_bind_eq_ok.mp h
      cases heq
      have := Bits.read_next hread
      have := ih hrest
      omega
    · exact ih h

private theorem readSelectorIndex_next {left index : Nat} {found : Nat}
    (h : readSelectorIndex data left index bit = .ok (found, next)) : bit ≤ next := by
  induction left generalizing index bit with
  | zero => cases h
  | succ left ih =>
    obtain ⟨⟨more, bit'⟩, hread, h⟩ := result_bind_eq_ok.mp h
    have hnext := Bits.readBit_next hread
    dsimp only at h
    split at h
    · split at h
      · cases h
      · have := ih h
        omega
    · cases h
      omega

private theorem readSelectors_next {tableCount count : Nat} {selectorMtf selectors : List Nat}
    (h : readSelectors data tableCount count selectorMtf bit = .ok (selectors, next)) :
    bit ≤ next := by
  induction count generalizing selectorMtf selectors bit with
  | zero =>
    cases h
    exact Nat.le_refl _
  | succ count ih =>
    obtain ⟨⟨index, bit'⟩, hread, h⟩ := result_bind_eq_ok.mp h
    obtain ⟨⟨others, bit''⟩, hrest, heq⟩ := result_bind_eq_ok.mp h
    cases heq
    have := readSelectorIndex_next hread
    have := ih hrest
    omega

private theorem readLength_next {current length : Int}
    (h : readLength data current bit = .ok (length, next)) : bit ≤ next := by
  generalize hleft : data.length * 8 - bit = left
  induction left using Nat.strongRecOn generalizing current bit with
  | ind left ih =>
    rw [readLength] at h
    split at h
    case isFalse => cases h
    case isTrue =>
      split at h
      · cases h
      · next hread =>
        cases h
        have := Bits.readBit_next hread
        omega
      · next bit' hread =>
        have hnext := Bits.readBit_next hread
        split at h
        · cases h
        · next hread' =>
          have hnext' := Bits.readBit_next hread'
          have := ih _ (by omega) h rfl
          omega

private theorem readLengths_next {count : Nat} {current : Int} {lengths : List Nat}
    (h : readLengths data count current bit = .ok (lengths, next)) : bit ≤ next := by
  induction count generalizing current lengths bit with
  | zero =>
    cases h
    exact Nat.le_refl _
  | succ count ih =>
    obtain ⟨⟨length, bit'⟩, hread, h⟩ := result_bind_eq_ok.mp h
    obtain ⟨⟨others, bit''⟩, hrest, heq⟩ := result_bind_eq_ok.mp h
    cases heq
    have := readLength_next hread
    have := ih hrest
    omega

private theorem readTables_next {alphaSize count : Nat} {tables : List Huffman}
    (h : readTables data alphaSize count bit = .ok (tables, next)) : bit ≤ next := by
  induction count generalizing tables bit with
  | zero =>
    cases h
    exact Nat.le_refl _
  | succ count ih =>
    obtain ⟨⟨current, bit1⟩, hread, h⟩ := result_bind_eq_ok.mp h
    obtain ⟨⟨lengths, bit2⟩, hlengths, h⟩ := result_bind_eq_ok.mp h
    obtain ⟨table, -, h⟩ := result_bind_eq_ok.mp h
    obtain ⟨⟨others, bit3⟩, hrest, heq⟩ := result_bind_eq_ok.mp h
    cases heq
    have := Bits.read_next hread
    have := readLengths_next hlengths
    have := ih hrest
    omega

private theorem readHeader_eq_ok
    (h : readHeader data blockOffset expectedCrc bit = .ok (header, next)) :
    bit ≤ next ∧ (∀ crc, expectedCrc = some crc → header.storedCrc = crc) ∧
      readHeader data blockOffset (some header.storedCrc) bit = .ok (header, next) := by
  simp only [readHeader, result_bind_eq_ok, ensure_eq_ok] at h
  obtain ⟨⟨crc, bit1⟩, hcrc, _, hexpected, ⟨randomized, bit2⟩, hrandomized, _, hplain,
    ⟨origin, bit3⟩, horigin, ⟨groups, bit4⟩, hgroups, ⟨alphabet, bit5⟩, halphabet, _, hused,
    ⟨tableCount, bit6⟩, htables, _, hcount, ⟨selectorCount, bit7⟩, hselectors, _, hsome,
    ⟨selectors, bit8⟩, hread, ⟨tables, bit9⟩, hbuild, heq⟩ := h
  cases heq
  refine ⟨?_, fun crc hsome => ?_, ?_⟩
  · have := Bits.read_next hcrc
    have := Bits.readBit_next hrandomized
    have := Bits.read_next horigin
    have := Bits.read_next hgroups
    have := readAlphabet_next halphabet
    have := Bits.read_next htables
    have := Bits.read_next hselectors
    have := readSelectors_next hread
    have := readTables_next hbuild
    dsimp only at *
    omega
  · rcases hexpected with hnone | hexpected
    · cases hnone.symm.trans hsome
    · exact (Option.some.inj (hsome.symm.trans hexpected)).symm
  · simp only [readHeader, result_bind_eq_ok, ensure_eq_ok]
    exact ⟨_, hcrc, (), .inr rfl, _, hrandomized, (), hplain, _, horigin, _, hgroups, _, halphabet,
      (), hused, _, htables, (), hcount, _, hselectors, (), hsome, _, hread, _, hbuild, rfl⟩

private theorem decoderBlock_level (h : decoderBlock data bit level expectedCrc = .ok (block, next))
    (fits : block.blockLen ≤ level' * 100000) :
    decoderBlock data bit level' (some block.storedCrc) = .ok (block, next) := by
  simp only [decoderBlock, result_bind_eq_ok, ensure_eq_ok] at h ⊢
  obtain ⟨⟨header, bit1⟩, hheader, ⟨bytes, bit2⟩, hsymbols, _, horigin, output, hexpand, _, hcrc,
    heq⟩ := h
  cases heq
  have hbound := expandBytes_bound hexpand
  rw [inverseTransform_length] at hbound
  dsimp only at fits hbound horigin hcrc hexpand
  refine ⟨_, (readHeader_eq_ok hheader).2.2, _, decodeSymbols_level hsymbols fits, (), horigin, output,
    expandBytes_level hexpand ?_, (), hcrc, rfl⟩
  simp only [List.length_nil] at hbound
  omega

theorem decoderBlock_next (h : decoderBlock data bit level expectedCrc = .ok (block, next)) :
    bit < next ∧ next ≤ data.length * 8 ∧ 0 < block.output.length ∧
      ∀ crc, expectedCrc = some crc → block.storedCrc = crc := by
  simp only [decoderBlock, result_bind_eq_ok, ensure_eq_ok] at h
  obtain ⟨⟨header, bit1⟩, hheader, ⟨bytes, bit2⟩, hsymbols, _, horigin, output, hexpand, _, -,
    heq⟩ := h
  cases heq
  obtain ⟨hle, hexpected, -⟩ := readHeader_eq_ok hheader
  have hnext := decodeSymbols_next hsymbols
  have hne : inverseTransform bytes header.origin ≠ [] := fun hnil => by
    have := inverseTransform_length bytes header.origin
    rw [hnil] at this
    exact horigin.1 this.symm
  exact ⟨by dsimp only at *; omega, hnext.2, expandBytes_pos hexpand hne, hexpected⟩

end Blocks

/-- A decoded candidate is a block of the input. -/
structure IsBlock (data : List UInt8) (startBit : Nat) (crc : UInt32) (candidate : DecodedCandidate)
    (output : List UInt8) : Prop where
  advances : startBit + 48 < candidate.endBit
  inside : candidate.endBit ≤ data.length * 8
  nonempty : 0 < candidate.decodedLen
  length : output.length = candidate.decodedLen
  replay : ∀ level, 1 ≤ level → level ≤ 9 → candidate.blockLen ≤ level * 100000 →
    decodeBlock data startBit candidate.endBit level crc = .ok output

theorem decodeCandidate_isBlock {startBit : Nat} {crc : UInt32} {candidate : DecodedCandidate}
    (h : decodeCandidate data startBit crc = .ok candidate) :
    IsBlock data startBit crc candidate candidate.output := by
  simp only [decodeCandidate, result_bind_eq_ok, ensure_eq_ok] at h
  obtain ⟨bit, hstart, ⟨magic, bit1⟩, hmagic, _, heqMagic, ⟨block, bit2⟩, hblock, heq⟩ := h
  cases heq
  obtain ⟨_, hensure, hstartEq⟩ := result_bind_eq_ok.mp hstart
  obtain rfl : startBit = bit := Except.ok.inj hstartEq
  have hmagicNext := Bits.magic_next hmagic
  obtain ⟨hnext, hinside, hpos, hcrc⟩ := decoderBlock_next hblock
  dsimp only at hnext hinside
  refine ⟨by dsimp only; omega, hinside, hpos, rfl, fun level hlo hhi fits => ?_⟩
  have hsame := decoderBlock_level hblock fits
  rw [hcrc crc rfl] at hsame
  simp only [decodeBlock, result_bind_eq_ok, ensure_eq_ok]
  exact ⟨(), ⟨⟨hlo, hhi⟩, by omega⟩, _, hstart, _, hmagic, (), heqMagic, _, hsame, (),
    rfl, rfl⟩

theorem decodeFirstCandidate_eq_ok {crc : UInt32} {candidate : DecodedCandidate}
    (h : decodeFirstCandidate data = .ok (crc, candidate)) :
    decodeCandidate data 32 crc = .ok candidate := by
  simp only [decodeFirstCandidate, result_bind_eq_ok, ensure_eq_ok] at h
  obtain ⟨bit, hstart, ⟨magic, bit1⟩, hmagic, _, heqMagic, ⟨block, bit2⟩, hblock, heq⟩ := h
  cases heq
  simp only [decodeCandidate, result_bind_eq_ok, ensure_eq_ok]
  have hsame : decoderBlock data bit1 9 (some block.storedCrc) = .ok (block, bit2) := by
    simp only [decoderBlock, result_bind_eq_ok, ensure_eq_ok] at hblock ⊢
    obtain ⟨⟨header, bit3⟩, hheader, ⟨bytes, bit4⟩, hsymbols, _, horigin, output, hexpand, _, hcrc,
      heq⟩ := hblock
    cases heq
    exact ⟨_, (readHeader_eq_ok hheader).2.2, _, hsymbols, (), horigin, output, hexpand, (), hcrc,
      rfl⟩
  exact ⟨_, hstart, _, hmagic, (), heqMagic, _, hsame, rfl⟩

end Fbz.Bzip2
