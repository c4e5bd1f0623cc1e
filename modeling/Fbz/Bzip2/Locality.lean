import Fbz.Bzip2.HuffmanCodes
import Fbz.Bzip2.Serial
import Fbz.Embedded

/-!
# Streams inside a longer input

A stream is decoded from its own bits: whatever stands before and behind it, it is decoded to the
same bytes.
-/

namespace Fbz.Bzip2

open BitOrder CanonicalCode

variable {front data back : List UInt8} {bit next : Nat}

private theorem streamBit_embed (lt : bit < data.length * 8) :
    streamBit (front ++ data ++ back) (8 * front.length + bit) = streamBit data bit := by
  rw [streamBit, streamBit, show (8 * front.length + bit) / 8 = front.length + bit / 8 by omega,
    show (8 * front.length + bit) % 8 = bit % 8 by omega, getD_embed (by omega)]

private theorem highFirst_embed {count : Nat} (le : bit + count ≤ data.length * 8) :
    highFirst (streamBit (front ++ data ++ back)) (8 * front.length + bit) count =
      highFirst (streamBit data) bit count :=
  highFirst_congr fun i hi => by
    rw [Nat.add_assoc]
    exact streamBit_embed (by omega)

namespace Bits

private theorem alignByte_embed (offset bit : Nat) :
    alignByte (8 * offset + bit) = 8 * offset + alignByte bit := by
  unfold alignByte
  omega

private theorem read_embed {count value : Nat} (pos : 0 < count) (few : count ≤ 32)
    (h : read data bit count = .ok (value, next)) :
    read (front ++ data ++ back) (8 * front.length + bit) count =
      .ok (value, 8 * front.length + next) := by
  rw [read_eq pos few] at h ⊢
  split at h
  case isFalse => cases h
  case isTrue hfits =>
    cases h
    rw [Nat.add_assoc, if_pos (bits_embed_le hfits), highFirst_embed hfits]

private theorem readBit_embed {value : Bool} (h : readBit data bit = .ok (value, next)) :
    readBit (front ++ data ++ back) (8 * front.length + bit) =
      .ok (value, 8 * front.length + next) := by
  obtain ⟨⟨found, after⟩, hread, heq⟩ := result_bind_eq_ok.mp h
  cases heq
  exact result_bind_eq_ok.mpr ⟨_, read_embed (by decide) (by decide) hread, rfl⟩

private theorem magic_embed {value : Nat} (h : magic data bit = .ok (value, next)) :
    magic (front ++ data ++ back) (8 * front.length + bit) =
      .ok (value, 8 * front.length + next) := by
  obtain ⟨⟨high, after⟩, hhigh, h⟩ := result_bind_eq_ok.mp h
  obtain ⟨⟨low, after'⟩, hlow, heq⟩ := result_bind_eq_ok.mp h
  cases heq
  exact result_bind_eq_ok.mpr ⟨_, read_embed (by decide) (by decide) hhigh,
    result_bind_eq_ok.mpr ⟨_, read_embed (by decide) (by decide) hlow, rfl⟩⟩

end Bits

/-- A table that was built from some lengths. -/
def Huffman.Canonical (huffman : Huffman) : Prop := ∃ lengths, huffman.IsBuilt lengths

private theorem Huffman.Canonical.decode_embed {huffman : Huffman} {symbol : Nat}
    (canonical : huffman.Canonical) (h : huffman.decode data bit = .ok (symbol, next)) :
    huffman.decode (front ++ data ++ back) (8 * front.length + bit) =
      .ok (symbol, 8 * front.length + next) := by
  obtain ⟨lengths, hbuilt⟩ := canonical
  rw [hbuilt.decode_eq_searchFrom, hbuilt.searchFrom_iff] at h ⊢
  obtain ⟨length, hlength, rfl, hfits, hcode⟩ := h
  exact ⟨length, hlength, (Nat.add_assoc ..).symm, bits_embed_le hfits,
    (highFirst_embed hfits).trans hcode⟩

private theorem readAlphabet_embed {groups : Nat} {words : List Nat} {alphabet : List UInt8}
    (h : readAlphabet data groups words bit = .ok (alphabet, next)) :
    readAlphabet (front ++ data ++ back) groups words (8 * front.length + bit) =
      .ok (alphabet, 8 * front.length + next) := by
  induction words generalizing alphabet bit with
  | nil =>
    cases h
    rfl
  | cons word rest ih =>
    rw [readAlphabet] at h ⊢
    split at h
    case isTrue hused =>
      rw [if_pos hused]
      obtain ⟨⟨values, after⟩, hread, h⟩ := result_bind_eq_ok.mp h
      obtain ⟨⟨others, after'⟩, hrest, heq⟩ := result_bind_eq_ok.mp h
      cases heq
      exact result_bind_eq_ok.mpr ⟨_, Bits.read_embed (by decide) (by decide) hread,
        result_bind_eq_ok.mpr ⟨_, ih hrest, rfl⟩⟩
    case isFalse hunused =>
      rw [if_neg hunused]
      exact ih h

private theorem readSelectorIndex_embed {left index found : Nat}
    (h : readSelectorIndex data left index bit = .ok (found, next)) :
    readSelectorIndex (front ++ data ++ back) left index (8 * front.length + bit) =
      .ok (found, 8 * front.length + next) := by
  induction left generalizing index bit with
  | zero => cases h
  | succ left ih =>
    obtain ⟨⟨more, after⟩, hread, h⟩ := result_bind_eq_ok.mp h
    refine result_bind_eq_ok.mpr ⟨_, Bits.readBit_embed hread, ?_⟩
    dsimp only at h ⊢
    split at h
    case isTrue hmore =>
      rw [if_pos hmore]
      split at h
      · cases h
      · next hleft =>
        rw [if_neg hleft]
        exact ih h
    case isFalse hdone =>
      cases h
      exact if_neg hdone

private theorem readSelectors_embed {tableCount count : Nat} {selectorMtf selectors : List Nat}
    (h : readSelectors data tableCount count selectorMtf bit = .ok (selectors, next)) :
    readSelectors (front ++ data ++ back) tableCount count selectorMtf (8 * front.length + bit) =
      .ok (selectors, 8 * front.length + next) := by
  induction count generalizing selectorMtf selectors bit with
  | zero =>
    cases h
    rfl
  | succ count ih =>
    obtain ⟨⟨index, after⟩, hread, h⟩ := result_bind_eq_ok.mp h
    obtain ⟨⟨others, after'⟩, hrest, heq⟩ := result_bind_eq_ok.mp h
    cases heq
    exact result_bind_eq_ok.mpr ⟨_, readSelectorIndex_embed hread,
      result_bind_eq_ok.mpr ⟨_, ih hrest, rfl⟩⟩

theorem readLength_eq (data : List UInt8) (current : Int) (bit : Nat) :
    readLength data current bit =
      if 1 ≤ current ∧ current ≤ maxCodeLen then
        match Bits.readBit data bit with
        | .error error => .error error
        | .ok (false, next) => .ok (current, next)
        | .ok (true, next) =>
          match Bits.readBit data next with
          | .error error => .error error
          | .ok (down, next) => readLength data (if down then current - 1 else current + 1) next
      else .error (decodeError bit .invalidHuffman) := by
  rw [readLength]
  split
  · split
    · simp only [*]
    · simp only [*]
    · simp only [*]
      split <;> simp only [*]
  · rfl

private theorem readLength_embed {current length : Int}
    (h : readLength data current bit = .ok (length, next)) :
    readLength (front ++ data ++ back) current (8 * front.length + bit) =
      .ok (length, 8 * front.length + next) := by
  induction current, bit using readLength.induct data with
  | case1 current bit hrange error hread => simp [readLength_eq, hrange, hread] at h
  | case2 current bit hrange after hread =>
    rw [readLength_eq, if_pos hrange, hread] at h
    cases h
    rw [readLength_eq, if_pos hrange, Bits.readBit_embed hread]
  | case3 current bit hrange after hread error hread' =>
    simp [readLength_eq, hrange, hread, hread'] at h
  | case4 current bit hrange after hread down after' hread' ih =>
    rw [readLength_eq, if_pos hrange, hread] at h
    simp only [hread'] at h
    rw [readLength_eq, if_pos hrange, Bits.readBit_embed hread]
    simp only [Bits.readBit_embed hread']
    exact ih h
  | case5 current bit hrange => simp [readLength_eq, hrange] at h

private theorem readLengths_embed {count : Nat} {current : Int} {lengths : List Nat}
    (h : readLengths data count current bit = .ok (lengths, next)) :
    readLengths (front ++ data ++ back) count current (8 * front.length + bit) =
      .ok (lengths, 8 * front.length + next) := by
  induction count generalizing current lengths bit with
  | zero =>
    cases h
    rfl
  | succ count ih =>
    obtain ⟨⟨length, after⟩, hread, h⟩ := result_bind_eq_ok.mp h
    obtain ⟨⟨others, after'⟩, hrest, heq⟩ := result_bind_eq_ok.mp h
    cases heq
    exact result_bind_eq_ok.mpr ⟨_, readLength_embed hread,
      result_bind_eq_ok.mpr ⟨_, ih hrest, rfl⟩⟩

private theorem Huffman.build_at {lengths : List Nat} {bitOffset : Nat} {huffman : Huffman}
    (h : build lengths bitOffset = .ok huffman) (bitOffset' : Nat) :
    build lengths bitOffset' = .ok huffman := by
  unfold build at h ⊢
  split at h
  case h_2 => cases h
  case h_1 minLen maxLen hmin hmax =>
    split at h
    case isTrue => cases h
    case isFalse hrange =>
      split at h
      case isTrue => cases h
      case isFalse hover =>
        rw [dif_neg hrange, if_neg hover]
        exact h

private theorem readTables_embed {alphaSize count : Nat} {tables : List Huffman}
    (h : readTables data alphaSize count bit = .ok (tables, next)) :
    readTables (front ++ data ++ back) alphaSize count (8 * front.length + bit) =
        .ok (tables, 8 * front.length + next) ∧ ∀ table ∈ tables, table.Canonical := by
  induction count generalizing tables bit with
  | zero =>
    cases h
    exact ⟨rfl, nofun⟩
  | succ count ih =>
    obtain ⟨⟨current, bit1⟩, hread, h⟩ := result_bind_eq_ok.mp h
    obtain ⟨⟨lengths, bit2⟩, hlengths, h⟩ := result_bind_eq_ok.mp h
    obtain ⟨table, hbuild, h⟩ := result_bind_eq_ok.mp h
    obtain ⟨⟨others, bit3⟩, hrest, heq⟩ := result_bind_eq_ok.mp h
    cases heq
    obtain ⟨hrest', hcanonical⟩ := ih hrest
    refine ⟨result_bind_eq_ok.mpr ⟨_, Bits.read_embed (by decide) (by decide) hread,
      result_bind_eq_ok.mpr ⟨_, readLengths_embed hlengths, result_bind_eq_ok.mpr
        ⟨table, Huffman.build_at hbuild _, result_bind_eq_ok.mpr ⟨_, hrest', rfl⟩⟩⟩⟩, ?_⟩
    intro other hmem
    rcases List.mem_cons.mp hmem with rfl | hmem
    · exact ⟨lengths, Huffman.build_eq_ok hbuild⟩
    · exact hcanonical other hmem

private theorem readHeader_embed {blockOffset : Nat} {expectedCrc : Option UInt32}
    {header : BlockHeader}
    (blockOffset' : Nat) (h : readHeader data blockOffset expectedCrc bit = .ok (header, next)) :
    readHeader (front ++ data ++ back) blockOffset' expectedCrc (8 * front.length + bit) =
        .ok (header, 8 * front.length + next) ∧
      ∀ table ∈ header.tables, table.Canonical := by
  simp only [readHeader, result_bind_eq_ok] at h ⊢
  obtain ⟨⟨crc, bit1⟩, hcrc, _, hexpected, ⟨randomized, bit2⟩, hrandomized, _, hplain,
    ⟨origin, bit3⟩, horigin, ⟨groups, bit4⟩, hgroups, ⟨alphabet, bit5⟩, halphabet, _, hused,
    ⟨tableCount, bit6⟩, htables, _, hcount, ⟨selectorCount, bit7⟩, hselectors, _, hsome,
    ⟨selectors, bit8⟩, hread, ⟨tables, bit9⟩, hbuild, heq⟩ := h
  cases heq
  rw [ensure_eq_ok] at hexpected hplain hused hcount hsome
  obtain ⟨hbuild', hcanonical⟩ := @readTables_embed front _ back _ _ _ _ _ hbuild
  exact ⟨⟨_, Bits.read_embed (by decide) (by decide) hcrc, (), ensure_of hexpected, _,
    Bits.readBit_embed hrandomized, (), ensure_of hplain, _,
    Bits.read_embed (by decide) (by decide) horigin, _,
    Bits.read_embed (by decide) (by decide) hgroups, _, readAlphabet_embed halphabet, (),
    ensure_of hused, _, Bits.read_embed (by decide) (by decide) htables, (), ensure_of hcount, _,
    Bits.read_embed (by decide) (by decide) hselectors, (), ensure_of hsome, _,
    readSelectors_embed hread, _, hbuild', rfl⟩, hcanonical⟩

private theorem selectTable_at {header : BlockHeader} {s t : Symbols}
    (h : selectTable header s bit = .ok t) (bit' : Nat) : selectTable header s bit' = .ok t := by
  unfold selectTable at h ⊢
  split at h
  case isTrue hempty =>
    rw [if_pos hempty]
    split at h
    · cases h
    · exact h
  case isFalse hleft =>
    rw [if_neg hleft]
    exact h

private theorem readSymbol_embed {header : BlockHeader} {s t : Symbols} {symbol : Nat}
    (canonical : ∀ table ∈ header.tables, table.Canonical)
    (h : readSymbol data header s bit = .ok (t, symbol, next)) :
    readSymbol (front ++ data ++ back) header s (8 * front.length + bit) =
      .ok (t, symbol, 8 * front.length + next) := by
  obtain ⟨s', hselect, h⟩ := result_bind_eq_ok.mp h
  obtain ⟨table, htable, h⟩ := result_bind_eq_ok.mp h
  obtain ⟨⟨symbol', next'⟩, hdecode, heq⟩ := result_bind_eq_ok.mp h
  cases heq
  rw [okOr_eq_ok] at htable
  exact result_bind_eq_ok.mpr ⟨_, selectTable_at hselect _, result_bind_eq_ok.mpr
    ⟨table, okOr_eq_ok.mpr htable, result_bind_eq_ok.mpr
      ⟨_, (canonical table (List.mem_of_getElem? htable)).decode_embed hdecode, rfl⟩⟩⟩

private theorem flushRun_at {blockSize : Nat} {s t : Symbols} (h : flushRun blockSize s bit = .ok t)
    (bit' : Nat) : flushRun blockSize s bit' = .ok t := by
  unfold flushRun at h ⊢
  split at h
  case isTrue hrun =>
    rw [if_pos hrun]
    split at h
    · cases h
    · next hfits =>
      rw [if_neg hfits]
      exact h
  case isFalse hrun =>
    rw [if_neg hrun]
    exact h

private theorem applySymbol_at {header : BlockHeader} {blockSize symbol : Nat} {s : Symbols}
    {result : Symbols × Bool} (h : applySymbol header blockSize symbol s bit = .ok result)
    (bit' : Nat) : applySymbol header blockSize symbol s bit' = .ok result := by
  unfold applySymbol at h ⊢
  split at h
  case isTrue hsymbol =>
    rw [if_pos hsymbol]
    dsimp only at h ⊢
    split at h
    · cases h
    · next hfits =>
      rw [if_neg hfits]
      exact h
  case isFalse hsymbol =>
    rw [if_neg hsymbol]
    split at h
    · cases h
    · next s' hflush =>
      rw [flushRun_at hflush bit']
      dsimp only
      split at h
      · next hend =>
        rw [if_pos hend]
        exact h
      · next hend =>
        rw [if_neg hend]
        split at h
        · cases h
        · next hplace =>
          rw [if_neg hplace]
          exact h

private theorem decodeSymbols_embed {header : BlockHeader} {blockSize : Nat} {s : Symbols}
    {bytes : List UInt8} (canonical : ∀ table ∈ header.tables, table.Canonical)
    (h : decodeSymbols data header blockSize s bit = .ok (bytes, next)) :
    decodeSymbols (front ++ data ++ back) header blockSize s (8 * front.length + bit) =
      .ok (bytes, 8 * front.length + next) := by
  refine decodeSymbols_induction
    (motive := fun s bit => decodeSymbols (front ++ data ++ back) header blockSize s
      (8 * front.length + bit) = .ok (bytes, 8 * front.length + next))
    (fun s bit s' symbol t hread happly htt => ?_)
    (fun s bit s' symbol after t hread happly _ ih => ?_) h
  · exact decodeSymbols_eq_ok.mpr ⟨s', symbol, _, readSymbol_embed canonical hread, t, true,
      applySymbol_at happly _, by simp [htt]⟩
  · exact decodeSymbols_eq_ok.mpr ⟨s', symbol, _, readSymbol_embed canonical hread, t, false,
      applySymbol_at happly _, by simpa using ih⟩

private theorem expandByte_at {maxOutput blockOffset : Nat} {x y : Expansion} {byte : UInt8}
    (h : expandByte maxOutput blockOffset x byte = .ok y) (blockOffset' : Nat) :
    expandByte maxOutput blockOffset' x byte = .ok y := by
  unfold expandByte at h ⊢
  split at h
  case isTrue hfour =>
    rw [if_pos hfour]
    split at h
    · cases h
    · next hfits =>
      rw [if_neg hfits]
      exact h
  case isFalse hfour =>
    rw [if_neg hfour]
    split at h
    · cases h
    · next hfits =>
      rw [if_neg hfits]
      exact h

private theorem expandBytes_at {maxOutput blockOffset : Nat} {x : Expansion}
    {bytes output : List UInt8}
    (h : expandBytes maxOutput blockOffset x bytes = .ok output) (blockOffset' : Nat) :
    expandBytes maxOutput blockOffset' x bytes = .ok output := by
  induction bytes generalizing x with
  | nil => exact h
  | cons byte rest ih =>
    obtain ⟨y, hbyte, h⟩ := result_bind_eq_ok.mp h
    exact result_bind_eq_ok.mpr ⟨y, expandByte_at hbyte _, ih h⟩

private theorem decoderBlock_embed {level : Nat} {expectedCrc : Option UInt32}
    {block : DecodedBlock} (h : decoderBlock data bit level expectedCrc = .ok (block, next)) :
    decoderBlock (front ++ data ++ back) (8 * front.length + bit) level expectedCrc =
      .ok (block, 8 * front.length + next) := by
  simp only [decoderBlock, result_bind_eq_ok] at h ⊢
  obtain ⟨⟨header, bit1⟩, hheader, ⟨bytes, bit2⟩, hsymbols, _, horigin, output, hexpand, _, hcrc,
    heq⟩ := h
  cases heq
  rw [ensure_eq_ok] at horigin hcrc
  obtain ⟨hheader', hcanonical⟩ := @readHeader_embed front _ back _ _ _ _ _ _ hheader
  exact ⟨_, hheader', _, decodeSymbols_embed hcanonical hsymbols, (), ensure_of horigin, output,
    expandBytes_at hexpand _, (), ensure_of hcrc, rfl⟩

private theorem readMagicByte_embed {expected : Nat}
    (h : readMagicByte data expected bit = .ok next) :
    readMagicByte (front ++ data ++ back) expected (8 * front.length + bit) =
      .ok (8 * front.length + next) := by
  simp only [readMagicByte, result_bind_eq_ok] at h ⊢
  obtain ⟨⟨value, after⟩, hread, _, hvalue, heq⟩ := h
  cases heq
  rw [ensure_eq_ok] at hvalue
  exact ⟨_, Bits.read_embed (by decide) (by decide) hread, (), ensure_of hvalue, rfl⟩

private theorem readStreamHeader_embed {level : Nat}
    (h : readStreamHeader data bit = .ok (level, next)) :
    readStreamHeader (front ++ data ++ back) (8 * front.length + bit) =
      .ok (level, 8 * front.length + next) := by
  have hroom : 32 ≤ Bits.remaining (front ++ data ++ back) (8 * front.length + bit) := by
    have hle := @bits_embed_le _ front _ back _ (readStreamHeader_next h).2
    have := (readStreamHeader_next h).1
    unfold Bits.remaining
    omega
  simp only [readStreamHeader, result_bind_eq_ok] at h ⊢
  obtain ⟨_, -, bit1, h1, bit2, h2, bit3, h3, ⟨value, bit4⟩, h4, _, hlevel, heq⟩ := h
  cases heq
  rw [ensure_eq_ok] at hlevel
  exact ⟨(), ensure_of hroom, _, readMagicByte_embed h1, _, readMagicByte_embed h2, _,
    readMagicByte_embed h3, _, Bits.read_embed (by decide) (by decide) h4, (), ensure_of hlevel, rfl⟩

private theorem checkStreamCrc_embed {markerOffset : Nat} {combinedCrc : UInt32}
    (markerOffset' : Nat) (h : checkStreamCrc data markerOffset bit combinedCrc = .ok next) :
    checkStreamCrc (front ++ data ++ back) markerOffset' (8 * front.length + bit) combinedCrc =
      .ok (8 * front.length + next) := by
  simp only [checkStreamCrc, result_bind_eq_ok] at h ⊢
  obtain ⟨⟨crc, after⟩, hread, _, hcrc, heq⟩ := h
  cases heq
  rw [ensure_eq_ok] at hcrc
  exact ⟨_, Bits.read_embed (by decide) (by decide) hread, (), ensure_of hcrc, rfl⟩

/-- What later streams have delivered, put behind what earlier ones have. -/
def Decoded.join (base d : Decoded) : Decoded :=
  ⟨base.output ++ d.output, base.decodedBytes + d.decodedBytes⟩

variable {base : Decoded}

private theorem deliver_eq_ok {d e : Decoded} {block : List UInt8} :
    d.deliver block = .ok e ↔
      d.decodedBytes + block.length < 2 ^ 64 ∧
        e = ⟨d.output ++ block, d.decodedBytes + block.length⟩ := by
  simp only [Decoded.deliver, result_bind_eq_ok, ensure_eq_ok]
  constructor
  · rintro ⟨_, hfits, heq⟩
    exact ⟨hfits, (Except.ok.inj heq).symm⟩
  · rintro ⟨hfits, rfl⟩
    exact ⟨(), hfits, rfl⟩

private theorem Blocks.grows {level : Nat} {combinedCrc : UInt32} {d : Decoded}
    {result : Decoded × Nat}
    (h : Blocks data level bit combinedCrc d result) : d.decodedBytes ≤ result.1.decodedBytes := by
  induction h with
  | block _ _ delivered _ ih =>
    obtain ⟨-, rfl⟩ := deliver_eq_ok.mp delivered
    exact Nat.le_trans (Nat.le_add_right ..) ih
  | last => exact Nat.le_refl _

private theorem Blocks.embed {level : Nat} {combinedCrc : UInt32} {d : Decoded}
    {result : Decoded × Nat} (total : base.decodedBytes + result.1.decodedBytes < 2 ^ 64)
    (h : Blocks data level bit combinedCrc d result) :
    Blocks (front ++ data ++ back) level (8 * front.length + bit) combinedCrc (base.join d)
      (base.join result.1, 8 * front.length + result.2) := by
  induction h with
  | block magic decoded delivered rest ih =>
    have hgrows := rest.grows
    obtain ⟨hfits, rfl⟩ := deliver_eq_ok.mp delivered
    refine .block (Bits.magic_embed magic) (decoderBlock_embed decoded) (deliver_eq_ok.mpr ⟨?_, ?_⟩)
      (ih total)
    · dsimp only [Decoded.join] at hgrows ⊢
      omega
    · simp only [Decoded.join, List.append_assoc, Nat.add_assoc]
  | last magic checked => exact .last (Bits.magic_embed magic) (checkStreamCrc_embed _ checked)

private theorem Turn.grows {before after : Nat × Decoded} (h : Turn data before after) :
    before.2.decodedBytes ≤ after.2.decodedBytes := by
  obtain ⟨-, next, hstream, -⟩ := h
  obtain ⟨_, -, hblocks⟩ := result_bind_eq_ok.mp hstream
  exact (blocksFrom_eq_ok.mp hblocks).grows

theorem Turn.embed {before after : Nat × Decoded}
    (total : base.decodedBytes + after.2.decodedBytes < 2 ^ 64) (h : Turn data before after) :
    Turn (front ++ data ++ back) (8 * front.length + before.1, base.join before.2)
      (8 * front.length + after.1, base.join after.2) := by
  obtain ⟨hmore, next, hstream, heq⟩ := h
  obtain ⟨⟨level, bit1⟩, hheader, hblocks⟩ := result_bind_eq_ok.mp hstream
  refine ⟨?_, 8 * front.length + next, ?_, ?_⟩
  · unfold Bits.remaining at hmore ⊢
    rw [List.length_append, List.length_append]
    omega
  · rw [Bits.alignByte_embed]
    exact result_bind_eq_ok.mpr ⟨_, readStreamHeader_embed hheader,
      blocksFrom_eq_ok.mpr ((blocksFrom_eq_ok.mp hblocks).embed total)⟩
  · rw [Bits.alignByte_embed, heq]

theorem turns_embed {before after : Nat × Decoded}
    (total : base.decodedBytes + after.2.decodedBytes < 2 ^ 64)
    (h : Relation.ReflTransGen (Turn data) before after) :
    Relation.ReflTransGen (Turn (front ++ data ++ back))
      (8 * front.length + before.1, base.join before.2)
      (8 * front.length + after.1, base.join after.2) := by
  induction h with
  | refl => exact .refl
  | tail _ hturn ih =>
    have hgrows := hturn.grows
    exact (ih (by omega)).tail (hturn.embed total)

theorem turns_end {before after : Nat × Decoded} (le : before.1 ≤ data.length * 8)
    (h : Relation.ReflTransGen (Turn data) before after) : after.1 ≤ data.length * 8 := by
  cases h with
  | refl => exact le
  | tail _ hturn => exact hturn.advances.2

/-- The decoded length that is counted is the length of the output. -/
theorem turns_counted {before after : Nat × Decoded}
    (counted : before.2.decodedBytes = before.2.output.length)
    (h : Relation.ReflTransGen (Turn data) before after) :
    after.2.decodedBytes = after.2.output.length := by
  have hblocks {level bit : Nat} {combinedCrc : UInt32} {d : Decoded} {result : Decoded × Nat}
      (h : Blocks data level bit combinedCrc d result) (counted : d.decodedBytes = d.output.length) :
      result.1.decodedBytes = result.1.output.length := by
    induction h with
    | block _ _ delivered _ ih =>
      obtain ⟨-, rfl⟩ := deliver_eq_ok.mp delivered
      exact ih (by rw [List.length_append, counted])
    | last => exact counted
  induction h with
  | refl => exact counted
  | tail _ hturn ih =>
    obtain ⟨-, next, hstream, -⟩ := hturn
    obtain ⟨_, -, hrun⟩ := result_bind_eq_ok.mp hstream
    exact hblocks (blocksFrom_eq_ok.mp hrun) ih

theorem turns_bounded {before after : Nat × Decoded} (total : before.2.decodedBytes < 2 ^ 64)
    (h : Relation.ReflTransGen (Turn data) before after) : after.2.decodedBytes < 2 ^ 64 := by
  have hblocks {level bit : Nat} {combinedCrc : UInt32} {d : Decoded} {result : Decoded × Nat}
      (h : Blocks data level bit combinedCrc d result) (total : d.decodedBytes < 2 ^ 64) :
      result.1.decodedBytes < 2 ^ 64 := by
    induction h with
    | block _ _ delivered _ ih =>
      obtain ⟨hfits, rfl⟩ := deliver_eq_ok.mp delivered
      exact ih hfits
    | last => exact total
  induction h with
  | refl => exact total
  | tail _ hturn ih =>
    obtain ⟨-, next, hstream, -⟩ := hturn
    obtain ⟨_, -, hrun⟩ := result_bind_eq_ok.mp hstream
    exact hblocks (blocksFrom_eq_ok.mp hrun) ih

@[simp] theorem Decoded.join_empty (base : Decoded) : base.join {} = base := by
  simp [Decoded.join]

@[simp] theorem Decoded.empty_join (d : Decoded) : ({} : Decoded).join d = d := by
  simp [Decoded.join]

theorem turns_append {stop : Nat} {d : Decoded}
    (h : Relation.ReflTransGen (Turn data) (0, {}) (stop, d)) (back : List UInt8) :
    Relation.ReflTransGen (Turn (data ++ back)) (0, {}) (stop, d) := by
  have htotal := turns_bounded (by decide) h
  have := @turns_embed [] data back {} _ _ (by simpa using htotal) h
  simpa using this

end Fbz.Bzip2
