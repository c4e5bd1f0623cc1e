import Fbz.Bzip2.Scan

/-!
# The scan finds every marker

The window holds the bits at its offset, with zeros behind the end, and the table passes every shift
at which a marker may begin. So a byte's step finds the markers at its eight bits, and ranges of
bytes those at theirs, wherever the input is cut.
-/

namespace Fbz.Bzip2

open BitOrder

namespace BitReader

variable {data : List UInt8} {bit count : Nat}

theorem readBits_eq (pos : 0 < count) (few : count ≤ 64) :
    readBits data bit count =
      if bit + count ≤ data.length * 8 then
        .ok (highFirst (streamBit data) bit count, bit + count)
      else .error (eof data bit count) := by
  unfold readBits
  rw [ensure_of few, result_bind_ok]
  by_cases hfits : bit + count ≤ data.length * 8
  · obtain ⟨bytes, hbytes⟩ : ∃ bytes, bytes = (bit % 8 + count + 7) / 8 := ⟨_, rfl⟩
    obtain ⟨rest, hrest⟩ : ∃ rest, 8 * bytes = bit % 8 + count + rest :=
      ⟨8 * bytes - bit % 8 - count, by omega⟩
    have hmid := highFirst_div_mod (streamBit data) (8 * (bit / 8)) (bit % 8) count rest
    rw [← hrest, show 8 * (bit / 8) + bit % 8 = bit by omega] at hmid
    rw [ensure_of (by omega), result_bind_ok, if_neg (Nat.ne_of_gt pos), if_pos hfits]
    dsimp only
    rw [← hbytes, beNat_slice data (bit / 8) bytes (by omega), Nat.shiftRight_eq_div_pow,
      show bytes * 8 - bit % 8 - count = rest by omega, hmid]
    rfl
  · rw [ensure_of_not (by omega), if_neg hfits]
    rfl

private theorem readBit_eq :
    readBit data bit =
      if bit < data.length * 8 then .ok (streamBit data bit, bit + 1)
      else .error (eof data bit 1) := by
  unfold readBit
  by_cases hfits : bit < data.length * 8
  · rw [ensure_of hfits, result_bind_ok, if_pos hfits]
    dsimp only
    rw [← toNat_testBit, streamBit]
    cases (data.getD (bit / 8) 0).toNat.testBit (7 - bit % 8) <;> rfl
  · rw [ensure_of_not hfits, if_neg hfits]
    rfl

private theorem start_eq :
    start data bit =
      if bit ≤ data.length * 8 then .ok bit
      else .error (.invalidBitOffset bit (data.length * 8)) := by
  unfold start ensure
  split <;> rfl

end BitReader

namespace Scan

/-- The block marker at a bit, with its fields. -/
def blockAt (data : List UInt8) (bit : Nat) : Option BlockCandidate :=
  if highFirst (streamBit data) bit 48 = blockMagic ∧ bit + 105 ≤ data.length * 8 then
    some ⟨bit, UInt32.ofNat (highFirst (streamBit data) (bit + 48) 32), streamBit data (bit + 80),
      highFirst (streamBit data) (bit + 81) 24⟩
  else none

def endAt (data : List UInt8) (bit : Nat) : Option EndCandidate :=
  if highFirst (streamBit data) bit 48 = endMagic ∧ bit + 80 ≤ data.length * 8 then
    some ⟨bit, UInt32.ofNat (highFirst (streamBit data) (bit + 48) 32)⟩
  else none

variable {data : List UInt8}

private theorem parseBlock_eq {bit : Nat} (magic : highFirst (streamBit data) bit 48 = blockMagic) :
    parseBlock data bit = blockAt data bit := by
  unfold parseBlock
  rw [BitReader.start_eq]
  by_cases hfits : bit + 105 ≤ data.length * 8
  · rw [if_pos (by omega), result_bind_ok, BitReader.readBits_eq (by decide) (by decide),
      if_pos (by omega), result_bind_ok, blockAt, if_pos ⟨magic, hfits⟩]
    dsimp only
    rw [BitReader.readBit_eq, if_pos (by omega), result_bind_ok]
    dsimp only
    rw [BitReader.readBits_eq (by decide) (by decide), if_pos (by omega), result_bind_ok]
    rfl
  · have hnone : blockAt data bit = none := if_neg fun h => hfits h.2
    rw [hnone]
    split
    case isFalse => rfl
    rw [result_bind_ok, BitReader.readBits_eq (by decide) (by decide)]
    split
    case isFalse => rfl
    rw [result_bind_ok]
    dsimp only
    rw [BitReader.readBit_eq]
    split
    case isFalse => rfl
    rw [result_bind_ok]
    dsimp only
    rw [BitReader.readBits_eq (by decide) (by decide), if_neg (by omega)]
    rfl

private theorem parseEnd_eq {bit : Nat} (magic : highFirst (streamBit data) bit 48 = endMagic) :
    parseEnd data bit = endAt data bit := by
  unfold parseEnd
  rw [BitReader.start_eq]
  by_cases hfits : bit + 80 ≤ data.length * 8
  · rw [if_pos (by omega), result_bind_ok, BitReader.readBits_eq (by decide) (by decide),
      if_pos (by omega), result_bind_ok, endAt, if_pos ⟨magic, hfits⟩]
    rfl
  · have hnone : endAt data bit = none := if_neg fun h => hfits h.2
    rw [hnone]
    split
    case isFalse => rfl
    rw [result_bind_ok, BitReader.readBits_eq (by decide) (by decide), if_neg (by omega)]
    rfl

private theorem setBits_step : ∀ shifts < 256, shifts ≠ 0 →
    (List.range 8).filter shifts.testBit =
      trailingZeros shifts :: (List.range 8).filter (shifts &&& (shifts - 1)).testBit := by
  decide +kernel

private theorem setBits_eq {shifts : Nat} (lt : shifts < 256) :
    setBits shifts = (List.range 8).filter shifts.testBit := by
  induction shifts using Nat.strongRecOn with
  | ind shifts ih =>
    rw [setBits]
    split
    · next hzero =>
      subst hzero
      decide
    · next hne =>
      have hless : shifts &&& (shifts - 1) < shifts :=
        Nat.lt_of_le_of_lt Nat.and_le_right (by omega)
      rw [ih _ hless (by omega), ← setBits_step shifts lt hne]

private theorem prefixTable_getD (magic : Nat) {byte : Nat} (lt : byte < 256) :
    (prefixTable magic).getD byte 0 = (List.range 8).foldl
      (fun entry shift =>
        if byte &&& (1 <<< (8 - shift) - 1) % 2 ^ 8 = (magic >>> (40 + shift)) % 2 ^ 8 then
          entry ||| 1 <<< shift
        else entry)
      0 := by
  rw [prefixTable, List.getD_eq_getElem?_getD, List.getElem?_map, List.getElem?_range lt]
  rfl

private theorem prefixTable_testBit {magic : Nat} (h : magic = blockMagic ∨ magic = endMagic) :
    ∀ byte < 256, (prefixTable magic).getD byte 0 < 256 ∧
      ∀ shift < 8, ((prefixTable magic).getD byte 0).testBit shift =
        decide (byte % 2 ^ (8 - shift) = magic / 2 ^ (40 + shift)) := by
  intro byte lt
  rw [prefixTable_getD magic lt]
  revert byte
  rcases h with rfl | rfl
  · decide +kernel
  · decide +kernel

private theorem append_byte (data : List UInt8) (offset count : Nat) :
    highFirst (streamBit data) (8 * offset) (8 * count) <<< 8 |||
        (byteAt data (offset + count)).toNat =
      highFirst (streamBit data) (8 * offset) (8 * (count + 1)) := by
  rw [← Nat.shiftLeft_add_eq_or_of_lt (byteAt data (offset + count)).toNat_lt, Nat.shiftLeft_eq,
    show 8 * (count + 1) = 8 * count + 8 by omega, highFirst_add,
    show 8 * offset + 8 * count = 8 * (offset + count) by omega, highFirst_byte]
  rfl

private theorem window_start (data : List UInt8) (start count : Nat) :
    (List.range' start count).foldl
        (fun word offset => word <<< 8 ||| (byteAt data offset).toNat) 0 =
      highFirst (streamBit data) (8 * start) (8 * count) := by
  induction count with
  | zero => rfl
  | succ count ih =>
    rw [List.range'_concat, List.foldl_append, ih, List.foldl_cons, List.foldl_nil, Nat.one_mul,
      append_byte]

private theorem window_next (data : List UInt8) (offset : Nat) :
    (highFirst (streamBit data) (8 * offset) 56 <<< 8) % 2 ^ 56 |||
        (byteAt data (offset + 7)).toNat =
      highFirst (streamBit data) (8 * (offset + 1)) 56 := by
  have hlow : (highFirst (streamBit data) (8 * offset) 56 <<< 8) % 2 ^ 56 =
      highFirst (streamBit data) (8 * (offset + 1)) (8 * 6) <<< 8 := by
    have hsplit := highFirst_add (streamBit data) (8 * offset) 8 48
    have hlt := highFirst_lt (streamBit data) (8 * offset + 8) 48
    rw [show (56 : Nat) = 8 + 48 from rfl, hsplit, show 8 * 6 = 48 from rfl,
      show 8 * (offset + 1) = 8 * offset + 8 by omega, Nat.shiftLeft_eq, Nat.shiftLeft_eq]
    omega
  rw [hlow, show offset + 7 = offset + 1 + 6 by omega, append_byte]

private theorem window_byte (data : List UInt8) (offset : Nat) :
    highFirst (streamBit data) (8 * offset) 56 >>> 48 =
      highFirst (streamBit data) (8 * offset) 8 := by
  rw [Nat.shiftRight_eq_div_pow]
  exact highFirst_div (streamBit data) (8 * offset) 8 48

private theorem window_marker (data : List UInt8) (offset : Nat) {shift : Nat} (lt : shift < 8) :
    (highFirst (streamBit data) (8 * offset) 56 >>> (8 - shift)) % 2 ^ 48 =
      highFirst (streamBit data) (8 * offset + shift) 48 := by
  have h := highFirst_div_mod (streamBit data) (8 * offset) shift 48 (8 - shift)
  rwa [show shift + 48 + (8 - shift) = 56 by omega, ← Nat.shiftRight_eq_div_pow] at h

private theorem visit_eq (data : List UInt8) (offset : Nat) {shift : Nat} (lt : shift < 8)
    (found : Found) :
    visit data offset (highFirst (streamBit data) (8 * offset) 56) found shift =
      (found.1 ++ (blockAt data (8 * offset + shift)).toList,
        found.2 ++ (endAt data (8 * offset + shift)).toList) := by
  have hne : blockMagic ≠ endMagic := by decide
  rw [visit, window_marker data offset lt, Nat.mul_comm offset 8]
  split
  · next hmagic =>
    have hend : endAt data (8 * offset + shift) = none :=
      if_neg fun h => hne (hmagic.symm.trans h.1)
    rw [parseBlock_eq hmagic, hend]
    cases blockAt data (8 * offset + shift) <;> simp
  · next hblock =>
    have hnone : blockAt data (8 * offset + shift) = none := if_neg fun h => hblock h.1
    rw [hnone]
    split
    · next hmagic =>
      rw [parseEnd_eq hmagic]
      cases endAt data (8 * offset + shift) <;> simp
    · next hmagic =>
      have hend : endAt data (8 * offset + shift) = none := if_neg fun h => hmagic h.1
      rw [hend]
      simp

private theorem skipped (data : List UInt8) (offset : Nat) {shift magic : Nat} (lt : shift < 8)
    (h : magic = blockMagic ∨ magic = endMagic) (unset : ((prefixTable magic).getD
      (highFirst (streamBit data) (8 * offset) 56 >>> 48) 0).testBit shift = false) :
    highFirst (streamBit data) (8 * offset + shift) 48 ≠ magic := by
  intro hmagic
  have hlow : highFirst (streamBit data) (8 * offset) 8 % 2 ^ (8 - shift) =
      highFirst (streamBit data) (8 * offset + shift) (8 - shift) := by
    have h := highFirst_div_mod (streamBit data) (8 * offset) shift (8 - shift) 0
    rwa [show shift + (8 - shift) + 0 = 8 by omega, pow_zero, Nat.div_one] at h
  have hhigh : magic / 2 ^ (40 + shift) =
      highFirst (streamBit data) (8 * offset + shift) (8 - shift) := by
    have h := highFirst_div (streamBit data) (8 * offset + shift) (8 - shift) (40 + shift)
    rwa [show 8 - shift + (40 + shift) = 48 by omega, hmagic] at h
  rw [window_byte, (prefixTable_testBit h _ (highFirst_lt _ _ 8)).2 shift lt, hlow, hhigh] at unset
  simp at unset

/-- The step of a byte finds the markers at its bits. -/
theorem scanByte_eq (data : List UInt8) (offset : Nat) (found : Found) :
    scanByte data (highFirst (streamBit data) (8 * offset) 56, found) offset =
      (highFirst (streamBit data) (8 * (offset + 1)) 56,
        found.1 ++ (List.range' (8 * offset) 8).filterMap (blockAt data),
        found.2 ++ (List.range' (8 * offset) 8).filterMap (endAt data)) := by
  have hbyte : highFirst (streamBit data) (8 * offset) 56 >>> 48 < 256 :=
    window_byte data offset ▸ highFirst_lt (streamBit data) (8 * offset) 8
  have hb := prefixTable_testBit (.inl rfl) _ hbyte
  have he := prefixTable_testBit (.inr rfl) _ hbyte
  rw [scanByte, window_next, blockPrefix, endPrefix,
    setBits_eq (@Nat.or_lt_two_pow _ _ 8 hb.1 he.1), List.range'_eq_map_range]
  congr 1
  have hall : ∀ shift ∈ List.range 8, shift < 8 := by decide
  generalize List.range 8 = shifts at hall ⊢
  induction shifts generalizing found with
  | nil => simp
  | cons shift shifts ih =>
    have hlt := hall shift List.mem_cons_self
    have htail := fun found => ih found fun s hs => hall s (List.mem_cons_of_mem _ hs)
    rw [List.filter_cons]
    split
    · rw [List.foldl_cons, visit_eq data offset hlt, htail]
      simp only [List.map_cons, List.filterMap_cons]
      cases blockAt data (8 * offset + shift) <;> cases endAt data (8 * offset + shift) <;> simp
    · next hunset =>
      rw [Nat.testBit_or, Bool.not_eq_true, Bool.or_eq_false_iff] at hunset
      have hblock : blockAt data (8 * offset + shift) = none :=
        if_neg fun h => skipped data offset hlt (.inl rfl) hunset.1 h.1
      have hend : endAt data (8 * offset + shift) = none :=
        if_neg fun h => skipped data offset hlt (.inr rfl) hunset.2 h.1
      rw [htail]
      simp only [List.map_cons, List.filterMap_cons, hblock, hend]

def streamHeaders (data : List UInt8) (start stop : Nat) : List StreamHeaderCandidate :=
  ((List.range' start (stop - start)).filter (isStreamHeader data)).map fun offset =>
    ⟨offset, (byteAt data (offset + 3)).toNat - 0x30⟩

private theorem scanBytes_eq (data : List UInt8) (start count : Nat) :
    (List.range' start count).foldl (scanByte data)
        (highFirst (streamBit data) (8 * start) 56, [], []) =
      (highFirst (streamBit data) (8 * (start + count)) 56,
        (List.range' (8 * start) (8 * count)).filterMap (blockAt data),
        (List.range' (8 * start) (8 * count)).filterMap (endAt data)) := by
  induction count with
  | zero => rfl
  | succ count ih =>
    have hbits : List.range' (8 * start) (8 * (count + 1)) =
        List.range' (8 * start) (8 * count) ++ List.range' (8 * (start + count)) 8 := by
      rw [Nat.mul_succ, ← List.range'_append_1, ← Nat.mul_add]
    rw [List.range'_concat, List.foldl_append, ih, List.foldl_cons, List.foldl_nil, Nat.one_mul,
      scanByte_eq, hbits, List.filterMap_append, List.filterMap_append, Nat.add_assoc]

private theorem scanRange_eq (data : List UInt8) (start stop : Nat) :
    scanRange data start stop =
      ⟨streamHeaders data start stop,
        (List.range' (8 * start) (8 * (stop - start))).filterMap (blockAt data),
        (List.range' (8 * start) (8 * (stop - start))).filterMap (endAt data)⟩ := by
  unfold scanRange
  split
  · next hshort =>
    have hblocks : (List.range' (8 * start) (8 * (stop - start))).filterMap (blockAt data) = [] :=
      List.filterMap_eq_nil_iff.mpr fun bit hbit => if_neg fun h => by
        rw [List.mem_range'_1] at hbit
        omega
    have hends : (List.range' (8 * start) (8 * (stop - start))).filterMap (endAt data) = [] :=
      List.filterMap_eq_nil_iff.mpr fun bit hbit => if_neg fun h => by
        rw [List.mem_range'_1] at hbit
        omega
    rw [hblocks, hends]
    rfl
  · dsimp only
    rw [window_start, scanBytes_eq]
    rfl

private theorem scanRange_append (data : List UInt8) {start mid stop : Nat} (le : start ≤ mid)
    (le' : mid ≤ stop) :
    (scanRange data start mid).append (scanRange data mid stop) = scanRange data start stop := by
  have hbytes : List.range' start (stop - start) =
      List.range' start (mid - start) ++ List.range' mid (stop - mid) := by
    obtain ⟨front, rfl⟩ := Nat.exists_eq_add_of_le le
    obtain ⟨back, rfl⟩ := Nat.exists_eq_add_of_le le'
    rw [Nat.add_sub_cancel_left, Nat.add_sub_cancel_left, Nat.add_assoc, Nat.add_sub_cancel_left,
      ← List.range'_append_1]
  have hbits : List.range' (8 * start) (8 * (stop - start)) =
      List.range' (8 * start) (8 * (mid - start)) ++ List.range' (8 * mid) (8 * (stop - mid)) := by
    rw [show 8 * (stop - start) = 8 * (mid - start) + 8 * (stop - mid) by omega,
      ← List.range'_append_1, show 8 * start + 8 * (mid - start) = 8 * mid by omega]
  rw [scanRange_eq, scanRange_eq, scanRange_eq, ScanResult.append, hbits]
  simp only [streamHeaders, hbytes, List.filter_append, List.map_append, List.filterMap_append]

private theorem appendChunks_eq (data : List UInt8) (first count : Nat) :
    ((List.range' first count).map fun chunk =>
        scanRange data (chunk * scanChunk) (min ((chunk + 1) * scanChunk) data.length)).foldl
      ScanResult.append (scanRange data 0 (min (first * scanChunk) data.length)) =
    scanRange data 0 (min ((first + count) * scanChunk) data.length) := by
  induction count with
  | zero => rfl
  | succ count ih =>
    rw [List.range'_concat, List.map_append, List.foldl_append, ih, List.map_cons, List.map_nil,
      List.foldl_cons, List.foldl_nil, Nat.one_mul, ← Nat.add_assoc, Nat.succ_mul]
    rcases Nat.le_total ((first + count) * scanChunk) data.length with hle | hle
    · rw [Nat.min_eq_left hle]
      exact scanRange_append data (Nat.zero_le _) (by omega)
    · have hnone : scanRange data ((first + count) * scanChunk)
          (min ((first + count) * scanChunk + scanChunk) data.length) = ⟨[], [], []⟩ := by
        rw [scanRange_eq, streamHeaders, show min ((first + count) * scanChunk + scanChunk)
          data.length - (first + count) * scanChunk = 0 by omega]
        rfl
      rw [hnone, Nat.min_eq_right hle, Nat.min_eq_right (by omega), ScanResult.append]
      simp

/-- All waves together scan the input, or a call to the closure stopped them. -/
theorem scanWaves_cases (data : List UInt8) (cancelled : Nat → Bool) (wave call : Nat)
    {chunks first : Nat} (all : data.length ≤ chunks * scanChunk) (le : first ≤ chunks) :
    scanWaves data cancelled wave chunks first call
        (scanRange data 0 (min (first * scanChunk) data.length)) =
      .ok (scanRange data 0 data.length) ∨
    scanWaves data cancelled wave chunks first call
        (scanRange data 0 (min (first * scanChunk) data.length)) = .error cancellationError ∧
      ∃ call, cancelled call = true := by
  induction hn : chunks - first using Nat.strongRecOn generalizing first call with
  | ind n ih =>
    unfold scanWaves
    cases hcall : cancelled call with
    | true => exact .inr ⟨rfl, call, hcall⟩
    | false =>
      rw [ensure_of rfl, result_bind_ok]
      split
      · have hstop : first + (min (first + max wave 1) chunks - first) =
            min (first + max wave 1) chunks := by omega
        dsimp only
        rw [appendChunks_eq, hstop]
        have hmin : min (min (first + max wave 1) chunks * scanChunk) data.length =
            min ((first + max wave 1) * scanChunk) data.length := by
          rcases Nat.le_total (first + max wave 1) chunks with hle | hle
          · rw [Nat.min_eq_left hle]
          · have := Nat.mul_le_mul_right scanChunk hle
            rw [Nat.min_eq_right hle, Nat.min_eq_right all, Nat.min_eq_right (Nat.le_trans all this)]
        rw [hmin]
        by_cases hle : first + max wave 1 ≤ chunks
        · exact ih _ (by omega) (call + 1) hle rfl
        · -- The last wave is short; the next call returns.
          have hlast : min ((first + max wave 1) * scanChunk) data.length = data.length := by
            exact Nat.min_eq_right
              (Nat.le_trans all (Nat.mul_le_mul_right scanChunk (Nat.le_of_not_le hle)))
          rw [hlast, scanWaves]
          cases hnext : cancelled (call + 1) with
          | true => exact .inr ⟨rfl, call + 1, hnext⟩
          | false =>
            rw [ensure_of rfl, result_bind_ok, if_neg (by omega)]
            exact .inl rfl
      · have hdone : min (first * scanChunk) data.length = data.length := by
          have hlast : first = chunks := by omega
          exact Nat.min_eq_right (hlast ▸ all)
        rw [hdone]
        exact .inl rfl

/-- The magic of a stream with this level. -/
def HeaderAt (data : List UInt8) (offset level : Nat) : Prop :=
  (1 ≤ level ∧ level ≤ 9) ∧
    range? data offset (offset + 4) = some [0x42, 0x5a, 0x68, UInt8.ofNat (0x30 + level)]

/-- A scan result that lists what is there, each list in the order of the input. -/
structure Finds (data : List UInt8) (result : ScanResult) : Prop where
  streamsIncrease : (result.streams.map (·.byteOffset)).Pairwise (· < ·)
  streams : ∀ stream,
    stream ∈ result.streams ↔ HeaderAt data stream.byteOffset stream.blockSize100k
  blocksIncrease : (result.blocks.map (·.bitOffset)).Pairwise (· < ·)
  blocks : ∀ block, block ∈ result.blocks ↔
    highFirst (streamBit data) block.bitOffset 48 = blockMagic ∧
      block.bitOffset + 105 ≤ data.length * 8 ∧
      block.expectedCrc.toNat = highFirst (streamBit data) (block.bitOffset + 48) 32 ∧
      block.randomized = streamBit data (block.bitOffset + 80) ∧
      block.origPtr = highFirst (streamBit data) (block.bitOffset + 81) 24
  endsIncrease : (result.streamEnds.map (·.bitOffset)).Pairwise (· < ·)
  streamEnds : ∀ stop, stop ∈ result.streamEnds ↔
    highFirst (streamBit data) stop.bitOffset 48 = endMagic ∧
      stop.bitOffset + 80 ≤ data.length * 8 ∧
      stop.expectedStreamCrc.toNat = highFirst (streamBit data) (stop.bitOffset + 48) 32

private theorem range?_four {a b c d : UInt8} {offset : Nat} :
    range? data offset (offset + 4) = some [a, b, c, d] ↔
      range? data offset (offset + 3) = some [a, b, c] ∧ data[offset + 3]? = some d := by
  rw [range?_eq_some, range?_eq_some]
  have hslice : ∀ count, slice data offset (offset + count) = (data.drop offset).take count :=
    fun count => by rw [slice, Nat.add_sub_cancel_left]
  rw [hslice, hslice, ← List.getElem?_drop]
  have hlength : (data.drop offset).length = data.length - offset := List.length_drop
  generalize data.drop offset = found at hlength
  rcases found with _ | ⟨w, _ | ⟨x, _ | ⟨y, _ | ⟨z, rest⟩⟩⟩⟩
  · simp
  · simp
  · simp
  · simp
  · simp only [List.length_cons] at hlength
    simp
    constructor
    · rintro ⟨-, rfl, rfl, rfl, rfl⟩
      exact ⟨⟨by omega, rfl, rfl, rfl⟩, rfl⟩
    · rintro ⟨⟨-, rfl, rfl, rfl⟩, rfl⟩
      exact ⟨by omega, rfl, rfl, rfl, rfl⟩

private theorem isStreamHeader_iff (data : List UInt8) (offset level : Nat) :
    isStreamHeader data offset = true ∧ level = (byteAt data (offset + 3)).toNat - 0x30 ↔
      HeaderAt data offset level := by
  rw [HeaderAt, range?_four, isStreamHeader, byteAt, List.getD_eq_getElem?_getD]
  cases hdigit : data[offset + 3]? with
  | none => simp
  | some digit =>
    have hlt := digit.toNat_lt
    simp only [Option.any_some, Bool.and_eq_true, decide_eq_true_eq, Option.getD_some,
      Option.some.injEq]
    constructor
    · rintro ⟨⟨hmagic, hlo, hhi⟩, rfl⟩
      rw [UInt8.le_iff_toNat_le] at hlo hhi
      have hlo' : 0x31 ≤ digit.toNat := hlo
      have hhi' : digit.toNat ≤ 0x39 := hhi
      refine ⟨by omega, hmagic, UInt8.toNat_inj.mp ?_⟩
      rw [UInt8.toNat_ofNat']
      omega
    · rintro ⟨hlevel, hmagic, rfl⟩
      have hvalue : (UInt8.ofNat (0x30 + level)).toNat = 0x30 + level := by
        rw [UInt8.toNat_ofNat']
        omega
      refine ⟨⟨hmagic, ?_, ?_⟩, by omega⟩
      · rw [UInt8.le_iff_toNat_le, hvalue]
        exact Nat.add_le_add_left hlevel.1 0x30
      · rw [UInt8.le_iff_toNat_le, hvalue]
        exact Nat.add_le_add_left hlevel.2 0x30

private theorem filterMap_increasing {α : Type} {at? : Nat → Option α} {position : α → Nat}
    (here : ∀ bit a, at? bit = some a → position a = bit) (start count : Nat) :
    (((List.range' start count).filterMap at?).map position).Pairwise (· < ·) := by
  refine List.pairwise_map.mpr (List.pairwise_filterMap.mpr ?_)
  refine (@List.pairwise_lt_range' start count 1 Nat.one_pos).imp fun {p q} hlt a ha b hb => ?_
  rw [here p a ha, here q b hb]
  exact hlt

private theorem blockAt_eq_some {bit : Nat} {block : BlockCandidate} :
    blockAt data bit = some block ↔ block.bitOffset = bit ∧
      highFirst (streamBit data) bit 48 = blockMagic ∧ bit + 105 ≤ data.length * 8 ∧
      block.expectedCrc.toNat = highFirst (streamBit data) (bit + 48) 32 ∧
      block.randomized = streamBit data (bit + 80) ∧
      block.origPtr = highFirst (streamBit data) (bit + 81) 24 := by
  have hcrc : (UInt32.ofNat (highFirst (streamBit data) (bit + 48) 32)).toNat =
      highFirst (streamBit data) (bit + 48) 32 := by
    rw [UInt32.toNat_ofNat']
    exact Nat.mod_eq_of_lt (highFirst_lt _ _ 32)
  obtain ⟨position, crc, randomized, origPtr⟩ := block
  unfold blockAt
  split
  · next h =>
    simp only [Option.some.injEq, BlockCandidate.mk.injEq]
    constructor
    · rintro ⟨rfl, rfl, rfl, rfl⟩
      exact ⟨rfl, h.1, h.2, hcrc, rfl, rfl⟩
    · rintro ⟨rfl, -, -, hvalue, rfl, rfl⟩
      exact ⟨rfl, UInt32.toNat_inj.mp (hcrc.trans hvalue.symm), rfl, rfl⟩
  · next h =>
    constructor
    · exact nofun
    · exact fun hall => absurd ⟨hall.2.1, hall.2.2.1⟩ h

private theorem endAt_eq_some {bit : Nat} {stop : EndCandidate} :
    endAt data bit = some stop ↔ stop.bitOffset = bit ∧
      highFirst (streamBit data) bit 48 = endMagic ∧ bit + 80 ≤ data.length * 8 ∧
      stop.expectedStreamCrc.toNat = highFirst (streamBit data) (bit + 48) 32 := by
  have hcrc : (UInt32.ofNat (highFirst (streamBit data) (bit + 48) 32)).toNat =
      highFirst (streamBit data) (bit + 48) 32 := by
    rw [UInt32.toNat_ofNat']
    exact Nat.mod_eq_of_lt (highFirst_lt _ _ 32)
  obtain ⟨position, crc⟩ := stop
  unfold endAt
  split
  · next h =>
    simp only [Option.some.injEq, EndCandidate.mk.injEq]
    constructor
    · rintro ⟨rfl, rfl⟩
      exact ⟨rfl, h.1, h.2, hcrc⟩
    · rintro ⟨rfl, -, -, hvalue⟩
      exact ⟨rfl, UInt32.toNat_inj.mp (hcrc.trans hvalue.symm)⟩
  · next h =>
    constructor
    · exact nofun
    · exact fun hall => absurd ⟨hall.2.1, hall.2.2.1⟩ h

private theorem scanRange_finds (data : List UInt8) : Finds data
    (scanRange data 0 data.length) := by
  rw [scanRange_eq, Nat.sub_zero, Nat.mul_zero]
  constructor
  · rw [streamHeaders, List.map_map]
    exact List.pairwise_map.mpr ((@List.pairwise_lt_range' _ _ 1 Nat.one_pos).filter _)
  · intro stream
    rw [← isStreamHeader_iff, streamHeaders, Nat.sub_zero, ← List.range_eq_range']
    simp only [List.mem_map, List.mem_filter, List.mem_range]
    constructor
    · rintro ⟨offset, ⟨-, hheader⟩, rfl⟩
      exact ⟨hheader, rfl⟩
    · rintro ⟨hheader, hlevel⟩
      refine ⟨stream.byteOffset, ⟨?_, hheader⟩, by rw [← hlevel]⟩
      rw [isStreamHeader, Bool.and_eq_true, decide_eq_true_eq, range?_eq_some] at hheader
      omega
  · exact filterMap_increasing (fun bit block h => (blockAt_eq_some.mp h).1) 0 _
  · intro block
    rw [List.mem_filterMap]
    constructor
    · rintro ⟨bit, -, h⟩
      obtain ⟨rfl, hall⟩ := blockAt_eq_some.mp h
      exact hall
    · intro hall
      exact ⟨block.bitOffset, List.mem_range'_1.mpr (by omega), blockAt_eq_some.mpr ⟨rfl, hall⟩⟩
  · exact filterMap_increasing (fun bit stop h => (endAt_eq_some.mp h).1) 0 _
  · intro stop
    rw [List.mem_filterMap]
    constructor
    · rintro ⟨bit, -, h⟩
      obtain ⟨rfl, hall⟩ := endAt_eq_some.mp h
      exact hall
    · intro hall
      exact ⟨stop.bitOffset, List.mem_range'_1.mpr (by omega), endAt_eq_some.mpr ⟨rfl, hall⟩⟩

private theorem scanWithPool_cases (header : isStreamHeader data 0 = true) (threads : Option Nat)
    (cancelled : Nat → Bool) :
    scanWithPool data threads cancelled = .ok (scanRange data 0 data.length) ∨
      scanWithPool data threads cancelled = .error cancellationError ∧
        ∃ call, cancelled call = true := by
  unfold scanWithPool
  rw [ensure_of header, result_bind_ok]
  cases hfirst : cancelled 0 with
  | true => exact .inr ⟨rfl, 0, hfirst⟩
  | false =>
    rw [ensure_of rfl, result_bind_ok]
    split
    · cases hsecond : cancelled 1 with
      | true => exact .inr ⟨rfl, 1, hsecond⟩
      | false => exact .inl rfl
    · next threads _ =>
      have hempty : (⟨[], [], []⟩ : ScanResult) =
          scanRange data 0 (min (0 * scanChunk) data.length) := by
        rw [scanRange_eq, Nat.zero_mul, Nat.zero_min]
        rfl
      have hpos : 0 < scanChunk := by decide
      have hall : data.length ≤ (data.length + scanChunk - 1) / scanChunk * scanChunk := by
        have h := Nat.lt_div_mul_add hpos (a := data.length + scanChunk - 1)
        omega
      rw [hempty]
      exact scanWaves_cases data cancelled threads 1 hall (Nat.zero_le _)

/-- An input that starts with a stream header is scanned exactly, with any number of threads, unless
it is cancelled. -/
theorem scan_finds {level : Nat} (header : HeaderAt data 0 level) :
    ∃ result, scan data = .ok result ∧ Finds data result ∧
      ∀ threads cancelled, scanWithPool data threads cancelled = .ok result ∨
        scanWithPool data threads cancelled = .error cancellationError ∧
          ∃ call, cancelled call = true := by
  have hheader := ((isStreamHeader_iff data 0 level).mpr header).1
  refine ⟨scanRange data 0 data.length, ?_, scanRange_finds data,
    scanWithPool_cases hheader⟩
  rw [scan, ensure_of hheader, result_bind_ok]
  rfl

/-- A header and a block marker, one bit behind a byte. -/
def shifted : List UInt8 :=
  [66, 90, 104, 57, 24, 160, 172, 147, 41, 172, 137, 26, 43, 60, 106, 243, 123, 192]

theorem scan_finds_shifted : ∃ result, scan shifted = .ok result ∧ Finds shifted result ∧
    ∀ threads cancelled, scanWithPool shifted threads cancelled = .ok result ∨
      scanWithPool shifted threads cancelled = .error cancellationError ∧
        ∃ call, cancelled call = true :=
  @scan_finds shifted 9 ⟨by decide, by decide⟩

end Scan

end Fbz.Bzip2
