import Fbz.Bzip2.CodedSymbols
import Fbz.Bzip2.Grouping
import Fbz.Bzip2.Rotations

/-!
# Round trip of a block

What is written of a block is read back wherever it stands: the transform of the groups, its symbols
and their tables, and from these the bytes that the groups stand for.
-/

namespace Fbz.Bzip2

open BitOrder BurrowsWheeler Rle1

/-- What stands before the symbols, behind the magic. -/
def headerBits (crc : UInt32) (origin : Nat) (inUse : List UInt8) (coding : Coding) : List Bool :=
  bitsOf 32 crc.toNat ++ (false :: (bitsOf 24 origin ++ (symbolMapBits inUse ++
    (bitsOf 3 coding.nGroups ++ (bitsOf 15 coding.selectors.length ++
      (selectorsBits (List.range coding.nGroups) coding.selectors ++
        coding.lens.flatMap tableBits))))))

def bodyBits (crc : UInt32) (origin : Nat) (symbols : Mtf.Symbols) : List Bool :=
  let coding := Coding.build symbols.syms symbols.alphaSize
  headerBits crc origin symbols.inUse coding ++
    codedBits coding.lens coding.selectors symbols.syms 0

section Written

variable {job : BlockJob} {last : List UInt8} {origin : Nat}

private theorem BitWriter.Wrote.finishBits {w : BitWriter} {bits : List Bool} (h : w.Wrote bits) :
    w.finishBits.2 = bits.length ∧ bits.length ≤ 8 * w.finishBits.1.length ∧
      (w.finishBits.1.flatMap byteBits).take bits.length = bits := by
  have hbits := finishBits_bits h.wf
  have hlength := congrArg List.length hbits.1
  rw [h.bits] at hbits hlength
  rw [flatMap_byteBits_length, List.length_append] at hlength
  refine ⟨hbits.2, by omega, ?_⟩
  rw [hbits.1, List.take_left]

private theorem Mtf.syms_lt {block : List UInt8} (ne : block ≠ []) :
    ∀ symbol ∈ (encode block).syms, symbol < (encode block).alphaSize := by
  have hpos : 0 < (inUse block).length := by
    obtain ⟨byte, hbyte⟩ := List.exists_mem_of_ne_nil block ne
    exact List.length_pos_of_mem (mem_inUse hbyte)
  have halpha : (encode block).alphaSize = (inUse block).length + 2 := rfl
  intro symbol hsymbol
  rcases List.mem_append.mp hsymbol with hsymbol | hsymbol
  · have hle := encodeFrom_le hpos (fun byte => mem_inUse) symbol hsymbol
    omega
  · have hend := List.mem_singleton.mp hsymbol
    omega

private theorem Mtf.inUse_length_le (block : List UInt8) : (inUse block).length ≤ 256 := by
  have hle := List.length_filter_le (block.contains ·) ((List.range 256).map UInt8.ofNat)
  rwa [List.length_map, List.length_range] at hle

private theorem Mtf.build_codes (block : List UInt8) :
    (Coding.build (encode block).syms (encode block).alphaSize).Codes (encode block).syms
      (encode block).alphaSize := by
  have hfew := inUse_length_le block
  have halpha : (encode block).alphaSize = (inUse block).length + 2 := rfl
  have hlimit : encoderMaxCodeLen = 17 := rfl
  apply Coding.build_codes
  · omega
  · rw [halpha, hlimit]
    omega

private theorem encodeBlock_written (hrle : Bwt.transform job.rle = some (last, origin))
    (ne : last ≠ []) : let bits := bitsOf 48 blockMagic ++ bodyBits job.crc origin (Mtf.encode last)
    (encodeBlock job).bitLen = bits.length ∧ bits.length ≤ 8 * (encodeBlock job).bytes.length ∧
      ((encodeBlock job).bytes.flatMap byteBits).take bits.length = bits := by
  have hcodes := Mtf.build_codes last
  have hlt := Mtf.syms_lt ne
  rw [encodeBlock, hrle, Option.getD_some, bodyBits]
  dsimp only
  generalize Coding.build (Mtf.encode last).syms (Mtf.encode last).alphaSize = coding at hcodes ⊢
  have hmagic := BitWriter.Wrote.empty.writeMagic blockMagic
  have hcrc := hmagic.writeBits 32 job.crc.toNat
  have horigin := (hcrc.writeBits 1 0).writeBits 24 origin
  have hmap := horigin.writeSymbolMap (Mtf.encode last).inUse
  have hcount := (hmap.writeBits 3 coding.nGroups).writeBits 15 coding.selectors.length
  have hselectors := hcount.writeSelectors
    (fun selector hselector => List.mem_range.mpr (hcodes.known selector hselector))
  have hsymbols := (hselectors.writeTables coding.lens).writeGroups hcodes
    (by rw [List.drop_zero]; exact hcodes.selectors) hlt
  simp only [List.nil_append, List.append_assoc, List.drop_zero] at hsymbols
  apply BitWriter.Wrote.finishBits
  simp only [headerBits, List.append_assoc, List.cons_append]
  exact hsymbols

end Written

section Read

variable {data : List UInt8} {bit blockOffset : Nat} {rest : List Bool} {expectedCrc : Option UInt32}

private theorem Coding.Codes.selectors_bounds {coding : Coding} {syms : List Nat} {alphaSize : Nat}
    (codes : coding.Codes syms alphaSize) :
    (∀ j < syms.length, j / groupSize < coding.selectors.length) ∧
      coding.selectors.length * groupSize < syms.length + groupSize := by
  have hsize : 0 < groupSize := by decide
  obtain ⟨hle, hlt⟩ := toChunks_length hsize syms
  rw [codes.selectors]
  refine ⟨?_, hlt⟩
  intro j hj
  rw [Nat.div_lt_iff_lt_mul hsize]
  omega

private theorem Mtf.zeroRun_length_le (n : Nat) : (zeroRun n).length ≤ n := by
  induction n using zeroRun.induct with
  | case1 => simp [zeroRun]
  | case2 n hn hodd ih =>
    rw [zeroRun, if_neg hn, if_pos hodd, List.length_cons]
    omega
  | case3 n hn hodd ih =>
    rw [zeroRun, if_neg hn, if_neg hodd, List.length_cons]
    omega

private theorem Mtf.encodeFrom_length_le (block mtf : List UInt8) (zeros : Nat) :
    (encodeFrom block mtf zeros).length ≤ zeros + block.length := by
  induction block generalizing mtf zeros with
  | nil => exact zeroRun_length_le zeros
  | cons byte block ih =>
    rw [encodeFrom, List.length_cons]
    split
    · have := ih mtf (zeros + 1)
      omega
    · have hrun := zeroRun_length_le zeros
      have hrest := ih (moveToFront mtf (mtf.idxOf byte)).2 0
      rw [List.length_append, List.length_cons]
      omega

private theorem readHeader_written {coding : Coding} {syms : List Nat} {crc : UInt32} {origin : Nat}
    {inUse : List UInt8} (codes : coding.Codes syms (inUse.length + 2)) (ne : inUse ≠ [])
    (filtered : ((List.range 256).filterMap fun value =>
      if usedBy inUse value then some (UInt8.ofNat value) else none) = inUse)
    (hsyms : syms ≠ []) (short : syms.length ≤ 900001) (horigin : origin < 2 ^ 24)
    (expected : expectedCrc = none ∨ expectedCrc = some crc)
    (h : Rests data bit (headerBits crc origin inUse coding ++ rest)) :
    ∃ header next, readHeader data blockOffset expectedCrc bit = .ok (header, next) ∧
      header.storedCrc = crc ∧ header.origin = origin ∧ header.alphabet = inUse ∧
        Described header coding ∧ Rests data next rest := by
  have hgroup : groupSize = 50 := rfl
  obtain ⟨hlong, hfew⟩ := codes.selectors_bounds
  have hpos := List.length_pos_iff.mpr hsyms
  have hselectors := hlong 0 hpos
  rw [hgroup] at hfew hselectors
  simp only [headerBits, symbolMapBits, List.append_assoc, List.cons_append] at h
  obtain ⟨hcrc, h⟩ := h.reads crc.toNat_lt (by decide)
  obtain ⟨hrandomized, h⟩ := h.readBit
  obtain ⟨horiginRead, h⟩ := h.reads horigin (by decide)
  obtain ⟨hgroups, h⟩ := h.reads (flagBits_lt _) (by decide)
  obtain ⟨next, halphabet, h⟩ := readAlphabet_written
    (fun group hgroup => flagBits_testBit _ (List.mem_range.mp hgroup)) h
  rw [flatMap_groupBytes, filtered] at halphabet
  have htwo := codes.few
  obtain ⟨hcount, h⟩ := h.reads (by omega) (by decide)
  obtain ⟨hselectorCount, h⟩ := h.reads (by omega) (by decide)
  obtain ⟨next', hreadSelectors, h⟩ := readSelectors_written
    (fun selector hselector => List.mem_range.mpr (codes.known selector hselector)) h
  rw [List.length_range] at hreadSelectors
  obtain ⟨tables, last, htables, hbuilt, h⟩ := readTables_written
    (fun lengths hmem => ⟨codes.size lengths hmem,
      List.ne_nil_of_length_eq_add_one (codes.size lengths hmem)⟩)
    (fun lengths hmem length hlength => ⟨(codes.within lengths hmem length hlength).1,
      Nat.le_trans (codes.within lengths hmem length hlength).2 (by decide)⟩)
    codes.fits h
  rw [codes.count] at htables
  refine ⟨⟨crc, origin, inUse, coding.selectors, tables⟩, last, ?_, rfl, rfl, rfl,
    ⟨rfl, hbuilt⟩, h⟩
  rw [readHeader, hcrc, result_bind_ok]
  dsimp only
  rw [UInt32.ofNat_toNat, ensure_of expected, result_bind_ok, hrandomized, result_bind_ok]
  dsimp only
  rw [ensure_of rfl, result_bind_ok, horiginRead, result_bind_ok]
  dsimp only
  rw [hgroups, result_bind_ok]
  dsimp only
  rw [halphabet, result_bind_ok]
  dsimp only
  rw [ensure_of ne, result_bind_ok, hcount, result_bind_ok]
  dsimp only
  rw [ensure_of htwo, result_bind_ok, hselectorCount, result_bind_ok]
  dsimp only
  rw [ensure_of (by omega), result_bind_ok, hreadSelectors, result_bind_ok]
  dsimp only
  rw [htables]
  rfl

/-- The symbols of a block that has come through move-to-front. -/
theorem decodeSymbols_written {header : BlockHeader} {coding : Coding} {block : List UInt8}
    {blockSize : Nat} (ne : block ≠ []) (fits : block.length ≤ blockSize)
    (short : block.length ≤ 900000)
    (codes : coding.Codes (Mtf.encode block).syms (Mtf.encode block).alphaSize)
    (described : Described header coding) (alphabet : header.alphabet = Mtf.inUse block)
    (h : Rests data bit (codedBits coding.lens coding.selectors (Mtf.encode block).syms 0 ++ rest)) :
    ∃ next, decodeSymbols data header blockSize { mtf := header.alphabet } bit =
      .ok (block, next) ∧ Rests data next rest := by
  have hstart : ({ mtf := header.alphabet } : Symbols).At header.selectors 0 :=
    ⟨rfl, rfl, fun hne => absurd rfl hne⟩
  obtain ⟨marked, next, hread, hmarks, hnext, hrest⟩ := readSymbols_written codes described hstart
    (Mtf.syms_lt ne) (by rw [Nat.zero_add]; exact codes.selectors_bounds.1) h
  have hsyms : (Mtf.encode block).syms ≠ [] :=
    List.append_ne_nil_of_right_ne_nil _ (List.cons_ne_nil _ _)
  have hmarked : marked ≠ [] := by
    intro hnil
    rw [hnil] at hmarks
    exact hsyms hmarks.symm
  have hlast : marked.getLast?.map Prod.snd = some next := by
    rw [← hnext, List.getLast?_eq_some_getLast hmarked]
    rfl
  have hlength : marked.length = (Mtf.encode block).syms.length := by
    rw [← hmarks, List.length_map]
  have hpos : 0 < (Mtf.inUse block).length := by
    obtain ⟨byte, hbyte⟩ := List.exists_mem_of_ne_nil block ne
    exact List.length_pos_of_mem (mem_inUse hbyte)
  have happly := @applySymbols_encodeFrom header blockSize { mtf := header.alphabet } 0 block
    header.alphabet marked next (by rw [hmarks, alphabet]; rfl) hlast rfl ⟨rfl, rfl⟩
    (fun byte hbyte => alphabet ▸ mem_inUse hbyte) rfl (alphabet ▸ hpos)
    (by show 0 + 0 + block.length ≤ blockSize; omega) (by omega)
  refine ⟨next, ?_, hrest⟩
  exact decodeSymbols_eq ⟨rfl, rfl, rfl⟩ ⟨rfl, rfl, rfl, rfl⟩ (hlength ▸ hread) happly

end Read

/-- The bits of a block of groups, behind the magic. -/
def groupsBody (groups : List Group) : List Bool :=
  let (last, origin) := (Bwt.transform (encodedBytes groups)).getD ([], 0)
  bodyBits (bz2Crc32 (rawBytes groups)) origin (Mtf.encode last)

section Groups

variable {groups : List Group}

private theorem rawBytes_length_le (grouped : Grouped groups) :
    5 * (rawBytes groups).length ≤ 259 * (encodedBytes groups).length := by
  have hbounds := grouped.bounds
  clear grouped
  induction groups with
  | nil => simp [rawBytes]
  | cons group groups ih =>
    obtain ⟨hgroup, hgroups⟩ := List.forall_mem_cons.mp hbounds
    have hrest := ih hgroups
    have hmax : maxRun = 259 := rfl
    have hone : 5 * group.rawLen ≤ 259 * group.encodedLen := by
      rw [Group.encodedLen]
      split <;> omega
    rw [rawBytes, encodedBytes, List.flatMap_cons, List.flatMap_cons, ← rawBytes, ← encodedBytes,
      List.length_append, List.length_append, Group.encoded_length, Group.raw, List.length_replicate]
    omega

private theorem transform_groups (grouped : Grouped groups) (ne : groups ≠ [])
    (few : (encodedBytes groups).length ≤ 900000) :
    ∃ last origin, Bwt.transform (encodedBytes groups) = some (last, origin) ∧ last ≠ [] ∧
      last.length = (encodedBytes groups).length ∧ origin < last.length ∧
        inverseTransform last origin = encodedBytes groups := by
  have hpos := encodedBytes_length_pos grouped ne
  have hvacant : Bwt.vacant = 4294967295 := rfl
  obtain ⟨matrix, row, hmatrix, htransform, hrow⟩ :=
    Bwt.transform_matrix (encodedBytes groups) (List.length_pos_iff.mp hpos) (by omega)
  have hlength : (lastColumn matrix).length = (encodedBytes groups).length := by
    rw [lastColumn, List.length_map, hmatrix.length]
  have hlt := (List.getElem?_eq_some_iff.mp hrow).1
  refine ⟨_, row, htransform, List.length_pos_iff.mp (by omega), hlength, ?_,
    Bwt.inverseTransform_matrix hmatrix hrow⟩
  rwa [lastColumn, List.length_map]

theorem groupsJob_written (grouped : Grouped groups) (ne : groups ≠ [])
    (few : (encodedBytes groups).length ≤ 900000) :
    (groupsJob groups).bitLen ≤ 8 * (groupsJob groups).bytes.length ∧
      ((groupsJob groups).bytes.flatMap byteBits).take (groupsJob groups).bitLen =
        bitsOf 48 blockMagic ++ groupsBody groups := by
  obtain ⟨last, origin, htransform, hne, -⟩ := transform_groups grouped ne few
  have hbody : groupsBody groups =
      bodyBits (bz2Crc32 (rawBytes groups)) origin (Mtf.encode last) := by
    rw [groupsBody, htransform]
    rfl
  obtain ⟨hlength, hle, htake⟩ := @encodeBlock_written
    ⟨encodedBytes groups, bz2Crc32 (rawBytes groups), (rawBytes groups).length⟩ last origin
    htransform hne
  rw [groupsJob, hlength, hbody]
  exact ⟨hle, htake⟩

variable {data : List UInt8} {bit level : Nat} {rest : List Bool} {expectedCrc : Option UInt32}

/-- The decoder makes of a block what the encoder has put into it. -/
theorem decoderBlock_written (grouped : Grouped groups) (ne : groups ≠ []) (small : level ≤ 9)
    (fits : (encodedBytes groups).length ≤ level * 100000)
    (expected : expectedCrc = none ∨ expectedCrc = some (bz2Crc32 (rawBytes groups)))
    (h : Rests data bit (groupsBody groups ++ rest)) :
    ∃ next, decoderBlock data bit level expectedCrc =
      .ok (⟨rawBytes groups, bz2Crc32 (rawBytes groups), (encodedBytes groups).length⟩, next) ∧
        Rests data next rest := by
  obtain ⟨last, origin, htransform, hne, hlength, horigin, hinverse⟩ :=
    transform_groups grouped ne (by omega)
  have hcodes := Mtf.build_codes last
  have hsyms := Mtf.encodeFrom_length_le last (Mtf.inUse last) 0
  rw [groupsBody, htransform, Option.getD_some] at h
  dsimp only [bodyBits] at h
  rw [List.append_assoc] at h
  obtain ⟨byte, hbyte⟩ := List.exists_mem_of_ne_nil last hne
  obtain ⟨header, next, hheader, hcrc, hheaderOrigin, halphabet, hdescribed, hrest⟩ :=
    readHeader_written hcodes (List.ne_nil_of_mem (mem_inUse hbyte)) (filterMap_usedBy last)
      (List.append_ne_nil_of_right_ne_nil _ (List.cons_ne_nil _ _))
      (by rw [Mtf.encode, List.length_append, List.length_singleton]; omega) (by omega) expected h
  obtain ⟨next', hsymbols, hrest⟩ := decodeSymbols_written hne (hlength.symm ▸ fits) (by omega)
    hcodes hdescribed halphabet hrest
  have hraw := rawBytes_length_le grouped
  have hexpand := @expandBytes_groups (level * 100000 / 5 * 259 + 4) (bit - 48) [] none 0 groups
    grouped (by decide) (by simp) (by rw [List.length_nil]; omega)
  refine ⟨next', ?_, hrest⟩
  rw [decoderBlock, hheader, result_bind_ok]
  dsimp only
  rw [hsymbols, result_bind_ok]
  dsimp only
  rw [hheaderOrigin, ensure_of ⟨by omega, horigin⟩, result_bind_ok, hinverse,
    hexpand, result_bind_ok, hcrc, List.nil_append, ensure_of rfl, hlength]
  rfl

end Groups

end Fbz.Bzip2
