import Fbz.Bzip2.BlockRoundTrip
import Fbz.Bzip2.Serial

/-!
# What is written is decoded

The bzip2 encoder writes one stream, whatever calls it gets and whatever the workers do, and one
thread decodes it to the bytes of the calls.
-/

namespace Fbz.Bzip2

open BitOrder Pipeline Rle1 Transition

def blockBits (groups : List Group) : List Bool := bitsOf 48 blockMagic ++ groupsBody groups

/-- The checksum of a stream with these blocks more. -/
def streamCrc (crc : UInt32) (blocks : List (List Group)) : UInt32 :=
  blocks.foldl (fun crc groups => combineStreamCrc crc (bz2Crc32 (rawBytes groups))) crc

/-- The outlet has these bits behind it, of these blocks. -/
structure Outlet.Has (o : Outlet) (bits : List Bool) (blocks : List (List Group)) : Prop where
  wf : o.bits.Wf
  bits : o.output.flatMap byteBits ++ o.bits.bits = bits
  crc : o.combinedCrc = streamCrc 0 blocks
  inputLen : o.inputLen = (blocks.flatMap rawBytes).length
  outputLen : o.outputLen = o.output.length
  blocks : o.blocks = blocks.length

section Outlet

variable {o : Outlet} {bits : List Bool} {blocks : List (List Group)} {groups : List Group}

private theorem Outlet.Has.drainBits (h : o.Has bits blocks) : o.drainBits.Has bits blocks := by
  have hbits := h.bits
  refine ⟨⟨h.wf.pending, h.wf.masked⟩, ?_, h.crc, h.inputLen, ?_, h.blocks⟩
  · rw [BitWriter.bits] at hbits
    simpa [Outlet.drainBits, BitWriter.drain, BitWriter.bits] using hbits
  · show o.outputLen + o.bits.out.length = (o.output ++ o.bits.out).length
    rw [h.outputLen, List.length_append]

private theorem Outlet.Has.commit (h : o.Has bits blocks) (fills : Fills 900000 groups) :
    (o.commit (groupsJob groups)).Has (bits ++ blockBits groups) (blocks ++ [groups]) := by
  obtain ⟨hle, hwritten⟩ := groupsJob_written fills.grouped fills.ne fills.fits
  have hbits := BitWriter.writeBuffer_bits h.wf hle
  have hadded : ({ o with
      bits := o.bits.writeBuffer (groupsJob groups).bytes (groupsJob groups).bitLen
      combinedCrc := combineStreamCrc o.combinedCrc (groupsJob groups).crc
      inputLen := o.inputLen + (groupsJob groups).inputLen
      blocks := o.blocks + 1 } : Outlet).Has (bits ++ blockBits groups) (blocks ++ [groups]) := by
    refine ⟨BitWriter.writeBuffer_wf h.wf _ _, ?_, ?_, ?_, h.outputLen, ?_⟩
    · show o.output.flatMap byteBits ++ _ = _
      rw [hbits, hwritten, ← List.append_assoc, h.bits]
      rfl
    · show combineStreamCrc o.combinedCrc _ = _
      rw [h.crc, streamCrc, streamCrc, List.foldl_append]
      rfl
    · show o.inputLen + (rawBytes groups).length = _
      rw [h.inputLen, List.flatMap_append, List.length_append, List.flatMap_singleton]
    · show o.blocks + 1 = _
      rw [h.blocks, List.length_append, List.length_singleton]
  exact hadded.drainBits

private theorem Outlet.Has.foldl_commit (h : o.Has bits blocks) {more : List (List Group)}
    (fills : ∀ groups ∈ more, Fills 900000 groups) :
    ((more.map groupsJob).foldl Outlet.commit o).Has (bits ++ more.flatMap blockBits)
      (blocks ++ more) := by
  induction more generalizing o bits blocks with
  | nil => simpa using h
  | cons groups more ih =>
    obtain ⟨hfirst, hmore⟩ := List.forall_mem_cons.mp fills
    rw [List.map_cons, List.foldl_cons, List.flatMap_cons, ← List.append_assoc,
      ← List.singleton_append, ← List.append_assoc]
    exact ih (h.commit hfirst) hmore

private theorem Outlet.Has.fresh (options : EncodeOptions) (parallelism : Nat) (calls : List Call) :
    (freshEncoder options parallelism calls).back.Has
      ((streamHeader (options.levelOr 9)).flatMap byteBits) [] := by
  obtain ⟨hwf, hbits⟩ :=
    BitWriter.foldl_writeU8 (streamHeader (options.levelOr 9)) BitWriter.wf_empty
  apply Outlet.Has.drainBits
  exact ⟨hwf, hbits, rfl, rfl, rfl, rfl⟩

private theorem freshEncoder_front (options : EncodeOptions) (parallelism : Nat)
    (calls : List Call) : (freshEncoder options parallelism calls).front =
      { blockLimit := blockLimit (options.levelOr 9), calls } := rfl

private theorem Outlet.Has.finish (h : o.Has bits blocks) :
    (∃ pad < 8, o.finish.1.flatMap byteBits = bits ++ (bitsOf 48 endMagic ++
      (bitsOf 32 (streamCrc 0 blocks).toNat ++ List.replicate pad false))) ∧
    o.finish.2 = ⟨(blocks.flatMap rawBytes).length, o.finish.1.length, blocks.length⟩ := by
  have hmagic : BitWriter.Wrote o.bits o.bits.bits := ⟨h.wf, rfl⟩
  have htrailer := (hmagic.writeMagic endMagic).writeBits 32 o.combinedCrc.toNat
  constructor
  · refine ⟨_, BitWriter.padding_lt ((o.bits.writeMagic endMagic).writeU32 o.combinedCrc), ?_⟩
    rw [Outlet.finish, BitWriter.writeU32, BitWriter.finish_eq htrailer.wf, List.flatMap_append,
      (BitWriter.finishBits_bits htrailer.wf).1, htrailer.bits, ← h.crc, ← h.bits]
    simp only [List.append_assoc]
  · rw [Outlet.finish]
    dsimp only
    rw [h.inputLen, h.outputLen, h.blocks, List.length_append]

end Outlet

section Stream

variable {data : List UInt8} {bit level : Nat} {rest : List Bool} {d : Decoded}

private theorem Rests.magicByte {value : Nat} (h : Rests data bit (bitsOf 8 value ++ rest))
    (lt : value < 256) :
    readMagicByte data value bit = .ok (bit + 8) ∧ Rests data (bit + 8) rest := by
  obtain ⟨hread, hrest⟩ := h.reads lt (by decide)
  refine ⟨?_, hrest⟩
  rw [readMagicByte, hread, result_bind_ok]
  dsimp only
  rw [ensure_of rfl]
  rfl

private theorem Rests.streamHeader (inRange : 1 ≤ level ∧ level ≤ 9)
    (h : Rests data bit ((Bzip2.streamHeader level).flatMap byteBits ++ rest)) :
    readStreamHeader data bit = .ok (level, bit + 32) ∧ Rests data (bit + 32) rest := by
  have hbits : (Bzip2.streamHeader level).flatMap byteBits ++ rest =
      bitsOf 8 0x42 ++ (bitsOf 8 0x5a ++ (bitsOf 8 0x68 ++ (bitsOf 8 (0x30 + level) ++ rest))) := by
    simp only [Bzip2.streamHeader, List.flatMap_cons, List.flatMap_nil, List.append_nil,
      List.append_assoc, byteBits_ofNat]
    rfl
  rw [hbits] at h
  obtain ⟨hfirst, h⟩ := h.magicByte (by decide)
  obtain ⟨hsecond, h⟩ := h.magicByte (by decide)
  obtain ⟨hthird, h⟩ := h.magicByte (by decide)
  obtain ⟨hlevel, h⟩ := h.reads (by omega) (by decide)
  refine ⟨?_, h⟩
  have hinside := h.inside
  rw [readStreamHeader, ensure_of (by rw [Bits.remaining]; omega), result_bind_ok, hfirst,
    result_bind_ok, hsecond, result_bind_ok, hthird, result_bind_ok, hlevel, result_bind_ok]
  dsimp only
  rw [ensure_of (by omega), Nat.add_sub_cancel_left]
  rfl

/-- Block after block, and the checksum of all of them at the end. -/
theorem Rests.blocks {blocks : List (List Group)} {crc : UInt32} (small : level ≤ 9)
    (fills : ∀ groups ∈ blocks, Fills (level * 100000) groups)
    (room : d.decodedBytes + (blocks.flatMap rawBytes).length < 2 ^ 64)
    (h : Rests data bit (blocks.flatMap blockBits ++
      (bitsOf 48 endMagic ++ (bitsOf 32 (streamCrc crc blocks).toNat ++ rest)))) :
    ∃ next, Blocks data level bit crc d
        (⟨d.output ++ blocks.flatMap rawBytes,
          d.decodedBytes + (blocks.flatMap rawBytes).length⟩, next) ∧
      Rests data next rest := by
  induction blocks generalizing bit crc d with
  | nil =>
    have hmagic := Rests.magic h (by decide)
    have hbehind := Rests.after_read h
    obtain ⟨hcrc, hrest⟩ := hbehind.reads (streamCrc crc []).toNat_lt (by decide)
    refine ⟨_, ?_, hrest⟩
    rw [List.flatMap_nil, List.append_nil]
    apply Blocks.last hmagic
    rw [checkStreamCrc, hcrc, result_bind_ok]
    dsimp only
    rw [ensure_of (show (streamCrc crc []).toNat = crc.toNat from rfl)]
    rfl
  | cons groups blocks ih =>
    obtain ⟨hfirst, hfills⟩ := List.forall_mem_cons.mp fills
    rw [List.flatMap_cons, List.length_append] at room
    rw [List.flatMap_cons, blockBits, List.append_assoc, List.append_assoc] at h
    have hmagic := h.magic (by decide)
    obtain ⟨next, hblock, hbehind⟩ := decoderBlock_written hfirst.grouped hfirst.ne small
      hfirst.fits (.inl rfl) h.after_read
    obtain ⟨last, hblocks, hrest⟩ := @ih next
      ⟨d.output ++ rawBytes groups, d.decodedBytes + (rawBytes groups).length⟩
      (combineStreamCrc crc (bz2Crc32 (rawBytes groups))) hfills (by dsimp only; omega) hbehind
    refine ⟨last, ?_, hrest⟩
    have hdeliver : d.deliver (rawBytes groups) =
        .ok ⟨d.output ++ rawBytes groups, d.decodedBytes + (rawBytes groups).length⟩ := by
      rw [Decoded.deliver, ensure_of (by omega)]
      rfl
    have hall := Blocks.block hmagic hblock hdeliver hblocks
    rwa [List.append_assoc, Nat.add_assoc, ← List.length_append, ← List.flatMap_cons] at hall

private theorem decompressSerial_stream {blocks : List (List Group)} {pad : Nat}
    {options valid : DecodeOptions}
    (accepted : options.validate = .ok valid) (inRange : 1 ≤ level ∧ level ≤ 9)
    (fills : ∀ groups ∈ blocks, Fills (level * 100000) groups)
    (room : (blocks.flatMap rawBytes).length < 2 ^ 64) (few : pad < 8)
    (written : data.flatMap byteBits = (Bzip2.streamHeader level).flatMap byteBits ++
      (blocks.flatMap blockBits ++ (bitsOf 48 endMagic ++
        (bitsOf 32 (streamCrc 0 blocks).toNat ++ List.replicate pad false)))) :
    decompressSerial data options = .ok (blocks.flatMap rawBytes) := by
  have hstart := Rests.start data
  rw [written] at hstart
  obtain ⟨hheader, hbehind⟩ := hstart.streamHeader inRange
  obtain ⟨next, hblocks, hrest⟩ := @Rests.blocks data (0 + 32) level _ {} blocks 0 inRange.2 fills
    (by rw [Nat.zero_add]; exact room) hbehind
  have hpadded := congrArg List.length hrest.drop
  rw [List.length_drop, flatMap_byteBits_length, List.length_replicate] at hpadded
  have hinside := hbehind.inside
  have hturn : Turn data (0, {}) (Bits.alignByte next, ⟨[] ++ blocks.flatMap rawBytes,
      0 + (blocks.flatMap rawBytes).length⟩) := by
    refine ⟨?_, next, ?_, rfl⟩
    · show data.length * 8 - 0 ≠ 0
      omega
    · show decodeStream data 0 {} = _
      rw [decodeStream, hheader, result_bind_ok]
      exact blocksFrom_eq_ok.mpr hblocks
  rw [decompressSerial_eq_ok]
  refine ⟨⟨valid, accepted⟩, _, _, .single hturn, ?_, rfl⟩
  rw [Bits.alignByte]
  omega

end Stream

section Encoder

variable {options : EncodeOptions} {parallelism : Nat} {calls : List Call} {e : EncoderSession}

private theorem startEncoder_level (h : startEncoder options parallelism calls = .ok e) :
    1 ≤ options.levelOr 9 ∧ options.levelOr 9 ≤ 9 := by
  obtain ⟨checked, hvalid, -⟩ := result_bind_eq_ok.mp h
  obtain ⟨rfl, -, -⟩ := EncodeOptions.validate_eq_ok.mp hvalid
  exact EncodeOptions.levelOr_range hvalid (by decide) (by decide)

/-- The encoder ends with one stream, which one thread decodes to all bytes of the calls. -/
theorem bzip2_round_trip {decoding valid : DecodeOptions}
    (started : startEncoder options parallelism calls = .ok e)
    (accepted : decoding.validate = .ok valid)
    (small : (calls.map Call.bytes).flatten.length < 2 ^ 64) :
    Inevitable encoderClient.Step (fun s => s.status = .finished ∧
      decompressSerial s.back.finish.1 decoding = .ok (calls.map Call.bytes).flatten ∧
      ∃ blocks, s.back.finish.2 =
        ⟨(calls.map Call.bytes).flatten.length, s.back.finish.1.length, blocks⟩ ∧
          (blocks = 0 ↔ (calls.map Call.bytes).flatten = [])) e := by
  apply (startEncoder_begins started).inevitable.mono
  intro s complete
  have hlevel := startEncoder_level started
  obtain ⟨-, rfl⟩ := startEncoder_eq_ok started
  have hback := complete.back
  have hfresh := Outlet.Has.fresh options parallelism calls
  rw [freshEncoder_front] at hback
  generalize options.levelOr 9 = level at hlevel hback hfresh
  have hlimit : blockLimit level = level * 100000 - 19 := rfl
  obtain ⟨blocks, hjobs, hfills, hraw⟩ :=
    (collects_start (blockLimit level) calls).cuts (by dsimp only; omega) (Nat.zero_le _)
  have hplain : blocks.flatMap rawBytes = (calls.map Call.bytes).flatten := hraw
  have hwithin (groups : List Group) (hgroups : groups ∈ blocks) (limit : Nat)
      (le : level * 100000 ≤ limit) : Fills limit groups := by
    have hblock := hfills groups hgroups
    have hfits := hblock.fits
    dsimp only at hfits
    exact ⟨hblock.grouped, hblock.ne, by omega⟩
  have hhas : s.back.Has ((streamHeader level).flatMap byteBits ++ blocks.flatMap blockBits)
      blocks := by
    rw [hback, hjobs]
    exact hfresh.foldl_commit fun groups hgroups => hwithin groups hgroups 900000 (by omega)
  obtain ⟨⟨pad, hpad, hwritten⟩, hreport⟩ := hhas.finish
  rw [← hplain] at small ⊢
  refine ⟨complete.status, ?_, blocks.length, hreport, ?_⟩
  · rw [List.append_assoc] at hwritten
    exact decompressSerial_stream accepted hlevel
      (fun groups hgroups => hwithin groups hgroups _ (Nat.le_refl _)) small hpad hwritten
  · constructor
    · intro hnone
      rw [List.length_eq_zero_iff.mp hnone]
      rfl
    · intro hempty
      by_contra hsome
      obtain ⟨groups, hgroups⟩ := List.exists_mem_of_ne_nil blocks
        (fun hnil => hsome (List.length_eq_zero_iff.mpr hnil))
      have hblock := hfills groups hgroups
      have hnone := List.flatMap_eq_nil_iff.mp hempty groups hgroups
      have hpos := rawBytes_length_pos hblock.grouped hblock.ne
      rw [hnone] at hpos
      exact Nat.lt_irrefl 0 hpos

/-- A run of five, with a flush inside it. -/
theorem bzip2_round_trip_flushed : ∃ e, startEncoder ⟨2, 2 ^ 30, some 1⟩ 1
      [.write [7, 7, 7], .flush, .write [7, 7]] = .ok e ∧
    Inevitable encoderClient.Step (fun s => s.status = .finished ∧
      decompressSerial s.back.finish.1 ⟨1, 2 ^ 30⟩ = .ok [7, 7, 7, 7, 7] ∧
      ∃ blocks, s.back.finish.2 = ⟨5, s.back.finish.1.length, blocks⟩ ∧
        (blocks = 0 ↔ [7, 7, 7, 7, 7] = ([] : List UInt8))) e := by
  have hstart : startEncoder ⟨2, 2 ^ 30, some 1⟩ 1 [.write [7, 7, 7], .flush, .write [7, 7]] =
      .ok (freshEncoder ⟨2, 2 ^ 30, some 1⟩ 1 [.write [7, 7, 7], .flush, .write [7, 7]]) := rfl
  exact ⟨_, hstart, bzip2_round_trip hstart (show DecodeOptions.validate ⟨1, 2 ^ 30⟩ = .ok _ from rfl)
    (by decide)⟩

end Encoder

end Fbz.Bzip2
