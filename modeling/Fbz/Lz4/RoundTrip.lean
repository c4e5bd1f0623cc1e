import Fbz.Lz4.BlockRoundTrip
import Fbz.Lz4.Stream

/-!
# LZ4 frames round trip

The encoder keeps, over any calls, a list of blocks it has written and a list it has submitted;
with its buffer they are the bytes it was given. The decoder on one thread undoes each block.
-/

set_option linter.unusedSimpArgs false

namespace Fbz.Lz4

open Pipeline

/-- The four block sizes of the format. -/
def IsBlockSize (size : Nat) : Prop :=
  size = 64 * 1024 ∨ size = 256 * 1024 ∨ size = 1024 * 1024 ∨ size = 4 * 1024 * 1024

private theorem shrinkBlockSize_isBlockSize {memoryLimit size : Nat} (h : IsBlockSize size) :
    IsBlockSize (shrinkBlockSize memoryLimit size) := by
  induction size using shrinkBlockSize.induct memoryLimit with
  | case1 size big ih =>
    rw [shrinkBlockSize, if_pos big]
    refine ih ?_
    have := big.1
    unfold Encode.minBlockSize at this
    unfold IsBlockSize at h ⊢
    omega
  | case2 size small => rwa [shrinkBlockSize, if_neg small]

theorem selectedBlockSize_eq_ok {memoryLimit size : Nat}
    (h : selectedBlockSize memoryLimit = .ok size) :
    IsBlockSize size ∧ reservation size ≤ memoryLimit := by
  simp only [selectedBlockSize, result_bind_eq_ok, ensure_eq_ok] at h
  obtain ⟨_, hfits, heq⟩ := h
  obtain rfl := Except.ok.inj heq
  exact ⟨shrinkBlockSize_isBlockSize (.inr (.inr (.inr rfl))), hfits⟩

theorem selectedBlockSize_target {memoryLimit : Nat}
    (room : reservation Encode.targetBlockSize ≤ memoryLimit) :
    selectedBlockSize memoryLimit = .ok Encode.targetBlockSize := by
  have hsize : shrinkBlockSize memoryLimit Encode.targetBlockSize = Encode.targetBlockSize := by
    rw [shrinkBlockSize, if_neg fun h => Nat.not_lt.mpr room h.2]
  rw [selectedBlockSize, hsize, ensure_of room]
  rfl

private theorem IsBlockSize.code {size : Nat} (h : IsBlockSize size) :
    maxBlockSizeOf ((descriptorCode size <<< 4 >>> 4) &&& 0x07) = .ok size ∧
      descriptorCode size <<< 4 &&& 0x8f = 0 := by
  rcases h with rfl | rfl | rfl | rfl <;> exact ⟨rfl, rfl⟩

theorem IsBlockSize.bounds {size : Nat} (h : IsBlockSize size) :
    0 < size ∧ size < 2 ^ 31 := by
  unfold IsBlockSize at h
  omega

/-- The header the encoder writes for blocks of this size. -/
def encodedHeader (blockSize : Nat) : FrameHeader :=
  { sourceStart := 0, blocksStart := 7, maxBlockSize := blockSize, mode := .independent
    blockChecksums := false, contentChecksum := true, contentSize := none }

variable {xxh : XxHash32}

private theorem frameHeader_eq (blockSize : Nat) :
    Encoder.frameHeader xxh blockSize =
      (0x04 : UInt8) :: 0x22 :: 0x4d :: 0x18 :: 0x64 :: (descriptorCode blockSize <<< 4) ::
        UInt8.ofNat (xxh.xxhash32 [0x64, descriptorCode blockSize <<< 4] / 2 ^ 8) :: [] := rfl

private theorem parseFrameHeader_frameHeader {blockSize : Nat} (h : IsBlockSize blockSize)
    (rest : List UInt8) :
    parseFrameHeader xxh (Encoder.frameHeader xxh blockSize ++ rest) 0 =
      .ok (encodedHeader blockSize) := by
  obtain ⟨hcode, hreserved⟩ := h.code
  rw [frameHeader_eq]
  obtain ⟨bd, hbd⟩ : ∃ bd, bd = descriptorCode blockSize <<< 4 := ⟨_, rfl⟩
  obtain ⟨checksum, hchecksum⟩ : ∃ checksum, checksum =
    UInt8.ofNat (xxh.xxhash32 [0x64, bd] / 2 ^ 8) := ⟨_, rfl⟩
  rw [← hbd] at hcode hreserved ⊢
  rw [← hchecksum]
  have hrange : range? ((0x04 : UInt8) :: 0x22 :: 0x4d :: 0x18 :: 0x64 :: bd :: checksum :: rest)
      4 6 = some [0x64, bd] := by
    rw [range?, if_pos (by simp)]
    rfl
  have hvalue : checksum.toNat = xxh.xxhash32 [0x64, bd] / 2 ^ 8 % 2 ^ 8 := by
    rw [hchecksum]
    exact UInt8.toNat_ofNat'
  simp only [List.cons_append, List.nil_append, parseFrameHeader, Nat.zero_add,
    List.getElem?_cons_succ, List.getElem?_cons_zero, okOr_some, result_bind_ok]
  rw [ensure_of (by decide), ensure_of ⟨by decide, hreserved⟩, hcode]
  simp only [result_bind_ok, readContentSize, refuseDictionary]
  rw [if_neg (by decide), result_bind_ok]
  dsimp only
  rw [if_neg (by decide), result_bind_ok]
  simp only [List.getElem?_cons_succ, List.getElem?_cons_zero, okOr_some, result_bind_ok, hrange]
  rw [ensure_of hvalue.symm]
  rfl

private theorem readU32_toLe (pre post : List UInt8) (value : Nat) (context : String)
    (lt : value < 2 ^ 32) :
    readU32 (pre ++ toLe 4 value ++ post) pre.length context = .ok value := by
  have hrange := range?_append pre (toLe 4 value) post
  rw [toLe_length] at hrange
  rw [readU32, hrange, okOr_some, result_bind_ok, leNat_toLe_of_lt (by omega)]
  rfl

private theorem sizeWord {size : Nat} (stored : Bool) (lt : size < 2 ^ 31) (pos : 0 < size) :
    let word := if stored then size ||| 1 <<< 31 else size
    word < 2 ^ 32 ∧ word ≠ 0 ∧ word.testBit 31 = stored ∧ word % 2 ^ 31 = size := by
  cases stored with
  | false =>
    refine ⟨by simp only [Bool.false_eq_true, if_false]; omega, by simp; omega, ?_, ?_⟩
    · simp [Nat.testBit_lt_two_pow lt]
    · simp only [Bool.false_eq_true, if_false]
      exact Nat.mod_eq_of_lt lt
  | true =>
    have hor : size ||| 1 <<< 31 = size + 2 ^ 31 := by
      rw [Nat.or_comm, ← Nat.shiftLeft_add_eq_or_of_lt lt]
      omega
    have hbit : (size ||| 1 <<< 31).testBit 31 = true := by
      rw [Nat.testBit_or, Nat.one_shiftLeft, Nat.testBit_two_pow_self, Bool.or_true]
    simp only [if_true]
    refine ⟨by omega, by omega, hbit, by omega⟩

/-- The layout the decoder finds for a block at `position`. -/
private def layoutOf (position : Nat) (block : EncodedBlock) : BlockLayout :=
  { dataStart := position + 4, dataEnd := position + 4 + block.bytes.length
    stored := block.stored, expectedChecksum := none }

private theorem nextBlock_blockBytes {blockSize : Nat} (pre post : List UInt8)
    (block : EncodedBlock) (pos : 0 < block.bytes.length) (le : block.bytes.length ≤ blockSize)
    (lt : blockSize < 2 ^ 31) :
    nextBlock (pre ++ Encoder.blockBytes block ++ post) pre.length (encodedHeader blockSize) =
      .ok (some (layoutOf pre.length block), (pre ++ Encoder.blockBytes block).length) := by
  obtain ⟨hlt, hne, hstored, hsize⟩ := @sizeWord block.bytes.length block.stored (by omega) pos
  rw [Encoder.blockBytes, Nat.mod_eq_of_lt (by omega)]
  obtain ⟨word, hword⟩ : ∃ word, word =
    if block.stored = true then block.bytes.length ||| 1 <<< 31 else block.bytes.length := ⟨_, rfl⟩
  rw [← hword] at hlt hne hstored hsize ⊢
  have hread := readU32_toLe pre (block.bytes ++ post) word "block header" hlt
  simp only [List.append_assoc] at hread ⊢
  rw [nextBlock, hread, result_bind_ok, if_neg hne, hsize, hstored]
  dsimp only
  rw [ensure_of ⟨by omega, le⟩, ensure_of (by
    simp only [List.length_append, toLe_length]; omega)]
  simp only [result_bind_ok, readBlockChecksum, encodedHeader, List.length_append, toLe_length,
    Bool.false_eq_true, if_false, Nat.add_assoc, layoutOf]
  rfl

private theorem slice_blockBytes (pre post : List UInt8) (block : EncodedBlock) :
    slice (pre ++ Encoder.blockBytes block ++ post) (layoutOf pre.length block).dataStart
      (layoutOf pre.length block).dataEnd = block.bytes := by
  obtain ⟨word, hblock, hword⟩ : ∃ word, Encoder.blockBytes block = word ++ block.bytes ∧
    word.length = 4 := ⟨_, rfl, toLe_length ..⟩
  have hrange := range?_append (pre ++ word) block.bytes post
  obtain ⟨-, -, hslice⟩ := range?_eq_some.mp hrange
  rw [List.length_append, hword] at hslice
  rw [hblock, ← List.append_assoc]
  exact hslice.symm

private theorem decodeLayoutBlock_layoutOf {maxBlockSize level : Nat} (pre post chunk : List UInt8)
    (le : chunk.length ≤ maxBlockSize) (bounded : maxBlockSize < usizeLimit) :
    let block := encodeBlock chunk level
    let data := pre ++ Encoder.blockBytes block ++ post
    ∃ decoded, decodeLayoutBlock xxh data (layoutOf pre.length block) [] maxBlockSize =
        .ok decoded ∧ decoded.bytes data = chunk := by
  intro block data
  have hslice : slice data (layoutOf pre.length block).dataStart
      (layoutOf pre.length block).dataEnd = block.bytes := slice_blockBytes pre post block
  rw [decodeLayoutBlock, hslice]
  rcases Nat.lt_or_ge (compressBlock chunk level).length chunk.length with hsmall | hlarge
  · have hblock : block = ⟨compressBlock chunk level, chunk.length, false⟩ := if_pos hsmall
    rw [hblock]
    refine ⟨.decoded chunk, ?_, rfl⟩
    simp only [layoutOf, checkBlockChecksum, result_bind_ok, Bool.false_eq_true, if_false,
      decompressBlock_compressBlock level le bounded]
    rfl
  · have hblock : block = ⟨chunk, chunk.length, true⟩ := if_neg (by omega)
    rw [hblock] at hslice ⊢
    exact ⟨_, rfl, hslice⟩

private theorem encodeBlock_length {level : Nat} {chunk : List UInt8} (ne : chunk ≠ [])
    (bounded : chunk.length < usizeLimit) :
    0 < (encodeBlock chunk level).bytes.length ∧
      (encodeBlock chunk level).bytes.length ≤ chunk.length ∧
        (encodeBlock chunk level).inputLen = chunk.length := by
  have hpos := List.length_pos_iff.mpr ne
  unfold encodeBlock
  dsimp only
  split
  case isTrue small =>
    refine ⟨Nat.pos_of_ne_zero fun hzero => ?_, Nat.le_of_lt small, rfl⟩
    have hround := decompressBlock_compressBlock level (Nat.le_refl chunk.length) bounded
    have hempty : compressBlock chunk level = [] := List.eq_nil_of_length_eq_zero hzero
    rw [hempty, decompressBlock, decompressFrom, dif_neg (by simp)] at hround
    exact ne (Except.ok.inj hround).symm
  case isFalse => exact ⟨hpos, Nat.le_refl _, rfl⟩

/-- What the encoder writes for these blocks. -/
def blocksBytes (level : Nat) (chunks : List (List UInt8)) : List UInt8 :=
  (chunks.map fun chunk => Encoder.blockBytes (encodeBlock chunk level)).flatten

/-- Blocks are neither empty nor larger than the frame allows. -/
def Chunks (blockSize : Nat) (chunks : List (List UInt8)) : Prop :=
  ∀ chunk ∈ chunks, chunk ≠ [] ∧ chunk.length ≤ blockSize

/-- The committer has taken these bytes, in so many blocks. -/
structure Takes (c d : FrameCommitter xxh) (bytes : List UInt8) (blocks : Nat) : Prop where
  output : d.output = c.output ++ bytes
  hasher : d.hasher = c.hasher.map (xxh.write · bytes)
  decoded : d.decoded = c.decoded + bytes.length
  blocks : d.blocks.length = c.blocks.length + blocks

private theorem takes_nil (c : FrameCommitter xxh) : Takes c c [] 0 :=
  ⟨by simp, by simp [xxh.write_nil], rfl, rfl⟩

private theorem Takes.trans {c d e : FrameCommitter xxh} {xs ys : List UInt8} {m n : Nat}
    (h : Takes c d xs m) (k : Takes d e ys n) : Takes c e (xs ++ ys) (m + n) where
  output := by rw [k.output, h.output, List.append_assoc]
  hasher := by
    rw [k.hasher, h.hasher, Option.map_map]
    simp only [Function.comp_def, xxh.write_append]
  decoded := by rw [k.decoded, h.decoded, List.length_append, Nat.add_assoc]
  blocks := by rw [k.blocks, h.blocks, Nat.add_assoc]

private theorem decodeAndCommit_takes {data bytes : List UInt8} {maxBlockSize : Nat}
    {layout : BlockLayout} {decoded : DecodedBlock} (c : FrameCommitter xxh)
    (decode : decodeLayoutBlock xxh data layout [] maxBlockSize = .ok decoded)
    (same : decoded.bytes data = bytes) (total : c.decoded + bytes.length < 2 ^ 64) :
    ∃ d, c.decodeAndCommit data maxBlockSize layout = (d, .ok ()) ∧ Takes c d bytes 1 := by
  simp only [FrameCommitter.decodeAndCommit, decode, FrameCommitter.commit, same, if_pos total]
  exact ⟨_, rfl, rfl, rfl, rfl, by simp⟩

/-- The decoder delivers the bytes of every block and stops behind the end mark. -/
private theorem decodeIndependentSerial_blocksBytes {level blockSize : Nat}
    {chunks : List (List UInt8)} (pre post : List UInt8) (c : FrameCommitter xxh)
    (size : IsBlockSize blockSize) (h : Chunks blockSize chunks)
    (total : c.decoded + chunks.flatten.length < 2 ^ 64) :
    ∃ d, decodeIndependentSerial (pre ++ (blocksBytes level chunks ++ (toLe 4 0 ++ post)))
          (encodedHeader blockSize) pre.length c =
        (d, .ok (pre.length + (blocksBytes level chunks).length + 4)) ∧
      Takes c d chunks.flatten chunks.length := by
  induction chunks generalizing pre c with
  | nil =>
    refine ⟨c, ?_, takes_nil c⟩
    have hread := readU32_toLe pre post 0 "block header" (by decide)
    rw [List.append_assoc] at hread
    rw [decodeIndependentSerial_eq, nextBlock]
    simp only [blocksBytes, List.map_nil, List.flatten_nil, List.nil_append, hread]
    rfl
  | cons chunk chunks ih =>
    obtain ⟨hne, hle⟩ := h chunk List.mem_cons_self
    have hbounds := size.bounds
    have husize : (2 : Nat) ^ 31 < usizeLimit := by decide
    rw [List.flatten_cons, List.length_append] at total
    obtain ⟨hpos, hsmall, -⟩ := @encodeBlock_length level chunk hne (by omega)
    obtain ⟨decoded, hdecode, hbytes⟩ := @decodeLayoutBlock_layoutOf xxh blockSize level pre
      (blocksBytes level chunks ++ (toLe 4 0 ++ post)) chunk hle (by omega)
    have hnext := nextBlock_blockBytes pre (blocksBytes level chunks ++ (toLe 4 0 ++ post)) _ hpos
      (Nat.le_trans hsmall hle) hbounds.2
    obtain ⟨d, hcommit, htake⟩ := decodeAndCommit_takes c hdecode hbytes (by omega)
    obtain ⟨e, hrest, hmore⟩ := ih (pre ++ Encoder.blockBytes (encodeBlock chunk level)) d
      (fun other hmem => h other (List.mem_cons_of_mem _ hmem)) (by rw [htake.decoded]; omega)
    refine ⟨e, ?_, by
      rw [List.flatten_cons, List.length_cons, Nat.add_comm chunks.length]
      exact htake.trans hmore⟩
    have hsplit : blocksBytes level (chunk :: chunks) =
        Encoder.blockBytes (encodeBlock chunk level) ++ blocksBytes level chunks := by
      rw [blocksBytes, List.map_cons, List.flatten_cons, blocksBytes]
    rw [decodeIndependentSerial_eq, hsplit, List.append_assoc, ← List.append_assoc pre, hnext]
    dsimp only [encodedHeader] at hcommit hrest ⊢
    rw [hcommit]
    dsimp only
    rw [hrest, List.length_append, List.length_append, Nat.add_assoc pre.length]

namespace Encoder

/-- `done` has been written and `queued` is with the pool; both were cut from the input. -/
structure Encodes (level blockSize : Nat) (e : Encoder xxh) (done queued : List (List UInt8)) :
    Prop where
  sameLevel : e.level = level
  sameSize : e.blockSize = blockSize
  workers : 0 < e.pipeline.maxActive
  fits : e.reservation ≤ e.pipeline.memoryLimit
  pipeline : e.pipeline.Holds (queued.map fun chunk => (e.reservation, encodeBlock chunk level))
  output : e.output = frameHeader xxh blockSize ++ blocksBytes level done
  inputLen : e.inputLen = done.flatten.length
  outputLen : e.outputLen = e.output.length
  blocks : e.blocks = done.length
  chunks : Chunks blockSize (done ++ queued)

/-- The buffer and the hash are as before. -/
def SameInput (e f : Encoder xxh) : Prop := f.buffer = e.buffer ∧ f.contentHash = e.contentHash

variable {level blockSize : Nat} {e : Encoder xxh} {done queued : List (List UInt8)}

private theorem blockBytes_length (block : EncodedBlock) :
    (blockBytes block).length = 4 + block.bytes.length := by
  rw [blockBytes, List.length_append, toLe_length]

private theorem Encodes.commitNext {chunk : List UInt8}
    (h : Encodes level blockSize e done (chunk :: queued)) :
    ∃ f, e.commitNext = .ok f ∧ Encodes level blockSize f (done ++ [chunk]) queued ∧
      SameInput e f := by
  obtain ⟨pipeline, htake, hholds, hactive, hlimit⟩ := h.pipeline.takeNext
  have hlength : (encodeBlock chunk level).inputLen = chunk.length := by
    unfold encodeBlock
    dsimp only
    split <;> rfl
  refine ⟨{ e with pipeline }.written (encodeBlock chunk level), ?_, ?_, rfl, rfl⟩
  · rw [Encoder.commitNext, htake]
    rfl
  · exact
      { sameLevel := h.sameLevel
        sameSize := h.sameSize
        workers := Nat.lt_of_lt_of_eq h.workers hactive.symm
        fits := Nat.le_trans h.fits (Nat.le_of_eq hlimit.symm)
        pipeline := hholds
        output := by simp [written, h.output, blocksBytes]
        inputLen := by simp [written, h.inputLen, hlength]
        outputLen := by simp [written, h.outputLen, blockBytes_length]
        blocks := by simp [written, h.blocks]
        chunks := by simpa using h.chunks }

private theorem Encodes.makeRoom (h : Encodes level blockSize e done queued) :
    ∃ f done' queued', e.makeRoom = .ok f ∧ Encodes level blockSize f done' queued' ∧
      done' ++ queued' = done ++ queued ∧ SameInput e f ∧
        f.pipeline.canSubmit f.reservation = true := by
  induction queued generalizing e done with
  | nil =>
    have hroom := h.pipeline.canSubmit_nil h.workers h.fits
    exact ⟨e, done, [], by rw [Encoder.makeRoom, if_pos hroom], h, rfl, ⟨rfl, rfl⟩, hroom⟩
  | cons chunk queued ih =>
    by_cases hroom : e.pipeline.canSubmit e.reservation = true
    · exact ⟨e, done, _, by rw [Encoder.makeRoom, if_pos hroom], h, rfl, ⟨rfl, rfl⟩, hroom⟩
    · obtain ⟨f, hcommit, hf, hsame⟩ := h.commitNext
      obtain ⟨g, done', queued', hrun, hg, hsplit, hsame', hroom'⟩ := ih hf
      refine ⟨g, done', queued', ?_, hg, by rw [hsplit]; simp,
        ⟨hsame'.1.trans hsame.1, hsame'.2.trans hsame.2⟩, hroom'⟩
      rw [Encoder.makeRoom, if_neg hroom]
      split
      · simp_all
      · simp_all

private theorem Encodes.drain (h : Encodes level blockSize e done queued) :
    ∃ f, e.drain = .ok f ∧ Encodes level blockSize f (done ++ queued) [] ∧ SameInput e f := by
  induction queued generalizing e done with
  | nil =>
    have hidle : ¬ e.pipeline.hasPending = true := fun hp => h.pipeline.hasPending.mp hp rfl
    exact ⟨e, by rw [Encoder.drain, if_neg hidle], by simpa using h, rfl, rfl⟩
  | cons chunk queued ih =>
    have hpending : e.pipeline.hasPending = true := h.pipeline.hasPending.mpr (by simp)
    obtain ⟨f, hcommit, hf, hsame⟩ := h.commitNext
    obtain ⟨g, hrun, hg, hsame'⟩ := ih hf
    refine ⟨g, ?_, by simpa using hg, hsame'.1.trans hsame.1, hsame'.2.trans hsame.2⟩
    rw [Encoder.drain, if_pos hpending]
    split
    · simp_all
    · simp_all

/-- Submitting moves the buffer to the end of the queue. -/
private theorem Encodes.submitBuffer (h : Encodes level blockSize e done queued)
    (le : e.buffer.length ≤ blockSize) :
    ∃ f done' queued', e.submitBuffer = .ok f ∧ Encodes level blockSize f done' queued' ∧
      (done' ++ queued').flatten = (done ++ queued).flatten ++ e.buffer ∧ f.buffer = [] ∧
        f.contentHash = e.contentHash := by
  by_cases hempty : e.buffer = []
  · refine ⟨e, done, queued, ?_, h, by rw [hempty, List.append_nil], hempty, rfl⟩
    rw [Encoder.submitBuffer, if_pos (by rw [hempty]; rfl)]
    rfl
  · obtain ⟨f, done', queued', hroom, hf, hsplit, hsame, hcan⟩ := h.makeRoom
    refine ⟨{ f with pipeline := f.pipeline.enqueue f.reservation (encodeBlock f.buffer f.level)
                     buffer := [] },
      done', queued' ++ [e.buffer], ?_, ?_, ?_, rfl, hsame.2⟩
    · rw [Encoder.submitBuffer, if_neg (by simpa using hempty), hroom, result_bind_ok,
        StreamingOrdered.submit_eq _ hcan]
      rfl
    · have henqueue := hf.pipeline.enqueue f.reservation (encodeBlock f.buffer f.level)
      exact
        { sameLevel := hf.sameLevel
          sameSize := hf.sameSize
          workers := hf.workers
          fits := hf.fits
          pipeline := by simpa [hf.sameLevel, hsame.1] using henqueue
          output := hf.output
          inputLen := hf.inputLen
          outputLen := hf.outputLen
          blocks := hf.blocks
          chunks := by
            rw [← List.append_assoc, hsplit]
            intro chunk hmem
            rcases List.mem_append.mp hmem with hold | hnew
            · exact h.chunks chunk hold
            · rw [List.mem_singleton.mp hnew]
              exact ⟨hempty, le⟩ }
    · rw [← List.append_assoc, hsplit, List.flatten_append]
      simp

/-- Between calls: the blocks and the buffer are the input, and the buffer has room. -/
structure Between (level blockSize : Nat) (e : Encoder xxh) (input : List UInt8) : Prop where
  encodes : ∃ done queued, Encodes level blockSize e done queued ∧
    (done ++ queued).flatten ++ e.buffer = input
  room : e.buffer.length < blockSize

private theorem Between.fill {input bytes : List UInt8} (h : Between level blockSize e input)
    (le : e.buffer.length + bytes.length ≤ blockSize) :
    ∃ f, (if (e.buffer ++ bytes).length = e.blockSize then
        { e with buffer := e.buffer ++ bytes }.submitBuffer
        else pure { e with buffer := e.buffer ++ bytes } : Except Halt (Encoder xxh)) = .ok f ∧
      Between level blockSize f (input ++ bytes) ∧ f.contentHash = e.contentHash := by
  obtain ⟨done, queued, hencodes, hinput⟩ := h.encodes
  have hbuffered : Encodes level blockSize { e with buffer := e.buffer ++ bytes } done queued :=
    { hencodes with }
  split
  case isTrue full =>
    obtain ⟨f, done', queued', hsubmit, hf, hflat, hempty, hhash⟩ :=
      hbuffered.submitBuffer (Nat.le_of_eq (full.trans hencodes.sameSize))
    refine ⟨f, hsubmit, ⟨⟨done', queued', hf, ?_⟩, ?_⟩, hhash⟩
    · rw [hflat, hempty, List.append_nil, ← hinput, List.append_assoc]
    · rw [hempty]
      exact Nat.lt_of_le_of_lt (Nat.zero_le _) h.room
  case isFalse more =>
    rw [hencodes.sameSize, List.length_append] at more
    refine ⟨_, rfl, ⟨⟨done, queued, hbuffered, ?_⟩, ?_⟩, rfl⟩
    · rw [← hinput, List.append_assoc]
    · rw [List.length_append]
      omega

private theorem Between.writeFrom {input bytes : List UInt8}
    (h : Between level blockSize e input) :
    ∃ f, e.writeFrom bytes = .ok f ∧ Between level blockSize f (input ++ bytes) ∧
      f.contentHash = e.contentHash := by
  induction hn : bytes.length using Nat.strongRecOn generalizing e input bytes with
  | ind n ih =>
    by_cases hb : bytes = []
    · exact ⟨e, by rw [Encoder.writeFrom, dif_pos hb], by rwa [hb, List.append_nil], rfl⟩
    · have hroom := h.room
      have hpos := List.length_pos_iff.mpr hb
      obtain ⟨done, queued, hencodes, -⟩ := h.encodes
      obtain ⟨take, htake⟩ : ∃ take, take = min bytes.length (e.blockSize - e.buffer.length) :=
        ⟨_, rfl⟩
      rw [hencodes.sameSize] at htake
      have hlen : (bytes.take take).length = take := by
        rw [List.length_take]
        omega
      obtain ⟨f, hfill, hf, hhash⟩ := @Between.fill _ _ _ _ _ (bytes.take take) h (by omega)
      obtain ⟨g, hrest, hg, hhash'⟩ := ih (bytes.drop take).length
        (by rw [List.length_drop]; omega) hf rfl
      refine ⟨g, ?_, ?_, hhash'.trans hhash⟩
      · rw [Encoder.writeFrom, dif_neg hb]
        simp only [hencodes.sameSize, ← htake]
        rw [dif_neg (by omega)]
        rw [hencodes.sameSize] at hfill
        by_cases hfull : (e.buffer ++ bytes.take take).length = blockSize
        · rw [if_pos hfull] at hfill ⊢
          rw [hfill, result_bind_ok, hrest]
        · rw [if_neg hfull] at hfill ⊢
          rw [hfill, result_bind_ok, hrest]
      · rwa [List.append_assoc, List.take_append_drop] at hg

/-- Calls on an encoder before it is finished. -/
inductive Call
  | write (bytes : List UInt8)
  | flush

/-- What a call hands to the encoder. -/
def Call.bytes : Call → List UInt8
  | write bytes => bytes
  | flush => []

def call (e : Encoder xxh) : Call → Except Halt (Encoder xxh)
  | .write bytes => do
    let (_, e) ← e.write bytes
    return e
  | .flush => e.flush

/-- Any calls, then `finish`. -/
def run (e : Encoder xxh) : List Call → Except Halt (List UInt8 × EncodeReport)
  | [] => e.finish
  | c :: calls => do
    let e ← e.call c
    e.run calls

/-- The state between calls, with the hash of the input. -/
structure Ready (level blockSize : Nat) (e : Encoder xxh) (input : List UInt8) : Prop
    extends Between level blockSize e input where
  hash : e.contentHash = xxh.write xxh.withSeed input

private theorem Ready.call {input : List UInt8} (h : Ready level blockSize e input) (c : Call) :
    ∃ f, e.call c = .ok f ∧ Ready level blockSize f (input ++ c.bytes) := by
  cases c with
  | write bytes =>
    have hhashed : Between level blockSize
        { e with contentHash := xxh.write e.contentHash bytes } input := by
      obtain ⟨⟨done, queued, hencodes, hinput⟩, hroom⟩ := h.toBetween
      exact ⟨⟨done, queued, { hencodes with }, hinput⟩, hroom⟩
    obtain ⟨f, hwrite, hf, hhash⟩ := @Between.writeFrom _ _ _ _ _ bytes hhashed
    refine ⟨f, ?_, { hf with hash := ?_ }⟩
    · rw [Encoder.call, Encoder.write, hwrite]
      rfl
    · rw [hhash, h.hash, xxh.write_append]
      rfl
  | flush =>
    obtain ⟨⟨done, queued, hencodes, hinput⟩, hroom⟩ := h.toBetween
    obtain ⟨f, done', queued', hsubmit, hf, hflat, hempty, hhash⟩ :=
      hencodes.submitBuffer (Nat.le_of_lt hroom)
    obtain ⟨g, hdrain, hg, hsame⟩ := hf.drain
    refine ⟨g, ?_, { encodes := ⟨_, _, hg, ?_⟩, room := ?_, hash := ?_ }⟩
    · rw [Encoder.call, Encoder.flush, Encoder.flushBlocks, hsubmit, result_bind_ok, hdrain]
    · rw [List.append_nil, hflat, hsame.1, hempty, List.append_nil, hinput, Call.bytes,
        List.append_nil]
    · rw [hsame.1, hempty]
      exact Nat.lt_of_le_of_lt (Nat.zero_le _) hroom
    · rw [hsame.2, hhash, h.hash, Call.bytes, List.append_nil]

private theorem Ready.finish {input : List UInt8} (h : Ready level blockSize e input) :
    ∃ chunks, Chunks blockSize chunks ∧ chunks.flatten = input ∧
      e.finish = .ok (frameHeader xxh blockSize ++ (blocksBytes level chunks ++
        (toLe 4 0 ++ toLe 4 (xxh.xxhash32 input))),
        ⟨input.length, (frameHeader xxh blockSize ++ (blocksBytes level chunks ++
        (toLe 4 0 ++ toLe 4 (xxh.xxhash32 input)))).length, chunks.length⟩) := by
  obtain ⟨⟨done, queued, hencodes, hinput⟩, hroom⟩ := h.toBetween
  obtain ⟨f, done', queued', hsubmit, hf, hflat, hempty, hhash⟩ :=
    hencodes.submitBuffer (Nat.le_of_lt hroom)
  obtain ⟨g, hdrain, hg, hsame⟩ := hf.drain
  rw [hinput] at hflat
  refine ⟨done' ++ queued', by simpa using hg.chunks, hflat, ?_⟩
  rw [Encoder.finish, Encoder.flushBlocks, hsubmit, result_bind_ok, hdrain, result_bind_ok,
    hg.outputLen, hg.inputLen, hg.blocks, hg.output, hflat, hsame.2, hhash, h.hash]
  simp only [List.append_assoc, List.length_append, toLe_length, Nat.add_assoc]
  rfl

private theorem Ready.run {input : List UInt8} {calls : List Call}
    (h : Ready level blockSize e input) :
    ∃ chunks, Chunks blockSize chunks ∧
      chunks.flatten = input ++ (calls.map Call.bytes).flatten ∧
      e.run calls = .ok (frameHeader xxh blockSize ++ (blocksBytes level chunks ++
        (toLe 4 0 ++ toLe 4 (xxh.xxhash32 chunks.flatten))),
        ⟨chunks.flatten.length, (frameHeader xxh blockSize ++ (blocksBytes level chunks ++
        (toLe 4 0 ++ toLe 4 (xxh.xxhash32 chunks.flatten)))).length, chunks.length⟩) := by
  induction calls generalizing e input with
  | nil =>
    obtain ⟨chunks, hchunks, hflat, hfinish⟩ := h.finish
    subst hflat
    exact ⟨chunks, hchunks, by simp, hfinish⟩
  | cons c calls ih =>
    obtain ⟨f, hcall, hf⟩ := h.call c
    obtain ⟨chunks, hchunks, hflat, hrun⟩ := ih hf
    refine ⟨chunks, hchunks, ?_, ?_⟩
    · rw [hflat, List.map_cons, List.flatten_cons, List.append_assoc]
    · rw [Encoder.run, hcall, result_bind_ok, hrun]

end Encoder

private theorem Encoder.ready_new {options : EncodeOptions} {parallelism : Nat}
    {arrival : Nat → Nat} {e : Encoder xxh} (h : Encoder.new xxh options parallelism arrival = .ok e) :
    ∃ level blockSize, IsBlockSize blockSize ∧ Encoder.Ready level blockSize e [] := by
  simp only [Encoder.new, result_bind_eq_ok] at h
  obtain ⟨checked, hvalid, blockSize, hselect, heq⟩ := h
  obtain rfl := Except.ok.inj heq
  obtain ⟨hsize, hfits⟩ := selectedBlockSize_eq_ok hselect
  refine ⟨checked.levelOr 1, blockSize, hsize, ?_⟩
  refine { encodes := ⟨[], [], ?_, rfl⟩, room := hsize.bounds.1, hash := (xxh.write_nil _).symm }
  exact
    { sameLevel := rfl
      sameSize := rfl
      workers := by simp only [StreamingOrdered.new]; omega
      fits := hfits
      pipeline := StreamingOrdered.holds_new _ _ _
      output := by simp [blocksBytes]
      inputLen := rfl
      outputLen := rfl
      blocks := rfl
      chunks := fun _ hmem => absurd hmem (by simp) }

/-- The bytes of a finished frame. -/
private def frameBytes (xxh : XxHash32) (level blockSize : Nat) (chunks : List (List UInt8)) :
    List UInt8 :=
  Encoder.frameHeader xxh blockSize ++
    (blocksBytes level chunks ++ (toLe 4 0 ++ toLe 4 (xxh.xxhash32 chunks.flatten)))

private theorem decodeFrame_frameBytes {level blockSize : Nat} {chunks : List (List UInt8)}
    (size : IsBlockSize blockSize) (h : Chunks blockSize chunks)
    (total : chunks.flatten.length < 2 ^ 64) :
    ∃ d, decodeFrame xxh (frameBytes xxh level blockSize chunks) 0 {} =
        (d, .ok (frameBytes xxh level blockSize chunks).length) ∧
      d.output = chunks.flatten ∧ d.frames.length = 1 ∧ d.blocks.length = chunks.length := by
  obtain ⟨data, hdata⟩ : ∃ data, data = frameBytes xxh level blockSize chunks := ⟨_, rfl⟩
  have hparse := @parseFrameHeader_frameHeader xxh blockSize size
    (blocksBytes level chunks ++ (toLe 4 0 ++ toLe 4 (xxh.xxhash32 chunks.flatten)))
  have hheader : (Encoder.frameHeader xxh blockSize).length = 7 := rfl
  obtain ⟨c, hdecode, htakes⟩ := @decodeIndependentSerial_blocksBytes xxh level blockSize chunks
    (Encoder.frameHeader xxh blockSize) (toLe 4 (xxh.xxhash32 chunks.flatten))
    (committerOf xxh (encodedHeader blockSize) {}) size h (by simpa [committerOf] using total)
  have hread := readU32_toLe (Encoder.frameHeader xxh blockSize ++ blocksBytes level chunks ++
    toLe 4 0) [] (xxh.xxhash32 chunks.flatten) "content checksum" (xxh.finish_lt _)
  simp only [List.append_assoc, List.append_nil, List.length_append, toLe_length, hheader]
    at hread hdecode
  have hhasher : c.hasher = some (xxh.write xxh.withSeed chunks.flatten) := htakes.hasher
  have hdecoded : c.decoded = chunks.flatten.length := by
    rw [htakes.decoded]
    exact Nat.zero_add _
  have hcheck : checkContent data (encodedHeader blockSize)
      (7 + (blocksBytes level chunks).length + 4) c = .ok data.length := by
    rw [checkContent, ensure_of (by simp [encodedHeader]), result_bind_ok, hhasher]
    dsimp only
    rw [hdata, frameBytes, Nat.add_assoc, hread, result_bind_ok,
      ensure_of (show xxh.finish _ = xxh.xxhash32 _ from rfl)]
    simp only [List.length_append, toLe_length, hheader]
    rfl
  refine ⟨Delivered.framed {} (encodedHeader blockSize) c data.length, ?_, ?_, rfl, ?_⟩
  · rw [hdata, frameBytes] at hcheck
    rw [decodeFrame, frameBytes, hparse]
    dsimp only
    rw [if_pos (by decide), decodeMode]
    dsimp only [encodedHeader] at hdecode hcheck ⊢
    rw [hdecode]
    dsimp only
    rw [hcheck]
    dsimp only
    rw [if_pos (by simpa [hdecoded] using total), hdata, frameBytes]
  · exact htakes.output
  · exact htakes.blocks.trans (Nat.zero_add _)

private theorem decompressFramesFrom_frame {data : List UInt8} {position next : Nat}
    {d e : Delivered} (lt : position < data.length)
    (magic : readU32 data position "frame magic" = .ok frameMagic)
    (decode : decodeFrame xxh data position d = (e, .ok next)) :
    decompressFramesFrom xxh data position d = decompressFramesFrom xxh data next e := by
  rw [decompressFramesFrom, dif_pos lt]
  simp only [magic]
  rw [if_neg (by decide), if_neg (by decide), if_neg (by decide)]
  split <;> simp_all

/-- A frame of blocks decodes to their bytes. -/
private theorem decompressSerial_frameBytes {level blockSize : Nat} {chunks : List (List UInt8)}
    {options : DecodeOptions} (valid : maxDecodedBlock ≤ options.memoryLimit)
    (size : IsBlockSize blockSize) (h : Chunks blockSize chunks)
    (total : chunks.flatten.length < 2 ^ 64) :
    ∃ d report, decompressSerial xxh (frameBytes xxh level blockSize chunks) options =
        (d, .ok report) ∧
      d.output = chunks.flatten ∧ report.frames.length = 1 ∧
        report.blocks.length = chunks.length := by
  obtain ⟨d, hdecode, houtput, hframes, hblocks⟩ :=
    @decodeFrame_frameBytes xxh level blockSize chunks size h total
  have hmagic : readU32 (frameBytes xxh level blockSize chunks) 0 "frame magic" =
      .ok frameMagic := by
    obtain ⟨tail, htail⟩ : ∃ tail, frameBytes xxh level blockSize chunks =
      [] ++ toLe 4 frameMagic ++ tail := ⟨_, List.append_assoc _ _ _⟩
    rw [htail]
    exact readU32_toLe [] tail frameMagic "frame magic" (by decide)
  have hne : ¬ d.frames.isEmpty = true := by
    cases hd : d.frames with
    | nil => simp [hd] at hframes
    | cons => simp
  refine ⟨{ d with progress := d.progress ++
      [⟨(frameBytes xxh level blockSize chunks).length, d.decodedTotal⟩] },
    ⟨(frameBytes xxh level blockSize chunks).length, d.decodedTotal, d.frames, d.blocks⟩, ?_,
    houtput, hframes, hblocks⟩
  rw [decompressSerial, DecodeOptions.validate, if_neg (by omega)]
  dsimp only
  have hpos : 0 < (frameBytes xxh level blockSize chunks).length := by
    simp only [frameBytes, List.length_append, toLe_length]
    omega
  rw [decompressFramesFrom_frame hpos hmagic hdecode, decompressFramesFrom,
    dif_neg (Nat.lt_irrefl _)]
  dsimp only
  rw [if_neg hne]

/-- Whatever the calls and the order of completion, the frame that is written decodes to the
bytes of the calls, and the report counts input, output and blocks. -/
theorem decompressSerial_run {options : EncodeOptions} {parallelism : Nat} {arrival : Nat → Nat}
    {e : Encoder xxh} {calls : List Encoder.Call} {decodeOptions : DecodeOptions}
    (created : Encoder.new xxh options parallelism arrival = .ok e)
    (valid : maxDecodedBlock ≤ decodeOptions.memoryLimit)
    (total : (calls.map Encoder.Call.bytes).flatten.length < 2 ^ 64) :
    ∃ bytes report d decodeReport, e.run calls = .ok (bytes, report) ∧
      decompressSerial xxh bytes decodeOptions = (d, .ok decodeReport) ∧
      d.output = (calls.map Encoder.Call.bytes).flatten ∧
      report.inputLen = (calls.map Encoder.Call.bytes).flatten.length ∧
      report.outputLen = bytes.length ∧ decodeReport.frames.length = 1 ∧
      report.blocks = decodeReport.blocks.length := by
  obtain ⟨level, blockSize, hsize, hready⟩ := Encoder.ready_new created
  obtain ⟨chunks, hchunks, hflat, hrun⟩ := @Encoder.Ready.run _ _ _ _ _ calls hready
  rw [List.nil_append] at hflat
  rw [← hflat] at total ⊢
  obtain ⟨d, decodeReport, hdecode, houtput, hframes, hblocks⟩ :=
    @decompressSerial_frameBytes xxh level blockSize chunks decodeOptions valid hsize hchunks total
  exact ⟨_, _, d, decodeReport, hrun, hdecode, houtput, rfl, rfl, hframes, hblocks.symm⟩

/-- Five bytes in two writes with a flush between, two workers and the last job first. -/
theorem decompressSerial_run_flushed :
    ∃ e : Encoder XxHash32.reference, ∃ bytes report d decodeReport,
      Encoder.new XxHash32.reference ⟨2, 2 ^ 25, some 9⟩ 4 (fun n => n + 1) = .ok e ∧
      e.run [.write [1, 2, 3], .flush, .write [4, 5]] = .ok (bytes, report) ∧
      decompressSerial XxHash32.reference bytes ⟨1, 2 ^ 30⟩ = (d, .ok decodeReport) ∧
      d.output = [1, 2, 3, 4, 5] ∧ report.inputLen = 5 ∧ report.outputLen = bytes.length ∧
      decodeReport.frames.length = 1 ∧ report.blocks = decodeReport.blocks.length := by
  obtain ⟨e, he⟩ : ∃ e, Encoder.new XxHash32.reference ⟨2, 2 ^ 25, some 9⟩ 4 (fun n => n + 1) =
      .ok e := by
    rw [Encoder.new, EncodeOptions.validate, ensure_of (by decide), ensure_of (by decide)]
    simp only [result_bind_ok, pure, Except.pure, @selectedBlockSize_target (2 ^ 25) (by decide)]
    exact ⟨_, rfl⟩
  obtain ⟨bytes, report, d, decodeReport, h⟩ :=
    @decompressSerial_run XxHash32.reference _ _ _ e [.write [1, 2, 3], .flush, .write [4, 5]]
      ⟨1, 2 ^ 30⟩ he (by decide) (by decide)
  exact ⟨e, bytes, report, d, decodeReport, he, h⟩

end Fbz.Lz4
