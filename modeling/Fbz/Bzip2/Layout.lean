import Fbz.Bzip2.IndexRoundTrip
import Fbz.Bzip2.Levels
import Fbz.Pipeline.Coordinator

/-!
# What an index says

The blocks and streams of an index lie one behind the other, every block decodes by itself to its
part of the output, and the program accepts the index it has written.
-/

namespace Fbz.Bzip2

open Pipeline Transition

/-- Blocks one behind the other in the decoded bytes. -/
def Tiles : Nat → List BlockIndex → Nat → Prop
  | start, [], stop => start = stop
  | start, block :: rest, stop =>
    block.decodedStart = start ∧ Tiles (start + block.decodedLen) rest stop

/-- Streams one behind the other, in the blocks and in the decoded bytes. -/
def StreamsTile : Nat → Nat → List StreamIndex → Nat → Nat → Prop
  | first, start, [], last, stop => first = last ∧ start = stop
  | first, start, stream :: rest, last, stop =>
    stream.firstBlock = first ∧ stream.decodedStart = start ∧
      StreamsTile (first + stream.blockCount) (start + stream.decodedLen) rest last stop

def decodedTotal (blocks : List BlockIndex) : Nat := (blocks.map BlockIndex.decodedLen).sum

/-- A stream holds its own blocks, and no other decoded bytes. -/
structure HoldsBlocks (blocks : List BlockIndex) (number : Nat) (stream : StreamIndex) : Prop where
  own : ∀ block ∈ slice blocks stream.firstBlock (stream.firstBlock + stream.blockCount),
    block.stream = number
  total : decodedTotal (slice blocks stream.firstBlock (stream.firstBlock + stream.blockCount)) =
    stream.decodedLen

/-- A block decodes to its part of the output, at the level of its stream. -/
def Replays (data output : List UInt8) (levels : List Nat) (block : BlockIndex) : Prop :=
  ∃ level, levels[block.stream]? = some level ∧
    decodeBlock data block.compressedStartBit block.compressedEndBit level block.expectedCrc =
      .ok (slice output block.decodedStart (block.decodedStart + block.decodedLen))

section Tiling

variable {blocks : List BlockIndex} {streams : List StreamIndex} {first start last stop : Nat}

private theorem tiles_append {more : List BlockIndex} :
    Tiles start (blocks ++ more) stop ↔ ∃ middle, Tiles start blocks middle ∧ Tiles middle more stop := by
  induction blocks generalizing start with
  | nil => simp [Tiles]
  | cons block rest ih => simp only [List.cons_append, Tiles, ih, and_assoc, exists_and_left]

theorem Tiles.total (h : Tiles start blocks stop) : start + decodedTotal blocks = stop := by
  induction blocks generalizing start with
  | nil => exact h
  | cons block rest ih =>
    have := ih h.2
    simp only [decodedTotal, List.map_cons, List.sum_cons] at this ⊢
    omega

theorem Tiles.mem (h : Tiles start blocks stop) {block : BlockIndex} (mem : block ∈ blocks) :
    start ≤ block.decodedStart ∧ block.decodedStart + block.decodedLen ≤ stop := by
  obtain ⟨pre, post, rfl⟩ := List.append_of_mem mem
  obtain ⟨middle, hpre, hstart, hpost⟩ := tiles_append.mp h
  have h1 := hpre.total
  have h2 := hpost.total
  omega

private theorem streamsTile_append {more : List StreamIndex} :
    StreamsTile first start (streams ++ more) last stop ↔ ∃ middle middle',
      StreamsTile first start streams middle middle' ∧ StreamsTile middle middle' more last stop := by
  induction streams generalizing first start with
  | nil => simp [StreamsTile]
  | cons stream rest ih =>
    simp only [List.cons_append, StreamsTile, ih, and_assoc, exists_and_left]

private theorem StreamsTile.le (h : StreamsTile first start streams last stop) :
    first ≤ last ∧ start ≤ stop := by
  induction streams generalizing first start with
  | nil => exact ⟨Nat.le_of_eq h.1, Nat.le_of_eq h.2⟩
  | cons stream rest ih =>
    have := ih h.2.2
    omega

private theorem StreamsTile.mem (h : StreamsTile first start streams last stop)
    {stream : StreamIndex} (mem : stream ∈ streams) :
    stream.firstBlock + stream.blockCount ≤ last ∧
      stream.decodedStart + stream.decodedLen ≤ stop := by
  obtain ⟨pre, post, rfl⟩ := List.append_of_mem mem
  obtain ⟨middle, middle', -, hfirst, hstart, hpost⟩ := streamsTile_append.mp h
  have := hpost.le
  omega

private theorem slice_append_left {α : Type} {xs ys : List α} {start stop : Nat}
    (le : stop ≤ xs.length) : slice (xs ++ ys) start stop = slice xs start stop := by
  unfold slice
  by_cases h : start ≤ stop
  · rw [List.drop_append_of_le_length (by omega),
      List.take_append_of_le_length (by rw [List.length_drop]; omega)]
  · have hzero : stop - start = 0 := by omega
    rw [hzero, List.take_zero, List.take_zero]

private theorem HoldsBlocks.append {number : Nat} {stream : StreamIndex} {more : List BlockIndex}
    (h : HoldsBlocks blocks number stream)
    (le : stream.firstBlock + stream.blockCount ≤ blocks.length) :
    HoldsBlocks (blocks ++ more) number stream := by
  constructor
  · rw [slice_append_left le]
    exact h.own
  · rw [slice_append_left le]
    exact h.total

end Tiling

/-- `assemble` with candidates decoded when they are asked for. -/
inductive AssembleStep (data : List UInt8) (markers : List Marker) :
    AssemblyCursor → AssemblyCursor → Prop
  | compute {c} (waiting : (assembleConsumer data markers).op c = .compute) :
      AssembleStep data markers c ((assembleConsumer data markers).after c)
  | take {c index block} (waiting : (assembleConsumer data markers).op c = .take index)
      (marker : markers[index]? = some (.block block)) :
      AssembleStep data markers c ((assembleConsumer data markers).afterTake c
        (decodeCandidate data block.bitOffset block.expectedCrc))
  | discardBefore {c index}
      (waiting : (assembleConsumer data markers).op c = .discardBefore index) :
      AssembleStep data markers c ((assembleConsumer data markers).after c)

/-- What has been assembled up to bit `bit`; the blocks from `first` on belong to a stream that is
not finished, and start at `start` in the output. -/
structure Laid (data : List UInt8) (a : Assembly) (first start bit : Nat) : Prop where
  tiles : Tiles 0 a.blocks a.decodedOffset
  output : a.output.length = a.decodedOffset
  offset : a.decodedOffset < 2 ^ 64
  headers : ∀ stream ∈ a.streams,
    parseHeader data stream.compressedHeaderByte = .ok stream.blockSize100k
  eos : ∀ stream ∈ a.streams, stream.eosBit ≤ data.length * 8
  streamsTile : StreamsTile 0 0 a.streams first start
  holds : ∀ number stream, a.streams[number]? = some stream → HoldsBlocks a.blocks number stream
  first_le : first ≤ a.blocks.length
  closed : ∀ block ∈ a.blocks.take first, block.stream < a.streams.length
  openBlocks : ∀ block ∈ a.blocks.drop first, block.stream = a.streams.length
  openTotal : start + decodedTotal (a.blocks.drop first) = a.decodedOffset
  replays : ∀ block ∈ a.blocks,
    Replays data a.output (a.streams.map StreamIndex.blockSize100k ++ [a.level]) block
  ranges : ∀ block ∈ a.blocks,
    block.compressedStartBit < block.compressedEndBit ∧ block.compressedEndBit ≤ bit
  increasing : (a.blocks.map BlockIndex.compressedStartBit).Pairwise (· < ·)
  nonempty : ∀ block ∈ a.blocks, block.decodedLen ≠ 0
  records : a.streams.length * 53 + a.blocks.length * 44 ≤ bit

/-- At a marker inside a stream. -/
structure Inside (data : List UInt8) (markers : List Marker) (a : Assembly) (index : Nat) :
    Prop where
  laid : Laid data a a.firstBlock a.streamDecodedStart a.currentBit
  header : parseHeader data a.headerByte = .ok a.level
  passed : a.headerByte * 8 + 32 ≤ a.currentBit
  records : a.streams.length * 53 + a.blocks.length * 44 + 32 ≤ a.currentBit
  at_start : a.blocks.length = a.firstBlock → a.currentBit = a.headerByte * 8 + 32
  first_start : ∀ block, a.blocks[a.firstBlock]? = some block →
    block.compressedStartBit = a.headerByte * 8 + 32
  marker : ∃ marker, markers[index]? = some marker ∧ marker.bitOffset = a.currentBit

/-- What every state of the assembler keeps. -/
def Sound (data : List UInt8) (markers : List Marker) (c : AssemblyCursor) : Prop :=
  c.assembly.prefetched = none ∧
  match c.phase with
  | .stream => Laid data c.assembly c.assembly.blocks.length c.assembly.decodedOffset
      (c.assembly.headerByte * 8) ∧ c.assembly.headerByte ≤ data.length ∧
      c.assembly.headerByte * 8 < 2 ^ 64
  | .marker index => Inside data markers c.assembly index
  | .passing block decoded endIndex => ∃ index, Inside data markers c.assembly index ∧
      markers[index]? = some (.block block) ∧
      decodeCandidate data block.bitOffset block.expectedCrc = .ok decoded ∧
      decoded.blockLen ≤ c.assembly.level * 100000 ∧
      markerAt markers decoded.endBit = .ok endIndex
  | .returned (.ok assembled) => Laid data c.assembly c.assembly.blocks.length
      c.assembly.decodedOffset (data.length * 8) ∧ data.length * 8 < 2 ^ 64 ∧
      assembled = ⟨c.assembly.decodedOffset, c.assembly.streams, c.assembly.blocks⟩
  | .returned (.error _) => True

theorem parseHeader_level {data : List UInt8} {byte level : Nat}
    (h : parseHeader data byte = .ok level) :
    (1 ≤ level ∧ level ≤ 9) ∧ byte + 4 ≤ data.length := by
  simp only [parseHeader, result_bind_eq_ok, ensure_eq_ok, okOr_eq_ok] at h
  obtain ⟨header, hrange, _, -, _, hlevel, heq⟩ := h
  cases heq
  have hle := (range?_eq_some.mp hrange).2.1
  have hlo := UInt8.le_iff_toNat_le.mp hlevel.1
  have hhi := UInt8.le_iff_toNat_le.mp hlevel.2
  change 49 ≤ _ at hlo
  change _ ≤ 57 at hhi
  omega

section Transitions

variable {data : List UInt8} {markers : List Marker} {a : Assembly} {index : Nat}

private theorem Laid.enter (h : Laid data a a.blocks.length a.decodedOffset (a.headerByte * 8))
    (level : Nat) {bit : Nat} (le : a.headerByte * 8 ≤ bit) (crc : UInt32) (firstBlock start : Nat) :
    Laid data { a with
      level, firstBlock, currentBit := bit, streamDecodedStart := start, combinedCrc := crc }
      a.blocks.length a.decodedOffset bit where
  tiles := h.tiles
  output := h.output
  offset := h.offset
  headers := h.headers
  eos := h.eos
  streamsTile := h.streamsTile
  holds := h.holds
  first_le := h.first_le
  closed := h.closed
  openBlocks := h.openBlocks
  openTotal := h.openTotal
  replays block hblock := by
    have hlt := h.closed block (by rwa [List.take_length])
    obtain ⟨level', hlevel, hdecode⟩ := h.replays block hblock
    refine ⟨level', ?_, hdecode⟩
    rw [List.getElem?_append_left (by simpa using hlt)] at hlevel ⊢
    exact hlevel
  ranges block hblock := by
    have := h.ranges block hblock
    omega
  increasing := h.increasing
  nonempty := h.nonempty
  records := Nat.le_trans h.records le

private theorem Laid.same {a' : Assembly} {first start bit : Nat} (h : Laid data a first start bit)
    (blocks : a'.blocks = a.blocks) (streams : a'.streams = a.streams)
    (output : a'.output = a.output) (offset : a'.decodedOffset = a.decodedOffset)
    (level : a'.level = a.level) : Laid data a' first start bit := by
  obtain ⟨h1, h2, h3, h4, h5, h6, h7, h8, h9, h10, h11, h12, h13, h14, h15, h16⟩ := h
  rw [← blocks, ← streams, ← output, ← offset, ← level] at *
  exact ⟨h1, h2, h3, h4, h5, h6, h7, h8, h9, h10, h11, h12, h13, h14, h15, h16⟩

private theorem sound_finish (hnone : a.prefetched = none)
    (laid : Laid data a a.blocks.length a.decodedOffset (data.length * 8))
    (fits : data.length * 8 < 2 ^ 64) : Sound data markers (a.finish data) :=
  ⟨hnone, laid.same rfl rfl rfl rfl rfl, fits, rfl⟩

private theorem sound_stream (sound : Sound data markers ⟨a, .stream⟩) :
    Sound data markers (a.stream data markers) := by
  obtain ⟨hnone, laid, hle, hfits⟩ := sound
  unfold Assembly.stream
  split
  case isTrue hlt =>
    split
    case h_1 => exact ⟨hnone, trivial⟩
    case h_2 level currentBit index henter =>
      obtain ⟨level', hheader, henter⟩ := result_bind_eq_ok.mp henter
      obtain ⟨bit, hbit, henter⟩ := result_bind_eq_ok.mp henter
      obtain ⟨bit', hbit', henter⟩ := result_bind_eq_ok.mp henter
      obtain ⟨index', hmarker, heq⟩ := result_bind_eq_ok.mp henter
      cases heq
      obtain ⟨rfl, -⟩ := checked_eq_ok hbit
      obtain ⟨rfl, -⟩ := checked_eq_ok hbit'
      have hrecords := laid.records
      refine ⟨hnone, laid.enter level (Nat.le_add_right _ _) 0 _ _, hheader, Nat.le_refl _, ?_,
        fun _ => rfl, fun block hblock => ?_, markerAt_eq_ok hmarker⟩
      · dsimp only at hrecords ⊢
        omega
      · rw [List.getElem?_eq_none (Nat.le_refl _)] at hblock
        cases hblock
  case isFalse hge =>
    have heq : a.headerByte = data.length := by dsimp only at hle; omega
    dsimp only at laid hfits
    rw [heq] at laid hfits
    exact sound_finish hnone laid hfits

private theorem Inside.header_byte (inside : Inside data markers a index) {next : Nat}
    (le : a.headerByte ≤ next) :
    currentStreamHeader a.currentBit a.firstBlock a.blocks next = a.headerByte := by
  have hfirst := inside.laid.first_le
  unfold currentStreamHeader
  cases hblock : a.blocks[a.firstBlock]? with
  | some first =>
    have := inside.first_start first hblock
    dsimp only
    omega
  | none =>
    have hlength := List.getElem?_eq_none_iff.mp hblock
    have := inside.at_start (by omega)
    dsimp only
    omega

/-- The record of the stream the assembler is in. -/
def Assembly.record (a : Assembly) (eos : EndCandidate) (next : Nat) : StreamIndex :=
  ⟨currentStreamHeader a.currentBit a.firstBlock a.blocks next, a.level, a.firstBlock,
    a.blocks.length - a.firstBlock, a.streamDecodedStart, a.decodedOffset - a.streamDecodedStart,
    eos.bitOffset, eos.expectedStreamCrc⟩

private theorem Inside.holds (inside : Inside data markers a index) (eos : EndCandidate)
    (next : Nat) : HoldsBlocks a.blocks a.streams.length (a.record eos next) := by
  have hfirst := inside.laid.first_le
  have htotal := inside.laid.openTotal
  have hslice : slice a.blocks a.firstBlock (a.firstBlock + (a.blocks.length - a.firstBlock)) =
      a.blocks.drop a.firstBlock := by
    rw [slice, List.take_of_length_le]
    rw [List.length_drop]
    omega
  constructor
  · intro block hblock
    rw [show slice a.blocks (a.record eos next).firstBlock
      ((a.record eos next).firstBlock + (a.record eos next).blockCount) = _ from hslice] at hblock
    exact inside.laid.openBlocks block hblock
  · rw [show slice a.blocks (a.record eos next).firstBlock
      ((a.record eos next).firstBlock + (a.record eos next).blockCount) = _ from hslice]
    change _ = a.decodedOffset - a.streamDecodedStart
    omega

/-- At its end a stream becomes one of the finished ones. -/
theorem Inside.close (inside : Inside data markers a index) {eos : EndCandidate} {next : Nat}
    (marker : markers[index]? = some (.eos eos)) (behind : eos.bitOffset + 80 ≤ next * 8)
    (inData : next ≤ data.length) :
    Laid data { a with headerByte := next, streams := a.streams ++ [a.record eos next] }
      a.blocks.length a.decodedOffset (next * 8) := by
  have hholds := inside.holds eos next
  have hheader : a.headerByte ≤ next →
      currentStreamHeader a.currentBit a.firstBlock a.blocks next = a.headerByte :=
    inside.header_byte
  obtain ⟨laid, header, passed, records, -, -, found, hfound, hbit⟩ := inside
  have heos : eos.bitOffset = a.currentBit := by
    rw [← hbit]
    cases marker.symm.trans hfound
    rfl
  have htotal := laid.openTotal
  have hfirst := laid.first_le
  have hnumber : ∀ block ∈ a.blocks, block.stream < a.streams.length + 1 := fun block hblock => by
    rw [← List.take_append_drop a.firstBlock a.blocks] at hblock
    rcases List.mem_append.mp hblock with hblock | hblock
    · exact Nat.lt_succ_of_lt (laid.closed block hblock)
    · exact Nat.lt_succ_of_le (Nat.le_of_eq (laid.openBlocks block hblock))
  refine ⟨laid.tiles, laid.output, laid.offset, ?_, ?_, ?_, ?_, Nat.le_refl _, ?_, ?_, ?_, ?_, ?_,
    laid.increasing, laid.nonempty, ?_⟩
  · intro stream hstream
    rcases List.mem_append.mp hstream with hstream | hstream
    · exact laid.headers stream hstream
    · obtain rfl := List.mem_singleton.mp hstream
      change parseHeader data (currentStreamHeader _ _ _ _) = .ok a.level
      rw [hheader (by omega)]
      exact header
  · intro stream hstream
    rcases List.mem_append.mp hstream with hstream | hstream
    · exact laid.eos stream hstream
    · obtain rfl := List.mem_singleton.mp hstream
      change eos.bitOffset ≤ _
      omega
  · refine streamsTile_append.mpr ⟨_, _, laid.streamsTile, rfl, rfl, ?_, ?_⟩
    · change a.firstBlock + (a.blocks.length - a.firstBlock) = _
      omega
    · change a.streamDecodedStart + (a.decodedOffset - a.streamDecodedStart) = _
      omega
  · intro number stream hstream
    by_cases hlt : number < a.streams.length
    · rw [List.getElem?_append_left hlt] at hstream
      exact laid.holds number stream hstream
    · rw [List.getElem?_append_right (by omega)] at hstream
      obtain ⟨hzero, rfl⟩ := List.getElem?_eq_some_iff.mp hstream
      have heq : number = a.streams.length := by
        rw [List.length_singleton] at hzero
        omega
      subst heq
      simpa using hholds
  · intro block hblock
    rw [List.take_length] at hblock
    simpa using hnumber block hblock
  · intro block hblock
    rw [List.drop_length] at hblock
    cases hblock
  · rw [List.drop_length]
    rfl
  · intro block hblock
    obtain ⟨level, hlevel, hdecode⟩ := laid.replays block hblock
    refine ⟨level, ?_, hdecode⟩
    rw [List.map_append, List.getElem?_append_left (by simpa using hnumber block hblock)]
    exact hlevel
  · intro block hblock
    have := laid.ranges block hblock
    omega
  · simp only [List.length_append, List.length_singleton]
    omega

private theorem sound_atEnd {eos : EndCandidate} (sound : Sound data markers ⟨a, .marker index⟩)
    (marker : markers[index]? = some (.eos eos)) : Sound data markers (a.atEnd data eos) := by
  obtain ⟨hnone, inside⟩ := sound
  unfold Assembly.atEnd
  split
  · exact ⟨hnone, trivial⟩
  · split
    case h_1 => exact ⟨hnone, trivial⟩
    case h_2 next hnext =>
      obtain ⟨hbehind, hfits⟩ := nextHeader_eq_ok hnext
      split
      · next heq =>
        subst heq
        exact sound_finish hnone (inside.close marker hbehind (Nat.le_refl _)) hfits
      · split
        · exact ⟨hnone, trivial⟩
        · next hle => exact ⟨hnone, inside.close marker hbehind (Nat.le_of_not_lt hle),
            Nat.le_of_not_lt hle, hfits⟩

private theorem sound_taken {block : BlockCandidate} (sound : Sound data markers ⟨a, .marker index⟩)
    (marker : markers[index]? = some (.block block)) :
    Sound data markers
      (a.taken markers block (decodeCandidate data block.bitOffset block.expectedCrc)) := by
  obtain ⟨hnone, inside⟩ := sound
  unfold Assembly.taken
  split
  · exact ⟨hnone, trivial⟩
  · next decoded hdecode =>
    split
    · exact ⟨hnone, trivial⟩
    · next hfits =>
      split
      · exact ⟨hnone, trivial⟩
      · next endIndex hend =>
        exact ⟨hnone, index, inside, marker, hdecode, Nat.le_of_not_lt hfits, hend⟩

private theorem slice_right {α : Type} (xs ys : List α) :
    slice (xs ++ ys) xs.length (xs.length + ys.length) = ys := by
  rw [slice, List.drop_left, Nat.add_sub_cancel_left, List.take_length]

private theorem Laid.replays_push {first start bit : Nat} (laid : Laid data a first start bit)
    {block : BlockIndex} {output : List UInt8}
    (own : Replays data (a.output ++ output) (a.streams.map StreamIndex.blockSize100k ++ [a.level])
      block) :
    ∀ other ∈ a.blocks ++ [block], Replays data (a.output ++ output)
      (a.streams.map StreamIndex.blockSize100k ++ [a.level]) other := by
  refine List.forall_mem_append.mpr ⟨fun other hother => ?_, List.forall_mem_singleton.mpr own⟩
  obtain ⟨level, hlookup, hdecode⟩ := laid.replays other hother
  have hinside := (laid.tiles.mem hother).2
  have hoffset := laid.output
  refine ⟨level, hlookup, hdecode.trans ?_⟩
  rw [slice_append_left (by omega)]

private theorem Inside.first_push (inside : Inside data markers a index) {block : BlockIndex}
    (here : block.compressedStartBit = a.currentBit) :
    ∀ other, (a.blocks ++ [block])[a.firstBlock]? = some other →
      other.compressedStartBit = a.headerByte * 8 + 32 := by
  intro other hother
  have hfirst := inside.laid.first_le
  by_cases hlt : a.firstBlock < a.blocks.length
  · rw [List.getElem?_append_left hlt] at hother
    exact inside.first_start other hother
  · have heq : a.blocks.length = a.firstBlock := by omega
    rw [← heq, List.getElem?_append_right (Nat.le_refl _), Nat.sub_self] at hother
    obtain rfl := Option.some.inj hother
    exact here.trans (inside.at_start heq)

/-- A block is added behind the others, up to the bit where it ends. -/
theorem Inside.push (inside : Inside data markers a index) {block : BlockCandidate}
    {decoded : DecodedCandidate} (marker : markers[index]? = some (.block block))
    (decode : decodeCandidate data block.bitOffset block.expectedCrc = .ok decoded)
    (fits : decoded.blockLen ≤ a.level * 100000)
    (offset : a.decodedOffset + decoded.decodedLen < 2 ^ 64) (crc : UInt32)
    (progress : List DecodeProgress) {endIndex : Nat}
    (endMarker : ∃ marker, markers[endIndex]? = some marker ∧ marker.bitOffset = decoded.endBit) :
    Inside data markers { a with
      output := a.output ++ decoded.output
      blocks := a.blocks ++ [⟨block.bitOffset, decoded.endBit, a.decodedOffset, decoded.decodedLen,
        block.expectedCrc, a.streams.length⟩]
      decodedOffset := a.decodedOffset + decoded.decodedLen
      combinedCrc := crc, progress, currentBit := decoded.endBit } endIndex := by
  have hblock := decodeCandidate_isBlock decode
  obtain ⟨laid, header, passed, records, -, -, found, hfound, hbit⟩ := id inside
  have hstart : block.bitOffset = a.currentBit := by
    rw [← hbit]
    cases marker.symm.trans hfound
    rfl
  have hfirst := laid.first_le
  have hadvances := hblock.advances
  have hoffset := laid.output
  have hlevel := (parseHeader_level header).1
  refine ⟨⟨?_, ?_, offset, laid.headers, laid.eos, laid.streamsTile, ?_, ?_, ?_, ?_, ?_,
    laid.replays_push ?_, ?_, ?_, ?_, ?_⟩, header, ?_, ?_, ?_, inside.first_push hstart, endMarker⟩
  · exact tiles_append.mpr ⟨_, laid.tiles, rfl, rfl⟩
  · rw [List.length_append, laid.output, hblock.length]
  · intro number stream hstream
    have hle := (laid.streamsTile.mem (List.mem_of_getElem? hstream)).1
    exact (laid.holds number stream hstream).append (by omega)
  · exact Nat.le_trans hfirst (by simp)
  · rw [List.take_append_of_le_length hfirst]
    exact laid.closed
  · rw [List.drop_append_of_le_length hfirst]
    exact List.forall_mem_append.mpr ⟨laid.openBlocks, List.forall_mem_singleton.mpr rfl⟩
  · have := laid.openTotal
    rw [List.drop_append_of_le_length hfirst]
    simp only [decodedTotal, List.map_append, List.sum_append, List.map_cons, List.map_nil,
      List.sum_cons, List.sum_nil] at this ⊢
    omega
  · refine ⟨a.level, by simp, ?_⟩
    have hreplay := hblock.replay a.level hlevel.1 hlevel.2 fits
    dsimp only
    rw [hreplay, ← hoffset, ← hblock.length, slice_right]
  · refine List.forall_mem_append.mpr ⟨fun other hother => ?_, List.forall_mem_singleton.mpr ?_⟩
    · have := laid.ranges other hother
      dsimp only
      omega
    · dsimp only
      omega
  · rw [List.map_append, List.pairwise_append]
    refine ⟨laid.increasing, List.pairwise_singleton _ _, fun bit hbit other hother => ?_⟩
    obtain ⟨earlier, hearlier, rfl⟩ := List.mem_map.mp hbit
    obtain rfl := List.mem_singleton.mp hother
    have := laid.ranges earlier hearlier
    dsimp only
    omega
  · exact List.forall_mem_append.mpr
      ⟨laid.nonempty, List.forall_mem_singleton.mpr (Nat.ne_of_gt hblock.nonempty)⟩
  · have := laid.records
    simp only [List.length_append, List.length_singleton]
    omega
  · dsimp only
    omega
  · simp only [List.length_append, List.length_singleton]
    omega
  · intro heq
    simp only [List.length_append, List.length_singleton] at heq
    omega

private theorem sound_pass {block : BlockCandidate} {decoded : DecodedCandidate} {endIndex : Nat}
    (sound : Sound data markers ⟨a, .passing block decoded endIndex⟩) :
    Sound data markers (a.pass markers block decoded endIndex) := by
  obtain ⟨hnone, index, inside, marker, decode, fits, hend⟩ := sound
  obtain ⟨endMarker, hmarker, hbit⟩ := markerAt_eq_ok hend
  have hendBit : (markers[endIndex]?.map Marker.bitOffset).getD 0 = decoded.endBit := by
    rw [hmarker, ← hbit]
    rfl
  have hnone : a.prefetched = none := hnone
  unfold Assembly.pass
  rw [hendBit]
  dsimp only
  rw [hnone, Option.filter_none]
  split
  · exact ⟨rfl, trivial⟩
  · next decodedOffset hchecked =>
    obtain ⟨rfl, hlt⟩ := checked_eq_ok hchecked
    have := inside.push marker decode fits hlt (combineStreamCrc a.combinedCrc block.expectedCrc)
      (a.progress ++ [⟨(decoded.endBit + 7) / 8, a.decodedOffset + decoded.decodedLen⟩])
      ⟨endMarker, hmarker, hbit⟩
    exact ⟨rfl, by rwa [hnone] at this⟩

private theorem sound_step {c c' : AssemblyCursor} (sound : Sound data markers c)
    (step : AssembleStep data markers c c') : Sound data markers c' := by
  obtain ⟨a, phase⟩ := c
  have hnone : a.prefetched = none := sound.1
  cases step with
  | compute waiting =>
    cases phase with
    | stream => exact sound_stream sound
    | marker index =>
      simp only [assembleConsumer] at waiting ⊢
      cases hmarker : markers[index]? with
      | none => exact sound
      | some marker =>
        cases marker with
        | eos eos => exact sound_atEnd sound hmarker
        | block block => simp [hmarker, hnone] at waiting
    | passing => cases waiting
    | returned => cases waiting
  | @take index block waiting marker =>
    cases phase with
    | stream => cases waiting
    | passing => cases waiting
    | returned => cases waiting
    | marker here =>
      simp only [assembleConsumer] at waiting ⊢
      cases hmarker : markers[here]? with
      | none => simp [hmarker] at waiting
      | some found =>
        cases found with
        | eos eos => simp [hmarker] at waiting
        | block candidate =>
          simp only [hmarker, hnone, Option.any_none, Bool.false_eq_true, if_false, Op.take.injEq]
            at waiting
          subst waiting
          cases hmarker.symm.trans marker
          exact sound_taken sound hmarker
  | discardBefore waiting =>
    cases phase with
    | stream => cases waiting
    | passing => exact sound_pass sound
    | returned => cases waiting
    | marker here =>
      simp only [assembleConsumer] at waiting
      split at waiting
      · split at waiting <;> cases waiting
      · cases waiting

private theorem sound_start : Sound data markers (assembleStart none) := by
  refine ⟨rfl, ⟨rfl, rfl, by decide, nofun, nofun, ⟨rfl, rfl⟩, nofun, Nat.le_refl _, nofun, nofun, rfl,
    nofun, nofun, .nil, nofun, Nat.le_refl _⟩, Nat.zero_le _, by decide⟩

end Transitions

section Validation

variable {data : List UInt8} {a : Assembly}

theorem validateBlocks_of_tiles {bits count start stop : Nat} {blocks : List BlockIndex}
    {previous : Option Nat} (tiles : Tiles start blocks stop) (fits : stop < 2 ^ 64)
    (good : ∀ block ∈ blocks, block.decodedLen ≠ 0 ∧
      (block.compressedStartBit < block.compressedEndBit ∧ block.compressedEndBit ≤ bits) ∧
      block.stream < count)
    (increasing : (blocks.map BlockIndex.compressedStartBit).Pairwise (· < ·))
    (above : ∀ bit ∈ previous, ∀ block ∈ blocks, bit < block.compressedStartBit) :
    Index.validateBlocks bits count previous start blocks = .ok stop := by
  induction blocks generalizing start previous with
  | nil => exact congrArg Except.ok tiles
  | cons block rest ih =>
    obtain ⟨hstart, hrest⟩ := tiles
    obtain ⟨hne, hrange, hstream⟩ := good block List.mem_cons_self
    obtain ⟨hfirst, hincreasing⟩ := List.pairwise_cons.mp increasing
    have htotal := hrest.total
    rw [Index.validateBlocks, ensure_of ⟨hstart, hne⟩, result_bind_ok, ensure_of hrange,
      result_bind_ok, ensure_of hstream, result_bind_ok, Index.checkedAdd, if_pos (by omega),
      result_bind_ok, ensure_of fun bit hbit => above bit hbit block List.mem_cons_self,
      result_bind_ok]
    refine ih hrest (fun other hother => good other (List.mem_cons_of_mem _ hother)) hincreasing ?_
    rintro bit ⟨⟩ other hother
    exact hfirst _ (List.mem_map_of_mem hother)

theorem validateStreams_of_tile {bits number first start last stop : Nat}
    {blocks : List BlockIndex} {streams : List StreamIndex}
    (tiles : StreamsTile first start streams last stop) (le : last ≤ blocks.length)
    (fits : stop < 2 ^ 64) (many : blocks.length < 2 ^ 64)
    (good : ∀ stream ∈ streams, (1 ≤ stream.blockSize100k ∧ stream.blockSize100k ≤ 9) ∧
      stream.eosBit ≤ bits)
    (own : ∀ place stream, streams[place]? = some stream →
      ∀ block ∈ slice blocks stream.firstBlock (stream.firstBlock + stream.blockCount),
        block.stream = number + place) :
    Index.validateStreams bits blocks number first start streams = .ok (last, stop) := by
  induction streams generalizing number first start with
  | nil =>
    obtain ⟨rfl, rfl⟩ := tiles
    rfl
  | cons stream rest ih =>
    obtain ⟨hfirst, hstart, hrest⟩ := tiles
    obtain ⟨hlevel, heos⟩ := good stream List.mem_cons_self
    have hle := hrest.le
    have hown : ∀ block ∈ slice blocks stream.firstBlock (stream.firstBlock + stream.blockCount),
        block.stream = number := own 0 stream rfl
    rw [Index.validateStreams, ensure_of ⟨hlevel, hfirst, hstart, heos⟩, result_bind_ok,
      Index.checkedAdd, if_pos (by omega), result_bind_ok, ensure_of (by omega), result_bind_ok,
      ensure_of hown, result_bind_ok, Index.checkedAdd, if_pos (by omega), result_bind_ok]
    subst hfirst
    refine ih hrest (fun other hother => good other (List.mem_cons_of_mem _ hother))
      fun place other hother => ?_
    rw [Nat.add_assoc, Nat.add_comm 1]
    exact own (place + 1) other hother

private theorem Laid.validate (laid : Laid data a a.blocks.length a.decodedOffset (data.length * 8))
    (fits : data.length * 8 < 2 ^ 64) (blake3 : Blake3) :
    (Index.new blake3 data ⟨a.decodedOffset, a.streams, a.blocks⟩).validate = .ok () := by
  have hrecords := laid.records
  have hblocks := @validateBlocks_of_tiles _ _ _ _ _ none laid.tiles laid.offset
    (fun block hblock => ⟨laid.nonempty block hblock, laid.ranges block hblock,
      laid.closed block (by rwa [List.take_length])⟩) laid.increasing nofun
  have hstreams := @validateStreams_of_tile _ 0 _ _ _ _ _ _ laid.streamsTile (Nat.le_refl _)
    laid.offset (by omega)
    (fun stream hstream => ⟨(parseHeader_level (laid.headers stream hstream)).1,
      laid.eos stream hstream⟩)
    fun place stream hstream => (Nat.zero_add place).symm ▸ (laid.holds place stream hstream).own
  simp only [Index.validate, result_bind_eq_ok, ensure_eq_ok]
  exact ⟨(), fits, _, hblocks, (), rfl, _, hstreams, rfl, rfl⟩

private theorem Laid.fits (laid : Laid data a a.blocks.length a.decodedOffset (data.length * 8))
    (fits : data.length * 8 < 2 ^ 64) (blake3 : Blake3) :
    (Index.new blake3 data ⟨a.decodedOffset, a.streams, a.blocks⟩).Fits blake3 data := by
  have hrecords := laid.records
  have hoffset := laid.offset
  refine ⟨rfl, rfl, by omega, hoffset, fun stream hstream => ?_, fun block hblock => ?_, ?_⟩
  · obtain ⟨hlevel, hheader⟩ := parseHeader_level (laid.headers stream hstream)
    have hmem := laid.streamsTile.mem hstream
    have heos := laid.eos stream hstream
    constructor <;> omega
  · have hmem := laid.tiles.mem hblock
    have hrange := laid.ranges block hblock
    have hclosed := laid.closed block (by rwa [List.take_length])
    constructor <;> omega
  · change a.streams.length * 53 + a.blocks.length * 44 < 2 ^ 64
    omega

end Validation

/-- How an index comes about: one thread decodes each candidate when it is needed, several decode
them ahead, in any order. -/
inductive Assembles (data : List UInt8) (markers : Markers) : Assembly → Assembled → Prop
  | serial {a : Assembly} {assembled : Assembled}
      (run : Reaches (AssembleStep data markers.list) (assembleStart none)
        ⟨a, .returned (.ok assembled)⟩) : Assembles data markers a assembled
  | parallel {a : Assembly} {assembled : Assembled} {threads memoryLimit : Nat}
      {s : State (Result DecodedCandidate) Empty Empty (Assembly × Result Assembled)
        AssemblyCursor}
      (run : Reaches (assembleProgram data markers.list memoryLimit
          (fun job => decodeCandidate data job.startBit job.expectedCrc) none).Step
        ((assembleProgram data markers.list memoryLimit
          (fun job => decodeCandidate data job.startBit job.expectedCrc) none).init threads
            (assembleStart none)) s)
      (finished : s.finished = some (a, .ok assembled)) : Assembles data markers a assembled

/-- What an index says about the input and its output. -/
structure Describes (blake3 : Blake3) (data output : List UInt8) (assembled : Assembled) :
    Prop where
  decodedLen : assembled.decodedLen = output.length
  tiles : Tiles 0 assembled.blocks output.length
  replays : ∀ block ∈ assembled.blocks,
    Replays data output (assembled.streams.map StreamIndex.blockSize100k) block
  headers : ∀ stream ∈ assembled.streams,
    parseHeader data stream.compressedHeaderByte = .ok stream.blockSize100k
  streamsTile : StreamsTile 0 0 assembled.streams assembled.blocks.length output.length
  holds : ∀ number stream, assembled.streams[number]? = some stream →
    HoldsBlocks assembled.blocks number stream
  readBack : Index.fromBytes blake3 ((Index.new blake3 data assembled).toBytes blake3) data =
    .ok (Index.new blake3 data assembled)

section Indexes

variable {data : List UInt8} {markers : Markers} {a : Assembly} {assembled : Assembled}

private theorem assembleConsumer_op {markers : List Marker} (c : AssemblyCursor) :
    (assembleConsumer data markers).op c = .compute ∨
      (∃ index, (assembleConsumer data markers).op c = .take index) ∨
      (∃ index, (assembleConsumer data markers).op c = .discardBefore index) ∨
      ∃ result, (assembleConsumer data markers).op c = .done result := by
  obtain ⟨a, phase⟩ := c
  cases phase with
  | stream => exact .inl rfl
  | passing block decoded index => exact .inr (.inr (.inl ⟨index, rfl⟩))
  | returned result => exact .inr (.inr (.inr ⟨_, rfl⟩))
  | marker index =>
    simp only [assembleConsumer]
    split
    · split
      · exact .inl rfl
      · exact .inr (.inl ⟨_, rfl⟩)
    · exact .inl rfl

theorem assembleConsumer_done {markers : List Marker} {c : AssemblyCursor} {result : Result Assembled}
    (done : (assembleConsumer data markers).op c = .done (a, result)) : c = ⟨a, .returned result⟩ := by
  obtain ⟨a', phase⟩ := c
  cases phase with
  | returned result' =>
    obtain ⟨rfl, rfl⟩ := Prod.mk.inj (Op.done.inj done)
    rfl
  | stream | passing => cases done
  | marker index =>
    simp only [assembleConsumer] at done
    split at done
    · split at done <;> cases done
    · cases done

/-- The coordinator of the parallel decoder goes the way of the serial one. -/
theorem follows_assembleStep {markers : List Marker} {memoryLimit : Nat} {prefetched : Option Nat}
    {g g' : Ledger Empty AssemblyCursor}
    (follows : (assembleProgram data markers memoryLimit
      (fun job => decodeCandidate data job.startBit job.expectedCrc) prefetched).Follows g g') :
    AssembleStep data markers g.consumer g'.consumer := by
  have hop := @assembleConsumer_op data markers g.consumer
  cases follows with
  | compute waiting => exact .compute waiting
  | @take job value waiting mem result =>
    obtain ⟨block, hmarker, -, -, hpayload⟩ := mem_candidateJobs.mp mem
    obtain rfl := Option.some.inj result
    dsimp only
    rw [hpayload]
    exact .take waiting hmarker
  | discardBefore waiting => exact .discardBefore waiting
  | takePrimary waiting | retire waiting | submit waiting | takeStage waiting =>
    rw [show (assembleConsumer data markers).op g.consumer = _ from waiting] at hop
    simp at hop

private theorem Assembles.serial_run (h : Assembles data markers a assembled) :
    Reaches (AssembleStep data markers.list) (assembleStart none)
      ⟨a, .returned (.ok assembled)⟩ := by
  cases h with
  | serial run => exact run
  | parallel run finished =>
    obtain ⟨g, hreaches, hdone, -⟩ := (Program.reachable_invariant _ run).explained.finished _ finished
    have hrun : Reaches (AssembleStep data markers.list) (assembleStart none) g.consumer :=
      hreaches.lift Ledger.consumer fun _ _ => follows_assembleStep
    rw [assembleConsumer_done hdone] at hrun
    exact hrun

/-- Whatever the input, an index the program comes to describes it: blocks and streams tile the
output, each block decodes by itself to its part, each stream is found at its header, and the index
is accepted when it is read back. -/
theorem assembles_describes (blake3 : Blake3) (h : Assembles data markers a assembled) :
    Describes blake3 data a.output assembled := by
  have sound := h.serial_run.invariant sound_start fun _ _ => sound_step
  obtain ⟨-, laid, fits, heq⟩ := sound
  dsimp only at laid heq
  subst heq
  refine ⟨laid.output.symm, ?_, fun block hblock => ?_, laid.headers, ?_, laid.holds, ?_⟩
  · rw [laid.output]
    exact laid.tiles
  · have hlt := laid.closed block (by rwa [List.take_length])
    obtain ⟨level, hlevel, hdecode⟩ := laid.replays block hblock
    refine ⟨level, ?_, hdecode⟩
    rw [List.getElem?_append_left (by simpa using hlt)] at hlevel
    exact hlevel
  · rw [laid.output]
    exact laid.streamsTile
  · rw [Index.fromBytes_toBytes blake3 (laid.fits fits blake3), laid.validate fits blake3]
    rfl

end Indexes

/-- The letter's file twice, which is two streams of a block each. -/
def letters : List UInt8 := Index.letter ++ Index.letter

def lettersMarkers : Markers where
  list := [.block ⟨32, 429103979, false, 0⟩, .eos ⟨211, 429103979⟩,
    .block ⟨328, 429103979, false, 0⟩, .eos ⟨507, 429103979⟩]
  sorted := by decide
  addressable := by decide

def lettersAssembled : Assembled where
  decodedLen := 2
  streams := [⟨0, 9, 0, 1, 0, 1, 211, 429103979⟩, ⟨37, 9, 1, 1, 1, 1, 507, 429103979⟩]
  blocks := [⟨32, 211, 0, 1, 429103979, 0⟩, ⟨328, 507, 1, 1, 429103979, 1⟩]

def lettersAssembly : Assembly where
  headerByte := 74
  level := 9
  firstBlock := 1
  streamDecodedStart := 1
  combinedCrc := 429103979
  currentBit := 507
  decodedOffset := 2
  blocks := lettersAssembled.blocks
  streams := lettersAssembled.streams
  output := [0x61, 0x61]
  progress := [⟨27, 1⟩, ⟨64, 2⟩, ⟨74, 2⟩]

private theorem decodeCandidate_letters :
    decodeCandidate letters 32 429103979 = .ok ⟨[0x61], 1, 211, 1⟩ ∧
      decodeCandidate letters 328 429103979 = .ok ⟨[0x61], 1, 507, 1⟩ := by
  decide +kernel

theorem letters_run : Reaches (AssembleStep letters lettersMarkers.list) (assembleStart none)
    ⟨lettersAssembly, .returned (.ok lettersAssembled)⟩ := by
  have take {c index block decoded}
      (waiting : (assembleConsumer letters lettersMarkers.list).op c = .take index)
      (marker : lettersMarkers.list[index]? = some (.block block))
      (decodes : decodeCandidate letters block.bitOffset block.expectedCrc = .ok decoded) :
      AssembleStep letters lettersMarkers.list c
        ((assembleConsumer letters lettersMarkers.list).afterTake c (.ok decoded)) :=
    decodes ▸ .take waiting marker
  exact .head (.compute rfl) <| .head (take rfl rfl decodeCandidate_letters.1) <|
    .head (.discardBefore rfl) <| .head (.compute rfl) <| .head (.compute rfl) <|
    .head (take rfl rfl decodeCandidate_letters.2) <| .head (.discardBefore rfl) <|
    .head (.compute rfl) .refl

theorem assembles_describes_letters :
    Describes Index.letterHash letters [0x61, 0x61] lettersAssembled :=
  assembles_describes Index.letterHash (.serial letters_run)

end Fbz.Bzip2
