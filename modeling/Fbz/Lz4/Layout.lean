import Fbz.Lib.Tiling
import Fbz.Lz4.Decoder
import Fbz.Lz4.Locality

/-!
# The layout an LZ4 report gives

Frames and blocks tile the output, and the first block and the block count of a frame select the
blocks that carry its number.
-/

namespace Fbz.Lz4

open Tiling Transition

variable {xxh : XxHash32}

/-- Blocks that are read and committed one after the other. -/
inductive Commits (data : List UInt8) (frame : FrameHeader) :
    Nat → FrameCommitter xxh → Nat → FrameCommitter xxh → Prop
  | refl {position : Nat} {c : FrameCommitter xxh} : Commits data frame position c position c
  | head {position next stop : Nat} {c c' c'' : FrameCommitter xxh} {block : BlockLayout}
      {decoded : DecodedBlock} (read : nextBlock data position frame = .ok (some block, next))
      (commit : c.commit data block decoded = (c', .ok ()))
      (rest : Commits data frame next c' stop c'') : Commits data frame position c stop c''

section Blocks

variable {data : List UInt8} {frame : FrameHeader} {position stop next : Nat}
  {c c' : FrameCommitter xxh}

/-- The record of a block. -/
def FrameCommitter.record (data : List UInt8) (c : FrameCommitter xxh) (layout : BlockLayout)
    (decoded : DecodedBlock) : Block :=
  ⟨c.frameNumber, layout.dataStart, layout.dataEnd, c.decodedBase + c.decoded,
    (decoded.bytes data).length, layout.stored⟩

theorem commit_eq_ok {layout : BlockLayout} {decoded : DecodedBlock}
    (h : c.commit data layout decoded = (c', .ok ())) :
    c'.decodedBase = c.decodedBase ∧ c'.frameNumber = c.frameNumber ∧
      c'.decoded = c.decoded + (decoded.bytes data).length ∧
      c'.blocks = c.blocks ++ [c.record data layout decoded] ∧
      c'.progress = c.progress ++ [⟨layout.dataEnd, c.decodedBase + c'.decoded⟩] := by
  unfold FrameCommitter.commit at h
  dsimp only at h
  split at h
  case isFalse => cases h
  case isTrue =>
    obtain ⟨rfl, -⟩ := Prod.mk.inj h
    exact ⟨rfl, rfl, rfl, rfl, rfl⟩

private theorem commit_eq_error {layout : BlockLayout} {decoded : DecodedBlock} {error : Error}
    (h : c.commit data layout decoded = (c', .error error)) : c'.progress = c.progress := by
  unfold FrameCommitter.commit at h
  dsimp only at h
  split at h
  case isTrue => cases h
  case isFalse =>
    obtain ⟨rfl, -⟩ := Prod.mk.inj h
    rfl

/-- How the loop over the blocks of a frame ends. -/
def LoopEnds (data : List UInt8) (frame : FrameHeader) (position : Nat) (c : FrameCommitter xxh)
    (outcome : FrameCommitter xxh × Result Nat) : Prop :=
  ∃ stop c', Commits data frame position c stop c' ∧
    match outcome with
    | (e, .error _) => e.progress = c'.progress
    | (e, .ok next) => e = c' ∧ nextBlock data stop frame = .ok (none, next)

private theorem LoopEnds.head {block : BlockLayout} {decoded : DecodedBlock}
    {outcome : FrameCommitter xxh × Result Nat}
    (read : nextBlock data position frame = .ok (some block, next))
    (commit : c.commit data block decoded = (c', .ok ()))
    (ends : LoopEnds data frame next c' outcome) : LoopEnds data frame position c outcome := by
  obtain ⟨stop, c'', hcommits, houtcome⟩ := ends
  exact ⟨stop, c'', .head read commit hcommits, houtcome⟩

private theorem decodeIndependentSerial_ends (data : List UInt8) (frame : FrameHeader)
    (position : Nat) (c : FrameCommitter xxh) :
    LoopEnds data frame position c (decodeIndependentSerial data frame position c) := by
  induction position, c using decodeIndependentSerial.induct data frame with
  | case1 position c error hnext =>
    rw [decodeIndependentSerial_eq, hnext]
    exact ⟨position, c, .refl, rfl⟩
  | case2 position c stop hnext =>
    rw [decodeIndependentSerial_eq, hnext]
    exact ⟨position, c, .refl, rfl, hnext⟩
  | case3 position c block after hnext c' error hcommit =>
    rw [decodeIndependentSerial_eq, hnext]
    simp only [hcommit]
    refine ⟨position, c, .refl, ?_⟩
    unfold FrameCommitter.decodeAndCommit at hcommit
    split at hcommit
    · obtain ⟨rfl, -⟩ := Prod.mk.inj hcommit
      rfl
    · exact commit_eq_error hcommit
  | case4 position c block after hnext c' hcommit ih =>
    rw [decodeIndependentSerial_eq, hnext]
    simp only [hcommit]
    unfold FrameCommitter.decodeAndCommit at hcommit
    split at hcommit
    · cases hcommit
    · exact ih.head hnext hcommit

private theorem decodeLinkedFrom_ends (data : List UInt8) (frame : FrameHeader) (position : Nat)
    (history : List UInt8) (c : FrameCommitter xxh) :
    LoopEnds data frame position c (decodeLinkedFrom data frame position history c) := by
  induction position, history, c using decodeLinkedFrom.induct data frame with
  | case1 position history c error hnext =>
    rw [decodeLinkedFrom_eq, hnext]
    exact ⟨position, c, .refl, rfl⟩
  | case2 position history c stop hnext =>
    rw [decodeLinkedFrom_eq, hnext]
    exact ⟨position, c, .refl, rfl, hnext⟩
  | case3 position history c block after hnext error hdecode =>
    rw [decodeLinkedFrom_eq, hnext]
    simp only [hdecode]
    exact ⟨position, c, .refl, rfl⟩
  | case4 position history c block after hnext decoded hdecode c' error hcommit =>
    rw [decodeLinkedFrom_eq, hnext]
    simp only [hdecode, hcommit]
    exact ⟨position, c, .refl, commit_eq_error hcommit⟩
  | case5 position history c block after hnext decoded hdecode c' hcommit ih =>
    rw [decodeLinkedFrom_eq, hnext]
    simp only [hdecode, hcommit]
    exact ih.head hnext hcommit

theorem decodeMode_ends (data : List UInt8) (frame : FrameHeader) (c : FrameCommitter xxh) :
    LoopEnds data frame frame.blocksStart c (decodeMode data frame c) := by
  unfold decodeMode
  split
  · exact decodeIndependentSerial_ends data frame _ c
  · exact decodeLinkedFrom_ends data frame _ [] c

end Blocks

/-- The blocks follow each other in decoded bytes. -/
def BlocksTile : Nat → List Block → Nat → Prop :=
  Tiled Block.decodedStart fun block => block.decodedStart + block.decodedLen

/-- The frames follow each other in decoded bytes. -/
def FramesTile : Nat → List Frame → Nat → Prop :=
  Tiled Frame.decodedStart fun frame => frame.decodedStart + frame.decodedLen

/-- What the first block and the block count of a frame select. -/
def Frame.selected (frame : Frame) (blocks : List Block) : List Block :=
  slice blocks frame.firstBlock (frame.firstBlock + frame.blockCount)

/-- The frame selects just the blocks with its number, and they tile its part of the output. -/
structure Frame.Laid (frame : Frame) (number : Nat) (blocks : List Block) : Prop where
  inside : frame.firstBlock + frame.blockCount ≤ blocks.length
  exactly : frame.selected blocks = blocks.filter (·.frame = number)
  tile : BlocksTile frame.decodedStart (frame.selected blocks)
    (frame.decodedStart + frame.decodedLen)

/-- Frames and blocks tile the output, and every block is of one of the frames. -/
structure Laid (frames : List Frame) (blocks : List Block) (total : Nat) : Prop where
  framesTile : FramesTile 0 frames total
  blocksTile : BlocksTile 0 blocks total
  numbered : ∀ block ∈ blocks, block.frame < frames.length
  selects : ∀ (number : Nat) (frame : Frame), frames[number]? = some frame →
    frame.Laid number blocks

section Frames

variable {data : List UInt8} {header : FrameHeader} {position stop next : Nat}
  {c c' : FrameCommitter xxh}

/-- The blocks that are committed tile what they add to the output. -/
theorem Commits.tile (commits : Commits data header position c stop c') :
    c'.decodedBase = c.decodedBase ∧ ∃ piece, c'.blocks = c.blocks ++ piece ∧
      (∀ block ∈ piece, block.frame = c.frameNumber) ∧
      BlocksTile (c.decodedBase + c.decoded) piece (c.decodedBase + c'.decoded) := by
  induction commits with
  | refl => exact ⟨rfl, [], by simp, nofun, rfl⟩
  | @head _ _ _ c c' _ layout decoded read commit rest ih =>
    obtain ⟨hbase, hnumber, hdecoded, hblocks, -⟩ := commit_eq_ok commit
    obtain ⟨hbase', piece, hpiece, hframes, htile⟩ := ih
    refine ⟨hbase'.trans hbase, c.record data layout decoded :: piece, ?_, ?_, ?_⟩
    · rw [hpiece, hblocks, List.append_assoc]
      rfl
    · intro block hmem
      rcases List.mem_cons.mp hmem with hfirst | hrest
      · rw [hfirst]
        rfl
      · rw [hframes block hrest, hnumber]
    · refine ⟨rfl, ?_⟩
      rw [hbase, hdecoded] at htile
      dsimp only [FrameCommitter.record]
      rw [Nat.add_assoc]
      exact htile

private theorem Frame.Laid.append {frame : Frame} {number : Nat} {blocks piece : List Block}
    (laid : frame.Laid number blocks) (other : ∀ block ∈ piece, block.frame ≠ number) :
    frame.Laid number (blocks ++ piece) := by
  have hsame : frame.selected (blocks ++ piece) = frame.selected blocks := by
    have hinside := laid.inside
    unfold Frame.selected slice
    rw [List.drop_append_of_le_length (by omega), List.take_append_of_le_length]
    rw [List.length_drop]
    omega
  refine ⟨?_, ?_, ?_⟩
  · rw [List.length_append]
    exact Nat.le_add_right_of_le laid.inside
  · have hnone : piece.filter (fun block => decide (block.frame = number)) = [] := by
      apply List.filter_eq_nil_iff.mpr
      intro block hmem
      simpa using other block hmem
    rw [hsame, laid.exactly, List.filter_append, hnone, List.append_nil]
  · rw [hsame]
    exact laid.tile

/-- A further frame with its blocks behind those before it. -/
theorem Laid.snoc {frames : List Frame} {blocks piece : List Block} {total : Nat} {frame : Frame}
    (laid : Laid frames blocks total) (start : frame.decodedStart = total)
    (first : frame.firstBlock = blocks.length) (count : frame.blockCount = piece.length)
    (numbered : ∀ block ∈ piece, block.frame = frames.length)
    (tile : BlocksTile total piece (total + frame.decodedLen)) :
    Laid (frames ++ [frame]) (blocks ++ piece) (total + frame.decodedLen) where
  framesTile := by
    have hframes : FramesTile 0 frames frame.decodedStart := by
      rw [start]
      exact laid.framesTile
    rw [← start]
    exact hframes.snoc
  blocksTile := laid.blocksTile.append tile
  numbered block hmem := by
    rw [List.length_append, List.length_singleton]
    rcases List.mem_append.mp hmem with hold | hnew
    · exact Nat.lt_succ_of_lt (laid.numbered block hold)
    · rw [numbered block hnew]
      exact Nat.lt_succ_self _
  selects number frame' hnumber := by
    rcases Nat.lt_or_ge number frames.length with hlt | hge
    · rw [List.getElem?_append_left hlt] at hnumber
      apply (laid.selects number frame' hnumber).append
      intro block hmem
      rw [numbered block hmem]
      exact Nat.ne_of_gt hlt
    · have hlast := (List.getElem?_eq_some_iff.mp hnumber).1
      rw [List.length_append, List.length_singleton] at hlast
      obtain rfl : number = frames.length := by omega
      rw [List.getElem?_concat_length] at hnumber
      obtain rfl := Option.some.inj hnumber
      have hselected : frame.selected (blocks ++ piece) = piece := by
        simp [Frame.selected, slice, first, count]
      refine ⟨?_, ?_, ?_⟩
      · exact Nat.le_of_eq (by rw [first, count, List.length_append])
      · have hnone : blocks.filter (fun block => decide (block.frame = frames.length)) = [] := by
          apply List.filter_eq_nil_iff.mpr
          intro block hmem
          simpa using Nat.ne_of_lt (laid.numbered block hmem)
        have hall : piece.filter (fun block => decide (block.frame = frames.length)) = piece := by
          apply List.filter_eq_self.mpr
          intro block hmem
          simpa using numbered block hmem
        rw [hselected, List.filter_append, hnone, hall, List.nil_append]
      · rw [hselected, start]
        exact tile

end Frames

/-- What a report says of the input and the output. -/
structure Report.Exact (report : Report) (data output : List UInt8) : Prop where
  sourceLen : report.sourceLen = data.length
  decodedLen : report.decodedLen = output.length
  laid : Laid report.frames report.blocks report.decodedLen

section Runs

variable {data : List UInt8}

private theorem Turn.laid {before after : Nat × Delivered} (turn : Turn xxh data before after)
    (laid : Laid before.2.frames before.2.blocks before.2.decodedTotal) :
    Laid after.2.frames after.2.blocks after.2.decodedTotal := by
  obtain ⟨-, ⟨_, -, -, -, hsame⟩ | ⟨-, hframe⟩⟩ := turn
  · rw [hsame]
    exact laid
  · obtain ⟨header, c, stop, -, -, hmode, -, -, hframed⟩ := decodeFrame_eq_ok.mp hframe
    obtain ⟨position, c', hcommits, houtcome⟩ :=
      decodeMode_ends data header (committerOf xxh header before.2)
    rw [hmode] at houtcome
    obtain ⟨rfl, -⟩ := houtcome
    obtain ⟨-, piece, hblocks, hnumbered, htile⟩ := hcommits.tile
    rw [hframed]
    simp only [Delivered.framed, Delivered.after, hblocks]
    apply laid.snoc
    · rfl
    · rfl
    · simp [committerOf]
    · exact hnumbered
    · exact htile

private theorem turns_laid {before after : Nat × Delivered}
    (turns : Relation.ReflTransGen (Turn xxh data) before after)
    (laid : Laid before.2.frames before.2.blocks before.2.decodedTotal) :
    Laid after.2.frames after.2.blocks after.2.decodedTotal := by
  induction turns with
  | refl => exact laid
  | tail _ turn ih => exact turn.laid ih

/-- With any number of threads and under any schedule, the report of an accepted input is an exact
layout of its output. -/
theorem decoder_exact {setting : Setting} {d : Delivered} {report : Report}
    (run : Reaches (@DecodeStep xxh setting data) .opened (.returned d (.ok report))) :
    report.Exact data d.output := by
  have hserial := (decoder_run run).1 d (.ok report) rfl
  obtain ⟨-, stop, d', hturns, -, -, rfl, rfl⟩ := decompressSerial_eq_ok.mp hserial
  have hempty : Laid [] [] 0 := ⟨rfl, rfl, nofun, by simp⟩
  exact ⟨rfl, turns_counted rfl hturns, turns_laid hturns hempty⟩

end Runs

end Fbz.Lz4
