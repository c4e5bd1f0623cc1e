import Fbz.Lz4.Locality
import Fbz.Lz4.Progress

/-!
# Counts that a word does not hold

A frame is only refused for its length once its blocks are out. An input of two frames has the
callback given the sum of both as a `u64`, which wraps.
-/

namespace Fbz.Lz4

open Transition

variable {xxh : XxHash32} {front back : List UInt8}

/-- A block that is 256 times the letter a. -/
def runBlock : List UInt8 :=
  [11, 0, 0, 0, 0x1f, 0x61, 1, 0, 231, 0x50, 0x61, 0x61, 0x61, 0x61, 0x61]

def runBlocks (count : Nat) : List UInt8 := (List.replicate count runBlock).flatten

/-- A frame of such blocks, without checksums and without its length. -/
def runFrame (count : Nat) : List UInt8 :=
  [0x04, 0x22, 0x4d, 0x18, 0x60, 0x40, 0x82] ++ runBlocks count ++ [0, 0, 0, 0]

def runHeader : FrameHeader where
  sourceStart := 0
  blocksStart := 7
  maxBlockSize := 65536
  mode := .independent
  blockChecksums := false
  contentChecksum := false
  contentSize := none

private theorem runBlocks_length (count : Nat) : (runBlocks count).length = 15 * count := by
  simp [runBlocks, runBlock, Nat.mul_comm]

private theorem runBlocks_succ (count : Nat) :
    runBlocks (count + 1) = runBlocks count ++ runBlock := by
  simp [runBlocks, List.replicate_succ']

theorem runFrame_length (count : Nat) : (runFrame count).length = 15 * count + 11 := by
  simp only [runFrame, List.length_append, runBlocks_length, List.length_cons, List.length_nil]
  omega

private theorem decodeLayoutBlock_run (xxh : XxHash32) : ∃ bytes : List UInt8, bytes.length = 256 ∧
    decodeLayoutBlock xxh runBlock ⟨4, 15, false, none⟩ [] 65536 = .ok (.decoded bytes) := by
  have hdecode : decompressBlock (slice runBlock 4 15) [] 65536 = .ok (List.replicate 256 0x61) := by
    decide +kernel
  refine ⟨List.replicate 256 0x61, List.length_replicate, ?_⟩
  unfold decodeLayoutBlock
  dsimp only [checkBlockChecksum]
  rw [hdecode]
  rfl

/-- What a run of such blocks leaves behind it. -/
private structure Ran (place : Nat) (total : Nat) (c c' : FrameCommitter xxh) : Prop where
  decodedBase : c'.decodedBase = c.decodedBase
  decoded : c'.decoded = c.decoded + total
  hasher : c.hasher = none → c'.hasher = none
  progress : ∃ calls, c'.progress = c.progress ++ calls ∧
    (0 < total → calls.getLast? = some ⟨place, c.decodedBase + c'.decoded⟩)

private theorem nextBlock_run (offset : Nat) :
    nextBlock (front ++ runBlock ++ back) front.length (runHeader.move offset) =
      .ok (some (BlockLayout.move ⟨4, 15, false, none⟩ front.length), front.length + 15) := by
  have hnext : nextBlock runBlock 0 runHeader = .ok (some ⟨4, 15, false, none⟩, 15) := by
    decide +kernel
  exact @nextBlock_embed front runBlock back 0 15 runHeader _ hnext

private theorem commit_ran {data bytes : List UInt8} {c : FrameCommitter xxh} {layout : BlockLayout}
    (small : c.decoded + bytes.length < 2 ^ 64) :
    ∃ c', c.commit data layout (.decoded bytes) = (c', .ok ()) ∧
      Ran layout.dataEnd bytes.length c c' := by
  have hcommit : (c.commit data layout (.decoded bytes)).2 = .ok () := by
    rw [FrameCommitter.commit, DecodedBlock.bytes, if_pos small]
  obtain ⟨hbase, -, hdecoded, -, hprogress⟩ := commit_eq_ok (Prod.ext rfl hcommit)
  refine ⟨_, Prod.ext rfl hcommit, hbase, hdecoded, fun hnone => ?_, _, hprogress, fun _ => rfl⟩
  rw [FrameCommitter.commit, DecodedBlock.bytes, if_pos small, hnone]
  rfl

private theorem runBlock_ran {offset : Nat} {c : FrameCommitter xxh}
    (small : c.decoded + 256 < 2 ^ 64) :
    ∃ c', Ran (front.length + 15) 256 c c' ∧
      decodeIndependentSerial (front ++ runBlock ++ back) (runHeader.move offset) front.length c =
        decodeIndependentSerial (front ++ runBlock ++ back) (runHeader.move offset)
          (front.length + 15) c' := by
  obtain ⟨bytes, hlength, hblock⟩ := decodeLayoutBlock_run xxh
  obtain ⟨hdecode, -⟩ := @decodeLayoutBlock_embed front runBlock back _ _ _ _ _ (by decide) hblock
  rw [← hlength] at small ⊢
  obtain ⟨c', hcommit, hran⟩ := @commit_ran xxh (front ++ runBlock ++ back) bytes c
    (BlockLayout.move ⟨4, 15, false, none⟩ front.length) small
  refine ⟨c', hran, ?_⟩
  rw [decodeIndependentSerial_eq, nextBlock_run]
  dsimp only
  rw [FrameCommitter.decodeAndCommit, show (runHeader.move offset).maxBlockSize = 65536 from rfl,
    hdecode]
  dsimp only [DecodedBlock.move]
  rw [hcommit]

/-- The blocks of a frame one after the other. -/
private theorem runBlocks_ran {offset : Nat} {c : FrameCommitter xxh} (count : Nat)
    (small : c.decoded + 256 * count < 2 ^ 64) :
    ∃ c', Ran (front.length + 15 * count) (256 * count) c c' ∧
      decodeIndependentSerial (front ++ runBlocks count ++ back) (runHeader.move offset) front.length
          c =
        decodeIndependentSerial (front ++ runBlocks count ++ back) (runHeader.move offset)
          (front.length + 15 * count) c' := by
  induction count generalizing back with
  | zero => exact ⟨c, ⟨rfl, rfl, id, [], (List.append_nil _).symm, nofun⟩, rfl⟩
  | succ count ih =>
    obtain ⟨c₁, hran, hfirst⟩ := @ih (runBlock ++ back) (by omega)
    have hdecoded := hran.decoded
    have hsmall : c₁.decoded + 256 < 2 ^ 64 := by
      rw [Nat.mul_succ, ← Nat.add_assoc] at small
      exact hdecoded ▸ small
    obtain ⟨c₂, hlast, hone⟩ := @runBlock_ran xxh (front ++ runBlocks count) back offset c₁ hsmall
    have hdata : front ++ runBlocks (count + 1) ++ back =
        front ++ runBlocks count ++ runBlock ++ back := by
      rw [runBlocks_succ, List.append_assoc front (runBlocks count)]
    have hplace : (front ++ runBlocks count).length = front.length + 15 * count := by
      rw [List.length_append, runBlocks_length]
    rw [← List.append_assoc (front ++ runBlocks count)] at hfirst
    rw [hplace] at hone hlast
    refine ⟨c₂, ⟨hlast.decodedBase.trans hran.decodedBase, ?_, hlast.hasher ∘ hran.hasher, ?_⟩, ?_⟩
    · rw [hlast.decoded, hdecoded]
      omega
    · obtain ⟨calls, hcalls, -⟩ := hran.progress
      obtain ⟨more, hmore, hend⟩ := hlast.progress
      refine ⟨calls ++ more, by rw [hmore, hcalls, List.append_assoc], fun _ => ?_⟩
      rw [List.getLast?_append, hend (by decide), hran.decodedBase]
      rfl
    · rw [hdata, hfirst, hone]
      rfl

private theorem parseFrameHeader_run (count : Nat) :
    parseFrameHeader XxHash32.reference (front ++ runFrame count ++ back) front.length =
      .ok (runHeader.move front.length) := by
  have hparse : parseFrameHeader XxHash32.reference [0x04, 0x22, 0x4d, 0x18, 0x60, 0x40, 0x82] 0 =
      .ok runHeader := by
    decide +kernel
  have h := @parseFrameHeader_embed front _ (runBlocks count ++ [0, 0, 0, 0] ++ back) _ 0 _ hparse
  rw [Nat.add_zero] at h
  rw [← h, runFrame]
  simp only [List.append_assoc]

private theorem runBlocks_end (count : Nat) :
    nextBlock (front ++ runFrame count ++ back) (front.length + 7 + 15 * count)
      (runHeader.move front.length) = .ok (none, front.length + (runFrame count).length) := by
  have hend : nextBlock [0, 0, 0, 0] 0 runHeader = .ok (none, 4) := by
    decide +kernel
  have h := @nextBlock_embed (front ++ [0x04, 0x22, 0x4d, 0x18, 0x60, 0x40, 0x82] ++ runBlocks count)
    _ back 0 _ _ _ hend
  have hplace : (front ++ [0x04, 0x22, 0x4d, 0x18, 0x60, 0x40, 0x82] ++ runBlocks count).length =
      front.length + 7 + 15 * count := by
    rw [List.length_append, List.length_append, runBlocks_length]
    rfl
  have hdata : front ++ [0x04, 0x22, 0x4d, 0x18, 0x60, 0x40, 0x82] ++ runBlocks count ++ [0, 0, 0, 0] ++
      back = front ++ runFrame count ++ back := by
    simp only [runFrame, List.append_assoc]
  have hstop : front.length + (runFrame count).length = front.length + 7 + 15 * count + 4 := by
    rw [runFrame_length]
    omega
  rw [hdata, hplace] at h
  rw [hstop]
  exact h

/-- A frame is decoded to its end, and then refused if it is too long. -/
private theorem decodeFrame_run {d : Delivered} (count : Nat) (few : d.frames.length < 2 ^ 32)
    (small : 256 * count < 2 ^ 64) :
    ∃ c : FrameCommitter XxHash32.reference,
      Ran (front.length + 7 + 15 * count) (256 * count)
        (committerOf XxHash32.reference (runHeader.move front.length) d) c ∧
      decodeFrame XxHash32.reference (front ++ runFrame count ++ back) front.length d =
        if d.decodedTotal + 256 * count < 2 ^ 64 then
          (d.framed (runHeader.move front.length) c (front.length + (runFrame count).length),
            .ok (front.length + (runFrame count).length))
        else (d.after c, .error (invalid "decoded length overflows u64")) := by
  have hdecoded : (committerOf XxHash32.reference (runHeader.move front.length) d).decoded +
      256 * count < 2 ^ 64 := (Nat.zero_add _).symm ▸ small
  obtain ⟨c, hran, hblocks⟩ := @runBlocks_ran _
    (front ++ [0x04, 0x22, 0x4d, 0x18, 0x60, 0x40, 0x82]) ([0, 0, 0, 0] ++ back) front.length _ count
    hdecoded
  have hstart : (front ++ [0x04, 0x22, 0x4d, 0x18, 0x60, 0x40, 0x82]).length = front.length + 7 :=
    List.length_append
  have hdata : front ++ [0x04, 0x22, 0x4d, 0x18, 0x60, 0x40, 0x82] ++ runBlocks count ++
      ([0, 0, 0, 0] ++ back) = front ++ runFrame count ++ back := by
    simp only [runFrame, List.append_assoc]
  rw [hdata, hstart] at hblocks
  rw [hstart] at hran
  have hnone : c.hasher = none := hran.hasher rfl
  have hcounted : c.decoded = 256 * count := hran.decoded.trans (Nat.zero_add _)
  have hmode : decodeMode (front ++ runFrame count ++ back) (runHeader.move front.length)
      (committerOf XxHash32.reference (runHeader.move front.length) d) =
        (c, .ok (front.length + (runFrame count).length)) := by
    rw [decodeIndependentSerial_eq _ _ (_ + 15 * count), runBlocks_end] at hblocks
    exact hblocks
  have hcheck : checkContent (front ++ runFrame count ++ back) (runHeader.move front.length)
      (front.length + (runFrame count).length) c =
        .ok (front.length + (runFrame count).length) := by
    rw [checkContent, hnone, ensure_of nofun]
    rfl
  refine ⟨c, hran, ?_⟩
  rw [decodeFrame, parseFrameHeader_run]
  dsimp only
  rw [if_pos few, hmode]
  dsimp only
  rw [hcheck, hcounted]

private theorem readMagic_run (count : Nat) :
    readU32 (front ++ runFrame count ++ back) front.length "frame magic" = .ok frameMagic := by
  have hread : readU32 [0x04, 0x22, 0x4d, 0x18, 0x60, 0x40, 0x82] 0 "frame magic" = .ok frameMagic := by
    decide +kernel
  have h := @readU32_embed front _ (runBlocks count ++ [0, 0, 0, 0] ++ back) 0 _ _ hread "frame magic"
  rw [Nat.add_zero] at h
  rw [← h, runFrame]
  simp only [List.append_assoc]

private theorem frames_refused {data : List UInt8} {position : Nat} {d e : Delivered}
    {error : Error} (inside : position < data.length)
    (magic : readU32 data position "frame magic" = .ok frameMagic)
    (refused : decodeFrame XxHash32.reference data position d = (e, .error error)) :
    decompressFramesFrom XxHash32.reference data position d = (e, .error error) := by
  rw [decompressFramesFrom, dif_pos inside, magic]
  dsimp only
  rw [if_neg (by decide), if_neg (by decide), if_neg (by decide)]
  split
  · simp_all
  · simp_all

/-- Two frames that a `u64` counts one by one but not together: all of their blocks are put out. -/
theorem decompressSerial_runs {options valid : DecodeOptions} (validated : options.validate = .ok valid)
    {count : Nat} (small : 256 * count < 2 ^ 64) (large : 2 ^ 64 ≤ 256 + 256 * count) :
    ∃ d error calls last,
      decompressSerial XxHash32.reference (runFrame 1 ++ runFrame count) options =
        (d, .error error) ∧
      d.progress = calls ++ [⟨last, 256 + 256 * count⟩] ∧ ⟨26, 256⟩ ∈ calls := by
  have hlength : (runFrame 1).length = 26 := runFrame_length 1
  -- the first frame is framed
  obtain ⟨c₁, hran₁, hframe₁⟩ := @decodeFrame_run [] (runFrame count) {} 1 (by decide) (by decide)
  rw [if_pos (by decide), hlength] at hframe₁
  obtain ⟨d, hd⟩ : ∃ d, Delivered.framed {} (runHeader.move 0) c₁ 26 = d := ⟨_, rfl⟩
  have hturn : Turn XxHash32.reference (runFrame 1 ++ runFrame count) (0, {}) (26, d) := by
    refine ⟨?_, .inr ⟨@readMagic_run [] _ 1, hd ▸ hframe₁⟩⟩
    dsimp only
    rw [List.length_append, hlength]
    omega
  have hcounted : c₁.decoded = 256 := hran₁.decoded
  have htotal : d.decodedTotal = 256 := by
    rw [← hd]
    exact (Nat.zero_add _).trans hcounted
  have hcalled : ⟨26, 256⟩ ∈ d.progress := by
    rw [← hd, Delivered.framed, hcounted]
    exact List.mem_append_right _ (List.mem_singleton_self _)
  -- the second one is not
  have hfew : d.frames.length < 2 ^ 32 := by
    rw [← hd]
    exact (by decide : 1 < 2 ^ 32)
  obtain ⟨c₂, hran₂, hframe₂⟩ := @decodeFrame_run (runFrame 1) [] d count hfew small
  rw [htotal, if_neg (Nat.not_lt.mpr large), List.append_nil, hlength] at hframe₂
  have hinside : 26 < (runFrame 1 ++ runFrame count).length := by
    rw [List.length_append, hlength, runFrame_length]
    omega
  have hmagic := @readMagic_run (runFrame 1) [] count
  rw [List.append_nil, hlength] at hmagic
  have hsecond := (decompressFramesFrom_turn hturn).trans (frames_refused hinside hmagic hframe₂)
  obtain ⟨calls, hprogress, hlast⟩ := hran₂.progress
  obtain ⟨between, hbetween⟩ := List.getLast?_eq_some_iff.mp (hlast (by omega))
  refine ⟨d.after c₂, invalid "decoded length overflows u64", d.progress ++ between,
    (runFrame 1).length + 7 + 15 * count, ?_, ?_, List.mem_append_left _ hcalled⟩
  · dsimp only at hsecond
    rw [decompressSerial, validated]
    dsimp only
    rw [hsecond]
  · have hdecoded : c₂.decoded = 256 * count := hran₂.decoded.trans (Nat.zero_add _)
    have hbase : (committerOf XxHash32.reference (runHeader.move (runFrame 1).length) d).decodedBase =
        256 := htotal
    rw [hbetween, hdecoded, hbase] at hprogress
    rw [List.append_assoc]
    exact hprogress

end Fbz.Lz4
