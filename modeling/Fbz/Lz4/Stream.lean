import Mathlib.Logic.Relation
import Fbz.Lz4.Decode

/-!
# LZ4 streams

The loop over the frames of an input, on one thread.
-/

namespace Fbz.Lz4

structure Frame where
  compressedStart : Nat
  compressedEnd : Nat
  decodedStart : Nat
  decodedLen : Nat
  blockMaxSize : Nat
  blockMode : BlockMode
  blockChecksums : Bool
  contentChecksum : Bool
  declaredContentSize : Option Nat
  firstBlock : Nat
  blockCount : Nat
  deriving DecidableEq, Repr

structure Report where
  sourceLen : Nat
  decodedLen : Nat
  frames : List Frame
  blocks : List Block
  deriving DecidableEq, Repr

/-- What has been delivered after some frames. -/
structure Delivered where
  output : List UInt8 := []
  progress : List DecodeProgress := []
  frames : List Frame := []
  blocks : List Block := []
  decodedTotal : Nat := 0

variable {xxh : XxHash32}

def decodeMode (data : List UInt8) (frame : FrameHeader) (c : FrameCommitter xxh) :
    FrameCommitter xxh × Result Nat :=
  match frame.mode with
  | .independent => decodeIndependentSerial data frame frame.blocksStart c
  | .linked => decodeLinked data frame frame.blocksStart c

/-- The declared size and the content checksum; returns the position after the frame. -/
def checkContent (data : List UInt8) (frame : FrameHeader) (position : Nat)
    (c : FrameCommitter xxh) : Result Nat := do
  ensure (∀ expected ∈ frame.contentSize, c.decoded = expected)
    (invalid s!"content size mismatch: expected {frame.contentSize.getD 0}, decoded {c.decoded}")
  match c.hasher with
  | none => return position
  | some hasher =>
    let expected ← readU32 data position "content checksum"
    let actual := xxh.finish hasher
    ensure (actual = expected)
      (invalid s!"content checksum mismatch: expected {hex 8 expected}, decoded {hex 8 actual}")
    return position + 4

variable (xxh)

def committerOf (frame : FrameHeader) (d : Delivered) : FrameCommitter xxh :=
  { output := d.output, progress := d.progress
    hasher := if frame.contentChecksum then some xxh.withSeed else none
    decodedBase := d.decodedTotal, decoded := 0, frameNumber := d.frames.length
    blocks := d.blocks }

variable {xxh}

/-- What a frame has delivered, however it ended. -/
def Delivered.after (d : Delivered) (c : FrameCommitter xxh) : Delivered :=
  { d with output := c.output, progress := c.progress, blocks := c.blocks }

def Delivered.framed (d : Delivered) (frame : FrameHeader) (c : FrameCommitter xxh)
    (position : Nat) : Delivered :=
  { d.after c with
    decodedTotal := d.decodedTotal + c.decoded
    frames := d.frames ++
      [{ compressedStart := frame.sourceStart, compressedEnd := position
         decodedStart := d.decodedTotal, decodedLen := c.decoded
         blockMaxSize := frame.maxBlockSize, blockMode := frame.mode
         blockChecksums := frame.blockChecksums, contentChecksum := frame.contentChecksum
         declaredContentSize := frame.contentSize, firstBlock := d.blocks.length
         blockCount := c.blocks.length - d.blocks.length }]
    progress := c.progress ++ [⟨position, d.decodedTotal + c.decoded⟩] }

variable (xxh)

/-- One frame at `position`. -/
def decodeFrame (data : List UInt8) (position : Nat) (d : Delivered) : Delivered × Result Nat :=
  match parseFrameHeader xxh data position with
  | .error error => (d, .error error)
  | .ok frame =>
    if d.frames.length < 2 ^ 32 then
      match decodeMode data frame (committerOf xxh frame d) with
      | (c, .error error) => (d.after c, .error error)
      | (c, .ok position) =>
        match checkContent data frame position c with
        | .error error => (d.after c, .error error)
        | .ok position =>
          if d.decodedTotal + c.decoded < 2 ^ 64 then (d.framed frame c position, .ok position)
          else (d.after c, .error (invalid "decoded length overflows u64"))
    else (d, .error (invalid "too many frames"))

theorem parseFrameHeader_advances {data : List UInt8} {start : Nat} {frame : FrameHeader}
    (h : parseFrameHeader xxh data start = .ok frame) : start < frame.blocksStart := by
  simp only [parseFrameHeader, result_bind_eq_ok] at h
  obtain ⟨_, -, _, -, _, -, _, -, _, -, ⟨size, position⟩, hsize, _, -, _, -, _, -, _, -, heq⟩ := h
  obtain rfl := Except.ok.inj heq
  have : start + 6 ≤ position := by
    unfold readContentSize at hsize
    split at hsize
    · obtain ⟨_, -, heq⟩ := result_bind_eq_ok.mp hsize
      obtain ⟨-, rfl⟩ := Prod.mk.inj (Except.ok.inj heq)
      omega
    · obtain ⟨-, rfl⟩ := Prod.mk.inj (Except.ok.inj hsize)
      omega
  dsimp only
  omega

variable {xxh}

private theorem decodeIndependentSerial_advances {data : List UInt8} {frame : FrameHeader}
    {position next : Nat} {c d : FrameCommitter xxh}
    (h : decodeIndependentSerial data frame position c = (d, .ok next)) :
    position ≤ next ∧ next ≤ data.length := by
  induction position, c using decodeIndependentSerial.induct data frame with
  | case1 position c error hnext => simp [decodeIndependentSerial_eq, hnext] at h
  | case2 position c stop hnext =>
    have := nextBlock_none hnext
    simp only [decodeIndependentSerial_eq, hnext, Prod.mk.injEq, Except.ok.injEq] at h
    omega
  | case3 position c block after hnext c' error hcommit =>
    simp [decodeIndependentSerial_eq, hnext, hcommit] at h
  | case4 position c block after hnext c' hcommit ih =>
    have := nextBlock_some hnext
    rw [decodeIndependentSerial_eq] at h
    simp only [hnext, hcommit] at h
    have := ih h
    omega

private theorem decodeLinkedFrom_advances {data history : List UInt8} {frame : FrameHeader}
    {position next : Nat} {c d : FrameCommitter xxh}
    (h : decodeLinkedFrom data frame position history c = (d, .ok next)) :
    position ≤ next ∧ next ≤ data.length := by
  induction position, history, c using decodeLinkedFrom.induct data frame with
  | case1 position history c error hnext => simp [decodeLinkedFrom_eq, hnext] at h
  | case2 position history c stop hnext =>
    have := nextBlock_none hnext
    simp only [decodeLinkedFrom_eq, hnext, Prod.mk.injEq, Except.ok.injEq] at h
    omega
  | case3 position history c block after hnext error hdecode =>
    simp [decodeLinkedFrom_eq, hnext, hdecode] at h
  | case4 position history c block after hnext decoded hdecode c' error hcommit =>
    simp [decodeLinkedFrom_eq, hnext, hdecode, hcommit] at h
  | case5 position history c block after hnext decoded hdecode c' hcommit ih =>
    have := nextBlock_some hnext
    rw [decodeLinkedFrom_eq] at h
    simp only [hnext, hdecode, hcommit] at h
    have := ih h
    omega

theorem checkContent_advances {data : List UInt8} {frame : FrameHeader}
    {position next : Nat} {c : FrameCommitter xxh}
    (h : checkContent data frame position c = .ok next) :
    position ≤ next ∧ (position ≤ data.length → next ≤ data.length) := by
  obtain ⟨_, -, h⟩ := result_bind_eq_ok.mp h
  split at h
  · obtain rfl := Except.ok.inj h
    exact ⟨Nat.le_refl _, id⟩
  · simp only [result_bind_eq_ok] at h
    obtain ⟨_, hread, _, -, heq⟩ := h
    obtain rfl := Except.ok.inj heq
    exact ⟨Nat.le_add_right .., fun _ => (readU32_eq_ok.mp hread).1⟩

/-- The steps of a frame that is accepted. -/
theorem decodeFrame_eq_ok {data : List UInt8} {position next : Nat} {d e : Delivered} :
    decodeFrame xxh data position d = (e, .ok next) ↔
      ∃ frame c after, parseFrameHeader xxh data position = .ok frame ∧ d.frames.length < 2 ^ 32 ∧
        decodeMode data frame (committerOf xxh frame d) = (c, .ok after) ∧
        checkContent data frame after c = .ok next ∧ d.decodedTotal + c.decoded < 2 ^ 64 ∧
        e = d.framed frame c next := by
  constructor
  · intro h
    unfold decodeFrame at h
    split at h
    case h_1 => cases h
    case h_2 frame hparse =>
    split at h
    case isFalse => cases h
    case isTrue hfew =>
    split at h
    case h_1 => cases h
    case h_2 c after hmode =>
    split at h
    case h_1 => cases h
    case h_2 stop hcheck =>
    split at h
    case isFalse => cases h
    case isTrue hfits =>
      obtain ⟨rfl, heq⟩ := Prod.mk.inj h
      obtain rfl := Except.ok.inj heq
      exact ⟨frame, c, after, hparse, hfew, hmode, hcheck, hfits, rfl⟩
  · rintro ⟨frame, c, after, hparse, hfew, hmode, hcheck, hfits, rfl⟩
    unfold decodeFrame
    simp only [hparse, if_pos hfew, hmode, hcheck, if_pos hfits]

theorem decodeFrame_advances {data : List UInt8} {position next : Nat} {d e : Delivered}
    (h : decodeFrame xxh data position d = (e, .ok next)) :
    position < next ∧ next ≤ data.length := by
  obtain ⟨frame, c, after, hparse, -, hmode, hcheck, -, -⟩ := decodeFrame_eq_ok.mp h
  have hstart := parseFrameHeader_advances xxh hparse
  have hblocks : frame.blocksStart ≤ after ∧ after ≤ data.length := by
    unfold decodeMode at hmode
    split at hmode
    · exact decodeIndependentSerial_advances hmode
    · exact decodeLinkedFrom_advances hmode
  have := checkContent_advances hcheck
  omega

theorem skipFrame_advances {data : List UInt8} {position next : Nat}
    (h : skipFrame data position = .ok next) : position < next ∧ next ≤ data.length := by
  simp only [skipFrame, result_bind_eq_ok, ensure_eq_ok] at h
  obtain ⟨_, -, _, hfits, heq⟩ := h
  have := Except.ok.inj heq
  omega

variable (xxh)

/-- The frames from `position` on. -/
def decompressFramesFrom (data : List UInt8) (position : Nat) (d : Delivered) :
    Delivered × Result Unit :=
  if _hp : position < data.length then
    match readU32 data position "frame magic" with
    | .error error => (d, .error error)
    | .ok magic =>
      if skippableMagicStart ≤ magic ∧ magic ≤ skippableMagicEnd then
        match _h : skipFrame data position with
        | .error error => (d, .error error)
        | .ok next => decompressFramesFrom data next d
      else if magic = legacyMagic then (d, .error (invalid "legacy LZ4 frames are not supported"))
      else if magic ≠ frameMagic then
        (d, .error (invalid s!"wrong magic {hex 8 magic} at byte {position}"))
      else
        match _h : decodeFrame xxh data position d with
        | (d, .error error) => (d, .error error)
        | (d, .ok next) => decompressFramesFrom data next d
  else (d, .ok ())
termination_by data.length - position
decreasing_by
  · have := skipFrame_advances _h
    omega
  · have := decodeFrame_advances _h
    omega

/-- One turn of the loop that does not fail. -/
def Turn (data : List UInt8) (before after : Nat × Delivered) : Prop :=
  before.1 < data.length ∧
    ((∃ magic, readU32 data before.1 "frame magic" = .ok magic ∧
        (skippableMagicStart ≤ magic ∧ magic ≤ skippableMagicEnd) ∧
        skipFrame data before.1 = .ok after.1 ∧ after.2 = before.2) ∨
      readU32 data before.1 "frame magic" = .ok frameMagic ∧
        decodeFrame xxh data before.1 before.2 = (after.2, .ok after.1))

variable {xxh}

theorem Turn.advances {data : List UInt8} {before after : Nat × Delivered}
    (h : Turn xxh data before after) : before.1 < after.1 ∧ after.1 ≤ data.length := by
  obtain ⟨-, ⟨_, -, -, hskip, -⟩ | ⟨-, hframe⟩⟩ := h
  · exact skipFrame_advances hskip
  · exact decodeFrame_advances hframe

theorem decompressFramesFrom_turn {data : List UInt8} {before after : Nat × Delivered}
    (h : Turn xxh data before after) :
    decompressFramesFrom xxh data before.1 before.2 =
      decompressFramesFrom xxh data after.1 after.2 := by
  obtain ⟨hlt, ⟨magic, hread, hskippable, hskip, heq⟩ | ⟨hread, hframe⟩⟩ := h
  · rw [decompressFramesFrom, dif_pos hlt, hread]
    dsimp only
    rw [if_pos hskippable, heq]
    split
    · simp_all
    · simp_all
  · rw [decompressFramesFrom, dif_pos hlt, hread]
    dsimp only
    rw [if_neg (by decide), if_neg (by decide), if_neg (by decide)]
    split
    · simp_all
    · simp_all

theorem decompressFramesFrom_turns {data : List UInt8} {before after : Nat × Delivered}
    (h : Relation.ReflTransGen (Turn xxh data) before after) :
    decompressFramesFrom xxh data before.1 before.2 =
      decompressFramesFrom xxh data after.1 after.2 := by
  induction h using Relation.ReflTransGen.head_induction_on with
  | refl => rfl
  | head hturn _ ih => exact (decompressFramesFrom_turn hturn).trans ih

/-- The loop succeeds by turns up to the end of the input. -/
theorem decompressFramesFrom_eq_ok {data : List UInt8} {position : Nat} {d e : Delivered} :
    decompressFramesFrom xxh data position d = (e, .ok ()) ↔
      ∃ stop, Relation.ReflTransGen (Turn xxh data) (position, d) (stop, e) ∧
        data.length ≤ stop := by
  constructor
  · intro h
    induction position, d using decompressFramesFrom.induct xxh data with
    | case1 position d hlt error hread => simp [decompressFramesFrom, hlt, hread] at h
    | case2 position d hlt magic hread hskippable error hskip =>
      rw [decompressFramesFrom, dif_pos hlt, hread] at h
      dsimp only at h
      rw [if_pos hskippable] at h
      split at h <;> simp_all
    | case3 position d hlt magic hread hskippable next hskip ih =>
      have hturn : Turn xxh data (position, d) (next, d) :=
        ⟨hlt, .inl ⟨magic, hread, hskippable, hskip, rfl⟩⟩
      obtain ⟨stop, hturns, hend⟩ := ih ((decompressFramesFrom_turn hturn).symm.trans h)
      exact ⟨stop, .head hturn hturns, hend⟩
    | case4 position d hlt hread hother => simp [decompressFramesFrom, hlt, hread, hother] at h
    | case5 position d hlt magic hread hother hlegacy hwrong =>
      simp [decompressFramesFrom, hlt, hread, hother, hlegacy, hwrong] at h
    | case6 position d hlt magic hread hother hlegacy hright d' error hframe =>
      rw [decompressFramesFrom, dif_pos hlt, hread] at h
      dsimp only at h
      rw [if_neg hother, if_neg hlegacy, if_neg hright] at h
      split at h <;> simp_all
    | case7 position d hlt magic hread hother hlegacy hright d' next hframe ih =>
      have hturn : Turn xxh data (position, d) (next, d') :=
        ⟨hlt, .inr ⟨not_not.mp hright ▸ hread, hframe⟩⟩
      obtain ⟨stop, hturns, hend⟩ := ih ((decompressFramesFrom_turn hturn).symm.trans h)
      exact ⟨stop, .head hturn hturns, hend⟩
    | case8 position d hge =>
      rw [decompressFramesFrom, dif_neg hge] at h
      obtain ⟨rfl, -⟩ := Prod.mk.inj h
      exact ⟨position, .refl, Nat.not_lt.mp hge⟩
  · rintro ⟨stop, hturns, hend⟩
    rw [decompressFramesFrom_turns hturns, decompressFramesFrom, dif_neg (Nat.not_lt.mpr hend)]

variable (xxh)

/-- `decompress_to_sink_with_options_and_progress` with one thread: what was delivered, and the
report. -/
def decompressSerial (data : List UInt8) (options : DecodeOptions) : Delivered × Result Report :=
  match options.validate with
  | .error error => ({}, .error error)
  | .ok _ =>
    match decompressFramesFrom xxh data 0 {} with
    | (d, .error error) => (d, .error error)
    | (d, .ok ()) =>
      if d.frames.isEmpty then (d, .error (invalid "input contains no LZ4 frames"))
      else
        ({ d with progress := d.progress ++ [⟨data.length, d.decodedTotal⟩] },
          .ok ⟨data.length, d.decodedTotal, d.frames, d.blocks⟩)

variable {xxh}

theorem decompressSerial_eq_ok {data : List UInt8} {options : DecodeOptions} {delivered : Delivered}
    {report : Report} :
    decompressSerial xxh data options = (delivered, .ok report) ↔
      (∃ valid, options.validate = .ok valid) ∧
        ∃ stop d, Relation.ReflTransGen (Turn xxh data) (0, {}) (stop, d) ∧ data.length ≤ stop ∧
          d.frames ≠ [] ∧
          delivered = { d with progress := d.progress ++ [⟨data.length, d.decodedTotal⟩] } ∧
          report = ⟨data.length, d.decodedTotal, d.frames, d.blocks⟩ := by
  unfold decompressSerial
  constructor
  · intro h
    split at h
    case h_1 => cases h
    case h_2 valid hvalid =>
    split at h
    case h_1 => cases h
    case h_2 d hframes =>
    split at h
    case isTrue => cases h
    case isFalse hsome =>
      cases h
      obtain ⟨stop, hturns, hend⟩ := decompressFramesFrom_eq_ok.mp hframes
      exact ⟨⟨valid, hvalid⟩, stop, d, hturns, hend, by simpa using hsome, rfl, rfl⟩
  · rintro ⟨⟨valid, hvalid⟩, stop, d, hturns, hend, hsome, rfl, rfl⟩
    rw [hvalid]
    dsimp only
    rw [decompressFramesFrom_eq_ok.mpr ⟨stop, hturns, hend⟩]
    dsimp only
    rw [if_neg (by simpa using hsome)]

end Fbz.Lz4
