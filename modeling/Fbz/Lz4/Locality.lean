import Fbz.Embedded
import Fbz.Lz4.Stream

/-!
# LZ4 frames inside a longer input

A frame is decoded from its own bytes: whatever stands before and behind it, it is decoded to the
same bytes, and its records move with it.
-/

namespace Fbz.Lz4

variable {front data back : List UInt8}

def FrameHeader.move (frame : FrameHeader) (offset : Nat) : FrameHeader :=
  { frame with
    sourceStart := offset + frame.sourceStart
    blocksStart := offset + frame.blocksStart }

def BlockLayout.move (block : BlockLayout) (offset : Nat) : BlockLayout :=
  { block with dataStart := offset + block.dataStart, dataEnd := offset + block.dataEnd }

def DecodedBlock.move (offset : Nat) : DecodedBlock → DecodedBlock
  | stored start stop => stored (offset + start) (offset + stop)
  | decoded bytes => decoded bytes

theorem readU32_embed {position value : Nat} {context : String}
    (h : readU32 data position context = .ok value) (context' : String) :
    readU32 (front ++ data ++ back) (front.length + position) context' = .ok value := by
  obtain ⟨hle, rfl⟩ := readU32_eq_ok.mp h
  rw [readU32_eq_ok, Nat.add_assoc, slice_embed hle]
  exact ⟨length_embed_le hle, rfl⟩

private theorem readContentSize_embed {position next : Nat} {has : Bool} {size : Option Nat}
    (h : readContentSize data position has = .ok (size, next)) :
    readContentSize (front ++ data ++ back) (front.length + position) has =
      .ok (size, front.length + next) := by
  cases has with
  | false =>
    obtain ⟨rfl, rfl⟩ := Prod.mk.inj (Except.ok.inj h)
    rfl
  | true =>
    obtain ⟨bytes, hrange, heq⟩ := result_bind_eq_ok.mp h
    obtain ⟨rfl, rfl⟩ := Prod.mk.inj (Except.ok.inj heq)
    refine result_bind_eq_ok.mpr ⟨bytes, ?_, rfl⟩
    rw [okOr_eq_ok] at hrange ⊢
    exact range?_embed hrange

private theorem refuseDictionary_eq_ok {position : Nat} {has : Bool} {u : Unit}
    (h : refuseDictionary data position has = .ok u) : has = false := by
  cases has with
  | false => rfl
  | true =>
    obtain ⟨_, -, h⟩ := result_bind_eq_ok.mp h
    cases h

theorem parseFrameHeader_embed {xxh : XxHash32} {start : Nat} {frame : FrameHeader}
    (h : parseFrameHeader xxh data start = .ok frame) :
    parseFrameHeader xxh (front ++ data ++ back) (front.length + start) =
      .ok (frame.move front.length) := by
  simp only [parseFrameHeader, result_bind_eq_ok, okOr_eq_ok] at h ⊢
  obtain ⟨flg, hflg, bd, hbd, _, hversion, _, hreserved, size, hsize, ⟨content, position⟩, hcontent, _,
    hdictionary, expected, hexpected, descriptor, hdescriptor, _, hchecksum, heq⟩ := h
  obtain rfl := Except.ok.inj heq
  have hnone := refuseDictionary_eq_ok hdictionary
  refine ⟨flg, getElem?_embed_some hflg, bd, getElem?_embed_some hbd, _, hversion, _, hreserved, size,
    hsize, (content, front.length + position), readContentSize_embed hcontent, (), ?_, expected,
    getElem?_embed_some hexpected, descriptor, range?_embed hdescriptor, _, hchecksum, ?_⟩
  · rw [hnone]
    rfl
  · rfl

private theorem readBlockChecksum_embed {position next : Nat} {has : Bool} {checksum : Option Nat}
    (h : readBlockChecksum data position has = .ok (checksum, next)) :
    readBlockChecksum (front ++ data ++ back) (front.length + position) has =
      .ok (checksum, front.length + next) := by
  cases has with
  | false =>
    obtain ⟨rfl, rfl⟩ := Prod.mk.inj (Except.ok.inj h)
    rfl
  | true =>
    obtain ⟨value, hread, heq⟩ := result_bind_eq_ok.mp h
    obtain ⟨rfl, rfl⟩ := Prod.mk.inj (Except.ok.inj heq)
    exact result_bind_eq_ok.mpr ⟨value, readU32_embed hread _, rfl⟩

theorem nextBlock_embed {position next : Nat} {frame : FrameHeader} {block : Option BlockLayout}
    (h : nextBlock data position frame = .ok (block, next)) :
    nextBlock (front ++ data ++ back) (front.length + position) (frame.move front.length) =
      .ok (block.map (·.move front.length), front.length + next) := by
  obtain ⟨value, hread, h⟩ := result_bind_eq_ok.mp h
  refine result_bind_eq_ok.mpr ⟨value, readU32_embed hread _, ?_⟩
  split at h
  case isTrue hzero =>
    obtain ⟨rfl, rfl⟩ := Prod.mk.inj (Except.ok.inj h)
    rw [if_pos hzero]
    rfl
  case isFalse hne =>
    rw [if_neg hne]
    simp only [result_bind_eq_ok, ensure_eq_ok] at h ⊢
    obtain ⟨_, hsize, _, hfits, ⟨expected, after⟩, hsum, heq⟩ := h
    obtain ⟨rfl, rfl⟩ := Prod.mk.inj (Except.ok.inj heq)
    refine ⟨(), hsize, (), ?_, (expected, front.length + after), ?_, ?_⟩
    · rw [Nat.add_assoc, Nat.add_assoc, ← Nat.add_assoc position]
      exact length_embed_le hfits
    · rw [Nat.add_assoc, Nat.add_assoc, ← Nat.add_assoc position]
      exact readBlockChecksum_embed hsum
    · simp only [Option.map_some, BlockLayout.move, Nat.add_assoc]
      rfl

private theorem skipFrame_embed {position next : Nat} (h : skipFrame data position = .ok next) :
    skipFrame (front ++ data ++ back) (front.length + position) = .ok (front.length + next) := by
  obtain ⟨length, hread, h⟩ := result_bind_eq_ok.mp h
  obtain ⟨_, hfits, heq⟩ := result_bind_eq_ok.mp h
  obtain rfl := Except.ok.inj heq
  rw [ensure_eq_ok] at hfits
  refine result_bind_eq_ok.mpr ⟨length, readU32_embed hread _, ?_⟩
  rw [Nat.add_assoc, Nat.add_assoc, ← Nat.add_assoc position, ensure_of (length_embed_le hfits)]
  rfl

private theorem DecodedBlock.move_bytes {decoded : DecodedBlock}
    (inside : ∀ start stop, decoded = .stored start stop → stop ≤ data.length) :
    (decoded.move front.length).bytes (front ++ data ++ back) = decoded.bytes data := by
  cases decoded with
  | stored start stop => exact slice_embed (inside start stop rfl)
  | decoded bytes => rfl

theorem decodeLayoutBlock_embed {xxh : XxHash32} {block : BlockLayout} {dictionary : List UInt8}
    {maxBlockSize : Nat} {decoded : DecodedBlock} (inside : block.dataEnd ≤ data.length)
    (h : decodeLayoutBlock xxh data block dictionary maxBlockSize = .ok decoded) :
    decodeLayoutBlock xxh (front ++ data ++ back) (block.move front.length) dictionary maxBlockSize =
        .ok (decoded.move front.length) ∧
      ∀ start stop, decoded = .stored start stop → stop ≤ data.length := by
  have hslice : slice (front ++ data ++ back) (front.length + block.dataStart)
      (front.length + block.dataEnd) = slice data block.dataStart block.dataEnd :=
    slice_embed inside
  obtain ⟨_, hchecksum, h⟩ := result_bind_eq_ok.mp h
  have hchecksum' : checkBlockChecksum xxh (front ++ data ++ back) (block.move front.length) =
      .ok () := by
    unfold checkBlockChecksum at hchecksum ⊢
    cases hexpected : block.expectedChecksum with
    | none =>
      simp only [BlockLayout.move, hexpected]
    | some expected =>
      simp only [hexpected, ensure_eq_ok] at hchecksum
      simp only [BlockLayout.move, hexpected, ensure_eq_ok, hslice]
      exact hchecksum
  unfold decodeLayoutBlock
  rw [hchecksum', result_bind_ok]
  split at h
  case isTrue hstored =>
    obtain rfl := Except.ok.inj h
    refine ⟨if_pos hstored, fun start stop heq => ?_⟩
    obtain ⟨-, rfl⟩ := DecodedBlock.stored.inj heq
    exact inside
  case isFalse hcoded =>
    obtain ⟨bytes, hbytes, heq⟩ := result_bind_eq_ok.mp h
    obtain rfl := Except.ok.inj heq
    refine ⟨(if_neg hcoded).trans (result_bind_eq_ok.mpr ⟨bytes, ?_, rfl⟩), nofun⟩
    rw [← hbytes, ← hslice]
    rfl

def Block.move (shift : Shift) (block : Block) : Block :=
  { block with
    frame := shift.units + block.frame
    compressedStart := shift.compressed + block.compressedStart
    compressedEnd := shift.compressed + block.compressedEnd
    decodedStart := shift.decoded + block.decodedStart }

def Frame.move (shift : Shift) (frame : Frame) : Frame :=
  { frame with
    compressedStart := shift.compressed + frame.compressedStart
    compressedEnd := shift.compressed + frame.compressedEnd
    decodedStart := shift.decoded + frame.decodedStart
    firstBlock := shift.blocks + frame.firstBlock }

/-- What `d` has counted, when it has taken `offset` bytes of input. -/
def Delivered.shift (d : Delivered) (offset : Nat) : Shift :=
  ⟨offset, d.decodedTotal, d.frames.length, d.blocks.length⟩

/-- What a later part of the input has delivered, put behind what an earlier one has. -/
def Delivered.join (base : Delivered) (offset : Nat) (d : Delivered) : Delivered where
  output := base.output ++ d.output
  progress := base.progress ++ d.progress.map (.move (base.shift offset))
  frames := base.frames ++ d.frames.map (.move (base.shift offset))
  blocks := base.blocks ++ d.blocks.map (.move (base.shift offset))
  decodedTotal := base.decodedTotal + d.decodedTotal

variable {xxh : XxHash32} {base : Delivered}

/-- A committer at work behind what `base` has delivered. -/
def FrameCommitter.behind (base : Delivered) (offset : Nat) (c : FrameCommitter xxh) :
    FrameCommitter xxh where
  output := base.output ++ c.output
  progress := base.progress ++ c.progress.map (.move (base.shift offset))
  hasher := c.hasher
  decodedBase := base.decodedTotal + c.decodedBase
  decoded := c.decoded
  frameNumber := base.frames.length + c.frameNumber
  blocks := base.blocks ++ c.blocks.map (.move (base.shift offset))

private theorem commit_embed {c c' : FrameCommitter xxh} {layout : BlockLayout}
    {decoded : DecodedBlock}
    (inside : ∀ start stop, decoded = .stored start stop → stop ≤ data.length)
    (h : c.commit data layout decoded = (c', .ok ())) :
    (c.behind base front.length).commit (front ++ data ++ back) (layout.move front.length)
      (decoded.move front.length) = (c'.behind base front.length, .ok ()) := by
  have hbytes : (decoded.move front.length).bytes (front ++ data ++ back) = decoded.bytes data :=
    DecodedBlock.move_bytes inside
  unfold FrameCommitter.commit at h ⊢
  dsimp only at h
  simp only [hbytes]
  split at h
  case isFalse => cases h
  case isTrue fits =>
    obtain ⟨rfl, -⟩ := Prod.mk.inj h
    refine (if_pos fits).trans ?_
    simp [FrameCommitter.behind, Block.move, DecodeProgress.move, BlockLayout.move, Delivered.shift,
      Nat.add_assoc]

private theorem decodeIndependentSerial_embed {frame : FrameHeader} {position next : Nat}
    {c c' : FrameCommitter xxh}
    (h : decodeIndependentSerial data frame position c = (c', .ok next)) :
    decodeIndependentSerial (front ++ data ++ back) (frame.move front.length)
        (front.length + position) (c.behind base front.length) =
      (c'.behind base front.length, .ok (front.length + next)) := by
  induction position, c using decodeIndependentSerial.induct data frame with
  | case1 position c error hnext => simp [decodeIndependentSerial_eq, hnext] at h
  | case2 position c stop hnext =>
    simp only [decodeIndependentSerial_eq, hnext, Prod.mk.injEq, Except.ok.injEq] at h
    obtain ⟨rfl, rfl⟩ := h
    rw [decodeIndependentSerial_eq, nextBlock_embed hnext]
    rfl
  | case3 position c block after hnext c' error hcommit =>
    simp [decodeIndependentSerial_eq, hnext, hcommit] at h
  | case4 position c block after hnext c₁ hcommit ih =>
    rw [decodeIndependentSerial_eq] at h
    simp only [hnext, hcommit] at h
    have hinside : block.dataEnd ≤ data.length := by
      have := nextBlock_some hnext
      omega
    have hcommit' : (c.behind base front.length).decodeAndCommit (front ++ data ++ back)
        frame.maxBlockSize (block.move front.length) = (c₁.behind base front.length, .ok ()) := by
      unfold FrameCommitter.decodeAndCommit at hcommit ⊢
      split at hcommit
      case h_1 => cases hcommit
      case h_2 decoded hdecode =>
        obtain ⟨hdecode', hstored⟩ := @decodeLayoutBlock_embed front _ back _ _ _ _ _
          hinside hdecode
        rw [hdecode']
        exact commit_embed hstored hcommit
    rw [decodeIndependentSerial_eq, nextBlock_embed hnext]
    simp only [Option.map_some]
    rw [show (frame.move front.length).maxBlockSize = frame.maxBlockSize from rfl, hcommit']
    exact ih h

private theorem decodeLinkedFrom_embed {frame : FrameHeader} {position next : Nat}
    {history : List UInt8} {c c' : FrameCommitter xxh}
    (h : decodeLinkedFrom data frame position history c = (c', .ok next)) :
    decodeLinkedFrom (front ++ data ++ back) (frame.move front.length) (front.length + position)
        history (c.behind base front.length) =
      (c'.behind base front.length, .ok (front.length + next)) := by
  induction position, history, c using decodeLinkedFrom.induct data frame with
  | case1 position history c error hnext => simp [decodeLinkedFrom_eq, hnext] at h
  | case2 position history c stop hnext =>
    simp only [decodeLinkedFrom_eq, hnext, Prod.mk.injEq, Except.ok.injEq] at h
    obtain ⟨rfl, rfl⟩ := h
    rw [decodeLinkedFrom_eq, nextBlock_embed hnext]
    rfl
  | case3 position history c block after hnext error hdecode =>
    simp [decodeLinkedFrom_eq, hnext, hdecode] at h
  | case4 position history c block after hnext decoded hdecode c' error hcommit =>
    simp [decodeLinkedFrom_eq, hnext, hdecode, hcommit] at h
  | case5 position history c block after hnext decoded hdecode c₁ hcommit ih =>
    rw [decodeLinkedFrom_eq] at h
    simp only [hnext, hdecode, hcommit] at h
    have hinside : block.dataEnd ≤ data.length := by
      have := nextBlock_some hnext
      omega
    obtain ⟨hdecode', hstored⟩ := @decodeLayoutBlock_embed front _ back _ _ _ _ _
      hinside hdecode
    rw [decodeLinkedFrom_eq, nextBlock_embed hnext]
    simp only [Option.map_some]
    rw [show (frame.move front.length).maxBlockSize = frame.maxBlockSize from rfl, hdecode']
    simp only [commit_embed hstored hcommit, DecodedBlock.move_bytes hstored]
    exact ih h

private theorem decodeMode_embed {frame : FrameHeader} {next : Nat} {c c' : FrameCommitter xxh}
    (h : decodeMode data frame c = (c', .ok next)) :
    decodeMode (front ++ data ++ back) (frame.move front.length) (c.behind base front.length) =
      (c'.behind base front.length, .ok (front.length + next)) := by
  unfold decodeMode at h ⊢
  rw [show (frame.move front.length).mode = frame.mode from rfl]
  cases hmode : frame.mode with
  | independent =>
    rw [hmode] at h
    exact decodeIndependentSerial_embed h
  | linked =>
    rw [hmode] at h
    exact decodeLinkedFrom_embed h

private theorem checkContent_embed {frame : FrameHeader} {position next : Nat}
    {c : FrameCommitter xxh} (h : checkContent data frame position c = .ok next) :
    checkContent (front ++ data ++ back) (frame.move front.length) (front.length + position)
      (c.behind base front.length) = .ok (front.length + next) := by
  obtain ⟨_, hsize, h⟩ := result_bind_eq_ok.mp h
  refine result_bind_eq_ok.mpr ⟨(), hsize, ?_⟩
  rw [show (c.behind base front.length).hasher = c.hasher from rfl]
  cases hhasher : c.hasher with
  | none =>
    rw [hhasher] at h
    obtain rfl := Except.ok.inj h
    rfl
  | some hasher =>
    rw [hhasher] at h
    obtain ⟨expected, hread, h⟩ := result_bind_eq_ok.mp h
    obtain ⟨_, hsum, heq⟩ := result_bind_eq_ok.mp h
    obtain rfl := Except.ok.inj heq
    exact result_bind_eq_ok.mpr ⟨expected, readU32_embed hread _,
      result_bind_eq_ok.mpr ⟨(), hsum, rfl⟩⟩

private theorem decodeFrame_embed {position next : Nat} {d e : Delivered}
    (total : base.decodedTotal + e.decodedTotal < 2 ^ 64)
    (few : base.frames.length + e.frames.length ≤ 2 ^ 32)
    (h : decodeFrame xxh data position d = (e, .ok next)) :
    decodeFrame xxh (front ++ data ++ back) (front.length + position)
      (base.join front.length d) = (base.join front.length e, .ok (front.length + next)) := by
  obtain ⟨frame, c, after, hparse, hfew, hmode, hcheck, hfits, rfl⟩ := decodeFrame_eq_ok.mp h
  have hcommitter : committerOf xxh (frame.move front.length) (base.join front.length d) =
      (committerOf xxh frame d).behind base front.length := by
    simp only [committerOf, FrameCommitter.behind, Delivered.join, FrameHeader.move,
      List.length_append, List.length_map]
    rfl
  rw [decodeFrame_eq_ok]
  refine ⟨_, c.behind base front.length, _, parseFrameHeader_embed hparse, ?_,
    hcommitter ▸ decodeMode_embed hmode, checkContent_embed hcheck, ?_, ?_⟩
  · simp only [Delivered.framed, Delivered.after, List.length_append, List.length_singleton] at few
    simp only [Delivered.join, List.length_append, List.length_map]
    omega
  · simp only [Delivered.framed] at total
    simp only [Delivered.join, FrameCommitter.behind]
    omega
  · have hcount : base.blocks.length + c.blocks.length - (base.blocks.length + d.blocks.length) =
        c.blocks.length - d.blocks.length := Nat.add_sub_add_left ..
    simp [Delivered.join, Delivered.framed, Delivered.after, FrameCommitter.behind, Frame.move,
      FrameHeader.move, DecodeProgress.move, Delivered.shift, hcount, Nat.add_assoc]

private theorem Turn.grows {before after : Nat × Delivered} (h : Turn xxh data before after) :
    before.2.decodedTotal ≤ after.2.decodedTotal ∧
      before.2.frames.length ≤ after.2.frames.length := by
  obtain ⟨-, ⟨_, -, -, -, heq⟩ | ⟨-, hframe⟩⟩ := h
  · exact heq ▸ ⟨Nat.le_refl _, Nat.le_refl _⟩
  · obtain ⟨_, c, _, -, -, -, -, -, heq⟩ := decodeFrame_eq_ok.mp hframe
    rw [heq]
    simp [Delivered.framed, Delivered.after]

private theorem Turn.embed {before after : Nat × Delivered}
    (total : base.decodedTotal + after.2.decodedTotal < 2 ^ 64)
    (few : base.frames.length + after.2.frames.length ≤ 2 ^ 32) (h : Turn xxh data before after) :
    Turn xxh (front ++ data ++ back)
      (front.length + before.1, base.join front.length before.2)
      (front.length + after.1, base.join front.length after.2) := by
  obtain ⟨hlt, hcase⟩ := h
  have hlt' : front.length + before.1 < (front ++ data ++ back).length := by
    rw [List.length_append, List.length_append]
    omega
  refine ⟨hlt', ?_⟩
  rcases hcase with ⟨magic, hread, hskippable, hskip, heq⟩ | ⟨hread, hframe⟩
  · exact .inl ⟨magic, readU32_embed hread _, hskippable, skipFrame_embed hskip, heq ▸ rfl⟩
  · exact .inr ⟨readU32_embed hread _, decodeFrame_embed total few hframe⟩

theorem turns_embed {before after : Nat × Delivered}
    (total : base.decodedTotal + after.2.decodedTotal < 2 ^ 64)
    (few : base.frames.length + after.2.frames.length ≤ 2 ^ 32)
    (h : Relation.ReflTransGen (Turn xxh data) before after) :
    Relation.ReflTransGen (Turn xxh (front ++ data ++ back))
      (front.length + before.1, base.join front.length before.2)
      (front.length + after.1, base.join front.length after.2) := by
  induction h with
  | refl => exact .refl
  | tail _ hturn ih =>
    have hgrows := hturn.grows
    exact (ih (by omega) (by omega)).tail (hturn.embed total few)

theorem turns_end {before after : Nat × Delivered} (le : before.1 ≤ data.length)
    (h : Relation.ReflTransGen (Turn xxh data) before after) : after.1 ≤ data.length := by
  cases h with
  | refl => exact le
  | tail _ hturn => exact hturn.advances.2

/-- Frames that have been recorded stay, and end within the input. -/
theorem turns_frames {before after : Nat × Delivered}
    (h : Relation.ReflTransGen (Turn xxh data) before after) :
    ∃ more, after.2.frames = before.2.frames ++ more ∧
      ∀ frame ∈ more, frame.compressedEnd ≤ data.length := by
  induction h with
  | refl => exact ⟨[], (List.append_nil _).symm, nofun⟩
  | tail _ hturn ih =>
    obtain ⟨more, heq, hall⟩ := ih
    have hend := hturn.advances.2
    obtain ⟨-, ⟨_, -, -, -, hsame⟩ | ⟨-, hframe⟩⟩ := hturn
    · exact ⟨more, by rw [hsame, heq], hall⟩
    · obtain ⟨_, c, _, -, -, -, -, -, hframed⟩ := decodeFrame_eq_ok.mp hframe
      refine ⟨_, by rw [hframed, Delivered.framed, heq, List.append_assoc], fun frame hmem => ?_⟩
      rcases List.mem_append.mp hmem with hmem | hmem
      · exact hall frame hmem
      · rw [List.mem_singleton.mp hmem]
        exact hend

private theorem turns_bounded {before after : Nat × Delivered}
    (total : before.2.decodedTotal < 2 ^ 64) (few : before.2.frames.length ≤ 2 ^ 32)
    (h : Relation.ReflTransGen (Turn xxh data) before after) :
    after.2.decodedTotal < 2 ^ 64 ∧ after.2.frames.length ≤ 2 ^ 32 := by
  induction h with
  | refl => exact ⟨total, few⟩
  | tail _ hturn ih =>
    obtain ⟨-, ⟨_, -, -, -, hsame⟩ | ⟨-, hframe⟩⟩ := hturn
    · rw [hsame]
      exact ih
    · obtain ⟨_, c, _, -, hfew, -, -, hfits, heq⟩ := decodeFrame_eq_ok.mp hframe
      rw [heq]
      refine ⟨hfits, ?_⟩
      simp only [Delivered.framed, List.length_append, List.length_singleton]
      exact hfew

@[simp] theorem Delivered.join_empty (base : Delivered) (offset : Nat) :
    base.join offset {} = base := by
  simp [Delivered.join]

@[simp] theorem Frame.move_none : Frame.move .none = id :=
  funext fun _ => by simp [Frame.move, Shift.none]

@[simp] theorem Block.move_none : Block.move .none = id :=
  funext fun _ => by simp [Block.move, Shift.none]

@[simp] theorem Delivered.empty_shift : ({} : Delivered).shift 0 = .none := rfl

@[simp] theorem Delivered.empty_join (d : Delivered) : ({} : Delivered).join 0 d = d := by
  simp [Delivered.join]

theorem turns_append {stop : Nat} {d : Delivered}
    (h : Relation.ReflTransGen (Turn xxh data) (0, {}) (stop, d)) (back : List UInt8) :
    Relation.ReflTransGen (Turn xxh (data ++ back)) (0, {}) (stop, d) := by
  obtain ⟨htotal, hfew⟩ := turns_bounded (by decide) (by simp) h
  have := @turns_embed [] data back xxh {} _ _ (by simpa using htotal)
    (by simpa using hfew) h
  simpa using this

/-- The bytes that have been put out and the length that has been counted grow alike. -/
def Counted (c c' : FrameCommitter xxh) : Prop :=
  c'.output.length + c.decoded = c.output.length + c'.decoded

private theorem commit_counted {c c' : FrameCommitter xxh} {layout : BlockLayout}
    {decoded : DecodedBlock} (h : c.commit data layout decoded = (c', .ok ())) : Counted c c' := by
  unfold FrameCommitter.commit at h
  dsimp only at h
  split at h
  case isFalse => cases h
  case isTrue =>
    obtain ⟨rfl, -⟩ := Prod.mk.inj h
    dsimp only [Counted]
    rw [List.length_append]
    omega

private theorem decodeIndependentSerial_counted {frame : FrameHeader} {position next : Nat}
    {c c' : FrameCommitter xxh}
    (h : decodeIndependentSerial data frame position c = (c', .ok next)) : Counted c c' := by
  induction position, c using decodeIndependentSerial.induct data frame with
  | case1 position c error hnext => simp [decodeIndependentSerial_eq, hnext] at h
  | case2 position c stop hnext =>
    simp only [decodeIndependentSerial_eq, hnext, Prod.mk.injEq] at h
    rw [h.1, Counted]
  | case3 position c block after hnext c₁ error hcommit =>
    simp [decodeIndependentSerial_eq, hnext, hcommit] at h
  | case4 position c block after hnext c₁ hcommit ih =>
    rw [decodeIndependentSerial_eq] at h
    simp only [hnext, hcommit] at h
    have hrest := ih h
    unfold FrameCommitter.decodeAndCommit at hcommit
    split at hcommit
    · cases hcommit
    · have hone := commit_counted hcommit
      unfold Counted at *
      omega

private theorem decodeLinkedFrom_counted {frame : FrameHeader} {position next : Nat}
    {history : List UInt8} {c c' : FrameCommitter xxh}
    (h : decodeLinkedFrom data frame position history c = (c', .ok next)) : Counted c c' := by
  induction position, history, c using decodeLinkedFrom.induct data frame with
  | case1 position history c error hnext => simp [decodeLinkedFrom_eq, hnext] at h
  | case2 position history c stop hnext =>
    simp only [decodeLinkedFrom_eq, hnext, Prod.mk.injEq] at h
    rw [h.1, Counted]
  | case3 position history c block after hnext error hdecode =>
    simp [decodeLinkedFrom_eq, hnext, hdecode] at h
  | case4 position history c block after hnext decoded hdecode c₁ error hcommit =>
    simp [decodeLinkedFrom_eq, hnext, hdecode, hcommit] at h
  | case5 position history c block after hnext decoded hdecode c₁ hcommit ih =>
    rw [decodeLinkedFrom_eq] at h
    simp only [hnext, hdecode, hcommit] at h
    have hrest := ih h
    have hone := commit_counted hcommit
    unfold Counted at *
    omega

/-- The decoded length that is counted is the length of the output. -/
theorem turns_counted {before after : Nat × Delivered}
    (counted : before.2.decodedTotal = before.2.output.length)
    (h : Relation.ReflTransGen (Turn xxh data) before after) :
    after.2.decodedTotal = after.2.output.length := by
  induction h with
  | refl => exact counted
  | @tail mid _ _ hturn ih =>
    obtain ⟨-, ⟨_, -, -, -, hsame⟩ | ⟨-, hframe⟩⟩ := hturn
    · rw [hsame, ih]
    · obtain ⟨frame, c, _, -, -, hmode, -, -, heq⟩ := decodeFrame_eq_ok.mp hframe
      have hcounted : Counted (committerOf xxh frame mid.2) c := by
        unfold decodeMode at hmode
        split at hmode
        · exact decodeIndependentSerial_counted hmode
        · exact decodeLinkedFrom_counted hmode
      rw [heq]
      dsimp only [Delivered.framed, Delivered.after, Counted, committerOf] at hcounted ⊢
      omega

end Fbz.Lz4
