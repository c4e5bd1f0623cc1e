import Fbz.Lz4.Frame

/-!
# LZ4 decoding

Block decompression and the one-thread frame decoders. A sink takes every byte; a committer keeps
what it has written when a later step fails.
-/

namespace Fbz.Lz4

open Lz

def usizeLimit : Nat := 2 ^ 64

/-- The loop of `read_length`: bytes of 255 go on. -/
def readExtra (input : List UInt8) (position length : Nat) : Result (Nat × Nat) :=
  if h : position < input.length then
    let extra := input[position].toNat
    if length + extra < usizeLimit then
      if extra ≠ 255 then .ok (length + extra, position + 1)
      else readExtra input (position + 1) (length + extra)
    else .error (invalid "sequence length overflows usize")
  else .error (invalid "truncated extended sequence length")
termination_by input.length - position

def readLength (input : List UInt8) (position initial : Nat) : Result (Nat × Nat) :=
  if initial ≠ 15 then .ok (initial, position) else readExtra input position initial

def copyMatch (output dictionary : List UInt8) (offset length : Nat) : Result (List UInt8) := do
  ensure (offset ≠ 0 ∧ offset ≤ dictionary.length + output.length)
    (invalid (s!"match offset {offset} exceeds the available " ++
      s!"{dictionary.length + output.length}-byte history"))
  let dictionaryNeeded := offset - output.length
  if dictionaryNeeded ≠ 0 then
    ensure (dictionaryNeeded ≤ dictionary.length)
      (invalid "match offset exceeds the external dictionary")
    let start := dictionary.length - dictionaryNeeded
    let take := min length dictionaryNeeded
    let output := output ++ slice dictionary start (start + take)
    return if length - take ≠ 0 then extendMatch output offset (length - take) else output
  return if length ≠ 0 then extendMatch output offset length else output

def checkMaximum (length maxOutput : Nat) : Result Unit :=
  ensure (length ≤ maxOutput) (invalid s!"decoded block exceeds its {maxOutput}-byte maximum")

/-- The literals of the sequence at `position`: output and position after them. -/
def readLiterals (input : List UInt8) (maxOutput position : Nat) (token : UInt8)
    (output : List UInt8) : Result (List UInt8 × Nat) := do
  let (literalLen, position) ← readLength input position (token >>> 4).toNat
  ensure (position + literalLen ≤ input.length) (invalid "literal run exceeds the block")
  checkMaximum (output.length + literalLen) maxOutput
  return (output ++ slice input position (position + literalLen), position + literalLen)

/-- The match of the sequence, once its literals are out. -/
def readMatch (input dictionary : List UInt8) (maxOutput position : Nat) (token : UInt8)
    (output : List UInt8) : Result (List UInt8 × Nat) := do
  let offsetBytes ← okOr (invalid "truncated match offset") (range? input position (position + 2))
  let offset := leNat offsetBytes
  let (matchLen, position) ← readLength input (position + 2) (token &&& 0x0f).toNat
  ensure (matchLen + 4 < usizeLimit) (invalid "match length overflows usize")
  checkMaximum (output.length + (matchLen + 4)) maxOutput
  let output ← copyMatch output dictionary offset (matchLen + 4)
  return (output, position)

private theorem readExtra_advances {input : List UInt8} {position length value next : Nat}
    (h : readExtra input position length = .ok (value, next)) :
    position < next ∧ next ≤ input.length := by
  induction position, length using readExtra.induct input with
  | case1 position length hlt extra hfits hne =>
    rw [readExtra, dif_pos hlt, if_pos hfits, if_pos hne] at h
    obtain ⟨-, rfl⟩ := Prod.mk.inj (Except.ok.inj h)
    omega
  | case2 position length hlt extra hfits heq ih =>
    rw [readExtra, dif_pos hlt, if_pos hfits, if_neg heq] at h
    have := ih h
    omega
  | case3 position length hlt extra hfits => rw [readExtra, dif_pos hlt, if_neg hfits] at h; cases h
  | case4 position length hlt => rw [readExtra, dif_neg hlt] at h; cases h

theorem readLength_advances {input : List UInt8} {position initial value next : Nat}
    (h : readLength input position initial = .ok (value, next)) : position ≤ next := by
  unfold readLength at h
  split at h
  · obtain ⟨-, rfl⟩ := Prod.mk.inj (Except.ok.inj h)
    exact Nat.le_refl _
  · exact Nat.le_of_lt (readExtra_advances h).1

private theorem readLiterals_advances {input output output' : List UInt8}
    {maxOutput position next : Nat}
    {token : UInt8} (h : readLiterals input maxOutput position token output = .ok (output', next)) :
    position ≤ next := by
  simp only [readLiterals, result_bind_eq_ok] at h
  obtain ⟨⟨length, after⟩, hlen, -, -, -, -, heq⟩ := h
  have := readLength_advances hlen
  obtain ⟨-, rfl⟩ := Prod.mk.inj (Except.ok.inj heq)
  omega

private theorem readMatch_advances {input dictionary output output' : List UInt8}
    {maxOutput position next : Nat} {token : UInt8}
    (h : readMatch input dictionary maxOutput position token output = .ok (output', next)) :
    position ≤ next := by
  simp only [readMatch, result_bind_eq_ok] at h
  obtain ⟨-, -, ⟨length, after⟩, hlen, -, -, -, -, _, -, heq⟩ := h
  have := readLength_advances hlen
  obtain ⟨-, rfl⟩ := Prod.mk.inj (Except.ok.inj heq)
  omega

/-- The sequences of a block from `position` on. -/
def decompressFrom (input dictionary : List UInt8) (maxOutput position : Nat)
    (output : List UInt8) : Result (List UInt8) :=
  if h : position < input.length then
    let token := input[position]
    match hl : readLiterals input maxOutput (position + 1) token output with
    | .error error => .error error
    | .ok (output, literalEnd) =>
      if literalEnd = input.length then .ok output
      else
        match hm : readMatch input dictionary maxOutput literalEnd token output with
        | .error error => .error error
        | .ok (output, next) => decompressFrom input dictionary maxOutput next output
  else .ok output
termination_by input.length - position
decreasing_by
  have := readLiterals_advances hl
  have := readMatch_advances hm
  omega

def decompressBlock (input dictionary : List UInt8) (maxOutput : Nat) : Result (List UInt8) :=
  decompressFrom input dictionary maxOutput 0 []

inductive DecodedBlock
  | stored (start stop : Nat)
  | decoded (bytes : List UInt8)

namespace DecodedBlock

def bytes (source : List UInt8) : DecodedBlock → List UInt8
  | stored start stop => slice source start stop
  | decoded bytes => bytes

/-- What a result keeps allocated; the allocator decides the capacity of a vector. -/
def retainedBytes (capacity : List UInt8 → Nat) : DecodedBlock → Nat
  | stored _ _ => 0
  | decoded bytes => capacity bytes

end DecodedBlock

/-- What decoding frames has delivered so far: bytes to the sink, block records, progress calls
and the state of the content hash. Sums with `decodedBase` are exact: `DecodeProgress.wrapped` is what
the callback gets of them, and there is no record of a frame where the code's sums have wrapped. -/
structure FrameCommitter (xxh : XxHash32) where
  output : List UInt8
  progress : List DecodeProgress
  hasher : Option xxh.Hasher
  decodedBase : Nat
  decoded : Nat
  frameNumber : Nat
  blocks : List Block

variable (xxh : XxHash32)

def checkBlockChecksum (data : List UInt8) (block : BlockLayout) : Result Unit :=
  match block.expectedChecksum with
  | none => .ok ()
  | some expected =>
    let actual := xxh.xxhash32 (slice data block.dataStart block.dataEnd)
    ensure (actual = expected)
      (invalid (s!"block checksum mismatch at byte {block.dataStart}: expected " ++
        s!"{hex 8 expected}, decoded {hex 8 actual}"))

def decodeLayoutBlock (data : List UInt8) (block : BlockLayout) (dictionary : List UInt8)
    (maxBlockSize : Nat) : Result DecodedBlock := do
  let encoded := slice data block.dataStart block.dataEnd
  checkBlockChecksum xxh data block
  if block.stored then return .stored block.dataStart block.dataEnd
  let bytes ← decompressBlock encoded dictionary maxBlockSize
  return .decoded bytes

variable {xxh}

/-- Deliver one block. When the decoded length overflows, the block is already out. -/
def FrameCommitter.commit (data : List UInt8) (c : FrameCommitter xxh) (layout : BlockLayout)
    (decoded : DecodedBlock) : FrameCommitter xxh × Result Unit :=
  let bytes := decoded.bytes data
  let delivered : FrameCommitter xxh :=
    { c with
      hasher := c.hasher.map (xxh.write · bytes)
      output := c.output ++ bytes
      blocks := c.blocks ++ [⟨c.frameNumber, layout.dataStart, layout.dataEnd,
        c.decodedBase + c.decoded, bytes.length, layout.stored⟩] }
  if c.decoded + bytes.length < 2 ^ 64 then
    ({ delivered with
        decoded := c.decoded + bytes.length
        progress := c.progress ++
          [⟨layout.dataEnd, c.decodedBase + (c.decoded + bytes.length)⟩] }, .ok ())
  else (delivered, .error (invalid "decoded length overflows u64"))

/-- Decode and deliver one block of an independent frame. -/
def FrameCommitter.decodeAndCommit (data : List UInt8) (maxBlockSize : Nat)
    (c : FrameCommitter xxh) (block : BlockLayout) : FrameCommitter xxh × Result Unit :=
  match decodeLayoutBlock xxh data block [] maxBlockSize with
  | .error error => (c, .error error)
  | .ok decoded => c.commit data block decoded

/-- `decode_independent` on one thread: the final position, and what was delivered either way. -/
def decodeIndependentSerial (data : List UInt8) (frame : FrameHeader) (position : Nat)
    (c : FrameCommitter xxh) : FrameCommitter xxh × Result Nat :=
  match _h : nextBlock data position frame with
  | .error error => (c, .error error)
  | .ok (none, next) => (c, .ok next)
  | .ok (some block, next) =>
    match c.decodeAndCommit data frame.maxBlockSize block with
    | (c, .error error) => (c, .error error)
    | (c, .ok ()) => decodeIndependentSerial data frame next c
termination_by data.length - position
decreasing_by exact nextBlock_advances (by assumption)

theorem decodeIndependentSerial_eq (data : List UInt8) (frame : FrameHeader) (position : Nat)
    (c : FrameCommitter xxh) :
    decodeIndependentSerial data frame position c =
      match nextBlock data position frame with
      | .error error => (c, .error error)
      | .ok (none, next) => (c, .ok next)
      | .ok (some block, next) =>
        match c.decodeAndCommit data frame.maxBlockSize block with
        | (c, .error error) => (c, .error error)
        | (c, .ok ()) => decodeIndependentSerial data frame next c := by
  rw [decodeIndependentSerial]
  split <;> simp only [*]

def updateHistory (history bytes : List UInt8) : List UInt8 :=
  if windowSize ≤ bytes.length then bytes.drop (bytes.length - windowSize)
  else history.drop (history.length + bytes.length - windowSize) ++ bytes

/-- `decode_linked` with its rolling history. -/
def decodeLinkedFrom (data : List UInt8) (frame : FrameHeader) (position : Nat)
    (history : List UInt8) (c : FrameCommitter xxh) : FrameCommitter xxh × Result Nat :=
  match _h : nextBlock data position frame with
  | .error error => (c, .error error)
  | .ok (none, next) => (c, .ok next)
  | .ok (some block, next) =>
    match decodeLayoutBlock xxh data block history frame.maxBlockSize with
    | .error error => (c, .error error)
    | .ok decoded =>
      match c.commit data block decoded with
      | (c, .error error) => (c, .error error)
      | (c, .ok ()) =>
        decodeLinkedFrom data frame next (updateHistory history (decoded.bytes data)) c
termination_by data.length - position
decreasing_by exact nextBlock_advances (by assumption)

theorem decodeLinkedFrom_eq (data : List UInt8) (frame : FrameHeader) (position : Nat)
    (history : List UInt8) (c : FrameCommitter xxh) :
    decodeLinkedFrom data frame position history c =
      match nextBlock data position frame with
      | .error error => (c, .error error)
      | .ok (none, next) => (c, .ok next)
      | .ok (some block, next) =>
        match decodeLayoutBlock xxh data block history frame.maxBlockSize with
        | .error error => (c, .error error)
        | .ok decoded =>
          match c.commit data block decoded with
          | (c, .error error) => (c, .error error)
          | (c, .ok ()) =>
            decodeLinkedFrom data frame next (updateHistory history (decoded.bytes data)) c := by
  rw [decodeLinkedFrom]
  split <;> simp only [*]

def decodeLinked (data : List UInt8) (frame : FrameHeader) (position : Nat)
    (c : FrameCommitter xxh) : FrameCommitter xxh × Result Nat :=
  decodeLinkedFrom data frame position [] c

end Fbz.Lz4
