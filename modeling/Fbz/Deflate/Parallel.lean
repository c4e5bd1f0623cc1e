import Fbz.Deflate.Boundary
import Fbz.Options
import Fbz.Pipeline.Progress

/-!
# Decoding DEFLATE on several threads

The coordinator decodes the first segment itself. Workers decode one segment near every later grid
point and resolve those the coordinator has accepted; where a worker started at the wrong bit, the
coordinator decodes the segment again. The commits follow the order of the stream.
-/

namespace Fbz.Deflate

open Pipeline Transition

def parallelGrid : Nat := 512 * 1024
def minParallelInput : Nat := 16 * 1024 * 1024
def parallelOutputLimit : Nat := 8 * 1024 * 1024
def parallelJobMemory : Nat := 2 * parallelOutputLimit + 64 * 1024

structure DeflateReport where
  sourceLen : Nat
  compressedEndBit : Nat
  decodedLen : Nat
  crc : Nat
  blocks : List Block
  speculativeChunks : Nat
  fallbackChunks : Nat
  deriving DecidableEq, Repr

structure DeflateStream where
  startByte : Nat
  endByte : Nat
  member : Nat
  decodedBase : Nat

/-- What `decode_deflate` passes to `progress`, whether or not a later block fails. -/
def deflateProgress {α : Type} [DeflateOutput α] (data : List UInt8) (member bit : Nat) (out : α) :
    List DecodeProgress :=
  match _h : decodeBlock data member bit out with
  | .error _ => []
  | .ok (out, block, bit) =>
    ⟨(bit + 7) / 8, DeflateOutput.totalDecoded out⟩ ::
      if block.finalBlock then [] else deflateProgress data member bit out
termination_by data.length * 8 - bit
decreasing_by
  have := decodeBlock_advances _h
  omega

variable (crc : Crc32)

/-- The bytes the sink gets and the report. -/
def decompressDeflateSerialStream (data : List UInt8) (startByte member decodedBase : Nat) :
    Result (List UInt8 × DeflateReport) := do
  let (emitter, blocks, compressedEndBit) ←
    decodeDeflate data member (startByte * 8) [] (Emitter.new decodedBase : Emitter crc)
  let emitter := emitter.flushPending
  return (emitter.output,
    { sourceLen := data.length - startByte, compressedEndBit, decodedLen := emitter.memberDecoded
      crc := crc.finalize emitter.hasher, blocks, speculativeChunks := 0, fallbackChunks := 0 })

def serialProgress (data : List UInt8) (startByte member decodedBase : Nat) : List DecodeProgress :=
  deflateProgress data member (startByte * 8) (Emitter.new decodedBase : Emitter crc)

structure ResolveTask where
  segment : Segment crc
  predecessor : List UInt8

/-- The committer with what its sink has been given and what it has counted at each call of the
callback. Sums with `decodedBase` are exact: `DecodeProgress.wrapped` is what the callback gets of
them, and there is no record of a member where the code's sums have wrapped. -/
structure SegmentCommitter where
  member : Nat
  decodedBase : Nat
  decoded : Nat := 0
  output : List UInt8 := []
  crc : crc.Hasher
  blocks : List Block := []
  progress : List DecodeProgress := []

variable {crc}

def SegmentCommitter.new (member decodedBase : Nat) : SegmentCommitter crc :=
  { member, decodedBase, crc := crc.new }

/-- A commit that fails ends the call, so what it has already put out is left out. -/
def SegmentCommitter.commit (c : SegmentCommitter crc) (resolved : ResolvedSegment crc) :
    Result (SegmentCommitter crc) := do
  let decodedLen := resolved.marked.length + resolved.clean.length - resolved.cleanStart
  ensure (c.decoded + decodedLen < 2 ^ 64) (invalid "decoded offset overflow")
  return { c with
    decoded := c.decoded + decodedLen
    output := c.output ++ resolved.marked ++ resolved.clean.drop resolved.cleanStart
    crc := crc.combine c.crc resolved.crc
    blocks := c.blocks ++ resolved.blocks.map (Block.commit c.member (c.decodedBase + c.decoded))
    progress := c.progress ++
      [⟨(resolved.compressedEndBit + 7) / 8, c.decodedBase + (c.decoded + decodedLen)⟩] }

/-- The jobs of the grid points from `grid` on. -/
def gridJobs (endByte key grid : Nat) : List (Job GzipJob) :=
  if grid < endByte then
    ⟨key, parallelJobMemory,
      { searchStart := grid * 8
        searchEnd := min (grid + 2 * parallelGrid) endByte * 8
        stopBit := min (grid + parallelGrid) endByte * 8
        outputLimit := parallelOutputLimit }⟩ :: gridJobs endByte (key + 1) (grid + parallelGrid)
  else []
termination_by endByte - grid
decreasing_by
  simp only [parallelGrid]
  omega

/-- What the coordinator does next. -/
inductive Phase (crc : Crc32)
  /-- at the head of its loop -/
  | head
  /-- about to give back the bytes of a segment that starts at the wrong bit -/
  | rejected (lease : Nat)
  /-- putting out what is still being resolved, before it decodes a segment itself -/
  | draining
  | accepted (lease : Nat) (task : ResolveTask crc)
  /-- as many segments are being resolved as there are threads -/
  | full
  | failed (error : Error)

/-- The variables of the coordinator. -/
structure Cursor (crc : Crc32) where
  phase : Phase crc := .head
  committer : SegmentCommitter crc
  predecessor : List UInt8
  key : Nat := 1
  resolveSequence : Nat := 0
  nextResolve : Nat := 0
  outstanding : Nat := 0
  speculativeChunks : Nat := 0
  fallbackChunks : Nat := 0
  nextStart : Nat
  finalBlock : Bool

/-- Where the segments of a stream may stop. -/
def estimatedStop (startByte endByte key : Nat) : Nat :=
  min (startByte + (key + 1) * parallelGrid) endByte * 8

namespace Cursor

/-- Window, symbols and commit of a segment the coordinator holds itself. -/
def commitSegment (cursor : Cursor crc) (segment : Segment crc) : Result (Cursor crc) := do
  let window ← successorWindow segment cursor.predecessor
  let resolved ← resolveSegment segment cursor.predecessor
  let committer ← cursor.committer.commit resolved
  return { cursor with
    committer, predecessor := window, nextStart := segment.endBit
    finalBlock := segment.finalBlock }

def fail (cursor : Cursor crc) (error : Error) : Cursor crc := { cursor with phase := .failed error }

/-- A fallible stretch of the coordinator's own work. -/
def attempt (cursor : Cursor crc) : Result (Cursor crc) → Cursor crc
  | .ok next => next
  | .error error => cursor.fail error

/-- Before the loop: the first segment. -/
def start (initial : Segment crc) (member decodedBase : Nat) : Cursor crc :=
  let cursor : Cursor crc :=
    { committer := .new member decodedBase, predecessor := [], nextStart := initial.endBit
      finalBlock := initial.finalBlock }
  cursor.attempt (cursor.commitSegment initial)

def fallback (data : List UInt8) (startByte : Nat) (cursor : Cursor crc) : Result (Cursor crc) := do
  let segment ← decodeSegment crc data cursor.nextStart
    (estimatedStop startByte data.length cursor.key) .unknown parallelOutputLimit
  let cursor ← cursor.commitSegment segment
  return { cursor with phase := .head, key := cursor.key + 1 }

/-- A segment a worker has decoded is accepted when it starts where the one before it ends. -/
def accept (cursor : Cursor crc) (lease : Nat) (segment : Segment crc) : Result (Cursor crc) := do
  let window ← successorWindow segment cursor.predecessor
  return { cursor with
    phase := .accepted lease ⟨segment, cursor.predecessor⟩
    predecessor := window
    speculativeChunks := cursor.speculativeChunks + 1
    nextStart := segment.endBit
    finalBlock := segment.finalBlock }

def takePrimary (cursor : Cursor crc) (lease : Nat) (speculative : Result (Segment crc)) :
    Cursor crc :=
  match speculative with
  | .error _ => { cursor with phase := .rejected lease }
  | .ok segment =>
    if segment.startBit = cursor.nextStart then cursor.attempt (cursor.accept lease segment)
    else { cursor with phase := .rejected lease }

def takeStage (cursor : Cursor crc) (resolved : Result (ResolvedSegment crc)) : Cursor crc :=
  cursor.attempt do
    let committer ← cursor.committer.commit (← resolved)
    return { cursor with
      phase := match cursor.phase with
        | .full => .head
        | phase => phase
      committer, nextResolve := cursor.nextResolve + 1, outstanding := cursor.outstanding - 1 }

theorem takeStage_ok {cursor : Cursor crc} {value : ResolvedSegment crc}
    {committer : SegmentCommitter crc} (hcommit : cursor.committer.commit value = .ok committer) :
    ∃ phase, (cursor.phase = .full → phase = .head) ∧
      (cursor.phase ≠ .full → phase = cursor.phase) ∧
      cursor.takeStage (.ok value) = { cursor with
        phase, committer, nextResolve := cursor.nextResolve + 1
        outstanding := cursor.outstanding - 1 } := by
  rw [takeStage, result_bind_ok, hcommit, result_bind_ok]
  refine ⟨_, ?_, ?_, rfl⟩
  · intro hfull
    rw [hfull]
  · intro hother
    split
    case h_1 hfull => exact absurd hfull hother
    case h_2 => rfl

/-- Taking a resolved segment fails or puts it out. -/
theorem takeStage_cases (cursor : Cursor crc) (resolved : Result (ResolvedSegment crc)) :
    (∃ error, cursor.takeStage resolved = cursor.fail error) ∨
      ∃ phase committer, (cursor.phase = .full → phase = .head) ∧
        (cursor.phase ≠ .full → phase = cursor.phase) ∧
        cursor.takeStage resolved = { cursor with
          phase, committer, nextResolve := cursor.nextResolve + 1
          outstanding := cursor.outstanding - 1 } := by
  cases resolved with
  | error error => exact .inl ⟨error, rfl⟩
  | ok value =>
    cases hcommit : cursor.committer.commit value with
    | error error =>
      left
      rw [takeStage, result_bind_ok, hcommit]
      exact ⟨error, rfl⟩
    | ok committer =>
      obtain ⟨phase, hfull, hother, heq⟩ := takeStage_ok hcommit
      exact .inr ⟨phase, committer, hfull, hother, heq⟩

def submitted (threads : Nat) (cursor : Cursor crc) : Cursor crc :=
  { cursor with
    phase := if cursor.outstanding + 1 ≥ threads then .full else .head
    resolveSequence := cursor.resolveSequence + 1
    outstanding := cursor.outstanding + 1
    key := cursor.key + 1 }

def report (data : List UInt8) (startByte : Nat) (cursor : Cursor crc) : DeflateReport :=
  { sourceLen := data.length - startByte, compressedEndBit := cursor.nextStart
    decodedLen := cursor.committer.decoded, crc := crc.finalize cursor.committer.crc
    blocks := cursor.committer.blocks, speculativeChunks := cursor.speculativeChunks
    fallbackChunks := cursor.fallbackChunks }

end Cursor

/-- What the pipeline of a stream returns. -/
abbrev Outcome := Result (List UInt8 × DeflateReport)

def coordinator (data : List UInt8) (startByte threads : Nat) :
    Consumer (Result (Segment crc)) (ResolveTask crc) (Result (ResolvedSegment crc)) Outcome
      (Cursor crc) where
  op cursor :=
    match cursor.phase with
    | .head =>
      if cursor.finalBlock then
        if cursor.outstanding ≠ 0 then .takeStage cursor.nextResolve
        else .done (.ok (cursor.committer.output, cursor.report data startByte))
      else .takePrimary cursor.key
    | .rejected lease => .retire lease
    | .draining =>
      if cursor.outstanding ≠ 0 then .takeStage cursor.nextResolve else .compute
    | .accepted lease task => .submit cursor.resolveSequence lease task
    | .full => .takeStage cursor.nextResolve
    | .failed error => .done (.error error)
  afterTake cursor _ := cursor
  afterTakePrimary := Cursor.takePrimary
  afterTakeStage := Cursor.takeStage
  after cursor :=
    match cursor.phase with
    | .rejected _ => { cursor with phase := .draining, fallbackChunks := cursor.fallbackChunks + 1 }
    | .draining => cursor.attempt (cursor.fallback data startByte)
    | .accepted _ _ => cursor.submitted threads
    | _ => cursor

/-- The options, the machine and what the allocator gives the vectors of a segment. -/
structure Setting (crc : Crc32) where
  options : DecodeOptions
  parallelism : Nat
  retainedBytes : Segment crc → Nat

/-- How many threads decode a stream. -/
def Setting.threads (setting : Setting crc) (stream : DeflateStream) : Nat :=
  if stream.endByte - stream.startByte < minParallelInput ∨
      setting.options.memoryLimit < parallelJobMemory then 1
  else setting.options.resolvedThreads setting.parallelism

def streamProgram (setting : Setting crc) (data : List UInt8) (startByte threads : Nat) :
    Program GzipJob (Result (Segment crc)) (ResolveTask crc) (Result (ResolvedSegment crc)) Outcome
      (Cursor crc) where
  staged := true
  jobs := gridJobs data.length 1 (startByte + parallelGrid)
  limits :=
    { memory := min setting.options.memoryLimit (parallelJobMemory * (threads + 2))
      active := (threads + 2) * 2 }
  execute job := some (runGzipJob crc data job)
  retainedSize
    | .ok segment => setting.retainedBytes segment
    | .error _ => 0
  executeStage task := some (resolveSegment task.segment task.predecessor)
  consumer := coordinator data startByte threads

/-- Where `decompress_deflate_stream` stands. When it returns it has called back with `progress`. -/
inductive StreamState (crc : Crc32)
  | opened
  | parallel (s : Pipeline.State (Result (Segment crc)) (ResolveTask crc)
      (Result (ResolvedSegment crc)) Outcome (Cursor crc))
  | done (progress : List DecodeProgress) (outcome : Outcome)

/-- The data of the stream, when its bounds are those of the input. -/
def streamData (data : List UInt8) (stream : DeflateStream) : Result (List UInt8) := do
  let data ← okOr (invalid "DEFLATE end exceeds input") (range? data 0 stream.endByte)
  ensure (stream.startByte ≤ stream.endByte) (invalid "DEFLATE start exceeds end")
  return data

def initialSegment (data : List UInt8) (stream : DeflateStream) : Result (Segment crc) :=
  decodeSegment crc data (stream.startByte * 8)
    (min (stream.startByte + parallelGrid) stream.endByte * 8) .empty parallelOutputLimit

/-- The steps of `decompress_deflate_stream`; those of the pipeline interleave freely. -/
inductive StreamStep (setting : Setting crc) (input : List UInt8) (stream : DeflateStream) :
    StreamState crc → StreamState crc → Prop
  | refuse {error} (bounds : streamData input stream = .error error) :
      StreamStep setting input stream .opened (.done [] (.error error))
  | serial {data} (bounds : streamData input stream = .ok data)
      (single : setting.threads stream = 1) :
      StreamStep setting input stream .opened
        (.done (serialProgress crc data stream.startByte stream.member stream.decodedBase)
          (decompressDeflateSerialStream crc data stream.startByte stream.member
            stream.decodedBase))
  | giveUp {data error} (bounds : streamData input stream = .ok data)
      (many : setting.threads stream ≠ 1)
      (initial : (initialSegment data stream : Result (Segment crc)) = .error error) :
      StreamStep setting input stream .opened
        (.done (serialProgress crc data stream.startByte stream.member stream.decodedBase)
          (decompressDeflateSerialStream crc data stream.startByte stream.member
            stream.decodedBase))
  | reserve {data segment} (bounds : streamData input stream = .ok data)
      (many : setting.threads stream ≠ 1)
      (initial : (initialSegment data stream : Result (Segment crc)) = .ok segment)
      (large : (streamProgram setting data stream.startByte
        (setting.threads stream)).admissible = false) :
      StreamStep setting input stream .opened (.done [] (.error reservationError))
  | spawn {data segment} (bounds : streamData input stream = .ok data)
      (many : setting.threads stream ≠ 1)
      (initial : (initialSegment data stream : Result (Segment crc)) = .ok segment)
      (admissible : (streamProgram setting data stream.startByte
        (setting.threads stream)).admissible = true) :
      StreamStep setting input stream .opened
        (.parallel ((streamProgram setting data stream.startByte (setting.threads stream)).init
          (setting.threads stream) (Cursor.start segment stream.member stream.decodedBase)))
  | run {data s t} (bounds : streamData input stream = .ok data)
      (step : (streamProgram setting data stream.startByte
        (setting.threads stream)).Step s t) :
      StreamStep setting input stream (.parallel s) (.parallel t)
  | join {s r} (returned : Program.Returned s) (result : s.finished = some r) :
      StreamStep setting input stream (.parallel s) (.done s.consumer.committer.progress r)

end Fbz.Deflate
