import Fbz.Bzip2.Block
import Fbz.Pipeline.System

/-!
# Assembling bzip2 blocks decoded ahead

The scan finds marker positions, workers decode a candidate block at every block marker, and
`assemble` follows the chain of true markers, taking the candidates it needs and discarding those
it has passed. The assembler is a state machine that stops where it waits for the workers.
-/

namespace Fbz.Bzip2

open Pipeline Transition

structure BlockCandidate where
  bitOffset : Nat
  expectedCrc : UInt32
  randomized : Bool
  origPtr : Nat
  deriving DecidableEq, Repr

structure EndCandidate where
  bitOffset : Nat
  expectedStreamCrc : UInt32
  deriving DecidableEq, Repr

inductive Marker
  | block (candidate : BlockCandidate)
  | eos (candidate : EndCandidate)
  deriving DecidableEq, Repr

def Marker.bitOffset : Marker → Nat
  | block candidate => candidate.bitOffset
  | eos candidate => candidate.bitOffset

/-- Markers sorted by position, one at each; a vector holds fewer than an address can count. -/
structure Markers where
  list : List Marker
  sorted : (list.map Marker.bitOffset).Pairwise (· < ·)
  addressable : list.length < 2 ^ 64 - 1

structure CandidateJob where
  startBit : Nat
  expectedCrc : UInt32
  deriving DecidableEq, Repr

structure BlockIndex where
  compressedStartBit : Nat
  compressedEndBit : Nat
  decodedStart : Nat
  decodedLen : Nat
  expectedCrc : UInt32
  stream : Nat
  deriving DecidableEq, Repr

structure StreamIndex where
  compressedHeaderByte : Nat
  blockSize100k : Nat
  firstBlock : Nat
  blockCount : Nat
  decodedStart : Nat
  decodedLen : Nat
  eosBit : Nat
  expectedStreamCrc : UInt32
  deriving DecidableEq, Repr

/-- What `Index::new` is given beside the source. -/
structure Assembled where
  decodedLen : Nat
  streams : List StreamIndex
  blocks : List BlockIndex
  deriving DecidableEq, Repr

def requiredMarker (bitOffset : Nat) : Error := .decode bitOffset .invalidMagic

def offsetOverflow : Error := .invalidConfiguration "offset arithmetic overflow"

/-- A `u64` operation that must not overflow. -/
def checked (value : Nat) : Result Nat :=
  if value < 2 ^ 64 then .ok value else .error offsetOverflow

/-- `binary_search_by_key` in the sorted markers. -/
def markerAt (markers : List Marker) (bitOffset : Nat) : Result Nat :=
  okOr (requiredMarker bitOffset) (markers.findIdx? fun marker => marker.bitOffset = bitOffset)

def parseHeader (data : List UInt8) (byteOffset : Nat) : Result Nat := do
  let header ← okOr (.decode (byteOffset * 8) .truncated) (range? data byteOffset (byteOffset + 4))
  ensure (header.take 3 = [0x42, 0x5a, 0x68]) (.decode (byteOffset * 8) .invalidMagic)
  let level := (header.drop 3).headD 0
  ensure (0x31 ≤ level ∧ level ≤ 0x39) (.decode (byteOffset * 8 + 24) .invalidLevel)
  return level.toNat - 0x30

/-- An empty stream has no block to derive its header from. -/
def currentStreamHeader (currentBit firstBlock : Nat) (blocks : List BlockIndex)
    (nextHeader : Nat) : Nat :=
  match blocks[firstBlock]? with
  | some first => (first.compressedStartBit - 32) / 8
  | none => min ((currentBit - 32) / 8) nextHeader

/-- The variables of `assemble`, and what it has delivered. -/
structure Assembly where
  headerByte : Nat := 0
  level : Nat := 0
  firstBlock : Nat := 0
  streamDecodedStart : Nat := 0
  combinedCrc : UInt32 := 0
  currentBit : Nat := 0
  decodedOffset : Nat := 0
  blocks : List BlockIndex := []
  streams : List StreamIndex := []
  prefetched : Option (Nat × DecodedCandidate) := none
  output : List UInt8 := []
  progress : List DecodeProgress := []

/-- Where `assemble` stands: before a stream, at a marker, about to discard what it has passed,
or returned. -/
inductive AssemblyPhase
  | stream
  | marker (index : Nat)
  | passing (block : BlockCandidate) (decoded : DecodedCandidate) (endIndex : Nat)
  | returned (result : Result Assembled)

structure AssemblyCursor where
  assembly : Assembly
  phase : AssemblyPhase

namespace Assembly

variable (data : List UInt8) (markers : List Marker)

def fail (a : Assembly) (error : Error) : AssemblyCursor := ⟨a, .returned (.error error)⟩

/-- The end of the outer loop. -/
def finish (a : Assembly) : AssemblyCursor :=
  ⟨{ a with progress := a.progress ++ [⟨data.length, a.decodedOffset⟩] },
    .returned (.ok ⟨a.decodedOffset, a.streams, a.blocks⟩)⟩

/-- The head of a stream: level, and the marker right after the header. -/
def enterStream (a : Assembly) : Result (Nat × Nat × Nat) := do
  let level ← parseHeader data a.headerByte
  let bit ← checked (a.headerByte * 8)
  let currentBit ← checked (bit + 32)
  let index ← markerAt markers currentBit
  return (level, currentBit, index)

def stream (a : Assembly) : AssemblyCursor :=
  if a.headerByte < data.length then
    match a.enterStream data markers with
    | .error error => a.fail error
    | .ok (level, currentBit, index) =>
      ⟨{ a with
          level, currentBit
          firstBlock := a.blocks.length
          streamDecodedStart := a.decodedOffset
          combinedCrc := 0 }, .marker index⟩
  else a.finish data

/-- Where the next stream would start. -/
def nextHeader (eos : EndCandidate) : Result Nat := do
  let afterEos ← checked (eos.bitOffset + 80)
  let rounded ← checked (afterEos + 7)
  return rounded / 8

def atEnd (a : Assembly) (eos : EndCandidate) : AssemblyCursor :=
  if eos.expectedStreamCrc ≠ a.combinedCrc then a.fail (.decode eos.bitOffset .crcMismatch)
  else
    match nextHeader eos with
    | .error error => a.fail error
    | .ok headerByte =>
      let a := { a with
        headerByte
        streams := a.streams ++
          [⟨currentStreamHeader a.currentBit a.firstBlock a.blocks headerByte, a.level, a.firstBlock,
            a.blocks.length - a.firstBlock, a.streamDecodedStart,
            a.decodedOffset - a.streamDecodedStart, eos.bitOffset, eos.expectedStreamCrc⟩] }
      if headerByte = data.length then a.finish data
      else if headerByte > data.length then a.fail (.decode (data.length * 8) .truncated)
      else ⟨a, .stream⟩

/-- A candidate has been taken for the block marker at `index`. -/
def taken (a : Assembly) (block : BlockCandidate) (value : Result DecodedCandidate) :
    AssemblyCursor :=
  match value with
  | .error error => a.fail error
  | .ok decoded =>
    if decoded.blockLen > a.level * 100000 then a.fail (.decode block.bitOffset .blockOverflow)
    else
      match markerAt markers decoded.endBit with
      | .error error => a.fail error
      | .ok endIndex => ⟨a, .passing block decoded endIndex⟩

/-- `discard_before` on the prefetched candidate, and delivery of the block. -/
def pass (a : Assembly) (block : BlockCandidate) (decoded : DecodedCandidate) (endIndex : Nat) :
    AssemblyCursor :=
  let endBit := (markers[endIndex]?.map Marker.bitOffset).getD 0
  let a := { a with
    prefetched := a.prefetched.filter fun p => !decide (p.1 < endIndex)
    output := a.output ++ decoded.output
    blocks := a.blocks ++ [(⟨block.bitOffset, endBit, a.decodedOffset, decoded.decodedLen,
      block.expectedCrc, a.streams.length⟩ : BlockIndex)] }
  match checked (a.decodedOffset + decoded.decodedLen) with
  | .error error => a.fail error
  | .ok decodedOffset =>
    ⟨{ a with
        decodedOffset
        progress := a.progress ++ [(⟨(decoded.endBit + 7) / 8, decodedOffset⟩ : DecodeProgress)]
        combinedCrc := combineStreamCrc a.combinedCrc block.expectedCrc
        currentBit := endBit }, .marker endIndex⟩

end Assembly

/-- `ParallelCandidates::take` answers from the prefetched candidate when it can. -/
def assembleConsumer (data : List UInt8) (markers : List Marker) :
    Consumer (Result DecodedCandidate) Empty Empty (Assembly × Result Assembled)
      AssemblyCursor where
  op c :=
    match c.phase with
    | .stream => .compute
    | .marker index =>
      match markers[index]? with
      | some (.block _) =>
        if c.assembly.prefetched.any fun p => p.1 = index then .compute else .take index
      | _ => .compute
    | .passing _ _ endIndex => .discardBefore endIndex
    | .returned result => .done (c.assembly, result)
  after c :=
    match c.phase with
    | .stream => c.assembly.stream data markers
    | .marker index =>
      match markers[index]?, c.assembly.prefetched with
      | some (.eos candidate), _ => c.assembly.atEnd data candidate
      | some (.block candidate), some (_, decoded) =>
        { c.assembly with prefetched := none }.taken markers candidate (.ok decoded)
      | _, _ => c
    | .passing block decoded endIndex => c.assembly.pass markers block decoded endIndex
    | .returned _ => c
  afterTake c value :=
    match c.phase with
    | .marker index =>
      match markers[index]? with
      | some (.block candidate) => c.assembly.taken markers candidate value
      | _ => c
    | _ => c
  afterTakePrimary c _ _ := c
  afterTakeStage c _ := c

def candidateLen : Result DecodedCandidate → Nat
  | .ok decoded => decoded.output.length
  | .error _ => 0

/-- One job for each block marker that is not prefetched. -/
def candidateJobs (markers : List Marker) (prefetched : Option Nat) : List (Job CandidateJob) :=
  markers.zipIdx.filterMap fun (marker, index) =>
    match marker with
    | .block block =>
      if prefetched = some index then none
      else some ⟨index, maxDecodedBlock, ⟨block.bitOffset, block.expectedCrc⟩⟩
    | .eos _ => none

/-- The pipeline of `decode_to_sink_impl_with_prefetched`, for any way of decoding candidates. -/
def assembleProgram (data : List UInt8) (markers : List Marker) (memoryLimit : Nat)
    (decode : CandidateJob → Result DecodedCandidate) (prefetched : Option Nat) :
    Program CandidateJob (Result DecodedCandidate) Empty Empty (Assembly × Result Assembled)
      AssemblyCursor where
  staged := false
  jobs := candidateJobs markers prefetched
  limits := ⟨memoryLimit, 2 ^ 64 - 1⟩
  execute job := some (decode job)
  retainedSize := candidateLen
  executeStage := nofun
  consumer := assembleConsumer data markers

/-- The assembler before its first stream. -/
def assembleStart (prefetched : Option (Nat × DecodedCandidate)) : AssemblyCursor :=
  ⟨{ prefetched }, .stream⟩

theorem mem_candidateJobs {markers : List Marker} {prefetched : Option Nat}
    {job : Job CandidateJob} :
    job ∈ candidateJobs markers prefetched ↔ ∃ block, markers[job.key]? = some (.block block) ∧
      prefetched ≠ some job.key ∧ job.reservation = maxDecodedBlock ∧
      job.payload = ⟨block.bitOffset, block.expectedCrc⟩ := by
  obtain ⟨key, reservation, payload⟩ := job
  simp only [candidateJobs, List.mem_filterMap, Prod.exists, List.mem_zipIdx_iff_getElem?]
  constructor
  · rintro ⟨marker, index, hmarker, h⟩
    cases marker with
    | eos candidate => cases h
    | block block =>
      dsimp only at h
      split at h
      case isTrue => cases h
      case isFalse hne =>
        obtain ⟨rfl, rfl, rfl⟩ := Job.mk.inj (Option.some.inj h)
        exact ⟨block, hmarker, hne, rfl, rfl⟩
  · rintro ⟨block, hmarker, hne, rfl, rfl⟩
    exact ⟨_, key, hmarker, by dsimp only; rw [if_neg hne]⟩

theorem candidateJobs_keys_sorted (markers : List Marker) (prefetched : Option Nat) :
    ((candidateJobs markers prefetched).map Job.key).Pairwise (· < ·) := by
  have hindex : markers.zipIdx.Pairwise fun a b => a.2 < b.2 := by
    have := List.pairwise_lt_range' (s := 0) (n := markers.length)
    rw [← List.zipIdx_map_snd 0 markers] at this
    exact List.pairwise_map.mp this
  refine List.pairwise_map.mpr (hindex.filterMap _ fun a a' hlt job hjob job' hjob' => ?_)
  have key_of : ∀ (p : Marker × Nat) (job : Job CandidateJob), (match p.1 with
      | .block block => if prefetched = some p.2 then none
        else some (⟨p.2, maxDecodedBlock, ⟨block.bitOffset, block.expectedCrc⟩⟩ : Job CandidateJob)
      | .eos _ => none) = some job → job.key = p.2 := fun p job h => by
    split at h
    · split at h
      · cases h
      · rw [← Option.some.inj h]
    · cases h
  rw [key_of a job hjob, key_of a' job' hjob']
  exact hlt

theorem candidateJobs_length_le (markers : List Marker) (prefetched : Option Nat) :
    (candidateJobs markers prefetched).length ≤ markers.length :=
  Nat.le_trans (List.length_filterMap_le ..) (Nat.le_of_eq List.length_zipIdx)

theorem markerAt_eq_ok {markers : List Marker} {bit index : Nat}
    (h : markerAt markers bit = .ok index) :
    ∃ marker, markers[index]? = some marker ∧ marker.bitOffset = bit := by
  have hfind := okOr_eq_ok.mp h
  obtain ⟨hlt, hmarker, -⟩ := List.findIdx?_eq_some_iff_getElem.mp hfind
  exact ⟨markers[index], List.getElem?_eq_getElem hlt, by simpa using hmarker⟩

theorem checked_eq_ok {value result : Nat} (h : checked value = .ok result) :
    result = value ∧ value < 2 ^ 64 := by
  unfold checked at h
  split at h
  · next hlt => exact ⟨(Except.ok.inj h).symm, hlt⟩
  · cases h

theorem nextHeader_eq_ok {eos : EndCandidate} {byte : Nat}
    (h : Assembly.nextHeader eos = .ok byte) :
    eos.bitOffset + 80 ≤ byte * 8 ∧ byte * 8 < 2 ^ 64 := by
  obtain ⟨after, hafter, h⟩ := result_bind_eq_ok.mp h
  obtain ⟨rounded, hrounded, heq⟩ := result_bind_eq_ok.mp h
  obtain ⟨rfl, -⟩ := checked_eq_ok hafter
  obtain ⟨rfl, hlt⟩ := checked_eq_ok hrounded
  obtain rfl := Except.ok.inj heq
  omega

end Fbz.Bzip2
