import Mathlib.Data.List.Destutter
import Fbz.Bzip2.Candidates
import Fbz.Bzip2.Layout
import Fbz.Bzip2.Scan
import Fbz.Bzip2.Serial

/-!
# The bzip2 decoder

Both entries of the decoder with any number of threads, as a transition system: the loop over the
blocks of the streams, or the scan and the assembler, with the candidates decoded when they are
asked for or ahead under any schedule of the workers. The decoder keeps the calls of the progress
callback.
-/

namespace Fbz.Bzip2

open Pipeline Transition

/-- What a scan has found, in no order. -/
def ScanResult.found (result : ScanResult) : List Marker :=
  result.blocks.map Marker.block ++ result.streamEnds.map Marker.eos

/-- The markers of a scan sorted by position, one at each. -/
def ScanResult.markers (result : ScanResult) : List Marker :=
  (result.found.mergeSort fun a b => decide (a.bitOffset ≤ b.bitOffset)).destutter
    fun a b => a.bitOffset ≠ b.bitOffset

private theorem ScanResult.markers_sorted (result : ScanResult) :
    (result.markers.map Marker.bitOffset).Pairwise (· < ·) := by
  have hsorted : (result.found.mergeSort fun a b => decide (a.bitOffset ≤ b.bitOffset)).Pairwise
      fun a b => decide (a.bitOffset ≤ b.bitOffset) = true := by
    apply List.pairwise_mergeSort
    · intro a b c hab hbc
      simp only [decide_eq_true_eq] at *
      exact Nat.le_trans hab hbc
    · intro a b
      simpa using Nat.le_total a.bitOffset b.bitOffset
  have hle : result.markers.Pairwise fun a b => decide (a.bitOffset ≤ b.bitOffset) = true :=
    hsorted.sublist (List.destutter_sublist _ _)
  have hne : result.markers.IsChain fun a b => a.bitOffset ≠ b.bitOffset :=
    List.isChain_destutter _ _
  have hlt : (result.markers.map Marker.bitOffset).IsChain (· < ·) := by
    rw [List.isChain_map, List.isChain_iff_getElem]
    intro i hi
    have hi_le := List.isChain_iff_getElem.mp hle.isChain i hi
    have hi_ne := List.isChain_iff_getElem.mp hne i hi
    exact Nat.lt_of_le_of_ne (of_decide_eq_true hi_le) hi_ne
  exact List.isChain_iff_pairwise.mp hlt

/-- The first block, decoded before the scan. Its output is already out. -/
structure Prefetched where
  bitOffset : Nat
  expectedCrc : UInt32
  decoded : DecodedCandidate
  written : List UInt8

/-- The first block is decoded at once where the input begins as a stream with a block does. -/
def prefetch (data : List UInt8) : Result (Option Prefetched) := do
  if range? data 4 10 = some [0x31, 0x41, 0x59, 0x26, 0x53, 0x59] then
    let level ← parseHeader data 0
    let (expectedCrc, decoded) ← decodeFirstCandidate data
    ensure (decoded.blockLen ≤ level * 100000) (.decode 32 .blockOverflow)
    return some ⟨32, expectedCrc, { decoded with output := [] }, decoded.output⟩
  else return none

/-- The marker of the block that has been decoded before the scan. -/
def Prefetched.locate (markers : List Marker) (prefetched : Prefetched) :
    Result (Nat × DecodedCandidate) := do
  let index ← markerAt markers prefetched.bitOffset
  match markers[index]? with
  | some (.block block) =>
    ensure (block.expectedCrc = prefetched.expectedCrc) (.decode prefetched.bitOffset .invalidBlock)
    return (index, prefetched.decoded)
  | _ => .error (requiredMarker prefetched.bitOffset)

/-- Where the decoder runs: the options, the machine, and what the output answers when the scan asks
whether it is cancelled. -/
structure Setting where
  options : DecodeOptions
  parallelism : Nat
  cancelled : Nat → Bool

def Setting.threads (setting : Setting) : Nat := setting.options.resolvedThreads setting.parallelism

/-- `thread_pool`. -/
def Setting.pool (setting : Setting) : Option Nat :=
  if setting.threads ≤ 1 then none else some setting.threads

/-- What the assembler is given: the markers, and which candidate is there already. -/
def plan (setting : Setting) (data : List UInt8) (prefetched : Option Prefetched) :
    Result (List Marker × Option (Nat × DecodedCandidate)) := do
  let _ ← setting.options.validate
  let scanned ← Scan.scanWithPool data setting.pool setting.cancelled
  let markers := scanned.markers
  ensure (markers.length ≤ data.length / 16 + 64)
    (.invalidConfiguration "input contains too many speculative markers")
  match prefetched with
  | none => return (markers, none)
  | some prefetched =>
    let located ← prefetched.locate markers
    return (markers, some located)

/-- `decompress_to_sink_with_progress`, or one of the functions that come to an index. -/
inductive Entry
  | stream
  | index
  deriving DecidableEq, Repr

/-- What the pipeline runs with several threads. -/
abbrev Assembling : Type :=
  State (Result DecodedCandidate) Empty Empty (Assembly × Result Assembled) AssemblyCursor

/-- Where the decoder stands: about to check its options, at a stream or among the blocks of one on a
single thread, in the assembler, or returned. -/
inductive Stage
  | opened
  | streams (bit : Nat) (d : Decoded)
  | blocks (level bit : Nat) (combinedCrc : UInt32) (d : Decoded)
  | alone (markers : List Marker) (c : AssemblyCursor)
  | pooled (markers : List Marker) (prefetched : Option Nat) (s : Assembling)
  | returned (result : Result (List UInt8 × Option Assembled))

/-- The decoder, with what has been put out before the scan and what the callback has been given
outside of the assembler. -/
structure Decoder where
  stage : Stage
  written : List UInt8 := []
  progress : List DecodeProgress := []

def Setting.program (setting : Setting) (data : List UInt8) (markers : List Marker)
    (prefetched : Option Nat) : Program CandidateJob (Result DecodedCandidate) Empty Empty
      (Assembly × Result Assembled) AssemblyCursor :=
  assembleProgram data markers setting.options.memoryLimit
    (fun job => decodeCandidate data job.startBit job.expectedCrc) prefetched

namespace Decoder

def start : Decoder := { stage := .opened }

/-- Everything the callback has been given. -/
def reported (g : Decoder) : List DecodeProgress :=
  match g.stage with
  | .alone _ c => c.assembly.progress
  | .pooled _ _ s => s.consumer.assembly.progress
  | _ => g.progress

def fail (g : Decoder) (error : Error) : Decoder := { g with stage := .returned (.error error) }

/-- `decode_to_sink_impl_with_prefetched` up to the assembler. -/
def begin (setting : Setting) (data : List UInt8) (prefetched : Option Prefetched) (g : Decoder) :
    Decoder :=
  match plan setting data prefetched with
  | .error error => g.fail error
  | .ok (markers, located) =>
    match setting.pool with
    | none => { g with stage := .alone markers (assembleStart located) }
    | some threads =>
      let program := setting.program data markers (located.map Prod.fst)
      let opening := program.init threads (assembleStart located)
      if program.admissible then
        { g with stage := .pooled markers (located.map Prod.fst) opening }
      else g.fail reservationError

/-- The head of an entry. -/
def enter (setting : Setting) (entry : Entry) (data : List UInt8) (g : Decoder) : Decoder :=
  match setting.options.validate with
  | .error error => g.fail error
  | .ok _ =>
    match entry with
    | .index => g.begin setting data none
    | .stream =>
      if setting.threads = 1 then { g with stage := .streams 0 {} }
      else
        match prefetch data with
        | .error error => g.fail error
        | .ok prefetched =>
          { g with written := (prefetched.map Prefetched.written).getD [] }.begin setting data
            prefetched

/-- The head of the loop over the streams. -/
def stream (data : List UInt8) (bit : Nat) (d : Decoded) (g : Decoder) : Decoder :=
  if Bits.remaining data bit ≠ 0 then
    match readStreamHeader data (Bits.alignByte bit) with
    | .error error => g.fail error
    | .ok (level, bit) => { g with stage := .blocks level bit 0 d }
  else
    { g with
      stage := .returned (.ok (d.output, none))
      progress := g.progress ++ [⟨data.length, d.decodedBytes⟩] }

/-- The next block of a stream, or its end. -/
def block (data : List UInt8) (level bit : Nat) (combinedCrc : UInt32) (d : Decoded) (g : Decoder) :
    Decoder :=
  match Bits.magic data bit with
  | .error error => g.fail error
  | .ok (magic, bodyBit) =>
    if magic = blockMagic then
      match decoderBlock data bodyBit level none with
      | .error error => g.fail error
      | .ok (block, next) =>
        match d.deliver block.output with
        | .error error => g.fail error
        | .ok d =>
          { g with
            stage := .blocks level next (combineStreamCrc combinedCrc block.storedCrc) d
            progress := g.progress ++ [⟨(next + 7) / 8, d.decodedBytes⟩] }
    else if magic = endMagic then
      match checkStreamCrc data bit bodyBit combinedCrc with
      | .error error => g.fail error
      | .ok next => { g with stage := .streams (Bits.alignByte next) d }
    else g.fail (decodeError bit .invalidMagic)

/-- The assembler has returned. -/
def close (a : Assembly) (result : Result Assembled) (g : Decoder) : Decoder :=
  { g with
    stage := .returned (result.map fun assembled => (g.written ++ a.output, some assembled))
    progress := a.progress }

/-- What the decoder does outside of the assembler. -/
def next (setting : Setting) (entry : Entry) (data : List UInt8) (g : Decoder) : Option Decoder :=
  match g.stage with
  | .opened => some (g.enter setting entry data)
  | .streams bit d => some (g.stream data bit d)
  | .blocks level bit combinedCrc d => some (g.block data level bit combinedCrc d)
  | .alone _ ⟨a, .returned result⟩ => some (g.close a result)
  | .alone _ _ => none
  | .pooled _ _ _ => none
  | .returned _ => none

end Decoder

/-- The steps of the decoder; those of the workers interleave freely with those of the assembler. -/
inductive DecodeStep (setting : Setting) (entry : Entry) (data : List UInt8) :
    Decoder → Decoder → Prop
  | own {g g' : Decoder} (next : g.next setting entry data = some g') :
      DecodeStep setting entry data g g'
  | assemble {markers : List Marker} {c c' : AssemblyCursor} {written : List UInt8}
      {progress : List DecodeProgress} (step : AssembleStep data markers c c') :
      DecodeStep setting entry data ⟨.alone markers c, written, progress⟩
        ⟨.alone markers c', written, progress⟩
  | run {markers : List Marker} {prefetched : Option Nat} {s t : Assembling} {written : List UInt8}
      {progress : List DecodeProgress} (step : (setting.program data markers prefetched).Step s t) :
      DecodeStep setting entry data ⟨.pooled markers prefetched s, written, progress⟩
        ⟨.pooled markers prefetched t, written, progress⟩
  | join {markers : List Marker} {prefetched : Option Nat} {s : Assembling} {written : List UInt8}
      {progress : List DecodeProgress} {a : Assembly} {result : Result Assembled}
      (returned : Program.Returned s) (finished : s.finished = some (a, result)) :
      DecodeStep setting entry data ⟨.pooled markers prefetched s, written, progress⟩
        (Decoder.close a result ⟨.pooled markers prefetched s, written, progress⟩)

section Indexes

variable {setting : Setting} {data : List UInt8}

private theorem plan_markers {markers : List Marker} {located : Option (Nat × DecodedCandidate)}
    (addressable : data.length < 2 ^ 64) (h : plan setting data none = .ok (markers, located)) :
    located = none ∧ ∃ sorted : Markers, sorted.list = markers := by
  simp only [plan, result_bind_eq_ok, ensure_eq_ok] at h
  obtain ⟨_, -, scanned, -, _, hfew, heq⟩ := h
  obtain ⟨rfl, rfl⟩ := Prod.mk.inj (Except.ok.inj heq)
  exact ⟨rfl, ⟨scanned.markers, scanned.markers_sorted, by omega⟩, rfl⟩

private theorem decodeCandidate_forward (data : List UInt8) :
    Forward fun job => decodeCandidate data job.startBit job.expectedCrc := fun job decoded h => by
  have := (decodeCandidate_isBlock h).advances
  omega

private theorem prefetch_forward {prefetched : Option Prefetched}
    (h : prefetch data = .ok prefetched) :
    ∀ p ∈ prefetched, p.bitOffset < p.decoded.endBit := by
  intro p hp
  unfold prefetch at h
  split at h
  · simp only [result_bind_eq_ok, ensure_eq_ok] at h
    obtain ⟨level, -, ⟨crc, decoded⟩, hdecoded, _, -, heq⟩ := h
    obtain rfl := Except.ok.inj heq
    obtain rfl := Option.some.inj hp
    have := (decodeCandidate_isBlock (decodeFirstCandidate_eq_ok hdecoded)).advances
    dsimp only
    omega
  · obtain rfl := Except.ok.inj h
    cases hp

private theorem plan_forward {prefetched : Option Prefetched} {markers : List Marker}
    {located : Option (Nat × DecodedCandidate)} (first : prefetch data = .ok prefetched)
    (h : plan setting data prefetched = .ok (markers, located)) :
    ForwardPrefetched markers located := by
  simp only [plan, result_bind_eq_ok, ensure_eq_ok] at h
  obtain ⟨_, -, scanned, -, _, -, h⟩ := h
  intro q hq
  cases prefetched with
  | none =>
    obtain ⟨rfl, rfl⟩ := Prod.mk.inj (Except.ok.inj h)
    cases hq
  | some prefetched =>
    obtain ⟨place, hplace, heq⟩ := result_bind_eq_ok.mp h
    obtain ⟨rfl, rfl⟩ := Prod.mk.inj (Except.ok.inj heq)
    obtain rfl := Option.some.inj hq
    obtain ⟨index, hindex, h⟩ := result_bind_eq_ok.mp hplace
    obtain ⟨marker, hmarker, hbit⟩ := markerAt_eq_ok hindex
    rw [hmarker] at h
    cases marker with
    | eos => cases h
    | block block =>
      obtain ⟨_, -, heq⟩ := result_bind_eq_ok.mp h
      obtain rfl := Except.ok.inj heq
      have hbit : block.bitOffset = prefetched.bitOffset := hbit
      refine ⟨block, hmarker, ?_⟩
      rw [hbit]
      exact prefetch_forward first prefetched rfl

/-- With the markers and the first block that the decoder comes to, no schedule of its candidates
gets stuck exactly when they fit. -/
theorem plan_never_stuck_iff {prefetched : Option Prefetched} {markers : List Marker}
    {located : Option (Nat × DecodedCandidate)} {threads : Nat} (several : 2 ≤ threads)
    (addressable : data.length < 2 ^ 64) (first : prefetch data = .ok prefetched)
    (h : plan setting data prefetched = .ok (markers, located)) :
    ∃ sorted : Markers, sorted.list = markers ∧
      ((∀ s, Reaches (setting.program data markers (located.map Prod.fst)).Step
          ((setting.program data markers (located.map Prod.fst)).init threads
            (assembleStart located)) s →
        ¬ (setting.program data markers (located.map Prod.fst)).Stuck s) ↔
      CandidatesFit data sorted setting.options.memoryLimit
        (fun job => decodeCandidate data job.startBit job.expectedCrc) located threads) := by
  have ahead := plan_forward first h
  simp only [plan, result_bind_eq_ok, ensure_eq_ok] at h
  obtain ⟨_, -, scanned, -, _, hfew, h⟩ := h
  have heq : markers = scanned.markers := by
    cases prefetched with
    | none => exact (Prod.mk.inj (Except.ok.inj h)).1.symm
    | some prefetched =>
      obtain ⟨place, -, heq⟩ := result_bind_eq_ok.mp h
      exact (Prod.mk.inj (Except.ok.inj heq)).1.symm
  subst heq
  let sorted : Markers := ⟨scanned.markers, scanned.markers_sorted, by omega⟩
  refine ⟨sorted, rfl, ?_⟩
  exact ((assemble_sweeps data sorted setting.options.memoryLimit (decodeCandidate_forward data)
    ahead).never_stuck_iff (fun _ _ => rfl) (by omega)).trans
      (served_iff data sorted setting.options.memoryLimit (decodeCandidate_forward data) ahead
        several)

/-- What every run that is to come to an index keeps. -/
private inductive Indexing (setting : Setting) (data : List UInt8) : Decoder → Prop
  | opened : Indexing setting data .start
  | alone {markers : Markers} {c : AssemblyCursor} {progress : List DecodeProgress}
      (run : Reaches (AssembleStep data markers.list) (assembleStart none) c) :
      Indexing setting data ⟨.alone markers.list c, [], progress⟩
  | pooled {markers : Markers} {threads : Nat} {s : Assembling} {progress : List DecodeProgress}
      (run : Reaches (setting.program data markers.list none).Step
        ((setting.program data markers.list none).init threads (assembleStart none)) s) :
      Indexing setting data ⟨.pooled markers.list none s, [], progress⟩
  | failed {error : Error} {progress : List DecodeProgress} :
      Indexing setting data ⟨.returned (.error error), [], progress⟩
  | returned {markers : Markers} {a : Assembly} {assembled : Assembled}
      {progress : List DecodeProgress} (assembles : Assembles data markers a assembled) :
      Indexing setting data ⟨.returned (.ok (a.output, some assembled)), [], progress⟩

private theorem indexing_enter (addressable : data.length < 2 ^ 64) :
    Indexing setting data (Decoder.enter setting .index data .start) := by
  unfold Decoder.enter
  split
  case h_1 => exact .failed
  case h_2 =>
  dsimp only
  unfold Decoder.begin
  split
  case h_1 => exact .failed
  case h_2 markers located hplan =>
  obtain ⟨rfl, sorted, rfl⟩ := plan_markers addressable hplan
  split
  case h_1 => exact .alone .refl
  case h_2 =>
    dsimp only
    split
    case isTrue => exact .pooled .refl
    case isFalse => exact .failed

private theorem indexing_close {markers : Markers} {a : Assembly} {result : Result Assembled}
    {stage : Stage} {progress : List DecodeProgress}
    (assembles : ∀ assembled, result = .ok assembled → Assembles data markers a assembled) :
    Indexing setting data (Decoder.close a result ⟨stage, [], progress⟩) := by
  cases result with
  | error => exact .failed
  | ok assembled => exact .returned (assembles assembled rfl)

private theorem Indexing.step {g g' : Decoder} (addressable : data.length < 2 ^ 64)
    (indexing : Indexing setting data g) (step : DecodeStep setting .index data g g') :
    Indexing setting data g' := by
  cases step with
  | own next =>
    cases indexing with
    | opened =>
      obtain rfl := Option.some.inj next
      exact indexing_enter addressable
    | @alone markers c progress run =>
      obtain ⟨a, phase⟩ := c
      cases phase with
      | stream | marker | passing => cases next
      | returned result =>
        obtain rfl := Option.some.inj next
        apply indexing_close
        rintro assembled rfl
        exact .serial run
    | pooled | failed | returned => cases next
  | assemble step =>
    cases indexing with
    | alone run => exact .alone (run.tail step)
  | run step =>
    cases indexing with
    | pooled run => exact .pooled (run.tail step)
  | join returned finished =>
    cases indexing with
    | pooled run =>
      apply indexing_close
      rintro assembled rfl
      exact .parallel run finished

theorem decoder_assembles {g : Decoder} {output : List UInt8} {assembled : Assembled}
    (addressable : data.length < 2 ^ 64) (run : Reaches (DecodeStep setting .index data) .start g)
    (returned : g.stage = .returned (.ok (output, some assembled))) :
    ∃ (markers : Markers) (a : Assembly), a.output = output ∧ Assembles data markers a assembled := by
  have hindexing : Indexing setting data g :=
    run.invariant .opened fun _ _ indexing step => indexing.step addressable step
  cases hindexing with
  | @returned markers a _ _ assembles =>
    obtain ⟨rfl, heq⟩ := Prod.mk.inj (Except.ok.inj (Stage.returned.inj returned))
    obtain rfl := Option.some.inj heq
    exact ⟨markers, a, rfl, assembles⟩
  | opened | alone | pooled | failed => cases returned

end Indexes

private theorem plan_letters : plan ⟨⟨1, maxDecodedBlock⟩, 1, fun _ => false⟩ letters none =
    .ok (lettersMarkers.list, none) := by
  have hscan : Scan.scanWithPool letters none (fun _ => false) = .ok
      { streams := [⟨0, 9⟩, ⟨37, 9⟩]
        blocks := [⟨32, 429103979, false, 0⟩, ⟨328, 429103979, false, 0⟩]
        streamEnds := [⟨211, 429103979⟩, ⟨507, 429103979⟩] } := by
    decide +kernel
  have hmarkers : ScanResult.markers
      { streams := [⟨0, 9⟩, ⟨37, 9⟩]
        blocks := [⟨32, 429103979, false, 0⟩, ⟨328, 429103979, false, 0⟩]
        streamEnds := [⟨211, 429103979⟩, ⟨507, 429103979⟩] } = lettersMarkers.list := by
    simp [ScanResult.markers, ScanResult.found, List.mergeSort,
      List.MergeSort.Internal.splitInTwo, lettersMarkers, Marker.bitOffset]
  unfold plan
  rw [show Setting.pool _ = none from rfl]
  dsimp only
  rw [hscan, result_bind_ok, hmarkers]
  rfl

theorem letters_accepted :
    Reaches (DecodeStep ⟨⟨1, maxDecodedBlock⟩, 1, fun _ => false⟩ .index letters) .start
      ⟨.returned (.ok ([0x61, 0x61], some lettersAssembled)), [], lettersAssembly.progress⟩ := by
  have hopen : DecodeStep ⟨⟨1, maxDecodedBlock⟩, 1, fun _ => false⟩ .index letters .start
      ⟨.alone lettersMarkers.list (assembleStart none), [], []⟩ := by
    refine .own (congrArg some ?_)
    change Decoder.begin _ _ none .start = _
    rw [Decoder.begin, plan_letters]
    rfl
  have hruns : Reaches (DecodeStep ⟨⟨1, maxDecodedBlock⟩, 1, fun _ => false⟩ .index letters) _ _ :=
    letters_run.lift (fun c => (⟨.alone lettersMarkers.list c, [], []⟩ : Decoder))
      fun _ _ => DecodeStep.assemble
  exact (Relation.ReflTransGen.head hopen hruns).tail (.own rfl)

end Fbz.Bzip2
