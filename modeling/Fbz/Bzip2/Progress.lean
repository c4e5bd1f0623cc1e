import Fbz.Bzip2.Decoder
import Fbz.Progress

/-!
# The progress of the bzip2 decoder

Block by block or behind the assembler, what is reported never goes down, whatever the input and the
schedule, and ends with the lengths of the input and of the output.
-/

namespace Fbz.Bzip2

open Pipeline Transition

/-- Decoded bytes that are out but not yet counted. -/
def Assembly.ahead (a : Assembly) : Nat := (a.prefetched.map fun p => p.2.decodedLen).getD 0

/-- What is known of the block that has been decoded before the scan, until it is taken: it is the
one at the first marker. -/
structure Waiting (data : List UInt8) (markers : List Marker) (a : Assembly)
    (p : Nat × DecodedCandidate) : Prop where
  marker : markerAt markers 32 = .ok p.1
  block : ∃ block, markers[p.1]? = some (.block block)
  empty : p.2.output = []
  behind : 32 ≤ p.2.endBit
  inside : p.2.endBit ≤ data.length * 8
  first : a.headerByte = 0

/-- What every state of the assembler keeps, when `written` bytes were put out before it. -/
inductive Steady (data : List UInt8) (markers : List Marker) (written : Nat) :
    AssemblyCursor → Prop
  | stream {a : Assembly} (climbs : Climbs a.progress a.headerByte a.decodedOffset)
      (inside : a.headerByte ≤ data.length)
      (balance : written + a.output.length = a.decodedOffset + a.ahead)
      (waiting : ∀ p ∈ a.prefetched, Waiting data markers a p) :
      Steady data markers written ⟨a, .stream⟩
  | marker {a : Assembly} {index : Nat} {marker : Marker}
      (climbs : Climbs a.progress ((a.currentBit + 7) / 8) a.decodedOffset)
      (inside : a.currentBit ≤ data.length * 8)
      (balance : written + a.output.length = a.decodedOffset + a.ahead)
      (here : markers[index]? = some marker) (position : marker.bitOffset = a.currentBit)
      (waiting : ∀ p ∈ a.prefetched, Waiting data markers a p ∧ p.1 = index) :
      Steady data markers written ⟨a, .marker index⟩
  | passing {a : Assembly} {block : BlockCandidate} {decoded : DecodedCandidate} {endIndex : Nat}
      (climbs : Climbs a.progress ((decoded.endBit + 7) / 8) a.decodedOffset)
      (inside : decoded.endBit ≤ data.length * 8)
      (balance : written + (a.output.length + decoded.output.length) =
        a.decodedOffset + decoded.decodedLen)
      (stop : markerAt markers decoded.endBit = .ok endIndex) (taken : a.prefetched = none) :
      Steady data markers written ⟨a, .passing block decoded endIndex⟩
  | failed {a : Assembly} {error : Error} {total : Nat}
      (climbs : Climbs a.progress data.length total) :
      Steady data markers written ⟨a, .returned (.error error)⟩
  | returned {a : Assembly} {assembled : Assembled} {calls : List DecodeProgress}
      (climbs : Climbs calls data.length a.decodedOffset)
      (last : a.progress = calls ++ [⟨data.length, a.decodedOffset⟩])
      (balance : written + a.output.length = a.decodedOffset)
      (counted : assembled.decodedLen = a.decodedOffset) :
      Steady data markers written ⟨a, .returned (.ok assembled)⟩

section Assembler

variable {data : List UInt8} {markers : List Marker} {written : Nat} {a : Assembly}

private theorem steady_finish (climbs : Climbs a.progress data.length a.decodedOffset)
    (balance : written + a.output.length = a.decodedOffset) :
    Steady data markers written (a.finish data) :=
  .returned climbs rfl balance rfl

private theorem Waiting.not_end {p : Nat × DecodedCandidate} (waiting : Waiting data markers a p) :
    a.headerByte < data.length := by
  have hbehind := waiting.behind
  have hinside := waiting.inside
  rw [waiting.first]
  omega

private theorem steady_stream (steady : Steady data markers written ⟨a, .stream⟩) :
    Steady data markers written (a.stream data markers) := by
  cases steady with
  | stream climbs inside balance waiting =>
    have hwhole : Climbs a.progress data.length a.decodedOffset :=
      climbs.mono inside (Nat.le_refl _)
    unfold Assembly.stream
    split
    case isFalse hend =>
      have hnone : a.prefetched = none := by
        apply Option.eq_none_iff_forall_not_mem.mpr
        intro p hp
        exact hend (waiting p hp).not_end
      apply steady_finish hwhole
      rw [balance, Assembly.ahead, hnone]
      rfl
    case isTrue =>
    split
    case h_1 => exact .failed hwhole
    case h_2 level currentBit index henter =>
      simp only [Assembly.enterStream, result_bind_eq_ok] at henter
      obtain ⟨_, hheader, bit, hbit, bit', hbit', _, hmarker, heq⟩ := henter
      cases heq
      obtain ⟨rfl, -⟩ := checked_eq_ok hbit
      obtain ⟨rfl, -⟩ := checked_eq_ok hbit'
      obtain ⟨-, hlen⟩ := parseHeader_level hheader
      obtain ⟨marker, hhere, hposition⟩ := markerAt_eq_ok hmarker
      refine .marker (climbs.mono ?_ (Nat.le_refl _)) ?_ balance hhere hposition ?_
      · dsimp only
        omega
      · dsimp only
        omega
      · intro p hp
        obtain ⟨hfound, hblock, hempty, hbehind, hinside, hfirst⟩ := waiting p hp
        refine ⟨⟨hfound, hblock, hempty, hbehind, hinside, hfirst⟩, ?_⟩
        rw [hfirst] at hmarker
        exact Except.ok.inj (hfound.symm.trans hmarker)

private theorem steady_atEnd {index : Nat} {eos : EndCandidate}
    (steady : Steady data markers written ⟨a, .marker index⟩)
    (marker : markers[index]? = some (.eos eos)) :
    Steady data markers written (a.atEnd data eos) := by
  cases steady with
  | marker climbs inside balance here position waiting =>
    obtain rfl := Option.some.inj (here.symm.trans marker)
    have hwhole : Climbs a.progress data.length a.decodedOffset := by
      apply climbs.mono ?_ (Nat.le_refl _)
      omega
    have hnone : a.prefetched = none := by
      apply Option.eq_none_iff_forall_not_mem.mpr
      intro p hp
      obtain ⟨⟨-, ⟨block, hblock⟩, -⟩, rfl⟩ := waiting p hp
      rw [marker] at hblock
      cases hblock
    have hahead : a.ahead = 0 := by
      rw [Assembly.ahead, hnone]
      rfl
    unfold Assembly.atEnd
    split
    case isTrue => exact .failed hwhole
    case isFalse =>
    split
    case h_1 => exact .failed hwhole
    case h_2 next hnext =>
      obtain ⟨hbehind, -⟩ := nextHeader_eq_ok hnext
      change eos.bitOffset = a.currentBit at position
      dsimp only
      split
      case isTrue hend =>
        rw [hahead] at balance
        exact .returned hwhole rfl balance rfl
      case isFalse hmore =>
      split
      case isTrue => exact .failed hwhole
      case isFalse hinside =>
        refine .stream (climbs.mono ?_ (Nat.le_refl _)) ?_ balance ?_
        · dsimp only
          omega
        · dsimp only
          omega
        · intro p hp
          rw [hnone] at hp
          cases hp

private theorem steady_taken {block : BlockCandidate} {decoded : DecodedCandidate}
    (climbs : Climbs a.progress ((a.currentBit + 7) / 8) a.decodedOffset)
    (none_left : a.prefetched = none) (behind : a.currentBit ≤ decoded.endBit)
    (inside : decoded.endBit ≤ data.length * 8)
    (balance : written + (a.output.length + decoded.output.length) =
      a.decodedOffset + decoded.decodedLen) :
    Steady data markers written (a.taken markers block (.ok decoded)) := by
  have hfailed : ∀ error, Steady data markers written (a.fail error) := by
    intro error
    apply Steady.failed
    apply climbs.mono ?_ (Nat.le_refl a.decodedOffset)
    omega
  unfold Assembly.taken
  dsimp only
  split
  case isTrue => exact hfailed _
  case isFalse =>
  split
  case h_1 => exact hfailed _
  case h_2 endIndex hstop =>
    apply Steady.passing ?_ inside balance hstop none_left
    apply climbs.mono ?_ (Nat.le_refl _)
    omega

private theorem steady_pass {block : BlockCandidate} {decoded : DecodedCandidate} {endIndex : Nat}
    (steady : Steady data markers written ⟨a, .passing block decoded endIndex⟩) :
    Steady data markers written (a.pass markers block decoded endIndex) := by
  cases steady with
  | passing climbs inside balance stop taken =>
    obtain ⟨marker, hhere, hposition⟩ := markerAt_eq_ok stop
    have hend : (markers[endIndex]?.map Marker.bitOffset).getD 0 = decoded.endBit := by
      rw [hhere, ← hposition]
      rfl
    unfold Assembly.pass
    rw [hend]
    dsimp only
    split
    case h_1 =>
      apply Steady.failed
      apply climbs.mono ?_ (Nat.le_refl a.decodedOffset)
      omega
    case h_2 decodedOffset hchecked =>
      obtain ⟨rfl, -⟩ := checked_eq_ok hchecked
      apply Steady.marker ?_ inside ?_ hhere hposition
      · intro p hp
        dsimp only at hp
        rw [taken] at hp
        cases hp
      · exact climbs.call (Nat.le_refl _) (Nat.le_add_right _ _)
      · dsimp only [Assembly.ahead]
        rw [taken, List.length_append, balance]
        rfl

private theorem steady_prefetched {index : Nat} {block : BlockCandidate}
    {p : Nat × DecodedCandidate}
    (steady : Steady data markers written ⟨a, .marker index⟩) (there : a.prefetched = some p) :
    Steady data markers written ({ a with prefetched := none }.taken markers block (.ok p.2)) := by
  cases steady with
  | marker climbs inside balance here position waiting =>
    obtain ⟨hwaiting, rfl⟩ := waiting p there
    obtain ⟨marker, hhere, hposition⟩ := markerAt_eq_ok hwaiting.marker
    obtain rfl := Option.some.inj (here.symm.trans hhere)
    have hbehind := hwaiting.behind
    apply @steady_taken _ _ _ { a with prefetched := none } _ _ climbs rfl _ hwaiting.inside
    · rw [Assembly.ahead, there] at balance
      rw [hwaiting.empty, List.length_nil, Nat.add_zero]
      exact balance
    · dsimp only
      omega

private theorem steady_candidate {index : Nat} {block : BlockCandidate}
    (steady : Steady data markers written ⟨a, .marker index⟩)
    (marker : markers[index]? = some (.block block)) (none_left : a.prefetched = none) :
    Steady data markers written
      (a.taken markers block (decodeCandidate data block.bitOffset block.expectedCrc)) := by
  cases steady with
  | marker climbs inside balance here position waiting =>
    obtain rfl := Option.some.inj (here.symm.trans marker)
    change block.bitOffset = a.currentBit at position
    cases hdecode : decodeCandidate data block.bitOffset block.expectedCrc with
    | error error =>
      apply Steady.failed
      apply climbs.mono ?_ (Nat.le_refl a.decodedOffset)
      omega
    | ok decoded =>
      have hblock := decodeCandidate_isBlock hdecode
      have hadvances := hblock.advances
      apply steady_taken climbs none_left ?_ hblock.inside
      · have hlength := hblock.length
        rw [Assembly.ahead, none_left] at balance
        simp only [Option.map_none, Option.getD_none] at balance
        omega
      · omega

private theorem steady_step {c c' : AssemblyCursor} (steady : Steady data markers written c)
    (step : AssembleStep data markers c c') : Steady data markers written c' := by
  obtain ⟨a, phase⟩ := c
  cases phase with
  | stream =>
    cases step with
    | compute => exact steady_stream steady
    | take waiting | discardBefore waiting => cases waiting
  | passing =>
    cases step with
    | compute waiting | take waiting => cases waiting
    | discardBefore => exact steady_pass steady
  | returned =>
    cases step with
    | compute waiting | take waiting | discardBefore waiting => cases waiting
  | marker index =>
    cases hmarker : markers[index]? with
    | none =>
      cases steady with
      | marker climbs inside balance here => cases hmarker.symm.trans here
    | some found =>
    cases found with
    | eos eos =>
      cases step with
      | compute =>
        simp only [assembleConsumer, hmarker]
        exact steady_atEnd steady hmarker
      | take waiting | discardBefore waiting => simp [assembleConsumer, hmarker] at waiting
    | block block =>
    cases hthere : a.prefetched with
    | none =>
      cases step with
      | compute waiting | discardBefore waiting =>
        simp [assembleConsumer, hmarker, hthere] at waiting
      | take waiting marker =>
        simp only [assembleConsumer, hmarker, hthere, Option.any_none, Bool.false_eq_true, if_false,
          Op.take.injEq] at waiting ⊢
        subst waiting
        cases hmarker.symm.trans marker
        exact steady_candidate steady hmarker hthere
    | some p =>
      have hindex : p.1 = index := by
        cases steady with
        | marker climbs inside balance here position waiting => exact (waiting p hthere).2
      cases step with
      | compute =>
        simp only [assembleConsumer, hmarker, hthere]
        exact steady_prefetched steady hthere
      | take waiting | discardBefore waiting =>
        simp [assembleConsumer, hmarker, hthere, hindex] at waiting

end Assembler

/-- What every run of the decoder keeps. -/
inductive Decoder.Climbing (setting : Setting) (data : List UInt8) : Decoder → Prop
  | opened : Climbing setting data .start
  | streams {bit : Nat} {d : Decoded} {progress : List DecodeProgress}
      (climbs : Climbs progress ((bit + 7) / 8) d.decodedBytes) (inside : bit ≤ data.length * 8)
      (counts : d.decodedBytes = d.output.length) :
      Climbing setting data ⟨.streams bit d, [], progress⟩
  | blocks {level bit : Nat} {combinedCrc : UInt32} {d : Decoded} {progress : List DecodeProgress}
      (climbs : Climbs progress ((bit + 7) / 8) d.decodedBytes) (inside : bit ≤ data.length * 8)
      (counts : d.decodedBytes = d.output.length) :
      Climbing setting data ⟨.blocks level bit combinedCrc d, [], progress⟩
  | alone {markers : List Marker} {c : AssemblyCursor} {written : List UInt8}
      (steady : Steady data markers written.length c) :
      Climbing setting data ⟨.alone markers c, written, []⟩
  | pooled {markers : List Marker} {prefetched : Option Nat} {threads : Nat}
      {opening : AssemblyCursor} {s : Assembling} {written : List UInt8}
      (steady : Steady data markers written.length opening)
      (run : Reaches (setting.program data markers prefetched).Step
        ((setting.program data markers prefetched).init threads opening) s) :
      Climbing setting data ⟨.pooled markers prefetched s, written, []⟩
  | failed {error : Error} {written : List UInt8} {progress : List DecodeProgress} {total : Nat}
      (climbs : Climbs progress data.length total) :
      Climbing setting data ⟨.returned (.error error), written, progress⟩
  | returned {output written : List UInt8} {assembled : Option Assembled}
      {calls : List DecodeProgress} (climbs : Climbs calls data.length output.length)
      (counted : ∀ index ∈ assembled, index.decodedLen = output.length) :
      Climbing setting data ⟨.returned (.ok (output, assembled)), written,
        calls ++ [⟨data.length, output.length⟩]⟩

section Runs

variable {setting : Setting} {data : List UInt8} {entry : Entry}

private theorem steady_start {markers : List Marker} : Steady data markers 0
    (assembleStart none) := by
  apply Steady.stream
  · exact climbs_nil 0 0
  · exact Nat.zero_le _
  · rfl
  · nofun

private theorem steady_located {prefetched : Prefetched} {markers : List Marker}
    {located : Nat × DecodedCandidate} (first : prefetch data = .ok (some prefetched))
    (found : prefetched.locate markers = .ok located) :
    Steady data markers prefetched.written.length (assembleStart (some located)) := by
  unfold prefetch at first
  split at first
  case isFalse => cases first
  case isTrue =>
  obtain ⟨level, -, first⟩ := result_bind_eq_ok.mp first
  obtain ⟨⟨crc, decoded⟩, hdecode, first⟩ := result_bind_eq_ok.mp first
  obtain ⟨_, -, heq⟩ := result_bind_eq_ok.mp first
  obtain rfl := Option.some.inj (Except.ok.inj heq)
  have hblock := decodeCandidate_isBlock (decodeFirstCandidate_eq_ok hdecode)
  have hadvances := hblock.advances
  obtain ⟨index, hmarker, found⟩ := result_bind_eq_ok.mp found
  split at found
  case h_2 => cases found
  case h_1 block hfound =>
  obtain ⟨_, -, heq⟩ := result_bind_eq_ok.mp found
  obtain rfl := Except.ok.inj heq
  apply Steady.stream
  · exact climbs_nil 0 0
  · exact Nat.zero_le _
  · change decoded.output.length + 0 = 0 + decoded.decodedLen
    rw [hblock.length, Nat.add_zero, Nat.zero_add]
  · intro p hp
    obtain rfl := Option.some.inj hp
    refine ⟨hmarker, ⟨block, hfound⟩, rfl, ?_, hblock.inside, rfl⟩
    dsimp only
    omega

private theorem steady_plan {prefetched : Option Prefetched} {markers : List Marker}
    {located : Option (Nat × DecodedCandidate)}
    (first : ∀ p ∈ prefetched, prefetch data = .ok (some p))
    (planned : plan setting data prefetched = .ok (markers, located)) :
    Steady data markers ((prefetched.map Prefetched.written).getD []).length
      (assembleStart located) := by
  obtain ⟨_, -, planned⟩ := result_bind_eq_ok.mp planned
  obtain ⟨scanned, -, planned⟩ := result_bind_eq_ok.mp planned
  obtain ⟨_, -, planned⟩ := result_bind_eq_ok.mp planned
  cases prefetched with
  | none =>
    obtain ⟨rfl, rfl⟩ := Prod.mk.inj (Except.ok.inj planned)
    exact steady_start
  | some prefetched =>
    obtain ⟨found, hfound, planned⟩ := result_bind_eq_ok.mp planned
    obtain ⟨rfl, rfl⟩ := Prod.mk.inj (Except.ok.inj planned)
    exact steady_located (first prefetched rfl) hfound

private theorem steady_run {markers : List Marker} {prefetched : Option Nat} {written threads : Nat}
    {opening : AssemblyCursor} {s : Assembling} (steady : Steady data markers written opening)
    (run : Reaches (setting.program data markers prefetched).Step
      ((setting.program data markers prefetched).init threads opening) s) :
    Steady data markers written s.consumer ∧ ∀ a result, s.finished = some (a, result) →
      s.consumer = ⟨a, .returned result⟩ := by
  obtain ⟨⟨g, hreaches, hsame⟩, hdone⟩ :=
    (setting.program data markers prefetched).reachable_consumer run
  constructor
  · have hrun : Reaches (AssembleStep data markers) opening g.consumer :=
      hreaches.lift Ledger.consumer fun _ _ => follows_assembleStep
    rw [← hsame]
    exact hrun.invariant steady fun _ _ => steady_step
  · intro a result hfinished
    exact assembleConsumer_done (hdone _ hfinished)

private theorem Steady.climbs {markers : List Marker} {written : Nat} {c : AssemblyCursor}
    (steady : Steady data markers written c) :
    ∃ total, Climbs c.assembly.progress data.length total := by
  cases steady with
  | @stream a climbs inside => exact ⟨_, climbs.mono inside (Nat.le_refl _)⟩
  | marker climbs inside | passing climbs inside =>
    refine ⟨_, climbs.mono ?_ (Nat.le_refl _)⟩
    omega
  | failed climbs => exact ⟨_, climbs⟩
  | @returned a _ _ climbs last =>
    refine ⟨a.decodedOffset, ?_⟩
    dsimp only
    rw [last]
    exact climbs.call (Nat.le_refl _) (Nat.le_refl _)

private theorem climbing_close {markers : List Marker} {a : Assembly} {result : Result Assembled}
    {g : Decoder} (steady : Steady data markers g.written.length ⟨a, .returned result⟩) :
    Decoder.Climbing setting data (g.close a result) := by
  cases steady with
  | failed climbs => exact .failed climbs
  | @returned a assembled calls climbs last balance counted =>
    have hlength : (g.written ++ a.output).length = a.decodedOffset := by
      rw [List.length_append, balance]
    unfold Decoder.close
    rw [last, ← hlength]
    apply Decoder.Climbing.returned
    · rw [hlength]
      exact climbs
    · rintro index ⟨⟩
      rw [hlength]
      exact counted

private theorem climbing_stream {bit : Nat} {d : Decoded} {progress : List DecodeProgress}
    (climbs : Climbs progress ((bit + 7) / 8) d.decodedBytes) (inside : bit ≤ data.length * 8)
    (counts : d.decodedBytes = d.output.length) :
    Decoder.Climbing setting data (Decoder.stream data bit d ⟨.streams bit d, [], progress⟩) := by
  have hwhole : Climbs progress data.length d.decodedBytes := by
    apply climbs.mono ?_ (Nat.le_refl _)
    omega
  unfold Decoder.stream
  split
  case isFalse =>
    rw [counts] at hwhole ⊢
    exact .returned hwhole nofun
  case isTrue =>
  split
  case h_1 => exact .failed hwhole
  case h_2 level next hheader =>
    obtain ⟨rfl, hnext⟩ := readStreamHeader_next hheader
    have halign := (Bits.alignByte_bounds inside).1
    apply Decoder.Climbing.blocks ?_ hnext counts
    apply climbs.mono ?_ (Nat.le_refl _)
    omega

private theorem climbing_block {level bit : Nat} {combinedCrc : UInt32} {d : Decoded}
    {progress : List DecodeProgress} (climbs : Climbs progress ((bit + 7) / 8) d.decodedBytes)
    (inside : bit ≤ data.length * 8) (counts : d.decodedBytes = d.output.length) :
    Decoder.Climbing setting data
      (Decoder.block data level bit combinedCrc d ⟨.blocks level bit combinedCrc d, [], progress⟩) := by
  have hfailed : ∀ error, Decoder.Climbing setting data
      (Decoder.fail ⟨.blocks level bit combinedCrc d, [], progress⟩ error) := by
    intro error
    apply Decoder.Climbing.failed
    apply climbs.mono ?_ (Nat.le_refl _)
    omega
  unfold Decoder.block
  split
  case h_1 => exact hfailed _
  case h_2 magic bodyBit hmagic =>
  have hbody := Bits.magic_next hmagic
  split
  case isTrue =>
    split
    case h_1 => exact hfailed _
    case h_2 block next hblock =>
    obtain ⟨hadvances, hnext, -⟩ := decoderBlock_next hblock
    split
    case h_1 => exact hfailed _
    case h_2 d' hdeliver =>
      obtain ⟨_, -, heq⟩ := result_bind_eq_ok.mp hdeliver
      obtain rfl := Except.ok.inj heq
      apply Decoder.Climbing.blocks ?_ hnext
      · dsimp only
        rw [List.length_append, counts]
      · apply climbs.call
        · omega
        · exact Nat.le_add_right _ _
  case isFalse =>
  split
  case isTrue =>
    split
    case h_1 => exact hfailed _
    case h_2 next hcheck =>
      have hnext := checkStreamCrc_next hcheck
      obtain ⟨halign, hstop⟩ := Bits.alignByte_bounds hnext.2
      apply Decoder.Climbing.streams ?_ hstop counts
      apply climbs.mono ?_ (Nat.le_refl _)
      omega
  case isFalse => exact hfailed _

private theorem climbing_begin {prefetched : Option Prefetched} {written : List UInt8}
    {stage : Stage} (first : ∀ p ∈ prefetched, prefetch data = .ok (some p))
    (out : written = (prefetched.map Prefetched.written).getD []) :
    Decoder.Climbing setting data (Decoder.begin setting data prefetched ⟨stage, written, []⟩) := by
  have hfailed : ∀ error, Decoder.Climbing setting data
      (Decoder.fail ⟨stage, written, []⟩ error) :=
    fun error => .failed (climbs_nil data.length 0)
  unfold Decoder.begin
  split
  case h_1 => exact hfailed _
  case h_2 markers located hplan =>
  have hsteady := steady_plan first hplan
  rw [← out] at hsteady
  split
  case h_1 => exact .alone hsteady
  case h_2 threads hpool =>
  dsimp only
  split
  case isTrue => exact .pooled hsteady .refl
  case isFalse => exact hfailed _

private theorem climbing_enter : Decoder.Climbing setting data
    (Decoder.start.enter setting entry data) := by
  have hfailed : ∀ error, Decoder.Climbing setting data (Decoder.start.fail error) :=
    fun error => .failed (climbs_nil data.length 0)
  unfold Decoder.enter
  split
  case h_1 => exact hfailed _
  case h_2 =>
  cases entry with
  | index => exact climbing_begin nofun rfl
  | stream =>
    dsimp only
    split
    case isTrue => exact .streams (climbs_nil _ _) (Nat.zero_le _) rfl
    case isFalse =>
    split
    case h_1 => exact hfailed _
    case h_2 prefetched hprefetch =>
      apply climbing_begin ?_ rfl
      rintro p ⟨⟩
      exact hprefetch

private theorem Decoder.Climbing.step {g g' : Decoder} (climbing : Decoder.Climbing setting data g)
    (step : DecodeStep setting entry data g g') : Decoder.Climbing setting data g' := by
  cases step with
  | own next =>
    cases climbing with
    | failed | returned | pooled => cases next
    | opened =>
      obtain rfl := Option.some.inj next
      exact climbing_enter
    | streams climbs inside counts =>
      obtain rfl := Option.some.inj next
      exact climbing_stream climbs inside counts
    | blocks climbs inside counts =>
      obtain rfl := Option.some.inj next
      exact climbing_block climbs inside counts
    | @alone markers c written steady =>
      obtain ⟨a, phase⟩ := c
      cases phase with
      | stream | marker | passing => cases next
      | returned result =>
        obtain rfl := Option.some.inj next
        exact climbing_close steady
  | assemble step =>
    cases climbing with
    | alone steady => exact .alone (steady_step steady step)
  | run step =>
    cases climbing with
    | pooled steady run => exact .pooled steady (run.tail step)
  | join returned finished =>
    cases climbing with
    | pooled steady run =>
      obtain ⟨hsteady, hdone⟩ := steady_run steady run
      rw [hdone _ _ finished] at hsteady
      exact climbing_close hsteady

/-- Whatever the input and the entry, with any number of threads and under any schedule, the calls
never go down and stay inside the input, and those of a run that is accepted end with the lengths of
the input and of the output. -/
theorem decoder_progress {g : Decoder} (run : Reaches (DecodeStep setting entry data) .start g) :
    Orderly data g.reported ∧ ∀ output assembled, g.stage = .returned (.ok (output, assembled)) →
      g.reported.getLast? = some ⟨data.length, output.length⟩ ∧
        ∀ index ∈ assembled, index.decodedLen = output.length := by
  have hclimbing : Decoder.Climbing setting data g :=
    run.invariant .opened fun _ _ climbing step => climbing.step step
  constructor
  · cases hclimbing with
    | opened => exact (climbs_nil 0 0).orderly (Nat.zero_le _)
    | streams climbs inside | blocks climbs inside =>
      apply climbs.orderly
      omega
    | alone steady =>
      obtain ⟨total, hclimbs⟩ := steady.climbs
      exact hclimbs.orderly (Nat.le_refl _)
    | pooled steady inner =>
      obtain ⟨total, hclimbs⟩ := (steady_run steady inner).1.climbs
      exact hclimbs.orderly (Nat.le_refl _)
    | failed climbs => exact climbs.orderly (Nat.le_refl _)
    | returned climbs =>
      exact (climbs.call (Nat.le_refl _) (Nat.le_refl _)).orderly (Nat.le_refl _)
  · intro output assembled hstage
    obtain ⟨stage, written, progress⟩ := g
    obtain rfl : stage = _ := hstage
    cases hclimbing with
    | returned climbs counted =>
      refine ⟨?_, counted⟩
      rw [Decoder.reported, List.getLast?_append_of_ne_nil _ (by simp)]
      rfl

end Runs

end Fbz.Bzip2
