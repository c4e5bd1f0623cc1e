import Fbz.Lz4.Layout
import Fbz.Progress

/-!
# The progress of the LZ4 decoder

What is reported never goes down, whatever the input and the schedule, and ends with the lengths of
the input and of the output.
-/

namespace Fbz.Lz4

open Transition

variable {xxh : XxHash32} {data : List UInt8}

section Frames

variable {header : FrameHeader} {position stop : Nat} {c c' : FrameCommitter xxh} {d : Delivered}

private theorem Commits.climbs (commits : Commits data header position c stop c')
    (climbs : Climbs c.progress position (c.decodedBase + c.decoded))
    (inside : position ≤ data.length) :
    Climbs c'.progress stop (c'.decodedBase + c'.decoded) ∧ stop ≤ data.length := by
  induction commits with
  | refl => exact ⟨climbs, inside⟩
  | head read commit rest ih =>
    obtain ⟨hbase, -, hdecoded, -, hprogress⟩ := commit_eq_ok commit
    obtain ⟨hstart, hsize, hnext, hinside, -⟩ := nextBlock_some read
    apply ih ?_ hinside
    rw [hprogress, hbase]
    apply (climbs.call ?_ ?_).mono hnext (Nat.le_refl _)
    · omega
    · omega

/-- What has been reported when the blocks of a frame have come to an end. -/
structure Ended (data : List UInt8) (base : Nat) (outcome : FrameCommitter xxh × Result Nat) :
    Prop where
  climbs : ∃ total, Climbs outcome.1.progress data.length total
  accepted : ∀ next, outcome.2 = .ok next →
    Climbs outcome.1.progress next (base + outcome.1.decoded) ∧ next ≤ data.length

private theorem LoopEnds.ended {outcome : FrameCommitter xxh × Result Nat}
    (ends : LoopEnds data header position c outcome)
    (climbs : Climbs c.progress position (c.decodedBase + c.decoded))
    (inside : position ≤ data.length) : Ended data c.decodedBase outcome := by
  obtain ⟨stop, c', hcommits, houtcome⟩ := ends
  obtain ⟨hclimbs, hstop⟩ := hcommits.climbs climbs inside
  obtain ⟨e, error | next⟩ := outcome
  · refine ⟨⟨c'.decodedBase + c'.decoded, ?_⟩, nofun⟩
    dsimp only at houtcome ⊢
    rw [houtcome]
    exact hclimbs.mono hstop (Nat.le_refl _)
  · obtain ⟨rfl, hnext⟩ := houtcome
    obtain ⟨hnext, hinside⟩ := nextBlock_none hnext
    refine ⟨⟨_, hclimbs.mono hstop (Nat.le_refl _)⟩, ?_⟩
    rintro next ⟨⟩
    rw [← hcommits.tile.1]
    exact ⟨hclimbs.mono (by omega) (Nat.le_refl _), hinside⟩

private theorem parseFrameHeader_inside (parsed : parseFrameHeader xxh data position = .ok header) :
    header.blocksStart ≤ data.length := by
  simp only [parseFrameHeader, result_bind_eq_ok, okOr_eq_ok] at parsed
  obtain ⟨_, -, _, -, _, -, _, -, _, -, _, -, _, -, _, hchecksum, _, -, _, -, heq⟩ := parsed
  obtain rfl := Except.ok.inj heq
  exact (List.getElem?_eq_some_iff.mp hchecksum).1

private theorem decodeMode_ended (parsed : parseFrameHeader xxh data position = .ok header)
    (climbs : Climbs d.progress position d.decodedTotal) :
    Ended data d.decodedTotal (decodeMode data header (committerOf xxh header d)) := by
  have hstart := parseFrameHeader_advances xxh parsed
  apply (decodeMode_ends data header (committerOf xxh header d)).ended
  · exact climbs.mono (Nat.le_of_lt hstart) (Nat.le_refl _)
  · exact parseFrameHeader_inside parsed

end Frames

/-- What every run of the decoder keeps. -/
inductive Stage.Climbing (setting : Setting) (data : List UInt8) : Stage xxh → Prop
  | opened : Climbing setting data .opened
  | frames {position : Nat} {d : Delivered} (climbs : Climbs d.progress position d.decodedTotal)
      (inside : position ≤ data.length) (fits : d.decodedTotal < 2 ^ 64) :
      Climbing setting data (.frames position d)
  | frame {d : Delivered} {header : FrameHeader} {inner : IndependentState xxh}
      (run : Reaches (IndependentStep setting data header)
        (.scanning header.blocksStart (committerOf xxh header d)) inner)
      (ended : Ended data d.decodedTotal
        (decodeIndependentSerial data header header.blocksStart (committerOf xxh header d))) :
      Climbing setting data (.frame d header inner)
  | failed {d : Delivered} {error : Error} {total : Nat}
      (climbs : Climbs d.progress data.length total) :
      Climbing setting data (.returned d (.error error))
  | returned {d : Delivered} {report : Report} {calls : List DecodeProgress}
      (climbs : Climbs calls data.length report.decodedLen) (fits : report.decodedLen < 2 ^ 64)
      (last : d.progress = calls ++ [⟨data.length, report.decodedLen⟩]) :
      Climbing setting data (.returned d (.ok report))

section Runs

variable {setting : Setting} {position : Nat} {d : Delivered}

private theorem climbing_resume {header : FrameHeader} {outcome : FrameCommitter xxh × Result Nat}
    (ended : Ended data d.decodedTotal outcome) :
    Stage.Climbing setting data
      (Stage.resume (closeFrame data d header outcome) : Stage xxh) := by
  obtain ⟨⟨total, hclimbs⟩, haccepted⟩ := ended
  obtain ⟨c, error | next⟩ := outcome
  · exact .failed hclimbs
  · have hfailed : ∀ error, Stage.Climbing setting data
        (.returned (d.after c) (.error error) : Stage xxh) := fun error => .failed hclimbs
    obtain ⟨hclimbs, hinside⟩ := haccepted next rfl
    unfold closeFrame
    dsimp only
    split
    case h_1 => exact hfailed _
    case h_2 stop hcheck =>
      obtain ⟨hadvances, hstop⟩ := checkContent_advances hcheck
      split
      case isFalse => exact hfailed _
      case isTrue hfits =>
        apply Stage.Climbing.frames ?_ (hstop hinside) hfits
        exact hclimbs.call hadvances (Nat.le_refl _)

private theorem climbing_enter (climbs : Climbs d.progress position d.decodedTotal)
    (inside : position ≤ data.length) :
    Stage.Climbing setting data (Stage.enter data position d : Stage xxh) := by
  have hfailed : ∀ error, Stage.Climbing setting data (.returned d (.error error) : Stage xxh) :=
    fun error => .failed (climbs.mono inside (Nat.le_refl _))
  unfold Stage.enter
  split
  case h_1 => exact hfailed _
  case h_2 header hparse =>
  have hended := decodeMode_ended hparse climbs
  unfold decodeMode at hended
  split
  case isFalse => exact hfailed _
  case isTrue =>
  split
  case h_1 hmode =>
    rw [hmode] at hended
    exact .frame .refl hended
  case h_2 hmode =>
    rw [hmode] at hended
    exact climbing_resume hended

private theorem climbing_turn (climbs : Climbs d.progress position d.decodedTotal)
    (inside : position ≤ data.length) (fits : d.decodedTotal < 2 ^ 64) :
    Stage.Climbing setting data (Stage.turn data position d : Stage xxh) := by
  have hwhole : Climbs d.progress data.length d.decodedTotal := climbs.mono inside (Nat.le_refl _)
  have hfailed : ∀ error, Stage.Climbing setting data (.returned d (.error error) : Stage xxh) :=
    fun error => .failed hwhole
  unfold Stage.turn
  split
  case isFalse =>
    unfold Stage.finish
    split
    case isTrue => exact hfailed _
    case isFalse => exact .returned hwhole fits rfl
  case isTrue =>
  split
  case h_1 => exact hfailed _
  case h_2 =>
  split
  case isTrue =>
    split
    case h_1 => exact hfailed _
    case h_2 next hskip =>
      obtain ⟨hadvances, hnext⟩ := skipFrame_advances hskip
      exact .frames (climbs.mono (Nat.le_of_lt hadvances) (Nat.le_refl _)) hnext fits
  case isFalse =>
  split
  case isTrue => exact hfailed _
  case isFalse =>
  split
  case isTrue => exact hfailed _
  case isFalse => exact climbing_enter climbs inside

private theorem Stage.Climbing.step {s t : Stage xxh} (climbing : Stage.Climbing setting data s)
    (step : DecodeStep setting data s t) : Stage.Climbing setting data t := by
  cases step with
  | blocks step =>
    cases climbing with
    | frame run ended => exact .frame (run.tail step) ended
  | own next =>
    cases climbing with
    | opened =>
      simp only [Stage.next] at next
      split at next
      case h_1 =>
        obtain rfl := Option.some.inj next
        exact .failed (climbs_nil data.length 0)
      case h_2 =>
        obtain rfl := Option.some.inj next
        exact .frames (climbs_nil 0 0) (Nat.zero_le _) (by decide)
    | frames climbs inside fits =>
      obtain rfl := Option.some.inj next
      exact climbing_turn climbs inside fits
    | @frame d header inner run ended =>
      cases inner with
      | scanning | parallel => cases next
      | done outcome =>
        obtain rfl := Option.some.inj next
        rw [(independent_run run).1 outcome rfl]
        exact climbing_resume ended
    | failed | returned => cases next

private theorem Stage.Climbing.orderly {s : Stage xxh} (climbing : Stage.Climbing setting data s) :
    Orderly data s.counted := by
  cases climbing with
  | opened => exact (climbs_nil 0 0).orderly (Nat.zero_le _)
  | frames climbs inside => exact climbs.orderly inside
  | frame inner ended =>
    obtain ⟨total, hclimbs⟩ := ended.climbs
    exact Climbs.orderly (hclimbs.front (independent_run inner).2) (Nat.le_refl _)
  | failed climbs => exact climbs.orderly (Nat.le_refl _)
  | @returned d report calls climbs _ last =>
    have hwhole := climbs.call (Nat.le_refl _) (Nat.le_refl _)
    rw [← last] at hwhole
    exact hwhole.orderly (Nat.le_refl _)

/-- Whatever the input, with any number of threads and under any schedule, the compressed bytes never
go down and stay inside the input; nor do the decoded ones go down while a `u64` holds their counts.
It holds those of a run that is accepted, and they end with the lengths of input and output. -/
theorem decoder_progress {s : Stage xxh} (run : Reaches (DecodeStep setting data) .opened s) :
    Advancing data s.reported ∧ (Fitting s.counted → Orderly data s.reported) ∧
      ∀ d report, s = .returned d (.ok report) →
        Orderly data s.reported ∧ s.reported.getLast? = some ⟨data.length, d.output.length⟩ := by
  have hclimbing : Stage.Climbing setting data s :=
    run.invariant .opened fun _ _ climbing step => climbing.step step
  have horderly : Fitting s.counted → Orderly data s.reported := by
    intro fitting
    rw [Stage.reported, fitting.wrapped]
    exact hclimbing.orderly
  refine ⟨hclimbing.orderly.advancing, horderly, ?_⟩
  rintro d report rfl
  have hlen := (decoder_exact run).decodedLen
  cases hclimbing with
  | returned climbs fits last =>
    have hfitting : Fitting d.progress := by
      rw [last]
      exact (climbs.call (Nat.le_refl _) (Nat.le_refl _)).fitting fits
    refine ⟨horderly hfitting, ?_⟩
    rw [Stage.reported, Stage.counted, hfitting.wrapped, last,
      List.getLast?_append_of_ne_nil _ (by simp), hlen]
    rfl

end Runs

end Fbz.Lz4
