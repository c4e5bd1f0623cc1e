import Fbz.Lz4.Independent
import Fbz.Lz4.Stream

/-!
# The LZ4 decoder

The loop over the frames of an input with any number of threads, as a transition system. The blocks
of an independent frame are decoded under any schedule of the workers. A run that returns has
delivered what one thread delivers and returns the same.
-/

namespace Fbz.Lz4

open Transition

variable {xxh : XxHash32}

/-- What `decompress_to_sink_with_options_and_progress` does with a frame behind its blocks. -/
def closeFrame (data : List UInt8) (d : Delivered) (header : FrameHeader) :
    FrameCommitter xxh × Result Nat → Delivered × Result Nat
  | (c, .error error) => (d.after c, .error error)
  | (c, .ok position) =>
    match checkContent data header position c with
    | .error error => (d.after c, .error error)
    | .ok position =>
      if d.decodedTotal + c.decoded < 2 ^ 64 then (d.framed header c position, .ok position)
      else (d.after c, .error (invalid "decoded length overflows u64"))

private theorem decodeFrame_eq {data : List UInt8} {position : Nat} {d : Delivered}
    {header : FrameHeader}
    (parsed : parseFrameHeader xxh data position = .ok header) (few : d.frames.length < 2 ^ 32) :
    decodeFrame xxh data position d =
      closeFrame data d header (decodeMode data header (committerOf xxh header d)) := by
  unfold decodeFrame closeFrame
  rw [parsed]
  exact if_pos few

/-- Where the decoder stands: about to check its options, at the head of its loop, in the blocks of
an independent frame, or returned. -/
inductive Stage (xxh : XxHash32)
  | opened
  | frames (position : Nat) (d : Delivered)
  | frame (d : Delivered) (header : FrameHeader) (inner : IndependentState xxh)
  | returned (d : Delivered) (result : Result Report)

namespace Stage

/-- What has been counted at each call of the callback. -/
def counted : Stage xxh → List DecodeProgress
  | opened => []
  | frames _ d => d.progress
  | frame _ _ inner => inner.committer.progress
  | returned d _ => d.progress

/-- Everything the callback has been given. -/
def reported (s : Stage xxh) : List DecodeProgress := s.counted.map DecodeProgress.wrapped

/-- The end of the loop. -/
def finish (data : List UInt8) (d : Delivered) : Stage xxh :=
  if d.frames.isEmpty then returned d (.error (invalid "input contains no LZ4 frames"))
  else
    returned { d with progress := d.progress ++ [⟨data.length, d.decodedTotal⟩] }
      (.ok ⟨data.length, d.decodedTotal, d.frames, d.blocks⟩)

/-- The end of a frame. -/
def resume : Delivered × Result Nat → Stage xxh
  | (d, .error error) => returned d (.error error)
  | (d, .ok position) => frames position d

/-- A frame from its header on. -/
def enter (data : List UInt8) (position : Nat) (d : Delivered) : Stage xxh :=
  match parseFrameHeader xxh data position with
  | .error error => returned d (.error error)
  | .ok header =>
    if d.frames.length < 2 ^ 32 then
      match header.mode with
      | .independent => frame d header (.scanning header.blocksStart (committerOf xxh header d))
      | .linked => resume (closeFrame data d header
          (decodeLinked data header header.blocksStart (committerOf xxh header d)))
    else returned d (.error (invalid "too many frames"))

/-- The head of the loop. -/
def turn (data : List UInt8) (position : Nat) (d : Delivered) : Stage xxh :=
  if position < data.length then
    match readU32 data position "frame magic" with
    | .error error => returned d (.error error)
    | .ok magic =>
      if skippableMagicStart ≤ magic ∧ magic ≤ skippableMagicEnd then
        match skipFrame data position with
        | .error error => returned d (.error error)
        | .ok next => frames next d
      else if magic = legacyMagic then
        returned d (.error (invalid "legacy LZ4 frames are not supported"))
      else if magic ≠ frameMagic then
        returned d (.error (invalid s!"wrong magic {hex 8 magic} at byte {position}"))
      else enter data position d
  else finish data d

/-- What the decoder does outside of the blocks of independent frames. -/
def next (options : DecodeOptions) (data : List UInt8) : Stage xxh → Option (Stage xxh)
  | opened =>
    match options.validate with
    | .error error => some (returned {} (.error error))
    | .ok _ => some (frames 0 {})
  | frames position d => some (turn data position d)
  | frame d header (.done outcome) => some (resume (closeFrame data d header outcome))
  | frame _ _ _ => none
  | returned _ _ => none

end Stage

/-- The steps of the decoder; those of an independent frame interleave freely among themselves. -/
inductive DecodeStep (setting : Setting) (data : List UInt8) : Stage xxh → Stage xxh → Prop
  | own {s t : Stage xxh} (next : s.next setting.options data = some t) : DecodeStep setting data s t
  | blocks {d : Delivered} {header : FrameHeader} {inner inner' : IndependentState xxh}
      (step : IndependentStep setting data header inner inner') :
      DecodeStep setting data (.frame d header inner) (.frame d header inner')

section Reported

variable {data : List UInt8}

private theorem linked_progress (frame : FrameHeader) (position : Nat) (history : List UInt8)
    (c : FrameCommitter xxh) :
    c.progress <+: (decodeLinkedFrom data frame position history c).1.progress := by
  induction position, history, c using decodeLinkedFrom.induct data frame with
  | case1 position history c error hnext => simp [decodeLinkedFrom_eq, hnext]
  | case2 position history c stop hnext => simp [decodeLinkedFrom_eq, hnext]
  | case3 position history c block after hnext error hdecode =>
    simp [decodeLinkedFrom_eq, hnext, hdecode]
  | case4 position history c block after hnext decoded hdecode c' error hcommit =>
    have hone := commit_progress data c block decoded
    rw [decodeLinkedFrom_eq]
    simpa only [hnext, hdecode, hcommit] using hone
  | case5 position history c block after hnext decoded hdecode c' hcommit ih =>
    have hone := commit_progress data c block decoded
    rw [hcommit] at hone
    rw [decodeLinkedFrom_eq]
    simpa only [hnext, hdecode, hcommit] using hone.trans ih

private theorem independent_progress (frame : FrameHeader) (position : Nat)
    (c : FrameCommitter xxh) :
    c.progress <+: (decodeIndependentSerial data frame position c).1.progress :=
  (@independent_run xxh ⟨⟨1, 0⟩, 1, List.length⟩ data frame position c (.scanning position c) .refl).2

private theorem closeFrame_progress (d : Delivered) (header : FrameHeader)
    (outcome : FrameCommitter xxh × Result Nat) :
    outcome.1.progress <+: (closeFrame data d header outcome).1.progress := by
  obtain ⟨c, error | position⟩ := outcome
  · exact List.prefix_refl _
  · unfold closeFrame
    dsimp only
    split
    · exact List.prefix_refl _
    · split
      · exact List.prefix_append _ _
      · exact List.prefix_refl _

private theorem decodeFrame_progress (position : Nat) (d : Delivered) :
    d.progress <+: (decodeFrame xxh data position d).1.progress := by
  cases hparse : parseFrameHeader xxh data position with
  | error error => simp [decodeFrame, hparse]
  | ok header =>
    by_cases hfew : d.frames.length < 2 ^ 32
    · rw [decodeFrame_eq hparse hfew]
      refine List.IsPrefix.trans ?_ (closeFrame_progress d header _)
      unfold decodeMode
      split
      · exact independent_progress header _ (committerOf xxh header d)
      · exact linked_progress header _ [] (committerOf xxh header d)
    · simp only [decodeFrame, hparse, if_neg hfew, List.prefix_refl]

private theorem decompressFramesFrom_progress (position : Nat) (d : Delivered) :
    d.progress <+: (decompressFramesFrom xxh data position d).1.progress := by
  induction position, d using decompressFramesFrom.induct xxh data with
  | case1 position d hlt error hread => simp [decompressFramesFrom, hlt, hread]
  | case2 position d hlt magic hread hskippable error hskip =>
    rw [decompressFramesFrom, dif_pos hlt, hread]
    dsimp only
    rw [if_pos hskippable]
    split <;> simp_all
  | case3 position d hlt magic hread hskippable next hskip ih =>
    have hturn : Turn xxh data (position, d) (next, d) :=
      ⟨hlt, .inl ⟨magic, hread, hskippable, hskip, rfl⟩⟩
    have hsame := decompressFramesFrom_turn hturn
    dsimp only at hsame
    rw [hsame]
    exact ih
  | case4 position d hlt hread hother => simp [decompressFramesFrom, hlt, hread, hother]
  | case5 position d hlt magic hread hother hlegacy hwrong =>
    simp [decompressFramesFrom, hlt, hread, hother, hlegacy, hwrong]
  | case6 position d hlt magic hread hother hlegacy hright d' error hframe =>
    have hone := @decodeFrame_progress xxh data position d
    rw [hframe] at hone
    rw [decompressFramesFrom, dif_pos hlt, hread]
    dsimp only
    rw [if_neg hother, if_neg hlegacy, if_neg hright]
    split <;> simp_all
  | case7 position d hlt magic hread hother hlegacy hright d' next hframe ih =>
    have hone := @decodeFrame_progress xxh data position d
    rw [hframe] at hone
    have hturn : Turn xxh data (position, d) (next, d') :=
      ⟨hlt, .inr ⟨not_not.mp hright ▸ hread, hframe⟩⟩
    have hsame := decompressFramesFrom_turn hturn
    dsimp only at hsame
    rw [hsame]
    exact hone.trans ih
  | case8 position d hge =>
    rw [decompressFramesFrom]
    simp only [dif_neg hge, List.prefix_refl]

end Reported

/-- What one thread makes of the end of a frame. -/
def serialFrom (xxh : XxHash32) (data : List UInt8) : Delivered × Result Nat → Delivered × Result Unit
  | (d, .error error) => (d, .error error)
  | (d, .ok position) => decompressFramesFrom xxh data position d

/-- What one thread makes of the end of its loop. -/
def serialReport (data : List UInt8) : Delivered × Result Unit → Delivered × Result Report
  | (d, .error error) => (d, .error error)
  | (d, .ok ()) =>
    if d.frames.isEmpty then (d, .error (invalid "input contains no LZ4 frames"))
    else
      ({ d with progress := d.progress ++ [⟨data.length, d.decodedTotal⟩] },
        .ok ⟨data.length, d.decodedTotal, d.frames, d.blocks⟩)

/-- From here on, one thread ends with this outcome. -/
private inductive Agrees (setting : Setting) (data : List UInt8)
    (outcome : Delivered × Result Report) : Stage xxh → Prop
  | opened (serial : decompressSerial xxh data setting.options = outcome) :
      Agrees setting data outcome .opened
  | frames {position : Nat} {d : Delivered}
      (serial : serialReport data (decompressFramesFrom xxh data position d) = outcome) :
      Agrees setting data outcome (.frames position d)
  | frame {d : Delivered} {header : FrameHeader} {inner : IndependentState xxh}
      (run : Reaches (IndependentStep setting data header)
        (.scanning header.blocksStart (committerOf xxh header d)) inner)
      (serial : serialReport data (serialFrom xxh data (closeFrame data d header
        (decodeIndependentSerial data header header.blocksStart (committerOf xxh header d)))) =
          outcome) :
      Agrees setting data outcome (.frame d header inner)
  | returned : Agrees setting data outcome (.returned outcome.1 outcome.2)

section Runs

variable {setting : Setting} {data : List UInt8} {outcome : Delivered × Result Report}

private theorem agrees_returned {d : Delivered} {result : Result Report}
    (h : (d, result) = outcome) : Agrees setting data outcome (.returned d result : Stage xxh) := by
  rw [← h]
  exact .returned

private theorem agrees_resume {r : Delivered × Result Nat}
    (h : serialReport data (serialFrom xxh data r) = outcome) :
    Agrees setting data outcome (Stage.resume r : Stage xxh) := by
  obtain ⟨d, error | position⟩ := r
  · exact agrees_returned h
  · exact .frames h

private theorem agrees_finish {position : Nat} {d : Delivered} (hend : ¬ position < data.length)
    (h : serialReport data (decompressFramesFrom xxh data position d) = outcome) :
    Agrees setting data outcome (Stage.finish data d : Stage xxh) := by
  rw [decompressFramesFrom, dif_neg hend] at h
  unfold serialReport at h
  unfold Stage.finish
  dsimp only at h
  split
  case isTrue hnone =>
    rw [if_pos hnone] at h
    exact agrees_returned h
  case isFalse hsome =>
    rw [if_neg hsome] at h
    exact agrees_returned h

private theorem agrees_enter {position : Nat} {d : Delivered}
    (h : serialReport data (serialFrom xxh data (decodeFrame xxh data position d)) =
      outcome) : Agrees setting data outcome (Stage.enter data position d : Stage xxh) := by
  unfold Stage.enter
  split
  case h_1 error hparse =>
    simp only [decodeFrame, hparse, serialFrom, serialReport] at h
    exact agrees_returned h
  case h_2 header hparse =>
  split
  case isFalse hmany =>
    simp only [decodeFrame, hparse, if_neg hmany, serialFrom, serialReport] at h
    exact agrees_returned h
  case isTrue hfew =>
    rw [decodeFrame_eq hparse hfew, decodeMode] at h
    split
    case h_1 hmode =>
      rw [hmode] at h
      exact .frame .refl h
    case h_2 hmode =>
      rw [hmode] at h
      exact agrees_resume h

private theorem agrees_turn {position : Nat} {d : Delivered}
    (h : serialReport data (decompressFramesFrom xxh data position d) = outcome) :
    Agrees setting data outcome (Stage.turn data position d : Stage xxh) := by
  unfold Stage.turn
  split
  case isFalse hend => exact agrees_finish hend h
  case isTrue hlt =>
  rw [decompressFramesFrom, dif_pos hlt] at h
  split
  case h_1 error hread =>
    rw [hread] at h
    exact agrees_returned h
  case h_2 magic hread =>
  rw [hread] at h
  dsimp only at h
  split
  case isTrue hskippable =>
    rw [if_pos hskippable] at h
    split at h
    case h_1 error hskip =>
      rw [hskip]
      exact agrees_returned h
    case h_2 next hskip =>
      rw [hskip]
      exact .frames h
  case isFalse hother =>
  rw [if_neg hother] at h
  split
  case isTrue hlegacy =>
    rw [if_pos hlegacy] at h
    exact agrees_returned h
  case isFalse hcurrent =>
  rw [if_neg hcurrent] at h
  split
  case isTrue hwrong =>
    rw [if_pos hwrong] at h
    exact agrees_returned h
  case isFalse hright =>
    rw [if_neg hright] at h
    apply agrees_enter
    split at h
    case h_1 d' error hframe =>
      rw [hframe]
      exact h
    case h_2 d' next hframe =>
      rw [hframe]
      exact h

private theorem Agrees.step {s t : Stage xxh} (agrees : Agrees setting data outcome s)
    (step : DecodeStep setting data s t) : Agrees setting data outcome t := by
  cases step with
  | blocks step =>
    cases agrees with
    | frame run serial => exact .frame (run.tail step) serial
  | own next =>
    cases agrees with
    | opened serial =>
      unfold decompressSerial at serial
      simp only [Stage.next] at next
      split at next
      case h_1 error hvalid =>
        rw [hvalid] at serial
        obtain rfl := Option.some.inj next
        exact agrees_returned serial
      case h_2 valid hvalid =>
        rw [hvalid] at serial
        obtain rfl := Option.some.inj next
        exact .frames serial
    | frames serial =>
      obtain rfl := Option.some.inj next
      exact agrees_turn serial
    | @frame d header inner run serial =>
      cases inner with
      | scanning | parallel => cases next
      | done result =>
        obtain rfl := Option.some.inj next
        rw [(independent_run run).1 result rfl]
        exact agrees_resume serial
    | returned => cases next

private theorem serialFrom_progress (r : Delivered × Result Nat) :
    r.1.progress <+: (serialFrom xxh data r).1.progress := by
  obtain ⟨d, error | position⟩ := r
  · exact List.prefix_refl _
  · exact decompressFramesFrom_progress position d

private theorem serialReport_progress (r : Delivered × Result Unit) :
    r.1.progress <+: (serialReport data r).1.progress := by
  obtain ⟨d, error | _⟩ := r
  · exact List.prefix_refl _
  · unfold serialReport
    dsimp only
    split
    · exact List.prefix_refl _
    · exact List.prefix_append _ _

private theorem Agrees.progress {s : Stage xxh} (agrees : Agrees setting data outcome s) :
    s.counted <+: outcome.1.progress := by
  cases agrees with
  | opened => exact List.nil_prefix
  | @frames position d serial =>
    rw [← serial]
    exact (decompressFramesFrom_progress position d).trans (serialReport_progress _)
  | @frame d header inner run serial =>
    rw [← serial]
    have hclose := @closeFrame_progress xxh data d header
      (decodeIndependentSerial data header header.blocksStart (committerOf xxh header d))
    exact ((independent_run run).2.trans hclose).trans
      ((serialFrom_progress _).trans (serialReport_progress _))
  | returned => exact List.prefix_refl _

/-- With any number of threads and under any schedule, what is returned is what one thread returns,
and what has been counted at any time is the beginning of what one thread counts. -/
theorem decoder_run {s : Stage xxh} (run : Reaches (DecodeStep setting data) .opened s) :
    (∀ d result, s = .returned d result → decompressSerial xxh data setting.options = (d, result)) ∧
      s.counted <+: (decompressSerial xxh data setting.options).1.progress := by
  have agrees : Agrees setting data (decompressSerial xxh data setting.options) s :=
    run.invariant (.opened rfl) fun _ _ agrees step => agrees.step step
  refine ⟨?_, agrees.progress⟩
  rintro d result rfl
  cases agrees with
  | returned => rfl

end Runs

section Schedule

variable {setting : Setting} {data : List UInt8}

/-- The decoder has returned. -/
def Stage.Returned (s : Stage xxh) : Prop := ∃ d result, s = .returned d result

private theorem resume_returns {position : Nat} {r : Delivered × Result Nat}
    (advances : ∀ d next, r = (d, .ok next) → position < next ∧ next ≤ data.length)
    (frames : ∀ next d, position < next ∧ next ≤ data.length →
      Inevitable (DecodeStep setting data) Stage.Returned (.frames next d : Stage xxh)) :
    Inevitable (DecodeStep setting data) Stage.Returned (Stage.resume r : Stage xxh) := by
  obtain ⟨d, error | next⟩ := r
  · exact .now ⟨d, _, rfl⟩
  · exact frames next d (advances d next rfl)

/-- The blocks of an independent frame come to an end, and with them the frame. -/
private theorem frame_returns {position : Nat} {d : Delivered} {header : FrameHeader}
    (threads : 0 < setting.threads) (parsed : parseFrameHeader xxh data position = .ok header)
    (few : d.frames.length < 2 ^ 32) (independent : header.mode = .independent)
    (frames : ∀ next d, position < next ∧ next ≤ data.length →
      Inevitable (DecodeStep setting data) Stage.Returned (.frames next d : Stage xxh)) :
    Inevitable (DecodeStep setting data) Stage.Returned
      (.frame d header (.scanning header.blocksStart (committerOf xxh header d))) := by
  have hinner : Inevitable (IndependentStep setting data header) (∃ outcome, · = .done outcome)
      (.scanning header.blocksStart (committerOf xxh header d)) := by
    apply (decodeIndependent_schedule setting data header header.blocksStart _ threads).mono
    intro s hs
    exact ⟨_, hs⟩
  apply hinner.embed (Stage.frame d header)
  · rintro inner run ⟨outcome, rfl⟩
    have houtcome := (independent_run run).1 outcome rfl
    refine .later ⟨_, .own rfl⟩ ?_
    intro t ht
    cases ht with
    | blocks step => cases step
    | own next =>
      obtain rfl := Option.some.inj next
      apply resume_returns ?_ frames
      intro d' next hclosed
      have hframe := decodeFrame_eq parsed few
      rw [decodeMode, independent] at hframe
      rw [houtcome] at hclosed
      exact decodeFrame_advances (hframe.trans hclosed)
  · intro inner inner' step
    exact .blocks step
  · intro inner v hrunning step
    cases step with
    | blocks step => exact ⟨_, step, rfl⟩
    | own next =>
      cases inner with
      | scanning | parallel => cases next
      | done outcome => exact absurd ⟨outcome, rfl⟩ hrunning

private theorem enter_returns {position : Nat} {d : Delivered} (threads : 0 < setting.threads)
    (frames : ∀ next d, position < next ∧ next ≤ data.length →
      Inevitable (DecodeStep setting data) Stage.Returned (.frames next d : Stage xxh)) :
    Inevitable (DecodeStep setting data) Stage.Returned (Stage.enter data position d : Stage xxh) := by
  unfold Stage.enter
  split
  case h_1 => exact .now ⟨d, _, rfl⟩
  case h_2 header hparse =>
  split
  case isFalse => exact .now ⟨d, _, rfl⟩
  case isTrue hfew =>
  split
  case h_1 hmode => exact frame_returns threads hparse hfew hmode frames
  case h_2 hmode =>
    apply resume_returns ?_ frames
    intro d' next hclosed
    have hframe := decodeFrame_eq hparse hfew
    rw [decodeMode, hmode] at hframe
    exact decodeFrame_advances (hframe.trans hclosed)

private theorem turn_returns {position : Nat} {d : Delivered} (threads : 0 < setting.threads)
    (frames : ∀ next d, position < next ∧ next ≤ data.length →
      Inevitable (DecodeStep setting data) Stage.Returned (.frames next d : Stage xxh)) :
    Inevitable (DecodeStep setting data) Stage.Returned (Stage.turn data position d : Stage xxh) := by
  unfold Stage.turn
  split
  case isFalse =>
    unfold Stage.finish
    split
    · exact .now ⟨d, _, rfl⟩
    · exact .now ⟨_, _, rfl⟩
  case isTrue =>
  split
  case h_1 => exact .now ⟨d, _, rfl⟩
  case h_2 magic _ =>
  split
  case isTrue =>
    split
    case h_1 => exact .now ⟨d, _, rfl⟩
    case h_2 next hskip => exact frames next d (skipFrame_advances hskip)
  case isFalse =>
  split
  case isTrue => exact .now ⟨d, _, rfl⟩
  case isFalse =>
  split
  case isTrue => exact .now ⟨d, _, rfl⟩
  case isFalse => exact enter_returns threads frames

private theorem frames_return (threads : 0 < setting.threads) (position : Nat) (d : Delivered) :
    Inevitable (DecodeStep setting data) Stage.Returned (.frames position d : Stage xxh) := by
  induction hleft : data.length - position using Nat.strongRecOn generalizing position d with
  | ind left ih =>
    refine .later ⟨_, .own rfl⟩ ?_
    intro t ht
    cases ht with
    | own next =>
      obtain rfl := Option.some.inj next
      apply turn_returns threads
      intro next d' hnext
      exact ih (data.length - next) (by omega) next d' rfl

/-- With any number of threads and under any schedule, the decoder returns, and returns what one
thread returns. -/
theorem decoder_schedule (setting : Setting) (data : List UInt8) (threads : 0 < setting.threads) :
    Inevitable (DecodeStep setting data)
      (· = .returned (decompressSerial xxh data setting.options).1
        (decompressSerial xxh data setting.options).2) (.opened : Stage xxh) := by
  have hreturns : Inevitable (DecodeStep setting data) Stage.Returned (.opened : Stage xxh) := by
    have hnext : ∃ t : Stage xxh, Stage.next setting.options data .opened = some t ∧
        Inevitable (DecodeStep setting data) Stage.Returned t := by
      unfold Stage.next
      dsimp only
      split
      · exact ⟨_, rfl, .now ⟨{}, _, rfl⟩⟩
      · exact ⟨_, rfl, frames_return threads 0 {}⟩
    obtain ⟨t, hopen, ht⟩ := hnext
    refine .later ⟨t, .own hopen⟩ ?_
    intro u hu
    cases hu with
    | own next =>
      obtain rfl := Option.some.inj (hopen.symm.trans next)
      exact ht
  apply hreturns.strengthen
  rintro s run ⟨d, result, rfl⟩
  rw [(decoder_run run).1 d result rfl]

end Schedule

end Fbz.Lz4
