import Fbz.Deflate.Layout
import Fbz.Progress

/-!
# The progress of the gzip decoder

One thread reports every block, several threads every segment that is put out, and the decoder every
member. What is reported never goes down, whatever the input and the schedule, and ends with the
lengths of the input and of the output.
-/

namespace Fbz.Deflate

open Ascending DeflateOutput Pipeline Transition

variable {crc : Crc32}

section Alone

variable {data : List UInt8} {member bit : Nat} {e e' : Emitter crc}

private theorem Emitter.replay_decodedBase {ops : List Op} (h : replay e ops = .ok e') :
    e'.decodedBase = e.decodedBase := by
  induction ops generalizing e with
  | nil => rw [Except.ok.inj h]
  | cons op ops ih =>
    rw [replay] at h
    split at h
    case h_1 => cases h
    case h_2 e1 hop => exact (ih h).trans (run_decodedBase hop)

private theorem Emitter.decodeBlock_counts {block : Block} {next : Nat}
    (h : decodeBlock data member bit e = .ok (e', block, next)) :
    e'.decodedBase = e.decodedBase ∧ totalDecoded e ≤ totalDecoded e' := by
  obtain ⟨t, _, -, hrun, -⟩ := blockTrace_of_ok e.counts h
  refine ⟨Emitter.replay_decodedBase hrun, ?_⟩
  rw [e.counts hrun]
  exact Nat.le_add_right _ _

private theorem deflateProgress_eq (data : List UInt8) (member bit : Nat) (e : Emitter crc) :
    deflateProgress data member bit e =
      match decodeBlock data member bit e with
      | .error _ => []
      | .ok (e, block, bit) =>
        ⟨(bit + 7) / 8, totalDecoded e⟩ ::
          if block.finalBlock then [] else deflateProgress data member bit e := by
  rw [deflateProgress]
  split <;> simp only [*]

/-- The calls for the blocks from `bit` on, whether or not they are all decoded. -/
theorem deflateProgress_ascends (data : List UInt8) (member bit : Nat) (e : Emitter crc)
    (inside : bit ≤ data.length * 8) :
    (∃ total, Ascends ⟨(bit + 7) / 8, totalDecoded e⟩ (deflateProgress data member bit e)
      (⟨data.length, total⟩ : DecodeProgress)) ∧
    ∀ blocks e' blocks' last, decodeDeflate data member bit blocks e = .ok (e', blocks', last) →
      e'.decodedBase = e.decodedBase ∧
        Ascends ⟨(bit + 7) / 8, totalDecoded e⟩ (deflateProgress data member bit e)
          (⟨(last + 7) / 8, totalDecoded e'⟩ : DecodeProgress) := by
  induction bit, e using @deflateProgress.induct (Emitter crc) _ data member with
  | case1 bit e error hblock =>
    rw [deflateProgress_eq, hblock]
    refine ⟨⟨totalDecoded e, ?_⟩, ?_⟩
    · constructor
      · dsimp only
        omega
      · exact Nat.le_refl _
    · intro blocks e' blocks' last h
      rw [decodeDeflate_eq, hblock] at h
      cases h
  | case2 bit e e1 block next hblock ih =>
    obtain ⟨hadvances, hinside⟩ := decodeBlock_advances hblock
    obtain ⟨hbase, hcounts⟩ := Emitter.decodeBlock_counts hblock
    have hcall : (⟨(bit + 7) / 8, totalDecoded e⟩ : DecodeProgress) ≤
        ⟨(next + 7) / 8, totalDecoded e1⟩ := by
      constructor
      · dsimp only
        omega
      · exact hcounts
    rw [deflateProgress_eq, hblock]
    cases hfinal : block.finalBlock with
    | true =>
      simp only [hfinal, if_true]
      refine ⟨⟨totalDecoded e1, hcall, ?_⟩, ?_⟩
      · constructor
        · dsimp only
          omega
        · exact Nat.le_refl _
      · intro blocks e' blocks' last h
        rw [decodeDeflate_eq, hblock] at h
        simp only [hfinal, if_true, Except.ok.injEq, Prod.mk.injEq] at h
        obtain ⟨rfl, -, rfl⟩ := h
        exact ⟨hbase, hcall, le_refl _⟩
    | false =>
      simp only [hfinal, Bool.false_eq_true, if_false]
      obtain ⟨⟨total, hascends⟩, haccepted⟩ := ih hinside
      refine ⟨⟨total, hcall, hascends⟩, ?_⟩
      intro blocks e' blocks' last h
      rw [decodeDeflate_eq, hblock] at h
      simp only [hfinal, Bool.false_eq_true, if_false] at h
      obtain ⟨hbase', hascends'⟩ := haccepted _ _ _ _ h
      exact ⟨hbase'.trans hbase, hcall, hascends'⟩

/-- What the calls of a stream come to, when it starts at this byte behind that many decoded ones. -/
structure Reported (data : List UInt8) (startByte base : Nat) (calls : List DecodeProgress)
    (outcome : Outcome) : Prop where
  ascends : ∃ total, Ascends ⟨startByte, base⟩ calls (⟨data.length, total⟩ : DecodeProgress)
  accepted : ∀ output report, outcome = .ok (output, report) →
    Ascends ⟨startByte, base⟩ calls
      (⟨(report.compressedEndBit + 7) / 8, base + report.decodedLen⟩ : DecodeProgress)

private theorem serial_reported {startByte : Nat} (inside : startByte ≤ data.length) (base : Nat) :
    Reported data startByte base (serialProgress crc data startByte member base)
      (decompressDeflateSerialStream crc data startByte member base) := by
  obtain ⟨⟨total, hascends⟩, haccepted⟩ := deflateProgress_ascends data member (startByte * 8)
    (Emitter.new base : Emitter crc) (Nat.mul_le_mul_right 8 inside)
  have hstart : (startByte * 8 + 7) / 8 = startByte := by omega
  rw [hstart] at hascends haccepted
  refine ⟨⟨total, hascends⟩, ?_⟩
  intro output report h
  obtain ⟨⟨emitter, blocks, last⟩, hdecode, heq⟩ := result_bind_eq_ok.mp h
  obtain ⟨-, rfl⟩ := Prod.mk.inj (Except.ok.inj heq)
  obtain ⟨hbase, hcalls⟩ := haccepted _ _ _ _ hdecode
  have htotal : totalDecoded emitter = base + emitter.memberDecoded := by
    change emitter.decodedBase + _ = _
    rw [hbase]
    rfl
  rw [htotal] at hcalls
  simp only [Emitter.flushPending_memberDecoded]
  exact hcalls

end Alone

section Segments

variable {data : List UInt8} {startBit bit member base : Nat} {fin : Bool}
  {segments : List (Segment crc)} {c : SegmentCommitter crc}

private theorem commit_ascends {segment : Segment crc} {c' : SegmentCommitter crc}
    {stopBit limit : Nat}
    {history : InitialHistory} {resolved : ResolvedSegment crc} {predecessor : List UInt8}
    (ascends : c.decodedBase = base ∧ Ascends ⟨(startBit + 7) / 8, base⟩ c.progress
      (⟨(bit + 7) / 8, base + c.decoded⟩ : DecodeProgress))
    (decoded : decodeSegment crc data bit stopBit history limit = .ok segment)
    (hresolve : resolveSegment segment predecessor = .ok resolved)
    (hcommit : c.commit resolved = .ok c') :
    c'.decodedBase = base ∧ Ascends ⟨(startBit + 7) / 8, base⟩ c'.progress
      (⟨(segment.endBit + 7) / 8, base + c'.decoded⟩ : DecodeProgress) := by
  obtain ⟨hbase, hascends⟩ := ascends
  obtain ⟨hadvances, -⟩ := decodeSegment_bounds decoded
  obtain ⟨-, rfl⟩ := (decodeSegment_valid decoded).commit hresolve hcommit
  refine ⟨hbase, ?_⟩
  dsimp only
  rw [hbase]
  apply hascends.snoc
  constructor
  · dsimp only
    omega
  · dsimp only
    omega

private theorem Chain.ascends (chain : Chain data startBit segments bit fin)
    (h : (SegmentCommitter.new member base).commitAll segments = .ok c) :
    c.decodedBase = base ∧ Ascends ⟨(startBit + 7) / 8, base⟩ c.progress
      (⟨(bit + 7) / 8, base + c.decoded⟩ : DecodeProgress) := by
  induction chain generalizing c with
  | @first stopBit limit segment decoded =>
    obtain ⟨resolved, hresolve, h⟩ := result_bind_eq_ok.mp h
    obtain ⟨c', hcommit, heq⟩ := result_bind_eq_ok.mp h
    obtain rfl := Except.ok.inj heq
    exact commit_ascends ⟨rfl, le_refl _⟩ decoded hresolve hcommit
  | @next segments bit stopBit limit segment front decoded ih =>
    rw [SegmentCommitter.commitAll_append] at h
    obtain ⟨c', hfront, h⟩ := result_bind_eq_ok.mp h
    obtain ⟨resolved, hresolve, h⟩ := result_bind_eq_ok.mp h
    obtain ⟨c'', hcommit, heq⟩ := result_bind_eq_ok.mp h
    obtain rfl := Except.ok.inj heq
    exact commit_ascends (ih hfront) decoded hresolve hcommit

end Segments

section Streams

variable {setting : Setting crc} {data input : List UInt8} {stream : DeflateStream}

private theorem InOrder.ascends {startByte member base : Nat} {cursor : Cursor crc}
    {submitted done queue}
    (inOrder : InOrder data (startByte * 8) member base cursor submitted done queue)
    (inside : startByte ≤ data.length) :
    ∃ total, Ascends ⟨startByte, base⟩ cursor.committer.progress
      (⟨data.length, total⟩ : DecodeProgress) := by
  have hstart : (startByte * 8 + 7) / 8 = startByte := by omega
  have hcommitted := inOrder.committed
  cases hdone : done using List.reverseRecOn with
  | nil =>
    subst hdone
    rw [← Except.ok.inj hcommitted]
    exact ⟨base, inside, Nat.le_refl _⟩
  | append_singleton front last =>
    subst hdone
    have hchain := inOrder.chain.upTo (List.append_assoc front [last] _)
    have hinside := hchain.inside
    obtain ⟨-, hascends⟩ := hchain.ascends hcommitted
    rw [hstart] at hascends
    refine ⟨_, hascends.mono ⟨?_, Nat.le_refl _⟩⟩
    dsimp only
    omega

private theorem InOrder.reported {startByte member base : Nat} {cursor : Cursor crc}
    {submitted done queue} {threads : Nat} {outcome : Outcome}
    (inOrder : InOrder data (startByte * 8) member base cursor submitted done queue)
    (inside : startByte ≤ data.length)
    (hdone : (coordinator data startByte threads).op cursor = .done outcome) :
    Reported data startByte base cursor.committer.progress outcome := by
  refine ⟨inOrder.ascends inside, ?_⟩
  rintro output report rfl
  cases hphase : cursor.phase with
  | head =>
    simp only [coordinator, hphase] at hdone
    split at hdone
    case isFalse => cases hdone
    case isTrue hfinal =>
    split at hdone
    case isTrue => cases hdone
    case isFalse hdrained =>
      have hqueue : queue = [] :=
        List.length_eq_zero_iff.mp (inOrder.outstanding ▸ not_not.mp hdrained)
      have hchain := inOrder.chain
      rw [hphase, hqueue] at hchain
      simp only [Phase.tasks, List.append_nil, List.map_nil] at hchain
      obtain ⟨-, hascends⟩ := hchain.ascends inOrder.committed
      obtain ⟨-, rfl⟩ := Prod.mk.inj (Except.ok.inj (Op.done.inj hdone))
      have hstart : (startByte * 8 + 7) / 8 = startByte := by omega
      rw [hstart] at hascends
      exact hascends
  | rejected | accepted | full | failed => simp [coordinator, hphase] at hdone
  | draining =>
    simp only [coordinator, hphase] at hdone
    split at hdone <;> cases hdone

private theorem Standing.ascends {s : StreamState crc} (bounds : streamData input stream = .ok data)
    (standing : Standing setting input stream s) (inside : stream.startByte ≤ data.length) :
    ∃ total, Ascends ⟨stream.startByte, stream.decodedBase⟩ s.progress
      (⟨data.length, total⟩ : DecodeProgress) := by
  have hnone : Ascends ⟨stream.startByte, stream.decodedBase⟩ []
      (⟨data.length, stream.decodedBase⟩ : DecodeProgress) := ⟨inside, Nat.le_refl _⟩
  cases standing with
  | opened | refused => exact ⟨_, hnone⟩
  | serial bounds' =>
    obtain rfl := Except.ok.inj (bounds.symm.trans bounds')
    exact (serial_reported inside stream.decodedBase).ascends
  | parallel bounds' first run | joined bounds' first run result =>
    obtain rfl := Except.ok.inj (bounds.symm.trans bounds')
    obtain ⟨⟨submitted, done, queue, inOrder⟩, -⟩ := program_inOrder first run
    exact inOrder.ascends inside

private theorem Standing.reported {calls : List DecodeProgress} {outcome : Outcome}
    (bounds : streamData input stream = .ok data)
    (standing : Standing setting input stream (.done calls outcome))
    (inside : stream.startByte ≤ data.length) :
    Reported data stream.startByte stream.decodedBase calls outcome := by
  generalize hstate : StreamState.done calls outcome = state at standing
  cases standing with
  | opened | parallel => cases hstate
  | refused =>
    obtain ⟨rfl, rfl⟩ := StreamState.done.inj hstate
    exact ⟨⟨stream.decodedBase, inside, Nat.le_refl _⟩, nofun⟩
  | serial bounds' =>
    obtain rfl := Except.ok.inj (bounds.symm.trans bounds')
    obtain ⟨rfl, rfl⟩ := StreamState.done.inj hstate
    exact serial_reported inside stream.decodedBase
  | joined bounds' first run result =>
    obtain rfl := Except.ok.inj (bounds.symm.trans bounds')
    obtain ⟨rfl, rfl⟩ := StreamState.done.inj hstate
    obtain ⟨⟨submitted, done, queue, inOrder⟩, hdone⟩ := program_inOrder first run
    exact inOrder.reported inside (hdone _ result)

end Streams

/-- What every run of the decoder keeps. -/
inductive Decoder.Climbing (setting : Setting crc) (data : List UInt8) : Decoder crc → Prop
  | opened : Climbing setting data .start
  | members {position : Nat} {d : Unpacked} {progress : List DecodeProgress}
      (climbs : Climbs progress position d.decodedTotal) (inside : position ≤ data.length)
      (fits : d.decodedTotal < 2 ^ 64) : Climbing setting data ⟨.members position d, progress⟩
  | stream {position : Nat} {d : Unpacked} {header : Header} {inner : StreamState crc}
      {progress : List DecodeProgress} (climbs : Climbs progress position d.decodedTotal)
      (parsed : parseHeader crc data position = .ok header)
      (standing : Standing setting data (d.stream data header) inner) :
      Climbing setting data ⟨.stream position d header inner, progress⟩
  | failed {error : Error} {progress : List DecodeProgress} {total : Nat}
      (climbs : Climbs progress data.length total) :
      Climbing setting data ⟨.returned (.error error), progress⟩
  | returned {output : List UInt8} {report : Report} {calls : List DecodeProgress}
      (climbs : Climbs calls data.length report.decodedLen) (fits : report.decodedLen < 2 ^ 64) :
      Climbing setting data
        ⟨.returned (.ok (output, report)), calls ++ [⟨data.length, report.decodedLen⟩]⟩

section Runs

variable {setting : Setting crc} {data : List UInt8} {position : Nat} {d : Unpacked}
  {header : Header} {progress : List DecodeProgress}

private theorem climbs_stream {inner : List DecodeProgress} {compressed decoded : Nat}
    (climbs : Climbs progress position d.decodedTotal)
    (parsed : parseHeader crc data position = .ok header)
    (ascends : Ascends ⟨(d.stream data header).startByte, (d.stream data header).decodedBase⟩ inner
      (⟨compressed, decoded⟩ : DecodeProgress)) :
    Climbs (progress ++ inner) compressed decoded := by
  have hnext := (parseHeader_next parsed).1
  have hfront : Climbs progress (d.stream data header).startByte
      (d.stream data header).decodedBase :=
    climbs.mono (Nat.le_of_add_right_le hnext) (Nat.le_refl _)
  exact Ascends.append hfront ascends

private theorem climbing_finish (climbs : Climbs progress position d.decodedTotal)
    (inside : position ≤ data.length) (fits : d.decodedTotal < 2 ^ 64) :
    Decoder.Climbing setting data (Decoder.finish data d progress) := by
  have hwhole : Climbs progress data.length d.decodedTotal := climbs.mono inside (Nat.le_refl _)
  unfold Decoder.finish
  split
  · exact .failed hwhole
  · exact @Decoder.Climbing.returned _ _ _ _ (d.report data) _ hwhole fits

private theorem climbing_turn (climbs : Climbs progress position d.decodedTotal)
    (inside : position ≤ data.length) (fits : d.decodedTotal < 2 ^ 64) :
    Decoder.Climbing setting data (Decoder.turn data position d progress) := by
  unfold Decoder.turn
  split
  case isFalse => exact climbing_finish climbs inside fits
  case isTrue =>
  split
  case isTrue => exact climbing_finish climbs inside fits
  case isFalse =>
  split
  case h_1 => exact .failed (climbs.mono inside (Nat.le_refl _))
  case h_2 header hopen => exact .stream climbs (openMember_eq_ok hopen) .opened

private theorem closeMember_fits {e : Unpacked} {output : List UInt8} {decoded : DeflateReport}
    {next : Nat} (h : closeMember data position d header output decoded = .ok (e, next)) :
    e.decodedTotal < 2 ^ 64 := by
  simp only [closeMember, result_bind_eq_ok, ensure_eq_ok] at h
  obtain ⟨_, -, _, -, _, -, _, hfits, heq⟩ := h
  obtain ⟨rfl, -⟩ := Prod.mk.inj (Except.ok.inj heq)
  exact hfits

private theorem climbing_close {calls : List DecodeProgress} {outcome : Outcome}
    (climbs : Climbs progress position d.decodedTotal)
    (parsed : parseHeader crc data position = .ok header)
    (standing : Standing setting data (d.stream data header) (.done calls outcome)) :
    Decoder.Climbing setting data
      (Decoder.close data position d header outcome (progress ++ calls)) := by
  obtain ⟨⟨total, hascends⟩, haccepted⟩ :=
    standing.reported (streamData_member parsed d) (parseHeader_next parsed).2
  have hfailed : Climbs (progress ++ calls) data.length total := climbs_stream climbs parsed hascends
  unfold Decoder.close
  split
  case h_1 => exact .failed hfailed
  case h_2 output decoded =>
  split
  case h_1 => exact .failed hfailed
  case h_2 e next hclose =>
    have hfits := closeMember_fits hclose
    obtain ⟨hnext, hinside, expectedCrc, rfl⟩ := closeMember_eq_ok hclose
    have hstream := climbs_stream climbs parsed (haccepted output decoded rfl)
    apply Decoder.Climbing.members ?_ hinside hfits
    apply hstream.call
    · omega
    · exact Nat.le_refl _

private theorem Decoder.Climbing.step {g g' : Decoder crc}
    (climbing : Decoder.Climbing setting data g)
    (step : DecodeStep setting data g g') : Decoder.Climbing setting data g' := by
  cases step with
  | stream step =>
    cases climbing with
    | stream climbs parsed standing => exact .stream climbs parsed (standing.step step)
  | own next =>
    cases climbing with
    | failed | returned => cases next
    | opened =>
      simp only [Decoder.next, Decoder.start] at next
      split at next
      case h_1 =>
        obtain rfl := Option.some.inj next
        exact .failed (climbs_nil data.length 0)
      case h_2 =>
        obtain rfl := Option.some.inj next
        exact .members (climbs_nil 0 0) (Nat.zero_le _) (by decide)
    | members climbs inside fits =>
      obtain rfl := Option.some.inj next
      exact climbing_turn climbs inside fits
    | @stream position d header inner progress climbs parsed standing =>
      cases inner with
      | opened | parallel => cases next
      | done calls outcome =>
        obtain rfl := Option.some.inj next
        exact climbing_close climbs parsed standing

private theorem Decoder.Climbing.orderly {g : Decoder crc}
    (climbing : Decoder.Climbing setting data g) : Orderly data g.counted := by
  cases climbing with
  | opened => exact (climbs_nil 0 0).orderly (Nat.zero_le _)
  | members climbs inside => exact climbs.orderly inside
  | stream climbs parsed standing =>
    obtain ⟨total, hascends⟩ :=
      standing.ascends (streamData_member parsed _) (parseHeader_next parsed).2
    exact (climbs_stream climbs parsed hascends).orderly (Nat.le_refl _)
  | failed climbs => exact climbs.orderly (Nat.le_refl _)
  | returned climbs =>
    exact (climbs.call (Nat.le_refl _) (Nat.le_refl _)).orderly (Nat.le_refl _)

/-- Whatever the input, with any number of threads and under any schedule, the compressed bytes never
go down and stay inside the input; nor do the decoded ones go down while a `u64` holds their counts.
It holds those of a run that is accepted, and they end with the lengths of input and output. -/
theorem decoder_progress {g : Decoder crc} (run : Reaches (DecodeStep setting data) .start g) :
    Advancing data g.reported ∧ (Fitting g.counted → Orderly data g.reported) ∧
      ∀ output report, g.stage = .returned (.ok (output, report)) →
        Orderly data g.reported ∧ g.reported.getLast? = some ⟨data.length, output.length⟩ := by
  have hclimbing : Decoder.Climbing setting data g :=
    run.invariant .opened fun _ _ climbing step => climbing.step step
  have horderly : Fitting g.counted → Orderly data g.reported := by
    intro fitting
    rw [Decoder.reported, fitting.wrapped]
    exact hclimbing.orderly
  refine ⟨hclimbing.orderly.advancing, horderly, ?_⟩
  intro output report hstage
  obtain ⟨stage, progress⟩ := g
  obtain rfl : stage = _ := hstage
  have hlen := (decoder_exact run).decodedLen
  cases hclimbing with
  | returned climbs fits =>
    have hfitting := (climbs.call (Nat.le_refl _) (Nat.le_refl _)).fitting fits
    refine ⟨horderly hfitting, ?_⟩
    rw [Decoder.reported, Decoder.counted, Fitting.wrapped hfitting,
      List.getLast?_append_of_ne_nil _ (by simp), hlen]
    rfl

end Runs

end Fbz.Deflate
