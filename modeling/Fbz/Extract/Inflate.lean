import Fbz.Deflate.Decoder
import Fbz.Deflate.Determined

/-!
# Inflating an entry

Raw DEFLATE data into a sink that refuses more bytes than were declared, on one thread or with a
pipeline of workers. What the call comes to does not depend on their schedule: it always fails in
the same way, returns the same bytes, or never returns.
-/

namespace Fbz.Extract

open Deflate DeflateOutput Pipeline Transition

variable {crc : Crc32}

def exceedsError (expected : Nat) : Error :=
  .io ⟨.invalidData, "ZIP entry exceeds its declared " ++ toString expected ++ "-byte size"⟩

/-- The emitter of the serial decoder over an `ExpectedOutput`. -/
structure ExpectedEmitter (crc : Crc32) where
  emitter : Emitter crc
  expected : Nat

namespace ExpectedEmitter

/-- `ExpectedOutput::check`, once the emitter has handed on what it had pending. -/
def check (expected : Nat) (emitter : Emitter crc) : Result (ExpectedEmitter crc) := do
  ensure (emitter.output.length ≤ expected) (exceedsError expected)
  return ⟨emitter, expected⟩

def run (e : ExpectedEmitter crc) (op : Op) : Result (ExpectedEmitter crc) := do
  check e.expected (← op.run e.emitter)

instance : DeflateOutput (ExpectedEmitter crc) where
  totalDecoded e := totalDecoded e.emitter
  emit e byte := e.run (.emit byte)
  extend e bytes := e.run (.extend bytes)
  copy e distance length := e.run (.copy distance length)

end ExpectedEmitter

/-- The stream of raw DEFLATE data. -/
def wholeStream (data : List UInt8) : DeflateStream := ⟨0, data.length, 0, 0⟩

variable (crc) in
/-- `decompress_deflate_serial_stream` into an `ExpectedOutput`. -/
def inflateSerial (data : List UInt8) (expected : Nat) : Outcome := do
  let (e, blocks, compressedEndBit) ←
    decodeDeflate data 0 0 [] (⟨Emitter.new 0, expected⟩ : ExpectedEmitter crc)
  let e ← ExpectedEmitter.check expected e.emitter.flushPending
  return (e.emitter.output,
    { sourceLen := data.length, compressedEndBit, decodedLen := e.emitter.memberDecoded
      crc := crc.finalize e.emitter.hasher, blocks, speculativeChunks := 0, fallbackChunks := 0 })

/-- What `decompress_deflate_to_sink_with_options_and_progress` does behind the stream. -/
def closeStream (data : List UInt8) (outcome : Outcome) : Outcome := do
  let (output, report) ← outcome
  ensure ((report.compressedEndBit + 7) / 8 = data.length)
    (invalidBit report.compressedEndBit "trailing data after final DEFLATE block")
  return (output, report)

/-- Where `decompress_deflate_to_sink_with_options_and_progress` stands. -/
inductive Inflation (crc : Crc32)
  | opened
  | parallel (s : Pipeline.State (Result (Segment crc)) (ResolveTask crc)
      (Result (ResolvedSegment crc)) Outcome (Cursor crc))
  | done (outcome : Outcome)

def Inflation.Ended (i : Inflation crc) : Prop := ∃ outcome, i = .done outcome

/-- The `ExpectedOutput` under a pipeline: the coordinator's commit fails, and with it the call,
when it has been given more than is declared. -/
def Inflation.sink (expected : Nat)
    (s : Pipeline.State (Result (Segment crc)) (ResolveTask crc) (Result (ResolvedSegment crc))
      Outcome (Cursor crc)) : Inflation crc :=
  if s.consumer.committer.output.length ≤ expected then .parallel s
  else .done (.error (exceedsError expected))

/-- The program of the pipeline for these data. -/
abbrev inflateProgram (setting : Setting crc) (data : List UInt8) :
    Program GzipJob (Result (Segment crc)) (ResolveTask crc) (Result (ResolvedSegment crc)) Outcome
      (Cursor crc) :=
  streamProgram setting data 0 (setting.threads (wholeStream data))

/-- The steps of the call, `decompress_deflate_stream` among them; those of the pipeline interleave
freely. -/
inductive InflateStep (setting : Setting crc) (data : List UInt8) (expected : Nat) :
    Inflation crc → Inflation crc → Prop
  | refuse {error} (invalid : setting.options.validate = .error error) :
      InflateStep setting data expected .opened (.done (.error error))
  | serial {options} (valid : setting.options.validate = .ok options)
      (single : setting.threads (wholeStream data) = 1) :
      InflateStep setting data expected .opened
        (.done (closeStream data (inflateSerial crc data expected)))
  | giveUp {options error} (valid : setting.options.validate = .ok options)
      (many : setting.threads (wholeStream data) ≠ 1)
      (initial : (initialSegment data (wholeStream data) : Result (Segment crc)) = .error error) :
      InflateStep setting data expected .opened
        (.done (closeStream data (inflateSerial crc data expected)))
  | reserve {options segment} (valid : setting.options.validate = .ok options)
      (many : setting.threads (wholeStream data) ≠ 1)
      (initial : (initialSegment data (wholeStream data) : Result (Segment crc)) = .ok segment)
      (large : (inflateProgram setting data).admissible = false) :
      InflateStep setting data expected .opened (.done (.error reservationError))
  | spawn {options segment} (valid : setting.options.validate = .ok options)
      (many : setting.threads (wholeStream data) ≠ 1)
      (initial : (initialSegment data (wholeStream data) : Result (Segment crc)) = .ok segment)
      (admissible : (inflateProgram setting data).admissible = true) :
      InflateStep setting data expected .opened
        (.sink expected (pipelineStart setting data (wholeStream data) segment))
  | run {s t} (step : (inflateProgram setting data).Step s t) :
      InflateStep setting data expected (.parallel s) (.sink expected t)
  | join {s r} (returned : Program.Returned s) (result : s.finished = some r) :
      InflateStep setting data expected (.parallel s) (.done (closeStream data r))

section Serial

variable {data : List UInt8} {expected bit next member : Nat} {e e' : ExpectedEmitter crc}

private theorem ExpectedEmitter.run_eq_ok {op : Op} (h : op.run e = .ok e') :
    op.run e.emitter = .ok e'.emitter := by
  have hrun : e.run op = .ok e' := by cases op <;> exact h
  obtain ⟨emitter, hemitter, hcheck⟩ := result_bind_eq_ok.mp hrun
  obtain ⟨_, -, heq⟩ := result_bind_eq_ok.mp hcheck
  obtain rfl := Except.ok.inj heq
  exact hemitter

private theorem ExpectedEmitter.replay_eq_ok {ops : List Op} (h : replay e ops = .ok e') :
    replay e.emitter ops = .ok e'.emitter := by
  induction ops generalizing e with
  | nil =>
    obtain rfl := Except.ok.inj h
    rfl
  | cons op ops ih =>
    rw [replay] at h
    cases hop : op.run e with
    | error error =>
      rw [hop] at h
      cases h
    | ok next =>
      rw [hop] at h
      rw [replay, run_eq_ok hop]
      exact ih h

private theorem ExpectedEmitter.counts (e : ExpectedEmitter crc) : Counts e :=
  fun h => e.emitter.counts (replay_eq_ok h)

private theorem decodeBlock_unlimited {block : Block}
    (h : decodeBlock data member bit e = .ok (e', block, next)) :
    decodeBlock data member bit e.emitter = .ok (e'.emitter, block, next) := by
  obtain ⟨t, block', htrace, hreplay, rfl⟩ := blockTrace_of_ok e.counts h
  rw [decodeBlock_of_trace member e.emitter.counts htrace, ExpectedEmitter.replay_eq_ok hreplay]
  rfl

private theorem decodeDeflate_unlimited {blocks blocks' : List Block}
    (h : decodeDeflate data member bit blocks e = .ok (e', blocks', next)) :
    decodeDeflate data member bit blocks e.emitter = .ok (e'.emitter, blocks', next) := by
  induction bit, blocks, e using @decodeDeflate.induct (ExpectedEmitter crc) _ data member with
  | case1 bit blocks e error hblock =>
    rw [decodeDeflate_eq, hblock] at h
    cases h
  | case2 bit blocks e e₁ block after hblock hfinal =>
    rw [decodeDeflate_eq, hblock] at h
    rw [decodeDeflate_eq, decodeBlock_unlimited hblock]
    simp only [hfinal, if_true, Except.ok.injEq, Prod.mk.injEq] at h ⊢
    obtain ⟨rfl, hblocks, hnext⟩ := h
    exact ⟨rfl, hblocks, hnext⟩
  | case3 bit blocks e e₁ block after hblock hfinal ih =>
    rw [decodeDeflate_eq, hblock] at h
    rw [decodeDeflate_eq, decodeBlock_unlimited hblock]
    simp only [hfinal, Bool.false_eq_true, if_false] at h ⊢
    exact ih h

private theorem inflateSerial_eq_ok {found : List UInt8 × DeflateReport}
    (h : inflateSerial crc data expected = .ok found) :
    decompressDeflateSerialStream crc data 0 0 0 = .ok found := by
  obtain ⟨⟨e, blocks, last⟩, hdecode, h⟩ := result_bind_eq_ok.mp h
  obtain ⟨e', hcheck, heq⟩ := result_bind_eq_ok.mp h
  obtain rfl := Except.ok.inj heq
  obtain ⟨_, -, heq⟩ := result_bind_eq_ok.mp hcheck
  obtain rfl := Except.ok.inj heq
  rw [decompressDeflateSerialStream, Nat.zero_mul, decodeDeflate_unlimited hdecode]
  rfl

end Serial

section Pipelines

variable {setting : Setting crc} {data : List UInt8} {expected : Nat} {segment : Segment crc}

/-- What the pipeline of a call comes to, said of its coordinator alone. -/
inductive PipelineEnds (setting : Setting crc) (data : List UInt8) (expected : Nat)
    (segment : Segment crc) : Outcome → Prop
  | exceeded {g} (run : Reaches (inflateProgram setting data).Follows
        ⟨Cursor.start segment 0 0, [], [], [], []⟩ g)
      (exceeds : expected < g.consumer.committer.output.length) :
      PipelineEnds setting data expected segment (.error (exceedsError expected))
  | joined {g r} (run : Reaches (inflateProgram setting data).Follows
        ⟨Cursor.start segment 0 0, [], [], [], []⟩ g)
      (within : g.consumer.committer.output.length ≤ expected)
      (done : (inflateProgram setting data).consumer.op g.consumer = .done r) :
      PipelineEnds setting data expected segment (closeStream data r)

private theorem wholeStream_bounds (data : List UInt8) : streamData data
    (wholeStream data) = .ok data :=
  streamData_all rfl rfl

private theorem inflate_determined
    (initial : (initialSegment data (wholeStream data) : Result (Segment crc)) = .ok segment) :
    Determined (inflateProgram setting data).Follows ⟨Cursor.start segment 0 0, [], [], [], []⟩ := by
  rw [initialSegment_eq (wholeStream_bounds data)] at initial
  exact coordinator_determined initial

private theorem output_le_last {g g'}
    (initial : (initialSegment data (wholeStream data) : Result (Segment crc)) = .ok segment)
    (run : Reaches (inflateProgram setting data).Follows
      ⟨Cursor.start segment 0 0, [], [], [], []⟩ g)
    (full : Reaches (inflateProgram setting data).Follows
      ⟨Cursor.start segment 0 0, [], [], [], []⟩ g')
    (last : ∀ g₁, ¬ (inflateProgram setting data).Follows g' g₁) :
    g.consumer.committer.output.length ≤ g'.consumer.committer.output.length :=
  reaches_output ((inflate_determined initial).goes_on run full last)

private theorem PipelineEnds.unique {outcome outcome' : Outcome}
    (initial : (initialSegment data (wholeStream data) : Result (Segment crc)) = .ok segment)
    (ends : PipelineEnds setting data expected segment outcome)
    (ends' : PipelineEnds setting data expected segment outcome') : outcome = outcome' := by
  cases ends with
  | exceeded run exceeds =>
    cases ends' with
    | exceeded => rfl
    | joined run' within done =>
      have := output_le_last initial run run' fun _ => Program.Follows.not_done done
      omega
  | joined run within done =>
    cases ends' with
    | exceeded run' exceeds =>
      have := output_le_last initial run' run fun _ => Program.Follows.not_done done
      omega
    | joined run' within' done' =>
      obtain rfl := (inflate_determined initial).last_unique
        run (fun _ => Program.Follows.not_done done)
        run' (fun _ => Program.Follows.not_done done')
      obtain rfl := Op.done.inj (done.symm.trans done')
      rfl

end Pipelines

/-- How a call stands, under every schedule of its workers. -/
inductive Inflates (setting : Setting crc) (data : List UInt8) (expected : Nat) :
    Inflation crc → Prop
  | opened : Inflates setting data expected .opened
  | refused {error} (invalid : setting.options.validate = .error error) :
      Inflates setting data expected (.done (.error error))
  | serial {options} (valid : setting.options.validate = .ok options)
      (alone : setting.threads (wholeStream data) = 1 ∨ ∃ error,
        (initialSegment data (wholeStream data) : Result (Segment crc)) = .error error) :
      Inflates setting data expected (.done (closeStream data (inflateSerial crc data expected)))
  | parallel {options segment s} (valid : setting.options.validate = .ok options)
      (many : setting.threads (wholeStream data) ≠ 1)
      (initial : (initialSegment data (wholeStream data) : Result (Segment crc)) = .ok segment)
      (run : Reaches (inflateProgram setting data).Step
        (pipelineStart setting data (wholeStream data) segment) s)
      (within : s.consumer.committer.output.length ≤ expected) :
      Inflates setting data expected (.parallel s)
  | ended {options segment outcome} (valid : setting.options.validate = .ok options)
      (many : setting.threads (wholeStream data) ≠ 1)
      (initial : (initialSegment data (wholeStream data) : Result (Segment crc)) = .ok segment)
      (ends : PipelineEnds setting data expected segment outcome) :
      Inflates setting data expected (.done outcome)

section Runs

variable {setting : Setting crc} {data : List UInt8} {expected : Nat} {i i' : Inflation crc}

private theorem Inflates.sink {options segment s} (valid : setting.options.validate = .ok options)
    (many : setting.threads (wholeStream data) ≠ 1)
    (initial : (initialSegment data (wholeStream data) : Result (Segment crc)) = .ok segment)
    (run : Reaches (inflateProgram setting data).Step
      (pipelineStart setting data (wholeStream data) segment) s) :
    Inflates setting data expected (.sink expected s) := by
  unfold Inflation.sink
  split
  case isTrue within => exact .parallel valid many initial run within
  case isFalse exceeds =>
    obtain ⟨⟨g, halone, hsame⟩, -⟩ := Program.reachable_consumer _ run
    rw [← hsame] at exceeds
    exact .ended valid many initial (.exceeded halone (Nat.lt_of_not_le exceeds))

private theorem Inflates.step (inflates : Inflates setting data expected i)
    (step : InflateStep setting data expected i i') : Inflates setting data expected i' := by
  cases step with
  | refuse invalid => exact .refused invalid
  | serial valid single => exact .serial valid (.inl single)
  | giveUp valid many initial => exact .serial valid (.inr ⟨_, initial⟩)
  | reserve valid many initial large =>
    rw [streamProgram_admissible (Setting.room many)] at large
    cases large
  | spawn valid many initial admissible => exact .sink valid many initial .refl
  | run step =>
    cases inflates with
    | parallel valid many initial run within => exact .sink valid many initial (run.tail step)
  | join returned result =>
    cases inflates with
    | parallel valid many initial run within =>
      obtain ⟨⟨g, halone, hsame⟩, hdone⟩ := Program.reachable_consumer _ run
      rw [← hsame] at within hdone
      exact .ended valid many initial (.joined halone within (hdone _ result))

theorem inflates_of_run (run : Reaches (InflateStep setting data expected) .opened i) :
    Inflates setting data expected i :=
  run.invariant .opened fun _ _ inflates step => inflates.step step

/-- Whatever the schedule, the call comes to the same end. -/
theorem Inflates.unique {outcome outcome' : Outcome}
    (inflates : Inflates setting data expected (.done outcome))
    (inflates' : Inflates setting data expected (.done outcome')) : outcome = outcome' := by
  cases inflates with
  | refused invalid =>
    cases inflates' with
    | refused invalid' =>
      rw [Except.error.inj (invalid.symm.trans invalid')]
    | serial valid | ended valid => cases invalid.symm.trans valid
  | serial valid alone =>
    cases inflates' with
    | refused invalid => cases invalid.symm.trans valid
    | serial => rfl
    | ended _ many initial =>
      obtain single | ⟨error, hfails⟩ := alone
      · exact absurd single many
      · cases hfails.symm.trans initial
  | ended valid many initial ends =>
    cases inflates' with
    | refused invalid => cases invalid.symm.trans valid
    | serial _ alone =>
      obtain single | ⟨error, hfails⟩ := alone
      · exact absurd single many
      · cases hfails.symm.trans initial
    | ended _ _ initial' ends' =>
      obtain rfl := Except.ok.inj (initial.symm.trans initial')
      exact ends.unique initial ends'

private theorem closeStream_eq_ok {outcome : Outcome} {output : List UInt8} {report : DeflateReport}
    (h : closeStream data outcome = .ok (output, report)) :
    outcome = .ok (output, report) ∧ (report.compressedEndBit + 7) / 8 = data.length := by
  obtain ⟨⟨output', report'⟩, houtcome, h⟩ := result_bind_eq_ok.mp h
  obtain ⟨_, hend, heq⟩ := result_bind_eq_ok.mp h
  obtain ⟨rfl, rfl⟩ := Prod.mk.inj (Except.ok.inj heq)
  exact ⟨houtcome, ensure_eq_ok.mp hend⟩

private theorem PipelineEnds.decodes {segment : Segment crc} {outcome : Outcome}
    {output : List UInt8} {report : DeflateReport}
    (initial : (initialSegment data (wholeStream data) : Result (Segment crc)) = .ok segment)
    (ends : PipelineEnds setting data expected segment outcome)
    (accepts : outcome = .ok (output, report)) :
    Decodes crc data (wholeStream data) output report ∧
      (report.compressedEndBit + 7) / 8 = data.length := by
  cases ends with
  | exceeded => cases accepts
  | joined run within done =>
    obtain ⟨rfl, hend⟩ := closeStream_eq_ok accepts
    rw [initialSegment_eq (wholeStream_bounds data)] at initial
    obtain ⟨finished, queue, inOrder⟩ := reaches_inOrder initial run
    exact ⟨inOrder.decodes done, hend⟩

/-- The bytes a call returns are what the data decode to, behind the whole history, up to their end. -/
theorem Inflates.decodes {output : List UInt8} {report : DeflateReport}
    (inflates : Inflates setting data expected (.done (.ok (output, report)))) :
    (∃ blocks last, decodeDeflate data 0 0 [] ({} : History) = .ok (⟨output⟩, blocks, last) ∧
      (last + 7) / 8 = data.length) ∧
      report.decodedLen = output.length ∧ report.crc = crc.hash output := by
  have hdecodes : Decodes crc data (wholeStream data) output report ∧
      (report.compressedEndBit + 7) / 8 = data.length := by
    generalize hstate : Inflation.done (.ok (output, report)) = state at inflates
    cases inflates with
    | opened | parallel | refused => simp at hstate
    | serial =>
      obtain ⟨hserial, hend⟩ := closeStream_eq_ok (Inflation.done.inj hstate).symm
      exact ⟨serialStream_decodes (inflateSerial_eq_ok hserial), hend⟩
    | ended _ _ initial ends => exact ends.decodes initial (Inflation.done.inj hstate).symm
  obtain ⟨⟨⟨last, blocks, hpasses, -, hlast⟩, hlength, hhash⟩, hend⟩ := hdecodes
  have hresume := hpasses.resume
  rw [if_pos rfl] at hresume
  exact ⟨⟨blocks, last, hresume, hlast.symm.trans hend⟩, hlength, hhash⟩

end Runs

section Ends

variable {setting : Setting crc} {data : List UInt8} {expected : Nat} {i i' : Inflation crc}

/-- Steps still to come, at most. -/
def Inflation.measure (setting : Setting crc) (data : List UInt8) : Inflation crc → Nat
  | .opened =>
    match (initialSegment data (wholeStream data) : Result (Segment crc)) with
    | .ok segment => (inflateProgram setting data).measure (Cursor.rank data)
        (pipelineStart setting data (wholeStream data) segment) + 2
    | .error _ => 1
  | .parallel s => (inflateProgram setting data).measure (Cursor.rank data) s + 1
  | .done _ => 0

private theorem Inflation.measure_sink (s) : (Inflation.sink expected s).measure setting data ≤
    (inflateProgram setting data).measure (Cursor.rank data) s + 1 := by
  unfold Inflation.sink
  split
  · exact Nat.le_refl _
  · exact Nat.zero_le _

private theorem Inflation.measure_opened : 0 <
    (Inflation.opened : Inflation crc).measure setting data := by
  rw [Inflation.measure]
  cases (initialSegment data (wholeStream data) : Result (Segment crc)) with
  | error error => exact Nat.one_pos
  | ok segment => exact Nat.succ_pos _

private theorem inflate_fed {segment : Segment crc} (many : setting.threads (wholeStream data) ≠ 1)
    (initial : (initialSegment data (wholeStream data) : Result (Segment crc)) = .ok segment) :
    (inflateProgram setting data).Fed (Cursor.start segment 0 0) (Cursor.rank data) := by
  rw [initialSegment_eq (wholeStream_bounds data)] at initial
  exact streamProgram_fed initial (Setting.room many)

theorem Inflates.shrinks (inflates : Inflates setting data expected i)
    (step : InflateStep setting data expected i i') :
    i'.measure setting data < i.measure setting data := by
  cases step with
  | refuse | serial | giveUp | reserve => exact Inflation.measure_opened
  | spawn valid many initial admissible =>
    apply Nat.lt_of_le_of_lt (Inflation.measure_sink _)
    rw [Inflation.measure, initial]
    exact Nat.lt_succ_self _
  | run step =>
    cases inflates with
    | parallel valid many initial run within =>
      apply Nat.lt_of_le_of_lt (Inflation.measure_sink _)
      exact Nat.succ_lt_succ ((inflate_fed many initial).measure_lt run step)
  | join => exact Nat.succ_pos _

private theorem Inflates.progress (threads : 0 < setting.threads (wholeStream data))
    (inflates : Inflates setting data expected i) (running : ¬ i.Ended)
    (legal : ∀ s, i = .parallel s → s.finished = none → (inflateProgram setting data).Legal s.ledger) :
    ∃ i', InflateStep setting data expected i i' := by
  cases inflates with
  | opened =>
    cases valid : setting.options.validate with
    | error error => exact ⟨_, .refuse valid⟩
    | ok options =>
      by_cases single : setting.threads (wholeStream data) = 1
      · exact ⟨_, .serial valid single⟩
      · cases initial : (initialSegment data (wholeStream data) : Result (Segment crc)) with
        | error error => exact ⟨_, .giveUp valid single initial⟩
        | ok segment =>
          exact ⟨_, .spawn valid single initial (streamProgram_admissible (Setting.room single))⟩
  | refused | serial | ended => exact absurd ⟨_, rfl⟩ running
  | @parallel options segment s valid many initial run within =>
    by_cases returned : Program.Returned s
    · obtain ⟨result, hresult⟩ := Option.ne_none_iff_exists'.mp returned.1
      exact ⟨_, .join returned hresult⟩
    · obtain ⟨t, step⟩ := (inflate_fed many initial).progress threads run returned (legal s rfl)
      exact ⟨_, .run step⟩

private theorem Inflates.legal {outcome : Outcome} {s}
    (comes : Inflates setting data expected (.done outcome))
    (inflates : Inflates setting data expected (.parallel s)) (running : s.finished = none) :
    (inflateProgram setting data).Legal s.ledger := by
  cases inflates with
  | parallel valid many initial run within =>
    by_contra illegal
    have halone := (Program.reachable_invariant _ run).explained.running running
    have hlast : ∀ g, ¬ (inflateProgram setting data).Follows s.ledger g := by
      intro g
      have hdecoded := initial
      rw [initialSegment_eq (wholeStream_bounds data)] at hdecoded
      exact (reaches_keepsKeys hdecoded halone).last_of_illegal illegal
    cases comes with
    | refused invalid => cases invalid.symm.trans valid
    | serial _ alone =>
      obtain single | ⟨error, hfails⟩ := alone
      · exact absurd single many
      · cases hfails.symm.trans initial
    | ended _ _ initial' ends =>
      obtain rfl := Except.ok.inj (initial.symm.trans initial')
      cases ends with
      | exceeded run' exceeds =>
        have hle := output_le_last initial run' halone hlast
        exact absurd (Nat.lt_of_lt_of_le exceeds hle) (Nat.not_lt.mpr within)
      | joined run' within' done =>
        obtain rfl := (inflate_determined initial).last_unique
          run' (fun _ => Program.Follows.not_done done) halone hlast
        exact illegal (Program.legal_done done)

theorem inflation_ends (threads : 0 < setting.threads (wholeStream data)) {outcome : Outcome}
    (run : Reaches (InflateStep setting data expected) .opened (.done outcome)) :
    Inevitable (InflateStep setting data expected) Inflation.Ended .opened := by
  have comes := inflates_of_run run
  refine Inevitable.of_measure (I := Inflates setting data expected)
    (Inflation.measure setting data) (fun _ _ inflates step => inflates.step step)
    (fun _ _ inflates step => inflates.shrinks step) (fun i inflates running => ?_) .opened
  apply inflates.progress threads running
  rintro s rfl unfinished
  exact comes.legal inflates unfinished

theorem inflation_ends_of_lasts (threads : 0 < setting.threads (wholeStream data))
    (lasts : setting.threads (wholeStream data) = 1 ∨
      ¬ RunsDry crc data 0 (setting.threads (wholeStream data))) :
    Inevitable (InflateStep setting data expected) Inflation.Ended .opened := by
  refine Inevitable.of_measure (I := Inflates setting data expected)
    (Inflation.measure setting data) (fun _ _ inflates step => inflates.step step)
    (fun _ _ inflates step => inflates.shrinks step) (fun i inflates running => ?_) .opened
  apply inflates.progress threads running
  rintro s rfl unfinished
  cases inflates with
  | parallel valid many initial run within =>
    exact legal_of_run threads (wholeStream_bounds data) initial (lasts.resolve_left many) run
      unfinished

end Ends

end Fbz.Extract
