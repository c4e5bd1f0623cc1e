import Fbz.Deflate.HeldBack
import Fbz.Pipeline.Panics

/-!
# Every schedule of a stream

Unless the data of a stream runs dry, its coordinator waits only for what is on its way, and every
run of the stream ends.
-/

namespace Fbz.Deflate

open Pipeline Transition

variable {crc : Crc32} {setting : Setting crc} {input data : List UInt8} {stream : DeflateStream}

/-- The call has come back. -/
def StreamState.Ended (s : StreamState crc) : Prop := ∃ progress outcome, s = .done progress outcome

theorem Setting.room (many : setting.threads stream ≠ 1) :
    parallelJobMemory ≤ setting.options.memoryLimit := by
  by_contra hsmall
  apply many
  rw [Setting.threads, if_pos (.inr (Nat.lt_of_not_le hsmall))]

theorem streamProgram_admissible {startByte threads : Nat}
    (room : parallelJobMemory ≤ setting.options.memoryLimit) :
    (streamProgram setting data startByte threads).admissible = true := by
  apply List.all_eq_true.mpr
  intro job hmem
  obtain ⟨key, -, rfl⟩ := mem_streamJobs.mp hmem
  apply decide_eq_true
  apply Nat.le_min_of_le_of_le room
  exact Nat.le_mul_of_pos_right _ (Nat.succ_pos _)

section Runs

variable {initial : Segment crc}

/-- The pipeline of a stream, with its first segment. -/
abbrev pipelineStart (setting : Setting crc) (data : List UInt8) (stream : DeflateStream)
    (initial : Segment crc) :
    Pipeline.State (Result (Segment crc)) (ResolveTask crc) (Result (ResolvedSegment crc)) Outcome
      (Cursor crc) :=
  (streamProgram setting data stream.startByte (setting.threads stream)).init
    (setting.threads stream) (Cursor.start initial stream.member stream.decodedBase)

private theorem keepsKeys_of_run (bounds : streamData input stream = .ok data)
    (first : (initialSegment data stream : Result (Segment crc)) = .ok initial) {s}
    (run : Reaches (streamProgram setting data stream.startByte (setting.threads stream)).Step
      (pipelineStart setting data stream initial) s) (running : s.finished = none) :
    KeepsKeys data stream.startByte s.ledger := by
  have halone := ((streamProgram setting data stream.startByte
    (setting.threads stream)).reachable_invariant run).explained.running running
  rw [initialSegment_eq bounds] at first
  exact reaches_keepsKeys first halone

/-- Where the data does not run dry, the coordinator asks only for what there is. -/
theorem legal_of_run (threads : 0 < setting.threads stream)
    (bounds : streamData input stream = .ok data)
    (first : (initialSegment data stream : Result (Segment crc)) = .ok initial)
    (lasts : ¬ RunsDry crc data stream.startByte (setting.threads stream)) {s}
    (run : Reaches (streamProgram setting data stream.startByte (setting.threads stream)).Step
      (pipelineStart setting data stream initial) s) (running : s.finished = none) :
    (streamProgram setting data stream.startByte (setting.threads stream)).Legal s.ledger := by
  obtain ⟨error, hfailed⟩ | keyed := keepsKeys_of_run bounds first run running
  · exact Program.legal_done (failed_op hfailed)
  · rw [keyed.legal_iff]
    intro head unfinished
    by_contra missing
    have halone := (Program.reachable_invariant _ run).explained.running running
    rw [initialSegment_eq bounds] at first
    obtain ⟨error, hfailed⟩ | ⟨done, queue, holding⟩ := reaches_keepsHold threads first halone
    · rw [head] at hfailed
      cases hfailed
    · exact lasts (holding.dry head unfinished missing)

theorem pipeline_returns_or_illegal (threads : 0 < setting.threads stream)
    (many : setting.threads stream ≠ 1) (bounds : streamData input stream = .ok data)
    (first : (initialSegment data stream : Result (Segment crc)) = .ok initial) :
    Inevitable (streamProgram setting data stream.startByte (setting.threads stream)).Step
      (fun s => Program.Returned s ∨ s.finished = none ∧
        ¬ (streamProgram setting data stream.startByte (setting.threads stream)).Legal s.ledger)
      (pipelineStart setting data stream initial) := by
  rw [initialSegment_eq bounds] at first
  exact (streamProgram_fed first (Setting.room many)).returns_or_illegal threads

theorem pipeline_returns (threads : 0 < setting.threads stream)
    (many : setting.threads stream ≠ 1) (bounds : streamData input stream = .ok data)
    (first : (initialSegment data stream : Result (Segment crc)) = .ok initial)
    (lasts : ¬ RunsDry crc data stream.startByte (setting.threads stream)) :
    Inevitable (streamProgram setting data stream.startByte (setting.threads stream)).Step
      Program.Returned (pipelineStart setting data stream initial) := by
  apply (pipeline_returns_or_illegal threads many bounds first).strengthen
  intro s run h
  rcases h with returned | ⟨running, illegal⟩
  · exact returned
  · exact absurd (legal_of_run threads bounds first lasts run running) illegal

private theorem parallel_ends (bounds : streamData input stream = .ok data) {s}
    (returns : Inevitable
      (streamProgram setting data stream.startByte (setting.threads stream)).Step Program.Returned s) :
    Inevitable (StreamStep setting input stream) StreamState.Ended (.parallel s) := by
  apply returns.embed
  · intro t _ hreturned
    obtain ⟨result, hresult⟩ := Option.ne_none_iff_exists'.mp hreturned.1
    refine .later ⟨_, .join hreturned hresult⟩ ?_
    intro u step
    cases step with
    | run bounds' step => exact absurd step hreturned.not_step
    | join returned result => exact .now ⟨_, _, rfl⟩
  · intro t u step
    exact .run bounds step
  · intro t v hopen step
    cases step with
    | run bounds' step =>
      obtain rfl := Except.ok.inj (bounds.symm.trans bounds')
      exact ⟨_, step, rfl⟩
    | join returned => exact absurd returned hopen

/-- A stream ends, as soon as its pipeline would return. -/
theorem stream_ends (bounds : streamData input stream = .ok data)
    (returns : setting.threads stream ≠ 1 → ∀ initial,
      (initialSegment data stream : Result (Segment crc)) = .ok initial →
      Inevitable (streamProgram setting data stream.startByte (setting.threads stream)).Step
        Program.Returned (pipelineStart setting data stream initial)) :
    Inevitable (StreamStep setting input stream) StreamState.Ended .opened := by
  refine .later ?_ ?_
  · by_cases single : setting.threads stream = 1
    · exact ⟨_, .serial bounds single⟩
    · cases first : (initialSegment data stream : Result (Segment crc)) with
      | error error => exact ⟨_, .giveUp bounds single first⟩
      | ok initial =>
        exact ⟨_, .spawn bounds single first (streamProgram_admissible (Setting.room single))⟩
  · intro t step
    cases step with
    | refuse | serial | giveUp | reserve => exact .now ⟨_, _, rfl⟩
    | spawn bounds' many first =>
      obtain rfl := Except.ok.inj (bounds.symm.trans bounds')
      exact parallel_ends bounds (returns many _ first)

end Runs

theorem reaches_parallel (many : setting.threads stream ≠ 1)
    (bounds : streamData input stream = .ok data) {initial : Segment crc}
    (first : (initialSegment data stream : Result (Segment crc)) = .ok initial) {s}
    (run : Reaches (streamProgram setting data stream.startByte (setting.threads stream)).Step
      (pipelineStart setting data stream initial) s) :
    Reaches (StreamStep setting input stream) .opened (.parallel s) := by
  induction run with
  | refl =>
    exact .single (.spawn bounds many first (streamProgram_admissible (Setting.room many)))
  | tail _ step ih => exact ih.tail (.run bounds step)

theorem many_of_run {s} (run : Reaches (StreamStep setting input stream) .opened (.parallel s)) :
    setting.threads stream ≠ 1 := by
  refine run.invariant (I := fun t => match t with
    | .parallel _ => setting.threads stream ≠ 1
    | _ => True) trivial ?_
  intro t u ht step
  cases step with
  | spawn bounds many => exact many
  | run => exact ht
  | refuse | serial | giveUp | reserve | join => trivial

end Fbz.Deflate
