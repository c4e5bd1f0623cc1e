import Fbz.Deflate.Schedule

/-!
# One run of the coordinator

What the coordinator of a stream does next is determined by what it has done, so that every schedule
of its workers takes it through the same states. Either all of them end or none does.
-/

namespace Fbz.Deflate

open Pipeline Transition

variable {crc : Crc32} {setting : Setting crc} {data : List UInt8} {startByte threads : Nat}
  {g g' : Ledger (ResolveTask crc) (Cursor crc)}

section Alone

variable {initial : Segment crc} {member base : Nat}

private theorem takeStage_key {key : Nat}
    (waiting : (streamProgram setting data startByte threads).consumer.op g.consumer =
      .takeStage key) : key = g.consumer.nextResolve := by
  simp only [streamProgram, coordinator] at waiting
  repeat' split at waiting
  all_goals cases waiting
  all_goals rfl

private theorem never_discards (key : Nat) :
    (streamProgram setting data startByte threads).consumer.op g.consumer ≠ .discardBefore key := by
  intro h
  simp only [streamProgram, coordinator] at h
  repeat' split at h
  all_goals cases h

/-- Every schedule of the workers takes the coordinator through the same states. -/
theorem coordinator_determined
    (decoded : decodeSegment crc data (startByte * 8) (estimatedStop startByte data.length 0)
      .empty parallelOutputLimit = .ok initial) :
    Determined (streamProgram setting data startByte threads).Follows
      ⟨Cursor.start initial member base, [], [], [], []⟩ := by
  intro g g₁ g₂ run h₁ h₂
  obtain ⟨error, hfailed⟩ | keyed := reaches_keepsKeys decoded run
  · exact absurd h₁ (Program.Follows.not_done (failed_op hfailed))
  · obtain ⟨done, queue, inOrder⟩ := reaches_inOrder decoded run
    apply Program.Follows.unique streamJobs_nodup ?_ ?_ never_discards h₁ h₂
    · intro key task task' waiting hmem hmem'
      obtain rfl := takeStage_key waiting
      have hentry := (inOrder.keys _ hmem).2 (Nat.le_refl _)
      have hentry' := (inOrder.keys _ hmem').2 (Nat.le_refl _)
      exact Option.some.inj (hentry.symm.trans hentry')
    · rw [keyed.leases]
      cases g.consumer.phase <;> simp [Phase.leases]

end Alone

private theorem SegmentCommitter.commit_output {c c' : SegmentCommitter crc}
    {resolved : ResolvedSegment crc}
    (h : c.commit resolved = .ok c') : c.output.length ≤ c'.output.length := by
  obtain ⟨_, -, heq⟩ := result_bind_eq_ok.mp h
  obtain rfl := Except.ok.inj heq
  simp only [List.length_append]
  omega

private theorem Cursor.attempt_output {cursor : Cursor crc} {result : Result (Cursor crc)}
    (grows : ∀ next, result = .ok next →
      cursor.committer.output.length ≤ next.committer.output.length) :
    cursor.committer.output.length ≤ (cursor.attempt result).committer.output.length := by
  cases result with
  | error error => exact Nat.le_refl _
  | ok next => exact grows next rfl

/-- What the sink has been given is never taken back. -/
theorem Moves.output (moves : Moves data startByte threads g g') :
    g.consumer.committer.output.length ≤ g'.consumer.committer.output.length := by
  cases moves with
  | @takePrimary lease speculative head unfinished hasJob executed =>
    dsimp only
    cases speculative with
    | error error => exact Nat.le_refl _
    | ok segment =>
      simp only [Cursor.takePrimary]
      split
      case isFalse => exact Nat.le_refl _
      case isTrue here =>
        apply Cursor.attempt_output
        intro next haccept
        obtain ⟨window, -, heq⟩ := result_bind_eq_ok.mp haccept
        obtain rfl := Except.ok.inj heq
        exact Nat.le_refl _
  | retire | submit => exact Nat.le_refl _
  | fallback draining drained =>
    apply Cursor.attempt_output
    intro next hfallback
    obtain ⟨segment, -, hfallback⟩ := result_bind_eq_ok.mp hfallback
    obtain ⟨committed, hcommitted, heq⟩ := result_bind_eq_ok.mp hfallback
    obtain rfl := Except.ok.inj heq
    simp only [Cursor.commitSegment, result_bind_eq_ok] at hcommitted
    obtain ⟨window, -, resolved, -, committer, hcommit, heq⟩ := hcommitted
    obtain rfl := Except.ok.inj heq
    exact SegmentCommitter.commit_output hcommit
  | takeStage waiting some_left handed last =>
    apply Cursor.attempt_output
    intro next hstage
    obtain ⟨resolved, -, hstage⟩ := result_bind_eq_ok.mp hstage
    obtain ⟨committer, hcommit, heq⟩ := result_bind_eq_ok.mp hstage
    obtain rfl := Except.ok.inj heq
    exact SegmentCommitter.commit_output hcommit

theorem reaches_output
    (run : Reaches (streamProgram setting data startByte threads).Follows g g') :
    g.consumer.committer.output.length ≤ g'.consumer.committer.output.length := by
  induction run with
  | refl => exact Nat.le_refl _
  | tail _ follows ih => exact Nat.le_trans ih (moves_of_follows follows).output

theorem KeepsKeys.last_of_illegal (keeps : KeepsKeys data startByte g)
    (illegal : ¬ (streamProgram setting data startByte threads).Legal g) :
    ¬ (streamProgram setting data startByte threads).Follows g g' := by
  obtain ⟨error, hfailed⟩ | keyed := keeps
  · exact absurd (Program.legal_done (failed_op hfailed)) illegal
  · rw [keyed.legal_iff] at illegal
    push Not at illegal
    obtain ⟨head, unfinished, missing⟩ := illegal
    intro follows
    obtain ⟨job, hmem, hkey, -⟩ := follows.of_takePrimary (takePrimary_op head unfinished)
    exact missing (streamJobs_key.mp (List.mem_map.mpr ⟨job, hmem, hkey⟩))

end Fbz.Deflate
