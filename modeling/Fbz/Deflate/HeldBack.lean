import Fbz.Deflate.Unfailing

/-!
# What is still being resolved when the data ends

The coordinator accepts what a worker has found as soon as it starts at the right bit and its window
is known; whether it resolves comes out later. So the segments in the queue are the workers' own, at
consecutive grid points, and there are fewer of them than threads whenever a new one is asked for.
-/

namespace Fbz.Deflate

open Pipeline Transition

variable {crc : Crc32}

section HeldBack

variable {data : List UInt8} {startByte key bit bit' threads : Nat} {window window' : List UInt8}
  {segment : Segment crc} {segments front back : List (Segment crc)}

theorem HeldBack.of_nil (held : HeldBack data startByte key bit window segments bit' window')
    (empty : segments = []) : bit' = bit ∧ window' = window := by
  cases held with
  | none => exact ⟨rfl, rfl⟩
  | next => simp at empty

/-- The first segment that is held back starts where the others go on. -/
theorem HeldBack.uncons {listed : List (Segment crc)}
    (held : HeldBack data startByte key bit window listed bit' window')
    (split : listed = segment :: segments) :
    ∃ middle, runGzipJob crc data (gridJob startByte data.length key).payload = .ok segment ∧
      segment.startBit = bit ∧ segment.finalBlock = false ∧
      successorWindow segment window = .ok middle ∧
      HeldBack data startByte (key + 1) segment.endBit middle segments bit' window' := by
  induction held generalizing segments with
  | none => cases split
  | @next earlier bit' last before after front found here unfinished known ih =>
    cases earlier with
    | nil =>
      obtain ⟨rfl, rfl⟩ := front.of_nil rfl
      obtain ⟨rfl, rfl⟩ := List.cons.inj split
      exact ⟨after, found, here, unfinished, known, .none⟩
    | cons first rest =>
      obtain ⟨rfl, rfl⟩ := List.cons.inj split
      obtain ⟨middle, hfound, hhere, hunfinished, hknown, hrest⟩ := ih rfl
      have hkey : key + (first :: rest).length = key + 1 + rest.length := by
        rw [List.length_cons]
        omega
      rw [hkey] at found
      exact ⟨middle, hfound, hhere, hunfinished, hknown, hrest.next found here unfinished known⟩

theorem HeldBack.cut (cut : Cut data startByte front bit false)
    (held : HeldBack data startByte front.length bit window back bit' window') :
    Cut data startByte (front ++ back) bit' false := by
  induction held with
  | none =>
    rw [List.append_nil]
    exact cut
  | @next segments bit' segment before after earlier found here unfinished known ih =>
    have hdecoded := runGzipJob_ok found
    rw [here] at hdecoded
    rw [← List.length_append] at hdecoded
    have hnext := ih.next hdecoded
    rw [unfinished, List.append_assoc] at hnext
    exact hnext

theorem RunsDry.cut (dry : RunsDry crc data startByte threads) :
    ∃ segments : List (Segment crc), Cut data startByte segments (data.length * 8) false ∧
      data.length ≤ startByte + segments.length * parallelGrid := by
  obtain ⟨front, back, bit, bytes, window, blocks, driesUp⟩ := dry
  refine ⟨front ++ back, driesUp.held.cut driesUp.cut, ?_⟩
  rw [List.length_append]
  exact driesUp.behind

private theorem Cut.dry (cut : Cut data startByte segments bit false)
    (behind : ¬ HasJob startByte data.length segments.length) :
    bit = data.length * 8 ∧ data.length ≤ startByte + segments.length * parallelGrid := by
  have hbehind : data.length ≤ startByte + segments.length * parallelGrid :=
    Nat.le_of_not_lt fun h => behind ⟨cut.length_pos, h⟩
  obtain ⟨hinside, hstop⟩ := cut.bounds
  have hstop := hstop rfl
  rw [Nat.min_eq_right hbehind] at hstop
  exact ⟨Nat.le_antisymm hinside hstop, hbehind⟩

end HeldBack

/-- The coordinator with the segments it has put out and the tasks still being resolved, which are
what the workers of consecutive grid points have found. -/
structure Holding (data : List UInt8) (startByte threads member base : Nat)
    (g : Ledger (ResolveTask crc) (Cursor crc)) (done : List (Segment crc))
    (queue : List (ResolveTask crc)) : Prop where
  inOrder : InOrder data (startByte * 8) member base g.consumer g.submitted done queue
  key : done.length + queue.length = g.consumer.key
  held : g.consumer.finalBlock = false → ∃ bit, Cut data startByte done bit false ∧
    HeldBack data startByte done.length bit (lastWindow g.consumer.committer.output)
      ((queue ++ g.consumer.phase.tasks).map ResolveTask.segment) g.consumer.nextStart
      g.consumer.predecessor
  room : g.consumer.phase ≠ .full → queue.length < threads
  full : g.consumer.phase = .full → queue.length = threads

/-- The coordinator has given up, or knows what it holds. -/
def KeepsHold (data : List UInt8) (startByte threads member base : Nat)
    (g : Ledger (ResolveTask crc) (Cursor crc)) : Prop :=
  g.consumer.phase.Failed ∨ ∃ done queue, Holding data startByte threads member base g done queue

section Holding

variable {setting : Setting crc} {data : List UInt8} {startByte threads member base : Nat}
  {g g' : Ledger (ResolveTask crc) (Cursor crc)} {done : List (Segment crc)}
  {queue : List (ResolveTask crc)}

theorem Phase.idle_of {phase : Phase crc}
    (waiting : phase = .head ∨ phase = .draining ∨ phase = .full) : phase.tasks = [] := by
  rcases waiting with rfl | rfl | rfl <;> rfl

theorem Holding.rephase (holding : Holding data startByte threads member base g done queue)
    {phase : Phase crc} (same : phase.tasks = g.consumer.phase.tasks)
    (was : g.consumer.phase ≠ .full) (now : phase ≠ .full) (fallbackChunks : Nat)
    (unfinished : phase = .draining ∨ (∃ lease, phase = .rejected lease) →
      g.consumer.finalBlock = false) (consumed leases : List Nat) :
    Holding data startByte threads member base
      { g with consumer := { g.consumer with phase, fallbackChunks }, consumed, leases } done queue where
  inOrder := holding.inOrder.rephase same fallbackChunks unfinished
  key := holding.key
  held := by
    dsimp only
    rw [same]
    exact holding.held
  room _ := holding.room was
  full h := absurd h now

/-- A segment that a worker has found where the others end is held back with them. -/
theorem Holding.takePrimary (holding : Holding data startByte threads member base g done queue)
    (head : g.consumer.phase = .head) (unfinished : g.consumer.finalBlock = false) (lease : Nat)
    {speculative : Result (Segment crc)}
    (executed : runGzipJob crc data (gridJob startByte data.length g.consumer.key).payload =
      speculative) :
    KeepsHold data startByte threads member base { g with
      consumer := g.consumer.takePrimary lease speculative
      leases := lease :: g.leases
      consumed := g.consumer.key :: g.consumed } := by
  have hreject : Holding data startByte threads member base { g with
      consumer := { g.consumer with phase := .rejected lease }
      leases := lease :: g.leases
      consumed := g.consumer.key :: g.consumed } done queue :=
    holding.rephase (by rw [head]; rfl) (by rw [head]; simp) (by simp) _ (fun _ => unfinished) _ _
  cases hspeculative : speculative with
  | error error => exact .inr ⟨done, queue, hreject⟩
  | ok segment =>
    simp only [Cursor.takePrimary]
    split
    case isFalse => exact .inr ⟨done, queue, hreject⟩
    case isTrue here =>
    cases haccept : g.consumer.accept lease segment with
    | error error => exact .inl ⟨error, rfl⟩
    | ok next =>
      have hfound := executed.trans hspeculative
      have hdecoded := runGzipJob_ok hfound
      rw [here] at hdecoded
      have hidle : g.consumer.phase.tasks = [] := by
        rw [head]
        rfl
      have hinOrder := holding.inOrder.accept hidle unfinished hdecoded haccept
      obtain ⟨window, hwindow, heq⟩ := result_bind_eq_ok.mp haccept
      obtain rfl := Except.ok.inj heq
      refine .inr ⟨done, queue, hinOrder, holding.key, fun hmore => ?_, fun _ => ?_, ?_⟩
      · obtain ⟨bit, hcut, hheld⟩ := holding.held unfinished
        rw [hidle, List.append_nil] at hheld
        refine ⟨bit, hcut, ?_⟩
        simp only [Phase.tasks, List.map_append]
        refine hheld.next ?_ here hmore hwindow
        rw [List.length_map, holding.key]
        exact hfound
      · exact holding.room (by rw [head]; simp)
      · intro hfull
        cases hfull

/-- An accepted segment joins the queue. -/
theorem Holding.submit (holding : Holding data startByte threads member base g done queue)
    {lease : Nat} {task : ResolveTask crc} (accepted : g.consumer.phase = .accepted lease task)
    (leases : List Nat) :
    Holding data startByte threads member base { g with
      consumer := g.consumer.submitted threads
      leases
      submitted := (g.consumer.resolveSequence, task) :: g.submitted } done (queue ++ [task]) := by
  have hinOrder := holding.inOrder.submit accepted threads
  have hroom := holding.room (by rw [accepted]; simp)
  have houtstanding := holding.inOrder.outstanding
  have hkey := holding.key
  have hheld := holding.held
  rw [accepted] at hheld
  refine ⟨hinOrder, ?_, fun hmore => ?_, ?_, ?_⟩
  · simp only [Cursor.submitted, List.length_append, List.length_singleton]
    omega
  · obtain ⟨bit, hcut, hheld⟩ := hheld hmore
    refine ⟨bit, hcut, ?_⟩
    have hidle : (g.consumer.submitted threads).phase.tasks = [] := by
      simp only [Cursor.submitted]
      split <;> rfl
    rw [hidle, List.append_nil]
    exact hheld
  · simp only [Cursor.submitted, List.length_append, List.length_singleton]
    split <;> simp
    omega
  · simp only [Cursor.submitted, List.length_append, List.length_singleton]
    split <;> simp
    omega

/-- The first task of the queue, once it is resolved, is the next segment of the cut. -/
theorem Holding.putOut {first : ResolveTask crc} {resolved : ResolvedSegment crc}
    {committer : SegmentCommitter crc} {phase : Phase crc}
    (holding : Holding data startByte threads member base g done (first :: queue))
    (waiting : g.consumer.phase = .head ∨ g.consumer.phase = .draining ∨ g.consumer.phase = .full)
    (hresolve : resolveSegment first.segment first.predecessor = .ok resolved)
    (hcommit : g.consumer.committer.commit resolved = .ok committer)
    (full : g.consumer.phase = .full → phase = .head)
    (other : g.consumer.phase ≠ .full → phase = g.consumer.phase) (stageConsumed : List Nat) :
    Holding data startByte threads member base { g with
      consumer := { g.consumer with
        phase, committer, nextResolve := g.consumer.nextResolve + 1
        outstanding := g.consumer.outstanding - 1 }
      stageConsumed } (done ++ [first.segment]) queue := by
  have hidle := Phase.idle_of waiting
  have hphase : phase = .head ∨ phase = .draining := by
    rcases waiting with h | h | h
    · exact .inl ((other (by simp [h])).trans h)
    · exact .inr ((other (by simp [h])).trans h)
    · exact .inl (full h)
  have hnext : phase.tasks = [] := Phase.idle_of (by tauto)
  have hinOrder := holding.inOrder.putOut hidle hresolve hcommit hnext (by
    rintro (rfl | ⟨lease, rfl⟩)
    · refine holding.inOrder.unfinished (.inl ?_)
      rcases waiting with h | h | h
      · cases (other (by simp [h])).trans h
      · exact h
      · cases full h
    · rcases hphase with h | h <;> cases h)
  have hkey := holding.key
  have hroom : (first :: queue).length ≤ threads := by
    by_cases h : g.consumer.phase = .full
    · exact Nat.le_of_eq (holding.full h)
    · exact Nat.le_of_lt (holding.room h)
  rw [List.length_cons] at hkey hroom
  refine ⟨hinOrder, ?_, fun hmore => ?_, fun _ => hroom, fun h => ?_⟩
  · rw [List.length_append, List.length_singleton, Nat.add_assoc, Nat.add_comm 1]
    exact hkey
  · obtain ⟨bit, hcut, hheld⟩ := holding.held hmore
    rw [hidle, List.append_nil] at hheld
    obtain ⟨middle, hfound, hhere, hunfinished, hknown, hrest⟩ := hheld.uncons rfl
    have hdecoded := runGzipJob_ok hfound
    have hcut' := hcut.next (hhere ▸ hdecoded)
    rw [hunfinished] at hcut'
    have hpredecessor : first.predecessor = lastWindow g.consumer.committer.output :=
      holding.inOrder.windows.1
    rw [hpredecessor] at hresolve
    have hvalid := decodeSegment_valid hdecoded
    rw [successorWindow_eq hvalid.symbols hresolve] at hknown
    obtain ⟨-, rfl⟩ := hvalid.commit hresolve hcommit
    refine ⟨_, hcut', ?_⟩
    rw [hnext, List.append_nil, List.length_append]
    rw [← Except.ok.inj hknown] at hrest
    exact hrest
  · rcases hphase with rfl | rfl <;> cases h

theorem Holding.takeStage (holding : Holding data startByte threads member base g done queue)
    (waiting : g.consumer.phase = .head ∨ g.consumer.phase = .draining ∨ g.consumer.phase = .full)
    {task : ResolveTask crc} (handed : (g.consumer.nextResolve, task) ∈ g.submitted)
    (stageConsumed : List Nat) :
    KeepsHold data startByte threads member base { g with
      consumer := g.consumer.takeStage (resolveSegment task.segment task.predecessor)
      stageConsumed } := by
  obtain ⟨rest, rfl⟩ := holding.inOrder.first handed
  cases hresolve : resolveSegment task.segment task.predecessor with
  | error error => exact .inl ⟨error, rfl⟩
  | ok resolved =>
    cases hcommit : g.consumer.committer.commit resolved with
    | error error =>
      refine .inl ⟨error, ?_⟩
      rw [Cursor.takeStage, result_bind_ok, hcommit]
      rfl
    | ok committer =>
      obtain ⟨phase, hfull, hother, hnext⟩ := Cursor.takeStage_ok hcommit
      rw [hnext]
      exact .inr ⟨_, rest, holding.putOut waiting hresolve hcommit hfull hother _⟩

/-- With an empty queue, the coordinator decodes the next segment of the cut itself. -/
theorem Holding.fallback (holding : Holding data startByte threads member base g done queue)
    (draining : g.consumer.phase = .draining) (drained : g.consumer.outstanding = 0) :
    KeepsHold data startByte threads member base { g with
      consumer := g.consumer.attempt (g.consumer.fallback data startByte) } := by
  have hidle : g.consumer.phase.tasks = [] := by
    rw [draining]
    rfl
  have hunfinished := holding.inOrder.unfinished (.inl draining)
  obtain rfl : queue = [] := List.length_eq_zero_iff.mp (holding.inOrder.outstanding ▸ drained)
  cases hfallback : g.consumer.fallback data startByte with
  | error error => exact .inl ⟨error, rfl⟩
  | ok next =>
    obtain ⟨segment, hsegment, h⟩ := result_bind_eq_ok.mp hfallback
    obtain ⟨committed, hcommitted, heq⟩ := result_bind_eq_ok.mp h
    obtain rfl := Except.ok.inj heq
    obtain ⟨bit, hcut, hheld⟩ := holding.held hunfinished
    rw [hidle] at hheld
    obtain ⟨hbit, -⟩ := hheld.of_nil rfl
    have hkey : done.length = g.consumer.key := holding.key
    have hchain := hcut.chain
    rw [← hbit] at hcut hchain
    have hinOrder := holding.inOrder.commitSegment drained hidle (hchain.next hsegment)
      (decodeSegment_valid hsegment) hcommitted (g.consumer.key + 1)
    rw [← hkey] at hsegment
    simp only [Cursor.commitSegment, result_bind_eq_ok] at hcommitted
    obtain ⟨window, -, resolved, -, committer, -, heq⟩ := hcommitted
    obtain rfl := Except.ok.inj heq
    have hwindow : window = lastWindow committer.output := hinOrder.windows
    subst hwindow
    refine .inr ⟨done ++ [segment], [], hinOrder, ?_, fun hmore => ?_, fun _ => ?_, ?_⟩
    · rw [List.length_append, hkey]
      rfl
    · have hmore : segment.finalBlock = false := hmore
      have hnext := hcut.next hsegment
      rw [hmore] at hnext
      exact ⟨_, hnext, .none⟩
    · exact Nat.lt_of_le_of_lt (Nat.zero_le _) (holding.room (by rw [draining]; simp))
    · intro hfull
      cases hfull

private theorem Holding.moves (holding : Holding data startByte threads member base g done queue)
    (moves : Moves data startByte threads g g') :
    KeepsHold data startByte threads member base g' := by
  cases moves with
  | takePrimary head unfinished hasJob executed =>
    exact holding.takePrimary head unfinished _ executed
  | retire rejected held =>
    exact .inr ⟨done, queue, holding.rephase (by rw [rejected]; rfl) (by rw [rejected]; simp)
      (by simp) _ (fun _ => holding.inOrder.unfinished (.inr ⟨_, rejected⟩)) _ _⟩
  | fallback draining drained => exact holding.fallback draining drained
  | submit accepted held => exact .inr ⟨done, _, holding.submit accepted _⟩
  | takeStage waiting some_left handed => exact holding.takeStage waiting handed _

private theorem KeepsHold.moves (keeps : KeepsHold data startByte threads member base g)
    (moves : Moves data startByte threads g g') :
    KeepsHold data startByte threads member base g' := by
  obtain ⟨error, hfailed⟩ | ⟨done, queue, holding⟩ := keeps
  · cases moves <;> simp_all
  · exact holding.moves moves

theorem keepsHold_start {initial : Segment crc} (some : 0 < threads)
    (decoded : decodeSegment crc data (startByte * 8) (estimatedStop startByte data.length 0)
      .empty parallelOutputLimit = .ok initial) (member base : Nat) :
    KeepsHold data startByte threads member base
      ⟨Cursor.start initial member base, [], [], [], []⟩ := by
  have hinOrder := inOrder_start (by decide) decoded member base
  obtain ⟨resolved, committer, hresolve, hcommit, hstart⟩ :=
    Cursor.start_eq (by decide) decoded member base
  rw [hstart] at hinOrder ⊢
  have hwindow : lastWindow ([] ++ resolved.bytes) = lastWindow committer.output := hinOrder.windows
  refine .inr ⟨[initial], [], hinOrder, rfl, fun hmore => ?_, fun _ => some, nofun⟩
  have hcut := Cut.first decoded
  have hmore : initial.finalBlock = false := hmore
  rw [hmore] at hcut
  refine ⟨_, hcut, ?_⟩
  dsimp only
  rw [hwindow]
  exact .none

variable {initial : Segment crc}

theorem reaches_keepsHold (some : 0 < threads)
    (decoded : decodeSegment crc data (startByte * 8) (estimatedStop startByte data.length 0)
      .empty parallelOutputLimit = .ok initial)
    (run : Reaches (streamProgram setting data startByte threads).Follows
      ⟨Cursor.start initial member base, [], [], [], []⟩ g) :
    KeepsHold data startByte threads member base g :=
  run.invariant (keepsHold_start some decoded member base) fun _ _ keeps follows =>
    keeps.moves (moves_of_follows follows)

/-- A grid point that has no job is asked for only where the data has run dry. -/
theorem Holding.dry (holding : Holding data startByte threads member base g done queue)
    (head : g.consumer.phase = .head) (unfinished : g.consumer.finalBlock = false)
    (missing : ¬ HasJob startByte data.length g.consumer.key) : RunsDry crc data startByte threads := by
  obtain ⟨bit, hcut, hheld⟩ := holding.held unfinished
  rw [head] at hheld
  simp only [Phase.tasks, List.append_nil] at hheld
  have hlength : (done ++ queue.map ResolveTask.segment).length = g.consumer.key := by
    rw [List.length_append, List.length_map, holding.key]
  obtain ⟨hend, hbehind⟩ := (hheld.cut hcut).dry (by rw [hlength]; exact missing)
  obtain ⟨last, hcommitted, hbit⟩ := hcut.chain.committed holding.inOrder.committed
  obtain rfl : bit = last := hbit
  obtain ⟨blocks, hpasses, -⟩ := hcommitted.passes
  have hcounted := hcommitted.bounded
  rw [hcommitted.decoded] at hcounted
  rw [hend] at hheld
  rw [List.length_append] at hbehind
  refine ⟨done, _, bit, _, _, blocks, hcut, hpasses, hcounted, ?_, hheld, hbehind⟩
  rw [List.length_map]
  exact holding.room (by rw [head]; simp)

end Holding

end Fbz.Deflate
