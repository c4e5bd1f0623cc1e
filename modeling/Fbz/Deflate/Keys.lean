import Fbz.Deflate.Grid

/-!
# What the coordinator asks for

The coordinator goes through the grid point by point and through its staged work number by number.
As long as the stream ends before the grid does, it waits only for what the workers will send, and
the decode comes to an end.
-/

namespace Fbz.Deflate

open Pipeline Transition

variable {crc : Crc32}

/-- What the coordinator does between two of its questions. -/
inductive Moves (data : List UInt8) (startByte threads : Nat) :
    Ledger (ResolveTask crc) (Cursor crc) → Ledger (ResolveTask crc) (Cursor crc) → Prop
  | takePrimary {g : Ledger (ResolveTask crc) (Cursor crc)} {lease : Nat}
      {speculative : Result (Segment crc)} (head : g.consumer.phase = .head)
      (unfinished : g.consumer.finalBlock = false)
      (hasJob : HasJob startByte data.length g.consumer.key)
      (executed : runGzipJob crc data (gridJob startByte data.length g.consumer.key).payload =
        speculative) :
      Moves data startByte threads g { g with
        consumer := g.consumer.takePrimary lease speculative
        leases := lease :: g.leases
        consumed := g.consumer.key :: g.consumed }
  | retire {g : Ledger (ResolveTask crc) (Cursor crc)} {lease : Nat} {pre post : List Nat}
      (rejected : g.consumer.phase = .rejected lease) (held : g.leases = pre ++ lease :: post) :
      Moves data startByte threads g { g with
        consumer := { g.consumer with
          phase := .draining, fallbackChunks := g.consumer.fallbackChunks + 1 }
        leases := pre ++ post }
  | fallback {g : Ledger (ResolveTask crc) (Cursor crc)} (draining : g.consumer.phase = .draining)
      (drained : g.consumer.outstanding = 0) :
      Moves data startByte threads g { g with
        consumer := g.consumer.attempt (g.consumer.fallback data startByte) }
  | submit {g : Ledger (ResolveTask crc) (Cursor crc)} {lease : Nat} {task : ResolveTask crc}
      {pre post : List Nat} (accepted : g.consumer.phase = .accepted lease task)
      (held : g.leases = pre ++ lease :: post) :
      Moves data startByte threads g { g with
        consumer := g.consumer.submitted threads
        leases := pre ++ post
        submitted := (g.consumer.resolveSequence, task) :: g.submitted }
  | takeStage {g : Ledger (ResolveTask crc) (Cursor crc)} {task : ResolveTask crc}
      (waiting : g.consumer.phase = .head ∨ g.consumer.phase = .draining ∨
        g.consumer.phase = .full)
      (some_left : g.consumer.phase = .full ∨ g.consumer.outstanding ≠ 0)
      (handed : (g.consumer.nextResolve, task) ∈ g.submitted)
      (last : g.consumer.phase = .head → g.consumer.finalBlock = true) :
      Moves data startByte threads g { g with
        consumer := g.consumer.takeStage (resolveSegment task.segment task.predecessor)
        stageConsumed := g.consumer.nextResolve :: g.stageConsumed }

theorem moves_of_follows {setting : Setting crc} {data : List UInt8} {startByte threads : Nat}
    {g g' : Ledger (ResolveTask crc) (Cursor crc)}
    (follows : (streamProgram setting data startByte threads).Follows g g') :
    Moves data startByte threads g g' := by
  have hop : (streamProgram setting data startByte threads).consumer.op g.consumer =
    (coordinator data startByte threads).op g.consumer := rfl
  cases hphase : g.consumer.phase with
  | head =>
    simp only [coordinator, hphase] at hop
    by_cases hfinal : g.consumer.finalBlock = true
    · rw [if_pos hfinal] at hop
      split at hop
      case isFalse => exact absurd follows (Program.Follows.not_done hop)
      case isTrue hleft =>
        obtain ⟨task, value, hmem, hexec, rfl⟩ := follows.of_takeStage hop
        obtain rfl := Option.some.inj hexec
        exact .takeStage (.inl hphase) (.inr hleft) hmem fun _ => hfinal
    · rw [if_neg hfinal] at hop
      obtain ⟨job, hmem, hkey, value, hexec, rfl⟩ := follows.of_takePrimary hop
      obtain ⟨key, hjob, rfl⟩ := mem_streamJobs.mp hmem
      obtain rfl : key = g.consumer.key := hkey
      exact .takePrimary hphase (Bool.eq_false_iff.mpr hfinal) hjob (Option.some.inj hexec)
  | rejected lease =>
    simp only [coordinator, hphase] at hop
    obtain ⟨pre, post, hheld, rfl⟩ := follows.of_retire hop
    simp only [streamProgram, coordinator, hphase]
    exact .retire hphase hheld
  | draining =>
    simp only [coordinator, hphase] at hop
    split at hop
    case isTrue hleft =>
      obtain ⟨task, value, hmem, hexec, rfl⟩ := follows.of_takeStage hop
      obtain rfl := Option.some.inj hexec
      exact .takeStage (.inr (.inl hphase)) (.inr hleft) hmem (by simp [hphase])
    case isFalse hdrained =>
      obtain rfl := follows.of_compute hop
      simp only [streamProgram, coordinator, hphase]
      exact .fallback hphase (not_not.mp hdrained)
  | accepted lease task =>
    simp only [coordinator, hphase] at hop
    obtain ⟨pre, post, hheld, rfl⟩ := follows.of_submit hop
    simp only [streamProgram, coordinator, hphase]
    exact .submit hphase hheld
  | full =>
    simp only [coordinator, hphase] at hop
    obtain ⟨task, value, hmem, hexec, rfl⟩ := follows.of_takeStage hop
    obtain rfl := Option.some.inj hexec
    exact .takeStage (.inr (.inr hphase)) (.inl hphase) hmem (by simp [hphase])
  | failed error =>
    simp only [coordinator, hphase] at hop
    exact absurd follows (Program.Follows.not_done hop)

/-- The results for as many grid points are taken but not yet worked in. -/
def Phase.asked : Phase crc → Nat
  | .rejected _ | .draining | .accepted _ _ => 1
  | .head | .full | .failed _ => 0

/-- As many segments have been accepted but not yet counted. -/
def Phase.ahead : Phase crc → Nat
  | .accepted _ _ => 1
  | _ => 0

def Phase.leases : Phase crc → List Nat
  | .rejected lease | .accepted lease _ => [lease]
  | _ => []

/-- The coordinator with its keys: which results it has taken, what it holds, and what it has staged
and got back. -/
structure Keyed (data : List UInt8) (startByte : Nat) (g : Ledger (ResolveTask crc) (Cursor crc)) :
    Prop where
  cut : ∃ taken : List (Segment crc), Cut data startByte taken g.consumer.nextStart
    g.consumer.finalBlock ∧ taken.length = g.consumer.key + g.consumer.phase.ahead
  consumed : ∀ key, key ∈ g.consumed ↔ 1 ≤ key ∧ key < g.consumer.key + g.consumer.phase.asked
  leases : g.leases = g.consumer.phase.leases
  submitted : ∀ key, key ∈ g.submitted.map Prod.fst ↔ key < g.consumer.resolveSequence
  stageConsumed : ∀ key, key ∈ g.stageConsumed ↔ key < g.consumer.nextResolve
  outstanding : g.consumer.nextResolve + g.consumer.outstanding = g.consumer.resolveSequence
  full : g.consumer.phase = .full → g.consumer.outstanding ≠ 0
  unfinished : g.consumer.phase = .draining ∨ (∃ lease, g.consumer.phase = .rejected lease) →
    g.consumer.finalBlock = false
  hasJob : g.consumer.phase.asked = 1 → HasJob startByte data.length g.consumer.key

/-- The coordinator has given up, or keeps its keys. -/
def KeepsKeys (data : List UInt8) (startByte : Nat)
    (g : Ledger (ResolveTask crc) (Cursor crc)) : Prop :=
  (∃ error, g.consumer.phase = .failed error) ∨ Keyed data startByte g

section Steps

variable {setting : Setting crc} {data : List UInt8} {startByte threads : Nat}
  {g g' : Ledger (ResolveTask crc) (Cursor crc)}

theorem keepsKeys_start {initial : Segment crc}
    (decoded : decodeSegment crc data (startByte * 8) (estimatedStop startByte data.length 0)
      .empty parallelOutputLimit = .ok initial) (member base : Nat) :
    KeepsKeys data startByte ⟨Cursor.start initial member base, [], [], [], []⟩ := by
  unfold Cursor.start
  generalize hopening : ({ committer := .new member base, predecessor := []
                           nextStart := initial.endBit, finalBlock := initial.finalBlock } :
    Cursor crc) = opening
  dsimp only
  cases hcommit : opening.commitSegment initial with
  | error error => exact .inl ⟨error, rfl⟩
  | ok next =>
    simp only [Cursor.commitSegment, result_bind_eq_ok] at hcommit
    obtain ⟨window, -, resolved, -, committer, -, heq⟩ := hcommit
    obtain rfl := Except.ok.inj heq
    subst hopening
    refine .inr ⟨⟨[initial], .first decoded, rfl⟩, ?_, rfl, ?_, ?_, rfl, ?_, ?_, ?_⟩
    · intro key
      constructor
      · intro hmem
        cases hmem
      · rintro ⟨hfirst, hlast⟩
        exact absurd hlast (Nat.not_lt.mpr hfirst)
    · simp [Cursor.attempt]
    · simp [Cursor.attempt]
    · intro h
      cases h
    · rintro (h | ⟨lease, h⟩) <;> cases h
    · intro h
      cases h

/-- The result for the next grid point is taken. -/
theorem Keyed.takePrimary (keyed : Keyed data startByte g) (head : g.consumer.phase = .head)
    (unfinished : g.consumer.finalBlock = false)
    (hasJob : HasJob startByte data.length g.consumer.key) (lease : Nat)
    {speculative : Result (Segment crc)}
    (executed : runGzipJob crc data (gridJob startByte data.length g.consumer.key).payload =
      speculative) :
    KeepsKeys data startByte { g with
      consumer := g.consumer.takePrimary lease speculative
      leases := lease :: g.leases
      consumed := g.consumer.key :: g.consumed } := by
  obtain ⟨⟨taken, hcut, hlength⟩, hconsumed, hleases, hsubmitted, hstage, houtstanding, -, -, -⟩ :=
    keyed
  rw [head] at hlength hconsumed hleases
  rw [unfinished] at hcut
  have hmore : ∀ key, key ∈ g.consumer.key :: g.consumed ↔ 1 ≤ key ∧ key < g.consumer.key + 1 := by
    intro key
    rw [List.mem_cons, hconsumed]
    have hfirst := hasJob.1
    simp only [Phase.asked]
    omega
  have hheld : lease :: g.leases = [lease] := by
    rw [hleases]
    rfl
  have hreject : Keyed data startByte { g with
      consumer := { g.consumer with phase := .rejected lease }
      leases := lease :: g.leases
      consumed := g.consumer.key :: g.consumed } := by
    refine ⟨⟨taken, ?_, hlength⟩, hmore, hheld, hsubmitted, hstage, houtstanding, ?_,
      fun _ => unfinished, fun _ => hasJob⟩
    · dsimp only
      rw [unfinished]
      exact hcut
    · intro h
      cases h
  cases hspeculative : speculative with
  | error error => exact .inr hreject
  | ok segment =>
    simp only [Cursor.takePrimary]
    split
    case isFalse => exact .inr hreject
    case isTrue here =>
    have hdecoded := runGzipJob_ok (executed.trans hspeculative)
    rw [here] at hdecoded
    cases haccept : g.consumer.accept lease segment with
    | error error => exact .inl ⟨error, rfl⟩
    | ok next =>
      obtain ⟨window, -, heq⟩ := result_bind_eq_ok.mp haccept
      obtain rfl := Except.ok.inj heq
      have hnext := @Cut.next crc data startByte taken _ segment hcut
        (by rw [hlength]; exact hdecoded)
      refine .inr ⟨⟨_, hnext, ?_⟩, hmore, hheld, hsubmitted, hstage, houtstanding, ?_, ?_,
        fun _ => hasJob⟩
      · rw [List.length_append, hlength]
        rfl
      · intro h
        cases h
      · rintro (h | ⟨lease, h⟩) <;> cases h

/-- Staged work comes back in the order of its numbers. -/
theorem Keyed.takeStage (keyed : Keyed data startByte g)
    (waiting : g.consumer.phase = .head ∨ g.consumer.phase = .draining ∨ g.consumer.phase = .full)
    (some_left : g.consumer.outstanding ≠ 0) (resolved : Result (ResolvedSegment crc)) :
    KeepsKeys data startByte { g with
      consumer := g.consumer.takeStage resolved
      stageConsumed := g.consumer.nextResolve :: g.stageConsumed } := by
  rcases g.consumer.takeStage_cases resolved with
    ⟨error, hfailed⟩ | ⟨phase, committer, hfull, hother, hnext⟩
  · rw [hfailed]
    exact .inl ⟨error, rfl⟩
  · rw [hnext]
    obtain ⟨hcut, hconsumed, hleases, hsubmitted, hstage, houtstanding, -, hunfinished, hasJob⟩ :=
      keyed
    have hback : ∀ key, key ∈ g.consumer.nextResolve :: g.stageConsumed ↔
        key < g.consumer.nextResolve + 1 := by
      intro key
      rw [List.mem_cons, hstage]
      omega
    have hcount : g.consumer.nextResolve + 1 + (g.consumer.outstanding - 1) =
        g.consumer.resolveSequence := by omega
    right
    rcases waiting with hphase | hphase | hphase
    · obtain rfl := (hother (by simp [hphase])).trans hphase
      rw [hphase] at hcut hconsumed hleases hunfinished hasJob
      refine ⟨hcut, hconsumed, hleases, hsubmitted, hback, hcount, ?_, hunfinished, hasJob⟩
      intro h
      cases h
    · obtain rfl := (hother (by simp [hphase])).trans hphase
      rw [hphase] at hcut hconsumed hleases hunfinished hasJob
      refine ⟨hcut, hconsumed, hleases, hsubmitted, hback, hcount, ?_, hunfinished, hasJob⟩
      intro h
      cases h
    · obtain rfl := hfull hphase
      rw [hphase] at hcut hconsumed hleases
      refine ⟨hcut, hconsumed, hleases, hsubmitted, hback, hcount, ?_, ?_, ?_⟩
      · intro h
        cases h
      · intro h
        rcases h with h | h
        · cases h
        · obtain ⟨lease, h⟩ := h
          cases h
      · intro h
        cases h

private theorem Keyed.fallback (keyed : Keyed data startByte g)
    (draining : g.consumer.phase = .draining) : KeepsKeys data startByte { g with
      consumer := g.consumer.attempt (g.consumer.fallback data startByte) } := by
  cases hfallback : g.consumer.fallback data startByte with
  | error error => exact .inl ⟨error, rfl⟩
  | ok next =>
    obtain ⟨segment, hsegment, hfallback⟩ := result_bind_eq_ok.mp hfallback
    obtain ⟨committed, hcommitted, heq⟩ := result_bind_eq_ok.mp hfallback
    obtain rfl := Except.ok.inj heq
    simp only [Cursor.commitSegment, result_bind_eq_ok] at hcommitted
    obtain ⟨window, -, resolved, -, committer, -, heq⟩ := hcommitted
    obtain rfl := Except.ok.inj heq
    obtain ⟨⟨taken, hcut, hlength⟩, hconsumed, hleases, hsubmitted, hstage, houtstanding, -,
      hunfinished, hasJob⟩ := keyed
    rw [hunfinished (.inl draining)] at hcut
    rw [draining] at hlength hconsumed hleases hasJob
    have hkey : g.consumer.key = taken.length := hlength.symm
    rw [hkey] at hsegment
    refine .inr ⟨⟨_, hcut.next hsegment, ?_⟩, ?_, hleases, hsubmitted, hstage, houtstanding, ?_,
      ?_, ?_⟩
    · rw [List.length_append, hlength]
      rfl
    · exact hconsumed
    · intro h
      cases h
    · rintro (h | ⟨lease, h⟩) <;> cases h
    · intro h
      cases h

private theorem Keyed.released (keyed : Keyed data startByte g) {lease : Nat} {pre post : List Nat}
    (held : g.leases = pre ++ lease :: post) (one : g.consumer.phase.leases = [lease]) :
    pre ++ post = [] := by
  have hlen : (pre ++ lease :: post).length = [lease].length := by
    rw [← held, keyed.leases, one]
  simp only [List.length_append, List.length_cons, List.length_nil] at hlen
  apply List.eq_nil_of_length_eq_zero
  rw [List.length_append]
  omega

private theorem Keyed.submit (keyed : Keyed data startByte g) {lease : Nat} {task : ResolveTask crc}
    (accepted : g.consumer.phase = .accepted lease task) {pre post : List Nat}
    (held : g.leases = pre ++ lease :: post) (threads : Nat) :
    Keyed data startByte { g with
      consumer := g.consumer.submitted threads
      leases := pre ++ post
      submitted := (g.consumer.resolveSequence, task) :: g.submitted } := by
  have hnone := keyed.released held (by rw [accepted]; rfl)
  obtain ⟨⟨taken, hcut, hlength⟩, hconsumed, -, hsubmitted, hstage, houtstanding, -, -, -⟩ := keyed
  rw [accepted] at hlength hconsumed
  have hmore : ∀ key, key ∈ ((g.consumer.resolveSequence, task) :: g.submitted).map Prod.fst ↔
      key < g.consumer.resolveSequence + 1 := by
    intro key
    rw [List.map_cons, List.mem_cons, hsubmitted]
    dsimp only
    omega
  have hcount : g.consumer.nextResolve + (g.consumer.outstanding + 1) =
      g.consumer.resolveSequence + 1 := by omega
  unfold Cursor.submitted
  split
  · exact ⟨⟨taken, hcut, hlength⟩, hconsumed, hnone, hmore, hstage, hcount,
      fun _ => Nat.succ_ne_zero _, by simp, nofun⟩
  · exact ⟨⟨taken, hcut, hlength⟩, hconsumed, hnone, hmore, hstage, hcount, nofun, by simp, nofun⟩

private theorem Keyed.retire (keyed : Keyed data startByte g) {lease : Nat} {pre post : List Nat}
    (rejected : g.consumer.phase = .rejected lease) (held : g.leases = pre ++ lease :: post) :
    Keyed data startByte { g with
      consumer := { g.consumer with
        phase := .draining, fallbackChunks := g.consumer.fallbackChunks + 1 }
      leases := pre ++ post } := by
  have hnone := keyed.released held (by rw [rejected]; rfl)
  obtain ⟨hcut, hconsumed, -, hsubmitted, hstage, houtstanding, -, hunfinished, hasJob⟩ := keyed
  rw [rejected] at hcut hconsumed hasJob
  exact ⟨hcut, hconsumed, hnone, hsubmitted, hstage, houtstanding, nofun,
    fun _ => hunfinished (.inr ⟨lease, rejected⟩), hasJob⟩

theorem Keyed.moves (keyed : Keyed data startByte g) (moves : Moves data startByte threads g g') :
    KeepsKeys data startByte g' := by
  cases moves with
  | takePrimary head unfinished hasJob executed =>
    exact keyed.takePrimary head unfinished hasJob _ executed
  | retire rejected held => exact .inr (keyed.retire rejected held)
  | fallback draining => exact keyed.fallback draining
  | submit accepted held => exact .inr (keyed.submit accepted held threads)
  | takeStage waiting some_left =>
    apply keyed.takeStage waiting
    rcases some_left with hfull | hleft
    · exact keyed.full hfull
    · exact hleft

private theorem KeepsKeys.moves (keeps : KeepsKeys data startByte g)
    (moves : Moves data startByte threads g g') : KeepsKeys data startByte g' := by
  obtain ⟨error, hfailed⟩ | keyed := keeps
  · cases moves <;> simp_all
  · exact keyed.moves moves

end Steps

def Phase.weight : Phase crc → Nat
  | .head | .full => 3
  | .rejected _ => 2
  | .draining => 1
  | .accepted _ _ => 5
  | .failed _ => 0

/-- What the coordinator has still to do, at most. -/
def Cursor.rank (data : List UInt8) (cursor : Cursor crc) : Nat :=
  6 * (data.length * 8 - cursor.nextStart) + cursor.outstanding + cursor.phase.weight

section Progress

variable {data : List UInt8} {startByte threads : Nat}
  {g g' : Ledger (ResolveTask crc) (Cursor crc)}

private theorem Cursor.fail_descends (cursor : Cursor crc) (error : Error)
    (running : 0 < cursor.phase.weight) : (cursor.fail error).rank data < cursor.rank data := by
  have hfailed : (cursor.fail error).phase.weight = 0 := rfl
  have hsame : (cursor.fail error).nextStart = cursor.nextStart ∧
      (cursor.fail error).outstanding = cursor.outstanding := ⟨rfl, rfl⟩
  rw [Cursor.rank, Cursor.rank, hfailed, hsame.1, hsame.2]
  omega

private theorem Cursor.takeStage_descends {cursor : Cursor crc}
    (waiting : cursor.phase = .head ∨ cursor.phase = .draining ∨ cursor.phase = .full)
    (some_left : cursor.outstanding ≠ 0) (resolved : Result (ResolvedSegment crc)) :
    (cursor.takeStage resolved).rank data < cursor.rank data := by
  rcases cursor.takeStage_cases resolved with
    ⟨error, hfailed⟩ | ⟨phase, committer, hfull, hother, hnext⟩
  · rw [hfailed]
    apply Cursor.fail_descends
    rcases waiting with h | h | h <;> simp [h, Phase.weight]
  · rw [hnext]
    rcases waiting with h | h | h
    · rw [hother (by simp [h])]
      simp only [Cursor.rank, h, Phase.weight]
      omega
    · rw [hother (by simp [h])]
      simp only [Cursor.rank, h, Phase.weight]
      omega
    · rw [hfull h]
      simp only [Cursor.rank, h, Phase.weight]
      omega

/-- Every move of the coordinator brings the end nearer. -/
theorem Moves.descends (keyed : Keyed data startByte g)
    (moves : Moves data startByte threads g g') :
    g'.consumer.rank data < g.consumer.rank data := by
  cases moves with
  | @takePrimary lease speculative head unfinished hasJob executed =>
    have hweight : g.consumer.phase.weight = 3 := by rw [head]; rfl
    have hreject : ({ g.consumer with phase := .rejected lease } : Cursor crc).rank data <
        g.consumer.rank data := by
      simp only [Cursor.rank, hweight]
      exact Nat.lt_succ_self _
    dsimp only
    cases hspeculative : speculative with
    | error error => exact hreject
    | ok segment =>
      simp only [Cursor.takePrimary]
      split
      case isFalse => exact hreject
      case isTrue here =>
      have hdecoded := runGzipJob_ok (executed.trans hspeculative)
      obtain ⟨hadvances, hinside, -⟩ := decodeSegment_bounds hdecoded
      cases haccept : g.consumer.accept lease segment with
      | error error => exact Cursor.fail_descends _ error (by rw [hweight]; decide)
      | ok next =>
        obtain ⟨window, -, heq⟩ := result_bind_eq_ok.mp haccept
        obtain rfl := Except.ok.inj heq
        simp only [Cursor.attempt, Cursor.rank, hweight]
        simp only [Phase.weight]
        omega
  | @retire lease pre post rejected held =>
    have hweight : g.consumer.phase.weight = 2 := by rw [rejected]; rfl
    simp only [Cursor.rank, hweight]
    exact Nat.lt_succ_self _
  | fallback draining drained =>
    have hweight : g.consumer.phase.weight = 1 := by rw [draining]; rfl
    dsimp only
    cases hfallback : g.consumer.fallback data startByte with
    | error error => exact Cursor.fail_descends _ error (by rw [hweight]; decide)
    | ok next =>
      obtain ⟨segment, hsegment, hfallback⟩ := result_bind_eq_ok.mp hfallback
      obtain ⟨committed, hcommitted, heq⟩ := result_bind_eq_ok.mp hfallback
      obtain rfl := Except.ok.inj heq
      simp only [Cursor.commitSegment, result_bind_eq_ok] at hcommitted
      obtain ⟨window, -, resolved, -, committer, -, heq⟩ := hcommitted
      obtain rfl := Except.ok.inj heq
      obtain ⟨hadvances, hinside, -⟩ := decodeSegment_bounds hsegment
      simp only [Cursor.attempt, Cursor.rank, hweight]
      simp only [Phase.weight]
      omega
  | @submit lease task pre post accepted held =>
    have hweight : g.consumer.phase.weight = 5 := by rw [accepted]; rfl
    have hnext : (g.consumer.submitted threads).phase.weight = 3 := by
      simp only [Cursor.submitted]
      split <;> rfl
    simp only [Cursor.rank, hweight, hnext]
    simp only [Cursor.submitted]
    omega
  | takeStage waiting some_left =>
    apply Cursor.takeStage_descends waiting
    rcases some_left with hfull | hleft
    · exact keyed.full hfull
    · exact hleft

end Progress

section Questions

variable {setting : Setting crc} {data : List UInt8} {startByte threads : Nat}
  {g : Ledger (ResolveTask crc) (Cursor crc)}

theorem takePrimary_op (head : g.consumer.phase = .head) (unfinished : g.consumer.finalBlock = false) :
    (streamProgram setting data startByte threads).consumer.op g.consumer =
      .takePrimary g.consumer.key := by
  simp [streamProgram, coordinator, head, unfinished]

/-- Whatever the coordinator asks for is there to come, a result for the next grid point when there
is one. -/
theorem Keyed.legal_iff (keyed : Keyed data startByte g) :
    (streamProgram setting data startByte threads).Legal g ↔
      (g.consumer.phase = .head → g.consumer.finalBlock = false →
        HasJob startByte data.length g.consumer.key) := by
  have hop : (streamProgram setting data startByte threads).consumer.op g.consumer =
    (coordinator data startByte threads).op g.consumer := rfl
  have hstage (left : g.consumer.outstanding ≠ 0) :
      g.consumer.nextResolve ∈ g.submitted.map Prod.fst ∧
        g.consumer.nextResolve ∉ g.stageConsumed := by
    rw [keyed.submitted, keyed.stageConsumed]
    have := keyed.outstanding
    omega
  have hlease {lease : Nat} (one : g.consumer.phase.leases = [lease]) : lease ∈ g.leases := by
    rw [keyed.leases, one]
    exact List.mem_singleton_self lease
  have hstaged : (streamProgram setting data startByte threads).staged = true := rfl
  rw [Program.Legal, hop]
  cases hphase : g.consumer.phase with
  | head =>
    simp only [coordinator, hphase]
    by_cases hfinal : g.consumer.finalBlock = true
    · rw [if_pos hfinal]
      by_cases left : g.consumer.outstanding ≠ 0
      · simp [left, hstaged, hstage left, hfinal]
      · simp [left, hfinal]
    · have hfresh : g.consumer.key ∉ g.consumed := by
        rw [keyed.consumed, hphase]
        exact fun h => Nat.lt_irrefl _ h.2
      rw [if_neg hfinal]
      simp only [streamJobs_key, hfresh, not_false_eq_true, and_true, Bool.eq_false_iff.mpr hfinal,
        forall_const]
  | rejected lease =>
    simp only [coordinator, hphase]
    simp [hlease (by rw [hphase]; rfl)]
  | draining =>
    simp only [coordinator, hphase]
    by_cases left : g.consumer.outstanding ≠ 0
    · simp [left, hstaged, hstage left]
    · simp [left]
  | accepted lease task =>
    simp only [coordinator, hphase]
    simp [hstaged, hlease (by rw [hphase]; rfl)]
  | full =>
    simp only [coordinator, hphase]
    simp [hstaged, hstage (keyed.full hphase)]
  | failed error =>
    simp only [coordinator, hphase]
    simp

private theorem Keyed.prompt (keyed : Keyed data startByte g) :
    (streamProgram setting data startByte threads).Prompt g := by
  have hop : (streamProgram setting data startByte threads).consumer.op g.consumer =
    (coordinator data startByte threads).op g.consumer := rfl
  rw [Program.Prompt, hop]
  cases hphase : g.consumer.phase with
  | head =>
    simp only [coordinator, hphase]
    by_cases hfinal : g.consumer.finalBlock = true
    · rw [if_pos hfinal]
      by_cases left : g.consumer.outstanding ≠ 0 <;> simp [left]
    · rw [if_neg hfinal]
      refine ⟨by rw [keyed.leases, hphase]; rfl, ?_⟩
      intro pre job post hsplit hkey earlier hmem
      have hbefore : earlier.key < job.key := by
        have hsorted := @streamJobs_sorted _ setting data startByte threads
        rw [hsplit] at hsorted
        exact (List.pairwise_append.mp hsorted).2.2 _ hmem _ List.mem_cons_self
      have hjob : HasJob startByte data.length earlier.key := by
        refine (@streamJobs_key _ setting data startByte threads _).mp (List.mem_map.mpr ⟨_, ?_, rfl⟩)
        rw [hsplit]
        exact List.mem_append_left _ hmem
      rw [keyed.consumed, hphase, ← hkey]
      exact ⟨hjob.1, hbefore⟩
  | draining =>
    simp only [coordinator, hphase]
    by_cases left : g.consumer.outstanding ≠ 0 <;> simp [left]
  | rejected | accepted | full | failed =>
    simp only [coordinator, hphase]

theorem failed_op {error : Error} (failed : g.consumer.phase = .failed error) :
    (streamProgram setting data startByte threads).consumer.op g.consumer = .done (.error error) := by
  simp [streamProgram, coordinator, failed]

variable {initial : Segment crc} {member base : Nat}

theorem reaches_keepsKeys
    (decoded : decodeSegment crc data (startByte * 8) (estimatedStop startByte data.length 0)
      .empty parallelOutputLimit = .ok initial)
    (run : Reaches (streamProgram setting data startByte threads).Follows
      ⟨Cursor.start initial member base, [], [], [], []⟩ g) : KeepsKeys data startByte g :=
  run.invariant (keepsKeys_start decoded member base) fun _ _ keeps follows =>
    keeps.moves (moves_of_follows follows)

/-- The pipeline of a stream ends unless its coordinator asks for a grid point that has no job. -/
theorem streamProgram_fed
    (decoded : decodeSegment crc data (startByte * 8) (estimatedStop startByte data.length 0)
      .empty parallelOutputLimit = .ok initial)
    (room : parallelJobMemory ≤ setting.options.memoryLimit) :
    (streamProgram setting data startByte threads).Fed (Cursor.start initial member base)
      (Cursor.rank data) where
  keys_nodup := streamJobs_nodup
  executes := by simp [streamProgram]
  fits job hmem := by
    obtain ⟨key, -, rfl⟩ := mem_streamJobs.mp hmem
    apply Nat.le_min_of_le_of_le room
    exact Nat.le_mul_of_pos_right _ (Nat.succ_pos _)
  active := by
    simp only [streamProgram]
    omega
  unstaged h := absurd h (by simp [streamProgram])
  prompt g run _ := by
    obtain ⟨error, hfailed⟩ | keyed := reaches_keepsKeys decoded run
    · exact Program.prompt_done (failed_op hfailed)
    · exact keyed.prompt
  stages := by simp [streamProgram]
  descends g g' run follows := by
    obtain ⟨error, hfailed⟩ | keyed := reaches_keepsKeys decoded run
    · exact absurd follows (Program.Follows.not_done (failed_op hfailed))
    · exact (moves_of_follows follows).descends keyed

end Questions

end Fbz.Deflate
