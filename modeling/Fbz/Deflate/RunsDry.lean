import Fbz.Deflate.Locality
import Fbz.Deflate.Schedule
import Fbz.Deflate.Unfailing

/-!
# Streams that run dry

Data that stops to the bit behind a block that is not the last one, with a segment for every grid
point, makes the coordinator ask for a grid point that has no job. It waits for good.
-/

namespace Fbz.Deflate

open DeflateOutput Pipeline Transition

variable {crc : Crc32}

section Cut

variable {data : List UInt8} {startByte key bit bit' : Nat} {window window' : List UInt8}
  {segment : Segment crc} {segments segments' front rest : List (Segment crc)} {fin : Bool}

private theorem Cut.within {fin' : Bool} (cut : Cut data startByte segments bit fin)
    (cut' : Cut data startByte segments' bit' fin') (unfinished : fin' = false)
    (fewer : segments.length ≤ segments'.length) : fin = false ∧ bit ≤ bit' := by
  induction cut' with
  | first decoded =>
    have hsame : segments.length = 1 := Nat.le_antisymm fewer cut.length_pos
    obtain ⟨-, rfl, rfl⟩ := cut.unique (.first decoded) hsame
    exact ⟨unfinished, Nat.le_refl _⟩
  | @next segments' bit' segment front decoded ih =>
    rcases Nat.eq_or_lt_of_le fewer with heq | hlt
    · obtain ⟨-, rfl, rfl⟩ := cut.unique (front.next decoded) heq
      exact ⟨unfinished, Nat.le_refl _⟩
    · rw [List.length_append, List.length_singleton] at hlt
      obtain ⟨hunfinished, hle⟩ := ih rfl (Nat.le_of_lt_succ hlt)
      have := (decodeSegment_bounds decoded).1
      exact ⟨hunfinished, by omega⟩

private theorem HeldBack.unique {segments' : List (Segment crc)} {other' : List UInt8}
    (held : HeldBack data startByte key bit window segments bit' window') {last : Nat}
    (held' : HeldBack data startByte key bit window segments' last other') (same : segments = segments') :
    bit' = last ∧ window' = other' := by
  induction held generalizing segments' last other' with
  | none =>
    obtain ⟨rfl, rfl⟩ := held'.of_nil same.symm
    exact ⟨rfl, rfl⟩
  | next earlier found here unfinished known ih =>
    cases held' with
    | none => simp at same
    | next earlier' found' here' unfinished' known' =>
      obtain ⟨rfl, heq⟩ := List.append_inj' same rfl
      obtain rfl := List.singleton_inj.mp heq
      obtain ⟨-, rfl⟩ := ih earlier' rfl
      exact ⟨rfl, Except.ok.inj (known.symm.trans known')⟩

private theorem HeldBack.goes_on {listed : List (Segment crc)}
    (held : HeldBack data startByte key bit window listed bit' window')
    (split : listed = front ++ segment :: rest) :
    ∃ middle before after, HeldBack data startByte key bit window front middle before ∧
      runGzipJob crc data (gridJob startByte data.length (key + front.length)).payload = .ok segment ∧
      segment.startBit = middle ∧ segment.finalBlock = false ∧
      successorWindow segment before = .ok after := by
  induction held generalizing rest with
  | none => simp at split
  | @next segments middle last before after earlier found here unfinished known ih =>
    cases hrest : rest using List.reverseRecOn with
    | nil =>
      subst hrest
      obtain ⟨rfl, heq⟩ := List.append_inj' split rfl
      obtain rfl := List.singleton_inj.mp heq
      exact ⟨middle, before, after, earlier, found, here, unfinished, known⟩
    | append_singleton rest other =>
      subst hrest
      rw [← List.cons_append, ← List.append_assoc] at split
      obtain ⟨heq, -⟩ := List.append_inj' split rfl
      exact ih heq

end Cut

/-- The coordinator on its way to where the data runs dry. -/
structure Drying (data : List UInt8) (startByte threads member base : Nat)
    (front back : List (Segment crc)) (bit : Nat) (bytes : List UInt8)
    (g : Ledger (ResolveTask crc) (Cursor crc)) (done : List (Segment crc))
    (queue : List (ResolveTask crc)) : Prop where
  holding : Holding data startByte threads member base g done queue
  alive : ¬ g.consumer.phase.Failed
  unfinished : g.consumer.finalBlock = false
  early : g.consumer.phase = .draining ∨ (∃ lease, g.consumer.phase = .rejected lease) →
    g.consumer.key < front.length
  behind : ∀ count, g.consumer.key + g.consumer.phase.ahead = front.length + count →
    HeldBack data startByte front.length bit (lastWindow bytes) (back.take count)
      g.consumer.nextStart g.consumer.predecessor

section Passes

variable {data bytes bytes' : List UInt8} {startBit bit member base : Nat} {blocks blocks' : List Block}
  {fin fin' : Bool} {cursor : Cursor crc} {submitted : List (Nat × ResolveTask crc)}
  {done : List (Segment crc)} {queue : List (ResolveTask crc)}

private theorem Passes.bytes_eq (passes : Passes data startBit bit bytes blocks fin)
    (passes' : Passes data startBit bit bytes' blocks' fin') : bytes = bytes' := by
  rcases Nat.lt_trichotomy blocks.length blocks'.length with hlt | heq | hgt
  · exact absurd (passes.bit_lt passes' hlt) (Nat.lt_irrefl _)
  · exact (passes.unique passes' heq).2.1
  · exact absurd (passes'.bit_lt passes hgt) (Nat.lt_irrefl _)

private theorem InOrder.window_at
    (inOrder : InOrder data startBit member base cursor submitted done queue)
    (passes : Passes data startBit cursor.nextStart bytes blocks false) (counted : bytes.length < 2 ^ 64)
    (unfinished : cursor.finalBlock = false) : cursor.predecessor = lastWindow bytes := by
  obtain ⟨c, hcommits⟩ := (passes.clear counted).commits inOrder.chain (Nat.le_refl _) member base
  have hbytes : resolvedBytes [] _ = .ok c.output := resolvedBytes_commitAll hcommits
  obtain ⟨last, blocks', hpasses, hend⟩ := inOrder.knowsWindow.passes _ hbytes
  rw [unfinished] at hpasses hend
  obtain rfl : cursor.nextStart = last := hend
  rw [inOrder.knowsWindow.window _ hbytes, passes.bytes_eq hpasses]

end Passes

@[simp] theorem Phase.tasks_length (phase : Phase crc) : phase.tasks.length = phase.ahead := by
  cases phase <;> rfl

private theorem Cursor.takePrimary_cases (cursor : Cursor crc) (lease : Nat)
    (speculative : Result (Segment crc)) :
    cursor.takePrimary lease speculative = { cursor with phase := .rejected lease } ∨
      ∃ segment, speculative = .ok segment ∧ segment.startBit = cursor.nextStart := by
  cases speculative with
  | error error => exact .inl rfl
  | ok segment =>
    by_cases here : segment.startBit = cursor.nextStart
    · exact .inr ⟨segment, rfl, here⟩
    · exact .inl (if_neg here)

private theorem Cursor.takePrimary_accepted {cursor : Cursor crc} {segment : Segment crc}
    {after : List UInt8} (here : segment.startBit = cursor.nextStart)
    (known : successorWindow segment cursor.predecessor = .ok after) (lease : Nat) :
    cursor.takePrimary lease (.ok segment) = { cursor with
      phase := .accepted lease ⟨segment, cursor.predecessor⟩
      predecessor := after
      speculativeChunks := cursor.speculativeChunks + 1
      nextStart := segment.endBit
      finalBlock := segment.finalBlock } := by
  simp only [takePrimary, if_pos here, accept, known, result_bind_ok]
  rfl

section Drying

variable {setting : Setting crc} {data bytes window : List UInt8}
  {startByte threads member base bit : Nat} {front back done : List (Segment crc)}
  {blocks : List Block} {queue : List (ResolveTask crc)}
  {g g' : Ledger (ResolveTask crc) (Cursor crc)}

private theorem Holding.taken (holding : Holding data startByte threads member base g done queue)
    (unfinished : g.consumer.finalBlock = false) :
    ∃ taken : List (Segment crc), Cut data startByte taken g.consumer.nextStart false ∧
      taken.length = g.consumer.key + g.consumer.phase.ahead := by
  obtain ⟨bit, hcut, hheld⟩ := holding.held unfinished
  refine ⟨_, hheld.cut hcut, ?_⟩
  rw [List.length_append, List.length_map, List.length_append, Phase.tasks_length, ← holding.key,
    Nat.add_assoc]

private theorem Holding.behind (holding : Holding data startByte threads member base g done queue)
    (driesUp : DriesUp data startByte threads front back bit bytes window blocks)
    (unfinished : g.consumer.finalBlock = false)
    (early : g.consumer.key + g.consumer.phase.ahead ≤ front.length) (count : Nat)
    (here : g.consumer.key + g.consumer.phase.ahead = front.length + count) :
    HeldBack data startByte front.length bit (lastWindow bytes) (back.take count)
      g.consumer.nextStart g.consumer.predecessor := by
  obtain ⟨taken, htaken, hlength⟩ := holding.taken unfinished
  obtain rfl : count = 0 := by omega
  obtain ⟨-, rfl, -⟩ := driesUp.cut.unique htaken (by omega)
  rw [holding.inOrder.window_at driesUp.passes driesUp.counted unfinished]
  exact .none

private theorem Holding.next_within
    (holding : Holding data startByte threads member base g done queue)
    (driesUp : DriesUp data startByte threads front back bit bytes window blocks)
    (unfinished : g.consumer.finalBlock = false) (idle : g.consumer.phase.ahead = 0)
    (early : g.consumer.key < front.length) {segment : Segment crc}
    (decoded : decodeSegment crc data g.consumer.nextStart
      (estimatedStop startByte data.length g.consumer.key) .unknown parallelOutputLimit =
        .ok segment) : segment.finalBlock = false ∧ segment.endBit ≤ bit := by
  obtain ⟨taken, htaken, hlength⟩ := holding.taken unfinished
  rw [idle] at hlength
  have hlength : taken.length = g.consumer.key := hlength
  rw [← hlength] at decoded
  refine (htaken.next decoded).within driesUp.cut rfl ?_
  rw [List.length_append, List.length_singleton, hlength]
  exact early

private theorem Holding.taken_le (holding : Holding data startByte threads member base g done queue)
    (driesUp : DriesUp data startByte threads front back bit bytes window blocks)
    (unfinished : g.consumer.finalBlock = false) :
    g.consumer.key + g.consumer.phase.ahead ≤ front.length + back.length := by
  obtain ⟨taken, htaken, hlength⟩ := holding.taken unfinished
  by_contra hmore
  obtain ⟨-, segment, hsegment⟩ := (driesUp.held.cut driesUp.cut).goes_on htaken (by
    rw [List.length_append]
    omega)
  obtain ⟨hadvances, hinside, -⟩ := decodeSegment_bounds hsegment
  omega

private theorem Holding.accept (holding : Holding data startByte threads member base g done queue)
    (head : g.consumer.phase = .head) (unfinished : g.consumer.finalBlock = false) (lease : Nat)
    {segment : Segment crc} {after : List UInt8}
    (executed : runGzipJob crc data (gridJob startByte data.length g.consumer.key).payload =
      .ok segment)
    (here : segment.startBit = g.consumer.nextStart)
    (known : successorWindow segment g.consumer.predecessor = .ok after) :
    ∃ done queue, Holding data startByte threads member base { g with
      consumer := { g.consumer with
        phase := .accepted lease ⟨segment, g.consumer.predecessor⟩
        predecessor := after
        speculativeChunks := g.consumer.speculativeChunks + 1
        nextStart := segment.endBit
        finalBlock := segment.finalBlock }
      leases := lease :: g.leases
      consumed := g.consumer.key :: g.consumed } done queue := by
  have hkeeps := holding.takePrimary head unfinished lease executed
  rw [Cursor.takePrimary_accepted here known] at hkeeps
  apply hkeeps.resolve_left
  rintro ⟨error, h⟩
  cases h

/-- The workers of the segments behind have found them where they start. -/
private theorem DriesUp.found_behind
    (driesUp : DriesUp data startByte threads front back bit bytes window blocks) {key count next : Nat}
    {predecessor : List UInt8} (hasJob : HasJob startByte data.length key)
    (here : key = front.length + count)
    (behind : HeldBack data startByte front.length bit (lastWindow bytes) (back.take count) next
      predecessor) :
    ∃ segment after,
      runGzipJob crc data (gridJob startByte data.length key).payload = .ok segment ∧
      segment.startBit = next ∧ segment.finalBlock = false ∧
      successorWindow segment predecessor = .ok after ∧
      HeldBack data startByte front.length bit (lastWindow bytes) (back.take (count + 1))
        segment.endBit after := by
  have hfew : count < back.length := by
    by_contra hmany
    have hmany := Nat.mul_le_mul_right parallelGrid
      (show front.length + back.length ≤ key by omega)
    have := hasJob.2
    have := driesUp.behind
    omega
  have hsplit : back = back.take count ++ back[count] :: back.drop (count + 1) := by simp
  obtain ⟨middle, before, after, hfront, hfound, hstart, hmore, hknown⟩ :=
    driesUp.held.goes_on hsplit
  obtain ⟨rfl, rfl⟩ := hfront.unique behind rfl
  have hlength : key = front.length + (back.take count).length := by
    rw [List.length_take, Nat.min_eq_left (Nat.le_of_lt hfew), here]
  have hnext := behind.next hfound hstart hmore hknown
  rw [List.take_append_getElem hfew] at hnext
  rw [← hlength] at hfound
  exact ⟨_, after, hfound, hstart, hmore, hknown, hnext⟩

/-- A worker's segment is accepted, or the coordinator will decode one itself before those behind. -/
theorem Drying.takePrimary
    (drying : Drying data startByte threads member base front back bit bytes g done queue)
    (driesUp : DriesUp data startByte threads front back bit bytes window blocks)
    (head : g.consumer.phase = .head) (hasJob : HasJob startByte data.length g.consumer.key)
    (lease : Nat) {speculative : Result (Segment crc)}
    (executed : runGzipJob crc data (gridJob startByte data.length g.consumer.key).payload =
      speculative) :
    ∃ done queue, Drying data startByte threads member base front back bit bytes { g with
      consumer := g.consumer.takePrimary lease speculative
      leases := lease :: g.leases
      consumed := g.consumer.key :: g.consumed } done queue := by
  obtain ⟨holding, alive, unfinished, -, behind⟩ := drying
  have hidle : g.consumer.phase.ahead = 0 := by
    rw [head]
    rfl
  by_cases early : g.consumer.key < front.length
  · rcases g.consumer.takePrimary_cases lease speculative with hreject | ⟨segment, rfl, here⟩
    · have hkeeps := holding.takePrimary head unfinished lease executed
      rw [hreject] at hkeeps ⊢
      obtain ⟨done, queue, hholding⟩ := hkeeps.resolve_left (by
        rintro ⟨error, h⟩
        cases h)
      refine ⟨done, queue, hholding, ?_, unfinished, fun _ => early,
        hholding.behind driesUp unfinished (Nat.le_of_lt early)⟩
      rintro ⟨error, h⟩
      cases h
    · have hdecoded := runGzipJob_ok executed
      rw [here] at hdecoded
      obtain ⟨hmore, hinside⟩ := holding.next_within driesUp unfinished hidle early hdecoded
      obtain ⟨after, hknown⟩ := holding.inOrder.window_next (driesUp.passes.clear driesUp.counted)
        unfinished hdecoded hinside
      obtain ⟨done, queue, hholding⟩ := holding.accept head unfinished lease executed here hknown
      rw [Cursor.takePrimary_accepted here hknown]
      refine ⟨done, queue, hholding, ?_, hmore, ?_, hholding.behind driesUp hmore early⟩
      · rintro ⟨error, h⟩
        cases h
      · rintro (h | ⟨lease, h⟩) <;> cases h
  · obtain ⟨count, hcount⟩ := Nat.exists_eq_add_of_le (Nat.le_of_not_lt early)
    obtain ⟨segment, after, hfound, here, hmore, hknown, hnext⟩ :=
      driesUp.found_behind hasJob hcount (behind count (by rw [hidle]; exact hcount))
    obtain rfl := executed.symm.trans hfound
    obtain ⟨done, queue, hholding⟩ := holding.accept head unfinished lease executed here hknown
    rw [Cursor.takePrimary_accepted here hknown]
    refine ⟨done, queue, hholding, ?_, hmore, ?_, ?_⟩
    · rintro ⟨error, h⟩
      cases h
    · rintro (h | ⟨lease, h⟩) <;> cases h
    · intro count' hcount'
      obtain rfl : count' = count + 1 := by
        simp only [Phase.ahead] at hcount'
        omega
      exact hnext

/-- What is put out next is one of the segments in front. -/
theorem Drying.takeStage
    (drying : Drying data startByte threads member base front back bit bytes g done queue)
    (driesUp : DriesUp data startByte threads front back bit bytes window blocks)
    (waiting : g.consumer.phase = .head ∨ g.consumer.phase = .draining ∨ g.consumer.phase = .full)
    (last : g.consumer.phase = .head → g.consumer.finalBlock = true) {task : ResolveTask crc}
    (handed : (g.consumer.nextResolve, task) ∈ g.submitted) (stageConsumed : List Nat) :
    ∃ done queue, Drying data startByte threads member base front back bit bytes { g with
      consumer := g.consumer.takeStage (resolveSegment task.segment task.predecessor)
      stageConsumed } done queue := by
  obtain ⟨holding, alive, unfinished, early, behind⟩ := drying
  obtain ⟨rest, rfl⟩ := holding.inOrder.first handed
  have hidle := Phase.idle_of waiting
  have hahead : g.consumer.phase.ahead = 0 := by rw [← Phase.tasks_length, hidle, List.length_nil]
  have hfront : done.length < front.length := by
    have hkey := holding.key
    rw [List.length_cons] at hkey
    rcases waiting with head | draining | full
    · rw [last head] at unfinished
      cases unfinished
    · have := early (.inl draining)
      omega
    · have hall := holding.full full
      have hfew := driesUp.few
      have htaken := holding.taken_le driesUp unfinished
      rw [List.length_cons] at hall
      omega
  have hinside : task.segment.endBit ≤ bit := by
    obtain ⟨start, hcut, hheld⟩ := holding.held unfinished
    obtain ⟨-, hfound, here, -⟩ := hheld.uncons rfl
    have hdecoded := runGzipJob_ok hfound
    rw [here] at hdecoded
    refine ((hcut.next hdecoded).within driesUp.cut rfl ?_).2
    rw [List.length_append, List.length_singleton]
    exact hfront
  have halive := holding.inOrder.stages (driesUp.passes.clear driesUp.counted) alive hinside
  obtain ⟨done, queue, hholding⟩ := (holding.takeStage waiting handed stageConsumed).resolve_left halive
  rcases g.consumer.takeStage_cases (resolveSegment task.segment task.predecessor) with
    ⟨error, hfailed⟩ | ⟨phase, committer, hfull, hother, hnext⟩
  · exact absurd ⟨error, by rw [hfailed]; rfl⟩ halive
  · have hphase : phase.ahead = 0 ∧ (phase = .draining ∨ (∃ lease, phase = .rejected lease) →
        g.consumer.key < front.length) := by
      by_cases full : g.consumer.phase = .full
      · rw [hfull full]
        exact ⟨rfl, by simp⟩
      · rw [hother full]
        exact ⟨hahead, early⟩
    refine ⟨done, queue, hholding, halive, ?_, ?_, ?_⟩
    all_goals
      dsimp only
      rw [hnext]
    · exact unfinished
    · exact hphase.2
    · intro count hcount
      apply behind count
      rw [hphase.1] at hcount
      rw [hahead]
      exact hcount

/-- In front, the coordinator can decode any segment itself. -/
theorem Drying.fallback
    (drying : Drying data startByte threads member base front back bit bytes g done queue)
    (driesUp : DriesUp data startByte threads front back bit bytes window blocks)
    (draining : g.consumer.phase = .draining) (drained : g.consumer.outstanding = 0) :
    ∃ done queue, Drying data startByte threads member base front back bit bytes { g with
      consumer := g.consumer.attempt (g.consumer.fallback data startByte) } done queue := by
  obtain ⟨holding, alive, unfinished, early, behind⟩ := drying
  have hearly := early (.inl draining)
  have hkeeps := holding.fallback draining drained
  have hidle : g.consumer.phase.tasks = [] := by
    rw [draining]
    rfl
  have hahead : g.consumer.phase.ahead = 0 := by rw [← Phase.tasks_length, hidle, List.length_nil]
  obtain rfl : queue = [] := List.length_eq_zero_iff.mp (holding.inOrder.outstanding ▸ drained)
  obtain ⟨taken, htaken, hlength⟩ := holding.taken unfinished
  rw [hahead] at hlength
  have hlength : taken.length = g.consumer.key := hlength
  obtain ⟨-, segment, hsegment⟩ := htaken.goes_on driesUp.cut (by omega)
  rw [hlength] at hsegment
  obtain ⟨hmore, hinside⟩ := holding.next_within driesUp unfinished hahead hearly hsegment
  obtain ⟨next, hnext⟩ := holding.inOrder.commits (driesUp.passes.clear driesUp.counted) hidle
    unfinished hsegment hinside
  have hfallback : g.consumer.fallback data startByte =
      .ok { next with phase := .head, key := next.key + 1 } := by
    rw [Cursor.fallback, hsegment, result_bind_ok, hnext]
    rfl
  rw [hfallback] at hkeeps ⊢
  simp only [Cursor.commitSegment, result_bind_eq_ok] at hnext
  obtain ⟨after, -, resolved, -, committer, -, heq⟩ := hnext
  obtain rfl := Except.ok.inj heq
  obtain ⟨done, queue, hholding⟩ := hkeeps.resolve_left (by
    rintro ⟨error, h⟩
    cases h)
  refine ⟨done, queue, hholding, ?_, hmore, ?_, hholding.behind driesUp hmore hearly⟩
  · rintro ⟨error, h⟩
    cases h
  · rintro (h | ⟨lease, h⟩) <;> cases h

private theorem Drying.submit
    (drying : Drying data startByte threads member base front back bit bytes g done queue)
    {lease : Nat} {task : ResolveTask crc} (accepted : g.consumer.phase = .accepted lease task)
    (leases : List Nat) :
    Drying data startByte threads member base front back bit bytes { g with
      consumer := g.consumer.submitted threads
      leases
      submitted := (g.consumer.resolveSequence, task) :: g.submitted } done (queue ++ [task]) := by
  obtain ⟨holding, alive, unfinished, early, behind⟩ := drying
  have hphase : (g.consumer.submitted threads).phase = .full ∨
      (g.consumer.submitted threads).phase = .head := by
    simp only [Cursor.submitted]
    split <;> simp
  have hahead : (g.consumer.submitted threads).phase.ahead = 0 := by
    rcases hphase with h | h <;> rw [h] <;> rfl
  refine ⟨holding.submit accepted leases, ?_, unfinished, ?_, ?_⟩
  · rintro ⟨error, h⟩
    rcases hphase with h' | h' <;> cases h'.symm.trans h
  · rintro (h | ⟨lease, h⟩) <;> rcases hphase with h' | h' <;> cases h'.symm.trans h
  · intro count hcount
    rw [hahead] at hcount
    apply behind count
    rw [accepted]
    exact hcount

private theorem Drying.moves
    (drying : Drying data startByte threads member base front back bit bytes g done queue)
    (driesUp : DriesUp data startByte threads front back bit bytes window blocks)
    (moves : Moves data startByte threads g g') :
    ∃ done queue, Drying data startByte threads member base front back bit bytes g' done queue := by
  cases moves with
  | takePrimary head unfinished hasJob executed =>
    exact drying.takePrimary driesUp head hasJob _ executed
  | @retire lease pre post rejected held =>
    obtain ⟨holding, alive, unfinished, early, behind⟩ := drying
    refine ⟨done, queue, holding.rephase (by rw [rejected]; rfl) (by rw [rejected]; simp) (by simp) _
      (fun _ => unfinished) _ _, ?_, unfinished, fun _ => early (.inr ⟨lease, rejected⟩), ?_⟩
    · rintro ⟨error, h⟩
      cases h
    · intro count hcount
      apply behind count
      rw [rejected]
      exact hcount
  | fallback draining drained => exact drying.fallback driesUp draining drained
  | submit accepted held => exact ⟨done, _, drying.submit accepted _⟩
  | takeStage waiting some_left handed last => exact drying.takeStage driesUp waiting last handed _

variable {initial : Segment crc}

private theorem reaches_drying
    (driesUp : DriesUp data startByte threads front back bit bytes window blocks)
    (decoded : decodeSegment crc data (startByte * 8) (estimatedStop startByte data.length 0)
      .empty parallelOutputLimit = .ok initial)
    (run : Reaches (streamProgram setting data startByte threads).Follows
      ⟨Cursor.start initial member base, [], [], [], []⟩ g) :
    ∃ done queue, Drying data startByte threads member base front back bit bytes g done queue := by
  have hsome := Nat.lt_of_le_of_lt (Nat.zero_le _) driesUp.few
  have halive := start_running (by decide) decoded member base
  obtain ⟨done, queue, hholding⟩ : ∃ done queue, Holding data startByte threads member base
      ⟨Cursor.start initial member base, [], [], [], []⟩ done queue :=
    (keepsHold_start hsome decoded member base).resolve_left halive
  obtain ⟨resolved, committer, -, -, hstart⟩ := Cursor.start_eq (by decide) decoded member base
  have hpos := driesUp.cut.length_pos
  have hmore := ((Cut.first decoded).within driesUp.cut rfl hpos).1
  have hopen : Drying data startByte threads member base front back bit bytes
      ⟨Cursor.start initial member base, [], [], [], []⟩ done queue := by
    have hbehind := hholding.behind driesUp
    refine ⟨hholding, halive, ?_, ?_, ?_⟩
    all_goals
      dsimp only at hbehind ⊢
      rw [hstart] at hbehind ⊢
    · exact hmore
    · rintro (h | ⟨lease, h⟩) <;> cases h
    · exact hbehind hmore hpos
  exact run.invariant (I := fun g => ∃ done queue,
    Drying data startByte threads member base front back bit bytes g done queue) ⟨done, queue, hopen⟩
    fun _ _ ⟨_, _, drying⟩ follows => drying.moves driesUp (moves_of_follows follows)

private theorem Drying.not_done
    (drying : Drying data startByte threads member base front back bit bytes g done queue)
    (result : Outcome) :
    (coordinator data startByte threads).op g.consumer ≠ .done result := by
  have hunfinished := drying.unfinished
  cases hphase : g.consumer.phase with
  | failed error => exact absurd ⟨error, hphase⟩ drying.alive
  | head => simp [coordinator, hphase, hunfinished]
  | draining =>
    by_cases left : g.consumer.outstanding = 0 <;> simp [coordinator, hphase, left]
  | rejected | accepted | full => simp [coordinator, hphase]

end Drying

section Waits

variable {setting : Setting crc} {input data : List UInt8} {stream : DeflateStream}

/-- Some run of a pipeline that runs dry comes to wait for a result no worker will ever send. -/
theorem dry_waits (many : setting.threads stream ≠ 1) (bounds : streamData input stream = .ok data)
    {initial : Segment crc} (first : (initialSegment data stream : Result (Segment crc)) = .ok initial)
    (dry : RunsDry crc data stream.startByte (setting.threads stream)) :
    ∃ s, Reaches (streamProgram setting data stream.startByte (setting.threads stream)).Step
        (pipelineStart setting data stream initial) s ∧ s.finished = none ∧
      ¬ (streamProgram setting data stream.startByte (setting.threads stream)).Legal s.ledger ∧
      (streamProgram setting data stream.startByte (setting.threads stream)).WaitsForever s := by
  obtain ⟨front, back, bit, bytes, window, blocks, driesUp⟩ := dry
  have hsome := Nat.lt_of_le_of_lt (Nat.zero_le _) driesUp.few
  have hdecoded := first
  rw [initialSegment_eq bounds] at hdecoded
  obtain ⟨s, hrun, hend⟩ := (pipeline_returns_or_illegal hsome many bounds first).exists_reaches
  have hrunning : s.finished = none := by
    obtain ⟨⟨g, halone, hsame⟩, hdone⟩ := Program.reachable_consumer _ hrun
    by_contra hfinished
    obtain ⟨result, hresult⟩ := Option.ne_none_iff_exists'.mp hfinished
    obtain ⟨done, queue, hdrying⟩ := reaches_drying driesUp hdecoded halone
    refine hdrying.not_done result ?_
    rw [hsame]
    exact hdone result hresult
  have hillegal := hend.resolve_left fun returned => returned.1 hrunning
  refine ⟨s, hrun, hrunning, hillegal.2, ?_⟩
  have halone := (Program.reachable_invariant _ hrun).explained.running hrunning
  obtain ⟨done, queue, hdrying⟩ := reaches_drying driesUp hdecoded halone
  have hkeyed := (reaches_keepsKeys hdecoded halone).resolve_left hdrying.alive
  have hasks := hillegal.2
  rw [hkeyed.legal_iff] at hasks
  push Not at hasks
  obtain ⟨head, unfinished, hmissing⟩ := hasks
  refine Program.missing_waits hrun hrunning (.inr (takePrimary_op head unfinished)) ?_
  rw [streamJobs_key]
  exact hmissing

private theorem WaitsForever.stream_open (bounds : streamData input stream = .ok data)
    {s : Pipeline.State (Result (Segment crc)) (ResolveTask crc) (Result (ResolvedSegment crc))
      Outcome (Cursor crc)}
    (run : Reaches (StreamStep setting input stream) .opened (.parallel s))
    (stuck : (streamProgram setting data stream.startByte (setting.threads stream)).WaitsForever s) :
    ¬ Inevitable (StreamStep setting input stream) StreamState.Ended .opened := by
  intro ends
  have hends := ends.of_reaches (fun t u ended step => ?_) run
  · obtain ⟨t, hrun, progress, outcome, rfl⟩ := hends.exists_reaches
    -- As long as the pipeline waits, the stream is in its pipeline.
    have hinside := hrun.invariant (I := fun t => match t with
      | .parallel t => Reaches
          (streamProgram setting data stream.startByte (setting.threads stream)).Step s t
      | _ => False) .refl (fun t u ht step => ?_)
    · exact hinside
    · cases step with
      | run bounds' step =>
        obtain rfl := Except.ok.inj (bounds.symm.trans bounds')
        exact Relation.ReflTransGen.tail ht step
      | join returned => exact returned.1 (stuck.2 _ ht).1
      | refuse | serial | giveUp | reserve | spawn => exact False.elim ht
  · obtain ⟨progress, outcome, rfl⟩ := ended
    cases step

private theorem dry_stream_waits (many : setting.threads stream ≠ 1)
    (bounds : streamData input stream = .ok data)
    (dry : RunsDry crc data stream.startByte (setting.threads stream)) :
    (∃ s, Reaches (StreamStep setting input stream) .opened (.parallel s) ∧ s.finished = none ∧
      ¬ (streamProgram setting data stream.startByte (setting.threads stream)).Legal s.ledger ∧
      (streamProgram setting data stream.startByte (setting.threads stream)).WaitsForever s) ∧
    ¬ Inevitable (StreamStep setting input stream) StreamState.Ended .opened := by
  obtain ⟨segments, hcut, -⟩ := dry.cut
  obtain ⟨initial, hinitial⟩ := hcut.initial
  rw [← initialSegment_eq bounds] at hinitial
  obtain ⟨s, hrun, hrunning, hillegal, hstuck⟩ := dry_waits many bounds hinitial dry
  have hreaches := reaches_parallel many bounds hinitial hrun
  exact ⟨⟨s, hreaches, hrunning, hillegal, hstuck⟩, WaitsForever.stream_open bounds hreaches hstuck⟩

/-- Exactly where the data does not run dry, the coordinator of a stream asks only for results of jobs
and for staged work it has handed on, each once; it never waits in vain, and every run ends. -/
theorem stream_never_waits_iff (setting : Setting crc) (input data : List UInt8)
    (stream : DeflateStream) (threads : 0 < setting.threads stream)
    (bounds : streamData input stream = .ok data) :
    ((∀ s, Reaches (StreamStep setting input stream) .opened (.parallel s) → s.finished = none →
      (streamProgram setting data stream.startByte (setting.threads stream)).Legal s.ledger ∧
      ¬ (streamProgram setting data stream.startByte (setting.threads stream)).WaitsForever s) ∧
    Inevitable (StreamStep setting input stream) StreamState.Ended .opened) ↔
      setting.threads stream = 1 ∨
        ¬ RunsDry crc data stream.startByte (setting.threads stream) := by
  constructor
  · rintro ⟨-, ends⟩
    by_contra dries
    push Not at dries
    exact (dry_stream_waits dries.1 bounds dries.2).2 ends
  · intro lasts
    have returns (many : setting.threads stream ≠ 1) (initial : Segment crc)
        (first : (initialSegment data stream : Result (Segment crc)) = .ok initial) :=
      pipeline_returns threads many bounds first (lasts.resolve_left many)
    refine ⟨?_, stream_ends bounds returns⟩
    intro s hrun running
    have hmany := many_of_run hrun
    cases standing_of_run hrun with
    | @parallel data' initial s bounds' first run =>
      obtain rfl := Except.ok.inj (bounds.symm.trans bounds')
      refine ⟨legal_of_run threads bounds first (lasts.resolve_left hmany) run running, ?_⟩
      intro stuck
      exact stuck.not_returns run (returns hmany initial first)

end Waits

/-- A dynamic block of 128 bits with nothing in it, and not the last one. -/
def emptyBlock : List UInt8 := [148, 192, 129, 8, 0, 0, 0, 0, 32, 127, 235, 171, 170, 170, 170, 106]

def emptyBlocks (count : Nat) : List UInt8 := (List.replicate count emptyBlock).flatten

section EmptyBlocks

theorem decodeBlock_of_bytes {part bytes : List UInt8} {block : Block} {next : Nat}
    (h : (decodeBlock part 0 0 (⟨[]⟩ : History)).toOption.map (fun r => (r.1.bytes, r.2)) =
      some (bytes, block, next)) :
    decodeBlock part 0 0 (⟨[]⟩ : History) = .ok (⟨bytes⟩, block, next) := by
  cases hpart : decodeBlock part 0 0 (⟨[]⟩ : History) with
  | error error => simp [hpart, Except.toOption] at h
  | ok found =>
    obtain ⟨⟨bytes⟩, block, next⟩ := found
    rw [hpart] at h
    simp only [Except.toOption, Option.map_some, Option.some.injEq, Prod.mk.injEq] at h
    obtain ⟨rfl, rfl, rfl⟩ := h
    rfl

private theorem emptyBlock_decodes : decodeBlock emptyBlock 0 0 (⟨[]⟩ : History) =
    .ok (⟨[]⟩, ⟨0, .dynamicHuffman, false, 0, 128, 0, 0⟩, 128) :=
  decodeBlock_of_bytes (by decide +kernel)

theorem emptyBlocks_length (count : Nat) : (emptyBlocks count).length = 16 * count := by
  simp [emptyBlocks, emptyBlock, Nat.mul_comm]

variable {count done : Nat} (rest : List UInt8)

private theorem emptyBlocks_split (inside : done < count) :
    emptyBlocks count ++ rest =
      emptyBlocks done ++ emptyBlock ++ (emptyBlocks (count - (done + 1)) ++ rest) := by
  have hcount : count = done + (1 + (count - (done + 1))) := by omega
  conv_lhs => rw [hcount]
  simp [emptyBlocks, List.replicate_add]

private theorem emptyBlocks_block (inside : done < count) :
    ∃ block, decodeBlock (emptyBlocks count ++ rest) 0 (128 * done) (⟨[]⟩ : History) =
        .ok (⟨[]⟩, block, 128 * (done + 1)) ∧
      block.finalBlock = false ∧ block.kind = .dynamicHuffman := by
  have hnone : Rebases 0 (id : History → History) :=
    ⟨fun h => h, fun out => (Nat.zero_add _).symm⟩
  have hlength := emptyBlocks_length done
  have hembed := @decodeBlock_embed (emptyBlocks done) emptyBlock
    (emptyBlocks (count - (done + 1)) ++ rest) _ _ _ _ _ _ _ ⟨(emptyBlocks done).length, 0, 0, 0⟩
    hnone rfl _ _ emptyBlock_decodes
  rw [← emptyBlocks_split rest inside, hlength] at hembed
  have hstart : 128 * done = 8 * (16 * done) + 0 := by omega
  have hend : 128 * (done + 1) = 8 * (16 * done) + 128 := by omega
  rw [hstart, hend]
  exact ⟨_, hembed, rfl, rfl⟩

theorem emptyBlocks_passes (inside : done ≤ count) :
    ∃ blocks, Passes (emptyBlocks count ++ rest) 0 (128 * done) [] blocks false := by
  induction done with
  | zero => exact ⟨[], .start⟩
  | succ done ih =>
    obtain ⟨blocks, hpasses⟩ := ih (Nat.le_of_succ_le inside)
    obtain ⟨block, hblock, hfinal, -⟩ := emptyBlocks_block rest inside
    have hnext := hpasses.block hblock
    rw [hfinal] at hnext
    exact ⟨_, hnext⟩

private theorem emptyBlocks_until {stop : Nat} (here : done < stop) (inside : stop ≤ count)
    (blocks : List Block) :
    ∃ blocks', decodeUntil (emptyBlocks count ++ rest) (128 * stop) id (128 * done) blocks
      (⟨[]⟩ : History) = .ok (⟨[]⟩, blocks', 128 * stop, false) := by
  generalize hleft : stop - done = left
  induction left generalizing done blocks with
  | zero => omega
  | succ left ih =>
    obtain ⟨block, hblock, hfinal, hkind⟩ :=
      emptyBlocks_block rest (Nat.lt_of_lt_of_le here inside)
    rw [decodeUntil_eq, hblock]
    simp only [hfinal, hkind, and_true, Bool.false_eq_true, if_false, id]
    by_cases hstop : 128 * stop ≤ 128 * (done + 1)
    · have hhere : done + 1 = stop := by omega
      rw [if_pos hstop, hhere]
      exact ⟨_, rfl⟩
    · rw [if_neg hstop]
      exact ih (by omega) _ (by omega)

variable {crc : Crc32}

private theorem emptyBlocks_append_length :
    (emptyBlocks count ++ rest).length = 16 * count + rest.length := by
  rw [List.length_append, emptyBlocks_length]

private theorem emptyBlocks_stop {points key : Nat} (inside : 32768 * points ≤ count)
    (few : key < points) :
    estimatedStop 0 (emptyBlocks count ++ rest).length key = 128 * (32768 * (key + 1)) := by
  rw [estimatedStop, emptyBlocks_append_length, parallelGrid]
  omega

theorem emptyBlocks_initial (inside : 32768 ≤ count) : ∃ segment : Segment crc,
    decodeSegment crc (emptyBlocks count ++ rest) (0 * 8) (128 * 32768) .empty parallelOutputLimit =
        .ok segment ∧
      segment.endBit = 128 * 32768 ∧ segment.finalBlock = false := by
  obtain ⟨blocks, hloop⟩ := @emptyBlocks_until count 0 rest 32768 (by decide) inside []
  have hloop : decodeUntil (emptyBlocks count ++ rest) (128 * 32768) id (0 * 8) [] ({} : History) =
      .ok (⟨[]⟩, blocks, 128 * 32768, false) := hloop
  have hinitial := @initial_segment crc (emptyBlocks count ++ rest) (0 * 8) (128 * 32768)
    parallelOutputLimit (by omega)
  rw [hloop] at hinitial
  dsimp only at hinitial
  have hsmall : ([] : List UInt8).length ≤ parallelOutputLimit := Nat.zero_le _
  rw [if_pos hsmall] at hinitial
  exact ⟨_, hinitial, rfl, rfl⟩

theorem emptyBlocks_cut {points : Nat} (some : 1 ≤ points) (inside : 32768 * points ≤ count) :
    ∃ segments : List (Segment crc),
      Cut (emptyBlocks count ++ rest) 0 segments (128 * (32768 * points)) false ∧
        segments.length = points := by
  induction points, some using Nat.le_induction with
  | base =>
    obtain ⟨segment, hinitial, hend, hfin⟩ := @emptyBlocks_initial count rest crc (by omega)
    have hfirst := @Cut.first crc (emptyBlocks count ++ rest) 0 segment (by
      rw [emptyBlocks_stop rest inside Nat.one_pos]
      exact hinitial)
    rw [hend, hfin] at hfirst
    exact ⟨_, hfirst, rfl⟩
  | succ points some ih =>
    obtain ⟨segments, hcut, rfl⟩ := ih (by omega)
    obtain ⟨blocks, hloop⟩ := @emptyBlocks_until count (32768 * segments.length) rest
      (32768 * (segments.length + 1)) (by omega) inside []
    have hfront : 128 * (32768 * segments.length) ≤ (emptyBlocks count ++ rest).length * 8 := by
      rw [emptyBlocks_append_length]
      omega
    have hstop := emptyBlocks_stop rest inside (Nat.lt_succ_self segments.length)
    obtain ⟨segment, hsegment⟩ := (@unknown_segment crc _ _ _ parallelOutputLimit _ _ _ _ _ hfront
      hloop).mpr (Nat.zero_le _)
    obtain ⟨hend, hfin⟩ := unknown_segment_ends hsegment hloop
    rw [← hstop] at hsegment
    have hnext := hcut.next hsegment
    rw [hend, hfin] at hnext
    refine ⟨_, hnext, ?_⟩
    rw [List.length_append, List.length_singleton]

private theorem emptyBlocks_dry {points threads : Nat} (some : 1 ≤ points)
    (threaded : 0 < threads) : RunsDry crc (emptyBlocks (32768 * points)) 0 threads := by
  obtain ⟨segments, hcut, hlength⟩ :=
    @emptyBlocks_cut (32768 * points) [] crc points some (Nat.le_refl _)
  obtain ⟨blocks, hpasses⟩ := emptyBlocks_passes [] (Nat.le_refl (32768 * points))
  rw [List.append_nil] at hcut hpasses
  have hend : (emptyBlocks (32768 * points)).length * 8 = 128 * (32768 * points) := by
    rw [emptyBlocks_length]
    omega
  refine ⟨segments, [], 128 * (32768 * points), [], [], blocks, hcut, hpasses, by decide, threaded, ?_,
    ?_⟩
  · rw [hend]
    exact .none
  · rw [emptyBlocks_length, hlength, parallelGrid]
    simp only [List.length_nil]
    omega

end EmptyBlocks

/-- Two threads and the least memory the options allow. -/
def drySetting : Setting Crc32.reference := ⟨⟨2, maxDecodedBlock⟩, 2, fun _ => 0⟩

/-- Sixteen MiB of empty blocks. -/
def dryInput : List UInt8 := emptyBlocks (32768 * 32)

def dryStream : DeflateStream := ⟨0, 16 * (32768 * 32), 0, 0⟩

private theorem dryInput_bounds : streamData dryInput dryStream = .ok dryInput :=
  streamData_all rfl (emptyBlocks_length _)

/-- The coordinator asks for grid point 32 and never gets an answer. -/
theorem dryInput_waits :
    (∃ s, Reaches (StreamStep drySetting dryInput dryStream) .opened (.parallel s) ∧
      s.finished = none ∧ ¬ (streamProgram drySetting dryInput 0 2).Legal s.ledger ∧
      (streamProgram drySetting dryInput 0 2).WaitsForever s) ∧
    ¬ Inevitable (StreamStep drySetting dryInput dryStream) StreamState.Ended .opened := by
  have hthreads : drySetting.threads dryStream = 2 := by decide
  have hmany : drySetting.threads dryStream ≠ 1 := by
    rw [hthreads]
    decide
  have hdry : RunsDry Crc32.reference dryInput 0 (drySetting.threads dryStream) := by
    rw [hthreads]
    unfold dryInput
    exact emptyBlocks_dry (by decide) (by decide)
  have hwaits := dry_stream_waits hmany dryInput_bounds hdry
  rw [hthreads] at hwaits
  exact hwaits

end Fbz.Deflate
