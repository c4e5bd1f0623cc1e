import Fbz.Deflate.Keys

/-!
# Streams that decode

Where one thread decodes the data block by block, to the last block or to the end of the data, every
chain of segments resolves and the coordinator never gives up.
-/

namespace Fbz.Deflate

open DeflateOutput Pipeline Transition

variable {crc : Crc32}

section Passes

variable {data : List UInt8} {startBit bit bit' : Nat} {bytes bytes' : List UInt8}
  {blocks blocks' : List Block} {fin fin' : Bool}

theorem Passes.unique (passes : Passes data startBit bit bytes blocks fin)
    (passes' : Passes data startBit bit' bytes' blocks' fin')
    (same : blocks.length = blocks'.length) :
    bit = bit' ∧ bytes = bytes' ∧ blocks = blocks' ∧ fin = fin' := by
  induction passes generalizing bit' bytes' blocks' fin' with
  | start =>
    cases passes' with
    | start => exact ⟨rfl, rfl, rfl, rfl⟩
    | block => simp at same
  | block front decoded ih =>
    cases passes' with
    | start => simp at same
    | block front' decoded' =>
      obtain ⟨rfl, rfl, rfl, -⟩ := ih front' (by simpa using same)
      cases decoded.symm.trans decoded'
      exact ⟨rfl, rfl, rfl, rfl⟩

theorem Passes.goes_on (passes : Passes data startBit bit bytes blocks fin)
    (passes' : Passes data startBit bit' bytes' blocks' fin')
    (fewer : blocks.length < blocks'.length) :
    fin = false ∧ ∃ next, decodeBlock data 0 bit (⟨bytes⟩ : History) = .ok next := by
  induction passes' with
  | start => simp at fewer
  | @block bit1 next bytes1 bytes2 blocks1 block front decoded ih =>
    rw [List.length_append, List.length_singleton] at fewer
    rcases Nat.eq_or_lt_of_le (Nat.le_of_lt_succ fewer) with heq | hlt
    · obtain ⟨rfl, rfl, -, rfl⟩ := passes.unique front heq
      exact ⟨rfl, _, decoded⟩
    · exact ih hlt

theorem Passes.extends (passes : Passes data startBit bit bytes blocks fin)
    (passes' : Passes data startBit bit' bytes' blocks' fin')
    (fewer : blocks.length ≤ blocks'.length) : ∃ rest, blocks' = blocks ++ rest := by
  induction passes' with
  | start =>
    obtain rfl := List.length_eq_zero_iff.mp (Nat.le_zero.mp fewer)
    exact ⟨[], rfl⟩
  | @block bit1 next bytes1 bytes2 blocks1 block front decoded ih =>
    rcases Nat.eq_or_lt_of_le fewer with heq | hlt
    · obtain ⟨-, -, rfl, -⟩ := passes.unique (front.block decoded) heq
      exact ⟨[], (List.append_nil _).symm⟩
    · rw [List.length_append, List.length_singleton] at hlt
      obtain ⟨rest, rfl⟩ := ih (Nat.le_of_lt_succ hlt)
      exact ⟨rest ++ [block], List.append_assoc ..⟩

private theorem Passes.length_le (passes : Passes data startBit bit bytes blocks fin)
    (passes' : Passes data startBit bit' bytes' blocks' fin')
    (fewer : blocks.length ≤ blocks'.length) : bytes.length ≤ bytes'.length := by
  induction passes' with
  | start =>
    obtain ⟨-, rfl, -, -⟩ := passes.unique .start (Nat.le_zero.mp fewer)
    exact Nat.le_refl _
  | @block bit1 next bytes1 bytes2 blocks1 block front decoded ih =>
    rcases Nat.eq_or_lt_of_le fewer with heq | hlt
    · obtain ⟨-, rfl, -, -⟩ := passes.unique (front.block decoded) heq
      exact Nat.le_refl _
    · rw [List.length_append, List.length_singleton] at hlt
      exact Nat.le_trans (ih (Nat.le_of_lt_succ hlt)) (decodeBlock_grows decoded)

theorem Passes.bit_lt (passes : Passes data startBit bit bytes blocks fin)
    (passes' : Passes data startBit bit' bytes' blocks' fin')
    (fewer : blocks.length < blocks'.length) : bit < bit' := by
  induction passes' with
  | start => simp at fewer
  | @block bit1 next bytes1 bytes2 blocks1 block front decoded ih =>
    have hadvances := decodeBlock_advances decoded
    rw [List.length_append, List.length_singleton] at fewer
    rcases Nat.eq_or_lt_of_le (Nat.le_of_lt_succ fewer) with heq | hlt
    · obtain ⟨rfl, -⟩ := passes.unique front heq
      exact hadvances.1
    · exact (ih hlt).trans hadvances.1

end Passes

/-- One thread decodes to here, and here the stream or the data ends. -/
structure Through (data : List UInt8) (startBit last : Nat) (bytes : List UInt8)
    (blocks : List Block) (fin : Bool) : Prop where
  passes : Passes data startBit last bytes blocks fin
  ended : fin = true ∨ last = data.length * 8
  counted : bytes.length < 2 ^ 64

section Through

variable {data : List UInt8} {startBit last bit : Nat} {all bytes : List UInt8}
  {allBlocks blocks : List Block} {fin fin' : Bool}

theorem Through.fewer (through : Through data startBit last all allBlocks fin)
    (passes : Passes data startBit bit bytes blocks fin') : blocks.length ≤ allBlocks.length := by
  by_contra hmore
  obtain ⟨hfin, next, hnext⟩ := through.passes.goes_on passes (Nat.lt_of_not_le hmore)
  have hlast : last = data.length * 8 := by
    apply through.ended.resolve_left
    rw [hfin]
    decide
  have := decodeBlock_advances hnext
  omega

private theorem Through.counts (through : Through data startBit last all allBlocks fin)
    (passes : Passes data startBit bit bytes blocks fin') : bytes.length < 2 ^ 64 :=
  Nat.lt_of_le_of_lt (passes.length_le through.passes (through.fewer passes)) through.counted

/-- Up to `limit` no block of the stream is refused, and the bytes can be counted. -/
structure Clear (data : List UInt8) (startBit limit : Nat) : Prop where
  goes_on : ∀ {bit bytes blocks}, Passes data startBit bit bytes blocks false → bit < limit →
    ∃ next, decodeBlock data 0 bit (⟨bytes⟩ : History) = .ok next
  counts : ∀ {bit bytes blocks fin}, Passes data startBit bit bytes blocks fin → bit ≤ limit →
    bytes.length < 2 ^ 64

private theorem Through.clear (through : Through data startBit last all allBlocks fin) :
    Clear data startBit (data.length * 8) where
  goes_on passes inside := by
    rcases Nat.lt_or_eq_of_le (through.fewer passes) with hlt | heq
    · exact (passes.goes_on through.passes hlt).2
    · obtain ⟨rfl, -, -, rfl⟩ := passes.unique through.passes heq
      exact absurd inside (by rw [through.ended.resolve_left (by decide)]; exact Nat.lt_irrefl _)
  counts passes _ := through.counts passes

theorem Passes.clear (passes : Passes data startBit last all allBlocks false)
    (counted : all.length < 2 ^ 64) : Clear data startBit last where
  goes_on other inside := by
    refine (other.goes_on passes ?_).2
    by_contra hmore
    rcases Nat.lt_or_eq_of_le (Nat.le_of_not_lt hmore) with hlt | heq
    · exact Nat.lt_asymm inside (passes.bit_lt other hlt)
    · obtain ⟨rfl, -⟩ := passes.unique other heq
      exact Nat.lt_irrefl _ inside
  counts other inside := by
    refine Nat.lt_of_le_of_lt (other.length_le passes ?_) counted
    by_contra hmore
    exact Nat.not_le.mpr (passes.bit_lt other (Nat.lt_of_not_le hmore)) inside

/-- Where the markers of a segment decode and the real history does not, there is a block inside the
segment that the real history refuses. -/
theorem decodeUntil_refused {stopBit endBit : Nat} {before : List UInt8} {h : History}
    {m m' : MarkerOutput} {blocksBefore : List Block} {error : Error} {fin : Bool}
    (passes : Passes data startBit bit h.bytes blocksBefore false)
    (tracks : Tracks before m (.ok h)) (reads : Reads m) {blocks blocks' : List Block}
    (hloop : decodeUntil data stopBit MarkerOutput.tryClean bit blocks m =
      .ok (m', blocks', endBit, fin)) {realBlocks : List Block}
    (refused : decodeUntil data stopBit id bit realBlocks h = .error error) :
    ∃ bit bytes blocks, Passes data startBit bit bytes blocks false ∧ bit < endBit ∧
      ∃ error, decodeBlock data 0 bit (⟨bytes⟩ : History) = .error error := by
  induction bit, realBlocks, h using @decodeUntil.induct History _ data stopBit id
    generalizing m blocks blocksBefore with
  | case1 bit realBlocks h error' hblock =>
    exact ⟨bit, h.bytes, blocksBefore, passes, (decodeUntil_bounds hloop).1, error', hblock⟩
  | case2 bit realBlocks h h1 block next hblock hfinal =>
    rw [decodeUntil_eq, hblock] at refused
    simp [hfinal] at refused
  | case3 bit realBlocks h h1 block next hblock hfinal hstop =>
    rw [decodeUntil_eq, hblock] at refused
    simp [hfinal, hstop] at refused
  | case4 bit realBlocks h h1 block next hblock hfinal hstop ih =>
    rw [decodeUntil_eq, hblock] at refused
    simp only [hfinal, if_neg hstop, Bool.false_eq_true, if_false] at refused
    rw [decodeUntil_eq] at hloop
    cases hmarker : decodeBlock data 0 bit m with
    | error error' => simp [hmarker] at hloop
    | ok found =>
      obtain ⟨m1, block', next'⟩ := found
      obtain ⟨hreads, htracks⟩ := tracks.decodeBlock reads hmarker
      rw [result_bind_ok, hblock] at htracks
      obtain ⟨hagrees, hsame⟩ := htracks
      obtain ⟨rfl, rfl⟩ := Prod.mk.inj hsame
      rw [hmarker] at hloop
      have hmore : block'.finalBlock = false := Bool.eq_false_iff.mpr hfinal
      simp only [hmore, Bool.false_eq_true, if_false] at hloop
      rw [if_neg (by exact hstop)] at hloop
      have hpasses := passes.block hblock
      rw [Block.commit_finalBlock, hmore] at hpasses
      exact ih hpasses (Tracks.tryClean (r := .ok h1) hagrees hreads) hreads.tryClean.1 hloop refused

private theorem Clear.resolves {segment : Segment crc} {stopBit limit outputLimit : Nat}
    (clear : Clear data startBit limit) (passes : Passes data startBit bit bytes blocks false)
    (decoded : decodeSegment crc data bit stopBit .unknown outputLimit = .ok segment)
    (inside : segment.endBit ≤ limit) :
    ∃ resolved, resolveSegment segment (lastWindow bytes) = .ok resolved := by
  cases hreal : decodeUntil data stopBit id bit [] (⟨bytes⟩ : History) with
  | ok found => exact (resolveSegment_iff decoded bytes).1.mpr ⟨found, hreal⟩
  | error error =>
    obtain ⟨-, -, m, hloop, -⟩ := decodeSegment_until decoded
    obtain ⟨bit', bytes', blocks', hpasses, hbefore, error', herror⟩ :=
      decodeUntil_refused (h := ⟨bytes⟩) passes (agrees_new bytes outputLimit)
        (Reads.new outputLimit) hloop hreal
    obtain ⟨next, hnext⟩ := clear.goes_on hpasses (Nat.lt_of_lt_of_le hbefore inside)
    rw [herror] at hnext
    cases hnext

private theorem Segment.Valid.commits {segment : Segment crc} {resolved : ResolvedSegment crc}
    {predecessor : List UInt8} {c : SegmentCommitter crc} (valid : segment.Valid)
    (hresolve : resolveSegment segment predecessor = .ok resolved)
    (fits : c.decoded + resolved.bytes.length < 2 ^ 64) : ∃ c', c.commit resolved = .ok c' := by
  rw [SegmentCommitter.commit, (valid.resolved hresolve).1, ensure_of fits]
  exact ⟨_, rfl⟩

private theorem le_segmentEnd (fin : Bool) (bit : Nat) : bit ≤ segmentEnd fin bit := by
  cases fin with
  | false => exact Nat.le_refl _
  | true => exact Bits.le_alignByte bit

/-- Every chain of segments can be put out as far as the way is clear. -/
theorem Clear.commits {segments : List (Segment crc)} {limit : Nat}
    (clear : Clear data startBit limit) (chain : Chain data startBit segments bit fin')
    (inside : bit ≤ limit) (member base : Nat) :
    ∃ c, (SegmentCommitter.new member base).commitAll segments = .ok c := by
  induction chain with
  | @first stopBit outputLimit segment decoded =>
    obtain ⟨resolved, hresolve⟩ : ∃ resolved, resolveSegment segment (lastWindow []) = .ok resolved := by
      obtain ⟨bytes, blocks, -, -, heq⟩ := decodeSegment_empty decoded
      rw [heq, resolveSegment, resolveSymbols, if_neg (by simp)]
      exact ⟨_, rfl⟩
    have hstart : Passes data startBit segment.startBit [] [] false := by
      rw [(decodeSegment_until decoded).1]
      exact .start
    obtain ⟨last, added, hpasses, hend, -⟩ := (fits_empty decoded hresolve).1.passes hstart
    have hlast := le_segmentEnd segment.finalBlock last
    have hfits := clear.counts hpasses (by omega)
    rw [List.nil_append] at hfits
    obtain ⟨c, hcommit⟩ := (decodeSegment_valid decoded).commits
      (c := SegmentCommitter.new member base) hresolve (by
        change 0 + resolved.bytes.length < 2 ^ 64
        omega)
    refine ⟨c, ?_⟩
    rw [SegmentCommitter.commitAll]
    exact result_bind_eq_ok.mpr ⟨resolved, hresolve, result_bind_eq_ok.mpr ⟨c, hcommit, rfl⟩⟩
  | @next segments bit stopBit outputLimit segment front decoded ih =>
    have hadvances := (decodeSegment_bounds decoded).1
    obtain ⟨c, hfront⟩ := ih (by omega)
    obtain ⟨final, hcommitted, hend⟩ := front.committed hfront
    obtain rfl : bit = final := hend
    obtain ⟨before, hpasses, -⟩ := hcommitted.passes
    obtain ⟨resolved, hresolve⟩ := clear.resolves hpasses decoded inside
    have hstart : Passes data startBit segment.startBit c.output before false := by
      rw [(decodeSegment_until decoded).1]
      exact hpasses
    obtain ⟨last, added, hnext, hend, -⟩ := (fits_unknown decoded hresolve).passes hstart
    have hlast := le_segmentEnd segment.finalBlock last
    have hfits := clear.counts hnext (by omega)
    rw [List.length_append, ← hcommitted.decoded] at hfits
    obtain ⟨c', hcommit⟩ := (decodeSegment_valid decoded).commits hresolve hfits
    refine ⟨c', ?_⟩
    rw [SegmentCommitter.commitAll_append, hfront, result_bind_ok, SegmentCommitter.commitAll,
      hresolve, result_bind_ok, hcommit]
    rfl

end Through

/-- A segment can be decoded wherever the coordinator may have to do so itself. -/
def Supplied (crc : Crc32) (data : List UInt8) (startByte : Nat) : Prop :=
  ∀ (segments : List (Segment crc)) bit, Cut data startByte segments bit false →
    HasJob startByte data.length segments.length →
      ∃ segment, decodeSegment crc data bit (estimatedStop startByte data.length segments.length)
        .unknown parallelOutputLimit = .ok segment

def Phase.Failed (phase : Phase crc) : Prop := ∃ error, phase = .failed error

section Coordinator

variable {data : List UInt8} {startBit member base : Nat} {cursor : Cursor crc}
  {submitted : List (Nat × ResolveTask crc)} {done : List (Segment crc)}
  {queue : List (ResolveTask crc)}

theorem InOrder.window_next {segment : Segment crc} {stopBit limit outputLimit : Nat}
    (inOrder : InOrder data startBit member base cursor submitted done queue)
    (clear : Clear data startBit limit) (unfinished : cursor.finalBlock = false)
    (decoded : decodeSegment crc data cursor.nextStart stopBit .unknown outputLimit = .ok segment)
    (inside : segment.endBit ≤ limit) :
    ∃ window, successorWindow segment cursor.predecessor = .ok window := by
  have hchain := inOrder.chain
  rw [unfinished] at hchain
  obtain ⟨c, hcommits⟩ := clear.commits (hchain.next decoded) inside member base
  rw [SegmentCommitter.commitAll_append] at hcommits
  obtain ⟨c', hfront, hcommits⟩ := result_bind_eq_ok.mp hcommits
  obtain ⟨resolved, hresolve, -⟩ := result_bind_eq_ok.mp hcommits
  rw [inOrder.knowsWindow.window _ (resolvedBytes_commitAll hfront)]
  exact ⟨_, successorWindow_eq (decodeSegment_valid decoded).symbols hresolve⟩

private theorem Cursor.accept_alive {segment : Segment crc}
    (known : ∃ window, successorWindow segment cursor.predecessor = .ok window) (lease : Nat) :
    ¬ (cursor.attempt (cursor.accept lease segment)).phase.Failed := by
  obtain ⟨window, hwindow⟩ := known
  rw [Cursor.accept, hwindow]
  rintro ⟨error, h⟩
  cases h

/-- The first segment that is still being resolved can be put out. -/
theorem InOrder.stages {first : ResolveTask crc} {rest : List (ResolveTask crc)} {limit : Nat}
    (inOrder : InOrder data startBit member base cursor submitted done (first :: rest))
    (clear : Clear data startBit limit) (running : ¬ cursor.phase.Failed)
    (inside : first.segment.endBit ≤ limit) :
    ¬ (cursor.takeStage (resolveSegment first.segment first.predecessor)).phase.Failed := by
  obtain ⟨c, hcommits⟩ := clear.commits (inOrder.chain.upTo (by rfl)) inside member base
  have hpredecessor : first.predecessor = lastWindow cursor.committer.output := inOrder.windows.1
  rw [SegmentCommitter.commitAll_append, inOrder.committed, result_bind_ok] at hcommits
  obtain ⟨resolved, hresolve, hcommits⟩ := result_bind_eq_ok.mp hcommits
  obtain ⟨committer, hcommit, -⟩ := result_bind_eq_ok.mp hcommits
  rw [← hpredecessor] at hresolve
  obtain ⟨phase, hfull, hother, hnext⟩ := Cursor.takeStage_ok hcommit
  rw [hresolve, hnext]
  rintro ⟨error, h⟩
  dsimp only at h
  by_cases hphase : cursor.phase = .full
  · rw [hfull hphase] at h
    cases h
  · rw [hother hphase] at h
    exact running ⟨error, h⟩

theorem InOrder.first {task : ResolveTask crc}
    (inOrder : InOrder data startBit member base cursor submitted done queue)
    (mem : (cursor.nextResolve, task) ∈ submitted) : ∃ rest, queue = task :: rest := by
  obtain ⟨-, hentry⟩ := inOrder.keys _ mem
  have hfirst := hentry (Nat.le_refl _)
  dsimp only at hfirst
  rw [Nat.sub_self] at hfirst
  cases queue with
  | nil => cases hfirst
  | cons first rest =>
    obtain rfl := Option.some.inj hfirst
    exact ⟨rest, rfl⟩

/-- With nothing left to resolve, a segment the coordinator decodes itself can be put out. -/
theorem InOrder.commits {segment : Segment crc} {stopBit limit outputLimit : Nat}
    (inOrder : InOrder data startBit member base cursor submitted done [])
    (clear : Clear data startBit limit) (idle : cursor.phase.tasks = [])
    (unfinished : cursor.finalBlock = false)
    (decoded : decodeSegment crc data cursor.nextStart stopBit .unknown outputLimit = .ok segment)
    (inside : segment.endBit ≤ limit) :
    ∃ next, cursor.commitSegment segment = .ok next := by
  obtain ⟨window, hwindow⟩ := inOrder.window_next clear unfinished decoded inside
  have hchain := inOrder.chain
  have hpredecessor := inOrder.windows
  rw [idle] at hchain hpredecessor
  rw [unfinished] at hchain
  have hpredecessor : cursor.predecessor = lastWindow cursor.committer.output := hpredecessor
  obtain ⟨c, hcommits⟩ := clear.commits (hchain.next decoded) inside member base
  rw [List.append_nil, List.map_nil, List.append_nil, SegmentCommitter.commitAll_append,
    inOrder.committed, result_bind_ok] at hcommits
  obtain ⟨resolved, hresolve, hcommits⟩ := result_bind_eq_ok.mp hcommits
  obtain ⟨committer, hcommit, -⟩ := result_bind_eq_ok.mp hcommits
  rw [← hpredecessor] at hresolve
  rw [Cursor.commitSegment, hwindow, result_bind_ok, hresolve, result_bind_ok, hcommit]
  exact ⟨_, rfl⟩

theorem start_running {initial : Segment crc} {stopBit limit : Nat} (small : limit < 2 ^ 64)
    (decoded : decodeSegment crc data startBit stopBit .empty limit = .ok initial)
    (member base : Nat) : ¬ (Cursor.start initial member base).phase.Failed := by
  obtain ⟨resolved, committer, -, -, hstart⟩ := Cursor.start_eq small decoded member base
  rw [hstart]
  rintro ⟨error, h⟩
  cases h

end Coordinator

section Runs

variable {setting : Setting crc} {data : List UInt8} {startByte threads member base last : Nat}
  {all : List UInt8} {allBlocks : List Block} {fin : Bool}
  {g g' : Ledger (ResolveTask crc) (Cursor crc)}

/-- The coordinator knows where it is and has not given up. -/
structure Running (data : List UInt8) (startByte member base : Nat)
    (g : Ledger (ResolveTask crc) (Cursor crc)) : Prop where
  inOrder : ∃ done queue,
    InOrder data (startByte * 8) member base g.consumer g.submitted done queue
  keyed : Keyed data startByte g
  alive : ¬ g.consumer.phase.Failed

private theorem Running.alive_next (through : Through data (startByte * 8) last all allBlocks fin)
    (supplied : Supplied crc data startByte) (running : Running data startByte member base g)
    (moves : Moves data startByte threads g g') : ¬ g'.consumer.phase.Failed := by
  obtain ⟨⟨done, queue, inOrder⟩, keyed, alive⟩ := running
  cases moves with
  | @takePrimary lease speculative head unfinished hasJob executed =>
    have hreject : ¬ (Phase.rejected lease : Phase crc).Failed := by
      rintro ⟨error, h⟩
      cases h
    dsimp only
    cases hspeculative : speculative with
    | error error => exact hreject
    | ok segment =>
      simp only [Cursor.takePrimary]
      split
      case isFalse => exact hreject
      case isTrue here =>
        have hdecoded := runGzipJob_ok (executed.trans hspeculative)
        rw [here] at hdecoded
        exact Cursor.accept_alive (inOrder.window_next through.clear unfinished hdecoded
          (decodeSegment_bounds hdecoded).2.1) lease
  | retire =>
    rintro ⟨error, h⟩
    cases h
  | fallback draining drained =>
    obtain ⟨taken, hcut, hlength⟩ := keyed.cut
    have hunfinished := keyed.unfinished (.inl draining)
    have hasJob := keyed.hasJob (by rw [draining]; rfl)
    rw [draining] at hlength
    have hlength : taken.length = g.consumer.key := hlength
    rw [hunfinished] at hcut
    rw [← hlength] at hasJob
    obtain ⟨segment, hsegment⟩ := supplied taken _ hcut hasJob
    obtain rfl : queue = [] := List.length_eq_zero_iff.mp (inOrder.outstanding ▸ drained)
    obtain ⟨next, hnext⟩ := inOrder.commits through.clear (by rw [draining]; rfl) hunfinished hsegment
      (decodeSegment_bounds hsegment).2.1
    rw [hlength] at hsegment
    dsimp only
    rw [Cursor.fallback, hsegment, result_bind_ok, hnext]
    rintro ⟨error, h⟩
    cases h
  | submit =>
    dsimp only [Cursor.submitted]
    split <;>
    · rintro ⟨error, h⟩
      cases h
  | takeStage waiting some_left handed =>
    obtain ⟨rest, rfl⟩ := inOrder.first handed
    exact inOrder.stages through.clear alive (inOrder.chain.upTo (by rfl)).inside

variable {initial : Segment crc}

theorem reaches_running (through : Through data (startByte * 8) last all allBlocks fin)
    (supplied : Supplied crc data startByte)
    (decoded : decodeSegment crc data (startByte * 8) (estimatedStop startByte data.length 0)
      .empty parallelOutputLimit = .ok initial)
    (run : Reaches (streamProgram setting data startByte threads).Follows
      ⟨Cursor.start initial member base, [], [], [], []⟩ g) :
    Running data startByte member base g := by
  have hstart := start_running (by decide) decoded member base
  refine run.invariant ⟨⟨_, _, inOrder_start (by decide) decoded member base⟩, ?_, hstart⟩ ?_
  · exact (keepsKeys_start decoded member base).resolve_left hstart
  · intro g g' running follows
    have hmoves := moves_of_follows follows
    have halive := running.alive_next through supplied hmoves
    obtain ⟨done, queue, inOrder⟩ := running.inOrder
    exact ⟨inOrder.follows follows, (running.keyed.moves hmoves).resolve_left halive, halive⟩

end Runs

end Fbz.Deflate
