import Fbz.Deflate.Pieces

/-!
# Segments in the order of the stream

Whatever the workers do, the coordinator goes through the segments of the stream one after the
other. What it has committed is what one thread comes to at the same bit, and the window it hands on
is the last part of all bytes in front.
-/

namespace Fbz.Deflate

open DeflateOutput Pipeline Transition

variable {crc : Crc32}

/-- Decoding the stream from `startBit` on, block by block, comes to `bit` with these bytes and
blocks; whether the last block was the final one. -/
inductive Passes (data : List UInt8) (startBit : Nat) :
    Nat → List UInt8 → List Block → Bool → Prop
  | start : Passes data startBit startBit [] [] false
  | block {bit next : Nat} {bytes bytes' : List UInt8} {blocks : List Block} {block : Block}
      (front : Passes data startBit bit bytes blocks false)
      (decoded : decodeBlock data 0 bit (⟨bytes⟩ : History) = .ok (⟨bytes'⟩, block, next)) :
      Passes data startBit next bytes' (blocks ++ [block]) block.finalBlock

/-- Where a segment whose last block ends here ends itself. -/
def segmentEnd (fin : Bool) (bit : Nat) : Nat := if fin then Bits.alignByte bit else bit

/-- Blocks already on the list stay in front. -/
theorem decodeUntil_front {α : Type} [DeflateOutput α] (data : List UInt8) (stopBit bit : Nat)
    (front blocks : List Block) (out : α) :
    decodeUntil data stopBit id bit (front ++ blocks) out =
      (decodeUntil data stopBit id bit blocks out).map fun r => (r.1, front ++ r.2.1, r.2.2) := by
  induction bit, blocks, out using @decodeUntil.induct α _ data stopBit id with
  | case1 bit blocks out error hblock =>
    rw [decodeUntil_eq, decodeUntil_eq data stopBit id bit blocks, hblock]
    rfl
  | case2 bit blocks out out1 block next hblock hfinal =>
    rw [decodeUntil_eq, decodeUntil_eq data stopBit id bit blocks, hblock]
    simp only [hfinal, if_true, Except.map, List.append_assoc]
  | case3 bit blocks out out1 block next hblock hfinal hstop =>
    rw [decodeUntil_eq, decodeUntil_eq data stopBit id bit blocks, hblock]
    simp only [hfinal, if_pos hstop, Bool.false_eq_true, if_false, Except.map, List.append_assoc]
  | case4 bit blocks out out1 block next hblock hfinal hstop ih =>
    rw [decodeUntil_eq, decodeUntil_eq data stopBit id bit blocks, hblock]
    simp only [hfinal, if_neg hstop, Bool.false_eq_true, if_false]
    rw [id, ← List.append_assoc] at ih
    rw [id, List.append_assoc] at *
    exact ih

section Passes

variable {data : List UInt8} {startBit bit next stopBit : Nat} {h h' : History}
  {bytes : List UInt8} {blocks blocks' : List Block} {fin : Bool}

theorem Passes.decodeUntil (passes : Passes data startBit bit h.bytes blocks false)
    (hloop : Deflate.decodeUntil data stopBit id bit blocks h = .ok (h', blocks', next, fin)) :
    ∃ last, Passes data startBit last h'.bytes blocks' fin ∧ next = segmentEnd fin last := by
  induction bit, blocks, h using @decodeUntil.induct History _ data stopBit id with
  | case1 bit blocks h error hblock =>
    rw [decodeUntil_eq, hblock] at hloop
    cases hloop
  | case2 bit blocks h h1 block after hblock hfinal =>
    rw [decodeUntil_eq, hblock] at hloop
    simp only [hfinal, if_true, Except.ok.injEq, Prod.mk.injEq] at hloop
    obtain ⟨rfl, rfl, rfl, rfl⟩ := hloop
    have := passes.block hblock
    rw [hfinal] at this
    exact ⟨after, this, rfl⟩
  | case3 bit blocks h h1 block after hblock hfinal hstop =>
    rw [decodeUntil_eq, hblock] at hloop
    simp only [hfinal, if_pos hstop, Bool.false_eq_true, if_false, Except.ok.injEq,
      Prod.mk.injEq] at hloop
    obtain ⟨rfl, rfl, rfl, rfl⟩ := hloop
    have := passes.block hblock
    rw [Bool.eq_false_iff.mpr hfinal] at this
    exact ⟨after, this, rfl⟩
  | case4 bit blocks h h1 block after hblock hfinal hstop ih =>
    rw [decodeUntil_eq, hblock] at hloop
    simp only [hfinal, if_neg hstop, Bool.false_eq_true, if_false] at hloop
    have := passes.block hblock
    rw [Bool.eq_false_iff.mpr hfinal] at this
    exact ih this hloop

theorem Passes.decodeDeflate (passes : Passes data startBit bit h.bytes blocks false)
    (hloop : Deflate.decodeDeflate data 0 bit blocks h = .ok (h', blocks', next)) :
    Passes data startBit next h'.bytes blocks' true := by
  induction bit, blocks, h using @decodeDeflate.induct History _ data 0 with
  | case1 bit blocks h error hblock =>
    rw [decodeDeflate_eq, hblock] at hloop
    cases hloop
  | case2 bit blocks h h1 block after hblock hfinal =>
    rw [decodeDeflate_eq, hblock] at hloop
    simp only [hfinal, if_true, Except.ok.injEq, Prod.mk.injEq] at hloop
    obtain ⟨rfl, rfl, rfl⟩ := hloop
    have := passes.block hblock
    rwa [hfinal] at this
  | case3 bit blocks h h1 block after hblock hfinal ih =>
    rw [decodeDeflate_eq, hblock] at hloop
    simp only [hfinal, Bool.false_eq_true, if_false] at hloop
    have := passes.block hblock
    rw [Bool.eq_false_iff.mpr hfinal] at this
    exact ih this hloop

theorem Passes.resume (passes : Passes data startBit bit bytes blocks fin) :
    if fin then Deflate.decodeDeflate data 0 startBit [] ({} : History) = .ok (⟨bytes⟩, blocks, bit)
    else Deflate.decodeDeflate data 0 startBit [] ({} : History) =
      Deflate.decodeDeflate data 0 bit blocks ⟨bytes⟩ := by
  induction passes with
  | start => rfl
  | @block bit next bytes bytes' blocks block front decoded ih =>
    simp only [Bool.false_eq_true, if_false] at ih
    rw [decodeDeflate_eq data 0 bit, decoded] at ih
    dsimp only at ih
    split at ih
    case isTrue hfinal => simp only [hfinal, if_true, ih]
    case isFalse hmore => simp only [hmore, Bool.false_eq_true, if_false, ih]

end Passes

/-- Segments from the first bit of a stream on, each decoded from where the one before it ends. -/
inductive Chain (data : List UInt8) (startBit : Nat) : List (Segment crc) → Nat → Bool → Prop
  | first {stopBit limit : Nat} {segment : Segment crc}
      (decoded : decodeSegment crc data startBit stopBit .empty limit = .ok segment) :
      Chain data startBit [segment] segment.endBit segment.finalBlock
  | next {segments : List (Segment crc)} {bit stopBit limit : Nat} {segment : Segment crc}
      (front : Chain data startBit segments bit false)
      (decoded : decodeSegment crc data bit stopBit .unknown limit = .ok segment) :
      Chain data startBit (segments ++ [segment]) segment.endBit segment.finalBlock

section Chain

variable {data : List UInt8} {startBit bit : Nat} {fin : Bool}

/-- A chain ends in front of each of its segments too. -/
theorem Chain.upTo {segment : Segment crc} {listed front back : List (Segment crc)}
    (chain : Chain data startBit listed bit fin) (split : listed = front ++ segment :: back) :
    Chain data startBit (front ++ [segment]) segment.endBit segment.finalBlock := by
  induction chain generalizing back with
  | first decoded =>
    cases front with
    | nil =>
      obtain ⟨rfl, -⟩ := List.cons.inj split
      exact .first decoded
    | cons _ front => simp at split
  | @next segments bit stopBit limit last earlier decoded ih =>
    cases hback : back using List.reverseRecOn with
    | nil =>
      subst hback
      obtain ⟨rfl, heq⟩ := List.append_inj' split rfl
      obtain ⟨rfl, -⟩ := List.cons.inj heq
      exact earlier.next decoded
    | append_singleton back other =>
      subst hback
      rw [← List.cons_append, ← List.append_assoc] at split
      obtain ⟨heq, -⟩ := List.append_inj' split rfl
      exact ih heq

theorem Chain.inside {segments : List (Segment crc)}
    (chain : Chain data startBit segments bit fin) : bit ≤ data.length * 8 := by
  cases chain with
  | first decoded | next _ decoded => exact (decodeSegment_bounds decoded).2.1

end Chain

/-- The bytes before and those of the segments, each resolved with the window it is due. -/
def resolvedBytes (before : List UInt8) : List (Segment crc) → Result (List UInt8)
  | [] => .ok before
  | segment :: segments => do
    let resolved ← resolveSegment segment (lastWindow before)
    resolvedBytes (before ++ resolved.bytes) segments

/-- The committer behind some segments, each resolved with the window it is due. -/
def SegmentCommitter.commitAll (c : SegmentCommitter crc) :
    List (Segment crc) → Result (SegmentCommitter crc)
  | [] => .ok c
  | segment :: segments => do
    let resolved ← resolveSegment segment (lastWindow c.output)
    let c ← c.commit resolved
    c.commitAll segments

private theorem resolvedBytes_append (before : List UInt8) (front back : List (Segment crc)) :
    resolvedBytes before (front ++ back) =
      resolvedBytes before front >>= fun bytes => resolvedBytes bytes back := by
  induction front generalizing before with
  | nil => rfl
  | cons segment front ih =>
    rw [List.cons_append, resolvedBytes, resolvedBytes]
    cases resolveSegment segment (lastWindow before) with
    | error error => rfl
    | ok resolved => exact ih (before ++ resolved.bytes)

theorem SegmentCommitter.commitAll_append (c : SegmentCommitter crc)
    (front back : List (Segment crc)) :
    c.commitAll (front ++ back) = c.commitAll front >>= fun c => c.commitAll back := by
  induction front generalizing c with
  | nil => rfl
  | cons segment front ih =>
    rw [List.cons_append, commitAll, commitAll]
    cases resolveSegment segment (lastWindow c.output) with
    | error error => rfl
    | ok resolved =>
      rw [result_bind_ok, result_bind_ok]
      cases c.commit resolved with
      | error error => rfl
      | ok next => exact ih next

section Segments

variable {data : List UInt8} {startBit stopBit limit : Nat} {segment : Segment crc}

/-- The first segment has no symbols, only the bytes its blocks decode to. -/
theorem decodeSegment_empty
    (h : decodeSegment crc data startBit stopBit .empty limit = .ok segment) :
    ∃ bytes blocks, decodeUntil data stopBit id startBit [] ({} : History) =
        .ok (⟨bytes⟩, blocks, segment.endBit, segment.finalBlock) ∧ bytes.length ≤ limit ∧
      segment = ⟨startBit, segment.endBit, [], bytes, 0, crc.update crc.new bytes,
        blocks.map (Block.commit 0 0), segment.finalBlock⟩ := by
  obtain ⟨-, inside, -⟩ := decodeSegment_until h
  have hinitial := @initial_segment crc data startBit stopBit limit inside
  cases hloop : decodeUntil data stopBit id startBit [] ({} : History) with
  | error error =>
    rw [hloop] at hinitial
    obtain ⟨error', herror⟩ := hinitial
    rw [herror] at h
    cases h
  | ok found =>
    obtain ⟨⟨bytes⟩, blocks, endBit, fin⟩ := found
    rw [hloop] at hinitial
    dsimp only at hinitial
    split at hinitial
    case isTrue small =>
      rw [hinitial] at h
      obtain rfl := Except.ok.inj h
      exact ⟨bytes, blocks, rfl, small, rfl⟩
    case isFalse large =>
      obtain ⟨error, herror⟩ := hinitial
      rw [herror] at h
      cases h

/-- What holds of every segment, whatever its history was. -/
structure Segment.Valid (segment : Segment crc) : Prop where
  symbols : ∀ symbol ∈ segment.marked, IsSymbol symbol
  start : segment.cleanStart ≤ segment.clean.length
  hashed : segment.cleanCrc = crc.update crc.new segment.cleanOutput

theorem decodeSegment_valid {history : InitialHistory}
    (h : decodeSegment crc data startBit stopBit history limit = .ok segment) : segment.Valid := by
  cases history with
  | empty =>
    obtain ⟨bytes, blocks, -, -, heq⟩ := decodeSegment_empty h
    rw [heq]
    exact ⟨fun symbol hmem => absurd hmem List.not_mem_nil, Nat.zero_le _, rfl⟩
  | unknown =>
    obtain ⟨-, -, m, hloop, hmarked, hclean, hstart, hcrc⟩ := decodeSegment_until h
    have htracks : Tracks [] (MarkerOutput.new .unknown limit) (.ok {}) := agrees_new [] limit
    have hreads := (htracks.decodeUntil (Reads.new limit) hloop).1
    refine ⟨decodeSegment_symbols h, ?_, ?_⟩
    · rw [hstart, hclean]
      exact hreads.start
    · rw [hcrc, Segment.cleanOutput, hclean, hstart]

theorem Segment.Valid.resolved {resolved : ResolvedSegment crc} {predecessor : List UInt8}
    (valid : segment.Valid) (h : resolveSegment segment predecessor = .ok resolved) :
    resolved.marked.length + resolved.clean.length - resolved.cleanStart = resolved.bytes.length ∧
      resolved.crc = crc.update crc.new resolved.bytes ∧ resolved.blocks = segment.blocks ∧
      resolved.compressedEndBit = segment.endBit := by
  obtain ⟨marked, -, heq⟩ := result_bind_eq_ok.mp h
  obtain rfl := Except.ok.inj heq
  have hstart := valid.start
  refine ⟨?_, ?_, rfl, rfl⟩
  · simp only [ResolvedSegment.bytes, List.length_append, List.length_drop]
    omega
  · simp only [ResolvedSegment.bytes]
    rw [valid.hashed, crc.combine_update, Segment.cleanOutput]

/-- Behind the bytes `before`, the resolved segment is what its blocks decode to there. -/
def Segment.Fits (data : List UInt8) (segment : Segment crc) (before : List UInt8)
    (resolved : ResolvedSegment crc) : Prop :=
  ∃ stopBit blocks, decodeUntil data stopBit id segment.startBit [] (⟨before⟩ : History) =
      .ok (⟨before ++ resolved.bytes⟩, blocks, segment.endBit, segment.finalBlock) ∧
    ∀ member base, segment.blocks.map (Block.commit member (base + before.length)) =
      blocks.map (Block.relocate member (· + base))

theorem fits_empty {resolved : ResolvedSegment crc} {predecessor : List UInt8}
    (h : decodeSegment crc data startBit stopBit .empty limit = .ok segment)
    (hresolve : resolveSegment segment predecessor = .ok resolved) :
    segment.Fits data [] resolved ∧ resolved.bytes.length ≤ limit := by
  obtain ⟨bytes, blocks, hloop, hlimit, heq⟩ := decodeSegment_empty h
  have hbytes : resolved.bytes = bytes := by
    rw [heq, resolveSegment, resolveSymbols, if_neg (by simp)] at hresolve
    rw [← Except.ok.inj hresolve]
    rfl
  refine ⟨⟨stopBit, blocks, ?_, fun member base => ?_⟩, hbytes ▸ hlimit⟩
  · rw [(decodeSegment_until h).1, List.nil_append, hbytes]
    exact hloop
  · rw [heq, List.map_map]
    apply List.map_congr_left
    intro block _
    simp only [Function.comp_apply, Block.commit, Block.relocate, List.length_nil, Nat.add_zero]

theorem fits_unknown {before : List UInt8} {resolved : ResolvedSegment crc}
    (h : decodeSegment crc data startBit stopBit .unknown limit = .ok segment)
    (hresolve : resolveSegment segment (lastWindow before) = .ok resolved) :
    segment.Fits data before resolved := by
  refine ⟨stopBit, segment.blocks.map (Block.commit 0 before.length), ?_, fun member base => ?_⟩
  · rw [(decodeSegment_until h).1]
    exact (resolveSegment_iff h before).2 resolved hresolve
  · rw [List.map_map]
    apply List.map_congr_left
    intro block _
    simp only [Function.comp_apply, Block.commit, Block.relocate, Nat.add_assoc,
      Nat.add_comm before.length]

theorem Segment.Fits.passes {before : List UInt8} {blocks : List Block}
    {resolved : ResolvedSegment crc} (fits : segment.Fits data before resolved)
    (passes : Passes data startBit segment.startBit before blocks false) :
    ∃ last added, Passes data startBit last (before ++ resolved.bytes) (blocks ++ added)
        segment.finalBlock ∧ segment.endBit = segmentEnd segment.finalBlock last ∧
      ∀ member base, segment.blocks.map (Block.commit member (base + before.length)) =
        added.map (Block.relocate member (· + base)) := by
  obtain ⟨stopBit, added, hloop, hblocks⟩ := fits
  have hfront := decodeUntil_front data stopBit segment.startBit blocks [] (⟨before⟩ : History)
  rw [hloop, List.append_nil] at hfront
  obtain ⟨last, hlast, hend⟩ := Passes.decodeUntil (h := ⟨before⟩) passes hfront
  exact ⟨last, added, hlast, hend, hblocks⟩

/-- A committed segment is added behind the output. -/
theorem Segment.Valid.commit {resolved : ResolvedSegment crc} {predecessor : List UInt8}
    {c c' : SegmentCommitter crc} (valid : segment.Valid)
    (hresolve : resolveSegment segment predecessor = .ok resolved)
    (h : c.commit resolved = .ok c') :
    c.decoded + resolved.bytes.length < 2 ^ 64 ∧ c' = { c with
      decoded := c.decoded + resolved.bytes.length
      output := c.output ++ resolved.bytes
      crc := crc.combine c.crc (crc.update crc.new resolved.bytes)
      blocks := c.blocks ++ segment.blocks.map (Block.commit c.member (c.decodedBase + c.decoded))
      progress := c.progress ++ [⟨(segment.endBit + 7) / 8,
        c.decodedBase + (c.decoded + resolved.bytes.length)⟩] } := by
  obtain ⟨hlen, hcrc, hblocks, hend⟩ := valid.resolved hresolve
  obtain ⟨_, hfits, heq⟩ := result_bind_eq_ok.mp h
  rw [hlen] at hfits
  refine ⟨ensure_eq_ok.mp hfits, ?_⟩
  rw [← Except.ok.inj heq, hlen, hcrc, hblocks, hend, List.append_assoc]
  rfl

end Segments

/-- The committer stands where one thread that decodes the stream stands at `last`. -/
structure Committed (data : List UInt8) (startBit member base last : Nat) (fin : Bool)
    (c : SegmentCommitter crc) : Prop where
  passes : ∃ blocks, Passes data startBit last c.output blocks fin ∧
    c.blocks = blocks.map (Block.relocate member (· + base))
  decoded : c.decoded = c.output.length
  bounded : c.decoded < 2 ^ 64
  hashed : c.crc = crc.update crc.new c.output
  member_eq : c.member = member
  base_eq : c.decodedBase = base

section Committed

variable {data : List UInt8} {startBit member base : Nat} {segments : List (Segment crc)} {bit : Nat}
  {fin : Bool} {c c' : SegmentCommitter crc}

private theorem committed_new (data : List UInt8) (startBit member base : Nat) :
    Committed data startBit member base startBit false
      (SegmentCommitter.new member base : SegmentCommitter crc) where
  passes := ⟨[], .start, rfl⟩
  decoded := rfl
  bounded := (by decide : 0 < 2 ^ 64)
  hashed := (crc.update_nil _).symm
  member_eq := rfl
  base_eq := rfl

private theorem Committed.commit {segment : Segment crc} {resolved : ResolvedSegment crc}
    {predecessor : List UInt8}
    (committed : Committed data startBit member base segment.startBit false c)
    (valid : segment.Valid) (fits : segment.Fits data c.output resolved)
    (hresolve : resolveSegment segment predecessor = .ok resolved)
    (h : c.commit resolved = .ok c') :
    ∃ last, Committed data startBit member base last segment.finalBlock c' ∧
      segment.endBit = segmentEnd segment.finalBlock last := by
  obtain ⟨⟨blocks, hpasses, hblocks⟩, hdecoded, -, hhashed, hmember, hbase⟩ := committed
  obtain ⟨last, added, hlast, hend, hadded⟩ := fits.passes hpasses
  obtain ⟨hfits, rfl⟩ := valid.commit hresolve h
  refine ⟨last, ⟨⟨blocks ++ added, hlast, ?_⟩, ?_, hfits, ?_, hmember, hbase⟩, hend⟩
  · rw [hblocks, hmember, hbase, hdecoded, hadded, List.map_append]
  · rw [hdecoded, List.length_append]
  · rw [hhashed, crc.combine_update]

/-- The segments of a chain, committed one after the other. -/
theorem Chain.committed (chain : Chain data startBit segments bit fin)
    (h : (SegmentCommitter.new member base).commitAll segments = .ok c) :
    ∃ last, Committed data startBit member base last fin c ∧ bit = segmentEnd fin last := by
  induction chain generalizing c with
  | @first stopBit limit segment decoded =>
    rw [SegmentCommitter.commitAll] at h
    obtain ⟨resolved, hresolve, h⟩ := result_bind_eq_ok.mp h
    obtain ⟨c', hcommit, heq⟩ := result_bind_eq_ok.mp h
    obtain rfl := Except.ok.inj heq
    have hstart : Committed data startBit member base segment.startBit false
        (SegmentCommitter.new member base : SegmentCommitter crc) := by
      rw [(decodeSegment_until decoded).1]
      exact committed_new data startBit member base
    exact hstart.commit (decodeSegment_valid decoded) (fits_empty decoded hresolve).1 hresolve hcommit
  | @next segments bit stopBit limit segment front decoded ih =>
    rw [SegmentCommitter.commitAll_append] at h
    obtain ⟨c', hfront, h⟩ := result_bind_eq_ok.mp h
    rw [SegmentCommitter.commitAll] at h
    obtain ⟨resolved, hresolve, h⟩ := result_bind_eq_ok.mp h
    obtain ⟨c'', hcommit, heq⟩ := result_bind_eq_ok.mp h
    obtain rfl := Except.ok.inj heq
    obtain ⟨last, hcommitted, hbit⟩ := ih hfront
    have hstart : Committed data startBit member base segment.startBit false c' := by
      rw [(decodeSegment_until decoded).1, hbit]
      exact hcommitted
    exact hstart.commit (decodeSegment_valid decoded) (fits_unknown decoded hresolve) hresolve hcommit

theorem resolvedBytes_commitAll (h : c.commitAll segments = .ok c') :
    resolvedBytes c.output segments = .ok c'.output := by
  induction segments generalizing c with
  | nil => rw [← Except.ok.inj h, resolvedBytes]
  | cons segment segments ih =>
    obtain ⟨resolved, hresolve, h⟩ := result_bind_eq_ok.mp h
    obtain ⟨next, hcommit, h⟩ := result_bind_eq_ok.mp h
    have houtput : next.output = c.output ++ resolved.bytes := by
      obtain ⟨_, -, heq⟩ := result_bind_eq_ok.mp hcommit
      rw [← Except.ok.inj heq, ResolvedSegment.bytes, List.append_assoc]
    rw [resolvedBytes, hresolve, result_bind_ok, ← houtput]
    exact ih h

private theorem Chain.passes {bytes : List UInt8} (chain : Chain data startBit segments bit fin)
    (h : resolvedBytes [] segments = .ok bytes) :
    ∃ last blocks, Passes data startBit last bytes blocks fin ∧ bit = segmentEnd fin last := by
  induction chain generalizing bytes with
  | @first stopBit limit segment decoded =>
    obtain ⟨resolved, hresolve, heq⟩ := result_bind_eq_ok.mp h
    obtain rfl := Except.ok.inj heq
    have hstart : Passes data startBit segment.startBit [] [] false := by
      rw [(decodeSegment_until decoded).1]
      exact .start
    obtain ⟨last, added, hlast, hend, -⟩ := (fits_empty decoded hresolve).1.passes hstart
    exact ⟨last, _, hlast, hend⟩
  | @next segments bit stopBit limit segment front decoded ih =>
    rw [resolvedBytes_append] at h
    obtain ⟨before, hfront, h⟩ := result_bind_eq_ok.mp h
    obtain ⟨resolved, hresolve, heq⟩ := result_bind_eq_ok.mp h
    obtain rfl := Except.ok.inj heq
    obtain ⟨last, blocks, hpasses, hbit⟩ := ih hfront
    have hstart : Passes data startBit segment.startBit before blocks false := by
      rw [(decodeSegment_until decoded).1, hbit]
      exact hpasses
    obtain ⟨last, added, hlast, hend, -⟩ := (fits_unknown decoded hresolve).passes hstart
    exact ⟨last, _, hlast, hend⟩

end Committed

/-- As far as the tasks resolve one after the other behind the bytes `before`, each has the window
it is due, and `predecessor` is the one behind them all. -/
def Windows (before : List UInt8) : List (ResolveTask crc) → List UInt8 → Prop
  | [], predecessor => predecessor = lastWindow before
  | task :: tasks, predecessor => task.predecessor = lastWindow before ∧
      ∀ resolved, resolveSegment task.segment task.predecessor = .ok resolved →
        Windows (before ++ resolved.bytes) tasks predecessor

section Windows

variable {before predecessor window : List UInt8} {tasks : List (ResolveTask crc)}
  {segment : Segment crc}

private theorem Windows.snoc (windows : Windows before tasks predecessor) (valid : segment.Valid)
    (h : successorWindow segment predecessor = .ok window) :
    Windows before (tasks ++ [⟨segment, predecessor⟩]) window := by
  induction tasks generalizing before with
  | nil =>
    rw [Windows] at windows
    subst windows
    refine ⟨rfl, fun resolved hresolve => ?_⟩
    rw [successorWindow_eq valid.symbols hresolve] at h
    exact (Except.ok.inj h).symm
  | cons task tasks ih =>
    obtain ⟨htask, hrest⟩ := windows
    exact ⟨htask, fun resolved hresolve => ih (hrest resolved hresolve)⟩

private theorem Windows.resolvedBytes {history : List UInt8}
    (windows : Windows before tasks predecessor)
    (h : Deflate.resolvedBytes before (tasks.map ResolveTask.segment) = .ok history) :
    predecessor = lastWindow history := by
  induction tasks generalizing before with
  | nil =>
    rw [← Except.ok.inj h]
    exact windows
  | cons task tasks ih =>
    obtain ⟨htask, hrest⟩ := windows
    obtain ⟨resolved, hresolve, h⟩ := result_bind_eq_ok.mp h
    rw [← htask] at hresolve
    exact ih (hrest resolved hresolve) h

end Windows

def Phase.tasks : Phase crc → List (ResolveTask crc)
  | .accepted _ task => [task]
  | _ => []

/-- What the coordinator has consumed of the stream: the segments it has put out, then the tasks
that are still being resolved. -/
structure InOrder (data : List UInt8) (startBit member base : Nat) (cursor : Cursor crc)
    (submitted : List (Nat × ResolveTask crc)) (done : List (Segment crc))
    (queue : List (ResolveTask crc)) : Prop where
  chain : Chain data startBit (done ++ (queue ++ cursor.phase.tasks).map ResolveTask.segment)
    cursor.nextStart cursor.finalBlock
  committed : (SegmentCommitter.new member base).commitAll done = .ok cursor.committer
  windows : Windows cursor.committer.output (queue ++ cursor.phase.tasks) cursor.predecessor
  outstanding : cursor.outstanding = queue.length
  sequence : cursor.resolveSequence = cursor.nextResolve + queue.length
  keys : ∀ entry ∈ submitted, entry.1 < cursor.resolveSequence ∧
    (cursor.nextResolve ≤ entry.1 → queue[entry.1 - cursor.nextResolve]? = some entry.2)
  unfinished : cursor.phase = .draining ∨ (∃ lease, cursor.phase = .rejected lease) →
    cursor.finalBlock = false

section Coordinator

variable {data : List UInt8} {startBit member base : Nat} {cursor : Cursor crc}
  {submitted : List (Nat × ResolveTask crc)} {done : List (Segment crc)}
  {queue : List (ResolveTask crc)}

namespace InOrder

theorem rephase (inOrder : InOrder data startBit member base cursor submitted done queue)
    {phase : Phase crc} (same : phase.tasks = cursor.phase.tasks) (fallbackChunks : Nat)
    (unfinished : phase = .draining ∨ (∃ lease, phase = .rejected lease) →
      cursor.finalBlock = false) :
    InOrder data startBit member base { cursor with phase, fallbackChunks } submitted done queue where
  chain := by
    dsimp only
    rw [same]
    exact inOrder.chain
  committed := inOrder.committed
  windows := by
    dsimp only
    rw [same]
    exact inOrder.windows
  outstanding := inOrder.outstanding
  sequence := inOrder.sequence
  keys := inOrder.keys
  unfinished := unfinished

private theorem fail (inOrder : InOrder data startBit member base cursor submitted done queue)
    (idle : cursor.phase.tasks = []) (error : Error) :
    InOrder data startBit member base (cursor.fail error) submitted done queue :=
  inOrder.rephase (by rw [idle]; rfl) cursor.fallbackChunks (by simp)

/-- The window of a segment that has been accepted is the one behind everything consumed. -/
theorem accept (inOrder : InOrder data startBit member base cursor submitted done queue)
    (idle : cursor.phase.tasks = []) (unfinished : cursor.finalBlock = false) {lease : Nat}
    {segment : Segment crc} {next : Cursor crc} {stopBit limit : Nat}
    (decoded : decodeSegment crc data cursor.nextStart stopBit .unknown limit = .ok segment)
    (h : cursor.accept lease segment = .ok next) :
    InOrder data startBit member base next submitted done queue := by
  obtain ⟨window, hwindow, heq⟩ := result_bind_eq_ok.mp h
  obtain rfl := Except.ok.inj heq
  have hchain := inOrder.chain
  have hwindows := inOrder.windows
  rw [idle, List.append_nil] at hchain hwindows
  rw [unfinished] at hchain
  refine ⟨?_, inOrder.committed, ?_, inOrder.outstanding, inOrder.sequence, inOrder.keys, by simp⟩
  · simp only [Phase.tasks, List.map_append, List.map_singleton, ← List.append_assoc]
    exact hchain.next decoded
  · exact hwindows.snoc (decodeSegment_valid decoded) hwindow

private theorem takePrimary
    (inOrder : InOrder data startBit member base cursor submitted done queue)
    (idle : cursor.phase.tasks = []) (unfinished : cursor.finalBlock = false) (lease : Nat)
    {speculative : Result (Segment crc)} {job : GzipJob}
    (executed : runGzipJob crc data job = speculative) :
    InOrder data startBit member base (cursor.takePrimary lease speculative) submitted done queue := by
  have hreject : InOrder data startBit member base { cursor with phase := .rejected lease }
      submitted done queue :=
    inOrder.rephase (by rw [idle]; rfl) cursor.fallbackChunks fun _ => unfinished
  cases hspeculative : speculative with
  | error error => exact hreject
  | ok segment =>
    simp only [Cursor.takePrimary]
    split
    case isFalse => exact hreject
    case isTrue here =>
      have hdecoded := runGzipJob_ok (executed.trans hspeculative)
      rw [here] at hdecoded
      cases haccept : cursor.accept lease segment with
      | error error => exact inOrder.fail idle error
      | ok next => exact inOrder.accept idle unfinished hdecoded haccept

theorem submit (inOrder : InOrder data startBit member base cursor submitted done queue)
    {lease : Nat} {task : ResolveTask crc} (here : cursor.phase = .accepted lease task)
    (threads : Nat) :
    InOrder data startBit member base (cursor.submitted threads)
      ((cursor.resolveSequence, task) :: submitted) done (queue ++ [task]) := by
  have hidle : (cursor.submitted threads).phase.tasks = [] := by
    simp only [Cursor.submitted]
    split <;> rfl
  have hphase : cursor.phase.tasks = [task] := by
    rw [here]
    rfl
  have hchain := inOrder.chain
  have hwindows := inOrder.windows
  rw [hphase] at hchain hwindows
  refine ⟨?_, inOrder.committed, ?_, ?_, ?_, ?_, ?_⟩
  · rw [hidle, List.append_nil]
    exact hchain
  · rw [hidle, List.append_nil]
    exact hwindows
  · simp only [Cursor.submitted, inOrder.outstanding, List.length_append, List.length_singleton]
  · simp only [Cursor.submitted, inOrder.sequence, List.length_append, List.length_singleton]
    omega
  · have hsequence := inOrder.sequence
    rintro ⟨key, other⟩ hmem
    simp only [Cursor.submitted]
    rcases List.mem_cons.mp hmem with heq | hmem
    · obtain ⟨rfl, rfl⟩ := Prod.mk.inj heq
      refine ⟨Nat.lt_succ_self _, fun _ => ?_⟩
      rw [hsequence, Nat.add_sub_cancel_left]
      exact List.getElem?_concat_length
    · obtain ⟨hlt, hentry⟩ := inOrder.keys _ hmem
      dsimp only at hlt hentry ⊢
      refine ⟨by omega, fun hle => ?_⟩
      rw [List.getElem?_append_left (by omega)]
      exact hentry hle
  · simp only [Cursor.submitted]
    split <;> simp

/-- The first task has been resolved and put out. -/
theorem putOut {first : ResolveTask crc} {resolved : ResolvedSegment crc}
    {committer : SegmentCommitter crc} {phase : Phase crc}
    (inOrder : InOrder data startBit member base cursor submitted done (first :: queue))
    (idle : cursor.phase.tasks = [])
    (hresolve : resolveSegment first.segment first.predecessor = .ok resolved)
    (hcommit : cursor.committer.commit resolved = .ok committer) (same : phase.tasks = [])
    (unfinished : phase = .draining ∨ (∃ lease, phase = .rejected lease) →
      cursor.finalBlock = false) :
    InOrder data startBit member base
      { cursor with
        phase, committer, nextResolve := cursor.nextResolve + 1
        outstanding := cursor.outstanding - 1 } submitted (done ++ [first.segment]) queue := by
  have hwindows := inOrder.windows
  have hchain := inOrder.chain
  rw [idle, List.append_nil] at hwindows hchain
  obtain ⟨hpredecessor, hrest⟩ := hwindows
  have hsequence := inOrder.sequence
  have houtstanding := inOrder.outstanding
  rw [List.length_cons] at hsequence houtstanding
  refine ⟨?_, ?_, ?_, ?_, ?_, ?_, unfinished⟩
  · rw [same, List.append_nil, List.append_assoc]
    exact hchain
  · rw [hpredecessor] at hresolve
    rw [SegmentCommitter.commitAll_append, inOrder.committed, result_bind_ok,
      SegmentCommitter.commitAll, hresolve, result_bind_ok, hcommit]
    rfl
  · have houtput : committer.output = cursor.committer.output ++ resolved.bytes := by
      obtain ⟨_, -, heq⟩ := result_bind_eq_ok.mp hcommit
      rw [← Except.ok.inj heq, ResolvedSegment.bytes, List.append_assoc]
    rw [same, List.append_nil]
    dsimp only
    rw [houtput]
    exact hrest resolved hresolve
  · dsimp only
    omega
  · dsimp only
    omega
  · intro entry hmem
    obtain ⟨hlt, hentry⟩ := inOrder.keys entry hmem
    refine ⟨hlt, fun hle => ?_⟩
    dsimp only at hle ⊢
    have := hentry (by omega)
    rwa [show entry.1 - cursor.nextResolve = entry.1 - (cursor.nextResolve + 1) + 1 by omega,
      List.getElem?_cons_succ] at this

private theorem takeStage (inOrder : InOrder data startBit member base cursor submitted done queue)
    (idle : cursor.phase.tasks = []) {task : ResolveTask crc}
    (mem : (cursor.nextResolve, task) ∈ submitted) :
    ∃ done queue, InOrder data startBit member base
      (cursor.takeStage (resolveSegment task.segment task.predecessor)) submitted done queue := by
  obtain ⟨hlt, hentry⟩ := inOrder.keys _ mem
  have hfirst := hentry (Nat.le_refl _)
  dsimp only at hlt hfirst
  rw [Nat.sub_self] at hfirst
  cases queue with
  | nil => cases hfirst
  | cons first rest =>
    obtain rfl := Option.some.inj hfirst
    rw [Cursor.takeStage]
    cases hresolve : resolveSegment first.segment first.predecessor with
    | error error => exact ⟨done, first :: rest, inOrder.fail idle error⟩
    | ok resolved =>
      rw [result_bind_ok]
      cases hcommit : cursor.committer.commit resolved with
      | error error => exact ⟨done, first :: rest, inOrder.fail idle error⟩
      | ok committer =>
        refine ⟨done ++ [first.segment], rest, ?_⟩
        refine inOrder.putOut idle hresolve hcommit ?_ ?_
        · cases hphase : cursor.phase <;> simp_all [Phase.tasks]
        · cases hphase : cursor.phase <;> simp_all [inOrder.unfinished]

/-- With nothing left to resolve, a segment the coordinator decodes itself is put out at once. -/
theorem commitSegment {segment : Segment crc} {next : Cursor crc}
    (drained : cursor.outstanding = 0)
    (inOrder : InOrder data startBit member base cursor submitted done [])
    (idle : cursor.phase.tasks = [])
    (chain : Chain data startBit (done ++ [segment]) segment.endBit segment.finalBlock)
    (valid : segment.Valid) (h : cursor.commitSegment segment = .ok next) (key : Nat) :
    InOrder data startBit member base { next with phase := .head, key } submitted
      (done ++ [segment]) [] := by
  simp only [Cursor.commitSegment, result_bind_eq_ok] at h
  obtain ⟨window, hwindow, resolved, hresolve, committer, hcommit, heq⟩ := h
  obtain rfl := Except.ok.inj heq
  have hwindows := inOrder.windows
  rw [idle, List.append_nil, Windows] at hwindows
  rw [hwindows] at hresolve hwindow
  refine ⟨?_, ?_, ?_, drained, inOrder.sequence, inOrder.keys, by simp⟩
  · simpa [Phase.tasks] using chain
  · rw [SegmentCommitter.commitAll_append, inOrder.committed, result_bind_ok,
      SegmentCommitter.commitAll, hresolve, result_bind_ok, hcommit]
    rfl
  · rw [successorWindow_eq valid.symbols hresolve] at hwindow
    obtain ⟨-, rfl⟩ := valid.commit hresolve hcommit
    exact (Except.ok.inj hwindow).symm

private theorem fallback (startByte : Nat)
    (inOrder : InOrder data startBit member base cursor submitted done queue)
    (draining : cursor.phase = .draining) (drained : cursor.outstanding = 0) :
    ∃ done, InOrder data startBit member base
      (cursor.attempt (cursor.fallback data startByte)) submitted done [] := by
  have hidle : cursor.phase.tasks = [] := by
    rw [draining]
    rfl
  have hqueue : queue = [] := List.length_eq_zero_iff.mp (inOrder.outstanding ▸ drained)
  subst hqueue
  cases hfallback : cursor.fallback data startByte with
  | error error => exact ⟨done, inOrder.fail hidle error⟩
  | ok next =>
    obtain ⟨segment, hsegment, h⟩ := result_bind_eq_ok.mp hfallback
    obtain ⟨committed, hcommitted, heq⟩ := result_bind_eq_ok.mp h
    obtain rfl := Except.ok.inj heq
    have hchain := inOrder.chain
    rw [hidle, List.append_nil, inOrder.unfinished (.inl draining), List.map_nil,
      List.append_nil] at hchain
    exact ⟨done ++ [segment], inOrder.commitSegment drained hidle (hchain.next hsegment)
      (decodeSegment_valid hsegment) hcommitted _⟩

end InOrder

/-- Before the loop, the first segment is put out; it is short enough to be counted. -/
theorem Cursor.start_eq {initial : Segment crc} {stopBit limit : Nat} (small : limit < 2 ^ 64)
    (decoded : decodeSegment crc data startBit stopBit .empty limit = .ok initial)
    (member base : Nat) :
    ∃ resolved committer, resolveSegment initial (lastWindow []) = .ok resolved ∧
      (SegmentCommitter.new member base).commit resolved = .ok committer ∧
      Cursor.start initial member base =
        { committer, predecessor := lastWindow ([] ++ resolved.bytes), nextStart := initial.endBit
          finalBlock := initial.finalBlock } := by
  have hvalid := decodeSegment_valid decoded
  obtain ⟨bytes, blocks, -, -, heq⟩ := decodeSegment_empty decoded
  obtain ⟨resolved, hresolve⟩ : ∃ resolved, resolveSegment initial (lastWindow []) = .ok resolved := by
    rw [heq, resolveSegment, resolveSymbols, if_neg (by simp)]
    exact ⟨_, rfl⟩
  have hwindow := successorWindow_eq hvalid.symbols hresolve
  have hlimit := (fits_empty decoded hresolve).2
  obtain ⟨committer, hcommit⟩ : ∃ committer,
      (SegmentCommitter.new member base).commit resolved = .ok committer := by
    have hlen := (hvalid.resolved hresolve).1
    rw [SegmentCommitter.commit, hlen, ensure_of (by
      change 0 + resolved.bytes.length < 2 ^ 64
      omega)]
    exact ⟨_, rfl⟩
  refine ⟨resolved, committer, hresolve, hcommit, ?_⟩
  simp only [Cursor.start, Cursor.commitSegment]
  rw [show ([] : List UInt8) = lastWindow [] from rfl, hwindow, result_bind_ok, hresolve,
    result_bind_ok, hcommit]
  rfl

theorem inOrder_start {initial : Segment crc} {stopBit limit : Nat} (small : limit < 2 ^ 64)
    (decoded : decodeSegment crc data startBit stopBit .empty limit = .ok initial)
    (member base : Nat) :
    InOrder data startBit member base (Cursor.start initial member base) [] [initial] [] := by
  obtain ⟨resolved, committer, hresolve, hcommit, hstart⟩ :=
    Cursor.start_eq small decoded member base
  rw [hstart]
  refine ⟨.first decoded, ?_, ?_, rfl, rfl, by simp, by simp⟩
  · rw [SegmentCommitter.commitAll]
    change (resolveSegment initial (lastWindow []) >>= _) = _
    rw [hresolve, result_bind_ok, hcommit]
    rfl
  · obtain ⟨-, rfl⟩ := (decodeSegment_valid decoded).commit hresolve hcommit
    rfl

/-- Whatever the coordinator does next, it keeps to the order. -/
theorem InOrder.follows {setting : Setting crc} {startByte threads : Nat}
    {g g' : Ledger (ResolveTask crc) (Cursor crc)}
    (inOrder : InOrder data startBit member base g.consumer g.submitted done queue)
    (follows : (streamProgram setting data startByte threads).Follows g g') :
    ∃ done queue, InOrder data startBit member base g'.consumer g'.submitted done queue := by
  have hop : (streamProgram setting data startByte threads).consumer.op g.consumer =
    (coordinator data startByte threads).op g.consumer := rfl
  cases hphase : g.consumer.phase with
  | head =>
    have hidle : g.consumer.phase.tasks = [] := by
      rw [hphase]
      rfl
    simp only [coordinator, hphase] at hop
    by_cases hfinal : g.consumer.finalBlock = true
    · rw [if_pos hfinal] at hop
      split at hop
      · obtain ⟨task, value, hmem, hexec, rfl⟩ := follows.of_takeStage hop
        obtain rfl := Option.some.inj hexec
        exact inOrder.takeStage hidle hmem
      · exact absurd follows (Program.Follows.not_done hop)
    · rw [if_neg hfinal] at hop
      obtain ⟨job, -, -, value, hexec, rfl⟩ := follows.of_takePrimary hop
      obtain rfl := Option.some.inj hexec
      exact ⟨done, queue, inOrder.takePrimary hidle (Bool.eq_false_iff.mpr hfinal) _ rfl⟩
  | rejected lease =>
    simp only [coordinator, hphase] at hop
    obtain ⟨pre, post, -, rfl⟩ := follows.of_retire hop
    refine ⟨done, queue, ?_⟩
    simp only [streamProgram, coordinator, hphase]
    exact inOrder.rephase (by rw [hphase]; rfl) _ fun _ => inOrder.unfinished (.inr ⟨lease, hphase⟩)
  | draining =>
    simp only [coordinator, hphase] at hop
    split at hop
    · obtain ⟨task, value, hmem, hexec, rfl⟩ := follows.of_takeStage hop
      obtain rfl := Option.some.inj hexec
      exact inOrder.takeStage (by rw [hphase]; rfl) hmem
    case isFalse hdrained =>
      obtain rfl := follows.of_compute hop
      obtain ⟨done, hnext⟩ := inOrder.fallback startByte hphase (not_not.mp hdrained)
      refine ⟨done, [], ?_⟩
      simp only [streamProgram, coordinator, hphase]
      exact hnext
  | accepted lease task =>
    simp only [coordinator, hphase] at hop
    obtain ⟨pre, post, -, rfl⟩ := follows.of_submit hop
    refine ⟨done, queue ++ [task], ?_⟩
    simp only [streamProgram, coordinator, hphase]
    exact inOrder.submit hphase threads
  | full =>
    simp only [coordinator, hphase] at hop
    obtain ⟨task, value, hmem, hexec, rfl⟩ := follows.of_takeStage hop
    obtain rfl := Option.some.inj hexec
    exact inOrder.takeStage (by rw [hphase]; rfl) hmem
  | failed error =>
    simp only [coordinator, hphase] at hop
    exact absurd follows (Program.Follows.not_done hop)

theorem reaches_inOrder {setting : Setting crc} {startByte threads stopBit : Nat}
    {initial : Segment crc} {g : Ledger (ResolveTask crc) (Cursor crc)}
    (decoded : decodeSegment crc data startBit stopBit .empty parallelOutputLimit = .ok initial)
    (run : Reaches (streamProgram setting data startByte threads).Follows
      ⟨Cursor.start initial member base, [], [], [], []⟩ g) :
    ∃ done queue, InOrder data startBit member base g.consumer g.submitted done queue :=
  run.invariant (I := fun g => ∃ done queue,
    InOrder data startBit member base g.consumer g.submitted done queue)
    ⟨_, _, inOrder_start (by decide) decoded member base⟩
    fun _ _ ⟨_, _, inOrder⟩ follows => inOrder.follows follows

end Coordinator

/-- How a stream that has been opened stands, under every schedule of the workers. -/
inductive Standing (setting : Setting crc) (input : List UInt8) (stream : DeflateStream) :
    StreamState crc → Prop
  | opened : Standing setting input stream .opened
  | parallel {data : List UInt8} {initial : Segment crc} {s}
      (bounds : streamData input stream = .ok data)
      (first : (initialSegment data stream : Result (Segment crc)) = .ok initial)
      (run : Reaches (streamProgram setting data stream.startByte (setting.threads stream)).Step
        ((streamProgram setting data stream.startByte (setting.threads stream)).init
          (setting.threads stream) (Cursor.start initial stream.member stream.decodedBase)) s) :
      Standing setting input stream (.parallel s)
  | refused {error} : Standing setting input stream (.done [] (.error error))
  | serial {data : List UInt8} (bounds : streamData input stream = .ok data) :
      Standing setting input stream
        (.done (serialProgress crc data stream.startByte stream.member stream.decodedBase)
          (decompressDeflateSerialStream crc data stream.startByte stream.member
            stream.decodedBase))
  | joined {data : List UInt8} {initial : Segment crc} {s r}
      (bounds : streamData input stream = .ok data)
      (first : (initialSegment data stream : Result (Segment crc)) = .ok initial)
      (run : Reaches (streamProgram setting data stream.startByte (setting.threads stream)).Step
        ((streamProgram setting data stream.startByte (setting.threads stream)).init
          (setting.threads stream) (Cursor.start initial stream.member stream.decodedBase)) s)
      (result : s.finished = some r) :
      Standing setting input stream (.done s.consumer.committer.progress r)

section Streams

variable {setting : Setting crc} {input : List UInt8} {stream : DeflateStream}

theorem Standing.step {s t : StreamState crc} (standing : Standing setting input stream s)
    (step : StreamStep setting input stream s t) : Standing setting input stream t := by
  cases step with
  | refuse bounds => exact .refused
  | serial bounds single => exact .serial bounds
  | giveUp bounds many initial => exact .serial bounds
  | reserve bounds many initial large => exact .refused
  | spawn bounds many initial admissible => exact .parallel bounds initial .refl
  | run bounds step =>
    cases standing with
    | parallel bounds' first run =>
      obtain rfl := Except.ok.inj (bounds.symm.trans bounds')
      exact .parallel bounds first (run.tail step)
  | join returned result =>
    cases standing with
    | parallel bounds first run => exact .joined bounds first run result

theorem standing_of_run {s : StreamState crc}
    (run : Reaches (StreamStep setting input stream) .opened s) : Standing setting input stream s :=
  run.invariant .opened fun _ _ standing step => standing.step step

theorem program_inOrder {data : List UInt8} {threads : Nat} {initial : Segment crc} {s}
    (first : (initialSegment data stream : Result (Segment crc)) = .ok initial)
    (run : Reaches (streamProgram setting data stream.startByte threads).Step
      ((streamProgram setting data stream.startByte threads).init threads
        (Cursor.start initial stream.member stream.decodedBase)) s) :
    (∃ submitted done queue, InOrder data (stream.startByte * 8) stream.member stream.decodedBase
      s.consumer submitted done queue) ∧
      ∀ r, s.finished = some r →
        (coordinator data stream.startByte threads).op s.consumer = .done r := by
  obtain ⟨⟨g, halone, hsame⟩, hdone⟩ := Program.reachable_consumer _ run
  obtain ⟨done, queue, inOrder⟩ := reaches_inOrder first halone
  rw [hsame] at inOrder
  exact ⟨⟨_, done, queue, inOrder⟩, hdone⟩

end Streams

/-- The coordinator has gone through these segments; all but those still being resolved have been put
out. As far as they resolve, their bytes are those one thread has when it comes to the same bit, and
the window is the last part of them. -/
structure KnowsWindow (data : List UInt8) (startBit : Nat) (cursor : Cursor crc)
    (taken : List (Segment crc)) : Prop where
  chain : Chain data startBit taken cursor.nextStart cursor.finalBlock
  delivered : ∃ front back, taken = front ++ back ∧
    back.length = cursor.outstanding + cursor.phase.tasks.length ∧
    resolvedBytes [] front = .ok cursor.committer.output
  passes : ∀ history, resolvedBytes [] taken = .ok history →
    ∃ last blocks, Passes data startBit last history blocks cursor.finalBlock ∧
      cursor.nextStart = segmentEnd cursor.finalBlock last
  window : ∀ history, resolvedBytes [] taken = .ok history →
    cursor.predecessor = lastWindow history

theorem InOrder.knowsWindow {data : List UInt8} {startBit member base : Nat} {cursor : Cursor crc}
    {submitted : List (Nat × ResolveTask crc)} {done : List (Segment crc)}
    {queue : List (ResolveTask crc)}
    (inOrder : InOrder data startBit member base cursor submitted done queue) :
    KnowsWindow data startBit cursor
      (done ++ (queue ++ cursor.phase.tasks).map ResolveTask.segment) where
  chain := inOrder.chain
  delivered := by
    refine ⟨done, _, rfl, ?_, resolvedBytes_commitAll inOrder.committed⟩
    rw [List.length_map, List.length_append, inOrder.outstanding]
  passes _ h := inOrder.chain.passes h
  window history h := by
    have hdone : resolvedBytes [] done = .ok cursor.committer.output :=
      resolvedBytes_commitAll inOrder.committed
    rw [resolvedBytes_append, hdone, result_bind_ok] at h
    exact inOrder.windows.resolvedBytes h

/-- Behind a segment that resolves, the window is the last part of the history with the segment's
bytes; so the window of the coordinator is the true one in every run. -/
theorem successorWindow_true :
    (∀ (data : List UInt8) (startBit stopBit limit : Nat) (history : InitialHistory)
        (segment : Segment crc),
      decodeSegment crc data startBit stopBit history limit = .ok segment →
      ∀ (before : List UInt8) (resolved : ResolvedSegment crc),
        resolveSegment segment (lastWindow before) = .ok resolved →
        successorWindow segment (lastWindow before) = .ok (lastWindow (before ++ resolved.bytes))) ∧
    ∀ (setting : Setting crc) (input : List UInt8) (stream : DeflateStream) s,
      Reaches (StreamStep setting input stream) .opened (.parallel s) →
      ∃ data taken, streamData input stream = .ok data ∧
        KnowsWindow data (stream.startByte * 8) s.consumer taken := by
  constructor
  · intro data startBit stopBit limit history segment hsegment before resolved hresolve
    exact successorWindow_eq (decodeSegment_valid hsegment).symbols hresolve
  · intro setting input stream s hrun
    cases standing_of_run hrun with
    | parallel bounds first run =>
      obtain ⟨⟨submitted, done, queue, inOrder⟩, -⟩ := program_inOrder first run
      exact ⟨_, _, bounds, inOrder.knowsWindow⟩

end Fbz.Deflate
