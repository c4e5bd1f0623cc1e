import Fbz.Deflate.Decoder
import Fbz.Deflate.RunsDry

/-!
# One thread and several

Where one thread decodes a stream, several threads return the same bytes, blocks and checksum under
every schedule, as long as no piece behind the first decodes to more than the output limit. A stream
that one thread refuses they never return.
-/

namespace Fbz.Deflate

open DeflateOutput Lz Pipeline Transition

variable {crc : Crc32}

/-- Of the pieces into which the grid cuts the blocks, none behind the first decodes to more than
the output limit; or the first one does. -/
def PiecesFit (startByte endByte : Nat) (blocks : List Block) : Prop :=
  match cutBlocks (estimatedStop startByte endByte) 0 [] blocks with
  | [] => True
  | first :: pieces => decodedLength first ≤ parallelOutputLimit →
      ∀ piece ∈ pieces, decodedLength piece ≤ parallelOutputLimit

section Pieces

variable {data all bytes : List UInt8} {startBit startByte last bit : Nat}
  {allBlocks front rest : List Block} {segments : List (Segment crc)} {fin : Bool}

private theorem Through.remaining (through : Through data startBit last all allBlocks true)
    (passes : Passes data startBit bit bytes front fin) :
    ∃ rest, allBlocks = front ++ rest ∧ (fin = true → rest = []) := by
  obtain ⟨rest, hrest⟩ := passes.extends through.passes (through.fewer passes)
  refine ⟨rest, hrest, ?_⟩
  intro hfin
  by_contra hmore
  have hfewer : front.length < allBlocks.length := by
    have := List.length_pos_iff.mpr hmore
    rw [hrest, List.length_append]
    omega
  have := (passes.goes_on through.passes hfewer).1
  rw [hfin] at this
  cases this

private theorem Through.until (through : Through data startBit last all allBlocks true)
    (passes : Passes data startBit bit bytes front false) (stopBit : Nat) :
    ∃ found, decodeUntil data stopBit id bit [] (⟨bytes⟩ : History) = .ok found := by
  have hall := through.passes.resume
  have hfront := passes.resume
  simp only [if_true, Bool.false_eq_true, if_false] at hall hfront
  have hblocks := decodeUntil_front data stopBit bit front [] (⟨bytes⟩ : History)
  rw [List.append_nil] at hblocks
  have hloop := decodeDeflate_until data stopBit bit front (⟨bytes⟩ : History)
  cases huntil : decodeUntil data stopBit id bit [] (⟨bytes⟩ : History) with
  | ok found => exact ⟨found, rfl⟩
  | error error =>
    rw [huntil] at hblocks
    rw [hblocks] at hloop
    rw [hfront] at hall
    cases hloop.symm.trans hall

private theorem Through.piece {stop : Nat → Nat} {key endBit : Nat} {h : History}
    {piece : List Block} (through : Through data startBit last all allBlocks true)
    (passes : Passes data startBit bit bytes front false) (split : allBlocks = front ++ rest)
    (hloop : decodeUntil data (stop key) id bit [] (⟨bytes⟩ : History) =
      .ok (h, piece, endBit, fin)) :
    ∃ final rest', Passes data startBit final h.bytes (front ++ piece) fin ∧
      endBit = segmentEnd fin final ∧ allBlocks = front ++ piece ++ rest' ∧
      h.bytes.length = bytes.length + decodedLength piece ∧
      cutBlocks stop key [] rest =
        piece :: if fin then [] else cutBlocks stop (key + 1) [] rest' := by
  have hblocks := decodeUntil_front data (stop key) bit front [] (⟨bytes⟩ : History)
  rw [hloop, List.append_nil] at hblocks
  obtain ⟨final, hpasses, hend⟩ := Passes.decodeUntil (h := ⟨bytes⟩) passes hblocks
  obtain ⟨rest', hrest, hlast⟩ := through.remaining hpasses
  obtain ⟨piece', heq, hlength, hcut, hcutLast⟩ := decodeUntil_piece hloop
  rw [List.nil_append] at heq
  subst heq
  have hsplit : rest = piece ++ rest' := by
    rw [split, List.append_assoc] at hrest
    exact List.append_cancel_left hrest
  refine ⟨final, rest', hpasses, hend, hrest, hlength, ?_⟩
  cases fin with
  | false =>
    rw [hsplit]
    exact hcut rfl [] rest'
  | true =>
    rw [hsplit, hlast rfl, List.append_nil]
    exact hcutLast rfl []

/-- The segments of a cut are the first pieces of the blocks. -/
theorem Cut.pieces (through : Through data (startByte * 8) last all allBlocks true)
    (cut : Cut data startByte segments bit fin) :
    ∃ final bytes front rest pieces, Passes data (startByte * 8) final bytes front fin ∧
      bit = segmentEnd fin final ∧ allBlocks = front ++ rest ∧ pieces.length = segments.length ∧
      (∀ piece ∈ pieces, decodedLength piece ≤ parallelOutputLimit) ∧
      cutBlocks (estimatedStop startByte data.length) 0 [] allBlocks =
        pieces ++ if fin then []
          else cutBlocks (estimatedStop startByte data.length) segments.length [] rest := by
  induction cut with
  | @first segment decoded =>
    obtain ⟨bytes, blocks, hloop, hlimit, -⟩ := decodeSegment_empty decoded
    obtain ⟨final, rest, hpasses, hend, hsplit, hlength, hcut⟩ :=
      through.piece .start (List.nil_append _).symm hloop
    refine ⟨final, bytes, blocks, rest, [blocks], hpasses, hend, hsplit, rfl, ?_, hcut⟩
    intro piece hmem
    obtain rfl := List.mem_singleton.mp hmem
    have hlength : bytes.length = 0 + decodedLength piece := hlength
    omega
  | @next segments bit segment front decoded ih =>
    obtain ⟨final, before, blocks, rest, pieces, hpasses, hend, hsplit, hcount, hfit, hcut⟩ := ih
    obtain rfl : bit = final := hend
    obtain ⟨found, hloop⟩ := through.until hpasses
      (estimatedStop startByte data.length segments.length)
    obtain ⟨h, piece, endBit, fin⟩ := found
    have hlimit := (@unknown_segment crc _ _ _ _ _ _ _ _ _ front.bounds.1 hloop).mp ⟨segment, decoded⟩
    obtain ⟨rfl, rfl⟩ := unknown_segment_ends decoded hloop
    obtain ⟨final', rest', hpasses', hend', hsplit', hlength', hcut'⟩ :=
      through.piece hpasses hsplit hloop
    refine ⟨final', h.bytes, blocks ++ piece, rest', pieces ++ [piece], hpasses', hend', hsplit', ?_,
      ?_, ?_⟩
    · rw [List.length_append, List.length_append, hcount]
      rfl
    · intro other hmem
      rcases List.mem_append.mp hmem with hmem | hmem
      · exact hfit other hmem
      · obtain rfl := List.mem_singleton.mp hmem
        omega
    · simp only [Bool.false_eq_true, if_false] at hcut
      rw [hcut, hcut', List.append_assoc, List.length_append, List.length_singleton]
      rfl

private theorem Through.lasts {threads : Nat}
    (through : Through data (startByte * 8) last all allBlocks true) :
    ¬ RunsDry crc data startByte threads := by
  intro dry
  obtain ⟨segments, hcut, -⟩ := dry.cut
  obtain ⟨final, bytes, front, -, -, hpasses, hend, -⟩ := hcut.pieces through
  obtain rfl : data.length * 8 = final := hend
  obtain ⟨rest, hrest, -⟩ := through.remaining hpasses
  have hfewer : front.length < allBlocks.length := by
    rcases Nat.lt_or_eq_of_le (through.fewer hpasses) with hlt | heq
    · exact hlt
    · have := (hpasses.unique through.passes heq).2.2.2
      cases this
  obtain ⟨-, next, hnext⟩ := hpasses.goes_on through.passes hfewer
  have := decodeBlock_advances hnext
  omega

private theorem PiecesFit.supplied (fit : PiecesFit startByte data.length allBlocks)
    (through : Through data (startByte * 8) last all allBlocks true) :
    Supplied crc data startByte := by
  intro segments bit cut _
  obtain ⟨final, before, front, rest, pieces, hpasses, hend, hsplit, hcount, hfit, hcut⟩ :=
    cut.pieces through
  obtain rfl : bit = final := hend
  obtain ⟨found, hloop⟩ := through.until hpasses
    (estimatedStop startByte data.length segments.length)
  obtain ⟨h, piece, endBit, fin⟩ := found
  obtain ⟨_, _, -, -, -, hlength, hnext⟩ := through.piece hpasses hsplit hloop
  simp only [Bool.false_eq_true, if_false] at hcut
  rw [hnext] at hcut
  have hpiece : decodedLength piece ≤ parallelOutputLimit := by
    cases pieces with
    | nil =>
      have := cut.length_pos
      rw [← hcount] at this
      cases this
    | cons first pieces =>
      rw [PiecesFit, hcut] at fit
      exact fit (hfit first List.mem_cons_self) piece
        (List.mem_append_right _ List.mem_cons_self)
  apply (@unknown_segment crc _ _ _ _ _ _ _ _ _ cut.bounds.1 hloop).mpr
  omega

private theorem Cut.piecesFit (through : Through data (startByte * 8) last all allBlocks true)
    (cut : Cut data startByte segments bit true) : PiecesFit startByte data.length allBlocks := by
  obtain ⟨final, before, front, rest, pieces, -, -, -, -, hfit, hcut⟩ := cut.pieces through
  rw [if_pos rfl, List.append_nil] at hcut
  rw [PiecesFit, hcut]
  cases pieces with
  | nil => trivial
  | cons first pieces =>
    intro _ piece hmem
    exact hfit piece (List.mem_cons_of_mem _ hmem)

private theorem Through.first_large {error : Error}
    (through : Through data (startByte * 8) last all allBlocks true)
    (refused : decodeSegment crc data (startByte * 8) (estimatedStop startByte data.length 0) .empty
      parallelOutputLimit = .error error) (inside : startByte ≤ data.length) :
    PiecesFit startByte data.length allBlocks := by
  obtain ⟨found, hloop⟩ := through.until .start (estimatedStop startByte data.length 0)
  obtain ⟨h, piece, endBit, fin⟩ := found
  obtain ⟨_, _, -, -, -, hlength, hcut⟩ := through.piece .start (List.nil_append _).symm hloop
  have hinitial := @initial_segment crc data (startByte * 8)
    (estimatedStop startByte data.length 0) parallelOutputLimit (Nat.mul_le_mul_right 8 inside)
  rw [hloop] at hinitial
  dsimp only at hinitial
  rw [PiecesFit, hcut]
  intro hsmall
  have hlength : h.bytes.length = 0 + decodedLength piece := hlength
  rw [if_pos (by omega), refused] at hinitial
  cases hinitial

end Pieces

/-- The same bytes, checksum and blocks; how many segments were guessed is left out. -/
structure DeflateReport.Same (report other : DeflateReport) : Prop where
  decodedLen : report.decodedLen = other.decodedLen
  crc : report.crc = other.crc
  blocks : report.blocks = other.blocks
  ends : (report.compressedEndBit + 7) / 8 = (other.compressedEndBit + 7) / 8

section Serial

variable {setting : Setting crc} {input data all output : List UInt8} {stream : DeflateStream}
  {report : DeflateReport} {last : Nat} {allBlocks : List Block}

private theorem Through.serial
    (through : Through data (stream.startByte * 8) last all allBlocks true) :
    ∃ report, decompressDeflateSerialStream crc data stream.startByte stream.member
      stream.decodedBase = .ok (all, report) := by
  have hall := through.passes.resume
  rw [if_pos rfl] at hall
  rcases serialStream_cases crc data stream.startByte stream.member stream.decodedBase with
    ⟨history, blocks, last', hhistory, -, hok⟩ | ⟨-, hlarge⟩
  · rw [hall] at hhistory
    obtain ⟨rfl, -⟩ := Prod.mk.inj (Except.ok.inj hhistory)
    exact ⟨_, hok⟩
  · exact absurd through.counted (Nat.not_lt.mpr (hlarge _ _ _ hall))

private theorem serialStream_through
    (accepts : decompressDeflateSerialStream crc data stream.startByte stream.member
      stream.decodedBase = .ok (output, report)) :
    ∃ last blocks, Through data (stream.startByte * 8) last output blocks true := by
  rcases serialStream_cases crc data stream.startByte stream.member stream.decodedBase with
    ⟨history, blocks, last, hhistory, hsmall, hok⟩ | ⟨⟨error, herror⟩, -⟩
  · rw [accepts] at hok
    obtain ⟨rfl, -⟩ := Prod.mk.inj (Except.ok.inj hok)
    exact ⟨last, blocks, Passes.decodeDeflate .start hhistory, .inl rfl, hsmall⟩
  · rw [accepts] at herror
    cases herror

private theorem Decodes.same {output' : List UInt8} {report' : DeflateReport}
    (decodes : Decodes crc data stream output report)
    (decodes' : Decodes crc data stream output' report') : output' = output ∧ report'.Same report := by
  obtain ⟨⟨last, blocks, hpasses, hblocks, hend⟩, hlen, hcrc⟩ := decodes
  obtain ⟨⟨last', blocks', hpasses', hblocks', hend'⟩, hlen', hcrc'⟩ := decodes'
  have hall := hpasses.resume
  have hall' := hpasses'.resume
  rw [if_pos rfl] at hall hall'
  rw [hall] at hall'
  simp only [Except.ok.injEq, Prod.mk.injEq, History.mk.injEq] at hall'
  obtain ⟨rfl, rfl, rfl⟩ := hall'
  exact ⟨rfl, hlen'.trans hlen.symm, hcrc'.trans hcrc.symm, hblocks'.trans hblocks.symm,
    hend'.trans hend.symm⟩

private theorem Decodes.through (decodes : Decodes crc data stream output report)
    (counted : output.length < 2 ^ 64) :
    ∃ last blocks, Through data (stream.startByte * 8) last output blocks true := by
  obtain ⟨last, blocks, hpasses, -, -⟩ := decodes.passes
  exact ⟨last, blocks, hpasses, .inl rfl, counted⟩

private theorem SegmentCommitter.commitAll_counted {c c' : SegmentCommitter crc}
    {segments : List (Segment crc)} (commits : c.commitAll segments = .ok c')
    (start : c.decoded < 2 ^ 64) : c'.decoded < 2 ^ 64 := by
  induction segments generalizing c with
  | nil =>
    obtain rfl := Except.ok.inj commits
    exact start
  | cons segment segments ih =>
    rw [commitAll] at commits
    obtain ⟨resolved, -, commits⟩ := result_bind_eq_ok.mp commits
    obtain ⟨next, hcommit, commits⟩ := result_bind_eq_ok.mp commits
    obtain ⟨_, small, hcommit⟩ := result_bind_eq_ok.mp hcommit
    obtain rfl := Except.ok.inj hcommit
    exact ih commits (ensure_eq_ok.mp small)

private theorem coordinator_done {cursor : Cursor crc} {startByte threads : Nat}
    (returns : (coordinator data startByte threads).op cursor = .done (.ok (output, report))) :
    cursor.finalBlock = true ∧ report = cursor.report data startByte := by
  cases hphase : cursor.phase with
  | head =>
    by_cases fin : cursor.finalBlock <;> by_cases drained : cursor.outstanding = 0 <;>
      simp [coordinator, hphase, fin, drained] at returns
    exact ⟨fin, returns.2.symm⟩
  | draining =>
    by_cases drained : cursor.outstanding = 0 <;> simp [coordinator, hphase, drained] at returns
  | rejected | accepted | full | failed => simp [coordinator, hphase] at returns

private theorem Standing.serial_accepts {progress : List DecodeProgress}
    (bounds : streamData input stream = .ok data)
    (standing : Standing setting input stream (.done progress (.ok (output, report)))) :
    ∃ report', decompressDeflateSerialStream crc data stream.startByte stream.member
      stream.decodedBase = .ok (output, report') ∧ report.Same report' := by
  have hdecodes := standing.decodes bounds
  have hcounted : output.length < 2 ^ 64 := by
    generalize hstate : StreamState.done progress (.ok (output, report)) = state at standing
    cases standing with
    | opened | parallel | refused => simp at hstate
    | serial bounds' =>
      obtain rfl := Except.ok.inj (bounds.symm.trans bounds')
      simp only [StreamState.done.injEq] at hstate
      obtain ⟨last, blocks, hthrough⟩ := serialStream_through hstate.2.symm
      exact hthrough.counted
    | joined bounds' first run result =>
      obtain rfl := Except.ok.inj (bounds.symm.trans bounds')
      simp only [StreamState.done.injEq] at hstate
      rw [← hstate.2] at result
      obtain ⟨⟨submitted, done, queue, inOrder⟩, hdone⟩ := program_inOrder first run
      have hcommitter := SegmentCommitter.commitAll_counted inOrder.committed
        (show 0 < 2 ^ 64 by decide)
      have hreport := coordinator_done (hdone _ result)
      rw [← hdecodes.decodedLen, hreport.2]
      exact hcommitter
  obtain ⟨last, blocks, hthrough⟩ := hdecodes.through hcounted
  obtain ⟨report', haccepts⟩ := @Through.serial crc _ _ _ _ _ hthrough
  exact ⟨report', haccepts, ((serialStream_decodes haccepts).same hdecodes).2⟩

end Serial

/-- Every run of a stream returns what one thread returns, and nothing where one thread refuses. -/
def AgreesWithSerial (setting : Setting crc) (input data : List UInt8) (stream : DeflateStream) :
    Prop :=
  match decompressDeflateSerialStream crc data stream.startByte stream.member stream.decodedBase with
  | .ok (output, report) =>
    Inevitable (StreamStep setting input stream)
      (fun s => ∃ progress report', s = .done progress (.ok (output, report')) ∧
        report'.Same report) .opened
  | .error _ => ∀ progress output report,
      ¬ Reaches (StreamStep setting input stream) .opened (.done progress (.ok (output, report)))

section Several

variable {setting : Setting crc} {input data all output : List UInt8} {stream : DeflateStream}
  {report : DeflateReport} {last : Nat} {allBlocks : List Block}

private theorem coordinator_alive {cursor : Cursor crc} {startByte threads : Nat}
    {outcome : Outcome} (returns : (coordinator data startByte threads).op cursor = .done outcome)
    (alive : ¬ cursor.phase.Failed) : ∃ output report, outcome = .ok (output, report) := by
  cases hphase : cursor.phase with
  | head =>
    by_cases fin : cursor.finalBlock <;> by_cases drained : cursor.outstanding = 0 <;>
      simp [coordinator, hphase, fin, drained] at returns
    exact ⟨_, _, returns.symm⟩
  | draining =>
    by_cases drained : cursor.outstanding = 0 <;> simp [coordinator, hphase, drained] at returns
  | failed error => exact absurd ⟨error, hphase⟩ alive
  | rejected | accepted | full => simp [coordinator, hphase] at returns

/-- On the way to an outcome that is no error. -/
def Delivering (setting : Setting crc) (data : List UInt8) (stream : DeflateStream) :
    StreamState crc → Prop
  | .opened => True
  | .parallel s => ∃ initial : Segment crc,
      (initialSegment data stream : Result (Segment crc)) = .ok initial ∧
        Reaches (streamProgram setting data stream.startByte (setting.threads stream)).Step
          (pipelineStart setting data stream initial) s
  | .done _ outcome => ∃ output report, outcome = .ok (output, report)

private theorem Through.outcome
    (through : Through data (stream.startByte * 8) last all allBlocks true)
    (fit : PiecesFit stream.startByte data.length allBlocks)
    (bounds : streamData input stream = .ok data) {progress : List DecodeProgress}
    {outcome : Outcome}
    (run : Reaches (StreamStep setting input stream) .opened (.done progress outcome)) :
    ∃ output report, outcome = .ok (output, report) := by
  obtain ⟨serialReport, hserial⟩ := @Through.serial crc _ _ _ _ _ through
  refine run.invariant (I := Delivering setting data stream) trivial ?_
  intro s t hs step
  cases step with
  | refuse bounds' => cases bounds.symm.trans bounds'
  | serial bounds' | giveUp bounds' =>
    obtain rfl := Except.ok.inj (bounds.symm.trans bounds')
    exact ⟨_, _, hserial⟩
  | reserve bounds' many first large =>
    rw [streamProgram_admissible (Setting.room many)] at large
    cases large
  | spawn bounds' many first =>
    obtain rfl := Except.ok.inj (bounds.symm.trans bounds')
    exact ⟨_, first, .refl⟩
  | run bounds' step =>
    obtain rfl := Except.ok.inj (bounds.symm.trans bounds')
    obtain ⟨initial, first, hrun⟩ := hs
    exact ⟨initial, first, hrun.tail step⟩
  | join returned result =>
    obtain ⟨initial, first, hrun⟩ := hs
    obtain ⟨⟨g, halone, hsame⟩, hdone⟩ := Program.reachable_consumer _ hrun
    rw [initialSegment_eq bounds] at first
    have halive := (reaches_running through (fit.supplied through) first halone).alive
    rw [hsame] at halive
    exact coordinator_alive (hdone _ result) halive

private theorem Through.agrees
    (through : Through data (stream.startByte * 8) last all allBlocks true)
    (fit : PiecesFit stream.startByte data.length allBlocks)
    (threads : 0 < setting.threads stream) (bounds : streamData input stream = .ok data) :
    AgreesWithSerial setting input data stream := by
  obtain ⟨report, hserial⟩ := @Through.serial crc _ _ _ _ _ through
  rw [AgreesWithSerial, hserial]
  have hends : Inevitable (StreamStep setting input stream) StreamState.Ended .opened := by
    apply stream_ends bounds
    intro many initial first
    exact pipeline_returns threads many bounds first through.lasts
  apply hends.strengthen
  rintro s hrun ⟨progress, outcome, rfl⟩
  obtain ⟨output, report', rfl⟩ := through.outcome fit bounds hrun
  obtain ⟨report'', haccepts, hsame⟩ := (standing_of_run hrun).serial_accepts bounds
  rw [hserial] at haccepts
  obtain ⟨rfl, rfl⟩ := Prod.mk.inj (Except.ok.inj haccepts)
  exact ⟨progress, report', rfl, hsame⟩

private theorem streamData_inside (bounds : streamData input stream = .ok data) :
    stream.startByte ≤ data.length := by
  obtain ⟨data', hrange, h⟩ := result_bind_eq_ok.mp bounds
  obtain ⟨_, hordered, heq⟩ := result_bind_eq_ok.mp h
  obtain rfl := Except.ok.inj heq
  have hlength := range?_length (okOr_eq_ok.mp hrange)
  have hordered := ensure_eq_ok.mp hordered
  omega

private theorem pipeline_of_returned (many : setting.threads stream ≠ 1)
    (bounds : streamData input stream = .ok data) {initial : Segment crc}
    (first : (initialSegment data stream : Result (Segment crc)) = .ok initial)
    {progress : List DecodeProgress} (run : Reaches (StreamStep setting input stream) .opened
      (.done progress (.ok (output, report)))) :
    ∃ s, Reaches (streamProgram setting data stream.startByte (setting.threads stream)).Step
        (pipelineStart setting data stream initial) s ∧ s.finished = some (.ok (output, report)) := by
  generalize hstate : StreamState.done progress (.ok (output, report)) = state at run
  cases run with
  | refl => cases hstate
  | tail hrun step =>
    cases step with
    | refuse | reserve => simp at hstate
    | spawn | run => cases hstate
    | serial bounds' single => exact absurd single many
    | giveUp bounds' _ refused =>
      obtain rfl := Except.ok.inj (bounds.symm.trans bounds')
      cases first.symm.trans refused
    | join returned result =>
      cases standing_of_run hrun with
      | parallel bounds' first' hpipeline =>
        obtain rfl := Except.ok.inj (bounds.symm.trans bounds')
        obtain rfl := Except.ok.inj (first.symm.trans first')
        simp only [StreamState.done.injEq] at hstate
        rw [← hstate.2] at result
        exact ⟨_, hpipeline, result⟩

private theorem Through.fits (through : Through data (stream.startByte * 8) last all allBlocks true)
    (many : setting.threads stream ≠ 1) (bounds : streamData input stream = .ok data)
    {progress : List DecodeProgress} (run : Reaches (StreamStep setting input stream) .opened
      (.done progress (.ok (output, report)))) : PiecesFit stream.startByte data.length allBlocks := by
  have hinside := streamData_inside bounds
  cases first : (initialSegment data stream : Result (Segment crc)) with
  | error error =>
    rw [initialSegment_eq bounds] at first
    exact through.first_large first hinside
  | ok initial =>
    obtain ⟨s, hrun, hfinished⟩ := pipeline_of_returned many bounds first run
    obtain ⟨⟨g, halone, hsame⟩, hdone⟩ := Program.reachable_consumer _ hrun
    have hreturns := hdone _ hfinished
    have hfinal := (coordinator_done hreturns).1
    rw [initialSegment_eq bounds] at first
    obtain ⟨error, hfailed⟩ | keyed := reaches_keepsKeys first halone
    · rw [hsame] at hfailed
      exact absurd hreturns (by simp [streamProgram, coordinator, hfailed])
    · obtain ⟨taken, hcut, -⟩ := keyed.cut
      rw [hsame, hfinal] at hcut
      exact hcut.piecesFit through

/-- Several threads agree with one thread exactly where no piece behind a first one that fits decodes
to more than the output limit. -/
theorem stream_agrees_iff (setting : Setting crc) (input data : List UInt8) (stream : DeflateStream)
    (threads : 0 < setting.threads stream) (bounds : streamData input stream = .ok data) :
    AgreesWithSerial setting input data stream ↔ setting.threads stream = 1 ∨
      ∀ last all blocks, Through data (stream.startByte * 8) last all blocks true →
        PiecesFit stream.startByte data.length blocks := by
  constructor
  · intro agrees
    by_cases single : setting.threads stream = 1
    · exact .inl single
    · refine .inr fun last all blocks through => ?_
      obtain ⟨serialReport, hserial⟩ := @Through.serial crc _ _ _ _ _ through
      rw [AgreesWithSerial, hserial] at agrees
      obtain ⟨s, hrun, progress, report, rfl, -⟩ := agrees.exists_reaches
      exact through.fits single bounds hrun
  · intro fit
    cases hserial : decompressDeflateSerialStream crc data stream.startByte stream.member
      stream.decodedBase with
    | error error =>
      rw [AgreesWithSerial, hserial]
      intro progress output report run
      obtain ⟨report', haccepts, -⟩ := (standing_of_run run).serial_accepts bounds
      rw [hserial] at haccepts
      cases haccepts
    | ok found =>
      obtain ⟨output, report⟩ := found
      obtain ⟨last, blocks, hthrough⟩ := serialStream_through hserial
      rcases fit with single | fit
      · rw [AgreesWithSerial, hserial]
        refine .later ⟨_, .serial bounds single⟩ ?_
        intro t step
        cases step with
        | refuse bounds' => cases bounds.symm.trans bounds'
        | serial bounds' =>
          obtain rfl := Except.ok.inj (bounds.symm.trans bounds')
          exact .now ⟨_, report, by rw [hserial], rfl, rfl, rfl, rfl⟩
        | giveUp _ many | reserve _ many | spawn _ many => exact absurd single many
      · exact hthrough.agrees (fit last output blocks hthrough) threads bounds

end Several

/-- A stored block of 11 zeros, and not the last one. -/
def storedBlock : List UInt8 := [0, 11, 0, 244, 255, 0, 0, 0, 0, 0, 0, 0, 0, 0, 0, 0]

/-- An empty last block. -/
def lastBlock : List UInt8 := [1, 0, 0, 255, 255]

def storedBlocks (count : Nat) : List UInt8 := (List.replicate count storedBlock).flatten

section LargePiece

private theorem history_rebases (before : List UInt8) :
    Rebases before.length (fun h : History => (⟨before ++ h.bytes⟩ : History)) where
  run {h h' op} hrun := by
    cases op with
    | emit byte =>
      obtain rfl := Except.ok.inj hrun
      exact congrArg (fun bytes => Except.ok (⟨bytes⟩ : History)) (List.append_assoc ..)
    | extend bytes =>
      obtain rfl := Except.ok.inj hrun
      exact congrArg (fun bytes => Except.ok (⟨bytes⟩ : History)) (List.append_assoc ..)
    | copy distance length =>
      obtain ⟨_, hcheck, hrun⟩ := result_bind_eq_ok.mp hrun
      obtain rfl := Except.ok.inj hrun
      obtain ⟨hpos, hle⟩ := checkDistance_eq_ok hcheck
      refine result_bind_eq_ok.mpr ⟨(), checkDistance_of hpos ?_, ?_⟩
      · rw [List.length_append]
        omega
      · rw [copyBack_append hpos (by omega)]
        rfl
  total h := List.length_append

private theorem storedBlock_decodes : decodeBlock storedBlock 0 0 (⟨[]⟩ : History) =
    .ok (⟨List.replicate 11 0⟩, ⟨0, .stored, false, 0, 128, 0, 11⟩, 128) :=
  decodeBlock_of_bytes (by decide +kernel)

private theorem lastBlock_decodes : decodeBlock lastBlock 0 0 (⟨[]⟩ : History) =
    .ok (⟨[]⟩, ⟨0, .stored, true, 0, 40, 0, 0⟩, 40) :=
  decodeBlock_of_bytes (by decide +kernel)

variable {front bytes : List UInt8} {stop : Nat}

private theorem decodeBlock_part {part own back : List UInt8} {block : Block} {next : Nat}
    (decodes : decodeBlock part 0 0 (⟨[]⟩ : History) = .ok (⟨own⟩, block, next)) :
    ∃ block', decodeBlock (front ++ part ++ back) 0 (8 * front.length) (⟨bytes⟩ : History) =
        .ok (⟨bytes ++ own⟩, block', 8 * front.length + next) ∧
      block'.kind = block.kind ∧ block'.finalBlock = block.finalBlock := by
  have hembed := @decodeBlock_embed front part back _ _ _ _ _ _ _ ⟨front.length, bytes.length, 0, 0⟩
    (history_rebases bytes) rfl _ _ decodes
  dsimp only at hembed
  rw [List.append_nil] at hembed
  exact ⟨_, hembed, rfl, rfl⟩

/-- Stored blocks never end a segment. -/
theorem storedBlocks_until (count : Nat) (blocks : List Block) :
    ∃ blocks', decodeUntil (front ++ (storedBlocks count ++ lastBlock)) stop id (8 * front.length)
        blocks (⟨bytes⟩ : History) =
      .ok (⟨bytes ++ List.replicate (11 * count) 0⟩, blocks',
        8 * (front ++ (storedBlocks count ++ lastBlock)).length, true) := by
  induction count generalizing front bytes blocks with
  | zero =>
    obtain ⟨block, hblock, hkind, hfinal⟩ :=
      @decodeBlock_part front bytes _ _ [] _ _ lastBlock_decodes
    rw [List.append_nil] at hblock
    have hempty : storedBlocks 0 ++ lastBlock = lastBlock := rfl
    rw [decodeUntil_eq, hempty, hblock]
    simp only [hfinal, if_true, id]
    refine ⟨blocks ++ [block], ?_⟩
    have hend : Bits.alignByte (8 * front.length + 40) = 8 * (front ++ lastBlock).length := by
      rw [List.length_append, Bits.alignByte]
      have : lastBlock.length = 5 := rfl
      omega
    rw [hend]
    rfl
  | succ count ih =>
    have hsplit : front ++ (storedBlocks (count + 1) ++ lastBlock) =
        front ++ storedBlock ++ (storedBlocks count ++ lastBlock) := by
      simp [storedBlocks, List.replicate_succ]
    obtain ⟨block, hblock, hkind, hfinal⟩ :=
      @decodeBlock_part front bytes _ _ (storedBlocks count ++ lastBlock) _ _ storedBlock_decodes
    rw [decodeUntil_eq, hsplit, hblock]
    simp only [hfinal, hkind, Bool.false_eq_true, if_false, and_false, id, reduceCtorEq]
    have hnext : 8 * front.length + 128 = 8 * (front ++ storedBlock).length := by
      rw [List.length_append]
      have : storedBlock.length = 16 := rfl
      omega
    have hzeros : bytes ++ List.replicate (11 * (count + 1)) (0 : UInt8) =
        bytes ++ List.replicate 11 0 ++ List.replicate (11 * count) 0 := by
      rw [List.append_assoc, List.replicate_append_replicate, Nat.mul_succ, Nat.add_comm]
    rw [hnext, hzeros]
    exact ih _

/-- Half a MiB of empty blocks and stored zeros behind them, 16 MiB in all. -/
def largeInput : List UInt8 := emptyBlocks 32768 ++ (storedBlocks 1015808 ++ lastBlock)

def largeStream : DeflateStream := ⟨0, 16777221, 0, 0⟩

private theorem storedBlocks_length (count : Nat) : (storedBlocks count).length = 16 * count := by
  simp [storedBlocks, storedBlock, Nat.mul_comm]

private theorem largeInput_length : largeInput.length = 16777221 := by
  rw [largeInput, List.length_append, List.length_append, emptyBlocks_length, storedBlocks_length]
  rfl

private theorem largeInput_until (stop : Nat) (bytes : List UInt8) (blocks : List Block) :
    ∃ blocks', decodeUntil largeInput stop id (128 * 32768) blocks (⟨bytes⟩ : History) =
      .ok (⟨bytes ++ List.replicate (11 * 1015808) 0⟩, blocks', 8 * largeInput.length, true) := by
  have hstart : 128 * 32768 = 8 * (emptyBlocks 32768).length := by rw [emptyBlocks_length]
  rw [hstart]
  unfold largeInput
  exact storedBlocks_until _ _

private theorem largeInput_through : ∃ last blocks, Through largeInput (0 * 8) last
    (List.replicate (11 * 1015808) 0) blocks true := by
  obtain ⟨front, hfront⟩ :=
    emptyBlocks_passes (storedBlocks 1015808 ++ lastBlock) (Nat.le_refl 32768)
  have hfront : Passes largeInput 0 (128 * 32768) [] front false := hfront
  obtain ⟨blocks, hloop⟩ := largeInput_until 0 [] front
  rw [List.nil_append] at hloop
  obtain ⟨last, hpasses, -⟩ := Passes.decodeUntil (h := ⟨[]⟩) hfront hloop
  refine ⟨last, blocks, hpasses, .inl rfl, ?_⟩
  rw [List.length_replicate]
  decide

private theorem largeInput_misfit {last : Nat} {all : List UInt8} {blocks : List Block}
    (through : Through largeInput (0 * 8) last all blocks true) :
    ¬ PiecesFit 0 largeInput.length blocks := by
  obtain ⟨segments, hcut, hlength⟩ := @emptyBlocks_cut 32768 (storedBlocks 1015808 ++ lastBlock)
    Crc32.reference 1 (by decide) (by decide)
  have hcut : Cut largeInput 0 segments (128 * 32768) false := hcut
  obtain ⟨final, bytes, front, rest, pieces, hpasses, hend, hsplit, hcount, hfit, hpieces⟩ :=
    hcut.pieces through
  obtain rfl : 128 * 32768 = final := hend
  obtain ⟨piece, hloop⟩ :=
    largeInput_until (estimatedStop 0 largeInput.length segments.length) bytes []
  obtain ⟨_, _, -, -, -, hsize, hnext⟩ := through.piece hpasses hsplit hloop
  rw [List.length_append, List.length_replicate] at hsize
  simp only [Bool.false_eq_true, if_false] at hpieces
  rw [hnext] at hpieces
  rw [hlength] at hcount
  obtain ⟨first, rfl⟩ := List.length_eq_one_iff.mp hcount
  rw [PiecesFit, hpieces]
  intro fit
  have hsmall := fit (hfit first List.mem_cons_self) piece List.mem_cons_self
  rw [parallelOutputLimit] at hsmall
  omega

end LargePiece

/-- One thread decodes this data; two never return its bytes. -/
theorem largeInput_disagrees :
    ¬ AgreesWithSerial drySetting largeInput largeInput largeStream := by
  obtain ⟨last, blocks, through⟩ := largeInput_through
  have hmany : drySetting.threads largeStream ≠ 1 := by decide
  have hbounds : streamData largeInput largeStream = .ok largeInput :=
    streamData_all rfl largeInput_length
  obtain ⟨report, hserial⟩ := @Through.serial Crc32.reference _ _ largeStream _ _ through
  intro agrees
  rw [AgreesWithSerial, hserial] at agrees
  obtain ⟨s, hrun, progress, report', rfl, -⟩ := agrees.exists_reaches
  exact largeInput_misfit through
    (@Through.fits _ drySetting _ _ _ _ largeStream _ _ _ through hmany hbounds _ hrun)

/-- Sixteen MiB of empty blocks and the last one. -/
def wholeInput : List UInt8 := emptyBlocks (32768 * 32) ++ lastBlock

def wholeStream : DeflateStream := ⟨0, 16777221, 0, 0⟩

section Whole

private theorem wholeInput_bounds : streamData wholeInput wholeStream = .ok wholeInput := by
  apply streamData_all rfl
  rw [wholeInput, List.length_append, emptyBlocks_length]
  rfl

private theorem wholeInput_until (stop : Nat) (blocks : List Block) :
    ∃ blocks', decodeUntil wholeInput stop id (128 * (32768 * 32)) blocks (⟨[]⟩ : History) =
      .ok (⟨[]⟩, blocks', 8 * wholeInput.length, true) := by
  have hstart : 128 * (32768 * 32) = 8 * (emptyBlocks (32768 * 32)).length := by
    rw [emptyBlocks_length]
  obtain ⟨blocks', hloop⟩ := @storedBlocks_until (emptyBlocks (32768 * 32)) [] stop 0 blocks
  have hlast : storedBlocks 0 ++ lastBlock = lastBlock := rfl
  have hnone : [] ++ List.replicate (11 * 0) (0 : UInt8) = [] := rfl
  rw [hlast, hnone] at hloop
  rw [hstart]
  unfold wholeInput
  exact ⟨blocks', hloop⟩

private theorem wholeInput_through :
    ∃ last blocks, Through wholeInput (0 * 8) last [] blocks true := by
  obtain ⟨front, hfront⟩ := emptyBlocks_passes lastBlock (Nat.le_refl (32768 * 32))
  have hfront : Passes wholeInput 0 (128 * (32768 * 32)) [] front false := hfront
  obtain ⟨blocks, hloop⟩ := wholeInput_until 0 front
  obtain ⟨last, hpasses, -⟩ := Passes.decodeUntil (h := ⟨[]⟩) hfront hloop
  exact ⟨last, blocks, hpasses, .inl rfl, by decide⟩

private theorem wholeInput_lasts {threads : Nat} :
    ¬ RunsDry Crc32.reference wholeInput 0 threads := by
  obtain ⟨last, blocks, through⟩ := wholeInput_through
  exact through.lasts

private theorem wholeInput_fits {last : Nat} {all : List UInt8} {blocks : List Block}
    (through : Through wholeInput (0 * 8) last all blocks true) :
    PiecesFit 0 wholeInput.length blocks := by
  obtain ⟨segments, hcut, hlength⟩ :=
    @emptyBlocks_cut (32768 * 32) lastBlock Crc32.reference 32 (by decide) (Nat.le_refl _)
  have hcut : Cut wholeInput 0 segments (128 * (32768 * 32)) false := hcut
  obtain ⟨blocks', hloop⟩ :=
    wholeInput_until (estimatedStop 0 wholeInput.length segments.length) []
  obtain ⟨segment, hsegment⟩ := (@unknown_segment Crc32.reference _ _ _ parallelOutputLimit
    _ _ _ _ _ hcut.bounds.1 hloop).mpr (Nat.zero_le _)
  have hfin := (unknown_segment_ends hsegment hloop).2
  have hnext := hcut.next hsegment
  rw [hfin] at hnext
  exact hnext.piecesFit through

private theorem wholeInput_spawns : ∃ s,
    Reaches (StreamStep drySetting wholeInput wholeStream) .opened (.parallel s) := by
  obtain ⟨segment, hinitial, -⟩ :=
    @emptyBlocks_initial (32768 * 32) lastBlock Crc32.reference (by decide)
  have hmany : drySetting.threads wholeStream ≠ 1 := by decide
  exact ⟨_, .single (.spawn wholeInput_bounds hmany hinitial
    (streamProgram_admissible (Setting.room hmany)))⟩

theorem successorWindow_true_whole :
    (∃ (segment : Segment Crc32.reference) (resolved : _),
      decodeSegment Crc32.reference [3, 2, 0] 0 0 .unknown 8 = .ok segment ∧
      resolveSegment segment (lastWindow [0x61]) = .ok resolved ∧
      successorWindow segment (lastWindow [0x61]) = .ok (lastWindow ([0x61] ++ resolved.bytes))) ∧
    ∃ s, Reaches (StreamStep drySetting wholeInput wholeStream) .opened (.parallel s) ∧
      ∃ data taken, streamData wholeInput wholeStream = .ok data ∧
        KnowsWindow data (wholeStream.startByte * 8) s.consumer taken := by
  obtain ⟨segment, resolved, hsegment, hresolved⟩ := overlap_resolves
  obtain ⟨s, hrun⟩ := wholeInput_spawns
  exact ⟨⟨segment, resolved, hsegment, hresolved,
      successorWindow_true.1 _ _ _ _ _ _ hsegment [0x61] resolved hresolved⟩,
    s, hrun, successorWindow_true.2 drySetting wholeInput wholeStream s hrun⟩

theorem wholeInput_agrees : AgreesWithSerial drySetting wholeInput wholeInput wholeStream :=
  (stream_agrees_iff drySetting wholeInput wholeInput wholeStream (by decide) wholeInput_bounds).mpr
    (.inr fun _ _ _ through => wholeInput_fits through)

theorem wholeInput_never_waits :
    (∀ s, Reaches (StreamStep drySetting wholeInput wholeStream) .opened (.parallel s) →
      s.finished = none →
      (streamProgram drySetting wholeInput 0 (drySetting.threads wholeStream)).Legal s.ledger ∧
      ¬ (streamProgram drySetting wholeInput 0 (drySetting.threads wholeStream)).WaitsForever s) ∧
    Inevitable (StreamStep drySetting wholeInput wholeStream) StreamState.Ended .opened :=
  (stream_never_waits_iff drySetting wholeInput wholeInput wholeStream (by decide)
    wholeInput_bounds).mpr (.inr wholeInput_lasts)

end Whole

end Fbz.Deflate
