import Fbz.Deflate.Gzip
import Fbz.Deflate.Ordered

/-!
# The gzip decoder

The loop over the members of an input with any number of threads, as a transition system. The
stream of each member is decoded under any schedule of its workers. The decoder keeps the calls of
the progress callback.
-/

namespace Fbz.Deflate

open Pipeline Transition

variable {crc : Crc32}

/-- What the callback has been given of this stream. -/
def StreamState.progress : StreamState crc → List DecodeProgress
  | .opened => []
  | .parallel s => s.consumer.committer.progress
  | .done progress _ => progress

/-- What a stream returns, against one thread that decodes it block by block. -/
structure Decodes (crc : Crc32) (data : List UInt8) (stream : DeflateStream) (output : List UInt8)
    (report : DeflateReport) : Prop where
  passes : ∃ last blocks, Passes data (stream.startByte * 8) last output blocks true ∧
    report.blocks = blocks.map (Block.relocate stream.member (· + stream.decodedBase)) ∧
    (report.compressedEndBit + 7) / 8 = (last + 7) / 8
  decodedLen : report.decodedLen = output.length
  hashed : report.crc = crc.hash output

section Streams

variable {setting : Setting crc} {data input output : List UInt8} {stream : DeflateStream}
  {report : DeflateReport}

/-- One thread accepts exactly the streams whose blocks decode to fewer than 2^64 bytes. -/
theorem serialStream_cases (crc : Crc32) (data : List UInt8) (startByte member base : Nat) :
    (∃ history blocks last,
      decodeDeflate data 0 (startByte * 8) [] ({} : History) = .ok (history, blocks, last) ∧
        history.bytes.length < 2 ^ 64 ∧
        decompressDeflateSerialStream crc data startByte member base =
          .ok (history.bytes,
            { sourceLen := data.length - startByte, compressedEndBit := last
              decodedLen := history.bytes.length, crc := crc.hash history.bytes
              blocks := blocks.map (Block.relocate member (· + base)), speculativeChunks := 0
              fallbackChunks := 0 })) ∨
      (∃ error, decompressDeflateSerialStream crc data startByte member base = .error error) ∧
        ∀ history blocks last,
          decodeDeflate data 0 (startByte * 8) [] ({} : History) = .ok (history, blocks, last) →
            2 ^ 64 ≤ history.bytes.length := by
  have hstart : (Emitter.new base : Emitter crc).Emits {} ∧ ([] : List UInt8).length < 2 ^ 64 ∧
      base = base := ⟨Emitter.emits_new base, by decide, rfl⟩
  have hanswer := (emitter_simulates base).decodeDeflate hstart data member (startByte * 8) []
  rw [List.map_nil] at hanswer
  have hfails {error : Error} (h : decodeDeflate data member (startByte * 8) []
      (Emitter.new base : Emitter crc) = .error error) :
      decompressDeflateSerialStream crc data startByte member base = .error error := by
    rw [decompressDeflateSerialStream, h]
    rfl
  cases hhistory : decodeDeflate data 0 (startByte * 8) [] ({} : History) with
  | error error =>
    rw [hhistory] at hanswer
    obtain ⟨error', herror⟩ := hanswer trivial
    exact .inr ⟨⟨error', hfails herror⟩, nofun⟩
  | ok found =>
    obtain ⟨history, blocks, last⟩ := found
    rw [hhistory, AnswersWith] at hanswer
    split at hanswer
    case isTrue small =>
      obtain ⟨emitter, hemitter, hemits, -, -⟩ := hanswer
      obtain ⟨houtput, hfinish⟩ := hemits.finish_eq
      obtain ⟨hcrc, hlen⟩ := Prod.mk.inj hfinish
      refine .inl ⟨history, blocks, last, rfl, small, ?_⟩
      rw [decompressDeflateSerialStream, hemitter]
      simp only [Emitter.finish] at houtput hcrc hlen
      simp only [result_bind_ok, Prod.map, id, houtput, hlen, hcrc]
      rfl
    case isFalse large =>
      obtain ⟨error, herror⟩ := hanswer
      refine .inr ⟨⟨error, hfails herror⟩, ?_⟩
      intro history' blocks' last' h
      cases h
      exact Nat.le_of_not_lt large

theorem serialStream_decodes
    (h : decompressDeflateSerialStream crc data stream.startByte stream.member stream.decodedBase =
      .ok (output, report)) : Decodes crc data stream output report := by
  obtain ⟨history, blocks, last, hhistory, -, hok⟩ | ⟨⟨error, herror⟩, -⟩ :=
    serialStream_cases crc data stream.startByte stream.member stream.decodedBase
  · rw [h] at hok
    obtain ⟨rfl, rfl⟩ := Prod.mk.inj (Except.ok.inj hok)
    exact ⟨⟨last, blocks, Passes.decodeDeflate .start hhistory, rfl, rfl⟩, rfl, rfl⟩
  · rw [h] at herror
    cases herror

/-- What a pipeline returns, once its coordinator has gone through the whole stream. -/
theorem InOrder.decodes {cursor : Cursor crc} {submitted done queue} {threads : Nat}
    (inOrder : InOrder data (stream.startByte * 8) stream.member stream.decodedBase cursor submitted
      done queue)
    (hdone : (coordinator data stream.startByte threads).op cursor = .done (.ok (output, report))) :
    Decodes crc data stream output report := by
  cases hphase : cursor.phase with
  | head =>
    simp only [coordinator, hphase] at hdone
    split at hdone
    case isFalse => cases hdone
    case isTrue hfinal =>
    split at hdone
    case isTrue => cases hdone
    case isFalse hdrained =>
      have hchain := inOrder.chain
      have hqueue : queue = [] :=
        List.length_eq_zero_iff.mp (inOrder.outstanding ▸ not_not.mp hdrained)
      rw [hphase, hqueue, hfinal] at hchain
      simp only [Phase.tasks, List.append_nil, List.map_nil] at hchain
      obtain ⟨last, hcommitted, hend⟩ := hchain.committed inOrder.committed
      obtain ⟨blocks, hpasses, hblocks⟩ := hcommitted.passes
      obtain ⟨rfl, rfl⟩ := Prod.mk.inj (Except.ok.inj (Op.done.inj hdone))
      refine ⟨⟨last, blocks, hpasses, hblocks, ?_⟩, hcommitted.decoded, ?_⟩
      · simp only [Cursor.report, hend, segmentEnd, if_true, Bits.alignByte]
        omega
      · simp only [Cursor.report, hcommitted.hashed, Crc32.hash]
  | rejected | accepted | full | failed => simp [coordinator, hphase] at hdone
  | draining =>
    simp only [coordinator, hphase] at hdone
    split at hdone <;> cases hdone

/-- With any number of threads, under any schedule, what a stream returns is what one thread decodes
block by block. -/
theorem Standing.decodes {progress : List DecodeProgress}
    (bounds : streamData input stream = .ok data)
    (standing : Standing setting input stream (.done progress (.ok (output, report)))) :
    Decodes crc data stream output report := by
  generalize hstate : StreamState.done progress (.ok (output, report)) = state at standing
  cases standing with
  | opened | parallel | refused => simp at hstate
  | serial bounds' =>
    obtain rfl := Except.ok.inj (bounds.symm.trans bounds')
    simp only [StreamState.done.injEq] at hstate
    exact serialStream_decodes hstate.2.symm
  | joined bounds' first run result =>
    obtain rfl := Except.ok.inj (bounds.symm.trans bounds')
    simp only [StreamState.done.injEq] at hstate
    rw [← hstate.2] at result
    obtain ⟨⟨submitted, done, queue, inOrder⟩, hdone⟩ := program_inOrder first run
    exact inOrder.decodes (hdone _ result)

end Streams

/-- What `decompress_to_sink_with_options_and_progress` does with a member behind its stream. -/
def closeMember (data : List UInt8) (position : Nat) (d : Unpacked) (header : Header)
    (output : List UInt8) (decoded : DeflateReport) : Result (Unpacked × Nat) := do
  let trailer := (decoded.compressedEndBit + 7) / 8
  let trailerEnd := trailer + 8
  let trailerBytes ← okOr (invalidAt trailer "truncated member trailer")
    (range? data trailer trailerEnd)
  let expectedCrc := leNat (slice trailerBytes 0 4)
  let expectedSize := leNat (slice trailerBytes 4 8)
  ensure (decoded.crc = expectedCrc)
    (invalidAt trailer
      s!"CRC32 mismatch: expected {hex 8 expectedCrc}, decoded {hex 8 decoded.crc}")
  ensure (decoded.decodedLen % 2 ^ 32 = expectedSize)
    (invalidAt (trailer + 4)
      s!"ISIZE mismatch: expected {expectedSize}, decoded {decoded.decodedLen % 2 ^ 32}")
  ensure (d.decodedTotal + decoded.decodedLen < 2 ^ 64) (invalid "decoded offset overflow")
  return (d.closed position trailerEnd expectedCrc header output decoded, trailerEnd)

/-- Header and number of a member, before its stream. -/
def openMember (crc : Crc32) (data : List UInt8) (position : Nat) (d : Unpacked) : Result Header := do
  let header ← parseHeader crc data position
  ensure (d.members.length < 2 ^ 32) (invalid "too many gzip members")
  return header

/-- The stream of the next member. -/
def Unpacked.stream (d : Unpacked) (data : List UInt8) (header : Header) : DeflateStream where
  startByte := header.deflateStart
  endByte := data.length
  member := d.members.length
  decodedBase := d.decodedTotal

private theorem decodeMember_eq (data : List UInt8) (position : Nat) (d : Unpacked) :
    decodeMember crc data position d = (do
      let header ← openMember crc data position d
      let (output, decoded) ← decompressDeflateSerialStream crc data header.deflateStart
        d.members.length d.decodedTotal
      closeMember data position d header output decoded) := by
  simp only [decodeMember, openMember, bind_assoc, pure_bind]
  rfl

/-- Where the decoder stands: about to check its options, at the head of its loop, in the stream of
a member, or returned. -/
inductive Stage (crc : Crc32)
  | opened
  | members (position : Nat) (d : Unpacked)
  | stream (position : Nat) (d : Unpacked) (header : Header) (inner : StreamState crc)
  | returned (result : Result (List UInt8 × Report))

/-- The decoder, with what the callback had been given before the stream at hand. -/
structure Decoder (crc : Crc32) where
  stage : Stage crc
  progress : List DecodeProgress

namespace Decoder

def start : Decoder crc := ⟨.opened, []⟩

/-- What has been counted at each call of the callback. -/
def counted (g : Decoder crc) : List DecodeProgress :=
  match g.stage with
  | .stream _ _ _ inner => g.progress ++ inner.progress
  | _ => g.progress

/-- Everything the callback has been given. -/
def reported (g : Decoder crc) : List DecodeProgress := g.counted.map DecodeProgress.wrapped

/-- The end of the loop. -/
def finish (data : List UInt8) (d : Unpacked) (progress : List DecodeProgress) : Decoder crc :=
  if d.members = [] then ⟨.returned (.error (invalid "input contains no gzip members")), progress⟩
  else ⟨.returned (.ok (d.output, d.report data)), progress ++ [⟨data.length, d.decodedTotal⟩]⟩

/-- The head of the loop. -/
def turn (data : List UInt8) (position : Nat) (d : Unpacked) (progress : List DecodeProgress) :
    Decoder crc :=
  if position < data.length then
    if d.members ≠ [] ∧ (data.drop position).all (· = 0) then finish data d progress
    else
      match openMember crc data position d with
      | .error error => ⟨.returned (.error error), progress⟩
      | .ok header => ⟨.stream position d header .opened, progress⟩
  else finish data d progress

/-- The end of a member. -/
def close (data : List UInt8) (position : Nat) (d : Unpacked) (header : Header) (outcome : Outcome)
    (progress : List DecodeProgress) : Decoder crc :=
  match outcome with
  | .error error => ⟨.returned (.error error), progress⟩
  | .ok (output, decoded) =>
    match closeMember data position d header output decoded with
    | .error error => ⟨.returned (.error error), progress⟩
    | .ok (d, next) => ⟨.members next d, progress ++ [⟨next, d.decodedTotal⟩]⟩

/-- What the decoder does outside of streams. -/
def next (options : DecodeOptions) (data : List UInt8) (g : Decoder crc) : Option (Decoder crc) :=
  match g.stage with
  | .opened =>
    match options.validate with
    | .error error => some ⟨.returned (.error error), g.progress⟩
    | .ok _ => some ⟨.members 0 {}, g.progress⟩
  | .members position d => some (turn data position d g.progress)
  | .stream position d header (.done progress outcome) =>
    some (close data position d header outcome (g.progress ++ progress))
  | .stream _ _ _ _ => none
  | .returned _ => none

end Decoder

/-- The steps of the decoder; those of a stream interleave freely among themselves. -/
inductive DecodeStep (setting : Setting crc) (data : List UInt8) : Decoder crc → Decoder crc → Prop
  | own {g g' : Decoder crc} (next : g.next setting.options data = some g') :
      DecodeStep setting data g g'
  | stream {position : Nat} {d : Unpacked} {header : Header} {inner inner' : StreamState crc}
      {progress : List DecodeProgress}
      (step : StreamStep setting data (d.stream data header) inner inner') :
      DecodeStep setting data ⟨.stream position d header inner, progress⟩
        ⟨.stream position d header inner', progress⟩

section Alone

variable {setting : Setting crc} {data : List UInt8} {position : Nat} {d : Unpacked}

theorem streamData_member {header : Header} (parsed : parseHeader crc data position = .ok header)
    (d : Unpacked) : streamData data (d.stream data header) = .ok data := by
  have hnext := (parseHeader_next parsed).2
  have hrange : range? data 0 (d.stream data header).endByte = some data :=
    range?_eq_some.mpr ⟨Nat.zero_le _, Nat.le_refl _, by simp [slice, Unpacked.stream]⟩
  have hstart : (d.stream data header).startByte ≤ (d.stream data header).endByte := hnext
  rw [streamData, hrange, okOr, result_bind_ok, ensure_of hstart]
  rfl

private theorem Setting.threads_alone (alone : setting.options.threads = 1)
    (stream : DeflateStream) : setting.threads stream = 1 := by
  simp [Setting.threads, DecodeOptions.resolvedThreads, alone]

theorem openMember_eq_ok {header : Header} (h : openMember crc data position d = .ok header) :
    parseHeader crc data position = .ok header := by
  obtain ⟨parsed, hparse, h⟩ := result_bind_eq_ok.mp h
  obtain ⟨_, -, h⟩ := result_bind_eq_ok.mp h
  obtain rfl := Except.ok.inj h
  exact hparse

private theorem Turn.reaches {before after : Nat × Unpacked} (alone : setting.options.threads = 1)
    (turn : Turn crc data before after) (progress : List DecodeProgress) :
    ∃ progress', Reaches (DecodeStep setting data) ⟨.members before.1 before.2, progress⟩
      ⟨.members after.1 after.2, progress'⟩ := by
  obtain ⟨position, d⟩ := before
  have hstops := turn.not_stops
  rw [Stops, not_or] at hstops
  unfold Turn at turn
  rw [decodeMember_eq] at turn
  dsimp only at turn hstops ⊢
  obtain ⟨header, hopen, turn⟩ := result_bind_eq_ok.mp turn
  obtain ⟨⟨output, decoded⟩, hdecode, hclose⟩ := result_bind_eq_ok.mp turn
  have henter : DecodeStep setting data ⟨.members position d, progress⟩
      ⟨.stream position d header .opened, progress⟩ := by
    apply DecodeStep.own
    simp only [Decoder.next, Decoder.turn, if_pos (Nat.not_le.mp hstops.1), if_neg hstops.2, hopen]
  have hstream : DecodeStep setting data ⟨.stream position d header .opened, progress⟩ _ :=
    .stream (.serial (streamData_member (openMember_eq_ok hopen) d)
      (Setting.threads_alone alone _))
  simp only [Unpacked.stream, hdecode] at hstream
  have hleave : (⟨.stream position d header (.done (serialProgress crc data header.deflateStart
      d.members.length d.decodedTotal) (.ok (output, decoded))), progress⟩ : Decoder crc).next
      setting.options data = some ⟨.members after.1 after.2, progress ++ serialProgress crc data
        header.deflateStart d.members.length d.decodedTotal ++ [⟨after.1, after.2.decodedTotal⟩]⟩ := by
    simp only [Decoder.next, Decoder.close, hclose]
  exact ⟨_, ((Relation.ReflTransGen.single henter).tail hstream).tail (.own hleave)⟩

private theorem turns_reaches {before after : Nat × Unpacked} (alone : setting.options.threads = 1)
    (turns : Relation.ReflTransGen (Turn crc data) before after) (progress : List DecodeProgress) :
    ∃ progress', Reaches (DecodeStep setting data) ⟨.members before.1 before.2, progress⟩
      ⟨.members after.1 after.2, progress'⟩ := by
  induction turns with
  | refl => exact ⟨progress, .refl⟩
  | tail _ turn ih =>
    obtain ⟨middle, hfront⟩ := ih
    obtain ⟨progress', hlast⟩ := turn.reaches alone middle
    exact ⟨progress', hfront.trans hlast⟩

theorem decoder_alone {output : List UInt8} {report : Report} (alone : setting.options.threads = 1)
    (accepted : decompressSerial crc data setting.options = .ok (output, report)) :
    ∃ progress, Reaches (DecodeStep setting data) .start
      ⟨.returned (.ok (output, report)), progress⟩ := by
  obtain ⟨⟨valid, hvalid⟩, stop, d, hturns, hstops, hsome, rfl, rfl⟩ :=
    decompressSerial_eq_ok.mp accepted
  obtain ⟨progress, hmembers⟩ := turns_reaches alone hturns []
  have hopen : DecodeStep setting data .start ⟨.members 0 {}, []⟩ := by
    apply DecodeStep.own
    simp only [Decoder.next, Decoder.start, hvalid]
  refine ⟨progress ++ [⟨data.length, d.decodedTotal⟩], (hmembers.head hopen).tail (.own ?_)⟩
  simp only [Decoder.next, Decoder.turn, Decoder.finish, if_neg hsome, Option.some.injEq]
  split
  case isFalse => rfl
  case isTrue hlt => rw [if_pos (hstops.resolve_left (Nat.not_le.mpr hlt))]

end Alone

end Fbz.Deflate
