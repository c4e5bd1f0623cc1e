import Fbz.Deflate.Decoder
import Fbz.Lib.Tiling

/-!
# The layout a gzip report gives

Members tile the input and its output, and the blocks of a member tile its stream and its part of
the output, however the stream was decoded.
-/

namespace Fbz.Deflate

open DeflateOutput Pipeline Transition Tiling

variable {crc : Crc32}

/-- The blocks follow each other in bits and in decoded bytes. -/
def BlocksTile : Nat × Nat → List Block → Nat × Nat → Prop :=
  Tiled (fun block => (block.compressedStartBit, block.decodedStart))
    fun block => (block.compressedEndBit, block.decodedStart + block.decodedLen)

/-- The last block, and no other, is final. -/
def LastFinal (blocks : List Block) : Prop :=
  ∃ front last, blocks = front ++ [last] ∧ last.finalBlock = true ∧
    ∀ block ∈ front, block.finalBlock = false

section Blocks

variable {data : List UInt8} {startBit bit : Nat} {bytes : List UInt8} {blocks : List Block}
  {fin : Bool}

private theorem decodeBlock_block {member next : Nat} {h h' : History} {block : Block}
    (hblock : decodeBlock data member bit h = .ok (h', block, next)) :
    block.compressedStartBit = bit ∧ block.compressedEndBit = next ∧
      block.decodedStart = h.bytes.length ∧
      block.decodedStart + block.decodedLen = h'.bytes.length := by
  obtain ⟨hend, hlen⟩ := decodeBlock_record hblock
  have hgrows := decodeBlock_grows hblock
  simp only [decodeBlock, result_bind_eq_ok] at hblock
  obtain ⟨_, -, _, -, ⟨_, _, _⟩, -, heq⟩ := hblock
  simp only [pure, Except.pure, Except.ok.injEq, Prod.mk.injEq] at heq
  obtain ⟨-, rfl, -⟩ := heq
  change _ = h'.bytes.length - h.bytes.length at hlen
  refine ⟨rfl, hend, rfl, ?_⟩
  change h.bytes.length + _ = _
  omega

private theorem Passes.tile (passes : Passes data startBit bit bytes blocks fin) :
    BlocksTile (startBit, 0) blocks (bit, bytes.length) := by
  induction passes with
  | start => rfl
  | @block bit next bytes bytes' blocks block front decoded ih =>
    obtain ⟨hstart, hend, hoffset, hlen⟩ := decodeBlock_block decoded
    have hsnoc : BlocksTile (startBit, 0) (blocks ++ [block])
        (block.compressedEndBit, block.decodedStart + block.decodedLen) := by
      apply Tiled.snoc
      rw [hstart, hoffset]
      exact ih
    rw [hend, hlen] at hsnoc
    exact hsnoc

private theorem Passes.final (passes : Passes data startBit bit bytes blocks fin) :
    if fin then LastFinal blocks else ∀ block ∈ blocks, block.finalBlock = false := by
  induction passes with
  | start => simp
  | @block bit next bytes bytes' blocks block front decoded ih =>
    simp only [Bool.false_eq_true, if_false] at ih
    split
    case isTrue hfinal => exact ⟨blocks, block, rfl, hfinal, ih⟩
    case isFalse hmore =>
      intro other hmem
      rcases List.mem_append.mp hmem with hfront | hlast
      · exact ih other hfront
      · rw [List.mem_singleton.mp hlast]
        exact Bool.eq_false_iff.mpr hmore

private theorem BlocksTile.relocate {start stop : Nat × Nat} (tile : BlocksTile start blocks stop)
    (member base : Nat) :
    BlocksTile (start.1, start.2 + base) (blocks.map (Block.relocate member (· + base)))
      (stop.1, stop.2 + base) := by
  apply Tiled.map tile (g := fun p : Nat × Nat => (p.1, p.2 + base))
  · intro block _
    rfl
  · intro block _
    simp only [Block.relocate, Nat.add_right_comm]

private theorem LastFinal.relocate (last : LastFinal blocks) (member base : Nat) :
    LastFinal (blocks.map (Block.relocate member (· + base))) := by
  obtain ⟨front, last, rfl, hfinal, hmore⟩ := last
  refine ⟨front.map (Block.relocate member (· + base)), last.relocate member (· + base), ?_,
    hfinal, ?_⟩
  · rw [List.map_append, List.map_singleton]
  · intro block hmem
    obtain ⟨other, hother, rfl⟩ := List.mem_map.mp hmem
    exact hmore other hother

end Blocks

/-- The blocks of a member: they carry its number and tile its stream and its part of the output,
the last one alone is final, and the trailer of eight bytes follows. -/
structure Member.Laid (member : Member) (number : Nat) (blocks : List Block) : Prop where
  numbered : ∀ block ∈ blocks, block.member = number
  tile : ∃ endBit, BlocksTile (8 * member.deflateStart, member.decodedStart) blocks
      (endBit, member.decodedStart + member.decodedLen) ∧
    member.compressedEnd = (endBit + 7) / 8 + 8
  final : LastFinal blocks

/-- Members that follow each other, in the input and in the output. -/
def MembersTile : Nat × Nat → List Member → Nat × Nat → Prop :=
  Tiled (fun member => (member.compressedStart, member.decodedStart))
    fun member => (member.compressedEnd, member.decodedStart + member.decodedLen)

/-- The members each with its own blocks, in the same order. -/
structure Laid (members : List Member) (blocks : List Block) (stop total : Nat) : Prop where
  membersTile : MembersTile (0, 0) members (stop, total)
  pieces : ∃ pieces : List (List Block), blocks = pieces.flatten ∧ pieces.length = members.length ∧
    ∀ (number : Nat) (member : Member) (piece : List Block), members[number]? = some member →
      pieces[number]? = some piece → member.Laid number piece

private theorem laid_nil : Laid [] [] 0 0 where
  membersTile := rfl
  pieces := ⟨[], rfl, rfl, by simp⟩

private theorem Laid.snoc {members : List Member} {blocks piece : List Block} {member : Member}
    {stop total : Nat} (laid : Laid members blocks stop total)
    (hstart : (member.compressedStart, member.decodedStart) = (stop, total))
    (hmember : member.Laid members.length piece) :
    Laid (members ++ [member]) (blocks ++ piece) member.compressedEnd
      (member.decodedStart + member.decodedLen) where
  membersTile := by
    apply Tiled.snoc
    rw [hstart]
    exact laid.membersTile
  pieces := by
    obtain ⟨pieces, hblocks, hlen, hpieces⟩ := laid.pieces
    refine ⟨pieces ++ [piece], ?_, ?_, ?_⟩
    · rw [hblocks, List.flatten_append, List.flatten_singleton]
    · rw [List.length_append, List.length_append, hlen]
      rfl
    · intro number member' piece' hnumber hnumber'
      rcases Nat.lt_or_ge number members.length with hlt | hge
      · rw [List.getElem?_append_left hlt] at hnumber
        rw [List.getElem?_append_left (by omega)] at hnumber'
        exact hpieces number member' piece' hnumber hnumber'
      · have hlast := (List.getElem?_eq_some_iff.mp hnumber).1
        rw [List.length_append, List.length_singleton] at hlast
        obtain rfl : number = members.length := by omega
        rw [List.getElem?_concat_length] at hnumber
        rw [← hlen, List.getElem?_concat_length] at hnumber'
        obtain rfl := Option.some.inj hnumber
        obtain rfl := Option.some.inj hnumber'
        exact hmember

/-- What the members so far have delivered is laid out, up to the position of the decoder. -/
structure Unpacked.Laid (data : List UInt8) (position : Nat) (d : Unpacked) : Prop where
  laid : Deflate.Laid d.members d.blocks position d.decodedTotal
  total : d.decodedTotal = d.output.length
  inside : position ≤ data.length

/-- What a report says of the input and the output. -/
structure Report.Exact (report : Report) (data output : List UInt8) : Prop where
  sourceLen : report.sourceLen = data.length
  decodedLen : report.decodedLen = output.length
  laid : ∃ stop, Laid report.members report.blocks stop report.decodedLen ∧ stop ≤ data.length ∧
    (data.drop stop).all (· = 0)
  some_member : report.members ≠ []

/-- What every run of the decoder keeps. -/
inductive Decoder.Sound (setting : Setting crc) (data : List UInt8) : Decoder crc → Prop
  | opened : Sound setting data .start
  | members {position : Nat} {d : Unpacked} {progress : List DecodeProgress}
      (laid : d.Laid data position) : Sound setting data ⟨.members position d, progress⟩
  | stream {position : Nat} {d : Unpacked} {header : Header} {inner : StreamState crc}
      {progress : List DecodeProgress} (laid : d.Laid data position)
      (parsed : parseHeader crc data position = .ok header)
      (standing : Standing setting data (d.stream data header) inner) :
      Sound setting data ⟨.stream position d header inner, progress⟩
  | failed {error : Error} {progress : List DecodeProgress} :
      Sound setting data ⟨.returned (.error error), progress⟩
  | returned {output : List UInt8} {report : Report} {progress : List DecodeProgress}
      (exact : report.Exact data output) :
      Sound setting data ⟨.returned (.ok (output, report)), progress⟩

section Runs

variable {setting : Setting crc} {data output : List UInt8} {position next : Nat} {d e : Unpacked}
  {header : Header} {decoded : DeflateReport}

theorem closeMember_eq_ok (h : closeMember data position d header output decoded = .ok (e, next)) :
    next = (decoded.compressedEndBit + 7) / 8 + 8 ∧ next ≤ data.length ∧
      ∃ expectedCrc, e = d.closed position next expectedCrc header output decoded := by
  simp only [closeMember, result_bind_eq_ok, okOr_eq_ok] at h
  obtain ⟨bytes, hbytes, _, -, _, -, _, -, heq⟩ := h
  obtain ⟨rfl, rfl⟩ := Prod.mk.inj (Except.ok.inj heq)
  exact ⟨rfl, (range?_eq_some.mp hbytes).2.1, _, rfl⟩

private theorem Unpacked.Laid.closed (laid : d.Laid data position)
    (decodes : Decodes crc data (d.stream data header) output decoded)
    (h : closeMember data position d header output decoded = .ok (e, next)) : e.Laid data next := by
  obtain ⟨hnext, hinside, expectedCrc, rfl⟩ := closeMember_eq_ok h
  obtain ⟨⟨last, blocks, hpasses, hblocks, hend⟩, hlen, -⟩ := decodes
  have hmember : Member.Laid
      { compressedStart := position, deflateStart := header.deflateStart, compressedEnd := next
        decodedStart := d.decodedTotal, decodedLen := decoded.decodedLen, expectedCrc
        mtime := header.mtime, extraFlags := header.extraFlags
        operatingSystem := header.operatingSystem, name := header.name
        comment := header.comment } d.members.length decoded.blocks := by
    refine ⟨?_, ⟨last, ?_, ?_⟩, ?_⟩
    · intro block hmem
      rw [hblocks] at hmem
      obtain ⟨other, -, rfl⟩ := List.mem_map.mp hmem
      rfl
    · have htile := hpasses.tile.relocate d.members.length d.decodedTotal
      rw [hblocks, hlen]
      simpa only [Unpacked.stream, Nat.mul_comm, Nat.add_zero, Nat.add_comm] using htile
    · rw [hnext, hend]
    · rw [hblocks]
      exact LastFinal.relocate hpasses.final _ _
  refine ⟨laid.laid.snoc rfl hmember, ?_, hinside⟩
  simp only [Unpacked.closed, List.length_append, laid.total, hlen]

private theorem Decoder.Sound.finish (laid : d.Laid data position) (progress : List DecodeProgress)
    (stops : data.length ≤ position ∨ (data.drop position).all (· = 0)) :
    Decoder.Sound setting data (Decoder.finish data d progress) := by
  unfold Decoder.finish
  split
  case isTrue => exact .failed
  case isFalse hsome =>
    refine .returned ⟨rfl, laid.total, ⟨position, laid.laid, laid.inside, ?_⟩, hsome⟩
    rcases stops with hend | hzero
    · rw [List.drop_eq_nil_of_le hend]
      rfl
    · exact hzero

private theorem Decoder.Sound.step {g g' : Decoder crc} (sound : Decoder.Sound setting data g)
    (step : DecodeStep setting data g g') : Decoder.Sound setting data g' := by
  cases step with
  | stream step =>
    cases sound with
    | stream laid parsed standing => exact .stream laid parsed (standing.step step)
  | own next =>
    cases sound with
    | failed | returned => cases next
    | opened =>
      simp only [Decoder.next, Decoder.start] at next
      split at next <;> obtain rfl := Option.some.inj next
      · exact .failed
      · exact .members ⟨laid_nil, rfl, Nat.zero_le _⟩
    | @members position d progress laid =>
      obtain rfl := Option.some.inj next
      unfold Decoder.turn
      split
      case isFalse hend => exact .finish laid progress (.inl (Nat.not_lt.mp hend))
      case isTrue =>
      split
      case isTrue hpadding => exact .finish laid progress (.inr hpadding.2)
      case isFalse =>
      split
      case h_1 => exact .failed
      case h_2 header hopen =>
        exact .stream laid (openMember_eq_ok hopen) .opened
    | @stream position d header inner progress laid parsed standing =>
      cases inner with
      | opened | parallel => cases next
      | done inner outcome =>
        obtain rfl := Option.some.inj next
        unfold Decoder.close
        split
        case h_1 => exact .failed
        case h_2 output decoded =>
        split
        case h_1 => exact .failed
        case h_2 d' after hclose =>
          have hdecodes := standing.decodes (streamData_member parsed d)
          exact .members (laid.closed hdecodes hclose)

/-- With any number of threads and under any schedule, the report of an accepted input is an exact
layout of the input and of its output. -/
theorem decoder_exact {report : Report} {progress : List DecodeProgress}
    (run : Reaches (DecodeStep setting data) .start ⟨.returned (.ok (output, report)), progress⟩) :
    report.Exact data output := by
  have hsound : Decoder.Sound setting data ⟨.returned (.ok (output, report)), progress⟩ :=
    run.invariant .opened fun _ _ sound step => sound.step step
  cases hsound with
  | returned exact => exact exact

end Runs

end Fbz.Deflate
