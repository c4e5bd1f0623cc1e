import Fbz.Deflate.EncodedSize
import Fbz.Deflate.Expand
import Fbz.Deflate.HeaderRoundTrip
import Fbz.Pipeline.Coverage

/-!
# Segments are decoded to what they were made from

Whichever way a segment is written, the blocks of it take the decoder from the bytes before it to
those behind it. Segments that continue each other, with the final block behind them, are a stream
of the bytes they were made from.
-/

namespace Fbz.Deflate

open BitOrder Pipeline Relation

variable {crc : Crc32} {data before : List UInt8} {bit : Nat} {rest : List Bool}

private theorem spells_tokenize (buffer : List UInt8) (prefixLen level : Nat) :
    Spells buffer prefixLen (tokenize buffer prefixLen level) := by
  apply tokenizeFrom_spells (insertRange_before (HashChain.before_new _ _))
  rw [insertRange_window]
  rfl

private theorem shorter_cases {P : List UInt8 → Prop} {first second : List UInt8} (hfirst : P first)
    (hsecond : P second) : P (shorter first second) := by
  rw [shorter]
  split
  · exact hfirst
  · exact hsecond

/-- Wherever these bytes stand, they are blocks that take the decoder from one history to the
other; none of them is the final one. -/
def Blocks (encoded before after : List UInt8) : Prop :=
  ∀ (data : List UInt8) (bit : Nat) (rest : List Bool), bit % 8 = 0 →
    Rests data bit (bitString encoded ++ rest) →
      ∃ next, ReflTransGen (Crosses data) (bit, ⟨before⟩) (next, ⟨after⟩) ∧ Rests data next rest

private theorem Rests.aligned {bytes : List UInt8} {next : Nat} (aligned : bit % 8 = 0)
    (h : Rests data bit (bitString bytes ++ rest)) (hnext : Rests data next rest) :
    next % 8 = 0 := by
  rw [← h.skip.unique hnext, bitString_length]
  omega

private theorem Blocks.nil (before : List UInt8) : Blocks [] before before := by
  intro data bit rest _ h
  exact ⟨bit, .refl, h⟩

private theorem Blocks.append {first second middle after : List UInt8}
    (h : Blocks first before middle)
    (h' : Blocks second middle after) : Blocks (first ++ second) before after := by
  intro data bit rest aligned hrests
  rw [bitString_append, List.append_assoc] at hrests
  obtain ⟨next, hfirst, hnext⟩ := h data bit _ aligned hrests
  obtain ⟨last, hsecond, hlast⟩ := h' data next rest (hrests.aligned aligned hnext) hnext
  exact ⟨last, hfirst.trans hsecond, hlast⟩

private theorem blocks_encodeSegment (buffer : List UInt8) (prefixLen level : Nat) :
    Blocks (encodeSegment crc buffer prefixLen level).encoded (before ++ buffer.take prefixLen)
      (before ++ buffer) := by
  have hspells := spells_tokenize buffer prefixLen level
  obtain ⟨hexpand, hlegal⟩ := @expand_behind before _ _ hspells.legal
  rw [hspells.expand] at hexpand
  have hsegment : encodeSegment? crc buffer prefixLen level =
      some (encodeSegment crc buffer prefixLen level) := (Option.some_get _).symm
  obtain ⟨dynamic, hdynamic, heq⟩ := Option.bind_eq_some_iff.mp hsegment
  rw [← Option.some.inj heq]
  have hdynamic : Blocks dynamic (before ++ buffer.take prefixLen) (before ++ buffer) := by
    intro data bit rest aligned h
    rw [← hexpand]
    exact crosses_encodeDynamic hdynamic hlegal aligned h
  have hfixed : Blocks (encodeFixed (tokenize buffer prefixLen level))
      (before ++ buffer.take prefixLen) (before ++ buffer) := by
    intro data bit rest aligned h
    rw [← hexpand]
    exact crosses_encodeFixed hlegal aligned h
  have hstored : Blocks (encodeStored (buffer.drop prefixLen)) (before ++ buffer.take prefixLen)
      (before ++ buffer) := by
    intro data bit rest aligned h
    have hstored := @crosses_encodeStored _ (before ++ buffer.take prefixLen) _ _ _ aligned h
    rwa [List.append_assoc, List.take_append_drop] at hstored
  have hcoded := @shorter_cases (Blocks · _ _) _ _ hdynamic hfixed
  exact @shorter_cases (Blocks · _ _) _ _ hcoded hstored

/-- The encoded bytes of these parts. -/
def encodedParts (crc : Crc32) (level : Nat) (parts : List (List UInt8 × Nat)) : List UInt8 :=
  parts.flatMap fun part => (encodeSegment crc part.1 part.2 level).encoded

private theorem blocks_encodedParts {level : Nat} {parts : List (List UInt8 × Nat)}
    {after : List UInt8} (continues : Continues before parts after) :
    Blocks (encodedParts crc level parts) before after := by
  induction continues with
  | done before => exact .nil before
  | @part before front chunk after parts behind _ ih =>
    obtain ⟨older, rfl⟩ := behind
    have hfirst := @blocks_encodeSegment crc older (front ++ chunk) front.length level
    rw [List.take_left, ← List.append_assoc] at hfirst
    exact hfirst.append ih

private theorem finalBlock_eq : finalBlock = [1, 0, 0, 0xff, 0xff] := by
  rw [finalBlock, BitWriter.writeBits, BitWriter.spill, if_neg (by decide)]
  rfl

private theorem decodeDeflate_crosses {start stop : Nat × History}
    (h : ReflTransGen (Crosses data) start stop) (blocks : List Block) :
    ∃ more, decodeDeflate data 0 start.1 blocks start.2 =
      decodeDeflate data 0 stop.1 (blocks ++ more) stop.2 := by
  induction h using ReflTransGen.head_induction_on generalizing blocks with
  | refl => exact ⟨[], by rw [List.append_nil]⟩
  | @head start middle hcrosses _ ih =>
    obtain ⟨block, hblock, hfinal⟩ := hcrosses
    obtain ⟨more, hmore⟩ := ih (blocks ++ [block])
    refine ⟨block :: more, ?_⟩
    rw [decodeDeflate_eq, hblock]
    simp only [hfinal, Bool.false_eq_true, if_false]
    rw [hmore, List.append_assoc]
    rfl

private theorem decodeDeflate_finalBlock (blocks : List Block) (aligned : bit % 8 = 0)
    (h : Rests data bit (bitString finalBlock ++ rest)) :
    ∃ last, decodeDeflate data 0 bit blocks (⟨before⟩ : History) =
      .ok (⟨before⟩, blocks ++ [last], bit + 8 * finalBlock.length) := by
  have hbits : bitString finalBlock = lowBits 1 1 ++ (lowBits 2 0 ++ (List.replicate 5 false ++
      (lowBits 16 0 ++ lowBits 16 65535))) := by
    rw [finalBlock_eq]
    decide +kernel
  rw [hbits] at h
  simp only [List.append_assoc] at h
  have hfinal := h.read (show 1 < 2 ^ 1 by decide) (by decide)
  have hkind := h.after_read.read (show 0 < 2 ^ 2 by decide) (by decide)
  have hpadded := h.after_read.after_read.skip
  have halign : Bits.alignByte (bit + 1 + 2) = bit + 1 + 2 + (List.replicate 5 false).length := by
    rw [Bits.alignByte, List.length_replicate]
    omega
  rw [← halign] at hpadded
  have hlength := hpadded.read (show 0 < 2 ^ 16 by decide) (by decide)
  have hcomplement := hpadded.after_read.read (show 65535 < 2 ^ 16 by decide) (by decide)
  have hend : Bits.alignByte (bit + 1 + 2) + 16 + 16 = 8 * (bit / 8 + 5) := by
    rw [halign, List.length_replicate]
    omega
  have hnone := @Rests.readAlignedBytes data rest [] (bit / 8 + 5)
    (by rw [← hend]; exact hpadded.after_read.after_read)
  have hlast : 8 * (bit / 8 + 5) + 8 * ([] : List UInt8).length = bit + 8 * finalBlock.length := by
    rw [finalBlock_length, List.length_nil]
    omega
  rw [hlast] at hnone
  have hstored : decodeStored data (bit + 1 + 2) (⟨before⟩ : History) =
      .ok (⟨before ++ []⟩, bit + 8 * finalBlock.length) := by
    rw [decodeStored, hlength, result_bind_ok]
    dsimp only
    rw [hcomplement, result_bind_ok]
    dsimp only
    rw [ensure_of (by decide), result_bind_ok, hend]
    exact (congrArg (· >>= _) hnone).trans rfl
  rw [List.append_nil] at hstored
  have hblock : ∃ last, decodeBlock data 0 bit (⟨before⟩ : History) =
      .ok (⟨before⟩, last, bit + 8 * finalBlock.length) ∧ last.finalBlock = true := by
    rw [decodeBlock, hfinal, result_bind_ok]
    dsimp only
    rw [hkind, result_bind_ok]
    dsimp only
    rw [decodeBody, if_pos rfl, hstored]
    exact ⟨_, rfl, rfl⟩
  obtain ⟨last, hblock, hfinal⟩ := hblock
  refine ⟨last, ?_⟩
  rw [decodeDeflate_eq, hblock]
  simp only [hfinal, if_true]

/-- Segments that continue each other and the final block are a stream of what they were made
from. -/
theorem decodeDeflate_encodedParts {level : Nat} {parts : List (List UInt8 × Nat)}
    {after : List UInt8} (continues : Continues [] parts after) (aligned : bit % 8 = 0)
    (h : Rests data bit
      (bitString (encodedParts crc level parts ++ finalBlock) ++ rest)) :
    ∃ blocks, decodeDeflate data 0 bit [] ({} : History) =
      .ok (⟨after⟩, blocks, bit + 8 * (encodedParts crc level parts ++ finalBlock).length) := by
  rw [bitString_append, List.append_assoc] at h
  obtain ⟨next, hcrosses, hnext⟩ := blocks_encodedParts continues data bit _ aligned h
  obtain ⟨more, hmore⟩ := decodeDeflate_crosses hcrosses []
  obtain ⟨last, hlast⟩ := decodeDeflate_finalBlock ([] ++ more) (h.aligned aligned hnext) hnext
  have hplace := h.skip.unique hnext
  rw [bitString_length] at hplace
  refine ⟨[] ++ more ++ [last], ?_⟩
  rw [List.length_append, Nat.mul_add, ← Nat.add_assoc, hplace]
  exact hmore.trans hlast

end Fbz.Deflate
