import Fbz.Deflate.Chain
import Fbz.Deflate.Gzip
import Fbz.Deflate.HuffmanCodes
import Fbz.Embedded

/-!
# Gzip members inside a longer input

A member is decoded from its own bytes. The tables peek past the end of a code, but a code that is
accepted ends inside the data and no other code begins like it, so what stands behind it does not
matter.
-/

namespace Fbz.Deflate

open BitOrder CanonicalCode

variable {front data back : List UInt8} {bit next : Nat}

private theorem streamBit_embed (lt : bit < data.length * 8) :
    streamBit (front ++ data ++ back) (8 * front.length + bit) = streamBit data bit := by
  rw [streamBit, streamBit, show (8 * front.length + bit) / 8 = front.length + bit / 8 by omega,
    show (8 * front.length + bit) % 8 = bit % 8 by omega, getD_embed (by omega)]

namespace Bits

private theorem alignByte_embed (offset bit : Nat) :
    alignByte (8 * offset + bit) = 8 * offset + alignByte bit := by
  unfold alignByte
  omega

private theorem read_embed {count value : Nat} (few : count ≤ 56)
    (h : read data bit count = .ok (value, next)) :
    read (front ++ data ++ back) (8 * front.length + bit) count =
      .ok (value, 8 * front.length + next) := by
  unfold read at h ⊢
  split at h
  case isTrue hzero =>
    obtain ⟨rfl, rfl⟩ := Prod.mk.inj (Except.ok.inj h)
    rw [if_pos hzero]
  case isFalse hne =>
    obtain ⟨peeked, hpeek, heq⟩ := result_bind_eq_ok.mp h
    obtain ⟨rfl, rfl⟩ := Prod.mk.inj (Except.ok.inj heq)
    have hfits := peek_fits hpeek
    rw [peek_eq few, if_pos hfits] at hpeek
    have hbits : lowFirst (streamBit (front ++ data ++ back)) (8 * front.length + bit) count =
        lowFirst (streamBit data) bit count :=
      lowFirst_congr fun i hi => by
        rw [Nat.add_assoc]
        exact streamBit_embed (by omega)
    rw [if_neg hne, peek_eq few, if_pos (by rw [Nat.add_assoc]; exact bits_embed_le hfits), hbits, hpeek,
      result_bind_ok, Nat.add_assoc]
    rfl

private theorem readAlignedBytes_embed {count : Nat} {bytes : List UInt8}
    (h : readAlignedBytes data bit count = .ok (bytes, next)) :
    readAlignedBytes (front ++ data ++ back) (8 * front.length + bit) count =
      .ok (bytes, 8 * front.length + next) := by
  simp only [readAlignedBytes, result_bind_eq_ok, ensure_eq_ok, okOr_eq_ok] at h ⊢
  obtain ⟨_, haligned, taken, hrange, heq⟩ := h
  obtain ⟨rfl, rfl⟩ := Prod.mk.inj (Except.ok.inj heq)
  have hbyte : (8 * front.length + bit) / 8 = front.length + bit / 8 := by omega
  refine ⟨(), by omega, taken, ?_, ?_⟩
  · rw [hbyte, Nat.add_assoc]
    exact range?_embed hrange
  · rw [hbyte, show (front.length + bit / 8 + count) * 8 =
      8 * front.length + (bit / 8 + count) * 8 by omega]
    rfl

end Bits

namespace Huffman

/-- A table the decoder has made for one of its alphabets. -/
def Canonical (huffman : Huffman) : Prop :=
  ∃ lengths : List Nat, lengths.length ≤ 320 ∧ new lengths = .ok huffman

private theorem isTable_of_decode {huffman : Huffman} {lengths : List Nat} {symbol : Nat}
    (made : new lengths = .ok huffman) (h : huffman.decode data bit = .ok (symbol, next)) :
    huffman.IsTable lengths := by
  refine isTable_new made ?_
  by_contra hunused
  push Not at hunused
  have hzero : lengths.foldl max 0 = 0 :=
    Nat.le_zero.mp (foldl_max_le fun length hmem => Nat.le_of_eq (hunused length hmem))
  obtain ⟨_, -, hmade⟩ := result_bind_eq_ok.mp made
  rw [if_pos hzero] at hmade
  obtain ⟨_, hne, -⟩ := result_bind_eq_ok.mp h
  rw [ensure_eq_ok, ← Except.ok.inj hmade] at hne
  exact hne rfl

theorem decode_reads {huffman : Huffman} {lengths : List Nat} {symbol : Nat}
    (few : lengths.length ≤ 320) (table : huffman.IsTable lengths) :
    huffman.decode data bit = .ok (symbol, next) ↔ Reads lengths data bit symbol next := by
  rw [← table.decodeReader_iff few, decode_eq_decodeReader]
  rcases huffman.decodeReader data bit with ⟨error | found, after⟩ <;> simp

private theorem Canonical.decode_embed {huffman : Huffman} {symbol : Nat}
    (canonical : huffman.Canonical) (h : huffman.decode data bit = .ok (symbol, next)) :
    huffman.decode (front ++ data ++ back) (8 * front.length + bit) =
      .ok (symbol, 8 * front.length + next) := by
  obtain ⟨lengths, hfew, hmade⟩ := canonical
  have htable := isTable_of_decode hmade h
  obtain ⟨length, hlength, rfl, hfits, hcode⟩ := (decode_reads hfew htable).mp h
  refine (decode_reads hfew htable).mpr ⟨length, hlength, (Nat.add_assoc ..).symm,
    bits_embed_le hfits, ?_⟩
  rw [← hcode]
  refine highFirst_congr fun i hi => ?_
  rw [Nat.add_assoc]
  exact streamBit_embed (by omega)

end Huffman

private theorem getD_few {extra : List Nat} (few : ∀ count ∈ extra, count ≤ 56) (index : Nat) :
    extra.getD index 0 ≤ 56 := by
  rw [List.getD_eq_getElem?_getD]
  cases hcount : extra[index]? with
  | none => exact Nat.zero_le _
  | some count => exact few count (List.mem_of_getElem? hcount)

private theorem readMatch_embed {distance : Huffman} {symbol : Nat} {op : Op}
    (canonical : distance.Canonical) (h : readMatch data distance symbol bit = .ok (op, next)) :
    readMatch (front ++ data ++ back) distance symbol (8 * front.length + bit) =
      .ok (op, 8 * front.length + next) := by
  simp only [readMatch, result_bind_eq_ok] at h ⊢
  obtain ⟨⟨extra, bit1⟩, hextra, ⟨distanceSymbol, bit2⟩, hdistance, _, hlt, ⟨extra', bit3⟩, hextra',
    heq⟩ := h
  obtain ⟨rfl, rfl⟩ := Prod.mk.inj (Except.ok.inj heq)
  rw [ensure_eq_ok] at hlt
  exact ⟨_, Bits.read_embed (getD_few (by decide) _) hextra, _, canonical.decode_embed hdistance, (),
    ensure_of hlt, _, Bits.read_embed (getD_few (by decide) _) hextra', rfl⟩

private theorem readInstruction_embed {literal distance : Huffman} {instruction : Option Op}
    (literals : literal.Canonical) (distances : distance.Canonical)
    (h : readInstruction data literal distance bit = .ok (instruction, next)) :
    readInstruction (front ++ data ++ back) literal distance (8 * front.length + bit) =
      .ok (instruction, 8 * front.length + next) := by
  obtain ⟨⟨symbol, after⟩, hsymbol, h⟩ := result_bind_eq_ok.mp h
  refine result_bind_eq_ok.mpr ⟨_, literals.decode_embed hsymbol, ?_⟩
  dsimp only at h ⊢
  split at h
  case isTrue hliteral =>
    obtain ⟨rfl, rfl⟩ := Prod.mk.inj (Except.ok.inj h)
    exact if_pos hliteral
  case isFalse hliteral =>
  rw [if_neg hliteral]
  split at h
  case isTrue hend =>
    obtain ⟨rfl, rfl⟩ := Prod.mk.inj (Except.ok.inj h)
    exact if_pos hend
  case isFalse hend =>
  rw [if_neg hend]
  split at h
  case isTrue hmatch =>
    obtain ⟨⟨op, after'⟩, hread, heq⟩ := result_bind_eq_ok.mp h
    obtain ⟨rfl, rfl⟩ := Prod.mk.inj (Except.ok.inj heq)
    rw [if_pos hmatch]
    exact result_bind_eq_ok.mpr ⟨_, readMatch_embed distances hread, rfl⟩
  case isFalse => cases h

private theorem readCodeLengths_embed {order lengths lengths' : List Nat}
    (h : readCodeLengths data order bit lengths = .ok (lengths', next)) :
    readCodeLengths (front ++ data ++ back) order (8 * front.length + bit) lengths =
      .ok (lengths', 8 * front.length + next) := by
  induction order generalizing bit lengths with
  | nil =>
    obtain ⟨rfl, rfl⟩ := Prod.mk.inj (Except.ok.inj h)
    rfl
  | cons symbol order ih =>
    obtain ⟨⟨length, after⟩, hread, h⟩ := result_bind_eq_ok.mp h
    exact result_bind_eq_ok.mpr ⟨_, Bits.read_embed (by omega) hread, ih h⟩

private theorem readCodeLengths_length {order lengths lengths' : List Nat}
    (h : readCodeLengths data order bit lengths = .ok (lengths', next)) :
    lengths'.length = lengths.length := by
  induction order generalizing bit lengths with
  | nil =>
    obtain ⟨rfl, -⟩ := Prod.mk.inj (Except.ok.inj h)
    rfl
  | cons symbol order ih =>
    obtain ⟨⟨length, after⟩, -, h⟩ := result_bind_eq_ok.mp h
    exact (ih h).trans (List.length_set ..)

private theorem appendLengths_embed {lengths lengths' : List Nat} {total value count : Nat}
    (offset : Nat) (h : appendLengths lengths total value count bit = .ok lengths') :
    appendLengths lengths total value count (8 * offset + bit) = .ok lengths' ∧
      lengths'.length ≤ total := by
  obtain ⟨_, hfits, heq⟩ := result_bind_eq_ok.mp h
  rw [ensure_eq_ok] at hfits
  refine ⟨result_bind_eq_ok.mpr ⟨(), ensure_of hfits, heq⟩, ?_⟩
  obtain rfl := Except.ok.inj heq
  rw [List.length_append, List.length_replicate]
  exact hfits

private theorem readLength_embed {codeTable : Huffman} {total : Nat} {lengths lengths' : List Nat}
    (canonical : codeTable.Canonical) (room : lengths.length < total)
    (h : readLength data codeTable total bit lengths = .ok (lengths', next)) :
    readLength (front ++ data ++ back) codeTable total (8 * front.length + bit) lengths =
        .ok (lengths', 8 * front.length + next) ∧ lengths'.length ≤ total := by
  have hrepeat {count value base after : Nat} (few : count ≤ 56)
      (h : (Bits.read data after count >>= fun read => do
        let lengths ← appendLengths lengths total value (read.1 + base) read.2
        return (lengths, read.2)) = .ok (lengths', next)) :
      (Bits.read (front ++ data ++ back) (8 * front.length + after) count >>= fun read => do
        let lengths ← appendLengths lengths total value (read.1 + base) read.2
        return (lengths, read.2)) = .ok (lengths', 8 * front.length + next) ∧
        lengths'.length ≤ total := by
    obtain ⟨⟨extra, after'⟩, hread, h⟩ := result_bind_eq_ok.mp h
    obtain ⟨_, happend, heq⟩ := result_bind_eq_ok.mp h
    obtain ⟨rfl, rfl⟩ := Prod.mk.inj (Except.ok.inj heq)
    obtain ⟨happend', hle⟩ := appendLengths_embed front.length happend
    exact ⟨result_bind_eq_ok.mpr ⟨_, Bits.read_embed few hread,
      result_bind_eq_ok.mpr ⟨_, happend', rfl⟩⟩, hle⟩
  obtain ⟨⟨symbol, after⟩, hsymbol, h⟩ := result_bind_eq_ok.mp h
  rw [readLength, canonical.decode_embed hsymbol, result_bind_ok]
  dsimp only at h ⊢
  split at h
  case isTrue hlength =>
    obtain ⟨rfl, rfl⟩ := Prod.mk.inj (Except.ok.inj h)
    rw [if_pos hlength]
    refine ⟨rfl, ?_⟩
    rw [List.length_append, List.length_singleton]
    exact room
  case isFalse hlength =>
  rw [if_neg hlength]
  split at h
  case isTrue hcopy =>
    obtain ⟨previous, hprevious, h⟩ := result_bind_eq_ok.mp h
    rw [if_pos hcopy, okOr_eq_ok.mpr (okOr_eq_ok.mp hprevious), result_bind_ok]
    exact hrepeat (by omega) h
  case isFalse hcopy =>
  rw [if_neg hcopy]
  split at h
  case isTrue hzeros =>
    rw [if_pos hzeros]
    exact hrepeat (by omega) h
  case isFalse hzeros =>
  rw [if_neg hzeros]
  split at h
  case isTrue hmany =>
    rw [if_pos hmany]
    exact hrepeat (by omega) h
  case isFalse => cases h

private theorem readLengths_embed {codeTable : Huffman} {total : Nat} {lengths lengths' : List Nat}
    (canonical : codeTable.Canonical) (room : lengths.length ≤ total)
    (h : readLengths data codeTable total bit lengths = .ok (lengths', next)) :
    readLengths (front ++ data ++ back) codeTable total (8 * front.length + bit) lengths =
        .ok (lengths', 8 * front.length + next) ∧ lengths'.length ≤ total := by
  induction bit, lengths using readLengths.induct data codeTable total with
  | case1 bit lengths more error hread =>
    rw [readLengths_eq, if_pos more, hread] at h
    cases h
  | case2 bit lengths more lengths1 after hread ih =>
    obtain ⟨hread', hle⟩ := @readLength_embed front _ back _ _ _ _ _ _ canonical more hread
    rw [readLengths_eq, if_pos more, hread] at h
    rw [readLengths_eq, if_pos more, hread']
    exact ih hle h
  | case3 bit lengths done =>
    rw [readLengths_eq, if_neg done] at h
    obtain ⟨rfl, rfl⟩ := Prod.mk.inj (Except.ok.inj h)
    exact ⟨by rw [readLengths_eq, if_neg done], room⟩

private theorem dynamicTables_embed {literal distance : Huffman}
    (h : dynamicTables data bit = .ok ((literal, distance), next)) :
    dynamicTables (front ++ data ++ back) (8 * front.length + bit) =
        .ok ((literal, distance), 8 * front.length + next) ∧
      literal.Canonical ∧ distance.Canonical := by
  simp only [dynamicTables, result_bind_eq_ok] at h ⊢
  obtain ⟨⟨literals, bit1⟩, h1, ⟨distances, bit2⟩, h2, ⟨codes, bit3⟩, h3, ⟨codeLengths, bit4⟩, h4,
    codeTable, hcode, ⟨lengths, bit5⟩, h5, _, hend, literal', hliteral, distance', hdistance, heq⟩ := h
  obtain ⟨htables, rfl⟩ := Prod.mk.inj (Except.ok.inj heq)
  obtain ⟨rfl, rfl⟩ := Prod.mk.inj htables
  rw [ensure_eq_ok] at hend
  have hliterals := Bits.read_lt h1
  have hdistances := Bits.read_lt h2
  have hcanonical : codeTable.Canonical :=
    ⟨codeLengths, by rw [readCodeLengths_length h4]; decide, hcode⟩
  obtain ⟨h5', htotal⟩ := @readLengths_embed front _ back _ _ _ _ _ _ hcanonical
    (Nat.zero_le _) h5
  dsimp only at hliterals hdistances htotal
  refine ⟨⟨_, Bits.read_embed (by omega) h1, _, Bits.read_embed (by omega) h2, _,
    Bits.read_embed (by omega) h3, _, readCodeLengths_embed h4, codeTable, hcode, _, h5', (),
    ensure_of hend, _, hliteral, _, hdistance, rfl⟩, ⟨_, ?_, hliteral⟩, ⟨_, ?_, hdistance⟩⟩
  · rw [List.length_take]
    omega
  · rw [List.length_drop]
    dsimp only
    omega

private theorem fixedTables_canonical {literal distance : Huffman}
    (h : fixedTables = .ok (literal, distance)) : literal.Canonical ∧ distance.Canonical := by
  obtain ⟨literal', hliteral, h⟩ := result_bind_eq_ok.mp h
  obtain ⟨distance', hdistance, heq⟩ := result_bind_eq_ok.mp h
  obtain ⟨rfl, rfl⟩ := Prod.mk.inj (Except.ok.inj heq)
  refine ⟨⟨_, ?_, hliteral⟩, ⟨_, ?_, hdistance⟩⟩
  · simp only [List.length_append, List.length_replicate]
    omega
  · rw [List.length_replicate]
    omega

section Blocks

open DeflateOutput

variable {α : Type} [DeflateOutput α] {out out' : α}

/-- A map of outputs that every operation respects, and that adds `base` to what they count. -/
structure Rebases (base : Nat) (φ : α → α) : Prop where
  run : ∀ {out out' : α} {op : Op}, op.run out = .ok out' → op.run (φ out) = .ok (φ out')
  total : ∀ out, totalDecoded (φ out) = base + totalDecoded out

variable {base : Nat} {φ : α → α}

private theorem decodeStored_embed (rebases : Rebases base φ)
    (h : decodeStored data bit out = .ok (out', next)) :
    decodeStored (front ++ data ++ back) (8 * front.length + bit) (φ out) =
      .ok (φ out', 8 * front.length + next) := by
  simp only [decodeStored, result_bind_eq_ok] at h ⊢
  obtain ⟨⟨length, bit1⟩, hlength, ⟨complement, bit2⟩, hcomplement, _, hmatch, ⟨bytes, bit3⟩, hbytes,
    out1, hextend, heq⟩ := h
  obtain ⟨rfl, rfl⟩ := Prod.mk.inj (Except.ok.inj heq)
  rw [ensure_eq_ok] at hmatch
  rw [Bits.alignByte_embed]
  exact ⟨_, Bits.read_embed (by omega) hlength, _, Bits.read_embed (by omega) hcomplement, (),
    ensure_of hmatch, _, Bits.readAlignedBytes_embed hbytes, φ out1,
    @Rebases.run _ _ _ _ rebases _ _ (.extend bytes) hextend, rfl⟩

private theorem decodeHuffmanBlock_embed (rebases : Rebases base φ) {literal distance : Huffman}
    (literals : literal.Canonical) (distances : distance.Canonical)
    (h : decodeHuffmanBlock data literal distance bit out = .ok (out', next)) :
    decodeHuffmanBlock (front ++ data ++ back) literal distance (8 * front.length + bit) (φ out) =
      .ok (φ out', 8 * front.length + next) := by
  induction bit, out using @decodeHuffmanBlock.induct α _ data literal distance with
  | case1 bit out error hread => simp [decodeHuffmanBlock_eq, hread] at h
  | case2 bit out after hread =>
    rw [decodeHuffmanBlock_eq, hread] at h
    obtain ⟨rfl, rfl⟩ := Prod.mk.inj (Except.ok.inj h)
    rw [decodeHuffmanBlock_eq, readInstruction_embed literals distances hread]
  | case3 bit out op after hread error hrun => simp [decodeHuffmanBlock_eq, hread, hrun] at h
  | case4 bit out op after hread out1 hrun ih =>
    rw [decodeHuffmanBlock_eq, hread] at h
    simp only [hrun] at h
    rw [decodeHuffmanBlock_eq, readInstruction_embed literals distances hread]
    simp only [rebases.run hrun]
    exact ih h

private theorem decodeBody_embed (rebases : Rebases base φ) {code : Nat} {kind : BlockKind}
    (h : decodeBody data code bit out = .ok (out', kind, next)) :
    decodeBody (front ++ data ++ back) code (8 * front.length + bit) (φ out) =
      .ok (φ out', kind, 8 * front.length + next) := by
  unfold decodeBody at h ⊢
  split at h
  case isTrue hstored =>
    rw [if_pos hstored]
    obtain ⟨⟨out1, after⟩, hblock, heq⟩ := result_bind_eq_ok.mp h
    cases heq
    exact result_bind_eq_ok.mpr ⟨_, decodeStored_embed rebases hblock, rfl⟩
  case isFalse hstored =>
  rw [if_neg hstored]
  split at h
  case isTrue hfixed =>
    rw [if_pos hfixed]
    obtain ⟨⟨literal, distance⟩, htables, h⟩ := result_bind_eq_ok.mp h
    obtain ⟨⟨out1, after⟩, hblock, heq⟩ := result_bind_eq_ok.mp h
    cases heq
    obtain ⟨literals, distances⟩ := fixedTables_canonical htables
    exact result_bind_eq_ok.mpr ⟨_, htables, result_bind_eq_ok.mpr
      ⟨_, decodeHuffmanBlock_embed rebases literals distances hblock, rfl⟩⟩
  case isFalse hfixed =>
  rw [if_neg hfixed]
  split at h
  case isTrue hdynamic =>
    rw [if_pos hdynamic]
    obtain ⟨⟨⟨literal, distance⟩, after⟩, htables, h⟩ := result_bind_eq_ok.mp h
    obtain ⟨⟨out1, after'⟩, hblock, heq⟩ := result_bind_eq_ok.mp h
    cases heq
    obtain ⟨htables', literals, distances⟩ := dynamicTables_embed htables
    exact result_bind_eq_ok.mpr ⟨_, htables', result_bind_eq_ok.mpr
      ⟨_, decodeHuffmanBlock_embed rebases literals distances hblock, rfl⟩⟩
  case isFalse => cases h

def Block.move (shift : Shift) (block : Block) : Block :=
  { block with
    member := shift.units + block.member
    compressedStartBit := 8 * shift.compressed + block.compressedStartBit
    compressedEndBit := 8 * shift.compressed + block.compressedEndBit
    decodedStart := shift.decoded + block.decodedStart }

variable {shift : Shift}

theorem decodeBlock_embed (rebases : Rebases shift.decoded φ)
    (behind : shift.compressed = front.length) {member : Nat} {block : Block}
    (h : decodeBlock data member bit out = .ok (out', block, next)) :
    decodeBlock (front ++ data ++ back) (shift.units + member) (8 * front.length + bit) (φ out) =
      .ok (φ out', block.move shift, 8 * front.length + next) := by
  simp only [decodeBlock, result_bind_eq_ok] at h ⊢
  obtain ⟨⟨final, bit1⟩, hfinal, ⟨code, bit2⟩, hcode, ⟨out1, kind, bit3⟩, hbody, heq⟩ := h
  cases heq
  refine ⟨_, Bits.read_embed (by omega) hfinal, _, Bits.read_embed (by omega) hcode, _,
    decodeBody_embed rebases hbody, ?_⟩
  rw [rebases.total, rebases.total, Nat.add_sub_add_left]
  simp only [Block.move, behind]
  rfl

private theorem decodeDeflate_embed (rebases : Rebases shift.decoded φ)
    (behind : shift.compressed = front.length) {member : Nat} {blocks blocks' : List Block}
    (h : decodeDeflate data member bit blocks out = .ok (out', blocks', next)) :
    decodeDeflate (front ++ data ++ back) (shift.units + member) (8 * front.length + bit)
        (blocks.map (.move shift)) (φ out) =
      .ok (φ out', blocks'.map (.move shift), 8 * front.length + next) := by
  induction bit, blocks, out using @decodeDeflate.induct α _ data member with
  | case1 bit blocks out error hblock => simp [decodeDeflate_eq, hblock] at h
  | case2 bit blocks out out1 block after hblock hfinal =>
    rw [decodeDeflate_eq, hblock] at h
    dsimp only at h
    rw [if_pos hfinal] at h
    cases h
    rw [decodeDeflate_eq, decodeBlock_embed rebases behind hblock]
    dsimp only
    rw [if_pos (show (block.move shift).finalBlock = true from hfinal), List.map_append]
    rfl
  | case3 bit blocks out out1 block after hblock hmore ih =>
    rw [decodeDeflate_eq, hblock] at h
    dsimp only at h
    rw [if_neg hmore] at h
    rw [decodeDeflate_eq, decodeBlock_embed rebases behind hblock]
    dsimp only
    rw [if_neg (show ¬ (block.move shift).finalBlock = true from hmore), ← ih h, List.map_append]
    rfl

end Blocks

namespace Emitter

variable {crc : Crc32}

/-- The emitter of a member that begins `base` bytes later in the output. -/
def rebase (base : Nat) (e : Emitter crc) : Emitter crc :=
  { e with decodedBase := base + e.decodedBase }

private theorem rebase_compact (base : Nat) (e : Emitter crc) :
    (e.rebase base).compact = e.compact.rebase base := by
  unfold compact
  dsimp only
  rw [apply_ite (rebase base)]
  rfl

private theorem rebase_flushPending (base : Nat) (e : Emitter crc) :
    (e.rebase base).flushPending = e.flushPending.rebase base := by
  unfold flushPending
  dsimp only
  rw [apply_ite (rebase base), ← rebase_compact]
  rfl

private theorem rebase_grown {base length : Nat} {e e' : Emitter crc}
    (h : e.grown length = .ok e') : (e.rebase base).grown length = .ok (e'.rebase base) := by
  obtain ⟨_, hfits, heq⟩ := result_bind_eq_ok.mp h
  obtain rfl := Except.ok.inj heq
  refine result_bind_eq_ok.mpr ⟨(), ensure_of (ensure_eq_ok.mp hfits), congrArg Except.ok ?_⟩
  dsimp only
  rw [apply_ite (rebase base), ← rebase_flushPending]
  rfl

private theorem rebase_rebases (base : Nat) : Rebases base (@rebase crc base) where
  run {e e' op} h := by
    cases op with
    | emit byte => exact rebase_grown (e := { e with buffer := e.buffer ++ [byte] }) h
    | extend bytes => exact rebase_grown (e := { e with buffer := e.buffer ++ bytes }) h
    | copy distance length =>
      obtain ⟨_, hcheck, hgrown⟩ := result_bind_eq_ok.mp h
      exact result_bind_eq_ok.mpr ⟨(), hcheck,
        rebase_grown (e := { e with buffer := extendMatch e.buffer distance length }) hgrown⟩
  total e := Nat.add_assoc ..

end Emitter

private theorem readZeroTerminated_embed {cursor : Nat} {value : List UInt8} {field : String}
    (h : readZeroTerminated data cursor field = .ok (value, next)) :
    readZeroTerminated (front ++ data ++ back) (front.length + cursor) field =
      .ok (value, front.length + next) := by
  simp only [readZeroTerminated, result_bind_eq_ok, ensure_eq_ok] at h ⊢
  obtain ⟨_, hle, _, hmem, heq⟩ := h
  cases heq
  have hdrop : (front ++ data ++ back).drop (front.length + cursor) = data.drop cursor ++ back := by
    rw [List.append_assoc, List.drop_append, List.drop_of_length_le (by omega), List.nil_append,
      Nat.add_sub_cancel_left, List.drop_append_of_le_length hle]
  have hlt := List.idxOf_lt_length_of_mem hmem
  refine ⟨(), length_embed_le hle, (), hdrop ▸ List.mem_append_left _ hmem, ?_⟩
  rw [hdrop, List.idxOf_append_of_mem hmem, List.take_append_of_le_length (Nat.le_of_lt hlt),
    Nat.add_assoc]
  rfl

private theorem readField_embed {cursor : Nat} {value : Option (List UInt8)} {field : String}
    {flag : Bool} (h : readField data cursor field flag = .ok (value, next)) :
    readField (front ++ data ++ back) (front.length + cursor) field flag =
      .ok (value, front.length + next) := by
  cases flag with
  | false =>
    cases h
    rfl
  | true =>
    obtain ⟨⟨found, after⟩, hread, heq⟩ := result_bind_eq_ok.mp h
    cases heq
    exact result_bind_eq_ok.mpr ⟨_, readZeroTerminated_embed hread, rfl⟩

private theorem skipExtra_embed {cursor : Nat} {flag : Bool}
    (h : skipExtra data cursor flag = .ok next) :
    skipExtra (front ++ data ++ back) (front.length + cursor) flag = .ok (front.length + next) := by
  cases flag with
  | false =>
    cases h
    rfl
  | true =>
    obtain ⟨bytes, hrange, h⟩ := result_bind_eq_ok.mp h
    obtain ⟨_, hfits, heq⟩ := result_bind_eq_ok.mp h
    cases heq
    rw [okOr_eq_ok] at hrange
    rw [ensure_eq_ok] at hfits
    refine result_bind_eq_ok.mpr ⟨bytes, okOr_eq_ok.mpr (range?_embed hrange), ?_⟩
    dsimp only
    rw [Nat.add_assoc]
    exact result_bind_eq_ok.mpr ⟨(), ensure_of (length_embed_le hfits), rfl⟩

private theorem checkHeaderCrc_embed {crc : Crc32} {start cursor : Nat} {flag : Bool}
    (h : checkHeaderCrc crc data start cursor flag = .ok next) :
    checkHeaderCrc crc (front ++ data ++ back) (front.length + start) (front.length + cursor) flag =
      .ok (front.length + next) := by
  cases flag with
  | false =>
    cases h
    rfl
  | true =>
    obtain ⟨bytes, hrange, h⟩ := result_bind_eq_ok.mp h
    obtain ⟨_, hsum, heq⟩ := result_bind_eq_ok.mp h
    cases heq
    rw [okOr_eq_ok] at hrange
    rw [ensure_eq_ok] at hsum
    have hinside := (range?_eq_some.mp hrange).2.1
    refine result_bind_eq_ok.mpr ⟨bytes, okOr_eq_ok.mpr (range?_embed hrange), ?_⟩
    dsimp only
    rw [slice_embed (by omega)]
    exact result_bind_eq_ok.mpr ⟨(), ensure_of hsum, rfl⟩

def Header.move (offset : Nat) (header : Header) : Header :=
  { header with deflateStart := offset + header.deflateStart }

private theorem parseHeader_embed {crc : Crc32} {start : Nat} {header : Header}
    (h : parseHeader crc data start = .ok header) :
    parseHeader crc (front ++ data ++ back) (front.length + start) =
      .ok (header.move front.length) := by
  simp only [parseHeader, result_bind_eq_ok, okOr_eq_ok] at h ⊢
  obtain ⟨fixed, hfixed, _, hmagic, _, hmethod, _, hflags, after, hextra, ⟨name, after'⟩, hname,
    ⟨comment, after''⟩, hcomment, stop, hcrc, heq⟩ := h
  cases heq
  rw [ensure_eq_ok] at hmagic hmethod hflags
  simp only [Nat.add_assoc]
  exact ⟨fixed, range?_embed hfixed, (), ensure_of hmagic, (), ensure_of hmethod, (),
    ensure_of hflags, _, skipExtra_embed hextra, _, readField_embed hname, _,
    readField_embed hcomment, _, checkHeaderCrc_embed hcrc, rfl⟩

def Member.move (shift : Shift) (m : Member) : Member :=
  { m with
    compressedStart := shift.compressed + m.compressedStart
    deflateStart := shift.compressed + m.deflateStart
    compressedEnd := shift.compressed + m.compressedEnd
    decodedStart := shift.decoded + m.decodedStart }

/-- What `d` has counted, when it has taken `offset` bytes of input. -/
def Unpacked.shift (d : Unpacked) (offset : Nat) : Shift :=
  ⟨offset, d.decodedTotal, d.members.length, d.blocks.length⟩

/-- What later members have delivered, put behind what earlier ones have. -/
def Unpacked.join (base : Unpacked) (offset : Nat) (d : Unpacked) : Unpacked where
  output := base.output ++ d.output
  members := base.members ++ d.members.map (.move (base.shift offset))
  blocks := base.blocks ++ d.blocks.map (.move (base.shift offset))
  decodedTotal := base.decodedTotal + d.decodedTotal
  speculativeTotal := base.speculativeTotal + d.speculativeTotal
  fallbackTotal := base.fallbackTotal + d.fallbackTotal

variable {crc : Crc32} {base : Unpacked}

private theorem decompressDeflateSerialStream_embed {shift : Shift}
    (behind : shift.compressed = front.length)
    {startByte member decodedBase : Nat} {output : List UInt8} {decoded : DeflateReport}
    (h : decompressDeflateSerialStream crc data startByte member decodedBase =
      .ok (output, decoded)) :
    decompressDeflateSerialStream crc (front ++ data ++ back) (front.length + startByte)
        (shift.units + member) (shift.decoded + decodedBase) =
      .ok (output, { decoded with
        sourceLen := (front ++ data ++ back).length - (front.length + startByte)
        compressedEndBit := 8 * front.length + decoded.compressedEndBit
        blocks := decoded.blocks.map (.move shift) }) := by
  obtain ⟨⟨emitter, blocks, stop⟩, hdecode, heq⟩ := result_bind_eq_ok.mp h
  cases heq
  have hdecode' : decodeDeflate (front ++ data ++ back) (shift.units + member)
      ((front.length + startByte) * 8) [] (Emitter.new (shift.decoded + decodedBase)) =
        .ok (emitter.rebase shift.decoded, blocks.map (.move shift), 8 * front.length + stop) := by
    rw [show (front.length + startByte) * 8 = 8 * front.length + startByte * 8 by omega]
    exact decodeDeflate_embed (Emitter.rebase_rebases shift.decoded) behind hdecode
  refine result_bind_eq_ok.mpr ⟨_, hdecode', ?_⟩
  dsimp only
  rw [Emitter.rebase_flushPending]
  rfl

private theorem decodeMember_embed {position : Nat} {d e : Unpacked}
    (total : base.decodedTotal + e.decodedTotal < 2 ^ 64)
    (few : base.members.length + e.members.length ≤ 2 ^ 32)
    (h : decodeMember crc data position d = .ok (e, next)) :
    decodeMember crc (front ++ data ++ back) (front.length + position) (base.join front.length d) =
      .ok (base.join front.length e, front.length + next) := by
  obtain ⟨header, output, decoded, bytes, hheader, hfew, hdecode, rfl, hbytes, hcrc, hsize, hfits,
    rfl⟩ := decodeMember_eq_ok.mp h
  have htrailer : (8 * front.length + decoded.compressedEndBit + 7) / 8 =
      front.length + (decoded.compressedEndBit + 7) / 8 := by omega
  simp only [Unpacked.closed, List.length_append, List.length_singleton] at total few
  have hunits : (base.join front.length d).members.length =
      base.members.length + d.members.length := by
    rw [Unpacked.join, List.length_append, List.length_map]
  have hstream := @decompressDeflateSerialStream_embed front _ back _
    (base.shift front.length) rfl _ _ _ _ _ hdecode
  rw [Unpacked.shift, ← hunits] at hstream
  refine decodeMember_eq_ok.mpr ⟨_, output, _, bytes, parseHeader_embed hheader, by omega, hstream,
    ?_, ?_, hcrc, hsize, ?_, ?_⟩
  · dsimp only
    rw [htrailer, Nat.add_assoc]
  · dsimp only
    rw [htrailer]
    exact range?_embed hbytes
  · simp only [Unpacked.join]
    omega
  · simp [Unpacked.join, Unpacked.closed, Member.move, Header.move, Unpacked.shift, Nat.add_assoc]

private theorem Turn.grows {before after : Nat × Unpacked} (h : Turn crc data before after) :
    before.2.decodedTotal ≤ after.2.decodedTotal ∧
      before.2.members.length ≤ after.2.members.length := by
  obtain ⟨_, _, decoded, _, -, -, -, -, -, -, -, -, heq⟩ := decodeMember_eq_ok.mp h
  rw [heq]
  simp [Unpacked.closed]

theorem turns_embed {before after : Nat × Unpacked}
    (total : base.decodedTotal + after.2.decodedTotal < 2 ^ 64)
    (few : base.members.length + after.2.members.length ≤ 2 ^ 32)
    (h : Relation.ReflTransGen (Turn crc data) before after) :
    Relation.ReflTransGen (Turn crc (front ++ data ++ back))
      (front.length + before.1, base.join front.length before.2)
      (front.length + after.1, base.join front.length after.2) := by
  induction h with
  | refl => exact .refl
  | tail _ hturn ih =>
    have hgrows := hturn.grows
    exact (ih (by omega) (by omega)).tail (decodeMember_embed total few hturn)

/-- Members that have been recorded stay, end within the input, and the last of them ends where the
loop stands. -/
theorem turns_members {before after : Nat × Unpacked}
    (h : Relation.ReflTransGen (Turn crc data) before after) :
    ∃ more, after.2.members = before.2.members ++ more ∧
      (∀ m ∈ more, m.compressedEnd ≤ data.length) ∧
      (more = [] → after = before) ∧ ∀ m ∈ more.getLast?, m.compressedEnd = after.1 := by
  induction h with
  | refl => exact ⟨[], (List.append_nil _).symm, nofun, fun _ => rfl, nofun⟩
  | @tail mid after _ hturn ih =>
    obtain ⟨more, heq, hall, -, -⟩ := ih
    have hend := hturn.advances.2
    obtain ⟨header, _, decoded, _, -, -, -, -, -, -, -, -, hclosed⟩ := decodeMember_eq_ok.mp hturn
    refine ⟨_, by rw [hclosed, Unpacked.closed, heq, List.append_assoc], fun m hmem => ?_,
      fun hnil => absurd hnil (by simp), fun m hmem => ?_⟩
    · rcases List.mem_append.mp hmem with hmem | hmem
      · exact hall m hmem
      · rw [List.mem_singleton.mp hmem]
        exact hend
    · rw [List.getLast?_concat, Option.mem_some_iff] at hmem
      rw [← hmem]

private theorem decompressDeflateSerialStream_length {startByte member decodedBase : Nat}
    {output : List UInt8} {decoded : DeflateReport}
    (h : decompressDeflateSerialStream crc data startByte member decodedBase =
      .ok (output, decoded)) : output.length = decoded.decodedLen := by
  obtain ⟨⟨emitter, blocks, stop⟩, hdecode, heq⟩ := result_bind_eq_ok.mp h
  cases heq
  have hsim := (@emitter_simulates crc decodedBase).decodeDeflate
    ⟨Emitter.emits_new decodedBase, by decide, rfl⟩ data member (startByte * 8) []
  rw [List.map_nil, hdecode] at hsim
  cases hhistory : decodeDeflate data 0 (startByte * 8) [] ({} : History) with
  | error error =>
    rw [hhistory] at hsim
    obtain ⟨_, herror⟩ := hsim trivial
    cases herror
  | ok found =>
    rw [hhistory, AnswersWith] at hsim
    split at hsim
    · obtain ⟨out, heq, hemits, -, -⟩ := hsim
      obtain rfl := (Prod.mk.inj (Except.ok.inj heq)).1
      rw [hemits.toHolds.flushPending.2, Emitter.flushPending_memberDecoded, hemits.counted]
    · obtain ⟨_, herror⟩ := hsim
      cases herror

theorem turns_counted {before after : Nat × Unpacked}
    (counted : before.2.decodedTotal = before.2.output.length)
    (h : Relation.ReflTransGen (Turn crc data) before after) :
    after.2.decodedTotal = after.2.output.length := by
  induction h with
  | refl => exact counted
  | tail _ hturn ih =>
    obtain ⟨_, _, decoded, _, -, -, hdecode, -, -, -, -, -, heq⟩ := decodeMember_eq_ok.mp hturn
    rw [heq]
    dsimp only [Unpacked.closed]
    rw [List.length_append, ih, decompressDeflateSerialStream_length hdecode]

private theorem turns_bounded {before after : Nat × Unpacked}
    (total : before.2.decodedTotal < 2 ^ 64) (few : before.2.members.length ≤ 2 ^ 32)
    (h : Relation.ReflTransGen (Turn crc data) before after) :
    after.2.decodedTotal < 2 ^ 64 ∧ after.2.members.length ≤ 2 ^ 32 := by
  cases h with
  | refl => exact ⟨total, few⟩
  | tail _ hturn =>
    obtain ⟨_, _, decoded, _, -, hfew, -, -, -, -, -, hfits, heq⟩ := decodeMember_eq_ok.mp hturn
    rw [heq]
    refine ⟨hfits, ?_⟩
    dsimp only [Unpacked.closed]
    rw [List.length_append, List.length_singleton]
    exact hfew

@[simp] theorem Unpacked.join_empty (base : Unpacked) (offset : Nat) : base.join offset {} = base := by
  simp [Unpacked.join]

@[simp] theorem Member.move_none : Member.move .none = id :=
  funext fun _ => by simp [Member.move, Shift.none]

@[simp] theorem Block.move_none : Block.move .none = id :=
  funext fun _ => by simp [Block.move, Shift.none]

@[simp] theorem Unpacked.empty_shift : ({} : Unpacked).shift 0 = .none := rfl

@[simp] theorem Unpacked.empty_join (d : Unpacked) : ({} : Unpacked).join 0 d = d := by
  simp [Unpacked.join]

theorem turns_append {stop : Nat} {d : Unpacked}
    (h : Relation.ReflTransGen (Turn crc data) (0, {}) (stop, d)) (back : List UInt8) :
    Relation.ReflTransGen (Turn crc (data ++ back)) (0, {}) (stop, d) := by
  obtain ⟨htotal, hfew⟩ := turns_bounded (by decide) (by simp) h
  have := @turns_embed [] data back crc {} _ _ (by simpa using htotal)
    (by simpa using hfew) h
  simpa using this

end Fbz.Deflate
