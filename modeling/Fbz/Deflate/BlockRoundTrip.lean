import Mathlib.Logic.Relation
import Fbz.Deflate.Expand
import Fbz.Deflate.Output
import Fbz.Deflate.WrittenBits

/-!
# Written blocks are read back

Tokens that are written with two codes are read as what they stand for, and behind any history that
ends as theirs does they put out the same bytes. Stored blocks are read from where a byte begins, so
for them it matters how far into a byte the writer was.
-/

namespace Fbz.Deflate

open BitOrder CanonicalCode Lz Relation

private theorem symbolFrom_spec {value : Nat} {bases : List Nat} (extras : List Nat)
    (least : bases.getD 0 0 ≤ value) (index : Nat) :
    ∃ i ≤ index, symbolFrom value bases extras index =
        (i, value - bases.getD i 0, extras.getD i 0) ∧
      bases.getD i 0 ≤ value ∧ ∀ j, i < j → j ≤ index → value < bases.getD j 0 := by
  induction index with
  | zero => exact ⟨0, Nat.le_refl _, rfl, least, fun j hlt hle => by omega⟩
  | succ index ih =>
    by_cases hbase : value ≥ bases.getD (index + 1) 0
    · refine ⟨index + 1, Nat.le_refl _, by rw [symbolFrom, if_pos hbase], hbase, ?_⟩
      intro j hlt hle
      omega
    · obtain ⟨i, hi, heq, hle, habove⟩ := ih
      refine ⟨i, Nat.le_succ_of_le hi, by rw [symbolFrom, if_neg hbase, heq], hle, ?_⟩
      intro j hlt hj
      rcases Nat.eq_or_lt_of_le hj with rfl | hj
      · exact Nat.not_le.mp hbase
      · exact habove j hlt (Nat.le_of_lt_succ hj)

/-- Base and extra bits of the symbol make up the value. -/
structure StandsFor (bases extras : List Nat) (value : Nat) (found : Nat × Nat × Nat) : Prop where
  inside : found.1 < bases.length
  total : bases.getD found.1 0 + found.2.1 = value
  width : found.2.2 = extras.getD found.1 0
  fits : found.2.1 < 2 ^ found.2.2

private theorem symbolFor_standsFor {value : Nat} {bases extras : List Nat} (ne : bases ≠ [])
    (least : bases.getD 0 0 ≤ value) (dense : ∀ i < bases.length - 1,
      bases.getD (i + 1) 0 ≤ bases.getD i 0 + 2 ^ extras.getD i 0)
    (last : value < bases.getD (bases.length - 1) 0 + 2 ^ extras.getD (bases.length - 1) 0) :
    StandsFor bases extras value (symbolFor value bases extras) := by
  have hpos := List.length_pos_iff.mpr ne
  obtain ⟨i, hi, heq, hle, habove⟩ := symbolFrom_spec extras least (bases.length - 1)
  rw [symbolFor, heq]
  refine ⟨by dsimp only; omega, by dsimp only; omega, rfl, ?_⟩
  dsimp only
  rcases Nat.eq_or_lt_of_le hi with rfl | hlt
  · omega
  · have hnext := habove (i + 1) (Nat.lt_succ_self i) (by omega)
    have hgap := dense i hlt
    omega

theorem lengthSymbol_standsFor {length : Nat} (lo : 3 ≤ length) (hi : length ≤ 258) :
    StandsFor lengthBase lengthExtra length (lengthSymbol length) := by
  apply symbolFor_standsFor (by decide) lo (by decide)
  exact Nat.lt_succ_of_le hi

theorem distanceSymbol_standsFor {distance : Nat} (lo : 1 ≤ distance) (hi : distance ≤ 32768) :
    StandsFor distanceBase distanceExtra distance (distanceSymbol distance) := by
  apply symbolFor_standsFor (by decide) lo (by decide)
  exact Nat.lt_succ_of_le hi

/-- The bits of a token under these code lengths. -/
def Token.bits (literal distance : List Nat) : Token → List Bool
  | .literal byte => symbolBits literal byte.toNat
  | .copy length dist =>
    symbolBits literal (257 + (lengthSymbol length).1) ++
      (lowBits (lengthSymbol length).2.2 (lengthSymbol length).2.1 ++
        (symbolBits distance (distanceSymbol dist).1 ++
          lowBits (distanceSymbol dist).2.2 (distanceSymbol dist).2.1))

/-- All its symbols have codes. -/
def Token.Coded (literal distance : List Nat) : Token → Prop
  | .literal byte => ∃ bits, HasLength literal byte.toNat bits
  | .copy length dist =>
    (∃ bits, HasLength literal (257 + (lengthSymbol length).1) bits) ∧
      ∃ bits, HasLength distance (distanceSymbol dist).1 bits

def Token.op : Token → Op
  | .literal byte => .emit byte
  | .copy length distance => .copy distance length

/-- Tables of a literal/length code and a distance code. -/
structure CodeTables (literal distance : List Nat) (tables : Huffman × Huffman) : Prop where
  literals : tables.1.IsTable literal
  distances : tables.2.IsTable distance
  fewLiterals : literal.length ≤ 320
  fewDistances : distance.length ≤ 320

variable {data before output : List UInt8} {bit length available : Nat} {bits rest : List Bool}
  {literal distance : List Nat} {tables : Huffman × Huffman} {token : Token} {tokens : List Token}
  {w : BitWriter}

private theorem BitWriter.Wrote.writeToken (h : w.Wrote bits)
    (short : ∀ length ∈ literal, length ≤ 16)
    (short' : ∀ length ∈ distance, length ≤ 16) (coded : token.Coded literal distance)
    (legal : token.Legal available) :
    (writeToken (.of literal) (.of distance) w token).Wrote
      (bits ++ token.bits literal distance) := by
  cases token with
  | literal byte =>
    obtain ⟨length, has⟩ := coded
    exact h.writeCode has (short _ has.mem)
  | copy length dist =>
    obtain ⟨⟨longBits, hasLong⟩, ⟨farBits, hasFar⟩⟩ := coded
    obtain ⟨hleast, hmost, hpos, hnear, -⟩ := legal
    have hlong := lengthSymbol_standsFor hleast hmost
    have hfar := distanceSymbol_standsFor hpos hnear
    have hwrote := (((h.writeCode hasLong (short _ hasLong.mem)).writeBits hlong.fits).writeCode
      hasFar (short' _ hasFar.mem)).writeBits hfar.fits
    simp only [List.append_assoc] at hwrote
    exact hwrote

private theorem readMatch_token {dist : Nat} (codes : CodeTables literal distance tables)
    (long : StandsFor lengthBase lengthExtra length (lengthSymbol length))
    (far : StandsFor distanceBase distanceExtra dist (distanceSymbol dist))
    (hasFar : ∃ bits, HasLength distance (distanceSymbol dist).1 bits)
    (h : Rests data bit (lowBits (lengthSymbol length).2.2 (lengthSymbol length).2.1 ++
      (symbolBits distance (distanceSymbol dist).1 ++
        (lowBits (distanceSymbol dist).2.2 (distanceSymbol dist).2.1 ++ rest)))) :
    ∃ next, readMatch data tables.2 (257 + (lengthSymbol length).1) bit =
      .ok (.copy dist length, next) ∧ Rests data next rest := by
  obtain ⟨farBits, hasFar⟩ := hasFar
  have hlengthFew : ∀ i < 29, lengthExtra.getD i 0 ≤ 56 := by decide
  have hdistanceFew : ∀ i < 30, distanceExtra.getD i 0 ≤ 56 := by decide
  have hlength := h.read long.fits (by rw [long.width]; exact hlengthFew _ long.inside)
  have h1 := h.after_read
  have hsymbol := h1.decode codes.distances codes.fewDistances hasFar
  have h2 := h1.after_decode hasFar
  have hdistance := h2.read far.fits (by rw [far.width]; exact hdistanceFew _ far.inside)
  refine ⟨_, ?_, h2.after_read⟩
  rw [readMatch, Nat.add_sub_cancel_left, ← long.width, hlength, result_bind_ok]
  dsimp only
  rw [hsymbol, result_bind_ok]
  dsimp only
  rw [ensure_of far.inside, result_bind_ok, ← far.width, hdistance, result_bind_ok, long.total,
    far.total]
  rfl

private theorem readInstruction_token (codes : CodeTables literal distance tables)
    (coded : token.Coded literal distance) (legal : token.Legal available)
    (h : Rests data bit (token.bits literal distance ++ rest)) :
    ∃ next, readInstruction data tables.1 tables.2 bit = .ok (some token.op, next) ∧
      Rests data next rest := by
  cases token with
  | literal byte =>
    obtain ⟨length, has⟩ := coded
    refine ⟨_, ?_, h.after_decode has⟩
    have hbyte := byte.toNat_lt
    rw [readInstruction, h.decode codes.literals codes.fewLiterals has, result_bind_ok]
    dsimp only
    rw [if_pos (by omega), UInt8.ofNat_toNat]
    rfl
  | copy length dist =>
    obtain ⟨⟨longBits, hasLong⟩, hasFar⟩ := coded
    obtain ⟨hleast, hmost, hpos, hnear, -⟩ := legal
    have hlong := lengthSymbol_standsFor hleast hmost
    have hinside : (lengthSymbol length).1 < 29 := hlong.inside
    simp only [Token.bits, List.append_assoc] at h
    obtain ⟨next, hmatch, hnext⟩ := readMatch_token codes hlong
      (distanceSymbol_standsFor hpos hnear) hasFar (h.after_decode hasLong)
    refine ⟨next, ?_, hnext⟩
    rw [readInstruction, h.decode codes.literals codes.fewLiterals hasLong, result_bind_ok]
    dsimp only
    rw [if_neg (by omega), if_neg (by omega), if_pos (by omega), hmatch, result_bind_ok]
    rfl

private theorem readInstruction_end (codes : CodeTables literal distance tables)
    (coded : ∃ length, HasLength literal 256 length)
    (h : Rests data bit (symbolBits literal 256 ++ rest)) :
    ∃ next, readInstruction data tables.1 tables.2 bit = .ok (none, next) ∧
      Rests data next rest := by
  obtain ⟨length, has⟩ := coded
  refine ⟨_, ?_, h.after_decode has⟩
  rw [readInstruction, h.decode codes.literals codes.fewLiterals has, result_bind_ok]
  rfl

/-- Every token keeps the bounds of the format where it stands. -/
def LegalFrom (output : List UInt8) (tokens : List Token) : Prop :=
  ∀ front token back, tokens = front ++ token :: back →
    token.Legal (expand output front).length

private theorem legalFrom_cons (h : LegalFrom output (token :: tokens)) :
    token.Legal output.length ∧ LegalFrom (token.expand output) tokens := by
  refine ⟨h [] token tokens rfl, ?_⟩
  intro front other back heq
  exact h (token :: front) other back (by rw [heq, List.cons_append])

private theorem Token.Legal.mono {more : Nat} (h : token.Legal available) (le : available ≤ more) :
    token.Legal more := by
  cases token with
  | literal byte => exact trivial
  | copy length dist =>
    obtain ⟨hleast, hmost, hpos, hnear, hfits⟩ := h
    exact ⟨hleast, hmost, hpos, hnear, Nat.le_trans hfits le⟩

private theorem Token.expand_behind (legal : token.Legal output.length) :
    token.expand (before ++ output) = before ++ token.expand output := by
  cases token with
  | literal byte => simp [Token.expand]
  | copy length dist =>
    obtain ⟨-, -, hpos, -, hfits⟩ := legal
    exact copyBack_append hpos hfits

/-- Tokens that are legal without what lies further back put out the same behind it. -/
theorem expand_behind (legal : LegalFrom output tokens) :
    expand (before ++ output) tokens = before ++ expand output tokens ∧
      LegalFrom (before ++ output) tokens := by
  induction tokens generalizing output with
  | nil =>
    refine ⟨rfl, ?_⟩
    intro front token back heq
    simp at heq
  | cons token tokens ih =>
    obtain ⟨hhead, htail⟩ := legalFrom_cons legal
    obtain ⟨hexpand, hlegal⟩ := ih htail
    rw [← Token.expand_behind hhead] at hexpand hlegal
    refine ⟨hexpand, ?_⟩
    intro front other back heq
    cases front with
    | nil =>
      obtain ⟨rfl, -⟩ := List.cons.inj heq
      exact hhead.mono (by simp [Deflate.expand])
    | cons first front =>
      obtain ⟨rfl, htokens⟩ := List.cons.inj heq
      exact hlegal front other back htokens

private theorem Token.run_history (legal : token.Legal before.length) :
    token.op.run (⟨before⟩ : History) = .ok ⟨token.expand before⟩ := by
  cases token with
  | literal byte => rfl
  | copy length dist =>
    obtain ⟨-, -, hpos, hnear, hfits⟩ := legal
    have hinside : dist ≠ 0 ∧ dist ≤ min before.length windowSize := by
      unfold windowSize
      omega
    show (checkDistance dist (min before.length windowSize) >>= fun _ => _) = _
    rw [checkDistance, ensure_of hinside]
    rfl

theorem BitWriter.Wrote.writeTokens (h : w.Wrote bits) (short : ∀ length ∈ literal, length ≤ 16)
    (short' : ∀ length ∈ distance, length ≤ 16)
    (coded : ∀ token ∈ tokens, token.Coded literal distance) (legal : LegalFrom output tokens) :
    (tokens.foldl (Deflate.writeToken (.of literal) (.of distance)) w).Wrote
      (bits ++ tokens.flatMap (Token.bits literal distance)) := by
  induction tokens generalizing w bits output with
  | nil => simpa using h
  | cons token tokens ih =>
    obtain ⟨hhead, htail⟩ := legalFrom_cons legal
    have hfirst := h.writeToken short short' (coded token List.mem_cons_self) hhead
    have hrest := ih hfirst (fun other hmem => coded other (List.mem_cons_of_mem _ hmem)) htail
    rw [List.append_assoc] at hrest
    exact hrest

theorem decodeHuffmanBlock_tokens (codes : CodeTables literal distance tables)
    (coded : ∀ token ∈ tokens, token.Coded literal distance)
    (ends : ∃ length, HasLength literal 256 length) (legal : LegalFrom before tokens)
    (h : Rests data bit
      (tokens.flatMap (Token.bits literal distance) ++ (symbolBits literal 256 ++ rest))) :
    ∃ next, decodeHuffmanBlock data tables.1 tables.2 bit (⟨before⟩ : History) =
      .ok (⟨expand before tokens⟩, next) ∧ Rests data next rest := by
  induction tokens generalizing bit before with
  | nil =>
    obtain ⟨next, hread, hnext⟩ := readInstruction_end codes ends h
    refine ⟨next, ?_, hnext⟩
    rw [decodeHuffmanBlock_eq, hread]
    rfl
  | cons token tokens ih =>
    obtain ⟨hhead, htail⟩ := legalFrom_cons legal
    rw [List.flatMap_cons, List.append_assoc] at h
    obtain ⟨next, hread, hnext⟩ :=
      readInstruction_token codes (coded token List.mem_cons_self) hhead h
    obtain ⟨last, hblock, hlast⟩ :=
      ih (fun other hmem => coded other (List.mem_cons_of_mem _ hmem)) htail hnext
    refine ⟨last, ?_, hlast⟩
    rw [decodeHuffmanBlock_eq, hread]
    dsimp only
    rw [Token.run_history hhead]
    exact hblock

/-- A block that is not the final one, from its first bit and the history before it. -/
def Crosses (data : List UInt8) (before after : Nat × History) : Prop :=
  ∃ block, decodeBlock data 0 before.1 before.2 = .ok (after.2, block, after.1) ∧
    block.finalBlock = false

/-- A block is its three bits and a body of its kind. -/
theorem crosses_of_body {kind next : Nat} {after : List UInt8} {blockKind : BlockKind}
    (few : kind < 4) (h : Rests data bit (lowBits 3 (kind <<< 1) ++ rest))
    (body : decodeBody data kind (bit + 3) (⟨before⟩ : History) =
      .ok (⟨after⟩, blockKind, next)) : Crosses data (bit, ⟨before⟩) (next, ⟨after⟩) := by
  have hsplit : lowBits 3 (kind <<< 1) = lowBits 1 0 ++ lowBits 2 kind := by
    have hbits := lowBits_append 1 2 (Nat.zero_lt_succ 1) kind
    rwa [Nat.zero_or] at hbits
  rw [hsplit, List.append_assoc] at h
  have hfinal := h.read (Nat.zero_lt_succ 1) (by decide)
  have hkind := h.after_read.read few (by decide)
  have hblock : decodeBlock data 0 bit (⟨before⟩ : History) = .ok (⟨after⟩,
      ⟨0, blockKind, false, bit, next, before.length, after.length - before.length⟩, next) := by
    rw [decodeBlock, hfinal, result_bind_ok]
    dsimp only
    rw [hkind, result_bind_ok]
    dsimp only
    rw [body]
    rfl
  exact ⟨_, hblock, rfl⟩

/-- A stored block behind these bits. -/
def storedBits (front : List Bool) (chunk : List UInt8) : List Bool :=
  lowBits 3 0 ++ (BitWriter.padding (front ++ lowBits 3 0) ++
    (bitString (toLe 2 chunk.length) ++
      (bitString (toLe 2 (2 ^ 16 - 1 - chunk.length)) ++ bitString chunk)))

theorem BitWriter.Wrote.writeStored {chunk : List UInt8} (h : w.Wrote bits)
    (short : chunk.length < 2 ^ 16) :
    (writeStored w chunk).Wrote (bits ++ storedBits bits chunk) ∧
      (Deflate.writeStored w chunk).bits = 0 := by
  obtain ⟨haligned, hzero⟩ := (h.writeBits (show 0 < 2 ^ 3 by decide)).alignZero
  obtain ⟨hlength, hzero⟩ := haligned.writeAligned hzero (toLe 2 chunk.length)
  obtain ⟨hcomplement, hzero⟩ := hlength.writeAligned hzero (toLe 2 (2 ^ 16 - 1 - chunk.length))
  obtain ⟨hwrote, hzero⟩ := hcomplement.writeAligned hzero chunk
  rw [Deflate.writeStored, Nat.mod_eq_of_lt short]
  simp only [List.append_assoc] at hwrote
  exact ⟨hwrote, hzero⟩

theorem syncBoundary_eq (w : BitWriter) : syncBoundary w = writeStored w [] := by
  simp [syncBoundary, writeStored, BitWriter.writeAligned, toLe]

theorem Rests.readAlignedBytes {bytes : List UInt8} {count : Nat}
    (h : Rests data (8 * count) (bitString bytes ++ rest)) :
    Bits.readAlignedBytes data (8 * count) bytes.length =
      .ok (bytes, 8 * count + 8 * bytes.length) := by
  have hinside := h.skip.inside
  rw [bitString_length] at hinside
  have hslice : slice data count (count + bytes.length) = bytes := by
    rw [slice, Nat.add_sub_cancel_left, h.drop_bytes, List.take_left]
  rw [Bits.readAlignedBytes, ensure_of (Nat.mul_mod_right 8 count), result_bind_ok,
    Nat.mul_div_cancel_left _ (by decide), range?, if_pos (by omega), okOr_some, result_bind_ok,
    hslice]
  simp only [Nat.mul_comm, Nat.add_mul]
  rfl

theorem crosses_stored {front : List Bool} {chunk : List UInt8} (short : chunk.length < 2 ^ 16)
    (same : bit % 8 = front.length % 8) (h : Rests data bit (storedBits front chunk ++ rest)) :
    ∃ next, Crosses data (bit, ⟨before⟩) (next, ⟨before ++ chunk⟩) ∧ Rests data next rest := by
  simp only [storedBits, List.append_assoc] at h
  have halign : Bits.alignByte (bit + 3) = bit + 3 + (BitWriter.padding (front ++ lowBits 3 0)).length := by
    rw [BitWriter.padding, List.length_replicate, List.length_append, lowBits_length, Bits.alignByte,
      Bits.alignByte]
    omega
  have hpadded := h.after_read.skip
  rw [← halign, bitString_toLe, bitString_toLe] at hpadded
  have hlength := hpadded.read short (by decide)
  have hcomplement := hpadded.after_read.read (show 2 ^ 16 - 1 - chunk.length < 2 ^ (8 * 2) by omega)
    (by decide)
  have hbytes := hpadded.after_read.after_read
  obtain ⟨count, hcount⟩ : ∃ count, Bits.alignByte (bit + 3) + 8 * 2 + 8 * 2 = 8 * count :=
    ⟨(bit + 3 + 7) / 8 + 4, by rw [Bits.alignByte]; omega⟩
  rw [hcount] at hbytes
  have hrest := hbytes.skip
  rw [bitString_length] at hrest
  refine ⟨_, ?_, hrest⟩
  apply crosses_of_body (show 0 < 4 by decide) h
  rw [decodeBody, if_pos rfl, decodeStored, hlength, result_bind_ok]
  dsimp only
  rw [hcomplement, result_bind_ok]
  dsimp only
  rw [ensure_of (by omega), result_bind_ok, hcount, hbytes.readAlignedBytes, result_bind_ok]
  rfl

private theorem crosses_chunks (chunks : List (List UInt8))
    (short : ∀ chunk ∈ chunks, chunk.length < 2 ^ 16) (aligned : w.bits = 0) (h : w.Wrote bits) :
    ∃ more, (chunks.foldl writeStored w).Wrote (bits ++ more) ∧
      (chunks.foldl writeStored w).bits = 0 ∧
      ∀ (data : List UInt8) (bit : Nat) (before : List UInt8) (rest : List Bool),
        bit % 8 = bits.length % 8 → Rests data bit (more ++ rest) →
          ∃ next, ReflTransGen (Crosses data) (bit, ⟨before⟩) (next, ⟨before ++ chunks.flatten⟩) ∧
            Rests data next rest := by
  induction chunks generalizing w bits with
  | nil =>
    refine ⟨[], by simpa using h, aligned, ?_⟩
    intro data bit before rest same hrests
    refine ⟨bit, ?_, hrests⟩
    rw [List.flatten_nil, List.append_nil]
  | cons chunk chunks ih =>
    have hshort := short chunk List.mem_cons_self
    obtain ⟨hwrote, hzero⟩ := h.writeStored hshort
    obtain ⟨more, hmore, haligned, hreads⟩ :=
      ih (fun other hmem => short other (List.mem_cons_of_mem _ hmem)) hzero hwrote
    refine ⟨storedBits bits chunk ++ more, ?_, haligned, ?_⟩
    · rwa [← List.append_assoc]
    · intro data bit before rest same hrests
      rw [List.append_assoc] at hrests
      have hplace := hrests.skip
      obtain ⟨next, hcrosses, hnext⟩ := crosses_stored hshort same hrests
      rw [hplace.unique hnext] at hplace
      obtain ⟨last, hsteps, hlast⟩ := hreads data next (before ++ chunk) rest
        (by rw [← hrests.skip.unique hnext, List.length_append]; omega) hnext
      refine ⟨last, ?_, hlast⟩
      rw [List.flatten_cons, ← List.append_assoc]
      exact .head hcrosses hsteps

theorem chunks_spec {size : Nat} (pos : 0 < size) (bytes : List UInt8) :
    (chunks size bytes).flatten = bytes ∧ ∀ chunk ∈ chunks size bytes, chunk.length ≤ size := by
  induction bytes using chunks.induct size with
  | case1 bytes done =>
    rw [chunks, dif_pos done]
    refine ⟨?_, by simp⟩
    rcases done with rfl | hzero
    · rfl
    · omega
  | case2 bytes more ih =>
    rw [chunks, dif_neg more]
    obtain ⟨hflatten, hlength⟩ := ih
    refine ⟨by rw [List.flatten_cons, hflatten, List.take_append_drop], ?_⟩
    intro chunk hmem
    rcases List.mem_cons.mp hmem with rfl | hmem
    · exact List.length_take_le _ _
    · exact hlength chunk hmem

theorem crosses_encodeStored (bytes : List UInt8) (aligned : bit % 8 = 0)
    (h : Rests data bit (bitString (encodeStored bytes) ++ rest)) :
    ∃ next, ReflTransGen (Crosses data) (bit, ⟨before⟩) (next, ⟨before ++ bytes⟩) ∧
      Rests data next rest := by
  obtain ⟨hflatten, hlength⟩ := @chunks_spec (2 ^ 16 - 1) (by decide) bytes
  obtain ⟨more, hwrote, hzero, hreads⟩ := crosses_chunks (chunks (2 ^ 16 - 1) bytes)
    (fun chunk hmem => Nat.lt_of_le_pred (by decide) (hlength chunk hmem)) rfl
    BitWriter.wrote_empty
  rw [encodeStored, hwrote.finishAligned hzero, List.nil_append] at h
  have hresult := hreads data bit before rest (by rw [aligned]; rfl) h
  rwa [hflatten] at hresult

/-- The code lengths of the fixed tables. -/
def fixedLiterals : List Nat :=
  List.replicate 144 8 ++ List.replicate 112 9 ++ List.replicate 24 7 ++ List.replicate 8 8

def fixedDistances : List Nat := List.replicate 32 5

theorem hasLength_of_getD {lengths : List Nat} {symbol : Nat} (pos : 0 < lengths.getD symbol 0) :
    HasLength lengths symbol (lengths.getD symbol 0) := by
  refine ⟨?_, pos⟩
  rw [List.getD_eq_getElem?_getD] at pos ⊢
  cases hget : lengths[symbol]? with
  | none => simp [hget] at pos
  | some length => rfl

theorem Huffman.exists_table {lengths : List Nat}
    (bounded : ∀ length ∈ lengths, length ≤ maxCodeBits) (fits : kraftSum lengths ≤ 1)
    (used : ∃ length ∈ lengths, length ≠ 0) :
    ∃ huffman, Huffman.new lengths = .ok huffman ∧ huffman.IsTable lengths := by
  obtain ⟨huffman, hnew⟩ := (new_accepts_iff lengths).mpr ⟨bounded, fits⟩
  exact ⟨huffman, hnew, isTable_new hnew used⟩

private theorem fixedLiterals_length : fixedLiterals.length = 288 := by
  simp only [fixedLiterals, List.length_append, List.length_replicate]

private theorem fixedDistances_length : fixedDistances.length = 32 := List.length_replicate

private theorem fixedLiterals_bounds {length : Nat} (mem : length ∈ fixedLiterals) :
    7 ≤ length ∧ length ≤ 9 := by
  simp only [fixedLiterals, List.mem_append, List.mem_replicate] at mem
  omega

private theorem fixedDistances_eq {length : Nat} (mem : length ∈ fixedDistances) : length = 5 :=
  (List.mem_replicate.mp mem).2

private theorem fixedTables_codes :
    ∃ tables, fixedTables = .ok tables ∧ CodeTables fixedLiterals fixedDistances tables := by
  have hbounded : ∀ length ∈ fixedLiterals, length ≤ maxCodeBits := fun length mem =>
    Nat.le_trans (fixedLiterals_bounds mem).2 (by decide)
  have hbounded' : ∀ length ∈ fixedDistances, length ≤ maxCodeBits := fun length mem =>
    Nat.le_trans (Nat.le_of_eq (fixedDistances_eq mem)) (by decide)
  obtain ⟨literal, hliteral, hliterals⟩ := Huffman.exists_table hbounded
    ((kraftSum_le_one_iff hbounded).mpr (by decide +kernel)) ⟨8, by decide +kernel, by decide⟩
  obtain ⟨distance, hdistance, hdistances⟩ := Huffman.exists_table hbounded'
    ((kraftSum_le_one_iff hbounded').mpr (by decide +kernel)) ⟨5, by decide +kernel, by decide⟩
  refine ⟨(literal, distance), ?_, hliterals, hdistances, ?_, ?_⟩
  rotate_left
  · rw [fixedLiterals_length]
    decide
  · rw [fixedDistances_length]
    decide
  show (Huffman.new fixedLiterals >>= fun _ => _) = _
  rw [hliteral, result_bind_ok]
  show (Huffman.new fixedDistances >>= fun _ => _) = _
  rw [hdistance]
  rfl

private theorem getD_pos {lengths : List Nat} {symbol : Nat} (pos : ∀ length ∈ lengths, 0 < length)
    (lt : symbol < lengths.length) : 0 < lengths.getD symbol 0 := by
  rw [List.getD_eq_getElem _ _ lt]
  exact pos _ (List.getElem_mem _)

private theorem fixedLiterals_coded : ∀ symbol < 288, 0 < fixedLiterals.getD symbol 0 := by
  intro symbol lt
  refine getD_pos (fun length mem => ?_) (by rw [fixedLiterals_length]; exact lt)
  exact Nat.lt_of_lt_of_le (by decide) (fixedLiterals_bounds mem).1

private theorem fixedDistances_coded : ∀ symbol < 30, 0 < fixedDistances.getD symbol 0 := by
  intro symbol lt
  refine getD_pos (fun length mem => ?_) (by rw [fixedDistances_length]; omega)
  rw [fixedDistances_eq mem]
  decide

private theorem code_run {front back : List Nat} {count k : Nat} (lt : k < count) :
    (front ++ (List.replicate count length ++ back)).getD (front.length + k) 0 = length ∧
      code (front ++ (List.replicate count length ++ back)) (front.length + k) =
        first (front ++ (List.replicate count length ++ back)) length +
          (front.count length + k) := by
  have hget : (front ++ (List.replicate count length ++ back)).getD (front.length + k) 0 =
      length := by
    rw [List.getD_eq_getElem?_getD, List.getElem?_append_right (Nat.le_add_right _ _),
      Nat.add_sub_cancel_left, List.getElem?_append_left (by simpa using lt),
      List.getElem?_replicate, if_pos lt, Option.getD_some]
  refine ⟨hget, ?_⟩
  rw [code, hget, List.take_length_add_append, List.count_append,
    List.take_append_of_le_length (by simpa using Nat.le_of_lt lt), List.take_replicate,
    Nat.min_eq_left (Nat.le_of_lt lt), List.count_replicate_self]

/-- The codes that are written out as numbers are the canonical ones. -/
theorem fixedCode_eq {symbol : Nat} (lt : symbol < 288) : fixedCode symbol =
    (Huffman.reverseLowBits (code fixedLiterals symbol) (fixedLiterals.getD symbol 0),
      fixedLiterals.getD symbol 0) := by
  have hseven : first fixedLiterals 7 = 0 := by decide +kernel
  have height : first fixedLiterals 8 = 0x30 := by decide +kernel
  have hnine : first fixedLiterals 9 = 0x190 := by decide +kernel
  unfold fixedLiterals at *
  simp only [List.append_assoc] at *
  rw [fixedCode]
  split
  case isTrue h =>
    obtain ⟨hget, hcode⟩ := @code_run 8 [] (List.replicate 112 9 ++ (List.replicate 24 7 ++
      List.replicate 8 8)) 144 symbol (by omega)
    simp only [List.nil_append, List.length_nil, Nat.zero_add, List.count_nil] at hget hcode
    rw [hget, hcode, height, reverseCode_eq (by decide)]
  case isFalse h =>
  split
  case isTrue h' =>
    obtain ⟨hget, hcode⟩ := @code_run 9 (List.replicate 144 8) (List.replicate 24 7 ++
      List.replicate 8 8) 112 (symbol - 144) (by omega)
    rw [List.length_replicate, Nat.add_sub_cancel' (by omega)] at hget hcode
    have hcount : (List.replicate 144 8).count 9 = 0 := by
      rw [List.count_replicate]
      rfl
    rw [hget, hcode, hnine, hcount, reverseCode_eq (by decide), Nat.zero_add]
  case isFalse h' =>
  split
  case isTrue h'' =>
    obtain ⟨hget, hcode⟩ := @code_run 7 (List.replicate 144 8 ++ List.replicate 112 9)
      (List.replicate 8 8) 24 (symbol - 256) (by omega)
    simp only [List.length_append, List.length_replicate, List.append_assoc] at hget hcode
    rw [show 144 + 112 + (symbol - 256) = symbol by omega] at hget hcode
    have hcount : (List.replicate 144 8 ++ List.replicate 112 9).count 7 = 0 := by
      rw [List.count_append, List.count_replicate, List.count_replicate]
      rfl
    rw [hget, hcode, hseven, hcount, reverseCode_eq (by decide), Nat.zero_add, Nat.zero_add]
  case isFalse h'' =>
    obtain ⟨hget, hcode⟩ := @code_run 8 (List.replicate 144 8 ++ (List.replicate 112 9 ++
      List.replicate 24 7)) [] 8 (symbol - 280) (by omega)
    simp only [List.length_append, List.length_replicate, List.append_assoc, List.append_nil]
      at hget hcode
    rw [show 144 + (112 + 24) + (symbol - 280) = symbol by omega] at hget hcode
    have hcount : (List.replicate 144 8 ++ (List.replicate 112 9 ++
        List.replicate 24 7)).count 8 = 144 := by
      rw [List.count_append, List.count_append, List.count_replicate, List.count_replicate,
        List.count_replicate]
      rfl
    rw [hget, hcode, height, hcount, reverseCode_eq (by decide), ← Nat.add_assoc]

private theorem reverseCode_distance {symbol : Nat} (lt : symbol < 30) : (reverseCode symbol 5, 5) =
    (Huffman.reverseLowBits (code fixedDistances symbol) (fixedDistances.getD symbol 0),
      fixedDistances.getD symbol 0) := by
  have hfirst : first fixedDistances 5 = 0 := by decide +kernel
  unfold fixedDistances at *
  obtain ⟨hget, hcode⟩ := @code_run 5 [] [] 32 symbol (by omega)
  simp only [List.nil_append, List.append_nil, List.length_nil, Nat.zero_add, List.count_nil]
    at hget hcode
  rw [hget, hcode, hfirst, reverseCode_eq (by decide), Nat.zero_add]

private theorem fixedLength_le : ∀ length ∈ fixedLiterals, length ≤ 16 := fun _ mem =>
  Nat.le_trans (fixedLiterals_bounds mem).2 (by decide)

private theorem fixedDistance_le : ∀ length ∈ fixedDistances, length ≤ 16 := fun _ mem =>
  Nat.le_trans (Nat.le_of_eq (fixedDistances_eq mem)) (by decide)

private theorem writeFixedSymbol_eq {symbol : Nat} (lt : symbol < 288) :
    writeFixedSymbol w symbol = writeCode w symbol (.of fixedLiterals) := by
  have has := hasLength_of_getD (fixedLiterals_coded symbol lt)
  rw [writeFixedSymbol, fixedCode_eq lt, writeCode, Coding.of,
    huffmanCodes_getD has (fixedLength_le _ has.mem)]

private theorem writeFixedToken_eq (legal : token.Legal available) :
    writeFixedToken w token = writeToken (.of fixedLiterals) (.of fixedDistances) w token := by
  cases token with
  | literal byte =>
    have hbyte := byte.toNat_lt
    exact writeFixedSymbol_eq (by omega)
  | copy length dist =>
    obtain ⟨hleast, hmost, hpos, hnear, -⟩ := legal
    have hlong : (lengthSymbol length).1 < 29 := (lengthSymbol_standsFor hleast hmost).inside
    have hfar : (distanceSymbol dist).1 < 30 := (distanceSymbol_standsFor hpos hnear).inside
    have has := hasLength_of_getD (fixedDistances_coded _ hfar)
    have hcode : (reverseCode (distanceSymbol dist).1 5, 5) =
        ((Coding.of fixedDistances).codes.getD (distanceSymbol dist).1 0,
          (Coding.of fixedDistances).lengths.getD (distanceSymbol dist).1 0) := by
      rw [reverseCode_distance hfar, Coding.of, huffmanCodes_getD has (fixedDistance_le _ has.mem)]
    obtain ⟨hreversed, hbits⟩ := Prod.mk.inj hcode
    rw [writeFixedToken, writeCopy, writeToken]
    dsimp only
    rw [writeFixedSymbol_eq (by omega), hreversed]
    simp only [writeCode, ← hbits]

private theorem fixed_coded (legal : token.Legal available) :
    token.Coded fixedLiterals fixedDistances := by
  cases token with
  | literal byte =>
    have hbyte := byte.toNat_lt
    exact ⟨_, hasLength_of_getD (fixedLiterals_coded _ (by omega))⟩
  | copy length dist =>
    obtain ⟨hleast, hmost, hpos, hnear, -⟩ := legal
    have hlong : (lengthSymbol length).1 < 29 := (lengthSymbol_standsFor hleast hmost).inside
    have hfar : (distanceSymbol dist).1 < 30 := (distanceSymbol_standsFor hpos hnear).inside
    exact ⟨⟨_, hasLength_of_getD (fixedLiterals_coded _ (by omega))⟩,
      ⟨_, hasLength_of_getD (fixedDistances_coded _ hfar)⟩⟩

theorem LegalFrom.legal (legal : LegalFrom output tokens) (mem : token ∈ tokens) :
    ∃ available, token.Legal available := by
  obtain ⟨front, back, heq⟩ := List.append_of_mem mem
  exact ⟨_, legal front token back heq⟩

private theorem foldl_writeFixedToken (legal : LegalFrom output tokens) :
    tokens.foldl writeFixedToken w =
      tokens.foldl (writeToken (.of fixedLiterals) (.of fixedDistances)) w := by
  apply List.foldl_ext
  intro w token hmem
  obtain ⟨available, hlegal⟩ := legal.legal hmem
  exact writeFixedToken_eq hlegal

/-- The block with the fixed codes and the boundary behind it. -/
theorem crosses_encodeFixed (legal : LegalFrom before tokens) (aligned : bit % 8 = 0)
    (h : Rests data bit (bitString (encodeFixed tokens) ++ rest)) :
    ∃ next, ReflTransGen (Crosses data) (bit, ⟨before⟩) (next, ⟨expand before tokens⟩) ∧
      Rests data next rest := by
  obtain ⟨tables, htables, codes⟩ := fixedTables_codes
  have hcoded : ∀ token ∈ tokens, token.Coded fixedLiterals fixedDistances := by
    intro token hmem
    obtain ⟨available, hlegal⟩ := legal.legal hmem
    exact fixed_coded hlegal
  have hends := hasLength_of_getD (fixedLiterals_coded 256 (by decide))
  have hheader := BitWriter.wrote_empty.writeBits (show 0b010 < 2 ^ 3 by decide)
  have hwrote := (hheader.writeTokens fixedLength_le fixedDistance_le hcoded legal).writeCode hends
    (fixedLength_le _ hends.mem)
  obtain ⟨hsync, hzero⟩ := hwrote.writeStored (show ([] : List UInt8).length < 2 ^ 16 by decide)
  rw [encodeFixed, foldl_writeFixedToken legal, writeFixedSymbol_eq (by decide), syncBoundary_eq,
    hsync.finishAligned hzero] at h
  simp only [List.nil_append, List.append_assoc] at h
  obtain ⟨next, hblock, hnext⟩ :=
    decodeHuffmanBlock_tokens codes hcoded ⟨_, hends⟩ legal h.after_read
  have hcrosses : Crosses data (bit, ⟨before⟩) (next, ⟨expand before tokens⟩) := by
    apply crosses_of_body (show 1 < 4 by decide) h
    rw [decodeBody, if_neg (by decide), if_pos rfl, htables, result_bind_ok]
    dsimp only
    rw [hblock]
    rfl
  have hplace := h
  rw [← List.append_assoc, ← List.append_assoc] at hplace
  have hsame := hplace.skip.unique hnext
  obtain ⟨last, hstored, hlast⟩ := @crosses_stored _ (expand before tokens) _ _ _ _
    (by decide) (by rw [← hsame]; simp; omega) hnext
  rw [List.append_nil] at hstored
  exact ⟨last, .head hcrosses (.single hstored), hlast⟩

end Fbz.Deflate
