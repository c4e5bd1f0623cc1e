import Fbz.Bzip2.Index

/-!
# Index files are what indexes encode to

Every field is read back as it was written, and an accepted file has no bytes but those of its
fields: the counts fix its length and the checksum is a function of the rest.
-/

namespace Fbz.Bzip2.Index

variable {rest left : List UInt8}

private theorem take_eq_ok {count : Nat} {bytes : List UInt8}
    (h : take count rest = .ok (bytes, left)) : rest = bytes ++ left ∧ bytes.length = count := by
  rw [take] at h
  split at h
  case isTrue hle =>
    cases h
    exact ⟨(List.take_append_drop count rest).symm, by rw [List.length_take]; omega⟩
  case isFalse => cases h

private theorem number_eq_ok {width n : Nat} (h : number width rest = .ok (n, left)) :
    rest = toLe width n ++ left ∧ n < 256 ^ width := by
  rw [number] at h
  obtain ⟨⟨bytes, after⟩, htake, h⟩ := result_bind_eq_ok.mp h
  cases h
  obtain ⟨rfl, rfl⟩ := take_eq_ok htake
  exact ⟨by rw [toLe_leNat], leNat_lt bytes⟩

private theorem uint32_of_lt {n : Nat} (lt : n < 256 ^ 4) : (UInt32.ofNat n).toNat = n := by
  rw [UInt32.toNat_ofNat']
  exact Nat.mod_eq_of_lt lt

private theorem takeStream_eq_ok {stream : StreamIndex} (h : takeStream rest = .ok (stream, left)) :
    rest = putStream stream ++ left := by
  rw [takeStream] at h
  obtain ⟨⟨header, r1⟩, h1, h⟩ := result_bind_eq_ok.mp h
  obtain ⟨⟨size, r2⟩, h2, h⟩ := result_bind_eq_ok.mp h
  obtain ⟨⟨firstBlock, r3⟩, h3, h⟩ := result_bind_eq_ok.mp h
  obtain ⟨⟨blockCount, r4⟩, h4, h⟩ := result_bind_eq_ok.mp h
  obtain ⟨⟨decodedStart, r5⟩, h5, h⟩ := result_bind_eq_ok.mp h
  obtain ⟨⟨decodedLen, r6⟩, h6, h⟩ := result_bind_eq_ok.mp h
  obtain ⟨⟨eosBit, r7⟩, h7, h⟩ := result_bind_eq_ok.mp h
  obtain ⟨⟨crc, r8⟩, h8, h⟩ := result_bind_eq_ok.mp h
  cases h
  have hsize : toLe 1 size = [UInt8.ofNat size] := rfl
  rw [(number_eq_ok h1).1, (number_eq_ok h2).1, (number_eq_ok h3).1, (number_eq_ok h4).1,
    (number_eq_ok h5).1, (number_eq_ok h6).1, (number_eq_ok h7).1, (number_eq_ok h8).1, putStream,
    uint32_of_lt (number_eq_ok h8).2, hsize]
  simp only [List.append_assoc]

private theorem takeBlock_eq_ok {block : BlockIndex} (h : takeBlock rest = .ok (block, left)) :
    rest = putBlock block ++ left := by
  rw [takeBlock] at h
  obtain ⟨⟨startBit, r1⟩, h1, h⟩ := result_bind_eq_ok.mp h
  obtain ⟨⟨endBit, r2⟩, h2, h⟩ := result_bind_eq_ok.mp h
  obtain ⟨⟨decodedStart, r3⟩, h3, h⟩ := result_bind_eq_ok.mp h
  obtain ⟨⟨decodedLen, r4⟩, h4, h⟩ := result_bind_eq_ok.mp h
  obtain ⟨⟨crc, r5⟩, h5, h⟩ := result_bind_eq_ok.mp h
  obtain ⟨⟨stream, r6⟩, h6, h⟩ := result_bind_eq_ok.mp h
  cases h
  rw [(number_eq_ok h1).1, (number_eq_ok h2).1, (number_eq_ok h3).1, (number_eq_ok h4).1,
    (number_eq_ok h5).1, (number_eq_ok h6).1, putBlock, uint32_of_lt (number_eq_ok h5).2]
  simp only [List.append_assoc]

private theorem takeRecords_eq_ok {α : Type} {put : α → List UInt8}
    {takeRecord : List UInt8 → Result (α × List UInt8)}
    (inverse : ∀ rest record left, takeRecord rest = .ok (record, left) →
      rest = put record ++ left)
    {count : Nat} {records : List α} (h : takeRecords takeRecord count rest = .ok (records, left)) :
    rest = records.flatMap put ++ left ∧ records.length = count := by
  induction count generalizing rest records with
  | zero =>
    cases h
    exact ⟨rfl, rfl⟩
  | succ count ih =>
    rw [takeRecords] at h
    obtain ⟨⟨record, after⟩, hrecord, h⟩ := result_bind_eq_ok.mp h
    obtain ⟨⟨others, last⟩, hothers, h⟩ := result_bind_eq_ok.mp h
    cases h
    obtain ⟨rfl, rfl⟩ := ih hothers
    rw [inverse _ _ _ hrecord, List.flatMap_cons, List.append_assoc]
    exact ⟨rfl, rfl⟩

variable (blake3 : Blake3)

/-- An accepted file is the encoding of its index. -/
theorem toBytes_fromBytes {encoded source : List UInt8} {index : Index}
    (h : fromBytes blake3 encoded source = .ok index) : index.toBytes blake3 = encoded := by
  rw [fromBytes] at h
  obtain ⟨_, -, h⟩ := result_bind_eq_ok.mp h
  dsimp only at h
  obtain ⟨_, hchecksum, h⟩ := result_bind_eq_ok.mp h
  obtain ⟨⟨foundMagic, r1⟩, h1, h⟩ := result_bind_eq_ok.mp h
  obtain ⟨_, hmagic, h⟩ := result_bind_eq_ok.mp h
  obtain ⟨⟨foundVersion, r2⟩, h2, h⟩ := result_bind_eq_ok.mp h
  obtain ⟨_, hversion, h⟩ := result_bind_eq_ok.mp h
  obtain ⟨⟨sourceLen, r3⟩, h3, h⟩ := result_bind_eq_ok.mp h
  obtain ⟨⟨sourceHash, r4⟩, h4, h⟩ := result_bind_eq_ok.mp h
  obtain ⟨⟨decodedLen, r5⟩, h5, h⟩ := result_bind_eq_ok.mp h
  obtain ⟨⟨streamCount, r6⟩, h6, h⟩ := result_bind_eq_ok.mp h
  obtain ⟨⟨blockCount, r7⟩, h7, h⟩ := result_bind_eq_ok.mp h
  obtain ⟨_, -, h⟩ := result_bind_eq_ok.mp h
  obtain ⟨_, -, h⟩ := result_bind_eq_ok.mp h
  obtain ⟨_, hlength, h⟩ := result_bind_eq_ok.mp h
  obtain ⟨⟨streams, r8⟩, h8, h⟩ := result_bind_eq_ok.mp h
  obtain ⟨⟨blocks, r9⟩, h9, h⟩ := result_bind_eq_ok.mp h
  obtain ⟨_, -, h⟩ := result_bind_eq_ok.mp h
  cases h
  rw [ensure_eq_ok] at hchecksum hmagic hversion hlength
  dsimp only at hmagic hversion hlength h2 h3 h4 h5 h6 h7 h8 h9
  subst hmagic hversion
  obtain ⟨hstreams, rfl⟩ := takeRecords_eq_ok (fun _ _ _ => takeStream_eq_ok) h8
  obtain ⟨hblocks, rfl⟩ := takeRecords_eq_ok (fun _ _ _ => takeBlock_eq_ok) h9
  have hnone : r9 = [] := by
    rw [hstreams, hblocks] at hlength
    simp only [List.length_append, flatMap_length_const putStream_length,
      flatMap_length_const putBlock_length] at hlength
    exact List.eq_nil_of_length_eq_zero (by omega)
  have hpayload : payload ⟨sourceLen, sourceHash, decodedLen, streams, blocks⟩ =
      encoded.take (encoded.length - checksumLen) := by
    rw [(take_eq_ok h1).1, (number_eq_ok h2).1, (number_eq_ok h3).1, (take_eq_ok h4).1,
      (number_eq_ok h5).1, (number_eq_ok h6).1, (number_eq_ok h7).1, hstreams, hblocks, hnone,
      payload]
    simp only [List.append_assoc, List.append_nil]
  rw [toBytes, hpayload, hchecksum, List.take_append_drop]

/-- What the types of the fields hold, and as many records as a vector has room for: at most
`isize::MAX` bytes, 56 for a stream and 48 for a block. -/
structure Typed (index : Index) : Prop where
  decodedLen : index.decodedLen < 2 ^ 64
  streams : ∀ stream ∈ index.streams, StreamFits stream
  blocks : ∀ block ∈ index.blocks, BlockFits block
  streamVec : index.streams.length * 56 < 2 ^ 63
  blockVec : index.blocks.length * 48 < 2 ^ 63

/-- A valid index is loaded again. -/
theorem fromBytes_of_validate {index : Index} {source : List UInt8} (typed : index.Typed)
    (valid : index.validate = .ok ()) (len : index.sourceLen = source.length)
    (hash : index.sourceHash = blake3.hash source) :
    fromBytes blake3 (index.toBytes blake3) source = .ok index := by
  have hsource : index.sourceLen * 8 < 2 ^ 64 := by
    rw [validate] at valid
    obtain ⟨_, hfits, -⟩ := result_bind_eq_ok.mp valid
    exact ensure_eq_ok.mp hfits
  have hstreams := typed.streamVec
  have hblocks := typed.blockVec
  have hfits : index.Fits blake3 source :=
    { sourceLen := len
      sourceHash := hash
      sourceFits := by omega
      decodedLen := typed.decodedLen
      streams := typed.streams
      blocks := typed.blocks
      records := by omega }
  rw [fromBytes_toBytes blake3 hfits, valid, result_bind_ok]
  rfl

/-- Decoding undoes encoding and encoding undoes decoding. -/
theorem encoding_inverse (source : List UInt8) :
    (∀ encoded index, fromBytes blake3 encoded source = .ok index →
      index.toBytes blake3 = encoded) ∧
      ∀ index : Index, index.Typed → index.validate = .ok () → index.sourceLen = source.length →
        index.sourceHash = blake3.hash source →
        fromBytes blake3 (index.toBytes blake3) source = .ok index :=
  ⟨fun _ _ => toBytes_fromBytes blake3, fun _ typed valid len hash =>
    fromBytes_of_validate blake3 typed valid len hash⟩

/-- The letter a, compressed. -/
def letter : List UInt8 :=
  [66, 90, 104, 57, 49, 65, 89, 38, 83, 89, 25, 147, 155, 107, 0, 0, 0, 1, 0, 32, 0, 32, 0, 33, 24,
    70, 130, 238, 72, 167, 10, 18, 3, 50, 115, 109, 96]

/-- What BLAKE3 is on the letter and, else, on its index. -/
def letterHash : Blake3 where
  hash bytes :=
    if bytes = letter then
      [83, 234, 22, 61, 143, 230, 236, 199, 71, 139, 82, 167, 253, 7, 91, 165, 181, 87, 133, 39,
        198, 148, 245, 91, 158, 205, 13, 27, 144, 10, 229, 218]
    else
      [190, 243, 90, 16, 250, 61, 150, 80, 181, 181, 28, 253, 202, 115, 83, 179, 83, 202, 82, 223,
        64, 137, 138, 186, 103, 78, 131, 201, 148, 122, 188, 166]
  hash_length bytes := by split <;> rfl

def letterIndex : Index :=
  new letterHash letter ⟨1, [⟨0, 9, 0, 1, 0, 1, 211, 429103979⟩], [⟨32, 211, 0, 1, 429103979, 0⟩]⟩

theorem letterIndex_typed : letterIndex.Typed where
  decodedLen := by decide
  streams stream hmem := by
    obtain rfl := List.mem_singleton.mp hmem
    constructor <;> decide
  blocks block hmem := by
    obtain rfl := List.mem_singleton.mp hmem
    constructor <;> decide
  streamVec := by decide
  blockVec := by decide

theorem encoding_inverse_letter :
    fromBytes letterHash (letterIndex.toBytes letterHash) letter = .ok letterIndex :=
  (encoding_inverse letterHash letter).2 letterIndex letterIndex_typed rfl rfl rfl

end Fbz.Bzip2.Index
