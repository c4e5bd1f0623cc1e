import Mathlib.Logic.Relation
import Fbz.Bzip2.Levels

/-!
# Decoding bzip2 on one thread

The loop over the streams of an input, each with its blocks and its combined checksum.
-/

namespace Fbz.Bzip2

/-- What the streams so far have delivered. -/
structure Decoded where
  output : List UInt8 := []
  decodedBytes : Nat := 0
  deriving DecidableEq, Repr

/-- A byte of the stream's magic; the position in the error is the source's. -/
def readMagicByte (data : List UInt8) (expected bit : Nat) : Result Nat := do
  let (value, bit) ← Bits.read data bit 8
  ensure (value = expected) (decodeError (bit - 24) .invalidMagic)
  return bit

/-- The level a stream's header declares, and the position behind it. -/
def readStreamHeader (data : List UInt8) (bit : Nat) : Result (Nat × Nat) := do
  ensure (32 ≤ Bits.remaining data bit) (decodeError bit .truncated)
  let bit ← readMagicByte data 0x42 bit
  let bit ← readMagicByte data 0x5a bit
  let bit ← readMagicByte data 0x68 bit
  let (level, bit) ← Bits.read data bit 8
  ensure (0x31 ≤ level ∧ level ≤ 0x39) (decodeError (bit - 8) .invalidLevel)
  return (level - 0x30, bit)

/-- With one more block. -/
def Decoded.deliver (d : Decoded) (block : List UInt8) : Result Decoded := do
  ensure (d.decodedBytes + block.length < 2 ^ 64)
    (.invalidConfiguration "decoded offset overflow")
  return ⟨d.output ++ block, d.decodedBytes + block.length⟩

/-- The checksum at the end of a stream, and the position behind it. -/
def checkStreamCrc (data : List UInt8) (markerOffset bit : Nat) (combinedCrc : UInt32) :
    Result Nat := do
  let (crc, bit) ← Bits.read data bit 32
  ensure (crc = combinedCrc.toNat) (decodeError markerOffset .crcMismatch)
  return bit

/-- The blocks of a stream from `bit` on. -/
def blocksFrom (data : List UInt8) (level bit : Nat) (combinedCrc : UInt32) (d : Decoded) :
    Result (Decoded × Nat) :=
  match _h : Bits.magic data bit with
  | .error error => .error error
  | .ok (magic, bodyBit) =>
    if magic = blockMagic then
      match _h' : decoderBlock data bodyBit level none with
      | .error error => .error error
      | .ok (block, next) =>
        match d.deliver block.output with
        | .error error => .error error
        | .ok d => blocksFrom data level next (combineStreamCrc combinedCrc block.storedCrc) d
    else if magic = endMagic then do
      let next ← checkStreamCrc data bit bodyBit combinedCrc
      return (d, next)
    else .error (decodeError bit .invalidMagic)
termination_by data.length * 8 - bit
decreasing_by
  have h1 := Bits.magic_next _h
  have h2 := decoderBlock_next _h'
  omega

/-- One stream at `bit`; returns the position behind it. -/
def decodeStream (data : List UInt8) (bit : Nat) (d : Decoded) : Result (Decoded × Nat) := do
  let (level, bit) ← readStreamHeader data bit
  blocksFrom data level bit 0 d

private theorem readMagicByte_next {data : List UInt8} {expected bit next : Nat}
    (h : readMagicByte data expected bit = .ok next) : next = bit + 8 ∧ next ≤ data.length * 8 := by
  simp only [readMagicByte, result_bind_eq_ok] at h
  obtain ⟨⟨value, after⟩, hread, _, -, heq⟩ := h
  cases heq
  have := Bits.read_next hread
  dsimp only
  omega

theorem readStreamHeader_next {data : List UInt8} {bit level next : Nat}
    (h : readStreamHeader data bit = .ok (level, next)) :
    next = bit + 32 ∧ next ≤ data.length * 8 := by
  simp only [readStreamHeader, result_bind_eq_ok] at h
  obtain ⟨_, -, bit1, h1, bit2, h2, bit3, h3, ⟨value, bit4⟩, h4, _, -, heq⟩ := h
  cases heq
  have h1 := readMagicByte_next h1
  have h2 := readMagicByte_next h2
  have h3 := readMagicByte_next h3
  have h4 := Bits.read_next h4
  dsimp only
  omega

theorem checkStreamCrc_next {data : List UInt8} {markerOffset bit next : Nat}
    {combinedCrc : UInt32} (h : checkStreamCrc data markerOffset bit combinedCrc = .ok next) :
    next = bit + 32 ∧ next ≤ data.length * 8 := by
  simp only [checkStreamCrc, result_bind_eq_ok] at h
  obtain ⟨⟨crc, after⟩, hread, _, -, heq⟩ := h
  cases heq
  have := Bits.read_next hread
  dsimp only
  omega

private theorem blocksFrom_eq (data : List UInt8) (level bit : Nat) (combinedCrc : UInt32)
    (d : Decoded) : blocksFrom data level bit combinedCrc d =
      match Bits.magic data bit with
      | .error error => .error error
      | .ok (magic, bodyBit) =>
        if magic = blockMagic then
          match decoderBlock data bodyBit level none with
          | .error error => .error error
          | .ok (block, next) =>
            match d.deliver block.output with
            | .error error => .error error
            | .ok d => blocksFrom data level next (combineStreamCrc combinedCrc block.storedCrc) d
        else if magic = endMagic then do
          let next ← checkStreamCrc data bit bodyBit combinedCrc
          return (d, next)
        else .error (decodeError bit .invalidMagic) := by
  rw [blocksFrom]
  split
  · simp only [*]
  · next hmagic =>
    simp only [hmagic]
    split
    · split <;> simp only [*]
    · rfl

/-- The blocks of a stream that is accepted, one at a time. -/
inductive Blocks (data : List UInt8) (level : Nat) :
    Nat → UInt32 → Decoded → Decoded × Nat → Prop
  | block {bit bodyBit next : Nat} {combinedCrc : UInt32} {d d' : Decoded}
      {block : DecodedBlock} {result : Decoded × Nat}
      (magic : Bits.magic data bit = .ok (blockMagic, bodyBit))
      (decoded : decoderBlock data bodyBit level none = .ok (block, next))
      (delivered : d.deliver block.output = .ok d')
      (rest : Blocks data level next (combineStreamCrc combinedCrc block.storedCrc) d' result) :
      Blocks data level bit combinedCrc d result
  | last {bit bodyBit next : Nat} {combinedCrc : UInt32} {d : Decoded}
      (magic : Bits.magic data bit = .ok (endMagic, bodyBit))
      (checked : checkStreamCrc data bit bodyBit combinedCrc = .ok next) :
      Blocks data level bit combinedCrc d (d, next)

theorem blocksFrom_eq_ok {data : List UInt8} {level bit : Nat} {combinedCrc : UInt32}
    {d : Decoded} {result : Decoded × Nat} :
    blocksFrom data level bit combinedCrc d = .ok result ↔
      Blocks data level bit combinedCrc d result := by
  constructor
  · intro h
    induction bit, combinedCrc, d using blocksFrom.induct data level with
    | case1 bit combinedCrc d error hmagic => simp [blocksFrom_eq, hmagic] at h
    | case2 bit combinedCrc d bodyBit error hblock hmagic =>
      simp [blocksFrom_eq, hmagic, hblock] at h
    | case3 bit combinedCrc d bodyBit block next hblock error hdeliver hmagic =>
      simp [blocksFrom_eq, hmagic, hblock, hdeliver] at h
    | case4 bit combinedCrc d bodyBit block next hblock d' hdeliver hmagic ih =>
      rw [blocksFrom_eq] at h
      simp only [hmagic, hblock, hdeliver, if_true] at h
      exact .block hmagic hblock hdeliver (ih h)
    | case5 bit combinedCrc d bodyBit hmagic hother =>
      rw [blocksFrom_eq] at h
      simp only [hmagic, hother, if_true, if_false] at h
      obtain ⟨next, hcheck, heq⟩ := result_bind_eq_ok.mp h
      cases heq
      exact .last hmagic hcheck
    | case6 bit combinedCrc d magic bodyBit hmagic hblock hend =>
      simp [blocksFrom_eq, hmagic, hblock, hend] at h
  · intro h
    induction h with
    | block magic decoded delivered _ ih =>
      rw [blocksFrom_eq]
      simp only [magic, decoded, delivered, if_true]
      exact ih
    | last magic checked =>
      rw [blocksFrom_eq]
      simp only [magic, if_neg (show ¬ endMagic = blockMagic by decide), if_true, checked]
      rfl

private theorem Blocks.next {data : List UInt8} {level bit : Nat} {combinedCrc : UInt32}
    {d : Decoded} {result : Decoded × Nat} (h : Blocks data level bit combinedCrc d result) :
    bit < result.2 ∧ result.2 ≤ data.length * 8 := by
  induction h with
  | block magic decoded _ _ ih =>
    have h1 := Bits.magic_next magic
    have h2 := decoderBlock_next decoded
    omega
  | last magic checked =>
    have h1 := Bits.magic_next magic
    have h2 := checkStreamCrc_next checked
    dsimp only
    omega

private theorem decodeStream_next {data : List UInt8} {bit next : Nat} {d e : Decoded}
    (h : decodeStream data bit d = .ok (e, next)) : bit < next ∧ next ≤ data.length * 8 := by
  obtain ⟨⟨level, bit1⟩, hheader, hblocks⟩ := result_bind_eq_ok.mp h
  have h1 := readStreamHeader_next hheader
  have h2 := (blocksFrom_eq_ok.mp hblocks).next
  dsimp only at h2
  omega

theorem Bits.alignByte_bounds {data : List UInt8} {bit : Nat} (h : bit ≤ data.length * 8) :
    bit ≤ alignByte bit ∧ alignByte bit ≤ data.length * 8 := by
  unfold alignByte
  omega

/-- The streams from `bit` on. -/
def streamsFrom (data : List UInt8) (bit : Nat) (d : Decoded) : Result Decoded :=
  if _hmore : Bits.remaining data bit ≠ 0 then
    match _h : decodeStream data (Bits.alignByte bit) d with
    | .error error => .error error
    | .ok (d, next) => streamsFrom data (Bits.alignByte next) d
  else .ok d
termination_by data.length * 8 - bit
decreasing_by
  have h1 := decodeStream_next _h
  have h2 := Bits.alignByte_bounds h1.2
  unfold Bits.remaining at _hmore
  have h3 := (@Bits.alignByte_bounds data bit (by omega)).1
  omega

/-- `decode_serial_with_progress`: the bytes the sink gets. -/
def decodeSerial (data : List UInt8) : Result (List UInt8) := do
  let bit ← Bits.start data 0
  let d ← streamsFrom data bit {}
  return d.output

/-- `decompress_to_sink_with_progress` with one thread. -/
def decompressSerial (data : List UInt8) (options : DecodeOptions) : Result (List UInt8) := do
  let _ ← options.validate
  decodeSerial data

/-- One turn of the loop that does not fail. -/
def Turn (data : List UInt8) (before after : Nat × Decoded) : Prop :=
  Bits.remaining data before.1 ≠ 0 ∧
    ∃ next, decodeStream data (Bits.alignByte before.1) before.2 = .ok (after.2, next) ∧
      after.1 = Bits.alignByte next

theorem Turn.advances {data : List UInt8} {before after : Nat × Decoded}
    (h : Turn data before after) : before.1 < after.1 ∧ after.1 ≤ data.length * 8 := by
  obtain ⟨hmore, next, hstream, heq⟩ := h
  have h1 := decodeStream_next hstream
  have h2 := Bits.alignByte_bounds h1.2
  unfold Bits.remaining at hmore
  have h3 := (@Bits.alignByte_bounds data before.1 (by omega)).1
  omega

private theorem streamsFrom_turns {data : List UInt8} {before after : Nat × Decoded}
    (h : Relation.ReflTransGen (Turn data) before after) :
    streamsFrom data before.1 before.2 = streamsFrom data after.1 after.2 := by
  induction h using Relation.ReflTransGen.head_induction_on with
  | refl => rfl
  | head hturn _ ih =>
    obtain ⟨hmore, next, hstream, heq⟩ := hturn
    rw [← ih, heq, streamsFrom, dif_pos hmore]
    split <;> simp_all

private theorem streamsFrom_eq_ok {data : List UInt8} {bit : Nat} {d e : Decoded} :
    streamsFrom data bit d = .ok e ↔
      ∃ stop, Relation.ReflTransGen (Turn data) (bit, d) (stop, e) ∧ data.length * 8 ≤ stop := by
  constructor
  · intro h
    induction bit, d using streamsFrom.induct data with
    | case1 bit d hmore error hstream =>
      rw [streamsFrom, dif_pos hmore] at h
      split at h <;> simp_all
    | case2 bit d hmore d' next hstream ih =>
      have hturn : Turn data (bit, d) (Bits.alignByte next, d') := ⟨hmore, next, hstream, rfl⟩
      obtain ⟨stop, hturns, hend⟩ := ih ((streamsFrom_turns (.single hturn)).symm.trans h)
      exact ⟨stop, .head hturn hturns, hend⟩
    | case3 bit d hend =>
      rw [streamsFrom, dif_neg hend] at h
      cases h
      exact ⟨bit, .refl, by unfold Bits.remaining at hend; omega⟩
  · rintro ⟨stop, hturns, hend⟩
    rw [streamsFrom_turns hturns, streamsFrom, dif_neg (by unfold Bits.remaining; omega)]

theorem decompressSerial_eq_ok {data output : List UInt8} {options : DecodeOptions} :
    decompressSerial data options = .ok output ↔
      (∃ valid, options.validate = .ok valid) ∧
        ∃ stop d, Relation.ReflTransGen (Turn data) (0, {}) (stop, d) ∧ data.length * 8 ≤ stop ∧
          output = d.output := by
  have hstart : Bits.start data 0 = .ok 0 := by
    rw [Bits.start, ensure_of (Nat.zero_le _)]
    rfl
  simp only [decompressSerial, decodeSerial, hstart, result_bind_ok, result_bind_eq_ok,
    streamsFrom_eq_ok]
  constructor
  · rintro ⟨valid, hvalid, d, ⟨stop, hturns, hend⟩, heq⟩
    cases heq
    exact ⟨⟨valid, hvalid⟩, stop, d, hturns, hend, rfl⟩
  · rintro ⟨⟨valid, hvalid⟩, stop, d, hturns, hend, rfl⟩
    exact ⟨valid, hvalid, d, ⟨stop, hturns, hend⟩, rfl⟩

end Fbz.Bzip2
