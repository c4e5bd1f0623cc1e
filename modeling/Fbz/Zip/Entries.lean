import Fbz.Deflate.EncodedSize
import Fbz.Zip.Create

/-!
# ZIP entries

Local header, data and descriptor of an entry, for files that are compressed at once and for files
that go through the streaming encoder. Whether an entry has 64-bit sizes is settled by the size of
the file, before anything is compressed.
-/

namespace Fbz.Zip

open Deflate Pipeline

inductive Kind
  | file
  | directory
  | symlink
  deriving DecidableEq

/-- An entry as it is found; `source` stands for the path, which the records do not need. -/
structure Entry where
  /-- UTF-8 -/
  name : List UInt8
  kind : Kind
  size : UInt64
  mode : UInt32
  modified : Option UInt32

def methodStored : UInt16 := 0

def methodDeflate : UInt16 := 8

def localExtra (entry : Entry) (zip64 : Bool) : List UInt8 :=
  (if zip64 then toLe 2 1 ++ toLe 2 16 ++ toLe 8 entry.size.toNat ++ toLe 8 0 else []) ++
  timestampExtra entry.modified

def writeLocalHeader (entry : Entry) (method : UInt16) (zip64 : Bool) : Result (List UInt8) := do
  let nameLength ← length16 entry.name "ZIP path exceeds 65535 bytes"
  let extraLength ← length16 (localExtra entry zip64) "ZIP local extra data is too large"
  return toLe 4 0x04034b50 ++ toLe 2 (if zip64 then 45 else 20) ++ toLe 2 utf8DataDescriptor ++
    toLe 2 method.toNat ++ toLe 2 0 ++ toLe 2 0 ++ toLe 4 0 ++
    toLe 4 (if zip64 then u32Max else 0) ++ toLe 4 (if zip64 then u32Max else 0) ++
    toLe 2 nameLength ++ toLe 2 extraLength ++ entry.name ++ localExtra entry zip64

def writeDescriptor (crc : UInt32) (compressed uncompressed : UInt64) (zip64 : Bool) :
    Result (List UInt8) :=
  if zip64 then
    .ok (toLe 4 0x08074b50 ++ toLe 4 crc.toNat ++ toLe 8 compressed.toNat ++
      toLe 8 uncompressed.toNat)
  else do
    ensure (compressed.toNat ≤ u32Max)
      (.invalidZip "compressed ZIP entry unexpectedly requires Zip64")
    ensure (uncompressed.toNat ≤ u32Max) (.invalidZip "ZIP entry unexpectedly requires Zip64")
    return toLe 4 0x08074b50 ++ toLe 4 crc.toNat ++ toLe 4 compressed.toNat ++
      toLe 4 uncompressed.toNat

/-- Header, data and descriptor, and the entry of the central directory. The lengths are those of
byte strings, which are below `2 ^ 64`. -/
def writeEntry (localOffset : Nat) (entry : Entry) (method : UInt16) (zip64 : Bool)
    (bytes : List UInt8) (crc uncompressed : Nat) : Result (List UInt8 × CentralEntry) := do
  let header ← writeLocalHeader entry method zip64
  let descriptor ← writeDescriptor (UInt32.ofNat crc) (UInt64.ofNat bytes.length)
    (UInt64.ofNat uncompressed) zip64
  return (header ++ bytes ++ descriptor,
    { name := entry.name, method, crc := UInt32.ofNat crc
      compressedSize := UInt64.ofNat bytes.length
      uncompressedSize := UInt64.ofNat uncompressed
      localOffset := UInt64.ofNat localOffset
      mode := entry.mode, modified := entry.modified, zip64 })

structure Prepared where
  entry : Entry
  bytes : List UInt8
  method : UInt16
  crc : Nat
  uncompressedSize : Nat

/-- `prepare`, with what `stored_bytes` has read. -/
def prepare (crc : Crc32) (entry : Entry) (plain : List UInt8) (level : Nat) : Result Prepared :=
  if entry.kind ≠ .file then
    .ok ⟨entry, plain, methodStored, crc.hash plain, plain.length⟩
  else do
    let (encoded, report) ← compressBytesSerial crc plain level
    if encoded.length < plain.length then
      return ⟨entry, encoded, methodDeflate, report.crc, report.inputLen⟩
    else return ⟨entry, plain, methodStored, crc.hash plain, plain.length⟩

def writePrepared (localOffset : Nat) (prepared : Prepared) :
    Result (List UInt8 × CentralEntry) :=
  writeEntry localOffset prepared.entry prepared.method
    (mayNeedZip64 (UInt64.ofNat prepared.uncompressedSize)) prepared.bytes prepared.crc
    prepared.uncompressedSize

/-- `write_large`, with the bytes that the encoder has written and its report. -/
def writeLarge (localOffset : Nat) (entry : Entry) (encoded : List UInt8)
    (report : Encode.Report) : Result (List UInt8 × CentralEntry) :=
  writeEntry localOffset entry methodDeflate (mayNeedZip64 entry.size) encoded report.crc
    report.inputLen

/-- The least size that makes an entry a Zip64 entry from the start. -/
def zip64Size : Nat := 0xff000000

private theorem encodedBound_le {length : Nat} (small : length < zip64Size) :
    encodedBound length ≤ u32Max := by
  rw [zip64Size] at small
  rw [encodedBound, u32Max]
  omega

private theorem toNat_ofNat_le {length : Nat} (le : length ≤ u32Max) :
    (UInt64.ofNat length).toNat = length := by
  rw [UInt64.toNat_ofNat']
  rw [u32Max] at le
  exact Nat.mod_eq_of_lt (by omega)

private theorem mayNeedZip64_small {length : Nat} (small : length < zip64Size) :
    mayNeedZip64 (UInt64.ofNat length) = false := by
  rw [zip64Size] at small
  rw [mayNeedZip64, toNat_ofNat_le (by rw [u32Max]; omega)]
  exact decide_eq_false (by omega)

private theorem writeDescriptor_ok (crc : UInt32) {compressed uncompressed : Nat}
    (hc : compressed ≤ u32Max) (hu : uncompressed ≤ u32Max) :
    ∃ descriptor, writeDescriptor crc (UInt64.ofNat compressed) (UInt64.ofNat uncompressed) false =
      .ok descriptor := by
  have hc' : (UInt64.ofNat compressed).toNat ≤ u32Max := by rwa [toNat_ofNat_le hc]
  have hu' : (UInt64.ofNat uncompressed).toNat ≤ u32Max := by rwa [toNat_ofNat_le hu]
  simp only [writeDescriptor, ensure, if_pos hc', if_pos hu']
  exact ⟨_, rfl⟩

/-- An entry whose sizes all fit in 32 bits, in its descriptor and in the central directory. -/
structure Small (entry : CentralEntry) : Prop where
  started : entry.zip64 = false
  compressed : compressed64 entry = false
  uncompressed : size64 entry = false

/-- Writing gives an entry with such sizes, and fails over nothing but a name that is too long. -/
structure WritesSmall (entry : Entry) (write : Result (List UInt8 × CentralEntry)) : Prop where
  small : ∀ written central, write = .ok (written, central) → Small central
  fails : ∀ error, write = .error error →
    u16Max < entry.name.length ∧ error = .invalidZip "ZIP path exceeds 65535 bytes"

private theorem writeLocalHeader_error {entry : Entry} {method : UInt16} {error : Error}
    (h : writeLocalHeader entry method false = .error error) :
    u16Max < entry.name.length ∧ error = .invalidZip "ZIP path exceeds 65535 bytes" := by
  have hextra : (localExtra entry false).length ≤ u16Max := by
    have hstamp : (timestampExtra entry.modified).length ≤ 9 := by
      cases entry.modified <;> simp [timestampExtra]
    exact Nat.le_trans hstamp (by decide)
  by_cases hname : entry.name.length ≤ u16Max
  · rw [writeLocalHeader, length16_of_le hname, length16_of_le hextra] at h
    cases h
  · have hlong : length16 entry.name "ZIP path exceeds 65535 bytes" =
        .error (.invalidZip "ZIP path exceeds 65535 bytes") := if_neg hname
    rw [writeLocalHeader, hlong] at h
    cases h
    exact ⟨Nat.not_le.mp hname, rfl⟩

private theorem writeEntry_small {entry : Entry} {method : UInt16} {bytes : List UInt8}
    {localOffset crc uncompressed : Nat} (hc : bytes.length ≤ u32Max) (hu : uncompressed ≤ u32Max) :
    WritesSmall entry (writeEntry localOffset entry method false bytes crc uncompressed) := by
  constructor
  case small =>
    intro written central h
    obtain ⟨header, -, h⟩ := result_bind_eq_ok.mp h
    obtain ⟨descriptor, -, h⟩ := result_bind_eq_ok.mp h
    cases h
    refine ⟨rfl, ?_, ?_⟩
    · refine decide_eq_false (Nat.not_lt.mpr ?_)
      show (UInt64.ofNat bytes.length).toNat ≤ u32Max
      rwa [toNat_ofNat_le hc]
    · refine decide_eq_false (Nat.not_lt.mpr ?_)
      show (UInt64.ofNat uncompressed).toNat ≤ u32Max
      rwa [toNat_ofNat_le hu]
  case fails =>
    intro error h
    obtain ⟨descriptor, hdescriptor⟩ := writeDescriptor_ok (UInt32.ofNat crc) hc hu
    rw [writeEntry] at h
    cases hheader : writeLocalHeader entry method false with
    | error error' =>
      rw [hheader] at h
      cases h
      exact writeLocalHeader_error hheader
    | ok header =>
      rw [hheader, hdescriptor] at h
      cases h

private theorem prepare_spec {crc : Crc32} {entry : Entry} {plain : List UInt8} {level : Nat}
    {prepared : Prepared} (h : prepare crc entry plain level = .ok prepared) :
    prepared.entry = entry ∧ prepared.bytes.length ≤ plain.length ∧
      prepared.uncompressedSize = plain.length := by
  unfold prepare at h
  split at h
  case isTrue =>
    cases h
    exact ⟨rfl, Nat.le_refl _, rfl⟩
  case isFalse =>
    obtain ⟨⟨encoded, report⟩, hserial, h⟩ := result_bind_eq_ok.mp h
    dsimp only at h
    split at h
    case isTrue shorter =>
      cases h
      obtain ⟨_, -, hserial⟩ := result_bind_eq_ok.mp hserial
      cases hserial
      exact ⟨rfl, Nat.le_of_lt shorter, rfl⟩
    case isFalse =>
      cases h
      exact ⟨rfl, Nat.le_refl _, rfl⟩

private theorem prepare_ok {crc : Crc32} {entry : Entry} {plain : List UInt8} {level : Nat}
    (lo : 1 ≤ level) (hi : level ≤ 9) : ∃ prepared, prepare crc entry plain level = .ok prepared := by
  obtain ⟨encoded, report, hserial, -⟩ := compressBytesSerial_ok crc plain lo hi
  rw [prepare, hserial]
  split
  · exact ⟨_, rfl⟩
  · simp only [result_bind_ok]
    split
    · exact ⟨_, rfl⟩
    · exact ⟨_, rfl⟩

/-- A file below the size from which entries begin as Zip64 entries has a compressed length of 32
bits, whether it is compressed at once or by the streaming encoder, in segments of any size, on any
number of workers and from any split of its bytes. Its sizes never make writing the entry fail. -/
theorem compressed_fits (crc : Crc32) (entry : Entry) (content : List UInt8)
    (unchanged : entry.size.toNat = content.length) (small : content.length < zip64Size) :
    (∀ level, 1 ≤ level → level ≤ 9 → ∃ prepared, prepare crc entry content level = .ok prepared ∧
      prepared.bytes.length ≤ u32Max ∧
      ∀ localOffset, WritesSmall entry (writePrepared localOffset prepared)) ∧
    ∀ options parallelism (writes : List (List UInt8)) before e, writes.flatten = content →
      Encode.start crc options parallelism (writes.map .write) before = .ok e →
      Transition.Inevitable (Encode.client crc).Step (fun s => s.status = .finished ∧
        ∃ encoded, s.back.finish.1 = before ++ encoded ∧ encoded.length ≤ u32Max ∧
          ∀ localOffset, WritesSmall entry (writeLarge localOffset entry encoded s.back.finish.2))
        e := by
  have hcontent : content.length ≤ u32Max := by
    rw [zip64Size] at small
    rw [u32Max]
    omega
  constructor
  · intro level lo hi
    obtain ⟨prepared, hprepared⟩ := @prepare_ok crc entry content level lo hi
    obtain ⟨hentry, hbytes, hsize⟩ := prepare_spec hprepared
    have hlength := Nat.le_trans hbytes hcontent
    refine ⟨prepared, hprepared, hlength, fun localOffset => ?_⟩
    rw [writePrepared, hsize, mayNeedZip64_small small, hentry]
    exact writeEntry_small hlength hcontent
  · intro options parallelism writes before e hwrites hstart
    apply (Encode.start_encodes hstart).mono
    rintro s ⟨hfinished, encoded, hencodes⟩
    have hlength : encoded.length ≤ u32Max :=
      Nat.le_trans hencodes.bound (encodedBound_le (hwrites ▸ small))
    refine ⟨hfinished, encoded, hencodes.output, hlength, fun localOffset => ?_⟩
    have hzip64 : mayNeedZip64 entry.size = false := by
      rw [← mayNeedZip64_small small, ← unchanged, UInt64.ofNat_toNat]
    rw [writeLarge, hzip64, hencodes.inputLen, hwrites]
    exact writeEntry_small hlength hcontent

/-- Three bytes, at once at level six and in two writes to an encoder. -/
theorem compressed_fits_three :
    (∃ prepared, prepare .reference ⟨[97], .file, 3, 0o100644, none⟩ [1, 2, 3] 6 = .ok prepared ∧
      prepared.bytes.length ≤ u32Max) ∧
    ∃ e, Encode.start .reference ⟨1, 2 ^ 26, none⟩ 1 ([[1, 2], [3]].map .write) [] = .ok e ∧
      Transition.Inevitable (Encode.client .reference).Step (fun s => s.status = .finished ∧
        ∃ encoded, s.back.finish.1 = [] ++ encoded ∧ encoded.length ≤ u32Max) e := by
  have hfits := compressed_fits .reference ⟨[97], .file, 3, 0o100644, none⟩ [1, 2, 3] rfl (by decide)
  constructor
  · obtain ⟨prepared, hprepared, hlength, -⟩ := hfits.1 6 (by decide) (by decide)
    exact ⟨prepared, hprepared, hlength⟩
  · obtain ⟨e, he⟩ := @Encode.start_accepts ⟨1, 2 ^ 26, none⟩ .reference 1
      ([[1, 2], [3]].map .write) [] rfl (by decide)
    refine ⟨e, he, (hfits.2 _ _ _ _ _ rfl he).mono ?_⟩
    rintro s ⟨hfinished, encoded, houtput, hlength, -⟩
    exact ⟨hfinished, encoded, houtput, hlength⟩

end Fbz.Zip
