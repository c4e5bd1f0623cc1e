import Fbz.Bytes

/-!
# ZIP records

The records `zip.rs` writes around the compressed bytes of the entries. Positions are natural
numbers: an output has fewer than `2 ^ 64` bytes.
-/

namespace Fbz.Zip

structure CentralEntry where
  /-- UTF-8 -/
  name : List UInt8
  method : UInt16
  crc : UInt32
  compressedSize : UInt64
  uncompressedSize : UInt64
  localOffset : UInt64
  mode : UInt32
  modified : Option UInt32
  zip64 : Bool

def u16Max : Nat := 0xFFFF

def u32Max : Nat := 0xFFFFFFFF

def utf8DataDescriptor : Nat := 0x0808

/-- How the `zip64` field of an entry is chosen when its local header is written. -/
def mayNeedZip64 (size : UInt64) : Bool := size.toNat ≥ 0xff000000

/-- A length that has to fit in 16 bits. -/
def length16 (bytes : List UInt8) (message : String) : Result Nat :=
  if bytes.length ≤ u16Max then .ok bytes.length else .error (.invalidZip message)

def timestampExtra : Option UInt32 → List UInt8
  | none => []
  | some modified => toLe 2 0x5455 ++ toLe 2 5 ++ [1] ++ toLe 4 modified.toNat

def size64 (entry : CentralEntry) : Bool := entry.uncompressedSize.toNat > u32Max

def compressed64 (entry : CentralEntry) : Bool := entry.compressedSize.toNat > u32Max

def offset64 (entry : CentralEntry) : Bool := entry.localOffset.toNat > u32Max

def zip64Values (entry : CentralEntry) : List UInt8 :=
  (if size64 entry then toLe 8 entry.uncompressedSize.toNat else []) ++
  (if compressed64 entry then toLe 8 entry.compressedSize.toNat else []) ++
  (if offset64 entry then toLe 8 entry.localOffset.toNat else [])

def centralExtra (entry : CentralEntry) : List UInt8 :=
  (if (zip64Values entry).isEmpty then []
    else toLe 2 1 ++ toLe 2 (zip64Values entry).length ++ zip64Values entry) ++
  timestampExtra entry.modified

def writeCentral (entry : CentralEntry) : Result (List UInt8) := do
  let needed := if entry.zip64 || !(zip64Values entry).isEmpty then 45 else 20
  let nameLength ← length16 entry.name "ZIP path exceeds 65535 bytes"
  let extraLength ← length16 (centralExtra entry) "ZIP central extra data is too large"
  .ok (toLe 4 0x02014b50 ++ toLe 2 (3 <<< 8 ||| needed) ++ toLe 2 needed ++
    toLe 2 utf8DataDescriptor ++ toLe 2 entry.method.toNat ++ toLe 2 0 ++ toLe 2 0 ++
    toLe 4 entry.crc.toNat ++
    toLe 4 (if compressed64 entry then u32Max else entry.compressedSize.toNat) ++
    toLe 4 (if size64 entry then u32Max else entry.uncompressedSize.toNat) ++
    toLe 2 nameLength ++ toLe 2 extraLength ++ toLe 2 0 ++ toLe 2 0 ++ toLe 2 0 ++
    toLe 4 (entry.mode <<< 16).toNat ++
    toLe 4 (if offset64 entry then u32Max else entry.localOffset.toNat) ++
    entry.name ++ centralExtra entry)

def writeCentrals : List CentralEntry → Result (List UInt8)
  | [] => .ok []
  | entry :: rest => do
    let record ← writeCentral entry
    let records ← writeCentrals rest
    .ok (record ++ records)

/-- The condition for a Zip64 end record. -/
def archive64 (central : List CentralEntry) (centralStart centralSize : Nat) : Bool :=
  central.any (fun entry => entry.zip64) || central.length > u16Max || centralStart > u32Max ||
    centralSize > u32Max

/-- The Zip64 end record and its locator. -/
def zip64End (count centralStart centralSize : Nat) : List UInt8 :=
  toLe 4 0x06064b50 ++ toLe 8 44 ++ toLe 2 (3 <<< 8 ||| 45) ++ toLe 2 45 ++ toLe 4 0 ++ toLe 4 0 ++
  toLe 8 count ++ toLe 8 count ++ toLe 8 centralSize ++ toLe 8 centralStart ++
  toLe 4 0x07064b50 ++ toLe 4 0 ++ toLe 8 (centralStart + centralSize) ++ toLe 4 1

def endRecord (count centralStart centralSize : Nat) : List UInt8 :=
  toLe 4 0x06054b50 ++ toLe 2 0 ++ toLe 2 0 ++ toLe 2 (min count u16Max) ++
  toLe 2 (min count u16Max) ++ toLe 4 (min centralSize u32Max) ++
  toLe 4 (min centralStart u32Max) ++ toLe 2 0

/-- What `finish_archive` writes at position `centralStart`. -/
def finishArchive (centralStart : Nat) (central : List CentralEntry) : Result (List UInt8) := do
  let records ← writeCentrals central
  .ok (records ++
    (if archive64 central centralStart records.length then
      zip64End central.length centralStart records.length else []) ++
    endRecord central.length centralStart records.length)

/-- Length of the record of an entry. -/
def recordLength (entry : CentralEntry) : Nat :=
  46 + entry.name.length + (centralExtra entry).length

def directorySize (central : List CentralEntry) : Nat := (central.map recordLength).sum

theorem zip64Values_length (entry : CentralEntry) : (zip64Values entry).length ≤ 24 := by
  unfold zip64Values
  split <;> split <;> split <;> simp

theorem centralExtra_length (entry : CentralEntry) : (centralExtra entry).length ≤ 37 := by
  have hvalues := zip64Values_length entry
  have hstamp : (timestampExtra entry.modified).length ≤ 9 := by
    cases entry.modified <;> simp [timestampExtra]
  unfold centralExtra
  split <;> simp only [List.length_append, toLe_length, List.length_nil] <;> omega

theorem length16_of_le {bytes : List UInt8} {message : String} (le : bytes.length ≤ u16Max) :
    length16 bytes message = .ok bytes.length := if_pos le

theorem writeCentral_eq_ok {entry : CentralEntry} (name : entry.name.length ≤ u16Max) :
    ∃ record, writeCentral entry = .ok record ∧ record.length = recordLength entry := by
  have hextra : (centralExtra entry).length ≤ u16Max :=
    Nat.le_trans (centralExtra_length entry) (by decide)
  simp only [writeCentral, length16_of_le name, length16_of_le hextra, result_bind_ok]
  refine ⟨_, rfl, ?_⟩
  simp only [List.length_append, toLe_length, recordLength]

end Fbz.Zip
