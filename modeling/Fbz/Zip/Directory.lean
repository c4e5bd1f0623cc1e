import Fbz.Zip.Create

/-!
# Reading the central directory back

The reading rule of the format: a 32-bit field of all ones stands for a value in the Zip64 extra
field of its entry, and a field of all ones in the end record for one in the Zip64 end record. Any
other value is literal. The records are read one after the other from where they begin.
-/

namespace Fbz.Zip

/-- What a directory says of an entry. -/
structure Facts where
  name : List UInt8
  method : Nat
  crc : Nat
  compressedSize : Nat
  uncompressedSize : Nat
  localOffset : Nat
  deriving DecidableEq, Repr

structure Directory where
  entries : List Facts
  count : Nat
  size : Nat
  start : Nat
  deriving DecidableEq, Repr

/-- Readers take bytes from the front. -/
abbrev Reader (α : Type) := StateT (List UInt8) Option α

def take (count : Nat) : Reader (List UInt8) := fun bytes =>
  if count ≤ bytes.length then some (bytes.take count, bytes.drop count) else none

def number (width : Nat) : Reader Nat := do
  let bytes ← take width
  pure (leNat bytes)

def expect (width value : Nat) : Reader Unit := do
  let found ← number width
  if found = value then pure () else failure

/-- The payload of the first extra record with this identifier. -/
def extraPayload (id : Nat) : List UInt8 → Option (List UInt8)
  | a :: b :: c :: d :: rest =>
    if leNat [a, b] = id then some (rest.take (leNat [c, d]))
    else extraPayload id (rest.drop (leNat [c, d]))
  | _ => none
termination_by extra => extra.length
decreasing_by simp only [List.length_drop, List.length_cons]; omega

/-- A value that is literal or the next one of the Zip64 extra field. -/
def wide (literal : Nat) : Reader Nat := if literal = u32Max then number 8 else pure literal

/-- The 64-bit values stand in this order. -/
def wideFields (uncompressed compressed localOffset : Nat) : Reader (Nat × Nat × Nat) := do
  let uncompressedSize ← wide uncompressed
  let compressedSize ← wide compressed
  let localOffset ← wide localOffset
  pure (uncompressedSize, compressedSize, localOffset)

def readCentral : Reader Facts := do
  expect 4 0x02014b50
  let _madeBy ← number 2
  let _needed ← number 2
  let _flags ← number 2
  let method ← number 2
  let _time ← number 2
  let _date ← number 2
  let crc ← number 4
  let compressed ← number 4
  let uncompressed ← number 4
  let nameLength ← number 2
  let extraLength ← number 2
  let commentLength ← number 2
  let _disk ← number 2
  let _internal ← number 2
  let _external ← number 4
  let localOffset ← number 4
  let name ← take nameLength
  let extra ← take extraLength
  let _comment ← take commentLength
  match wideFields uncompressed compressed localOffset ((extraPayload 1 extra).getD []) with
  | some ((uncompressedSize, compressedSize, localOffset), _) =>
    pure ⟨name, method, crc, compressedSize, uncompressedSize, localOffset⟩
  | none => failure

def startsWith (signature : Nat) (bytes : List UInt8) : Bool := bytes.take 4 = toLe 4 signature

/-- Central records as long as there are any. -/
def readCentrals : Nat → Reader (List Facts)
  | 0 => pure []
  | fuel + 1 => fun bytes =>
    if startsWith 0x02014b50 bytes then (do
      let facts ← readCentral
      let rest ← readCentrals fuel
      pure (facts :: rest)) bytes
    else some ([], bytes)

structure Zip64End where
  count : Nat
  size : Nat
  start : Nat

/-- The Zip64 end record at this position and the locator that points at it. -/
def readZip64End (position : Nat) : Reader Zip64End := do
  expect 4 0x06064b50
  let length ← number 8
  let _madeBy ← number 2
  let _needed ← number 2
  let _disk ← number 4
  let _startDisk ← number 4
  let _here ← number 8
  let count ← number 8
  let size ← number 8
  let start ← number 8
  let _more ← take (length - 44)
  expect 4 0x07064b50
  let _recordDisk ← number 4
  expect 8 position
  let _disks ← number 4
  pure ⟨count, size, start⟩

/-- A value that is literal or stands in the Zip64 end record. -/
def orWide (marker literal : Nat) (value : Option Nat) : Reader Nat :=
  if literal = marker then (fun bytes => value.map fun value => (value, bytes)) else pure literal

def readEnd (entries : List Facts) (zip64 : Option Zip64End) : Reader Directory := do
  expect 4 0x06054b50
  let _disk ← number 2
  let _startDisk ← number 2
  let _here ← number 2
  let count ← number 2
  let size ← number 4
  let start ← number 4
  let commentLength ← number 2
  let _comment ← take commentLength
  let count ← orWide u16Max count (zip64.map Zip64End.count)
  let size ← orWide u32Max size (zip64.map Zip64End.size)
  let start ← orWide u32Max start (zip64.map Zip64End.start)
  pure ⟨entries, count, size, start⟩

/-- The directory whose records begin at position `start`. -/
def readDirectory (start : Nat) (bytes : List UInt8) : Option Directory := do
  let (entries, rest) ← readCentrals bytes.length bytes
  let (zip64, rest) ←
    if startsWith 0x06064b50 rest then
      (readZip64End (start + (bytes.length - rest.length)) rest).map fun (zip64, rest) =>
        (some zip64, rest)
    else some (none, rest)
  let (directory, rest) ← readEnd entries zip64 rest
  if rest = [] then some directory else none

end Fbz.Zip
