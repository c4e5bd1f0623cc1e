import Fbz.Extract.Inflate
import Fbz.Lib.FileSystem

/-!
# ZIP extraction

What `zip_extract` checks about an archive's entries and how it extracts them into a staging
directory. Entry paths are relative and made of normal components. Entries are extracted by a
pool of threads; a thread extracting a file makes one file system call after the other, and a large
entry is itself decoded by a pipeline of workers. What the entries report of their progress is left
out.
-/

namespace Fbz.Extract

open Deflate FileTree FileSystem

inductive EntryKind
  | file
  | directory
  | symlink
  deriving DecidableEq, Repr

inductive CompressionMethod
  | stored
  | deflated
  | other
  deriving DecidableEq, Repr

structure Entry where
  path : Path
  compressionMethod : Nat
  compressedSize : Nat
  decodedSize : Nat
  crc : Nat
  method : CompressionMethod
  dataStart : Nat
  dataEnd : Nat
  mode : Option Nat
  /-- nanoseconds from the epoch -/
  modified : Option Int
  kind : EntryKind

/-- What the extraction takes from the system: how paths and link targets are written in messages,
what `symlink` says of a target by itself and `open` of a file with this mode, and the modes of new
files and directories. -/
structure Platform where
  display : Path → String
  displayTarget : List UInt8 → String
  linkFault : List UInt8 → Option IoError
  openFault : Nat → Option IoError
  fileMode : Nat
  dirMode : Nat

variable (P : Platform)

def invalid (message : String) : Error := .invalidZip message

/-- Ancestors of a path, the nearest first, without the root. -/
def ancestors (path : Path) : List Path := path.inits.reverse.tail.filter fun q => !q.isEmpty

/-- The first loop of `validate_layout`; `seen` are the keys of the map. -/
def checkDuplicates : List Path → List Entry → Result Unit
  | _, [] => .ok ()
  | seen, entry :: rest =>
    if entry.path ∈ seen then .error (invalid ("duplicate entry path " ++ P.display entry.path))
    else checkDuplicates (entry.path :: seen) rest

/-- The entry of this path is there and is no directory. -/
def blocks (entries : List Entry) (path : Path) : Bool :=
  entries.any fun entry => entry.path == path && entry.kind != .directory

def checkAncestors (entries : List Entry) (entry : Entry) : List Path → Result Unit
  | [] => .ok ()
  | ancestor :: rest =>
    if blocks entries ancestor then
      .error (invalid ("non-directory entry " ++ P.display ancestor ++ " is an ancestor of " ++
        P.display entry.path))
    else checkAncestors entries entry rest

def checkAllAncestors (entries : List Entry) : List Entry → Result Unit
  | [] => .ok ()
  | entry :: rest => do
    checkAncestors P entries entry (ancestors entry.path)
    checkAllAncestors entries rest

/-- Neighbouring ranges of compressed data do not overlap. -/
def checkRanges : List Entry → Result Unit
  | first :: second :: rest =>
    if second.dataStart < first.dataEnd then
      .error (invalid ("compressed data for " ++ P.display first.path ++ " overlaps " ++
        P.display second.path))
    else checkRanges (second :: rest)
  | _ => .ok ()

def validateLayout (entries : List Entry) : Result Unit := do
  checkDuplicates P [] entries
  checkAllAncestors P entries entries
  checkRanges P ((entries.filter fun entry => entry.compressedSize != 0).mergeSort
    fun first second => first.dataStart ≤ second.dataStart)

def entryError (entry : Entry) (error : Error) : Error :=
  let detail := match error with
    | .invalidGzip message | .invalidZip message => message
    | other => other.text
  invalid ("entry " ++ P.display entry.path ++ ": " ++ detail)

/-- The checks on size and checksum at the end of `decode_entry`. -/
def checkDecoded (entry : Entry) (decodedSize crc : Nat) : Result Unit := do
  ensure (decodedSize = entry.decodedSize)
    (invalid ("entry " ++ P.display entry.path ++ " size mismatch: expected " ++
      toString entry.decodedSize ++ ", decoded " ++ toString decodedSize))
  ensure (crc = entry.crc)
    (invalid ("entry " ++ P.display entry.path ++ " CRC32 mismatch: expected " ++
      hex 8 entry.crc ++ ", decoded " ++ hex 8 crc))

/-- The compressed data of an entry. `parse` has made sure that the range lies in the data. -/
def entryData (data : List UInt8) (entry : Entry) : List UInt8 :=
  (data.drop entry.dataStart).take (entry.dataEnd - entry.dataStart)

def decodeStoredEntry (crc : Crc32) (compressed : List UInt8) (entry : Entry) :
    Result (List UInt8) := do
  ensure (entry.compressedSize = entry.decodedSize)
    (invalid ("stored entry " ++ P.display entry.path ++
      " has different compressed and decoded sizes"))
  ensure (compressed.length ≤ entry.decodedSize) (exceedsError entry.decodedSize)
  checkDecoded P entry compressed.length (crc.hash compressed)
  return compressed

/-- `decode_entry` behind the DEFLATE decoder. -/
def decodeDeflatedEntry (entry : Entry) : Outcome → Result (List UInt8)
  | .error error => .error (entryError P entry error)
  | .ok (output, report) => do
    checkDecoded P entry report.decodedLen report.crc
    return output

/-- The bytes `decode_entry` has written when it returns, or its error. There is neither while the
DEFLATE decoder is at work. -/
def decodeEntry {crc : Crc32} (data : List UInt8) (entry : Entry) (inner : Inflation crc) :
    Option (Result (List UInt8)) :=
  match entry.method, inner with
  | .stored, _ => some (decodeStoredEntry P crc (entryData data entry) entry)
  | .deflated, .done outcome => some (decodeDeflatedEntry P entry outcome)
  | .deflated, _ => none
  | .other, _ =>
    some (.error (invalid ("entry " ++ P.display entry.path ++
      " uses unsupported compression method " ++ toString entry.compressionMethod)))

def multiEntryIntraThreshold : Nat := 64 * 1024 * 1024
def singleEntryIntraThreshold : Nat := 16 * 1024 * 1024

def usesIntraEntry (entry : Entry) (entryCount : Nat) : Bool :=
  if entry.method ≠ .deflated then false
  else
    let threshold :=
      if entryCount = 1 then singleEntryIntraThreshold else multiEntryIntraThreshold
    decide (threshold ≤ entry.compressedSize)

/-- The options `run_entries` decodes an entry with: a large one with all threads, which it gives to
one entry after the other, the rest with one thread each. -/
def entrySetting {crc : Crc32} (setting : Setting crc) (entryCount : Nat) (entry : Entry) :
    Setting crc :=
  { setting with
    options := { setting.options with
      threads :=
        if usesIntraEntry entry entryCount then
          setting.options.resolvedThreads setting.parallelism
        else 1 } }

/-- The loop of `create_symlink` over the components of a target. -/
def targetStays : Nat → List Component → Bool
  | _, [] => true
  | depth, .normal _ :: rest => targetStays (depth + 1) rest
  | depth, .cur :: rest => targetStays depth rest
  | depth + 1, .parent :: rest => targetStays depth rest
  | _, _ => false

/-- The checks `create_symlink` makes before the system call. -/
def checkTarget (entry : Entry) (target : List UInt8) : Result Unit :=
  if target.head? = some 47 then
    .error (invalid ("entry " ++ P.display entry.path ++ " has absolute symlink target " ++
      P.displayTarget target))
  else if targetStays entry.path.dropLast.length (components target) then .ok ()
  else .error (invalid ("entry " ++ P.display entry.path ++ " has escaping symlink target " ++
    P.displayTarget target))

/-- What the system call of `create_symlink` may say, besides that there is no place for the
link. -/
def allowTarget (entry : Entry) (target : List UInt8) : Result Unit := do
  checkTarget P entry target
  match P.linkFault target with
  | some error => .error (.io error)
  | none => .ok ()

/-- The bytes of a file are unknown while they are being decoded, and when decoding fails: what has
been written by then is left out, and goes with the staging directory. -/
structure FileData where
  bytes : Option (List UInt8)
  mode : Nat
  modified : Option Int

abbrev EntryNode := Kind FileData (List UInt8)

def faultError : Fault → Error
  | .notFound => .io ⟨.notFound, "No such file or directory (os error 2)"⟩
  | .notADirectory => .io ⟨.notADirectory, "Not a directory (os error 20)"⟩
  | .alreadyExists => .io ⟨.alreadyExists, "File exists (os error 17)"⟩
  | .tooManyLinks => .io ⟨.named "FilesystemLoop", "Too many levels of symbolic links (os error 40)"⟩
  | .outside => .io ⟨.named "outside", "outside the staging directory"⟩

def prepareDirectories (fs : FileSystem.Tree FileData) :
    List Entry → Except Fault (FileSystem.Tree FileData)
  | [] => .ok fs
  | entry :: rest =>
    match fs.createDirAll P.dirMode
      (if entry.kind = .directory then entry.path else entry.path.dropLast) with
    | .ok fs' => prepareDirectories fs' rest
    | .error fault => .error fault

/-- How far `extract_entry` is with an entry: its data are decoded into an open file, or into a
vector for a link; then the file gets its mode and its time. `left` is what a failed call leaves
behind. -/
inductive Task (crc : Crc32)
  | waiting
  | decoding (file : Option Path) (inner : Inflation crc)
  | written (bytes : List UInt8)
  | stamping (bytes : List UInt8)
  | done (node : Option EntryNode)
  | failed (error : Error) (left : Option EntryNode)

def Task.ended {crc : Crc32} : Task crc → Bool
  | .done _ | .failed _ _ => true
  | .waiting | .decoding _ _ | .written _ | .stamping _ => false

/-- The open file holds these bytes. -/
def fillFile (fs : FileSystem.Tree FileData) (place : Path) (bytes : List UInt8) :
    FileSystem.Tree FileData :=
  match fs place with
  | some (.file content) => fs.set place (some (.file { content with bytes := some bytes }))
  | _ => fs

def chmod (mode : Nat) : EntryNode → EntryNode
  | .file content => .file { content with mode := mode &&& 0o7777 }
  | .dir _ => .dir (mode &&& 0o7777)
  | .symlink target => .symlink target

def touch (time : Int) : EntryNode → EntryNode
  | .file content => .file { content with modified := some time }
  | .dir mode => .dir mode
  | .symlink target => .symlink target

def setMode (fs : FileSystem.Tree FileData) (path : Path) :
    Option Nat → Except Fault (FileSystem.Tree FileData)
  | none => .ok fs
  | some mode => fs.update path (chmod mode)

/-- What the system says when this node is opened. -/
def reopenFault : EntryNode → Option IoError
  | .file content => P.openFault content.mode
  | .dir mode => P.openFault mode
  | .symlink _ => none

/-- `set_modified` opens the path again, which the mode it has by then may not allow. -/
def setModified (fs : FileSystem.Tree FileData) (path : Path) :
    Option Int → Result (FileSystem.Tree FileData)
  | none => .ok fs
  | some time =>
    match fs.locate path with
    | .error fault => .error (faultError fault)
    | .ok place =>
      match (fs place).bind (reopenFault P) with
      | some error => .error (.io error)
      | none =>
        match fs.update path (touch time) with
        | .error fault => .error (faultError fault)
        | .ok fs' => .ok fs'

/-- The next call of `extract_entry` on this entry. -/
def advance {crc : Crc32} (data : List UInt8) (fs : FileSystem.Tree FileData) (entry : Entry) :
    Task crc → Option (FileSystem.Tree FileData × Task crc)
  | .waiting =>
    some <| match entry.kind with
    | .directory => (fs, .done none)
    | .symlink =>
      if entry.decodedSize > 64 * 1024 then
        (fs, .failed (invalid ("symlink target in " ++ P.display entry.path ++ " is too large")) none)
      else (fs, .decoding none .opened)
    | .file =>
      match fs.place entry.path, fs.add entry.path (.file ⟨none, P.fileMode, none⟩) with
      | .ok place, .ok fs' => (fs', .decoding (some place) .opened)
      | .error fault, _ => (fs, .failed (faultError fault) none)
      | _, .error fault => (fs, .failed (faultError fault) none)
  | .decoding file inner =>
    match decodeEntry P data entry inner with
    | none => none
    | some (.error error) => some (fs, .failed error (file.bind fs))
    | some (.ok bytes) =>
      match file with
      | some place => some (fillFile fs place bytes, .written bytes)
      | none =>
        match allowTarget P entry bytes with
        | .error error => some (fs, .failed error none)
        | .ok () =>
          match fs.add entry.path (.symlink bytes) with
          | .error fault => some (fs, .failed (faultError fault) none)
          | .ok fs' => some (fs', .done (some (.symlink bytes)))
  | .written bytes =>
    some <| match setMode fs entry.path entry.mode with
    | .error fault => (fs, .failed (faultError fault) (fs entry.path))
    | .ok fs' => (fs', .stamping bytes)
  | .stamping _ =>
    some <| match setModified P fs entry.path entry.modified with
    | .error error => (fs, .failed error (fs entry.path))
    | .ok fs' => (fs', .done (fs' entry.path))
  | .done _ => none
  | .failed _ _ => none

/-- The staging tree with the entries being extracted. -/
structure Extraction (crc : Crc32) where
  fs : FileSystem.Tree FileData
  runs : List (Entry × Task crc)

/-- The steps of the DEFLATE decoder of an entry. -/
abbrev InflateEntry {crc : Crc32} (setting : Setting crc) (data : List UInt8) (entryCount : Nat)
    (entry : Entry) : Inflation crc → Inflation crc → Prop :=
  InflateStep (entrySetting setting entryCount entry) (entryData data entry) entry.decodedSize

/-- Some entry goes on, by a call of its own or inside its DEFLATE decoder. -/
inductive ExtractStep {crc : Crc32} (setting : Setting crc) (data : List UInt8) (entryCount : Nat) :
    Extraction crc → Extraction crc → Prop
  | call {fs fs' : FileSystem.Tree FileData} {pre post : List (Entry × Task crc)} {entry : Entry}
      {task task' : Task crc} (next : advance P data fs entry task = some (fs', task')) :
      ExtractStep setting data entryCount ⟨fs, pre ++ (entry, task) :: post⟩
        ⟨fs', pre ++ (entry, task') :: post⟩
  | inflate {fs : FileSystem.Tree FileData} {pre post : List (Entry × Task crc)} {entry : Entry}
      {file : Option Path} {inner inner' : Inflation crc} (deflated : entry.method = .deflated)
      (step : InflateEntry setting data entryCount entry inner inner') :
      ExtractStep setting data entryCount ⟨fs, pre ++ (entry, .decoding file inner) :: post⟩
        ⟨fs, pre ++ (entry, .decoding file inner') :: post⟩

end Fbz.Extract
