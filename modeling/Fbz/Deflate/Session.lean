import Fbz.Deflate.Encode
import Fbz.Pipeline.Intake

/-!
# The gzip encoder

Segments are cut from the bytes with the window before each, encoded by the workers and written one
after the other, with header and trailer of a gzip member around them.
-/

namespace Fbz.Deflate.Encode

open Pipeline

structure Report where
  inputLen : Nat
  outputLen : Nat
  crc : Nat
  deriving DecidableEq, Repr

/-- Of a buffer that is submitted, the part the next segment may refer to. -/
def keptPart (buffer : List UInt8) : List UInt8 :=
  buffer.drop (buffer.length - min buffer.length windowSize)

def cutting (crc : Crc32) : Cutting (Segment crc) Unit where
  job level buffer prefixLen := encodeSegment crc buffer prefixLen level
  kept := keptPart
  hash hash _ := hash
  hash_nil _ := rfl
  hash_append _ _ _ := rfl

/-- The output side. -/
structure Outlet (crc : Crc32) where
  output : List UInt8
  crc : crc.Hasher
  inputLen : Nat := 0
  outputLen : Nat := 0

/-- `commit_next` with the next segment. -/
def Outlet.commit {crc : Crc32} (o : Outlet crc) (segment : Segment crc) : Outlet crc where
  output := o.output ++ segment.encoded
  crc := crc.combine o.crc segment.crc
  inputLen := o.inputLen + segment.inputLen
  outputLen := o.outputLen + segment.encoded.length

/-- `finish` behind the last result: the bytes written and the report. -/
def Outlet.finish {crc : Crc32} (o : Outlet crc) : List UInt8 × Report :=
  (o.output ++ finalBlock, ⟨o.inputLen, o.outputLen + finalBlock.length, crc.finalize o.crc⟩)

abbrev Encoder (crc : Crc32) : Type := Session (Intake Unit) (Outlet crc) (Segment crc)

def client (crc : Crc32) : Client (Intake Unit) (Outlet crc) (Segment crc) :=
  (cutting crc).client Outlet.commit

/-- The encoder for segments of this size, with the calls it is going to get. -/
def fresh (crc : Crc32) (options : EncodeOptions) (parallelism : Nat) (calls : List Call)
    (output : List UInt8) (size : { size : Nat // 0 < size }) : Encoder crc :=
  let reservation := segmentReservation size
  let workers :=
    min (options.resolvedThreads parallelism) (max (options.memoryLimit / reservation) 1)
  .new reservation (.new (options.levelOr 6) size () calls) { output, crc := crc.new } workers
    options.memoryLimit

/-- `Encoder::new` on a writer that has been given `output`. -/
def start (crc : Crc32) (options : EncodeOptions) (parallelism : Nat) (calls : List Call)
    (output : List UInt8) : Result (Encoder crc) := do
  let options ← validateOptions options
  let size ← segmentSize options.memoryLimit
  return fresh crc options parallelism calls output size

section Start

variable {crc : Crc32} {options : EncodeOptions} {parallelism : Nat} {calls : List Call}
  {output : List UInt8} {e : Encoder crc}

theorem start_eq_ok (h : start crc options parallelism calls output = .ok e) :
    ∃ size, segmentSize options.memoryLimit = .ok size ∧
      e = fresh crc options parallelism calls output size := by
  obtain ⟨checked, hvalid, hstart⟩ := result_bind_eq_ok.mp h
  obtain rfl := validateOptions_eq hvalid
  obtain ⟨size, hsize, heq⟩ := result_bind_eq_ok.mp hstart
  exact ⟨size, hsize, (Except.ok.inj heq).symm⟩

theorem start_begins (h : start crc options parallelism calls output = .ok e) :
    (client crc).Begins e := by
  obtain ⟨size, hsize, rfl⟩ := start_eq_ok h
  exact Client.begins_new (segmentSize_eq_ok hsize) rfl

end Start

end Fbz.Deflate.Encode

namespace Fbz.Gzip

open Pipeline Deflate Deflate.Encode

/-- The member header `Encoder::new` writes. -/
def memberHeader (level : Nat) : List UInt8 :=
  let extraFlags := if 1 ≤ level ∧ level ≤ 2 then 4 else if 8 ≤ level ∧ level ≤ 9 then 2 else 0
  [0x1f, 0x8b, 8, 0, 0, 0, 0, 0, extraFlags, 255]

/-- `gzip::Encoder::new`. -/
def start (crc : Crc32) (options : EncodeOptions) (parallelism : Nat) (calls : List Call) :
    Result (Encoder crc) := do
  let options ← validateOptions options
  Encode.start crc options parallelism calls (memberHeader (options.levelOr 6))

/-- `gzip::Encoder::finish`: checksum and length behind the stream. -/
def finish {crc : Crc32} (o : Outlet crc) : List UInt8 × Report :=
  let (output, deflate) := o.finish
  (output ++ toLe 4 deflate.crc ++ toLe 4 deflate.inputLen,
    ⟨deflate.inputLen, deflate.outputLen + 18, deflate.crc⟩)

section Start

variable {crc : Crc32} {options : EncodeOptions} {parallelism : Nat} {calls : List Call}
  {e : Encoder crc}

theorem start_eq_ok (h : start crc options parallelism calls = .ok e) :
    Encode.start crc options parallelism calls (memberHeader (options.levelOr 6)) = .ok e := by
  obtain ⟨checked, hvalid, hstart⟩ := result_bind_eq_ok.mp h
  obtain rfl := validateOptions_eq hvalid
  exact hstart

theorem start_begins (h : start crc options parallelism calls = .ok e) : (client crc).Begins e :=
  Encode.start_begins (start_eq_ok h)

/-- What is written of these bytes in segments of this size. -/
def written (crc : Crc32) (level : Nat) (size : { size : Nat // 0 < size }) (data : List UInt8) :
    List UInt8 :=
  (finish (((client crc).jobs (.single (.new level size () []) data)).foldl Outlet.commit
    { output := memberHeader level, crc := crc.new })).1

theorem start_writes {writes : List (List UInt8)}
    (h : start crc options parallelism (writes.map .write) = .ok e) :
    ∃ size, segmentSize options.memoryLimit = .ok size ∧
      (client crc).Writes e (fun o _ => (finish o).1)
        (written crc (options.levelOr 6) size writes.flatten) := by
  have hwrites := (start_begins h).writes fun o _ => (finish o).1
  obtain ⟨size, hsize, rfl⟩ := Encode.start_eq_ok (start_eq_ok h)
  refine ⟨size, hsize, ?_⟩
  rw [written, client, ← Intake.jobs_new]
  exact hwrites

end Start

end Fbz.Gzip
