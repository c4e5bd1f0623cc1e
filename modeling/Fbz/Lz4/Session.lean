import Fbz.Lz4.RoundTrip
import Fbz.Pipeline.Intake

/-!
# The LZ4 encoder at work

The frame encoder step by step, with workers that finish at any time.
-/

namespace Fbz.Lz4

open Pipeline

/-- Blocks do not refer to what was before them, and the content hash sees all bytes. -/
def cutting (xxh : XxHash32) : Cutting EncodedBlock xxh.Hasher where
  job level buffer _ := encodeBlock buffer level
  kept _ := []
  hash := xxh.write
  hash_nil := xxh.write_nil
  hash_append := xxh.write_append

/-- The output side. -/
structure Outlet where
  output : List UInt8
  inputLen : Nat := 0
  outputLen : Nat := 7
  blocks : Nat := 0

/-- `commit_next` with the next block. -/
def Outlet.commit (o : Outlet) (block : EncodedBlock) : Outlet where
  output := o.output ++ Encoder.blockBytes block
  inputLen := o.inputLen + block.inputLen
  outputLen := o.outputLen + (4 + block.bytes.length)
  blocks := o.blocks + 1

/-- `finish` behind the last block: end mark and content hash. -/
def Outlet.finish {xxh : XxHash32} (o : Outlet) (i : Intake xxh.Hasher) :
    List UInt8 × EncodeReport :=
  (o.output ++ toLe 4 0 ++ toLe 4 (xxh.finish i.hash), ⟨o.inputLen, o.outputLen + 8, o.blocks⟩)

abbrev EncoderSession (xxh : XxHash32) : Type := Session (Intake xxh.Hasher) Outlet EncodedBlock

def client (xxh : XxHash32) : Client (Intake xxh.Hasher) Outlet EncodedBlock :=
  (cutting xxh).client Outlet.commit

/-- A result with what is known of it. -/
def withProof {p : Nat → Prop} (result : Result Nat) (h : ∀ n, result = .ok n → p n) :
    Result { n : Nat // p n } :=
  match result, h with
  | .ok n, h => .ok ⟨n, h n rfl⟩
  | .error error, _ => .error error

private theorem withProof_eq_ok {p : Nat → Prop} {result : Result Nat}
    {h : ∀ n, result = .ok n → p n}
    {n : { n : Nat // p n }} (hn : withProof result h = .ok n) : result = .ok n.1 := by
  cases result with
  | error error => cases hn
  | ok m =>
    obtain rfl := Except.ok.inj hn
    rfl

private theorem withProof_ok {p : Nat → Prop} {result : Result Nat} (h : ∀ n, result = .ok n → p n)
    {n : Nat} (hn : result = .ok n) : withProof result h = .ok ⟨n, h n hn⟩ := by
  subst hn
  rfl

/-- `selected_block_size`: a block holds something. -/
def chosenBlockSize (memoryLimit : Nat) : Result { size : Nat // 0 < size } :=
  withProof (selectedBlockSize memoryLimit) fun _ h => (selectedBlockSize_eq_ok h).1.bounds.1

/-- The encoder for blocks of this size, with the calls it is going to get. -/
def fresh (xxh : XxHash32) (options : EncodeOptions) (parallelism : Nat) (calls : List Call)
    (size : { size : Nat // 0 < size }) : EncoderSession xxh :=
  let reservation := reservation size
  let workers :=
    min (options.resolvedThreads parallelism) (max (options.memoryLimit / reservation) 1)
  .new reservation (.new (options.levelOr 1) size xxh.withSeed calls)
    { output := Encoder.frameHeader xxh size } workers options.memoryLimit

/-- `Encoder::new`. -/
def start (xxh : XxHash32) (options : EncodeOptions) (parallelism : Nat) (calls : List Call) :
    Result (EncoderSession xxh) := do
  let options ← options.validate
  let size ← chosenBlockSize options.memoryLimit
  return fresh xxh options parallelism calls size

private theorem chosenBlockSize_eq_ok {memoryLimit : Nat} {size : { size : Nat // 0 < size }}
    (h : chosenBlockSize memoryLimit = .ok size) : reservation size ≤ memoryLimit := by
  exact (selectedBlockSize_eq_ok (withProof_eq_ok h)).2

section Start

variable {xxh : XxHash32} {options : EncodeOptions} {parallelism : Nat} {calls : List Call}
  {e : EncoderSession xxh}

private theorem start_eq_ok (h : start xxh options parallelism calls = .ok e) :
    ∃ size, chosenBlockSize options.memoryLimit = .ok size ∧
      e = fresh xxh options parallelism calls size := by
  obtain ⟨checked, hvalid, hstart⟩ := result_bind_eq_ok.mp h
  obtain ⟨rfl, -, -⟩ := EncodeOptions.validate_eq_ok.mp hvalid
  obtain ⟨size, hsize, heq⟩ := result_bind_eq_ok.mp hstart
  exact ⟨size, hsize, (Except.ok.inj heq).symm⟩

theorem start_accepts (xxh : XxHash32) (parallelism : Nat) (calls : List Call)
    (valid : options.validate = .ok options)
    (room : reservation Encode.targetBlockSize ≤ options.memoryLimit) :
    ∃ e, start xxh options parallelism calls = .ok e := by
  have hsize := withProof_ok (fun _ h => (selectedBlockSize_eq_ok h).1.bounds.1)
    (selectedBlockSize_target room)
  exact ⟨_, result_bind_eq_ok.mpr ⟨options, valid, result_bind_eq_ok.mpr ⟨_, hsize, rfl⟩⟩⟩

theorem start_begins (h : start xxh options parallelism calls = .ok e) :
    (client xxh).Begins e := by
  obtain ⟨size, hsize, rfl⟩ := start_eq_ok h
  exact Client.begins_new (chosenBlockSize_eq_ok hsize) rfl

/-- What is written of these bytes in blocks of this size. -/
def written (xxh : XxHash32) (level : Nat) (size : { size : Nat // 0 < size })
    (data : List UInt8) : List UInt8 :=
  (((client xxh).jobs (.single (.new level size xxh.withSeed []) data)).foldl Outlet.commit
    { output := Encoder.frameHeader xxh size }).output ++ toLe 4 0 ++ toLe 4 (xxh.xxhash32 data)

/-- The bytes alone decide what is written, whatever writes they came in. -/
theorem start_writes {writes : List (List UInt8)}
    (h : start xxh options parallelism (writes.map .write) = .ok e) :
    ∃ size, chosenBlockSize options.memoryLimit = .ok size ∧
      (client xxh).Writes e (fun o i => (o.finish i).1)
        (written xxh (options.levelOr 1) size writes.flatten) := by
  have hwrites := (start_begins h).writes fun o i => (o.finish i).1
  obtain ⟨size, hsize, rfl⟩ := start_eq_ok h
  have hhash : ((client xxh).last (.new (options.levelOr 1) size xxh.withSeed
      (writes.map .write))).hash = xxh.write xxh.withSeed writes.flatten := by
    rw [client, Intake.last_hash]
    have hbytes : (writes.map Call.write).map Call.bytes = writes := by
      rw [List.map_map]
      exact List.map_id writes
    rw [show (Intake.new _ _ _ (writes.map Call.write)).calls = writes.map Call.write from rfl,
      hbytes]
    rfl
  refine ⟨size, hsize, ?_⟩
  rw [written, XxHash32.xxhash32, ← hhash, client, ← Intake.jobs_new]
  exact hwrites

end Start

end Fbz.Lz4
