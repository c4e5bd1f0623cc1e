import Fbz.Bzip2.Encode
import Fbz.Bzip2.Rle1
import Fbz.EncodeOptions
import Fbz.Pipeline.Session

/-!
# The bzip2 encoder

Runs are collected into blocks, whatever writes they come in. Blocks are encoded by the workers and
their bits written one after the other, with a stream header before and the checksum behind.
-/

namespace Fbz.Bzip2

open Pipeline

/-- Workers that are not asked for. -/
def autoWorkers : Nat := 12

structure EncodeReport where
  inputLen : Nat
  outputLen : Nat
  blocks : Nat
  deriving DecidableEq, Repr

/-- What is collected: the block, the open run, the group that is to be placed next, and what the
current `write` still has to give. -/
structure Collector where
  blockLimit : Nat
  block : List UInt8 := []
  blockCrc : Bz2Crc := .new
  blockInputLen : Nat := 0
  runs : Rle1.Splitter := .new
  group : Option Rle1.Group := none
  bytes : List UInt8 := []
  calls : List Call

namespace Collector

def job (i : Collector) : EncodedBlock := encodeBlock ⟨i.block, i.blockCrc.finish, i.blockInputLen⟩

/-- `submit_block` leaves an empty block. -/
def submitted (i : Collector) : Collector :=
  { i with block := [], blockCrc := .new, blockInputLen := 0 }

/-- `commit_group` where the block has room or is empty. -/
def place (i : Collector) (group : Rle1.Group) : Collector :=
  { i with
    block := i.block ++ group.encoded
    blockCrc := i.blockCrc.pushRepeat group.byte group.rawLen
    blockInputLen := i.blockInputLen + group.rawLen
    group := none }

/-- One byte of a `write`. -/
def push (i : Collector) (byte : UInt8) (bytes : List UInt8) : Collector :=
  let (group, runs) := i.runs.push byte
  { i with group, runs, bytes }

/-- The rest of `finish`: the open run, then the open block. -/
def close (i : Collector) : Request Collector EncodedBlock :=
  match i.runs.finish with
  | (some group, runs) => .compute { i with group := some group, runs }
  | (none, _) => if i.block = [] then .finish else .submit i.job i.submitted

/-- The group at hand, the rest of a `write`, then the calls, then `finish`. -/
def request (i : Collector) : Request Collector EncodedBlock :=
  match i.group with
  | some group =>
    if i.blockLimit < i.block.length + group.encodedLen ∧ i.block ≠ [] then
      .submit i.job i.submitted
    else .compute (i.place group)
  | none =>
    match i.bytes with
    | byte :: bytes => .compute (i.push byte bytes)
    | [] =>
      match i.calls with
      | .write bytes :: calls => .compute { i with bytes, calls }
      | .flush :: calls => .touch { i with calls }
      | [] => i.close

/-- Each byte can close a run, whose group can fill a block. -/
def remaining (i : Collector) : Nat :=
  6 * i.bytes.length + (i.calls.map fun call => 6 * call.bytes.length + 1).sum +
    2 * i.group.toList.length + 3 * min i.runs.len 1 + min i.block.length 1

private theorem close_decreases {i next : Collector} (hgroup : i.group = none)
    (h : i.close.next? = some next) : next.remaining < i.remaining := by
  unfold close Rle1.Splitter.finish at h
  by_cases hlen : i.runs.len = 0
  · rw [if_pos hlen] at h
    by_cases hblock : i.block = []
    · simp only [if_pos hblock] at h
      cases h
    · simp only [if_neg hblock] at h
      obtain rfl := Option.some.inj h
      have := List.length_pos_iff.mpr hblock
      simp only [remaining, submitted, List.length_nil]
      omega
  · rw [if_neg hlen] at h
    obtain rfl := Option.some.inj h
    simp only [remaining, hgroup, Option.toList_some, Option.toList_none, List.length_nil,
      List.length_singleton]
    omega

theorem request_decreases (i next : Collector) (h : i.request.next? = some next) :
    next.remaining < i.remaining := by
  unfold request at h
  split at h
  · next group hgroup =>
    split at h
    · next hfull =>
      obtain rfl := Option.some.inj h
      have := List.length_pos_iff.mpr hfull.2
      simp only [remaining, submitted, List.length_nil]
      omega
    · obtain rfl := Option.some.inj h
      simp only [remaining, place, hgroup, Option.toList_some, Option.toList_none,
        List.length_nil, List.length_singleton]
      omega
  · next hgroup =>
    split at h
    · next byte bytes hbytes =>
      obtain rfl := Option.some.inj h
      have : (i.runs.push byte).1.toList.length ≤ 1 := by
        cases (i.runs.push byte).1 <;> simp
      simp only [remaining, push, hgroup, hbytes, List.length_cons, Option.toList_none,
        List.length_nil]
      omega
    · next hbytes =>
      split at h
      · next bytes calls hcalls =>
        obtain rfl := Option.some.inj h
        simp only [remaining, hbytes, hcalls, List.map_cons, List.sum_cons, Call.bytes,
          List.length_nil]
        omega
      · next calls hcalls =>
        obtain rfl := Option.some.inj h
        simp only [remaining, hcalls, List.map_cons, List.sum_cons]
        omega
      · exact close_decreases hgroup h

end Collector

structure Outlet where
  output : List UInt8
  bits : BitWriter := {}
  combinedCrc : UInt32 := 0
  inputLen : Nat := 0
  outputLen : Nat
  blocks : Nat := 0

namespace Outlet

def drainBits (o : Outlet) : Outlet :=
  let (bytes, bits) := o.bits.drain
  { o with output := o.output ++ bytes, bits, outputLen := o.outputLen + bytes.length }

/-- `commit_next` with the next block. -/
def commit (o : Outlet) (block : EncodedBlock) : Outlet :=
  let drained := { o with bits := o.bits.writeBuffer block.bytes block.bitLen }.drainBits
  { drained with
    combinedCrc := combineStreamCrc o.combinedCrc block.crc
    inputLen := o.inputLen + block.inputLen
    blocks := o.blocks + 1 }

/-- `finish` behind the last block: the bytes written and the report. -/
def finish (o : Outlet) : List UInt8 × EncodeReport :=
  let trailing := ((o.bits.writeMagic endMagic).writeU32 o.combinedCrc).finish
  (o.output ++ trailing, ⟨o.inputLen, o.outputLen + trailing.length, o.blocks⟩)

private theorem drainBits_commit (o : Outlet) (block : EncodedBlock) :
    (o.commit block).drainBits = o.commit block := by
  simp [drainBits, commit, BitWriter.drain]

end Outlet

abbrev EncoderSession : Type := Session Collector Outlet EncodedBlock

/-- A flush writes what is left of the bits, which is nothing between two blocks. -/
def encoderClient : Client Collector Outlet EncodedBlock where
  request := Collector.request
  commit := Outlet.commit
  touch := Outlet.drainBits
  remaining := Collector.remaining
  decreases := Collector.request_decreases
  touch_commit := Outlet.drainBits_commit

def blockLimit (level : Nat) : Nat := level * 100000 - 19

def blockReservation (blockLimit : Nat) : Nat := blockLimit * 32

/-- `BZh` and the level. -/
def streamHeader (level : Nat) : List UInt8 := [0x42, 0x5a, 0x68, UInt8.ofNat (0x30 + level)]

/-- The encoder at a level, with the calls it is going to get. -/
def freshEncoder (options : EncodeOptions) (parallelism : Nat) (calls : List Call) :
    EncoderSession :=
  let level := options.levelOr 9
  let reservation := blockReservation (blockLimit level)
  let requested := options.resolvedThreads parallelism
  let requested := if options.threads = 0 then min requested autoWorkers else requested
  let workers := min requested (max (options.memoryLimit / reservation) 1)
  .new reservation { blockLimit := blockLimit level, calls }
    (Outlet.drainBits
      { output := [], bits := (streamHeader level).foldl BitWriter.writeU8 {}, outputLen := 0 })
    workers options.memoryLimit

/-- `Encoder::new`. -/
def startEncoder (options : EncodeOptions) (parallelism : Nat) (calls : List Call) :
    Result EncoderSession := do
  let options ← options.validate
  let level := options.levelOr 9
  let reservation := blockReservation (blockLimit level)
  ensure (reservation ≤ options.memoryLimit)
    (.invalidConfiguration ("bzip2 level " ++ toString level ++
      " compression requires a memory limit of at least " ++ toString reservation ++
      " bytes; choose a lower level or raise --memory-limit"))
  return freshEncoder options parallelism calls

section Start

variable {options : EncodeOptions} {parallelism : Nat} {calls : List Call} {e : EncoderSession}

theorem startEncoder_eq_ok (h : startEncoder options parallelism calls = .ok e) :
    blockReservation (blockLimit (options.levelOr 9)) ≤ options.memoryLimit ∧
      e = freshEncoder options parallelism calls := by
  obtain ⟨checked, hvalid, hstart⟩ := result_bind_eq_ok.mp h
  obtain ⟨rfl, -, -⟩ := EncodeOptions.validate_eq_ok.mp hvalid
  obtain ⟨_, hfits, heq⟩ := result_bind_eq_ok.mp hstart
  exact ⟨ensure_eq_ok.mp hfits, (Except.ok.inj heq).symm⟩

theorem startEncoder_begins (h : startEncoder options parallelism calls = .ok e) :
    encoderClient.Begins e := by
  obtain ⟨hfits, rfl⟩ := startEncoder_eq_ok h
  refine Client.begins_new hfits ?_
  simp [encoderClient, Outlet.drainBits, BitWriter.drain]

end Start

namespace Collector

/-- The same state with these bytes in the write at hand and no calls behind it. -/
def single (i : Collector) (bytes : List UInt8) : Collector := { i with bytes, calls := [] }

private theorem jobs_step {i j next next' : Collector} {r r' : Request Collector EncodedBlock}
    (first : i.request = r) (second : j.request = r') (hnext : r.next? = some next)
    (hnext' : r'.next? = some next') (job : r.job? = r'.job?)
    (same : encoderClient.jobs next = encoderClient.jobs next') :
    encoderClient.jobs i = encoderClient.jobs j := by
  subst first second
  have hfirst : (encoderClient.request i).next? = some next := hnext
  have hsecond : (encoderClient.request j).next? = some next' := hnext'
  have hjob : (encoderClient.request i).job? = (encoderClient.request j).job? := job
  rw [Client.jobs_next hfirst, Client.jobs_next hsecond, same, hjob]

theorem request_submit {i : Collector} {group : Rle1.Group} (h : i.group = some group)
    (full : i.blockLimit < i.block.length + group.encodedLen ∧ i.block ≠ []) :
    i.request = .submit i.job i.submitted := by
  rw [request, h]
  exact if_pos full

theorem request_place {i : Collector} {group : Rle1.Group} (h : i.group = some group)
    (room : ¬ (i.blockLimit < i.block.length + group.encodedLen ∧ i.block ≠ [])) :
    i.request = .compute (i.place group) := by
  rw [request, h]
  exact if_neg room

theorem request_byte {i : Collector} {byte : UInt8} {bytes : List UInt8} (hgroup : i.group = none)
    (hbytes : i.bytes = byte :: bytes) : i.request = .compute (i.push byte bytes) := by
  rw [request, hgroup, hbytes]

theorem request_write {i : Collector} {bytes : List UInt8} {calls : List Call}
    (hgroup : i.group = none) (hbytes : i.bytes = []) (hcalls : i.calls = .write bytes :: calls) :
    i.request = .compute { i with bytes, calls } := by
  rw [request, hgroup, hbytes, hcalls]

/-- How the bytes are split over writes makes no difference to the blocks. -/
theorem jobs_single {i : Collector} {writes : List (List UInt8)}
    (h : i.calls = writes.map Call.write) :
    encoderClient.jobs i = encoderClient.jobs (i.single (i.bytes ++ writes.flatten)) := by
  induction hn : i.remaining using Nat.strongRecOn generalizing i writes with
  | ind n ih =>
    have hless : ∀ {next : Collector}, i.request.next? = some next → next.remaining < n :=
      fun hnext => hn ▸ request_decreases i _ hnext
    cases hgroup : i.group with
    | some group =>
      by_cases hfull : i.blockLimit < i.block.length + group.encodedLen ∧ i.block ≠ []
      · have hfirst := request_submit hgroup hfull
        have hsecond :=
          @request_submit (i.single (i.bytes ++ writes.flatten)) group hgroup hfull
        have hless := hless (congrArg Request.next? hfirst)
        exact jobs_step hfirst hsecond rfl rfl rfl (@ih _ hless i.submitted writes h rfl)
      · have hfirst := request_place hgroup hfull
        have hsecond :=
          @request_place (i.single (i.bytes ++ writes.flatten)) group hgroup hfull
        have hless := hless (congrArg Request.next? hfirst)
        exact jobs_step hfirst hsecond rfl rfl rfl (@ih _ hless (i.place group) writes h rfl)
    | none =>
      cases hbytes : i.bytes with
      | cons byte bytes =>
        have hfirst := request_byte hgroup hbytes
        have hsecond := @request_byte (i.single (byte :: bytes ++ writes.flatten)) byte
          (bytes ++ writes.flatten) hgroup rfl
        have hless := hless (congrArg Request.next? hfirst)
        exact jobs_step hfirst hsecond rfl rfl rfl (@ih _ hless (i.push byte bytes) writes h rfl)
      | nil =>
        cases writes with
        | nil =>
          have hsame : i.single ([] ++ [].flatten) = i := by
            rw [single, List.flatten_nil, List.append_nil]
            cases i
            simp_all
          rw [hsame]
        | cons bytes writes =>
          have hfirst := request_write hgroup hbytes h
          have hnext := congrArg Request.next? hfirst
          have hjob : (encoderClient.request i).job? = none := congrArg Request.job? hfirst
          rw [Client.jobs_next (show (encoderClient.request i).next? = some _ from hnext), hjob,
            @ih _ (hless hnext) { i with bytes, calls := writes.map .write } writes rfl rfl]
          rfl

end Collector

section Written

variable {options : EncodeOptions} {parallelism : Nat} {e : EncoderSession}

/-- What is written of these bytes at this level. -/
def written (level : Nat) (data : List UInt8) : List UInt8 :=
  (Outlet.finish ((encoderClient.jobs
      { blockLimit := blockLimit level, bytes := data, calls := [] }).foldl Outlet.commit
    (Outlet.drainBits
      { output := [], bits := (streamHeader level).foldl BitWriter.writeU8 {}, outputLen := 0 }))).1

theorem startEncoder_writes {writes : List (List UInt8)}
    (h : startEncoder options parallelism (writes.map .write) = .ok e) :
    encoderClient.Writes e (fun o _ => o.finish.1)
      (written (options.levelOr 9) writes.flatten) := by
  have hwrites := (startEncoder_begins h).writes fun o _ => o.finish.1
  obtain ⟨-, rfl⟩ := startEncoder_eq_ok h
  have hjobs := @Collector.jobs_single
    { blockLimit := blockLimit (options.levelOr 9), calls := writes.map .write } writes rfl
  rw [written]
  rw [List.nil_append] at hjobs
  exact hjobs ▸ hwrites

end Written

end Fbz.Bzip2
