import Fbz.Bzip2.Session
import Fbz.Deflate.RoundTrip
import Fbz.Lz4.Session

/-!
# The stream encoders

What holds of all encoders, whatever the workers do and however the bytes are split: results are
taken in order within the limits, every run ends, and the bytes alone decide what is written.
-/

namespace Fbz

open Pipeline Transition

variable {F B T : Type}

/-- Every state on the way is orderly, and every run gets to the end. -/
structure RunsOrderly (c : Client F B T) (e : Session F B T) : Prop where
  orderly : ∀ s, Reaches c.Step e s → Client.Orderly s
  ends : Inevitable c.Step (c.Complete e) e

private theorem Pipeline.Client.Begins.runsOrderly {c : Client F B T} {e : Session F B T}
    (h : c.Begins e) : RunsOrderly c e where
  orderly _ run := h.orderly run
  ends := h.inevitable

/-- An encoder that runs in order whenever it is accepted. -/
def AlwaysOrderly (c : Client F B T)
    (start : EncodeOptions → Nat → List Call → Result (Session F B T)) : Prop :=
  ∀ options parallelism calls e, start options parallelism calls = .ok e → RunsOrderly c e

/-- The pool hands results back in order and within its limits, and no call on it fails: for any
calls on the encoders and any order in which the workers finish. -/
theorem encoders_orderly (crc : Crc32) (xxh : Lz4.XxHash32) (output : List UInt8) :
    AlwaysOrderly (Deflate.Encode.client crc)
        (fun options parallelism calls =>
          Deflate.Encode.start crc options parallelism calls output) ∧
      AlwaysOrderly Bzip2.encoderClient Bzip2.startEncoder ∧
      AlwaysOrderly (Lz4.client xxh) (Lz4.start xxh) := by
  refine ⟨?_, ?_, ?_⟩
  · intro options parallelism calls e h
    exact (Deflate.Encode.start_begins h).runsOrderly
  · intro options parallelism calls e h
    exact (Bzip2.startEncoder_begins h).runsOrderly
  · intro options parallelism calls e h
    exact (Lz4.start_begins h).runsOrderly

/-- Two writes with a flush between: two workers for gzip and bzip2, four for LZ4. -/
theorem encoders_orderly_flushed :
    (∃ e, Deflate.Encode.start .reference ⟨2, 2 ^ 30, some 9⟩ 1
        [.write [7, 7, 7], .flush, .write [7, 7]] [] = .ok e ∧
      RunsOrderly (Deflate.Encode.client .reference) e) ∧
    (∃ e, Bzip2.startEncoder ⟨2, 2 ^ 30, some 1⟩ 1
        [.write [7, 7, 7], .flush, .write [7, 7]] = .ok e ∧ RunsOrderly Bzip2.encoderClient e) ∧
    ∃ e, Lz4.start .reference ⟨4, 2 ^ 30, some 9⟩ 1
        [.write [7, 7, 7], .flush, .write [7, 7]] = .ok e ∧
      RunsOrderly (Lz4.client .reference) e := by
  obtain ⟨hgzip, hbzip2, hlz4⟩ := encoders_orderly .reference .reference []
  obtain ⟨e, he⟩ := @Deflate.Encode.start_accepts ⟨2, 2 ^ 30, some 9⟩ .reference 1
    [.write [7, 7, 7], .flush, .write [7, 7]] [] rfl (by decide)
  obtain ⟨e', he'⟩ := @Lz4.start_accepts ⟨4, 2 ^ 30, some 9⟩ .reference 1
    [.write [7, 7, 7], .flush, .write [7, 7]] rfl (by decide)
  have hstart : Bzip2.startEncoder ⟨2, 2 ^ 30, some 1⟩ 1 [.write [7, 7, 7], .flush, .write [7, 7]] =
      .ok (Bzip2.freshEncoder ⟨2, 2 ^ 30, some 1⟩ 1 [.write [7, 7, 7], .flush, .write [7, 7]]) := rfl
  exact ⟨⟨e, he, hgzip _ _ _ _ he⟩, ⟨_, hstart, hbzip2 _ _ _ _ hstart⟩, e', he', hlz4 _ _ _ _ he'⟩

/-- Two encoders at the same level and memory limit that get the same bytes write the same bytes:
for any threads, any split over writes and any order in which the workers finish. -/
def Reproducible (c : Client F B T) (written : B → F → List UInt8)
    (start : EncodeOptions → Nat → List Call → Result (Session F B T)) : Prop :=
  ∀ options options' parallelism parallelism' (writes writes' : List (List UInt8)) e e',
    options.level = options'.level → options.memoryLimit = options'.memoryLimit →
    writes.flatten = writes'.flatten →
    start options parallelism (writes.map .write) = .ok e →
    start options' parallelism' (writes'.map .write) = .ok e' →
    ∃ bytes, c.Writes e written bytes ∧ c.Writes e' written bytes

private theorem levelOr_congr {options options' : EncodeOptions}
    (h : options.level = options'.level)
    (default : Nat) : options.levelOr default = options'.levelOr default := by
  rw [EncodeOptions.levelOr, EncodeOptions.levelOr, h]

/-- What an encoder writes is a function of level, memory limit and bytes. -/
theorem encoders_reproducible (crc : Crc32) (xxh : Lz4.XxHash32) :
    Reproducible (Deflate.Encode.client crc) (fun o _ => (Gzip.finish o).1) (Gzip.start crc) ∧
      Reproducible Bzip2.encoderClient (fun o _ => o.finish.1) Bzip2.startEncoder ∧
      Reproducible (Lz4.client xxh) (fun o i => (o.finish i).1) (Lz4.start xxh) := by
  refine ⟨?_, ?_, ?_⟩
  · intro options options' _ _ writes writes' e e' level memory same h h'
    obtain ⟨size, hsize, hwrites⟩ := Gzip.start_writes h
    obtain ⟨size', hsize', hwrites'⟩ := Gzip.start_writes h'
    obtain rfl : size = size' := Except.ok.inj (hsize.symm.trans (memory ▸ hsize'))
    rw [← same, ← levelOr_congr level] at hwrites'
    exact ⟨_, hwrites, hwrites'⟩
  · intro options options' _ _ writes writes' e e' level memory same h h'
    have hwrites := Bzip2.startEncoder_writes h
    have hwrites' := Bzip2.startEncoder_writes h'
    rw [← same, ← levelOr_congr level] at hwrites'
    exact ⟨_, hwrites, hwrites'⟩
  · intro options options' _ _ writes writes' e e' level memory same h h'
    obtain ⟨size, hsize, hwrites⟩ := Lz4.start_writes h
    obtain ⟨size', hsize', hwrites'⟩ := Lz4.start_writes h'
    obtain rfl : size = size' := Except.ok.inj (hsize.symm.trans (memory ▸ hsize'))
    rw [← same, ← levelOr_congr level] at hwrites'
    exact ⟨_, hwrites, hwrites'⟩

/-- The same five bytes in one write on one worker, and in two on four. -/
theorem encoders_reproducible_split :
    (∃ e e', Gzip.start .reference ⟨1, 2 ^ 30, some 9⟩ 1 ([[7, 7, 7, 8, 8]].map .write) = .ok e ∧
      Gzip.start .reference ⟨4, 2 ^ 30, some 9⟩ 1 ([[7, 7], [7, 8, 8]].map .write) = .ok e' ∧
      ∃ bytes, (Deflate.Encode.client .reference).Writes e (fun o _ => (Gzip.finish o).1) bytes ∧
        (Deflate.Encode.client .reference).Writes e' (fun o _ => (Gzip.finish o).1) bytes) ∧
    (∃ e e', Bzip2.startEncoder ⟨1, 2 ^ 30, some 1⟩ 1 ([[7, 7, 7, 8, 8]].map .write) = .ok e ∧
      Bzip2.startEncoder ⟨4, 2 ^ 30, some 1⟩ 1 ([[7, 7], [7, 8, 8]].map .write) = .ok e' ∧
      ∃ bytes, Bzip2.encoderClient.Writes e (fun o _ => o.finish.1) bytes ∧
        Bzip2.encoderClient.Writes e' (fun o _ => o.finish.1) bytes) ∧
    ∃ e e', Lz4.start .reference ⟨1, 2 ^ 30, some 9⟩ 1 ([[7, 7, 7, 8, 8]].map .write) = .ok e ∧
      Lz4.start .reference ⟨4, 2 ^ 30, some 9⟩ 1 ([[7, 7], [7, 8, 8]].map .write) = .ok e' ∧
      ∃ bytes, (Lz4.client .reference).Writes e (fun o i => (o.finish i).1) bytes ∧
        (Lz4.client .reference).Writes e' (fun o i => (o.finish i).1) bytes := by
  obtain ⟨hgzip, hbzip2, hlz4⟩ := encoders_reproducible .reference .reference
  refine ⟨?_, ?_, ?_⟩
  · obtain ⟨e, he⟩ := @Deflate.gzip_start_accepts ⟨1, 2 ^ 30, some 9⟩ .reference 1
      ([[7, 7, 7, 8, 8]].map .write) rfl (by decide)
    obtain ⟨e', he'⟩ := @Deflate.gzip_start_accepts ⟨4, 2 ^ 30, some 9⟩ .reference 1
      ([[7, 7], [7, 8, 8]].map .write) rfl (by decide)
    exact ⟨e, e', he, he', hgzip ⟨1, 2 ^ 30, some 9⟩ ⟨4, 2 ^ 30, some 9⟩ _ _ [[7, 7, 7, 8, 8]]
      [[7, 7], [7, 8, 8]] e e' rfl rfl rfl he he'⟩
  · exact ⟨_, _, rfl, rfl, hbzip2 ⟨1, 2 ^ 30, some 1⟩ ⟨4, 2 ^ 30, some 1⟩ 1 1 [[7, 7, 7, 8, 8]]
      [[7, 7], [7, 8, 8]] _ _ rfl rfl rfl rfl rfl⟩
  · obtain ⟨e, he⟩ := @Lz4.start_accepts ⟨1, 2 ^ 30, some 9⟩ .reference 1
      ([[7, 7, 7, 8, 8]].map .write) rfl (by decide)
    obtain ⟨e', he'⟩ := @Lz4.start_accepts ⟨4, 2 ^ 30, some 9⟩ .reference 1
      ([[7, 7], [7, 8, 8]].map .write) rfl (by decide)
    exact ⟨e, e', he, he', hlz4 ⟨1, 2 ^ 30, some 9⟩ ⟨4, 2 ^ 30, some 9⟩ _ _ [[7, 7, 7, 8, 8]]
      [[7, 7], [7, 8, 8]] e e' rfl rfl rfl he he'⟩

end Fbz
