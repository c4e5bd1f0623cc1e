import Fbz.Concatenation
import Fbz.Bzip2.Progress
import Fbz.Deflate.Progress
import Fbz.Lz4.Wrapping

/-!
# Reports

The reports of the gzip and the LZ4 decoder are exact layouts of what they accept, and the calls of
the progress callback never go down and end with all of the input and of the output.
-/

namespace Fbz

open Transition

private theorem storedMember_accepted :
    ∃ report progress, Reaches (Deflate.DecodeStep
      (⟨⟨1, maxDecodedBlock⟩, 1, fun _ => 0⟩ : Deflate.Setting Crc32.reference) storedMember) .start
        ⟨.returned (.ok ([0x61], report)), progress⟩ :=
  ⟨storedMemberReport, Deflate.decoder_alone rfl storedMember_decodes⟩

private theorem storedFrame_accepted :
    ∃ d report, d.output = [0x61] ∧ Reaches (@Lz4.DecodeStep Lz4.XxHash32.reference
      ⟨⟨1, maxDecodedBlock⟩, 1, List.length⟩ storedFrame) .opened (.returned d (.ok report)) := by
  obtain ⟨d, houtput, hserial⟩ := storedFrame_decodes
  have hruns := @Lz4.decoder_schedule Lz4.XxHash32.reference
    ⟨⟨1, maxDecodedBlock⟩, 1, List.length⟩ storedFrame (by decide)
  obtain ⟨_, hrun, rfl⟩ := hruns.exists_reaches
  rw [hserial] at hrun
  exact ⟨d, storedFrameReport, houtput, hrun⟩

/-- With any number of threads and under any schedule, the report of an accepted input lays out the
input and its output without a gap. -/
theorem decoders_report_exact (crc : Crc32) (xxh : Lz4.XxHash32) (data : List UInt8) :
    (∀ (setting : Deflate.Setting crc) (output : List UInt8) (report : Deflate.Report)
        (progress : List DecodeProgress),
      Reaches (Deflate.DecodeStep setting data) .start
        ⟨.returned (.ok (output, report)), progress⟩ → report.Exact data output) ∧
    (∀ (setting : Lz4.Setting) (d : Lz4.Delivered) (report : Lz4.Report),
      Reaches (@Lz4.DecodeStep xxh setting data) .opened (.returned d (.ok report)) →
        report.Exact data d.output) :=
  ⟨fun _ _ _ _ => Deflate.decoder_exact, fun _ _ _ => Lz4.decoder_exact⟩

/-- A stored byte in either format. -/
theorem decoders_report_exact_stored :
    (∃ report : Deflate.Report, report.Exact [0x1f, 0x8b, 8, 0, 0, 0, 0, 0, 0, 0xff, 1, 1, 0, 0xfe,
      0xff, 0x61, 0x43, 0xbe, 0xb7, 0xe8, 1, 0, 0, 0] [0x61]) ∧
    ∃ report : Lz4.Report, report.Exact [0x04, 0x22, 0x4d, 0x18, 0x60, 0x40, 0x82, 1, 0, 0, 0x80,
      0x61, 0, 0, 0, 0] [0x61] := by
  constructor
  · obtain ⟨report, progress, hrun⟩ := storedMember_accepted
    exact ⟨report, (decoders_report_exact Crc32.reference Lz4.XxHash32.reference _).1 _ _ _ _ hrun⟩
  · obtain ⟨d, report, houtput, hrun⟩ := storedFrame_accepted
    rw [← houtput]
    exact ⟨report, (decoders_report_exact Crc32.reference Lz4.XxHash32.reference _).2 _ _ _ hrun⟩

/-- With any number of threads and under any schedule, the compressed bytes the callback is given
never go down and stay inside the input, accepted or not; nor do the decoded ones go down while a
`u64` holds what has been counted. Once a decoder accepts, the last call is for all of the input and
all of the output. -/
theorem decoders_progress_exact (crc : Crc32) (xxh : Lz4.XxHash32) (data : List UInt8) :
    (∀ (setting : Deflate.Setting crc) (g : Deflate.Decoder crc),
      Reaches (Deflate.DecodeStep setting data) .start g →
        Advancing data g.reported ∧ (Fitting g.counted → Orderly data g.reported) ∧
          ∀ output report, g.stage = .returned (.ok (output, report)) →
            Orderly data g.reported ∧ g.reported.getLast? = some ⟨data.length, output.length⟩) ∧
    (∀ (setting : Bzip2.Setting) (entry : Bzip2.Entry) (g : Bzip2.Decoder),
      Reaches (Bzip2.DecodeStep setting entry data) .start g →
        Orderly data g.reported ∧ ∀ output assembled, g.stage = .returned (.ok (output, assembled)) →
          g.reported.getLast? = some ⟨data.length, output.length⟩ ∧
            ∀ index ∈ assembled, index.decodedLen = output.length) ∧
    ∀ (setting : Lz4.Setting) (s : Lz4.Stage xxh),
      Reaches (Lz4.DecodeStep setting data) .opened s →
        Advancing data s.reported ∧ (Fitting s.counted → Orderly data s.reported) ∧
          ∀ d report, s = .returned d (.ok report) →
            Orderly data s.reported ∧ s.reported.getLast? = some ⟨data.length, d.output.length⟩ :=
  ⟨fun _ _ => Deflate.decoder_progress, fun _ _ _ => Bzip2.decoder_progress,
    fun _ _ => Lz4.decoder_progress⟩

/-- A stored byte in two formats, and two letters. -/
theorem decoders_progress_exact_stored :
    (∃ calls, Orderly storedMember calls ∧ calls.getLast? = some ⟨24, 1⟩) ∧
    (∃ calls, Orderly Bzip2.letters calls ∧ calls.getLast? = some ⟨74, 2⟩) ∧
    ∃ calls, Orderly storedFrame calls ∧ calls.getLast? = some ⟨16, 1⟩ := by
  refine ⟨?_, ?_, ?_⟩
  · obtain ⟨report, progress, hrun⟩ := storedMember_accepted
    obtain ⟨-, -, haccepted⟩ :=
      (decoders_progress_exact Crc32.reference Lz4.XxHash32.reference _).1 _ _ hrun
    exact ⟨_, haccepted _ _ rfl⟩
  · obtain ⟨horderly, hlast⟩ :=
      (decoders_progress_exact Crc32.reference Lz4.XxHash32.reference _).2.1 _ _ _ Bzip2.letters_accepted
    exact ⟨_, horderly, (hlast _ _ rfl).1⟩
  · obtain ⟨d, report, houtput, hrun⟩ := storedFrame_accepted
    obtain ⟨-, -, haccepted⟩ :=
      (decoders_progress_exact Crc32.reference Lz4.XxHash32.reference _).2.2 _ _ hrun
    obtain ⟨horderly, hlast⟩ := haccepted _ _ rfl
    refine ⟨_, horderly, ?_⟩
    rw [hlast, houtput]
    rfl

/-- Frames of 256 bytes and of 256 less than a `u64` counts, compressed to less than an address
counts. The last call before the second frame is refused is for no decoded byte. -/
theorem decoders_progress_wraps :
    (Lz4.runFrame 1 ++ Lz4.runFrame (2 ^ 56 - 1)).length < 2 ^ 63 ∧
      ∃ s : Lz4.Stage Lz4.XxHash32.reference,
        Reaches (Lz4.DecodeStep ⟨⟨1, maxDecodedBlock⟩, 1, List.length⟩
          (Lz4.runFrame 1 ++ Lz4.runFrame (2 ^ 56 - 1))) .opened s ∧
        ¬ Orderly (Lz4.runFrame 1 ++ Lz4.runFrame (2 ^ 56 - 1)) s.reported := by
  constructor
  · rw [List.length_append, Lz4.runFrame_length, Lz4.runFrame_length]
    decide
  · obtain ⟨d, error, calls, last, hserial, hprogress, hcall⟩ :=
      @Lz4.decompressSerial_runs ⟨1, maxDecodedBlock⟩ _ rfl (2 ^ 56 - 1) (by decide) (by decide)
    have hruns := @Lz4.decoder_schedule Lz4.XxHash32.reference
      ⟨⟨1, maxDecodedBlock⟩, 1, List.length⟩ (Lz4.runFrame 1 ++ Lz4.runFrame (2 ^ 56 - 1)) (by decide)
    obtain ⟨_, hrun, rfl⟩ := hruns.exists_reaches
    refine ⟨_, hrun, fun orderly => ?_⟩
    have hpairwise := orderly.neverDecreases
    rw [hserial, Lz4.Stage.reported, Lz4.Stage.counted, hprogress, List.map_append,
      List.pairwise_append] at hpairwise
    have hle := hpairwise.2.2 _ (List.mem_map_of_mem hcall) _ (List.mem_singleton_self _)
    -- both sides no longer depend on where the last block ends
    exact absurd (show 256 % 2 ^ 64 ≤ (256 + 256 * (2 ^ 56 - 1)) % 2 ^ 64 from hle.2) (by decide)

end Fbz
