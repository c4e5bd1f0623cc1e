import Fbz.Crc32
import Fbz.Bzip2.IndexRoundTrip
import Fbz.Bzip2.Locality
import Fbz.Deflate.Locality
import Fbz.Lz4.Locality

/-!
# Joined and cut inputs

What the serial decoders make of two inputs joined, and of an input that has been cut. Both follow
from the turns of their loops, which run the same way wherever their bytes stand.
-/

namespace Fbz

variable {crc : Crc32} {xxh : Lz4.XxHash32} {options : DecodeOptions} {x y : List UInt8}

namespace Deflate

/-- The last member ends where the input does. -/
def Report.EndsAt (report : Report) (length : Nat) : Prop :=
  ∀ m ∈ report.members.getLast?, m.compressedEnd = length

private theorem stops_join {stop : Nat} {d e : Unpacked} (some : d.members ≠ [])
    (h : Stops y (stop, e)) : Stops (x ++ y) (x.length + stop, d.join x.length e) := by
  rcases h with hend | ⟨-, hzero⟩
  · exact .inl (by dsimp only at hend ⊢; rw [List.length_append]; omega)
  · refine .inr ⟨by simp [Unpacked.join, some], ?_⟩
    rwa [List.drop_append, List.drop_of_length_le (Nat.le_add_right ..), List.nil_append,
      Nat.add_sub_cancel_left]

private theorem decompressSerial_append {outputX outputY : List UInt8} {reportX reportY : Report}
    (hx : decompressSerial crc x options = .ok (outputX, reportX))
    (hy : decompressSerial crc y options = .ok (outputY, reportY))
    (whole : reportX.EndsAt x.length) (fits : outputX.length + outputY.length < 2 ^ 64)
    (few : reportX.members.length + reportY.members.length < 2 ^ 32) :
    ∃ report, decompressSerial crc (x ++ y) options = .ok (outputX ++ outputY, report) ∧
      report.members = reportX.members ++ reportY.members.map
        (.move ⟨x.length, outputX.length, reportX.members.length, reportX.blocks.length⟩) ∧
      report.blocks = reportX.blocks ++ reportY.blocks.map
        (.move ⟨x.length, outputX.length, reportX.members.length, reportX.blocks.length⟩) := by
  obtain ⟨hvalid, stop, d, hturns, hstops, hsome, rfl, rfl⟩ := decompressSerial_eq_ok.mp hx
  obtain ⟨-, stop', e, hturns', hstops', -, rfl, rfl⟩ := decompressSerial_eq_ok.mp hy
  have hcounted : d.decodedTotal = d.output.length := turns_counted rfl hturns
  have hcounted' : e.decodedTotal = e.output.length := turns_counted rfl hturns'
  obtain rfl : stop = x.length := by
    obtain ⟨more, heq, -, -, hlast⟩ := turns_members hturns
    rw [List.nil_append] at heq
    have hm := List.getLast?_eq_some_getLast hsome
    exact (hlast _ (heq ▸ hm)).symm.trans (whole _ hm)
  dsimp only [Unpacked.report] at few
  have hfirst := turns_append hturns y
  have hsecond := @turns_embed x y [] crc d _ _ (by dsimp only; omega) (by dsimp only; omega) hturns'
  rw [List.append_nil, Unpacked.join_empty] at hsecond
  refine ⟨(d.join x.length e).report (x ++ y), decompressSerial_eq_ok.mpr ⟨hvalid, _, _,
    hfirst.trans hsecond, stops_join hsome hstops', ?_, rfl, rfl⟩, ?_, ?_⟩
  · simp [Unpacked.join, hsome]
  · simp only [Unpacked.report, Unpacked.join, Unpacked.shift, hcounted]
  · simp only [Unpacked.report, Unpacked.join, Unpacked.shift, hcounted]

/-- A member that takes the whole input is not accepted when some of its end is missing. -/
theorem decompressSerial_cut {z w output : List UInt8} {report : Report} (cut : w ≠ [])
    (h : decompressSerial crc (z ++ w) options = .ok (output, report))
    (single : report.members.length = 1) (whole : report.EndsAt (z ++ w).length) :
    ∃ error, decompressSerial crc z options = .error error := by
  cases hz : decompressSerial crc z options with
  | error error => exact ⟨error, rfl⟩
  | ok accepted =>
    obtain ⟨-, stop, d, hturns, -, hsome, -, -⟩ := decompressSerial_eq_ok.mp hz
    obtain ⟨-, stop', e, hturns', hstops', -, -, rfl⟩ := decompressSerial_eq_ok.mp h
    -- the longer input is read on from where the shorter one ends
    have hrest : membersFrom crc (z ++ w) stop d = .ok e :=
      (membersFrom_turns (turns_append hturns w)).symm.trans
        (membersFrom_eq_ok.mpr ⟨stop', hturns', hstops'⟩)
    obtain ⟨_, hmore, -⟩ := membersFrom_eq_ok.mp hrest
    obtain ⟨later, heq, -⟩ := turns_members hmore
    obtain ⟨earlier, hearlier, hinside, -⟩ := turns_members hturns
    rw [List.nil_append] at hearlier
    dsimp only at heq hearlier
    obtain ⟨m, hm⟩ := List.length_eq_one_iff.mp single
    have hd : d.members = [m] := by
      cases hmembers : d.members with
      | nil => exact absurd hmembers hsome
      | cons first others =>
        have hall : e.members = [m] := hm
        rw [heq, hmembers] at hall
        obtain ⟨rfl, hnil⟩ := List.cons.inj hall
        rw [(List.append_eq_nil_iff.mp hnil).1]
    have hshort := hinside m (by rw [← hearlier, hd]; exact List.mem_singleton_self m)
    have hlong := whole m (by rw [hm]; rfl)
    have := List.length_pos_of_ne_nil cut
    rw [List.length_append] at hlong
    omega

end Deflate

namespace Bzip2

private theorem decompressSerial_append {outputX outputY : List UInt8}
    (hx : decompressSerial x options = .ok outputX) (hy : decompressSerial y options = .ok outputY)
    (fits : outputX.length + outputY.length < 2 ^ 64) :
    decompressSerial (x ++ y) options = .ok (outputX ++ outputY) := by
  obtain ⟨hvalid, stop, d, hturns, hend, rfl⟩ := decompressSerial_eq_ok.mp hx
  obtain ⟨-, stop', e, hturns', hend', rfl⟩ := decompressSerial_eq_ok.mp hy
  have hcounted : d.decodedBytes = d.output.length := turns_counted rfl hturns
  have hcounted' : e.decodedBytes = e.output.length := turns_counted rfl hturns'
  have hle : stop ≤ x.length * 8 := turns_end (Nat.zero_le _) hturns
  obtain rfl : stop = 8 * x.length := by omega
  have hfirst := turns_append hturns y
  have hsecond := @turns_embed x y [] d _ _ (by dsimp only; omega) hturns'
  rw [List.append_nil, Decoded.join_empty] at hsecond
  refine decompressSerial_eq_ok.mpr ⟨hvalid, _, _, hfirst.trans hsecond, ?_, rfl⟩
  rw [List.length_append]
  dsimp only
  omega

/-- The input is one stream, up to the bits that fill its last byte. -/
def IsStream (data : List UInt8) : Prop :=
  ∃ d next, decodeStream data 0 {} = .ok (d, next) ∧ Bits.alignByte next = data.length * 8

private theorem decompressSerial_cut {z w : List UInt8} (some : z ≠ []) (cut : w ≠ [])
    (whole : IsStream (z ++ w)) : ∃ error, decompressSerial z options = .error error := by
  cases hz : decompressSerial z options with
  | error error => exact ⟨error, rfl⟩
  | ok accepted =>
    obtain ⟨-, stop, d, hturns, hend, -⟩ := decompressSerial_eq_ok.mp hz
    obtain ⟨e, next, hstream, halign⟩ := whole
    have hlength := List.length_pos_of_ne_nil some
    have hcut := List.length_pos_of_ne_nil cut
    rcases Relation.ReflTransGen.cases_head hturns with heq | ⟨after, hturn, hlater⟩
    · cases heq
      omega
    · have htotal := turns_bounded (by decide) (.single hturn)
      obtain ⟨-, next', hstream', hafter⟩ :=
        @Turn.embed [] z w {} _ _ (by simpa [Decoded.join] using htotal) hturn
      have hinside := hturn.advances.2
      have hsame : decodeStream (z ++ w) 0 {} = .ok (after.2, next') := by
        simpa [Bits.alignByte] using hstream'
      cases hsame.symm.trans hstream
      rw [List.length_nil, Nat.mul_zero, Nat.zero_add] at hafter
      rw [← hafter, List.length_append] at halign
      omega

end Bzip2

namespace Lz4

private theorem decompressSerial_append {deliveredX deliveredY : Delivered}
    {reportX reportY : Report} (hx : decompressSerial xxh x options = (deliveredX, .ok reportX))
    (hy : decompressSerial xxh y options = (deliveredY, .ok reportY))
    (fits : deliveredX.output.length + deliveredY.output.length < 2 ^ 64)
    (few : reportX.frames.length + reportY.frames.length < 2 ^ 32) :
    ∃ delivered report, decompressSerial xxh (x ++ y) options = (delivered, .ok report) ∧
      delivered.output = deliveredX.output ++ deliveredY.output ∧
      report.frames = reportX.frames ++ reportY.frames.map (.move
        ⟨x.length, deliveredX.output.length, reportX.frames.length, reportX.blocks.length⟩) ∧
      report.blocks = reportX.blocks ++ reportY.blocks.map (.move
        ⟨x.length, deliveredX.output.length, reportX.frames.length, reportX.blocks.length⟩) := by
  obtain ⟨hvalid, stop, d, hturns, hend, hsome, rfl, rfl⟩ := decompressSerial_eq_ok.mp hx
  obtain ⟨-, stop', e, hturns', hend', -, rfl, rfl⟩ := decompressSerial_eq_ok.mp hy
  have hcounted : d.decodedTotal = d.output.length := turns_counted rfl hturns
  have hcounted' : e.decodedTotal = e.output.length := turns_counted rfl hturns'
  have hle : stop ≤ x.length := turns_end (Nat.zero_le _) hturns
  obtain rfl : stop = x.length := by omega
  dsimp only at fits few
  have hfirst := turns_append hturns y
  have hsecond := @turns_embed x y [] xxh d _ _ (by dsimp only; omega) (by dsimp only; omega) hturns'
  rw [List.append_nil, Delivered.join_empty] at hsecond
  refine ⟨_, _, decompressSerial_eq_ok.mpr ⟨hvalid, _, _, hfirst.trans hsecond, ?_, ?_, rfl, rfl⟩, rfl,
    ?_, ?_⟩
  · rw [List.length_append]
    dsimp only
    omega
  · simp [Delivered.join, hsome]
  · simp only [Delivered.join, Delivered.shift, hcounted]
  · simp only [Delivered.join, Delivered.shift, hcounted]

private theorem decompressSerial_cut {z w : List UInt8} {delivered : Delivered} {report : Report}
    (cut : w ≠ []) (h : decompressSerial xxh (z ++ w) options = (delivered, .ok report))
    (single : report.frames.length = 1)
    (whole : ∀ frame ∈ report.frames, frame.compressedEnd = (z ++ w).length) :
    ∃ delivered error, decompressSerial xxh z options = (delivered, .error error) := by
  rcases hz : decompressSerial xxh z options with ⟨delivered', error | accepted⟩
  · exact ⟨delivered', error, rfl⟩
  · obtain ⟨-, stop, d, hturns, -, hsome, -, -⟩ := decompressSerial_eq_ok.mp hz
    obtain ⟨-, stop', e, hturns', hend', -, -, rfl⟩ := decompressSerial_eq_ok.mp h
    -- the longer input is read on from where the shorter one ends
    have hrest : decompressFramesFrom xxh (z ++ w) stop d = (e, .ok ()) :=
      (decompressFramesFrom_turns (turns_append hturns w)).symm.trans
        (decompressFramesFrom_eq_ok.mpr ⟨stop', hturns', hend'⟩)
    obtain ⟨_, hmore, -⟩ := decompressFramesFrom_eq_ok.mp hrest
    obtain ⟨later, heq, -⟩ := turns_frames hmore
    obtain ⟨earlier, hearlier, hinside⟩ := turns_frames hturns
    rw [List.nil_append] at hearlier
    dsimp only at heq hearlier whole
    obtain ⟨frame, hframe⟩ := List.exists_mem_of_ne_nil _ hsome
    have hshort := hinside frame (hearlier ▸ hframe)
    have hlong := whole frame (heq ▸ List.mem_append_left _ hframe)
    have := List.length_pos_of_ne_nil cut
    rw [List.length_append] at hlong
    omega

end Lz4

/-- A gzip member with a stored byte. -/
def storedMember : List UInt8 :=
  [0x1f, 0x8b, 8, 0, 0, 0, 0, 0, 0, 0xff, 1, 1, 0, 0xfe, 0xff, 0x61, 0x43, 0xbe, 0xb7, 0xe8, 1, 0, 0, 0]

def storedMemberReport : Deflate.Report where
  sourceLen := 24
  decodedLen := 1
  members := [⟨0, 10, 24, 0, 1, 3904355907, 0, 0, 255, none, none⟩]
  blocks := [⟨0, .stored, true, 80, 128, 0, 1⟩]
  speculativeChunks := 0
  fallbackChunks := 0

/-- An LZ4 frame with a stored byte. -/
def storedFrame : List UInt8 :=
  [0x04, 0x22, 0x4d, 0x18, 0x60, 0x40, 0x82, 1, 0, 0, 0x80, 0x61, 0, 0, 0, 0]

def storedFrameReport : Lz4.Report where
  sourceLen := 16
  decodedLen := 1
  frames := [⟨0, 16, 0, 1, 65536, .independent, false, false, none, 0, 1⟩]
  blocks := [⟨0, 11, 12, 0, 1, true⟩]

theorem storedMember_decodes : Deflate.decompressSerial Crc32.reference storedMember
    ⟨1, maxDecodedBlock⟩ = .ok ([0x61], storedMemberReport) := by
  decide +kernel

private theorem letter_decodes :
    Bzip2.decompressSerial Bzip2.Index.letter ⟨1, maxDecodedBlock⟩ = .ok [0x61] := by
  decide +kernel

theorem storedFrame_decodes : ∃ d : Lz4.Delivered, d.output = [0x61] ∧
    Lz4.decompressSerial Lz4.XxHash32.reference storedFrame ⟨1, maxDecodedBlock⟩ =
      (d, .ok storedFrameReport) := by
  have h : (Lz4.decompressSerial Lz4.XxHash32.reference storedFrame ⟨1, maxDecodedBlock⟩).1.output =
        [0x61] ∧
      (Lz4.decompressSerial Lz4.XxHash32.reference storedFrame ⟨1, maxDecodedBlock⟩).2 =
        .ok storedFrameReport := by
    decide +kernel
  exact ⟨_, h.1, Prod.ext rfl h.2⟩

private theorem letter_isStream : Bzip2.IsStream Bzip2.Index.letter := by
  have h : (Bzip2.decodeStream Bzip2.Index.letter 0 {}).toOption.any fun p =>
      Bzip2.Bits.alignByte p.2 = Bzip2.Index.letter.length * 8 := by
    decide +kernel
  obtain ⟨⟨d, next⟩, hstream, halign⟩ := (Option.any_eq_true ..).mp h
  exact ⟨d, next, toOption_eq_some.mp hstream, of_decide_eq_true halign⟩

/-- The serial decoders accept two accepted inputs joined, and put out what they put out for each.
What they report for the second is moved by what the first has counted. -/
theorem serialDecoders_append (crc : Crc32) (xxh : Lz4.XxHash32) (options : DecodeOptions)
    (x y : List UInt8) :
    (∀ outputX outputY reportX reportY,
      Deflate.decompressSerial crc x options = .ok (outputX, reportX) →
      Deflate.decompressSerial crc y options = .ok (outputY, reportY) →
      reportX.EndsAt x.length → outputX.length + outputY.length < 2 ^ 64 →
      reportX.members.length + reportY.members.length < 2 ^ 32 →
      ∃ report, Deflate.decompressSerial crc (x ++ y) options = .ok (outputX ++ outputY, report) ∧
        report.members = reportX.members ++ reportY.members.map
          (.move ⟨x.length, outputX.length, reportX.members.length, reportX.blocks.length⟩) ∧
        report.blocks = reportX.blocks ++ reportY.blocks.map
          (.move ⟨x.length, outputX.length, reportX.members.length, reportX.blocks.length⟩)) ∧
    (∀ outputX outputY, Bzip2.decompressSerial x options = .ok outputX →
      Bzip2.decompressSerial y options = .ok outputY →
      outputX.length + outputY.length < 2 ^ 64 →
      Bzip2.decompressSerial (x ++ y) options = .ok (outputX ++ outputY)) ∧
    (∀ deliveredX deliveredY reportX reportY,
      Lz4.decompressSerial xxh x options = (deliveredX, .ok reportX) →
      Lz4.decompressSerial xxh y options = (deliveredY, .ok reportY) →
      deliveredX.output.length + deliveredY.output.length < 2 ^ 64 →
      reportX.frames.length + reportY.frames.length < 2 ^ 32 →
      ∃ delivered report, Lz4.decompressSerial xxh (x ++ y) options = (delivered, .ok report) ∧
        delivered.output = deliveredX.output ++ deliveredY.output ∧
        report.frames = reportX.frames ++ reportY.frames.map (.move
          ⟨x.length, deliveredX.output.length, reportX.frames.length, reportX.blocks.length⟩) ∧
        report.blocks = reportX.blocks ++ reportY.blocks.map (.move
          ⟨x.length, deliveredX.output.length, reportX.frames.length, reportX.blocks.length⟩)) :=
  ⟨fun _ _ _ _ => Deflate.decompressSerial_append, fun _ _ => Bzip2.decompressSerial_append,
    fun _ _ _ _ => Lz4.decompressSerial_append⟩

/-- A stored byte twice, and a letter twice. -/
theorem serialDecoders_append_stored :
    (∃ report, Deflate.decompressSerial Crc32.reference (storedMember ++ storedMember)
        ⟨1, maxDecodedBlock⟩ = .ok ([0x61, 0x61], report) ∧
      report.members.map Deflate.Member.compressedEnd = [24, 48] ∧
      report.blocks.map Deflate.Block.member = [0, 1]) ∧
    Bzip2.decompressSerial (Bzip2.Index.letter ++ Bzip2.Index.letter) ⟨1, maxDecodedBlock⟩ =
      .ok [0x61, 0x61] ∧
    ∃ delivered report, Lz4.decompressSerial Lz4.XxHash32.reference (storedFrame ++ storedFrame)
        ⟨1, maxDecodedBlock⟩ = (delivered, .ok report) ∧ delivered.output = [0x61, 0x61] ∧
      report.frames.map Lz4.Frame.firstBlock = [0, 1] ∧
      report.blocks.map Lz4.Block.compressedEnd = [12, 28] := by
  have append := serialDecoders_append Crc32.reference Lz4.XxHash32.reference ⟨1, maxDecodedBlock⟩
  refine ⟨?_, ?_, ?_⟩
  · obtain ⟨report, hserial, hmembers, hblocks⟩ := (append storedMember storedMember).1 _ _ _ _
      storedMember_decodes storedMember_decodes
      (fun m hm => by obtain rfl := Option.some.inj hm; rfl) (by decide) (by decide)
    exact ⟨report, hserial, hmembers ▸ rfl, hblocks ▸ rfl⟩
  · exact (append _ _).2.1 _ _ letter_decodes letter_decodes (by decide)
  · obtain ⟨d, houtput, hd⟩ := storedFrame_decodes
    obtain ⟨delivered, report, hserial, hboth, hframes, hblocks⟩ :=
      (append storedFrame storedFrame).2.2 _ _ _ _ hd hd (by rw [houtput]; decide) (by decide)
    rw [houtput] at hboth hframes hblocks
    exact ⟨delivered, report, hserial, hboth, hframes ▸ rfl, hblocks ▸ rfl⟩

/-- An input that is one member, stream or frame and nothing else is refused when it is cut anywhere
but at its beginning. -/
theorem serialDecoders_cut (crc : Crc32) (xxh : Lz4.XxHash32) (options : DecodeOptions)
    (z w : List UInt8) (some : z ≠ []) (cut : w ≠ []) :
    (∀ output report, Deflate.decompressSerial crc (z ++ w) options = .ok (output, report) →
      report.members.length = 1 → report.EndsAt (z ++ w).length →
      ∃ error, Deflate.decompressSerial crc z options = .error error) ∧
    (∀ output, Bzip2.decompressSerial (z ++ w) options = .ok output → Bzip2.IsStream (z ++ w) →
      ∃ error, Bzip2.decompressSerial z options = .error error) ∧
    (∀ delivered report,
      Lz4.decompressSerial xxh (z ++ w) options = (delivered, .ok report) →
      report.frames.length = 1 → (∀ frame ∈ report.frames, frame.compressedEnd = (z ++ w).length) →
      ∃ delivered error, Lz4.decompressSerial xxh z options = (delivered, .error error)) :=
  ⟨fun _ _ => Deflate.decompressSerial_cut cut, fun _ _ => Bzip2.decompressSerial_cut some cut,
    fun _ _ => Lz4.decompressSerial_cut cut⟩

theorem serialDecoders_cut_stored :
    (∃ error, Deflate.decompressSerial Crc32.reference (storedMember.take 20) ⟨1, maxDecodedBlock⟩ =
      .error error) ∧
    (∃ error, Bzip2.decompressSerial (Bzip2.Index.letter.take 20) ⟨1, maxDecodedBlock⟩ =
      .error error) ∧
    ∃ delivered error, Lz4.decompressSerial Lz4.XxHash32.reference (storedFrame.take 12)
      ⟨1, maxDecodedBlock⟩ = (delivered, .error error) := by
  have cut := serialDecoders_cut Crc32.reference Lz4.XxHash32.reference ⟨1, maxDecodedBlock⟩
  refine ⟨?_, ?_, ?_⟩
  · exact (cut (storedMember.take 20) (storedMember.drop 20) (by decide) (by decide)).1 _ _
      storedMember_decodes rfl fun m hm => by obtain rfl := Option.some.inj hm; rfl
  · exact (cut (Bzip2.Index.letter.take 20) (Bzip2.Index.letter.drop 20) (by decide) (by decide)).2.1
      _ letter_decodes letter_isStream
  · obtain ⟨d, -, hd⟩ := storedFrame_decodes
    exact (cut (storedFrame.take 12) (storedFrame.drop 12) (by decide) (by decide)).2.2 _ _ hd rfl
      fun frame hframe => by obtain rfl := List.mem_singleton.mp hframe; rfl

end Fbz
