import Fbz.Deflate.Decoder
import Fbz.Deflate.SegmentRoundTrip

/-!
# What is written is decoded

The gzip encoder writes one member, whatever calls it gets and whatever the workers do, and one
thread decodes it to the bytes of the calls.
-/

namespace Fbz.Deflate

open BitOrder Encode Gzip Pipeline Relation Transition

variable {crc : Crc32}

private theorem encodeSegment_parts (buffer : List UInt8) (prefixLen level : Nat) :
    (encodeSegment crc buffer prefixLen level).inputLen = (buffer.drop prefixLen).length ∧
      (encodeSegment crc buffer prefixLen level).crc =
        crc.update crc.new (buffer.drop prefixLen) := by
  have hsegment : encodeSegment? crc buffer prefixLen level =
      some (encodeSegment crc buffer prefixLen level) := (Option.some_get _).symm
  obtain ⟨dynamic, -, heq⟩ := Option.bind_eq_some_iff.mp hsegment
  rw [← Option.some.inj heq]
  exact ⟨rfl, rfl⟩

/-- The outlet has these bytes behind it, and what it has written of them. -/
structure Encode.Outlet.Has (o : Outlet crc) (front encoded plain : List UInt8) : Prop where
  output : o.output = front ++ encoded
  crc : o.crc = crc.update crc.new plain
  inputLen : o.inputLen = plain.length
  outputLen : o.outputLen = encoded.length

private theorem Encode.Outlet.Has.foldl_commit {o : Outlet crc} {level : Nat}
    {front encoded before after : List UInt8} {parts : List (List UInt8 × Nat)} (h : o.Has front encoded before)
    (continues : Continues before parts after) :
    ((parts.map fun part => encodeSegment crc part.1 part.2 level).foldl Outlet.commit o).Has front
      (encoded ++ encodedParts crc level parts) after := by
  induction continues generalizing o encoded with
  | done before => simpa [encodedParts] using h
  | @part before dictionary chunk after parts behind _ ih =>
    obtain ⟨hlength, hcrc⟩ :=
      @encodeSegment_parts crc (dictionary ++ chunk) dictionary.length level
    rw [List.drop_left] at hlength hcrc
    rw [List.map_cons, List.foldl_cons, encodedParts, List.flatMap_cons, ← List.append_assoc]
    apply ih
    constructor
    · rw [Outlet.commit, h.output, List.append_assoc]
    · rw [Outlet.commit, h.crc, hcrc, crc.combine_update]
    · rw [Outlet.commit, h.inputLen, hlength, List.length_append]
    · rw [Outlet.commit, h.outputLen, List.length_append]

private theorem fresh_has {level : Nat} {size : { size : Nat // 0 < size }} (calls : List Call)
    (front : List UInt8) :
    ∃ parts, Continues [] parts (calls.map Call.bytes).flatten ∧
      (((client crc).jobs (.new level size () calls)).foldl Outlet.commit
        { output := front, crc := crc.new }).Has front (encodedParts crc level parts)
          (calls.map Call.bytes).flatten := by
  have hkept : ∀ buffer, (cutting crc).kept buffer <:+ buffer := by
    intro buffer
    exact List.drop_suffix _ _
  obtain ⟨parts, hjobs, hcontinues⟩ :=
    @Intake.jobs_new_take _ _ _ (cutting crc) Outlet.commit hkept level size () calls
  have hstart : ({ output := front, crc := crc.new } : Outlet crc).Has front [] [] :=
    ⟨(List.append_nil _).symm, (crc.update_nil _).symm, rfl, rfl⟩
  refine ⟨parts, hcontinues, ?_⟩
  rw [client, hjobs]
  exact hstart.foldl_commit hcontinues

private theorem Rests.behind (front back : List UInt8) :
    Rests (front ++ back) (8 * front.length) (bitString back) := by
  have hstart := Rests.start (front ++ back)
  rw [bitString_append] at hstart
  have hbehind := hstart.skip
  rwa [bitString_length, Nat.zero_add] at hbehind

/-- What the decoder returns of a stream of these bytes. -/
structure Unpacks (crc : Crc32) (plain : List UInt8) (stop : Nat) (report : DeflateReport) :
    Prop where
  compressedEndBit : report.compressedEndBit = 8 * stop
  decodedLen : report.decodedLen = plain.length
  crc : report.crc = crc.hash plain

private theorem decompress_encodedParts {level : Nat} {parts : List (List UInt8 × Nat)}
    {plain : List UInt8} (continues : Continues [] parts plain) (small : plain.length < 2 ^ 64)
    (front back : List UInt8) (member base : Nat) :
    ∃ report, decompressDeflateSerialStream crc
        (front ++ (encodedParts crc level parts ++ finalBlock ++ back)) front.length member base =
          .ok (plain, report) ∧
      Unpacks crc plain (front.length + (encodedParts crc level parts ++ finalBlock).length)
        report := by
  generalize hdata : front ++ (encodedParts crc level parts ++ finalBlock ++ back) = data
  have hstream := Rests.behind front (encodedParts crc level parts ++ finalBlock ++ back)
  rw [hdata, bitString_append, Nat.mul_comm] at hstream
  obtain ⟨blocks, hblocks⟩ :=
    decodeDeflate_encodedParts continues (Nat.mul_mod_left front.length 8) hstream
  obtain ⟨history, blocks', last, hhistory, -, hserial⟩ | ⟨-, hlarge⟩ :=
    serialStream_cases crc data front.length member base
  case inr => exact absurd (hlarge _ _ _ hblocks) (Nat.not_le.mpr small)
  case inl =>
    rw [hblocks] at hhistory
    cases hhistory
    refine ⟨_, hserial, ?_, rfl, rfl⟩
    show front.length * 8 + _ = _
    omega

private theorem nextPrevious_suffix (previous chunk : List UInt8) :
    nextPrevious previous chunk <:+ previous ++ chunk := by
  rw [nextPrevious]
  dsimp only
  split
  · exact (List.drop_suffix _ _).trans (List.suffix_append _ _)
  · split
    · exact List.drop_suffix _ _
    · exact List.suffix_refl _

private theorem serialSegments_continue {level : Nat} (chunks : List (List UInt8))
    {previous before : List UInt8} (follows : previous <:+ before) :
    ∃ parts, serialSegments crc level chunks previous =
        parts.map (fun part => encodeSegment crc part.1 part.2 level) ∧
      Continues before parts (before ++ chunks.flatten) := by
  induction chunks generalizing previous before with
  | nil =>
    refine ⟨[], rfl, ?_⟩
    rw [List.flatten_nil, List.append_nil]
    exact .done before
  | cons chunk rest ih =>
    have hnext : nextPrevious previous chunk <:+ before ++ chunk := by
      apply (nextPrevious_suffix previous chunk).trans
      obtain ⟨older, rfl⟩ := follows
      exact ⟨older, (List.append_assoc _ _ _).symm⟩
    obtain ⟨parts, hparts, hcontinues⟩ := ih hnext
    rw [List.append_assoc] at hcontinues
    refine ⟨(previous ++ chunk, previous.length) :: parts, ?_, ?_⟩
    · rw [serialSegments, hparts]
      rfl
    · rw [List.flatten_cons]
      exact .part follows hcontinues

private theorem foldl_combine {level : Nat} {parts : List (List UInt8 × Nat)}
    {before after : List UInt8} (continues : Continues before parts after) :
    (parts.map fun part => encodeSegment crc part.1 part.2 level).foldl
        (fun hasher segment => crc.combine hasher segment.crc) (crc.update crc.new before) =
      crc.update crc.new after := by
  induction continues with
  | done before => rfl
  | @part before dictionary chunk after parts behind _ ih =>
    obtain ⟨-, hcrc⟩ := @encodeSegment_parts crc (dictionary ++ chunk) dictionary.length level
    rw [List.drop_left] at hcrc
    rw [List.map_cons, List.foldl_cons, hcrc, crc.combine_update]
    exact ih

/-- What `compress_bytes_serial` makes of any bytes is decoded to them wherever it stands, and its
report has their checksum. -/
theorem compressBytesSerial_round_trip {data encoded : List UInt8} {level : Nat}
    {report : Encode.Report} (h : compressBytesSerial crc data level = .ok (encoded, report))
    (small : data.length < 2 ^ 64) :
    report = ⟨data.length, encoded.length, crc.hash data⟩ ∧
      ∀ (front back : List UInt8) (member base : Nat), ∃ unpacked,
        decompressDeflateSerialStream crc (front ++ (encoded ++ back)) front.length member base =
          .ok (data, unpacked) ∧
        Unpacks crc data (front.length + encoded.length) unpacked := by
  obtain ⟨parts, hparts, hcontinues⟩ := @serialSegments_continue crc level
    (chunks targetSegmentSize data) [] [] (List.suffix_refl _)
  rw [List.nil_append, (chunks_spec (by decide) data).1] at hcontinues
  obtain ⟨_, -, heq⟩ := result_bind_eq_ok.mp h
  have hcombined := @foldl_combine crc level parts [] data hcontinues
  rw [crc.update_nil] at hcombined
  rw [hparts] at heq
  dsimp only at heq
  rw [List.map_map, hcombined] at heq
  have hencoded : (parts.map (Encode.Segment.encoded ∘
      fun part => encodeSegment crc part.1 part.2 level)).flatten =
        encodedParts crc level parts := List.flatMap_def.symm
  rw [hencoded] at heq
  cases heq
  refine ⟨rfl, ?_⟩
  intro front back member base
  exact decompress_encodedParts hcontinues small front back member base

/-- Two segments, the second of a single byte. -/
theorem compressBytesSerial_round_trip_segments :
    chunks targetSegmentSize (List.replicate (targetSegmentSize + 1) 7) =
        [List.replicate targetSegmentSize 7, [7]] ∧
      ∃ encoded report,
        compressBytesSerial Crc32.reference (List.replicate (targetSegmentSize + 1) 7) 9 =
          .ok (encoded, report) ∧
        report = ⟨targetSegmentSize + 1, encoded.length,
          Crc32.reference.hash (List.replicate (targetSegmentSize + 1) 7)⟩ ∧
        ∀ (front back : List UInt8) (member base : Nat), ∃ unpacked,
          decompressDeflateSerialStream Crc32.reference (front ++ (encoded ++ back)) front.length
            member base = .ok (List.replicate (targetSegmentSize + 1) 7, unpacked) ∧
          Unpacks Crc32.reference (List.replicate (targetSegmentSize + 1) 7)
            (front.length + encoded.length) unpacked := by
  constructor
  · have hpos : targetSegmentSize ≠ 0 := by decide
    rw [List.replicate_add, chunks, dif_neg (by simp [hpos]), List.take_left' (by simp),
      List.drop_left' (by simp), chunks, dif_neg (by simp [hpos])]
    have hdrop : List.drop targetSegmentSize [7] = ([] : List UInt8) := rfl
    rw [List.replicate_one, hdrop, chunks, dif_pos (.inl rfl)]
    rfl
  · obtain ⟨encoded, report, hcompress, -⟩ := @compressBytesSerial_ok 9 Crc32.reference
      (List.replicate (targetSegmentSize + 1) 7) (by decide) (by decide)
    have hround := compressBytesSerial_round_trip hcompress (by
      rw [List.length_replicate]
      decide)
    rw [List.length_replicate] at hround
    exact ⟨encoded, report, hcompress, hround⟩

private theorem memberHeader_length (level : Nat) : (memberHeader level).length = 10 := rfl

private theorem parseHeader_memberHeader (crc : Crc32) (level : Nat) (rest : List UInt8) :
    ∃ header, parseHeader crc (memberHeader level ++ rest) 0 = .ok header ∧
      header.deflateStart = 10 := by
  have hrange : range? (memberHeader level ++ rest) 0 (0 + 10) = some (memberHeader level) :=
    range?_append [] (memberHeader level) rest
  have hmagic : slice (memberHeader level) 0 2 = [0x1f, 0x8b] := rfl
  have hmethod : (memberHeader level).getD 2 0 = 8 := rfl
  have hflags : (memberHeader level).getD 3 0 = 0 := rfl
  have hunset (bit : UInt8) : decide (0 &&& bit ≠ 0) = false := by simp
  refine ⟨⟨10, leNat (slice (memberHeader level) 4 8), (memberHeader level).getD 8 0,
    (memberHeader level).getD 9 0, none, none⟩, ?_, rfl⟩
  rw [parseHeader, hrange, okOr_some, result_bind_ok, ensure_of hmagic, result_bind_ok]
  simp only [hmethod, hflags, hunset]
  rfl

/-- A stream with a header before it and its checksum and length behind it is one member. -/
theorem decompressSerial_member {level : Nat} {encoded plain : List UInt8} {decoded : DeflateReport}
    {options valid : DecodeOptions} (accepted : options.validate = .ok valid)
    (small : plain.length < 2 ^ 64)
    (stream : decompressDeflateSerialStream crc (memberHeader level ++ (encoded ++
      (toLe 4 (crc.hash plain) ++ toLe 4 plain.length))) 10 0 0 = .ok (plain, decoded))
    (unpacks : Unpacks crc plain (10 + encoded.length) decoded) :
    ∃ report, decompressSerial crc (memberHeader level ++ (encoded ++
      (toLe 4 (crc.hash plain) ++ toLe 4 plain.length))) options = .ok (plain, report) ∧
        report.members.length = 1 := by
  generalize htrailer : toLe 4 (crc.hash plain) ++ toLe 4 plain.length = trailer at *
  have htrailerLength : trailer.length = 8 := by
    rw [← htrailer, List.length_append, toLe_length, toLe_length]
  have hcrc : leNat (slice trailer 0 4) = crc.hash plain := by
    rw [← htrailer, slice, List.drop_zero, List.take_left' (toLe_length 4 _)]
    exact leNat_toLe_of_lt (crc.finalize_lt _)
  have hsize : leNat (slice trailer 4 8) = plain.length % 2 ^ 32 := by
    rw [← htrailer, slice, List.drop_left' (toLe_length 4 _), List.take_of_length_le (by simp)]
    exact leNat_toLe 4 _
  obtain ⟨header, hheader, hstart⟩ := parseHeader_memberHeader crc level (encoded ++ trailer)
  have hrange := range?_append (memberHeader level ++ encoded) trailer []
  rw [List.append_nil, List.append_assoc, List.length_append, memberHeader_length,
    htrailerLength] at hrange
  have hlength : (memberHeader level ++ (encoded ++ trailer)).length = 10 + encoded.length + 8 := by
    simp only [List.length_append, memberHeader_length, htrailerLength, Nat.add_assoc]
  generalize memberHeader level ++ (encoded ++ trailer) = data at *
  have hbit : (decoded.compressedEndBit + 7) / 8 = 10 + encoded.length := by
    rw [unpacks.compressedEndBit]
    omega
  have hmember : Turn crc data (0, {}) (10 + encoded.length + 8,
      Unpacked.closed {} 0 (10 + encoded.length + 8) decoded.crc header plain decoded) := by
    apply decodeMember_eq_ok.mpr
    refine ⟨header, plain, decoded, trailer, hheader, by decide, ?_, ?_, ?_, ?_, ?_, ?_, rfl⟩
    · rw [hstart]
      exact stream
    · rw [hbit]
    · rw [hbit]
      exact hrange
    · rw [unpacks.crc, hcrc]
    · rw [unpacks.decodedLen, hsize]
    · rw [unpacks.decodedLen, Nat.zero_add]
      exact small
  have hresult := decompressSerial_eq_ok.mpr ⟨⟨valid, accepted⟩, _, _, .single hmember,
    .inl (le_of_eq hlength), List.cons_ne_nil _ _, rfl, rfl⟩
  exact ⟨_, hresult, rfl⟩

theorem gzip_start_accepts {options : EncodeOptions} (crc : Crc32) (parallelism : Nat)
    (calls : List Call) (valid : options.validate = .ok options)
    (room : segmentReservation targetSegmentSize ≤ options.memoryLimit) :
    ∃ e, Gzip.start crc options parallelism calls = .ok e := by
  obtain ⟨e, hstart⟩ := Encode.start_accepts crc parallelism calls
    (memberHeader (options.levelOr 6)) valid room
  obtain ⟨checked, hvalid, -⟩ := result_bind_eq_ok.mp hstart
  obtain rfl := validateOptions_eq hvalid
  refine ⟨e, ?_⟩
  rw [Gzip.start, hvalid, result_bind_ok]
  exact hstart

/-- Whatever calls an encoder gets and whatever the workers do, it ends with one member in which
one thread finds the bytes of the calls, and with a report of what it has read and written. -/
theorem gzip_round_trip {options : EncodeOptions} {parallelism : Nat} {calls : List Call}
    {e : Encoder crc} {decoding valid : DecodeOptions}
    (started : Gzip.start crc options parallelism calls = .ok e)
    (accepted : decoding.validate = .ok valid)
    (small : (calls.map Call.bytes).flatten.length < 2 ^ 64) :
    Inevitable (client crc).Step (fun s => s.status = .finished ∧
      (∃ report, decompressSerial crc (Gzip.finish s.back).1 decoding =
        .ok ((calls.map Call.bytes).flatten, report) ∧ report.members.length = 1) ∧
      (Gzip.finish s.back).2 = ⟨(calls.map Call.bytes).flatten.length,
        (Gzip.finish s.back).1.length, crc.hash (calls.map Call.bytes).flatten⟩) e := by
  apply (Gzip.start_begins started).inevitable.mono
  intro s complete
  obtain ⟨size, -, rfl⟩ := Encode.start_eq_ok (Gzip.start_eq_ok started)
  obtain ⟨parts, hcontinues, hhas⟩ := @fresh_has crc (options.levelOr 6) size calls
    (memberHeader (options.levelOr 6))
  generalize (calls.map Call.bytes).flatten = plain at *
  have hback : s.back.Has (memberHeader (options.levelOr 6))
      (encodedParts crc (options.levelOr 6) parts) plain := by
    rw [complete.back]
    exact hhas
  have hwritten : (Gzip.finish s.back).1 = memberHeader (options.levelOr 6) ++
      (encodedParts crc (options.levelOr 6) parts ++ finalBlock ++
        (toLe 4 (crc.hash plain) ++ toLe 4 plain.length)) := by
    simp only [Gzip.finish, Outlet.finish, hback.output, hback.crc, hback.inputLen, Crc32.hash,
      List.append_assoc]
  refine ⟨complete.status, ?_, ?_⟩
  · obtain ⟨decoded, hdecode, hunpacks⟩ := @decompress_encodedParts crc (options.levelOr 6) parts
      plain hcontinues small (memberHeader (options.levelOr 6))
      (toLe 4 (crc.hash plain) ++ toLe 4 plain.length) 0 0
    rw [hwritten]
    exact decompressSerial_member accepted small hdecode hunpacks
  · rw [hwritten]
    simp only [Gzip.finish, Outlet.finish, hback.crc, hback.inputLen, hback.outputLen, Crc32.hash,
      List.length_append, toLe_length, memberHeader_length]
    congr 1
    omega

/-- Two writes with a flush between them. -/
theorem gzip_round_trip_flushed : ∃ e, Gzip.start Crc32.reference ⟨2, 2 ^ 30, some 9⟩ 1
      [.write [1, 2, 3], .flush, .write [1, 2, 3, 1, 2, 3]] = .ok e ∧
    Inevitable (client Crc32.reference).Step (fun s => s.status = .finished ∧
      (∃ report, decompressSerial Crc32.reference (Gzip.finish s.back).1 ⟨1, 2 ^ 30⟩ =
        .ok ([1, 2, 3, 1, 2, 3, 1, 2, 3], report) ∧ report.members.length = 1) ∧
      (Gzip.finish s.back).2 = ⟨9, (Gzip.finish s.back).1.length,
        Crc32.reference.hash [1, 2, 3, 1, 2, 3, 1, 2, 3]⟩) e := by
  obtain ⟨e, hstart⟩ := @gzip_start_accepts ⟨2, 2 ^ 30, some 9⟩ Crc32.reference 1
    [.write [1, 2, 3], .flush, .write [1, 2, 3, 1, 2, 3]] (by rfl) (by decide)
  exact ⟨e, hstart, gzip_round_trip hstart (show DecodeOptions.validate ⟨1, 2 ^ 30⟩ = .ok _ from rfl)
    (by decide)⟩

end Fbz.Deflate
