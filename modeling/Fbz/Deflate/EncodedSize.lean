import Fbz.Deflate.Session
import Mathlib.Algebra.Order.BigOperators.Group.List

/-!
# Size of encoded bytes

A segment is never longer than it is stored, so the encoders add at most the headers of stored
blocks and the final block, in segments of any size the memory limit selects.
-/

namespace Fbz.Pipeline.Intake

variable {T H B : Type} {k : Cutting T H} {commit : B → T → B}

/-- The bytes that no job has yet. -/
def pending (i : Intake H) : Nat := i.buffer.length - i.prefixLen + i.bytes.length

private theorem fill_submit {i : Intake H}
    (full : i.size ≤ i.buffer.length - i.prefixLen + i.bytes.length) :
    ∃ buffer bytes, i.fill k = .submit (k.job i.level buffer i.prefixLen)
        (i.submitted k buffer bytes) ∧
      buffer.length - i.prefixLen = i.size ∧ bytes.length + i.size = i.pending := by
  have hroom := i.room
  have hwithin := i.within
  have htake : min i.bytes.length (i.size - (i.buffer.length - i.prefixLen)) =
      i.size - (i.buffer.length - i.prefixLen) := by omega
  have hlength : (i.buffer ++ i.bytes.take (i.size - (i.buffer.length - i.prefixLen))).length -
      i.prefixLen = i.size := by
    rw [List.length_append, List.length_take]
    omega
  refine ⟨i.buffer ++ i.bytes.take (i.size - (i.buffer.length - i.prefixLen)),
    i.bytes.drop (i.size - (i.buffer.length - i.prefixLen)), ?_, hlength, ?_⟩
  · unfold fill place
    simp only [htake]
    rw [dif_pos hlength]
  · rw [List.length_drop, pending]
    omega

/-- The buffers of the jobs take all bytes, and all buffers but the last are full. -/
structure PartsOf (k : Cutting T H) (i : Intake H) (jobs : List T)
    (parts : List (List UInt8 × Nat)) : Prop where
  jobs : jobs = parts.map fun part => k.job i.level part.1 part.2
  total : (parts.map fun part => part.1.length - part.2).sum = i.pending
  few : i.size * parts.length < i.pending + i.size

private theorem request_last {i : Intake H} (empty : i.bytes = []) (last : i.calls = []) :
    i.request k = i.submitThen k .finish := by
  rw [request, if_neg (not_not.mpr empty), last]

private theorem jobs_parts_single {i : Intake H} (last : i.calls = []) :
    ∃ parts, PartsOf k i ((k.client commit).jobs i) parts := by
  induction hn : i.remaining using Nat.strongRecOn generalizing i with
  | ind n ih =>
    have hroom := i.room
    by_cases hbytes : i.bytes = []
    case pos =>
      have hrequest : (k.client commit).request i = i.submitThen k .finish :=
        request_last hbytes last
      by_cases hnone : i.buffer.length = i.prefixLen
      case pos =>
        rw [submitThen, if_pos hnone] at hrequest
        have hpending : i.pending = 0 := by
          rw [pending, hbytes, hnone, Nat.sub_self, List.length_nil]
        refine ⟨[], Client.jobs_finish (by rw [hrequest]; rfl), hpending.symm, ?_⟩
        rw [hpending, List.length_nil]
        omega
      case neg =>
        rw [submitThen, if_neg hnone] at hrequest
        have hwithin := i.within
        have hpending : i.pending = i.buffer.length - i.prefixLen := by
          rw [pending, hbytes, List.length_nil, Nat.add_zero]
        have hnext := congrArg Request.next? hrequest
        have hrest : (k.client commit).jobs (i.submitted k i.buffer []) = [] := by
          apply Client.jobs_finish
          have hafter := @request_last T H k (i.submitted k i.buffer []) rfl last
          have hempty : (i.submitted k i.buffer []).buffer.length =
            (i.submitted k i.buffer []).prefixLen := rfl
          rw [submitThen, if_pos hempty] at hafter
          exact congrArg Request.next? hafter
        refine ⟨[(i.buffer, i.prefixLen)], ?_, ?_, ?_⟩
        · rw [Client.jobs_next hnext, hrequest, hrest]
          rfl
        · rw [hpending]
          exact Nat.add_zero _
        · rw [hpending, List.length_singleton]
          omega
    case neg =>
    have hrequest : (k.client commit).request i = i.fill k := if_pos hbytes
    by_cases hfull : i.size ≤ i.buffer.length - i.prefixLen + i.bytes.length
    case pos =>
      obtain ⟨buffer, bytes, hfill, hlength, htotal⟩ := @fill_submit T H k i hfull
      rw [hfill] at hrequest
      have hnext := congrArg Request.next? hrequest
      obtain ⟨parts, hjobs, hsum, hfew⟩ :=
        ih _ (hn ▸ (k.client commit).decreases i _ hnext) (i := i.submitted k buffer bytes) last rfl
      have hpending : (i.submitted k buffer bytes).pending + i.size = i.pending := by
        rw [← htotal]
        show (k.kept buffer).length - (k.kept buffer).length + bytes.length + i.size = _
        rw [Nat.sub_self, Nat.zero_add]
      refine ⟨(buffer, i.prefixLen) :: parts, ?_, ?_, ?_⟩
      · rw [Client.jobs_next hnext, hrequest, hjobs]
        rfl
      · rw [List.map_cons, List.sum_cons, hsum, hlength, Nat.add_comm]
        exact hpending
      · have hfew : i.size * parts.length < (i.submitted k buffer bytes).pending + i.size := hfew
        rw [List.length_cons, Nat.mul_succ]
        omega
    case neg =>
    have hmore : i.buffer.length - i.prefixLen + i.bytes.length < i.size := by omega
    rw [fill_open hmore] at hrequest
    have hnext := congrArg Request.next? hrequest
    obtain ⟨parts, hjobs, hsum, hfew⟩ := ih _ (hn ▸ (k.client commit).decreases i _ hnext)
      (i := { i.buffered i.bytes hmore with bytes := [] }) last rfl
    have hpending : ({ i.buffered i.bytes hmore with bytes := [] } : Intake H).pending =
        i.pending := by
      have hwithin := i.within
      show (i.buffer ++ i.bytes).length - i.prefixLen + 0 =
        i.buffer.length - i.prefixLen + i.bytes.length
      rw [List.length_append]
      omega
    refine ⟨parts, ?_, hsum.trans hpending, ?_⟩
    · rw [Client.jobs_next hnext, hrequest, hjobs]
      rfl
    · have hfew : i.size * parts.length <
          ({ i.buffered i.bytes hmore with bytes := [] } : Intake H).pending + i.size := hfew
      rwa [hpending] at hfew

private theorem jobs_parts {i : Intake H} {writes : List (List UInt8)}
    (h : i.calls = writes.map .write) :
    ∃ parts, PartsOf k (i.single (i.bytes ++ writes.flatten)) ((k.client commit).jobs i) parts := by
  rw [jobs_single h]
  exact jobs_parts_single rfl

end Fbz.Pipeline.Intake

namespace Fbz.Deflate

open Pipeline

private theorem writeStored_length {w : BitWriter} (aligned : w.bits = 0) (chunk : List UInt8) :
    (writeStored w chunk).bits = 0 ∧
      (writeStored w chunk).bytes.length = w.bytes.length + 5 + chunk.length := by
  have hhead : ((w.writeBits 0 3).alignZero).bits = 0 ∧
      ((w.writeBits 0 3).alignZero).bytes.length = w.bytes.length + 1 := by
    have hspill : (w.writeBits 0 3).bits = 3 ∧ (w.writeBits 0 3).bytes = w.bytes := by
      rw [BitWriter.writeBits, BitWriter.spill, if_neg (by show ¬ w.bits + 3 ≥ 8; omega)]
      exact ⟨by show w.bits + 3 = 3; omega, rfl⟩
    rw [BitWriter.alignZero, if_pos (by rw [hspill.1]; decide)]
    refine ⟨rfl, ?_⟩
    rw [hspill.2, List.length_append, List.length_singleton]
  obtain ⟨hbits, hlength⟩ := hhead
  refine ⟨hbits, ?_⟩
  simp only [writeStored, BitWriter.writeAligned, List.length_append, hlength, toLe_length]

/-- The header of a stored block for each chunk of 65535 bytes. -/
def storedLength (length : Nat) : Nat := length + 5 * ((length + 65534) / 65535)

private theorem foldl_writeStored_length (bytes : List UInt8) {w : BitWriter}
    (aligned : w.bits = 0) : ((chunks 65535 bytes).foldl writeStored w).bits = 0 ∧
      ((chunks 65535 bytes).foldl writeStored w).bytes.length =
        w.bytes.length + storedLength bytes.length := by
  induction hn : bytes.length using Nat.strongRecOn generalizing bytes w with
  | ind n ih =>
    by_cases hempty : bytes = []
    · subst hempty
      rw [chunks, dif_pos (.inl rfl), ← hn]
      exact ⟨aligned, rfl⟩
    · have hpos := List.length_pos_iff.mpr hempty
      obtain ⟨hbits, hlength⟩ := writeStored_length aligned (bytes.take 65535)
      obtain ⟨hrest, htotal⟩ := @ih (n - 65535) (by omega) (bytes.drop 65535)
        (writeStored w (bytes.take 65535)) hbits (by rw [List.length_drop, hn])
      rw [chunks, dif_neg (by rw [not_or]; exact ⟨hempty, by decide⟩), List.foldl_cons]
      refine ⟨hrest, ?_⟩
      rw [htotal, hlength, List.length_take, storedLength, storedLength]
      omega

private theorem encodeStored_length (bytes : List UInt8) :
    (encodeStored bytes).length = storedLength bytes.length := by
  obtain ⟨haligned, hlength⟩ := @foldl_writeStored_length bytes {} rfl
  rw [encodeStored, BitWriter.finishAligned, BitWriter.alignZero]
  have hmax : 2 ^ 16 - 1 = 65535 := by decide
  rw [hmax, if_neg (by rw [haligned]; decide), hlength]
  exact Nat.zero_add _

private theorem shorter_le (first second : List UInt8) :
    (shorter first second).length ≤ second.length := by
  rw [shorter]
  split <;> omega

private theorem encodeSegment_length (crc : Crc32) (buffer : List UInt8) (prefixLen level : Nat) :
    (encodeSegment crc buffer prefixLen level).inputLen = buffer.length - prefixLen ∧
      (encodeSegment crc buffer prefixLen level).encoded.length ≤
        storedLength (buffer.length - prefixLen) := by
  have hsegment : encodeSegment? crc buffer prefixLen level =
      some (encodeSegment crc buffer prefixLen level) := (Option.some_get _).symm
  obtain ⟨dynamic, -, heq⟩ := Option.bind_eq_some_iff.mp hsegment
  rw [← Option.some.inj heq]
  refine ⟨List.length_drop, ?_⟩
  apply Nat.le_trans (shorter_le _ _)
  rw [encodeStored_length, List.length_drop]

private theorem sum_storedLength_le (lengths : List Nat) :
    (lengths.map storedLength).sum ≤ lengths.sum + 5 * (lengths.sum / 65535 + lengths.length) := by
  induction lengths with
  | nil => exact Nat.zero_le _
  | cons length lengths ih =>
    have hdiv : length / 65535 + lengths.sum / 65535 ≤ (length + lengths.sum) / 65535 := by
      omega
    have hceil : (length + 65534) / 65535 ≤ length / 65535 + 1 := by omega
    rw [List.map_cons, List.sum_cons, List.sum_cons, List.length_cons, storedLength]
    omega

private theorem shrinkSegmentSize_ge (memoryLimit k : Nat) :
    2 ^ 16 ≤ shrinkSegmentSize memoryLimit (2 ^ (16 + k)) := by
  induction k with
  | zero => rw [shrinkSegmentSize, if_neg (fun h => absurd h.1 (by decide))]
  | succ k ih =>
    rw [shrinkSegmentSize]
    split
    case isTrue =>
      have hhalf : 2 ^ (16 + (k + 1)) / 2 = 2 ^ (16 + k) := by
        rw [← Nat.add_assoc, Nat.pow_succ]
        exact Nat.mul_div_cancel _ (by decide)
      rw [hhalf]
      exact ih
    case isFalse => exact Nat.pow_le_pow_right (by decide) (Nat.le_add_right ..)

private theorem segmentSize_ge {memoryLimit : Nat} {size : { size : Nat // 0 < size }}
    (h : segmentSize memoryLimit = .ok size) : 65536 ≤ size.1 := by
  obtain ⟨_, -, heq⟩ := result_bind_eq_ok.mp h
  obtain rfl := Except.ok.inj heq
  exact shrinkSegmentSize_ge memoryLimit 4

/-- Bytes, headers of stored blocks in segments of 64 KiB or more, and the final block. -/
def encodedBound (length : Nat) : Nat := length + 5 * (length / 65535 + length / 65536 + 1) + 5

theorem finalBlock_length : finalBlock.length = 5 := by
  rw [finalBlock, BitWriter.writeBits, BitWriter.spill, if_neg (by decide)]
  rfl

private theorem sum_encoded_le {lengths : List Nat} {size : Nat} (large : 65536 ≤ size)
    (few : size * lengths.length < lengths.sum + size) :
    (lengths.map storedLength).sum + 5 ≤ encodedBound lengths.sum := by
  have hsum := sum_storedLength_le lengths
  have hcount : lengths.length ≤ lengths.sum / 65536 + 1 := by
    cases lengths with
    | nil => exact Nat.zero_le _
    | cons length lengths =>
      rw [List.length_cons] at few ⊢
      have hless : size * lengths.length < (length :: lengths).sum := by
        rw [Nat.mul_succ] at few
        omega
      have hscaled : 65536 * lengths.length ≤ size * lengths.length :=
        Nat.mul_le_mul_right _ large
      omega
  rw [encodedBound]
  omega

namespace Encode

variable {crc : Crc32}

private theorem foldl_commit (segments : List (Segment crc)) (o : Outlet crc) :
    (segments.foldl Outlet.commit o).output = o.output ++ (segments.map Segment.encoded).flatten ∧
      (segments.foldl Outlet.commit o).inputLen =
        o.inputLen + (segments.map Segment.inputLen).sum ∧
      (segments.foldl Outlet.commit o).outputLen =
        o.outputLen + (segments.map Segment.encoded).flatten.length := by
  induction segments generalizing o with
  | nil => simp
  | cons segment segments ih =>
    obtain ⟨houtput, hinput, hlength⟩ := ih (o.commit segment)
    rw [List.foldl_cons, houtput, hinput, hlength]
    simp only [Outlet.commit, List.map_cons, List.flatten_cons, List.sum_cons, List.length_append,
      List.append_assoc, Nat.add_assoc, and_self]

/-- Valid options with room for a segment of the target size are accepted. -/
theorem start_accepts {options : EncodeOptions} (crc : Crc32) (parallelism : Nat)
    (calls : List Call) (output : List UInt8) (valid : options.validate = .ok options)
    (room : segmentReservation targetSegmentSize ≤ options.memoryLimit) :
    ∃ e, start crc options parallelism calls output = .ok e := by
  have hshrink : shrinkSegmentSize options.memoryLimit targetSegmentSize = targetSegmentSize := by
    rw [shrinkSegmentSize, if_neg fun h => Nat.not_lt.mpr room h.2]
  have hsize : ∃ size, segmentSize options.memoryLimit = .ok size := by
    have hroom : segmentReservation
        (shrinkSegmentSize options.memoryLimit targetSegmentSize) ≤ options.memoryLimit := by
      rwa [hshrink]
    simp only [segmentSize, ensure, if_pos hroom]
    exact ⟨_, rfl⟩
  obtain ⟨size, hsize⟩ := hsize
  have hoptions : validateOptions options = .ok options :=
    result_bind_eq_ok.mpr ⟨options, valid, result_bind_eq_ok.mpr ⟨size, hsize, rfl⟩⟩
  refine ⟨fresh crc options parallelism calls output size, ?_⟩
  exact result_bind_eq_ok.mpr ⟨options, hoptions, result_bind_eq_ok.mpr ⟨size, hsize, rfl⟩⟩

/-- What is written of these bytes behind `before`. -/
structure Encodes (data before : List UInt8) (o : Outlet crc) (encoded : List UInt8) : Prop where
  output : o.finish.1 = before ++ encoded
  outputLen : o.finish.2.outputLen = encoded.length
  inputLen : o.finish.2.inputLen = data.length
  bound : encoded.length ≤ encodedBound data.length

/-- However the bytes are split over writes and whatever the workers do, an accepted encoder ends,
and the encoded bytes are not much longer than the bytes. -/
theorem start_encodes {options : EncodeOptions} {parallelism : Nat} {writes : List (List UInt8)}
    {before : List UInt8} {e : Encoder crc}
    (h : start crc options parallelism (writes.map .write) before = .ok e) :
    Transition.Inevitable (client crc).Step (fun s => s.status = .finished ∧
      ∃ encoded, Encodes writes.flatten before s.back encoded) e := by
  apply (start_begins h).inevitable.mono
  intro s complete
  refine ⟨complete.status, ?_⟩
  obtain ⟨size, hsize, rfl⟩ := start_eq_ok h
  obtain ⟨parts, hjobs, htotal, hfew⟩ := @Intake.jobs_parts _ _ _ (cutting crc) Outlet.commit
    (.new (options.levelOr 6) size () (writes.map .write)) writes rfl
  have hjobs : (client crc).jobs (.new (options.levelOr 6) size () (writes.map .write)) =
      parts.map fun part => encodeSegment crc part.1 part.2 (options.levelOr 6) := hjobs
  have htotal : (parts.map fun part => part.1.length - part.2).sum = writes.flatten.length :=
    htotal.trans (Nat.zero_add _)
  have hfew : size.1 * parts.length < writes.flatten.length + size.1 := by
    have hfew : size.1 * parts.length < 0 - 0 + writes.flatten.length + size.1 := hfew
    rwa [Nat.sub_self, Nat.zero_add] at hfew
  obtain ⟨houtput, hinput, hlength⟩ := foldl_commit
    ((client crc).jobs (.new (options.levelOr 6) size () (writes.map .write)))
    { output := before, crc := crc.new }
  have hback : s.back = ((client crc).jobs
      (.new (options.levelOr 6) size () (writes.map .write))).foldl Outlet.commit
        { output := before, crc := crc.new } := complete.back
  have hbound := @sum_encoded_le (parts.map fun part => part.1.length - part.2) size.1
    (segmentSize_ge hsize) (by rwa [List.length_map, htotal])
  rw [htotal, List.map_map] at hbound
  refine ⟨(((client crc).jobs (.new (options.levelOr 6) size () (writes.map .write))).map
    Segment.encoded).flatten ++ finalBlock, ?_, ?_, ?_, ?_⟩
  · show s.back.output ++ finalBlock = _
    rw [hback, houtput, List.append_assoc]
  · show s.back.outputLen + finalBlock.length = _
    rw [hback, hlength, List.length_append]
    exact congrArg (· + finalBlock.length) (Nat.zero_add _)
  · show s.back.inputLen = _
    rw [hback, hinput, hjobs, List.map_map, ← htotal]
    rw [show (Segment.inputLen ∘ fun part : List UInt8 × Nat =>
        encodeSegment crc part.1 part.2 (options.levelOr 6)) =
      fun part => part.1.length - part.2 from funext fun part => (encodeSegment_length ..).1]
    exact Nat.zero_add _
  · rw [List.length_append, finalBlock_length, List.length_flatten, hjobs, List.map_map,
      List.map_map]
    -- as functions of a part, so that the kernel does not evaluate the segments
    simp only [Function.comp_def] at hbound ⊢
    apply Nat.le_trans _ hbound
    apply Nat.add_le_add_right
    apply List.sum_le_sum
    intro part _
    exact (encodeSegment_length crc part.1 part.2 _).2

end Encode

/-- The window before the next chunk. -/
def nextPrevious (previous chunk : List UInt8) : List UInt8 :=
  let keep := min chunk.length Encode.windowSize
  if Encode.windowSize ≤ chunk.length then chunk.drop (chunk.length - keep)
  else
    let previous := previous ++ chunk
    if previous.length > Encode.windowSize then
      previous.drop (previous.length - Encode.windowSize)
    else previous

/-- The loop of `compress_bytes_serial`. -/
def serialSegments (crc : Crc32) (level : Nat) :
    List (List UInt8) → List UInt8 → List (Encode.Segment crc)
  | [], _ => []
  | chunk :: rest, previous =>
    encodeSegment crc (previous ++ chunk) previous.length level ::
      serialSegments crc level rest (nextPrevious previous chunk)

def compressBytesSerial (crc : Crc32) (data : List UInt8) (level : Nat) :
    Result (List UInt8 × Encode.Report) := do
  let _ ← EncodeOptions.validate ⟨0, 1024 * 1024 * 1024, some level⟩
  let segments := serialSegments crc level (chunks Encode.targetSegmentSize data) []
  let output := (segments.map Encode.Segment.encoded).flatten ++ finalBlock
  let hasher := segments.foldl (fun hasher segment => crc.combine hasher segment.crc) crc.new
  return (output, ⟨data.length, output.length, crc.finalize hasher⟩)

theorem compressBytesSerial_ok {level : Nat} (crc : Crc32) (data : List UInt8) (lo : 1 ≤ level)
    (hi : level ≤ 9) :
    ∃ encoded report, compressBytesSerial crc data level = .ok (encoded, report) ∧
      report.inputLen = data.length := by
  have hvalid : EncodeOptions.validate ⟨0, 1024 * 1024 * 1024, some level⟩ =
      .ok ⟨0, 1024 * 1024 * 1024, some level⟩ := by
    rw [EncodeOptions.validate_eq_ok]
    refine ⟨rfl, ?_, show 1024 * 1024 * 1024 ≠ 0 by decide⟩
    rintro _ ⟨⟩
    exact ⟨lo, hi⟩
  rw [compressBytesSerial, hvalid]
  exact ⟨_, _, rfl, rfl⟩

end Fbz.Deflate
