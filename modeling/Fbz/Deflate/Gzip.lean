import Mathlib.Logic.Relation
import Fbz.Deflate.Parallel

/-!
# Gzip members

Member headers, and the loop over the members of an input on one thread. Zero bytes behind a member
are padding.
-/

namespace Fbz.Deflate

structure Member where
  compressedStart : Nat
  deflateStart : Nat
  compressedEnd : Nat
  decodedStart : Nat
  decodedLen : Nat
  expectedCrc : Nat
  mtime : Nat
  extraFlags : UInt8
  operatingSystem : UInt8
  name : Option (List UInt8)
  comment : Option (List UInt8)
  deriving DecidableEq, Repr

structure Report where
  sourceLen : Nat
  decodedLen : Nat
  members : List Member
  blocks : List Block
  speculativeChunks : Nat
  fallbackChunks : Nat
  deriving DecidableEq, Repr

structure Header where
  deflateStart : Nat
  mtime : Nat
  extraFlags : UInt8
  operatingSystem : UInt8
  name : Option (List UInt8)
  comment : Option (List UInt8)
  deriving DecidableEq, Repr

def readZeroTerminated (data : List UInt8) (cursor : Nat) (field : String) :
    Result (List UInt8 × Nat) := do
  ensure (cursor ≤ data.length) (invalidAt cursor s!"truncated {field}")
  let rest := data.drop cursor
  ensure (0 ∈ rest) (invalidAt cursor s!"unterminated {field}")
  let length := rest.idxOf 0
  return (rest.take length, cursor + (length + 1))

/-- A field that is there when its flag is set. -/
def readField (data : List UInt8) (cursor : Nat) (field : String) (flag : Bool) :
    Result (Option (List UInt8) × Nat) :=
  if flag then do
    let (value, cursor) ← readZeroTerminated data cursor field
    return (some value, cursor)
  else .ok (none, cursor)

/-- The position behind the extra field. -/
def skipExtra (data : List UInt8) (cursor : Nat) (flag : Bool) : Result Nat :=
  if flag then do
    let lengthBytes ← okOr (invalidAt cursor "truncated FEXTRA length")
      (range? data cursor (cursor + 2))
    let length := leNat lengthBytes
    let cursor := cursor + (2 + length)
    ensure (cursor ≤ data.length) (invalidAt (cursor - length) "truncated FEXTRA data")
    return cursor
  else .ok cursor

/-- The position behind the header's checksum. -/
def checkHeaderCrc (crc : Crc32) (data : List UInt8) (start cursor : Nat) (flag : Bool) :
    Result Nat :=
  if flag then do
    let expectedBytes ← okOr (invalidAt cursor "truncated FHCRC") (range? data cursor (cursor + 2))
    let expected := leNat expectedBytes
    let actual := crc.hash (slice data start cursor) % 2 ^ 16
    ensure (actual = expected)
      (invalidAt cursor
        s!"header CRC16 mismatch: expected {hex 4 expected}, decoded {hex 4 actual}")
    return cursor + 2
  else .ok cursor

def parseHeader (crc : Crc32) (data : List UInt8) (start : Nat) : Result Header := do
  let fixed ← okOr (invalidAt start "truncated member header") (range? data start (start + 10))
  ensure (slice fixed 0 2 = [0x1f, 0x8b]) (invalidAt start "missing 1f 8b magic")
  let method := fixed.getD 2 0
  ensure (method = 8) (invalidAt (start + 2) s!"unsupported compression method {method.toNat}")
  let flags := fixed.getD 3 0
  ensure (flags &&& 0xe0 = 0)
    (invalidAt (start + 3) s!"reserved header flags set: {hex 2 flags.toNat}")
  let mtime := leNat (slice fixed 4 8)
  let cursor ← skipExtra data (start + 10) (flags &&& 0x04 ≠ 0)
  let (name, cursor) ← readField data cursor "FNAME" (flags &&& 0x08 ≠ 0)
  let (comment, cursor) ← readField data cursor "FCOMMENT" (flags &&& 0x10 ≠ 0)
  let cursor ← checkHeaderCrc crc data start cursor (flags &&& 0x02 ≠ 0)
  return { deflateStart := cursor, mtime, extraFlags := fixed.getD 8 0
           operatingSystem := fixed.getD 9 0, name, comment }

private theorem readZeroTerminated_next {data value : List UInt8} {cursor next : Nat}
    {field : String} (h : readZeroTerminated data cursor field = .ok (value, next)) :
    cursor < next ∧ next ≤ data.length := by
  simp only [readZeroTerminated, result_bind_eq_ok, ensure_eq_ok] at h
  obtain ⟨_, hle, _, hmem, heq⟩ := h
  obtain ⟨-, rfl⟩ := Prod.mk.inj (Except.ok.inj heq)
  have := List.idxOf_lt_length_of_mem hmem
  rw [List.length_drop] at this
  omega

private theorem readField_next {data : List UInt8} {cursor next : Nat} {field : String}
    {flag : Bool}
    {value : Option (List UInt8)} (h : readField data cursor field flag = .ok (value, next)) :
    cursor ≤ next ∧ (cursor ≤ data.length → next ≤ data.length) := by
  unfold readField at h
  split at h
  · obtain ⟨⟨found, after⟩, hread, heq⟩ := result_bind_eq_ok.mp h
    obtain ⟨-, rfl⟩ := Prod.mk.inj (Except.ok.inj heq)
    have := readZeroTerminated_next hread
    omega
  · obtain ⟨-, rfl⟩ := Prod.mk.inj (Except.ok.inj h)
    omega

private theorem skipExtra_next {data : List UInt8} {cursor next : Nat} {flag : Bool}
    (h : skipExtra data cursor flag = .ok next) :
    cursor ≤ next ∧ (cursor ≤ data.length → next ≤ data.length) := by
  unfold skipExtra at h
  split at h
  · simp only [result_bind_eq_ok, ensure_eq_ok] at h
    obtain ⟨_, -, _, hfits, heq⟩ := h
    obtain rfl := Except.ok.inj heq
    omega
  · obtain rfl := Except.ok.inj h
    omega

private theorem checkHeaderCrc_next {crc : Crc32} {data : List UInt8} {start cursor next : Nat}
    {flag : Bool} (h : checkHeaderCrc crc data start cursor flag = .ok next) :
    cursor ≤ next ∧ (cursor ≤ data.length → next ≤ data.length) := by
  unfold checkHeaderCrc at h
  split at h
  · simp only [result_bind_eq_ok, okOr_eq_ok] at h
    obtain ⟨_, hrange, _, -, heq⟩ := h
    obtain rfl := Except.ok.inj heq
    have := (range?_eq_some.mp hrange).2.1
    omega
  · obtain rfl := Except.ok.inj h
    omega

theorem parseHeader_next {crc : Crc32} {data : List UInt8} {start : Nat} {header : Header}
    (h : parseHeader crc data start = .ok header) :
    start + 10 ≤ header.deflateStart ∧ header.deflateStart ≤ data.length := by
  simp only [parseHeader, result_bind_eq_ok, okOr_eq_ok] at h
  obtain ⟨_, hfixed, _, -, _, -, _, -, _, hextra, ⟨_, _⟩, hname, ⟨_, _⟩, hcomment, _, hcrc, heq⟩ := h
  obtain rfl := Except.ok.inj heq
  have h0 := (range?_eq_some.mp hfixed).2.1
  have h1 := skipExtra_next hextra
  have h2 := readField_next hname
  have h3 := readField_next hcomment
  have h4 := checkHeaderCrc_next hcrc
  dsimp only at h3 h4 ⊢
  omega

private theorem parseHeader_first {crc : Crc32} {data : List UInt8} {start : Nat} {header : Header}
    (h : parseHeader crc data start = .ok header) : data[start]? = some 0x1f := by
  simp only [parseHeader, result_bind_eq_ok, okOr_eq_ok, ensure_eq_ok] at h
  obtain ⟨fixed, hfixed, _, hmagic, -⟩ := h
  obtain ⟨-, -, rfl⟩ := range?_eq_some.mp hfixed
  have hfirst : (slice (slice data start (start + 10)) 0 2)[0]? = some 0x1f := by
    rw [hmagic]
    rfl
  simpa [slice] using hfirst

/-- What the members so far have delivered. -/
structure Unpacked where
  output : List UInt8 := []
  members : List Member := []
  blocks : List Block := []
  decodedTotal : Nat := 0
  speculativeTotal : Nat := 0
  fallbackTotal : Nat := 0

/-- With one more member and its record. -/
def Unpacked.closed (d : Unpacked) (position trailerEnd expectedCrc : Nat) (header : Header)
    (output : List UInt8) (decoded : DeflateReport) : Unpacked where
  output := d.output ++ output
  members := d.members ++
    [{ compressedStart := position, deflateStart := header.deflateStart
       compressedEnd := trailerEnd, decodedStart := d.decodedTotal
       decodedLen := decoded.decodedLen, expectedCrc, mtime := header.mtime
       extraFlags := header.extraFlags, operatingSystem := header.operatingSystem
       name := header.name, comment := header.comment }]
  blocks := d.blocks ++ decoded.blocks
  decodedTotal := d.decodedTotal + decoded.decodedLen
  speculativeTotal := d.speculativeTotal + decoded.speculativeChunks
  fallbackTotal := d.fallbackTotal + decoded.fallbackChunks

variable (crc : Crc32)

/-- One member at `position`, with its trailer; returns the position behind it. -/
def decodeMember (data : List UInt8) (position : Nat) (d : Unpacked) : Result (Unpacked × Nat) := do
  let header ← parseHeader crc data position
  ensure (d.members.length < 2 ^ 32) (invalid "too many gzip members")
  let (output, decoded) ← decompressDeflateSerialStream crc data header.deflateStart
    d.members.length d.decodedTotal
  let trailer := (decoded.compressedEndBit + 7) / 8
  let trailerEnd := trailer + 8
  let trailerBytes ← okOr (invalidAt trailer "truncated member trailer")
    (range? data trailer trailerEnd)
  let expectedCrc := leNat (slice trailerBytes 0 4)
  let expectedSize := leNat (slice trailerBytes 4 8)
  ensure (decoded.crc = expectedCrc)
    (invalidAt trailer
      s!"CRC32 mismatch: expected {hex 8 expectedCrc}, decoded {hex 8 decoded.crc}")
  ensure (decoded.decodedLen % 2 ^ 32 = expectedSize)
    (invalidAt (trailer + 4)
      s!"ISIZE mismatch: expected {expectedSize}, decoded {decoded.decodedLen % 2 ^ 32}")
  ensure (d.decodedTotal + decoded.decodedLen < 2 ^ 64) (invalid "decoded offset overflow")
  return (d.closed position trailerEnd expectedCrc header output decoded, trailerEnd)

variable {crc}

/-- The steps of a member that is accepted. -/
theorem decodeMember_eq_ok {data : List UInt8} {position next : Nat} {d e : Unpacked} :
    decodeMember crc data position d = .ok (e, next) ↔
      ∃ header output decoded bytes, parseHeader crc data position = .ok header ∧
        d.members.length < 2 ^ 32 ∧
        decompressDeflateSerialStream crc data header.deflateStart d.members.length
          d.decodedTotal = .ok (output, decoded) ∧
        next = (decoded.compressedEndBit + 7) / 8 + 8 ∧
        range? data ((decoded.compressedEndBit + 7) / 8) next = some bytes ∧
        decoded.crc = leNat (slice bytes 0 4) ∧
        decoded.decodedLen % 2 ^ 32 = leNat (slice bytes 4 8) ∧
        d.decodedTotal + decoded.decodedLen < 2 ^ 64 ∧
        e = d.closed position next decoded.crc header output decoded := by
  simp only [decodeMember, result_bind_eq_ok, okOr_eq_ok, ensure_eq_ok]
  constructor
  · rintro ⟨header, hheader, _, hfew, ⟨output, decoded⟩, hdecode, bytes, hbytes, _, hcrc, _, hsize, _,
      htotal, heq⟩
    obtain ⟨rfl, rfl⟩ := Prod.mk.inj (Except.ok.inj heq)
    exact ⟨header, output, decoded, bytes, hheader, hfew, hdecode, rfl, hbytes, hcrc, hsize, htotal,
      hcrc ▸ rfl⟩
  · rintro ⟨header, output, decoded, bytes, hheader, hfew, hdecode, rfl, hbytes, hcrc, hsize, htotal,
      rfl⟩
    exact ⟨header, hheader, (), hfew, (output, decoded), hdecode, bytes, hbytes, (), hcrc, (), hsize, (),
      htotal, hcrc ▸ rfl⟩

private theorem decompressDeflateSerialStream_advances {data output : List UInt8}
    {startByte member decodedBase : Nat} {decoded : DeflateReport}
    (h : decompressDeflateSerialStream crc data startByte member decodedBase =
      .ok (output, decoded)) :
    startByte * 8 < decoded.compressedEndBit ∧ decoded.compressedEndBit ≤ data.length * 8 := by
  obtain ⟨⟨emitter, blocks, next⟩, hdecode, heq⟩ := result_bind_eq_ok.mp h
  obtain ⟨-, rfl⟩ := Prod.mk.inj (Except.ok.inj heq)
  exact decodeDeflate_advances hdecode

private theorem decodeMember_advances {data : List UInt8} {position next : Nat} {d e : Unpacked}
    (h : decodeMember crc data position d = .ok (e, next)) :
    position < next ∧ next ≤ data.length := by
  obtain ⟨header, output, decoded, bytes, hheader, -, hdecode, hnext, hbytes, -⟩ :=
    decodeMember_eq_ok.mp h
  have hstart := parseHeader_next hheader
  have hend := decompressDeflateSerialStream_advances hdecode
  have hinside := (range?_eq_some.mp hbytes).2.1
  omega

variable (crc)

/-- The members from `position` on. -/
def membersFrom (data : List UInt8) (position : Nat) (d : Unpacked) : Result Unpacked :=
  if position < data.length then
    if d.members ≠ [] ∧ (data.drop position).all (· = 0) then .ok d
    else
      match _h : decodeMember crc data position d with
      | .error error => .error error
      | .ok (d, next) => membersFrom data next d
  else .ok d
termination_by data.length - position
decreasing_by
  have := decodeMember_advances _h
  omega

def Unpacked.report (d : Unpacked) (data : List UInt8) : Report where
  sourceLen := data.length
  decodedLen := d.decodedTotal
  members := d.members
  blocks := d.blocks
  speculativeChunks := d.speculativeTotal
  fallbackChunks := d.fallbackTotal

/-- `decompress_to_sink_with_options_and_progress` with one thread: the bytes the sink gets, and the
report. -/
def decompressSerial (data : List UInt8) (options : DecodeOptions) :
    Result (List UInt8 × Report) := do
  let _ ← options.validate
  let d ← membersFrom crc data 0 {}
  ensure (d.members ≠ []) (invalid "input contains no gzip members")
  return (d.output, d.report data)

/-- One turn of the loop that does not fail. -/
def Turn (data : List UInt8) (before after : Nat × Unpacked) : Prop :=
  decodeMember crc data before.1 before.2 = .ok (after.2, after.1)

/-- Where the loop stops: at the end, or at padding behind a member. -/
def Stops (data : List UInt8) (state : Nat × Unpacked) : Prop :=
  data.length ≤ state.1 ∨ state.2.members ≠ [] ∧ (data.drop state.1).all (· = 0)

variable {crc}

theorem Turn.advances {data : List UInt8} {before after : Nat × Unpacked}
    (h : Turn crc data before after) : before.1 < after.1 ∧ after.1 ≤ data.length :=
  decodeMember_advances h

theorem Turn.not_stops {data : List UInt8} {before after : Nat × Unpacked}
    (h : Turn crc data before after) : ¬ Stops data before := by
  have hadvances := h.advances
  obtain ⟨header, _, _, _, hheader, -⟩ := decodeMember_eq_ok.mp h
  rintro (hend | ⟨-, hzero⟩)
  · omega
  · have hmem : (0x1f : UInt8) ∈ data.drop before.1 :=
      List.mem_of_getElem? (i := 0) (by simpa using parseHeader_first hheader)
    have := List.all_eq_true.mp hzero _ hmem
    simp at this

theorem membersFrom_turns {data : List UInt8} {before after : Nat × Unpacked}
    (h : Relation.ReflTransGen (Turn crc data) before after) :
    membersFrom crc data before.1 before.2 = membersFrom crc data after.1 after.2 := by
  induction h using Relation.ReflTransGen.head_induction_on with
  | refl => rfl
  | @head before mid hturn _ ih =>
    have hstops := hturn.not_stops
    rw [Stops, not_or] at hstops
    rw [← ih, membersFrom, if_pos (Nat.not_le.mp hstops.1), if_neg hstops.2]
    split
    · simp_all [Turn]
    · simp_all [Turn]

/-- The loop succeeds by turns up to where it stops. -/
theorem membersFrom_eq_ok {data : List UInt8} {position : Nat} {d e : Unpacked} :
    membersFrom crc data position d = .ok e ↔
      ∃ stop, Relation.ReflTransGen (Turn crc data) (position, d) (stop, e) ∧
        Stops data (stop, e) := by
  constructor
  · intro h
    induction position, d using membersFrom.induct crc data with
    | case1 position d hlt hpadding =>
      rw [membersFrom, if_pos hlt, if_pos hpadding] at h
      obtain rfl := Except.ok.inj h
      exact ⟨position, .refl, .inr hpadding⟩
    | case2 position d hlt hmember error hdecode =>
      rw [membersFrom, if_pos hlt, if_neg hmember] at h
      split at h <;> simp_all
    | case3 position d hlt hmember d' next hdecode ih =>
      have hturn : Turn crc data (position, d) (next, d') := hdecode
      obtain ⟨stop, hturns, hstops⟩ := ih ((membersFrom_turns (.single hturn)).symm.trans h)
      exact ⟨stop, .head hturn hturns, hstops⟩
    | case4 position d hge =>
      rw [membersFrom, if_neg hge] at h
      obtain rfl := Except.ok.inj h
      exact ⟨position, .refl, .inl (Nat.not_lt.mp hge)⟩
  · rintro ⟨stop, hturns, hstops⟩
    rw [membersFrom_turns hturns, membersFrom]
    split
    · next hlt => exact if_pos (hstops.resolve_left (Nat.not_le.mpr hlt))
    · rfl

theorem decompressSerial_eq_ok {data output : List UInt8} {options : DecodeOptions}
    {report : Report} :
    decompressSerial crc data options = .ok (output, report) ↔
      (∃ valid, options.validate = .ok valid) ∧
        ∃ stop d, Relation.ReflTransGen (Turn crc data) (0, {}) (stop, d) ∧
          Stops data (stop, d) ∧ d.members ≠ [] ∧ output = d.output ∧ report = d.report data := by
  simp only [decompressSerial, result_bind_eq_ok, ensure_eq_ok, membersFrom_eq_ok]
  constructor
  · rintro ⟨valid, hvalid, d, ⟨stop, hturns, hstops⟩, _, hsome, heq⟩
    cases heq
    exact ⟨⟨valid, hvalid⟩, stop, d, hturns, hstops, hsome, rfl, rfl⟩
  · rintro ⟨⟨valid, hvalid⟩, stop, d, hturns, hstops, hsome, rfl, rfl⟩
    exact ⟨valid, hvalid, d, ⟨stop, hturns, hstops⟩, (), hsome, rfl⟩

end Fbz.Deflate
