import Fbz.Deflate.Gzip

/-!
# The grammar of a member header

What a header says, and its bytes after RFC 1952. The parser accepts exactly the strings that begin
with a header, and reads off what it says.
-/

namespace Fbz.Deflate

/-- What a member header says. Extra field, name and comment are there when their flag is set. -/
structure HeaderFields where
  text : Bool
  mtime : Nat
  extraFlags : UInt8
  operatingSystem : UInt8
  extra : Option (List UInt8)
  name : Option (List UInt8)
  comment : Option (List UInt8)
  checked : Bool
  mtime_lt : mtime < 2 ^ 32
  extra_lt : ∀ bytes ∈ extra, bytes.length < 2 ^ 16
  name_nonzero : ∀ bytes ∈ name, 0 ∉ bytes
  comment_nonzero : ∀ bytes ∈ comment, 0 ∉ bytes

/-- The flags of a header; the three highest bits are reserved. -/
def flagByte (text checked extra name comment : Bool) : UInt8 :=
  (if text then 0x01 else 0) ||| (if checked then 0x02 else 0) ||| (if extra then 0x04 else 0) |||
    (if name then 0x08 else 0) ||| (if comment then 0x10 else 0)

/-- A field with its length in front. -/
def extraBytes : Option (List UInt8) → List UInt8
  | none => []
  | some bytes => toLe 2 bytes.length ++ bytes

/-- A field with a zero byte behind it. -/
def terminatedBytes : Option (List UInt8) → List UInt8
  | none => []
  | some bytes => bytes ++ [0]

namespace HeaderFields

def flags (f : HeaderFields) : UInt8 :=
  flagByte f.text f.checked f.extra.isSome f.name.isSome f.comment.isSome

def fixed (f : HeaderFields) : List UInt8 :=
  [0x1f, 0x8b, 8, f.flags] ++ toLe 4 f.mtime ++ [f.extraFlags, f.operatingSystem]

/-- All that comes before the checksum. -/
def front (f : HeaderFields) : List UInt8 :=
  f.fixed ++ extraBytes f.extra ++ terminatedBytes f.name ++ terminatedBytes f.comment

def checksum (crc : Crc32) (f : HeaderFields) : List UInt8 :=
  if f.checked then toLe 2 (crc.hash f.front % 2 ^ 16) else []

def bytes (crc : Crc32) (f : HeaderFields) : List UInt8 := f.front ++ f.checksum crc

/-- What the parser returns for a header at `start`. -/
def header (crc : Crc32) (f : HeaderFields) (start : Nat) : Header where
  deflateStart := start + (f.bytes crc).length
  mtime := f.mtime
  extraFlags := f.extraFlags
  operatingSystem := f.operatingSystem
  name := f.name
  comment := f.comment

end HeaderFields

private theorem flagByte_bits (text checked extra name comment : Bool) :
    let flags := flagByte text checked extra name comment
    flags &&& 0xe0 = 0 ∧ decide (flags &&& 0x02 ≠ 0) = checked ∧
      decide (flags &&& 0x04 ≠ 0) = extra ∧ decide (flags &&& 0x08 ≠ 0) = name ∧
      decide (flags &&& 0x10 ≠ 0) = comment := by
  cases text <;> cases checked <;> cases extra <;> cases name <;> cases comment <;> decide

private theorem eq_flagByte_of_lt : ∀ n < 256, UInt8.ofNat n &&& 0xe0 = 0 →
    UInt8.ofNat n = flagByte (UInt8.ofNat n &&& 0x01 ≠ 0) (UInt8.ofNat n &&& 0x02 ≠ 0)
      (UInt8.ofNat n &&& 0x04 ≠ 0) (UInt8.ofNat n &&& 0x08 ≠ 0) (UInt8.ofNat n &&& 0x10 ≠ 0) := by
  decide +kernel

private theorem eq_flagByte {flags : UInt8} (reserved : flags &&& 0xe0 = 0) :
    flags = flagByte (flags &&& 0x01 ≠ 0) (flags &&& 0x02 ≠ 0) (flags &&& 0x04 ≠ 0)
      (flags &&& 0x08 ≠ 0) (flags &&& 0x10 ≠ 0) := by
  have := eq_flagByte_of_lt flags.toNat flags.toNat_lt
  rw [UInt8.ofNat_toNat] at this
  exact this reserved

variable {data : List UInt8} {cursor next : Nat}

private theorem prefix_append_iff {front back : List UInt8} :
    front ++ back <+: data.drop cursor ↔
      front <+: data.drop cursor ∧ back <+: data.drop (cursor + front.length) := by
  constructor
  · rintro ⟨rest, h⟩
    refine ⟨⟨back ++ rest, by rw [← h, List.append_assoc]⟩, ⟨rest, ?_⟩⟩
    rw [← List.drop_drop, ← h, List.append_assoc, List.drop_left]
  · rintro ⟨⟨rest, h⟩, ⟨rest', h'⟩⟩
    rw [← List.drop_drop, ← h, List.drop_left] at h'
    exact ⟨rest', by rw [← h, ← h', List.append_assoc]⟩

private theorem prefix_drop_le {bytes : List UInt8} (h : bytes <+: data.drop cursor)
    (ne : bytes ≠ []) : cursor + bytes.length ≤ data.length := by
  have hle := h.length_le
  have hpos := List.length_pos_iff.mpr ne
  rw [List.length_drop] at hle
  omega

private theorem slice_of_piece {bytes : List UInt8} (h : bytes <+: data.drop cursor) :
    slice data cursor (cursor + bytes.length) = bytes := by
  rw [slice, Nat.add_sub_cancel_left]
  exact (List.prefix_iff_eq_take.mp h).symm

private theorem range?_iff_prefix {bytes : List UInt8} {length : Nat} (pos : 0 < length) :
    range? data cursor (cursor + length) = some bytes ↔
      bytes.length = length ∧ bytes <+: data.drop cursor := by
  constructor
  · intro h
    have hlength := range?_length h
    obtain ⟨-, -, rfl⟩ := range?_eq_some.mp h
    exact ⟨by omega, List.take_prefix _ _⟩
  · rintro ⟨rfl, h⟩
    refine range?_eq_some.mpr ⟨by omega, prefix_drop_le h ?_, (slice_of_piece h).symm⟩
    exact List.ne_nil_of_length_pos pos

private theorem prefix_slice (cursor stop : Nat) : slice data cursor stop <+: data.drop cursor :=
  List.take_prefix _ _

private theorem skipExtra_iff {flag : Bool} :
    skipExtra data cursor flag = .ok next ↔
      ∃ extra : Option (List UInt8), extra.isSome = flag ∧
        (∀ bytes ∈ extra, bytes.length < 2 ^ 16) ∧ extraBytes extra <+: data.drop cursor ∧
          next = cursor + (extraBytes extra).length := by
  unfold skipExtra
  cases flag with
  | false =>
    rw [if_neg Bool.false_ne_true]
    constructor
    · intro h
      exact ⟨none, rfl, nofun, List.nil_prefix, (Except.ok.inj h).symm⟩
    · rintro ⟨extra, hnone, -, -, rfl⟩
      obtain rfl := Option.isNone_iff_eq_none.mp (by simpa using hnone)
      rfl
  | true =>
    rw [if_pos rfl]
    simp only [result_bind_eq_ok, okOr_eq_ok, ensure_eq_ok, range?_iff_prefix Nat.two_pos]
    constructor
    · rintro ⟨lengthBytes, ⟨hlength, hpiece⟩, _, hfits, heq⟩
      obtain rfl := Except.ok.inj heq
      have hle : toLe 2 (leNat lengthBytes) = lengthBytes := hlength ▸ toLe_leNat lengthBytes
      have hlt := leNat_lt lengthBytes
      rw [hlength] at hlt
      have hslice := @slice_length _ data (cursor + 2) (cursor + (2 + leNat lengthBytes)) hfits
      refine ⟨some (slice data (cursor + 2) (cursor + (2 + leNat lengthBytes))), rfl, ?_, ?_, ?_⟩
      · rintro bytes ⟨⟩
        omega
      · rw [extraBytes, hslice, show cursor + (2 + leNat lengthBytes) - (cursor + 2) =
          leNat lengthBytes by omega, hle]
        exact prefix_append_iff.mpr ⟨hpiece, hlength ▸ prefix_slice _ _⟩
      · rw [extraBytes, List.length_append, toLe_length, hslice]
        omega
    · rintro ⟨extra, hsome, hlt, hpiece, rfl⟩
      obtain ⟨bytes, rfl⟩ := Option.isSome_iff_exists.mp hsome
      have hleNat : leNat (toLe 2 bytes.length) = bytes.length := leNat_toLe_of_lt (hlt bytes rfl)
      have hinside := prefix_drop_le hpiece (by simp [extraBytes, toLe])
      rw [extraBytes] at hpiece hinside ⊢
      rw [List.length_append, toLe_length] at hinside ⊢
      exact ⟨toLe 2 bytes.length, ⟨toLe_length _ _, (prefix_append_iff.mp hpiece).1⟩, (),
        by rw [hleNat]; exact hinside, by rw [hleNat]; rfl⟩

private theorem readZeroTerminated_iff {field : String} {value : List UInt8} :
    readZeroTerminated data cursor field = .ok (value, next) ↔
      0 ∉ value ∧ value ++ [0] <+: data.drop cursor ∧ next = cursor + (value.length + 1) := by
  simp only [readZeroTerminated, result_bind_eq_ok, ensure_eq_ok]
  constructor
  · rintro ⟨_, hle, _, hmem, heq⟩
    obtain ⟨rfl, rfl⟩ := Prod.mk.inj (Except.ok.inj heq)
    have hlt := List.idxOf_lt_length_of_mem hmem
    refine ⟨fun hbefore => Nat.lt_irrefl _ ((List.mem_take_iff_idxOf_lt hmem).mp hbefore), ?_, ?_⟩
    · rw [show [(0 : UInt8)] = [(data.drop cursor)[(data.drop cursor).idxOf 0]] by
        rw [List.getElem_idxOf hlt], List.take_append_getElem hlt]
      exact List.take_prefix _ _
    · rw [List.length_take, Nat.min_eq_left (Nat.le_of_lt hlt)]
  · rintro ⟨hzero, hpiece, rfl⟩
    have hindex : (data.drop cursor).idxOf 0 = value.length := by
      rw [← hpiece.idxOf_eq_of_mem (by simp), List.idxOf_append_of_notMem hzero,
        List.idxOf_cons_self, Nat.add_zero]
    have hinside := prefix_drop_le hpiece (by simp)
    rw [List.length_append] at hinside
    refine ⟨(), by omega, (), hpiece.subset (by simp), ?_⟩
    rw [hindex, ← List.prefix_iff_eq_take.mp ((List.prefix_append value [0]).trans hpiece)]
    rfl

private theorem readField_iff {field : String} {flag : Bool} {value : Option (List UInt8)} :
    readField data cursor field flag = .ok (value, next) ↔
      value.isSome = flag ∧ (∀ bytes ∈ value, 0 ∉ bytes) ∧
        terminatedBytes value <+: data.drop cursor ∧
          next = cursor + (terminatedBytes value).length := by
  unfold readField
  cases flag with
  | false =>
    rw [if_neg Bool.false_ne_true, Except.ok.injEq, Prod.mk.injEq]
    constructor
    · rintro ⟨rfl, rfl⟩
      exact ⟨rfl, nofun, List.nil_prefix, rfl⟩
    · rintro ⟨hnone, -, -, rfl⟩
      obtain rfl := Option.isNone_iff_eq_none.mp (by simpa using hnone)
      exact ⟨rfl, rfl⟩
  | true =>
    rw [if_pos rfl]
    simp only [result_bind_eq_ok, Prod.exists, readZeroTerminated_iff]
    constructor
    · rintro ⟨bytes, after, ⟨hzero, hpiece, rfl⟩, heq⟩
      obtain ⟨rfl, rfl⟩ := Prod.mk.inj (Except.ok.inj heq)
      exact ⟨rfl, by rintro _ ⟨⟩; exact hzero, hpiece, by
        rw [terminatedBytes, List.length_append]; rfl⟩
    · rintro ⟨hsome, hzero, hpiece, rfl⟩
      obtain ⟨bytes, rfl⟩ := Option.isSome_iff_exists.mp hsome
      exact ⟨bytes, _, ⟨hzero bytes rfl, hpiece, rfl⟩, by
        rw [terminatedBytes, List.length_append]; rfl⟩

private theorem checkHeaderCrc_iff {crc : Crc32} {start : Nat} {flag : Bool} {front : List UInt8}
    (hfront : slice data start cursor = front) :
    checkHeaderCrc crc data start cursor flag = .ok next ↔
      (if flag then toLe 2 (crc.hash front % 2 ^ 16) else []) <+: data.drop cursor ∧
        next = cursor + (if flag then toLe 2 (crc.hash front % 2 ^ 16) else []).length := by
  unfold checkHeaderCrc
  cases flag with
  | false =>
    simp only [Bool.false_eq_true, if_false, Except.ok.injEq, List.nil_prefix, true_and,
      List.length_nil, Nat.add_zero]
    exact eq_comm
  | true =>
    simp only [if_true, result_bind_eq_ok, okOr_eq_ok, ensure_eq_ok, range?_iff_prefix Nat.two_pos,
      hfront, toLe_length]
    have hlt : crc.hash front % 2 ^ 16 < 256 ^ 2 := Nat.mod_lt _ (by decide)
    constructor
    · rintro ⟨expected, ⟨hlength, hpiece⟩, _, hsame, heq⟩
      obtain rfl := Except.ok.inj heq
      refine ⟨?_, rfl⟩
      rw [hsame, ← hlength, toLe_leNat]
      exact hpiece
    · rintro ⟨hpiece, rfl⟩
      exact ⟨_, ⟨toLe_length _ _, hpiece⟩, (), (leNat_toLe_of_lt hlt).symm, rfl⟩

private theorem eq_ten {bytes : List UInt8} (length : bytes.length = 10) :
    ∃ b0 b1 b2 b3 b4 b5 b6 b7 b8 b9, bytes = [b0, b1, b2, b3, b4, b5, b6, b7, b8, b9] :=
  match bytes, length with
  | [b0, b1, b2, b3, b4, b5, b6, b7, b8, b9], _ =>
    ⟨b0, b1, b2, b3, b4, b5, b6, b7, b8, b9, rfl⟩

namespace HeaderFields

private theorem fixed_length (f : HeaderFields) : f.fixed.length = 10 := by
  rw [fixed, List.length_append, List.length_append, toLe_length]
  rfl

private theorem front_length (f : HeaderFields) : f.front.length = 10 +
    (extraBytes f.extra).length +
    (terminatedBytes f.name).length + (terminatedBytes f.comment).length := by
  rw [front, List.length_append, List.length_append, List.length_append, fixed_length]

private theorem cursor_eq (f : HeaderFields) (start : Nat) :
    start + 10 + (extraBytes f.extra).length + (terminatedBytes f.name).length +
      (terminatedBytes f.comment).length = start + f.front.length := by
  rw [front_length]
  omega

private theorem front_prefix_iff {start : Nat} (f : HeaderFields) :
    f.front <+: data.drop start ↔
      f.fixed <+: data.drop start ∧ extraBytes f.extra <+: data.drop (start + 10) ∧
        terminatedBytes f.name <+: data.drop (start + 10 + (extraBytes f.extra).length) ∧
        terminatedBytes f.comment <+: data.drop (start + 10 + (extraBytes f.extra).length +
          (terminatedBytes f.name).length) := by
  rw [front, prefix_append_iff, prefix_append_iff, prefix_append_iff]
  simp only [List.length_append, fixed_length, and_assoc, Nat.add_assoc]

end HeaderFields

/-- The parser accepts what begins with a header, reads off what it says and stops behind it, inside
the data. -/
theorem parseHeader_iff (crc : Crc32) (data : List UInt8) (start : Nat) (header : Header) :
    parseHeader crc data start = .ok header ↔
      ∃ f : HeaderFields, f.bytes crc <+: data.drop start ∧ header = f.header crc start ∧
        header.deflateStart ≤ data.length := by
  constructor
  · intro h
    have hend := (parseHeader_next h).2
    simp only [parseHeader, result_bind_eq_ok, okOr_eq_ok, ensure_eq_ok,
      range?_iff_prefix (show 0 < 10 by decide), skipExtra_iff, Prod.exists, readField_iff] at h
    obtain ⟨fixed, ⟨hlength, hfixed⟩, _, hmagic, _, hmethod, _, hreserved, _,
      ⟨extra, hextra, hshort, hextraBytes, rfl⟩, name, _, ⟨hname, hnameZero, hnameBytes, rfl⟩, comment, _,
      ⟨hcomment, hcommentZero, hcommentBytes, rfl⟩, _, hcrc, heq⟩ := h
    obtain ⟨b0, b1, b2, b3, b4, b5, b6, b7, b8, b9, rfl⟩ := eq_ten hlength
    obtain ⟨rfl, rfl⟩ : b0 = 0x1f ∧ b1 = 0x8b := by simpa [slice] using hmagic
    obtain rfl : b2 = 8 := hmethod
    have hmtime : leNat [b4, b5, b6, b7] < 2 ^ 32 := Nat.lt_of_lt_of_eq (leNat_lt _) (by simp)
    let f : HeaderFields :=
      { text := b3 &&& 0x01 ≠ 0, mtime := leNat [b4, b5, b6, b7], extraFlags := b8
        operatingSystem := b9, extra, name, comment, checked := b3 &&& 0x02 ≠ 0
        mtime_lt := hmtime, extra_lt := hshort, name_nonzero := hnameZero
        comment_nonzero := hcommentZero }
    have hflags : f.flags = b3 := by
      rw [HeaderFields.flags, hextra, hname, hcomment]
      exact (eq_flagByte hreserved).symm
    have hbytes : f.fixed = [0x1f, 0x8b, 8, b3, b4, b5, b6, b7, b8, b9] := by
      have hle : toLe 4 f.mtime = [b4, b5, b6, b7] := toLe_leNat [b4, b5, b6, b7]
      rw [HeaderFields.fixed, hflags, hle]
      rfl
    have hfront : f.front <+: data.drop start :=
      f.front_prefix_iff.mpr ⟨hbytes ▸ hfixed, hextraBytes, hnameBytes, hcommentBytes⟩
    rw [show _ = start + f.front.length from f.cursor_eq start,
      checkHeaderCrc_iff (slice_of_piece hfront)] at hcrc
    obtain ⟨hchecksum, rfl⟩ := hcrc
    obtain rfl := Except.ok.inj heq
    refine ⟨f, prefix_append_iff.mpr ⟨hfront, hchecksum⟩, ?_, hend⟩
    rw [HeaderFields.header, HeaderFields.bytes, List.length_append, ← Nat.add_assoc]
    rfl
  · rintro ⟨f, hpiece, rfl, hend⟩
    obtain ⟨hfront, hchecksum⟩ := prefix_append_iff.mp hpiece
    obtain ⟨hfixed, hextra, hname, hcomment⟩ := f.front_prefix_iff.mp hfront
    obtain ⟨hreserved, hchecked, hsome, hnamed, hcommented⟩ := flagByte_bits f.text f.checked
      f.extra.isSome f.name.isSome f.comment.isSome
    simp only [parseHeader, result_bind_eq_ok, okOr_eq_ok, ensure_eq_ok,
      range?_iff_prefix (show 0 < 10 by decide), skipExtra_iff, Prod.exists, readField_iff]
    refine ⟨f.fixed, ⟨f.fixed_length, hfixed⟩, (), rfl, (), rfl, (), hreserved, _,
      ⟨f.extra, hsome.symm, f.extra_lt, hextra, rfl⟩, f.name, _,
      ⟨hnamed.symm, f.name_nonzero, hname, rfl⟩, f.comment, _,
      ⟨hcommented.symm, f.comment_nonzero, hcomment, rfl⟩,
      start + f.front.length + (f.checksum crc).length, ?_, ?_⟩
    · rw [f.cursor_eq start, checkHeaderCrc_iff (slice_of_piece hfront),
        show decide (f.fixed.getD 3 0 &&& 0x02 ≠ 0) = f.checked from hchecked]
      exact ⟨hchecksum, rfl⟩
    · have hmtime : leNat (slice f.fixed 4 8) = f.mtime := @leNat_toLe_of_lt 4 _ f.mtime_lt
      rw [hmtime, HeaderFields.header, HeaderFields.bytes, List.length_append, ← Nat.add_assoc]
      rfl

end Fbz.Deflate
