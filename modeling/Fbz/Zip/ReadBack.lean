import Fbz.Zip.Directory

/-!
# What a finished archive says

A value above the largest 32-bit number goes to the Zip64 fields, and the largest number itself is
written as it is. The archive is read back exactly as long as that number does not occur.
-/

namespace Fbz.Zip

section Readers

variable {α β : Type}

@[simp] theorem bind_run (x : Reader α) (f : α → Reader β) (bytes : List UInt8) :
    (x >>= f) bytes = (x bytes).bind fun p => f p.1 p.2 := rfl

private theorem bind_of {x : Reader α} {bytes rest : List UInt8} {a : α}
    (h : x bytes = some (a, rest)) (f : α → Reader β) : (x >>= f) bytes = f a rest := by
  rw [bind_run, h, Option.bind_some]

@[simp] theorem pure_run (a : α) (bytes : List UInt8) :
    (pure a : Reader α) bytes = some (a, bytes) := rfl

@[simp] theorem failure_run (bytes : List UInt8) : (failure : Reader α) bytes = none := rfl

private theorem take_append {count : Nat} {front : List UInt8} (length : front.length = count)
    (rest : List UInt8) : take count (front ++ rest) = some (front, rest) := by
  subst length
  rw [take, if_pos (by simp), List.take_left, List.drop_left]

@[simp] theorem take_zero (bytes : List UInt8) : take 0 bytes = some ([], bytes) := rfl

private theorem number_toLe (width n : Nat) (rest : List UInt8) :
    number width (toLe width n ++ rest) = some (n % 256 ^ width, rest) := by
  rw [number, bind_run, take_append (toLe_length width n), Option.bind_some, pure_run, leNat_toLe]

private theorem number_toLe_of_lt {width n : Nat} (lt : n < 256 ^ width) (rest : List UInt8) :
    number width (toLe width n ++ rest) = some (n, rest) := by
  rw [number_toLe, Nat.mod_eq_of_lt lt]

private theorem expect_toLe {width value : Nat} (lt : value < 256 ^ width) (rest : List UInt8) :
    expect width value (toLe width value ++ rest) = some ((), rest) := by
  rw [expect, bind_run, number_toLe_of_lt lt, Option.bind_some, if_pos rfl]
  rfl

end Readers

/-- The entry as its record should say. -/
def CentralEntry.facts (entry : CentralEntry) : Facts :=
  ⟨entry.name, entry.method.toNat, entry.crc.toNat, entry.compressedSize.toNat,
    entry.uncompressedSize.toNat, entry.localOffset.toNat⟩

/-- No value of the entry is the largest 32-bit number. -/
def CentralEntry.Unmarked (entry : CentralEntry) : Prop :=
  entry.uncompressedSize.toNat ≠ u32Max ∧ entry.compressedSize.toNat ≠ u32Max ∧
    entry.localOffset.toNat ≠ u32Max

instance (entry : CentralEntry) : Decidable entry.Unmarked :=
  inferInstanceAs (Decidable (_ ∧ _ ∧ _))

/-- The short field of a value. -/
def short (value : UInt64) : Nat := if value.toNat > u32Max then u32Max else value.toNat

private theorem short_lt (value : UInt64) : short value < 256 ^ 4 := by
  unfold short u32Max
  split <;> omega

/-- The wide field of a value, if it has one. -/
def wideBytes (value : UInt64) : List UInt8 :=
  if value.toNat > u32Max then toLe 8 value.toNat else []

private theorem wide_short {value : UInt64} (ne : value.toNat ≠ u32Max) (rest : List UInt8) :
    wide (short value) (wideBytes value ++ rest) = some (value.toNat, rest) := by
  have hlt : value.toNat < 256 ^ 8 := value.toNat_lt
  unfold wide short wideBytes
  by_cases h : value.toNat > u32Max
  · rw [if_pos h, if_pos h, if_pos rfl, number_toLe_of_lt hlt]
  · rw [if_neg h, if_neg h, if_neg ne]
    rfl

private theorem wide_length {literal n : Nat} {bytes rest : List UInt8}
    (h : wide literal bytes = some (n, rest)) :
    bytes.length = rest.length + if literal = u32Max then 8 else 0 := by
  unfold wide at h
  split at h
  case isTrue hmarker =>
    rw [number, bind_run] at h
    obtain ⟨p, hp, h⟩ := Option.bind_eq_some_iff.mp h
    rw [take] at hp
    split at hp
    · cases hp
      cases h
      rw [if_pos hmarker, List.length_drop]
      omega
    · cases hp
  case isFalse hmarker =>
    cases h
    rw [if_neg hmarker]
    rfl

private theorem short_eq_u32Max {value : UInt64} : short value = u32Max ↔ u32Max ≤ value.toNat := by
  unfold short
  split <;> omega

private theorem wideBytes_length (value : UInt64) :
    (wideBytes value).length = if u32Max < value.toNat then 8 else 0 := by
  unfold wideBytes
  split <;> simp

private theorem wideFields_zip64Values (entry : CentralEntry) :
    wideFields (short entry.uncompressedSize) (short entry.compressedSize)
        (short entry.localOffset) (zip64Values entry) =
      if entry.Unmarked then
        some ((entry.uncompressedSize.toNat, entry.compressedSize.toNat,
          entry.localOffset.toNat), [])
      else none := by
  have hvalues : zip64Values entry = wideBytes entry.uncompressedSize ++
      (wideBytes entry.compressedSize ++ (wideBytes entry.localOffset ++ [])) := by
    simp [zip64Values, wideBytes, size64, compressed64, offset64]
  split
  case isTrue h =>
    obtain ⟨huncompressed, hcompressed, hoffset⟩ := h
    rw [hvalues]
    simp only [wideFields, bind_run, wide_short huncompressed, wide_short hcompressed,
      wide_short hoffset, Option.bind_some, pure_run]
  case isFalse h =>
    refine Option.eq_none_iff_forall_ne_some.mpr fun p hp => h ?_
    simp only [wideFields, bind_run] at hp
    obtain ⟨⟨_, first⟩, hfirst, hp⟩ := Option.bind_eq_some_iff.mp hp
    obtain ⟨⟨_, second⟩, hsecond, hp⟩ := Option.bind_eq_some_iff.mp hp
    obtain ⟨⟨_, third⟩, hthird, -⟩ := Option.bind_eq_some_iff.mp hp
    have hfirst := wide_length hfirst
    have hsecond := wide_length hsecond
    have hthird := wide_length hthird
    rw [hvalues] at hfirst
    simp only [List.length_append, List.length_nil, wideBytes_length, short_eq_u32Max]
      at hfirst hsecond hthird
    unfold CentralEntry.Unmarked
    split at hfirst <;> split at hfirst <;> split at hfirst <;> split at hfirst <;>
      split at hsecond <;> split at hthird <;> omega

section Extras

private theorem extraPayload_record {id other : Nat} (lt : other < 65536) {payload : List UInt8}
    (short : payload.length < 65536) (rest : List UInt8) :
    extraPayload id (toLe 2 other ++ toLe 2 payload.length ++ payload ++ rest) =
      if other = id then some payload else extraPayload id rest := by
  have hid : leNat (toLe 2 other) = other := leNat_toLe_of_lt lt
  have hlength : leNat (toLe 2 payload.length) = payload.length := leNat_toLe_of_lt short
  simp only [toLe] at hid hlength ⊢
  simp only [List.cons_append, List.nil_append]
  rw [extraPayload, hid, hlength, List.take_left, List.drop_left]

private theorem extraPayload_timestampExtra (modified : Option UInt32) :
    extraPayload 1 (timestampExtra modified) = none := by
  cases modified with
  | none => simp [timestampExtra, extraPayload]
  | some modified =>
    have hlength : ([1] ++ toLe 4 modified.toNat).length < 65536 := by simp
    have hother : 0x5455 < 65536 := by decide
    have hrecord : extraPayload 1 _ = _ := extraPayload_record hother hlength []
    have hnil : extraPayload 1 [] = none := by simp [extraPayload]
    rw [if_neg (by decide), hnil] at hrecord
    rw [← hrecord]
    simp [timestampExtra]

private theorem extraPayload_centralExtra (entry : CentralEntry) :
    (extraPayload 1 (centralExtra entry)).getD [] = zip64Values entry := by
  have hlength := zip64Values_length entry
  unfold centralExtra
  split
  case isTrue h =>
    rw [List.isEmpty_iff.mp h, List.nil_append, extraPayload_timestampExtra]
    rfl
  case isFalse h =>
    rw [extraPayload_record (by decide) (by omega), if_pos rfl]
    rfl

end Extras

private theorem readCentral_record {entry : CentralEntry} (name : entry.name.length ≤ u16Max)
    {record : List UInt8} (h : writeCentral entry = .ok record) (rest : List UInt8) :
    readCentral (record ++ rest) =
      if entry.Unmarked then some (entry.facts, rest) else none := by
  have hextra : (centralExtra entry).length ≤ u16Max :=
    Nat.le_trans (centralExtra_length entry) (by decide)
  simp only [writeCentral, length16_of_le name, length16_of_le hextra, result_bind_ok] at h
  have hcompressed : (if compressed64 entry then u32Max else entry.compressedSize.toNat) =
      short entry.compressedSize := by simp [short, compressed64]
  have huncompressed : (if size64 entry then u32Max else entry.uncompressedSize.toNat) =
      short entry.uncompressedSize := by simp [short, size64]
  have hoffset : (if offset64 entry then u32Max else entry.localOffset.toNat) =
      short entry.localOffset := by simp [short, offset64]
  have hsignature : 0x02014b50 < 256 ^ 4 := by decide
  have hmethod : entry.method.toNat < 256 ^ 2 := entry.method.toNat_lt
  have hcrc : entry.crc.toNat < 256 ^ 4 := entry.crc.toNat_lt
  have hname : entry.name.length < 256 ^ 2 := Nat.lt_succ_of_le name
  have hextra : (centralExtra entry).length < 256 ^ 2 := Nat.lt_succ_of_le hextra
  obtain rfl := Except.ok.inj h
  simp only [hcompressed, huncompressed, hoffset, List.append_assoc, readCentral]
  rw [bind_of (expect_toLe hsignature _), bind_of (number_toLe _ _ _),
    bind_of (number_toLe _ _ _), bind_of (number_toLe _ _ _),
    bind_of (number_toLe_of_lt hmethod _), bind_of (number_toLe _ _ _),
    bind_of (number_toLe _ _ _), bind_of (number_toLe_of_lt hcrc _),
    bind_of (number_toLe_of_lt (short_lt _) _), bind_of (number_toLe_of_lt (short_lt _) _),
    bind_of (number_toLe_of_lt hname _), bind_of (number_toLe_of_lt hextra _),
    bind_of (number_toLe _ _ _), bind_of (number_toLe _ _ _), bind_of (number_toLe _ _ _),
    bind_of (number_toLe _ _ _), bind_of (number_toLe_of_lt (short_lt _) _),
    bind_of (take_append rfl _), bind_of (take_append rfl _), Nat.zero_mod, bind_of (take_zero _)]
  simp only [extraPayload_centralExtra, wideFields_zip64Values]
  split <;> rfl

private theorem startsWith_toLe {signature other : Nat} (lt : signature < 256 ^ 4)
    (ltOther : other < 256 ^ 4) (rest : List UInt8) :
    startsWith signature (toLe 4 other ++ rest) = decide (other = signature) := by
  have htake : (toLe 4 other ++ rest).take 4 = toLe 4 other :=
    List.take_left' (toLe_length 4 other)
  rw [startsWith, htake]
  refine decide_eq_decide.mpr ⟨fun h => ?_, fun h => h ▸ rfl⟩
  rw [← leNat_toLe_of_lt lt, ← leNat_toLe_of_lt ltOther, h]

private theorem startsWith_record {entry : CentralEntry} {record : List UInt8}
    (h : writeCentral entry = .ok record) (rest : List UInt8) :
    startsWith 0x02014b50 (record ++ rest) = true := by
  obtain ⟨_, -, h⟩ := result_bind_eq_ok.mp h
  obtain ⟨_, -, h⟩ := result_bind_eq_ok.mp h
  obtain rfl := Except.ok.inj h
  simp only [List.append_assoc]
  rw [startsWith_toLe (by decide) (by decide)]
  rfl

section Records

variable {central : List CentralEntry} {records : List UInt8}

private theorem writeCentrals_eq_ok (names : ∀ e ∈ central, e.name.length ≤ u16Max) :
    ∃ records, writeCentrals central = .ok records ∧ records.length = directorySize central := by
  induction central with
  | nil => exact ⟨[], rfl, rfl⟩
  | cons entry rest ih =>
    obtain ⟨record, hrecord, hlength⟩ := writeCentral_eq_ok (names entry List.mem_cons_self)
    obtain ⟨records, hrecords, hrest⟩ := ih fun e he => names e (List.mem_cons_of_mem _ he)
    refine ⟨record ++ records, by simp [writeCentrals, hrecord, hrecords], ?_⟩
    simp [directorySize, hlength, hrest]

private theorem length_le_directorySize (central : List CentralEntry) :
    46 * central.length ≤ directorySize central := by
  induction central with
  | nil => exact Nat.le_refl 0
  | cons entry rest ih =>
    simp only [directorySize, List.map_cons, List.sum_cons, List.length_cons, recordLength] at ih ⊢
    omega

/-- The records read as their entries unless some value looks like a marker. -/
theorem readCentrals_records (names : ∀ e ∈ central, e.name.length ≤ u16Max)
    (h : writeCentrals central = .ok records) {fuel : Nat} (enough : central.length < fuel)
    {rest : List UInt8} (other : startsWith 0x02014b50 rest = false) :
    readCentrals fuel (records ++ rest) =
      if ∀ e ∈ central, e.Unmarked then some (central.map CentralEntry.facts, rest) else none := by
  induction central generalizing records fuel with
  | nil =>
    cases h
    cases fuel with
    | zero => omega
    | succ fuel => simp [readCentrals, other]
  | cons entry tail ih =>
    cases fuel with
    | zero => omega
    | succ fuel =>
      obtain ⟨record, hrecord, h⟩ := result_bind_eq_ok.mp h
      obtain ⟨others, hothers, h⟩ := result_bind_eq_ok.mp h
      cases h
      rw [List.append_assoc, readCentrals]
      beta_reduce
      rw [if_pos (startsWith_record hrecord _), bind_run,
        readCentral_record (names entry List.mem_cons_self) hrecord]
      by_cases hentry : entry.Unmarked
      · rw [if_pos hentry, Option.bind_some, bind_run,
          ih (fun e he => names e (List.mem_cons_of_mem _ he)) hothers (Nat.lt_of_succ_lt_succ enough)]
        by_cases htail : ∀ e ∈ tail, e.Unmarked
        · rw [if_pos htail, if_pos (List.forall_mem_cons.mpr ⟨hentry, htail⟩)]
          rfl
        · rw [if_neg htail, if_neg fun hall => htail (List.forall_mem_cons.mp hall).2]
          rfl
      · rw [if_neg hentry, if_neg fun hall => hentry (hall entry List.mem_cons_self)]
        rfl

end Records

private theorem readZip64End_zip64End {count start size : Nat} (hcount : count < 2 ^ 64)
    (hposition : start + size < 2 ^ 64) (rest : List UInt8) :
    readZip64End (start + size) (zip64End count start size ++ rest) =
      some (⟨count, size, start⟩, rest) := by
  have hrecord : 0x06064b50 < 256 ^ 4 := by decide
  have hlocator : 0x07064b50 < 256 ^ 4 := by decide
  have hfour : 44 < 256 ^ 8 := by decide
  have hcount : count < 256 ^ 8 := hcount
  have hsize : size < 256 ^ 8 := by omega
  have hstart : start < 256 ^ 8 := by omega
  have hposition : start + size < 256 ^ 8 := hposition
  simp only [zip64End, List.append_assoc, readZip64End, bind_run, expect_toLe hrecord,
    expect_toLe hlocator, expect_toLe hposition, number_toLe_of_lt hfour,
    number_toLe_of_lt hcount, number_toLe_of_lt hsize, number_toLe_of_lt hstart, number_toLe,
    Option.bind_some, Nat.sub_self, take_zero, pure_run]

private theorem orWide_min {marker value : Nat} {wide : Option Nat} (bytes : List UInt8)
    (same : ∀ w, wide = some w → w = value) (covered : marker < value → wide.isSome) :
    orWide marker (min value marker) wide bytes =
      if wide.isSome = true ∨ value ≠ marker then some (value, bytes) else none := by
  unfold orWide
  by_cases h : min value marker = marker
  · rw [if_pos h]
    cases hwide : wide with
    | some w => simp [same w hwide]
    | none =>
      have hle : ¬ marker < value := fun hlt => by simp [hwide] at covered; omega
      rw [if_neg (by simp; omega)]
      rfl
  · have hlt : value < marker := by omega
    rw [if_neg h, if_pos (.inr (by omega)), Nat.min_eq_left (Nat.le_of_lt hlt)]
    rfl

/-- The end record reads as what was counted unless a count looks like a marker and there is no
Zip64 end record. -/
theorem readEnd_endRecord {entries : List Facts} {count start size : Nat} {zip64 : Option Zip64End}
    (same : ∀ z, zip64 = some z → z = ⟨count, size, start⟩)
    (covered : u16Max < count ∨ u32Max < size ∨ u32Max < start → zip64.isSome) :
    readEnd entries zip64 (endRecord count start size) =
      if zip64.isSome = true ∨ (count ≠ u16Max ∧ size ≠ u32Max ∧ start ≠ u32Max) then
        some (⟨entries, count, size, start⟩, [])
      else none := by
  have hsignature : 0x06054b50 < 256 ^ 4 := by decide
  have hcount : min count u16Max < 256 ^ 2 := Nat.lt_succ_of_le (Nat.min_le_right _ _)
  have hsize : min size u32Max < 256 ^ 4 := Nat.lt_succ_of_le (Nat.min_le_right _ _)
  have hstart : min start u32Max < 256 ^ 4 := Nat.lt_succ_of_le (Nat.min_le_right _ _)
  have hend : endRecord count start size = endRecord count start size ++ [] := by simp
  rw [hend]
  simp only [endRecord, List.append_assoc, readEnd, bind_run, expect_toLe hsignature,
    number_toLe_of_lt hcount, number_toLe_of_lt hsize, number_toLe_of_lt hstart, number_toLe,
    Option.bind_some, Nat.zero_mod, take_zero]
  have hread : ∀ {marker value : Nat} (field : Zip64End → Nat),
      (∀ z, zip64 = some z → field z = value) → (marker < value → zip64.isSome) → ∀ bytes,
      orWide marker (min value marker) (zip64.map field) bytes =
        if zip64.isSome = true ∨ value ≠ marker then some (value, bytes) else none :=
    fun field hsame hcovered bytes => by
      have hmin := @orWide_min _ _ (zip64.map field) bytes (fun w hw => ?_)
        (fun h => by simpa using hcovered h)
      · simpa using hmin
      · obtain ⟨z, hz, rfl⟩ := Option.map_eq_some_iff.mp hw
        exact hsame z hz
  have hcounts := hread Zip64End.count (fun z hz => by rw [same z hz]) fun h => covered (.inl h)
  have hsizes := hread Zip64End.size (fun z hz => by rw [same z hz])
    fun h => covered (.inr (.inl h))
  have hstarts := hread Zip64End.start (fun z hz => by rw [same z hz])
    fun h => covered (.inr (.inr h))
  simp only [hcounts, hsizes, hstarts]
  by_cases hsome : zip64.isSome = true
  · simp [hsome]
  · by_cases hcount : count = u16Max <;> by_cases hsize : size = u32Max <;>
      by_cases hstart : start = u32Max <;> simp [hsome, hcount, hsize, hstart]

/-- What the directory should be read as. -/
def facts (start : Nat) (central : List CentralEntry) : Directory :=
  ⟨central.map CentralEntry.facts, central.length, directorySize central, start⟩

/-- No value that stands in a short field is the one that marks a wide field. -/
def Unmarked (start : Nat) (central : List CentralEntry) : Prop :=
  (∀ e ∈ central, e.Unmarked) ∧
    (archive64 central start (directorySize central) = true ∨
      (central.length ≠ u16Max ∧ directorySize central ≠ u32Max ∧ start ≠ u32Max))

instance (start : Nat) (central : List CentralEntry) : Decidable (Unmarked start central) :=
  inferInstanceAs (Decidable (_ ∧ _))

section Archives

variable {start : Nat} {central : List CentralEntry}

private theorem finishArchive_eq_ok (names : ∀ e ∈ central, e.name.length ≤ u16Max) :
    ∃ records, writeCentrals central = .ok records ∧ records.length = directorySize central ∧
      finishArchive start central = .ok (records ++
        ((if archive64 central start (directorySize central) then
          zip64End central.length start (directorySize central) else []) ++
        endRecord central.length start (directorySize central))) := by
  obtain ⟨records, hrecords, hlength⟩ := writeCentrals_eq_ok names
  exact ⟨records, hrecords, hlength,
    by rw [finishArchive, hrecords, result_bind_ok, hlength, List.append_assoc]⟩

private theorem readDirectory_finishArchive (names : ∀ e ∈ central, e.name.length ≤ u16Max)
    (positions : start + directorySize central < 2 ^ 64) {bytes : List UInt8}
    (h : finishArchive start central = .ok bytes) :
    readDirectory start bytes =
      if Unmarked start central then some (facts start central) else none := by
  obtain ⟨records, hrecords, hlength, hbytes⟩ := finishArchive_eq_ok names
  cases hbytes.symm.trans h
  have hentries := length_le_directorySize central
  generalize htail : (if archive64 central start (directorySize central) = true then
    zip64End central.length start (directorySize central) else []) ++
      endRecord central.length start (directorySize central) = tail
  have hother : startsWith 0x02014b50 tail = false := by
    rw [← htail]
    split
    · simp only [zip64End, List.append_assoc]
      rw [startsWith_toLe (by decide) (by decide)]
      rfl
    · simp only [endRecord, List.append_assoc, List.nil_append]
      rw [startsWith_toLe (by decide) (by decide)]
      rfl
  have hrest : tail.length ≥ 1 := by
    rw [← htail]
    simp [endRecord]
  have hposition : start + ((records ++ tail).length - tail.length) =
      start + directorySize central := by
    rw [List.length_append, hlength, Nat.add_sub_cancel]
  have henough : central.length < (records ++ tail).length := by
    rw [List.length_append, hlength]
    omega
  rw [readDirectory, readCentrals_records names hrecords henough hother]
  by_cases hall : ∀ e ∈ central, e.Unmarked
  · rw [if_pos hall]
    simp only [Option.bind_eq_bind, Option.bind_some, hposition]
    by_cases h64 : archive64 central start (directorySize central) = true
    · have hstarts : startsWith 0x06064b50 tail = true := by
        rw [← htail, if_pos h64]
        simp only [zip64End, List.append_assoc]
        rw [startsWith_toLe (by decide) (by decide)]
        rfl
      have hunmarked : Unmarked start central := ⟨hall, .inl h64⟩
      rw [if_pos hstarts, ← htail, if_pos h64, readZip64End_zip64End (by omega) positions,
        Option.map_some, Option.bind_some,
        readEnd_endRecord (by rintro z ⟨⟩; rfl) fun _ => rfl, if_pos (.inl rfl),
        if_pos hunmarked]
      rfl
    · have hstarts : startsWith 0x06064b50 tail = false := by
        rw [← htail, if_neg h64, List.nil_append]
        simp only [endRecord, List.append_assoc]
        rw [startsWith_toLe (by decide) (by decide)]
        rfl
      have hsmall : ¬ (u16Max < central.length ∨ u32Max < directorySize central ∨
          u32Max < start) := by
        simp only [archive64, Bool.or_eq_true, decide_eq_true_eq, not_or] at h64
        omega
      rw [if_neg (by simp [hstarts]), ← htail, if_neg h64, List.nil_append,
        readEnd_endRecord (fun _ h => by cases h) fun h => absurd h hsmall]
      by_cases hplain : central.length ≠ u16Max ∧ directorySize central ≠ u32Max ∧ start ≠ u32Max
      · have hunmarked : Unmarked start central := ⟨hall, .inr hplain⟩
        rw [if_pos (.inr hplain), if_pos hunmarked]
        rfl
      · have hmarked : ¬ Unmarked start central := fun h => hplain (h.2.resolve_left h64)
        rw [if_neg (by simpa using hplain), if_neg hmarked]
        rfl
  · have hmarked : ¬ Unmarked start central := fun h => hall h.1
    rw [if_neg hall, if_neg hmarked]
    rfl

/-- The records of an archive are written, and they are read back as what they stand for if and
only if no value in a short field looks like a marker. -/
theorem finishArchive_readBack (names : ∀ e ∈ central, e.name.length < 65536)
    (positions : start + directorySize central < 2 ^ 64) :
    ∃ bytes, finishArchive start central = .ok bytes ∧
      (readDirectory start bytes = some (facts start central) ↔ Unmarked start central) := by
  have names : ∀ e ∈ central, e.name.length ≤ u16Max := fun e he => Nat.le_of_lt_succ (names e he)
  obtain ⟨records, -, -, hbytes⟩ := @finishArchive_eq_ok start central names
  refine ⟨_, hbytes, ?_⟩
  rw [readDirectory_finishArchive names positions hbytes]
  split
  case isTrue h => exact ⟨fun _ => h, fun _ => rfl⟩
  case isFalse h => exact ⟨nofun, fun hunmarked => absurd hunmarked h⟩

end Archives

/-- An entry of two bytes behind one of `2 ^ 32` bytes. -/
def wideEntries : List CentralEntry :=
  [⟨[97], 8, 5, 6, 0x100000000, 0, 0o100644, some 7, true⟩,
    ⟨[98], 0, 3, 2, 2, 80, 0o100644, none, false⟩]

theorem finishArchive_readBack_wide :
    ∃ bytes, finishArchive 200 wideEntries = .ok bytes ∧
      (readDirectory 200 bytes = some (facts 200 wideEntries) ↔ Unmarked 200 wideEntries) :=
  finishArchive_readBack (by decide) (by decide)

/-- A file of `2 ^ 32 - 1` zeros, deflated. -/
def markedEntry : CentralEntry :=
  ⟨[97], 8, 5, 4174000, 0xFFFFFFFF, 0, 0o100644, none, mayNeedZip64 0xFFFFFFFF⟩

/-- The size of the file reads as a marker for a value that is nowhere. -/
theorem finishArchive_marked_lost :
    ∃ bytes, finishArchive 4174055 [markedEntry] = .ok bytes ∧
      readDirectory 4174055 bytes = none := by
  refine ⟨_, rfl, ?_⟩
  rw [@readDirectory_finishArchive 4174055 [markedEntry] (by decide) (by decide) _ rfl,
    if_neg (by decide)]

end Fbz.Zip
