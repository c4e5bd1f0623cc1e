import Fbz.Deflate.Boundary
import Fbz.Deflate.CheckedSegment

/-!
# Finding boundaries, with every index checked

The search for a dynamic block reads headers at any bit of any data, and a job decodes from where
it finds one. Neither panics, and the search comes to an end.
-/

namespace Fbz.Deflate

open Checked

def remainingCodes? : List Nat → Int → Option (Option Int)
  | [], remaining => some (some remaining)
  | count :: counts, remaining => do
    let doubled ← int16 (remaining * 2)
    let remaining ← int16 (doubled - count)
    if remaining < 0 then some none else remainingCodes? counts remaining

def precodeWord? (data : List UInt8) (precodeBit : Nat) : Option Nat := do
  let byte := precodeBit / 8
  let shift := precodeBit % 8
  let low ← Bits.wordAt? data byte
  if shift = 0 then some low
  else
    let low ← shr 64 low shift
    let up ← sub 64 shift
    let high ← shl 64 (data.getD (byte + 8) 0).toNat up
    some (low ||| high)

/-- A turn of the loop over the lengths of the code-length code. -/
def countPrecode? (lengths : Nat) (state : List Nat × Nat) (place : Nat) :
    Option (List Nat × Nat) := do
  let (counts, used) := state
  let amount ← mul 64 place 3
  let length ← shr 64 lengths amount
  if length % 2 ^ 3 ≠ 0 then
    let counts ← bump 8 counts (length % 2 ^ 3)
    let used ← add 8 used 1
    some (counts, used)
  else some (counts, used)

def validPrecodeShape? (data : List UInt8) (blockBit : Nat) : Option Bool :=
  let precodeBit := blockBit + 13
  if precodeBit + precodeBits > data.length * 8 then some false
  else do
    let bits ← precodeWord? data precodeBit
    let lengths ← shr 64 bits 4
    let (counts, used) ← (List.range (4 + bits % 2 ^ 4)).foldlM (countPrecode? lengths)
      (List.replicate 8 0, 0)
    if used = 0 then some false
    else
      match ← remainingCodes? (counts.drop 1) 1 with
      | none => some false
      | some remaining => some (remaining = 0 || used = 1)

private theorem remainingCodes?_eq {counts : List Nat} {remaining : Int}
    (few : ∀ count ∈ counts, count ≤ 19)
    (nonneg : 0 ≤ remaining) (room : remaining * 2 ^ counts.length ≤ 2 ^ 7) :
    remainingCodes? counts remaining = some (remainingCodes counts remaining) := by
  induction counts generalizing remaining with
  | nil => rfl
  | cons count counts ih =>
    obtain ⟨hcount, hfew⟩ := List.forall_mem_cons.mp few
    have hroom : remaining * 2 * 2 ^ counts.length ≤ 2 ^ 7 := by
      rw [List.length_cons, pow_succ'] at room
      rw [mul_assoc]
      exact room
    have hpow : (1 : Int) ≤ 2 ^ counts.length := one_le_pow₀ (by decide)
    have hdouble : remaining * 2 ≤ 2 ^ 7 :=
      le_trans (le_mul_of_one_le_right (by omega) hpow) hroom
    rw [remainingCodes?, remainingCodes, bind_of_some (int16_of (by omega) (by omega)),
      bind_of_some (int16_of (by omega) (by omega))]
    split
    case isTrue => rfl
    case isFalse hfits =>
      refine ih hfew (by omega) (le_trans ?_ hroom)
      exact Int.mul_le_mul_of_nonneg_right (by omega) (by omega)

private theorem precodeWord?_eq {data : List UInt8} {precodeBit : Nat}
    (inside : precodeBit ≤ data.length * 8) :
    precodeWord? data precodeBit = some (precodeWord data precodeBit) := by
  rw [precodeWord?, precodeWord, bind_of_some (Bits.wordAt?_eq (by omega))]
  split
  case isTrue => rfl
  case isFalse hshift =>
    rw [bind_of_some (shr_of_lt (by omega)), bind_of_some (sub_of_le (by omega)), shl,
      if_pos (by omega)]
    rfl

/-- `lengths >> (index * 3) & 0b111`. -/
def precodeLength (lengths place : Nat) : Nat := lengths >>> (place * 3) % 2 ^ 3

/-- The lengths that are used among the first ones. -/
def usedLengths (lengths : Nat) (places : List Nat) : List Nat :=
  (places.map (precodeLength lengths)).filter (· ≠ 0)

/-- `counts` and `used` of the places so far. -/
structure PrecodeCounted (lengths : Nat) (places : List Nat) (state : List Nat × Nat) : Prop where
  counts : Holds state.1 8 fun i => (usedLengths lengths places).count i
  used : state.2 = (usedLengths lengths places).length

private theorem usedLengths_length_le (lengths : Nat) (places : List Nat) :
    (usedLengths lengths places).length ≤ places.length := by
  have hfilter := List.length_filter_le (fun length => decide (length ≠ 0))
    (places.map (precodeLength lengths))
  rw [List.length_map] at hfilter
  exact hfilter

private theorem usedLengths_concat (lengths place : Nat) (places : List Nat) :
    usedLengths lengths (places ++ [place]) =
      if precodeLength lengths place ≠ 0 then
        usedLengths lengths places ++ [precodeLength lengths place]
      else usedLengths lengths places := by
  rw [usedLengths, List.map_append, List.filter_append, List.map_singleton, List.filter_singleton]
  by_cases hused : precodeLength lengths place ≠ 0
  · rw [decide_eq_true hused, if_pos hused]
    rfl
  · rw [decide_eq_false hused, if_neg hused]
    exact List.append_nil _

private theorem PrecodeCounted.turn {lengths place : Nat} {places : List Nat}
    {state : List Nat × Nat}
    (h : PrecodeCounted lengths places state) (few : places.length < 19) (le : place < 19) :
    ∃ next, countPrecode? lengths state place = some next ∧
      PrecodeCounted lengths (places ++ [place]) next := by
  obtain ⟨counts, used⟩ := state
  obtain ⟨hcounts, hused⟩ := h
  have hused : used = (usedLengths lengths places).length := hused
  have hle := usedLengths_length_le lengths places
  have hplace : place * 3 < 2 ^ 64 := by omega
  have hnext := usedLengths_concat lengths place places
  rw [countPrecode?, bind_of_some (mul_of_lt hplace), bind_of_some (shr_of_lt (by omega))]
  show ∃ next, (if precodeLength lengths place ≠ 0 then _ else _) = _ ∧ _
  by_cases hzero : precodeLength lengths place ≠ 0
  · have hlt : precodeLength lengths place < 8 := Nat.mod_lt _ (by decide)
    have hcount := @List.count_le_length _ _ (precodeLength lengths place)
      (usedLengths lengths places)
    have hroom : used + 1 < 2 ^ 8 := by omega
    rw [if_pos hzero] at hnext
    rw [if_pos hzero]
    refine ⟨_, (bind_of_some (hcounts.bump hlt (by omega)) _).trans
      (bind_of_some (add_of_lt hroom) _), ?_, ?_⟩
    · rw [hnext]
      exact (hcounts.set hlt _).congr fun other _ => (count_concat _ _ other).symm
    · rw [hnext, List.length_append, List.length_singleton, ← hused]
  · rw [if_neg hzero] at hnext
    rw [if_neg hzero]
    refine ⟨_, rfl, ?_, ?_⟩
    · rw [hnext]
      exact hcounts
    · rw [hnext]
      exact hused

private theorem validPrecodeShape?_eq (data : List UInt8) (blockBit : Nat) :
    validPrecodeShape? data blockBit = some (validPrecodeShape data blockBit) := by
  rw [validPrecodeShape?, validPrecodeShape]
  dsimp only
  split
  case isTrue => rfl
  case isFalse hinside =>
    have hle : blockBit + 13 ≤ data.length * 8 := by omega
    rw [bind_of_some (precodeWord?_eq hle)]
    generalize precodeWord data (blockBit + 13) = bits
    rw [bind_of_some (shr_of_lt (by decide))]
    have hbits : bits % 2 ^ 4 < 2 ^ 4 := Nat.mod_lt _ (by decide)
    obtain ⟨⟨counts, used⟩, hloop, hcounts, hused⟩ :=
      @foldlM_done _ _ (countPrecode? (bits >>> 4)) (PrecodeCounted (bits >>> 4))
        (List.range (4 + bits % 2 ^ 4)) (List.replicate 8 0, 0)
        ⟨(Holds.replicate 8 0).congr fun _ _ => List.count_nil.symm, rfl⟩
        (fun done place rest hsplit state hcounted => by
          rw [List.range_eq_range'] at hsplit
          obtain ⟨hplace, hdone⟩ := range'_split hsplit
          exact hcounted.turn (by omega) (by omega))
    have hused : used = (usedLengths (bits >>> 4) (List.range (4 + bits % 2 ^ 4))).length := hused
    have hfew := usedLengths_length_le (bits >>> 4) (List.range (4 + bits % 2 ^ 4))
    rw [List.length_range] at hfew
    rw [bind_of_some hloop]
    show (if used = 0 then _ else _) = some (if
      (usedLengths (bits >>> 4) (List.range (4 + bits % 2 ^ 4))).isEmpty then _ else
        match remainingCodes ((List.range 7).map fun i =>
          (usedLengths (bits >>> 4) (List.range (4 + bits % 2 ^ 4))).count (i + 1)) 1 with
        | none => false
        | some remaining => remaining = 0 ||
          (usedLengths (bits >>> 4) (List.range (4 + bits % 2 ^ 4))).length = 1)
    generalize usedLengths (bits >>> 4) (List.range (4 + bits % 2 ^ 4)) = lengths at *
    have hcounts : counts.drop 1 = (List.range 7).map fun i => lengths.count (i + 1) := by
      have hmap : counts = (List.range 8).map fun i => lengths.count i := hcounts.eq_map
      rw [hmap, List.range_succ_eq_map, List.map_cons, List.drop_one, List.tail_cons,
        List.map_map]
      rfl
    have hall : ∀ count ∈ (List.range 7).map fun i => lengths.count (i + 1), count ≤ 19 := by
      intro count hmem
      obtain ⟨i, -, rfl⟩ := List.mem_map.mp hmem
      have := @List.count_le_length _ _ (i + 1) lengths
      omega
    by_cases hnone : used = 0
    · rw [if_pos hnone, if_pos (List.isEmpty_iff_length_eq_zero.mpr (hused ▸ hnone))]
    · have hsome : ¬ lengths.isEmpty = true :=
        fun hempty => hnone (hused.trans (List.isEmpty_iff_length_eq_zero.mp hempty))
      rw [if_neg hnone, if_neg hsome, hcounts, ← hused,
        bind_of_some (remainingCodes?_eq hall (by decide) (by
          rw [List.length_map, List.length_range]
          decide))]
      cases remainingCodes ((List.range 7).map fun i => lengths.count (i + 1)) 1 with
      | none => rfl
      | some remaining => rfl

def looksDynamic? (data : List UInt8) (startBit endBit bit : Nat) : Option Bool := do
  let low ← index data (bit / 8)
  let high ← shl 16 (data.getD (bit / 8 + 1) 0).toNat 8
  let header ← shr 16 (low.toNat ||| high) (bit % 8)
  some (decide (startBit ≤ bit) && decide (bit + 13 < endBit) && decide (header % 2 ^ 3 = 0b100))

def validHeader? (data : List UInt8) (bit : Nat) : Program Error Bool := do
  let bit' ← (liftM (Bits.start data (bit + 3)) : Program Error Nat)
  let (literals, bit') ← Bits.read? data bit' 5
  if literals > 29 then return false
  else
    let (distances, _) ← Bits.read? data bit' 5
    if distances > 29 then return false
    else (validPrecodeShape? data bit : Option Bool)

def findBoundary? (data : List UInt8) (startBit endBit : Nat) : List Nat → Option (Option Nat)
  | [] => some none
  | bit :: bits => do
    if ← looksDynamic? data startBit endBit bit then
      match ← (validHeader? data bit).run with
      | .error _ => some none
      | .ok false => findBoundary? data startBit endBit bits
      | .ok true =>
        let tables ← (dynamicTables? data (bit + 3)).run
        if tables.toOption.isSome then some (some bit)
        else findBoundary? data startBit endBit bits
    else findBoundary? data startBit endBit bits

def findDynamicBoundary? (data : List UInt8) (startBit endBit : Nat) : Option (Option Nat) :=
  let stop := min endBit (data.length * 8)
  let firstByte := startBit / 8
  let lastByte := min ((stop + 7) / 8) data.length
  findBoundary? data startBit stop (List.range' (firstByte * 8) ((lastByte - firstByte) * 8))

section Search

variable {data : List UInt8} {startBit endBit bit : Nat}

private theorem looksDynamic?_eq (inside : bit / 8 < data.length) :
    looksDynamic? data startBit endBit bit = some (looksDynamic data startBit endBit bit) := by
  have hlow : index data (bit / 8) = some (data.getD (bit / 8) 0) := by
    rw [index, List.getElem?_eq_getElem inside, List.getD_eq_getElem _ _ inside]
  have hbyte := (data.getD (bit / 8 + 1) 0).toNat_lt
  have hroom : (data.getD (bit / 8 + 1) 0).toNat * 2 ^ 8 < 2 ^ 16 := by omega
  rw [looksDynamic?, bind_of_some hlow, bind_of_some (shl_of_lt (by decide) hroom),
    bind_of_some (shr_of_lt (by omega)), looksDynamic, Nat.shiftLeft_eq]

private theorem validHeader?_returns : Returns Eq (validHeader? data bit)
    (validHeader data bit) := by
  apply (returns_check _).bind
  rintro _ start _ rfl
  apply (Bits.read?_returns (by decide)).bind
  rintro _ ⟨literals, next⟩ _ rfl
  dsimp only
  split
  case isTrue => exact returns_ok rfl
  case isFalse =>
    apply (Bits.read?_returns (by decide)).bind
    rintro _ ⟨distances, next'⟩ _ rfl
    dsimp only
    split
    case isTrue hlarge =>
      apply returns_ok
      rw [decide_eq_false (Nat.not_le.mpr hlarge), Bool.false_and]
    case isFalse hsmall =>
      apply returns_lift (validPrecodeShape?_eq data bit)
      rw [decide_eq_true (Nat.not_lt.mp hsmall), Bool.true_and]

private theorem findBoundary?_eq {bits : List Nat} (inside : ∀ bit ∈ bits, bit / 8 < data.length) :
    findBoundary? data startBit endBit bits = some (findBoundary data startBit endBit bits) := by
  induction bits with
  | nil => rfl
  | cons bit bits ih =>
    obtain ⟨hbit, hbits⟩ := List.forall_mem_cons.mp inside
    have hrest := ih hbits
    rw [findBoundary?, findBoundary, bind_of_some (looksDynamic?_eq hbit)]
    split
    case isFalse => exact hrest
    case isTrue =>
      rw [bind_of_some validHeader?_returns.run_eq]
      cases validHeader data bit with
      | error error => rfl
      | ok valid =>
        cases valid with
        | false => exact hrest
        | true =>
          obtain ⟨tables, htables, hagree⟩ := @dynamicTables?_returns data (bit + 3)
          dsimp only
          rw [bind_of_some htables, hagree.isSome_eq, hrest]
          split
          case isTrue => rfl
          case isFalse => rfl

private theorem findDynamicBoundary?_eq (data : List UInt8) (startBit endBit : Nat) :
    findDynamicBoundary? data startBit endBit = some (findDynamicBoundary data startBit endBit) := by
  apply findBoundary?_eq
  intro bit hmem
  have hrange := List.mem_range'_1.mp hmem
  omega

end Search

section Job

variable (crc : Crc32)

/-- The loop of `run_gzip_job`, with fuel for the bits up to the end of the search. -/
def searchSegment? (data : List UInt8) (job : GzipJob) : Nat → Nat → Program Error (Segment crc)
  | 0, _ => liftM (none : Option (Segment crc))
  | fuel + 1, search => do
    match ← (findDynamicBoundary? data search job.searchEnd : Option (Option Nat)) with
    | none => throw (invalidBit job.searchStart
        "no decodable dynamic DEFLATE boundary found near the parallel grid point")
    | some start =>
      match ← attempt (decodeSegment? crc data start job.stopBit .unknown job.outputLimit) with
      | .ok segment => return segment
      | .error _ => searchSegment? data job fuel (start + 1)

def runGzipJob? (data : List UInt8) (job : GzipJob) : Program Error (Segment crc) :=
  searchSegment? crc data job (job.searchEnd + 1) job.searchStart

variable {crc} {data : List UInt8} {job : GzipJob}

private theorem searchSegment?_returns {fuel search : Nat}
    (enough : job.searchEnd - search < fuel) :
    Returns Eq (searchSegment? crc data job fuel search) (searchSegment crc data job search) := by
  induction fuel generalizing search with
  | zero => exact absurd enough (Nat.not_lt_zero _)
  | succ fuel ih =>
    rw [searchSegment?, searchSegment_eq]
    apply returns_step (findDynamicBoundary?_eq data search job.searchEnd)
    cases hfound : findDynamicBoundary data search job.searchEnd with
    | none => exact returns_error _
    | some start =>
      have hbounds := findDynamicBoundary_some hfound
      apply returns_attempt (decodeSegment?_returns.mono fun _ _ _ hsame => hsame.1)
      dsimp only
      cases decodeSegment crc data start job.stopBit .unknown job.outputLimit with
      | ok segment => exact returns_ok rfl
      | error error => exact ih (by omega)

private theorem runGzipJob?_returns :
    Returns Eq (runGzipJob? crc data job) (runGzipJob crc data job) :=
  searchSegment?_returns (Nat.lt_succ_of_le (Nat.sub_le _ _))

/-- A table that is not empty has a place for whatever is peeked for it. -/
def CheckedTable.Covers (table : CheckedTable) (data : List UInt8) : Prop :=
  table.maxBits ≠ 0 → table.table.length = 2 ^ table.maxBits ∧
    ∀ bit place, (Bits.peek? data bit (min table.maxBits (data.length * 8 - bit))).run =
      some (.ok place) → place < 2 ^ table.maxBits

/-- A segment is within the limit, holds symbols, and these are resolved without a panic. -/
structure Segment.Safe (segment : Segment crc) (limit : Nat) : Prop where
  fits : segment.marked.length + segment.cleanOutput.length ≤ limit
  symbols : ∀ symbol ∈ segment.marked, symbol ≤ 255 ∨ windowSize ≤ symbol
  resolves : ∀ symbols ⊆ segment.marked, ∀ predecessor,
    (resolveSymbols? symbols predecessor).run = some (resolveSymbols symbols predecessor)

private theorem new?_covers {lengths : List Nat} {table : CheckedTable} (few : lengths.length ≤ 320)
    (built : (CheckedTable.new? lengths).run = some (.ok table)) (data : List UInt8) :
    table.Covers data := by
  intro hbits
  obtain ⟨huffman, -, same⟩ := (CheckedTable.new?_returns few).exists_ok built
  have hshort : table.maxBits ≤ maxCodeBits := same.maxBits ▸ same.short
  constructor
  · rw [same.table, same.maxBits]
    exact same.size (same.maxBits ▸ hbits)
  · intro bit place hpeek
    have hle := Nat.min_le_left table.maxBits (data.length * 8 - bit)
    have hmin : min table.maxBits (data.length * 8 - bit) ≤ 32 :=
      hle.trans (hshort.trans (by decide))
    obtain ⟨_, hpeeked, rfl⟩ := (Bits.peek?_returns hmin).exists_ok hpeek
    exact Nat.lt_of_lt_of_le (Bits.peek_lt hpeeked) (Nat.pow_le_pow_right (by decide) hle)

private theorem Segment.From.safe {segment : Segment crc} {m : MarkerOutput}
    {history : InitialHistory}
    {limit : Nat} (h : segment.From m) (produced : m.Produced history limit) :
    segment.Safe limit := by
  obtain ⟨hmarked, hclean, hstart⟩ := h
  have hvalid := produced.valid
  have hsymbols : ∀ symbol ∈ segment.marked, IsSymbol symbol := hmarked ▸ hvalid.symbols
  refine ⟨?_, fun symbol hmem => (hsymbols symbol hmem).imp_right And.left, ?_⟩
  · rw [Segment.cleanOutput, hmarked, hclean, hstart, List.length_drop]
    exact hvalid.fits
  · intro symbols hsubset predecessor
    exact (resolveSymbols?_returns fun symbol hmem => hsymbols symbol (hsubset hmem)).run_eq

private theorem decodeSegment_safe {startBit stopBit limit : Nat} {history : InitialHistory}
    {segment : Segment crc}
    (h : decodeSegment crc data startBit stopBit history limit = .ok segment) :
    (∃ m, m.Produced history limit ∧ segment.From m) ∧ segment.Safe limit := by
  have hreturns := @decodeSegment?_returns crc data stopBit limit history startBit
  have hrun := (hreturns.mono fun _ _ _ hsame => hsame.1).run_eq
  rw [h] at hrun
  obtain ⟨_, -, -, m, hproduced, hfrom⟩ := hreturns.exists_ok hrun
  exact ⟨⟨m, hproduced, hfrom⟩, hfrom.safe hproduced⟩

/-- A worker never panics, whatever the data and wherever it starts in it. Every output it goes
through is within the limit and holds symbols only, and so is every segment, whose symbols are
resolved without a panic behind any predecessor. -/
theorem worker_safe (crc : Crc32) (data : List UInt8) (startBit stopBit limit : Nat)
    (history : InitialHistory) (job : GzipJob) :
    (decodeSegment? crc data startBit stopBit history limit).run =
        some (decodeSegment crc data startBit stopBit history limit) ∧
      findDynamicBoundary? data startBit stopBit =
        some (findDynamicBoundary data startBit stopBit) ∧
      (runGzipJob? crc data job).run = some (runGzipJob crc data job) ∧
      (∀ lengths table, lengths.length ≤ 320 →
        (CheckedTable.new? lengths).run = some (.ok table) → table.Covers data) ∧
      (∀ m, MarkerOutput.Produced history limit m →
        m.len ≤ limit ∧ ∀ symbol ∈ m.marked, symbol ≤ 255 ∨ windowSize ≤ symbol) ∧
      (∀ segment, decodeSegment crc data startBit stopBit history limit = .ok segment →
        (∃ m, MarkerOutput.Produced history limit m ∧ segment.From m) ∧ segment.Safe limit) ∧
      ∀ segment, runGzipJob crc data job = .ok segment → segment.Safe job.outputLimit := by
  refine ⟨(decodeSegment?_returns.mono fun _ _ _ hsame => hsame.1).run_eq,
    findDynamicBoundary?_eq data startBit stopBit, runGzipJob?_returns.run_eq, ?_, ?_, ?_, ?_⟩
  · exact fun lengths table few built => new?_covers few built data
  · intro m hproduced
    have hvalid := hproduced.valid
    exact ⟨hvalid.fits, fun symbol hmem => (hvalid.symbols symbol hmem).imp_right And.left⟩
  · exact fun segment hsegment => decodeSegment_safe hsegment
  · exact fun segment hjob => (decodeSegment_safe (runGzipJob_ok hjob)).2

/-- A reference of length three, one byte back into the unknown window. -/
theorem worker_safe_window : ∃ segment,
    (decodeSegment? Crc32.reference [3, 2, 0] 0 0 .unknown 3).run = some (.ok segment) ∧
      segment.marked = [65535, 65535, 65535] ∧ segment.Safe 3 := by
  have hmarked : (decodeSegment Crc32.reference [3, 2, 0] 0 0 .unknown 3).toOption.map
      Segment.marked = some [65535, 65535, 65535] := by decide +kernel
  obtain ⟨hrun, -, -, -, -, hsafe, -⟩ :=
    worker_safe Crc32.reference [3, 2, 0] 0 0 3 .unknown ⟨0, 0, 0, 0⟩
  cases hsegment : decodeSegment Crc32.reference [3, 2, 0] 0 0 .unknown 3 with
  | error error =>
    rw [hsegment] at hmarked
    cases hmarked
  | ok segment =>
    rw [hsegment] at hmarked hrun
    exact ⟨segment, hrun, Option.some.inj hmarked, (hsafe segment hsegment).2⟩

end Job

end Fbz.Deflate
