import Fbz.Deflate.HuffmanCodes
import Fbz.Lib.Program

/-!
# Bits and tables of DEFLATE, with every index checked

The reader, the construction of the tables and the decoding of a symbol on numbers of fixed width.
They never panic, for any data, position and lengths of an alphabet.
-/

namespace Fbz.Deflate

open Checked CanonicalCode

namespace Bits

variable {data : List UInt8} {bit count : Nat}

/-- The fold of `word_at` near the end of the data. -/
def loadBytes? (bytes : List UInt8) : Option Nat :=
  bytes.zipIdx.foldlM (fun word entry => do
    let amount ← mul 64 entry.2 8
    let value ← shl 64 entry.1.toNat amount
    some (word ||| value)) 0

def wordAt? (data : List UInt8) (byte : Nat) : Option Nat :=
  if 8 ≤ data.length - byte then do
    let bytes ← range data byte (byte + 8)
    some (leNat bytes)
  else do
    let rest ← range data byte data.length
    loadBytes? (rest.take 8)

def peek? (data : List UInt8) (bit count : Nat) : Program Error Nat := do
  liftM (ensure (bit + count ≤ data.length * 8) (invalidBit bit "unexpected end of DEFLATE data"))
  let word ← (wordAt? data (bit / 8) : Option Nat)
  let power ← shl 64 1 count
  let below ← sub power 1
  let value ← shr 64 word (bit % 8)
  return (value &&& if count = 0 then 0 else below) % 2 ^ 32

def read? (data : List UInt8) (bit count : Nat) : Program Error (Nat × Nat) :=
  if count = 0 then return (0, bit)
  else do
    let value ← peek? data bit count
    return (value, bit + count)

def readAlignedBytes? (data : List UInt8) (bit count : Nat) :
    Program Error (List UInt8 × Nat) := do
  liftM (ensure (bit % 8 = 0) (invalidBit bit "internal unaligned byte read"))
  let bytes ← (liftM (okOr (invalidBit bit "truncated stored block")
    (Fbz.range? data (bit / 8) (bit / 8 + count))) : Program Error (List UInt8))
  return (bytes, (bit / 8 + count) * 8)

private theorem leNat_append (bytes : List UInt8) (byte : UInt8) :
    leNat (bytes ++ [byte]) = leNat bytes + byte.toNat * 256 ^ bytes.length := by
  induction bytes with
  | nil => simp [leNat]
  | cons first bytes ih =>
    rw [List.cons_append, leNat, leNat, ih, List.length_cons, Nat.pow_succ']
    ring

private theorem loadBytes?_eq {bytes : List UInt8} (few : bytes.length ≤ 8) :
    loadBytes? bytes = some (leNat bytes) := by
  induction bytes using List.reverseRecOn with
  | nil => rfl
  | append_singleton bytes byte ih =>
    rw [List.length_append, List.length_singleton] at few
    have hprevious := ih (by omega)
    have hbyte := byte.toNat_lt
    have hpow : 256 ^ bytes.length = 2 ^ (bytes.length * 8) := by
      rw [Nat.mul_comm, Nat.pow_mul]
    have hbound : 2 ^ (bytes.length * 8) ≤ 2 ^ 56 :=
      Nat.pow_le_pow_right (by decide) (by omega)
    have hroom : byte.toNat * 2 ^ (bytes.length * 8) < 2 ^ 64 := by
      have := Nat.mul_le_mul (show byte.toNat ≤ 255 by omega) hbound
      omega
    have hor : leNat bytes ||| byte.toNat * 2 ^ (bytes.length * 8) =
        leNat bytes + byte.toNat * 2 ^ (bytes.length * 8) := by
      rw [Nat.or_comm, ← Nat.shiftLeft_eq,
        ← Nat.shiftLeft_add_eq_or_of_lt (hpow ▸ leNat_lt bytes), Nat.add_comm]
    have hamount : bytes.length * 8 < 2 ^ 64 := by omega
    rw [loadBytes?] at hprevious ⊢
    rw [List.zipIdx_append, List.foldlM_append, bind_of_some hprevious, leNat_append, hpow, ← hor,
      Nat.zero_add]
    show ((mul 64 bytes.length 8 >>= fun amount => shl 64 byte.toNat amount >>= fun value =>
      some (leNat bytes ||| value)) >>= fun word => some word) = _
    rw [bind_of_some (mul_of_lt hamount), bind_of_some (shl_of_lt (by omega) hroom)]
    rfl

theorem wordAt?_eq {byte : Nat} (inside : byte ≤ data.length) :
    wordAt? data byte = some (wordAt data byte) := by
  rw [wordAt?, wordAt]
  split
  case isTrue hword =>
    rw [bind_of_some (range_of_le (Nat.le_add_right byte 8) (by omega)), slice]
  case isFalse htail =>
    have hrest : (data.drop byte).take (data.length - byte) = data.drop byte :=
      List.take_of_length_le (Nat.le_of_eq List.length_drop)
    rw [bind_of_some (range_of_le inside (Nat.le_refl _)), hrest, slice, Nat.add_sub_cancel_left]
    exact loadBytes?_eq (List.length_take_le 8 _)

theorem peek?_returns (few : count ≤ 32) :
    Returns Eq (peek? data bit count) (peek data bit count) := by
  apply (returns_check _).bind
  intro _ _ hensure _
  have hfits := ensure_eq_ok.mp hensure
  have hpower : 1 * 2 ^ count < 2 ^ 64 := by
    rw [Nat.one_mul]
    exact Nat.pow_lt_pow_right (by decide) (by omega)
  apply returns_step (wordAt?_eq (by omega))
  apply returns_step (shl_of_lt (by omega) hpower)
  rw [Nat.one_mul]
  apply returns_step (sub_of_le Nat.one_le_two_pow)
  apply returns_step (shr_of_lt (by omega))
  apply returns_ok
  by_cases hzero : count = 0
  · subst hzero
    rw [if_pos rfl, Nat.and_zero, Nat.pow_zero, Nat.mod_one, Nat.zero_mod]
  · rw [if_neg hzero, Nat.and_two_pow_sub_one_eq_mod]
    apply Nat.mod_eq_of_lt
    exact Nat.lt_of_lt_of_le (Nat.mod_lt _ (Nat.two_pow_pos count))
      (Nat.pow_le_pow_right (by decide) few)

theorem read?_returns (few : count ≤ 32) :
    Returns Eq (read? data bit count) (read data bit count) := by
  rw [read?, read]
  split
  case isTrue => exact returns_ok rfl
  case isFalse hpos =>
    apply (peek?_returns few).bind
    rintro _ value _ rfl
    exact returns_ok rfl

theorem readAlignedBytes?_returns :
    Returns Eq (readAlignedBytes? data bit count) (readAlignedBytes data bit count) := by
  apply (returns_check _).bind
  intro _ _ _ _
  apply (returns_check _).bind
  rintro _ bytes _ rfl
  exact returns_ok rfl

end Bits

/-- The table as an array. -/
structure CheckedTable where
  table : List Nat
  maxBits : Nat

namespace CheckedTable

/-- A turn of the loop over the lengths. -/
def countLength? (state : List Nat × Nat) (length : Nat) : Program Error (List Nat × Nat) := do
  let (counts, maxBits) := state
  liftM (ensure (length ≤ maxCodeBits)
    (invalid (s!"Huffman code length {length} exceeds " ++ s!"{maxCodeBits}")))
  if length ≠ 0 then
    let counts ← (bump 16 counts length : Option (List Nat))
    return (counts, max maxBits length)
  else return (counts, maxBits)

def countLengths? (lengths : List Nat) : Program Error (List Nat × Nat) :=
  lengths.foldlM countLength? (List.replicate (maxCodeBits + 1) 0, 0)

/-- A turn of the loop over `counts[1..]`. -/
def checkCount? (remaining : Int) (count : Nat) : Program Error Int := do
  let remaining ← int32 (double32 remaining - count)
  liftM (ensure (¬ remaining < 0) (invalid "oversubscribed Huffman table"))
  return remaining

def checkCounts? (counts : List Nat) : Program Error Int := do
  let counts ← (range counts 1 counts.length : Option (List Nat))
  counts.foldlM checkCount? 1

def nextCode? (counts : List Nat) (state : Nat × List Nat) (bits : Nat) :
    Option (Nat × List Nat) := do
  let (code, nextCode) := state
  let shorter ← sub bits 1
  let before ← index counts shorter
  let code ← add 16 code before
  let code ← shl 16 code 1
  let nextCode ← store nextCode bits code
  some (code, nextCode)

def nextCodes? (counts : List Nat) : Option (Nat × List Nat) :=
  (List.range' 1 maxCodeBits).foldlM (nextCode? counts)
    (0, List.replicate (maxCodeBits + 1) 0)

/-- `value.reverse_bits() >> (16 - count)`. -/
def reverseLowBits? (value count : Nat) : Option Nat := do
  let down ← sub 16 count
  shr 16 (Huffman.reverseLowBits value 16) down

/-- The loop over the suffixes of a code. -/
def fillSymbol? (table : List Nat) (reversed length suffixBits packed : Nat) :
    Option (List Nat) := do
  let count ← shl 64 1 suffixBits
  (List.range count).foldlM (fun table suffix => do
    let high ← shl 64 suffix length
    store table (reversed ||| high) packed) table

/-- The loop over the symbols. -/
def fillTable? (maxBits : Nat) : List (Nat × Nat) → List Nat → List Nat → Option (List Nat)
  | [], _, table => some table
  | (length, symbol) :: rest, nextCode, table =>
    if length = 0 then fillTable? maxBits rest nextCode table
    else do
      let canonical ← index nextCode length
      let nextCode ← bump 16 nextCode length
      let reversed ← reverseLowBits? canonical length
      let suffixBits ← sub maxBits length
      let high ← shl 16 length 9
      let table ← fillSymbol? table reversed length suffixBits (high ||| symbol % 2 ^ 16)
      fillTable? maxBits rest nextCode table

def new? (lengths : List Nat) : Program Error CheckedTable := do
  let (counts, maxBits) ← countLengths? lengths
  if maxBits = 0 then return ⟨[], 0⟩
  else do
    let _ ← checkCounts? counts
    let (_, nextCode) ← (nextCodes? counts : Option (Nat × List Nat))
    let size ← shl 64 1 maxBits
    let table ← (fillTable? maxBits lengths.zipIdx nextCode (List.replicate size noCode) :
      Option (List Nat))
    return ⟨table, maxBits⟩

/-- A symbol and the position behind its code. -/
def decode? (table : CheckedTable) (data : List UInt8) (bit : Nat) : Program Error (Nat × Nat) := do
  liftM (ensure (table.maxBits ≠ 0) (invalidBit bit "attempted to decode an empty Huffman table"))
  let remaining := data.length * 8 - bit
  let place ← Bits.peek? data bit (min table.maxBits remaining)
  let packed ← (index table.table place : Option Nat)
  liftM (ensure (packed ≠ noCode) (invalidBit bit "invalid Huffman code"))
  let length ← shr 16 packed 9
  liftM (ensure (length ≤ remaining) (invalidBit bit "truncated Huffman code"))
  return (packed &&& 0x1ff, bit + length)

open Huffman

variable {lengths : List Nat}

private theorem checkLengths_eq (lengths : List Nat) :
    lengths.foldlM (fun (_ : Unit) length => ensure (length ≤ maxCodeBits)
        (invalid (s!"Huffman code length {length} exceeds " ++ s!"{maxCodeBits}"))) () =
      ensure (∀ length ∈ lengths, length ≤ maxCodeBits)
        (invalid (s!"Huffman code length {(lengths.find? (maxCodeBits < ·)).getD 0} exceeds " ++
          s!"{maxCodeBits}")) := by
  induction lengths with
  | nil => exact (ensure_of nofun).symm
  | cons length rest ih =>
    rw [List.foldlM_cons, List.find?_cons]
    by_cases hle : length ≤ maxCodeBits
    · rw [ensure_of hle, result_bind_ok, ih, decide_eq_false (Nat.not_lt.mpr hle)]
      simp only [ensure, List.forall_mem_cons, hle, true_and]
    · rw [ensure_of_not hle, decide_eq_true (Nat.not_le.mp hle), ensure_of_not]
      · rfl
      · intro hall
        exact hle (hall length List.mem_cons_self)

private theorem codeCount_le (lengths : List Nat) (length : Nat) :
    codeCount lengths length ≤ lengths.length := by
  rw [codeCount]
  split
  · exact Nat.zero_le _
  · exact List.count_le_length

private theorem codeCount_concat (lengths : List Nat) {length : Nat} (pos : length ≠ 0)
    (other : Nat) : codeCount (lengths ++ [length]) other =
      Function.update (codeCount lengths) length (codeCount lengths length + 1) other := by
  rw [codeCount, List.count_append, List.count_singleton]
  by_cases heq : other = length
  · subst heq
    rw [Function.update_self, beq_self_eq_true, if_pos rfl, codeCount, if_neg pos, if_neg pos]
  · have hne : ¬ (length == other) = true := by simpa using Ne.symm heq
    rw [Function.update_of_ne heq, codeCount, if_neg hne, Nat.add_zero]

private theorem codeCount_zero (lengths : List Nat) (other : Nat) :
    codeCount (lengths ++ [0]) other = codeCount lengths other := by
  rw [codeCount, codeCount, List.count_append, List.count_singleton]
  by_cases heq : other = 0
  · rw [if_pos heq, if_pos heq]
  · rw [if_neg heq, if_neg heq, if_neg (by simpa using Ne.symm heq), Nat.add_zero]

/-- `counts` and `max_bits` of the lengths so far. -/
structure Counted (lengths : List Nat) (state : List Nat × Nat) : Prop where
  counts : Holds state.1 (maxCodeBits + 1) (codeCount lengths)
  maxBits : state.2 = lengths.foldl max 0

private theorem Counted.countLength?_returns {state : List Nat × Nat} (h : Counted lengths state)
    (few : lengths.length < 2 ^ 16 - 1) (length : Nat) :
    Returns (fun next _ => Counted (lengths ++ [length]) next) (countLength? state length)
      (ensure (length ≤ maxCodeBits)
        (invalid (s!"Huffman code length {length} exceeds " ++ s!"{maxCodeBits}"))) := by
  obtain ⟨counts, maxBits⟩ := state
  obtain ⟨hcounts, hmax⟩ := h
  have hmax : maxBits = lengths.foldl max 0 := hmax
  apply returns_checked
  intro _ hensure
  have hlt := Nat.lt_succ_of_le (ensure_eq_ok.mp hensure)
  split
  case isTrue hpos =>
    have hcount := codeCount_le lengths length
    apply returns_step (hcounts.bump hlt (by omega))
    apply returns_ok
    refine ⟨(hcounts.set hlt _).congr fun other _ => (codeCount_concat lengths hpos other).symm, ?_⟩
    rw [List.foldl_append, hmax]
    rfl
  case isFalse hzero =>
    obtain rfl : length = 0 := by omega
    apply returns_ok
    refine ⟨hcounts.congr fun other _ => (codeCount_zero lengths other).symm, ?_⟩
    rw [List.foldl_append, hmax]
    exact (Nat.max_zero _).symm

private theorem countLengths?_returns (few : lengths.length ≤ 320) :
    Returns (fun state _ => Counted lengths state) (countLengths? lengths)
      (ensure (∀ length ∈ lengths, length ≤ maxCodeBits)
        (invalid (s!"Huffman code length {(lengths.find? (maxCodeBits < ·)).getD 0} exceeds " ++
          s!"{maxCodeBits}"))) := by
  rw [countLengths?, ← checkLengths_eq]
  apply Returns.foldlM (R := fun done state _ => Counted done state)
  · refine ⟨(Holds.replicate _ 0).congr fun length _ => ?_, rfl⟩
    rw [codeCount, List.count_nil, ite_self]
  · intro done length rest hsplit state _ hcounted
    have hdone := congrArg List.length hsplit
    rw [List.length_append] at hdone
    exact hcounted.countLength?_returns (by omega) length

private theorem checkCounts?_turns {counts : List Nat} {remaining : Int} {done : Nat}
    (few : ∀ count ∈ counts, count ≤ 320) (left : done + counts.length ≤ maxCodeBits)
    (lo : 0 ≤ remaining) (hi : remaining ≤ 2 ^ done) :
    Returns (fun _ _ => True) (counts.foldlM checkCount? remaining)
      (ensure (checkCounts counts remaining = true) (invalid "oversubscribed Huffman table")) := by
  induction counts generalizing remaining done with
  | nil => exact returns_ok trivial
  | cons count counts ih =>
    obtain ⟨hcount, hcounts⟩ := List.forall_mem_cons.mp few
    rw [List.length_cons] at left
    have hpow : (2 : Int) ^ (done + 1) = 2 ^ done * 2 := pow_succ 2 done
    have hmax : (2 : Int) ^ (done + 1) ≤ 2 ^ 15 := by
      apply pow_le_pow_right₀ (by decide)
      rw [maxCodeBits] at left
      omega
    have hdouble : double32 remaining = remaining * 2 := double32_of (by omega) (by omega)
    have hstep := @int32_of (remaining * 2 - count) (by omega) (by omega)
    have hchecked : ensure (checkCounts (count :: counts) remaining = true)
        (invalid "oversubscribed Huffman table") =
          ensure (¬ remaining * 2 - count < 0) (invalid "oversubscribed Huffman table") >>=
            fun _ => ensure (checkCounts counts (remaining * 2 - count) = true)
              (invalid "oversubscribed Huffman table") := by
      rw [checkCounts]
      by_cases hneg : remaining * 2 - count < 0
      · rw [if_pos hneg, ensure_of_not (not_not.mpr hneg), ensure_of_not Bool.false_ne_true]
        rfl
      · rw [if_neg hneg, ensure_of hneg, result_bind_ok]
    rw [List.foldlM_cons, hchecked]
    have hturn : Returns (fun next _ => next = remaining * 2 - count ∧ 0 ≤ next)
        (checkCount? remaining count)
        (ensure (¬ remaining * 2 - count < 0) (invalid "oversubscribed Huffman table")) := by
      rw [checkCount?, hdouble]
      apply returns_step hstep
      apply returns_checked
      intro _ hensure
      apply returns_ok
      exact ⟨rfl, Int.not_lt.mp (ensure_eq_ok.mp hensure)⟩
    apply hturn.bind
    rintro _ _ _ ⟨rfl, hnonneg⟩
    exact @ih (remaining * 2 - count) (done + 1) hcounts (by omega) hnonneg (by omega)

private theorem checkCounts?_returns {counts : List Nat} (few : lengths.length ≤ 320)
    (holds : Holds counts (maxCodeBits + 1) (codeCount lengths)) :
    Returns (fun _ _ => True) (checkCounts? counts)
      (ensure (checkCounts ((List.range maxCodeBits).map fun i => codeCount lengths (i + 1)) 1 = true)
        (invalid "oversubscribed Huffman table")) := by
  have hlength := holds.length
  have htail : (counts.drop 1).take (counts.length - 1) =
      (List.range maxCodeBits).map fun i => codeCount lengths (i + 1) := by
    apply List.ext_getElem
    · rw [List.length_take, List.length_drop, hlength, List.length_map, List.length_range]
      rfl
    · intro i hi hi'
      rw [List.length_map, List.length_range] at hi'
      have hget := holds.get (i + 1) (Nat.succ_lt_succ hi')
      rw [List.getElem_take, List.getElem_drop, List.getElem_map, List.getElem_range]
      rw [Nat.add_comm i 1] at hget ⊢
      exact (List.getElem?_eq_some_iff.mp hget).2
  rw [checkCounts?]
  apply returns_step (range_of_le (by rw [hlength]; decide) (Nat.le_refl _))
  rw [htail]
  apply @checkCounts?_turns _ 1 0
  · intro count hmem
    obtain ⟨i, -, rfl⟩ := List.mem_map.mp hmem
    exact (codeCount_le lengths (i + 1)).trans few
  · rw [List.length_map, List.length_range, Nat.zero_add]
  · decide
  · decide

/-- The codes of the lengths up to this one. -/
structure Coded (lengths : List Nat) (done : Nat) (state : Nat × List Nat) : Prop where
  code : state.1 = firstCode lengths done
  size : state.2.length = maxCodeBits + 1
  codes : ∀ length, 1 ≤ length → length ≤ done → state.2[length]? = some (firstCode lengths length)

private theorem firstCode_fits (fits : filled lengths maxCodeBits ≤ 2 ^ maxCodeBits) {length : Nat}
    (le : length ≤ maxCodeBits) : firstCode lengths length + codeCount lengths length ≤ 2 ^ length := by
  rw [firstCode_eq]
  exact filled_le_of_le le fits

private theorem nextCode?_eq {counts : List Nat} {done : Nat} {state : Nat × List Nat}
    (fits : filled lengths maxCodeBits ≤ 2 ^ maxCodeBits)
    (holds : Holds counts (maxCodeBits + 1) (codeCount lengths)) (lt : done < maxCodeBits)
    (coded : Coded lengths done state) :
    ∃ next, nextCode? counts state (done + 1) = some next ∧ Coded lengths (done + 1) next := by
  obtain ⟨code, nextCode⟩ := state
  obtain ⟨hcode, hsize, hcodes⟩ := coded
  obtain rfl : code = firstCode lengths done := hcode
  have hsize : nextCode.length = maxCodeBits + 1 := hsize
  have hfits := firstCode_fits fits (Nat.le_of_lt lt)
  have hpow : 2 ^ done ≤ 2 ^ 14 :=
    Nat.pow_le_pow_right (by decide) (Nat.le_of_lt_succ lt)
  have hnext : (firstCode lengths done + codeCount lengths done) * 2 ^ 1 =
      firstCode lengths (done + 1) := rfl
  have hadd : firstCode lengths done + codeCount lengths done < 2 ^ 16 := by omega
  have hshl : (firstCode lengths done + codeCount lengths done) * 2 ^ 1 < 2 ^ 16 := by omega
  have hplace : done + 1 < nextCode.length := by rw [hsize]; exact Nat.succ_lt_succ lt
  rw [nextCode?, bind_of_some (sub_of_le (Nat.le_add_left 1 done)), Nat.add_sub_cancel,
    bind_of_some (holds.index (Nat.lt_succ_of_lt lt)), bind_of_some (add_of_lt hadd),
    bind_of_some (shl_of_lt (by decide) hshl), hnext, bind_of_some (store_of_lt hplace _)]
  refine ⟨_, rfl, rfl, by rw [List.length_set, hsize], fun other hpos hle => ?_⟩
  rcases Nat.eq_or_lt_of_le hle with rfl | hlt
  · exact List.getElem?_set_self hplace
  · exact (List.getElem?_set_ne (by omega)).trans (hcodes other hpos (by omega))

private theorem nextCodes?_eq {counts : List Nat}
    (fits : filled lengths maxCodeBits ≤ 2 ^ maxCodeBits)
    (holds : Holds counts (maxCodeBits + 1) (codeCount lengths)) :
    ∃ state, nextCodes? counts = some state ∧ Coded lengths maxCodeBits state := by
  obtain ⟨state, hstate, hcoded⟩ : ∃ state, nextCodes? counts = some state ∧
      Coded lengths (List.range' 1 maxCodeBits).length state := by
    apply @foldlM_done _ _ _ fun done state => Coded lengths done.length state
    · exact ⟨rfl, List.length_replicate, fun length hpos hle => by
        rw [List.length_nil] at hle
        omega⟩
    · intro done length rest hsplit state hcoded
      obtain ⟨rfl, hlt⟩ := range'_split hsplit
      rw [List.length_append, List.length_singleton, Nat.add_comm 1]
      exact nextCode?_eq fits holds hlt hcoded
  rw [List.length_range'] at hcoded
  exact ⟨state, hstate, hcoded⟩

theorem reverseLowBits_div (value count low : Nat) :
    reverseLowBits value (count + low) / 2 ^ low = reverseLowBits value count := by
  induction count generalizing value with
  | zero =>
    rw [Nat.zero_add]
    exact Nat.div_eq_of_lt (reverseLowBits_lt value low)
  | succ count ih =>
    rw [Nat.add_right_comm, reverseLowBits, reverseLowBits, Nat.pow_add, ← Nat.mul_assoc,
      Nat.add_comm, Nat.add_mul_div_right _ _ (Nat.two_pow_pos low), ih, Nat.add_comm]

private theorem reverseLowBits?_eq {value count : Nat} (pos : 0 < count) (le : count ≤ 16) :
    reverseLowBits? value count = some (reverseLowBits value count) := by
  have hreverse := reverseLowBits_div value count (16 - count)
  rw [Nat.add_sub_cancel' le, ← Nat.shiftRight_eq_div_pow] at hreverse
  rw [reverseLowBits?, bind_of_some (sub_of_le le), shr_of_lt (by omega), hreverse]

private theorem fillSymbol?_eq {table : List Nat} {reversed length suffixBits packed : Nat}
    (low : reversed < 2 ^ length) (short : length + suffixBits ≤ 15)
    (size : table.length = 2 ^ (length + suffixBits)) :
    fillSymbol? table reversed length suffixBits packed =
      some (fillSymbol table reversed length suffixBits packed) := by
  have hcount : 1 * 2 ^ suffixBits < 2 ^ 64 := by
    rw [Nat.one_mul]
    exact Nat.pow_lt_pow_right (by decide) (by omega)
  rw [fillSymbol?, bind_of_some (shl_of_lt (by omega) hcount), Nat.one_mul, fillSymbol]
  obtain ⟨last, hlast, hsame, -⟩ : ∃ last,
      (List.range (2 ^ suffixBits)).foldlM (fun table suffix => do
        let high ← shl 64 suffix length
        store table (reversed ||| high) packed) table = some last ∧
      last = (List.range (2 ^ suffixBits)).foldl
        (fun table suffix => table.set (reversed ||| suffix <<< length) packed) table ∧
      last.length = table.length := by
    apply @foldlM_done _ _ _ fun (done : List Nat) (state : List Nat) => state = done.foldl
      (fun table suffix => table.set (reversed ||| suffix <<< length) packed) table ∧
        state.length = table.length
    · exact ⟨rfl, rfl⟩
    · rintro done suffix rest hsplit state ⟨hstate, hlength⟩
      rw [List.range_eq_range'] at hsplit
      obtain ⟨rfl, hlt⟩ := range'_split hsplit
      rw [Nat.zero_add]
      have hhigh : done.length * 2 ^ length < 2 ^ (length + suffixBits) := by
        rw [Nat.pow_add, Nat.mul_comm]
        exact Nat.mul_lt_mul_of_pos_left hlt (Nat.two_pow_pos length)
      have hword : 2 ^ (length + suffixBits) ≤ 2 ^ 64 := Nat.pow_le_pow_right (by decide) (by omega)
      have hplace : reversed ||| done.length * 2 ^ length < state.length := by
        rw [hlength, size]
        exact Nat.or_lt_two_pow
          (Nat.lt_of_lt_of_le low (Nat.pow_le_pow_right (by decide) (Nat.le_add_right _ _))) hhigh
      rw [bind_of_some (shl_of_lt (by omega) (Nat.lt_of_lt_of_le hhigh hword)),
        store_of_lt hplace]
      refine ⟨_, rfl, ?_, by rw [List.length_set, hlength]⟩
      rw [List.foldl_append, ← hstate, ← Nat.shiftLeft_eq]
      rfl
  rw [hlast, hsame]

private theorem fillTable?_eq {maxBits : Nat} {symbols : List (Nat × Nat)} {array table : List Nat}
    {nextCode : Nat → Nat} (short : maxBits ≤ maxCodeBits) (size : array.length = maxCodeBits + 1)
    (holds : ∀ length, 1 ≤ length → length ≤ maxCodeBits → array[length]? = some (nextCode length))
    (bounded : ∀ entry ∈ symbols, entry.1 ≤ maxBits ∧ entry.2 < 2 ^ 16)
    (room : ∀ length, 1 ≤ length → length ≤ maxCodeBits →
      nextCode length + codeCount (symbols.map Prod.fst) length ≤ 2 ^ length)
    (full : table.length = 2 ^ maxBits) :
    fillTable? maxBits symbols array table = some (fillTable maxBits symbols nextCode table) := by
  induction symbols generalizing array nextCode table with
  | nil => rfl
  | cons entry rest ih =>
    obtain ⟨length, symbol⟩ := entry
    obtain ⟨⟨hle, hsymbol⟩, hrest⟩ := List.forall_mem_cons.mp bounded
    have hle : length ≤ maxBits := hle
    have hsymbol : symbol < 2 ^ 16 := hsymbol
    rw [List.map_cons] at room
    rw [fillTable?, fillTable]
    by_cases hzero : length = 0
    · rw [if_pos hzero, if_pos hzero]
      apply ih size holds hrest _ full
      intro other hpos hmax
      have := room other hpos hmax
      rw [codeCount, if_neg (Nat.ne_of_gt hpos), List.count_cons] at this
      rw [codeCount, if_neg (Nat.ne_of_gt hpos)]
      omega
    · rw [if_neg hzero, if_neg hzero]
      have hpos : 1 ≤ length := Nat.one_le_iff_ne_zero.mpr hzero
      have hlt : length < array.length := by rw [size]; omega
      have hcode := holds length hpos (hle.trans short)
      have hindex : index array length = some (nextCode length) := hcode
      have hroom := room length hpos (hle.trans short)
      rw [codeCount, if_neg hzero, List.count_cons_self] at hroom
      have hpow : 2 ^ length ≤ 2 ^ 15 := Nat.pow_le_pow_right (by decide) (hle.trans short)
      have hbump : nextCode length + 1 < 2 ^ 16 := by omega
      have hlength : length ≤ 15 := hle.trans short
      have hhigh : length * 2 ^ 9 < 2 ^ 16 := by omega
      have hfill := @fillSymbol?_eq table (reverseLowBits (nextCode length) length) length
        (maxBits - length) (length <<< 9 ||| symbol) (reverseLowBits_lt _ _)
        (by rw [Nat.add_sub_cancel' hle]; exact short) (by rw [Nat.add_sub_cancel' hle]; exact full)
      rw [bind_of_some hindex, bind_of_some (bump_of_lt hcode hbump),
        bind_of_some (reverseLowBits?_eq hpos (by omega)), bind_of_some (sub_of_le hle),
        bind_of_some (shl_of_lt (by decide) hhigh), Nat.mod_eq_of_lt hsymbol, ← Nat.shiftLeft_eq,
        bind_of_some hfill]
      apply ih
      · rw [List.length_set, size]
      · intro other hpos' hmax
        by_cases heq : other = length
        · rw [if_pos heq, heq, List.getElem?_set_self hlt]
        · rw [if_neg heq, List.getElem?_set_ne (Ne.symm heq), holds other hpos' hmax]
      · exact hrest
      · intro other hpos' hmax
        have := room other hpos' hmax
        rw [codeCount, if_neg (Nat.ne_of_gt hpos'), List.count_cons] at this
        rw [codeCount, if_neg (Nat.ne_of_gt hpos')]
        by_cases heq : other = length
        · subst heq
          rw [beq_self_eq_true, if_pos rfl] at this
          rw [if_pos rfl]
          omega
        · rw [if_neg heq]
          omega
      · rw [fillSymbol_length, full]

/-- The array is the table, and large enough for every index of its bits. -/
structure Represents (checked : CheckedTable) (huffman : Huffman) : Prop where
  table : checked.table = huffman.table
  maxBits : checked.maxBits = huffman.maxBits
  short : huffman.maxBits ≤ maxCodeBits
  size : huffman.maxBits ≠ 0 → huffman.table.length = 2 ^ huffman.maxBits

private theorem fillTable_length {maxBits : Nat} {symbols : List (Nat × Nat)} {nextCode : Nat → Nat}
    {table : List Nat} : (fillTable maxBits symbols nextCode table).length = table.length := by
  induction symbols generalizing nextCode table with
  | nil => rfl
  | cons entry rest ih =>
    obtain ⟨length, symbol⟩ := entry
    rw [fillTable]
    split
    · exact ih
    · exact ih.trans (fillSymbol_length ..)

theorem new?_returns (few : lengths.length ≤ 320) :
    Returns Represents (new? lengths) (Huffman.new lengths) := by
  rw [new?, Huffman.new]
  apply (countLengths?_returns few).bind
  rintro ⟨counts, maxBits⟩ _ hensure ⟨hcounts, hmax⟩
  have hall := ensure_eq_ok.mp hensure
  have hshort : lengths.foldl max 0 ≤ maxCodeBits := foldl_max_le hall
  obtain rfl : maxBits = lengths.foldl max 0 := hmax
  dsimp only
  split
  case isTrue => exact returns_ok ⟨rfl, rfl, Nat.zero_le _, fun hne => absurd rfl hne⟩
  case isFalse hpos =>
    apply (checkCounts?_returns few hcounts).bind
    intro _ _ hchecked _
    have hfits := (checkCounts_filled lengths).mp (ensure_eq_ok.mp hchecked)
    obtain ⟨⟨code, nextCode⟩, hcodes, hcoded⟩ := nextCodes?_eq hfits hcounts
    have hsize : 1 * 2 ^ lengths.foldl max 0 < 2 ^ 64 := by
      rw [Nat.one_mul]
      exact Nat.pow_lt_pow_right (by decide) (Nat.lt_of_le_of_lt hshort (by decide))
    have hword : lengths.foldl max 0 < 64 := Nat.lt_of_le_of_lt hshort (by decide)
    have hbounded : ∀ entry ∈ lengths.zipIdx, entry.1 ≤ lengths.foldl max 0 ∧ entry.2 < 2 ^ 16 := by
      rintro ⟨length, symbol⟩ hmem
      obtain ⟨-, hsymbol, hlength⟩ := List.mem_zipIdx hmem
      constructor
      · rw [hlength]
        exact le_foldl_max 0 (List.getElem_mem _)
      · dsimp only
        omega
    have htable := @fillTable?_eq (lengths.foldl max 0) lengths.zipIdx nextCode
      (List.replicate (2 ^ lengths.foldl max 0) noCode) (firstCode lengths) hshort hcoded.size
      hcoded.codes hbounded
      (fun length _ hle => by rw [List.zipIdx_map_fst]; exact firstCode_fits hfits hle)
      List.length_replicate
    apply returns_step hcodes
    apply returns_step (shl_of_lt hword hsize)
    rw [Nat.one_mul]
    apply returns_step htable
    apply returns_ok
    exact ⟨rfl, rfl, hshort, fun _ => fillTable_length.trans List.length_replicate⟩

theorem Represents.decode?_returns {checked : CheckedTable} {huffman : Huffman}
    (h : checked.Represents huffman) {data : List UInt8} {bit : Nat} :
    Returns Eq (checked.decode? data bit) (huffman.decode data bit) := by
  rw [decode?, Huffman.decode, h.maxBits]
  apply (returns_check _).bind
  intro _ _ hensure _
  have hpos := ensure_eq_ok.mp hensure
  have hshort : huffman.maxBits ≤ 15 := h.short
  apply (Bits.peek?_returns (by omega)).bind
  rintro place _ hpeek rfl
  have hplace : place < huffman.table.length := by
    rw [h.size hpos]
    exact Nat.lt_of_lt_of_le (Bits.peek_lt hpeek)
      (Nat.pow_le_pow_right (by decide) (Nat.min_le_left _ _))
  have hentry : index checked.table place = some (huffman.table.getD place noCode) := by
    rw [index, h.table, List.getD_eq_getElem _ _ hplace, List.getElem?_eq_getElem hplace]
  apply returns_step hentry
  apply (returns_check _).bind
  intro _ _ _ _
  apply returns_step (shr_of_lt (by decide))
  apply (returns_check _).bind
  intro _ _ _ _
  exact returns_ok rfl

end CheckedTable

end Fbz.Deflate
