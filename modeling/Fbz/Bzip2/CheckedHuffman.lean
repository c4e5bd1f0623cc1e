import Fbz.Bzip2.HuffmanCodes
import Fbz.Lib.Program

/-!
# Bits and tables of bzip2, with every index checked

The reader, the construction of the tables and the decoding of a symbol on arrays and numbers of
fixed width. They never panic, for any data and any lengths, and return what the tables stand for.
-/

namespace Fbz.Bzip2

open Checked BitOrder

namespace Bits

variable {data : List UInt8} {bit count : Nat}

/-- The loop of `peek` near the end of the data. -/
def loadBytes? (bytes : List UInt8) : Option Nat :=
  bytes.foldlM (fun word value => do
    let word ← shl 64 word 8
    some (word ||| value.toNat)) 0

def peek? (data : List UInt8) (bit count : Nat) : Program Error Nat := do
  liftM (ensure (count ≤ remaining data bit) (decodeError bit .truncated))
  let byte := bit / 8
  let offset := bit % 8
  if byte + 8 ≤ data.length then
    let bytes ← range data byte (byte + 8)
    let word ← shl 64 (beNat bytes) offset
    let down ← sub 64 count
    let value ← shr 64 word down
    return value % 2 ^ 32
  else
    let stop := (bit + count + 7) / 8
    let bytes ← range data byte stop
    let word ← loadBytes? bytes
    let loaded ← sub stop byte
    let left ← sub (loaded * 8) offset
    let left ← sub left count
    let value ← shr 64 word left
    let power ← shl 64 1 count
    let mask ← sub power 1
    return (value &&& mask) % 2 ^ 32

def read? (data : List UInt8) (bit count : Nat) : Program Error (Nat × Nat) :=
  if count = 0 then return (0, bit)
  else do
    let value ← peek? data bit count
    return (value, bit + count)

def readBit? (data : List UInt8) (bit : Nat) : Program Error (Bool × Nat) := do
  let (value, bit) ← read? data bit 1
  return (value ≠ 0, bit)

private theorem beNat_lt (bytes : List UInt8) : beNat bytes < 2 ^ (8 * bytes.length) := by
  induction bytes using List.reverseRecOn with
  | nil => exact Nat.one_pos
  | append_singleton bytes byte ih =>
    have := byte.toNat_lt
    rw [beNat_append, List.length_append, List.length_singleton, Nat.mul_add, Nat.pow_add]
    omega

private theorem loadBytes?_eq {bytes : List UInt8} (few : bytes.length ≤ 8) :
    loadBytes? bytes = some (beNat bytes) := by
  induction bytes using List.reverseRecOn with
  | nil => rfl
  | append_singleton bytes byte ih =>
    rw [List.length_append, List.length_singleton] at few
    have hprevious := ih (by omega)
    have hroom : beNat bytes * 2 ^ 8 < 2 ^ 64 := by
      have hlt : beNat bytes < 2 ^ 56 :=
        Nat.lt_of_lt_of_le (beNat_lt bytes) (Nat.pow_le_pow_right (by decide) (by omega))
      omega
    rw [loadBytes?] at hprevious ⊢
    rw [List.foldlM_append, hprevious, beNat_append, ← Nat.shiftLeft_eq,
      Nat.shiftLeft_add_eq_or_of_lt byte.toNat_lt, Nat.shiftLeft_eq]
    simp only [List.foldlM_cons, List.foldlM_nil, Option.bind_eq_bind, Option.bind_some,
      shl_of_lt (by decide : 8 < 64) hroom, Option.pure_def]

private theorem peek?_returns (pos : 0 < count) (few : count ≤ 32) :
    Returns Eq (peek? data bit count) (peek data bit count) := by
  apply (returns_check _).bind
  intro _ _ hensure _
  have hfits : count ≤ data.length * 8 - bit := ensure_eq_ok.mp hensure
  dsimp only
  split
  case isTrue hword =>
    apply returns_step (range_of_le (by omega) hword)
    have hshl : shl 64 (beNat (slice data (bit / 8) (bit / 8 + 8))) (bit % 8) =
        some (beNat (slice data (bit / 8) (bit / 8 + 8)) <<< (bit % 8) % 2 ^ 64) :=
      if_pos (by omega)
    apply returns_step hshl
    apply returns_step (sub_of_le (by omega))
    apply returns_step (shr_of_lt (by omega))
    exact returns_ok rfl
  case isFalse htail =>
    apply returns_step (range_of_le (by omega) (by omega))
    have hlength : (slice data (bit / 8) ((bit + count + 7) / 8)).length =
        (bit + count + 7) / 8 - bit / 8 := slice_length (by omega)
    apply returns_step (@loadBytes?_eq (slice data (bit / 8) ((bit + count + 7) / 8)) (by omega))
    apply returns_step (sub_of_le (by omega))
    apply returns_step (sub_of_le (by omega))
    apply returns_step (sub_of_le (by omega))
    apply returns_step (shr_of_lt (by omega))
    have hpower : 1 * 2 ^ count < 2 ^ 64 := by
      rw [Nat.one_mul]
      exact Nat.pow_lt_pow_right (by decide) (by omega)
    apply returns_step (shl_of_lt (by omega) hpower)
    rw [Nat.one_mul]
    apply returns_step (sub_of_le Nat.one_le_two_pow)
    rw [Nat.and_two_pow_sub_one_eq_mod]
    exact returns_ok rfl

theorem read?_returns (few : count ≤ 32) :
    Returns Eq (read? data bit count) (read data bit count) := by
  rw [read?, read]
  split
  case isTrue => exact returns_ok rfl
  case isFalse hpos =>
    apply (peek?_returns (Nat.pos_of_ne_zero hpos) few).bind
    rintro _ value _ rfl
    exact returns_ok rfl

theorem readBit?_returns : Returns Eq (readBit? data bit) (readBit data bit) := by
  apply (read?_returns (by decide)).bind
  rintro _ ⟨value, next⟩ _ rfl
  exact returns_ok rfl

theorem read_lt {value next : Nat} (pos : 0 < count) (few : count ≤ 32)
    (h : read data bit count = .ok (value, next)) : value < 2 ^ count := by
  rw [read_eq pos few] at h
  split at h
  · rw [← (Prod.mk.inj (Except.ok.inj h)).1]
    exact highFirst_lt (streamBit data) bit count
  · cases h

end Bits

/-- The tables as arrays. -/
structure Tables where
  minLen : Nat
  maxLen : Nat
  limit : List Int
  base : List Int
  symbols : List Nat
  lut : List (Nat × Nat)

namespace Tables

def countLengths? (lengths : List Nat) : Option (List Nat) :=
  lengths.foldlM (bump 32) (List.replicate (maxCodeLen + 1) 0)

/-- A turn of the loop that fills `next_code`, with the check on the length. -/
def nextCode? (counts : List Nat) (bitOffset : Nat) (state : Nat × List Nat) (length : Nat) :
    Program Error (Nat × List Nat) := do
  let (code, nextCode) := state
  let shorter ← sub length 1
  let before ← (index counts shorter : Option Nat)
  let code ← add 32 code before
  let code ← shl 32 code 1
  let nextCode ← store nextCode length code
  let count ← (index counts length : Option Nat)
  let filled ← add 32 code count
  let bound ← shl 32 1 length
  liftM (ensure (filled ≤ bound) (decodeError bitOffset .invalidHuffman))
  return (code, nextCode)

def nextCodes? (counts : List Nat) (bitOffset : Nat) : Program Error (Nat × List Nat) :=
  (List.range' 1 maxCodeLen).foldlM (nextCode? counts bitOffset)
    (0, List.replicate (maxCodeLen + 1) 0)

/-- The loop over the symbols, which fills `lut`. -/
def fillLut? : List (Nat × Nat) → List Nat → List (Nat × Nat) → Option (List (Nat × Nat))
  | [], _, lut => some lut
  | (length, symbol) :: rest, nextCode, lut => do
    let canonical ← index nextCode length
    let nextCode ← bump 32 nextCode length
    if length ≤ lutBits then
      let room ← sub lutBits length
      let count ← shl 64 1 room
      let start ← mul 64 canonical count
      let stop ← add 64 start count
      let lut ← fill lut start stop (length, symbol)
      fillLut? rest nextCode lut
    else fillLut? rest nextCode lut

/-- `base[length + 1] += 1` for the lengths that have a longer one. -/
def countShorter? (base : List Int) (length : Nat) : Option (List Int) :=
  if length = maxCodeLen then some base
  else do
    let value ← index base (length + 1)
    let value ← int32 (value + 1)
    store base (length + 1) value

/-- `base[length] += base[length - 1]`. -/
def addShorter? (base : List Int) (length : Nat) : Option (List Int) := do
  let before ← sub length 1
  let shorter ← index base before
  let value ← index base length
  let value ← int32 (value + shorter)
  store base length value

def shorterCodes? (lengths : List Nat) : Option (List Int) := do
  let base ← lengths.foldlM countShorter? (List.replicate (maxCodeLen + 1) 0)
  (List.range' 1 maxCodeLen).foldlM addShorter? base

def limit? (counts : List Nat) (state : Int × List Int) (length : Nat) :
    Option (Int × List Int) := do
  let (value, limit) := state
  let count ← index counts length
  let value ← int32 (value + count)
  let last ← int32 (value - 1)
  let limit ← store limit length last
  some (double32 value, limit)

def limits? (counts : List Nat) (minLen maxLen : Nat) : Option (Int × List Int) :=
  (List.range' minLen (maxLen + 1 - minLen)).foldlM (limit? counts)
    (0, List.replicate (maxCodeLen + 1) 0)

def base? (limit : List Int) (base : List Int) (length : Nat) : Option (List Int) := do
  let before ← sub length 1
  let last ← index limit before
  let next ← int32 (last + 1)
  let shorter ← index base length
  let value ← int32 (double32 next - shorter)
  store base length value

def bases? (limit shorter : List Int) (minLen maxLen : Nat) : Option (List Int) :=
  (List.range' (minLen + 1) (maxLen - minLen)).foldlM (base? limit) shorter

def build? (lengths : List Nat) (bitOffset : Nat) : Program Error Tables :=
  match lengths.min?, lengths.max? with
  | some minLen, some maxLen =>
    if minLen = 0 ∨ maxLen > maxCodeLen then throw (decodeError bitOffset .invalidHuffman)
    else do
      let counts ← countLengths? lengths
      let (_, nextCode) ← nextCodes? counts bitOffset
      let lut ← fillLut? lengths.zipIdx nextCode (List.replicate lutSize (0, 0))
      let shorter ← shorterCodes? lengths
      let (_, limit) ← limits? counts minLen maxLen
      let base ← bases? limit shorter minLen maxLen
      return { minLen, maxLen, limit, base, symbols := Huffman.codeOrder lengths minLen maxLen, lut }
  | _, _ => throw (decodeError bitOffset .invalidHuffman)

/-- The loop of `decode`; the fuel bounds the number of turns. -/
def search? (tables : Tables) (data : List UInt8) : Nat → Nat → Int → Nat →
    Program Error (Nat × Nat)
  | 0, _, _, _ => liftM (none : Option (Nat × Nat))
  | fuel + 1, length, code, bit => do
    let limit ← (index tables.limit length : Option Int)
    if code ≤ limit then
      let base ← (index tables.base length : Option Int)
      let place ← int32 (code - base)
      match if 0 ≤ place then tables.symbols[place.toNat]? else none with
      | some symbol => return (symbol, bit)
      | none => throw (decodeError bit .invalidHuffman)
    else if length = tables.maxLen then throw (decodeError bit .invalidHuffman)
    else do
      let length ← add 8 length 1
      let (next, bit) ← Bits.read? data bit 1
      search? tables data fuel length (or32 (double32 code) (asInt32 next)) bit

def lookup? (tables : Tables) (data : List UInt8) (bit : Nat) : Program Error (Nat × Nat) :=
  if lutBits ≤ Bits.remaining data bit then do
    let place ← Bits.peek? data bit lutBits
    liftM (index tables.lut place)
  else return (0, 0)

def decode? (tables : Tables) (data : List UInt8) (bit : Nat) : Program Error (Nat × Nat) := do
  let (length, symbol) ← tables.lookup? data bit
  if length ≠ 0 then return (symbol, bit + length)
  let (code, bit) ← Bits.read? data bit tables.minLen
  search? tables data maxCodeLen tables.minLen (asInt32 code) bit

end Tables

namespace Tables

open Huffman

variable {lengths : List Nat}

private theorem codeCount_le (lengths : List Nat) (length : Nat) :
    codeCount lengths length ≤ lengths.length := List.count_le_length

private theorem codeCount_concat (lengths : List Nat) (length other : Nat) :
    codeCount (lengths ++ [length]) other =
      Function.update (codeCount lengths) length (codeCount lengths length + 1) other := by
  rw [codeCount, List.count_append, List.count_singleton]
  by_cases heq : other = length
  · subst heq
    rw [Function.update_self, beq_self_eq_true, if_pos rfl, codeCount]
  · rw [Function.update_of_ne heq, codeCount, if_neg (by simpa using Ne.symm heq), Nat.add_zero]

private theorem countLengths?_eq (coded : Coded lengths) (few : lengths.length ≤ 258) :
    ∃ counts, countLengths? lengths = some counts ∧
      Holds counts (maxCodeLen + 1) (codeCount lengths) := by
  apply @foldlM_done _ _ _ fun done counts => Holds counts (maxCodeLen + 1) (codeCount done)
  · exact Holds.replicate _ 0
  · intro done length rest hsplit counts hholds
    have hlength : length ≤ maxCodeLen :=
      (coded length (hsplit ▸ List.mem_append_right done List.mem_cons_self)).2
    have hcount : codeCount done length ≤ 258 := by
      have hdone := congrArg List.length hsplit
      rw [List.length_append] at hdone
      have := codeCount_le done length
      omega
    refine ⟨_, hholds.bump (Nat.lt_succ_of_le hlength) (by omega), ?_⟩
    apply (hholds.set (Nat.lt_succ_of_le hlength) _).congr
    intro other _
    exact (codeCount_concat done length other).symm

/-- The codes of the lengths up to this one. -/
structure Filled (lengths : List Nat) (done : Nat) (state : Nat × List Nat) : Prop where
  code : state.1 = firstCode lengths done
  size : state.2.length = maxCodeLen + 1
  codes : ∀ length, 1 ≤ length → length ≤ done → state.2[length]? = some (firstCode lengths length)
  fits : ∀ length ≤ done, firstCode lengths length + codeCount lengths length ≤ 2 ^ length

private theorem Filled.begin (coded : Coded lengths) :
    Filled lengths 0 (0, List.replicate (maxCodeLen + 1) 0) where
  code := rfl
  size := List.length_replicate
  codes := fun length hpos hle => by omega
  fits := fun length hle => by
    obtain rfl := Nat.le_zero.mp hle
    have hzero : codeCount lengths 0 = 0 := by
      rw [codeCount, List.count_eq_zero]
      intro hmem
      exact absurd (coded 0 hmem).1 (by decide)
    rw [hzero]
    exact Nat.zero_le _

private theorem nextCode?_returns {counts : List Nat} {bitOffset length : Nat}
    {state : Nat × List Nat}
    (few : lengths.length ≤ 258) (holds : Holds counts (maxCodeLen + 1) (codeCount lengths))
    (lt : length < maxCodeLen) (filled : Filled lengths length state) :
    Returns (fun next _ => Filled lengths (length + 1) next)
      (nextCode? counts bitOffset state (length + 1))
      (ensure (firstCode lengths (length + 1) + codeCount lengths (length + 1) ≤ 2 ^ (length + 1))
        (decodeError bitOffset .invalidHuffman)) := by
  obtain ⟨code, nextCode⟩ := state
  obtain ⟨hcode, hsize, hcodes, hfits⟩ := filled
  obtain rfl : code = firstCode lengths length := hcode
  have hsize : nextCode.length = maxCodeLen + 1 := hsize
  have hbefore := hfits length (Nat.le_refl _)
  have hcount := codeCount_le lengths (length + 1)
  have hpow : 2 ^ (length + 1) ≤ 2 ^ 20 := Nat.pow_le_pow_right (by decide) lt
  have hdouble : 2 ^ (length + 1) = 2 ^ length * 2 := Nat.pow_succ ..
  have hlength : length < 20 := lt
  have hnext : (firstCode lengths length + codeCount lengths length) * 2 ^ 1 =
      firstCode lengths (length + 1) := by
    rw [firstCode, Nat.shiftLeft_eq]
  have hnextLe : firstCode lengths (length + 1) ≤ 2 ^ (length + 1) := by omega
  rw [nextCode?]
  apply returns_step (sub_of_le (Nat.le_add_left 1 length))
  apply returns_step (holds.index (Nat.lt_succ_of_lt lt))
  apply returns_step (add_of_lt (by omega))
  apply returns_step (shl_of_lt (by decide) (by omega))
  rw [hnext]
  apply returns_step (store_of_lt (by rw [hsize]; exact Nat.succ_lt_succ lt) _)
  apply returns_step (@Holds.index _ _ _ (length + 1) _ holds (Nat.succ_lt_succ lt))
  apply returns_step (add_of_lt (by omega))
  apply returns_step (shl_of_lt (by omega) (by omega))
  rw [Nat.one_mul]
  apply returns_checked
  intro _ hensure
  apply returns_ok
  refine ⟨rfl, by rw [List.length_set, hsize], fun other hpos hle => ?_, fun other hle => ?_⟩
  · rcases Nat.eq_or_lt_of_le hle with rfl | hlt
    · exact List.getElem?_set_self (by rw [hsize]; exact Nat.succ_lt_succ lt)
    · exact (List.getElem?_set_ne (by omega)).trans (hcodes other hpos (by omega))
  · rcases Nat.eq_or_lt_of_le hle with rfl | hlt
    · exact ensure_eq_ok.mp hensure
    · exact hfits other (by omega)

private theorem oversubscribed_eq (lengths : List Nat) (bitOffset : Nat) :
    (List.range' 1 maxCodeLen).foldlM (fun (_ : Unit) length =>
        ensure (firstCode lengths length + codeCount lengths length ≤ 2 ^ length)
          (decodeError bitOffset .invalidHuffman)) () =
      ensure (oversubscribed lengths = false) (decodeError bitOffset .invalidHuffman) := by
  rw [oversubscribed]
  induction List.range' 1 maxCodeLen with
  | nil => rfl
  | cons length rest ih =>
    rw [List.foldlM_cons, List.any_cons]
    by_cases hfits : firstCode lengths length + codeCount lengths length ≤ 2 ^ length
    · rw [ensure_of hfits, decide_eq_false (Nat.not_lt.mpr hfits), Bool.false_or]
      exact ih
    · rw [ensure_of_not hfits, decide_eq_true (Nat.not_le.mp hfits), Bool.true_or,
        ensure_of_not (by decide)]
      rfl

private theorem nextCodes?_returns {counts : List Nat} (bitOffset : Nat) (coded : Coded lengths)
    (few : lengths.length ≤ 258) (holds : Holds counts (maxCodeLen + 1) (codeCount lengths)) :
    Returns (fun next _ => Filled lengths maxCodeLen next) (nextCodes? counts bitOffset)
      (ensure (oversubscribed lengths = false) (decodeError bitOffset .invalidHuffman)) := by
  rw [nextCodes?, ← oversubscribed_eq]
  suffices h : ∀ all : List Nat, all = List.range' 1 maxCodeLen →
      Returns (fun next _ => Filled lengths all.length next)
        (all.foldlM (nextCode? counts bitOffset) (0, List.replicate (maxCodeLen + 1) 0))
        (all.foldlM (fun _ length =>
          ensure (firstCode lengths length + codeCount lengths length ≤ 2 ^ length)
            (decodeError bitOffset .invalidHuffman)) ()) by
    have hloop := h _ rfl
    rw [List.length_range'] at hloop
    exact hloop
  intro all hall
  apply Returns.foldlM (R := fun done next _ => Filled lengths done.length next)
    (Filled.begin coded)
  intro done length rest hsplit state _ hfilled
  obtain ⟨rfl, hlt⟩ := range'_split (hall.symm.trans hsplit)
  rw [List.length_append, List.length_singleton, Nat.add_comm 1]
  exact nextCode?_returns few holds hlt hfilled

private theorem fillLut?_eq {symbols : List (Nat × Nat)} {array : List Nat} {nextCode : Nat → Nat}
    {lut : List (Nat × Nat)} (size : array.length = maxCodeLen + 1)
    (holds : ∀ length, 1 ≤ length → length ≤ maxCodeLen → array[length]? = some (nextCode length))
    (coded : Coded (symbols.map Prod.fst)) (room : ∀ length, 1 ≤ length → length ≤ maxCodeLen →
      nextCode length + codeCount (symbols.map Prod.fst) length ≤ 2 ^ length)
    (full : lut.length = lutSize) :
    fillLut? symbols array lut = some (fillLut symbols nextCode lut) := by
  induction symbols generalizing array nextCode lut with
  | nil => rfl
  | cons entry rest ih =>
    obtain ⟨length, symbol⟩ := entry
    rw [List.map_cons] at coded room
    obtain ⟨hpos, hle⟩ := coded length List.mem_cons_self
    have hcode := holds length hpos hle
    have hroom := room length hpos hle
    have hpow : 2 ^ length ≤ 2 ^ 20 := Nat.pow_le_pow_right (by decide) hle
    rw [codeCount, List.count_cons_self] at hroom
    have hindex : index array length = some (nextCode length) := hcode
    rw [fillLut?, fillLut, bind_of_some hindex, bind_of_some (bump_of_lt hcode (by omega))]
    have hrest (next : List (Nat × Nat)) (hnext : next.length = lutSize) :
        fillLut? rest (array.set length (nextCode length + 1)) next =
          some (fillLut rest (fun other =>
            if other = length then nextCode length + 1 else nextCode other) next) := by
      apply ih
      · rw [List.length_set, size]
      · intro other hpos' hle'
        by_cases heq : other = length
        · subst heq
          rw [if_pos rfl, List.getElem?_set_self (by rw [size]; omega)]
        · rw [if_neg heq, List.getElem?_set_ne (Ne.symm heq), holds other hpos' hle']
      · exact fun other hmem => coded other (List.mem_cons_of_mem _ hmem)
      · intro other hpos' hle'
        have := room other hpos' hle'
        rw [codeCount, List.count_cons] at this
        by_cases heq : other = length
        · subst heq
          rw [beq_self_eq_true, if_pos rfl] at this
          rw [if_pos rfl, codeCount]
          omega
        · rw [if_neg heq, codeCount]
          omega
      · exact hnext
    split
    case isFalse => exact hrest lut full
    case isTrue hshort =>
      have hsplit : 2 ^ lutBits = 2 ^ length * 2 ^ (lutBits - length) := by
        rw [← Nat.pow_add, Nat.add_sub_of_le hshort]
      have hfill : 2 ^ (lutBits - length) ≤ 2 ^ 12 :=
        Nat.pow_le_pow_right (by decide) (Nat.sub_le _ _)
      have hone : 1 ≤ 2 ^ (lutBits - length) := Nat.one_le_two_pow
      have hstop : (nextCode length + 1) * 2 ^ (lutBits - length) ≤ 2 ^ 12 := by
        rw [show (2 : Nat) ^ 12 = 2 ^ lutBits from rfl, hsplit]
        exact Nat.mul_le_mul_right _ (by omega)
      rw [Nat.add_mul, Nat.one_mul] at hstop
      have hroom : lutBits - length < 64 := by rw [lutBits]; omega
      have hone' : 1 * 2 ^ (lutBits - length) < 2 ^ 64 := by omega
      have hmul : nextCode length * 2 ^ (lutBits - length) < 2 ^ 64 := by omega
      have hadd : nextCode length * 2 ^ (lutBits - length) + 2 ^ (lutBits - length) < 2 ^ 64 := by
        omega
      rw [bind_of_some (sub_of_le hshort), bind_of_some (shl_of_lt hroom hone'), Nat.one_mul,
        bind_of_some (mul_of_lt hmul), bind_of_some (add_of_lt hadd),
        bind_of_some (fill_of_le (Nat.le_add_right _ _) (hstop.trans_eq full.symm) _),
        Nat.add_sub_cancel_left]
      exact hrest _ (fillRange_length (by rw [full]; exact hstop) ▸ full)

private theorem fillLut?_length {symbols : List (Nat × Nat)} {nextCode : List Nat}
    {lut filled : List (Nat × Nat)} (h : fillLut? symbols nextCode lut = some filled) :
    filled.length = lut.length := by
  induction symbols generalizing nextCode lut with
  | nil => rw [← Option.some.inj h]
  | cons entry rest ih =>
    obtain ⟨canonical, -, h⟩ := Option.bind_eq_some_iff.mp h
    obtain ⟨next, -, h⟩ := Option.bind_eq_some_iff.mp h
    split at h
    case isTrue =>
      obtain ⟨room, -, h⟩ := Option.bind_eq_some_iff.mp h
      obtain ⟨count, -, h⟩ := Option.bind_eq_some_iff.mp h
      obtain ⟨start, -, h⟩ := Option.bind_eq_some_iff.mp h
      obtain ⟨stop, -, h⟩ := Option.bind_eq_some_iff.mp h
      obtain ⟨one, hfill, h⟩ := Option.bind_eq_some_iff.mp h
      exact (ih h).trans (fill_length hfill)
    case isFalse => exact ih h

private theorem shorterCodes_eq (lengths : List Nat) (length : Nat) :
    shorterCodes lengths length = lengths.countP fun other => decide (other < length) := by
  induction length with
  | zero => exact (List.countP_eq_zero.mpr fun _ _ => by simp).symm
  | succ length ih =>
    rw [shorterCodes, ih, codeCount]
    clear ih
    induction lengths with
    | nil => rfl
    | cons first lengths ih =>
      simp only [List.countP_cons, List.count_cons, ← ih, beq_iff_eq, decide_eq_true_eq]
      rcases Nat.lt_trichotomy first length with hlt | heq | hgt
      · rw [if_pos hlt, if_neg (by omega), if_pos (by omega)]
        omega
      · rw [if_neg (by omega), if_pos heq, if_pos (by omega)]
        omega
      · rw [if_neg (by omega), if_neg (by omega), if_neg (by omega)]
        omega

private theorem shorterCodes_le (lengths : List Nat) (length : Nat) :
    shorterCodes lengths length ≤ lengths.length := by
  rw [shorterCodes_eq]
  exact List.countP_le_length

/-- `base` before it is added up. -/
def countBefore (lengths : List Nat) : Nat → Int
  | 0 => 0
  | length + 1 => codeCount lengths length

private theorem countShorter?_eq {base : List Int} {done : List Nat} {length : Nat}
    (short : length ≤ maxCodeLen) (few : done.length ≤ 258)
    (holds : Holds base (maxCodeLen + 1) (countBefore done)) :
    ∃ next, countShorter? base length = some next ∧
      Holds next (maxCodeLen + 1) (countBefore (done ++ [length])) := by
  have hcount := codeCount_le done length
  rw [countShorter?]
  by_cases hlast : length = maxCodeLen
  · rw [if_pos hlast]
    refine ⟨base, rfl, holds.congr fun other hother => ?_⟩
    cases other with
    | zero => rfl
    | succ other =>
      rw [countBefore, countBefore, codeCount_concat, Function.update_of_ne (by omega)]
  · have hlt : length + 1 < maxCodeLen + 1 := by omega
    have hvalue : int32 (codeCount done length + 1) = some (codeCount done length + 1 : Int) :=
      int32_of (by omega) (by omega)
    rw [if_neg hlast, bind_of_some (holds.index hlt), countBefore, bind_of_some hvalue]
    refine ⟨_, holds.store hlt _, (holds.set hlt _).congr fun other hother => ?_⟩
    cases other with
    | zero => exact Function.update_of_ne (Nat.zero_ne_add_one _) _ _
    | succ other =>
      rw [countBefore, codeCount_concat]
      by_cases heq : other = length
      · subst heq
        rw [Function.update_self, Function.update_self]
        rfl
      · rw [Function.update_of_ne heq, Function.update_of_ne (by omega), countBefore]

/-- `base` when the lengths up to this one are added up. -/
def addedUp (lengths : List Nat) (done length : Nat) : Int :=
  if length ≤ done then shorterCodes lengths length else countBefore lengths length

private theorem addShorter?_eq {base : List Int} {done : Nat} (few : lengths.length ≤ 258)
    (lt : done < maxCodeLen) (holds : Holds base (maxCodeLen + 1) (addedUp lengths done)) :
    ∃ next, addShorter? base (done + 1) = some next ∧
      Holds next (maxCodeLen + 1) (addedUp lengths (done + 1)) := by
  have hshorter := shorterCodes_le lengths done
  have hcount := codeCount_le lengths done
  have hsum : (codeCount lengths done : Int) + shorterCodes lengths done =
      shorterCodes lengths (done + 1) := by
    rw [shorterCodes]
    push_cast
    ring
  have hbefore := @Holds.index _ _ _ done _ holds (by omega)
  have hvalue := @Holds.index _ _ _ (done + 1) _ holds (by omega)
  rw [addedUp, if_pos (Nat.le_refl _)] at hbefore
  rw [addedUp, if_neg (by omega), countBefore] at hvalue
  have hadd : int32 (codeCount lengths done + shorterCodes lengths done) =
      some (codeCount lengths done + shorterCodes lengths done : Int) :=
    int32_of (by omega) (by omega)
  rw [addShorter?, bind_of_some (sub_of_le (Nat.le_add_left 1 done)), Nat.add_sub_cancel,
    bind_of_some hbefore, bind_of_some hvalue, bind_of_some hadd, hsum]
  refine ⟨_, holds.store (by omega) _, (holds.set (by omega) _).congr fun other hother => ?_⟩
  by_cases heq : other = done + 1
  · subst heq
    rw [Function.update_self, addedUp, if_pos (Nat.le_refl _)]
  · rw [Function.update_of_ne heq, addedUp, addedUp]
    by_cases hle : other ≤ done
    · rw [if_pos hle, if_pos (by omega)]
    · rw [if_neg hle, if_neg (by omega)]

private theorem shorterCodes?_eq (coded : Coded lengths) (few : lengths.length ≤ 258) :
    ∃ base, shorterCodes? lengths = some base ∧
      Holds base (maxCodeLen + 1) fun length => (shorterCodes lengths length : Int) := by
  obtain ⟨counted, hcounted, hbefore⟩ : ∃ counted,
      lengths.foldlM countShorter? (List.replicate (maxCodeLen + 1) 0) = some counted ∧
        Holds counted (maxCodeLen + 1) (countBefore lengths) := by
    apply @foldlM_done _ _ _ fun done base => Holds base (maxCodeLen + 1) (countBefore done)
    · apply (Holds.replicate _ 0).congr
      intro length _
      cases length with
      | zero => rfl
      | succ length => rfl
    · intro done length rest hsplit base hholds
      have hlength := congrArg List.length hsplit
      rw [List.length_append] at hlength
      exact countShorter?_eq
        (coded length (hsplit ▸ List.mem_append_right done List.mem_cons_self)).2 (by omega) hholds
  obtain ⟨base, hbase, hadded⟩ : ∃ base,
      (List.range' 1 maxCodeLen).foldlM addShorter? counted = some base ∧
        Holds base (maxCodeLen + 1) (addedUp lengths (List.range' 1 maxCodeLen).length) := by
    apply @foldlM_done _ _ _ fun done base =>
      Holds base (maxCodeLen + 1) (addedUp lengths done.length)
    · apply hbefore.congr
      intro length _
      cases length with
      | zero => rfl
      | succ length => rfl
    · intro done length rest hsplit base hholds
      obtain ⟨rfl, hlt⟩ := range'_split hsplit
      rw [List.length_append, List.length_singleton, Nat.add_comm 1]
      exact addShorter?_eq few hlt hholds
  refine ⟨base, ?_, hadded.congr fun length hlength => ?_⟩
  · rw [shorterCodes?, hcounted]
    exact hbase
  · rw [List.length_range', addedUp, if_pos (Nat.le_of_lt_succ hlength)]

/-- `value` and `limit` when this many lengths are done. -/
structure Limited (lengths : List Nat) (minLen done : Nat) (state : Int × List Int) : Prop where
  value : state.1 = if done = 0 then 0 else 2 * codeLimit.value lengths minLen (done - 1)
  limit : Holds state.2 (maxCodeLen + 1) fun length =>
    if minLen ≤ length ∧ length < minLen + done then
      codeLimit.value lengths minLen (length - minLen) - 1 else 0

section Built

variable {huffman : Huffman}

private theorem value_bounds (built : huffman.IsBuilt lengths) {done : Nat}
    (le : huffman.minLen + done ≤ maxCodeLen) :
    0 ≤ codeLimit.value lengths huffman.minLen done ∧
      codeLimit.value lengths huffman.minLen done ≤ 2 ^ 20 := by
  have hfilled := CanonicalCode.filled_le_of_le le built.fits
  have hpow : 2 ^ (huffman.minLen + done) ≤ 2 ^ 20 := Nat.pow_le_pow_right (by decide) le
  rw [built.value_eq]
  omega

private theorem limit?_eq {counts : List Nat} {state : Int × List Int} {done : Nat}
    (built : huffman.IsBuilt lengths) (holds : Holds counts (maxCodeLen + 1) (codeCount lengths))
    (le : huffman.minLen + done ≤ maxCodeLen)
    (limited : Limited lengths huffman.minLen done state) :
    ∃ next, limit? counts state (huffman.minLen + done) = some next ∧
      Limited lengths huffman.minLen (done + 1) next := by
  obtain ⟨value, limit⟩ := state
  obtain ⟨hvalue, hlimit⟩ := limited
  have hvalue : value = if done = 0 then 0 else
    2 * codeLimit.value lengths huffman.minLen (done - 1) := hvalue
  have hlt : huffman.minLen + done < maxCodeLen + 1 := Nat.lt_succ_of_le le
  have hsum : value + codeCount lengths (huffman.minLen + done) =
      codeLimit.value lengths huffman.minLen done := by
    rw [hvalue]
    cases done with
    | zero => rw [if_pos rfl, codeLimit.value, Int.zero_add, Nat.add_zero]
    | succ done => rw [if_neg (Nat.succ_ne_zero done), codeLimit.value]; rfl
  obtain ⟨hlo, hhi⟩ := value_bounds built le
  have hadd := @int32_of (value + codeCount lengths (huffman.minLen + done)) (by omega) (by omega)
  have hlast := @int32_of (codeLimit.value lengths huffman.minLen done - 1) (by omega) (by omega)
  have hdouble : double32 (codeLimit.value lengths huffman.minLen done) =
      2 * codeLimit.value lengths huffman.minLen done := by
    rw [double32_of (by omega) (by omega), Int.mul_comm]
  rw [limit?, bind_of_some (holds.index hlt), bind_of_some hadd, hsum, bind_of_some hlast,
    bind_of_some (hlimit.store hlt _), hdouble]
  refine ⟨_, rfl, ?_, (hlimit.set hlt _).congr fun length _ => ?_⟩
  · rw [if_neg (Nat.succ_ne_zero done)]
    rfl
  · by_cases heq : length = huffman.minLen + done
    · subst heq
      rw [Function.update_self, if_pos (by omega), Nat.add_sub_cancel_left]
    · rw [Function.update_of_ne heq]
      by_cases hbetween : huffman.minLen ≤ length ∧ length < huffman.minLen + done
      · rw [if_pos hbetween, if_pos (by omega)]
      · rw [if_neg hbetween, if_neg (by omega)]

private theorem limits?_eq {counts : List Nat} (built : huffman.IsBuilt lengths)
    (holds : Holds counts (maxCodeLen + 1) (codeCount lengths)) :
    ∃ state, limits? counts huffman.minLen huffman.maxLen = some state ∧
      Holds state.2 (maxCodeLen + 1) huffman.limit := by
  obtain ⟨hle, hmax⟩ := built.minLen_le
  obtain ⟨state, hstate, hlimited⟩ : ∃ state,
      limits? counts huffman.minLen huffman.maxLen = some state ∧
        Limited lengths huffman.minLen
          (List.range' huffman.minLen (huffman.maxLen + 1 - huffman.minLen)).length state := by
    apply @foldlM_done _ _ _ fun done state => Limited lengths huffman.minLen done.length state
    · refine ⟨rfl, (Holds.replicate _ 0).congr fun length _ => (if_neg ?_).symm⟩
      rw [List.length_nil]
      omega
    · intro done length rest hsplit state hlimited
      obtain ⟨rfl, hlt⟩ := range'_split hsplit
      rw [List.length_append, List.length_singleton]
      exact limit?_eq built holds (by omega) hlimited
  refine ⟨state, hstate, hlimited.limit.congr fun length _ => ?_⟩
  rw [List.length_range', built.limit, codeLimit]
  by_cases hbetween : huffman.minLen ≤ length ∧ length ≤ huffman.maxLen
  · rw [if_pos hbetween, if_pos (by omega)]
  · rw [if_neg hbetween, if_neg (by omega)]

/-- `base` when this many lengths behind the first are done. -/
def basedUp (huffman : Huffman) (lengths : List Nat) (done length : Nat) : Int :=
  if huffman.minLen < length ∧ length ≤ huffman.minLen + done then huffman.base length
  else shorterCodes lengths length

private theorem base?_eq {limit base : List Int} {done : Nat} (built : huffman.IsBuilt lengths)
    (few : lengths.length ≤ 258) (limits : Holds limit (maxCodeLen + 1) huffman.limit)
    (lt : huffman.minLen + done < huffman.maxLen)
    (holds : Holds base (maxCodeLen + 1) (basedUp huffman lengths done)) :
    ∃ next, base? limit base (huffman.minLen + 1 + done) = some next ∧
      Holds next (maxCodeLen + 1) (basedUp huffman lengths (done + 1)) := by
  have hmax := built.minLen_le.2
  have hshorter := shorterCodes_le lengths (huffman.minLen + 1 + done)
  have hlast := @Holds.index _ _ _ (huffman.minLen + done) _ limits (by omega)
  have hvalue := @Holds.index _ _ _ (huffman.minLen + 1 + done) _ holds (by omega)
  rw [basedUp, if_neg (by omega)] at hvalue
  have hlimit := built.limit_eq (Nat.le_add_right huffman.minLen done) (Nat.le_of_lt lt)
  have hfilled := CanonicalCode.filled_le_of_le
    (show huffman.minLen + done ≤ maxCodeLen by omega) built.fits
  have hpow : 2 ^ (huffman.minLen + done) ≤ 2 ^ 20 :=
    Nat.pow_le_pow_right (by decide) (show huffman.minLen + done ≤ 20 by rw [maxCodeLen] at hmax; omega)
  have hnext := @int32_of (huffman.limit (huffman.minLen + done) + 1) (by omega) (by omega)
  have hdouble : double32 (huffman.limit (huffman.minLen + done) + 1) =
      2 * (huffman.limit (huffman.minLen + done) + 1) := by
    rw [double32_of (by omega) (by omega), Int.mul_comm]
  have hresult : 2 * (huffman.limit (huffman.minLen + done) + 1) -
      shorterCodes lengths (huffman.minLen + 1 + done) =
        huffman.base (huffman.minLen + 1 + done) := by
    rw [built.base, codeBase, if_pos (by omega), built.limit,
      show huffman.minLen + 1 + done - 1 = huffman.minLen + done by omega]
  have hsub := @int32_of (2 * (huffman.limit (huffman.minLen + done) + 1) -
    shorterCodes lengths (huffman.minLen + 1 + done)) (by omega) (by omega)
  rw [base?, bind_of_some (sub_of_le (by omega)),
    show huffman.minLen + 1 + done - 1 = huffman.minLen + done by omega, bind_of_some hlast,
    bind_of_some hnext, bind_of_some hvalue, hdouble, bind_of_some hsub, hresult]
  refine ⟨_, holds.store (by omega) _, (holds.set (by omega) _).congr fun length _ => ?_⟩
  by_cases heq : length = huffman.minLen + 1 + done
  · subst heq
    rw [Function.update_self, basedUp, if_pos (by omega)]
  · rw [Function.update_of_ne heq, basedUp, basedUp]
    by_cases hbetween : huffman.minLen < length ∧ length ≤ huffman.minLen + done
    · rw [if_pos hbetween, if_pos (by omega)]
    · rw [if_neg hbetween, if_neg (by omega)]

private theorem bases?_eq {limit shorter : List Int} (built : huffman.IsBuilt lengths)
    (few : lengths.length ≤ 258) (limits : Holds limit (maxCodeLen + 1) huffman.limit)
    (holds : Holds shorter (maxCodeLen + 1) fun length => (shorterCodes lengths length : Int)) :
    ∃ base, bases? limit shorter huffman.minLen huffman.maxLen = some base ∧
      Holds base (maxCodeLen + 1) huffman.base := by
  have hle := built.minLen_le.1
  obtain ⟨base, hbase, hbased⟩ : ∃ base,
      bases? limit shorter huffman.minLen huffman.maxLen = some base ∧
        Holds base (maxCodeLen + 1) (basedUp huffman lengths
          (List.range' (huffman.minLen + 1) (huffman.maxLen - huffman.minLen)).length) := by
    apply @foldlM_done _ _ _ fun done base =>
      Holds base (maxCodeLen + 1) (basedUp huffman lengths done.length)
    · apply holds.congr
      intro length _
      rw [basedUp, List.length_nil, if_neg (by omega)]
    · intro done length rest hsplit base hholds
      obtain ⟨rfl, hlt⟩ := range'_split hsplit
      rw [List.length_append, List.length_singleton]
      exact base?_eq built few limits (by omega) hholds
  refine ⟨base, hbase, hbased.congr fun length _ => ?_⟩
  rw [List.length_range', basedUp]
  by_cases hbetween : huffman.minLen < length ∧ length ≤ huffman.maxLen
  · rw [if_pos (by omega)]
  · rw [if_neg (by omega), built.base, codeBase, if_neg hbetween]

/-- The arrays hold what the tables of these lengths stand for. -/
structure Represents (tables : Tables) (huffman : Huffman) (lengths : List Nat) : Prop where
  built : huffman.IsBuilt lengths
  few : lengths.length ≤ 258
  minLen : tables.minLen = huffman.minLen
  maxLen : tables.maxLen = huffman.maxLen
  limit : Holds tables.limit (maxCodeLen + 1) huffman.limit
  base : Holds tables.base (maxCodeLen + 1) huffman.base
  symbols : tables.symbols = huffman.symbols
  lut : tables.lut = huffman.lut
  lut_size : tables.lut.length = lutSize

theorem build?_returns (few : lengths.length ≤ 258) (bitOffset : Nat) :
    Returns (fun tables huffman => tables.Represents huffman lengths) (build? lengths bitOffset)
      (build lengths bitOffset) := by
  cases hbuild : build lengths bitOffset with
  | ok huffman =>
    have hbuilt := build_eq_ok hbuild
    have hchecked : (.ok huffman : Result Huffman) =
        ensure (oversubscribed lengths = false) (decodeError bitOffset .invalidHuffman) >>=
          fun _ => .ok huffman := by
      rw [ensure_of (hbuilt.coded.oversubscribed.mpr hbuilt.fits)]
      rfl
    have hrange : ¬ (huffman.minLen = 0 ∨ huffman.maxLen > maxCodeLen) := by
      have := huffman.minLen_pos
      have := hbuilt.minLen_le.2
      omega
    obtain ⟨counts, hcounts, hholds⟩ := countLengths?_eq hbuilt.coded few
    rw [build?, hbuilt.minLen, hbuilt.maxLen, hchecked]
    dsimp only
    rw [if_neg hrange]
    apply returns_step hcounts
    apply (nextCodes?_returns bitOffset hbuilt.coded few hholds).bind
    rintro ⟨code, nextCode⟩ _ _ hfilled
    have hlut := @fillLut?_eq lengths.zipIdx nextCode (firstCode lengths)
      (List.replicate lutSize (0, 0)) hfilled.size hfilled.codes
      (by rw [List.zipIdx_map_fst]; exact hbuilt.coded)
      (fun length _ hle => by rw [List.zipIdx_map_fst]; exact hfilled.fits length hle)
      List.length_replicate
    apply returns_step hlut
    obtain ⟨shorter, hshorter, hcounted⟩ := shorterCodes?_eq hbuilt.coded few
    apply returns_step hshorter
    obtain ⟨⟨value, limit⟩, hlimits, hlimit⟩ := limits?_eq hbuilt hholds
    apply returns_step hlimits
    obtain ⟨base, hbases, hbase⟩ := bases?_eq hbuilt few hlimit hcounted
    apply returns_step hbases
    exact returns_ok ⟨hbuilt, few, rfl, rfl, hlimit, hbase, hbuilt.symbols.symm,
      hbuilt.lut.symm, (fillLut?_length hlut).trans List.length_replicate⟩
  | error e =>
    rw [build] at hbuild
    rw [build?]
    cases hmin : lengths.min? with
    | none =>
      rw [hmin] at hbuild
      rw [← Except.error.inj hbuild]
      exact returns_error _
    | some minLen =>
      cases hmax : lengths.max? with
      | none =>
        rw [hmin, hmax] at hbuild
        rw [← Except.error.inj hbuild]
        exact returns_error _
      | some maxLen =>
        rw [hmin, hmax] at hbuild
        dsimp only at hbuild ⊢
        split at hbuild
        case isTrue hrange =>
          rw [if_pos hrange, ← Except.error.inj hbuild]
          exact returns_error _
        case isFalse hrange =>
          split at hbuild
          case isTrue hover =>
            have hcoded : Coded lengths := fun length hmem =>
              ⟨(min?_pos_iff hmin).mp (by omega) length hmem,
                (max?_le_iff hmax).mp (by omega) length hmem⟩
            obtain ⟨counts, hcounts, hholds⟩ := countLengths?_eq hcoded few
            have hcodes := nextCodes?_returns bitOffset hcoded few hholds
            rw [ensure_of_not (by rw [hover]; decide), Except.error.inj hbuild] at hcodes
            rw [if_neg hrange]
            apply returns_step hcounts
            apply hcodes.bind (g := fun _ => .error e)
            intro _ _ hnone
            cases hnone
          case isFalse => cases hbuild

namespace Represents

variable {tables : Tables} {data : List UInt8} {bit : Nat}

private theorem longer_lt {code next length : Nat} (lt : code < 2 ^ length) (bit : next < 2) :
    code * 2 + next < 2 ^ (length + 1) := by
  rw [Nat.pow_succ]
  omega

private theorem search?_returns (h : tables.Represents huffman lengths)
    {fuel more length code : Nat}
    (enough : more < fuel) (lo : huffman.minLen ≤ length) (left : length + more = huffman.maxLen)
    (lt : code < 2 ^ length) :
    Returns Eq (search? tables data fuel length code bit)
      (search huffman data more length code bit) := by
  have hmax := h.built.minLen_le.2
  induction fuel generalizing more length code bit with
  | zero => exact absurd enough (Nat.not_lt_zero _)
  | succ fuel ih =>
    have hlength : length < maxCodeLen + 1 := by omega
    have hpow : 2 ^ length ≤ 2 ^ 20 :=
      Nat.pow_le_pow_right (by decide) (show length ≤ 20 by rw [maxCodeLen] at hlength; omega)
    unfold search
    rw [search?]
    apply returns_step (h.limit.index hlength)
    split
    case isTrue =>
      apply returns_step (h.base.index hlength)
      have hbase := h.built.base_eq lo (by omega)
      have hfirst := CanonicalCode.filled_le_of_le (show length ≤ maxCodeLen by omega) h.built.fits
      rw [CanonicalCode.filled] at hfirst
      have hshorter := shorterCodes_le lengths length
      have hfew := h.few
      apply returns_step (int32_of (by omega) (by omega))
      rw [h.symbols, ← symbolAt]
      cases huffman.symbolAt (code - huffman.base length) with
      | some symbol => exact returns_ok rfl
      | none => exact returns_error _
    case isFalse =>
      cases more with
      | zero =>
        rw [if_pos (by rw [h.maxLen]; exact left)]
        exact returns_error _
      | succ more =>
        rw [if_neg (by rw [h.maxLen]; omega)]
        have hadd : length + 1 < 2 ^ 8 := by rw [maxCodeLen] at hlength; omega
        apply returns_step (add_of_lt hadd)
        apply (Bits.read?_returns (by decide)).bind
        rintro _ ⟨next, bit'⟩ hread rfl
        have hnext : next < 2 := Bits.read_lt (by decide) (by decide) hread
        have hcode : or32 (double32 code) (asInt32 next) = (code * 2 + next : Nat) := by
          rw [double32_of (by omega) (by omega), asInt32_of (by omega),
            or32_of hnext (by omega)]
        dsimp only
        rw [hcode]
        have hsearch := @ih bit' more (length + 1) (code * 2 + next) (by omega) (by omega)
          (by omega) (longer_lt lt hnext)
        push_cast at hsearch ⊢
        exact hsearch

private theorem lookup?_returns (h : tables.Represents huffman lengths) :
    Returns Eq (lookup? tables data bit) (lookup huffman data bit) := by
  rw [lookup?, lookup]
  split
  case isTrue hremaining =>
    apply (Bits.peek?_returns (by decide) (by decide)).bind
    rintro place _ hpeek rfl
    have hplace : place < tables.lut.length := by
      rw [Bits.peek_eq (by decide) (by decide), if_pos hremaining] at hpeek
      rw [← Except.ok.inj hpeek, h.lut_size, lutSize]
      exact highFirst_lt (streamBit data) bit lutBits
    obtain ⟨entry, hentry⟩ : ∃ entry, tables.lut[place]? = some entry :=
      ⟨_, List.getElem?_eq_getElem hplace⟩
    rw [← h.lut, List.getD_eq_getElem?_getD, hentry]
    exact returns_lift hentry rfl
  case isFalse => exact returns_ok rfl

theorem decode?_returns (h : tables.Represents huffman lengths) :
    Returns Eq (decode? tables data bit) (decode huffman data bit) := by
  apply h.lookup?_returns.bind
  rintro _ ⟨length, symbol⟩ _ rfl
  dsimp only
  split
  case isTrue => exact returns_ok rfl
  case isFalse =>
    obtain ⟨hle, hmax⟩ := h.built.minLen_le
    have hmin := huffman.minLen_pos
    have hpow : 2 ^ huffman.minLen ≤ 2 ^ 20 := Nat.pow_le_pow_right (by decide) (hle.trans hmax)
    have hshort : huffman.minLen ≤ 32 := by rw [maxCodeLen] at hmax; omega
    rw [h.minLen]
    apply (Bits.read?_returns hshort).bind
    rintro _ ⟨code, next⟩ hread rfl
    have hcode := Bits.read_lt hmin hshort hread
    dsimp only
    rw [asInt32_of (by omega)]
    exact h.search?_returns (by omega) (Nat.le_refl _) (by omega) hcode

end Represents

end Built

end Tables

end Fbz.Bzip2
