import Fbz.Deflate.Segment

/-!
# Finding block boundaries

Workers start in the middle of the data. They look for the first bit at which a dynamic block could
begin and decode from there, and go on looking when that fails.
-/

namespace Fbz.Deflate

def precodeBits : Nat := 4 + 19 * 3

/-- What the code-length code leaves over, unless it takes too much. -/
def remainingCodes : List Nat → Int → Option Int
  | [], remaining => some remaining
  | count :: counts, remaining =>
    if remaining * 2 - count < 0 then none else remainingCodes counts (remaining * 2 - count)

/-- The bits from the code-length count on. -/
def precodeWord (data : List UInt8) (precodeBit : Nat) : Nat :=
  let byte := precodeBit / 8
  let shift := precodeBit % 8
  let low := wordAt data byte
  if shift = 0 then low
  else low >>> shift ||| (data.getD (byte + 8) 0).toNat <<< (64 - shift) % 2 ^ 64

def validPrecodeShape (data : List UInt8) (blockBit : Nat) : Bool :=
  let precodeBit := blockBit + 13
  if precodeBit + precodeBits > data.length * 8 then false
  else
    let bits := precodeWord data precodeBit
    let lengths := ((List.range (4 + bits % 2 ^ 4)).map fun index => bits >>> 4 >>> (index * 3) % 2 ^ 3)
      |>.filter (· ≠ 0)
    if lengths.isEmpty then false
    else
      match remainingCodes ((List.range 7).map fun i => lengths.count (i + 1)) 1 with
      | none => false
      | some remaining => remaining = 0 || lengths.length = 1

/-- Only bits at which a block that is not final and dynamic could start are looked at. -/
def looksDynamic (data : List UInt8) (startBit endBit bit : Nat) : Bool :=
  let headerWindow := (data.getD (bit / 8) 0).toNat ||| (data.getD (bit / 8 + 1) 0).toNat <<< 8
  decide (startBit ≤ bit) && decide (bit + 13 < endBit) &&
    decide (headerWindow >>> (bit % 8) % 2 ^ 3 = 0b100)

/-- The counts in the header are in range and the code-length code is one. -/
def validHeader (data : List UInt8) (bit : Nat) : Result Bool := do
  let bit' ← Bits.start data (bit + 3)
  let (literals, bit') ← Bits.read data bit' 5
  if literals > 29 then return false
  let (distances, _) ← Bits.read data bit' 5
  return decide (distances ≤ 29) && validPrecodeShape data bit

/-- The loop over the bits; a header that cannot be read ends the search. -/
def findBoundary (data : List UInt8) (startBit endBit : Nat) : List Nat → Option Nat
  | [] => none
  | bit :: bits =>
    if looksDynamic data startBit endBit bit then
      match validHeader data bit with
      | .error _ => none
      | .ok false => findBoundary data startBit endBit bits
      | .ok true =>
        if (dynamicTables data (bit + 3)).toOption.isSome then some bit
        else findBoundary data startBit endBit bits
    else findBoundary data startBit endBit bits

def findDynamicBoundary (data : List UInt8) (startBit endBit : Nat) : Option Nat :=
  let stop := min endBit (data.length * 8)
  let firstByte := startBit / 8
  let lastByte := min ((stop + 7) / 8) data.length
  findBoundary data startBit stop (List.range' (firstByte * 8) ((lastByte - firstByte) * 8))

private theorem findBoundary_some {data : List UInt8} {startBit endBit bit : Nat} {bits : List Nat}
    (h : findBoundary data startBit endBit bits = some bit) : startBit ≤ bit ∧ bit + 13 < endBit := by
  induction bits with
  | nil => cases h
  | cons other bits ih =>
    rw [findBoundary] at h
    split at h
    · rename_i hlooks
      split at h
      · cases h
      · exact ih h
      · split at h
        · obtain rfl := Option.some.inj h
          simp only [looksDynamic, Bool.and_eq_true, decide_eq_true_eq] at hlooks
          exact hlooks.1
        · exact ih h
    · exact ih h

theorem findDynamicBoundary_some {data : List UInt8} {startBit endBit bit : Nat}
    (h : findDynamicBoundary data startBit endBit = some bit) :
    startBit ≤ bit ∧ bit + 13 < endBit := by
  have := findBoundary_some h
  omega

structure GzipJob where
  searchStart : Nat
  searchEnd : Nat
  stopBit : Nat
  outputLimit : Nat

variable (crc : Crc32)

/-- The loop of `run_gzip_job` from `search` on. -/
def searchSegment (data : List UInt8) (job : GzipJob) (search : Nat) : Result (Segment crc) :=
  match _h : findDynamicBoundary data search job.searchEnd with
  | none => .error (invalidBit job.searchStart
      "no decodable dynamic DEFLATE boundary found near the parallel grid point")
  | some start =>
    match decodeSegment crc data start job.stopBit .unknown job.outputLimit with
    | .ok segment => .ok segment
    | .error _ => searchSegment data job (start + 1)
termination_by job.searchEnd - search
decreasing_by
  have := findDynamicBoundary_some _h
  omega

def runGzipJob (data : List UInt8) (job : GzipJob) : Result (Segment crc) :=
  searchSegment crc data job job.searchStart

variable {crc}

theorem searchSegment_eq (data : List UInt8) (job : GzipJob) (search : Nat) :
    searchSegment crc data job search =
      match findDynamicBoundary data search job.searchEnd with
      | none => .error (invalidBit job.searchStart
          "no decodable dynamic DEFLATE boundary found near the parallel grid point")
      | some start =>
        match decodeSegment crc data start job.stopBit .unknown job.outputLimit with
        | .ok segment => .ok segment
        | .error _ => searchSegment crc data job (start + 1) := by
  rw [searchSegment]
  split <;> simp only [*]

/-- What a job finds is a segment decoded from where it says it starts. -/
theorem runGzipJob_ok {data : List UInt8} {job : GzipJob} {segment : Segment crc}
    (h : runGzipJob crc data job = .ok segment) :
    decodeSegment crc data segment.startBit job.stopBit .unknown job.outputLimit = .ok segment := by
  unfold runGzipJob at h
  generalize job.searchStart = search at h
  induction search using searchSegment.induct crc data job with
  | case1 search hnone =>
    rw [searchSegment_eq, hnone] at h
    cases h
  | case2 search start hstart found hsegment =>
    rw [searchSegment_eq, hstart] at h
    simp only [hsegment] at h
    obtain rfl := Except.ok.inj h
    rwa [(decodeSegment_until hsegment).1]
  | case3 search start hstart error hsegment ih =>
    rw [searchSegment_eq, hstart] at h
    simp only [hsegment] at h
    exact ih h

end Fbz.Deflate
