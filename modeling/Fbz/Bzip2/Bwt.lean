import Fbz.Lib.Checked

/-!
# Burrows-Wheeler transform of the encoder

Rotations of a block are sorted as suffixes of the block written twice, with a sentinel behind it.
The suffix array is built by induced sorting, which calls itself on the string of the names of the
LMS substrings. A panic, such as an index out of range or a failed assertion, is `none`.
-/

namespace Fbz.Bzip2.Bwt

open Checked

/-- `EMPTY`, in a place of the suffix array that is not filled yet. -/
def vacant : Nat := 2 ^ 32 - 1

/-- Whether the suffix at each position is smaller than the next one. -/
def classify : List Nat → List Bool
  | [] => []
  | [_] => [true]
  | value :: next :: rest =>
    let types := classify (next :: rest)
    (if value < next then true else if next < value then false else types.headD true) :: types

def isLms (types : List Bool) (i : Nat) : Option Bool :=
  if i = 0 then some false
  else do
    let small ← types[i]?
    if small then (types[i - 1]?).map (!·) else some false

def count (counts : List Nat) (c : Nat) : Option (List Nat) := do
  let n ← counts[c]?
  store counts c (n + 1)

def counts (s : List Nat) (k : Nat) : Option (List Nat) := s.foldlM count (List.replicate k 0)

def bucketStartsFrom (sum : Nat) : List Nat → List Nat
  | [] => []
  | count :: rest => sum :: bucketStartsFrom (sum + count) rest

def bucketStarts (counts : List Nat) : List Nat := bucketStartsFrom 0 counts

def bucketEndsFrom (sum : Nat) : List Nat → List Nat
  | [] => []
  | count :: rest => (sum + count) :: bucketEndsFrom (sum + count) rest

def bucketEnds (counts : List Nat) : List Nat := bucketEndsFrom 0 counts

/-- Buckets, each with its next free place, and the suffix array. -/
structure Slots where
  bucket : List Nat
  sa : List Nat

/-- The position takes the first free place of its bucket. -/
def Slots.pushFront (slots : Slots) (s : List Nat) (p : Nat) : Option Slots := do
  let c ← s[p]?
  let place ← slots.bucket[c]?
  let sa ← store slots.sa place p
  some ⟨slots.bucket.set c (place + 1), sa⟩

/-- The position takes the last free place of its bucket. -/
def Slots.pushBack (slots : Slots) (s : List Nat) (p : Nat) : Option Slots := do
  let c ← s[p]?
  let stop ← slots.bucket[c]?
  if stop = 0 then none
  else
    let sa ← store slots.sa (stop - 1) p
    some ⟨slots.bucket.set c (stop - 1), sa⟩

/-- One place of the pass for suffixes larger than the next one. -/
def induceLarge (s : List Nat) (types : List Bool) (slots : Slots) (i : Nat) : Option Slots := do
  let p ← slots.sa[i]?
  if p ≠ vacant ∧ 0 < p then
    let small ← types[p - 1]?
    if small then some slots else slots.pushFront s (p - 1)
  else some slots

/-- One place of the pass for suffixes smaller than the next one. -/
def induceSmall (s : List Nat) (types : List Bool) (slots : Slots) (i : Nat) : Option Slots := do
  let p ← slots.sa[i]?
  if p ≠ vacant ∧ 0 < p then
    let small ← types[p - 1]?
    if small then slots.pushBack s (p - 1) else some slots
  else some slots

/-- Induced sorting: left to right, then right to left. -/
def induce (s sa : List Nat) (types : List Bool) (counts : List Nat) : Option (List Nat) := do
  let places := List.range s.length
  let large ← places.foldlM (induceLarge s types) ⟨bucketStarts counts, sa⟩
  let small ← places.reverse.foldlM (induceSmall s types) ⟨bucketEnds counts, large.sa⟩
  some small.sa

/-- Both substrings from `d` characters on; each ends with the next LMS position. -/
def lmsSubstrEqFrom (s : List Nat) (types : List Bool) (p q d : Nat) : Option Bool :=
  if _h : s.length ≤ p + d ∨ s.length ≤ q + d then some false
  else do
    let pLms ← if d = 0 then some false else isLms types (p + d)
    let qLms ← if d = 0 then some false else isLms types (q + d)
    if pLms && qLms then some true
    else if pLms != qLms then some false
    else
      let pType ← types[p + d]?
      let qType ← types[q + d]?
      if s[p + d]? ≠ s[q + d]? ∨ pType ≠ qType then some false
      else lmsSubstrEqFrom s types p q (d + 1)
termination_by s.length - (p + d)

def lmsSubstrEq (s : List Nat) (types : List Bool) (p q : Nat) : Option Bool :=
  if p = s.length - 1 ∨ q = s.length - 1 then some (decide (p = q))
  else lmsSubstrEqFrom s types p q 0

/-- Names given so far: one for each position, how many, and the last position with a new one. -/
structure Names where
  names : List Nat
  name : Nat := 0
  prev : Option Nat := none

def Names.add (s : List Nat) (types : List Bool) (n : Names) (p : Nat) : Option Names := do
  let fresh ←
    match n.prev with
    | none => some true
    | some q => (lmsSubstrEq s types p q).map (!·)
  let name := if fresh then n.name + 1 else n.name
  if name = 0 then none
  else
    let names ← store n.names (p / 2) (name - 1)
    some ⟨names, name, if fresh then some p else n.prev⟩

/-- The LMS positions in the order of the string. -/
def lmsPositions (types : List Bool) : Option (List Nat) :=
  keep (isLms types) (List.range' 1 (types.length - 1))

/-- One position of the loop that seeds the LMS suffixes in the order of the string. -/
def seedPosition (s : List Nat) (types : List Bool) (slots : Slots) (i : Nat) : Option Slots := do
  let lms ← isLms types i
  if lms then slots.pushBack s i else some slots

/-- One row of the loop that seeds the LMS suffixes in their own order. -/
def seedRow (s positions order : List Nat) (slots : Slots) (i : Nat) : Option Slots := do
  let row ← order[i]?
  let p ← positions[row]?
  slots.pushBack s p

/-- What the recursion sorts: the names of the LMS positions, and how many names there are. -/
structure Reduced where
  positions : List Nat
  names : List Nat
  name : Nat

/-- The first pass, which sorts the LMS substrings, and their names. -/
def reduce (s : List Nat) (types : List Bool) (counts : List Nat) : Option Reduced := do
  let slots ← (List.range' 1 (s.length - 1)).reverse.foldlM (seedPosition s types)
    ⟨bucketEnds counts, List.replicate s.length vacant⟩
  let sa ← induce s slots.sa types counts
  let sorted ← keep (fun p => if p ≠ vacant ∧ 0 < p then isLms types p else some false) sa
  let names ← sorted.foldlM (Names.add s types) ⟨List.replicate (s.length / 2 + 1) vacant, 0, none⟩
  let positions ← lmsPositions types
  if positions.length ≠ sorted.length then none
  else
    let reduced ← positions.mapM fun p => names.names[p / 2]?
    some ⟨positions, reduced, names.name⟩

/-- The order of a string of names that are all distinct. -/
def invert (names : List Nat) : Option (List Nat) :=
  names.zipIdx.foldlM (fun order entry => store order entry.1 entry.2)
    (List.replicate names.length 0)

/-- The second pass: the LMS suffixes in their order, and the rest induced. -/
def sortFrom (s : List Nat) (types : List Bool) (counts positions order : List Nat) :
    Option (List Nat) := do
  let slots ← (List.range positions.length).reverse.foldlM (seedRow s positions order)
    ⟨bucketEnds counts, List.replicate s.length vacant⟩
  induce s slots.sa types counts

theorem classify_length (s : List Nat) : (classify s).length = s.length := by
  induction s using classify.induct with
  | case1 => rfl
  | case2 value => rfl
  | case3 value next rest ih =>
    rw [classify, List.length_cons, ih]
    rfl

private theorem reduce_length {s : List Nat} {types : List Bool} {counts : List Nat} {r : Reduced}
    (h : reduce s types counts = some r) : r.names.length ≤ types.length - 1 := by
  simp only [reduce, Option.bind_eq_bind, Option.bind_eq_some_iff] at h
  obtain ⟨slots, -, sa, -, sorted, -, names, -, positions, hpositions, h⟩ := h
  split at h
  · cases h
  · obtain ⟨reduced, hreduced, h⟩ := Option.bind_eq_some_iff.mp h
    obtain rfl := Option.some.inj h
    have := keep_length_le hpositions
    rw [List.length_range'] at this
    rwa [mapM_length hreduced]

/-- Suffix array of a string over `k` values that ends with a single zero. -/
def sais (s : List Nat) (k : Nat) : Option (List Nat) :=
  if s.length = 1 then some [0]
  else if _h : s.length = 0 then none
  else do
    let counts ← counts s k
    match _hr : reduce s (classify s) counts with
    | none => none
    | some r =>
      let order ← if r.name < r.positions.length then sais r.names r.name else invert r.names
      sortFrom s (classify s) counts r.positions order
termination_by s.length
decreasing_by
  have := reduce_length _hr
  rw [classify_length] at this
  omega

/-- The last column so far and the row of the block itself. -/
def addRow (block : List UInt8) (rows : List UInt8 × Nat) (p : Nat) : Option (List UInt8 × Nat) :=
  let n := block.length
  if n ≤ p then some rows
  else do
    let byte ← block[(p + n - 1) % n]?
    some (rows.1 ++ [byte], if p = 0 then rows.1.length else rows.2)

/-- Last column and origin of a block. -/
def transform (block : List UInt8) : Option (List UInt8 × Nat) :=
  if block.length = 0 then none
  else if block.length = 1 then some (block, 0)
  else do
    let shifted := block.map fun byte => byte.toNat + 1
    let sa ← sais (shifted ++ shifted ++ [0]) 257
    let rows ← sa.foldlM (addRow block) ([], 0)
    if rows.1.length ≠ block.length then none else some rows

end Fbz.Bzip2.Bwt
