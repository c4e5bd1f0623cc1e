import Fbz.Deflate.Boundary
import Fbz.Deflate.CheckedBlock
import Fbz.Deflate.Resolve

/-!
# Segments, with every index checked

The output of a speculative decoder, its loop over blocks, the search for a boundary and the
resolution of symbols. None of them panics, wherever in whatever data the decoder starts.
-/

namespace Fbz.Deflate

open Checked DeflateOutput Lz Relation

namespace MarkerOutput

/-- `extend_match`, which is only called with a distance inside its buffer. -/
def matchWithin? {α : Type} (output : List α) (distance length : Nat) : Option (List α) :=
  if 1 ≤ distance ∧ distance ≤ output.length then extendMatch? output distance length else none

/-- The part of a copy that lies in the unknown window, and how long it is. -/
def copyWindow? (marked : List Nat) (distance length : Nat) : Option (List Nat × Nat) :=
  if distance > marked.length then do
    let before ← sub distance marked.length
    let fromWindow := min before length
    let first ← sub (windowSize + marked.length) distance
    some (marked ++ (List.range fromWindow).map (fun offset =>
      (windowSize + first + offset) % 2 ^ 16), fromWindow)
  else some (marked, 0)

def copyMarked? (marked : List Nat) (distance length : Nat) : Option (List Nat) := do
  let (marked, copied) ← copyWindow? marked distance length
  if copied < length then
    let left ← sub length copied
    matchWithin? marked distance left
  else some marked

def copyMatch? (m : MarkerOutput) (distance length : Nat) : Program Error MarkerOutput := do
  liftM (m.ensureCapacity length)
  if m.cleanMode then
    liftM (checkDistance distance (min m.clean.length windowSize))
    let clean ← (matchWithin? m.clean distance length : Option (List UInt8))
    return { m with clean }
  else
    let available := match m.history with
      | .empty => min m.marked.length windowSize
      | .unknown => windowSize
    liftM (checkDistance distance available)
    let marked ← (copyMarked? m.marked distance length : Option (List Nat))
    return { m with marked }

def tryClean? (m : MarkerOutput) : Option MarkerOutput :=
  if m.cleanMode ∨ m.marked.length < windowSize then some m
  else do
    let start ← sub m.marked.length windowSize
    let suffix ← range m.marked start m.marked.length
    if suffix.any (· > 255) then some m
    else some { m with clean := suffix.map UInt8.ofNat, cleanStart := windowSize, cleanMode := true }

instance : CheckedOutput MarkerOutput where
  emit? m byte := liftM (m.extendBytes [byte])
  extend? m bytes := liftM (m.extendBytes bytes)
  copy? := copyMatch?

/-- Symbols are bytes or places of the window, within the limit; without a history there are none. -/
structure Valid (limit : Nat) (m : MarkerOutput) : Prop where
  bound : m.limit = limit
  fits : m.len ≤ limit
  symbols : ∀ symbol ∈ m.marked, IsSymbol symbol
  start : m.cleanStart ≤ m.clean.length
  marking : m.cleanMode = false → m.history = .unknown ∧ m.clean = []

variable {m next : MarkerOutput} {limit distance length : Nat}

private theorem valid_new (history : InitialHistory) (limit : Nat) :
    (new history limit).Valid limit where
  bound := rfl
  fits := Nat.zero_le limit
  symbols := nofun
  start := Nat.le_refl 0
  marking := fun hmode => by
    cases history with
    | empty => cases hmode
    | unknown => exact ⟨rfl, rfl⟩

private theorem matchWithin?_eq {α : Type} {output : List α} (pos : 1 ≤ distance)
    (le : distance ≤ output.length) :
    matchWithin? output distance length = some (extendMatch output distance length) := by
  rw [matchWithin?, if_pos ⟨pos, le⟩]
  exact extendMatch?_eq pos le

private theorem copyWindow?_eq {marked : List Nat} (le : distance ≤ windowSize) :
    copyWindow? marked distance length =
      some (if distance > marked.length then marked ++ copyWindow marked distance length else marked,
        if distance > marked.length then min (distance - marked.length) length else 0) := by
  rw [copyWindow?]
  by_cases hfar : distance > marked.length
  · rw [if_pos hfar, if_pos hfar, if_pos hfar, bind_of_some (sub_of_le (Nat.le_of_lt hfar)),
      bind_of_some (sub_of_le (by omega))]
    rfl
  · rw [if_neg hfar, if_neg hfar, if_neg hfar]

private theorem copyMarked?_eq {marked : List Nat} (pos : 1 ≤ distance)
    (le : distance ≤ windowSize) :
    copyMarked? marked distance length = some (copyMarked marked distance length) := by
  have hwithin {buffer : List Nat} {left : Nat} (inside : distance ≤ buffer.length) :
      matchWithin? buffer distance left = some (extendMatch buffer distance left) :=
    matchWithin?_eq pos inside
  rw [copyMarked?, bind_of_some (copyWindow?_eq le), copyMarked]
  by_cases hfar : distance > marked.length
  · simp only [if_pos hfar]
    by_cases hmore : min (distance - marked.length) length < length
    · have hinside : distance ≤ (marked ++ copyWindow marked distance length).length := by
        rw [List.length_append, copyWindow, List.length_map, List.length_range]
        omega
      rw [if_pos hmore, if_pos hmore, bind_of_some (sub_of_le (Nat.le_of_lt hmore)),
        hwithin hinside]
    · rw [if_neg hmore, if_neg hmore]
  · simp only [if_neg hfar]
    by_cases hmore : 0 < length
    · rw [if_pos hmore, if_pos hmore, bind_of_some (sub_of_le (Nat.zero_le length)),
        hwithin (Nat.not_lt.mp hfar)]
    · rw [if_neg hmore, if_neg hmore]

private theorem copyMarked_spec {marked : List Nat} (pos : 1 ≤ distance)
    (le : distance ≤ windowSize) (symbols : ∀ symbol ∈ marked, IsSymbol symbol) :
    (copyMarked marked distance length).length = marked.length + length ∧
      ∀ symbol ∈ copyMarked marked distance length, IsSymbol symbol := by
  have hcopy := @copyMarked_eq marked distance length pos le
  have hall : distance ≤ (windowSymbols ++ marked).length := by
    rw [List.length_append, windowSymbols_length]
    omega
  constructor
  · have hlength := congrArg List.length hcopy
    rw [copyBack_length pos hall, List.length_append, List.length_append] at hlength
    omega
  · intro symbol hmem
    have hmem := mem_copyBack (hcopy ▸ List.mem_append_right windowSymbols hmem)
    rcases List.mem_append.mp hmem with hwindow | hmarked
    · obtain ⟨offset, hoffset, rfl⟩ := List.mem_map.mp hwindow
      have := List.mem_range.mp hoffset
      exact .inr ⟨by omega, by omega⟩
    · exact symbols symbol hmarked

private theorem Valid.tryClean (h : m.Valid limit) : m.tryClean? = some m.tryClean ∧
    m.tryClean.Valid limit ∧ m.tryClean.len = m.len := by
  rw [tryClean?, MarkerOutput.tryClean]
  by_cases hmode : m.cleanMode ∨ m.marked.length < windowSize
  · rw [if_pos hmode, if_pos hmode]
    exact ⟨rfl, h, rfl⟩
  · rw [if_neg hmode, if_neg hmode]
    obtain ⟨hmarking, hlong⟩ := not_or.mp hmode
    have hle : windowSize ≤ m.marked.length := Nat.not_lt.mp hlong
    have hsuffix : (m.marked.drop (m.marked.length - windowSize)).take
        (m.marked.length - (m.marked.length - windowSize)) =
          m.marked.drop (m.marked.length - windowSize) :=
      List.take_of_length_le (Nat.le_of_eq List.length_drop)
    rw [bind_of_some (sub_of_le hle), bind_of_some (range_of_le (Nat.sub_le _ _) (Nat.le_refl _)),
      hsuffix]
    dsimp only
    split
    case isTrue => exact ⟨rfl, h, rfl⟩
    case isFalse =>
      have hlength : ((m.marked.drop (m.marked.length - windowSize)).map UInt8.ofNat).length =
          windowSize := by
        rw [List.length_map, List.length_drop, Nat.sub_sub_self hle]
      have hempty := (h.marking (Bool.eq_false_iff.mpr hmarking)).2
      have hlen : m.marked.length +
          (((m.marked.drop (m.marked.length - windowSize)).map UInt8.ofNat).length - windowSize) =
            m.len := by
        rw [hlength, Nat.sub_self, len, hempty, List.length_nil, Nat.zero_sub]
      generalize (m.marked.drop (m.marked.length - windowSize)).map UInt8.ofNat = clean at *
      refine ⟨rfl, ⟨h.bound, ?_, h.symbols, ?_, ?_⟩, hlen⟩
      · exact Nat.le_trans (Nat.le_of_eq hlen) h.fits
      · show windowSize ≤ clean.length
        rw [hlength]
      · intro hmode
        cases hmode

private theorem len_append_clean (start : m.cleanStart ≤ m.clean.length) (bytes : List UInt8) :
    len { m with clean := m.clean ++ bytes } = m.len + bytes.length := by
  show m.marked.length + ((m.clean ++ bytes).length - m.cleanStart) = _
  rw [len, List.length_append]
  omega

private theorem len_set_marked {symbols : List Nat} {added : Nat}
    (size : symbols.length = m.marked.length + added) :
    len { m with marked := symbols } = m.len + added := by
  show symbols.length + (m.clean.length - m.cleanStart) = _
  rw [len, size]
  omega

private theorem Valid.append_clean (h : m.Valid limit) (mode : m.cleanMode = true)
    {bytes : List UInt8}
    (room : bytes.length ≤ m.limit - m.len) : Valid limit { m with clean := m.clean ++ bytes } where
  bound := h.bound
  fits := by
    have hbound := h.bound
    have hfits := h.fits
    rw [len_append_clean h.start]
    omega
  symbols := h.symbols
  start := h.start.trans (by rw [List.length_append]; exact Nat.le_add_right _ _)
  marking := fun hmode => absurd (mode.symm.trans hmode) (by decide)

private theorem Valid.set_marked (h : m.Valid limit) {symbols : List Nat} {added : Nat}
    (size : symbols.length = m.marked.length + added) (room : added ≤ m.limit - m.len)
    (valid : ∀ symbol ∈ symbols, IsSymbol symbol) : Valid limit { m with marked := symbols } where
  bound := h.bound
  fits := by
    have hbound := h.bound
    have hfits := h.fits
    rw [len_set_marked size]
    omega
  symbols := valid
  start := h.start
  marking := h.marking

private theorem Valid.extendBytes (h : m.Valid limit) {bytes : List UInt8}
    (extended : m.extendBytes bytes = .ok next) : next.Valid limit ∧ m.len ≤ next.len := by
  obtain ⟨_, hroom, heq⟩ := result_bind_eq_ok.mp extended
  have hroom := ensure_eq_ok.mp hroom
  obtain rfl := Except.ok.inj heq
  split
  case isTrue hmode =>
    refine ⟨h.append_clean hmode hroom, ?_⟩
    rw [len_append_clean h.start]
    exact Nat.le_add_right _ _
  case isFalse =>
    have hsize : (m.marked ++ bytes.map UInt8.toNat).length = m.marked.length + bytes.length := by
      rw [List.length_append, List.length_map]
    refine ⟨h.set_marked hsize hroom fun symbol hmem => ?_, ?_⟩
    · rcases List.mem_append.mp hmem with hold | hnew
      · exact h.symbols symbol hold
      · obtain ⟨byte, -, rfl⟩ := List.mem_map.mp hnew
        exact .inl (Nat.le_of_lt_succ byte.toNat_lt)
    · rw [len_set_marked hsize]
      exact Nat.le_add_right _ _

private theorem Valid.copyMatch?_returns (h : m.Valid limit) :
    Returns (fun next other => next = other ∧ next.Valid limit ∧ m.len ≤ next.len)
      (m.copyMatch? distance length) (m.copyMatch distance length) := by
  apply (returns_check _).bind
  intro _ _ hroom _
  have hroom := ensure_eq_ok.mp hroom
  split
  case isTrue hmode =>
    apply (returns_check _).bind
    intro _ _ hcheck _
    obtain ⟨hpos, hle⟩ := checkDistance_eq_ok hcheck
    have hinside : distance ≤ m.clean.length := hle.trans (Nat.min_le_left _ _)
    apply returns_step (matchWithin?_eq hpos hinside)
    obtain ⟨rest, hrest⟩ := @prefix_copyBack _ _ length m.clean hpos hinside
    have hlength := @copyBack_length _ _ length m.clean hpos hinside
    rw [extendMatch_eq_copyBack hpos hinside, ← hrest]
    rw [← hrest, List.length_append] at hlength
    apply returns_ok
    refine ⟨rfl, h.append_clean hmode (by omega), ?_⟩
    rw [len_append_clean h.start]
    exact Nat.le_add_right _ _
  case isFalse hmode =>
    have hhistory := (h.marking (Bool.eq_false_iff.mpr hmode)).1
    apply (returns_check _).bind
    intro _ _ hcheck _
    rw [hhistory] at hcheck
    obtain ⟨hpos, hle⟩ := checkDistance_eq_ok hcheck
    obtain ⟨hsize, hsymbols⟩ := @copyMarked_spec distance length m.marked hpos hle h.symbols
    apply returns_step (copyMarked?_eq hpos hle)
    apply returns_ok
    refine ⟨rfl, h.set_marked hsize hroom hsymbols, ?_⟩
    rw [len_set_marked hsize]
    exact Nat.le_add_right _ _

private theorem Valid.run?_returns (h : m.Valid limit) (op : Op) :
    Returns (fun next other => next = other ∧ next.Valid limit ∧ m.len ≤ next.len)
      (op.run? m) (op.run m) := by
  cases op with
  | emit byte =>
    apply (returns_check (m.extendBytes [byte])).mono
    rintro next _ hextended rfl
    exact ⟨rfl, h.extendBytes hextended⟩
  | extend bytes =>
    apply (returns_check (m.extendBytes bytes)).mono
    rintro next _ hextended rfl
    exact ⟨rfl, h.extendBytes hextended⟩
  | copy distance length => exact h.copyMatch?_returns

/-- What the decoder does to its output. -/
inductive Step (m next : MarkerOutput) : Prop
  | op (op : Op) (run : (op.run? m).run = some (.ok next))
  | clean (run : m.tryClean? = some next)

/-- The outputs of any run from an empty one. -/
def Produced (history : InitialHistory) (limit : Nat) : MarkerOutput → Prop :=
  ReflTransGen Step (new history limit)

private theorem Valid.step (h : m.Valid limit) (step : Step m next) : next.Valid limit := by
  cases step with
  | op op run =>
    obtain ⟨_, -, -, hnext, -⟩ := (h.run?_returns op).exists_ok run
    exact hnext
  | clean run =>
    obtain ⟨hclean, hnext, -⟩ := h.tryClean
    rw [← Option.some.inj (hclean.symm.trans run)]
    exact hnext

theorem Produced.valid {history : InitialHistory} (h : Produced history limit m) :
    m.Valid limit := by
  induction h with
  | refl => exact valid_new history limit
  | tail _ step ih => exact ih.step step

private theorem sound (history : InitialHistory) (limit : Nat) : Sound
    (Produced history limit) := by
  intro m op h
  have hreturns := h.valid.run?_returns op
  have hrun := (hreturns.mono fun _ _ _ hsame => hsame.1).run_eq
  apply hreturns.mono
  rintro next _ hop ⟨rfl, -, hgrows⟩
  exact ⟨rfl, h.tail (.op op (hrun.trans (congrArg some hop))), hgrows⟩

private theorem Produced.tryClean {history : InitialHistory} (h : Produced history limit m) :
    m.tryClean? = some m.tryClean ∧ Produced history limit m.tryClean := by
  have hclean := h.valid.tryClean.1
  exact ⟨hclean, h.tail (.clean hclean)⟩

end MarkerOutput

/-- The loop of `decode_segment`, with fuel for the bits there are. -/
def decodeUntil? (data : List UInt8) (stopBit : Nat) : Nat → Nat → List Block → MarkerOutput →
    Program Error (MarkerOutput × List Block × Nat × Bool)
  | 0, _, _, _ => liftM (none : Option (MarkerOutput × List Block × Nat × Bool))
  | fuel + 1, bit, blocks, m => do
    let (m, block, bit) ← decodeBlock? data 0 bit m
    let m ← (m.tryClean? : Option MarkerOutput)
    if block.finalBlock then return (m, blocks ++ [block], Bits.alignByte bit, true)
    else if stopBit ≤ bit ∧ block.kind = .dynamicHuffman then
      return (m, blocks ++ [block], bit, false)
    else decodeUntil? data stopBit fuel bit (blocks ++ [block]) m

section Segments

variable (crc : Crc32)

def decodeSegment? (data : List UInt8) (startBit stopBit : Nat) (history : InitialHistory)
    (outputLimit : Nat) : Program Error (Segment crc) := do
  let bit ← (liftM (Bits.start data startBit) : Program Error Nat)
  let (emitter, blocks, endBit, finalBlock) ← decodeUntil? data stopBit (data.length * 8 + 1) bit []
    (MarkerOutput.new history outputLimit)
  let cleanOutput ← range emitter.clean emitter.cleanStart emitter.clean.length
  return { startBit, endBit, marked := emitter.marked, clean := emitter.clean
           cleanStart := emitter.cleanStart, cleanCrc := crc.update crc.new cleanOutput
           blocks, finalBlock }

variable {crc} {data : List UInt8} {stopBit limit : Nat} {history : InitialHistory}

private theorem decodeUntil_bind (data : List UInt8) (stopBit bit : Nat) (blocks : List Block)
    (m : MarkerOutput) :
    decodeUntil data stopBit MarkerOutput.tryClean bit blocks m =
      decodeBlock data 0 bit m >>= fun (m, block, bit) =>
        if block.finalBlock then .ok (m.tryClean, blocks ++ [block], Bits.alignByte bit, true)
        else if stopBit ≤ bit ∧ block.kind = .dynamicHuffman then
          .ok (m.tryClean, blocks ++ [block], bit, false)
        else decodeUntil data stopBit MarkerOutput.tryClean bit (blocks ++ [block]) m.tryClean := by
  rw [decodeUntil_eq]
  cases decodeBlock data 0 bit m with
  | error error => rfl
  | ok found => rfl

private theorem decodeUntil?_returns {fuel bit : Nat} {blocks : List Block} {m : MarkerOutput}
    (enough : data.length * 8 - bit < fuel) (produced : m.Produced history limit) :
    Returns (fun found other => found = other ∧ found.1.Produced history limit)
      (decodeUntil? data stopBit fuel bit blocks m)
      (decodeUntil data stopBit MarkerOutput.tryClean bit blocks m) := by
  induction fuel generalizing bit blocks m with
  | zero => exact absurd enough (Nat.not_lt_zero _)
  | succ fuel ih =>
    rw [decodeUntil?, decodeUntil_bind]
    apply (decodeBlock?_returns (MarkerOutput.sound history limit) produced).bind
    rintro ⟨m, block, next⟩ _ hblock ⟨rfl, hproduced⟩
    have hadvances := decodeBlock_advances hblock
    obtain ⟨hclean, hcleaned⟩ := hproduced.tryClean
    apply returns_step hclean
    dsimp only
    split
    case isTrue => exact returns_ok ⟨rfl, hcleaned⟩
    case isFalse =>
      split
      case isTrue => exact returns_ok ⟨rfl, hcleaned⟩
      case isFalse => exact ih (by omega) hcleaned

/-- The parts of a segment are those of an output. -/
def Segment.From (segment : Segment crc) (m : MarkerOutput) : Prop :=
  segment.marked = m.marked ∧ segment.clean = m.clean ∧ segment.cleanStart = m.cleanStart

theorem decodeSegment?_returns {startBit : Nat} :
    Returns (fun found other => found = other ∧ ∃ m, m.Produced history limit ∧ found.From m)
      (decodeSegment? crc data startBit stopBit history limit)
      (decodeSegment crc data startBit stopBit history limit) := by
  apply (returns_check _).bind
  rintro _ bit _ rfl
  apply (decodeUntil?_returns (by omega) .refl).bind
  rintro ⟨m, blocks, endBit, finalBlock⟩ _ _ ⟨rfl, hproduced⟩
  have hrest : (m.clean.drop m.cleanStart).take (m.clean.length - m.cleanStart) =
      m.clean.drop m.cleanStart := List.take_of_length_le (Nat.le_of_eq List.length_drop)
  apply returns_step (range_of_le hproduced.valid.start (Nat.le_refl _))
  rw [hrest]
  exact returns_ok ⟨rfl, m, hproduced, rfl, rfl, rfl⟩

end Segments

/-- `lookup[start..].copy_from_slice(bytes)`, which needs as many places as there are bytes. -/
def copyFromSlice? (lookup : List UInt8) (start : Nat) (bytes : List UInt8) :
    Option (List UInt8) := do
  let target ← range lookup start lookup.length
  if target.length = bytes.length then some (lookup.take start ++ bytes) else none

def symbolLookup? (predecessor : List UInt8) : Option (List UInt8) :=
  copyFromSlice? ((List.range 256).map UInt8.ofNat ++ List.replicate (2 ^ 16 - 256) 0) windowSize
    predecessor

def resolveSymbol? (predecessor : List UInt8) (symbol : Nat) : Program Error UInt8 := do
  let missing := windowSize - predecessor.length
  if symbol ≤ 255 then return UInt8.ofNat symbol
  else
    let place ← sub symbol windowSize
    liftM (ensure (missing ≤ place)
      (invalid "speculative marker references unavailable predecessor history"))
    let known ← sub place missing
    (index predecessor known : Option UInt8)

def resolveSymbols? (symbols : List Nat) (predecessor : List UInt8) :
    Program Error (List UInt8) :=
  if predecessor.length = windowSize ∧ symbols.length ≥ 128 * 1024 then do
    let lookup ← (symbolLookup? predecessor : Option (List UInt8))
    (symbols.mapM (index lookup) : Option (List UInt8))
  else symbols.mapM (resolveSymbol? predecessor)

section Resolution

variable {predecessor : List UInt8} {symbols : List Nat}

private theorem symbolLookup?_eq (whole : predecessor.length = windowSize) :
    symbolLookup? predecessor = some (symbolLookup predecessor) := by
  have hfront : ((List.range 256).map UInt8.ofNat ++
      List.replicate (windowSize - 256) (0 : UInt8)).length = windowSize := by
    rw [List.length_append, List.length_map, List.length_range, List.length_replicate]
    rfl
  have hlookup : (List.range 256).map UInt8.ofNat ++ List.replicate (2 ^ 16 - 256) (0 : UInt8) =
      (List.range 256).map UInt8.ofNat ++ List.replicate (windowSize - 256) (0 : UInt8) ++
        List.replicate windowSize 0 := by
    rw [List.append_assoc, List.replicate_append_replicate]
    rfl
  rw [symbolLookup?, hlookup, copyFromSlice?, symbolLookup]
  generalize (List.range 256).map UInt8.ofNat ++
    List.replicate (windowSize - 256) (0 : UInt8) = front at hfront
  have hlength : (front ++ List.replicate windowSize (0 : UInt8)).length =
      windowSize + windowSize := by
    rw [List.length_append, hfront, List.length_replicate]
  have htarget : (((front ++ List.replicate windowSize (0 : UInt8)).drop windowSize).take
      (windowSize + windowSize - windowSize)).length = predecessor.length := by
    rw [List.length_take, List.length_drop, hlength, Nat.add_sub_cancel_left, Nat.min_self, whole]
  rw [hlength, bind_of_some (range_of_le (Nat.le_add_left _ _) (Nat.le_of_eq hlength.symm)),
    if_pos htarget, List.take_left' hfront]

private theorem symbolLookup_index {symbol : Nat} (valid : IsSymbol symbol)
    (whole : predecessor.length = windowSize) :
    index (symbolLookup predecessor) symbol = some ((symbolLookup predecessor).getD symbol 0) := by
  have hlength : (symbolLookup predecessor).length = 2 * windowSize := by
    rw [symbolLookup, List.length_append, List.length_append, List.length_map, List.length_range,
      List.length_replicate, whole]
    rfl
  have hlt : symbol < (symbolLookup predecessor).length := by
    rw [hlength]
    rcases valid with hbyte | ⟨-, hlt⟩
    · exact Nat.lt_of_le_of_lt hbyte (by decide)
    · exact hlt
  rw [index, List.getElem?_eq_getElem hlt, List.getD_eq_getElem _ _ hlt]

private theorem resolveSymbol?_returns {symbol : Nat} (valid : IsSymbol symbol) :
    Returns Eq (resolveSymbol? predecessor symbol) (resolveSymbol predecessor symbol) := by
  rw [resolveSymbol?, resolveSymbol]
  split
  case isTrue => exact returns_ok rfl
  case isFalse hmarker =>
    obtain ⟨hle, hlt⟩ := valid.resolve_left hmarker
    apply returns_step (sub_of_le hle)
    apply (returns_check _).bind
    intro _ _ hensure _
    have hmissing := ensure_eq_ok.mp hensure
    have hknown : symbol - windowSize - (windowSize - predecessor.length) < predecessor.length := by
      omega
    apply returns_step (sub_of_le hmissing)
    apply returns_lift (List.getElem?_eq_getElem hknown)
    rw [List.getD_eq_getElem _ _ hknown]

theorem resolveSymbols?_returns (valid : ∀ symbol ∈ symbols, IsSymbol symbol) :
    Returns Eq (resolveSymbols? symbols predecessor) (resolveSymbols symbols predecessor) := by
  rw [resolveSymbols?, resolveSymbols]
  split
  case isTrue hlarge =>
    apply returns_step (symbolLookup?_eq hlarge.1)
    have hindex : ∀ symbol ∈ symbols, index (symbolLookup predecessor) symbol =
        some ((symbolLookup predecessor).getD symbol 0) :=
      fun symbol hmem => symbolLookup_index (valid symbol hmem) hlarge.1
    exact returns_lift (mapM_eq_map hindex) rfl
  case isFalse => exact returns_mapM fun symbol hmem => resolveSymbol?_returns (valid symbol hmem)

end Resolution

end Fbz.Deflate
