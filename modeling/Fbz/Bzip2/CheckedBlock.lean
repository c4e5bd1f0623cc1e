import Fbz.Bzip2.CheckedHuffman
import Fbz.Bzip2.IndexRoundTrip
import Fbz.Bzip2.InverseTransform
import Fbz.Bzip2.Locality
import Mathlib.Data.Fintype.EquivFin
import Mathlib.Logic.Relation

/-!
# A block, with every index checked

`Decoder::block` on arrays and numbers of fixed width, entered at any position of any data. A loop
has fuel for the bits there are; running out of it counts as a panic, and it never does.
-/

namespace Fbz.Bzip2

open Checked

/-- `copy_within` makes room for the value at the front. -/
def moveToFront? {α : Type} (list : List α) (index : Nat) : Option (α × List α) := do
  let value ← Checked.index list index
  let list ← copyWithin? list 0 index 1
  let list ← store list 0 value
  some (value, list)

private theorem moveToFront?_eq {α : Type} [Inhabited α] {list : List α} {index : Nat}
    (lt : index < list.length) : moveToFront? list index = some (moveToFront list index) := by
  have hvalue : Checked.index list index = some (list.getD index default) := by
    rw [Checked.index, List.getD_eq_getElem?_getD, List.getElem?_eq_getElem lt, Option.getD_some]
  have hcopy : copyWithin? list 0 index 1 =
      some (list.take 1 ++ list.take index ++ list.drop (1 + index)) := by
    rw [copyWithin?, if_pos ⟨Nat.zero_le _, Nat.le_of_lt lt, by omega⟩]
    rfl
  rw [moveToFront?, bind_of_some hvalue, bind_of_some hcopy]
  cases list with
  | nil => exact absurd lt (Nat.not_lt_zero _)
  | cons first rest =>
    rw [moveToFront, List.eraseIdx_eq_take_drop_succ, Nat.add_comm 1 index]
    rfl

/-- `word & (1 << (15 - value)) != 0`. -/
def bitSet? (word value : Nat) : Option Bool := do
  let down ← sub 15 value
  let mask ← shl 32 1 down
  some (word &&& mask ≠ 0)

private theorem bitSet?_eq {word value : Nat} (lt : value < 16) :
    bitSet? word value = some (word.testBit (15 - value)) := by
  have hpow : 1 * 2 ^ (15 - value) < 2 ^ 32 := by
    rw [Nat.one_mul]
    exact Nat.pow_lt_pow_right (by decide) (by omega)
  rw [bitSet?, bind_of_some (sub_of_le (by omega)), bind_of_some (shl_of_lt (by omega) hpow),
    Nat.one_mul, Nat.and_two_pow]
  cases word.testBit (15 - value)
  · simp
  · simp

/-- The loop over the bits of a word. -/
def markWord? (values group : Nat) (used : List Bool) : Option (List Bool) :=
  (List.range 16).foldlM (fun used value => do
    let bit ← bitSet? values value
    store used (group * 16 + value) bit) used

def markGroups? (data : List UInt8) (groups : Nat) :
    List Nat → List Bool → Nat → Program Error (List Bool × Nat)
  | [], used, bit => return (used, bit)
  | group :: rest, used, bit => do
    let present ← (bitSet? groups group : Option Bool)
    if present then
      let (values, bit) ← Bits.read? data bit 16
      let used ← (markWord? values group used : Option (List Bool))
      markGroups? data groups rest used bit
    else markGroups? data groups rest used bit

/-- The filter that makes the alphabet. -/
def alphabet? (used : List Bool) : Option (List UInt8) := do
  let values ← keep (Checked.index used) (List.range 256)
  some (values.map UInt8.ofNat)

/-- The bytes that are marked in an array that begins at this one. -/
def markedFrom (start : Nat) : List Bool → List UInt8
  | [] => []
  | used :: rest =>
    if used then UInt8.ofNat start :: markedFrom (start + 1) rest else markedFrom (start + 1) rest

private theorem markedFrom_append (start : Nat) (front back : List Bool) :
    markedFrom start (front ++ back) =
      markedFrom start front ++ markedFrom (start + front.length) back := by
  induction front generalizing start with
  | nil => rfl
  | cons used front ih =>
    rw [List.cons_append, markedFrom, markedFrom, ih, List.length_cons, Nat.add_assoc,
      Nat.add_comm 1]
    cases used
    · rfl
    · rfl

private theorem markedFrom_replicate (start count : Nat) :
    markedFrom start (List.replicate count false) = [] := by
  induction count generalizing start with
  | zero => rfl
  | succ count ih => exact ih (start + 1)

private theorem markedFrom_length (start : Nat) (used : List Bool) :
    (markedFrom start used).length ≤ used.length := by
  induction used generalizing start with
  | nil => exact Nat.le_refl 0
  | cons first used ih =>
    have := ih (start + 1)
    rw [markedFrom, List.length_cons]
    split
    · exact Nat.succ_le_succ this
    · exact Nat.le_succ_of_le this

private theorem markedFrom_map (start low count : Nat) (marked : Nat → Bool) :
    markedFrom (start + low) ((List.range' low count).map marked) =
      (List.range' low count).filterMap fun value =>
        if marked value then some (UInt8.ofNat (start + value)) else none := by
  induction count generalizing low with
  | zero => rfl
  | succ count ih =>
    rw [List.range'_succ, List.map_cons, markedFrom, Nat.add_assoc, ih, List.filterMap_cons]
    cases marked low
    · rfl
    · rfl

/-- The groups before this one are marked, and none behind. -/
structure Marked (used : List Bool) (group : Nat) (alphabet : List UInt8) : Prop where
  split : ∃ front, front.length = group * 16 ∧ markedFrom 0 front = alphabet ∧
    used = front ++ List.replicate ((16 - group) * 16) false

private theorem markWord?_eq {front : List Bool} {values group : Nat}
    (size : front.length = group * 16) (lt : group < 16) :
    markWord? values group (front ++ List.replicate ((16 - group) * 16) false) =
      some (front ++ (List.range 16).map (fun value => values.testBit (15 - value)) ++
        List.replicate ((16 - (group + 1)) * 16) false) := by
  obtain ⟨used, hused, hsplit⟩ : ∃ used,
      markWord? values group (front ++ List.replicate ((16 - group) * 16) false) = some used ∧
        used = front ++ (List.range 16).map (fun value => values.testBit (15 - value)) ++
          List.replicate ((16 - group) * 16 - (List.range 16).length) false := by
    apply @foldlM_done _ _ _ fun done used =>
      used = front ++ done.map (fun value => values.testBit (15 - value)) ++
        List.replicate ((16 - group) * 16 - done.length) false
    · rw [List.map_nil, List.append_nil, List.length_nil, Nat.sub_zero]
    · rintro done value rest hsplit used rfl
      rw [List.range_eq_range'] at hsplit
      obtain ⟨rfl, hlt⟩ := range'_split hsplit
      rw [Nat.zero_add, bind_of_some (bitSet?_eq hlt)]
      have hroom : (16 - group) * 16 - done.length =
          (16 - group) * 16 - (done ++ [done.length]).length + 1 := by
        rw [List.length_append, List.length_singleton]
        omega
      refine ⟨_, store_of_lt ?_ _, ?_⟩
      · rw [List.length_append, List.length_append, List.length_map, List.length_replicate, size]
        omega
      · rw [hroom, List.replicate_succ, List.set_append_right _ _ (by simp [size]), List.map_append,
          List.append_assoc, List.append_assoc]
        simp [size]
  rw [List.length_range] at hsplit
  rw [hused, hsplit, show (16 - group) * 16 - 16 = (16 - (group + 1)) * 16 by omega]

private theorem Marked.word {used : List Bool} {group values : Nat} {alphabet : List UInt8}
    (h : Marked used group alphabet) (lt : group < 16) :
    ∃ next, markWord? values group used = some next ∧
      Marked next (group + 1) (alphabet ++ groupValues values group) := by
  obtain ⟨front, hsize, halphabet, rfl⟩ := h.split
  refine ⟨_, markWord?_eq hsize lt, ⟨_, ?_, ?_, rfl⟩⟩
  · rw [List.length_append, List.length_map, List.length_range, hsize]
    omega
  · rw [markedFrom_append, halphabet, Nat.zero_add, hsize]
    have hword := markedFrom_map (group * 16) 0 16 fun value => values.testBit (15 - value)
    rw [Nat.add_zero, ← List.range_eq_range'] at hword
    rw [hword, groupValues]

private theorem Marked.skip {used : List Bool} {group : Nat} {alphabet : List UInt8}
    (h : Marked used group alphabet) (lt : group < 16) : Marked used (group + 1) alphabet := by
  obtain ⟨front, hsize, halphabet, rfl⟩ := h.split
  refine ⟨front ++ List.replicate 16 false, ?_, ?_, ?_⟩
  · rw [List.length_append, List.length_replicate, hsize]
    omega
  · rw [markedFrom_append, halphabet, markedFrom_replicate, List.append_nil]
  · rw [List.append_assoc, ← List.replicate_add]
    congr 2
    omega

private theorem markGroups?_returns {data : List UInt8} {groups bit group : Nat} {used : List Bool}
    {alphabet : List UInt8} (h : Marked used group alphabet) (le : group ≤ 16) :
    Returns (fun marked rest => marked.2 = rest.2 ∧ Marked marked.1 16 (alphabet ++ rest.1))
      (markGroups? data groups (List.range' group (16 - group)) used bit)
      (readAlphabet data groups (List.range' group (16 - group)) bit) := by
  obtain ⟨left, hleft⟩ : ∃ left, left = 16 - group := ⟨_, rfl⟩
  rw [← hleft]
  induction left generalizing group used alphabet bit with
  | zero =>
    obtain rfl : group = 16 := by omega
    apply returns_ok
    exact ⟨rfl, (List.append_nil alphabet).symm ▸ h⟩
  | succ left ih =>
    have hlt : group < 16 := by omega
    rw [List.range'_succ, markGroups?, readAlphabet]
    apply returns_step (bitSet?_eq hlt)
    split
    case isTrue =>
      apply (Bits.read?_returns (by decide)).bind
      rintro _ ⟨values, next⟩ _ rfl
      obtain ⟨marked, hmarked, hnext⟩ := @Marked.word used group values alphabet h hlt
      apply returns_step hmarked
      have hrest := @ih next (group + 1) marked _ hnext (by omega) (by omega)
      rw [← bind_pure (markGroups? data groups _ marked next)]
      apply hrest.bind
      rintro ⟨last, stop⟩ ⟨rest, _⟩ _ ⟨rfl, hlast⟩
      apply returns_ok
      exact ⟨rfl, (List.append_assoc ..) ▸ hlast⟩
    case isFalse => exact ih (h.skip hlt) (by omega) (by omega)

private theorem alphabet?_eq {used : List Bool} {alphabet : List UInt8}
    (h : Marked used 16 alphabet) : alphabet? used = some alphabet := by
  obtain ⟨front, hsize, rfl, hused⟩ := h.split
  obtain rfl : used = front := by rw [hused]; exact List.append_nil front
  have hkeep : keep (Checked.index used) (List.range 256) =
      some ((List.range 256).filter fun value => used.getD value false) := by
    apply keep_eq_filter
    intro value hmem
    have hlt : value < used.length := by rw [hsize]; exact List.mem_range.mp hmem
    rw [Checked.index, List.getD_eq_getElem?_getD, List.getElem?_eq_getElem hlt]
    rfl
  have hmarked : used = (List.range' 0 256).map fun value => used.getD value false := by
    apply List.ext_getElem
    · rw [List.length_map, List.length_range', hsize]
    · intro value hvalue _
      rw [List.getElem_map, List.getElem_range', Nat.zero_add, Nat.one_mul,
        List.getD_eq_getElem _ _ hvalue]
  have halphabet := markedFrom_map 0 0 256 fun value => used.getD value false
  rw [← hmarked, Nat.add_zero] at halphabet
  rw [alphabet?, bind_of_some hkeep, halphabet, List.range_eq_range', ← List.filterMap_eq_filter,
    List.map_filterMap]
  congr 2
  funext value
  rw [Nat.zero_add]
  rw [Option.guard]
  by_cases hvalue : used.getD value false = true
  · rw [if_pos hvalue, if_pos hvalue]
    rfl
  · rw [if_neg hvalue, if_neg hvalue]
    rfl

/-- The loop over the ones before a zero. -/
def readSelectorIndex? (data : List UInt8) (tableCount : Nat) :
    Nat → Nat → Nat → Program Error (Nat × Nat)
  | 0, _, _ => liftM (none : Option (Nat × Nat))
  | fuel + 1, index, bit => do
    let (more, bit) ← Bits.readBit? data bit
    if more then
      let index ← add 64 index 1
      if index ≥ tableCount then throw (decodeError bit .invalidBlock)
      else readSelectorIndex? data tableCount fuel index bit
    else return (index, bit)

def readSelectors? (data : List UInt8) (tableCount : Nat) :
    Nat → List Nat → Nat → Program Error (List Nat × Nat)
  | 0, _, bit => return ([], bit)
  | count + 1, selectorMtf, bit => do
    let (index, bit) ← readSelectorIndex? data tableCount tableCount 0 bit
    let (selected, selectorMtf) ← (moveToFront? selectorMtf index : Option (Nat × List Nat))
    let (selectors, bit) ← readSelectors? data tableCount count selectorMtf bit
    return (selected :: selectors, bit)

def readLength? (data : List UInt8) : Nat → Int → Nat → Program Error (Int × Nat)
  | 0, _, _ => liftM (none : Option (Int × Nat))
  | fuel + 1, current, bit =>
    if 1 ≤ current ∧ current ≤ maxCodeLen then do
      let (more, bit) ← Bits.readBit? data bit
      if more then
        let (down, bit) ← Bits.readBit? data bit
        let current ← int32 (current + if down then -1 else 1)
        readLength? data fuel current bit
      else return (current, bit)
    else throw (decodeError bit .invalidHuffman)

def readLengths? (data : List UInt8) : Nat → Int → Nat → Program Error (List Nat × Nat)
  | 0, _, bit => return ([], bit)
  | count + 1, current, bit => do
    let (current, bit) ← readLength? data (data.length * 8 + 1) current bit
    let (lengths, bit) ← readLengths? data count current bit
    return ((current % 256).toNat :: lengths, bit)

def readTables? (data : List UInt8) (alphaSize : Nat) : Nat → Nat →
    Program Error (List Tables × Nat)
  | 0, bit => return ([], bit)
  | count + 1, bit => do
    let (current, bit) ← Bits.read? data bit 5
    let (lengths, bit) ← readLengths? data alphaSize (asInt32 current) bit
    let table ← Tables.build? lengths bit
    let (tables, bit) ← readTables? data alphaSize count bit
    return (table :: tables, bit)

section

variable {data : List UInt8} {bit : Nat}

private theorem readSelectorIndex?_returns {tableCount left index : Nat} (few : tableCount < 2 ^ 32)
    (pos : 0 < left) (all : index + left = tableCount) :
    Returns (fun found other => found = other ∧ found.1 < tableCount)
      (readSelectorIndex? data tableCount left index bit)
      (readSelectorIndex data left index bit) := by
  induction left generalizing index bit with
  | zero => exact absurd pos (Nat.lt_irrefl 0)
  | succ left ih =>
    rw [readSelectorIndex?, readSelectorIndex]
    apply Bits.readBit?_returns.bind
    rintro _ ⟨more, next⟩ _ rfl
    cases more
    case false =>
      apply returns_ok
      exact ⟨rfl, by dsimp only; omega⟩
    case true =>
      have hadd : index + 1 < 2 ^ 64 := by omega
      apply returns_step (add_of_lt hadd)
      dsimp only
      by_cases hlast : left = 0
      · rw [if_pos (by omega), if_pos hlast]
        exact returns_error _
      · rw [if_neg (by omega), if_neg hlast]
        exact ih (Nat.pos_of_ne_zero hlast) (by omega)

private theorem readSelectors?_returns {tableCount count : Nat} {selectorMtf : List Nat}
    (few : tableCount < 2 ^ 32) (pos : 0 < tableCount) (size : selectorMtf.length = tableCount)
    (below : ∀ selected ∈ selectorMtf, selected < tableCount) :
    Returns (fun found other => found = other ∧ found.1.length = count ∧
        ∀ selected ∈ found.1, selected < tableCount)
      (readSelectors? data tableCount count selectorMtf bit)
      (readSelectors data tableCount count selectorMtf bit) := by
  induction count generalizing selectorMtf bit with
  | zero =>
    apply returns_ok
    exact ⟨rfl, rfl, fun selected hmem => nomatch hmem⟩
  | succ count ih =>
    rw [readSelectors?, readSelectors]
    apply (readSelectorIndex?_returns few pos (Nat.zero_add tableCount)).bind
    rintro ⟨index, next⟩ _ _ ⟨rfl, hindex⟩
    have hlt : index < selectorMtf.length := size.symm ▸ hindex
    have hselected : (moveToFront selectorMtf index).1 ∈ selectorMtf := by
      show selectorMtf.getD index default ∈ selectorMtf
      rw [List.getD_eq_getElem _ _ hlt]
      exact List.getElem_mem hlt
    have hrest : ∀ selected ∈ (moveToFront selectorMtf index).2, selected < tableCount := by
      intro selected hmem
      rcases List.mem_cons.mp hmem with rfl | hmem
      · exact below _ hselected
      · exact below selected (List.mem_of_mem_eraseIdx hmem)
    apply returns_step (moveToFront?_eq hlt)
    apply (ih ((moveToFront_length hlt).trans size) hrest).bind
    rintro ⟨selectors, stop⟩ _ _ ⟨rfl, hcount, hselectors⟩
    apply returns_ok
    exact ⟨rfl, congrArg Nat.succ hcount, List.forall_mem_cons.mpr ⟨below _ hselected, hselectors⟩⟩

private theorem readLength_bind (data : List UInt8) (current : Int) (bit : Nat) :
    readLength data current bit =
      if 1 ≤ current ∧ current ≤ maxCodeLen then do
        let (more, next) ← Bits.readBit data bit
        if more then
          let (down, next) ← Bits.readBit data next
          readLength data (if down then current - 1 else current + 1) next
        else return (current, next)
      else .error (decodeError bit .invalidHuffman) := by
  rw [readLength_eq]
  split
  case isFalse => rfl
  case isTrue =>
    cases Bits.readBit data bit with
    | error error => rfl
    | ok found =>
      obtain ⟨more, next⟩ := found
      cases more with
      | false => rfl
      | true =>
        dsimp only
        rw [result_bind_ok]
        dsimp only
        rw [if_pos rfl]
        cases Bits.readBit data next with
        | error error => rfl
        | ok found => rfl

private theorem readLength?_returns {fuel : Nat} {current : Int}
    (enough : data.length * 8 - bit < fuel) :
    Returns (fun found other => found = other ∧ 1 ≤ found.1 ∧ found.1 ≤ (maxCodeLen : Int))
      (readLength? data fuel current bit) (readLength data current bit) := by
  induction fuel generalizing current bit with
  | zero => exact absurd enough (Nat.not_lt_zero _)
  | succ fuel ih =>
    rw [readLength?, readLength_bind]
    split
    case isFalse => exact returns_error _
    case isTrue hcurrent =>
      have hmax : current ≤ 20 := hcurrent.2
      apply Bits.readBit?_returns.bind
      rintro _ ⟨more, next⟩ hmore rfl
      cases more
      case false => exact returns_ok ⟨rfl, hcurrent⟩
      case true =>
        apply Bits.readBit?_returns.bind
        rintro _ ⟨down, next'⟩ hdown rfl
        have hnext := Bits.readBit_next hmore
        have hnext' := Bits.readBit_next hdown
        have hstep : current + (if down = true then -1 else 1) =
            if down = true then current - 1 else current + 1 := by
          split
          · rfl
          · rfl
        have hlo : -2 ^ 31 ≤ if down = true then current - 1 else current + 1 := by
          split
          · omega
          · omega
        have hhi : (if down = true then current - 1 else current + 1) < 2 ^ 31 := by
          split
          · omega
          · omega
        dsimp only
        rw [hstep]
        apply returns_step (int32_of hlo hhi)
        exact ih (by omega)

private theorem readLengths?_returns {count : Nat} {current : Int} :
    Returns (fun found other => found = other ∧ found.1.length = count)
      (readLengths? data count current bit) (readLengths data count current bit) := by
  induction count generalizing current bit with
  | zero => exact returns_ok ⟨rfl, rfl⟩
  | succ count ih =>
    rw [readLengths?, readLengths]
    apply (readLength?_returns (by omega)).bind
    rintro ⟨length, next⟩ _ _ ⟨rfl, hlo, hhi⟩
    have hmax : length ≤ 20 := hhi
    apply ih.bind
    rintro ⟨lengths, stop⟩ _ _ ⟨rfl, hlengths⟩
    apply returns_ok
    rw [Int.emod_eq_of_lt (by dsimp only at hlo; omega) (by omega)]
    exact ⟨rfl, congrArg Nat.succ hlengths⟩

/-- The tables are those of lengths that were read. -/
def SameTables (tables : List Tables) (others : List Huffman) : Prop :=
  List.Forall₂ (fun table huffman => ∃ lengths, table.Represents huffman lengths) tables others

private theorem readTables?_returns {alphaSize count : Nat} (few : alphaSize ≤ 258) :
    Returns (fun found other => found.2 = other.2 ∧ SameTables found.1 other.1 ∧
        other.1.length = count)
      (readTables? data alphaSize count bit) (readTables data alphaSize count bit) := by
  induction count generalizing bit with
  | zero => exact returns_ok ⟨rfl, .nil, rfl⟩
  | succ count ih =>
    rw [readTables?, readTables]
    apply (Bits.read?_returns (by decide)).bind
    rintro _ ⟨current, next⟩ hcurrent rfl
    have hlt := Bits.read_lt (by decide) (by decide) hcurrent
    dsimp only
    rw [asInt32_of (by omega)]
    apply readLengths?_returns.bind
    rintro ⟨lengths, stop⟩ _ _ ⟨rfl, hlengths⟩
    apply (Tables.build?_returns (hlengths.trans_le few) stop).bind
    intro table huffman _ hsame
    apply ih.bind
    rintro ⟨tables, last⟩ ⟨others, _⟩ _ ⟨rfl, htables, hcount⟩
    apply returns_ok
    exact ⟨rfl, .cons ⟨lengths, hsame⟩ htables, congrArg Nat.succ hcount⟩

end

structure CheckedHeader where
  storedCrc : UInt32
  origin : Nat
  alphabet : List UInt8
  selectors : List Nat
  tables : List Tables

def readHeader? (data : List UInt8) (blockOffset : Nat) (expectedCrc : Option UInt32) (bit : Nat) :
    Program Error (CheckedHeader × Nat) := do
  let (storedCrc, bit) ← Bits.read? data bit 32
  let storedCrc := UInt32.ofNat storedCrc
  liftM (ensure (expectedCrc = none ∨ expectedCrc = some storedCrc)
    (decodeError blockOffset .invalidBlock))
  let (randomized, bit) ← Bits.readBit? data bit
  liftM (ensure (randomized = false) (decodeError blockOffset .randomizedBlock))
  let (origin, bit) ← Bits.read? data bit 24
  let (groups, bit) ← Bits.read? data bit 16
  let (used, bit) ← markGroups? data groups (List.range 16) (List.replicate 256 false) bit
  let alphabet ← (alphabet? used : Option (List UInt8))
  liftM (ensure (alphabet ≠ []) (decodeError blockOffset .invalidBlock))
  let (tableCount, bit) ← Bits.read? data bit 3
  liftM (ensure (2 ≤ tableCount ∧ tableCount ≤ 6) (decodeError bit .invalidHuffman))
  let (selectorCount, bit) ← Bits.read? data bit 15
  liftM (ensure (selectorCount ≠ 0) (decodeError bit .invalidBlock))
  let (selectors, bit) ← readSelectors? data tableCount selectorCount (List.range tableCount) bit
  let (tables, bit) ← readTables? data (alphabet.length + 2) tableCount bit
  return (⟨storedCrc, origin, alphabet, selectors, tables⟩, bit)

/-- What a header that was read guarantees for the symbols behind it. -/
structure SameHeader (checked : CheckedHeader) (header : BlockHeader) : Prop where
  storedCrc : checked.storedCrc = header.storedCrc
  origin : checked.origin = header.origin
  alphabet : checked.alphabet = header.alphabet
  selectors : checked.selectors = header.selectors
  tables : SameTables checked.tables header.tables
  nonempty : header.alphabet ≠ []
  bytes : header.alphabet.length ≤ 256
  chosen : ∀ selected ∈ header.selectors, selected < header.tables.length
  few : header.selectors.length < 2 ^ 15
  some_table : 0 < header.tables.length

private theorem Marked.length_le {used : List Bool} {alphabet : List UInt8}
    (h : Marked used 16 alphabet) : alphabet.length ≤ 256 := by
  obtain ⟨front, hsize, rfl, -⟩ := h.split
  exact (markedFrom_length 0 front).trans_eq hsize

private theorem readHeader?_returns (data : List UInt8) (blockOffset : Nat)
    (expectedCrc : Option UInt32) (bit : Nat) :
    Returns (fun found other => found.2 = other.2 ∧ SameHeader found.1 other.1)
      (readHeader? data blockOffset expectedCrc bit)
      (readHeader data blockOffset expectedCrc bit) := by
  apply (Bits.read?_returns (by decide)).bind
  rintro _ ⟨storedCrc, bit⟩ - rfl
  apply (returns_check _).bind
  rintro - - - -
  apply Bits.readBit?_returns.bind
  rintro _ ⟨randomized, bit⟩ - rfl
  apply (returns_check _).bind
  rintro - - - -
  apply (Bits.read?_returns (by decide)).bind
  rintro _ ⟨origin, bit⟩ - rfl
  apply (Bits.read?_returns (by decide)).bind
  rintro _ ⟨groups, bit⟩ - rfl
  have hgroups := @markGroups?_returns data groups bit 0 (List.replicate 256 false) []
    ⟨[], rfl, rfl, rfl⟩ (Nat.zero_le 16)
  rw [Nat.sub_zero, ← List.range_eq_range'] at hgroups
  apply hgroups.bind
  rintro ⟨used, bit⟩ ⟨alphabet, _⟩ - ⟨rfl, hmarked⟩
  have hmarked : Marked used 16 alphabet := hmarked
  apply returns_step (alphabet?_eq hmarked)
  apply (returns_check _).bind
  rintro _ _ hne -
  apply (Bits.read?_returns (by decide)).bind
  rintro _ ⟨tableCount, bit⟩ - rfl
  apply (returns_check _).bind
  rintro _ _ hcount -
  have hcount := ensure_eq_ok.mp hcount
  apply (Bits.read?_returns (by decide)).bind
  rintro _ ⟨selectorCount, bit⟩ hselectorCount rfl
  apply (returns_check _).bind
  rintro - - - -
  apply (readSelectors?_returns (by omega) (by omega) List.length_range
    fun selected hmem => List.mem_range.mp hmem).bind
  rintro ⟨selectors, bit⟩ _ - ⟨rfl, hlength, hselectors⟩
  have hbytes := hmarked.length_le
  apply (readTables?_returns (by omega)).bind
  rintro ⟨tables, bit⟩ ⟨others, _⟩ - ⟨rfl, htables, hothers⟩
  apply returns_ok
  refine ⟨rfl, rfl, rfl, rfl, rfl, htables, ensure_eq_ok.mp hne, hbytes, ?_, ?_, ?_⟩
  · rw [hothers]
    exact hselectors
  · rw [hlength]
    exact Bits.read_lt (by decide) (by decide) hselectorCount
  · rw [hothers]
    omega

/-- The variables of the symbol loop, with the counts it makes. -/
structure CheckedSymbols where
  mtf : List UInt8
  selector : Nat := 0
  groupLeft : Nat := 0
  table : Nat := 0
  run : Nat := 0
  runBit : Nat := 0
  tt : List Nat := []
  counts : List Nat := List.replicate 257 0

def selectTable? (header : CheckedHeader) (s : CheckedSymbols) (bit : Nat) :
    Program Error CheckedSymbols :=
  if s.groupLeft = 0 then
    match header.selectors[s.selector]? with
    | none => throw (decodeError bit .invalidBlock)
    | some table => do
      let selector ← add 64 s.selector 1
      let groupLeft ← sub groupSize 1
      return { s with table, selector, groupLeft }
  else do
    let groupLeft ← sub s.groupLeft 1
    return { s with groupLeft }

def readSymbol? (data : List UInt8) (header : CheckedHeader) (s : CheckedSymbols) (bit : Nat) :
    Program Error (CheckedSymbols × Nat × Nat) := do
  let s ← selectTable? header s bit
  let table ← (Checked.index header.tables s.table : Option Tables)
  let (symbol, bit) ← table.decode? data bit
  return (s, symbol, bit)

/-- `counts[usize::from(byte) + 1] += amount`. -/
def countByte? (counts : List Nat) (byte : UInt8) (amount : Nat) : Option (List Nat) := do
  let place ← add 64 byte.toNat 1
  let count ← Checked.index counts place
  let count ← add 32 count amount
  store counts place count

def flushRun? (blockSize : Nat) (s : CheckedSymbols) (bit : Nat) : Program Error CheckedSymbols :=
  if s.run ≠ 0 then do
    let byte ← (Checked.index s.mtf 0 : Option UInt8)
    let stored ← add 64 s.tt.length s.run
    if stored > blockSize then throw (decodeError bit .blockOverflow)
    else do
      let counts ← (countByte? s.counts byte (s.run % 2 ^ 32) : Option (List Nat))
      return { s with
        tt := s.tt ++ List.replicate s.run byte.toNat, counts, run := 0, runBit := 0 }
  else return s

def applySymbol? (header : CheckedHeader) (blockSize symbol : Nat) (s : CheckedSymbols)
    (bit : Nat) : Program Error (CheckedSymbols × Bool) :=
  if symbol ≤ 1 then do
    let digit ← add 64 symbol 1
    let digit ← shl 64 digit s.runBit
    let run ← add 64 s.run digit
    let runBit ← add 32 s.runBit 1
    if runBit ≥ 32 ∨ run > blockSize then throw (decodeError bit .blockOverflow)
    else return ({ s with run, runBit }, false)
  else do
    let s ← flushRun? blockSize s bit
    if symbol = header.alphabet.length + 1 then return (s, true)
    else do
      let index ← sub symbol 1
      if index ≥ s.mtf.length ∨ s.tt.length = blockSize then throw (decodeError bit .invalidBlock)
      else do
        let (byte, mtf) ← (moveToFront? s.mtf index : Option (UInt8 × List UInt8))
        let counts ← (countByte? s.counts byte 1 : Option (List Nat))
        return ({ s with mtf, tt := s.tt ++ [byte.toNat], counts }, false)

/-- A turn of the symbol loop; whether it is the last one, and the position behind it. -/
def symbolTurn? (data : List UInt8) (header : CheckedHeader) (blockSize : Nat)
    (s : CheckedSymbols) (bit : Nat) : Program Error ((CheckedSymbols × Bool) × Nat) := do
  let (s, symbol, bit) ← readSymbol? data header s bit
  let turned ← applySymbol? header blockSize symbol s bit
  return (turned, bit)

def decodeSymbols? (data : List UInt8) (header : CheckedHeader) (blockSize : Nat) :
    Nat → CheckedSymbols → Nat → Program Error (CheckedSymbols × Nat)
  | 0, _, _ => liftM (none : Option (CheckedSymbols × Nat))
  | fuel + 1, s, bit => do
    let ((s, done), bit) ← symbolTurn? data header blockSize s bit
    if done then return (s, bit) else decodeSymbols? data header blockSize fuel s bit

/-- How often the byte below occurs. -/
def countAbove (bytes : List UInt8) : Nat → Nat
  | 0 => 0
  | byte + 1 => bytes.count (UInt8.ofNat byte)

/-- The arrays hold what the loop has made so far, within the block. -/
structure Follows (header : BlockHeader) (blockSize : Nat) (c : CheckedSymbols) (s : Symbols) :
    Prop where
  mtf : c.mtf = s.mtf
  selector : c.selector = s.selector
  groupLeft : c.groupLeft = s.groupLeft
  table : c.table = s.table
  run : c.run = s.run
  runBit : c.runBit = s.runBit
  tt : c.tt = s.tt.map UInt8.toNat
  counts : Holds c.counts 257 (countAbove s.tt)
  width : s.mtf.length = header.alphabet.length
  chosen : s.table < header.tables.length
  stored : s.tt.length ≤ blockSize
  within : s.run ≤ blockSize
  short : s.runBit < 32

section

variable {data : List UInt8} {bit blockSize : Nat} {checked : CheckedHeader} {header : BlockHeader}
  {c : CheckedSymbols} {s : Symbols}

private theorem countAbove_append (bytes added : List UInt8) (place : Nat) :
    countAbove (bytes ++ added) place = countAbove bytes place + countAbove added place := by
  cases place with
  | zero => rfl
  | succ byte => exact List.count_append

private theorem countAbove_replicate {amount place : Nat} {byte : UInt8} (le : place ≤ 256) :
    countAbove (List.replicate amount byte) place = if place = byte.toNat + 1 then amount else 0 := by
  cases place with
  | zero => rfl
  | succ place =>
    have hplace : (UInt8.ofNat place).toNat = place := by
      rw [UInt8.toNat_ofNat']
      omega
    rw [countAbove, List.count_replicate]
    by_cases heq : byte = UInt8.ofNat place
    · rw [if_pos (by simpa using heq), if_pos (by rw [heq, hplace])]
    · rw [if_neg (by simpa using heq), if_neg]
      intro hsucc
      apply heq
      apply UInt8.toNat_inj.mp
      rw [hplace]
      exact (Nat.succ.inj hsucc).symm

private theorem countByte?_eq {counts : List Nat} {bytes : List UInt8} {byte : UInt8} {amount : Nat}
    (holds : Holds counts 257 (countAbove bytes)) (few : bytes.length + amount < 2 ^ 32) :
    ∃ next, countByte? counts byte amount = some next ∧
      Holds next 257 (countAbove (bytes ++ List.replicate amount byte)) := by
  have hbyte := byte.toNat_lt
  have hlt : byte.toNat + 1 < 257 := by omega
  have hcount : countAbove bytes (byte.toNat + 1) ≤ bytes.length := List.count_le_length
  have hplace : byte.toNat + 1 < 2 ^ 64 := by omega
  have hadd : countAbove bytes (byte.toNat + 1) + amount < 2 ^ 32 := by omega
  rw [countByte?, bind_of_some (add_of_lt hplace), bind_of_some (holds.index hlt),
    bind_of_some (add_of_lt hadd)]
  refine ⟨_, holds.store hlt _, (holds.set hlt _).congr fun place hlt' => ?_⟩
  rw [countAbove_append, countAbove_replicate (Nat.le_of_lt_succ hlt')]
  by_cases heq : place = byte.toNat + 1
  · rw [heq, Function.update_self, if_pos rfl]
  · rw [Function.update_of_ne heq, if_neg heq, Nat.add_zero]

private theorem Follows.selectTable?_returns (h : Follows header blockSize c s)
    (same : SameHeader checked header) :
    Returns (Follows header blockSize) (selectTable? checked c bit) (selectTable header s bit) := by
  rw [selectTable?, selectTable, h.groupLeft, h.selector, same.selectors]
  split
  case isTrue =>
    cases hget : header.selectors[s.selector]? with
    | none => exact returns_error _
    | some table =>
      obtain ⟨hlt, rfl⟩ := List.getElem?_eq_some_iff.mp hget
      have hfew := same.few
      have hadd : s.selector + 1 < 2 ^ 64 := by omega
      apply returns_step (add_of_lt hadd)
      apply returns_step (sub_of_le (by decide))
      apply returns_ok
      exact { h with
        selector := rfl, groupLeft := rfl, table := rfl
        chosen := same.chosen _ (List.getElem_mem hlt) }
  case isFalse hleft =>
    apply returns_step (sub_of_le (Nat.one_le_iff_ne_zero.mpr hleft))
    apply returns_ok
    exact { h with selector := rfl, groupLeft := rfl }

private theorem Follows.readSymbol?_returns (h : Follows header blockSize c s)
    (same : SameHeader checked header) :
    Returns (fun found other => found.2 = other.2 ∧ Follows header blockSize found.1 other.1)
      (readSymbol? data checked c bit) (readSymbol data header s bit) := by
  apply (h.selectTable?_returns same).bind
  intro c s _ h
  have hlength := same.tables.length_eq
  have hlt : s.table < checked.tables.length := by
    have := h.chosen
    omega
  obtain ⟨lengths, htable⟩ := same.tables.get hlt h.chosen
  have hindex : Checked.index checked.tables c.table = some (checked.tables.get ⟨s.table, hlt⟩) := by
    rw [h.table]
    exact List.getElem?_eq_getElem hlt
  have hother : okOr (decodeError bit .invalidBlock) header.tables[s.table]? =
      .ok (header.tables.get ⟨s.table, h.chosen⟩) := by
    rw [List.getElem?_eq_getElem h.chosen]
    rfl
  apply returns_step hindex
  rw [hother, result_bind_ok]
  apply htable.decode?_returns.bind
  rintro _ ⟨symbol, next⟩ _ rfl
  exact returns_ok ⟨rfl, h⟩

private theorem Follows.flushRun?_returns (h : Follows header blockSize c s)
    (same : SameHeader checked header) (small : blockSize ≤ 900000) :
    Returns (Follows header blockSize) (flushRun? blockSize c bit) (flushRun blockSize s bit) := by
  rw [flushRun?, flushRun, h.run, h.mtf, h.tt]
  split
  case isFalse => exact returns_ok h
  case isTrue =>
    have hstored := h.stored
    have hwithin := h.within
    have hpos : 0 < s.mtf.length := by
      rw [h.width]
      exact List.length_pos_iff.mpr same.nonempty
    have hbyte : Checked.index s.mtf 0 = some (s.mtf.headD 0) := by
      cases hmtf : s.mtf with
      | nil =>
        rw [hmtf] at hpos
        exact absurd hpos (Nat.lt_irrefl 0)
      | cons byte rest => rfl
    have hadd : (s.tt.map UInt8.toNat).length + s.run < 2 ^ 64 := by
      rw [List.length_map]
      omega
    apply returns_step hbyte
    apply returns_step (add_of_lt hadd)
    rw [List.length_map]
    split
    case isTrue => exact returns_error _
    case isFalse hroom =>
      obtain ⟨counts, hcounts, hholds⟩ :=
        @countByte?_eq c.counts s.tt (s.mtf.headD 0) (s.run % 2 ^ 32) h.counts (by omega)
      rw [Nat.mod_eq_of_lt (show s.run < 2 ^ 32 by omega)] at hcounts hholds ⊢
      apply returns_step hcounts
      apply returns_ok
      exact { h with
        mtf := rfl, run := rfl, runBit := rfl, selector := h.selector
        tt := by rw [List.map_append, List.map_replicate]
        counts := hholds
        stored := by rw [List.length_append, List.length_replicate]; omega
        within := Nat.zero_le _
        short := Nat.zero_lt_succ 31 }

private theorem Follows.push (h : Follows header blockSize c s) {index : Nat} {counts : List Nat}
    (room : s.tt.length ≠ blockSize) (lt : index < s.mtf.length)
    (holds : Holds counts 257 (countAbove (s.tt ++ [(moveToFront s.mtf index).1]))) :
    Follows header blockSize
      { c with
        mtf := (moveToFront s.mtf index).2
        tt := c.tt ++ [(moveToFront s.mtf index).1.toNat], counts }
      { s with
        mtf := (moveToFront s.mtf index).2
        tt := s.tt ++ [(moveToFront s.mtf index).1] } :=
  { h with
    mtf := rfl
    tt := by rw [h.tt, List.map_append]; rfl
    counts := holds
    width := (moveToFront_length lt).trans h.width
    stored := by
      have := h.stored
      rw [List.length_append, List.length_singleton]
      omega }

private theorem applySymbol_bind (header : BlockHeader) (blockSize symbol : Nat) (s : Symbols)
    (bit : Nat) :
    applySymbol header blockSize symbol s bit =
      if symbol ≤ 1 then
        if s.runBit + 1 ≥ 32 ∨ s.run + (symbol + 1) <<< s.runBit > blockSize then
          .error (decodeError bit .blockOverflow)
        else
          .ok ({ s with run := s.run + (symbol + 1) <<< s.runBit, runBit := s.runBit + 1 }, false)
      else flushRun blockSize s bit >>= fun s =>
        if symbol = header.alphabet.length + 1 then .ok (s, true)
        else if symbol - 1 ≥ s.mtf.length ∨ s.tt.length = blockSize then
          .error (decodeError bit .invalidBlock)
        else
          let (byte, mtf) := moveToFront s.mtf (symbol - 1)
          .ok ({ s with mtf, tt := s.tt ++ [byte] }, false) := by
  rw [applySymbol]
  split
  · rfl
  · cases flushRun blockSize s bit with
    | error error => rfl
    | ok s => rfl

private theorem Follows.applySymbol?_returns (h : Follows header blockSize c s) {symbol : Nat}
    (same : SameHeader checked header) (small : blockSize ≤ 900000) :
    Returns (fun found other => found.2 = other.2 ∧ Follows header blockSize found.1 other.1)
      (applySymbol? checked blockSize symbol c bit) (applySymbol header blockSize symbol s bit) := by
  rw [applySymbol?, applySymbol_bind]
  split
  case isTrue hsymbol =>
    have hshort := h.short
    have hwithin := h.within
    have hpow : 2 ^ s.runBit ≤ 2 ^ 31 := Nat.pow_le_pow_right (by decide) (by omega)
    have hdigit : (symbol + 1) * 2 ^ s.runBit ≤ 2 ^ 32 :=
      Nat.le_trans (Nat.mul_le_mul (show symbol + 1 ≤ 2 by omega) hpow) (by decide)
    have hone : symbol + 1 < 2 ^ 64 := by omega
    have hrun : s.run + (symbol + 1) * 2 ^ s.runBit < 2 ^ 64 := by omega
    have hbit : s.runBit + 1 < 2 ^ 32 := by omega
    rw [h.run, h.runBit, Nat.shiftLeft_eq]
    apply returns_step (add_of_lt hone)
    apply returns_step (shl_of_lt (by omega) (by omega))
    apply returns_step (add_of_lt hrun)
    apply returns_step (add_of_lt hbit)
    split
    case isTrue => exact returns_error _
    case isFalse hfits =>
      apply returns_ok
      refine ⟨rfl, { h with run := rfl, runBit := rfl, within := ?_, short := ?_ }⟩
      · dsimp only
        omega
      · dsimp only
        omega
  case isFalse hsymbol =>
    apply (h.flushRun?_returns same small).bind
    intro c s _ h
    rw [same.alphabet]
    split
    case isTrue => exact returns_ok ⟨rfl, h⟩
    case isFalse =>
      have hstored := h.stored
      apply returns_step (sub_of_le (by omega))
      rw [h.mtf, h.tt, List.length_map]
      split
      case isTrue => exact returns_error _
      case isFalse hroom =>
        have hlt : symbol - 1 < s.mtf.length := by omega
        obtain ⟨counts, hcounts, hholds⟩ :=
          @countByte?_eq c.counts s.tt (moveToFront s.mtf (symbol - 1)).1 1 h.counts (by omega)
        apply returns_step (moveToFront?_eq hlt)
        apply returns_step hcounts
        apply returns_ok
        rw [← h.tt]
        exact ⟨rfl, h.push (by omega) hlt hholds⟩

private theorem Follows.symbolTurn?_returns (h : Follows header blockSize c s)
    (same : SameHeader checked header) (small : blockSize ≤ 900000) :
    Returns (fun found other => found.2 = other.2 ∧ found.1.2 = other.1.2 ∧
        Follows header blockSize found.1.1 other.1.1)
      (symbolTurn? data checked blockSize c bit)
      (readSymbol data header s bit >>= fun (s, symbol, next) =>
        applySymbol header blockSize symbol s next >>= fun turned => .ok (turned, next)) := by
  apply (h.readSymbol?_returns same).bind
  rintro ⟨c, read⟩ ⟨s, _⟩ _ ⟨rfl, h⟩
  obtain ⟨symbol, next⟩ := read
  apply (Follows.applySymbol?_returns h same small).bind
  rintro ⟨c, stop⟩ ⟨s, _⟩ _ ⟨rfl, h⟩
  exact returns_ok ⟨rfl, rfl, h⟩

private theorem decodeSymbols_bind (data : List UInt8) (header : BlockHeader) (blockSize : Nat)
    (s : Symbols) (bit : Nat) :
    decodeSymbols data header blockSize s bit =
      ((readSymbol data header s bit >>= fun (s, symbol, next) =>
        applySymbol header blockSize symbol s next >>= fun turned => .ok (turned, next)) >>=
      fun ((s, stop), next) =>
        if stop then .ok (s.tt, next) else decodeSymbols data header blockSize s next) := by
  rw [decodeSymbols]
  split
  · next error hread => rw [hread]; rfl
  · next s symbol next hread =>
    rw [hread, result_bind_ok]
    dsimp only
    split
    · next error happly => rw [happly]; rfl
    · next t happly => rw [happly]; rfl
    · next t happly => rw [happly]; rfl

private theorem Follows.decodeSymbols?_returns {fuel : Nat} (h : Follows header blockSize c s)
    (same : SameHeader checked header) (small : blockSize ≤ 900000)
    (enough : data.length * 8 - bit < fuel) :
    Returns (fun found other => found.2 = other.2 ∧ found.1.tt = other.1.map UInt8.toNat ∧
        Holds found.1.counts 257 (countAbove other.1) ∧ other.1.length ≤ blockSize)
      (decodeSymbols? data checked blockSize fuel c bit)
      (decodeSymbols data header blockSize s bit) := by
  induction fuel generalizing c s bit with
  | zero => exact absurd enough (Nat.not_lt_zero _)
  | succ fuel ih =>
    rw [decodeSymbols?, decodeSymbols_bind]
    apply (h.symbolTurn?_returns same small).bind
    rintro ⟨⟨c, stop⟩, next⟩ ⟨⟨s', _⟩, _⟩ hturn ⟨rfl, rfl, h⟩
    obtain ⟨⟨read, symbol, after⟩, hread, hturn⟩ := result_bind_eq_ok.mp hturn
    obtain ⟨turned, -, hturn⟩ := result_bind_eq_ok.mp hturn
    obtain rfl : after = next := (Prod.mk.inj (Except.ok.inj hturn)).2
    have hnext := readSymbol_next hread
    cases stop with
    | true => exact returns_ok ⟨rfl, h.tt, h.counts, h.stored⟩
    | false => exact ih h (by omega)

private theorem SameHeader.follows (same : SameHeader checked header) (blockSize : Nat) :
    Follows header blockSize { mtf := checked.alphabet } { mtf := header.alphabet } where
  mtf := same.alphabet
  selector := rfl
  groupLeft := rfl
  table := rfl
  run := rfl
  runBit := rfl
  tt := rfl
  counts := (Holds.replicate 257 0).congr fun place _ => by
    cases place with
    | zero => rfl
    | succ byte => rfl
  width := rfl
  chosen := same.some_table
  stored := Nat.zero_le _
  within := Nat.zero_le _
  short := Nat.zero_lt_succ 31

end

/-- `counts[place] += counts[place - 1]`. -/
def sumCount? (counts : List Nat) (place : Nat) : Option (List Nat) := do
  let before ← sub place 1
  let smaller ← Checked.index counts before
  let count ← Checked.index counts place
  let count ← add 32 count smaller
  store counts place count

def sumCounts? (counts : List Nat) : Option (List Nat) :=
  (List.range' 1 256).foldlM sumCount? counts

/-- A turn of the loop that puts an index above the byte of each entry. -/
def linkTurn? (state : List Nat × List Nat) (index : Nat) : Option (List Nat × List Nat) := do
  let (tt, counts) := state
  let entry ← Checked.index tt index
  let byte := entry &&& 0xff
  let target ← Checked.index counts byte
  let value ← Checked.index tt target
  let link ← shl 32 (index % 2 ^ 32) 8
  let tt ← store tt target (value ||| link)
  let counts ← bump 32 counts byte
  some (tt, counts)

def linkEntries? (tt counts : List Nat) : Option (List Nat × List Nat) :=
  (List.range tt.length).foldlM linkTurn? (tt, counts)

section

variable {bytes : List UInt8} {counts tt : List Nat}

/-- `counts` when the places up to this one are added up. -/
def summedUp (bytes : List UInt8) (done place : Nat) : Nat :=
  if place ≤ done then byteStart bytes place else countAbove bytes place

private theorem byteStart_le (bytes : List UInt8) {place : Nat} (le : place ≤ 256) :
    byteStart bytes place ≤ bytes.length := by
  rw [byteStart_eq bytes le]
  exact List.countP_le_length

private theorem sumCount?_eq {done : Nat} (few : bytes.length ≤ 900000) (lt : done < 256)
    (holds : Holds counts 257 (summedUp bytes done)) :
    ∃ next, sumCount? counts (done + 1) = some next ∧
      Holds next 257 (summedUp bytes (done + 1)) := by
  have hbefore := @Holds.index _ _ _ done _ holds (by omega)
  have hvalue := @Holds.index _ _ _ (done + 1) _ holds (by omega)
  rw [summedUp, if_pos (Nat.le_refl _)] at hbefore
  rw [summedUp, if_neg (by omega), countAbove] at hvalue
  have hsum : bytes.count (UInt8.ofNat done) + byteStart bytes done =
      byteStart bytes (done + 1) := by
    rw [byteStart, Nat.add_comm]
  have hadd : bytes.count (UInt8.ofNat done) + byteStart bytes done < 2 ^ 32 := by
    have := byteStart_le bytes (show done + 1 ≤ 256 by omega)
    omega
  rw [sumCount?, bind_of_some (sub_of_le (Nat.le_add_left 1 done)), Nat.add_sub_cancel,
    bind_of_some hbefore, bind_of_some hvalue, bind_of_some (add_of_lt hadd), hsum]
  refine ⟨_, holds.store (by omega) _, (holds.set (by omega) _).congr fun place _ => ?_⟩
  by_cases heq : place = done + 1
  · rw [heq, Function.update_self, summedUp, if_pos (Nat.le_refl _)]
  · rw [Function.update_of_ne heq, summedUp, summedUp]
    by_cases hle : place ≤ done
    · rw [if_pos hle, if_pos (by omega)]
    · rw [if_neg hle, if_neg (by omega)]

private theorem sumCounts?_eq (few : bytes.length ≤ 900000)
    (holds : Holds counts 257 (countAbove bytes)) :
    ∃ next, sumCounts? counts = some next ∧ Holds next 257 (byteStart bytes) := by
  obtain ⟨next, hnext, hsummed⟩ : ∃ next, sumCounts? counts = some next ∧
      Holds next 257 (summedUp bytes (List.range' 1 256).length) := by
    apply @foldlM_done _ _ _ fun done counts => Holds counts 257 (summedUp bytes done.length)
    · apply holds.congr
      intro place _
      cases place with
      | zero => rfl
      | succ place => rfl
    · intro done place rest hsplit counts hholds
      obtain ⟨rfl, hlt⟩ := range'_split hsplit
      rw [List.length_append, List.length_singleton, Nat.add_comm 1]
      exact sumCount?_eq few hlt hholds
  refine ⟨next, hnext, hsummed.congr fun place hplace => ?_⟩
  rw [List.length_range', summedUp, if_pos (Nat.le_of_lt_succ hplace)]

private theorem linkTarget_eq (bytes : List UInt8) (index : Nat) :
    linkTarget bytes index = byteStart bytes (bytes.getD index 0).toNat +
      (bytes.take index).count (bytes.getD index 0) := by
  have hless : bytes.countP (fun other => decide (other < bytes.getD index 0)) =
      bytes.countP fun other => decide (other.toNat < (bytes.getD index 0).toNat) :=
    List.countP_congr fun other _ => by simp [UInt8.lt_iff_toNat_lt]
  rw [linkTarget, byteStart_eq bytes (Nat.le_of_lt (bytes.getD index 0).toNat_lt), hless]

/-- `counts` when the indexes below `done` are linked. -/
structure LinkCounts (bytes : List UInt8) (done : Nat) (counts : List Nat) : Prop where
  size : counts.length = 257
  get : ∀ byte : UInt8, counts[byte.toNat]? =
    some (byteStart bytes byte.toNat + (bytes.take done).count byte)

private theorem LinkCounts.begin (h : Holds counts 257 (byteStart bytes)) :
    LinkCounts bytes 0 counts where
  size := h.length
  get := fun byte => by
    have := byte.toNat_lt
    rw [h.get byte.toNat (by omega), List.take_zero, List.count_nil, Nat.add_zero]

private theorem LinkCounts.step {done : Nat} (h : LinkCounts bytes done counts)
    (lt : done < bytes.length) :
    LinkCounts bytes (done + 1)
      (counts.set (bytes.getD done 0).toNat (linkTarget bytes done + 1)) where
  size := by rw [List.length_set, h.size]
  get := fun byte => by
    have hlt := (bytes.getD done 0).toNat_lt
    have htake : bytes.take (done + 1) = bytes.take done ++ [bytes.getD done 0] := by
      rw [List.take_add_one, List.getElem?_eq_getElem lt, List.getD_eq_getElem _ _ lt]
      rfl
    rw [htake, List.count_append]
    by_cases heq : byte = bytes.getD done 0
    · rw [heq, List.getElem?_set_self (by rw [h.size]; omega), List.count_singleton_self,
        linkTarget_eq, Nat.add_assoc]
    · have hne : (bytes.getD done 0).toNat ≠ byte.toNat := fun hsame =>
        heq (UInt8.toNat_inj.mp hsame).symm
      rw [List.getElem?_set_ne hne, h.get, List.count_singleton, if_neg (by simpa using Ne.symm heq),
        Nat.add_zero]

private theorem linkTurn?_eq {done : Nat} (few : bytes.length ≤ 900000) (lt : done < bytes.length)
    (linked : Linked bytes done tt) (counted : LinkCounts bytes done counts) :
    ∃ tt' counts', linkTurn? (tt, counts) done = some (tt', counts') ∧
      Linked bytes (done + 1) tt' ∧ LinkCounts bytes (done + 1) counts' := by
  have hbyte := linked.byte done lt
  have htarget := linkTarget_lt lt
  have hget {p : Nat} (hp : p < bytes.length) : Checked.index tt p = some (tt.getD p 0) := by
    rw [Checked.index, List.getD_eq_getElem?_getD, List.getElem?_eq_getElem (linked.length ▸ hp)]
    rfl
  have hmask : tt.getD done 0 &&& 0xff = (bytes.getD done 0).toNat := by
    rw [← hbyte]
    exact Nat.and_two_pow_sub_one_eq_mod _ 8
  have hcount : counts[(bytes.getD done 0).toNat]? = some (linkTarget bytes done) := by
    rw [counted.get, linkTarget_eq]
  have hindex : done % 2 ^ 32 = done := Nat.mod_eq_of_lt (by omega)
  have hlink : done * 2 ^ 8 < 2 ^ 32 := by omega
  have hroom : linkTarget bytes done + 1 < 2 ^ 32 := by omega
  rw [linkTurn?, bind_of_some (hget lt)]
  dsimp only
  rw [hmask, hindex, bind_of_some (show Checked.index counts _ = some _ from hcount),
    bind_of_some (hget htarget), bind_of_some (shl_of_lt (by decide) hlink),
    bind_of_some (store_of_lt (linked.length ▸ htarget) _),
    bind_of_some (bump_of_lt hcount hroom), ← Nat.shiftLeft_eq]
  exact ⟨_, _, rfl, linked.step lt, counted.step lt⟩

private theorem linkEntries?_eq (few : bytes.length ≤ 900000)
    (holds : Holds counts 257 (byteStart bytes)) :
    ∃ tt counts', linkEntries? (bytes.map UInt8.toNat) counts = some (tt, counts') ∧
      Linked bytes bytes.length tt := by
  obtain ⟨⟨tt, counts'⟩, hloop, hlinked, -⟩ : ∃ state,
      linkEntries? (bytes.map UInt8.toNat) counts = some state ∧
        Linked bytes (List.range (bytes.map UInt8.toNat).length).length state.1 ∧
        LinkCounts bytes (List.range (bytes.map UInt8.toNat).length).length state.2 := by
    apply @foldlM_done _ _ _ fun (done : List Nat) (state : List Nat × List Nat) =>
      Linked bytes done.length state.1 ∧ LinkCounts bytes done.length state.2
    · exact ⟨linked_start bytes, .begin holds⟩
    · rintro done index rest hsplit ⟨tt, counts⟩ ⟨hlinked, hcounted⟩
      rw [List.range_eq_range', List.length_map] at hsplit
      obtain ⟨rfl, hlt⟩ := range'_split hsplit
      rw [Nat.zero_add, List.length_append, List.length_singleton]
      obtain ⟨tt', counts', hstep, hnext⟩ := linkTurn?_eq few hlt hlinked hcounted
      exact ⟨(tt', counts'), hstep, hnext⟩
  rw [List.length_range, List.length_map] at hlinked
  exact ⟨tt, counts', hloop, hlinked⟩

private theorem Linked.entry (h : Linked bytes bytes.length tt) {p : Nat} (lt : p < bytes.length) :
    tt.getD p 0 / 256 < bytes.length ∧ linkTarget bytes (tt.getD p 0 / 256) = p := by
  let follow (index : Fin bytes.length) : Fin bytes.length :=
    ⟨linkTarget bytes index, linkTarget_lt index.isLt⟩
  have hinjective : Function.Injective follow := by
    intro index other hsame
    have hsame : linkTarget bytes index = linkTarget bytes other := Fin.mk.inj hsame
    rcases Nat.lt_trichotomy index other with hlt | heq | hgt
    · exact absurd hsame (linkTarget_ne hlt other.isLt)
    · exact Fin.ext heq
    · exact absurd hsame.symm (linkTarget_ne hgt index.isLt)
  obtain ⟨index, hindex⟩ := Finite.injective_iff_surjective.mp hinjective ⟨p, lt⟩
  have htarget : linkTarget bytes index = p := congrArg Fin.val hindex
  have hlink := h.link index index.isLt
  rw [htarget] at hlink
  rw [hlink]
  exact ⟨index.isLt, htarget⟩

private theorem Linked.perm (h : Linked bytes bytes.length tt) :
    (tt.map (· >>> 8)).Perm (List.range bytes.length) := by
  have hget {p : Nat} (lt : p < tt.length) : tt[p] >>> 8 = tt.getD p 0 / 256 := by
    rw [List.getD_eq_getElem _ _ lt, Nat.shiftRight_eq_div_pow]
  apply (List.perm_ext_iff_of_nodup ?_ List.nodup_range).mpr
  · intro link
    rw [List.mem_range]
    constructor
    · intro hmem
      obtain ⟨entry, hentry, rfl⟩ := List.mem_map.mp hmem
      obtain ⟨p, hp, rfl⟩ := List.mem_iff_getElem.mp hentry
      rw [hget hp]
      exact (h.entry (h.length ▸ hp)).1
    · intro hlt
      have htarget := linkTarget_lt hlt
      apply List.mem_map.mpr
      refine ⟨_, List.getElem_mem (h.length.symm ▸ htarget), ?_⟩
      rw [hget, h.link link hlt]
  · rw [List.nodup_iff_injective_get]
    intro p q hsame
    have hp : p.val < tt.length := by simpa using p.isLt
    have hq : q.val < tt.length := by simpa using q.isLt
    have hsame : tt[p.val] >>> 8 = tt[q.val] >>> 8 := by simpa using hsame
    rw [hget hp, hget hq] at hsame
    have hp := (h.entry (h.length ▸ hp)).2
    rw [hsame] at hp
    exact Fin.ext (hp.symm.trans (h.entry (h.length ▸ hq)).2)

private theorem Linked.unique {other : List Nat} (h : Linked bytes bytes.length tt)
    (h' : Linked bytes bytes.length other) : tt = other := by
  apply List.ext_getElem (h.length.trans h'.length.symm)
  intro p hp hp'
  have hlt : p < bytes.length := h.length ▸ hp
  have hbyte := (h.byte p hlt).trans (h'.byte p hlt).symm
  obtain ⟨hindex, htarget⟩ := h.entry hlt
  have hlink := h'.link _ hindex
  rw [htarget] at hlink
  rw [List.getD_eq_getElem _ _ hp] at hbyte hlink
  rw [List.getD_eq_getElem _ _ hp'] at hbyte hlink
  omega

end

/-- `previous.unwrap()` panics when there is none. -/
def expandByte? (maxOutput blockOffset : Nat) (x : Expansion) (byte : UInt8) :
    Program Error Expansion :=
  if x.repeated = 4 then do
    let stored ← add 64 x.output.length byte.toNat
    if stored > maxOutput then throw (decodeError blockOffset .blockOverflow)
    else do
      let previous ← (x.previous : Option UInt8)
      return ⟨x.output ++ List.replicate byte.toNat previous, none, 0⟩
  else if x.output.length = maxOutput then throw (decodeError blockOffset .blockOverflow)
  else if x.previous = some byte then do
    let repeated ← add 8 x.repeated 1
    return ⟨x.output ++ [byte], x.previous, repeated⟩
  else return ⟨x.output ++ [byte], some byte, 1⟩

/-- The loop along the links. -/
def expandEntries? (tt : List Nat) (maxOutput blockOffset : Nat) :
    Nat → Nat → Expansion → Program Error Expansion
  | 0, _, x => return x
  | count + 1, position, x => do
    let entry ← (Checked.index tt position : Option Nat)
    let position ← shr 32 entry 8
    let x ← expandByte? maxOutput blockOffset x (UInt8.ofNat entry)
    expandEntries? tt maxOutput blockOffset count position x

/-- A run that was met has a byte. -/
structure RunKnown (maxOutput : Nat) (x : Expansion) : Prop where
  repeated : x.repeated ≤ 4
  previous : x.repeated ≠ 0 → ∃ byte, x.previous = some byte
  fits : x.output.length ≤ maxOutput

section

variable {maxOutput blockOffset : Nat} {x : Expansion} {bytes : List UInt8} {tt : List Nat}

private theorem runKnown_start (maxOutput : Nat) : RunKnown maxOutput {} where
  repeated := Nat.zero_le 4
  previous := fun h => absurd rfl h
  fits := Nat.zero_le maxOutput

private theorem RunKnown.expandByte?_returns (h : RunKnown maxOutput x) (small : maxOutput < 2 ^ 63)
    (byte : UInt8) :
    Returns (fun next other => next = other ∧ RunKnown maxOutput next)
      (expandByte? maxOutput blockOffset x byte) (expandByte maxOutput blockOffset x byte) := by
  have hbyte := byte.toNat_lt
  have hfits := h.fits
  have hrepeated := h.repeated
  rw [expandByte?, expandByte]
  split
  case isTrue hfour =>
    have hadd : x.output.length + byte.toNat < 2 ^ 64 := by omega
    apply returns_step (add_of_lt hadd)
    split
    case isTrue => exact returns_error _
    case isFalse hroom =>
      obtain ⟨previous, hprevious⟩ := h.previous (by omega)
      apply returns_step hprevious
      rw [hprevious]
      apply returns_ok
      refine ⟨rfl, Nat.zero_le 4, fun hzero => absurd rfl hzero, ?_⟩
      rw [List.length_append, List.length_replicate]
      omega
  case isFalse hfour =>
    split
    case isTrue => exact returns_error _
    case isFalse hroom =>
      have hlength : (x.output ++ [byte]).length ≤ maxOutput := by
        rw [List.length_append, List.length_singleton]
        omega
      split
      case isTrue hsame =>
        have hadd : x.repeated + 1 < 2 ^ 8 := by omega
        apply returns_step (add_of_lt hadd)
        rw [hsame]
        apply returns_ok
        exact ⟨rfl, by dsimp only; omega, fun _ => ⟨byte, rfl⟩, hlength⟩
      case isFalse hother =>
        apply returns_ok
        exact ⟨rfl, Nat.succ_le_succ (Nat.zero_le 3), fun _ => ⟨byte, rfl⟩, hlength⟩

private theorem RunKnown.expandEntries?_returns {count position : Nat} (h : RunKnown maxOutput x)
    (small : maxOutput < 2 ^ 63) (linked : Linked bytes bytes.length tt)
    (lt : position < bytes.length) :
    Returns (fun next output => next.output = output)
      (expandEntries? tt maxOutput blockOffset count position x)
      (expandBytes maxOutput blockOffset x (walk tt count position)) := by
  induction count generalizing position x with
  | zero => exact returns_ok rfl
  | succ count ih =>
    have hentry : Checked.index tt position = some (tt.getD position 0) := by
      have hlt : position < tt.length := linked.length.symm ▸ lt
      rw [Checked.index, List.getD_eq_getElem _ _ hlt, List.getElem?_eq_getElem hlt]
    have hnext := (linked.entry lt).1
    rw [expandEntries?, walk, expandBytes]
    apply returns_step hentry
    apply returns_step (shr_of_lt (by decide))
    apply (h.expandByte?_returns small _).bind
    rintro x _ _ ⟨rfl, hknown⟩
    apply ih hknown
    rw [Nat.shiftRight_eq_div_pow]
    exact hnext

end

/-- `Decoder::block`, entered behind the magic. -/
def block? (data : List UInt8) (bit level : Nat) (expectedCrc : Option UInt32) :
    Program Error (DecodedBlock × Nat) := do
  let blockOffset := bit - 48
  let (header, bit) ← readHeader? data blockOffset expectedCrc bit
  let blockSize ← mul 64 level 100000
  let (s, bit) ← decodeSymbols? data header blockSize (data.length * 8 + 1)
    { mtf := header.alphabet } bit
  let blockLen := s.tt.length
  liftM (ensure (blockLen ≠ 0 ∧ header.origin < blockLen) (decodeError blockOffset .invalidBlock))
  let counts ← (sumCounts? s.counts : Option (List Nat))
  let (tt, _) ← (linkEntries? s.tt counts : Option (List Nat × List Nat))
  let maxOutput ← mul 64 (blockSize / 5) 259
  let maxOutput ← add 64 maxOutput 4
  let first ← (Checked.index tt header.origin : Option Nat)
  let position ← shr 32 first 8
  let x ← expandEntries? tt maxOutput blockOffset blockLen position {}
  liftM (ensure (bz2Crc32 x.output = header.storedCrc) (decodeError blockOffset .crcMismatch))
  return (⟨x.output, header.storedCrc, blockLen⟩, bit)

private theorem maxOutput_lt {blockSize : Nat} (le : blockSize ≤ 900000) :
    blockSize / 5 * 259 + 4 < 2 ^ 63 := by
  have hbound : blockSize / 5 * 259 + 4 ≤ 46620004 := by omega
  exact Nat.lt_of_le_of_lt hbound (by decide)

private theorem block?_returns (data : List UInt8) (bit : Nat) {level : Nat} (le : level ≤ 9)
    (expectedCrc : Option UInt32) :
    Returns Eq (block? data bit level expectedCrc) (decoderBlock data bit level expectedCrc) := by
  have hsize : level * 100000 ≤ 900000 := by omega
  have hlevel : level * 100000 < 2 ^ 64 := Nat.lt_of_le_of_lt hsize (by decide)
  have hmax := maxOutput_lt hsize
  have hadd : level * 100000 / 5 * 259 + 4 < 2 ^ 64 := Nat.lt_trans hmax (by decide)
  have hmul : level * 100000 / 5 * 259 < 2 ^ 64 := Nat.lt_of_le_of_lt (Nat.le_add_right _ 4) hadd
  rw [block?, decoderBlock]
  apply (readHeader?_returns data (bit - 48) expectedCrc bit).bind
  rintro ⟨checked, next⟩ ⟨header, _⟩ _ ⟨rfl, same⟩
  apply returns_step (mul_of_lt hlevel)
  apply ((same.follows (level * 100000)).decodeSymbols?_returns same hsize (by omega)).bind
  rintro ⟨s, stop⟩ ⟨bytes, _⟩ _ ⟨rfl, htt, hcounts, hfits⟩
  have hfits : bytes.length ≤ level * 100000 := hfits
  have hlength : s.tt.length = bytes.length := by rw [htt, List.length_map]
  have horigin : checked.origin = header.origin := same.origin
  dsimp only
  rw [hlength, horigin]
  apply (returns_check _).bind
  intro _ _ hensure _
  obtain ⟨hne, hlt⟩ := ensure_eq_ok.mp hensure
  obtain ⟨counts, hsum, hstart⟩ := @sumCounts?_eq bytes s.counts (hfits.trans hsize) hcounts
  obtain ⟨tt, counts', hlinks, hlinked⟩ := @linkEntries?_eq bytes counts (hfits.trans hsize) hstart
  rw [← htt] at hlinks
  have hsame := hlinked.unique (linkEntries_linked bytes)
  have hfirst : Checked.index tt header.origin = some (tt.getD header.origin 0) := by
    have hinside : header.origin < tt.length := hlinked.length.symm ▸ hlt
    rw [Checked.index, List.getD_eq_getElem _ _ hinside, List.getElem?_eq_getElem hinside]
  have hoffset : tt.getD header.origin 0 >>> 8 < bytes.length := by
    rw [Nat.shiftRight_eq_div_pow]
    exact (hlinked.entry hlt).1
  apply returns_step hsum
  apply returns_step hlinks
  apply returns_step (mul_of_lt hmul)
  apply returns_step (add_of_lt hadd)
  apply returns_step hfirst
  apply returns_step (shr_of_lt (by decide))
  rw [inverseTransform, ← hsame]
  dsimp only
  apply ((runKnown_start _).expandEntries?_returns hmax hlinked hoffset).bind
  rintro x _ _ rfl
  rw [same.storedCrc]
  apply (returns_check _).bind
  intro _ _ _ _
  exact returns_ok rfl

/-- A turn of the symbol loop that returned, from a state that is not the last. -/
def SymbolTurn (data : List UInt8) (header : CheckedHeader) (blockSize : Nat)
    (before after : (CheckedSymbols × Bool) × Nat) : Prop :=
  before.1.2 = false ∧
    (symbolTurn? data header blockSize before.1.1 before.2).run = some (.ok after)

/-- The position an entry leads to. -/
def follow (tt : List Nat) (position : Nat) : Nat := tt.getD position 0 >>> 8

/-- A turn of the expansion loop that returned. -/
def ExpandTurn (maxOutput blockOffset : Nat) (before after : Expansion) : Prop :=
  ∃ byte, (expandByte? maxOutput blockOffset before byte).run = some (.ok after)

section

open Relation

variable {data : List UInt8} {blockSize maxOutput blockOffset bit : Nat} {checked : CheckedHeader}
  {header : BlockHeader}

private theorem SameHeader.turns {state : (CheckedSymbols × Bool) × Nat}
    (same : SameHeader checked header) (small : blockSize ≤ 900000)
    (run : ReflTransGen (SymbolTurn data checked blockSize)
      (({ mtf := checked.alphabet }, false), bit) state) :
    ∃ s, Follows header blockSize state.1.1 s := by
  induction run with
  | refl => exact ⟨_, same.follows blockSize⟩
  | tail _ turn ih =>
    obtain ⟨s, hfollows⟩ := ih
    obtain ⟨other, -, -, -, hnext⟩ :=
      (hfollows.symbolTurn?_returns same small).exists_ok turn.2
    exact ⟨_, hnext⟩

private theorem Linked.follow_lt {bytes : List UInt8} {tt : List Nat} {position : Nat}
    (h : Linked bytes bytes.length tt) (lt : position < bytes.length) (count : Nat) :
    (follow tt)^[count] position < bytes.length := by
  induction count with
  | zero => exact lt
  | succ count ih =>
    rw [Function.iterate_succ_apply', follow, Nat.shiftRight_eq_div_pow]
    exact (h.entry ih).1

private theorem runKnown_turns {x : Expansion} (small : maxOutput < 2 ^ 63)
    (run : ReflTransGen (ExpandTurn maxOutput blockOffset) {} x) : RunKnown maxOutput x := by
  induction run with
  | refl => exact runKnown_start maxOutput
  | tail _ turn ih =>
    obtain ⟨byte, hturn⟩ := turn
    obtain ⟨_, -, -, hnext⟩ := (ih.expandByte?_returns small byte).exists_ok hturn
    exact hnext

/-- A block returns for any data, position and checksum, with no index out of range and no
overflow, and what it returns is the block of the model without checks. The symbol loop stores no
more than a block, the links are a permutation that is never left, and a run is repeated only when
there is a byte. -/
theorem block_safe (data : List UInt8) (bit level : Nat) (expectedCrc : Option UInt32)
    (valid : 1 ≤ level ∧ level ≤ 9) :
    (block? data bit level expectedCrc).run = some (decoderBlock data bit level expectedCrc) ∧
      (∀ header start, (readHeader? data (bit - 48) expectedCrc bit).run =
          some (.ok (header, start)) →
        (∀ state, ReflTransGen (SymbolTurn data header (level * 100000))
            (({ mtf := header.alphabet }, false), start) state →
          state.1.1.tt.length ≤ level * 100000) ∧
        ∀ s next, (decodeSymbols? data header (level * 100000) (data.length * 8 + 1)
            { mtf := header.alphabet } start).run = some (.ok (s, next)) →
          ∃ counts tt last, sumCounts? s.counts = some counts ∧
            linkEntries? s.tt counts = some (tt, last) ∧
            (tt.map (· >>> 8)).Perm (List.range s.tt.length) ∧
            ∀ origin < s.tt.length, ∀ count, (follow tt)^[count] origin < s.tt.length) ∧
      ∀ x, ReflTransGen (ExpandTurn (level * 100000 / 5 * 259 + 4) (bit - 48)) {} x →
        x.repeated = 4 → ∃ byte, x.previous = some byte := by
  have hsize : level * 100000 ≤ 900000 := by omega
  refine ⟨(block?_returns data bit valid.2 expectedCrc).run_eq, ?_, ?_⟩
  · intro header start hheader
    obtain ⟨⟨other, _⟩, -, rfl, same⟩ :=
      (readHeader?_returns data (bit - 48) expectedCrc bit).exists_ok hheader
    constructor
    · intro state hrun
      obtain ⟨s, hfollows⟩ := same.turns hsize hrun
      rw [hfollows.tt, List.length_map]
      exact hfollows.stored
    · intro s next hsymbols
      have hreturns := (same.follows (level * 100000)).decodeSymbols?_returns same hsize
        (Nat.lt_succ_of_le (Nat.sub_le (data.length * 8) start))
      obtain ⟨⟨bytes, _⟩, -, -, htt, hcounts, hfits⟩ := hreturns.exists_ok hsymbols
      have htt : s.tt = bytes.map UInt8.toNat := htt
      obtain ⟨counts, hsum, hstart⟩ := sumCounts?_eq (hfits.trans hsize) hcounts
      obtain ⟨tt, last, hlinks, hlinked⟩ := linkEntries?_eq (hfits.trans hsize) hstart
      rw [htt, List.length_map]
      exact ⟨counts, tt, last, hsum, hlinks, hlinked.perm,
        fun origin hlt count => hlinked.follow_lt hlt count⟩
  · intro x hrun hfour
    exact (runKnown_turns (maxOutput_lt hsize) hrun).previous (by omega)

/-- The block of the letter's file, up to the end marker. -/
theorem block_safe_letter :
    (block? Index.letter 80 9 (some 429103979)).run =
      some (.ok (⟨[97], 429103979, 1⟩, 211)) :=
  (block_safe Index.letter 80 9 (some 429103979) ⟨by decide, by decide⟩).1.trans
    (congrArg some (by decide +kernel))

end

end Fbz.Bzip2
