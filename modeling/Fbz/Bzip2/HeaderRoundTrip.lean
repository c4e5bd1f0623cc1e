import Fbz.Bzip2.Encode
import Fbz.Bzip2.Locality
import Fbz.Bzip2.ReadBits
import Mathlib.Algebra.BigOperators.Ring.List

/-!
# Round trip of the header of a block

The map of the bytes in use, the selectors and the tables are strings of bits. The writer appends
them, and the reader reads from them what they were made of.
-/

namespace Fbz.Bzip2

open BitOrder

/-- These bits have been written. -/
structure BitWriter.Wrote (w : BitWriter) (bits : List Bool) : Prop where
  wf : w.Wf
  bits : w.bits = bits

namespace BitWriter.Wrote

variable {w : BitWriter} {bits : List Bool}

theorem empty : Wrote {} [] := ⟨wf_empty, bits_empty⟩

theorem writeBits (h : w.Wrote bits) (n val : Nat) :
    (w.writeBits n val).Wrote (bits ++ bitsOf n val) :=
  ⟨writeBits_wf w n val, by rw [writeBits_bits, h.bits]⟩

theorem writeMagic (h : w.Wrote bits) (magic : Nat) :
    (w.writeMagic magic).Wrote (bits ++ bitsOf 48 magic) :=
  ⟨writeBits_wf _ 24 _, by rw [writeMagic_bits, h.bits]⟩

theorem foldl {α : Type} {f : BitWriter → α → BitWriter} {g : α → List Bool} {xs : List α}
    (h : w.Wrote bits)
    (step : ∀ x ∈ xs, ∀ w bits, BitWriter.Wrote w bits → (f w x).Wrote (bits ++ g x)) :
    (xs.foldl f w).Wrote (bits ++ xs.flatMap g) := by
  induction xs generalizing w bits with
  | nil => simpa using h
  | cons x xs ih =>
    rw [List.foldl_cons, List.flatMap_cons, ← List.append_assoc]
    apply ih (step x List.mem_cons_self w bits h)
    intro y hy
    exact step y (List.mem_cons_of_mem x hy)

private theorem repeat_piece {f : BitWriter → BitWriter} {piece : List Bool} (count : Nat)
    (h : w.Wrote bits) (step : ∀ w bits, BitWriter.Wrote w bits → (f w).Wrote (bits ++ piece)) :
    (Nat.repeat f count w).Wrote (bits ++ (List.replicate count piece).flatten) := by
  induction count with
  | zero => simpa [Nat.repeat] using h
  | succ count ih =>
    have hmore := step _ _ ih
    rwa [List.append_assoc, ← List.flatten_concat, ← List.replicate_succ'] at hmore

end BitWriter.Wrote

private theorem sum_flags (flag : Nat → Bool) (count : Nat) :
    ((List.range count).map fun i => if flag i then 1 <<< (count - 1 - i) else 0).sum =
      highFirst flag 0 count := by
  induction count with
  | zero => rfl
  | succ count ih =>
    have hdouble : (List.range count).map (fun i => if flag i then 1 <<< (count + 1 - 1 - i) else 0) =
        (List.range count).map
          fun i => 2 * if flag i then 1 <<< (count - 1 - i) else 0 := by
      apply List.map_congr_left
      intro i hi
      have hlt := List.mem_range.mp hi
      have hshift : (1 : Nat) <<< (count + 1 - 1 - i) = 2 * 1 <<< (count - 1 - i) := by
        rw [show count + 1 - 1 - i = count - 1 - i + 1 by omega, Nat.shiftLeft_eq, Nat.shiftLeft_eq,
          Nat.pow_succ]
        omega
      rw [hshift]
      split <;> rfl
    rw [List.range_succ, List.map_append, List.sum_append, hdouble, List.sum_map_mul_left, ih,
      highFirst, Nat.zero_add]
    cases hflag : flag count <;> simp [hflag]

private theorem flagBits_eq (flag : Nat → Bool) :
    flagBits flag = highFirst flag 0 16 := sum_flags flag 16

theorem flagBits_lt (flag : Nat → Bool) : flagBits flag < 2 ^ 16 := by
  rw [flagBits_eq]
  exact highFirst_lt flag 0 16

private theorem highFirst_getBit (flag : Nat → Bool) {count i : Nat} (lt : i < count) :
    (highFirst flag 0 count).testBit (count - 1 - i) = flag i := by
  induction count with
  | zero => cases lt
  | succ count ih =>
    rw [highFirst, Nat.zero_add, ← Nat.bit_val]
    rcases Nat.lt_or_eq_of_le (Nat.le_of_lt_succ lt) with hlt | heq
    · rw [show count + 1 - 1 - i = count - 1 - i + 1 by omega, Nat.testBit_bit_succ, ih hlt]
    · subst heq
      rw [show i + 1 - 1 - i = 0 by omega, Nat.testBit_bit_zero]

theorem flagBits_testBit (flag : Nat → Bool) {i : Nat} (lt : i < 16) :
    (flagBits flag).testBit (15 - i) = flag i := by
  rw [flagBits_eq]
  exact highFirst_getBit flag lt

section Alphabet

variable {data : List UInt8} {bit : Nat} {rest : List Bool}

theorem Rests.reads {count value : Nat} (h : Rests data bit (bitsOf count value ++ rest))
    (lt : value < 2 ^ count) (few : count ≤ 32) :
    Bits.read data bit count = .ok (value, bit + count) ∧ Rests data (bit + count) rest :=
  ⟨h.read lt few, h.after_read⟩

/-- The sixteen bytes of a group. -/
def groupFlags (used : Nat → Bool) (group : Nat) : Nat :=
  flagBits fun value => used (16 * group + value)

def groupUsed (used : Nat → Bool) (group : Nat) : Bool :=
  (List.range 16).any fun value => used (16 * group + value)

/-- The bytes of a group that are in use. -/
def groupBytes (used : Nat → Bool) (group : Nat) : List UInt8 :=
  ((List.range 16).map (16 * group + ·)).filterMap fun value =>
    if used value then some (UInt8.ofNat value) else none

private theorem groupValues_flags (used : Nat → Bool) (group : Nat) :
    groupValues (groupFlags used group) group = groupBytes used group := by
  rw [groupValues, groupBytes, List.filterMap_map]
  apply List.filterMap_congr
  intro value hvalue
  rw [groupFlags, flagBits_testBit _ (List.mem_range.mp hvalue), Nat.mul_comm group]
  rfl

private theorem groupBytes_unused {used : Nat → Bool} {group : Nat}
    (none : groupUsed used group = false) : groupBytes used group = [] := by
  rw [groupBytes, List.filterMap_eq_nil_iff]
  intro value hvalue
  obtain ⟨low, hlow, rfl⟩ := List.mem_map.mp hvalue
  have hunused := List.any_eq_false.mp none low hlow
  rw [if_neg hunused]

/-- The words of the groups in use. -/
def groupsBits (used : Nat → Bool) (groups : List Nat) : List Bool :=
  (groups.filter (groupUsed used)).flatMap fun group => bitsOf 16 (groupFlags used group)

theorem readAlphabet_written {used : Nat → Bool} {word : Nat} {groups : List Nat}
    (flags : ∀ group ∈ groups, word.testBit (15 - group) = groupUsed used group)
    (h : Rests data bit (groupsBits used groups ++ rest)) :
    ∃ next, readAlphabet data word groups bit = .ok (groups.flatMap (groupBytes used), next) ∧
      Rests data next rest := by
  induction groups generalizing bit with
  | nil => exact ⟨bit, rfl, h⟩
  | cons group groups ih =>
    obtain ⟨hflag, hflags⟩ := List.forall_mem_cons.mp flags
    cases hused : groupUsed used group with
    | true =>
      rw [groupsBits, List.filter_cons, if_pos hused, List.flatMap_cons, List.append_assoc] at h
      obtain ⟨hread, hbehind⟩ := h.reads (flagBits_lt _) (by decide)
      obtain ⟨next, halphabet, hrest⟩ := ih hflags hbehind
      refine ⟨next, ?_, hrest⟩
      rw [readAlphabet, hflag, hused, if_pos rfl, hread, result_bind_ok]
      dsimp only
      rw [halphabet, result_bind_ok, groupValues_flags]
      rfl
    | false =>
      have hnone : ¬ groupUsed used group = true := by simp [hused]
      rw [groupsBits, List.filter_cons, if_neg hnone] at h
      obtain ⟨next, halphabet, hrest⟩ := ih hflags h
      refine ⟨next, ?_, hrest⟩
      rw [readAlphabet, hflag, if_neg hnone, halphabet, List.flatMap_cons, groupBytes_unused hused]
      rfl

theorem flatMap_groupBytes (used : Nat → Bool) : (List.range 16).flatMap (groupBytes used) =
    (List.range 256).filterMap fun value => if used value then some (UInt8.ofNat value) else none := by
  have hall : List.range 256 = (List.range 16).flatMap fun group =>
      (List.range 16).map (16 * group + ·) := by decide +kernel
  rw [hall, List.filterMap_flatMap]
  rfl

/-- Whether a byte is in use. -/
def usedBy (inUse : List UInt8) (value : Nat) : Bool := inUse.contains (UInt8.ofNat value)

theorem filterMap_usedBy (block : List UInt8) :
    ((List.range 256).filterMap fun value =>
      if usedBy (Mtf.inUse block) value then some (UInt8.ofNat value) else none) =
        Mtf.inUse block := by
  have hmap : ((List.range 256).filterMap fun value =>
      if usedBy (Mtf.inUse block) value then some (UInt8.ofNat value) else none) =
        ((List.range 256).map UInt8.ofNat).filter fun byte => (Mtf.inUse block).contains byte := by
    rw [← List.filterMap_eq_filter, List.filterMap_map]
    apply List.filterMap_congr
    intro value _
    show _ = Option.guard _ (UInt8.ofNat value)
    rw [Option.guard]
    rfl
  rw [hmap]
  conv_rhs => rw [Mtf.inUse]
  apply List.filter_congr
  intro byte hbyte
  apply Bool.eq_iff_iff.mpr
  rw [List.contains_iff_mem, Mtf.inUse, List.mem_filter]
  exact and_iff_right hbyte

def symbolMapBits (inUse : List UInt8) : List Bool :=
  bitsOf 16 (flagBits (groupUsed (usedBy inUse))) ++ groupsBits (usedBy inUse) (List.range 16)

theorem BitWriter.Wrote.writeSymbolMap {w : BitWriter} {bits : List Bool} (h : w.Wrote bits)
    (inUse : List UInt8) : (Bzip2.writeSymbolMap w inUse).Wrote (bits ++ symbolMapBits inUse) := by
  have hgroups := @foldl _ _ _ (fun w group => w.writeBits 16 (groupFlags (usedBy inUse) group))
    (fun group => bitsOf 16 (groupFlags (usedBy inUse) group))
    ((List.range 16).filter (groupUsed (usedBy inUse)))
    (h.writeBits 16 (flagBits (groupUsed (usedBy inUse))))
    fun group _ w bits hw => hw.writeBits 16 _
  rw [List.append_assoc] at hgroups
  exact hgroups

end Alphabet

private theorem moveToFront_idxOf {list : List Nat} {value : Nat} (mem : value ∈ list) :
    moveToFront list (list.idxOf value) = (value, value :: list.erase value) := by
  have hlt := List.idxOf_lt_length_iff.mpr mem
  have hvalue : list.getD (list.idxOf value) default = value := by
    rw [List.getD_eq_getElem _ _ hlt, List.getElem_idxOf]
  rw [moveToFront, hvalue, List.eraseIdx_idxOf_eq_erase]

private theorem mem_moved {list : List Nat} {value other : Nat} (mem : other ∈ list) :
    other ∈ value :: list.erase value := by
  by_cases heq : other = value
  · exact heq ▸ List.mem_cons_self
  · exact List.mem_cons_of_mem _ ((List.mem_erase_of_ne heq).mpr mem)

private theorem moved_length {list : List Nat} {value : Nat} (mem : value ∈ list) :
    (value :: list.erase value).length = list.length := by
  have hpos := List.length_pos_of_mem mem
  rw [List.length_cons, List.length_erase_of_mem mem]
  omega

/-- The index of each selector in unary, in the list that has the last ones in front. -/
def selectorsBits : List Nat → List Nat → List Bool
  | _, [] => []
  | pos, selector :: selectors =>
    List.replicate (pos.idxOf selector) true ++
      false :: selectorsBits (selector :: pos.erase selector) selectors

section Selectors

variable {data : List UInt8} {bit : Nat} {rest : List Bool} {pos selectors : List Nat}

theorem BitWriter.Wrote.writeSelectors {w : BitWriter} {bits : List Bool} (h : w.Wrote bits)
    (known : ∀ selector ∈ selectors, selector ∈ pos) :
    (selectors.foldl Coding.writeSelector (w, pos)).1.Wrote
      (bits ++ selectorsBits pos selectors) := by
  induction selectors generalizing w bits pos with
  | nil => simpa [selectorsBits] using h
  | cons selector selectors ih =>
    obtain ⟨hfirst, hknown⟩ := List.forall_mem_cons.mp known
    have hones := @repeat_piece w bits (·.writeBit 1) [true] (pos.idxOf selector) h
      fun w bits hw => hw.writeBits 1 1
    have hzero := hones.writeBits 1 0
    have hmore := ih hzero (fun other hother => @mem_moved pos selector other (hknown other hother))
    rw [List.foldl_cons, Coding.writeSelector]
    dsimp only
    rw [moveToFront_idxOf hfirst]
    simpa [selectorsBits, bitsOf, BitWriter.writeBit] using hmore

private theorem readSelectorIndex_written {left index count : Nat}
    (h : Rests data bit (List.replicate count true ++ false :: rest)) (lt : count < left) :
    ∃ next, readSelectorIndex data left index bit = .ok (index + count, next) ∧
      Rests data next rest := by
  induction count generalizing left index bit with
  | zero =>
    obtain ⟨left, rfl⟩ := Nat.exists_eq_add_of_lt lt
    obtain ⟨hread, hrest⟩ := h.readBit
    refine ⟨_, ?_, hrest⟩
    rw [Nat.zero_add, readSelectorIndex, hread]
    rfl
  | succ count ih =>
    obtain ⟨left, rfl⟩ : ∃ more, left = more + 1 := ⟨left - 1, by omega⟩
    rw [List.replicate_succ, List.cons_append] at h
    obtain ⟨hread, hbehind⟩ := h.readBit
    obtain ⟨next, hindex, hrest⟩ := @ih _ left (index + 1) hbehind (by omega)
    refine ⟨next, ?_, hrest⟩
    rw [readSelectorIndex, hread, result_bind_ok]
    dsimp only
    rw [if_pos rfl, if_neg (by omega), hindex, Nat.add_assoc, Nat.add_comm 1]

theorem readSelectors_written (known : ∀ selector ∈ selectors, selector ∈ pos)
    (h : Rests data bit (selectorsBits pos selectors ++ rest)) :
    ∃ next, readSelectors data pos.length selectors.length pos bit = .ok (selectors, next) ∧
      Rests data next rest := by
  induction selectors generalizing pos bit with
  | nil => exact ⟨bit, rfl, h⟩
  | cons selector selectors ih =>
    obtain ⟨hfirst, hknown⟩ := List.forall_mem_cons.mp known
    rw [selectorsBits, List.append_assoc, List.cons_append] at h
    obtain ⟨next, hindex, hbehind⟩ := @readSelectorIndex_written _ _ _ pos.length 0 _ h
      (List.idxOf_lt_length_iff.mpr hfirst)
    obtain ⟨last, hselectors, hrest⟩ :=
      ih (fun other hother => @mem_moved pos selector other (hknown other hother)) hbehind
    rw [moved_length hfirst] at hselectors
    refine ⟨last, ?_, hrest⟩
    rw [List.length_cons, readSelectors, hindex, result_bind_ok, Nat.zero_add]
    dsimp only
    rw [moveToFront_idxOf hfirst]
    dsimp only
    rw [hselectors]
    rfl

end Selectors

/-- Steps up and down to a length, and the end of them. -/
def lengthBits (current target : Nat) : List Bool :=
  (List.replicate (target - current) [true, false]).flatten ++
    ((List.replicate (current - target) [true, true]).flatten ++ [false])

def lengthsBits : Nat → List Nat → List Bool
  | _, [] => []
  | current, target :: lengths => lengthBits current target ++ lengthsBits target lengths

def tableBits (lengths : List Nat) : List Bool :=
  bitsOf 5 (lengths.headD 0) ++ lengthsBits (lengths.headD 0) lengths

section Tables

variable {data : List UInt8} {bit current target : Nat} {rest : List Bool} {lengths : List Nat}

private theorem BitWriter.Wrote.writeLengths {w : BitWriter} {bits : List Bool} (h : w.Wrote bits) :
    (lengths.foldl Coding.writeLength (w, current)).1.Wrote (bits ++ lengthsBits current lengths) := by
  induction lengths generalizing w bits current with
  | nil => simpa [lengthsBits] using h
  | cons target lengths ih =>
    have hup := @repeat_piece w bits (·.writeBits 2 0b10) [true, false] (target - current) h
      fun w bits hw => hw.writeBits 2 0b10
    have hdown := @repeat_piece _ _ (·.writeBits 2 0b11) [true, true] (current - target) hup
      fun w bits hw => hw.writeBits 2 0b11
    have hmore := @ih target _ _ (hdown.writeBits 1 0)
    rw [List.foldl_cons, Coding.writeLength]
    simpa [lengthsBits, lengthBits, bitsOf, BitWriter.writeBit] using hmore

theorem BitWriter.Wrote.writeTables {w : BitWriter} {bits : List Bool} (h : w.Wrote bits)
    (tables : List (List Nat)) :
    (Coding.writeTables w tables).Wrote (bits ++ tables.flatMap tableBits) := by
  apply h.foldl
  intro table _ w bits hw
  have hlengths := @writeLengths (table.headD 0) table _ _ (hw.writeBits 5 (table.headD 0))
  rwa [List.append_assoc] at hlengths

/-- The lengths that a step may lead to. -/
def Within (length : Nat) : Prop := 1 ≤ length ∧ length ≤ maxCodeLen

private theorem readLength_written (hcurrent : Within current) (htarget : Within target)
    (h : Rests data bit (lengthBits current target ++ rest)) :
    ∃ next, readLength data current bit = .ok ((target : Int), next) ∧ Rests data next rest := by
  have hinside : (1 : Int) ≤ current ∧ (current : Int) ≤ maxCodeLen :=
    ⟨by exact_mod_cast hcurrent.1, by exact_mod_cast hcurrent.2⟩
  induction hn : target - current + (current - target) generalizing current bit with
  | zero =>
    obtain rfl : current = target := by omega
    rw [lengthBits, Nat.sub_self] at h
    obtain ⟨hread, hrest⟩ := h.readBit
    refine ⟨_, ?_, hrest⟩
    rw [readLength_eq, if_pos hinside, hread]
  | succ n ih =>
    -- the next length is one step nearer
    have hstep (down : Bool) (near : Nat) (hnear : Within near)
        (hint : (near : Int) = if down then (current : Int) - 1 else current + 1)
        (hbits : lengthBits current target = true :: down :: lengthBits near target)
        (hless : target - near + (near - target) = n) :
        ∃ next, readLength data current bit = .ok ((target : Int), next) ∧
          Rests data next rest := by
      rw [hbits] at h
      obtain ⟨hmore, hbehind⟩ := h.readBit
      obtain ⟨hdown, hbehind⟩ := hbehind.readBit
      obtain ⟨next, hread, hrest⟩ := ih hnear hbehind
        ⟨by exact_mod_cast hnear.1, by exact_mod_cast hnear.2⟩ hless
      refine ⟨next, ?_, hrest⟩
      rw [readLength_eq, if_pos hinside, hmore]
      dsimp only
      rw [hdown]
      dsimp only
      rw [← hint, hread]
    obtain ⟨hlo, hhi⟩ := hcurrent
    obtain ⟨hlo', hhi'⟩ := htarget
    rcases Nat.lt_or_gt_of_ne (show current ≠ target by omega) with hup | hdown
    · apply hstep false (current + 1) ⟨by omega, by omega⟩ (by push_cast; rfl) _ (by omega)
      rw [lengthBits, lengthBits, show target - current = target - (current + 1) + 1 by omega,
        show current - target = 0 by omega, show current + 1 - target = 0 by omega,
        List.replicate_succ, List.flatten_cons]
      rfl
    · apply hstep true (current - 1) ⟨by omega, by omega⟩ (by push_cast [hlo]; rfl) _ (by omega)
      rw [lengthBits, lengthBits, show current - target = current - 1 - target + 1 by omega,
        show target - current = 0 by omega, show target - (current - 1) = 0 by omega,
        List.replicate_succ, List.flatten_cons]
      rfl

private theorem readLengths_written (hcurrent : Within current)
    (within : ∀ length ∈ lengths, Within length)
    (h : Rests data bit (lengthsBits current lengths ++ rest)) :
    ∃ next, readLengths data lengths.length current bit = .ok (lengths, next) ∧
      Rests data next rest := by
  induction lengths generalizing current bit with
  | nil => exact ⟨bit, rfl, h⟩
  | cons target lengths ih =>
    obtain ⟨htarget, hwithin⟩ := List.forall_mem_cons.mp within
    rw [lengthsBits, List.append_assoc] at h
    obtain ⟨next, hread, hbehind⟩ := readLength_written hcurrent htarget h
    obtain ⟨last, hlengths, hrest⟩ := ih htarget hwithin hbehind
    refine ⟨last, ?_, hrest⟩
    rw [List.length_cons, readLengths, hread, result_bind_ok]
    dsimp only
    rw [hlengths]
    rfl

/-- The tables built from the lengths one after the other. -/
def Built (tables : List Huffman) (lens : List (List Nat)) : Prop :=
  List.Forall₂ Huffman.IsBuilt tables lens

theorem readTables_written {alphaSize : Nat} {lens : List (List Nat)}
    (size : ∀ lengths ∈ lens, lengths.length = alphaSize ∧ lengths ≠ [])
    (within : ∀ lengths ∈ lens, ∀ length ∈ lengths, Within length)
    (fits : ∀ lengths ∈ lens, CanonicalCode.kraftSum lengths ≤ 1)
    (h : Rests data bit (lens.flatMap tableBits ++ rest)) :
    ∃ tables next, readTables data alphaSize lens.length bit = .ok (tables, next) ∧
      Built tables lens ∧ Rests data next rest := by
  induction lens generalizing bit with
  | nil => exact ⟨[], bit, rfl, .nil, h⟩
  | cons lengths lens ih =>
    obtain ⟨⟨hlength, hne⟩, hsize⟩ := List.forall_mem_cons.mp size
    obtain ⟨hinside, hwithin⟩ := List.forall_mem_cons.mp within
    obtain ⟨hkraft, hfits⟩ := List.forall_mem_cons.mp fits
    have hhead : Within (lengths.headD 0) := by
      cases lengths with
      | nil => exact absurd rfl hne
      | cons first _ => exact hinside first List.mem_cons_self
    rw [List.flatMap_cons, tableBits, List.append_assoc, List.append_assoc] at h
    obtain ⟨hread, hbehind⟩ := h.reads (Nat.lt_of_le_of_lt hhead.2 (by decide)) (by decide)
    obtain ⟨next, hlengths, hbehind⟩ := readLengths_written hhead hinside hbehind
    obtain ⟨huffman, hbuild⟩ := (Huffman.build_accepts_iff hne next).mpr ⟨hinside, hkraft⟩
    obtain ⟨tables, last, htables, hbuilt, hrest⟩ := ih hsize hwithin hfits hbehind
    refine ⟨huffman :: tables, last, ?_, .cons (Huffman.build_eq_ok hbuild) hbuilt, hrest⟩
    rw [hlength] at hlengths
    rw [List.length_cons, readTables, hread, result_bind_ok]
    dsimp only
    rw [hlengths, result_bind_ok]
    dsimp only
    rw [hbuild, result_bind_ok, htables]
    rfl

end Tables

end Fbz.Bzip2
