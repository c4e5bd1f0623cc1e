import Fbz.Lz4.Encode
import Fbz.Lz4.Sequences

/-!
# LZ4 blocks round trip

What either compressor emits parses into sequences that put out the input again and keep the rules
for the end of a block. The sequences that are out say the input up to the anchor.
-/

namespace Fbz.Lz4

open Lz

/-- The bytes behind a nibble of fifteen. -/
private def lengthTail (length : Nat) : List UInt8 :=
  if length ≥ 15 then writeLength (length - 15) else []

private theorem readExtra_writeLength (pre post : List UInt8) (length base : Nat)
    (fits : base + length < usizeLimit) :
    readExtra (pre ++ writeLength length ++ post) pre.length base =
      .ok (base + length, (pre ++ writeLength length).length) := by
  induction length using writeLength.induct generalizing pre base with
  | case1 length more ih =>
    rw [writeLength, if_pos more]
    have hlt : pre.length < (pre ++ 255 :: writeLength (length - 255) ++ post).length := by simp
    rw [readExtra, dif_pos hlt]
    have hbyte : (pre ++ 255 :: writeLength (length - 255) ++ post)[pre.length] = 255 := by simp
    have hvalue : (255 : UInt8).toNat = 255 := rfl
    simp only [hbyte, hvalue]
    rw [if_pos (by omega), if_neg (by omega)]
    have := ih (pre ++ [255]) (base + 255) (by omega)
    simp only [List.append_assoc, List.cons_append, List.nil_append, List.length_append,
      List.length_cons, List.length_nil] at this ⊢
    rw [this]
    rw [show base + 255 + (length - 255) = base + length by omega]
  | case2 length less =>
    rw [writeLength, if_neg less]
    have hlt : pre.length < (pre ++ [UInt8.ofNat length] ++ post).length := by simp
    rw [readExtra, dif_pos hlt]
    have hbyte : (pre ++ [UInt8.ofNat length] ++ post)[pre.length] = UInt8.ofNat length := by simp
    have hvalue : (UInt8.ofNat length).toNat = length := UInt8.toNat_ofNat_of_lt' (show length < 256 by omega)
    simp only [hbyte, hvalue]
    rw [if_pos (by omega), if_pos (by omega), List.length_append, List.length_singleton]

private theorem readLength_lengthTail (pre post : List UInt8) (length : Nat)
    (fits : length < usizeLimit) :
    readLength (pre ++ lengthTail length ++ post) pre.length (min length 15) =
      .ok (length, (pre ++ lengthTail length).length) := by
  unfold readLength lengthTail
  split
  case isTrue short =>
    rw [if_neg (by omega), List.append_nil]
    congr 2
    omega
  case isFalse long =>
    rw [if_pos (by omega), show min length 15 = 15 by omega,
      readExtra_writeLength _ _ _ _ (by omega)]
    congr 2
    omega

private theorem nibbles : ∀ l : Fin 16, ∀ m : Fin 16,
    (UInt8.ofNat (l.val <<< 4 ||| m.val) >>> 4).toNat = l.val ∧
      (UInt8.ofNat (l.val <<< 4 ||| m.val) &&& 0x0f).toNat = m.val := by decide

private theorem token_literals {l m : Nat} (hl : l ≤ 15) (hm : m ≤ 15) :
    (UInt8.ofNat (l <<< 4 ||| m) >>> 4).toNat = l := (nibbles ⟨l, by omega⟩ ⟨m, by omega⟩).1

private theorem token_match {l m : Nat} (hl : l ≤ 15) (hm : m ≤ 15) :
    (UInt8.ofNat (l <<< 4 ||| m) &&& 0x0f).toNat = m := (nibbles ⟨l, by omega⟩ ⟨m, by omega⟩).2

section Items

variable {pre post literals : List UInt8}

private theorem itemAt_writeSequence {distance length : Nat} (near : distance < 2 ^ 16)
    (least : 4 ≤ length) (short : literals.length < usizeLimit) (fits : length < usizeLimit) :
    itemAt (pre ++ writeSequence literals distance length ++ post) pre.length =
      .ok (.sequence ⟨literals, distance, length⟩
        (pre ++ writeSequence literals distance length).length) := by
  obtain ⟨token, htoken⟩ : ∃ token, token =
      UInt8.ofNat (min literals.length 15 <<< 4 ||| min (length - 4) 15) := ⟨_, rfl⟩
  obtain ⟨front, hfront⟩ : ∃ front, front = pre ++ [token] ++ lengthTail literals.length :=
    ⟨_, rfl⟩
  have hsequence : pre ++ writeSequence literals distance length =
      front ++ literals ++ toLe 2 distance ++ lengthTail (length - 4) := by
    simp [writeSequence, lengthTail, htoken, hfront]
  have hcount := readLength_lengthTail (pre ++ [token])
    (literals ++ toLe 2 distance ++ lengthTail (length - 4) ++ post) literals.length short
  have hliterals := range?_append front literals
    (toLe 2 distance ++ lengthTail (length - 4) ++ post)
  have hoffset := range?_append (front ++ literals) (toLe 2 distance)
    (lengthTail (length - 4) ++ post)
  have hlength := readLength_lengthTail (front ++ literals ++ toLe 2 distance) post (length - 4)
    (by omega)
  rw [← token_literals (Nat.min_le_right literals.length 15) (Nat.min_le_right (length - 4) 15),
    ← htoken, List.length_append, List.length_singleton, ← hfront] at hcount
  rw [← token_match (Nat.min_le_right literals.length 15) (Nat.min_le_right (length - 4) 15),
    ← htoken, List.length_append, toLe_length, List.length_append] at hlength
  rw [List.length_append, toLe_length] at hoffset
  simp only [← List.append_assoc] at hcount hliterals hoffset
  obtain ⟨-, hinside, hslice⟩ := range?_eq_some.mp hliterals
  rw [hsequence, itemAt_eq_sequence]
  refine ⟨token, literals.length, front.length, toLe 2 distance, length - 4, ?_, hcount, ?_, hoffset,
    hlength, by omega, ?_⟩
  · simp [hfront]
  · simp only [List.length_append, toLe_length]
    omega
  · rw [leNat_toLe_of_lt near, show length - 4 + 4 = length by omega, ← hslice]

private theorem itemAt_writeLastLiterals (short : literals.length < usizeLimit) :
    itemAt (pre ++ writeLastLiterals literals) pre.length = .ok (.last literals) := by
  obtain ⟨token, htoken⟩ : ∃ token, token = UInt8.ofNat (min literals.length 15 <<< 4) := ⟨_, rfl⟩
  obtain ⟨front, hfront⟩ : ∃ front, front = pre ++ [token] ++ lengthTail literals.length :=
    ⟨_, rfl⟩
  have hlast : pre ++ writeLastLiterals literals = front ++ literals := by
    simp [writeLastLiterals, lengthTail, htoken, hfront]
  have hcount := readLength_lengthTail (pre ++ [token]) literals literals.length short
  have hnibble := token_literals (Nat.min_le_right literals.length 15) (Nat.zero_le 15)
  rw [Nat.or_zero, ← htoken] at hnibble
  rw [← hnibble, List.length_append, List.length_singleton, ← hfront] at hcount
  rw [hlast, itemAt_eq_last]
  refine ⟨token, literals.length, front.length, ?_, hcount, (List.length_append ..).symm, ?_⟩
  · simp [hfront]
  · rw [slice, List.drop_left, Nat.add_sub_cancel_left, List.take_length]

end Items

def Sequence.bytes (s : Sequence) : List UInt8 := writeSequence s.literals s.offset s.length

/-- The bytes of the sequences, one after the other. -/
def sequencesBytes (sequences : List Sequence) : List UInt8 :=
  (sequences.map Sequence.bytes).flatten

/-- What the format asks of a match that starts behind `start` of `total` bytes. -/
structure Sequence.Legal (s : Sequence) (start total : Nat) : Prop where
  least : 4 ≤ s.length
  pos : 1 ≤ s.offset
  near : s.offset ≤ 65535
  inside : s.offset ≤ start
  early : start + 12 ≤ total

/-- Legal sequences that put out the first bytes of a block. -/
inductive Plays (total : Nat) : List Sequence → List UInt8 → Prop
  | nil : Plays total [] []
  | snoc {sequences : List Sequence} {out : List UInt8} {s : Sequence}
      (before : Plays total sequences out)
      (legal : s.Legal (out.length + s.literals.length) total) :
      Plays total (sequences ++ [s]) (copyBack s.offset s.length (out ++ s.literals))

private theorem Plays.play {total : Nat} {sequences : List Sequence} {out : List UInt8}
    (h : Plays total sequences out) : play [] sequences = some out := by
  induction h with
  | nil => rfl
  | @snoc sequences out s before legal ih =>
    have hinside := legal.inside
    rw [play_append, ih, Option.bind_some, play_cons]
    have hplay : s.play out = some (copyBack s.offset s.length (out ++ s.literals)) := by
      apply Sequence.play_eq_some.mpr
      rw [List.length_append]
      exact ⟨⟨legal.pos, hinside⟩, rfl⟩
    rw [hplay]
    rfl

private theorem Plays.bounded {total : Nat} {sequences : List Sequence} {out : List UInt8}
    (h : Plays total sequences out) :
    ∀ s ∈ sequences, s.offset < 2 ^ 16 ∧ 4 ≤ s.length ∧
      s.literals.length + s.length ≤ out.length := by
  induction h with
  | nil => simp
  | @snoc sequences out last before legal ih =>
    have hinside := legal.inside
    have hlen : (copyBack last.offset last.length (out ++ last.literals)).length =
        out.length + last.literals.length + last.length := by
      rw [copyBack_length legal.pos (by rwa [List.length_append]), List.length_append]
    intro s hs
    rcases List.mem_append.mp hs with hbefore | hlast
    · have := ih s hbefore
      omega
    · obtain rfl := List.mem_singleton.mp hlast
      have := legal.near
      have := legal.least
      omega

/-- Sequences and last literals are parsed back. -/
theorem parseFrom_sequencesBytes {pre last : List UInt8} {sequences : List Sequence}
    (bounded : ∀ s ∈ sequences, s.offset < 2 ^ 16 ∧ 4 ≤ s.length ∧
      s.literals.length + s.length < usizeLimit)
    (short : last.length < usizeLimit) :
    parseFrom (pre ++ (sequencesBytes sequences ++ writeLastLiterals last)) pre.length =
      .ok (sequences, some last) := by
  have hne : writeLastLiterals last ≠ [] := by simp [writeLastLiterals]
  have hlt : pre.length <
      (pre ++ (sequencesBytes sequences ++ writeLastLiterals last)).length := by
    have := List.length_pos_iff.mpr hne
    simp only [List.length_append]
    omega
  induction sequences generalizing pre with
  | nil => exact parseFrom_last hlt (itemAt_writeLastLiterals short)
  | cons s sequences ih =>
    obtain ⟨hnear, hleast, hfits⟩ := bounded s List.mem_cons_self
    have hitem := @itemAt_writeSequence pre (sequencesBytes sequences ++ writeLastLiterals last)
      s.literals s.offset s.length hnear hleast (by omega) (by omega)
    have hcons : pre ++ (sequencesBytes (s :: sequences) ++ writeLastLiterals last) =
        pre ++ writeSequence s.literals s.offset s.length ++
          (sequencesBytes sequences ++ writeLastLiterals last) := by
      simp [sequencesBytes, Sequence.bytes]
    have hlt' : (pre ++ writeSequence s.literals s.offset s.length).length <
        (pre ++ writeSequence s.literals s.offset s.length ++
          (sequencesBytes sequences ++ writeLastLiterals last)).length := by
      have := List.length_pos_iff.mpr hne
      simp only [List.length_append]
      omega
    rw [hcons] at hlt ⊢
    rw [parseFrom_sequence hlt hitem,
      ih (fun other hother => bounded other (List.mem_cons_of_mem _ hother)) hlt']
    rfl

section Compressors

variable {input output : List UInt8} {anchor : Nat}

/-- What has been emitted puts out the input up to the anchor. Behind a match five bytes are left. -/
private def Emitted (input output : List UInt8) (anchor : Nat) : Prop :=
  ∃ sequences, output = sequencesBytes sequences ∧
    Plays input.length sequences (input.take anchor) ∧
    (sequences = [] ∨ anchor + 5 ≤ input.length)

private theorem emitted_nil : Emitted input [] 0 := ⟨[], rfl, .nil, .inl rfl⟩

private theorem slice_take {start : Nat} (le : anchor ≤ start) :
    input.take anchor ++ slice input anchor start = input.take start := by
  rw [slice, ← List.take_add, Nat.add_sub_cancel' le]

private theorem Emitted.sequence {start distance length : Nat} (h : Emitted input output anchor)
    (forward : anchor ≤ start) (early : start + 12 ≤ input.length)
    (room : start + length + 5 ≤ input.length) (least : 4 ≤ length) (pos : 0 < distance)
    (near : distance < 2 ^ 16) (le : distance ≤ start)
    (same : ∀ i < length, input[start + i]? = input[start + i - distance]?) :
    Emitted input (output ++ writeSequence (slice input anchor start) distance length)
      (start + length) := by
  obtain ⟨sequences, rfl, hplays, -⟩ := h
  have hlen : (input.take anchor).length + (slice input anchor start).length = start := by
    rw [← List.length_append, slice_take forward, List.length_take]
    omega
  have hsnoc := @Plays.snoc input.length sequences (input.take anchor)
    ⟨slice input anchor start, distance, length⟩ hplays
    ⟨least, pos, Nat.le_of_lt_succ near, by rwa [hlen], by rwa [hlen]⟩
  rw [slice_take forward, copyBack_take pos le (by omega) same] at hsnoc
  refine ⟨_, ?_, hsnoc, .inr room⟩
  simp [sequencesBytes, Sequence.bytes]

private theorem extendBackward_spec {position candidate length distance : Nat}
    (ahead : position = candidate + distance) (forward : anchor ≤ position)
    (same : ∀ i < length, input[position + i]? = input[position + i - distance]?) :
    anchor ≤ (extendBackward input anchor position candidate length).1 ∧
      (extendBackward input anchor position candidate length).1 ≤ position ∧
      distance ≤ (extendBackward input anchor position candidate length).1 ∧
      length ≤ (extendBackward input anchor position candidate length).2 ∧
      ∀ i < (extendBackward input anchor position candidate length).2,
        input[(extendBackward input anchor position candidate length).1 + i]? =
          input[(extendBackward input anchor position candidate length).1 + i - distance]? := by
  induction position, candidate, length using extendBackward.induct input anchor with
  | case1 position candidate length more ih =>
    rw [extendBackward, if_pos more]
    obtain ⟨h1, h0, h2, h3, h4⟩ := ih (by omega) (by omega) fun i hi => by
      cases i with
      | zero =>
        rw [Nat.add_zero, more.2.2]
        congr 1
        omega
      | succ i =>
        have := same i (by omega)
        rwa [show position - 1 + (i + 1) = position + i by omega]
    exact ⟨h1, by omega, h2, by omega, h4⟩
  | case2 position candidate length done =>
    rw [extendBackward, if_neg done]
    exact ⟨forward, Nat.le_refl _, by dsimp only; omega, Nat.le_refl _, same⟩

private theorem Emitted.extended {position distance length : Nat} (h : Emitted input output anchor)
    (forward : anchor ≤ position) (more : position + 12 ≤ input.length)
    (room : position + length + 5 ≤ input.length) (least : 4 ≤ length) (pos : 0 < distance)
    (near : distance < 2 ^ 16) (le : distance ≤ position)
    (same : ∀ i < length, input[position + i]? = input[position + i - distance]?) :
    let extended := extendBackward input anchor position (position - distance) length
    Emitted input
      (output ++ writeSequence (slice input anchor extended.1) distance extended.2)
      (extended.1 + extended.2) := by
  obtain ⟨h1, h0, h2, h3, h4⟩ := @extendBackward_spec input anchor position (position - distance)
    length distance (by omega) forward same
  have hstop := extendBackward_stop input anchor position (position - distance) length
  exact h.sequence h1 (by omega) (by omega) (by omega) pos near h2 h4

/-- A block of legal sequences and last literals that puts out the input. -/
private def Composed (input block : List UInt8) : Prop :=
  ∃ sequences out last, block = sequencesBytes sequences ++ writeLastLiterals last ∧
    Plays input.length sequences out ∧ out ++ last = input ∧ (sequences ≠ [] → 5 ≤ last.length)

private theorem Emitted.finish (h : Emitted input output anchor) :
    Composed input (output ++ writeLastLiterals (input.drop anchor)) := by
  obtain ⟨sequences, rfl, hplays, hroom⟩ := h
  refine ⟨sequences, _, _, rfl, hplays, List.take_append_drop _ _, ?_⟩
  intro hne
  have := hroom.resolve_left hne
  rw [List.length_drop]
  omega

private theorem compressFastFrom_eq {finder : LatestMatch} {position : Nat}
    (more : position + 12 ≤ input.length) :
    compressFastFrom input finder anchor position output =
      match finder.insertAndFind input position with
      | (finder, none) =>
        compressFastFrom input finder anchor (position + 1 + (position - anchor) >>> 6) output
      | (finder, some candidate) =>
        let extended := extendBackward input anchor position candidate
          (matchLength input position candidate (input.length - position - 5))
        let stop := extended.1 + extended.2
        compressFastFrom input (if stop ≥ 2 then finder.insert input (stop - 2) else finder) stop
          stop (output ++ writeSequence (slice input anchor extended.1) (position - candidate)
            extended.2) := by
  rw [compressFastFrom, if_pos more]
  split <;> simp only [*]

private theorem compressFastFrom_composed {finder : LatestMatch} {position : Nat}
    (h : finder.Before position) (window : finder.window = Encode.windowSize)
    (forward : anchor ≤ position) (emitted : Emitted input output anchor) :
    Composed input (compressFastFrom input finder anchor position output) := by
  induction finder, anchor, position, output using compressFastFrom.induct input with
  | case1 finder anchor position output more finder' hfound ih =>
    have hbefore : (finder.insertAndFind input position).1.Before (position + 1) := h.insertAndFind
    have hwindow := @LatestMatch.insertAndFind_window finder input position
    rw [hfound] at hbefore hwindow
    rw [compressFastFrom_eq more, hfound]
    exact ih (hbefore.mono (by omega)) (hwindow.trans window) (by omega) emitted
  | case2 finder anchor position output more maxLength finder' candidate hfound distance length
      extended stop ih =>
    have hbefore : (finder.insertAndFind input position).1.Before (position + 1) := h.insertAndFind
    have hwindow := @LatestMatch.insertAndFind_window finder input position
    have hleast := LatestMatch.four_le_matchLength hfound
      (show 4 ≤ input.length - position - 5 by omega)
    obtain ⟨hlt, hnear, -, -⟩ := LatestMatch.insertAndFind_some h (congrArg Prod.snd hfound)
    rw [hfound] at hbefore hwindow
    rw [window, Encode.windowSize] at hnear
    obtain ⟨hlimit, hsame, -⟩ := @matchLength_spec input position candidate
      (input.length - position - 5) (by omega) (by omega)
    have hback : position - (position - candidate) = candidate := by omega
    have hmatch (i : Nat) (hi : i < matchLength input position candidate
        (input.length - position - 5)) :
        input[position + i]? = input[position + i - (position - candidate)]? := by
      rw [hsame i hi]
      congr 1
      omega
    have hnext := emitted.extended forward more (by omega) hleast (Nat.sub_pos_of_lt hlt)
      (by omega) (Nat.sub_le _ _) hmatch
    rw [hback] at hnext
    have hstop := extendBackward_stop input anchor position candidate
      (matchLength input position candidate (input.length - position - 5))
    rw [compressFastFrom_eq more, hfound]
    dsimp only
    simp only [dite_eq_ite] at ih
    refine ih ?_ ?_ (Nat.le_refl _) hnext
    · split
      · exact (hbefore.mono (by dsimp only [stop, extended, length, maxLength]; omega)).insert
          (by omega)
      · exact hbefore.mono (by dsimp only [stop, extended, length, maxLength]; omega)
    · split
      · rw [LatestMatch.insert_window, hwindow, window]
      · rw [hwindow, window]
  | case3 finder anchor position output done =>
    rw [compressFastFrom, if_neg done]
    exact emitted.finish

private theorem compressHighFrom_composed {maxChain : Nat} {finder : HashChain} {position : Nat}
    (h : finder.Before position) (window : finder.window = Encode.windowSize)
    (forward : anchor ≤ position) (emitted : Emitted input output anchor) :
    Composed input (compressHighFrom input maxChain finder anchor position output) := by
  induction finder, anchor, position, output using compressHighFrom.induct input maxChain with
  | case1 finder anchor position output more maxLength best none ih =>
    rw [compressHighFrom, if_pos more]
    dsimp only
    rw [dif_pos none]
    exact ih ((h.mono (Nat.le_succ _)).insert (Nat.lt_succ_self _))
      (by rw [HashChain.insert_window, window]) (by omega) emitted
  | case2 finder anchor position output more maxLength best some extended stop ih =>
    obtain hnone | ⟨hleast, hlimit, -, hfound⟩ := @HashChain.bestMatch_spec finder input position
      (input.length - position - 5) 4 maxChain h
    · exact absurd (congrArg Prod.fst hnone) some
    have hnear := hfound.near
    have hinside : best.2 ≤ position := hfound.inside
    have hlimit : best.1 ≤ input.length - position - 5 := hlimit
    have hmatch (i : Nat) (hi : i < best.1) :
        input[position + i]? = input[position + i - best.2]? := by
      rw [← hfound.same i hi, ← Nat.sub_add_comm hinside]
    rw [window, Encode.windowSize] at hnear
    have hnext := emitted.extended forward more (by omega) hleast hfound.pos (by omega)
      hfound.inside hmatch
    have hstop : stop = position + best.1 :=
      extendBackward_stop input anchor position (position - best.2) best.1
    have hahead : position < stop := by
      rw [hstop]
      exact Nat.lt_add_of_pos_right (Nat.lt_of_lt_of_le (by decide) hleast)
    rw [compressHighFrom, if_pos more]
    dsimp only
    rw [dif_neg some]
    simp only [dite_eq_ite] at ih
    refine ih ?_ ?_ (Nat.le_refl _) hnext
    · split
      · exact (h.mono (Nat.le_of_lt hahead)).insert (by omega)
      · exact h.mono (Nat.le_of_lt hahead)
    · split
      · rw [HashChain.insert_window, window]
      · exact window
  | case3 finder anchor position output done =>
    rw [compressHighFrom, if_neg done]
    exact emitted.finish

private theorem compressBlock_composed (level : Nat) :
    Composed input (compressBlock input level) := by
  unfold compressBlock
  split
  · exact compressFastFrom_composed (LatestMatch.before_new _) rfl (Nat.le_refl _) emitted_nil
  · exact compressHighFrom_composed (HashChain.before_new _ _) rfl (Nat.le_refl _) emitted_nil

/-- The rules for the sequences of a block and the literals that end it. -/
structure EndRules (input : List UInt8) (sequences : List Sequence) (last : List UInt8) : Prop where
  plays : ∃ out, Plays input.length sequences out ∧ out ++ last = input
  room : sequences ≠ [] → 5 ≤ last.length

private theorem parseBlock_compressBlock (level : Nat) (short : input.length < usizeLimit) :
    ∃ sequences last, parseBlock (compressBlock input level) = .ok (sequences, some last) ∧
      EndRules input sequences last := by
  obtain ⟨sequences, out, last, hblock, hplays, heq, hroom⟩ := @compressBlock_composed input level
  have hlen := congrArg List.length heq
  rw [List.length_append] at hlen
  refine ⟨sequences, last, ?_, ⟨out, hplays, heq⟩, hroom⟩
  rw [hblock]
  apply @parseFrom_sequencesBytes [] last sequences _ (by omega)
  intro s hs
  have := hplays.bounded s hs
  omega

theorem decompressBlock_compressBlock {maxOutput : Nat} (level : Nat)
    (fits : input.length ≤ maxOutput) (bounded : maxOutput < usizeLimit) :
    decompressBlock (compressBlock input level) [] maxOutput = .ok input := by
  obtain ⟨sequences, last, hparse, ⟨out, hplays, heq⟩, -⟩ :=
    @parseBlock_compressBlock input level (by omega)
  exact decompressBlock_iff.mpr ⟨sequences, some last, out, hparse, hplays.play, heq.symm, fits⟩

/-- Where the finder takes the block, it is decoded back and keeps the rules of the format. -/
theorem compressBlock_rules {level maxOutput : Nat}
    (short : 6 < level → input.length < 2 ^ 32 - 1) (fits : input.length ≤ maxOutput)
    (bounded : maxOutput < usizeLimit) :
    ∃ block sequences last, compressBlock? input level = some block ∧
      decompressBlock block [] maxOutput = .ok input ∧
      parseBlock block = .ok (sequences, some last) ∧ EndRules input sequences last := by
  have haccepted : level ≤ 6 ∨ HashChain.Fits input.length := by
    rcases Nat.lt_or_ge 6 level with hhigh | hfast
    · exact .inr (short hhigh)
    · exact .inl hfast
  obtain ⟨sequences, last, hparse, hrules⟩ :=
    @parseBlock_compressBlock input level (Nat.lt_of_le_of_lt fits bounded)
  exact ⟨_, sequences, last, if_pos haccepted, decompressBlock_compressBlock level fits bounded,
    hparse, hrules⟩

/-- Twenty equal bytes: one match behind the first byte, and the last five as literals. -/
theorem compressBlock_rules_run :
    compressBlock? (List.replicate 20 7) 9 = some [26, 7, 1, 0, 80, 7, 7, 7, 7, 7] ∧
      decompressBlock [26, 7, 1, 0, 80, 7, 7, 7, 7, 7] [] 20 = .ok (List.replicate 20 7) ∧
      EndRules (List.replicate 20 7) [⟨[7], 1, 14⟩] [7, 7, 7, 7, 7] := by
  obtain ⟨block, sequences, last, hblock, hdecode, hparse, hrules⟩ :=
    @compressBlock_rules (List.replicate 20 7) 9 20 (by decide) (by decide) (by decide)
  have hbytes : compressBlock? (List.replicate 20 7) 9 =
      some [26, 7, 1, 0, 80, 7, 7, 7, 7, 7] := by decide +kernel
  have hsequences : parseBlock [26, 7, 1, 0, 80, 7, 7, 7, 7, 7] =
      .ok ([⟨[7], 1, 14⟩], some [7, 7, 7, 7, 7]) := by decide +kernel
  obtain rfl := Option.some.inj (hblock.symm.trans hbytes)
  cases hparse.symm.trans hsequences
  exact ⟨hbytes, hdecode, hrules⟩

/-- From level seven on a longer block stops at the assertion of the finder. -/
theorem compressBlock_refuses : ¬ ∀ (input : List UInt8) (level maxOutput : Nat), input ≠ [] →
    1 ≤ level → level ≤ 9 → input.length ≤ maxOutput → maxOutput < usizeLimit →
    ∃ block sequences last, compressBlock? input level = some block ∧
      decompressBlock block [] maxOutput = .ok input ∧
      parseBlock block = .ok (sequences, some last) ∧ EndRules input sequences last := by
  intro h
  have hlen : (List.replicate (2 ^ 32 - 1) (0 : UInt8)).length = 2 ^ 32 - 1 :=
    List.length_replicate
  have hne : List.replicate (2 ^ 32 - 1) (0 : UInt8) ≠ [] := by
    rw [← List.length_pos_iff, hlen]
    decide
  obtain ⟨block, _, _, hblock, -⟩ := h (List.replicate (2 ^ 32 - 1) 0) 7 (2 ^ 32 - 1) hne
    (by decide) (by decide) (Nat.le_of_eq hlen) (by decide)
  have hlong : ¬ (7 ≤ 6 ∨ HashChain.Fits (List.replicate (2 ^ 32 - 1) (0 : UInt8)).length) := by
    rw [hlen]
    decide
  rw [compressBlock?, if_neg hlong] at hblock
  cases hblock

end Compressors

end Fbz.Lz4
