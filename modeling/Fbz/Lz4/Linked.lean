import Fbz.Lz4.Sequences

/-!
# Linked blocks

A frame of linked blocks means its blocks decoded one after the other, each behind everything the
frame has put out so far. The decoder keeps the last 64 KiB only and does the same.
-/

namespace Fbz.Lz4

/-- A block behind all that came before it, put out byte by byte. -/
def referenceBlock (content block : List UInt8) (maxOutput : Nat) : Option (List UInt8) := do
  let (sequences, last) ← (parseBlock block).toOption
  let history ← play content sequences
  let output := history.drop content.length ++ last.getD []
  if output.length ≤ maxOutput then some output else none

section Reference

variable (xxh : XxHash32)

def referenceLayoutBlock (data : List UInt8) (block : BlockLayout) (content : List UInt8)
    (maxBlockSize : Nat) : Option DecodedBlock := do
  (checkBlockChecksum xxh data block).toOption
  if block.stored then some (.stored block.dataStart block.dataEnd)
  else
    (referenceBlock content (slice data block.dataStart block.dataEnd) maxBlockSize).map .decoded

variable {xxh}

/-- The blocks from `position` on, behind `content`. No position is returned after an error. -/
def referenceLinkedFrom (data : List UInt8) (frame : FrameHeader) (position : Nat)
    (content : List UInt8) (c : FrameCommitter xxh) : FrameCommitter xxh × Option Nat :=
  match _h : nextBlock data position frame with
  | .error _ => (c, none)
  | .ok (none, next) => (c, some next)
  | .ok (some block, next) =>
    match referenceLayoutBlock xxh data block content frame.maxBlockSize with
    | none => (c, none)
    | some decoded =>
      match c.commit data block decoded with
      | (c, .error _) => (c, none)
      | (c, .ok ()) => referenceLinkedFrom data frame next (content ++ decoded.bytes data) c
termination_by data.length - position
decreasing_by exact nextBlock_advances (by assumption)

def referenceLinked (data : List UInt8) (frame : FrameHeader) (position : Nat)
    (c : FrameCommitter xxh) : FrameCommitter xxh × Option Nat :=
  referenceLinkedFrom data frame position [] c

end Reference

/-- The last 64 KiB, or all there is. -/
def window (content : List UInt8) : List UInt8 := content.drop (content.length - windowSize)

private theorem window_split (content : List UInt8) :
    content = content.take (content.length - windowSize) ++ window content :=
  (List.take_append_drop _ _).symm

private theorem window_length (content : List UInt8) :
    (window content).length = min windowSize content.length := by
  rw [window, List.length_drop]
  omega

private theorem updateHistory_window (content bytes : List UInt8) :
    updateHistory (window content) bytes = window (content ++ bytes) := by
  have hlen := window_length content
  unfold updateHistory
  split
  case isTrue long =>
    have hdrop : (content ++ bytes).length - windowSize =
        content.length + (bytes.length - windowSize) := by
      rw [List.length_append]
      omega
    rw [window, hdrop, List.drop_append, List.drop_of_length_le (Nat.le_add_right ..),
      Nat.add_sub_cancel_left, List.nil_append]
  case isFalse short =>
    have hdrop : content.length - windowSize +
        ((window content).length + bytes.length - windowSize) =
          (content ++ bytes).length - windowSize := by
      rw [hlen, List.length_append]
      omega
    have hle : (content ++ bytes).length - windowSize ≤ content.length := by
      rw [List.length_append]
      omega
    rw [window, window, List.drop_drop, ← window, hdrop, List.drop_append_of_le_length hle]

private theorem parseFrom_offset {block : List UInt8} {position : Nat} {sequences : List Sequence}
    {last : Option (List UInt8)} (h : parseFrom block position = .ok (sequences, last)) :
    ∀ s ∈ sequences, s.offset < 2 ^ 16 := by
  induction position using parseFrom.induct block generalizing sequences with
  | case1 position lt error hitem =>
    rw [parseFrom_error lt hitem] at h
    cases h
  | case2 position lt literals hitem =>
    rw [parseFrom_last lt hitem] at h
    cases h
    simp
  | case3 position lt s next hitem ih =>
    rw [parseFrom_sequence lt hitem] at h
    obtain ⟨⟨rest, last'⟩, hrest, hcons⟩ := result_bind_eq_ok.mp h
    cases hcons
    obtain ⟨_, _, _, offset, _, -, -, -, hrange, -, -, rfl⟩ := itemAt_eq_sequence.mp hitem
    intro other hother
    rcases List.mem_cons.mp hother with rfl | hmem
    · have := leNat_lt offset
      rwa [range?_length hrange, Nat.add_sub_cancel_left] at this
    · exact ih hrest other hmem
  | case4 position done =>
    rw [parseFrom_end (Nat.not_lt.mp done)] at h
    cases h
    simp

private theorem referenceBlock_eq_some {content block out : List UInt8} {maxOutput : Nat} :
    referenceBlock content block maxOutput = some out ↔
      ∃ sequences last history, parseBlock block = .ok (sequences, last) ∧
        play content sequences = some history ∧
        content ++ out = history ++ last.getD [] ∧ out.length ≤ maxOutput := by
  simp only [referenceBlock, Option.bind_eq_bind, Option.bind_eq_some_iff, toOption_eq_some,
    Prod.exists]
  constructor
  · rintro ⟨sequences, last, hparse, history, hplay, h⟩
    split at h
    case isFalse => cases h
    case isTrue hroom =>
      obtain rfl := Option.some.inj h
      refine ⟨sequences, last, history, hparse, hplay, ?_, hroom⟩
      obtain ⟨rest, rfl⟩ := play_extends hplay
      rw [List.drop_left, List.append_assoc]
  · rintro ⟨sequences, last, history, hparse, hplay, heq, hroom⟩
    refine ⟨sequences, last, hparse, history, hplay, ?_⟩
    obtain ⟨rest, rfl⟩ := play_extends hplay
    rw [List.append_assoc, List.append_cancel_left_eq] at heq
    rw [List.drop_left, ← heq, if_pos hroom]

/-- A block reaches no further back than the window. -/
theorem decompressBlock_window (content block : List UInt8) (maxOutput : Nat) :
    (decompressBlock block (window content) maxOutput).toOption =
      referenceBlock content block maxOutput := by
  obtain ⟨front, hfront⟩ : ∃ front, front = content.take (content.length - windowSize) :=
    ⟨_, rfl⟩
  have hsplit : content = front ++ window content := hfront ▸ window_split content
  have hplay : ∀ sequences last, parseBlock block = .ok (sequences, last) →
      play content sequences = (play (window content) sequences).map (front ++ ·) := by
    intro sequences last hparse
    have hnear : front = [] ∨ ∀ s ∈ sequences, s.offset ≤ (window content).length := by
      rcases Nat.le_total content.length windowSize with hshort | hlong
      · left
        rw [hfront, Nat.sub_eq_zero_of_le hshort, List.take_zero]
      · right
        intro s hs
        have hoffset := parseFrom_offset hparse s hs
        rw [window_length, Nat.min_eq_left hlong]
        exact Nat.le_of_lt hoffset
    rw [← play_append_history hnear, ← hsplit]
  have hout : ∀ out : List UInt8, content ++ out = front ++ (window content ++ out) := by
    intro out
    rw [← List.append_assoc, ← hsplit]
  refine Option.ext fun out => ?_
  rw [toOption_eq_some, decompressBlock_iff, referenceBlock_eq_some]
  constructor
  · rintro ⟨sequences, last, history, hparse, hhistory, heq, hroom⟩
    refine ⟨sequences, last, front ++ history, hparse, ?_, ?_, hroom⟩
    · rw [hplay sequences last hparse, hhistory]
      rfl
    · rw [hout, heq, List.append_assoc]
  · rintro ⟨sequences, last, _, hparse, hhistory, heq, hroom⟩
    rw [hplay sequences last hparse] at hhistory
    obtain ⟨history, hwindow, rfl⟩ := Option.map_eq_some_iff.mp hhistory
    refine ⟨sequences, last, history, hparse, hwindow, ?_, hroom⟩
    rwa [hout, List.append_assoc, List.append_cancel_left_eq] at heq

section Frames

variable {xxh : XxHash32} {data : List UInt8} {frame : FrameHeader}

private theorem decodeLayoutBlock_window (block : BlockLayout) (content : List UInt8)
    (maxBlockSize : Nat) :
    (decodeLayoutBlock xxh data block (window content) maxBlockSize).toOption =
      referenceLayoutBlock xxh data block content maxBlockSize := by
  unfold decodeLayoutBlock referenceLayoutBlock
  rw [← decompressBlock_window]
  cases checkBlockChecksum xxh data block with
  | error error => rfl
  | ok =>
    by_cases hstored : block.stored
    · simp [hstored, Except.toOption]
    · cases hresult : decompressBlock (slice data block.dataStart block.dataEnd) (window content)
        maxBlockSize <;> simp [hstored, hresult, Except.toOption]

private theorem referenceLinkedFrom_eq (position : Nat) (content : List UInt8)
    (c : FrameCommitter xxh) : referenceLinkedFrom data frame position content c =
      match nextBlock data position frame with
      | .error _ => (c, none)
      | .ok (none, next) => (c, some next)
      | .ok (some block, next) =>
        match referenceLayoutBlock xxh data block content frame.maxBlockSize with
        | none => (c, none)
        | some decoded =>
          match c.commit data block decoded with
          | (c, .error _) => (c, none)
          | (c, .ok ()) =>
            referenceLinkedFrom data frame next (content ++ decoded.bytes data) c := by
  rw [referenceLinkedFrom]
  split <;> simp only [*]

private theorem decodeLinkedFrom_refines (position : Nat) (content : List UInt8)
    (c : FrameCommitter xxh) :
    let decoded := decodeLinkedFrom data frame position (window content) c
    referenceLinkedFrom data frame position content c = (decoded.1, decoded.2.toOption) := by
  dsimp only
  induction position, content, c using referenceLinkedFrom.induct data frame with
  | case1 position content c error hnext =>
    simp [referenceLinkedFrom_eq, decodeLinkedFrom_eq, hnext, Except.toOption]
  | case2 position content c stop hnext =>
    simp [referenceLinkedFrom_eq, decodeLinkedFrom_eq, hnext, Except.toOption]
  | case3 position content c block after hnext hdecode =>
    obtain ⟨error, herror⟩ : ∃ error,
        decodeLayoutBlock xxh data block (window content) frame.maxBlockSize = .error error := by
      have hwindow := @decodeLayoutBlock_window xxh data block content frame.maxBlockSize
      rw [hdecode] at hwindow
      cases hresult : decodeLayoutBlock xxh data block (window content) frame.maxBlockSize with
      | error error => exact ⟨error, rfl⟩
      | ok decoded => simp [hresult, Except.toOption] at hwindow
    simp [referenceLinkedFrom_eq, decodeLinkedFrom_eq, hnext, hdecode, herror, Except.toOption]
  | case4 position content c block after hnext decoded hdecode c' error hcommit =>
    have hwindow := toOption_eq_some.mp ((decodeLayoutBlock_window ..).trans hdecode)
    simp [referenceLinkedFrom_eq, decodeLinkedFrom_eq, hnext, hdecode, hwindow, hcommit,
      Except.toOption]
  | case5 position content c block after hnext decoded hdecode c' hcommit ih =>
    have hwindow := toOption_eq_some.mp ((decodeLayoutBlock_window ..).trans hdecode)
    rw [referenceLinkedFrom_eq, decodeLinkedFrom_eq]
    simp only [hnext, hdecode, hwindow, hcommit, updateHistory_window]
    exact ih

/-- The rolling history stands for all the frame has put out. -/
theorem decodeLinked_refines (data : List UInt8) (frame : FrameHeader) (position : Nat)
    (c : FrameCommitter xxh) :
    (decodeLinked data frame position c).1 = (referenceLinked data frame position c).1 ∧
      (decodeLinked data frame position c).2.toOption =
        (referenceLinked data frame position c).2 := by
  have h := @decodeLinkedFrom_refines xxh data frame position [] c
  rw [referenceLinked, h]
  exact ⟨rfl, rfl⟩

end Frames

end Fbz.Lz4
