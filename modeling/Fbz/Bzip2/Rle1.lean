import Fbz.Crc

/-!
# The first run-length stage

The bytes are split into groups of one value. A group of four or more is four bytes and a count.
-/

namespace Fbz.Bzip2.Rle1

/-- The longest run a group can stand for. -/
def maxRun : Nat := 4 + 255

/-- A run of one byte; a group is never split across blocks. -/
structure Group where
  byte : UInt8
  rawLen : Nat
  deriving DecidableEq

namespace Group

def encodedLen (group : Group) : Nat := if 4 ≤ group.rawLen then 5 else group.rawLen

/-- What `write_into` appends. -/
def encoded (group : Group) : List UInt8 :=
  if 4 ≤ group.rawLen then List.replicate 4 group.byte ++ [UInt8.ofNat (group.rawLen - 4)]
  else List.replicate group.rawLen group.byte

def raw (group : Group) : List UInt8 := List.replicate group.rawLen group.byte

theorem encoded_length (group : Group) : group.encoded.length = group.encodedLen := by
  unfold encoded encodedLen
  split <;> simp

end Group

/-- The group that is open: `len` bytes so far. -/
structure Splitter where
  byte : UInt8
  len : Nat
  deriving DecidableEq

namespace Splitter

def new : Splitter := ⟨0, 0⟩

/-- `take`, which is also `finish`: the open group, if there is one. -/
def finish (s : Splitter) : Option Group × Splitter :=
  if s.len = 0 then (none, s) else (some ⟨s.byte, s.len⟩, { s with len := 0 })

/-- One byte, and the group it closes. -/
def push (s : Splitter) (byte : UInt8) : Option Group × Splitter :=
  if 0 < s.len ∧ byte = s.byte ∧ s.len < maxRun then (none, { s with len := s.len + 1 })
  else (s.finish.1, ⟨byte, 1⟩)

/-- The bytes that are in no group yet. -/
def raw (s : Splitter) : List UInt8 := List.replicate s.len s.byte

/-- The bytes of a group that may be missing. -/
def rawOf (group : Option Group) : List UInt8 := group.elim [] Group.raw

theorem finish_raw (s : Splitter) : rawOf s.finish.1 = s.raw := by
  unfold finish
  split
  · next hlen => rw [raw, hlen]; rfl
  · rfl

theorem push_raw (s : Splitter) (byte : UInt8) :
    rawOf (s.push byte).1 ++ (s.push byte).2.raw = s.raw ++ [byte] := by
  unfold push
  split
  · next hopen =>
    obtain ⟨-, rfl, -⟩ := hopen
    exact List.replicate_succ'
  · rw [finish_raw]
    rfl

end Splitter

end Fbz.Bzip2.Rle1
