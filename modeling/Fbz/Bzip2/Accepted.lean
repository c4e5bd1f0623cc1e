import Fbz.Bzip2.IndexRoundTrip
import Fbz.Bzip2.Layout

/-!
# What an accepted index says

An index comes from an untrusted file. What is checked on loading lays out blocks and streams, but
does not tie a stream to the lengths and the ends of its own blocks.
-/

namespace Fbz.Bzip2

/-- Blocks tile the decoded bytes, in parts that are not empty and start one behind the other in
the source; streams tile the blocks and the decoded bytes, and each block names its stream. -/
structure Index.Accepted (index : Index) : Prop where
  tiles : Tiles 0 index.blocks index.decodedLen
  nonempty : ∀ block ∈ index.blocks, block.decodedLen ≠ 0
  ranges : ∀ block ∈ index.blocks, block.compressedStartBit < block.compressedEndBit ∧
    block.compressedEndBit ≤ index.sourceLen * 8
  increasing : (index.blocks.map BlockIndex.compressedStartBit).Pairwise (· < ·)
  streamsTile : StreamsTile 0 0 index.streams index.blocks.length index.decodedLen
  own : ∀ number stream, index.streams[number]? = some stream →
    ∀ block ∈ slice index.blocks stream.firstBlock (stream.firstBlock + stream.blockCount),
      block.stream = number
  levels : ∀ stream ∈ index.streams, 1 ≤ stream.blockSize100k ∧ stream.blockSize100k ≤ 9
  ends : ∀ stream ∈ index.streams, stream.eosBit ≤ index.sourceLen * 8

section Loops

variable {bits count number first start stop last : Nat} {blocks : List BlockIndex}
  {streams : List StreamIndex}

private theorem checkedAdd_eq_ok {a b sum : Nat} {message : String} :
    Index.checkedAdd a b message = .ok sum ↔ a + b < 2 ^ 64 ∧ sum = a + b := by
  unfold Index.checkedAdd
  split
  · next h => simp only [Except.ok.injEq, h, true_and, eq_comm]
  · next h => simp only [reduceCtorEq, h, false_and]

private theorem validateBlocks_eq_ok {previous : Option Nat}
    (h : Index.validateBlocks bits count previous start blocks = .ok stop) :
    (Tiles start blocks stop ∧ (start < 2 ^ 64 → stop < 2 ^ 64)) ∧
      (∀ block ∈ blocks, block.decodedLen ≠ 0 ∧
        (block.compressedStartBit < block.compressedEndBit ∧ block.compressedEndBit ≤ bits) ∧
        block.stream < count) ∧
      (blocks.map BlockIndex.compressedStartBit).Pairwise (· < ·) ∧
      ∀ bit ∈ previous, ∀ block ∈ blocks, bit < block.compressedStartBit := by
  induction blocks generalizing previous start with
  | nil =>
    obtain rfl := Except.ok.inj h
    simp [Tiles]
  | cons block rest ih =>
    simp only [Index.validateBlocks, result_bind_eq_ok, ensure_eq_ok, checkedAdd_eq_ok] at h
    obtain ⟨-, ⟨hstart, hne⟩, -, hrange, -, hstream, _, ⟨hfits, rfl⟩, -, habove, hrest⟩ := h
    obtain ⟨⟨htiles, hstop⟩, hgood, hincreasing, hafter⟩ := ih hrest
    have hbehind : ∀ other ∈ rest, block.compressedStartBit < other.compressedStartBit :=
      hafter _ rfl
    refine ⟨⟨⟨hstart, htiles⟩, fun _ => hstop hfits⟩, ?_, ?_, ?_⟩
    · intro other hother
      rcases List.mem_cons.mp hother with rfl | hmem
      · exact ⟨hne, hrange, hstream⟩
      · exact hgood other hmem
    · rw [List.map_cons, List.pairwise_cons]
      refine ⟨?_, hincreasing⟩
      intro bit hbit
      obtain ⟨other, hother, rfl⟩ := List.mem_map.mp hbit
      exact hbehind other hother
    · intro bit hbit other hother
      have hbefore := habove bit hbit
      rcases List.mem_cons.mp hother with rfl | hmem
      · exact hbefore
      · exact Nat.lt_trans hbefore (hbehind other hmem)

private theorem validateStreams_eq_ok
    (h : Index.validateStreams bits blocks number first start streams = .ok (last, stop)) :
    StreamsTile first start streams last stop ∧
      (∀ stream ∈ streams, (1 ≤ stream.blockSize100k ∧ stream.blockSize100k ≤ 9) ∧
        stream.eosBit ≤ bits) ∧
      ∀ place stream, streams[place]? = some stream →
        ∀ block ∈ slice blocks stream.firstBlock (stream.firstBlock + stream.blockCount),
          block.stream = number + place := by
  induction streams generalizing number first start with
  | nil =>
    cases h
    simp [StreamsTile]
  | cons stream rest ih =>
    simp only [Index.validateStreams, result_bind_eq_ok, ensure_eq_ok, checkedAdd_eq_ok] at h
    obtain ⟨-, ⟨hlevel, rfl, hstart, heos⟩, _, ⟨-, rfl⟩, -, -, -, hown, _, ⟨-, rfl⟩, hrest⟩ := h
    obtain ⟨htile, hgood, howns⟩ := ih hrest
    refine ⟨⟨rfl, hstart, htile⟩, ?_, ?_⟩
    · intro other hother
      rcases List.mem_cons.mp hother with rfl | hmem
      · exact ⟨hlevel, heos⟩
      · exact hgood other hmem
    · intro place other hother
      cases place with
      | zero =>
        obtain rfl : stream = other := Option.some.inj hother
        exact hown
      | succ place =>
        have := howns place other hother
        rwa [Nat.add_right_comm, Nat.add_assoc] at this

end Loops

theorem Index.accepted_of_validate {index : Index} (h : index.validate = .ok ()) :
    index.Accepted ∧ index.sourceLen * 8 < 2 ^ 64 ∧ index.decodedLen < 2 ^ 64 ∧
      ∀ block ∈ index.blocks, block.stream < index.streams.length := by
  simp only [Index.validate, result_bind_eq_ok, ensure_eq_ok, Prod.exists] at h
  obtain ⟨-, hsource, decoded, hblocks, -, rfl, last, stop, hstreams, rfl, rfl⟩ := h
  obtain ⟨⟨htiles, hstop⟩, hgood, hincreasing, -⟩ := validateBlocks_eq_ok hblocks
  obtain ⟨htile, hlevels, hown⟩ := validateStreams_eq_ok hstreams
  refine ⟨?_, hsource, hstop (by decide), fun block hblock => (hgood block hblock).2.2⟩
  exact
    { tiles := htiles
      nonempty := fun block hblock => (hgood block hblock).1
      ranges := fun block hblock => (hgood block hblock).2.1
      increasing := hincreasing
      streamsTile := htile
      own := fun number stream hstream => by simpa using hown number stream hstream
      levels := fun stream hstream => (hlevels stream hstream).1
      ends := fun stream hstream => (hlevels stream hstream).2 }

theorem Index.validate_eq_ok {index : Index} (few : index.blocks.length < 2 ^ 64) :
    index.validate = .ok () ↔
      index.Accepted ∧ index.sourceLen * 8 < 2 ^ 64 ∧ index.decodedLen < 2 ^ 64 ∧
        ∀ block ∈ index.blocks, block.stream < index.streams.length := by
  refine ⟨Index.accepted_of_validate, ?_⟩
  rintro ⟨accepted, hsource, hdecoded, hstream⟩
  have hblocks := @validateBlocks_of_tiles (index.sourceLen * 8) index.streams.length 0 _ _ none
    accepted.tiles hdecoded (fun block hblock => ⟨accepted.nonempty block hblock,
      accepted.ranges block hblock, hstream block hblock⟩) accepted.increasing nofun
  have hstreams := @validateStreams_of_tile (index.sourceLen * 8) 0 _ _ _ _ _ _
    accepted.streamsTile (Nat.le_refl _) hdecoded few
    (fun stream hmem => ⟨accepted.levels stream hmem, accepted.ends stream hmem⟩)
    fun number stream hget => by simpa using accepted.own number stream hget
  simp only [Index.validate, result_bind_eq_ok, ensure_eq_ok]
  exact ⟨(), hsource, _, hblocks, (), rfl, _, hstreams, rfl, rfl⟩

theorem Index.validate_of_fromBytes {blake3 : Blake3} {encoded source : List UInt8} {index : Index}
    (h : Index.fromBytes blake3 encoded source = .ok index) :
    index.validate = .ok () ∧ index.sourceLen = source.length := by
  simp only [Index.fromBytes, result_bind_eq_ok, ensure_eq_ok] at h
  obtain ⟨-, -, -, -, _, -, -, -, _, -, -, -, _, -, _, -, _, -, _, -, _, -, -, hsource, -, -, -, -, _,
    -, _, -, _, hvalid, heq⟩ := h
  cases heq
  exact ⟨hvalid, hsource.1⟩

/-- Whatever file is loaded, the index that comes of it is laid out so. -/
theorem Index.fromBytes_accepted {blake3 : Blake3} {encoded source : List UInt8} {index : Index}
    (h : Index.fromBytes blake3 encoded source = .ok index) :
    index.sourceLen = source.length ∧ index.Accepted := by
  obtain ⟨hvalid, hsource⟩ := Index.validate_of_fromBytes h
  exact ⟨hsource, (Index.accepted_of_validate hvalid).1⟩

theorem Index.letterIndex_loads :
    Index.fromBytes Index.letterHash (Index.letterIndex.toBytes Index.letterHash) Index.letter =
      .ok Index.letterIndex :=
  Index.fromBytes_of_validate Index.letterHash Index.letterIndex_typed rfl rfl rfl

theorem Index.fromBytes_accepted_letter :
    Index.letterIndex.sourceLen = Index.letter.length ∧ Index.letterIndex.Accepted :=
  Index.fromBytes_accepted Index.letterIndex_loads

namespace Index

def blocksOf (index : Index) (stream : StreamIndex) : List BlockIndex :=
  slice index.blocks stream.firstBlock (stream.firstBlock + stream.blockCount)

/-- Streams describe the decoded ranges of their own blocks. -/
def Measured (index : Index) : Prop :=
  ∀ stream ∈ index.streams, Tiles stream.decodedStart (index.blocksOf stream)
    (stream.decodedStart + stream.decodedLen)

/-- Compressed ranges of a stream do not overlap. -/
def Apart (index : Index) : Prop :=
  ∀ stream ∈ index.streams, (index.blocksOf stream).Pairwise fun block other =>
    block.compressedStartBit < other.compressedStartBit ∧
      block.compressedEndBit ≤ other.compressedStartBit

/-- Blocks end before their stream does. -/
def Closed (index : Index) : Prop :=
  ∀ stream ∈ index.streams, ∀ block ∈ index.blocksOf stream,
    block.compressedEndBit ≤ stream.eosBit

structure Sound (index : Index) : Prop where
  tiles : Tiles 0 index.blocks index.decodedLen
  streamsTile : StreamsTile 0 0 index.streams index.blocks.length index.decodedLen
  measured : index.Measured
  apart : index.Apart
  closed : index.Closed

/-- Two streams on one byte: the first has both blocks, which overlap and end behind it, and the
second has the length of one of them. -/
def tangled (blake3 : Blake3) : Index where
  sourceLen := 1
  sourceHash := blake3.hash [0]
  decodedLen := 2
  streams := [⟨0, 9, 0, 2, 0, 1, 0, 0⟩, ⟨0, 9, 2, 0, 1, 1, 0, 0⟩]
  blocks := [⟨0, 5, 0, 1, 0, 0⟩, ⟨1, 3, 1, 1, 0, 0⟩]

private theorem tangled_loads (blake3 : Blake3) :
    fromBytes blake3 ((tangled blake3).toBytes blake3) [0] = .ok (tangled blake3) := by
  have typed : (tangled blake3).Typed := by
    refine ⟨(by decide : 2 < 2 ^ 64), ?_, ?_, (by decide : 2 * 56 < 2 ^ 63),
      (by decide : 2 * 48 < 2 ^ 63)⟩
    · intro stream hmem
      simp only [tangled, List.mem_cons, List.not_mem_nil, or_false] at hmem
      rcases hmem with rfl | rfl <;> constructor <;> decide
    · intro block hmem
      simp only [tangled, List.mem_cons, List.not_mem_nil, or_false] at hmem
      rcases hmem with rfl | rfl <;> constructor <;> decide
  exact fromBytes_of_validate blake3 typed rfl rfl rfl

/-- None of the three is checked, whatever the hash is. -/
theorem accepts_tangled : ¬ ∃ blake3 : Blake3, ∀ encoded source index,
    fromBytes blake3 encoded source = .ok index →
      index.Sound ∨ index.Measured ∨ index.Apart ∨ index.Closed := by
  rintro ⟨blake3, h⟩
  have hfirst : (⟨0, 9, 0, 2, 0, 1, 0, 0⟩ : StreamIndex) ∈ (tangled blake3).streams :=
    List.mem_cons_self
  have hmeasured : ¬ (tangled blake3).Measured := by
    intro h
    have htotal : 2 = 1 := (h _ hfirst).total
    cases htotal
  have happart : ¬ (tangled blake3).Apart := by
    intro h
    have hpair := ((List.pairwise_cons.mp (h _ hfirst)).1 _ List.mem_cons_self).2
    exact absurd hpair (by decide : ¬ 5 ≤ 1)
  have hclosed : ¬ (tangled blake3).Closed := by
    intro h
    have hend := h _ hfirst _ List.mem_cons_self
    exact absurd hend (by decide : ¬ 5 ≤ 0)
  rcases h _ _ _ (tangled_loads blake3) with sound | measured | apart | closed
  · exact hmeasured sound.measured
  · exact hmeasured measured
  · exact happart apart
  · exact hclosed closed

end Index

end Fbz.Bzip2
