import Mathlib.Data.List.Nodup
import Fbz.Bzip2.Layout

/-!
# Random access through an index

`IndexedReader` with its cache of decoded blocks. Whatever has been read and sought before, a read
returns the decoded bytes at the position, and the cache holds decoded blocks within its limit.
-/

namespace Fbz.Bzip2

/-- Entries of the map, with different keys; `order` has the block used last at its end. -/
structure BlockCache where
  entries : List (Nat × List UInt8) := []
  order : List Nat := []
  bytes : Nat := 0
  limit : Nat

namespace BlockCache

def get (cache : BlockCache) (number : Nat) : Option (List UInt8) × BlockCache :=
  match cache.entries.lookup number with
  | none => (none, cache)
  | some data =>
    (some data, { cache with order := cache.order.filter (· ≠ number) ++ [number] })

/-- One turn of the loop that makes room. -/
def dropOldest (cache : BlockCache) (oldest : Nat) (order : List Nat) : BlockCache :=
  match cache.entries.lookup oldest with
  | none => { cache with order }
  | some removed =>
    { cache with
      entries := cache.entries.filter fun entry => entry.1 ≠ oldest
      order, bytes := cache.bytes - removed.length }

theorem dropOldest_order (cache : BlockCache) (oldest : Nat) (order : List Nat) :
    (cache.dropOldest oldest order).order = order := by
  unfold dropOldest
  split <;> rfl

/-- Cached blocks are different parts of the output, so their sizes add up without overflow. -/
def makeRoom (cache : BlockCache) (size : Nat) : BlockCache :=
  if cache.bytes + size > cache.limit then
    match _h : cache.order with
    | [] => cache
    | oldest :: order => (cache.dropOldest oldest order).makeRoom size
  else cache
termination_by cache.order.length
decreasing_by
  rw [dropOldest_order, _h]
  exact Nat.lt_succ_self _

def insert (cache : BlockCache) (number : Nat) (data : List UInt8) : BlockCache :=
  if data.length > cache.limit then cache
  else
    let cache := cache.makeRoom data.length
    { cache with
      bytes := cache.bytes + data.length
      order := cache.order ++ [number]
      entries := (number, data) :: cache.entries.filter fun entry => entry.1 ≠ number }

end BlockCache

structure IndexedReader where
  source : List UInt8
  index : Index
  position : Nat
  cache : BlockCache

inductive SeekFrom
  | start (position : Nat)
  | current (offset : Int)
  | stop (offset : Int)

namespace IndexedReader

def fromSource (source : List UInt8) (index : Index) (cacheLimit : Nat) : IndexedReader :=
  { source, index, position := 0, cache := { limit := cacheLimit } }

/-- `partition_point` on blocks in order: how many end at or before the position. -/
def blockNumber (r : IndexedReader) (position : Nat) : Option (Fin r.index.blocks.length) :=
  let number := (r.index.blocks.takeWhile fun block =>
    block.decodedStart + block.decodedLen ≤ position).length
  if h : number < r.index.blocks.length then some ⟨number, h⟩ else none

/-- As much of a block as there is from the position on, at most `wanted` bytes. -/
def readBlockPart (r : IndexedReader) (number : Fin r.index.blocks.length) (wanted : Nat) :
    Result (List UInt8) × IndexedReader :=
  let block := r.index.blocks[number]
  let offset := r.position - block.decodedStart
  match r.cache.get number with
  | (some cached, cache) => (.ok ((cached.drop offset).take wanted), { r with cache })
  | (none, _) =>
    let level := (r.index.streams[block.stream]?.map StreamIndex.blockSize100k).getD 0
    match decodeBlock r.source block.compressedStartBit block.compressedEndBit level
        block.expectedCrc with
    | .error error => (.error error, r)
    | .ok decoded =>
      if decoded.length ≠ block.decodedLen then
        (.error (.invalidIndex "decoded block length does not match index"), r)
      else (.ok ((decoded.drop offset).take wanted),
        { r with cache := r.cache.insert number decoded })

/-- The loop of `Read::read`, with what it has read so far. -/
def readLoop (r : IndexedReader) (wanted : Nat) (got : List UInt8) :
    Except IoError (List UInt8) × IndexedReader :=
  if wanted ≠ 0 ∧ r.position < r.index.decodedLen then
    match r.blockNumber r.position with
    | none => (.error ⟨.invalidData, "index has a decoded gap"⟩, r)
    | some number =>
      match r.readBlockPart number wanted with
      | (.error error, r) => (.error ⟨.other, error.text⟩, r)
      | (.ok part, r) =>
        if _h : part.length = 0 then
          (.error ⟨.invalidData, "decoder made no progress"⟩, r)
        else
          readLoop { r with position := r.position + part.length } (wanted - part.length)
            (got ++ part)
  else (.ok got, r)
termination_by wanted

def read (r : IndexedReader) (requested : Nat) : Except IoError (List UInt8) × IndexedReader :=
  r.readLoop requested []

def target (r : IndexedReader) : SeekFrom → Int
  | .start position => position
  | .current offset => r.position + offset
  | .stop offset => r.index.decodedLen + offset

def seek (r : IndexedReader) (place : SeekFrom) : Except IoError Nat × IndexedReader :=
  if 0 ≤ r.target place ∧ r.target place ≤ r.index.decodedLen then
    (.ok (r.target place).toNat, { r with position := (r.target place).toNat })
  else (.error ⟨.invalidInput, "seek outside decompressed data"⟩, r)

/-- What a user of the reader can do. -/
inductive Operation
  | read (requested : Nat)
  | seek (place : SeekFrom)

def after (r : IndexedReader) : Operation → IndexedReader
  | .read requested => (r.read requested).2
  | .seek place => (r.seek place).2

end IndexedReader

/-- The bytes are those of the cached blocks, each block is in the order once, and what is cached
is the block's part of the output. -/
structure Consistent (blocks : List BlockIndex) (output : List UInt8) (cache : BlockCache) :
    Prop where
  bytes : cache.bytes = (cache.entries.map fun entry => entry.2.length).sum
  limit : cache.bytes ≤ cache.limit
  keys : (cache.entries.map Prod.fst).Nodup
  order : cache.order.Nodup
  listed : ∀ number, number ∈ cache.order ↔ number ∈ cache.entries.map Prod.fst
  decoded : ∀ number data, (number, data) ∈ cache.entries → ∃ block,
    blocks[number]? = some block ∧
      data = slice output block.decodedStart (block.decodedStart + block.decodedLen)

section Cache

variable {blocks : List BlockIndex} {output : List UInt8} {cache : BlockCache}

theorem mem_of_lookup {entries : List (Nat × List UInt8)} {number : Nat} {data : List UInt8}
    (h : entries.lookup number = some data) : (number, data) ∈ entries := by
  obtain ⟨pre, post, rfl, -⟩ := List.lookup_eq_some_iff.mp h
  simp

private theorem not_mem_of_lookup {entries : List (Nat × List UInt8)} {number : Nat}
    (h : entries.lookup number = none) : number ∉ entries.map Prod.fst := by
  intro hmem
  obtain ⟨entry, hentry, rfl⟩ := List.mem_map.mp hmem
  have := List.lookup_eq_none_iff.mp h entry hentry
  simp at this

private theorem sum_filter {entries : List (Nat × List UInt8)} {number : Nat} {data : List UInt8}
    (keys : (entries.map Prod.fst).Nodup) (mem : (number, data) ∈ entries) :
    data.length +
        ((entries.filter fun entry => entry.1 ≠ number).map fun entry => entry.2.length).sum =
      (entries.map fun entry => entry.2.length).sum := by
  induction entries with
  | nil => cases mem
  | cons entry rest ih =>
    obtain ⟨hfresh, hrest⟩ := List.nodup_cons.mp keys
    rcases List.mem_cons.mp mem with rfl | hmem
    · have hkeep : rest.filter (fun entry => entry.1 ≠ number) = rest :=
        List.filter_eq_self.mpr fun entry hentry => by
          have : entry.1 ≠ number := fun heq => hfresh (List.mem_map.mpr ⟨entry, hentry, heq⟩)
          simpa using this
      rw [List.filter_cons_of_neg (by simp), hkeep]
      rfl
    · have hne : entry.1 ≠ number := fun heq => hfresh (heq ▸ List.mem_map_of_mem hmem)
      have := ih hrest hmem
      rw [List.filter_cons_of_pos (by simpa using hne)]
      simp only [List.map_cons, List.sum_cons] at this ⊢
      omega

private theorem mem_keys_filter {entries : List (Nat × List UInt8)} {number other : Nat} :
    other ∈ (entries.filter fun entry => entry.1 ≠ number).map Prod.fst ↔
      other ∈ entries.map Prod.fst ∧ other ≠ number := by
  simp only [List.mem_map, List.mem_filter, decide_eq_true_eq]
  constructor
  · rintro ⟨entry, ⟨hmem, hne⟩, rfl⟩
    exact ⟨⟨entry, hmem, rfl⟩, hne⟩
  · rintro ⟨⟨entry, hmem, rfl⟩, hne⟩
    exact ⟨entry, ⟨hmem, hne⟩, rfl⟩

private theorem Consistent.get {number : Nat} {data : List UInt8} {cache' : BlockCache}
    (h : Consistent blocks output cache) (found : cache.get number = (some data, cache')) :
    Consistent blocks output cache' ∧ cache'.limit = cache.limit ∧
      (number, data) ∈ cache.entries := by
  unfold BlockCache.get at found
  split at found
  · cases found
  · next hlookup =>
    cases found
    have hmem := mem_of_lookup hlookup
    have hkey : number ∈ cache.entries.map Prod.fst := List.mem_map_of_mem hmem
    refine ⟨⟨h.bytes, h.limit, h.keys, ?_, fun other => ?_, h.decoded⟩, rfl, hmem⟩
    · refine List.nodup_append.mpr ⟨h.order.filter _, List.nodup_singleton _, ?_⟩
      rintro a ha b hb rfl
      simp [List.mem_singleton.mp hb] at ha
    · rw [List.mem_append, List.mem_filter, List.mem_singleton, h.listed]
      by_cases heq : other = number
      · simp [heq, hkey]
      · simp [heq]

private theorem Consistent.dropOldest {oldest : Nat} {order : List Nat}
    (h : Consistent blocks output cache) (first : cache.order = oldest :: order) :
    Consistent blocks output (cache.dropOldest oldest order) := by
  have hkey : oldest ∈ cache.entries.map Prod.fst :=
    (h.listed oldest).mp (first ▸ List.mem_cons_self)
  have horder := h.order
  rw [first] at horder
  obtain ⟨hfresh, hnodup⟩ := List.nodup_cons.mp horder
  unfold BlockCache.dropOldest
  split
  · next hlookup => exact absurd hkey (not_mem_of_lookup hlookup)
  · next removed hlookup =>
    have hsum := sum_filter h.keys (mem_of_lookup hlookup)
    have hbytes := h.bytes
    have hlimit := h.limit
    refine ⟨?_, ?_, ?_, hnodup, fun number => ?_, fun number data hmem => ?_⟩
    · dsimp only
      omega
    · dsimp only
      omega
    · exact h.keys.sublist (List.filter_sublist.map _)
    · have hlisted := h.listed number
      rw [first, List.mem_cons] at hlisted
      rw [mem_keys_filter, ← hlisted]
      constructor
      · exact fun hmem => ⟨.inr hmem, fun heq => hfresh (heq ▸ hmem)⟩
      · rintro ⟨heq | hmem, hne⟩
        · exact absurd heq hne
        · exact hmem
    · exact h.decoded number data (List.mem_filter.mp hmem).1

private theorem dropOldest_limit (cache : BlockCache) (oldest : Nat) (order : List Nat) :
    (cache.dropOldest oldest order).limit = cache.limit := by
  unfold BlockCache.dropOldest
  split <;> rfl

private theorem dropOldest_keys (cache : BlockCache) {oldest number : Nat} {order : List Nat}
    (mem : number ∈ (cache.dropOldest oldest order).entries.map Prod.fst) :
    number ∈ cache.entries.map Prod.fst := by
  unfold BlockCache.dropOldest at mem
  split at mem
  · exact mem
  · exact (mem_keys_filter.mp mem).1

private theorem Consistent.makeRoom {size : Nat} (h : Consistent blocks output cache)
    (le : size ≤ cache.limit) :
    Consistent blocks output (cache.makeRoom size) ∧
      (cache.makeRoom size).limit = cache.limit ∧
      (cache.makeRoom size).bytes + size ≤ cache.limit ∧
      ∀ number, number ∈ (cache.makeRoom size).entries.map Prod.fst →
        number ∈ cache.entries.map Prod.fst := by
  generalize hlength : cache.order.length = length
  induction length using Nat.strongRecOn generalizing cache with
  | ind length ih =>
    rw [BlockCache.makeRoom]
    split
    case isFalse hroom => exact ⟨h, rfl, by omega, fun _ => id⟩
    case isTrue hfull =>
      split
      · next hnil =>
        -- nothing is cached any more
        have hempty : cache.entries = [] := by
          cases hentries : cache.entries with
          | nil => rfl
          | cons entry rest =>
            have := (h.listed entry.1).mpr (by rw [hentries]; exact List.mem_cons_self)
            rw [hnil] at this
            cases this
        have hbytes := h.bytes
        rw [hempty] at hbytes
        simp only [List.map_nil, List.sum_nil] at hbytes
        omega
      · next oldest order hfirst =>
        have hshorter : (cache.dropOldest oldest order).order.length < length := by
          rw [BlockCache.dropOldest_order, ← hlength, hfirst]
          exact Nat.lt_succ_self _
        obtain ⟨hconsistent, hlimit, hbytes, hkeys⟩ :=
          ih _ hshorter (h.dropOldest hfirst) (by rwa [dropOldest_limit]) rfl
        rw [dropOldest_limit] at hlimit hbytes
        exact ⟨hconsistent, hlimit, hbytes, fun number hmem => dropOldest_keys _ (hkeys number hmem)⟩

private theorem Consistent.insert {number : Nat} {block : BlockIndex} {data : List UInt8}
    (h : Consistent blocks output cache) (fresh : number ∉ cache.entries.map Prod.fst)
    (here : blocks[number]? = some block)
    (decoded : data = slice output block.decodedStart (block.decodedStart + block.decodedLen)) :
    Consistent blocks output (cache.insert number data) ∧
      (cache.insert number data).limit = cache.limit := by
  unfold BlockCache.insert
  split
  · exact ⟨h, rfl⟩
  · next hle =>
    obtain ⟨hroom, hlimit, hbytes, hkeys⟩ := h.makeRoom (Nat.le_of_not_lt hle)
    have hfresh : number ∉ (cache.makeRoom data.length).entries.map Prod.fst :=
      fun hmem => fresh (hkeys number hmem)
    have hsame : (cache.makeRoom data.length).entries.filter (fun entry => entry.1 ≠ number) =
        (cache.makeRoom data.length).entries :=
      List.filter_eq_self.mpr fun entry hentry => by
        have : entry.1 ≠ number := fun heq => hfresh (heq ▸ List.mem_map_of_mem hentry)
        simpa using this
    dsimp only
    rw [hsame]
    refine ⟨⟨?_, ?_, ?_, ?_, fun other => ?_, fun other bytes hmem => ?_⟩, hlimit⟩
    · have := hroom.bytes
      simp only [List.map_cons, List.sum_cons]
      omega
    · dsimp only
      omega
    · exact List.nodup_cons.mpr ⟨hfresh, hroom.keys⟩
    · refine List.nodup_append.mpr ⟨hroom.order, List.nodup_singleton _, ?_⟩
      rintro a ha b hb rfl
      exact hfresh ((hroom.listed number).mp (List.mem_singleton.mp hb ▸ ha))
    · rw [List.mem_append, List.mem_singleton, hroom.listed, List.map_cons, List.mem_cons]
      exact or_comm
    · rcases List.mem_cons.mp hmem with heq | hmem
      · cases heq
        exact ⟨block, here, decoded⟩
      · exact hroom.decoded other bytes hmem

end Cache

/-- The block that holds a position. -/
theorem Tiles.find {blocks : List BlockIndex} {start stop position : Nat}
    (h : Tiles start blocks stop) (lo : start ≤ position) (hi : position < stop) :
    ∃ block, blocks[(blocks.takeWhile fun block =>
        block.decodedStart + block.decodedLen ≤ position).length]? = some block ∧
      block.decodedStart ≤ position ∧ position < block.decodedStart + block.decodedLen := by
  induction blocks generalizing start with
  | nil =>
    have : start = stop := h
    omega
  | cons block rest ih =>
    obtain ⟨hstart, hrest⟩ := h
    by_cases hpast : block.decodedStart + block.decodedLen ≤ position
    · obtain ⟨found, hfound, hrange⟩ := ih hrest (by omega)
      refine ⟨found, ?_, hrange⟩
      rw [List.takeWhile_cons_of_pos (by simpa using hpast)]
      exact hfound
    · refine ⟨block, ?_, by omega, by omega⟩
      rw [List.takeWhile_cons_of_neg (by simpa using hpast)]
      rfl

/-- A reader on an index that describes its source. -/
structure Reads (data output : List UInt8) (assembled : Assembled) (r : IndexedReader) : Prop where
  source : r.source = data
  decodedLen : r.index.decodedLen = output.length
  blocks : r.index.blocks = assembled.blocks
  streams : r.index.streams = assembled.streams
  position : r.position ≤ output.length
  cache : Consistent assembled.blocks output r.cache

section Reading

variable {blake3 : Blake3} {data output : List UInt8} {assembled : Assembled} {r : IndexedReader}

private theorem slice_drop_take {xs : List UInt8} {start length offset wanted : Nat}
    (le : offset ≤ length) :
    ((slice xs start (start + length)).drop offset).take wanted =
      slice xs (start + offset) (min (start + offset + wanted) (start + length)) := by
  unfold slice
  rw [List.drop_take, List.drop_drop, List.take_take]
  congr 1
  omega

/-- A part of the block at the position: at least one byte when one is wanted. -/
theorem Reads.readBlockPart (describes : Describes blake3 data output assembled)
    (h : Reads data output assembled r) (number : Fin r.index.blocks.length)
    (here : (r.index.blocks.get number).decodedStart ≤ r.position ∧
      r.position <
        (r.index.blocks.get number).decodedStart + (r.index.blocks.get number).decodedLen)
    (wanted : Nat) :
    ∃ stop r', r.readBlockPart number wanted = (.ok (slice output r.position stop), r') ∧
      Reads data output assembled r' ∧ r'.position = r.position ∧
      r'.cache.limit = r.cache.limit ∧ r.position ≤ stop ∧
      (0 < wanted → r.position < stop) ∧ stop ≤ min (r.position + wanted) output.length := by
  change r.index.blocks[number].decodedStart ≤ r.position ∧
    r.position < r.index.blocks[number].decodedStart + r.index.blocks[number].decodedLen at here
  generalize hblock : r.index.blocks[number] = block at here
  have hget : assembled.blocks[number.1]? = some block := by
    rw [← h.blocks, ← hblock]
    exact List.getElem?_eq_getElem number.2
  have hmem : block ∈ assembled.blocks := List.mem_of_getElem? hget
  have hend := (describes.tiles.mem hmem).2
  have hpart : ((slice output block.decodedStart (block.decodedStart + block.decodedLen)).drop
      (r.position - block.decodedStart)).take wanted = slice output r.position
        (min (r.position + wanted) (block.decodedStart + block.decodedLen)) := by
    rw [slice_drop_take (by omega), Nat.add_sub_cancel' here.1]
  unfold IndexedReader.readBlockPart
  rw [hblock]
  refine ⟨min (r.position + wanted) (block.decodedStart + block.decodedLen), ?_⟩
  cases hcache : r.cache.get number with
  | mk found cache' =>
    cases found with
    | some cached =>
      obtain ⟨hconsistent, hlimit, hcached⟩ := h.cache.get hcache
      obtain ⟨block', hblock', rfl⟩ := h.cache.decoded _ _ hcached
      cases hblock'.symm.trans hget
      exact ⟨_, congrArg (fun part => (Except.ok part, _)) hpart,
        ⟨h.source, h.decodedLen, h.blocks, h.streams, h.position, hconsistent⟩, rfl, hlimit,
        by omega, by omega, by omega⟩
    | none =>
      have hfresh : number.1 ∉ r.cache.entries.map Prod.fst := by
        unfold BlockCache.get at hcache
        split at hcache
        · next hlookup => exact not_mem_of_lookup hlookup
        · cases hcache
      obtain ⟨level, hlevel, hdecode⟩ := describes.replays block hmem
      have hstream : (r.index.streams[block.stream]?.map StreamIndex.blockSize100k).getD 0 =
          level := by
        rw [h.streams, ← List.getElem?_map, hlevel]
        rfl
      obtain ⟨hconsistent, hlimit⟩ := h.cache.insert hfresh hget rfl
      have hlength : (slice output block.decodedStart
          (block.decodedStart + block.decodedLen)).length = block.decodedLen := by
        rw [slice_length hend, Nat.add_sub_cancel_left]
      dsimp only
      rw [hstream, h.source, hdecode]
      dsimp only
      rw [if_neg (by simp [hlength]), hpart]
      exact ⟨_, rfl, ⟨rfl, h.decodedLen, h.blocks, h.streams, h.position, hconsistent⟩, rfl,
        hlimit, by omega, by omega, by omega⟩

private theorem slice_append_slice {xs : List UInt8} {start middle stop : Nat} (lo : start ≤ middle)
    (hi : middle ≤ stop) : slice xs start middle ++ slice xs middle stop = slice xs start stop := by
  unfold slice
  obtain ⟨length, rfl⟩ := Nat.exists_eq_add_of_le lo
  rw [Nat.add_sub_cancel_left, show stop - start = length + (stop - (start + length)) by omega,
    List.take_add, List.drop_drop]

/-- The loop of a read, by the number of bytes still wanted. -/
theorem Reads.readLoop (describes : Describes blake3 data output assembled)
    (h : Reads data output assembled r) (wanted : Nat) (got : List UInt8) :
    ∃ r', r.readLoop wanted got = (.ok (got ++ slice output r.position
        (min (r.position + wanted) output.length)), r') ∧ Reads data output assembled r' ∧
      r'.position = min (r.position + wanted) output.length ∧
      r'.cache.limit = r.cache.limit := by
  induction wanted using Nat.strongRecOn generalizing r got with
  | ind wanted ih =>
    rw [IndexedReader.readLoop]
    have hposition := h.position
    split
    case isFalse hdone =>
      rw [h.decodedLen] at hdone
      have hstop : min (r.position + wanted) output.length = r.position := by omega
      refine ⟨r, ?_, h, hstop.symm, rfl⟩
      rw [hstop, slice, Nat.sub_self, List.take_zero, List.append_nil]
    case isTrue hmore =>
      obtain ⟨hwanted, hinside⟩ := hmore
      rw [h.decodedLen] at hinside
      obtain ⟨block, hget, hrange⟩ := describes.tiles.find (Nat.zero_le r.position) hinside
      rw [← h.blocks] at hget
      obtain ⟨hnumber, hblock⟩ := List.getElem?_eq_some_iff.mp hget
      have hfound : r.blockNumber r.position = some ⟨_, hnumber⟩ := dif_pos hnumber
      rw [hfound]
      obtain ⟨stop, r', hpart, hreads, hsame, hlimit, hle, hlt, hstop⟩ :=
        h.readBlockPart describes ⟨_, hnumber⟩ (by rwa [← hblock] at hrange) wanted
      have hlt := hlt (Nat.pos_of_ne_zero hwanted)
      have hlength : (slice output r.position stop).length = stop - r.position :=
        slice_length (by omega)
      dsimp only
      rw [hpart]
      dsimp only
      rw [dif_neg (by omega), hlength, hsame, Nat.add_sub_cancel' hle]
      have hmoved : Reads data output assembled { r' with position := stop } :=
        ⟨hreads.source, hreads.decodedLen, hreads.blocks, hreads.streams, by dsimp only; omega,
          hreads.cache⟩
      obtain ⟨last, hrun, hreads', hend, hlimit'⟩ := ih (wanted - (stop - r.position)) (by omega)
        hmoved (got ++ slice output r.position stop)
      dsimp only at hrun hend hlimit'
      have hsum : stop + (wanted - (stop - r.position)) = r.position + wanted := by omega
      rw [hsum] at hrun hend
      rw [List.append_assoc, slice_append_slice hle (by omega)] at hrun
      exact ⟨last, hrun, hreads', hend, hlimit'.trans hlimit⟩

private theorem Reads.seek (h : Reads data output assembled r) (place : SeekFrom) :
    Reads data output assembled (r.seek place).2 ∧ (r.seek place).2.cache = r.cache := by
  unfold IndexedReader.seek
  split
  · next hinside =>
    refine ⟨⟨h.source, h.decodedLen, h.blocks, h.streams, ?_, h.cache⟩, rfl⟩
    have := h.decodedLen
    dsimp only
    omega
  · exact ⟨h, rfl⟩

private theorem Reads.after (describes : Describes blake3 data output assembled)
    (h : Reads data output assembled r) (operation : IndexedReader.Operation) :
    Reads data output assembled (r.after operation) ∧
      (r.after operation).cache.limit = r.cache.limit := by
  cases operation with
  | read requested =>
    obtain ⟨r', hrun, hreads, -, hlimit⟩ := h.readLoop describes requested []
    simp only [IndexedReader.after, IndexedReader.read, hrun]
    exact ⟨hreads, hlimit⟩
  | seek place =>
    obtain ⟨hreads, hcache⟩ := h.seek place
    exact ⟨hreads, congrArg BlockCache.limit hcache⟩

private theorem Reads.foldl (describes : Describes blake3 data output assembled)
    (h : Reads data output assembled r) (operations : List IndexedReader.Operation) :
    Reads data output assembled (operations.foldl IndexedReader.after r) ∧
      (operations.foldl IndexedReader.after r).cache.limit = r.cache.limit := by
  induction operations generalizing r with
  | nil => exact ⟨h, rfl⟩
  | cons operation rest ih =>
    obtain ⟨hreads, hlimit⟩ := h.after describes operation
    obtain ⟨hlast, hlimit'⟩ := ih hreads
    exact ⟨hlast, hlimit'.trans hlimit⟩

end Reading

private theorem Reads.fromSource {blake3 : Blake3} {data output : List UInt8}
    {assembled : Assembled}
    (describes : Describes blake3 data output assembled) (cacheLimit : Nat) :
    Reads data output assembled
      (IndexedReader.fromSource data (Index.new blake3 data assembled) cacheLimit) where
  source := rfl
  decodedLen := describes.decodedLen
  blocks := rfl
  streams := rfl
  position := Nat.zero_le _
  cache := {
    bytes := rfl
    limit := Nat.zero_le _
    keys := List.nodup_nil
    order := List.nodup_nil
    listed := fun _ => Iff.rfl
    decoded := nofun }

/-- Whatever was read and sought before, and whatever the cache holds: a read returns the output at
the position, a seek inside the output goes there, and a seek outside fails and changes nothing. -/
theorem indexedReader_exact {data : List UInt8} {markers : Markers} {a : Assembly}
    {assembled : Assembled} (h : Assembles data markers a assembled) (blake3 : Blake3)
    (cacheLimit : Nat) (operations : List IndexedReader.Operation) :
    let r := operations.foldl IndexedReader.after
      (IndexedReader.fromSource data (Index.new blake3 data assembled) cacheLimit)
    (Consistent assembled.blocks a.output r.cache ∧ r.cache.limit = cacheLimit) ∧
      (∀ requested, ∃ r',
        let stop := min (r.position + requested) a.output.length
        r.read requested = (.ok (slice a.output r.position stop), r') ∧ r'.position = stop) ∧
      ∀ place,
        (∀ target : Nat, r.target place = target → target ≤ a.output.length →
          r.seek place = (.ok target, { r with position := target })) ∧
        ((r.target place < 0 ∨ (a.output.length : Int) < r.target place) →
          r.seek place = (.error ⟨.invalidInput, "seek outside decompressed data"⟩, r)) := by
  intro r
  have describes := assembles_describes blake3 h
  obtain ⟨hreads, hlimit⟩ := (Reads.fromSource describes cacheLimit).foldl describes operations
  refine ⟨⟨hreads.cache, hlimit⟩, fun requested => ?_, fun place => ⟨fun target heq hle => ?_,
    fun houtside => ?_⟩⟩
  · obtain ⟨r', hrun, -, hposition, -⟩ := hreads.readLoop describes requested []
    exact ⟨r', hrun, hposition⟩
  · have hlength : r.index.decodedLen = a.output.length := hreads.decodedLen
    unfold IndexedReader.seek
    rw [heq, if_pos (by omega)]
    rfl
  · have hlength : r.index.decodedLen = a.output.length := hreads.decodedLen
    exact if_neg (by omega)

/-- Two blocks and a cache that holds one of them, read across the border and sought in. -/
theorem indexedReader_exact_letters :
    let r := [.read 2, .seek (.start 1), .read 5, .seek (.stop (-2))].foldl IndexedReader.after
      (IndexedReader.fromSource letters (Index.new Index.letterHash letters lettersAssembled) 1)
    (Consistent lettersAssembled.blocks [0x61, 0x61] r.cache ∧ r.cache.limit = 1) ∧
      (∃ r', r.read 5 = (.ok [0x61, 0x61], r') ∧ r'.position = 2) ∧
      (r.seek (.stop (-1))).1 = .ok 1 ∧
      (r.seek (.stop 1)).1 = .error ⟨.invalidInput, "seek outside decompressed data"⟩ := by
  intro r
  obtain ⟨hcache, hread, hseek⟩ := indexedReader_exact (.serial letters_run) Index.letterHash
    1 [.read 2, .seek (.start 1), .read 5, .seek (.stop (-2))]
  have hstands : r.position = 0 ∧ r.target (.stop (-1)) = 1 ∧ r.target (.stop 1) = 3 := by
    decide +kernel
  obtain ⟨hposition, hinside, houtside⟩ := hstands
  obtain ⟨r', hread, hafter⟩ := hread 5
  rw [show List.foldl _ _ _ = r from rfl, hposition] at hread hafter
  refine ⟨hcache, ⟨r', hread, hafter⟩, ?_, ?_⟩
  · exact congrArg Prod.fst ((hseek (.stop (-1))).1 1 hinside (by decide))
  · exact congrArg Prod.fst ((hseek (.stop 1)).2 (.inr (houtside ▸ by decide)))

end Fbz.Bzip2
