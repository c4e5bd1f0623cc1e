import Fbz.Bzip2.Accepted
import Fbz.Bzip2.IndexedReader

/-!
# Reads that fail

A read passes over the blocks it touches one after the other and moves the position past each. When
a later block turns out bad, the bytes of the earlier ones are gone: the error does not say that they
were read, and the position is behind them.
-/

namespace Fbz.Bzip2

open IndexedReader

/-- A block that decodes to a part of the indexed length, at the level of its stream. -/
def Decodes (source : List UInt8) (index : Index) (block : BlockIndex) (decoded : List UInt8) :
    Prop :=
  decodeBlock source block.compressedStartBit block.compressedEndBit
      ((index.streams[block.stream]?.map StreamIndex.blockSize100k).getD 0) block.expectedCrc =
        .ok decoded ∧
    decoded.length = block.decodedLen

/-- Blocks with bytes of a request. -/
def Touches (position requested : Nat) (block : BlockIndex) : Prop :=
  0 < requested ∧ block.decodedStart < position + requested ∧
    position < block.decodedStart + block.decodedLen

/-- All blocks of the request decode, or the one at the position does not. -/
def Retryable (source : List UInt8) (index : Index) (position requested : Nat) : Prop :=
  (∀ block ∈ index.blocks, Touches position requested block →
      ∃ decoded, Decodes source index block decoded) ∨
    ∃ block ∈ index.blocks, Touches position requested block ∧ block.decodedStart ≤ position ∧
      ¬ ∃ decoded, Decodes source index block decoded

/-- A reader that was opened on this source with this index. -/
structure Opened (source : List UInt8) (index : Index) (r : IndexedReader) : Prop where
  same : r.source = source ∧ r.index = index
  position : r.position ≤ index.decodedLen
  cached : ∀ number data, (number, data) ∈ r.cache.entries →
    ∃ block, index.blocks[number]? = some block ∧ Decodes source index block data

section Cache

variable {cache : BlockCache}

private theorem dropOldest_entries {oldest : Nat} {order : List Nat} {entry : Nat × List UInt8}
    (mem : entry ∈ (cache.dropOldest oldest order).entries) : entry ∈ cache.entries := by
  unfold BlockCache.dropOldest at mem
  split at mem
  · exact mem
  · exact (List.mem_filter.mp mem).1

private theorem makeRoom_entries {size : Nat} {entry : Nat × List UInt8}
    (mem : entry ∈ (cache.makeRoom size).entries) : entry ∈ cache.entries := by
  generalize hlength : cache.order.length = length
  induction length using Nat.strongRecOn generalizing cache with
  | ind length ih =>
    rw [BlockCache.makeRoom] at mem
    split at mem
    case isFalse => exact mem
    case isTrue =>
      split at mem
      · exact mem
      · next oldest order hfirst =>
        have hshorter : (cache.dropOldest oldest order).order.length < length := by
          rw [BlockCache.dropOldest_order, ← hlength, hfirst]
          exact Nat.lt_succ_self _
        exact dropOldest_entries (ih _ hshorter mem rfl)

private theorem insert_entries {number : Nat} {data : List UInt8} {entry : Nat × List UInt8}
    (mem : entry ∈ (cache.insert number data).entries) :
    entry = (number, data) ∨ entry ∈ cache.entries := by
  unfold BlockCache.insert at mem
  split at mem
  · exact .inr mem
  · rcases List.mem_cons.mp mem with rfl | hrest
    · exact .inl rfl
    · exact .inr (makeRoom_entries (List.mem_filter.mp hrest).1)

private theorem get_entries {number : Nat} {found : Option (List UInt8)} {cache' : BlockCache}
    (h : cache.get number = (found, cache')) :
    cache'.entries = cache.entries ∧ ∀ data ∈ found, (number, data) ∈ cache.entries := by
  unfold BlockCache.get at h
  split at h
  · cases h
    exact ⟨rfl, by simp⟩
  · next data hlookup =>
    cases h
    refine ⟨rfl, ?_⟩
    rintro _ ⟨⟩
    exact mem_of_lookup hlookup

end Cache

section Reading

variable {source : List UInt8} {index : Index} {r : IndexedReader}

private theorem Decodes.unique {block : BlockIndex} {decoded other : List UInt8}
    (h : Decodes source index block decoded) (h' : Decodes source index block other) :
    decoded = other := Except.ok.inj (h.1.symm.trans h'.1)

/-- A block that decodes is read, from the cache or from the source. -/
theorem Opened.readBlockPart (h : Opened source index r) {number : Fin r.index.blocks.length}
    {decoded : List UInt8} (good : Decodes source index (r.index.blocks.get number) decoded)
    (wanted : Nat) :
    ∃ r', r.readBlockPart number wanted =
        (.ok ((decoded.drop (r.position - (r.index.blocks.get number).decodedStart)).take wanted),
          r') ∧
      Opened source index r' ∧ r'.position = r.position := by
  obtain ⟨rfl, rfl⟩ := h.same
  change Decodes _ _ r.index.blocks[number] _ at good
  have hget : r.index.blocks[number.1]? = some r.index.blocks[number] :=
    List.getElem?_eq_getElem number.2
  unfold IndexedReader.readBlockPart
  cases hcache : r.cache.get number with
  | mk found cache' =>
    obtain ⟨hentries, hfound⟩ := get_entries hcache
    cases found with
    | some cached =>
      obtain ⟨block, hblock, hcached⟩ := h.cached _ _ (hfound cached rfl)
      obtain rfl := Option.some.inj (hblock.symm.trans hget)
      obtain rfl := hcached.unique good
      exact ⟨_, rfl, ⟨h.same, h.position, hentries ▸ h.cached⟩, rfl⟩
    | none =>
      dsimp only
      rw [good.1]
      dsimp only
      rw [if_neg (not_not.mpr good.2)]
      refine ⟨_, rfl, ⟨h.same, h.position, ?_⟩, rfl⟩
      intro other data hmem
      rcases insert_entries hmem with heq | hold
      · cases heq
        exact ⟨_, hget, good⟩
      · exact h.cached other data hold

private theorem Opened.readBlockPart_bad (h : Opened source index r)
    {number : Fin r.index.blocks.length}
    (bad : ¬ ∃ decoded, Decodes source index (r.index.blocks.get number) decoded) (wanted : Nat) :
    ∃ error, r.readBlockPart number wanted = (.error error, r) := by
  obtain ⟨rfl, rfl⟩ := h.same
  change ¬ ∃ decoded, Decodes _ _ r.index.blocks[number] decoded at bad
  have hget : r.index.blocks[number.1]? = some r.index.blocks[number] :=
    List.getElem?_eq_getElem number.2
  unfold IndexedReader.readBlockPart
  cases hcache : r.cache.get number with
  | mk found cache' =>
    obtain ⟨-, hfound⟩ := get_entries hcache
    cases found with
    | some cached =>
      obtain ⟨block, hblock, hcached⟩ := h.cached _ _ (hfound cached rfl)
      obtain rfl := Option.some.inj (hblock.symm.trans hget)
      exact absurd ⟨_, hcached⟩ bad
    | none =>
      dsimp only
      split
      · next error _ => exact ⟨error, rfl⟩
      · next decoded hdecode =>
        rw [if_pos]
        · exact ⟨_, rfl⟩
        · intro hlength
          exact bad ⟨decoded, hdecode, hlength⟩

private theorem Opened.block (h : Opened source index r) (accepted : index.Accepted)
    (more : r.position < index.decodedLen) :
    ∃ number, r.blockNumber r.position = some number ∧ r.index.blocks[number] ∈ index.blocks ∧
      r.index.blocks[number].decodedStart ≤ r.position ∧
      r.position < r.index.blocks[number].decodedStart + r.index.blocks[number].decodedLen ∧
      r.index.blocks[number].decodedStart + r.index.blocks[number].decodedLen ≤
        index.decodedLen := by
  obtain ⟨rfl, rfl⟩ := h.same
  obtain ⟨block, hget, hrange⟩ := accepted.tiles.find (Nat.zero_le r.position) more
  obtain ⟨hnumber, rfl⟩ := List.getElem?_eq_some_iff.mp hget
  have hmem := List.mem_of_getElem? hget
  exact ⟨⟨_, hnumber⟩, dif_pos hnumber, hmem, hrange.1, hrange.2, (accepted.tiles.mem hmem).2⟩

private theorem Tiles.overlap {blocks : List BlockIndex} {start stop : Nat}
    (h : Tiles start blocks stop)
    {block other : BlockIndex} (mem : block ∈ blocks) (mem' : other ∈ blocks)
    (before : block.decodedStart < other.decodedStart + other.decodedLen)
    (before' : other.decodedStart < block.decodedStart + block.decodedLen) : block = other := by
  induction blocks generalizing start with
  | nil => cases mem
  | cons first rest ih =>
    obtain ⟨hstart, hrest⟩ := h
    rcases List.mem_cons.mp mem with rfl | hmem <;> rcases List.mem_cons.mp mem' with rfl | hmem'
    · rfl
    · have := (hrest.mem hmem').1
      omega
    · have := (hrest.mem hmem).1
      omega
    · exact ih hrest hmem hmem'

/-- One turn of the loop: nothing is left to read, or the block at the position fails, or its bytes
are read. -/
theorem Opened.readLoop_cases (h : Opened source index r) (accepted : index.Accepted)
    (wanted : Nat) (got : List UInt8) :
    (r.readLoop wanted got = (.ok got, r) ∧
        ∀ block ∈ index.blocks, ¬ Touches r.position wanted block) ∨
      (∃ error, r.readLoop wanted got = (.error error, r) ∧
        ∃ block ∈ index.blocks, Touches r.position wanted block ∧
          block.decodedStart ≤ r.position ∧ ¬ ∃ decoded, Decodes source index block decoded) ∨
      ∃ count r' got', 0 < count ∧ count ≤ wanted ∧ Opened source index r' ∧
        r'.position = r.position + count ∧
        r.readLoop wanted got = r'.readLoop (wanted - count) got' ∧
        ∀ block ∈ index.blocks, Touches r.position wanted block →
          (block.decodedStart ≤ r.position ∨ ¬ Touches r'.position (wanted - count) block) →
            ∃ decoded, Decodes source index block decoded := by
  by_cases hmore : wanted ≠ 0 ∧ r.position < r.index.decodedLen
  case neg =>
    left
    refine ⟨?_, ?_⟩
    · rw [IndexedReader.readLoop, if_neg hmore]
    · intro block hmem htouch
      have hend := (accepted.tiles.mem hmem).2
      rw [h.same.2] at hmore
      have hpos := htouch.1
      have hinside := htouch.2.2
      exact hmore ⟨by omega, by omega⟩
  case pos =>
  obtain ⟨number, hnumber, hmem, hlo, hhi, hend⟩ := h.block accepted (h.same.2 ▸ hmore.2)
  have htouch : Touches r.position wanted r.index.blocks[number] :=
    ⟨Nat.pos_of_ne_zero hmore.1, by omega, hhi⟩
  right
  by_cases hgood : ∃ decoded, Decodes source index r.index.blocks[number] decoded
  case neg =>
    left
    obtain ⟨error, hbad⟩ := h.readBlockPart_bad hgood wanted
    have hunfold : r.readLoop wanted got = (.error ⟨.other, error.text⟩, r) := by
      rw [IndexedReader.readLoop, if_pos hmore, hnumber]
      dsimp only
      rw [hbad]
    exact ⟨_, hunfold, _, hmem, htouch, hlo, hgood⟩
  case pos =>
    right
    obtain ⟨decoded, hdecodes⟩ := hgood
    obtain ⟨r', hpart, hopened, hposition⟩ := h.readBlockPart hdecodes wanted
    obtain ⟨part, hpartEq⟩ : ∃ part, part =
        (decoded.drop (r.position - r.index.blocks[number].decodedStart)).take wanted := ⟨_, rfl⟩
    have hlength : part.length = min wanted
        (r.index.blocks[number].decodedLen - (r.position - r.index.blocks[number].decodedStart)) := by
      rw [hpartEq, List.length_take, List.length_drop, hdecodes.2]
    have hpos : part.length ≠ 0 := by omega
    change r.readBlockPart number wanted = (.ok ((decoded.drop
      (r.position - r.index.blocks[number].decodedStart)).take wanted), r') at hpart
    rw [← hpartEq] at hpart
    have hunfold : r.readLoop wanted got =
        readLoop { r' with position := r'.position + part.length } (wanted - part.length)
          (got ++ part) := by
      rw [IndexedReader.readLoop, if_pos hmore, hnumber]
      dsimp only
      rw [hpart]
      exact if_neg hpos
    refine ⟨part.length, { r' with position := r'.position + part.length }, got ++ part, by omega,
      by omega, ⟨hopened.same, ?_, hopened.cached⟩, ?_, hunfold, ?_⟩
    · dsimp only
      omega
    · dsimp only
      rw [hposition]
    · intro block hblock hreads hnear
      have hsame : block = r.index.blocks[number] := by
        have hstart := hreads.2.1
        have hstop := hreads.2.2
        have hne := accepted.nonempty block hblock
        apply accepted.tiles.overlap hblock hmem
        · rcases hnear with hat | hpast
          · omega
          · refine Nat.lt_of_not_le fun hge => hpast ⟨?_, ?_, ?_⟩
            · omega
            · dsimp only
              omega
            · dsimp only
              omega
        · omega
      exact hsame ▸ ⟨decoded, hdecodes⟩

private theorem Opened.readLoop (h : Opened source index r) (accepted : index.Accepted)
    (wanted : Nat) (got : List UInt8) :
    Opened source index (r.readLoop wanted got).2 ∧
      r.position ≤ (r.readLoop wanted got).2.position := by
  induction wanted using Nat.strongRecOn generalizing r got with
  | ind wanted ih =>
    rcases h.readLoop_cases accepted wanted got with ⟨hrun, -⟩ | ⟨error, hrun, -⟩ |
      ⟨count, r', got', hpos, hle, hopened, hposition, hrun, -⟩
    · rw [hrun]
      exact ⟨h, Nat.le_refl _⟩
    · rw [hrun]
      exact ⟨h, Nat.le_refl _⟩
    · obtain ⟨hafter, hmoved⟩ := ih (wanted - count) (by omega) hopened got'
      rw [hrun]
      exact ⟨hafter, by omega⟩

/-- A read succeeds exactly when the blocks it touches decode. -/
theorem Opened.readLoop_ok_iff (h : Opened source index r) (accepted : index.Accepted)
    (wanted : Nat) (got : List UInt8) :
    (∃ bytes, (r.readLoop wanted got).1 = .ok bytes) ↔
      ∀ block ∈ index.blocks, Touches r.position wanted block →
        ∃ decoded, Decodes source index block decoded := by
  induction wanted using Nat.strongRecOn generalizing r got with
  | ind wanted ih =>
    rcases h.readLoop_cases accepted wanted got with ⟨hrun, hnone⟩ |
      ⟨error, hrun, block, hblock, htouch, -, hbad⟩ |
      ⟨count, r', got', hpos, hle, hopened, hposition, hrun, hfirst⟩
    · rw [hrun]
      constructor
      · intro _ block hblock htouch
        exact absurd htouch (hnone block hblock)
      · intro _
        exact ⟨got, rfl⟩
    · rw [hrun]
      constructor
      · rintro ⟨bytes, hbytes⟩
        cases hbytes
      · intro hall
        exact absurd (hall block hblock htouch) hbad
    · rw [hrun, ih (wanted - count) (by omega) hopened got']
      constructor
      · intro hrest block hblock htouch
        by_cases hlater : Touches r'.position (wanted - count) block
        · exact hrest block hblock hlater
        · exact hfirst block hblock htouch (.inr hlater)
      · intro hall block hblock htouch
        have hstart := htouch.2.1
        have hstop := htouch.2.2
        exact hall block hblock ⟨by omega, by omega, by omega⟩

private theorem Opened.read_iff (h : Opened source index r) (accepted : index.Accepted)
    (requested : Nat) :
    (∀ error r', r.read requested = (.error error, r') → r'.position = r.position) ↔
      Retryable source index r.position requested := by
  rw [Retryable, ← h.readLoop_ok_iff accepted requested []]
  unfold IndexedReader.read
  rcases h.readLoop_cases accepted requested [] with ⟨hrun, -⟩ |
    ⟨error, hrun, block, hblock, htouch, hat, hbad⟩ |
    ⟨count, r', got', hpos, hle, hopened, hposition, hrun, hfirst⟩
  · simp [hrun]
  · constructor
    · intro _
      exact .inr ⟨block, hblock, htouch, hat, hbad⟩
    · intro _ other r' heq
      rw [hrun] at heq
      cases heq
      rfl
  · obtain ⟨-, hmoved⟩ := hopened.readLoop accepted (requested - count) got'
    rw [hrun]
    constructor
    · intro hkeep
      left
      cases hresult : r'.readLoop (requested - count) got' with
      | mk outcome last =>
        cases outcome with
        | ok bytes => exact ⟨bytes, rfl⟩
        | error error =>
          have := hkeep error last hresult
          rw [hresult] at hmoved
          dsimp only at hmoved
          omega
    · rintro (⟨bytes, hbytes⟩ | ⟨block, hblock, htouch, hat, hbad⟩) error last hresult
      · rw [hresult] at hbytes
        cases hbytes
      · exact absurd (hfirst block hblock htouch (.inl hat)) hbad

private theorem Opened.after (h : Opened source index r) (accepted : index.Accepted)
    (operation : IndexedReader.Operation) : Opened source index (r.after operation) := by
  cases operation with
  | read requested => exact (h.readLoop accepted requested []).1
  | seek place =>
    simp only [IndexedReader.after, IndexedReader.seek]
    split
    · next hinside =>
      refine ⟨h.same, ?_, h.cached⟩
      rw [h.same.2] at hinside
      dsimp only
      omega
    · exact h

private theorem Opened.foldl (h : Opened source index r) (accepted : index.Accepted)
    (operations : List IndexedReader.Operation) :
    Opened source index (operations.foldl IndexedReader.after r) := by
  induction operations generalizing r with
  | nil => exact h
  | cons operation rest ih => exact ih (h.after accepted operation)

end Reading

/-- After any calls, a failed read keeps the position exactly when the block at the position is the
one that fails. -/
theorem read_keeps_position_iff {blake3 : Blake3} {encoded source : List UInt8} {index : Index}
    (loaded : Index.fromBytes blake3 encoded source = .ok index) (cacheLimit : Nat)
    (operations : List IndexedReader.Operation) (requested : Nat) :
    let r := operations.foldl IndexedReader.after
      (IndexedReader.fromSource source index cacheLimit)
    (∀ error r', r.read requested = (.error error, r') → r'.position = r.position) ↔
      Retryable source index r.position requested := by
  have accepted := (Index.accepted_of_validate (Index.validate_of_fromBytes loaded).1).1
  have hopened : Opened source index (IndexedReader.fromSource source index cacheLimit) :=
    ⟨⟨rfl, rfl⟩, Nat.zero_le _, nofun⟩
  exact (hopened.foldl accepted operations).read_iff accepted requested

private theorem letter_decodes : decodeBlock Index.letter 32 211 9 429103979 = .ok [97] := by
  decide +kernel

theorem read_keeps_position_letter : ¬ ∃ error r',
    IndexedReader.read (IndexedReader.fromSource Index.letter Index.letterIndex 0) 1 =
      (.error error, r') ∧ r'.position ≠ 0 := by
  rintro ⟨error, r', hread, hmoved⟩
  refine hmoved ((read_keeps_position_iff Index.letterIndex_loads 0 [] 1).mpr (.inl ?_) error r'
    hread)
  intro block hmem _
  obtain rfl := List.mem_singleton.mp hmem
  exact ⟨[97], letter_decodes, rfl⟩

/-- The letter behind an index that promises a second block inside the first. -/
def brokenIndex (blake3 : Blake3) : Index :=
  ⟨37, blake3.hash Index.letter, 2, [⟨0, 9, 0, 2, 0, 2, 211, 429103979⟩],
    [⟨32, 211, 0, 1, 429103979, 0⟩, ⟨33, 211, 1, 1, 0, 0⟩]⟩

private theorem brokenIndex_loads (blake3 : Blake3) :
    Index.fromBytes blake3 ((brokenIndex blake3).toBytes blake3) Index.letter =
      .ok (brokenIndex blake3) := by
  have typed : (brokenIndex blake3).Typed := by
    refine ⟨(by decide : 2 < 2 ^ 64), ?_, ?_, (by decide : 1 * 56 < 2 ^ 63),
      (by decide : 2 * 48 < 2 ^ 63)⟩
    · intro stream hmem
      obtain rfl := List.mem_singleton.mp hmem
      constructor <;> decide
    · intro block hmem
      simp only [brokenIndex, List.mem_cons, List.not_mem_nil, or_false] at hmem
      rcases hmem with rfl | rfl <;> constructor <;> decide
  exact Index.fromBytes_of_validate blake3 typed rfl rfl rfl

/-- A read of two bytes passes the letter and then fails, whatever the hash is. -/
theorem read_loses_letter : ¬ ∃ blake3 : Blake3,
    ∀ (encoded source : List UInt8) (index : Index) (cacheLimit : Nat)
      (operations : List IndexedReader.Operation) (requested : Nat),
      Index.fromBytes blake3 encoded source = .ok index →
      let r := operations.foldl IndexedReader.after
        (IndexedReader.fromSource source index cacheLimit)
      ∀ error r', r.read requested = (.error error, r') → r'.position = r.position := by
  rintro ⟨blake3, h⟩
  have hloads := brokenIndex_loads blake3
  have accepted := (Index.accepted_of_validate (Index.validate_of_fromBytes hloads).1).1
  have hopened : Opened Index.letter (brokenIndex blake3)
      (IndexedReader.fromSource Index.letter (brokenIndex blake3) 0) :=
    ⟨⟨rfl, rfl⟩, Nat.zero_le _, nofun⟩
  have hbad : ¬ ∃ decoded, Decodes Index.letter (brokenIndex blake3) ⟨33, 211, 1, 1, 0, 0⟩ decoded := by
    rintro ⟨decoded, hdecode, -⟩
    have herror : decodeBlock Index.letter 33 211 9 0 = .error (.decode 33 .invalidMagic) := by
      decide +kernel
    cases herror.symm.trans hdecode
  rcases (hopened.read_iff accepted 2).mp (h _ _ _ 0 [] 2 hloads) with hall |
    ⟨block, hmem, -, hat, hfails⟩
  · apply hbad
    apply hall _ (List.mem_cons_of_mem _ List.mem_cons_self)
    exact ⟨by decide, (by decide : 1 < 0 + 2), (by decide : 0 < 1 + 1)⟩
  · simp only [brokenIndex, List.mem_cons, List.not_mem_nil, or_false] at hmem
    rcases hmem with rfl | rfl
    · exact hfails ⟨[97], letter_decodes, rfl⟩
    · exact absurd hat (by decide : ¬ 1 ≤ 0)

end Fbz.Bzip2
