import Fbz.Deflate.Chain

/-!
# The pieces of a stream

The grid cuts the blocks of a stream into pieces, one for each segment. What decoding a stream from
some bit on gives is what its next segment gives, resolved, and what follows that segment gives.
-/

namespace Fbz.Deflate

open DeflateOutput

variable {crc : Crc32}

private theorem drop_eq_drop {α : Type} {xs : List α} {m n : Nat}
    (h : min m xs.length = min n xs.length) : xs.drop m = xs.drop n := by
  rcases Nat.lt_or_ge m xs.length with hm | hm
  · rcases Nat.lt_or_ge n xs.length with hn | hn
    · rw [show m = n by omega]
    · omega
  · rw [List.drop_eq_nil_of_le hm, List.drop_eq_nil_of_le (by omega)]

private theorem resolveSegment_marked {segment : Segment crc} {before : List UInt8}
    {resolved : ResolvedSegment crc} (valid : ∀ symbol ∈ segment.marked, IsSymbol symbol)
    (h : resolveSegment segment (lastWindow before) = .ok resolved) :
    segment.marked.map (place (lastWindow before)) = resolved.marked.map some ∧
      resolved.bytes = resolved.marked ++ segment.cleanOutput := by
  obtain ⟨marked, hmarked, heq⟩ := result_bind_eq_ok.mp h
  obtain rfl := Except.ok.inj heq
  exact ⟨(resolveSymbols_eq_ok valid).mp hmarked, rfl⟩

private theorem last_append₃ {α : Type} (window : Nat) (before marked clean : List α) :
    (before ++ (marked ++ clean)).drop ((before ++ (marked ++ clean)).length -
        min (before ++ (marked ++ clean)).length window) =
      before.drop (before.length + (marked.length + clean.length) - window) ++
        (marked.drop (marked.length + clean.length - window) ++
          clean.drop (clean.length - window)) := by
  rw [List.drop_append, List.drop_append]
  simp only [List.length_append]
  exact congrArg₂ (· ++ ·) (drop_eq_drop (by omega))
    (congrArg₂ (· ++ ·) (drop_eq_drop (by omega)) (drop_eq_drop (by omega)))

private theorem last_clean {α : Type} {window : Nat} {before marked clean : List α}
    (long : window ≤ clean.length) :
    clean.drop (clean.length - window) =
      (before ++ (marked ++ clean)).drop ((before ++ (marked ++ clean)).length -
        min (before ++ (marked ++ clean)).length window) := by
  rw [last_append₃, @List.drop_eq_nil_of_le _ before _ (by omega),
    @List.drop_eq_nil_of_le _ marked _ (by omega)]
  rfl

private theorem last_marked {α : Type} {window : Nat} {before marked clean : List α}
    (short : clean.length < window) {count : Nat}
    (hcount : count = marked.length - min (window - clean.length) marked.length) :
    (before.drop (before.length - min before.length window)).drop
        (min before.length window - min (window - ((marked.drop count).length + clean.length))
          (min before.length window)) ++ marked.drop count ++ clean =
      (before ++ (marked ++ clean)).drop ((before ++ (marked ++ clean)).length -
        min (before ++ (marked ++ clean)).length window) := by
  rw [last_append₃, show clean.length - window = 0 by omega, List.drop_zero, List.drop_drop,
    List.append_assoc]
  refine congrArg₂ (· ++ ·) (drop_eq_drop ?_) (congrArg (· ++ clean) (drop_eq_drop ?_))
  · simp only [List.length_drop]
    omega
  · omega

/-- The window handed on is the real one, as soon as the segment resolves. -/
theorem successorWindow_eq {segment : Segment crc} {before : List UInt8}
    {resolved : ResolvedSegment crc} (valid : ∀ symbol ∈ segment.marked, IsSymbol symbol)
    (h : resolveSegment segment (lastWindow before) = .ok resolved) :
    successorWindow segment (lastWindow before) =
      .ok (lastWindow (before ++ resolved.bytes)) := by
  obtain ⟨hplaced, hbytes⟩ := resolveSegment_marked valid h
  have hlen : segment.marked.length = resolved.marked.length := by
    simpa using congrArg List.length hplaced
  have hsuffix (count : Nat) : resolveSymbols (segment.marked.drop count) (lastWindow before) =
      .ok (resolved.marked.drop count) := by
    refine (resolveSymbols_eq_ok fun symbol hmem => valid symbol (List.mem_of_mem_drop hmem)).mpr ?_
    rw [List.map_drop, hplaced, List.map_drop]
  have hpred : (lastWindow before).length = min before.length windowSize := lastWindow_length before
  rw [hbytes, successorWindow]
  simp only [hsuffix, result_bind_ok]
  rw [hpred]
  by_cases long : segment.cleanOutput.length ≥ windowSize
  · rw [if_pos long]
    exact congrArg Except.ok (last_clean long)
  · rw [if_neg long, hlen]
    exact congrArg Except.ok (last_marked (by omega) rfl)

section Blocks

variable {α : Type} [DeflateOutput α] {data : List UInt8} {member bit next : Nat} {out out' : α}
  {block : Block}

theorem decodeBlock_record (h : decodeBlock data member bit out = .ok (out', block, next)) :
    block.compressedEndBit = next ∧ block.decodedLen = totalDecoded out' - totalDecoded out := by
  simp only [decodeBlock, result_bind_eq_ok] at h
  obtain ⟨_, -, _, -, ⟨_, _, _⟩, -, heq⟩ := h
  simp only [pure, Except.pure, Except.ok.injEq, Prod.mk.injEq] at heq
  obtain ⟨rfl, rfl, rfl⟩ := heq
  exact ⟨rfl, rfl⟩

/-- A stream is its first run of blocks and, when that does not end it, what follows. -/
theorem decodeDeflate_until (data : List UInt8) (stopBit bit : Nat) (blocks : List Block) (out : α) :
    match decodeUntil data stopBit id bit blocks out with
    | .error error => decodeDeflate data 0 bit blocks out = .error error
    | .ok (out', blocks', endBit, true) =>
      ∃ last, Bits.alignByte last = endBit ∧
        decodeDeflate data 0 bit blocks out = .ok (out', blocks', last)
    | .ok (out', blocks', endBit, false) =>
      decodeDeflate data 0 bit blocks out = decodeDeflate data 0 endBit blocks' out' := by
  induction bit, blocks, out using @decodeUntil.induct α _ data stopBit id with
  | case1 bit blocks out error hblock =>
    rw [decodeUntil_eq, decodeDeflate_eq, hblock]
  | case2 bit blocks out out1 block next hblock hfinal =>
    rw [decodeUntil_eq, decodeDeflate_eq, hblock]
    simp only [hfinal, if_true]
    exact ⟨next, rfl, rfl⟩
  | case3 bit blocks out out1 block next hblock hfinal hstop =>
    rw [decodeUntil_eq, decodeDeflate_eq, hblock]
    simp only [hfinal, if_pos hstop, Bool.false_eq_true, if_false]
    rfl
  | case4 bit blocks out out1 block next hblock hfinal hstop ih =>
    rw [decodeUntil_eq, decodeDeflate_eq data 0 bit, hblock]
    simp only [hfinal, if_neg hstop, Bool.false_eq_true, if_false]
    exact ih

end Blocks

/-- How many bytes some blocks decode to. -/
def decodedLength (blocks : List Block) : Nat := (blocks.map Block.decodedLen).sum

/-- Blocks cut behind the first dynamic one that reaches the next stop. -/
def cutBlocks (stop : Nat → Nat) : Nat → List Block → List Block → List (List Block)
  | _, piece, [] => [piece]
  | key, piece, block :: blocks =>
    if block.finalBlock = false ∧ stop key ≤ block.compressedEndBit ∧ block.kind = .dynamicHuffman then
      (piece ++ [block]) :: cutBlocks stop (key + 1) [] blocks
    else cutBlocks stop key (piece ++ [block]) blocks

/-- The blocks of one run of the history, with what they add up to and how they are cut. -/
theorem decodeUntil_piece {data : List UInt8} {stop : Nat → Nat} {key bit endBit : Nat}
    {h h' : History} {blocks blocks' : List Block} {fin : Bool}
    (hloop : decodeUntil data (stop key) id bit blocks h = .ok (h', blocks', endBit, fin)) :
    ∃ piece, blocks' = blocks ++ piece ∧ h'.bytes.length = h.bytes.length + decodedLength piece ∧
      (fin = false → ∀ front rest, cutBlocks stop key front (piece ++ rest) =
        (front ++ piece) :: cutBlocks stop (key + 1) [] rest) ∧
      (fin = true → ∀ front, cutBlocks stop key front piece = [front ++ piece]) := by
  have hrecord {bit next : Nat} {h h1 : History} {block : Block}
      (hblock : decodeBlock data 0 bit h = .ok (h1, block, next)) :
      block.compressedEndBit = next ∧ h1.bytes.length = h.bytes.length + block.decodedLen := by
    obtain ⟨hend, hlen⟩ := decodeBlock_record hblock
    have hgrows := decodeBlock_grows hblock
    change block.decodedLen = h1.bytes.length - h.bytes.length at hlen
    exact ⟨hend, by omega⟩
  induction bit, blocks, h using @decodeUntil.induct History _ data (stop key) id with
  | case1 bit blocks h error hblock =>
    rw [decodeUntil_eq, hblock] at hloop
    cases hloop
  | case2 bit blocks h h1 block next hblock hfinal =>
    rw [decodeUntil_eq, hblock] at hloop
    simp only [hfinal, if_true, Except.ok.injEq, Prod.mk.injEq] at hloop
    obtain ⟨rfl, rfl, rfl, rfl⟩ := hloop
    refine ⟨[block], rfl, (hrecord hblock).2, by simp, fun _ front => ?_⟩
    rw [cutBlocks, if_neg (by simp [hfinal]), cutBlocks]
  | case3 bit blocks h h1 block next hblock hfinal hstop =>
    rw [decodeUntil_eq, hblock] at hloop
    simp only [hfinal, if_pos hstop, Bool.false_eq_true, if_false, Except.ok.injEq,
      Prod.mk.injEq] at hloop
    obtain ⟨rfl, rfl, rfl, rfl⟩ := hloop
    refine ⟨[block], rfl, (hrecord hblock).2, fun _ front rest => ?_, by simp⟩
    rw [List.singleton_append, cutBlocks, (hrecord hblock).1,
      if_pos ⟨Bool.eq_false_iff.mpr hfinal, hstop⟩]
  | case4 bit blocks h h1 block next hblock hfinal hstop ih =>
    rw [decodeUntil_eq, hblock] at hloop
    simp only [hfinal, if_neg hstop, Bool.false_eq_true, if_false] at hloop
    obtain ⟨piece, hblocks, hlen, hcut, hlast⟩ := ih hloop
    have hgoes : ¬ (block.finalBlock = false ∧ stop key ≤ block.compressedEndBit ∧
        block.kind = .dynamicHuffman) := by
      rw [(hrecord hblock).1]
      exact fun h => hstop h.2
    refine ⟨block :: piece, by rw [hblocks, List.append_assoc]; rfl, ?_, fun hfin front rest => ?_,
      fun hfin front => ?_⟩
    · have := (hrecord hblock).2
      change h'.bytes.length = h1.bytes.length + _ at hlen
      simp only [decodedLength, List.map_cons, List.sum_cons] at hlen ⊢
      omega
    · rw [List.cons_append, cutBlocks, if_neg hgoes, hcut hfin, List.append_assoc]
      rfl
    · rw [cutBlocks, if_neg hgoes, hlast hfin, List.append_assoc]
      rfl

end Fbz.Deflate
