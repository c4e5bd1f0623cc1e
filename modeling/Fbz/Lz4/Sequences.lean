import Fbz.Lz4.Decode

/-!
# LZ4 blocks as sequences

What the bytes of a block say, apart from what came before it: literals and matches in turn. The
decoder puts out what the sequences say behind its dictionary, one byte at a time.
-/

namespace Fbz.Lz4

open Lz

/-- Literals and the match behind them. -/
structure Sequence where
  literals : List UInt8
  offset : Nat
  length : Nat
  deriving DecidableEq, Repr

/-- What stands at a token: a sequence and where the next token is, or the literals that end the
block. -/
inductive Item
  | sequence (sequence : Sequence) (next : Nat)
  | last (literals : List UInt8)
  deriving DecidableEq, Repr

def itemAt (block : List UInt8) (position : Nat) : Result Item := do
  let token ← okOr (invalid "missing token") block[position]?
  let (count, start) ← readLength block (position + 1) (token >>> 4).toNat
  ensure (start + count ≤ block.length) (invalid "literal run exceeds the block")
  let literals := slice block start (start + count)
  if start + count = block.length then return .last literals
  let offset ← okOr (invalid "truncated match offset")
    (range? block (start + count) (start + count + 2))
  let (length, next) ← readLength block (start + count + 2) (token &&& 0x0f).toNat
  ensure (length + 4 < usizeLimit) (invalid "match length overflows usize")
  return .sequence ⟨literals, leNat offset, length + 4⟩ next

private theorem itemAt_advances {block : List UInt8} {position next : Nat} {s : Sequence}
    (h : itemAt block position = .ok (.sequence s next)) : position < next := by
  simp only [itemAt, result_bind_eq_ok] at h
  obtain ⟨token, -, ⟨count, start⟩, hliterals, -, -, h⟩ := h
  split at h
  · cases h
  · obtain ⟨offset, -, h⟩ := result_bind_eq_ok.mp h
    obtain ⟨⟨length, after⟩, hlength, h⟩ := result_bind_eq_ok.mp h
    obtain ⟨-, -, h⟩ := result_bind_eq_ok.mp h
    cases h
    have := readLength_advances hliterals
    have := readLength_advances hlength
    omega

theorem itemAt_eq_last {block literals : List UInt8} {position : Nat} :
    itemAt block position = .ok (.last literals) ↔
      ∃ token count start, block[position]? = some token ∧
        readLength block (position + 1) (token >>> 4).toNat = .ok (count, start) ∧
        start + count = block.length ∧ literals = slice block start (start + count) := by
  simp only [itemAt, result_bind_eq_ok, okOr_eq_ok, ensure_eq_ok]
  constructor
  · rintro ⟨token, htoken, ⟨count, start⟩, hcount, -, -, h⟩
    split at h
    case isTrue hend =>
      cases h
      exact ⟨token, count, start, htoken, hcount, hend, rfl⟩
    case isFalse =>
      simp only [result_bind_eq_ok] at h
      obtain ⟨_, -, _, -, _, -, h⟩ := h
      cases h
  · rintro ⟨token, count, start, htoken, hcount, hend, rfl⟩
    exact ⟨token, htoken, (count, start), hcount, (), Nat.le_of_eq hend, if_pos hend⟩

theorem itemAt_eq_sequence {block : List UInt8} {position next : Nat} {s : Sequence} :
    itemAt block position = .ok (.sequence s next) ↔
      ∃ token count start offset length, block[position]? = some token ∧
        readLength block (position + 1) (token >>> 4).toNat = .ok (count, start) ∧
        start + count < block.length ∧
        range? block (start + count) (start + count + 2) = some offset ∧
        readLength block (start + count + 2) (token &&& 0x0f).toNat = .ok (length, next) ∧
        length + 4 < usizeLimit ∧
        s = ⟨slice block start (start + count), leNat offset, length + 4⟩ := by
  simp only [itemAt, result_bind_eq_ok, okOr_eq_ok, ensure_eq_ok]
  constructor
  · rintro ⟨token, htoken, ⟨count, start⟩, hcount, -, hfits, h⟩
    split at h
    case isTrue => cases h
    case isFalse hmore =>
      simp only [result_bind_eq_ok, okOr_eq_ok, ensure_eq_ok] at h
      obtain ⟨offset, hoffset, ⟨length, after⟩, hlength, -, hsmall, h⟩ := h
      cases h
      exact ⟨token, count, start, offset, length, htoken, hcount, Nat.lt_of_le_of_ne hfits hmore,
        hoffset, hlength, hsmall, rfl⟩
  · rintro ⟨token, count, start, offset, length, htoken, hcount, hmore, hoffset, hlength, hsmall,
      rfl⟩
    refine ⟨token, htoken, (count, start), hcount, (), Nat.le_of_lt hmore, ?_⟩
    rw [if_neg (Nat.ne_of_lt hmore)]
    simp only [result_bind_eq_ok, okOr_eq_ok, ensure_eq_ok]
    exact ⟨offset, hoffset, (length, next), hlength, (), hsmall, rfl⟩

/-- The sequences from `position` on, and the literals behind them. A block may end behind a
match. -/
def parseFrom (block : List UInt8) (position : Nat) :
    Result (List Sequence × Option (List UInt8)) :=
  if position < block.length then
    match _h : itemAt block position with
    | .error error => .error error
    | .ok (.last literals) => .ok ([], some literals)
    | .ok (.sequence s next) => do
      let (sequences, last) ← parseFrom block next
      return (s :: sequences, last)
  else .ok ([], none)
termination_by block.length - position
decreasing_by
  have := itemAt_advances _h
  omega

theorem parseFrom_last {block literals : List UInt8} {position : Nat}
    (lt : position < block.length) (item : itemAt block position = .ok (.last literals)) :
    parseFrom block position = .ok ([], some literals) := by
  rw [parseFrom, if_pos lt]
  split <;> simp_all

theorem parseFrom_sequence {block : List UInt8} {position next : Nat} {s : Sequence}
    (lt : position < block.length) (item : itemAt block position = .ok (.sequence s next)) :
    parseFrom block position =
      parseFrom block next >>= fun rest => pure (s :: rest.1, rest.2) := by
  rw [parseFrom, if_pos lt]
  split <;> simp_all

theorem parseFrom_error {block : List UInt8} {position : Nat} {error : Error}
    (lt : position < block.length) (item : itemAt block position = .error error) :
    parseFrom block position = .error error := by
  rw [parseFrom, if_pos lt]
  split <;> simp_all

theorem parseFrom_end {block : List UInt8} {position : Nat} (done : block.length ≤ position) :
    parseFrom block position = .ok ([], none) := by
  rw [parseFrom, if_neg (Nat.not_lt.mpr done)]

def parseBlock (block : List UInt8) : Result (List Sequence × Option (List UInt8)) :=
  parseFrom block 0

/-- Put out a sequence behind what is already there. -/
def Sequence.play (history : List UInt8) (s : Sequence) : Option (List UInt8) :=
  let history := history ++ s.literals
  if 0 < s.offset ∧ s.offset ≤ history.length then some (copyBack s.offset s.length history)
  else none

def play (history : List UInt8) (sequences : List Sequence) : Option (List UInt8) :=
  sequences.foldlM Sequence.play history

theorem play_append (history : List UInt8) (front back : List Sequence) :
    play history (front ++ back) = (play history front).bind (play · back) := List.foldlM_append

@[simp] theorem play_nil (history : List UInt8) : play history [] = some history := rfl

theorem play_cons (history : List UInt8) (s : Sequence) (sequences : List Sequence) :
    play history (s :: sequences) = (s.play history).bind (play · sequences) := rfl

theorem Sequence.play_eq_some {history out : List UInt8} {s : Sequence} :
    s.play history = some out ↔
      (0 < s.offset ∧ s.offset ≤ (history ++ s.literals).length) ∧
        out = copyBack s.offset s.length (history ++ s.literals) := by
  unfold Sequence.play
  dsimp only
  split
  case isTrue h => simp only [Option.some.injEq, h, true_and, eq_comm, and_self]
  case isFalse h => simp only [reduceCtorEq, h, false_and]

private theorem Sequence.play_length {history out : List UInt8} {s : Sequence}
    (h : s.play history = some out) :
    out.length = history.length + s.literals.length + s.length := by
  obtain ⟨⟨hpos, hle⟩, rfl⟩ := Sequence.play_eq_some.mp h
  rw [copyBack_length hpos hle, List.length_append]

theorem play_extends {history out : List UInt8} {sequences : List Sequence}
    (h : play history sequences = some out) : history <+: out := by
  induction sequences generalizing history with
  | nil =>
    obtain rfl := Option.some.inj h
    exact List.prefix_refl _
  | cons s sequences ih =>
    rw [play_cons] at h
    obtain ⟨next, hnext, hrest⟩ := Option.bind_eq_some_iff.mp h
    obtain ⟨⟨hpos, hle⟩, rfl⟩ := Sequence.play_eq_some.mp hnext
    exact ((List.prefix_append _ _).trans (prefix_copyBack hpos hle)).trans (ih hrest)

private theorem Sequence.play_append {front back : List UInt8} {s : Sequence}
    (near : front = [] ∨ s.offset ≤ back.length) :
    s.play (front ++ back) = (s.play back).map (front ++ ·) := by
  rcases near with rfl | near
  · simp
  · unfold Sequence.play
    dsimp only
    rw [List.append_assoc]
    have hback : s.offset ≤ (back ++ s.literals).length := by
      rw [List.length_append]
      omega
    by_cases hpos : 0 < s.offset
    · have hfront : s.offset ≤ (front ++ (back ++ s.literals)).length := by
        rw [List.length_append]
        omega
      rw [if_pos ⟨hpos, hfront⟩, if_pos ⟨hpos, hback⟩, copyBack_append hpos hback]
      rfl
    · rw [if_neg fun h => hpos h.1, if_neg fun h => hpos h.1]
      rfl

theorem play_append_history {front back : List UInt8} {sequences : List Sequence}
    (near : front = [] ∨ ∀ s ∈ sequences, s.offset ≤ back.length) :
    play (front ++ back) sequences = (play back sequences).map (front ++ ·) := by
  induction sequences generalizing back with
  | nil => rfl
  | cons s sequences ih =>
    rw [play_cons, play_cons, Sequence.play_append
      (near.imp_right fun hall => hall s List.mem_cons_self)]
    cases hplay : s.play back with
    | none => rfl
    | some next =>
      have hlen := Sequence.play_length hplay
      simp only [Option.map_some, Option.bind_some]
      apply ih
      apply near.imp_right
      intro hall other hother
      have := hall other (List.mem_cons_of_mem _ hother)
      omega

section Decoder

variable {input dictionary output result : List UInt8} {maxOutput position : Nat}

/-- `copy_match` copies byte by byte out of the dictionary and on into the output. -/
theorem copyMatch_eq {offset length : Nat} (pos : 0 < offset)
    (le : offset ≤ dictionary.length + output.length) :
    ∃ out, copyMatch output dictionary offset length = .ok out ∧
      dictionary ++ out = copyBack offset length (dictionary ++ output) := by
  rw [copyMatch, ensure_of ⟨by omega, le⟩, result_bind_ok]
  dsimp only
  split
  case isFalse inside =>
    have hinside : offset ≤ output.length := by omega
    refine ⟨_, rfl, ?_⟩
    rw [copyBack_append pos hinside]
    split
    · rw [extendMatch_eq_copyBack pos hinside]
    · next hzero => rw [not_not.mp hzero, copyBack_zero]
  case isTrue outside =>
    rw [ensure_of (by omega), result_bind_ok]
    obtain ⟨start, hstart⟩ : ∃ start, start = dictionary.length - (offset - output.length) :=
      ⟨_, rfl⟩
    obtain ⟨take, htake⟩ : ∃ take, take = min length (offset - output.length) := ⟨_, rfl⟩
    rw [← hstart, ← htake]
    refine ⟨_, rfl, ?_⟩
    have hfront : dictionary ++ (output ++ slice dictionary start (start + take)) =
        copyBack offset take (dictionary ++ output) := by
      rw [copyBack_short pos (by rw [List.length_append]; omega) (by omega), ← List.append_assoc]
      congr 1
      rw [List.length_append, show dictionary.length + output.length - offset = start by omega,
        slice, slice, List.drop_append_of_le_length (by omega),
        List.take_append_of_le_length (by rw [List.length_drop]; omega)]
    have hlen : (output ++ slice dictionary start (start + take)).length =
        output.length + take := by
      rw [List.length_append, slice_length (by omega)]
      omega
    have hcopy : copyBack offset length (dictionary ++ output) =
        copyBack offset (length - take) (copyBack offset take (dictionary ++ output)) := by
      rw [← copyBack_add, show take + (length - take) = length by omega]
    rw [hcopy, ← hfront]
    by_cases hrest : length - take = 0
    · rw [hrest, if_neg (not_not.mpr rfl), copyBack_zero]
    · have hreached : offset ≤ (output ++ slice dictionary start (start + take)).length := by
        omega
      rw [if_pos hrest, extendMatch_eq_copyBack pos hreached, copyBack_append pos hreached]

private theorem copyMatch_eq_ok {out : List UInt8} {offset length : Nat} :
    copyMatch output dictionary offset length = .ok out ↔
      (0 < offset ∧ offset ≤ dictionary.length + output.length) ∧
        dictionary ++ out = copyBack offset length (dictionary ++ output) := by
  by_cases h : 0 < offset ∧ offset ≤ dictionary.length + output.length
  · obtain ⟨copied, hcopied, heq⟩ := @copyMatch_eq dictionary output offset length h.1 h.2
    rw [hcopied, ← heq, List.append_cancel_left_eq, Except.ok.injEq]
    exact ⟨fun same => ⟨h, same.symm⟩, fun same => same.2.symm⟩
  · rw [copyMatch, ensure_of_not (by omega), result_bind_error]
    constructor
    · intro hok
      cases hok
    · intro hall
      exact absurd hall.1 h

private theorem readLiterals_eq_ok {token : UInt8} {out : List UInt8} {next : Nat} :
    readLiterals input maxOutput position token output = .ok (out, next) ↔
      ∃ count start, readLength input position (token >>> 4).toNat = .ok (count, start) ∧
        start + count ≤ input.length ∧ output.length + count ≤ maxOutput ∧
        out = output ++ slice input start (start + count) ∧ next = start + count := by
  simp only [readLiterals, checkMaximum, result_bind_eq_ok, ensure_eq_ok, pure, Except.pure,
    Except.ok.injEq, Prod.mk.injEq, exists_const, Prod.exists]
  constructor
  · rintro ⟨count, start, hlen, hfits, hroom, rfl, rfl⟩
    exact ⟨count, start, hlen, hfits, hroom, rfl, rfl⟩
  · rintro ⟨count, start, hlen, hfits, hroom, rfl, rfl⟩
    exact ⟨count, start, hlen, hfits, hroom, rfl, rfl⟩

private theorem readMatch_eq_ok {token : UInt8} {out : List UInt8} {next : Nat} :
    readMatch input dictionary maxOutput position token output = .ok (out, next) ↔
      ∃ offset length, range? input position (position + 2) = some offset ∧
        readLength input (position + 2) (token &&& 0x0f).toNat = .ok (length, next) ∧
        length + 4 < usizeLimit ∧ output.length + (length + 4) ≤ maxOutput ∧
        copyMatch output dictionary (leNat offset) (length + 4) = .ok out := by
  simp only [readMatch, checkMaximum, result_bind_eq_ok, ensure_eq_ok, okOr_eq_ok, pure,
    Except.pure, Except.ok.injEq, Prod.mk.injEq, exists_const, Prod.exists]
  constructor
  · rintro ⟨offset, hoffset, length, after, hlength, hsmall, hroom, copied, hcopy, rfl, rfl⟩
    exact ⟨offset, length, hoffset, hlength, hsmall, hroom, hcopy⟩
  · rintro ⟨offset, length, hoffset, hlength, hsmall, hroom, hcopy⟩
    exact ⟨offset, hoffset, length, next, hlength, hsmall, hroom, out, hcopy, rfl, rfl⟩

private theorem decompressFrom_lt (lt : position < input.length) :
    decompressFrom input dictionary maxOutput position output =
      match readLiterals input maxOutput (position + 1) input[position] output with
      | .error error => .error error
      | .ok (out, literalEnd) =>
        if literalEnd = input.length then .ok out
        else
          match readMatch input dictionary maxOutput literalEnd input[position] out with
          | .error error => .error error
          | .ok (out, next) => decompressFrom input dictionary maxOutput next out := by
  rw [decompressFrom, dif_pos lt]
  dsimp only
  split
  · simp only [*]
  · simp only [*]
    split
    · rfl
    · split <;> simp only [*]

/-- One turn of the loop is one item of the block. -/
theorem decompressFrom_eq_ok (lt : position < input.length) :
    decompressFrom input dictionary maxOutput position output = .ok result ↔
      (∃ literals, itemAt input position = .ok (.last literals) ∧ result = output ++ literals ∧
        result.length ≤ maxOutput) ∨
      ∃ s next out, itemAt input position = .ok (.sequence s next) ∧
        s.play (dictionary ++ output) = some (dictionary ++ out) ∧ out.length ≤ maxOutput ∧
        decompressFrom input dictionary maxOutput next out = .ok result := by
  have htoken : input[position]? = some input[position] := List.getElem?_eq_getElem lt
  rw [decompressFrom_lt lt]
  constructor
  · intro h
    split at h
    case h_1 => cases h
    case h_2 out literalEnd hliterals =>
    obtain ⟨count, start, hcount, hfits, hroom, rfl, rfl⟩ := readLiterals_eq_ok.mp hliterals
    have hlen : (slice input start (start + count)).length = count := by
      rw [slice_length hfits]
      omega
    split at h
    case isTrue hend =>
      obtain rfl := Except.ok.inj h
      left
      refine ⟨_, itemAt_eq_last.mpr ⟨_, count, start, htoken, hcount, hend, rfl⟩, rfl, ?_⟩
      rwa [List.length_append, hlen]
    case isFalse hmore =>
    split at h
    case h_1 => cases h
    case h_2 out next hmatch =>
      obtain ⟨offset, length, hoffset, hlength, hsmall, hfull, hcopy⟩ := readMatch_eq_ok.mp hmatch
      obtain ⟨⟨hpos, hle⟩, heq⟩ := copyMatch_eq_ok.mp hcopy
      rw [← List.append_assoc] at heq
      have hplay : Sequence.play (dictionary ++ output)
          ⟨slice input start (start + count), leNat offset, length + 4⟩ =
            some (dictionary ++ out) := by
        refine Sequence.play_eq_some.mpr ⟨⟨hpos, ?_⟩, heq⟩
        simp only [List.length_append] at hle ⊢
        omega
      right
      refine ⟨_, next, out, itemAt_eq_sequence.mpr ⟨_, count, start, offset, length, htoken, hcount,
        Nat.lt_of_le_of_ne hfits hmore, hoffset, hlength, hsmall, rfl⟩, hplay, ?_, h⟩
      have := Sequence.play_length hplay
      simp only [List.length_append] at this hfull
      omega
  · rintro (⟨literals, hitem, rfl, hroom⟩ | ⟨s, next, out, hitem, hplay, hroom, hrest⟩)
    · obtain ⟨token, count, start, htoken', hcount, hend, rfl⟩ := itemAt_eq_last.mp hitem
      obtain rfl := Option.some.inj (htoken.symm.trans htoken')
      have hlen : (slice input start (start + count)).length = count := by
        rw [slice_length (by omega)]
        omega
      rw [List.length_append, hlen] at hroom
      have hliterals := (@readLiterals_eq_ok input output maxOutput (position + 1) input[position] _
        _).mpr ⟨count, start, hcount, Nat.le_of_eq hend, hroom, rfl, rfl⟩
      rw [hliterals]
      exact if_pos hend
    · obtain ⟨token, count, start, offset, length, htoken', hcount, hmore, hoffset, hlength, hsmall,
        rfl⟩ := itemAt_eq_sequence.mp hitem
      obtain rfl := Option.some.inj (htoken.symm.trans htoken')
      have hlen : (slice input start (start + count)).length = count := by
        rw [slice_length (by omega)]
        omega
      have hplayed := Sequence.play_length hplay
      obtain ⟨⟨hpos, hle⟩, heq⟩ := Sequence.play_eq_some.mp hplay
      simp only [List.length_append, hlen] at hplayed hle
      have hliterals := (@readLiterals_eq_ok input output maxOutput (position + 1) input[position] _
        _).mpr ⟨count, start, hcount, Nat.le_of_lt hmore, by omega, rfl, rfl⟩
      have hmatch := (@readMatch_eq_ok input dictionary (output ++ slice input start (start + count))
        maxOutput (start + count) input[position] out next).mpr ⟨offset, length, hoffset, hlength,
          hsmall, by rw [List.length_append, hlen]; omega, copyMatch_eq_ok.mpr ⟨⟨hpos, by
            rw [List.length_append, hlen]; omega⟩, by rw [heq, List.append_assoc]⟩⟩
      rw [hliterals]
      dsimp only
      rw [if_neg (Nat.ne_of_lt hmore), hmatch]
      exact hrest

/-- The decoder takes what parses and plays, as long as it fits. -/
theorem decompressFrom_iff (fits : output.length ≤ maxOutput) :
    decompressFrom input dictionary maxOutput position output = .ok result ↔
      ∃ sequences last history, parseFrom input position = .ok (sequences, last) ∧
        play (dictionary ++ output) sequences = some history ∧
        dictionary ++ result = history ++ last.getD [] ∧ result.length ≤ maxOutput := by
  induction position using parseFrom.induct input generalizing output with
  | case1 position lt error hitem =>
    rw [decompressFrom_eq_ok lt, parseFrom_error lt hitem]
    simp [hitem]
  | case2 position lt literals hitem =>
    rw [decompressFrom_eq_ok lt, parseFrom_last lt hitem]
    constructor
    · rintro (⟨_, hlast, rfl, hroom⟩ | ⟨_, _, _, hsequence, -⟩)
      · obtain rfl : literals = _ := by simpa [hitem] using hlast
        exact ⟨[], some literals, _, rfl, rfl, by simp, hroom⟩
      · simp [hitem] at hsequence
    · rintro ⟨_, _, history, hparse, hplay, heq, hroom⟩
      cases hparse
      obtain rfl := Option.some.inj hplay
      left
      refine ⟨literals, hitem, ?_, hroom⟩
      simpa using heq
  | case3 position lt s next hitem ih =>
    rw [decompressFrom_eq_ok lt, parseFrom_sequence lt hitem]
    constructor
    · rintro (⟨_, hlast, -⟩ | ⟨_, _, out, hsequence, hplay, hroom, hrest⟩)
      · simp [hitem] at hlast
      · obtain ⟨rfl, rfl⟩ : s = _ ∧ next = _ := by simpa [hitem] using hsequence
        obtain ⟨sequences, last, history, hparse, hplays, heq, hfits⟩ := (ih hroom).mp hrest
        refine ⟨s :: sequences, last, history, ?_, ?_, heq, hfits⟩
        · rw [hparse]
          rfl
        · rw [play_cons, hplay]
          exact hplays
    · rintro ⟨_, _, history, hparse, hplay, heq, hfits⟩
      obtain ⟨⟨sequences, last⟩, hrest, hcons⟩ := result_bind_eq_ok.mp hparse
      cases hcons
      rw [play_cons] at hplay
      obtain ⟨middle, hfirst, hplays⟩ := Option.bind_eq_some_iff.mp hplay
      obtain ⟨out, rfl⟩ : dictionary <+: middle := by
        obtain ⟨⟨hpos, hle⟩, rfl⟩ := Sequence.play_eq_some.mp hfirst
        exact ((List.prefix_append _ _).trans (List.prefix_append _ _)).trans
          (prefix_copyBack hpos hle)
      have hroom : out.length ≤ maxOutput := by
        have hlen := congrArg List.length heq
        have := (play_extends hplays).length_le
        simp only [List.length_append] at hlen this
        omega
      right
      exact ⟨s, next, out, hitem, hfirst, hroom,
        (ih hroom).mpr ⟨sequences, last, history, hrest, hplays, heq, hfits⟩⟩
  | case4 position done =>
    rw [decompressFrom, dif_neg done, parseFrom_end (Nat.not_lt.mp done)]
    constructor
    · intro h
      obtain rfl := Except.ok.inj h
      exact ⟨[], none, _, rfl, rfl, by simp, fits⟩
    · rintro ⟨_, _, history, hparse, hplay, heq, -⟩
      cases hparse
      obtain rfl := Option.some.inj hplay
      simpa [eq_comm] using heq

theorem decompressBlock_iff :
    decompressBlock input dictionary maxOutput = .ok result ↔
      ∃ sequences last history, parseBlock input = .ok (sequences, last) ∧
        play dictionary sequences = some history ∧
        dictionary ++ result = history ++ last.getD [] ∧ result.length ≤ maxOutput := by
  rw [decompressBlock, decompressFrom_iff (Nat.zero_le _), List.append_nil]
  rfl

end Decoder

end Fbz.Lz4
