import Fbz.Deflate.Output

/-!
# Outputs that follow the history

An output that does, operation by operation, what the history does up to some length decodes whole
blocks and streams as the history does. Where it stands is a function of where the history stands.
-/

namespace Fbz.Deflate

open DeflateOutput

/-- A block record of the history as another output writes it. -/
def Block.relocate (member : Nat) (start : Nat → Nat) (block : Block) : Block :=
  { block with member, decodedStart := start block.decodedStart }

@[simp] theorem Block.relocate_finalBlock (member : Nat) (start : Nat → Nat) (block : Block) :
    (block.relocate member start).finalBlock = block.finalBlock := rfl

section Simulates

variable {α : Type} [DeflateOutput α] {β γ : Type}

/-- What an output did, beside what the history did: it succeeds where the history does and stays
below `cap` bytes, and fails beyond. A `strict` output also fails where the history does. -/
def Answers (strict : Prop) (cap : Nat) (R : α → History → Prop) (actual : Result α) :
    Result History → Prop
  | .error _ => strict → ∃ error, actual = .error error
  | .ok h =>
    if h.bytes.length < cap then ∃ out, actual = .ok out ∧ R out h
    else ∃ error, actual = .error error

/-- The same with a value beside the output. -/
def AnswersWith (strict : Prop) (cap : Nat) (R : α → History → Prop) (locate : β → γ)
    (actual : Result (α × γ)) : Result (History × β) → Prop
  | .error _ => strict → ∃ error, actual = .error error
  | .ok (h, value) =>
    if h.bytes.length < cap then ∃ out, actual = .ok (out, locate value) ∧ R out h
    else ∃ error, actual = .error error

/-- Outputs related to histories by `R` follow them. -/
structure Simulates (strict : Prop) (cap : Nat) (start : Nat → Nat) (R : α → History → Prop) :
    Prop where
  run : ∀ {out : α} {h : History} {op : Op}, R out h → op.Proper →
    Answers strict cap R (op.run out) (op.run h)
  below : ∀ {out : α} {h : History}, R out h → h.bytes.length < cap
  counts : ∀ {out : α} {h : History}, R out h → Counts out
  decoded : ∀ {out : α} {h : History}, R out h → totalDecoded out = start h.bytes.length

end Simulates

private theorem replay_grows {h h' : History} {ops : List Op} (hrun : replay h ops = .ok h') :
    h.bytes.length ≤ h'.bytes.length := by
  have := h.counts hrun
  exact Nat.le_trans (Nat.le_add_right _ _) (Nat.le_of_eq this.symm)

theorem decodeBlock_grows {data : List UInt8} {member bit next : Nat} {h h' : History}
    {block : Block} (hblock : decodeBlock data member bit h = .ok (h', block, next)) :
    h.bytes.length ≤ h'.bytes.length := by
  obtain ⟨t, _, -, hrun, -⟩ := blockTrace_of_ok h.counts hblock
  exact replay_grows hrun

private theorem decodeDeflate_grows {data : List UInt8} {member bit endBit : Nat} {h h' : History}
    {blocks blocks' : List Block}
    (hdecode : decodeDeflate data member bit blocks h = .ok (h', blocks', endBit)) :
    h.bytes.length ≤ h'.bytes.length := by
  induction bit, blocks, h using @decodeDeflate.induct History _ data member with
  | case1 bit blocks h error hblock =>
    rw [decodeDeflate_eq, hblock] at hdecode
    cases hdecode
  | case2 bit blocks h h1 block next hblock hfinal =>
    rw [decodeDeflate_eq, hblock] at hdecode
    simp only [hfinal, if_true, Except.ok.injEq, Prod.mk.injEq] at hdecode
    exact hdecode.1 ▸ decodeBlock_grows hblock
  | case3 bit blocks h h1 block next hblock hfinal ih =>
    rw [decodeDeflate_eq, hblock] at hdecode
    simp only [hfinal, Bool.false_eq_true, if_false] at hdecode
    exact Nat.le_trans (decodeBlock_grows hblock) (ih hdecode)

private theorem decodeUntil_grows {data : List UInt8} {stopBit bit endBit : Nat} {h h' : History}
    {blocks blocks' : List Block} {fin : Bool}
    (hdecode : decodeUntil data stopBit id bit blocks h = .ok (h', blocks', endBit, fin)) :
    h.bytes.length ≤ h'.bytes.length := by
  induction bit, blocks, h using @decodeUntil.induct History _ data stopBit id with
  | case1 bit blocks h error hblock =>
    rw [decodeUntil_eq, hblock] at hdecode
    cases hdecode
  | case2 bit blocks h h1 block next hblock hfinal =>
    rw [decodeUntil_eq, hblock] at hdecode
    simp only [hfinal, if_true, Except.ok.injEq, Prod.mk.injEq] at hdecode
    exact hdecode.1 ▸ decodeBlock_grows hblock
  | case3 bit blocks h h1 block next hblock hfinal hstop =>
    rw [decodeUntil_eq, hblock] at hdecode
    simp only [hfinal, if_pos hstop, Bool.false_eq_true, if_false, Except.ok.injEq,
      Prod.mk.injEq] at hdecode
    exact hdecode.1 ▸ decodeBlock_grows hblock
  | case4 bit blocks h h1 block next hblock hfinal hstop ih =>
    rw [decodeUntil_eq, hblock] at hdecode
    simp only [hfinal, if_neg hstop, Bool.false_eq_true, if_false] at hdecode
    exact Nat.le_trans (decodeBlock_grows hblock) (ih hdecode)

namespace Simulates

variable {α : Type} [DeflateOutput α] {strict : Prop} {cap : Nat} {start : Nat → Nat}
  {R : α → History → Prop} {out : α} {h : History}

private theorem replay (sim : Simulates strict cap start R) {ops : List Op} (related : R out h)
    (proper : ∀ op ∈ ops, op.Proper) :
    Answers strict cap R (Deflate.replay out ops) (Deflate.replay h ops) := by
  induction ops generalizing out h with
  | nil =>
    rw [replay_nil, replay_nil, Answers, if_pos (sim.below related)]
    exact ⟨out, rfl, related⟩
  | cons op ops ih =>
    have hop := sim.run related (proper op List.mem_cons_self)
    have hproper : ∀ other ∈ ops, other.Proper := fun other hmem =>
      proper other (List.mem_cons_of_mem _ hmem)
    rw [Deflate.replay, Deflate.replay]
    cases hhistory : op.run h with
    | error error =>
      rw [hhistory] at hop
      intro hstrict
      obtain ⟨error', hout⟩ := hop hstrict
      exact ⟨error', by rw [hout]⟩
    | ok h1 =>
      rw [hhistory, Answers] at hop
      split at hop
      case isTrue small =>
        obtain ⟨out1, hout, hrelated⟩ := hop
        rw [hout]
        exact ih hrelated hproper
      case isFalse large =>
        obtain ⟨error', hout⟩ := hop
        rw [hout]
        dsimp only
        cases hrest : Deflate.replay h1 ops with
        | error error => exact fun _ => ⟨error', rfl⟩
        | ok h2 =>
          have := replay_grows hrest
          rw [Answers, if_neg (by omega)]
          exact ⟨error', rfl⟩

private theorem decodeBlock (sim : Simulates strict cap start R) (related : R out h)
    (data : List UInt8) (member bit : Nat) :
    AnswersWith strict cap R (Prod.map (Block.relocate member start) id)
      (Deflate.decodeBlock data member bit out) (Deflate.decodeBlock data 0 bit h) := by
  have hcounts : Counts out := sim.counts related
  cases htrace : blockTrace data bit with
  | error error =>
    obtain ⟨error1, hhistory⟩ := decodeBlock_of_error 0 h.counts htrace
    obtain ⟨error2, hout⟩ := decodeBlock_of_error member hcounts htrace
    rw [hhistory, hout]
    exact fun _ => ⟨error2, rfl⟩
  | ok found =>
    obtain ⟨t, block, next⟩ := found
    rw [decodeBlock_of_trace 0 h.counts htrace, decodeBlock_of_trace member hcounts htrace]
    have hreplay := sim.replay related (blockTrace_proper htrace)
    cases hhistory : Deflate.replay h t.ops with
    | error error =>
      rw [hhistory] at hreplay
      intro hstrict
      obtain ⟨error', hout⟩ := hreplay hstrict
      exact ⟨error', by rw [hout]⟩
    | ok h1 =>
      rw [hhistory, Answers] at hreplay
      dsimp only
      rw [AnswersWith]
      split at hreplay
      case isTrue small =>
        obtain ⟨out1, hout, hrelated⟩ := hreplay
        rw [if_pos small, hout]
        refine ⟨out1, ?_, hrelated⟩
        simp only [Block.relocate, Prod.map, id, sim.decoded related]
        rfl
      case isFalse large =>
        obtain ⟨error', hout⟩ := hreplay
        rw [if_neg large, hout]
        exact ⟨error', rfl⟩

/-- Whole streams. -/
theorem decodeDeflate (sim : Simulates strict cap start R) (related : R out h)
    (data : List UInt8) (member bit : Nat) (blocks : List Block) :
    AnswersWith strict cap R (Prod.map (List.map (Block.relocate member start)) id)
      (Deflate.decodeDeflate data member bit (blocks.map (Block.relocate member start)) out)
      (Deflate.decodeDeflate data 0 bit blocks h) := by
  induction bit, blocks, h using @decodeDeflate.induct History _ data 0 generalizing out with
  | case1 bit blocks h error hblock =>
    have hanswer := sim.decodeBlock related data member bit
    rw [hblock] at hanswer
    rw [decodeDeflate_eq data 0, hblock]
    intro hstrict
    obtain ⟨error', hout⟩ := hanswer hstrict
    exact ⟨error', by rw [decodeDeflate_eq, hout]⟩
  | case2 bit blocks h h1 block next hblock hfinal =>
    have hanswer := sim.decodeBlock related data member bit
    rw [hblock, AnswersWith] at hanswer
    rw [decodeDeflate_eq data 0, hblock]
    simp only [hfinal, if_true]
    rw [AnswersWith]
    split at hanswer
    case isTrue small =>
      obtain ⟨out1, hout, hrelated⟩ := hanswer
      rw [if_pos small, decodeDeflate_eq, hout]
      simp only [Prod.map, Block.relocate_finalBlock, hfinal, if_true, id, List.map_append,
        List.map_singleton]
      exact ⟨out1, rfl, hrelated⟩
    case isFalse large =>
      obtain ⟨error', hout⟩ := hanswer
      rw [if_neg large, decodeDeflate_eq, hout]
      exact ⟨error', rfl⟩
  | case3 bit blocks h h1 block next hblock hfinal ih =>
    have hanswer := sim.decodeBlock related data member bit
    rw [hblock, AnswersWith] at hanswer
    rw [decodeDeflate_eq data 0, hblock]
    simp only [hfinal, Bool.false_eq_true, if_false]
    split at hanswer
    case isTrue small =>
      obtain ⟨out1, hout, hrelated⟩ := hanswer
      rw [decodeDeflate_eq data member, hout]
      simp only [Prod.map, Block.relocate_finalBlock, hfinal, Bool.false_eq_true, if_false, id]
      have := ih hrelated
      rwa [List.map_append] at this
    case isFalse large =>
      obtain ⟨error', hout⟩ := hanswer
      rw [decodeDeflate_eq data member, hout]
      dsimp only
      cases hrest : Deflate.decodeDeflate data 0 next (blocks ++ [block]) h1 with
      | error error => exact fun _ => ⟨error', rfl⟩
      | ok found =>
        obtain ⟨h2, blocks2, endBit⟩ := found
        have := decodeDeflate_grows hrest
        rw [AnswersWith, if_neg (by omega)]
        exact ⟨error', rfl⟩

/-- Runs of blocks up to where a segment stops; `afterBlock` keeps the relation. -/
theorem decodeUntil (sim : Simulates strict cap start R) {afterBlock : α → α}
    (keeps : ∀ {out : α} {h : History}, R out h → R (afterBlock out) h) (related : R out h)
    (data : List UInt8) (stopBit bit : Nat) (blocks : List Block) :
    AnswersWith strict cap R (Prod.map (List.map (Block.relocate 0 start)) id)
      (Deflate.decodeUntil data stopBit afterBlock bit (blocks.map (Block.relocate 0 start)) out)
      (Deflate.decodeUntil data stopBit id bit blocks h) := by
  induction bit, blocks, h using @decodeUntil.induct History _ data stopBit id generalizing out with
  | case1 bit blocks h error hblock =>
    have hanswer := sim.decodeBlock related data 0 bit
    rw [hblock] at hanswer
    rw [decodeUntil_eq data stopBit id, hblock]
    intro hstrict
    obtain ⟨error', hout⟩ := hanswer hstrict
    exact ⟨error', by rw [decodeUntil_eq, hout]⟩
  | case2 bit blocks h h1 block next hblock hfinal =>
    have hanswer := sim.decodeBlock related data 0 bit
    rw [hblock, AnswersWith] at hanswer
    rw [decodeUntil_eq data stopBit id, hblock]
    simp only [hfinal, if_true]
    rw [AnswersWith]
    split at hanswer
    case isTrue small =>
      obtain ⟨out1, hout, hrelated⟩ := hanswer
      rw [id, if_pos small, decodeUntil_eq, hout]
      simp only [Prod.map, Block.relocate_finalBlock, hfinal, if_true, id, List.map_append,
        List.map_singleton]
      exact ⟨_, rfl, keeps hrelated⟩
    case isFalse large =>
      obtain ⟨error', hout⟩ := hanswer
      rw [id, if_neg large, decodeUntil_eq, hout]
      exact ⟨error', rfl⟩
  | case3 bit blocks h h1 block next hblock hfinal hstop =>
    have hanswer := sim.decodeBlock related data 0 bit
    rw [hblock, AnswersWith] at hanswer
    rw [decodeUntil_eq data stopBit id, hblock]
    simp only [hfinal, if_pos hstop, Bool.false_eq_true, if_false]
    rw [AnswersWith]
    split at hanswer
    case isTrue small =>
      obtain ⟨out1, hout, hrelated⟩ := hanswer
      rw [id, if_pos small, decodeUntil_eq, hout]
      simp only [Prod.map, Block.relocate_finalBlock, hfinal, Bool.false_eq_true, if_false, id]
      rw [if_pos (by exact hstop), List.map_append]
      exact ⟨_, rfl, keeps hrelated⟩
    case isFalse large =>
      obtain ⟨error', hout⟩ := hanswer
      rw [id, if_neg large, decodeUntil_eq, hout]
      exact ⟨error', rfl⟩
  | case4 bit blocks h h1 block next hblock hfinal hstop ih =>
    have hanswer := sim.decodeBlock related data 0 bit
    rw [hblock, AnswersWith] at hanswer
    rw [decodeUntil_eq data stopBit id, hblock]
    simp only [hfinal, if_neg hstop, Bool.false_eq_true, if_false]
    split at hanswer
    case isTrue small =>
      obtain ⟨out1, hout, hrelated⟩ := hanswer
      rw [decodeUntil_eq data stopBit afterBlock, hout]
      simp only [Prod.map, Block.relocate_finalBlock, hfinal, Bool.false_eq_true, if_false, id]
      rw [if_neg (by exact hstop)]
      have := ih (keeps hrelated)
      rwa [List.map_append] at this
    case isFalse large =>
      obtain ⟨error', hout⟩ := hanswer
      rw [decodeUntil_eq data stopBit afterBlock, hout]
      dsimp only
      cases hrest : Deflate.decodeUntil data stopBit id next (blocks ++ [block]) (id h1) with
      | error error => exact fun _ => ⟨error', rfl⟩
      | ok found =>
        obtain ⟨h2, blocks2, endBit, fin⟩ := found
        have := decodeUntil_grows hrest
        dsimp only [id] at this
        rw [AnswersWith, if_neg (by omega)]
        exact ⟨error', rfl⟩

end Simulates

end Fbz.Deflate
