import Fbz.Deflate.Block

/-!
# Traces

Which operations a block asks of its output depends on the bits alone. A trace records them; any
other output sees the same operations in the same order, up to the first one it refuses.
-/

namespace Fbz.Deflate

open DeflateOutput

/-- How many bytes an operation adds. -/
def Op.length : Op → Nat
  | emit _ => 1
  | extend bytes => bytes.length
  | copy _ length => length

/-- The output that only records. -/
structure Trace where
  ops : List Op := []

instance : DeflateOutput Trace where
  totalDecoded t := (t.ops.map Op.length).sum
  emit t byte := .ok ⟨t.ops ++ [.emit byte]⟩
  extend t bytes := .ok ⟨t.ops ++ [.extend bytes]⟩
  copy t distance length := .ok ⟨t.ops ++ [.copy distance length]⟩

@[simp] theorem run_trace (t : Trace) (op : Op) : op.run t = .ok ⟨t.ops ++ [op]⟩ := by
  cases op <;> rfl

section Replay

variable {α : Type} [DeflateOutput α]

def replay (out : α) : List Op → Result α
  | [] => .ok out
  | op :: ops =>
    match op.run out with
    | .error error => .error error
    | .ok out => replay out ops

@[simp] theorem replay_nil (out : α) : replay out [] = .ok out := rfl

theorem replay_singleton (out : α) (op : Op) : replay out [op] = op.run out := by
  rw [replay]
  cases op.run out <;> rfl

/-- Whatever the output takes from here on, it counts. -/
def Counts (out : α) : Prop :=
  ∀ {ops : List Op} {out' : α}, replay out ops = .ok out' →
    totalDecoded out' = totalDecoded out + (ops.map Op.length).sum

/-- An invariant under which single operations are counted. -/
theorem Counts.of_invariant {Inv : α → Prop} (step : ∀ {out out' : α} {op : Op}, Inv out →
      op.run out = .ok out' → Inv out' ∧ totalDecoded out' = totalDecoded out + op.length)
    {out : α} (inv : Inv out) : Counts out := by
  intro ops out' h
  induction ops generalizing out with
  | nil =>
    obtain rfl := Except.ok.inj h
    rfl
  | cons op ops ih =>
    rw [replay] at h
    cases hop : op.run out with
    | error error => simp [hop] at h
    | ok mid =>
      rw [hop] at h
      obtain ⟨hmid, hcount⟩ := step inv hop
      rw [ih hmid h, hcount, List.map_cons, List.sum_cons, Nat.add_assoc]

/-- `actual` does what the trace from `before` on recorded, then returns what `traced` returned. -/
def Replays {β : Type} (before : Trace) (traced : Result (Trace × β)) (out : α)
    (actual : Result (α × β)) : Prop :=
  match traced with
  | .error _ => ∃ error, actual = .error error
  | .ok (after, value) => ∃ ops, after.ops = before.ops ++ ops ∧
      actual = match replay out ops with
        | .error error => .error error
        | .ok out => .ok (out, value)

private theorem decodeStored_replays (data : List UInt8) (bit : Nat) (t : Trace) (out : α) :
    Replays t (decodeStored data bit t) out (decodeStored data bit out) := by
  unfold decodeStored
  cases Bits.read data (Bits.alignByte bit) 16 with
  | error error => exact ⟨_, rfl⟩
  | ok p =>
  obtain ⟨length, bit1⟩ := p
  simp only [result_bind_ok]
  cases Bits.read data bit1 16 with
  | error error => exact ⟨_, rfl⟩
  | ok p =>
  obtain ⟨complement, bit2⟩ := p
  simp only [result_bind_ok]
  cases ensure (length = 2 ^ 16 - 1 - complement)
      (invalidBit (bit2 - 16) "stored-block LEN/NLEN mismatch") with
  | error error => exact ⟨_, rfl⟩
  | ok u =>
  simp only [result_bind_ok]
  cases Bits.readAlignedBytes data bit2 length with
  | error error => exact ⟨_, rfl⟩
  | ok p =>
  obtain ⟨bytes, bit3⟩ := p
  refine ⟨[.extend bytes], rfl, ?_⟩
  simp only [result_bind_ok]
  rw [replay_singleton, Op.run]
  cases extend out bytes <;> rfl

private theorem decodeHuffmanBlock_replays (data : List UInt8) (literal distance : Huffman)
    (bit : Nat) (t : Trace) (out : α) :
    Replays t (decodeHuffmanBlock data literal distance bit t) out
      (decodeHuffmanBlock data literal distance bit out) := by
  induction bit, t using @decodeHuffmanBlock.induct Trace _ data literal distance generalizing out
    with
  | case1 bit t error hread =>
    rw [decodeHuffmanBlock_eq, decodeHuffmanBlock_eq, hread]
    exact ⟨_, rfl⟩
  | case2 bit t after hread =>
    rw [decodeHuffmanBlock_eq, decodeHuffmanBlock_eq, hread]
    exact ⟨[], by simp, rfl⟩
  | case3 bit t op after hread error hrun =>
    rw [run_trace] at hrun
    cases hrun
  | case4 bit t op after hread t1 hrun ih =>
    rw [decodeHuffmanBlock_eq data literal distance bit t,
      decodeHuffmanBlock_eq data literal distance bit out, hread]
    simp only [hrun]
    rw [run_trace] at hrun
    obtain rfl := Except.ok.inj hrun
    cases hout : op.run out with
    | error error =>
      have hmore := ih out
      unfold Replays at hmore ⊢
      split at hmore
      · exact ⟨_, rfl⟩
      · obtain ⟨ops, hops, -⟩ := hmore
        exact ⟨op :: ops, by rw [hops, List.append_assoc]; rfl, by simp only [replay, hout]⟩
    | ok out1 =>
      have hmore := ih out1
      unfold Replays at hmore ⊢
      split at hmore
      · exact hmore
      · obtain ⟨ops, hops, hactual⟩ := hmore
        exact ⟨op :: ops, by rw [hops, List.append_assoc]; rfl, by simp only [replay, hout, hactual]⟩

private theorem Replays.map {β γ : Type} {t : Trace} {traced : Result (Trace × β)} {out : α}
    {actual : Result (α × β)} (h : Replays t traced out actual) (f : β → γ) :
    Replays t (traced >>= fun p => .ok (p.1, f p.2)) out (actual >>= fun p => .ok (p.1, f p.2)) := by
  unfold Replays at h
  split at h
  · obtain ⟨error, rfl⟩ := h
    exact ⟨error, rfl⟩
  · obtain ⟨ops, hops, rfl⟩ := h
    refine ⟨ops, hops, ?_⟩
    cases replay out ops <;> rfl

private theorem decodeBody_replays (data : List UInt8) (code bit : Nat) (t : Trace) (out : α) :
    Replays t (decodeBody data code bit t) out (decodeBody data code bit out) := by
  unfold decodeBody
  split
  · exact (decodeStored_replays data bit t out).map fun bit => (BlockKind.stored, bit)
  split
  · cases fixedTables with
    | error error => exact ⟨_, rfl⟩
    | ok tables =>
      exact (decodeHuffmanBlock_replays data tables.1 tables.2 bit t out).map
        fun bit => (BlockKind.fixedHuffman, bit)
  split
  · cases dynamicTables data bit with
    | error error => exact ⟨_, rfl⟩
    | ok tables =>
      exact (decodeHuffmanBlock_replays data tables.1.1 tables.1.2 tables.2 t out).map
        fun bit => (BlockKind.dynamicHuffman, bit)
  · exact ⟨_, rfl⟩

end Replay

/-- The operations of the block at `bit`, its record as if it came first, and the bit behind it. -/
def blockTrace (data : List UInt8) (bit : Nat) : Result (Trace × Block × Nat) :=
  decodeBlock data 0 bit ({} : Trace)

private theorem decodeHuffmanBlock_proper {data : List UInt8} {literal distance : Huffman}
    {bit next : Nat} {t t' : Trace} (proper : ∀ op ∈ t.ops, op.Proper)
    (h : decodeHuffmanBlock data literal distance bit t = .ok (t', next)) :
    ∀ op ∈ t'.ops, op.Proper := by
  induction bit, t using @decodeHuffmanBlock.induct Trace _ data literal distance with
  | case1 bit t error hread =>
    rw [decodeHuffmanBlock_eq, hread] at h
    cases h
  | case2 bit t after hread =>
    rw [decodeHuffmanBlock_eq, hread] at h
    obtain ⟨rfl, -⟩ := Prod.mk.inj (Except.ok.inj h)
    exact proper
  | case3 bit t op after hread error hrun =>
    rw [run_trace] at hrun
    cases hrun
  | case4 bit t op after hread t1 hrun ih =>
    rw [run_trace] at hrun
    obtain rfl := Except.ok.inj hrun
    rw [decodeHuffmanBlock_eq, hread] at h
    simp only [run_trace] at h
    refine ih (fun other hmem => ?_) h
    rcases List.mem_append.mp hmem with hold | hnew
    · exact proper other hold
    · rw [List.mem_singleton.mp hnew]
      exact readInstruction_proper hread

/-- All a block asks for is within the bounds of the format. -/
theorem blockTrace_proper {data : List UInt8} {bit next : Nat} {t : Trace} {block : Block}
    (h : blockTrace data bit = .ok (t, block, next)) : ∀ op ∈ t.ops, op.Proper := by
  simp only [blockTrace, decodeBlock, result_bind_eq_ok] at h
  obtain ⟨_, -, ⟨code, start⟩, -, ⟨t', kind, after⟩, hbody, heq⟩ := h
  obtain ⟨rfl, -⟩ := Prod.mk.inj (Except.ok.inj heq)
  dsimp only at hbody ⊢
  unfold decodeBody at hbody
  split at hbody
  · obtain ⟨⟨t1, after1⟩, hstored, heq⟩ := result_bind_eq_ok.mp hbody
    obtain ⟨rfl, -⟩ := Prod.mk.inj (Except.ok.inj heq)
    simp only [decodeStored, result_bind_eq_ok] at hstored
    obtain ⟨_, -, _, -, _, -, ⟨bytes, _⟩, -, _, hextend, heq⟩ := hstored
    obtain ⟨rfl, -⟩ := Prod.mk.inj (Except.ok.inj heq)
    obtain rfl := Except.ok.inj hextend
    intro op hmem
    rw [List.mem_singleton.mp hmem]
    trivial
  split at hbody
  · simp only [result_bind_eq_ok] at hbody
    obtain ⟨_, -, ⟨t1, after1⟩, hblock, heq⟩ := hbody
    obtain ⟨rfl, -⟩ := Prod.mk.inj (Except.ok.inj heq)
    exact decodeHuffmanBlock_proper (fun _ hmem => absurd hmem (by simp)) hblock
  split at hbody
  · simp only [result_bind_eq_ok] at hbody
    obtain ⟨_, -, ⟨t1, after1⟩, hblock, heq⟩ := hbody
    obtain ⟨rfl, -⟩ := Prod.mk.inj (Except.ok.inj heq)
    exact decodeHuffmanBlock_proper (fun _ hmem => absurd hmem (by simp)) hblock
  · cases hbody

section Block

variable {α : Type} [DeflateOutput α] {data : List UInt8} {bit : Nat}

private theorem decodeBlock_replays (data : List UInt8) (member bit : Nat) {out : α}
    (counts : Counts out) :
    (∃ error error', blockTrace data bit = .error error ∧
      decodeBlock data member bit out = .error error') ∨
    ∃ t block next, blockTrace data bit = .ok (t, block, next) ∧
      decodeBlock data member bit out =
        match replay out t.ops with
        | .error error => .error error
        | .ok out' =>
          .ok (out', { block with member, decodedStart := totalDecoded out }, next) := by
  unfold blockTrace decodeBlock
  cases Bits.read data bit 1 with
  | error error => exact .inl ⟨_, _, rfl, rfl⟩
  | ok final =>
  simp only [result_bind_ok]
  cases Bits.read data final.2 2 with
  | error error => exact .inl ⟨_, _, rfl, rfl⟩
  | ok code =>
  have hbody := decodeBody_replays data code.1 code.2 {} out
  simp only [result_bind_ok]
  unfold Replays at hbody
  split at hbody
  case h_1 error htraced =>
    obtain ⟨error, hactual⟩ := hbody
    rw [htraced, hactual]
    exact .inl ⟨_, _, rfl, rfl⟩
  case h_2 t value htraced =>
    obtain ⟨ops, hops, hactual⟩ := hbody
    rw [htraced, hactual]
    obtain rfl : t.ops = ops := hops
    refine .inr ⟨t, _, _, rfl, ?_⟩
    cases hreplay : replay out t.ops with
    | error error => rfl
    | ok out' =>
      have hlen : totalDecoded out' - totalDecoded out = totalDecoded t - totalDecoded ({} : Trace) := by
        rw [counts hreplay, Nat.add_sub_cancel_left]
        rfl
      simp only [result_bind_ok, hlen]
      rfl

theorem decodeBlock_of_trace {t : Trace} {block : Block} {next : Nat} (member : Nat) {out : α}
    (counts : Counts out) (h : blockTrace data bit = .ok (t, block, next)) :
    decodeBlock data member bit out =
      match replay out t.ops with
      | .error error => .error error
      | .ok out' =>
        .ok (out', { block with member, decodedStart := totalDecoded out }, next) := by
  obtain ⟨_, _, herror, -⟩ | ⟨t', block', next', htrace, hactual⟩ :=
    decodeBlock_replays data member bit counts
  · rw [herror] at h
    cases h
  · obtain ⟨rfl, rfl, rfl⟩ : t' = t ∧ block' = block ∧ next' = next := by
      simpa [htrace] using h
    exact hactual

theorem decodeBlock_of_error {error : Error} (member : Nat) {out : α} (counts : Counts out)
    (h : blockTrace data bit = .error error) :
    ∃ error, decodeBlock data member bit out = .error error := by
  obtain ⟨_, error', -, hactual⟩ | ⟨t', block', next', htrace, -⟩ :=
    decodeBlock_replays data member bit counts
  · exact ⟨error', hactual⟩
  · rw [htrace] at h
    cases h

theorem blockTrace_of_ok {member next : Nat} {out out' : α} {block : Block} (counts : Counts out)
    (h : decodeBlock data member bit out = .ok (out', block, next)) :
    ∃ t block', blockTrace data bit = .ok (t, block', next) ∧ replay out t.ops = .ok out' ∧
      block = { block' with member, decodedStart := totalDecoded out } := by
  obtain ⟨_, _, -, hactual⟩ | ⟨t, block', next', htrace, hactual⟩ :=
    decodeBlock_replays data member bit counts
  · rw [hactual] at h
    cases h
  · rw [hactual] at h
    split at h
    · cases h
    · rename_i hreplay
      simp only [Except.ok.injEq, Prod.mk.injEq] at h
      obtain ⟨rfl, rfl, rfl⟩ := h
      exact ⟨t, block', htrace, hreplay, rfl⟩

end Block

end Fbz.Deflate
