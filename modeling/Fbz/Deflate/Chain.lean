import Fbz.Deflate.Parallel
import Fbz.Deflate.Resolve
import Fbz.Deflate.Simulation

/-!
# A stream as a chain of segments

Decoding a stream segment by segment is decoding it block by block. The segments are those the
blocks of the stream fall into, and decode within the limit when their blocks are short enough.
-/

namespace Fbz.Deflate

open DeflateOutput

variable {crc : Crc32}

theorem Emitter.run_decodedBase {e e' : Emitter crc} {op : Op} (h : op.run e = .ok e') :
    e'.decodedBase = e.decodedBase := by
  cases op with
  | emit byte => exact (grown_counts h).2
  | extend bytes => exact (grown_counts h).2
  | copy distance length =>
    obtain ⟨_, -, hgrown⟩ := result_bind_eq_ok.mp h
    exact (grown_counts hgrown).2

theorem emitter_simulates (base : Nat) :
    Simulates True (2 ^ 64) (· + base) fun (e : Emitter crc) h =>
      e.Emits h ∧ h.bytes.length < 2 ^ 64 ∧ e.decodedBase = base where
  run := by
    rintro e h op ⟨hemits, -, hbase⟩ -
    have hrun := hemits.run op
    cases hop : op.run h with
    | error error =>
      rw [hop] at hrun
      exact fun _ => hrun
    | ok h' =>
      rw [hop] at hrun
      rw [Answers]
      dsimp only at hrun
      split at hrun
      case isTrue small =>
        obtain ⟨e', heq, hemits'⟩ := hrun
        rw [if_pos small]
        exact ⟨e', heq, hemits', small, (Emitter.run_decodedBase heq).trans hbase⟩
      case isFalse large =>
        rw [if_neg large]
        exact hrun
  below := fun h => h.2.1
  counts := fun {e _} _ => e.counts
  decoded := by
    rintro e h ⟨hemits, -, rfl⟩
    show e.decodedBase + e.memberDecoded = h.bytes.length + e.decodedBase
    rw [hemits.counted, Nat.add_comm]

namespace MarkerOutput

variable {m m' : MarkerOutput}

private theorem run_limit {op : Op} (h : op.run m = .ok m') : m'.limit = m.limit := by
  have hextend {bytes : List UInt8} (h : m.extendBytes bytes = .ok m') : m'.limit = m.limit := by
    obtain ⟨_, -, heq⟩ := result_bind_eq_ok.mp h
    rw [← Except.ok.inj heq]
    split <;> rfl
  cases op with
  | emit byte => exact hextend h
  | extend bytes => exact hextend h
  | copy distance length =>
    obtain ⟨_, -, h⟩ := result_bind_eq_ok.mp h
    split at h <;>
    · obtain ⟨_, -, heq⟩ := result_bind_eq_ok.mp h
      rw [← Except.ok.inj heq]

private theorem tryClean_limit (m : MarkerOutput) : m.tryClean.limit = m.limit := by
  simp only [tryClean, apply_ite MarkerOutput.limit, ite_self]

private theorem run_room {op : Op} (h : op.run m = .ok m') : op.length ≤ m.limit - m.len := by
  cases op with
  | emit byte =>
    obtain ⟨_, hroom, -⟩ := result_bind_eq_ok.mp h
    exact ensure_eq_ok.mp hroom
  | extend bytes =>
    obtain ⟨_, hroom, -⟩ := result_bind_eq_ok.mp h
    exact ensure_eq_ok.mp hroom
  | copy distance length =>
    obtain ⟨_, hroom, -⟩ := result_bind_eq_ok.mp h
    exact ensure_eq_ok.mp hroom

private theorem extendBytes_of_room {bytes : List UInt8} (room : bytes.length ≤ m.limit - m.len) :
    m.extendBytes bytes = .ok (if m.cleanMode then { m with clean := m.clean ++ bytes }
      else { m with marked := m.marked ++ bytes.map UInt8.toNat }) := by
  rw [extendBytes, ensureCapacity, ensure_of room, result_bind_ok]
  rfl

private theorem copyMatch_of_room {distance length : Nat} (room : length ≤ m.limit - m.len) :
    m.copyMatch distance length =
      if m.cleanMode then
        (checkDistance distance (min m.clean.length windowSize)).map fun _ =>
          { m with clean := extendMatch m.clean distance length }
      else
        (checkDistance distance (match m.history with
          | .empty => min m.marked.length windowSize
          | .unknown => windowSize)).map fun _ =>
          { m with marked := copyMarked m.marked distance length } := by
  rw [copyMatch, ensureCapacity, ensure_of room, result_bind_ok]
  rfl

end MarkerOutput

theorem checkDistance_of {distance available : Nat} (pos : 0 < distance)
    (near : distance ≤ available) : checkDistance distance available = .ok () :=
  ensure_of ⟨by omega, near⟩

private theorem history_run_length {h h' : History} {op : Op} (hrun : op.run h = .ok h') :
    h'.bytes.length = h.bytes.length + op.length := by
  have hreplay : replay h [op] = .ok h' := by rw [replay_singleton, hrun]
  have := h.counts hreplay
  change h'.bytes.length = h.bytes.length + _ at this
  simpa using this

/-- With its history known to be the bytes `before`, a segment that fits decodes. -/
theorem unknown_simulates (before : List UInt8) (limit : Nat) :
    Simulates False (before.length + limit + 1) (· - before.length) fun m h =>
      (Reads m ∧ Agrees before (view (lastWindow before) m) h ∧ m.limit = limit) ∧
        h.bytes.length < before.length + limit + 1 where
  run := by
    rintro m h op ⟨⟨reads, agrees, rfl⟩, hbelow⟩ proper
    cases hop : op.run h with
    | error error => exact fun hfalse => hfalse.elim
    | ok h' =>
      have hlen := history_run_length hop
      have hdecoded : totalDecoded h = totalDecoded m + before.length :=
        Tracks.totalDecoded agrees reads
      change h.bytes.length = m.len + before.length at hdecoded
      rw [Answers]
      split
      case isTrue small =>
        have hroom : op.length ≤ m.limit - m.len := by omega
        obtain ⟨m', hm⟩ : ∃ m', op.run m = .ok m' := by
          cases op with
          | emit byte => exact ⟨_, MarkerOutput.extendBytes_of_room hroom⟩
          | extend bytes => exact ⟨_, MarkerOutput.extendBytes_of_room hroom⟩
          | copy distance length =>
            obtain ⟨hpos, hle, -⟩ := proper
            change length ≤ m.limit - m.len at hroom
            change distance ≤ windowSize at hle
            change ∃ m', m.copyMatch distance length = .ok m'
            rw [MarkerOutput.copyMatch_of_room hroom]
            by_cases hmode : m.cleanMode
            · have := reads.whole hmode
              rw [if_pos hmode, checkDistance_of hpos (Nat.le_min.mpr ⟨Nat.le_trans hle this, hle⟩)]
              exact ⟨_, rfl⟩
            · rw [if_neg hmode, reads.unknown, checkDistance_of hpos hle]
              exact ⟨_, rfl⟩
        have htracks := Tracks.run (r := .ok h) agrees reads proper hm
        rw [result_bind_ok, hop] at htracks
        exact ⟨m', hm, ⟨(reads.run hm).1, htracks, MarkerOutput.run_limit hm⟩, small⟩
      case isFalse large =>
        cases hm : op.run m with
        | error error => exact ⟨error, rfl⟩
        | ok m' =>
          have := MarkerOutput.run_room hm
          omega
  below := fun h => h.2
  counts := fun h => h.1.1.counts
  decoded := by
    rintro m h ⟨⟨reads, agrees, -⟩, -⟩
    have : totalDecoded h = totalDecoded m + before.length :=
      Tracks.totalDecoded agrees reads
    change h.bytes.length = totalDecoded m + before.length at this
    omega

/-- A segment at the start of a member has all its history. -/
structure Initial (limit : Nat) (m : MarkerOutput) (h : History) : Prop where
  mode : m.cleanMode = true
  clean : m.clean = h.bytes
  start : m.cleanStart = 0
  marked : m.marked = []
  limit_eq : m.limit = limit
  below : h.bytes.length < limit + 1

private theorem Initial.len {limit : Nat} {m : MarkerOutput} {h : History}
    (initial : Initial limit m h) : m.len = h.bytes.length := by
  rw [MarkerOutput.len, initial.marked, initial.start, initial.clean, List.length_nil]
  omega

private theorem clean_counts {m : MarkerOutput} (mode : m.cleanMode = true)
    (start : m.cleanStart ≤ m.clean.length) : Counts m := by
  refine @Counts.of_invariant _ _ (fun m => m.cleanMode = true ∧ m.cleanStart ≤ m.clean.length)
    (fun {m m' op} inv hrun => ?_) _ ⟨mode, start⟩
  obtain ⟨hmode, hstart⟩ := inv
  have key {clean : List UInt8} (hlen : clean.length = m.clean.length + op.length) :
      ({ m with clean := clean } : MarkerOutput).cleanMode = true ∧ m.cleanStart ≤ clean.length ∧
        ({ m with clean := clean } : MarkerOutput).len = m.len + op.length := by
    refine ⟨hmode, by omega, ?_⟩
    simp only [MarkerOutput.len]
    omega
  have hbytes {bytes : List UInt8} (hlen : bytes.length = op.length)
      (hrun : m.extendBytes bytes = .ok m') :
      (m'.cleanMode = true ∧ m'.cleanStart ≤ m'.clean.length) ∧ m'.len = m.len + op.length := by
    obtain ⟨_, -, heq⟩ := result_bind_eq_ok.mp hrun
    rw [if_pos hmode] at heq
    obtain rfl := Except.ok.inj heq
    obtain ⟨h1, h2, h3⟩ := @key (m.clean ++ bytes) (by rw [List.length_append, hlen])
    exact ⟨⟨h1, h2⟩, h3⟩
  cases op with
  | emit byte => exact hbytes rfl hrun
  | extend bytes => exact hbytes rfl hrun
  | copy distance length =>
    obtain ⟨_, -, hrun⟩ := result_bind_eq_ok.mp hrun
    rw [if_pos hmode] at hrun
    obtain ⟨_, hcheck, heq⟩ := result_bind_eq_ok.mp hrun
    obtain rfl := Except.ok.inj heq
    obtain ⟨hpos, hle⟩ := checkDistance_eq_ok hcheck
    obtain ⟨h1, h2, h3⟩ := key (@extendMatch_length _ _ _ length hpos (by omega))
    exact ⟨⟨h1, h2⟩, h3⟩

private theorem initial_simulates (limit : Nat) :
    Simulates True (limit + 1) (· + 0) (Initial limit) where
  run := by
    intro m h op initial proper
    have hlen := initial.len
    obtain ⟨hmode, hclean, hstart, hmarked, rfl, hbelow⟩ := initial
    have key {bytes : List UInt8} (added : bytes.length = op.length)
        (hm : op.length ≤ m.limit - m.len → op.run m = .ok { m with clean := m.clean ++ bytes }) :
        Answers True (m.limit + 1) (Initial m.limit) (op.run m) (.ok ⟨h.bytes ++ bytes⟩) := by
      rw [Answers]
      dsimp only
      rw [List.length_append]
      split
      case isTrue small =>
        refine ⟨_, hm (by omega), hmode, by rw [hclean], hstart, hmarked, rfl, ?_⟩
        dsimp only
        rw [List.length_append]
        exact small
      case isFalse large =>
        cases hrun : op.run m with
        | error error => exact ⟨error, rfl⟩
        | ok m' =>
          have := MarkerOutput.run_room hrun
          omega
    cases op with
    | emit byte =>
      exact @key [byte] rfl fun hroom => by
        change [byte].length ≤ m.limit - m.len at hroom
        change m.extendBytes [byte] = _
        rw [MarkerOutput.extendBytes_of_room hroom, if_pos hmode]
    | extend bytes =>
      exact @key bytes rfl fun hroom => by
        change m.extendBytes bytes = _
        rw [MarkerOutput.extendBytes_of_room hroom, if_pos hmode]
    | copy distance length =>
      obtain ⟨hpos, -, -⟩ := proper
      dsimp only [Op.run, DeflateOutput.copy] at key ⊢
      rw [← hclean]
      by_cases hnear : distance ≤ min m.clean.length windowSize
      · obtain ⟨rest, hrest⟩ := @Lz.prefix_copyBack _ _ length m.clean hpos (by omega)
        have hcopy := @extendMatch_eq_copyBack _ _ _ length hpos
          (Nat.le_trans hnear (Nat.min_le_left _ _))
        have hadded : rest.length = length := by
          have := @Lz.copyBack_length _ _ length m.clean hpos (by omega)
          rw [← hrest, List.length_append] at this
          omega
        rw [checkDistance_of hpos hnear, result_bind_ok, ← hrest, hclean]
        refine key hadded fun hroom => ?_
        change length ≤ m.limit - m.len at hroom
        rw [MarkerOutput.copyMatch_of_room hroom, if_pos hmode, checkDistance_of hpos hnear, hcopy,
          ← hrest]
        rfl
      · rw [checkDistance, ensure_of_not fun hcheck => hnear hcheck.2]
        intro _
        by_cases hroom : length ≤ m.limit - m.len
        · rw [MarkerOutput.copyMatch_of_room hroom, if_pos hmode, checkDistance,
            ensure_of_not fun hcheck => hnear hcheck.2]
          exact ⟨_, rfl⟩
        · rw [MarkerOutput.copyMatch, MarkerOutput.ensureCapacity, ensure_of_not hroom]
          exact ⟨_, rfl⟩
  below := fun h => h.below
  counts := fun h => clean_counts h.mode (by rw [h.start]; exact Nat.zero_le _)
  decoded := fun h => h.len

section Segments

variable {data : List UInt8} {startBit stopBit limit : Nat} {h : History} {blocks : List Block}
  {endBit : Nat} {fin : Bool}

private theorem decodeSegment_of_until {history : InitialHistory} {m : MarkerOutput}
    (inside : startBit ≤ data.length * 8)
    (hloop : decodeUntil data stopBit MarkerOutput.tryClean startBit []
      (MarkerOutput.new history limit) = .ok (m, blocks, endBit, fin)) :
    decodeSegment crc data startBit stopBit history limit =
      .ok ⟨startBit, endBit, m.marked, m.clean, m.cleanStart,
        crc.update crc.new (m.clean.drop m.cleanStart), blocks, fin⟩ := by
  rw [decodeSegment, Bits.start, ensure_of inside, result_bind_ok]
  simp only [pure, Except.pure, result_bind_ok, hloop]

theorem decodeUntil_bounds {α : Type} [DeflateOutput α] {afterBlock : α → α} {bit : Nat}
    {blocks' : List Block} {out out' : α}
    (h : decodeUntil data stopBit afterBlock bit blocks out = .ok (out', blocks', endBit, fin)) :
    bit < endBit ∧ endBit ≤ data.length * 8 ∧ (fin = false → stopBit ≤ endBit) := by
  induction bit, blocks, out using @decodeUntil.induct α _ data stopBit afterBlock with
  | case1 bit blocks out error hblock =>
    rw [decodeUntil_eq, hblock] at h
    cases h
  | case2 bit blocks out out1 block next hblock hfinal =>
    rw [decodeUntil_eq, hblock] at h
    simp only [hfinal, if_true, Except.ok.injEq, Prod.mk.injEq] at h
    obtain ⟨-, -, rfl, rfl⟩ := h
    have := decodeBlock_advances hblock
    have := Bits.le_alignByte next
    have := @Bits.alignByte_le data next (by omega)
    exact ⟨by omega, by omega, by simp⟩
  | case3 bit blocks out out1 block next hblock hfinal hstop =>
    rw [decodeUntil_eq, hblock] at h
    simp only [hfinal, if_pos hstop, Bool.false_eq_true, if_false, Except.ok.injEq,
      Prod.mk.injEq] at h
    obtain ⟨-, -, rfl, rfl⟩ := h
    have := decodeBlock_advances hblock
    exact ⟨by omega, by omega, fun _ => hstop.1⟩
  | case4 bit blocks out out1 block next hblock hfinal hstop ih =>
    rw [decodeUntil_eq, hblock] at h
    simp only [hfinal, if_neg hstop, Bool.false_eq_true, if_false] at h
    have := decodeBlock_advances hblock
    obtain ⟨h1, h2, h3⟩ := ih h
    exact ⟨by omega, h2, h3⟩

theorem decodeSegment_bounds {history : InitialHistory} {segment : Segment crc}
    (h : decodeSegment crc data startBit stopBit history limit = .ok segment) :
    startBit < segment.endBit ∧ segment.endBit ≤ data.length * 8 ∧
      (segment.finalBlock = false → stopBit ≤ segment.endBit) := by
  obtain ⟨-, -, m, hloop, -⟩ := decodeSegment_until h
  exact decodeUntil_bounds hloop

theorem decodeSegment_symbols {segment : Segment crc}
    (h : decodeSegment crc data startBit stopBit .unknown limit = .ok segment) :
    ∀ symbol ∈ segment.marked, IsSymbol symbol := by
  obtain ⟨-, -, m, hloop, hmarked, -⟩ := decodeSegment_until h
  have htracks : Tracks [] (MarkerOutput.new .unknown limit) (.ok {}) := agrees_new [] limit
  rw [hmarked]
  exact (htracks.decodeUntil (Reads.new limit) hloop).1.symbols

private theorem decodeSegment_of_until_error {history : InitialHistory} {error : Error}
    (hloop : decodeUntil data stopBit MarkerOutput.tryClean startBit []
      (MarkerOutput.new history limit) = .error error) :
    ∃ error, (decodeSegment crc data startBit stopBit history limit) = .error error := by
  rw [decodeSegment]
  cases hstart : Bits.start data startBit with
  | error error' => exact ⟨error', rfl⟩
  | ok bit =>
    obtain ⟨_, -, heq⟩ := result_bind_eq_ok.mp hstart
    obtain rfl := Except.ok.inj heq
    rw [result_bind_ok, hloop]
    exact ⟨error, rfl⟩

/-- The first segment is what its blocks decode to, if that fits. -/
theorem initial_segment (inside : startBit ≤ data.length * 8) :
    match decodeUntil data stopBit id startBit [] ({} : History) with
    | .error _ => ∃ error, decodeSegment crc data startBit stopBit .empty limit = .error error
    | .ok (h, blocks, endBit, fin) =>
      if h.bytes.length ≤ limit then
        decodeSegment crc data startBit stopBit .empty limit =
          .ok ⟨startBit, endBit, [], h.bytes, 0, crc.update crc.new h.bytes,
            blocks.map (Block.commit 0 0), fin⟩
      else ∃ error, decodeSegment crc data startBit stopBit .empty limit = .error error := by
  have hrelated : Initial limit (MarkerOutput.new .empty limit) {} :=
    ⟨rfl, rfl, rfl, rfl, rfl, Nat.succ_pos _⟩
  have hkeeps {m : MarkerOutput} {h : History} (initial : Initial limit m h) :
      Initial limit m.tryClean h := by
    rwa [MarkerOutput.tryClean, if_pos (.inl initial.mode)]
  have hanswer := (initial_simulates limit).decodeUntil hkeeps hrelated data stopBit startBit []
  cases hloop : decodeUntil data stopBit id startBit [] ({} : History) with
  | error error =>
    rw [hloop] at hanswer
    obtain ⟨error', hm⟩ := hanswer trivial
    exact decodeSegment_of_until_error hm
  | ok found =>
    obtain ⟨h, blocks, endBit, fin⟩ := found
    rw [hloop, AnswersWith] at hanswer
    dsimp only
    split at hanswer
    case isTrue small =>
      obtain ⟨m, hm, initial⟩ := hanswer
      rw [if_pos (Nat.le_of_lt_succ small), decodeSegment_of_until inside hm, initial.marked,
        initial.clean, initial.start, List.drop_zero]
      rfl
    case isFalse large =>
      rw [if_neg (by omega)]
      obtain ⟨error', hm⟩ := hanswer
      exact decodeSegment_of_until_error hm

/-- A later segment decodes exactly as long as it fits, once its blocks decode behind a history. -/
theorem unknown_segment {before : List UInt8} (inside : startBit ≤ data.length * 8)
    (hloop : decodeUntil data stopBit id startBit [] ⟨before⟩ = .ok (h, blocks, endBit, fin)) :
    (∃ segment : Segment crc, decodeSegment crc data startBit stopBit .unknown limit = .ok segment) ↔
      h.bytes.length ≤ before.length + limit := by
  have hkeeps {m : MarkerOutput} {h : History}
      (related : (Reads m ∧ Agrees before (view (lastWindow before) m) h ∧ m.limit = limit) ∧
        h.bytes.length < before.length + limit + 1) :
      (Reads m.tryClean ∧ Agrees before (view (lastWindow before) m.tryClean) h ∧
        m.tryClean.limit = limit) ∧ h.bytes.length < before.length + limit + 1 := by
    obtain ⟨⟨reads, agrees, hlimit⟩, hbelow⟩ := related
    obtain ⟨hreads, hview⟩ := reads.tryClean
    exact ⟨⟨hreads, by rwa [hview], by rwa [MarkerOutput.tryClean_limit]⟩, hbelow⟩
  have hanswer := (unknown_simulates before limit).decodeUntil hkeeps
    ⟨⟨Reads.new limit, agrees_new before limit, rfl⟩, by dsimp only; omega⟩ data stopBit startBit []
  rw [hloop, AnswersWith] at hanswer
  split at hanswer
  case isTrue small =>
    obtain ⟨m, hm, -⟩ := hanswer
    exact ⟨fun _ => Nat.le_of_lt_succ small, fun _ => ⟨_, decodeSegment_of_until inside hm⟩⟩
  case isFalse large =>
    obtain ⟨error', hm⟩ := hanswer
    obtain ⟨error, hsegment⟩ := @decodeSegment_of_until_error crc _ _ _ _ _ _ hm
    rw [hsegment]
    constructor
    · rintro ⟨_, hok⟩
      cases hok
    · intro hle
      omega

theorem unknown_segment_ends {before : List UInt8} {segment : Segment crc}
    (hsegment : decodeSegment crc data startBit stopBit .unknown limit = .ok segment)
    (hloop : decodeUntil data stopBit id startBit [] ⟨before⟩ = .ok (h, blocks, endBit, fin)) :
    segment.endBit = endBit ∧ segment.finalBlock = fin := by
  obtain ⟨hresolves, hdecodes⟩ := resolveSegment_iff hsegment before
  obtain ⟨resolved, hresolved⟩ := hresolves.mpr ⟨_, hloop⟩
  cases hloop.symm.trans (hdecodes resolved hresolved)
  exact ⟨rfl, rfl⟩

end Segments

end Fbz.Deflate
