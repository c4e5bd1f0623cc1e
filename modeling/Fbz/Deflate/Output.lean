import Fbz.Crc32
import Fbz.Deflate.Trace
import Fbz.History

/-!
# Outputs of the serial decoder

`History` is what DEFLATE means: all bytes so far, and back references of at most 32 KiB into them.
The emitter of the code hands its buffer on in pieces and keeps only the window; it refines the
history as long as the length fits a `u64`.
-/

namespace Fbz.Deflate

open DeflateOutput Lz

def windowSize : Nat := 32 * 1024
def outputChunk : Nat := 64 * 1024
def historyCompact : Nat := 1024 * 1024

def checkDistance (distance available : Nat) : Result Unit :=
  ensure (distance ≠ 0 ∧ distance ≤ available)
    (invalid s!"back-reference distance {distance} exceeds {available} available bytes")

/-- All bytes a member has decoded to so far. -/
structure History where
  bytes : List UInt8 := []

instance : DeflateOutput History where
  totalDecoded h := h.bytes.length
  emit h byte := .ok ⟨h.bytes ++ [byte]⟩
  extend h bytes := .ok ⟨h.bytes ++ bytes⟩
  copy h distance length := do
    checkDistance distance (min h.bytes.length windowSize)
    return ⟨copyBack distance length h.bytes⟩

/-- The emitter with the bytes its sink has been given; the sink never fails. -/
structure Emitter (crc : Crc32) where
  output : List UInt8 := []
  buffer : List UInt8 := []
  historyLen : Nat := 0
  hasher : crc.Hasher
  memberDecoded : Nat := 0
  decodedBase : Nat

namespace Emitter

variable {crc : Crc32}

def new (decodedBase : Nat) : Emitter crc := { hasher := crc.new, decodedBase }

/-- Drop all of the buffer but the window once it has grown large. -/
def compact (e : Emitter crc) : Emitter crc :=
  if e.buffer.length ≥ historyCompact then
    let keep := min e.buffer.length windowSize
    { e with buffer := e.buffer.drop (e.buffer.length - keep), historyLen := keep }
  else e

def flushPending (e : Emitter crc) : Emitter crc :=
  let pending := e.buffer.drop e.historyLen
  if pending.isEmpty then e
  else
    compact
      { e with
        output := e.output ++ pending
        hasher := crc.update e.hasher pending
        historyLen := e.buffer.length }

/-- What follows every write to the buffer. -/
def grown (e : Emitter crc) (length : Nat) : Result (Emitter crc) := do
  ensure (e.memberDecoded + length < 2 ^ 64) (invalid "decoded offset overflow")
  let e := { e with memberDecoded := e.memberDecoded + length }
  return if e.buffer.length - e.historyLen ≥ outputChunk then e.flushPending else e

def emitByte (e : Emitter crc) (byte : UInt8) : Result (Emitter crc) :=
  { e with buffer := e.buffer ++ [byte] }.grown 1

def extendBytes (e : Emitter crc) (bytes : List UInt8) : Result (Emitter crc) :=
  { e with buffer := e.buffer ++ bytes }.grown bytes.length

def copyMatch (e : Emitter crc) (distance length : Nat) : Result (Emitter crc) := do
  checkDistance distance (min e.memberDecoded windowSize)
  { e with buffer := extendMatch e.buffer distance length }.grown length

/-- CRC and length of the member, with the state whose sink has everything. -/
def finish (e : Emitter crc) : Emitter crc × Nat × Nat :=
  let e := e.flushPending
  (e, crc.finalize e.hasher, e.memberDecoded)

instance : DeflateOutput (Emitter crc) where
  -- exact, where the `u64` sum of the code wraps
  totalDecoded e := e.decodedBase + e.memberDecoded
  emit := emitByte
  extend := extendBytes
  copy := copyMatch

end Emitter

theorem checkDistance_eq_ok {distance available : Nat} {u : Unit}
    (h : checkDistance distance available = .ok u) : 0 < distance ∧ distance ≤ available := by
  have := ensure_eq_ok.mp h
  omega

theorem History.counts (h : History) : Counts h := by
  refine @Counts.of_invariant _ _ (fun _ => True) (fun {h h' op} _ hrun => ⟨trivial, ?_⟩) _ trivial
  cases op with
  | emit byte =>
    obtain rfl := Except.ok.inj hrun
    exact List.length_append
  | extend bytes =>
    obtain rfl := Except.ok.inj hrun
    exact List.length_append
  | copy distance length =>
    obtain ⟨u, hcheck, heq⟩ := result_bind_eq_ok.mp hrun
    obtain rfl := Except.ok.inj heq
    have := checkDistance_eq_ok hcheck
    exact copyBack_length this.1 (by omega)

namespace Emitter

variable {crc : Crc32} {e e' : Emitter crc}

@[simp] theorem compact_memberDecoded (e : Emitter crc) :
    e.compact.memberDecoded = e.memberDecoded := by
  unfold compact
  split <;> rfl

@[simp] theorem compact_decodedBase (e : Emitter crc) : e.compact.decodedBase = e.decodedBase := by
  unfold compact
  split <;> rfl

@[simp] theorem flushPending_memberDecoded (e : Emitter crc) :
    e.flushPending.memberDecoded = e.memberDecoded := by
  unfold flushPending
  dsimp only
  split
  · rfl
  · rw [compact_memberDecoded]

@[simp] theorem flushPending_decodedBase (e : Emitter crc) :
    e.flushPending.decodedBase = e.decodedBase := by
  unfold flushPending
  dsimp only
  split
  · rfl
  · rw [compact_decodedBase]

theorem grown_counts {length : Nat} (h : e.grown length = .ok e') :
    e'.memberDecoded = e.memberDecoded + length ∧ e'.decodedBase = e.decodedBase := by
  obtain ⟨_, -, heq⟩ := result_bind_eq_ok.mp h
  obtain rfl := Except.ok.inj heq
  split <;> simp

theorem counts (e : Emitter crc) : Counts e := by
  refine @Counts.of_invariant _ _ (fun _ => True) (fun {e e' op} _ hrun => ⟨trivial, ?_⟩) _ trivial
  have key {f : Emitter crc} {length : Nat} (same : f.memberDecoded = e.memberDecoded ∧
      f.decodedBase = e.decodedBase) (h : f.grown length = .ok e') :
      totalDecoded e' = totalDecoded e + length := by
    obtain ⟨h1, h2⟩ := grown_counts h
    show e'.decodedBase + e'.memberDecoded = e.decodedBase + e.memberDecoded + length
    rw [h1, h2, same.1, same.2, Nat.add_assoc]
  cases op with
  | emit byte => exact key (f := { e with buffer := e.buffer ++ [byte] }) ⟨rfl, rfl⟩ hrun
  | extend bytes => exact key (f := { e with buffer := e.buffer ++ bytes }) ⟨rfl, rfl⟩ hrun
  | copy distance length =>
    obtain ⟨_, -, hgrown⟩ := result_bind_eq_ok.mp hrun
    exact key (f := { e with buffer := extendMatch e.buffer distance length }) ⟨rfl, rfl⟩ hgrown

/-- The sink and the buffer hold the bytes `all`, and the buffer reaches back over the window. -/
structure Holds (e : Emitter crc) (all : List UInt8) : Prop where
  delivered : e.output ++ e.buffer.drop e.historyLen = all
  inside : e.historyLen ≤ e.buffer.length
  suffix : e.buffer <:+ all
  window : min all.length windowSize ≤ e.buffer.length
  hashed : e.hasher = crc.update crc.new e.output

/-- The emitter stands for this history. -/
structure Emits (e : Emitter crc) (h : History) : Prop extends Holds e h.bytes where
  counted : e.memberDecoded = h.bytes.length

theorem emits_new (decodedBase : Nat) : (new decodedBase : Emitter crc).Emits {} where
  delivered := rfl
  inside := Nat.le_refl _
  suffix := List.suffix_refl _
  window := Nat.min_le_left ..
  hashed := (crc.update_nil _).symm
  counted := rfl

variable {all : List UInt8}

private theorem Holds.compact (h : e.Holds all) (flushed : e.historyLen = e.buffer.length) :
    e.compact.Holds all := by
  unfold Emitter.compact
  split
  case isFalse => exact h
  case isTrue big =>
    have hlarge : windowSize ≤ e.buffer.length := Nat.le_trans (by decide) big
    have hdrop : (e.buffer.drop (e.buffer.length - min e.buffer.length windowSize)).length =
        windowSize := by
      rw [List.length_drop]
      omega
    have hdelivered := h.delivered
    rw [flushed, List.drop_length, List.append_nil] at hdelivered
    refine ⟨?_, ?_, ?_, ?_, h.hashed⟩
    · dsimp only
      rw [List.drop_eq_nil_of_le (by omega), List.append_nil, hdelivered]
    · dsimp only
      omega
    · exact (List.drop_suffix _ _).trans h.suffix
    · dsimp only
      omega

theorem Holds.flushPending (h : e.Holds all) :
    e.flushPending.Holds all ∧ e.flushPending.output = all := by
  have hdelivered := h.delivered
  have hkeep (f : Emitter crc) : f.compact.output = f.output := by
    unfold Emitter.compact
    split <;> rfl
  unfold Emitter.flushPending
  dsimp only
  split
  case isTrue idle =>
    rw [List.isEmpty_iff.mp idle, List.append_nil] at hdelivered
    exact ⟨h, hdelivered⟩
  case isFalse =>
    refine ⟨Holds.compact ⟨?_, Nat.le_refl _, h.suffix, h.window, ?_⟩ rfl, ?_⟩
    · dsimp only
      rw [List.drop_length, List.append_nil, hdelivered]
    · dsimp only
      rw [h.hashed, crc.update_append]
    · rw [hkeep, hdelivered]

private theorem Holds.grown {length : Nat} (h : e.Holds all)
    (counted : e.memberDecoded + length = all.length) (fits : all.length < 2 ^ 64) :
    ∃ f, e.grown length = .ok f ∧ f.Emits ⟨all⟩ := by
  have hcounted : { e with memberDecoded := e.memberDecoded + length }.Holds all := { h with }
  rw [Emitter.grown, ensure_of (by omega), result_bind_ok]
  refine ⟨_, rfl, ?_⟩
  split
  · exact { hcounted.flushPending.1 with counted := by simp [counted] }
  · exact { hcounted with counted := counted }

private theorem grown_error {length : Nat} (big : ¬ e.memberDecoded + length < 2 ^ 64) :
    ∃ error, e.grown length = .error error := by
  rw [Emitter.grown, ensure_of_not big]
  exact ⟨_, rfl⟩

private theorem Emits.extend {h : History} (hold : e.Emits h) (bytes : List UInt8) :
    { e with buffer := e.buffer ++ bytes }.Holds (h.bytes ++ bytes) where
  delivered := by
    dsimp only
    rw [List.drop_append_of_le_length hold.inside, ← List.append_assoc, hold.delivered]
  inside := by
    have := hold.inside
    simp only [List.length_append]
    omega
  suffix := by
    obtain ⟨front, hfront⟩ := hold.suffix
    exact ⟨front, by dsimp only; rw [← List.append_assoc, hfront]⟩
  window := by
    have := hold.window
    simp only [List.length_append]
    omega
  hashed := hold.hashed

private theorem Emits.copied {h : History} {distance length : Nat} (hold : e.Emits h)
    (pos : 0 < distance) (le : distance ≤ min h.bytes.length windowSize) :
    { e with buffer := extendMatch e.buffer distance length }.Holds
      (copyBack distance length h.bytes) := by
  have hwindow := hold.window
  obtain ⟨front, hfront⟩ := hold.suffix
  have hle : distance ≤ e.buffer.length := by omega
  obtain ⟨rest, hrest⟩ := @prefix_copyBack _ _ length _ pos hle
  have hcopy : copyBack distance length h.bytes = h.bytes ++ rest := by
    rw [← hfront, copyBack_append pos hle, ← hrest, List.append_assoc]
  rw [extendMatch_eq_copyBack pos hle, ← hrest, hcopy]
  exact hold.extend rest

/-- Each operation does to the emitter what it does to the history, or both refuse it; the emitter
also refuses to count past `u64`. -/
theorem Emits.run {h : History} (hold : e.Emits h) (op : Op) :
    match op.run h with
    | .error _ => ∃ error, op.run e = .error error
    | .ok h' =>
      if h'.bytes.length < 2 ^ 64 then ∃ e', op.run e = .ok e' ∧ e'.Emits h'
      else ∃ error, op.run e = .error error := by
  have hcount := hold.counted
  cases op with
  | emit byte =>
    dsimp only [Op.run, DeflateOutput.emit, emitByte]
    split
    case isTrue fits => exact (hold.extend [byte]).grown (by simp [hcount]) fits
    case isFalse big => exact grown_error (by simpa [hcount] using big)
  | extend bytes =>
    dsimp only [Op.run, DeflateOutput.extend, extendBytes]
    split
    case isTrue fits => exact (hold.extend bytes).grown (by simp [hcount]) fits
    case isFalse big => exact grown_error (by simpa [hcount] using big)
  | copy distance length =>
    dsimp only [Op.run, DeflateOutput.copy, copyMatch]
    rw [← hcount]
    cases hcheck : checkDistance distance (min e.memberDecoded windowSize) with
    | error error => exact ⟨error, rfl⟩
    | ok u =>
      obtain ⟨hpos, hle⟩ := checkDistance_eq_ok hcheck
      rw [hcount] at hle
      have hlen := @copyBack_length _ _ length _ hpos (Nat.le_trans hle (Nat.min_le_left ..))
      simp only [result_bind_ok, pure, Except.pure]
      split
      case isTrue fits =>
        refine (hold.copied hpos hle).grown ?_ fits
        rw [hlen, hcount]
      case isFalse big => exact grown_error (by simpa [hcount, hlen] using big)

private theorem history_replay_le {h h' : History} {ops : List Op} (run : replay h ops = .ok h') :
    h.bytes.length ≤ h'.bytes.length := by
  have := h.counts run
  change h'.bytes.length = h.bytes.length + _ at this
  omega

private theorem Emits.replay_history {h : History} {ops : List Op} (hold : e.Emits h)
    (run : replay e ops = .ok e') : ∃ h', replay h ops = .ok h' ∧ e'.Emits h' := by
  induction ops generalizing e h with
  | nil =>
    obtain rfl := Except.ok.inj run
    exact ⟨h, rfl, hold⟩
  | cons op ops ih =>
    have hstep := hold.run op
    rw [replay] at run ⊢
    cases hop : op.run h with
    | error error =>
      rw [hop] at hstep
      obtain ⟨error, hrefused⟩ := hstep
      rw [hrefused] at run
      cases run
    | ok h1 =>
      rw [hop] at hstep
      dsimp only at hstep
      split at hstep
      · obtain ⟨e1, hrun, hold1⟩ := hstep
        rw [hrun] at run
        exact ih hold1 run
      · obtain ⟨error, hrefused⟩ := hstep
        rw [hrefused] at run
        cases run

private theorem Emits.replay_fits {h h' : History} {ops : List Op} (hold : e.Emits h)
    (run : replay h ops = .ok h') (fits : h'.bytes.length < 2 ^ 64) :
    ∃ e', replay e ops = .ok e' ∧ e'.Emits h' := by
  induction ops generalizing e h with
  | nil =>
    obtain rfl := Except.ok.inj run
    exact ⟨e, rfl, hold⟩
  | cons op ops ih =>
    have hstep := hold.run op
    rw [replay] at run
    cases hop : op.run h with
    | error error =>
      rw [hop] at run
      cases run
    | ok h1 =>
      rw [hop] at run hstep
      dsimp only at hstep
      have hle := history_replay_le run
      rw [if_pos (by omega)] at hstep
      obtain ⟨e1, hrun, hold1⟩ := hstep
      rw [replay, hrun]
      exact ih hold1 run

private theorem Emits.copyMatch_iff {h : History} (hold : e.Emits h) (distance length : Nat) :
    (∃ e', e.copyMatch distance length = .ok e') ↔
      (1 ≤ distance ∧ distance ≤ min windowSize h.bytes.length) ∧
        h.bytes.length + length < 2 ^ 64 := by
  have hcount := hold.counted
  simp only [copyMatch, result_bind_eq_ok, grown, checkDistance, ensure_eq_ok]
  constructor
  · rintro ⟨e', _, hnear, _, hfits, -⟩
    omega
  · rintro ⟨hnear, hfits⟩
    exact ⟨_, (), by omega, (), by omega, rfl⟩

theorem Emits.finish_eq {h : History} (hold : e.Emits h) :
    e.finish.1.output = h.bytes ∧ e.finish.2 = (crc.hash h.bytes, h.bytes.length) := by
  obtain ⟨hholds, hall⟩ := hold.toHolds.flushPending
  refine ⟨hall, ?_⟩
  rw [finish, Crc32.hash]
  dsimp only
  rw [hholds.hashed, hall, flushPending_memberDecoded, hold.counted]

/-- Whatever the emitter has been asked to do: it stands for the history that keeps everything. It
takes a back reference into the window as long as it can count the bytes, its buffer holds the
window, and in the end its sink has all bytes, with their CRC and their number. -/
theorem emitter_exact {decodedBase : Nat} {ops : List Op}
    (run : replay (new decodedBase : Emitter crc) ops = .ok e) :
    ∃ h, replay ({} : History) ops = .ok h ∧
      (∀ distance length, (∃ e', e.copyMatch distance length = .ok e') ↔
        (1 ≤ distance ∧ distance ≤ min windowSize h.bytes.length) ∧
          h.bytes.length + length < 2 ^ 64) ∧
      h.bytes.drop (h.bytes.length - min windowSize h.bytes.length) <:+ e.buffer ∧
      e.finish.1.output = h.bytes ∧ e.finish.2 = (crc.hash h.bytes, h.bytes.length) := by
  obtain ⟨h, hhistory, hold⟩ := (emits_new decodedBase).replay_history run
  refine ⟨h, hhistory, hold.copyMatch_iff, ?_, hold.finish_eq⟩
  refine List.suffix_of_suffix_length_le (List.drop_suffix _ _) hold.suffix ?_
  have := hold.window
  rw [List.length_drop]
  omega

/-- One byte that is repeated. -/
theorem emitter_exact_run : ∃ (e : Emitter Crc32.reference) (h : History),
    replay (new 0 : Emitter Crc32.reference) [.emit 7, .copy 1 3] = .ok e ∧
      replay ({} : History) [.emit 7, .copy 1 3] = .ok h ∧ e.finish.1.output = h.bytes ∧
      e.finish.2 = (Crc32.reference.hash h.bytes, h.bytes.length) := by
  obtain ⟨h, hhistory, -, -, houtput, hfinish⟩ := emitter_exact
    (show replay (new 0 : Emitter Crc32.reference) [.emit 7, .copy 1 3] = .ok _ from rfl)
  exact ⟨_, h, rfl, hhistory, houtput, hfinish⟩

private theorem history_replay_emits (bytes : List UInt8) (n : Nat) :
    replay (⟨bytes⟩ : History) (List.replicate n (.emit 0)) = .ok ⟨bytes ++ List.replicate n 0⟩ := by
  induction n generalizing bytes with
  | zero => simp
  | succ n ih =>
    rw [List.replicate_succ, replay]
    dsimp only [Op.run, DeflateOutput.emit]
    rw [ih, List.append_assoc, List.singleton_append, List.replicate_succ]

private theorem full_emitter {n : Nat} (full : n + 1 = 2 ^ 64) :
    ∃ (e : Emitter Crc32.reference) (h : History),
      replay (new 0 : Emitter Crc32.reference) (List.replicate n (.emit 0)) = .ok e ∧
      replay ({} : History) (List.replicate n (.emit 0)) = .ok h ∧
      (1 ≤ 1 ∧ 1 ≤ min windowSize h.bytes.length) ∧ ¬ ∃ e', e.copyMatch 1 1 = .ok e' := by
  have hrun := history_replay_emits [] n
  obtain ⟨e, he, hold⟩ := (emits_new 0).replay_fits hrun (by simp; omega)
  refine ⟨e, _, he, hrun, ?_, fun hcopy => ?_⟩
  · simp [windowSize]
    omega
  · have := ((hold.copyMatch_iff 1 1).mp hcopy).2
    simp at this
    omega

/-- At the last byte that can be counted, a back reference into the window is refused. -/
theorem emitter_full :
    ∃ (e : Emitter Crc32.reference) (h : History),
      replay (new 0 : Emitter Crc32.reference) (List.replicate (2 ^ 64 - 1) (.emit 0)) = .ok e ∧
      replay ({} : History) (List.replicate (2 ^ 64 - 1) (.emit 0)) = .ok h ∧
      (1 ≤ 1 ∧ 1 ≤ min windowSize h.bytes.length) ∧ ¬ ∃ e', e.copyMatch 1 1 = .ok e' :=
  full_emitter (by decide)

end Emitter

end Fbz.Deflate
